import Hpux910.Sys.VfdWalk
import Hpux910.Lib.Census
import Mathlib

/-!
# Runs of a region

* `fill_spec` : a walk that writes the same value everywhere changes the entries of the range.
* `fillDbds_spec` : the last loop of `growvfd` comes to its end only when the cache names the chunks
  of all new pages.
* `Region.Good` : the invariant of the runs; `regionSys` : the runs of `growvfd`, `shrinkvfd`,
  `dupvfds`, `vfd_setcw` and lookups.
* `foreach_exact` : the walks, in every reachable region.
-/

namespace Hpux

namespace Vfd

open KeyTree List Option

/-! ### Writes of a walk -/

section Fill

variable {rp : Region} {br : Broot} {start cnt : ℕ} {e : VfdDbd}

/-- `for_val3` with `do_filldbd`. -/
theorem forVal3_fill (proto : Dbd) {n j : ℕ} (hfit : j + n ≤ chunkent) (idx : ℕ) (c : Chunk) :
    ∃ c', forVal3 true (doFilldbd proto) n () idx j c = (0, c', ()) ∧
      ∀ x, x < chunkent → c'.at x = if j ≤ x ∧ x < j + n then ⟨vfdNocw, proto⟩ else c.at x := by
  induction n generalizing idx j c with
  | zero =>
    refine ⟨c, rfl, fun x _ => ?_⟩
    rw [if_neg (by omega)]
  | succ n ih =>
    obtain ⟨c', heq, hat⟩ := ih (by omega) (idx + 1) (c.put j ⟨vfdNocw, proto⟩) (j := j + 1)
    refine ⟨c', ?_, fun x hx => ?_⟩
    · rw [forVal3, if_pos (.inl rfl)]
      exact heq
    · rw [hat x hx, Chunk.at_put hx (by omega)]
      by_cases hxj : x = j
      · rw [if_neg (by omega), if_pos hxj, if_pos (by omega)]
      · rw [if_neg hxj]
        by_cases hin : j + 1 ≤ x ∧ x < j + 1 + n
        · rw [if_pos hin, if_pos (by omega)]
        · rw [if_neg hin, if_neg (by omega)]

/-- A chunk after the walk. -/
def fillChunk (proto : Dbd) (start cnt key : ℕ) (c : Chunk) : Chunk :=
  (callPart start cnt (scanFn true (doFilldbd proto)) key c ()).2.1

theorem callPart_fill (proto : Dbd) (start cnt key : ℕ) (c : Chunk) :
    callPart start cnt (scanFn true (doFilldbd proto)) key c () =
      (0, fillChunk proto start cnt key c, ()) := by
  unfold fillChunk
  by_cases hin : InRange start cnt key
  · obtain ⟨c', heq, -⟩ := forVal3_fill proto (part_spec hin).2.2 (part start cnt key).1 c
    rw [callPart, if_pos hin]
    show forVal3 true (doFilldbd proto) _ () _ _ c = (0, (forVal3 true (doFilldbd proto) _ () _ _ c).2.1, ())
    rw [heq]
  · rw [callPart_out hin]

theorem fillChunk_at (proto : Dbd) (c : Chunk) (i : ℕ) :
    (fillChunk proto start cnt (cindex i) c).at (coffset i) =
      if start ≤ i ∧ i < start + cnt then ⟨vfdNocw, proto⟩ else c.at (coffset i) := by
  have hoff : coffset i < chunkent := Nat.mod_lt _ (by decide)
  unfold fillChunk
  by_cases hin : InRange start cnt (cindex i)
  · obtain ⟨h1, h2, h3⟩ := part_spec hin
    obtain ⟨c', heq, hat⟩ := forVal3_fill proto h3 (part start cnt (cindex i)).1 c
    rw [callPart, if_pos hin]
    show (forVal3 true (doFilldbd proto) _ () _ _ c).2.1.at _ = _
    rw [heq, hat _ hoff]
    refine if_congr ?_ rfl rfl
    -- the offsets of the part are those of its pages
    constructor
    · rintro ⟨h4, h5⟩
      obtain ⟨h6, h7, h8⟩ := (h1 ((part start cnt (cindex i)).1 +
        (coffset i - (part start cnt (cindex i)).2.1))).1 ⟨by omega, by omega⟩
      have h9 := h2 (coffset i - (part start cnt (cindex i)).2.1) (by omega)
      have := page_eq (i := i) h8.symm (by omega)
      omega
    · intro h4
      obtain ⟨h5, h6⟩ := (h1 i).2 ⟨h4.1, h4.2, rfl⟩
      have h7 := h2 (i - (part start cnt (cindex i)).1) (by omega)
      rw [show (part start cnt (cindex i)).1 + (i - (part start cnt (cindex i)).1) = i by omega] at h7
      omega
  · rw [callPart_out hin, if_neg]
    exact fun h => not_inRange hin h.1 h.2 rfl

theorem visitChunks_fill (proto : Dbd) (L : List (ℕ × Chunk)) :
    (visitChunks start cnt (scanFn true (doFilldbd proto)) L ()).2.1 =
      L.map fun e => (e.1, fillChunk proto start cnt e.1 e.2) := by
  induction L with
  | nil => rfl
  | cons e L ih =>
    obtain ⟨key, c⟩ := e
    rw [visitChunks_go (callPart_fill proto start cnt key c), ih]
    rfl

theorem lookup_map_snd {α : Type*} (g : ℕ → α → α) (L : List (ℕ × α)) (k : ℕ) :
    (L.map fun e => (e.1, g e.1 e.2)).lookup k = (L.lookup k).map (g k) := by
  induction L with
  | nil => rfl
  | cons e L ih =>
    rw [map_cons, lookup_cons, lookup_cons, ih]
    by_cases hk : k = e.1
    · rw [beq_iff_eq.2 hk, hk]
      rfl
    · rw [beq_eq_false_iff_ne.2 hk]

/-- `foreach_entry` with `do_filldbd` writes the entries of the range, and no others. -/
theorem fill_spec (h : rp.Ok) (hbr : rp.rRoot = some br) (proto : Dbd) : ∃ rp' br',
    foreachEntry rp start cnt (doFilldbd proto) () = (rp', ()) ∧ rp'.Ok ∧
    rp'.rRoot = some br' ∧ br.SameProtos br' ∧ rp'.rPgsz = rp.rPgsz ∧ rp'.rNvalid = rp.rNvalid ∧
    ∀ i, i < maxIndex → rp'.entry i = (rp.entry i).map fun e =>
      if start ≤ i ∧ i < start + cnt then ⟨vfdNocw, proto⟩ else e := by
  obtain ⟨rp', br', heq, hok, hbr', hsame, -, hpg, hnv, -, hlist⟩ :=
    foreachChunk_eq h hbr start cnt (scanFn true (doFilldbd proto)) ()
  refine ⟨rp', br', heq, hok, hbr', hsame, hpg, hnv, fun i hi => ?_⟩
  rw [visitChunks_fill] at hlist
  rw [Region.entry, Region.entry, ← chunkList_lookup hok hbr' (cindex_lt hi),
    ← chunkList_lookup h hbr (cindex_lt hi), hlist, lookup_map_snd, Option.map_map, Option.map_map]
  refine Option.map_congr fun c _ => ?_
  exact fillChunk_at proto c i

end Fill

/-! ### The last loop of `growvfd` -/

/-- The cache names the chunk of the page. -/
def Region.Cached (rp : Region) (i : ℕ) : Prop :=
  ∃ br, rp.rRoot = some br ∧ (br.bKeyCache.1 = cindex i ∨ br.bKeyCache.2 = cindex i)

section FillDbds

variable {rp rp' : Region} {br : Broot} {i : ℕ}

theorem findEntryMacro_cached (h : rp.Cached i) : findEntryMacro rp i = .ok rp := by
  obtain ⟨br, hbr, hc⟩ := h
  unfold findEntryMacro
  simp only [hbr]
  rw [if_pos hc]

theorem findEntryMacro_beyond (h : ¬ rp.Cached i) (hi : rp.rPgsz ≤ i) :
    findEntryMacro rp i = .error .findentry := by
  unfold findEntryMacro
  rcases hbr : rp.rRoot with _ | br
  · rfl
  · simp only
    rw [if_neg fun hc => h ⟨br, hbr, hc⟩, findentry, hbr]
    simp only
    rw [if_pos hi]

theorem cached_modify (f : VfdDbd → VfdDbd) (j : ℕ) : (rp.modify i f).Cached j ↔ rp.Cached j := by
  unfold Region.Cached Region.modify Region.modifyChunk
  split_ifs
  · rfl
  · rcases hbr : rp.rRoot with _ | br <;> simp

theorem modify_fields (rp : Region) (i : ℕ) (f : VfdDbd → VfdDbd) :
    (rp.modify i f).rNvalid = rp.rNvalid ∧ (rp.modify i f).rKey = rp.rKey := by
  unfold Region.modify Region.modifyChunk
  split_ifs <;> exact ⟨rfl, rfl⟩

theorem modify_root (hbr : rp.rRoot = some br) (i : ℕ) (f : VfdDbd → VfdDbd) :
    ∃ br', (rp.modify i f).rRoot = some br' ∧ br.SameProtos br' := by
  unfold Region.modify Region.modifyChunk
  split_ifs
  · exact ⟨br, hbr, .refl br⟩
  · exact ⟨_, congrArg (Option.map _) hbr, rfl, rfl, rfl, rfl⟩

/-- The loop writes the entries when the cache names all their chunks. -/
theorem fillDbds_spec (type : DbdType) (n : ℕ) {x : ℕ} (h : rp.Ok) (hbr : rp.rRoot = some br)
    (hc : ∀ i, x ≤ i → i < x + n → rp.Cached i) : ∃ rp' br', fillDbds type n x rp = .ok rp' ∧
      rp'.Ok ∧ rp'.rRoot = some br' ∧ br.SameProtos br' ∧ rp'.rPgsz = rp.rPgsz ∧
      rp'.rNvalid = rp.rNvalid ∧ ∀ i, rp'.entry i = (rp.entry i).map fun e =>
        if x ≤ i ∧ i < x + n then { e with cDbd := ⟨type, dbdDinval⟩ } else e := by
  induction n generalizing x rp br with
  | zero =>
    refine ⟨rp, br, rfl, h, hbr, .refl br, rfl, rfl, fun i => ?_⟩
    rcases rp.entry i with _ | e
    · rfl
    · rw [map_some, if_neg (by omega)]
  | succ n ih =>
    rw [fillDbds, findEntryMacro_cached (hc x le_rfl (by omega))]
    obtain ⟨f, hf⟩ : ∃ f : VfdDbd → VfdDbd, f = fun e => { e with cDbd := ⟨type, dbdDinval⟩ } :=
      ⟨_, rfl⟩
    obtain ⟨br₁, hbr₁, hsame₁⟩ := modify_root hbr x f
    obtain ⟨rp', br', heq, hok, hbr', hsame, hpg, hnv, hent⟩ := ih (x := x + 1) (h.modify f) hbr₁
      fun i h1 h2 => (cached_modify f i).2 (hc i (by omega) (by omega))
    rw [hf] at heq
    refine ⟨rp', br', heq, hok, hbr', hsame₁.trans hsame, hpg.trans (modify_proto rp x f).1,
      hnv.trans (modify_fields rp x f).1, fun i => ?_⟩
    rw [hent, entry_modify]
    rcases rp.entry i with _ | e
    · split_ifs <;> rfl
    · by_cases hix : i = x
      · rw [if_pos hix, hf]
        simp only [map_some]
        rw [if_neg (by omega), if_pos (by omega)]
      · rw [if_neg hix]
        simp only [map_some]
        by_cases hin : x ≤ i ∧ i < x + (n + 1)
        · rw [if_pos (by omega), if_pos hin]
        · rw [if_neg (by omega), if_neg hin]

/-- Else it panics. -/
theorem fillDbds_panic (type : DbdType) (n : ℕ) {x : ℕ} (hx : rp.rPgsz ≤ x)
    (hc : ∃ i, x ≤ i ∧ i < x + n ∧ ¬ rp.Cached i) : fillDbds type n x rp = .error .findentry := by
  induction n generalizing x rp with
  | zero =>
    obtain ⟨i, h1, h2, -⟩ := hc
    omega
  | succ n ih =>
    obtain ⟨i, h1, h2, hi⟩ := hc
    by_cases hhere : rp.Cached x
    · rw [fillDbds, findEntryMacro_cached hhere]
      refine ih ((modify_proto rp x _).1.trans_le (by omega)) ⟨i, ?_, by omega, fun h => ?_⟩
      · have : i ≠ x := by
          rintro rfl
          exact hi hhere
        omega
      · exact hi ((cached_modify _ i).1 h)
    · rw [fillDbds, findEntryMacro_beyond hhere hx]

end FillDbds

/-! ### Runs -/

/-- The page has a valid entry. -/
def Region.Valid (rp : Region) (i : ℕ) : Prop := ∃ e, rp.entry i = some e ∧ e.cVfd.pgV = true

/-- Write to the entry of page `i`; the writer keeps `r_nvalid` up to date. -/
def Region.write (rp : Region) (i : ℕ) (f : VfdDbd → VfdDbd) : Region :=
  match rp.entry i with
  | none => rp
  | some e => { rp.modify i f with
      rNvalid := rp.rNvalid + (f e).cVfd.pgV.toNat - e.cVfd.pgV.toNat }

/-- The calls. -/
inductive Call
  /-- `growvfd`. -/
  | grow (amount : ℕ) (type : DbdType) (swap : Bool) (mem : Dbd)
  /-- `shrinkvfd`. -/
  | shrink (amount : ℕ)
  /-- `dupvfds`; the run goes on with the copy. -/
  | dup (off count : ℕ) (swap : Bool) (mem : Dbd)
  /-- `vfd_setcw`. -/
  | setcw (idx cnt : ℕ)
  /-- A lookup, and what its caller writes to the entry. -/
  | lookup (i : ℕ) (f : VfdDbd → VfdDbd)

/-- One call that comes back.  `growreg` frees the pages before it shrinks a region, and `dupreg`
checks the range. -/
inductive CallStep : Region → Call → Region → Prop
  | grow {rp rp' : Region} {amount r : ℕ} {type : DbdType} {swap : Bool} {mem : Dbd}
      (hfit : rp.rPgsz + amount < maxPages) (h : growvfd rp amount type swap mem = .ok (r, rp')) :
      CallStep rp (.grow amount type swap mem) rp'
  | shrink {rp : Region} {amount : ℕ} (hpos : 0 < amount) (hfit : amount ≤ rp.rPgsz)
      (hfree : ∀ i, rp.rPgsz - amount ≤ i → i < rp.rPgsz → ¬ rp.Valid i) :
      CallStep rp (.shrink amount) (shrinkvfd rp amount)
  | dup {rp : Region} {off count : ℕ} {swap : Bool} {mem : Dbd} (hroot : rp.rRoot.isSome)
      (hfit : off + count ≤ rp.rPgsz) :
      CallStep rp (.dup off count swap mem) (dupvfds rp off count swap mem).2
  | setcw {rp rp' : Region} {idx cnt : ℕ} (hpos : 0 < cnt) (hfit : idx + cnt ≤ rp.rPgsz)
      (h : vfdSetcw rp idx cnt = .ok rp') : CallStep rp (.setcw idx cnt) rp'
  | lookup {rp rp' : Region} {i : ℕ} {f : VfdDbd → VfdDbd} (hi : i < rp.rPgsz)
      (h : findEntryMacro rp i = .ok rp') : CallStep rp (.lookup i f) (rp'.write i f)

/-- The runs of a region from `allocreg` on. -/
def regionSys : Lts Region Call where
  init rp := rp = allocreg
  step := CallStep

/-- The prototypes of a region of `n` pages. -/
structure Broot.Protos (br : Broot) (n : ℕ) : Prop where
  slots : ∀ v ∈ br.bVproto, v.Ok
  covered : ∀ j : ℤ, Covered br.bVproto j → j < n
  idx : br.bProtoidx = unusedIdx ∨ br.bProtoidx ≤ n
  data1 : br.bProto1.dbdData = dbdDinval
  data2 : br.bProtoidx ≠ unusedIdx → br.bProto2.dbdData = dbdDinval
  types : br.bProtoidx ≠ unusedIdx → br.bProto1.dbdType ≠ br.bProto2.dbdType

open Classical in
/-- The number of valid entries. -/
noncomputable def Region.validCount (rp : Region) : ℕ := ((Finset.range maxIndex).filter rp.Valid).card

/-- The invariant of the runs. -/
structure Region.Good (rp : Region) : Prop where
  ok : rp.Ok
  root : 0 < rp.rPgsz → rp.rRoot.isSome
  protos : ∀ br, rp.rRoot = some br → br.Protos rp.rPgsz
  valid : ∀ i, i < maxIndex → rp.Valid i → i < rp.rPgsz
  count : rp.rNvalid = rp.validCount

section Good

variable {rp rp' : Region} {br br' : Broot} {i n : ℕ}

theorem Broot.Protos.same (h : br.Protos n) (hsame : br.SameProtos br') : br'.Protos n := by
  obtain ⟨h1, h2, h3, h4⟩ := hsame
  exact ⟨by rw [h1]; exact h.slots, by rw [h1]; exact h.covered, by rw [h2]; exact h.idx,
    by rw [h3]; exact h.data1, by rw [h2, h4]; exact h.data2, by rw [h2, h3, h4]; exact h.types⟩

theorem validCount_congr (h : ∀ i, i < maxIndex → (rp'.Valid i ↔ rp.Valid i)) :
    rp'.validCount = rp.validCount := by
  classical
  unfold Region.validCount
  refine congrArg Finset.card (Finset.filter_congr fun i hi => ?_)
  exact h i (Finset.mem_range.1 hi)

theorem Region.Good.of_valid (h : rp.Good) (hok : rp'.Ok) (hroot : rp'.rRoot = some br)
    (hprotos : br.Protos rp'.rPgsz) (hsize : rp.rPgsz ≤ rp'.rPgsz)
    (hvalid : ∀ i, i < maxIndex → (rp'.Valid i ↔ rp.Valid i)) (hn : rp'.rNvalid = rp.rNvalid) :
    rp'.Good := by
  refine ⟨hok, fun _ => by rw [hroot]; rfl, fun br' hbr' => ?_, fun i hi hv => ?_, ?_⟩
  · obtain rfl := Option.some.inj (hroot.symm.trans hbr')
    exact hprotos
  · exact (h.valid i hi ((hvalid i hi).1 hv)).trans_le hsize
  · rw [hn, h.count, validCount_congr hvalid]

theorem Looked.valid (h : Looked br i rp rp') (hi : i < maxPages) :
    ∀ j, j < maxIndex → (rp'.Valid j ↔ rp.Valid j) := by
  intro j hj
  unfold Region.Valid
  rw [h.entry hi hj]
  split_ifs with hij
  · rcases hent : rp.entry j with _ | e
    · -- a new entry is that of a prototype
      have hno : (br.proto j).cVfd.pgV = false := by
        have hlt : j < unusedIdx := by
          simp only [cindex, chunkent, maxPages, unusedIdx] at hij hi ⊢
          omega
        rcases (@defaultVfd_spec br _ hlt).1 with ⟨h1, -⟩ | ⟨h1, -⟩ <;>
          rw [Broot.proto, h1] <;> rfl
      simp [hno]
    · simp
  · rfl

/-- A lookup within the region. -/
theorem Region.Good.look (h : rp.Good) (hi : i < rp.rPgsz) : ∃ br rp' br', rp.rRoot = some br ∧
    findEntryMacro rp i = .ok rp' ∧ rp'.Good ∧ rp'.rRoot = some br' ∧ br.SameProtos br' ∧
    rp'.rPgsz = rp.rPgsz ∧ Looked br i rp rp' := by
  obtain ⟨br, hbr⟩ := isSome_iff_exists.1 (h.root (by omega))
  obtain ⟨rp', heq, hok, hnv, hlook⟩ := findEntryMacro_spec h.ok hbr hi
  obtain ⟨hpg, br₁, br', hbr₁, hbr', hsame⟩ := findEntryMacro_proto heq
  obtain rfl := Option.some.inj (hbr.symm.trans hbr₁)
  refine ⟨br, rp', br', hbr, heq, ?_, hbr', hsame, hpg, hlook⟩
  exact h.of_valid hok hbr' (by rw [hpg]; exact (h.protos br hbr).same hsame) hpg.ge
    (hlook.valid (hi.trans h.ok.size)) hnv

theorem valid_modify (f : VfdDbd → VfdDbd) {e : VfdDbd} (he : rp.entry i = some e) (j : ℕ) :
    (rp.modify i f).Valid j ↔ if j = i then (f e).cVfd.pgV = true else rp.Valid j := by
  unfold Region.Valid
  rw [entry_modify]
  split_ifs with hj
  · rw [hj, he]
    simp
  · rfl

/-- A write to an entry. -/
theorem Region.Good.write (h : rp.Good) (hi : i < rp.rPgsz) (f : VfdDbd → VfdDbd) :
    (rp.write i f).Good := by
  classical
  unfold Region.write
  rcases he : rp.entry i with _ | e
  · exact h
  obtain ⟨br, hbr⟩ := isSome_iff_exists.1 (h.root (by omega))
  obtain ⟨br', hbr', hsame⟩ := modify_root hbr i f
  obtain ⟨hpg, -⟩ := modify_proto rp i f
  have hmod := h.ok.modify (i := i) f
  have hval : ∀ j, j ≠ i → ((rp.modify i f).Valid j ↔ rp.Valid j) := by
    intro j hj
    rw [valid_modify f he, if_neg hj]
  have hvi : (rp.modify i f).Valid i ↔ (f e).cVfd.pgV = true := by
    rw [valid_modify f he, if_pos rfl]
  have hvi' : rp.Valid i ↔ e.cVfd.pgV = true := by
    unfold Region.Valid
    rw [he]
    simp
  refine ⟨⟨hmod.size, hmod.key, hmod.root⟩, fun _ => by dsimp only; rw [hbr']; rfl, ?_, ?_, ?_⟩
  · intro br₁ hbr₁
    obtain rfl := Option.some.inj (hbr'.symm.trans hbr₁)
    show br'.Protos (rp.modify i f).rPgsz
    rw [hpg]
    exact (h.protos br hbr).same hsame
  · intro j hj hv
    show j < (rp.modify i f).rPgsz
    rw [hpg]
    by_cases hji : j = i
    · rw [hji]
      exact hi
    · exact h.valid j hj ((hval j hji).1 hv)
  · have hmem : i ∈ Finset.range maxIndex := Finset.mem_range.2 (index_lt (hi.trans h.ok.size))
    have hcount := card_filter_except (p := rp.Valid) (q := (rp.modify i f).Valid) hmem
      fun j _ hj => hval j hj
    have hold := h.count
    show rp.rNvalid + (f e).cVfd.pgV.toNat - e.cVfd.pgV.toNat = (rp.modify i f).validCount
    rw [Region.validCount] at hold ⊢
    simp only [hvi, hvi', Bool.decide_eq_true] at hcount
    omega

/-- A write that keeps the valid bit. -/
theorem Region.Good.modify (h : rp.Good) (hi : i < rp.rPgsz) {f : VfdDbd → VfdDbd}
    (hf : ∀ e, (f e).cVfd.pgV = e.cVfd.pgV) : (rp.modify i f).Good := by
  obtain ⟨br, hbr⟩ := isSome_iff_exists.1 (h.root (by omega))
  obtain ⟨br', hbr', hsame⟩ := modify_root hbr i f
  obtain ⟨hpg, -⟩ := modify_proto rp i f
  refine h.of_valid (h.ok.modify f) hbr' (by rw [hpg]; exact (h.protos br hbr).same hsame) hpg.ge
    (fun j _ => ?_) (modify_fields rp i f).1
  unfold Region.Valid
  rw [entry_modify]
  split_ifs
  · rcases rp.entry j with _ | e <;> simp [hf]
  · rfl

/-- The last loop of `vfd_setcw` does not panic. -/
theorem Region.Good.setcwLoop (n : ℕ) {x : ℕ} (h : rp.Good) (hx : x + n ≤ rp.rPgsz) :
    ∃ rp', setcwLoop n x rp = .ok rp' ∧ rp'.Good ∧ rp'.rPgsz = rp.rPgsz := by
  induction n generalizing x rp with
  | zero => exact ⟨rp, rfl, h, rfl⟩
  | succ n ih =>
    obtain ⟨br, rp₁, br₁, hbr, heq, hgood, hbr₁, hsame, hpg, -⟩ := h.look (i := x) (by omega)
    have hmod := hgood.modify (i := x) (by omega)
      (f := fun e => { e with cVfd := { e.cVfd with pgCw := true } }) fun e => rfl
    obtain ⟨hpg', -⟩ := modify_proto rp₁ x fun e => { e with cVfd := { e.cVfd with pgCw := true } }
    obtain ⟨rp', heq', hgood', hpg''⟩ := ih (x := x + 1) hmod (by omega)
    refine ⟨rp', ?_, hgood', by omega⟩
    simp only [Vfd.setcwLoop, heq]
    exact heq'

theorem Region.Good.setcw (h : rp.Good) {idx cnt : ℕ} (hpos : 0 < cnt) (hfit : idx + cnt ≤ rp.rPgsz) :
    ∃ rp', vfdSetcw rp idx cnt = .ok rp' ∧ rp'.Good := by
  obtain ⟨br, hbr⟩ := isSome_iff_exists.1 (h.root (by omega))
  have hsize : rp.rPgsz < 2 ^ 30 := h.ok.size
  rcases hv : setSlots idx (idx + cnt - 1) br.bVproto with _ | v
  · obtain ⟨rp', heq, hgood, -⟩ := h.setcwLoop cnt hfit
    refine ⟨rp', ?_, hgood⟩
    unfold vfdSetcw
    simp only [hbr, hv]
    exact heq
  · refine ⟨_, vfdSetcw_slot hbr hv, ?_⟩
    obtain ⟨hslots, -, hcov⟩ := setSlots_spec (a := idx) (b := idx + cnt - 1) (by omega) (by omega)
      (by omega) (h.protos br hbr).slots hv
    obtain ⟨hok, htree⟩ := h.ok.root br hbr
    have hentry : ∀ j, Region.entry { rp with rRoot := some { br with bVproto := v } } j =
        rp.entry j := by
      intro j
      simp only [Region.entry, Region.chunkAt, hbr, bind_some]
      rfl
    refine h.of_valid ⟨h.ok.size, h.ok.key, fun br' hbr' => ?_⟩ rfl ?_ le_rfl (fun j _ => ?_) rfl
    · obtain rfl := Option.some.inj hbr'
      exact ⟨⟨hok.tree, hok.cache⟩, htree⟩
    · refine { h.protos br hbr with slots := hslots, covered := fun j hj => ?_ }
      rcases (hcov j).1 hj with hj | hj
      · exact (h.protos br hbr).covered j hj
      · show j < (rp.rPgsz : ℤ)
        omega
    · unfold Region.Valid
      rw [hentry]

/-- Without a tree only the region's own chunk is left. -/
theorem valid_own (h : ∀ br, rp'.rRoot = some br → br.bRoot = none) (hkey : rp'.rKey = rp.rKey)
    (hchunk : rp'.rChunk = rp.rChunk) (hv : rp'.Valid i) : rp.Valid i := by
  obtain ⟨e, he, hval⟩ := hv
  obtain ⟨c, hc, rfl⟩ := map_eq_some_iff.1 he
  refine ⟨_, ?_, hval⟩
  have hnone : (rp'.rRoot.bind fun br => br.chunks.lookup (cindex i)) = none := by
    rcases hbr : rp'.rRoot with _ | br
    · rfl
    · rw [bind_some, Broot.chunks_none (h br hbr)]
      rfl
  rw [Region.chunkAt, hnone, hkey, hchunk] at hc
  by_cases hk : rp.rKey = cindex i
  · rw [if_pos hk] at hc
    rw [Region.entry, Region.chunkAt, if_pos hk, hc]
    rfl
  · rw [if_neg hk] at hc
    cases hc

theorem Region.Good.shrink (h : rp.Good) {amount : ℕ} (hpos : 0 < amount) (hfit : amount ≤ rp.rPgsz)
    (hfree : ∀ i, rp.rPgsz - amount ≤ i → i < rp.rPgsz → ¬ rp.Valid i) :
    (shrinkvfd rp amount).Good := by
  obtain ⟨br, hbr⟩ := isSome_iff_exists.1 (h.root (by omega))
  have hsize : rp.rPgsz < maxPages := h.ok.size
  unfold shrinkvfd
  simp only [hbr]
  by_cases hall : (rp.rPgsz : ℤ) - amount - 1 = -1
  · -- the region's own chunk stays behind
    rw [if_pos hall]
    have hno : ∀ i, i < maxIndex → ¬ rp.Valid i := fun i hi hv =>
      hfree i (by omega) (h.valid i hi hv) hv
    have hno' : ∀ i, i < maxIndex → ¬ Region.Valid { rp with rRoot := none, rPgsz := 0 } i :=
      fun i hi hv => hno i hi
        (@valid_own rp { rp with rRoot := none, rPgsz := 0 } i (fun br hbr => nomatch hbr) rfl rfl hv)
    refine ⟨⟨Nat.zero_lt_of_lt hsize, h.ok.key, fun br hbr => (nomatch hbr)⟩,
      fun hlt => absurd hlt (Nat.lt_irrefl 0), fun br hbr => (nomatch hbr),
      fun i hi hv => absurd hv (hno' i hi), ?_⟩
    exact h.count.trans (validCount_congr fun i hi => iff_of_false (hno' i hi) (hno i hi)).symm
  · rw [if_neg hall]
    obtain ⟨hok, htree⟩ := h.ok.root br hbr
    obtain ⟨br', hbr'⟩ : ∃ br' : Broot, br' = { br.killCache with
        bVproto := br.bVproto.map (clipSlot (rp.rPgsz - amount - 1))
        bProtoidx := if br.bProtoidx ≠ unusedIdx ∧ (br.bProtoidx : ℤ) > rp.rPgsz - amount - 1 then
          unusedIdx else br.bProtoidx } := ⟨_, rfl⟩
    rw [← hbr']
    have hentry : ∀ j, Region.entry { rp with rPgsz := rp.rPgsz - amount, rRoot := some br' } j =
        rp.entry j := by
      intro j
      simp only [Region.entry, Region.chunkAt, hbr, bind_some, hbr']
      rfl
    have hvalid : ∀ j, Region.Valid { rp with rPgsz := rp.rPgsz - amount, rRoot := some br' } j ↔
        rp.Valid j := by
      intro j
      unfold Region.Valid
      rw [hentry]
    have hp := h.protos br hbr
    refine ⟨⟨lt_of_le_of_lt (Nat.sub_le _ _) hsize, h.ok.key, fun br₁ hbr₁ => ?_⟩, fun _ => rfl,
      fun br₁ hbr₁ => ?_,
      fun i hi hv => ?_, ?_⟩
    · obtain rfl := Option.some.inj hbr₁
      rw [hbr']
      exact ⟨⟨hok.tree, fun k hk => .inl (hk.elim id id)⟩, htree⟩
    · obtain rfl := Option.some.inj hbr₁
      obtain ⟨hu, hidx⟩ : (br'.bProtoidx ≠ unusedIdx → br.bProtoidx ≠ unusedIdx) ∧
          (br'.bProtoidx = unusedIdx ∨ br'.bProtoidx ≤ rp.rPgsz - amount) := by
        rw [hbr']
        dsimp only
        split_ifs with hbig
        · exact ⟨fun h => absurd rfl h, .inl rfl⟩
        · refine ⟨id, ?_⟩
          by_cases hun : br.bProtoidx = unusedIdx
          · exact .inl hun
          · have : ¬ (br.bProtoidx : ℤ) > rp.rPgsz - amount - 1 := fun h => hbig ⟨hun, h⟩
            omega
      refine ⟨fun v hv => ?_, fun j hj => ?_, hidx, ?_, fun hne => ?_, fun hne => ?_⟩
      · rw [hbr'] at hv
        obtain ⟨w, hw, rfl⟩ := mem_map.1 hv
        exact clipSlot_ok (hp.slots w hw)
      · rw [hbr'] at hj
        have := ((covered_clipSlot j).1 hj).2
        show j < ((rp.rPgsz - amount : ℕ) : ℤ)
        omega
      · rw [hbr']
        exact hp.data1
      · have := hp.data2 (hu hne)
        rw [hbr']
        exact this
      · have := hp.types (hu hne)
        rw [hbr']
        exact this
    · have hv := (hvalid i).1 hv
      have hlt := h.valid i hi hv
      show i < rp.rPgsz - amount
      by_contra hge
      exact hfree i (not_lt.1 hge) hlt hv
    · exact h.count.trans (validCount_congr fun i _ => hvalid i).symm

theorem btInit_protos (mem : Dbd) (n : ℕ) : (∀ v ∈ (btInit mem).bVproto, v.Ok) ∧
    ∀ j : ℤ, Covered (btInit mem).bVproto j → j < n := by
  have hfree : ∀ v ∈ (btInit mem).bVproto, v.vStart = -1 := fun v hv => by
    rw [eq_of_mem_replicate hv]
  exact ⟨fun v hv hne => absurd (hfree v hv) hne,
    fun j ⟨v, hv, hc⟩ => absurd (hfree v hv) hc.1⟩

theorem btInit_ok {mem : Dbd} (hroot : br.bRoot = none)
    (hcache : br.bKeyCache = (btInit mem).bKeyCache) : br.Ok := by
  refine ⟨fun t ht => ?_, fun k hk => ?_⟩
  · rw [hroot] at ht
    cases ht
  · rw [hcache] at hk
    exact .inl (hk.elim id id)

theorem allocreg_good : allocreg.Good := by
  have hno : ∀ i, i < maxIndex → ¬ allocreg.Valid i := by
    rintro i hi ⟨e, he, -⟩
    obtain ⟨c, hc, -⟩ := map_eq_some_iff.1 he
    have hne : unusedIdx ≠ cindex i := by
      have := cindex_lt hi
      intro h
      rw [← h] at this
      exact absurd this (by decide)
    have hc : (if unusedIdx = cindex i then _ else none) = some c := hc
    rw [if_neg hne] at hc
    cases hc
  refine ⟨⟨Nat.pos_of_ne_zero (by decide), .inl rfl, fun br hbr => (nomatch hbr)⟩,
    fun hlt => absurd hlt (Nat.lt_irrefl 0), fun br hbr => (nomatch hbr),
    fun i hi hv => absurd hv (hno i hi), ?_⟩
  classical
  show 0 = allocreg.validCount
  rw [Region.validCount, Finset.filter_eq_empty_iff.2 fun i hi => hno i (Finset.mem_range.1 hi)]
  rfl

/-- A region of `n` pages that uses neither the tree nor new entries. -/
theorem Region.Good.regrown (h : rp.Good) (hempty : rp.rPgsz = 0) {n : ℕ} (hn : n < maxPages)
    (hroot : br.bRoot = none) (hok : br.Ok) (hp : br.Protos n) :
    Region.Good { rp with rRoot := some br, rPgsz := n } := by
  have hno : ∀ i, i < maxIndex → ¬ rp.Valid i := by
    intro i hi hv
    have := h.valid i hi hv
    omega
  have hno' : ∀ i, i < maxIndex → ¬ Region.Valid { rp with rRoot := some br, rPgsz := n } i := by
    intro i hi hv
    refine hno i hi (@valid_own rp { rp with rRoot := some br, rPgsz := n } i (fun br' hbr' => ?_)
      rfl rfl hv)
    obtain rfl := Option.some.inj hbr'
    exact hroot
  refine ⟨⟨hn, h.ok.key, fun br' hbr' => ?_⟩, fun _ => rfl, fun br' hbr' => ?_,
    fun i hi hv => absurd hv (hno' i hi), ?_⟩
  · obtain rfl := Option.some.inj hbr'
    exact ⟨hok, .inl hroot⟩
  · obtain rfl := Option.some.inj hbr'
    exact hp
  · exact h.count.trans (validCount_congr fun i hi => iff_of_false (hno' i hi) (hno i hi)).symm

theorem Region.Good.dup (h : rp.Good) (hbr : rp.rRoot = some br) {off count : ℕ}
    (hfit : off + count ≤ rp.rPgsz) (swap : Bool) (mem : Dbd) :
    (dupvfds rp off count swap mem).2.Good := by
  have hsize : rp.rPgsz < maxPages := h.ok.size
  have hp := h.protos br hbr
  unfold dupvfds
  simp only [hbr]
  by_cases hswap : swap = false
  · rw [if_pos hswap]
    exact allocreg_good
  · rw [if_neg hswap]
    obtain ⟨hfree, hcov⟩ := btInit_protos mem count
    have hu : unusedIdx = 2 ^ 31 - 1 := rfl
    have hm : maxPages = 2 ^ 30 := rfl
    have hroot : (dupProtos br (btInit mem) off count).bRoot = none := by
      unfold dupProtos
      split_ifs <;> rfl
    have hcache : (dupProtos br (btInit mem) off count).bKeyCache = (btInit mem).bKeyCache := by
      unfold dupProtos
      split_ifs <;> rfl
    refine allocreg_good.regrown rfl (by omega) hroot (btInit_ok hroot hcache) ?_
    unfold dupProtos
    split_ifs with h1 h2
    · exact ⟨hfree, hcov, .inl rfl, hp.data1, fun hne => absurd rfl hne, fun hne => absurd rfl hne⟩
    · refine ⟨hfree, hcov, .inl rfl, hp.data2 ?_, fun hne => absurd rfl hne,
        fun hne => absurd rfl hne⟩
      omega
    · have hne : br.bProtoidx ≠ unusedIdx := by omega
      refine ⟨hfree, hcov, .inr ?_, hp.data1, fun _ => hp.data2 hne, fun _ => hp.types hne⟩
      show br.bProtoidx - off ≤ count
      omega

/-- Growth that fills the existing entries with a prototype. -/
theorem Region.Good.growProto (h : rp.Good) {br₁ : Broot} (hbr : rp.rRoot = some br)
    (htree : br₁.bRoot = br.bRoot) (hcache : br₁.bKeyCache = br.bKeyCache) {amount : ℕ}
    (hfit : rp.rPgsz + amount < maxPages) (hp : br₁.Protos (rp.rPgsz + amount)) (dbd : Dbd) :
    ∃ rp' br', growProto rp br₁ amount dbd = (0, rp') ∧ rp'.Good ∧ rp'.rRoot = some br' ∧
      br₁.SameProtos br' ∧ rp'.rPgsz = rp.rPgsz + amount ∧
      ∀ i, i < maxIndex → rp'.entry i = (rp.entry i).map fun e =>
        if rp.rPgsz ≤ i ∧ i < rp.rPgsz + amount then ⟨vfdNocw, dbd⟩ else e := by
  obtain ⟨hok, hown⟩ := h.ok.root br hbr
  have hchunks : br₁.chunks = br.chunks := by rw [Broot.chunks, Broot.chunks, htree]
  have hok₁ : Region.Ok { rp with rRoot := some br₁ } := by
    refine ⟨h.ok.size, h.ok.key, fun br' hbr' => ?_⟩
    obtain rfl := Option.some.inj hbr'
    refine ⟨⟨by rw [htree]; exact hok.tree, by rw [hcache, hchunks]; exact hok.cache⟩, ?_⟩
    rw [htree]
    exact hown
  have hentry : ∀ i, Region.entry { rp with rRoot := some br₁ } i = rp.entry i := by
    intro i
    simp only [Region.entry, Region.chunkAt, hbr, bind_some, hchunks]
  obtain ⟨rp', br', heq, hok', hbr', hsame, hpg, hnv, hent⟩ :=
    @fill_spec _ _ rp.rPgsz amount hok₁ rfl dbd
  simp only [hentry] at hent
  refine ⟨{ rp' with rPgsz := rp'.rPgsz + amount }, br', ?_, ?_, hbr', hsame,
    congrArg (· + amount) hpg, hent⟩
  · unfold Vfd.growProto
    simp only [heq]
  · refine h.of_valid ⟨?_, hok'.key, hok'.root⟩ hbr' ?_ ?_ (fun i hi => ?_) hnv
    · show rp'.rPgsz + amount < maxPages
      rw [hpg]
      exact hfit
    · show br'.Protos (rp'.rPgsz + amount)
      rw [hpg]
      exact hp.same hsame
    · show rp.rPgsz ≤ rp'.rPgsz + amount
      rw [hpg]
      exact Nat.le_add_right _ _
    · show rp'.Valid i ↔ _
      unfold Region.Valid
      rw [hent i hi]
      rcases he : rp.entry i with _ | e
      · simp
      · by_cases hin : rp.rPgsz ≤ i ∧ i < rp.rPgsz + amount
        · have hno : ¬ e.cVfd.pgV = true := fun hv =>
            absurd (h.valid i hi ⟨e, he, hv⟩) (not_lt.2 hin.1)
          simp [hin, hno, vfdNocw]
        · simp [hin]

theorem Broot.Protos.grow (h : br.Protos n) (m : ℕ) : br.Protos (n + m) := by
  refine { h with covered := fun j hj => ?_, idx := h.idx.imp id fun h => h.trans (Nat.le_add_right n m) }
  have := h.covered j hj
  omega

/-- Growth by the last loop. -/
theorem Region.Good.fillDbds (h : rp.Good) (hbr : rp.rRoot = some br) (type : DbdType) {amount : ℕ}
    (hfit : rp.rPgsz + amount < maxPages)
    (hc : ∀ i, rp.rPgsz ≤ i → i < rp.rPgsz + amount → rp.Cached i) :
    ∃ rp' br', fillDbds type amount rp.rPgsz rp = .ok rp' ∧
      Region.Good { rp' with rPgsz := rp'.rPgsz + amount } ∧ rp'.rRoot = some br' ∧
      br.SameProtos br' ∧ rp'.rPgsz = rp.rPgsz ∧ ∀ i, rp'.entry i = (rp.entry i).map fun e =>
        if rp.rPgsz ≤ i ∧ i < rp.rPgsz + amount then { e with cDbd := ⟨type, dbdDinval⟩ } else e := by
  obtain ⟨rp', br', heq, hok, hbr', hsame, hpg, hnv, hent⟩ := fillDbds_spec type amount h.ok hbr hc
  refine ⟨rp', br', heq, ?_, hbr', hsame, hpg, hent⟩
  refine h.of_valid ⟨?_, hok.key, hok.root⟩ hbr' ?_ ?_ (fun i hi => ?_) hnv
  · show rp'.rPgsz + amount < maxPages
    rw [hpg]
    exact hfit
  · show br'.Protos (rp'.rPgsz + amount)
    rw [hpg]
    exact ((h.protos br hbr).grow amount).same hsame
  · show rp.rPgsz ≤ rp'.rPgsz + amount
    rw [hpg]
    exact Nat.le_add_right _ _
  · show rp'.Valid i ↔ _
    unfold Region.Valid
    rw [hent i]
    rcases rp.entry i with _ | e
    · simp
    · by_cases hin : rp.rPgsz ≤ i ∧ i < rp.rPgsz + amount <;> simp [hin]

theorem initProtos (type : DbdType) (mem : Dbd) (n : ℕ) :
    Broot.Protos { btInit mem with bProto1 := ⟨type, dbdDinval⟩ } n := by
  obtain ⟨hfree, hcov⟩ := btInit_protos mem n
  exact ⟨hfree, hcov, .inl rfl, rfl, fun hne => absurd rfl hne, fun hne => absurd rfl hne⟩

theorem secondProtos (h : rp.Good) (hbr : rp.rRoot = some br) {type : DbdType}
    (hun : br.bProtoidx = unusedIdx) (hne : br.bProto1.dbdType ≠ type) (m : ℕ) :
    Broot.Protos { br with bProtoidx := rp.rPgsz, bProto2 := ⟨type, dbdDinval⟩ } (rp.rPgsz + m) := by
  have hp := (h.protos br hbr).grow m
  exact ⟨hp.slots, hp.covered, .inr (Nat.le_add_right _ _), hp.data1, fun _ => rfl, fun _ => hne⟩

theorem defaultDbd_last (h : rp.Good) (hun : br.bProtoidx = unusedIdx) :
    defaultDbd br (rp.rPgsz - 1) = br.bProto1 := by
  have := h.ok.size
  have hu : unusedIdx = 2 ^ 31 - 1 := rfl
  have hm : maxPages = 2 ^ 30 := rfl
  rw [defaultDbd, if_neg (by omega)]

theorem Region.Good.grow (h : rp.Good) {amount r : ℕ} {type : DbdType} {swap : Bool} {mem : Dbd}
    (hfit : rp.rPgsz + amount < maxPages) (hrun : growvfd rp amount type swap mem = .ok (r, rp')) :
    rp'.Good := by
  unfold growvfd at hrun
  by_cases hzero : amount = 0
  · rw [if_pos hzero] at hrun
    cases hrun
    exact h
  rw [if_neg hzero] at hrun
  by_cases hempty : rp.rPgsz = 0
  · rw [if_pos hempty] at hrun
    by_cases hswap : swap = false
    · rw [if_pos hswap] at hrun
      cases hrun
      have hno : ∀ i, i < maxIndex → ¬ rp.Valid i := by
        intro i hi hv
        have := h.valid i hi hv
        omega
      have hno' : ∀ i, i < maxIndex → ¬ Region.Valid { rp with rRoot := none, rPgsz := 0 } i :=
        fun i hi hv => hno i hi (@valid_own rp { rp with rRoot := none, rPgsz := 0 } i
          (fun br hbr => (nomatch hbr)) rfl rfl hv)
      exact ⟨⟨Nat.zero_lt_of_lt hfit, h.ok.key, fun br hbr => (nomatch hbr)⟩,
        fun hlt => absurd hlt (Nat.lt_irrefl 0), fun br hbr => (nomatch hbr),
        fun i hi hv => absurd hv (hno' i hi),
        h.count.trans (validCount_congr fun i hi => iff_of_false (hno' i hi) (hno i hi)).symm⟩
    · rw [if_neg hswap] at hrun
      cases hrun
      exact h.regrown hempty (by omega) rfl (@btInit_ok _ mem rfl rfl) (initProtos type mem amount)
  · rw [if_neg hempty] at hrun
    obtain ⟨br, hbr⟩ := isSome_iff_exists.1 (h.root (by omega))
    simp only [hbr] at hrun
    by_cases hswap : swap = false
    · rw [if_pos hswap] at hrun
      cases hrun
      exact h
    rw [if_neg hswap] at hrun
    by_cases htype : (defaultDbd br (rp.rPgsz - 1)).dbdType = type
    · rw [if_pos htype] at hrun
      obtain ⟨rp₁, -, heq, hgood, -⟩ := h.growProto hbr rfl rfl hfit
        ((h.protos br hbr).grow amount) (defaultDbd br (rp.rPgsz - 1))
      rw [heq] at hrun
      cases hrun
      exact hgood
    rw [if_neg htype] at hrun
    by_cases hun : br.bProtoidx = unusedIdx
    · rw [if_pos hun] at hrun
      rw [defaultDbd_last h hun] at htype
      obtain ⟨rp₁, -, heq, hgood, -⟩ :=
        @Good.growProto _ _ h { br with bProtoidx := rp.rPgsz, bProto2 := ⟨type, dbdDinval⟩ } hbr rfl
          rfl _ hfit (secondProtos h hbr hun htype amount) ⟨type, dbdDinval⟩
      rw [heq] at hrun
      cases hrun
      exact hgood
    · rw [if_neg hun] at hrun
      by_cases hc : ∀ i, rp.rPgsz ≤ i → i < rp.rPgsz + amount → rp.Cached i
      · obtain ⟨rp₁, -, heq, hgood, -, -, hpg, -⟩ := h.fillDbds hbr type hfit hc
        rw [heq] at hrun
        cases hrun
        exact hgood
      · push Not at hc
        rw [fillDbds_panic type amount le_rfl hc] at hrun
        cases hrun

/-- Every call keeps the invariant. -/
theorem CallStep.good {c : Call} (hstep : CallStep rp c rp') (h : rp.Good) : rp'.Good := by
  cases hstep with
  | grow hfit hrun => exact h.grow hfit hrun
  | shrink hpos hfit hfree => exact h.shrink hpos hfit hfree
  | @dup off count swap mem hroot hfit =>
    obtain ⟨br, hbr⟩ := isSome_iff_exists.1 hroot
    exact h.dup hbr hfit swap mem
  | setcw hpos hfit hrun =>
    obtain ⟨rp₁, heq, hgood⟩ := h.setcw hpos hfit
    rw [heq] at hrun
    cases hrun
    exact hgood
  | @lookup rp₁ i f hi hrun =>
    obtain ⟨-, rp₂, -, -, heq, hgood, -, -, hpg, -⟩ := h.look hi
    rw [heq] at hrun
    cases hrun
    exact hgood.write (by omega) f

theorem reach_good (h : regionSys.Reach rp) : rp.Good := by
  refine h.inv (fun s hs => ?_) fun s c s' _ ih hstep => hstep.good ih
  obtain rfl : s = allocreg := hs
  exact allocreg_good

end Good

/-! ### The walks -/

section Foreach

variable {rp : Region} {σ : Type*}

/-- The pages of a range that have an entry. -/
theorem mem_pages {start cnt i : ℕ} {e : VfdDbd} : (i, e) ∈ rp.pages start cnt ↔
    rp.rRoot.isSome ∧ start ≤ i ∧ i < start + cnt ∧ rp.entry i = some e := by
  unfold Region.pages
  rcases rp.rRoot with _ | br
  · simp
  · simp only [isNone_some, Bool.false_eq_true, if_false, isSome_some, true_and,
      mem_filterMap, mem_range'_1]
    constructor
    · rintro ⟨j, hj, he⟩
      obtain ⟨e', he', heq⟩ := map_eq_some_iff.1 he
      cases heq
      exact ⟨hj.1, hj.2, he'⟩
    · rintro ⟨h1, h2, h3⟩
      exact ⟨i, ⟨h1, h2⟩, by rw [h3]; rfl⟩

theorem pages_sorted (start cnt : ℕ) : Sorted (rp.pages start cnt) := by
  unfold Region.pages
  split_ifs
  · exact List.Pairwise.nil
  · refine List.Pairwise.filterMap _ (fun i i' hii p hp q hq => ?_) pairwise_lt_range'
    obtain ⟨e, -, rfl⟩ := map_eq_some_iff.1 hp
    obtain ⟨e', -, rfl⟩ := map_eq_some_iff.1 hq
    exact hii

/-- In every reachable region the three walks call their function just for the pages of the range
that have an entry (a valid one), each once and in increasing order, up to the first call with a
non-zero result.  `foreach_chunk` does so with one call for the pages of a chunk. -/
theorem foreach_exact (h : regionSys.Reach rp) {start cnt : ℕ} (hfit : start + cnt ≤ 2 ^ 31) :
    (Sorted (rp.pages start cnt) ∧ ∀ i e, (i, e) ∈ rp.pages start cnt ↔
      rp.rRoot.isSome ∧ start ≤ i ∧ i < start + cnt ∧ rp.entry i = some e) ∧
    (∀ (fn : ChunkFn σ) (s : σ), ∃ L : List (ℕ × Chunk), Sorted L ∧
      L.flatMap (partPages start cnt) = rp.pages start cnt ∧
      (foreachChunk rp start cnt fn s).2 = (visitChunks start cnt fn L s).2.2) ∧
    (∀ (fn : EntryFn σ) (s : σ),
      (foreachEntry rp start cnt fn s).2 = (visit fn (rp.pages start cnt) s).2) ∧
    ∀ (fn : EntryFn σ) (s : σ), (foreachValid rp start cnt fn s).2 =
      (visit fn ((rp.pages start cnt).filter fun p => p.2.cVfd.pgV) s).2 := by
  have hgood := reach_good h
  refine ⟨⟨pages_sorted start cnt, fun i e => mem_pages⟩,
    fun fn s => foreachChunk_spec hgood.ok hfit fn s,
    fun fn s => foreachEntry_spec hgood.ok hfit fn s,
    fun fn s => foreachValid_spec hgood.ok hfit (fun hzero p hp => ?_) fn s⟩
  -- without valid pages there are none in the range
  obtain ⟨-, -, hlt, he⟩ := mem_pages.1 hp
  classical
  rw [hgood.count, Region.validCount, Finset.card_eq_zero] at hzero
  have hno := Finset.filter_eq_empty_iff.1 hzero
    (Finset.mem_range.2 (show p.1 < maxIndex from lt_of_lt_of_le hlt hfit))
  exact Bool.eq_false_iff.2 fun hv => hno ⟨p.2, he, hv⟩

end Foreach

theorem reach_forty : regionSys.Reach forty := Lts.Reach.step (.init rfl)
  (@CallStep.grow allocreg forty 40 0 .dzero true ⟨.none, 0⟩ (by decide) rfl)

/-- With chunks for pages 3 and 33, five pages around page 32 are counted one by one. -/
theorem foreach_exact_five : ∃ rp, regionSys.Reach rp ∧
    (rp.pages 30 5).map Prod.fst = [30, 31, 32, 33, 34] ∧
    (foreachEntry rp 30 5 (fun s _ e => (0, e, s + 1)) 0).2 =
      (visit (fun s _ e => (0, e, s + 1)) (rp.pages 30 5) 0).2 := by
  have h1 := reach_forty.step (@CallStep.lookup forty _ 3 id (by decide) rfl)
  have h2 := h1.step (@CallStep.lookup _ _ 33 id (by decide) rfl)
  refine ⟨_, h2, by decide +kernel, ?_⟩
  obtain ⟨-, -, hentry, -⟩ := @foreach_exact _ ℕ h2 30 5 (by decide)
  exact hentry _ 0

/-- The result of a call does not come back: the walk over the region's own chunk gives 0 after a
call with result 5, and the walk over a tree gives 1 when it goes past the range. -/
theorem walk_result_lost :
    (∃ rp br, regionSys.Reach rp ∧ rp.rRoot = some br ∧
      (visit (fun s _ e => (5, e, s)) (rp.pages 0 40) ()).1 = true ∧
      (forVal2 rp br 0 40 (scanFn true fun s _ e => (5, e, s)) ()).1 = 0) ∧
    ∃ rp br, regionSys.Reach rp ∧ rp.rRoot = some br ∧
      (visit (fun s _ e => (0, e, s)) (rp.pages 0 1) ()).1 = false ∧
      (forVal2 rp br 0 1 (scanFn true fun s _ e => (0, e, s)) ()).1 = 1 := by
  have h1 := reach_forty.step (@CallStep.lookup forty _ 3 id (by decide) rfl)
  have h2 := h1.step (@CallStep.lookup _ _ 33 id (by decide) rfl)
  refine ⟨⟨_, _, h1, rfl, ?_, ?_⟩, _, _, h2, rfl, ?_, ?_⟩
  · decide +kernel
  · decide +kernel
  · decide +kernel
  · decide +kernel

end Vfd

end Hpux
