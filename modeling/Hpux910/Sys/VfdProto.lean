import Hpux910.Sys.VmVfd
import Hpux910.Lib.Lts
import Mathlib

/-!
# Prototypes of page descriptors

The slots of `struct vfdcw` stand for a set of pages, which new chunks get copy-on-write.

* `Covered` : the set.
* `defaultVfd_spec` : `default_vfd` decides membership, and reports how far its answer goes.
* `covered_setSlots`, `covered_clipSlot` : `vfd_setcw` adds a range, a shrink cuts the set.
* `fillchunk_at` : `fillchunk` gives each entry its own prototype.
* `protoSys`, `prototypes_refine_set` : runs of `vfd_setcw`, `shrinkvfd` and lookups.

`vfd_setcw` itself does nothing to entries that exist already, as long as it finds a slot; `dupreg`
sets their bits in its own walk over the chunks.
-/

namespace Hpux

namespace Vfd

open List Option

/-! ### The set of the slots -/

/-- The slot is in use and the page lies in its range. -/
def Slot.Covers (v : Slot) (i : ℤ) : Prop := v.vStart ≠ -1 ∧ v.vStart ≤ i ∧ i ≤ v.vEnd

/-- A page of copy-on-write. -/
def Covered (l : List Slot) (i : ℤ) : Prop := ∃ v ∈ l, v.Covers i

/-- A slot in use has a range that is not empty and fits an `int`. -/
def Slot.Ok (v : Slot) : Prop := v.vStart ≠ -1 → 0 ≤ v.vStart ∧ v.vStart ≤ v.vEnd ∧ v.vEnd < 2 ^ 31

section

variable {l l' : List Slot} {idx i : ℤ}

@[simp] theorem covered_nil : ¬ Covered [] i := by simp [Covered]

theorem covered_cons {v : Slot} : Covered (v :: l) i ↔ v.Covers i ∨ Covered l i := by
  simp [Covered]

/-- The loop finds a slot that covers the page, or none and where the next one starts. -/
theorem defaultVfdLoop_spec (idx : ℤ) (l : List Slot) (save : ℤ) :
    (∃ v ∈ l, v.Covers idx ∧ defaultVfdLoop idx l save = (vfdCw, v.vEnd)) ∨
    (¬ Covered l idx ∧ ∃ s, defaultVfdLoop idx l save = (vfdNocw, s - 1) ∧ s ≤ save ∧
      (s = save ∨ idx < s) ∧ ∀ v ∈ l, v.vStart ≠ -1 → idx < v.vStart → s ≤ v.vStart) := by
  induction l generalizing save with
  | nil => exact .inr ⟨by simp, save, rfl, le_rfl, .inl rfl, by simp⟩
  | cons v l ih =>
    rw [defaultVfdLoop]
    by_cases hfree : v.vStart = -1
    · rw [if_pos hfree]
      rcases ih save with ⟨w, hw, hc, heq⟩ | ⟨hno, s, heq, hle, hs, hall⟩
      · exact .inl ⟨w, by simp [hw], hc, heq⟩
      · refine .inr ⟨?_, s, heq, hle, hs, ?_⟩
        · rw [covered_cons]
          exact fun h => h.elim (fun h => h.1 hfree) hno
        · intro w hw hne hlt
          rcases mem_cons.1 hw with rfl | hw
          · exact absurd hfree hne
          · exact hall w hw hne hlt
    by_cases hin : v.vStart ≤ idx ∧ idx ≤ v.vEnd
    · rw [if_neg hfree, if_pos hin]
      exact .inl ⟨v, by simp, ⟨hfree, hin⟩, rfl⟩
    · rw [if_neg hfree, if_neg hin]
      rcases ih (if v.vStart > idx ∧ v.vStart < save then v.vStart else save) with
        ⟨w, hw, hc, heq⟩ | ⟨hno, s, heq, hle, hs, hall⟩
      · exact .inl ⟨w, by simp [hw], hc, heq⟩
      · refine .inr ⟨?_, s, heq, ?_, ?_, ?_⟩
        · rw [covered_cons]
          exact fun h => h.elim (fun h => hin h.2) hno
        · split_ifs at hle <;> omega
        · split_ifs at hs <;> omega
        · intro w hw hne hlt
          rcases mem_cons.1 hw with rfl | hw
          · split_ifs at hle <;> omega
          · exact hall w hw hne hlt

/-- `default_vfd` says whether the page is one of copy-on-write, and its answer is right for all
pages up to the index it reports. -/
theorem defaultVfd_spec {br : Broot} {i : ℕ} (hi : i < unusedIdx) :
    (((defaultVfd br i).1 = vfdCw ∧ Covered br.bVproto i) ∨
      ((defaultVfd br i).1 = vfdNocw ∧ ¬ Covered br.bVproto i)) ∧ (i : ℤ) ≤ (defaultVfd br i).2 ∧
    ∀ j : ℤ, i ≤ j → j ≤ (defaultVfd br i).2 → (Covered br.bVproto j ↔ Covered br.bVproto i) := by
  rw [defaultVfd]
  rcases defaultVfdLoop_spec i br.bVproto unusedIdx with
    ⟨v, hv, hc, heq⟩ | ⟨hno, s, heq, hle, hs, hall⟩
  · rw [heq]
    refine ⟨.inl ⟨rfl, v, hv, hc⟩, hc.2.2, fun j hij hj => iff_of_true ?_ ⟨v, hv, hc⟩⟩
    exact ⟨v, hv, hc.1, hc.2.1.trans hij, hj⟩
  · rw [heq]
    refine ⟨.inr ⟨rfl, hno⟩, ?_, fun j hij hj => iff_of_false ?_ hno⟩
    · show (i : ℤ) ≤ s - 1
      omega
    · -- a slot that starts behind `i` starts behind `j` too
      rintro ⟨v, hv, hne, hlo, hhi⟩
      rcases lt_or_ge (i : ℤ) v.vStart with hlt | hge
      · have := hall v hv hne hlt
        omega
      · exact hno ⟨v, hv, hne, hge, hij.trans hhi⟩

theorem defaultVfd_cw {br : Broot} {i : ℕ} (hi : i < unusedIdx) :
    (defaultVfd br i).1.pgCw = true ↔ Covered br.bVproto i := by
  rcases (defaultVfd_spec hi).1 with ⟨h, hc⟩ | ⟨h, hc⟩
  · rw [h]
    exact iff_of_true rfl hc
  · rw [h]
    exact iff_of_false (by decide) hc

/-- The prototype is the same up to the index that `default_vfd` reports. -/
theorem defaultVfd_const {br : Broot} {i j : ℕ} (hj : j < unusedIdx) (hij : i ≤ j)
    (hend : (j : ℤ) ≤ (defaultVfd br i).2) : (defaultVfd br j).1 = (defaultVfd br i).1 := by
  have hi : i < unusedIdx := lt_of_le_of_lt hij hj
  obtain ⟨h1, -, h2⟩ := @defaultVfd_spec br _ hi
  obtain ⟨h3, -, -⟩ := @defaultVfd_spec br _ hj
  have hsame := h2 j (by omega) hend
  rcases h1 with ⟨h1, hc1⟩ | ⟨h1, hc1⟩ <;> rcases h3 with ⟨h3, hc3⟩ | ⟨h3, hc3⟩
  · rw [h1, h3]
  · exact absurd (hsame.2 hc1) hc3
  · exact absurd (hsame.1 hc3) hc1
  · rw [h1, h3]

/-! ### Changes of the slots -/

theorem umin_eq {a b : ℤ} (ha : 0 ≤ a) (ha' : a < 2 ^ 31) (hb : 0 ≤ b) (hb' : b < 2 ^ 31) :
    umin a b = min a b := by
  unfold umin
  split_ifs <;> omega

theorem umax_eq {a b : ℤ} (ha : 0 ≤ a) (ha' : a < 2 ^ 31) (hb : 0 ≤ b) (hb' : b < 2 ^ 31) :
    umax a b = max a b := by
  unfold umax
  split_ifs <;> omega

section Set

variable {a b : ℤ} (ha : 0 ≤ a) (hab : a ≤ b) (hb : b < 2 ^ 31)
include ha hab hb

theorem joinSlot_spec (hl : ∀ v ∈ l, v.Ok) (h : joinSlot a b l = some l') :
    (∀ v ∈ l', v.Ok) ∧ l'.length = l.length ∧ ∀ j, Covered l' j ↔ Covered l j ∨ a ≤ j ∧ j ≤ b := by
  induction l generalizing l' with
  | nil => cases h
  | cons v l ih =>
    have hv := hl v (by simp)
    rw [joinSlot] at h
    split_ifs at h with hcond
    · obtain ⟨hne, hov⟩ := hcond
      obtain rfl := Option.some.inj h
      obtain ⟨h1, h2, h3⟩ := hv hne
      unfold Overlaps at hov
      have hmin : umin v.vStart a = min v.vStart a := umin_eq h1 (by omega) ha (by omega)
      have hmax : umax v.vEnd b = max v.vEnd b := umax_eq (by omega) h3 (by omega) hb
      rw [hmin, hmax]
      refine ⟨fun w hw => ?_, by simp, fun j => ?_⟩
      · rcases mem_cons.1 hw with rfl | hw
        · intro _
          simp only
          omega
        · exact hl w (by simp [hw])
      · -- the two ranges overlap or touch, so their hull is their union
        rw [covered_cons, covered_cons]
        have : Slot.Covers ⟨min v.vStart a, max v.vEnd b⟩ j ↔ v.Covers j ∨ a ≤ j ∧ j ≤ b := by
          simp only [Slot.Covers]
          omega
        tauto
    · obtain ⟨l₁, hl₁, rfl⟩ := map_eq_some_iff.1 h
      obtain ⟨h1, h2, h3⟩ := ih (fun w hw => hl w (by simp [hw])) hl₁
      refine ⟨fun w hw => ?_, by simp [h2], fun j => ?_⟩
      · rcases mem_cons.1 hw with rfl | hw
        · exact hv
        · exact h1 w hw
      · rw [covered_cons, covered_cons, h3]
        tauto

theorem useSlot_spec (hl : ∀ v ∈ l, v.Ok) (h : useSlot a b l = some l') :
    (∀ v ∈ l', v.Ok) ∧ l'.length = l.length ∧ ∀ j, Covered l' j ↔ Covered l j ∨ a ≤ j ∧ j ≤ b := by
  induction l generalizing l' with
  | nil => cases h
  | cons v l ih =>
    have hv := hl v (by simp)
    rw [useSlot] at h
    split_ifs at h with hfree
    · obtain rfl := Option.some.inj h
      refine ⟨fun w hw => ?_, by simp, fun j => ?_⟩
      · rcases mem_cons.1 hw with rfl | hw
        · exact fun _ => ⟨ha, hab, hb⟩
        · exact hl w (by simp [hw])
      · rw [covered_cons, covered_cons]
        have h1 : Slot.Covers ⟨a, b⟩ j ↔ a ≤ j ∧ j ≤ b := by
          simp only [Slot.Covers]
          omega
        have h2 : ¬ v.Covers j := fun hc => hc.1 hfree
        tauto
    · obtain ⟨l₁, hl₁, rfl⟩ := map_eq_some_iff.1 h
      obtain ⟨h1, h2, h3⟩ := ih (fun w hw => hl w (by simp [hw])) hl₁
      refine ⟨fun w hw => ?_, by simp [h2], fun j => ?_⟩
      · rcases mem_cons.1 hw with rfl | hw
        · exact hv
        · exact h1 w hw
      · rw [covered_cons, covered_cons, h3]
        tauto

theorem setSlots_spec (hl : ∀ v ∈ l, v.Ok) (h : setSlots a b l = some l') :
    (∀ v ∈ l', v.Ok) ∧ l'.length = l.length ∧ ∀ j, Covered l' j ↔ Covered l j ∨ a ≤ j ∧ j ≤ b := by
  rw [setSlots] at h
  rcases hjoin : joinSlot a b l with _ | l₁
  · rw [hjoin, none_or] at h
    exact useSlot_spec ha hab hb hl h
  · rw [hjoin, some_or] at h
    obtain rfl := Option.some.inj h
    exact joinSlot_spec ha hab hb hl hjoin

end Set

theorem clipSlot_ok {v : Slot} {n : ℤ} (hv : v.Ok) : (clipSlot n v).Ok := by
  unfold clipSlot
  split_ifs with h1 h2 h3
  · exact hv
  · exact hv
  · exact fun h => absurd rfl h
  · intro h
    obtain ⟨h4, h5, h6⟩ := hv h1
    simp only
    omega

theorem covered_clipSlot {n : ℤ} (j : ℤ) : Covered (l.map (clipSlot n)) j ↔ Covered l j ∧ j ≤ n := by
  induction l with
  | nil => simp
  | cons v l ih =>
    rw [map_cons, covered_cons, covered_cons, ih]
    have : (clipSlot n v).Covers j ↔ v.Covers j ∧ j ≤ n := by
      unfold clipSlot Slot.Covers
      split_ifs with h1 h2 h3 <;> simp_all <;> omega
    tauto

end

/-! ### `fillchunk` -/

section Fill

variable {br : Broot} {c : Chunk}

theorem ofNat_inj {i j : ℕ} (hi : i < chunkent) (hj : j < chunkent) :
    Fin.ofNat chunkent i = Fin.ofNat chunkent j ↔ i = j := by
  rw [Fin.ext_iff]
  simp only [Fin.val_ofNat, Nat.mod_eq_of_lt hi, Nat.mod_eq_of_lt hj]

theorem Chunk.at_put {i j : ℕ} (hi : i < chunkent) (hj : j < chunkent) (e : VfdDbd) :
    (c.put j e).at i = if i = j then e else c.at i := by
  simp only [Chunk.at, Chunk.put, ofNat_inj hi hj]

/-- The prototype at hand is that of every page from `x` up to the index reported with it. -/
def ProtoFrom (br : Broot) (x : ℕ) (vfd : VfdT × ℤ) : Prop :=
  ∀ y : ℕ, x ≤ y → (y : ℤ) ≤ vfd.2 → y < unusedIdx → (defaultVfd br y).1 = vfd.1

theorem protoFrom_defaultVfd (br : Broot) (x : ℕ) : ProtoFrom br x (defaultVfd br x) :=
  fun _ hxy hend hy => defaultVfd_const hy hxy hend

theorem fillLoop_spec {idx n j : ℕ} {dbd : Dbd} {vfd : VfdT × ℤ} (hfit : j + n ≤ chunkent)
    (hidx : idx + chunkent ≤ unusedIdx) (h : ProtoFrom br (idx + j) vfd) :
    ProtoFrom br (idx + (j + n)) (fillLoop br idx dbd n j vfd c).2 ∧
    ∀ i, i < chunkent → (fillLoop br idx dbd n j vfd c).1.at i =
      if j ≤ i ∧ i < j + n then ⟨(defaultVfd br (idx + i)).1, dbd⟩ else c.at i := by
  induction n generalizing j vfd c with
  | zero =>
    refine ⟨h, fun i _ => ?_⟩
    rw [if_neg (by omega), fillLoop]
  | succ n ih =>
    rw [fillLoop]
    obtain ⟨v, hv⟩ : ∃ v, v = if ((idx + j : ℕ) : ℤ) > vfd.2 then defaultVfd br (idx + j) else vfd :=
      ⟨_, rfl⟩
    rw [← hv]
    have hhere : (defaultVfd br (idx + j)).1 = v.1 := by
      rw [hv]
      split_ifs with hgt
      · rfl
      · exact h (idx + j) le_rfl (by omega) (by omega)
    have hfrom : ProtoFrom br (idx + (j + 1)) v := by
      rw [hv]
      intro y hy hend hlt
      split_ifs at hend ⊢
      · exact protoFrom_defaultVfd br (idx + j) y (by omega) hend hlt
      · exact h y (by omega) hend hlt
    obtain ⟨h1, h2⟩ := ih (c := c.put j ⟨v.1, dbd⟩) (by omega) hfrom
    refine ⟨by rwa [Nat.add_right_comm j 1 n] at h1, fun i hi => ?_⟩
    rw [h2 i hi, Chunk.at_put hi (by omega)]
    by_cases hij : i = j
    · subst hij
      rw [if_neg (by omega), if_pos rfl, if_pos (by omega), hhere]
    · rw [if_neg hij]
      split_ifs <;> first | rfl | omega

/-- `fillchunk` gives each entry the prototypes of its own page. -/
theorem fillchunk_at {idx j : ℕ} (hidx : idx + chunkent ≤ unusedIdx) (hj : j < chunkent) :
    (fillchunk c br idx).at j = ⟨(defaultVfd br (idx + j)).1, defaultDbd br (idx + j)⟩ := by
  obtain ⟨lim, hlim⟩ : ∃ lim, lim = if br.bProtoidx < idx + chunkent then br.bProtoidx
      else idx + chunkent := ⟨_, rfl⟩
  have hfit : lim - idx ≤ chunkent := by
    rw [hlim]
    split_ifs <;> omega
  obtain ⟨hfrom, hfirst⟩ := @fillLoop_spec _ c _ (lim - idx) 0 (defaultDbd br idx) _
    (by omega) hidx (protoFrom_defaultVfd br idx)
  rw [Nat.zero_add] at hfrom
  -- the prototype of the disk block descriptors changes at `lim`
  have hlow : j < lim - idx → defaultDbd br (idx + j) = defaultDbd br idx := by
    intro hlt
    have : idx + j < br.bProtoidx := by
      rw [hlim] at hlt
      split_ifs at hlt <;> omega
    rw [defaultDbd, defaultDbd, if_neg (by omega), if_neg (by omega)]
  have hhigh : lim - idx ≤ j → defaultDbd br (idx + j) = defaultDbd br (idx + (lim - idx)) := by
    intro hge
    have hbrk : br.bProtoidx ≤ idx + (lim - idx) := by
      rw [hlim] at hge ⊢
      split_ifs at hge ⊢ <;> omega
    rw [defaultDbd, defaultDbd, if_pos (by omega), if_pos (by omega)]
  rw [fillchunk]
  simp only [← hlim]
  split_ifs with hmore
  · obtain ⟨-, hsecond⟩ := @fillLoop_spec _
      (fillLoop br idx (defaultDbd br idx) (lim - idx) 0 (defaultVfd br idx) c).1 _
      (idx + chunkent - (idx + (lim - idx))) (lim - idx) (defaultDbd br (idx + (lim - idx))) _
      (by omega) hidx hfrom
    rw [hsecond j hj, hfirst j hj]
    by_cases hlt : j < lim - idx
    · rw [if_neg (by omega), if_pos (by omega), hlow hlt]
    · rw [if_pos (by omega), hhigh (by omega)]
  · rw [hfirst j hj, if_pos (by omega), hlow (by omega)]

end Fill

/-! ### Runs -/

/-- The calls. -/
inductive ProtoCall
  /-- `vfd_setcw`. -/
  | setcw (idx cnt : ℕ)
  /-- `shrinkvfd`. -/
  | shrink (amount : ℕ)
  /-- A lookup, and what its caller writes to the entry. -/
  | lookup (i : ℕ) (f : VfdDbd → VfdDbd)

/-- One call, with the set of pages that it leaves to copy-on-write.  A `vfd_setcw` finds a slot. -/
inductive ProtoStep : Region × Set ℕ → ProtoCall → Region × Set ℕ → Prop
  | setcw {rp rp' : Region} {br : Broot} {S : Set ℕ} {idx cnt : ℕ} (hbr : rp.rRoot = some br)
      (hcnt : 0 < cnt) (hfit : idx + cnt ≤ rp.rPgsz)
      (hslot : (setSlots idx (idx + cnt - 1) br.bVproto).isSome)
      (h : vfdSetcw rp idx cnt = .ok rp') :
      ProtoStep (rp, S) (.setcw idx cnt) (rp', S ∪ {i | idx ≤ i ∧ i < idx + cnt})
  | shrink {rp : Region} {S : Set ℕ} {amount : ℕ} (hpos : 0 < amount) (hfit : amount ≤ rp.rPgsz) :
      ProtoStep (rp, S) (.shrink amount) (shrinkvfd rp amount, S ∩ {i | i < rp.rPgsz - amount})
  | lookup {rp rp' : Region} {S : Set ℕ} {i : ℕ} {f : VfdDbd → VfdDbd}
      (h : findEntryMacro rp i = .ok rp') : ProtoStep (rp, S) (.lookup i f) (rp'.modify i f, S)

/-- The runs from a region with no range of copy-on-write, of a size that fits an `int`. -/
def protoSys : Lts (Region × Set ℕ) ProtoCall where
  init s := s.2 = ∅ ∧ s.1.rPgsz ≤ unusedIdx ∧
    ∀ br, s.1.rRoot = some br → ∀ v ∈ br.bVproto, v.vStart = -1
  step := ProtoStep

/-- The slots stand for the set. -/
def ProtoInv (s : Region × Set ℕ) : Prop :=
  s.1.rPgsz ≤ unusedIdx ∧ ∀ br, s.1.rRoot = some br → (∀ v ∈ br.bVproto, v.Ok) ∧
    ∀ i : ℕ, Covered br.bVproto i ↔ i ∈ s.2

section Runs

variable {rp rp' : Region} {br br' : Broot}

/-- Two roots have the same prototypes. -/
def Broot.SameProtos (br br' : Broot) : Prop :=
  br'.bVproto = br.bVproto ∧ br'.bProtoidx = br.bProtoidx ∧ br'.bProto1 = br.bProto1 ∧
    br'.bProto2 = br.bProto2

theorem Broot.SameProtos.refl (br : Broot) : br.SameProtos br := ⟨rfl, rfl, rfl, rfl⟩

theorem Broot.SameProtos.trans {br₁ br₂ br₃ : Broot} (h : br₁.SameProtos br₂)
    (h' : br₂.SameProtos br₃) : br₁.SameProtos br₃ :=
  ⟨h'.1.trans h.1, h'.2.1.trans h.2.1, h'.2.2.1.trans h.2.2.1, h'.2.2.2.trans h.2.2.2⟩

theorem btInsert_proto {key : ℕ} {nval : Chunk} (h : btInsert br key nval = .ok br') :
    br.SameProtos br' := by
  unfold btInsert at h
  split at h
  · obtain rfl := Except.ok.inj h
    exact ⟨rfl, rfl, rfl, rfl⟩
  · split at h
    · obtain rfl := Except.ok.inj h
      exact ⟨rfl, rfl, rfl, rfl⟩
    · split at h
      · cases h
      · obtain rfl := Except.ok.inj h
        exact ⟨rfl, rfl, rfl, rfl⟩
      · obtain rfl := Except.ok.inj h
        exact ⟨rfl, rfl, rfl, rfl⟩

theorem btSearch_proto (br : Broot) (key : ℕ) : br.SameProtos (btSearch br key).2 := by
  unfold btSearch
  split_ifs
  · exact .refl br
  · split <;> exact ⟨rfl, rfl, rfl, rfl⟩

/-- A lookup keeps the size and the prototypes. -/
theorem findentry_proto {i : ℕ} (h : findentry rp i = .ok rp') :
    rp'.rPgsz = rp.rPgsz ∧ ∃ br br', rp.rRoot = some br ∧ rp'.rRoot = some br' ∧ br.SameProtos br' := by
  unfold findentry at h
  split at h
  · cases h
  case h_2 br hbr =>
    by_cases hsize : i ≥ rp.rPgsz
    · rw [if_pos hsize] at h
      cases h
    rw [if_neg hsize] at h
    by_cases hkey : rp.rKey = cindex i
    · rw [if_pos hkey] at h
      obtain rfl := Except.ok.inj h
      exact ⟨rfl, br, br, hbr, hbr, .refl br⟩
    rw [if_neg hkey] at h
    by_cases hunused : rp.rKey = unusedIdx
    · rw [if_pos hunused] at h
      obtain rfl := Except.ok.inj h
      exact ⟨rfl, br, br, hbr, hbr, .refl br⟩
    rw [if_neg hunused] at h
    by_cases hdont : rp.rKey = dontuseIdx
    · rw [if_pos hdont] at h
      have hsearch := btSearch_proto br (cindex i)
      split at h
      case h_1 br₁ heq =>
        rw [heq] at hsearch
        obtain rfl := Except.ok.inj h
        exact ⟨rfl, br, br₁, hbr, rfl, hsearch⟩
      case h_2 br₁ heq =>
        rw [heq] at hsearch
        split at h
        case h_1 br₂ hins =>
          obtain rfl := Except.ok.inj h
          exact ⟨rfl, br, br₂, hbr, rfl, hsearch.trans (btInsert_proto hins)⟩
        case h_2 => cases h
    · rw [if_neg hdont] at h
      split at h
      · cases h
      case h_2 br₁ hins =>
        split at h
        case h_1 br₂ hins₂ =>
          obtain rfl := Except.ok.inj h
          have hkill : br.SameProtos br.killCache := ⟨rfl, rfl, rfl, rfl⟩
          exact ⟨rfl, br, br₂, hbr, rfl,
            (hkill.trans (btInsert_proto hins)).trans (btInsert_proto hins₂)⟩
        case h_2 => cases h

theorem findEntryMacro_proto {i : ℕ} (h : findEntryMacro rp i = .ok rp') :
    rp'.rPgsz = rp.rPgsz ∧ ∃ br br', rp.rRoot = some br ∧ rp'.rRoot = some br' ∧ br.SameProtos br' := by
  unfold findEntryMacro at h
  split at h
  · cases h
  case h_2 br hbr =>
    split_ifs at h
    · obtain rfl := Except.ok.inj h
      exact ⟨rfl, br, br, hbr, hbr, .refl br⟩
    · exact findentry_proto h

theorem modify_proto (rp : Region) (i : ℕ) (f : VfdDbd → VfdDbd) :
    (rp.modify i f).rPgsz = rp.rPgsz ∧ ∀ br', (rp.modify i f).rRoot = some br' →
      ∃ br, rp.rRoot = some br ∧ br.SameProtos br' := by
  unfold Region.modify Region.modifyChunk
  split_ifs
  · exact ⟨rfl, fun br' hbr' => ⟨br', hbr', .refl br'⟩⟩
  · refine ⟨rfl, fun br' hbr' => ?_⟩
    obtain ⟨br, hbr, rfl⟩ := map_eq_some_iff.1 hbr'
    exact ⟨br, hbr, rfl, rfl, rfl, rfl⟩

theorem vfdSetcw_slot {idx cnt : ℕ} {v : List Slot} (hbr : rp.rRoot = some br)
    (hv : setSlots idx (idx + cnt - 1) br.bVproto = some v) :
    vfdSetcw rp idx cnt = .ok { rp with rRoot := some { br with bVproto := v } } := by
  rw [vfdSetcw, hbr]
  simp only [hv]

/-- One call keeps the slots in step with the set. -/
theorem ProtoStep.inv {s s' : Region × Set ℕ} {c : ProtoCall} (h : ProtoInv s)
    (hstep : ProtoStep s c s') : ProtoInv s' := by
  obtain ⟨hsize, hinv⟩ := h
  cases hstep with
  | @setcw rp rp' br S idx cnt hbr hcnt hfit hslot hrun =>
    obtain ⟨v, hv⟩ := isSome_iff_exists.1 hslot
    rw [vfdSetcw_slot hbr hv] at hrun
    obtain rfl := Except.ok.inj hrun
    obtain ⟨hok, hcov⟩ := hinv br hbr
    have hmax : unusedIdx = 2 ^ 31 - 1 := rfl
    have hsize : rp.rPgsz ≤ unusedIdx := hsize
    obtain ⟨h1, -, h2⟩ := setSlots_spec (a := idx) (b := idx + cnt - 1) (by omega) (by omega)
      (by omega) hok hv
    refine ⟨hsize, fun br' hbr' => ?_⟩
    obtain rfl := Option.some.inj hbr'
    refine ⟨h1, fun i => ?_⟩
    show Covered v i ↔ i ∈ S ∪ _
    rw [h2, hcov i]
    simp only [Set.mem_union, Set.mem_ofPred_eq]
    have : (idx : ℤ) ≤ i ∧ (i : ℤ) ≤ idx + cnt - 1 ↔ idx ≤ i ∧ i < idx + cnt := by omega
    rw [this]
  | @shrink rp S amount hpos hfit =>
    unfold shrinkvfd
    rcases hroot : rp.rRoot with _ | br
    · exact ⟨hsize, fun br' hbr' => absurd (hroot.symm.trans hbr') (by simp)⟩
    · obtain ⟨hok, hcov⟩ := hinv br hroot
      dsimp only
      by_cases hall : (rp.rPgsz : ℤ) - amount - 1 = -1
      · rw [if_pos hall]
        exact ⟨Nat.zero_le _, fun br' hbr' => by cases hbr'⟩
      · rw [if_neg hall]
        refine ⟨le_trans (Nat.sub_le _ _) hsize, fun br' hbr' => ?_⟩
        obtain rfl := Option.some.inj hbr'
        refine ⟨fun v hv => ?_, fun i => ?_⟩
        · obtain ⟨w, hw, rfl⟩ := mem_map.1 hv
          exact clipSlot_ok (hok w hw)
        · show Covered (br.bVproto.map (clipSlot _)) i ↔ i ∈ S ∩ _
          rw [covered_clipSlot, hcov i]
          simp only [Set.mem_inter_iff, Set.mem_ofPred_eq]
          have : (i : ℤ) ≤ rp.rPgsz - amount - 1 ↔ i < rp.rPgsz - amount := by omega
          rw [this]
  | @lookup rp rp' S i f hrun =>
    obtain ⟨hpg, br, br₁, hbr, hbr₁, hsame⟩ := findEntryMacro_proto hrun
    obtain ⟨hpg', hmod⟩ := modify_proto rp' i f
    refine ⟨by rw [hpg', hpg]; exact hsize, fun br₂ hbr₂ => ?_⟩
    obtain ⟨br₃, hbr₃, hsame'⟩ := hmod br₂ hbr₂
    obtain rfl := Option.some.inj (hbr₁.symm.trans hbr₃)
    rw [(hsame.trans hsame').1]
    exact hinv br hbr

/-- In every run of `vfd_setcw`, `shrinkvfd` and lookups that stays within the slots, `default_vfd`
has the copy-on-write bit just for the pages of the ranges set so far, cut by the shrinks, and its
prototype is the same up to the index it reports; `fillchunk` gives each entry the prototypes of its
own page; and a `vfd_setcw` leaves the entries that exist as they are. -/
theorem prototypes_refine_set {S : Set ℕ} (h : protoSys.Reach (rp, S)) (hbr : rp.rRoot = some br) :
    (∀ i : ℕ, i < unusedIdx →
      ((defaultVfd br i).1.pgCw = true ↔ i ∈ S) ∧ (i : ℤ) ≤ (defaultVfd br i).2 ∧
      ∀ j : ℕ, i ≤ j → (j : ℤ) ≤ (defaultVfd br i).2 → j < unusedIdx →
        (defaultVfd br j).1 = (defaultVfd br i).1) ∧
    (∀ (c : Chunk) (idx j : ℕ), idx + chunkent ≤ unusedIdx → j < chunkent →
      (fillchunk c br idx).at j = ⟨(defaultVfd br (idx + j)).1, defaultDbd br (idx + j)⟩) ∧
    ∀ (idx cnt : ℕ) (s' : Region × Set ℕ), ProtoStep (rp, S) (.setcw idx cnt) s' →
      ∀ i, s'.1.entry i = rp.entry i := by
  have hinv : ProtoInv (rp, S) := by
    refine h.inv (fun s hs => ⟨hs.2.1, fun br hbr => ⟨fun v hv => ?_, fun i => ?_⟩⟩)
      fun s c s' _ ih hstep => hstep.inv ih
    · exact fun hne => absurd (hs.2.2 br hbr v hv) hne
    · rw [hs.1]
      refine iff_of_false ?_ (Set.notMem_empty i)
      rintro ⟨v, hv, hne, -⟩
      exact hne (hs.2.2 br hbr v hv)
  refine ⟨fun i hi => ⟨?_, (defaultVfd_spec hi).2.1, fun j hij hend hj => ?_⟩,
    fun c idx j hidx hj => fillchunk_at hidx hj, fun idx cnt s' hstep i => ?_⟩
  · rw [defaultVfd_cw hi]
    exact (hinv.2 br hbr).2 i
  · exact defaultVfd_const hj hij hend
  · cases hstep with
    | @setcw _ rp' br₁ _ _ _ hbr₁ hcnt hfit hslot hrun =>
      obtain ⟨v, hv⟩ := Option.isSome_iff_exists.1 hslot
      rw [vfdSetcw_slot hbr₁ hv] at hrun
      obtain rfl := Except.ok.inj hrun
      simp only [Region.entry, Region.chunkAt, hbr₁, Option.bind_some]
      rfl

end Runs

/-- A region of 40 pages without entries. -/
def forty : Region := { allocreg with
  rPgsz := 40, rRoot := some { btInit ⟨.none, 0⟩ with bProto1 := ⟨.dzero, dbdDinval⟩ } }

/-- Pages 3 to 7 and 8 to 11 are set, and the shrink leaves 3 to 9. -/
theorem prototypes_refine_set_forty : ∃ rp S br, protoSys.Reach (rp, S) ∧ rp.rRoot = some br ∧
    S = ((∅ ∪ {i | 3 ≤ i ∧ i < 3 + 5}) ∪ {i | 8 ≤ i ∧ i < 8 + 4}) ∩ {i | i < 40 - 30} ∧
    (defaultVfd br 9).1.pgCw = true := by
  have h0 : protoSys.Reach (forty, ∅) := by
    refine .init ⟨rfl, by decide, fun br hbr v hv => ?_⟩
    obtain rfl := Option.some.inj hbr
    exact (List.mem_replicate.1 hv).2 ▸ rfl
  have h1 := h0.step (@ProtoStep.setcw _ _ _ _ 3 5 rfl (by decide) (by decide) (by decide) rfl)
  have h2 := h1.step (@ProtoStep.setcw _ _ _ _ 8 4 rfl (by decide) (by decide) (by decide) rfl)
  have h3 := h2.step (@ProtoStep.shrink _ _ 30 (by decide) (by decide))
  obtain ⟨hcw, -⟩ := prototypes_refine_set h3 rfl
  exact ⟨_, _, _, h3, rfl, rfl, (hcw 9 (by decide)).1.2 (by decide)⟩

/-- A page with an entry does not become copy-on-write when `vfd_setcw` finds a slot for it, and a
range without pages spoils the slot that the next range is joined to. -/
theorem setcw_leaves_entries : (∃ rp rp' br e, findEntryMacro forty 0 = .ok rp ∧
      vfdSetcw rp 0 4 = .ok rp' ∧ rp'.rRoot = some br ∧ (defaultVfd br 0).1.pgCw = true ∧
      rp'.entry 0 = some e ∧ e.cVfd.pgCw = false) ∧
    ∃ rp rp' br, vfdSetcw forty 0 0 = .ok rp ∧ vfdSetcw rp 0 4 = .ok rp' ∧
      rp'.rRoot = some br ∧ (defaultVfd br 0).1.pgCw = false := by
  refine ⟨⟨_, _, _, _, rfl, rfl, rfl, by decide, rfl, by decide⟩, ?_⟩
  exact ⟨_, _, _, rfl, rfl, rfl, by decide⟩

end Vfd

end Hpux
