import Hpux910.Sys.VfdRuns

/-!
# Growth of a region

`growvfd` is right when it fails and leaves the region alone, or gives fresh pages and keeps the old
ones.

* `Region.read`, `Fresh` : what a lookup finds on a page, and what it should find on a new one.
* `GrowRight`, `GrowCond` : the property, and the condition on the region for it.
* `grow_right_iff` : in every reachable region they are the same.

Four things go wrong.  The last loop asks for entries behind the end of the region, so it panics
unless the cache happens to have them; if it has, the copy-on-write bit of an entry left over by a
shrink stays.  A shrink to nothing keeps the region's own chunk, and the next growth does not fill
it.  And when the second prototype starts right behind the last page, growth with the first one
leaves new pages with the second.
-/

namespace Hpux

namespace Vfd

open Option

/-- What a lookup of page `i` finds. -/
def Region.read (rp : Region) (i : ℕ) : Option VfdDbd :=
  rp.rRoot.map fun br => (rp.entry i).getD (br.proto i)

/-- A page of the type that has no frame and is not copy-on-write. -/
def Fresh (type : DbdType) (e : VfdDbd) : Prop :=
  e.cVfd.pgV = false ∧ e.cVfd.pgCw = false ∧ e.cDbd = ⟨type, dbdDinval⟩

/-- The pages that growth adds. -/
abbrev Region.NewPage (rp : Region) (amount i : ℕ) : Prop := rp.rPgsz ≤ i ∧ i < rp.rPgsz + amount

/-- `growvfd` does not panic; it fails and changes nothing, or its new pages are fresh and the
others are as before. -/
def GrowRight (rp : Region) (amount : ℕ) (type : DbdType) (swap : Bool) (mem : Dbd) : Prop :=
  ∃ r rp', growvfd rp amount type swap mem = .ok (r, rp') ∧
    ((r ≠ 0 ∧ rp' = rp) ∨ (r = 0 ∧ rp'.rPgsz = rp.rPgsz + amount ∧
      (∀ i, i < rp.rPgsz → rp'.read i = rp.read i) ∧
      ∀ i, rp.NewPage amount i → ∃ e, rp'.read i = some e ∧ Fresh type e))

/-- The condition for growth of a region that has pages. -/
def GrowMore (rp : Region) (br : Broot) (amount : ℕ) (type : DbdType) : Prop :=
  if (defaultDbd br (rp.rPgsz - 1)).dbdType = type then
    br.bProtoidx ≠ rp.rPgsz ∨ ∀ i, rp.NewPage amount i → (rp.entry i).isSome
  else
    br.bProtoidx = unusedIdx ∨ ∀ i, rp.NewPage amount i →
      rp.Cached i ∧ ∀ e, rp.entry i = some e → e.cVfd.pgCw = false

/-- The condition for `growvfd` to be right: nothing is asked for; or a region without pages has no
root when swap space is refused, and no entries that are not fresh in its own chunk when it is not;
or swap space is refused, or the region meets `GrowMore`. -/
def GrowCond (rp : Region) (amount : ℕ) (type : DbdType) (swap : Bool) : Prop :=
  amount = 0 ∨
  (rp.rPgsz = 0 ∧ if swap = false then rp.rRoot = none
    else ∀ i, i < amount → rp.rKey = cindex i → Fresh type (rp.rChunk.at (coffset i))) ∨
  (0 < rp.rPgsz ∧ (swap = false ∨ ∀ br, rp.rRoot = some br → GrowMore rp br amount type))

section Grow

variable {rp rp' : Region} {br br' br₁ : Broot} {i n amount : ℕ} {type : DbdType}

theorem read_some (hbr : rp.rRoot = some br) : rp.read i = some ((rp.entry i).getD (br.proto i)) := by
  rw [Region.read, hbr]
  rfl

theorem Broot.SameProtos.proto (h : br.SameProtos br') (i : ℕ) : br'.proto i = br.proto i := by
  obtain ⟨h1, h2, h3, h4⟩ := h
  rw [Broot.proto, Broot.proto, defaultVfd, defaultVfd, defaultDbd, defaultDbd, h1, h2, h3, h4]

theorem Broot.Protos.proto_new (h : br.Protos n) (hi : n ≤ i) (hlt : i < unusedIdx) :
    br.proto i = ⟨vfdNocw, defaultDbd br i⟩ := by
  rcases (@defaultVfd_spec br _ hlt).1 with ⟨-, hc⟩ | ⟨h1, -⟩
  · have := h.covered i hc
    omega
  · rw [Broot.proto, h1]

theorem fresh_iff {d : Dbd} : Fresh type ⟨vfdNocw, d⟩ ↔ d = ⟨type, dbdDinval⟩ := by
  simp [Fresh, vfdNocw]

theorem newPage_lt (hfit : rp.rPgsz + amount < maxPages) (hi : rp.NewPage amount i) :
    i < unusedIdx := by
  have hm : maxPages = 2 ^ 30 := rfl
  have hu : unusedIdx = 2 ^ 31 - 1 := rfl
  omega

/-- The pages after growth with a prototype. -/
theorem read_filled (h : rp.Good) (hbr : rp.rRoot = some br) (hbr' : rp'.rRoot = some br')
    (hsame : br₁.SameProtos br') (hold : ∀ i, i < rp.rPgsz → br₁.proto i = br.proto i) {d : Dbd}
    (hent : ∀ i, i < maxIndex → rp'.entry i = (rp.entry i).map fun e =>
      if rp.NewPage amount i then ⟨vfdNocw, d⟩ else e) (hfit : rp.rPgsz + amount < maxPages) :
    (∀ i, i < rp.rPgsz → rp'.read i = rp.read i) ∧ ∀ i, rp.NewPage amount i →
      rp'.read i = some (if (rp.entry i).isSome then ⟨vfdNocw, d⟩ else br₁.proto i) := by
  refine ⟨fun i hi => ?_, fun i hi => ?_⟩
  · have hlt : i < maxIndex := index_lt (hi.trans h.ok.size)
    rw [read_some hbr, read_some hbr', hent i hlt, hsame.proto, hold i hi]
    rcases rp.entry i with _ | e
    · rfl
    · rw [map_some, if_neg fun hnew => absurd hnew.1 (not_le.2 hi)]
  · have hlt : i < maxIndex := index_lt (hi.2.trans hfit)
    rw [read_some hbr', hent i hlt, hsame.proto]
    rcases rp.entry i with _ | e
    · rfl
    · rw [map_some, if_pos hi]
      rfl

/-- Growth of an empty region. -/
theorem grow_empty (h : rp.Good) (hzero : amount ≠ 0) (hempty : rp.rPgsz = 0)
    (hfit : rp.rPgsz + amount < maxPages) (swap : Bool) (mem : Dbd) :
    GrowRight rp amount type swap mem ↔ if swap = false then rp.rRoot = none
      else ∀ i, i < amount → rp.rKey = cindex i → Fresh type (rp.rChunk.at (coffset i)) := by
  have hrun : growvfd rp amount type swap mem =
      if swap = false then .ok (1, { rp with rRoot := none, rPgsz := 0 })
      else .ok (0, { rp with
        rRoot := some { btInit mem with bProto1 := ⟨type, dbdDinval⟩ }, rPgsz := amount }) := by
    rw [growvfd, if_neg hzero, if_pos hempty]
  unfold GrowRight
  rw [hrun]
  by_cases hswap : swap = false
  · rw [if_pos hswap, if_pos hswap]
    constructor
    · rintro ⟨r, rp', heq, hr⟩
      cases heq
      rcases hr with ⟨-, hr⟩ | ⟨hr, -⟩
      · exact (congrArg Region.rRoot hr).symm
      · cases hr
    · intro hroot
      refine ⟨_, _, rfl, .inl ⟨Nat.one_ne_zero, ?_⟩⟩
      cases rp
      cases hroot
      cases hempty
      rfl
  · rw [if_neg hswap, if_neg hswap]
    obtain ⟨br, hbr⟩ : ∃ br, br = { btInit mem with bProto1 := ⟨type, dbdDinval⟩ } := ⟨_, rfl⟩
    rw [← hbr]
    have hentry : ∀ i, Region.entry { rp with rRoot := some br, rPgsz := amount } i =
        if rp.rKey = cindex i then some (rp.rChunk.at (coffset i)) else none := by
      intro i
      rw [Region.entry, @chunkAt_own { rp with rRoot := some br, rPgsz := amount } br rfl
        (by rw [hbr]; rfl)]
      show Option.map _ (if rp.rKey = cindex i then some rp.rChunk else none) = _
      split_ifs <;> rfl
    -- the pages without an entry have the new prototype
    have hread : ∀ i, i < amount → ∃ e,
        Region.read { rp with rRoot := some br, rPgsz := amount } i = some e ∧
        (Fresh type e ↔ (rp.rKey = cindex i → Fresh type (rp.rChunk.at (coffset i)))) := by
      intro i hi
      have hlt : i < unusedIdx := @newPage_lt rp _ _ hfit ⟨by omega, by omega⟩
      refine ⟨_, @read_some { rp with rRoot := some br, rPgsz := amount } br i rfl, ?_⟩
      rw [hentry]
      by_cases hkey : rp.rKey = cindex i
      · rw [if_pos hkey]
        exact ⟨fun h _ => h, fun h => h hkey⟩
      · rw [if_neg hkey]
        refine iff_of_true ?_ fun h => absurd h hkey
        have hp : br.Protos 0 := by
          rw [hbr]
          exact initProtos type mem 0
        show Fresh type (br.proto i)
        rw [hp.proto_new (Nat.zero_le i) hlt, fresh_iff, defaultDbd, hbr]
        exact if_neg (not_le.2 hlt)
    constructor
    · rintro ⟨r, rp', heq, hr⟩
      cases heq
      rcases hr with ⟨hr, -⟩ | ⟨-, -, -, hr⟩
      · exact absurd rfl hr
      · intro i hi
        obtain ⟨e, he, hiff⟩ := hread i hi
        obtain ⟨e', he', hfresh⟩ := hr i ⟨by omega, by omega⟩
        obtain rfl := Option.some.inj (he.symm.trans he')
        exact hiff.1 hfresh
    · intro hclean
      refine ⟨_, _, rfl, .inr ⟨rfl, ?_, fun i hi => ?_, fun i hi => ?_⟩⟩
      · show amount = rp.rPgsz + amount
        omega
      · omega
      · obtain ⟨e, he, hiff⟩ := hread i (by omega)
        exact ⟨e, he, hiff.2 (hclean i (by omega))⟩

/-- Growth that ends with given pages is right just when the new ones are fresh. -/
theorem grow_done {swap : Bool} {mem : Dbd} {f : ℕ → VfdDbd}
    (hrun : growvfd rp amount type swap mem = .ok (0, rp')) (hpg : rp'.rPgsz = rp.rPgsz + amount)
    (hold : ∀ i, i < rp.rPgsz → rp'.read i = rp.read i)
    (hnew : ∀ i, rp.NewPage amount i → rp'.read i = some (f i)) :
    GrowRight rp amount type swap mem ↔ ∀ i, rp.NewPage amount i → Fresh type (f i) := by
  unfold GrowRight
  rw [hrun]
  constructor
  · rintro ⟨r, rp₁, heq, hr⟩ i hi
    cases heq
    rcases hr with ⟨hr, -⟩ | ⟨-, -, -, hr⟩
    · exact absurd rfl hr
    · obtain ⟨e, he, hfresh⟩ := hr i hi
      obtain rfl := Option.some.inj ((hnew i hi).symm.trans he)
      exact hfresh
  · exact fun hall => ⟨0, rp', rfl, .inr ⟨rfl, hpg, hold, fun i hi => ⟨f i, hnew i hi, hall i hi⟩⟩⟩

/-- Growth of a region with pages, for which there is swap space. -/
theorem grow_more (h : rp.Good) (hzero : amount ≠ 0) (hpos : 0 < rp.rPgsz)
    (hfit : rp.rPgsz + amount < maxPages) (hbr : rp.rRoot = some br) (mem : Dbd) :
    GrowRight rp amount type true mem ↔ GrowMore rp br amount type := by
  have hrun : growvfd rp amount type true mem =
      if (defaultDbd br (rp.rPgsz - 1)).dbdType = type then
        .ok (growProto rp br amount (defaultDbd br (rp.rPgsz - 1)))
      else if br.bProtoidx = unusedIdx then
        .ok (growProto rp
          { br with bProtoidx := rp.rPgsz, bProto2 := ⟨type, dbdDinval⟩ } amount ⟨type, dbdDinval⟩)
      else (fillDbds type amount rp.rPgsz rp).map fun rp => (0, { rp with rPgsz := rp.rPgsz + amount }) := by
    rw [growvfd, if_neg hzero, if_neg (by omega), hbr]
    rcases fillDbds type amount rp.rPgsz rp with _ | _ <;> rfl
  have hp := h.protos br hbr
  have hm : maxPages = 2 ^ 30 := rfl
  have hu : unusedIdx = 2 ^ 31 - 1 := rfl
  unfold GrowMore
  by_cases htype : (defaultDbd br (rp.rPgsz - 1)).dbdType = type
  · -- the prototype of the last page is used
    rw [if_pos htype]
    rw [if_pos htype] at hrun
    obtain ⟨d, hd⟩ : ∃ d, d = defaultDbd br (rp.rPgsz - 1) := ⟨_, rfl⟩
    have hfull : d = ⟨type, dbdDinval⟩ := by
      rw [← hd] at htype
      obtain ⟨t, data⟩ := d
      obtain rfl : t = type := htype
      have : (defaultDbd br (rp.rPgsz - 1)).dbdData = dbdDinval := by
        rw [defaultDbd]
        split_ifs
        · exact hp.data2 (by omega)
        · exact hp.data1
      rw [← hd] at this
      obtain rfl : data = dbdDinval := this
      rfl
    obtain ⟨rp', br', heq, -, hbr', hsame, hpg, hent⟩ := h.growProto hbr rfl rfl hfit (hp.grow amount) d
    rw [← hd, heq] at hrun
    obtain ⟨hold, hnew⟩ := read_filled h hbr hbr' hsame (fun i _ => rfl) hent hfit
    rw [grow_done hrun hpg hold hnew]
    have hproto : ∀ i, rp.NewPage amount i →
        (Fresh type (br.proto i) ↔ br.bProtoidx ≠ rp.rPgsz) := by
      intro i hi
      rw [hp.proto_new hi.1 (newPage_lt hfit hi), fresh_iff, ← hfull, hd, defaultDbd, defaultDbd]
      rcases hp.idx with hun | hle
      · rw [if_neg (by omega), if_neg (by omega)]
        exact iff_of_true rfl (by omega)
      · rw [if_pos (by omega)]
        by_cases hend : br.bProtoidx = rp.rPgsz
        · rw [if_neg (by omega)]
          refine iff_of_false (fun hsame => ?_) fun h => h hend
          exact hp.types (by omega) (congrArg Dbd.dbdType hsame).symm
        · rw [if_pos (by omega)]
          exact iff_of_true rfl hend
    constructor
    · intro hall
      by_cases hend : br.bProtoidx = rp.rPgsz
      · refine .inr fun i hi => ?_
        by_contra hno
        have := hall i hi
        rw [if_neg hno, hproto i hi] at this
        exact this hend
      · exact .inl hend
    · intro hcond i hi
      by_cases hsome : (rp.entry i).isSome
      · rw [if_pos hsome, fresh_iff]
        exact hfull
      · rw [if_neg hsome, hproto i hi]
        exact hcond.resolve_right fun h => hsome (h i hi)
  rw [if_neg htype]
  rw [if_neg htype] at hrun
  by_cases hun : br.bProtoidx = unusedIdx
  · -- the second prototype is used
    rw [if_pos hun] at hrun
    rw [defaultDbd_last h hun] at htype
    obtain ⟨br₁, hbr₁⟩ : ∃ br₁ : Broot, br₁ = { br with
        bProtoidx := rp.rPgsz, bProto2 := ⟨type, dbdDinval⟩ } := ⟨_, rfl⟩
    have hp₁ : br₁.Protos rp.rPgsz := by
      rw [hbr₁]
      exact secondProtos h hbr hun htype 0
    obtain ⟨rp', br', heq, -, hbr', hsame, hpg, hent⟩ := h.growProto hbr (by rw [hbr₁])
      (by rw [hbr₁]) hfit (hp₁.grow amount) ⟨type, dbdDinval⟩
    rw [← hbr₁, heq] at hrun
    have hsame₁ : ∀ i, i < rp.rPgsz → br₁.proto i = br.proto i := by
      intro i hi
      rw [hbr₁, Broot.proto, Broot.proto, defaultDbd, defaultDbd, if_neg (by dsimp only; omega),
        if_neg (by omega)]
      rfl
    obtain ⟨hold, hnew⟩ := read_filled h hbr hbr' hsame hsame₁ hent hfit
    rw [grow_done hrun hpg hold hnew]
    refine iff_of_true (fun i hi => ?_) (.inl hun)
    split_ifs
    · exact fresh_iff.2 rfl
    · rw [hp₁.proto_new hi.1 (newPage_lt hfit hi), fresh_iff, defaultDbd, hbr₁]
      exact if_pos hi.1
  · -- the entries are written one by one
    rw [if_neg hun] at hrun
    by_cases hc : ∀ i, rp.rPgsz ≤ i → i < rp.rPgsz + amount → rp.Cached i
    · obtain ⟨rp₁, br₁, heq, -, hbr₁, hsame, hpg, hent⟩ := h.fillDbds hbr type hfit hc
      rw [heq] at hrun
      have hread : ∀ i, Region.read { rp₁ with rPgsz := rp₁.rPgsz + amount } i =
          some ((rp₁.entry i).getD (br.proto i)) := by
        intro i
        rw [@read_some { rp₁ with rPgsz := rp₁.rPgsz + amount } br₁ i hbr₁, hsame.proto]
        rfl
      have hsome : ∀ i, rp.NewPage amount i → ∃ e, rp.entry i = some e ∧ e.cVfd.pgV = false := by
        intro i hi
        obtain ⟨br₂, hbr₂, hcache⟩ := hc i hi.1 hi.2
        have hlt := index_lt (hi.2.trans hfit)
        obtain ⟨c, hchunk⟩ := isSome_iff_exists.1 (cached_chunkAt h.ok hbr₂ hlt hcache)
        have he : rp.entry i = some (c.at (coffset i)) := by
          rw [Region.entry, hchunk]
          rfl
        refine ⟨_, he, Bool.eq_false_iff.2 fun hv => ?_⟩
        exact absurd (h.valid i hlt ⟨_, he, hv⟩) (not_lt.2 hi.1)
      rw [grow_done hrun (congrArg (· + amount) hpg) (fun i hi => ?_) fun i _ => hread i]
      · constructor
        · intro hall
          refine .inr fun i hi => ⟨hc i hi.1 hi.2, fun e he => ?_⟩
          have hfresh := hall i hi
          rw [hent, he, map_some, if_pos hi] at hfresh
          exact hfresh.2.1
        · intro hcond i hi
          obtain ⟨e, he, hv⟩ := hsome i hi
          rw [hent, he, map_some, if_pos hi]
          exact ⟨hv, ((hcond.resolve_left hun) i hi).2 e he, rfl⟩
      · rw [hread, hent, read_some hbr]
        rcases rp.entry i with _ | e
        · rfl
        · rw [map_some, if_neg fun hnew => absurd hnew.1 (not_le.2 hi)]
    · refine iff_of_false ?_ fun hcond => ?_
      · rintro ⟨r, rp', heq, -⟩
        push Not at hc
        rw [hrun, fillDbds_panic type amount le_rfl hc] at heq
        cases heq
      · exact hc fun i h1 h2 => ((hcond.resolve_left hun) i ⟨h1, h2⟩).1

/-- In every reachable region `growvfd` is right if and only if the region meets the condition. -/
theorem grow_right_iff (h : regionSys.Reach rp) (hfit : rp.rPgsz + amount < maxPages)
    (type : DbdType) (swap : Bool) (mem : Dbd) :
    GrowRight rp amount type swap mem ↔ GrowCond rp amount type swap := by
  have hgood := reach_good h
  unfold GrowCond
  by_cases hzero : amount = 0
  · refine iff_of_true ⟨0, rp, ?_, .inr ⟨rfl, by omega, fun i _ => rfl, fun i hi => ?_⟩⟩ (.inl hzero)
    · rw [growvfd, if_pos hzero]
    · have := hi.1
      have := hi.2
      omega
  by_cases hempty : rp.rPgsz = 0
  · rw [grow_empty hgood hzero hempty hfit]
    constructor
    · exact fun h => .inr (.inl ⟨hempty, h⟩)
    · rintro (h | ⟨-, h⟩ | ⟨h, -⟩)
      · exact absurd h hzero
      · exact h
      · omega
  · obtain ⟨br, hbr⟩ := Option.isSome_iff_exists.1 (hgood.root (by omega))
    by_cases hswap : swap = false
    · refine iff_of_true ⟨1, rp, ?_, .inl ⟨Nat.one_ne_zero, rfl⟩⟩
        (.inr (.inr ⟨Nat.pos_of_ne_zero hempty, .inl hswap⟩))
      rw [growvfd, if_neg hzero, if_neg hempty, hbr]
      exact if_pos hswap
    · obtain rfl := Bool.eq_true_of_not_eq_false hswap
      rw [grow_more hgood hzero (Nat.pos_of_ne_zero hempty) hfit hbr mem]
      constructor
      · intro hmore
        refine .inr (.inr ⟨Nat.pos_of_ne_zero hempty, .inr fun br' hbr' => ?_⟩)
        obtain rfl := Option.some.inj (hbr.symm.trans hbr')
        exact hmore
      · rintro (h | ⟨h, -⟩ | ⟨-, h⟩)
        · exact absurd h hzero
        · exact absurd h hempty
        · exact (h.resolve_left hswap) br hbr

end Grow

/-- Eight more pages of the same type. -/
theorem grow_right_forty : GrowRight forty 8 .dzero true ⟨.none, 0⟩ := by
  refine (grow_right_iff reach_forty (by decide) .dzero true ⟨.none, 0⟩).2 ?_
  refine .inr (.inr ⟨by decide, .inr fun br hbr => ?_⟩)
  obtain rfl := Option.some.inj hbr
  unfold GrowMore
  rw [if_pos (by decide)]
  exact .inl (by decide)

/-- The region of 40 pages after a lookup of page 0 that makes it copy-on-write. -/
def fortyCw : Region := Region.write { forty with
    rChunk := fillchunk .zero { btInit ⟨.none, 0⟩ with bProto1 := ⟨.dzero, dbdDinval⟩ } 0
    rKey := 0 } 0 fun e => { e with cVfd := vfdCw }

/-- A third type of pages: the system panics.  A region shrunk to nothing and grown again: page 0 is
the old one. -/
theorem grow_panics : (∃ rp, regionSys.Reach rp ∧ ¬ GrowRight rp 10 .dfill true ⟨.none, 0⟩) ∧
    ∃ rp, regionSys.Reach rp ∧ rp.rPgsz = 0 ∧ ¬ GrowRight rp 4 .dzero true ⟨.none, 0⟩ := by
  refine ⟨?_, ?_⟩
  · have h1 := reach_forty.step
      (@CallStep.grow forty _ 10 0 .fstore true ⟨.none, 0⟩ (by decide) rfl)
    refine ⟨_, h1, ?_⟩
    rintro ⟨r, rp', hrun, -⟩
    cases hrun
  · have h1 : regionSys.Reach fortyCw := reach_forty.step (@CallStep.lookup forty _ 0
        (fun e => { e with cVfd := vfdCw }) (by decide) rfl)
    have hnone : ∀ i : Fin 40, ((fortyCw.entry i).elim false fun e => e.cVfd.pgV) = false := by
      decide +kernel
    have h2 := h1.step (@CallStep.shrink fortyCw 40 (by decide) (by decide) fun i _ hi => by
      rintro ⟨e, he, hv⟩
      have := hnone ⟨i, hi⟩
      rw [he, Option.elim_some, hv] at this
      cases this)
    refine ⟨_, h2, rfl, ?_⟩
    rintro ⟨r, rp', hrun, hr⟩
    cases hrun
    rcases hr with ⟨hr, -⟩ | ⟨-, -, -, hr⟩
    · exact hr rfl
    · obtain ⟨e, he, hfresh⟩ := hr 0 ⟨Nat.zero_le _, by decide⟩
      cases he
      exact absurd hfresh.2.1 (by decide +kernel)

end Vfd

end Hpux
