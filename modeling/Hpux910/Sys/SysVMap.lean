import Hpux910.Lib.Ranges
import Mathlib

/-!
# The allocation map of the System V facilities

`ipcmalloc` and `ipcmfree` (`sys/sysV_map.c`) hand out ranges of semaphores and message segments.
A map is a list of free segments in increasing order, ended by a segment of size 0, with a count of
the unused slots behind it.

* `IpcMap` : the segments and the count.
* `ipcmalloc`, `ipcmfree` : the two routines.
* `ipcmalloc_spec`, `ipcmfree_spec` : what they do to the set of free units.
-/

namespace Hpux

namespace SysV

/-- `struct ipcmap` of one segment. -/
structure Seg where
  /-- `m_addr`. -/
  mAddr : ℕ
  /-- `m_size`. -/
  mSize : ℕ
  deriving DecidableEq, Repr

/-- A map: the segments before the delimiter and `ipcmapsize`, the number of unused slots. -/
structure IpcMap where
  /-- The free segments. -/
  segs : List Seg
  /-- `ipcmapsize`. -/
  slots : ℕ
  deriving DecidableEq, Repr

/-- The first-fit loop of `ipcmalloc`; the last component says that a slot was given back. -/
def mallocScan (size : ℕ) : List Seg → Option (ℕ × List Seg × Bool)
  | [] => none
  | bp :: rest =>
    if bp.mSize ≥ size then
      if bp.mSize - size = 0 then some (bp.mAddr, rest, true)
      else some (bp.mAddr, ⟨bp.mAddr + size, bp.mSize - size⟩ :: rest, false)
    else (mallocScan size rest).map fun x => (x.1, bp :: x.2.1, x.2.2)

/-- `ipcmalloc`: the base of the allocated space, or 0. -/
def ipcmalloc (mp : IpcMap) (size : ℕ) : ℕ × IpcMap :=
  match mallocScan size mp.segs with
  | some (a, segs, freed) => (a, ⟨segs, if freed then mp.slots + 1 else mp.slots⟩)
  | none => (0, mp)

/-- `ipcmfree` at the first segment behind `a`, when the segment before it does not end at `a`. -/
def mfreeHere (size a slots : ℕ) : List Seg → List Seg × ℕ
  | [] => if size = 0 then ([], slots)
    else if slots = 0 then ([], slots) else ([⟨a, size⟩], slots - 1)
  | bp :: rest =>
    if a + size = bp.mAddr then (⟨bp.mAddr - size, bp.mSize + size⟩ :: rest, slots)
    else if size = 0 then (bp :: rest, slots)
    -- the map is full: the space is lost
    else if slots = 0 then (bp :: rest, slots)
    else (⟨a, size⟩ :: bp :: rest, slots - 1)

/-- The rest of `ipcmfree` behind the segment `p`, which starts at or before `a`. -/
def mfreeBehind (size a slots : ℕ) (p : Seg) : List Seg → List Seg × ℕ
  | [] =>
    if p.mAddr + p.mSize = a then ([⟨p.mAddr, p.mSize + size⟩], slots)
    else
      let x := mfreeHere size a slots []
      (p :: x.1, x.2)
  | bp :: rest =>
    if bp.mAddr ≤ a then
      let x := mfreeBehind size a slots bp rest
      (p :: x.1, x.2)
    else if p.mAddr + p.mSize = a then
      if a + size = bp.mAddr then (⟨p.mAddr, p.mSize + size + bp.mSize⟩ :: rest, slots + 1)
      else (⟨p.mAddr, p.mSize + size⟩ :: bp :: rest, slots)
    else
      let x := mfreeHere size a slots (bp :: rest)
      (p :: x.1, x.2)

/-- `ipcmfree`. -/
def ipcmfree (mp : IpcMap) (size a : ℕ) : IpcMap :=
  let x :=
    match mp.segs with
    | [] => mfreeHere size a mp.slots []
    | bp :: rest =>
      if bp.mAddr ≤ a then mfreeBehind size a mp.slots bp rest
      else mfreeHere size a mp.slots (bp :: rest)
  ⟨x.1, x.2⟩

/-! ### What the routines do to the free units -/

/-- Segments as ranges. -/
def segSpans : Spans Seg ℕ Unit := ⟨Seg.mAddr, fun s => s.mAddr + s.mSize, fun _ => ()⟩

@[simp] theorem segSpans_lo (s : Seg) : segSpans.lo s = s.mAddr := rfl
@[simp] theorem segSpans_hi (s : Seg) : segSpans.hi s = s.mAddr + s.mSize := rfl

/-- The free units of a list of segments. -/
def units (l : List Seg) : Set ℕ := segSpans.cover l

variable {l : List Seg}

theorem mem_units {x : ℕ} : x ∈ units l ↔ ∃ s ∈ l, s.mAddr ≤ x ∧ x < s.mAddr + s.mSize := Iff.rfl

theorem mem_units_cons {s : Seg} {x : ℕ} :
    x ∈ units (s :: l) ↔ (s.mAddr ≤ x ∧ x < s.mAddr + s.mSize) ∨ x ∈ units l :=
  Spans.mem_cover_cons

theorem le_of_units (hok : segSpans.Ok l) {b : ℕ} (h : ∀ x ∈ units l, b ≤ x) : ∀ s ∈ l, b ≤ s.mAddr :=
  fun s hs => h s.mAddr (mem_units.2 ⟨s, hs, le_rfl, hok.1 s hs⟩)

theorem units_lt {s : Seg} (hok : segSpans.Ok (s :: l)) {x : ℕ} (hx : x ∈ units l) :
    s.mAddr + s.mSize ≤ x := by
  obtain ⟨t, ht, hle, -⟩ := mem_units.1 hx
  exact (hok.le_of_mem ht).trans hle

theorem mallocScan_spec {size : ℕ} (hsize : 0 < size) (hok : segSpans.Ok l)
    {a : ℕ} {l' : List Seg} {freed : Bool} (h : mallocScan size l = some (a, l', freed)) :
    segSpans.Ok l' ∧ (∀ x, a ≤ x → x < a + size → x ∈ units l) ∧
      ∀ x, x ∈ units l' ↔ x ∈ units l ∧ ¬(a ≤ x ∧ x < a + size) := by
  induction l generalizing l' with
  | nil => cases h
  | cons bp rest ih =>
    have hne : bp.mAddr < bp.mAddr + bp.mSize := hok.head_lt
    have hrest : ∀ x ∈ units rest, bp.mAddr + bp.mSize ≤ x := fun x => units_lt hok
    rw [mallocScan] at h
    split_ifs at h with hfit hzero
    · -- the segment is used up
      simp only [Option.some.injEq, Prod.mk.injEq] at h
      obtain ⟨rfl, rfl, -⟩ := h
      refine ⟨hok.tail, fun x h1 h2 => mem_units_cons.2 (.inl (by omega)), fun x => ?_⟩
      rw [mem_units_cons]
      constructor
      · intro hx
        have := hrest x hx
        exact ⟨.inr hx, by omega⟩
      · rintro ⟨hx | hx, hnot⟩
        · omega
        · exact hx
    · simp only [Option.some.injEq, Prod.mk.injEq] at h
      obtain ⟨rfl, rfl, -⟩ := h
      refine ⟨Spans.ok_cons.2 ⟨?_, fun f hf => ?_, hok.tail⟩,
        fun x h1 h2 => mem_units_cons.2 (.inl (by omega)), fun x => ?_⟩
      · simp only [segSpans_lo, segSpans_hi]; omega
      · have : bp.mAddr + bp.mSize ≤ f.mAddr := hok.le_of_mem hf
        simp only [segSpans_lo, segSpans_hi]; omega
      · simp only [mem_units_cons]
        constructor
        · rintro (hx | hx)
          · exact ⟨.inl (by omega), by omega⟩
          · have := hrest x hx
            exact ⟨.inr hx, by omega⟩
        · rintro ⟨hx | hx, hnot⟩
          · exact .inl (by omega)
          · exact .inr hx
    · cases hs : mallocScan size rest with
      | none =>
        rw [hs] at h
        cases h
      | some y =>
        obtain ⟨a', l'', freed'⟩ := y
        simp only [hs, Option.map_some, Option.some.injEq, Prod.mk.injEq] at h
        obtain ⟨rfl, rfl, rfl⟩ := h
        obtain ⟨hok', hsub, hiff⟩ := ih hok.tail hs
        refine ⟨Spans.ok_cons.2 ⟨hne, le_of_units hok' fun x hx => hrest x ((hiff x).1 hx).1, hok'⟩,
          fun x h1 h2 => mem_units_cons.2 (.inr (hsub x h1 h2)), fun x => ?_⟩
        have hlow := hrest _ (hsub a' le_rfl (by omega))
        rw [mem_units_cons, mem_units_cons, hiff]
        constructor
        · rintro (hx | ⟨hx, hnot⟩)
          · exact ⟨.inl hx, by omega⟩
          · exact ⟨.inr hx, hnot⟩
        · rintro ⟨hx | hx, hnot⟩
          · exact .inl hx
          · exact .inr ⟨hx, hnot⟩

/-- An allocated range was free and is not free any more. -/
theorem ipcmalloc_spec {mp : IpcMap} (hok : segSpans.Ok mp.segs) {size : ℕ} (hsize : 0 < size)
    (hne : (ipcmalloc mp size).1 ≠ 0) : segSpans.Ok (ipcmalloc mp size).2.segs ∧
      (∀ x, (ipcmalloc mp size).1 ≤ x → x < (ipcmalloc mp size).1 + size → x ∈ units mp.segs) ∧
      ∀ x, x ∈ units (ipcmalloc mp size).2.segs ↔ x ∈ units mp.segs ∧
        ¬((ipcmalloc mp size).1 ≤ x ∧ x < (ipcmalloc mp size).1 + size) := by
  unfold ipcmalloc at hne ⊢
  cases hs : mallocScan size mp.segs with
  | none => simp [hs] at hne
  | some y =>
    obtain ⟨a, l', freed⟩ := y
    exact mallocScan_spec hsize hok hs

/-- Freeing a range keeps the order, loses no free unit and adds at most the range. -/
structure Freed (size a : ℕ) (l l' : List Seg) : Prop where
  ok : segSpans.Ok l'
  le : ∀ x ∈ units l, x ∈ units l'
  sub : ∀ x ∈ units l', x ∈ units l ∨ (a ≤ x ∧ x < a + size)

theorem Freed.refl {size a : ℕ} (hok : segSpans.Ok l) : Freed size a l l :=
  ⟨hok, fun _ h => h, fun _ h => .inl h⟩

/-- A segment before the range stays. -/
theorem Freed.cons {size a : ℕ} {p : Seg} {l l' : List Seg} (hok : segSpans.Ok (p :: l))
    (hp : p.mAddr + p.mSize ≤ a) (h : Freed size a l l') : Freed size a (p :: l) (p :: l') := by
  refine ⟨Spans.ok_cons.2 ⟨hok.head_lt, le_of_units h.ok fun x hx => ?_, h.ok⟩, fun x => ?_, fun x => ?_⟩
  · rcases h.sub x hx with hx | hx
    · exact units_lt hok hx
    · exact hp.trans hx.1
  · rw [mem_units_cons, mem_units_cons]
    exact Or.imp id (h.le x)
  · rw [mem_units_cons, mem_units_cons]
    rintro (hx | hx)
    · exact .inl (.inl hx)
    · exact (h.sub x hx).imp .inr id

section Free

variable {size a slots : ℕ} (hsize : 0 < size)
include hsize

theorem mfreeHere_spec {l : List Seg} (hok : segSpans.Ok l) (hlow : ∀ s ∈ l, a + size ≤ s.mAddr) :
    Freed size a l (mfreeHere size a slots l).1 := by
  cases l with
  | nil =>
    rw [mfreeHere]
    split_ifs
    · exact .refl hok
    · exact .refl hok
    · refine ⟨Spans.ok_cons.2 ⟨?_, by simp, by simp⟩, by simp [mem_units], fun x hx => .inr ?_⟩
      · simpa using hsize
      · simpa [mem_units] using hx
  | cons bp rest =>
    have hne : bp.mAddr < bp.mAddr + bp.mSize := hok.head_lt
    rw [mfreeHere]
    split_ifs with h1 h2 h3
    · refine ⟨Spans.ok_cons.2 ⟨?_, fun f hf => ?_, hok.tail⟩, fun x => ?_, fun x => ?_⟩
      · simp only [segSpans_lo, segSpans_hi]; omega
      · have : bp.mAddr + bp.mSize ≤ f.mAddr := hok.le_of_mem hf
        simp only [segSpans_lo, segSpans_hi]; omega
      · rw [mem_units_cons, mem_units_cons]
        exact Or.imp (by simp only; omega) id
      · rw [mem_units_cons, mem_units_cons]
        rintro (hx | hx)
        · simp only at hx
          by_cases hxb : bp.mAddr ≤ x
          · exact .inl (.inl (by omega))
          · exact .inr (by omega)
        · exact .inl (.inr hx)
    · exact .refl hok
    · exact .refl hok
    · refine ⟨Spans.ok_cons.2 ⟨?_, fun f hf => ?_, hok⟩, fun x hx => mem_units_cons.2 (.inr hx),
        fun x hx => ?_⟩
      · simpa using hsize
      · exact hlow f hf
      · exact (mem_units_cons.1 hx).symm

theorem mfreeBehind_spec {p : Seg} {l : List Seg} (hok : segSpans.Ok (p :: l)) (hp : p.mAddr ≤ a)
    (hout : ∀ x, a ≤ x → x < a + size → x ∉ units (p :: l)) :
    Freed size a (p :: l) (mfreeBehind size a slots p l).1 := by
  have hne : p.mAddr < p.mAddr + p.mSize := hok.head_lt
  have hpa : p.mAddr + p.mSize ≤ a := by
    by_contra hlt
    exact hout a le_rfl (by omega) (mem_units_cons.2 (.inl (by omega)))
  induction l generalizing p with
  | nil =>
    rw [mfreeBehind]
    split_ifs with h1
    · refine ⟨Spans.ok_cons.2 ⟨?_, by simp, by simp⟩, fun x => ?_, fun x => ?_⟩
      · simp only [segSpans_lo, segSpans_hi]; omega
      · simp only [mem_units_cons]
        exact Or.imp (by omega) id
      · simp only [mem_units_cons]
        rintro (hx | hx)
        · by_cases hxa : x < a
          · exact .inl (.inl (by omega))
          · exact .inr (by omega)
        · exact absurd hx (by simp [mem_units])
    · exact (mfreeHere_spec hsize (by simp) (by simp)).cons hok hpa
  | cons bp rest ih =>
    have hbp : bp.mAddr < bp.mAddr + bp.mSize := hok.tail.head_lt
    have hpb : p.mAddr + p.mSize ≤ bp.mAddr := hok.le_of_mem (by simp)
    have hrest : ∀ f ∈ rest, bp.mAddr + bp.mSize ≤ f.mAddr := fun f hf => hok.tail.le_of_mem hf
    have hout' : ∀ x, a ≤ x → x < a + size → x ∉ units (bp :: rest) := fun x h1 h2 h3 =>
      hout x h1 h2 (mem_units_cons.2 (.inr h3))
    rw [mfreeBehind]
    by_cases h1 : bp.mAddr ≤ a
    · rw [if_pos h1]
      refine (ih hok.tail h1 hout' hbp ?_).cons hok hpa
      by_contra hlt
      exact hout' a le_rfl (by omega) (mem_units_cons.2 (.inl (by omega)))
    have hend : a + size ≤ bp.mAddr := by
      by_contra hlt
      exact hout' bp.mAddr (by omega) (by omega) (mem_units_cons.2 (.inl (by omega)))
    rw [if_neg h1]
    split_ifs with h2 h3
    · refine ⟨Spans.ok_cons.2 ⟨?_, fun f hf => ?_, hok.tail.tail⟩, fun x => ?_, fun x => ?_⟩
      · simp only [segSpans_lo, segSpans_hi]; omega
      · have := hrest f hf
        simp only [segSpans_lo, segSpans_hi]; omega
      · simp only [mem_units_cons]
        rintro (hx | hx | hx)
        · exact .inl (by omega)
        · exact .inl (by omega)
        · exact .inr hx
      · simp only [mem_units_cons]
        rintro (hx | hx)
        · by_cases hxa : x < a
          · exact .inl (.inl (by omega))
          · by_cases hxb : x < bp.mAddr
            · exact .inr (by omega)
            · exact .inl (.inr (.inl (by omega)))
        · exact .inl (.inr (.inr hx))
    · refine ⟨Spans.ok_cons.2 ⟨?_, fun f hf => ?_, hok.tail⟩, fun x => ?_, fun x => ?_⟩
      · simp only [segSpans_lo, segSpans_hi]; omega
      · simp only [segSpans_lo, segSpans_hi]
        rcases List.mem_cons.1 hf with rfl | hf
        · omega
        · have := hrest f hf
          omega
      · simp only [mem_units_cons]
        rintro (hx | hx)
        · exact .inl (by omega)
        · exact .inr hx
      · simp only [mem_units_cons]
        rintro (hx | hx)
        · by_cases hxa : x < a
          · exact .inl (.inl (by omega))
          · exact .inr (by omega)
        · exact .inl (.inr hx)
    · refine (mfreeHere_spec hsize hok.tail fun f hf => ?_).cons hok hpa
      rcases List.mem_cons.1 hf with rfl | hf
      · exact hend
      · have := hrest f hf
        omega

/-- Freeing a range that is not free. -/
theorem ipcmfree_spec {mp : IpcMap} (hok : segSpans.Ok mp.segs)
    (hout : ∀ x, a ≤ x → x < a + size → x ∉ units mp.segs) :
    Freed size a mp.segs (ipcmfree mp size a).segs := by
  unfold ipcmfree
  cases hs : mp.segs with
  | nil => exact mfreeHere_spec hsize (by simp) (by simp)
  | cons bp rest =>
    rw [hs] at hok hout
    simp only
    split_ifs with h1
    · exact mfreeBehind_spec hsize hok h1 hout
    · refine mfreeHere_spec hsize hok ?_
      have hbp : bp.mAddr < bp.mAddr + bp.mSize := hok.head_lt
      have hend : a + size ≤ bp.mAddr := by
        by_contra hlt
        exact hout bp.mAddr (by omega) (by omega) (mem_units_cons.2 (.inl (by omega)))
      intro f hf
      rcases List.mem_cons.1 hf with rfl | hf
      · exact hend
      · have : bp.mAddr + bp.mSize ≤ f.mAddr := hok.le_of_mem hf
        omega

end Free

end SysV

end Hpux
