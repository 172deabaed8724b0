import Hpux910.Lib.Ranges
import Hpux910.Lib.Lts
import Mathlib

/-!
# Resource maps

A resource map (`sys/subr_rmap.c`) is an array of segments in increasing order, ended by a
delimiter of size 0.  The routines edit the array in place.  Here the array is the list of its
slots below `m_limit`, and an access at or beyond `m_limit` is a fault.

* `rminit`, `rmalloc`, `rmfree`, `rmget` : the routines.
* `MapOk` : the invariant of the array.
* `rmalloc_cases`, `rmget_cases`, `rmfree_cases` : what the routines do to the segments.
-/

namespace Hpux

namespace Rmap

open List

/-- `struct mapent`. -/
structure Mapent where
  /-- `m_size`. -/
  mSize : ℕ
  /-- `m_addr`. -/
  mAddr : ℕ
  deriving DecidableEq, Repr

/-- How a routine can go wrong. -/
inductive Fault
  /-- An access at or beyond `m_limit`. -/
  | limit
  /-- `panic`. -/
  | panic (msg : String)
  deriving DecidableEq, Repr

/-- `unsigned long` sums. -/
def u32 (x : ℕ) : ℕ := x % 2 ^ 32

/-- `unsigned long` differences. -/
def sub32 (x y : ℕ) : ℕ := (x + 2 ^ 32 - y) % 2 ^ 32

/-- `rminit`, on the slots as they were. -/
def rminit (size addr : ℕ) : List Mapent → Except Fault (List Mapent)
  | _ :: _ :: rest =>
    if ¬(size = 0 ↔ addr = 0) then .error (.panic "rminit: size and addr inconsistent")
    else .ok (⟨size, addr⟩ :: ⟨0, 0⟩ :: rest)
  | _ => .error .limit

/-- `do { bp++; *(bp-1) = *bp; } while ((bp-1)->m_size)` from the slot `bp`; also the last slot that
was moved, which is at `bp-1` then. -/
def shiftDown : List Mapent → Except Fault (List Mapent × Mapent)
  | _ :: y :: rest =>
    if y.mSize = 0 then .ok (y :: y :: rest, y)
    else (shiftDown (y :: rest)).map fun x => (y :: x.1, x.2)
  | _ => .error .limit

/-- `rmalloc`. -/
def rmalloc (size : ℕ) : List Mapent → Except Fault (ℕ × List Mapent)
  | [] => .error .limit
  | bp :: rest =>
    if bp.mSize = 0 then .ok (0, bp :: rest)
    else if bp.mSize ≥ size then
      let bp' : Mapent := ⟨bp.mSize - size, u32 (bp.mAddr + size)⟩
      if bp'.mSize = 0 then (shiftDown (bp' :: rest)).map fun x => (bp.mAddr, x.1)
      else .ok (bp.mAddr, bp' :: rest)
    else (rmalloc size rest).map fun x => (x.1, bp :: x.2)

/-- The loop of `rmfree` that makes a new entry: the slots up to the old delimiter, which now holds
an entry, and the slots behind it. -/
def shiftUp (size addr : ℕ) : List Mapent → Except Fault (List Mapent × List Mapent)
  | [] => .error .limit
  | bp :: rest =>
    if bp.mSize = 0 then .ok ([⟨size, addr⟩], rest)
    else (shiftUp bp.mSize bp.mAddr rest).map fun x => (⟨size, addr⟩ :: x.1, x.2)

/-- The end of `rmfree` : put the delimiter behind the entries, or discard the second to last entry
to make room for it. -/
def addDelimiter (ents : List Mapent) : List Mapent → Except Fault (List Mapent)
  | _ :: rest => .ok (ents ++ ⟨0, 0⟩ :: rest)
  | [] =>
    match ents.reverse with
    | last :: _ :: front => .ok (front.reverse ++ [last, ⟨0, 0⟩])
    | _ => .error .limit

/-- `rmfree` when the piece `p` on the left, the last of `pre`, ends at or behind `addr`. -/
def rmfreeLeft (size addr : ℕ) (pre : List Mapent) (p bp : Mapent) (rest : List Mapent) :
    Except Fault (ℕ × List Mapent) :=
  if u32 (p.mAddr + p.mSize) > addr then .error (.panic "rmfree: overlap")
  else
    let p' : Mapent := ⟨u32 (p.mSize + size), p.mAddr⟩
    if bp.mAddr ≠ 0 ∧ u32 (addr + size) ≥ bp.mAddr then
      if u32 (addr + size) > bp.mAddr then .error (.panic "rmfree: abut to right")
      else
        let p'' : Mapent := ⟨u32 (p'.mSize + bp.mSize), p.mAddr⟩
        if bp.mSize = 0 then .ok (p''.mSize, pre.dropLast ++ p'' :: bp :: rest)
        -- the length is read from the slot before the final `bp`
        else (shiftDown (bp :: rest)).map fun x => (x.2.mSize, pre.dropLast ++ p'' :: x.1)
    else .ok (p'.mSize, pre.dropLast ++ p' :: bp :: rest)

/-- `rmfree` when there is no piece that ends at `addr`. -/
def rmfreeRight (size addr : ℕ) (pre : List Mapent) (bp : Mapent) (rest : List Mapent) :
    Except Fault (ℕ × List Mapent) :=
  if u32 (addr + size) ≥ bp.mAddr ∧ bp.mSize ≠ 0 then
    if u32 (addr + size) > bp.mAddr then .error (.panic "rmfree: abut to left")
    else
      .ok (u32 (bp.mSize + size), pre ++ ⟨u32 (bp.mSize + size), sub32 bp.mAddr size⟩ :: rest)
  else
    match shiftUp size addr (bp :: rest) with
    | .error e => .error e
    | .ok (front, rest') => (addDelimiter (pre ++ front) rest').map fun l => (size, l)

/-- The slots that the search loop of `rmfree` passes. -/
def Mapent.isBefore (addr : ℕ) (bp : Mapent) : Bool := bp.mAddr ≤ addr ∧ bp.mSize ≠ 0

/-- `rmfree`: the length of the segment and the new slots. -/
def rmfree (size addr : ℕ) (slots : List Mapent) : Except Fault (ℕ × List Mapent) :=
  let pre := slots.takeWhile (Mapent.isBefore addr)
  match slots.dropWhile (Mapent.isBefore addr) with
  | [] => .error .limit
  | bp :: rest =>
    match pre.getLast? with
    | some p =>
      if u32 (p.mAddr + p.mSize) ≥ addr then rmfreeLeft size addr pre p bp rest
      else rmfreeRight size addr pre bp rest
    | none => rmfreeRight size addr pre bp rest

/-- The inner search loop of `do_rmget`, for an allocation that is not exact. -/
def rmgetAbove (size : ℕ) : List Mapent → Except Fault (Option (List Mapent × Mapent × List Mapent × ℕ))
  | [] => .error .limit
  | bp :: rest =>
    if bp.mSize = 0 then .ok none
    else if bp.mSize ≥ size then .ok (some ([], bp, rest, bp.mAddr))
    else (rmgetAbove size rest).map (Option.map fun x => (bp :: x.1, x.2))

/-- The search loop of `do_rmget` : the slots before, at and behind `bp`, and `addr`. -/
def rmgetScan (size addr : ℕ) (exact : Bool) :
    List Mapent → Except Fault (Option (List Mapent × Mapent × List Mapent × ℕ))
  | [] => .error .limit
  | bp :: rest =>
    if bp.mSize = 0 then .ok none
    else if bp.mAddr ≤ addr ∧ u32 (bp.mAddr + bp.mSize) > addr then .ok (some ([], bp, rest, addr))
    else if bp.mAddr > addr then if exact then .ok none else rmgetAbove size (bp :: rest)
    else (rmgetScan size addr exact rest).map (Option.map fun x => (bp :: x.1, x.2))

/-- `do_rmget`. -/
def doRmget (size addr : ℕ) (exact : Bool) (slots : List Mapent) : Except Fault (ℕ × List Mapent) :=
  match rmgetScan size addr exact slots with
  | .error e => .error e
  | .ok none => .ok (0, slots)
  | .ok (some (pre, bp, rest, addr)) =>
    let bpEnd := u32 (bp.mAddr + bp.mSize)
    let wantEnd := u32 (addr + size)
    if bpEnd < wantEnd then .ok (0, slots)
    else if bp.mAddr = addr then
      if bpEnd = wantEnd then (shiftDown (bp :: rest)).map fun x => (addr, pre ++ x.1)
      else .ok (addr, pre ++ ⟨sub32 bp.mSize size, u32 (bp.mAddr + size)⟩ :: rest)
    else if bpEnd = wantEnd then .ok (addr, pre ++ ⟨sub32 bp.mSize size, bp.mAddr⟩ :: rest)
    else
      match rest.dropWhile fun e => e.mSize ≠ 0 with
      | [] => .error .limit
      -- `bp2+1 >= mp->m_limit`
      | [_] => .ok (0, slots)
      | delim :: _ :: rest' =>
        .ok (addr, pre ++ ⟨sub32 addr bp.mAddr, bp.mAddr⟩ :: ⟨sub32 bpEnd wantEnd, wantEnd⟩ ::
          rest.takeWhile (fun e => e.mSize ≠ 0) ++ delim :: rest')

/-- `rmget`. -/
def rmget (size addr : ℕ) (slots : List Mapent) : Except Fault (ℕ × List Mapent) :=
  doRmget size addr true slots

theorem u32_eq {x : ℕ} (h : x < 2 ^ 32) : u32 x = x := Nat.mod_eq_of_lt h

theorem sub32_eq {x y : ℕ} (hx : x < 2 ^ 32) (h : y ≤ x) : sub32 x y = x - y := by
  unfold sub32
  omega

/-! ### The invariant -/

/-- Entries as ranges. -/
def spans : Spans Mapent ℕ Unit := ⟨Mapent.mAddr, fun e => e.mAddr + e.mSize, fun _ => ()⟩

/-- The free units. -/
def units (l : List Mapent) : Set ℕ := spans.cover l

variable {l : List Mapent}

theorem mem_units {x : ℕ} : x ∈ units l ↔ ∃ e ∈ l, e.mAddr ≤ x ∧ x < e.mAddr + e.mSize := Iff.rfl

variable {e : Mapent}

theorem mem_units_cons {x : ℕ} :
    x ∈ units (e :: l) ↔ (e.mAddr ≤ x ∧ x < e.mAddr + e.mSize) ∨ x ∈ units l :=
  Spans.mem_cover_cons

theorem mem_units_append {l₁ l₂ : List Mapent} {x : ℕ} :
    x ∈ units (l₁ ++ l₂) ↔ x ∈ units l₁ ∨ x ∈ units l₂ :=
  Spans.mem_cover_append

@[simp] theorem mem_units_nil (x : ℕ) : ¬x ∈ units [] := by simp [mem_units]

/-- A segment is not empty, does not start at 0, and is in the address space. -/
structure Mapent.Ok (e : Mapent) : Prop where
  size_pos : 0 < e.mSize
  addr_pos : 0 < e.mAddr
  le : e.mAddr + e.mSize ≤ 2 ^ 32

/-- The segments increase, and no two are adjacent or overlap. -/
def SegsOk (l : List Mapent) : Prop :=
  l.Pairwise (fun e f => e.mAddr + e.mSize < f.mAddr) ∧ ∀ e ∈ l, e.Ok

theorem segsOk_append {l₁ l₂ : List Mapent} : SegsOk (l₁ ++ l₂) ↔ SegsOk l₁ ∧ SegsOk l₂ ∧
    ∀ e ∈ l₁, ∀ f ∈ l₂, e.mAddr + e.mSize < f.mAddr := by
  simp only [SegsOk, pairwise_append, mem_append]
  constructor
  · rintro ⟨⟨h1, h2, h3⟩, h4⟩
    exact ⟨⟨h1, fun e he => h4 e (.inl he)⟩, ⟨h2, fun e he => h4 e (.inr he)⟩, h3⟩
  · rintro ⟨⟨h1, h4⟩, ⟨h2, h5⟩, h3⟩
    exact ⟨⟨h1, h2, h3⟩, fun e he => he.elim (h4 e) (h5 e)⟩

theorem segsOk_cons : SegsOk (e :: l) ↔ e.Ok ∧ SegsOk l ∧ ∀ f ∈ l, e.mAddr + e.mSize < f.mAddr := by
  simp only [SegsOk, pairwise_cons, mem_cons, forall_eq_or_imp]
  constructor
  · rintro ⟨⟨h1, h2⟩, h3, h4⟩
    exact ⟨h3, ⟨h2, h4⟩, h1⟩
  · rintro ⟨h3, ⟨h2, h4⟩, h1⟩
    exact ⟨⟨h1, h2⟩, h3, h4⟩

@[simp] theorem segsOk_nil : SegsOk [] := ⟨.nil, by simp⟩

theorem SegsOk.sublist {l l' : List Mapent} (h : SegsOk l) (hs : l'.Sublist l) : SegsOk l' :=
  ⟨h.1.sublist hs, fun e he => h.2 e (hs.subset he)⟩

theorem SegsOk.size_ne (h : SegsOk l) : ∀ e ∈ l, e.mSize ≠ 0 :=
  fun e he => Nat.pos_iff_ne_zero.1 (h.2 e he).size_pos

/-- The delimiter. -/
def delim : Mapent := ⟨0, 0⟩

/-- The segments in the slots. -/
def segs (slots : List Mapent) : List Mapent := slots.takeWhile fun e => e.mSize ≠ 0

/-- The array below `m_limit` : segments, the delimiter, and unused slots. -/
structure MapOk (limit : ℕ) (slots : List Mapent) : Prop where
  length : slots.length = limit
  shape : ∃ rest, slots = segs slots ++ delim :: rest
  ok : SegsOk (segs slots)

theorem segs_append (h : ∀ e ∈ l, e.mSize ≠ 0) (rest : List Mapent) :
    segs (l ++ delim :: rest) = l := by
  unfold segs
  rw [takeWhile_append_of_pos (by simpa using h)]
  simp [delim]

theorem mapOk_iff {limit : ℕ} {slots : List Mapent} : MapOk limit slots ↔
    ∃ l rest, slots = l ++ delim :: rest ∧ SegsOk l ∧ l.length + 1 + rest.length = limit := by
  constructor
  · rintro ⟨hlen, ⟨rest, hs⟩, hok⟩
    refine ⟨_, rest, hs, hok, ?_⟩
    rw [← hlen]
    conv_rhs => rw [hs]
    simp only [length_append, length_cons]
    omega
  · rintro ⟨l, rest, rfl, hok, hlen⟩
    have hsegs := segs_append hok.size_ne rest
    refine ⟨?_, ⟨rest, by rw [hsegs]⟩, by rwa [hsegs]⟩
    simp only [length_append, length_cons]
    omega

/-! ### Shifting the slots -/

theorem shiftDown_segs (h : ∀ e ∈ l, e.mSize ≠ 0) (bp : Mapent) (rest : List Mapent) :
    shiftDown (bp :: (l ++ delim :: rest)) = .ok (l ++ delim :: delim :: rest, delim) := by
  induction l generalizing bp with
  | nil => rfl
  | cons e l ih =>
    rw [cons_append, shiftDown, if_neg (h e (by simp)), ih fun f hf => h f (by simp [hf])]
    rfl

theorem shiftUp_segs (h : ∀ e ∈ l, e.mSize ≠ 0) (size addr : ℕ) (rest : List Mapent) :
    shiftUp size addr (l ++ delim :: rest) = .ok (⟨size, addr⟩ :: l, rest) := by
  induction l generalizing size addr with
  | nil => rfl
  | cons e l ih =>
    rw [cons_append, shiftUp, if_neg (h e (by simp)), ih fun f hf => h f (by simp [hf])]
    rfl

/-- Behind the entries there is room for the delimiter, or the second to last entry is lost. -/
theorem addDelimiter_cases (front rest : List Mapent) (hf : 2 ≤ front.length + rest.length) :
    (∃ d rest', rest = d :: rest' ∧ addDelimiter front rest = .ok (front ++ delim :: rest')) ∨
    ∃ A e b, rest = [] ∧ front = A ++ [e, b] ∧ addDelimiter front rest = .ok (A ++ [b, delim]) := by
  cases rest with
  | cons d rest' => exact .inl ⟨d, rest', rfl, rfl⟩
  | nil =>
    rcases hr : front.reverse with _ | ⟨b, _ | ⟨e, A⟩⟩
    · simp_all
    · have := congrArg List.length hr
      simp only [length_reverse, length_singleton, length_nil] at this hf
      omega
    · refine .inr ⟨A.reverse, e, b, rfl, ?_, ?_⟩
      · have := congrArg List.reverse hr
        simpa using this
      · simp only [addDelimiter, hr]
        rfl

/-! ### Editing the segments -/

/-- The units from `addr` on. -/
abbrev range (size addr : ℕ) : Set ℕ := Set.Ico addr (addr + size)

/-- Replacing a segment by pieces of it. -/
theorem SegsOk.shrink {pre post mid : List Mapent} {e : Mapent} (h : SegsOk (pre ++ e :: post))
    (hmid : SegsOk mid) (hin : ∀ f ∈ mid, e.mAddr ≤ f.mAddr ∧ f.mAddr + f.mSize ≤ e.mAddr + e.mSize) :
    SegsOk (pre ++ (mid ++ post)) := by
  obtain ⟨hpre, hpost, hlt⟩ := segsOk_append.1 h
  obtain ⟨-, hpost, hlt'⟩ := segsOk_cons.1 hpost
  refine segsOk_append.2 ⟨hpre, segsOk_append.2 ⟨hmid, hpost, fun f hf g hg => ?_⟩,
    fun f hf g hg => ?_⟩
  · exact lt_of_le_of_lt (hin f hf).2 (hlt' g hg)
  · obtain hg | hg := mem_append.1 hg
    · exact lt_of_lt_of_le (hlt f hf e (by simp)) (hin g hg).1
    · exact hlt f hf g (by simp [hg])

/-- A unit is in one segment only. -/
theorem SegsOk.units_split {pre post : List Mapent} {e : Mapent} (h : SegsOk (pre ++ e :: post))
    {x : ℕ} (hx : e.mAddr ≤ x ∧ x < e.mAddr + e.mSize) : x ∉ units pre ∧ x ∉ units post := by
  obtain ⟨-, hpost, hlt⟩ := segsOk_append.1 h
  obtain ⟨-, -, hlt'⟩ := segsOk_cons.1 hpost
  constructor
  · rintro ⟨f, hf, hx'⟩
    have := hlt f hf e (by simp)
    have : x < f.mAddr + f.mSize := hx'.2
    omega
  · rintro ⟨f, hf, hx'⟩
    have := hlt' f hf
    have : f.mAddr ≤ x := hx'.1
    omega

variable {size addr : ℕ}

/-- Taking a range out of a segment takes it out of the free units. -/
theorem SegsOk.units_shrink {pre post mid : List Mapent}
    (h : SegsOk (pre ++ e :: post)) (hlo : e.mAddr ≤ addr) (hhi : addr + size ≤ e.mAddr + e.mSize)
    (hmid : ∀ x, x ∈ units mid ↔ (e.mAddr ≤ x ∧ x < addr) ∨ (addr + size ≤ x ∧ x < e.mAddr + e.mSize)) :
    units (pre ++ (mid ++ post)) = units (pre ++ e :: post) \ range size addr := by
  ext x
  have hone := @SegsOk.units_split _ _ _ h x
  simp only [Set.mem_sdiff, mem_units_append, mem_units_cons, hmid, Set.mem_Ico]
  by_cases hx : e.mAddr ≤ x ∧ x < e.mAddr + e.mSize
  · have := hone hx
    constructor
    · rintro (h1 | h1 | h1)
      · exact absurd h1 this.1
      · exact ⟨.inr (.inl hx), by omega⟩
      · exact absurd h1 this.2
    · rintro ⟨-, hr⟩
      exact .inr (.inl (by omega))
  · have hr : ¬(addr ≤ x ∧ x < addr + size) := by omega
    have hm : ¬((e.mAddr ≤ x ∧ x < addr) ∨ (addr + size ≤ x ∧ x < e.mAddr + e.mSize)) := by omega
    simp [hx, hr, hm]

theorem segsOk_pair {e f : Mapent} : SegsOk [e, f] ↔ e.Ok ∧ f.Ok ∧ e.mAddr + e.mSize < f.mAddr := by
  simp [segsOk_cons]

theorem segsOk_singleton : SegsOk [e] ↔ e.Ok := by simp [segsOk_cons]

theorem SegsOk.put {pre post : List Mapent} (hpre : SegsOk pre) (hpost : SegsOk post)
    (he : e.Ok) (hlt : ∀ f ∈ pre, f.mAddr + f.mSize < e.mAddr)
    (hgt : ∀ f ∈ post, e.mAddr + e.mSize < f.mAddr) : SegsOk (pre ++ e :: post) := by
  refine segsOk_append.2 ⟨hpre, segsOk_cons.2 ⟨he, hpost, hgt⟩, fun f hf g hg => ?_⟩
  obtain rfl | hg := mem_cons.1 hg
  · exact hlt f hf
  · exact (hlt f hf).trans (lt_of_le_of_lt (Nat.le_add_right _ _) (hgt g hg))

/-! ### Taking a range out of a segment -/

/-- What is left of a segment beside a range in it. -/
def Mapent.around (e : Mapent) (size addr : ℕ) : List Mapent :=
  (if e.mAddr < addr then [⟨addr - e.mAddr, e.mAddr⟩] else []) ++
    if addr + size < e.mAddr + e.mSize then
      [⟨e.mAddr + e.mSize - (addr + size), addr + size⟩]
    else []

section Take

variable {e : Mapent} {size addr : ℕ}

theorem Mapent.mem_around {f : Mapent} : f ∈ e.around size addr ↔
    (e.mAddr < addr ∧ f = ⟨addr - e.mAddr, e.mAddr⟩) ∨
    (addr + size < e.mAddr + e.mSize ∧ f = ⟨e.mAddr + e.mSize - (addr + size), addr + size⟩) := by
  unfold Mapent.around
  split_ifs <;> simp_all

theorem Mapent.Ok.around (h : e.Ok) (hlo : e.mAddr ≤ addr) (hhi : addr + size ≤ e.mAddr + e.mSize)
    (hs : 0 < size ∨ e.mAddr = addr) : SegsOk (e.around size addr) := by
  have hpos := h.addr_pos
  have hle := h.le
  have hleft : e.mAddr < addr → Mapent.Ok ⟨addr - e.mAddr, e.mAddr⟩ :=
    fun hlt => ⟨Nat.sub_pos_of_lt hlt, hpos, by simp only; omega⟩
  have hright : addr + size < e.mAddr + e.mSize →
      Mapent.Ok ⟨e.mAddr + e.mSize - (addr + size), addr + size⟩ :=
    fun hlt => ⟨Nat.sub_pos_of_lt hlt, by simp only; omega, by simp only; omega⟩
  unfold Mapent.around
  split_ifs with h1 h2 h2
  · exact segsOk_pair.2 ⟨hleft h1, hright h2, by simp only; omega⟩
  · exact segsOk_singleton.2 (hleft h1)
  · exact segsOk_singleton.2 (hright h2)
  · exact segsOk_nil

theorem Mapent.around_in {f : Mapent} (hlo : e.mAddr ≤ addr)
    (hhi : addr + size ≤ e.mAddr + e.mSize) (hf : f ∈ e.around size addr) :
    e.mAddr ≤ f.mAddr ∧ f.mAddr + f.mSize ≤ e.mAddr + e.mSize := by
  obtain ⟨h, rfl⟩ | ⟨h, rfl⟩ := Mapent.mem_around.1 hf
  · simp only
    omega
  · simp only
    omega

theorem Mapent.mem_units_around {x : ℕ} (hlo : e.mAddr ≤ addr) : x ∈ units (e.around size addr) ↔
    (e.mAddr ≤ x ∧ x < addr) ∨ (addr + size ≤ x ∧ x < e.mAddr + e.mSize) := by
  unfold Mapent.around
  simp only [mem_units_append]
  split_ifs <;> simp only [mem_units_cons, mem_units_nil, or_false, false_or, false_iff] <;> omega

/-- Taking a range out of a segment keeps the invariant and removes the range. -/
theorem mapOk_take {pre post rest : List Mapent} {limit : ℕ} (h : SegsOk (pre ++ e :: post))
    (hlo : e.mAddr ≤ addr) (hhi : addr + size ≤ e.mAddr + e.mSize) (hs : 0 < size ∨ e.mAddr = addr)
    (hlen : pre.length + (e.around size addr).length + post.length + 1 + rest.length = limit) :
    let m := pre ++ (e.around size addr ++ (post ++ delim :: rest))
    MapOk limit m ∧ units (segs m) = units (pre ++ e :: post) \ range size addr := by
  have he : e.Ok := h.2 e (by simp)
  have hin := fun f hf => @Mapent.around_in e size addr f hlo hhi hf
  have hok := h.shrink (he.around hlo hhi hs) hin
  have hm : pre ++ (e.around size addr ++ (post ++ delim :: rest)) =
      (pre ++ (e.around size addr ++ post)) ++ delim :: rest := by simp
  constructor
  · refine mapOk_iff.2 ⟨_, rest, hm, hok, ?_⟩
    simp only [length_append]
    omega
  · rw [hm, segs_append hok.size_ne]
    exact h.units_shrink hlo hhi fun x => Mapent.mem_units_around hlo

end Take

/-! ### rmalloc -/

theorem Mapent.around_all (e : Mapent) : e.around e.mSize e.mAddr = [] := by
  simp [Mapent.around]

theorem Mapent.around_first {size : ℕ} (hs : size < e.mSize) :
    e.around size e.mAddr = [⟨e.mSize - size, e.mAddr + size⟩] := by
  simp [Mapent.around, hs, Nat.add_sub_add_left]

/-- `rmalloc` finds no segment, or takes the front of the first one that is large enough. -/
theorem rmalloc_cases (hok : SegsOk l) (size : ℕ) (rest : List Mapent) : ((∀ e ∈ l, e.mSize < size) ∧
      rmalloc size (l ++ delim :: rest) = .ok (0, l ++ delim :: rest)) ∨
    ∃ pre e post rest', l = pre ++ e :: post ∧ (∀ f ∈ pre, f.mSize < size) ∧ size ≤ e.mSize ∧
      (e.around size e.mAddr).length + rest'.length = 1 + rest.length ∧
      rmalloc size (l ++ delim :: rest) =
        .ok (e.mAddr, pre ++ (e.around size e.mAddr ++ (post ++ delim :: rest'))) := by
  induction l with
  | nil => exact .inl ⟨by simp, rfl⟩
  | cons bp l ih =>
    obtain ⟨hbp, hl, -⟩ := segsOk_cons.1 hok
    have hne : bp.mSize ≠ 0 := Nat.pos_iff_ne_zero.1 hbp.size_pos
    rw [cons_append, rmalloc, if_neg hne]
    by_cases hfit : size ≤ bp.mSize
    · rw [if_pos hfit]
      right
      by_cases hall : bp.mSize = size
      · subst hall
        refine ⟨[], bp, l, delim :: rest, rfl, by simp, le_refl _, ?_, ?_⟩
        · simp [Mapent.around_all bp, Nat.add_comm]
        · simp only [Nat.sub_self, if_true, shiftDown_segs hl.size_ne,
            Mapent.around_all bp]
          rfl
      · have hlt : size < bp.mSize := by omega
        have hle := hbp.le
        have hu : u32 (bp.mAddr + size) = bp.mAddr + size := u32_eq (by omega)
        refine ⟨[], bp, l, rest, rfl, by simp, hfit, ?_, ?_⟩
        · simp [Mapent.around_first hlt]
        · rw [Mapent.around_first hlt, hu, if_neg (show ¬(bp.mSize - size = 0) by omega)]
          rfl
    · rw [if_neg hfit]
      obtain ⟨hall, he⟩ | ⟨pre, e, post, rest', rfl, hpre, hle, hlen, he⟩ := ih hl
      · refine .inl ⟨?_, by rw [he]; rfl⟩
        intro f hf
        obtain rfl | hf := mem_cons.1 hf
        · omega
        · exact hall f hf
      · refine .inr ⟨bp :: pre, e, post, rest', rfl, ?_, hle, hlen, by rw [he]; rfl⟩
        intro f hf
        obtain rfl | hf := mem_cons.1 hf
        · omega
        · exact hpre f hf

/-! ### rmget -/

/-- The test of the search loop of `do_rmget`. -/
def Mapent.Has (addr : ℕ) (e : Mapent) : Prop :=
  e.mAddr ≤ addr ∧ addr < u32 (e.mAddr + e.mSize)

theorem rmgetScan_cases (hok : SegsOk l) (size addr : ℕ) (rest : List Mapent) :
    ((∀ e ∈ l, ¬e.Has addr) ∧ rmgetScan size addr true (l ++ delim :: rest) = .ok none) ∨
    ∃ pre e post, l = pre ++ e :: post ∧ e.Has addr ∧ rmgetScan size addr true (l ++ delim :: rest) =
        .ok (some (pre, e, post ++ delim :: rest, addr)) := by
  induction l with
  | nil => exact .inl ⟨by simp, rfl⟩
  | cons bp l ih =>
    obtain ⟨hbp, hl, hlt⟩ := segsOk_cons.1 hok
    have hne : bp.mSize ≠ 0 := Nat.pos_iff_ne_zero.1 hbp.size_pos
    rw [cons_append, rmgetScan, if_neg hne]
    by_cases hhas : bp.mAddr ≤ addr ∧ u32 (bp.mAddr + bp.mSize) > addr
    · rw [if_pos hhas]
      exact .inr ⟨[], bp, l, rfl, hhas, rfl⟩
    rw [if_neg hhas]
    by_cases habove : bp.mAddr > addr
    · rw [if_pos habove, if_pos rfl]
      refine .inl ⟨fun f hf => ?_, rfl⟩
      obtain rfl | hf := mem_cons.1 hf
      · exact hhas
      · have := hlt f hf
        exact fun h => absurd h.1 (by omega)
    · rw [if_neg habove]
      obtain ⟨hall, he⟩ | ⟨pre, e, post, rfl, he', he⟩ := ih hl
      · refine .inl ⟨fun f hf => ?_, by rw [he]; rfl⟩
        obtain rfl | hf := mem_cons.1 hf
        · exact hhas
        · exact hall f hf
      · exact .inr ⟨bp :: pre, e, post, rfl, he', by rw [he]; rfl⟩

theorem Mapent.Has.lt {addr : ℕ} (h : e.Has addr) (he : e.Ok) :
    e.mAddr + e.mSize < 2 ^ 32 ∧ addr < e.mAddr + e.mSize := by
  have hle := he.le
  have hlt : e.mAddr + e.mSize < 2 ^ 32 := by
    by_contra hge
    have : e.mAddr + e.mSize = 2 ^ 32 := by omega
    exact absurd h.2 (by simp [this, u32])
  refine ⟨hlt, ?_⟩
  have := h.2
  rwa [u32_eq hlt] at this

theorem takeWhile_segs (h : ∀ e ∈ l, e.mSize ≠ 0) (rest : List Mapent) :
    (l ++ delim :: rest).takeWhile (fun e => e.mSize ≠ 0) = l := segs_append h rest

theorem dropWhile_segs (h : ∀ e ∈ l, e.mSize ≠ 0) (rest : List Mapent) :
    (l ++ delim :: rest).dropWhile (fun e => e.mSize ≠ 0) = delim :: rest := by
  rw [dropWhile_append_of_pos (by simpa using h)]
  simp [delim]

/-- `do_rmget` once it has found a segment with the address: it refuses a range that does not fit or
a split without a free slot, and takes the range otherwise.  The condition leaves out the ranges
that end at or beyond `2 ^ 32` and the empty ones in the middle of a segment. -/
theorem rmget_cases {pre post rest : List Mapent}
    (hok : SegsOk (pre ++ e :: post)) (hhas : e.Has addr) (hsize : size < 2 ^ 32)
    (hcare : (addr + size < 2 ^ 32 ∧ (0 < size ∨ e.mAddr = addr)) ∨ e.mAddr < addr ∧ rest = [])
    (hscan : rmgetScan size addr true (pre ++ e :: post ++ delim :: rest) =
      .ok (some (pre, e, post ++ delim :: rest, addr))) :
    let slots := pre ++ e :: post ++ delim :: rest
    let noSlot := e.mAddr < addr ∧ addr + size < e.mAddr + e.mSize ∧ rest = []
    (¬addr + size ≤ e.mAddr + e.mSize ∨ noSlot) ∧ rmget size addr slots = .ok (0, slots) ∨
    addr + size ≤ e.mAddr + e.mSize ∧ ¬noSlot ∧ (0 < size ∨ e.mAddr = addr) ∧
      ∃ rest', (e.around size addr).length + rest'.length = 1 + rest.length ∧
        rmget size addr slots =
          .ok (addr, pre ++ (e.around size addr ++ (post ++ delim :: rest'))) := by
  have he : e.Ok := hok.2 e (by simp)
  have hpos := he.size_pos
  have hpost : SegsOk post := (segsOk_cons.1 (segsOk_append.1 hok).2.1).2.1
  obtain ⟨hend, haddr⟩ := hhas.lt he
  have hle : e.mAddr ≤ addr := hhas.1
  have hbp : u32 (e.mAddr + e.mSize) = e.mAddr + e.mSize := u32_eq hend
  simp only [rmget, doRmget, hscan, hbp]
  by_cases hwrap : addr + size < 2 ^ 32
  · have hwant : u32 (addr + size) = addr + size := u32_eq hwrap
    simp only [hwant]
    by_cases hfit : e.mAddr + e.mSize < addr + size
    · rw [if_pos hfit]
      exact .inl ⟨.inl (by omega), rfl⟩
    rw [if_neg hfit]
    have hsub : sub32 e.mSize size = e.mSize - size := sub32_eq (by omega) (by omega)
    by_cases hfirst : e.mAddr = addr
    · subst hfirst
      right
      refine ⟨by omega, by omega, .inr rfl, ?_⟩
      rw [if_pos rfl]
      by_cases hall : e.mAddr + e.mSize = e.mAddr + size
      · obtain rfl : e.mSize = size := by omega
        refine ⟨delim :: rest, ?_, ?_⟩
        · simp [Mapent.around_all e, Nat.add_comm]
        · rw [if_pos rfl, shiftDown_segs hpost.size_ne, Mapent.around_all e]
          rfl
      · have hlt : size < e.mSize := by omega
        refine ⟨rest, ?_, ?_⟩
        · simp [Mapent.around_first hlt]
        · rw [if_neg hall, hsub, hwant, Mapent.around_first hlt]
          rfl
    · rw [if_neg hfirst]
      have hlt : e.mAddr < addr := by omega
      by_cases hlast : e.mAddr + e.mSize = addr + size
      · right
        have haround : e.around size addr = [⟨addr - e.mAddr, e.mAddr⟩] := by
          simp [Mapent.around, hlt, hlast]
        refine ⟨by omega, by omega, .inl (by omega), rest, by simp [haround], ?_⟩
        rw [if_pos hlast, haround, hsub, show e.mSize - size = addr - e.mAddr by omega]
        rfl
      · have hmid : addr + size < e.mAddr + e.mSize := by omega
        rw [if_neg hlast, dropWhile_segs hpost.size_ne]
        cases rest with
        | nil => exact .inl ⟨.inr ⟨hlt, hmid, rfl⟩, rfl⟩
        | cons d rest =>
          right
          have haround : e.around size addr = [⟨addr - e.mAddr, e.mAddr⟩,
              ⟨e.mAddr + e.mSize - (addr + size), addr + size⟩] := by
            simp [Mapent.around, hlt, hmid]
          refine ⟨by omega, by simp, by simp at hcare; omega, rest, by simp [haround]; omega, ?_⟩
          simp only [takeWhile_segs hpost.size_ne, haround]
          rw [sub32_eq (by omega) hle, sub32_eq hend hmid.le]
          simp
  · -- `addr + size` wraps to an end below the segment
    obtain ⟨hlt, rfl⟩ := hcare.resolve_left fun h => hwrap h.1
    have hwant : u32 (addr + size) < addr := by
      unfold u32
      omega
    left
    refine ⟨.inl (by omega), ?_⟩
    rw [if_neg (by omega), if_neg (by omega), if_neg (by omega), dropWhile_segs hpost.size_ne]

/-! ### rmfree -/

/-- The segments before and behind the place of a free range. -/
structure Gap (size addr : ℕ) (pre post : List Mapent) : Prop where
  before : ∀ f ∈ pre, f.mAddr + f.mSize ≤ addr
  behind : ∀ f ∈ post, addr + size ≤ f.mAddr

/-- The search loop of `rmfree` stops at the gap that contains the range. -/
theorem exists_gap (hok : SegsOk l) (hsize : 0 < size)
    (hfree : ∀ x ∈ range size addr, x ∉ units l) (rest : List Mapent) :
    ∃ pre post, l = pre ++ post ∧ Gap size addr pre post ∧
      (l ++ delim :: rest).takeWhile (Mapent.isBefore addr) = pre ∧
      (l ++ delim :: rest).dropWhile (Mapent.isBefore addr) = post ++ delim :: rest := by
  induction l with
  | nil => exact ⟨[], [], rfl, ⟨by simp, by simp⟩, by simp [Mapent.isBefore, delim],
      by simp [Mapent.isBefore, delim]⟩
  | cons e l ih =>
    obtain ⟨he, hl, hlt⟩ := segsOk_cons.1 hok
    have hne : e.mSize ≠ 0 := Nat.pos_iff_ne_zero.1 he.size_pos
    have hout : ∀ x, addr ≤ x → x < addr + size → ¬(e.mAddr ≤ x ∧ x < e.mAddr + e.mSize) :=
      fun x h1 h2 h3 => hfree x ⟨h1, h2⟩ (mem_units_cons.2 (.inl h3))
    by_cases hbef : e.mAddr ≤ addr
    · obtain ⟨pre, post, rfl, hgap, htake, hdrop⟩ :=
        ih hl fun x hx h => hfree x hx (mem_units_cons.2 (.inr h))
      have hb : Mapent.isBefore addr e = true := by simp [Mapent.isBefore, hbef, hne]
      refine ⟨e :: pre, post, rfl, ⟨fun f hf => ?_, hgap.behind⟩, ?_, ?_⟩
      · obtain rfl | hf := mem_cons.1 hf
        · have := hout addr (le_refl _) (by omega)
          omega
        · exact hgap.before f hf
      · rw [cons_append, takeWhile_cons_of_pos hb, htake]
      · rw [cons_append, dropWhile_cons_of_pos hb, hdrop]
    · have hb : ¬Mapent.isBefore addr e = true := by simp [Mapent.isBefore, hbef]
      refine ⟨[], e :: l, rfl, ⟨by simp, fun f hf => ?_⟩, ?_, ?_⟩
      · have hle : addr + size ≤ e.mAddr := by
          have := hout e.mAddr (by omega)
          have := he.size_pos
          omega
        obtain rfl | hf := mem_cons.1 hf
        · exact hle
        · have := hlt f hf
          omega
      · simp [takeWhile_cons_of_neg hb]
      · simp [dropWhile_cons_of_neg hb]

/-- A segment of the map with the range added, and what the segments then cover. -/
structure Added (size addr : ℕ) (l : List Mapent) (A : List Mapent) (n : Mapent)
    (B : List Mapent) : Prop where
  ok : SegsOk (A ++ n :: B)
  lo : n.mAddr ≤ addr
  hi : addr + size ≤ n.mAddr + n.mSize
  units : units (A ++ n :: B) = Rmap.units l ∪ range size addr

section Free

variable {size addr : ℕ} {pre post : List Mapent}

/-- What `rmfree` makes of the segments: `pre'` and `post'` stay, and the rest and the range become
one segment. -/
theorem Added.of_gap {pre' mid mid' post' : List Mapent} {n : Mapent}
    (hok : SegsOk (pre' ++ mid ++ (mid' ++ post'))) (hn : n.Ok)
    (hlo : n.mAddr ≤ addr) (hhi : addr + size ≤ n.mAddr + n.mSize)
    (hpre : ∀ f ∈ pre', f.mAddr + f.mSize < n.mAddr) (hpost : ∀ f ∈ post', n.mAddr + n.mSize < f.mAddr)
    (hmid : ∀ x, n.mAddr ≤ x ∧ x < n.mAddr + n.mSize ↔
      x ∈ Rmap.units mid ∨ (addr ≤ x ∧ x < addr + size) ∨ x ∈ Rmap.units mid') :
    Added size addr (pre' ++ mid ++ (mid' ++ post')) pre' n post' := by
  obtain ⟨h1, h2, -⟩ := segsOk_append.1 hok
  refine ⟨.put (segsOk_append.1 h1).1 (segsOk_append.1 h2).2.1 hn hpre hpost, hlo, hhi, ?_⟩
  ext x
  simp only [mem_units_append, mem_units_cons, Set.mem_union, Set.mem_Ico, hmid]
  tauto

/-- The slots after a free: the segments with the new one and the delimiter, or without the second
to last segment when there is no slot for the delimiter. -/
def Stored (k : ℕ) (l rest : List Mapent) (m : List Mapent) : Prop :=
  (∃ rest', m = l ++ delim :: rest' ∧ l.length + 1 + rest'.length = k) ∨
    ∃ A e b, rest = [] ∧ l = A ++ [e, b] ∧ l.length = k ∧ m = A ++ [b, delim]

/-- A range that is not adjacent to the piece behind it ends before all of them. -/
theorem SegsOk.lt_of_gap (hpost : SegsOk post) (hbehind : ∀ f ∈ post, addr + size ≤ f.mAddr)
    (hadj : ¬∃ q post', post = q :: post' ∧ q.mAddr = addr + size) :
    ∀ f ∈ post, addr + size < f.mAddr := by
  intro f hf
  obtain ⟨q, post', rfl⟩ := exists_cons_of_ne_nil (ne_nil_of_mem hf)
  have hq : addr + size < q.mAddr :=
    lt_of_le_of_ne (hbehind q (by simp)) fun h => hadj ⟨q, post', rfl, h.symm⟩
  obtain rfl | hf := mem_cons.1 hf
  · exact hq
  · have := (segsOk_cons.1 hpost).2.2 f hf
    omega

theorem SegsOk.head_of_lt (hpost : SegsOk post) (hgt : ∀ f ∈ post, addr + size < f.mAddr)
    (rest : List Mapent) : ∃ bp rest₁, post ++ delim :: rest = bp :: rest₁ ∧
      (bp = delim ∨ u32 (addr + size) < bp.mAddr) := by
  cases post with
  | nil => exact ⟨delim, rest, rfl, .inl rfl⟩
  | cons q post =>
    have hq := hgt q (by simp)
    have hqle := (segsOk_cons.1 hpost).1.le
    exact ⟨q, _, rfl, .inr (by rwa [u32_eq (by omega)])⟩

/-- `rmfree`, the piece on the left ends at `addr`. -/
theorem rmfreeLeft_cases (rest : List Mapent) {p : Mapent} (hok : SegsOk (pre ++ [p] ++ post)) (hsize : 0 < size)
    (hhi : addr + size ≤ 2 ^ 32) (hgap : Gap size addr (pre ++ [p]) post)
    (hp : p.mAddr + p.mSize = addr) : ∃ bp rest₁ A n B v m, post ++ delim :: rest = bp :: rest₁ ∧
      rmfreeLeft size addr (pre ++ [p]) p bp rest₁ = .ok (v, m) ∧
      Added size addr (pre ++ [p] ++ post) A n B ∧
      Stored ((pre ++ [p] ++ post).length + 1 + rest.length) (A ++ n :: B) rest m ∧
      ((∀ q ∈ post, q.mAddr ≠ addr + size) → v = n.mSize) := by
  obtain ⟨hpre, hpost, -⟩ := segsOk_append.1 hok
  obtain ⟨-, hpok, hlt⟩ := segsOk_append.1 hpre
  have hpok : p.Ok := hpok.2 p (by simp)
  have hppos := hpok.addr_pos
  have hlt : ∀ f ∈ pre, f.mAddr + f.mSize < p.mAddr := fun f hf => hlt f hf p (by simp)
  have hend : u32 (p.mAddr + p.mSize) = addr := by rw [hp, u32_eq (by omega)]
  have hsum : u32 (p.mSize + size) = p.mSize + size := u32_eq (by omega)
  by_cases hadj : ∃ q post', post = q :: post' ∧ q.mAddr = addr + size
  · -- the range fills the gap, and the two pieces and it become one
    obtain ⟨q, post', rfl, hq⟩ := hadj
    obtain ⟨hqok, hpost', hlt'⟩ := segsOk_cons.1 hpost
    have hqle := hqok.le
    have hqpos := hqok.size_pos
    have hwant : u32 (addr + size) = q.mAddr := by rw [← hq, u32_eq (by omega)]
    let n : Mapent := ⟨p.mSize + size + q.mSize, p.mAddr⟩
    have hn : n.mAddr = p.mAddr ∧ n.mAddr + n.mSize = q.mAddr + q.mSize :=
      ⟨rfl, by simp only [n]; omega⟩
    have hadd : Added size addr (pre ++ [p] ++ ([q] ++ post')) pre n post' := by
      refine .of_gap hok ⟨by omega, hppos, by omega⟩ (by omega) (by omega) hlt ?_ ?_
      · intro f hf
        rw [hn.2]
        exact hlt' f hf
      · intro x
        simp only [mem_units_cons, mem_units_nil, or_false]
        omega
    refine ⟨q, post' ++ delim :: rest, pre, n, post', 0, pre ++ n :: post' ++ delim :: delim :: rest, rfl, ?_, hadd,
      .inl ⟨delim :: rest, rfl, ?_⟩, fun h => absurd hq (h q (by simp))⟩
    · have hn : u32 (p.mSize + size + q.mSize) = p.mSize + size + q.mSize := u32_eq (by omega)
      simp only [rmfreeLeft, hend, hsum, hwant, hn]
      rw [if_neg (by omega), if_pos ⟨by omega, le_refl _⟩, if_neg (by omega), if_neg (by omega),
        shiftDown_segs hpost'.size_ne]
      simp [Except.map, n, delim]
    · simp only [length_append, length_cons, length_nil]
      omega
  · let n : Mapent := ⟨p.mSize + size, p.mAddr⟩
    have hn : n.mAddr = p.mAddr ∧ n.mAddr + n.mSize = addr + size :=
      ⟨rfl, by simp only [n]; omega⟩
    have hgt := hpost.lt_of_gap hgap.behind hadj
    have hadd : Added size addr (pre ++ [p] ++ ([] ++ post)) pre n post := by
      refine .of_gap hok ⟨by omega, hppos, by omega⟩ (by omega) (by omega) hlt ?_ ?_
      · rwa [hn.2]
      · intro x
        simp only [mem_units_cons, mem_units_nil, or_false]
        omega
    obtain ⟨bp, rest₁, hbp, hhead⟩ := hpost.head_of_lt hgt rest
    have hno : ¬(bp.mAddr ≠ 0 ∧ u32 (addr + size) ≥ bp.mAddr) := by
      obtain rfl | hhead := hhead
      · simp [delim]
      · omega
    refine ⟨bp, rest₁, pre, n, post, p.mSize + size, pre ++ n :: post ++ delim :: rest, hbp, ?_,
      hadd, .inl ⟨rest, rfl, ?_⟩, fun _ => rfl⟩
    · simp only [rmfreeLeft, hend, hsum]
      rw [if_neg (by omega), if_neg hno, dropLast_concat]
      simp [n, ← hbp]
    · simp only [length_append, length_cons, length_nil]
      omega

/-- `rmfree`, no piece on the left ends at `addr`. -/
theorem rmfreeRight_cases (rest : List Mapent) (hok : SegsOk (pre ++ post)) (hsize : 0 < size) (haddr : 0 < addr)
    (hhi : addr + size ≤ 2 ^ 32) (hlim : 2 ≤ (pre ++ post).length + 1 + rest.length)
    (hgap : Gap size addr pre post) (hp : ∀ p ∈ pre, p.mAddr + p.mSize < addr) :
    ∃ bp rest₁ A n B v m, post ++ delim :: rest = bp :: rest₁ ∧
      rmfreeRight size addr pre bp rest₁ = .ok (v, m) ∧ Added size addr (pre ++ post) A n B ∧
      Stored ((pre ++ post).length + 1 + rest.length) (A ++ n :: B) rest m ∧ v = n.mSize := by
  obtain ⟨hpre, hpost, -⟩ := segsOk_append.1 hok
  by_cases hadj : ∃ q post', post = q :: post' ∧ q.mAddr = addr + size
  · obtain ⟨q, post', rfl, hq⟩ := hadj
    obtain ⟨hqok, hpost', hlt'⟩ := segsOk_cons.1 hpost
    have hqle := hqok.le
    have hqpos := hqok.size_pos
    have hwant : u32 (addr + size) = q.mAddr := by rw [← hq, u32_eq (by omega)]
    let n : Mapent := ⟨q.mSize + size, addr⟩
    have hn : n.mAddr = addr ∧ n.mAddr + n.mSize = q.mAddr + q.mSize :=
      ⟨rfl, by simp only [n]; omega⟩
    have hadd : Added size addr (pre ++ [] ++ ([q] ++ post')) pre n post' := by
      refine .of_gap (by simpa using hok) ⟨by omega, haddr, by omega⟩ (by omega) (by omega) hp ?_ ?_
      · intro f hf
        rw [hn.2]
        exact hlt' f hf
      · intro x
        simp only [mem_units_cons, mem_units_nil, or_false, false_or]
        omega
    rw [append_nil] at hadd
    refine ⟨q, _, pre, n, post', n.mSize, pre ++ n :: post' ++ delim :: rest, rfl, ?_, hadd,
      .inl ⟨rest, rfl, ?_⟩, rfl⟩
    · simp only [rmfreeRight, hwant, u32_eq (show q.mSize + size < 2 ^ 32 by omega),
        sub32_eq (show q.mAddr < 2 ^ 32 by omega) (show size ≤ q.mAddr by omega)]
      rw [if_pos ⟨le_refl _, by omega⟩, if_neg (by omega), show q.mAddr - size = addr by omega]
      simp [n]
    · simp only [length_append, length_cons]
  · let n : Mapent := ⟨size, addr⟩
    have hgt := hpost.lt_of_gap hgap.behind hadj
    have hadd : Added size addr (pre ++ [] ++ ([] ++ post)) pre n post := by
      refine .of_gap (by simpa using hok) ⟨hsize, haddr, hhi⟩ (le_refl _) (le_refl _) hp hgt ?_
      intro x
      simp [n]
    rw [append_nil] at hadd
    obtain ⟨bp, rest₁, hbp, hhead⟩ := hpost.head_of_lt hgt rest
    have hno : ¬(u32 (addr + size) ≥ bp.mAddr ∧ bp.mSize ≠ 0) := by
      obtain rfl | hhead := hhead
      · simp [delim]
      · omega
    have hrun : rmfreeRight size addr pre bp rest₁ =
        (addDelimiter (pre ++ n :: post) rest).map fun l => (size, l) := by
      rw [rmfreeRight, if_neg hno, ← hbp, shiftUp_segs hpost.size_ne]
    have hlen : (pre ++ n :: post).length = (pre ++ post).length + 1 := by
      simp only [length_append, length_cons]
      omega
    obtain ⟨d, rest', rfl, he⟩ | ⟨C, e, b, rfl, hC, he⟩ :=
      addDelimiter_cases (pre ++ n :: post) rest (by omega)
    · refine ⟨bp, rest₁, pre, n, post, size, _, hbp, by rw [hrun, he]; rfl, hadd,
        .inl ⟨rest', rfl, ?_⟩, rfl⟩
      rw [hlen, length_cons]
      omega
    · exact ⟨bp, rest₁, pre, n, post, size, _, hbp, by rw [hrun, he]; rfl, hadd,
        .inr ⟨C, e, b, rfl, hC, by rw [hlen]; rfl, rfl⟩, rfl⟩

/-- The range is adjacent to a segment on either side. -/
def Fills (size addr : ℕ) (l : List Mapent) : Prop :=
  (∃ p ∈ l, p.mAddr + p.mSize = addr) ∧ ∃ q ∈ l, q.mAddr = addr + size

/-- `rmfree` joins the range with the segments that it is adjacent to.  It returns the length of
the segment except where it joins two. -/
theorem rmfree_cases {l : List Mapent} (rest : List Mapent) (hok : SegsOk l) (hsize : 0 < size) (haddr : 0 < addr)
    (hhi : addr + size ≤ 2 ^ 32) (hlim : 2 ≤ l.length + 1 + rest.length)
    (hfree : ∀ x ∈ range size addr, x ∉ units l) :
    ∃ A n B v m, rmfree size addr (l ++ delim :: rest) = .ok (v, m) ∧ Added size addr l A n B ∧
      Stored (l.length + 1 + rest.length) (A ++ n :: B) rest m ∧
      (¬Fills size addr l → v = n.mSize) := by
  obtain ⟨pre, post, rfl, hgap, htake, hdrop⟩ := exists_gap hok hsize hfree rest
  have hright : (∀ p ∈ pre, p.mAddr + p.mSize < addr) → ∃ bp rest₁ A n B v m,
      post ++ delim :: rest = bp :: rest₁ ∧ rmfreeRight size addr pre bp rest₁ = .ok (v, m) ∧
      Added size addr (pre ++ post) A n B ∧
      Stored ((pre ++ post).length + 1 + rest.length) (A ++ n :: B) rest m ∧ v = n.mSize :=
    rmfreeRight_cases rest hok hsize haddr hhi hlim hgap
  obtain rfl | ⟨pre', p, rfl⟩ := eq_nil_or_concat' pre
  · obtain ⟨bp, rest₁, A, n, B, v, m, hbp, he, hadd, hst, hv⟩ := hright (by simp)
    refine ⟨A, n, B, v, m, ?_, hadd, hst, fun _ => hv⟩
    simp only [rmfree, htake, hdrop, hbp, getLast?_nil]
    exact he
  have hpok : p.Ok := hok.2 p (by simp)
  have hple := hgap.before p (by simp)
  have hpos := hpok.size_pos
  have hend : u32 (p.mAddr + p.mSize) = p.mAddr + p.mSize := u32_eq (by omega)
  by_cases hp : p.mAddr + p.mSize = addr
  · obtain ⟨bp, rest₁, A, n, B, v, m, hbp, he, hadd, hst, hv⟩ :=
      rmfreeLeft_cases rest hok hsize hhi hgap hp
    refine ⟨A, n, B, v, m, ?_, hadd, hst, fun hfill => hv fun q hq hqa => ?_⟩
    · simp only [rmfree, htake, hdrop, hbp, getLast?_concat, hend]
      rw [if_pos hp.ge]
      exact he
    · exact hfill ⟨⟨p, by simp, hp⟩, q, by simp [hq], hqa⟩
  · obtain ⟨bp, rest₁, A, n, B, v, m, hbp, he, hadd, hst, hv⟩ := hright fun f hf => by
      obtain hf | rfl := mem_append.1 hf |>.imp_right mem_singleton.1
      · have := (segsOk_append.1 (segsOk_append.1 hok).1).2.2 f hf p (by simp)
        omega
      · omega
    refine ⟨A, n, B, v, m, ?_, hadd, hst, fun _ => hv⟩
    simp only [rmfree, htake, hdrop, hbp, getLast?_concat, hend]
    rw [if_neg (by omega)]
    exact he

end Free

end Rmap

end Hpux
