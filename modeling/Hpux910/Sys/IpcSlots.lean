import Hpux910.Sys.SysVMap
import Mathlib

/-!
# The text map of the message queues, slot by slot

A map is an array of `struct ipcmap`.  Its first slot is a header with the number of unused slots and the number of
sleepers, the slots behind it hold the free segments, and a slot of size 0 ends them.  Sizes are shorts and addresses
unsigned shorts, and slots are moved in place.

* `Slot.short`, `Slot.ushort`, `Slot.uint` : what a field or a variable keeps of a number.
* `malloc`, `mfree`, `msginit` : the routines on the slots.  They have no result when a loop leaves the array.
* `Ipcmap.Shows` : the slots hold the segments of an `IpcMap`, with no number cut off.
* `Sep` : the segments are in order and no two of them touch.
* `malloc_shows`, `mfree_shows` : each routine does what the one on segments does, which has numbers of any size.
* `ipcmap_runs` : what holds after any calls, for the numbers of segments and slots that fit.
-/

namespace Hpux

namespace SysV

open List

/-- `struct ipcmap`. -/
structure Slot where
  /-- `m_size`. -/
  mSize : ℤ
  /-- `m_addr`. -/
  mAddr : ℤ
  deriving DecidableEq, Repr

/-- What a `short` keeps. -/
def Slot.short (x : ℤ) : ℤ := (x + 32768) % 65536 - 32768
/-- What an `unsigned short` keeps. -/
def Slot.ushort (x : ℤ) : ℤ := x % 65536
/-- What an `unsigned int` keeps. -/
def Slot.uint (x : ℤ) : ℤ := x % 4294967296

/-- A map in memory. -/
structure Ipcmap where
  /-- `ipcmapsize`: the `m_size` of the header. -/
  size : ℤ
  /-- `ipcmapwant`: the `m_addr` of the header. -/
  want : ℤ
  /-- The slots from `ipcmapstart` on. -/
  slots : List Slot
  deriving DecidableEq, Repr

/-- The loops that close a hole: every slot takes what is in the next one, the last of them the delimiter. -/
def shiftDown : List Slot → Option (List Slot)
  | [] => none
  | bp :: rest => if bp.mSize = 0 then some (bp :: bp :: rest) else (shiftDown rest).map (bp :: ·)

/-- The loop that makes room: each slot is exchanged with the segment carried along. -/
def shiftUp (size a : ℤ) : List Slot → Option (List Slot)
  | [] => none
  | bp :: rest =>
    let new : Slot := ⟨Slot.short size, Slot.ushort a⟩
    if bp.mSize = 0 then some (new :: rest) else (shiftUp bp.mSize bp.mAddr rest).map (new :: ·)

/-- The loop of `ipcmalloc`; the last component says whether a segment was used up. -/
def mallocLoop (size : ℤ) : List Slot → Option (ℤ × List Slot × Bool)
  | [] => none
  | bp :: rest =>
    if bp.mSize = 0 then some (0, bp :: rest, false)
    else if bp.mSize ≥ size then
      let new : Slot := ⟨Slot.short (bp.mSize - size), Slot.ushort (bp.mAddr + size)⟩
      if new.mSize = 0 then (shiftDown rest).map fun l => (bp.mAddr, l, true)
      else some (bp.mAddr, new :: rest, false)
    else (mallocLoop size rest).map fun r => (r.1, bp :: r.2.1, r.2.2)

/-- `ipcmalloc`. -/
def malloc (m : Ipcmap) (size : ℤ) : Option (ℤ × Ipcmap) :=
  (mallocLoop size m.slots).map fun r =>
    (r.1, { m with size := if r.2.2 then Slot.short (m.size + 1) else m.size, slots := r.2.1 })

/-- What `ipcmfree` makes of the slots and of `ipcmapsize`; `none` inside when the space is lost. -/
abbrev Mfreed := Option (List Slot × ℤ)

/-- A slot before the place is left alone. -/
def Mfreed.behind (prev : Slot) (r : Mfreed) : Mfreed := r.map fun x => (prev :: x.1, x.2)

/-- `ipcmfree` when the segment before the place does not end at `a`. -/
def freeHere (size a count : ℤ) : List Slot → Option Mfreed
  | [] => none
  | bp :: rest =>
    if Slot.uint (a + size) = bp.mAddr ∧ bp.mSize ≠ 0 then
      some (some (⟨Slot.short (bp.mSize + size), Slot.ushort (bp.mAddr - size)⟩ :: rest, count))
    else if size ≠ 0 then
      if count = 0 then some none
      else (shiftUp size a (bp :: rest)).map fun l => some (l, Slot.short (count - 1))
    else some (some (bp :: rest, count))

/-- The search of `ipcmfree` behind its first step, with the slot before `bp`, and what is done where it ends. -/
def freeBehind (size a count : ℤ) (prev : Slot) : List Slot → Option Mfreed
  | [] => none
  | bp :: rest =>
    if bp.mAddr ≤ a ∧ bp.mSize ≠ 0 then (freeBehind size a count bp rest).map (Mfreed.behind prev)
    else if Slot.uint (prev.mAddr + prev.mSize) = a then
      if Slot.uint (a + size) = bp.mAddr then
        let new : Slot := ⟨Slot.short (Slot.short (prev.mSize + size) + bp.mSize), prev.mAddr⟩
        if bp.mSize = 0 then some (some (new :: bp :: rest, Slot.short (count + 1)))
        else (shiftDown rest).map fun l => some (new :: l, Slot.short (count + 1))
      else some (some (⟨Slot.short (prev.mSize + size), prev.mAddr⟩ :: bp :: rest, count))
    else (freeHere size a count (bp :: rest)).map (Mfreed.behind prev)

/-- `ipcmfree` up to the return or the wakeup. -/
def freeSlots (size a count : ℤ) : List Slot → Option Mfreed
  | [] => none
  | bp :: rest =>
    if bp.mAddr ≤ a ∧ bp.mSize ≠ 0 then freeBehind size a count bp rest
    else freeHere size a count (bp :: rest)

/-- `ipcmfree`; the second component says that the space is lost.  Otherwise the sleepers are woken, and none is left
in `ipcmapwant`. -/
def mfree (m : Ipcmap) (size a : ℤ) : Option (Ipcmap × Bool) :=
  (freeSlots size a m.size m.slots).map fun r =>
    r.elim (m, true) fun x => (⟨x.2, 0, x.1⟩, false)

/-- An empty slot. -/
def Slot.zero : Slot := ⟨0, 0⟩

/-- `msginit` for a map of `msgmap` slots; `msg` says whether there is memory for the `msgseg` segments. -/
def msginit (msgmap msgseg : ℕ) (msg : Bool) : Option Ipcmap :=
  (mfree ⟨Slot.short (msgmap - 2), 0, List.replicate (msgmap - 1) Slot.zero⟩ (if msg then msgseg else 0) 1).map Prod.fst

/-! ### Slots that hold segments -/

/-- The slot of a segment. -/
def Seg.slot (s : Seg) : Slot := ⟨s.mSize, s.mAddr⟩

/-- Segments, then `n` empty slots. -/
def rep (l : List Seg) (n : ℕ) : List Slot := l.map Seg.slot ++ List.replicate n Slot.zero

theorem rep_nil (n : ℕ) : rep [] (n + 1) = Slot.zero :: rep [] n := rfl
theorem rep_cons (s : Seg) (l : List Seg) (n : ℕ) : rep (s :: l) n = s.slot :: rep l n := rfl

/-- The slots hold these segments, the header counts the empty slots but one, and no field has lost anything. -/
structure Ipcmap.Shows (m : Ipcmap) (mp : IpcMap) : Prop where
  slots : m.slots = rep mp.segs (mp.slots + 1)
  size : m.size = mp.slots

/-- No segment is empty, and each ends before the next begins, with a unit between them. -/
def Sep (l : List Seg) : Prop :=
  (∀ s ∈ l, 0 < s.mSize) ∧ l.Pairwise fun s t => s.mAddr + s.mSize < t.mAddr

/-- The numbers of a segment fit. -/
def Seg.Fit (s : Seg) : Prop := 1 ≤ s.mAddr ∧ s.mAddr + s.mSize ≤ 32768

variable {l : List Seg}

theorem Sep.ok (h : Sep l) : segSpans.Ok l :=
  ⟨fun s hs => Nat.lt_add_of_pos_right (h.1 s hs), h.2.imp Nat.le_of_lt⟩

theorem sep_cons {p : Seg} :
    Sep (p :: l) ↔ 0 < p.mSize ∧ (∀ s ∈ l, p.mAddr + p.mSize < s.mAddr) ∧ Sep l := by
  unfold Sep
  rw [forall_mem_cons, pairwise_cons]
  tauto

theorem Sep.lt_units {p : Seg} (h : Sep (p :: l)) {x : ℕ} (hx : x ∈ units l) :
    p.mAddr + p.mSize < x := by
  obtain ⟨s, hs, hle, -⟩ := mem_units.1 hx
  exact (sep_cons.1 h).2.1 s hs |>.trans_le hle

theorem short_of {x : ℤ} (h1 : -32768 ≤ x) (h2 : x < 32768) : Slot.short x = x := by
  unfold Slot.short
  omega

theorem ushort_of {x : ℤ} (h1 : 0 ≤ x) (h2 : x < 65536) : Slot.ushort x = x := by
  unfold Slot.ushort
  omega

theorem uint_of {x : ℤ} (h1 : 0 ≤ x) (h2 : x < 4294967296) : Slot.uint x = x := by
  unfold Slot.uint
  omega

theorem slot_eq {x y : ℤ} {s : Seg} (hx : x = s.mSize) (hy : y = s.mAddr) (hfit : s.Fit) :
    (⟨Slot.short x, Slot.ushort y⟩ : Slot) = s.slot := by
  obtain ⟨h1, h2⟩ := hfit
  subst hx hy
  rw [short_of (by omega) (by omega), ushort_of (by omega) (by omega)]
  rfl

section Moves

variable {l : List Seg} {n : ℕ}

theorem slot_ne {s : Seg} (h : 0 < s.mSize) : s.slot.mSize ≠ 0 := Int.ofNat_ne_zero.2 h.ne'

theorem shiftDown_rep (hpos : ∀ s ∈ l, 0 < s.mSize) :
    shiftDown (rep l (n + 1)) = some (rep l (n + 2)) := by
  induction l with
  | nil => rfl
  | cons s l ih =>
    obtain ⟨hs, hl⟩ := forall_mem_cons.1 hpos
    rw [rep_cons, shiftDown, if_neg (slot_ne hs), ih hl]
    rfl

theorem shiftUp_rep (hpos : ∀ s ∈ l, 0 < s.mSize) (hfit : ∀ s ∈ l, s.Fit) {new : Seg} (hnew : new.Fit) :
    shiftUp new.mSize new.mAddr (rep l (n + 2)) = some (rep (new :: l) (n + 1)) := by
  induction l generalizing new with
  | nil =>
    rw [rep_nil, shiftUp, slot_eq rfl rfl hnew]
    rfl
  | cons s l ih =>
    obtain ⟨hs, hl⟩ := forall_mem_cons.1 hpos
    obtain ⟨hsf, hlf⟩ := forall_mem_cons.1 hfit
    rw [rep_cons, shiftUp, slot_eq rfl rfl hnew, if_neg (slot_ne hs)]
    show (shiftUp s.mSize s.mAddr (rep l (n + 2))).map _ = _
    rw [ih hl hlf hsf]
    rfl

end Moves

/-! ### `ipcmalloc` -/

section Malloc

variable {size n : ℕ} {l : List Seg}

/-- The loop finds what the first-fit loop on segments finds. -/
theorem mallocLoop_rep (hpos : ∀ s ∈ l, 0 < s.mSize) (hfit : ∀ s ∈ l, s.Fit) :
    mallocLoop size (rep l (n + 1)) = some ((mallocScan size l).elim (0, rep l (n + 1), false) fun r =>
        ((r.1 : ℤ), rep r.2.1 (if r.2.2 then n + 2 else n + 1), r.2.2)) := by
  induction l with
  | nil => rfl
  | cons bp rest ih =>
    obtain ⟨hs, hl⟩ := forall_mem_cons.1 hpos
    obtain ⟨hsf, hlf⟩ := forall_mem_cons.1 hfit
    have hcast : bp.slot.mSize ≥ (size : ℤ) ↔ bp.mSize ≥ size := Int.ofNat_le
    rw [rep_cons, mallocLoop, if_neg (slot_ne hs), mallocScan]
    by_cases hsize : bp.mSize ≥ size
    · have hnew : (⟨Slot.short (bp.slot.mSize - size), Slot.ushort (bp.slot.mAddr + size)⟩ : Slot) =
          Seg.slot ⟨bp.mAddr + size, bp.mSize - size⟩ := by
        obtain ⟨h1, h2⟩ := hsf
        have hlast : bp.mAddr + size + (bp.mSize - size) ≤ 32768 := by omega
        refine slot_eq ?_ ?_ ⟨Nat.le_add_right_of_le h1, hlast⟩
        · show (bp.mSize : ℤ) - size = ((bp.mSize - size : ℕ) : ℤ)
          omega
        · exact (Int.natCast_add _ _).symm
      rw [if_pos (hcast.2 hsize), if_pos hsize, hnew]
      by_cases hzero : bp.mSize - size = 0
      · have hzero' : (Seg.slot ⟨bp.mAddr + size, bp.mSize - size⟩).mSize = 0 := by
          show ((bp.mSize - size : ℕ) : ℤ) = 0
          rw [hzero]
          rfl
        rw [if_pos hzero, shiftDown_rep hl]
        exact if_pos hzero'
      · have hzero' : (Seg.slot ⟨bp.mAddr + size, bp.mSize - size⟩).mSize ≠ 0 := Int.ofNat_ne_zero.2 hzero
        rw [if_neg hzero]
        exact if_neg hzero'
    · rw [if_neg (hcast.not.2 hsize), if_neg hsize, ih hl hlf]
      cases mallocScan size rest <;> rfl

/-- What stays of the segments. -/
theorem mallocScan_keeps {a : ℕ} {l' : List Seg} {freed : Bool} (hsep : Sep l)
    (h : mallocScan size l = some (a, l', freed)) :
    Sep l' ∧ (∃ s ∈ l, s.mAddr = a) ∧ (∀ t ∈ l', ∃ s ∈ l, s.mAddr ≤ t.mAddr) ∧
      l'.length + (if freed then 1 else 0) = l.length := by
  induction l generalizing l' with
  | nil => cases h
  | cons bp rest ih =>
    obtain ⟨hpos, hlt, hrest⟩ := sep_cons.1 hsep
    have hself : ∀ t ∈ rest, ∃ s ∈ bp :: rest, s.mAddr ≤ t.mAddr := fun t ht =>
      ⟨t, mem_cons_of_mem _ ht, le_rfl⟩
    rw [mallocScan] at h
    split_ifs at h with hfits hzero
    · simp only [Option.some.injEq, Prod.mk.injEq] at h
      obtain ⟨rfl, rfl, rfl⟩ := h
      exact ⟨hrest, ⟨bp, mem_cons_self, rfl⟩, hself, rfl⟩
    · simp only [Option.some.injEq, Prod.mk.injEq] at h
      obtain ⟨rfl, rfl, rfl⟩ := h
      refine ⟨sep_cons.2 ⟨Nat.pos_of_ne_zero hzero, fun s hs => ?_, hrest⟩, ⟨bp, mem_cons_self, rfl⟩, fun t ht => ?_, rfl⟩
      · have := hlt s hs
        simp only
        omega
      · rcases mem_cons.1 ht with rfl | ht
        · exact ⟨bp, mem_cons_self, Nat.le_add_right _ _⟩
        · exact hself t ht
    · rcases hs : mallocScan size rest with _ | ⟨a', l'', freed'⟩
      · rw [hs] at h
        cases h
      · simp only [hs, Option.map_some, Option.some.injEq, Prod.mk.injEq] at h
        obtain ⟨rfl, rfl, rfl⟩ := h
        obtain ⟨h1, ⟨s, hs1, hs2⟩, h3, h4⟩ := ih hrest hs
        refine ⟨sep_cons.2 ⟨hpos, fun t ht => ?_, h1⟩, ⟨s, mem_cons_of_mem _ hs1, hs2⟩, fun t ht => ?_, ?_⟩
        · obtain ⟨u, hu, hle⟩ := h3 t ht
          exact (hlt u hu).trans_le hle
        · rcases mem_cons.1 ht with rfl | ht
          · exact ⟨t, mem_cons_self, le_rfl⟩
          · obtain ⟨u, hu, hle⟩ := h3 t ht
            exact ⟨u, mem_cons_of_mem _ hu, hle⟩
        · rw [length_cons, length_cons, ← h4]
          omega

theorem mallocScan_none (h : mallocScan size l = none) : ∀ s ∈ l, s.mSize < size := by
  induction l with
  | nil => exact nofun
  | cons bp rest ih =>
    rw [mallocScan] at h
    split_ifs at h with hfits
    rw [Option.map_eq_none_iff] at h
    exact forall_mem_cons.2 ⟨Nat.lt_of_not_le hfits, ih h⟩

end Malloc

/-- The result of `ipcmalloc` for `size` units: either no segment is long enough, or the range was free and is now
taken. -/
structure Malloced (size : ℕ) (mp : IpcMap) (a : ℕ) (mp' : IpcMap) : Prop where
  sep : Sep mp'.segs
  count : mp'.segs.length + mp'.slots = mp.segs.length + mp.slots
  fail : a = 0 → mp' = mp ∧ ∀ s ∈ mp.segs, s.mSize < size
  free : a ≠ 0 → ∀ x, a ≤ x → x < a + size → x ∈ units mp.segs
  units : a ≠ 0 → ∀ x, x ∈ units mp'.segs ↔ x ∈ units mp.segs ∧ ¬(a ≤ x ∧ x < a + size)

theorem ipcmalloc_malloced (size : ℕ) {mp : IpcMap} (hsep : Sep mp.segs) (hfit : ∀ s ∈ mp.segs, s.Fit) :
    Malloced size mp (ipcmalloc mp size).1 (ipcmalloc mp size).2 := by
  rcases hs : mallocScan size mp.segs with _ | ⟨a, l', freed⟩
  · have hres : ipcmalloc mp size = (0, mp) := by rw [ipcmalloc, hs]
    rw [hres]
    exact ⟨hsep, rfl, fun _ => ⟨rfl, mallocScan_none hs⟩, fun h => absurd rfl h, fun h => absurd rfl h⟩
  · have hres : ipcmalloc mp size = (a, ⟨l', if freed then mp.slots + 1 else mp.slots⟩) := by rw [ipcmalloc, hs]
    obtain ⟨h1, ⟨s, hs1, rfl⟩, -, h4⟩ := mallocScan_keeps hsep hs
    have hne : s.mAddr ≠ 0 := Nat.one_le_iff_ne_zero.1 (hfit s hs1).1
    have hset : (∀ x, s.mAddr ≤ x → x < s.mAddr + size → x ∈ units mp.segs) ∧
        ∀ x, x ∈ units l' ↔ x ∈ units mp.segs ∧ ¬(s.mAddr ≤ x ∧ x < s.mAddr + size) := by
      rcases size.eq_zero_or_pos with rfl | hsize
      · -- nothing is taken from the first segment
        obtain ⟨bp, rest, hl⟩ := exists_cons_of_ne_nil (ne_nil_of_mem hs1)
        have hbp : bp.mSize - 0 ≠ 0 := (hsep.1 bp (hl ▸ mem_cons_self)).ne'
        rw [hl, mallocScan, if_pos (Nat.zero_le _), if_neg hbp] at hs
        simp only [Option.some.injEq, Prod.mk.injEq] at hs
        obtain ⟨-, rfl, -⟩ := hs
        rw [hl]
        exact ⟨fun x h2 h3 => by omega, fun x => ⟨fun hx => ⟨hx, by omega⟩, And.left⟩⟩
      · exact (mallocScan_spec hsize hsep.ok hs).2
    rw [hres]
    refine ⟨h1, ?_, fun h => absurd h hne, fun _ => hset.1, fun _ => hset.2⟩
    cases freed
    · exact congrArg (· + mp.slots) h4
    · simp only [if_true] at h4 ⊢
      omega

/-- On the slots the same. -/
theorem malloc_shows {m : Ipcmap} {mp : IpcMap} (size : ℕ) (hshows : m.Shows mp) (hsep : Sep mp.segs)
    (hfit : ∀ s ∈ mp.segs, s.Fit) (hcount : mp.segs.length + mp.slots ≤ 32767) :
    ∃ m', malloc m size = some (((ipcmalloc mp size).1 : ℤ), m') ∧ m'.Shows (ipcmalloc mp size).2 := by
  have hloop := @mallocLoop_rep size mp.slots mp.segs hsep.1 hfit
  rw [← hshows.slots] at hloop
  unfold malloc ipcmalloc
  rw [hloop]
  rcases hs : mallocScan size mp.segs with _ | ⟨a, l', freed⟩
  · exact ⟨_, rfl, hshows.slots, hshows.size⟩
  · have h4 := (mallocScan_keeps hsep hs).2.2.2
    refine ⟨_, rfl, ?_, ?_⟩
    · cases freed <;> rfl
    · show (if freed = true then Slot.short (m.size + 1) else m.size) = _
      rw [hshows.size]
      cases freed
      · rfl
      · have hone : 1 ≤ mp.segs.length := by
          simp only [if_true] at h4
          omega
        exact short_of (by omega) (by omega)

/-! ### `ipcmfree` -/

/-- The result of `ipcmfree` for `size` units at `a`: the space is lost, or the range is free and the segments are
again apart. -/
inductive Outcome (size a : ℕ) (l : List Seg) (slots : ℕ) : Option (List Seg × ℕ) → Prop
  | lost : slots = 0 → 0 < size → (∀ s ∈ l, s.mAddr + s.mSize ≠ a ∧ a + size ≠ s.mAddr) → Outcome size a l slots none
  | kept {r : List Seg × ℕ} : Sep r.1 → r.1.length + r.2 = l.length + slots →
      (∀ x, x ∈ units r.1 ↔ x ∈ units l ∨ (a ≤ x ∧ x < a + size)) → Outcome size a l slots (some r)

/-- The slots of a result. -/
def mfreed (o : Option (List Seg × ℕ)) : Mfreed := o.map fun r => (rep r.1 (r.2 + 1), (r.2 : ℤ))

theorem mfreed_behind (p : Seg) (o : Option (List Seg × ℕ)) :
    (mfreed o).behind p.slot = mfreed (o.map fun r => (p :: r.1, r.2)) := by
  cases o <;> rfl

theorem Sep.mem_units_self (h : Sep l) {s : Seg} (hs : s ∈ l) : s.mAddr ∈ units l :=
  mem_units.2 ⟨s, hs, le_rfl, Nat.lt_add_of_pos_right (h.1 s hs)⟩

section Mfree

variable {size a slots : ℕ} {l : List Seg} {o : Option (List Seg × ℕ)}

/-- A segment before the range stays. -/
theorem Outcome.behind {p : Seg} (h : Outcome size a l slots o) (hsep : Sep (p :: l)) (hp : p.mAddr + p.mSize < a) :
    Outcome size a (p :: l) slots (o.map fun r => (p :: r.1, r.2)) := by
  obtain ⟨hpos, -, -⟩ := sep_cons.1 hsep
  cases h with
  | lost h1 h2 h3 =>
    refine .lost h1 h2 (forall_mem_cons.2 ⟨⟨hp.ne, ?_⟩, h3⟩)
    omega
  | @kept r h1 h2 h3 =>
    refine .kept (sep_cons.2 ⟨hpos, fun t ht => ?_, h1⟩) ?_ fun x => ?_
    · rcases (h3 _).1 (h1.mem_units_self ht) with hx | hx
      · exact hsep.lt_units hx
      · exact hp.trans_le hx.1
    · show r.1.length + 1 + r.2 = l.length + 1 + slots
      omega
    · rw [mem_units_cons, mem_units_cons, h3, or_assoc]

theorem Outcome.new (hsize : 0 < size) (hsep : Sep l) (hlow : ∀ s ∈ l, a + size < s.mAddr) :
    Outcome size a l (slots + 1) (some (⟨a, size⟩ :: l, slots)) := by
  refine .kept (sep_cons.2 ⟨hsize, hlow, hsep⟩) ?_ fun x => ?_
  · rw [length_cons]
    omega
  · rw [mem_units_cons, or_comm]

/-- The segment behind the range is made longer. -/
theorem Outcome.join {bp : Seg} (hsep : Sep (bp :: l)) (hend : a + size = bp.mAddr) :
    Outcome size a (bp :: l) slots (some (⟨bp.mAddr - size, bp.mSize + size⟩ :: l, slots)) := by
  obtain ⟨hpos, hlt, hrest⟩ := sep_cons.1 hsep
  refine .kept (sep_cons.2 ⟨Nat.add_pos_left hpos _, fun s hs => ?_, hrest⟩) rfl fun x => ?_
  · have := hlt s hs
    simp only
    omega
  · rw [mem_units_cons, mem_units_cons]
    simp only
    rw [or_right_comm]
    refine or_congr_left ?_
    omega

/-- The segment before the range is made longer, and takes the one behind it when that is next. -/
theorem Outcome.grow {p : Seg} (hsep : Sep (p :: l)) (hend : p.mAddr + p.mSize = a)
    (hlow : ∀ s ∈ l, a + size < s.mAddr) :
    Outcome size a (p :: l) slots (some (⟨p.mAddr, p.mSize + size⟩ :: l, slots)) := by
  obtain ⟨hpos, -, hrest⟩ := sep_cons.1 hsep
  refine .kept (sep_cons.2 ⟨Nat.add_pos_left hpos _, fun s hs => ?_, hrest⟩) rfl fun x => ?_
  · have := hlow s hs
    simp only
    omega
  · rw [mem_units_cons, mem_units_cons]
    simp only
    rw [or_right_comm]
    refine or_congr_left ?_
    omega

theorem Outcome.close {p bp : Seg} (hsep : Sep (p :: bp :: l)) (hp : p.mAddr + p.mSize = a)
    (hend : a + size = bp.mAddr) :
    Outcome size a (p :: bp :: l) slots (some (⟨p.mAddr, p.mSize + size + bp.mSize⟩ :: l, slots + 1)) := by
  obtain ⟨hpos, -, hrest⟩ := sep_cons.1 hsep
  obtain ⟨-, hlt, hl⟩ := sep_cons.1 hrest
  refine .kept (sep_cons.2 ⟨Nat.add_pos_left (Nat.add_pos_left hpos _) _, fun s hs => ?_, hl⟩) ?_ fun x => ?_
  · have := hlt s hs
    simp only
    omega
  · rw [length_cons, length_cons, length_cons]
    omega
  · rw [mem_units_cons, mem_units_cons, mem_units_cons]
    simp only
    rw [← or_assoc, or_right_comm]
    refine or_congr_left ?_
    omega

variable (hsize : 0 < size) (ha : 1 ≤ a) (hend : a + size ≤ 32768)
include hsize ha hend

theorem freeHere_rep (hsep : Sep l) (hfit : ∀ s ∈ l, s.Fit) (hlow : ∀ s ∈ l, a + size ≤ s.mAddr)
    (hlen : l.length + slots ≤ 32767) :
    ∃ o, freeHere size a slots (rep l (slots + 1)) = some (mfreed o) ∧
      mfreeHere size a slots l = o.getD (l, slots) ∧ Outcome size a l slots o := by
  have hsize' : (size : ℤ) ≠ 0 := Int.ofNat_ne_zero.2 hsize.ne'
  have huint : Slot.uint ((a : ℤ) + size) = ((a + size : ℕ) : ℤ) := by
    rw [uint_of (by omega) (by omega)]
    exact (Int.natCast_add _ _).symm
  -- the range gets a slot, or is lost
  have hnew : (∀ s ∈ l, a + size < s.mAddr) →
      ∃ o, (if (slots : ℤ) = 0 then some none
          else (shiftUp size a (rep l (slots + 1))).map fun x => some (x, Slot.short ((slots : ℤ) - 1))) = some (mfreed o) ∧
        (if slots = 0 then (l, slots) else (⟨a, size⟩ :: l, slots - 1)) = o.getD (l, slots) ∧ Outcome size a l slots o := by
    intro hlow
    cases slots with
    | zero =>
      refine ⟨none, rfl, rfl, .lost rfl hsize fun s hs => ?_⟩
      have := hlow s hs
      exact ⟨by omega, this.ne⟩
    | succ k =>
      refine ⟨_, ?_, rfl, .new hsize hsep hlow⟩
      have hup := @shiftUp_rep l k hsep.1 hfit ⟨a, size⟩ ⟨ha, hend⟩
      rw [if_neg (Int.ofNat_ne_zero.2 k.succ_ne_zero), hup, short_of (by omega) (by omega)]
      simp [mfreed]
  cases l with
  | nil =>
    obtain ⟨o, h1, h2, h3⟩ := hnew nofun
    refine ⟨o, ?_, ?_, h3⟩
    · rw [rep_nil, freeHere, if_neg fun hc => hc.2 rfl, if_pos hsize']
      exact h1
    · rw [mfreeHere, if_neg hsize.ne']
      exact h2
  | cons bp rest =>
    obtain ⟨hbp, hlt, -⟩ := sep_cons.1 hsep
    have hcond : Slot.uint ((a : ℤ) + size) = bp.slot.mAddr ∧ bp.slot.mSize ≠ 0 ↔ a + size = bp.mAddr := by
      rw [huint]
      exact ⟨fun h => Int.ofNat_inj.1 h.1, fun h => ⟨Int.ofNat_inj.2 h, slot_ne hbp⟩⟩
    rw [rep_cons, freeHere, mfreeHere]
    by_cases hjoin : a + size = bp.mAddr
    · have hslot : (⟨Slot.short (bp.slot.mSize + size), Slot.ushort (bp.slot.mAddr - size)⟩ : Slot) =
          Seg.slot ⟨bp.mAddr - size, bp.mSize + size⟩ := by
        obtain ⟨h1, h2⟩ := hfit bp mem_cons_self
        have hfirst : 1 ≤ bp.mAddr - size := by omega
        have hlast : bp.mAddr - size + (bp.mSize + size) ≤ 32768 := by omega
        refine slot_eq (Int.natCast_add _ _).symm ?_ ⟨hfirst, hlast⟩
        show (bp.mAddr : ℤ) - size = ((bp.mAddr - size : ℕ) : ℤ)
        omega
      rw [if_pos (hcond.2 hjoin), if_pos hjoin, hslot]
      exact ⟨_, rfl, rfl, .join hsep hjoin⟩
    · rw [if_neg (hcond.not.2 hjoin), if_neg hjoin, if_pos hsize', if_neg hsize.ne']
      have hbp' : a + size < bp.mAddr := (hlow bp mem_cons_self).lt_of_ne hjoin
      refine hnew (forall_mem_cons.2 ⟨hbp', fun s hs => ?_⟩)
      have := hlt s hs
      omega

theorem freeBehind_rep {p : Seg} (hsep : Sep (p :: l)) (hfit : ∀ s ∈ p :: l, s.Fit) (hp : p.mAddr ≤ a)
    (hout : ∀ x, a ≤ x → x < a + size → x ∉ units (p :: l)) (hlen : (p :: l).length + slots ≤ 32767) :
    ∃ o, freeBehind size a slots p.slot (rep l (slots + 1)) = some (mfreed o) ∧
      mfreeBehind size a slots p l = o.getD (p :: l, slots) ∧ Outcome size a (p :: l) slots o := by
  have hpa : ∀ {q : Seg} {l : List Seg}, Sep (q :: l) → q.mAddr ≤ a →
      (∀ x, a ≤ x → x < a + size → x ∉ units (q :: l)) → q.mAddr + q.mSize ≤ a := by
    intro q l _ hq hout
    by_contra hlt
    exact hout a le_rfl (by omega) (mem_units_cons.2 (.inl ⟨hq, by omega⟩))
  have huint : Slot.uint ((a : ℤ) + size) = ((a + size : ℕ) : ℤ) := by
    rw [uint_of (by omega) (by omega)]
    exact (Int.natCast_add _ _).symm
  have hends : ∀ {q : Seg}, q.Fit → (Slot.uint (q.slot.mAddr + q.slot.mSize) = (a : ℤ) ↔ q.mAddr + q.mSize = a) := by
    intro q hq
    have hsum : Slot.uint (q.slot.mAddr + q.slot.mSize) = ((q.mAddr + q.mSize : ℕ) : ℤ) := by
      obtain ⟨h1, h2⟩ := hq
      show Slot.uint ((q.mAddr : ℤ) + q.mSize) = _
      rw [uint_of (by omega) (by omega)]
      exact (Int.natCast_add _ _).symm
    rw [hsum]
    exact Int.ofNat_inj
  -- a longer segment that ends at 32768 or before
  have hslot : ∀ {q : Seg} {n : ℕ} {x : ℤ}, q.Fit → q.mAddr + n ≤ 32768 → x = n →
      (⟨Slot.short x, q.slot.mAddr⟩ : Slot) = Seg.slot ⟨q.mAddr, n⟩ := by
    intro q n x hq hn hx
    obtain ⟨h1, -⟩ := hq
    rw [hx, short_of (by omega) (by omega)]
    rfl
  have hpfit := hfit p mem_cons_self
  have hpend := hpa hsep hp hout
  have hhere : ∀ {q : Seg} {l : List Seg}, Sep (q :: l) → (∀ s ∈ l, s.Fit) → l.length + slots ≤ 32767 →
      (∀ s ∈ l, a + size ≤ s.mAddr) → q.mAddr + q.mSize < a →
      ∃ o, (freeHere size a slots (rep l (slots + 1))).map (Mfreed.behind q.slot) = some (mfreed o) ∧
        (q :: (mfreeHere size a slots l).1, (mfreeHere size a slots l).2) = o.getD (q :: l, slots) ∧
        Outcome size a (q :: l) slots o := by
    intro q l hsep hfit hlen hlow hq
    obtain ⟨o, h1, h2, h3⟩ := freeHere_rep hsize ha hend (sep_cons.1 hsep).2.2 hfit hlow hlen
    refine ⟨_, ?_, ?_, h3.behind hsep hq⟩
    · rw [h1, Option.map_some, mfreed_behind]
    · rw [h2]
      cases o <;> rfl
  induction l generalizing p with
  | nil =>
    rw [rep_nil, freeBehind, if_neg fun hc => hc.2 rfl, mfreeBehind]
    by_cases hjoin : p.mAddr + p.mSize = a
    · have hne : ¬Slot.uint ((a : ℤ) + size) = Slot.zero.mAddr := by
        rw [huint]
        exact Int.ofNat_ne_zero.2 (by omega)
      have hp' := hslot hpfit (n := p.mSize + size) (by omega) (Int.natCast_add _ _).symm
      rw [if_pos ((hends hpfit).2 hjoin), if_neg hne, if_pos hjoin]
      refine ⟨_, ?_, rfl, .grow hsep hjoin (by simp)⟩
      show some (some (_ :: _, _)) = _
      rw [show p.slot.mSize = (p.mSize : ℤ) from rfl, hp']
      rfl
    · rw [if_neg ((hends hpfit).not.2 hjoin), if_neg hjoin]
      exact hhere hsep (by simp) (by simp only [length_cons, length_nil] at hlen ⊢; omega) (by simp)
        (hpend.lt_of_ne hjoin)
  | cons bp rest ih =>
    obtain ⟨-, hlt, hrest⟩ := sep_cons.1 hsep
    obtain ⟨hbp, hbplt, -⟩ := sep_cons.1 hrest
    have hfit' : ∀ s ∈ bp :: rest, s.Fit := fun s hs => hfit s (mem_cons_of_mem _ hs)
    have hlen' : (bp :: rest).length + slots ≤ 32767 := by
      simp only [length_cons] at hlen ⊢
      omega
    have hout' : ∀ x, a ≤ x → x < a + size → x ∉ units (bp :: rest) := fun x h1 h2 h3 =>
      hout x h1 h2 (mem_units_cons.2 (.inr h3))
    have hpbp := hlt bp mem_cons_self
    have hcond : bp.slot.mAddr ≤ (a : ℤ) ∧ bp.slot.mSize ≠ 0 ↔ bp.mAddr ≤ a :=
      ⟨fun h => Int.ofNat_le.1 h.1, fun h => ⟨Int.ofNat_le.2 h, slot_ne hbp⟩⟩
    rw [rep_cons, freeBehind, mfreeBehind]
    by_cases hle : bp.mAddr ≤ a
    · obtain ⟨o, h1, h2, h3⟩ := ih hrest hfit' hle hout' hlen' (hfit' bp mem_cons_self) (hpa hrest hle hout')
      rw [if_pos (hcond.2 hle), if_pos hle, h1, h2]
      refine ⟨_, ?_, ?_, h3.behind hsep (hpbp.trans_le hle)⟩
      · rw [Option.map_some, mfreed_behind]
      · cases o <;> rfl
    · have hlow : ∀ s ∈ bp :: rest, a + size ≤ s.mAddr := by
        have hbpa : a + size ≤ bp.mAddr := by
          by_contra hc
          exact hout' bp.mAddr (by omega) (by omega) (hrest.mem_units_self mem_cons_self)
        refine forall_mem_cons.2 ⟨hbpa, fun s hs => ?_⟩
        have := hbplt s hs
        omega
      rw [if_neg (hcond.not.2 hle), if_neg hle]
      by_cases hjoin : p.mAddr + p.mSize = a
      · rw [if_pos ((hends hpfit).2 hjoin), if_pos hjoin]
        have hp' := hslot hpfit (n := p.mSize + size) (by omega) (Int.natCast_add _ _).symm
        have hcond2 : Slot.uint ((a : ℤ) + size) = bp.slot.mAddr ↔ a + size = bp.mAddr := by
          rw [huint]
          exact Int.ofNat_inj
        by_cases hboth : a + size = bp.mAddr
        · obtain ⟨h1, h2⟩ := hfit' bp mem_cons_self
          have hin : Slot.short ((p.mSize : ℤ) + size) = ((p.mSize + size : ℕ) : ℤ) := by
            obtain ⟨h3, -⟩ := hpfit
            rw [short_of (by omega) (by omega)]
            exact (Int.natCast_add _ _).symm
          have hp'' := hslot hpfit (n := p.mSize + size + bp.mSize) (by omega) (Int.natCast_add _ _).symm
          rw [if_pos (hcond2.2 hboth), if_pos hboth]
          refine ⟨_, ?_, rfl, .close hsep hjoin hboth⟩
          have hdown := shiftDown_rep (n := slots) fun s hs => hrest.1 s (mem_cons_of_mem _ hs)
          simp only
          rw [if_neg (slot_ne hbp), hdown, show p.slot.mSize = (p.mSize : ℤ) from rfl, hin,
            show bp.slot.mSize = (bp.mSize : ℤ) from rfl, hp'']
          have hcount : Slot.short ((slots : ℤ) + 1) = ((slots + 1 : ℕ) : ℤ) := by
            simp only [length_cons] at hlen
            rw [short_of (by omega) (by omega)]
            exact (Int.natCast_add _ _).symm
          rw [hcount]
          rfl
        · rw [if_neg (hcond2.not.2 hboth), if_neg hboth]
          refine ⟨_, ?_, rfl, .grow hsep hjoin (forall_mem_cons.2 ⟨?_, fun s hs => ?_⟩)⟩
          · rw [show p.slot.mSize = (p.mSize : ℤ) from rfl, hp']
            rfl
          · exact (hlow bp mem_cons_self).lt_of_ne hboth
          · have := hlow bp mem_cons_self
            have := hbplt s hs
            omega
      · rw [if_neg ((hends hpfit).not.2 hjoin), if_neg hjoin]
        exact hhere hsep hfit' hlen' hlow (hpend.lt_of_ne hjoin)

end Mfree

section MfreeZero

variable {a n slots : ℕ} {l : List Seg} {count : ℤ}

/-- A search for no units at all changes nothing. -/
theorem freeHere_zero (ha : a < 4294967296) (hlow : ∀ s ∈ l, a < s.mAddr) :
    freeHere 0 a count (rep l (n + 1)) = some (some (rep l (n + 1), count)) ∧ mfreeHere 0 a slots l = (l, slots) := by
  have huint : Slot.uint ((a : ℤ) + 0) = a := by
    rw [Int.add_zero]
    exact uint_of (by omega) (by omega)
  cases l with
  | nil => exact ⟨by rw [rep_nil, freeHere, if_neg fun hc => hc.2 rfl]; rfl, rfl⟩
  | cons bp rest =>
    have hbp := hlow bp mem_cons_self
    have hne : ¬(Slot.uint ((a : ℤ) + 0) = bp.slot.mAddr ∧ bp.slot.mSize ≠ 0) := by
      rw [huint]
      exact fun hc => hbp.ne (Int.ofNat_inj.1 hc.1)
    rw [rep_cons, freeHere, if_neg hne, mfreeHere, if_neg (by omega : ¬a + 0 = bp.mAddr)]
    exact ⟨rfl, rfl⟩

theorem freeBehind_zero {p : Seg} (ha : a < 4294967296) (hsep : Sep (p :: l)) (hfit : ∀ s ∈ p :: l, s.Fit) :
    freeBehind 0 a count p.slot (rep l (n + 1)) = some (some (p.slot :: rep l (n + 1), count)) ∧
      mfreeBehind 0 a slots p l = (p :: l, slots) := by
  have huint : Slot.uint ((a : ℤ) + 0) = a := by
    rw [Int.add_zero]
    exact uint_of (by omega) (by omega)
  have hself : ∀ {q : Seg}, q.Fit → (⟨Slot.short (q.slot.mSize + 0), q.slot.mAddr⟩ : Slot) = q.slot := by
    intro q hq
    obtain ⟨h1, h2⟩ := hq
    rw [Int.add_zero, show q.slot.mSize = (q.mSize : ℤ) from rfl, short_of (by omega) (by omega)]
    rfl
  have hends : ∀ {q : Seg}, q.Fit → (Slot.uint (q.slot.mAddr + q.slot.mSize) = (a : ℤ) ↔ q.mAddr + q.mSize = a) := by
    intro q hq
    have hsum : Slot.uint (q.slot.mAddr + q.slot.mSize) = ((q.mAddr + q.mSize : ℕ) : ℤ) := by
      obtain ⟨h1, h2⟩ := hq
      show Slot.uint ((q.mAddr : ℤ) + q.mSize) = _
      rw [uint_of (by omega) (by omega)]
      exact (Int.natCast_add _ _).symm
    rw [hsum]
    exact Int.ofNat_inj
  have hpfit := hfit p mem_cons_self
  induction l generalizing p with
  | nil =>
    rw [rep_nil, freeBehind, if_neg fun hc => hc.2 rfl, mfreeBehind]
    by_cases hjoin : p.mAddr + p.mSize = a
    · have hne : ¬Slot.uint ((a : ℤ) + 0) = Slot.zero.mAddr := by
        rw [huint]
        have := hpfit.1
        exact Int.ofNat_ne_zero.2 (by omega)
      rw [if_pos ((hends hpfit).2 hjoin), if_neg hne, if_pos hjoin, hself hpfit]
      exact ⟨rfl, rfl⟩
    · rw [if_neg ((hends hpfit).not.2 hjoin), if_neg hjoin]
      obtain ⟨h1, h2⟩ := @freeHere_zero a n slots [] count ha (by simp)
      rw [← rep_nil, h1, h2]
      exact ⟨rfl, rfl⟩
  | cons bp rest ih =>
    obtain ⟨-, -, hrest⟩ := sep_cons.1 hsep
    obtain ⟨hbp, hlt, -⟩ := sep_cons.1 hrest
    have hfit' : ∀ s ∈ bp :: rest, s.Fit := fun s hs => hfit s (mem_cons_of_mem _ hs)
    have hcond : bp.slot.mAddr ≤ (a : ℤ) ∧ bp.slot.mSize ≠ 0 ↔ bp.mAddr ≤ a :=
      ⟨fun h => Int.ofNat_le.1 h.1, fun h => ⟨Int.ofNat_le.2 h, slot_ne hbp⟩⟩
    rw [rep_cons, freeBehind, mfreeBehind]
    by_cases hle : bp.mAddr ≤ a
    · obtain ⟨h1, h2⟩ := ih hrest hfit' (hfit' bp mem_cons_self)
      rw [if_pos (hcond.2 hle), if_pos hle, h1, h2]
      exact ⟨rfl, rfl⟩
    · have hlow : ∀ s ∈ bp :: rest, a < s.mAddr := by
        refine forall_mem_cons.2 ⟨Nat.lt_of_not_le hle, fun s hs => ?_⟩
        have := hlt s hs
        omega
      rw [if_neg (hcond.not.2 hle), if_neg hle]
      by_cases hjoin : p.mAddr + p.mSize = a
      · have hne : ¬Slot.uint ((a : ℤ) + 0) = bp.slot.mAddr := by
          rw [huint]
          exact fun hc => hle (Int.ofNat_inj.1 hc).ge
        rw [if_pos ((hends hpfit).2 hjoin), if_neg hne, if_pos hjoin, if_neg (by omega), hself hpfit]
        exact ⟨rfl, rfl⟩
      · rw [if_neg ((hends hpfit).not.2 hjoin), if_neg hjoin]
        obtain ⟨h1, h2⟩ := @freeHere_zero a n slots _ count ha hlow
        rw [← rep_cons, h1, h2]
        exact ⟨rfl, rfl⟩

theorem freeSlots_zero (ha : a < 4294967296) (hsep : Sep l) (hfit : ∀ s ∈ l, s.Fit) :
    freeSlots 0 a count (rep l (n + 1)) = some (some (rep l (n + 1), count)) ∧
      ipcmfree ⟨l, slots⟩ 0 a = ⟨l, slots⟩ := by
  cases l with
  | nil =>
    obtain ⟨h1, -⟩ := @freeHere_zero a n slots [] count ha fun s hs => absurd hs nofun
    rw [rep_nil, freeSlots, if_neg fun hc => hc.2 rfl]
    exact ⟨h1, rfl⟩
  | cons bp rest =>
    have hbp := hsep.1 bp mem_cons_self
    have hcond : bp.slot.mAddr ≤ (a : ℤ) ∧ bp.slot.mSize ≠ 0 ↔ bp.mAddr ≤ a :=
      ⟨fun h => Int.ofNat_le.1 h.1, fun h => ⟨Int.ofNat_le.2 h, slot_ne hbp⟩⟩
    rw [rep_cons, freeSlots, ipcmfree]
    by_cases hle : bp.mAddr ≤ a
    · obtain ⟨h1, h2⟩ := @freeBehind_zero a n slots _ count _ ha hsep hfit
      rw [if_pos (hcond.2 hle), h1]
      refine ⟨rfl, ?_⟩
      simp only [if_pos hle, h2]
    · obtain ⟨h1, h2⟩ := @freeHere_zero a n slots (bp :: rest) count ha <| by
        refine forall_mem_cons.2 ⟨Nat.lt_of_not_le hle, fun s hs => ?_⟩
        have := (sep_cons.1 hsep).2.1 s hs
        omega
      rw [rep_cons] at h1
      rw [if_neg (hcond.not.2 hle), h1]
      refine ⟨rfl, ?_⟩
      simp only [if_neg hle, h2]

end MfreeZero

/-- The routine does on the slots what it does on the segments. -/
theorem mfree_shows {m : Ipcmap} {mp : IpcMap} {size a : ℕ} (hshows : m.Shows mp) (hsep : Sep mp.segs)
    (hfit : ∀ s ∈ mp.segs, s.Fit) (hlen : mp.segs.length + mp.slots ≤ 32767) (ha : a < 4294967296)
    (hrange : 0 < size → 1 ≤ a ∧ a + size ≤ 32768) (hout : ∀ x, a ≤ x → x < a + size → x ∉ units mp.segs) :
    ∃ o, mfree m size a = some (o.elim (m, true) fun r => (⟨r.2, 0, rep r.1 (r.2 + 1)⟩, false)) ∧
      (∀ r, o.getD (mp.segs, mp.slots) = r → ipcmfree mp size a = ⟨r.1, r.2⟩) ∧
      Outcome size a mp.segs mp.slots o := by
  have hslots : ∃ o, freeSlots size a mp.slots (rep mp.segs (mp.slots + 1)) = some (mfreed o) ∧
      (∀ r, o.getD (mp.segs, mp.slots) = r → ipcmfree mp size a = ⟨r.1, r.2⟩) ∧
      Outcome size a mp.segs mp.slots o := by
    obtain ⟨l, slots⟩ := mp
    simp only at hsep hfit hlen hout ⊢
    rcases size.eq_zero_or_pos with rfl | hsize
    · obtain ⟨h1, h2⟩ := @freeSlots_zero a slots slots l slots ha hsep hfit
      refine ⟨some (l, slots), h1, ?_, .kept hsep rfl fun x => ⟨.inl, fun hx => hx.resolve_right (by omega)⟩⟩
      rintro r rfl
      exact h2
    · obtain ⟨ha1, hend⟩ := hrange hsize
      cases l with
      | nil =>
        obtain ⟨o, h1, h2, h3⟩ := freeHere_rep hsize ha1 hend hsep hfit nofun hlen
        refine ⟨o, ?_, ?_, h3⟩
        · rw [rep_nil, freeSlots, if_neg fun hc => hc.2 rfl]
          exact h1
        · rintro r rfl
          rw [ipcmfree]
          simp only [h2]
      | cons bp rest =>
        have hbp : 0 < bp.mSize := hsep.1 bp mem_cons_self
        have hcond : bp.slot.mAddr ≤ (a : ℤ) ∧ bp.slot.mSize ≠ 0 ↔ bp.mAddr ≤ a :=
          ⟨fun h => Int.ofNat_le.1 h.1, fun h => ⟨Int.ofNat_le.2 h, slot_ne hbp⟩⟩
        rw [rep_cons, freeSlots, ipcmfree]
        by_cases hle : bp.mAddr ≤ a
        · obtain ⟨o, h1, h2, h3⟩ := freeBehind_rep hsize ha1 hend hsep hfit hle hout hlen
          refine ⟨o, ?_, ?_, h3⟩
          · rw [if_pos (hcond.2 hle)]
            exact h1
          · rintro r rfl
            simp only [if_pos hle, h2]
        · have hlow : ∀ s ∈ bp :: rest, a + size ≤ s.mAddr := by
            have hbpa : a + size ≤ bp.mAddr := by
              by_contra hc
              exact hout bp.mAddr (by omega) (by omega) (hsep.mem_units_self mem_cons_self)
            refine forall_mem_cons.2 ⟨hbpa, fun s hs => ?_⟩
            have := (sep_cons.1 hsep).2.1 s hs
            omega
          obtain ⟨o, h1, h2, h3⟩ := freeHere_rep hsize ha1 hend hsep hfit hlow hlen
          refine ⟨o, ?_, ?_, h3⟩
          · rw [if_neg (hcond.not.2 hle)]
            exact h1
          · rintro r rfl
            simp only [if_neg hle, h2]
  obtain ⟨o, h1, h2, h3⟩ := hslots
  refine ⟨o, ?_, h2, h3⟩
  rw [mfree, hshows.slots, hshows.size, h1]
  cases o <;> rfl

/-! ### Runs -/

/-- The calls from the map `m₀` on; `used` are the units that have been taken and not given back.  Only such units are
freed.  The sleepers may be counted at any time. -/
inductive Run (m₀ : Ipcmap) : Ipcmap → Set ℕ → Prop
  | start : Run m₀ m₀ ∅
  | malloc {m m' : Ipcmap} {used : Set ℕ} {size a : ℕ} : Run m₀ m used → malloc m size = some ((a : ℤ), m') →
      Run m₀ m' {x | x ∈ used ∨ a ≠ 0 ∧ a ≤ x ∧ x < a + size}
  | mfree {m m' : Ipcmap} {used : Set ℕ} {size a : ℕ} {lost : Bool} : Run m₀ m used → a < 4294967296 →
      (∀ x, a ≤ x → x < a + size → x ∈ used) → mfree m size a = some (m', lost) →
      Run m₀ m' {x | x ∈ used ∧ ¬(a ≤ x ∧ x < a + size)}
  | want {m : Ipcmap} {used : Set ℕ} (w : ℤ) : Run m₀ m used → Run m₀ { m with want := w } used

/-- The invariant: segments in order and apart, every slot used or counted, and each of the `msgseg` units free, taken
or lost. -/
structure Good (msgmap msgseg : ℕ) (used : Set ℕ) (m : Ipcmap) (mp : IpcMap) : Prop where
  shows : m.Shows mp
  sep : Sep mp.segs
  count : mp.segs.length + mp.slots + 2 = msgmap
  free : ∀ x ∈ units mp.segs, 1 ≤ x ∧ x ≤ msgseg
  used : ∀ x ∈ used, (1 ≤ x ∧ x ≤ msgseg) ∧ x ∉ units mp.segs

/-- What the map of `msgmap` slots and `msgseg` units keeps: after any calls the invariant holds and the numbers in the
slots are those of an unbounded map; the next `ipcmalloc` and `ipcmfree` have a result, which is that on the unbounded
map, and change the free units by the range, unless `Outcome.lost`. -/
def MapKept (msgmap msgseg : ℕ) (msg : Bool) : Prop :=
  ∃ m₀, msginit msgmap msgseg msg = some m₀ ∧
    (∃ mp₀, m₀.Shows mp₀ ∧ ∀ x, x ∈ units mp₀.segs ↔ 1 ≤ x ∧ x < 1 + if msg then msgseg else 0) ∧
    ∀ m used, Run m₀ m used → ∃ mp, Good msgmap msgseg used m mp ∧
      (∀ size : ℕ, Malloced size mp (ipcmalloc mp size).1 (ipcmalloc mp size).2 ∧
        ∃ m', malloc m size = some (((ipcmalloc mp size).1 : ℤ), m') ∧ m'.Shows (ipcmalloc mp size).2) ∧
      ∀ size a : ℕ, a < 4294967296 → (∀ x, a ≤ x → x < a + size → x ∈ used) →
        ∃ o, Outcome size a mp.segs mp.slots o ∧
          mfree m size a = some (o.elim (m, true) fun r => (⟨r.2, 0, rep r.1 (r.2 + 1)⟩, false)) ∧
          ∀ r, o.getD (mp.segs, mp.slots) = r → ipcmfree mp size a = ⟨r.1, r.2⟩

section Runs

variable {msgmap msgseg : ℕ} {used : Set ℕ} {m : Ipcmap} {mp : IpcMap}

theorem Good.fit (h : Good msgmap msgseg used m mp) (hseg : msgseg < 32768) : ∀ s ∈ mp.segs, s.Fit := by
  intro s hs
  have hpos := h.sep.1 s hs
  obtain ⟨h1, -⟩ := h.free _ (h.sep.mem_units_self hs)
  obtain ⟨-, h2⟩ := h.free (s.mAddr + s.mSize - 1) (mem_units.2 ⟨s, hs, by omega, by omega⟩)
  exact ⟨h1, by omega⟩

theorem Good.malloc (h : Good msgmap msgseg used m mp) (hmap : msgmap ≤ 32769) (hseg : msgseg < 32768) (size : ℕ) :
    Malloced size mp (ipcmalloc mp size).1 (ipcmalloc mp size).2 ∧
      ∃ m', malloc m size = some (((ipcmalloc mp size).1 : ℤ), m') ∧ m'.Shows (ipcmalloc mp size).2 := by
  have hcount := h.count
  exact ⟨ipcmalloc_malloced size h.sep (h.fit hseg), malloc_shows size h.shows h.sep (h.fit hseg) (by omega)⟩

theorem Good.mfree (h : Good msgmap msgseg used m mp) (hmap : msgmap ≤ 32769) (hseg : msgseg < 32768) {size a : ℕ}
    (ha : a < 4294967296) (hin : ∀ x, a ≤ x → x < a + size → x ∈ used) :
    ∃ o, Outcome size a mp.segs mp.slots o ∧
      mfree m size a = some (o.elim (m, true) fun r => (⟨r.2, 0, rep r.1 (r.2 + 1)⟩, false)) ∧
      ∀ r, o.getD (mp.segs, mp.slots) = r → ipcmfree mp size a = ⟨r.1, r.2⟩ := by
  have hcount := h.count
  have hrange : 0 < size → 1 ≤ a ∧ a + size ≤ 32768 := by
    intro hsize
    have hfirst := (h.used a (hin a le_rfl (by omega))).1
    have hlast := (h.used (a + size - 1) (hin _ (by omega) (by omega))).1
    omega
  obtain ⟨o, h1, h2, h3⟩ := mfree_shows h.shows h.sep (h.fit hseg) (by omega) ha hrange fun x hx1 hx2 =>
    (h.used x (hin x hx1 hx2)).2
  exact ⟨o, h3, h1, h2⟩

/-- One call keeps the invariant. -/
theorem Good.malloc_step (h : Good msgmap msgseg used m mp) {size a : ℕ} {m' : Ipcmap} {mp' : IpcMap}
    (hres : Malloced size mp a mp') (hshows : m'.Shows mp') :
    Good msgmap msgseg {x | x ∈ used ∨ a ≠ 0 ∧ a ≤ x ∧ x < a + size} m' mp' := by
  have hsub : ∀ x ∈ units mp'.segs, x ∈ units mp.segs := by
    intro x hx
    by_cases ha : a = 0
    · rwa [(hres.fail ha).1] at hx
    · exact ((hres.units ha x).1 hx).1
  refine ⟨hshows, hres.sep, ?_, fun x hx => h.free x (hsub x hx), ?_⟩
  · have := hres.count
    have := h.count
    omega
  · rintro x (hx | ⟨ha, hx1, hx2⟩)
    · obtain ⟨h1, h2⟩ := h.used x hx
      exact ⟨h1, fun hc => h2 (hsub x hc)⟩
    · exact ⟨h.free x (hres.free ha x hx1 hx2), fun hc => ((hres.units ha x).1 hc).2 ⟨hx1, hx2⟩⟩

theorem Good.mfree_step (h : Good msgmap msgseg used m mp) {size a : ℕ} {o : Option (List Seg × ℕ)}
    (hin : ∀ x, a ≤ x → x < a + size → x ∈ used) (hres : Outcome size a mp.segs mp.slots o) :
    ∃ mp', Good msgmap msgseg {x | x ∈ used ∧ ¬(a ≤ x ∧ x < a + size)}
      (o.elim (m, true) fun r => (⟨r.2, 0, rep r.1 (r.2 + 1)⟩, false)).1 mp' := by
  cases hres with
  | lost => exact ⟨mp, h.shows, h.sep, h.count, h.free, fun x hx => h.used x hx.1⟩
  | @kept r h1 h2 h3 =>
    refine ⟨⟨r.1, r.2⟩, ⟨rfl, rfl⟩, h1, ?_, fun x hx => ?_, fun x hx => ⟨(h.used x hx.1).1, fun hc => ?_⟩⟩
    · have := h.count
      simp only
      omega
    · rcases (h3 x).1 hx with hx | hx
      · exact h.free x hx
      · exact (h.used x (hin x hx.1 hx.2)).1
    · rcases (h3 x).1 hc with hc | hc
      · exact (h.used x hx.1).2 hc
      · exact hx.2 hc

/-- The map of `msginit`. -/
theorem msginit_good (h3 : 3 ≤ msgmap) (hmap : msgmap ≤ 32769) (hseg : msgseg < 32768) (msg : Bool) :
    ∃ m₀ mp₀, msginit msgmap msgseg msg = some m₀ ∧ Good msgmap msgseg ∅ m₀ mp₀ ∧
      ∀ x, x ∈ units mp₀.segs ↔ 1 ≤ x ∧ x < 1 + if msg then msgseg else 0 := by
  obtain ⟨k, rfl⟩ : ∃ k, msgmap = k + 2 := ⟨msgmap - 2, by omega⟩
  have hsize : Slot.short (((k + 2 : ℕ) : ℤ) - 2) = (k : ℤ) := by
    rw [short_of (by omega) (by omega)]
    omega
  have hnil : Sep [] := ⟨nofun, List.Pairwise.nil⟩
  obtain ⟨o, h1, -, h2⟩ := @mfree_shows ⟨k, 0, List.replicate (k + 1) Slot.zero⟩ ⟨[], k⟩
    (if msg then msgseg else 0) 1 ⟨rfl, rfl⟩ hnil nofun (by simp only [length_nil]; omega)
    (by omega) (fun _ => ⟨le_rfl, by split_ifs <;> omega⟩) fun x _ _ hc => by simp [mem_units] at hc
  have hcast : ((if msg then msgseg else 0 : ℕ) : ℤ) = if msg then (msgseg : ℤ) else 0 := by
    cases msg <;> rfl
  rw [hcast] at h1
  have hinit : msginit (k + 2) msgseg msg =
      some (o.elim ((⟨k, 0, List.replicate (k + 1) Slot.zero⟩ : Ipcmap), true)
        fun r => (⟨r.2, 0, rep r.1 (r.2 + 1)⟩, false)).1 := by
    rw [msginit, hsize]
    exact congrArg (Option.map Prod.fst) h1
  cases h2 with
  | lost h4 => exact absurd h4 (by simp only; omega)
  | @kept r h4 h5 h6 =>
    have hunits : ∀ x, x ∈ units r.1 ↔ 1 ≤ x ∧ x < 1 + if msg then msgseg else 0 := fun x =>
      (h6 x).trans ⟨fun hx => hx.resolve_left fun hc => by simp [mem_units] at hc, .inr⟩
    refine ⟨_, ⟨r.1, r.2⟩, hinit, ⟨⟨rfl, rfl⟩, h4, ?_, fun x hx => ?_, nofun⟩, hunits⟩
    · simp only [length_nil] at h5 ⊢
      omega
    · have hx' := (hunits x).1 hx
      split_ifs at hx' <;> omega

end Runs

/-- Any calls of `ipcmalloc` and `ipcmfree`, for the sizes that the comment in `struct msginfo` and the configuration
allow, and as many slots as a short can count. -/
theorem ipcmap_runs {msgmap msgseg : ℕ} (h3 : 3 ≤ msgmap) (hmap : msgmap ≤ 32769) (hseg : msgseg < 32768) (msg : Bool) :
    MapKept msgmap msgseg msg := by
  obtain ⟨m₀, mp₀, hinit, hgood₀, hunits⟩ := msginit_good h3 hmap hseg msg
  refine ⟨m₀, hinit, ⟨mp₀, hgood₀.shows, hunits⟩, fun m used hrun => ?_⟩
  have hgood : ∃ mp, Good msgmap msgseg used m mp := by
    induction hrun with
    | start => exact ⟨mp₀, hgood₀⟩
    | @malloc m m' used size a _ hstep ih =>
      obtain ⟨mp, hgood⟩ := ih
      obtain ⟨hres, m'', hm, hshows⟩ := hgood.malloc hmap hseg size
      obtain ⟨ha, rfl⟩ := Prod.mk.inj (Option.some.inj (hm.symm.trans hstep))
      obtain rfl := Int.ofNat_inj.1 ha
      exact ⟨_, hgood.malloc_step hres hshows⟩
    | @mfree m m' used size a lost _ ha hin hstep ih =>
      obtain ⟨mp, hgood⟩ := ih
      obtain ⟨o, hres, hm, -⟩ := hgood.mfree hmap hseg ha hin
      obtain ⟨mp', hgood'⟩ := hgood.mfree_step hin hres
      rw [Option.some.inj (hm.symm.trans hstep)] at hgood'
      exact ⟨mp', hgood'⟩
    | want w _ ih =>
      obtain ⟨mp, hgood⟩ := ih
      exact ⟨mp, ⟨hgood.shows.slots, hgood.shows.size⟩, hgood.sep, hgood.count, hgood.free, hgood.used⟩
  obtain ⟨mp, hgood⟩ := hgood
  exact ⟨mp, hgood, hgood.malloc hmap hseg, fun size a ha hin => hgood.mfree hmap hseg ha hin⟩

/-- A small map. -/
theorem ipcmap_runs_hundred : MapKept 12 100 true := ipcmap_runs (by decide) (by decide) (by decide) true

/-- The first slot of the map, whatever the numbers are. -/
theorem msginit_first {k seg : ℕ} (hseg : (seg : ℤ) ≠ 0) (hk : Slot.short k ≠ 0) :
    msginit (k + 2) seg true = some ⟨Slot.short (Slot.short k - 1), 0, ⟨Slot.short seg, 1⟩ :: List.replicate k Slot.zero⟩ := by
  have hsize : ((k + 2 : ℕ) : ℤ) - 2 = k := by omega
  have hplace : freeSlots seg 1 (Slot.short k) (Slot.zero :: List.replicate k Slot.zero) =
      some (some (⟨Slot.short seg, Slot.ushort 1⟩ :: List.replicate k Slot.zero, Slot.short (Slot.short k - 1))) := by
    rw [freeSlots, if_neg fun hc => hc.2 rfl, freeHere, if_neg fun hc => hc.2 rfl, if_pos hseg, if_neg hk, shiftUp,
      if_pos (show Slot.zero.mSize = 0 from rfl)]
    rfl
  rw [msginit, hsize, mfree]
  show ((freeSlots seg 1 (Slot.short k) (Slot.zero :: List.replicate k Slot.zero)).map _).map Prod.fst = _
  rw [hplace]
  rfl

/-- Nothing checks the numbers: 40000 segments are -25536, and 40000 slots are -25538. -/
theorem msginit_wraps : ¬MapKept 12 40000 true ∧ ¬MapKept 40000 100 true := by
  constructor
  · rintro ⟨m₀, hinit, -, hrun⟩
    have hm₀ := Option.some.inj (hinit.symm.trans (msginit_first (k := 10) (by decide) (by decide)))
    obtain ⟨⟨segs, slots⟩, hgood, -⟩ := hrun m₀ ∅ .start
    have hslots := hgood.shows.slots
    rw [hm₀] at hslots
    cases segs with
    | nil => exact absurd (List.head_eq_of_cons_eq hslots) (by decide)
    | cons s l =>
      have hhead : Slot.short 40000 = (s.mSize : ℤ) := congrArg Slot.mSize (List.head_eq_of_cons_eq hslots)
      have hshort : Slot.short 40000 = -25536 := by decide
      omega
  · rintro ⟨m₀, hinit, -, hrun⟩
    have hm₀ := Option.some.inj (hinit.symm.trans (msginit_first (k := 39998) (by decide) (by decide)))
    obtain ⟨mp, hgood, -⟩ := hrun m₀ ∅ .start
    have hsize := hgood.shows.size
    rw [hm₀] at hsize
    have hshort : Slot.short (Slot.short 39998 - 1) = -25539 := by decide
    have hcount : Slot.short (Slot.short 39998 - 1) = (mp.slots : ℤ) := hsize
    omega

end SysV

end Hpux
