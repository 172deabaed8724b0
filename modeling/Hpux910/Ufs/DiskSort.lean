import Hpux910.Lib.LinkedQueue
import Hpux910.Lib.Lts
import Mathlib

/-!
# The queue of a disk

`disksort` puts a buffer into the queue of a disk.  It looks for a place from the tail on: one that
keeps the cylinders ascending, not before a buffer that hangs a process unless the new one does so
too, and then only while none of those that are passed has been pushed back too often.

* `Buf`, `State` : the buffers and the queue.
* `fits`, `scan`, `pushBack`, `insertBp`, `disksort` : the routine, cut at its loops.
* `Sys`, `system` : buffers are put into the queue and taken from its head, in any order.
-/

namespace Hpux.DiskSort

/-- `struct buf` -/
structure Buf (B : Type) where
  /-- `B_READ`, `B_WANTED` and `B_ASYNC` in `b_flags` -/
  bRead : Bool
  bWanted : Bool
  bAsync : Bool
  /-- `b_wanted` -/
  wanted : Bool
  /-- `b_cylin` -/
  cylin : ℤ
  /-- `starvecnt`, a `short` -/
  starvecnt : ℤ
  avForw : Option B
  avBack : Option B

/-- `s2d_queue_t`, and the buffers. -/
structure State (B : Type) where
  buf : B → Buf B
  head : Option B
  tail : Option B
  /-- The position of the disk head. -/
  diskpos : ℤ

/-- The greatest number of elements that are looked at. -/
def maxtravcnt : ℤ := 100

/-- The greatest number of times that a hanger can be pushed back. -/
def maxstarve : ℤ := 16

/-- `HANGER` -/
def Buf.hanger {B : Type} (b : Buf B) : Bool := b.bRead || b.bWanted || !b.bAsync || b.wanted

/-- Where a buffer goes. -/
structure Place (B : Type) where
  /-- The buffer to insert it after. -/
  pred : Option B
  seenhanger : Option B
  /-- `pushed_hanger` -/
  pushed : Bool

variable {B : Type} [DecidableEq B]

namespace State

variable (s : State B)

def setBuf (b : B) (x : Buf B) : State B := { s with buf := Function.update s.buf b x }

/-- The buffer fits behind `qb`: between two ascending elements, or where one ascending list ends and
the next begins. -/
def fits (bp qb : B) : Bool :=
  let c := (s.buf bp).cylin
  let q := s.buf qb
  match q.avForw.map fun n => (s.buf n).cylin with
  | none => q.cylin ≤ c
  | some n => q.cylin ≤ c ∧ c < n ∨ q.cylin > n ∧ (c < n ∨ c ≥ q.cylin)

/-- What follows the loop: the current position of the disk is included if the loop got that far. -/
def atEnd (bp : B) (qb pred seen : Option B) : Place B :=
  let c := (s.buf bp).cylin
  if qb = none ∧ ((s.diskpos ≤ c ∧ ∀ h ∈ s.head, c ≤ (s.buf h).cylin) ∨
      (s.buf bp).hanger ∧ seen = none) then
    ⟨none, seen, seen.isSome⟩
  else ⟨pred, seen, false⟩

/-- The loop from the tail on; `none` if it does not end. -/
def scan (bp : B) : ℕ → ℤ → Option B → Option B → Option B → Option (Place B)
  | 0, _, _, _, _ => none
  | n + 1, cnt, qb, pred, seen =>
    match qb with
    | none => some (s.atEnd bp none pred seen)
    | some q =>
      if cnt = 0 then some (s.atEnd bp (some q) pred seen)
      -- `pushed_hanger` is set only here, on the way to `done`
      else if s.fits bp q ∧ (seen.isSome ∨ (s.buf bp).hanger = false) then
        some ⟨some q, seen, seen.isSome⟩
      else
        let pred := if s.fits bp q then some q else pred
        if (s.buf bp).hanger then
          let first := seen = none ∧ (s.buf q).hanger
          let pred := if first then some q else pred
          let seen := if first then some q else seen
          if (s.buf q).hanger ∧ (s.buf q).starvecnt ≥ maxstarve then some ⟨pred, seen, false⟩
          else scan bp n (cnt - 1) (s.buf q).avBack pred seen
        else if (s.buf q).hanger then some ⟨pred, seen, false⟩
        else scan bp n (cnt - 1) (s.buf q).avBack pred seen

end State

/-- `++qb->starvecnt` -/
def Buf.starve (b : Buf B) : Buf B := { b with starvecnt := (b.starvecnt + 1).bmod (2 ^ 16) }

/-- The starve counts of the hangers that are pushed back, from `qb` to `pred`. -/
def pushBack (pred : Option B) : ℕ → Option B → State B → Except Trap (State B)
  | 0, _, _ => .error .spin
  | n + 1, qb, s =>
    if qb = pred then .ok s
    else
      match qb with
      | none => .error .panic
      | some q =>
        pushBack pred n (s.buf q).avBack
          (if (s.buf q).hanger then s.setBuf q (s.buf q).starve else s)

namespace State

variable (s : State B)

/-- `insert_bp` -/
def insertBp (pred : Option B) (bp : B) : State B :=
  let s1 :=
    match pred with
    | none =>
      let s1 := s.setBuf bp { s.buf bp with avForw := s.head }
      let s2 :=
        match s.head with
        | some h => s1.setBuf h { s1.buf h with avBack := some bp }
        | none => s1
      { s2 with head := some bp }
    | some p =>
      let s1 := s.setBuf bp { s.buf bp with avForw := (s.buf p).avForw }
      let s2 :=
        match (s1.buf p).avForw with
        | some n => s1.setBuf n { s1.buf n with avBack := some bp }
        | none => s1
      s2.setBuf p { s2.buf p with avForw := some bp }
  let s2 := s1.setBuf bp { s1.buf bp with avBack := pred }
  if (s2.buf bp).avForw = none then { s2 with tail := some bp } else s2

variable [Fintype B]

/-- `disksort(dp, bp)` -/
def disksort (bp : B) : Except Trap (State B) :=
  let cnt := if (s.buf bp).hanger then -1 else maxtravcnt
  match s.scan bp (Fintype.card B + 1) cnt s.tail s.tail none with
  | none => .error .spin
  | some p =>
    let r := if p.pushed then pushBack p.pred (Fintype.card B + 1) p.seenhanger s else .ok s
    r.map fun s => (s.setBuf bp { s.buf bp with starvecnt := 0 }).insertBp p.pred bp

/-- The buffers from a place on, in the order of the queue. -/
def listFrom (c : Option B) : List B := follow (fun b => (s.buf b).avForw) (Fintype.card B) c

/-- The buffers of the queue. -/
def list : List B := s.listFrom s.head

end State

/-! ### Runs -/

/-- A queue, and how often each buffer on it has been overtaken: how many buffers that came later
were put in front of it. -/
structure Sys (B : Type) where
  queue : State B
  overtaken : B → ℕ

inductive Event (B : Type)
  /-- A buffer comes, with these flags and this cylinder. -/
  | insert (bp : B) (bRead bWanted bAsync wanted : Bool) (cylin : ℤ)
  /-- The head is taken. -/
  | remove
  /-- The flags of a buffer change. -/
  | flags (bp : B) (bRead bWanted bAsync wanted : Bool)

namespace Sys

variable [Fintype B] (s : Sys B)

/-- A buffer comes that is not on the queue; and a buffer on it keeps its hanger status. -/
def Enabled : Event B → Prop
  | .insert bp _ _ _ _ _ => bp ∉ s.queue.list
  | .remove => True
  | .flags bp r w a x => ({ s.queue.buf bp with
      bRead := r
      bWanted := w
      bAsync := a
      wanted := x } : Buf B).hanger = (s.queue.buf bp).hanger

instance (e : Event B) : Decidable (s.Enabled e) := by
  cases e <;> unfold Enabled <;> infer_instance

/-- The driver takes the head of the queue, and the disk goes to its cylinder. -/
def removeHead (q : State B) : State B :=
  match q.head with
  | none => q
  | some h =>
    let q1 : State B := { q with
      head := (q.buf h).avForw
      diskpos := (q.buf h).cylin }
    match (q.buf h).avForw with
    | none => { q1 with tail := none }
    | some n => q1.setBuf n { q1.buf n with avBack := none }

/-- What happens. -/
def next (e : Event B) : Except Trap (Sys B) :=
  match e with
  | .insert bp r w a x c =>
    let q := s.queue.setBuf bp { s.queue.buf bp with
      bRead := r
      bWanted := w
      bAsync := a
      wanted := x
      cylin := c }
    (q.disksort bp).map fun q =>
      { queue := q
        overtaken := fun b =>
          if b = bp then 0
          else if b ∈ q.listFrom (q.buf bp).avForw then s.overtaken b + 1
          else s.overtaken b }
  | .remove => .ok { s with queue := removeHead s.queue }
  | .flags bp r w a x => .ok { s with
      queue := s.queue.setBuf bp { s.queue.buf bp with
        bRead := r
        bWanted := w
        bAsync := a
        wanted := x } }

end Sys

/-- The queue of a disk: at first it is empty. -/
def system [Fintype B] : Lts (Except Trap (Sys B)) (Event B) :=
  Lts.ofCalls (fun s => s.queue.head = none ∧ s.queue.tail = none) Sys.Enabled Sys.next

end Hpux.DiskSort
