import Hpux910.Lib.Census
import Hpux910.Lib.Lts
import Mathlib

/-!
# Locking regions in memory

A process locks a pregion in memory.  The first one that locks a region reserves memory for its pages and
brings them in, which takes a while; others count themselves and wait.  The last one that unlocks the
region gives the memory back.

* `Views`, `Vm` : pregions as views of regions; the counters.
* `clockmemreserve`, `lockmemunreserve` : the memory that may be locked.
* `mlockpreg`, `pagedIn`, `wake`, `relock` : locking, from one sleep to the next.
* `munlockpreg`, `detachreg` : unlocking, and detaching a view.
* `lts`, `Kept`, `Cond` : the runs, what is kept in them, and the steps that keep it.

A step leads from where a process gives up the region to where it does so next.  The pages of a region
come and go at any time, but none of a view goes while the region is locked.
-/

namespace Hpux.Mlock

open Function

/-- Where a process is that locks a pregion: in no call, in `bring_in_pages`, waiting for `r_mlock`, or
waiting for the region with `r_mlock` seen free. -/
inductive Pc where
  | user
  | paging
  | waiting
  | woken
  deriving DecidableEq

/-- A region; `valid` are its pages in memory, and `r_nvalid` is their number. -/
structure Reg where
  mlockcnt : ℤ
  /-- `RF_MLOCKING` -/
  mlocking : Bool
  /-- `r_mlock` is taken. -/
  mlock : Bool
  refcnt : ℤ
  valid : Finset ℕ

/-- A pregion; `locked` is `PF_MLOCK`. -/
structure Preg where
  attached : Bool
  locked : Bool
  pc : Pc

/-- The region of each pregion, the pages of the region that these pregions have, and `RF_NOFREE`. -/
structure Views (P R : Type) where
  reg : P → R
  pages : R → Finset ℕ
  nofree : R → Bool
  nonempty : ∀ r, (pages r).Nonempty

/-- The counters of lockable memory, and beside them what `steal_swap` has been asked for, what has been
reserved for each region and not returned, and what there would be with nothing reserved. -/
structure Vm (P R : Type) where
  reg : R → Reg
  preg : P → Preg
  lockable : ℤ
  stolen : ℤ
  swap : ℤ
  reserved : R → ℤ
  total : ℤ

namespace Vm

variable {P R : Type} [DecidableEq P] [DecidableEq R] (v : Views P R) (s : Vm P R)

def setReg (r : R) (x : Reg) : Vm P R := { s with reg := update s.reg r x }

def setPreg (p : P) (x : Preg) : Vm P R := { s with preg := update s.preg p x }

omit [DecidableEq P] in
/-- Reserves for the region `r`; `swapOk` is what `steal_swap` answers. -/
def clockmemreserve (r : R) (size : ℕ) (swapOk : Bool) : Option (Vm P R) :=
  if swapOk = false then none
  else if (size : ℤ) ≤ s.lockable then
    some { s with
      lockable := s.lockable - size
      swap := s.swap + size
      reserved := update s.reserved r (s.reserved r + size) }
  else none

omit [DecidableEq P] in
def lockmemunreserve (r : R) (size : ℕ) : Vm P R :=
  let s := { s with swap := s.swap - size, reserved := update s.reserved r (s.reserved r - size) }
  if s.stolen ≠ 0 then
    let stolen : ℤ := s.stolen - (size : ℤ)
    if stolen < 0 then { s with lockable := s.lockable + -stolen, stolen := 0 }
    else { s with stolen := stolen }
  else { s with lockable := s.lockable + size }

/-- `mlockpreg` to where it returns, pages in or waits. -/
def mlockpreg (p : P) (swapOk : Bool) : Except Trap (Vm P R) :=
  let r := v.reg p
  if (s.reg r).mlockcnt = 0 then
    match s.clockmemreserve r (v.pages r).card swapOk with
    | none => .ok (s.setPreg p { s.preg p with locked := false })
    | some s =>
      if (s.reg r).mlock then .error .panic
      else
        let s := s.setReg r { s.reg r with mlockcnt := 1, mlocking := true, mlock := true }
        .ok (s.setPreg p { s.preg p with locked := true, pc := .paging })
  else
    let pc := if (s.reg r).mlocking then .waiting else .user
    let s := s.setReg r { s.reg r with mlockcnt := (s.reg r).mlockcnt + 1 }
    .ok (s.setPreg p { s.preg p with locked := true, pc := pc })

/-- `bring_in_pages` has come back, with all pages or with an error. -/
def pagedIn (p : P) (ok : Bool) : Vm P R :=
  let r := v.reg p
  let s := s.setReg r { s.reg r with mlock := false, mlocking := false }
  if ok then s.setPreg p { s.preg p with pc := .user }
  else
    let s := s.setReg r { s.reg r with mlockcnt := (s.reg r).mlockcnt - 1 }
    let s := s.lockmemunreserve r (v.pages r).card
    s.setPreg p { s.preg p with locked := false, pc := .user }

/-- A waiter gets `r_mlock` and gives it back. -/
def wake (p : P) : Vm P R := s.setPreg p { s.preg p with pc := .woken }

/-- It has the region and returns. -/
def relock (p : P) : Vm P R := s.setPreg p { s.preg p with pc := .user }

def munlockpreg (p : P) : Vm P R :=
  let r := v.reg p
  let s := s.setReg r { s.reg r with mlockcnt := (s.reg r).mlockcnt - 1 }
  let s := if (s.reg r).mlockcnt = 0 then s.lockmemunreserve r (s.reg r).valid.card else s
  s.setPreg p { s.preg p with locked := false }

/-- The rest of `detachreg`, with `freereg`. -/
def removePreg (p : P) : Except Trap (Vm P R) :=
  let r := v.reg p
  let s := s.setPreg p { s.preg p with attached := false }
  let s := s.setReg r { s.reg r with refcnt := (s.reg r).refcnt - 1 }
  if (s.reg r).refcnt = 0 ∧ v.nofree r = false then
    if (s.reg r).mlockcnt ≠ 0 then .error .panic
    else .ok (s.setReg r { s.reg r with valid := ∅ })
  else .ok s

def detachreg (p : P) : Except Trap (Vm P R) :=
  let s := if (s.preg p).locked then s.munlockpreg v p else s
  s.removePreg v p

/-- `attachreg` and `duppregion` -/
def attachreg (p : P) : Vm P R :=
  let r := v.reg p
  let s := s.setReg r { s.reg r with refcnt := (s.reg r).refcnt + 1 }
  s.setPreg p { attached := true, locked := false, pc := .user }

end Vm

/-! ### Runs -/

/-- `fault` and `gone` are pages that come into memory and go, `others` what the rest of the system does
to lockable memory. -/
inductive Event (P R : Type) where
  | mlock (p : P) (swapOk : Bool)
  | pagedIn (p : P) (ok : Bool)
  | wake (p : P)
  | relock (p : P)
  | munlock (p : P)
  | detach (p : P)
  | attach (p : P)
  | fault (r : R) (i : ℕ)
  | gone (r : R) (i : ℕ)
  | others (lockable stolen : ℤ)

variable {P R : Type} (v : Views P R)

/-- A pregion is locked, unlocked and detached by the process it belongs to, once; `bring_in_pages`
succeeds with all pages in memory. -/
def Enabled (s : Vm P R) : Event P R → Prop
  | .mlock p _ => (s.preg p).attached ∧ (s.preg p).locked = false ∧ (s.preg p).pc = .user
  | .pagedIn p ok => (s.preg p).pc = .paging ∧
      (ok = true → v.pages (v.reg p) ⊆ (s.reg (v.reg p)).valid)
  | .wake p => (s.preg p).pc = .waiting ∧ (s.reg (v.reg p)).mlock = false
  | .relock p => (s.preg p).pc = .woken
  | .munlock p => (s.preg p).locked ∧ (s.preg p).pc = .user
  | .detach p => (s.preg p).attached ∧ (s.preg p).pc = .user
  | .attach p => (s.preg p).attached = false
  | .fault _ _ => True
  | .gone r i => (s.reg r).mlockcnt = 0 ∨ i ∉ v.pages r
  | .others lockable stolen => 0 ≤ lockable ∧ 0 ≤ stolen

variable [DecidableEq P] [DecidableEq R]

def call (s : Vm P R) : Event P R → Except Trap (Vm P R)
  | .mlock p swapOk => s.mlockpreg v p swapOk
  | .pagedIn p ok => .ok (s.pagedIn v p ok)
  | .wake p => .ok (s.wake p)
  | .relock p => .ok (s.relock p)
  | .munlock p => .ok (s.munlockpreg v p)
  | .detach p => s.detachreg v p
  | .attach p => .ok (s.attachreg v p)
  | .fault r i => .ok (s.setReg r { s.reg r with valid := insert i (s.reg r).valid })
  | .gone r i => .ok (s.setReg r { s.reg r with valid := (s.reg r).valid.erase i })
  | .others lockable stolen => .ok { s with
      lockable := lockable
      stolen := stolen
      total := s.total + (lockable - stolen) - (s.lockable - s.stolen) }

/-- Nothing is attached, and nothing reserved. -/
def Start (s : Vm P R) : Prop :=
  (∀ r, s.reg r = { mlockcnt := 0, mlocking := false, mlock := false, refcnt := 0, valid := ∅ }) ∧
    (∀ p, (s.preg p) = { attached := false, locked := false, pc := .user }) ∧
    0 ≤ s.lockable ∧ 0 ≤ s.stolen ∧ s.swap = 0 ∧ (∀ r, s.reserved r = 0) ∧
    s.total = s.lockable - s.stolen

def lts : Lts (Except Trap (Vm P R)) (Event P R) := Lts.ofCalls Start (Enabled v) (call v)

variable [Fintype P] [Fintype R]

/-- The pregions of a region that have `PF_MLOCK` set. -/
def lockers (s : Vm P R) (r : R) : Finset P :=
  Finset.univ.filter fun p => v.reg p = r ∧ (s.preg p).locked = true

/-- `r_mlockcnt` counts the pregions that are locked; what is reserved for a region are the pages of its
views while it is locked, and nothing otherwise; a pregion whose `mlockpreg` has returned 1 is in memory and
reserved until it is unlocked; and what is not reserved is there to be reserved. -/
structure Kept (s : Vm P R) : Prop where
  counted : ∀ r, (s.reg r).mlockcnt = (lockers v s r).card
  reserved : ∀ r, s.reserved r = if (s.reg r).mlockcnt = 0 then 0 else ((v.pages r).card : ℤ)
  resident : ∀ p, (s.preg p).locked = true → (s.preg p).pc = .user →
    v.pages (v.reg p) ⊆ (s.reg (v.reg p)).valid
  balance : s.lockable - s.stolen + ∑ r, s.reserved r = s.total
  swap : s.swap = ∑ r, s.reserved r

/-- `bring_in_pages` fails for a region that nobody else has counted himself for, and the last one that
unlocks a region finds no pages of it in memory but those of its views. -/
def Cond (s : Vm P R) : Event P R → Prop
  | .pagedIn p false => (s.reg (v.reg p)).mlockcnt = 1
  | .munlock p => (s.reg (v.reg p)).mlockcnt = 1 →
      (s.reg (v.reg p)).valid.card = (v.pages (v.reg p)).card
  | .detach p => (s.preg p).locked = true → (s.reg (v.reg p)).mlockcnt = 1 →
      (s.reg (v.reg p)).valid.card = (v.pages (v.reg p)).card
  | _ => True

end Hpux.Mlock
