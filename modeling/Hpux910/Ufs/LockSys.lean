import Hpux910.Ufs.Locklist
import Hpux910.Lib.Lts
import Mathlib

/-!
# Processes on the record locks

The system around the list routines: the lock lists of all inodes, the table of entries, and for
each process where it stands in `locked`.  The kernel does not preempt itself, so what a process
does between two points where it can lose the processor is one step.  These points are the call
of `deadlock`, which may ask other sites, and the `sleep`.

* `Want` : the arguments of a call of `locked`.
* `ProcState` : where a process stands; `ProcState.at` is `p_dlchan`.
* `Sys.step` : the steps, as a partial function of the state and the action.
* `lockSys n` : the transition system of `n` processes.
-/

namespace Hpux

namespace Lockf

/-- The arguments of a call of `locked` and of the `insert_lock` after it. -/
structure Want where
  /-- The inode, the range and the type. -/
  r : Req
  /-- The command and how conflicts are handled. -/
  m : Mode
  deriving DecidableEq, Repr

/-- The callers that ask for a lock go on to `insert_lock`; a test, a read and a write do not. -/
def Want.inserts (w : Want) : Bool :=
  (w.r.function = .lockf ∨ w.r.function = .fcntl) ∧ w.m.flag ≠ .test ∧ w.m.flag ≠ .getlk

/-- The lock `e` makes the caller of `locked` wait. -/
def Want.blockedBy (w : Want) (e : Lock) : Prop := lockedScan w.r w.m [e] = .block e

instance (w : Want) (e : Lock) : Decidable (w.blockedBy e) :=
  inferInstanceAs (Decidable (_ = _))

/-- Where a process stands in `locked`. -/
inductive ProcState
  /-- Not in `locked`. -/
  | idle
  /-- In `deadlock`. -/
  | hunt (a : ℕ) (w : Want)
  /-- On the sleep queue of the entry. -/
  | asleep (a : ℕ) (w : Want)
  /-- Off the sleep queue but not yet running; `intr` says that a signal came. -/
  | ready (a : ℕ) (w : Want) (intr : Bool)
  deriving DecidableEq, Repr

/-- `p_dlchan`, with the request it stands for. -/
def ProcState.at : ProcState → Option (ℕ × Want)
  | .idle => none
  | .hunt a w | .asleep a w | .ready a w _ => some (a, w)

/-- `wakeup` takes the sleepers of an entry off the queue. -/
def ProcState.wake (log : List Event) : ProcState → ProcState
  | .asleep a w => if .wakeup a ∈ log then .ready a w false else .asleep a w
  | st => st

/-- The lock lists, the table and the processes. -/
structure Sys where
  /-- `i_locklist` of each inode. -/
  lists : ℕ → List Lock
  /-- What is left of `locklist[]`. -/
  pool : Pool
  /-- The process table. -/
  proc : ℕ → ProcState

namespace Sys

variable (s : Sys)

/-- Change the state of one process. -/
def setProc (p : ℕ) (st : ProcState) : Sys := { s with proc := Function.update s.proc p st }

/-- Put a list and the pool back after a routine and deliver the wakeups. -/
def commit (ip : ℕ) (res : List Lock × Pool) : Sys where
  lists := Function.update s.lists ip res.1
  pool := { res.2 with log := [] }
  proc q := (s.proc q).wake res.2.log

/-- The pool at the start of a system call. -/
def fresh : Pool := { s.pool with uError := none, uPrelock := none }

/-- `lockinc` of a linked entry. -/
def lockinc (ip a : ℕ) : Sys :=
  { s with lists := Function.update s.lists ip ((s.lists ip).map fun e =>
      if e.addr = a then { e with llCount := e.llCount + 1 } else e) }

/-- `lockdec` of an entry that is on the list of `ip` or on none. -/
def lockdec (ip a : ℕ) : Sys :=
  match (s.lists ip).find? (fun e => e.addr = a) with
  | some e =>
    { s with
      lists := Function.update s.lists ip ((s.lists ip).map fun e =>
        if e.addr = a then { e with llCount := e.llCount - 1 } else e)
      pool := if e.llCount - 1 = 0 then { s.pool with free := a :: s.pool.free } else s.pool }
  | none =>
    match s.pool.held.find? (fun e => e.addr = a) with
    | some e =>
      { s with pool := ({ s.pool with
          held := s.pool.held.filter fun e => e.addr ≠ a } : Pool).lockdec e }
    | none => s

/-- The flag bits that `locked` sets on the entry it waits for. -/
def want (ip a : ℕ) (w : Want) : Sys :=
  { s with lists := Function.update s.lists ip ((s.lists ip).map fun e =>
      if e.addr = a then
        if w.m.flag = .setlkNfscallback then { e with nfsWants := true } else { e with iwant := true }
      else e) }

/-- The scan of `locked` from the head of the list, up to its return or to the call of `deadlock`;
when it returns 0, also the `insert_lock` of the caller. -/
def scan (p : ℕ) (w : Want) : Option Sys :=
  match lockedScan w.r w.m (s.lists w.r.ip) with
  | .clear =>
    if w.inserts then
      match insertLock w.r (s.lists w.r.ip) s.fresh with
      | .ok res => some ((s.setProc p .idle).commit w.r.ip res)
      | .error _ => none
    else some (s.setProc p .idle)
  | .fail _ | .getlk _ => some (s.setProc p .idle)
  | .block e => some ((s.lockinc w.r.ip e.addr).setProc p (.hunt e.addr w))

end Sys

/-- The actions of the processes. -/
inductive Act
  /-- Call `locked`. -/
  | call (p : ℕ) (w : Want)
  /-- `deadlock` returns; `found` says that it returned a lock. -/
  | hunted (p : ℕ) (found : Bool)
  /-- A process that was woken runs. -/
  | resume (p : ℕ)
  /-- A signal takes a process off the sleep queue. -/
  | signal (p : ℕ)
  /-- `delete_lock`. -/
  | delete (p : ℕ) (r : Req)
  /-- `unlock`. -/
  | unlock (p : ℕ) (u : U) (ip : ℕ)
  deriving DecidableEq, Repr

/-- One step; `none` when the action is not enabled. -/
def Sys.step (s : Sys) : Act → Option Sys
  | .call p w =>
    if s.proc p = .idle ∧ w.r.u.uProcp = p ∧ w.r.lb < w.r.ub then s.scan p w else none
  | .hunted p found =>
    match s.proc p with
    | .hunt a w =>
      if found then some ((s.lockdec w.r.ip a).setProc p .idle)
      -- `ILBUSY`: the entry is still on its list
      else if ∃ e ∈ s.lists w.r.ip, e.addr = a then
        if w.m.flag = .setlkNfscallback then
          some (((s.lockdec w.r.ip a).want w.r.ip a w).setProc p .idle)
        else some ((s.want w.r.ip a w).setProc p (.asleep a w))
      else (s.lockdec w.r.ip a).scan p w
    | _ => none
  | .resume p =>
    match s.proc p with
    | .ready a w intr =>
      if intr then some ((s.lockdec w.r.ip a).setProc p .idle)
      else (s.lockdec w.r.ip a).scan p w
    | _ => none
  | .signal p =>
    match s.proc p with
    | .asleep a w => some (s.setProc p (.ready a w true))
    | _ => none
  | .delete p r =>
    if s.proc p = .idle ∧ r.u.uProcp = p ∧ r.lb < r.ub then
      some (s.commit r.ip (deleteLock r (s.lists r.ip) s.fresh))
    else none
  | .unlock p u ip =>
    if s.proc p = .idle ∧ u.uProcp = p then
      some (s.commit ip (Lockf.unlock u (s.lists ip) s.fresh))
    else none

/-- The process that acts. -/
def Act.actor : Act → ℕ
  | .call p _ | .hunted p _ | .resume p | .signal p | .delete p _ | .unlock p _ _ => p

/-- The system of `n` processes, from the state in which no lock is held. -/
def lockSys (n : ℕ) : Lts Sys Act where
  init s := (∀ i, s.lists i = []) ∧ s.pool.free.Nodup ∧ s.pool.held = [] ∧ s.pool.log = [] ∧
    ∀ p, s.proc p = .idle
  step s a s' := a.actor < n ∧ s.step a = some s'

end Lockf

end Hpux
