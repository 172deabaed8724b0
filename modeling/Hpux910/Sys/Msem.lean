import Hpux910.Lib.Lts
import Mathlib

/-!
# Semaphores in memory mapped files

The kernel half of `msem_lock` and `msem_unlock` (`vm_msem.c`), and what the library does in user
mode.  A semaphore is two words of user memory: `locker` and `wanted`.  When nobody waits, it is
locked and unlocked without the kernel; a waiter sets `wanted`, and the kernel keeps an `msem_info`
for the semaphore as long as somebody waits.

* `Phase` : where a process can be switched away, or be between two accesses to the words.
* `State.loop` : one pass of the loop of `msleep`, after the page of the semaphore is validated.
* `State.leave` : what `msleep` does when it leaves the loop.
* `system` : the processes.
-/

namespace Hpux

namespace Msem

/-! ### The data -/

/-- `msemaphore` -/
structure Msemaphore where
  magic : BitVec 32
  /-- 0 if unlocked, otherwise the lock id of the locker. -/
  locker : BitVec 32
  wanted : BitVec 32
  deriving DecidableEq

/-- `__MSEM_MAGIC` -/
def msemMagic : BitVec 32 := 0x6d73656d

/-- A semaphore: the region, and the offset in it. -/
structure Key where
  rp : BitVec 32
  offset : BitVec 32
  deriving DecidableEq

/-- `struct msem_info`.  The hash chains and the lists of locked semaphores are lists of the
state. -/
structure MsemInfo where
  /-- `msem_locker` -/
  locker : Option ℕ
  /-- `msem_reg` -/
  reg : Option (BitVec 32)
  /-- `msem_offset` -/
  offset : BitVec 32
  waitCount : ℕ

/-- What `bzero` leaves. -/
def MsemInfo.zero : MsemInfo := ⟨none, none, 0, 0⟩

/-- The semaphore the structure is linked for. -/
def MsemInfo.key (i : MsemInfo) : Option Key := i.reg.map fun r => ⟨r, i.offset⟩

/-- `struct msem_procinfo` -/
structure ProcInfo where
  lockid : BitVec 32
  /-- `msem_waitptr` -/
  waitptr : Option ℕ
  /-- `msem_locklist` -/
  locklist : List ℕ
  deriving DecidableEq

/-- `u_error` -/
inductive Errno
  | ok | efault | einval | eagain | edeadlk | eintr
  deriving DecidableEq

/-- The arguments and the variables of a call of `msleep`. -/
structure Frame where
  key : Key
  /-- `condition == MSEM_IF_NOWAIT` -/
  nowait : Bool
  /-- `msem_iptr` -/
  iptr : ℕ
  waiting : Bool
  semCp : Msemaphore
  /-- Ghost: the call has allocated `msem_iptr` and not linked it. -/
  own : Bool
  deriving DecidableEq

/-- Where a process is. -/
inductive Phase
  /-- in user mode -/
  | user
  /-- in `msem_unlock`, between the stores and the test of `wanted` -/
  | unlocking (k : Key)
  /-- in `msleep`, allocating in `msem_proc_init` -/
  | procInit (k : Key) (nowait : Bool)
  /-- in `msleep`, allocating an `msem_info` -/
  | malloc (k : Key) (nowait : Bool)
  /-- in `msleep`, at `msem_validate` -/
  | validate (f : Frame)
  /-- in `sleep`, or made runnable by `wakeup` -/
  | asleep (f : Frame) (woken : Bool)
  /-- in `msleep`, at the last `copyout` -/
  | clear (f : Frame)
  /-- in `mwakeup`, at `msem_validate` -/
  | waking (k : Key)
  deriving DecidableEq

/-- The call of `msleep` that has its `msem_iptr`. -/
def Phase.frame : Phase → Option Frame
  | .validate f => some f
  | .asleep f _ => some f
  | _ => none

structure State where
  /-- The semaphores in the user memory. -/
  mem : Key → Msemaphore
  /-- The `msem_info` structures by address. -/
  infos : ℕ → MsemInfo
  /-- The addresses `MALLOC` has handed out for them. -/
  used : ℕ → Bool
  /-- `msem_hlist` -/
  hlist : BitVec 32 → List ℕ
  /-- `p_msem_info` -/
  procs : ℕ → Option ProcInfo
  /-- `msem_proc_list` -/
  procList : List ℕ
  /-- `msem_global_lock_id` -/
  globalLockId : BitVec 32
  error : ℕ → Errno
  phase : ℕ → Phase

/-- `msem_hash` -/
def msemHash (k : Key) : BitVec 32 :=
  let hash := k.rp ^^^ k.offset
  let hash := (hash >>> 16) ^^^ (hash &&& 0xffff)
  let hash := (hash >>> 8) ^^^ (hash &&& 0xff)
  (hash >>> 4) ^^^ (hash &&& 0xf)

namespace State

variable (s : State)

def key (a : ℕ) : Option Key := (s.infos a).key

def frame (p : ℕ) : Option Frame := (s.phase p).frame

def setPhase (p : ℕ) (x : Phase) : State := { s with phase := Function.update s.phase p x }

def setError (p : ℕ) (e : Errno) : State := { s with error := Function.update s.error p e }

def setMem (k : Key) (m : Msemaphore) : State := { s with mem := Function.update s.mem k m }

def setInfo (a : ℕ) (i : MsemInfo) : State := { s with infos := Function.update s.infos a i }

def setProc (p : ℕ) (i : Option ProcInfo) : State := { s with procs := Function.update s.procs p i }

/-- `FREE` of an `msem_info`. -/
def free (a : ℕ) : State := { s with used := Function.update s.used a false }

/-- The lock id of a process. -/
def lockid (p : ℕ) : BitVec 32 := ((s.procs p).map ProcInfo.lockid).getD 0

/-! ### The small routines -/

/-- `msem_find` -/
def msemFind (k : Key) : Option ℕ := (s.hlist (msemHash k)).find? fun a => s.key a = some k

/-- `msem_pfind` -/
def msemPfind (id : BitVec 32) : Option ℕ :=
  s.procList.find? fun p => (s.procs p).any fun i => i.lockid == id

/-- `msem_locklist_remove` -/
def msemLocklistRemove (q a : ℕ) : State :=
  s.setProc q ((s.procs q).map fun i => { i with locklist := i.locklist.erase a })

/-- The semaphore is put at the front of the list of semaphores a process has locked. -/
def locklistAdd (q a : ℕ) : State :=
  s.setProc q ((s.procs q).map fun i => { i with locklist := a :: i.locklist })

def setWaitptr (p : ℕ) (a : Option ℕ) : State :=
  s.setProc p ((s.procs p).map fun i => { i with waitptr := a })

/-- `wakeup` of the processes that sleep on an `msem_info`. -/
def wakeup (a : ℕ) : State :=
  { s with
    phase := fun p => match s.phase p with
      | .asleep f w => .asleep f (w || f.iptr == a)
      | x => x }

/-- `msem_proc_init`, when `MALLOC` has returned. -/
def msemProcInit (p : ℕ) : State :=
  let next := s.globalLockId + 1
  { s with
    procs := Function.update s.procs p (some ⟨s.globalLockId, none, []⟩)
    procList := p :: s.procList
    globalLockId := if next = 0xffffffff then 1 else next }

/-- What `msem_validate` leaves in the semaphore: the first byte of the magic number. -/
def touch (k : Key) : State :=
  s.setMem k { s.mem k with magic := ((s.mem k).magic &&& 0x00ffffff) ||| (msemMagic &&& 0xff000000) }

/-! ### `msleep` -/

/-- `msleep` has its `msem_procinfo`: it looks for the `msem_info`, or allocates one. `x` is what is
on the stack where `sem_cp` is. -/
def lookup (p : ℕ) (k : Key) (nowait : Bool) (x : Msemaphore) : State :=
  match s.msemFind k with
  | some a => s.setPhase p (.validate ⟨k, nowait, a, false, x, false⟩)
  | none => s.setPhase p (.malloc k nowait)

/-- When the cell has been allocated. -/
def malloced (p a : ℕ) (k : Key) (nowait : Bool) (x : Msemaphore) : State :=
  { s with
    infos := Function.update s.infos a .zero
    used := Function.update s.used a true
    phase := Function.update s.phase p (.validate ⟨k, nowait, a, false, x, true⟩) }

/-- `lock_pinfo` -/
def lockPinfo (f : Frame) : Option ℕ :=
  if (s.infos f.iptr).reg.isSome then (s.infos f.iptr).locker else s.msemPfind f.semCp.locker

/-- The process gets the semaphore: it is unlocked, or its locker has left it or is gone. -/
def granted (f : Frame) : Bool :=
  f.semCp.locker == 0 || (s.lockPinfo f).isNone

/-- The check for deadlock: the chain from `lock_pinfo` through the semaphores that the processes
wait for, with `n` passes of the loop. -/
def deadlock (p : ℕ) : ℕ → Option ℕ → Option Bool
  | 0, _ => none
  | _ + 1, none => some false
  | n + 1, some q =>
    match (s.procs q).bind ProcInfo.waitptr with
    | none => some false
    | some a =>
      if (s.infos a).locker = some p then some true else deadlock p n (s.infos a).locker

/-- What a pass of the loop comes to. -/
inductive Verdict
  | granted | again | deadlk | sleep
  deriving DecidableEq

/-- The checks of a pass of the loop; `none` when the check for deadlock needs more than `n`
passes. -/
def verdict (p : ℕ) (f : Frame) (n : ℕ) : Option Verdict :=
  if s.granted f then some .granted
  else if f.nowait then some .again
  else if f.waiting then some .sleep
  else (s.deadlock p n (s.lockPinfo f)).map fun d => if d then .deadlk else .sleep

/-- The process is given the lock, and there are still other waiters. -/
def own (p : ℕ) (f : Frame) : State :=
  if f.semCp.locker = s.lockid p ∧ (s.infos f.iptr).locker ≠ some p then
    let s' := match (s.infos f.iptr).locker with
      | some q => s.msemLocklistRemove q f.iptr
      | none => s
    (s'.locklistAdd p f.iptr).setInfo f.iptr { s.infos f.iptr with locker := some p }
  else s

/-- The last waiter takes the structure out of its two lists and frees it. -/
def unlink (f : Frame) : State :=
  let s' := match (s.infos f.iptr).locker with
    | some q => s.msemLocklistRemove q f.iptr
    | none => s
  { s'.free f.iptr with
    hlist := Function.update s.hlist (msemHash f.key) ((s.hlist (msemHash f.key)).erase f.iptr) }

/-- `wait_count--`, and `msem_waitptr` is cleared. -/
def unwait (p : ℕ) (f : Frame) : State :=
  let i := s.infos f.iptr
  (s.setInfo f.iptr { i with waitCount := i.waitCount - 1 }).setWaitptr p none

/-- `msleep` after the loop, up to the `copyout` that clears `wanted`. -/
def leave (p : ℕ) (f : Frame) : State :=
  if (s.infos f.iptr).reg = none then
    (s.free f.iptr).setPhase p .user
  else if f.waiting then
    if (s.infos f.iptr).waitCount = 1 then
      ((s.unwait p f).unlink f).setPhase p
        (.clear { f with semCp := { f.semCp with wanted := 0 } })
    else ((s.unwait p f).own p f).setPhase p .user
  else (s.own p f).setPhase p .user

/-- The last `copyout` of `msleep`; its error is ignored. -/
def cleared (p : ℕ) (fault : Bool) : State :=
  match s.phase p with
  | .clear f => (if fault then s else s.setMem f.key f.semCp).setPhase p .user
  | _ => s

/-- `wanted` is set, the structure is linked if it is new, and the process sleeps. -/
def gotoSleep (p : ℕ) (f : Frame) : State :=
  let cp := if f.semCp.wanted = 0 then { f.semCp with wanted := 1 } else f.semCp
  let i := s.infos f.iptr
  let fresh := i.reg.isNone
  let q := s.lockPinfo f
  let i' := if fresh then ⟨q, some f.key.rp, f.key.offset, 0⟩ else i
  let i'' := if f.waiting then i' else { i' with waitCount := i'.waitCount + 1 }
  let s1 := s.setMem f.key cp
  let s2 := match fresh, q with
    | true, some q => s1.locklistAdd q f.iptr
    | _, _ => s1
  let s3 := if f.waiting then s2 else s2.setWaitptr p (some f.iptr)
  { s3 with
    infos := Function.update s.infos f.iptr i''
    hlist := if fresh then Function.update s.hlist (msemHash f.key)
        (f.iptr :: s.hlist (msemHash f.key)) else s.hlist
    phase := Function.update s.phase p
      (.asleep { f with waiting := true, semCp := cp, own := false } false) }

/-- One pass of the loop, when the page is valid and `sem_cp` has been read.  Up to the sleep or the
return, nothing faults. -/
def loop (p : ℕ) (f : Frame) : Verdict → State
  | .granted =>
    let f' := { f with semCp := { f.semCp with locker := s.lockid p } }
    (((s.setMem f.key f'.semCp).setError p .ok).leave p f').cleared p false
  | .again => (s.setError p .eagain).leave p f
  | .deadlk => (s.setError p .edeadlk).leave p f
  | .sleep => s.gotoSleep p f

/-- What the call has in `sem_cp` after `msem_validate`. -/
def readCp (f : Frame) : Frame := { f with semCp := (s.touch f.key).mem f.key }

/-- `msem_validate` returns in `msleep`.  A fault leaves `sem_cp` as it was, and with a wrong magic
number the loop is left at once. -/
def validated (p : ℕ) (f : Frame) (fault : Bool) (n : ℕ) : State :=
  if fault then (s.setError p (if f.waiting then .einval else .efault)).leave p f
  else if (s.readCp f).semCp.magic ≠ msemMagic then
    (((s.touch f.key).setError p .einval).leave p (s.readCp f)).cleared p false
  else match s.verdict p (s.readCp f) n with
    | some v => (s.touch f.key).loop p (s.readCp f) v
    | none => s

/-! ### `mwakeup` and `msem_release` -/

/-- `mwakeup`, when `msem_validate` returns. -/
def woke (p : ℕ) (k : Key) (fault : Bool) : State :=
  if fault then (s.setError p .efault).setPhase p .user
  else
    let s' := (s.touch k).setPhase p .user
    if (s'.mem k).magic ≠ msemMagic then s'.setError p .einval
    else if (s'.mem k).wanted = 0 then s'
    else match s'.msemFind k with
      | none => s'
      | some a =>
        if (s'.mem k).locker ≠ 0 then s'
        else if (s'.procs p).isSome ∧ (s'.infos a).locker = some p then
          ((s'.msemLocklistRemove p a).setInfo a { s'.infos a with locker := none }).wakeup a
        else s'.wakeup a

/-- The loop of `msem_release`. -/
def releaseAll : State → List ℕ → State
  | s, [] => s
  | s, a :: l => releaseAll ((s.setInfo a { s.infos a with locker := none }).wakeup a) l

/-- `msem_release` -/
def msemRelease (p : ℕ) : State :=
  let s' := { s with procList := s.procList.erase p }
  (releaseAll s' (((s.procs p).map ProcInfo.locklist).getD [])).setProc p none

end State

/-! ### The processes -/

inductive Event
  /-- A process gets its lock id (`sysconf`). -/
  | lockid (p : ℕ)
  /-- `_mcas` -/
  | mcas (p : ℕ) (k : Key)
  /-- `msem_unlock`, up to the store -/
  | unlock (p : ℕ) (k : Key) (ifWaiters : Bool)
  /-- `msem_unlock` tests `wanted`. -/
  | test (p : ℕ)
  | msleep (p : ℕ) (k : Key) (nowait : Bool) (x : Msemaphore)
  | inited (p : ℕ) (x : Msemaphore)
  | malloced (p a : ℕ) (x : Msemaphore)
  | validated (p : ℕ) (fault : Bool) (n : ℕ)
  /-- A process that was made runnable runs. -/
  | resume (p : ℕ)
  /-- `sleep` returns because of a signal. -/
  | interrupt (p : ℕ)
  | cleared (p : ℕ) (fault : Bool)
  | mwakeup (p : ℕ) (k : Key)
  | woke (p : ℕ) (fault : Bool)
  /-- The process exits, and its number can be that of a new process. -/
  | exit (p : ℕ)

namespace State

variable (s : State)

/-- The event can happen. -/
def enabled : Event → Bool
  | .lockid p => s.phase p = .user && s.procs p = none
  | .mcas p _ => s.phase p = .user && s.procs p ≠ none
  | .unlock p _ _ => s.phase p = .user
  | .test p => match s.phase p with
    | .unlocking _ => true
    | _ => false
  | .msleep p _ _ _ => s.phase p = .user
  | .inited p _ => match s.phase p with
    | .procInit _ _ => true
    | _ => false
  | .malloced p a _ => match s.phase p with
    | .malloc _ _ => !s.used a
    | _ => false
  | .validated p fault n => match s.phase p with
    | .validate f =>
      fault || (s.readCp f).semCp.magic ≠ msemMagic || (s.verdict p (s.readCp f) n).isSome
    | _ => false
  | .resume p => match s.phase p with
    | .asleep _ woken => woken
    | _ => false
  | .interrupt p => match s.phase p with
    | .asleep _ _ => true
    | _ => false
  | .cleared p _ => match s.phase p with
    | .clear _ => true
    | _ => false
  | .mwakeup p _ => s.phase p = .user
  | .woke p _ => match s.phase p with
    | .waking _ => true
    | _ => false
  | .exit p => s.phase p = .user && s.procs p ≠ none

/-- What the event does. -/
def next : Event → State
  | .lockid p => s.msemProcInit p
  | .mcas p k =>
    let m := s.mem k
    if m.magic = msemMagic ∧ m.locker = 0 ∧ m.wanted = 0 then
      s.setMem k { m with locker := s.lockid p }
    else s
  | .unlock p k ifWaiters =>
    let m := s.mem k
    if m.magic ≠ msemMagic ∨ (ifWaiters ∧ m.wanted = 0) then s
    else (s.setMem k { m with locker := 0 }).setPhase p (.unlocking k)
  | .test p =>
    match s.phase p with
    | .unlocking k => s.setPhase p (if (s.mem k).wanted ≠ 0 then .waking k else .user)
    | _ => s
  | .msleep p k nowait x =>
    if (s.procs p).isNone then s.setPhase p (.procInit k nowait) else s.lookup p k nowait x
  | .inited p x =>
    match s.phase p with
    | .procInit k nowait => (s.msemProcInit p).lookup p k nowait x
    | _ => s
  | .malloced p a x =>
    match s.phase p with
    | .malloc k nowait => s.malloced p a k nowait x
    | _ => s
  | .validated p fault n =>
    match s.phase p with
    | .validate f => s.validated p f fault n
    | _ => s
  | .resume p =>
    match s.phase p with
    | .asleep f _ => s.setPhase p (.validate f)
    | _ => s
  | .interrupt p =>
    match s.phase p with
    | .asleep f _ => (s.setError p .eintr).leave p f
    | _ => s
  | .cleared p fault => s.cleared p fault
  | .mwakeup p k => s.setPhase p (.waking k)
  | .woke p fault =>
    match s.phase p with
    | .waking k => s.woke p k fault
    | _ => s
  | .exit p => s.msemRelease p

/-- The semaphores are in the memory; nobody waits. -/
def boot (mem : Key → Msemaphore) : State where
  mem
  infos _ := .zero
  used _ := false
  hlist _ := []
  procs _ := none
  procList := []
  globalLockId := 1
  error _ := .ok
  phase _ := .user

end State

/-- The processes that use the semaphores. -/
def system : Lts State Event where
  init s := ∃ mem, s = .boot mem
  step s e s' := s.enabled e ∧ s' = s.next e

end Msem

end Hpux
