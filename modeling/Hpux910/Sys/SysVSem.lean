import Hpux910.Sys.SysVMap
import Hpux910.Sys.SemUndo
import Hpux910.Lib.Lts

/-!
# System V semaphores

The semaphore system calls (`sys/sysV_sem.c`) over the semaphore sets, the semaphores, their
allocation map, the undo table and the processes that sleep in `semop`.  What a system call does
between two points where it can sleep is one step.

* `Kernel` : the state.
* `semget`, `semRmid`, `semSetval`, `semSetall`, `semop`, `semexit` : the calls.
* `semopScan`, `semundo` : one pass of `semop` over its array, and its rollback.
* `semSys` : the transition system.
-/

namespace Hpux

namespace SysV

/-- `struct sem`. -/
structure Sem where
  /-- `semval`. -/
  semval : ℕ
  /-- `sempid`, the process that did the last operation. -/
  sempid : ℕ
  /-- `semncnt`, set while somebody waits for a larger value. -/
  semncnt : ℕ
  /-- `semzcnt`, set while somebody waits for zero. -/
  semzcnt : ℕ
  deriving DecidableEq, Repr

/-- A semaphore after `bzero`. -/
def Sem.zero : Sem := ⟨0, 0, 0, 0⟩

/-- `struct semid_ds`. -/
structure SemidDs where
  /-- `sem_perm`. -/
  semPerm : IpcPerm
  /-- `sem_base`, as an index into `sem[]`. -/
  semBase : ℕ
  /-- `sem_nsems`. -/
  semNsems : ℕ
  deriving DecidableEq, Repr

/-- `struct sembuf`. -/
structure Sembuf where
  /-- `sem_num`. -/
  semNum : ℕ
  /-- `sem_op`. -/
  semOp : ℤ
  /-- `SEM_UNDO` in `sem_flg`. -/
  semUndo : Bool
  /-- `IPC_NOWAIT` in `sem_flg`. -/
  ipcNowait : Bool
  /-- `sem_num` is an `unsigned short`. -/
  semNum_lt : semNum < 65536
  /-- `sem_op` is a `short`. -/
  semOp_short : -32768 ≤ semOp ∧ semOp < 32768
  deriving DecidableEq

/-- What processes sleep on. -/
inductive Chan
  /-- `&semp->semncnt`. -/
  | ncnt (x : ℕ)
  /-- `&semp->semzcnt`. -/
  | zcnt (x : ℕ)
  deriving DecidableEq, Repr

/-- The locals of `semop` that live across its sleeps. -/
structure SemopCall where
  /-- The caller. -/
  user : User
  /-- `uap->semid`. -/
  semid : ℤ
  /-- `sp`, as an index into `sema[]`. -/
  sp : ℕ
  /-- `semops[0..nsops]`. -/
  semops : List Sembuf
  deriving DecidableEq

/-- Where a process stands. -/
inductive SemProc
  /-- Not in `semop`. -/
  | running
  /-- In the `sleep` of `semop`; `woken` says that its channel was woken up. -/
  | asleep (c : Chan) (call : SemopCall) (woken : Bool)
  deriving DecidableEq

/-- The effect of `wakeup`. -/
def SemProc.wake (c : Chan) : SemProc → SemProc
  | .running => .running
  | .asleep c' call woken => .asleep c' call (woken || c' = c)

/-- The state of the semaphore facility. -/
structure Kernel where
  /-- `sema[]`. -/
  sema : ℕ → SemidDs
  /-- `sem[]`. -/
  sem : ℕ → Sem
  /-- `semmap`. -/
  semmap : IpcMap
  /-- `sem_undo[]`, `semu[]`, `semunp` and `semfup`. -/
  undo : UndoTab
  /-- The process table. -/
  procs : ℕ → SemProc

namespace Kernel

/-- Change one semaphore. -/
def setSem (k : Kernel) (x : ℕ) (s : Sem) : Kernel := { k with sem := Function.update k.sem x s }

/-- `wakeup`. -/
def wakeup (k : Kernel) (c : Chan) : Kernel := { k with procs := fun p => (k.procs p).wake c }

/-- Change the state of one process. -/
def setProc (k : Kernel) (p : ℕ) (st : SemProc) : Kernel :=
  { k with procs := Function.update k.procs p st }

/-- `semp->semval += d`. -/
def addVal (k : Kernel) (x : ℕ) (d : ℤ) : Kernel :=
  k.setSem x { k.sem x with semval := ushort ((k.sem x).semval + d) }

/-- `if(semp->semncnt) { semp->semncnt = 0; wakeup(&semp->semncnt); }`. -/
def wakeN (k : Kernel) (x : ℕ) : Kernel :=
  if (k.sem x).semncnt ≠ 0 then (k.setSem x { k.sem x with semncnt := 0 }).wakeup (.ncnt x) else k

/-- `if(semp->semzcnt) { semp->semzcnt = 0; wakeup(&semp->semzcnt); }`. -/
def wakeZ (k : Kernel) (x : ℕ) : Kernel :=
  if (k.sem x).semzcnt ≠ 0 then (k.setSem x { k.sem x with semzcnt := 0 }).wakeup (.zcnt x) else k

end Kernel

section

variable (I : Seminfo) (k : Kernel)

/-- `semconv`: the index of the set.  A negative id fails whatever `sema[]` is indexed with. -/
def semconv (s : ℤ) : Option ℕ :=
  let sp := (s % I.semmni).toNat
  if s < 0 ∨ (k.sema sp).semPerm.ipcAlloc = false ∨ s / I.semmni ≠ (k.sema sp).semPerm.seq then none
  else some sp

/-! ### `semget` -/

/-- `semget`. -/
def semget (u : User) (key nsems : ℤ) (semflg : GetFlag) : Kernel × Except Errno ℤ :=
  match ipcgetperm key semflg (fun i => (k.sema i).semPerm) I.semmni with
  | .error e => (k, .error e)
  | .ok (sp, true) =>
    let ds := { k.sema sp with semPerm := (k.sema sp).semPerm.init u key semflg }
    let dead := { ds with semPerm := { ds.semPerm with ipcAlloc := false, mode := 0 } }
    if nsems ≤ 0 ∨ nsems > I.semmsl then
      ({ k with sema := Function.update k.sema sp dead }, .error .EINVAL)
    else
      let x := ipcmalloc k.semmap nsems.toNat
      if x.1 = 0 then ({ k with sema := Function.update k.sema sp dead }, .error .ENOSPC)
      else
        let base := x.1 - 1
        ({ k with
          sema := Function.update k.sema sp { ds with semBase := base, semNsems := nsems.toNat }
          semmap := x.2
          sem := fun y => if base ≤ y ∧ y < base + nsems.toNat then Sem.zero else k.sem y },
          .ok (ds.semPerm.seq * I.semmni + sp))
  | .ok (sp, false) =>
    if nsems ≠ 0 ∧ (k.sema sp).semNsems < nsems then (k, .error .EINVAL)
    else (k, .ok ((k.sema sp).semPerm.seq * I.semmni + sp))

/-! ### `semctl` -/

/-- `SEM_A`. -/
def SEM_A : ℕ := 0o200

/-- `SEM_R`. -/
def SEM_R : ℕ := 0o400

/-- The body of the loop over the semaphores of a set that is removed. -/
def Kernel.clearSem (x : ℕ) : Kernel :=
  ((k.setSem x { k.sem x with semval := 0, sempid := 0 }).wakeN x).wakeZ x

/-- Set `semval` and `sempid` and wake those who wait for the new value. -/
def Kernel.putVal (u : User) (x v : ℕ) : Kernel :=
  let k1 := k.setSem x { k.sem x with semval := v, sempid := ushort u.pid }
  if v ≠ 0 then k1.wakeN x else k1.wakeZ x

/-- Do something for each semaphore of a set. -/
def Kernel.eachSem (f : Kernel → ℕ → ℕ → Kernel) (sp : ℕ) : Kernel :=
  (List.range (k.sema sp).semNsems).foldl (fun k' i => f k' ((k.sema sp).semBase + i) i) k

/-- Entries for the semaphores `low..high` of a set go away. -/
def Kernel.semunrm (id low high : ℤ) : Kernel := { k with undo := SysV.semunrm id low high k.undo }

/-- `semctl(IPC_RMID)`. -/
def semRmid (u : User) (semid : ℤ) : Kernel × Option Errno :=
  match semconv I k semid with
  | none => (k, some .EINVAL)
  | some sp =>
    let ds := k.sema sp
    if u.uUid ≠ ds.semPerm.uid ∧ u.uUid ≠ ds.semPerm.cuid ∧ u.suser = false then (k, some .EPERM)
    else
      let k1 := (k.semunrm semid 0 ds.semNsems).eachSem (fun k x _ => k.clearSem x) sp
      -- the sum is an `int`; `seq` is an `unsigned short`
      let seq := if semid + I.semmni ≥ 2 ^ 31 then 0 else (ds.semPerm.seq + 1) % 65536
      ({ k1 with
        semmap := ipcmfree k1.semmap ds.semNsems (ds.semBase + 1)
        sema := Function.update k1.sema sp
          { ds with semPerm := { ds.semPerm with ipcAlloc := false, mode := 0, seq := seq } } }, none)

/-- `semctl(SETVAL)`. -/
def semSetval (u : User) (semid : ℤ) (semnum arg : ℕ) : Kernel × Option Errno :=
  match semconv I k semid with
  | none => (k, some .EINVAL)
  | some sp =>
    let ds := k.sema sp
    match ipcaccess u ds.semPerm SEM_A with
    | some e => (k, some e)
    | none =>
      if semnum ≥ ds.semNsems then (k, some .EINVAL)
      else if arg > I.semvmx then (k, some .ERANGE)
      else ((k.putVal u (ds.semBase + semnum) arg).semunrm semid semnum semnum, none)

/-- `semctl(SETALL)` with the values that `copyin` got. -/
def semSetall (u : User) (semid : ℤ) (semvals : ℕ → ℕ) : Kernel × Option Errno :=
  match semconv I k semid with
  | none => (k, some .EINVAL)
  | some sp =>
    let ds := k.sema sp
    match ipcaccess u ds.semPerm SEM_A with
    | some e => (k, some e)
    | none =>
      if ∃ i < ds.semNsems, semvals i > I.semvmx then (k, some .ERANGE)
      else
        ((k.semunrm semid 0 ds.semNsems).eachSem (fun k x i => k.putVal u x (semvals i)) sp, none)

/-! ### `semop` -/

/-- How a pass over the operations ends. -/
inductive Pass
  /-- All operations were done. -/
  | done
  /-- Return with an error. -/
  | fail (e : Errno)
  /-- Sleep and try again. -/
  | sleep (c : Chan)
  deriving DecidableEq, Repr

/-- The body of the loop of `semop`; what follows the rollback is done by `semopTry`. -/
def semopOne (u : User) (semid : ℤ) (sp : ℕ) (op : Sembuf) : Kernel × Pass :=
  let x := (k.sema sp).semBase + op.semNum
  let semval := (k.sem x).semval
  if op.semOp > 0 then
    if op.semOp + semval > I.semvmx then (k, .fail .ERANGE)
    else
      let r := if op.semUndo then semaoe I u.proc op.semOp semid (short op.semNum) k.undo
        else (k.undo, none)
      match r with
      | (t, some e) => ({ k with undo := t }, .fail e)
      | (t, none) => ((({ k with undo := t } : Kernel).addVal x op.semOp).wakeN x, .done)
  else if op.semOp < 0 then
    if semval ≥ -op.semOp then
      let r := if op.semUndo then semaoe I u.proc op.semOp semid (short op.semNum) k.undo
        else (k.undo, none)
      match r with
      | (t, some e) => ({ k with undo := t }, .fail e)
      | (t, none) =>
        let k1 := ({ k with undo := t } : Kernel).addVal x op.semOp
        (if (k1.sem x).semval = 0 then k1.wakeZ x else k1, .done)
    else if op.ipcNowait then (k, .fail .EAGAIN)
    else (k, .sleep (.ncnt x))
  else if semval ≠ 0 then
    if op.ipcNowait then (k, .fail .EAGAIN) else (k, .sleep (.zcnt x))
  else (k, .done)

/-- The loop of `semop` up to the first operation that cannot be done, with the operations that
were done, last first. -/
def semopScan (u : User) (semid : ℤ) (sp : ℕ) :
    List Sembuf → List Sembuf → Kernel → Kernel × List Sembuf × Pass
  | dn, [], k => (k, dn, .done)
  | dn, op :: ops, k =>
    match semopOne I k u semid sp op with
    | (k', .done) => semopScan u semid sp (op :: dn) ops k'
    | (k', r) => (k', dn, r)

/-- `semundo`, with a flag that no call of `semaoe` failed. -/
def semundo (u : User) (semid : ℤ) (sp : ℕ) : List Sembuf → Kernel → Kernel × Bool
  | [], k => (k, true)
  | op :: dn, k =>
    if op.semOp = 0 then semundo u semid sp dn k
    else
      let k1 := k.addVal ((k.sema sp).semBase + op.semNum) (-op.semOp)
      let r := if op.semUndo then
          semaoe I u.proc (short (-op.semOp)) semid (short op.semNum) k1.undo
        else (k1.undo, none)
      let y := semundo u semid sp dn { k1 with undo := r.1 }
      (y.1, r.2.isNone && y.2)

/-- One pass of `semop`: the loop and, when it stops, the rollback. -/
def semopPass (u : User) (semid : ℤ) (sp : ℕ) (ops : List Sembuf) : Kernel × Pass :=
  match semopScan I u semid sp [] ops k with
  | (k', _, .done) => (k', .done)
  | (k', dn, r) => ((semundo I u semid sp dn k').1, r)

/-- `semp->semncnt++` or `semp->semzcnt++`. -/
def Kernel.count (c : Chan) : Kernel :=
  match c with
  | .ncnt x => k.setSem x { k.sem x with semncnt := ushort ((k.sem x).semncnt + 1) }
  | .zcnt x => k.setSem x { k.sem x with semzcnt := ushort ((k.sem x).semzcnt + 1) }

/-- What an interrupted sleeper does with its counter. -/
def Kernel.uncount (c : Chan) : Kernel :=
  match c with
  | .ncnt x =>
    if (k.sem x).semncnt ≤ 1 then (k.setSem x { k.sem x with semncnt := 0 }).wakeup c
    else k.setSem x { k.sem x with semncnt := (k.sem x).semncnt - 1 }
  | .zcnt x =>
    if (k.sem x).semzcnt ≤ 1 then (k.setSem x { k.sem x with semzcnt := 0 }).wakeup c
    else k.setSem x { k.sem x with semzcnt := (k.sem x).semzcnt - 1 }

/-- `sempid` of the accessed semaphores after success. -/
def Kernel.setPids (u : User) (sp : ℕ) (ops : List Sembuf) : Kernel :=
  ops.foldl (fun k op =>
    let x := (k.sema sp).semBase + op.semNum
    k.setSem x { k.sem x with sempid := ushort u.pid }) k

/-- `semop` from the label `check` on, to its return or to its sleep. -/
def semopTry (call : SemopCall) : Kernel × Option Errno :=
  match semopPass I k call.user call.semid call.sp call.semops with
  | (k', .done) => ((k'.setPids call.user call.sp call.semops).setProc call.user.proc .running, none)
  | (k', .fail e) => (k'.setProc call.user.proc .running, some e)
  | (k', .sleep c) => ((k'.count c).setProc call.user.proc (.asleep c call false), none)

/-- The first loop of `semop`: permissions and semaphore numbers. -/
def semopCheck (u : User) (ds : SemidDs) (ops : List Sembuf) : Option Errno :=
  ops.findSome? fun op =>
    (ipcaccess u ds.semPerm (if op.semOp ≠ 0 then SEM_A else SEM_R)).or
      (if op.semNum ≥ ds.semNsems then some .EFBIG else none)

/-- `semop`, up to its return or to its first sleep. -/
def semop (u : User) (semid : ℤ) (ops : List Sembuf) : Kernel × Option Errno :=
  if ops.length > I.semopm then (k, some .E2BIG)
  else
    match semconv I k semid with
    | none => (k, some .EINVAL)
    | some sp =>
      match semopCheck u (k.sema sp) ops with
      | some e => (k, some e)
      | none => semopTry I k ⟨u, semid, sp, ops⟩

/-- `semop` after its sleep. -/
def semopAgain (call : SemopCall) : Kernel × Option Errno :=
  match semconv I k call.semid with
  | none => (k.setProc call.user.proc .running, some .EIDRM)
  | some _ => semopTry I k call

/-! ### `semexit` -/

/-- The body of the loop of `semexit`. -/
def semexitOne (e : Undo) : Kernel :=
  match semconv I k e.unId with
  | none => k
  | some sp =>
    let x := ((k.sema sp).semBase + e.unNum).toNat
    let v := (k.sem x).semval + e.unAoe
    if v < 0 ∨ v > I.semvmx then k
    else
      let k1 := k.setSem x { k.sem x with semval := ushort v }
      let k2 := if v = 0 then k1.wakeZ x else k1
      if e.unAoe > 0 then k2.wakeN x else k2

/-- `semexit`. -/
def semexit (u : User) : Kernel :=
  match k.undo.semUndo u.proc with
  | none => k
  | some up =>
    let k1 := (k.undo.semu up).reverse.foldl (semexitOne I) k
    { k1 with undo := k1.undo.release u.proc up }

end

/-! ### The system -/

/-- `seminit`. -/
def seminit (I : Seminfo) : Kernel where
  sema _ := ⟨⟨0, 0, 0, 0, false, 0, 0, 0⟩, 0, 0⟩
  sem _ := Sem.zero
  semmap := ipcmfree ⟨[], I.semmap - 2⟩ I.semmns 1
  undo := ⟨fun _ => none, fun _ => [], [], List.range I.semmnu⟩
  procs _ := .running

/-- The steps. -/
inductive SemAct
  | semget (u : User) (key nsems : ℤ) (semflg : GetFlag)
  | rmid (u : User) (semid : ℤ)
  | setval (u : User) (semid : ℤ) (semnum arg : ℕ)
  | setall (u : User) (semid : ℤ) (semvals : ℕ → ℕ)
  | semop (u : User) (semid : ℤ) (ops : List Sembuf)
  /-- A process that was woken goes on in `semop`. -/
  | resume (p : ℕ)
  /-- A signal ends the sleep of a process. -/
  | intr (p : ℕ)
  | exit (u : User)

/-- One step; `none` when the action is not enabled. -/
def Kernel.step (I : Seminfo) (k : Kernel) : SemAct → Option Kernel
  | .semget u key nsems semflg =>
    match k.procs u.proc with
    | .running => some (SysV.semget I k u key nsems semflg).1
    | _ => none
  | .rmid u semid =>
    match k.procs u.proc with
    | .running => some (semRmid I k u semid).1
    | _ => none
  | .setval u semid semnum arg =>
    match k.procs u.proc with
    | .running => some (semSetval I k u semid semnum arg).1
    | _ => none
  | .setall u semid semvals =>
    match k.procs u.proc with
    | .running => some (semSetall I k u semid semvals).1
    | _ => none
  | .semop u semid ops =>
    match k.procs u.proc with
    | .running => some (SysV.semop I k u semid ops).1
    | _ => none
  | .resume p =>
    match k.procs p with
    | .asleep _ call true => some (semopAgain I k call).1
    | _ => none
  | .intr p =>
    match k.procs p with
    | .asleep c _ _ => some ((k.uncount c).setProc p .running)
    | _ => none
  | .exit u =>
    match k.procs u.proc with
    | .running => some (semexit I k u)
    | _ => none

/-- The semaphore facility, from `seminit` on. -/
def semSys (I : Seminfo) : Lts Kernel SemAct where
  init k := k = seminit I
  step k a k' := k.step I a = some k'

end SysV

end Hpux
