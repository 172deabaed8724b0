import Hpux910.Lib.Lts
import Hpux910.Sys.SysVIpc
import Mathlib

/-!
# Shared memory segments

The shared memory calls of System V, and what fork, exec and exit do to segments.  Every segment has an
address space of its own with one pregion, so that its region is there while nobody is attached.

* `ShmidDs`, `Preg`, `Shm` : the table, the pregions of address spaces, the regions.
* `shmconv`, `shmget`, `shmat`, `shmrmseg`, `detach`, `shmctl` : the calls.
* `Fork` : `dupvas`, from one place where others may run to the next.
* `shmLts`, `attached`, `expected`, `ShmKept`, `Removed` : the runs, and what holds in them.

Each call holds `shm_lock` throughout.
-/

namespace Hpux

namespace SysV

open Function

inductive ShmErr where
  | ipc (e : Errno)
  | EINVAL
  | ENOMEM
  | EMFILE
  | EPERM
  deriving DecidableEq

/-- `struct shmid_ds`; `dest`, `noswap` and `clear` are bits of `shm_perm.mode`, and `vas` is the region of
the one pregion of `shm_vas`. -/
structure ShmidDs where
  perm : IpcPerm
  dest : Bool
  noswap : Bool
  clear : Bool
  segsz : ℕ
  vas : Option ℕ
  /-- 16 bits -/
  nattch : ℕ

/-- A pregion of type `PT_SHMEM`. -/
structure Preg where
  reg : ℕ
  vaddr : ℕ
  deriving DecidableEq

/-- `shminfo` -/
structure ShmInfo where
  shmmax : ℕ
  shmmin : ℕ
  shmmni : ℕ
  shmseg : ℕ
  mni_pos : 0 < shmmni
  mni_lt : shmmni < 2 ^ 31

/-- What an address space is: none, being made by a fork, given up by it, or that of a process. -/
inductive Life where
  | none
  | made
  | undone
  | up
  deriving DecidableEq

/-- How far a process is in `dupvas`: the new address space, the pregions that have been copied (the last
one first) and those that have not, with `shm_fork` done for the first of these; or the pregions for which
`shm_fork` is to be taken back. -/
inductive Fork (P : Type) where
  | none
  | copying (child : P) (done left : List Preg) (bumped : Bool)
  | backing (child : P) (back : List Preg)

/-- An id that `shmget` has returned, with what the entry had been through then. -/
structure Given where
  id : ℤ
  slot : ℕ
  freed : ℕ
  wraps : ℕ

/-- `reg` are the reference counts of the regions that there are, and `next` the first one that has not been;
beside them, how often each entry has been freed, how often its sequence number has got back to 0, and the
ids that have been returned. -/
structure Shm (P : Type) where
  shmem : ℕ → ShmidDs
  reg : ℕ → Option ℤ
  next : ℕ
  pregs : P → List Preg
  life : P → Life
  fork : P → Fork P
  freed : ℕ → ℕ
  wraps : ℕ → ℕ
  ids : List Given

inductive Cmd where
  | rmid
  | set (uid gid mode : ℕ)
  | stat
  | lock (priv mlockOk : Bool)
  | unlock (priv : Bool)
  | other

namespace Shm

variable {P : Type} (k : ShmInfo) (s : Shm P)

def setShm (i : ℕ) (x : ShmidDs) : Shm P := { s with shmem := update s.shmem i x }

/-- `shm_perm.seq * shmmni + (sp - shmem)`, in 32 bits -/
def shmid (i : ℕ) : ℤ := (((s.shmem i).perm.seq * k.shmmni + i : ℕ) : ℤ).bmod (2 ^ 32)

def shmconv (id : ℤ) (flg : Bool) : Option ℕ :=
  if id < 0 then none
  else
    let i := (id % k.shmmni).toNat
    let sp := s.shmem i
    if sp.perm.ipcAlloc = false ∨ (flg ∧ sp.dest) ∨ id / k.shmmni ≠ sp.perm.seq then none else some i

/-- `++seq`, set back to 0 when the ids would get negative. -/
def nextSeq (i seq : ℕ) : ℕ :=
  let seq := (seq + 1) % 65536
  if ((seq * k.shmmni + i : ℕ) : ℤ).bmod (2 ^ 32) < 0 then 0 else seq

/-- The entry is free, with the next sequence number. -/
def free (i : ℕ) (x : ShmidDs) : Shm P :=
  let seq := nextSeq k i x.perm.seq
  { s.setShm i { x with
      perm := { x.perm with ipcAlloc := false, mode := 0, seq := seq }
      dest := false, noswap := false, clear := false } with
    freed := update s.freed i (s.freed i + 1)
    wraps := update s.wraps i (if seq = 0 then s.wraps i + 1 else s.wraps i) }

def allocreg : Shm P := { s with reg := update s.reg s.next (some 0), next := s.next + 1 }

def freereg (r : ℕ) : Shm P := { s with reg := update s.reg r none }

/-- The reference count goes up. -/
def attachreg (r : ℕ) : Except Trap (Shm P) :=
  match s.reg r with
  | none => .error .panic
  | some n => .ok { s with reg := update s.reg r (some (n + 1)) }

/-- It goes down. -/
def detachreg (r : ℕ) : Except Trap (Shm P) :=
  match s.reg r with
  | none => .error .panic
  | some n => if n - 1 = 0 then .ok (s.freereg r) else .ok { s with reg := update s.reg r (some (n - 1)) }

/-- The segment of a region. -/
def regtoshm (r : ℕ) : Option ℕ := (List.range k.shmmni).find? fun i => (s.shmem i).vas = some r

/-- `regOk`, `growOk` and `attachOk` are the answers of `allocreg`, `growreg` and `attachreg`. -/
def shmget (u : User) (key : ℤ) (size : ℕ) (flag : GetFlag) (regOk growOk attachOk : Bool) :
    Except ShmErr ℤ × Shm P :=
  match ipcgetperm key flag (fun i => (s.shmem i).perm) k.shmmni with
  | .error e => (.error (.ipc e), s)
  | .ok (i, true) =>
    let sp := { s.shmem i with
      perm := IpcPerm.init u key flag (s.shmem i).perm, dest := false, noswap := false, clear := false }
    if size < k.shmmin ∨ size > k.shmmax then
      (.error .EINVAL, s.setShm i { sp with perm := { sp.perm with ipcAlloc := false, mode := 0 } })
    else
      let sp := { sp with noswap := false, clear := true, segsz := size, nattch := 0 }
      if regOk = false then (.error .ENOMEM, s.free k i sp)
      else
        let r := s.next
        let s := s.allocreg
        if growOk = false then (.error .ENOMEM, (s.freereg r).free k i sp)
        else if attachOk = false then (.error .ENOMEM, (s.freereg r).free k i sp)
        else
          let s := { s with reg := update s.reg r (some 1) }
          let s := s.setShm i { sp with vas := some r }
          (.ok (s.shmid k i), s)
  | .ok (i, false) =>
    if size ≠ 0 ∧ size > (s.shmem i).segsz then (.error .EINVAL, s) else (.ok (s.shmid k i), s)

variable [DecidableEq P]

def setPregs (p : P) (l : List Preg) : Shm P := { s with pregs := update s.pregs p l }

/-- `SHM_R` and `SHM_W` -/
def SHM_R : ℕ := 256

def SHM_W : ℕ := 128

/-- `vaddr` is where `attachreg` attaches, if it does, and `mlockOk` the answer of `mlockpreg`. -/
def shmat (u : User) (p : P) (id : ℤ) (rdonly : Bool) (vaddr : Option ℕ) (mlockOk : Bool) :
    Except Trap (Except ShmErr ℕ × Shm P) :=
  if (s.pregs p).length ≥ k.shmseg then .ok (.error .EMFILE, s)
  else
    match s.shmconv k id true with
    | none => .ok (.error .EINVAL, s)
    | some i =>
      let sp := s.shmem i
      match ipcaccess u sp.perm SHM_R, if rdonly then none else ipcaccess u sp.perm SHM_W with
      | some e, _ => .ok (.error (.ipc e), s)
      | none, some e => .ok (.error (.ipc e), s)
      | none, none =>
        match sp.vas with
        | none => .error .panic
        | some r =>
          match vaddr with
          | none => .ok (.error .EINVAL, s)
          | some v => do
            let s ← s.attachreg r
            let s := s.setPregs p (⟨r, v⟩ :: s.pregs p)
            if sp.noswap ∧ mlockOk = false then do
              let s ← s.detachreg r
              pure (.error .ENOMEM, s.setPregs p ((s.pregs p).erase ⟨r, v⟩))
            else
              pure (.ok v, s.setShm i { sp with nattch := (sp.nattch + 1) % 65536, clear := false })

/-- Whether the segment has been removed. -/
def shmrmseg (i : ℕ) : Except Trap (Bool × Shm P) :=
  let sp := s.shmem i
  if sp.dest = false then .ok (false, s)
  else
    match sp.vas with
    | none => .error .panic
    | some r =>
      match s.reg r with
      | none => .error .panic
      | some n =>
        if n ≠ 1 then .ok (false, s)
        else do
          let s ← s.detachreg r
          pure (true, s.free k i { sp with vas := none, segsz := 0 })

/-- `shmdt` of a pregion, and `detachshm`. -/
def detach (p : P) (x : Preg) : Except Trap (Shm P) :=
  match s.regtoshm k x.reg with
  | none => .error .panic
  | some i => do
    let s ← (s.setPregs p ((s.pregs p).erase x)).detachreg x.reg
    let (removed, s) ← s.shmrmseg k i
    if removed then pure s
    else
      let sp := s.shmem i
      pure (s.setShm i { sp with nattch := (sp.nattch + 65535) % 65536 })

def shmdt (p : P) (addr : ℕ) : Except Trap (Shm P) :=
  match (s.pregs p).find? fun x => x.vaddr = addr with
  | none => .ok s
  | some x => s.detach k p x

omit [DecidableEq P] in
def shmctl (u : User) (id : ℤ) (cmd : Cmd) : Except Trap (Shm P) :=
  let stat := match cmd with
    | .stat => true
    | _ => false
  match s.shmconv k id (!stat) with
  | none => .ok s
  | some i =>
    let sp := s.shmem i
    let owner : Bool := u.uUid = sp.perm.uid ∨ u.uUid = sp.perm.cuid
    match cmd with
    | .rmid =>
      if owner ∨ u.suser then do
        let s := s.setShm i { sp with dest := true, perm := { sp.perm with key := IPC_PRIVATE } }
        let (_, s) ← s.shmrmseg k i
        pure s
      else .ok s
    | .set uid gid mode =>
      if owner ∨ u.suser then
        .ok (s.setShm i { sp with perm := { sp.perm with uid := uid, gid := gid, mode := mode &&& 511 } })
      else .ok s
    | .lock priv mlockOk =>
      if u.suser ∨ priv ∧ owner then
        if sp.noswap = false ∧ mlockOk then .ok (s.setShm i { sp with noswap := true }) else .ok s
      else .ok s
    | .unlock priv =>
      if u.suser ∨ priv ∧ owner then
        if sp.noswap then .ok (s.setShm i { sp with noswap := false }) else .ok s
      else .ok s
    | .stat => .ok s
    | .other => .ok s

/-! ### `dupvas` -/

def setFork (p : P) (f : Fork P) : Shm P := { s with fork := update s.fork p f }

def setLife (p : P) (l : Life) : Shm P := { s with life := update s.life p l }

omit [DecidableEq P] in
/-- `shm_fork` adds one, `shm_fork_backout` takes it back. -/
def shmFork (r : ℕ) (back : Bool) : Except Trap (Shm P) :=
  match s.regtoshm k r with
  | none => .error .panic
  | some i =>
    let sp := s.shmem i
    .ok (s.setShm i { sp with nattch := (sp.nattch + if back then 65535 else 1) % 65536 })

/-- `duppregion` of the next pregion, or that it cannot be had. -/
def copy (p child : P) (done : List Preg) (x : Preg) (left : List Preg) (ok : Bool) : Except Trap (Shm P) :=
  if ok then do
    let s ← s.attachreg x.reg
    let s := s.setPregs child (x :: s.pregs child)
    pure (s.setFork p (.copying child (x :: done) left false))
  else .ok ((s.setFork p (.backing child (x :: done))).setLife child .undone)

end Shm

/-! ### Runs -/

/-- `fail` is a fork that fails over a pregion that is none of shared memory, and `undo` is `detachreg` of a
pregion of the address space that is given up. -/
inductive ShmEvent (P : Type) where
  | get (u : User) (key : ℤ) (size : ℕ) (flag : GetFlag) (regOk growOk attachOk : Bool)
  | at (u : User) (p : P) (id : ℤ) (rdonly : Bool) (vaddr : Option ℕ) (mlockOk : Bool)
  | dt (p : P) (addr : ℕ)
  | ctl (u : User) (id : ℤ) (cmd : Cmd)
  | dispreg (p : P)
  | gone (p : P)
  | fork (p child : P)
  | bump (p : P)
  | copy (p : P) (ok : Bool)
  | fail (p : P)
  | backout (p : P)
  | undo (p : P)
  | undone (p : P)
  | forked (p : P)

variable {P : Type} (k : ShmInfo)

/-- A process that is in `dupvas` does nothing else. -/
def ShmEnabled (s : Shm P) : ShmEvent P → Prop
  | .get .. | .ctl .. => True
  | .at _ p .. | .dt p _ => s.life p = .up ∧ s.fork p = .none
  | .dispreg p => s.life p = .up ∧ s.fork p = .none ∧ s.pregs p ≠ []
  | .gone p => s.life p = .up ∧ s.fork p = .none ∧ s.pregs p = []
  | .fork p child => s.life p = .up ∧ s.fork p = .none ∧ s.life child = .none
  | .bump p => ∃ child done x left, s.fork p = .copying child done (x :: left) false
  | .copy p _ => ∃ child done x left, s.fork p = .copying child done (x :: left) true
  | .fail p => ∃ child done left, s.fork p = .copying child done left false
  | .backout p => ∃ child x back, s.fork p = .backing child (x :: back)
  | .undo p => ∃ child x l, s.fork p = .backing child [] ∧ s.pregs child = x :: l
  | .undone p => ∃ child, s.fork p = .backing child [] ∧ s.pregs child = []
  | .forked p => ∃ child done, s.fork p = .copying child done [] false

variable [DecidableEq P]

def shmCall (s : Shm P) : ShmEvent P → Except Trap (Shm P)
  | .get u key size flag regOk growOk attachOk =>
    match s.shmget k u key size flag regOk growOk attachOk with
    | (.error _, s) => .ok s
    | (.ok id, s) =>
      let i := (id % k.shmmni).toNat
      .ok { s with ids := ⟨id, i, s.freed i, s.wraps i⟩ :: s.ids }
  | .at u p id rdonly vaddr mlockOk => (s.shmat k u p id rdonly vaddr mlockOk).map Prod.snd
  | .dt p addr => s.shmdt k p addr
  | .ctl u id cmd => s.shmctl k u id cmd
  | .dispreg p => match s.pregs p with
    | [] => .ok s
    | x :: _ => s.detach k p x
  | .gone p => .ok (s.setLife p .none)
  | .fork p child => .ok ((s.setFork p (.copying child [] (s.pregs p) false)).setLife child .made)
  | .bump p => match s.fork p with
    | .copying child done (x :: left) false => do
      let s ← s.shmFork k x.reg false
      pure (s.setFork p (.copying child done (x :: left) true))
    | _ => .ok s
  | .copy p ok => match s.fork p with
    | .copying child done (x :: left) true => s.copy p child done x left ok
    | _ => .ok s
  | .fail p => match s.fork p with
    | .copying child done _ _ => .ok ((s.setFork p (.backing child done)).setLife child .undone)
    | _ => .ok s
  | .backout p => match s.fork p with
    | .backing child (x :: back) => do
      let s ← s.shmFork k x.reg true
      pure (s.setFork p (.backing child back))
    | _ => .ok s
  | .undo p => match s.fork p with
    | .backing child _ => match s.pregs child with
      | [] => .ok s
      | x :: l => do
        let s ← s.detachreg x.reg
        pure (s.setPregs child l)
    | _ => .ok s
  | .undone p => match s.fork p with
    | .backing child _ => .ok ((s.setFork p .none).setLife child .none)
    | _ => .ok s
  | .forked p => match s.fork p with
    | .copying child _ _ _ => .ok ((s.setFork p .none).setLife child .up)
    | _ => .ok s

/-- No segment and no region is there, and nothing is attached. -/
def ShmStart (s : Shm P) : Prop :=
  (∀ i, (s.shmem i).perm.ipcAlloc = false ∧ (s.shmem i).perm.seq = 0 ∧ (s.shmem i).vas = none) ∧
    (∀ r, s.reg r = none) ∧ (∀ p, s.pregs p = [] ∧ s.fork p = .none ∧ (s.life p = .none ∨ s.life p = .up)) ∧
    s.ids = []

/-- How many pregions of the list are of the region. -/
def regCount (r : ℕ) (l : List Preg) : ℕ := l.countP fun x => x.reg = r

/-- What a fork has added for the region beyond its pregions, or has not yet taken back. -/
def Fork.bumps (r : ℕ) : Fork P → ℕ
  | .none => 0
  | .copying _ _ left bumped => if bumped then regCount r (left.take 1) else 0
  | .backing _ back => regCount r back

variable [Fintype P]

omit [DecidableEq P] in
/-- The pregions that are attached to a region. -/
def attached (s : Shm P) (r : ℕ) : ℕ := ∑ p, regCount r (s.pregs p)

omit [DecidableEq P] in
/-- What is counted: those, with those of forks that have been counted already, and without those of forks
that fail. -/
def expected (s : Shm P) (r : ℕ) : ℕ :=
  ∑ p, (if s.life p = .undone then 0 else regCount r (s.pregs p)) + ∑ p, (s.fork p).bumps r

/-- A segment counts the pregions that are attached (in 16 bits; while forks are under way, as `expected`
has it); the entries that are allocated are those with a region, which has a reference for each of them
and one of its own; every pregion is one of a segment, and every region is that of one segment; a segment
that is to be removed has somebody attached; and an id that was returned before the entry was freed is
refused, until the sequence number gets back to 0. -/
structure ShmKept (s : Shm P) : Prop where
  counted : ∀ i r, (s.shmem i).vas = some r → (s.shmem i).nattch = expected s r % 65536 ∧
    ((∀ p, s.fork p = .none) → (s.shmem i).nattch = attached s r % 65536)
  alloc : ∀ i, (s.shmem i).perm.ipcAlloc = true ↔ (s.shmem i).vas ≠ none
  refcnt : ∀ i r, (s.shmem i).vas = some r → s.reg r = some (1 + (attached s r : ℤ))
  segment : ∀ r, s.reg r ≠ none → ∃! i, (s.shmem i).vas = some r
  member : ∀ p, ∀ x ∈ s.pregs p, ∃ i, (s.shmem i).vas = some x.reg
  dest : ∀ i r, (s.shmem i).vas = some r → (s.shmem i).dest = true → 0 < attached s r
  ids : ∀ g ∈ s.ids, s.wraps g.slot = g.wraps → g.freed < s.freed g.slot →
    ∀ flg, s.shmconv k g.id flg = none

omit [DecidableEq P] in
/-- A segment stays, or it is freed with its region, when nobody is attached and its removal has been asked
for. -/
def Removed (s : Shm P) (l : ShmEvent P) (s' : Shm P) : Prop :=
  ∀ i r, (s.shmem i).vas = some r →
    (s'.shmem i).vas = some r ∧ s'.freed i = s.freed i ∨
    (s'.shmem i).vas = none ∧ s'.reg r = none ∧ attached s' r = 0 ∧ s'.freed i = s.freed i + 1 ∧
      ((s.shmem i).dest = true ∨ ∃ u id, l = .ctl u id .rmid ∧ s.shmconv k id true = some i)

omit [DecidableEq P] [Fintype P] in
/-- Every entry that is allocated, every region and every pregion is as it was, and a free entry is free. -/
def Unharmed (s s' : Shm P) : Prop :=
  (∀ i, s'.shmem i = s.shmem i ∨ ((s.shmem i).perm.ipcAlloc = false ∧ (s.shmem i).vas = none ∧
    (s'.shmem i).perm.ipcAlloc = false ∧ (s'.shmem i).vas = none)) ∧
    s'.reg = s.reg ∧ s'.pregs = s.pregs

end SysV

end Hpux
