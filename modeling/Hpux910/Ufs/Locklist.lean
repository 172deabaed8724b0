import Mathlib

/-!
# The record-lock lists of an inode

The kernel keeps the record locks of a file (`ufs/ufs_lockf.c`) on a singly linked list that hangs
off the inode.  All entries come from the table `locklist[]`; unused ones are chained through
`locklist[0]`.

* `Lock` is `struct locklist`.  The order of the entries along `ll_link` is the order of a Lean
  list, and `Lock.addr` is the entry's index in the table, so that a sleeper can name an entry.
* `Pool` is what the routines share beyond the list they edit: the free chain, the entries that
  are unlinked but still referenced, `u.u_error`, `u.u_prelock` and a log of the calls that leave
  this file (`wakeup`, `checksync`, ...).
* `insertLock`, `compressLockList`, `deleteLock`, `unlock`, `lockedScan` follow the routines of the
  same names.

In the source the list routines walk with a pointer `nl` to the entry before the current one.  A
scan here carries the entries already passed, so that "link after `nl`" is an insertion at that
place.
-/

namespace Hpux

namespace Lockf

/-- Who owns a lock: the union `ll_u`, discriminated by the flag `L_REMOTE`. -/
inductive Owner
  /-- `ll_proc`, the index of a local process. -/
  | proc (p : ℕ)
  /-- `ll_psite` and `ll_pid`, a process of another site. -/
  | remote (psite pid : ℕ)
  deriving DecidableEq, Repr

/-- Values of `ll_type` and `l_type`. -/
inductive LType
  | rdlck | wrlck | unlck
  deriving DecidableEq, Repr

/-- `enum lockf_type`. -/
inductive LockfType
  | lockf | read | write | copen | fcntl
  deriving DecidableEq, Repr

/-- The `flag` argument: the commands of `lockf` and of `fcntl`. -/
inductive Flag
  | ulock | lock | tlock | test | getlk | setlk | setlkw | setlkNfscallback
  deriving DecidableEq, Repr

/-- The error numbers these routines put in `u.u_error`. -/
inductive Errno
  | eacces | eagain | edeadlk | eintr | enolck
  deriving DecidableEq, Repr

/-- `struct locklist`. -/
structure Lock where
  /-- The index of the entry in `locklist[]`. -/
  addr : ℕ
  /-- `ll_count`: one for the list, one for each process waiting on the entry. -/
  llCount : ℕ
  /-- Flag `IWANT`: somebody sleeps on the entry. -/
  iwant : Bool
  /-- Flag `NFS_WANTS_LOCK`. -/
  nfsWants : Bool
  /-- Flag `ILBUSY`: the entry is on a list. -/
  ilbusy : Bool
  /-- `ll_u` with the flag `L_REMOTE`. -/
  owner : Owner
  /-- `ll_start`, the first byte. -/
  llStart : ℤ
  /-- `ll_end`, the first byte after the lock. -/
  llEnd : ℤ
  /-- `ll_type`. -/
  llType : LType
  /-- `ll_ip`. -/
  llIp : Option ℕ
  deriving DecidableEq, Repr

/-- Calls that leave the lock code, in the order they are made. -/
inductive Event
  /-- `wakeup(lp)`. -/
  | wakeup (addr : ℕ)
  /-- `NFS_INFORMLM(...)`. -/
  | informLm (ip : Option ℕ) (llStart llEnd : ℤ) (owner : Owner)
  /-- `checksync(ip)` under the inode's sync lock. -/
  | checksync
  /-- The `default` arm of a `switch` was taken. -/
  | defaultArm
  deriving DecidableEq, Repr

/-- What the list routines share beyond the list they edit. -/
structure Pool where
  /-- The free chain from `locklist[0].ll_link`. -/
  free : List ℕ
  /-- Entries off every list that some process still references. -/
  held : List Lock
  /-- `u.u_error`. -/
  uError : Option Errno
  /-- `u.u_prelock`: set by `deleteLock` when it gives up. -/
  uPrelock : Option ℕ
  /-- The calls made so far. -/
  log : List Event
  deriving DecidableEq, Repr

/-- The running process: `u.u_procp`, and `u.u_nsp` when it serves a remote one. -/
structure U where
  /-- `u.u_procp`. -/
  uProcp : ℕ
  /-- `u.u_nsp`: the site and pid served. -/
  uNsp : Option (ℕ × ℕ)
  deriving DecidableEq, Repr

/-- The owner that locks taken by the running process get. -/
def U.owner (u : U) : Owner :=
  match u.uNsp with
  | none => .proc u.uProcp
  | some (site, pid) => .remote site pid

/-- The arguments of a list routine. -/
structure Req where
  /-- The running process. -/
  u : U
  /-- The inode. -/
  ip : ℕ
  /-- `remoteip(ip)`: the inode lives on another site. -/
  remoteip : Bool
  /-- First byte. -/
  lb : ℤ
  /-- First byte after the range. -/
  ub : ℤ
  /-- `function`. -/
  function : LockfType
  /-- `locktype`. -/
  locktype : LType
  deriving DecidableEq, Repr

/-- `panic("compress_lock_list")`. -/
inductive Panic
  | compressLockList
  deriving DecidableEq, Repr

/-- Where an end of the requested range lies relative to an entry. -/
inductive Pos
  | before | start | middle | atEnd | after
  deriving DecidableEq, Repr

/-- The region of an entry that `x` lies in. -/
def Lock.region (cl : Lock) (x : ℤ) : Pos :=
  if x < cl.llStart then .before
  else if x = cl.llStart then .start
  else if x < cl.llEnd then .middle
  else if x = cl.llEnd then .atEnd
  else .after

/-- `find_lock_range`: the regions of `lb` and of `ub`. -/
def findLockRange (cl : Lock) (lb ub : ℤ) : Pos × Pos := (cl.region lb, cl.region ub)

/-- `is_my_lock`. -/
def isMyLock (u : U) (lp : Lock) : Bool :=
  match u.uNsp with
  | none => lp.owner == .proc u.uProcp
  | some (site, pid) => lp.owner == .remote site pid

namespace Pool

/-- Record a call. -/
def note (p : Pool) (e : Event) : Pool := { p with log := p.log ++ [e] }

/-- `lockalloc`: take the first entry of the free chain, or fail with the error of the call. -/
def lockalloc (p : Pool) (function : LockfType) : Option ℕ × Pool :=
  match p.free with
  | [] => (none, { p with uError := some (if function = .lockf then .edeadlk else .enolck) })
  | nl :: rest => (some nl, { p with free := rest })

/-- `lockadd` up to the linking: fill a fresh entry.  The caller puts it in its place. -/
def lockadd (p : Pool) (r : Req) (lb ub : ℤ) (locktype : LType) : Option Lock × Pool :=
  match p.lockalloc r.function with
  | (none, p) => (none, p)
  | (some nl, p) =>
    (some { addr := nl, llCount := 1, iwant := false, nfsWants := false, ilbusy := true,
            owner := r.u.owner, llStart := lb, llEnd := ub, llType := locktype,
            llIp := some r.ip }, p)

/-- The two notices that `lockfree` and `check_lock_sleep` give when a lock goes away. -/
def notify (p : Pool) (lp : Lock) : Lock × Pool :=
  let p1 := if lp.iwant then p.note (.wakeup lp.addr) else p
  let p2 := if lp.nfsWants then p1.note (.informLm lp.llIp lp.llStart lp.llEnd lp.owner) else p1
  ({ lp with iwant := false, nfsWants := false }, p2)

/-- `lockdec` of an entry that is on no list: the last reference puts it on the free chain. -/
def lockdec (p : Pool) (lp : Lock) : Pool :=
  if lp.llCount - 1 = 0 then { p with free := lp.addr :: p.free }
  else { p with held := { lp with llCount := lp.llCount - 1 } :: p.held }

/-- `lockfree` of an entry that has just been unlinked. -/
def lockfree (p : Pool) (lp : Lock) : Pool :=
  let (lp, p) := p.notify lp
  p.lockdec { lp with llIp := none, ilbusy := false, owner := .proc 0 }

end Pool

/-- `check_lock_sleep`. -/
def checkLockSleep (nl : Lock) (p : Pool) : Lock × Pool := p.notify nl

/-- `compress_lock_list` after the entry `nl`.  `skipped` are the entries between `nl` and `cl`:
the routine does not move `nl` over entries it leaves alone, so unlinking `cl` drops them. -/
def compressLockList (r : Req) : List Lock → List Lock → Pool → Except Panic (List Lock × Pool)
  | skipped, [], p => .ok (skipped, p)
  | skipped, cl :: rest, p =>
    if isMyLock r.u cl = true ∧ cl.llStart ≤ r.ub then
      match findLockRange cl r.lb r.ub with
      | (.before, .start) | (.before, .middle) | (.start, .middle) =>
        match compressLockList r [] rest p with
        | .ok (l, p) => .ok (skipped ++ { cl with llStart := r.ub } :: l, p)
        | .error e => .error e
      | (.before, .atEnd) | (.before, .after) | (.start, .atEnd) | (.start, .after) =>
        compressLockList r [] rest (p.lockfree cl)
      | _ => .error .compressLockList
    else compressLockList r (skipped ++ [cl]) rest p

/-- Link the entries before `nl`, `nl` included, in front of the compressed rest of the list. -/
def compressAfter (r : Req) (pre : List Lock) (rest : List Lock) (p : Pool) :
    Except Panic (List Lock × Pool) :=
  match compressLockList r [] rest p with
  | .ok (l, p) => .ok (pre ++ l, p)
  | .error e => .error e

/-- The loop of `insert_lock`.  `before` are the entries up to `found_one`, `since` the ones after
it that the scan has passed; `found` says whether `found_one` is set. -/
def insertScan (r : Req) :
    List Lock → List Lock → Bool → List Lock → Pool → Except Panic (List Lock × Pool)
  | before, since, found, [], p =>
    match p.lockadd r r.lb r.ub r.locktype with
    | (none, p) => .ok (before ++ since, p)
    | (some nl, p) =>
      if found then .ok (before ++ nl :: since, p) else .ok (before ++ since ++ [nl], p)
  | before, since, found, cl :: rest, p =>
    let pre := before ++ since
    if isMyLock r.u cl then
      match findLockRange cl r.lb r.ub with
      | (.before, .before) =>
        match p.lockadd r r.lb r.ub r.locktype with
        | (none, p) => .ok (pre ++ cl :: rest, p)
        | (some nl, p) => .ok (pre ++ nl :: cl :: rest, p)
      | (.before, .start) | (.before, .middle) =>
        if cl.llType = r.locktype then .ok (pre ++ { cl with llStart := r.lb } :: rest, p)
        else match p.lockadd r r.lb r.ub r.locktype with
          | (none, p) => .ok (pre ++ cl :: rest, p)
          | (some nl, p) => .ok (pre ++ nl :: { cl with llStart := r.ub } :: rest, p)
      | (.before, .atEnd) =>
        .ok (pre ++ { cl with llType := r.locktype, llStart := r.lb } :: rest, p)
      | (.before, .after) =>
        compressAfter r
          (pre ++ [{ cl with llType := r.locktype, llStart := r.lb, llEnd := r.ub }]) rest p
      | (.start, .start) | (.atEnd, .atEnd) =>
        .ok (pre ++ { cl with llType := r.locktype } :: rest, p)
      | (.start, .middle) =>
        if cl.llType ≠ r.locktype then
          match p.lockadd r r.lb r.ub r.locktype with
          | (none, p) => .ok (pre ++ cl :: rest, p)
          | (some nl, p) => .ok (pre ++ nl :: { cl with llStart := r.ub } :: rest, p)
        else .ok (pre ++ cl :: rest, p)
      | (.start, .atEnd) => .ok (pre ++ { cl with llType := r.locktype } :: rest, p)
      | (.start, .after) =>
        compressAfter r (pre ++ [{ cl with llType := r.locktype, llEnd := r.ub }]) rest p
      | (.middle, .middle) =>
        if cl.llType ≠ r.locktype then
          match p.lockadd r cl.llStart r.lb cl.llType with
          | (none, p) => .ok (pre ++ cl :: rest, p)
          | (some lo, p) =>
            match p.lockadd r r.lb r.ub r.locktype with
            | (none, p) => .ok (pre ++ cl :: rest, p.lockfree lo)
            | (some nl, p) => .ok (pre ++ lo :: nl :: { cl with llStart := r.ub } :: rest, p)
        else .ok (pre ++ cl :: rest, p)
      | (.middle, .atEnd) =>
        if cl.llType ≠ r.locktype then
          match p.lockadd r r.lb r.ub r.locktype with
          | (none, p) => .ok (pre ++ cl :: rest, p)
          | (some nl, p) => .ok (pre ++ { cl with llEnd := r.lb } :: nl :: rest, p)
        else .ok (pre ++ cl :: rest, p)
      | (.middle, .after) | (.atEnd, .after) =>
        if cl.llType ≠ r.locktype then
          match p.lockadd r r.lb r.ub r.locktype with
          | (none, p) => .ok (pre ++ cl :: rest, p)
          | (some nl, p) => compressAfter r (pre ++ [{ cl with llEnd := r.lb }, nl]) rest p
        else compressAfter r (pre ++ [{ cl with llEnd := r.ub }]) rest p
      | (.after, .after) => insertScan r (pre ++ [cl]) [] true rest p
      | _ => insertScan r before (since ++ [cl]) found rest (p.note .defaultArm)
    else insertScan r before (since ++ [cl]) found rest p

/-- `insert_lock`.  The first lock of a local inode is announced to the other sites. -/
def insertLock (r : Req) (l : List Lock) (p : Pool) : Except Panic (List Lock × Pool) :=
  match l with
  | [] =>
    match p.lockadd r r.lb r.ub r.locktype with
    | (none, p) => .ok ([], p)
    | (some nl, p) => .ok ([nl], if r.remoteip then p else p.note .checksync)
  | _ => insertScan r [] [] false l p

/-- The loop of `delete_lock`; the last component says that the routine returned from inside the
loop.  After an entry is trimmed the source looks at it once more and then finds it out of range,
so the scan goes on with the next one. -/
def deleteScan (r : Req) : List Lock → Pool → List Lock × Pool × Bool
  | [], p => ([], p, false)
  | nl :: rest, p =>
    let skip (nl : Lock) (p : Pool) : List Lock × Pool × Bool :=
      let (l, p, ret) := deleteScan r rest p
      (nl :: l, p, ret)
    if isMyLock r.u nl = false then skip nl p
    else if nl.llStart ≥ r.ub ∨ r.lb ≥ nl.llEnd then skip nl p
    else match findLockRange nl r.lb r.ub with
      | (.before, .middle) | (.start, .middle) =>
        let (nl, p) := checkLockSleep { nl with llStart := r.ub } p
        skip nl p
      | (.before, .atEnd) | (.before, .after) | (.start, .atEnd) | (.start, .after) =>
        if rest = [] then ([], p.lockfree nl, true) else deleteScan r rest (p.lockfree nl)
      | (.middle, .middle) =>
        match p.lockadd r r.ub nl.llEnd nl.llType with
        | (some hi, p) =>
          let (nl, p) := checkLockSleep { nl with llEnd := r.lb } p
          let (l, p, ret) := deleteScan r rest p
          (nl :: hi :: l, p, ret)
        | (none, p) => (nl :: rest, { p with uPrelock := some nl.addr }, true)
      | (.middle, .atEnd) | (.middle, .after) =>
        let (nl, p) := checkLockSleep { nl with llEnd := r.lb } p
        skip nl p
      | _ => skip nl (p.note .defaultArm)

/-- `delete_lock`.  When the list has become empty the other sites are told, unless the loop was
left by a `return`. -/
def deleteLock (r : Req) (l : List Lock) (p : Pool) : List Lock × Pool :=
  let (l, p, ret) := deleteScan r l p
  (l, if ret = false ∧ r.remoteip = false ∧ l = [] then p.note .checksync else p)

/-- `unlock`: drop every lock of the running process. -/
def unlock (u : U) : List Lock → Pool → List Lock × Pool
  | [], p => ([], p)
  | nl :: rest, p =>
    if isMyLock u nl then unlock u rest (p.lockfree nl)
    else
      let (l, p) := unlock u rest p
      (nl :: l, p)

/-- The answers of one scan of `locked`. -/
inductive Scan
  /-- No blocking lock: `return(0)`. -/
  | clear
  /-- Return non-zero, with this `u.u_error`. -/
  | fail (uError : Option Errno)
  /-- `F_GETLK` found this lock. -/
  | getlk (lp : Lock)
  /-- The process has to wait for this lock. -/
  | block (lp : Lock)
  deriving DecidableEq, Repr

/-- The arguments of `locked` that are not in `Req`. -/
structure Mode where
  /-- `flag`. -/
  flag : Flag
  /-- Enforcement mode: `IENFMT` set on a regular file without group execute permission. -/
  enforced : Bool
  /-- `fpflags` has a no-delay bit. -/
  ndelay : Bool
  deriving DecidableEq, Repr

/-- Whether a lock of type `t` conflicts with a request of type `locktype` made by `fcntl`. -/
def fcntlConflict (t locktype : LType) : Bool :=
  (t == .rdlck && locktype == .wrlck) || t == .wrlck

/-- One scan of the list by `locked`, up to the first lock that decides the call. -/
def lockedScan (r : Req) (m : Mode) : List Lock → Scan
  | [] => .clear
  | nl :: rest =>
    if isMyLock r.u nl = true ∨ r.lb ≥ nl.llEnd ∨ nl.llStart ≥ r.ub then lockedScan r m rest
    else if r.function = .copen then .fail (if m.enforced then some .eagain else none)
    else if m.flag = .test ∨ m.flag = .tlock then .fail (some .eacces)
    else if r.function = .fcntl then
      if fcntlConflict nl.llType r.locktype then
        if m.flag = .setlk then .fail (some .eacces)
        else if m.flag = .getlk then .getlk nl
        else if m.flag = .lock ∨ m.flag = .setlkw ∨ m.flag = .setlkNfscallback then .block nl
        else lockedScan r m rest
      else lockedScan r m rest
    else if r.function = .read ∨ r.function = .write then
      if r.function = .read ∧ nl.llType ≠ .wrlck then lockedScan r m rest
      else if m.enforced then
        if m.ndelay then .fail (some .eagain) else .block nl
      else lockedScan r m rest
    else if m.flag = .lock ∨ m.flag = .setlkw ∨ m.flag = .setlkNfscallback then .block nl
    else lockedScan r m rest

end Lockf

end Hpux
