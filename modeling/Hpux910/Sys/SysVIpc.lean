import Mathlib

/-!
# Common System V IPC routines

The permission structure that semaphore sets, message queues and shared segments have in common
(`sys/sysV_ipc.c`).

* `IpcPerm`, `User` : the permission structure and the caller.
* `ipcaccess` : may the caller use the facility?
* `ipcgetperm` : find a key, or take a free entry of the facility's array for it.
* `ipcgetperm_new`, `ipcgetperm_old` : a new entry was free, and one that is found is not.
-/

namespace Hpux

namespace SysV

/-- The values of `u.u_error` that these routines set. -/
inductive Errno
  | EPERM | ENOENT | EINTR | E2BIG | EAGAIN | EACCES | EEXIST | EINVAL | EFBIG | ENOSPC | ERANGE
  | EIDRM
  deriving DecidableEq, Repr

/-- What the routines read of the `u` area. -/
structure User where
  /-- `pindx(u.u_procp)`. -/
  proc : ℕ
  /-- `u.u_procp->p_pid`. -/
  pid : ℕ
  /-- `u.u_uid`. -/
  uUid : ℕ
  /-- `u.u_gid`. -/
  uGid : ℕ
  /-- `u.u_groups`, up to the first `NOGROUP`. -/
  uGroups : List ℕ
  deriving DecidableEq, Repr

/-- `struct ipc_perm`. -/
structure IpcPerm where
  /-- `uid`, the owner. -/
  uid : ℕ
  /-- `gid`. -/
  gid : ℕ
  /-- `cuid`, the creator. -/
  cuid : ℕ
  /-- `cgid`. -/
  cgid : ℕ
  /-- The bit `IPC_ALLOC` of `mode`. -/
  ipcAlloc : Bool
  /-- The access bits of `mode`. -/
  mode : ℕ
  /-- `seq`, the number of times the entry was removed. -/
  seq : ℕ
  /-- `key`. -/
  key : ℤ
  deriving DecidableEq, Repr

/-- The flag word of the `get` calls. -/
structure GetFlag where
  /-- `IPC_CREAT`. -/
  creat : Bool
  /-- `IPC_EXCL`. -/
  excl : Bool
  /-- `flag & 0777`. -/
  mode : ℕ
  deriving DecidableEq, Repr

/-- `suser`. -/
def User.suser (u : User) : Bool := u.uUid = 0

/-- The class of the caller: how far the wanted bits are shifted. -/
def ipcShift (u : User) (p : IpcPerm) : ℕ :=
  if u.uUid = p.uid ∨ u.uUid = p.cuid then 0
  else if u.uGid = p.gid ∨ u.uGid = p.cgid ∨ (∃ g ∈ u.uGroups, p.gid = g ∨ p.cgid = g) then 3
  else 6

/-- `ipcaccess`: the error, if any. -/
def ipcaccess (u : User) (p : IpcPerm) (mode : ℕ) : Option Errno :=
  if u.uUid = 0 then none
  else if (mode >>> ipcShift u p) &&& p.mode ≠ 0 then none
  else some .EACCES

/-- `IPC_PRIVATE`. -/
def IPC_PRIVATE : ℤ := 0

/-- The `init` part of `ipcgetperm`. -/
def IpcPerm.init (u : User) (key : ℤ) (flag : GetFlag) (base : IpcPerm) : IpcPerm :=
  { base with
    ipcAlloc := true, mode := flag.mode, key := key
    cuid := u.uUid, uid := u.uUid, cgid := u.uGid, gid := u.uGid }

/-- `ipcgetperm`: the index of the entry and `*status`; the caller stores `IpcPerm.init` when the
entry is new. -/
def ipcgetperm (key : ℤ) (flag : GetFlag) (base : ℕ → IpcPerm) (cnt : ℕ) :
    Except Errno (ℕ × Bool) :=
  let avail := (List.range cnt).find? fun i => !(base i).ipcAlloc
  if key = IPC_PRIVATE then
    match avail with
    | some i => .ok (i, true)
    | none => .error .ENOSPC
  else
    match (List.range cnt).find? fun i => (base i).ipcAlloc && (base i).key == key with
    | some i =>
      if flag.creat ∧ flag.excl then .error .EEXIST
      else if flag.mode &&& (base i).mode ≠ flag.mode then .error .EACCES
      else .ok (i, false)
    | none =>
      if flag.creat = false then .error .ENOENT
      else
        match avail with
        | some i => .ok (i, true)
        | none => .error .ENOSPC

/-- A new entry was free. -/
theorem ipcgetperm_new {key : ℤ} {flag : GetFlag} {base : ℕ → IpcPerm} {cnt i : ℕ}
    (h : ipcgetperm key flag base cnt = .ok (i, true)) : i < cnt ∧ (base i).ipcAlloc = false := by
  have havail : ((List.range cnt).find? fun i => !(base i).ipcAlloc) = some i := by
    unfold ipcgetperm at h
    simp only at h
    generalize (List.range cnt).find? (fun i => !(base i).ipcAlloc) = avail at h
    by_cases hkey : key = IPC_PRIVATE
    · rw [if_pos hkey] at h
      cases avail <;> cases h
      rfl
    · rw [if_neg hkey] at h
      cases hf : (List.range cnt).find? fun i => (base i).ipcAlloc && (base i).key == key with
      | some j =>
        simp only [hf] at h
        split_ifs at h
        cases h
      | none =>
        simp only [hf] at h
        split_ifs at h
        cases avail <;> cases h
        rfl
  exact ⟨List.mem_range.1 (List.mem_of_find?_eq_some havail), by simpa using List.find?_some havail⟩

/-- An entry that is found is allocated. -/
theorem ipcgetperm_old {key : ℤ} {flag : GetFlag} {base : ℕ → IpcPerm} {cnt i : ℕ}
    (h : ipcgetperm key flag base cnt = .ok (i, false)) : i < cnt ∧ (base i).ipcAlloc = true := by
  unfold ipcgetperm at h
  simp only at h
  generalize (List.range cnt).find? (fun i => !(base i).ipcAlloc) = avail at h
  by_cases hkey : key = IPC_PRIVATE
  · rw [if_pos hkey] at h
    cases avail <;> cases h
  · rw [if_neg hkey] at h
    cases hf : (List.range cnt).find? fun i => (base i).ipcAlloc && (base i).key == key with
    | some j =>
      simp only [hf] at h
      split_ifs at h
      cases h
      have h1 := List.find?_some hf
      rw [Bool.and_eq_true] at h1
      exact ⟨List.mem_range.1 (List.mem_of_find?_eq_some hf), h1.1⟩
    | none =>
      simp only [hf] at h
      split_ifs at h
      cases avail <;> cases h

end SysV

end Hpux
