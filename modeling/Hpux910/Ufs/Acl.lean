import Hpux910.Lib.Lts
import Mathlib

/-!
# Access control lists

A file has three base entries in its mode bits and up to `NOPTTUPLES` optional entries in its
continuation inode.  `insert_tuple` keeps an array of entries sorted, from the more to the less
specific, and `iget_access` relies on the order.

* `Tuple`, `insertTuple` : an entry, and the insertion into an array with unused entries at its end.
* `Inode`, `setacl`, `chown1`, `chmod` : the file and the calls that change its list.
* `igetAccess`, `vnoGetacl` : the mode that a caller gets, and the list as it is read back.
* `Tuple.Before`, `rules` : the order of the entries, and what they mean.
-/

namespace Hpux.Acl

/-- `ACL_NSUSER`: any user -/
def nsUser : ℕ := 65500
/-- `ACL_NSGROUP`: any group -/
def nsGroup : ℕ := 65500
/-- `ACLUNUSED` -/
def aclUnused : ℕ := 65501
def maxUid : ℕ := 60000
def nAclTuples : ℕ := 16
def nOptTuples : ℕ := 13

inductive Errno
  | EINVAL
  | E2BIG
  deriving DecidableEq

/-- `struct acl_tuple` -/
structure Tuple where
  uid : ℕ
  gid : ℕ
  mode : ℕ
  deriving DecidableEq

/-- `acl_tuple_unused` -/
def unused : Tuple := ⟨aclUnused, aclUnused, 0⟩

/-! ### `insert_tuple` -/

/-- What the search does at an entry: it goes on (`gt`), stops (`lt`), or finds the same ids. -/
def tupleOrder (uid gid : ℕ) (t : Tuple) : Ordering :=
  if gid = nsGroup ∧ t.uid < nsUser ∧ t.gid < nsGroup then .gt
  else if gid ≠ nsGroup ∧ uid < nsUser ∧ t.gid = nsGroup then .lt
  else if t.uid < uid then .gt
  else if uid = t.uid then
    if t.gid < gid then .gt
    else if gid = t.gid then .eq
    else .lt
  else .lt

/-- The index where an entry goes; `none` when there is one with the same ids. -/
def findPlace (uid gid : ℕ) : List Tuple → Option ℕ
  | [] => some 0
  | t :: ts =>
    match tupleOrder uid gid t with
    | .gt => (findPlace uid gid ts).map (· + 1)
    | .eq => none
    | .lt => some 0

/-- The first `maxtuples` entries of the array are looked at; those from the place to the first
open slot move up. -/
def insertTuple (acl : List Tuple) (t : Tuple) (maxtuples : ℕ) : List Tuple × Option Errno :=
  match findPlace t.uid t.gid (acl.take maxtuples) with
  | none => (acl, some .EINVAL)
  | some in1 =>
    match ((acl.take maxtuples).drop in1).findIdx? (fun x => x.uid = aclUnused) with
    | none => (acl, some .E2BIG)
    | some k => (acl.take in1 ++ t :: ((acl.drop in1).take k ++ acl.drop (in1 + k + 1)), none)

/-! ### The file -/

/-- `ACL_USER`, `ACL_GROUP`, `ACL_OTHER` -/
inductive Ugo
  | user
  | group
  | other

def Ugo.shift : Ugo → ℕ
  | user => 6
  | group => 3
  | other => 0

/-- `getbasetuple(basemode, ugo)` -/
def getbasetuple (basemode : ℕ) (ugo : Ugo) : ℕ := (basemode >>> ugo.shift) &&& 7

/-- `setbasemode(oldmode, mode, ugo)` on 16 bits -/
def setbasemode (oldmode mode : ℕ) (ugo : Ugo) : ℕ :=
  (oldmode &&& (0xffff ^^^ (7 <<< ugo.shift))) ||| (mode <<< ugo.shift)

/-- The continuation inode: the entries, and what follows them in `icc_spare` as far as
`insert_tuple` may look at it. -/
structure Cont where
  acl : List Tuple
  spare : List Tuple

structure Inode where
  /-- `i_uid` -/
  uid : ℕ
  /-- `i_gid` -/
  gid : ℕ
  /-- `i_mode` -/
  mode : ℕ
  /-- `i_contip` -/
  cont : Option Cont

/-- `check_acl_tuple(ip, tp)`; the error stays in `u_error`. -/
def checkAclTuple (ip : Inode) (uid gid : ℕ) : Inode × Option Errno :=
  match ip.cont with
  | none => (ip, none)
  | some cip =>
    match cip.acl.findIdx? (fun t => t.uid = uid ∧ t.gid = gid) with
    | none => (ip, none)
    | some i =>
      let savemode := (cip.acl.getD i unused).mode
      let ugo := if gid = nsGroup then Ugo.user else .group
      let old : Tuple :=
        if gid = nsGroup then ⟨ip.uid, nsGroup, getbasetuple ip.mode .user⟩
        else ⟨nsUser, ip.gid, getbasetuple ip.mode .group⟩
      -- the bound is that of a whole list, not of the optional entries
      let (acl, err) := insertTuple (cip.acl.eraseIdx i ++ [unused] ++ cip.spare) old nAclTuples
      ({ ip with
          mode := setbasemode ip.mode savemode ugo
          cont := some ⟨acl.take nOptTuples, acl.drop nOptTuples⟩ }, err)

/-- `UID_NO_CHANGE` and `GID_NO_CHANGE` as 16 bits -/
def noChange : ℕ := 65535

/-- The id after the call. -/
def newId (old new : ℕ) : ℕ := if new = noChange then old else new

/-- Where the owner changes, an optional entry of the new owner goes. -/
def chownUser (ip : Inode) (uid : ℕ) : Inode × Option Errno :=
  if uid ≠ ip.uid then checkAclTuple ip uid nsGroup else (ip, none)

/-- The same for the group. -/
def chownGroup (ip : Inode) (gid : ℕ) : Inode × Option Errno :=
  if gid ≠ ip.gid then checkAclTuple ip nsUser gid else (ip, none)

/-- `chown1` after its checks of the caller; `clear` when it takes the set-id bits away. -/
def chown1 (ip : Inode) (uid gid : ℕ) (clear : Bool) : Inode × Option Errno :=
  if maxUid ≤ uid ∧ uid ≠ noChange ∨ maxUid ≤ gid ∧ gid ≠ noChange then (ip, some .EINVAL)
  else
    let r1 := chownUser ip (newId ip.uid uid)
    let r2 := chownGroup r1.1 (newId ip.gid gid)
    ({ r2.1 with
        uid := newId ip.uid uid
        gid := newId ip.gid gid
        mode := if clear then r2.1.mode &&& (0xffff ^^^ 0o6000) else r2.1.mode }, r2.2.or r1.2)

/-- `va_mode` in `ufs_setattr`; `keep` are the bits that the caller may set.  The optional entries
are deleted. -/
def chmod (ip : Inode) (mode keep : ℕ) : Inode :=
  { ip with
    mode := (ip.mode &&& 0o170000) ||| (mode &&& (0xffff ^^^ 0o170000) &&& keep)
    cont := none }

/-- The loop of `ufs_setacl`: the entries so far, the mode bits, the base entries that are set and
the number of optional ones. -/
structure Scan where
  acl : List Tuple
  imode : ℕ
  chkbase : Ugo → Bool
  nopttuples : ℕ

/-- A base entry. -/
def Scan.base (sc : Scan) (tp : Tuple) (ugo : Ugo) : Except Errno Scan :=
  if sc.chkbase ugo = true then .error .EINVAL
  else .ok { sc with
    imode := setbasemode sc.imode tp.mode ugo
    chkbase := fun o => if o.shift = ugo.shift then true else sc.chkbase o }

/-- One round of the loop. -/
def Scan.add (ip : Inode) (sc : Scan) (tp : Tuple) : Except Errno Scan :=
  if maxUid ≤ tp.uid ∧ tp.uid ≠ nsUser ∨ maxUid ≤ tp.gid ∧ tp.gid ≠ nsGroup ∨ 7 < tp.mode then
    .error .EINVAL
  else if tp.uid = nsUser ∧ tp.gid = nsGroup then sc.base tp .other
  else if tp.uid = nsUser ∧ tp.gid = ip.gid then sc.base tp .group
  else if tp.uid ≠ nsUser ∧ tp.gid = nsGroup ∧ tp.uid = ip.uid then sc.base tp .user
  else
    match insertTuple sc.acl tp nOptTuples with
    | (acl, none) => .ok { sc with acl := acl, nopttuples := sc.nopttuples + 1 }
    | (_, some e) => .error e

def Scan.run (ip : Inode) : Scan → List Tuple → Except Errno Scan
  | sc, [] => .ok sc
  | sc, tp :: tps =>
    match sc.add ip tp with
    | .ok sc' => Scan.run ip sc' tps
    | .error e => .error e

/-- `ufs_setacl` for the owner; `none` as the list is a negative number of entries, `keep` as in
`chmod`, and `room` is what `ialloc` finds: an inode with something in `icc_spare`. -/
def setacl (ip : Inode) (tupleset : Option (List Tuple)) (keep : ℕ) (room : Option (List Tuple)) :
    Inode × Option Errno :=
  match tupleset with
  | none => ({ ip with cont := none }, none)
  | some tps =>
    match Scan.run ip ⟨List.replicate nOptTuples unused, 0, fun _ => false, 0⟩ tps with
    | .error e => (ip, some e)
    | .ok sc =>
      let ip1 := chmod ip (sc.imode ||| (ip.mode &&& 0o7000)) keep
      if sc.nopttuples = 0 then (ip1, none)
      else
        match room with
        | none => (ip1, none)
        | some spare =>
          ({ ip1 with
              cont := some ⟨sc.acl.take sc.nopttuples ++
                List.replicate (nOptTuples - sc.nopttuples) unused, spare⟩ }, none)

/-! ### Reading -/

/-- Who asks: `u_uid`, `u_gid` and `u_groups`. -/
structure Caller where
  uid : ℤ
  gid : ℤ
  groups : List ℤ

/-- The comparison of a group id with `u_gid` and with `u_groups` up to `NOGROUP`. -/
def Caller.hasGroup (c : Caller) (g : ℕ) : Bool :=
  decide ((g : ℤ) = c.gid) || (c.groups.takeWhile (· ≠ -1)).any (fun h => decide ((g : ℤ) = h))

/-- The loops for the `(u,g)` and the `(*,g)` entries: whether one matched, and the mode. -/
def collect (p : Tuple → Bool) (start : Bool × ℕ) (iacl : List Tuple) : Bool × ℕ :=
  iacl.foldl (fun acc t => if p t then (true, acc.2 ||| t.mode) else acc) start

/-- `iget_access` -/
def igetAccess (ip : Inode) (c : Caller) : ℕ :=
  let isUG := fun t : Tuple => decide (t.uid < nsUser ∧ t.gid < nsGroup)
  let isU := fun t : Tuple => decide (t.gid = nsGroup)
  let isG := fun t : Tuple => decide (t.uid = nsUser)
  let iacl := (ip.cont.map Cont.acl).getD []
  let ug := collect (fun t => decide ((t.uid : ℤ) = c.uid) && c.hasGroup t.gid) (false, 0)
    (iacl.takeWhile isUG)
  if ug.1 = true then ug.2
  -- the user id is cut to 16 bits here
  else if (ip.uid : ℤ) = c.uid % 65536 then getbasetuple ip.mode .user
  else
    let iacl := iacl.dropWhile isUG
    match (iacl.takeWhile isU).find? (fun t => decide ((t.uid : ℤ) = c.uid)) with
    | some t => t.mode
    | none =>
      let start := if c.hasGroup ip.gid then (true, getbasetuple ip.mode .group) else (false, 0)
      let g := collect (fun t => c.hasGroup t.gid) start ((iacl.dropWhile isU).takeWhile isG)
      if g.1 = true then g.2 else getbasetuple ip.mode .other

/-- The entries of an array up to the first unused one. -/
def entries (acl : List Tuple) : List Tuple := acl.takeWhile (fun t => t.uid ≠ aclUnused)

/-- The optional entries of a file. -/
def Inode.tuples (ip : Inode) : List Tuple := entries ((ip.cont.map Cont.acl).getD [])

/-- The three base entries. -/
def Inode.base (ip : Inode) : List Tuple :=
  [⟨ip.uid, nsGroup, getbasetuple ip.mode .user⟩, ⟨nsUser, ip.gid, getbasetuple ip.mode .group⟩,
    ⟨nsUser, nsGroup, getbasetuple ip.mode .other⟩]

/-- `vno_getacl(vp, ntuples, acl)`: the number of entries and the array of the caller. -/
def vnoGetacl (ip : Inode) (ntuples : ℕ) : Except Errno (ℕ × List Tuple) :=
  let count := ip.tuples.length
  if nAclTuples < ntuples then .error .EINVAL
  else if ntuples = 0 then .ok (count + 3, [])
  else if ntuples < count + 3 then .error .EINVAL
  else
    let put := fun (r : List Tuple × Option Errno) (t : Tuple) =>
      let (acl, err) := insertTuple r.1 t nAclTuples
      (acl, err.or r.2)
    match ip.base.foldl put (ip.tuples ++ List.replicate (nAclTuples - count) unused, none) with
    | (acl, none) => .ok (count + 3, acl)
    | (_, some e) => .error e

/-! ### The calls as a transition system -/

inductive Act
  | setacl (tupleset : Option (List Tuple)) (keep : ℕ) (room : Option (List Tuple))
  | chown (uid gid : ℕ) (clear : Bool)
  | chmod (mode keep : ℕ)

/-- `setacl` takes at most `NACLTUPLES` entries; the ids are 16 bits. -/
def Act.Enabled : Act → Prop
  | .setacl tupleset _ _ => ∀ tps ∈ tupleset, tps.length ≤ nAclTuples
  | .chown uid gid _ => uid < 65536 ∧ gid < 65536
  | .chmod _ _ => True

instance (a : Act) : Decidable a.Enabled := by
  cases a <;> unfold Act.Enabled <;> infer_instance

def Inode.next (ip : Inode) : Act → Inode
  | .setacl tupleset keep room => (Acl.setacl ip tupleset keep room).1
  | .chown uid gid clear => (chown1 ip uid gid clear).1
  | .chmod mode keep => Acl.chmod ip mode keep

/-- A file is created without optional entries. -/
def lts : Lts Inode Act where
  init ip := ip.uid < 65536 ∧ ip.gid < 65536 ∧ ip.cont = none
  step ip a ip' := a.Enabled ∧ ip' = ip.next a

/-! ### What the entries mean -/

/-- The specificity: `(u,g)`, `(u,*)`, `(*,g)`, `(*,*)`. -/
def Tuple.level (t : Tuple) : ℕ :=
  if t.uid < nsUser then if t.gid < nsGroup then 0 else 1
  else if t.gid < nsGroup then 2 else 3

/-- By specificity, then by user and group; two entries with the same ids are not ordered. -/
def Tuple.Before (a b : Tuple) : Prop :=
  a.level < b.level ∨ a.level = b.level ∧ (a.uid < b.uid ∨ a.uid = b.uid ∧ a.gid < b.gid)

/-- The caller is the owner; the user -2 of the network file system is stored as 65534. -/
def Caller.Owns (c : Caller) (ip : Inode) : Prop :=
  c.uid = ip.uid ∨ c.uid = -2 ∧ ip.uid = 65534

/-- The caller is in a group: that of the process or one of its list. -/
def Caller.InGroup (c : Caller) (g : ℕ) : Prop :=
  ∃ h ∈ c.gid :: c.groups.takeWhile (· ≠ -1), h = g ∨ h = -2 ∧ g = 65534

instance (c : Caller) (ip : Inode) : Decidable (c.Owns ip) := inferInstanceAs (Decidable (_ ∨ _))

instance (c : Caller) (g : ℕ) : Decidable (c.InGroup g) :=
  inferInstanceAs (Decidable (∃ h ∈ _, _))

/-- The union of the modes of some entries. -/
def union (ts : List Tuple) : ℕ := ts.foldr (fun t m => t.mode ||| m) 0

/-- The mode that the list gives to a caller. -/
def rules (ip : Inode) (c : Caller) : ℕ :=
  let specific := ip.tuples.filter fun t =>
    decide (t.level = 0 ∧ (t.uid : ℤ) = c.uid ∧ c.InGroup t.gid)
  let users := ip.tuples.filter fun t => decide (t.level = 1 ∧ (t.uid : ℤ) = c.uid)
  let groups := ip.tuples.filter fun t => decide (t.level = 2 ∧ c.InGroup t.gid)
  if specific ≠ [] then union specific
  else if c.Owns ip then getbasetuple ip.mode .user
  else if users ≠ [] then union users
  else if c.InGroup ip.gid then getbasetuple ip.mode .group ||| union groups
  else if groups ≠ [] then union groups
  else getbasetuple ip.mode .other

/-- What the list of a file should be like: the optional entries are in order, without two for the
same ids, at most `NOPTTUPLES`. -/
structure Inode.Ordered (ip : Inode) : Prop where
  sorted : ip.tuples.Pairwise Tuple.Before
  bounded : ip.tuples.length ≤ nOptTuples

/-- The list is read back as its optional and base entries in order. -/
def Inode.ReadsBack (ip : Inode) : Prop :=
  ∀ ntuples, ip.tuples.length + 3 ≤ ntuples → ntuples ≤ nAclTuples → ∃ l : List Tuple,
    l.Pairwise Tuple.Before ∧ l.Perm (ip.tuples ++ ip.base) ∧
      vnoGetacl ip ntuples = .ok (l.length, l ++ List.replicate (nAclTuples - l.length) unused)

/-- The condition on a caller: he has not the user id of the owner in the low 16 bits of another
one, and not the group -2 when the file has the group 65534. -/
def Caller.Plain (c : Caller) (ip : Inode) : Prop :=
  ((ip.uid : ℤ) = c.uid % 65536 → c.Owns ip) ∧
    (ip.gid = 65534 → -2 ∉ c.gid :: c.groups.takeWhile (· ≠ -1))

/-- The condition on a call: when `chown` puts the old owner or group into an optional entry, the
id is below `ACL_NSUSER`. -/
def Cond (ip : Inode) : Act → Prop
  | .chown uid gid _ =>
    ((∃ t ∈ ip.tuples, t.uid = uid ∧ t.gid = nsGroup) → ip.uid < nsUser) ∧
      ((∃ t ∈ ip.tuples, t.uid = nsUser ∧ t.gid = gid) → ip.gid < nsGroup)
  | _ => True

instance (ip : Inode) (a : Act) : Decidable (Cond ip a) := by
  cases a <;> unfold Cond <;> infer_instance

end Hpux.Acl
