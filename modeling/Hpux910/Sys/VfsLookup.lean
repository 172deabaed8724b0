import Mathlib

/-!
# Local pathname lookup

`locallookuppn` of `sys/vfs_lookup.c` walks down a pathname, one component after the other.  The
text of a symbolic link is put in front of what is left of the pathname, in the pathname's own
buffer.  Every vnode it stands on is held.

* `Pathname`, `pnGetcomponent`, `pnSkipslash`, `pnSet`, `pnCombine` : `sys/vfs_pathnm.c` and
  `sys/vfs_pn_nc.c`.
* `World` : the file tree, the mounts, and how the operations on vnodes answer.
* `Holds`, `vnHold`, `vnRele` : the counts of the vnodes.
* `checkforroot`, `mloop`, `followLink`, `skip`, `lookup`, `next`, `locallookuppn`, `lookuppn` : the walk.
* `Up`, `Down`, `Entry`, `Resolves` : what a pathname means, component by component, without
  buffers and counts.

Only local vnodes are there, so `pathisremote` never holds.  `none` is what must not happen: a
byte read or written outside a buffer, or a vnode released that nobody holds (`panic`); it is also
the result when the fuel of a loop runs out.
-/

namespace Hpux

namespace Namei

def MAXPATHLEN : ℕ := 1024

def MAXNAMLEN : ℕ := 255

def MAXSYMLINKS : ℕ := 20

def EINTR : ℕ := 4

def EACCES : ℕ := 13

def ENOTDIR : ℕ := 20

def EISDIR : ℕ := 21

def ENAMETOOLONG : ℕ := 248

def ELOOP : ℕ := 249

/-- The character `/`. -/
def slash : UInt8 := 47

/-- The character `.`. -/
def dot : UInt8 := 46

/-- `SDOCHAR`, the character `+`. -/
def SDOCHAR : UInt8 := 43

/-! ### Pathname buffers -/

/-- `struct pathname`; `pn_path` is given by its distance from `pn_buf`. -/
structure Pathname where
  pnBuf : List UInt8
  pnPath : ℕ
  pnPathlen : ℕ
  deriving DecidableEq, Repr

/-- What is left of the pathname. -/
def Pathname.text (pnp : Pathname) : List UInt8 := (pnp.pnBuf.drop pnp.pnPath).take pnp.pnPathlen

/-- What is left lies in the buffer. -/
structure Pathname.Ok (pnp : Pathname) : Prop where
  buf : pnp.pnBuf.length = MAXPATHLEN
  inside : pnp.pnPath + pnp.pnPathlen ≤ MAXPATHLEN
  short : pnp.pnPathlen < MAXPATHLEN

/-- `buf[i] = c`. -/
def store (buf : List UInt8) (i : ℕ) (c : UInt8) : Option (List UInt8) :=
  if i < buf.length then some (buf.set i c) else none

/-- `bcopy`, from `src + i` to `dst + j`, of `n` bytes. -/
def bcopy (src : List UInt8) (i : ℕ) (dst : List UInt8) (j n : ℕ) : Option (List UInt8) :=
  if i + n ≤ src.length ∧ j + n ≤ dst.length then
    some (dst.take j ++ (src.drop i).take n ++ dst.drop (j + n))
  else none

/-- The string in a character array: it ends at the first null. -/
def cstr (s : List UInt8) : List UInt8 := s.takeWhile (· ≠ 0)

/-- `nfs_strncpy` to `s1 + i`; the end of the list `s2` is the null of the string. -/
def nfsStrncpy (s1 : List UInt8) (i : ℕ) : List UInt8 → ℕ → Option (List UInt8 × ℕ)
  | _, 0 => some (s1, i)
  | [], _ + 1 => (store s1 i 0).map fun s1 => (s1, i)
  | c :: s2, n + 1 => (store s1 i c).bind fun s1 => if c = 0 then some (s1, i) else nfsStrncpy s1 (i + 1) s2 n

/-- `pn_set`; the result is that `ENAMETOOLONG` is not returned. -/
def pnSet (pnp : Pathname) (path : List UInt8) : Option (Pathname × Bool) :=
  (nfsStrncpy pnp.pnBuf 0 path MAXPATHLEN).map fun r => (⟨r.1, 0, r.2⟩, decide (r.2 < MAXPATHLEN))

/-- The loop of `pn_getcomponent_n_computer` : `l` bytes are left at `cp`, and `n` more fit in the
component.  `none` inside is `ENAMETOOLONG`. -/
def getcomponentLoop (buf : List UInt8) : ℕ → ℕ → ℕ → List UInt8 → Option (Option (ℕ × ℕ × List UInt8))
  | 0, cp, _, component => some (some (cp, 0, component))
  | l + 1, cp, n, component =>
    match buf[cp]? with
    | none => none
    | some c =>
      if c = slash then some (some (cp, l + 1, component))
      else match n with
        | 0 => some none
        | n + 1 =>
          if component.length < MAXNAMLEN + 1 then getcomponentLoop buf l (cp + 1) n (component ++ [c])
          else none

/-- `pn_getcomponent_n_computer` : the pathname after the component, and what is in `component`
before the null. -/
def pnGetcomponent (pnp : Pathname) : Option (Option (Pathname × List UInt8)) :=
  match getcomponentLoop pnp.pnBuf pnp.pnPathlen pnp.pnPath MAXNAMLEN [] with
  | none => none
  | some none => some none
  | some (some (cp, l, component)) =>
    if component.length < MAXNAMLEN + 1 then some (some (⟨pnp.pnBuf, cp, l⟩, component)) else none

/-- The loop of `pn_skipslash`. -/
def skipslashLoop (buf : List UInt8) : ℕ → ℕ → Option (ℕ × ℕ)
  | 0, path => some (path, 0)
  | l + 1, path =>
    match buf[path]? with
    | none => none
    | some c => if c = slash then skipslashLoop buf l (path + 1) else some (path, l + 1)

/-- `pn_skipslash`. -/
def pnSkipslash (pnp : Pathname) : Option Pathname :=
  (skipslashLoop pnp.pnBuf pnp.pnPathlen pnp.pnPath).map fun r => ⟨pnp.pnBuf, r.1, r.2⟩

/-- `pn_combine` of the kernel with `HPUX_NFS` : the second pathname is put before the first one,
by way of its own buffer.  `none` inside is `ENAMETOOLONG`. -/
def pnCombine (pnp sympnp : Pathname) : Option (Option Pathname) :=
  if pnp.pnPathlen + sympnp.pnPathlen ≥ MAXPATHLEN then some none
  else
    (bcopy pnp.pnBuf pnp.pnPath sympnp.pnBuf sympnp.pnPathlen pnp.pnPathlen).bind fun symBuf =>
      (bcopy symBuf sympnp.pnPath pnp.pnBuf 0 (pnp.pnPathlen + sympnp.pnPathlen)).bind fun buf =>
        (store buf (pnp.pnPathlen + sympnp.pnPathlen) 0).map fun buf =>
          some ⟨buf, 0, pnp.pnPathlen + sympnp.pnPathlen⟩

/-- `is_parent_dir`. -/
def isParentDir (name : List UInt8) : Bool :=
  decide (name = [dot, dot]) || decide (name = [dot, dot, SDOCHAR])

/-! ### The file tree -/

/-- What is asked of `v_type`. -/
inductive VType
  | vdir
  | vlnk
  | other
  deriving DecidableEq, Repr

/-- The file tree, and how it answers.  The first argument of an answer counts the calls that have
been made, so that a call may succeed at one time and fail at another. -/
structure World (V : Type) where
  /-- `v_type`. -/
  vType : V → VType
  /-- `v_fstype` is `VNFS`. -/
  vnfs : V → Bool
  /-- `VROOT` in `v_flag`. -/
  vroot : V → Bool
  /-- `v_vfsp`. -/
  vVfsp : V → ℕ
  /-- `vfs_vnodecovered`. -/
  vnodecovered : ℕ → V
  /-- `rootdir`. -/
  rootdir : V
  /-- `u.u_rdir`. -/
  rdir : Option V
  /-- `v_vfsmountedhere`. -/
  mountedhere : ℕ → V → Option ℕ
  /-- `VFS_MLOCK` : the file system is being unmounted. -/
  mlock : ℕ → ℕ → Bool
  /-- A signal ends the sleep. -/
  intr : ℕ → Bool
  /-- `VOP_LOOKUP`. -/
  vopLookup : ℕ → V → List UInt8 → V → Except ℕ V
  /-- `VFS_ROOT`. -/
  vfsRoot : ℕ → ℕ → List UInt8 → Except ℕ V
  /-- `VOP_READLINK`. -/
  vopReadlink : ℕ → V → Except ℕ (List UInt8)
  /-- How many file systems there are. -/
  mounts : ℕ
  /-- A file system is mounted on one that was mounted before it. -/
  covered_lt : ∀ v, vroot v = true → v ≠ rootdir → vVfsp (vnodecovered (vVfsp v)) < vVfsp v
  mounted_lt : ∀ t v m, mountedhere t v = some m → vVfsp v < m ∧ m < mounts
  /-- The root of a file system is in it. -/
  root_in : ∀ t m name v, vfsRoot t m name = .ok v → vVfsp v = m
  /-- `uio_resid` allows no more. -/
  text_le : ∀ t v s, vopReadlink t v = .ok s → s.length ≤ MAXPATHLEN
  /-- An unmount comes to an end. -/
  unlocked : ∀ t, ∃ t', t ≤ t' ∧ ∀ m, mlock t' m = false

section

variable {V : Type} [DecidableEq V]

/-- The counts of the vnodes, and the number of calls made so far. -/
structure Holds (V : Type) where
  vCount : V → ℕ
  calls : ℕ

/-- `VN_HOLD`. -/
def vnHold (k : Holds V) (v : V) : Holds V :=
  { k with vCount := Function.update k.vCount v (k.vCount v + 1) }

/-- `VN_RELE`. -/
def vnRele (k : Holds V) (v : V) : Option (Holds V) :=
  if k.vCount v = 0 then none
  else some { k with vCount := Function.update k.vCount v (k.vCount v - 1) }

/-- A call has been made. -/
def Holds.tick (k : Holds V) : Holds V := { k with calls := k.calls + 1 }

/-! ### The walk -/

variable (w : World V)

/-- `vp == u.u_rdir || vp == rootdir`. -/
def AtRoot (vp : V) : Prop := w.rdir = some vp ∨ vp = w.rootdir

instance (vp : V) : Decidable (AtRoot w vp) := inferInstanceAs (Decidable (_ ∨ _))

/-- The loop at `checkforroot`; the result says whether it goes to `skip`, and gives `vp` and
`cvp`. -/
def checkforroot : ℕ → V → V → Holds V → Option (Bool × V × V × Holds V)
  | 0, _, _, _ => none
  | n + 1, vp, cvp, k =>
    if AtRoot w vp then (vnRele k cvp).map fun k => (true, vp, vp, vnHold k vp)
    else if w.vroot vp then
      (vnRele k cvp).bind fun k =>
        checkforroot n (w.vnodecovered (w.vVfsp vp)) vp (vnHold k (w.vnodecovered (w.vVfsp vp)))
    else some (false, vp, cvp, k)

/-- The loop at `mloop`, with the error it ends with and `cvp`. -/
def mloop (component : List UInt8) : ℕ → V → Holds V → Option (Option ℕ × V × Holds V)
  | 0, _, _ => none
  | n + 1, cvp, k =>
    match w.mountedhere k.calls cvp with
    | none => some (none, cvp, k)
    | some vfsp =>
      if w.mlock k.calls vfsp then
        if w.intr k.calls then some (some EINTR, cvp, k.tick) else mloop component n cvp k.tick
      else match w.vfsRoot k.calls vfsp component with
        | .error error => some (some error, cvp, k.tick)
        | .ok tvp => (vnRele (vnHold k.tick tvp) cvp).bind fun k => mloop component n tvp k

/-- What the caller wants: `followlink`, and whether `dirvpp` and `compvpp` are not null. -/
structure Want where
  followlink : Bool
  dirvpp : Bool
  compvpp : Bool
  deriving DecidableEq, Repr

/-- `*dirvpp` and `*compvpp`. -/
structure Found (V : Type) where
  dirvp : Option V
  compvp : Option V
  deriving DecidableEq, Repr

/-- What `locallookuppn` returns with: the error or the vnodes, the pathname and the counts. -/
structure Ret (V : Type) where
  result : Except ℕ (Found V)
  pn : Pathname
  holds : Holds V

/-- The variables at `next`; `cvp` is null there. -/
structure St (V : Type) where
  pn : Pathname
  vp : V
  nlink : ℕ
  holds : Holds V

/-- From `bad` on. -/
def bad (pn : Pathname) (vp : V) (cvp : Option V) (error : ℕ) (k : Holds V) : Option (Ret V) :=
  ((match cvp with
    | some cvp => vnRele k cvp
    | none => some k).bind fun k => vnRele k vp).map fun k => ⟨.error error, pn, k⟩

/-- `rootcheck`. -/
def rootcheck (pn : Pathname) (vp : V) (k : Holds V) : Option (Pathname × V × Holds V) :=
  if pn.pnPathlen > 0 ∧ pn.pnBuf[pn.pnPath]? = some slash then
    (vnRele k vp).bind fun k => (pnSkipslash pn).map fun pn =>
      (pn, w.rdir.getD w.rootdir, vnHold k (w.rdir.getD w.rootdir))
  else if pn.pnPathlen > 0 ∧ pn.pnBuf[pn.pnPath]? = none then none
  else some (pn, vp, k)

/-- The pathname that `getsymlink` allocates and fills. -/
def linkpath (text : List UInt8) : Option Pathname :=
  (bcopy text 0 (List.replicate MAXPATHLEN 0) 0 text.length).map fun buf => ⟨buf, 0, text.length⟩

/-- A vnode is a symbolic link that has to be followed. -/
def followLink (pn : Pathname) (vp cvp : V) (nlink : ℕ) (k : Holds V) : Option (St V ⊕ Ret V) :=
  if nlink + 1 > MAXSYMLINKS then (bad pn vp (some cvp) ELOOP k).map .inr
  else match w.vopReadlink k.calls cvp with
    | .error error => (bad pn vp (some cvp) error k.tick).map .inr
    | .ok text =>
      (linkpath text).bind fun link =>
        (if link.pnPathlen = 0 then (pnSet link [dot]).map Prod.fst else some link).bind fun link =>
          (pnCombine pn link).bind fun
            | none => (bad pn vp (some cvp) ENAMETOOLONG k.tick).map .inr
            | some pn => (vnRele k.tick cvp).bind fun k => (rootcheck w pn vp k).map fun r =>
              .inl ⟨r.1, r.2.1, nlink + 1, r.2.2⟩

/-- From `skip` on. -/
def skip (want : Want) (component : List UInt8) (pn : Pathname) (vp cvp : V) (nlink : ℕ) (k : Holds V) :
    Option (St V ⊕ Ret V) :=
  (pnSkipslash pn).bind fun pn =>
    if pn.pnPathlen = 0 then
      (pnSet pn component).bind fun pn =>
        (if want.dirvpp then some k else vnRele k vp).bind fun k =>
          (if want.compvpp then some k else vnRele k cvp).map fun k =>
            .inr ⟨.ok ⟨if want.dirvpp then some vp else none, if want.compvpp then some cvp else none⟩, pn.1, k⟩
    else (vnRele k vp).map fun k => .inl ⟨pn, cvp, nlink, k⟩

/-- `VOP_LOOKUP` has failed. -/
def lookupFailed (want : Want) (component : List UInt8) (pn : Pathname) (vp : V) (error : ℕ) (k : Holds V) :
    Option (Ret V) :=
  (pnSkipslash pn).bind fun pn =>
    if pn.pnPathlen ≠ 0 ∨ want.dirvpp = false ∨ error = EACCES then bad pn vp none error k
    else (pnSet pn component).map fun pn => ⟨.ok ⟨some vp, none⟩, pn.1, k⟩

/-- From the call of `VOP_LOOKUP` on. -/
def lookup (want : Want) (n : ℕ) (component : List UInt8) (pn : Pathname) (vp cvp : V) (nlink : ℕ)
    (k : Holds V) : Option (St V ⊕ Ret V) :=
  match w.vopLookup k.calls vp component cvp with
  | .error error => (vnRele k.tick cvp).bind fun k => (lookupFailed want component pn vp error k).map .inr
  | .ok tvp => (vnRele (vnHold k.tick tvp) cvp).bind fun k =>
    (mloop w component n tvp k).bind fun
    | (some error, cvp, k) => (bad pn vp (some cvp) error k).map .inr
    | (none, cvp, k) =>
      if w.vType cvp = .vlnk ∧ (want.followlink = true ∨ pn.pnPathlen ≠ 0) then
        followLink w pn vp cvp nlink k
      else skip want component pn vp cvp nlink k

/-- From `next` on, until `next` comes again or the routine returns. -/
def next (want : Want) (n : ℕ) (s : St V) : Option (St V ⊕ Ret V) :=
  if w.vType s.vp ≠ .vdir ∧ w.vnfs s.vp = false then (bad s.pn s.vp none ENOTDIR s.holds).map .inr
  else (pnGetcomponent s.pn).bind fun
    | none => (bad s.pn s.vp none ENAMETOOLONG s.holds).map .inr
    | some (pn, component) =>
      let component := cstr component
      if component = [] then
        if want.dirvpp then (vnRele s.holds s.vp).map fun k => .inr ⟨.error EISDIR, pn, k⟩
        else (pnSet pn [dot]).bind fun pn =>
          (if want.compvpp then some s.holds else vnRele s.holds s.vp).map fun k =>
            .inr ⟨.ok ⟨none, if want.compvpp then some s.vp else none⟩, pn.1, k⟩
      else
        (if isParentDir component then checkforroot w n s.vp s.vp (vnHold s.holds s.vp)
          else some (false, s.vp, s.vp, vnHold s.holds s.vp)).bind fun
        | (true, vp, cvp, k) => skip want component pn vp cvp s.nlink k
        | (false, vp, cvp, k) => lookup w want n component pn vp cvp s.nlink k

/-- `locallookuppn`. -/
def locallookuppn (want : Want) : ℕ → St V → Option (Ret V)
  | 0, _ => none
  | n + 1, s => (next w want n s).bind fun
    | .inl s => locallookuppn want n s
    | .inr r => some r

/-- `lookuppn`, as far as everything is local. -/
def lookuppn (want : Want) (n : ℕ) (pnp : Pathname) (cdir : V) (vCount : V → ℕ) : Option (Ret V) :=
  (rootcheck w pnp cdir (vnHold ⟨vCount, 0⟩ cdir)).bind fun r =>
    locallookuppn w want n ⟨r.1, r.2.1, 0, r.2.2⟩

/-! ### What a pathname means -/

/-- The first component of a path. -/
def first (p : List UInt8) : List UInt8 := p.takeWhile (· ≠ slash)

/-- What follows the first component. -/
def rest (p : List UInt8) : List UInt8 := p.dropWhile (· ≠ slash)

/-- A path without the slashes it starts with. -/
def strip (p : List UInt8) : List UInt8 := p.dropWhile (· = slash)

/-- The name that the first component spells. -/
def name (p : List UInt8) : List UInt8 := cstr (first p)

/-- The directory that `..` is looked up in: a root stays, and the root of a mounted file system
leads to the directory it covers.  Beside it stands the vnode that the search comes from. -/
inductive Up : V → V → V → V → Prop
  | root {v c : V} : AtRoot w v → Up v c v v
  | inside {v c : V} : ¬ AtRoot w v → w.vroot v = false → Up v c v c
  | covered {v c u c' : V} : ¬ AtRoot w v → w.vroot v = true → Up (w.vnodecovered (w.vVfsp v)) v u c' →
      Up v c u c'

/-- The directory that a component is looked up in, when it is looked up at all. -/
def Looked (name : List UInt8) (d u c : V) : Prop :=
  if isParentDir name then Up w d d u c ∧ ¬ AtRoot w u else u = d ∧ c = d

/-- From a vnode to the root of what is mounted on it, and on that, with the times. -/
inductive Down (name : List UInt8) : ℕ → V → ℕ → Except ℕ V → Prop
  | stop {t : ℕ} {v : V} : w.mountedhere t v = none → Down name t v t (.ok v)
  | sleep {t t' : ℕ} {v : V} {m : ℕ} {r : Except ℕ V} : w.mountedhere t v = some m → w.mlock t m = true →
      w.intr t = false → Down name (t + 1) v t' r → Down name t v t' r
  | intr {t : ℕ} {v : V} {m : ℕ} : w.mountedhere t v = some m → w.mlock t m = true → w.intr t = true →
      Down name t v (t + 1) (.error EINTR)
  | fail {t : ℕ} {v : V} {m e : ℕ} : w.mountedhere t v = some m → w.mlock t m = false →
      w.vfsRoot t m name = .error e → Down name t v (t + 1) (.error e)
  | cross {t t' : ℕ} {v u : V} {m : ℕ} {r : Except ℕ V} : w.mountedhere t v = some m → w.mlock t m = false →
      w.vfsRoot t m name = .ok u → Down name (t + 1) u t' r → Down name t v t' r

/-- What a component leads to. -/
inductive Hit (V : Type)
  /-- `..` at a root. -/
  | stays
  /-- The directory does not have it. -/
  | missing (e : ℕ)
  /-- What is mounted on it cannot be reached. -/
  | fails (e : ℕ)
  | reaches (v : V)

/-- A component of a directory: the directory it is looked up in, the time after it, and what it
leads to. -/
inductive Entry (name : List UInt8) (d : V) (t : ℕ) : V → ℕ → Hit V → Prop
  | stays {u c : V} : isParentDir name = true → Up w d d u c → AtRoot w u → Entry name d t u t .stays
  | missing {u c : V} {e : ℕ} : Looked w name d u c → w.vopLookup t u name c = .error e →
      Entry name d t u (t + 1) (.missing e)
  | fails {u c v : V} {t' e : ℕ} : Looked w name d u c → w.vopLookup t u name c = .ok v →
      Down w name (t + 1) v t' (.error e) → Entry name d t u t' (.fails e)
  | reaches {u c v v' : V} {t' : ℕ} : Looked w name d u c → w.vopLookup t u name c = .ok v →
      Down w name (t + 1) v t' (.ok v') → Entry name d t u t' (.reaches v')

/-- What a pathname comes to. -/
inductive Denotes (V : Type)
  /-- A directory, by no name. -/
  | self (d : V)
  /-- An entry of a directory. -/
  | entry (dir v : V)
  /-- The directory does not have the last component. -/
  | missing (dir : V) (e : ℕ)
  | error (e : ℕ)

/-- Where a path starts. -/
def origin (d : V) (p : List UInt8) : V := if p.head? = some slash then w.rdir.getD w.rootdir else d

/-- An empty link is a link to the directory it is in. -/
def linkText (text : List UInt8) : List UInt8 := if text = [] then [dot] else text

/-- After the first component of a path: the end, or a directory and the path that is left, with
the number of links and the time. -/
def turn (followlink : Bool) (p : List UInt8) (l : ℕ) (u : V) (t : ℕ) :
    Hit V → Denotes V ⊕ (V × List UInt8 × ℕ × ℕ)
  | .missing e => if strip (rest p) = [] then .inl (.missing u e) else .inl (.error e)
  | .fails e => .inl (.error e)
  | .stays => if strip (rest p) = [] then .inl (.entry u u) else .inr (u, strip (rest p), l, t)
  | .reaches v =>
    if w.vType v = .vlnk ∧ (followlink = true ∨ rest p ≠ []) then
      if MAXSYMLINKS ≤ l then .inl (.error ELOOP)
      else match w.vopReadlink t v with
        | .error e => .inl (.error e)
        | .ok text =>
          if MAXPATHLEN ≤ (rest p).length + (linkText text).length then .inl (.error ENAMETOOLONG)
          else .inr (origin w u (linkText text ++ rest p), strip (linkText text ++ rest p), l + 1, t + 1)
    else if strip (rest p) = [] then .inl (.entry u v) else .inr (v, strip (rest p), l, t)

/-- A directory, or what may be one at its server. -/
def Searchable (d : V) : Prop := w.vType d = .vdir ∨ w.vnfs d = true

/-- What a path comes to from a directory, when some links have been followed, at a time. -/
inductive Resolves (followlink : Bool) : V → List UInt8 → ℕ → ℕ → Denotes V → Prop
  | notDir {d : V} {p : List UInt8} {l t : ℕ} : ¬ Searchable w d → Resolves followlink d p l t (.error ENOTDIR)
  | tooLong {d : V} {p : List UInt8} {l t : ℕ} : Searchable w d → MAXNAMLEN < (first p).length →
      Resolves followlink d p l t (.error ENAMETOOLONG)
  | self {d : V} {p : List UInt8} {l t : ℕ} : Searchable w d → (first p).length ≤ MAXNAMLEN → name p = [] →
      Resolves followlink d p l t (.self d)
  | last {d u : V} {p : List UInt8} {l t t' : ℕ} {hit : Hit V} {o : Denotes V} : Searchable w d →
      (first p).length ≤ MAXNAMLEN → name p ≠ [] → Entry w (name p) d t u t' hit →
      turn w followlink p l u t' hit = .inl o → Resolves followlink d p l t o
  | more {d u d' : V} {p p' : List UInt8} {l t t' l' t'' : ℕ} {hit : Hit V} {o : Denotes V} :
      Searchable w d → (first p).length ≤ MAXNAMLEN → name p ≠ [] → Entry w (name p) d t u t' hit →
      turn w followlink p l u t' hit = .inr (d', p', l', t'') → Resolves followlink d' p' l' t'' o →
      Resolves followlink d p l t o

/-- What the caller gets of it. -/
def answer (want : Want) : Denotes V → Except ℕ (Found V)
  | .self d => if want.dirvpp then .error EISDIR else .ok ⟨none, if want.compvpp then some d else none⟩
  | .entry dir v =>
    .ok ⟨if want.dirvpp then some dir else none, if want.compvpp then some v else none⟩
  | .missing dir e =>
    if want.dirvpp = false ∨ e = EACCES then .error e else .ok ⟨some dir, none⟩
  | .error e => .error e

/-- The vnodes that are handed back. -/
def handed : Except ℕ (Found V) → List V
  | .ok found => found.dirvp.toList ++ found.compvp.toList
  | .error _ => []

end

end Namei

end Hpux
