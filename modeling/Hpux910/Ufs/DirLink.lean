import Hpux910.Lib.RefTally

/-!
# Directory entries and link counts

`ufs_dir.c` counts in `i_nlink` the directory entries that name an inode, `.` and `..` included.
The counts are raised before a directory is written and lowered again when the write cannot be
made, in five functions.

* `Inode`, `Fs` : the inodes of one file system.  A directory is the list of its live records; the
  second record of `struct dirtemplate` is found by its place, as the code finds it.
* `dirfixdotdot`, `diraddentry`, `dirmakeinode`, `dirrename`, `direnter`, `dirremove` : the
  functions of the source.
* `Env` : the answers of the disc and of the permission checks.
* `Op`, `Op.exec` : the calls of `ufs_vnops.c`.
-/

namespace Hpux.DirLink

variable {Ino : Type} [DecidableEq Ino]

/-- The errors that are told apart. -/
inductive Errno
  | EPERM | ENOENT | EIO | EACCES | EBUSY | EEXIST | ENOTDIR | EISDIR | EINVAL | ENOSPC | EMLINK
  | ESAME | EXDEV
  deriving DecidableEq, Repr

/-- `struct direct`, a live record of a directory and the place where it starts. -/
structure Direct (Ino : Type) where
  off : ℕ
  dName : String
  dIno : Ino

/-- What the code reads and writes of an inode. -/
structure Inode (Ino : Type) where
  /-- `(i_mode & IFMT) == IFDIR` -/
  ifdir : Bool
  iNlink : ℤ
  iSize : ℕ
  /-- The live records of a directory, in their order. -/
  ents : List (Direct Ino)
  /-- `d_ino` (`none` for 0) and whether the name is `..`, of the bytes at the place of the second
  record of `struct dirtemplate`.  They count when no live record starts there. -/
  stale : Option Ino × Bool

/-- The inodes that the entries of a directory name. -/
def Inode.held (ip : Inode Ino) : List Ino := if ip.ifdir then ip.ents.map (·.dIno) else []

/-- The file system: its name format, `IS_LFN_FS`, and its inodes. -/
structure Fs (Ino : Type) where
  lfn : Bool
  inode : Ino → Inode Ino

def MAXLINK : ℤ := 0x7fff

/-- `sizeof(struct dirtemplate)` or `sizeof(struct dirtemplate_lfn)` -/
def dirtemplateSize (lfn : Bool) : ℕ := if lfn then 24 else 64

/-- The place of `dotdot_ino` in these. -/
def dotdotOff (lfn : Bool) : ℕ := if lfn then 12 else 32

namespace Fs

def upd (fs : Fs Ino) (i : Ino) (g : Inode Ino → Inode Ino) : Fs Ino :=
  { fs with inode := Function.update fs.inode i (g (fs.inode i)) }

/-- `ip->i_nlink += z` -/
def link (fs : Fs Ino) (i : Ino) (z : ℤ) : Fs Ino :=
  fs.upd i fun ip => { ip with iNlink := ip.iNlink + z }

end Fs

/-- `itrunc(ip, 0)` -/
def itrunc (fs : Fs Ino) (i : Ino) : Fs Ino := fs.upd i fun ip => { ip with iSize := 0, ents := [] }

/-- `iput`, `irele` of the last holder: an inode without links is truncated and freed. -/
def iput (fs : Fs Ino) (i : Ino) : Fs Ino :=
  if (fs.inode i).iNlink ≤ 0 then
    (itrunc fs i).upd i fun ip => { ip with ifdir := false }
  else fs

/-! ### Reading a directory -/

/-- The first record with the property and its index. -/
def firstRec (p : Direct Ino → Bool) (l : List (Direct Ino)) : Option (ℕ × Direct Ino) :=
  (l.findIdx? p).bind fun k => l[k]?.map fun e => (k, e)

/-- `dircheckforname`: the first record with the name, as its index and `d_ino`. -/
def dircheckforname (ip : Inode Ino) (name : String) : Option (ℕ × Ino) :=
  (firstRec (·.dName = name) ip.ents).map fun r => (r.1, r.2.dIno)

/-- `dirempty`; `io` says that the directory can be read. -/
def dirempty (ip : Inode Ino) (io : Bool) : ℕ :=
  if ip.iSize ≠ 0 ∧ io = false then 0
  else if ip.ents.any fun e => e.dName ≠ "." ∧ e.dName ≠ ".." then 0
  else
    match ip.ents.countP (·.dName = "."), ip.ents.countP (·.dName = "..") with
    | 1, 1 => 1
    | 1, 0 => 2
    | 0, 1 => 3
    | 0, 0 => 4
    | _, _ => 0

/-- The live record that starts where `struct dirtemplate` has its second one. -/
def dotdotRec (lfn : Bool) (ip : Inode Ino) : Option (ℕ × Direct Ino) :=
  firstRec (·.off = dotdotOff lfn) ip.ents

/-- `dirp->dotdot_ino` -/
def dotdotIno (lfn : Bool) (ip : Inode Ino) : Option Ino :=
  match dotdotRec lfn ip with
  | some (_, e) => some e.dIno
  | none => ip.stale.1

/-- `dirp->dotdot_name` is `..` -/
def dotdotNamed (lfn : Bool) (ip : Inode Ino) : Bool :=
  match dotdotRec lfn ip with
  | some (_, e) => e.dName = ".."
  | none => ip.stale.2

/-- `ents[k].d_ino = n` -/
def Inode.setIno (ip : Inode Ino) (k : ℕ) (n : Ino) : Inode Ino :=
  { ip with ents := ip.ents.modify k fun e => { e with dIno := n } }

/-- `dirp->dotdot_ino = n` -/
def setDotdot (lfn : Bool) (n : Ino) (ip : Inode Ino) : Inode Ino :=
  match dotdotRec lfn ip with
  | some (k, _) => ip.setIno k n
  | none => { ip with stale := (some n, ip.stale.2) }

/-! ### The answers from outside -/

/-- The slot of a new entry and what the compaction of the directory does. -/
structure Slot (Ino : Type) where
  /-- `slotp->offset` after the compaction -/
  off : ℕ
  /-- The number of live records before it. -/
  pos : ℕ
  /-- Where the live records are moved. -/
  reloc : ℕ → ℕ
  /-- `entryend` -/
  entryend : ℕ
  /-- What is left at the place of `dotdot_ino`. -/
  stale : Option Ino × Bool

/-- What the disc, the allocator and the permission checks answer in `direnter`. -/
structure Env (Ino : Type) where
  /-- `iaccess(tdp, IEXEC)` -/
  iexec : Option Errno
  /-- `iaccess(sip, IWRITE)`, then `dircheckpath` -/
  checkpath : Option Errno
  /-- the reads of `dircheckforname` -/
  look : Option Errno
  /-- `ISVTX` forbids the caller to replace the target -/
  sticky : Bool
  /-- `iaccess(tdp, IWRITE)` -/
  iwrite : Option Errno
  /-- `ialloc` -/
  ialloc : Option Ino
  /-- `bmap` of the first block of a new directory -/
  bmap : Option Errno
  /-- `dirprepareentry`, and the size it leaves when it fails late -/
  prepare : Option Errno
  grown : ℕ
  slot : Slot Ino
  /-- `blkatoff` in `dirfixdotdot` -/
  dotdot : Option Errno
  /-- The directory under the target can be read the first and the second time. -/
  empty : Bool
  empty' : Bool

/-- The same for `dirremove`. -/
structure RemoveEnv where
  /-- `iaccess(dp, IEXEC|IWRITE)` -/
  access : Option Errno
  look : Option Errno
  sticky : Bool
  /-- another file system is mounted on the inode -/
  mounted : Bool
  empty : Bool

/-- The first error of a row of checks. -/
def firstErr (l : List (Option Errno)) : Option Errno := l.findSome? id

/-- A check that fails with `e`. -/
def errIf (p : Prop) [Decidable p] (e : Errno) : Option Errno := if p then some e else none

/-! ### The functions of the source -/

/-- What `dirfixdotdot` finds before it writes. -/
inductive Fix
  | nothing
  | fail (e : Errno)
  | rewrite
  deriving DecidableEq

/-- The tests of `dirfixdotdot(dp, opdp, npdp)`. -/
def dotdotFix (fs : Fs Ino) (dp npdp : Ino) (env : Env Ino) : Fix :=
  let d := fs.inode dp
  if d.iNlink = 0 ∨ d.iSize < dirtemplateSize fs.lfn then .nothing
  else
    match env.dotdot with
    | some e => .fail e
    | none =>
      if dotdotIno fs.lfn d = some npdp then .nothing
      else if dotdotNamed fs.lfn d = false then .fail .EINVAL
      else if (fs.inode npdp).iNlink = MAXLINK then .fail .EMLINK
      else .rewrite

/-- `dirfixdotdot(dp, opdp, npdp)` -/
def dirfixdotdot (fs : Fs Ino) (dp opdp npdp : Ino) (env : Env Ino) : Fs Ino × Option Errno :=
  match dotdotFix fs dp npdp env with
  | .nothing => (fs, none)
  | .fail e => (fs, some e)
  | .rewrite =>
    let fs1 := (fs.link npdp 1).upd dp (setDotdot fs.lfn npdp)
    (if (fs1.inode opdp).iNlink ≠ 0 then fs1.link opdp (-1) else fs1, none)

/-- `dirprepareentry`: the live records may move and the directory may grow. -/
def dirprepareentry (fs : Fs Ino) (dp : Ino) (s : Slot Ino) : Fs Ino :=
  fs.upd dp fun d =>
    { d with
      iSize := max d.iSize s.entryend
      ents := d.ents.map fun e => { e with off := s.reloc e.off }
      stale := s.stale }

/-- The prepared record gets its name and its inode number. -/
def Inode.addEnt (s : Slot Ino) (name : String) (sip : Ino) (d : Inode Ino) : Inode Ino :=
  { d with ents := d.ents.insertIdx (min s.pos d.ents.length) ⟨s.off, name, sip⟩ }

/-- `diraddentry(tdp, namep, …, sip, sdp)` -/
def diraddentry (fs : Fs Ino) (tdp : Ino) (name : String) (sip : Ino) (sdp : Option Ino)
    (env : Env Ino) : Fs Ino × Option Errno :=
  match env.prepare with
  | some e => (fs.upd tdp fun d => { d with iSize := max d.iSize env.grown }, some e)
  | none =>
    let fs1 := dirprepareentry fs tdp env.slot
    let r :=
      match sdp with
      | some sdp => if (fs1.inode sip).ifdir then dirfixdotdot fs1 sip sdp tdp env else (fs1, none)
      | none => (fs1, none)
    match r with
    -- `bad`: the record that was prepared is left with `d_ino == 0`
    | (fs2, some e) => (fs2, some e)
    | (fs2, none) => (fs2.upd tdp (Inode.addEnt env.slot name sip), none)

/-- The kinds of inode that `direnter(DE_CREATE)` makes. -/
inductive VType
  | file | VDIR | VEMPTYDIR
  deriving DecidableEq, Repr

/-- `dirmakedirect(sip, tdp)` -/
def dirmakedirect (fs : Fs Ino) (sip tdp : Ino) (env : Env Ino) : Fs Ino × Option Errno :=
  match firstErr [errIf ((fs.inode tdp).iNlink ≥ MAXLINK) .EMLINK, env.bmap] with
  | some e => (fs, some e)
  | none =>
    ((fs.link tdp 1).upd sip fun d =>
      { d with
        iSize := dirtemplateSize fs.lfn
        ents := [⟨0, ".", sip⟩, ⟨dotdotOff fs.lfn, "..", tdp⟩] }, none)

/-- `ialloc`: the inode that the cylinder group offers, which is free. -/
def ialloc (fs : Fs Ino) (env : Env Ino) : Option Ino :=
  env.ialloc.filter fun n => (fs.inode n).ifdir = false ∧ (fs.inode n).iNlink = 0

/-- `dirmakeinode(tdp, ipp, vap)` on the inode that was allocated. -/
def dirmakeinode (fs : Fs Ino) (tdp n : Ino) (vt : VType) (env : Env Ino) :
    Fs Ino × Option Errno :=
  let fs1 := fs.upd n fun _ =>
    { ifdir := vt ≠ .file, iNlink := if vt = .VDIR then 2 else 1, iSize := 0, ents := [],
      stale := (none, false) }
  if vt = .VDIR then
    match dirmakedirect fs1 n tdp env with
    | (fs2, some e) => (iput (fs2.upd n fun ip => { ip with iNlink := 0 }) n, some e)
    | (fs2, none) => (fs2, none)
  else (fs1, none)

/-- `!edir || (edir == 1) || (edir == 2)` -/
def hasDot (edir : ℕ) : Bool := edir = 0 ∨ edir = 1 ∨ edir = 2

/-- `!edir || (edir == 1) || (edir == 3)` -/
def hasDotdot (edir : ℕ) : Bool := edir = 0 ∨ edir = 1 ∨ edir = 3

/-- The checks of `dirrename` before it changes anything. -/
def renameErr (fs : Fs Ino) (sip tip : Ino) (env : Env Ino) : Option Errno :=
  let t := fs.inode tip
  let doingdirectory := (fs.inode sip).ifdir
  firstErr [env.iwrite,
    errIf (t.ifdir = true ∧ doingdirectory = false) .EISDIR,
    errIf (t.ifdir = true ∧ (dirempty t env.empty = 0 ∨ t.iNlink > 2)) .EEXIST,
    errIf (t.ifdir = false ∧ doingdirectory = true) .ENOTDIR]

/-- `dirrename` of a directory from `dirfixdotdot` on. -/
def renameEnd (tdp : Ino) (k : ℕ) (sip tip : Ino) (edir : ℕ) :
    Fs Ino × Option Errno → Fs Ino × Option Errno
  | (fs3, some e) => (fs3, some e)
  | (fs3, none) =>
    let fs4 := if hasDotdot edir then fs3.link tdp (-1) else fs3
    let fs5 := if hasDot edir then itrunc fs4 tip else fs4
    (fs5.upd tdp (·.setIno k sip), none)

/-- `dirrename(sdp, sip, tdp, namep, tip, slotp)`; `k` is the slot of the entry.  `none` is the
panic. -/
def dirrename (fs : Fs Ino) (sdp sip tdp : Ino) (k : ℕ) (tip : Ino) (env : Env Ino) :
    Option (Fs Ino × Option Errno) :=
  match renameErr fs sip tip env with
  | some e => some (fs, some e)
  | none =>
    let fs1 := fs.link tip (-1)
    if (fs.inode sip).ifdir then
      let edir := dirempty (fs1.inode tip) env.empty'
      let fs2 := if hasDot edir then fs1.link tip (-1) else fs1
      if hasDot edir ∧ (fs2.inode tip).iNlink ≠ 0 then none
      else
        some (renameEnd tdp k sip tip edir
          (if sdp ≠ tdp then dirfixdotdot fs2 sip sdp tdp env else (fs2, none)))
    else some (fs1.upd tdp (·.setIno k sip), none)

/-- The checks of `direnter` on the target directory before the search. -/
def targetErr (fs : Fs Ino) (tdp : Ino) (env : Env Ino) : Option Errno :=
  firstErr [errIf ((fs.inode tdp).ifdir = false) .ENOTDIR,
    errIf ((fs.inode tdp).iNlink = 0) .ENOENT, env.iexec]

/-- The errors of `direnter(DE_CREATE)` before an inode is made. -/
def createErr (fs : Fs Ino) (tdp : Ino) (name : String) (env : Env Ino) : Option Errno :=
  firstErr [errIf (name = "." ∨ name = "..") .EEXIST, targetErr fs tdp env, env.look,
    errIf ((dircheckforname (fs.inode tdp) name).isSome) .EEXIST, env.iwrite]

/-- `direnter(tdp, name, DE_CREATE, 0, 0, vap, ipp)` -/
def direnterCreate (fs : Fs Ino) (tdp : Ino) (name : String) (vt : VType) (env : Env Ino) :
    Fs Ino × Option Errno :=
  match createErr fs tdp name env, ialloc fs env with
  | some e, _ => (fs, some e)
  | none, none => (fs, some .ENOSPC)
  | none, some n =>
    match dirmakeinode fs tdp n vt env with
    | (fs1, some e) => (fs1, some e)
    | (fs1, none) =>
      match diraddentry fs1 tdp name n none env with
      | (fs2, none) => (fs2, none)
      | (fs2, some e) =>
        -- unmake the inode we just made
        let fs3 := if (fs2.inode n).ifdir then fs2.link tdp (-1) else fs2
        (iput (fs3.upd n fun ip => { ip with iNlink := 0 }) n, some e)

/-- `out`: undo the bumped link count -/
def undo (sip : Ino) : Fs Ino × Option Errno → Fs Ino × Option Errno
  | (fs, some e) => (fs.link sip (-1), some e)
  | (fs, none) => (fs, none)

/-- The checks of `direnter` on a source inode. -/
def sourceErr (fs : Fs Ino) (sip : Ino) : Option Errno :=
  firstErr [errIf ((fs.inode sip).iNlink = 0) .ENOENT,
    errIf ((fs.inode sip).iNlink ≥ MAXLINK) .EMLINK]

/-- The errors of `direnter(DE_LINK)` after the link count of the source was raised. -/
def linkErr (fs : Fs Ino) (tdp : Ino) (name : String) (env : Env Ino) : Option Errno :=
  firstErr [targetErr fs tdp env, env.look,
    errIf ((dircheckforname (fs.inode tdp) name).isSome) .EEXIST, env.iwrite]

/-- `direnter(tdp, name, DE_LINK, 0, sip, 0, 0)` -/
def direnterLink (fs : Fs Ino) (tdp : Ino) (name : String) (sip : Ino) (env : Env Ino) :
    Fs Ino × Option Errno :=
  match sourceErr fs sip with
  | some e => (fs, some e)
  | none =>
    let fs1 := fs.link sip 1
    undo sip <|
      match linkErr fs1 tdp name env with
      | some e => (fs1, some e)
      | none => diraddentry fs1 tdp name sip none env

/-- The errors of `direnter(DE_RENAME)` after the link count of the source was raised and before
the search. -/
def moveErr (fs : Fs Ino) (tdp sdp sip : Ino) (env : Env Ino) : Option Errno :=
  firstErr [targetErr fs tdp env,
    if (fs.inode sip).ifdir ∧ sdp ≠ tdp then env.checkpath else none, env.look]

/-- The errors of `direnter(DE_RENAME)` when the name is there and names `tip`. -/
def replaceErr (tdp sip tip : Ino) (env : Env Ino) : Option Errno :=
  firstErr [errIf (sip = tip) .ESAME, errIf env.sticky .EPERM, errIf (sip = tdp) .EINVAL]

/-- `direnter(tdp, name, DE_RENAME, sdp, sip, 0, 0)` -/
def direnterRename (fs : Fs Ino) (tdp : Ino) (name : String) (sdp sip : Ino) (env : Env Ino) :
    Option (Fs Ino × Option Errno) :=
  match firstErr [errIf (name = "." ∨ name = "..") .EEXIST, sourceErr fs sip] with
  | some e => some (fs, some e)
  | none =>
    let fs1 := fs.link sip 1
    Option.map (undo sip) <|
      match moveErr fs1 tdp sdp sip env with
      | some e => some (fs1, some e)
      | none =>
        match dircheckforname (fs1.inode tdp) name with
        | some (k, tip) =>
          let r :=
            match replaceErr tdp sip tip env with
            | some e => some (fs1, some e)
            | none => dirrename fs1 sdp sip tdp k tip env
          if tip = tdp then r else r.map fun r => (iput r.1 tip, r.2)
        | none =>
          match firstErr [errIf (sip = tdp) .EINVAL, env.iwrite] with
          | some e => some (fs1, some e)
          | none => some (diraddentry fs1 tdp name sip (some sdp) env)

/-- The errors of `dirremove` when the name is there and names `ip`. -/
def removeErr (fs : Fs Ino) (name : String) (ip : Ino) (oip : Option Ino) (rmdir : Bool)
    (env : RemoveEnv) : Option Errno :=
  firstErr [errIf (oip.isSome ∧ oip ≠ some ip) .ENOENT, errIf env.sticky .EPERM,
    errIf (oip.isSome ∧ name = ".") .EINVAL, errIf (oip.isSome ∧ name = "..") .EEXIST,
    errIf env.mounted .EBUSY,
    errIf (rmdir ∧ (fs.inode ip).ifdir ∧
      ((fs.inode ip).iNlink ≠ 2 ∨ dirempty (fs.inode ip) env.empty = 0)) .EEXIST]

/-- The record `k` is taken out of the directory: its `d_ino` becomes 0. -/
def Inode.dropEnt (lfn : Bool) (k : ℕ) (d : Inode Ino) : Inode Ino :=
  { d with
    ents := d.ents.eraseIdx k
    stale :=
      if (dotdotRec lfn d).map (·.1) = some k then (none, dotdotNamed lfn d) else d.stale }

/-- The links that go with the entry.  The test of the size reads
`ip->i_size >= lfn ? sizeof(struct dirtemplate_lfn) : sizeof(struct dirtemplate)`. -/
def dropLinks (fs : Fs Ino) (dp ip : Ino) (rmdir : Bool) : Fs Ino :=
  if (fs.inode ip).iNlink > 0 then
    if rmdir ∧ (fs.inode ip).ifdir then
      let fs1 := fs.link ip (-1)
      if (fs1.inode ip).iSize ≠ 0 then
        let fs2 := if (fs1.inode ip).iNlink > 0 then fs1.link ip (-1) else fs1
        let lfn := if fs.lfn then 1 else 0
        let test :=
          if (fs2.inode ip).iSize ≥ lfn then dirtemplateSize true else dirtemplateSize false
        let fs3 := if test ≠ 0 then fs2.link dp (-1) else fs2
        itrunc fs3 ip
      else fs1
    else fs.link ip (-1)
  else fs

/-- `dirremove(dp, name, oip, rmdir)` -/
def dirremove (fs : Fs Ino) (dp : Ino) (name : String) (oip : Option Ino) (rmdir : Bool)
    (env : RemoveEnv) : Fs Ino × Option Errno :=
  match firstErr [errIf (rmdir ∧ name = ".") .EINVAL, errIf (rmdir ∧ name = "..") .EEXIST,
      errIf ((fs.inode dp).ifdir = false) .ENOTDIR, env.access, env.look] with
  | some e => (fs, some e)
  | none =>
    match dircheckforname (fs.inode dp) name with
    | none => (fs, some .ENOENT)
    | some (k, ip) =>
      let r :=
        match removeErr fs name ip oip rmdir env with
        | some e => (fs, some e)
        | none => (dropLinks (fs.upd dp (Inode.dropEnt fs.lfn k)) dp ip rmdir, none)
      if ip = dp then r else (iput r.1 ip, r.2)

/-! ### The calls of `ufs_vnops.c` -/

inductive Op (Ino : Type)
  | create (tdp : Ino) (name : String) (vt : VType)
  | link (tdp : Ino) (name : String) (sip : Ino)
  | rename (sdp : Ino) (snm : String) (tdp : Ino) (tnm : String)
  | remove (dp : Ino) (name : String)
  | rmdir (dp : Ino) (name : String)

/-- The inode that `ufs_rename` finds under the source name and goes on with. -/
def renameSource (fs : Fs Ino) (sdp : Ino) (snm : String) : Option Ino :=
  match dircheckforname (fs.inode sdp) snm with
  | some (_, sip) =>
    if (fs.inode sdp).ifdir = false ∨ snm = "." ∨ snm = ".." ∨ sdp = sip then none else some sip
  | none => none

/-- `ufs_rename`: `direnter` and then the matching `dirremove`. -/
def ufsRename (fs : Fs Ino) (sdp : Ino) (snm : String) (tdp : Ino) (tnm : String) (env : Env Ino)
    (renv : RemoveEnv) : Option (Fs Ino) :=
  match renameSource fs sdp snm with
  | none => some fs
  | some sip =>
    match direnterRename fs tdp tnm sdp sip env with
    | none => none
    | some (fs1, some _) => some fs1
    | some (fs1, none) => some (dirremove fs1 sdp snm (some sip) false renv).1

/-- The file system after the call; `none` when it panics. -/
def Op.exec (fs : Fs Ino) (env : Env Ino) (renv : RemoveEnv) : Op Ino → Option (Fs Ino)
  | .create tdp name vt => some (direnterCreate fs tdp name vt env).1
  | .link tdp name sip => some (direnterLink fs tdp name sip env).1
  | .rename sdp snm tdp tnm => ufsRename fs sdp snm tdp tnm env renv
  | .remove dp name => some (dirremove fs dp name none false renv).1
  | .rmdir dp name => some (dirremove fs dp name none true renv).1

end Hpux.DirLink
