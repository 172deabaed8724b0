import Hpux910.Lib.Forest
import Hpux910.Lib.Lts
import Hpux910.Lib.WaitGraph
import Mathlib

/-!
# Directories renamed at the same time

`direnter(DE_RENAME)` moves a directory to another parent.  It marks the directory `IRENAME`, locks
the target directory, and before it goes on `dircheckpath` unlocks the target and walks from it
along `..` to the root, to see that the moved directory is not on the way.  The walk waits when it
comes to a directory that is marked.  The steps below are what a process does between two points
where it can sleep: the locks of inodes, `iget`, the reads of a directory and the two sleeps on a
mark.

* `Pc` : where a process is in `direnter`, `dircheckpath`, `dirrename` and `dirfixdotdot`.
* `Pc.held`, `Pc.wants` : the inodes that it has locked there, and the one that it waits for.
* `St`, `Act`, `St.Enabled`, `St.next`, `lts` : the file system and the processes as a transition
  system.
* `Safe` : what the renames should keep.
* `Cond` : the condition under which they do.
-/

namespace Hpux.DirRename

/-- Where a process is. -/
inductive Pc (Ino : Type)
  /-- outside `direnter` -/
  | idle
  /-- `rename_retry`: `ilock(sip)` -/
  | lockSip
  | haveSip
  /-- `sleep(&sip->i_flag)` -/
  | sleepSip
  /-- `ilock(tdp)` -/
  | lockTdp
  | haveTdp
  /-- the loop of `dircheckpath` with `ip` locked -/
  | walk (ip : Ino)
  /-- `iget` of the inode that `..` names -/
  | iget (n : Ino)
  /-- `out` of `dircheckpath`: `ilock(target)`, with no error or with one -/
  | relock (ok : Bool)
  /-- `ERENAME`: the inode that was found is marked -/
  | renamed (n : Ino)
  /-- `ilock(target)` with that inode locked -/
  | relockRen (n : Ino)
  /-- `ilock(sip)` with that inode locked -/
  | backSip (n : Ino)
  | undoing (n : Ino)
  /-- `sleep(&tmpip->i_flag)` -/
  | sleepRen (n : Ino)
  /-- `ilock(tmpip)` before `iput(tmpip)` -/
  | relockTmp (n : Ino)
  /-- the same as `backSip` and `undoing` when the inode that was found is the target, which
  `iunlock(tdp)` has unlocked already -/
  | selfBack
  | selfUndo
  /-- the path is good: `dircheckforname` -/
  | search
  /-- `iget` of the directory that has the name -/
  | igetTip (tip : Ino)
  | haveTip (tip : Ino)
  /-- `dirfixdotdot`: `ilock(dp)`; the directory that is replaced, if any, is locked as well -/
  | fixSip (tip : Option Ino)
  | fixing (tip : Option Ino)
  /-- `ilock(opdp)` -/
  | fixOpdp (tip : Option Ino)
  | atOpdp (tip : Option Ino)
  /-- the entry is written -/
  | entering (tip : Option Ino)
  /-- `iput(tip)` -/
  | leaving (tip : Option Ino)
  /-- `out` of `direnter` -/
  | out
  deriving DecidableEq

namespace Pc

variable {Ino : Type}

/-- The inodes that are locked there; the source is `a`, its parent `x` and the target `t`. -/
def held (a x t : Ino) : Pc Ino → List Ino
  | haveSip => [a]
  | haveTdp => [t]
  | walk ip => [ip]
  | renamed n => [n]
  | relockRen n => [n]
  | backSip n => [n]
  | undoing n => [a, n]
  | selfUndo => [a]
  | search => [t]
  | igetTip _ => [t]
  | haveTip tip => [t, tip]
  | fixSip tip => t :: tip.toList
  | fixing tip => a :: t :: tip.toList
  | fixOpdp tip => t :: tip.toList
  | atOpdp tip => x :: t :: tip.toList
  | entering tip => t :: tip.toList
  | leaving tip => t :: tip.toList
  | out => [t]
  | _ => []

/-- The inode that the process waits to lock. -/
def wants (a x t : Ino) : Pc Ino → Option Ino
  | lockSip => some a
  | lockTdp => some t
  | iget n => some n
  | relock _ => some t
  | relockRen _ => some t
  | backSip _ => some a
  | relockTmp n => some n
  | selfBack => some a
  | igetTip tip => some tip
  | fixSip _ => some a
  | fixOpdp _ => some x
  | _ => none

/-- The process has marked the source and not yet taken the mark away. -/
def marks : Pc Ino → Bool
  | idle | lockSip | haveSip | sleepSip | undoing _ | sleepRen _ | relockTmp _ | selfUndo => false
  | _ => true

/-- `..` of the source is rewritten and its new entry is not. -/
def moved : Pc Ino → Bool
  | fixOpdp _ | atOpdp _ | entering _ => true
  | _ => false

end Pc

/-- The directories of a file system and the processes. -/
structure St (Pid Ino : Type) where
  /-- the inode that `..` names -/
  parent : Ino → Ino
  /-- `ent d c`: an entry of `d` other than `.` and `..` names `c` -/
  ent : Ino → Ino → Bool
  /-- `i_nlink` is 0 -/
  gone : Ino → Bool
  /-- `ILOCKED` -/
  ilocked : Ino → Bool
  /-- `IRENAME` -/
  irename : Ino → Bool
  panicked : Bool
  pc : Pid → Pc Ino
  /-- the arguments `sip`, `sdp` and `tdp` of the call -/
  sip : Pid → Ino
  sdp : Pid → Ino
  tdp : Pid → Ino
  /-- The time when the process last marked its source; only the statements read it. -/
  since : Pid → ℕ
  clock : ℕ

namespace St

variable {Pid Ino : Type} (s : St Pid Ino)

/-- The inodes that a process has locked. -/
def held (p : Pid) : List Ino := (s.pc p).held (s.sip p) (s.sdp p) (s.tdp p)

/-- The inode that a process waits to lock. -/
def wants (p : Pid) : Option Ino := (s.pc p).wants (s.sip p) (s.sdp p) (s.tdp p)

/-- A rename in progress. -/
def Renaming (p : Pid) : Prop := (s.pc p).marks = true

instance (p : Pid) : Decidable (s.Renaming p) := inferInstanceAs (Decidable (_ = _))

variable [DecidableEq Pid] [DecidableEq Ino]

/-- The process goes on to `c`; it locks and unlocks what is locked there and is not here, and the
other way round. -/
def move (p : Pid) (c : Pc Ino) : St Pid Ino :=
  { s with
    pc := Function.update s.pc p c
    ilocked := fun i =>
      if i ∈ c.held (s.sip p) (s.sdp p) (s.tdp p) then true
      else if i ∈ s.held p then false
      else s.ilocked i }

end St

/-- What happens next. -/
inductive Act (Pid Ino : Type)
  | start (p : Pid) (sip sdp tdp : Ino)
  /-- a step that changes nothing but locks -/
  | move (p : Pid) (c : Pc Ino)
  /-- `sip->i_nlink++; sip->i_flag |= IRENAME` -/
  | setFlag (p : Pid)
  /-- `sip->i_flag &= ~IRENAME` -/
  | clear (p : Pid) (c : Pc Ino)
  /-- `dirrename` takes the links of the directory that is replaced -/
  | tipGo (p : Pid)
  /-- `dirp->dotdot_ino = npdp->i_number` -/
  | fixWrite (p : Pid)
  /-- the entry in the target directory -/
  | enter (p : Pid)
  /-- `iunlock(tmpip)` of a target that is not locked by the process any more -/
  | badUnlock (p : Pid)

variable {Pid Ino : Type} [DecidableEq Pid] [DecidableEq Ino]

/-- The steps of one process that change only locks.  Wherever a check can fail for a reason that
is not modelled (access, an error of the disc), the error path is open. -/
def St.CanMove (root : Ino) (s : St Pid Ino) (p : Pid) (c : Pc Ino) : Prop :=
  let a := s.sip p
  let t := s.tdp p
  match s.pc p with
  | .lockSip => s.ilocked a = false ∧ c = .haveSip
  | .haveSip => c = .idle ∨ s.irename a = true ∧ c = .sleepSip
  | .sleepSip => c = .lockSip
  | .lockTdp => s.ilocked t = false ∧ c = .haveTdp
  | .haveTdp =>
    c = .out ∨ s.gone t = false ∧ t ≠ a ∧ c = if t = root then .search else .walk t
  | .walk ip =>
    -- an error, or `..` names the source
    (c = if ip = t then .out else .relock false) ∨
    s.gone ip = false ∧ s.parent ip ≠ a ∧
      c = if s.parent ip ≠ root then .iget (s.parent ip)
        else if ip = t then .search else .relock true
  | .iget n =>
    s.ilocked n = false ∧ (c = if s.irename n then .renamed n else .walk n) ∨ c = .relock false
  | .relock ok =>
    s.ilocked t = false ∧ c = if ok = true ∧ s.gone t = false then .search else .out
  | .renamed n => c = if n = t then .selfBack else .relockRen n
  -- the target is locked and unlocked again
  | .relockRen n => s.ilocked t = false ∧ c = .backSip n
  | .undoing n => c = if s.irename n then .sleepRen n else .relockTmp n
  | .sleepRen n => c = .relockTmp n
  | .relockTmp n => s.ilocked n = false ∧ c = .lockSip
  | .search =>
    c = .out ∨ c = .fixSip none ∨
      match c with
      | .igetTip tip => s.ent t tip = true ∧ tip ≠ t
      | _ => False
  | .igetTip tip => s.ilocked tip = false ∧ c = .haveTip tip ∨ c = .out
  | .haveTip _ => c = .out
  | .fixSip tip => s.ilocked a = false ∧ c = .fixing tip
  | .fixing tip =>
    -- an ex-directory or the same parent, and the errors
    (s.gone a = true ∨ s.parent a = t) ∧ c = .entering tip ∨ c = .leaving tip
  | .fixOpdp tip => s.ilocked (s.sdp p) = false ∧ c = .atOpdp tip
  | .atOpdp tip => c = .entering tip
  | .leaving _ => c = .out
  | _ => False

/-- Where a process takes its mark away, and where it goes. -/
def St.CanClear (s : St Pid Ino) (p : Pid) (c : Pc Ino) : Prop :=
  match s.pc p with
  | .backSip n => s.ilocked (s.sip p) = false ∧ c = .undoing n
  | .selfBack => s.ilocked (s.sip p) = false ∧ c = .selfUndo
  | .out => c = .idle
  | _ => False

/-- When an action can happen. -/
def St.Enabled (root : Ino) (s : St Pid Ino) : Act Pid Ino → Prop
  | .start p a x t => s.pc p = .idle ∧ s.ent x a = true ∧ x ≠ a ∧ x ≠ t
  | .move p c => s.CanMove root p c
  | .setFlag p => s.pc p = .haveSip ∧ s.gone (s.sip p) = false ∧ s.irename (s.sip p) = false
  | .clear p c => s.CanClear p c
  | .tipGo p =>
    match s.pc p with
    | .haveTip tip =>
      -- `ESAME`, `dirempty(tip)`, and `i_nlink` above 2 for the source of another rename
      tip ≠ s.sip p ∧ (∀ c, s.ent tip c = false) ∧ ∀ q, s.Renaming q → s.sip q ≠ tip
    | _ => False
  | .fixWrite p =>
    match s.pc p with
    | .fixing _ => s.gone (s.sip p) = false ∧ s.parent (s.sip p) ≠ s.tdp p
    | _ => False
  | .enter p =>
    match s.pc p with
    | .entering _ => True
    | _ => False
  | .badUnlock p => s.pc p = .selfUndo

section Decidable

variable [Fintype Pid] [Fintype Ino] (root : Ino) (s : St Pid Ino)

omit [DecidableEq Pid] [Fintype Pid] [Fintype Ino] in
instance (p : Pid) (c : Pc Ino) : Decidable (s.CanMove root p c) := by
  unfold St.CanMove
  dsimp only
  split <;> try infer_instance
  split <;> infer_instance

omit [DecidableEq Pid] [Fintype Pid] [Fintype Ino] in
instance (p : Pid) (c : Pc Ino) : Decidable (s.CanClear p c) := by
  unfold St.CanClear
  split <;> infer_instance

instance (a : Act Pid Ino) : Decidable (s.Enabled root a) := by
  cases a <;> unfold St.Enabled <;> dsimp only
  all_goals try infer_instance
  all_goals split <;> infer_instance

end Decidable

/-- The state after the action. -/
def St.next (s : St Pid Ino) : Act Pid Ino → St Pid Ino
  | .start p a x t =>
    { s with
      pc := Function.update s.pc p .lockSip
      sip := Function.update s.sip p a
      sdp := Function.update s.sdp p x
      tdp := Function.update s.tdp p t }
  | .move p c => s.move p c
  | .setFlag p =>
    { s.move p .lockTdp with
      irename := Function.update s.irename (s.sip p) true
      since := Function.update s.since p s.clock
      clock := s.clock + 1 }
  | .clear p c =>
    { s.move p c with irename := Function.update s.irename (s.sip p) false }
  | .tipGo p =>
    match s.pc p with
    | .haveTip tip =>
      { s.move p (.fixSip (some tip)) with gone := Function.update s.gone tip true }
    | _ => s
  | .fixWrite p =>
    match s.pc p with
    | .fixing tip =>
      { s.move p (.fixOpdp tip) with parent := Function.update s.parent (s.sip p) (s.tdp p) }
    | _ => s
  | .enter p =>
    match s.pc p with
    | .entering tip =>
      { s.move p (.leaving tip) with
        ent := fun d c =>
          if d = s.tdp p ∧ c = s.sip p then true
          else if d = s.tdp p ∧ some c = tip then false
          else s.ent d c }
    | _ => s
  | .badUnlock p =>
    let s1 := s.move p (.relockTmp (s.tdp p))
    if s.ilocked (s.tdp p) = true then
      { s1 with ilocked := Function.update s1.ilocked (s.tdp p) false }
    else { s1 with panicked := true }

/-- The renames of any number of processes on a file system that is a tree in the beginning. -/
def lts (root : Ino) : Lts (St Pid Ino) (Act Pid Ino) where
  init s :=
    (∀ p, s.pc p = .idle) ∧ Rooted s.parent root ∧ (∀ c, c ≠ root → s.ent (s.parent c) c = true) ∧
      (∀ d, s.ent d root = false) ∧ (∀ i, s.gone i = false) ∧ (∀ i, s.ilocked i = false) ∧
      (∀ i, s.irename i = false) ∧ s.panicked = false
  step s a s' := s.panicked = false ∧ s.Enabled root a ∧ s' = s.next a

/-! ### What the renames should keep -/

/-- A process waits for an inode that another has locked. -/
def St.WaitsFor (s : St Pid Ino) (p q : Pid) : Prop := ∃ i, s.wants p = some i ∧ i ∈ s.held q

/-- The hierarchy is a tree under the root and no processes wait for each other in a circle. -/
structure Safe (root : Ino) (s : St Pid Ino) : Prop where
  /-- `..` leads from every directory to the root, along directories that exist. -/
  rooted : ∀ i, s.gone i = false →
    ∃ k, s.parent^[k] i = root ∧ ∀ j ≤ k, s.gone (s.parent^[j] i) = false
  /-- `..` never leads back. -/
  acyclic : ∀ i k, 0 < k → s.parent^[k] i = i → i = root
  /-- A directory whose `..` is about to be rewritten is not above the target. -/
  notBelow : ∀ p tip, s.pc p = .fixing tip → ¬Above s.parent (s.tdp p) (s.sip p)
  /-- `IRENAME` is set only while the rename is in progress. -/
  marked : ∀ i, s.irename i = true → ∃ p, s.Renaming p ∧ s.sip p = i
  noCycle : Acyclic s.WaitsFor

/-- Whoever has the inode locked does not wait for an inode that is locked. -/
def St.Moves (s : St Pid Ino) (i : Ino) : Prop :=
  ∀ q, i ∈ s.held q → ∀ j, s.wants q = some j → s.ilocked j = false

/-- The condition on a step: the walk does not start at a directory that an earlier rename has
marked, it does not come back to the target and find it marked, and a process that has an inode
locked asks for another one only if whoever has that one locked is not kept waiting itself. -/
def Cond (s : St Pid Ino) : Act Pid Ino → Prop
  | .move p c =>
    (c = .walk (s.tdp p) → s.pc p = .haveTdp →
      ∀ q, s.Renaming q → s.sip q = s.tdp p → s.since p < s.since q) ∧
    c ≠ .renamed (s.tdp p) ∧
    (c.held (s.sip p) (s.sdp p) (s.tdp p) ≠ [] →
      ∀ i, c.wants (s.sip p) (s.sdp p) (s.tdp p) = some i → s.Moves i)
  | .tipGo p => s.Moves (s.sip p)
  | .fixWrite p => s.Moves (s.sdp p)
  | _ => True

instance [Fintype Pid] [Fintype Ino] (s : St Pid Ino) (i : Ino) : Decidable (s.Moves i) :=
  inferInstanceAs (Decidable (∀ q, i ∈ s.held q → ∀ j, s.wants q = some j → s.ilocked j = false))

instance [Fintype Pid] [Fintype Ino] (s : St Pid Ino) (a : Act Pid Ino) : Decidable (Cond s a) := by
  cases a <;> unfold Cond <;> infer_instance

end Hpux.DirRename
