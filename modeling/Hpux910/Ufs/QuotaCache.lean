import Hpux910.Lib.Census
import Hpux910.Lib.Lts
import Mathlib

/-!
# The quota cache

The kernel keeps the quota records of users in dquots, found by user and file system.  A dquot that nobody
holds stays in the cache, on the free list, until it is reused for another record; if it has been modified
it is written back then.  Reading and writing sleep, and so does making more dquots.

* `Dquot`, `Mnt`, `Pc`, `Cache` : dquots, file systems, where callers are, the cache.
* `search`, `victim`, `grown`, `assign` : `getdiskquota` from one sleep to the next.
* `dqupdate`, `written`, `dqput`, `dqreserve`, `dqinval` : the other operations.
* `lts`, `Kept`, `Saved`, `Cond` : the runs, what is kept in them, and the steps that keep it.

A caller is somebody who is in the cache or has a dquot counted, as an inode has.  The file systems are
those of this site.
-/

namespace Hpux.Quota

open Function

/-- The panics of the cache. -/
inductive Panic where
  | diskquota
  | dqput
  | dqupdate
  | dqinval
  | getdiskquota
  deriving DecidableEq

/-- `locked`, `want` and `mod` are the flags; `mp` is null while the dquot is on no hash chain. -/
structure Dquot (U M B : Type) where
  locked : Bool
  want : Bool
  mod : Bool
  cnt : ℤ
  uid : U
  mp : Option M
  dqb : B

/-- A mount entry: whether it is one, whether `m_qinod` is not null, and `MQ_ENABLED`. -/
structure Mnt where
  mounted : Bool
  qinod : Bool
  enabled : Bool

/-- Why a caller sleeps on a dquot: in `getdiskquota`, in `DQLOCK`, in `quota_release`. -/
inductive Why (U M : Type) where
  | get (uid : U) (mp : M) (force : Bool)
  | lock
  | release

/-- What comes after `dqupdate`: the caller has the dquot, `qsync` unlocks it, `quota_release` invalidates
it, `getdiskquota` reuses it. -/
inductive Use (U M : Type) where
  | own
  | sync
  | release
  | reuse (uid : U) (mp : M)

/-- Where a caller is.  `writing` is in `dqupdate`, with the record copied to the file or not; `has` has the
dquot locked, and `kept` has it counted only. -/
inductive Pc (Q U M : Type) where
  | idle
  | asleep (d : Q) (w : Why U M)
  | woken (d : Q) (w : Why U M)
  | growing (uid : U) (mp : M)
  | writing (d : Q) (u : Use U M) (copied : Bool)
  | reading (d : Q)
  | has (d : Q)
  | kept (d : Q)

namespace Pc

variable {Q U M : Type}

/-- The dquot that the caller has counted. -/
def holds : Pc Q U M → Option Q
  | asleep d .lock | woken d .lock | writing d .own _ | reading d | has d | kept d => some d
  | _ => none

/-- The dquot that the caller has locked. -/
def uses : Pc Q U M → Option Q
  | writing d _ _ | reading d | has d => some d
  | _ => none

/-- The dquot that it matters for. -/
def about : Pc Q U M → Option Q
  | asleep d _ | woken d .lock | writing d _ _ | reading d | has d | kept d => some d
  | _ => none

end Pc

/-- The dquots that have been made, those on hash chains (the last one hashed first), the free list and the
reserved list with its flag `DQ_FREE`, and the quotas files with what lies beyond their ends left out. -/
structure Cache (P Q U M B : Type) where
  dq : Q → Dquot U M B
  made : Q → Bool
  hash : List Q
  free : List Q
  resv : List Q
  dqfree : Bool
  mnt : M → Mnt
  quotas : M → U → Option B
  pc : P → Pc Q U M

namespace Cache

variable {P Q U M B : Type} [DecidableEq P] [DecidableEq Q] [DecidableEq U] [DecidableEq M] [Zero B]
variable (s : Cache P Q U M B)

def setDq (d : Q) (x : Dquot U M B) : Cache P Q U M B := { s with dq := update s.dq d x }

def setPc (c : P) (y : Pc Q U M) : Cache P Q U M B := { s with pc := update s.pc c y }

/-- `dqremfree` -/
def dqremfree (d : Q) : Cache P Q U M B := { s with free := s.free.erase d, resv := s.resv.erase d }

/-- `remque` -/
def remque (d : Q) : Cache P Q U M B := { s with hash := s.hash.erase d }

def wakeup (d : Q) : Cache P Q U M B :=
  { s with pc := fun c => match s.pc c with
    | .asleep d' w => if d' = d then .woken d w else .asleep d' w
    | y => y }

/-- `DQUNLOCK` -/
def unlock (d : Q) : Cache P Q U M B :=
  let s := s.setDq d { s.dq d with locked := false }
  if (s.dq d).want then (s.setDq d { s.dq d with want := false }).wakeup d else s

/-- `DQLOCK`, by somebody who has the dquot counted. -/
def lock (c : P) (d : Q) : Cache P Q U M B :=
  if (s.dq d).locked then (s.setDq d { s.dq d with want := true }).setPc c (.asleep d .lock)
  else (s.setDq d { s.dq d with locked := true }).setPc c (.has d)

/-- `dqupdate`, to where it sleeps. -/
def dqupdate (c : P) (d : Q) (u : Use U M) : Except Panic (Cache P Q U M B) :=
  match (s.dq d).mp with
  | none => .error .dqupdate
  | some mp =>
    if (s.mnt mp).qinod = false ∨ (s.dq d).locked = false ∨ (s.dq d).mod = false then .error .dqupdate
    else .ok (s.setPc c (.writing d u false))

/-- The record gets to the quotas file. -/
def copied (c : P) (d : Q) (u : Use U M) : Cache P Q U M B :=
  match (s.dq d).mp with
  | none => s
  | some mp =>
    { s with quotas := update s.quotas mp (update (s.quotas mp) (s.dq d).uid (some (s.dq d).dqb)) }.setPc c
      (.writing d u true)

/-- The end of `getdiskquota`, to where it reads. -/
def assign (c : P) (d : Q) (uid : U) (mp : M) : Cache P Q U M B :=
  let s := (s.dqremfree d).remque d
  let s := s.setDq d { s.dq d with
    locked := true, want := false, mod := false, cnt := 1, uid := uid, mp := some mp }
  let s := { s with hash := d :: s.hash }
  match s.quotas mp uid with
  | none => (s.setDq d { s.dq d with dqb := 0 }).setPc c (.has d)
  | some _ => s.setPc c (.reading d)

/-- A dquot from the free list. -/
def victim (c : P) (d : Q) (uid : U) (mp : M) : Except Panic (Cache P Q U M B) :=
  if (s.dq d).cnt ≠ 0 ∨ (s.dq d).locked ∨ (s.dq d).want then .error .diskquota
  else if (s.dq d).mod then
    (s.setDq d { s.dq d with locked := true }).dqupdate c d (.reuse uid mp)
  else .ok (s.assign c d uid mp)

/-- `dq_move_to_freelist`, when the free list is empty and `DQ_FREE` is set. -/
def refill : Cache P Q U M B :=
  if s.free = [] ∧ s.dqfree then { s with free := s.free ++ s.resv, resv := [], dqfree := false } else s

/-- The dquot of a user and a file system. -/
def find (uid : U) (mp : M) : Option Q :=
  s.hash.find? fun d => (s.dq d).uid = uid ∧ (s.dq d).mp = some mp

/-- `getdiskquota` from `loop`. -/
def search (c : P) (uid : U) (mp : M) (force : Bool) : Except Panic (Cache P Q U M B) :=
  if (s.mnt mp).enabled = false ∧ force = false then .ok (s.setPc c .idle)
  else if (s.mnt mp).qinod = false then .error .getdiskquota
  else
    match s.find uid mp with
    | some d =>
      if (s.dq d).locked then
        .ok ((s.setDq d { s.dq d with want := true }).setPc c (.asleep d (.get uid mp force)))
      else
        let s := s.setDq d { s.dq d with locked := true }
        let s := if (s.dq d).cnt = 0 then s.dqremfree d else s
        .ok ((s.setDq d { s.dq d with cnt := (s.dq d).cnt + 1 }).setPc c (.has d))
    | none =>
      match s.refill.free with
      | d :: _ => s.refill.victim c d uid mp
      | [] => .ok (s.refill.setPc c (.growing uid mp))

/-- The caller sleeps no more. -/
def again (c : P) (gone : Bool) : Except Panic (Cache P Q U M B) :=
  match s.pc c with
  | .woken _ (.get uid mp force) =>
    if gone then .ok (s.setPc c .idle) else s.search c uid mp force
  | .woken d .lock => .ok (s.lock c d)
  | _ => .ok (s.setPc c .idle)

/-- A dquot that `dquot_grow` has made. -/
def insert (d : Q) : Cache P Q U M B :=
  let s := s.setDq d { s.dq d with locked := false, want := false, mod := false, cnt := 0, mp := none }
  { s with made := update s.made d true, free := d :: s.free }

/-- `dquot_grow` is back, with two dquots. -/
def grown (c : P) (d₁ d₂ : Q) (gone : Bool) (uid : U) (mp : M) : Cache P Q U M B :=
  let s := (s.insert d₁).insert d₂
  if gone then s.setPc c .idle else s.assign c d₂ uid mp

def dqinval (c : P) (d : Q) : Except Panic (Cache P Q U M B) :=
  if (s.dq d).cnt ≠ 0 ∨ (s.dq d).mod ∨ (s.dq d).want then .error .dqinval
  else
    let s := s.setDq d { s.dq d with locked := false, want := false, mod := false, mp := none }
    let s := (s.remque d).dqremfree d
    .ok ({ s with free := d :: s.free }.setPc c .idle)

/-- The record has been written, or has not. -/
def written (c : P) (d : Q) (u : Use U M) (err gone : Bool) : Except Panic (Cache P Q U M B) :=
  let s := if err then s else s.setDq d { s.dq d with mod := false }
  match u with
  | .own => .ok (s.setPc c (.has d))
  | .sync => .ok ((s.unlock d).setPc c .idle)
  | .release => s.dqinval c d
  | .reuse uid mp => if gone then .ok (s.setPc c .idle) else .ok (s.assign c d uid mp)

/-- The record has been read, or has not. -/
def read (c : P) (d : Q) (err : Bool) : Cache P Q U M B :=
  if err then
    let s := s.remque d
    let s := s.setDq d { s.dq d with cnt := 0, mp := none }
    let s := { s with free := d :: s.free }
    (s.unlock d).setPc c .idle
  else
    match (s.dq d).mp with
    | none => s
    | some mp =>
      (s.setDq d { s.dq d with dqb := (s.quotas mp (s.dq d).uid).getD 0 }).setPc c (.has d)

def dqput (c : P) (d : Q) : Except Panic (Cache P Q U M B) :=
  if (s.dq d).cnt = 0 ∨ (s.dq d).locked = false then .error .dqput
  else
    let s := s.setDq d { s.dq d with cnt := (s.dq d).cnt - 1 }
    let s := if (s.dq d).cnt = 0 then { s with free := s.free ++ [d] } else s
    .ok ((s.unlock d).setPc c .idle)

def dqreserve (c : P) (d : Q) : Except Panic (Cache P Q U M B) :=
  if (s.dq d).cnt = 0 ∨ (s.dq d).locked = false then .error .dqput
  else
    let s := s.unlock d
    let s := s.setDq d { s.dq d with cnt := (s.dq d).cnt - 1 }
    let s := if (s.dq d).cnt = 0 then { s with resv := s.resv ++ [d] } else s
    .ok (s.setPc c .idle)

/-- `qsync` writes a record. -/
def sync (c : P) (d : Q) : Except Panic (Cache P Q U M B) :=
  (s.setDq d { s.dq d with locked := true }).dqupdate c d .sync

/-- `quota_release` gets to a dquot. -/
def release (c : P) (d : Q) : Except Panic (Cache P Q U M B) :=
  if (s.dq d).locked then .ok ((s.setDq d { s.dq d with want := true }).setPc c (.asleep d .release))
  else
    let s := s.setDq d { s.dq d with locked := true }
    if (s.dq d).mod then s.dqupdate c d .release else s.dqinval c d

/-- `chkdq`, `chkiq` and `setquota` change a record. -/
def modify (d : Q) (b : B) : Cache P Q U M B := s.setDq d { s.dq d with mod := true, dqb := b }

end Cache

/-! ### Runs -/

/-- `gone` is what the look for the mount entry tells; `mnt` and `extend` are what the rest of the system
does to file systems and to quotas files that get longer. -/
inductive Event (P Q U M B : Type) where
  | get (c : P) (uid : U) (mp : M) (force : Bool)
  | again (c : P) (gone : Bool)
  | grown (c : P) (d₁ d₂ : Q) (gone : Bool)
  | copied (c : P)
  | written (c : P) (err gone : Bool)
  | read (c : P) (err : Bool)
  | put (c : P)
  | reserve (c : P)
  | unlock (c : P)
  | lock (c : P)
  | modify (c : P) (b : B)
  | update (c : P)
  | sync (c : P) (d : Q)
  | release (c : P) (d : Q)
  | timeout
  | mnt (mp : M) (x : Mnt)
  | extend (mp : M) (uid : U)

variable {P Q U M B : Type}

/-- What a caller does next is what it can do; the look for a mount entry that is there finds it. -/
def Enabled (s : Cache P Q U M B) : Event P Q U M B → Prop
  | .get c _ _ _ => s.pc c = .idle
  | .again c gone => ∃ d w, s.pc c = .woken d w ∧
      ∀ uid mp force, w = .get uid mp force → gone = true → (s.mnt mp).mounted = false
  | .grown c d₁ d₂ gone => ∃ uid mp, s.pc c = .growing uid mp ∧ (gone = true → (s.mnt mp).mounted = false) ∧
      d₁ ≠ d₂ ∧ s.made d₁ = false ∧ s.made d₂ = false
  | .copied c => ∃ d u, s.pc c = .writing d u false
  | .written c err gone => ∃ d u copied, s.pc c = .writing d u copied ∧ (err = false → copied = true) ∧
      ∀ uid mp, u = .reuse uid mp → gone = true → (s.mnt mp).mounted = false
  | .read c _ => ∃ d, s.pc c = .reading d
  | .put c | .reserve c | .unlock c => ∃ d, s.pc c = .has d
  | .lock c => ∃ d, s.pc c = .kept d
  | .modify c _ => ∃ d, s.pc c = .has d ∨ s.pc c = .kept d
  | .update c => ∃ d, s.pc c = .has d ∧ (s.dq d).mod = true
  | .sync c d => s.pc c = .idle ∧ d ∈ s.hash ∧ (s.dq d).mod = true ∧ (s.dq d).locked = false
  | .release c d => s.pc c = .idle ∧ d ∈ s.hash
  | .timeout => True
  | .mnt _ x => x.enabled = true → x.qinod = true
  | .extend mp uid => s.quotas mp uid = none

variable [DecidableEq P] [DecidableEq Q] [DecidableEq U] [DecidableEq M] [Zero B]

def call (s : Cache P Q U M B) : Event P Q U M B → Except Panic (Cache P Q U M B)
  | .get c uid mp force => s.search c uid mp force
  | .again c gone => s.again c gone
  | .grown c d₁ d₂ gone => match s.pc c with
    | .growing uid mp => .ok (s.grown c d₁ d₂ gone uid mp)
    | _ => .ok s
  | .copied c => match s.pc c with
    | .writing d u _ => .ok (s.copied c d u)
    | _ => .ok s
  | .written c err gone => match s.pc c with
    | .writing d u _ => s.written c d u err gone
    | _ => .ok s
  | .read c err => match s.pc c with
    | .reading d => .ok (s.read c d err)
    | _ => .ok s
  | .put c => match s.pc c with
    | .has d => s.dqput c d
    | _ => .ok s
  | .reserve c => match s.pc c with
    | .has d => s.dqreserve c d
    | _ => .ok s
  | .unlock c => match s.pc c with
    | .has d => .ok ((s.unlock d).setPc c (.kept d))
    | _ => .ok s
  | .lock c => match s.pc c with
    | .kept d => .ok (s.lock c d)
    | _ => .ok s
  | .modify c b => match s.pc c with
    | .has d | .kept d => .ok (s.modify d b)
    | _ => .ok s
  | .update c => match s.pc c with
    | .has d => s.dqupdate c d .own
    | _ => .ok s
  | .sync c d => s.sync c d
  | .release c d => s.release c d
  | .timeout => .ok { s with dqfree := true }
  | .mnt mp x => .ok { s with mnt := update s.mnt mp x }
  | .extend mp uid => .ok { s with quotas := update s.quotas mp (update (s.quotas mp) uid (some 0)) }

/-- No dquot has been made, and nobody is here. -/
def Start (s : Cache P Q U M B) : Prop :=
  (∀ d, s.made d = false ∧ (s.dq d).locked = false ∧ (s.dq d).want = false ∧ (s.dq d).mod = false ∧
    (s.dq d).cnt = 0 ∧ (s.dq d).mp = none) ∧
    s.hash = [] ∧ s.free = [] ∧ s.resv = [] ∧ (∀ c, s.pc c = .idle) ∧
    ∀ mp, (s.mnt mp).enabled = true → (s.mnt mp).qinod = true

/-- A panic ends a run. -/
def lts : Lts (Except Panic (Cache P Q U M B)) (Event P Q U M B) where
  init x := ∃ s, x = .ok s ∧ Start s
  step x l x' := ∃ s, x = .ok s ∧ Enabled s l ∧ x' = call s l

variable [Fintype P]

/-- A user has one dquot for a file system at most; a dquot counts those who hold it, and is free (on the
free list, or on the reserved list where `dqreserve` has put it) exactly when nobody does; it is locked
only while one caller uses it; and a caller that sleeps on a dquot will be woken when it is unlocked, and
it is the one asked for. -/
structure Kept (s : Cache P Q U M B) : Prop where
  unique : ∀ d ∈ s.hash, ∀ d' ∈ s.hash, (s.dq d).uid = (s.dq d').uid → (s.dq d).mp = (s.dq d').mp → d = d'
  counted : ∀ d, (s.dq d).cnt = ((Finset.univ.filter fun c => (s.pc c).holds = some d).card : ℤ)
  listed : (s.free ++ s.resv).Nodup ∧ ∀ d, d ∈ s.free ++ s.resv ↔ s.made d = true ∧ (s.dq d).cnt = 0
  locked : ∀ d, (s.dq d).locked = true → ∃! c, (s.pc c).uses = some d
  asleep : ∀ c d w, s.pc c = .asleep d w → (s.dq d).locked = true ∧ (s.dq d).want = true ∧
    ∀ uid mp force, w = .get uid mp force → d ∈ s.hash ∧ (s.dq d).uid = uid ∧ (s.dq d).mp = some mp

omit [DecidableEq P] [DecidableEq Q] [DecidableEq U] [DecidableEq M] [Fintype P] in
/-- Between two states, a dquot that is not being read has its record in the file before it is reused. -/
def Saved (s s' : Cache P Q U M B) : Prop :=
  ∀ d mp, (s.dq d).mp = some mp → (∀ c, s.pc c ≠ .reading d) →
    ((s'.dq d).uid ≠ (s.dq d).uid ∨ (s'.dq d).mp ≠ some mp) →
    (s'.quotas mp (s.dq d).uid).getD 0 = (s.dq d).dqb

omit [DecidableEq P] [DecidableEq Q] [DecidableEq U] [DecidableEq M] [Zero B] [Fintype P] in
/-- `getdiskquota` writes the record of the dquot back before it reuses it. -/
def Reusing (s : Cache P Q U M B) (d : Q) : Prop := ∃ c uid mp copied, s.pc c = .writing d (.reuse uid mp) copied

omit [DecidableEq P] [Zero B] [Fintype P] in
/-- The search finds no dquot that is about to be reused, and none in use at the head of the free list. -/
def SearchOk (s : Cache P Q U M B) (uid : U) (mp : M) (force : Bool) : Prop :=
  (s.mnt mp).enabled = true ∨ force = true → match s.find uid mp with
    | some d => ¬Reusing s d
    | none => ∀ d ∈ s.refill.free.head?, (s.dq d).locked = false

omit [Zero B] [Fintype P] in
/-- Searches are as in `SearchOk`; whoever has slept to get another dquot still finds none for what it looks
for, the quotas file open, and what it reuses written; nobody has changed a record since it was copied to
the file; and a quotas file is closed when no dquot of its file system is hashed. -/
def Cond (s : Cache P Q U M B) : Event P Q U M B → Prop
  | .get _ uid mp force => SearchOk s uid mp force
  | .again c gone => ∀ d uid mp force, s.pc c = .woken d (.get uid mp force) → gone = false →
      SearchOk s uid mp force
  | .grown c _ _ gone => ∀ uid mp, s.pc c = .growing uid mp → gone = false →
      s.find uid mp = none ∧ (s.mnt mp).qinod = true
  | .written c err gone => ∀ d u copied, s.pc c = .writing d u copied →
      match u with
      | .reuse uid mp => err = false ∧ gone = false ∧ s.find uid mp = none ∧ (s.mnt mp).qinod = true
      | _ => err = false → ∀ mp, (s.dq d).mp = some mp → s.quotas mp (s.dq d).uid = some (s.dq d).dqb
  | .release _ d => ¬Reusing s d
  | .mnt mp x => x.qinod = false → ∀ d ∈ s.hash, (s.dq d).mp ≠ some mp
  | _ => True

end Hpux.Quota
