import Hpux910.Lib.LinkedQueue
import Hpux910.Lib.Lts
import Mathlib

/-!
# Sleep queues

A sleeping process is on the chain `slpque[HASH(chan)]` of its channel, linked through `p_link`; on
the Series 800 the chains are filled at the tail, `slptl[HASH(chan)]`.  This file models `sleep`,
`unsleep`, `setrun` and `wakeup` as they run on one processor, each in one piece because they run at
`spl7`.

* `Sync` : the chains, the processes, and the two records `slept` and `made`.
* `Sync.sleep`, `Sync.unsleep`, `Sync.wakeup` : the routines; `Sync.collect` and `Sync.awakenLoop` are
  the two loops of `wakeup`.
* `SyncAct`, `syncLts` : the events.

`slept` lists the sleeping processes with their channels in the order in which they went to sleep, and
`made` the processes in the order in which they were made runnable; the code has no such variables and
no routine reads them.
-/

namespace Hpux.Synch

open Function

inductive Stat
  | SRUN
  | SSLEEP
  | SSTOP
  deriving DecidableEq

variable {P : Type} [DecidableEq P]

/-- The sleep queues and what they need of the processes. -/
structure Sync (P : Type) where
  slpque : ℕ → Option P
  /-- For FIFO sleep queues. -/
  slptl : ℕ → Option P
  pLink : P → Option P
  /-- The channel; 0 if the process waits for none. -/
  pWchan : P → ℕ
  pStat : P → Stat
  /-- `p_flag & SLOAD`: the process is in memory. -/
  sload : P → Bool
  /-- The swapper waits for something to swap in. -/
  runout : Bool
  slept : List (P × ℕ)
  made : List P

namespace Sync

/-- `*q`, where `q` is the head of chain `x` or the link of a process. -/
def deref (s : Sync P) (x : ℕ) : Option P → Option P
  | none => s.slpque x
  | some r => s.pLink r

/-- `*q = v`. -/
def assign (s : Sync P) (x : ℕ) (q v : Option P) : Sync P :=
  match q with
  | none => { s with slpque := update s.slpque x v }
  | some r => { s with pLink := update s.pLink r v }

variable (sqmask : ℕ) (runoutChan : ℕ)

/-- The chain of a channel. -/
def HASH (x : ℕ) : ℕ := (x >>> 5) &&& sqmask

/-- `sleep` up to the switch to another process. -/
def sleep (s : Sync P) (rp : P) (chan : ℕ) : Sync P :=
  let x := HASH sqmask chan
  let s := { s with pWchan := update s.pWchan rp chan }
  let s := match s.slpque x, s.slptl x with
    | none, _ => { s with slpque := update s.slpque x (some rp), slptl := update s.slptl x (some rp) }
    | some _, none => s
    | some _, some tp =>
      { s with pLink := update s.pLink tp (some rp), slptl := update s.slptl x (some rp) }
  { s with
    pLink := update s.pLink rp none
    pStat := update s.pStat rp .SSLEEP
    slept := s.slept ++ [(rp, chan)] }

/-- The loop of `unsleep`: the place that points to `p`, and the process before `p`. -/
def findLink (s : Sync P) (x : ℕ) (p : P) : ℕ → Option P → Option (Option P)
  | 0, _ => none
  | fuel + 1, hp =>
    match s.deref x hp with
    | none => none
    | some r => if r = p then some hp else s.findLink x p fuel (some r)

/-- A process is taken off its chain: `q` is the place that points to it and `prev` becomes the tail
if it was the tail. -/
def takeOff (s : Sync P) (x : ℕ) (q prev : Option P) (p : P) : Sync P :=
  let s := { s with pWchan := update s.pWchan p 0, slept := s.slept.filter (·.1 ≠ p) }
  let s := s.assign x q (s.pLink p)
  { s with slptl := if s.slptl x = some p then update s.slptl x prev else s.slptl }

variable [Fintype P]

/-- `unsleep`. -/
def unsleep (s : Sync P) (p : P) : Sync P :=
  if s.pWchan p = 0 then s
  else
    let x := HASH sqmask (s.pWchan p)
    match s.findLink x p (Fintype.card P + 1) none with
    | none => s
    | some hp => s.takeOff x hp hp p

/-- `setrun` for a process that sleeps or is stopped. -/
def setrun (s : Sync P) (p : P) : Sync P :=
  let s := s.unsleep sqmask p
  { s with pStat := update s.pStat p .SRUN, made := s.made ++ [p] }

omit [Fintype P] in
/-- The first loop of `wakeup`: find processes to awaken.  `q` is the place looked at and `awaken` the
list so far; `prev` keeps its value when the search is restarted. -/
def collect (chan : ℕ) (x : ℕ) : ℕ → Option P → Option P → Option P → Sync P → Sync P × Option P
  | 0, _, _, awaken, s => (s, awaken)
  | fuel + 1, q, prev, awaken, s =>
    match s.deref x q with
    | none => (s, awaken)
    | some p =>
      if s.pWchan p = chan then
        let s := s.takeOff x q prev p
        if s.pStat p = .SSLEEP then
          collect chan x fuel none prev (some p) { s with pLink := update s.pLink p awaken }
        else collect chan x fuel q prev awaken s
      else collect chan x fuel (some p) (some p) awaken s

omit [Fintype P] in
/-- The second loop: awaken listed processes.  `nested` is the call of `wakeup` for the swapper. -/
def awakenLoop (nested : Sync P → Sync P) : ℕ → Option P → Sync P → Sync P
  | 0, _, s => s
  | _ + 1, none, s => s
  | fuel + 1, some p, s =>
    let awaken := s.pLink p
    let s := { s with pStat := update s.pStat p .SRUN, made := s.made ++ [p] }
    if s.sload p = false ∧ s.runout = true then
      awakenLoop nested fuel awaken (nested { s with runout := false })
    else awakenLoop nested fuel awaken s

/-- Enough turns for the first loop, which starts afresh after every process it finds. -/
def turns (P : Type) [Fintype P] : ℕ := (Fintype.card P + 1) * (Fintype.card P + 2)

/-- `wakeup`, given what it does for the swapper. -/
def wakeupWith (nested : Sync P → Sync P) (s : Sync P) (chan : ℕ) : Sync P :=
  let r := collect chan (HASH sqmask chan) (turns P) none none none s
  awakenLoop nested (Fintype.card P + 1) r.2 r.1

/-- `wakeup`.  The call that it makes for the swapper finds `runout` 0 and makes no further one. -/
def wakeup (s : Sync P) (chan : ℕ) : Sync P :=
  s.wakeupWith sqmask (fun s => s.wakeupWith sqmask id runoutChan) chan

end Sync

/-- What can happen. -/
inductive SyncAct (P : Type)
  | sleep (p : P) (chan : ℕ)
  | unsleep (p : P)
  | setrun (p : P)
  | wakeup (chan : ℕ)
  /-- A sleeping process is stopped. -/
  | stop (p : P)
  /-- A stopped process that still waits sleeps on. -/
  | cont (p : P)
  /-- The swapper moves a process in or out. -/
  | swap (p : P) (loaded : Bool)
  | runout
  /-- The run queues link the runnable processes through the same field. -/
  | relink (links : P → Option P)

section Runs

variable (sqmask runoutChan : ℕ) [Fintype P]

/-- When an event can happen. -/
def SyncAct.Enabled (s : Sync P) : SyncAct P → Prop
  | .sleep p chan => chan ≠ 0 ∧ s.pStat p = .SRUN
  | .unsleep p => s.pStat p ≠ .SRUN
  | .setrun p => s.pStat p ≠ .SRUN
  | .wakeup chan => chan ≠ 0
  | .stop p => s.pStat p = .SSLEEP
  | .cont p => s.pStat p = .SSTOP ∧ s.pWchan p ≠ 0
  | .swap _ _ => True
  | .runout => True
  | .relink links => ∀ p, s.pStat p ≠ .SRUN → links p = s.pLink p

def Sync.next (s : Sync P) : SyncAct P → Sync P
  | .sleep p chan => s.sleep sqmask p chan
  | .unsleep p => s.unsleep sqmask p
  | .setrun p => s.setrun sqmask p
  | .wakeup chan => s.wakeup sqmask runoutChan chan
  | .stop p => { s with pStat := update s.pStat p .SSTOP }
  | .cont p => { s with pStat := update s.pStat p .SSLEEP }
  | .swap p loaded => { s with sload := update s.sload p loaded }
  | .runout => { s with runout := true }
  | .relink links => { s with pLink := links }

/-- The sequences of events from the state in which all chains are empty. -/
def syncLts : Lts (Sync P) (SyncAct P) where
  init s := (∀ x, s.slpque x = none ∧ s.slptl x = none) ∧
    (∀ p, s.pWchan p = 0 ∧ s.pStat p = .SRUN) ∧ s.slept = [] ∧ s.made = []
  step s a s' := a.Enabled s ∧ s' = s.next sqmask runoutChan a

end Runs

end Hpux.Synch
