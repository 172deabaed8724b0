import Hpux910.Lib.Lts
import Mathlib

/-!
# Swap reservations

`vm_swalloc.c` reserves swap space before it is used.  A reservation comes from the swap devices
(`swapspc_cnt`) or from memory that stands in for swap (`swapmem_cnt`); the kernel steals memory
from the second pool, and from a reserve of its own (`sys_mem`) when that is used up.  The counters
are changed in sections under `rswap_lock`; between its sections a call runs without the lock and
may sleep.

* `Pools` : the counters.
* `reserveSection`, `migrateSection`, `stealSection`, `releaseSection`, `returnSection` : what
  happens under the lock.
* `Call`, `Event`, `State.next` : the calls in progress, and one step of one of them.
* `Inv` : what every section keeps.
* `swap_reservations_balance` : the counters balance in every reachable state.
-/

namespace Hpux

namespace Swap

/-! ### The counters -/

/-- What is fixed when the system has booted (`machdep.c`, `init_main.c`). -/
structure Config where
  /-- `maxmem`: the pages of memory. -/
  maxmem : ℕ
  /-- `swapmem_max`: the pages of memory that may stand in for swap. -/
  swapmemMax : ℕ
  swapmemOn : Bool
  noswap : Bool
  swapmemMax_le : swapmemMax ≤ maxmem
  off : swapmemOn = false → swapmemMax = 0

/-- The counters that `rswap_lock` protects. -/
structure Pools where
  swapspcMax : ℤ
  swapspcCnt : ℤ
  swapmemCnt : ℤ
  sysMem : ℤ
  resSwapmemcnt : ℤ
  deriving DecidableEq

/-- The memory that never stands in for swap. -/
def Config.sysMax (C : Config) : ℤ := C.maxmem - C.swapmemMax

namespace Pools

/-- `swapspc_cnt -= npages`. -/
def takeSpc (p : Pools) (npages : ℕ) : Pools := { p with swapspcCnt := p.swapspcCnt - npages }

/-- `swapmem_cnt -= npages`. -/
def takeMem (p : Pools) (npages : ℕ) : Pools := { p with swapmemCnt := p.swapmemCnt - npages }

/-- `sys_mem -= npages`. -/
def takeSys (p : Pools) (npages : ℕ) : Pools := { p with sysMem := p.sysMem - npages }

/-- `res_swapmemcnt += npages`. -/
def count (p : Pools) (npages : ℤ) : Pools := { p with resSwapmemcnt := p.resSwapmemcnt + npages }

/-- `swapmem_cnt += npages`. -/
def giveMem (p : Pools) (npages : ℤ) : Pools := { p with swapmemCnt := p.swapmemCnt + npages }

/-- What is over `swapmem_max` goes back to the devices. -/
def spill (C : Config) (p : Pools) : Pools :=
  let extra := p.swapmemCnt - C.swapmemMax
  if 0 < extra then
    { p with
      swapspcCnt := p.swapspcCnt + extra
      swapmemCnt := p.swapmemCnt - extra }
  else p

/-- `res_swapmemcnt` goes down by `npages`, but not below zero. -/
def uncount (p : Pools) (npages : ℕ) : Pools :=
  if p.resSwapmemcnt - npages < 0 then { p with resSwapmemcnt := 0 }
  else p.count (-npages)

end Pools

/-! ### Calls in progress -/

/-- The routine a call is in. -/
inductive Routine
  | reserveSwap (nosleep : Bool)
  | stealSwap
  | migrateSwap
  deriving DecidableEq

/-- Where a call stands between two sections. -/
inductive Point
  /-- Before the section at the label `retry`. -/
  | retry
  /-- Before the section of the `migrate_swap` that the routine calls, or is. -/
  | migrate
  /-- In `add_swap`. -/
  | adding
  /-- Asleep on `res_swap_wait` or `res_mem_wait`. -/
  | asleep
  /-- Awake again, the region not locked yet. -/
  | woken
  deriving DecidableEq

/-- A call in progress. -/
structure Call where
  routine : Routine
  npages : ℕ
  nowait : Bool
  /-- A region was passed; the callers hold its lock. -/
  rp : Bool
  /-- The lock of the region is held. -/
  rlock : Bool
  pc : Point
  deriving DecidableEq

/-- A thread of control: a process in the kernel, or an interrupt. -/
inductive Thread
  | idle
  | running (c : Call)
  | returned (value : Bool)
  deriving DecidableEq

/-- A call is in progress. -/
def Thread.busy : Thread → Bool
  | .running _ => true
  | _ => false

/-- The state of the reservations. -/
structure State where
  pools : Pools
  resSwapWait : ℕ
  resMemWait : ℕ
  /-- `p_swpresv` of the processes. -/
  swpresv : ℕ → ℤ
  calls : ℕ → Thread
  /-- Every `VASSERT` so far held. -/
  asserted : Bool
  /-- `steal_swap` panicked. -/
  panicked : Bool
  /-- Ghost: the pages that `reserve_swap` gave and `release_swap` did not take back. -/
  reserved : ℕ
  /-- Ghost: the pages that `steal_swap` took from the pools and `return_swap` did not give
  back. -/
  stolen : ℕ

namespace State

def vassert (c : Prop) [Decidable c] (s : State) : State :=
  { s with asserted := s.asserted && decide c }

def setCall (s : State) (i : ℕ) (t : Thread) : State :=
  { s with calls := Function.update s.calls i t }

/-- The call goes on at another point. -/
def goto (s : State) (i : ℕ) (c : Call) (pc : Point) : State :=
  s.setCall i (.running { c with pc := pc })

def ret (s : State) (i : ℕ) (value : Bool) : State := s.setCall i (.returned value)

/-- The sleepers of the calls of a kind wake up. -/
def wakeup (s : State) (chan : Routine → Bool) : State :=
  { s with
    calls := fun i =>
      match s.calls i with
      | .running c =>
        if c.pc = .asleep && chan c.routine then .running { c with pc := .woken } else .running c
      | t => t }

/-- `if (res_swap_wait) { res_swap_wait = 0; wakeup(&res_swap_wait); }` -/
def wakeupSwap (s : State) : State :=
  if s.resSwapWait ≠ 0 then
    { s with resSwapWait := 0 }.wakeup fun r => match r with
      | .reserveSwap _ => true
      | _ => false
  else s

/-- `if (res_mem_wait) { res_mem_wait = 0; wakeup(&res_mem_wait); }` -/
def wakeupMem (s : State) : State :=
  if s.resMemWait ≠ 0 then { s with resMemWait := 0 }.wakeup (· = Routine.stealSwap) else s

end State

/-! ### The sections under `rswap_lock` -/

/-- `reserve_swap` under the lock; the call is a failure, or goes on to `add_swap`. -/
def reserveSection (s : State) (i : ℕ) (c : Call) (nosleep : Bool) : State :=
  let s := (s.vassert (c.rlock = true)).vassert (0 ≤ s.pools.swapspcCnt)
  if s.pools.swapspcCnt - c.npages < 0 then
    if s.pools.swapmemCnt - c.npages < 0 then
      if nosleep then s.ret i false
      -- regrele(rp), then add_swap()
      else s.goto i { c with rlock := false } .adding
    else
      { s with
        pools := (s.pools.takeMem c.npages).count c.npages
        reserved := s.reserved + c.npages }.ret i true
  else
    { s with
      pools := s.pools.takeSpc c.npages
      reserved := s.reserved + c.npages }.ret i true

/-- `migrate_swap` under the lock, called by `steal_swap` or on its own. -/
def migrateSection (s : State) (i : ℕ) (c : Call) : State :=
  let s := s.vassert (0 ≤ s.pools.swapspcCnt)
  if s.pools.swapspcCnt - c.npages < 0 then
    if c.nowait then s.ret i false
    else s.goto i c .adding
  else
    let s : State :=
      { s with pools := ((s.pools.takeSpc c.npages).giveMem c.npages).count (-c.npages) }
    let s := s.vassert (0 ≤ s.pools.swapspcCnt)
    if c.routine = .migrateSwap then s.ret i true else s.goto i c .retry

/-- `steal_swap` under the lock. -/
def stealSection (s : State) (i : ℕ) (c : Call) : State :=
  if s.pools.swapmemCnt - c.npages < 0 then
    if 0 < s.pools.sysMem - c.npages then
      { s with
        pools := s.pools.takeSys c.npages
        stolen := s.stolen + c.npages }.ret i true
    else if s.pools.resSwapmemcnt - c.npages < 0 then s.ret i false
    else s.goto i c .migrate
  else
    let s := s.vassert (0 ≤ s.pools.swapmemCnt - c.npages)
    { s with
      pools := s.pools.takeMem c.npages
      stolen := s.stolen + c.npages }.ret i true

variable (C : Config)

/-- The pools after `npages` went to the memory pool: the assertions about what is over
`swapmem_max`, and where it goes. -/
def spillSection (s : State) : State :=
  if 0 < s.pools.swapmemCnt - C.swapmemMax then
    let s := s.vassert (0 ≤ s.pools.swapspcCnt)
    let s : State := { s with pools := s.pools.spill C }
    s.vassert (s.pools.swapspcCnt ≤ s.pools.swapspcMax)
  else s

/-- The end of `release_swap` and `return_swap` after `npages` went to the memory pool. -/
def settleSection (s : State) (npages : ℕ) : State :=
  let s := spillSection C s
  { s with pools := s.pools.uncount npages }

/-- `release_swap`. -/
def releaseSwap (s : State) (npages : ℕ) : State :=
  if C.noswap then s
  else
    (settleSection C { s with
        pools := s.pools.giveMem npages
        reserved := s.reserved - npages }
      npages).wakeupSwap

/-- `return_swap` under the lock. -/
def returnSection (s : State) (npages : ℕ) : State :=
  let extra := (s.pools.sysMem + npages) - (C.maxmem - C.swapmemMax)
  if extra ≤ 0 then
    { s with
      pools := { s.pools with sysMem := s.pools.sysMem + npages }
      stolen := s.stolen - npages }.wakeupMem
  else
    (settleSection C { s with
        pools :=
          { s.pools with
            sysMem := s.pools.sysMem + npages - extra
            swapmemCnt := s.pools.swapmemCnt + extra }
        stolen := s.stolen - npages }
      npages).wakeupMem.wakeupSwap

/-- `return_swap`: the pages go back to what the process reserved, or to the pools. -/
def returnSwap (s : State) (npages : ℕ) (onIstack : Bool) (p : ℕ) : State :=
  if !C.swapmemOn then s
  else if !onIstack && s.swpresv p ≠ -1 then
    { s with swpresv := Function.update s.swpresv p (s.swpresv p + npages) }
  else returnSection C s npages

/-! ### Steps -/

/-- `reserve_swap` up to its first section. -/
def reserveEntry (s : State) (i npages : ℕ) (nowait nosleep : Bool) : State :=
  if npages = 0 || C.noswap then s.ret i true
  else s.setCall i (.running ⟨.reserveSwap nosleep, npages, nowait, true, true, .retry⟩)

/-- `migrate_swap` up to its first section. -/
def migrateEntry (s : State) (i npages : ℕ) (nowait : Bool) : State :=
  if npages = 0 then s.ret i true
  else s.setCall i (.running ⟨.migrateSwap, npages, nowait, false, false, .migrate⟩)

/-- `steal_swap` up to its first section.  A process that has reserved memory takes it from
there. -/
def stealEntry (s : State) (i npages : ℕ) (nowait rp onIstack : Bool) (p : ℕ) : State :=
  if !C.swapmemOn || npages = 0 then s.ret i true
  else
    let s := s.vassert (onIstack = true → nowait = true)
    if !onIstack && s.swpresv p ≠ -1 then
      if s.swpresv p < npages then { s with panicked := true }
      else
        { s with swpresv := Function.update s.swpresv p (s.swpresv p - npages) }.ret i true
    else s.setCall i (.running ⟨.stealSwap, npages, nowait, rp, rp, .retry⟩)

/-- `add_swap` returned `ok`. -/
def added (s : State) (i : ℕ) (c : Call) (ok : Bool) : State :=
  match c.routine with
  | .reserveSwap _ =>
    if ok then s.goto i { c with rlock := true } .retry
    else if c.nowait then s.ret i false
    else { s with resSwapWait := s.resSwapWait + 1 }.goto i c .asleep
  | .stealSwap =>
    if ok then s.goto i c .migrate
    else { s with resMemWait := s.resMemWait + 1 }.goto i { c with rlock := false } .asleep
  | .migrateSwap => if ok then s.goto i c .migrate else s.ret i false

/-- The call goes on; `ok` is what `add_swap` returns if it is there. -/
def advance (s : State) (i : ℕ) (c : Call) (ok : Bool) : State :=
  match c.pc with
  | .retry =>
    match c.routine with
    | .reserveSwap nosleep => reserveSection s i c nosleep
    | .stealSwap => stealSection s i c
    | .migrateSwap => migrateSection s i c
  | .migrate => migrateSection s i c
  | .adding => added s i c ok
  | .asleep => s
  -- if (rp != NULL) reglock(rp)
  | .woken => s.goto i { c with rlock := c.rp } .retry

/-- One step of a thread or of the rest of the kernel. -/
inductive Event
  | reserve (i npages : ℕ) (nowait nosleep : Bool)
  | steal (i npages : ℕ) (nowait rp onIstack : Bool) (p : ℕ)
  | migrate (i npages : ℕ) (nowait : Bool)
  | go (i : ℕ) (ok : Bool)
  | release (npages : ℕ)
  | giveBack (npages : ℕ) (onIstack : Bool) (p : ℕ)
  /-- `swapadd` and the DUX client add a chunk. -/
  | addChunk (npages : ℕ)
  /-- `swaprem` takes a chunk that is not committed away. -/
  | dropChunk (npages : ℕ)
  /-- `procmemreserve` and `procmemunreserve` set `p_swpresv`. -/
  | setSwpresv (p : ℕ) (pages : ℤ)

/-- What a caller sees to: nothing is given back that is not outstanding, and who may not sleep
says so. -/
def State.Enabled (s : State) : Event → Prop
  | .reserve i _ _ _ | .migrate i _ _ => (s.calls i).busy = false
  | .steal i _ nowait _ onIstack _ => (s.calls i).busy = false ∧ (onIstack = true → nowait = true)
  | .go i _ => (s.calls i).busy = true
  | .release npages => npages ≤ s.reserved ∨ C.noswap = true
  | .giveBack npages onIstack p =>
    npages ≤ s.stolen ∨ C.swapmemOn = false ∨ (onIstack = false ∧ s.swpresv p ≠ -1)
  | .addChunk _ => True
  | .dropChunk npages => 0 ≤ s.pools.swapspcCnt - npages
  | .setSwpresv _ _ => True

instance (s : State) : DecidablePred (s.Enabled C) := fun e => by
  cases e <;> unfold State.Enabled <;> infer_instance

def State.next (s : State) : Event → State
  | .reserve i npages nowait nosleep => reserveEntry C s i npages nowait nosleep
  | .steal i npages nowait rp onIstack p => stealEntry C s i npages nowait rp onIstack p
  | .migrate i npages nowait => migrateEntry s i npages nowait
  | .go i ok =>
    match s.calls i with
    | .running c => advance s i c ok
    | _ => s
  | .release npages => releaseSwap C s npages
  | .giveBack npages onIstack p => returnSwap C s npages onIstack p
  | .addChunk npages =>
    { s with
      pools :=
        { s.pools with
          swapspcMax := s.pools.swapspcMax + npages
          swapspcCnt := s.pools.swapspcCnt + npages } }
  | .dropChunk npages =>
    { s with
      pools :=
        { s.pools with
          swapspcMax := s.pools.swapspcMax - npages
          swapspcCnt := s.pools.swapspcCnt - npages } }
  | .setSwpresv p pages => { s with swpresv := Function.update s.swpresv p pages }

/-- Booted, with some swap space and nothing reserved. -/
def State.boot (swapspc : ℕ) : State where
  pools := ⟨swapspc, swapspc, C.swapmemMax, C.sysMax, 0⟩
  resSwapWait := 0
  resMemWait := 0
  swpresv := fun _ => -1
  calls := fun _ => .idle
  asserted := true
  panicked := false
  reserved := 0
  stolen := 0

/-- All interleavings of the calls. -/
def system : Lts State Event where
  init s := ∃ swapspc, s = .boot C swapspc
  step s e s' := s.panicked = false ∧ s.Enabled C e ∧ s' = s.next C e

theorem Thread.busy_iff {t : Thread} : t.busy = true ↔ ∃ c, t = .running c := by
  cases t <;> simp [busy]

variable {C} {s s' : State} {p : Pools} {reserved stolen npages i : ℕ} {c : Call}

/-! ### The balance -/

/-- What the counters say about the reservations. -/
structure Balanced (C : Config) (p : Pools) (reserved stolen : ℕ) : Prop where
  spc_nonneg : 0 ≤ p.swapspcCnt
  spc_le : p.swapspcCnt ≤ p.swapspcMax
  mem_nonneg : 0 ≤ p.swapmemCnt
  sys_nonneg : 0 ≤ p.sysMem
  sys_le : p.sysMem ≤ C.sysMax
  mem_res_le : p.swapmemCnt + p.resSwapmemcnt ≤ C.swapmemMax
  /-- What was taken from the three pools is what is outstanding. -/
  sum : (p.swapspcMax - p.swapspcCnt) + (C.swapmemMax - p.swapmemCnt) + (C.sysMax - p.sysMem) =
    reserved + stolen
  /-- Only `steal_swap` takes from `sys_mem`. -/
  sys_stolen : C.sysMax - p.sysMem ≤ stolen

namespace Balanced

theorem reserveSpc (h : Balanced C p reserved stolen) (hn : ¬ p.swapspcCnt - npages < 0) :
    Balanced C (p.takeSpc npages) (reserved + npages) stolen := by
  obtain ⟨h1, h2, h3, h4, h5, h6, h7, h8⟩ := h
  constructor <;> simp only [Pools.takeSpc] <;> omega

theorem reserveMem (h : Balanced C p reserved stolen) (hn : ¬ p.swapmemCnt - npages < 0) :
    Balanced C ((p.takeMem npages).count npages) (reserved + npages) stolen := by
  obtain ⟨h1, h2, h3, h4, h5, h6, h7, h8⟩ := h
  constructor <;> simp only [Pools.takeMem, Pools.count] <;> omega

theorem migrate (h : Balanced C p reserved stolen) (hn : ¬ p.swapspcCnt - npages < 0) :
    Balanced C (((p.takeSpc npages).giveMem npages).count (-npages)) reserved stolen := by
  obtain ⟨h1, h2, h3, h4, h5, h6, h7, h8⟩ := h
  constructor <;> simp only [Pools.takeSpc, Pools.giveMem, Pools.count] <;> omega

theorem stealMem (h : Balanced C p reserved stolen) (hn : ¬ p.swapmemCnt - npages < 0) :
    Balanced C (p.takeMem npages) reserved (stolen + npages) := by
  obtain ⟨h1, h2, h3, h4, h5, h6, h7, h8⟩ := h
  constructor <;> simp only [Pools.takeMem] <;> omega

theorem stealSys (h : Balanced C p reserved stolen) (hn : 0 < p.sysMem - npages) :
    Balanced C (p.takeSys npages) reserved (stolen + npages) := by
  obtain ⟨h1, h2, h3, h4, h5, h6, h7, h8⟩ := h
  constructor <;> simp only [Pools.takeSys] <;> omega

end Balanced

/-- The counters between the first assignment of `release_swap` or `return_swap` and the last:
`res_swapmemcnt` still counts the `npages` that are given back. -/
structure Spilling (C : Config) (p : Pools) (reserved stolen npages : ℕ) : Prop where
  spc_nonneg : 0 ≤ p.swapspcCnt
  spc_le : p.swapspcCnt ≤ p.swapspcMax
  mem_nonneg : 0 ≤ p.swapmemCnt
  sys_nonneg : 0 ≤ p.sysMem
  sys_le : p.sysMem ≤ C.sysMax
  mem_res_le : p.swapmemCnt + p.resSwapmemcnt ≤ C.swapmemMax + npages
  sum : (p.swapspcMax - p.swapspcCnt) + (C.swapmemMax - p.swapmemCnt) + (C.sysMax - p.sysMem) =
    reserved + stolen
  sys_stolen : C.sysMax - p.sysMem ≤ stolen

theorem Balanced.release (h : Balanced C p reserved stolen) (hn : npages ≤ reserved) :
    Spilling C (p.giveMem npages) (reserved - npages) stolen npages := by
  obtain ⟨h1, h2, h3, h4, h5, h6, h7, h8⟩ := h
  constructor <;> simp only [Pools.giveMem] <;> omega

theorem Balanced.giveBack (h : Balanced C p reserved stolen) (hn : npages ≤ stolen)
    (hextra : ¬ p.sysMem + npages - (C.maxmem - C.swapmemMax) ≤ 0) : Spilling C
      { p with
        sysMem := p.sysMem + npages - (p.sysMem + npages - (C.maxmem - C.swapmemMax))
        swapmemCnt := p.swapmemCnt + (p.sysMem + npages - (C.maxmem - C.swapmemMax)) }
      reserved (stolen - npages) npages := by
  obtain ⟨h1, h2, h3, h4, h5, h6, h7, h8⟩ := h
  have hsys : C.sysMax = C.maxmem - C.swapmemMax := rfl
  constructor <;> dsimp only <;> omega

theorem Balanced.refill (h : Balanced C p reserved stolen) (hn : npages ≤ stolen)
    (hextra : p.sysMem + npages - (C.maxmem - C.swapmemMax) ≤ 0) :
    Balanced C { p with sysMem := p.sysMem + npages } reserved (stolen - npages) := by
  obtain ⟨h1, h2, h3, h4, h5, h6, h7, h8⟩ := h
  have hsys : C.sysMax = C.maxmem - C.swapmemMax := rfl
  constructor <;> dsimp only <;> omega

theorem Spilling.spill (h : Spilling C p reserved stolen npages) :
    Spilling C (p.spill C) reserved stolen npages ∧ (p.spill C).swapmemCnt ≤ C.swapmemMax := by
  obtain ⟨h1, h2, h3, h4, h5, h6, h7, h8⟩ := h
  unfold Pools.spill
  dsimp only
  split_ifs with hextra
  · refine ⟨?_, ?_⟩
    · constructor <;> dsimp only <;> omega
    · dsimp only
      omega
  · exact ⟨⟨h1, h2, h3, h4, h5, h6, h7, h8⟩, by omega⟩

theorem Spilling.uncount (h : Spilling C p reserved stolen npages)
    (hmem : p.swapmemCnt ≤ C.swapmemMax) : Balanced C (p.uncount npages) reserved stolen := by
  obtain ⟨h1, h2, h3, h4, h5, h6, h7, h8⟩ := h
  unfold Pools.uncount
  split_ifs with hres
  · constructor <;> dsimp only <;> omega
  · constructor <;> simp only [Pools.count] <;> omega

/-! ### The invariant -/

/-- A call of `reserve_swap` has a region, which is locked when the call is at `retry`. -/
def Call.Ok (c : Call) : Prop :=
  ∀ nosleep, c.routine = .reserveSwap nosleep →
    c.rp = true ∧ c.pc ≠ .migrate ∧ (c.pc = .retry → c.rlock = true)

/-- The counters balance and the assertions held. -/
structure Inv (C : Config) (s : State) : Prop where
  balanced : Balanced C s.pools s.reserved s.stolen
  asserted : s.asserted = true
  calls : ∀ i c, s.calls i = .running c → c.Ok

theorem vassert_eq {q : Prop} [Decidable q] (ha : s.asserted = true) (h : q) : s.vassert q = s := by
  cases s
  simp_all [State.vassert]

theorem Inv.setCall (h : Inv C s) {t : Thread} (ht : ∀ c, t = .running c → c.Ok) :
    Inv C (s.setCall i t) := by
  refine ⟨h.balanced, h.asserted, fun j c hc => ?_⟩
  by_cases hj : j = i
  · subst hj
    exact ht c (by simpa [State.setCall] using hc)
  · exact h.calls j c (by simpa [State.setCall, hj] using hc)

theorem Inv.ret (h : Inv C s) (value : Bool) : Inv C (s.ret i value) :=
  h.setCall fun _ hc => nomatch hc

theorem Inv.wakeup (h : Inv C s) (chan : Routine → Bool) : Inv C (s.wakeup chan) := by
  refine ⟨h.balanced, h.asserted, fun i c hc => ?_⟩
  simp only [State.wakeup] at hc
  split at hc
  · rename_i c' hc'
    have hok := h.calls i c' hc'
    split_ifs at hc with hpc
    · obtain rfl := Thread.running.inj hc
      exact fun nosleep hr => ⟨(hok nosleep hr).1, nofun, nofun⟩
    · obtain rfl := Thread.running.inj hc
      exact hok
  · rename_i hno
    exact absurd hc (hno c)

theorem Inv.wakeupSwap (h : Inv C s) : Inv C s.wakeupSwap := by
  unfold State.wakeupSwap
  split_ifs with hw
  · exact Inv.wakeup (s := { s with resSwapWait := 0 }) ⟨h.balanced, h.asserted, h.calls⟩ _
  · exact h

theorem Inv.wakeupMem (h : Inv C s) : Inv C s.wakeupMem := by
  unfold State.wakeupMem
  split_ifs with hw
  · exact Inv.wakeup (s := { s with resMemWait := 0 }) ⟨h.balanced, h.asserted, h.calls⟩ _
  · exact h

/-! ### The sections keep it -/

theorem Inv.reserveSection (h : Inv C s) (hc : s.calls i = .running c) {nosleep : Bool}
    (hr : c.routine = .reserveSwap nosleep) (hpc : c.pc = .retry) :
    Inv C (reserveSection s i c nosleep) := by
  obtain ⟨hrp, -, hlock⟩ := h.calls i c hc nosleep hr
  unfold Swap.reserveSection
  rw [vassert_eq h.asserted (hlock hpc), vassert_eq h.asserted h.balanced.spc_nonneg]
  dsimp only
  split_ifs with hspc hmem hno
  · exact h.ret false
  · refine h.setCall fun c' hc' _ _ => ?_
    obtain rfl := Thread.running.inj hc'
    exact ⟨hrp, nofun, nofun⟩
  · refine Inv.ret ?_ true
    exact ⟨h.balanced.reserveMem hmem, h.asserted, h.calls⟩
  · refine Inv.ret ?_ true
    exact ⟨h.balanced.reserveSpc hspc, h.asserted, h.calls⟩

theorem Inv.goto (h : Inv C s) (hr : ∀ nosleep, c.routine ≠ .reserveSwap nosleep) (pc : Point) :
    Inv C (s.goto i c pc) := by
  refine h.setCall fun c' hc' nosleep hr' => ?_
  obtain rfl := Thread.running.inj hc'
  exact absurd hr' (hr nosleep)

theorem Inv.migrateSection (h : Inv C s) (hr : ∀ nosleep, c.routine ≠ .reserveSwap nosleep) :
    Inv C (migrateSection s i c) := by
  unfold Swap.migrateSection
  rw [vassert_eq h.asserted h.balanced.spc_nonneg]
  dsimp only
  split_ifs with hspc hno hmig
  · exact h.ret false
  · exact h.goto hr _
  all_goals
    have h' : Inv C { s with
        pools := ((s.pools.takeSpc c.npages).giveMem c.npages).count (-c.npages) } :=
      ⟨h.balanced.migrate hspc, h.asserted, h.calls⟩
    rw [vassert_eq h'.asserted h'.balanced.spc_nonneg]
  · exact h'.ret true
  · exact h'.goto hr _

theorem Inv.stealSection (h : Inv C s) (hr : ∀ nosleep, c.routine ≠ .reserveSwap nosleep) :
    Inv C (stealSection s i c) := by
  unfold Swap.stealSection
  split_ifs with hmem hsys hres
  · refine Inv.ret ?_ true
    exact ⟨h.balanced.stealSys hsys, h.asserted, h.calls⟩
  · exact h.ret false
  · exact h.goto hr _
  · rw [vassert_eq h.asserted (by omega)]
    refine Inv.ret ?_ true
    exact ⟨h.balanced.stealMem hmem, h.asserted, h.calls⟩

theorem spillSection_eq (ha : s.asserted = true) (h : Spilling C s.pools s.reserved s.stolen npages) :
    spillSection C s = { s with pools := s.pools.spill C } := by
  unfold spillSection
  split_ifs with hextra
  · rw [vassert_eq ha h.spc_nonneg]
    exact vassert_eq (s := { s with pools := _ }) ha h.spill.1.spc_le
  · have : s.pools.spill C = s.pools := if_neg hextra
    rw [this]

theorem inv_settleSection (ha : s.asserted = true) (hl : ∀ i c, s.calls i = .running c → c.Ok)
    (h : Spilling C s.pools s.reserved s.stolen npages) : Inv C (settleSection C s npages) := by
  unfold settleSection
  rw [spillSection_eq ha h]
  exact ⟨h.spill.1.uncount h.spill.2, ha, hl⟩

theorem Inv.releaseSwap (h : Inv C s) (hn : npages ≤ s.reserved ∨ C.noswap = true) :
    Inv C (releaseSwap C s npages) := by
  unfold Swap.releaseSwap
  split_ifs with hno
  · exact h
  · refine (inv_settleSection ?_ ?_ ?_).wakeupSwap
    · exact h.asserted
    · exact h.calls
    · exact h.balanced.release (hn.resolve_right hno)

theorem Inv.returnSection (h : Inv C s) (hn : npages ≤ s.stolen) :
    Inv C (returnSection C s npages) := by
  unfold Swap.returnSection
  dsimp only
  split_ifs with hextra
  · exact Inv.wakeupMem ⟨h.balanced.refill hn hextra, h.asserted, h.calls⟩
  · refine (inv_settleSection ?_ ?_ ?_).wakeupMem.wakeupSwap
    · exact h.asserted
    · exact h.calls
    · exact h.balanced.giveBack hn hextra

theorem Inv.returnSwap (h : Inv C s) {onIstack : Bool} {q : ℕ}
    (hn : npages ≤ s.stolen ∨ C.swapmemOn = false ∨ (onIstack = false ∧ s.swpresv q ≠ -1)) :
    Inv C (returnSwap C s npages onIstack q) := by
  unfold Swap.returnSwap
  split_ifs with hoff hresv
  · exact h
  · exact ⟨h.balanced, h.asserted, h.calls⟩
  · refine h.returnSection ?_
    obtain hn | hn | ⟨hi, hq⟩ := hn
    · exact hn
    · simp [hn] at hoff
    · simp [hi, hq] at hresv

/-! ### Steps and runs -/

theorem Inv.stealEntry (h : Inv C s) {nowait rp onIstack : Bool} {q : ℕ}
    (hn : onIstack = true → nowait = true) : Inv C (stealEntry C s i npages nowait rp onIstack q) := by
  unfold Swap.stealEntry
  rw [vassert_eq h.asserted hn]
  dsimp only
  split_ifs with hoff hresv hover
  · exact h.ret true
  · exact ⟨h.balanced, h.asserted, h.calls⟩
  · refine Inv.ret ?_ true
    exact ⟨h.balanced, h.asserted, h.calls⟩
  · refine h.setCall fun c' hc' => ?_
    obtain rfl := Thread.running.inj hc'
    exact nofun

theorem Inv.added (h : Inv C s) (hc : s.calls i = .running c) (ok : Bool) : Inv C (added s i c ok) := by
  have hok := h.calls i c hc
  unfold Swap.added
  split
  · rename_i nosleep hr
    have hrp := (hok nosleep hr).1
    split_ifs with ha hno
    · refine h.setCall fun c' hc' _ _ => ?_
      obtain rfl := Thread.running.inj hc'
      exact ⟨hrp, nofun, fun _ => rfl⟩
    · exact h.ret false
    · refine Inv.setCall ?_ fun c' hc' _ _ => ?_
      · exact ⟨h.balanced, h.asserted, h.calls⟩
      · obtain rfl := Thread.running.inj hc'
        exact ⟨hrp, nofun, nofun⟩
  · rename_i hr
    have hno : ∀ nosleep, c.routine ≠ .reserveSwap nosleep := by simp [hr]
    split_ifs with ha
    · exact h.goto hno _
    · refine Inv.setCall ?_ fun c' hc' nosleep hr' => ?_
      · exact ⟨h.balanced, h.asserted, h.calls⟩
      · obtain rfl := Thread.running.inj hc'
        exact absurd hr' (hno nosleep)
  · rename_i hr
    split_ifs with ha
    · exact h.goto (by simp [hr]) _
    · exact h.ret false

theorem Inv.advance (h : Inv C s) (hc : s.calls i = .running c) (ok : Bool) :
    Inv C (advance s i c ok) := by
  have hok := h.calls i c hc
  unfold Swap.advance
  split
  · rename_i hpc
    split
    · rename_i nosleep hr
      exact h.reserveSection hc hr hpc
    · rename_i hr
      exact h.stealSection (by simp [hr])
    · rename_i hr
      exact h.migrateSection (by simp [hr])
  · rename_i hpc
    exact h.migrateSection fun nosleep hr => (hok nosleep hr).2.1 hpc
  · exact h.added hc ok
  · exact h
  · refine h.setCall fun c' hc' nosleep hr => ?_
    obtain rfl := Thread.running.inj hc'
    have hrp := (hok nosleep hr).1
    exact ⟨hrp, nofun, fun _ => hrp⟩

theorem Inv.next (h : Inv C s) {e : Event} (he : s.Enabled C e) : Inv C (s.next C e) := by
  cases e with
  | reserve i npages nowait nosleep =>
    simp only [State.next, reserveEntry]
    split_ifs with hno
    · exact h.ret true
    · refine h.setCall fun c' hc' _ _ => ?_
      obtain rfl := Thread.running.inj hc'
      exact ⟨rfl, nofun, fun _ => rfl⟩
  | steal i npages nowait rp onIstack q => exact h.stealEntry he.2
  | migrate i npages nowait =>
    simp only [State.next, migrateEntry]
    split_ifs with hno
    · exact h.ret true
    · refine h.setCall fun c' hc' => ?_
      obtain rfl := Thread.running.inj hc'
      exact nofun
  | go i ok =>
    obtain ⟨c, hc⟩ := Thread.busy_iff.1 he
    simp only [State.next, hc]
    exact h.advance hc ok
  | release npages => exact h.releaseSwap he
  | giveBack npages onIstack q => exact h.returnSwap he
  | addChunk npages =>
    obtain ⟨⟨h1, h2, h3, h4, h5, h6, h7, h8⟩, ha, hc⟩ := h
    exact ⟨by constructor <;> simp only [State.next] <;> omega, ha, hc⟩
  | dropChunk npages =>
    obtain ⟨⟨h1, h2, h3, h4, h5, h6, h7, h8⟩, ha, hc⟩ := h
    have he : 0 ≤ s.pools.swapspcCnt - npages := he
    exact ⟨by constructor <;> simp only [State.next] <;> omega, ha, hc⟩
  | setSwpresv q pages => exact ⟨h.balanced, h.asserted, h.calls⟩

theorem inv_boot (swapspc : ℕ) : Inv C (.boot C swapspc) := by
  have hmax := C.swapmemMax_le
  have hsys : C.sysMax = C.maxmem - C.swapmemMax := rfl
  refine ⟨?_, rfl, fun _ _ hc => nomatch hc⟩
  constructor <;> simp only [State.boot] <;> omega

theorem inv_reach (h : (system C).Reach s) : Inv C s := by
  refine h.inv ?_ ?_
  · rintro _ ⟨swapspc, rfl⟩
    exact inv_boot swapspc
  · rintro s e _ - hs ⟨-, he, rfl⟩
    exact hs.next he

/-! ### The theorem -/

/-- The accounts of the swap reservations. -/
structure Accounts (C : Config) (s : State) : Prop where
  spc_nonneg : 0 ≤ s.pools.swapspcCnt
  spc_le : s.pools.swapspcCnt ≤ s.pools.swapspcMax
  mem_nonneg : 0 ≤ s.pools.swapmemCnt
  mem_res_le : s.pools.swapmemCnt + s.pools.resSwapmemcnt ≤ C.swapmemMax
  /-- What was taken from the devices, the memory for swap and the kernel's own memory is what is
  outstanding. -/
  conserved : (s.pools.swapspcMax - s.pools.swapspcCnt) + (C.swapmemMax - s.pools.swapmemCnt) +
    (C.sysMax - s.pools.sysMem) = s.reserved + s.stolen
  vasserts : s.asserted = true

/-- A step of a `reserve_swap` that does not make it return 1 leaves the counters; one that does
reserves the pages asked for. -/
def ReserveOk (C : Config) (s : State) : Prop :=
  ∀ i c nosleep ok, s.calls i = .running c → c.routine = .reserveSwap nosleep →
    let s' := s.next C (.go i ok)
    (s'.calls i = .returned true → s'.reserved = s.reserved + c.npages) ∧
    (s'.calls i ≠ .returned true →
      s'.pools = s.pools ∧ s'.reserved = s.reserved ∧ s'.stolen = s.stolen ∧
        s'.swpresv = s.swpresv ∧ s'.asserted = s.asserted)

theorem calls_setCall (t : Thread) : (s.setCall i t).calls i = t := by simp [State.setCall]

theorem reserveOk_of_same {P : Prop} {t : Thread} (h : s'.calls i = t) (ht : t ≠ .returned true)
    (hpools : s'.pools = s.pools) (hres : s'.reserved = s.reserved) (hst : s'.stolen = s.stolen)
    (hsw : s'.swpresv = s.swpresv) (ha : s'.asserted = s.asserted) :
    (s'.calls i = .returned true → P) ∧ (s'.calls i ≠ .returned true →
      s'.pools = s.pools ∧ s'.reserved = s.reserved ∧ s'.stolen = s.stolen ∧
        s'.swpresv = s.swpresv ∧ s'.asserted = s.asserted) :=
  ⟨fun hret => absurd (h.symm.trans hret) ht, fun _ => ⟨hpools, hres, hst, hsw, ha⟩⟩

theorem Inv.reserveOk (h : Inv C s) : ReserveOk C s := by
  intro i c nosleep ok hc hr
  obtain ⟨hrp, hmig, hlock⟩ := h.calls i c hc nosleep hr
  simp only [State.next, hc, Swap.advance, hr]
  cases hpc : c.pc with
  | retry =>
    simp only [Swap.reserveSection, vassert_eq h.asserted (hlock hpc),
      vassert_eq h.asserted h.balanced.spc_nonneg]
    split_ifs
    · exact reserveOk_of_same (calls_setCall _) nofun rfl rfl rfl rfl rfl
    · exact reserveOk_of_same (calls_setCall _) nofun rfl rfl rfl rfl rfl
    · exact ⟨fun _ => rfl, fun hret => absurd (calls_setCall _) hret⟩
    · exact ⟨fun _ => rfl, fun hret => absurd (calls_setCall _) hret⟩
  | migrate => exact absurd hpc hmig
  | adding =>
    simp only [Swap.added, hr]
    split_ifs
    all_goals exact reserveOk_of_same (calls_setCall _) nofun rfl rfl rfl rfl rfl
  | asleep => exact reserveOk_of_same hc nofun rfl rfl rfl rfl rfl
  | woken => exact reserveOk_of_same (calls_setCall _) nofun rfl rfl rfl rfl rfl

/-- Swap reservations are conserved in every interleaving. -/
theorem swap_reservations_balance (h : (system C).Reach s) : Accounts C s ∧ ReserveOk C s := by
  have hinv := inv_reach h
  have hb := hinv.balanced
  exact ⟨⟨hb.spc_nonneg, hb.spc_le, hb.mem_nonneg, hb.mem_res_le, hb.sum, hinv.asserted⟩,
    hinv.reserveOk⟩

/-- A machine with 30 pages of memory, 10 of which may stand in for swap. -/
def small : Config := ⟨30, 10, true, false, by decide, nofun⟩

/-- A steal of 4 pages, reservations of 5 pages from the device and of 5 pages from memory, both
released, and a steal of 11 pages, which `sys_mem` has to give. -/
def smallRun : List Event :=
  [.steal 0 4 false false false 0, .go 0 true, .reserve 1 5 false false, .go 1 true,
    .reserve 2 5 false false, .go 2 true, .release 5, .release 5, .steal 3 11 false false false 0,
    .go 3 true]

/-- The state after these calls. -/
def smallState : State := smallRun.foldl (State.next small) (.boot small 5)

theorem reach_smallState : (system small).Reach smallState := by
  have hrun : Lts.Follows (fun s e => s.panicked = false ∧ s.Enabled small e) (State.next small) (.boot small 5) smallRun := by
    decide +kernel
  exact Lts.Reach.follows (.init ⟨5, rfl⟩) (fun s e he => ⟨he.1, he.2, rfl⟩) hrun

theorem swap_reservations_balance_small : Accounts small smallState ∧ ReserveOk small smallState :=
  swap_reservations_balance reach_smallState

/-- What is gone from the devices and from the memory for swap is not what is outstanding, with or
without what was stolen, and whether the memory is counted by `swapmem_cnt` or by
`res_swapmemcnt`. -/
theorem swap_reserved_in_sys_mem :
    ∃ C s, (system C).Reach s ∧
      let devices := s.pools.swapspcMax - s.pools.swapspcCnt
      let memory := C.swapmemMax - s.pools.swapmemCnt
      devices + memory ≠ s.reserved + s.stolen ∧ devices + memory ≠ s.reserved ∧
        devices + s.pools.resSwapmemcnt ≠ s.reserved + s.stolen ∧
        devices + s.pools.resSwapmemcnt ≠ s.reserved :=
  ⟨small, smallState, reach_smallState, by decide +kernel⟩

end Swap

end Hpux
