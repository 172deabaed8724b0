import Hpux910.Sys.MsemRuns
import Hpux910.Lib.Chase

/-!
# Who waits for whom

A process that waits on an `msem_info` waits for its `msem_locker`.  Before `msleep` lets a process
wait for the first time it follows this chain from the locker of the semaphore, and refuses when
the chain comes back to the process; that the chain ends rests on the refusals made before.

* `State.blocker` : the graph.
* `Books` : what the kernel's records say of the calls, and that the graph has no cycle.
* `Orderly` : the condition on the steps; the call does not hold the semaphore itself, and the
  structure it found before it slept is still there.
* `msem_deadlock_check` : the check in the runs that meet it.
-/

namespace Hpux

namespace Msem

open Relation Function Option Finset

variable {s s' : State} {p q a : ℕ} {k : Key} {f g : Frame}

/-! ### The graph -/

/-- `msem_waitptr` -/
def State.waitptr (s : State) (p : ℕ) : Option ℕ := (s.procs p).bind ProcInfo.waitptr

/-- The process that a process waits for. -/
def State.blocker (s : State) (p : ℕ) : Option ℕ :=
  (s.waitptr p).bind fun a => (s.infos a).locker

/-- The caller would be on a cycle if it slept. -/
def State.Closes (s : State) (p : ℕ) (f : Frame) : Prop :=
  TransGen (Chase.Edge ((s.touch f.key).gotoSleep p (s.readCp f)).blocker) p p

/-- The call finds the semaphore locked by another process, and may wait for it. -/
def State.mustWait (s : State) (f : Frame) (fault : Bool) : Bool :=
  !fault && (s.readCp f).semCp.magic = msemMagic && !s.granted (s.readCp f) && !f.nowait

/-- The structure that the call found is still there: a process waits on it, for this semaphore. -/
def State.inUse (s : State) (f : Frame) : Bool :=
  s.procList.any fun q => (s.frame q).any fun g => g.waiting && g.iptr == f.iptr && g.key == f.key

/-- A call that does not wait yet has a structure of its own or one that is in use; and it does not
wait for a semaphore that its process holds. -/
def Orderly (s : State) : Event → Bool
  | .validated p fault _ => match s.phase p with
    | .validate f => f.waiting || ((f.own || s.inUse f) &&
        (!s.mustWait f fault || s.lockPinfo (s.readCp f) ≠ some p))
    | _ => true
  | _ => true

/-- What the check is for. -/
structure DeadlockOk (s : State) : Prop where
  /-- No process waits for itself, directly or through others. -/
  acyclic : Chase.Acyclic s.blocker
  /-- The walk ends, wherever it starts. -/
  ends : ∀ p q, ∃ b, s.deadlock p (s.procList.length + 3) q = some b
  /-- The call returns `EDEADLK` if it would have to wait, and would close a cycle. -/
  exact : ∀ p f fault n, s.phase p = .validate f → s.enabled (.validated p fault n) = true →
    Orderly s (.validated p fault n) = true →
    (((s.next (.validated p fault n)).phase p = .user ∧
        (s.next (.validated p fault n)).error p = .edeadlk) ↔
      s.mustWait f fault = true ∧ s.Closes p f)

/-! ### The invariant -/

def Frame.waitsOn (f : Frame) : Option ℕ := if f.waiting then some f.iptr else none

def Frame.owned (f : Frame) : Option ℕ := if f.own then some f.iptr else none

/-- The structure the call of the process waits on. -/
def State.waitsOn (s : State) (p : ℕ) : Option ℕ := (s.frame p).bind Frame.waitsOn

/-- The structure the call has allocated and not linked. -/
def State.owned (s : State) (p : ℕ) : Option ℕ := (s.frame p).bind Frame.owned

/-- In `msleep`, with an `msem_procinfo`. -/
def Phase.inCall : Phase → Bool
  | .malloc _ _ => true
  | .validate _ => true
  | .asleep _ _ => true
  | _ => false

/-- The calls and the kernel's records agree. -/
structure Books (s : State) : Prop where
  waitptr : ∀ p, s.waitptr p = s.waitsOn p
  known : ∀ p, (s.phase p).inCall = true → s.procs p ≠ none
  listed : ∀ p, s.procs p ≠ none → p ∈ s.procList
  /-- What somebody waits on is linked, and `wait_count` counts who does. -/
  live : ∀ p a, s.waitptr p = some a → s.used a = true ∧ (s.infos a).reg ≠ none ∧
    ∃ W : Finset ℕ, (∀ q, q ∈ W ↔ s.waitptr q = some a) ∧ W.card = (s.infos a).waitCount
  own : ∀ p a, s.owned p = some a → s.waitptr p = none ∧ (s.infos a).reg = none ∧
    s.used a = true ∧ ∀ q, s.owned q = some a → q = p
  acyclic : Chase.Acyclic s.blocker

/-- The lockers and the lists of locked semaphores may differ. -/
structure Alike (s s' : State) : Prop where
  waitptr : ∀ q, s'.waitptr q = s.waitptr q
  procs : ∀ q, s'.procs q = none ↔ s.procs q = none
  procList : s'.procList = s.procList
  waitsOn : ∀ q, s'.waitsOn q = s.waitsOn q
  owned : ∀ q, s'.owned q = s.owned q
  inCall : ∀ q, (s'.phase q).inCall = (s.phase q).inCall
  used : s'.used = s.used
  reg : ∀ a, (s'.infos a).reg = (s.infos a).reg
  count : ∀ a, (s'.infos a).waitCount = (s.infos a).waitCount

/-- A structure that changes hands goes to a process that does not wait. -/
theorem Books.alike (h : Books s) (hs : Alike s s') (hlock : ∀ a r, (s'.infos a).locker = some r →
      (s.infos a).locker = some r ∨ s.waitptr r = none) : Books s' := by
  refine ⟨fun p => ?_, fun p hp => ?_, fun p hp => ?_, fun p a hp => ?_, fun p a hp => ?_, ?_⟩
  · rw [hs.waitptr, hs.waitsOn, h.waitptr]
  · rw [hs.inCall] at hp
    exact fun hn => h.known p hp ((hs.procs p).1 hn)
  · rw [hs.procList]
    exact h.listed p fun hn => hp ((hs.procs p).2 hn)
  · rw [hs.waitptr] at hp
    obtain ⟨h1, h2, W, hW, hc⟩ := h.live p a hp
    refine ⟨hs.used ▸ h1, by rwa [hs.reg], W, fun q => ?_, ?_⟩
    · rw [hW, hs.waitptr]
    · rw [hs.count, hc]
  · rw [hs.owned] at hp
    obtain ⟨h1, h2, h3, h4⟩ := h.own p a hp
    refine ⟨by rw [hs.waitptr, h1], by rw [hs.reg, h2], hs.used ▸ h3, fun q hq => ?_⟩
    rw [hs.owned] at hq
    exact h4 q hq
  · refine h.acyclic.of_sub fun x y hxy => ?_
    obtain ⟨b, hb, hl⟩ := bind_eq_some_iff.1 hxy
    rw [hs.waitptr] at hb
    refine (hlock b y hl).imp (fun hl' => ?_) fun hy => ?_
    · rw [State.blocker, hb]
      exact hl'
    · rw [State.blocker, hs.waitptr, hy]
      rfl

/-! ### The routines -/

theorem books_boot (mem : Key → Msemaphore) : Books (.boot mem) := by
  refine ⟨fun p => rfl, fun p hp => ?_, fun p hp => absurd rfl hp, fun p a hp => ?_,
    fun p a hp => ?_, fun p hp => ?_⟩
  · cases hp
  · cases hp
  · cases hp
  · obtain ⟨q, hq, -⟩ := TransGen.head'_iff.1 hp
    cases hq

theorem Books.setError (h : Books s) {e : Errno} : Books (s.setError p e) :=
  ⟨h.waitptr, h.known, h.listed, h.live, h.own, h.acyclic⟩

theorem Books.setMem (h : Books s) {m : Msemaphore} : Books (s.setMem k m) :=
  ⟨h.waitptr, h.known, h.listed, h.live, h.own, h.acyclic⟩

theorem Books.touch (h : Books s) : Books (s.touch k) := h.setMem

theorem Books.setHlist (h : Books s) {l : BitVec 32 → List ℕ} : Books { s with hlist := l } :=
  ⟨h.waitptr, h.known, h.listed, h.live, h.own, h.acyclic⟩

variable {x : Phase}

theorem waitsOn_setPhase : (s.setPhase p x).waitsOn q =
    if q = p then x.frame.bind Frame.waitsOn else s.waitsOn q := by
  rw [State.waitsOn, frame_setPhase]
  split_ifs <;> rfl

theorem owned_setPhase : (s.setPhase p x).owned q =
    if q = p then x.frame.bind Frame.owned else s.owned q := by
  rw [State.owned, frame_setPhase]
  split_ifs <;> rfl

/-- A call goes on, ends or begins. -/
theorem Books.setPhase (h : Books s) (hwait : x.frame.bind Frame.waitsOn = s.waitptr p)
    (hown : ∀ a, x.frame.bind Frame.owned = some a → s.owned p = some a)
    (hcall : x.inCall = true → s.procs p ≠ none) : Books (s.setPhase p x) := by
  have howned : ∀ q a, (s.setPhase p x).owned q = some a → s.owned q = some a := fun q a hq => by
    rw [owned_setPhase] at hq
    split_ifs at hq with hqp
    · exact hqp ▸ hown a hq
    · exact hq
  refine ⟨fun q => ?_, fun q hq => ?_, h.listed, h.live, fun q a hq => ?_, h.acyclic⟩
  · rw [waitsOn_setPhase]
    split_ifs with hqp
    · rw [hwait, hqp]
      rfl
    · exact h.waitptr q
  · by_cases hqp : q = p
    · subst hqp
      simp only [State.setPhase, update_self] at hq
      exact hcall hq
    · simp only [State.setPhase, update_of_ne hqp] at hq
      exact h.known q hq
  · obtain ⟨h1, h2, h3, h4⟩ := h.own q a (howned q a hq)
    exact ⟨h1, h2, h3, fun r hr => h4 r (howned r a hr)⟩

theorem Books.setIdle (h : Books s) (hwait : s.waitptr p = none) (hx : x.frame = none)
    (hcall : x.inCall = false) : Books (s.setPhase p x) := by
  refine h.setPhase ?_ (fun a ha => ?_) fun hc => ?_
  · rw [hx, hwait]
    rfl
  · rw [hx] at ha
    cases ha
  · rw [hcall] at hc
    cases hc

theorem Books.free (h : Books s) (hno : ∀ q, s.waitptr q ≠ some a) (hown : ∀ q, s.owned q ≠ some a) :
    Books (s.free a) := by
  have hused : ∀ b, b ≠ a → (s.free a).used b = s.used b := fun b hb => by
    simp [State.free, hb]
  refine ⟨h.waitptr, h.known, h.listed, fun p b hp => ?_, fun p b hp => ?_, h.acyclic⟩
  · obtain ⟨h1, h2⟩ := h.live p b hp
    exact ⟨(hused b fun hb => hno p (hb ▸ hp)).trans h1, h2⟩
  · obtain ⟨h1, h2, h3, h4⟩ := h.own p b hp
    exact ⟨h1, h2, (hused b fun hb => hown p (hb ▸ hp)).trans h3, h4⟩

variable {i : ProcInfo → ProcInfo}

theorem waitptr_setProc (hi : ∀ x, (i x).waitptr = x.waitptr) :
    (s.setProc q ((s.procs q).map i)).waitptr p = s.waitptr p := by
  by_cases hp : p = q
  · subst hp
    cases hi' : s.procs p <;> simp [State.waitptr, State.setProc, hi', hi]
  · simp [State.waitptr, State.setProc, hp]

theorem waitptr_locklistAdd : (s.locklistAdd q a).waitptr p = s.waitptr p :=
  waitptr_setProc (i := fun x => { x with locklist := a :: x.locklist }) fun _ => rfl

theorem waitptr_locklistRemove : (s.msemLocklistRemove q a).waitptr p = s.waitptr p :=
  waitptr_setProc (i := fun x => { x with locklist := x.locklist.erase a }) fun _ => rfl

theorem procs_setProc : (s.setProc q ((s.procs q).map i)).procs p = none ↔ s.procs p = none := by
  by_cases hp : p = q
  · subst hp
    simp [State.setProc]
  · simp [State.setProc, hp]

theorem alike_setProc (hi : ∀ x, (i x).waitptr = x.waitptr) :
    Alike s (s.setProc q ((s.procs q).map i)) :=
  ⟨fun _ => waitptr_setProc hi, fun _ => procs_setProc, rfl, fun _ => rfl, fun _ => rfl,
    fun _ => rfl, rfl, fun _ => rfl, fun _ => rfl⟩

variable {o : Option ℕ}

theorem alike_setLocker : Alike s (s.setInfo a { s.infos a with locker := o }) := by
  refine ⟨fun _ => rfl, fun _ => Iff.rfl, rfl, fun _ => rfl, fun _ => rfl, fun _ => rfl, rfl,
    fun b => ?_, fun b => ?_⟩ <;>
  · by_cases hb : b = a
    · subst hb
      simp [State.setInfo]
    · simp [State.setInfo, hb]

theorem Books.setProc (h : Books s) (hi : ∀ x, (i x).waitptr = x.waitptr) :
    Books (s.setProc q ((s.procs q).map i)) :=
  h.alike (alike_setProc hi) fun _ _ hl => .inl hl

theorem Books.setLocker (h : Books s) (ho : ∀ r, o = some r → s.waitptr r = none) :
    Books (s.setInfo a { s.infos a with locker := o }) := by
  refine h.alike alike_setLocker fun b r hr => ?_
  by_cases hb : b = a
  · subst hb
    simp only [State.setInfo, update_self] at hr
    exact .inr (ho r hr)
  · simp only [State.setInfo, update_of_ne hb] at hr
    exact .inl hr

theorem Books.ownLock (h : Books s) (hp : s.waitptr p = none) : Books (s.own p f) := by
  unfold State.own
  split_ifs
  · have ho : ∀ r, some p = some r → s.waitptr r = none := fun r hr => by
      rw [← Option.some.inj hr, hp]
    cases (s.infos f.iptr).locker with
    | none =>
      have h1 : Books (s.locklistAdd p f.iptr) := h.setProc fun _ => rfl
      exact h1.setLocker fun r hr => waitptr_locklistAdd.trans (ho r hr)
    | some q =>
      have h1 : Books (s.msemLocklistRemove q f.iptr) := h.setProc fun _ => rfl
      have h2 : Books ((s.msemLocklistRemove q f.iptr).locklistAdd p f.iptr) :=
        h1.setProc fun _ => rfl
      exact h2.setLocker fun r hr =>
        waitptr_locklistAdd.trans (waitptr_locklistRemove.trans (ho r hr))
  · exact h

/-! ### The end of a call -/

theorem waitptr_unwait (hp : s.procs p ≠ none) :
    (s.unwait p f).waitptr q = if q = p then none else s.waitptr q := by
  by_cases hq : q = p
  · subst hq
    obtain ⟨i, hi⟩ := ne_none_iff_exists'.1 hp
    simp [State.waitptr, State.unwait, State.setWaitptr, State.setProc, State.setInfo, hi]
  · simp [State.waitptr, State.unwait, State.setWaitptr, State.setProc, State.setInfo, hq]

theorem procs_unwait : (s.unwait p f).procs q = none ↔ s.procs q = none := by
  by_cases hq : q = p
  · subst hq
    simp [State.unwait, State.setWaitptr, State.setProc, State.setInfo]
  · simp [State.unwait, State.setWaitptr, State.setProc, State.setInfo, hq]

theorem info_unwait : ((s.unwait p f).infos a).reg = (s.infos a).reg ∧
    ((s.unwait p f).infos a).locker = (s.infos a).locker := by
  by_cases ha : a = f.iptr
  · subst ha
    simp [State.unwait, State.setWaitptr, State.setProc, State.setInfo]
  · simp [State.unwait, State.setWaitptr, State.setProc, State.setInfo, ha]

/-- The process that waits leaves. -/
theorem Books.unwait (h : Books s) (hf : s.waitptr p = some f.iptr) (hp : s.procs p ≠ none)
   (hx : x.frame = none) (hcall : x.inCall = false) : Books ((s.unwait p f).setPhase p x) := by
  have hwp : ∀ q, ((s.unwait p f).setPhase p x).waitptr q = if q = p then none else s.waitptr q :=
    fun q => waitptr_unwait hp
  have howned : ∀ q a, ((s.unwait p f).setPhase p x).owned q = some a → s.owned q = some a :=
    fun q a hq => by
      rw [owned_setPhase, hx] at hq
      split_ifs at hq with hqp
      · cases hq
      · exact hq
  refine ⟨fun q => ?_, fun q hq => ?_, fun q hq => h.listed q fun hn => hq (procs_unwait.2 hn),
    fun q a hq => ?_, fun q a hq => ?_, h.acyclic.of_sub fun x y hxy => .inl ?_⟩
  · rw [hwp, waitsOn_setPhase, hx]
    split_ifs
    · rfl
    · exact h.waitptr q
  · intro hn
    by_cases hqp : q = p
    · subst hqp
      simp only [State.setPhase, update_self, hcall] at hq
      cases hq
    · simp only [State.setPhase, update_of_ne hqp] at hq
      exact h.known q hq (procs_unwait.1 hn)
  · rw [hwp] at hq
    split_ifs at hq with hqp
    obtain ⟨h1, h2, W, hW, hc⟩ := h.live q a hq
    have hreg : (((s.unwait p f).setPhase p x).infos a).reg = (s.infos a).reg :=
      (info_unwait (p := p)).1
    refine ⟨h1, hreg ▸ h2, ?_⟩
    have hcount : (((s.unwait p f).setPhase p x).infos a).waitCount =
        if a = f.iptr then (s.infos a).waitCount - 1 else (s.infos a).waitCount :=
      count_unwait (p := p)
    refine ⟨W.erase p, fun r => ?_, ?_⟩
    · rw [mem_erase, hW, hwp]
      split_ifs with hrp <;> simp [hrp]
    · rw [hcount, ← hc]
      split_ifs with ha
      · exact card_erase_of_mem ((hW p).2 (ha ▸ hf))
      · rw [erase_eq_of_notMem]
        intro hpW
        exact ha (Option.some.inj (((hW p).1 hpW).symm.trans hf))
  · obtain ⟨h1, h2, h3, h4⟩ := h.own q a (howned q a hq)
    refine ⟨?_, ?_, h3, fun r hr => h4 r (howned r a hr)⟩
    · rw [hwp, h1, ite_self]
    · exact (info_unwait (p := p)).1.trans h2
  · obtain ⟨b, hb, hl⟩ := bind_eq_some_iff.1 hxy
    rw [hwp] at hb
    split_ifs at hb
    rw [State.blocker, hb]
    exact (info_unwait (p := p)).2.symm.trans hl

/-- The call can use its structure. -/
structure Holding (s : State) (p : ℕ) (f : Frame) : Prop where
  procs : s.procs p ≠ none
  waiting : f.waiting = true → s.waitptr p = some f.iptr
  idle : f.waiting = false → s.waitptr p = none
  fresh : f.waiting = false → (s.infos f.iptr).reg = none → s.owned p = some f.iptr

theorem setPhase_own : (s.own p f).setPhase p x = (s.setPhase p x).own p f := by
  unfold State.own
  split_ifs with h1 h2 h2
  · cases hl : (s.infos f.iptr).locker <;>
      simp [State.setPhase, State.setInfo, State.locklistAdd, State.setProc,
        State.msemLocklistRemove, hl]
  · exact absurd h1 h2
  · exact absurd h2 h1
  · rfl

theorem Books.leave (h : Books s) (hu : Holding s p f) : Books (s.leave p f) := by
  unfold State.leave
  split_ifs with hreg hw hc
  · have hw : f.waiting = false := by
      by_contra hw
      exact (h.live p _ (hu.waiting (by simpa using hw))).2.1 hreg
    have ho := hu.fresh hw hreg
    have h1 : Books (s.setPhase p .user) := h.setIdle (hu.idle hw) rfl rfl
    refine h1.free (fun q hq => (h.live q _ hq).2.1 hreg) fun q hq => ?_
    rw [owned_setPhase] at hq
    split_ifs at hq with hqp
    · cases hq
    · exact hqp ((h.own p _ ho).2.2.2 q hq)
  · -- the last waiter takes the structure with it
    have hwp := hu.waiting hw
    have hx : ∀ x : Phase, x.frame = none → x.inCall = false →
        Books (((s.unwait p f).unlink f).setPhase p x) := fun x hx hcall => by
      have h1 := h.unwait hwp hu.procs hx hcall
      obtain ⟨-, hreg, W, hW, hcard⟩ := h.live p _ hwp
      have hno : ∀ q, ((s.unwait p f).setPhase p x).waitptr q ≠ some f.iptr := fun q hq => by
        have hq' : (if q = p then none else s.waitptr q) = some f.iptr :=
          (waitptr_unwait hu.procs).symm.trans hq
        split_ifs at hq' with hqp
        rw [hc] at hcard
        exact hqp (card_le_one.1 hcard.le q ((hW q).2 hq') p ((hW p).2 hwp))
      have hown : ∀ q, ((s.unwait p f).setPhase p x).owned q ≠ some f.iptr := fun q hq =>
        hreg ((info_unwait (p := p)).1.symm.trans (h1.own q _ hq).2.1)
      have h2 := h1.free hno hown
      unfold State.unlink
      cases ((s.unwait p f).infos f.iptr).locker with
      | none => exact h2.setHlist
      | some q =>
        have h3 : Books (State.msemLocklistRemove _ q f.iptr) := h2.setProc fun _ => rfl
        exact h3.setHlist
    exact hx _ rfl rfl
  · rw [setPhase_own]
    exact (h.unwait (hu.waiting hw) hu.procs rfl rfl).ownLock
      (((waitptr_unwait hu.procs).trans (if_pos rfl)))
  · rw [setPhase_own]
    have hw : f.waiting = false := by simpa using hw
    exact (h.setIdle (hu.idle hw) rfl rfl).ownLock (hu.idle hw)

/-! ### The call sleeps -/

theorem waitptr_setWaitptr (hp : s.procs p ≠ none) :
    (s.setWaitptr p o).waitptr q = if q = p then o else s.waitptr q := by
  by_cases hq : q = p
  · subst hq
    obtain ⟨i, hi⟩ := ne_none_iff_exists'.1 hp
    simp [State.waitptr, State.setWaitptr, State.setProc, hi]
  · simp [State.waitptr, State.setWaitptr, State.setProc, hq]

/-- What the call does to the records of the processes. -/
theorem procs_gotoSleep : ∃ s1 : State, (∀ q, s1.waitptr q = s.waitptr q) ∧
    (∀ q, s1.procs q = none ↔ s.procs q = none) ∧ (s.gotoSleep p f).procList = s.procList ∧
    (s.gotoSleep p f).procs = (if f.waiting then s1 else s1.setWaitptr p (some f.iptr)).procs := by
  cases hr : (s.infos f.iptr).reg <;> cases hl : s.lockPinfo f <;> cases hw : f.waiting
  case none.some.false q | none.some.true q =>
    exact ⟨s.locklistAdd q f.iptr, fun _ => waitptr_locklistAdd, fun _ => procs_setProc,
      by simp [State.gotoSleep, hr, hl, hw, State.setWaitptr, State.setProc, State.locklistAdd,
        State.setMem],
      by simp [State.gotoSleep, hr, hl, hw, State.setWaitptr, State.setProc, State.locklistAdd,
        State.setMem]⟩
  all_goals
    exact ⟨s, fun _ => rfl, fun _ => Iff.rfl,
      by simp [State.gotoSleep, hr, hl, hw, State.setWaitptr, State.setProc, State.setMem],
      by simp [State.gotoSleep, hr, hl, hw, State.setWaitptr, State.setProc, State.setMem]⟩

theorem waitptr_gotoSleep (hp : s.procs p ≠ none) : (s.gotoSleep p f).waitptr q =
    if q = p ∧ f.waiting = false then some f.iptr else s.waitptr q := by
  obtain ⟨s1, h1, h2, -, h3⟩ := procs_gotoSleep (s := s) (p := p) (f := f)
  rw [State.waitptr, h3]
  change State.waitptr _ q = _
  cases hw : f.waiting with
  | true => simp [h1]
  | false =>
    have hp1 : s1.procs p ≠ none := fun hn => hp ((h2 p).1 hn)
    simpa [h1] using waitptr_setWaitptr (q := q) (o := some f.iptr) hp1

theorem known_gotoSleep : (s.gotoSleep p f).procs q = none ↔ s.procs q = none := by
  obtain ⟨s1, -, h2, -, h3⟩ := procs_gotoSleep (s := s) (p := p) (f := f)
  rw [h3, ← h2]
  cases hw : f.waiting with
  | true => exact Iff.rfl
  | false => exact procs_setProc

theorem info_gotoSleep : ((s.gotoSleep p f).infos a).locker =
      (if a = f.iptr then s.lockPinfo f else (s.infos a).locker) ∧
    (((s.gotoSleep p f).infos a).reg = none ↔ a ≠ f.iptr ∧ (s.infos a).reg = none) := by
  by_cases ha : a = f.iptr
  · subst ha
    cases hr : (s.infos f.iptr).reg <;> cases hw : f.waiting <;>
      simp [State.gotoSleep, State.lockPinfo, hr, hw]
  · simp [State.gotoSleep, ha]

theorem waitsOn_gotoSleep :
    (s.gotoSleep p f).waitsOn q = if q = p then some f.iptr else s.waitsOn q := by
  rw [State.waitsOn, frame_gotoSleep]
  split_ifs <;> rfl

theorem owned_gotoSleep : (s.gotoSleep p f).owned q = if q = p then none else s.owned q := by
  rw [State.owned, frame_gotoSleep]
  split_ifs <;> rfl

/-- A new edge. -/
theorem Books.blocker_gotoSleep (h : Books s) (hp : s.procs p ≠ none) (hw : f.waiting = false) :
    (s.gotoSleep p f).blocker = Function.update s.blocker p (s.lockPinfo f) := by
  funext q
  rw [State.blocker, waitptr_gotoSleep hp]
  by_cases hq : q = p
  · subst hq
    simp [hw, info_gotoSleep.1]
  · rw [if_neg fun hc => hq hc.1, update_of_ne hq, State.blocker]
    cases hb : s.waitptr q with
    | none => rfl
    | some b =>
      simp only [bind_some]
      rw [info_gotoSleep.1]
      split_ifs with hbf
      · -- somebody waits on it, so it is linked
        obtain ⟨-, hreg, -⟩ := h.live q b hb
        rw [State.lockPinfo, ← hbf, if_pos (isSome_iff_ne_none.2 hreg)]
      · rfl

/-- A process that waits sleeps again. -/
theorem Books.blocker_again (h : Books s) (hp : s.procs p ≠ none) (hw : f.waiting = true)
    (hwp : s.waitptr p = some f.iptr) : (s.gotoSleep p f).blocker = s.blocker := by
  funext q
  rw [State.blocker, waitptr_gotoSleep hp, if_neg (by simp [hw]), State.blocker]
  cases hb : s.waitptr q with
  | none => rfl
  | some b =>
    simp only [bind_some]
    rw [info_gotoSleep.1]
    split_ifs with hbf
    · obtain ⟨-, hreg, -⟩ := h.live p _ hwp
      rw [State.lockPinfo, hbf, if_pos (isSome_iff_ne_none.2 hreg)]
    · rfl

theorem Books.gotoSleep (h : Books s) (hu : Holding s p f) (hcall : (s.phase p).inCall = true)
    (hlive : f.waiting = false → s.owned p = some f.iptr ∨ ∃ q, s.waitptr q = some f.iptr)
    (hacyclic : Chase.Acyclic (s.gotoSleep p f).blocker) : Books (s.gotoSleep p f) := by
  have hused : (s.gotoSleep p f).used = s.used := gotoSleep_eq.2.1
  have hlinked : f.waiting = true → (s.infos f.iptr).reg ≠ none := fun hw =>
    (h.live p _ (hu.waiting hw)).2.1
  -- a process joins those that wait on the structure
  have hstart : f.waiting = false → s.used f.iptr = true ∧ ∃ W : Finset ℕ,
      (∀ r, r ∈ W ↔ s.waitptr r = some f.iptr) ∧
        ((s.gotoSleep p f).infos f.iptr).waitCount = W.card + 1 := fun hw => by
    obtain ho | ⟨q, hq⟩ := hlive hw
    · obtain ⟨-, hr, h3, -⟩ := h.own p _ ho
      refine ⟨h3, ∅, fun r => ?_, by rw [(gotoSleep_fresh hr hw).2.2, if_pos rfl]; rfl⟩
      simp only [notMem_empty, false_iff]
      exact fun hq => (h.live r _ hq).2.1 hr
    · obtain ⟨h1, h2, W, hW, hc⟩ := h.live q _ hq
      exact ⟨h1, W, hW, by rw [(gotoSleep_linked h2).2.2, if_pos ⟨rfl, hw⟩, hc]⟩
  have hcount : ∀ q a, (s.gotoSleep p f).waitptr q = some a → s.used a = true ∧
      ∃ W : Finset ℕ, (∀ r, r ∈ W ↔ (s.gotoSleep p f).waitptr r = some a) ∧
        W.card = ((s.gotoSleep p f).infos a).waitCount := fun q a hq => by
    rw [waitptr_gotoSleep hu.procs] at hq
    simp only [waitptr_gotoSleep hu.procs]
    cases hw : f.waiting with
    | true =>
      simp only [hw, Bool.true_eq_false, and_false, if_false] at hq ⊢
      obtain ⟨h1, -, W, hW, hc⟩ := h.live q a hq
      refine ⟨h1, W, hW, ?_⟩
      rw [(gotoSleep_linked (hlinked hw)).2.2, if_neg (by simp [hw]), hc]
    | false =>
      simp only [hw, and_true] at hq ⊢
      by_cases ha : a = f.iptr
      · subst ha
        obtain ⟨hused, W, hW, hc⟩ := hstart hw
        refine ⟨hused, insert p W, fun r => ?_, ?_⟩
        · rw [mem_insert, hW]
          split_ifs with hr <;> simp [hr]
        · rw [card_insert_of_notMem, hc]
          rw [hW, hu.idle hw]
          simp
      · have hne : ∀ r, (if r = p then some f.iptr else s.waitptr r) = some a ↔
            s.waitptr r = some a := fun r => by
          split_ifs with hr
          · rw [hr, hu.idle hw]
            simp [Ne.symm ha]
          · rfl
        simp only [hne] at hq ⊢
        obtain ⟨h1, -, W, hW, hc⟩ := h.live q a hq
        refine ⟨h1, W, hW, ?_⟩
        cases hr : (s.infos f.iptr).reg with
        | none => rw [(gotoSleep_fresh hr hw).2.2, if_neg ha, hc]
        | some r =>
          have hr' : (s.infos f.iptr).reg ≠ none := by simp [hr]
          rw [(gotoSleep_linked hr').2.2, if_neg fun hc => ha hc.1, hc]
  refine ⟨fun q => ?_, fun q hq hn => ?_, fun q hq => ?_, fun q a hq => ?_, fun q a hq => ?_,
    hacyclic⟩
  · rw [waitptr_gotoSleep hu.procs, waitsOn_gotoSleep, ← h.waitptr]
    cases hw : f.waiting with
    | false => simp
    | true =>
      by_cases hqp : q = p
      · subst hqp
        simp [hu.waiting hw]
      · simp [hqp]
  · rw [known_gotoSleep] at hn
    by_cases hqp : q = p
    · exact hu.procs (hqp ▸ hn)
    · rw [gotoSleep_eq.2.2, update_of_ne hqp] at hq
      exact h.known q hq hn
  · obtain ⟨-, -, -, hl, -⟩ := procs_gotoSleep (s := s) (p := p) (f := f)
    rw [hl]
    exact h.listed q fun hn => hq (known_gotoSleep.2 hn)
  · obtain ⟨h1, h2⟩ := hcount q a hq
    refine ⟨hused ▸ h1, fun hn => ?_, h2⟩
    obtain ⟨hne, hreg⟩ := info_gotoSleep.2.1 hn
    rw [waitptr_gotoSleep hu.procs] at hq
    split_ifs at hq
    · exact hne (Option.some.inj hq).symm
    · exact (h.live q a hq).2.1 hreg
  · rw [owned_gotoSleep] at hq
    split_ifs at hq with hqp
    obtain ⟨h1, h2, h3, h4⟩ := h.own q a hq
    have hne : a ≠ f.iptr := fun ha => by
      subst ha
      cases hw : f.waiting with
      | true => exact hlinked hw h2
      | false =>
        obtain ho | ⟨r, hr⟩ := hlive hw
        · exact hqp (h4 p ho).symm
        · exact (h.live r _ hr).2.1 h2
    refine ⟨?_, info_gotoSleep.2.2 ⟨hne, h2⟩, hused ▸ h3, fun r hr => ?_⟩
    · rw [waitptr_gotoSleep hu.procs, if_neg fun hc => hqp hc.1, h1]
    · rw [owned_gotoSleep] at hr
      split_ifs at hr
      exact h4 r hr

/-! ### The walk -/

variable {n : ℕ}

/-- More passes do not change the answer. -/
theorem deadlock_mono {b : Bool} (h : s.deadlock p n o = some b) (m : ℕ) :
    s.deadlock p (n + m) o = some b := by
  induction n generalizing o with
  | zero => cases h
  | succ n ih =>
    rw [Nat.add_right_comm]
    cases o with
    | none => exact h
    | some q =>
      simp only [State.deadlock] at h ⊢
      split
      next hq => simpa [hq] using h
      next a hq =>
        rw [hq] at h
        dsimp only at h
        split_ifs at h ⊢ with hl
        · exact h
        · exact ih h

/-- The walk looks one process ahead. -/
theorem deadlock_of_chase {b : Bool} (hq : q ≠ p)
    (h : Chase.chase s.blocker p n q = some b) : s.deadlock p (n + 1) (some q) = some b := by
  induction n generalizing q with
  | zero => cases h
  | succ n ih =>
    simp only [Chase.chase, if_neg hq] at h
    rw [State.deadlock]
    cases hw : (s.procs q).bind ProcInfo.waitptr with
    | none =>
      simpa [State.blocker, State.waitptr, hw] using h
    | some a =>
      have hb : s.blocker q = (s.infos a).locker := by simp [State.blocker, State.waitptr, hw]
      rw [hb] at h
      dsimp only
      cases hl : (s.infos a).locker with
      | none =>
        rw [hl] at h
        simpa [State.deadlock] using h
      | some r =>
        rw [hl] at h
        dsimp only at h
        split_ifs with hr
        · obtain rfl := Option.some.inj hr
          cases n with
          | zero => cases h
          | succ n => simpa [Chase.chase] using h
        · exact ih (fun hrp => hr (congrArg some hrp)) h

theorem Books.deadlock_spec (h : Books s) (hq : q ≠ p) :
    ∃ b, s.deadlock p (s.procList.length + 2) (some q) = some b ∧
      (b = true ↔ ReflTransGen (Chase.Edge s.blocker) q p) := by
  have hF : ∀ x y, s.blocker x = some y → x ∈ s.procList.toFinset := fun x y hxy => by
    refine List.mem_toFinset.2 (h.listed x fun hn => ?_)
    rw [State.blocker, State.waitptr, hn] at hxy
    cases hxy
  obtain ⟨b, hb, hiff⟩ := Chase.chase_spec h.acyclic s.procList.toFinset hF p
    (Nat.lt_add_one_of_le (List.toFinset_card_le s.procList)) q
  exact ⟨b, deadlock_of_chase hq hb, hiff⟩

theorem Books.ends (h : Books s) (p : ℕ) (o : Option ℕ) :
    ∃ b, s.deadlock p (s.procList.length + 3) o = some b := by
  have hother : ∀ q, q ≠ p → ∃ b, s.deadlock p (s.procList.length + 2) (some q) = some b :=
    fun q hq => by
      obtain ⟨b, hb, -⟩ := h.deadlock_spec hq
      exact ⟨b, hb⟩
  cases o with
  | none => exact ⟨false, rfl⟩
  | some q =>
    by_cases hq : q = p
    · subst hq
      rw [State.deadlock]
      split
      next => exact ⟨_, rfl⟩
      next a _ =>
        split_ifs with hl
        · exact ⟨_, rfl⟩
        · cases hr : (s.infos a).locker with
          | none => exact ⟨false, rfl⟩
          | some r => exact hother r fun hrq => hl (by rw [hr, hrq])
    · obtain ⟨b, hb⟩ := hother q hq
      exact ⟨b, deadlock_mono hb 1⟩

theorem Books.deadlock_iff (h : Books s) (hq : q ≠ p) {b : Bool}
    (hb : s.deadlock p n (some q) = some b) : b = true ↔ ReflTransGen (Chase.Edge s.blocker) q p := by
  obtain ⟨c, hc, hiff⟩ := h.deadlock_spec hq
  have h1 := deadlock_mono hb (s.procList.length + 2)
  have h2 := deadlock_mono hc n
  rw [Nat.add_comm, h2] at h1
  rw [← Option.some.inj h1]
  exact hiff

/-! ### A pass of the loop -/

variable {fault : Bool}

theorem Books.cleared (h : Books s) : Books (s.cleared p fault) := by
  unfold State.cleared
  split
  next f hp =>
    have hwp : s.waitptr p = none := by rw [h.waitptr, State.waitsOn, State.frame, hp]; rfl
    have h1 : Books (if fault then s else s.setMem f.key f.semCp) := by
      split_ifs
      · exact h
      · exact h.setMem
    refine h1.setIdle ?_ rfl rfl
    split_ifs
    · exact hwp
    · exact hwp
  next => exact h

/-- A process in a pass of the loop has its structure. -/
theorem Books.holding (h : Books s) (hp : s.phase p = .validate f)
    (hlive : f.waiting = false → s.owned p = some f.iptr ∨ ∃ q, s.waitptr q = some f.iptr) :
    Holding s p f := by
  have hf : s.frame p = some f := by rw [State.frame, hp]; rfl
  have hwp : s.waitptr p = if f.waiting then some f.iptr else none := by
    rw [h.waitptr, State.waitsOn, hf]
    rfl
  refine ⟨h.known p (by rw [hp]; rfl), fun hw => by simp [hwp, hw], fun hw => by simp [hwp, hw],
    fun hw hreg => (hlive hw).resolve_right ?_⟩
  rintro ⟨q, hq⟩
  exact (h.live q _ hq).2.1 hreg

/-- An orderly call has its structure. -/
theorem Books.live_of_orderly (h : Books s) (hp : s.phase p = .validate f)
    (ho : Orderly s (.validated p fault n) = true) (hw : f.waiting = false) :
    s.owned p = some f.iptr ∨ ∃ q, s.waitptr q = some f.iptr := by
  simp only [Orderly, hp, hw, Bool.false_or, Bool.and_eq_true, Bool.or_eq_true] at ho
  refine ho.1.imp (fun hown => ?_) fun huse => ?_
  · simp [State.owned, State.frame, hp, Phase.frame, Frame.owned, hown]
  · obtain ⟨q, -, hq⟩ := List.any_eq_true.1 huse
    obtain ⟨g, hg, hgw⟩ := (any_eq_true _ _).1 hq
    simp only [Bool.and_eq_true, beq_iff_eq] at hgw
    refine ⟨q, ?_⟩
    rw [h.waitptr, State.waitsOn, hg]
    simp [Frame.waitsOn, hgw]

theorem granted_eq_false (hg : s.granted f = false) : ∃ q, s.lockPinfo f = some q := by
  simp only [State.granted, Bool.or_eq_false_iff] at hg
  exact ne_none_iff_exists'.1 (isNone_eq_false_iff.1 hg.2 |> isSome_iff_ne_none.1)

/-- The verdict on a call that must wait, for the first time. -/
theorem Books.verdict_spec (h : Books s) (hu : Holding s p f) (hw : f.waiting = false)
    (hg : s.granted f = false) (hnw : f.nowait = false) (hself : s.lockPinfo f ≠ some p)
    {v : State.Verdict} (hv : s.verdict p f n = some v) :
    v = .deadlk ∧ TransGen (Chase.Edge (s.gotoSleep p f).blocker) p p ∨
      v = .sleep ∧ ¬TransGen (Chase.Edge (s.gotoSleep p f).blocker) p p ∧
        Chase.Acyclic (s.gotoSleep p f).blocker := by
  obtain ⟨q, hq⟩ := granted_eq_false hg
  have hqp : q ≠ p := fun hqp => hself (hqp ▸ hq)
  rw [h.blocker_gotoSleep hu.procs hw, hq, Chase.cycle_update_iff]
  simp only [State.verdict, hg, hnw, hw, hq, Bool.false_eq_true, if_false,
    map_eq_some_iff] at hv
  obtain ⟨b, hb, rfl⟩ := hv
  have hiff := h.deadlock_iff hqp hb
  cases b with
  | true => exact .inl ⟨rfl, hiff.1 rfl⟩
  | false =>
    have hno : ¬ReflTransGen (Chase.Edge s.blocker) q p := fun hr => by
      cases hiff.2 hr
    exact .inr ⟨rfl, hno, h.acyclic.update hno⟩

theorem Holding.congr (hu : Holding s p f) (h1 : s'.procs = s.procs) (h2 : s'.infos = s.infos)
    (h3 : s'.phase = s.phase) (hg : g.view = f.view) : Holding s' p g := by
  simp only [Frame.view, Prod.mk.injEq] at hg
  obtain ⟨-, h4, h5, -⟩ := hg
  have hwp : s'.waitptr p = s.waitptr p := by rw [State.waitptr, h1, State.waitptr]
  have howned : s'.owned p = s.owned p := by
    rw [State.owned, State.frame, h3, State.owned, State.frame]
  refine ⟨h1 ▸ hu.procs, fun hw => ?_, fun hw => ?_, fun hw hr => ?_⟩
  · rw [hwp, h4]
    exact hu.waiting (h5 ▸ hw)
  · rw [hwp]
    exact hu.idle (h5 ▸ hw)
  · rw [howned, h4]
    exact hu.fresh (h5 ▸ hw) (by rw [← hr, h2, h4])

theorem deadlock_touch : (s.touch k).deadlock p n o = s.deadlock p n o := by
  induction n generalizing o with
  | zero => rfl
  | succ n ih =>
    cases o with
    | none => rfl
    | some q =>
      simp only [State.deadlock, ih]
      rfl

theorem verdict_touch : (s.touch k).verdict p f n = s.verdict p f n := by
  unfold State.verdict
  rw [deadlock_touch]
  rfl

theorem Books.loop (h : Books s) (hu : Holding s p f) (hcall : (s.phase p).inCall = true)
    (hlive : f.waiting = false → s.owned p = some f.iptr ∨ ∃ q, s.waitptr q = some f.iptr)
    (hself : f.waiting = false → s.granted f = false → f.nowait = false →
      s.lockPinfo f ≠ some p) {v : State.Verdict} (hv : s.verdict p f n = some v) :
    Books (s.loop p f v) := by
  cases v with
  | granted =>
    have h1 : Books ((s.setMem f.key { f.semCp with locker := s.lockid p }).setError p .ok) :=
      Books.setError h.setMem
    have hu1 : Holding ((s.setMem f.key { f.semCp with locker := s.lockid p }).setError p .ok) p
        { f with semCp := { f.semCp with locker := s.lockid p } } := hu.congr rfl rfl rfl rfl
    exact (h1.leave hu1).cleared
  | again => exact Books.leave h.setError (hu.congr rfl rfl rfl rfl)
  | deadlk => exact Books.leave h.setError (hu.congr rfl rfl rfl rfl)
  | sleep =>
    refine h.gotoSleep hu hcall hlive ?_
    cases hw : f.waiting with
    | true =>
      rw [h.blocker_again hu.procs hw (hu.waiting hw)]
      exact h.acyclic
    | false =>
      have hg : s.granted f = false := by
        cases hg : s.granted f with
        | false => rfl
        | true => simp [State.verdict, hg] at hv
      have hnw : f.nowait = false := by
        cases hnw : f.nowait with
        | false => rfl
        | true => simp [State.verdict, hg, hnw] at hv
      obtain ⟨hd, -⟩ | ⟨-, -, hac⟩ := h.verdict_spec hu hw hg hnw (hself hw hg hnw) hv
      · cases hd
      · exact hac

theorem Orderly.self {fault : Bool} {n : ℕ} (hp : s.phase p = .validate f)
    (ho : Orderly s (.validated p fault n) = true) (hw : f.waiting = false)
    (hm : s.mustWait f fault = true) : s.lockPinfo (s.readCp f) ≠ some p := by
  simp only [Orderly, hp, hw, hm, Bool.false_or, Bool.and_eq_true] at ho
  simpa using ho.2

theorem Books.validated (h : Books s) (hp : s.phase p = .validate f)
    (ho : Orderly s (.validated p fault n) = true) : Books (s.validated p f fault n) := by
  have hlive := h.live_of_orderly hp ho
  have hu := h.holding hp hlive
  have hcall : (s.phase p).inCall = true := by rw [hp]; rfl
  unfold State.validated
  split_ifs with hfault hw hmagic
  · exact Books.leave h.setError (hu.congr rfl rfl rfl rfl)
  · exact Books.leave h.setError (hu.congr rfl rfl rfl rfl)
  · have hu1 : Holding ((s.touch f.key).setError p .einval) p (s.readCp f) :=
      hu.congr rfl rfl rfl rfl
    exact (Books.leave h.touch.setError hu1).cleared
  · split
    next v hv =>
      have h1 : Books (s.touch f.key) := h.touch
      have hu1 : Holding (s.touch f.key) p (s.readCp f) := hu.congr rfl rfl rfl rfl
      refine h1.loop hu1 hcall hlive (fun hw hg hnw => ?_)
        (verdict_touch.trans hv)
      have hm : s.mustWait f fault = true := by
        have hg' : s.granted (s.readCp f) = false := hg
        have hnw' : f.nowait = false := hnw
        simpa [State.mustWait, hfault, hg', hnw'] using hmagic
      exact Orderly.self hp ho hw hm
    next => exact h

/-! ### The other steps -/

theorem Books.idle_waitptr (h : Books s) (hf : s.frame p = none) : s.waitptr p = none := by
  rw [h.waitptr, State.waitsOn, hf]
  rfl

theorem Books.msemProcInit (h : Books s) (hp : s.waitptr p = none) : Books (s.msemProcInit p) := by
  have hwp : ∀ q, (s.msemProcInit p).waitptr q = s.waitptr q := fun q => by
    by_cases hq : q = p
    · subst hq
      rw [hp]
      simp [State.waitptr, State.msemProcInit]
    · simp [State.waitptr, State.msemProcInit, hq]
  have hprocs : ∀ q, q ≠ p → (s.msemProcInit p).procs q = s.procs q := fun q hq => by
    simp [State.msemProcInit, hq]
  refine ⟨fun q => (hwp q).trans (h.waitptr q), fun q hq => ?_, fun q hq => ?_, fun q a hq => ?_,
    fun q a hq => ?_, ?_⟩
  · by_cases hqp : q = p
    · subst hqp
      simp [State.msemProcInit]
    · rw [hprocs q hqp]
      exact h.known q hq
  · by_cases hqp : q = p
    · exact hqp ▸ List.mem_cons_self
    · rw [hprocs q hqp] at hq
      exact List.mem_cons_of_mem _ (h.listed q hq)
  · rw [hwp] at hq
    obtain ⟨h1, h2, W, hW, hc⟩ := h.live q a hq
    exact ⟨h1, h2, W, fun r => by rw [hW, hwp], hc⟩
  · obtain ⟨h1, h2⟩ := h.own q a hq
    exact ⟨(hwp q).trans h1, h2⟩
  · have hb : (s.msemProcInit p).blocker = s.blocker := funext fun q => by
      rw [State.blocker, hwp]
      rfl
    rw [hb]
    exact h.acyclic

theorem Books.lookup (h : Books s) (hf : s.frame p = none) (hp : s.procs p ≠ none) {nowait : Bool}
    {x : Msemaphore} : Books (s.lookup p k nowait x) := by
  unfold State.lookup
  split
  next a _ => exact h.setPhase (h.idle_waitptr hf).symm (fun b hb => by cases hb) fun _ => hp
  next => exact h.setPhase (h.idle_waitptr hf).symm (fun b hb => by cases hb) fun _ => hp

theorem Books.malloced (h : Books s) {nowait : Bool} {x : Msemaphore}
    (hp : s.phase p = .malloc k nowait) (ha : s.used a = false) :
    Books (s.malloced p a k nowait x) := by
  have hf : s.frame p = none := by rw [State.frame, hp]; rfl
  have hne : ∀ b, s.used b = true → b ≠ a := fun b hb hba => by
    rw [hba, ha] at hb
    cases hb
  have hinfo : ∀ b, s.used b = true → (s.malloced p a k nowait x).infos b = s.infos b ∧
      (s.malloced p a k nowait x).used b = true := fun b hb => by
    simp [State.malloced, hne b hb, hb]
  have howned : ∀ q, (s.malloced p a k nowait x).owned q =
      if q = p then some a else s.owned q := fun q => owned_setPhase
  refine ⟨fun q => ?_, fun q hq => ?_, h.listed, fun q b hq => ?_, fun q b hq => ?_, ?_⟩
  · have hw : (s.malloced p a k nowait x).waitsOn q = if q = p then none else s.waitsOn q :=
      waitsOn_setPhase
    rw [hw]
    split_ifs with hqp
    · subst hqp
      exact h.idle_waitptr hf
    · exact h.waitptr q
  · by_cases hqp : q = p
    · exact hqp ▸ h.known p (by rw [hp]; rfl)
    · simp only [State.malloced, update_of_ne hqp] at hq
      exact h.known q hq
  · obtain ⟨h1, h2, W, hW, hc⟩ := h.live q b hq
    obtain ⟨h3, h4⟩ := hinfo b h1
    exact ⟨h4, h3 ▸ h2, W, hW, h3 ▸ hc⟩
  · rw [howned] at hq
    split_ifs at hq with hqp
    · obtain rfl := Option.some.inj hq
      subst hqp
      refine ⟨h.idle_waitptr hf, by simp [State.malloced, MsemInfo.zero],
        by simp [State.malloced], fun r hr => ?_⟩
      rw [howned] at hr
      split_ifs at hr with hrp
      · exact hrp
      · exact absurd rfl (hne _ (h.own r _ hr).2.2.1)
    · obtain ⟨h1, h2, h3, h4⟩ := h.own q b hq
      obtain ⟨h5, h6⟩ := hinfo b h3
      refine ⟨h1, by rw [h5, h2], h6, fun r hr => ?_⟩
      rw [howned] at hr
      split_ifs at hr with hrp
      · exact absurd (Option.some.inj hr).symm (hne b h3)
      · exact h4 r hr
  · have hb : (s.malloced p a k nowait x).blocker = s.blocker := funext fun q => by
      change (s.waitptr q).bind _ = (s.waitptr q).bind _
      cases hq : s.waitptr q with
      | none => rfl
      | some b =>
        simp only [bind_some]
        rw [(hinfo b (h.live q b hq).1).1]
    rw [hb]
    exact h.acyclic

theorem Books.wakeup (h : Books s) : Books (s.wakeup a) := by
  refine h.alike ⟨fun _ => rfl, fun _ => Iff.rfl, rfl, fun q => ?_, fun q => ?_, fun q => ?_, rfl,
    fun _ => rfl, fun _ => rfl⟩ fun _ _ hl => .inl hl
  · rw [State.waitsOn, frame_wakeup, State.waitsOn]
  · rw [State.owned, frame_wakeup, State.owned]
  · simp only [State.wakeup]
    cases s.phase q <;> rfl

theorem Books.woke (h : Books s) (hp : s.phase p = .waking k) : Books (s.woke p k fault) := by
  have hwp : s.waitptr p = none := h.idle_waitptr (by rw [State.frame, hp]; rfl)
  have hs' : Books ((s.touch k).setPhase p .user) := h.touch.setIdle hwp rfl rfl
  unfold State.woke
  dsimp only
  split_ifs with h1 h2 h3 h4
  · exact Books.setIdle h.setError hwp rfl rfl
  · exact hs'.setError
  · exact hs'
  · split <;> exact hs'
  · split
    next => exact hs'
    next a _ =>
      split_ifs
      · have h5 : Books (State.msemLocklistRemove ((s.touch k).setPhase p .user) p a) :=
          hs'.setProc fun _ => rfl
        have h6 : Books ((State.msemLocklistRemove ((s.touch k).setPhase p .user) p a).setInfo a
            { ((s.touch k).setPhase p .user).infos a with locker := none }) :=
          h5.setLocker fun r hr => by cases hr
        exact h6.wakeup
      · exact hs'.wakeup

theorem Books.releaseAll {l : List ℕ} (h : Books s) : Books (State.releaseAll s l) := by
  induction l generalizing s with
  | nil => exact h
  | cons a l ih =>
    have h1 : Books (s.setInfo a { s.infos a with locker := none }) :=
      h.setLocker fun r hr => by cases hr
    exact ih h1.wakeup

theorem releaseAll_procList {l l' : List ℕ} : State.releaseAll { s with procList := l' } l =
      { State.releaseAll s l with procList := l' } := by
  induction l generalizing s with
  | nil => rfl
  | cons a l ih => exact ih (s := (s.setInfo a { s.infos a with locker := none }).wakeup a)

/-- What `msem_release` leaves alone. -/
theorem releaseAll_eq {l : List ℕ} : (State.releaseAll s l).procList = s.procList ∧
    (State.releaseAll s l).procs = s.procs ∧
    ∀ q, s.phase q = .user → (State.releaseAll s l).phase q = .user := by
  induction l generalizing s with
  | nil => exact ⟨rfl, rfl, fun _ hq => hq⟩
  | cons a l ih =>
    obtain ⟨h1, h2, h3⟩ := ih (s := (s.setInfo a { s.infos a with locker := none }).wakeup a)
    refine ⟨h1, h2, fun q hq => h3 q ?_⟩
    simp only [State.wakeup]
    rw [show (s.setInfo a _).phase q = .user from hq]

theorem Books.msemRelease (h : Books s) (hp : s.phase p = .user) : Books (s.msemRelease p) := by
  unfold State.msemRelease
  dsimp only
  rw [releaseAll_procList]
  generalize ((s.procs p).map ProcInfo.locklist).getD [] = l
  obtain ⟨h1, h2, h3⟩ := releaseAll_eq (s := s) (l := l)
  have hr : Books (State.releaseAll s l) := h.releaseAll
  have hpu := h3 p hp
  rw [← h1]
  generalize State.releaseAll s l = t at hr hpu
  -- the process is in user mode, so it waits for nobody
  have hwp : ∀ q, ({ t with procList := t.procList.erase p }.setProc p none).waitptr q =
      t.waitptr q := fun q => by
    by_cases hq : q = p
    · subst hq
      rw [hr.idle_waitptr (by rw [State.frame, hpu]; rfl)]
      simp [State.waitptr, State.setProc]
    · simp [State.waitptr, State.setProc, hq]
  refine ⟨fun q => (hwp q).trans (hr.waitptr q), fun q hq => ?_, fun q hq => ?_, fun q a hq => ?_,
    fun q a hq => ?_, ?_⟩
  · by_cases hqp : q = p
    · have hc : (t.phase q).inCall = true := hq
      rw [hqp, hpu] at hc
      cases hc
    · simp only [State.setProc, update_of_ne hqp]
      exact hr.known q hq
  · by_cases hqp : q = p
    · subst hqp
      simp [State.setProc] at hq
    · simp only [State.setProc, update_of_ne hqp] at hq
      exact (List.mem_erase_of_ne hqp).2 (hr.listed q hq)
  · rw [hwp] at hq
    obtain ⟨h4, h5, W, hW, hc⟩ := hr.live q a hq
    exact ⟨h4, h5, W, fun r => by rw [hW, hwp], hc⟩
  · obtain ⟨h4, h5⟩ := hr.own q a hq
    exact ⟨(hwp q).trans h4, h5⟩
  · have hb : ({ t with procList := t.procList.erase p }.setProc p none).blocker = t.blocker :=
      funext fun q => by
        rw [State.blocker, hwp]
        rfl
    rw [hb]
    exact hr.acyclic

/-! ### The theorem -/

/-- One step. -/
theorem Books.next (h : Books s) (hsleep : Sleepers s) {e : Event} (he : s.enabled e = true)
    (ho : Orderly s e = true) : Books (s.next e) := by
  have hnone : ∀ {p : ℕ} {y : Phase}, s.phase p = y → y.frame = none → s.frame p = none :=
    fun hp hy => by rw [State.frame, hp, hy]
  have hidle : ∀ {p : ℕ} {x y : Phase}, s.phase p = y → y.frame = none → x.frame = none →
      x.inCall = false → Books (s.setPhase p x) := fun hp hy hx hc =>
    h.setIdle (h.idle_waitptr (hnone hp hy)) hx hc
  cases e with
  | lockid p =>
    have hp : s.phase p = .user ∧ s.procs p = none := by simpa [State.enabled] using he
    exact h.msemProcInit (h.idle_waitptr (hnone hp.1 rfl))
  | mcas p k =>
    simp only [State.next]
    split_ifs
    · exact h.setMem
    · exact h
  | unlock p k ifWaiters =>
    have hp : s.phase p = .user := by simpa [State.enabled] using he
    simp only [State.next]
    split_ifs
    · exact h
    · have hm : Books (s.setMem k { s.mem k with locker := 0 }) := h.setMem
      exact hm.setIdle (h.idle_waitptr (hnone hp rfl)) rfl rfl
  | test p =>
    simp only [State.next]
    split
    next k hp =>
      split_ifs
      · exact hidle hp rfl rfl rfl
      · exact hidle hp rfl rfl rfl
    next => exact h
  | msleep p k nowait x =>
    have hp : s.phase p = .user := by simpa [State.enabled] using he
    simp only [State.next]
    split_ifs with hpr
    · exact hidle hp rfl rfl rfl
    · exact h.lookup (hnone hp rfl) fun hn => hpr (by simp [hn])
  | inited p x =>
    simp only [State.next]
    split
    next k nowait hp =>
      have h1 : Books (s.msemProcInit p) := h.msemProcInit (h.idle_waitptr (hnone hp rfl))
      refine h1.lookup (hnone hp rfl) ?_
      simp [State.msemProcInit]
    next => exact h
  | malloced p a x =>
    simp only [State.next]
    split
    next k nowait hp =>
      simp only [State.enabled, hp, Bool.not_eq_true'] at he
      exact h.malloced hp he
    next => exact h
  | validated p fault n =>
    simp only [State.next]
    split
    next f hp => exact h.validated hp ho
    next => exact h
  | resume p =>
    simp only [State.next]
    split
    next f w hp =>
      have hf : s.frame p = some f := by rw [State.frame, hp]; rfl
      refine h.setPhase ?_ (fun a ha => ?_) fun _ => h.known p (by rw [hp]; rfl)
      · rw [h.waitptr, State.waitsOn, hf]
        rfl
      · rw [State.owned, hf]
        exact ha
    next => exact h
  | interrupt p =>
    simp only [State.next]
    split
    next f w hp =>
      have hf : s.frame p = some f := by rw [State.frame, hp]; rfl
      have hw := hsleep p f w hp
      have hwp : s.waitptr p = some f.iptr := by
        rw [h.waitptr, State.waitsOn, hf]
        simp [Frame.waitsOn, hw]
      refine Books.leave h.setError ⟨h.known p (by rw [hp]; rfl), fun _ => hwp, fun hw' => ?_,
        fun hw' => ?_⟩ <;>
      · rw [hw] at hw'
        cases hw'
    next => exact h
  | cleared p fault => exact h.cleared
  | mwakeup p k =>
    have hp : s.phase p = .user := by simpa [State.enabled] using he
    exact hidle hp rfl rfl rfl
  | woke p fault =>
    simp only [State.next]
    split
    next k hp => exact h.woke hp
    next => exact h
  | exit p =>
    have hp : s.phase p = .user ∧ s.procs p ≠ none := by simpa [State.enabled] using he
    exact h.msemRelease hp.1

theorem books_reach (h : (system.restrict fun s e => Orderly s e = true).Reach s) :
    Books s ∧ Sleepers s := by
  refine Lts.Reach.inv (I := fun s => Books s ∧ Sleepers s) h ?_ ?_
  · rintro _ ⟨mem, rfl⟩
    exact ⟨books_boot mem, fun p f w hf => by cases hf⟩
  · rintro s e _ - ⟨hb, hsl⟩ ⟨ho, he, rfl⟩
    exact ⟨hb.next hsl he ho, hsl.next⟩

/-- A call that returns keeps its error. -/
theorem error_leave : (s.leave p f).error = s.error := by
  unfold State.leave
  split_ifs
  · rfl
  · exact unlink_eq.2.2.2.1
  · unfold State.own
    split_ifs
    · cases (State.infos _ _).locker <;> rfl
    · rfl
  · unfold State.own
    split_ifs
    · cases (s.infos f.iptr).locker <;> rfl
    · rfl

theorem error_cleared : (s.cleared p fault).error = s.error := by
  unfold State.cleared
  split
  next f _ => cases fault <;> rfl
  next => rfl

theorem phase_leave (hw : f.waiting = false) : (s.leave p f).phase p = .user := by
  unfold State.leave
  split_ifs with h1 h2
  · simp [State.setPhase]
  · rw [hw] at h2
    cases h2
  · rw [hw] at h2
    cases h2
  · simp [State.setPhase]

theorem Books.exact (h : Books s) (hp : s.phase p = .validate f)
    (he : s.enabled (.validated p fault n) = true) (ho : Orderly s (.validated p fault n) = true) :
    ((s.next (.validated p fault n)).phase p = .user ∧
        (s.next (.validated p fault n)).error p = .edeadlk) ↔
      s.mustWait f fault = true ∧ s.Closes p f := by
  have hu := h.holding hp (h.live_of_orderly hp ho)
  have hu1 : Holding (s.touch f.key) p (s.readCp f) := hu.congr rfl rfl rfl rfl
  have hself := @Orderly.self _ _ _ fault n hp ho
  simp only [State.enabled, hp] at he
  simp only [State.next, hp]
  -- neither side holds
  have hneither : ∀ {t : State} {P : Prop}, t.error p ≠ .edeadlk → s.mustWait f fault = false →
      (t.phase p = .user ∧ t.error p = .edeadlk ↔ s.mustWait f fault = true ∧ P) := fun h1 h2 => by
    simp [h1, h2]
  unfold State.validated
  split_ifs with hfault hw hmagic
  · refine hneither ?_ (by simp [State.mustWait, hfault])
    simp [error_leave, State.setError]
  · refine hneither ?_ (by simp [State.mustWait, hfault])
    simp [error_leave, State.setError]
  · refine hneither ?_ (by simp [State.mustWait, hmagic])
    simp [error_cleared, error_leave, State.setError]
  · cases hv : s.verdict p (s.readCp f) n with
    | none => simp [hfault, hmagic, hv] at he
    | some v =>
      have hv1 : (s.touch f.key).verdict p (s.readCp f) n = some v := verdict_touch.trans hv
      have hmust : s.mustWait f fault = (!s.granted (s.readCp f) && !f.nowait) := by
        simp [State.mustWait, hfault, not_not.1 hmagic]
      have hasleep : ((s.touch f.key).loop p (s.readCp f) .sleep).phase p ≠ .user := by
        rw [State.loop, gotoSleep_eq.2.2, update_self]
        exact fun hc => by cases hc
      cases hg : s.granted (s.readCp f) with
      | true =>
        obtain rfl : State.Verdict.granted = v := by simpa [State.verdict, hg] using hv
        refine hneither ?_ (by simp [hmust, hg])
        simp [State.loop, error_cleared, error_leave, State.setError]
      | false =>
        cases hnw : f.nowait with
        | true =>
          obtain rfl : State.Verdict.again = v := by
            have hnw1 : (s.readCp f).nowait = true := hnw
            simpa [State.verdict, hg, hnw1] using hv
          refine hneither ?_ (by simp [hmust, hnw])
          simp [State.loop, error_leave, State.setError]
        | false =>
          have hm : s.mustWait f fault = true := by simp [hmust, hg, hnw]
          have hg1 : (s.touch f.key).granted (s.readCp f) = false := hg
          have hnw1 : (s.readCp f).nowait = false := hnw
          cases hw : f.waiting with
          | true =>
            have hw1 : (s.readCp f).waiting = true := hw
            obtain rfl : State.Verdict.sleep = v := by simpa [State.verdict, hg, hnw1, hw1] using hv
            have hno : ¬s.Closes p f := by
              rw [State.Closes, Books.blocker_again h.touch hu1.procs hw1 (hu1.waiting hw1)]
              exact h.touch.acyclic p
            simp [hasleep, hno]
          | false =>
            obtain ⟨rfl, hc⟩ | ⟨rfl, hc, -⟩ := Books.verdict_spec h.touch hu1 hw hg1 hnw1
              (hself hw hm) hv1
            · have hc1 : s.Closes p f := hc
              have hw1 : (s.readCp f).waiting = false := hw
              refine ⟨fun _ => ⟨hm, hc1⟩, fun _ => ⟨phase_leave hw1, ?_⟩⟩
              simp [State.loop, error_leave, State.setError]
            · have hc1 : ¬s.Closes p f := hc
              simp [hasleep, hc1]

/-- In the runs in which no call waits for a semaphore of its own process, or goes on with a
structure that was freed while it slept. -/
theorem msem_deadlock_check (h : (system.restrict fun s e => Orderly s e = true).Reach s) :
    DeadlockOk s := by
  obtain ⟨hb, -⟩ := books_reach h
  exact ⟨hb.acyclic, hb.ends, fun p f fault n hp he ho => hb.exact hp he ho⟩

/-! ### Runs -/

/-- A second semaphore, in the same region. -/
def semb : Key := ⟨1, 16⟩

/-- Each of two processes holds a semaphore, process 1 waits for that of process 0, and process 0
asks for that of process 1. -/
def crossed : List Event :=
  [.lockid 0, .mcas 0 sema, .lockid 1, .mcas 1 semb, .msleep 1 sema false unlocked,
    .malloced 1 0 unlocked, .validated 1 false 3, .msleep 0 semb false unlocked,
    .malloced 0 1 unlocked]

theorem msem_deadlock_check_crossed :
    DeadlockOk (crossed.foldl State.next (.boot fun _ => unlocked)) := by
  have hrun : Lts.Follows (fun s e => Orderly s e = true ∧ s.enabled e = true) State.next
      (.boot fun _ => unlocked) crossed := by decide +kernel
  exact msem_deadlock_check (Lts.Reach.follows (.init ⟨_, rfl⟩)
    (fun s e he => ⟨he.1, he.2, rfl⟩) hrun)

/-- Process 0 locks a semaphore that it holds. -/
def relock : List Event :=
  [.lockid 0, .mcas 0 sema, .msleep 0 sema false unlocked, .malloced 0 0 unlocked]

/-- Process 2 has found the structure of process 1, which is interrupted and frees it; process 3
gets the cell again for a semaphore that process 2 holds. -/
def recycled : List Event :=
  [.lockid 0, .mcas 0 sema, .lockid 1, .lockid 2, .mcas 2 semb, .lockid 3,
    .msleep 1 sema false unlocked, .malloced 1 0 unlocked, .validated 1 false 2,
    .msleep 2 sema false unlocked, .interrupt 1, .cleared 1 false, .validated 2 false 2,
    .msleep 3 semb false unlocked, .malloced 3 0 unlocked, .validated 3 false 2]

theorem deadlock_stuck (hwp : (s.procs q).bind ProcInfo.waitptr = some a)
    (hl : (s.infos a).locker = some q) (hqp : q ≠ p) (n : ℕ) : s.deadlock p n (some q) = none := by
  induction n with
  | zero => rfl
  | succ n ih =>
    rw [State.deadlock, hwp]
    dsimp only
    rw [hl, if_neg (by simpa using hqp), ih]

/-- No call asks for a semaphore that its process holds. -/
def Foreign (s : State) : Event → Bool
  | .validated p _ _ => match s.phase p with
    | .validate f => s.lockPinfo (s.readCp f) ≠ some p
    | _ => true
  | _ => true

/-- A process that locks a semaphore it holds sleeps, and waits for itself; whoever then asks for
this semaphore walks for ever.  A structure that was freed under a call leads to a cycle too. -/
theorem msem_self_cycle :
    (∃ s f, system.Reach s ∧ s.phase 0 = .validate f ∧ s.enabled (.validated 0 false 1) = true ∧
      s.mustWait f false = true ∧ s.Closes 0 f ∧
      (s.next (.validated 0 false 1)).phase 0 ≠ .user) ∧
    (∃ s, system.Reach s ∧ s.blocker 0 = some 0 ∧ ∀ n, s.deadlock 1 n (some 0) = none) ∧
    ∃ s, (system.restrict fun s e => Foreign s e = true).Reach s ∧ s.blocker 2 = some 2 := by
  have hreach : ∀ ls, Lts.Follows (fun s e => s.enabled e = true) State.next
      (.boot fun _ => unlocked) ls → system.Reach (ls.foldl State.next (.boot fun _ => unlocked)) :=
    fun ls hls => Lts.Reach.follows (.init ⟨_, rfl⟩) (fun s e he => ⟨he, rfl⟩) hls
  have hrecycled : Lts.Follows (fun s e => Foreign s e = true ∧ s.enabled e = true) State.next
      (.boot fun _ => unlocked) recycled := by decide +kernel
  refine ⟨⟨_, ⟨sema, false, 0, false, unlocked, true⟩, hreach relock (by decide +kernel), ?_, ?_, ?_,
    .single ?_, ?_⟩, ⟨_, hreach (relock ++ [.validated 0 false 1]) (by decide +kernel), ?_, ?_⟩,
    _, Lts.Reach.follows (.init ⟨_, rfl⟩) (fun s e he => ⟨he.1, he.2, rfl⟩) hrecycled, ?_⟩
  · decide +kernel
  · decide +kernel
  · decide +kernel
  · show State.blocker _ 0 = some 0
    decide +kernel
  · decide +kernel
  · decide +kernel
  · refine deadlock_stuck (a := 0) ?_ ?_ (by decide)
    · decide +kernel
    · decide +kernel
  · decide +kernel

end Msem

end Hpux
