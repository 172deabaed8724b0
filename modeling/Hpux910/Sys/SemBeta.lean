import Hpux910.Lib.Lts
import Hpux910.Lib.Ring
import Mathlib

/-!
# Beta semaphores

The semaphores of `sem_beta.c` on one processor.  A routine changes a semaphore with interrupts
disabled; `b_vsema` does it twice, and enables them in between: it unlocks the semaphore, and if the
semaphore is wanted, `b_sema_wanted` locks it again for the process that has slept longest.  The
sleepers of all semaphores with the same hash value are on one ring.

* `State` : the semaphores, the rings, and the releases that are between their two sections.
* `bPsema`, `bVsema`, `bCpsema`, `bSemaWanted` : the sections.
* `Undisturbed` : nobody took the semaphore in between.
* `Inv` : what every section keeps.
* `beta_semaphores_exclude` : mutual exclusion and hand-off in the runs that are undisturbed.
-/

namespace Hpux

namespace Beta

open List Function

/-! ### The routines -/

/-- What can be on a ring (`SEMA_WAIT_HEAD` or a process), or `SEM_NULL`. -/
inductive Node
  | null
  | head (bucket : ℕ)
  | proc (p : ℕ)
  deriving DecidableEq

/-- Who can hold a semaphore: a process or an interrupt. -/
inductive Party
  | proc (p : ℕ)
  | intr (k : ℕ)
  deriving DecidableEq

/-- A semaphore (`b_sema_t`). -/
structure BSema where
  /-- `SEM_LOCKED` -/
  locked : Bool
  /-- `SEM_WANT` -/
  want : Bool
  owner : Option Party

/-- The semaphores and the processes. -/
structure State where
  sema : ℕ → BSema
  /-- `p_wait_list`, and `fp` of a head. -/
  waitList : Node → Node
  /-- `p_rwait_list`, and `bp` of a head. -/
  rwaitList : Node → Node
  /-- `p_sleep_sema` -/
  sleepSema : ℕ → Option ℕ
  /-- The semaphore whose release a party has begun: it is before `b_sema_wanted`. -/
  releasing : Party → Option ℕ
  /-- Ghost: the party has got the semaphore and not released it. -/
  holds : Party → ℕ → Bool
  /-- Ghost: the number of steps so far. -/
  now : ℕ
  /-- Ghost: when the process went to sleep. -/
  since : ℕ → ℕ

/-- What is fixed. -/
structure Config where
  /-- `HASH_TO_BH_SEMAP` -/
  hash : ℕ → ℕ
  nproc : ℕ

variable (C : Config)

namespace State

def setSema (s : State) (b : ℕ) (x : BSema) : State := { s with sema := Function.update s.sema b x }

def setHolds (s : State) (a : Party) (b : ℕ) (v : Bool) : State :=
  { s with holds := fun a' b' => if a' = a ∧ b' = b then v else s.holds a' b' }

end State

/-- `b_sema_enqueue`. -/
def bSemaEnqueue (s : State) (b p : ℕ) : State :=
  let h := Node.head (C.hash b)
  let last := s.rwaitList h
  let wait := Function.update s.waitList (.proc p) (s.waitList last)
  let rwait := Function.update s.rwaitList (.proc p) last
  let rwait := Function.update rwait (wait last) (.proc p)
  let wait := Function.update wait last (.proc p)
  { s with
    waitList := wait
    rwaitList := rwait
    sema := Function.update s.sema b { s.sema b with want := true }
    sleepSema := Function.update s.sleepSema p (some b)
    since := Function.update s.since p s.now }

/-- The process sleeps on the semaphore. -/
def State.sleepsOn (s : State) (b : ℕ) : Node → Bool
  | .proc p => s.sleepSema p = some b
  | _ => false

/-- `b_sema_dequeue`. -/
def bSemaDequeue (s : State) (b : ℕ) : Option ℕ × State :=
  let h := Node.head (C.hash b)
  match walk s.waitList h (s.sleepsOn b) (C.nproc + 1) (s.waitList h) with
  | some (.proc p) =>
    let marker := s.rwaitList (.proc p)
    let wait := Function.update s.waitList marker (s.waitList (.proc p))
    let rwait := Function.update s.rwaitList (wait marker) marker
    (some p, { s with
      sleepSema := Function.update s.sleepSema p none
      waitList := Function.update wait (.proc p) .null
      rwaitList := Function.update rwait (.proc p) .null })
  | _ => (none, s.setSema b { s.sema b with want := false })

/-- `b_sema_sleep`: it looks again, and goes to sleep. -/
def bSemaSleep (s : State) (b p : ℕ) : State :=
  if !(s.sema b).locked then
    (s.setSema b { s.sema b with locked := true }).setHolds (.proc p) b true
  else bSemaEnqueue C s b p

/-- `b_psema`. -/
def bPsema (s : State) (p b : ℕ) : State :=
  if !(s.sema b).locked then
    (s.setSema b { s.sema b with
      locked := true
      owner := some (.proc p) }).setHolds (.proc p) b true
  else bSemaSleep C s b p

/-- `b_cpsema`. -/
def bCpsema (s : State) (a : Party) (b : ℕ) : State :=
  if !(s.sema b).locked then
    (s.setSema b { s.sema b with
      locked := true
      owner := some a }).setHolds a b true
  else s

/-- `b_vsema` up to the call of `b_sema_wanted`, if there is one. -/
def bVsema (s : State) (a : Party) (b : ℕ) : State :=
  let s := s.setHolds a b false
  let s := s.setSema b { s.sema b with
    locked := false
    owner := none }
  -- if wanted, enable interrupts and call b_sema_wanted
  { s with
    releasing := if (s.sema b).want then Function.update s.releasing a (some b) else s.releasing }

/-- `b_sema_wanted`. -/
def bSemaWanted (s : State) (a : Party) (b : ℕ) : State :=
  let s := { s with releasing := Function.update s.releasing a none }
  if (s.sema b).want then
    let s := s.setSema b { s.sema b with locked := true }
    match bSemaDequeue C s b with
    | (some p, s) =>
      -- the woken process holds it
      (s.setSema b { s.sema b with owner := some (.proc p) }).setHolds (.proc p) b true
    | (none, s) => s.setSema b { s.sema b with locked := false }
  else s

/-! ### Runs -/

/-- One section. -/
inductive Event
  | psema (p b : ℕ)
  | cpsema (a : Party) (b : ℕ)
  | vsema (a : Party) (b : ℕ)
  | wanted (a : Party) (b : ℕ)

/-- The party is a process that sleeps on a semaphore. -/
def State.asleep (s : State) : Party → Bool
  | .proc p => (s.sleepSema p).isSome
  | .intr _ => false

/-- The party is not asleep and not in a release. -/
def State.Idle (s : State) (a : Party) : Prop := s.releasing a = none ∧ s.asleep a = false

instance (s : State) (a : Party) : Decidable (s.Idle a) := inferInstanceAs (Decidable (_ ∧ _))

/-- Only processes call `b_psema`, and only who holds a semaphore releases it.  Interrupts may come
between any two sections. -/
def State.Enabled (s : State) : Event → Prop
  | .psema p _ => p < C.nproc ∧ s.Idle (.proc p)
  | .cpsema a _ => s.Idle a
  | .vsema a b => s.Idle a ∧ s.holds a b = true
  | .wanted a b => s.releasing a = some b

instance (s : State) : DecidablePred (s.Enabled C) := fun e => by
  cases e <;> unfold State.Enabled <;> infer_instance

def State.act (s : State) : Event → State
  | .psema p b => bPsema C s p b
  | .cpsema a b => bCpsema s a b
  | .vsema a b => bVsema s a b
  | .wanted a b => bSemaWanted C s a b

def State.next (s : State) (e : Event) : State := { s.act C e with now := s.now + 1 }

/-- After `b_initsema` with a positive value and `b_sema_htbl_init`. -/
def State.start : State where
  sema := fun _ => ⟨false, false, none⟩
  waitList := id
  rwaitList := id
  sleepSema := fun _ => none
  releasing := fun _ => none
  holds := fun _ _ => false
  now := 0
  since := fun _ => 0

/-- All interleavings of the sections. -/
def system : Lts State Event where
  init s := s = .start
  step s e s' := s.Enabled C e ∧ s' = s.next C e

/-- `b_sema_wanted` does not find the semaphore wanted and locked: nobody has taken it since
`b_vsema` unlocked it, or it is free again. -/
def Undisturbed (s : State) : Event → Prop
  | .wanted _ b => ¬((s.sema b).want = true ∧ (s.sema b).locked = true)
  | _ => True

instance (s : State) : DecidablePred (Undisturbed s) := fun e => by
  cases e <;> unfold Undisturbed <;> infer_instance

variable {C} {s s' : State} {a : Party} {b p k : ℕ} {l : ℕ → List ℕ}

/-! ### The rings -/

/-- The rings hold the sleepers, those who have slept longest first. -/
structure Chains (C : Config) (s : State) (l : ℕ → List ℕ) : Prop where
  ring : ∀ k, IsRing s.waitList s.rwaitList (.head k) ((l k).map .proc)
  mem_iff : ∀ k p, p ∈ l k ↔ ∃ b, s.sleepSema p = some b ∧ C.hash b = k
  sorted : ∀ k, (l k).Pairwise fun p q => s.since p < s.since q
  past : ∀ k, ∀ p ∈ l k, s.since p < s.now
  lt : ∀ k, ∀ p ∈ l k, p < C.nproc

theorem proc_injective : Function.Injective Node.proc := fun _ _ h => Node.proc.inj h

/-- The nodes of different rings are different. -/
theorem Chains.ne (h : Chains C s l) {k k' : ℕ} (hk : k ≠ k') {x y : Node}
    (hx : x ∈ Node.head k :: (l k).map .proc) (hy : y ∈ Node.head k' :: (l k').map .proc) : x ≠ y := by
  rintro rfl
  simp only [mem_cons, mem_map] at hx hy
  obtain rfl | ⟨p, hp, rfl⟩ := hx
  · obtain hx | ⟨p, -, hx⟩ := hy
    · exact hk (Node.head.inj hx)
    · cases hx
  · obtain hx | ⟨q, hq, hx⟩ := hy
    · cases hx
    · obtain rfl := Node.proc.inj hx
      obtain ⟨b, hb, rfl⟩ := (h.mem_iff k q).1 hp
      obtain ⟨b', hb', rfl⟩ := (h.mem_iff k' q).1 hq
      obtain rfl := Option.some.inj (hb.symm.trans hb')
      exact hk rfl

theorem Chains.length_le (h : Chains C s l) (k : ℕ) : (l k).length ≤ C.nproc := by
  have hnd : (l k).Nodup := (nodup_cons.1 (h.ring k).nodup).2.of_map _
  rw [← toFinset_card_of_nodup hnd, ← Finset.card_range C.nproc]
  refine Finset.card_le_card fun p hp => ?_
  rw [mem_toFinset] at hp
  exact Finset.mem_range.2 (h.lt k p hp)

/-- A step that does not touch the rings. -/
theorem Chains.congr (h : Chains C s l) (hw : s'.waitList = s.waitList)
    (hr : s'.rwaitList = s.rwaitList) (hs : s'.sleepSema = s.sleepSema) (hsi : s'.since = s.since)
    (hn : s.now ≤ s'.now) : Chains C s' l := by
  refine ⟨fun k => ?_, fun k p => ?_, fun k => ?_, fun k p hp => ?_, h.lt⟩
  · rw [hw, hr]
    exact h.ring k
  · rw [hs]
    exact h.mem_iff k p
  · rw [hsi]
    exact h.sorted k
  · rw [hsi]
    exact (h.past k p hp).trans_le hn

/-- `b_sema_enqueue` puts the process at the end of the ring of the semaphore. -/
theorem Chains.enqueue (h : Chains C s l) (hp : p < C.nproc) (hidle : s.sleepSema p = none) :
    Chains C { bSemaEnqueue C s b p with now := s.now + 1 }
      (Function.update l (C.hash b) (l (C.hash b) ++ [p])) := by
  have hno : ∀ k, p ∉ l k := fun k hk => by
    obtain ⟨b', hb', -⟩ := (h.mem_iff k p).1 hk
    rw [hidle] at hb'
    cases hb'
  have hnode : ∀ k, Node.proc p ∉ Node.head k :: (l k).map .proc := fun k hk => by
    simp only [mem_cons, reduceCtorEq, mem_map_of_injective proc_injective,
      false_or] at hk
    exact hno k hk
  have hne : ∀ k, ∀ q ∈ l k, q ≠ p := by
    rintro k q hq rfl
    exact hno k hq
  have hnp : ∀ k, ∀ x ∈ Node.head k :: (l k).map .proc, x ≠ .proc p := by
    rintro k x hx rfl
    exact hnode k hx
  have hring := h.ring (C.hash b)
  set head := Node.head (C.hash b) with hhead
  set last := s.rwaitList head with hlast
  have hlastm : last ∈ head :: (l (C.hash b)).map .proc := hring.path.prev_mem
  have hlastp : last ≠ .proc p := fun hlp => hnode _ (hlp ▸ hlastm)
  have hback : s.waitList last = head := hring.path.next_prev
  have hwait : ∀ x, (bSemaEnqueue C s b p).waitList x =
      if x = last then .proc p else if x = .proc p then head else s.waitList x := by
    intro x
    simp only [bSemaEnqueue, ← hhead, ← hlast, hback, update_apply]
  have hrwait : ∀ x, (bSemaEnqueue C s b p).rwaitList x =
      if x = head then .proc p else if x = .proc p then last else s.rwaitList x := by
    intro x
    simp only [bSemaEnqueue, ← hhead, ← hlast, hback, update_apply, if_neg hlastp]
  have hsince : ∀ q, (bSemaEnqueue C s b p).since q = if q = p then s.now else s.since q := by
    intro q
    simp only [bSemaEnqueue, update_apply]
  have hsleep : ∀ q, (bSemaEnqueue C s b p).sleepSema q =
      if q = p then some b else s.sleepSema q := by
    intro q
    simp only [bSemaEnqueue, update_apply]
  refine ⟨fun k => ?_, fun k q => ?_, fun k => ?_, fun k q hq => ?_, fun k q hq => ?_⟩
  · change IsRing (bSemaEnqueue C s b p).waitList (bSemaEnqueue C s b p).rwaitList _ _
    by_cases hk : k = C.hash b
    · subst hk
      rw [update_self, map_append, ← hhead]
      refine hring.pushBack (hnode _) (fun x hx hxl => ?_) ?_ ?_ (fun x hx => ?_) ?_ ?_
      · rw [hwait, if_neg hxl, if_neg (hnp _ x hx)]
      · rw [hwait, if_pos rfl]
      · rw [hwait, if_neg (Ne.symm hlastp), if_pos rfl]
      · rw [hrwait, if_neg, if_neg (hnp _ x (mem_cons_of_mem _ hx))]
        rintro rfl
        simp [hhead] at hx
      · rw [hrwait, if_neg (by simp [hhead]), if_pos rfl]
      · rw [hrwait, if_pos rfl]
    · rw [update_of_ne hk]
      refine (h.ring k).congr (fun x hx => ?_) fun x hx => ?_
      · rw [hwait, if_neg (h.ne hk hx hlastm), if_neg (hnp k x hx)]
      · rw [hrwait, if_neg (h.ne hk hx mem_cons_self), if_neg (hnp k x hx)]
  · change _ ↔ ∃ b', (bSemaEnqueue C s b p).sleepSema q = some b' ∧ _
    rw [hsleep]
    by_cases hq : q = p
    · subst hq
      by_cases hk : k = C.hash b
      · simp [hk]
      · simp [hk, hno k, Ne.symm hk]
    · rw [if_neg hq, ← h.mem_iff]
      by_cases hk : k = C.hash b
      · simp [hk, hq]
      · simp [hk]
  · change List.Pairwise (fun x y => (bSemaEnqueue C s b p).since x < (bSemaEnqueue C s b p).since y) _
    have hold : (l k).Pairwise fun x y =>
        (bSemaEnqueue C s b p).since x < (bSemaEnqueue C s b p).since y := by
      refine (h.sorted k).imp_of_mem fun {x y} hx hy hxy => ?_
      rwa [hsince, hsince, if_neg (hne k x hx), if_neg (hne k y hy)]
    by_cases hk : k = C.hash b
    · subst hk
      rw [update_self, pairwise_append]
      refine ⟨hold, pairwise_singleton _ _, fun x hx y hy => ?_⟩
      rw [mem_singleton] at hy
      rw [hsince, hsince, if_neg (hne _ x hx), if_pos hy]
      exact h.past _ x hx
    · rwa [update_of_ne hk]
  · change (bSemaEnqueue C s b p).since q < s.now + 1
    rw [hsince]
    split_ifs with hqp
    · exact Nat.lt_succ_self _
    · have hql : q ∈ l k := by
        by_cases hk : k = C.hash b
        · subst hk
          rw [update_self] at hq
          simpa [hqp] using hq
        · rwa [update_of_ne hk] at hq
      exact Nat.lt_succ_of_lt (h.past k q hql)
  · by_cases hqp : q = p
    · exact hqp ▸ hp
    · by_cases hk : k = C.hash b
      · subst hk
        rw [update_self] at hq
        exact h.lt _ q (by simpa [hqp] using hq)
      · rw [update_of_ne hk] at hq
        exact h.lt k q hq

theorem Chains.walk_eq (h : Chains C s l) (b : ℕ) :
    walk s.waitList (.head (C.hash b)) (s.sleepsOn b) (C.nproc + 1) (s.waitList (.head (C.hash b))) =
        ((l (C.hash b)).find? fun p => s.sleepSema p = some b).map .proc := by
  have hlen : ((l (C.hash b)).map Node.proc).length < C.nproc + 1 := by
    rw [length_map]
    exact Nat.lt_succ_of_le (h.length_le _)
  rw [(h.ring _).find _ hlen, find?_map]
  rfl

/-- Unlinking a process from its ring. -/
theorem Chains.unlink (h : Chains C s l) {m r : List ℕ} (hl : l k = m ++ p :: r)
    (hw : ∀ x, s'.waitList x = if x = .proc p then .null
      else if x = s.rwaitList (.proc p) then s.waitList (.proc p) else s.waitList x)
    (hr : ∀ x, s'.rwaitList x = if x = .proc p then .null
      else if x = s.waitList (.proc p) then s.rwaitList (.proc p) else s.rwaitList x)
    (hs : s'.sleepSema = Function.update s.sleepSema p none) (hsi : s'.since = s.since)
    (hn : s.now ≤ s'.now) : Chains C s' fun k' => (l k').erase p := by
  have hring := h.ring k
  have hnd : (l k).Nodup := (nodup_cons.1 hring.nodup).2.of_map _
  have hp : p ∈ l k := by simp [hl]
  have hother : ∀ k', k' ≠ k → p ∉ l k' := fun k' hk' hp' =>
    h.ne hk' (mem_cons_of_mem _ (mem_map_of_mem hp'))
      (mem_cons_of_mem _ (mem_map_of_mem hp)) rfl
  have hm : p ∉ m := fun hpm => by
    rw [hl, nodup_append] at hnd
    exact hnd.2.2 p hpm p mem_cons_self rfl
  have herase : (l k).erase p = m ++ r := by
    rw [hl, erase_append_right _ hm, erase_cons_head]
  have hpath := hring.path
  have hnodup := hring.nodup
  rw [hl, map_append, map_cons] at hpath hnodup
  obtain ⟨hpm, hpr⟩ := path_append.1 hpath
  -- the neighbours are other nodes of this ring
  have hprev : s.rwaitList (.proc p) ∈ Node.head k :: m.map .proc := hpm.prev_mem
  have hnext : s.waitList (.proc p) ∈ Node.head k :: r.map .proc := by
    rw [hpr.next_eq]
    cases r with
    | nil => exact mem_cons_self
    | cons q r => simp
  have hmr : Node.proc p ∉ Node.head k :: (m ++ r).map .proc := by
    have := hnd.not_mem_erase (a := p)
    rw [herase] at this
    simp only [mem_cons, reduceCtorEq, mem_map_of_injective proc_injective, false_or]
    exact this
  have hsub : ∀ x ∈ Node.head k :: (m ++ r).map .proc, x ≠ .proc p := by
    rintro x hx rfl
    exact hmr hx
  have hin : ∀ x, x ∈ Node.head k :: m.map .proc ∨ x ∈ Node.head k :: r.map .proc →
      x ∈ Node.head k :: (l k).map .proc := by
    rintro x hx
    rw [hl, map_append, map_cons]
    simp only [mem_cons, mem_append] at hx ⊢
    tauto
  refine ⟨fun k' => ?_, fun k' q => ?_, fun k' => ?_, fun k' q hq => ?_, fun k' q hq =>
    h.lt k' q (mem_of_mem_erase hq)⟩
  · by_cases hk : k' = k
    · subst hk
      rw [herase, map_append]
      rw [map_append] at hsub
      have hring' : IsRing s.waitList s.rwaitList (.head k') (m.map .proc ++ .proc p :: r.map .proc) :=
        ⟨hpath, hnodup⟩
      refine hring'.remove (fun x hx hxp => ?_) ?_ (fun x hx hxn => ?_) ?_
      · rw [hw, if_neg (hsub x hx), if_neg hxp]
      · rw [hw, if_neg (hsub _ ?_), if_pos rfl]
        simp only [mem_cons, mem_append] at hprev ⊢
        tauto
      · rw [hr, if_neg (hsub x hx), if_neg hxn]
      · rw [hr, if_neg (hsub _ ?_), if_pos rfl]
        simp only [mem_cons, mem_append] at hnext ⊢
        tauto
    · rw [erase_of_not_mem (hother k' hk)]
      have hpk : Node.proc p ∈ Node.head k :: (l k).map .proc :=
        mem_cons_of_mem _ (mem_map_of_mem hp)
      refine (h.ring k').congr (fun x hx => ?_) fun x hx => ?_
      · rw [hw, if_neg (h.ne hk hx hpk), if_neg (h.ne hk hx (hin _ (.inl hprev)))]
      · rw [hr, if_neg (h.ne hk hx hpk), if_neg (h.ne hk hx (hin _ (.inr hnext)))]
  · rw [hs]
    by_cases hqp : q = p
    · subst hqp
      have : q ∉ (l k').erase q := by
        by_cases hk : k' = k
        · exact hk ▸ hnd.not_mem_erase
        · exact fun hq => hother k' hk (mem_of_mem_erase hq)
      simp [this]
    · rw [mem_erase_of_ne hqp, update_of_ne hqp]
      exact h.mem_iff k' q
  · rw [hsi]
    exact (h.sorted k').sublist erase_sublist
  · rw [hsi]
    exact (h.past k' q (mem_of_mem_erase hq)).trans_le hn

/-- `b_sema_dequeue` with a sleeper: the process that has slept longest on the semaphore is taken
off its ring. -/
theorem Chains.dequeue_some (h : Chains C s l) (hq : ∃ q, s.sleepSema q = some b) :
    ∃ p s', bSemaDequeue C s b = (some p, s') ∧ s.sleepSema p = some b ∧
      (∀ q, s.sleepSema q = some b → q ≠ p → s.since p < s.since q) ∧
      Chains C s' (fun k => (l k).erase p) ∧
      s'.sleepSema = Function.update s.sleepSema p none ∧ s'.sema = s.sema ∧
      s'.releasing = s.releasing ∧ s'.holds = s.holds ∧ s'.now = s.now ∧ s'.since = s.since := by
  obtain ⟨q, hq⟩ := hq
  have hql : q ∈ l (C.hash b) := (h.mem_iff _ q).2 ⟨b, hq, rfl⟩
  cases hfind : (l (C.hash b)).find? fun p => s.sleepSema p = some b with
  | none =>
    have := find?_eq_none.1 hfind q hql
    simp [hq] at this
  | some p =>
    obtain ⟨hpb, m, r, hl, hmb⟩ := find?_eq_some_iff_append.1 hfind
    have hpb : s.sleepSema p = some b := by simpa using hpb
    have hwalk := h.walk_eq b
    rw [hfind, Option.map_some] at hwalk
    simp only [bSemaDequeue, hwalk]
    refine ⟨p, _, rfl, hpb, fun q' hq' hne => ?_, ?_, rfl, rfl, rfl, rfl, rfl, rfl⟩
    · have hq'l : q' ∈ l (C.hash b) := (h.mem_iff _ q').2 ⟨b, hq', rfl⟩
      have hsorted := h.sorted (C.hash b)
      rw [hl] at hq'l hsorted
      obtain hm | hr := mem_append.1 hq'l
      · have := hmb q' hm
        simp [hq'] at this
      · have hr' : q' ∈ r := (mem_cons.1 hr).resolve_left hne
        exact (pairwise_cons.1 (pairwise_append.1 hsorted).2.1).1 q' hr'
    · have hpath := (h.ring (C.hash b)).path
      rw [hl, map_append, map_cons] at hpath
      refine h.unlink hl (fun x => ?_) (fun x => ?_) rfl rfl le_rfl
      · simp only [update_apply]
      · simp only [update_apply, if_true]

theorem Chains.dequeue_none (h : Chains C s l) (hno : ∀ q, s.sleepSema q ≠ some b) :
    bSemaDequeue C s b = (none, s.setSema b { s.sema b with want := false }) := by
  have hwalk := h.walk_eq b
  rw [find?_eq_none.2 fun q _ => by simpa using hno q, Option.map_none] at hwalk
  simp only [bSemaDequeue, hwalk]

/-! ### The invariant -/

/-- What every undisturbed section keeps. -/
structure Inv (C : Config) (s : State) : Prop where
  chains : ∃ l, Chains C s l
  want : ∀ p b, s.sleepSema p = some b → (s.sema b).want = true
  locked_iff : ∀ b, (s.sema b).locked = true ↔ ∃ a, s.holds a b = true
  exclusive : ∀ a a' b, s.holds a b = true → s.holds a' b = true → a = a'
  awake : ∀ p b, s.sleepSema p = some b →
    (s.sema b).locked = true ∨ ∃ a, s.releasing a = some b

theorem inv_start : Inv C .start := by
  refine ⟨⟨fun _ => [], fun k => ⟨⟨rfl, rfl⟩, by simp⟩, fun k p => ?_, fun _ => .nil, nofun,
    nofun⟩, nofun, fun b => ?_, nofun, nofun⟩
  · simp [State.start]
  · simp [State.start]

/-- A party gets a semaphore that is not locked. -/
theorem Inv.take (h : Inv C s) (hb : (s.sema b).locked = false) {x : BSema}
    (hx : x.locked = true) (hw : x.want = (s.sema b).want) :
    Inv C { (s.setSema b x).setHolds a b true with now := s.now + 1 } := by
  have hno : ∀ a', s.holds a' b = false := fun a' => by
    by_contra hh
    rw [Bool.not_eq_false] at hh
    have := (h.locked_iff b).2 ⟨a', hh⟩
    rw [hb] at this
    cases this
  refine ⟨?_, fun p b' hp => ?_, fun b' => ?_, fun a' a'' b' ha' ha'' => ?_, fun p b' hp => ?_⟩
  · obtain ⟨l, hl⟩ := h.chains
    exact ⟨l, hl.congr rfl rfl rfl rfl (Nat.le_succ _)⟩
  · by_cases hbb : b' = b
    · subst hbb
      simpa [State.setSema, State.setHolds, hw] using h.want p b' hp
    · simpa [State.setSema, State.setHolds, hbb] using h.want p b' hp
  · by_cases hbb : b' = b
    · subst hbb
      simp only [State.setSema, State.setHolds, update_self, hx, true_iff]
      exact ⟨a, by simp⟩
    · simpa [State.setSema, State.setHolds, hbb] using h.locked_iff b'
  · by_cases hbb : b' = b
    · subst hbb
      simp only [State.setSema, State.setHolds, hno, and_true, Bool.ite_eq_true_distrib] at ha' ha''
      simp_all
    · simp only [State.setSema, State.setHolds, hbb, and_false, if_false] at ha' ha''
      exact h.exclusive a' a'' b' ha' ha''
  · by_cases hbb : b' = b
    · subst hbb
      exact .inl (by simpa [State.setSema, State.setHolds] using hx)
    · simpa [State.setSema, State.setHolds, hbb] using h.awake p b' hp

theorem Inv.cpsema (h : Inv C s) : Inv C (s.next C (.cpsema a b)) := by
  simp only [State.next, State.act, bCpsema]
  cases hb : (s.sema b).locked with
  | false => exact h.take hb rfl rfl
  | true =>
    obtain ⟨l, hl⟩ := h.chains
    exact ⟨⟨l, hl.congr rfl rfl rfl rfl (Nat.le_succ _)⟩, h.want, h.locked_iff, h.exclusive,
      h.awake⟩

theorem Inv.psema (h : Inv C s) (hp : p < C.nproc) (hidle : s.sleepSema p = none) :
    Inv C (s.next C (.psema p b)) := by
  simp only [State.next, State.act, bPsema, bSemaSleep]
  cases hb : (s.sema b).locked with
  | false => exact h.take hb rfl rfl
  | true =>
    obtain ⟨l, hl⟩ := h.chains
    have hsleep : ∀ q, (bSemaEnqueue C s b p).sleepSema q =
        if q = p then some b else s.sleepSema q := fun q => by
      simp only [bSemaEnqueue, update_apply]
    have hsema : ∀ b', (bSemaEnqueue C s b p).sema b' =
        { s.sema b' with want := if b' = b then true else (s.sema b').want } := fun b' => by
      by_cases hbb : b' = b
      · subst hbb
        simp [bSemaEnqueue]
      · simp [bSemaEnqueue, hbb]
    refine ⟨⟨_, hl.enqueue hp hidle⟩, fun q b' hq => ?_, fun b' => ?_, h.exclusive,
      fun q b' hq => ?_⟩
    · change ((bSemaEnqueue C s b p).sema b').want = true
      have hq : (bSemaEnqueue C s b p).sleepSema q = some b' := hq
      rw [hsleep] at hq
      rw [hsema]
      split_ifs at hq with hqp
      · obtain rfl := Option.some.inj hq
        simp
      · simp [h.want q b' hq]
    · change ((bSemaEnqueue C s b p).sema b').locked = true ↔ _
      rw [hsema]
      exact h.locked_iff b'
    · have hq : (bSemaEnqueue C s b p).sleepSema q = some b' := hq
      change ((bSemaEnqueue C s b p).sema b').locked = true ∨ _
      rw [hsleep] at hq
      rw [hsema]
      split_ifs at hq with hqp
      · obtain rfl := Option.some.inj hq
        exact .inl hb
      · exact h.awake q b' hq

theorem Inv.vsema (h : Inv C s) (hidle : s.Idle a) (ha : s.holds a b = true) :
    Inv C (s.next C (.vsema a b)) := by
  obtain ⟨l, hl⟩ := h.chains
  have hholds : ∀ a' b', (s.next C (.vsema a b)).holds a' b' =
      if a' = a ∧ b' = b then false else s.holds a' b' := fun _ _ => rfl
  have hsema : ∀ b', (s.next C (.vsema a b)).sema b' =
      if b' = b then { s.sema b with
        locked := false
        owner := none } else s.sema b' := fun b' => update_apply ..
  have hrel : (s.next C (.vsema a b)).releasing =
      if (s.sema b).want = true then Function.update s.releasing a (some b) else s.releasing := by
    simp only [State.next, State.act, bVsema, State.setHolds, State.setSema, update_self]
  refine ⟨⟨l, hl.congr rfl rfl rfl rfl (Nat.le_succ _)⟩, fun p b' hp => ?_, fun b' => ?_,
    fun a' a'' b' ha' ha'' => ?_, fun p b' hp => ?_⟩
  · have := h.want p b' hp
    rw [hsema]
    split_ifs with hb
    · exact hb ▸ this
    · exact this
  · rw [hsema]
    split_ifs with hb
    · subst hb
      simp only [false_iff, not_exists]
      intro a' ha'
      rw [hholds] at ha'
      split_ifs at ha' with haa
      exact haa ⟨h.exclusive a' a b' ha' ha, rfl⟩
    · rw [h.locked_iff b']
      refine exists_congr fun a' => ?_
      rw [hholds, if_neg fun haa => hb haa.2]
  · rw [hholds] at ha' ha''
    split_ifs at ha' ha''
    exact h.exclusive a' a'' b' ha' ha''
  · have hw := h.want p b' hp
    rw [hsema, hrel]
    by_cases hb : b' = b
    · subst hb
      rw [if_pos hw]
      exact .inr ⟨a, update_self ..⟩
    · rw [if_neg hb]
      refine (h.awake p b' hp).imp id ?_
      rintro ⟨a', ha'⟩
      refine ⟨a', ?_⟩
      split_ifs
      · rw [update_of_ne, ha']
        rintro rfl
        rw [hidle.1] at ha'
        cases ha'
      · exact ha'

/-- What `b_sema_wanted` changes when it hands the semaphore to `p`. -/
structure Handed (s s' : State) (a : Party) (b p : ℕ) : Prop where
  sleepSema : s'.sleepSema = Function.update s.sleepSema p none
  sema : s'.sema = Function.update s.sema b ⟨true, true, some (.proc p)⟩
  releasing : s'.releasing = Function.update s.releasing a none
  holds : ∀ a' b', s'.holds a' b' = if a' = .proc p ∧ b' = b then true else s.holds a' b'

/-- `b_sema_wanted` with a sleeper: the process that has slept longest gets the semaphore. -/
theorem Chains.wanted_some (h : Chains C s l) (hw : (s.sema b).want = true)
    (hq : ∃ q, s.sleepSema q = some b) : ∃ p, s.sleepSema p = some b ∧
      (∀ q, s.sleepSema q = some b → q ≠ p → s.since p < s.since q) ∧
      Chains C (s.next C (.wanted a b)) (fun k => (l k).erase p) ∧
      Handed s (s.next C (.wanted a b)) a b p := by
  have h1 : Chains C (State.setSema { s with releasing := Function.update s.releasing a none } b
      { s.sema b with locked := true }) l := h.congr rfl rfl rfl rfl le_rfl
  obtain ⟨p, s', hdeq, hp, hfirst, hl', hsleep, hsema, hrel, hholds, hnow, hsince⟩ :=
    h1.dequeue_some hq
  refine ⟨p, hp, hfirst, ?_⟩
  have hnext : s.next C (.wanted a b) =
      { (s'.setSema b { s'.sema b with owner := some (.proc p) }).setHolds (.proc p) b true with
        now := s.now + 1 } := by
    simp only [State.next, State.act, bSemaWanted, if_pos hw, hdeq]
  rw [hnext]
  refine ⟨hl'.congr rfl rfl rfl rfl (hnow.le.trans (Nat.le_succ _)), hsleep, ?_, hrel,
    fun a' b' => ?_⟩
  · simp only [State.setHolds, State.setSema, hsema, update_self, update_idem, hw]
  · simp only [State.setHolds, State.setSema, hholds]

/-- `b_sema_wanted` without a sleeper. -/
theorem Chains.wanted_none (h : Chains C s l) (hw : (s.sema b).want = true)
    (hno : ∀ q, s.sleepSema q ≠ some b) : s.next C (.wanted a b) =
      { s with
        releasing := Function.update s.releasing a none
        sema := Function.update s.sema b ⟨false, false, (s.sema b).owner⟩
        now := s.now + 1 } := by
  have h1 : Chains C (State.setSema { s with releasing := Function.update s.releasing a none } b
      { s.sema b with locked := true }) l := h.congr rfl rfl rfl rfl le_rfl
  have hdeq := h1.dequeue_none hno
  simp only [State.next, State.act, bSemaWanted, if_pos hw, hdeq]
  simp only [State.setSema, update_self, update_idem]

theorem Inv.wanted (h : Inv C s) (ha : s.releasing a = some b)
    (hundisturbed : Undisturbed s (.wanted a b)) : Inv C (s.next C (.wanted a b)) := by
  obtain ⟨l, hl⟩ := h.chains
  -- releases of other semaphores go on
  have hother : ∀ b', b' ≠ b → (∃ a', s.releasing a' = some b') →
      ∃ a', Function.update s.releasing a none a' = some b' := by
    rintro b' hb ⟨a', ha'⟩
    refine ⟨a', ?_⟩
    rw [update_of_ne, ha']
    rintro rfl
    exact hb (Option.some.inj (ha'.symm.trans ha))
  by_cases hw : (s.sema b).want = true
  · have hunlocked : (s.sema b).locked = false := by
      by_contra hlock
      rw [Bool.not_eq_false] at hlock
      exact hundisturbed ⟨hw, hlock⟩
    have hno : ∀ a', s.holds a' b = false := fun a' => by
      by_contra hh
      rw [Bool.not_eq_false] at hh
      rw [(h.locked_iff b).2 ⟨a', hh⟩] at hunlocked
      cases hunlocked
    by_cases hq : ∃ q, s.sleepSema q = some b
    · obtain ⟨p, hp, -, hl', hh⟩ := hl.wanted_some (a := a) hw hq
      have hsleep : ∀ q b', (s.next C (.wanted a b)).sleepSema q = some b' →
          s.sleepSema q = some b' := fun q b' hq' => by
        rw [hh.sleepSema] at hq'
        by_cases hqp : q = p
        · subst hqp
          simp at hq'
        · rwa [update_of_ne hqp] at hq'
      refine ⟨⟨_, hl'⟩, fun q b' hq' => ?_, fun b' => ?_, fun a' a'' b' ha' ha'' => ?_,
        fun q b' hq' => ?_⟩
      · rw [hh.sema]
        by_cases hb : b' = b
        · subst hb
          simp
        · rw [update_of_ne hb]
          exact h.want q b' (hsleep q b' hq')
      · rw [hh.sema]
        by_cases hb : b' = b
        · subst hb
          simp only [update_self, true_iff]
          exact ⟨.proc p, by rw [hh.holds]; simp⟩
        · rw [update_of_ne hb, h.locked_iff b']
          exact exists_congr fun a' => by rw [hh.holds, if_neg fun haa => hb haa.2]
      · rw [hh.holds] at ha' ha''
        by_cases hb : b' = b
        · subst hb
          simp only [hno, and_true] at ha' ha''
          split_ifs at ha' ha'' with h1 h2
          exact h1.trans h2.symm
        · rw [if_neg fun haa => hb haa.2] at ha' ha''
          exact h.exclusive a' a'' b' ha' ha''
      · rw [hh.sema, hh.releasing]
        by_cases hb : b' = b
        · subst hb
          exact .inl (by simp)
        · rw [update_of_ne hb]
          exact (h.awake q b' (hsleep q b' hq')).imp id (hother b' hb)
    · rw [not_exists] at hq
      rw [hl.wanted_none (a := a) hw hq]
      refine ⟨⟨l, hl.congr rfl rfl rfl rfl (Nat.le_succ _)⟩, fun q b' hq' => ?_, fun b' => ?_,
        h.exclusive, fun q b' hq' => ?_⟩
      · have hb : b' ≠ b := fun hb => hq q (hb ▸ hq')
        simpa [hb] using h.want q b' hq'
      · by_cases hb : b' = b
        · subst hb
          simp [hno]
        · simpa [hb] using h.locked_iff b'
      · have hb : b' ≠ b := fun hb => hq q (hb ▸ hq')
        simp only [update_of_ne hb]
        exact (h.awake q b' hq').imp id (hother b' hb)
  · -- not wanted, so nobody sleeps on it
    have hnext : s.next C (.wanted a b) =
        { s with
          releasing := Function.update s.releasing a none
          now := s.now + 1 } := by
      simp only [State.next, State.act, bSemaWanted, if_neg hw]
    rw [hnext]
    refine ⟨⟨l, hl.congr rfl rfl rfl rfl (Nat.le_succ _)⟩, h.want, h.locked_iff, h.exclusive,
      fun q b' hq' => ?_⟩
    have hb : b' ≠ b := fun hb => hw (hb ▸ h.want q b' hq')
    exact (h.awake q b' hq').imp id (hother b' hb)

theorem Inv.next (h : Inv C s) {e : Event} (he : s.Enabled C e) (hu : Undisturbed s e) :
    Inv C (s.next C e) := by
  cases e with
  | psema p b => exact h.psema he.1 (by simpa [State.asleep] using he.2.2)
  | cpsema a b => exact h.cpsema
  | vsema a b => exact h.vsema he.1 he.2
  | wanted a b => exact h.wanted he hu

theorem inv_reach (h : ((system C).restrict Undisturbed).Reach s) : Inv C s := by
  refine h.inv ?_ ?_
  · rintro _ rfl
    exact inv_start
  · rintro s e _ - hs ⟨hu, he, rfl⟩
    exact hs.next he hu

/-! ### The theorem -/

/-- Mutual exclusion, no lost sleeper, and hand-off. -/
structure Excludes (C : Config) (s : State) : Prop where
  /-- At most one party holds a semaphore, and it is locked just when one does. -/
  exclusive : ∀ a a' b, s.holds a b = true → s.holds a' b = true → a = a'
  locked_iff : ∀ b, (s.sema b).locked = true ↔ ∃ a, s.holds a b = true
  /-- `SEM_WANT` is set when a process sleeps on the semaphore. -/
  want : ∀ p b, s.sleepSema p = some b → (s.sema b).want = true
  /-- A release of a semaphore with sleepers comes to `b_sema_wanted`, -/
  release : ∀ a b, s.Idle a → s.holds a b = true → (∃ p, s.sleepSema p = some b) →
    (s.next C (.vsema a b)).releasing a = some b
  /-- which hands it to the process that has slept longest on it; the rings lose this process and
  keep their order. -/
  handoff : ∀ a b, s.releasing a = some b → (∃ q, s.sleepSema q = some b) →
    ∃ l p, Chains C s l ∧ s.sleepSema p = some b ∧
      (∀ q, s.sleepSema q = some b → q ≠ p → s.since p < s.since q) ∧
      Chains C (s.next C (.wanted a b)) (fun k => (l k).erase p) ∧
      Handed s (s.next C (.wanted a b)) a b p
  /-- Nobody sleeps on an unlocked semaphore unless its release is in progress. -/
  awake : ∀ p b, s.sleepSema p = some b →
    (s.sema b).locked = true ∨ ∃ a, s.releasing a = some b

/-- In the runs in which no `b_sema_wanted` finds the semaphore taken, the semaphores exclude and
are handed on. -/
theorem beta_semaphores_exclude (h : ((system C).restrict Undisturbed).Reach s) :
    Excludes C s := by
  have hinv := inv_reach h
  obtain ⟨l, hl⟩ := hinv.chains
  refine ⟨hinv.exclusive, hinv.locked_iff, hinv.want, fun a b _ _ hp => ?_, fun a b _ hq => ?_,
    hinv.awake⟩
  · obtain ⟨p, hp⟩ := hp
    have hw := hinv.want p b hp
    simp [State.next, State.act, bVsema, State.setHolds, State.setSema, hw]
  · obtain ⟨q, hq⟩ := hq
    obtain ⟨p, hp, hfirst, hl', hh⟩ := hl.wanted_some (hinv.want q b hq) ⟨q, hq⟩
    exact ⟨l, p, hl, hp, hfirst, hl', hh⟩

/-- Three processes; all semaphores hash to one ring. -/
def three : Config := ⟨fun _ => 0, 3⟩

/-- A process sleeps for the semaphore of another one, which hands it over. -/
def handedRun : List Event :=
  [.psema 0 0, .psema 1 0, .vsema (.proc 0) 0, .wanted (.proc 0) 0]

theorem beta_semaphores_exclude_handed :
    Excludes three (handedRun.foldl (State.next three) .start) := by
  have hrun : Lts.Follows (fun s e => Undisturbed s e ∧ s.Enabled three e) (State.next three)
      .start handedRun := by decide +kernel
  exact beta_semaphores_exclude (Lts.Reach.follows (.init rfl)
    (fun s e he => ⟨he.1, he.2, rfl⟩) hrun)

/-- An interrupt takes and releases the semaphore between the two sections of the `b_vsema` of
process 0, while processes 1 and 2 sleep. -/
def disturbedRun : List Event :=
  [.psema 0 0, .psema 1 0, .psema 2 0, .vsema (.proc 0) 0, .cpsema (.intr 0) 0,
    .vsema (.intr 0) 0, .wanted (.intr 0) 0, .wanted (.proc 0) 0]

/-- The interrupt hands the semaphore to the first sleeper; then the process that was interrupted
hands it to the second one. -/
theorem beta_semaphore_two_holders :
    ∃ s, (system three).Reach s ∧ s.holds (.proc 1) 0 = true ∧ s.holds (.proc 2) 0 = true := by
  have hrun : Lts.Follows (fun s e => s.Enabled three e) (State.next three) .start
      disturbedRun := by decide +kernel
  refine ⟨_, Lts.Reach.follows (.init rfl) (fun s e he => ⟨he, rfl⟩) hrun, ?_⟩
  decide +kernel

end Beta

end Hpux
