import Hpux910.Sys.MsemInv

/-!
# One structure for each semaphore with waiters

`msleep` looks for the structure of its semaphore, sleeps to allocate one or to make the page valid,
and does not look again; and the last waiter that leaves writes back the copy of the semaphore that
it read before it slept.

* `Undisturbed` : what must hold at these steps.
* `Inv.next` : a step that meets it keeps the invariant.
* `msem_waiters_wanted` : one structure, `wanted`, and the locker word in the runs that are
  undisturbed.
-/

namespace Hpux

namespace Msem

open Function

variable {s s' : State} {p q a : ℕ} {k : Key} {f g : Frame}

/-! ### The condition -/

/-- The pass of the loop ends with the process asleep. -/
def State.goesToSleep (s : State) (p : ℕ) (f : Frame) (fault : Bool) (n : ℕ) : Bool :=
  !fault && (s.readCp f).semCp.magic = msemMagic && s.verdict p (s.readCp f) n = some .sleep

/-- The structure that the call got before it slept can still be used: the call has allocated it,
and if it is to be linked now no other is; or it is still the one that is linked. -/
def State.Current (s : State) (p : ℕ) (f : Frame) (fault : Bool) (n : ℕ) : Bool :=
  f.waiting ||
    if f.own then !s.goesToSleep p f fault n || (s.msemFind f.key).isNone
    else s.msemFind f.key = some f.iptr

/-- Nothing that the step relies on has changed while the process slept. -/
def Undisturbed (s : State) : Event → Bool
  | .validated p fault n => match s.phase p with
    | .validate f => s.Current p f fault n
    | _ => true
  | .cleared p fault => match s.phase p with
    | .clear f => fault || ((s.msemFind f.key).isNone &&
        (s.error p ≠ .eintr || (s.mem f.key).locker = f.semCp.locker))
    | _ => true
  | _ => true

/-! ### The routines -/

theorem frame_setPhase (x : Phase) :
    (s.setPhase p x).frame q = if q = p then x.frame else s.frame q := by
  by_cases hq : q = p
  · simp [State.setPhase, State.frame, hq]
  · simp [State.setPhase, State.frame, hq]

/-- The lists of locked semaphores and their lockers may differ. -/
structure Same (s s' : State) : Prop where
  mem : s'.mem = s.mem
  key : ∀ a, s'.key a = s.key a
  count : ∀ a, (s'.infos a).waitCount = (s.infos a).waitCount
  used : s'.used = s.used
  hlist : s'.hlist = s.hlist
  phase : s'.phase = s.phase

theorem Same.setLocker {i : Option ℕ} (hs : s'.infos = s.infos) :
    ∀ b, (s'.setInfo a { s.infos a with locker := i }).key b = s.key b ∧
      ((s'.setInfo a { s.infos a with locker := i }).infos b).waitCount =
        (s.infos b).waitCount := fun b => by
  by_cases hb : b = a
  · subst hb
    simp [State.key, State.setInfo, MsemInfo.key]
  · simp [State.key, State.setInfo, hb, hs]

theorem same_own : Same s (s.own p f) := by
  unfold State.own
  split_ifs
  · cases hl : (s.infos f.iptr).locker with
    | none => exact ⟨rfl, fun b => (Same.setLocker rfl b).1, fun b => (Same.setLocker rfl b).2,
        rfl, rfl, rfl⟩
    | some q => exact ⟨rfl, fun b => (Same.setLocker rfl b).1, fun b => (Same.setLocker rfl b).2,
        rfl, rfl, rfl⟩
  · exact ⟨rfl, fun _ => rfl, fun _ => rfl, rfl, rfl, rfl⟩

theorem Same.frame (h : Same s s') : s'.frame p = s.frame p := by
  rw [State.frame, h.phase, State.frame]

theorem Inv.same (h : Inv s) (hs : Same s s') : Inv s' :=
  h.congr (fun k hk => by rwa [hs.mem]) hs.key hs.count hs.used hs.hlist fun p => by rw [hs.frame]

theorem key_unwait : (s.unwait p f).key a = s.key a := by
  by_cases ha : a = f.iptr
  · subst ha
    simp [State.key, State.unwait, State.setInfo, State.setWaitptr, State.setProc, MsemInfo.key]
  · simp [State.key, State.unwait, State.setInfo, State.setWaitptr, State.setProc, ha]

theorem count_unwait : ((s.unwait p f).infos a).waitCount =
    if a = f.iptr then (s.infos a).waitCount - 1 else (s.infos a).waitCount := by
  by_cases ha : a = f.iptr
  · subst ha
    simp [State.unwait, State.setInfo, State.setWaitptr, State.setProc]
  · simp [State.unwait, State.setInfo, State.setWaitptr, State.setProc, ha]

theorem unlink_eq : (s.unlink f).mem = s.mem ∧ (s.unlink f).infos = s.infos ∧
    (s.unlink f).phase = s.phase ∧ (s.unlink f).error = s.error ∧
    (s.unlink f).used = Function.update s.used f.iptr false ∧
    (s.unlink f).hlist = Function.update s.hlist (msemHash f.key)
      ((s.hlist (msemHash f.key)).erase f.iptr) := by
  unfold State.unlink
  cases (s.infos f.iptr).locker <;> exact ⟨rfl, rfl, rfl, rfl, rfl, rfl⟩

theorem State.Linked.reg_ne_none (h : s.Linked a k) : (s.infos a).reg ≠ none := fun hn => by
  have hk := h.2
  simp [State.key, MsemInfo.key, hn] at hk

/-- What a call has before it leaves the loop. -/
def Usable (s : State) (p : ℕ) (f : Frame) : Prop :=
  ∃ g, s.frame p = some g ∧ f.key = g.key ∧ f.iptr = g.iptr ∧ f.waiting = g.waiting ∧
    (g.waiting = true ∨ g.own = true ∨ s.Linked g.iptr g.key)

theorem Inv.leave (h : Inv s) (hu : Usable s p f) : Inv (s.leave p f) := by
  obtain ⟨g, hg, hk, hi, hw, hcur⟩ := hu
  have hlinked : g.waiting = true → s.Linked g.iptr g.key := fun hgw =>
    ⟨⟨_, (h.waiting p g hg hgw).1⟩, (h.waiting p g hg hgw).2.1⟩
  have hwf : g.own = true → g.waiting = false := fun hgo => by
    by_contra hne
    rw [(h.waiting p g hg (by simpa using hne)).2.2] at hgo
    cases hgo
  unfold State.leave
  split_ifs with hreg hfw hc
  · -- only what the call has allocated is not linked
    have hno : ¬s.Linked g.iptr g.key := fun hl => hl.reg_ne_none (hi ▸ hreg)
    have hgo : g.own = true := (hcur.resolve_left fun hgw => hno (hlinked hgw)).resolve_right hno
    refine h.rephase (p := p) (fun k hk => hk) (fun a => rfl) (fun a => rfl) (fun a ha => ?_) rfl
      (fun q hq => by rw [frame_setPhase, if_neg hq]; rfl) (fun f' hf' => ?_) (fun f' hf' => ?_)
    · by_cases ha' : a = f.iptr
      · exact .inr ⟨g, hg, hgo, (hi.symm.trans ha'.symm)⟩
      · exact .inl (by simpa [State.setPhase, State.free, ha'] using ha)
    · rw [← Option.some.inj (hg.symm.trans hf')]
      exact hwf hgo
    · rw [frame_setPhase, if_pos rfl] at hf'
      cases hf'
  · obtain ⟨h1, h2, h3, -, h4, h5⟩ := unlink_eq (s := s.unwait p f) (f := f)
    refine h.unlink hg (hw ▸ hfw) (hi ▸ hc) (fun k' hk' => ?_) (fun a => ?_) (fun a ha => ?_) ?_ ?_
      fun q => ?_
    · exact (congrArg (fun m => (m k').wanted ≠ 0) h1).mpr hk'
    · simp only [State.key, State.setPhase, h2]
      exact key_unwait
    · simp only [State.setPhase, h2]
      rw [count_unwait, if_neg (hi ▸ ha)]
    · rw [← hi]
      exact h4
    · rw [← hk, ← hi]
      exact h5
    · rw [frame_setPhase]
      split_ifs with hq
      · rfl
      · simp only [State.frame, h3]
        rfl
  · have hs := same_own (s := s.unwait p f) (p := p) (f := f)
    refine h.depart hg (hw ▸ hfw) (hi ▸ hc) (fun k' hk' => ?_) (fun a => ?_) (fun a => ?_) ?_ ?_
      fun q => ?_
    · exact (congrArg (fun m => (m k').wanted ≠ 0) hs.mem).mpr hk'
    · exact (hs.key a).trans key_unwait
    · exact (hs.count a).trans (hi ▸ count_unwait)
    · exact hs.used
    · exact hs.hlist
    · rw [frame_setPhase]
      split_ifs with hq
      · rfl
      · exact hs.frame
  · have hs := same_own (s := s) (p := p) (f := f)
    refine h.rephase (p := p) (fun k hk => by simpa [State.setPhase, hs.mem] using hk) hs.key
      hs.count (fun a ha => .inl ?_) hs.hlist
      (fun q hq => by rw [frame_setPhase, if_neg hq, hs.frame]) (fun f' hf' => ?_)
      (fun f' hf' => ?_)
    · simpa [State.setPhase, hs.used] using ha
    · rw [← Option.some.inj (hg.symm.trans hf'), ← hw]
      simpa using hfw
    · rw [frame_setPhase, if_pos rfl] at hf'
      cases hf'

/-- After the last waiter has left, no structure is linked for its semaphore. -/
theorem Inv.leave_find (h : Inv s) (hu : Usable s p f) (hp : (s.leave p f).phase p = .clear g) :
    (s.leave p f).msemFind g.key = none := by
  have hinv := h.leave hu
  obtain ⟨f', hf', hk, hi, hw, -⟩ := hu
  unfold State.leave at hp hinv ⊢
  split_ifs at hp hinv ⊢ with hreg hfw hc
  · simp [State.setPhase] at hp
  · obtain ⟨-, h2, -, -, -, h5⟩ := unlink_eq (s := s.unwait p f) (f := f)
    simp only [State.setPhase, update_self, Phase.clear.injEq] at hp
    subst hp
    obtain ⟨hin, hkf, -⟩ := h.waiting p f' hf' (hw ▸ hfw)
    refine Option.eq_none_iff_forall_not_mem.2 fun a ha => ?_
    obtain ⟨⟨hh, hl⟩, hak⟩ := hinv.find_iff.1 ha
    obtain ⟨k', hk', rfl, -⟩ := hinv.linked hh a hl
    obtain rfl := Option.some.inj (hk'.symm.trans hak)
    -- it would be the one that was linked before
    have hold : s.key a = some f.key := by
      have hak' : s.key a = some f.key := by
        rw [← key_unwait (p := p) (f := f), ← hak]
        exact congrArg (fun i => (i a).key) h2.symm
      exact hak'
    have hl' : a ∈ (s.hlist (msemHash f.key)).erase f.iptr := by
      have := congrFun h5 (msemHash f.key)
      rw [update_self] at this
      exact this ▸ hl
    have hne := ((h.nodup _).mem_erase_iff.1 hl').1
    have hmem := ((h.nodup _).mem_erase_iff.1 hl').2
    exact hne (h.unique _ a hmem _ (by rw [hk, hi]; exact hin) (by rw [hold, hi, hkf, hk]))
  · simp [State.setPhase] at hp
  · simp [State.setPhase] at hp

theorem Inv.setPhase (h : Inv s) {x : Phase} (hold : ∀ f, s.frame p = some f → f.waiting = false)
    (hnew : ∀ f, x.frame = some f → f.waiting = false ∧ f.own = false) : Inv (s.setPhase p x) := by
  refine h.rephase (p := p) (fun k hk => hk) (fun a => rfl) (fun a => rfl) (fun a ha => .inl ha) rfl
    (fun q hq => by rw [frame_setPhase, if_neg hq]) hold (fun f' hf' => ?_)
  rw [frame_setPhase, if_pos rfl] at hf'
  exact hnew f' hf'

theorem Inv.setError (h : Inv s) {e : Errno} : Inv (s.setError p e) :=
  ⟨h.nodup, h.linked, h.unique, h.count, h.waiting, h.own⟩

theorem Inv.setProc (h : Inv s) {i : Option ProcInfo} : Inv (s.setProc p i) :=
  ⟨h.nodup, h.linked, h.unique, h.count, h.waiting, h.own⟩

theorem Inv.msemProcInit (h : Inv s) : Inv (s.msemProcInit p) :=
  ⟨h.nodup, h.linked, h.unique, h.count, h.waiting, h.own⟩

variable {fault : Bool}

theorem Inv.cleared (h : Inv s)
    (hc : ∀ f, s.phase p = .clear f → fault = false → s.msemFind f.key = none) :
    Inv (s.cleared p fault) := by
  unfold State.cleared
  split
  next f hp =>
    have hframe : s.frame p = none := by rw [State.frame, hp]; rfl
    have hinv : Inv (if fault then s else s.setMem f.key f.semCp) := by
      split_ifs with hfault
      · exact h
      · exact h.setMem fun _ _ => hc f hp (by simpa using hfault)
    refine hinv.setPhase (fun f' hf' => ?_) fun f' hf' => by cases hf'
    have hn : State.frame (if fault then s else s.setMem f.key f.semCp) p = s.frame p := by
      split_ifs <;> rfl
    rw [hn, hframe] at hf'
    cases hf'
  next => exact h

theorem Inv.leave_cleared (h : Inv s) (hu : Usable s p f) : Inv ((s.leave p f).cleared p false) :=
  (h.leave hu).cleared fun _ hp _ => h.leave_find hu hp

theorem Inv.touch (h : Inv s) : Inv (s.touch k) := by
  refine h.setMem fun hw hz => ?_
  exact absurd hz hw

/-- What a process sleeps with. -/
def Frame.asleep (f : Frame) : Frame :=
  { f with
    waiting := true
    semCp := if f.semCp.wanted = 0 then { f.semCp with wanted := 1 } else f.semCp
    own := false }

theorem Frame.asleep_wanted : f.asleep.semCp.wanted ≠ 0 := by
  unfold Frame.asleep
  dsimp only
  split_ifs with hw
  · show (1 : BitVec 32) ≠ 0
    decide
  · exact hw

theorem gotoSleep_eq : (s.gotoSleep p f).mem = Function.update s.mem f.key f.asleep.semCp ∧
    (s.gotoSleep p f).used = s.used ∧
    (s.gotoSleep p f).phase = Function.update s.phase p (.asleep f.asleep false) := by
  cases hr : (s.infos f.iptr).reg <;> cases hq : s.lockPinfo f <;> cases hw : f.waiting <;>
    simp [State.gotoSleep, Frame.asleep, hr, hq, hw, State.setMem, State.setWaitptr, State.setProc,
      State.locklistAdd]

theorem frame_gotoSleep :
    (s.gotoSleep p f).frame q = if q = p then some f.asleep else s.frame q := by
  rw [State.frame, gotoSleep_eq.2.2]
  by_cases hq : q = p
  · simp [hq, Phase.frame]
  · simp [hq, State.frame]

theorem wanted_gotoSleep (hk : (s.mem k).wanted ≠ 0) : ((s.gotoSleep p f).mem k).wanted ≠ 0 := by
  rw [gotoSleep_eq.1]
  by_cases he : k = f.key
  · subst he
    rw [update_self]
    exact Frame.asleep_wanted
  · rwa [update_of_ne he]

/-- The process sleeps on a structure that is linked. -/
theorem gotoSleep_linked (hreg : (s.infos f.iptr).reg ≠ none) :
    (s.gotoSleep p f).hlist = s.hlist ∧ (∀ a, (s.gotoSleep p f).key a = s.key a) ∧
    ∀ a, ((s.gotoSleep p f).infos a).waitCount =
      if a = f.iptr ∧ f.waiting = false then (s.infos a).waitCount + 1
      else (s.infos a).waitCount := by
  obtain ⟨r, hr⟩ := Option.ne_none_iff_exists'.1 hreg
  refine ⟨by simp [State.gotoSleep, hr], fun a => ?_, fun a => ?_⟩
  · by_cases ha : a = f.iptr
    · subst ha
      cases hw : f.waiting <;> simp [State.gotoSleep, State.key, MsemInfo.key, hr, hw]
    · simp [State.gotoSleep, State.key, ha]
  · by_cases ha : a = f.iptr
    · subst ha
      cases hw : f.waiting <;> simp [State.gotoSleep, hr, hw]
    · simp [State.gotoSleep, ha]

/-- The process links the structure it has allocated. -/
theorem gotoSleep_fresh (hreg : (s.infos f.iptr).reg = none) (hw : f.waiting = false) :
    (s.gotoSleep p f).hlist = Function.update s.hlist (msemHash f.key)
      (f.iptr :: s.hlist (msemHash f.key)) ∧
    (∀ a, (s.gotoSleep p f).key a = if a = f.iptr then some f.key else s.key a) ∧
    ∀ a, ((s.gotoSleep p f).infos a).waitCount =
      if a = f.iptr then 1 else (s.infos a).waitCount := by
  refine ⟨by simp [State.gotoSleep, hreg], fun a => ?_, fun a => ?_⟩
  · by_cases ha : a = f.iptr
    · simp [State.gotoSleep, State.key, MsemInfo.key, hreg, hw, ha]
    · simp [State.gotoSleep, State.key, ha]
  · by_cases ha : a = f.iptr
    · simp [State.gotoSleep, hreg, hw, ha]
    · simp [State.gotoSleep, ha]

/-- The process sleeps, if what it has found out is still so. -/
theorem Inv.gotoSleep (h : Inv s) (hf : s.frame p = some g) (hfg : f.view = g.view)
    (hcur : g.waiting = true ∨ (g.own = true ∧ s.msemFind g.key = none) ∨
      (g.own = false ∧ s.Linked g.iptr g.key)) : Inv (s.gotoSleep p f) := by
  simp only [Frame.view, Prod.mk.injEq] at hfg
  obtain ⟨hk, hi, hw, ho⟩ := hfg
  have hview : f.asleep.key = g.key ∧ f.asleep.iptr = g.iptr ∧ f.asleep.waiting = true ∧
      f.asleep.own = false := ⟨hk, hi, rfl, rfl⟩
  cases hgw : g.waiting with
  | true =>
    obtain ⟨h1, h2, h3⟩ := h.waiting p g hf hgw
    obtain ⟨e1, e2, e3⟩ := gotoSleep_linked (s := s) (p := p) (f := f)
      (hi ▸ State.Linked.reg_ne_none ⟨⟨_, h1⟩, h2⟩)
    refine h.congr (fun k => wanted_gotoSleep) e2 (fun a => ?_) gotoSleep_eq.2.1 e1 fun q => ?_
    · rw [e3, if_neg (by simp [hw, hgw])]
    · rw [frame_gotoSleep]
      split_ifs with hq
      · subst hq
        rw [hf]
        simp [Frame.view, hview, hgw, h3]
      · rfl
  | false =>
    obtain hcur | ⟨hgo, hfind⟩ | ⟨hgo, hl⟩ := hcur
    · rw [hgw] at hcur
      cases hcur
    · have hreg : (s.infos f.iptr).reg = none := by
        rw [hi]
        simpa [State.key, MsemInfo.key] using (h.own p g hf hgo).1
      obtain ⟨e1, e2, e3⟩ := gotoSleep_fresh (p := p) hreg (hw.trans hgw)
      rw [hk, hi] at e1
      rw [hk, hi] at e2
      rw [hi] at e3
      refine h.link hf hgo hgw hfind (fun k => wanted_gotoSleep) ?_ e2 e3 gotoSleep_eq.2.1 e1
        hview fun q => frame_gotoSleep
      rw [gotoSleep_eq.1, hk, update_self]
      exact Frame.asleep_wanted
    · obtain ⟨e1, e2, e3⟩ := gotoSleep_linked (s := s) (p := p) (f := f) (hi ▸ hl.reg_ne_none)
      refine h.join hf hgw hl (fun k => wanted_gotoSleep) e2 (fun a => ?_) gotoSleep_eq.2.1 e1
        hview fun q => frame_gotoSleep
      rw [e3, hi]
      simp [hw, hgw]

/-- One pass of the loop. -/
theorem Inv.loop (h : Inv s) (hf : s.frame p = some g) (hfg : f.view = g.view)
    (hmem : f.semCp = s.mem f.key) {v : State.Verdict}
    (hcur : g.waiting = true ∨ (g.own = true ∧ (v = .sleep → s.msemFind g.key = none)) ∨
      (g.own = false ∧ s.Linked g.iptr g.key)) : Inv (s.loop p f v) := by
  have hview := hfg
  simp only [Frame.view, Prod.mk.injEq] at hview
  obtain ⟨hk, hi, hw, -⟩ := hview
  have hu : ∀ {s' : State} {f' : Frame}, s'.frame p = s.frame p → s'.key = s.key →
      s'.hlist = s.hlist → f'.view = f.view → Usable s' p f' := fun e1 e2 e3 e4 => by
    simp only [Frame.view, Prod.mk.injEq] at e4
    refine ⟨g, e1.trans hf, e4.1.trans hk, e4.2.1.trans hi, e4.2.2.1.trans hw, ?_⟩
    simp only [State.Linked, e2, e3]
    exact hcur.imp id (Or.imp And.left And.right)
  cases v with
  | granted =>
    refine Inv.leave_cleared (Inv.setError (h.setMem fun hw0 hz => ?_)) (hu rfl rfl rfl rfl)
    rw [hmem] at hz
    exact absurd hz hw0
  | again => exact Inv.leave h.setError (hu rfl rfl rfl rfl)
  | deadlk => exact Inv.leave h.setError (hu rfl rfl rfl rfl)
  | sleep =>
    exact h.gotoSleep hf hfg (hcur.imp id (Or.imp (fun hc => ⟨hc.1, hc.2 rfl⟩) id))

theorem find_touch : (s.touch k).msemFind = s.msemFind := rfl

theorem Inv.validated (h : Inv s) (hp : s.phase p = .validate f) {n : ℕ}
    (hcur : s.Current p f fault n = true) : Inv (s.validated p f fault n) := by
  have hf : s.frame p = some f := by rw [State.frame, hp]; rfl
  have hc : f.waiting = true ∨ (f.own = true ∧ (s.goesToSleep p f fault n = true →
      s.msemFind f.key = none)) ∨ (f.own = false ∧ s.Linked f.iptr f.key) := by
    rw [← h.find_iff]
    unfold State.Current at hcur
    cases hw : f.waiting with
    | true => exact .inl rfl
    | false =>
      cases ho : f.own with
      | true =>
        refine .inr (.inl ⟨rfl, fun hg => ?_⟩)
        simpa [hw, ho, hg] using hcur
      | false => exact .inr (.inr ⟨rfl, by simpa [hw, ho] using hcur⟩)
  have hu : Usable s p f := ⟨f, hf, rfl, rfl, rfl, hc.imp id (Or.imp And.left And.right)⟩
  have hu' : Usable ((s.touch f.key).setError p .einval) p (s.readCp f) :=
    ⟨f, hf, rfl, rfl, rfl, hc.imp id (Or.imp And.left And.right)⟩
  unfold State.validated
  split_ifs with hfault hw hmagic
  · exact Inv.leave h.setError hu
  · exact Inv.leave h.setError hu
  · exact Inv.leave_cleared h.touch.setError hu'
  · split
    next v hv =>
      have hview : (s.readCp f).view = f.view := rfl
      have hread : (s.readCp f).semCp = (s.touch f.key).mem f.key := rfl
      have hc' : f.waiting = true ∨
          (f.own = true ∧ (v = .sleep → (s.touch f.key).msemFind f.key = none)) ∨
          (f.own = false ∧ (s.touch f.key).Linked f.iptr f.key) := by
        refine hc.imp id (Or.imp (fun hc => ⟨hc.1, ?_⟩) id)
        rintro rfl
        exact hc.2 (by simpa [State.goesToSleep, hfault, hv] using hmagic)
      exact h.touch.loop hf hview hread hc'
    next => exact h

theorem frame_wakeup : (s.wakeup a).frame p = s.frame p := by
  simp only [State.frame, State.wakeup]
  cases s.phase p <;> rfl

theorem Inv.wakeup (h : Inv s) : Inv (s.wakeup a) :=
  h.congr (fun _ hk => hk) (fun _ => rfl) (fun _ => rfl) rfl rfl fun _ => by rw [frame_wakeup]

theorem Inv.setLocker (h : Inv s) {i : Option ℕ} : Inv (s.setInfo a { s.infos a with locker := i }) :=
  h.same ⟨rfl, fun b => (Same.setLocker rfl b).1, fun b => (Same.setLocker rfl b).2, rfl, rfl, rfl⟩

theorem Inv.releaseAll {l : List ℕ} (h : Inv s) : Inv (State.releaseAll s l) := by
  induction l generalizing s with
  | nil => exact h
  | cons a l ih => exact ih h.setLocker.wakeup

theorem Inv.msemRelease (h : Inv s) : Inv (s.msemRelease p) := by
  have hlist : Inv { s with procList := s.procList.erase p } :=
    ⟨h.nodup, h.linked, h.unique, h.count, h.waiting, h.own⟩
  exact hlist.releaseAll.setProc

theorem Inv.woke (h : Inv s) (hp : s.phase p = .waking k) : Inv (s.woke p k fault) := by
  have hf : s.frame p = none := by rw [State.frame, hp]; rfl
  have huser : ∀ {s' : State}, Inv s' → s'.frame p = s.frame p → Inv (s'.setPhase p .user) :=
    fun h' he => h'.setPhase (fun f hf' => by rw [he, hf] at hf'; cases hf') fun f hf' => by cases hf'
  have hs' : Inv ((s.touch k).setPhase p .user) := huser h.touch rfl
  unfold State.woke
  dsimp only
  split_ifs with h1 h2 h3 h4
  · exact huser h.setError rfl
  · exact hs'.setError
  · exact hs'
  · split <;> exact hs'
  · split
    next => exact hs'
    next a _ =>
      split_ifs
      · exact (Inv.setLocker hs'.setProc).wakeup
      · exact hs'.wakeup

theorem Inv.lookup (h : Inv s) (hf : s.frame p = none) {nowait : Bool} {x : Msemaphore} :
    Inv (s.lookup p k nowait x) := by
  unfold State.lookup
  have hold : ∀ f, s.frame p = some f → f.waiting = false := fun f hf' => by
    rw [hf] at hf'
    cases hf'
  split
  next a _ =>
    refine h.setPhase hold fun f hf' => ?_
    cases hf'
    exact ⟨rfl, rfl⟩
  next =>
    refine h.setPhase hold fun f hf' => ?_
    cases hf'

/-! ### Who sleeps has begun to wait -/

/-- A process sleeps only after it has begun to wait. -/
def Sleepers (s : State) : Prop := ∀ p f w, s.phase p = .asleep f w → f.waiting = true

theorem Sleepers.of_phase (h : Sleepers s) (hp : s'.phase = s.phase) : Sleepers s' :=
  fun p f w hf => h p f w (hp ▸ hf)

theorem Sleepers.setPhase (h : Sleepers s) {x : Phase} (hx : ∀ f w, x = .asleep f w →
    f.waiting = true) : Sleepers (s.setPhase p x) := fun q f w hf => by
  by_cases hq : q = p
  · subst hq
    exact hx f w (by simpa [State.setPhase] using hf)
  · exact h q f w (by simpa [State.setPhase, hq] using hf)

theorem Sleepers.leave (h : Sleepers s) : Sleepers (s.leave p f) := by
  unfold State.leave
  split_ifs with h1 h2 h3
  · exact Sleepers.setPhase (s := s.free f.iptr) h fun _ _ he => by cases he
  · have hs : Sleepers ((s.unwait p f).unlink f) := h.of_phase unlink_eq.2.2.1
    exact hs.setPhase fun _ _ he => by cases he
  · have hs : Sleepers ((s.unwait p f).own p f) := h.of_phase same_own.phase
    exact hs.setPhase fun _ _ he => by cases he
  · have hs : Sleepers (s.own p f) := h.of_phase same_own.phase
    exact hs.setPhase fun _ _ he => by cases he

theorem Sleepers.cleared (h : Sleepers s) : Sleepers (s.cleared p fault) := by
  unfold State.cleared
  split
  next f _ =>
    have hs : Sleepers (if fault then s else s.setMem f.key f.semCp) := by
      split_ifs
      · exact h
      · exact h
    exact hs.setPhase fun _ _ he => by cases he
  next => exact h

theorem Sleepers.gotoSleep (h : Sleepers s) : Sleepers (s.gotoSleep p f) := by
  have hs : Sleepers (s.setPhase p (.asleep f.asleep false)) := by
    refine h.setPhase fun f' w he => ?_
    cases he
    rfl
  exact hs.of_phase gotoSleep_eq.2.2

theorem Sleepers.validated (h : Sleepers s) {n : ℕ} : Sleepers (s.validated p f fault n) := by
  unfold State.validated
  split_ifs
  · exact Sleepers.leave (s := s.setError p _) h
  · exact Sleepers.leave (s := s.setError p _) h
  · exact (Sleepers.leave (s := (s.touch f.key).setError p .einval) h).cleared
  · split
    next v _ =>
      cases v with
      | granted => exact (Sleepers.leave (s := ((s.touch f.key).setMem _ _).setError p .ok) h).cleared
      | again => exact Sleepers.leave (s := (s.touch f.key).setError p _) h
      | deadlk => exact Sleepers.leave (s := (s.touch f.key).setError p _) h
      | sleep => exact Sleepers.gotoSleep (s := s.touch f.key) h
    next => exact h

theorem Sleepers.wakeup (h : Sleepers s) : Sleepers (s.wakeup a) := fun p f w hf => by
  simp only [State.wakeup] at hf
  cases hp : s.phase p with
  | asleep g w' =>
    rw [hp] at hf
    cases hf
    exact h p _ _ hp
  | _ =>
    rw [hp] at hf
    cases hf

theorem Sleepers.releaseAll {l : List ℕ} (h : Sleepers s) : Sleepers (State.releaseAll s l) := by
  induction l generalizing s with
  | nil => exact h
  | cons a l ih => exact ih (Sleepers.wakeup (s := s.setInfo a _) h)

theorem Sleepers.woke (h : Sleepers s) : Sleepers (s.woke p k fault) := by
  have hs' : Sleepers ((s.touch k).setPhase p .user) :=
    Sleepers.setPhase (s := s.touch k) h fun _ _ he => by cases he
  unfold State.woke
  dsimp only
  split_ifs
  · exact Sleepers.setPhase (s := s.setError p _) h fun _ _ he => by cases he
  · exact hs'
  · exact hs'
  · split <;> exact hs'
  · split
    next => exact hs'
    next a _ =>
      split_ifs
      · exact Sleepers.wakeup (s := (State.msemLocklistRemove _ p a).setInfo a _) hs'
      · exact hs'.wakeup

theorem Sleepers.lookup (h : Sleepers s) {nowait : Bool} {x : Msemaphore} :
    Sleepers (s.lookup p k nowait x) := by
  unfold State.lookup
  split
  next => exact h.setPhase fun _ _ he => by cases he
  next => exact h.setPhase fun _ _ he => by cases he

theorem Sleepers.next (h : Sleepers s) {e : Event} : Sleepers (s.next e) := by
  cases e with
  | lockid p => exact h
  | mcas p k =>
    simp only [State.next]
    split_ifs
    · exact h
    · exact h
  | unlock p k ifWaiters =>
    simp only [State.next]
    split_ifs
    · exact h
    · exact Sleepers.setPhase (s := s.setMem k _) h fun _ _ he => by cases he
  | test p =>
    simp only [State.next]
    split
    next k _ => split_ifs <;> exact h.setPhase fun _ _ he => by cases he
    next => exact h
  | msleep p k nowait x =>
    simp only [State.next]
    split_ifs
    · exact h.setPhase fun _ _ he => by cases he
    · exact h.lookup
  | inited p x =>
    simp only [State.next]
    split
    next => exact Sleepers.lookup (s := s.msemProcInit p) h
    next => exact h
  | malloced p a x =>
    simp only [State.next]
    split
    next k nowait _ =>
      have hs : Sleepers (s.setPhase p (.validate ⟨k, nowait, a, false, x, true⟩)) :=
        h.setPhase fun _ _ he => by cases he
      exact hs
    next => exact h
  | validated p fault n =>
    simp only [State.next]
    split
    next => exact h.validated
    next => exact h
  | resume p =>
    simp only [State.next]
    split
    next => exact h.setPhase fun _ _ he => by cases he
    next => exact h
  | interrupt p =>
    simp only [State.next]
    split
    next => exact Sleepers.leave (s := s.setError p _) h
    next => exact h
  | cleared p fault => exact h.cleared
  | mwakeup p k => exact h.setPhase fun _ _ he => by cases he
  | woke p fault =>
    simp only [State.next]
    split
    next => exact h.woke
    next => exact h
  | exit p =>
    exact Sleepers.releaseAll (s := { s with procList := s.procList.erase p }) h

/-! ### The theorem -/

/-- One step. -/
theorem Inv.next (h : Inv s) (hsleep : Sleepers s) {e : Event} (he : s.enabled e = true)
    (hu : Undisturbed s e = true) : Inv (s.next e) := by
  have hidle : ∀ {p : ℕ} {x y : Phase}, s.phase p = y → y.frame = none → x.frame = none →
      Inv (s.setPhase p x) := fun hp hy hx => by
    refine h.setPhase (fun f hf => ?_) fun f hf => by rw [hx] at hf; cases hf
    rw [State.frame, hp, hy] at hf
    cases hf
  have hnone : ∀ {p : ℕ} {y : Phase}, s.phase p = y → y.frame = none → s.frame p = none :=
    fun hp hy => by rw [State.frame, hp, hy]
  cases e with
  | lockid p => exact h.msemProcInit
  | mcas p k =>
    simp only [State.next]
    split_ifs
    · exact h.setMem fun hw hz => absurd hz hw
    · exact h
  | unlock p k ifWaiters =>
    have hp : s.phase p = .user := by simpa [State.enabled] using he
    simp only [State.next]
    split_ifs
    · exact h
    · have hm : Inv (s.setMem k { s.mem k with locker := 0 }) :=
        h.setMem fun hw hz => absurd hz hw
      refine hm.setPhase (fun f hf => ?_) fun f hf => by cases hf
      rw [State.frame, show (s.setMem k _).phase p = .user from hp] at hf
      cases hf
  | test p =>
    simp only [State.next]
    split
    next k hp =>
      split_ifs
      · exact hidle hp rfl rfl
      · exact hidle hp rfl rfl
    next => exact h
  | msleep p k nowait x =>
    have hp : s.phase p = .user := by simpa [State.enabled] using he
    simp only [State.next]
    split_ifs
    · exact hidle hp rfl rfl
    · exact h.lookup (hnone hp rfl)
  | inited p x =>
    simp only [State.next]
    split
    next k nowait hp => exact h.msemProcInit.lookup (hnone hp rfl)
    next => exact h
  | malloced p a x =>
    simp only [State.next]
    split
    next k nowait hp =>
      simp only [State.enabled, hp, Bool.not_eq_true'] at he
      exact h.malloced (hnone hp rfl) he
    next => exact h
  | validated p fault n =>
    simp only [State.next]
    split
    next f hp =>
      simp only [Undisturbed, hp] at hu
      exact h.validated hp hu
    next => exact h
  | resume p =>
    simp only [State.next]
    split
    next f w hp =>
      refine h.congr (fun _ hk => hk) (fun _ => rfl) (fun _ => rfl) rfl rfl fun q => ?_
      rw [frame_setPhase]
      split_ifs with hq
      · subst hq
        rw [State.frame, hp]
        rfl
      · rfl
    next => exact h
  | interrupt p =>
    simp only [State.next]
    split
    next f w hp =>
      have hf : s.frame p = some f := by rw [State.frame, hp]; rfl
      exact Inv.leave h.setError ⟨f, hf, rfl, rfl, rfl, .inl (hsleep p f w hp)⟩
    next => exact h
  | cleared p fault =>
    refine h.cleared fun f hp hfault => ?_
    simp only [Undisturbed, hp, hfault] at hu
    simpa using (Bool.and_eq_true_iff.1 hu).1
  | mwakeup p k =>
    have hp : s.phase p = .user := by simpa [State.enabled] using he
    exact hidle hp rfl rfl
  | woke p fault =>
    simp only [State.next]
    split
    next k hp => exact h.woke hp
    next => exact h
  | exit p => exact h.msemRelease

theorem inv_reach (h : (system.restrict fun s e => Undisturbed s e = true).Reach s) :
    Inv s ∧ Sleepers s := by
  refine Lts.Reach.inv (I := fun s => Inv s ∧ Sleepers s) h ?_ ?_
  · rintro _ ⟨mem, rfl⟩
    exact ⟨inv_boot mem, fun p f w hf => by cases hf⟩
  · rintro s e _ - ⟨hinv, hsl⟩ ⟨hu, he, rfl⟩
    exact ⟨hinv.next hsl he hu, hsl.next⟩

/-- An unlocked semaphore at offset 0 of a region. -/
def sema : Key := ⟨1, 0⟩

def unlocked : Msemaphore := ⟨msemMagic, 0, 0⟩

end Msem

end Hpux
