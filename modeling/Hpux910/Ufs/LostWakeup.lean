import Hpux910.Ufs.LockRefs

/-!
# Lost wakeups

A process that sleeps in `locked` should sleep only as long as the entry it waits for still blocks
it.  `delete_lock` and `unlock` see to this: they wake the sleepers of every entry they touch.
`insert_lock` does not when it retypes, grows or cuts an entry of its owner, and `locked` itself
goes to sleep after a hunt without looking whether the entry still blocks it.

* `Sys.NoLostWakeup` : every sleeper sleeps on a listed entry that blocks it.
* `lost_wakeup_after_downgrade` : a run of two processes that breaks it.
* `Sys.Harmless` : the steps that do not leave a sleeper behind.
* `no_lost_wakeup_of_harmless` : in runs of such steps no wakeup is lost.
-/

namespace Hpux

namespace Lockf

open Function

/-- Every process that sleeps in `locked` sleeps on an entry of the inode's list that blocks its
request, and its wakeup is pending. -/
def Sys.NoLostWakeup (s : Sys) : Prop :=
  ∀ q a w, s.proc q = .asleep a w →
    ∃ e ∈ s.lists w.r.ip, e.addr = a ∧ e.iwant = true ∧ w.blockedBy e

/-! ### A lost wakeup -/

/-- Perform a row of actions. -/
def Sys.exec (s : Sys) : List Act → Option Sys
  | [] => some s
  | a :: as => (s.step a).bind fun s' => s'.exec as

theorem Sys.exec_reach {n : ℕ} {s s' : Sys} (hs : (lockSys n).Reach s) {as : List Act}
    (has : ∀ a ∈ as, a.actor < n) (h : s.exec as = some s') : (lockSys n).Reach s' := by
  induction as generalizing s with
  | nil =>
    obtain rfl := Option.some.inj h
    exact hs
  | cons a as ih =>
    obtain ⟨t, ht, h⟩ := Option.bind_eq_some_iff.1 h
    exact ih (.step hs ⟨has a (by simp), ht⟩) (fun b hb => has b (by simp [hb])) h

/-- No locks, a table of three entries. -/
def quiet : Sys := ⟨fun _ => [], ⟨[1, 2, 3], [], none, none, []⟩, fun _ => .idle⟩

/-- Process `p` asks with `F_SETLKW` for the first ten bytes of file 0. -/
def setlkw (p : ℕ) (t : LType) : Act :=
  .call p ⟨⟨⟨p, none⟩, 0, false, 0, 10, .fcntl, t⟩, ⟨.setlkw, false, false⟩⟩

/-- Process 0 holds a write lock, process 1 waits for a read lock, and process 0 turns its lock
into a read lock: process 1 sleeps on an entry that does not block it any more. -/
theorem lost_wakeup_after_downgrade :
    ∃ s, (lockSys 2).Reach s ∧ ¬ s.NoLostWakeup ∧
      ∃ a w e, s.proc 1 = .asleep a w ∧ s.lists w.r.ip = [e] ∧ e.addr = a ∧ e.iwant = true ∧
        ¬ w.blockedBy e := by
  let as : List Act := [setlkw 0 .wrlck, setlkw 1 .rdlck, .hunted 1 false, setlkw 0 .rdlck]
  let w : Want := ⟨⟨⟨1, none⟩, 0, false, 0, 10, .fcntl, .rdlck⟩, ⟨.setlkw, false, false⟩⟩
  let e : Lock := ⟨1, 2, true, false, true, .proc 0, 0, 10, .rdlck, some 0⟩
  have hsome : (quiet.exec as).isSome := rfl
  have hasleep : ((quiet.exec as).get hsome).proc 1 = .asleep 1 w := rfl
  have hlist : ((quiet.exec as).get hsome).lists 0 = [e] := rfl
  have hfree : ¬ w.blockedBy e := by decide
  have hinit : (lockSys 2).Reach quiet :=
    .init ⟨fun _ => rfl, by decide, rfl, rfl, fun _ => rfl⟩
  refine ⟨(quiet.exec as).get hsome, Sys.exec_reach hinit (by decide) (Option.some_get _).symm, ?_,
    1, w, e, hasleep, hlist, rfl, rfl, hfree⟩
  intro h
  obtain ⟨f, hf, -, -, hb⟩ := h 1 1 w hasleep
  have hf : f ∈ [e] := hlist ▸ hf
  rw [List.mem_singleton] at hf
  exact hfree (hf ▸ hb)

/-! ### When no wakeup is lost -/

/-- Inserting for `w` leaves every sleeper on an own entry blocked: either the table has not enough
free entries, so that nothing changes, or the entry is freed and its sleepers are woken, or what is
left of the entry still blocks them. -/
def Sys.InsertHarmless (s : Sys) (w : Want) : Prop :=
  lockedScan w.r w.m (s.lists w.r.ip) = .clear → w.inserts = true →
    s.pool.free.length < entriesNeeded w.r
      ((s.lists w.r.ip).filter fun e => e.owner = w.r.u.owner) ∨
    ∀ M₁ e M₂, ((s.lists w.r.ip).filter fun e => e.owner = w.r.u.owner) = M₁ ++ e :: M₂ →
      ∀ q v, s.proc q = .asleep e.addr v → v.r.ip = w.r.ip →
        (allBefore w.r M₁ = false ∧ e.llEnd ≤ w.r.ub) ∨
        v.blockedBy (leftOf w.r (allBefore w.r M₁) e)

/-- The steps that do not leave a sleeper behind.  A process that scans the list again has first
dropped its reference. -/
def Sys.Harmless (s : Sys) : Act → Prop
  | .call _ w => s.InsertHarmless w
  | .hunted p found =>
    match s.proc p with
    | .hunt a w => found = true ∨
        (∃ e ∈ s.lists w.r.ip, e.addr = a ∧ (w.m.flag = .setlkNfscallback ∨ w.blockedBy e)) ∨
        ((∀ e ∈ s.lists w.r.ip, e.addr ≠ a) ∧ (s.lockdec w.r.ip a).InsertHarmless w)
    | _ => True
  | .resume p =>
    match s.proc p with
    | .ready a w intr => intr = true ∨ (s.lockdec w.r.ip a).InsertHarmless w
    | _ => True
  | .signal _ | .delete _ _ | .unlock _ _ _ => True

section

variable {n : ℕ} {s t : Sys}

theorem SameLock.blockedBy {e f : Lock} (h : SameLock e f) {w : Want} (hb : w.blockedBy e) :
    w.blockedBy f := by
  obtain ⟨-, ho, hs, he, ht⟩ := h
  have hmy : isMyLock w.r.u f = isMyLock w.r.u e := by
    unfold isMyLock
    rw [ho]
  unfold Want.blockedBy at hb ⊢
  simp only [lockedScan, hmy, hs, he, ht] at hb ⊢
  split_ifs at hb ⊢ <;> simp_all

theorem Sys.NoLostWakeup.of_same (h : s.NoLostWakeup)
    (hl : ∀ i, ∀ e ∈ s.lists i, ∃ f ∈ t.lists i, SameLock e f ∧ (e.iwant = true → f.iwant = true))
    (hp : ∀ q a w, t.proc q = .asleep a w → s.proc q = .asleep a w) : t.NoLostWakeup := by
  intro q a w hq
  obtain ⟨e, he, rfl, hw, hb⟩ := h q a w (hp q a w hq)
  obtain ⟨f, hf, hsame, hiw⟩ := hl _ e he
  exact ⟨f, hf, hsame.addr, hiw hw, hsame.blockedBy hb⟩

/-- A list routine loses no wakeup if every entry it leaves is unwanted, an old one, or blocks the
processes that sleep on it. -/
theorem Sys.NoLostWakeup.commit (h : s.NoLostWakeup) (hs : s.Refs n) {ip : ℕ}
    {res : List Lock × Pool} (hs' : (s.commit ip res).Refs n)
    (hres : ∀ f ∈ res.1, f.iwant = false ∨ f ∈ s.lists ip ∨
      ∀ q w, s.proc q = .asleep f.addr w → w.r.ip = ip → w.blockedBy f) :
    (s.commit ip res).NoLostWakeup := by
  intro q a w hq
  have hold : s.proc q = .asleep a w := (wake_eq_asleep hq).1
  obtain ⟨f, hf, rfl, hw⟩ := hs'.asleep q a w hq
  refine ⟨f, hf, rfl, hw, ?_⟩
  obtain ⟨e, he, hea, hew, heb⟩ := h q _ w hold
  have hsame : ∀ {l : List Lock}, l = s.lists w.r.ip → f ∈ l → w.blockedBy f := by
    rintro l rfl hfl
    have hnd := (List.nodup_append.1 (hs.entries w.r.ip).nodup).1
    rwa [eq_of_addr hnd hfl he hea.symm]
  by_cases hi : w.r.ip = ip
  · subst hi
    simp only [Sys.commit, update_self] at hf
    rcases hres f hf with h | h | h
    · rw [h] at hw
      cases hw
    · exact hsame rfl h
    · exact h q w hold rfl
  · simp only [Sys.commit, update_of_ne hi] at hf
    exact hsame rfl hf

theorem Sys.NoLostWakeup.setProc (h : s.NoLostWakeup) {p : ℕ} {st : ProcState}
    (hst : ∀ a w, st ≠ .asleep a w) : (s.setProc p st).NoLostWakeup := by
  refine h.of_same (fun i e he => ⟨e, he, ⟨rfl, rfl, rfl, rfl, rfl⟩, id⟩) fun q a w hq => ?_
  rcases setProc_cases hq with ⟨-, hq⟩ | ⟨-, hq⟩
  · exact absurd hq (hst a w)
  · exact hq

theorem Sys.NoLostWakeup.map (h : s.NoLostWakeup) (ip : ℕ) {f : Lock → Lock}
    (hf : ∀ e, SameLock e (f e)) (hiw : ∀ e, e.iwant = true → (f e).iwant = true) {t : Sys}
    (ht : t.lists = Function.update s.lists ip ((s.lists ip).map f)) (hp : t.proc = s.proc) :
    t.NoLostWakeup := by
  refine h.of_same (fun i e he => ?_) fun q a w hq => by rwa [hp] at hq
  rw [ht]
  by_cases hi : i = ip
  · subst hi
    rw [update_self]
    exact ⟨f e, List.mem_map_of_mem he, hf e, hiw e⟩
  · rw [update_of_ne hi]
    exact ⟨e, he, ⟨rfl, rfl, rfl, rfl, rfl⟩, id⟩

theorem Sys.NoLostWakeup.lockinc (h : s.NoLostWakeup) (ip a : ℕ) : (s.lockinc ip a).NoLostWakeup := by
  refine h.map ip (f := fun e => if e.addr = a then { e with llCount := e.llCount + 1 } else e)
    (fun e => ?_) (fun e he => ?_) rfl rfl
  · split_ifs <;> exact ⟨rfl, rfl, rfl, rfl, rfl⟩
  · split_ifs <;> exact he

theorem Sys.NoLostWakeup.lockdec (h : s.NoLostWakeup) (ip a : ℕ) : (s.lockdec ip a).NoLostWakeup := by
  unfold Sys.lockdec
  split
  · refine h.map ip
      (f := fun e => if e.addr = a then { e with llCount := e.llCount - 1 } else e)
      (fun e => ?_) (fun e he => ?_) rfl rfl
    · split_ifs <;> exact ⟨rfl, rfl, rfl, rfl, rfl⟩
    · split_ifs <;> exact he
  · split
    · exact h
    · exact h

theorem Sys.NoLostWakeup.want (h : s.NoLostWakeup) (ip a : ℕ) (w : Want) :
    (s.want ip a w).NoLostWakeup := by
  refine h.map _ (want_same w a) (fun e he => ?_) rfl rfl
  split_ifs <;> first | rfl | exact he

theorem leftOf_addr (r : Req) (b : Bool) (e : Lock) : (leftOf r b e).addr = e.addr := by
  unfold leftOf
  split_ifs <;> rfl

/-- A harmless call of `locked` by an idle process. -/
theorem Sys.NoLostWakeup.scan (h : s.NoLostWakeup) (hs : s.Refs n) {p : ℕ} (hp : p < n)
    (hidle : s.proc p = .idle) {w : Want} (hu : w.r.u.uProcp = p) (hr : w.r.lb < w.r.ub)
    (hh : s.InsertHarmless w) (hstep : s.scan p w = some t) : t.NoLostWakeup := by
  have ht : t.Refs n := hs.scan hp hidle hu hr hstep
  rcases scan_cases hs hidle hr hstep with rfl |
    ⟨hscan, hins, A, M, M', B, p', hl, hAB, hM, hed, hok, rfl⟩ | ⟨e, he, -, rfl⟩
  · exact h
  · refine h.commit hs ht fun f hf => ?_
    have hown : (s.lists w.r.ip).filter (fun e => e.owner = w.r.u.owner) = M := by
      rw [hl, filter_group hAB hM]
    rw [hl]
    simp only [List.mem_append] at hf ⊢
    rcases hf with (hf | hf) | hf
    · exact .inr (.inl (.inl (.inl hf)))
    · rcases hh hscan hins with hstarved | hleft
      · -- no free entry: nothing has changed
        rw [hown] at hstarved
        rw [hed.starved hstarved] at hf
        exact .inr (.inl (.inl (.inr hf)))
      · rcases hed.src f hf with hf' | hf' | ⟨M₁, e, M₂, hcut, hfe⟩
        · exact .inl hf'
        · exact .inr (.inl (.inl (.inr hf')))
        · refine .inr (.inr fun q v hq hv => ?_)
          rw [hfe, leftOf_addr] at hq
          rcases hleft M₁ e M₂ (hown.trans hcut) q v hq hv with ⟨hnot, hend⟩ | hb
          · -- a freed entry leaves no range
            have hne : f.llStart < f.llEnd := hed.ok.1 f hf
            have hold : e.llStart < e.llEnd := by
              have := (hs.listOk w.r.ip).group w.r.u.owner
              rw [hown, hcut] at this
              exact this.1 e (by simp)
            rw [hfe, hnot, leftOf, if_neg (by simp)] at hne
            split_ifs at hne
            · simp only at hne
              omega
            · omega
          · rwa [hfe]
    · exact .inr (.inl (.inr hf))
  · exact (h.lockinc _ _).setProc fun a w => by simp

theorem Sys.InsertHarmless.setProc {w : Want} (h : s.InsertHarmless w) (p : ℕ) :
    (s.setProc p .idle).InsertHarmless w := by
  intro hclear hins
  refine (h hclear hins).imp id fun hleft M₁ e M₂ hcut q v hq => ?_
  rcases setProc_cases hq with ⟨-, hq⟩ | ⟨-, hq⟩
  · cases hq
  · exact hleft M₁ e M₂ hcut q v hq

theorem Sys.NoLostWakeup.rescan (h : s.NoLostWakeup) (hs : s.Refs n) {p a : ℕ} {w : Want}
    (hat : (s.proc p).at = some (a, w)) (hh : (s.lockdec w.r.ip a).InsertHarmless w)
    (hstep : (s.lockdec w.r.ip a).scan p w = some t) : t.NoLostWakeup := by
  obtain ⟨hp, hu, hr⟩ := hs.proc p a w hat
  rw [← scan_setProc _ p .idle] at hstep
  exact ((h.lockdec w.r.ip a).setProc fun a w => by simp).scan (hs.drop hat) hp (setProc_self ..)
    hu hr (hh.setProc p) hstep

/-- A harmless step loses no wakeup. -/
theorem Sys.NoLostWakeup.step (h : s.NoLostWakeup) (hs : s.Refs n) {a : Act} (ha : a.actor < n)
    (hh : s.Harmless a) (hstep : s.step a = some t) : t.NoLostWakeup := by
  have ht : t.Refs n := hs.step ha hstep
  cases a with
  | call p w =>
    simp only [Sys.step] at hstep
    split_ifs at hstep with hg
    exact h.scan hs ha hg.1 hg.2.1 hg.2.2 hh hstep
  | hunted p found =>
    cases hp : s.proc p with
    | hunt a w =>
      simp only [Sys.step, hp] at hstep
      simp only [Sys.Harmless, hp] at hh
      have hat : (s.proc p).at = some (a, w) := by rw [hp]; rfl
      split_ifs at hstep with hf hl hn
      · exact Option.some.inj hstep ▸ (h.lockdec _ _).setProc fun a w => by simp
      · exact Option.some.inj hstep ▸ ((h.lockdec _ _).want _ _ _).setProc fun a w => by simp
      · -- going to sleep: the entry is still listed, so it must still block
        obtain ⟨e, he, hea, heb⟩ : ∃ e ∈ s.lists w.r.ip, e.addr = a ∧ w.blockedBy e := by
          rcases hh with hh | ⟨e, he, hea, hh⟩ | hh
          · exact absurd hh hf
          · exact ⟨e, he, hea, hh.resolve_left hn⟩
          · obtain ⟨e, he, hea⟩ := hl
            exact absurd hea (hh.1 e he)
        obtain rfl := Option.some.inj hstep
        intro q b v hq
        rcases setProc_cases hq with ⟨rfl, hst⟩ | ⟨-, hst⟩
        · obtain ⟨rfl, rfl⟩ := ProcState.asleep.inj hst
          simp only [Sys.setProc, Sys.want, update_self]
          refine ⟨_, List.mem_map_of_mem he, ?_, ?_, (want_same w a e).blockedBy heb⟩
          · rw [if_pos hea, if_neg hn]
            exact hea
          · rw [if_pos hea, if_neg hn]
        · exact h.want w.r.ip a w q b v hst
      · refine h.rescan hs hat ?_ hstep
        rcases hh with hh | ⟨e, he, hea, -⟩ | hh
        · exact absurd hh hf
        · exact absurd ⟨e, he, hea⟩ hl
        · exact hh.2
    | idle => simp [Sys.step, hp] at hstep
    | asleep => simp [Sys.step, hp] at hstep
    | ready => simp [Sys.step, hp] at hstep
  | resume p =>
    cases hp : s.proc p with
    | ready a w intr =>
      simp only [Sys.step, hp] at hstep
      simp only [Sys.Harmless, hp] at hh
      have hat : (s.proc p).at = some (a, w) := by rw [hp]; rfl
      split_ifs at hstep with hi
      · exact Option.some.inj hstep ▸ (h.lockdec _ _).setProc fun a w => by simp
      · exact h.rescan hs hat (hh.resolve_left hi) hstep
    | idle => simp [Sys.step, hp] at hstep
    | asleep => simp [Sys.step, hp] at hstep
    | hunt => simp [Sys.step, hp] at hstep
  | signal p =>
    cases hp : s.proc p with
    | asleep a w =>
      simp only [Sys.step, hp, Option.some.injEq] at hstep
      exact hstep ▸ h.setProc fun a w => by simp
    | idle => simp [Sys.step, hp] at hstep
    | ready => simp [Sys.step, hp] at hstep
    | hunt => simp [Sys.step, hp] at hstep
  | delete p r =>
    obtain ⟨-, A, M, M', B, p', hl, hdel, -, -, rfl⟩ := delete_cases hs hstep
    refine h.commit hs ht fun f hf => ?_
    rw [hl]
    simp only [List.mem_append] at hf ⊢
    rcases hf with (hf | hf) | hf
    · exact .inr (.inl (.inl (.inl hf)))
    · exact (hdel.src f hf).imp id fun hf => .inl (.inl (.inr hf))
    · exact .inr (.inl (.inr hf))
  | unlock p u ip =>
    obtain ⟨-, res, hres, -, -, rfl⟩ := unlock_cases hs hstep
    refine h.commit hs ht fun f hf => ?_
    rw [hres] at hf
    exact .inr (.inl (List.mem_filter.1 hf).1)

/-- In a run whose steps are all harmless no wakeup is lost: whoever sleeps in `locked` sleeps on a
listed entry that blocks it and that has its wakeup pending. -/
theorem no_lost_wakeup_of_harmless (h : ((lockSys n).restrict Sys.Harmless).Reach s) :
    s.NoLostWakeup := by
  have hs : (lockSys n).Reach s ∧ s.NoLostWakeup := by
    refine h.inv (I := fun s => (lockSys n).Reach s ∧ s.NoLostWakeup)
      (fun s hs => ⟨.init hs, fun q a w hq => ?_⟩) fun s a s' hr hs hstep => ?_
    · rw [hs.2.2.2.2 q] at hq
      cases hq
    · exact ⟨.step hs.1 hstep.2, hs.2.step (lockSys_refs hs.1) hstep.2.1 hstep.1 hstep.2.2⟩
  exact hs.2

end

/-- Process 1 waits for the write lock of process 0. -/
theorem no_lost_wakeup_of_harmless_waiting :
    ∃ s w, ((lockSys 2).restrict Sys.Harmless).Reach s ∧ s.proc 1 = .asleep 1 w ∧
      s.NoLostWakeup := by
  let w : Want := ⟨⟨⟨1, none⟩, 0, false, 0, 10, .fcntl, .rdlck⟩, ⟨.setlkw, false, false⟩⟩
  let e : Lock := ⟨1, 2, false, false, true, .proc 0, 0, 10, .wrlck, some 0⟩
  let s₁ : Sys := (quiet.step (setlkw 0 .wrlck)).get rfl
  let s₂ : Sys := (s₁.step (setlkw 1 .rdlck)).get rfl
  let s₃ : Sys := (s₂.step (.hunted 1 false)).get rfl
  have h₀ : ((lockSys 2).restrict Sys.Harmless).Reach quiet :=
    .init ⟨fun _ => rfl, by decide, rfl, rfl, fun _ => rfl⟩
  have h₁ : ((lockSys 2).restrict Sys.Harmless).Reach s₁ := by
    refine .step h₀ (l := setlkw 0 .wrlck) ⟨fun _ _ => .inr fun M₁ e M₂ hcut => ?_, by decide,
      (Option.some_get _).symm⟩
    simp [quiet] at hcut
  have h₂ : ((lockSys 2).restrict Sys.Harmless).Reach s₂ := by
    refine .step h₁ (l := setlkw 1 .rdlck) ⟨fun hclear => ?_, by decide,
      (Option.some_get _).symm⟩
    have hblock : lockedScan w.r w.m (s₁.lists 0) = .block { e with llCount := 1 } := rfl
    rw [hblock] at hclear
    cases hclear
  have h₃ : ((lockSys 2).restrict Sys.Harmless).Reach s₃ := by
    refine .step h₂ (l := .hunted 1 false) ⟨?_, by decide, (Option.some_get _).symm⟩
    have hlist : s₂.lists 0 = [e] := rfl
    exact .inr (.inl ⟨e, by rw [hlist]; exact List.mem_singleton_self e, rfl, .inr (by decide)⟩)
  exact ⟨s₃, w, h₃, rfl, no_lost_wakeup_of_harmless h₃⟩

end Lockf

end Hpux
