import Hpux910.Ufs.QuotaCacheInv

/-!
# Runs of the quota cache

What each step does to the dquot it is about, and from it what holds along runs.

* `Good` : what a step may lead to.
* `Inv.take`, `Inv.stay`, `Inv.leave` : a dquot is locked, used, unlocked.
* `Inv.assign`, `Inv.inval` : a dquot is reused, invalidated.
* `Inv.search`, `Inv.written`, ... : the steps.
* `quota_kept` : runs all of whose steps meet the condition; `dquots_twice` : one that does not.
-/

namespace Hpux.Quota

open Function Cache List

variable {P Q U M B : Type} [DecidableEq P] [DecidableEq Q] [Zero B] [Fintype P]
variable {s s' : Cache P Q U M B} {d : Q} {c : P}

/-- A step is back with the invariant kept and what it reuses saved, or a panic has stopped it that callers
see to themselves. -/
def Good (s : Cache P Q U M B) (x : Except Panic (Cache P Q U M B)) : Prop :=
  (∃ s', x = .ok s' ∧ Inv s' ∧ Saved s s') ∨ x = .error .dqinval ∨ x = .error .getdiskquota

theorem Saved.of_key (h : ∀ d, (s'.dq d).uid = (s.dq d).uid ∧ (s'.dq d).mp = (s.dq d).mp) : Saved s s' :=
  fun d _ hm _ h1 => absurd h1 (by rw [(h d).1, (h d).2, hm]; simp)

theorem Saved.of_update {x : Dquot U M B} (hdq : s'.dq = update s.dq d x) (huid : x.uid = (s.dq d).uid)
    (hmp : x.mp = (s.dq d).mp) : Saved s s' := by
  refine .of_key fun a => ?_
  rw [hdq]
  by_cases ha : a = d
  · subst ha
    rw [update_self]
    exact ⟨huid, hmp⟩
  · rw [update_of_ne ha]
    exact ⟨rfl, rfl⟩

theorem Saved.of_frame (hf : Frame s s' d) (hd : ∀ m, (s.dq d).mp = some m → (∀ c, s.pc c ≠ .reading d) →
    (s'.quotas m (s.dq d).uid).getD 0 = (s.dq d).dqb) : Saved s s' := by
  intro a m hm hr h1
  by_cases ha : a = d
  · subst ha
    exact hd m hm hr
  · rw [hf.dq a ha, hm] at h1
    simp at h1

theorem Inv.listed_iff (h : Inv s) (hin : d ∈ s.hash) : d ∈ s.free ++ s.resv ↔ (s.dq d).cnt = 0 := by
  rw [(h.dq d).listed]
  exact ⟨And.right, fun h1 => ⟨(h.dq d).made hin, h1⟩⟩

/-! ### Locked, used, unlocked -/

/-- A caller locks a dquot that is not locked. -/
theorem Inv.take (h : Inv s) (hin : d ∈ s.hash) (hl : (s.dq d).locked = false) {y : Pc Q U M} {k : ℤ}
    (hdq : s'.dq = update s.dq d { s.dq d with locked := true, cnt := k }) (hmade : s'.made = s.made)
    (hhash : s'.hash = s.hash) (hmnt : s'.mnt = s.mnt) (hq : s'.quotas = s.quotas)
    (hpc : s'.pc = update s.pc c y) (hab : ∀ a, (s.pc c).about = some a → a = d) (huse : y.uses = some d)
    (hr : y ≠ .reading d) (hk : k = (s.dq d).cnt +
      ((decide (y.holds = some d)).toNat - (decide ((s.pc c).holds = some d)).toNat : ℤ))
    (hF : ∀ a, a ≠ d → (a ∈ s'.free ++ s'.resv ↔ a ∈ s.free ++ s.resv))
    (hFn : (s'.free ++ s'.resv).Nodup) (hFd : d ∈ s'.free ++ s'.resv ↔ k = 0)
    (hwrite : ∀ u b, y = .writing d u b → (s.dq d).mod = true ∧ ∀ uid mp, u = .reuse uid mp →
      k = 0 ∧ b = false) : Inv s' := by
  have hd := h.dq d
  refine h.same hin hdq hmade hhash hmnt (fun c' _ => hd.unused hl c') (by rw [hpc, update_self])
    (fun c' hc => .inl (by rw [hpc, update_of_ne hc])) hab (fun a ha => ?_) rfl rfl
    (fun _ _ _ _ _ => by rw [hq]) hk (by simp [huse]) (fun w hw => ?_) hr (.inl ⟨rfl, rfl⟩) hF hFn hFd
    (fun u b hy => ?_) fun hm m hmp => ?_
  · exact Option.some.inj (ha.symm.trans (Pc.about_of_uses huse))
  · rw [hw] at huse
    cases huse
  · obtain ⟨h1, h2⟩ := hwrite u b hy
    refine ⟨h1, fun uid mp hu => ⟨(h2 uid mp hu).1, hd.unwanted hl, fun hb => ?_⟩⟩
    exact Bool.noConfusion ((h2 uid mp hu).2.symm.trans hb)
  · rw [hq]
    refine hd.clean hm (fun c' hc => ?_) m hmp
    exact hd.unused hl c' (by rw [hc]; rfl)

/-- A caller that has a dquot locked goes on with it. -/
theorem Inv.stay (h : Inv s) (hc : (s.pc c).uses = some d) {x : Dquot U M B} {y : Pc Q U M}
    (hdq : s'.dq = update s.dq d x) (hmade : s'.made = s.made) (hhash : s'.hash = s.hash)
    (hmnt : s'.mnt = s.mnt) (hfree : s'.free = s.free) (hresv : s'.resv = s.resv)
    (hpc : s'.pc = update s.pc c y) (huse : y.uses = some d) (hr : y ≠ .reading d)
    (hx : x = { s.dq d with mod := x.mod, dqb := x.dqb })
    (hholds : y.holds = some d ↔ (s.pc c).holds = some d)
    (hq : ∀ d', d' ≠ d → d' ∈ s.hash → ∀ m, (s.dq d').mp = some m →
      s'.quotas m (s.dq d').uid = s.quotas m (s.dq d').uid)
    (hwrite : ∀ u b, y = .writing d u b → x.mod = true ∧ ∀ uid mp, u = .reuse uid mp →
      (s.dq d).cnt = 0 ∧ (s.dq d).want = false ∧
        (b = true → ∀ m, (s.dq d).mp = some m → s'.quotas m (s.dq d).uid = some x.dqb))
    (hclean : x.mod = false → ∀ m, (s.dq d).mp = some m → (s'.quotas m (s.dq d).uid).getD 0 = x.dqb) :
    Inv s' := by
  have hd := h.dq d
  have hin := hd.about c (Pc.about_of_uses hc)
  have hl := hd.inuse c hc
  refine h.same hin hdq hmade hhash hmnt (fun c' hne h1 => hne (hd.one c' c h1 hc))
    (by rw [hpc, update_self]) (fun c' hc => .inl (by rw [hpc, update_of_ne hc])) (fun a ha => ?_)
    (fun a ha => ?_) (by rw [hx]) (by rw [hx]) hq ?_ ?_ (fun w hw => ?_) hr (.inl ?_)
    (fun _ _ => by rw [hfree, hresv]) (by rw [hfree, hresv]; exact h.listed) ?_ ?_ hclean
  · exact Option.some.inj (ha.symm.trans (Pc.about_of_uses hc))
  · exact Option.some.inj (ha.symm.trans (Pc.about_of_uses huse))
  · rw [hx, decide_eq_decide.2 hholds]
    dsimp only
    omega
  · rw [hx]
    exact iff_of_true hl huse
  · rw [hw] at huse
    cases huse
  · rw [hx]
    exact ⟨hl, rfl⟩
  · rw [hfree, hresv, hx]
    exact h.listed_iff hin
  · intro u b hy
    obtain ⟨h1, h2⟩ := hwrite u b hy
    refine ⟨h1, fun uid mp hu => ?_⟩
    rw [hx]
    exact h2 uid mp hu

/-- A caller unlocks a dquot; it may keep it counted. -/
theorem Inv.leave (h : Inv s) (hc : (s.pc c).uses = some d) {y : Pc Q U M} {k : ℤ} {m : Bool}
    (hdq : s'.dq = update s.dq d { s.dq d with locked := false, want := false, mod := m, cnt := k })
    (hmade : s'.made = s.made) (hhash : s'.hash = s.hash) (hmnt : s'.mnt = s.mnt)
    (hq : s'.quotas = s.quotas) (hy : s'.pc c = y) (hpc : ∀ c', c' ≠ c → s'.pc c' = s.pc c' ∨
      ∃ w, s.pc c' = .asleep d w ∧ s'.pc c' = .woken d w) (hsleep : ∀ c' w, s'.pc c' ≠ .asleep d w)
    (hyd : y = .idle ∨ y = .kept d) (hk : k = (s.dq d).cnt +
      ((decide (y.holds = some d)).toNat - (decide ((s.pc c).holds = some d)).toNat : ℤ))
    (hF : ∀ a, a ≠ d → (a ∈ s'.free ++ s'.resv ↔ a ∈ s.free ++ s.resv))
    (hFn : (s'.free ++ s'.resv).Nodup) (hFd : d ∈ s'.free ++ s'.resv ↔ k = 0)
    (hclean : m = false → ∀ m, (s.dq d).mp = some m → (s.quotas m (s.dq d).uid).getD 0 = (s.dq d).dqb) :
    Inv s' := by
  have hd := h.dq d
  have hin := hd.about c (Pc.about_of_uses hc)
  refine h.same hin hdq hmade hhash hmnt (fun c' hne h1 => hne (hd.one c' c h1 hc)) hy hpc (fun a ha => ?_)
    (fun a ha => ?_) rfl rfl (fun _ _ _ _ _ => by rw [hq]) hk ?_ ?_ ?_ (.inr ⟨rfl, hsleep⟩) hF hFn hFd ?_
    (by rw [hq]; exact hclean)
  · exact Option.some.inj (ha.symm.trans (Pc.about_of_uses hc))
  · rcases hyd with rfl | rfl
    · cases ha
    · exact (Option.some.inj ha).symm
  · rcases hyd with rfl | rfl <;> exact iff_of_false Bool.noConfusion (by rintro ⟨⟩)
  · rcases hyd with rfl | rfl <;> rintro w ⟨⟩
  · rcases hyd with rfl | rfl <;> rintro ⟨⟩
  · rcases hyd with rfl | rfl <;> rintro u b ⟨⟩

variable {u : Use U M}

theorem dqupdate_ok {mp : M} (hmp : (s.dq d).mp = some mp)
    (hf : (s.mnt mp).qinod = true) (hl : (s.dq d).locked = true) (hm : (s.dq d).mod = true) :
    s.dqupdate c d u = .ok (s.setPc c (.writing d u false)) := by
  unfold Cache.dqupdate
  rw [hmp]
  dsimp only
  rw [if_neg (by simp [hf, hl, hm])]

theorem DqInv.mp_some (h : DqInv s d) (hin : d ∈ s.hash) :
    ∃ mp, (s.dq d).mp = some mp ∧ (s.mnt mp).qinod = true := by
  obtain ⟨mp, hmp⟩ := Option.ne_none_iff_exists'.1 (h.hashed.1 hin)
  exact ⟨mp, hmp, h.file mp hmp⟩

/-- A dquot that has been modified is locked to be written. -/
theorem Inv.write (h : Inv s) (hin : d ∈ s.hash) (hl : (s.dq d).locked = false)
    (hm : (s.dq d).mod = true) (hab : (s.pc c).about = none) (hu : u ≠ .own)
    (hre : ∀ uid mp, u = .reuse uid mp → (s.dq d).cnt = 0) :
    Good s ((s.setDq d { s.dq d with locked := true }).dqupdate c d u) := by
  obtain ⟨mp, hmp, hf⟩ := (h.dq d).mp_some hin
  have hdq : (s.setDq d { s.dq d with locked := true }).dq d = { s.dq d with locked := true } :=
    update_self ..
  have hnot : (s.pc c).holds ≠ some d := fun h1 => by
    rw [Pc.about_of_holds h1] at hab
    cases hab
  have hnot' : (Pc.writing d u false).holds ≠ some d := by
    cases u with
    | own => exact absurd rfl hu
    | _ => exact fun h1 => nomatch h1
  refine .inl ⟨_, dqupdate_ok (by rw [hdq]; exact hmp) hf (by rw [hdq]) (by rw [hdq]; exact hm), ?_,
    .of_update rfl rfl rfl⟩
  refine h.take (y := .writing d u false) (k := (s.dq d).cnt) hin hl rfl rfl rfl rfl rfl rfl (fun a ha => ?_)
    rfl nofun ?_ (fun _ _ => Iff.rfl) h.listed (h.listed_iff hin) fun u' b hy => ?_
  · rw [hab] at ha
    cases ha
  · rw [decide_eq_false hnot, decide_eq_false hnot']
    simp
  · cases hy
    exact ⟨hm, fun uid mp hu => ⟨hre uid mp hu, rfl⟩⟩

/-- A caller sleeps on a dquot that is in use. -/
theorem Inv.sleep (h : Inv s) {w : Why U M} (hin : d ∈ s.hash) (hl : (s.dq d).locked = true)
    (hre : ¬Reusing s d) (hno : (s.pc c).uses ≠ some d) (hholds : (s.pc c).holds = some d ↔ w = .lock)
    (hab : ∀ a, (s.pc c).about = some a → a = d)
    (hget : ∀ uid mp force, w = .get uid mp force → (s.dq d).uid = uid ∧ (s.dq d).mp = some mp) :
    Good s (.ok ((s.setDq d { s.dq d with want := true }).setPc c (.asleep d w))) := by
  refine .inl ⟨_, rfl, ?_, .of_update rfl rfl rfl⟩
  refine h.frame ((Frame.setDq s d _).trans (Frame.setPc hab fun a ha => (Option.some.inj ha).symm))
    ((h.dq d).sleep hin hl hre hno hholds hget) h.listed h.hashed fun _ a ha hain h1 h2 => ?_
  rw [Cache.setPc, Cache.setDq] at h1 h2
  simp only [update_self] at h1 h2
  exact ha (h.unique a hain d hin h1 h2)

/-- A caller that has the dquot counted gets it locked, or sleeps. -/
theorem Inv.lock (h : Inv s) (hc : (s.pc c).holds = some d) (hno : (s.pc c).uses ≠ some d) :
    Good s (.ok (s.lock c d)) := by
  have hd := h.dq d
  have hab := Pc.about_of_holds hc
  have hin := hd.about c hab
  have hab' : ∀ a, (s.pc c).about = some a → a = d := fun a ha => Option.some.inj (ha.symm.trans hab)
  unfold Cache.lock
  by_cases hl : (s.dq d).locked = true
  · rw [if_pos hl]
    refine h.sleep hin hl ?_ hno (by simp [hc]) hab' nofun
    rintro ⟨c', uid, mp, b, h1⟩
    have h2 := (hd.reuse c' uid mp b h1).1
    have h3 := hd.cnt_pos hc
    omega
  · rw [if_neg hl]
    have hl' : (s.dq d).locked = false := by simpa using hl
    have hhas : (Pc.has d : Pc Q U M).holds = some d := rfl
    refine .inl ⟨_, rfl, ?_, .of_update rfl rfl rfl⟩
    refine h.take (y := .has d) (k := (s.dq d).cnt) hin hl' rfl rfl rfl rfl rfl rfl hab' rfl nofun ?_
      (fun _ _ => Iff.rfl) h.listed (h.listed_iff hin) nofun
    simp [hc, hhas]

/-! ### Reused, invalidated -/

/-- A free dquot that nobody is about gets another key. -/
theorem Inv.assign (h : Inv s) {uid : U} {mp : M} (hlist : d ∈ s.free ++ s.resv) (hw : (s.dq d).want = false)
    (hno : ∀ c', c' ≠ c → (s.pc c').uses ≠ some d) (hab : ∀ a, (s.pc c).about = some a → a = d)
    (hholds : (s.pc c).holds ≠ some d)
    (hkey : ∀ a ∈ s.hash, (s.dq a).uid = uid → (s.dq a).mp ≠ some mp) (hf : (s.mnt mp).qinod = true)
    (hsaved : ∀ m, (s.dq d).mp = some m → (∀ c, s.pc c ≠ .reading d) →
      (s.quotas m (s.dq d).uid).getD 0 = (s.dq d).dqb) : Good s (.ok (s.assign c d uid mp)) := by
  have hd := h.dq d
  obtain ⟨hmade, hcnt⟩ := hd.listed.1 hlist
  have halone := hd.alone hcnt hw hno
  -- the state that it ends in, with or without a record to read
  obtain ⟨b, y, hy, hs⟩ : ∃ b y, (y = .reading d ∨ (y = .has d ∧ (s.quotas mp uid).getD 0 = b)) ∧
      s.assign c d uid mp = { s with
        dq := update s.dq d { s.dq d with
          locked := true, want := false, mod := false, cnt := 1, uid := uid, mp := some mp, dqb := b }
        hash := d :: s.hash.erase d
        free := s.free.erase d
        resv := s.resv.erase d
        pc := update s.pc c y } := by
    unfold Cache.assign Cache.dqremfree Cache.remque Cache.setDq Cache.setPc
    cases hq : s.quotas mp uid with
    | none => exact ⟨0, .has d, .inr ⟨rfl, rfl⟩, by simp [hq]⟩
    | some b => exact ⟨(s.dq d).dqb, .reading d, .inl rfl, by simp [hq]⟩
  have hyd : y.holds = some d ∧ y.uses = some d ∧ y.about = some d ∧ (∀ w, y ≠ .asleep d w) ∧
      ∀ u b, y ≠ .writing d u b := by
    rcases hy with rfl | ⟨rfl, -⟩ <;> exact ⟨rfl, rfl, rfl, nofun, nofun⟩
  obtain ⟨s', hs'⟩ : ∃ s', s' = s.assign c d uid mp := ⟨_, rfl⟩
  rw [← hs'] at hs ⊢
  have hdq : s'.dq d = { s.dq d with
      locked := true, want := false, mod := false, cnt := 1, uid := uid, mp := some mp, dqb := b } := by
    rw [hs]
    exact update_self ..
  have hpc : ∀ c', c' ≠ c → s'.pc c' = s.pc c' := fun c' hc => by
    rw [hs]
    exact update_of_ne hc _ _
  have hpcc : s'.pc c = y := by
    rw [hs]
    exact update_self ..
  have hnot : d ∉ s'.free ++ s'.resv := by
    rw [hs, mem_append]
    have h1 := (nodup_append.1 h.listed)
    rintro (h2 | h2)
    · exact ((List.Nodup.mem_erase_iff h1.1).1 h2).1 rfl
    · exact ((List.Nodup.mem_erase_iff h1.2.1).1 h2).1 rfl
  have hframe : Frame s s' d := by
    refine ⟨fun a ha => by rw [hs]; exact update_of_ne ha _ _, fun _ _ => by rw [hs], fun a ha => ?_,
      fun a ha => ?_, fun _ _ _ _ _ => by rw [hs], by rw [hs], fun a => ?_⟩
    · rw [hs, mem_cons, mem_erase_of_ne ha]
      exact or_iff_right ha
    · rw [hs, mem_append, mem_append, mem_erase_of_ne ha, mem_erase_of_ne ha]
    · by_cases hc : a = c
      · subst hc
        refine .inr fun e he => ⟨fun h1 => he (hab e h1), fun h1 => he ?_⟩
        rw [hpcc, hyd.2.2.1] at h1
        exact (Option.some.inj h1).symm
      · exact .inl (hpc a hc)
  refine .inl ⟨s', rfl, h.frame hframe ?_ ?_ ?_ ?_, .of_frame hframe fun m hm hr => ?_⟩
  · refine hd.own hno hdq hpcc (fun c' hc => .inl (hpc c' hc)) ?_ (by simp [hyd.2.1]) hyd.2.2.2.1
      (.inr ⟨rfl, fun c' w h1 => ?_⟩) (.inl (by rw [hs]; exact mem_cons_self))
      (iff_of_true (by rw [hs]; exact mem_cons_self) (by simp)) (fun _ => by rw [hs]; exact hmade)
      (iff_of_false hnot (by simp)) nofun (fun u b hw => absurd hw (hyd.2.2.2.2 u b)) (fun _ => ⟨rfl, rfl⟩)
      (fun _ hr m hm => ?_) fun m hm => ?_
    · rw [decide_eq_true hyd.1, decide_eq_false hholds, hcnt]
      rfl
    · by_cases hc : c' = c
      · subst hc
        exact hyd.2.2.2.1 w (hpcc.symm.trans h1)
      · exact halone c' hc (by rw [← hpc c' hc, h1]; rfl)
    · obtain rfl := Option.some.inj hm
      rcases hy with h1 | ⟨-, h1⟩
      · exact absurd h1 hr
      · rw [hs]
        exact h1
    · obtain rfl := Option.some.inj hm
      rw [hs]
      exact hf
  · rw [hs]
    exact List.Nodup.sublist ((erase_sublist).append (erase_sublist)) h.listed
  · rw [hs]
    exact nodup_cons.2 ⟨fun h1 => ((List.Nodup.mem_erase_iff h.hashed).1 h1).1 rfl, h.hashed.erase d⟩
  · intro _ a ha hain h1 h2
    rw [hdq] at h1 h2
    exact hkey a hain h1 h2
  · rw [hs]
    exact hsaved m hm hr

/-- What `dqinval` makes of a dquot, when it does not panic. -/
def Cache.invalid (s : Cache P Q U M B) (c : P) (d : Q) : Cache P Q U M B :=
  { s with
    dq := update s.dq d { s.dq d with locked := false, want := false, mod := false, mp := none }
    hash := s.hash.erase d
    free := d :: s.free.erase d
    resv := s.resv.erase d
    pc := update s.pc c .idle }

theorem dqinval_cases (s : Cache P Q U M B) (c : P) (d : Q) (l m : Bool) :
    (s.setDq d { s.dq d with locked := l, mod := m }).dqinval c d = .error .dqinval ∨
    ((s.dq d).cnt = 0 ∧ m = false ∧ (s.dq d).want = false ∧
      (s.setDq d { s.dq d with locked := l, mod := m }).dqinval c d = .ok (s.invalid c d)) := by
  unfold Cache.dqinval Cache.setDq
  simp only [update_self, update_idem]
  split_ifs with h1
  · exact .inl rfl
  · rw [not_or, not_or, not_not] at h1
    exact .inr ⟨h1.1, by simpa using h1.2.1, by simpa using h1.2.2, rfl⟩

/-- A dquot that nobody is about is invalidated. -/
theorem Inv.invalid (h : Inv s) (hin : d ∈ s.hash) (hcnt : (s.dq d).cnt = 0) (hw : (s.dq d).want = false)
    (hno : ∀ c', c' ≠ c → (s.pc c').uses ≠ some d) (hab : ∀ a, (s.pc c).about = some a → a = d)
    (hsaved : ∀ m, (s.dq d).mp = some m → (∀ c, s.pc c ≠ .reading d) →
      (s.quotas m (s.dq d).uid).getD 0 = (s.dq d).dqb) :
    Inv (s.invalid c d) ∧ Saved s (s.invalid c d) := by
  have hd := h.dq d
  have halone := hd.alone hcnt hw hno
  have hmade := hd.made hin
  have hhash : d ∉ (s.invalid c d).hash := fun h1 => ((List.Nodup.mem_erase_iff h.hashed).1 h1).1 rfl
  have hdq : (s.invalid c d).dq d =
      { s.dq d with locked := false, want := false, mod := false, mp := none } := update_self ..
  have hpc : ∀ c', c' ≠ c → (s.invalid c d).pc c' = s.pc c' := fun c' hc => update_of_ne hc _ _
  have hpcc : (s.invalid c d).pc c = .idle := update_self ..
  have hnone : ∀ c', ((s.invalid c d).pc c').about ≠ some d := fun c' => by
    by_cases hc : c' = c
    · subst hc
      rw [hpcc]
      nofun
    · rw [hpc c' hc]
      exact halone c' hc
  have hframe : Frame s (s.invalid c d) d := by
    refine ⟨fun a ha => update_of_ne ha _ _, fun _ _ => rfl, fun a ha => mem_erase_of_ne ha,
      fun a ha => ?_, fun _ _ _ _ _ => rfl, rfl, fun a => ?_⟩
    · show a ∈ d :: s.free.erase d ++ s.resv.erase d ↔ _
      rw [cons_append, mem_cons, mem_append, mem_append, mem_erase_of_ne ha,
        mem_erase_of_ne ha]
      exact or_iff_right ha
    · by_cases hc : a = c
      · subst hc
        refine .inr fun e he => ⟨fun h1 => he (hab e h1), fun h1 => ?_⟩
        rw [hpcc] at h1
        cases h1
      · exact .inl (hpc a hc)
  have hnot : (s.pc c).holds ≠ some d := fun h1 => by
    have h2 := hd.cnt_pos h1
    omega
  refine ⟨h.frame hframe ?_ ?_ (h.hashed.erase d) fun h1 => absurd h1 hhash, .of_frame hframe hsaved⟩
  · refine hd.own hno hdq hpcc (fun c' hc => .inl (hpc c' hc)) ?_ (iff_of_false nofun nofun) nofun
      (.inr ⟨rfl, fun c' w h1 => hnone c' (by rw [h1]; rfl)⟩) (.inr hnone) (iff_of_false hhash (by simp))
      (fun h1 => absurd h1 hhash) (iff_of_true mem_cons_self ⟨hmade, hcnt⟩) nofun nofun nofun
      (fun _ _ m hm => nomatch hm) nofun
    rw [decide_eq_false hnot]
    show (s.dq d).cnt = (s.dq d).cnt + ((decide (none = some d)).toNat - (false.toNat : ℤ))
    simp
  · have h1 := (nodup_append.1 h.listed)
    refine nodup_cons.2 ⟨fun h2 => ?_,
      List.Nodup.sublist ((erase_sublist).append (erase_sublist)) h.listed⟩
    rcases mem_append.1 h2 with h3 | h3
    · exact ((List.Nodup.mem_erase_iff h1.1).1 h3).1 rfl
    · exact ((List.Nodup.mem_erase_iff h1.2.1).1 h3).1 rfl

/-- `quota_release` gets to a dquot. -/
theorem Inv.release (h : Inv s) (hc : s.pc c = .idle) (hin : d ∈ s.hash) (hre : ¬Reusing s d) :
    Good s (s.release c d) := by
  have hd := h.dq d
  have hab : (s.pc c).about = none := by
    rw [hc]
    rfl
  have hab' : ∀ a, (s.pc c).about = some a → a = d := fun a ha => by
    rw [hab] at ha
    cases ha
  unfold Cache.release
  by_cases hl : (s.dq d).locked = true
  · rw [if_pos hl]
    refine h.sleep hin hl hre ?_ ?_ hab' (by simp)
    · rw [hc]
      rintro ⟨⟩
    · rw [hc]
      exact iff_of_false (by rintro ⟨⟩) (by rintro ⟨⟩)
  · have hl' : (s.dq d).locked = false := by simpa using hl
    rw [if_neg hl]
    have hm' : ((s.setDq d { s.dq d with locked := true }).dq d).mod = (s.dq d).mod := by
      simp only [Cache.setDq, update_self]
    dsimp only
    by_cases hm : (s.dq d).mod = true
    · rw [if_pos (hm'.trans hm)]
      exact h.write hin hl' hm hab (by simp) (by simp)
    · rw [if_neg (by rw [hm']; exact hm)]
      rcases dqinval_cases s c d true (s.dq d).mod with h1 | ⟨h1, h2, h3, h4⟩
      · exact .inr (.inl h1)
      · obtain ⟨h5, h6⟩ := h.invalid hin h1 h3 (fun c' _ => hd.unused hl' c') hab' fun m hm hr => hd.clean h2 hr m hm
        exact .inl ⟨_, h4, h5, h6⟩

/-! ### More dquots -/

omit [Fintype P] in
theorem insert_frame (s : Cache P Q U M B) (d : Q) : Frame s (s.insert d) d := by
  refine ⟨fun a ha => update_of_ne ha _ _, fun a ha => update_of_ne ha _ _, fun _ _ => Iff.rfl, fun a ha => ?_,
    fun _ _ _ _ _ => rfl, rfl, fun _ => .inl rfl⟩
  show a ∈ d :: s.free ++ s.resv ↔ _
  rw [cons_append, mem_cons]
  exact or_iff_right ha

/-- A dquot that has not been there gets on the free list. -/
theorem Inv.insert (h : Inv s) (hm : s.made d = false) : Inv (s.insert d) := by
  have hd := h.dq d
  have hhash : d ∉ s.hash := fun h1 => Bool.noConfusion (hm.symm.trans (hd.made h1))
  have hnone : ∀ c, (s.pc c).about ≠ some d := fun c h1 => hhash (hd.about c h1)
  have hdq : (s.insert d).dq d =
      { s.dq d with locked := false, want := false, mod := false, cnt := 0, mp := none } := update_self ..
  have hmade : (s.insert d).made d = true := update_self ..
  refine h.frame (insert_frame s d) ?_ ?_ h.hashed fun h1 => absurd h1 hhash
  · refine ⟨?_, ?_, fun c h1 => absurd (Pc.about_of_uses h1) (hnone c), fun c _ h1 =>
      absurd (Pc.about_of_uses h1) (hnone c), fun c w h1 => absurd (h1 ▸ rfl) (hnone c), ?_,
      fun c h1 => absurd h1 (hnone c), ?_, fun _ => hmade, ?_, ?_, fun c u b h1 => absurd (h1 ▸ rfl) (hnone c),
      fun c uid mp b h1 => absurd (h1 ▸ rfl) (hnone c), fun c h1 => absurd (h1 ▸ rfl) (hnone c),
      fun c uid mp h1 => absurd (h1 ▸ rfl) (hnone c), fun _ _ m hm => ?_, fun m hm => ?_⟩
    · rw [hdq]
      refine Eq.symm (Int.natCast_eq_zero.2 (Finset.card_eq_zero.2 (Finset.filter_eq_empty_iff.2 fun c _ h1 => ?_)))
      exact hnone c (Pc.about_of_holds h1)
    · rw [hdq]
      nofun
    · rw [hdq]
      nofun
    · rw [hdq]
      exact iff_of_false hhash (by simp)
    · rw [hdq, hmade]
      exact iff_of_true mem_cons_self ⟨rfl, rfl⟩
    · rw [hdq]
      nofun
    · rw [hdq] at hm
      cases hm
    · rw [hdq] at hm
      cases hm
  · refine nodup_cons.2 ⟨fun h1 => ?_, h.listed⟩
    exact Bool.noConfusion (hm.symm.trans (hd.listed.1 h1).1)

/-! ### Put down -/

/-- A caller that has a dquot locked and counted unlocks it, with `DQUNLOCK` at any point. -/
theorem Inv.putDown (h : Inv s) (hc : s.pc c = .has d) {s₁ s₂ : Cache P Q U M B} {y : Pc Q U M} {k : ℤ}
    {F R : List Q} (hpc₁ : s₁.pc = s.pc) (hwant : (s₁.dq d).want = (s.dq d).want) (hs₂ : s₂ = s₁.unlock d)
    (hdq : s'.dq = update s.dq d { s.dq d with locked := false, want := false, cnt := k })
    (hmade : s'.made = s.made) (hhash : s'.hash = s.hash) (hmnt : s'.mnt = s.mnt)
    (hq : s'.quotas = s.quotas) (hpc : s'.pc = update s₂.pc c y) (hfree : s'.free = F) (hresv : s'.resv = R)
    (hy : y = .idle ∧ k = (s.dq d).cnt - 1 ∨ y = .kept d ∧ k = (s.dq d).cnt)
    (hF : ∀ a, a ≠ d → (a ∈ F ++ R ↔ a ∈ s.free ++ s.resv)) (hFn : (F ++ R).Nodup)
    (hFd : d ∈ F ++ R ↔ k = 0) : Inv s' := by
  have hd := h.dq d
  have huse : (s.pc c).uses = some d := by
    rw [hc]
    rfl
  have hhas : (s.pc c).holds = some d := by
    rw [hc]
    rfl
  obtain ⟨-, -, -, -, -, -, -, hw, hns⟩ := unlock_spec s₁ d fun c' w h1 => by
    rw [hpc₁] at h1
    rw [hwant]
    exact (hd.asleep c' w h1).2.1
  rw [← hs₂, hpc₁] at hw
  rw [← hs₂] at hns
  have hyc : s'.pc c = y := by rw [hpc, update_self]
  have hother : ∀ c', c' ≠ c → s'.pc c' = s₂.pc c' := fun c' h1 => by rw [hpc, update_of_ne h1]
  refine h.leave huse (y := y) (k := k) (m := (s.dq d).mod) hdq hmade hhash hmnt hq hyc
    (fun c' h1 => by rw [hother c' h1]; exact hw c') (fun c' w h1 => ?_) (hy.imp And.left And.left) ?_
    (by rw [hfree, hresv]; exact hF) (by rw [hfree, hresv]; exact hFn) (by rw [hfree, hresv]; exact hFd)
    fun hm m hmp => ?_
  · by_cases h2 : c' = c
    · subst h2
      rw [hyc] at h1
      rcases hy with ⟨rfl, -⟩ | ⟨rfl, -⟩ <;> cases h1
    · exact hns c' w (by rw [← hother c' h2]; exact h1)
  · rw [decide_eq_true hhas]
    rcases hy with ⟨rfl, rfl⟩ | ⟨rfl, rfl⟩
    · show _ = _ + ((decide (none = some d)).toNat - (true.toNat : ℤ))
      simp
      omega
    · show _ = _ + ((decide (some d = some d)).toNat - (true.toNat : ℤ))
      simp
  · refine hd.clean hm (fun c' h1 => ?_) m hmp
    have h2 := hd.one c' c (by rw [h1]; rfl) huse
    subst h2
    rw [hc] at h1
    cases h1

omit [DecidableEq P] in
theorem Inv.not_listed (h : Inv s) (hc : s.pc c = .has d) :
    d ∈ s.hash ∧ 0 < (s.dq d).cnt ∧ (s.dq d).locked = true ∧ d ∉ s.free ++ s.resv := by
  have hd := h.dq d
  have hcnt := hd.cnt_pos (c := c) (by rw [hc]; rfl)
  refine ⟨hd.about c (by rw [hc]; rfl), hcnt, hd.inuse c (by rw [hc]; rfl), fun h1 => ?_⟩
  have h2 := (hd.listed.1 h1).2
  omega

theorem Inv.unlock (h : Inv s) (hc : s.pc c = .has d) : Good s (.ok ((s.unlock d).setPc c (.kept d))) := by
  obtain ⟨hin, -, -, -⟩ := h.not_listed hc
  obtain ⟨h1, h2, h3, h4, h5, h6, h7, -⟩ := unlock_spec s d fun c' w h1 => ((h.dq d).asleep c' w h1).2.1
  refine .inl ⟨_, rfl, ?_, .of_update h1 rfl rfl⟩
  exact h.putDown hc rfl rfl rfl (y := .kept d) (k := (s.dq d).cnt) h1 h2 h3 h6 h7 rfl h4 h5 (.inr ⟨rfl, rfl⟩)
    (fun _ _ => Iff.rfl) h.listed (h.listed_iff hin)

theorem Inv.put (h : Inv s) (hc : s.pc c = .has d) : Good s (s.dqput c d) := by
  obtain ⟨hin, hpos, hl, hnot⟩ := h.not_listed hc
  unfold Cache.dqput
  have hok : ¬((s.dq d).cnt = 0 ∨ (s.dq d).locked = false) := by
    rw [hl]
    simp
    omega
  rw [if_neg hok]
  obtain ⟨s₁, hs₁⟩ : ∃ s₁, s₁ = s.setDq d { s.dq d with cnt := (s.dq d).cnt - 1 } := ⟨_, rfl⟩
  obtain ⟨s₂, hs₂⟩ : ∃ s₂, s₂ = if (s₁.dq d).cnt = 0 then { s₁ with free := s₁.free ++ [d] } else s₁ :=
    ⟨_, rfl⟩
  have hdq₁ : s₁.dq d = { s.dq d with cnt := (s.dq d).cnt - 1 } := by
    rw [hs₁]
    exact update_self ..
  have hdq₂ : s₂.dq = s₁.dq ∧ s₂.made = s.made ∧ s₂.hash = s.hash ∧ s₂.mnt = s.mnt ∧ s₂.quotas = s.quotas ∧
      s₂.pc = s.pc ∧ s₂.resv = s.resv ∧
      s₂.free = if (s.dq d).cnt - 1 = 0 then s.free ++ [d] else s.free := by
    rw [hs₂, hdq₁]
    dsimp only
    split_ifs <;> rw [hs₁] <;> exact ⟨rfl, rfl, rfl, rfl, rfl, rfl, rfl, rfl⟩
  obtain ⟨g1, g2, g3, g4, g5, g6, g7, g8⟩ := hdq₂
  obtain ⟨h1, h2, h3, h4, h5, h6, h7, -⟩ := unlock_spec s₂ d fun c' w h1 => by
    rw [g6] at h1
    rw [g1, hdq₁]
    exact ((h.dq d).asleep c' w h1).2.1
  have hdq : (s₂.unlock d).dq = update s.dq d
      { s.dq d with locked := false, want := false, cnt := (s.dq d).cnt - 1 } := by
    rw [h1, g1, hdq₁, hs₁]
    exact update_idem ..
  refine .inl ⟨(s₂.unlock d).setPc c .idle, by rw [hs₂, hs₁], ?_, .of_update hdq rfl rfl⟩
  refine @Inv.putDown _ _ _ _ _ _ _ _ _ _ _ _ _ h hc s₂ _ .idle _ _ _ g6 (by rw [g1, hdq₁]) rfl hdq (h2.trans g2)
    (h3.trans g3) (h6.trans g4) (h7.trans g5) rfl (h4.trans g8) (h5.trans g7) (.inl ⟨rfl, rfl⟩) (fun a ha => ?_)
    ?_ ?_
  · split_ifs
    · simp [ha]
    · rfl
  · split_ifs
    · have hperm : (s.free ++ [d] ++ s.resv).Perm (d :: (s.free ++ s.resv)) := by
        simp
      exact hperm.nodup_iff.2 (nodup_cons.2 ⟨hnot, h.listed⟩)
    · exact h.listed
  · split_ifs with hz
    · exact iff_of_true (by simp) hz
    · exact iff_of_false hnot hz

theorem Inv.reserve (h : Inv s) (hc : s.pc c = .has d) : Good s (s.dqreserve c d) := by
  obtain ⟨hin, hpos, hl, hnot⟩ := h.not_listed hc
  unfold Cache.dqreserve
  have hok : ¬((s.dq d).cnt = 0 ∨ (s.dq d).locked = false) := by
    rw [hl]
    simp
    omega
  rw [if_neg hok]
  obtain ⟨h1, h2, h3, h4, h5, h6, h7, -⟩ := unlock_spec s d fun c' w h1 => ((h.dq d).asleep c' w h1).2.1
  have hdq₁ : (s.unlock d).dq d = { s.dq d with locked := false, want := false } := by rw [h1, update_self]
  obtain ⟨s₁, hs₁⟩ : ∃ s₁, s₁ = (s.unlock d).setDq d
      { (s.unlock d).dq d with cnt := ((s.unlock d).dq d).cnt - 1 } := ⟨_, rfl⟩
  obtain ⟨s₂, hs₂⟩ : ∃ s₂, s₂ = if (s₁.dq d).cnt = 0 then { s₁ with resv := s₁.resv ++ [d] } else s₁ :=
    ⟨_, rfl⟩
  have hdq : s₁.dq = update s.dq d
      { s.dq d with locked := false, want := false, cnt := (s.dq d).cnt - 1 } := by
    rw [hs₁, hdq₁, Cache.setDq, h1]
    exact update_idem ..
  have hdq₂ : s₂.dq = s₁.dq ∧ s₂.made = s.made ∧ s₂.hash = s.hash ∧ s₂.mnt = s.mnt ∧ s₂.quotas = s.quotas ∧
      s₂.pc = (s.unlock d).pc ∧ s₂.free = s.free ∧
      s₂.resv = if (s.dq d).cnt - 1 = 0 then s.resv ++ [d] else s.resv := by
    rw [hs₂, hdq, update_self]
    dsimp only
    split_ifs <;> rw [← hdq, hs₁] <;> refine ⟨rfl, h2, h3, h6, h7, rfl, h4, ?_⟩
    · exact congrArg (· ++ [d]) h5
    · exact h5
  obtain ⟨g1, g2, g3, g4, g5, g6, g7, g8⟩ := hdq₂
  refine .inl ⟨s₂.setPc c .idle, by rw [hs₂, hs₁], ?_, .of_update (g1.trans hdq) rfl rfl⟩
  refine h.putDown hc rfl rfl rfl (y := .idle) (g1.trans hdq) g2 g3 g4 g5 (by rw [← g6]; rfl) g7 g8
    (.inl ⟨rfl, rfl⟩) (fun a ha => ?_) ?_ ?_
  · split_ifs
    · simp [ha]
    · rfl
  · split_ifs
    · have hperm : (s.free ++ (s.resv ++ [d])).Perm (d :: (s.free ++ s.resv)) := by
        rw [← append_assoc]
        exact perm_append_singleton d (s.free ++ s.resv)
      exact hperm.nodup_iff.2 (nodup_cons.2 ⟨hnot, h.listed⟩)
    · exact h.listed
  · split_ifs with hz
    · exact iff_of_true (by simp) hz
    · exact iff_of_false hnot hz

/-! ### Records -/

theorem Inv.modify (h : Inv s) (b : B) (hc : (s.pc c).holds = some d) (hr : s.pc c ≠ .reading d) :
    Good s (.ok (s.modify d b)) := by
  have hin := (h.dq d).about c (Pc.about_of_holds hc)
  refine .inl ⟨_, rfl, ?_, .of_update rfl rfl rfl⟩
  refine h.frame (Frame.setDq s d _) ((h.dq d).modify b hc hr) h.listed h.hashed fun _ a ha hain h1 h2 => ?_
  rw [Cache.modify, Cache.setDq] at h1 h2
  simp only [update_self] at h1 h2
  exact ha (h.unique a hain d hin h1 h2)

theorem Inv.dqupdate (h : Inv s) (hc : s.pc c = .has d) (hm : (s.dq d).mod = true) :
    Good s (s.dqupdate c d .own) := by
  obtain ⟨hin, hpos, hl, -⟩ := h.not_listed hc
  obtain ⟨mp, hmp, hf⟩ := (h.dq d).mp_some hin
  refine .inl ⟨_, dqupdate_ok hmp hf hl hm, ?_, .of_key fun _ => ⟨rfl, rfl⟩⟩
  refine h.stay (c := c) (x := s.dq d) (y := .writing d .own false) (by rw [hc]; rfl) (update_eq_self ..).symm
    rfl rfl rfl rfl rfl rfl rfl nofun rfl (by rw [hc]; rfl) (fun _ _ _ _ _ => rfl) (fun u b hy => ?_) fun h1 => ?_
  · cases hy
    exact ⟨hm, nofun⟩
  · exact Bool.noConfusion (hm.symm.trans h1)

/-- The record gets to the file. -/
theorem Inv.copied [DecidableEq U] [DecidableEq M] (h : Inv s) {b : Bool}
    (hc : s.pc c = .writing d u b) : Good s (.ok (s.copied c d u)) := by
  have hd := h.dq d
  have huse : (s.pc c).uses = some d := by
    rw [hc]
    rfl
  have hin := hd.about c (Pc.about_of_uses huse)
  have hm := hd.writing c u b hc
  obtain ⟨mp, hmp, -⟩ := hd.mp_some hin
  unfold Cache.copied
  rw [hmp]
  refine .inl ⟨_, rfl, ?_, .of_key fun _ => ⟨rfl, rfl⟩⟩
  refine h.stay (c := c) (x := s.dq d) (y := .writing d u true) huse (update_eq_self ..).symm rfl rfl rfl rfl rfl
    rfl rfl nofun rfl ?_ (fun a ha hain m hma => ?_) (fun u' b' hy => ?_) fun h1 => ?_
  · rw [hc]
    cases u <;> exact Iff.rfl
  · -- the record of another dquot is another record
    show Function.update s.quotas mp _ m (s.dq a).uid = _
    by_cases h1 : m = mp
    · subst h1
      rw [update_self, update_of_ne]
      exact fun h2 => ha (h.unique a hain d hin h2 (hma.trans hmp.symm))
    · rw [update_of_ne h1]
  · cases hy
    refine ⟨hm, fun uid mp' hu => ?_⟩
    subst hu
    obtain ⟨h1, h2⟩ := hd.reuse c uid mp' b hc
    refine ⟨h1, h2, fun _ m hma => ?_⟩
    obtain rfl := Option.some.inj (hmp.symm.trans hma)
    show Function.update s.quotas mp _ mp (s.dq d).uid = _
    rw [update_self, update_self]
  · exact Bool.noConfusion (hm.symm.trans h1)

/-- The record has been written, or has not; nobody has changed it since it was copied. -/
theorem Inv.wrote (h : Inv s) {b err : Bool} (hc : s.pc c = .writing d u b)
    (hu : ∀ uid mp, u ≠ .reuse uid mp)
    (hsame : err = false → ∀ m, (s.dq d).mp = some m → s.quotas m (s.dq d).uid = some (s.dq d).dqb) :
    Good s (s.written c d u err false) := by
  have hd := h.dq d
  have huse : (s.pc c).uses = some d := by
    rw [hc]
    rfl
  have hab : ∀ a, (s.pc c).about = some a → a = d := fun a ha =>
    Option.some.inj (ha.symm.trans (Pc.about_of_uses huse))
  have hno : ∀ c', c' ≠ c → (s.pc c').uses ≠ some d := fun c' h1 h2 => h1 (hd.one c' c h2 huse)
  have hin := hd.about c (Pc.about_of_uses huse)
  have hm := hd.writing c u b hc
  -- the flag `DQ_MOD` is taken away when there was no error
  obtain ⟨s₁, hs₁⟩ : ∃ s₁, s₁ = if err then s else s.setDq d { s.dq d with mod := false } := ⟨_, rfl⟩
  have hs₁' : s₁ = s.setDq d { s.dq d with locked := (s.dq d).locked, mod := err } := by
    rw [hs₁]
    cases err with
    | false => rfl
    | true =>
      rw [if_pos rfl, ← hm, Cache.setDq]
      simp
  have hclean : err = false → ∀ m, (s.dq d).mp = some m →
      (s.quotas m (s.dq d).uid).getD 0 = (s.dq d).dqb := fun h1 m h2 => by
    rw [hsame h1 m h2]
    rfl
  unfold Cache.written
  rw [← hs₁]
  cases u with
  | own =>
    refine .inl ⟨s₁.setPc c (.has d), rfl, ?_, ?_⟩
    · refine h.stay (c := c) (x := { s.dq d with mod := err }) (y := .has d) huse ?_ ?_ ?_ ?_ ?_ ?_ ?_ rfl (by simp)
        rfl (by rw [hc]; exact Iff.rfl) (fun _ _ _ _ _ => by rw [hs₁']; rfl) (by simp) fun h1 m h2 => ?_
      · rw [hs₁']
        rfl
      · rw [hs₁']
        rfl
      · rw [hs₁']
        rfl
      · rw [hs₁']
        rfl
      · rw [hs₁']
        rfl
      · rw [hs₁']
        rfl
      · rw [hs₁']
        rfl
      · rw [hs₁']
        exact hclean h1 m h2
    · rw [hs₁']
      exact .of_update rfl rfl rfl
  | sync =>
    have hdq₁ : s₁.dq d = { s.dq d with mod := err } := by
      rw [hs₁']
      exact update_self ..
    obtain ⟨h1, h2, h3, h4, h5, h6, h7, h8, h9⟩ := unlock_spec s₁ d fun c' w h1 => by
      rw [hs₁'] at h1
      rw [hdq₁]
      exact (hd.asleep c' w h1).2.1
    have hdq : (s₁.unlock d).dq = update s.dq d
        { s.dq d with locked := false, want := false, mod := err, cnt := (s.dq d).cnt } := by
      rw [h1, hdq₁, hs₁']
      exact update_idem ..
    refine .inl ⟨_, rfl, ?_, .of_update hdq rfl rfl⟩
    refine h.leave huse (y := .idle) hdq ?_ ?_ ?_ ?_ (update_self ..) (fun c' h10 => ?_) (fun c' w h10 => ?_)
      (.inl rfl) ?_ (fun a _ => ?_) ?_ ?_ hclean
    · exact h2.trans (by rw [hs₁']; rfl)
    · exact h3.trans (by rw [hs₁']; rfl)
    · exact h6.trans (by rw [hs₁']; rfl)
    · exact h7.trans (by rw [hs₁']; rfl)
    · show update (s₁.unlock d).pc c .idle c' = _ ∨ ∃ w, _ ∧ update (s₁.unlock d).pc c .idle c' = _
      rw [update_of_ne h10]
      have h11 := h8 c'
      rwa [hs₁'] at h11 ⊢
    · by_cases hcc : c' = c
      · subst hcc
        cases (update_self (f := (s₁.unlock d).pc) ..).symm.trans h10
      · exact h9 c' w ((update_of_ne hcc ..).symm.trans h10)
    · rw [hc]
      show _ = _ + ((decide (none = some d)).toNat - ((decide (none = some d)).toNat : ℤ))
      simp
    · show a ∈ (s₁.unlock d).free ++ (s₁.unlock d).resv ↔ _
      rw [h4, h5, hs₁']
      exact Iff.rfl
    · show ((s₁.unlock d).free ++ (s₁.unlock d).resv).Nodup
      rw [h4, h5, hs₁']
      exact h.listed
    · show d ∈ (s₁.unlock d).free ++ (s₁.unlock d).resv ↔ _
      rw [h4, h5, hs₁']
      exact h.listed_iff hin
  | release =>
    show Good s (s₁.dqinval c d)
    rw [hs₁']
    rcases dqinval_cases s c d (s.dq d).locked err with h1 | ⟨h1, h2, h3, h4⟩
    · exact .inr (.inl h1)
    · obtain ⟨h5, h6⟩ := h.invalid hin h1 h3 hno hab fun m hm _ => hclean h2 m hm
      exact .inl ⟨_, h4, h5, h6⟩
  | reuse uid mp => exact absurd rfl (hu uid mp)

omit [DecidableEq P] [Fintype P] in
theorem assign_setDq [DecidableEq P] (s : Cache P Q U M B) (c : P) (d : Q) (uid : U) (mp : M) (m : Bool) :
    (s.setDq d { s.dq d with mod := m }).assign c d uid mp = s.assign c d uid mp := by
  simp only [Cache.assign, Cache.dqremfree, Cache.remque, Cache.setDq, update_self, update_idem]

/-- The record of the dquot that is reused has been written. -/
theorem Inv.reuse (h : Inv s) {uid : U} {mp : M} {b : Bool} (hc : s.pc c = .writing d (.reuse uid mp) b)
    (hb : b = true) (hkey : ∀ a ∈ s.hash, (s.dq a).uid = uid → (s.dq a).mp ≠ some mp)
    (hf : (s.mnt mp).qinod = true) : Good s (s.written c d (.reuse uid mp) false false) := by
  subst hb
  have hd := h.dq d
  have huse : (s.pc c).uses = some d := by
    rw [hc]
    rfl
  obtain ⟨hcnt, hw⟩ := hd.reuse c uid mp true hc
  have hlist := hd.listed.2 ⟨hd.made (hd.about c (Pc.about_of_uses huse)), hcnt⟩
  have h1 : s.written c d (.reuse uid mp) false false = .ok (s.assign c d uid mp) := by
    rw [← assign_setDq s c d uid mp false]
    rfl
  rw [h1]
  refine h.assign hlist hw (fun c' h1 h2 => h1 (hd.one c' c h2 huse)) (fun a ha => ?_) ?_ hkey hf
    fun m hm _ => ?_
  · exact Option.some.inj (ha.symm.trans (Pc.about_of_uses huse))
  · rw [hc]
    nofun
  · rw [hd.copied c uid mp hc m hm]
    rfl

/-- The record has been read. -/
theorem Inv.read (h : Inv s) (hc : s.pc c = .reading d) : Good s (.ok (s.read c d false)) := by
  have hd := h.dq d
  have huse : (s.pc c).uses = some d := by
    rw [hc]
    rfl
  obtain ⟨mp, hmp, -⟩ := hd.mp_some (hd.about c (Pc.about_of_uses huse))
  have h1 : s.read c d false =
      (s.setDq d { s.dq d with dqb := (s.quotas mp (s.dq d).uid).getD 0 }).setPc c (.has d) := by
    unfold Cache.read
    rw [hmp]
    rfl
  rw [h1]
  refine .inl ⟨_, rfl, ?_, .of_update rfl rfl rfl⟩
  refine h.stay (c := c) (y := .has d) huse rfl rfl rfl rfl rfl rfl rfl rfl nofun rfl (by rw [hc]; exact Iff.rfl)
    (fun _ _ _ _ _ => rfl) nofun fun _ m hm => ?_
  obtain rfl := Option.some.inj (hmp.symm.trans hm)
  rfl

/-- The record cannot be read. -/
theorem Inv.unread (h : Inv s) (hc : s.pc c = .reading d) : Good s (.ok (s.read c d true)) := by
  have hd := h.dq d
  have huse : (s.pc c).uses = some d := by
    rw [hc]
    rfl
  have hhold : (s.pc c).holds = some d := by
    rw [hc]
    rfl
  have hin := hd.about c (Pc.about_of_uses huse)
  have hmade := hd.made hin
  obtain ⟨hcnt, hmod⟩ := hd.read c hc
  have hno : ∀ c', c' ≠ c → (s.pc c').uses ≠ some d := fun c' h1 h2 => h1 (hd.one c' c h2 huse)
  have hsole : ∀ c', c' ≠ c → (s.pc c').holds ≠ some d := fun c' h1 h2 => h1 (hd.sole hcnt hhold h2)
  have hnl : d ∉ s.free ++ s.resv := fun h1 => by
    have h2 := (hd.listed.1 h1).2
    omega
  -- the state in which it is unlocked
  obtain ⟨s₁, hs₁⟩ : ∃ s₁ : Cache P Q U M B, s₁ = { s with
      dq := update s.dq d { s.dq d with cnt := 0, mp := none }
      hash := s.hash.erase d
      free := d :: s.free } := ⟨_, rfl⟩
  have hdq₁ : s₁.dq d = { s.dq d with cnt := 0, mp := none } := by
    rw [hs₁]
    exact update_self ..
  obtain ⟨h1, h2, h3, h4, h5, h6, h7, h8, h9⟩ := unlock_spec s₁ d fun c' w h1 => by
    rw [hs₁] at h1
    rw [hdq₁]
    exact (hd.asleep c' w h1).2.1
  have hpc₁ : s₁.pc = s.pc := by rw [hs₁]
  rw [hpc₁] at h8
  obtain ⟨s', hs'⟩ : ∃ s', s' = (s₁.unlock d).setPc c .idle := ⟨_, rfl⟩
  have hread : s.read c d true = s' := by
    rw [hs', hs₁]
    rfl
  have hdq : s'.dq = update s.dq d { s.dq d with locked := false, want := false, cnt := 0, mp := none } := by
    rw [hs']
    refine h1.trans ?_
    rw [hdq₁, hs₁]
    exact update_idem ..
  have hpcc : s'.pc c = .idle := by
    rw [hs']
    exact update_self ..
  have hpc : ∀ c', c' ≠ c → s'.pc c' = (s₁.unlock d).pc c' := fun c' hne => by
    rw [hs']
    exact update_of_ne hne _ _
  have hhash : s'.hash = s.hash.erase d := by
    rw [hs']
    exact h3.trans (by rw [hs₁])
  have hlists : s'.free ++ s'.resv = d :: (s.free ++ s.resv) := by
    rw [hs']
    show (s₁.unlock d).free ++ (s₁.unlock d).resv = _
    rw [h4, h5, hs₁]
    rfl
  have hmade' : s'.made = s.made := by
    rw [hs']
    exact h2.trans (by rw [hs₁])
  have hwakes : ∀ c', ((s₁.unlock d).pc c').holds = some d ↔ (s.pc c').holds = some d := fun c' => by
    rcases h8 c' with h10 | ⟨w, h10, h11⟩
    · rw [h10]
    · rw [h10, h11]
      cases w <;> exact Iff.rfl
  have hnone : ∀ c', (s'.pc c').about ≠ some d := fun c' h10 => by
    by_cases hcc : c' = c
    · subst hcc
      rw [hpcc] at h10
      cases h10
    · rw [hpc c' hcc] at h10
      rcases Pc.about_cases h10 with h11 | h11 | ⟨w, h11⟩
      · exact hsole c' hcc ((hwakes c').1 h11)
      · rcases h8 c' with h12 | ⟨w, -, h12⟩
        · exact hno c' hcc (h12 ▸ h11)
        · rw [h12] at h11
          cases h11
      · exact h9 c' w h11
  have hframe : Frame s s' d := by
    refine ⟨fun a ha => by rw [hdq, update_of_ne ha], fun _ _ => by rw [hmade'], fun a ha => ?_,
      fun a ha => ?_, fun _ _ _ m _ => ?_, ?_, fun a => ?_⟩
    · rw [hhash, mem_erase_of_ne ha]
    · rw [hlists, mem_cons]
      exact or_iff_right ha
    · rw [hs']
      show (s₁.unlock d).quotas m _ = _
      rw [h7, hs₁]
    · rw [hs']
      exact h6.trans (by rw [hs₁])
    · by_cases hac : a = c
      · subst hac
        refine .inr fun e he => ⟨fun h10 => he ?_, fun h10 => ?_⟩
        · exact Option.some.inj (h10.symm.trans (Pc.about_of_uses huse))
        · rw [hpcc] at h10
          cases h10
      · rw [hpc a hac]
        rcases h8 a with h10 | ⟨w, h10, h11⟩
        · exact .inl h10
        · rw [h10, h11]
          exact .inr fun e he => ⟨fun h12 => he (Option.some.inj h12).symm, fun h12 => he (Pc.about_woken h12)⟩
  have hdq' : s'.dq d = { s.dq d with locked := false, want := false, cnt := 0, mp := none } := by
    rw [hdq, update_self]
  have hnh : d ∉ s'.hash := by
    rw [hhash]
    exact fun h10 => ((List.Nodup.mem_erase_iff h.hashed).1 h10).1 rfl
  rw [hread]
  refine .inl ⟨s', rfl, h.frame hframe ?_ ?_ ?_ fun h10 => absurd h10 hnh, ?_⟩
  · refine hd.own hno hdq' hpcc (fun c' hcc => by rw [hpc c' hcc]; exact h8 c') ?_ (iff_of_false nofun nofun) nofun
      (.inr ⟨rfl, fun c' w h10 => hnone c' (by rw [h10]; rfl)⟩) (.inr hnone) (iff_of_false hnh (by simp))
      (fun h10 => absurd h10 hnh) (iff_of_true (by rw [hlists]; exact mem_cons_self)
        ⟨by rw [hmade']; exact hmade, rfl⟩) ?_ nofun nofun (fun _ _ m hm => nomatch hm) nofun
    · rw [decide_eq_true hhold, hcnt]
      show (0 : ℤ) = 1 + ((decide (none = some d)).toNat - (true.toNat : ℤ))
      simp
    · exact fun h10 => Bool.noConfusion (hmod.symm.trans h10)
  · rw [hlists]
    exact nodup_cons.2 ⟨hnl, h.listed⟩
  · rw [hhash]
    exact h.hashed.erase d
  · exact .of_frame hframe fun m hm hr => absurd hc (hr c)

/-! ### Searching -/

theorem refill_lists (s : Cache P Q U M B) : s.refill.free ++ s.refill.resv = s.free ++ s.resv ∧
    ∃ F R f, s.refill = { s with free := F, resv := R, dqfree := f } := by
  unfold Cache.refill
  split_ifs with h1
  · exact ⟨by simp, _, _, _, rfl⟩
  · exact ⟨rfl, s.free, s.resv, s.dqfree, rfl⟩

theorem Inv.refill (h : Inv s) : Inv s.refill := by
  obtain ⟨h1, F, R, f, h2⟩ := refill_lists s
  rw [h2] at h1 ⊢
  exact ⟨fun d => { h.dq d with listed := by rw [h1]; exact (h.dq d).listed }, by rw [h1]; exact h.listed,
    h.hashed, h.unique, h.enabled⟩

/-- A dquot from the free list that is not in use. -/
theorem Inv.victim (h : Inv s) {uid : U} {mp : M} (hfree : d ∈ s.free) (hl : (s.dq d).locked = false)
    (hab : (s.pc c).about = none) (hkey : ∀ a ∈ s.hash, (s.dq a).uid = uid → (s.dq a).mp ≠ some mp)
    (hf : (s.mnt mp).qinod = true) : Good s (s.victim c d uid mp) := by
  have hd := h.dq d
  have hlist : d ∈ s.free ++ s.resv := mem_append_left _ hfree
  have hcnt := (hd.listed.1 hlist).2
  have hw := hd.unwanted hl
  unfold Cache.victim
  rw [if_neg (by simp [hcnt, hl, hw])]
  split_ifs with hm
  · exact h.write (hd.mod hm) hl hm hab nofun fun _ _ _ => hcnt
  · refine h.assign hlist hw (fun c' _ => hd.unused hl c') (fun a ha => ?_) (fun h1 => ?_) hkey hf
      fun m hm' hr => hd.clean (by simpa using hm) hr m hm'
    · rw [hab] at ha
      cases ha
    · rw [Pc.about_of_holds h1] at hab
      cases hab

section

variable [DecidableEq U] [DecidableEq M] {uid : U} {mp : M}

theorem find_none (h : s.find uid mp = none) :
    ∀ a ∈ s.hash, (s.dq a).uid = uid → (s.dq a).mp ≠ some mp := fun a ha h1 h2 => by
  have h3 := find?_eq_none.1 h a ha
  simp [h1, h2] at h3

theorem find_some (h : s.find uid mp = some d) :
    d ∈ s.hash ∧ (s.dq d).uid = uid ∧ (s.dq d).mp = some mp :=
  ⟨mem_of_find?_eq_some h, by simpa using find?_some h⟩

theorem Inv.idle (h : Inv s) (hab : (s.pc c).about = none) {y : Pc Q U M} (hy : y.about = none) :
    Good s (.ok (s.setPc c y)) := by
  refine .inl ⟨_, rfl, ⟨fun d => ?_, h.listed, h.hashed, h.unique, h.enabled⟩, .of_key fun _ => ⟨rfl, rfl⟩⟩
  refine (h.dq d).keep rfl rfl Iff.rfl Iff.rfl (fun _ _ _ => .inl rfl) (fun _ _ => id) fun a => ?_
  by_cases ha : a = c
  · subst ha
    refine .inr ⟨by simp [hab], ?_⟩
    show (update s.pc a y a).about ≠ some d
    rw [update_self, hy]
    nofun
  · exact .inl (update_of_ne ha _ _)

/-- `getdiskquota` from `loop`, by a caller that has nothing. -/
theorem Inv.search (h : Inv s) {force : Bool} (hab : (s.pc c).about = none)
    (hok : SearchOk s uid mp force) : Good s (s.search c uid mp force) := by
  have hab' : ∀ d a, (s.pc c).about = some a → a = d := fun d a ha => by
    rw [hab] at ha
    cases ha
  have hnot : ∀ d, (s.pc c).holds ≠ some d := fun d h1 => by
    rw [Pc.about_of_holds h1] at hab
    cases hab
  unfold Cache.search
  split_ifs with hen hf
  · exact h.idle hab rfl
  · exact .inr (.inr rfl)
  have hen' : (s.mnt mp).enabled = true ∨ force = true := by
    cases h1 : (s.mnt mp).enabled <;> cases h2 : force <;> simp_all
  have hok' := hok hen'
  have hf' : (s.mnt mp).qinod = true := by simpa using hf
  cases hfind : s.find uid mp with
  | some d =>
    rw [hfind] at hok'
    obtain ⟨hin, huid, hmp⟩ := find_some hfind
    have hd := h.dq d
    dsimp only
    by_cases hl : (s.dq d).locked = true
    · rw [if_pos hl]
      refine h.sleep hin hl hok' (fun h1 => ?_) (iff_of_false (hnot d) (by simp)) (hab' d) fun uid' mp' force' hw => ?_
      · rw [Pc.about_of_uses h1] at hab
        cases hab
      · cases hw
        exact ⟨huid, hmp⟩
    · rw [if_neg hl]
      have hl' : (s.dq d).locked = false := by simpa using hl
      have hlists := h.listed
      have hhas : (Pc.has d : Pc Q U M).holds = some d := rfl
      -- off the free list, when nobody holds it
      obtain ⟨F, R, hF, hFn, hFd, hs⟩ : ∃ F R, (∀ a, a ≠ d → (a ∈ F ++ R ↔ a ∈ s.free ++ s.resv)) ∧
          (F ++ R).Nodup ∧ d ∉ F ++ R ∧
          (let s₁ := s.setDq d { s.dq d with locked := true }
           let s₂ := if (s₁.dq d).cnt = 0 then s₁.dqremfree d else s₁
           (s₂.setDq d { s₂.dq d with cnt := (s₂.dq d).cnt + 1 }).setPc c (.has d)) =
          { s with
            dq := Function.update s.dq d { s.dq d with locked := true, cnt := (s.dq d).cnt + 1 }
            free := F
            resv := R
            pc := Function.update s.pc c (.has d) } := by
        by_cases hz : (s.dq d).cnt = 0
        · refine ⟨s.free.erase d, s.resv.erase d, fun a ha => ?_, ?_, fun h1 => ?_, ?_⟩
          · rw [mem_append, mem_append, mem_erase_of_ne ha, mem_erase_of_ne ha]
          · exact List.Nodup.sublist ((erase_sublist).append (erase_sublist)) hlists
          · have h2 := nodup_append.1 hlists
            rcases mem_append.1 h1 with h3 | h3
            · exact ((List.Nodup.mem_erase_iff h2.1).1 h3).1 rfl
            · exact ((List.Nodup.mem_erase_iff h2.2.1).1 h3).1 rfl
          · simp [Cache.setDq, Cache.setPc, Cache.dqremfree, hz]
        · refine ⟨s.free, s.resv, fun _ _ => Iff.rfl, hlists, fun h1 => hz (hd.listed.1 h1).2, ?_⟩
          simp [Cache.setDq, Cache.setPc, hz]
      dsimp only at hs
      rw [hs]
      refine .inl ⟨_, rfl, ?_, .of_update rfl rfl rfl⟩
      refine h.take (y := .has d) (k := (s.dq d).cnt + 1) hin hl' rfl rfl rfl rfl rfl rfl (hab' d) rfl (by simp) ?_
        hF hFn (iff_of_false hFd ?_) (by simp)
      · rw [decide_eq_true hhas, decide_eq_false (hnot d)]
        rfl
      · have h1 : 0 ≤ (s.dq d).cnt := by
          rw [hd.counted]
          exact Int.natCast_nonneg _
        omega
  | none =>
    rw [hfind] at hok'
    have hr := h.refill
    obtain ⟨-, F, R, f, hs⟩ := refill_lists s
    have hab₁ : (s.refill.pc c).about = none := by
      rw [hs]
      exact hab
    have hsame : s.refill.dq = s.dq ∧ s.refill.quotas = s.quotas ∧ s.refill.pc = s.pc := by
      rw [hs]
      exact ⟨rfl, rfl, rfl⟩
    have hgood : ∀ {x}, Good s.refill x → Good s x := fun hx => by
      rcases hx with ⟨s', h1, h2, h3⟩ | hx
      · refine .inl ⟨s', h1, h2, fun d m hm hrd h4 => ?_⟩
        have h5 := h3 d m (by rw [hsame.1]; exact hm) (by rw [hsame.2.2]; exact hrd)
          (by rw [hsame.1]; exact h4)
        rwa [hsame.1] at h5
      · exact .inr hx
    dsimp only
    cases hfree : s.refill.free with
    | nil => exact hgood (hr.idle hab₁ rfl)
    | cons d l =>
      refine hgood (hr.victim (by rw [hfree]; exact mem_cons_self) ?_ hab₁ ?_ ?_)
      · rw [hsame.1]
        exact hok' d (by rw [hfree]; rfl)
      · have hkey := find_none hfind
        rw [hs]
        exact hkey
      · rw [hs]
        exact hf'

/-- `getdiskquota` with new dquots. -/
theorem Inv.grown (h : Inv s) {uid : U} {mp : M} {d₁ d₂ : Q} {gone : Bool} (hc : s.pc c = .growing uid mp)
    (hne : d₁ ≠ d₂) (h₁ : s.made d₁ = false) (h₂ : s.made d₂ = false)
    (hok : gone = false → s.find uid mp = none ∧ (s.mnt mp).qinod = true) :
    Good s (.ok (s.grown c d₁ d₂ gone uid mp)) := by
  have hi₁ := h.insert h₁
  have hm₂ : (s.insert d₁).made d₂ = false := (update_of_ne hne.symm _ _).trans h₂
  have hi := hi₁.insert hm₂
  obtain ⟨s₁, hs₁⟩ : ∃ s₁, s₁ = (s.insert d₁).insert d₂ := ⟨_, rfl⟩
  rw [← hs₁] at hi
  have hpc : s₁.pc = s.pc := by
    rw [hs₁]
    rfl
  have hab : (s₁.pc c).about = none := by
    rw [hpc, hc]
    rfl
  -- what was hashed is as it was, and the new ones are not hashed
  have hold : ∀ a ∈ s.hash, s₁.dq a = s.dq a := fun a ha => by
    have ha₁ : a ≠ d₁ := by
      rintro rfl
      exact Bool.noConfusion (h₁.symm.trans ((h.dq a).made ha))
    have ha₂ : a ≠ d₂ := by
      rintro rfl
      exact Bool.noConfusion (h₂.symm.trans ((h.dq a).made ha))
    rw [hs₁]
    exact (update_of_ne ha₂ _ _).trans (update_of_ne ha₁ _ _)
  have hhash : s₁.hash = s.hash := by
    rw [hs₁]
    rfl
  have hgood : ∀ {x}, Good s₁ x → Good s x := fun hx => by
    rcases hx with ⟨s', h1, h2, h3⟩ | hx
    · refine .inl ⟨s', h1, h2, fun d m hm hrd h4 => ?_⟩
      have h5 : s₁.dq d = s.dq d := hold d ((h.dq d).hashed.2 (by rw [hm]; nofun))
      have h6 := h3 d m (by rw [h5]; exact hm) (by rw [hpc]; exact hrd) (by rw [h5]; exact h4)
      rwa [h5] at h6
    · exact .inr hx
  unfold Cache.grown
  rw [← hs₁]
  cases gone with
  | true => exact hgood (hi.idle hab rfl)
  | false =>
    obtain ⟨hfind, hf⟩ := hok rfl
    have hd₂ : s₁.dq d₂ = { (s.insert d₁).dq d₂ with
        locked := false, want := false, mod := false, cnt := 0, mp := none } := by
      rw [hs₁]
      exact update_self ..
    refine hgood (hi.assign ?_ (by rw [hd₂]) (fun c' _ => (hi.dq d₂).unused (by rw [hd₂]) c') (fun a ha => ?_)
      (fun h3 => ?_) ?_ ?_ fun m hm => ?_)
    · rw [hs₁]
      exact mem_append_left _ mem_cons_self
    · rw [hab] at ha
      cases ha
    · rw [Pc.about_of_holds h3] at hab
      cases hab
    · intro a ha
      rw [hhash] at ha
      rw [hold a ha]
      exact find_none hfind a ha
    · rw [hs₁]
      exact hf
    · rw [hd₂] at hm
      cases hm

/-! ### Runs -/

/-- A step that meets the condition keeps the invariant, if it comes back. -/
theorem Inv.call (h : Inv s) {l : Event P Q U M B} (hen : Enabled s l) (hcond : Cond s l) :
    Good s (call s l) := by
  cases l with
  | get c uid mp force =>
    have hc : s.pc c = .idle := hen
    exact h.search (by rw [hc]; rfl) hcond
  | again c gone =>
    obtain ⟨d, w, hc, hgone⟩ := hen
    show Good s (s.again c gone)
    unfold Cache.again
    rw [hc]
    cases w with
    | get uid mp force =>
      have hab : (s.pc c).about = none := by
        rw [hc]
        rfl
      cases gone with
      | true => exact h.idle hab rfl
      | false => exact h.search hab (hcond d uid mp force hc rfl)
    | lock =>
      refine h.lock (by rw [hc]; rfl) ?_
      rw [hc]
      nofun
    | release => exact h.idle (by rw [hc]; rfl) rfl
  | grown c d₁ d₂ gone =>
    obtain ⟨uid, mp, hc, -, hne, h₁, h₂⟩ := hen
    have h3 := @Inv.grown _ _ _ _ _ _ _ _ _ _ _ _ _ h _ _ _ _ gone hc hne h₁ h₂ (hcond uid mp hc)
    simpa only [Quota.call, hc] using h3
  | copied c =>
    obtain ⟨d, u, hc⟩ := hen
    have h3 := h.copied hc
    simpa only [Quota.call, hc] using h3
  | written c err gone =>
    obtain ⟨d, u, b, hc, hb, -⟩ := hen
    have h1 := hcond d u b hc
    have h3 : Good s (s.written c d u err gone) := by
      cases u with
      | own => exact h.wrote hc nofun h1
      | sync => exact h.wrote hc nofun h1
      | release => exact h.wrote hc nofun h1
      | reuse uid mp =>
        obtain ⟨rfl, rfl, h4, h5⟩ := h1
        exact h.reuse hc (hb rfl) (find_none h4) h5
    simpa only [Quota.call, hc] using h3
  | read c err =>
    obtain ⟨d, hc⟩ := hen
    have h3 : Good s (.ok (s.read c d err)) := by
      cases err with
      | false => exact h.read hc
      | true => exact h.unread hc
    simpa only [Quota.call, hc] using h3
  | put c =>
    obtain ⟨d, hc⟩ := hen
    have h3 := h.put hc
    simpa only [Quota.call, hc] using h3
  | reserve c =>
    obtain ⟨d, hc⟩ := hen
    have h3 := h.reserve hc
    simpa only [Quota.call, hc] using h3
  | unlock c =>
    obtain ⟨d, hc⟩ := hen
    have h3 := h.unlock hc
    simpa only [Quota.call, hc] using h3
  | lock c =>
    obtain ⟨d, hc⟩ := hen
    have h3 : Good s (.ok (s.lock c d)) := h.lock (by rw [hc]; rfl) (by rw [hc]; nofun)
    simpa only [Quota.call, hc] using h3
  | modify c b =>
    obtain ⟨d, hc | hc⟩ := hen
    · have h3 : Good s (.ok (s.modify d b)) := h.modify b (c := c) (by rw [hc]; rfl) (by rw [hc]; nofun)
      simpa only [Quota.call, hc] using h3
    · have h3 : Good s (.ok (s.modify d b)) := h.modify b (c := c) (by rw [hc]; rfl) (by rw [hc]; nofun)
      simpa only [Quota.call, hc] using h3
  | update c =>
    obtain ⟨d, hc, hm⟩ := hen
    have h3 := h.dqupdate hc hm
    simpa only [Quota.call, hc] using h3
  | sync c d =>
    obtain ⟨hc, hin, hm, hl⟩ := hen
    exact h.write hin hl hm (by rw [hc]; rfl) nofun nofun
  | release c d => exact h.release hen.1 hen.2 hcond
  | timeout =>
    refine .inl ⟨_, rfl, ⟨fun d => ?_, h.listed, h.hashed, h.unique, h.enabled⟩, .of_key fun _ => ⟨rfl, rfl⟩⟩
    exact (h.dq d).keep rfl rfl Iff.rfl Iff.rfl (fun _ _ _ => .inl rfl) (fun _ _ => id) fun _ => .inl rfl
  | mnt mp x =>
    refine .inl ⟨_, rfl, ⟨fun d => ?_, h.listed, h.hashed, h.unique, fun m => ?_⟩, .of_key fun _ => ⟨rfl, rfl⟩⟩
    · refine (h.dq d).keep rfl rfl Iff.rfl Iff.rfl (fun _ _ _ => .inl rfl) (fun m hm hf => ?_) fun _ => .inl rfl
      by_cases hmp : m = mp
      · subst hmp
        show (update s.mnt m x m).qinod = true
        rw [update_self]
        by_contra h1
        exact hcond (by simpa using h1) d ((h.dq d).hashed.2 (by rw [hm]; nofun)) hm
      · show (update s.mnt mp x m).qinod = true
        rwa [update_of_ne hmp]
    · show (update s.mnt mp x m).enabled = true → (update s.mnt mp x m).qinod = true
      by_cases hmp : m = mp
      · subst hmp
        rw [update_self]
        exact hen
      · rw [update_of_ne hmp]
        exact h.enabled m
  | extend mp uid =>
    refine .inl ⟨_, rfl, ⟨fun d => ?_, h.listed, h.hashed, h.unique, h.enabled⟩, .of_key fun _ => ⟨rfl, rfl⟩⟩
    refine (h.dq d).keep rfl rfl Iff.rfl Iff.rfl (fun _ m hm => ?_) (fun _ _ => id) fun _ => .inl rfl
    have h1 : s.quotas mp uid = none := hen
    show update s.quotas mp _ m (s.dq d).uid = _ ∨ (_ ∧ update s.quotas mp _ m (s.dq d).uid = _)
    by_cases hmp : m = mp
    · subst hmp
      rw [update_self]
      by_cases hu : (s.dq d).uid = uid
      · rw [hu, update_self]
        exact .inr ⟨h1, rfl⟩
      · rw [update_of_ne hu]
        exact .inl rfl
    · rw [update_of_ne hmp]
      exact .inl rfl

theorem Inv.start (h : Start s) : Inv s := by
  obtain ⟨h0, hhash, hfree, hresv, hpc, hen⟩ := h
  have hno : ∀ (d : Q) {f : Pc Q U M → Option Q}, f .idle = none → ∀ c, f (s.pc c) ≠ some d :=
    fun d f hf c h1 => by
      rw [hpc c, hf] at h1
      cases h1
  refine ⟨fun d => ?_, by rw [hfree, hresv]; exact nodup_nil, by rw [hhash]; exact nodup_nil,
    fun a ha => by simp [hhash] at ha, hen⟩
  obtain ⟨h1, h2, h3, h4, h5, h6⟩ := h0 d
  refine ⟨?_, by simp [h2], fun c hc => absurd hc (hno d rfl c), fun c _ hc => absurd hc (hno d rfl c),
    fun c w hc => ?_, by simp [h3], fun c hc => absurd hc (hno d rfl c), by simp [hhash, h6], by simp [hhash],
    by simp [hfree, hresv, h1], by simp [h4], fun c u b hc => ?_, fun c uid mp b hc => ?_, fun c hc => ?_,
    fun c uid mp hc => ?_, by simp [h6], by simp [h6]⟩
  · rw [h5]
    refine Eq.symm (Int.natCast_eq_zero.2 (Finset.card_eq_zero.2 (Finset.filter_eq_empty_iff.2 fun c _ hc => ?_)))
    exact hno d (f := Pc.holds) rfl c hc
  all_goals
    rw [hpc c] at hc
    cases hc

theorem Inv.kept (h : Inv s) : Kept s := by
  refine ⟨h.unique, fun d => (h.dq d).counted, ⟨h.listed, fun d => (h.dq d).listed⟩, fun d hl => ?_,
    fun c d w hc => ?_⟩
  · obtain ⟨c, hc⟩ := (h.dq d).user hl
    exact ⟨c, hc, fun c' hc' => (h.dq d).one c' c hc' hc⟩
  · obtain ⟨h1, h2, h3⟩ := (h.dq d).asleep c w hc
    exact ⟨h1, h2, fun uid mp force hw => ⟨(h.dq d).about c (by rw [hc]; rfl), h3 uid mp force hw⟩⟩

/-! The reserved list is `dqreserve`'s. -/

theorem unlock_resv (s : Cache P Q U M B) (d : Q) : (s.unlock d).resv = s.resv := by
  unfold Cache.unlock
  dsimp only
  split_ifs <;> rfl

theorem assign_resv (s : Cache P Q U M B) (c : P) (d : Q) (uid : U) (mp : M) :
    (s.assign c d uid mp).resv = s.resv.erase d := by
  unfold Cache.assign
  dsimp only
  split <;> rfl

theorem dqupdate_resv {u : Use U M} (h : s.dqupdate c d u = .ok s') : s'.resv = s.resv := by
  unfold Cache.dqupdate at h
  split at h
  · cases h
  · split_ifs at h
    cases h
    rfl

theorem dqinval_resv (h : s.dqinval c d = .ok s') : s'.resv = s.resv.erase d := by
  unfold Cache.dqinval at h
  split_ifs at h
  cases h
  rfl

theorem victim_resv (h : s.victim c d uid mp = .ok s') (h0 : s.resv = []) : s'.resv = [] := by
  unfold Cache.victim at h
  split_ifs at h
  · exact (dqupdate_resv h).trans h0
  · cases h
    rw [assign_resv, h0]
    rfl

theorem search_resv {force : Bool} (h : s.search c uid mp force = .ok s')
    (h0 : s.resv = []) : s'.resv = [] := by
  have hr : s.refill.resv = [] := by
    unfold Cache.refill
    split_ifs
    · rfl
    · exact h0
  unfold Cache.search at h
  split_ifs at h
  · cases h
    exact h0
  · split at h
    · rename_i d _
      dsimp only at h
      split_ifs at h
      · cases h
        exact h0
      · cases h
        show s.resv.erase d = []
        rw [h0]
        rfl
      · cases h
        exact h0
    · split at h
      · exact victim_resv h hr
      · cases h
        exact hr

/-- No other step puts a dquot on it. -/
theorem call_resv {l : Event P Q U M B} (h : call s l = .ok s') (hl : ∀ c, l ≠ .reserve c)
    (h0 : s.resv = []) : s'.resv = [] := by
  cases l with
  | get c uid mp force => exact search_resv h h0
  | again c gone =>
    change s.again c gone = .ok s' at h
    unfold Cache.again at h
    split at h
    · split_ifs at h
      · cases h
        exact h0
      · exact search_resv h h0
    · cases h
      unfold Cache.lock
      split_ifs <;> exact h0
    · cases h
      exact h0
  | reserve c => exact absurd rfl (hl c)
  | grown c d₁ d₂ gone =>
    simp only [Quota.call] at h
    split at h
    · cases h
      unfold Cache.grown
      dsimp only
      split_ifs
      · exact h0
      · rw [assign_resv]
        show s.resv.erase d₂ = []
        rw [h0]
        rfl
    · cases h
      exact h0
  | copied c =>
    simp only [Quota.call] at h
    split at h
    · cases h
      unfold Cache.copied
      split <;> exact h0
    · cases h
      exact h0
  | written c err gone =>
    simp only [Quota.call] at h
    split at h
    · rename_i d u b _
      obtain ⟨s₁, hs₁, h1⟩ : ∃ s₁, s₁ = (if err then s else s.setDq d { s.dq d with mod := false }) ∧
          s₁.resv = [] := ⟨_, rfl, by split_ifs <;> exact h0⟩
      unfold Cache.written at h
      rw [← hs₁] at h
      cases u with
      | own =>
        cases h
        exact h1
      | sync =>
        cases h
        exact (unlock_resv s₁ d).trans h1
      | release =>
        rw [dqinval_resv (s := s₁) h, h1]
        rfl
      | reuse uid mp =>
        dsimp only at h
        split_ifs at h
        · cases h
          exact h1
        · cases h
          rw [assign_resv, h1]
          rfl
    · cases h
      exact h0
  | read c err =>
    simp only [Quota.call] at h
    split at h
    · cases h
      unfold Cache.read
      dsimp only
      split_ifs
      · exact (unlock_resv _ _).trans h0
      · split <;> exact h0
    · cases h
      exact h0
  | put c =>
    simp only [Quota.call] at h
    split at h
    · unfold Cache.dqput at h
      split_ifs at h
      cases h
      refine (unlock_resv _ _).trans ?_
      split_ifs <;> exact h0
    · cases h
      exact h0
  | unlock c =>
    simp only [Quota.call] at h
    split at h
    · cases h
      exact (unlock_resv _ _).trans h0
    · cases h
      exact h0
  | lock c =>
    simp only [Quota.call] at h
    split at h
    · cases h
      unfold Cache.lock
      split_ifs <;> exact h0
    · cases h
      exact h0
  | modify c b =>
    simp only [Quota.call] at h
    split at h <;> cases h <;> exact h0
  | update c =>
    simp only [Quota.call] at h
    split at h
    · exact (dqupdate_resv h).trans h0
    · cases h
      exact h0
  | sync c d => exact (dqupdate_resv (s := s.setDq d { s.dq d with locked := true }) h).trans h0
  | release c d =>
    change s.release c d = .ok s' at h
    unfold Cache.release at h
    dsimp only at h
    split_ifs at h
    · cases h
      exact h0
    · exact (dqupdate_resv h).trans h0
    · rw [dqinval_resv h]
      show s.resv.erase d = []
      rw [h0]
      rfl
  | timeout =>
    cases h
    exact h0
  | mnt mp x =>
    cases h
    exact h0
  | extend mp uid =>
    cases h
    exact h0

/-- In a run of calls of the kind `K` all of whose steps meet the condition what is to be kept is kept and
what is reused has been saved, with the reserved list empty where `dqreserve` is not called; and of the
panics only those of `dqinval`, and of `getdiskquota` for a quotas file that is not open, can stop it. -/
theorem quota_kept {K : Event P Q U M B → Prop} {x : Except Panic (Cache P Q U M B)}
    (h : (lts.restrict fun x l => K l ∧ ∀ s, x = .ok s → Cond s l).Reach x) :
    (∃ s, x = .ok s ∧ Kept s ∧ ((∀ c, ¬K (.reserve c)) → s.resv = []) ∧
      ∀ l s', Enabled s l → Cond s l → call s l = .ok s' → Saved s s') ∨
    x = .error .dqinval ∨ x = .error .getdiskquota := by
  have hinv : (∃ s, x = .ok s ∧ Inv s ∧ ((∀ c, ¬K (.reserve c)) → s.resv = [])) ∨
      x = .error .dqinval ∨ x = .error .getdiskquota := by
    refine h.inv (I := fun x => (∃ s, x = .ok s ∧ Inv s ∧ ((∀ c, ¬K (.reserve c)) → s.resv = [])) ∨
      x = .error .dqinval ∨ x = .error .getdiskquota) (fun x hx => ?_) fun x l x' _ ih hs => ?_
    · obtain ⟨s, rfl, hs⟩ := hx
      exact .inl ⟨s, rfl, .start hs, fun _ => hs.2.2.2.1⟩
    · obtain ⟨⟨hk, hcond⟩, s, rfl, hen, rfl⟩ := hs
      rcases ih with ⟨s₀, h1, h2, h3⟩ | h1 | h1
      · obtain rfl : s = s₀ := by injection h1
        rcases h2.call hen (hcond s rfl) with ⟨s', h4, h5, -⟩ | h4
        · refine .inl ⟨s', h4, h5, fun hno => call_resv h4 ?_ (h3 hno)⟩
          rintro c rfl
          exact hno c hk
        · exact .inr h4
      · cases h1
      · cases h1
  refine hinv.imp (fun ⟨s, hx, hs, hresv⟩ => ⟨s, hx, hs.kept, hresv, fun l s' hen hcond hcall => ?_⟩) id
  rcases hs.call hen hcond with ⟨s₁, h1, -, h2⟩ | h1 | h1
  · obtain rfl : s₁ = s' := by
      rw [h1] at hcall
      injection hcall
    exact h2
  · rw [h1] at hcall
    cases hcall
  · rw [h1] at hcall
    cases hcall

end

/-- A file system with an empty quotas file. -/
def fresh : Cache Bool ℕ ℕ Unit ℕ where
  dq _ := { locked := false, want := false, mod := false, cnt := 0, uid := 0, mp := none, dqb := 0 }
  made _ := false
  hash := []
  free := []
  resv := []
  dqfree := false
  mnt _ := { mounted := true, qinod := true, enabled := true }
  quotas _ _ := none
  pc _ := .idle

theorem start_fresh : Start fresh :=
  ⟨fun _ => ⟨rfl, rfl, rfl, rfl, rfl, rfl⟩, rfl, rfl, rfl, fun _ => rfl, fun _ _ => rfl⟩

/-- A caller gets the first dquot. -/
theorem quota_kept_first : (∃ s : Cache Bool ℕ ℕ Unit ℕ, .ok s = call (fresh.setPc false (.growing 1 ()))
      (.grown false 0 1 false) ∧ Kept s ∧ s.resv = []) := by
  have h := quota_kept (K := fun l => ∀ c, l ≠ .reserve c)
    (.step (l := .grown false 0 1 false) (.step (l := .get false 1 () false) (.init ⟨fresh, rfl, start_fresh⟩)
      ⟨⟨nofun, fun s hs => by cases hs; exact fun _ => nofun⟩, fresh, rfl, rfl, rfl⟩)
      ⟨⟨nofun, fun s hs => by
        cases hs
        rintro uid mp ⟨⟩ -
        exact ⟨rfl, rfl⟩⟩, fresh.setPc false (.growing 1 ()), rfl,
        ⟨1, (), rfl, nofun, by decide, rfl, rfl⟩, rfl⟩)
  obtain ⟨s, hs, hk, hr, -⟩ | h | h := h
  · exact ⟨s, hs.symm, hk, hr fun c hc => hc c rfl⟩
  · cases h
  · cases h

/-- Two callers that look for the same dquot both make one; and a dquot that is written back at the head of
the free list makes the next caller panic. -/
theorem dquots_twice :
    (∃ s : Cache Bool ℕ ℕ Unit ℕ, lts.Reach (.ok s) ∧ s.hash = [3, 1] ∧ (s.dq 3).uid = (s.dq 1).uid ∧
      (s.dq 3).mp = (s.dq 1).mp ∧ ¬Kept s) ∧
    lts.Reach (.error .diskquota : Except Panic (Cache Bool ℕ ℕ Unit ℕ)) := by
  have h1 : lts.Reach (call fresh (.get false 1 () false)) :=
    .step (l := .get false 1 () false) (.init ⟨fresh, rfl, start_fresh⟩) ⟨fresh, rfl, rfl, rfl⟩
  refine ⟨⟨_, .step (l := .grown true 2 3 false) (.step (l := .grown false 0 1 false)
    (.step (l := .get true 1 () false) h1 ⟨_, rfl, rfl, rfl⟩)
    ⟨_, rfl, ⟨1, (), rfl, nofun, by decide, rfl, rfl⟩, rfl⟩)
    ⟨_, rfl, ⟨1, (), rfl, nofun, by decide, rfl, rfl⟩, rfl⟩, rfl, rfl, rfl, fun h => ?_⟩, ?_⟩
  · exact absurd (h.unique 3 (by decide) 1 (by decide) rfl rfl) (by decide)
  · exact .step (l := .get false 4 () false) (.step (l := .put false) (.step (l := .get true 3 () false)
      (.step (l := .get false 2 () false) (.step (l := .put false) (.step (l := .modify false 5)
      (.step (l := .grown false 0 1 false) h1
      ⟨_, rfl, ⟨1, (), rfl, nofun, by decide, rfl, rfl⟩, rfl⟩) ⟨_, rfl, ⟨1, .inl rfl⟩, rfl⟩)
      ⟨_, rfl, ⟨1, rfl⟩, rfl⟩) ⟨_, rfl, rfl, rfl⟩) ⟨_, rfl, rfl, rfl⟩) ⟨_, rfl, ⟨0, rfl⟩, rfl⟩)
      ⟨_, rfl, rfl, rfl⟩

end Hpux.Quota
