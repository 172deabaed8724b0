import Hpux910.Ufs.QuotaCache

/-!
# The invariant of the quota cache

Every step is about one dquot.  What holds of a dquot is stated one dquot at a time, with what a step leaves
alone of the others.

* `Frame` : what a step about one dquot leaves alone; `unlock_spec` : `DQUNLOCK`.
* `DqInv`, `Inv` : the invariant; `DqInv.keep`, `Inv.frame` : the other dquots.
* `DqInv.own` : the dquot that a step is about, where one caller at most uses it.
* `DqInv.take`, `DqInv.stay`, `DqInv.leave` : locking it, using it, unlocking it.
-/

namespace Hpux.Quota

open Function Cache

variable {P Q U M B : Type} {s s' s'' : Cache P Q U M B} {d d' : Q} {c : P} {y : Pc Q U M}

theorem Pc.about_of_holds (h : y.holds = some d) : y.about = some d := by
  cases y with
  | asleep d' w => cases w <;> simp_all [Pc.holds, Pc.about]
  | woken d' w => cases w <;> simp_all [Pc.holds, Pc.about]
  | writing d' u b => cases u <;> simp_all [Pc.holds, Pc.about]
  | _ => simp_all [Pc.holds, Pc.about]

theorem Pc.about_of_uses (h : y.uses = some d) : y.about = some d := by
  cases y <;> simp_all [Pc.uses, Pc.about]

/-- Whoever is about a dquot holds it, uses it or sleeps on it. -/
theorem Pc.about_cases (h : y.about = some d) :
    y.holds = some d ∨ y.uses = some d ∨ ∃ w, y = .asleep d w := by
  cases y with
  | asleep a w => exact .inr (.inr ⟨w, by rw [Option.some.inj h]⟩)
  | woken a w =>
    cases w with
    | lock => exact .inl h
    | get uid mp force => cases h
    | release => cases h
  | kept a => exact .inl h
  | idle => cases h
  | growing uid mp => cases h
  | writing a u b => exact .inr (.inl h)
  | reading a => exact .inl h
  | has a => exact .inl h

theorem Pc.about_woken {w : Why U M} (h : (Pc.woken d w).about = some d') : d' = d := by
  cases w with
  | lock => exact (Option.some.inj h).symm
  | get uid mp force => cases h
  | release => cases h

/-! ### What a step leaves alone -/

/-- What a step about the dquot `d` leaves alone. -/
structure Frame (s s' : Cache P Q U M B) (d : Q) : Prop where
  dq : ∀ d', d' ≠ d → s'.dq d' = s.dq d'
  made : ∀ d', d' ≠ d → s'.made d' = s.made d'
  hash : ∀ d', d' ≠ d → (d' ∈ s'.hash ↔ d' ∈ s.hash)
  list : ∀ d', d' ≠ d → (d' ∈ s'.free ++ s'.resv ↔ d' ∈ s.free ++ s.resv)
  quotas : ∀ d', d' ≠ d → d' ∈ s.hash → ∀ m, (s.dq d').mp = some m →
    s'.quotas m (s.dq d').uid = s.quotas m (s.dq d').uid
  mnt : s'.mnt = s.mnt
  pc : ∀ c, s'.pc c = s.pc c ∨ ∀ d', d' ≠ d → (s.pc c).about ≠ some d' ∧ (s'.pc c).about ≠ some d'

theorem Frame.trans (h : Frame s s' d) (h' : Frame s' s'' d) : Frame s s'' d := by
  refine ⟨fun a ha => (h'.dq a ha).trans (h.dq a ha), fun a ha => (h'.made a ha).trans (h.made a ha),
    fun a ha => (h'.hash a ha).trans (h.hash a ha), fun a ha => (h'.list a ha).trans (h.list a ha),
    fun a ha hin m hm => ?_, h'.mnt.trans h.mnt, fun c => ?_⟩
  · have h1 := h'.quotas a ha ((h.hash a ha).2 hin) m (by rw [h.dq a ha]; exact hm)
    rw [h.dq a ha] at h1
    exact h1.trans (h.quotas a ha hin m hm)
  · rcases h.pc c with h1 | h1 <;> rcases h'.pc c with h2 | h2
    · exact .inl (h2.trans h1)
    · exact .inr fun a ha => ⟨h1 ▸ (h2 a ha).1, (h2 a ha).2⟩
    · exact .inr fun a ha => ⟨(h1 a ha).1, h2 ▸ (h1 a ha).2⟩
    · exact .inr fun a ha => ⟨(h1 a ha).1, (h2 a ha).2⟩

theorem Frame.setPc [DecidableEq P] (h : ∀ a, (s.pc c).about = some a → a = d)
    (h' : ∀ a, y.about = some a → a = d) : Frame s (s.setPc c y) d := by
  refine ⟨fun _ _ => rfl, fun _ _ => rfl, fun _ _ => Iff.rfl, fun _ _ => Iff.rfl, fun _ _ _ _ _ => rfl, rfl,
    fun a => ?_⟩
  by_cases ha : a = c
  · subst ha
    refine .inr fun b hb => ⟨fun h1 => hb (h b h1), fun h1 => hb (h' b ?_)⟩
    simpa only [Cache.setPc, update_self] using h1
  · exact .inl (update_of_ne ha _ _)

variable [DecidableEq Q]

theorem Frame.setDq (s : Cache P Q U M B) (d : Q) (x : Dquot U M B) : Frame s (s.setDq d x) d :=
  ⟨fun _ ha => update_of_ne ha _ _, fun _ _ => rfl, fun _ _ => Iff.rfl, fun _ _ => Iff.rfl,
    fun _ _ _ _ _ => rfl, rfl, fun _ => .inl rfl⟩

/-- What `DQUNLOCK` does: those that slept on the dquot do so no more. -/
theorem unlock_spec (s : Cache P Q U M B) (d : Q)
    (hs : ∀ c w, s.pc c = .asleep d w → (s.dq d).want = true) :
    (s.unlock d).dq = update s.dq d { s.dq d with locked := false, want := false } ∧
    (s.unlock d).made = s.made ∧ (s.unlock d).hash = s.hash ∧ (s.unlock d).free = s.free ∧
    (s.unlock d).resv = s.resv ∧ (s.unlock d).mnt = s.mnt ∧ (s.unlock d).quotas = s.quotas ∧
    (∀ c, (s.unlock d).pc c = s.pc c ∨ ∃ w, s.pc c = .asleep d w ∧ (s.unlock d).pc c = .woken d w) ∧
    ∀ c w, (s.unlock d).pc c ≠ .asleep d w := by
  unfold Cache.unlock
  dsimp only
  by_cases hw : (s.dq d).want = true
  · have hw' : ((s.setDq d { s.dq d with locked := false }).dq d).want = true := by
      simpa only [Cache.setDq, update_self] using hw
    rw [if_pos hw']
    refine ⟨?_, rfl, rfl, rfl, rfl, rfl, rfl, fun c => ?_, fun c w => ?_⟩
    · simp only [Cache.wakeup, Cache.setDq, update_self, update_idem]
    · simp only [Cache.wakeup, Cache.setDq]
      split
      · rename_i d' w heq
        split_ifs with hd
        · subst hd
          exact .inr ⟨w, heq, rfl⟩
        · exact .inl heq.symm
      · exact .inl rfl
    · simp only [Cache.wakeup, Cache.setDq]
      split
      · split_ifs with hd
        · exact fun h1 => nomatch h1
        · exact fun h1 => hd (by injection h1)
      · rename_i hne
        exact hne d w
  · have hw' : ¬((s.setDq d { s.dq d with locked := false }).dq d).want = true := by
      simpa only [Cache.setDq, update_self] using hw
    rw [if_neg hw']
    refine ⟨?_, rfl, rfl, rfl, rfl, rfl, rfl, fun c => .inl rfl, fun c w h1 => hw (hs c w h1)⟩
    rw [Cache.setDq, show (s.dq d).want = false by simpa using hw]

/-! ### The invariant -/

variable [Zero B] [Fintype P]

/-- What holds of one dquot. -/
structure DqInv (s : Cache P Q U M B) (d : Q) : Prop where
  counted : (s.dq d).cnt = ((Finset.univ.filter fun c => (s.pc c).holds = some d).card : ℤ)
  user : (s.dq d).locked = true → ∃ c, (s.pc c).uses = some d
  inuse : ∀ c, (s.pc c).uses = some d → (s.dq d).locked = true
  one : ∀ c c', (s.pc c).uses = some d → (s.pc c').uses = some d → c = c'
  asleep : ∀ c w, s.pc c = .asleep d w → (s.dq d).locked = true ∧ (s.dq d).want = true ∧
    ∀ uid mp force, w = .get uid mp force → (s.dq d).uid = uid ∧ (s.dq d).mp = some mp
  wanted : (s.dq d).want = true → (s.dq d).locked = true
  about : ∀ c, (s.pc c).about = some d → d ∈ s.hash
  hashed : d ∈ s.hash ↔ (s.dq d).mp ≠ none
  made : d ∈ s.hash → s.made d = true
  listed : d ∈ s.free ++ s.resv ↔ s.made d = true ∧ (s.dq d).cnt = 0
  mod : (s.dq d).mod = true → d ∈ s.hash
  writing : ∀ c u copied, s.pc c = .writing d u copied → (s.dq d).mod = true
  reuse : ∀ c uid mp copied, s.pc c = .writing d (.reuse uid mp) copied →
    (s.dq d).cnt = 0 ∧ (s.dq d).want = false
  read : ∀ c, s.pc c = .reading d → (s.dq d).cnt = 1 ∧ (s.dq d).mod = false
  copied : ∀ c uid mp, s.pc c = .writing d (.reuse uid mp) true →
    ∀ m, (s.dq d).mp = some m → s.quotas m (s.dq d).uid = some (s.dq d).dqb
  clean : (s.dq d).mod = false → (∀ c, s.pc c ≠ .reading d) →
    ∀ m, (s.dq d).mp = some m → (s.quotas m (s.dq d).uid).getD 0 = (s.dq d).dqb
  file : ∀ m, (s.dq d).mp = some m → (s.mnt m).qinod = true

structure Inv (s : Cache P Q U M B) : Prop where
  dq : ∀ d, DqInv s d
  listed : (s.free ++ s.resv).Nodup
  hashed : s.hash.Nodup
  unique : ∀ d ∈ s.hash, ∀ d' ∈ s.hash, (s.dq d).uid = (s.dq d').uid → (s.dq d).mp = (s.dq d').mp → d = d'
  enabled : ∀ mp, (s.mnt mp).enabled = true → (s.mnt mp).qinod = true

/-- A dquot that a step is not about. -/
theorem DqInv.keep (h : DqInv s d) (hdq : s'.dq d = s.dq d) (hmade : s'.made d = s.made d)
    (hhash : d ∈ s'.hash ↔ d ∈ s.hash) (hlist : d ∈ s'.free ++ s'.resv ↔ d ∈ s.free ++ s.resv)
    (hq : d ∈ s.hash → ∀ m, (s.dq d).mp = some m → s'.quotas m (s.dq d).uid = s.quotas m (s.dq d).uid ∨
      (s.quotas m (s.dq d).uid = none ∧ s'.quotas m (s.dq d).uid = some 0))
    (hmnt : ∀ m, (s.dq d).mp = some m → (s.mnt m).qinod = true → (s'.mnt m).qinod = true)
    (hpc : ∀ c, s'.pc c = s.pc c ∨ ((s.pc c).about ≠ some d ∧ (s'.pc c).about ≠ some d)) : DqInv s' d := by
  have hpc' : ∀ c y, Pc.about y = some d → (s'.pc c = y ↔ s.pc c = y) := fun c y hy => by
    rcases hpc c with h1 | ⟨h1, h2⟩
    · rw [h1]
    · exact iff_of_false (fun h3 => h2 (h3 ▸ hy)) fun h3 => h1 (h3 ▸ hy)
  have habout : ∀ c, (s'.pc c).about = some d → s'.pc c = s.pc c := fun c h1 =>
    ((hpc' c (s'.pc c) h1).1 rfl).symm
  have habout' : ∀ c, (s.pc c).about = some d → s'.pc c = s.pc c := fun c h1 =>
    (hpc' c (s.pc c) h1).2 rfl
  have huses : ∀ c, (s'.pc c).uses = some d ↔ (s.pc c).uses = some d := fun c =>
    ⟨fun h1 => by rwa [← habout c (Pc.about_of_uses h1)], fun h1 => by rwa [habout' c (Pc.about_of_uses h1)]⟩
  have hholds : ∀ c, (s'.pc c).holds = some d ↔ (s.pc c).holds = some d := fun c =>
    ⟨fun h1 => by rwa [← habout c (Pc.about_of_holds h1)],
      fun h1 => by rwa [habout' c (Pc.about_of_holds h1)]⟩
  have hin : ∀ m, (s.dq d).mp = some m → d ∈ s.hash := fun m hm =>
    h.hashed.2 (by rw [hm]; exact Option.some_ne_none m)
  refine ⟨?_, ?_, ?_, ?_, ?_, ?_, ?_, ?_, ?_, ?_, ?_, ?_, ?_, ?_, ?_, ?_, ?_⟩
  · rw [hdq, h.counted, card_filter_keep fun c _ => hholds c]
  · rw [hdq]
    exact fun h1 => (h.user h1).imp fun c h2 => (huses c).2 h2
  · rw [hdq]
    exact fun c h1 => h.inuse c ((huses c).1 h1)
  · exact fun c c' h1 h2 => h.one c c' ((huses c).1 h1) ((huses c').1 h2)
  · rw [hdq]
    exact fun c w h1 => h.asleep c w ((hpc' c _ rfl).1 h1)
  · rw [hdq]
    exact h.wanted
  · exact fun c h1 => hhash.2 (h.about c (habout c h1 ▸ h1))
  · rw [hdq, hhash]
    exact h.hashed
  · rw [hmade, hhash]
    exact h.made
  · rw [hlist, hmade, hdq]
    exact h.listed
  · rw [hdq, hhash]
    exact h.mod
  · rw [hdq]
    exact fun c u b h1 => h.writing c u b ((hpc' c _ rfl).1 h1)
  · rw [hdq]
    exact fun c uid mp b h1 => h.reuse c uid mp b ((hpc' c _ rfl).1 h1)
  · rw [hdq]
    exact fun c h1 => h.read c ((hpc' c _ rfl).1 h1)
  · rw [hdq]
    intro c uid mp h1 m hm
    have h2 := h.copied c uid mp ((hpc' c _ rfl).1 h1) m hm
    rcases hq (hin m hm) m hm with h3 | ⟨h3, -⟩
    · rw [h3, h2]
    · rw [h2] at h3
      cases h3
  · rw [hdq]
    intro h1 h2 m hm
    have h3 := h.clean h1 (fun c h3 => h2 c ((hpc' c _ rfl).2 h3)) m hm
    rcases hq (hin m hm) m hm with h4 | ⟨h4, h5⟩
    · rw [h4, h3]
    · rw [← h3, h4, h5]
      rfl
  · rw [hdq]
    exact fun m hm => hmnt m hm (h.file m hm)

theorem DqInv.frame (h : DqInv s d') (hf : Frame s s' d) (hne : d' ≠ d) : DqInv s' d' :=
  h.keep (hf.dq d' hne) (hf.made d' hne) (hf.hash d' hne) (hf.list d' hne)
    (fun hin m hm => .inl (hf.quotas d' hne hin m hm)) (fun _ _ => by rw [hf.mnt]; exact id)
    fun c => (hf.pc c).imp id fun h1 => h1 d' hne

/-- The cache, from the dquot that the step is about. -/
theorem Inv.frame (h : Inv s) (hf : Frame s s' d) (hd : DqInv s' d) (hlist : (s'.free ++ s'.resv).Nodup)
    (hhash : s'.hash.Nodup) (hun : d ∈ s'.hash → ∀ d', d' ≠ d → d' ∈ s.hash → (s.dq d').uid = (s'.dq d).uid →
      (s.dq d').mp ≠ (s'.dq d).mp) : Inv s' := by
  refine ⟨fun a => ?_, hlist, hhash, fun a ha b hb h1 h2 => ?_, by rw [hf.mnt]; exact h.enabled⟩
  · by_cases ha : a = d
    · exact ha ▸ hd
    · exact (h.dq a).frame hf ha
  · by_contra hab
    by_cases had : a = d
    · subst had
      have hba : b ≠ a := fun h3 => hab h3.symm
      rw [hf.dq b hba] at h1 h2
      exact hun ha b hba ((hf.hash b hba).1 hb) h1.symm h2.symm
    · by_cases hbd : b = d
      · subst hbd
        rw [hf.dq a had] at h1 h2
        exact hun hb a had ((hf.hash a had).1 ha) h1 h2
      · rw [hf.dq a had, hf.dq b hbd] at h1 h2
        exact hab (h.unique a ((hf.hash a had).1 ha) b ((hf.hash b hbd).1 hb) h1 h2)

/-! ### The dquot that a step is about -/

theorem DqInv.unused (h : DqInv s d) (hl : (s.dq d).locked = false) (c : P) : (s.pc c).uses ≠ some d :=
  fun h1 => Bool.noConfusion (hl.symm.trans (h.inuse c h1))

theorem DqInv.unwanted (h : DqInv s d) (hl : (s.dq d).locked = false) : (s.dq d).want = false := by
  by_contra h1
  exact Bool.noConfusion (hl.symm.trans (h.wanted (by simpa using h1)))

theorem DqInv.cnt_pos (h : DqInv s d) (hc : (s.pc c).holds = some d) : 0 < (s.dq d).cnt := by
  rw [h.counted]
  exact_mod_cast Finset.card_pos.2 ⟨c, by simp [hc]⟩

theorem DqInv.sole (h : DqInv s d) (hcnt : (s.dq d).cnt = 1) (hc : (s.pc c).holds = some d) {c' : P}
    (hc' : (s.pc c').holds = some d) : c' = c := by
  rw [h.counted] at hcnt
  obtain ⟨a, ha⟩ := Finset.card_eq_one.1 (by exact_mod_cast hcnt)
  have h1 : c ∈ ({a} : Finset P) := ha ▸ by simp [hc]
  have h2 : c' ∈ ({a} : Finset P) := ha ▸ by simp [hc']
  rw [Finset.mem_singleton.1 h1, Finset.mem_singleton.1 h2]

theorem DqInv.alone (h : DqInv s d) (hcnt : (s.dq d).cnt = 0) (hw : (s.dq d).want = false)
    (hno : ∀ c', c' ≠ c → (s.pc c').uses ≠ some d) : ∀ c', c' ≠ c → (s.pc c').about ≠ some d := by
  intro c' hc h1
  rcases Pc.about_cases h1 with h2 | h2 | ⟨w, h2⟩
  · have h3 := h.cnt_pos h2
    omega
  · exact hno c' hc h2
  · exact Bool.noConfusion (hw.symm.trans (h.asleep c' w h2).2.1)

/-- A step of the caller `c` about a dquot that nobody else uses. -/
theorem DqInv.own (h : DqInv s d) {x : Dquot U M B}
    (hno : ∀ c', c' ≠ c → (s.pc c').uses ≠ some d) (hdq : s'.dq d = x) (hy : s'.pc c = y)
    (hpc : ∀ c', c' ≠ c → s'.pc c' = s.pc c' ∨ ∃ w, s.pc c' = .asleep d w ∧ s'.pc c' = .woken d w)
    (hcnt : x.cnt = (s.dq d).cnt +
      ((decide (y.holds = some d)).toNat - (decide ((s.pc c).holds = some d)).toNat : ℤ))
    (hlock : x.locked = true ↔ y.uses = some d) (hya : ∀ w, y ≠ .asleep d w)
    (hsleep : (x.locked = true ∧ x.want = (s.dq d).want ∧ x.uid = (s.dq d).uid ∧ x.mp = (s.dq d).mp) ∨
      (x.want = false ∧ ∀ c' w, s'.pc c' ≠ .asleep d w))
    (habout : d ∈ s'.hash ∨ ∀ c', (s'.pc c').about ≠ some d) (hhash : d ∈ s'.hash ↔ x.mp ≠ none)
    (hmade : d ∈ s'.hash → s'.made d = true)
    (hlist : d ∈ s'.free ++ s'.resv ↔ s'.made d = true ∧ x.cnt = 0) (hmod : x.mod = true → d ∈ s'.hash)
    (hwrite : ∀ u b, y = .writing d u b → x.mod = true ∧ ∀ uid mp, u = .reuse uid mp →
      x.cnt = 0 ∧ x.want = false ∧ (b = true → ∀ m, x.mp = some m → s'.quotas m x.uid = some x.dqb))
    (hread : y = .reading d → x.cnt = 1 ∧ x.mod = false)
    (hclean : x.mod = false → y ≠ .reading d → ∀ m, x.mp = some m → (s'.quotas m x.uid).getD 0 = x.dqb)
    (hfile : ∀ m, x.mp = some m → (s'.mnt m).qinod = true) : DqInv s' d := by
  -- what the others use and hold is as before
  have hholds : ∀ c', c' ≠ c → ((s'.pc c').holds = some d ↔ (s.pc c').holds = some d) := fun c' hc => by
    rcases hpc c' hc with h1 | ⟨w, h1, h2⟩
    · rw [h1]
    · rw [h1, h2]
      cases w <;> rfl
  have huses : ∀ c', (s'.pc c').uses = some d → c' = c := fun c' h1 => by
    by_contra hc
    rcases hpc c' hc with h2 | ⟨w, -, h2⟩
    · exact hno c' hc (h2 ▸ h1)
    · rw [h2] at h1
      cases h1
  have hwriting : ∀ c' u b, s'.pc c' = .writing d u b → y = .writing d u b := fun c' u b h1 => by
    obtain rfl := huses c' (by rw [h1]; rfl)
    exact hy.symm.trans h1
  refine ⟨?_, fun h1 => ?_, fun c' h1 => ?_, fun c₁ c₂ h1 h2 => (huses c₁ h1).trans (huses c₂ h2).symm,
    fun c' w h1 => ?_, fun h1 => ?_, fun c' h1 => ?_, by rw [hdq]; exact hhash, hmade, by rw [hdq]; exact hlist,
    by rw [hdq]; exact hmod, fun c' u b h1 => ?_, fun c' uid mp b h1 => ?_, fun c' h1 => ?_,
    fun c' uid mp h1 => ?_, fun h1 h2 => ?_, by rw [hdq]; exact hfile⟩
  · rw [hdq, hcnt, h.counted, card_filter_except (Finset.mem_univ c) fun c' _ hc => hholds c' hc, hy]
  · rw [hdq] at h1
    exact ⟨c, by rw [hy]; exact hlock.1 h1⟩
  · have h2 := huses c' h1
    subst h2
    rw [hdq]
    exact hlock.2 (hy ▸ h1)
  · rcases hsleep with ⟨h2, h3, h4, h5⟩ | ⟨-, h2⟩
    · by_cases hc : c' = c
      · subst hc
        exact absurd (hy.symm.trans h1) (hya w)
      · rcases hpc c' hc with h6 | ⟨w', -, h6⟩
        · obtain ⟨-, h7, h8⟩ := h.asleep c' w (h6 ▸ h1)
          rw [hdq, h3, h4, h5]
          exact ⟨h2, h7, h8⟩
        · rw [h6] at h1
          cases h1
    · exact absurd h1 (h2 c' w)
  · rw [hdq] at h1 ⊢
    rcases hsleep with ⟨h2, -⟩ | ⟨h2, -⟩
    · exact h2
    · exact Bool.noConfusion (h2.symm.trans h1)
  · rcases habout with h2 | h2
    · exact h2
    · exact absurd h1 (h2 c')
  · rw [hdq]
    exact (hwrite u b (hwriting c' u b h1)).1
  · obtain ⟨h2, h3, -⟩ := (hwrite _ _ (hwriting c' _ b h1)).2 uid mp rfl
    rw [hdq]
    exact ⟨h2, h3⟩
  · obtain rfl := huses c' (by rw [h1]; rfl)
    rw [hdq]
    exact hread (hy.symm.trans h1)
  · rw [hdq]
    exact ((hwrite _ _ (hwriting c' _ true h1)).2 uid mp rfl).2.2 rfl
  · rw [hdq] at h1 ⊢
    exact hclean h1 fun h3 => h2 c (hy.trans h3)

/-- A step of the caller `c` about a hashed dquot that nobody else uses; the dquot stays hashed. -/
theorem Inv.same (h : Inv s) {x : Dquot U M B} (hin : d ∈ s.hash)
    (hdq : s'.dq = update s.dq d x) (hmade : s'.made = s.made) (hhash : s'.hash = s.hash)
    (hmnt : s'.mnt = s.mnt) (hno : ∀ c', c' ≠ c → (s.pc c').uses ≠ some d) (hy : s'.pc c = y)
    (hpc : ∀ c', c' ≠ c → s'.pc c' = s.pc c' ∨ ∃ w, s.pc c' = .asleep d w ∧ s'.pc c' = .woken d w)
    (hab : ∀ a, (s.pc c).about = some a → a = d) (hab' : ∀ a, y.about = some a → a = d)
    (huid : x.uid = (s.dq d).uid) (hmp : x.mp = (s.dq d).mp)
    (hq : ∀ d', d' ≠ d → d' ∈ s.hash → ∀ m, (s.dq d').mp = some m →
      s'.quotas m (s.dq d').uid = s.quotas m (s.dq d').uid) (hcnt : x.cnt = (s.dq d).cnt +
      ((decide (y.holds = some d)).toNat - (decide ((s.pc c).holds = some d)).toNat : ℤ))
    (hlock : x.locked = true ↔ y.uses = some d) (hya : ∀ w, y ≠ .asleep d w) (hyr : y ≠ .reading d)
    (hsleep : (x.locked = true ∧ x.want = (s.dq d).want) ∨
      (x.want = false ∧ ∀ c' w, s'.pc c' ≠ .asleep d w))
    (hF : ∀ a, a ≠ d → (a ∈ s'.free ++ s'.resv ↔ a ∈ s.free ++ s.resv))
    (hFn : (s'.free ++ s'.resv).Nodup) (hFd : d ∈ s'.free ++ s'.resv ↔ x.cnt = 0)
    (hwrite : ∀ u b, y = .writing d u b → x.mod = true ∧ ∀ uid mp, u = .reuse uid mp →
      x.cnt = 0 ∧ x.want = false ∧
        (b = true → ∀ m, (s.dq d).mp = some m → s'.quotas m (s.dq d).uid = some x.dqb))
    (hclean : x.mod = false → ∀ m, (s.dq d).mp = some m → (s'.quotas m (s.dq d).uid).getD 0 = x.dqb) :
    Inv s' := by
  have hd := h.dq d
  have hx : s'.dq d = x := by rw [hdq, update_self]
  have hf : Frame s s' d := by
    refine ⟨fun a ha => by rw [hdq, update_of_ne ha], fun a _ => by rw [hmade], fun a _ => by rw [hhash], hF, hq,
      hmnt, fun a => ?_⟩
    by_cases hc : a = c
    · subst hc
      exact .inr fun b hb => ⟨fun h1 => hb (hab b h1), fun h1 => hb (hab' b (hy ▸ h1))⟩
    · rcases hpc a hc with h1 | ⟨w, h1, h2⟩
      · exact .inl h1
      · refine .inr fun b hb => ⟨fun h3 => ?_, fun h3 => ?_⟩
        · rw [h1] at h3
          exact hb (Option.some.inj h3).symm
        · rw [h2] at h3
          exact hb (Pc.about_woken h3)
  refine h.frame hf ?_ hFn (by rw [hhash]; exact h.hashed) fun _ a ha hain h1 h2 => ?_
  · refine hd.own hno hx hy hpc hcnt hlock hya ?_ (.inl (by rw [hhash]; exact hin)) ?_ ?_ ?_
      (fun _ => by rw [hhash]; exact hin) ?_ (fun h1 => absurd h1 hyr) ?_ ?_
    · exact hsleep.imp (fun h1 => ⟨h1.1, h1.2, huid, hmp⟩) id
    · rw [hhash, hmp]
      exact hd.hashed
    · rw [hhash, hmade]
      exact hd.made
    · rw [hmade, hFd]
      exact ⟨fun h1 => ⟨hd.made hin, h1⟩, And.right⟩
    · rw [huid, hmp]
      exact hwrite
    · rw [huid, hmp]
      exact fun h1 _ => hclean h1
    · rw [hmp, hmnt]
      exact hd.file
  · rw [hx, huid] at h1
    rw [hx, hmp] at h2
    exact ha (h.unique a hain d hin h1 h2)

/-- A caller goes to sleep on a dquot that is in use. -/
theorem DqInv.sleep [DecidableEq P] (h : DqInv s d) {w : Why U M} (hin : d ∈ s.hash)
    (hl : (s.dq d).locked = true) (hre : ¬Reusing s d)
    (hno : (s.pc c).uses ≠ some d) (hholds : (s.pc c).holds = some d ↔ w = .lock)
    (hget : ∀ uid mp force, w = .get uid mp force → (s.dq d).uid = uid ∧ (s.dq d).mp = some mp) :
    DqInv ((s.setDq d { s.dq d with want := true }).setPc c (.asleep d w)) d := by
  have hdq : ((s.setDq d { s.dq d with want := true }).setPc c (.asleep d w)).dq d =
      { s.dq d with want := true } := update_self ..
  have hc : ((s.setDq d { s.dq d with want := true }).setPc c (.asleep d w)).pc c = .asleep d w :=
    update_self ..
  have hne : ∀ c', c' ≠ c →
      ((s.setDq d { s.dq d with want := true }).setPc c (.asleep d w)).pc c' = s.pc c' :=
    fun c' h1 => update_of_ne h1 _ _
  have hpc : ∀ c' y, (∀ w, y ≠ .asleep d w) →
      ((s.setDq d { s.dq d with want := true }).setPc c (.asleep d w)).pc c' = y → c' ≠ c ∧ s.pc c' = y :=
    fun c' y h1 h2 => by
      by_cases h3 : c' = c
      · subst h3
        exact absurd (h2.symm.trans hc) (h1 w)
      · exact ⟨h3, (hne c' h3).symm.trans h2⟩
  have huses : ∀ c', (((s.setDq d { s.dq d with want := true }).setPc c (.asleep d w)).pc c').uses = some d ↔
      (s.pc c').uses = some d := fun c' => by
    by_cases h3 : c' = c
    · subst h3
      rw [hc]
      exact iff_of_false (fun h1 => nomatch h1) hno
    · rw [hne c' h3]
  refine ⟨?_, ?_, ?_, fun c₁ c₂ h1 h2 => h.one c₁ c₂ ((huses c₁).1 h1) ((huses c₂).1 h2), ?_, ?_, fun _ _ => hin,
    ?_, h.made, ?_, ?_, ?_, fun c' uid mp b h1 => ?_, ?_, ?_, ?_, ?_⟩ <;> rw [hdq] <;> dsimp only
  · refine h.counted.trans (congrArg Nat.cast (card_filter_keep fun c' _ => ?_).symm)
    by_cases h3 : c' = c
    · subst h3
      rw [hc, hholds]
      cases w <;> simp [Pc.holds]
    · rw [hne c' h3]
  · exact fun h1 => (h.user h1).imp fun c' => (huses c').2
  · exact fun c' h1 => h.inuse c' ((huses c').1 h1)
  · intro c' w' h1
    refine ⟨hl, rfl, ?_⟩
    by_cases h3 : c' = c
    · subst h3
      rw [hc] at h1
      cases h1
      exact hget
    · rw [hne c' h3] at h1
      exact (h.asleep c' w' h1).2.2
  · exact fun _ => hl
  · exact h.hashed
  · exact h.listed
  · exact h.mod
  · exact fun c' u b h1 => h.writing c' u b (hpc c' _ (by rintro _ ⟨⟩) h1).2
  · exact absurd ⟨c', uid, mp, b, (hpc c' _ (by rintro _ ⟨⟩) h1).2⟩ hre
  · exact fun c' h1 => h.read c' (hpc c' _ (by rintro _ ⟨⟩) h1).2
  · exact fun c' uid mp h1 => h.copied c' uid mp (hpc c' _ (by rintro _ ⟨⟩) h1).2
  · refine fun h1 h2 => h.clean h1 fun c' h4 => h2 c' ?_
    by_cases h3 : c' = c
    · subst h3
      rw [h4] at hno
      exact absurd rfl hno
    · rw [hne c' h3]
      exact h4
  · exact h.file

/-- Somebody who has it counted changes the record. -/
theorem DqInv.modify (h : DqInv s d) (b : B) (hc : (s.pc c).holds = some d) (hr : s.pc c ≠ .reading d) :
    DqInv (s.modify d b) d := by
  have hdq : (s.modify d b).dq d = { s.dq d with mod := true, dqb := b } := update_self ..
  have hre : ∀ c' uid mp copied, s.pc c' ≠ .writing d (.reuse uid mp) copied := fun c' uid mp copied h1 => by
    have h2 := (h.reuse c' uid mp copied h1).1
    have h3 := h.cnt_pos hc
    omega
  refine ⟨?_, ?_, ?_, h.one, ?_, ?_, h.about, ?_, h.made, ?_, fun _ => h.about c (Pc.about_of_holds hc),
    fun _ _ _ _ => ?_, fun c' uid mp copied h1 => absurd h1 (hre c' uid mp copied), ?_,
    fun c' uid mp h1 => absurd h1 (hre c' uid mp true), fun h1 => ?_, ?_⟩ <;> rw [hdq] at * <;> dsimp only
  · exact h.counted
  · exact h.user
  · exact h.inuse
  · exact h.asleep
  · exact h.wanted
  · exact h.hashed
  · exact h.listed
  · intro c' (h1 : s.pc c' = .reading d)
    have h2 := h.sole (h.read c' h1).1 (c := c') (by rw [h1]; rfl) hc
    exact absurd (h2 ▸ h1) hr
  · cases h1
  · exact h.file

end Hpux.Quota
