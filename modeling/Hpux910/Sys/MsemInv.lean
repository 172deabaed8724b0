import Hpux910.Sys.Msem

/-!
# The structures of the waiters

An `msem_info` is in a chain as long as a process waits on it, and `wait_count` counts these
processes.

* `Inv` : the structures, the chains, and the calls that have a structure.
* `Inv.rephase`, `Inv.malloced`, `Inv.join`, `Inv.link`, `Inv.depart`, `Inv.unlink` : what a step
  of `msleep` can do to them.
-/

namespace Hpux

namespace Msem

open Function Finset

variable {s s' : State} {p q a : ℕ} {k : Key} {f g : Frame}

/-- The structure is in a chain, for this semaphore. -/
def State.Linked (s : State) (a : ℕ) (k : Key) : Prop := (∃ h, a ∈ s.hlist h) ∧ s.key a = some k

/-- The processes that wait on a structure. -/
def State.WaitsOn (s : State) (p a : ℕ) : Prop :=
  ∃ f, s.frame p = some f ∧ f.waiting = true ∧ f.iptr = a

/-- What the chains and the calls of `msleep` say. -/
structure Inv (s : State) : Prop where
  nodup : ∀ h, (s.hlist h).Nodup
  linked : ∀ h, ∀ a ∈ s.hlist h, ∃ k, s.key a = some k ∧ msemHash k = h ∧ s.used a = true ∧
    (s.mem k).wanted ≠ 0
  unique : ∀ h, ∀ a ∈ s.hlist h, ∀ a' ∈ s.hlist h, s.key a = s.key a' → a = a'
  /-- `wait_count` counts the waiters. -/
  count : ∀ h, ∀ a ∈ s.hlist h, ∃ W : Finset ℕ, (∀ p, p ∈ W ↔ s.WaitsOn p a) ∧
    W.card = (s.infos a).waitCount ∧ W.Nonempty
  waiting : ∀ p f, s.frame p = some f → f.waiting = true →
    f.iptr ∈ s.hlist (msemHash f.key) ∧ s.key f.iptr = some f.key ∧ f.own = false
  /-- What a call has allocated and not linked is its own. -/
  own : ∀ p f, s.frame p = some f → f.own = true → s.key f.iptr = none ∧ s.used f.iptr = true ∧
    ∀ q g, s.frame q = some g → g.own = true → g.iptr = f.iptr → q = p

/-- What the invariant says of a call is about these variables. -/
def Frame.view (f : Frame) : Key × ℕ × Bool × Bool := (f.key, f.iptr, f.waiting, f.own)

theorem frame_of_view (hv : (s'.frame p).map Frame.view = (s.frame p).map Frame.view)
    (hf : s'.frame p = some f) : ∃ g, s.frame p = some g ∧ g.key = f.key ∧ g.iptr = f.iptr ∧
      g.waiting = f.waiting ∧ g.own = f.own := by
  rw [hf] at hv
  cases hg : s.frame p with
  | none => simp [hg] at hv
  | some g =>
    simp only [hg, Option.map_some, Frame.view, Option.some.injEq, Prod.mk.injEq] at hv
    exact ⟨g, rfl, hv.1.symm, hv.2.1.symm, hv.2.2.1.symm, hv.2.2.2.symm⟩

/-- The invariant is about the words `wanted`, the structures and the calls. -/
theorem Inv.congr (h : Inv s) (hmem : ∀ k, (s.mem k).wanted ≠ 0 → (s'.mem k).wanted ≠ 0)
    (hkey : ∀ a, s'.key a = s.key a) (hcount : ∀ a, (s'.infos a).waitCount = (s.infos a).waitCount)
    (hused : s'.used = s.used) (hhlist : s'.hlist = s.hlist)
    (hframe : ∀ p, (s'.frame p).map Frame.view = (s.frame p).map Frame.view) : Inv s' := by
  have hwaits : ∀ p a, s'.WaitsOn p a ↔ s.WaitsOn p a := fun p a => by
    constructor
    · rintro ⟨f, hf, hw, hi⟩
      obtain ⟨g, hg, -, hgi, hgw, -⟩ := frame_of_view (hframe p) hf
      exact ⟨g, hg, hgw.trans hw, hgi.trans hi⟩
    · rintro ⟨f, hf, hw, hi⟩
      obtain ⟨g, hg, -, hgi, hgw, -⟩ := frame_of_view (hframe p).symm hf
      exact ⟨g, hg, hgw.trans hw, hgi.trans hi⟩
  refine ⟨fun hh => hhlist ▸ h.nodup hh, fun hh a ha => ?_, fun hh a ha a' ha' he => ?_,
    fun hh a ha => ?_, fun p f hf hw => ?_, fun p f hf ho => ?_⟩
  · rw [hhlist] at ha
    obtain ⟨k, hk, hm, hu, hw⟩ := h.linked hh a ha
    exact ⟨k, (hkey a).trans hk, hm, hused ▸ hu, hmem k hw⟩
  · rw [hhlist] at ha ha'
    rw [hkey, hkey] at he
    exact h.unique hh a ha a' ha' he
  · rw [hhlist] at ha
    obtain ⟨W, hW, hc, hne⟩ := h.count hh a ha
    exact ⟨W, fun p => (hW p).trans (hwaits p a).symm, hc.trans (hcount a).symm, hne⟩
  · obtain ⟨g, hg, hgk, hgi, hgw, hgo⟩ := frame_of_view (hframe p) hf
    rw [hhlist, hkey, ← hgk, ← hgi, ← hgo]
    exact h.waiting p g hg (hgw.trans hw)
  · obtain ⟨g, hg, hgk, hgi, hgw, hgo⟩ := frame_of_view (hframe p) hf
    obtain ⟨h1, h2, h3⟩ := h.own p g hg (hgo.trans ho)
    rw [← hgi]
    refine ⟨(hkey _).trans h1, hused ▸ h2, fun q f' hf' ho' he => ?_⟩
    obtain ⟨g', hg', -, hgi', -, hgo'⟩ := frame_of_view (hframe q) hf'
    exact h3 q g' hg' (hgo'.trans ho') (hgi'.trans he)

theorem inv_boot (mem : Key → Msemaphore) : Inv (.boot mem) := by
  refine ⟨fun h => List.nodup_nil, ?_, ?_, ?_, ?_, ?_⟩ <;>
    simp [State.boot, State.frame, Phase.frame]

/-- A chain finds what is linked for the semaphore. -/
theorem Inv.find_iff (h : Inv s) : s.msemFind k = some a ↔ s.Linked a k := by
  constructor
  · intro hf
    exact ⟨⟨_, List.mem_of_find?_eq_some hf⟩, by simpa using List.find?_some hf⟩
  · rintro ⟨⟨hh, ha⟩, hk⟩
    obtain ⟨k', hk', rfl, -, -⟩ := h.linked hh a ha
    obtain rfl : k' = k := Option.some.inj (hk'.symm.trans hk)
    cases hf : s.msemFind k' with
    | none =>
      have := List.find?_eq_none.1 hf a ha
      simp [hk] at this
    | some b =>
      have hb : s.key b = some k' := by simpa using List.find?_some hf
      rw [h.unique _ a ha b (List.mem_of_find?_eq_some hf) (hk.trans hb.symm)]

theorem Inv.find_none (h : Inv s) (hn : s.msemFind k = none) (ha : ∃ h, a ∈ s.hlist h) :
    s.key a ≠ some k := fun hk => by
  have := h.find_iff.2 ⟨ha, hk⟩
  rw [hn] at this
  cases this

theorem Inv.not_linked_own (h : Inv s) (hf : s.frame p = some f) (ho : f.own = true) (hh : BitVec 32) :
    f.iptr ∉ s.hlist hh := fun hmem => by
  obtain ⟨k, hk, -⟩ := h.linked hh _ hmem
  rw [(h.own p f hf ho).1] at hk
  cases hk

/-! ### What the steps do to the calls -/

/-- A call that does not wait goes on, ends or begins; it can free what it has allocated. -/
theorem Inv.rephase (h : Inv s) (hmem : ∀ k, (s.mem k).wanted ≠ 0 → (s'.mem k).wanted ≠ 0)
    (hkey : ∀ a, s'.key a = s.key a) (hcount : ∀ a, (s'.infos a).waitCount = (s.infos a).waitCount)
    (hused : ∀ a, s.used a = true → s'.used a = true ∨
      ∃ f, s.frame p = some f ∧ f.own = true ∧ f.iptr = a) (hhlist : s'.hlist = s.hlist)
    (hframe : ∀ q, q ≠ p → s'.frame q = s.frame q) (hold : ∀ f, s.frame p = some f → f.waiting = false)
    (hnew : ∀ f, s'.frame p = some f → f.waiting = false ∧ f.own = false) : Inv s' := by
  have hwaits : ∀ q a, s'.WaitsOn q a ↔ s.WaitsOn q a := fun q a => by
    by_cases hq : q = p
    · subst hq
      constructor
      · rintro ⟨f, hf, hw, -⟩
        rw [(hnew f hf).1] at hw
        cases hw
      · rintro ⟨f, hf, hw, -⟩
        rw [hold f hf] at hw
        cases hw
    · simp only [State.WaitsOn, hframe q hq]
  have hother : ∀ q f, s'.frame q = some f → f.waiting = true ∨ f.own = true →
      q ≠ p ∧ s.frame q = some f := fun q f hf hor => by
    by_cases hq : q = p
    · subst hq
      obtain ⟨h1, h2⟩ := hnew f hf
      simp [h1, h2] at hor
    · exact ⟨hq, (hframe q hq).symm.trans hf⟩
  refine ⟨fun hh => hhlist ▸ h.nodup hh, fun hh a ha => ?_, fun hh a ha a' ha' he => ?_,
    fun hh a ha => ?_, fun q f hf hw => ?_, fun q f hf ho => ?_⟩
  · rw [hhlist] at ha
    obtain ⟨k, hk, hm, hu, hw⟩ := h.linked hh a ha
    refine ⟨k, (hkey a).trans hk, hm, (hused a hu).resolve_right ?_, hmem k hw⟩
    rintro ⟨f, hf, ho, rfl⟩
    exact h.not_linked_own hf ho hh ha
  · rw [hhlist] at ha ha'
    rw [hkey, hkey] at he
    exact h.unique hh a ha a' ha' he
  · rw [hhlist] at ha
    obtain ⟨W, hW, hc, hne⟩ := h.count hh a ha
    exact ⟨W, fun p => (hW p).trans (hwaits p a).symm, hc.trans (hcount a).symm, hne⟩
  · rw [hhlist, hkey]
    exact h.waiting q f (hother q f hf (.inl hw)).2 hw
  · obtain ⟨hq, hf'⟩ := hother q f hf (.inr ho)
    obtain ⟨h1, h2, h3⟩ := h.own q f hf' ho
    refine ⟨(hkey _).trans h1, (hused _ h2).resolve_right ?_,
      fun r g hg hgo => h3 r g (hother r g hg (.inr hgo)).2 hgo⟩
    rintro ⟨g, hg, hgo, he⟩
    exact hq (h3 p g hg hgo he).symm

/-- A call allocates its structure. -/
theorem Inv.malloced (h : Inv s) (hold : s.frame p = none) (hu : s.used a = false) {x : Msemaphore}
    {nowait : Bool} : Inv (s.malloced p a k nowait x) := by
  have hkey : ∀ b, (s.malloced p a k nowait x).key b = if b = a then none else s.key b := fun b => by
    by_cases hb : b = a
    · subst hb
      simp [State.malloced, State.key, MsemInfo.key, MsemInfo.zero]
    · simp [State.malloced, State.key, hb]
  have hframe : ∀ q, (s.malloced p a k nowait x).frame q =
      if q = p then some ⟨k, nowait, a, false, x, true⟩ else s.frame q := fun q => by
    by_cases hq : q = p
    · subst hq
      simp [State.malloced, State.frame, Phase.frame]
    · simp [State.malloced, State.frame, hq]
  have hne : ∀ hh, ∀ b ∈ s.hlist hh, b ≠ a := fun hh b hb he => by
    obtain ⟨_, _, _, hub, _⟩ := h.linked hh b hb
    rw [he, hu] at hub
    cases hub
  have hwaits : ∀ q b, (s.malloced p a k nowait x).WaitsOn q b ↔ s.WaitsOn q b := fun q b => by
    by_cases hq : q = p
    · subst hq
      simp [State.WaitsOn, hframe, hold]
    · simp [State.WaitsOn, hframe, hq]
  refine ⟨h.nodup, fun hh b hb => ?_, fun hh b hb b' hb' he => ?_, fun hh b hb => ?_,
    fun q f hf hw => ?_, fun q f hf ho => ?_⟩
  · obtain ⟨k', hk, hm, hub, hw⟩ := h.linked hh b hb
    refine ⟨k', ?_, hm, ?_, hw⟩
    · rw [hkey, if_neg (hne hh b hb), hk]
    · simp [State.malloced, update_of_ne (hne hh b hb), hub]
  · rw [hkey, hkey, if_neg (hne hh b hb), if_neg (hne hh b' hb')] at he
    exact h.unique hh b hb b' hb' he
  · obtain ⟨W, hW, hc, hn⟩ := h.count hh b hb
    refine ⟨W, fun q => (hW q).trans (hwaits q b).symm, hc.trans ?_, hn⟩
    simp [State.malloced, update_of_ne (hne hh b hb)]
  · rw [hframe] at hf
    split_ifs at hf with hq
    · cases hf
      cases hw
    · obtain ⟨h1, h2, h3⟩ := h.waiting q f hf hw
      exact ⟨h1, by rw [hkey, if_neg (hne _ _ h1), h2], h3⟩
  · have hown : ∀ r g, s.frame r = some g → g.own = true → g.iptr ≠ a := fun r g hg hgo he => by
      have hr := (h.own r g hg hgo).2.1
      rw [he, hu] at hr
      cases hr
    rw [hframe] at hf
    split_ifs at hf with hq
    · cases hf
      refine ⟨by simp [hkey], by simp [State.malloced], fun r g hg hgo he => ?_⟩
      rw [hframe] at hg
      split_ifs at hg with hr
      · exact hr.trans hq.symm
      · exact absurd he (hown r g hg hgo)
    · have hfa := hown q f hf ho
      obtain ⟨h1, h2, h3⟩ := h.own q f hf ho
      refine ⟨by rw [hkey, if_neg hfa, h1], ?_, fun r g hg hgo he => ?_⟩
      · simp [State.malloced, update_of_ne hfa, h2]
      · rw [hframe] at hg
        split_ifs at hg with hr
        · cases hg
          exact absurd he.symm hfa
        · exact h3 r g hg hgo he

/-- A call begins to wait on a structure that is linked. -/
theorem Inv.join (h : Inv s) (hf : s.frame p = some f) (hw : f.waiting = false)
    (hl : s.Linked f.iptr f.key) (hmem : ∀ k, (s.mem k).wanted ≠ 0 → (s'.mem k).wanted ≠ 0)
    (hkey : ∀ a, s'.key a = s.key a) (hcount : ∀ a, (s'.infos a).waitCount =
      if a = f.iptr then (s.infos a).waitCount + 1 else (s.infos a).waitCount)
    (hused : s'.used = s.used) (hhlist : s'.hlist = s.hlist)
    (hg : g.key = f.key ∧ g.iptr = f.iptr ∧ g.waiting = true ∧ g.own = false)
    (hframe : ∀ q, s'.frame q = if q = p then some g else s.frame q) : Inv s' := by
  obtain ⟨hgk, hgi, hgw, hgo⟩ := hg
  have hnot : ∀ a, ¬s.WaitsOn p a := by
    rintro a ⟨f', hf', hw', -⟩
    obtain rfl : f = f' := Option.some.inj (hf.symm.trans hf')
    rw [hw] at hw'
    cases hw'
  have hwaits : ∀ q a, s'.WaitsOn q a ↔ s.WaitsOn q a ∨ q = p ∧ a = f.iptr := fun q a => by
    by_cases hq : q = p
    · subst hq
      simp only [State.WaitsOn, hframe, if_true, Option.some.injEq, exists_eq_left', hgw, true_and]
      rw [hgi]
      exact ⟨fun e => .inr e.symm, fun e => (e.resolve_left (hnot a)).symm⟩
    · simp [State.WaitsOn, hframe, hq]
  refine ⟨fun hh => hhlist ▸ h.nodup hh, fun hh a ha => ?_, fun hh a ha a' ha' he => ?_,
    fun hh a ha => ?_, fun q f' hf' hw' => ?_, fun q f' hf' ho => ?_⟩
  · rw [hhlist] at ha
    obtain ⟨k, hk, hm, hu, hw⟩ := h.linked hh a ha
    exact ⟨k, (hkey a).trans hk, hm, hused ▸ hu, hmem k hw⟩
  · rw [hhlist] at ha ha'
    rw [hkey, hkey] at he
    exact h.unique hh a ha a' ha' he
  · rw [hhlist] at ha
    obtain ⟨W, hW, hc, hne⟩ := h.count hh a ha
    by_cases hfa : a = f.iptr
    · have hpW : p ∉ W := fun hp => hnot a ((hW p).1 hp)
      refine ⟨insert p W, fun q => ?_, ?_, insert_nonempty p W⟩
      · rw [mem_insert, hW, hwaits, or_comm]
        simp [hfa]
      · rw [card_insert_of_notMem hpW, hcount, if_pos hfa, hc]
    · refine ⟨W, fun q => ?_, ?_, hne⟩
      · rw [hW, hwaits]
        simp [hfa]
      · rw [hcount, if_neg hfa, hc]
  · rw [hframe] at hf'
    rw [hhlist, hkey]
    split_ifs at hf' with hq
    · cases hf'
      obtain ⟨⟨hh, ha⟩, hk⟩ := hl
      obtain ⟨k', hk', rfl, -, -⟩ := h.linked hh _ ha
      obtain rfl : k' = f.key := Option.some.inj (hk'.symm.trans hk)
      rw [hgk, hgi]
      exact ⟨ha, hk, hgo⟩
    · exact h.waiting q f' hf' hw'
  · rw [hframe] at hf'
    split_ifs at hf' with hq
    · cases hf'
      rw [hgo] at ho
      cases ho
    · obtain ⟨h1, h2, h3⟩ := h.own q f' hf' ho
      refine ⟨(hkey _).trans h1, hused ▸ h2, fun r g' hg' hgo' he => ?_⟩
      rw [hframe] at hg'
      split_ifs at hg' with hr
      · cases hg'
        rw [hgo] at hgo'
        cases hgo'
      · exact h3 r g' hg' hgo' he

/-- A call links its structure, and begins to wait. -/
theorem Inv.link (h : Inv s) (hf : s.frame p = some f) (ho : f.own = true)
    (hw : f.waiting = false) (hfind : s.msemFind f.key = none)
    (hmem : ∀ k, (s.mem k).wanted ≠ 0 → (s'.mem k).wanted ≠ 0) (hwanted : (s'.mem f.key).wanted ≠ 0)
    (hkey : ∀ a, s'.key a = if a = f.iptr then some f.key else s.key a)
    (hcount : ∀ a, (s'.infos a).waitCount = if a = f.iptr then 1 else (s.infos a).waitCount)
    (hused : s'.used = s.used) (hhlist : s'.hlist = Function.update s.hlist (msemHash f.key)
      (f.iptr :: s.hlist (msemHash f.key)))
    (hg : g.key = f.key ∧ g.iptr = f.iptr ∧ g.waiting = true ∧ g.own = false)
    (hframe : ∀ q, s'.frame q = if q = p then some g else s.frame q) : Inv s' := by
  obtain ⟨hgk, hgi, hgw, hgo⟩ := hg
  have hnew := h.not_linked_own hf ho
  have hne : ∀ hh, ∀ a ∈ s.hlist hh, a ≠ f.iptr := fun hh a ha he => hnew hh (he ▸ ha)
  have hmem_iff : ∀ hh a, a ∈ s'.hlist hh ↔
      a ∈ s.hlist hh ∨ a = f.iptr ∧ hh = msemHash f.key := fun hh a => by
    rw [hhlist]
    by_cases he : hh = msemHash f.key
    · subst he
      simp [or_comm]
    · simp [he]
  have hnot : ∀ a, ¬s.WaitsOn p a := by
    rintro a ⟨f', hf', hw', -⟩
    obtain rfl : f = f' := Option.some.inj (hf.symm.trans hf')
    rw [hw] at hw'
    cases hw'
  have hnotiptr : ∀ q, ¬s.WaitsOn q f.iptr := by
    rintro q ⟨f', hf', hw', he⟩
    exact hnew _ (he ▸ (h.waiting q f' hf' hw').1)
  have hwaits : ∀ q a, s'.WaitsOn q a ↔ s.WaitsOn q a ∨ q = p ∧ a = f.iptr := fun q a => by
    by_cases hq : q = p
    · subst hq
      simp only [State.WaitsOn, hframe, if_true, Option.some.injEq, exists_eq_left', hgw, true_and]
      rw [hgi]
      exact ⟨fun e => .inr e.symm, fun e => (e.resolve_left (hnot a)).symm⟩
    · simp [State.WaitsOn, hframe, hq]
  refine ⟨fun hh => ?_, fun hh a ha => ?_, fun hh a ha a' ha' he => ?_,
    fun hh a ha => ?_, fun q f' hf' hw' => ?_, fun q f' hf' ho' => ?_⟩
  · rw [hhlist]
    by_cases he : hh = msemHash f.key
    · subst he
      rw [update_self]
      exact List.nodup_cons.2 ⟨hnew _, h.nodup _⟩
    · rw [update_of_ne he]
      exact h.nodup hh
  · obtain ha | ⟨rfl, rfl⟩ := (hmem_iff hh a).1 ha
    · obtain ⟨k, hk, hm, hu, hwk⟩ := h.linked hh a ha
      exact ⟨k, by rw [hkey, if_neg (hne hh a ha), hk], hm, hused ▸ hu, hmem k hwk⟩
    · exact ⟨f.key, by simp [hkey], rfl, hused ▸ (h.own p f hf ho).2.1, hwanted⟩
  · have hfree : ∀ hh, ∀ a ∈ s.hlist hh, s.key a ≠ some f.key := fun hh a ha =>
      h.find_none hfind ⟨hh, ha⟩
    rw [hkey, hkey] at he
    obtain ha | ⟨rfl, rfl⟩ := (hmem_iff hh a).1 ha
    · rw [if_neg (hne hh a ha)] at he
      obtain ha' | ⟨rfl, rfl⟩ := (hmem_iff hh a').1 ha'
      · rw [if_neg (hne hh a' ha')] at he
        exact h.unique hh a ha a' ha' he
      · rw [if_pos rfl] at he
        exact absurd he (hfree _ a ha)
    · rw [if_pos rfl] at he
      obtain ha' | ⟨rfl, -⟩ := (hmem_iff _ a').1 ha'
      · rw [if_neg (hne _ a' ha')] at he
        exact absurd he.symm (hfree _ a' ha')
      · rfl
  · obtain ha | ⟨rfl, rfl⟩ := (hmem_iff hh a).1 ha
    · obtain ⟨W, hW, hc, hn⟩ := h.count hh a ha
      refine ⟨W, fun q => ?_, ?_, hn⟩
      · rw [hW, hwaits]
        simp [hne hh a ha]
      · rw [hcount, if_neg (hne hh a ha), hc]
    · refine ⟨{p}, fun q => ?_, by simp [hcount], singleton_nonempty p⟩
      rw [mem_singleton, hwaits]
      simp [hnotiptr]
  · rw [hframe] at hf'
    split_ifs at hf' with hq
    · cases hf'
      rw [hgk, hgi]
      exact ⟨(hmem_iff _ _).2 (.inr ⟨rfl, rfl⟩), by simp [hkey], hgo⟩
    · obtain ⟨h1, h2, h3⟩ := h.waiting q f' hf' hw'
      exact ⟨(hmem_iff _ _).2 (.inl h1), by rw [hkey, if_neg (hne _ _ h1), h2], h3⟩
  · rw [hframe] at hf'
    split_ifs at hf' with hq
    · cases hf'
      rw [hgo] at ho'
      cases ho'
    · obtain ⟨h1, h2, h3⟩ := h.own q f' hf' ho'
      have hfa : f'.iptr ≠ f.iptr := fun he => hq (h3 p f hf ho he.symm).symm
      refine ⟨by rw [hkey, if_neg hfa, h1], hused ▸ h2, fun r g' hg' hgo' he => ?_⟩
      rw [hframe] at hg'
      split_ifs at hg' with hr
      · cases hg'
        rw [hgo] at hgo'
        cases hgo'
      · exact h3 r g' hg' hgo' he

/-- A waiter leaves, and others stay. -/
theorem Inv.depart (h : Inv s) (hf : s.frame p = some f) (hw : f.waiting = true)
    (hc1 : (s.infos f.iptr).waitCount ≠ 1) (hmem : ∀ k, (s.mem k).wanted ≠ 0 → (s'.mem k).wanted ≠ 0)
    (hkey : ∀ a, s'.key a = s.key a) (hcount : ∀ a, (s'.infos a).waitCount =
      if a = f.iptr then (s.infos a).waitCount - 1 else (s.infos a).waitCount)
    (hused : s'.used = s.used) (hhlist : s'.hlist = s.hlist)
    (hframe : ∀ q, s'.frame q = if q = p then none else s.frame q) : Inv s' := by
  have hwaits : ∀ q a, s'.WaitsOn q a ↔ q ≠ p ∧ s.WaitsOn q a := fun q a => by
    by_cases hq : q = p
    · subst hq
      simp [State.WaitsOn, hframe]
    · simp [State.WaitsOn, hframe, hq]
  have hon : ∀ a, s.WaitsOn p a → a = f.iptr := by
    rintro a ⟨f', hf', -, rfl⟩
    rw [Option.some.inj (hf.symm.trans hf')]
  refine ⟨fun hh => hhlist ▸ h.nodup hh, fun hh a ha => ?_, fun hh a ha a' ha' he => ?_,
    fun hh a ha => ?_, fun q f' hf' hw' => ?_, fun q f' hf' ho => ?_⟩
  · rw [hhlist] at ha
    obtain ⟨k, hk, hm, hu, hw⟩ := h.linked hh a ha
    exact ⟨k, (hkey a).trans hk, hm, hused ▸ hu, hmem k hw⟩
  · rw [hhlist] at ha ha'
    rw [hkey, hkey] at he
    exact h.unique hh a ha a' ha' he
  · rw [hhlist] at ha
    obtain ⟨W, hW, hc, hn⟩ := h.count hh a ha
    by_cases hfa : a = f.iptr
    · subst hfa
      have hpW : p ∈ W := (hW p).2 ⟨f, hf, hw, rfl⟩
      have hcard := card_erase_of_mem hpW
      refine ⟨W.erase p, fun q => ?_, ?_, ?_⟩
      · rw [mem_erase, hW, hwaits]
      · rw [hcard, hcount, if_pos rfl, hc]
      · rw [← card_pos, hcard]
        have := card_pos.2 hn
        omega
    · refine ⟨W, fun q => ?_, ?_, hn⟩
      · rw [hW, hwaits]
        exact ⟨fun hq => ⟨fun he => hfa (hon a (he ▸ hq)), hq⟩, And.right⟩
      · rw [hcount, if_neg hfa, hc]
  · rw [hframe] at hf'
    split_ifs at hf' with hq
    rw [hhlist, hkey]
    exact h.waiting q f' hf' hw'
  · rw [hframe] at hf'
    split_ifs at hf' with hq
    obtain ⟨h1, h2, h3⟩ := h.own q f' hf' ho
    refine ⟨(hkey _).trans h1, hused ▸ h2, fun r g hg hgo he => ?_⟩
    rw [hframe] at hg
    split_ifs at hg
    exact h3 r g hg hgo he

/-- The last waiter leaves; it takes the structure out of its chain and frees it. -/
theorem Inv.unlink (h : Inv s) (hf : s.frame p = some f) (hw : f.waiting = true)
    (hc1 : (s.infos f.iptr).waitCount = 1) (hmem : ∀ k, (s.mem k).wanted ≠ 0 → (s'.mem k).wanted ≠ 0)
    (hkey : ∀ a, s'.key a = s.key a)
    (hcount : ∀ a, a ≠ f.iptr → (s'.infos a).waitCount = (s.infos a).waitCount)
    (hused : s'.used = Function.update s.used f.iptr false)
    (hhlist : s'.hlist = Function.update s.hlist (msemHash f.key)
      ((s.hlist (msemHash f.key)).erase f.iptr))
    (hframe : ∀ q, s'.frame q = if q = p then none else s.frame q) : Inv s' := by
  obtain ⟨hin, hkf, -⟩ := h.waiting p f hf hw
  have hmem_iff : ∀ hh a, a ∈ s'.hlist hh ↔ a ≠ f.iptr ∧ a ∈ s.hlist hh := fun hh a => by
    rw [hhlist]
    by_cases he : hh = msemHash f.key
    · subst he
      rw [update_self, (h.nodup _).mem_erase_iff]
    · rw [update_of_ne he]
      refine ⟨fun ha => ⟨?_, ha⟩, And.right⟩
      rintro rfl
      obtain ⟨k, hk, hm, -⟩ := h.linked hh _ ha
      obtain rfl := Option.some.inj (hk.symm.trans hkf)
      exact he hm.symm
  -- it was the only one
  have honly : ∀ q, s.WaitsOn q f.iptr → q = p := fun q hq => by
    obtain ⟨W, hW, hc, -⟩ := h.count _ _ hin
    rw [hc1] at hc
    exact card_le_one.1 hc.le q ((hW q).2 hq) p ((hW p).2 ⟨f, hf, hw, rfl⟩)
  have hwaits : ∀ q a, a ≠ f.iptr → (s'.WaitsOn q a ↔ s.WaitsOn q a) := fun q a hfa => by
    by_cases hq : q = p
    · subst hq
      simp only [State.WaitsOn, hframe, if_true, hf, Option.some.injEq, exists_eq_left']
      simp [Ne.symm hfa]
    · simp [State.WaitsOn, hframe, hq]
  refine ⟨fun hh => ?_, fun hh a ha => ?_, fun hh a ha a' ha' he => ?_,
    fun hh a ha => ?_, fun q f' hf' hw' => ?_, fun q f' hf' ho => ?_⟩
  · rw [hhlist]
    by_cases he : hh = msemHash f.key
    · subst he
      rw [update_self]
      exact (h.nodup _).erase _
    · rw [update_of_ne he]
      exact h.nodup hh
  · obtain ⟨hne, ha⟩ := (hmem_iff hh a).1 ha
    obtain ⟨k, hk, hm, hu, hw⟩ := h.linked hh a ha
    exact ⟨k, (hkey a).trans hk, hm, by rw [hused, update_of_ne hne, hu], hmem k hw⟩
  · rw [hkey, hkey] at he
    exact h.unique hh a ((hmem_iff hh a).1 ha).2 a' ((hmem_iff hh a').1 ha').2 he
  · obtain ⟨hne, ha⟩ := (hmem_iff hh a).1 ha
    obtain ⟨W, hW, hc, hn⟩ := h.count hh a ha
    exact ⟨W, fun q => (hW q).trans (hwaits q a hne).symm, hc.trans (hcount a hne).symm, hn⟩
  · rw [hframe] at hf'
    split_ifs at hf' with hq
    obtain ⟨h1, h2, h3⟩ := h.waiting q f' hf' hw'
    refine ⟨(hmem_iff _ _).2 ⟨fun he => hq (honly q ⟨f', hf', hw', he⟩), h1⟩, ?_, h3⟩
    rw [hkey, h2]
  · rw [hframe] at hf'
    split_ifs at hf' with hq
    obtain ⟨h1, h2, h3⟩ := h.own q f' hf' ho
    have hne : f'.iptr ≠ f.iptr := fun he => h.not_linked_own hf' ho _ (he ▸ hin)
    refine ⟨(hkey _).trans h1, by rw [hused, update_of_ne hne, h2],
      fun r g hg hgo he => ?_⟩
    rw [hframe] at hg
    split_ifs at hg
    exact h3 r g hg hgo he

/-- `wanted` is cleared when no structure is linked for the semaphore. -/
theorem Inv.setMem (h : Inv s) {m : Msemaphore}
    (hk : (s.mem k).wanted ≠ 0 → m.wanted = 0 → s.msemFind k = none) : Inv (s.setMem k m) := by
  refine ⟨h.nodup, fun hh a ha => ?_, h.unique, h.count, h.waiting, h.own⟩
  obtain ⟨k', hk', hm, hu, hw⟩ := h.linked hh a ha
  refine ⟨k', hk', hm, hu, ?_⟩
  by_cases he : k' = k
  · subst he
    intro hz
    simp only [State.setMem, update_self] at hz
    exact h.find_none (hk hw hz) ⟨hh, ha⟩ hk'
  · simpa [State.setMem, update_of_ne he] using hw

end Msem

end Hpux
