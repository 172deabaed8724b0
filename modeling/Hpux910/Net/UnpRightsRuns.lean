import Hpux910.Net.UnpGc
import Mathlib

/-!
# References in messages are counted

The references of files in messages are taken before a send can fail and are given back where the
messages go.  A send that fails later does not give them back, and neither does a receive that has no
place for them; and a collection in the middle of a close takes references that the close is about to
give up.  In all other runs the counts are right.

* `Meets` : the steps that keep the counts.
* `Inv` : the counts while calls are in progress; `Inv.work`, `Inv.next`.
* `rights_counted` : the counts in the runs whose steps all meet the condition.
-/

namespace Hpux.Net

open Function List

namespace UnpFiles

variable {n : ℕ} {S : Type} [DecidableEq S] {s s' : UnpFiles n S} {f g : Fin n} {x : S}

/-! ### The condition -/

/-- The message reaches the receive queue of `y`, with its rights. -/
def Delivers (s : UnpFiles n S) (x : S) (m : Message n) (nam : Option (Option S)) : Prop :=
  if s.stream x then s.cantsendmore x = false ∧ ∃ y, s.conn x = some y ∧ s.streamFits y m
  else ∃ y, (nam = none ∧ s.conn x = some y ∨ nam = some (some y) ∧ s.conn x = none) ∧
    s.dgramFits y m

/-- The message with rights is delivered, and no file gets more references than a short can count. -/
def SendMeets (s : UnpFiles n S) (x : S) (fds : Option (List (Option (Fin n)) × ℕ)) (len : ℕ)
    (mem : Bool) (nam : Option (Option S)) : Prop :=
  ∀ l rlen, fds = some (l, rlen) → none ∉ l → l.reduceOption ≠ [] →
    (∀ f, s.fcount f + l.reduceOption.count f ≤ 32767) ∧
    s.Delivers x ⟨l.reduceOption, rlen, len, mem⟩ nam

/-- The steps that keep the counts. -/
def Meets (s : UnpFiles n S) : FilesAct n S → Prop
  | .dup f => s.fcount f < 32767
  | .send x fds len mem nam => s.SendMeets x fds len mem nam
  -- rights that are taken off a queue are externalized
  | .receive x _ how => ∀ r q, s.queue x = r :: q → r = [] ∨ ∃ avail, how = .externalize avail
  -- a collection finds nothing
  | .step => ∀ x rest, s.stack = .soclose x :: rest → s.pcb x = true → s.unpRights ≠ 0 →
      s.unpGcing = false → ∀ f, s.fcount f ≠ 0 → s.Reach f
  | _ => True

/-! ### Sums and folds -/

theorem toShort_eq {z : ℤ} (h : 0 ≤ z) (h1 : z ≤ 32767) : toShort z = z := by
  unfold toShort
  omega

theorem sum_update (m : Fin n → ℤ) (g : Fin n) (v : ℤ) : ∑ f, update m g v f = ∑ f, m f - m g + v := by
  rw [← Finset.add_sum_erase _ _ (Finset.mem_univ g),
    ← Finset.add_sum_erase Finset.univ m (Finset.mem_univ g), update_self]
  have h1 : ∑ f ∈ Finset.univ.erase g, update m g v f = ∑ f ∈ Finset.univ.erase g, m f :=
    Finset.sum_congr rfl fun f hf => update_of_ne (Finset.ne_of_mem_erase hf) _ _
  rw [h1]
  ring

theorem sum_count (l : List (Fin n)) : ∑ f, (l.count f : ℤ) = l.length := by
  induction l with
  | nil => simp
  | cons g l ih => simp [count_cons, Finset.sum_add_distrib, ih]

variable {l : List (Fin n)}

omit [DecidableEq S] in
theorem foldl_takeRef (h : ∀ f, 0 ≤ s.fmsgcount f ∧ s.fmsgcount f ≤ s.fcount f)
    (hl : ∀ f, s.fcount f + l.count f ≤ 32767) : l.foldl takeRef s = { s with
      fcount := fun f => s.fcount f + l.count f
      fmsgcount := fun f => s.fmsgcount f + l.count f
      unpRights := s.unpRights + l.length } := by
  induction l generalizing s with
  | nil => simp
  | cons g l ih =>
    have hg := h g
    have hl1 := hl g
    rw [count_cons_self] at hl1
    push_cast at hl1
    have h1 : s.takeRef g = { s with
        fcount := update s.fcount g (s.fcount g + 1)
        fmsgcount := update s.fmsgcount g (s.fmsgcount g + 1)
        unpRights := s.unpRights + 1 } := by
      unfold takeRef
      rw [toShort_eq (by omega) (by omega), toShort_eq (by omega) (by omega)]
    rw [foldl_cons, h1, ih]
    · congr 1
      · funext f
        dsimp only
        rw [update_apply, count_cons]
        by_cases hf : f = g
        · subst hf
          simp
          ring
        · simp [hf, Ne.symm hf]
      · funext f
        dsimp only
        rw [update_apply, count_cons]
        by_cases hf : f = g
        · subst hf
          simp
          ring
        · simp [hf, Ne.symm hf]
      · simp
        ring
    · intro f
      have := h f
      dsimp only
      rw [update_apply, update_apply]
      split_ifs with hf <;> omega
    · intro f
      have h2 := hl f
      rw [count_cons] at h2
      dsimp only
      rw [update_apply]
      by_cases hf : f = g
      · subst hf
        simp at h2 ⊢
        omega
      · rw [if_neg hf]
        simp [Ne.symm hf] at h2
        exact h2

omit [DecidableEq S] in
theorem foldl_giveDesc (l : List (Fin n)) (s : UnpFiles n S) : l.foldl giveDesc s = { s with
    fmsgcount := fun f => s.fmsgcount f - l.count f
    unpRights := s.unpRights - l.length
    desc := fun f => s.desc f + l.count f } := by
  induction l generalizing s with
  | nil => simp
  | cons g l ih =>
    rw [foldl_cons, ih]
    unfold giveDesc
    congr 1
    · funext f
      dsimp only
      rw [update_apply, count_cons]
      by_cases hf : f = g
      · subst hf
        simp
        ring
      · simp [hf, Ne.symm hf]
    · simp
      ring
    · funext f
      dsimp only
      rw [update_apply, count_cons]
      by_cases hf : f = g
      · subst hf
        simp
        ring
      · simp [hf, Ne.symm hf]

/-! ### The invariant -/

/-- The reference that a call to `closef` has got. -/
def heldTask (f : Fin n) : UnpTask n S → ℤ
  | .closef g => if g = f then 1 else 0
  | .closed g => if g = f then 1 else 0
  | _ => 0

def held (s : UnpFiles n S) (f : Fin n) : ℤ := (s.stack.map (heldTask f)).sum

/-- The calls that the sweep is not made of. -/
def Quiet : UnpTask n S → Prop
  | .sweep _ => False
  | .sweepFile _ _ => False
  | _ => True

variable [Fintype S]

/-- The counts, with the references that calls in progress have got. -/
structure Inv (s : UnpFiles n S) : Prop where
  msgcount : ∀ f, s.fmsgcount f = s.occ f + s.pend f
  count : ∀ f, s.fcount f = s.desc f + s.fmsgcount f + s.held f
  rights : s.unpRights = ∑ f, s.fmsgcount f
  closing : ∀ f, .closed f ∈ s.stack → s.fcount f = 1
  /-- A sweep has found nothing so far, and will find nothing. -/
  sweep : ∀ t rest, s.stack = t :: rest → (∀ t ∈ rest, Quiet t) ∧
    (Quiet t ∨ ∃ l, t = .sweep l ∧ ∀ f ∈ l, s.fcount f ≠ 0 → s.fmark f = true)

omit [DecidableEq S] in
theorem occ_nonneg (s : UnpFiles n S) (f : Fin n) : 0 ≤ s.occ f :=
  Finset.sum_nonneg fun _ _ => Int.natCast_nonneg _

omit [DecidableEq S] [Fintype S] in
theorem pend_nonneg (s : UnpFiles n S) (f : Fin n) : 0 ≤ s.pend f := by
  refine sum_nonneg fun z hz => ?_
  obtain ⟨t, -, rfl⟩ := mem_map.1 hz
  cases t <;> simp [pendTask]

omit [DecidableEq S] [Fintype S] in
theorem heldTask_nonneg (f : Fin n) (t : UnpTask n S) : 0 ≤ heldTask f t := by
  cases t with
  | closef g =>
    simp only [heldTask]
    split_ifs <;> decide
  | closed g =>
    simp only [heldTask]
    split_ifs <;> decide
  | _ => exact le_rfl

omit [DecidableEq S] [Fintype S] in
theorem held_nonneg (s : UnpFiles n S) (f : Fin n) : 0 ≤ s.held f := by
  refine sum_nonneg fun z hz => ?_
  obtain ⟨t, -, rfl⟩ := mem_map.1 hz
  exact heldTask_nonneg f t

omit [DecidableEq S] in
theorem Inv.bounds (h : s.Inv) (f : Fin n) : 0 ≤ s.fmsgcount f ∧ s.fmsgcount f ≤ s.fcount f := by
  have h1 := h.msgcount f
  have h2 := h.count f
  have h3 := s.occ_nonneg f
  have h4 := s.pend_nonneg f
  have h5 := s.held_nonneg f
  omega

omit [DecidableEq S] in
theorem Inv.heldOpen (h : s.Inv) : s.HeldOpen := by
  intro x f hf
  have h1 := hf.occ_pos
  have h2 := h.msgcount f
  have h3 := s.pend_nonneg f
  have h4 := h.bounds f
  omega

/-! ### Calls in progress -/

variable {t : UnpTask n S} {rest w : List (UnpTask n S)}

omit [DecidableEq S] in
/-- A piece of work that changes no counts, but leaves other work to be done. -/
theorem Inv.restack (h : s.Inv) (hst : s.stack = t :: rest) (h1 : s'.fcount = s.fcount)
    (h2 : s'.fmsgcount = s.fmsgcount) (h3 : s'.queue = s.queue) (h4 : s'.desc = s.desc)
    (h5 : s'.unpRights = s.unpRights) (h6 : s'.stack = w ++ rest)
    (hp : ∀ f, (w.map (pendTask f)).sum = pendTask f t)
    (hh : ∀ f, (w.map (heldTask f)).sum = heldTask f t) (hc : ∀ f, .closed f ∈ w → s.fcount f = 1)
    (hsw : ∀ t r, w ++ rest = t :: r → (∀ t ∈ r, Quiet t) ∧
      (Quiet t ∨ ∃ l, t = .sweep l ∧ ∀ f ∈ l, s.fcount f ≠ 0 → s'.fmark f = true)) : s'.Inv := by
  refine ⟨fun f => ?_, fun f => ?_, ?_, fun f hf => ?_, ?_⟩
  · have h7 := h.msgcount f
    simp only [pend, hst, map_cons, sum_cons] at h7
    simp only [occ, pend, h2, h3, h6, map_append, sum_append, hp]
    exact h7
  · have h7 := h.count f
    simp only [held, hst, map_cons, sum_cons] at h7
    simp only [held, h1, h2, h4, h6, map_append, sum_append, hh]
    exact h7
  · rw [h5, h2]
    exact h.rights
  · rw [h1]
    rw [h6] at hf
    rcases mem_append.1 hf with hf | hf
    · exact hc f hf
    · exact h.closing f (hst ▸ mem_cons_of_mem t hf)
  · rw [h6, h1]
    exact hsw

omit [DecidableEq S] [Fintype S] in
theorem quiet_append (hst : ∀ t ∈ w, Quiet t) (hrest : ∀ t ∈ rest, Quiet t) {P : UnpTask n S → Prop} :
    ∀ t r, w ++ rest = t :: r → (∀ t ∈ r, Quiet t) ∧ (Quiet t ∨ P t) := by
  intro t r h
  have h1 : ∀ a ∈ t :: r, Quiet a := by
    intro a ha
    rw [← h] at ha
    exact (mem_append.1 ha).elim (hst a) (hrest a)
  exact ⟨fun a ha => h1 a (mem_cons_of_mem t ha), .inl (h1 t mem_cons_self)⟩

theorem Inv.closef (h : s.Inv) (hst : s.stack = .closef f :: rest)
    (hw : s.work rest (.closef f) = .ok s') : s'.Inv := by
  have hq := (h.sweep _ _ hst).1
  simp only [UnpFiles.work] at hw
  split_ifs at hw with h1 h2
  · cases hw
    refine ⟨fun g => ?_, fun g => ?_, h.rights, fun g hg => ?_, quiet_append (w := []) (by simp) hq⟩
    · have h3 := h.msgcount g
      simp only [pend, hst, map_cons, sum_cons, pendTask, zero_add] at h3
      exact h3
    · have h3 := h.count g
      simp only [held, hst, map_cons, sum_cons, heldTask] at h3
      simp only [held, update_apply]
      by_cases hg : g = f
      · subst hg
        rw [if_pos rfl] at h3 ⊢
        omega
      · rw [if_neg (Ne.symm hg)] at h3
        rw [if_neg hg]
        omega
    · have h3 := h.closing g (hst ▸ mem_cons_of_mem _ hg)
      have hgf : g ≠ f := by
        rintro rfl
        omega
      exact (update_of_ne hgf _ _).trans h3
  · have hc : s.fcount f = 1 := by omega
    cases hx : s.sock f with
    | none =>
      rw [hx] at hw
      cases hw
      refine h.restack (w := [.closed f]) hst rfl rfl rfl rfl rfl rfl (fun _ => rfl) (fun g => ?_)
        (fun g hg => ?_) (quiet_append ?_ hq)
      · simp [heldTask]
      · cases mem_singleton.1 hg
        exact hc
      · simp [Quiet]
    | some x =>
      rw [hx] at hw
      cases hw
      refine h.restack (w := [.soclose x, .closed f]) hst rfl rfl rfl rfl rfl rfl (fun _ => rfl)
        (fun g => ?_) (fun g hg => ?_) (quiet_append ?_ hq)
      · simp [heldTask]
      · simp only [mem_cons, not_mem_nil, or_false, reduceCtorEq, false_or,
          UnpTask.closed.injEq] at hg
        exact hg ▸ hc
      · simp [Quiet]

omit [DecidableEq S] in
/-- The last reference is the one that is given up. -/
theorem Inv.closed (h : s.Inv) (hst : s.stack = .closed f :: rest) : Inv { s with
      sock := update s.sock f none, fcount := update s.fcount f 0, stack := rest } := by
  have hc := h.closing f (hst ▸ mem_cons_self)
  have hcount : ∀ g, s.fcount g = s.desc g + s.fmsgcount g + heldTask g (.closed f : UnpTask n S) +
      (rest.map (heldTask g)).sum := by
    intro g
    have h3 := h.count g
    simp only [held, hst, map_cons, sum_cons] at h3
    omega
  have hrest : ∀ g, 0 ≤ (rest.map (heldTask g)).sum := fun g => held_nonneg { s with stack := rest } g
  have hf := hcount f
  rw [heldTask, if_pos rfl] at hf
  have hf0 := (h.bounds f).1
  have hf1 := hrest f
  refine ⟨fun g => ?_, fun g => ?_, h.rights, fun g hg => ?_,
    quiet_append (w := []) (by simp) (h.sweep _ _ hst).1⟩
  · have h3 := h.msgcount g
    simp only [pend, hst, map_cons, sum_cons, pendTask, zero_add] at h3
    exact h3
  · have h3 := hcount g
    simp only [held, update_apply]
    by_cases hg : g = f
    · subst hg
      rw [if_pos rfl]
      omega
    · rw [heldTask, if_neg (Ne.symm hg)] at h3
      rw [if_neg hg]
      omega
  · have h3 := h.closing g (hst ▸ mem_cons_of_mem _ hg)
    have hgf : g ≠ f := by
      -- it would be closed twice
      rintro rfl
      have h4 : (1 : ℤ) ≤ (rest.map (heldTask g)).sum := by
        refine single_le_sum (fun z hz => ?_) 1 (mem_map.2 ⟨_, hg, ?_⟩)
        · obtain ⟨t, -, rfl⟩ := mem_map.1 hz
          exact heldTask_nonneg g t
        · exact if_pos rfl
      omega
    exact (update_of_ne hgf _ _).trans h3

theorem Inv.sofree (h : s.Inv) (hst : s.stack = .sofree x :: rest) : Inv { s with
    nofdref := update s.nofdref x true
    queue := update s.queue x []
    stack := .dispose (s.queue x).flatten :: rest } := by
  refine ⟨fun g => ?_, fun g => ?_, h.rights, fun g hg => ?_,
    quiet_append (w := [.dispose _]) (by simp [Quiet]) (h.sweep _ _ hst).1⟩
  · have h3 := h.msgcount g
    have h4 := occ_update s x [] g
    simp only [pend, hst, map_cons, sum_cons, pendTask, zero_add] at h3 ⊢
    simp only [occ] at h3 h4 ⊢
    simp only [flatten_nil, count_nil] at h4
    omega
  · have h3 := h.count g
    simp only [held, hst, map_cons, sum_cons, heldTask, zero_add] at h3 ⊢
    exact h3
  · refine h.closing g (hst ▸ mem_cons_of_mem _ ?_)
    exact (mem_cons.1 hg).resolve_left (by simp)

omit [DecidableEq S] in
/-- A reference is given up. -/
theorem Inv.dispose (h : s.Inv) (hst : s.stack = .dispose (f :: l) :: rest) :
    (unpDiscard { s with stack := .dispose l :: rest } f).Inv := by
  refine ⟨fun g => ?_, fun g => ?_, ?_, fun g hg => ?_,
    quiet_append (w := [.closef f, .dispose l]) (by simp [Quiet]) (h.sweep _ _ hst).1⟩
  · have h3 := h.msgcount g
    simp only [pend, hst, map_cons, sum_cons, pendTask, count_cons] at h3
    simp only [unpDiscard, occ, pend, pendTask, map_cons, sum_cons, update_apply, zero_add]
    simp only [occ] at h3
    by_cases hg : g = f
    · subst hg
      simp at h3 ⊢
      omega
    · simp [hg, Ne.symm hg] at h3 ⊢
      omega
  · have h3 := h.count g
    simp only [held, hst, map_cons, sum_cons, heldTask, zero_add] at h3
    simp only [unpDiscard, held, heldTask, map_cons, sum_cons, update_apply, zero_add]
    by_cases hg : g = f
    · subst hg
      simp
      omega
    · simp [hg, Ne.symm hg]
      omega
  · show s.unpRights - 1 = ∑ g, update s.fmsgcount f (s.fmsgcount f - 1) g
    rw [sum_update, h.rights]
    ring
  · refine h.closing g (hst ▸ mem_cons_of_mem _ ?_)
    simpa [unpDiscard] using hg

/-- `unp_detach` of a closed socket: the collection finds nothing. -/
theorem Inv.soclose (h : s.Inv) (hst : s.stack = .soclose x :: rest)
    (hw : s.work rest (.soclose x) = .ok s') (hm : s.Meets .step) : s'.Inv := by
  have hq := (h.sweep _ _ hst).1
  have hfree : ∀ t : UnpFiles n S, t.fcount = s.fcount → t.fmsgcount = s.fmsgcount →
      t.queue = s.queue → t.desc = s.desc → t.unpRights = s.unpRights →
      t.stack = [.sofree x] ++ rest → t.Inv := by
    intro t h1 h2 h3 h4 h5 h6
    exact h.restack hst h1 h2 h3 h4 h5 h6 (fun _ => rfl) (fun _ => rfl) (by simp)
      (quiet_append (by simp [Quiet]) hq)
  simp only [UnpFiles.work] at hw
  split_ifs at hw with hpcb hr
  · have ht := hfree { s with pcb := update s.pcb x false, stack := .sofree x :: rest } rfl rfl rfl rfl
      rfl rfl
    cases hg : s.unpGcing with
    | true =>
      simp only [unpGc, hg, if_true] at hw
      cases hw
      exact hfree _ rfl rfl rfl rfl rfl rfl
    | false =>
      obtain ⟨mark, defer, h1, h2⟩ := unpGc_spec ht.heldOpen hg
      cases h1.symm.trans hw
      have hreach : ∀ f, s.Reach f →
          Reach { s with pcb := update s.pcb x false, stack := .sofree x :: rest } f := by
        intro f hf
        induction hf with
        | root hf => exact .root hf
        | held _ hx hf ih => exact .held ih hx hf
      refine h.restack (w := [.sweep (List.finRange n), .sofree x]) hst rfl rfl rfl rfl rfl rfl
        (fun _ => by simp [pendTask]) (fun _ => by simp [heldTask]) (by simp) fun t r htr => ?_
      obtain ⟨rfl, rfl⟩ := List.cons.inj htr
      refine ⟨?_, .inr ⟨_, rfl, fun f _ hf => (h2 f).2 (hreach f (hm x rest hst hpcb hr hg f hf))⟩⟩
      simpa [Quiet] using hq
  · cases hw
    exact hfree _ rfl rfl rfl rfl rfl rfl
  · cases hw
    exact hfree _ rfl rfl rfl rfl rfl rfl

/-- A sweep that finds nothing goes on. -/
theorem Inv.sweep_step (h : s.Inv) (hst : s.stack = .sweep l :: rest)
    (hw : s.work rest (.sweep l) = .ok s') : s'.Inv := by
  obtain ⟨hq, hl⟩ := h.sweep _ _ hst
  obtain ⟨l, hl1, hl⟩ := hl.resolve_left id
  cases hl1
  cases l with
  | nil =>
    cases hw
    exact h.restack (w := []) hst rfl rfl rfl rfl rfl rfl (fun _ => rfl) (fun _ => rfl)
      (by simp) (quiet_append (by simp) hq)
  | cons f l =>
    simp only [UnpFiles.work] at hw
    split_ifs at hw with h1
    · cases h1.2.2.symm.trans (hl f mem_cons_self h1.1)
    · cases hw
      refine h.restack (w := [.sweep l]) hst rfl rfl rfl rfl rfl rfl (fun _ => rfl) (fun _ => rfl)
        (by simp) fun t r htr => ?_
      obtain ⟨rfl, rfl⟩ := List.cons.inj htr
      exact ⟨hq, .inr ⟨l, rfl, fun g hg => hl g (mem_cons_of_mem f hg)⟩⟩

theorem Inv.step (h : s.Inv) (hm : s.Meets .step) (hstep : s.step = .ok s') : s'.Inv := by
  unfold UnpFiles.step at hstep
  cases hst : s.stack with
  | nil =>
    rw [hst] at hstep
    cases hstep
    exact h
  | cons t rest =>
    rw [hst] at hstep
    cases t with
    | closef f => exact h.closef hst hstep
    | closed f =>
      cases hstep
      exact h.closed hst
    | soclose x => exact h.soclose hst hstep hm
    | sofree x =>
      simp only [UnpFiles.work] at hstep
      split_ifs at hstep
      cases hstep
      exact h.sofree hst
    | dispose l =>
      cases l with
      | nil =>
        cases hstep
        exact h.restack (w := []) hst rfl rfl rfl rfl rfl rfl (fun _ => rfl) (fun _ => rfl)
          (by simp) (quiet_append (by simp) (h.sweep _ _ hst).1)
      | cons f l =>
        cases hstep
        exact h.dispose hst
    | sweep l => exact h.sweep_step hst hstep
    | sweepFile f l => exact ((h.sweep _ _ hst).2.elim id (by rintro ⟨_, ⟨⟩, _⟩)).elim

/-! ### Sending and receiving -/

omit [DecidableEq S] in
/-- A state between calls. -/
theorem Inv.idle (hst : s.stack = []) (h1 : ∀ f, s.fmsgcount f = s.occ f)
    (h2 : ∀ f, s.fcount f = s.desc f + s.fmsgcount f) (h3 : s.unpRights = ∑ f, s.fmsgcount f) :
    s.Inv := by
  refine ⟨fun f => ?_, fun f => ?_, h3, fun f hf => ?_, fun t rest ht => ?_⟩
  · simp only [pend, hst, map_nil, sum_nil, add_zero]
    exact h1 f
  · simp only [held, hst, map_nil, sum_nil, add_zero]
    exact h2 f
  · rw [hst] at hf
    cases hf
  · rw [hst] at ht
    cases ht

omit [DecidableEq S] in
theorem Inv.of_idle (h : s.Inv) (hst : s.stack = []) : (∀ f, s.fmsgcount f = s.occ f) ∧
    (∀ f, s.fcount f = s.desc f + s.fmsgcount f) ∧ s.unpRights = ∑ f, s.fmsgcount f := by
  refine ⟨fun f => ?_, fun f => ?_, h.rights⟩
  · have h1 := h.msgcount f
    simpa only [pend, hst, map_nil, sum_nil, add_zero] using h1
  · have h1 := h.count f
    simpa only [held, hst, map_nil, sum_nil, add_zero] using h1

theorem occ_append (s : UnpFiles n S) (y : S) (r : List (Fin n)) (f : Fin n) :
    (s.append y r).occ f = s.occ f + r.count f := by
  unfold UnpFiles.append
  rw [occ_update]
  simp only [flatten_append, count_append, flatten_singleton]
  push_cast
  ring

theorem Inv.append_nil (h : s.Inv) (hst : s.stack = []) (y : S) : (s.append y []).Inv := by
  obtain ⟨h1, h2, h3⟩ := h.of_idle hst
  refine .idle hst (fun f => ?_) h2 h3
  rw [occ_append, count_nil, Nat.cast_zero, add_zero]
  exact h1 f

variable {nam : Option (Option S)} {o : Option SendError}

/-- What a send does to the counts: nothing, if there are no rights in it. -/
theorem Inv.sendInternalized {b : Bool} {m : Message n}
    (h : s.Inv) (hst : s.stack = []) (hm : m.rights = [])
    (hs : s.sendInternalized x b m nam = .ok (s', o)) : s'.Inv := by
  have happ : ∀ y, (s.append y m.rights).Inv := fun y => by
    rw [hm]
    exact h.append_nil hst y
  have hdgram : ∀ y, (s.sendDgram y m).1.Inv := fun y => by
    unfold sendDgram
    split_ifs
    · exact happ y
    · exact h
  unfold UnpFiles.sendInternalized at hs
  by_cases h1 : s.stream x = true
  · rw [if_pos h1] at hs
    by_cases h2 : s.cantsendmore x = true
    · rw [if_pos h2] at hs
      cases hs
      exact h
    · rw [if_neg h2] at hs
      cases hc : s.conn x with
      | none =>
        rw [hc] at hs
        cases hs
      | some y =>
        rw [hc] at hs
        cases b with
        | true =>
          simp only [if_true, Except.ok.injEq, Prod.mk.injEq] at hs
          rw [← hs.1]
          split_ifs
          · exact happ y
          · exact h
        | false =>
          simp only [Bool.false_eq_true, if_false, Except.ok.injEq, Prod.mk.injEq] at hs
          rw [← hs.1]
          split_ifs
          · exact h.append_nil hst y
          · exact h
  · rw [if_neg h1] at hs
    cases nam with
    | none =>
      cases hc : s.conn x with
      | none =>
        rw [hc] at hs
        cases hs
        exact h
      | some y =>
        rw [hc] at hs
        have h3 := hdgram y
        rw [Except.ok.inj hs] at h3
        exact h3
    | some t =>
      cases hc : s.conn x with
      | none =>
        rw [hc] at hs
        cases t with
        | none =>
          cases hs
          exact h
        | some y =>
          have h3 := hdgram y
          rw [Except.ok.inj hs] at h3
          exact h3
      | some y =>
        rw [hc] at hs
        cases t <;> cases hs <;> exact h

omit [Fintype S] in
/-- The message with rights is put on the queue of its receiver. -/
theorem sendInternalized_delivers {m : Message n}
    (hd : s.Delivers x m nam) (hs : s.sendInternalized x true m nam = .ok (s', o)) :
    ∃ y, s' = s.append y m.rights ∧ o = none := by
  unfold UnpFiles.sendInternalized at hs
  unfold Delivers at hd
  split_ifs at hd with h1
  · obtain ⟨h2, y, h3, h4⟩ := hd
    rw [if_pos h1, h2, if_neg Bool.false_ne_true, h3] at hs
    simp only [if_true, if_pos h4, Except.ok.injEq, Prod.mk.injEq] at hs
    exact ⟨y, hs.1.symm, hs.2.symm⟩
  · obtain ⟨y, ⟨rfl, h2⟩ | ⟨rfl, h2⟩, h3⟩ := hd
    · rw [if_neg h1, h2] at hs
      simp only [sendDgram, if_pos h3, Except.ok.injEq, Prod.mk.injEq] at hs
      exact ⟨y, hs.1.symm, hs.2.symm⟩
    · rw [if_neg h1, h2] at hs
      simp only [sendDgram, if_pos h3, Except.ok.injEq, Prod.mk.injEq] at hs
      exact ⟨y, hs.1.symm, hs.2.symm⟩

theorem Inv.prusend {fds : Option (List (Option (Fin n)) × ℕ)} {len : ℕ} {mem : Bool}
  (h : s.Inv) (hst : s.stack = [])
    (hm : s.SendMeets x fds len mem nam) (hs : s.prusend x fds len mem nam = .ok (s', o)) : s'.Inv := by
  unfold UnpFiles.prusend at hs
  cases fds with
  | none => exact h.sendInternalized hst rfl hs
  | some r =>
    obtain ⟨l, rlen⟩ := r
    dsimp only at hs
    by_cases hnone : none ∈ l
    · rw [if_pos hnone] at hs
      cases hs
      exact h
    rw [if_neg hnone] at hs
    by_cases hl : l.reduceOption = []
    · rw [hl] at hs
      exact h.sendInternalized hst rfl hs
    obtain ⟨h1, h2⟩ := hm l rlen rfl hnone hl
    obtain ⟨h3, h4, h5⟩ := h.of_idle hst
    rw [foldl_takeRef h.bounds h1] at hs
    obtain ⟨y, rfl, -⟩ := sendInternalized_delivers (s := { s with
      fcount := fun f => s.fcount f + l.reduceOption.count f
      fmsgcount := fun f => s.fmsgcount f + l.reduceOption.count f
      unpRights := s.unpRights + l.reduceOption.length }) h2 hs
    refine .idle hst (fun f => ?_) (fun f => ?_) ?_
    · rw [occ_append]
      show s.fmsgcount f + _ = s.occ f + _
      rw [h3]
    · show s.fcount f + _ = s.desc f + (s.fmsgcount f + _)
      rw [h4, add_assoc]
    · show s.unpRights + _ = ∑ f, (s.fmsgcount f + _)
      rw [Finset.sum_add_distrib, sum_count, h5]

/-- Rights are taken off the front of a queue, and the record, or what is left of it, stays or goes. -/
theorem Inv.receive {keep : Bool} {how : Taken} (h : s.Inv) (hst : s.stack = [])
    (hm : s.Meets (.receive x keep how)) : (s.receive x keep how).Inv := by
  obtain ⟨h1, h2, h3⟩ := h.of_idle hst
  unfold UnpFiles.receive
  cases hq : s.queue x with
  | nil => exact h
  | cons r q =>
    have hocc : ∀ f, ({ s with queue := update s.queue x (if keep then [] :: q else q) } :
        UnpFiles n S).occ f = s.occ f - r.count f := by
      intro f
      rw [occ_update, hq]
      cases keep <;> simp <;> ring
    have hlost : r = [] → Inv { s with
        queue := update s.queue x (if keep then [] :: q else q) } := by
      rintro rfl
      refine .idle hst (fun f => ?_) h2 h3
      rw [hocc, count_nil, Nat.cast_zero, sub_zero]
      exact h1 f
    cases how with
    | externalize avail =>
      cases avail with
      | true =>
        dsimp only
        rw [foldl_giveDesc]
        refine .idle hst (fun f => ?_) (fun f => ?_) ?_
        · show s.fmsgcount f - _ = _
          rw [h1]
          exact (hocc f).symm
        · show s.fcount f = ((s.desc f + r.count f : ℕ) : ℤ) + (s.fmsgcount f - r.count f)
          rw [h2]
          push_cast
          ring
        · show s.unpRights - _ = ∑ f, (s.fmsgcount f - _)
          rw [Finset.sum_sub_distrib, sum_count, h3]
      | false =>
        refine ⟨fun f => ?_, fun f => ?_, h3, fun f hf => ?_, 
          @quiet_append _ _ [] [.dispose r] (by simp [Quiet]) (by simp) _⟩
        · have h4 := hocc f
          simp only [occ] at h4
          simp only [occ, pend, pendTask, map_cons, map_nil, sum_cons, sum_nil]
          rw [h4, h1, occ]
          ring
        · simp only [held, heldTask, map_cons, map_nil, sum_cons, sum_nil]
          rw [h2]
          ring
        · simp at hf
    | fault => exact hlost ((hm r q hq).resolve_right (by rintro ⟨_, ⟨⟩⟩))
    | noPlace => exact hlost ((hm r q hq).resolve_right (by rintro ⟨_, ⟨⟩⟩))

/-! ### Runs -/

theorem Inv.next {a : FilesAct n S} (h : s.Inv) (ha : a.Enabled s) (hm : s.Meets a)
    (hn : s.next a = .ok s') : s'.Inv := by
  cases a with
  | falloc f x =>
    obtain ⟨hst, hc, -⟩ := ha
    obtain ⟨h1, h2, h3⟩ := h.of_idle hst
    cases hn
    have hf := h.bounds f
    have h4 := h2 f
    refine .idle hst h1 (fun g => ?_) h3
    show update s.fcount f 1 g = ((update s.desc f 1 g : ℕ) : ℤ) + s.fmsgcount g
    by_cases hg : g = f
    · subst hg
      rw [update_self, update_self]
      omega
    · rw [update_of_ne hg, update_of_ne hg]
      exact h2 g
  | dup f =>
    obtain ⟨hst, -⟩ := ha
    obtain ⟨h1, h2, h3⟩ := h.of_idle hst
    cases hn
    have hf := h.bounds f
    refine .idle hst h1 (fun g => ?_) h3
    show update s.fcount f _ g = ((update s.desc f _ g : ℕ) : ℤ) + s.fmsgcount g
    rw [toShort_eq (by omega) (by exact hm)]
    have h4 := h2 g
    by_cases hg : g = f
    · subst hg
      rw [update_self, update_self]
      push_cast
      omega
    · rw [update_of_ne hg, update_of_ne hg]
      exact h4
  | close f =>
    obtain ⟨hst, hd⟩ := ha
    obtain ⟨h1, h2, h3⟩ := h.of_idle hst
    cases hn
    refine ⟨fun g => ?_, fun g => ?_, h3, fun g hg => ?_, 
      @quiet_append _ _ [] [.closef f] (by simp [Quiet]) (by simp) _⟩
    · simp only [pend, pendTask, map_cons, map_nil, sum_cons, sum_nil, add_zero]
      exact h1 g
    · simp only [held, heldTask, map_cons, map_nil, sum_cons, sum_nil, add_zero]
      have h4 := h2 g
      by_cases hg : g = f
      · subst hg
        rw [update_self, if_pos rfl]
        omega
      · rw [update_of_ne hg, if_neg (Ne.symm hg), add_zero]
        exact h4
    · simp at hg
  | send x fds len mem nam =>
    cases hs : s.prusend x fds len mem nam with
    | error t =>
      rw [UnpFiles.next, hs] at hn
      cases hn
    | ok r =>
      rw [UnpFiles.next, hs] at hn
      cases hn
      exact h.prusend ha.1 hm hs
  | receive x keep how =>
    cases hn
    exact h.receive ha hm
  | flush x =>
    obtain ⟨h1, h2, h3⟩ := h.of_idle ha
    cases hn
    refine ⟨fun f => ?_, fun f => ?_, h3, fun f hf => ?_, 
      @quiet_append _ _ [] [.dispose (s.queue x).flatten] (by simp [Quiet]) (by simp) _⟩
    · have h4 := occ_update s x [] f
      simp only [occ, flatten_nil, count_nil] at h4
      simp only [occ, pend, pendTask, map_cons, map_nil, sum_cons, sum_nil]
      rw [h4, h1, occ]
      push_cast
      ring
    · simp only [held, heldTask, map_cons, map_nil, sum_cons, sum_nil]
      rw [h2]
      ring
    · simp at hf
  | other x conn cantsendmore space =>
    cases hn
    obtain ⟨h1, h2, h3⟩ := h.of_idle ha
    exact .idle ha h1 h2 h3
  | step => exact h.step hm hn

theorem inv_of_reach (h : ((filesLts n S).restrict (Lts.Meeting Meets)).Reach (.ok s)) : s.Inv := by
  refine h.kept rfl (fun s hs => ?_) fun s a s' hs ha hm hn => hs.next ha hm hn
  obtain ⟨h1, h2, h3, -, h4⟩ := hs
  refine .idle h4 (fun f => ?_) (fun f => ?_) ?_
  · rw [(h1 f).2.1, occ]
    simp [h2]
  · rw [(h1 f).1, (h1 f).2.1, (h1 f).2.2.1]
    rfl
  · rw [h3, Finset.sum_eq_zero fun f _ => (h1 f).2.1]

local instance neZero_one : NeZero 1 := ⟨by decide⟩

end UnpFiles

end Hpux.Net
