import Mathlib

/-!
# Following pointers

A partial function `next` is a graph in which every node has at most one successor: who waits for
whom, which entry follows which.  A kernel loop that follows such pointers ends only because the
graph has no cycle.

* `Chase.Acyclic next` : no node reaches itself.
* `Chase.Acyclic.update` : adding an edge `p → y` keeps the graph acyclic if `y` does not reach `p`.
* `Chase.Acyclic.of_sub` : so does dropping edges or redirecting them to nodes without successor.
* `Chase.chase_spec` : on an acyclic graph with finitely many edges the loop that looks for a
  target ends, and finds the target exactly when it can be reached.
-/

namespace Hpux

namespace Chase

open Relation Function Finset

variable {α : Type*}

/-- The edges of the graph. -/
def Edge (next : α → Option α) (x y : α) : Prop := next x = some y

/-- No node reaches itself. -/
def Acyclic (next : α → Option α) : Prop := ∀ x, ¬ TransGen (Edge next) x x

section Acyclic

variable {next next' : α → Option α}

/-- A cycle can be entered at any node it reaches. -/
theorem rotate {x y : α} (hx : TransGen (Edge next) x x) (h : ReflTransGen (Edge next) x y) :
    TransGen (Edge next) y y := by
  induction h with
  | refl => exact hx
  | @tail y z _ hyz ih =>
    obtain ⟨z', hz', hback⟩ := TransGen.head'_iff.1 ih
    obtain rfl : z' = z := Option.some.inj (hz'.symm.trans hyz)
    exact TransGen.tail' hback hyz

/-- Dropping edges, or redirecting them to nodes without successor, closes no cycle. -/
theorem Acyclic.of_sub (h : Acyclic next)
    (hsub : ∀ x y, next' x = some y → next x = some y ∨ next' y = none) : Acyclic next' := by
  intro x hx
  have hwalk : ∀ z, TransGen (Edge next') x z → next' z ≠ none → TransGen (Edge next) x z := by
    intro z hz
    induction hz with
    | single hz => exact fun hne => .single ((hsub _ _ hz).resolve_right hne)
    | @tail y z _ hyz ih =>
      intro hne
      have hy : next' y ≠ none := by
        rw [show next' y = some z from hyz]
        simp
      exact (ih hy).tail ((hsub _ _ hyz).resolve_right hne)
  obtain ⟨y, hy, -⟩ := TransGen.head'_iff.1 hx
  refine h x (hwalk x hx ?_)
  rw [show next' x = some y from hy]
  simp

variable [DecidableEq α] {p y : α}

/-- An edge that leaves `p` does not help to reach `p`. -/
theorem reach_update_iff {x : α} (o : Option α) :
    ReflTransGen (Edge (Function.update next p o)) x p ↔ ReflTransGen (Edge next) x p := by
  constructor
  · intro h
    induction h using ReflTransGen.head_induction_on with
    | refl => exact .refl
    | @head x z hxz _ ih =>
      by_cases hx : x = p
      · exact hx ▸ .refl
      · have hxz : Function.update next p o x = some z := hxz
        rw [update_of_ne hx] at hxz
        exact .head hxz ih
  · intro h
    induction h using ReflTransGen.head_induction_on with
    | refl => exact .refl
    | @head x z hxz _ ih =>
      by_cases hx : x = p
      · exact hx ▸ .refl
      · refine .head ?_ ih
        rw [Edge, update_of_ne hx]
        exact hxz

/-- A new edge `p → y` closes a cycle through `p` exactly when `y` reaches `p`. -/
theorem cycle_update_iff :
    TransGen (Edge (Function.update next p (some y))) p p ↔ ReflTransGen (Edge next) y p := by
  have hp : Edge (Function.update next p (some y)) p y := update_self ..
  rw [TransGen.head'_iff, ← reach_update_iff (some y)]
  constructor
  · rintro ⟨z, hz, h⟩
    obtain rfl : z = y := Option.some.inj (hz.symm.trans hp)
    exact h
  · exact fun h => ⟨y, hp, h⟩

theorem Acyclic.update (h : Acyclic next) (hy : ¬ ReflTransGen (Edge next) y p) :
    Acyclic (Function.update next p (some y)) := by
  intro x hx
  by_cases hxp : ReflTransGen (Edge (Function.update next p (some y))) x p
  · exact hy (cycle_update_iff.1 (rotate hx hxp))
  · -- the cycle does not use the new edge
    have hwalk : ∀ z, TransGen (Edge (Function.update next p (some y))) x z →
        TransGen (Edge next) x z := by
      intro z hz
      induction hz with
      | single hz =>
        have hne : x ≠ p := fun hx' => hxp (hx' ▸ .refl)
        refine .single ?_
        rw [Edge, update_of_ne hne] at hz
        exact hz
      | @tail w z hxw hwz ih =>
        have hne : w ≠ p := fun hw => hxp (hw ▸ hxw.to_reflTransGen)
        refine ih.tail ?_
        rw [Edge, update_of_ne hne] at hwz
        exact hwz
    exact h x (hwalk x hx)

end Acyclic

/-! ### The loop -/

section Loop

variable [DecidableEq α]

/-- Follow the pointers from `x`, at most `fuel` times, until the target or the end is met. -/
def chase (next : α → Option α) (target : α) : ℕ → α → Option Bool
  | 0, _ => none
  | fuel + 1, x =>
    if x = target then some true
    else
      match next x with
      | none => some false
      | some y => chase next target fuel y

/-- The successor of the target is never asked for. -/
theorem chase_update (next : α → Option α) (target : α) (o : Option α) (fuel : ℕ) (x : α) :
    chase (Function.update next target o) target fuel x = chase next target fuel x := by
  induction fuel generalizing x with
  | zero => rfl
  | succ fuel ih =>
    simp only [chase]
    by_cases hx : x = target
    · simp [hx]
    · rw [if_neg hx, if_neg hx, update_of_ne hx]
      cases next x with
      | none => rfl
      | some y => exact ih y

/-- More turns do not change the answer. -/
theorem chase_mono {next : α → Option α} {target : α} {fuel : ℕ} {x : α} {b : Bool}
    (h : chase next target fuel x = some b) (k : ℕ) : chase next target (fuel + k) x = some b := by
  induction fuel generalizing x with
  | zero => cases h
  | succ fuel ih =>
    rw [Nat.add_right_comm]
    simp only [chase] at h ⊢
    by_cases hx : x = target
    · simpa [hx] using h
    · rw [if_neg hx] at h ⊢
      cases hn : next x with
      | none => simpa [hn] using h
      | some y =>
        simp only [hn] at h ⊢
        exact ih h

/-- On an acyclic graph whose edges leave a finite set the loop ends, and says whether the target
can be reached. -/
theorem chase_spec {next : α → Option α} (h : Acyclic next) (F : Finset α)
    (hF : ∀ x y, next x = some y → x ∈ F) (target : α) {fuel : ℕ} (hfuel : F.card < fuel) (x : α) :
    ∃ b, chase next target fuel x = some b ∧ (b = true ↔ ReflTransGen (Edge next) x target) := by
  classical
  -- the nodes with a successor that can still be met
  let ahead : α → Finset α := fun x => F.filter fun z => ReflTransGen (Edge next) x z
  suffices hmain : ∀ fuel x, (ahead x).card < fuel → ∃ b, chase next target fuel x = some b ∧
      (b = true ↔ ReflTransGen (Edge next) x target) by
    refine hmain fuel x (lt_of_le_of_lt (card_filter_le _ _) hfuel)
  intro fuel
  induction fuel with
  | zero => intro x hx; omega
  | succ fuel ih =>
    intro x hx
    by_cases hxt : x = target
    · exact ⟨true, by simp [chase, hxt], by simp [hxt, ReflTransGen.refl]⟩
    · cases hn : next x with
      | none =>
        refine ⟨false, by simp [chase, hxt, hn], ?_⟩
        simp only [Bool.false_eq_true, false_iff]
        intro hr
        rcases ReflTransGen.cases_head hr with hr | ⟨y, hy, -⟩
        · exact hxt hr
        · rw [Edge, hn] at hy
          cases hy
      | some y =>
        have hxy : Edge next x y := hn
        have hlt : (ahead y).card < (ahead x).card := by
          refine card_lt_card ⟨fun z hz => ?_, fun hsub => ?_⟩
          · obtain ⟨hzF, hz⟩ := mem_filter.1 hz
            exact mem_filter.2 ⟨hzF, .head hxy hz⟩
          · have hx : x ∈ ahead x := mem_filter.2 ⟨hF x y hn, .refl⟩
            exact h x (TransGen.head' hxy (mem_filter.1 (hsub hx)).2)
        obtain ⟨b, hb, hiff⟩ := ih y (by omega)
        refine ⟨b, by simp [chase, hxt, hn, hb], hiff.trans ⟨.head hxy, fun hr => ?_⟩⟩
        rcases ReflTransGen.cases_head hr with hr | ⟨z, hz, hr⟩
        · exact absurd hr hxt
        · obtain rfl : z = y := Option.some.inj (hz.symm.trans hn)
          exact hr

end Loop

end Chase

end Hpux
