import Mathlib

/-!
# Cycles of waiting

Processes that wait for each other form a graph.  A step of one process changes the edges at that
process only, so the graph stays free of cycles when the process is on none afterwards.

* `Acyclic R` : no process waits for itself, directly or not.
* `Acyclic.of_step` : a step of one process.
* `not_cycle_of_sink`, `not_cycle_of_source`, `not_cycle_of_next` : a process that waits for nobody,
  that nobody waits for, or that waits only for such as wait for nobody.
-/

namespace Hpux

variable {α : Type*} {R R' : α → α → Prop} {p : α}

/-- No process waits for itself, directly or through others. -/
def Acyclic (R : α → α → Prop) : Prop := ∀ p, ¬Relation.TransGen R p p

theorem not_cycle_of_sink (h : ∀ q, ¬R p q) : ¬Relation.TransGen R p p := by
  intro hc
  obtain ⟨q, hq, -⟩ := Relation.TransGen.head'_iff.1 hc
  exact h q hq

theorem not_cycle_of_source (h : ∀ q, ¬R q p) : ¬Relation.TransGen R p p := by
  intro hc
  obtain ⟨q, -, hq⟩ := Relation.TransGen.tail'_iff.1 hc
  exact h q hq

theorem not_cycle_of_next (h : ∀ q, R p q → ∀ q', ¬R q q') : ¬Relation.TransGen R p p := by
  intro hc
  obtain ⟨q, hq, hqp⟩ := Relation.TransGen.head'_iff.1 hc
  rcases Relation.ReflTransGen.cases_head hqp with rfl | ⟨q', hq', -⟩
  · exact h q hq q hq
  · exact h q hq q' hq'

/-- A way from `a` to `b` in the new graph meets `p` or is one of the old graph. -/
theorem way_or_meets (hsub : ∀ a b, a ≠ p → b ≠ p → R' a b → R a b) {a b : α} (ha : a ≠ p)
    (h : Relation.TransGen R' a b) :
    Relation.TransGen R' a p ∧ Relation.ReflTransGen R' p b ∨ b ≠ p ∧ Relation.TransGen R a b := by
  induction h with
  | single h =>
    rename_i b
    by_cases hb : b = p
    · subst hb
      exact .inl ⟨.single h, .refl⟩
    · exact .inr ⟨hb, .single (hsub a b ha hb h)⟩
  | tail h1 h2 ih =>
    rename_i b c
    rcases ih with ⟨h3, h4⟩ | ⟨hb, h3⟩
    · exact .inl ⟨h3, h4.tail h2⟩
    · by_cases hc : c = p
      · subst hc
        exact .inl ⟨h1.tail h2, .refl⟩
      · exact .inr ⟨hc, h3.tail (hsub b c hb hc h2)⟩

/-- When the edges between the others are old ones and `p` is on no cycle, there is none. -/
theorem Acyclic.of_step (h : Acyclic R) (hsub : ∀ a b, a ≠ p → b ≠ p → R' a b → R a b)
    (hp : ¬Relation.TransGen R' p p) : Acyclic R' := by
  intro q hq
  by_cases hqp : q = p
  · subst hqp
    exact hp hq
  · rcases way_or_meets hsub hqp hq with ⟨h1, h2⟩ | ⟨-, h1⟩
    · exact hp (Relation.TransGen.trans_right h2 h1)
    · exact h q h1

end Hpux
