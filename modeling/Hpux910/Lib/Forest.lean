import Mathlib

/-!
# Trees as parent functions

A tree is given by the parent of every node, where the root is its own parent.  A subtree is moved
by giving its top another parent; the tree stays one when the new parent is not in the subtree.

* `Above f x y` : `y` is `x` or one of its ancestors.
* `Rooted f r` : every node has the ancestor `r`, which is its own parent.
* `above_move`, `above_move_of_not`, `Rooted.move` : what a move does to the ancestors.
* `Avoids`, `Passes` : no marked node is above another node, or a walk up from it has passed none.
  `Avoids.move`, `Passes.move` : both are kept when subtrees are moved at the same time.
-/

namespace Hpux

open Function

variable {α : Type*} {f : α → α} {x y z r s w : α}

/-- `y` is `x` or an ancestor of `x`. -/
def Above (f : α → α) (x y : α) : Prop := ∃ k, f^[k] x = y

theorem Above.refl (f : α → α) (x : α) : Above f x x := ⟨0, rfl⟩

theorem Above.parent (f : α → α) (x : α) : Above f x (f x) := ⟨1, rfl⟩

theorem Above.trans (h : Above f x y) (h' : Above f y z) : Above f x z := by
  obtain ⟨k, rfl⟩ := h
  obtain ⟨m, rfl⟩ := h'
  exact ⟨m + k, iterate_add_apply f m k x⟩

theorem Above.of_parent (h : Above f (f x) y) : Above f x y := (Above.parent f x).trans h

/-- An ancestor is the node itself or above its parent. -/
theorem Above.cases (h : Above f x y) : y = x ∨ Above f (f x) y := by
  obtain ⟨k, rfl⟩ := h
  cases k with
  | zero => exact .inl rfl
  | succ k => exact .inr ⟨k, (iterate_succ_apply f k x).symm⟩

/-- Every node has the root above it. -/
structure Rooted (f : α → α) (r : α) : Prop where
  root : f r = r
  above : ∀ x, Above f x r

namespace Rooted

theorem iterate_root (h : Rooted f r) (k : ℕ) : f^[k] r = r := iterate_fixed h.root k

/-- Nothing but the root is above the root. -/
theorem eq_of_above (h : Rooted f r) (hy : Above f r y) : y = r := by
  obtain ⟨k, rfl⟩ := hy
  exact h.iterate_root k

/-- A node that comes back to itself is the root: there is no cycle. -/
theorem eq_root_of_cycle (h : Rooted f r) {k : ℕ} (hk : 0 < k) (hx : f^[k] x = x) : x = r := by
  obtain ⟨m, hm⟩ := h.above x
  have hback : ∀ n, f^[k * n] x = x := by
    intro n
    rw [iterate_mul]
    exact iterate_fixed hx n
  have hle : m ≤ k * m := Nat.le_mul_of_pos_left m hk
  rw [← hback m, ← Nat.sub_add_cancel hle, iterate_add_apply, hm, h.iterate_root]

theorem antisymm (h : Rooted f r) (hxy : Above f x y) (hyx : Above f y x) : x = y := by
  obtain ⟨k, rfl⟩ := hxy
  obtain ⟨m, hm⟩ := hyx
  rw [← iterate_add_apply] at hm
  rcases Nat.eq_zero_or_pos (m + k) with h0 | hpos
  · obtain rfl : k = 0 := by omega
    rfl
  · obtain rfl := h.eq_root_of_cycle hpos hm
    exact (h.iterate_root k).symm

end Rooted

/-! ### Moving a subtree -/

variable [DecidableEq α]

/-- A node outside the moved subtree keeps its ancestors. -/
theorem above_move_of_not (hx : ¬Above f x s) : Above (Function.update f s w) x y ↔ Above f x y := by
  have hiter : ∀ k, (Function.update f s w)^[k] x = f^[k] x := by
    intro k
    induction k with
    | zero => rfl
    | succ k ih =>
      rw [iterate_succ_apply', iterate_succ_apply', ih, update_of_ne]
      exact fun h => hx ⟨k, h⟩
  constructor
  · rintro ⟨k, rfl⟩
    exact ⟨k, (hiter k).symm⟩
  · rintro ⟨k, rfl⟩
    exact ⟨k, hiter k⟩

/-- A node in the moved subtree keeps the ancestors inside it and gets those of the new parent. -/
theorem above_move (h : Rooted f r) (hs : s ≠ r) (hw : ¬Above f w s) (hx : Above f x s) :
    Above (Function.update f s w) x y ↔ Above f x y ∧ Above f y s ∨ Above f w y := by
  have hself : Function.update f s w s = w := update_self s w f
  constructor
  · rintro ⟨k, hk⟩
    induction k generalizing x with
    | zero =>
      obtain rfl : x = y := hk
      exact .inl ⟨Above.refl f x, hx⟩
    | succ k ih =>
      rw [iterate_succ_apply] at hk
      by_cases hxs : x = s
      · subst hxs
        rw [hself] at hk
        exact .inr ((above_move_of_not hw).1 ⟨k, hk⟩)
      · rw [update_of_ne hxs] at hk
        rcases ih (hx.cases.resolve_left (Ne.symm hxs)) hk with ⟨h1, h2⟩ | h1
        · exact .inl ⟨h1.of_parent, h2⟩
        · exact .inr h1
  · -- the way up to a node of the subtree does not pass its top
    have hup : ∀ {x}, Above f x y → Above f y s → Above (Function.update f s w) x y := by
      rintro x ⟨k, hk⟩ hy
      induction k generalizing x with
      | zero => exact ⟨0, hk⟩
      | succ k ih =>
        rw [iterate_succ_apply] at hk
        by_cases hxs : x = s
        · subst hxs
          have hsy : Above f x y := ⟨k + 1, by rw [iterate_succ_apply, hk]⟩
          rw [h.antisymm hsy hy]
          exact Above.refl _ _
        · have hstep := ih hk
          rw [← update_of_ne hxs w f] at hstep
          exact hstep.of_parent
    rintro (⟨h1, h2⟩ | h1)
    · exact hup h1 h2
    · have htop : Above (Function.update f s w) x s := by
        obtain ⟨k, hk⟩ := hx
        induction k generalizing x with
        | zero => exact ⟨0, hk⟩
        | succ k ih =>
          rw [iterate_succ_apply] at hk
          by_cases hxs : x = s
          · subst hxs
            exact Above.refl _ _
          · have hstep := ih hk
            rw [← update_of_ne hxs w f] at hstep
            exact hstep.of_parent
      have hnew : Above (Function.update f s w) s w := by
        have hp := Above.parent (Function.update f s w) s
        rwa [hself] at hp
      exact htop.trans (hnew.trans ((above_move_of_not hw).2 h1))

/-- A move to a place outside the subtree keeps the tree. -/
theorem Rooted.move (h : Rooted f r) (hs : s ≠ r) (hw : ¬Above f w s) :
    Rooted (Function.update f s w) r where
  root := by rw [update_of_ne hs.symm, h.root]
  above x := by
    by_cases hx : Above f x s
    · exact (above_move h hs hw hx).2 (.inr (h.above w))
    · exact (above_move_of_not hx).2 (h.above x)

/-! ### Walking up while subtrees are moved -/

/-- No marked node is above `x`. -/
def Avoids (f : α → α) (E : α → Prop) (x : α) : Prop := ∀ i, E i → ¬Above f x i

/-- A walk from `x` that has come to `n` has passed no marked node: the marked nodes above `x` are
above `n`. -/
def Passes (f : α → α) (E : α → Prop) (x n : α) : Prop :=
  ∀ i, E i → Above f x i → Above f x n ∧ Above f n i

variable {E D : α → Prop} {n : α}

omit [DecidableEq α] in
theorem Passes.refl (f : α → α) (E : α → Prop) (x : α) : Passes f E x x :=
  fun _ _ h => ⟨Above.refl f x, h⟩

omit [DecidableEq α] in
theorem Passes.mono (h : Passes f E x n) (hDE : ∀ i, D i → E i) : Passes f D x n :=
  fun i hi => h i (hDE i hi)

omit [DecidableEq α] in
theorem Avoids.mono (h : Avoids f E x) (hDE : ∀ i, D i → E i) : Avoids f D x :=
  fun i hi => h i (hDE i hi)

omit [DecidableEq α] in
/-- One step of the walk, from a node that is not marked. -/
theorem Passes.parent (h : Passes f E x n) (hn : ¬E n) : Passes f E x (f n) := by
  intro i hi hx
  obtain ⟨h1, h2⟩ := h i hi hx
  refine ⟨h1.trans (Above.parent f n), h2.cases.resolve_left ?_⟩
  rintro rfl
  exact hn hi

omit [DecidableEq α] in
/-- The walk ends at the root, which is not marked. -/
theorem Passes.avoids (h : Passes f E x r) (hr : Rooted f r) (hE : ¬E r) : Avoids f E x := by
  intro i hi hx
  obtain rfl := hr.eq_of_above (h i hi hx).2
  exact hE hi

/-- A subtree is moved by somebody whose marked nodes `D` are not above the new parent.  He is one
of those that the walk heeds, or he heeds all that the walk does. -/
theorem Avoids.move (hr : Rooted f r) (hs : s ≠ r) (hw : Avoids f D w) (hDs : D s)
    (hED : E s ∨ ∀ i, E i → D i) (h : Avoids f E x) : Avoids (Function.update f s w) E x := by
  intro i hi hx'
  by_cases hx : Above f x s
  · have hDi : D i := by
      rcases hED with hEs | hED
      · exact absurd hx (h s hEs)
      · exact hED i hi
    rcases (above_move hr hs (hw s hDs) hx).1 hx' with ⟨h1, -⟩ | h1
    · exact h i hi h1
    · exact hw i hDi h1
  · exact h i hi ((above_move_of_not hx).1 hx')

theorem Passes.move (hr : Rooted f r) (hs : s ≠ r) (hw : Avoids f D w) (hDs : D s)
    (hED : E s ∨ ∀ i, E i → D i) (h : Passes f E x n) : Passes (Function.update f s w) E x n := by
  intro i hi hx'
  have hws := hw s hDs
  by_cases hx : Above f x s
  · rw [above_move hr hs hws hx] at hx' ⊢
    -- the walk is still below the top of the subtree
    have hns : Above f x n ∧ Above f n s := by
      rcases hED with hEs | hED
      · exact h s hEs hx
      · have hxi := hx'.resolve_right (hw i (hED i hi))
        obtain ⟨h1, h2⟩ := h i hi hxi.1
        exact ⟨h1, h2.trans hxi.2⟩
    rw [above_move hr hs hws hns.2]
    refine ⟨.inl hns, ?_⟩
    rcases hx' with ⟨h1, h2⟩ | h1
    · exact .inl ⟨(h i hi h1).2, h2⟩
    · exact .inr h1
  · rw [above_move_of_not hx] at hx' ⊢
    obtain ⟨h1, h2⟩ := h i hi hx'
    refine ⟨h1, ?_⟩
    rw [above_move_of_not fun hn => hx (h1.trans hn)]
    exact h2

end Hpux
