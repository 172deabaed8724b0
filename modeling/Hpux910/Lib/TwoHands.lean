import Mathlib

/-!
# Two hands on a circle

A circle of `n` places with two hands that only go forward.  Each hand is given by the number of
steps it has made, so its place is that number modulo `n`.  The second hand does not pass the first,
and the first does not come up behind the second: their distance is less than `n`.

* `Hands` : the two numbers.
* `visits n k` : the places that a hand has stepped on after `k` steps, in order.
* `visits_append` : the next steps, as long as they do not go around the end of the circle.
* `Hands.around` : after `3 n` steps of either hand, both have been everywhere.
-/

namespace Hpux

open List

/-- The first hand has made `lead` steps, the second `tail`. -/
structure Hands (n : ℕ) where
  /-- The steps of the first hand. -/
  lead : ℕ
  /-- The steps of the second hand. -/
  tail : ℕ
  /-- The second hand is not ahead. -/
  behind : tail ≤ lead
  /-- The first hand has not gained a whole turn. -/
  within : lead < tail + n

/-- The places of the first `k` steps. -/
def visits (n k : ℕ) : List ℕ := (List.range k).map (· % n)

section

variable {n k m x i : ℕ}

theorem visits_zero : visits n 0 = [] := rfl

theorem length_visits : (visits n k).length = k := by
  rw [visits, length_map, length_range]

/-- Steps inside the circle. -/
theorem visits_append (hx : x % n = k % n) (hfit : x + m ≤ n) :
    visits n (k + m) = visits n k ++ List.range' x m := by
  unfold visits
  rw [range_add, map_append, map_map]
  refine congrArg _ ?_
  rw [range'_eq_map_range]
  refine map_congr_left fun j hj => ?_
  have hj := mem_range.1 hj
  show (k + j) % n = x + j
  rw [Nat.add_mod, ← hx, ← Nat.add_mod, Nat.mod_eq_of_lt (by omega)]

/-- After `n` steps a hand has been everywhere. -/
theorem mem_visits (hk : n ≤ k) (hi : i < n) : i ∈ visits n k := by
  refine mem_map.2 ⟨i, mem_range.2 (by omega), ?_⟩
  exact Nat.mod_eq_of_lt hi

/-- After `3 n` steps both hands have been everywhere. -/
theorem Hands.around (h : Hands n) (hsum : 3 * n ≤ h.lead + h.tail) (hi : i < n) :
    i ∈ visits n h.lead ∧ i ∈ visits n h.tail := by
  have h1 := h.behind
  have h2 := h.within
  exact ⟨mem_visits (by omega) hi, mem_visits (by omega) hi⟩

end

end Hpux
