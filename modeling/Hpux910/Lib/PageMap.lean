import Mathlib

/-!
# Pages moved in an address space

A page map says which frame a virtual page has, if any.  Pages are moved one after the other: the
new place gets the frame and the old one becomes invalid.

* `movePages` : a run of pages is moved; `movePages_apply` says what it does when the two ranges
  do not overlap.
* `frames` : the frames of a range, with their multiplicity.
* `frames_movePages` : a move from one range to another keeps the frames.
-/

namespace Hpux

open Function

variable {P : Type} {pte pte' : ℕ → Option P} {n f t v base a b : ℕ}

/-- The pages from `f` on are moved to `t`, one after the other. -/
def movePages : ℕ → (ℕ → Option P) → ℕ → ℕ → (ℕ → Option P)
  | 0, pte, _, _ => pte
  | n + 1, pte, f, t =>
    movePages n (Function.update (Function.update pte t (pte f)) f none) (f + 1) (t + 1)

theorem movePages_succ : movePages (n + 1) pte f t =
    movePages n (Function.update (Function.update pte t (pte f)) f none) (f + 1) (t + 1) := rfl

theorem movePages_apply (hd : t + n ≤ f ∨ f + n ≤ t) : movePages n pte f t v =
      if t ≤ v ∧ v < t + n then pte (f + (v - t))
      else if f ≤ v ∧ v < f + n then none
      else pte v := by
  induction n generalizing pte f t with
  | zero =>
    rw [if_neg (by omega), if_neg (by omega)]
    rfl
  | succ n ih =>
    rw [movePages_succ, ih (by omega)]
    simp only [update_apply]
    split_ifs <;> first | omega | rfl | skip
    · congr 1
      omega
    · congr 1
      omega

/-- A page that is not in the two ranges keeps its frame. -/
theorem movePages_of_notMem (hf : v < f ∨ f + n ≤ v) (ht : v < t ∨ t + n ≤ v) :
    movePages n pte f t v = pte v := by
  induction n generalizing pte f t with
  | zero => rfl
  | succ n ih =>
    rw [movePages_succ, ih (by omega) (by omega), update_of_ne (by omega),
      update_of_ne (by omega)]

/-- A page gets a frame only in the new range. -/
theorem movePages_isSome (h : (movePages n pte f t v).isSome) : t ≤ v ∧ v < t + n ∨ (pte v).isSome := by
  induction n generalizing pte f t with
  | zero => exact .inr h
  | succ n ih =>
    rw [movePages_succ] at h
    rcases ih h with hv | hv
    · exact .inl (by omega)
    · simp only [update_apply] at hv
      split_ifs at hv with h1 h2
      · cases hv
      · exact .inl (by omega)
      · exact .inr hv

/-- The frames of the pages from `base` on. -/
def frames (pte : ℕ → Option P) (base n : ℕ) : Multiset P :=
  (List.range n).filterMap fun i => pte (base + i)

theorem frames_eq : frames pte base n = (List.range n).filterMap fun i => pte (base + i) := rfl

theorem frames_add : frames pte base (a + b) = frames pte base a + frames pte (base + a) b := by
  rw [frames_eq, frames_eq, frames_eq, List.range_add, List.filterMap_append, List.filterMap_map, ← Multiset.coe_add]
  simp only [comp_def, Nat.add_assoc]

/-- Two ranges with the same frames at the same places. -/
theorem frames_congr (h : ∀ i < n, pte' (b + i) = pte (a + i)) : frames pte' b n = frames pte a n := by
  rw [frames_eq, frames_eq, List.filterMap_congr fun i hi => h i (List.mem_range.1 hi)]

theorem frames_eq_zero (h : ∀ i < n, pte (base + i) = none) : frames pte base n = 0 := by
  rw [frames_eq, List.filterMap_congr fun i hi => h i (List.mem_range.1 hi)]
  simp

/-- The frames of a range that is moved. -/
theorem frames_move (hd : t + n ≤ f ∨ f + n ≤ t) : frames (movePages n pte f t) t n = frames pte f n ∧
      frames (movePages n pte f t) f n = 0 := by
  refine ⟨frames_congr fun i hi => ?_, frames_eq_zero fun i hi => ?_⟩
  · rw [movePages_apply hd, if_pos (by omega), Nat.add_sub_cancel_left]
  · rw [movePages_apply hd, if_neg (by omega), if_pos (by omega)]

/-- A part of one range is moved to a part of another that has no frames. -/
theorem frames_movePages {x y c d : ℕ} (hx : x + n ≤ c) (hy : y + n ≤ d)
    (hd : n = 0 ∨ a + c ≤ b ∨ b + d ≤ a) (h0 : ∀ i < n, pte (b + y + i) = none) :
    frames (movePages n pte (a + x) (b + y)) b d + frames (movePages n pte (a + x) (b + y)) a c =
      frames pte b d + frames pte a c := by
  rcases hd with rfl | hd
  · rfl
  obtain ⟨r, rfl⟩ := Nat.exists_eq_add_of_le hx
  obtain ⟨q, rfl⟩ := Nat.exists_eq_add_of_le hy
  obtain ⟨hnew, hold⟩ := @frames_move _ pte n (a + x) (b + y) (by omega)
  have hout : ∀ v, (v < a + x ∨ a + x + n ≤ v) → (v < b + y ∨ b + y + n ≤ v) →
      movePages n pte (a + x) (b + y) v = pte v := fun v h1 h2 => movePages_of_notMem h1 h2
  have e1 : frames (movePages n pte (a + x) (b + y)) b y = frames pte b y :=
    frames_congr fun i hi => hout _ (by omega) (by omega)
  have e2 : frames (movePages n pte (a + x) (b + y)) (b + (y + n)) q = frames pte (b + (y + n)) q :=
    frames_congr fun i hi => hout _ (by omega) (by omega)
  have e3 : frames (movePages n pte (a + x) (b + y)) a x = frames pte a x :=
    frames_congr fun i hi => hout _ (by omega) (by omega)
  have e4 : frames (movePages n pte (a + x) (b + y)) (a + (x + n)) r = frames pte (a + (x + n)) r :=
    frames_congr fun i hi => hout _ (by omega) (by omega)
  simp only [frames_add, e1, e2, e3, e4, hnew, hold, frames_eq_zero h0]
  abel

end Hpux
