import Mathlib

/-!
# Pieces of a stream

A stream is a function of the position.  A piece of it is the list of what stands at the positions of
an interval, and some positions may be left out.

* `ints lo hi` : the positions from `lo` to before `hi`.
* `kept D lo hi gone` : what stands there, without the positions that are gone.
* `kept_append` : pieces that follow on one another.
* `length_kept`, `length_kept_one` : their lengths.
-/

namespace Hpux

open List

variable {B : Type*} {D : ℤ → B} {lo mid hi x : ℤ} {gone gone' : List ℤ}

/-- The positions of an interval. -/
def ints (lo hi : ℤ) : List ℤ := (List.range (hi - lo).toNat).map fun (k : ℕ) => lo + k

/-- A piece of a stream without the positions that are gone. -/
def kept (D : ℤ → B) (lo hi : ℤ) (gone : List ℤ) : List B :=
  ((ints lo hi).filter fun x => x ∉ gone).map D

theorem mem_ints : x ∈ ints lo hi ↔ lo ≤ x ∧ x < hi := by
  unfold ints
  rw [mem_map]
  constructor
  · rintro ⟨k, hk, rfl⟩
    have h1 := mem_range.1 hk
    omega
  · intro h
    exact ⟨(x - lo).toNat, mem_range.2 (by omega), by omega⟩

@[simp] theorem length_ints : (ints lo hi).length = (hi - lo).toNat := by
  unfold ints
  rw [length_map, length_range]

theorem ints_append (h1 : lo ≤ mid) (h2 : mid ≤ hi) : ints lo mid ++ ints mid hi = ints lo hi := by
  unfold ints
  have h3 : (hi - lo).toNat = (mid - lo).toNat + (hi - mid).toNat := by omega
  rw [h3, range_add, map_append, map_map]
  congr 1
  refine map_congr_left fun k _ => ?_
  show mid + (k : ℤ) = lo + (((mid - lo).toNat + k : ℕ) : ℤ)
  omega

theorem ints_succ (h : lo < hi) : ints lo hi = lo :: ints (lo + 1) hi := by
  rw [← ints_append (by omega : lo ≤ lo + 1) (by omega : lo + 1 ≤ hi)]
  unfold ints
  rw [show (lo + 1 - lo).toNat = 1 by omega]
  simp

theorem kept_self : kept D lo lo gone = [] := by
  unfold kept ints
  simp

/-- Pieces that follow on one another. -/
theorem kept_append (h1 : lo ≤ mid) (h2 : mid ≤ hi) :
    kept D lo mid gone ++ kept D mid hi gone = kept D lo hi gone := by
  unfold kept
  rw [← ints_append h1 h2, filter_append, map_append]

/-- Only the positions of the interval matter. -/
theorem kept_congr (h : ∀ x, lo ≤ x → x < hi → (x ∈ gone ↔ x ∈ gone')) :
    kept D lo hi gone = kept D lo hi gone' := by
  unfold kept
  congr 1
  refine filter_congr fun x hx => ?_
  obtain ⟨h1, h2⟩ := mem_ints.1 hx
  have h3 := h x h1 h2
  simp [h3]

/-- Nothing is gone from the interval. -/
theorem length_kept (h : ∀ x ∈ gone, ¬ (lo ≤ x ∧ x < hi)) :
    (kept D lo hi gone).length = (hi - lo).toNat := by
  have h1 : kept D lo hi gone = kept D lo hi [] :=
    kept_congr fun x h2 h3 => ⟨fun hx => (h x hx ⟨h2, h3⟩).elim, nofun⟩
  rw [h1]
  unfold kept
  simp

/-- One position is gone from the interval. -/
theorem length_kept_one (h1 : lo ≤ x) (h2 : x < hi) :
    (kept D lo hi [x]).length = (hi - lo).toNat - 1 := by
  have h3 : kept D lo hi [x] = kept D lo x [x] ++ kept D (x + 1) hi [x] := by
    rw [← kept_append h1 h2.le]
    congr 1
    unfold kept
    rw [ints_succ h2]
    simp
  rw [h3, length_append, length_kept (by simp), length_kept (by simp)]
  omega

/-- The front of a piece is dropped. -/
theorem drop_kept (h1 : lo ≤ mid) (h2 : mid ≤ hi) {n : ℕ} (hn : (kept D lo mid gone).length = n) :
    (kept D lo hi gone).drop n = kept D mid hi gone := by
  rw [← kept_append h1 h2, ← hn, drop_left]

/-- The end of a piece is cut off. -/
theorem take_kept (h1 : lo ≤ mid) (h2 : mid ≤ hi) {n : ℕ} (hn : (kept D lo mid gone).length = n) :
    (kept D lo hi gone).take n = kept D lo mid gone := by
  rw [← kept_append h1 h2, ← hn, take_left]

/-- One more position goes. -/
theorem eraseIdx_kept (h1 : lo ≤ x) (h2 : x < hi) :
    (kept D lo hi []).eraseIdx (x - lo).toNat = kept D lo hi [x] ∧
      (kept D lo hi [])[(x - lo).toNat]? = some (D x) := by
  have h3 : kept D lo hi [] = kept D lo x [] ++ D x :: kept D (x + 1) hi [] := by
    rw [← kept_append h1 h2.le]
    congr 1
    unfold kept
    rw [ints_succ h2]
    simp
  have h4 : kept D lo hi [x] = kept D lo x [] ++ kept D (x + 1) hi [] := by
    rw [← kept_append h1 h2.le]
    refine congrArg₂ _ (kept_congr fun y _ h5 => by simp; omega) ?_
    have h5 : kept D x hi [x] = kept D (x + 1) hi [x] := by
      unfold kept
      rw [ints_succ h2]
      simp
    rw [h5]
    exact kept_congr fun y h6 _ => by simp; omega
  have h5 : (kept D lo x []).length = (x - lo).toNat := length_kept nofun
  constructor
  · rw [h3, h4, eraseIdx_append_of_length_le h5.le, h5, Nat.sub_self, eraseIdx_cons_zero]
  · rw [h3, getElem?_append_right h5.le, h5, Nat.sub_self]
    rfl

end Hpux
