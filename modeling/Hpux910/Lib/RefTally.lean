import Mathlib

/-!
# Counters kept beside references

Every object has a counter, and the objects hold lists of references to each other.  The counters
are right when each one is the number of references to its object.  An operation that touches a
few objects is followed by the difference it makes, a function from objects to integers.

* `tally l` : how often each object stands in the list `l`.
* `excess cnt hold` : what the counters say beyond the references.  They are right when it is `0`.
* `excess_update` : what a new counter and a new list for one object do to the excess.
-/

namespace Hpux

open Finset

variable {κ : Type*} [DecidableEq κ]

/-- How often each object stands in the list. -/
def tally (l : List κ) : κ → ℤ := fun k => l.count k

@[simp] theorem tally_nil : tally ([] : List κ) = 0 := rfl

theorem tally_apply (l : List κ) (k : κ) : tally l k = l.count k := rfl

@[simp] theorem tally_cons (a : κ) (l : List κ) : tally (a :: l) = Pi.single a 1 + tally l := by
  funext k
  rw [tally_apply, Pi.add_apply, tally_apply, List.count_cons, Pi.single_apply]
  by_cases h : a = k
  · subst h
    simp [add_comm]
  · simp [h, Ne.symm h]

@[simp] theorem tally_append (l m : List κ) : tally (l ++ m) = tally l + tally m := by
  funext k
  rw [tally_apply, List.count_append]
  push_cast
  rfl

theorem tally_eq_iff {l m : List κ} : tally l = tally m ↔ l.Perm m := by
  rw [List.perm_iff_count]
  constructor
  · intro h k
    have hk := congrFun h k
    rw [tally_apply, tally_apply] at hk
    exact_mod_cast hk
  · intro h
    funext k
    rw [tally_apply, tally_apply, h k]

theorem tally_nonneg (l : List κ) (k : κ) : 0 ≤ tally l k := by
  rw [tally_apply]
  exact Int.natCast_nonneg _

variable {l : List κ}

theorem tally_pos {k : κ} (h : k ∈ l) : 0 < tally l k := by
  rw [tally_apply]
  exact_mod_cast List.count_pos_iff.2 h

theorem tally_eq_zero_iff : tally l = 0 ↔ l = [] := by
  rw [← tally_nil, tally_eq_iff, List.perm_nil]

theorem tally_eraseIdx {n : ℕ} (h : n < l.length) :
    tally (l.eraseIdx n) = tally l - Pi.single l[n] 1 := by
  have hperm : l.Perm (l[n] :: l.eraseIdx n) := (List.getElem_cons_eraseIdx_perm h).symm
  rw [tally_eq_iff.2 hperm, tally_cons]
  abel

theorem tally_set {n : ℕ} (h : n < l.length) (a : κ) :
    tally (l.set n a) = tally l - Pi.single l[n] 1 + Pi.single a 1 := by
  have hperm : (l.set n a).Perm (a :: l.eraseIdx n) := List.set_perm_cons_eraseIdx h a
  rw [tally_eq_iff.2 hperm, tally_cons, tally_eraseIdx h]
  abel

variable [Fintype κ]

/-- What the counters say beyond the references that are held. -/
def excess (cnt : κ → ℤ) (hold : κ → List κ) : κ → ℤ := fun k => cnt k - ∑ d, tally (hold d) k

theorem excess_update (cnt : κ → ℤ) (hold : κ → List κ) (i : κ) (z : ℤ) (l : List κ) :
    excess (Function.update cnt i z) (Function.update hold i l)
      = excess cnt hold + Pi.single i (z - cnt i) + tally (hold i) - tally l := by
  funext k
  have hsum : ∑ d, tally (Function.update hold i l d) k
      = tally l k + ∑ d ∈ Finset.univ.erase i, tally (hold d) k := by
    rw [← add_sum_erase _ _ (mem_univ i), Function.update_self]
    congr 1
    refine sum_congr rfl fun d hd => ?_
    rw [Function.update_of_ne (ne_of_mem_erase hd)]
  have hold' := add_sum_erase Finset.univ (fun d => tally (hold d) k) (mem_univ i)
  simp only [excess, Pi.add_apply, Pi.sub_apply]
  rw [hsum, Pi.single_apply, Function.update_apply]
  split_ifs with h
  · subst h
    omega
  · omega

/-- A counter that is right is at least the number of references of one holder. -/
theorem tally_le_of_excess {cnt : κ → ℤ} {hold : κ → List κ} (h : excess cnt hold = 0) (d k : κ) :
    tally (hold d) k ≤ cnt k := by
  have hk := congrFun h k
  have hle := single_le_sum (fun e _ => tally_nonneg (hold e) k) (mem_univ d)
  simp only [excess, Pi.zero_apply] at hk
  omega

/-- Two holders together hold at most what the counter says. -/
theorem tally_add_le_of_excess {cnt : κ → ℤ} {hold : κ → List κ} (h : excess cnt hold = 0)
    {d e : κ} (hne : d ≠ e) (k : κ) : tally (hold d) k + tally (hold e) k ≤ cnt k := by
  have hk := congrFun h k
  have hle : ∑ x ∈ {d, e}, tally (hold x) k ≤ ∑ x, tally (hold x) k :=
    sum_le_sum_of_subset_of_nonneg (subset_univ _) fun x _ _ => tally_nonneg _ _
  rw [sum_pair hne] at hle
  simp only [excess, Pi.zero_apply] at hk
  omega

end Hpux
