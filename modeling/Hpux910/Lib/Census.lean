import Mathlib

/-!
# Counting the members with a property

A counter that is kept beside a table counts the entries with some property.  These lemmas say what
happens to the count when one entry changes.

* `card_filter_lose`, `card_filter_gain`, `card_filter_keep` : one entry loses the property, gets
  it, or none changes.
* `card_filter_except` : all three at once, with the difference they make.
* `sum_except` : a sum, when one term changes.
-/

namespace Hpux

open Finset

variable {ι : Type*} {S : Finset ι} {p q : ι → Prop} [DecidablePred p] [DecidablePred q] {i : ι}

/-- One entry loses the property. -/
theorem card_filter_lose (hi : i ∈ S) (hp : p i) (hq : ¬q i) (h : ∀ j ∈ S, j ≠ i → (q j ↔ p j)) :
    (S.filter q).card + 1 = (S.filter p).card := by
  classical
  have heq : S.filter q = (S.filter p).erase i := by
    ext j
    rw [mem_erase, mem_filter, mem_filter]
    constructor
    · rintro ⟨hj, hqj⟩
      have hne : j ≠ i := by
        rintro rfl
        exact hq hqj
      exact ⟨hne, hj, (h j hj hne).1 hqj⟩
    · rintro ⟨hne, hj, hpj⟩
      exact ⟨hj, (h j hj hne).2 hpj⟩
  have hmem : i ∈ S.filter p := mem_filter.2 ⟨hi, hp⟩
  have hpos := card_pos.2 ⟨i, hmem⟩
  rw [heq, card_erase_of_mem hmem]
  omega

/-- One entry gets the property. -/
theorem card_filter_gain (hi : i ∈ S) (hp : ¬p i) (hq : q i) (h : ∀ j ∈ S, j ≠ i → (q j ↔ p j)) :
    (S.filter q).card = (S.filter p).card + 1 :=
  (card_filter_lose hi hq hp fun j hj hne => (h j hj hne).symm).symm

/-- No entry changes. -/
theorem card_filter_keep (h : ∀ j ∈ S, q j ↔ p j) : (S.filter q).card = (S.filter p).card := by
  rw [filter_congr h]

/-- At most one entry changes. -/
theorem card_filter_except (hi : i ∈ S) (h : ∀ j ∈ S, j ≠ i → (q j ↔ p j)) : ((S.filter q).card : ℤ) =
      (S.filter p).card + ((decide (q i)).toNat - (decide (p i)).toNat : ℤ) := by
  by_cases hp : p i <;> by_cases hq : q i
  · have hall : ∀ j ∈ S, q j ↔ p j := fun j hj => by
      by_cases hji : j = i
      · subst hji
        exact iff_of_true hq hp
      · exact h j hj hji
    simp [card_filter_keep hall, hp, hq]
  · have h1 := card_filter_lose hi hp hq h
    simp only [hp, hq, decide_true, decide_false, Bool.toNat_true, Bool.toNat_false]
    omega
  · have h1 := card_filter_gain hi hp hq h
    simp only [hp, hq, decide_true, decide_false, Bool.toNat_true, Bool.toNat_false]
    omega
  · have hall : ∀ j ∈ S, q j ↔ p j := fun j hj => by
      by_cases hji : j = i
      · subst hji
        exact iff_of_false hq hp
      · exact h j hj hji
    simp [card_filter_keep hall, hp, hq]

/-- At most one term changes. -/
theorem sum_except [Fintype ι] (i : ι) {f g : ι → ℕ} (h : ∀ j, j ≠ i → f j = g j) :
    ∑ j, f j + g i = ∑ j, g j + f i := by
  classical
  have hrest : ∑ j ∈ Finset.univ.erase i, f j = ∑ j ∈ Finset.univ.erase i, g j :=
    sum_congr rfl fun j hj => h j (ne_of_mem_erase hj)
  rw [← add_sum_erase _ f (mem_univ i), ← add_sum_erase _ g (mem_univ i), hrest]
  omega

end Hpux
