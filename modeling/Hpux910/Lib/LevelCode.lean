import Mathlib

/-!
# Codes given by the number of leaves on each level

The leaves of a code tree are listed level by level.  A node of a level is a number: the inner nodes come
first, the leaves after them, and the children of inner node `v` are `2 * v` and `2 * v + 1`.  So the number of
leaves on each level is all there is to know, and how many inner nodes a level has follows from the next one.

* `inner`, `nodes` : the inner nodes above some levels; the nodes of the first of them.
* `LevelCode.follow` : the text that bits stand for, up to the end mark.
* `LevelCode.Cursor` : the nodes that following bits can come to.
-/

namespace Hpux

/-- The inner nodes of a level, from the leaves of the levels below it. -/
def inner : List ℕ → ℕ
  | [] => 0
  | n :: deeper => (n + inner deeper) / 2

/-- The nodes of the first of some levels. -/
def nodes : List ℕ → ℕ
  | [] => 0
  | n :: deeper => n + inner deeper

theorem inner_eq (ns : List ℕ) : inner ns = nodes ns / 2 := by
  cases ns <;> rfl

/-- How many leaves each level has, and what they stand for, in order.  The one after the last symbol is the
end mark. -/
structure LevelCode (α : Type*) where
  counts : List ℕ
  symbols : List α

namespace LevelCode

variable {α : Type*} (C : LevelCode α)

/-- The text that bits stand for, from node `v` of the level above those of `cur`, where `start` leaves are on
the levels that lie behind.  There is none if the bits end before the end mark. -/
def follow : List ℕ → ℕ → ℕ → List Bool → Option (List α)
  | _, _, _, [] => none
  | [], _, _, _ :: _ => none
  | n :: deeper, start, v, b :: bits =>
    if 2 * v + b.toNat < inner deeper then follow deeper (start + n) (2 * v + b.toNat) bits
    else
      match C.symbols[start + (2 * v + b.toNat - inner deeper)]? with
      | some a => (follow C.counts 0 0 bits).map (a :: ·)
      | none => some []

/-- The text that bits stand for. -/
def text (bits : List Bool) : Option (List α) := C.follow C.counts 0 0 bits

/-- There is a level, and the leaves are those of the symbols and the end mark. -/
structure Counted : Prop where
  levels : C.counts ≠ []
  sum : C.counts.sum = C.symbols.length + 1

/-- The nodes that following bits can come to: the root, or an inner node of a level. -/
def Cursor (behind cur : List ℕ) (v : ℕ) : Prop :=
  C.counts = behind ++ cur ∧ (behind = [] ∧ v = 0 ∨ v < inner cur)

variable {C} {behind cur : List ℕ} {v : ℕ}

theorem Cursor.root : C.Cursor [] C.counts 0 := ⟨rfl, .inl ⟨rfl, rfl⟩⟩

theorem Cursor.cur_ne_nil (hC : C.Counted) (h : C.Cursor behind cur v) : cur ≠ [] := by
  rintro rfl
  obtain ⟨h1, ⟨rfl, -⟩ | h2⟩ := h
  · exact hC.levels (by simpa using h1)
  · simp [inner] at h2

theorem Cursor.down {n : ℕ} {deeper : List ℕ} {w : ℕ} (h : C.Cursor behind (n :: deeper) v)
    (hw : w < inner deeper) : C.Cursor (behind ++ [n]) deeper w :=
  ⟨by rw [h.1]; simp, .inr hw⟩

/-- A leaf that is come to is that of a symbol or the end mark, whatever the counts are. -/
theorem Cursor.leaf_le (hC : C.Counted) (hs : C.symbols ≠ []) {n : ℕ} {deeper : List ℕ} {b : Bool}
    (h : C.Cursor behind (n :: deeper) v) (hw : ¬ 2 * v + b.toNat < inner deeper) :
    behind.sum + (2 * v + b.toNat - inner deeper) ≤ C.symbols.length := by
  have hb : b.toNat ≤ 1 := Bool.toNat_le b
  obtain ⟨h1, ⟨rfl, rfl⟩ | h2⟩ := h
  · have h3 := List.length_pos_of_ne_nil hs
    simp only [List.sum_nil]
    omega
  · have h3 : behind.sum + (n + deeper.sum) = C.symbols.length + 1 := by
      rw [← hC.sum, h1]
      simp
    simp only [inner] at h2
    omega

end LevelCode

end Hpux
