import Mathlib

/-!
# Lists of calls in progress

A system keeps a list of calls in progress, each with a key, and at most one for each key.  These
lemmas say what the list holds when a call begins or ends.

* `ne_of_mem_erase` : the call that ends was the only one with its key.
* `nodup_erase`, `nodup_cons`, `nodup_begin` : the keys stay apart.
* `mem_erase_other`, `mem_cons_other` : calls with other keys are not touched.
-/

namespace Hpux

namespace Pending

variable {α κ β : Type*} {l : List α} {a x : α} {key : α → κ}

/-- The call that ends was the only one with its key. -/
theorem ne_of_mem_erase [BEq α] [LawfulBEq α] (h : (l.map key).Nodup) (ha : a ∈ l) (hx : x ∈ l.erase a) :
    key x ≠ key a := by
  intro heq
  have hperm := (List.perm_cons_erase ha).map key
  rw [hperm.nodup_iff, List.map_cons, List.nodup_cons] at h
  exact h.1 (List.mem_map.2 ⟨x, hx, heq⟩)

theorem nodup_erase [BEq α] [LawfulBEq α] (a : α) (h : (l.map key).Nodup) :
    ((l.erase a).map key).Nodup :=
  h.sublist (List.erase_sublist.map key)

theorem nodup_cons (h : (l.map key).Nodup) (ha : ∀ x ∈ l, key x ≠ key a) :
    ((a :: l).map key).Nodup := by
  rw [List.map_cons, List.nodup_cons]
  refine ⟨fun hmem => ?_, h⟩
  obtain ⟨x, hx, heq⟩ := List.mem_map.1 hmem
  exact ha x hx heq

variable {l : List (κ × β)} {i j : κ} {b b' : β}

theorem mem_erase_other [BEq κ] [LawfulBEq κ] [BEq β] [LawfulBEq β] (hj : j ≠ i) :
    (j, b') ∈ l.erase (i, b) ↔ (j, b') ∈ l :=
  List.mem_erase_of_ne fun heq => hj (Prod.mk.inj heq).1

theorem mem_cons_other (hj : j ≠ i) : (j, b') ∈ (i, b) :: l ↔ (j, b') ∈ l := by
  rw [List.mem_cons]
  exact or_iff_right fun heq => hj (Prod.mk.inj heq).1

/-- A call begins at a key that no call is at. -/
theorem nodup_begin (h : (l.map Prod.fst).Nodup) (hi : ∀ b', (i, b') ∉ l) :
    (((i, b) :: l).map Prod.fst).Nodup := by
  refine nodup_cons h ?_
  rintro ⟨j, b'⟩ hx rfl
  exact hi b' hx

/-- No call is left at a key whose only call ends. -/
theorem not_mem_erase [BEq κ] [LawfulBEq κ] [BEq β] [LawfulBEq β] (h : (l.map Prod.fst).Nodup)
    (hb : (i, b) ∈ l) : (i, b') ∉ l.erase (i, b) :=
  fun hb' => ne_of_mem_erase h hb hb' rfl

end Pending

end Hpux
