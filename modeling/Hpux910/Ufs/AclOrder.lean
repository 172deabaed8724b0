import Hpux910.Ufs.Acl
import Mathlib

/-!
# The order of an access control list

* `Tuple.Valid` : the ids of an entry are not above those that stand for any user or group.
* `tupleOrder_spec` : the search compares by the order of the entries.
* `insertTuple_sorted` : an insertion into a sorted array.
* `Sorted.span` : a sorted list is read level by level.
-/

namespace Hpux.Acl

open List

variable {a b c t : Tuple} {l acl acl' : List Tuple} {k n : ℕ}

/-- The ids are not above those that stand for any user or group. -/
def Tuple.Valid (t : Tuple) : Prop := t.uid ≤ nsUser ∧ t.gid ≤ nsGroup

/-- The entries are in order. -/
abbrev Sorted (l : List Tuple) : Prop := l.Pairwise Tuple.Before

theorem Tuple.Before.trans (h : a.Before b) (h' : b.Before c) : a.Before c := by
  unfold Tuple.Before at *
  omega

theorem Valid.ne_unused (h : t.Valid) : t.uid ≠ aclUnused := by
  have h1 := h.1
  unfold nsUser at h1
  unfold aclUnused
  omega

theorem tupleOrder_spec (ha : a.Valid) (hb : b.Valid) : tupleOrder a.uid a.gid b = .gt ∧ b.Before a ∨
      tupleOrder a.uid a.gid b = .eq ∧ a.uid = b.uid ∧ a.gid = b.gid ∨
      tupleOrder a.uid a.gid b = .lt ∧ a.Before b := by
  obtain ⟨h1, h2⟩ := ha
  obtain ⟨h3, h4⟩ := hb
  unfold tupleOrder Tuple.Before Tuple.level
  unfold nsUser nsGroup at *
  split_ifs <;> simp <;> omega

theorem tupleOrder_unused (ha : a.Valid) : tupleOrder a.uid a.gid unused = .lt := by
  obtain ⟨h1, h2⟩ := ha
  unfold tupleOrder unused
  unfold nsUser nsGroup aclUnused at *
  dsimp only
  split_ifs <;> first | rfl | omega

/-- Where an entry goes in a sorted array with unused entries at its end. -/
theorem findPlace_spec (ht : t.Valid) (hl : ∀ x ∈ l, Tuple.Valid x) (hs : Sorted l)
    (rest : List Tuple) (hrest : rest.head? = some unused ∨ rest = []) :
    (findPlace t.uid t.gid (l ++ rest) = none ∧ ∃ x ∈ l, x.uid = t.uid ∧ x.gid = t.gid) ∨
      ∃ l1 l2, l = l1 ++ l2 ∧ findPlace t.uid t.gid (l ++ rest) = some l1.length ∧
        (∀ x ∈ l1, x.Before t) ∧ ∀ x ∈ l2, t.Before x := by
  induction l with
  | nil =>
    refine .inr ⟨[], [], rfl, ?_, nofun, nofun⟩
    cases rest with
    | nil => rfl
    | cons r rest =>
      obtain rfl : r = unused := by simpa using hrest
      simp only [nil_append, findPlace, tupleOrder_unused ht]
      rfl
  | cons x l ih =>
    have hx := hl x (mem_cons_self ..)
    obtain ⟨hxl, hs⟩ := pairwise_cons.1 hs
    simp only [cons_append, findPlace]
    rcases tupleOrder_spec ht hx with ⟨h1, h2⟩ | ⟨h1, h2, h3⟩ | ⟨h1, h2⟩ <;> rw [h1]
    · rcases ih (fun y hy => hl y (mem_cons_of_mem _ hy)) hs with ⟨h3, y, hy, h4⟩ |
        ⟨l1, l2, rfl, h3, h4, h5⟩
      · refine .inl ⟨by rw [h3]; rfl, y, mem_cons_of_mem _ hy, h4⟩
      · refine .inr ⟨x :: l1, l2, rfl, by rw [h3]; rfl, ?_, h5⟩
        exact forall_mem_cons.2 ⟨h2, h4⟩
    · exact .inl ⟨rfl, x, mem_cons_self .., h2.symm, h3.symm⟩
    · refine .inr ⟨[], x :: l, rfl, rfl, nofun, forall_mem_cons.2 ⟨h2, ?_⟩⟩
      exact fun y hy => h2.trans (hxl y hy)

/-- An insertion that succeeds, when the part of the array that is looked at is a sorted list and
unused entries: the list gets one entry more, in order. -/
theorem insertTuple_sorted (ht : t.Valid) (hl : ∀ x ∈ l, Tuple.Valid x) (hs : Sorted l)
    (hn : l.length + k ≤ n) (rest : List Tuple) (hk : k = 0 → n = l.length)
    (h : insertTuple (l ++ (List.replicate k unused ++ rest)) t n = (acl', none)) :
    ∃ l', acl' = l' ++ (List.replicate (k - 1) unused ++ rest) ∧ l'.Perm (t :: l) ∧ Sorted l' ∧
      1 ≤ k := by
  have htake : (l ++ (List.replicate k unused ++ rest)).take n =
      l ++ (List.replicate k unused ++ rest.take (n - l.length - k)) := by
    rw [take_append, take_of_length_le (by omega), take_append,
      take_of_length_le (by simp; omega)]
    simp
  have hhead : (List.replicate k unused ++ rest.take (n - l.length - k)).head? = some unused ∨
      List.replicate k unused ++ rest.take (n - l.length - k) = [] := by
    cases k with
    | zero =>
      right
      rw [hk rfl]
      simp
    | succ k => exact .inl rfl
  simp only [insertTuple, htake] at h
  rcases findPlace_spec ht hl hs _ hhead with ⟨h1, -⟩ | ⟨l1, l2, rfl, h1, h2, h3⟩
  · rw [h1] at h
    simp at h
  · rw [h1] at h
    simp only [append_assoc, drop_left] at h
    have hused : ∀ x ∈ l2, x.uid ≠ aclUnused := fun x hx =>
      Valid.ne_unused (hl x (mem_append_right _ hx))
    cases k with
    | zero =>
      have h4 : (l2 ++ (List.replicate 0 unused ++ rest.take (n - (l1 ++ l2).length - 0))).findIdx?
          (fun x => decide (x.uid = aclUnused)) = none := by
        rw [hk rfl]
        simpa using hused
      rw [h4] at h
      simp at h
    | succ k =>
      have h4 : ∀ tail, (l2 ++ (List.replicate (k + 1) unused ++ tail)).findIdx?
          (fun x => decide (x.uid = aclUnused)) = some l2.length := by
        intro tail
        have h5 : l2.findIdx? (fun x => decide (x.uid = aclUnused)) = none := by simpa using hused
        rw [findIdx?_append, h5]
        simp [replicate_succ, findIdx?_cons, unused]
      rw [h4] at h
      simp only [Prod.mk.injEq, and_true] at h
      have h6 : (l1 ++ (l2 ++ (List.replicate (k + 1) unused ++ rest))).drop
          (l1.length + l2.length + 1) = List.replicate k unused ++ rest := by
        have h7 : l1 ++ (l2 ++ (List.replicate (k + 1) unused ++ rest)) =
            (l1 ++ l2 ++ [unused]) ++ (List.replicate k unused ++ rest) := by
          simp [replicate_succ]
        rw [h7, drop_left' (by simp; omega)]
      refine ⟨l1 ++ t :: l2, ?_, ?_, ?_, by omega⟩
      · rw [← h, h6]
        simp
      · exact perm_middle
      · refine pairwise_append.2 ⟨(pairwise_append.1 hs).1, ?_, ?_⟩
        · exact pairwise_cons.2 ⟨h3, (pairwise_append.1 hs).2.1⟩
        · intro x hx y hy
          rcases mem_cons.1 hy with rfl | hy
          · exact h2 x hx
          · exact (h2 x hx).trans (h3 y hy)

/-- An insertion succeeds when there is room and no entry with the same ids. -/
theorem insertTuple_ok (ht : t.Valid) (hl : ∀ x ∈ l, Tuple.Valid x) (hs : Sorted l)
    (hn : l.length + k ≤ n) (hk : 1 ≤ k) (rest : List Tuple)
    (hnew : ∀ x ∈ l, ¬(x.uid = t.uid ∧ x.gid = t.gid)) :
    ∃ acl', insertTuple (l ++ (List.replicate k unused ++ rest)) t n = (acl', none) := by
  obtain ⟨k, rfl⟩ : ∃ m, k = m + 1 := ⟨k - 1, by omega⟩
  have htake : (l ++ (List.replicate (k + 1) unused ++ rest)).take n =
      l ++ (List.replicate (k + 1) unused ++ rest.take (n - l.length - (k + 1))) := by
    rw [take_append, take_of_length_le (by omega), take_append,
      take_of_length_le (by simp; omega)]
    simp
  simp only [insertTuple, htake]
  have hhead : (List.replicate (k + 1) unused ++
      rest.take (n - l.length - (k + 1))).head? = some unused := rfl
  rcases findPlace_spec ht hl hs _ (.inl hhead) with ⟨-, x, hx, h1⟩ | ⟨l1, l2, rfl, h1, -, -⟩
  · exact absurd h1 (hnew x hx)
  · rw [h1]
    simp only [append_assoc, drop_left]
    have h5 : l2.findIdx? (fun x => decide (x.uid = aclUnused)) = none := by
      simpa using fun x hx => Valid.ne_unused (hl x (mem_append_right _ hx))
    rw [findIdx?_append, h5]
    simp [replicate_succ, findIdx?_cons, unused]

end Hpux.Acl
