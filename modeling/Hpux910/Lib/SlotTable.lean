import Mathlib

/-!
# Slot tables

A table of slots that are free or hold a key with a count, in no particular order.  A slot is free
when its count is 0, and its key then means nothing.  The table is read as a function from keys to
counts that is 0 almost everywhere.

* `Slots` : how slots are read as keys with counts.
* `Slots.total l k` : the count at `k`.
* `Slots.live l` : the slots in use.
* `Slots.Ok l` : no key is in two slots, and no count is negative.
* `Slots.total_set` : what writing one slot does to the counts.
* `Slots.Ok.total_mem`, `Slots.total_eq_zero` : finding a key finds its count.
-/

namespace Hpux

open List

/-- A reading of slots `ε` as keys in `κ` with counts. -/
structure Slots (ε κ : Type*) where
  /-- The key. -/
  key : ε → κ
  /-- The count; the slot is free when it is 0. -/
  val : ε → ℤ

namespace Slots

variable {ε κ : Type*} (S : Slots ε κ)

/-- The slots in use. -/
def live (l : List ε) : List ε := l.filter fun e => S.val e ≠ 0

/-- No key is in two slots, and no count is negative. -/
def Ok (l : List ε) : Prop :=
  (S.live l).Pairwise (fun e f => S.key e ≠ S.key f) ∧ ∀ e ∈ l, 0 ≤ S.val e

section Live

variable {S} {l pre post : List ε} {e : ε}

theorem live_append (l l' : List ε) : S.live (l ++ l') = S.live l ++ S.live l' :=
  filter_append ..

theorem live_cons_of_free (h : S.val e = 0) : S.live (e :: l) = S.live l :=
  filter_cons_of_neg (by simp [h])

theorem live_cons_of_ne (h : S.val e ≠ 0) : S.live (e :: l) = e :: S.live l :=
  filter_cons_of_pos (by simp [h])

theorem mem_live : e ∈ S.live l ↔ e ∈ l ∧ S.val e ≠ 0 := by simp [live]

theorem Ok.sublist {l' : List ε} (h : S.Ok l) (hs : l'.Sublist l) : S.Ok l' :=
  ⟨h.1.sublist (hs.filter _), fun e he => h.2 e (hs.subset he)⟩

theorem Ok.nodup (h : S.Ok l) : ((S.live l).map S.key).Nodup := pairwise_map.2 h.1

/-- The keys of the other used slots are different. -/
theorem Ok.key_ne (h : S.Ok (pre ++ e :: post)) (he : S.val e ≠ 0) :
    ∀ f ∈ pre ++ post, S.val f ≠ 0 → S.key f ≠ S.key e := by
  have hp := h.1
  rw [live_append, live_cons_of_ne he, pairwise_append, pairwise_cons] at hp
  obtain ⟨-, ⟨hpost, -⟩, hpre⟩ := hp
  intro f hf hv
  obtain hf | hf := mem_append.1 hf
  · exact hpre f (mem_live.2 ⟨hf, hv⟩) e (by simp)
  · exact (hpost f (mem_live.2 ⟨hf, hv⟩)).symm

/-- Writing a slot that is free, or in use for the same key, with a key that is nowhere else. -/
theorem Ok.set (h : S.Ok (pre ++ post)) (hf : 0 ≤ S.val f)
    (hk : ∀ g ∈ pre ++ post, S.val g ≠ 0 → S.key g ≠ S.key f) : S.Ok (pre ++ f :: post) := by
  refine ⟨?_, fun g hg => ?_⟩
  · by_cases hv : S.val f = 0
    · rw [live_append, live_cons_of_free hv, ← live_append]
      exact h.1
    · have hp := h.1
      rw [live_append, pairwise_append] at hp
      rw [live_append, live_cons_of_ne hv, pairwise_append, pairwise_cons]
      refine ⟨hp.1, ⟨fun g hg => ?_, hp.2.1⟩, fun g hg g' hg' => ?_⟩
      · obtain ⟨hg, hgv⟩ := mem_live.1 hg
        exact (hk g (by simp [hg]) hgv).symm
      · obtain rfl | hg' := mem_cons.1 hg'
        · obtain ⟨hg, hgv⟩ := mem_live.1 hg
          exact hk g (by simp [hg]) hgv
        · exact hp.2.2 g hg g' hg'
  · obtain hg | hg := mem_append.1 hg
    · exact h.2 g (by simp [hg])
    · obtain rfl | hg := mem_cons.1 hg
      · exact hf
      · exact h.2 g (by simp [hg])

end Live

variable [DecidableEq κ]

/-- What a slot adds to the count of `k`. -/
def term (k : κ) (e : ε) : ℤ := if S.key e = k then S.val e else 0

/-- The count at `k`. -/
def total (l : List ε) (k : κ) : ℤ := (l.map (S.term k)).sum

variable {S} {l pre post : List ε} {e : ε} {k : κ}

theorem term_of_free (h : S.val e = 0) : S.term k e = 0 := by simp [term, h]

@[simp] theorem total_nil : S.total [] k = 0 := rfl

theorem total_append (l l' : List ε) : S.total (l ++ l') k = S.total l k + S.total l' k := by
  simp [total]

theorem total_cons : S.total (e :: l) k = S.term k e + S.total l k := by simp [total]

/-- Writing one slot. -/
theorem total_set (e f : ε) : S.total (pre ++ f :: post) k =
    S.total (pre ++ e :: post) k + (S.term k f - S.term k e) := by
  simp only [total_append, total_cons]
  omega

/-- A key that is in no used slot has no count. -/
theorem total_eq_zero (h : ∀ e ∈ l, S.val e ≠ 0 → S.key e ≠ k) : S.total l k = 0 := by
  induction l with
  | nil => rfl
  | cons e l ih =>
    have he : S.term k e = 0 := by
      by_cases hv : S.val e = 0
      · exact term_of_free hv
      · exact if_neg (h e (by simp) hv)
    rw [total_cons, he, ih fun f hf => h f (by simp [hf]), zero_add]

/-- Free slots do not matter. -/
theorem total_live (l : List ε) : S.total (S.live l) k = S.total l k := by
  induction l with
  | nil => rfl
  | cons e l ih =>
    by_cases he : S.val e = 0
    · rw [live_cons_of_free he, ih, total_cons, term_of_free he, zero_add]
    · rw [live_cons_of_ne he, total_cons, total_cons, ih]

/-- The count of a slot is the count at its key. -/
theorem Ok.total_mem (h : S.Ok (pre ++ e :: post)) (he : S.val e ≠ 0) :
    S.total (pre ++ e :: post) (S.key e) = S.val e := by
  have hrest : S.total (pre ++ post) (S.key e) = 0 := total_eq_zero (h.key_ne he)
  rw [total_append] at hrest
  rw [total_append, total_cons, term, if_pos rfl]
  omega

/-- The used slots are those of the keys with a count. -/
theorem Ok.total_ne_zero (h : S.Ok l) : S.total l k ≠ 0 ↔ k ∈ (S.live l).map S.key := by
  constructor
  · intro hk
    by_contra hnot
    refine hk (total_eq_zero fun e he hv hek => hnot ?_)
    exact mem_map.2 ⟨e, mem_live.2 ⟨he, hv⟩, hek⟩
  · intro hk
    obtain ⟨e, he, rfl⟩ := mem_map.1 hk
    obtain ⟨he, hv⟩ := mem_live.1 he
    obtain ⟨pre, post, rfl⟩ := append_of_mem he
    rwa [h.total_mem hv]

theorem Ok.total_nonneg (h : S.Ok l) : 0 ≤ S.total l k := by
  refine sum_nonneg fun x hx => ?_
  obtain ⟨e, he, rfl⟩ := mem_map.1 hx
  unfold term
  split_ifs
  · exact h.2 e he
  · exact le_refl _

end Slots

end Hpux
