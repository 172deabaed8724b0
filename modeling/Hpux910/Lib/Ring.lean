import Mathlib

/-!
# Rings of doubly linked nodes

A kernel queue with a head node: each node points to the next and to the previous one, and the last
one to the head.

* `Path` : the links lead from one node through a list of nodes to another, and back.
* `IsRing` : the links of a head lead through a list of nodes back to it.
* `IsRing.pushBack`, `IsRing.remove` : what linking a node in before the head and unlinking a node
  do to the list.
* `IsRing.find` : a walk along the links finds the first node with a property.
-/

namespace Hpux

open List

variable {ι : Type*}

/-- The links lead from `a` through the nodes of a list to `b`, and back. -/
def Path (next prev : ι → ι) (a : ι) : List ι → ι → Prop
  | [], b => next a = b ∧ prev b = a
  | c :: l, b => (next a = c ∧ prev c = a) ∧ Path next prev c l b

variable {next next' prev prev' : ι → ι} {a b c h p : ι} {l m r : List ι}

theorem path_append :
    Path next prev a (l ++ c :: r) b ↔ Path next prev a l c ∧ Path next prev c r b := by
  induction l generalizing a with
  | nil => exact Iff.rfl
  | cons d l ih => simp only [cons_append, Path, ih, and_assoc]

theorem Path.congr (hp : Path next prev a l b) (hn : ∀ x ∈ a :: l, next' x = next x)
    (hv : ∀ x ∈ l ++ [b], prev' x = prev x) : Path next' prev' a l b := by
  induction l generalizing a with
  | nil =>
    refine ⟨?_, ?_⟩
    · rw [hn a mem_cons_self]
      exact hp.1
    · rw [hv b (by simp)]
      exact hp.2
  | cons c l ih =>
    refine ⟨⟨?_, ?_⟩, ih hp.2 (fun x hx => hn x (mem_cons_of_mem a hx)) fun x hx =>
      hv x (mem_cons_of_mem c hx)⟩
    · rw [hn a mem_cons_self]
      exact hp.1.1
    · rw [hv c (by simp)]
      exact hp.1.2

theorem Path.prev_mem (hp : Path next prev a l b) : prev b ∈ a :: l := by
  induction l generalizing a with
  | nil => simp [hp.2]
  | cons c l ih => exact mem_cons_of_mem a (ih hp.2)

theorem Path.next_prev (hp : Path next prev a l b) : next (prev b) = b := by
  induction l generalizing a with
  | nil => rw [hp.2, hp.1]
  | cons c l ih => exact ih hp.2

theorem Path.next_eq (hp : Path next prev a l b) : next a = l.head?.getD b := by
  cases l with
  | nil => exact hp.1
  | cons c l => exact hp.1.1

/-- The last link is made to lead elsewhere. -/
theorem Path.retarget (hp : Path next prev a l p) (hd : (a :: l).Nodup)
    (hn : ∀ x ∈ a :: l, x ≠ prev p → next' x = next x) (hlast : next' (prev p) = b)
    (hv : ∀ x ∈ l, prev' x = prev x) (hb : prev' b = prev p) : Path next' prev' a l b := by
  induction l generalizing a with
  | nil =>
    obtain ⟨-, hpa⟩ := hp
    rw [hpa] at hlast hb
    exact ⟨hlast, hb⟩
  | cons c l ih =>
    obtain ⟨⟨hac, hca⟩, hrest⟩ := hp
    obtain ⟨ha, hd'⟩ := nodup_cons.1 hd
    have hne : a ≠ prev p := fun hap => ha (hap ▸ hrest.prev_mem)
    refine ⟨⟨?_, ?_⟩, ih hrest hd' (fun x hx => hn x (mem_cons_of_mem a hx)) fun x hx =>
      hv x (mem_cons_of_mem c hx)⟩
    · rw [hn a mem_cons_self hne, hac]
    · rw [hv c mem_cons_self, hca]

/-- The links of `h` lead through the nodes of `l` back to `h`. -/
structure IsRing (next prev : ι → ι) (h : ι) (l : List ι) : Prop where
  path : Path next prev h l h
  nodup : (h :: l).Nodup

namespace IsRing

theorem congr (hr : IsRing next prev h l) (hn : ∀ x ∈ h :: l, next' x = next x)
    (hv : ∀ x ∈ h :: l, prev' x = prev x) : IsRing next' prev' h l :=
  ⟨hr.path.congr hn fun x hx => hv x (by simpa [or_comm] using hx), hr.nodup⟩

/-- Linking a node in before the head. -/
theorem pushBack (hr : IsRing next prev h l) (hb : b ∉ h :: l)
    (hn : ∀ x ∈ h :: l, x ≠ prev h → next' x = next x) (hlast : next' (prev h) = b)
    (hbn : next' b = h) (hv : ∀ x ∈ l, prev' x = prev x) (hbp : prev' b = prev h)
    (hhp : prev' h = b) : IsRing next' prev' h (l ++ [b]) := by
  refine ⟨path_append.2 ⟨hr.path.retarget hr.nodup hn hlast hv hbp, hbn, hhp⟩, ?_⟩
  rw [← cons_append, nodup_append]
  refine ⟨hr.nodup, by simp, ?_⟩
  rintro x hx y hy rfl
  rw [mem_singleton] at hy
  exact hb (hy ▸ hx)

/-- Unlinking a node. -/
theorem remove (hr : IsRing next prev h (m ++ p :: r))
    (hn : ∀ x ∈ h :: (m ++ r), x ≠ prev p → next' x = next x) (hx : next' (prev p) = next p)
    (hv : ∀ x ∈ h :: (m ++ r), x ≠ next p → prev' x = prev x) (hy : prev' (next p) = prev p) :
    IsRing next' prev' h (m ++ r) := by
  obtain ⟨hm, hpr⟩ := path_append.1 hr.path
  have hnd := hr.nodup
  have hsub : (h :: (m ++ r)).Sublist (h :: (m ++ p :: r)) :=
    ((sublist_cons_self p r).append_left m).cons_cons h
  have hndm : (h :: m).Nodup := hnd.sublist ((sublist_append_left m (p :: r)).cons_cons h)
  have hnm : ∀ x ∈ h :: m, x ≠ prev p → next' x = next x := fun x hxm =>
    hn x (cons_subset_cons h (subset_append_left m r) hxm)
  refine ⟨?_, hnd.sublist hsub⟩
  cases r with
  | nil =>
    obtain ⟨hph, -⟩ := hpr
    rw [hph] at hx hv hy
    rw [append_nil] at hv ⊢
    refine hm.retarget hndm hnm hx (fun x hxm => hv x (mem_cons_of_mem h hxm) ?_) hy
    rintro rfl
    exact (nodup_cons.1 hndm).1 hxm
  | cons c r =>
    obtain ⟨⟨hpc, -⟩, hr'⟩ := hpr
    rw [hpc] at hx hv hy
    have hdis : ∀ x ∈ h :: m, ∀ y ∈ p :: c :: r, x ≠ y := by
      rw [← cons_append, nodup_append] at hnd
      exact hnd.2.2
    have hcr : c ∉ r := by
      have := (nodup_append.1 (nodup_cons.1 hnd).2).2.1
      exact (nodup_cons.1 (nodup_cons.1 this).2).1
    refine path_append.2 ⟨hm.retarget hndm hnm hx (fun x hxm => ?_) hy,
      hr'.congr (fun x hxr => ?_) fun x hxr => ?_⟩
    · exact hv x (by simp [hxm]) (hdis x (mem_cons_of_mem h hxm) c (by simp))
    · refine hn x (mem_cons_of_mem h (mem_append_right m hxr)) fun hxp => ?_
      exact hdis (prev p) hm.prev_mem x (mem_cons_of_mem p hxr) hxp.symm
    · obtain hxr | hxh := mem_append.1 hxr
      · exact hv x (by simp [hxr]) fun hxc => hcr (hxc ▸ hxr)
      · rw [mem_singleton] at hxh
        subst hxh
        exact hv x mem_cons_self (hdis x mem_cons_self c (by simp))

end IsRing

/-- A walk along the links from `a` to the first node with a property, or `none` at `h`. -/
def walk [DecidableEq ι] (next : ι → ι) (h : ι) (f : ι → Bool) : ℕ → ι → Option ι
  | 0, _ => none
  | fuel + 1, a => if a = h then none else if f a then some a else walk next h f fuel (next a)

theorem walk_path [DecidableEq ι] (f : ι → Bool) {fuel : ℕ} (hp : Path next prev a l h)
    (ha : h ∉ l) (hf : l.length < fuel) : walk next h f fuel (next a) = l.find? f := by
  induction l generalizing a fuel with
  | nil =>
    obtain _ | fuel := fuel
    · omega
    · simp [walk, hp.1]
  | cons c l ih =>
    obtain _ | fuel := fuel
    · omega
    obtain ⟨⟨hac, -⟩, hrest⟩ := hp
    rw [mem_cons, not_or] at ha
    rw [hac, walk, if_neg (Ne.symm ha.1), find?_cons]
    cases hfc : f c with
    | true => rfl
    | false =>
      rw [if_neg (by simp)]
      exact ih hrest ha.2 (by simpa using hf)

/-- Searching a ring from its head. -/
theorem IsRing.find [DecidableEq ι] (hr : IsRing next prev h l) (f : ι → Bool) {fuel : ℕ}
    (hf : l.length < fuel) : walk next h f fuel (next h) = l.find? f :=
  walk_path f hr.path (nodup_cons.1 hr.nodup).1 hf

end Hpux
