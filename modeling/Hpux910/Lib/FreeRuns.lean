import Hpux910.Lib.FreeList
import Mathlib

/-!
# Which runs are taken out of a free list

The walk `cutRuns` counts the elements behind it apart from its place in the list.  At a page whose
first element is in the list but not all the others, the count gets one ahead of the place, or the
place is not left any more.

* `Complete` : all the elements of a run are in the list.
* `InStep` : the count and the place are together when the walk comes to a page.
* `mem_cutRuns` : the runs that are taken out of a sorted list.
* `cutRuns_one` : runs of one element are all taken out.
-/

namespace Hpux

open List

variable {next : Option ℕ → ℕ} {c : Option ℕ} {L l pre rest : List ℕ} {a b F size run k lag i : ℕ}

/-- All the elements of the run at `a` are in the list. -/
def Complete (size run : ℕ) (L : List ℕ) (a : ℕ) : Prop := ∀ b ∈ segment a size run, b ∈ L

instance : Decidable (Complete size run L a) := inferInstanceAs (Decidable (∀ b ∈ _, _))

/-- The run at the page `a` is not complete. -/
def Short (size run : ℕ) (L : List ℕ) (a : ℕ) : Prop :=
  a % (run * size) = 0 ∧ ¬Complete size run L a

instance : Decidable (Short size run L a) := inferInstanceAs (Decidable (_ ∧ _))

/-- From the rest `l` of the list, where its count is `lag` ahead, the walk comes to the page `F`,
and with no more count than there are elements behind that page. -/
def InStepFrom (size run : ℕ) (L l : List ℕ) (lag F : ℕ) : Prop :=
  (∀ a ∈ l, a < F → Short size run L a → a + size ∈ L) ∧
    lag + l.countP (fun a => a < F ∧ Short size run L a) ≤ L.countP fun a => F + run * size ≤ a

/-- Below the page `F` every page that has its first element in the list, but not all, has its
second there too, and there are no more such pages than there are elements behind `F`. -/
def InStep (size run : ℕ) (L : List ℕ) (F : ℕ) : Prop := InStepFrom size run L L 0 F

instance : Decidable (InStepFrom size run L l lag F) := inferInstanceAs (Decidable (_ ∧ _))

instance : Decidable (InStep size run L F) := inferInstanceAs (Decidable (InStepFrom _ _ _ _ _ _))

theorem add_size_le (ha : size ∣ a) (hb : size ∣ b) (h : a < b) : a + size ≤ b := by
  have := Nat.le_of_dvd (Nat.sub_pos_of_lt h) (Nat.dvd_sub hb ha)
  omega

theorem Complete.head (h : Complete size run L a) (hrun : 0 < run) : a ∈ L :=
  h a (mem_segment.2 ⟨0, hrun, by simp⟩)

theorem Complete.perm {m : List ℕ} (h : l.Perm m) : Complete size run l F ↔ Complete size run m F := by
  simp [Complete, h.mem_iff]

theorem InStep.perm {m : List ℕ} (h : l.Perm m) : InStep size run l F ↔ InStep size run m F := by
  have hshort : ∀ a, Short size run l a ↔ Short size run m a := fun a => by
    rw [Short, Short, Complete.perm h]
  have hcount : l.countP (fun a => a < F ∧ Short size run l a) =
      m.countP fun a => a < F ∧ Short size run m a := by
    rw [h.countP_eq]
    exact countP_congr fun a _ => by simp [hshort]
  unfold InStep InStepFrom
  rw [hcount, h.countP_eq fun a => decide (F + run * size ≤ a)]
  simp only [h.mem_iff, hshort]

/-- Only one element of a run begins a page. -/
theorem eq_of_mem_segment (hsize : 0 < size) (ha : a % (run * size) = 0)
    (hb : b ∈ segment a size run) (hb0 : b % (run * size) = 0) : b = a := by
  obtain ⟨j, hj, rfl⟩ := mem_segment.1 hb
  have hlt : j * size < run * size := Nat.mul_lt_mul_of_pos_right hj hsize
  rw [Nat.add_mod, ha, Nat.zero_add, Nat.mod_mod, Nat.mod_eq_of_lt hlt] at hb0
  rw [hb0, Nat.add_zero]

theorem countP_segment (hsize : 0 < size) (ha : a % (run * size) = 0) (hk : 0 < k) (hkr : k ≤ run)
    (haF : a < F) : (segment a size k).countP (fun b => b < F ∧ Short size run L b) =
      if Short size run L a then 1 else 0 := by
  obtain ⟨k, rfl⟩ := Nat.exists_eq_succ_of_ne_zero hk.ne'
  have htail : (segment (a + size) size k).countP (fun b => b < F ∧ Short size run L b) = 0 := by
    refine countP_eq_zero.2 fun b hb hs => ?_
    obtain ⟨-, hb0, -⟩ := of_decide_eq_true hs
    obtain ⟨j, hj, rfl⟩ := mem_segment.1 hb
    have hmem : a + size + j * size ∈ segment a size run :=
      mem_segment.2 ⟨j + 1, by omega, by ring⟩
    have := eq_of_mem_segment hsize ha hmem hb0
    omega
  rw [segment_succ, countP_cons, htail]
  simp [haF]

/-- The walk over the elements of one run that the list has in sequence. -/
theorem inStepFrom_append (hsize : 0 < size) (ha : a % (run * size) = 0) (hk : 0 < k)
    (hkr : k ≤ run) (haF : a < F) : InStepFrom size run L (segment a size k ++ l) lag F ↔
      (Short size run L a → a + size ∈ L) ∧
        InStepFrom size run L l (lag + if Short size run L a then 1 else 0) F := by
  have hseg : (∀ b ∈ segment a size k, b < F → Short size run L b → b + size ∈ L) ↔
      (Short size run L a → a + size ∈ L) := by
    refine ⟨fun h => h a (mem_segment.2 ⟨0, hk, by simp⟩) haF, fun h b hb _ hs => ?_⟩
    obtain ⟨j, hj, rfl⟩ := mem_segment.1 hb
    have he := eq_of_mem_segment hsize ha (mem_segment.2 ⟨j, by omega, rfl⟩) hs.1
    rw [he] at hs ⊢
    exact h hs
  unfold InStepFrom
  rw [countP_append, countP_segment hsize ha hk hkr haF, ← Nat.add_assoc]
  simp only [mem_append, or_imp, forall_and, hseg, and_assoc]

section

variable (hsize : 0 < size) (hL : L.Pairwise (· < ·)) (hmul : ∀ b ∈ L, size ∣ b)

include hL

/-- What is not below the place of the walk is in the rest of the list. -/
theorem mem_rest (hpre : L = pre ++ a :: l) (hb : b ∈ L) (hab : a ≤ b) : b ∈ a :: l := by
  rw [hpre] at hL hb
  rcases mem_append.1 hb with hb | hb
  · have := (pairwise_append.1 hL).2.2 b hb a mem_cons_self
    omega
  · exact hb

include hsize hmul

/-- The element that follows in memory follows in the list. -/
theorem head_rest (hpre : L = pre ++ (segment a size k ++ (a + k * size) :: rest))
    (hb : a + (k + 1) * size ∈ L) : rest.head? = some (a + (k + 1) * size) := by
  have hnext : a + (k + 1) * size = a + k * size + size := by ring
  rw [← append_assoc] at hpre
  have hrest : a + (k + 1) * size ∈ rest := by
    rcases mem_cons.1 (mem_rest hL hpre hb (by omega)) with he | hr
    · omega
    · exact hr
  rw [hpre] at hL hmul
  obtain ⟨hlt, hsorted⟩ := pairwise_cons.1 (pairwise_append.1 hL).2.1
  obtain _ | ⟨r, rest⟩ := rest
  · cases hrest
  · have hle : a + k * size + size ≤ r :=
      add_size_le (hmul _ (by simp)) (hmul _ (by simp)) (hlt r mem_cons_self)
    rcases mem_cons.1 hrest with he | hr
    · rw [he]
      rfl
    · have := (pairwise_cons.1 hsorted).1 _ hr
      omega

omit hmul

/-- The elements of a complete run, and those behind its page. -/
theorem Complete.length_le (h : Complete size run L F) (hpre : L = pre ++ l) (hF : F ∈ l) :
    run + L.countP (fun a => F + run * size ≤ a) ≤ l.length := by
  have hlow : ∀ x ∈ pre, x < F := fun x hx =>
    (pairwise_append.1 (hpre ▸ hL)).2.2 x hx F hF
  have hzero : pre.countP (fun a => F + run * size ≤ a) = 0 := by
    refine countP_eq_zero.2 fun x hx hs => ?_
    have h1 := hlow x hx
    have h2 : F + run * size ≤ x := of_decide_eq_true hs
    omega
  have hcount : L.countP (fun a => F + run * size ≤ a) = l.countP fun a => F + run * size ≤ a := by
    rw [hpre, countP_append, hzero, Nat.zero_add]
  have hsub : segment F size run ⊆ l.filter fun a => ¬F + run * size ≤ a := fun b hb => by
    obtain ⟨j, hj, rfl⟩ := mem_segment.1 hb
    have hlt : j * size < run * size := Nat.mul_lt_mul_of_pos_right hj hsize
    refine mem_filter.2 ⟨?_, by simpa using hlt⟩
    rcases mem_append.1 (hpre ▸ h _ hb) with hx | hx
    · have := hlow _ hx
      omega
    · exact hx
  have hle := ((segment_nodup hsize).subperm hsub).length_le
  rw [← countP_eq_length_filter] at hle
  have hsum := length_eq_countP_add_countP (fun a => decide (F + run * size ≤ a)) (l := l)
  simp only [segment, length_map, length_range] at hle
  simp only [decide_eq_true_eq] at hsum
  omega

end

/-- Where the walk ends, no page is left that it should take. -/
theorem not_inStepFrom (hsize : 0 < size) (hL : L.Pairwise (· < ·)) (hpre : L = pre ++ l)
    (hend : L.length < pre.length + lag + run) :
    ¬(F ∈ l ∧ F % (run * size) = 0 ∧ Complete size run L F ∧ InStepFrom size run L l lag F) := by
  rintro ⟨hF, -, hcomp, -, hlag⟩
  have hle := hcomp.length_le hsize hL hpre hF
  have hlen := congrArg List.length hpre
  rw [length_append] at hlen
  omega

/-- The walk takes the complete runs for which it is in step, and no others. -/
theorem mem_cutRuns {fuel : ℕ} (hsize : 0 < size) (hrun : 2 ≤ run)
    (hL : L.Pairwise (· < ·)) (hmul : ∀ b ∈ L, size ∣ b) (h : Threaded next c l) (hc : Off c l)
    (hpre : L = pre ++ l) (hfuel : L.length ≤ fuel + (pre.length + lag)) :
    F ∈ (cutRuns (run * size) size run L.length fuel next c (pre.length + lag)).2 ↔
      F ∈ l ∧ F % (run * size) = 0 ∧ Complete size run L F ∧ InStepFrom size run L l lag F := by
  induction fuel generalizing next c l pre lag with
  | zero =>
    simp only [cutRuns, not_mem_nil, false_iff]
    exact not_inStepFrom hsize hL hpre (by omega)
  | succ fuel ih =>
    have hlen := congrArg List.length hpre
    rw [length_append] at hlen
    simp only [cutRuns]
    split_ifs with h1 h2 h3 h4
    · simp only [not_mem_nil, false_iff]
      exact not_inStepFrom hsize hL hpre (by omega)
    · -- the first element does not begin a page
      obtain _ | ⟨a, l⟩ := l
      · simp only [length_nil] at hlen
        omega
      simp only [h.1.1] at h2 ⊢
      have hpre' : L = (pre ++ [a]) ++ l := by simpa using hpre
      have hnd : (a :: l).Nodup := (nodup_append.1 (hpre ▸ hL.nodup)).2.1
      have hi : pre.length + lag + 1 = (pre ++ [a]).length + lag := by
        rw [length_append, length_singleton]
        omega
      rw [hi, ih h.2 (off_some (nodup_cons.1 hnd).1) hpre' (by omega)]
      have hshort : ¬Short size run L a := fun hs => h2 hs.1
      have hfrom : InStepFrom size run L (a :: l) lag F ↔ InStepFrom size run L l lag F := by
        simp [InStepFrom, hshort]
      rw [hfrom, mem_cons]
      refine and_congr_left fun hF => ⟨.inr, fun hmem => hmem.resolve_left ?_⟩
      rintro rfl
      exact h2 hF.1
    · simp only [not_mem_nil, false_iff]
      exact not_inStepFrom hsize hL hpre h3
    · -- a complete run
      obtain _ | ⟨a, l⟩ := l
      · simp only [length_nil] at hlen
        omega
      obtain ⟨-, rest, he, hplace, -⟩ := h.matchRun size (run - 1)
      have hk : (matchRun next size (run - 1) c).1 = run - 1 := by omega
      have hrun' : run - 1 + 1 = run := by omega
      rw [hk] at he hplace
      have hseg : a :: l = segment a size run ++ rest := by
        rw [he, ← hrun', segment_succ', Nat.add_sub_cancel]
        simp
      have hlast : Threaded next (endPlace c (segment a size (run - 1)))
          ((a + (run - 1) * size) :: rest) := (he ▸ h).drop
      have hoff : Off c rest := fun b hb => hc b (hseg ▸ mem_append_right _ hb)
      simp only [hplace, hlast.1.1, h.1.1, not_not] at h2 ⊢
      have hnew : Threaded (Function.update next c (next (some (a + (run - 1) * size)))) c rest :=
        hlast.2.rehead (Function.update_self _ _ _) fun b hb =>
          Function.update_of_ne (Ne.symm (hoff b hb)) _ _
      have hpre' : L = (pre ++ segment a size run) ++ rest := by
        rw [hpre, hseg, append_assoc]
      have hi : pre.length + lag + run = (pre ++ segment a size run).length + lag := by
        simp only [length_append, segment, length_map, length_range]
        omega
      have hcomp : Complete size run L a := fun b hb => by
        rw [hpre']
        exact mem_append_left _ (mem_append_right _ hb)
      have hnot : ¬Short size run L a := fun hs => hs.2 hcomp
      have hgt : ∀ b ∈ rest, a + run * size ≤ b := fun b hb => by
        rw [hpre, he] at hL hmul
        have hlt := (pairwise_cons.1 (pairwise_append.1
          (pairwise_append.1 hL).2.1).2.1).1 b hb
        have := add_size_le (hmul _ (by simp)) (hmul b (by simp [hb])) hlt
        have hr : run * size = (run - 1) * size + size := by rw [← Nat.succ_mul, Nat.succ_eq_add_one, hrun']
        omega
      have hpos : 0 < run * size := Nat.mul_pos (by omega) hsize
      have hfrom : ∀ {F}, F ∈ rest → (InStepFrom size run L (segment a size run ++ rest) lag F ↔
          InStepFrom size run L rest lag F) := fun hF => by
        have := hgt _ hF
        rw [inStepFrom_append hsize h2 (by omega) (le_refl run) (by omega), if_neg hnot]
        simp [hnot]
      rw [hi, mem_cons, ih hnew hoff hpre' (by omega), hseg]
      constructor
      · rintro (rfl | ⟨hF, hF0, hFc, hFs⟩)
        · -- no page is below the first element
          have hmin : ∀ b ∈ segment F size run ++ rest, F ≤ b := fun b hb => by
            rcases mem_append.1 hb with hb | hb
            · obtain ⟨j, -, rfl⟩ := mem_segment.1 hb
              omega
            · have := hgt b hb
              omega
          refine ⟨mem_append_left _ (mem_segment.2 ⟨0, by omega, by simp⟩), h2, hcomp,
            fun b hb hlt => absurd (hmin b hb) (by omega), ?_⟩
          have hzero : (segment F size run ++ rest).countP
              (fun b => b < F ∧ Short size run L b) = 0 := by
            refine countP_eq_zero.2 fun b hb hs => ?_
            have h5 := hmin b hb
            have h6 := (of_decide_eq_true hs).1
            omega
          have hrest : rest.countP (fun b => F + run * size ≤ b) = rest.length :=
            countP_eq_length.2 fun b hb => decide_eq_true (hgt b hb)
          have hle : rest.countP (fun b => F + run * size ≤ b) ≤
              L.countP fun b => F + run * size ≤ b := by
            rw [hpre', countP_append]
            omega
          have hlen' := congrArg List.length hpre'
          simp only [length_append, segment, length_map, length_range] at hlen'
          omega
        · exact ⟨mem_append_right _ hF, hF0, hFc, (hfrom hF).2 hFs⟩
      · rintro ⟨hF, hF0, hFc, hFs⟩
        rcases mem_append.1 hF with hF | hF
        · exact .inl (eq_of_mem_segment hsize h2 hF hF0)
        · exact .inr ⟨hF, hF0, hFc, (hfrom hF).1 hFs⟩
    · obtain _ | ⟨a, l⟩ := l
      · simp only [length_nil] at hlen
        omega
      obtain ⟨hle, rest, he, hplace, hmax⟩ := h.matchRun size (run - 1)
      generalize (matchRun next size (run - 1) c).1 = k at he hplace hle h4 hmax ⊢
      simp only [h.1.1, not_not] at h2
      have hfirst : L = pre ++ (segment a size k ++ (a + k * size) :: rest) := by rw [hpre, he]
      have hbehind : a + (k + 1) * size ∉ L := fun hmem =>
        hmax (by omega) (head_rest hsize hL hmul hfirst hmem)
      have hshort : Short size run L a :=
        ⟨h2, fun hcomp => hbehind (hcomp _ (mem_segment.2 ⟨k + 1, by omega, rfl⟩))⟩
      rw [hplace]
      obtain rfl | hk := Nat.eq_zero_or_pos k
      · -- the place is not left any more
        have hoffs : endPlace c (segment a size 0) = c := rfl
        rw [Nat.zero_add, Nat.one_mul] at hbehind
        have hi : pre.length + lag + 0 + 1 = pre.length + (lag + 1) := by omega
        rw [hoffs, hi, ih h hc hpre (by omega)]
        have hstuck : ∀ {lag}, ¬(F ∈ a :: l ∧ F % (run * size) = 0 ∧ Complete size run L F ∧
            InStepFrom size run L (a :: l) lag F) := by
          rintro lag ⟨hF, -, hFc, hFs, -⟩
          rcases mem_cons.1 hF with rfl | hF
          · exact hshort.2 hFc
          · have hlt := (pairwise_cons.1 (pairwise_append.1 (hpre ▸ hL)).2.1).1 F hF
            exact hbehind (hFs a mem_cons_self hlt hshort)
        exact iff_of_false hstuck hstuck
      · have hpre' : L = (pre ++ segment a size k) ++ (a + k * size) :: rest := by
          rw [hfirst, append_assoc]
        have hi : pre.length + lag + k + 1 = (pre ++ segment a size k).length + (lag + 1) := by
          simp only [length_append, segment, length_map, length_range]
          omega
        have hlt : ∀ b ∈ (a + k * size) :: rest, a < b := fun b hb => by
          have hsorted := (pairwise_append.1 (hfirst ▸ hL)).2.1
          exact (pairwise_append.1 hsorted).2.2 a (mem_segment.2 ⟨0, hk, by simp⟩) b hb
        have hnext : a + size ∈ L := by
          have hmem : a + size ∈ segment a size (k + 1) := mem_segment.2 ⟨1, by omega, by ring⟩
          rw [segment_succ'] at hmem
          rw [hfirst]
          rcases mem_append.1 hmem with hmem | hmem
          · simp [hmem]
          · rw [mem_singleton.1 hmem]
            simp
        have hfrom : ∀ {F}, F ∈ (a + k * size) :: rest →
            (InStepFrom size run L (segment a size k ++ (a + k * size) :: rest) lag F ↔
              InStepFrom size run L ((a + k * size) :: rest) (lag + 1) F) := fun hF => by
          rw [inStepFrom_append hsize h2 hk (by omega) (hlt _ hF), if_pos hshort]
          simp [hnext]
        have hnd : (segment a size k ++ (a + k * size) :: rest).Nodup :=
          (nodup_append.1 (hfirst ▸ hL.nodup)).2.1
        rw [hi, ih (he ▸ h).drop (off_endPlace hnd (he ▸ hc)) hpre' (by omega), he]
        constructor
        · rintro ⟨hF, hF0, hFc, hFs⟩
          exact ⟨mem_append_right _ hF, hF0, hFc, (hfrom hF).2 hFs⟩
        · rintro ⟨hF, hF0, hFc, hFs⟩
          rcases mem_append.1 hF with hF | hF
          · obtain ⟨j, hj, rfl⟩ := mem_segment.1 hF
            have hFa := eq_of_mem_segment hsize h2 (mem_segment.2 ⟨j, by omega, rfl⟩) hF0
            exact absurd (hFa ▸ hFc) hshort.2
          · exact ⟨hF, hF0, hFc, (hfrom hF).1 hFs⟩

/-- The walk over the whole of a sorted list. -/
theorem mem_cutRuns_sorted (hsize : 0 < size) (hrun : 2 ≤ run) (hL : L.Pairwise (· < ·))
    (hmul : ∀ b ∈ L, size ∣ b) (h : Threaded next none L) :
    F ∈ (cutRuns (run * size) size run L.length L.length next none 0).2 ↔
      F % (run * size) = 0 ∧ Complete size run L F ∧ InStep size run L F := by
  have hfuel : L.length ≤ L.length + (([] : List ℕ).length + 0) := Nat.le_add_right _ _
  refine (mem_cutRuns hsize hrun hL hmul h off_none L.nil_append.symm hfuel).trans ?_
  exact and_iff_right_of_imp fun hF => hF.2.1.head (by omega)

theorem complete_one : Complete size 1 L F ↔ F ∈ L := by
  simp [Complete, segment]

theorem inStep_one : InStep size 1 L F := by
  have hshort : ∀ a ∈ L, ¬Short size 1 L a := fun a ha hs => hs.2 (complete_one.2 ha)
  refine ⟨fun a ha _ hs => absurd hs (hshort a ha), ?_⟩
  have hzero : L.countP (fun a => a < F ∧ Short size 1 L a) = 0 :=
    countP_eq_zero.2 fun a ha hs => hshort a ha (of_decide_eq_true hs).2
  omega

/-- Runs of one element are all taken, in any order. -/
theorem cutRuns_one {fuel count : ℕ} (h : Threaded next c l) (hl : l.Nodup) (hc : Off c l)
    (hmul : ∀ b ∈ l, b % size = 0) (hi : i + l.length = count) (hfuel : l.length ≤ fuel) :
    (cutRuns size size 1 count fuel next c i).2 = l := by
  induction l generalizing next fuel i with
  | nil =>
    obtain _ | fuel := fuel
    · rfl
    · have hdone : count ≤ i := by simpa using hi.ge
      simp only [cutRuns, if_pos hdone]
  | cons a l ih =>
    obtain _ | fuel := fuel
    · simp at hfuel
    · simp only [length_cons] at hi hfuel
      have h1 : ¬count ≤ i := by omega
      have h2 : ¬count < i + 1 := by omega
      have h3 : ¬a % size ≠ 0 := not_not.2 (hmul a mem_cons_self)
      obtain ⟨hca, hcl⟩ := hc.cons
      simp only [cutRuns, matchRun, h.1.1, if_neg h1, if_neg h2, if_neg h3, Nat.sub_self,
        Nat.zero_add, if_true]
      rw [ih (h.2.rehead (Function.update_self _ _ _) fun b hb =>
          Function.update_of_ne (Ne.symm (hcl b hb)) _ _) (nodup_cons.1 hl).2 hcl
        (fun b hb => hmul b (mem_cons_of_mem a hb)) (by omega) (by omega)]

end Hpux
