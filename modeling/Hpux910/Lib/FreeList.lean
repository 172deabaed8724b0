import Mathlib

/-!
# Lists threaded through free memory

A free list has no storage of its own: the head is one word, and every free element holds the
address of the next one in its first word.  A place where an address is kept is `none` (the head) or
`some a` (the element `a`); `next` says what is kept there.

* `Threaded` : the addresses lead from a place through the elements of a list to 0.
* `sortList` : bubble sort that exchanges neighbours in place; `Threaded.sortList` says that it only
  permutes the list, and `bubble_sorted` that it sorts it.
* `cutRuns` : the walk that takes complete aligned runs of elements out of the list;
  `Threaded.cutRuns` says what is left.
* `thread` : the elements of fresh memory are linked.
-/

namespace Hpux

open List Function

/-- The addresses lead from a place through the elements of a list to 0. -/
def Threaded (next : Option ℕ → ℕ) : Option ℕ → List ℕ → Prop
  | c, [] => next c = 0
  | c, a :: l => (next c = a ∧ a ≠ 0) ∧ Threaded next (some a) l

variable {next next' : Option ℕ → ℕ} {c c' : Option ℕ} {l m : List ℕ} {a n : ℕ}

/-- A place is not in a list. -/
def Off (c : Option ℕ) (l : List ℕ) : Prop := ∀ a ∈ l, c ≠ some a

theorem Off.cons (h : Off c (a :: l)) : c ≠ some a ∧ Off c l :=
  ⟨h a mem_cons_self, fun b hb => h b (mem_cons_of_mem a hb)⟩

theorem off_none : Off none l := fun _ _ he => by cases he

theorem off_some (h : a ∉ l) : Off (some a) l := fun _ hb he => h (Option.some.inj he ▸ hb)

theorem Threaded.congr (h : Threaded next c l) (hc : next' c = next c)
    (hl : ∀ a ∈ l, next' (some a) = next (some a)) : Threaded next' c l := by
  induction l generalizing c with
  | nil => exact hc.trans h
  | cons b l ih =>
    exact ⟨⟨hc.trans h.1.1, h.1.2⟩, ih h.2 (hl b mem_cons_self)
      fun a ha => hl a (mem_cons_of_mem b ha)⟩

/-- The same elements are reached from another place. -/
theorem Threaded.rehead (h : Threaded next c l) (hc : next' c' = next c)
    (hl : ∀ a ∈ l, next' (some a) = next (some a)) : Threaded next' c' l := by
  cases l with
  | nil => exact hc.trans h
  | cons b l =>
    exact ⟨⟨hc.trans h.1.1, h.1.2⟩, h.2.congr (hl b mem_cons_self)
      fun a ha => hl a (mem_cons_of_mem b ha)⟩

theorem Threaded.head_eq (h : Threaded next c l) : next c = l.head?.getD 0 := by
  cases l with
  | nil => exact h
  | cons b l => exact h.1.1

theorem Threaded.eq_nil_iff (h : Threaded next c l) : l = [] ↔ next c = 0 := by
  cases l with
  | nil => exact ⟨fun _ => h, fun _ => rfl⟩
  | cons b l =>
    refine ⟨fun he => absurd he (cons_ne_nil b l), fun he => ?_⟩
    exact absurd (h.1.1.symm.trans he) h.1.2

theorem Threaded.unique {m : List ℕ} (h : Threaded next c l) (hm : Threaded next c m) : l = m := by
  induction l generalizing c m with
  | nil => exact (hm.eq_nil_iff.2 h).symm
  | cons a l ih =>
    cases m with
    | nil => exact absurd (h.1.1.symm.trans hm) h.1.2
    | cons b m =>
      obtain rfl : a = b := h.1.1.symm.trans hm.1.1
      rw [ih h.2 hm.2]

/-- The number of elements, counted along the list. -/
def listCount (next : Option ℕ → ℕ) : ℕ → Option ℕ → ℕ
  | 0, _ => 0
  | fuel + 1, c => if next c = 0 then 0 else listCount next fuel (some (next c)) + 1

theorem Threaded.listCount {fuel : ℕ} (h : Threaded next c l) (hf : l.length ≤ fuel) :
    listCount next fuel c = l.length := by
  induction l generalizing c fuel with
  | nil =>
    have hz : next c = 0 := h
    cases fuel <;> simp [Hpux.listCount, hz]
  | cons a l ih =>
    obtain _ | fuel := fuel
    · simp at hf
    · simp only [Hpux.listCount, h.1.1, h.1.2, if_false, length_cons]
      rw [ih h.2 (by simpa using hf)]

/-- The last place of a list that begins at `c`. -/
def endPlace : Option ℕ → List ℕ → Option ℕ
  | c, [] => c
  | _, a :: l => endPlace (some a) l

theorem endPlace_mem (h : l ≠ []) : ∃ a ∈ l, endPlace c l = some a := by
  induction l generalizing c with
  | nil => exact absurd rfl h
  | cons b l ih =>
    cases l with
    | nil => exact ⟨b, mem_cons_self, rfl⟩
    | cons d l =>
      obtain ⟨a, ha, he⟩ := ih (c := some b) (by simp)
      exact ⟨a, mem_cons_of_mem b ha, he⟩

theorem off_endPlace (hl : (l ++ m).Nodup) (hc : Off c (l ++ m)) : Off (endPlace c l) m := by
  by_cases hnil : l = []
  · rw [hnil] at hc ⊢
    exact hc
  · obtain ⟨b, hb, hbe⟩ := endPlace_mem (c := c) hnil
    rw [hbe]
    exact off_some fun hm => (nodup_append.1 hl).2.2 b hb b hm rfl

theorem Threaded.drop (h : Threaded next c (l ++ m)) : Threaded next (endPlace c l) m := by
  induction l generalizing c with
  | nil => exact h
  | cons a l ih => exact ih h.2

/-- What follows the last place of a part of the list is replaced. -/
theorem Threaded.replace {m' : List ℕ} (h : Threaded next c (l ++ m)) (hl : l.Nodup)
    (hc : Off c l) (hm : Threaded next' (endPlace c l) m')
    (hsame : ∀ c', c' ≠ endPlace c l → (c' = c ∨ ∃ a ∈ l, c' = some a) → next' c' = next c') :
    Threaded next' c (l ++ m') := by
  induction l generalizing c with
  | nil => exact hm
  | cons a l ih =>
    obtain ⟨hal, hnd⟩ := nodup_cons.1 hl
    have hne : c ≠ endPlace (some a) l := fun he => by
      obtain ⟨b, hb, hbe⟩ := endPlace_mem (l := a :: l) (c := c) (by simp)
      exact hc b hb (he.trans hbe)
    refine ⟨⟨(hsame c hne (.inl rfl)).trans h.1.1, h.1.2⟩, ih h.2 hnd (off_some hal) hm ?_⟩
    rintro c' hc' (rfl | ⟨b, hb, rfl⟩)
    · exact hsame _ hc' (.inr ⟨a, mem_cons_self, rfl⟩)
    · exact hsame _ hc' (.inr ⟨b, mem_cons_of_mem a hb, rfl⟩)

/-! ### Sorting -/

/-- One pass of bubble sort over `n` pairs of neighbours from the place `elem` on, and whether it
exchanged any. -/
def sortPass : (Option ℕ → ℕ) → Option ℕ → ℕ → (Option ℕ → ℕ) × Bool
  | next, _, 0 => (next, false)
  | next, elem, n + 1 =>
    let a := next elem
    let b := next (some a)
    if b < a then
      let next := Function.update next elem b
      let next := Function.update next (some a) (next (some b))
      let next := Function.update next (some b) a
      ((sortPass next (some b) n).1, true)
    else sortPass next (some a) n

/-- Passes until nothing is exchanged; `n` is the number of elements that are left to sort. -/
def sortList : (Option ℕ → ℕ) → ℕ → (Option ℕ → ℕ)
  | next, 0 => next
  | next, n + 1 =>
    let r := sortPass next none n
    if r.2 then sortList r.1 n else r.1

/-- What a pass makes of the list. -/
def passList : ℕ → List ℕ → List ℕ × Bool
  | n + 1, a :: b :: l =>
    if b < a then (b :: (passList n (a :: l)).1, true)
    else
      let r := passList n (b :: l)
      (a :: r.1, r.2)
  | _, l => (l, false)

/-- What the passes make of it. -/
def bubble : ℕ → List ℕ → List ℕ
  | 0, l => l
  | n + 1, l =>
    let r := passList n l
    if r.2 then bubble n r.1 else r.1

theorem passList_perm (n : ℕ) (l : List ℕ) : (passList n l).1.Perm l := by
  fun_induction passList n l with
  | case1 n a b l h ih => exact (ih.cons b).trans (.swap a b l)
  | case2 n a b l h r ih => exact ih.cons a
  | case3 => exact .rfl

theorem bubble_perm (n : ℕ) (l : List ℕ) : (bubble n l).Perm l := by
  fun_induction bubble n l with
  | case1 => exact .rfl
  | case2 n l r h ih => exact ih.trans (passList_perm n l)
  | case3 n l r h => exact passList_perm n l

/-- What a pass does; it writes nowhere else. -/
theorem Threaded.sortPass (h : Threaded next c l) (hl : l.Nodup) (hc : Off c l)
    (hn : n + 1 ≤ l.length) : Threaded (sortPass next c n).1 c (passList n l).1 ∧
      (Hpux.sortPass next c n).2 = (passList n l).2 ∧
      ∀ c', c' ≠ c → Off c' l → (Hpux.sortPass next c n).1 c' = next c' := by
  induction n generalizing next c l with
  | zero =>
    rw [passList]
    · exact ⟨h, rfl, fun _ _ _ => rfl⟩
    · nofun
  | succ n ih =>
    obtain _ | ⟨a, _ | ⟨b, l⟩⟩ := l
    · simp at hn
    · simp at hn
    · obtain ⟨⟨hca, ha0⟩, ⟨hab, hb0⟩, hm⟩ := h
      obtain ⟨hal, hnd⟩ := nodup_cons.1 hl
      obtain ⟨hbl, hnd'⟩ := nodup_cons.1 hnd
      obtain ⟨hca', hcb, hcl⟩ : c ≠ some a ∧ c ≠ some b ∧ Off c l :=
        ⟨hc.cons.1, hc.cons.2.cons.1, hc.cons.2.cons.2⟩
      have hne : a ≠ b := fun he => hal (he ▸ mem_cons_self)
      have hal' : a ∉ l := fun hmem => hal (mem_cons_of_mem b hmem)
      simp only [Hpux.sortPass, hca, hab, passList]
      split_ifs with hlt
      · -- the neighbours are exchanged, and the pass goes on behind `b`
        have e1 : Function.update next c b (some b) = next (some b) :=
          update_of_ne (Ne.symm hcb) _ _
        rw [e1]
        have hab' : some b ≠ some a := fun he => hne (Option.some.inj he).symm
        have hnew : Threaded (Function.update (Function.update (Function.update next c b) (some a)
            (next (some b))) (some b) a) (some b) (a :: l) := by
          refine ⟨⟨update_self _ _ _, ha0⟩, hm.rehead ?_ fun d hd => ?_⟩
          · rw [update_of_ne (Ne.symm hab'), update_self]
          · have hda : some d ≠ some a := fun he => hal' (Option.some.inj he ▸ hd)
            have hdb : some d ≠ some b := fun he => hbl (Option.some.inj he ▸ hd)
            rw [update_of_ne hdb, update_of_ne hda,
              update_of_ne (Ne.symm (hcl d hd))]
        obtain ⟨ht, -, hf⟩ := ih hnew (nodup_cons.2 ⟨hal', hnd'⟩)
          (off_some fun hmem => (mem_cons.1 hmem).elim (fun he => hne he.symm) hbl)
          (by simpa using hn)
        refine ⟨⟨⟨?_, hb0⟩, ht⟩, rfl, fun c' hc' hoff => ?_⟩
        · rw [hf c hcb (fun d hd => (mem_cons.1 hd).elim (fun he => he ▸ hca') (hcl d)),
            update_of_ne hcb, update_of_ne hca', update_self]
        · obtain ⟨h1, h2, h3⟩ := (⟨hoff.cons.1, hoff.cons.2.cons.1, hoff.cons.2.cons.2⟩ :
            c' ≠ some a ∧ c' ≠ some b ∧ Off c' l)
          rw [hf c' h2 (fun d hd => (mem_cons.1 hd).elim (fun he => he ▸ h1) (h3 d)),
            update_of_ne h2, update_of_ne h1, update_of_ne hc']
      · obtain ⟨ht, hb, hf⟩ := ih (c := some a) (l := b :: l) ⟨⟨hab, hb0⟩, hm⟩ hnd
          (off_some hal) (by simpa using hn)
        refine ⟨⟨⟨?_, ha0⟩, ht⟩, hb, fun c' hc' hoff => ?_⟩
        · rw [hf c hca' hc.cons.2, hca]
        · exact hf c' hoff.cons.1 hoff.cons.2

/-- What sorting does; it writes nowhere else. -/
theorem Threaded.sortList_bubble (h : Threaded next none l) (hl : l.Nodup) (hn : n ≤ l.length) :
    Threaded (sortList next n) none (bubble n l) ∧
      ∀ b, b ∉ l → Hpux.sortList next n (some b) = next (some b) := by
  induction n generalizing next l with
  | zero => exact ⟨h, fun _ _ => rfl⟩
  | succ n ih =>
    obtain ⟨ht, hb, hf⟩ := h.sortPass hl off_none hn
    have hp := passList_perm n l
    have hf' : ∀ b, b ∉ l → (Hpux.sortPass next none n).1 (some b) = next (some b) := fun b hb =>
      hf (some b) (by simp) (off_some hb)
    simp only [Hpux.sortList, bubble, hb]
    split_ifs
    · obtain ⟨ht', hf''⟩ := ih ht (hp.nodup_iff.2 hl) (by rw [hp.length_eq]; omega)
      exact ⟨ht', fun b hb => (hf'' b fun hb' => hb (hp.mem_iff.1 hb')).trans (hf' b hb)⟩
    · exact ⟨ht, hf'⟩

theorem Threaded.sortList (h : Threaded next none l) (hl : l.Nodup) (hn : n ≤ l.length) :
    ∃ l', l'.Perm l ∧ Threaded (sortList next n) none l' ∧
      ∀ b, b ∉ l → Hpux.sortList next n (some b) = next (some b) :=
  ⟨bubble n l, bubble_perm n l, h.sortList_bubble hl hn⟩

/-- A pass does not look behind its last pair. -/
theorem passList_append (h : l.length = n + 1) :
    passList n (l ++ m) = ((passList n l).1 ++ m, (passList n l).2) := by
  induction n generalizing l with
  | zero =>
    rw [passList, passList] <;> simp
  | succ n ih =>
    obtain _ | ⟨a, _ | ⟨b, l⟩⟩ := l
    · simp at h
    · simp at h
    · simp only [cons_append, passList]
      split_ifs
      · rw [← cons_append, ih (by simpa using h)]
        rfl
      · rw [← cons_append, ih (by simpa using h)]
        rfl

/-- It brings the largest element to the end; and when it exchanges none, they are sorted. -/
theorem passList_last (h : l.length = n + 1) :
    (∃ init last, (passList n l).1 = init ++ [last] ∧ ∀ x ∈ l, x ≤ last) ∧
      ((passList n l).2 = false → (passList n l).1 = l ∧ l.Pairwise (· ≤ ·)) := by
  induction n generalizing l with
  | zero =>
    obtain ⟨a, rfl⟩ := length_eq_one_iff.1 h
    rw [passList]
    · exact ⟨⟨[], a, rfl, by simp⟩, fun _ => ⟨rfl, by simp⟩⟩
    · nofun
  | succ n ih =>
    obtain _ | ⟨a, _ | ⟨b, l⟩⟩ := l
    · simp at h
    · simp at h
    · simp only [passList]
      split_ifs with hlt
      · obtain ⟨⟨init, last, h1, h2⟩, -⟩ := ih (l := a :: l) (by simpa using h)
        refine ⟨⟨b :: init, last, by rw [h1]; rfl, ?_⟩, nofun⟩
        have ha := h2 a mem_cons_self
        simp only [forall_mem_cons] at h2 ⊢
        exact ⟨ha, by omega, h2.2⟩
      · obtain ⟨⟨init, last, h1, h2⟩, h3⟩ := ih (l := b :: l) (by simpa using h)
        have hb := h2 b mem_cons_self
        refine ⟨⟨a :: init, last, by rw [h1]; rfl, ?_⟩, fun hno => ?_⟩
        · simp only [forall_mem_cons] at h2 ⊢
          exact ⟨by omega, h2⟩
        · obtain ⟨h4, h5⟩ := h3 hno
          refine ⟨by rw [h4], pairwise_cons.2 ⟨fun x hx => ?_, h5⟩⟩
          rcases mem_cons.1 hx with rfl | hx
          · omega
          · have := (pairwise_cons.1 h5).1 x hx
            omega

/-- What is behind the elements that are left to sort is sorted already. -/
theorem bubble_sorted_append (h : l.length = n) (hm : m.Pairwise (· ≤ ·)) (hlm : ∀ x ∈ l, ∀ y ∈ m, x ≤ y) :
    (bubble n (l ++ m)).Pairwise (· ≤ ·) := by
  induction n generalizing l m with
  | zero =>
    rw [length_eq_zero_iff.1 h]
    exact hm
  | succ n ih =>
    obtain ⟨⟨init, last, h1, h2⟩, h3⟩ := passList_last h
    have hp := passList_perm n l
    rw [bubble, passList_append h]
    simp only
    split_ifs with hswap
    · rw [h1] at hp ⊢
      have hlen := hp.length_eq
      rw [length_append, length_singleton] at hlen
      rw [append_assoc]
      have hlast : last ∈ l := hp.mem_iff.1 (by simp)
      refine ih (by omega) (pairwise_cons.2 ⟨hlm last hlast, hm⟩) fun x hx y hy => ?_
      have hxl : x ∈ l := hp.mem_iff.1 (mem_append_left _ hx)
      rcases mem_cons.1 hy with rfl | hy
      · exact h2 x hxl
      · exact hlm x hxl y hy
    · obtain ⟨h4, h5⟩ := h3 (by simpa using hswap)
      rw [h4]
      exact pairwise_append.2 ⟨h5, hm, hlm⟩

theorem bubble_sorted : (bubble l.length l).Pairwise (· ≤ ·) := by
  have h := bubble_sorted_append (l := l) (m := []) rfl .nil (by simp)
  rwa [append_nil] at h

/-! ### Runs of neighbours -/

/-- `n` elements of a size, one behind the other. -/
def segment (a size n : ℕ) : List ℕ := (List.range n).map fun j => a + j * size

theorem segment_succ {size : ℕ} : segment a size (n + 1) = a :: segment (a + size) size n := by
  simp only [segment, range_succ_eq_map, map_cons, map_map]
  congr 1
  · simp
  · refine map_congr_left fun j _ => ?_
    simp only [Function.comp, Nat.succ_eq_add_one]
    ring

theorem segment_succ' {size : ℕ} : segment a size (n + 1) = segment a size n ++ [a + n * size] := by
  simp [segment, range_succ]

theorem mem_segment {size b : ℕ} : b ∈ segment a size n ↔ ∃ j < n, b = a + j * size := by
  simp [segment, eq_comm]

theorem segment_nodup {size : ℕ} (hsize : 0 < size) : (segment a size n).Nodup := by
  refine List.Nodup.map (fun i j hij => ?_) nodup_range
  exact Nat.eq_of_mul_eq_mul_right hsize (Nat.add_left_cancel hij)

/-- How many elements behind the one at `elem` follow each other in memory, `n` at most, and the
place of the last one. -/
def matchRun (next : Option ℕ → ℕ) (size : ℕ) : ℕ → Option ℕ → ℕ × Option ℕ
  | 0, elem => (0, elem)
  | n + 1, elem =>
    if next (some (next elem)) ≠ next elem + size then (0, elem)
    else
      let r := matchRun next size n (some (next elem))
      (r.1 + 1, r.2)

theorem Threaded.matchRun (size n : ℕ) (h : Threaded next c (a :: l)) :
    (matchRun next size n c).1 ≤ n ∧ ∃ rest, a :: l = segment a size (Hpux.matchRun next size n c).1 ++
        (a + (Hpux.matchRun next size n c).1 * size) :: rest ∧ (Hpux.matchRun next size n c).2 =
        endPlace c (segment a size (Hpux.matchRun next size n c).1) ∧
      ((Hpux.matchRun next size n c).1 < n →
        rest.head? ≠ some (a + ((Hpux.matchRun next size n c).1 + 1) * size)) := by
  induction n generalizing c a l with
  | zero => exact ⟨le_rfl, l, by simp [Hpux.matchRun, segment], rfl, by simp [Hpux.matchRun]⟩
  | succ n ih =>
    have hca := h.1.1
    simp only [Hpux.matchRun, hca]
    split_ifs with hne
    · refine ⟨Nat.zero_le _, l, by simp [segment], rfl, fun _ he => hne ?_⟩
      rw [h.2.head_eq, he]
      simp
    · rw [not_not] at hne
      cases l with
      | nil =>
        have hz : next (some a) = 0 := h.2
        have := h.1.2
        omega
      | cons b l =>
        obtain rfl : a + size = b := hne.symm.trans h.2.1.1
        obtain ⟨hle, rest, he, hp, hmax⟩ := ih h.2
        refine ⟨Nat.succ_le_succ hle, rest, ?_, ?_, fun hlt hhead => ?_⟩
        · rw [he, segment_succ]
          simp only [cons_append, List.cons.injEq, true_and]
          congr 2
          ring
        · rw [segment_succ]
          exact hp
        · refine hmax (Nat.lt_of_succ_lt_succ hlt) (hhead.trans ?_)
          congr 1
          ring

/-- The walk along a list that takes out the complete runs that begin at a page; `i` counts the
elements behind it, and the result has the first elements of the runs. -/
def cutRuns (pagesize size run count : ℕ) :
    ℕ → (Option ℕ → ℕ) → Option ℕ → ℕ → (Option ℕ → ℕ) × List ℕ
  | 0, next, _, _ => (next, [])
  | fuel + 1, next, list, i =>
    if count ≤ i then (next, [])
    else if next list % pagesize ≠ 0 then
      cutRuns pagesize size run count fuel next (some (next list)) (i + 1)
    else if count < i + run then (next, [])
    else
      let r := matchRun next size (run - 1) list
      if r.1 + 1 = run then
        let freep := next list
        let x := cutRuns pagesize size run count fuel
          (Function.update next list (next (some (next r.2)))) list (i + run)
        (x.1, freep :: x.2)
      else cutRuns pagesize size run count fuel next r.2 (i + r.1 + 1)

/-- What the walk leaves in the list and what it takes out; it writes nowhere else. -/
theorem Threaded.cutRuns (pagesize size run count fuel : ℕ) {i : ℕ} (h : Threaded next c l)
    (hl : l.Nodup) (hc : Off c l) (hi : count ≤ i + l.length) :
    ∃ l', Threaded (cutRuns pagesize size run count fuel next c i).1 c l' ∧
      l.Perm (l' ++ (Hpux.cutRuns pagesize size run count fuel next c i).2.flatMap
        fun a => segment a size run) ∧
      (∀ a ∈ (Hpux.cutRuns pagesize size run count fuel next c i).2, a % pagesize = 0) ∧
      ∀ c', c' ≠ c → Off c' l →
        (Hpux.cutRuns pagesize size run count fuel next c i).1 c' = next c' := by
  have hdone : ∀ {next : Option ℕ → ℕ} {c : Option ℕ} {l : List ℕ}, Threaded next c l →
      ∃ l', Threaded next c l' ∧ l.Perm (l' ++ ([] : List ℕ).flatMap fun a => segment a size run) ∧
        (∀ a ∈ ([] : List ℕ), a % pagesize = 0) ∧
        ∀ c', c' ≠ c → Off c' l → next c' = next c' := fun {_ _ l} h =>
    ⟨l, h, by simp, by simp, fun _ _ _ => rfl⟩
  induction fuel generalizing next c l i with
  | zero => exact hdone h
  | succ fuel ih =>
    simp only [Hpux.cutRuns]
    split_ifs with h1 h2 h3 h4
    · exact hdone h
    · -- the element does not begin a page
      obtain _ | ⟨a, l⟩ := l
      · simp at hi
        omega
      obtain ⟨hal, hnd⟩ := nodup_cons.1 hl
      simp only [h.1.1]
      obtain ⟨l', ht, hp, hr, hf⟩ := ih (i := i + 1) h.2 hnd (off_some hal) (by
        simp only [length_cons] at hi
        omega)
      refine ⟨a :: l', ⟨⟨?_, h.1.2⟩, ht⟩, hp.cons a, hr, fun c' _ hoff => ?_⟩
      · rw [hf c hc.cons.1 hc.cons.2, h.1.1]
      · exact hf c' hoff.cons.1 hoff.cons.2
    · exact hdone h
    · -- a complete run is taken out
      obtain _ | ⟨a, l⟩ := l
      · simp at hi
        omega
      obtain ⟨-, rest, he, hplace, -⟩ := h.matchRun size (run - 1)
      have hk : (Hpux.matchRun next size (run - 1) c).1 = run - 1 := by omega
      have hrun : run - 1 + 1 = run := by omega
      rw [hk] at he hplace
      have hseg : a :: l = segment a size run ++ rest := by
        rw [he, ← hrun, segment_succ', Nat.add_sub_cancel]
        simp
      have hlast : Threaded next (endPlace c (segment a size (run - 1)))
          ((a + (run - 1) * size) :: rest) := (he ▸ h).drop
      have hoffr : Off c rest := fun b hb => hc b (hseg ▸ mem_append_right _ hb)
      simp only [hplace, hlast.1.1]
      have hnew : Threaded (Function.update next c (next (some (a + (run - 1) * size)))) c rest :=
        hlast.2.rehead (update_self _ _ _) fun b hb =>
          update_of_ne (Ne.symm (hoffr b hb)) _ _
      obtain ⟨l', ht, hp, hr, hf⟩ := ih (i := i + run) hnew
        (nodup_append.1 (hseg ▸ hl)).2.1 hoffr (by
          have hlen := congrArg List.length hseg
          simp only [segment, length_append, length_map, length_range] at hlen
          omega)
      refine ⟨l', ht, ?_, ?_, fun c' hc' hoff => ?_⟩
      · rw [hseg, flatMap_cons, h.1.1]
        exact ((hp.append_left _).trans (perm_append_comm_assoc _ _ _))
      · intro b hb
        obtain rfl | hb := mem_cons.1 hb
        · simpa using h2
        · exact hr b hb
      · rw [hf c' hc' fun b hb => hoff b (hseg ▸ mem_append_right _ hb),
          update_of_ne hc']
    · -- the walk goes on at the last element that matched
      obtain _ | ⟨a, l⟩ := l
      · simp at hi
        omega
      obtain ⟨hle, rest, he, hplace, -⟩ := h.matchRun size (run - 1)
      generalize (Hpux.matchRun next size (run - 1) c).1 = k at he hplace hle h4 ⊢
      rw [hplace]
      have hnd := nodup_append.1 (he ▸ hl)
      have hend : ∀ b ∈ segment a size k, b ∉ (a + k * size) :: rest := fun b hb hb' =>
        hnd.2.2 b hb b hb' rfl
      have hsegl : ∀ b ∈ segment a size k, b ∈ a :: l := fun b hb =>
        he ▸ mem_append_left _ hb
      have hrestl : ∀ b ∈ (a + k * size) :: rest, b ∈ a :: l := fun b hb =>
        he ▸ mem_append_right _ hb
      have hoff : Off (endPlace c (segment a size k)) ((a + k * size) :: rest) :=
        off_endPlace (he ▸ hl) (he ▸ hc)
      obtain ⟨l', ht, hp, hr, hf⟩ := ih (i := i + k + 1) (he ▸ h).drop hnd.2.1 hoff (by
        have hlen := congrArg List.length he
        simp only [segment, length_append, length_map, length_range,
          length_cons] at hlen
        simp only [length_cons] at hi ⊢
        omega)
      refine ⟨segment a size k ++ l', ?_, ?_, hr, fun c' hc' hoff' => ?_⟩
      · refine (he ▸ h).replace hnd.1 (fun b hb => hc b (hsegl b hb)) ht ?_
        rintro c' hc' (rfl | ⟨b, hb, rfl⟩)
        · exact hf _ hc' fun b hb => hc b (hrestl b hb)
        · exact hf _ hc' (off_some (hend b hb))
      · rw [he, append_assoc]
        exact hp.append_left _
      · refine hf c' ?_ fun b hb => hoff' b (hrestl b hb)
        by_cases hnil : segment a size k = []
        · rw [hnil]
          exact hc'
        · obtain ⟨b, hb, hbe⟩ := endPlace_mem (c := c) hnil
          rw [hbe]
          exact hoff' b (hsegl b hb)

/-! ### Fresh memory -/

/-- The first `n` elements of fresh memory are made to point to the one behind. -/
def thread (mem : ℕ → ℕ) (va size : ℕ) : ℕ → ℕ → ℕ
  | 0 => mem
  | n + 1 => Function.update (thread mem va size n) (va + n * size) (va + (n + 1) * size)

theorem thread_of_notMem {mem : ℕ → ℕ} {va size b : ℕ} (h : b ∉ segment va size n) :
    thread mem va size n b = mem b := by
  induction n with
  | zero => rfl
  | succ n ih =>
    rw [segment_succ', mem_append, not_or, mem_singleton] at h
    rw [thread, update_of_ne h.2, ih h.1]

theorem thread_apply {mem : ℕ → ℕ} {va size j : ℕ} (hsize : 0 < size) (hj : j < n) :
    thread mem va size n (va + j * size) = va + (j + 1) * size := by
  induction n with
  | zero => omega
  | succ n ih =>
    rw [thread]
    by_cases he : j = n
    · rw [he, update_self]
    · have hne : va + j * size ≠ va + n * size := fun h =>
        he (Nat.eq_of_mul_eq_mul_right hsize (Nat.add_left_cancel h))
      rw [update_of_ne hne, ih (by omega)]

/-- Fresh elements before a list. -/
theorem Threaded.segment {va size : ℕ} (h : Threaded next (some (va + n * size)) l)
    (hc : next c = va) (hva : va ≠ 0)
    (hnext : ∀ j < n, next (some (va + j * size)) = va + (j + 1) * size) :
    Threaded next c (segment va size (n + 1) ++ l) := by
  induction n generalizing c va with
  | zero =>
    refine ⟨⟨?_, ?_⟩, ?_⟩
    · simpa using hc
    · simpa using hva
    · simpa using h
  | succ n ih =>
    rw [segment_succ]
    have h0 := hnext 0 (Nat.succ_pos n)
    simp only [Nat.zero_mul, Nat.add_zero, Nat.zero_add, Nat.one_mul] at h0
    refine ⟨⟨hc, hva⟩, ih ?_ h0 (by omega) fun j hj => ?_⟩
    · rw [show va + size + n * size = va + (n + 1) * size by ring]
      exact h
    · have hj' := hnext (j + 1) (by omega)
      rw [show va + size + j * size = va + (j + 1) * size by ring, hj']
      ring

end Hpux
