import Hpux910.Lib.FreeRuns
import Hpux910.Sys.KernMalloRuns

/-!
# Coalescing in the kernel memory allocator

The pass of `kfree_unused` over the free list of one bucket: `kfree_sort_list` sorts it, and
`kfree_free_pages` takes the pages out of it all of whose elements are on it.

The sort and what is taken out are right, but `kfree_free_pages` does not find every such page.  At
a page that is not complete it makes `list` the last element that matched and counts that element
too, so `i` gets one ahead of the list with every such page; and when the second element of such a
page is not free, `list` stays where it is until `i` has reached the end.

* `State.sorted`, `State.freed` : what the sort leaves, and the pages handed to `kdfree`.
* `Exact` : the pass is exact.
* `kfree_unused_exact_iff` : when it is.
-/

namespace Hpux

namespace Mallo

variable (C : Config) (s : State) (indx : ℕ)

/-! ### The pass over a bucket -/

/-- The list that `kfree_sort_list` leaves. -/
def State.sorted : Option ℕ → ℕ :=
  let next := s.cells false indx
  if indx < C.bucketindx C.nbpg then sortList next (listCount next (2 ^ 32) none) else next

/-- `run` of `kfree_free_pages` -/
def Config.run : ℕ := if C.nbpg / 2 ^ indx < 1 then 1 else C.nbpg / 2 ^ indx

/-- What `kfree_free_pages` makes of the list, and the pages it hands to `kdfree`. -/
def State.freePages : (Option ℕ → ℕ) × List ℕ :=
  let count := listCount (s.cells false indx) (2 ^ 32) none
  cutRuns C.nbpg (2 ^ indx) (C.run indx) count count (s.sorted C indx) none 0

/-- The pages that are handed to `kdfree`. -/
def State.freed : List ℕ := (s.freePages C indx).2

/-- The list of a bucket: elements of its size, in words of 32 bits. -/
structure Content (l : List ℕ) : Prop where
  indx_le : indx ≤ C.pgshift
  threaded : Threaded (s.cells false indx) none l
  nodup : l.Nodup
  dvd : ∀ a ∈ l, 2 ^ indx ∣ a
  lt : ∀ a ∈ l, a < 2 ^ 32

/-- All the elements of the page `F` are in the list. -/
def FullPage (l : List ℕ) (F : ℕ) : Prop :=
  F % C.nbpg = 0 ∧ Complete (2 ^ indx) (C.run indx) l F

/-- The pass over the list `l` is exact. -/
structure Exact (l : List ℕ) : Prop where
  /-- The sort leaves a permutation in ascending order (elements of page size need none), -/
  sorted : ∃ m, Threaded (s.sorted C indx) none m ∧ m.Perm l ∧
    (indx < C.bucketindx C.nbpg → m.Pairwise (· ≤ ·))
  /-- the pages handed to `kdfree` are full pages, -/
  freed : ∀ F ∈ s.freed C indx, FullPage C indx l F
  /-- and no longer out, -/
  out : ∀ p, (s.reclaim C indx).out p = (s.out p && !decide (p * C.nbpg ∈ s.freed C indx))
  /-- their elements and no others leave the list, -/
  left : ∃ rest, Threaded ((s.reclaim C indx).cells false indx) none rest ∧
    l.Perm (rest ++ (s.freed C indx).flatMap fun F => segment F (2 ^ indx) (C.run indx))
  /-- and every full page is given back. -/
  all : ∀ F, FullPage C indx l F → F ∈ s.freed C indx

variable {C s indx} {l m : List ℕ} {F : ℕ}

theorem Config.run_eq (h : indx ≤ C.pgshift) :
    C.run indx = C.nbpg / 2 ^ indx ∧ C.run indx * 2 ^ indx = C.nbpg := by
  have hpos : 0 < C.nbpg / 2 ^ indx := Nat.div_pos (C.two_pow_le h) (Nat.two_pow_pos indx)
  have hrun : C.run indx = C.nbpg / 2 ^ indx := if_neg (by omega)
  exact ⟨hrun, by rw [hrun, Nat.div_mul_cancel (C.pow_dvd_nbpg h)]⟩

theorem Config.bucketindx_nbpg : C.bucketindx C.nbpg = C.pgshift := by
  have h1 := C.bucketindx_le (le_refl C.nbpg)
  have h2 := C.le_pow_bucketindx h1
  exact le_antisymm h1 ((Nat.pow_le_pow_iff_right (by decide)).1 h2)

theorem Content.listCount (h : Content C s indx l) :
    listCount (s.cells false indx) (2 ^ 32) none = l.length := by
  have hsub : l ⊆ List.range (2 ^ 32) := fun a ha => List.mem_range.2 (h.lt a ha)
  exact h.threaded.listCount (by simpa using (h.nodup.subperm hsub).length_le)

theorem Content.sorted (h : Content C s indx l) : ∃ m, Threaded (s.sorted C indx) none m ∧
    m.Perm l ∧ (indx < C.bucketindx C.nbpg → m.Pairwise (· ≤ ·)) := by
  unfold State.sorted
  simp only [h.listCount]
  split_ifs with hlt
  · exact ⟨bubble l.length l, (h.threaded.sortList_bubble h.nodup (le_refl _)).1,
      bubble_perm _ _, fun _ => bubble_sorted⟩
  · exact ⟨l, h.threaded, .rfl, fun hlt' => absurd hlt' hlt⟩

/-- The pages that are handed to `kdfree`. -/
theorem Content.mem_freed (h : Content C s indx l) : F ∈ s.freed C indx ↔
    FullPage C indx l F ∧ InStep (2 ^ indx) (C.run indx) l F := by
  obtain ⟨m, ht, hp, hs⟩ := h.sorted
  obtain ⟨hrun, hpage⟩ := C.run_eq h.indx_le
  have hnd : m.Nodup := hp.nodup_iff.2 h.nodup
  have hsize := Nat.two_pow_pos indx
  rw [← InStep.perm hp]
  unfold FullPage State.freed State.freePages
  rw [← Complete.perm hp]
  simp only [h.listCount, ← hp.length_eq]
  rw [← hpage, and_assoc]
  obtain hlt | heq := Nat.lt_or_eq_of_le h.indx_le
  · have hlt' : m.Pairwise (· < ·) := by
      have hle := hs (by rwa [Config.bucketindx_nbpg])
      exact (hle.and hnd).imp fun h => lt_of_le_of_ne h.1 h.2
    have hrun2 : 2 ≤ C.run indx := by
      rw [hrun, Nat.le_div_iff_mul_le hsize, ← Nat.pow_succ']
      exact Nat.pow_le_pow_right (by decide) hlt
    exact mem_cutRuns_sorted hsize hrun2 hlt' (fun b hb => h.dvd b (hp.mem_iff.1 hb)) ht
  · have hone : C.run indx = 1 := by rw [hrun, heq, Config.nbpg, Nat.div_self (Nat.two_pow_pos _)]
    have hmul : ∀ b ∈ m, b % 2 ^ indx = 0 := fun b hb =>
      Nat.mod_eq_zero_of_dvd (h.dvd b (hp.mem_iff.1 hb))
    rw [hone, Nat.one_mul, cutRuns_one ht hnd off_none hmul (Nat.zero_add _) (le_refl _),
      complete_one]
    exact ⟨fun hF => ⟨hmul F hF, hF, inStep_one⟩, fun hF => hF.2.1⟩

/-! ### The theorem -/

theorem Content.two_le (h : Content C s indx l) (hl : 2 ≤ l.length) :
    s.bucket false indx ≠ 0 ∧ s.mem (s.bucket false indx) ≠ 0 := by
  obtain _ | ⟨a, _ | ⟨b, l⟩⟩ := l
  · simp at hl
  · simp at hl
  · obtain ⟨⟨h1, h2⟩, ⟨h3, h4⟩, -⟩ := h.threaded
    have h1' : s.bucket false indx = a := h1
    have h3' : s.mem a = b := h3
    rw [h1', h3']
    exact ⟨h2, h4⟩

/-- What the pass does, when the list has more than one element. -/
theorem reclaim_eq (h : s.bucket false indx ≠ 0 ∧ s.mem (s.bucket false indx) ≠ 0) :
    (s.reclaim C indx).cells false indx = (s.freePages C indx).1 ∧
      ∀ p, (s.reclaim C indx).out p = (s.out p && !decide (p * C.nbpg ∈ s.freed C indx)) := by
  have hr : s.reclaim C indx = { s with
      mem := fun a => (s.freePages C indx).1 (some a)
      bucket := fun b i => if b = false ∧ i = indx then (s.freePages C indx).1 none else s.bucket b i
      out := fun p => if p * C.nbpg ∈ s.freed C indx then false else s.out p
      page := fun p => if p * C.nbpg ∈ s.freed C indx then none else s.page p
      lock := false } := if_pos h
  rw [hr]
  refine ⟨funext fun c => ?_, fun p => ?_⟩
  · cases c with
    | none => exact if_pos ⟨rfl, rfl⟩
    | some a => rfl
  · by_cases hp : p * C.nbpg ∈ s.freed C indx <;> simp [hp]

/-- The lists of the allocator are such. -/
theorem Good.content (h : Good C s) (ht : Threaded (s.cells false indx) none l)
    (hl : l ≠ []) : Content C s indx l := by
  obtain ⟨l', ht', hnd, hmem⟩ := h.1.lists false indx
  obtain rfl := ht.unique ht'
  have helem : ∀ a ∈ l, s.Elem C indx false a := fun a ha => ((hmem a).1 ha).1
  obtain ⟨a, ha⟩ := List.exists_mem_of_ne_nil l hl
  refine ⟨(h.1.elems _ _ _ (helem a ha).1).1, ht, hnd, fun b hb => ?_, fun b hb => ?_⟩
  · exact Nat.dvd_of_mod_eq_zero (helem b hb).2
  · have h1 := h.1.page_top _ _ (helem b hb).1
    have h2 := Nat.lt_div_mul_add (a := b) C.nbpg_pos
    rw [Nat.succ_mul] at h1
    omega

/-- The pass over a bucket is exact if and only if it is in step when it comes to the full pages: of
the lower pages that have their first element on the list, but not all, each has its second there
too, and there are no more of them than elements behind the full page. -/
theorem kfree_unused_exact_iff (h : Content C s indx l) (hl : 2 ≤ l.length) :
    Exact C s indx l ↔ ∀ F, FullPage C indx l F → InStep (2 ^ indx) (C.run indx) l F := by
  refine ⟨fun he F hF => (h.mem_freed.1 (he.all F hF)).2, fun hstep => ?_⟩
  obtain ⟨hcells, hout⟩ := reclaim_eq (h.two_le hl)
  refine ⟨h.sorted, fun F hF => (h.mem_freed.1 hF).1, hout, ?_,
    fun F hF => h.mem_freed.2 ⟨hF, hstep F hF⟩⟩
  obtain ⟨m, ht, hp, -⟩ := h.sorted
  obtain ⟨rest, hrest, hperm, -, -⟩ := ht.cutRuns C.nbpg (2 ^ indx) (C.run indx) l.length l.length
    (i := 0) (hp.nodup_iff.2 h.nodup) off_none (by rw [hp.length_eq, Nat.zero_add])
  refine ⟨rest, ?_, ?_⟩
  · rw [hcells, State.freePages, h.listCount]
    exact hrest
  · rw [State.freed, State.freePages, h.listCount]
    exact hp.symm.trans hperm

/-! ### Runs -/

/-- A page is cut in two, and the first half is freed. -/
def halfPage : List Event := [.malloc 0 2000 1 false true, .kalloced 0 (some 8192) true,
  .free 8192 1 true]

theorem kfree_unused_exact_half :
    Exact s300 (halfPage.foldl (State.next s300) .boot) 11 [8192, 10240] := by
  have hrun : Lts.Follows (fun s e => Fits s300 s e = true ∧ s.enabled s300 e = true)
      (State.next s300) .boot halfPage := by decide +kernel
  have hgood := good_reach (C := s300)
    (Lts.Reach.follows (.init rfl) (fun s e he => ⟨he.1, he.2, rfl⟩) hrun)
  have hlist : Threaded ((halfPage.foldl (State.next s300) .boot).cells false 11) none
      [8192, 10240] := by
    simp only [Threaded]
    decide +kernel
  refine (kfree_unused_exact_iff (hgood.content hlist (by simp)) (by decide)).2 fun F hF => ?_
  have hmem : F ∈ [8192, 10240] := hF.2.head (by decide)
  simp only [List.mem_cons, List.not_mem_nil, or_false] at hmem
  obtain rfl | rfl := hmem
  · decide +kernel
  · exact absurd hF.1 (by decide)

/-- Five elements of 1024 bytes are allocated, and the fifth and the first are freed. -/
def partialPage : List Event :=
  [.malloc 0 1024 1 false true, .kalloced 0 (some 4096) true, .malloc 0 1024 1 false true,
    .malloc 0 1024 1 false true, .malloc 0 1024 1 false true, .malloc 0 1024 1 false true,
    .kalloced 0 (some 8192) true, .free 8192 1 true, .free 4096 1 true]

/-- Of the page at 4096 only the first element is on the list: the page at 8192, which is all free,
is not given back. -/
theorem kfree_unused_misses_page : ∃ s l, (system s300).Reach s ∧ s.OnList false 10 l ∧
    2 ≤ l.length ∧ ¬Exact s300 s 10 l := by
  have hrun : Lts.Follows (fun s e => Fits s300 s e = true ∧ s.enabled s300 e = true)
      (State.next s300) .boot partialPage := by decide +kernel
  have hgood := good_reach (C := s300)
    (Lts.Reach.follows (.init rfl) (fun s e he => ⟨he.1, he.2, rfl⟩) hrun)
  have hlist : Threaded ((partialPage.foldl (State.next s300) .boot).cells false 10) none
      [4096, 8192, 9216, 10240, 11264] := by
    simp only [Threaded]
    decide +kernel
  have hreach : (system s300).Reach (partialPage.foldl (State.next s300) .boot) :=
    Lts.Reach.follows (.init rfl) (fun s e he => ⟨he.2, rfl⟩) hrun
  refine ⟨_, _, hreach, hlist, by decide, fun he => ?_⟩
  have hfull : FullPage s300 10 [4096, 8192, 9216, 10240, 11264] 8192 :=
    ⟨by decide, by decide +kernel⟩
  have hstep := ((hgood.content hlist (by simp)).mem_freed.1 (he.all _ hfull)).2
  revert hstep
  decide +kernel

end Mallo

end Hpux
