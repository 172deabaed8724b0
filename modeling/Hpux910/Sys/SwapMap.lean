import Hpux910.Lib.LinkedQueue
import Mathlib

/-!
# The swap map of a chunk

A chunk of swap space has a map with a use count for every page (`sm_ucnt`).  The pages that nobody
uses are threaded on a list through the map (`sm_next`), from `st_free` on.

* `Swaptab`, `Swpm` : a chunk and an entry of its map.
* `swapfind` : take the first run of free pages off the list.
* `swfree1` : one user of a page less, and the page back on the list.
* `freePages` : the pages with use count zero in increasing order.
* `FreeList` : the list threads exactly through these, and `st_nfpgs` counts them.
* `swapfind_spec`, `FreeList.take`, `FreeList.free` : what the routines do to it.
-/

namespace Hpux

namespace SwapMap

open List

/-! ### The routines -/

/-- An entry of the swap map (`swpm_t`). -/
structure Swpm where
  ucnt : ℕ
  next : Option ℕ
  deriving DecidableEq

/-- A chunk (`swpt_t`).  An index of -1 is `none`. -/
structure Swaptab where
  free : Option ℕ
  next : Option ℕ
  /-- `ST_FREE` -/
  stFree : Bool
  /-- `ST_INDEL` -/
  indel : Bool
  /-- `st_dev` or `st_fsp`: the swap area of the chunk. -/
  area : ℕ
  nfpgs : ℤ
  /-- `st_swpmp` is not `NULL`. -/
  mapped : Bool
  swpmp : ℕ → Swpm
  site : Option ℕ

variable (N : ℕ)

/-- The loop of `swapfind`: `i` pages of a run from `start` to `p` are found, `save` is the page
before it on the list.  Each turn follows one link. -/
def findLoop (m : ℕ → Swpm) (fin : ℤ) (size : ℕ) :
    ℕ → ℕ → ℕ → ℕ → Option ℕ → Option (ℕ × ℕ × Option ℕ)
  | 0, _, _, _, _ => none
  | fuel + 1, p, i, start, save =>
    if i < size then
      if (m p).next = some (p + 1) then findLoop m fin size fuel (p + 1) (i + 1) start save
      else
        match (m p).next with
        | none => none
        | some q => if fin < q then none else findLoop m fin size fuel q 1 q (some p)
    else some (start, p, save)

/-- `swapfind`: the first page of a run and the chunk without the run, or `none` for -1.  The
callers have `size <= st_nfpgs`, so that `st_free` is not -1. -/
def swapfind (st : Swaptab) (size : ℕ) : Option (ℕ × Swaptab) :=
  match st.free with
  | none => none
  | some p =>
    let fin : ℤ := N - size
    if fin < p then none
    else if size = 1 then some (p, { st with free := (st.swpmp p).next })
    else
      match findLoop st.swpmp fin size N p 1 p none with
      | none => none
      | some (start, p, some save) =>
        some (start, { st with
          swpmp := Function.update st.swpmp save
            { st.swpmp save with next := (st.swpmp p).next } })
      | some (start, p, none) => some (start, { st with free := (st.swpmp p).next })

/-- The end of `swalloc` and `swcontig`: the pages get their first user. -/
def Swaptab.use (st : Swaptab) (page size site : ℕ) : Swaptab :=
  { st with
    swpmp := fun p =>
      if page ≤ p ∧ p < page + size then { st.swpmp p with ucnt := 1 } else st.swpmp p
    site := some site
    nfpgs := st.nfpgs - size
    stFree := false }

/-- The search of `swfree1` for the free page before `p`. -/
def scanBack (m : ℕ → Swpm) : ℕ → Option ℕ
  | 0 => none
  | p + 1 => if (m p).ucnt = 0 then some p else scanBack m p

/-- `swfree1` once the use count of the page is zero: the page is put on the list. -/
def Swaptab.link (st : Swaptab) (page : ℕ) : Swaptab :=
  match scanBack st.swpmp page with
  | none =>
    { st with
      free := some page
      swpmp := Function.update st.swpmp page { st.swpmp page with next := st.free } }
  | some p =>
    let m := Function.update st.swpmp page { st.swpmp page with next := (st.swpmp p).next }
    { st with swpmp := Function.update m p { m p with next := some page } }

/-- `--sm_ucnt`. -/
def Swaptab.dec (st : Swaptab) (page : ℕ) : Swaptab :=
  { st with
    swpmp := Function.update st.swpmp page
      { st.swpmp page with ucnt := (st.swpmp page).ucnt - 1 } }

/-- `++sm_ucnt`. -/
def Swaptab.inc (st : Swaptab) (page : ℕ) : Swaptab :=
  { st with
    swpmp := Function.update st.swpmp page
      { st.swpmp page with ucnt := (st.swpmp page).ucnt + 1 } }

/-! ### The free pages -/

variable {N} {m m' : ℕ → Swpm} {st : Swaptab} {size page p a n : ℕ}

/-- The pages from `a` up to `a + n` that nobody uses, in increasing order. -/
def freeIn (m : ℕ → Swpm) (a n : ℕ) : List ℕ := (List.range' a n).filter fun p => (m p).ucnt = 0

theorem mem_freeIn {q : ℕ} : q ∈ freeIn m a n ↔ (a ≤ q ∧ q < a + n) ∧ (m q).ucnt = 0 := by
  simp [freeIn, mem_range'_1]

theorem freeIn_add (k : ℕ) : freeIn m a (k + n) = freeIn m a k ++ freeIn m (a + k) n := by
  unfold freeIn
  rw [← range'_append_1, filter_append]

theorem nodup_freeIn : (freeIn m a n).Nodup := (nodup_range' ..).filter _

theorem freeIn_congr (h : ∀ q, a ≤ q → q < a + n → (m' q).ucnt = (m q).ucnt) :
    freeIn m' a n = freeIn m a n := by
  refine filter_congr fun q hq => ?_
  rw [mem_range'_1] at hq
  rw [h q hq.1 hq.2]

theorem freeIn_one_of_free (h : (m p).ucnt = 0) : freeIn m p 1 = [p] := by simp [freeIn, h]

theorem freeIn_eq_range' (h : ∀ q, a ≤ q → q < a + n → (m q).ucnt = 0) :
    freeIn m a n = List.range' a n := by
  refine filter_eq_self.2 fun q hq => ?_
  rw [mem_range'_1] at hq
  simpa using h q hq.1 hq.2

theorem freeIn_eq_nil (h : ∀ q, a ≤ q → q < a + n → (m q).ucnt ≠ 0) : freeIn m a n = [] := by
  refine filter_eq_nil_iff.2 fun q hq => ?_
  rw [mem_range'_1] at hq
  simpa using h q hq.1 hq.2

theorem head?_freeIn_eq_some {q : ℕ} (h : (freeIn m a n).head? = some q) :
    (a ≤ q ∧ q < a + n) ∧ (m q).ucnt = 0 ∧ ∀ k, a ≤ k → k < q → (m k).ucnt ≠ 0 := by
  rw [freeIn, head?_filter, find?_range'_eq_some] at h
  obtain ⟨hq, hmem, hno⟩ := h
  rw [mem_range'_1] at hmem
  exact ⟨hmem, by simpa using hq, fun k hk hkq => by simpa using hno k hk hkq⟩

theorem head?_freeIn_eq_none (h : (freeIn m a n).head? = none) :
    ∀ k, a ≤ k → k < a + n → (m k).ucnt ≠ 0 := by
  intro k hk hkn hu
  rw [head?_eq_none_iff] at h
  have : k ∈ freeIn m a n := mem_freeIn.2 ⟨⟨hk, hkn⟩, hu⟩
  rw [h] at this
  exact not_mem_nil this

theorem scanBack_eq (m : ℕ → Swpm) (p : ℕ) : scanBack m p = (freeIn m 0 p).getLast? := by
  induction p with
  | zero => rfl
  | succ p ih =>
    rw [freeIn_add, Nat.zero_add, scanBack]
    split_ifs with hp
    · rw [freeIn_one_of_free hp, getLast?_concat]
    · have : freeIn m p 1 = [] := freeIn_eq_nil fun q hq hqp => by
        obtain rfl : q = p := by omega
        exact hp
      rw [this, append_nil, ih]

theorem scanBack_eq_some {q : ℕ} (hq : q < p) (hu : (m q).ucnt = 0)
    (hno : ∀ k, q < k → k < p → (m k).ucnt ≠ 0) : scanBack m p = some q := by
  obtain ⟨n, rfl⟩ : ∃ n, p = (q + 1) + n := ⟨p - (q + 1), by omega⟩
  have hnil : freeIn m (0 + (q + 1)) n = [] := freeIn_eq_nil fun k hk hkn => hno k (by omega) (by omega)
  rw [scanBack_eq, freeIn_add, hnil, append_nil, freeIn_add, Nat.zero_add,
    freeIn_one_of_free hu, getLast?_concat]

/-- The pages of the chunk that nobody uses, in increasing order. -/
def freePages (N : ℕ) (m : ℕ → Swpm) : List ℕ := freeIn m 0 N

theorem freePages_split (h : p ≤ N) : freePages N m = freeIn m 0 p ++ freeIn m p (N - p) := by
  obtain ⟨n, rfl⟩ : ∃ n, N = p + n := ⟨N - p, by omega⟩
  rw [freePages, freeIn_add, Nat.zero_add, Nat.add_sub_cancel_left]

theorem freeIn_split {k : ℕ} (h : k ≤ n) : freeIn m a n = freeIn m a k ++ freeIn m (a + k) (n - k) := by
  obtain ⟨n, rfl⟩ : ∃ l, n = k + l := ⟨n - k, by omega⟩
  rw [freeIn_add, Nat.add_sub_cancel_left]

/-- The list of the chunk: `st_free` and the links lead along `l`. -/
structure Threads (st : Swaptab) (l : List ℕ) : Prop where
  free_eq : st.free = l.head?
  links : Links (fun p => (st.swpmp p).next) l

/-- `size` consecutive free pages from `a` on. -/
def Run (N : ℕ) (m : ℕ → Swpm) (size a : ℕ) : Prop := ∀ k < size, a + k < N ∧ (m (a + k)).ucnt = 0

theorem next_eq (h : Links (fun p => (m p).next) (freePages N m)) (hp : p < N)
    (hu : (m p).ucnt = 0) : (m p).next = (freeIn m (p + 1) (N - (p + 1))).head? := by
  rw [freePages_split hp.le, freeIn_split (show 1 ≤ N - p by omega), freeIn_one_of_free hu] at h
  rw [show N - (p + 1) = N - p - 1 by omega]
  exact (links_append.1 h).2.1

/-! ### Finding a run -/

/-- What `findLoop` knows of the run it is on. -/
structure OnRun (N : ℕ) (m : ℕ → Swpm) (size p i start : ℕ) (save : Option ℕ) : Prop where
  one_le : 1 ≤ i
  le_size : i ≤ size
  pos : start + i = p + 1
  fits : start + size ≤ N
  free : ∀ k, start ≤ k → k ≤ p → (m k).ucnt = 0
  save_eq : save = scanBack m start
  before : ∀ a < start, ¬ Run N m size a

variable {save : Option ℕ}

/-- The loop ends on the first run, or there is none. -/
theorem findLoop_spec (h : Links (fun p => (m p).next) (freePages N m)) {fin : ℤ}
    (hfin : fin = N - size) {fuel i start : ℕ}
    (hr : OnRun N m size p i start save) (hfuel : N ≤ p + fuel) :
    match findLoop m fin size fuel p i start save with
    | none => ∀ a, ¬ Run N m size a
    | some (start', p', save') => OnRun N m size p' size start' save' := by
  have hp : p < N := by
    have := hr.pos
    have := hr.fits
    have := hr.le_size
    omega
  induction fuel generalizing p i start save with
  | zero => omega
  | succ fuel ih =>
    have hu := hr.free p (by have := hr.pos; have := hr.one_le; omega) le_rfl
    have hnext := next_eq h hp hu
    rw [findLoop]
    split_ifs with hi hsucc
    · -- the run goes on
      rw [hsucc] at hnext
      obtain ⟨⟨-, hlt⟩, hu', -⟩ := head?_freeIn_eq_some hnext.symm
      refine ih ?_ (by omega) (by omega)
      exact
        { hr with
          one_le := by omega
          le_size := hi
          pos := by have := hr.pos; omega
          free := fun k hk hkp => by
            obtain hk' | rfl := Nat.lt_or_eq_of_le hkp
            · exact hr.free k hk (by omega)
            · exact hu' }
    · -- the run ends: no run starts in it, since `p + 1` is in use
      have hno : ∀ k, (p + 1 < N → (m (p + 1)).ucnt ≠ 0) → k ≤ p → ¬ Run N m size k := by
        intro k hused hk hrun
        by_cases hks : k < start
        · exact hr.before k hks hrun
        · have hpos := hr.pos
          obtain ⟨hlt, hu'⟩ := hrun (p + 1 - k) (by omega)
          rw [show k + (p + 1 - k) = p + 1 by omega] at hlt hu'
          exact hused hlt hu'
      cases hq : (m p).next with
      | none =>
        rw [hq] at hnext
        have hrest := head?_freeIn_eq_none hnext.symm
        intro a hrun
        by_cases hap : a ≤ p
        · exact hno a (fun hlt => hrest (p + 1) le_rfl (by omega)) hap hrun
        · obtain ⟨hlt, hu'⟩ := hrun 0 (by omega)
          exact hrest a (by omega) (by omega) hu'
      | some q =>
        rw [hq] at hnext hsucc
        obtain ⟨⟨hpq, hqN⟩, hu', hgap⟩ := head?_freeIn_eq_some hnext.symm
        have hne : q ≠ p + 1 := fun hqp => hsucc (hqp ▸ rfl)
        have hused : (m (p + 1)).ucnt ≠ 0 := hgap (p + 1) le_rfl (by omega)
        have hbefore : ∀ a < q, ¬ Run N m size a := by
          intro a haq hrun
          by_cases hap : a ≤ p
          · exact hno a (fun _ => hused) hap hrun
          · obtain ⟨-, hu''⟩ := hrun 0 (by omega)
            exact hgap a (by omega) haq hu''
        dsimp only
        split_ifs with hend
        · -- too late in the chunk
          intro a hrun
          by_cases haq : a < q
          · exact hbefore a haq hrun
          · obtain ⟨hlt, -⟩ := hrun (size - 1) (by omega)
            omega
        · refine ih ?_ (by omega) (by omega)
          exact
            { one_le := le_rfl
              le_size := by omega
              pos := rfl
              fits := by omega
              free := fun k hk hkq => le_antisymm hk hkq ▸ hu'
              save_eq := (scanBack_eq_some (by omega) hu fun k hpk hkq => hgap k hpk hkq).symm
              before := hbefore }
    · obtain rfl : i = size := le_antisymm hr.le_size (not_lt.1 hi)
      exact hr

theorem run_of_onRun (h : OnRun N m size p size page save) : Run N m size page := by
  intro k hk
  have := h.pos
  have := h.fits
  exact ⟨by omega, h.free _ (by omega) (by omega)⟩

/-- The pages of a run leave the list. -/
theorem threads_remove {st' : Swaptab} (h : Threads st (freePages N st.swpmp))
    (hr : OnRun N st.swpmp size p size page save)
    (hother : ∀ q, save ≠ some q → (st'.swpmp q).next = (st.swpmp q).next)
    (hsave : ∀ q, save = some q → (st'.swpmp q).next = (st.swpmp p).next ∧ st'.free = st.free)
    (hhead : save = none → st'.free = (st.swpmp p).next) :
    Threads st' (freeIn st.swpmp 0 page ++ freeIn st.swpmp (page + size) (N - (page + size))) := by
  have hpos := hr.pos
  have hone := hr.one_le
  have hfits := hr.fits
  have hsplit : freePages N st.swpmp = freeIn st.swpmp 0 page ++
      (freeIn st.swpmp page size ++ freeIn st.swpmp (page + size) (N - (page + size))) := by
    rw [freePages_split (show page ≤ N by omega), freeIn_split (show size ≤ N - page by omega),
      show N - page - size = N - (page + size) by omega]
  have hnext := next_eq h.links (show p < N by omega) (hr.free p (by omega) le_rfl)
  rw [show p + 1 = page + size by omega] at hnext
  have hlast : (freeIn st.swpmp 0 page).getLast? = save := (scanBack_eq ..).symm.trans hr.save_eq.symm
  have hlinks := h.links
  rw [hsplit] at hlinks
  refine ⟨?_, hlinks.splice nodup_freeIn (fun q _ hq => ?_) (fun q hq => ?_) fun q hq => ?_⟩
  · rw [head?_append]
    cases hl : freeIn st.swpmp 0 page with
    | nil =>
      rw [hl] at hlast
      rw [hhead hlast.symm, hnext]
      rfl
    | cons b l =>
      rw [hl] at hlast
      have hc := getLast?_eq_some_getLast (cons_ne_nil b l)
      rw [(hsave _ (hlast.symm.trans hc)).2, h.free_eq, hsplit, hl]
      rfl
  · exact hother q fun hs => hq (hlast.trans hs)
  · rw [(hsave q (hlast.symm.trans hq)).1, hnext]
  · refine hother q fun hs => ?_
    have := (mem_freeIn.1 (mem_of_getLast? (hlast.trans hs))).1.2
    have := (mem_freeIn.1 hq).1.1
    omega

/-- What `swapfind` returns: the first page of the lowest run of `size` free pages and the chunk
with just these pages off the list, or nothing because there is no such run. -/
def Finds (N : ℕ) (st : Swaptab) (size : ℕ) : Option (ℕ × Swaptab) → Prop
  | none => ∀ a, ¬ Run N st.swpmp size a
  | some (page, st') =>
    Run N st.swpmp size page ∧ (∀ a < page, ¬ Run N st.swpmp size a) ∧
    Threads st' (freeIn st.swpmp 0 page ++ freeIn st.swpmp (page + size) (N - (page + size))) ∧
    (∀ p, (st'.swpmp p).ucnt = (st.swpmp p).ucnt) ∧
    st' = { st with
      free := st'.free
      swpmp := st'.swpmp }

theorem swapfind_spec (h : Threads st (freePages N st.swpmp)) (hsize : 1 ≤ size) :
    Finds N st size (swapfind N st size) := by
  unfold swapfind
  have hhead := h.free_eq
  cases hfree : st.free with
  | none =>
    -- no free page at all
    rw [hfree] at hhead
    intro a hrun
    obtain ⟨hlt, hu⟩ := hrun 0 (by omega)
    exact head?_freeIn_eq_none hhead.symm a (by omega) (by omega) hu
  | some p =>
    rw [hfree] at hhead
    obtain ⟨⟨-, hpN⟩, hu, hgap⟩ := head?_freeIn_eq_some hhead.symm
    have hbefore : ∀ a < p, ¬ Run N st.swpmp size a := by
      intro a hap hrun
      obtain ⟨-, hu'⟩ := hrun 0 (by omega)
      exact hgap a (by omega) hap hu'
    have hscan : none = scanBack st.swpmp p := by
      rw [scanBack_eq, freeIn_eq_nil fun q hq hqp => hgap q hq (by omega)]
      rfl
    dsimp only
    split_ifs with hend hone
    · intro a hrun
      by_cases hap : a < p
      · exact hbefore a hap hrun
      · obtain ⟨hlt, -⟩ := hrun (size - 1) (by omega)
        omega
    all_goals
      have hon : OnRun N st.swpmp size p 1 p none :=
        { one_le := le_rfl
          le_size := hsize
          pos := rfl
          fits := by omega
          free := fun k hk hkp => le_antisymm hk hkp ▸ hu
          save_eq := hscan
          before := hbefore }
    · subst hone
      exact ⟨run_of_onRun hon, hbefore,
        threads_remove h hon (fun _ _ => rfl) (fun _ hs => nomatch hs) fun _ => rfl,
        fun _ => rfl, rfl⟩
    · have hloop := findLoop_spec h.links rfl hon (Nat.le_add_left N p)
      cases hf : findLoop st.swpmp (N - size) size N p 1 p none with
      | none =>
        rw [hf] at hloop
        exact hloop
      | some r =>
        obtain ⟨start, q, save⟩ := r
        rw [hf] at hloop
        cases save with
        | none =>
          exact ⟨run_of_onRun hloop, hloop.before,
            threads_remove h hloop (fun _ _ => rfl) (fun _ hs => nomatch hs) fun _ => rfl,
            fun _ => rfl, rfl⟩
        | some save =>
          refine ⟨run_of_onRun hloop, hloop.before,
            threads_remove h hloop (fun k hk => ?_) (fun k hk => ?_) nofun, fun k => ?_, rfl⟩
          · have : k ≠ save := fun hks => hk (hks ▸ rfl)
            simp [this]
          · obtain rfl := Option.some.inj hk
            simp [hfree]
          · by_cases hks : k = save
            · subst hks
              simp
            · simp [hks]

/-! ### The list of a chunk -/

/-- The list threads exactly through the free pages, in increasing order, and `st_nfpgs` is their
number. -/
structure FreeList (N : ℕ) (st : Swaptab) : Prop where
  threads : Threads st (freePages N st.swpmp)
  nfpgs_eq : st.nfpgs = (freePages N st.swpmp).length

theorem freePages_around (h : page + size ≤ N) : freePages N m = freeIn m 0 page ++
      (freeIn m page size ++ freeIn m (page + size) (N - (page + size))) := by
  rw [freePages_split (show page ≤ N by omega), freeIn_split (show size ≤ N - page by omega),
    Nat.sub_sub]

/-- `swapfind` and the new use counts: the run leaves the list and the free pages. -/
theorem FreeList.take {st' : Swaptab} (h : FreeList N st) (hsize : 1 ≤ size)
    (hf : Finds N st size (some (page, st'))) (site : ℕ) : FreeList N (st'.use page size site) ∧
      (freePages N (st'.use page size site).swpmp).length + size = (freePages N st.swpmp).length := by
  obtain ⟨hrun, -, hth, hu, hst'⟩ := hf
  have hle : page + size ≤ N := by
    have := (hrun (size - 1) (by omega)).1
    omega
  have hout : ∀ q, ¬(page ≤ q ∧ q < page + size) →
      ((st'.use page size site).swpmp q).ucnt = (st.swpmp q).ucnt := by
    intro q hq
    rw [← hu q]
    simp only [Swaptab.use, if_neg hq]
  have hin : ∀ q, page ≤ q → q < page + size → ((st'.use page size site).swpmp q).ucnt ≠ 0 := by
    intro q hq hqp
    simp [Swaptab.use, hq, hqp]
  have hnew : freePages N (st'.use page size site).swpmp =
      freeIn st.swpmp 0 page ++ freeIn st.swpmp (page + size) (N - (page + size)) := by
    rw [freePages_around hle, freeIn_congr fun q _ hq => hout q (by omega),
      freeIn_eq_nil hin, nil_append, freeIn_congr fun q hq _ => hout q (by omega)]
  have hlen : (freePages N (st'.use page size site).swpmp).length + size =
      (freePages N st.swpmp).length := by
    have hall : freeIn st.swpmp page size = List.range' page size :=
      freeIn_eq_range' fun q hq hqp => by
        have := (hrun (q - page) (by omega)).2
        rwa [Nat.add_sub_cancel' hq] at this
    rw [hnew, freePages_around hle, hall]
    simp only [length_append, length_range']
    omega
  refine ⟨⟨?_, ?_⟩, hlen⟩
  · rw [hnew]
    refine ⟨hth.free_eq, hth.links.congr fun q _ => ?_⟩
    simp only [Swaptab.use]
    split_ifs <;> rfl
  · have hn : st'.nfpgs = st.nfpgs := by rw [hst']
    have := h.nfpgs_eq
    change st'.nfpgs - (size : ℤ) = ((freePages N (st'.use page size site).swpmp).length : ℤ)
    omega

theorem dec_next (q : ℕ) : ((st.dec page).swpmp q).next = (st.swpmp q).next := by
  by_cases hq : q = page
  · subst hq
    simp [Swaptab.dec]
  · simp [Swaptab.dec, hq]

theorem dec_ucnt (q : ℕ) : ((st.dec page).swpmp q).ucnt =
      if q = page then (st.swpmp page).ucnt - 1 else (st.swpmp q).ucnt := by
  by_cases hq : q = page
  · subst hq
    simp [Swaptab.dec]
  · simp [Swaptab.dec, hq]

/-- A page that stays in use. -/
theorem FreeList.dec (h : FreeList N st) (hu : (st.swpmp page).ucnt ≠ 0)
    (hu' : (st.swpmp page).ucnt - 1 ≠ 0) :
    FreeList N (st.dec page) ∧ freePages N (st.dec page).swpmp = freePages N st.swpmp := by
  have hfree : freePages N (st.dec page).swpmp = freePages N st.swpmp := by
    refine filter_congr fun q _ => ?_
    rw [dec_ucnt]
    split_ifs with hq
    · subst hq
      simp [hu, hu']
    · rfl
  refine ⟨⟨?_, ?_⟩, hfree⟩
  · rw [hfree]
    exact ⟨h.threads.free_eq, h.threads.links.congr fun q _ => dec_next q⟩
  · rw [hfree]
    exact h.nfpgs_eq

/-- One user more. -/
theorem FreeList.inc (h : FreeList N st) (hu : (st.swpmp page).ucnt ≠ 0) :
    FreeList N (st.inc page) ∧ freePages N (st.inc page).swpmp = freePages N st.swpmp := by
  have hfree : freePages N (st.inc page).swpmp = freePages N st.swpmp := by
    refine filter_congr fun q _ => ?_
    by_cases hq : q = page
    · subst hq
      simp [Swaptab.inc, hu]
    · simp [Swaptab.inc, hq]
  refine ⟨⟨?_, ?_⟩, hfree⟩
  · rw [hfree]
    refine ⟨h.threads.free_eq, h.threads.links.congr fun q _ => ?_⟩
    by_cases hq : q = page
    · subst hq
      simp [Swaptab.inc]
    · simp [Swaptab.inc, hq]
  · rw [hfree]
    exact h.nfpgs_eq

theorem link_ucnt (q : ℕ) : ((st.link page).swpmp q).ucnt = (st.swpmp q).ucnt := by
  unfold Swaptab.link
  cases scanBack st.swpmp page with
  | none => by_cases hq : q = page <;> simp [hq]
  | some p =>
    by_cases hqp : q = p
    · subst hqp
      by_cases hq : q = page
      · subst hq
        simp
      · simp [hq]
    · by_cases hq : q = page
      · subst hq
        simp [hqp]
      · simp [hq, hqp]

theorem link_free (h : scanBack st.swpmp page ≠ none) : (st.link page).free = st.free := by
  unfold Swaptab.link
  cases hs : scanBack st.swpmp page with
  | none => exact absurd hs h
  | some p => rfl

/-- The links after the page was put on the list. -/
theorem link_next (q : ℕ) : ((st.link page).swpmp q).next =
      if scanBack st.swpmp page = some q then some page
      else if q = page then
        match scanBack st.swpmp page with
        | none => st.free
        | some p => (st.swpmp p).next
      else (st.swpmp q).next := by
  unfold Swaptab.link
  cases scanBack st.swpmp page with
  | none => by_cases hq : q = page <;> simp [hq]
  | some p =>
    by_cases hqp : q = p
    · subst hqp
      simp
    · have hpq : p ≠ q := Ne.symm hqp
      by_cases hq : q = page
      · subst hq
        simp [hqp, hpq]
      · simp [hq, hqp, hpq]

theorem link_fields (st : Swaptab) (page : ℕ) : (st.link page).mapped = st.mapped ∧
    (st.link page).area = st.area ∧ (st.link page).next = st.next := by
  unfold Swaptab.link
  cases scanBack st.swpmp page <;> exact ⟨rfl, rfl, rfl⟩

/-- A run is part of the free pages. -/
theorem run_le_length (h : Run N m size page) : size ≤ (freePages N m).length := by
  obtain rfl | hpos := Nat.eq_zero_or_pos size
  · exact Nat.zero_le _
  have hle : page + size ≤ N := by
    have := (h (size - 1) (by omega)).1
    omega
  have hall : freeIn m page size = List.range' page size := freeIn_eq_range' fun q hq hqp => by
    have := (h (q - page) (by omega)).2
    rwa [Nat.add_sub_cancel' hq] at this
  rw [freePages_around hle, hall]
  simp only [length_append, length_range']
  omega

/-- The last user of a page goes: the page is put on the list where it belongs. -/
theorem FreeList.free {d : ℤ} (h : FreeList N st) (hp : page < N)
    (hu : (st.swpmp page).ucnt = 1) (hn : d = st.nfpgs + 1) :
    FreeList N (Swaptab.link { st.dec page with nfpgs := d } page) ∧
      (freePages N (Swaptab.link { st.dec page with nfpgs := d } page).swpmp).length =
        (freePages N st.swpmp).length + 1 := by
  set t : Swaptab := { st.dec page with nfpgs := d } with ht
  have hnextt : ∀ q, (t.swpmp q).next = (st.swpmp q).next := fun q => dec_next q
  have hother : ∀ q, q ≠ page → (t.swpmp q).ucnt = (st.swpmp q).ucnt := fun q hq => by
    rw [show t.swpmp = (st.dec page).swpmp from rfl, dec_ucnt, if_neg hq]
  have hzero : (t.swpmp page).ucnt = 0 := by
    rw [show t.swpmp = (st.dec page).swpmp from rfl, dec_ucnt, if_pos rfl, hu]
  have hpre : freeIn t.swpmp 0 page = freeIn st.swpmp 0 page :=
    freeIn_congr fun q _ hq => hother q (by omega)
  have hpost : freeIn t.swpmp (page + 1) (N - (page + 1)) =
      freeIn st.swpmp (page + 1) (N - (page + 1)) :=
    freeIn_congr fun q hq _ => hother q (by omega)
  have hold : freePages N st.swpmp =
      freeIn st.swpmp 0 page ++ freeIn st.swpmp (page + 1) (N - (page + 1)) := by
    have hnil : freeIn st.swpmp page 1 = [] := freeIn_eq_nil fun q hq hqp => by
      obtain rfl : q = page := by omega
      rw [hu]
      exact Nat.one_ne_zero
    rw [freePages_around (show page + 1 ≤ N by omega), hnil, nil_append]
  have hnew : freePages N (t.link page).swpmp =
      freeIn st.swpmp 0 page ++ page :: freeIn st.swpmp (page + 1) (N - (page + 1)) := by
    have : freePages N (t.link page).swpmp = freePages N t.swpmp :=
      freeIn_congr fun q _ _ => link_ucnt q
    rw [this, freePages_around (show page + 1 ≤ N by omega), freeIn_one_of_free hzero, hpre, hpost]
    rfl
  have hscan : scanBack t.swpmp page = (freeIn st.swpmp 0 page).getLast? := by
    rw [scanBack_eq, hpre]
  refine ⟨⟨?_, ?_⟩, by rw [hnew, hold]; simp only [length_append, length_cons]; omega⟩
  · have hlinks := h.threads.links
    have hfree := h.threads.free_eq
    rw [hold] at hlinks hfree
    rw [hnew]
    refine ⟨?_, hlinks.insert nodup_freeIn (fun q hq hl => ?_) (fun q hl => ?_) ?_ fun q hq => ?_⟩
    · cases hl : freeIn st.swpmp 0 page with
      | nil =>
        rw [hl] at hscan
        change (t.link page).free = some page
        simp [Swaptab.link, hscan]
      | cons b l =>
        rw [link_free (by rw [hscan, hl]; simp)]
        rw [hl] at hfree
        exact hfree
    · have hqp := (mem_freeIn.1 hq).1.2
      rw [link_next, hscan, if_neg hl, if_neg (by omega), hnextt]
    · rw [link_next, hscan, if_pos hl]
    · have hne : scanBack t.swpmp page ≠ some page := by
        rw [hscan]
        intro hl
        have := (mem_freeIn.1 (mem_of_getLast? hl)).1.2
        omega
      rw [link_next, if_neg hne, if_pos rfl, hscan]
      cases hl : (freeIn st.swpmp 0 page).getLast? with
      | none =>
        rw [getLast?_eq_none_iff.1 hl] at hfree
        exact hfree
      | some q =>
        -- the link of the last free page before leads to the first one behind
        change (t.swpmp q).next = _
        rw [hnextt]
        exact (links_append.1 hlinks).1.last hl
    · have hqp := (mem_freeIn.1 hq).1.1
      have hne : scanBack t.swpmp page ≠ some q := by
        rw [hscan]
        intro hl
        have := (mem_freeIn.1 (mem_of_getLast? hl)).1.2
        omega
      rw [link_next, if_neg hne, if_neg (by omega), hnextt]
  · have hlink : (t.link page).nfpgs = d := by
      unfold Swaptab.link
      cases scanBack t.swpmp page <;> rfl
    rw [hlink, hn, h.nfpgs_eq, hnew, hold]
    simp only [length_append, length_cons]
    omega

end SwapMap

end Hpux
