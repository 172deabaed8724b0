import Hpux910.Net.UnpRights
import Mathlib

/-!
# The collection of files in flight

`unp_gc` marks the files that can be reached from a file with a descriptor, and gives up the references
to the others.  The mark phase is right.  The sweep gives up the references to a file while they are
still on the queues, and the close of the socket that holds them gives them up once more.

* `Reach` : what the mark phase has to find.
* `MarkInv`, `unpGc_spec` : the mark phase.
* `Short` : a reference was given up that is still on a queue.
* `unp_gc_right_iff` : `unp_gc` is right exactly when it finds nothing to collect.
-/

namespace Hpux.Net

open Function List

namespace UnpFiles

variable {n : ℕ} {S : Type} {s s' s0 : UnpFiles n S} {f g : Fin n} {x : S}

/-- The file is on the receive queue of the socket. -/
def Holds (s : UnpFiles n S) (x : S) (f : Fin n) : Prop := f ∈ (s.queue x).flatten

/-- Not all references to the file are in messages. -/
def Root (s : UnpFiles n S) (f : Fin n) : Prop := s.fcount f ≠ 0 ∧ s.fcount f ≠ s.fmsgcount f

/-- What can be reached from a descriptor through receive queues. -/
inductive Reach (s : UnpFiles n S) : Fin n → Prop
  | root {f : Fin n} (h : s.Root f) : Reach s f
  | held {g f : Fin n} {x : S} (hg : Reach s g) (hx : s.sock g = some x) (hf : s.Holds x f) :
    Reach s f

/-- Files on queues are open. -/
def HeldOpen (s : UnpFiles n S) : Prop := ∀ x f, s.Holds x f → s.fcount f ≠ 0

theorem Reach.open (h : s.HeldOpen) (hf : s.Reach f) : s.fcount f ≠ 0 := by
  cases hf with
  | root h1 => exact h1.1
  | held _ _ h1 => exact h _ _ h1

/-! ### The mark phase -/

/-- The marks in a pass over the file table: `m` are those at its start, `V` the files that it has
come by, and `e` is the file whose queue is being looked at. -/
structure MarkInv (s0 : UnpFiles n S) (m : Fin n → Bool) (V : Fin n → Prop) (e : Option (Fin n))
    (s : UnpFiles n S) : Prop where
  same : s = { s0 with fmark := s.fmark, fdefer := s.fdefer, unpDefer := s.unpDefer }
  reach : ∀ f, s.fmark f = true → s0.Reach f
  sub : ∀ f, s.fdefer f = true → s.fmark f = true
  closed : ∀ f, some f ≠ e → s.fmark f = true → s.fdefer f = false → ∀ x, s0.sock f = some x →
    ∀ g, s0.Holds x g → s.fmark g = true
  roots : ∀ f, V f → s0.Root f → s.fmark f = true
  fresh : ∀ f, V f → s.fdefer f = true → m f = false
  mono : ∀ f, m f = true → s.fmark f = true
  count : s.unpDefer = ((Finset.univ.filter fun f => s.fdefer f = true).card : ℤ)

variable {m : Fin n → Bool} {V : Fin n → Prop} {e : Option (Fin n)}

theorem MarkInv.unpMark (h : MarkInv s0 m V e s) (hf : s0.Reach f) :
    MarkInv s0 m V e (s.unpMark f) ∧ (s.unpMark f).fmark f = true ∧
    (∀ g, s.fmark g = true → (s.unpMark f).fmark g = true ∧ (s.unpMark f).fdefer g = s.fdefer g) := by
  unfold UnpFiles.unpMark
  split_ifs with hm
  · exact ⟨h, hm, fun g hg => ⟨hg, rfl⟩⟩
  have hd : s.fdefer f = false := by
    cases hd : s.fdefer f with
    | false => rfl
    | true => exact (hm (h.sub f hd)).elim
  have hmono : ∀ g, s.fmark g = true → update s.fmark f true g = true := by
    intro g hg
    rw [update_apply]
    split_ifs
    · rfl
    · exact hg
  refine ⟨⟨?_, ?_, ?_, ?_, fun g hv hr => hmono g (h.roots g hv hr), ?_,
    fun g hg => hmono g (h.mono g hg), ?_⟩, update_self .., fun g hg => ⟨hmono g hg, ?_⟩⟩
  · dsimp only
    rw [h.same]
  · intro g hg
    by_cases hgf : g = f
    · exact hgf ▸ hf
    · exact h.reach g ((update_of_ne hgf _ _).symm.trans hg)
  · intro g hg
    by_cases hgf : g = f
    · subst hgf
      exact update_self ..
    · exact hmono g (h.sub g ((update_of_ne hgf _ _).symm.trans hg))
  · intro g hge hg hgd y hy k hk
    by_cases hgf : g = f
    · subst hgf
      cases (update_self ..).symm.trans hgd
    · exact hmono k (h.closed g hge ((update_of_ne hgf _ _).symm.trans hg)
        ((update_of_ne hgf _ _).symm.trans hgd) y hy k hk)
  · intro g hv hg
    by_cases hgf : g = f
    · subst hgf
      cases hmg : m g with
      | false => rfl
      | true => exact (hm (h.mono g hmg)).elim
    · exact h.fresh g hv ((update_of_ne hgf _ _).symm.trans hg)
  · dsimp only
    rw [h.count]
    have h1 : (Finset.univ.filter fun g => update s.fdefer f true g = true) =
        insert f (Finset.univ.filter fun g => s.fdefer g = true) := by
      ext g
      simp only [Finset.mem_filter, Finset.mem_univ, true_and, Finset.mem_insert, update_apply]
      split_ifs with hgf <;> simp [hgf]
    rw [h1, Finset.card_insert_of_notMem (by simp [hd])]
    norm_cast
  · refine update_of_ne ?_ _ _
    rintro rfl
    exact hm hg

variable {l : List (Fin n)}

theorem MarkInv.foldl (h : MarkInv s0 m V e s) (hl : ∀ f ∈ l, s0.Reach f) :
    MarkInv s0 m V e (l.foldl UnpFiles.unpMark s) ∧
    (∀ f ∈ l, (l.foldl UnpFiles.unpMark s).fmark f = true) ∧
    ∀ g, s.fmark g = true → (l.foldl UnpFiles.unpMark s).fmark g = true ∧
      (l.foldl UnpFiles.unpMark s).fdefer g = s.fdefer g := by
  induction l generalizing s with
  | nil => exact ⟨h, fun f hf => (not_mem_nil hf).elim, fun g hg => ⟨hg, rfl⟩⟩
  | cons f l ih =>
    obtain ⟨h1, h2, h3⟩ := h.unpMark (hl f mem_cons_self)
    obtain ⟨h4, h5, h6⟩ := ih h1 fun g hg => hl g (mem_cons_of_mem f hg)
    refine ⟨h4, fun g hg => ?_, fun g hg => ?_⟩
    · rcases mem_cons.1 hg with rfl | hg
      · exact (h6 g h2).1
      · exact h5 g hg
    · obtain ⟨h7, h8⟩ := h3 g hg
      exact ⟨(h6 g h7).1, (h6 g h7).2.trans h8⟩

/-- The queue of a marked file is looked at. -/
theorem MarkInv.scan (h : MarkInv s0 m V (some f) s) (hm : s.fmark f = true)
    (hd : s.fdefer f = false) : MarkInv s0 m (fun g => V g ∨ g = f) none (s.scan f) := by
  have hsock : s.sock = s0.sock := by rw [h.same]
  have hqueue : s.queue = s0.queue := by rw [h.same]
  have hadd : ∀ t : UnpFiles n S, MarkInv s0 m V (some f) t → t.fmark f = true →
      t.fdefer f = false → (∀ x, s0.sock f = some x → ∀ g, s0.Holds x g → t.fmark g = true) →
      MarkInv s0 m (fun g => V g ∨ g = f) none t := by
    intro t ht htm htd hq
    refine ⟨ht.same, ht.reach, ht.sub, fun g _ hg hgd => ?_, ?_, ?_, ht.mono, ht.count⟩
    · by_cases hgf : g = f
      · subst hgf
        exact hq
      · exact ht.closed g (fun h1 => hgf (Option.some.inj h1)) hg hgd
    · rintro g (hv | rfl) hr
      · exact ht.roots g hv hr
      · exact htm
    · rintro g (hv | rfl) hgd
      · exact ht.fresh g hv hgd
      · cases htd.symm.trans hgd
  unfold UnpFiles.scan
  rw [hsock]
  cases hx : s0.sock f with
  | none => exact hadd s h hm hd fun x hx' => by cases hx.symm.trans hx'
  | some x =>
    dsimp only
    rw [hqueue]
    obtain ⟨h1, h2, h3⟩ := h.foldl (l := (s0.queue x).flatten) fun g hg =>
      .held (h.reach f hm) hx hg
    obtain ⟨h4, h5⟩ := h3 f hm
    refine hadd _ h1 h4 (h5.trans hd) fun y hy g hg => ?_
    obtain rfl : x = y := Option.some.inj (hx.symm.trans hy)
    exact h2 g hg

theorem MarkInv.visit (h0 : s0.HeldOpen) (h : MarkInv s0 m V none s) :
    MarkInv s0 m (fun g => V g ∨ g = f) none (s.visit f) := by
  have hfc : s.fcount = s0.fcount := by rw [h.same]
  have hfm : s.fmsgcount = s0.fmsgcount := by rw [h.same]
  -- a file that needs no work
  have hskip : (s0.Root f → s.fmark f = true) → s.fdefer f = false →
      MarkInv s0 m (fun g => V g ∨ g = f) none s := by
    intro h1 h2
    refine ⟨h.same, h.reach, h.sub, h.closed, ?_, ?_, h.mono, h.count⟩
    · rintro g (hv | rfl) hr
      · exact h.roots g hv hr
      · exact h1 hr
    · rintro g (hv | rfl) hgd
      · exact h.fresh g hv hgd
      · cases h2.symm.trans hgd
  have hroot : s0.Root f ↔ s.fcount f ≠ 0 ∧ s.fcount f ≠ s.fmsgcount f := by
    rw [hfc, hfm]
    rfl
  have hopen : s.fmark f = true → s.fcount f ≠ 0 := fun h1 => by
    rw [hfc]
    exact (h.reach f h1).open h0
  unfold UnpFiles.visit
  split_ifs with hc hd hm heq
  · refine hskip (fun h1 => ((hroot.1 h1).1 hc).elim) ?_
    cases hd : s.fdefer f with
    | false => rfl
    | true => exact (hopen (h.sub f hd) hc).elim
  · -- a deferred file
    have hm := h.sub f hd
    refine MarkInv.scan (s := { s with
      fdefer := update s.fdefer f false, unpDefer := s.unpDefer - 1 }) ?_ hm (update_self ..)
    refine ⟨?_, h.reach, fun g hg => ?_, fun g hge hg hgd => ?_, h.roots, fun g hv hg => ?_, h.mono, ?_⟩
    · dsimp only
      rw [h.same]
    · by_cases hgf : g = f
      · exact hgf ▸ hm
      · exact h.sub g ((update_of_ne hgf _ _).symm.trans hg)
    · have hgf : g ≠ f := fun h1 => hge (h1 ▸ rfl)
      exact h.closed g nofun hg ((update_of_ne hgf _ _).symm.trans hgd)
    · by_cases hgf : g = f
      · subst hgf
        cases (update_self ..).symm.trans hg
      · exact h.fresh g hv ((update_of_ne hgf _ _).symm.trans hg)
    · dsimp only
      rw [h.count]
      have h1 : (Finset.univ.filter fun g => update s.fdefer f false g = true) =
          (Finset.univ.filter fun g => s.fdefer g = true).erase f := by
        ext g
        simp only [Finset.mem_filter, Finset.mem_univ, true_and, Finset.mem_erase, update_apply]
        split_ifs with hgf <;> simp [hgf]
      have h2 : f ∈ Finset.univ.filter fun g => s.fdefer g = true := by simpa using hd
      have h3 := Finset.card_erase_add_one h2
      rw [h1]
      omega
  · refine hskip (fun _ => hm) ?_
    simpa using hd
  · exact hskip (fun h1 => ((hroot.1 h1).2 heq).elim) (by simpa using hd)
  · -- a file with a descriptor
    have hr : s0.Reach f := .root (hroot.2 ⟨hc, heq⟩)
    have hd' : s.fdefer f = false := by simpa using hd
    have hmono : ∀ g, s.fmark g = true → update s.fmark f true g = true := by
      intro g hg
      rw [update_apply]
      split_ifs
      · rfl
      · exact hg
    refine MarkInv.scan (s := { s with fmark := update s.fmark f true }) ?_ (update_self ..) hd'
    refine ⟨?_, fun g hg => ?_, fun g hg => hmono g (h.sub g hg), fun g hge hg hgd x hx k hk => ?_,
      fun g hv hg => hmono g (h.roots g hv hg), h.fresh, fun g hg => hmono g (h.mono g hg), h.count⟩
    · dsimp only
      rw [h.same]
    · by_cases hgf : g = f
      · exact hgf ▸ hr
      · exact h.reach g ((update_of_ne hgf _ _).symm.trans hg)
    · have hgf : g ≠ f := fun h1 => hge (h1 ▸ rfl)
      exact hmono k (h.closed g nofun ((update_of_ne hgf _ _).symm.trans hg) hgd x hx k hk)

theorem MarkInv.pass (h0 : s0.HeldOpen) (h : MarkInv s0 m V none s) :
    MarkInv s0 m (fun g => V g ∨ g ∈ l) none (l.foldl UnpFiles.visit s) := by
  induction l generalizing s V with
  | nil => simpa using h
  | cons f l ih =>
    have h1 := ih (h.visit h0 (f := f))
    simpa only [mem_cons, foldl_cons, or_assoc] using h1

/-- The marks when the mark phase is over. -/
theorem markLoop_spec (h0 : s0.HeldOpen) {fuel : ℕ} (h : MarkInv s0 s.fmark (fun _ => False) none s)
    (hf : (Finset.univ.filter fun f => s.fmark f = false).card < fuel) :
    ∃ s', markLoop fuel s = .ok s' ∧
      s' = { s0 with fmark := s'.fmark, fdefer := s'.fdefer, unpDefer := 0 } ∧
      ∀ f, s'.fmark f = true ↔ s0.Reach f := by
  induction fuel generalizing s with
  | zero => omega
  | succ fuel ih =>
    have h1 := h.pass h0 (l := List.finRange n)
    simp only [mem_finRange, or_true] at h1
    unfold markLoop
    generalize (List.finRange n).foldl UnpFiles.visit s = t at h1
    dsimp only
    split_ifs with hd
    · have hdefer : ∀ f, t.fdefer f = false := by
        intro f
        have h2 := h1.count
        rw [hd] at h2
        have h3 : (Finset.univ.filter fun f => t.fdefer f = true) = ∅ := by
          rw [← Finset.card_eq_zero]
          omega
        simpa using Finset.filter_eq_empty_iff.1 h3 (Finset.mem_univ f)
      refine ⟨t, rfl, ?_, fun f => ⟨h1.reach f, fun hr => ?_⟩⟩
      · rw [← hd]
        exact h1.same
      · induction hr with
        | root hr => exact h1.roots _ trivial hr
        | held _ hx hg ih1 => exact h1.closed _ nofun ih1 (hdefer _) _ hx _ hg
    · refine ih ⟨h1.same, h1.reach, h1.sub, h1.closed, fun _ h => h.elim, fun _ h => h.elim,
        fun _ h => h, h1.count⟩ ?_
      -- a file that is still deferred was marked in this pass
      have h2 : ∃ f, t.fdefer f = true := by
        by_contra h3
        push Not at h3
        refine hd ?_
        rw [h1.count, Finset.filter_false_of_mem fun f _ => by simpa using h3 f]
        rfl
      obtain ⟨f, hf1⟩ := h2
      have h3 : (Finset.univ.filter fun f => t.fmark f = false).card <
          (Finset.univ.filter fun f => s.fmark f = false).card := by
        refine Finset.card_lt_card (Finset.ssubset_iff_of_subset (fun g hg => ?_) |>.2 ⟨f, ?_, ?_⟩)
        · simp only [Finset.mem_filter, Finset.mem_univ, true_and] at hg ⊢
          cases hs : s.fmark g with
          | false => rfl
          | true => cases hg.symm.trans (h1.mono g hs)
        · simpa using h1.fresh f trivial hf1
        · simpa using h1.sub f hf1
      omega

/-- The mark phase comes to an end and marks what can be reached. -/
theorem unpGc_spec (h0 : s.HeldOpen) (hg : s.unpGcing = false) :
    ∃ mark defer, s.unpGc = .ok { s with
      unpGcing := true
      unpDefer := 0
      fmark := mark
      fdefer := defer
      stack := .sweep (List.finRange n) :: s.stack } ∧ ∀ f, mark f = true ↔ s.Reach f := by
  have hinit : MarkInv { s with unpGcing := true } (fun _ => false) (fun _ => False) none
      { s with unpGcing := true, unpDefer := 0, fmark := fun _ => false, fdefer := fun _ => false } := by
    refine ⟨rfl, nofun, nofun, nofun, fun _ h => h.elim, fun _ h => h.elim, fun _ h => h, ?_⟩
    simp
  have hreach : ∀ f, ({ s with unpGcing := true } : UnpFiles n S).Reach f ↔ s.Reach f := by
    refine fun f => ⟨fun h => ?_, fun h => ?_⟩
    · induction h with
      | root h => exact .root h
      | held _ hx hf ih => exact .held ih hx hf
    · induction h with
      | root h => exact .root h
      | held _ hx hf ih => exact .held ih hx hf
  have h0' : HeldOpen { s with unpGcing := true } := h0
  obtain ⟨s', h1, h2, h3⟩ := markLoop_spec (s := { s with
    unpGcing := true, unpDefer := 0, fmark := fun _ => false, fdefer := fun _ => false }) h0' hinit
    (by simp : _ < n + 1)
  refine ⟨s'.fmark, s'.fdefer, ?_, fun f => (h3 f).trans (hreach f)⟩
  unfold unpGc
  rw [hg, if_neg Bool.false_ne_true, h1]
  dsimp only
  rw [h2]

/-! ### What the mark phase leaves alone -/

theorem unpMark_same (s : UnpFiles n S) (f : Fin n) : s.unpMark f = { s with
    fmark := (s.unpMark f).fmark, fdefer := (s.unpMark f).fdefer, unpDefer := (s.unpMark f).unpDefer } := by
  unfold UnpFiles.unpMark
  split_ifs <;> rfl

theorem foldl_same {h : UnpFiles n S → Fin n → UnpFiles n S} (hh : ∀ s f, h s f = { s with
      fmark := (h s f).fmark, fdefer := (h s f).fdefer, unpDefer := (h s f).unpDefer })
    (s : UnpFiles n S) (l : List (Fin n)) : l.foldl h s = { s with
      fmark := (l.foldl h s).fmark
      fdefer := (l.foldl h s).fdefer
      unpDefer := (l.foldl h s).unpDefer } := by
  induction l generalizing s with
  | nil => rfl
  | cons f l ih =>
    have h1 := hh s f
    have h2 := ih (h s f)
    rw [foldl_cons]
    generalize l.foldl h (h s f) = t at h2 ⊢
    rw [h2, h1]

theorem scan_same (s : UnpFiles n S) (f : Fin n) : s.scan f = { s with
    fmark := (s.scan f).fmark, fdefer := (s.scan f).fdefer, unpDefer := (s.scan f).unpDefer } := by
  unfold UnpFiles.scan
  cases s.sock f with
  | none => rfl
  | some x => exact foldl_same unpMark_same s _

theorem visit_same (s : UnpFiles n S) (f : Fin n) : s.visit f = { s with
    fmark := (s.visit f).fmark, fdefer := (s.visit f).fdefer, unpDefer := (s.visit f).unpDefer } := by
  unfold UnpFiles.visit
  split_ifs
  · rfl
  · exact scan_same _ f
  · rfl
  · rfl
  · exact scan_same _ f

theorem markLoop_same {fuel : ℕ} (h : markLoop fuel s = .ok s') : s' = { s with
    fmark := s'.fmark, fdefer := s'.fdefer, unpDefer := s'.unpDefer } := by
  induction fuel generalizing s with
  | zero => cases h
  | succ fuel ih =>
    have h1 := foldl_same visit_same s (List.finRange n)
    unfold markLoop at h
    generalize (List.finRange n).foldl UnpFiles.visit s = t at h h1
    dsimp only at h
    split_ifs at h with hd
    · cases h
      exact h1
    · have h2 := ih h
      rw [h2, h1]

/-- `unp_gc` before the sweep changes the marks only. -/
theorem unpGc_same (h : s.unpGc = .ok s') : s' = s ∨ ∃ mark defer k, s' = { s with
    unpGcing := true
    unpDefer := k
    fmark := mark
    fdefer := defer
    stack := .sweep (List.finRange n) :: s.stack } := by
  unfold UnpFiles.unpGc at h
  split_ifs at h with hg
  · cases h
    exact .inl rfl
  · cases hm : markLoop (n + 1) { s with
        unpGcing := true
        unpDefer := 0
        fmark := fun _ => false
        fdefer := fun _ => false } with
    | error t =>
      rw [hm] at h
      cases h
    | ok t =>
      rw [hm] at h
      cases h
      have h1 := markLoop_same hm
      refine .inr ⟨t.fmark, t.fdefer, t.unpDefer, ?_⟩
      rw [h1]

/-! ### Counts -/

variable [Fintype S]

/-- How often a file is on receive queues. -/
def occ (s : UnpFiles n S) (f : Fin n) : ℤ := ∑ x, ((s.queue x).flatten.count f : ℤ)

/-- How often a file is among references that are being disposed of. -/
def pendTask (f : Fin n) : UnpTask n S → ℤ
  | .dispose l => l.count f
  | _ => 0

def pend (s : UnpFiles n S) (f : Fin n) : ℤ := (s.stack.map (pendTask f)).sum

/-- The count of references in messages, less the references in messages. -/
def slack (s : UnpFiles n S) (f : Fin n) : ℤ := s.fmsgcount f - s.occ f - s.pend f

theorem Holds.occ_pos (h : s.Holds x f) : 0 < s.occ f := by
  have h1 : (1 : ℤ) ≤ ((s.queue x).flatten.count f : ℤ) := by
    exact_mod_cast one_le_count_iff.2 h
  have h2 : ((s.queue x).flatten.count f : ℤ) ≤ s.occ f :=
    Finset.single_le_sum (f := fun x => ((s.queue x).flatten.count f : ℤ))
      (fun _ _ => Int.natCast_nonneg _) (Finset.mem_univ x)
  omega

variable [DecidableEq S]

theorem occ_update (s : UnpFiles n S) (x : S) (q : List (List (Fin n))) (f : Fin n) :
    ({ s with queue := update s.queue x q } : UnpFiles n S).occ f =
      s.occ f - (s.queue x).flatten.count f + q.flatten.count f := by
  unfold occ
  dsimp only
  rw [← Finset.add_sum_erase _ _ (Finset.mem_univ x), ← Finset.add_sum_erase Finset.univ
    (fun y => ((s.queue y).flatten.count f : ℤ)) (Finset.mem_univ x), update_self]
  have h1 : ∑ y ∈ Finset.univ.erase x, (((update s.queue x q) y).flatten.count f : ℤ) =
      ∑ y ∈ Finset.univ.erase x, ((s.queue y).flatten.count f : ℤ) := by
    refine Finset.sum_congr rfl fun y hy => ?_
    rw [update_of_ne (Finset.ne_of_mem_erase hy)]
  rw [h1]
  ring

/-- A piece of work never gives a file more references in messages than are counted, and it gives up
a reference that is on a queue only in the sweep. -/
theorem work_slack {t : UnpTask n S} {rest : List (UnpTask n S)} (hst : s.stack = t :: rest)
    (h : s.work rest t = .ok s') (f : Fin n) :
    s'.slack f ≤ s.slack f ∧ ((∀ g l, t ≠ .sweepFile g l) → s'.slack f = s.slack f) ∧
    ∀ l, t = .sweepFile f l → s.fmsgcount f ≠ 0 → s'.slack f < s.slack f := by
  -- the counts and the queues are the same, and the references to be disposed of too
  have hsame : s'.fmsgcount = s.fmsgcount → s'.queue = s.queue →
      s'.pend f = s.pend f → s'.slack f = s.slack f := by
    intro h1 h2 h3
    simp only [slack, occ, h1, h2, h3]
  cases t with
  | closef g =>
    simp only [work] at h
    have h1 : s'.slack f = s.slack f := by
      split_ifs at h
      · cases h
        exact hsame rfl rfl (by simp [pend, pendTask, hst])
      · cases hg : s.sock g with
        | none =>
          rw [hg] at h
          cases h
          exact hsame rfl rfl (by simp [pend, pendTask, hst])
        | some x =>
          rw [hg] at h
          cases h
          exact hsame rfl rfl (by simp [pend, pendTask, hst])
    exact ⟨h1.le, fun _ => h1, nofun⟩
  | closed g =>
    cases h
    have h1 := hsame rfl rfl (by simp [pend, pendTask, hst])
    exact ⟨h1.le, fun _ => h1, nofun⟩
  | soclose x =>
    simp only [work] at h
    have h1 : s'.slack f = s.slack f := by
      split_ifs at h with hpcb hr
      · rcases unpGc_same h with rfl | ⟨_, _, _, rfl⟩
        · exact hsame rfl rfl (by simp [pend, pendTask, hst])
        · exact hsame rfl rfl (by simp [pend, pendTask, hst])
      · cases h
        exact hsame rfl rfl (by simp [pend, pendTask, hst])
      · cases h
        exact hsame rfl rfl (by simp [pend, pendTask, hst])
    exact ⟨h1.le, fun _ => h1, nofun⟩
  | sofree x =>
    simp only [work] at h
    split_ifs at h
    cases h
    have h1 := occ_update s x [] f
    have h2 : ({ s with
        nofdref := update s.nofdref x true
        queue := update s.queue x []
        stack := .dispose (s.queue x).flatten :: rest } : UnpFiles n S).slack f = s.slack f := by
      simp only [slack]
      have h3 : ({ s with
          nofdref := update s.nofdref x true
          queue := update s.queue x []
          stack := .dispose (s.queue x).flatten :: rest } : UnpFiles n S).occ f =
          s.occ f - (s.queue x).flatten.count f := by
        rw [← add_zero (s.occ f - _)]
        exact h1
      rw [h3]
      simp only [pend, pendTask, hst, map_cons, sum_cons]
      ring
    exact ⟨h2.le, fun _ => h2, nofun⟩
  | dispose l =>
    cases l with
    | nil =>
      cases h
      have h1 := hsame rfl rfl (by simp [pend, pendTask, hst])
      exact ⟨h1.le, fun _ => h1, nofun⟩
    | cons g l =>
      cases h
      have h1 : (unpDiscard { s with stack := .dispose l :: rest } g).slack f = s.slack f := by
        simp only [slack, hst, unpDiscard, pend, pendTask, map_cons, sum_cons, occ,
          count_cons, update_apply]
        by_cases hfg : f = g
        · subst hfg
          simp
          ring
        · simp [hfg, Ne.symm hfg]
      exact ⟨h1.le, fun _ => h1, nofun⟩
  | sweep l =>
    have h1 : s'.slack f = s.slack f := by
      cases l with
      | nil =>
        cases h
        exact hsame rfl rfl (by simp [pend, pendTask, hst])
      | cons g l =>
        simp only [work] at h
        split_ifs at h
        · cases h
          exact hsame rfl rfl (by simp [pend, pendTask, hst])
        · cases h
          exact hsame rfl rfl (by simp [pend, pendTask, hst])
    exact ⟨h1.le, fun _ => h1, nofun⟩
  | sweepFile g l =>
    simp only [work] at h
    split_ifs at h with hg
    · cases h
      have h1 : (unpDiscard { s with stack := .sweepFile g l :: rest } g).slack f =
          s.slack f - if f = g then 1 else 0 := by
        simp only [slack, hst, unpDiscard, pend, pendTask, map_cons, sum_cons, occ,
          update_apply]
        by_cases hfg : f = g
        · subst hfg
          simp
          ring
        · simp [hfg]
      rw [h1]
      refine ⟨by split_ifs <;> omega, fun h2 => (h2 g l rfl).elim, fun l' h2 _ => ?_⟩
      injection h2 with h3 _
      rw [if_pos h3.symm]
      omega
    · cases h
      have h1 := hsame rfl rfl (by simp [pend, pendTask, hst])
      refine ⟨h1.le, fun _ => h1, fun l' h2 h3 => ?_⟩
      injection h2 with h4 _
      exact (h3 (h4 ▸ not_not.1 hg)).elim

/-! ### What is asked of `unp_gc` -/

omit [DecidableEq S] in
/-- No call is in progress, and the counts are right. -/
structure Accurate (s : UnpFiles n S) : Prop where
  idle : s.stack = [] ∧ s.unpGcing = false
  msgcount : ∀ f, s.fmsgcount f = s.occ f
  count : ∀ f, s.fcount f = s.desc f + s.fmsgcount f
  rights : s.unpRights = ∑ f, s.fmsgcount f

/-- The calls that have not returned go on. -/
def Steps : UnpFiles n S → UnpFiles n S → Prop :=
  Relation.ReflTransGen fun s s' => s.stack ≠ [] ∧ s.step = .ok s'

/-- What `unp_gc` should have done when it returns: the counts are right again, the files on the queues
are those that can be reached, and these are on the queues of the sockets that can be reached as
before. -/
structure GcRight (s s' : UnpFiles n S) : Prop where
  accurate : s'.Accurate
  defer : s'.unpDefer = 0
  desc : s'.desc = s.desc
  gone : ∀ x f, s'.Holds x f → s.Reach f
  kept : ∀ x, (∀ g, s.sock g = some x → s.Reach g) → ∀ f, s.Reach f →
    (s'.queue x).flatten.count f = (s.queue x).flatten.count f

omit [DecidableEq S] in
theorem Accurate.heldOpen (h : s.Accurate) : s.HeldOpen := by
  intro x f hf
  have h1 := hf.occ_pos
  have h2 := h.msgcount f
  have h3 := h.count f
  omega

omit [Fintype S] in
theorem sweep_idle {rest : List (UnpTask n S)} (h : ∀ f ∈ l, s.fcount f ≠ 0 → s.fmark f = true) :
    Steps { s with stack := .sweep l :: rest } { s with unpGcing := false, stack := rest } := by
  induction l with
  | nil => exact .single ⟨cons_ne_nil _ _, rfl⟩
  | cons f l ih =>
    refine .head ⟨cons_ne_nil _ _, ?_⟩ (ih fun g hg => h g (mem_cons_of_mem f hg))
    refine if_neg fun ⟨h1, _, h3⟩ => ?_
    cases h3.symm.trans (h f mem_cons_self h1)

theorem Accurate.gc_idle (hs : s.Accurate) (h : ∀ f, s.fcount f ≠ 0 → s.Reach f) :
    ∃ s1 s', s.unpGc = .ok s1 ∧ Steps s1 s' ∧ s'.stack = [] ∧ GcRight s s' := by
  obtain ⟨mark, defer, h1, h2⟩ := unpGc_spec hs.heldOpen hs.idle.2
  refine ⟨_, { s with
    unpGcing := false, unpDefer := 0, fmark := mark, fdefer := defer, stack := [] }, h1, ?_, rfl, ?_⟩
  · rw [hs.idle.1]
    exact sweep_idle (s := { s with
      unpGcing := true, unpDefer := 0, fmark := mark, fdefer := defer }) fun f _ hf => (h2 f).2 (h f hf)
  · exact ⟨⟨⟨rfl, rfl⟩, hs.msgcount, hs.count, hs.rights⟩, rfl, rfl,
      fun x f hf => h f (hs.heldOpen x f hf), fun x _ f _ => rfl⟩

/-- Where the sweep is until it has given up a reference: at a file that cannot be reached. -/
def Sweeping (s0 s : UnpFiles n S) : Prop :=
  ∃ mark defer k, (∀ f, mark f = true ↔ s0.Reach f) ∧
    ((∃ l, s = { s0 with
        unpGcing := true, unpDefer := k, fmark := mark, fdefer := defer, stack := [.sweep l] } ∧
      ∃ f ∈ l, s0.fcount f ≠ 0 ∧ ¬s0.Reach f) ∨
    ∃ f l, s = { s0 with
        unpGcing := true, unpDefer := k, fmark := mark, fdefer := defer, stack := [.sweepFile f l] } ∧
      s0.fmsgcount f ≠ 0)

/-- The sweep gives up a reference that is still on a queue. -/
theorem Sweeping.step (hs : s0.Accurate) (h : Sweeping s0 s) (hstep : s.step = .ok s') :
    Sweeping s0 s' ∨ ∃ f, s'.slack f < 0 := by
  obtain ⟨mark, defer, k, hm, ⟨l, rfl, f, hf, hc, hr⟩ | ⟨f, l, rfl, hc⟩⟩ := h
  · cases l with
    | nil => cases hf
    | cons g l =>
      left
      simp only [UnpFiles.step, work] at hstep
      split_ifs at hstep with hg
      · cases hstep
        exact ⟨mark, defer, k, hm, .inr ⟨g, l, rfl, fun h1 => hg.1 (hg.2.1.trans h1)⟩⟩
      · cases hstep
        refine ⟨mark, defer, k, hm, .inl ⟨l, rfl, f, ?_, hc, hr⟩⟩
        refine (mem_cons.1 hf).resolve_left ?_
        rintro rfl
        -- not marked, so all its references are in messages
        refine hg ⟨hc, ?_, ?_⟩
        · by_contra h1
          exact hr (.root ⟨hc, h1⟩)
        · cases h1 : mark f with
          | false => rfl
          | true => exact (hr ((hm f).1 h1)).elim
  · right
    have h1 := (work_slack (s := { s0 with
      unpGcing := true, unpDefer := k, fmark := mark, fdefer := defer, stack := [.sweepFile f l] })
      rfl hstep f).2.2 l rfl hc
    have h2 := hs.msgcount f
    have h3 : s0.slack f = 0 := by
      simp only [slack, pend, hs.idle.1, map_nil, sum_nil]
      omega
    refine ⟨f, lt_of_lt_of_eq h1 ?_⟩
    rw [← h3]
    simp only [slack, pend, hs.idle.1, map_cons, map_nil, sum_cons, sum_nil,
      pendTask]
    rfl

/-- If an open file cannot be reached, `unp_gc` does not return with the counts right. -/
theorem Accurate.gc_wrong (hs : s.Accurate) (hf : s.fcount f ≠ 0) (hr : ¬s.Reach f) :
    ¬∃ s1 s', s.unpGc = .ok s1 ∧ Steps s1 s' ∧ s'.stack = [] ∧ GcRight s s' := by
  rintro ⟨s1, s', h1, h2, h3, h4⟩
  obtain ⟨mark, defer, h6, h7⟩ := unpGc_spec hs.heldOpen hs.idle.2
  cases h1.symm.trans h6
  -- a reference is given up while it is on a queue, and it stays so
  have h8 : Sweeping s s' ∨ ∃ g, s'.slack g < 0 := by
    clear h3 h4
    induction h2 with
    | refl =>
      refine .inl ⟨mark, defer, 0, h7, .inl ⟨List.finRange n, ?_, f, mem_finRange f, hf, hr⟩⟩
      rw [hs.idle.1]
    | tail _ hstep ih =>
      obtain ⟨hne, hstep⟩ := hstep
      rcases ih with h8 | ⟨g, h8⟩
      · exact h8.step hs hstep
      · obtain ⟨t, rest, hst⟩ := exists_cons_of_ne_nil hne
        simp only [UnpFiles.step, hst] at hstep
        exact .inr ⟨g, lt_of_le_of_lt (work_slack hst hstep g).1 h8⟩
  rcases h8 with ⟨_, _, _, _, ⟨_, rfl, _⟩ | ⟨_, _, rfl, _⟩⟩ | ⟨g, h8⟩
  · cases h3
  · cases h3
  · have h9 := h4.accurate.msgcount g
    simp only [slack, pend, h3, map_nil, sum_nil] at h8
    omega

/-- `unp_gc` does what is asked if and only if there is nothing to collect: every open file can be
reached from a descriptor. -/
theorem unp_gc_right_iff (hs : s.Accurate) :
    (∃ s1 s', s.unpGc = .ok s1 ∧ Steps s1 s' ∧ s'.stack = [] ∧ GcRight s s') ↔
      ∀ f, s.fcount f ≠ 0 → s.Reach f := by
  refine ⟨fun h f hf => ?_, hs.gc_idle⟩
  by_contra hr
  exact hs.gc_wrong hf hr h

/-- A socket whose queue holds the only reference to its own file. -/
def selfHeld : UnpFiles 1 Unit where
  fcount := fun _ => 1
  fmsgcount := fun _ => 1
  fmark := fun _ => false
  fdefer := fun _ => false
  sock := fun _ => some ()
  queue := fun _ => [[0]]
  pcb := fun _ => true
  nofdref := fun _ => false
  stream := fun _ => true
  cantsendmore := fun _ => false
  conn := fun _ => none
  space := fun _ => 4092
  unpRights := 1
  unpDefer := 0
  unpGcing := false
  desc := fun _ => 0
  stack := []

theorem selfHeld_accurate : selfHeld.Accurate :=
  ⟨⟨rfl, rfl⟩, fun f => by simp [selfHeld, occ, Fin.eq_zero f], fun _ => rfl, rfl⟩

/-- The same with a descriptor. -/
def selfHeldOpen : UnpFiles 1 Unit :=
  { selfHeld with fcount := fun _ => 2, desc := fun _ => 1 }

theorem unp_gc_right_open :
    (∃ s1 s', selfHeldOpen.unpGc = .ok s1 ∧ Steps s1 s' ∧ s'.stack = [] ∧ GcRight selfHeldOpen s') ↔
      ∀ f, selfHeldOpen.fcount f ≠ 0 → selfHeldOpen.Reach f :=
  unp_gc_right_iff ⟨⟨rfl, rfl⟩, selfHeld_accurate.msgcount, fun _ => rfl, rfl⟩

/-- A number of pieces of work. -/
def steps : ℕ → UnpFiles n S → Except Trap (UnpFiles n S)
  | 0, s => .ok s
  | k + 1, s => if s.stack = [] then .ok s else s.step >>= steps k

/-- The close of the socket finds its own file on its queue and closes it once more. -/
theorem unp_gc_panics : selfHeld.Accurate ∧ (selfHeld.unpGc >>= steps 9) = .error .panic ∧
    ¬∃ s1 s', selfHeld.unpGc = .ok s1 ∧ Steps s1 s' ∧ s'.stack = [] ∧ GcRight selfHeld s' := by
  refine ⟨selfHeld_accurate, rfl, ?_⟩
  refine selfHeld_accurate.gc_wrong (f := 0) (by decide) fun h => ?_
  generalize (0 : Fin 1) = f at h
  induction h with
  | root h => exact h.2 rfl
  | held _ _ _ ih => exact ih

end UnpFiles

end Hpux.Net
