import Hpux910.Ufs.LockEdit
import Mathlib

/-!
# `insert_lock` and `compress_lock_list`

The routines are right only because the entries of an owner lie next to each other in the list:
`compress_lock_list` unlinks with a predecessor pointer that it does not move over entries of other
owners.  `ListOk` states this, together with the order of each owner's entries.

* `Compressed`, `Inserted` : what the two routines do to the entries of the calling owner.
* `leftOf` : what `insert_lock` leaves of one entry.
* `insertLock_spec` : on an ordered list `insert_lock` edits the own entries as `Inserted` says.
-/

namespace Hpux

namespace Lockf

open List

/-- Lock entries as ranges with a lock type. -/
def spans : Spans Lock ℤ LType := ⟨Lock.llStart, Lock.llEnd, Lock.llType⟩

@[simp] theorem spans_lo (e : Lock) : spans.lo e = e.llStart := rfl
@[simp] theorem spans_hi (e : Lock) : spans.hi e = e.llEnd := rfl
@[simp] theorem spans_val (e : Lock) : spans.val e = e.llType := rfl

theorem look_cons (e : Lock) (l : List Lock) (b : ℤ) : spans.look (e :: l) b =
    if e.llStart ≤ b ∧ b < e.llEnd then some e.llType else spans.look l b := rfl

/-- The entries of each owner lie together, are not empty and increase without overlap. -/
def ListOk (l : List Lock) : Prop := Grouped Lock.owner spans.Ok l

section

variable {r : Req} {p : Pool}

theorem lockadd_nil (h : p.free = []) (lb ub : ℤ) (t : LType) : p.lockadd r lb ub t =
    (none, { p with uError := some (if r.function = .lockf then .edeadlk else .enolck) }) := by
  simp [Pool.lockadd, Pool.lockalloc, h]

theorem lockadd_cons {a : ℕ} {fs : List ℕ} (h : p.free = a :: fs) (lb ub : ℤ) (t : LType) :
    p.lockadd r lb ub t = (some (freshLock r a lb ub t), { p with free := fs }) := by
  simp [Pool.lockadd, Pool.lockalloc, h, freshLock]

end

/-! ### `compress_lock_list` -/

/-- What `compress_lock_list` does to the own entries `M` that follow the entry it starts from. -/
structure Compressed (r : Req) (M M' : List Lock) (p p' : Pool) : Prop where
  own : ∀ e ∈ M', e.owner = r.u.owner
  ok : spans.Ok M'
  low : ∀ e ∈ M', r.ub ≤ e.llStart
  look : ∀ b, spans.look M' b = if b < r.ub then none else spans.look M b
  src : ∀ e' ∈ M', ∃ e ∈ M, e' = if e.llStart ≤ r.ub then { e with llStart := r.ub } else e
  edits : Edits r (M, p) (M', p')
  err : p'.uError = p.uError

theorem compress_skip {r : Req} {l : List Lock} (h : ∀ e ∈ l, e.owner = r.u.owner → r.ub < e.llStart)
    (skipped : List Lock) (p : Pool) : compressLockList r skipped l p = .ok (skipped ++ l, p) := by
  induction l generalizing skipped with
  | nil => simp [compressLockList]
  | cons e l ih =>
    rw [compressLockList, if_neg, ih (fun f hf => h f (by simp [hf]))]
    · simp
    · rintro ⟨hmy, hle⟩
      have := h e (by simp) (isMyLock_iff.1 hmy)
      omega

theorem compress_spec {r : Req} (hlt : r.lb < r.ub) {B : List Lock}
    (hB : ∀ e ∈ B, e.owner ≠ r.u.owner) {M : List Lock} (hown : ∀ e ∈ M, e.owner = r.u.owner)
    (hok : spans.Ok M) (hlow : ∀ e ∈ M, r.lb ≤ e.llStart) (p : Pool) :
    ∃ M' p', compressLockList r [] (M ++ B) p = .ok (M' ++ B, p') ∧ Compressed r M M' p p' := by
  induction M generalizing p with
  | nil =>
    refine ⟨[], p, ?_, by simp, by simp, by simp, by simp, by simp, .refl, rfl⟩
    rw [nil_append, compress_skip fun e he h => absurd h (hB e he)]
    rfl
  | cons e M ih =>
    have he : e.llStart < e.llEnd := hok.head_lt
    have hmy : e.owner = r.u.owner := hown e (by simp)
    have htail : ∀ f ∈ M, e.llEnd ≤ f.llStart := fun f hf => hok.le_of_mem hf
    have hl := hlow e (by simp)
    have ih := ih (fun f hf => hown f (by simp [hf])) hok.tail fun f hf => hlow f (by simp [hf])
    by_cases hs : e.llStart ≤ r.ub
    · rw [cons_append, compressLockList, if_pos ⟨isMyLock_iff.2 hmy, hs⟩]
      by_cases hu : r.ub < e.llEnd
      · -- the entry sticks out of the range: cut it at `ub`
        obtain ⟨M', p', heq, hc⟩ := ih p
        refine ⟨{ e with llStart := r.ub } :: M', p', ?_, ?_, ?_, ?_, ?_, ?_, ?_, hc.err⟩
        · have hcase : findLockRange e r.lb r.ub = (.before, .start) ∨
              findLockRange e r.lb r.ub = (.before, .middle) ∨
              findLockRange e r.lb r.ub = (.start, .middle) := by
            unfold findLockRange
            rcases hs.lt_or_eq with hs | hs
            · rw [region_middle hs hu]
              rcases hl.lt_or_eq with hl | hl
              · rw [region_before hl]; simp
              · rw [region_start hl]; simp
            · rw [region_start hs.symm, region_before (by omega)]; simp
          rcases hcase with hc | hc | hc <;> simp only [hc, heq] <;> simp
        · intro f hf
          rcases mem_cons.1 hf with rfl | hf
          · exact hmy
          · exact hc.own f hf
        · refine Spans.ok_cons.2 ⟨hu, fun f hf => ?_, hc.ok⟩
          -- the entries behind start after this one ends, hence after `ub`
          by_contra hlt'
          have hlf : spans.look M' f.llStart = some f.llType :=
            hc.ok.look_eq_some_iff.2 ⟨f, hf, le_rfl, hc.ok.1 f hf, rfl⟩
          have hnone : spans.look M f.llStart = none :=
            hok.look_tail_eq_none (by simpa using hlt')
          rw [hc.look, hnone] at hlf
          split_ifs at hlf
        · intro f hf
          rcases mem_cons.1 hf with rfl | hf
          · exact le_rfl
          · exact hc.low f hf
        · intro b
          simp only [look_cons, hc.look]
          by_cases hb : b < r.ub
          · rw [if_neg (by omega), if_pos hb, if_pos hb]
          · rw [if_neg hb, if_neg hb]
            by_cases hbe : b < e.llEnd
            · rw [if_pos (by omega), if_pos (by omega)]
            · rw [if_neg (by omega), if_neg (by omega)]
        · intro e' he'
          rcases mem_cons.1 he' with rfl | he'
          · exact ⟨e, by simp, by rw [if_pos hs]⟩
          · obtain ⟨f, hf, h⟩ := hc.src e' he'
            exact ⟨f, by simp [hf], h⟩
        · exact (Edits.change_head hmy r.ub e.llEnd e.llType M).trans (hc.edits.cons _)
      · -- the entry lies in the range: free it
        obtain ⟨M', p', heq, hc⟩ := ih (p.lockfree e)
        refine ⟨M', p', ?_, hc.own, hc.ok, hc.low, ?_, ?_, ?_, by rw [hc.err, Pool.lockfree_uError]⟩
        · have hcase : findLockRange e r.lb r.ub = (.before, .atEnd) ∨
              findLockRange e r.lb r.ub = (.before, .after) ∨
              findLockRange e r.lb r.ub = (.start, .atEnd) ∨
              findLockRange e r.lb r.ub = (.start, .after) := by
            unfold findLockRange
            rcases (not_lt.1 hu).lt_or_eq with hu | hu
            · rw [region_after he hu]
              rcases hl.lt_or_eq with hl | hl
              · rw [region_before hl]; simp
              · rw [region_start hl]; simp
            · rw [region_atEnd he hu.symm]
              rcases hl.lt_or_eq with hl | hl
              · rw [region_before hl]; simp
              · rw [region_start hl]; simp
          rcases hcase with hc | hc | hc | hc <;> simp only [hc, heq]
        · intro b
          rw [hc.look, look_cons]
          by_cases hb : b < r.ub
          · rw [if_pos hb, if_pos hb]
          · rw [if_neg hb, if_neg hb, if_neg (by omega)]
        · intro e' he'
          obtain ⟨f, hf, h⟩ := hc.src e' he'
          exact ⟨f, by simp [hf], h⟩
        · exact (Edits.free_head hmy M).trans hc.edits
    · -- everything from here on lies past the range
      have hpast : ∀ f ∈ e :: M, r.ub < f.llStart := by
        intro f hf
        rcases mem_cons.1 hf with rfl | hf
        · omega
        · have := htail f hf; omega
      refine ⟨e :: M, p, ?_, hown, hok, fun f hf => (hpast f hf).le, fun b => ?_, fun f hf => ?_,
        .refl, rfl⟩
      · rw [compress_skip, nil_append]
        intro f hf hfo
        rcases mem_append.1 hf with hf | hf
        · exact hpast f hf
        · exact absurd hfo (hB f hf)
      · split_ifs with hb
        · exact Spans.look_eq_none_of_lt fun f hf => hb.trans (hpast f hf)
        · rfl
      · exact ⟨f, hf, by rw [if_neg (not_le.2 (hpast f hf))]⟩

/-! ### `insert_lock` -/

/-- What `insert_lock` makes of the own entry `e`, when it does not free it.  The entry the scan
stops at (`first`) is retyped, grown or cut; the ones behind it are cut by `compress_lock_list`. -/
def leftOf (r : Req) (first : Bool) (e : Lock) : Lock :=
  if first then
    if r.ub < e.llStart ∨ e.llEnd < r.lb then e
    else if e.llType = r.locktype then
      { e with llStart := min e.llStart r.lb, llEnd := max e.llEnd r.ub }
    else if r.lb ≤ e.llStart ∧ e.llEnd ≤ r.ub then
      { e with llStart := r.lb, llEnd := r.ub, llType := r.locktype }
    else if r.ub < e.llEnd then { e with llStart := r.ub }
    else { e with llEnd := r.lb }
  else if e.llStart ≤ r.ub then { e with llStart := r.ub } else e

/-- All of `l` ends before the requested range, so the scan has not stopped yet. -/
def allBefore (r : Req) (l : List Lock) : Bool := l.all fun f => decide (f.llEnd < r.lb)

/-- How many free entries `insert_lock` needs, given the own entries. -/
def entriesNeeded (r : Req) : List Lock → ℕ
  | [] => 1
  | e :: M =>
    if e.llEnd < r.lb then entriesNeeded r M
    else if r.ub < e.llStart then 1
    else if e.llType = r.locktype ∨ (r.lb ≤ e.llStart ∧ e.llEnd ≤ r.ub) then 0
    else if e.llStart < r.lb ∧ r.ub < e.llEnd then 2
    else 1

/-- What `insert_lock` does to the own entries `M`. -/
structure Inserted (r : Req) (M M' : List Lock) (p p' : Pool) : Prop where
  own : ∀ e ∈ M', e.owner = r.u.owner
  ok : spans.Ok M'
  low : ∀ e' ∈ M', r.lb ≤ e'.llStart ∨ ∃ e ∈ M, e.llStart ≤ e'.llStart
  look : (p'.uError = p.uError ∧ ∀ b, spans.look M' b =
      if r.lb ≤ b ∧ b < r.ub then some r.locktype else spans.look M b) ∨
    (p'.uError ≠ none ∧ M' = M)
  src : ∀ e' ∈ M', e'.iwant = false ∨ e' ∈ M ∨
    ∃ M₁ e M₂, M = M₁ ++ e :: M₂ ∧ e' = leftOf r (allBefore r M₁) e
  edits : Edits r (M, p) (M', p')
  starved : p.free.length < entriesNeeded r M → M' = M

section Insert

variable {r : Req} {e : Lock} {M : List Lock} {p : Pool}

theorem entriesNeeded_le_one (hle : r.lb ≤ e.llEnd) (h : r.lb ≤ e.llStart ∨ e.llEnd ≤ r.ub) :
    entriesNeeded r (e :: M) ≤ 1 := by
  rw [entriesNeeded, if_neg (by omega)]
  split_ifs <;> omega

theorem entriesNeeded_le_two (hle : r.lb ≤ e.llEnd) : entriesNeeded r (e :: M) ≤ 2 := by
  rw [entriesNeeded, if_neg (by omega)]
  split_ifs <;> omega

theorem entriesNeeded_eq_zero (hle : r.lb ≤ e.llEnd) (hle' : e.llStart ≤ r.ub)
    (h : e.llType = r.locktype ∨ (r.lb ≤ e.llStart ∧ e.llEnd ≤ r.ub)) :
    entriesNeeded r (e :: M) = 0 := by
  rw [entriesNeeded, if_neg (by omega), if_neg (by omega), if_pos h]

/-- The entry is changed in place and nothing behind it is touched. -/
theorem Inserted.change (hown : ∀ f ∈ e :: M, f.owner = r.u.owner) (hok : spans.Ok (e :: M))
    {lb ub : ℤ} {t : LType} (hlt : lb < ub) (hub : ub ≤ e.llEnd) (hlb : r.lb ≤ lb ∨ e.llStart ≤ lb)
    (hleft : ({ e with llStart := lb, llEnd := ub, llType := t } : Lock) = leftOf r true e)
    (hneed : entriesNeeded r (e :: M) = 0)
    (hlook : ∀ b, (if lb ≤ b ∧ b < ub then some t else spans.look M b) =
      if r.lb ≤ b ∧ b < r.ub then some r.locktype else spans.look (e :: M) b) :
    Inserted r (e :: M) ({ e with llStart := lb, llEnd := ub, llType := t } :: M) p p := by
  have he : e.owner = r.u.owner := hown e (by simp)
  refine ⟨?_, Spans.ok_cons.2 ⟨hlt, fun f hf => ?_, hok.tail⟩, ?_, .inl ⟨rfl, hlook⟩, ?_,
    Edits.change_head he lb ub t M, fun h => by omega⟩
  · intro f hf
    rcases mem_cons.1 hf with rfl | hf
    · exact he
    · exact hown f (by simp [hf])
  · exact le_trans hub (hok.le_of_mem hf)
  · intro f hf
    rcases mem_cons.1 hf with rfl | hf
    · exact hlb.imp id fun h => ⟨e, by simp, h⟩
    · exact .inr ⟨f, by simp [hf], le_rfl⟩
  · intro f hf
    rcases mem_cons.1 hf with rfl | hf
    · exact .inr (.inr ⟨[], e, M, rfl, hleft⟩)
    · exact .inr (.inl (by simp [hf]))

theorem Inserted.fail (hown : ∀ f ∈ M, f.owner = r.u.owner) (hok : spans.Ok M) {err : Errno} :
    Inserted r M M p { p with uError := some err } :=
  ⟨hown, hok, fun f hf => .inr ⟨f, hf, le_rfl⟩, .inr ⟨by simp, rfl⟩, fun _ hf => .inr (.inl hf),
    .single (.error M p (some err) p.uPrelock), fun _ => rfl⟩

/-- The entry is grown over the range and the own entries behind it are compressed. -/
theorem Inserted.grow {M' : List Lock} {p' : Pool} (hown : ∀ f ∈ e :: M, f.owner = r.u.owner)
    (hok : spans.Ok (e :: M)) (hle : e.llStart ≤ r.ub) (hend : e.llEnd < r.ub) {lb : ℤ}
    (hlb : lb = min e.llStart r.lb) (hlt : lb < r.ub) (hle' : r.lb ≤ e.llEnd)
    (ht : e.llType = r.locktype ∨ r.lb ≤ e.llStart) (hc : Compressed r M M' p p') : Inserted r (e :: M)
      ({ e with llStart := lb, llEnd := r.ub, llType := r.locktype } :: M') p p' := by
  have he : e.owner = r.u.owner := hown e (by simp)
  have hne := hok.head_lt
  simp only [spans_lo, spans_hi] at hne
  refine ⟨?_, Spans.ok_cons.2 ⟨hlt, fun f hf => hc.low f hf, hc.ok⟩, ?_, .inl ⟨hc.err, ?_⟩, ?_,
    (Edits.change_head he lb r.ub r.locktype M).trans (hc.edits.cons _), fun h => ?_⟩
  · intro f hf
    rcases mem_cons.1 hf with rfl | hf
    · exact he
    · exact hc.own f hf
  · intro f hf
    rcases mem_cons.1 hf with rfl | hf
    · simp only
      by_cases h : r.lb ≤ e.llStart
      · exact .inl (by omega)
      · exact .inr ⟨e, by simp, by omega⟩
    · exact .inr ⟨e, by simp, hle.trans (hc.low f hf)⟩
  · intro b
    simp only [look_cons, hc.look]
    have hM : b < e.llEnd → spans.look M b = none := hok.look_tail_eq_none
    rcases ht with ht | ht
    · rw [ht]
      split_ifs <;> first | rfl | omega | exact (hM (by omega)).symm
    · split_ifs <;> first | rfl | omega | exact (hM (by omega)).symm
  · intro f hf
    rcases mem_cons.1 hf with rfl | hf
    · refine .inr (.inr ⟨[], e, M, rfl, ?_⟩)
      rw [leftOf, allBefore, all_nil, if_pos rfl, if_neg (by omega)]
      by_cases htt : e.llType = r.locktype
      · rw [if_pos htt, ← hlb, max_eq_right hend.le, htt]
      · have hs := ht.resolve_left htt
        rw [if_neg htt, if_pos ⟨hs, hend.le⟩, hlb, min_eq_right hs]
    · obtain ⟨g, hg, hfg⟩ := hc.src f hf
      obtain ⟨M₁, M₂, rfl⟩ := append_of_mem hg
      refine .inr (.inr ⟨e :: M₁, g, M₂, rfl, ?_⟩)
      have : allBefore r (e :: M₁) = false := by
        simp only [allBefore, all_cons, Bool.and_eq_false_iff, decide_eq_false_iff_not]
        exact .inl (by omega)
      rw [leftOf, this, if_neg (by simp), hfg]
  · rw [entriesNeeded_eq_zero hle' hle (ht.imp id fun h => ⟨h, hend.le⟩)] at h
    omega

/-- A fresh entry is linked in front of the entry, which keeps what lies behind the range. -/
theorem Inserted.linkBefore (hown : ∀ f ∈ e :: M, f.owner = r.u.owner) (hok : spans.Ok (e :: M))
    (hlt : r.lb < r.ub) (hlb : r.lb ≤ e.llStart) {a : ℕ} {fs : List ℕ} (hfree : p.free = a :: fs)
    {s : ℤ} (hs : s = max e.llStart r.ub) (hse : s < e.llEnd)
    (hleft : ({ e with llStart := s } : Lock) = leftOf r true e) :
    Inserted r (e :: M)
      (freshLock r a r.lb r.ub r.locktype :: { e with llStart := s } :: M) p
      { p with free := fs } := by
  have he : e.owner = r.u.owner := hown e (by simp)
  have hne := hok.head_lt
  simp only [spans_lo, spans_hi] at hne
  refine ⟨?_, Spans.ok_cons.2 ⟨hlt, ?_, Spans.ok_cons.2 ⟨hse, fun f hf => hok.le_of_mem hf,
    hok.tail⟩⟩, ?_, .inl ⟨rfl, ?_⟩, ?_, (Edits.link_head hfree r.lb r.ub r.locktype _).trans
      ((Edits.change_head he s e.llEnd e.llType M).cons _), fun h => ?_⟩
  · intro f hf
    rcases mem_cons.1 hf with rfl | hf
    · rfl
    · rcases mem_cons.1 hf with rfl | hf
      · exact he
      · exact hown f (by simp [hf])
  · intro f hf
    rcases mem_cons.1 hf with rfl | hf
    · simp only [spans_lo, spans_hi, freshLock]; omega
    · have := hok.le_of_mem hf
      simp only [spans_lo, spans_hi, freshLock] at this ⊢; omega
  · intro f hf
    rcases mem_cons.1 hf with rfl | hf
    · exact .inl le_rfl
    · rcases mem_cons.1 hf with rfl | hf
      · exact .inl (by simp only; omega)
      · exact .inr ⟨f, by simp [hf], le_rfl⟩
  · intro b
    simp only [look_cons, freshLock]
    split_ifs <;> first | rfl | omega
  · intro f hf
    rcases mem_cons.1 hf with rfl | hf
    · exact .inl rfl
    · rcases mem_cons.1 hf with rfl | hf
      · exact .inr (.inr ⟨[], e, M, rfl, hleft⟩)
      · exact .inr (.inl (by simp [hf]))
  · have := entriesNeeded_le_one (M := M) (by omega) (.inl hlb)
    rw [hfree, length_cons] at h
    omega

/-- A fresh entry is linked behind the entry, which keeps what lies before the range; `M'` is what
becomes of the entries behind it. -/
theorem Inserted.linkAfter {M' : List Lock} {p' : Pool} (hown : ∀ f ∈ e :: M, f.owner = r.u.owner)
    (hok : spans.Ok (e :: M)) (hlt : r.lb < r.ub) (hlb : e.llStart < r.lb) (hle : r.lb ≤ e.llEnd)
    (hend : e.llEnd ≤ r.ub) (ht : e.llType ≠ r.locktype) {a : ℕ} {fs : List ℕ}
    (hfree : p.free = a :: fs)
    (hc : M' = M ∧ p' = { p with free := fs } ∧ e.llEnd = r.ub ∨
      Compressed r M M' { p with free := fs } p') :
    Inserted r (e :: M)
      ({ e with llEnd := r.lb } :: freshLock r a r.lb r.ub r.locktype :: M') p p' := by
  have he : e.owner = r.u.owner := hown e (by simp)
  have hM' : spans.Ok M' ∧ (∀ f ∈ M', f.owner = r.u.owner ∧ r.ub ≤ f.llStart) ∧
      (∀ b, spans.look M' b = if b < r.ub then none else spans.look M b) ∧
      p'.uError = p.uError ∧ Edits r (M, { p with free := fs }) (M', p') := by
    rcases hc with ⟨rfl, rfl, hub⟩ | hc
    · refine ⟨hok.tail, fun f hf => ⟨hown f (by simp [hf]), hub ▸ hok.le_of_mem hf⟩, fun b => ?_,
        rfl, .refl⟩
      split_ifs with hb
      · exact hok.look_tail_eq_none (by simp only [spans_hi]; omega)
      · rfl
    · exact ⟨hc.ok, fun f hf => ⟨hc.own f hf, hc.low f hf⟩, hc.look, hc.err, hc.edits⟩
  obtain ⟨hok', hmem, hlook, herr, hed⟩ := hM'
  refine ⟨?_, Spans.ok_cons.2 ⟨hlb, ?_, Spans.ok_cons.2 ⟨hlt, fun f hf => (hmem f hf).2, hok'⟩⟩,
    ?_, .inl ⟨herr, ?_⟩, ?_, ?_, fun h => ?_⟩
  · intro f hf
    rcases mem_cons.1 hf with rfl | hf
    · exact he
    · rcases mem_cons.1 hf with rfl | hf
      · rfl
      · exact (hmem f hf).1
  · intro f hf
    rcases mem_cons.1 hf with rfl | hf
    · exact le_rfl
    · have := (hmem f hf).2
      simp only [spans_lo, spans_hi]; omega
  · intro f hf
    rcases mem_cons.1 hf with rfl | hf
    · exact .inr ⟨e, by simp, le_rfl⟩
    · rcases mem_cons.1 hf with rfl | hf
      · exact .inl le_rfl
      · exact .inl (by have := (hmem f hf).2; omega)
  · intro b
    simp only [look_cons, freshLock, hlook]
    have hM : b < e.llEnd → spans.look M b = none := hok.look_tail_eq_none
    split_ifs <;> first | rfl | omega | exact (hM (by omega)).symm
  · intro f hf
    rcases mem_cons.1 hf with rfl | hf
    · refine .inr (.inr ⟨[], e, M, rfl, ?_⟩)
      rw [leftOf, allBefore, all_nil, if_pos rfl, if_neg (by omega), if_neg ht,
        if_neg (by omega), if_neg (by omega)]
    · rcases mem_cons.1 hf with rfl | hf
      · exact .inl rfl
      · rcases hc with ⟨rfl, -, -⟩ | hc
        · exact .inr (.inl (by simp [hf]))
        · obtain ⟨g, hg, hfg⟩ := hc.src f hf
          obtain ⟨M₁, M₂, rfl⟩ := append_of_mem hg
          refine .inr (.inr ⟨e :: M₁, g, M₂, rfl, ?_⟩)
          have : allBefore r (e :: M₁) = false := by
            simp only [allBefore, all_cons, Bool.and_eq_false_iff, decide_eq_false_iff_not]
            exact .inl (by omega)
          rw [leftOf, this, if_neg (by simp), hfg]
  · have h1 := Edits.change_head (p := p) he e.llStart r.lb e.llType M
    have h2 := Edits.link_head (r := r) hfree r.lb r.ub r.locktype M
    exact h1.trans (Edits.cons (h2.trans (hed.cons _)) _)
  · have := entriesNeeded_le_one (M := M) hle (.inr hend)
    rw [hfree, length_cons] at h
    omega

/-- The entry is split around the range. -/
theorem Inserted.split (hown : ∀ f ∈ e :: M, f.owner = r.u.owner) (hok : spans.Ok (e :: M))
    (hlt : r.lb < r.ub) (hlb : e.llStart < r.lb) (hub : r.ub < e.llEnd)
    (ht : e.llType ≠ r.locktype) {a b : ℕ} {fs : List ℕ} (hfree : p.free = a :: b :: fs) :
    Inserted r (e :: M) (freshLock r a e.llStart r.lb e.llType ::
      freshLock r b r.lb r.ub r.locktype :: { e with llStart := r.ub } :: M) p
      { p with free := fs } := by
  have he : e.owner = r.u.owner := hown e (by simp)
  have htail : ∀ f ∈ M, e.llEnd ≤ f.llStart := fun f hf => hok.le_of_mem hf
  refine ⟨?_, ?_, ?_, .inl ⟨rfl, ?_⟩, ?_, ?_, fun h => ?_⟩
  · intro f hf
    simp only [mem_cons] at hf
    rcases hf with rfl | rfl | rfl | hf
    · rfl
    · rfl
    · exact he
    · exact hown f (by simp [hf])
  · refine Spans.ok_cons.2 ⟨hlb, ?_, Spans.ok_cons.2 ⟨hlt, ?_, Spans.ok_cons.2 ⟨hub, htail,
      hok.tail⟩⟩⟩
    · intro f hf
      simp only [mem_cons] at hf
      rcases hf with rfl | rfl | hf
      · exact le_rfl
      · exact hlt.le
      · have := htail f hf
        simp only [spans_lo, spans_hi, freshLock]; omega
    · intro f hf
      rcases mem_cons.1 hf with rfl | hf
      · exact le_rfl
      · have := htail f hf
        simp only [spans_lo, spans_hi, freshLock]; omega
  · intro f hf
    simp only [mem_cons] at hf
    rcases hf with rfl | rfl | rfl | hf
    · exact .inr ⟨e, by simp, le_rfl⟩
    · exact .inl le_rfl
    · exact .inl hlt.le
    · exact .inr ⟨f, by simp [hf], le_rfl⟩
  · intro x
    simp only [look_cons, freshLock]
    split_ifs <;> first | rfl | omega
  · intro f hf
    simp only [mem_cons] at hf
    rcases hf with rfl | rfl | rfl | hf
    · exact .inl rfl
    · exact .inl rfl
    · refine .inr (.inr ⟨[], e, M, rfl, ?_⟩)
      rw [leftOf, allBefore, all_nil, if_pos rfl, if_neg (by omega), if_neg ht,
        if_neg (by omega), if_pos hub]
    · exact .inr (.inl (by simp [hf]))
  · have h1 := Edits.link_head (r := r) hfree e.llStart r.lb e.llType (e :: M)
    have h2 := Edits.link_head (r := r) (p := { p with free := b :: fs }) rfl r.lb r.ub
      r.locktype (e :: M)
    have h3 := Edits.change_head (p := { p with free := fs }) he r.ub e.llEnd e.llType M
    exact h1.trans (Edits.cons (h2.trans (Edits.cons h3 _)) _)
  · have := entriesNeeded_le_two (r := r) (e := e) (M := M) (by omega)
    rw [hfree, length_cons, length_cons] at h
    omega

theorem lockadd_cases (r : Req) (p : Pool) :
    (∃ err, ∀ lb ub t, p.lockadd r lb ub t = (none, { p with uError := some err })) ∨
      ∃ a fs, p.free = a :: fs := by
  cases h : p.free with
  | nil => exact .inl ⟨_, fun lb ub t => by rw [lockadd_nil h, h]⟩
  | cons a fs => exact .inr ⟨a, fs, rfl⟩

variable {B : List Lock}

/-- The arm of `insert_lock` for a range that starts at or before the entry and ends in it. -/
theorem touch_cut (hlt : r.lb < r.ub) (hown : ∀ f ∈ e :: M, f.owner = r.u.owner)
    (hok : spans.Ok (e :: M)) (hlb : r.lb ≤ e.llStart) (hub : r.ub < e.llEnd)
    (ht : e.llType ≠ r.locktype) (pre : List Lock) (p : Pool) :
    ∃ M' p', (match p.lockadd r r.lb r.ub r.locktype with
        | (none, p) => .ok (pre ++ e :: (M ++ B), p)
        | (some nl, p) => .ok (pre ++ nl :: { e with llStart := r.ub } :: (M ++ B), p)) =
      (.ok (pre ++ M' ++ B, p') : Except Panic (List Lock × Pool)) ∧
      (r.ub < e.llStart ∨ Inserted r (e :: M) M' p p') := by
  rcases lockadd_cases r p with ⟨err, h⟩ | ⟨a, fs, hfree⟩
  · exact ⟨e :: M, { p with uError := some err }, by simp [h], .inr (.fail hown hok)⟩
  · refine ⟨freshLock r a r.lb r.ub r.locktype :: { e with llStart := r.ub } :: M,
      { p with free := fs }, by simp [lockadd_cons hfree], ?_⟩
    by_cases h1 : r.ub < e.llStart
    · exact .inl h1
    · refine .inr (Inserted.linkBefore hown hok hlt hlb hfree (s := r.ub) (by omega) hub ?_)
      rw [leftOf, if_pos rfl, if_neg (by omega), if_neg ht, if_neg (by omega), if_pos hub]

/-- The arms for a range that covers the entry from its start or from before it. -/
theorem touch_cover (hlt : r.lb < r.ub) (hB : ∀ f ∈ B, f.owner ≠ r.u.owner)
    (hown : ∀ f ∈ e :: M, f.owner = r.u.owner) (hok : spans.Ok (e :: M)) (hle : r.lb ≤ e.llEnd)
    (hend : e.llEnd < r.ub) (ht : e.llType = r.locktype ∨ r.lb ≤ e.llStart) (lb : ℤ)
    (hlb : lb = min e.llStart r.lb) (pre : List Lock) (p : Pool) : ∃ M' p', compressAfter r
        (pre ++ [{ e with llStart := lb, llEnd := r.ub, llType := r.locktype }]) (M ++ B) p =
      .ok (pre ++ M' ++ B, p') ∧ Inserted r (e :: M) M' p p' := by
  have hne : e.llStart < e.llEnd := hok.head_lt
  obtain ⟨M', p', heq, hc⟩ := compress_spec hlt hB (fun f hf => hown f (by simp [hf])) hok.tail
    (fun f hf => hle.trans (hok.le_of_mem hf)) p
  refine ⟨_, p', ?_, Inserted.grow hown hok (by omega) hend hlb (by omega) hle ht hc⟩
  simp [compressAfter, heq]

/-- The arms for a range that starts inside the entry or at its end and reaches its end. -/
theorem touch_tail (hlt : r.lb < r.ub) (hB : ∀ f ∈ B, f.owner ≠ r.u.owner)
    (hown : ∀ f ∈ e :: M, f.owner = r.u.owner) (hok : spans.Ok (e :: M)) (hlb : e.llStart < r.lb)
    (hle : r.lb ≤ e.llEnd) (hend : e.llEnd < r.ub) (pre : List Lock) (p : Pool) :
    ∃ M' p', (if e.llType ≠ r.locktype then
        match p.lockadd r r.lb r.ub r.locktype with
        | (none, p) => .ok (pre ++ e :: (M ++ B), p)
        | (some nl, p) => compressAfter r (pre ++ [{ e with llEnd := r.lb }, nl]) (M ++ B) p
      else compressAfter r (pre ++ [{ e with llEnd := r.ub }]) (M ++ B) p) =
      .ok (pre ++ M' ++ B, p') ∧ Inserted r (e :: M) M' p p' := by
  by_cases ht : e.llType = r.locktype
  · rw [if_neg (not_not.2 ht)]
    have := touch_cover hlt hB hown hok hle hend (.inl ht) e.llStart
      (min_eq_left hlb.le).symm pre p
    rwa [← ht] at this
  · rw [if_pos ht]
    rcases lockadd_cases r p with ⟨err, h⟩ | ⟨a, fs, hfree⟩
    · exact ⟨e :: M, { p with uError := some err }, by simp [h], .fail hown hok⟩
    · obtain ⟨M', p', heq, hc⟩ := compress_spec hlt hB (fun f hf => hown f (by simp [hf]))
        hok.tail (fun f hf => hle.trans (hok.le_of_mem hf)) { p with free := fs }
      refine ⟨_, p', ?_, Inserted.linkAfter hown hok hlt hlb hle hend.le ht hfree (.inr hc)⟩
      simp [lockadd_cons hfree, compressAfter, heq]

/-- The arm for a range strictly inside the entry. -/
theorem touch_middle (hlt : r.lb < r.ub)
    (hown : ∀ f ∈ e :: M, f.owner = r.u.owner) (hok : spans.Ok (e :: M)) (hlb : e.llStart < r.lb)
    (hub : r.ub < e.llEnd) (ht : e.llType ≠ r.locktype) (pre : List Lock) (p : Pool) :
    ∃ M' p', (match p.lockadd r e.llStart r.lb e.llType with
        | (none, p) => .ok (pre ++ e :: (M ++ B), p)
        | (some lo, p) =>
          match p.lockadd r r.lb r.ub r.locktype with
          | (none, p) => .ok (pre ++ e :: (M ++ B), p.lockfree lo)
          | (some nl, p) => .ok (pre ++ lo :: nl :: { e with llStart := r.ub } :: (M ++ B), p)) =
      (.ok (pre ++ M' ++ B, p') : Except Panic (List Lock × Pool)) ∧
      Inserted r (e :: M) M' p p' := by
  rcases lockadd_cases r p with ⟨err, h⟩ | ⟨a, fs, hfree⟩
  · exact ⟨e :: M, { p with uError := some err }, by simp [h], .fail hown hok⟩
  · rw [lockadd_cons hfree]
    rcases fs with _ | ⟨b, fs⟩
    · -- the second entry is missing: the first one goes back, the list is as before
      have hback : ∀ err, Pool.lockfree { p with free := [], uError := some err }
          (freshLock r a e.llStart r.lb e.llType) = { p with uError := some err } := by
        intro err
        simp [Pool.lockfree, Pool.notify, Pool.lockdec, freshLock, hfree]
      refine ⟨e :: M, { p with uError := some (if r.function = .lockf then .edeadlk else .enolck) },
        ?_, .fail hown hok⟩
      simp [lockadd_nil (r := r) (p := { p with free := [] }) rfl, hback]
    · refine ⟨_, { p with free := fs }, ?_, Inserted.split hown hok hlt hlb hub ht hfree⟩
      simp [lockadd_cons (r := r) (p := { p with free := b :: fs }) rfl]

theorem Inserted.same (hown : ∀ f ∈ e :: M, f.owner = r.u.owner) (hok : spans.Ok (e :: M))
    (hlb : e.llStart ≤ r.lb) (hub : r.ub ≤ e.llEnd) (ht : e.llType = r.locktype) :
    Inserted r (e :: M) (e :: M) p p := by
  refine ⟨hown, hok, fun f hf => .inr ⟨f, hf, le_rfl⟩, .inl ⟨rfl, fun b => ?_⟩,
    fun f hf => .inr (.inl hf), .refl, fun _ => rfl⟩
  split_ifs with hb
  · rw [look_cons, if_pos (by omega), ht]
  · rfl

/-- The arms for a range that starts before the entry and ends in it or where it starts. -/
theorem touch_before (hlt : r.lb < r.ub) (hown : ∀ f ∈ e :: M, f.owner = r.u.owner)
    (hok : spans.Ok (e :: M)) (hlb : r.lb < e.llStart) (hle : e.llStart ≤ r.ub)
    (hub : r.ub < e.llEnd) (pre : List Lock) (p : Pool) :
    ∃ M' p', (if e.llType = r.locktype then .ok (pre ++ { e with llStart := r.lb } :: (M ++ B), p)
        else match p.lockadd r r.lb r.ub r.locktype with
          | (none, p) => .ok (pre ++ e :: (M ++ B), p)
          | (some nl, p) => .ok (pre ++ nl :: { e with llStart := r.ub } :: (M ++ B), p)) =
      (.ok (pre ++ M' ++ B, p') : Except Panic (List Lock × Pool)) ∧
      Inserted r (e :: M) M' p p' := by
  by_cases ht : e.llType = r.locktype
  · rw [if_pos ht]
    refine ⟨{ e with llStart := r.lb } :: M, p, by simp, ?_⟩
    refine Inserted.change hown hok (by omega) le_rfl (.inl le_rfl) ?_
      (entriesNeeded_eq_zero (by omega) hle (.inl ht)) fun b => ?_
    · rw [leftOf, if_pos rfl, if_neg (by omega), if_pos ht, min_eq_right hlb.le,
        max_eq_left hub.le]
    · simp only [look_cons, ht]
      split_ifs <;> first | rfl | omega
  · rw [if_neg ht]
    obtain ⟨M', p', heq, h⟩ := touch_cut hlt hown hok hlb.le hub ht pre p
    exact ⟨M', p', heq, h.resolve_left (by omega)⟩

/-- The arms for a range that ends where the entry ends and covers it. -/
theorem Inserted.retype (hown : ∀ f ∈ e :: M, f.owner = r.u.owner) (hok : spans.Ok (e :: M))
    (hlb : r.lb ≤ e.llStart) (hub : r.ub = e.llEnd) (lb : ℤ) (hlb' : lb = r.lb) :
    Inserted r (e :: M) ({ e with llStart := lb, llType := r.locktype } :: M) p p := by
  subst hlb'
  have hne : e.llStart < e.llEnd := hok.head_lt
  refine Inserted.change hown hok (by omega) le_rfl (.inl le_rfl) ?_
    (entriesNeeded_eq_zero (by omega) (by omega) (.inr ⟨hlb, hub.ge⟩)) fun b => ?_
  · rw [leftOf, if_pos rfl, if_neg (by omega)]
    by_cases ht : e.llType = r.locktype
    · rw [if_pos ht, min_eq_right hlb, hub, max_self, ht]
    · rw [if_neg ht, if_pos ⟨hlb, hub.ge⟩, hub]
  · simp only [look_cons]
    split_ifs <;> first | rfl | omega

/-- The scan at the first own entry that does not end before the range. -/
theorem insertScan_touch (hlt : r.lb < r.ub) (hB : ∀ f ∈ B, f.owner ≠ r.u.owner)
    (hown : ∀ f ∈ e :: M, f.owner = r.u.owner) (hok : spans.Ok (e :: M)) (hle : r.lb ≤ e.llEnd)
    (before since : List Lock) (found : Bool) (p : Pool) :
    ∃ M' p', insertScan r before since found (e :: M ++ B) p =
      .ok (before ++ since ++ M' ++ B, p') ∧ Inserted r (e :: M) M' p p' := by
  have hne : e.llStart < e.llEnd := hok.head_lt
  have hmy : isMyLock r.u e = true := isMyLock_iff.2 (hown e (by simp))
  rw [cons_append, insertScan, if_pos hmy]
  -- the region of `lb`, then the region of `ub`
  rcases lt_trichotomy r.lb e.llStart with hs | hs | hs
  · rw [findLockRange, region_before hs]
    rcases lt_trichotomy r.ub e.llStart with h1 | h1 | h1
    · rw [region_before h1]
      rcases lockadd_cases r p with ⟨err, h⟩ | ⟨a, fs, hfree⟩
      · exact ⟨e :: M, { p with uError := some err }, by simp [h], .fail hown hok⟩
      · refine ⟨freshLock r a r.lb r.ub r.locktype :: e :: M, { p with free := fs },
          by simp [lockadd_cons hfree], ?_⟩
        refine Inserted.linkBefore hown hok hlt hs.le hfree (s := e.llStart) (by omega) hne ?_
        rw [leftOf, if_pos rfl, if_pos (.inl h1)]
    · rw [region_start h1]
      exact touch_before hlt hown hok hs h1.ge (by omega) _ p
    · rcases lt_trichotomy r.ub e.llEnd with h2 | h2 | h2
      · rw [region_middle h1 h2]
        exact touch_before hlt hown hok hs h1.le h2 _ p
      · rw [region_atEnd hne h2]
        exact ⟨_, p, by simp, Inserted.retype hown hok hs.le h2 r.lb rfl⟩
      · rw [region_after hne h2]
        have := touch_cover hlt hB hown hok hle h2 (.inr hs.le) r.lb (min_eq_right hs.le).symm
          (before ++ since) p
        exact this
  · rw [findLockRange, region_start hs]
    rcases lt_trichotomy r.ub e.llEnd with h2 | h2 | h2
    · rw [region_middle (by omega) h2]
      by_cases ht : e.llType = r.locktype
      · exact ⟨e :: M, p, by simp [ht], .same hown hok hs.ge h2.le ht⟩
      · obtain ⟨M', p', heq, h⟩ := touch_cut hlt hown hok hs.le h2 ht (before ++ since) p
        refine ⟨M', p', ?_, h.resolve_left (by omega)⟩
        simp only [ne_eq, ht, not_false_eq_true, if_true]
        exact heq
    · rw [region_atEnd hne h2]
      exact ⟨_, p, by simp, Inserted.retype hown hok hs.le h2 e.llStart hs.symm⟩
    · rw [region_after hne h2]
      exact touch_cover hlt hB hown hok hle h2 (.inr hs.le) e.llStart (by omega) (before ++ since) p
  · rcases hle.lt_or_eq with hle' | hle'
    · rw [findLockRange, region_middle hs hle']
      rcases lt_trichotomy r.ub e.llEnd with h2 | h2 | h2
      · rw [region_middle (by omega) h2]
        by_cases ht : e.llType = r.locktype
        · exact ⟨e :: M, p, by simp [ht], .same hown hok hs.le h2.le ht⟩
        · obtain ⟨M', p', heq, h⟩ := touch_middle hlt hown hok hs h2 ht (before ++ since) p
          refine ⟨M', p', ?_, h⟩
          simp only [ne_eq, ht, not_false_eq_true, if_true]
          exact heq
      · rw [region_atEnd hne h2]
        by_cases ht : e.llType = r.locktype
        · exact ⟨e :: M, p, by simp [ht], .same hown hok hs.le h2.le ht⟩
        · rcases lockadd_cases r p with ⟨err, h⟩ | ⟨a, fs, hfree⟩
          · exact ⟨e :: M, { p with uError := some err }, by simp [h, ht], .fail hown hok⟩
          · exact ⟨_, { p with free := fs }, by simp [lockadd_cons hfree, ht],
              Inserted.linkAfter hown hok hlt hs hle h2.ge ht hfree (.inl ⟨rfl, rfl, h2.symm⟩)⟩
      · rw [region_after hne h2]
        exact touch_tail hlt hB hown hok hs hle h2 (before ++ since) p
    · rw [findLockRange, region_atEnd hne hle', region_after hne (by omega)]
      exact touch_tail hlt hB hown hok hs hle (by omega) (before ++ since) p

/-- An own entry that ends before the range is passed. -/
theorem Inserted.cons (hown : e.owner = r.u.owner) (hok : spans.Ok (e :: M))
    (hend : e.llEnd < r.lb) {M' : List Lock} {p' : Pool} (h : Inserted r M M' p p') :
    Inserted r (e :: M) (e :: M') p p' := by
  have hne := hok.head_lt
  have hlow : ∀ f ∈ M', e.llEnd ≤ f.llStart := by
    intro f hf
    rcases h.low f hf with hf | ⟨g, hg, hgf⟩
    · omega
    · exact le_trans (hok.le_of_mem hg) hgf
  refine ⟨?_, Spans.ok_cons.2 ⟨hne, hlow, h.ok⟩, ?_, ?_, ?_, h.edits.cons e, fun hlt => ?_⟩
  · intro f hf
    rcases mem_cons.1 hf with rfl | hf
    · exact hown
    · exact h.own f hf
  · intro f hf
    rcases mem_cons.1 hf with rfl | hf
    · exact .inr ⟨f, by simp, le_rfl⟩
    · exact (h.low f hf).imp id fun ⟨g, hg, hgf⟩ => ⟨g, by simp [hg], hgf⟩
  · refine h.look.imp (And.imp id fun hl b => ?_) (And.imp id fun h => by rw [h])
    simp only [look_cons, hl]
    split_ifs <;> first | rfl | omega
  · intro f hf
    rcases mem_cons.1 hf with rfl | hf
    · exact .inr (.inl (by simp))
    · rcases h.src f hf with hf | hf | ⟨M₁, g, M₂, rfl, hfg⟩
      · exact .inl hf
      · exact .inr (.inl (by simp [hf]))
      · refine .inr (.inr ⟨e :: M₁, g, M₂, rfl, ?_⟩)
        rwa [allBefore, all_cons, decide_eq_true hend, Bool.true_and]
  · rw [entriesNeeded, if_pos hend] at hlt
    rw [h.starved hlt]

theorem insertScan_skip {A : List Lock} (hA : ∀ f ∈ A, f.owner ≠ r.u.owner)
    (before since : List Lock) (found : Bool) (l : List Lock) (p : Pool) :
    insertScan r before since found (A ++ l) p = insertScan r before (since ++ A) found l p := by
  induction A generalizing since with
  | nil => simp
  | cons e A ih =>
    have he : isMyLock r.u e = false := isMyLock_eq_false_iff.2 (hA e (by simp))
    rw [cons_append, insertScan, if_neg (by simp [he]), ih fun f hf => hA f (by simp [hf])]
    simp

/-- The scan over the own entries. -/
theorem insertScan_own (hlt : r.lb < r.ub) (hB : ∀ f ∈ B, f.owner ≠ r.u.owner)
    {M : List Lock} (hown : ∀ f ∈ M, f.owner = r.u.owner) (hok : spans.Ok M)
    (before since : List Lock) (found : Bool) 
    (hend : M = [] → found = true ∧ since = [] ∨ found = false ∧ B = []) (p : Pool) :
    ∃ M' p', insertScan r before since found (M ++ B) p =
      .ok (before ++ since ++ M' ++ B, p') ∧ Inserted r M M' p p' := by
  induction M generalizing before since found with
  | nil =>
    rw [nil_append, ← append_nil B, insertScan_skip hB, insertScan]
    rcases lockadd_cases r p with ⟨err, h⟩ | ⟨a, fs, hfree⟩
    · exact ⟨[], { p with uError := some err }, by simp [h], .fail hown hok⟩
    · refine ⟨[freshLock r a r.lb r.ub r.locktype], { p with free := fs }, ?_, ?_⟩
      · rw [lockadd_cons hfree]
        rcases hend rfl with ⟨rfl, rfl⟩ | ⟨rfl, rfl⟩ <;> simp
      · refine ⟨?_, Spans.ok_cons.2 ⟨hlt, by simp, by simp⟩, ?_, .inl ⟨rfl, fun b => ?_⟩, ?_,
          Edits.link_head hfree r.lb r.ub r.locktype [], fun h => ?_⟩
        · simp [freshLock]
        · simp [freshLock]
        · rw [look_cons]; rfl
        · simp only [mem_singleton, forall_eq]
          exact .inl rfl
        · simp [hfree, entriesNeeded] at h
  | cons e M ih =>
    have he : e.llStart < e.llEnd := hok.head_lt
    by_cases hle : r.lb ≤ e.llEnd
    · exact insertScan_touch hlt hB hown hok hle before since found p
    · have hmy : isMyLock r.u e = true := isMyLock_iff.2 (hown e (by simp))
      obtain ⟨M', p', heq, h⟩ := ih (fun f hf => hown f (by simp [hf])) hok.tail
        (before ++ since ++ [e]) [] true fun _ => .inl ⟨rfl, rfl⟩
      refine ⟨e :: M', p', ?_, h.cons (hown e (by simp)) hok (by omega)⟩
      rw [cons_append, insertScan, if_pos hmy, findLockRange, region_after he (by omega),
        region_after he (by omega)]
      simpa using heq

theorem filter_group {A M B : List Lock} {o : Owner} (hAB : ∀ f ∈ A ++ B, f.owner ≠ o)
    (hM : ∀ f ∈ M, f.owner = o) : (A ++ M ++ B).filter (fun e => e.owner = o) = M := by
  have hnil : ∀ L : List Lock, (∀ f ∈ L, f.owner ≠ o) → L.filter (fun e => e.owner = o) = [] :=
    fun L h => filter_eq_nil_iff.2 fun f hf => by simpa using h f hf
  have hself : M.filter (fun e => e.owner = o) = M :=
    filter_eq_self.2 fun f hf => by simpa using hM f hf
  rw [filter_append, filter_append, hself, hnil A fun f hf => hAB f (by simp [hf]),
    hnil B fun f hf => hAB f (by simp [hf]), nil_append, append_nil]

theorem ListOk.group {l : List Lock} (hok : ListOk l) (o : Owner) :
    spans.Ok (l.filter fun e => e.owner = o) := by
  obtain ⟨A, M, B, rfl, hA, hM, hB, hMok, -, -⟩ := Grouped.split Spans.ok_nil hok o
  rwa [filter_group (fun f hf => (mem_append.1 hf).elim (hA f) (hB f)) hM]

/-- `insert_lock` edits the own entries as `Inserted` says and nothing else. -/
theorem insertLock_spec (hlt : r.lb < r.ub) {l : List Lock} (hok : ListOk l) (p : Pool) :
    ∃ A M M' B p' p'', l = A ++ M ++ B ∧ (∀ f ∈ A ++ B, f.owner ≠ r.u.owner) ∧
      (∀ f ∈ M, f.owner = r.u.owner) ∧ insertLock r l p = .ok (A ++ M' ++ B, p'') ∧
      Inserted r M M' p p' ∧ (p'' = p' ∨ p'' = p'.note .checksync) ∧ ListOk (A ++ M' ++ B) := by
  obtain ⟨A, M, B, rfl, hA, hM, hB, hMok, hend, hrep⟩ := hok.split Spans.ok_nil r.u.owner
  obtain ⟨M', p', heq, h⟩ := insertScan_own hlt hB hM hMok [] A false
    (fun hM => .inr ⟨rfl, hend hM⟩) p
  have hscan : insertScan r [] [] false (A ++ M ++ B) p = .ok (A ++ M' ++ B, p') := by
    rw [append_assoc, insertScan_skip hA, nil_append, heq, nil_append]
  have hAB : ∀ f ∈ A ++ B, f.owner ≠ r.u.owner := by
    intro f hf
    exact (mem_append.1 hf).elim (hA f) (hB f)
  have hok' := hrep M' h.own h.ok
  by_cases hnil : A ++ M ++ B = []
  · -- the empty list: one entry, and the other sites are told
    simp only [append_eq_nil_iff] at hnil
    obtain ⟨⟨rfl, rfl⟩, rfl⟩ := hnil
    simp only [nil_append, append_nil, insertScan] at hscan ⊢
    rcases lockadd_cases r p with ⟨err, hadd⟩ | ⟨a, fs, hfree⟩
    · rw [hadd] at hscan
      obtain ⟨rfl, rfl⟩ := Prod.mk.inj (Except.ok.inj hscan)
      exact ⟨[], [], [], [], _, _, rfl, by simp, by simp, by simp [insertLock, hadd], h, .inl rfl,
        by simpa [ListOk] using hok'⟩
    · rw [lockadd_cons hfree] at hscan
      obtain ⟨rfl, rfl⟩ := Prod.mk.inj (Except.ok.inj hscan)
      refine ⟨[], [], _, [], _, if r.remoteip then { p with free := fs }
        else Pool.note { p with free := fs } .checksync, rfl, by simp, by simp, ?_, h, ?_,
        by simpa [ListOk] using hok'⟩
      · simp only [insertLock, lockadd_cons hfree]
        rfl
      · cases r.remoteip
        · exact .inr rfl
        · exact .inl rfl
  · refine ⟨A, M, M', B, p', p', rfl, hAB, hM, ?_, h, .inl rfl, hok'⟩
    rw [insertLock, hscan]
    exact hnil

end Insert

end Lockf

end Hpux
