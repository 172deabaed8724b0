import Mathlib

/-!
# Lists of half-open ranges

Several kernel tables are lists of ranges `[lo, hi)` that carry a value: the record locks of one
owner, the free segments of a map.  A list of ranges is read as a partial map from positions to
values, and a routine that edits the list is specified by what it does to that map.

* `Spans` says how the entries of a list are read as ranges with values.
* `Spans.look l b` : the value at position `b`.
* `Spans.Ok l` : the ranges are non-empty, disjoint and in increasing order.
* `Spans.cover l` : the positions that some range contains.
* `Grouped key P l` : the entries of each key lie together in `l`, and each such group satisfies
  `P`.  `Grouped.split` cuts `l` at the group of one key and allows the group to be replaced.
-/

namespace Hpux

open List

/-- A reading of entries `ε` as ranges of `α` with values in `ν`. -/
structure Spans (ε α ν : Type*) where
  /-- First position of the range. -/
  lo : ε → α
  /-- First position after the range. -/
  hi : ε → α
  /-- The value on the range. -/
  val : ε → ν

namespace Spans

variable {ε α ν : Type*} [LinearOrder α] (S : Spans ε α ν)

/-- The value at `b` : that of the first range that contains `b`. -/
def look : List ε → α → Option ν
  | [], _ => none
  | e :: l, b => if S.lo e ≤ b ∧ b < S.hi e then some (S.val e) else look l b

/-- The ranges are non-empty and increase without overlap. -/
def Ok (l : List ε) : Prop :=
  (∀ e ∈ l, S.lo e < S.hi e) ∧ l.Pairwise fun e f => S.hi e ≤ S.lo f

variable {S}

@[simp] theorem look_nil (b : α) : S.look [] b = none := rfl

theorem look_cons (e : ε) (l : List ε) (b : α) :
    S.look (e :: l) b = if S.lo e ≤ b ∧ b < S.hi e then some (S.val e) else S.look l b := rfl

theorem look_append (l₁ l₂ : List ε) (b : α) :
    S.look (l₁ ++ l₂) b = (S.look l₁ b).or (S.look l₂ b) := by
  induction l₁ with
  | nil => simp
  | cons e l ih =>
    simp only [cons_append, look_cons]
    split_ifs
    · rfl
    · exact ih

@[simp] theorem ok_nil : S.Ok [] := ⟨by simp, .nil⟩

variable {l : List ε}

theorem ok_cons {e : ε} : S.Ok (e :: l) ↔ S.lo e < S.hi e ∧ (∀ f ∈ l, S.hi e ≤ S.lo f) ∧ S.Ok l := by
  simp only [Ok, mem_cons, forall_eq_or_imp, pairwise_cons]
  tauto

theorem Ok.tail {e : ε} {l : List ε} (h : S.Ok (e :: l)) : S.Ok l := (ok_cons.1 h).2.2

theorem Ok.head_lt {e : ε} (h : S.Ok (e :: l)) : S.lo e < S.hi e := (ok_cons.1 h).1

theorem Ok.le_of_mem {e f : ε} (h : S.Ok (e :: l)) (hf : f ∈ l) : S.hi e ≤ S.lo f :=
  (ok_cons.1 h).2.1 f hf

/-- Nothing is found below the first range. -/
theorem look_eq_none_of_lt {b : α} (h : ∀ e ∈ l, b < S.lo e) : S.look l b = none := by
  induction l with
  | nil => rfl
  | cons e l ih =>
    rw [look_cons, if_neg fun hb => absurd hb.1 (not_le.2 (h e (by simp)))]
    exact ih fun _ hf => h _ (by simp [hf])

/-- Below the end of the first range of an ordered list nothing is found in the rest. -/
theorem Ok.look_tail_eq_none {e : ε} {b : α} (h : S.Ok (e :: l)) (hb : b < S.hi e) :
    S.look l b = none :=
  look_eq_none_of_lt fun _ hf => lt_of_lt_of_le hb (h.le_of_mem hf)

/-- In an ordered list the value at `b` is that of the one range that contains `b`. -/
theorem Ok.look_eq_some_iff (h : S.Ok l) {b : α} {v : ν} :
    S.look l b = some v ↔ ∃ e ∈ l, S.lo e ≤ b ∧ b < S.hi e ∧ S.val e = v := by
  induction l with
  | nil => simp
  | cons e l ih =>
    rw [look_cons]
    split_ifs with hb
    · constructor
      · intro he
        exact ⟨e, by simp, hb.1, hb.2, Option.some.inj he⟩
      · rintro ⟨f, hf, hlo, hhi, rfl⟩
        rcases mem_cons.1 hf with rfl | hf
        · rfl
        · exact absurd hlo (not_le.2 (lt_of_lt_of_le hb.2 (h.le_of_mem hf)))
    · rw [ih h.tail]
      constructor
      · rintro ⟨f, hf, hr⟩
        exact ⟨f, by simp [hf], hr⟩
      · rintro ⟨f, hf, hlo, hhi, hv⟩
        rcases mem_cons.1 hf with rfl | hf
        · exact absurd ⟨hlo, hhi⟩ hb
        · exact ⟨f, hf, hlo, hhi, hv⟩

variable (S) in
/-- The positions that the ranges cover. -/
def cover (l : List ε) : Set α := { x | ∃ e ∈ l, S.lo e ≤ x ∧ x < S.hi e }

theorem mem_cover {x : α} : x ∈ S.cover l ↔ ∃ e ∈ l, S.lo e ≤ x ∧ x < S.hi e := Iff.rfl

theorem mem_cover_cons {e : ε} {x : α} :
    x ∈ S.cover (e :: l) ↔ (S.lo e ≤ x ∧ x < S.hi e) ∨ x ∈ S.cover l := by
  simp [mem_cover]

theorem mem_cover_append {l₁ l₂ : List ε} {x : α} :
    x ∈ S.cover (l₁ ++ l₂) ↔ x ∈ S.cover l₁ ∨ x ∈ S.cover l₂ := by
  simp only [mem_cover, mem_append, or_and_right, exists_or]

end Spans

/-! ### Grouped lists -/

section Grouped

variable {ε κ : Type*} {key : ε → κ} {P : List ε → Prop}

/-- `l` is a row of groups, one for each key that occurs; all entries of a group have its key, and
the group satisfies `P`. -/
def Grouped (key : ε → κ) (P : List ε → Prop) (l : List ε) : Prop :=
  ∃ gs : List (κ × List ε), (gs.map Prod.fst).Nodup ∧
    (∀ g ∈ gs, (∀ e ∈ g.2, key e = g.1) ∧ P g.2) ∧ l = gs.flatMap Prod.snd

theorem grouped_nil : Grouped key P [] := ⟨[], by simp⟩

theorem Grouped.map {l : List ε} (h : Grouped key P l) {f : ε → ε} (hkey : ∀ e, key (f e) = key e)
    (hP : ∀ l, P l → P (l.map f)) : Grouped key P (l.map f) := by
  obtain ⟨gs, hnd, hg, rfl⟩ := h
  refine ⟨gs.map fun g => (g.1, g.2.map f), by simpa [Function.comp_def] using hnd, ?_, ?_⟩
  · intro g' hg'
    obtain ⟨g, hmem, rfl⟩ := mem_map.1 hg'
    obtain ⟨h1, h2⟩ := hg g hmem
    refine ⟨fun e' he' => ?_, hP _ h2⟩
    obtain ⟨e, he, rfl⟩ := mem_map.1 he'
    rw [hkey, h1 e he]
  · rw [map_flatMap, flatMap_map]

/-- Cut a grouped list at the group of the key `k` (which may be missing: then it is empty and
stands at the end).  The group may be replaced by any list of entries of key `k` that satisfies
`P`. -/
theorem Grouped.split (hP : P []) {l : List ε} (h : Grouped key P l) (k : κ) :
    ∃ A M B, l = A ++ M ++ B ∧ (∀ e ∈ A, key e ≠ k) ∧ (∀ e ∈ M, key e = k) ∧
      (∀ e ∈ B, key e ≠ k) ∧ P M ∧ (M = [] → B = []) ∧
      ∀ M', (∀ e ∈ M', key e = k) → P M' → Grouped key P (A ++ M' ++ B) := by
  obtain ⟨gs, hnd, hg, rfl⟩ := h
  by_cases hk : ∃ g ∈ gs, g.1 = k ∧ g.2 ≠ []
  · obtain ⟨⟨k', M⟩, hmem, rfl, hM⟩ := hk
    obtain ⟨g₁, g₂, rfl⟩ := append_of_mem hmem
    simp only [map_append, map_cons, nodup_append, nodup_cons] at hnd
    have hne : ∀ g ∈ g₁ ++ g₂, g.1 ≠ k' := by
      rintro g hg' rfl
      rcases mem_append.1 hg' with hg' | hg'
      · exact hnd.2.2 _ (mem_map_of_mem hg') _ mem_cons_self rfl
      · exact hnd.2.1.1 (mem_map_of_mem hg')
    have hkey : ∀ g ∈ g₁ ++ g₂, ∀ e ∈ g.2, key e ≠ k' := by
      intro g hg' e he
      rw [(hg g (by simp only [mem_append, mem_cons] at hg' ⊢; tauto)).1 e he]
      exact hne g hg'
    refine ⟨g₁.flatMap Prod.snd, M, g₂.flatMap Prod.snd, by simp, ?_, (hg _ hmem).1, ?_,
      (hg _ hmem).2, fun h => absurd h hM, ?_⟩
    · intro e he
      obtain ⟨g, hg', he⟩ := mem_flatMap.1 he
      exact hkey g (by simp [hg']) e he
    · intro e he
      obtain ⟨g, hg', he⟩ := mem_flatMap.1 he
      exact hkey g (by simp [hg']) e he
    · intro M' hM' hP'
      refine ⟨g₁ ++ (k', M') :: g₂, ?_, ?_, by simp⟩
      · simpa only [map_append, map_cons, nodup_append, nodup_cons] using hnd
      · intro g hg'
        rcases mem_append.1 hg' with hg' | hg'
        · exact hg g (by simp [hg'])
        · rcases mem_cons.1 hg' with rfl | hg'
          · exact ⟨hM', hP'⟩
          · exact hg g (by simp [hg'])
  · have hkey : ∀ e ∈ gs.flatMap Prod.snd, key e ≠ k := by
      rintro e he rfl
      obtain ⟨g, hg', he⟩ := mem_flatMap.1 he
      exact hk ⟨g, hg', ((hg g hg').1 e he).symm, ne_nil_of_mem he⟩
    refine ⟨gs.flatMap Prod.snd, [], [], by simp, hkey, by simp, by simp, hP, fun _ => rfl, ?_⟩
    intro M' hM' hP'
    -- empty groups of key `k` are dropped before the new one is added
    classical
    refine ⟨(gs.filter fun g => decide (g.1 ≠ k)) ++ [(k, M')], ?_, ?_, ?_⟩
    · rw [map_append, nodup_append]
      refine ⟨(hnd.sublist (filter_sublist.map _)), by simp, ?_⟩
      intro a ha b hb
      obtain ⟨g, hg', rfl⟩ := mem_map.1 ha
      simp only [map_cons, map_nil, mem_singleton] at hb
      subst hb
      simpa using (mem_filter.1 hg').2
    · intro g hg'
      rcases mem_append.1 hg' with hg' | hg'
      · exact hg g (mem_filter.1 hg').1
      · rw [mem_singleton] at hg'
        subst hg'
        exact ⟨hM', hP'⟩
    · rw [flatMap_append]
      simp only [flatMap_cons, flatMap_nil, append_nil]
      congr 1
      clear hnd hkey
      induction gs with
      | nil => rfl
      | cons g gs ih =>
        have hrec := ih (fun g hg' => hg g (by simp [hg']))
          fun ⟨g, hg', hr⟩ => hk ⟨g, by simp [hg'], hr⟩
        by_cases hgk : g.1 = k
        · have : g.2 = [] := by
            by_contra hne
            exact hk ⟨g, by simp, hgk, hne⟩
          simp [hgk, this, hrec]
        · simp [hgk, hrec]

end Grouped

end Hpux
