import Mathlib

/-!
# Lists of segments without overlap

Segments of a stream are kept in order.  A new one is trimmed against the segment before it, and the
segments after it are trimmed against the new one, or taken out when it covers them.

* `Segs` : what a segment is: where it begins and ends, and how its front is cut off.
* `Segs.place` : the segments before and after a new one.
* `Segs.trimFront`, `Segs.trimSucc`, `Segs.insert` : the insertion.
* `Segs.Sorted`, `Segs.Sorted.insert` : the list stays in order.
* `Segs.Covers`, `Segs.Sorted.covers_insert` : exactly the bytes of the new segment are covered as well.
* `Segs.Tiles`, `Segs.Sorted.tiles` : segments in order that cover an interval follow on one another.
-/

namespace Hpux

open List

/-- Segments: where one begins and ends, and the part of it from a point on. -/
structure Segs (ε : Type*) where
  lo : ε → ℤ
  hi : ε → ℤ
  cut : ε → ℤ → ε
  lo_cut : ∀ e x, lo (cut e x) = x
  hi_cut : ∀ e x, x ≤ hi e → hi (cut e x) = hi e

namespace Segs

variable {ε : Type*} (S : Segs ε) {e f p : ε} {l before after : List ε} {x : ℤ}

/-- In order, without overlap. -/
def Sorted (l : List ε) : Prop :=
  (∀ e ∈ l, S.lo e ≤ S.hi e) ∧ l.Pairwise fun e f => S.hi e ≤ S.lo f

/-- A point lies in one of the segments. -/
def Covers (l : List ε) (x : ℤ) : Prop := ∃ e ∈ l, S.lo e ≤ x ∧ x < S.hi e

/-- The segments that do not begin after the new one, and the others. -/
def place (e : ε) (l : List ε) : List ε × List ε :=
  (l.takeWhile (fun q => S.lo q ≤ S.lo e), l.dropWhile (fun q => S.lo q ≤ S.lo e))

/-- The new segment without what the one before it has; `none` when nothing is left. -/
def trimFront (p : Option ε) (e : ε) : Option ε :=
  match p with
  | none => some e
  | some p =>
    if S.lo e < S.hi p then if S.hi e ≤ S.hi p then none else some (S.cut e (S.hi p)) else some e

/-- The segments after the new one without what it has. -/
def trimSucc (e : ε) : List ε → List ε
  | [] => []
  | q :: qs =>
    if S.lo q < S.hi e then
      if S.hi e < S.hi q then S.cut q (S.hi e) :: qs else trimSucc e qs
    else q :: qs

/-- The insertion; `none` when the segment before the new one covers it. -/
def insert (e : ε) (l : List ε) : Option (List ε) :=
  (S.trimFront (S.place e l).1.getLast? e).map fun e' =>
    (S.place e l).1 ++ e' :: S.trimSucc e' (S.place e l).2

variable {S}

theorem Sorted.nil : S.Sorted [] := ⟨nofun, .nil⟩

theorem sorted_cons : S.Sorted (e :: l) ↔
    S.lo e ≤ S.hi e ∧ (∀ f ∈ l, S.hi e ≤ S.lo f) ∧ S.Sorted l := by
  unfold Sorted
  rw [forall_mem_cons, pairwise_cons]
  tauto

theorem sorted_append : S.Sorted (before ++ after) ↔
    S.Sorted before ∧ S.Sorted after ∧ ∀ e ∈ before, ∀ f ∈ after, S.hi e ≤ S.lo f := by
  unfold Sorted
  rw [pairwise_append]
  constructor
  · rintro ⟨h1, h2, h3, h4⟩
    exact ⟨⟨fun e he => h1 e (mem_append_left _ he), h2⟩,
      ⟨fun e he => h1 e (mem_append_right _ he), h3⟩, h4⟩
  · rintro ⟨⟨h1, h2⟩, ⟨h3, h4⟩, h5⟩
    exact ⟨fun e he => (mem_append.1 he).elim (h1 e) (h3 e), h2, h4, h5⟩

theorem covers_cons : S.Covers (e :: l) x ↔ (S.lo e ≤ x ∧ x < S.hi e) ∨ S.Covers l x := by
  simp [Covers]

theorem covers_append {m m' : List ε} : S.Covers (m ++ m') x ↔ S.Covers m x ∨ S.Covers m' x := by
  simp [Covers, or_and_right, exists_or]

theorem place_append (e : ε) (l : List ε) : (S.place e l).1 ++ (S.place e l).2 = l :=
  takeWhile_append_dropWhile

theorem lo_le_of_mem_place (h : f ∈ (S.place e l).1) : S.lo f ≤ S.lo e := by
  have h1 := mem_takeWhile_imp h
  simpa using h1

/-- What comes after the place begins after the new segment. -/
theorem Sorted.lt_of_mem_place (h : S.Sorted l) (hf : f ∈ (S.place e l).2) : S.lo e < S.lo f := by
  have h2 : S.Sorted (S.place e l).2 := by
    rw [← place_append (S := S) e l] at h
    exact (sorted_append.1 h).2.1
  cases hd : (S.place e l).2 with
  | nil =>
    rw [hd] at hf
    cases hf
  | cons g m =>
    have hg : S.lo e < S.lo g := by
      have h3 := head?_dropWhile_not (fun q => decide (S.lo q ≤ S.lo e)) l
      have h4 : (l.dropWhile (fun q => decide (S.lo q ≤ S.lo e))).head? = some g := by
        show (S.place e l).2.head? = some g
        rw [hd]
        rfl
      rw [h4] at h3
      simpa using h3
    rw [hd] at hf h2
    obtain ⟨h5, h6, -⟩ := sorted_cons.1 h2
    rcases mem_cons.1 hf with rfl | hf
    · exact hg
    · have h7 := h6 f hf
      omega

/-- The last segment of the first part ends last. -/
theorem Sorted.hi_le_last (h : S.Sorted l) (hp : l.getLast? = some p) (hf : f ∈ l) :
    S.hi f ≤ S.hi p := by
  obtain ⟨m, rfl⟩ := getLast?_eq_some_iff.1 hp
  obtain ⟨-, h2, h3⟩ := sorted_append.1 h
  rcases mem_append.1 hf with hf | hf
  · have h4 := h3 f hf p (mem_singleton_self p)
    have h5 := h2.1 p (mem_singleton_self p)
    omega
  · rw [mem_singleton.1 hf]

/-! ### The new segment -/

/-- What is left of the new segment. -/
theorem trimFront_spec {e' : ε} (h : S.Sorted before) (hlo : ∀ f ∈ before, S.lo f ≤ S.lo e)
    (hwf : S.lo e ≤ S.hi e) (he : S.trimFront before.getLast? e = some e') :
    S.lo e ≤ S.lo e' ∧ S.lo e' ≤ S.hi e' ∧ S.hi e' = S.hi e ∧ (∀ f ∈ before, S.hi f ≤ S.lo e') ∧
      (∀ x, S.lo e ≤ x → x < S.lo e' → S.Covers before x) ∧ (e' = e ∨ e' = S.cut e (S.lo e')) := by
  cases hp : before.getLast? with
  | none =>
    rw [hp] at he
    obtain rfl := Option.some.inj he
    obtain rfl := getLast?_eq_none_iff.1 hp
    exact ⟨le_refl _, hwf, rfl, nofun, fun x h1 h2 => by omega, .inl rfl⟩
  | some p =>
    rw [hp] at he
    unfold trimFront at he
    dsimp only at he
    split_ifs at he with h1 h2
    · obtain rfl := Option.some.inj he
      rw [S.lo_cut, S.hi_cut e _ (by omega)]
      refine ⟨by omega, by omega, rfl, fun f hf => h.hi_le_last hp hf, fun x h3 h4 => ?_, .inr rfl⟩
      have hpm := mem_of_getLast? hp
      exact ⟨p, hpm, (hlo p hpm).trans h3, h4⟩
    · obtain rfl := Option.some.inj he
      refine ⟨le_refl _, hwf, rfl, fun f hf => ?_, fun x h3 h4 => by omega, .inl rfl⟩
      have h3 := h.hi_le_last hp hf
      omega

/-- A new segment that is dropped is covered. -/
theorem trimFront_none (h : S.trimFront before.getLast? e = none) :
    ∃ p ∈ before, S.lo e < S.hi p ∧ S.hi e ≤ S.hi p := by
  cases hp : before.getLast? with
  | none =>
    rw [hp] at h
    cases h
  | some p =>
    rw [hp] at h
    unfold trimFront at h
    dsimp only at h
    split_ifs at h with h1 h2
    exact ⟨p, mem_of_getLast? hp, h1, h2⟩

/-! ### The segments after it -/

theorem mem_trimSucc (h : f ∈ S.trimSucc e l) :
    f ∈ l ∨ ∃ q ∈ l, S.lo q < S.hi e ∧ S.hi e < S.hi q ∧ f = S.cut q (S.hi e) := by
  induction l with
  | nil => cases h
  | cons q qs ih =>
    unfold trimSucc at h
    split_ifs at h with h1 h2
    · rcases mem_cons.1 h with rfl | h
      · exact .inr ⟨q, mem_cons_self, h1, h2, rfl⟩
      · exact .inl (mem_cons_of_mem q h)
    · rcases ih h with h3 | ⟨r, hr, h3⟩
      · exact .inl (mem_cons_of_mem q h3)
      · exact .inr ⟨r, mem_cons_of_mem q hr, h3⟩
    · exact .inl h

theorem Sorted.trimSucc (h : S.Sorted l) :
    S.Sorted (S.trimSucc e l) ∧ ∀ f ∈ S.trimSucc e l, S.hi e ≤ S.lo f := by
  induction l with
  | nil => exact ⟨Sorted.nil, nofun⟩
  | cons q qs ih =>
    obtain ⟨h1, h2, h3⟩ := sorted_cons.1 h
    unfold Segs.trimSucc
    split_ifs with h4 h5
    · refine ⟨sorted_cons.2 ⟨?_, ?_, h3⟩, forall_mem_cons.2 ⟨?_, fun f hf => ?_⟩⟩
      · rw [S.lo_cut, S.hi_cut q _ (by omega)]
        omega
      · rw [S.hi_cut q _ (by omega)]
        exact h2
      · rw [S.lo_cut]
      · have h6 := h2 f hf
        omega
    · exact ih h3
    · refine ⟨h, forall_mem_cons.2 ⟨by omega, fun f hf => ?_⟩⟩
      have h6 := h2 f hf
      omega

/-- The points that the segments cover, but for those of the new one. -/
theorem Sorted.covers_trimSucc (h : S.Sorted l) (x : ℤ) :
    S.Covers (S.trimSucc e l) x ↔ S.Covers l x ∧ S.hi e ≤ x := by
  induction l with
  | nil => simp [Segs.trimSucc, Covers]
  | cons q qs ih =>
    obtain ⟨h1, h2, h3⟩ := sorted_cons.1 h
    have hafter : S.Covers qs x → S.hi q ≤ x := by
      rintro ⟨f, hf, h6, -⟩
      exact (h2 f hf).trans h6
    unfold Segs.trimSucc
    split_ifs with h4 h5
    · rw [covers_cons, covers_cons, S.lo_cut, S.hi_cut q _ (by omega)]
      constructor
      · rintro (h6 | h6)
        · exact ⟨.inl ⟨by omega, h6.2⟩, h6.1⟩
        · have h7 := hafter h6
          exact ⟨.inr h6, by omega⟩
      · rintro ⟨h6 | h6, h7⟩
        · exact .inl ⟨h7, h6.2⟩
        · exact .inr h6
    · rw [ih h3, covers_cons]
      constructor
      · rintro ⟨h6, h7⟩
        exact ⟨.inr h6, h7⟩
      · rintro ⟨h6 | h6, h7⟩
        · omega
        · exact ⟨h6, h7⟩
    · rw [covers_cons]
      constructor
      · rintro (h6 | h6)
        · exact ⟨.inl h6, by omega⟩
        · have h7 := hafter h6
          exact ⟨.inr h6, by omega⟩
      · exact fun h6 => h6.1

/-! ### The insertion -/

/-- The list after an insertion stays in order. -/
theorem Sorted.insert {l' : List ε} (h : S.Sorted l) (hwf : S.lo e ≤ S.hi e)
    (hi : S.insert e l = some l') : S.Sorted l' := by
  obtain ⟨e', he', rfl⟩ := Option.map_eq_some_iff.1 hi
  have hl := h
  rw [← place_append (S := S) e l] at hl
  obtain ⟨h1, h2, h3⟩ := sorted_append.1 hl
  obtain ⟨h4, h5, h6, h7, -, -⟩ :=
    trimFront_spec h1 (fun f hf => lo_le_of_mem_place hf) hwf he'
  obtain ⟨h8, h9⟩ := h2.trimSucc (e := e')
  refine sorted_append.2 ⟨h1, sorted_cons.2 ⟨h5, h9, h8⟩, fun f hf g hg => ?_⟩
  have h10 := h7 f hf
  rcases mem_cons.1 hg with rfl | hg
  · exact h10
  · have h11 := h9 g hg
    omega

/-- The segments after an insertion: those before it, the new one or what is left of it, and what is
left of a later one. -/
theorem Sorted.mem_insert {l' : List ε} (h : S.Sorted l) (hwf : S.lo e ≤ S.hi e)
    (hi : S.insert e l = some l') (hf : f ∈ l') : f ∈ l ∨ f = e ∨
      (∃ p ∈ l, S.lo p ≤ S.lo e ∧ S.lo e < S.hi p ∧ S.hi p < S.hi e ∧ f = S.cut e (S.hi p)) ∨
      ∃ q ∈ l, S.lo e < S.lo q ∧ S.lo q < S.hi e ∧ S.hi e < S.hi q ∧ f = S.cut q (S.hi e) := by
  obtain ⟨e', he', rfl⟩ := Option.map_eq_some_iff.1 hi
  have hl := h
  rw [← place_append (S := S) e l] at hl
  obtain ⟨h1, -, -⟩ := sorted_append.1 hl
  obtain ⟨-, -, h6, -, -, -⟩ := trimFront_spec h1 (fun f hf => lo_le_of_mem_place hf) hwf he'
  have hsub : ∀ g, g ∈ (S.place e l).1 ∨ g ∈ (S.place e l).2 → g ∈ l := fun g hg => by
    rw [← place_append (S := S) e l]
    exact mem_append.2 hg
  rcases mem_append.1 hf with hf | hf
  · exact .inl (hsub f (.inl hf))
  rcases mem_cons.1 hf with rfl | hf
  · cases hp : (S.place e l).1.getLast? with
    | none =>
      rw [hp] at he'
      exact .inr (.inl (Option.some.inj he').symm)
    | some p =>
      rw [hp] at he'
      have hpm := mem_of_getLast? hp
      unfold trimFront at he'
      dsimp only at he'
      split_ifs at he' with h7 h8
      · exact .inr (.inr (.inl ⟨p, hsub p (.inl hpm), lo_le_of_mem_place hpm, h7, by omega,
          (Option.some.inj he').symm⟩))
      · exact .inr (.inl (Option.some.inj he').symm)
  · rcases mem_trimSucc hf with hf | ⟨q, hq, h7, h8, rfl⟩
    · exact .inl (hsub f (.inr hf))
    · rw [h6] at h7 h8 ⊢
      exact .inr (.inr (.inr ⟨q, hsub q (.inr hq), h.lt_of_mem_place hq, h7, h8, rfl⟩))

/-- A new segment that is not inserted is covered. -/
theorem covers_of_insert_none (hi : S.insert e l = none) (h1 : S.lo e ≤ x) (h2 : x < S.hi e) :
    S.Covers l x := by
  obtain ⟨p, hp, -, h3⟩ := trimFront_none (Option.map_eq_none_iff.1 hi)
  have h4 := lo_le_of_mem_place hp
  refine ⟨p, ?_, h4.trans h1, by omega⟩
  rw [← place_append (S := S) e l]
  exact mem_append_left _ hp

/-- A list after an insertion covers what it did before and the new segment. -/
theorem Sorted.covers_insert {l' : List ε} (h : S.Sorted l) (hwf : S.lo e ≤ S.hi e)
    (hi : S.insert e l = some l') (x : ℤ) : S.Covers l' x ↔ S.Covers l x ∨ S.lo e ≤ x ∧ x < S.hi e := by
  obtain ⟨e', he', rfl⟩ := Option.map_eq_some_iff.1 hi
  have hl := h
  rw [← place_append (S := S) e l] at hl
  obtain ⟨h1, h2, h3⟩ := sorted_append.1 hl
  obtain ⟨h4, h5, h6, h7, h8, -⟩ :=
    trimFront_spec h1 (fun f hf => lo_le_of_mem_place hf) hwf he'
  have h9 : S.Covers l x ↔ S.Covers (S.place e l).1 x ∨ S.Covers (S.place e l).2 x := by
    rw [← covers_append, place_append]
  rw [covers_append, covers_cons, h2.covers_trimSucc, h9]
  constructor
  · rintro (h11 | h11 | h11)
    · exact .inl (.inl h11)
    · exact .inr ⟨by omega, by omega⟩
    · exact .inl (.inr h11.1)
  · have hnew : S.lo e ≤ x → x < S.hi e → S.Covers (S.place e l).1 x ∨
        (S.lo e' ≤ x ∧ x < S.hi e') ∨ S.Covers (S.place e l).2 x ∧ S.hi e' ≤ x := by
      intro h11 h12
      rcases lt_or_ge x (S.lo e') with h13 | h13
      · exact .inl (h8 x h11 h13)
      · exact .inr (.inl ⟨h13, by omega⟩)
    rintro ((h11 | h11) | h11)
    · exact .inl h11
    · rcases lt_or_ge x (S.hi e') with h12 | h12
      · -- the point was taken from a later segment, which begins after the new one
        obtain ⟨f, hf, h13, -⟩ := h11
        have h14 := h.lt_of_mem_place hf
        exact hnew (by omega) (by omega)
      · exact .inr (.inr ⟨h11, h12⟩)
    · exact hnew h11.1 h11.2

/-! ### Segments that follow on one another -/

variable (S) in
/-- Each segment begins where the one before it ends: from the first point to the last. -/
def Tiles : ℤ → List ε → ℤ → Prop
  | x, [], y => x = y
  | x, e :: l, y => S.lo e = x ∧ Tiles (S.hi e) l y

theorem Tiles.covers {y : ℤ} (h : S.Tiles x l y) {z : ℤ} (h1 : x ≤ z) (h2 : z < y) : S.Covers l z := by
  induction l generalizing x with
  | nil =>
    have h3 : x = y := h
    omega
  | cons e l ih =>
    obtain ⟨h3, h4⟩ := h
    rw [covers_cons]
    rcases lt_or_ge z (S.hi e) with h5 | h5
    · exact .inl ⟨by omega, h5⟩
    · exact .inr (ih h4 h5)

theorem Tiles.hi_last {y : ℤ} (h : S.Tiles x l y) (hl : l.getLast? = some p) : S.hi p = y := by
  induction l generalizing x with
  | nil => cases hl
  | cons e l ih =>
    obtain ⟨-, h2⟩ := h
    cases l with
    | nil =>
      obtain rfl := Option.some.inj hl
      exact h2
    | cons f l => exact ih h2 (by rwa [getLast?_cons_cons] at hl)

/-- Segments in order that cover an interval and lie in it follow on one another. -/
theorem Sorted.tiles {y : ℤ} (h : S.Sorted l) (hin : ∀ e ∈ l, x ≤ S.lo e ∧ S.hi e ≤ y)
    (hcov : ∀ z, x ≤ z → z < y → S.Covers l z) (hxy : x ≤ y) : S.Tiles x l y := by
  induction l generalizing x with
  | nil =>
    by_contra h1
    have h2 : x ≠ y := h1
    obtain ⟨e, he, -⟩ := hcov x (le_refl x) (by omega)
    cases he
  | cons e l ih =>
    obtain ⟨h1, h2, h3⟩ := sorted_cons.1 h
    obtain ⟨h4, h5⟩ := hin e mem_cons_self
    refine ⟨?_, ih h3 (fun f hf => ⟨h2 f hf, (hin f (mem_cons_of_mem e hf)).2⟩) ?_ h5⟩
    · by_contra h6
      rcases covers_cons.1 (hcov x (le_refl x) (by omega)) with h7 | ⟨f, hf, h7, -⟩
      · omega
      · have h8 := h2 f hf
        omega
    · intro z h6 h7
      rcases covers_cons.1 (hcov z (by omega) h7) with h8 | h8
      · omega
      · exact h8

end Segs

end Hpux
