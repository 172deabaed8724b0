import Mathlib

/-!
# The search through the cylinder groups

`hashalloc` of `ufs/ufs_alloc.c` asks an allocator for one cylinder group after another: the preferred one, those of
a quadratic rehash, and all others by brute force.

* `Allocator`, `Probe` : what asks for space in a group, and a question with its answer.
* `rehash`, `brute`, `hashalloc` : the code.
* `mem_brute`, `lt_of_mem_rehash` : the groups that are asked.
* `Searched` : the search asks groups that exist, and gives up only after all of them have refused.
* `hashalloc_searched`, `hashalloc_eq_zero_iff` : it does.
-/

namespace Hpux

namespace UfsAlloc

open List

variable {σ : Type}

/-- An allocator is asked for space in a cylinder group with a preference: it gives an address, or 0, or it panics.
`σ` is what it changes. -/
abbrev Allocator (σ : Type) := σ → ℕ → ℕ → Option (ℕ × σ)

/-- A question to an allocator, with the answer. -/
structure Probe where
  cg : ℕ
  pref : ℕ
  answer : ℕ

/-- The groups of the quadratic rehash, `for (i = 1; i < fs->fs_ncg; i *= 2)`. -/
def rehash (ncg : ℕ) : (turns i cg : ℕ) → List ℕ
  | 0, _, _ => []
  | turns + 1, i, cg =>
    if i < ncg then
      let cg := cg + i
      let cg := if ncg ≤ cg then cg - ncg else cg
      cg :: rehash ncg turns (i * 2) cg
    else []

/-- The groups of the brute force search, `for (i = 2; i < fs->fs_ncg; i++)`. -/
def brute (ncg : ℕ) : (turns cg : ℕ) → List ℕ
  | 0, _ => []
  | turns + 1, cg => cg :: brute ncg turns (if cg + 1 = ncg then 0 else cg + 1)

/-- The allocator is asked for one group after another, until it gives something. -/
def ask (allocator : Allocator σ) : List (ℕ × ℕ) → σ → Option (ℕ × σ × List Probe)
  | [], s => some (0, s, [])
  | (cg, pref) :: rest, s =>
    match allocator s cg pref with
    | none => none
    | some (result, s') =>
      if result ≠ 0 then some (result, s', [⟨cg, pref, result⟩])
      else (ask allocator rest s').map fun x => (x.1, x.2.1, ⟨cg, pref, 0⟩ :: x.2.2)

/-- The groups in the order in which they are asked, with the preference. -/
def cgs (ncg icg pref : ℕ) : List (ℕ × ℕ) :=
  (icg, pref) :: (rehash ncg ncg 1 icg ++ brute ncg (ncg - 2) ((icg + 2) % ncg)).map fun cg => (cg, 0)

/-- `hashalloc`, with the questions it asks. -/
def hashalloc (allocator : Allocator σ) (ncg icg pref : ℕ) (s : σ) : Option (ℕ × σ × List Probe) :=
  ask allocator (cgs ncg icg pref) s

/-- What a search should do: it asks groups that exist; when it gives up it has asked all of them; and it gives up
exactly if each group has been asked and has refused. -/
structure Searched (ncg result : ℕ) (probes : List Probe) : Prop where
  inRange : ∀ p ∈ probes, p.cg < ncg
  complete : result = 0 → ∀ cg < ncg, ∃ p ∈ probes, p.cg = cg
  refused : result = 0 ↔ ∀ cg < ncg, (∃ p ∈ probes, p.cg = cg) ∧ ∀ p ∈ probes, p.cg = cg → p.answer = 0

/-! ### The groups that are asked -/

/-- More turns than groups change nothing: the step has left the loop. -/
theorem rehash_add (ncg : ℕ) : ∀ (turns n i cg : ℕ), 0 < i → ncg ≤ i + turns →
    rehash ncg (turns + n) i cg = rehash ncg turns i cg
  | 0, n, i, cg, _, h => by
    have hout : ¬ i < ncg := by omega
    cases n with
    | zero => rfl
    | succ n => simp [rehash, hout]
  | turns + 1, n, i, cg, hi, h => by
    rw [show turns + 1 + n = turns + n + 1 by omega, rehash, rehash]
    split_ifs
    · dsimp only
      rw [rehash_add ncg turns n (i * 2) _ (by omega) (by omega)]
    · rfl

theorem lt_of_mem_rehash {ncg : ℕ} : ∀ {turns i cg g : ℕ}, cg < ncg → g ∈ rehash ncg turns i cg → g < ncg
  | 0, _, _, _, _, h => absurd h not_mem_nil
  | turns + 1, i, cg, g, hcg, h => by
    rw [rehash] at h
    split_ifs at h with hi
    · have hnext : (if ncg ≤ cg + i then cg + i - ncg else cg + i) < ncg := by
        split_ifs <;> omega
      rcases mem_cons.1 h with rfl | h
      · exact hnext
      · exact lt_of_mem_rehash hnext h
    · exact absurd h not_mem_nil

theorem next_mem_rehash {ncg icg : ℕ} (h : 1 < ncg) (hicg : icg < ncg) : (icg + 1) % ncg ∈ rehash ncg ncg 1 icg := by
  obtain ⟨n, rfl⟩ : ∃ n, ncg = n + 1 := ⟨ncg - 1, by omega⟩
  rw [rehash, if_pos h]
  refine mem_cons.2 (.inl ?_)
  split_ifs with hle
  · obtain rfl : icg = n := by omega
    rw [Nat.mod_self, Nat.sub_self]
  · exact Nat.mod_eq_of_lt (by omega)

/-- The brute force search goes round from its first group. -/
theorem mem_brute {ncg : ℕ} : ∀ {turns cg g : ℕ}, cg < ncg →
    (g ∈ brute ncg turns cg ↔ ∃ k < turns, g = (cg + k) % ncg)
  | 0, _, _, _ => by simp [brute]
  | turns + 1, cg, g, hcg => by
    have hnext : (if cg + 1 = ncg then 0 else cg + 1) = (cg + 1) % ncg := by
      split_ifs with heq
      · rw [heq, Nat.mod_self]
      · rw [Nat.mod_eq_of_lt (by omega)]
    rw [brute, hnext, mem_cons, mem_brute (Nat.mod_lt _ (by omega))]
    constructor
    · rintro (rfl | ⟨k, hk, rfl⟩)
      · exact ⟨0, by omega, (Nat.mod_eq_of_lt hcg).symm⟩
      · refine ⟨k + 1, by omega, ?_⟩
        rw [Nat.mod_add_mod, show cg + 1 + k = cg + (k + 1) by omega]
    · rintro ⟨k, hk, rfl⟩
      cases k with
      | zero => exact .inl (Nat.mod_eq_of_lt hcg)
      | succ k =>
        refine .inr ⟨k, by omega, ?_⟩
        rw [Nat.mod_add_mod, show cg + 1 + k = cg + (k + 1) by omega]

variable {ncg icg pref : ℕ}

theorem lt_of_mem_cgs (hicg : icg < ncg) {x : ℕ × ℕ} (hx : x ∈ cgs ncg icg pref) : x.1 < ncg := by
  rcases mem_cons.1 hx with rfl | hx
  · exact hicg
  · obtain ⟨g, hg, rfl⟩ := mem_map.1 hx
    rcases mem_append.1 hg with hg | hg
    · exact lt_of_mem_rehash hicg hg
    · obtain ⟨k, -, rfl⟩ := (mem_brute (Nat.mod_lt _ (by omega))).1 hg
      exact Nat.mod_lt _ (by omega)

/-- Every group is asked: the brute force search leaves out the preferred group and the one behind it. -/
theorem mem_cgs {ncg icg pref g : ℕ} (hicg : icg < ncg) (hg : g < ncg) : ∃ x ∈ cgs ncg icg pref, x.1 = g := by
  obtain ⟨k, hk, rfl⟩ : ∃ k < ncg, g = (icg + k) % ncg := by
    rcases Nat.lt_or_ge g icg with hlt | hge
    · refine ⟨g + ncg - icg, by omega, ?_⟩
      rw [show icg + (g + ncg - icg) = g + ncg by omega, Nat.add_mod_right, Nat.mod_eq_of_lt hg]
    · exact ⟨g - icg, by omega, by rw [Nat.add_sub_cancel' hge, Nat.mod_eq_of_lt hg]⟩
  match k, hk with
  | 0, _ => exact ⟨_, mem_cons_self, (Nat.mod_eq_of_lt hicg).symm⟩
  | 1, hk =>
    refine ⟨((icg + 1) % ncg, 0), mem_cons_of_mem _ (mem_map.2 ⟨_, ?_, rfl⟩), rfl⟩
    exact mem_append_left _ (next_mem_rehash hk hicg)
  | k + 2, hk =>
    refine ⟨((icg + (k + 2)) % ncg, 0), mem_cons_of_mem _ (mem_map.2 ⟨_, ?_, rfl⟩), rfl⟩
    refine mem_append_right _ ((mem_brute (Nat.mod_lt _ (by omega))).2 ⟨k, by omega, ?_⟩)
    rw [Nat.mod_add_mod, show icg + 2 + k = icg + (k + 2) by omega]

/-! ### The answers -/

/-- The questions are those of the list, all of them if the allocator refuses each time. -/
theorem ask_spec (allocator : Allocator σ) : ∀ {l : List (ℕ × ℕ)} {s s' : σ} {r : ℕ} {probes : List Probe},
    ask allocator l s = some (r, s', probes) →
    (∀ p ∈ probes, (p.cg, p.pref) ∈ l) ∧ (r = 0 ↔ ∀ p ∈ probes, p.answer = 0) ∧
      (r = 0 → ∀ x ∈ l, ∃ p ∈ probes, (p.cg, p.pref) = x)
  | [], s, s', r, probes, h => by
    obtain ⟨rfl, -, rfl⟩ : 0 = r ∧ s = s' ∧ [] = probes := by simpa [ask] using h
    exact ⟨nofun, ⟨fun _ => nofun, fun _ => rfl⟩, fun _ => nofun⟩
  | (cg, pref) :: rest, s, s', r, probes, h => by
    rw [ask] at h
    cases ha : allocator s cg pref with
    | none => simp [ha] at h
    | some x =>
      obtain ⟨result, s₁⟩ := x
      rw [ha] at h
      dsimp only at h
      split_ifs at h with hr
      · obtain ⟨rfl, -, rfl⟩ : result = r ∧ s₁ = s' ∧ [⟨cg, pref, result⟩] = probes := by simpa using h
        refine ⟨fun p hp => ?_, ⟨fun h0 => absurd h0 hr, fun hall => ?_⟩, fun h0 => absurd h0 hr⟩
        · rw [mem_singleton.1 hp]
          exact mem_cons_self
        · exact absurd (hall _ mem_cons_self) hr
      · obtain ⟨⟨r', s₂, probes'⟩, hy, heq⟩ := Option.map_eq_some_iff.1 h
        obtain ⟨rfl, -, rfl⟩ : r' = r ∧ s₂ = s' ∧ ⟨cg, pref, 0⟩ :: probes' = probes := by simpa using heq
        obtain ⟨hin, hzero, hall⟩ := ask_spec allocator hy
        refine ⟨fun p hp => ?_, ?_, fun h0 x hx => ?_⟩
        · rcases mem_cons.1 hp with rfl | hp
          · exact mem_cons_self
          · exact mem_cons_of_mem _ (hin p hp)
        · rw [hzero, forall_mem_cons]
          exact (and_iff_right rfl).symm
        · rcases mem_cons.1 hx with rfl | hx
          · exact ⟨_, mem_cons_self, rfl⟩
          · obtain ⟨p, hp, hpx⟩ := hall h0 x hx
            exact ⟨p, mem_cons_of_mem _ hp, hpx⟩

/-- `hashalloc` asks every group before it gives up, whatever the allocator does. -/
theorem hashalloc_searched (allocator : Allocator σ) {s s' : σ} {r : ℕ} {probes : List Probe}
    (hicg : icg < ncg) (h : hashalloc allocator ncg icg pref s = some (r, s', probes)) : Searched ncg r probes := by
  obtain ⟨hin, hzero, hall⟩ := ask_spec allocator h
  have hcomplete : r = 0 → ∀ cg < ncg, ∃ p ∈ probes, p.cg = cg := by
    intro h0 cg hcg
    obtain ⟨x, hx, rfl⟩ := @mem_cgs _ _ pref _ hicg hcg
    obtain ⟨p, hp, rfl⟩ := hall h0 x hx
    exact ⟨p, hp, rfl⟩
  have hrange : ∀ p ∈ probes, p.cg < ncg := fun p hp => lt_of_mem_cgs hicg (hin p hp)
  refine ⟨hrange, hcomplete, fun h0 cg hcg => ⟨hcomplete h0 cg hcg, fun p hp _ => hzero.1 h0 p hp⟩, fun href => ?_⟩
  exact hzero.2 fun p hp => (href p.cg (hrange p hp)).2 p hp rfl

/-- An allocator that does not panic gets to an answer. -/
theorem ask_isSome (allocator : Allocator σ) (ha : ∀ s cg pref, allocator s cg pref ≠ none) :
    ∀ (l : List (ℕ × ℕ)) (s : σ), ask allocator l s ≠ none
  | [], _ => nofun
  | (cg, pref) :: rest, s => by
    rw [ask]
    cases h : allocator s cg pref with
    | none => exact absurd h (ha s cg pref)
    | some x =>
      dsimp only
      split_ifs
      · nofun
      · rw [ne_eq, Option.map_eq_none_iff]
        exact ask_isSome allocator ha rest x.2

/-- An allocator that refuses certain groups, in all states that it keeps while it refuses: the search gives up
exactly if it refuses all. -/
theorem ask_eq_zero_iff (allocator : Allocator σ) {I : σ → Prop} {refuses : ℕ → Prop} {l : List (ℕ × ℕ)}
    (ha : ∀ s, I s → ∀ x ∈ l, ∀ r s', allocator s x.1 x.2 = some (r, s') →
      (r = 0 ↔ refuses x.1) ∧ (r = 0 → I s')) : ∀ {s : σ}, I s → ∀ {r s' probes},
    ask allocator l s = some (r, s', probes) → (r = 0 ↔ ∀ x ∈ l, refuses x.1) := by
  induction l with
  | nil =>
    intro s _ r s' probes h
    obtain ⟨rfl, -⟩ : 0 = r ∧ s = s' ∧ [] = probes := by simpa [ask] using h
    exact ⟨fun _ => nofun, fun _ => rfl⟩
  | cons x rest ih =>
    intro s hs r s' probes h
    obtain ⟨cg, p⟩ := x
    rw [ask] at h
    cases hx : allocator s cg p with
    | none => simp [hx] at h
    | some y =>
      obtain ⟨result, s₁⟩ := y
      obtain ⟨href, hI⟩ := ha s hs (cg, p) mem_cons_self result s₁ hx
      rw [hx] at h
      dsimp only at h
      rw [forall_mem_cons]
      split_ifs at h with hr
      · obtain ⟨rfl, -⟩ : result = r ∧ s₁ = s' ∧ [⟨cg, p, result⟩] = probes := by simpa using h
        exact ⟨fun h0 => absurd h0 hr, fun hall => href.2 hall.1⟩
      · obtain ⟨⟨r', s₂, probes'⟩, hy, heq⟩ := Option.map_eq_some_iff.1 h
        obtain ⟨rfl, -⟩ : r' = r ∧ s₂ = s' ∧ ⟨cg, p, 0⟩ :: probes' = probes := by simpa using heq
        have hzero : result = 0 := not_not.1 hr
        rw [ih (fun s hs x hx => ha s hs x (mem_cons_of_mem _ hx)) (hI hzero) hy]
        exact (and_iff_right (href.1 hzero)).symm

/-- An allocator that refuses each group. -/
theorem hashalloc_eq_zero (allocator : Allocator σ) {I : σ → Prop} {ncg icg pref : ℕ} (hicg : icg < ncg)
    (ha : ∀ s, I s → ∀ cg < ncg, ∀ pref, ∃ s', allocator s cg pref = some (0, s') ∧ I s') {s : σ} (hs : I s) :
    ∃ s' probes, hashalloc allocator ncg icg pref s = some (0, s', probes) := by
  have hask : ∀ (l : List (ℕ × ℕ)), (∀ x ∈ l, x.1 < ncg) → ∀ s, I s →
      ∃ s' probes, ask allocator l s = some (0, s', probes) := by
    intro l
    induction l with
    | nil => exact fun _ s _ => ⟨s, [], rfl⟩
    | cons x rest ih =>
      intro hl s hs
      obtain ⟨s₁, h₁, hI⟩ := ha s hs x.1 (hl x mem_cons_self) x.2
      obtain ⟨s', probes, h'⟩ := ih (fun y hy => hl y (mem_cons_of_mem _ hy)) s₁ hI
      exact ⟨s', ⟨x.1, x.2, 0⟩ :: probes, by simp [ask, h₁, h']⟩
  exact hask _ (fun x hx => lt_of_mem_cgs hicg hx) s hs

theorem hashalloc_eq_zero_iff (allocator : Allocator σ) {I : σ → Prop} {refuses : ℕ → Prop}
    (hicg : icg < ncg) (ha : ∀ s, I s → ∀ x ∈ cgs ncg icg pref, ∀ r s', allocator s x.1 x.2 = some (r, s') →
      (r = 0 ↔ refuses x.1) ∧ (r = 0 → I s')) {s s' : σ} (hs : I s) {r : ℕ} {probes : List Probe}
    (h : hashalloc allocator ncg icg pref s = some (r, s', probes)) : r = 0 ↔ ∀ cg < ncg, refuses cg := by
  rw [ask_eq_zero_iff allocator ha hs h]
  constructor
  · intro hall cg hcg
    obtain ⟨x, hx, rfl⟩ := @mem_cgs _ _ pref _ hicg hcg
    exact hall x hx
  · exact fun hall x hx => hall x.1 (lt_of_mem_cgs hicg hx)

end UfsAlloc

end Hpux
