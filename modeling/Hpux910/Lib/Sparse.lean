import Mathlib

/-!
# Sparse lists

A function to the integers that is zero almost everywhere can be kept as a list of entries sorted
by key, without zero entries.  Such a list is determined by the function, so adding a number at a
key and then subtracting it again gives back the same list.

* `Sparse ε κ` : how entries are read as keys with values, and made from them.
* `Sparse.coeff l k` : the value at `k`, zero when there is no entry.
* `Sparse.add k v l` : add `v` at `k`; the entry goes away when its value becomes zero.
* `Sparse.Ok l` : keys increase and no value is zero.
* `Sparse.Ok.coeff_add_self`, `Sparse.coeff_add_of_ne` : what `add` does to the function.
* `Sparse.Ok.add`, `Sparse.Ok.add_neg_add` : `add` keeps `Ok` and can be taken back.
-/

namespace Hpux

open List

/-- A reading of entries `ε` as keys in `κ` with integer values. -/
structure Sparse (ε κ : Type*) where
  /-- The key. -/
  key : ε → κ
  /-- The value. -/
  val : ε → ℤ
  /-- The entry with a given key and value. -/
  make : κ → ℤ → ε
  key_make : ∀ k v, key (make k v) = k
  val_make : ∀ k v, val (make k v) = v
  make_key_val : ∀ e, make (key e) (val e) = e

namespace Sparse

variable {ε κ : Type*} [LinearOrder κ] (S : Sparse ε κ)

/-- The value at a key. -/
def coeff : List ε → κ → ℤ
  | [], _ => 0
  | e :: l, k => if S.key e = k then S.val e else coeff l k

/-- Add `v` at the key `k`. -/
def add (k : κ) (v : ℤ) : List ε → List ε
  | [] => [S.make k v]
  | e :: l =>
    if S.key e < k then e :: add k v l
    else if S.key e = k then
      if S.val e + v = 0 then l else S.make k (S.val e + v) :: l
    else S.make k v :: e :: l

/-- The keys increase and no value is zero. -/
def Ok (l : List ε) : Prop :=
  l.Pairwise (fun e f => S.key e < S.key f) ∧ ∀ e ∈ l, S.val e ≠ 0

variable {S}

@[simp] theorem coeff_nil (k : κ) : S.coeff [] k = 0 := rfl

theorem coeff_cons (e : ε) (l : List ε) (k : κ) :
    S.coeff (e :: l) k = if S.key e = k then S.val e else S.coeff l k := rfl

theorem add_cons (k : κ) (v : ℤ) (e : ε) (l : List ε) : S.add k v (e :: l) =
    if S.key e < k then e :: S.add k v l
    else if S.key e = k then
      if S.val e + v = 0 then l else S.make k (S.val e + v) :: l
    else S.make k v :: e :: l := rfl

variable {q : ε → Bool}

/-- `add` cuts the list in front of the first key that is not smaller. -/
theorem add_eq_append (k : κ) (v : ℤ) (hq : ∀ e, q e = true ↔ S.key e < k)
    (l : List ε) : S.add k v l = l.takeWhile q ++ match l.dropWhile q with
      | [] => [S.make k v]
      | e :: rest =>
        if S.key e = k then
          if S.val e + v = 0 then rest else S.make k (S.val e + v) :: rest
        else S.make k v :: e :: rest := by
  induction l with
  | nil => rfl
  | cons e l ih =>
    rw [add_cons, takeWhile_cons, dropWhile_cons]
    by_cases he : S.key e < k
    · rw [if_pos he, if_pos ((hq e).2 he), if_pos ((hq e).2 he), ih, cons_append]
    · have hqe : q e = false := by rwa [← Bool.not_eq_true, hq]
      rw [if_neg he, hqe]
      rfl

@[simp] theorem ok_nil : S.Ok [] := ⟨.nil, by simp⟩

variable {l : List ε}

theorem ok_cons {e : ε} : S.Ok (e :: l) ↔ S.val e ≠ 0 ∧ (∀ f ∈ l, S.key e < S.key f) ∧ S.Ok l := by
  simp only [Ok, pairwise_cons, mem_cons, forall_eq_or_imp]
  exact ⟨fun ⟨⟨h1, h2⟩, h3, h4⟩ => ⟨h3, h1, h2, h4⟩, fun ⟨h3, h1, h2, h4⟩ => ⟨⟨h1, h2⟩, h3, h4⟩⟩

variable {k : κ}

/-- The key at the cut decides whether there is an entry. -/
theorem Ok.coeff_dropWhile (h : S.Ok l)
    (hq : ∀ e, q e = true ↔ S.key e < k) : S.coeff l k = S.coeff (l.dropWhile q) k := by
  induction l with
  | nil => rfl
  | cons e l ih =>
    rw [dropWhile_cons]
    by_cases he : S.key e < k
    · rw [if_pos ((hq e).2 he), coeff_cons, if_neg he.ne, ih (ok_cons.1 h).2.2]
    · rw [if_neg (by rwa [hq])]

/-- Keys below the first one have no entry. -/
theorem coeff_eq_zero (h : ∀ e ∈ l, k < S.key e) : S.coeff l k = 0 := by
  induction l with
  | nil => rfl
  | cons e l ih =>
    rw [coeff_cons, if_neg (h e (by simp)).ne', ih fun f hf => h f (by simp [hf])]

/-- The value of an entry is the value at its key. -/
theorem Ok.coeff_mem (h : S.Ok l) {e : ε} (he : e ∈ l) : S.coeff l (S.key e) = S.val e := by
  induction l with
  | nil => cases he
  | cons f l ih =>
    obtain ⟨-, hlt, hl⟩ := ok_cons.1 h
    rw [coeff_cons]
    rcases mem_cons.1 he with rfl | he
    · rw [if_pos rfl]
    · rw [if_neg (hlt e he).ne, ih hl he]

theorem exists_of_coeff_ne_zero (h : S.coeff l k ≠ 0) :
    ∃ e ∈ l, S.key e = k ∧ S.val e = S.coeff l k := by
  induction l with
  | nil => exact absurd rfl h
  | cons f l ih =>
    rw [coeff_cons] at h ⊢
    split_ifs at h ⊢ with hf
    · exact ⟨f, by simp, hf, rfl⟩
    · obtain ⟨e, he, hk⟩ := ih h
      exact ⟨e, by simp [he], hk⟩

/-- Where the keys of the list with `v` added come from. -/
theorem mem_add {v : ℤ} {f : ε} (hf : f ∈ S.add k v l) : f ∈ l ∨ S.key f = k := by
  induction l with
  | nil =>
    rw [add, mem_singleton] at hf
    exact .inr (hf ▸ S.key_make k v)
  | cons e l ih =>
    rw [add_cons] at hf
    split_ifs at hf with h1 h2 h3
    · rcases mem_cons.1 hf with rfl | hf
      · exact .inl (by simp)
      · exact (ih hf).imp (by simp +contextual) id
    · exact .inl (by simp [hf])
    · rcases mem_cons.1 hf with rfl | hf
      · exact .inr (S.key_make ..)
      · exact .inl (by simp [hf])
    · rcases mem_cons.1 hf with rfl | hf
      · exact .inr (S.key_make ..)
      · exact .inl hf

theorem Ok.add {l : List ε} (h : S.Ok l) (k : κ) {v : ℤ} (hv : v ≠ 0) : S.Ok (S.add k v l) := by
  induction l with
  | nil => exact ok_cons.2 ⟨by rwa [S.val_make], by simp, by simp⟩
  | cons e l ih =>
    obtain ⟨hne, hlt, hl⟩ := ok_cons.1 h
    rw [add_cons]
    split_ifs with h1 h2 h3
    · refine ok_cons.2 ⟨hne, fun f hf => ?_, ih hl⟩
      rcases mem_add hf with hf | hf
      · exact hlt f hf
      · exact hf ▸ h1
    · exact hl
    · refine ok_cons.2 ⟨by rwa [S.val_make], fun f hf => ?_, hl⟩
      rw [S.key_make, ← h2]
      exact hlt f hf
    · have hk : k < S.key e := lt_of_le_of_ne (not_lt.1 h1) (Ne.symm h2)
      refine ok_cons.2 ⟨by rwa [S.val_make], fun f hf => ?_, h⟩
      rw [S.key_make]
      rcases mem_cons.1 hf with rfl | hf
      · exact hk
      · exact hk.trans (hlt f hf)

/-- `add` adds at its key. -/
theorem Ok.coeff_add_self (h : S.Ok l) (k : κ) (v : ℤ) : S.coeff (S.add k v l) k = S.coeff l k + v := by
  induction l with
  | nil => simp [Sparse.add, coeff_cons, S.key_make, S.val_make]
  | cons e l ih =>
    obtain ⟨-, hlt, hl⟩ := ok_cons.1 h
    rw [add_cons]
    split_ifs with h1 h2 h3
    · rw [coeff_cons, coeff_cons, if_neg h1.ne, if_neg h1.ne, ih hl]
    · rw [coeff_cons, if_pos h2, ← h2, coeff_eq_zero hlt, h3]
    · rw [coeff_cons, coeff_cons, S.key_make, S.val_make, if_pos rfl, if_pos h2]
    · have hke : k < S.key e := lt_of_le_of_ne (not_lt.1 h1) (Ne.symm h2)
      have hk : ∀ f ∈ e :: l, k < S.key f := by
        intro f hf
        rcases mem_cons.1 hf with rfl | hf
        · exact hke
        · exact hke.trans (hlt f hf)
      rw [coeff_cons, S.key_make, S.val_make, if_pos rfl, coeff_eq_zero hk, zero_add]

/-- `add` changes nothing at other keys. -/
theorem coeff_add_of_ne {k k' : κ} (hk : k' ≠ k) (v : ℤ) : S.coeff (S.add k v l) k' = S.coeff l k' := by
  induction l with
  | nil => rw [Sparse.add, coeff_cons, S.key_make, if_neg (Ne.symm hk)]
  | cons e l ih =>
    rw [add_cons]
    split_ifs with h1 h2 h3
    · rw [coeff_cons, coeff_cons, ih]
    · rw [coeff_cons, if_neg (h2.trans_ne (Ne.symm hk))]
    · rw [coeff_cons, coeff_cons, S.key_make, if_neg (Ne.symm hk), if_neg (h2.trans_ne (Ne.symm hk))]
    · rw [coeff_cons, S.key_make, if_neg (Ne.symm hk)]

/-- Adding and subtracting the same number gives back the same list. -/
theorem Ok.add_neg_add (h : S.Ok l) (k : κ) (v : ℤ) : S.add k (-v) (S.add k v l) = l := by
  induction l with
  | nil => simp [Sparse.add, S.key_make, S.val_make]
  | cons e l ih =>
    obtain ⟨hne, hlt, hl⟩ := ok_cons.1 h
    rw [add_cons]
    split_ifs with h1 h2 h3
    · rw [add_cons, if_pos h1, ih hl]
    · -- the entry went away and comes back in front of the rest
      have hve : -v = S.val e := by omega
      have hcons : S.add k (-v) l = S.make k (-v) :: l := by
        cases l with
        | nil => rfl
        | cons f l =>
          have hkf : k < S.key f := h2 ▸ hlt f (by simp)
          rw [add_cons, if_neg hkf.not_gt, if_neg hkf.ne']
      rw [hcons, hve, ← h2, S.make_key_val]
    · rw [add_cons, S.key_make, S.val_make, if_neg (lt_irrefl k), if_pos rfl]
      have hsum : S.val e + v + -v = S.val e := by omega
      rw [hsum, if_neg hne, ← h2, S.make_key_val]
    · rw [add_cons, S.key_make, S.val_make, if_neg (lt_irrefl k), if_pos rfl, if_pos (by omega)]

/-- A key without entry gets one. -/
theorem Ok.length_add (h : S.Ok l) (hk : S.coeff l k = 0) (v : ℤ) :
    (S.add k v l).length = l.length + 1 := by
  induction l with
  | nil => rfl
  | cons e l ih =>
    obtain ⟨hne, -, hl⟩ := ok_cons.1 h
    rw [coeff_cons] at hk
    rw [add_cons]
    split_ifs with h1 h2 h3
    · rw [if_neg h1.ne] at hk
      rw [length_cons, ih hl hk, length_cons]
    · exact absurd hk (by rwa [if_pos h2])
    · exact absurd hk (by rwa [if_pos h2])
    · rfl

/-- A key with an entry keeps or loses it. -/
theorem Ok.length_add_le (h : S.Ok l) (hk : S.coeff l k ≠ 0) (v : ℤ) :
    (S.add k v l).length ≤ l.length := by
  induction l with
  | nil => exact absurd rfl hk
  | cons e l ih =>
    obtain ⟨-, hlt, hl⟩ := ok_cons.1 h
    rw [coeff_cons] at hk
    rw [add_cons]
    split_ifs with h1 h2 h3
    · rw [if_neg h1.ne] at hk
      exact Nat.succ_le_succ (ih hl hk)
    · exact Nat.le_succ _
    · exact le_rfl
    · -- the key lies before the list, so it has no entry
      have hke : k < S.key e := lt_of_le_of_ne (not_lt.1 h1) (Ne.symm h2)
      rw [if_neg h2] at hk
      exact absurd (coeff_eq_zero fun f hf => hke.trans (hlt f hf)) hk

theorem Ok.filter (h : S.Ok l) (q : ε → Bool) : S.Ok (l.filter q) :=
  ⟨h.1.filter _, fun e he => h.2 e (mem_of_mem_filter he)⟩

/-- Removing the entries of some keys. -/
theorem coeff_filter {r : κ → Prop} [DecidablePred r] (hq : ∀ e, q e = true ↔ r (S.key e)) (k : κ) :
    S.coeff (l.filter q) k = if r k then S.coeff l k else 0 := by
  induction l with
  | nil => simp
  | cons e l ih =>
    rw [filter_cons]
    by_cases he : q e = true
    · rw [if_pos he, coeff_cons, coeff_cons, ih]
      by_cases hk : S.key e = k
      · rw [if_pos hk, if_pos hk, if_pos (hk ▸ (hq e).1 he)]
      · rw [if_neg hk, if_neg hk]
    · rw [if_neg he, ih, coeff_cons]
      by_cases hk : S.key e = k
      · have hr : ¬r k := fun h => he ((hq e).2 (hk ▸ h))
        rw [if_neg hr, if_neg hr]
      · rw [if_neg hk]

theorem coeff_eq_zero_of_forall_ne (h : ∀ e ∈ l, S.key e ≠ k) : S.coeff l k = 0 := by
  by_contra hne
  obtain ⟨e, he, hk, -⟩ := exists_of_coeff_ne_zero hne
  exact h e he hk

/-- The order does not matter when the keys are different. -/
theorem coeff_reverse (h : l.Pairwise fun e f => S.key e ≠ S.key f) (k : κ) :
    S.coeff l.reverse k = S.coeff l k := by
  have happ : ∀ l₁ l₂ : List ε, S.coeff (l₁ ++ l₂) k =
      if ∃ e ∈ l₁, S.key e = k then S.coeff l₁ k else S.coeff l₂ k := by
    intro l₁ l₂
    induction l₁ with
    | nil => simp
    | cons e l₁ ih =>
      rw [cons_append, coeff_cons, coeff_cons, ih]
      by_cases he : S.key e = k <;> simp [he]
  induction l with
  | nil => rfl
  | cons e l ih =>
    obtain ⟨hne, hl⟩ := pairwise_cons.1 h
    rw [reverse_cons, happ, ih hl, coeff_cons, coeff_cons, coeff_nil]
    by_cases he : S.key e = k
    · rw [if_pos he, if_pos he, if_neg]
      rintro ⟨f, hf, hk⟩
      exact hne f (mem_reverse.1 hf) (he.trans hk.symm)
    · rw [if_neg he, if_neg he]
      split_ifs with hex
      · rfl
      · refine (coeff_eq_zero_of_forall_ne fun f hf hk => hex ⟨f, ?_, hk⟩).symm
        exact mem_reverse.2 hf

end Sparse

end Hpux
