import Mathlib

/-!
# Least recently used caches

A cache that keeps a bounded number of keys with their values, as a list with the least recently
used first.

* `Lru.find`, `Lru.enter`, `Lru.touch`, `Lru.drop` : the operations.
* `Lru.find_enter`, `Lru.find_touch`, `Lru.find_drop` : what they do to the values.
* `Lru.nodup_enter`, `Lru.nodup_touch`, `Lru.nodup_drop` : no key is there twice.
-/

namespace Hpux

namespace Lru

open List

variable {κ ν : Type*}

/-- The keys. -/
def keys (l : List (κ × ν)) : List κ := l.map Prod.fst

/-- Forget the entries that satisfy `p`. -/
def drop (p : κ × ν → Bool) (l : List (κ × ν)) : List (κ × ν) := l.filter fun x => !p x

theorem nodup_drop {p : κ × ν → Bool} {l : List (κ × ν)} (h : (keys l).Nodup) :
    (keys (drop p l)).Nodup :=
  h.sublist (filter_sublist.map _)

/-- Adding a key that is not there. -/
theorem nodup_concat {l : List (κ × ν)} {k : κ} {v : ν} (h : (keys l).Nodup) (hk : k ∉ keys l) :
    (keys (l ++ [(k, v)])).Nodup := by
  simp only [keys, map_append, map_cons, map_nil]
  exact nodup_append.2 ⟨h, nodup_singleton _, by
    rintro a ha b hb rfl
    simp only [mem_singleton] at hb
    exact hk (hb ▸ ha)⟩

variable [DecidableEq κ]

/-- The value of a key. -/
def find (l : List (κ × ν)) (k : κ) : Option ν := (l.find? fun x => x.1 = k).map Prod.snd

/-- Add a key that is not there; a cache that is full forgets its least recently used key. -/
def enter (cap : ℕ) (k : κ) (v : ν) (l : List (κ × ν)) : List (κ × ν) :=
  if (find l k).isSome ∨ cap = 0 then l
  else (if l.length = cap then l.tail else l) ++ [(k, v)]

/-- A key is used. -/
def touch (k : κ) (l : List (κ × ν)) : List (κ × ν) :=
  l.filter (fun x => x.1 ≠ k) ++ l.filter fun x => x.1 = k

variable {l pre post : List (κ × ν)} {k k' : κ} {v : ν}

theorem find_isSome : (find l k).isSome ↔ k ∈ keys l := by
  simp [find, keys]

theorem find_eq_none : find l k = none ↔ k ∉ keys l := by
  rw [← find_isSome, Option.not_isSome_iff_eq_none]

theorem find_append (l l' : List (κ × ν)) : find (l ++ l') k = (find l k).or (find l' k) := by
  rw [find, find?_append, Option.map_or]
  rfl

theorem find_of_mem (h : (keys l).Nodup) (hk : (k, v) ∈ l) : find l k = some v := by
  obtain ⟨pre, post, rfl⟩ := append_of_mem hk
  have hpre : k ∉ keys pre := by
    simp only [keys, map_append, map_cons, nodup_append] at h
    intro hmem
    exact h.2.2 k hmem k (by simp) rfl
  rw [find_append, find_eq_none.2 hpre]
  simp [find]

/-- With no key twice, what is there is what is found. -/
theorem find_eq_some (h : (keys l).Nodup) : find l k = some v ↔ (k, v) ∈ l := by
  refine ⟨fun hf => ?_, find_of_mem h⟩
  obtain ⟨⟨k', v'⟩, hx, rfl⟩ := Option.map_eq_some_iff.1 hf
  obtain rfl : k' = k := by simpa using find?_some hx
  exact mem_of_find?_eq_some hx

/-- Caches with the same entries have the same values. -/
theorem find_congr {l' : List (κ × ν)} (h : (keys l).Nodup) (h' : (keys l').Nodup)
    (hmem : ∀ v, (k, v) ∈ l ↔ (k, v) ∈ l') : find l k = find l' k := by
  refine Option.ext fun v => ?_
  rw [find_eq_some h, find_eq_some h', hmem]

/-- Forgetting what satisfies `p`. -/
theorem find_drop {p : κ × ν → Bool} (h : (keys l).Nodup) :
    find (drop p l) k = (find l k).filter fun v => !p (k, v) := by
  refine Option.ext fun v => ?_
  rw [find_eq_some (nodup_drop h), Option.filter_eq_some_iff, find_eq_some h]
  simp [drop]

theorem touch_perm (k : κ) (l : List (κ × ν)) : (touch k l).Perm l := by
  have h := filter_append_perm (fun x : κ × ν => decide (x.1 = k)) l
  refine (perm_append_comm.trans ?_)
  simpa [touch] using h

theorem nodup_touch (h : (keys l).Nodup) : (keys (touch k l)).Nodup :=
  ((touch_perm k l).map _).nodup_iff.2 h

/-- Using a key changes no value. -/
theorem find_touch (h : (keys l).Nodup) : find (touch k l) k' = find l k' :=
  find_congr (nodup_touch h) h fun _ => (touch_perm k l).mem_iff

/-- Using a key that is in the middle. -/
theorem touch_append (h : (keys (pre ++ (k, v) :: post)).Nodup) :
    touch k (pre ++ (k, v) :: post) = pre ++ post ++ [(k, v)] := by
  have hne : ∀ x ∈ pre ++ post, x.1 ≠ k := by
    rintro ⟨k', v'⟩ hx rfl
    have hnd : (keys ((k', v) :: (pre ++ post))).Nodup :=
      (perm_middle.map Prod.fst).nodup_iff.1 h
    exact (nodup_cons.1 hnd).1 (mem_map.2 ⟨_, hx, rfl⟩)
  have hall : (pre ++ post).filter (fun x => x.1 ≠ k) = pre ++ post :=
    filter_eq_self.2 (by simpa using hne)
  have hnone : (pre ++ post).filter (fun x => x.1 = k) = [] :=
    filter_eq_nil_iff.2 (by simpa using hne)
  rw [filter_append] at hall hnone
  rw [append_eq_nil_iff] at hnone
  rw [touch, filter_append, filter_append, filter_cons_of_neg (by simp),
    filter_cons_of_pos (by simp), hall, hnone.1, hnone.2]
  rfl

theorem nodup_enter {cap : ℕ} (h : (keys l).Nodup) : (keys (enter cap k v l)).Nodup := by
  unfold enter
  split_ifs with hno hfull
  · exact h
  · refine nodup_concat (h.sublist ((tail_sublist l).map _)) fun hk => hno (.inl ?_)
    exact find_isSome.2 ((tail_sublist l).map Prod.fst |>.subset hk)
  · exact nodup_concat h fun hk => hno (.inl (find_isSome.2 hk))

/-- Entering a key gives it the value when it has none; the other keys keep theirs, except for the
least recently used one when the cache is full. -/
theorem find_enter {cap : ℕ} (h : (keys l).Nodup) (hcap : cap ≠ 0) (hk : find l k = none) :
    find (enter cap k v l) k' = if k' = k then some v
      else if l.length = cap ∧ l.head?.map Prod.fst = some k' then none else find l k' := by
  have hno : ¬((find l k).isSome ∨ cap = 0) := by simp [hk, hcap]
  have hlast : find [(k, v)] k' = if k' = k then some v else none := by
    by_cases hkk : k' = k
    · simp [find, hkk]
    · simp [find, hkk, Ne.symm hkk]
  rw [enter, if_neg hno, find_append, hlast]
  by_cases hkk : k' = k
  · subst hkk
    have hsub : find (if l.length = cap then l.tail else l) k' = none := by
      refine find_eq_none.2 fun hmem => find_eq_none.1 hk ?_
      split_ifs at hmem
      · exact (tail_sublist l).map Prod.fst |>.subset hmem
      · exact hmem
    rw [hsub, if_pos rfl, if_pos rfl]
    rfl
  · rw [if_neg hkk, if_neg hkk, Option.or_none]
    by_cases hfull : l.length = cap
    · rw [if_pos hfull]
      cases l with
      | nil => exact absurd hfull (Ne.symm hcap)
      | cons x l =>
        obtain ⟨kx, vx⟩ := x
        have hx : kx ∉ keys l := (nodup_cons.1 h).1
        by_cases hkx : kx = k'
        · subst hkx
          rw [if_pos ⟨hfull, rfl⟩]
          exact find_eq_none.2 hx
        · rw [if_neg (by simp [hkx])]
          simp [find, hkx]
    · rw [if_neg hfull, if_neg (by simp [hfull])]

end Lru

end Hpux
