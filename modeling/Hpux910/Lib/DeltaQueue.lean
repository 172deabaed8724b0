import Mathlib

/-!
# Delta queues

A delta queue stores deadlines as differences: each entry holds the time from the entry before it,
so that moving the clock changes only the front.  Entries whose time has come stay in the queue, at
the front, and hold how late they are as a negative number.

* `Timed` : entries that carry a time.
* `Timed.deltas` : the delta queue of a list of deadlines, seen at time `base`.
* `Timed.age`, `Timed.insert`, `Timed.removeHead` : moving the clock, adding an entry and taking
  one out, as done on the queue itself.
* `age_deltas`, `insert_deltas`, `removeHead_deltas` : what they do to the deadlines.
* `waits_deltas` : the sum of the positive numbers up to an entry is its time still to run.
-/

namespace Hpux

open List

/-- Entries that carry a time. -/
structure Timed (ε : Type*) where
  /-- The time of an entry. -/
  time : ε → ℤ
  /-- The entry with another time. -/
  setTime : ε → ℤ → ε
  time_setTime : ∀ e t, time (setTime e t) = t
  setTime_setTime : ∀ e t t', setTime (setTime e t) t' = setTime e t'

namespace Timed

variable {ε : Type*} (T : Timed ε)

attribute [simp] time_setTime setTime_setTime

/-- The delta queue of a list of deadlines, seen at time `base`. -/
def deltas : ℤ → List ε → List ε
  | _, [] => []
  | base, e :: l => T.setTime e (T.time e - base) :: deltas (max base (T.time e)) l

/-- Let `r` ticks pass. -/
def age : ℤ → List ε → List ε
  | _, [] => []
  | r, e :: l =>
    if r ≤ T.time e then T.setTime e (T.time e - r) :: l
    else T.setTime e (T.time e - r) :: age (if 0 < T.time e then r - T.time e else r) l

/-- Add an entry that has `t` ticks to run. -/
def insert (new : ε) : ℤ → List ε → List ε
  | t, [] => [T.setTime new t]
  | t, e :: l =>
    if T.time e < t then e :: insert new (if 0 < T.time e then t - T.time e else t) l
    else T.setTime new t :: T.setTime e (T.time e - t) :: l

/-- Take out the front entry. -/
def removeHead : List ε → List ε
  | e :: f :: l => if 0 < T.time e then T.setTime f (T.time f + T.time e) :: l else f :: l
  | _ => []

/-- The entries with the sum of the positive numbers up to them. -/
def waits : ℤ → List ε → List ε
  | _, [] => []
  | left, e :: l =>
    let left := if 0 < T.time e then left + T.time e else left
    T.setTime e left :: waits left l

/-- Deadlines in order. -/
def Sorted (l : List ε) : Prop := l.Pairwise fun e f => T.time e ≤ T.time f

variable {T} {base : ℤ} {l : List ε}

@[simp] theorem deltas_nil : T.deltas base [] = [] := rfl

theorem deltas_cons (e : ε) : T.deltas base (e :: l) =
    T.setTime e (T.time e - base) :: T.deltas (max base (T.time e)) l := rfl

theorem age_cons (r : ℤ) (e : ε) : T.age r (e :: l) =
    if r ≤ T.time e then T.setTime e (T.time e - r) :: l
    else T.setTime e (T.time e - r) :: T.age (if 0 < T.time e then r - T.time e else r) l := rfl

@[simp] theorem insert_nil (new : ε) (t : ℤ) : T.insert new t [] = [T.setTime new t] := rfl

theorem insert_cons (new : ε) (t : ℤ) (e : ε) : T.insert new t (e :: l) =
    if T.time e < t then e :: T.insert new (if 0 < T.time e then t - T.time e else t) l
    else T.setTime new t :: T.setTime e (T.time e - t) :: l := rfl

theorem removeHead_cons_cons (e f : ε) : T.removeHead (e :: f :: l) =
    if 0 < T.time e then T.setTime f (T.time f + T.time e) :: l else f :: l := rfl

theorem waits_cons (left : ℤ) (e : ε) : T.waits left (e :: l) =
    T.setTime e (if 0 < T.time e then left + T.time e else left) ::
      T.waits (if 0 < T.time e then left + T.time e else left) l := rfl

/-- The queue holds the entries with other times. -/
theorem mem_deltas {e : ε} (h : e ∈ T.deltas base l) : ∃ f ∈ l, ∃ t, e = T.setTime f t := by
  induction l generalizing base with
  | nil => simp at h
  | cons f l ih =>
    rw [deltas_cons] at h
    obtain rfl | h := mem_cons.1 h
    · exact ⟨f, by simp, _, rfl⟩
    · obtain ⟨g, hg, t, rfl⟩ := ih h
      exact ⟨g, by simp [hg], t, rfl⟩

/-- Reading what does not depend on the time. -/
theorem map_deltas {β : Type*} (g : ε → β) (hg : ∀ e t, g (T.setTime e t) = g e) :
    (T.deltas base l).map g = l.map g := by
  induction l generalizing base with
  | nil => rfl
  | cons e l ih => rw [deltas_cons, map_cons, hg, ih, map_cons]

/-- Letting `r` ticks pass moves the time at which the queue is seen. -/
theorem age_deltas {r : ℤ} (hr : 0 < r) : T.age r (T.deltas base l) = T.deltas (base + r) l := by
  induction l generalizing base r with
  | nil => rfl
  | cons e l ih =>
    simp only [deltas_cons, age_cons, time_setTime, setTime_setTime]
    by_cases hle : r ≤ T.time e - base
    · rw [if_pos hle, max_eq_right (by omega), max_eq_right (by omega), sub_sub]
    · rw [if_neg hle, sub_sub]
      congr 1
      by_cases hpos : 0 < T.time e - base
      · rw [if_pos hpos, ih (by omega), max_eq_right (by omega), max_eq_left (by omega)]
        congr 1
        omega
      · rw [if_neg hpos, ih hr, max_eq_left (by omega), max_eq_left (by omega)]

/-- A new entry goes before the first entry that is not due earlier. -/
theorem insert_deltas (new : ε) {t : ℤ} (ht : 0 < t) : T.insert new t (T.deltas base l) =
    T.deltas base (l.takeWhile (fun e => T.time e < base + t) ++
      T.setTime new (base + t) :: l.dropWhile fun e => T.time e < base + t) := by
  induction l generalizing base t with
  | nil => simp [deltas_cons]
  | cons e l ih =>
    simp only [deltas_cons, insert_cons, time_setTime, setTime_setTime]
    by_cases hlt : T.time e - base < t
    · have he : T.time e < base + t := by omega
      rw [if_pos hlt, takeWhile_cons_of_pos (by simpa using he),
        dropWhile_cons_of_pos (by simpa using he), cons_append, deltas_cons]
      congr 1
      by_cases hpos : 0 < T.time e - base
      · have hmax : max base (T.time e) = T.time e := max_eq_right (by omega)
        rw [if_pos hpos, ih (by omega), hmax, show T.time e + (t - (T.time e - base)) = base + t by
          omega]
      · rw [if_neg hpos, ih ht, max_eq_left (by omega)]
    · have he : ¬T.time e < base + t := by omega
      rw [if_neg hlt, takeWhile_cons_of_neg (by simpa using he),
        dropWhile_cons_of_neg (by simpa using he), nil_append, deltas_cons, deltas_cons]
      simp only [time_setTime, setTime_setTime]
      rw [max_eq_right (show base ≤ base + t by omega), max_eq_right (by omega),
        max_eq_right (by omega), add_sub_cancel_left, sub_sub]

/-- Taking out the front entry leaves the deadlines behind it. -/
theorem removeHead_deltas {e : ε} (h : T.Sorted (e :: l)) :
    T.removeHead (T.deltas base (e :: l)) = T.deltas base l := by
  cases l with
  | nil => rfl
  | cons f l =>
    have hle : T.time e ≤ T.time f := (pairwise_cons.1 h).1 f (by simp)
    simp only [deltas_cons, removeHead_cons_cons, time_setTime, setTime_setTime]
    by_cases hpos : 0 < T.time e - base
    · rw [if_pos hpos, max_eq_right (by omega), max_eq_right (by omega), max_eq_right (by omega)]
      congr 2
      omega
    · rw [if_neg hpos, max_eq_left (by omega)]

/-- The sum of the positive numbers up to an entry is its time still to run, 0 when it is late. -/
theorem waits_deltas (h : T.Sorted l) {left : ℤ} (hl : ∀ e ∈ l, 0 < left → base ≤ T.time e)
    (hleft : 0 ≤ left) : T.waits left (T.deltas base l) =
      l.map fun e => T.setTime e (max 0 (T.time e - (base - left))) := by
  induction l generalizing base left with
  | nil => rfl
  | cons e l ih =>
    obtain ⟨he, h⟩ := pairwise_cons.1 h
    have hl' := hl e (by simp)
    simp only [deltas_cons, waits_cons, time_setTime, setTime_setTime, map_cons]
    by_cases hpos : 0 < T.time e - base
    · rw [if_pos hpos, max_eq_right (show base ≤ T.time e by omega),
        ih h (fun f hf _ => he f hf) (by omega)]
      congr 2
      · omega
      · funext f
        congr 2
        omega
    · rw [if_neg hpos, max_eq_left (by omega), ih h (fun f hf => hl f (by simp [hf])) hleft]
      congr 2
      omega

end Timed

end Hpux
