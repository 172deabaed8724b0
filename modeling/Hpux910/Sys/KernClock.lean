import Hpux910.Lib.DeltaQueue
import Mathlib

/-!
# The callout queue

`sys/kern_clock.c` keeps the functions to be called by the clock on the list `calltodo`, a delta
queue of the structures of the table `callout[]`.  The unused ones are on `callfree`.

* `timeout`, `findTimeout`, `untimeout` : the entry points.
* `hardclockAge` : the loop of `hardclock` that ages the queue.
* `softclockNext` : one turn of the loop of `softclock`.
* `timeoutLink_eq`, `hardclockAge_eq`, `findLoop_deltas` : the loops are the operations of a delta
  queue as long as no `int` overflows.
-/

namespace Hpux

namespace Callouts

/-- `int` arithmetic. -/
def i32 (x : ℤ) : ℤ := x.bmod (2 ^ 32)

theorem i32_eq {x : ℤ} (hlo : -2 ^ 31 ≤ x) (hhi : x < 2 ^ 31) : i32 x = x :=
  Int.bmod_eq_of_le (by omega) (by omega)

/-- `struct callout`.  The order along `c_next` is the order of a list. -/
structure Callout where
  /-- The index of the structure in `callout[]`. -/
  addr : ℕ
  /-- `c_time`. -/
  cTime : ℤ
  /-- `c_arg`. -/
  cArg : ℕ
  /-- `c_func`. -/
  cFunc : ℕ
  deriving DecidableEq, Repr

/-- `calltodo` and `callfree`. -/
structure Clock where
  /-- The list from `calltodo.c_next`. -/
  calltodo : List Callout
  /-- The list from `callfree`. -/
  callfree : List ℕ
  deriving DecidableEq, Repr

/-- The loop of `timeout` and the linking of `pnew`. -/
def timeoutLink (pnew : Callout) : ℤ → List Callout → List Callout
  | t, [] => [{ pnew with cTime := t }]
  | t, p2 :: rest =>
    if p2.cTime < t then
      p2 :: timeoutLink pnew (if p2.cTime > 0 then i32 (t - p2.cTime) else t) rest
    else { pnew with cTime := t } :: { p2 with cTime := i32 (p2.cTime - t) } :: rest

/-- `timeout`; nothing when it panics with `timeout table overflow`. -/
def timeout (fun_ arg : ℕ) (t : ℤ) (c : Clock) : Option Clock :=
  let t := if t = 0 then 1 else t
  let t := if t < 0 then 1 else t
  match c.callfree with
  | [] => none
  | pnew :: callfree => some ⟨timeoutLink ⟨pnew, 0, arg, fun_⟩ t c.calltodo, callfree⟩

/-- The loop of `find_timeout`: `hzleft`, the entry and the new list, if the entry is found. -/
def findLoop (fun_ arg : ℕ) (removeflag : Bool) :
    ℤ → List Callout → Option (ℤ × Callout × List Callout)
  | _, [] => none
  | hzleft, p2 :: rest =>
    let hzleft := if p2.cTime > 0 then i32 (hzleft + p2.cTime) else hzleft
    if p2.cFunc = fun_ ∧ p2.cArg = arg then
      let todo :=
        if removeflag then
          match rest with
          | next :: rest =>
            if p2.cTime > 0 then { next with cTime := i32 (next.cTime + p2.cTime) } :: rest
            else next :: rest
          | [] => []
        else p2 :: rest
      some (hzleft, p2, todo)
    else (findLoop fun_ arg removeflag hzleft rest).map fun x => (x.1, x.2.1, p2 :: x.2.2)

/-- `find_timeout`. -/
def findTimeout (fun_ arg : ℕ) (removeflag : Bool) (c : Clock) : ℤ × Clock :=
  match findLoop fun_ arg removeflag 0 c.calltodo with
  | none => (-1, c)
  | some (hzleft, p2, todo) =>
    (hzleft, ⟨todo, if removeflag then p2.addr :: c.callfree else c.callfree⟩)

/-- `untimeout`. -/
def untimeout (fun_ arg : ℕ) (c : Clock) : ℤ × Clock := findTimeout fun_ arg true c

/-- The loop of `hardclock` over the queue. -/
def hardclockAge : ℤ → List Callout → List Callout
  | _, [] => []
  | residual, p1 :: rest =>
    if residual = 0 then p1 :: rest
    else if residual ≤ p1.cTime then { p1 with cTime := i32 (p1.cTime - residual) } :: rest
    else
      { p1 with cTime := i32 (p1.cTime - residual) } ::
        hardclockAge (if p1.cTime > 0 then i32 (residual - p1.cTime) else residual) rest

/-- What `hardclock` does to the queue. -/
def hardclock (ticks : ℤ) (c : Clock) : Clock := { c with calltodo := hardclockAge ticks c.calltodo }

/-- One turn of the loop of `softclock`: the entry to be called, or nothing when the loop ends. -/
def softclockNext (c : Clock) : Option (Callout × Clock) :=
  match c.calltodo with
  | [] => none
  | p1 :: rest => if p1.cTime > 0 then none else some (p1, ⟨rest, p1.addr :: c.callfree⟩)

/-! ### The queue as a delta queue -/

/-- Callouts carry their time in `c_time`. -/
abbrev timed : Timed Callout where
  time := Callout.cTime
  setTime c t := { c with cTime := t }
  time_setTime _ _ := rfl
  setTime_setTime _ _ _ := rfl

/-- The positive times add up to less than `2 ^ 31`. -/
def Fits : ℤ → List Callout → Prop
  | _, [] => True
  | left, c :: l => left + max 0 c.cTime < 2 ^ 31 ∧ Fits (left + max 0 c.cTime) l

/-- Deadlines that are less than `2 ^ 31` ticks away give times that fit. -/
theorem fits_deltas {l : List Callout} {base left : ℤ}
    (h : ∀ e ∈ l, e.cTime < base - left + 2 ^ 31) (hleft : left < 2 ^ 31) :
    Fits left (timed.deltas base l) := by
  induction l generalizing base left with
  | nil => trivial
  | cons e l ih =>
    have he := h e (by simp)
    rw [Timed.deltas_cons]
    refine ⟨by simp only; omega, ih (fun f hf => ?_) (by simp only; omega)⟩
    have := h f (by simp [hf])
    simp only
    omega

theorem Fits.lt {left : ℤ} {l : List Callout} (h : Fits left l) (hleft : 0 ≤ left) :
    ∀ e ∈ l, e.cTime < 2 ^ 31 := by
  induction l generalizing left with
  | nil => simp
  | cons c l ih =>
    intro e he
    obtain rfl | he := List.mem_cons.1 he
    · have := h.1
      omega
    · exact ih h.2 (by omega) e he

variable {todo : List Callout}

theorem hardclockAge_eq {r : ℤ} (hr : 0 < r) (hr' : r < 2 ^ 31)
    (hlt : ∀ e ∈ todo, e.cTime < 2 ^ 31) (hlo : ∀ e ∈ todo, -2 ^ 31 ≤ e.cTime - r) :
    hardclockAge r todo = timed.age r todo := by
  induction todo generalizing r with
  | nil => rfl
  | cons e l ih =>
    have he := hlt e (by simp)
    have he' := hlo e (by simp)
    simp only [hardclockAge, Timed.age]
    rw [if_neg (by omega), i32_eq he' (by omega)]
    by_cases hle : r ≤ e.cTime
    · rw [if_pos hle, if_pos hle]
    · rw [if_neg hle, if_neg hle]
      congr 1
      by_cases hpos : e.cTime > 0
      · rw [if_pos hpos, if_pos hpos, i32_eq (by omega) (by omega)]
        refine ih (by omega) (by omega) (fun f hf => hlt f (by simp [hf])) fun f hf => ?_
        have := hlo f (by simp [hf])
        omega
      · rw [if_neg hpos, if_neg hpos]
        exact ih hr hr' (fun f hf => hlt f (by simp [hf])) fun f hf => hlo f (by simp [hf])

theorem timeoutLink_eq (pnew : Callout) {t : ℤ} (ht : 0 < t)
    (ht' : t < 2 ^ 31) (hlt : ∀ e ∈ todo, e.cTime < 2 ^ 31) :
    timeoutLink pnew t todo = timed.insert pnew t todo := by
  induction todo generalizing t with
  | nil => rfl
  | cons e l ih =>
    have he := hlt e (by simp)
    have ih := fun t h h' => @ih t h h' fun f hf => hlt f (by simp [hf])
    simp only [timeoutLink, Timed.insert]
    by_cases hle : e.cTime < t
    · rw [if_pos hle, if_pos hle]
      congr 1
      by_cases hpos : e.cTime > 0
      · rw [if_pos hpos, if_pos hpos, i32_eq (by omega) (by omega)]
        exact ih _ (by omega) (by omega)
      · rw [if_neg hpos, if_neg hpos]
        exact ih _ ht ht'
    · rw [if_neg hle, if_neg hle, i32_eq (by omega) (by omega)]

/-- The entry that `find_timeout` looks for. -/
def Callout.Is (fun_ arg : ℕ) (c : Callout) : Prop := c.cFunc = fun_ ∧ c.cArg = arg

theorem findLoop_none {fun_ arg : ℕ} (h : ∀ e ∈ todo, ¬e.Is fun_ arg)
    (removeflag : Bool) (hzleft : ℤ) : findLoop fun_ arg removeflag hzleft todo = none := by
  induction todo generalizing hzleft with
  | nil => rfl
  | cons e l ih =>
    have he : ¬(e.cFunc = fun_ ∧ e.cArg = arg) := h e (by simp)
    simp only [findLoop]
    rw [if_neg he, ih fun f hf => h f (by simp [hf])]
    rfl

theorem hzleft_eq {base left due : ℤ} (hhi : due < base - left + 2 ^ 31)
    (hl : 0 < left → base ≤ due) (hleft : 0 ≤ left) :
    (if due - base > 0 then i32 (left + (due - base)) else left) = max 0 (due - (base - left)) := by
  by_cases hpos : due - base > 0
  · rw [if_pos hpos, i32_eq (by omega) (by omega)]
    omega
  · rw [if_neg hpos]
    omega

/-- `find_timeout` gives the time still to run of the first entry with the function and the
argument, and takes it out without a change to the deadlines of the others. -/
theorem findLoop_deltas {pre post : List Callout} {e : Callout} {base left : ℤ} {fun_ arg : ℕ}
    (removeflag : Bool) (hs : timed.Sorted (pre ++ e :: post))
    (hhi : ∀ f ∈ pre ++ e :: post, f.cTime < base - left + 2 ^ 31)
    (hlo : ∀ f ∈ pre ++ e :: post, base - 2 ^ 31 ≤ f.cTime)
    (hl : ∀ f ∈ pre ++ e :: post, 0 < left → base ≤ f.cTime) (hleft : 0 ≤ left)
    (hpre : ∀ f ∈ pre, ¬f.Is fun_ arg) (he : e.Is fun_ arg) :
    ∃ t, findLoop fun_ arg removeflag left (timed.deltas base (pre ++ e :: post)) =
      some (max 0 (e.cTime - (base - left)), { e with cTime := t },
        timed.deltas base (pre ++ if removeflag then post else e :: post)) := by
  induction pre generalizing base left with
  | nil =>
    have hhz := hzleft_eq (hhi e (by simp)) (hl e (by simp)) hleft
    refine ⟨e.cTime - base, ?_⟩
    simp only [List.nil_append, Timed.deltas_cons, findLoop, hhz]
    rw [if_pos (show e.cFunc = fun_ ∧ e.cArg = arg from he)]
    cases removeflag with
    | false => rfl
    | true =>
      have hrem := @Timed.removeHead_deltas _ timed base post e hs
      simp only [if_true]
      congr 3
      rw [← hrem]
      cases post with
      | nil => rfl
      | cons f post =>
        have hf := hhi f (by simp)
        have hf' := hlo f (by simp)
        have hle : e.cTime ≤ f.cTime := (List.pairwise_cons.1 hs).1 f (by simp)
        simp only [Timed.deltas_cons, Timed.removeHead]
        by_cases hpos : e.cTime - base > 0
        · rw [if_pos hpos, if_pos hpos, i32_eq (by omega) (by omega)]
        · rw [if_neg hpos, if_neg hpos]
  | cons f pre ih =>
    obtain ⟨hle, hs'⟩ := List.pairwise_cons.1 hs
    have hf : ¬(f.cFunc = fun_ ∧ f.cArg = arg) := hpre f (by simp)
    have hhz := hzleft_eq (hhi f (by simp)) (hl f (by simp)) hleft
    have hfl := hl f (by simp)
    have hbase : max base f.cTime - max 0 (f.cTime - (base - left)) = base - left := by omega
    have hle : ∀ g ∈ pre ++ e :: post, f.cTime ≤ g.cTime := hle
    obtain ⟨t, hfind⟩ := @ih (max base f.cTime) (max 0 (f.cTime - (base - left))) hs'
      (fun g hg => by have := hhi g (by simp [hg]); omega)
      (fun g hg => by have := hlo g (by simp [hg]); have := hle g hg; omega)
      (fun g hg _ => by have := hl g (by simp [hg]); have := hle g hg; omega)
      (by omega) (fun g hg => hpre g (by simp [hg]))
    refine ⟨t, ?_⟩
    simp only [List.cons_append, Timed.deltas_cons, findLoop, hhz]
    rw [if_neg hf, hfind, hbase]
    rfl

end Callouts

end Hpux
