import Hpux910.Lib.Lts
import Hpux910.Sys.KernClock
import Mathlib

/-!
# Runs of the callout queue

The clock routines in any order, beside an abstract machine that keeps absolute deadlines and a
history of what became of every request.

* `Ledger` : the abstract machine.  Its queue is in the order of the deadlines, and of equal ones
  the latest request is first.
* `Clock.step`, `Ledger.step` : the two machines on one operation, with what the caller sees.
* `Clock.Careful` : the steps at which no entry becomes overdue by more than `2 ^ 31` ticks.
* `callout_queue_refines_ledger` : the queue refines the ledger, and what the history of the ledger
  says.
-/

namespace Hpux

namespace Callouts

open List

/-- What can happen to the queue. -/
inductive Op
  | timeout (fun_ arg : ℕ) (t : ℤ)
  | findTimeout (fun_ arg : ℕ) (removeflag : Bool)
  | hardclock (ticks : ℤ)
  /-- One turn of the loop of `softclock`. -/
  | softclock
  deriving DecidableEq, Repr

/-- What the caller of an operation sees. -/
inductive Out
  | done
  /-- `find_timeout` returns. -/
  | hzleft (t : ℤ)
  /-- `softclock` calls a function. -/
  | call (fun_ arg : ℕ) (time : ℤ)
  /-- The loop of `softclock` ends. -/
  | idle
  deriving DecidableEq, Repr

/-- The kernel on one operation; nothing when it panics. -/
def Clock.step (c : Clock) : Op → Option (Out × Clock)
  | .timeout fun_ arg t => (timeout fun_ arg t c).map fun c => (.done, c)
  | .findTimeout fun_ arg removeflag =>
    let (hzleft, c) := findTimeout fun_ arg removeflag c
    some (.hzleft hzleft, c)
  | .hardclock ticks => some (.done, hardclock ticks c)
  | .softclock =>
    match softclockNext c with
    | none => some (.idle, c)
    | some (p1, c) => some (.call p1.cFunc p1.cArg p1.cTime, c)

/-- The arguments are of type `int`, and the clock moves forward. -/
def Op.Enabled : Op → Prop
  | .timeout _ _ t => -2 ^ 31 ≤ t ∧ t < 2 ^ 31
  | .hardclock ticks => 1 ≤ ticks ∧ ticks < 2 ^ 31
  | _ => True

/-! ### The abstract machine -/

/-- A request. -/
structure Job where
  /-- The number of the request, in the order in which they were made. -/
  serial : ℕ
  /-- The structure it is kept in. -/
  addr : ℕ
  /-- The function to be called. -/
  func : ℕ
  /-- Its argument. -/
  arg : ℕ
  /-- When the function is to be called. -/
  due : ℤ
  deriving DecidableEq, Repr

/-- A function that was called. -/
structure Called where
  /-- The request. -/
  job : Job
  /-- When the function was called. -/
  time : ℤ
  /-- When `softclock` had last found nothing to do. -/
  drained : ℤ
  deriving DecidableEq, Repr

/-- The requests and what became of them. -/
structure Ledger where
  /-- The time. -/
  now : ℤ
  /-- The number of requests made. -/
  serials : ℕ
  /-- When `softclock` last found nothing to do. -/
  drained : ℤ
  /-- The requests that wait. -/
  pending : List Job
  /-- The calls, in order. -/
  called : List Called
  /-- The requests taken out by `find_timeout`. -/
  removed : List Job
  deriving DecidableEq, Repr

/-- `j` is to be called before `k`: it is due earlier, or at the same time and was made later. -/
def Job.Before (j k : Job) : Prop := j.due < k.due ∨ j.due = k.due ∧ k.serial < j.serial

/-- A request for the function `fun_` with `arg`. -/
def Job.Is (fun_ arg : ℕ) (j : Job) : Prop := j.func = fun_ ∧ j.arg = arg

instance (fun_ arg : ℕ) : DecidablePred (Job.Is fun_ arg) := fun j =>
  inferInstanceAs (Decidable (j.func = fun_ ∧ j.arg = arg))

/-- The ledger on one operation.  `addr` is the structure that a new request is kept in. -/
def Ledger.step (L : Ledger) (addr : ℕ) : Op → Out × Ledger
  | .timeout fun_ arg t =>
    let due := L.now + max 1 t
    (.done, { L with
      serials := L.serials + 1
      pending := L.pending.takeWhile (fun j => j.due < due) ++
        ⟨L.serials, addr, fun_, arg, due⟩ :: L.pending.dropWhile fun j => j.due < due })
  | .findTimeout fun_ arg removeflag =>
    match L.pending.find? (fun j => j.Is fun_ arg) with
    | none => (.hzleft (-1), L)
    | some j => (.hzleft (max 0 (j.due - L.now)),
        if removeflag then { L with pending := L.pending.erase j, removed := L.removed ++ [j] }
        else L)
  | .hardclock ticks => (.done, { L with now := L.now + ticks })
  | .softclock =>
    match L.pending with
    | [] => (.idle, { L with drained := L.now })
    | j :: rest =>
      if j.due ≤ L.now then
        (.call j.func j.arg (j.due - L.now),
          { L with pending := rest, called := L.called ++ [⟨j, L.now, L.drained⟩] })
      else (.idle, { L with drained := L.now })

/-- The two machines side by side, from an empty queue over a table of `n` structures. -/
def calloutSys (n : ℕ) : Lts (Clock × Ledger) Op where
  init s := s = (⟨[], List.range n⟩, ⟨0, 0, 0, [], [], []⟩)
  step s op s' := op.Enabled ∧ ∃ out, s.1.step op = some (out, s'.1) ∧
    s'.2 = (s.2.step (s.1.callfree.headD 0) op).2

/-- No entry becomes overdue by more than `2 ^ 31` ticks. -/
def Clock.Careful (c : Clock) : Op → Prop
  | .hardclock ticks => ∀ e ∈ c.calltodo, -2 ^ 31 ≤ e.cTime - ticks
  | _ => True

/-- The entries with their time still to run, read off the queue: the sum of the positive times up
to the entry. -/
def Clock.waits (c : Clock) : List (ℕ × ℕ × ℤ) :=
  (timed.waits 0 c.calltodo).map fun e => (e.cFunc, e.cArg, e.cTime)

/-! ### The queue refines the ledger -/

/-- The request as an entry with its deadline. -/
def Job.entry (j : Job) : Callout := ⟨j.addr, j.due, j.arg, j.func⟩

/-- The queue holds the requests that wait, in order. -/
structure Agrees (n : ℕ) (c : Clock) (L : Ledger) : Prop where
  todo : c.calltodo = timed.deltas L.now (L.pending.map Job.entry)
  near : ∀ j ∈ L.pending, L.now - 2 ^ 31 ≤ j.due ∧ j.due < L.now + 2 ^ 31
  order : L.pending.Pairwise Job.Before
  fresh : ∀ j ∈ L.pending, j.serial < L.serials
  table : (c.calltodo.map Callout.addr ++ c.callfree).Perm (List.range n)

section

variable {n : ℕ} {c : Clock} {L : Ledger}

theorem Job.Before.le {j k : Job} (h : j.Before k) : j.due ≤ k.due :=
  h.elim le_of_lt fun h => h.1.le

theorem sorted_of_order {l : List Job} (h : l.Pairwise Job.Before) : timed.Sorted (l.map Job.entry) :=
  pairwise_map.2 (h.imp fun h => h.le)

theorem Agrees.addrs (h : Agrees n c L) : c.calltodo.map Callout.addr = L.pending.map Job.addr := by
  rw [h.todo, Timed.map_deltas Callout.addr fun _ _ => rfl, map_map]
  rfl

theorem Agrees.lt (h : Agrees n c L) : ∀ e ∈ c.calltodo, e.cTime < 2 ^ 31 := by
  have hfit : Fits 0 (timed.deltas L.now (L.pending.map Job.entry)) := by
    refine fits_deltas (fun e he => ?_) (by decide)
    obtain ⟨j, hj, rfl⟩ := mem_map.1 he
    have := (h.near j hj).2
    simp only [Job.entry]
    omega
  rw [h.todo]
  exact hfit.lt (le_refl 0)

/-- The queue is a delta queue: the sum of the positive times up to an entry is its time still to
run. -/
theorem Agrees.waits (h : Agrees n c L) :
    c.waits = L.pending.map fun j => (j.func, j.arg, max 0 (j.due - L.now)) := by
  rw [Clock.waits, h.todo, Timed.waits_deltas (sorted_of_order h.order) (by simp) (le_refl 0),
    map_map, map_map]
  refine map_congr_left fun j _ => ?_
  simp [Job.entry]

/-- In a queue in order, the requests behind those due before `x` are due at `x` or later. -/
theorem le_of_mem_dropWhile {l : List Job} (h : l.Pairwise Job.Before) {x : ℤ} {j : Job}
    (hj : j ∈ l.dropWhile fun j => j.due < x) : x ≤ j.due := by
  induction l with
  | nil => simp at hj
  | cons k l ih =>
    obtain ⟨hk, h⟩ := pairwise_cons.1 h
    by_cases hlt : k.due < x
    · rw [dropWhile_cons_of_pos (by simpa using hlt)] at hj
      exact ih h hj
    · rw [dropWhile_cons_of_neg (by simpa using hlt)] at hj
      obtain rfl | hj := mem_cons.1 hj
      · omega
      · have := (hk j hj).le
        omega

theorem Agrees.timeout (h : Agrees n c L) {fun_ arg : ℕ} {t : ℤ}
    (hen : (Op.timeout fun_ arg t).Enabled) (hfree : c.callfree ≠ []) :
    ∃ c', c.step (.timeout fun_ arg t) = some (.done, c') ∧
      Agrees n c' (L.step (c.callfree.headD 0) (.timeout fun_ arg t)).2 := by
  obtain ⟨hlo, hhi⟩ := hen
  obtain ⟨a, callfree, hcf⟩ := exists_cons_of_ne_nil hfree
  have ht : (if (if t = 0 then 1 else t) < 0 then 1 else if t = 0 then 1 else t) = max 1 t := by
    split_ifs <;> omega
  let pending := L.pending.takeWhile (fun j => j.due < L.now + max 1 t) ++
    ⟨L.serials, a, fun_, arg, L.now + max 1 t⟩ ::
      L.pending.dropWhile fun j => j.due < L.now + max 1 t
  have hlink : timeoutLink ⟨a, 0, arg, fun_⟩ (max 1 t) c.calltodo =
      timed.deltas L.now (pending.map Job.entry) := by
    rw [timeoutLink_eq _ (by omega) (by omega) h.lt, h.todo, Timed.insert_deltas _ (by omega),
      map_append, map_cons, takeWhile_map, dropWhile_map]
    rfl
  refine ⟨⟨timed.deltas L.now (pending.map Job.entry), callfree⟩, ?_, ?_⟩
  · simp only [Clock.step, Callouts.timeout, hcf, ht, hlink]
    rfl
  · rw [hcf]
    have hsplit := takeWhile_append_dropWhile (p := fun j : Job => j.due < L.now + max 1 t)
      (l := L.pending)
    have hord := h.order
    rw [← hsplit, pairwise_append] at hord
    constructor
    · rfl
    · intro j hj
      simp only [Ledger.step, mem_append, mem_cons] at hj ⊢
      obtain hj | rfl | hj := hj
      · exact h.near j ((takeWhile_sublist _).subset hj)
      · simp only
        omega
      · exact h.near j ((dropWhile_sublist _).subset hj)
    · simp only [Ledger.step]
      refine pairwise_append.2 ⟨hord.1, pairwise_cons.2 ⟨fun j hj => ?_, hord.2.1⟩,
        fun j hj k hk => ?_⟩
      · have hle := le_of_mem_dropWhile h.order hj
        have := h.fresh j ((dropWhile_sublist _).subset hj)
        exact hle.lt_or_eq.imp id fun heq => ⟨heq, this⟩
      · obtain rfl | hk := mem_cons.1 hk
        · exact .inl (by simpa using mem_takeWhile_imp hj)
        · exact hord.2.2 j hj k hk
    · intro j hj
      simp only [Ledger.step, mem_append, mem_cons] at hj ⊢
      obtain hj | rfl | hj := hj
      · exact Nat.lt_succ_of_lt (h.fresh j ((takeWhile_sublist _).subset hj))
      · exact Nat.lt_succ_self _
      · exact Nat.lt_succ_of_lt (h.fresh j ((dropWhile_sublist _).subset hj))
    · have htab := h.table
      rw [h.addrs, hcf, ← hsplit, map_append, append_assoc] at htab
      refine List.Perm.trans ?_ htab
      simp only
      rw [Timed.map_deltas Callout.addr fun _ _ => rfl, map_map, map_append,
        append_assoc]
      refine List.Perm.append_left _ ?_
      rw [map_cons, cons_append]
      exact perm_middle.symm

/-- Dropping a request from the ledger and its structure from the queue. -/
theorem Agrees.drop (h : Agrees n c L) {pre post : List Job} {j : Job}
    (hp : L.pending = pre ++ j :: post) {L' : Ledger} (hL : L'.pending = pre ++ post)
    (hnow : L'.now = L.now) (hser : L'.serials = L.serials) :
    Agrees n ⟨timed.deltas L.now ((pre ++ post).map Job.entry), j.addr :: c.callfree⟩ L' := by
  have hsub : (pre ++ post).Sublist L.pending := by
    rw [hp]
    exact List.Sublist.append_left (sublist_cons_self _ _) _
  refine ⟨by rw [hL, hnow], ?_, ?_, ?_, ?_⟩
  · rw [hL, hnow]
    exact fun k hk => h.near k (hsub.subset hk)
  · rw [hL]
    exact h.order.sublist hsub
  · rw [hL, hser]
    exact fun k hk => h.fresh k (hsub.subset hk)
  · refine List.Perm.trans ?_ h.table
    simp only
    rw [h.addrs, hp, Timed.map_deltas Callout.addr fun _ _ => rfl, map_map, map_append,
      map_append, map_cons, append_assoc, append_assoc]
    refine List.Perm.append_left _ ?_
    exact perm_middle

theorem Agrees.findTimeout (h : Agrees n c L) (fun_ arg : ℕ) (removeflag : Bool) (a : ℕ) :
    ∃ c', c.step (.findTimeout fun_ arg removeflag) =
        some ((L.step a (.findTimeout fun_ arg removeflag)).1, c') ∧
      Agrees n c' (L.step a (.findTimeout fun_ arg removeflag)).2 := by
  cases hfind : L.pending.find? (fun j => j.Is fun_ arg) with
  | none =>
    have hnone : findLoop fun_ arg removeflag 0 c.calltodo = none := by
      refine findLoop_none (fun e he => ?_) _ _
      rw [h.todo] at he
      obtain ⟨f, hf, t, rfl⟩ := Timed.mem_deltas he
      obtain ⟨j, hj, rfl⟩ := mem_map.1 hf
      have hnot : ¬j.Is fun_ arg := by simpa using find?_eq_none.1 hfind j hj
      exact hnot
    refine ⟨c, ?_, ?_⟩
    · simp only [Clock.step, Callouts.findTimeout, hnone, Ledger.step, hfind]
    · simpa only [Ledger.step, hfind] using h
  | some j =>
    obtain ⟨hj, pre, post, hp, hpre⟩ := find?_eq_some_iff_append.1 hfind
    have hmap : L.pending.map Job.entry = pre.map Job.entry ++ j.entry :: post.map Job.entry := by
      rw [hp, map_append, map_cons]
    have hmem : ∀ f ∈ pre.map Job.entry ++ j.entry :: post.map Job.entry,
        ∃ k ∈ L.pending, f.cTime = k.due := by
      intro f hf
      rw [← hmap] at hf
      obtain ⟨k, hk, rfl⟩ := mem_map.1 hf
      exact ⟨k, hk, rfl⟩
    obtain ⟨t, hloop⟩ := @findLoop_deltas (pre.map Job.entry) (post.map Job.entry) j.entry L.now 0
      fun_ arg removeflag (by rw [← hmap]; exact sorted_of_order h.order)
      (fun f hf => by obtain ⟨k, hk, hfk⟩ := hmem f hf; have := (h.near k hk).2; omega)
      (fun f hf => by obtain ⟨k, hk, hfk⟩ := hmem f hf; have := (h.near k hk).1; omega)
      (by simp) (le_refl 0)
      (fun f hf => by
        obtain ⟨k, hk, rfl⟩ := mem_map.1 hf
        have := hpre k hk
        simp only [Bool.not_eq_true', decide_eq_false_iff_not] at this
        exact this)
      (of_decide_eq_true hj : j.Is fun_ arg)
    rw [← hmap, ← h.todo, sub_zero] at hloop
    have herase : L.pending.erase j = pre ++ post := by
      have hnot : j ∉ pre := fun hmem => by simpa [hj] using hpre j hmem
      rw [hp, erase_append_right _ hnot, erase_cons_head]
    cases removeflag with
    | false =>
      refine ⟨c, ?_, ?_⟩
      · have htodo : timed.deltas L.now (pre.map Job.entry ++ j.entry :: post.map Job.entry) =
            c.calltodo := by rw [← hmap, h.todo]
        simp only [Bool.false_eq_true, if_false, htodo] at hloop
        simp only [Clock.step, Callouts.findTimeout, hloop, Ledger.step, hfind, Bool.false_eq_true,
          if_false, Job.entry]
      · simpa only [Ledger.step, hfind, Bool.false_eq_true, if_false] using h
    | true =>
      refine ⟨_, ?_, @Agrees.drop _ _ _ h _ _ j hp (L.step a (.findTimeout fun_ arg true)).2 ?_ ?_ ?_⟩
      · simp only [Clock.step, Callouts.findTimeout, hloop, Ledger.step, hfind, if_true,
          map_append]
        rfl
      · simp only [Ledger.step, hfind, if_true, herase]
      · simp only [Ledger.step, hfind, if_true]
      · simp only [Ledger.step, hfind, if_true]

theorem Agrees.hardclock (h : Agrees n c L) {ticks : ℤ} (hen : (Op.hardclock ticks).Enabled)
    (hcare : c.Careful (.hardclock ticks)) (a : ℕ) :
    ∃ c', c.step (.hardclock ticks) = some (.done, c') ∧
      Agrees n c' (L.step a (.hardclock ticks)).2 := by
  obtain ⟨hlo, hhi⟩ := hen
  have hage : hardclockAge ticks c.calltodo =
      timed.deltas (L.now + ticks) (L.pending.map Job.entry) := by
    rw [hardclockAge_eq (by omega) hhi h.lt hcare, h.todo, Timed.age_deltas (by omega)]
  refine ⟨_, rfl, ?_, ?_, h.order, h.fresh, ?_⟩
  · simp only [Callouts.hardclock, Ledger.step, hage]
  · intro j hj
    have hj : j ∈ L.pending := hj
    have hj' := h.near j hj
    refine ⟨?_, by simp only [Ledger.step]; omega⟩
    -- the first entry is the one that is overdue most
    obtain ⟨k, rest, hp⟩ := exists_cons_of_ne_nil (ne_nil_of_mem hj)
    have hk : -2 ^ 31 ≤ (k.due - L.now) - ticks := by
      refine hcare { k.entry with cTime := k.due - L.now } ?_
      rw [h.todo, hp, map_cons, Timed.deltas_cons]
      simp [Job.entry]
    have hle : k.due ≤ j.due := by
      have hord := h.order
      rw [hp] at hord hj
      obtain rfl | hj := mem_cons.1 hj
      · exact le_refl _
      · exact ((pairwise_cons.1 hord).1 j hj).le
    simp only [Ledger.step]
    omega
  · refine List.Perm.trans (List.Perm.of_eq ?_) h.table
    rw [h.addrs]
    simp only [Callouts.hardclock, hage]
    rw [Timed.map_deltas Callout.addr fun _ _ => rfl, map_map]
    rfl

theorem Agrees.softclock (h : Agrees n c L) (a : ℕ) :
    ∃ c', c.step .softclock = some ((L.step a .softclock).1, c') ∧
      Agrees n c' (L.step a .softclock).2 := by
  cases hp : L.pending with
  | nil =>
    have htodo : c.calltodo = [] := by rw [h.todo, hp]; rfl
    have hstep : L.step a .softclock = (.idle, { L with drained := L.now }) := by
      simp only [Ledger.step, hp]
    rw [hstep]
    refine ⟨c, ?_, h.todo, h.near, h.order, h.fresh, h.table⟩
    simp only [Clock.step, softclockNext, htodo]
  | cons j rest =>
    have htodo : c.calltodo = { j.entry with cTime := j.due - L.now } ::
        timed.deltas (max L.now j.due) (rest.map Job.entry) := by
      rw [h.todo, hp, map_cons, Timed.deltas_cons]
      rfl
    by_cases hdue : j.due ≤ L.now
    · refine ⟨_, ?_, @Agrees.drop _ _ _ h [] rest j hp (L.step a .softclock).2 ?_ ?_ ?_⟩
      · simp only [Clock.step, softclockNext, htodo, Ledger.step, hp]
        rw [if_neg (by omega), if_pos hdue, max_eq_left hdue]
        rfl
      · simp only [Ledger.step, hp, if_pos hdue, nil_append]
      · simp only [Ledger.step, hp, if_pos hdue]
      · simp only [Ledger.step, hp, if_pos hdue]
    · have hstep : L.step a .softclock = (.idle, { L with drained := L.now }) := by
        simp only [Ledger.step, hp, if_neg hdue]
      rw [hstep]
      refine ⟨c, ?_, h.todo, h.near, h.order, h.fresh, h.table⟩
      simp only [Clock.step, softclockNext, htodo]
      rw [if_pos (by omega)]

theorem Agrees.step (h : Agrees n c L) {op : Op} (hen : op.Enabled) (hcare : c.Careful op)
    (hfree : ∀ f a t, op = .timeout f a t → c.callfree ≠ []) :
    ∃ c', c.step op = some ((L.step (c.callfree.headD 0) op).1, c') ∧
      Agrees n c' (L.step (c.callfree.headD 0) op).2 := by
  cases op with
  | timeout fun_ arg t => exact h.timeout hen (hfree _ _ _ rfl)
  | findTimeout fun_ arg removeflag => exact h.findTimeout fun_ arg removeflag _
  | hardclock ticks => exact h.hardclock hen hcare _
  | softclock => exact h.softclock _

theorem agrees_init (n : ℕ) : Agrees n ⟨[], List.range n⟩ ⟨0, 0, 0, [], [], []⟩ :=
  ⟨rfl, by simp, .nil, by simp, .refl _⟩

/-! ### The history -/

/-- What became of the requests. -/
structure History (L : Ledger) : Prop where
  /-- The calls were made in the order of the deadlines, of equal ones the latest request first. -/
  order : L.called.Pairwise fun k l => k.job.Before l.job
  /-- Every call was made before those of the requests that wait. -/
  before : ∀ k ∈ L.called, ∀ j ∈ L.pending, k.job.Before j
  /-- No call was early, and none was left over by a `softclock` that ran after its deadline. -/
  late : ∀ k ∈ L.called, k.job.due ≤ k.time ∧ k.drained < k.job.due ∧ k.time ≤ L.now
  /-- A `softclock` that ran to its end left no request that was due. -/
  undrained : L.drained ≤ L.now ∧ ∀ j ∈ L.pending, L.drained < j.due
  /-- Every request waits, was called once, or was removed. -/
  serials : (L.pending.map Job.serial ++ L.called.map (fun k => k.job.serial) ++
    L.removed.map Job.serial).Perm (List.range L.serials)

theorem History.step {op : Op} (h : History L) (hord : L.pending.Pairwise Job.Before) (a : ℕ)
    (hen : op.Enabled) : History (L.step a op).2 := by
  obtain ⟨horder, hbefore, hlate, ⟨hdr, hdr'⟩, hser⟩ := h
  cases op with
  | timeout fun_ arg t =>
    have hmem : ∀ j ∈ (L.step a (.timeout fun_ arg t)).2.pending, j ∈ L.pending ∨ L.now < j.due := by
      intro j hj
      simp only [Ledger.step, mem_append, mem_cons] at hj
      obtain hj | rfl | hj := hj
      · exact .inl ((takeWhile_sublist _).subset hj)
      · exact .inr (by simp only; omega)
      · exact .inl ((dropWhile_sublist _).subset hj)
    refine ⟨horder, fun k hk j hj => ?_, hlate, ⟨hdr, fun j hj => ?_⟩, ?_⟩
    · obtain hj | hj := hmem j hj
      · exact hbefore k hk j hj
      · have := hlate k hk
        exact .inl (by omega)
    · obtain hj | hj := hmem j hj
      · exact hdr' j hj
      · exact lt_of_le_of_lt hdr hj
    · have hsplit := takeWhile_append_dropWhile (p := fun j : Job => j.due < L.now + max 1 t)
        (l := L.pending)
      rw [← hsplit] at hser
      rw [perm_iff_count] at hser ⊢
      intro x
      have := hser x
      simp only [Ledger.step, map_append, map_cons, count_append, count_cons,
        range_succ, count_nil] at this ⊢
      omega
  | findTimeout fun_ arg removeflag =>
    cases hfind : L.pending.find? (fun j => j.Is fun_ arg) with
    | none =>
      have hstep : L.step a (.findTimeout fun_ arg removeflag) = (.hzleft (-1), L) := by
        simp only [Ledger.step, hfind]
      rw [hstep]
      exact ⟨horder, hbefore, hlate, ⟨hdr, hdr'⟩, hser⟩
    | some j =>
      cases removeflag with
      | false =>
        have hstep : (L.step a (.findTimeout fun_ arg false)).2 = L := by
          simp only [Ledger.step, hfind, Bool.false_eq_true, if_false]
        rw [hstep]
        exact ⟨horder, hbefore, hlate, ⟨hdr, hdr'⟩, hser⟩
      | true =>
        have hstep : (L.step a (.findTimeout fun_ arg true)).2 =
            { L with pending := L.pending.erase j, removed := L.removed ++ [j] } := by
          simp only [Ledger.step, hfind, if_true]
        have hj : j ∈ L.pending := mem_of_find?_eq_some hfind
        rw [hstep]
        refine ⟨horder, fun k hk i hi => hbefore k hk i (mem_of_mem_erase hi), hlate,
          ⟨hdr, fun i hi => hdr' i (mem_of_mem_erase hi)⟩, ?_⟩
        have hperm := ((perm_cons_erase hj).map Job.serial)
        rw [perm_iff_count] at hser hperm ⊢
        intro x
        have h1 := hser x
        have h2 := hperm x
        simp only [map_append, map_cons, map_nil, count_append, count_cons,
          count_nil] at h1 h2 ⊢
        omega
  | hardclock ticks =>
    obtain ⟨hlo, hhi⟩ := hen
    refine ⟨horder, hbefore, fun k hk => ?_, ⟨?_, hdr'⟩, hser⟩
    · obtain ⟨h1, h2, h3⟩ := hlate k hk
      exact ⟨h1, h2, by simp only [Ledger.step]; omega⟩
    · simp only [Ledger.step]
      omega
  | softclock =>
    cases hp : L.pending with
    | nil =>
      have hstep : (L.step a .softclock).2 = { L with drained := L.now } := by
        simp only [Ledger.step, hp]
      rw [hstep]
      exact ⟨horder, hbefore, hlate, ⟨le_refl _, by simp [hp]⟩, hser⟩
    | cons j rest =>
      by_cases hdue : j.due ≤ L.now
      · have hstep : (L.step a .softclock).2 =
            { L with pending := rest, called := L.called ++ [⟨j, L.now, L.drained⟩] } := by
          simp only [Ledger.step, hp, if_pos hdue]
        rw [hp] at hord hbefore hdr' hser
        obtain ⟨hj, -⟩ := pairwise_cons.1 hord
        rw [hstep]
        refine ⟨pairwise_append.2 ⟨horder, pairwise_singleton _ _, fun k hk l hl => ?_⟩,
          fun k hk i hi => ?_, fun k hk => ?_, ⟨hdr, fun i hi => hdr' i (by simp [hi])⟩, ?_⟩
        · obtain rfl := mem_singleton.1 hl
          exact hbefore k hk j (by simp)
        · obtain hk | hk := mem_append.1 hk
          · exact hbefore k hk i (by simp [hi])
          · obtain rfl := mem_singleton.1 hk
            exact hj i hi
        · obtain hk | hk := mem_append.1 hk
          · exact hlate k hk
          · obtain rfl := mem_singleton.1 hk
            exact ⟨hdue, hdr' j (by simp), le_refl _⟩
        · rw [perm_iff_count] at hser ⊢
          intro x
          have := hser x
          simp only [map_append, map_cons, map_nil, count_append,
            count_cons, count_nil] at this ⊢
          omega
      · have hstep : (L.step a .softclock).2 = { L with drained := L.now } := by
          simp only [Ledger.step, hp, if_neg hdue]
        rw [hstep]
        refine ⟨horder, hbefore, hlate, ⟨le_refl _, fun i hi => ?_⟩, hser⟩
        rw [hp] at hord hi
        obtain rfl | hi := mem_cons.1 hi
        · exact not_le.1 hdue
        · exact lt_of_lt_of_le (not_le.1 hdue) ((pairwise_cons.1 hord).1 i hi).le

theorem reach_inv (h : ((calloutSys n).restrict fun s op => s.1.Careful op).Reach (c, L)) :
    Agrees n c L ∧ History L := by
  refine h.inv (I := fun s => Agrees n s.1 s.2 ∧ History s.2) ?_ ?_
  · rintro _ rfl
    exact ⟨agrees_init n, ⟨.nil, by simp, by simp, ⟨le_refl _, by simp⟩, by simp⟩⟩
  · rintro ⟨c, L⟩ op ⟨c', L'⟩ - ⟨hag, hhist⟩ ⟨hcare, hen, out, hrun, hL⟩
    have hfree : ∀ f a t, op = .timeout f a t → c.callfree ≠ [] := by
      rintro f a t rfl hnil
      simp [Clock.step, timeout, hnil] at hrun
    obtain ⟨c₁, hrun₁, hag₁⟩ := hag.step hen hcare hfree
    obtain ⟨-, rfl⟩ := Prod.mk.inj (Option.some.inj (hrun₁.symm.trans hrun))
    simp only at hL
    rw [hL]
    exact ⟨hag₁, hhist.step hag.order _ hen⟩

/-- In every run in which no entry becomes overdue by more than `2 ^ 31` ticks:

* the queue is a delta queue of the requests that wait, in the order of their deadlines, and each
  structure of the table is on exactly one of `calltodo` and `callfree`;
* every request waits, was called once or was removed; the calls were made in the order of the
  deadlines, and of equal ones the latest request first; none was made before its deadline, or
  left over by a `softclock` that ran to its end after it;
* an operation that finds a free structure does not panic, gives the answer of the ledger, and
  leaves the queue of the requests that the ledger then holds. -/
theorem callout_queue_refines_ledger
    (h : ((calloutSys n).restrict fun s op => s.1.Careful op).Reach (c, L)) :
    (c.waits = L.pending.map (fun j => (j.func, j.arg, max 0 (j.due - L.now))) ∧
      L.pending.Pairwise Job.Before ∧
      (c.calltodo.map Callout.addr ++ c.callfree).Perm (List.range n)) ∧
    History L ∧
    ∀ op : Op, op.Enabled → c.Careful op → (∀ f a t, op = .timeout f a t → c.callfree ≠ []) →
      let L' := (L.step (c.callfree.headD 0) op).2
      ∃ c', c.step op = some ((L.step (c.callfree.headD 0) op).1, c') ∧
        c'.waits = L'.pending.map fun j => (j.func, j.arg, max 0 (j.due - L'.now)) := by
  obtain ⟨hag, hhist⟩ := reach_inv h
  refine ⟨⟨hag.waits, hag.order, hag.table⟩, hhist, fun op hen hcare hfree => ?_⟩
  obtain ⟨c', hrun, hag'⟩ := hag.step hen hcare hfree
  exact ⟨c', hrun, hag'.waits⟩

end

/-- A request of 5 ticks, of which 2 pass. -/
theorem callout_queue_refines_ledger_one : ∃ c', (⟨[⟨0, 5, 7, 3⟩], [1]⟩ : Clock).step (.hardclock 2) =
    some (.done, c') ∧ c'.waits = [(3, 7, 3)] := by
  have h : ((calloutSys 2).restrict fun s op => s.1.Careful op).Reach
      (⟨[⟨0, 5, 7, 3⟩], [1]⟩, ⟨0, 1, 0, [⟨0, 0, 3, 7, 5⟩], [], []⟩) :=
    .step (l := .timeout 3 7 5) (.init rfl) ⟨trivial, ⟨by decide, by decide⟩, .done, rfl, rfl⟩
  obtain ⟨-, -, hstep⟩ := callout_queue_refines_ledger h
  refine hstep (.hardclock 2) ⟨by decide, by decide⟩ ?_ (by simp)
  intro e he
  obtain rfl := List.mem_singleton.1 he
  decide

/-- Two requests of 5 ticks are called in the reverse of the order in which they were made; and an
entry that is overdue by more than `2 ^ 31` ticks looks as if it had time left. -/
theorem callout_order_reversed :
    (∃ c L j k, (calloutSys 2).Reach (c, L) ∧ L.called.map Called.job = [k, j] ∧ j.due = k.due ∧
      j.serial < k.serial) ∧
    ∃ c L j, (calloutSys 1).Reach (c, L) ∧ L.pending = [j] ∧ j.due < L.now ∧
      c.step .softclock = some (.idle, c) := by
  constructor
  · have h₁ : (calloutSys 2).Reach
        (⟨[⟨0, 5, 7, 3⟩], [1]⟩, ⟨0, 1, 0, [⟨0, 0, 3, 7, 5⟩], [], []⟩) :=
      .step (l := .timeout 3 7 5) (.init rfl) ⟨⟨by decide, by decide⟩, .done, rfl, rfl⟩
    have h₂ : (calloutSys 2).Reach (⟨[⟨1, 5, 8, 3⟩, ⟨0, 0, 7, 3⟩], []⟩,
        ⟨0, 2, 0, [⟨1, 1, 3, 8, 5⟩, ⟨0, 0, 3, 7, 5⟩], [], []⟩) :=
      .step (l := .timeout 3 8 5) h₁ ⟨⟨by decide, by decide⟩, .done, rfl, rfl⟩
    have h₃ : (calloutSys 2).Reach (⟨[⟨1, 0, 8, 3⟩, ⟨0, 0, 7, 3⟩], []⟩,
        ⟨5, 2, 0, [⟨1, 1, 3, 8, 5⟩, ⟨0, 0, 3, 7, 5⟩], [], []⟩) :=
      .step (l := .hardclock 5) h₂ ⟨⟨by decide, by decide⟩, .done, rfl, rfl⟩
    have h₄ : (calloutSys 2).Reach (⟨[⟨0, 0, 7, 3⟩], [1]⟩,
        ⟨5, 2, 0, [⟨0, 0, 3, 7, 5⟩], [⟨⟨1, 1, 3, 8, 5⟩, 5, 0⟩], []⟩) :=
      .step (l := .softclock) h₃ ⟨trivial, .call 3 8 0, rfl, rfl⟩
    have h₅ : (calloutSys 2).Reach (⟨[], [0, 1]⟩,
        ⟨5, 2, 0, [], [⟨⟨1, 1, 3, 8, 5⟩, 5, 0⟩, ⟨⟨0, 0, 3, 7, 5⟩, 5, 0⟩], []⟩) :=
      .step (l := .softclock) h₄ ⟨trivial, .call 3 7 0, rfl, rfl⟩
    exact ⟨_, _, ⟨0, 0, 3, 7, 5⟩, ⟨1, 1, 3, 8, 5⟩, h₅, rfl, rfl, by decide⟩
  · have h₁ : (calloutSys 1).Reach
        (⟨[⟨0, 1, 7, 3⟩], []⟩, ⟨0, 1, 0, [⟨0, 0, 3, 7, 1⟩], [], []⟩) :=
      .step (l := .timeout 3 7 1) (.init rfl) ⟨⟨by decide, by decide⟩, .done, rfl, rfl⟩
    have h₂ : (calloutSys 1).Reach (⟨[⟨0, 2 - 2 ^ 31, 7, 3⟩], []⟩,
        ⟨2 ^ 31 - 1, 1, 0, [⟨0, 0, 3, 7, 1⟩], [], []⟩) :=
      .step (l := .hardclock (2 ^ 31 - 1)) h₁ ⟨⟨by decide, by decide⟩, .done, rfl, rfl⟩
    have h₃ : (calloutSys 1).Reach (⟨[⟨0, 3, 7, 3⟩], []⟩,
        ⟨2 ^ 32 - 2, 1, 0, [⟨0, 0, 3, 7, 1⟩], [], []⟩) :=
      .step (l := .hardclock (2 ^ 31 - 1)) h₂ ⟨⟨by decide, by decide⟩, .done, rfl, rfl⟩
    exact ⟨_, _, ⟨0, 0, 3, 7, 1⟩, h₃, rfl, by decide, rfl⟩

end Callouts

end Hpux
