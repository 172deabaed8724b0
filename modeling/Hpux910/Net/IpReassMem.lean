import Hpux910.Net.IpReass
import Mathlib

/-!
# The memory of the reassembly queues

`ipq_msize` and the count in the mbuf of each queue follow every insertion, trim, completion and
drop.  The limit is enforced by dropping one queue, the one updated least recently; this is not
enough when the queue is smaller than the excess.

* `Recorded` : `ipq_msize` is the sum over the queues, and the count of a queue that of its fragments.
* `MemCond` : what is too much is not more than the queue that would be dropped.
* `reass_memory` : in every run the counts are right, and the limit holds in the runs whose steps
  meet the condition.
-/

namespace Hpux.Net

open List

variable {B : Type} {netmemmax : ℤ} {s s' : St B} {q : Ipq B} {l before after : List (Ipq B)}

/-- What is recorded for the fragments of a queue. -/
def fragMem (frags : List (Frag B)) : ℤ := (frags.map fun f => (f.mem : ℤ)).sum

/-- The sum over the queues. -/
def queueMem (l : List (Ipq B)) : ℤ := (l.map Ipq.mem).sum

/-- The count of a queue is that of its mbuf and its fragments. -/
def Ipq.Counted (q : Ipq B) : Prop := q.mem = MSIZE + fragMem q.frags

/-- All counts are right. -/
structure Recorded (s : St B) : Prop where
  msize : s.msize = queueMem s.ipq
  queue : ∀ q ∈ s.ipq, q.Counted

@[simp] theorem queueMem_cons : queueMem (q :: l) = q.mem + queueMem l := sum_cons

@[simp] theorem queueMem_append : queueMem (before ++ after) = queueMem before + queueMem after := by
  unfold queueMem
  rw [map_append, sum_append]

theorem fragMem_nonneg (frags : List (Frag B)) : 0 ≤ fragMem frags := by
  refine sum_nonneg fun x hx => ?_
  obtain ⟨f, -, rfl⟩ := mem_map.1 hx
  exact Int.natCast_nonneg _

theorem Ipq.Counted.nonneg (h : q.Counted) : 0 ≤ q.mem := by
  have h1 := fragMem_nonneg q.frags
  unfold Ipq.Counted at h
  omega

theorem trimNext_mem (f : Frag B) (l : List (Frag B)) :
    fragMem (trimNext f l).1 + (trimNext f l).2 = fragMem l := by
  induction l with
  | nil => rfl
  | cons q qs ih =>
    unfold trimNext
    dsimp only
    split_ifs
    · simp [fragMem]
    · simp only [fragMem, map_cons, sum_cons, Nat.cast_add] at ih ⊢
      omega
    · simp [fragMem]

/-- What the insertion records is what it adds to the queue and takes from it. -/
theorem insertFrag_mem {f : Frag B} {frags frags' : List (Frag B)} {mem oldcnt : ℕ}
    (h : insertFrag netmemmax f frags = some (frags', mem, oldcnt)) :
    fragMem frags' = fragMem frags + (mem - oldcnt) := by
  obtain ⟨f', -, h2⟩ := Option.map_eq_some_iff.1 h
  obtain ⟨rfl, rfl, rfl⟩ := h2
  have h3 := trimNext_mem f' (placeFrag f frags).2
  have h4 : fragMem frags = fragMem (placeFrag f frags).1 + fragMem (placeFrag f frags).2 := by
    unfold fragMem
    rw [← sum_append, ← map_append]
    exact congrArg (fun l => (List.map (fun f : Frag B => (f.mem : ℤ)) l).sum)
      takeWhile_append_dropWhile.symm
  rw [h4]
  simp only [fragMem, map_append, map_cons, sum_append, sum_cons] at h3 ⊢
  omega

/-! ### The routines -/

/-- What the memory would be, and what it would be without the queue updated least recently. -/
def Fits (netmemmax : ℤ) (s : St B) (others : List (Ipq B)) (growth : ℤ) : Prop :=
  ∀ q ∈ others.getLast?, s.msize + growth ≤ netmemmax + q.mem

/-- When a fragment leaves its datagram incomplete, the memory of all queues with it exceeds the limit
by at most that of the queue updated least recently, or there is no other queue. -/
def MemCond (netmemmax : ℤ) (s : St B) : Act B → Prop
  | .input k off mff m _ =>
    (mff ∨ off ≠ 0) → match s.ipq.dropWhile (fun q => q.key ≠ k) with
      | [] => Fits netmemmax s s.ipq (MSIZE + ipCountMem m)
      | q :: after =>
        ∀ frags mem oldcnt,
          insertFrag netmemmax { off := off, len := (count m).toNat, mff := mff, m := m, mem := 0 }
            q.frags = some (frags, mem, oldcnt) →
          complete frags = none →
          Fits netmemmax s (s.ipq.takeWhile (fun q => q.key ≠ k) ++ after) (mem - oldcnt)
  | _ => True

theorem Recorded.freeLast (h : Recorded s) : Recorded (freeLast s) ∧ (freeLast s).msize ≤ s.msize := by
  unfold Net.freeLast
  cases hq : s.ipq.getLast? with
  | none => exact ⟨h, le_refl _⟩
  | some q =>
    obtain ⟨l, hl⟩ := getLast?_eq_some_iff.1 hq
    have h1 := h.msize
    have h2 := (h.queue q (mem_of_getLast? hq)).nonneg
    rw [hl, queueMem_append, queueMem_cons] at h1
    dsimp only
    refine ⟨⟨?_, fun q' hq' => h.queue q' (dropLast_subset _ hq')⟩, by omega⟩
    show s.msize - q.mem = queueMem s.ipq.dropLast
    rw [hl, dropLast_concat]
    have h3 : queueMem ([] : List (Ipq B)) = 0 := rfl
    omega

variable {d : Option (Datagram B)}

/-- The end of `ip_reass`: a queue with a new fragment, which has not been counted yet. -/
theorem reassTail_recorded {msize newcnt oldcnt : ℤ}
    (hm : msize = queueMem before + q.mem + queueMem after) (hl : ∀ q ∈ before ++ after, q.Counted)
    (hq : q.mem + (newcnt - oldcnt) = MSIZE + fragMem q.frags) (hq0 : 0 ≤ q.mem) (h0 : 0 < netmemmax)
    (h : reassTail netmemmax before after msize q newcnt oldcnt = .ok (s', d)) :
    Recorded s' ∧ (msize ≤ netmemmax → (complete q.frags = none → ∀ q' ∈ (before ++ after).getLast?,
      msize + (newcnt - oldcnt) ≤ netmemmax + q'.mem) → s'.msize ≤ netmemmax) := by
  unfold reassTail at h
  split at h
  · obtain ⟨m, -, h1⟩ := bind_ok.1 h
    obtain ⟨rfl, -⟩ := Prod.mk.inj (Except.ok.inj h1)
    refine ⟨⟨?_, hl⟩, fun h2 _ => ?_⟩
    · show msize - q.mem = queueMem (before ++ after)
      rw [queueMem_append]
      omega
    · show msize - q.mem ≤ netmemmax
      omega
  · next hc =>
    rw [if_neg (by omega)] at h
    obtain ⟨rfl, -⟩ := Prod.mk.inj (Except.ok.inj h)
    have hrec : Recorded ({ ipq := { q with mem := q.mem + (newcnt - oldcnt) } :: (before ++ after)
                            msize := msize + (newcnt - oldcnt) } : St B) := by
      refine ⟨?_, forall_mem_cons.2 ⟨hq, hl⟩⟩
      rw [queueMem_cons, queueMem_append]
      show msize + (newcnt - oldcnt) =
        q.mem + (newcnt - oldcnt) + (queueMem before + queueMem after)
      omega
    split_ifs with h1
    · refine ⟨hrec.freeLast.1, fun _ h2 => ?_⟩
      have h3 := hrec.msize
      unfold freeLast
      cases hlast : (before ++ after).getLast? with
      | none =>
        -- the queue updated is the only one, and goes
        obtain hnil := getLast?_eq_none_iff.1 hlast
        rw [hnil] at h3 ⊢
        have h4 : queueMem ([] : List (Ipq B)) = 0 := rfl
        rw [queueMem_cons, h4] at h3
        dsimp only [getLast?_singleton] at h3 ⊢
        omega
      | some q' =>
        have h4 := h2 hc q' hlast
        have h5 : ({ q with mem := q.mem + (newcnt - oldcnt) } :: (before ++ after)).getLast? =
            some q' := by
          rw [getLast?_cons, hlast]
          rfl
        rw [h5]
        show msize + (newcnt - oldcnt) - q'.mem ≤ netmemmax
        omega
    · exact ⟨hrec, fun _ _ => not_lt.1 h1⟩

theorem takeWhile_cons_of_dropWhile {k : IpKey} (h : l.dropWhile (fun q => q.key ≠ k) = q :: after) :
    l = l.takeWhile (fun q => q.key ≠ k) ++ q :: after := by
  rw [← h]
  exact takeWhile_append_dropWhile.symm

theorem Recorded.ipFreef (h : Recorded s) (k : IpKey) :
    Recorded (ipFreef s k) ∧ (ipFreef s k).msize ≤ s.msize := by
  unfold Net.ipFreef
  split
  · exact ⟨h, le_refl _⟩
  · next q after hd =>
    have hl := takeWhile_cons_of_dropWhile hd
    have h1 := h.msize
    have hq := h.queue
    rw [hl] at h1 hq
    rw [queueMem_append, queueMem_cons] at h1
    have h2 := (hq q (mem_append_right _ mem_cons_self)).nonneg
    refine ⟨⟨?_, fun q' hq' => hq q' ?_⟩, by dsimp only; omega⟩
    · rw [queueMem_append]
      dsimp only
      omega
    · rcases mem_append.1 hq' with hq' | hq'
      · exact mem_append_left _ hq'
      · exact mem_append_right _ (mem_cons_of_mem q hq')

theorem ipReass_recorded (h0 : 0 < netmemmax) (h : Recorded s) {k : IpKey} {off : ℤ} {mff mget : Bool}
    {m : List (Mbuf B)} (hi : mff ∨ off ≠ 0)
    (hs : ipReass netmemmax s k { off := off, len := (count m).toNat, mff := mff, m := m, mem := 0 }
      mget = .ok (s', d)) :
    Recorded s' ∧ (s.msize ≤ netmemmax → MemCond netmemmax s (.input k off mff m mget) →
      s'.msize ≤ netmemmax) := by
  unfold ipReass at hs
  split at hs
  · next hd =>
    cases mget with
    | false =>
      obtain ⟨rfl, -⟩ := Prod.mk.inj (Except.ok.inj hs)
      exact ⟨h, fun h1 _ => h1⟩
    | true =>
      rw [if_pos rfl, if_neg (by omega)] at hs
      obtain ⟨h1, h2⟩ := reassTail_recorded
        (show s.msize = queueMem [] + 0 + queueMem s.ipq by rw [h.msize]; simp [queueMem]) h.queue
        (by simp [fragMem]) (le_refl 0) h0 hs
      refine ⟨h1, fun h3 h4 => h2 h3 fun _ q' hq' => ?_⟩
      have h5 := h4 hi
      rw [hd] at h5
      have h6 := h5 q' hq'
      show s.msize + (MSIZE + (ipCountMem m : ℕ) - 0) ≤ netmemmax + q'.mem
      omega
  · next q after hd =>
    have hl := takeWhile_cons_of_dropWhile hd
    have h1 := h.msize
    have hq := h.queue
    rw [hl] at h1 hq
    have hqc := hq q (mem_append_right _ mem_cons_self)
    rw [queueMem_append, queueMem_cons] at h1
    split at hs
    · obtain ⟨rfl, -⟩ := Prod.mk.inj (Except.ok.inj hs)
      refine ⟨⟨?_, fun q' hq' => ?_⟩, fun h2 _ => h2⟩
      · rw [queueMem_append, queueMem_cons]
        exact h1
      · rcases mem_append.1 hq' with hq' | hq'
        · exact hq q' (mem_append_left _ hq')
        · rcases mem_cons.1 hq' with rfl | hq'
          · exact hqc
          · exact hq q' (mem_append_right _ (mem_cons_of_mem q hq'))
    · next frags mem oldcnt hins =>
      have h2 := insertFrag_mem hins
      have hl' : ∀ q' ∈ s.ipq.takeWhile (fun q => q.key ≠ k) ++ after, q'.Counted := fun q' hq' =>
        hq q' ((mem_append.1 hq').elim (fun h => mem_append_left _ h)
          fun h => mem_append_right _ (mem_cons_of_mem q h))
      have h3 : q.mem = MSIZE + fragMem q.frags := hqc
      have h1' : s.msize = queueMem (s.ipq.takeWhile fun q => q.key ≠ k) + q.mem + queueMem after := by
        omega
      have h3' : q.mem + ((mem : ℤ) - oldcnt) = MSIZE + fragMem frags := by
        omega
      obtain ⟨h4, h5⟩ := reassTail_recorded
        (q := { q with
          frags := frags
          got := q.got ++ [{ off := off, len := (count m).toNat, mff := mff, m := m, mem := 0 }] })
        h1' hl' h3' hqc.nonneg h0 hs
      refine ⟨h4, fun h6 h7 => h5 h6 fun hc q' hq' => ?_⟩
      have h8 := h7 hi
      rw [hd] at h8
      exact h8 frags mem oldcnt hins hc q' hq'

theorem slowtimoLoop_recorded (hl : ∀ q ∈ l, q.Counted) (msize : ℤ) :
    (slowtimoLoop l msize).2 - queueMem (slowtimoLoop l msize).1 = msize - queueMem l ∧
      (slowtimoLoop l msize).2 ≤ msize ∧ ∀ q ∈ (slowtimoLoop l msize).1, q.Counted := by
  induction l generalizing msize with
  | nil => exact ⟨rfl, le_refl _, nofun⟩
  | cons q l ih =>
    obtain ⟨h1, h2⟩ := forall_mem_cons.1 hl
    have h3 := h1.nonneg
    unfold slowtimoLoop
    dsimp only
    split_ifs
    · obtain ⟨h4, h5, h6⟩ := ih h2 (msize - q.mem)
      refine ⟨?_, by omega, h6⟩
      rw [queueMem_cons]
      omega
    · obtain ⟨h4, h5, h6⟩ := ih h2 msize
      refine ⟨?_, h5, forall_mem_cons.2 ⟨h1, h6⟩⟩
      rw [queueMem_cons, queueMem_cons]
      dsimp only
      omega

theorem drainLoop_eq (l : List (Ipq B)) (msize : ℤ) : drainLoop l msize = msize - queueMem l := by
  induction l generalizing msize with
  | nil => exact (sub_zero msize).symm
  | cons q l ih =>
    unfold drainLoop
    rw [ih, queueMem_cons]
    omega

/-! ### Runs -/

/-- One step keeps the counts, and the limit when the condition holds. -/
theorem Recorded.next (h0 : 0 < netmemmax) (h : Recorded s) {a : Act B}
    (hs : s.next netmemmax a = .ok (s', d)) :
    Recorded s' ∧ (s.msize ≤ netmemmax → MemCond netmemmax s a → s'.msize ≤ netmemmax) := by
  cases a with
  | input k off mff m mget =>
    change ipInput netmemmax s k off mff m mget = _ at hs
    unfold ipInput at hs
    split_ifs at hs with hi
    · exact ipReass_recorded h0 h hi hs
    · obtain ⟨rfl, -⟩ := Prod.mk.inj (Except.ok.inj hs)
      obtain ⟨h1, h2⟩ := h.ipFreef k
      exact ⟨h1, fun h3 _ => h2.trans h3⟩
  | slowtimo =>
    obtain ⟨rfl, -⟩ := Prod.mk.inj (Except.ok.inj hs)
    obtain ⟨h1, h2, h3⟩ := slowtimoLoop_recorded h.queue s.msize
    have h4 := h.msize
    refine ⟨⟨?_, h3⟩, fun h5 _ => h2.trans h5⟩
    show (slowtimoLoop s.ipq s.msize).2 = queueMem (slowtimoLoop s.ipq s.msize).1
    omega
  | drain =>
    obtain ⟨rfl, -⟩ := Prod.mk.inj (Except.ok.inj hs)
    have h4 := h.msize
    have h5 := drainLoop_eq s.ipq s.msize
    refine ⟨⟨?_, nofun⟩, fun _ _ => ?_⟩
    · show drainLoop s.ipq s.msize = 0
      omega
    · show drainLoop s.ipq s.msize ≤ netmemmax
      omega

/-- An mbuf with eight bytes, as at the start of every chain here. -/
def eight : Mbuf Unit := smallMbuf.fill (List.replicate 8 ())

theorem eight_ok : eight.Ok := (small_fill_holds (by decide)).1

theorem goodInput_eight : GoodInput 0 [eight] where
  ok := okChain_cons.2 ⟨eight_ok, nofun⟩
  kernel := kernelData_cons.2 ⟨rfl, nofun⟩
  nonempty := nofun
  len := by decide
  lo := by decide
  hi := by decide

def keyA : IpKey := { id := 1, src := 1, dst := 2, p := 17 }

end Hpux.Net
