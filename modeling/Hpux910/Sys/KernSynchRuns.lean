import Hpux910.Sys.KernSynch
import Mathlib

/-!
# The order of wakeups

The chains are the queues of the sleeping processes by channel, in the order in which they went to
sleep, whatever is stopped, removed and woken meanwhile.  `wakeup` takes exactly the sleepers of its
channel, but it collects them on a list by pushing each in front, and makes them runnable in the
order of that list.

* `Sync.Inv` : the chains, links and tails against `slept`; `Inv.sleep`, `Inv.takeOff`, `Inv.unsleep`.
* `collect_spec`, `awakenLoop_spec`, `wakeup_spec` : the loops of `wakeup` and `wakeup` itself.
* `wakeup_right_iff` : in every reachable state the chains are right, and `wakeup` makes the sleepers
  runnable in their order exactly when there is at most one.
-/

namespace Hpux.Synch

open Function List

namespace Sync

variable {P : Type} [DecidableEq P] {sqmask runoutChan : ℕ} {s s' : Sync P} {p : P} {chan x : ℕ}
variable {A B W : List P} {q : Option P}

/-- The processes on chain `x`, in the order in which they went to sleep. -/
def chainOf (sqmask : ℕ) (l : List (P × ℕ)) (x : ℕ) : List P :=
  (l.filter fun e => HASH sqmask e.2 = x).map Prod.fst

/-- The processes sleeping on a channel, in the order in which they went to sleep. -/
def sleepers (s : Sync P) (chan : ℕ) : List P :=
  (s.slept.filter fun e => e.2 = chan).map Prod.fst

/-- Those that are not stopped. -/
def ready (s : Sync P) (chan : ℕ) : List P :=
  (s.sleepers chan).filter fun p => s.pStat p = .SSLEEP

/-- The chains hold the sleeping processes. -/
structure Inv (sqmask : ℕ) (s : Sync P) : Prop where
  queue : ∀ x, IsQueue s.pLink (s.slpque x) (s.slptl x) (chainOf sqmask s.slept x)
  mem : ∀ p c, (p, c) ∈ s.slept ↔ s.pWchan p = c ∧ c ≠ 0
  nodup : (s.slept.map Prod.fst).Nodup
  asleep : ∀ p, s.pStat p = .SRUN → s.pWchan p = 0

omit [DecidableEq P] in
theorem deref_eq (s : Sync P) (x : ℕ) (q : Option P) : s.deref x q = q.elim (s.slpque x) s.pLink := by
  cases q <;> rfl

omit [DecidableEq P] in
theorem Inv.mem_chain (hs : s.Inv sqmask) :
    p ∈ chainOf sqmask s.slept x ↔ s.pWchan p ≠ 0 ∧ HASH sqmask (s.pWchan p) = x := by
  simp only [chainOf, mem_map, mem_filter, decide_eq_true_eq, Prod.exists,
    exists_and_right, exists_eq_right]
  constructor
  · rintro ⟨c, h1, h2⟩
    obtain ⟨rfl, h3⟩ := (hs.mem p c).1 h1
    exact ⟨h3, h2⟩
  · rintro ⟨h1, h2⟩
    exact ⟨s.pWchan p, (hs.mem p _).2 ⟨rfl, h1⟩, h2⟩

theorem chainOf_filter (l : List (P × ℕ)) (p : P) (x : ℕ) :
    chainOf sqmask (l.filter (·.1 ≠ p)) x = (chainOf sqmask l x).filter (· ≠ p) := by
  simp only [chainOf, filter_map, filter_filter]
  congr 2
  funext e
  exact Bool.and_comm ..

theorem filter_ne_of_not_mem {l : List P} (h : p ∉ l) : l.filter (· ≠ p) = l :=
  filter_eq_self.2 fun _ ha => decide_eq_true fun h1 => h (h1 ▸ ha)

theorem Inv.chain_takeOff (hs : s.Inv sqmask) (hc : chainOf sqmask s.slept x = A ++ p :: B) :
    chainOf sqmask (s.slept.filter (·.1 ≠ p)) x = A ++ B := by
  have h1 := (hs.queue x).nodup
  rw [hc] at h1
  have h2 : p ∉ A ++ B := by
    have h3 := (nodup_middle.1 h1)
    exact (nodup_cons.1 h3).1
  rw [chainOf_filter, hc, filter_append, filter_cons_of_neg (by simp),
    ← filter_append, filter_ne_of_not_mem h2]

theorem Inv.filter_mem (hs : s.Inv sqmask) (r : P) (c : ℕ) :
    (r, c) ∈ s.slept.filter (·.1 ≠ p) ↔ update s.pWchan p 0 r = c ∧ c ≠ 0 := by
  rw [mem_filter, hs.mem, decide_eq_true_iff, update_apply]
  dsimp only
  by_cases h : r = p
  · rw [if_pos h]
    exact iff_of_false (fun h1 => h1.2 h) fun h1 => h1.2 h1.1.symm
  · rw [if_neg h]
    exact and_iff_left h

theorem takeOff_eq (s : Sync P) (x : ℕ) (q prev : Option P) (p : P) :
    s.takeOff x q prev p = { s with
      pWchan := update s.pWchan p 0
      slept := s.slept.filter (·.1 ≠ p)
      slpque := q.elim (update s.slpque x (s.pLink p)) fun _ => s.slpque
      pLink := q.elim s.pLink fun r => update s.pLink r (s.pLink p)
      slptl := if s.slptl x = some p then update s.slptl x prev else s.slptl } := by
  cases q <;> rfl

/-- A process is taken off its chain where it is found, by `unsleep` or by `wakeup`. -/
theorem Inv.takeOff (hs : s.Inv sqmask) (hc : chainOf sqmask s.slept x = A ++ p :: B) :
    (s.takeOff x A.getLast? A.getLast? p).Inv sqmask := by
  have hp : HASH sqmask (s.pWchan p) = x := (hs.mem_chain.1 (hc ▸ by simp)).2
  rw [takeOff_eq]
  refine ⟨fun y => ?_, fun r c => hs.filter_mem r c, hs.nodup.sublist (filter_sublist.map _),
    fun r hr => ?_⟩
  · dsimp only
    have h1 := hs.queue y
    by_cases hy : y = x
    · subst hy
      rw [hc] at h1
      rw [hs.chain_takeOff hc]
      convert h1.unlink using 1
      · cases A.getLast? <;> simp
      · split_ifs <;> simp
    · rw [chainOf_filter, filter_ne_of_not_mem fun h2 => hy ((hs.mem_chain.1 h2).2.symm.trans hp)]
      have h2 : (if s.slptl x = some p then update s.slptl x A.getLast? else s.slptl) y =
          s.slptl y := by
        split_ifs
        · exact update_of_ne hy _ _
        · rfl
      have h3 : A.getLast?.elim (update s.slpque x (s.pLink p)) (fun _ => s.slpque) y =
          s.slpque y := by
        cases A.getLast?
        · exact update_of_ne hy _ _
        · rfl
      rw [h2, h3]
      refine h1.congr fun r hr => ?_
      -- the link that changes is that of a process on the other chain
      cases hA : A.getLast? with
      | none => rfl
      | some b =>
        refine update_of_ne ?_ _ _
        rintro rfl
        have h4 : r ∈ chainOf sqmask s.slept x := by
          rw [hc]
          exact mem_append_left _ (mem_of_getLast? hA)
        exact hy ((hs.mem_chain.1 hr).2.symm.trans (hs.mem_chain.1 h4).2)
  · dsimp only at hr ⊢
    rw [update_apply, hs.asleep r hr]
    split_ifs <;> rfl

omit [DecidableEq P] in
theorem chainOf_append (l : List (P × ℕ)) (y : ℕ) : chainOf sqmask (l ++ [(p, chan)]) y =
      if HASH sqmask chan = y then chainOf sqmask l y ++ [p] else chainOf sqmask l y := by
  unfold chainOf
  rw [filter_append, map_append]
  split_ifs with h <;> simp [h]

/-- On a chain that is as it should be, `sleep` links the process behind the tail. -/
theorem Inv.sleep_eq (hs : s.Inv sqmask) : s.sleep sqmask p chan = { s with
    pWchan := update s.pWchan p chan
    slpque := update s.slpque (HASH sqmask chan) ((s.slpque (HASH sqmask chan)).or (some p))
    slptl := update s.slptl (HASH sqmask chan) (some p)
    pLink := update ((s.slptl (HASH sqmask chan)).elim s.pLink fun t =>
      update s.pLink t (some p)) p none
    pStat := update s.pStat p .SSLEEP
    slept := s.slept ++ [(p, chan)] } := by
  obtain ⟨h1, h2, -, -⟩ := hs.queue (HASH sqmask chan)
  unfold Sync.sleep
  dsimp only
  cases hl : chainOf sqmask s.slept (HASH sqmask chan) with
  | nil =>
    rw [hl] at h1 h2
    simp only [head?_nil, getLast?_nil] at h1 h2
    simp only [h1, h2]
    rfl
  | cons a r =>
    rw [hl] at h1 h2
    obtain ⟨t, ht⟩ := Option.ne_none_iff_exists'.1
      (mt getLast?_eq_none_iff.1 (cons_ne_nil a r))
    rw [ht] at h2
    rw [head?_cons] at h1
    simp only [h1, h2, Option.or_some, Option.getD_some, Option.elim_some]
    rw [← h1, update_eq_self]

theorem Inv.sleep (hs : s.Inv sqmask) (hp : s.pStat p = .SRUN) (hc : chan ≠ 0) :
    (s.sleep sqmask p chan).Inv sqmask := by
  have hw := hs.asleep p hp
  have hnot : ∀ y, p ∉ chainOf sqmask s.slept y := fun y h => (hs.mem_chain.1 h).1 hw
  rw [hs.sleep_eq]
  refine ⟨fun y => ?_, fun r c => ?_, ?_, fun r hr => ?_⟩
  · dsimp only
    have h1 := hs.queue y
    rw [chainOf_append]
    by_cases hy : HASH sqmask chan = y
    · subst hy
      rw [if_pos rfl, update_self, update_self]
      refine h1.push (hnot _) (fun c hc hne => ?_) (fun c hc => ?_) (update_self ..)
      · rw [update_of_ne fun h => hnot _ (h ▸ hc)]
        cases ht : s.slptl (HASH sqmask chan) with
        | none => rfl
        | some t => exact update_of_ne (fun h => hne (by rw [ht, h])) _ _
      · have h2 : c ∈ chainOf sqmask s.slept (HASH sqmask chan) :=
          mem_of_getLast? (h1.tail_eq.symm.trans hc)
        rw [update_of_ne fun h => hnot _ (h ▸ h2), hc]
        exact update_self ..
    · rw [if_neg hy, update_of_ne (Ne.symm hy), update_of_ne (Ne.symm hy)]
      refine h1.congr fun c hc => ?_
      rw [update_of_ne fun h => hnot _ (h ▸ hc)]
      cases ht : s.slptl (HASH sqmask chan) with
      | none => rfl
      | some t =>
        have h2 : t ∈ chainOf sqmask s.slept (HASH sqmask chan) :=
          mem_of_getLast? ((hs.queue _).tail_eq.symm.trans ht)
        refine update_of_ne ?_ _ _
        rintro rfl
        exact hy ((hs.mem_chain.1 h2).2.symm.trans (hs.mem_chain.1 hc).2)
  · dsimp only
    rw [mem_append, hs.mem, mem_singleton, Prod.mk.injEq, update_apply]
    by_cases h : r = p
    · subst h
      rw [if_pos rfl, hw]
      grind
    · rw [if_neg h]
      grind
  · dsimp only
    rw [map_append, nodup_append]
    refine ⟨hs.nodup, nodup_singleton _, ?_⟩
    rintro r hr _ hr' rfl
    obtain rfl := mem_singleton.1 hr'
    obtain ⟨⟨r, c⟩, he, rfl⟩ := mem_map.1 hr
    obtain ⟨h1, h2⟩ := (hs.mem r c).1 he
    exact h2 (h1.symm.trans hw)
  · dsimp only at hr ⊢
    by_cases h : r = p
    · subst h
      rw [update_self] at hr
      cases hr
    · rw [update_of_ne h] at hr ⊢
      exact hs.asleep r hr

/-- The loop of `unsleep` finds the place that points to the process. -/
theorem findLink_spec (h : IsQueue s.pLink (s.slpque x) (s.slptl x) (A ++ p :: B)) {C D : List P}
    (hA : A = C ++ D) {fuel : ℕ} (hf : D.length < fuel) :
    s.findLink x p fuel C.getLast? = some A.getLast? := by
  induction fuel generalizing C D with
  | zero => omega
  | succ fuel ih =>
    subst hA
    have h1 : s.deref x C.getLast? = (D ++ p :: B).head? := by
      rw [deref_eq]
      rw [append_assoc] at h
      exact h.link_eq
    unfold findLink
    rw [h1]
    cases D with
    | nil => simp
    | cons d D =>
      have h2 : d ≠ p := by
        rintro rfl
        have h3 := (nodup_append.1 h.nodup).2.2
        exact h3 d (by simp) d mem_cons_self rfl
      have h4 := ih (C := C ++ [d]) (D := D) (by simp) (by simpa using hf)
      simpa [h2] using h4

variable [Fintype P]

theorem Inv.unsleep (hs : s.Inv sqmask) : (s.unsleep sqmask p).Inv sqmask ∧
    (s.unsleep sqmask p).pWchan p = 0 := by
  unfold Sync.unsleep
  split_ifs with h
  · exact ⟨hs, h⟩
  have h1 : p ∈ chainOf sqmask s.slept (HASH sqmask (s.pWchan p)) := hs.mem_chain.2 ⟨h, rfl⟩
  obtain ⟨A, B, hc⟩ := append_of_mem h1
  have h2 := hs.queue (HASH sqmask (s.pWchan p))
  rw [hc] at h2
  have h3 : A.length < Fintype.card P + 1 := by
    have h4 := (nodup_append.1 h2.nodup).1.length_le_card
    omega
  have h5 := findLink_spec h2 (C := []) (D := A) rfl h3
  dsimp only
  rw [getLast?_nil] at h5
  rw [h5]
  refine ⟨hs.takeOff hc, ?_⟩
  dsimp only
  rw [takeOff_eq]
  exact update_self ..

/-! ### The loops of `wakeup` -/

omit [DecidableEq P] [Fintype P] in
theorem Inv.relink (hs : s.Inv sqmask) {links : P → Option P}
    (h : ∀ r, s.pWchan r ≠ 0 → links r = s.pLink r) : Inv sqmask { s with pLink := links } where
  queue := fun x => (hs.queue x).congr fun r hr => h r (hs.mem_chain.1 hr).1
  mem := hs.mem
  nodup := hs.nodup
  asleep := hs.asleep

omit [DecidableEq P] [Fintype P] in
theorem Inv.sleepers_eq (hs : s.Inv sqmask) :
    s.sleepers chan = (chainOf sqmask s.slept (HASH sqmask chan)).filter fun p => s.pWchan p = chan := by
  unfold sleepers chainOf
  rw [filter_map, filter_filter]
  congr 1
  refine filter_congr fun e he => ?_
  have h1 := ((hs.mem e.1 e.2).1 he).1
  simp only [comp_apply, h1]
  by_cases h2 : e.2 = chan <;> simp [h2]

omit [DecidableEq P] [Fintype P] in
theorem mem_sleepers : p ∈ s.sleepers chan ↔ (p, chan) ∈ s.slept := by
  simp [sleepers]

omit [Fintype P] in
theorem sleepers_filter (l : List (P × ℕ)) :
    ((l.filter (·.1 ≠ p)).filter fun e => e.2 = chan).map Prod.fst =
      ((l.filter fun e => e.2 = chan).map Prod.fst).filter (· ≠ p) := by
  simp only [filter_map, filter_filter]
  congr 2
  funext e
  exact Bool.and_comm ..

/-- What the first loop does: the sleepers of the channel are gone, and other processes are as they
were. -/
structure Collected (sqmask : ℕ) (s s' : Sync P) (chan : ℕ) : Prop where
  inv : s'.Inv sqmask
  slept : s'.slept = s.slept.filter fun e => e.2 ≠ chan
  stat : s'.pStat = s.pStat
  sload : s'.sload = s.sload
  runout : s'.runout = s.runout
  made : s'.made = s.made
  idle : ∀ r, s.pWchan r = 0 → s'.pWchan r = 0 ∧ s'.pLink r = s.pLink r

omit [Fintype P] in
/-- The first process of the channel is taken off the chain. -/
theorem Inv.takeOff_sleepers (hs : s.Inv sqmask) (hA : ∀ a ∈ A, s.pWchan a ≠ chan)
    (hc : chainOf sqmask s.slept (HASH sqmask chan) = A ++ p :: B) (hp : s.pWchan p = chan)
    (q prev : Option P) :
    s.sleepers chan = p :: (s.takeOff (HASH sqmask chan) q prev p).sleepers chan := by
  have h1 : s.sleepers chan = p :: B.filter fun r => s.pWchan r = chan := by
    rw [hs.sleepers_eq, hc, filter_append, filter_eq_nil_iff.2 (by simpa using hA),
      nil_append, filter_cons_of_pos (by simpa using hp)]
  have h2 : (s.takeOff (HASH sqmask chan) q prev p).sleepers chan =
      (s.sleepers chan).filter (· ≠ p) := by
    rw [takeOff_eq]
    exact sleepers_filter s.slept
  have h3 : p ∉ B.filter fun r => s.pWchan r = chan := by
    have h4 := (hs.queue (HASH sqmask chan)).nodup
    rw [hc] at h4
    have h5 := (nodup_cons.1 (nodup_append.1 h4).2.1).1
    exact fun h6 => h5 (mem_of_mem_filter h6)
  rw [h2, h1, filter_cons_of_neg (by simp), filter_ne_of_not_mem h3]

omit [Fintype P] in
theorem Collected.of_takeOff {prev : Option P} {links : P → Option P} (hs : s.Inv sqmask)
    (h0 : chan ≠ 0) (hp : s.pWchan p = chan) (hq : ∀ r ∈ q, s.pWchan r ≠ 0)
    (hl : ∀ r, r ≠ p → links r = (s.takeOff x q prev p).pLink r)
    (h : Collected sqmask { s.takeOff x q prev p with pLink := links } s' chan) :
    Collected sqmask s s' chan ∧ s'.pWchan p = 0 ∧ s'.pLink p = links p := by
  rw [takeOff_eq] at h hl
  obtain ⟨h1, h2, h3, h4, h5, h6, h7⟩ := h
  refine ⟨⟨h1, ?_, h3, h4, h5, h6, fun r hr => ?_⟩, h7 p (update_self ..)⟩
  · rw [h2, filter_filter]
    refine filter_congr fun e he => ?_
    have h8 := ((hs.mem e.1 e.2).1 he).1
    by_cases h9 : e.1 = p
    · have h10 : e.2 = chan := by rw [← h8, h9, hp]
      simp [h10]
    · simp [h9]
  · have h8 : r ≠ p := by
      rintro rfl
      exact h0 (hp.symm.trans hr)
    obtain ⟨h9, h10⟩ := h7 r ((update_of_ne h8 _ _).trans hr)
    refine ⟨h9, h10.trans ((hl r h8).trans ?_)⟩
    cases q with
    | none => rfl
    | some b =>
      refine update_of_ne ?_ _ _
      rintro rfl
      exact hq r rfl hr

omit [Fintype P] in
/-- The first loop finds the sleepers of the channel, the last one first. -/
theorem collect_spec (hs : s.Inv sqmask) (h0 : chan ≠ 0) {fuel : ℕ} {prev : Option P}
    (hc : chainOf sqmask s.slept (HASH sqmask chan) = A ++ B) (hA : ∀ a ∈ A, s.pWchan a ≠ chan)
    (hprev : prev = A.getLast? ∨ ∃ b ∈ B.head?, s.pWchan b ≠ chan) (hW : Links s.pLink W)
    (hnd : W.Nodup) (hWi : ∀ w ∈ W, s.pWchan w = 0)
    (hf : (s.sleepers chan).length * ((A ++ B).length + 1) + B.length + 1 ≤ fuel) :
    ∃ s', collect chan (HASH sqmask chan) fuel A.getLast? prev W.head? s =
        (s', ((s.ready chan).reverse ++ W).head?) ∧
      Collected sqmask s s' chan ∧ Links s'.pLink ((s.ready chan).reverse ++ W) ∧
      ((s.ready chan).reverse ++ W).Nodup ∧ ∀ w ∈ (s.ready chan).reverse ++ W, s'.pWchan w = 0 := by
  induction fuel generalizing s A B W prev with
  | zero => omega
  | succ fuel ih =>
    have hq := hs.queue (HASH sqmask chan)
    rw [hc] at hq
    have hd : s.deref (HASH sqmask chan) A.getLast? = B.head? := by
      rw [deref_eq]
      exact hq.link_eq
    unfold collect
    rw [hd]
    cases B with
    | nil =>
      have h1 : s.sleepers chan = [] := by
        rw [hs.sleepers_eq, hc, append_nil, filter_eq_nil_iff]
        simpa using hA
      have h2 : s.ready chan = [] := by rw [ready, h1, filter_nil]
      have h3 : s.slept.filter (fun e => e.2 ≠ chan) = s.slept := by
        refine filter_eq_self.2 fun e he => decide_eq_true fun h4 => ?_
        have h5 : e.1 ∈ s.sleepers chan := mem_sleepers.2 (h4 ▸ he)
        rw [h1] at h5
        cases h5
      rw [h2, reverse_nil, nil_append]
      exact ⟨s, rfl, ⟨hs, h3.symm, rfl, rfl, rfl, rfl, fun r hr => ⟨hr, rfl⟩⟩, hW, hnd, hWi⟩
    | cons b B =>
      by_cases hb : s.pWchan b = chan
      · -- a restart leaves `prev` alone, but then the next process is not one of the channel
        have hprev' : prev = A.getLast? := hprev.resolve_right fun ⟨c, h1, h2⟩ =>
          h2 (Option.some.inj h1 ▸ hb)
        have hsl := hs.takeOff_sleepers hA hc hb A.getLast? prev
        have hinv : (s.takeOff (HASH sqmask chan) A.getLast? prev b).Inv sqmask := by
          rw [hprev']
          exact hs.takeOff hc
        have hc' := hs.chain_takeOff hc
        have hmemA : ∀ a ∈ A, s.pWchan a ≠ 0 := fun a ha =>
          (hs.mem_chain.1 (by rw [hc]; exact mem_append_left _ ha)).1
        have hbA : b ∉ A := fun h1 => hA b h1 hb
        have hqlast : ∀ r ∈ A.getLast?, s.pWchan r ≠ 0 := fun r hr =>
          hmemA r (mem_of_getLast? hr)
        have hidle : ∀ w ∈ W, (s.takeOff (HASH sqmask chan) A.getLast? prev b).pWchan w = 0 ∧
            (s.takeOff (HASH sqmask chan) A.getLast? prev b).pLink w = s.pLink w := by
          intro w hw
          rw [takeOff_eq]
          refine ⟨?_, ?_⟩
          · dsimp only
            rw [update_apply, hWi w hw]
            split_ifs <;> rfl
          · cases hl : A.getLast? with
            | none => rfl
            | some c =>
              refine update_of_ne ?_ _ _
              rintro rfl
              exact hqlast w hl (hWi w hw)
        have hbW : b ∉ W := fun h1 => h0 (hb.symm.trans (hWi b h1))
        have hb0 : (s.takeOff (HASH sqmask chan) A.getLast? prev b).pWchan b = 0 := by
          rw [takeOff_eq]
          exact update_self ..
        have hstat : (s.takeOff (HASH sqmask chan) A.getLast? prev b).pStat = s.pStat := by
          rw [takeOff_eq]
        have hchain : chainOf sqmask (s.takeOff (HASH sqmask chan) A.getLast? prev b).slept
            (HASH sqmask chan) = A ++ B := by
          rw [takeOff_eq]
          exact hc'
        have hA' : ∀ a ∈ A, (s.takeOff (HASH sqmask chan) A.getLast? prev b).pWchan a ≠ chan := by
          intro a ha
          have h1 : a ≠ b := by
            rintro rfl
            exact hbA ha
          rw [takeOff_eq]
          dsimp only
          rw [update_of_ne h1]
          exact hA a ha
        simp only [head?_cons, hb, if_true]
        rw [hsl, length_cons] at hf
        simp only [length_append, length_cons] at hf
        have hready : s.ready chan = if s.pStat b = .SSLEEP then
            b :: (s.takeOff (HASH sqmask chan) A.getLast? prev b).ready chan
            else (s.takeOff (HASH sqmask chan) A.getLast? prev b).ready chan := by
          unfold ready
          rw [hsl, hstat, filter_cons]
          simp only [decide_eq_true_eq]
        have hof := fun links s' => @Collected.of_takeOff P _ sqmask s s' b chan
          (HASH sqmask chan) A.getLast? prev links hs h0 hb hqlast
        generalize s.takeOff (HASH sqmask chan) A.getLast? prev b = t
          at hinv hsl hidle hb0 hstat hchain hA' hready hof hf ⊢
        have hstb : t.pStat b = s.pStat b := by rw [hstat]
        rw [hready]
        have hlt : ∀ l m n : ℕ, (l + 1) * (m + (n + 1) + 1) = l * (m + n + 1) + l + m + n + 2 :=
          fun l m n => by ring
        rw [hlt] at hf
        by_cases hst : s.pStat b = .SSLEEP
        · rw [if_pos (hstb.trans hst), if_pos hst]
          have hinv2 : Inv sqmask { t with pLink := update t.pLink b W.head? } :=
            hinv.relink fun r hr => update_of_ne (by rintro rfl; exact hr hb0) _ _
          have hW2 : Links (update t.pLink b W.head?) (b :: W) :=
            ⟨update_self .., hW.congr fun w hw => by
              have h1 : w ≠ b := by
                rintro rfl
                exact hbW hw
              rw [update_of_ne h1]
              exact (hidle w hw).2⟩
          have hprev2 : prev = ([] : List P).getLast? ∨ ∃ c ∈ (A ++ B).head?, t.pWchan c ≠ chan := by
            cases A with
            | nil => exact .inl hprev'
            | cons a A => exact .inr ⟨a, rfl, hA' a mem_cons_self⟩
          obtain ⟨s', h1, h2, h3, h4, h5⟩ := ih (s := { t with pLink := update t.pLink b W.head? })
            (A := []) (B := A ++ B) (W := b :: W) hinv2 hchain nofun hprev2 hW2
            (nodup_cons.2 ⟨hbW, hnd⟩)
            (forall_mem_cons.2 ⟨hb0, fun w hw => (hidle w hw).1⟩) (by
              simp only [nil_append, length_append]
              show (t.sleepers chan).length * _ + _ + 1 ≤ fuel
              omega)
          have h6 : (b :: t.ready chan).reverse ++ W = (t.ready chan).reverse ++ b :: W := by simp
          rw [h6]
          exact ⟨s', h1, (hof _ s' (fun r hr => update_of_ne hr _ _) h2).1, h3, h4, h5⟩
        · rw [if_neg (hstb ▸ hst), if_neg hst]
          have hprev2 : prev = A.getLast? ∨ ∃ c ∈ B.head?, t.pWchan c ≠ chan := .inl hprev'
          obtain ⟨s', h1, h2, h3, h4, h5⟩ := ih (A := A) (B := B) (W := W) hinv hchain hA' hprev2
            (hW.congr fun w hw => (hidle w hw).2) hnd (fun w hw => (hidle w hw).1) (by
              simp only [length_append]
              omega)
          exact ⟨s', h1, (hof _ s' (fun _ _ => rfl) h2).1, h3, h4, h5⟩
      · have h1 : (A ++ [b]).getLast? = some b := getLast?_concat
        have h2 := ih (A := A ++ [b]) (B := B) hs (by rw [hc]; simp) (fun a ha => by
          rcases mem_append.1 ha with h3 | h3
          · exact hA a h3
          · rwa [mem_singleton.1 h3]) (.inl rfl) hW hnd hWi (by
            simp only [append_assoc, singleton_append, length_cons] at hf ⊢
            omega)
        rw [h1] at h2
        simpa only [head?_cons, hb, if_false] using h2

/-! ### `wakeup` -/

/-- What a call of `wakeup` means for the processes that do not sleep, and for the sleepers of other
channels. -/
structure Woke (sqmask : ℕ) (s s' : Sync P) (chan : ℕ) : Prop where
  inv : s'.Inv sqmask
  slept : s'.slept = s.slept.filter fun e => e.2 ≠ chan
  sload : s'.sload = s.sload
  runout : s'.runout = s.runout
  made : ∃ t, s'.made = s.made ++ t ∧ ∀ p ∈ t, s.pWchan p ≠ 0
  idle : ∀ r, s.pWchan r = 0 → s'.pWchan r = 0 ∧ s'.pLink r = s.pLink r ∧ s'.pStat r = s.pStat r

/-- The call for the swapper is made. -/
def CallsSwapper (s : Sync P) (W : List P) : Prop :=
  s.runout = true ∧ ∃ w ∈ W, s.sload w = false

/-- What the second loop does. -/
structure Awakened (sqmask runoutChan : ℕ) (s s' : Sync P) (W : List P) : Prop where
  inv : s'.Inv sqmask
  quiet : ¬s.CallsSwapper W → s'.slept = s.slept ∧ s'.made = s.made ++ W ∧ s'.runout = s.runout
  swapper : s.CallsSwapper W → s'.slept = s.slept.filter fun e => e.2 ≠ runoutChan
  made : ∃ t, s'.made = s.made ++ t ∧ ∀ Q : P → Bool, (∀ w ∈ W, Q w) →
    (∀ r, s.pWchan r ≠ 0 → Q r = false) → t.filter Q = W
  sload : s'.sload = s.sload
  stat : ∀ w ∈ W, s'.pStat w = .SRUN
  idle : ∀ r, s.pWchan r = 0 → s'.pWchan r = 0 ∧
    (r ∉ W → s'.pLink r = s.pLink r ∧ s'.pStat r = s.pStat r)

omit [Fintype P] in
theorem awakenLoop_spec {nested : Sync P → Sync P} {fuel : ℕ}
    (hn : s.runout = true → ∀ s1 : Sync P, s1.Inv sqmask → s1.runout = false →
      Woke sqmask s1 (nested s1) runoutChan)
    (hs : s.Inv sqmask) (hW : Links s.pLink W) (hnd : W.Nodup) (hWi : ∀ w ∈ W, s.pWchan w = 0)
    (hf : W.length < fuel) : Awakened sqmask runoutChan s (awakenLoop nested fuel W.head? s) W := by
  induction fuel generalizing s W with
  | zero => omega
  | succ fuel ih =>
    cases W with
    | nil =>
      exact {
        inv := hs
        quiet := fun _ => ⟨rfl, (append_nil _).symm, rfl⟩
        swapper := fun ⟨_, w, hw, _⟩ => (not_mem_nil hw).elim
        made := ⟨[], (append_nil _).symm, fun _ _ _ => rfl⟩
        sload := rfl
        stat := fun w hw => (not_mem_nil hw).elim
        idle := fun r hr => ⟨hr, fun _ => ⟨rfl, rfl⟩⟩ }
    | cons p W =>
      obtain ⟨hpW, hnd'⟩ := nodup_cons.1 hnd
      have hp0 := hWi p mem_cons_self
      have hWi' := fun w hw => hWi w (mem_cons_of_mem p hw)
      have hlen : W.length < fuel := by simpa using hf
      have hs1 : ∀ b, Inv sqmask { s with
          pStat := update s.pStat p .SRUN, made := s.made ++ [p], runout := b } := fun b =>
        ⟨hs.queue, hs.mem, hs.nodup, fun r hr => by
          by_cases h : r = p
          · exact h ▸ hp0
          · exact hs.asleep r ((update_of_ne h _ _).symm.trans hr)⟩
      simp only [head?_cons, awakenLoop]
      rw [hW.1]
      split_ifs with h
      · -- the swapper is called, and `runout` is 0 from then on
        obtain ⟨hl, hr⟩ := h
        have hwoke := hn hr _ (hs1 false) rfl
        revert hwoke
        generalize nested _ = s2
        intro hwoke
        obtain ⟨h1, h2, h3, h4, ⟨t0, h5, h6⟩, h7⟩ := hwoke
        dsimp only at h2 h3 h4 h5 h6 h7
        have hnot : ¬s2.CallsSwapper W := fun ⟨h8, _⟩ => Bool.noConfusion (h4.symm.trans h8)
        have hrec := ih (s := s2) (fun h8 => Bool.noConfusion (h4.symm.trans h8)) h1
          (hW.2.congr fun w hw => (h7 w (hWi' w hw)).2.1) hnd' (fun w hw => (h7 w (hWi' w hw)).1) hlen
        obtain ⟨h8, h9, -, ⟨t1, h10, h11⟩, h12, h13, h14⟩ := hrec
        refine ⟨h8, fun h15 => (h15 ⟨hr, p, mem_cons_self, hl⟩).elim,
          fun _ => (h9 hnot).1.trans h2, ⟨[p] ++ t0 ++ t1, ?_, fun Q hQ hQ' => ?_⟩, h12.trans h3, ?_, ?_⟩
        · rw [h10, h5]
          simp
        · have h15 : t0.filter Q = [] :=
            filter_eq_nil_iff.2 fun r hr => by simp [hQ' r (h6 r hr)]
          have h16 : t1.filter Q = W := h11 Q (fun w hw => hQ w (mem_cons_of_mem p hw))
            fun r hr => hQ' r fun h17 => hr (h7 r h17).1
          rw [filter_append, filter_append, h15, h16,
            filter_cons_of_pos (hQ p mem_cons_self)]
          simp
        · intro w hw
          rcases mem_cons.1 hw with rfl | hw
          · have h15 := (h14 w (h7 w hp0).1).2 hpW
            rw [h15.2, (h7 w hp0).2.2, update_self]
          · exact h13 w hw
        · intro r hr
          obtain ⟨h15, h16, h17⟩ := h7 r hr
          refine ⟨(h14 r h15).1, fun h18 => ?_⟩
          obtain ⟨h19, h20⟩ := not_or.1 (mt mem_cons.2 h18)
          obtain ⟨h21, h22⟩ := (h14 r h15).2 h20
          exact ⟨h21.trans h16, h22.trans (h17.trans (update_of_ne h19 _ _))⟩
      · have hrec := ih (s := { s with pStat := update s.pStat p .SRUN, made := s.made ++ [p] }) hn
          (hs1 s.runout) hW.2 hnd' hWi' hlen
        obtain ⟨h8, h9, h9', ⟨t1, h10, h11⟩, h12, h13, h14⟩ := hrec
        have hiff : s.CallsSwapper (p :: W) ↔ CallsSwapper { s with
            pStat := update s.pStat p .SRUN, made := s.made ++ [p] } W := by
          refine ⟨fun ⟨h15, w, hw, h16⟩ => ⟨h15, w, ?_, h16⟩, fun ⟨h15, w, hw, h16⟩ =>
            ⟨h15, w, mem_cons_of_mem p hw, h16⟩⟩
          refine (mem_cons.1 hw).resolve_left ?_
          rintro rfl
          exact h ⟨h16, h15⟩
        refine ⟨h8, fun h15 => ?_, fun h15 => h9' (hiff.1 h15), ⟨p :: t1, ?_, fun Q hQ hQ' => ?_⟩,
          h12, ?_, ?_⟩
        · obtain ⟨h16, h17, h18⟩ := h9 (mt hiff.2 h15)
          exact ⟨h16, by rw [h17]; simp, h18⟩
        · rw [h10]
          simp
        · rw [filter_cons_of_pos (hQ p mem_cons_self),
            h11 Q (fun w hw => hQ w (mem_cons_of_mem p hw)) hQ']
        · intro w hw
          rcases mem_cons.1 hw with rfl | hw
          · rw [((h14 w hp0).2 hpW).2]
            exact update_self ..
          · exact h13 w hw
        · intro r hr
          refine ⟨(h14 r hr).1, fun h18 => ?_⟩
          obtain ⟨h19, h20⟩ := not_or.1 (mt mem_cons.2 h18)
          obtain ⟨h21, h22⟩ := (h14 r hr).2 h20
          exact ⟨h21, h22.trans (update_of_ne h19 _ _)⟩

omit [DecidableEq P] [Fintype P] in
theorem Inv.sleepers_nodup (hs : s.Inv sqmask) : (s.sleepers chan).Nodup :=
  hs.nodup.sublist (filter_sublist.map _)

omit [DecidableEq P] in
theorem Inv.turns_le (hs : s.Inv sqmask) :
    (s.sleepers chan).length * ((chainOf sqmask s.slept (HASH sqmask chan)).length + 1) +
      (chainOf sqmask s.slept (HASH sqmask chan)).length + 1 ≤ turns P := by
  have h1 : (s.sleepers chan).length ≤ Fintype.card P := hs.sleepers_nodup.length_le_card
  have h2 := (hs.queue (HASH sqmask chan)).nodup.length_le_card
  have h3 := Nat.mul_le_mul h1 (Nat.succ_le_succ h2)
  have h4 : turns P = Fintype.card P * (Fintype.card P + 1) + (2 * Fintype.card P + 2) := by
    unfold turns
    ring
  rw [Nat.succ_eq_add_one, Nat.succ_eq_add_one] at h3
  omega

theorem wakeupWith_spec {nested : Sync P → Sync P} (hs : s.Inv sqmask) (h0 : chan ≠ 0)
    (hn : s.runout = true → ∀ s1 : Sync P, s1.Inv sqmask → s1.runout = false →
      Woke sqmask s1 (nested s1) runoutChan) : ∃ s1, Collected sqmask s s1 chan ∧
      Awakened sqmask runoutChan s1 (s.wakeupWith sqmask nested chan) (s.ready chan).reverse := by
  obtain ⟨s1, h1, h2, h3, h4, h5⟩ := @collect_spec _ _ _ _ _ []
    (chainOf sqmask s.slept (HASH sqmask chan)) [] hs h0 _ none rfl nofun
    (.inl rfl) trivial nodup_nil nofun hs.turns_le
  rw [append_nil] at h1 h3 h4 h5
  refine ⟨s1, h2, ?_⟩
  unfold wakeupWith
  rw [show collect chan (HASH sqmask chan) (turns P) none none none s = _ from h1]
  exact awakenLoop_spec (fun h6 => hn (h2.runout.symm.trans h6)) h2.inv h3 h4 h5
    (Nat.lt_succ_of_le h4.length_le_card)

omit [DecidableEq P] [Fintype P] in
theorem mem_ready : p ∈ s.ready chan ↔ (p, chan) ∈ s.slept ∧ s.pStat p = .SSLEEP := by
  rw [ready, mem_filter, mem_sleepers, decide_eq_true_iff]

omit [DecidableEq P] [Fintype P] in
theorem Collected.wchan_ne (h : Collected sqmask s s' chan) (hs : s.Inv sqmask)
    (hp : s'.pWchan p ≠ 0) : s.pWchan p = s'.pWchan p ∧ s.pWchan p ≠ chan := by
  have h1 : (p, s'.pWchan p) ∈ s'.slept := (h.inv.mem p _).2 ⟨rfl, hp⟩
  rw [h.slept, mem_filter, decide_eq_true_iff] at h1
  have h2 := ((hs.mem p _).1 h1.1).1
  exact ⟨h2, fun h3 => h1.2 (h2.symm.trans h3)⟩

/-- A call that does not find the swapper waiting. -/
theorem wakeupWith_woke {nested : Sync P → Sync P} (hs : s.Inv sqmask) (h0 : chan ≠ 0)
    (hr : s.runout = false) : Woke sqmask s (s.wakeupWith sqmask nested chan) chan := by
  obtain ⟨s1, h1, h2⟩ := @wakeupWith_spec _ _ _ 0 _ _ _ nested hs h0
    fun h => Bool.noConfusion (hr.symm.trans h)
  have hnot : ¬s1.CallsSwapper (s.ready chan).reverse := fun h =>
    Bool.noConfusion (hr.symm.trans (h1.runout.symm.trans h.1))
  obtain ⟨h3, h4, h5⟩ := h2.quiet hnot
  refine ⟨h2.inv, h3.trans h1.slept, h2.sload.trans h1.sload, h5.trans h1.runout,
    ⟨(s.ready chan).reverse, by rw [h4, h1.made], fun r hr' => ?_⟩, fun r hr' => ?_⟩
  · have h6 := (hs.mem r chan).1 (mem_ready.1 (mem_reverse.1 hr')).1
    exact fun h7 => h0 (h6.1.symm.trans h7)
  · have h6 : r ∉ (s.ready chan).reverse := fun h7 =>
      h0 (((hs.mem r chan).1 (mem_ready.1 (mem_reverse.1 h7)).1).1.symm.trans hr')
    obtain ⟨h7, h8⟩ := h1.idle r hr'
    obtain ⟨h9, h10⟩ := h2.idle r h7
    exact ⟨h9, (h10 h6).1.trans h8, (h10 h6).2.trans (congrFun h1.stat r)⟩

/-- What is asked of `wakeup`: it takes the sleepers of the channel off their chain, with those of the
swapper's channel if it wakes the swapper, leaves the others in their order, and makes the ones that
are not stopped runnable in the order in which they went to sleep. -/
structure WakeupRight (sqmask runoutChan : ℕ) (s : Sync P) (chan : ℕ) : Prop where
  removed : ∀ p, s.pWchan p = chan → (s.wakeup sqmask runoutChan chan).pWchan p = 0
  others : ¬s.CallsSwapper (s.ready chan) → (s.wakeup sqmask runoutChan chan).slept =
    s.slept.filter fun e => e.2 ≠ chan
  swapper : s.CallsSwapper (s.ready chan) → (s.wakeup sqmask runoutChan chan).slept =
    (s.slept.filter fun e => e.2 ≠ chan).filter fun e => e.2 ≠ runoutChan
  runs : ∀ p ∈ s.ready chan, (s.wakeup sqmask runoutChan chan).pStat p = .SRUN
  order : ∃ t, (s.wakeup sqmask runoutChan chan).made = s.made ++ t ∧
    (t.filter fun p => s.pWchan p = chan) = s.ready chan

/-- `wakeup` does all of this but for the order, which is the reverse one. -/
theorem wakeup_spec (hs : s.Inv sqmask) (h0 : chan ≠ 0) (hr : runoutChan ≠ 0) :
    (s.wakeup sqmask runoutChan chan).Inv sqmask ∧
    (∀ p, s.pWchan p = chan → (s.wakeup sqmask runoutChan chan).pWchan p = 0) ∧
    (¬s.CallsSwapper (s.ready chan) → (s.wakeup sqmask runoutChan chan).slept =
      s.slept.filter fun e => e.2 ≠ chan) ∧
    (s.CallsSwapper (s.ready chan) → (s.wakeup sqmask runoutChan chan).slept =
      (s.slept.filter fun e => e.2 ≠ chan).filter fun e => e.2 ≠ runoutChan) ∧
    (∀ p ∈ s.ready chan, (s.wakeup sqmask runoutChan chan).pStat p = .SRUN) ∧
    ∃ t, (s.wakeup sqmask runoutChan chan).made = s.made ++ t ∧
      (t.filter fun p => s.pWchan p = chan) = (s.ready chan).reverse := by
  obtain ⟨s1, h1, h2⟩ := @wakeupWith_spec _ _ _ _ _ _ _ (fun s => s.wakeupWith sqmask id runoutChan) hs h0
    fun _ s1 h3 h4 => wakeupWith_woke h3 hr h4
  have hcalls : s1.CallsSwapper (s.ready chan).reverse ↔ s.CallsSwapper (s.ready chan) := by
    simp only [CallsSwapper, h1.runout, h1.sload, mem_reverse]
  have hready : ∀ p ∈ s.ready chan, s.pWchan p = chan := fun p hp =>
    ((hs.mem p chan).1 (mem_ready.1 hp).1).1
  refine ⟨h2.inv, fun p hp => ?_, fun h3 => ?_, fun h3 => ?_, fun p hp => ?_, ?_⟩
  · refine (h2.idle p ?_).1
    by_contra h3
    exact (h1.wchan_ne hs h3).2 hp
  · exact (h2.quiet (mt hcalls.1 h3)).1.trans h1.slept
  · rw [← h1.slept]
    exact h2.swapper (hcalls.2 h3)
  · exact h2.stat p (mem_reverse.2 hp)
  · obtain ⟨t, h3, h4⟩ := h2.made
    refine ⟨t, by rw [← h1.made]; exact h3, ?_⟩
    refine h4 (fun p => decide (s.pWchan p = chan)) (fun w hw => ?_) fun r hr' => ?_
    · exact decide_eq_true (hready w (mem_reverse.1 hw))
    · exact decide_eq_false (h1.wchan_ne hs hr').2

omit [DecidableEq P] [Fintype P] in
theorem reverse_eq_iff {l : List P} (hl : l.Nodup) : l.reverse = l ↔ l.length ≤ 1 := by
  constructor
  · intro h
    match l, hl with
    | [], _ => exact Nat.zero_le 1
    | [a], _ => exact le_rfl
    | a :: b :: l, hl =>
      -- the first would be the last as well
      have h1 : (b :: l).getLast? = some a := by
        have h2 := congrArg List.head? h
        rwa [head?_reverse, getLast?_cons_cons, head?_cons] at h2
      exact ((nodup_cons.1 hl).1 (mem_of_getLast? h1)).elim
  · intro h
    match l, h with
    | [], _ => rfl
    | [a], _ => rfl

theorem Inv.wakeupRight_iff (hs : s.Inv sqmask) (h0 : chan ≠ 0) (hr : runoutChan ≠ 0) :
    WakeupRight sqmask runoutChan s chan ↔ (s.ready chan).length ≤ 1 := by
  obtain ⟨-, h1, h2, h3, h4, t, h5, h6⟩ := @wakeup_spec _ _ sqmask _ _ _ _ hs h0 hr
  have hnd : (s.ready chan).Nodup := hs.sleepers_nodup.filter _
  rw [← reverse_eq_iff hnd]
  constructor
  · intro h7
    obtain ⟨t', h8, h9⟩ := h7.order
    rw [h5, append_cancel_left_eq] at h8
    subst h8
    exact h6.symm.trans h9
  · intro h7
    exact ⟨h1, h2, h3, h4, t, h5, h6.trans h7⟩

/-! ### Runs -/

omit [Fintype P] in
theorem Inv.restat (hs : s.Inv sqmask) (v : Stat) (hv : v = .SRUN → s.pWchan p = 0) (m : List P) :
    Inv sqmask { s with pStat := update s.pStat p v, made := m } :=
  ⟨hs.queue, hs.mem, hs.nodup, fun r hr => by
    by_cases h : r = p
    · subst h
      exact hv ((update_self ..).symm.trans hr)
    · exact hs.asleep r ((update_of_ne h _ _).symm.trans hr)⟩

theorem Inv.next (hs : s.Inv sqmask) (hr : runoutChan ≠ 0) {a : SyncAct P} (ha : a.Enabled s) :
    (s.next sqmask runoutChan a).Inv sqmask := by
  cases a with
  | sleep p chan => exact hs.sleep ha.2 ha.1
  | unsleep p => exact hs.unsleep.1
  | setrun p => exact hs.unsleep.1.restat .SRUN (fun _ => hs.unsleep.2) _
  | wakeup chan => exact (wakeup_spec hs ha hr).1
  | stop p => exact hs.restat .SSTOP nofun _
  | cont p => exact hs.restat .SSLEEP nofun _
  | swap p loaded => exact ⟨hs.queue, hs.mem, hs.nodup, hs.asleep⟩
  | runout => exact ⟨hs.queue, hs.mem, hs.nodup, hs.asleep⟩
  | relink links => exact hs.relink fun r hr' => ha r fun h => hr' (hs.asleep r h)

theorem inv_of_reach (hr : runoutChan ≠ 0) (h : (syncLts sqmask runoutChan).Reach s) :
    s.Inv sqmask := by
  refine h.inv (I := fun s => s.Inv sqmask) (fun s0 h0 => ?_) fun s1 a s2 _ h1 h2 => ?_
  · obtain ⟨h1, h2, h3, -⟩ := h0
    refine ⟨fun x => ?_, fun p c => ?_, ?_, fun p _ => (h2 p).1⟩
    · rw [(h1 x).1, (h1 x).2, h3]
      exact IsQueue.nil
    · rw [h3, (h2 p).1]
      exact iff_of_false not_mem_nil fun h4 => h4.2 h4.1.symm
    · rw [h3]
      exact nodup_nil
  · rw [h2.2]
    exact h1.next hr h2.1

/-- In every reachable state each chain is the queue of the processes that sleep on its channels, in
the order in which they went to sleep, and a `wakeup` of a channel does what is asked exactly when at
most one process that is not stopped sleeps on it. -/
theorem wakeup_right_iff (hr : runoutChan ≠ 0) (h : (syncLts sqmask runoutChan).Reach s) :
    (∀ x, IsQueue s.pLink (s.slpque x) (s.slptl x) (chainOf sqmask s.slept x)) ∧
    (∀ x p, p ∈ chainOf sqmask s.slept x ↔ s.pWchan p ≠ 0 ∧ HASH sqmask (s.pWchan p) = x) ∧
    ∀ chan, chan ≠ 0 → (WakeupRight sqmask runoutChan s chan ↔ (s.ready chan).length ≤ 1) := by
  have hs := inv_of_reach hr h
  exact ⟨hs.queue, fun x p => hs.mem_chain, fun chan h0 => hs.wakeupRight_iff h0 hr⟩

/-- Nobody sleeps. -/
def idle : Sync (Fin 2) where
  slpque := fun _ => none
  slptl := fun _ => none
  pLink := fun _ => none
  pWchan := fun _ => 0
  pStat := fun _ => .SRUN
  sload := fun _ => true
  runout := false
  slept := []
  made := []

local instance neZero_two : NeZero 2 := ⟨by decide⟩

/-- Process 0 goes to sleep, and then process 1 on the same channel. -/
def bothAsleep : Sync (Fin 2) := (idle.sleep 63 0 64).sleep 63 1 64

theorem bothAsleep_reach : (syncLts 63 32).Reach bothAsleep := by
  have h0 : (syncLts 63 32).Reach idle :=
    .init ⟨fun _ => ⟨rfl, rfl⟩, fun _ => ⟨rfl, rfl⟩, rfl, rfl⟩
  have h1 : (syncLts 63 32).Reach (idle.sleep 63 0 64) :=
    h0.step (l := .sleep 0 64) ⟨⟨by decide, rfl⟩, rfl⟩
  exact h1.step (l := .sleep 1 64) ⟨⟨by decide, rfl⟩, rfl⟩

theorem wakeup_right_iff_both :
    (syncLts 63 32).Reach bothAsleep ∧ bothAsleep.slpque 2 = some 0 ∧
    (WakeupRight 63 32 bothAsleep 64 ↔ (bothAsleep.ready 64).length ≤ 1) :=
  ⟨bothAsleep_reach, rfl,
    (wakeup_right_iff (by decide) bothAsleep_reach).2.2 64 (by decide)⟩

/-- The process that went to sleep last runs first. -/
theorem last_sleeper_first : (syncLts 63 32).Reach bothAsleep ∧ bothAsleep.ready 64 = [0, 1] ∧
    (bothAsleep.wakeup 63 32 64).made = [1, 0] ∧ ¬WakeupRight 63 32 bothAsleep 64 := by
  have h1 : bothAsleep.ready 64 = [0, 1] := by decide
  refine ⟨bothAsleep_reach, h1, by decide, fun h => ?_⟩
  have h2 := ((inv_of_reach (by decide) bothAsleep_reach).wakeupRight_iff (by decide)
    (by decide)).1 h
  rw [h1] at h2
  exact absurd h2 (by decide)

end Sync

end Hpux.Synch
