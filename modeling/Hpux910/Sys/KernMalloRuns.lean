import Hpux910.Sys.KernMalloInv

/-!
# The allocator over whole runs

Every routine keeps the invariant of the pages and leaves the lock free, apart from
`kmalloc_reserve`, which returns with the lock held when it refuses a reservation.

* `Fits` : no reservation is refused, and no request overflows when it is rounded up to pages.
* `malloc_eq`, `freeMacro_eq` : the macros do what the routines do.
* `kmalloc_blocks` : the blocks, the lists and the accounts in the runs whose calls all fit.
-/

namespace Hpux

namespace Mallo

open List Function

variable {C : Config} {s s' : State} {idx : ℕ} {res : Bool} {e p x va n t size type count : ℕ}
  {b b' : Block} {nowait : Bool} {func : Option ℕ}

/-! ### The macros -/

theorem malloc_eq : s.malloc C t size type nowait = s.kmalloc C t size type nowait := by
  unfold State.malloc
  dsimp only
  split_ifs with hc
  · rfl
  · unfold State.kmalloc
    dsimp only
    rw [if_neg hc]

theorem freeMacro_eq : s.freeMacro C x type = s.kfree C x type := by
  unfold State.freeMacro
  dsimp only
  split_ifs with hc
  · rfl
  · have h1 := C.pgshift_lt
    have h2 := C.minbucket_lt
    have hlt : s.kuIndx (x / C.nbpg) < reservedPool := by
      unfold reservedPool
      omega
    have hmod : s.kuIndx (x / C.nbpg) % reservedPool = s.kuIndx (x / C.nbpg) :=
      Nat.mod_eq_of_lt hlt
    simp [State.kfree, hmod, hc, Nat.not_le.2 hlt]

/-! ### The condition -/

/-- The call does not ask for more than there are addresses when it is rounded up, and no
reservation is refused. -/
def Fits (C : Config) (s : State) : Event → Bool
  | .malloc _ size _ _ _ => size ≤ 2 ^ 32 - C.nbpg
  | .reserve _ type size count _ =>
    !s.refused C type size count && 0 < C.btorp (C.resbytes size count)
  | _ => true

/-! ### The routines -/

/-- The invariant, and the lock is free. -/
def Good (C : Config) (s : State) : Prop := Inv C s ∧ s.lock = false

theorem callOk_update (h : ∀ t, CallOk C (s.call t)) {c : Call} (hc : CallOk C c) (t' : ℕ) :
    CallOk C (Function.update s.call t c t') := by
  by_cases ht : t' = t
  · rw [ht, update_self]
    exact hc
  · rw [update_of_ne ht]
    exact h t'

theorem Inv.setCall (h : Inv C s) {c : Call} (hc : CallOk C c) : Inv C (s.setCall t c) :=
  h.update rfl rfl rfl rfl rfl rfl rfl (fun _ => ⟨rfl, le_rfl⟩) (callOk_update h.calls hc)

theorem Inv.idx_le (h : Inv C s) (h0 : s.bucket res idx ≠ 0) : idx ≤ C.pgshift := by
  obtain ⟨l, ht, -, hl⟩ := h.lists res idx
  obtain _ | ⟨a, l⟩ := l
  · exact absurd ht h0
  · exact (h.elems _ _ _ ((hl a).1 mem_cons_self).1.1).1

theorem Good.kmalloc (h : Good C s) (hs : size ≤ 2 ^ 32 - C.nbpg) :
    Good C (s.kmalloc C t size type nowait) := by
  obtain ⟨hi, -⟩ := h
  unfold State.kmalloc
  dsimp only
  split_ifs with hc
  · refine ⟨?_, rfl⟩
    exact hi.update rfl rfl rfl rfl rfl rfl rfl (fun _ => ⟨rfl, le_rfl⟩)
      (callOk_update hi.calls hs)
  · refine ⟨?_, rfl⟩
    rw [not_or] at hc
    have h0 : s.bucket false (C.bucketindx size) ≠ 0 := hc.2
    refine hi.take h0 (C.le_pow_bucketindx (hi.idx_le h0)) rfl rfl rfl rfl rfl rfl rfl
      (fun type' => ⟨?_, (hi.resinuse type').2⟩) (callOk_update hi.calls trivial)
    rw [if_neg (by simp), add_zero]
    rfl

/-- A request of up to a page takes the first element of a fresh page. -/
theorem Good.kmallocPages_small (h : Good C s) (hs : size ≤ C.nbpg) (hf : s.Fresh C va (C.npg size)) :
    Good C (s.kmallocPages C t va size type) := by
  obtain ⟨hi, -⟩ := h
  obtain ⟨ha, hn⟩ := C.npg_small hs
  have hidx := C.bucketindx_le hs
  have hle := C.two_pow_le hidx
  rw [hn] at hf
  have hsplit : Inv C ((({ s.handOut C va 1 (.elems (C.bucketindx size) false) with
      kuIndx := Function.update s.kuIndx (va / C.nbpg) (C.bucketindx size)
      kuPagecnt := Function.update s.kuPagecnt (va / C.nbpg) 0 } : State).spinlock).split C false
        (C.bucketindx size) va 1 (2 ^ C.bucketindx size)) := by
    refine hi.freshElems hf Nat.one_pos hidx rfl rfl (fun p => ?_) (fun p hp => ?_) (fun p => rfl)
      (fun p => rfl) rfl (fun _ => ⟨rfl, le_rfl⟩) hi.calls
    · simp only [State.split, State.spinlock]
      by_cases hp : p = va / C.nbpg
      · subst hp
        simp
      · rw [update_of_ne hp, if_neg (by omega)]
    · exact update_of_ne (by omega) _ _
  unfold State.kmallocPages
  simp only [ha, hn, if_pos hidx]
  rw [if_neg (by omega)]
  refine ⟨?_, rfl⟩
  refine hsplit.take ?_ (C.le_pow_bucketindx hidx) rfl rfl rfl rfl rfl rfl rfl
    (fun type' => ⟨?_, (hi.resinuse type').2⟩) (callOk_update hi.calls trivial)
  · simpa [State.split] using hf.2.1
  · rw [if_neg (by simp), add_zero]
    rfl

/-- A larger request gets its pages. -/
theorem Good.kmallocPages_big (h : Good C s) (hs : C.nbpg < size) (hs' : size ≤ 2 ^ 32 - C.nbpg)
    (hf : s.Fresh C va (C.npg size)) : Good C (s.kmallocPages C t va size type) := by
  obtain ⟨hi, hlock⟩ := h
  obtain ⟨ha, hle⟩ := C.npg_big hs hs'
  have hidx := C.lt_bucketindx hs
  have hidx' : C.bucketindx size < reservedPool := by
    have h1 := (C.bucketindx_spec size).2.1
    have h2 := C.minbucket_lt
    unfold Config.maxbucket at h1
    unfold reservedPool
    omega
  have hn : 0 < C.npg size := by
    by_contra hz
    rw [Nat.eq_zero_of_not_pos hz] at hle
    omega
  have hdiv : C.npg size * C.nbpg / C.allocsize size - 1 = 0 := by
    rw [ha, Nat.div_self (Nat.mul_pos hn C.nbpg_pos)]
  unfold State.kmallocPages
  simp only [if_neg (Nat.not_le.2 hidx)]
  split_ifs with hbig
  · refine ⟨?_, hlock⟩
    refine hi.giveBig hf hn hle hidx hidx' (fun _ _ => rfl) rfl rfl (fun p hp => ?_) ?_
      (fun p => rfl) (fun p => rfl) rfl (fun _ => ⟨rfl, le_rfl⟩) (callOk_update hi.calls trivial)
    · exact (update_of_ne hp _ _).trans (update_of_ne hp _ _)
    · simpa [State.give] using Nat.mod_le _ _
  · -- the list gets the block and loses it again
    refine ⟨?_, rfl⟩
    refine hi.giveBig hf hn hle hidx hidx' (fun a hav => ?_) ?_ rfl (fun p hp => ?_) ?_
      (fun p => rfl) (fun p => rfl) (show _ = (⟨va, size, type, _⟩ : Block) :: _ from ?_)
      (fun _ => ⟨rfl, le_rfl⟩) (callOk_update hi.calls trivial)
    · simp only [State.take, State.split, State.spinunlock, State.give, State.setBucket, hdiv,
        thread, Nat.zero_mul, Nat.add_zero]
      exact update_of_ne hav _ _
    · funext r i
      by_cases hri : r = false ∧ i = C.bucketindx size
      · obtain ⟨rfl, rfl⟩ := hri
        simp [State.take, State.split, State.spinunlock, State.give, State.setBucket, hdiv, thread,
          State.spinlock, State.handOut]
      · simp [State.take, State.split, State.spinunlock, State.give, State.setBucket, hri,
          State.spinlock, State.handOut]
    · exact update_of_ne hp _ _
    · simp [State.take, State.split, State.spinunlock, State.give, State.setBucket, State.spinlock]
    · simp [State.take, State.split, State.spinunlock, State.give, State.setBucket, State.spinlock,
        State.handOut]

theorem Good.allocReserve (h : Good C s) : Good C (s.allocReserve C t size type nowait) := by
  obtain ⟨hi, -⟩ := h
  unfold State.allocReserve
  dsimp only
  split_ifs with hc hw
  · exact ⟨hi.update rfl rfl rfl rfl rfl rfl rfl (fun _ => ⟨rfl, le_rfl⟩)
      (callOk_update hi.calls trivial), rfl⟩
  · refine ⟨hi.update rfl rfl rfl rfl rfl rfl rfl (fun type' => ?_)
      (callOk_update hi.calls trivial), rfl⟩
    by_cases ht : type' = type
    · subst ht
      simp [State.setCall, State.setStats]
    · simp [State.setCall, State.setStats, State.spinunlock, State.spinlock,
        update_of_ne ht]
  · rw [not_or] at hc
    have h0 : s.bucket true (C.bucketindx size) ≠ 0 := hc.1
    have hlim : (s.stats type).resinuse + 2 ^ C.bucketindx size ≤ (s.stats type).reslimit :=
      not_lt.1 hc.2
    refine ⟨hi.take h0 (C.le_pow_bucketindx (hi.idx_le h0)) rfl rfl rfl rfl rfl rfl
      rfl (fun type' => ?_) (callOk_update hi.calls trivial), rfl⟩
    by_cases ht : type' = type
    · subst ht
      simpa [State.spinunlock, State.setStats] using hlim
    · simpa [State.spinunlock, State.setStats, State.take, State.give, State.setBucket,
        State.spinlock, update_of_ne ht, ht] using (hi.resinuse type').2

theorem Good.kalloced (h : Good C s) {r : Option ℕ} {check : Bool} (hs : size ≤ 2 ^ 32 - C.nbpg)
    (hr : ∀ va, r = some va → s.Fresh C va (C.npg size)) :
    Good C (s.kalloced C t r check size type nowait) := by
  cases r with
  | some va =>
    by_cases hle : size ≤ C.nbpg
    · exact h.kmallocPages_small hle (hr va rfl)
    · exact h.kmallocPages_big (not_le.1 hle) hs (hr va rfl)
  | none =>
    simp only [State.kalloced]
    split_ifs
    · exact ⟨h.1.setCall trivial, h.2⟩
    · exact ⟨h.1.setCall trivial, h.2⟩
    · exact ⟨h.1.setCall hs, h.2⟩
    · exact h.allocReserve

theorem Good.kmallocReserve (h : Good C s) (hr : s.refused C type size count = false)
    (hs : size ≤ C.nbpg) (hn : 0 < C.btorp (C.resbytes size count)) :
    Good C (s.kmallocReserve C t type size count func) := by
  unfold State.kmallocReserve
  dsimp only
  rw [show s.spinlock.refused C type size count = false from hr]
  simp only [Bool.false_eq_true, if_false]
  have hc : CallOk C (.reserve type size count func) := ⟨hs, hn⟩
  exact ⟨h.1.update rfl rfl rfl rfl rfl rfl rfl (fun _ => ⟨rfl, le_rfl⟩)
    (callOk_update h.1.calls hc), rfl⟩

/-- `kmalloc_reserve` cuts its pages into elements of the reserved bucket. -/
theorem Good.reservePages (h : Good C s) (hs : size ≤ C.nbpg) (hn : 0 < C.btorp (C.resbytes size count))
    (hf : s.Fresh C va (C.btorp (C.resbytes size count))) :
    Good C (s.reservePages C t va type size count func) := by
  obtain ⟨hi, -⟩ := h
  have hidx := C.bucketindx_le hs
  have hcall : ∀ t', CallOk C (Function.update s.call t .none t') := callOk_update hi.calls trivial
  unfold State.reservePages
  dsimp only
  split_ifs with hc
  · refine ⟨?_, rfl⟩
    -- the pages that go back were never used
    have hnew : ∀ p, (va / C.nbpg ≤ p ∧ p < va / C.nbpg + C.btorp (C.resbytes size count)) →
        s.page p = none := fun p hp => hi.fresh_page hf hp
    have hblock : ∀ b ∈ s.live, ¬(va / C.nbpg ≤ b.addr / C.nbpg ∧
        b.addr / C.nbpg < va / C.nbpg + C.btorp (C.resbytes size count)) := fun b hb hp =>
      Inv.holds_page (hi.live b hb).2 (hnew _ hp)
    refine ⟨fun p k hp => ?_, hi.page_zero, hi.page_top, fun p i r hp => ?_, hi.big, fun r i => ?_,
      hi.nodup, fun b hb => ?_, fun type' => ?_, hcall⟩
    · have hp' : s.page p = some k := hp
      refine (if_neg fun hr => ?_).trans (hi.page_out p k hp)
      rw [hnew p hr] at hp'
      cases hp'
    · have hp' : s.page p = some (.elems i r) := hp
      refine ⟨(hi.elems p i r hp').1, (if_neg fun hr => ?_).trans (hi.elems p i r hp').2⟩
      rw [hnew p hr] at hp'
      cases hp'
    · obtain ⟨l, ht, hnd, hl⟩ := hi.lists r i
      refine ⟨l, ht.congr rfl fun e he => ?_, hnd, hl⟩
      refine thread_of_notMem fun hseg => hi.fresh_elem hf ((hl e).1 he).1 ?_
      have hsub : e ∈ segment va (2 ^ C.bucketindx size)
          (C.btorp (C.resbytes size count) * C.nbpg / 2 ^ C.bucketindx size) := by
        rw [mem_segment] at hseg ⊢
        obtain ⟨j, hj, he⟩ := hseg
        exact ⟨j, by omega, he⟩
      exact ((mem_segment_run hf.1 hidx).1 hsub).1
    · obtain ⟨h1, h2⟩ := hi.live b hb
      exact ⟨h1, h2.congr (fun p k hp => hp) (fun p hp => hp) (if_neg (hblock b hb))
        (if_neg (hblock b hb))⟩
    · refine ⟨?_, (hi.resinuse type').2⟩
      refine (hi.resinuse type').1.trans ?_
      symm
      refine reservedBytes_congr rfl fun b hb => ?_
      exact if_neg (hblock b hb)
  · refine ⟨?_, rfl⟩
    refine hi.freshElems hf hn hidx rfl rfl (fun p => rfl) (fun p hp => if_neg hp) (fun p => rfl)
      (fun p => rfl) rfl (fun type' => ?_) hcall
    by_cases ht : type' = type
    · subst ht
      simp [State.spinunlock, State.split, State.handOut, State.spinlock]
    · simp [State.spinunlock, State.split, State.handOut, State.spinlock, update_of_ne ht]

theorem Good.kfree (h : Good C s) (hb : b ∈ s.live) : Good C (s.kfree C b.addr b.type) := by
  obtain ⟨hi, hlock⟩ := h
  unfold State.kfree
  dsimp only
  by_cases hbig : C.pgshift < s.kuIndx (b.addr / C.nbpg) % reservedPool
  · rw [if_pos hbig]
    exact ⟨hi.dropBig hb hbig rfl rfl rfl rfl (fun p => rfl) (fun p => rfl) rfl rfl hi.calls, hlock⟩
  · rw [if_neg hbig]
    obtain ⟨idx, res, he, hlen⟩ | ⟨-, h1, h2, -⟩ := (hi.live b hb).2
    · obtain ⟨hidx, hku⟩ := hi.elems _ _ _ he.1
      have h3 := C.pgshift_lt
      have h4 := C.minbucket_lt
      have hlt : idx < reservedPool := by
        unfold reservedPool
        omega
      have hmod : s.kuIndx (b.addr / C.nbpg) % reservedPool = idx := by
        rw [hku]
        cases res with
        | false => exact Nat.mod_eq_of_lt hlt
        | true => exact (Nat.add_mod_right _ _).trans (Nat.mod_eq_of_lt hlt)
      have hres : decide (reservedPool ≤ s.kuIndx (b.addr / C.nbpg)) = res := by
        rw [hku]
        cases res with
        | false => exact decide_eq_false (Nat.not_le.2 hlt)
        | true => exact decide_eq_true (Nat.le_add_left _ _)
      rw [hmod, hres]
      cases res with
      | false =>
        refine ⟨hi.putBack hb he hlen rfl rfl rfl rfl rfl rfl rfl (fun type => ?_) hi.calls, rfl⟩
        simp [State.spinunlock, State.putBack, State.spinlock, State.forget]
      | true =>
        refine ⟨hi.putBack hb he hlen rfl rfl rfl rfl rfl rfl rfl (fun type => ?_) hi.calls, rfl⟩
        by_cases ht : type = b.type
        · subst ht
          simp [State.setStats, State.spinunlock, State.putBack, State.spinlock, State.forget]
        · simp [State.setStats, State.spinunlock, State.putBack, State.spinlock, State.forget, ht]
    · exact absurd (by rwa [Nat.mod_eq_of_lt h2]) hbig

theorem Good.reclaim (h : Good C s) : Good C (s.reclaim C idx) := by
  obtain ⟨hi, -⟩ := h
  have hunlock : Good C s.spinlock.spinunlock :=
    ⟨hi.update rfl rfl rfl rfl rfl rfl rfl (fun _ => ⟨rfl, le_rfl⟩) hi.calls, rfl⟩
  unfold State.reclaim
  dsimp only
  by_cases hc : s.bucket false idx ≠ 0 ∧ s.mem (s.bucket false idx) ≠ 0
  · rw [if_pos (show s.spinlock.bucket false idx ≠ 0 ∧
      s.spinlock.mem (s.spinlock.bucket false idx) ≠ 0 from hc)]
    have hidx := hi.idx_le hc.1
    obtain ⟨l, ht, hnd, hl⟩ := hi.lists false idx
    have hcount : listCount (s.cells false idx) (2 ^ 32) none = l.length := by
      refine ht.listCount ?_
      have hsub : l ⊆ List.range (2 ^ 32) := fun e he => by
        have h1 := hi.page_top _ _ ((hl e).1 he).1.1
        have h2 := Nat.lt_div_mul_add (a := e) C.nbpg_pos
        rw [Nat.succ_mul] at h1
        exact mem_range.2 (by omega)
      simpa using (hnd.subperm hsub).length_le
    have hrun : (if C.nbpg / 2 ^ idx < 1 then 1 else C.nbpg / 2 ^ idx) = C.nbpg / 2 ^ idx :=
      if_neg (Nat.not_lt.2 (Nat.div_pos (C.two_pow_le hidx) (Nat.two_pow_pos idx)))
    -- sorting permutes the list
    obtain ⟨l', hp, ht', hf⟩ : ∃ l', l'.Perm l ∧
        Threaded (if idx < C.bucketindx C.nbpg then sortList (s.cells false idx) l.length
          else s.cells false idx) none l' ∧
        ∀ b, b ∉ l → (if idx < C.bucketindx C.nbpg then sortList (s.cells false idx) l.length
          else s.cells false idx) (some b) = s.mem b := by
      split_ifs
      · exact ht.sortList hnd le_rfl
      · exact ⟨l, .rfl, ht, fun _ _ => rfl⟩
    obtain ⟨l'', ht'', hp', hF, hf'⟩ := ht'.cutRuns C.nbpg (2 ^ idx) (C.nbpg / 2 ^ idx)
      l.length l.length (i := 0) (hp.nodup_iff.2 hnd) off_none (by rw [hp.length_eq, Nat.zero_add])
    rw [show listCount (s.spinlock.cells false idx) (2 ^ 32) none = l.length from hcount, hrun]
    refine ⟨hi.cut hidx ht ?_ (hp.symm.trans hp') hF (fun e he => ?_) (fun r i hri => ?_) rfl rfl
      (fun p => rfl) (fun p => rfl) rfl rfl rfl, rfl⟩
    · refine ht''.congr ?_ fun e _ => rfl
      exact if_pos ⟨rfl, rfl⟩
    · refine (hf' (some e) (by simp) (off_some fun hel => he (hp.mem_iff.1 hel))).trans (hf e he)
    · simp only [State.spinunlock, if_neg hri]
      rfl
  · rw [if_neg (show ¬(s.spinlock.bucket false idx ≠ 0 ∧
      s.spinlock.mem (s.spinlock.bucket false idx) ≠ 0) from hc)]
    exact hunlock

theorem Good.kfreeUnused (h : Good C s) : Good C (s.kfreeUnused C) := by
  unfold State.kfreeUnused
  generalize List.range' _ _ = ls
  induction ls generalizing s with
  | nil => exact h
  | cons i ls ih => exact ih h.reclaim

/-- One step. -/
theorem Good.next (h : Good C s) {e : Event} (he : s.enabled C e = true)
    (hfit : Fits C s e = true) : Good C (s.next C e) := by
  cases e with
  | malloc t size type nowait inline =>
    have hs : size ≤ 2 ^ 32 - C.nbpg := by simpa [Fits] using hfit
    simp only [State.next, malloc_eq, ite_self]
    exact h.kmalloc hs
  | kalloced t r check =>
    simp only [State.next]
    split
    next size type nowait wait hc =>
      have hs : size ≤ 2 ^ 32 - C.nbpg := by
        have := h.1.calls t
        rwa [hc] at this
      refine h.kalloced hs fun va hr => ?_
      subst hr
      simp only [State.enabled, hc] at he
      simpa using (Bool.and_eq_true_iff.1 he).2
    next => exact h
  | retry t =>
    simp only [State.next]
    split
    next => exact h.allocReserve
    next => exact h
  | free x type inline =>
    have hb : ∃ b ∈ s.live, b.addr = x ∧ b.type = type := by
      simpa [State.enabled, any_eq_true] using (Bool.and_eq_true_iff.1 he).2
    obtain ⟨b, hb, rfl, rfl⟩ := hb
    simp only [State.next, freeMacro_eq, ite_self]
    exact h.kfree hb
  | reserve t type size count func =>
    have hs : size ≤ C.nbpg := by simpa using (Bool.and_eq_true_iff.1 he).2
    simp only [Fits, Bool.and_eq_true, Bool.not_eq_true', decide_eq_true_eq] at hfit
    exact h.kmallocReserve hfit.1 hs hfit.2
  | reserved t va =>
    simp only [State.next]
    split
    next type size count func hc =>
      have hcall : size ≤ C.nbpg ∧ 0 < C.btorp (C.resbytes size count) := by
        have := h.1.calls t
        rwa [hc] at this
      simp only [State.enabled, hc] at he
      exact h.reservePages hcall.1 hcall.2 (by simpa using (Bool.and_eq_true_iff.1 he).2)
    next => exact h
  | kfreeUnused => exact h.kfreeUnused
  | write x y v =>
    have hb : ∃ b ∈ s.live, b.addr = x ∧ x ≤ y ∧ y < x + b.len := by
      simpa [State.enabled, any_eq_true] using he
    obtain ⟨b, hb, rfl, hx⟩ := hb
    exact ⟨h.1.write hb hx, h.2⟩

theorem good_boot : Good C .boot := by
  refine ⟨⟨?_, rfl, ?_, ?_, ?_, fun res idx => ⟨[], rfl, nodup_nil, ?_⟩, nodup_nil, ?_,
    fun type => ⟨rfl, le_rfl⟩, fun t => trivial⟩, rfl⟩ <;> simp [State.boot, State.Elem]

theorem good_reach (h : ((system C).restrict fun s e => Fits C s e = true).Reach s) : Good C s := by
  refine h.inv ?_ ?_
  · rintro _ rfl
    exact good_boot
  · rintro s e _ - hg ⟨hfit, he, rfl⟩
    exact hg.next he hfit

/-! ### The theorem -/

/-- The elements of a free list. -/
def State.OnList (s : State) (res : Bool) (idx : ℕ) (l : List ℕ) : Prop :=
  Threaded (s.cells res idx) none l

/-- Blocks, free elements and accounts. -/
structure Sound (C : Config) (s : State) : Prop where
  /-- The blocks in use do not overlap, -/
  disjoint : ∀ b ∈ s.live, ∀ b' ∈ s.live, b ≠ b' →
    b.addr + b.len ≤ b'.addr ∨ b'.addr + b'.len ≤ b.addr
  /-- they are as large as what was asked for, -/
  large : ∀ b ∈ s.live, b.size ≤ b.len
  /-- and they do not overlap a free element. -/
  free : ∀ res idx l, s.OnList res idx l → ∀ e ∈ l, ∀ b ∈ s.live,
    e + 2 ^ idx ≤ b.addr ∨ b.addr + b.len ≤ e
  /-- The lists are lists of elements of the pages, -/
  lists : ∀ res idx, ∃ l, s.OnList res idx l ∧ ∀ e ∈ l, s.Elem C idx res e
  /-- the descriptor of such a page says which, -/
  descriptor : ∀ p idx res, s.page p = some (.elems idx res) → s.out p = true ∧
    s.kuIndx p = if res then idx + reservedPool else idx
  /-- and each element of a page is in use or on its list, once. -/
  once : ∀ res idx e l, s.Elem C idx res e → s.OnList res idx l →
    (s.live.map Block.addr).count e + l.count e = 1
  /-- The macros do what the routines do. -/
  macros : (∀ t size type nowait, s.malloc C t size type nowait = s.kmalloc C t size type nowait) ∧
    ∀ x type, s.freeMacro C x type = s.kfree C x type
  /-- `ks_resinuse` is what a type holds on reserved pages, and within its limit. -/
  resinuse : ∀ type, (s.stats type).resinuse = s.reservedBytes C type ∧
    (s.stats type).resinuse ≤ (s.stats type).reslimit
  lock : s.lock = false

theorem Inv.count_eq_one (h : Inv C s) {l : List ℕ} (he : s.Elem C idx res e)
    (hl : s.OnList res idx l) : (s.live.map Block.addr).count e + l.count e = 1 := by
  obtain ⟨l', ht, hnd, hmem⟩ := h.lists res idx
  obtain rfl := ht.unique hl
  by_cases hin : e ∈ s.live.map Block.addr
  · have hnot : e ∉ l' := fun hel => ((hmem e).1 hel).2 hin
    rw [count_eq_one_of_mem h.nodup hin, count_eq_zero_of_not_mem hnot]
  · rw [count_eq_zero_of_not_mem hin, count_eq_one_of_mem hnd ((hmem e).2 ⟨he, hin⟩)]

/-- In the runs in which no reservation is refused and no request overflows, the blocks are
disjoint, every element is in use or free, and the lock is free after every call. -/
theorem kmalloc_blocks (h : ((system C).restrict fun s e => Fits C s e = true).Reach s) :
    Sound C s := by
  obtain ⟨hi, hlock⟩ := good_reach h
  refine ⟨fun b hb b' hb' hne => ?_, fun b hb => (hi.live b hb).1, fun res idx l hl e he b hb => ?_,
    fun res idx => ?_, fun p idx res hp => ⟨hi.page_out p _ hp, (hi.elems p idx res hp).2⟩,
    fun res idx e l he hl => hi.count_eq_one he hl, ⟨fun _ _ _ _ => malloc_eq, fun _ _ => freeMacro_eq⟩,
    hi.resinuse, hlock⟩
  · refine hi.block_disjoint (hi.live b hb).2 (hi.live b' hb').2 fun he => hne ?_
    exact List.inj_on_of_nodup_map hi.nodup hb hb' he
  · obtain ⟨l', ht, -, hmem⟩ := hi.lists res idx
    obtain rfl := ht.unique hl
    obtain ⟨h1, h2⟩ := (hmem e).1 he
    exact hi.elem_disjoint h1 (hi.live b hb).2 fun heq => h2 (heq ▸ List.mem_map_of_mem hb)
  · obtain ⟨l, ht, -, hmem⟩ := hi.lists res idx
    exact ⟨l, ht, fun e he => ((hmem e).1 he).1⟩

/-! ### Runs -/

/-- The constants of the series 300. -/
def s300 : Config := ⟨4, 12, by decide, by decide, by decide⟩

/-- A page is cut in two, a larger block is allocated, and the first half is freed. -/
def smallRun : List Event :=
  [.malloc 0 2000 1 false true, .kalloced 0 (some 8192) true, .malloc 0 5000 1 false true,
    .kalloced 0 (some 16384) true, .write 8192 8196 7, .free 8192 1 true, .kfreeUnused]

theorem kmalloc_blocks_small : Sound s300 (smallRun.foldl (State.next s300) .boot) := by
  have hrun : Lts.Follows (fun s e => Fits s300 s e = true ∧ s.enabled s300 e = true)
      (State.next s300) .boot smallRun := by decide +kernel
  exact kmalloc_blocks (Lts.Reach.follows (.init rfl) (fun s e he => ⟨he.1, he.2, rfl⟩) hrun)

/-- A reservation of more pages than a type may have is refused, and the lock stays held. -/
theorem kmalloc_reserve_keeps_lock : ∃ s, (system s300).Reach s ∧ s.lock = true := by
  have hrun : Lts.Follows (fun s e => s.enabled s300 e = true) (State.next s300) .boot
      [.reserve 0 1 4096 16 none] := by decide +kernel
  refine ⟨_, Lts.Reach.follows (.init rfl) (fun s e he => ⟨he, rfl⟩) hrun, ?_⟩
  decide +kernel

end Mallo

end Hpux
