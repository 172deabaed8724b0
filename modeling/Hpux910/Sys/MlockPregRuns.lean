import Hpux910.Sys.MlockPreg
import Mathlib

/-!
# Runs of the memory lock

What each step does to the region it is about, and from it what holds along runs.

* `count`, `count_update` : counting pregions.
* `RegInv`, `Inv` : the invariant, one region at a time; `RegInv.congr` : other regions.
* `Inv.mlock`, `Inv.pagedIn`, `Inv.failed`, `Inv.unlock`, `Inv.detach` : the steps.
* `mlock_kept` : runs all of whose steps meet the condition; `waiter_unlocked` : one that does not.
-/

namespace Hpux.Mlock

open Function Finset

variable {P R : Type} [DecidableEq P] [DecidableEq R] [Fintype P] [Fintype R] {v : Views P R}
variable {s s' : Vm P R} {p : P} {r : R}

/-! ### Counting -/

/-- The pregions of a region that have the flag `f`. -/
def count (v : Views P R) (f : Preg → Bool) (g : P → Preg) (r : R) : ℤ :=
  ((Finset.univ.filter fun p => v.reg p = r ∧ f (g p) = true).card : ℤ)

variable {f : Preg → Bool}

omit [DecidableEq P] [Fintype R] in
theorem count_congr {g g' : P → Preg} (h : ∀ p, v.reg p = r → f (g' p) = f (g p)) :
    count v f g' r = count v f g r := by
  unfold count
  rw [card_filter_keep fun p _ => and_congr_right fun hp => by rw [h p hp]]

omit [Fintype R] in
/-- One pregion changes. -/
theorem count_update (f : Preg → Bool) (g : P → Preg) (p : P) (x : Preg) :
    count v f (update g p x) (v.reg p) =
      count v f g (v.reg p) + ((f x).toNat - (f (g p)).toNat : ℤ) := by
  have hother : ∀ q ∈ (Finset.univ : Finset P), q ≠ p → ((v.reg q = v.reg p ∧ f (update g p x q) = true) ↔
      (v.reg q = v.reg p ∧ f (g q) = true)) := fun q _ hq => by rw [update_of_ne hq]
  by_cases h : f x = f (g p)
  · rw [h, sub_self, add_zero]
    refine count_congr fun q _ => ?_
    by_cases hq : q = p
    · subst hq
      rw [update_self, h]
    · rw [update_of_ne hq]
  unfold count
  cases h1 : f x
  · have h2 : f (g p) = true := by simpa [h1] using Ne.symm h
    have h3 := card_filter_lose (mem_univ p) (⟨rfl, h2⟩ : v.reg p = v.reg p ∧ f (g p) = true)
      (by simp [h1] : ¬(v.reg p = v.reg p ∧ f (update g p x p) = true)) hother
    simp only [h2, Bool.toNat_false, Bool.toNat_true]
    omega
  · have h2 : f (g p) = false := by simpa [h1] using Ne.symm h
    have h3 := card_filter_gain (mem_univ p)
      (by simp [h2] : ¬(v.reg p = v.reg p ∧ f (g p) = true))
      (by simp [h1] : v.reg p = v.reg p ∧ f (update g p x p) = true) hother
    simp only [h2, Bool.toNat_false, Bool.toNat_true]
    omega

omit [DecidableEq P] [Fintype R] in
theorem count_pos {g : P → Preg} (hp : f (g p) = true) : 0 < count v f g (v.reg p) := by
  unfold count
  exact_mod_cast card_pos.2 ⟨p, by simp [hp]⟩

omit [DecidableEq P] [Fintype R] in
theorem exists_of_count {g : P → Preg} (h : count v f g r ≠ 0) : ∃ p, v.reg p = r ∧ f (g p) = true := by
  unfold count at h
  obtain ⟨p, hp⟩ := card_ne_zero.1 (by exact_mod_cast h)
  exact ⟨p, (mem_filter.1 hp).2⟩

omit [DecidableEq P] [Fintype P] in
theorem sum_update (f : R → ℤ) (r : R) (x : ℤ) : ∑ a, update f r x a = ∑ a, f a + (x - f r) := by
  have h1 : ∑ a ∈ Finset.univ.erase r, update f r x a = ∑ a ∈ Finset.univ.erase r, f a :=
    sum_congr rfl fun a ha => update_of_ne (ne_of_mem_erase ha) x f
  rw [← add_sum_erase _ _ (mem_univ r), ← add_sum_erase _ f (mem_univ r), h1,
    update_self]
  omega

/-! ### The invariant -/

/-- What holds of one region. -/
structure RegInv (v : Views P R) (s : Vm P R) (r : R) : Prop where
  counted : (s.reg r).mlockcnt = count v Preg.locked s.preg r
  refcnt : (s.reg r).refcnt = count v Preg.attached s.preg r
  sema : (s.reg r).mlock = (s.reg r).mlocking
  pager : (s.reg r).mlocking = true → ∃ p, v.reg p = r ∧ (s.preg p).pc = .paging
  paging : ∀ p, v.reg p = r → (s.preg p).pc = .paging → (s.reg r).mlocking = true
  one : ∀ p q, v.reg p = r → v.reg q = r → (s.preg p).pc = .paging → (s.preg q).pc = .paging → p = q
  busy : (s.reg r).mlocking = true → ∀ p, v.reg p = r → (s.preg p).locked = true →
    (s.preg p).pc = .paging ∨ (s.preg p).pc = .waiting
  locked : ∀ p, v.reg p = r → (s.preg p).pc ≠ .user → (s.preg p).locked = true
  attached : ∀ p, v.reg p = r → (s.preg p).locked = true → (s.preg p).attached = true
  resident : (s.reg r).mlockcnt ≠ 0 → (s.reg r).mlocking = false → v.pages r ⊆ (s.reg r).valid
  reserved : s.reserved r = if (s.reg r).mlockcnt = 0 then 0 else ((v.pages r).card : ℤ)

structure Inv (v : Views P R) (s : Vm P R) : Prop where
  reg : ∀ r, RegInv v s r
  balance : s.lockable - s.stolen + ∑ r, s.reserved r = s.total
  swap : s.swap = ∑ r, s.reserved r

omit [DecidableEq P] [Fintype R] in
/-- A region that nothing has been done to. -/
theorem RegInv.congr (h : RegInv v s r) (hr : s'.reg r = s.reg r)
    (hp : ∀ p, v.reg p = r → s'.preg p = s.preg p) (hres : s'.reserved r = s.reserved r) :
    RegInv v s' r := by
  refine ⟨?_, ?_, by rw [hr]; exact h.sema, fun h1 => ?_, fun p h1 h2 => ?_, fun p q h1 h2 h3 h4 => ?_,
    fun h1 p h2 h3 => ?_, fun p h1 h2 => ?_, fun p h1 h2 => ?_, fun h1 h2 => ?_, ?_⟩
  · rw [hr, h.counted]
    exact count_congr fun p h1 => by rw [hp p h1]
  · rw [hr, h.refcnt]
    exact count_congr fun p h1 => by rw [hp p h1]
  · rw [hr] at h1
    obtain ⟨p, h2, h3⟩ := h.pager h1
    exact ⟨p, h2, by rw [hp p h2]; exact h3⟩
  · rw [hp p h1] at h2
    rw [hr]
    exact h.paging p h1 h2
  · rw [hp p h1] at h3
    rw [hp q h2] at h4
    exact h.one p q h1 h2 h3 h4
  · rw [hr] at h1
    rw [hp p h2] at h3 ⊢
    exact h.busy h1 p h2 h3
  · rw [hp p h1] at h2 ⊢
    exact h.locked p h1 h2
  · rw [hp p h1] at h2 ⊢
    exact h.attached p h1 h2
  · rw [hr] at h1 h2 ⊢
    exact h.resident h1 h2
  · rw [hres, hr]
    exact h.reserved

omit [DecidableEq P] [DecidableEq R] in
theorem Inv.kept [DecidableEq R] (h : Inv v s) : Kept v s := by
  refine ⟨fun r => (h.reg r).counted, fun r => (h.reg r).reserved, fun p h1 h2 => ?_, h.balance, h.swap⟩
  have hr := h.reg (v.reg p)
  have h3 : (s.reg (v.reg p)).mlocking = false := by
    by_contra h3
    rcases hr.busy (by simpa using h3) p rfl h1 with h4 | h4 <;> rw [h2] at h4 <;> cases h4
  refine hr.resident ?_ h3
  rw [hr.counted]
  exact Int.ne_of_gt (count_pos h1)

omit [DecidableEq P] [Fintype P] [Fintype R] in
/-- What is given back. -/
theorem unreserve_spec (s : Vm P R) (r : R) (n : ℕ) :
    (s.lockmemunreserve r n).reg = s.reg ∧ (s.lockmemunreserve r n).preg = s.preg ∧
    (s.lockmemunreserve r n).reserved = update s.reserved r (s.reserved r - n) ∧
    (s.lockmemunreserve r n).swap = s.swap - n ∧ (s.lockmemunreserve r n).total = s.total ∧
    (s.lockmemunreserve r n).lockable - (s.lockmemunreserve r n).stolen = s.lockable - s.stolen + n := by
  unfold Vm.lockmemunreserve
  dsimp only
  split_ifs
  · exact ⟨rfl, rfl, rfl, rfl, rfl, by dsimp only; omega⟩
  · exact ⟨rfl, rfl, rfl, rfl, rfl, by dsimp only; omega⟩
  · exact ⟨rfl, rfl, rfl, rfl, rfl, by dsimp only; omega⟩

omit [Fintype R] in
/-- The regions other than that of the pregion `p`. -/
theorem regInv_other {x : Reg} {y : Preg} (h : ∀ r, RegInv v s r) (hr : s'.reg = update s.reg (v.reg p) x)
    (hp : s'.preg = update s.preg p y) (hres : ∀ r, r ≠ v.reg p → s'.reserved r = s.reserved r)
    (h1 : RegInv v s' (v.reg p)) : ∀ r, RegInv v s' r := by
  intro r
  by_cases hne : r = v.reg p
  · subst hne
    exact h1
  · refine (h r).congr (by rw [hr, update_of_ne hne]) (fun q hq => ?_) (hres r hne)
    have hqp : q ≠ p := by
      rintro rfl
      exact hne hq.symm
    rw [hp, update_of_ne hqp]

/-- The first one that locks a region. -/
theorem Inv.first (h : Inv v s) (hat : (s.preg p).attached = true) (hl : (s.preg p).locked = false)
    (hc : (s.reg (v.reg p)).mlockcnt = 0) (hreg : s'.reg = update s.reg (v.reg p)
      { s.reg (v.reg p) with mlockcnt := 1, mlocking := true, mlock := true })
    (hpreg : s'.preg = update s.preg p { s.preg p with locked := true, pc := .paging })
    (hres : s'.reserved = update s.reserved (v.reg p)
      (s.reserved (v.reg p) + ((v.pages (v.reg p)).card : ℤ)))
    (hbal : s'.lockable - s'.stolen = s.lockable - s.stolen - ((v.pages (v.reg p)).card : ℤ))
    (hswap : s'.swap = s.swap + ((v.pages (v.reg p)).card : ℤ)) (htot : s'.total = s.total) : Inv v s' := by
  have hr := h.reg (v.reg p)
  -- nobody else has the region locked
  have hnone : ∀ q, v.reg q = v.reg p → (s.preg q).locked = false := fun q hq => by
    by_contra h1
    have h2 := count_pos (v := v) (f := Preg.locked) (g := s.preg) (by simpa using h1)
    rw [hq, ← hr.counted] at h2
    omega
  have hpc : ∀ q, v.reg q = v.reg p → (s.preg q).pc = .user := fun q hq => by
    by_contra h1
    have h2 := hr.locked q hq h1
    rw [hnone q hq] at h2
    cases h2
  have hother : ∀ q, q ≠ p → s'.preg q = s.preg q := fun q hq => by rw [hpreg, update_of_ne hq]
  have hp : s'.preg p = { s.preg p with locked := true, pc := .paging } := by rw [hpreg, update_self]
  have hx : s'.reg (v.reg p) =
      { s.reg (v.reg p) with mlockcnt := 1, mlocking := true, mlock := true } := by rw [hreg, update_self]
  have hpag : ∀ q, v.reg q = v.reg p → (s'.preg q).pc = .paging → q = p := fun q hq h1 => by
    by_contra h2
    rw [hother q h2, hpc q hq] at h1
    cases h1
  refine ⟨regInv_other h.reg hreg hpreg (fun r hne => by rw [hres, update_of_ne hne]) ?_, ?_, ?_⟩
  · refine ⟨?_, ?_, by rw [hx], fun _ => ⟨p, rfl, by rw [hp]⟩, fun _ _ _ => by rw [hx],
      fun q q' h1 h2 h3 h4 => (hpag q h1 h3).trans (hpag q' h2 h4).symm, fun _ q h1 h2 => .inl ?_,
      fun q h1 h2 => ?_, fun q h1 h2 => ?_, fun _ h2 => ?_, ?_⟩
    · have h1 := hr.counted
      rw [hx, hpreg, count_update, ← h1, hc, hl]
      rfl
    · have h1 := hr.refcnt
      rw [hx, hpreg, count_update, ← h1]
      simp
    · by_cases hq : q = p
      · subst hq
        rw [hp]
      · rw [hother q hq, hnone q h1] at h2
        cases h2
    · by_cases hq : q = p
      · subst hq
        rw [hp]
      · rw [hother q hq, hpc q h1] at h2
        exact absurd rfl h2
    · by_cases hq : q = p
      · subst hq
        rw [hp]
        exact hat
      · rw [hother q hq, hnone q h1] at h2
        cases h2
    · rw [hx] at h2
      cases h2
    · have h1 := hr.reserved
      rw [if_pos hc] at h1
      rw [hx, hres, update_self, h1]
      simp
  · rw [htot, hbal, hres, sum_update, ← h.balance]
    omega
  · rw [hswap, hres, sum_update, h.swap]
    omega

omit [Fintype R] in
/-- A step of a process that does not page in. -/
theorem RegInv.step {x : Reg} {y : Preg} (h : RegInv v s (v.reg p))
    (hreg : s'.reg = update s.reg (v.reg p) x) (hpreg : s'.preg = update s.preg p y)
    (hx : x.mlocking = (s.reg (v.reg p)).mlocking ∧ x.mlock = (s.reg (v.reg p)).mlock)
    (hp : (s.preg p).pc ≠ .paging) (hy : y.pc ≠ .paging)
    (hcnt : x.mlockcnt = (s.reg (v.reg p)).mlockcnt + (y.locked.toNat - (s.preg p).locked.toNat : ℤ))
    (href : x.refcnt = (s.reg (v.reg p)).refcnt + (y.attached.toNat - (s.preg p).attached.toNat : ℤ))
    (hbusy : x.mlocking = true → y.locked = true → y.pc = .waiting)
    (hlocked : y.pc ≠ .user → y.locked = true) (hattached : y.locked = true → y.attached = true)
    (hresident : x.mlockcnt ≠ 0 → x.mlocking = false → v.pages (v.reg p) ⊆ x.valid)
    (hres : s'.reserved (v.reg p) = if x.mlockcnt = 0 then 0 else ((v.pages (v.reg p)).card : ℤ)) :
    RegInv v s' (v.reg p) := by
  have hother : ∀ q, q ≠ p → s'.preg q = s.preg q := fun q hq => by rw [hpreg, update_of_ne hq]
  have hp' : s'.preg p = y := by rw [hpreg, update_self]
  have hx' : s'.reg (v.reg p) = x := by rw [hreg, update_self]
  have hpag : ∀ q, (s'.preg q).pc = .paging → q ≠ p ∧ (s.preg q).pc = .paging := fun q h1 => by
    by_cases hq : q = p
    · subst hq
      rw [hp'] at h1
      exact absurd h1 hy
    · rw [hother q hq] at h1
      exact ⟨hq, h1⟩
  refine ⟨?_, ?_, ?_, fun h1 => ?_, fun q h1 h2 => ?_, fun q q' h1 h2 h3 h4 => ?_, fun h1 q h2 h3 => ?_,
    fun q h1 h2 => ?_, fun q h1 h2 => ?_, fun h1 h2 => ?_, ?_⟩
  · rw [hx', hpreg, count_update, ← h.counted, hcnt]
  · rw [hx', hpreg, count_update, ← h.refcnt, href]
  · rw [hx', hx.1, hx.2]
    exact h.sema
  · rw [hx', hx.1] at h1
    obtain ⟨q, h2, h3⟩ := h.pager h1
    have hq : q ≠ p := by
      rintro rfl
      exact hp h3
    exact ⟨q, h2, by rw [hother q hq]; exact h3⟩
  · rw [hx', hx.1]
    exact h.paging q h1 (hpag q h2).2
  · exact h.one q q' h1 h2 (hpag q h3).2 (hpag q' h4).2
  · rw [hx'] at h1
    by_cases hq : q = p
    · subst hq
      rw [hp'] at h3 ⊢
      exact .inr (hbusy h1 h3)
    · rw [hother q hq] at h3 ⊢
      exact h.busy (hx.1 ▸ h1) q h2 h3
  · by_cases hq : q = p
    · subst hq
      rw [hp'] at h2 ⊢
      exact hlocked h2
    · rw [hother q hq] at h2 ⊢
      exact h.locked q h1 h2
  · by_cases hq : q = p
    · subst hq
      rw [hp'] at h2 ⊢
      exact hattached h2
    · rw [hother q hq] at h2 ⊢
      exact h.attached q h1 h2
  · rw [hx'] at h1 h2 ⊢
    exact hresident h1 h2
  · rw [hx']
    exact hres

omit [Fintype R] in
/-- The process that pages in has come back. -/
theorem RegInv.paged {x : Reg} {y : Preg} (h : RegInv v s (v.reg p))
    (hreg : s'.reg = update s.reg (v.reg p) x) (hpreg : s'.preg = update s.preg p y)
    (hx : x.mlocking = false ∧ x.mlock = false) (hp : (s.preg p).pc = .paging) (hy : y.pc = .user)
    (hcnt : x.mlockcnt = (s.reg (v.reg p)).mlockcnt + (y.locked.toNat - (s.preg p).locked.toNat : ℤ))
    (href : x.refcnt = (s.reg (v.reg p)).refcnt) (hattached : y.attached = (s.preg p).attached)
    (hresident : x.mlockcnt ≠ 0 → v.pages (v.reg p) ⊆ x.valid)
    (hres : s'.reserved (v.reg p) = if x.mlockcnt = 0 then 0 else ((v.pages (v.reg p)).card : ℤ)) :
    RegInv v s' (v.reg p) := by
  have hother : ∀ q, q ≠ p → s'.preg q = s.preg q := fun q hq => by rw [hpreg, update_of_ne hq]
  have hp' : s'.preg p = y := by rw [hpreg, update_self]
  have hx' : s'.reg (v.reg p) = x := by rw [hreg, update_self]
  have hpag : ∀ q, v.reg q = v.reg p → (s'.preg q).pc ≠ .paging := fun q hq h1 => by
    by_cases hqp : q = p
    · subst hqp
      rw [hp', hy] at h1
      cases h1
    · rw [hother q hqp] at h1
      exact hqp (h.one q p hq rfl h1 hp)
  refine ⟨?_, ?_, ?_, fun h1 => ?_, fun q h1 h2 => ?_, fun q q' h1 h2 h3 h4 => ?_, fun h1 q h2 h3 => ?_,
    fun q h1 h2 => ?_, fun q h1 h2 => ?_, fun h1 h2 => ?_, ?_⟩
  · rw [hx', hpreg, count_update, ← h.counted, hcnt]
  · rw [hx', hpreg, count_update, ← h.refcnt, href, hattached]
    omega
  · rw [hx', hx.1, hx.2]
  · rw [hx', hx.1] at h1
    cases h1
  · exact absurd h2 (hpag q h1)
  · exact absurd h3 (hpag q h1)
  · rw [hx', hx.1] at h1
    cases h1
  · by_cases hq : q = p
    · subst hq
      rw [hp'] at h2
      exact absurd hy h2
    · rw [hother q hq] at h2 ⊢
      exact h.locked q h1 h2
  · by_cases hq : q = p
    · subst hq
      rw [hp', hattached]
      exact h.attached q h1 (h.locked q h1 (by rw [hp]; decide))
    · rw [hother q hq] at h2 ⊢
      exact h.attached q h1 h2
  · rw [hx'] at h1 ⊢
    exact hresident h1
  · rw [hx']
    exact hres

/-! ### Steps -/

omit [Fintype P] [Fintype R] in
theorem mlockpreg_first (s : Vm P R) (p : P) (swapOk : Bool) (hc : (s.reg (v.reg p)).mlockcnt = 0)
    (hm : (s.reg (v.reg p)).mlock = false) :
    s.mlockpreg v p swapOk = .ok (s.setPreg p { s.preg p with locked := false }) ∨
    ∃ s', s.mlockpreg v p swapOk = .ok s' ∧
      s'.reg = update s.reg (v.reg p)
        { s.reg (v.reg p) with mlockcnt := 1, mlocking := true, mlock := true } ∧
      s'.preg = update s.preg p { s.preg p with locked := true, pc := .paging } ∧
      s'.reserved = update s.reserved (v.reg p)
        (s.reserved (v.reg p) + ((v.pages (v.reg p)).card : ℤ)) ∧
      s'.lockable - s'.stolen = s.lockable - s.stolen - ((v.pages (v.reg p)).card : ℤ) ∧
      s'.swap = s.swap + ((v.pages (v.reg p)).card : ℤ) ∧ s'.total = s.total := by
  unfold Vm.mlockpreg Vm.clockmemreserve
  dsimp only
  rw [if_pos hc]
  split_ifs with h1 h2
  · exact .inl rfl
  · right
    refine ⟨Vm.setPreg (Vm.setReg { s with
        lockable := s.lockable - ((v.pages (v.reg p)).card : ℤ)
        swap := s.swap + ((v.pages (v.reg p)).card : ℤ)
        reserved := update s.reserved (v.reg p)
          (s.reserved (v.reg p) + ((v.pages (v.reg p)).card : ℤ)) } (v.reg p)
        { s.reg (v.reg p) with mlockcnt := 1, mlocking := true, mlock := true }) p
        { s.preg p with locked := true, pc := .paging }, ?_, rfl, rfl, rfl, ?_, rfl, rfl⟩
    · dsimp only
      rw [hm]
      rfl
    · dsimp only [Vm.setPreg, Vm.setReg]
      omega
  · exact .inl rfl

theorem Inv.mlock (h : Inv v s) {swapOk : Bool} (hen : Enabled v s (.mlock p swapOk)) :
    ∃ s', s.mlockpreg v p swapOk = .ok s' ∧ Inv v s' := by
  obtain ⟨hat, hl, hpc⟩ := hen
  have hr := h.reg (v.reg p)
  by_cases hc : (s.reg (v.reg p)).mlockcnt = 0
  · have hm : (s.reg (v.reg p)).mlock = false := by
      rw [hr.sema]
      by_contra h1
      obtain ⟨q, h2, h3⟩ := hr.pager (by simpa using h1)
      have h4 := count_pos (v := v) (f := Preg.locked) (g := s.preg) (hr.locked q h2 (by rw [h3]; decide))
      rw [h2, ← hr.counted] at h4
      omega
    rcases mlockpreg_first s p swapOk hc hm with h1 | ⟨s', h1, h2, h3, h4, h5, h6, h7⟩
    · have h2 : s.setPreg p { s.preg p with locked := false } = s := by
        rw [Vm.setPreg, ← hl, update_eq_self]
      exact ⟨s, h1.trans (congrArg Except.ok h2), h⟩
    · exact ⟨s', h1, h.first hat hl hc h2 h3 h4 h5 h6 h7⟩
  · obtain ⟨s', h1, hreg, hpreg, hres, hlock, hst, hsw, htot⟩ : ∃ s', s.mlockpreg v p swapOk = .ok s' ∧
        s'.reg = update s.reg (v.reg p)
          { s.reg (v.reg p) with mlockcnt := (s.reg (v.reg p)).mlockcnt + 1 } ∧
        s'.preg = update s.preg p { s.preg p with
          locked := true, pc := if (s.reg (v.reg p)).mlocking then .waiting else .user } ∧
        s'.reserved = s.reserved ∧ s'.lockable = s.lockable ∧ s'.stolen = s.stolen ∧
        s'.swap = s.swap ∧ s'.total = s.total :=
      ⟨_, if_neg hc, rfl, rfl, rfl, rfl, rfl, rfl, rfl⟩
    have hpos : 0 ≤ (s.reg (v.reg p)).mlockcnt := by
      rw [hr.counted]
      exact Int.natCast_nonneg _
    have hc' : (s.reg (v.reg p)).mlockcnt + 1 ≠ 0 := by omega
    refine ⟨s', h1, regInv_other h.reg hreg hpreg (fun r _ => by rw [hres]) ?_, ?_, ?_⟩
    · refine hr.step hreg hpreg ⟨rfl, rfl⟩ (by rw [hpc]; decide) ?_ ?_ ?_ ?_ ?_ ?_ ?_ ?_
      · dsimp only
        split <;> decide
      · dsimp only
        rw [hl]
        rfl
      · simp
      · intro h2 _
        dsimp only at h2 ⊢
        rw [if_pos h2]
      · exact fun _ => rfl
      · exact fun _ => hat
      · exact fun _ h2 => hr.resident hc h2
      · rw [hres, hr.reserved, if_neg hc, if_neg hc']
    · rw [hlock, hst, hres, htot]
      exact h.balance
    · rw [hsw, hres]
      exact h.swap

/-- All pages have been brought in. -/
theorem Inv.pagedIn (h : Inv v s) (hen : Enabled v s (.pagedIn p true)) :
    Inv v (s.pagedIn v p true) := by
  obtain ⟨hpc, hin⟩ := hen
  have hr := h.reg (v.reg p)
  have hl := hr.locked p rfl (by rw [hpc]; decide)
  have hreg : (s.pagedIn v p true).reg = update s.reg (v.reg p)
      { s.reg (v.reg p) with mlock := false, mlocking := false } := rfl
  have hpreg : (s.pagedIn v p true).preg = update s.preg p { s.preg p with pc := .user } := rfl
  refine ⟨regInv_other h.reg hreg hpreg (fun _ _ => rfl) ?_, h.balance, h.swap⟩
  refine hr.paged hreg hpreg ⟨rfl, rfl⟩ hpc rfl ?_ rfl rfl (fun _ => hin rfl) hr.reserved
  dsimp only
  omega

omit [DecidableEq P] in
theorem Inv.returned {n : ℕ} (h : Inv v s) (hreg : ∀ r, RegInv v s' r)
    (hres : s'.reserved = update s.reserved r (s.reserved r - n))
    (hbal : s'.lockable - s'.stolen = s.lockable - s.stolen + n) (hsw : s'.swap = s.swap - n)
    (htot : s'.total = s.total) : Inv v s' := by
  refine ⟨hreg, ?_, ?_⟩
  · rw [hbal, hres, sum_update, htot, ← h.balance]
    omega
  · rw [hsw, hres, sum_update, h.swap]
    omega

omit [Fintype P] [Fintype R] in
theorem pagedIn_failed (s : Vm P R) (p : P) :
    (s.pagedIn v p false).reg = update s.reg (v.reg p) { s.reg (v.reg p) with
      mlock := false, mlocking := false, mlockcnt := (s.reg (v.reg p)).mlockcnt - 1 } ∧
    (s.pagedIn v p false).preg = update s.preg p { s.preg p with locked := false, pc := .user } ∧
    (s.pagedIn v p false).reserved = update s.reserved (v.reg p)
      (s.reserved (v.reg p) - ((v.pages (v.reg p)).card : ℤ)) ∧
    (s.pagedIn v p false).lockable - (s.pagedIn v p false).stolen =
      s.lockable - s.stolen + ((v.pages (v.reg p)).card : ℤ) ∧
    (s.pagedIn v p false).swap = s.swap - ((v.pages (v.reg p)).card : ℤ) ∧
    (s.pagedIn v p false).total = s.total := by
  -- the state in which the memory is given back
  obtain ⟨s1, hs1⟩ : ∃ s1, s1 = s.setReg (v.reg p) { s.reg (v.reg p) with
      mlock := false, mlocking := false, mlockcnt := (s.reg (v.reg p)).mlockcnt - 1 } := ⟨_, rfl⟩
  obtain ⟨h1, h2, h3, h4, h5, h6⟩ := unreserve_spec s1 (v.reg p) (v.pages (v.reg p)).card
  have h0 : s.pagedIn v p false = (s1.lockmemunreserve (v.reg p) (v.pages (v.reg p)).card).setPreg p
      { (s1.lockmemunreserve (v.reg p) (v.pages (v.reg p)).card).preg p with
        locked := false, pc := .user } := by
    rw [hs1]
    simp only [Vm.pagedIn, Vm.setReg, update_self, update_idem, Bool.false_eq_true, if_false]
  rw [h0]
  refine ⟨?_, ?_, ?_, ?_, ?_, ?_⟩
  · exact h1.trans (by rw [hs1]; rfl)
  · show update (s1.lockmemunreserve _ _).preg p { (s1.lockmemunreserve _ _).preg p with
      locked := false, pc := .user } = _
    rw [h2, hs1]
    rfl
  · exact h3.trans (by rw [hs1]; rfl)
  · exact h6.trans (by rw [hs1]; rfl)
  · exact h4.trans (by rw [hs1]; rfl)
  · exact h5.trans (by rw [hs1]; rfl)

/-- The pages have not been brought in, and nobody waits for them. -/
theorem Inv.failed (h : Inv v s) (hen : Enabled v s (.pagedIn p false))
    (hone : (s.reg (v.reg p)).mlockcnt = 1) : Inv v (s.pagedIn v p false) := by
  have hr := h.reg (v.reg p)
  have hpc : (s.preg p).pc = .paging := hen.1
  have hl := hr.locked p rfl (by rw [hpc]; decide)
  obtain ⟨h1, h2, h3, h4, h5, h6⟩ := pagedIn_failed (v := v) s p
  refine h.returned (regInv_other h.reg h1 h2 (fun r hne => by rw [h3, update_of_ne hne]) ?_) h3 h4 h5 h6
  refine hr.paged h1 h2 ⟨rfl, rfl⟩ hpc rfl ?_ rfl rfl (fun hc => ?_) ?_
  · dsimp only
    rw [hl]
    simp
    omega
  · dsimp only at hc
    omega
  · rw [h3, update_self, hr.reserved, hone]
    simp

omit [Fintype P] [Fintype R] in
theorem munlockpreg_spec (s : Vm P R) (p : P) : (s.munlockpreg v p).reg = update s.reg (v.reg p)
      { s.reg (v.reg p) with mlockcnt := (s.reg (v.reg p)).mlockcnt - 1 } ∧
    (s.munlockpreg v p).preg = update s.preg p { s.preg p with locked := false } ∧
    ((s.reg (v.reg p)).mlockcnt ≠ 1 → (s.munlockpreg v p).reserved = s.reserved ∧
      (s.munlockpreg v p).lockable = s.lockable ∧ (s.munlockpreg v p).stolen = s.stolen ∧
      (s.munlockpreg v p).swap = s.swap ∧ (s.munlockpreg v p).total = s.total) ∧
    ((s.reg (v.reg p)).mlockcnt = 1 →
      (s.munlockpreg v p).reserved = update s.reserved (v.reg p)
        (s.reserved (v.reg p) - ((s.reg (v.reg p)).valid.card : ℤ)) ∧
      (s.munlockpreg v p).lockable - (s.munlockpreg v p).stolen =
        s.lockable - s.stolen + ((s.reg (v.reg p)).valid.card : ℤ) ∧
      (s.munlockpreg v p).swap = s.swap - ((s.reg (v.reg p)).valid.card : ℤ) ∧
      (s.munlockpreg v p).total = s.total) := by
  obtain ⟨s1, hs1⟩ : ∃ s1, s1 = s.setReg (v.reg p) { s.reg (v.reg p) with
      mlockcnt := (s.reg (v.reg p)).mlockcnt - 1 } := ⟨_, rfl⟩
  obtain ⟨h1, h2, h3, h4, h5, h6⟩ := unreserve_spec s1 (v.reg p) (s.reg (v.reg p)).valid.card
  by_cases hone : (s.reg (v.reg p)).mlockcnt = 1
  · have h0 : s.munlockpreg v p = (s1.lockmemunreserve (v.reg p) (s.reg (v.reg p)).valid.card).setPreg p
        { (s1.lockmemunreserve (v.reg p) (s.reg (v.reg p)).valid.card).preg p with locked := false } := by
      rw [hs1]
      simp only [Vm.munlockpreg, Vm.setReg, update_self, hone, sub_self, if_true]
    rw [h0]
    refine ⟨h1.trans (by rw [hs1]; rfl), ?_, fun hne => absurd hone hne, fun _ =>
      ⟨h3.trans (by rw [hs1]; rfl), h6.trans (by rw [hs1]; rfl), h4.trans (by rw [hs1]; rfl),
        h5.trans (by rw [hs1]; rfl)⟩⟩
    show update (s1.lockmemunreserve _ _).preg p { (s1.lockmemunreserve _ _).preg p with
      locked := false } = _
    rw [h2, hs1]
    rfl
  · have hne : (s.reg (v.reg p)).mlockcnt - 1 ≠ 0 := by omega
    have h0 : s.munlockpreg v p = s1.setPreg p { s1.preg p with locked := false } := by
      rw [hs1]
      simp only [Vm.munlockpreg, Vm.setReg, update_self, if_neg hne]
    rw [h0, hs1]
    exact ⟨rfl, rfl, fun _ => ⟨rfl, rfl, rfl, rfl, rfl⟩, fun h7 => absurd h7 hone⟩

/-- A view is unlocked; the last one finds the pages in memory that have been reserved. -/
theorem Inv.unlock (h : Inv v s) (hl : (s.preg p).locked = true) (hpc : (s.preg p).pc = .user)
    (hcond : (s.reg (v.reg p)).mlockcnt = 1 →
      (s.reg (v.reg p)).valid.card = (v.pages (v.reg p)).card) : Inv v (s.munlockpreg v p) := by
  have hr := h.reg (v.reg p)
  have hm : (s.reg (v.reg p)).mlocking = false := by
    by_contra h3
    rcases hr.busy (by simpa using h3) p rfl hl with h4 | h4 <;> rw [hpc] at h4 <;> cases h4
  have hpos : 0 < (s.reg (v.reg p)).mlockcnt := by
    rw [hr.counted]
    exact count_pos hl
  have hresv := hr.reserved
  rw [if_neg (by omega)] at hresv
  obtain ⟨h1, h2, hmore, hlast⟩ := munlockpreg_spec (v := v) s p
  -- the counts, whether it is the last one or not
  have hstep : ((s.munlockpreg v p).reserved (v.reg p) =
      if (s.reg (v.reg p)).mlockcnt - 1 = 0 then 0 else ((v.pages (v.reg p)).card : ℤ)) →
      RegInv v (s.munlockpreg v p) (v.reg p) := fun hres => by
    refine hr.step h1 h2 ⟨rfl, rfl⟩ (by rw [hpc]; decide) (by rw [hpc]; decide) ?_ ?_ ?_ ?_ ?_ ?_ hres
    · dsimp only
      rw [hl]
      simp
      omega
    · simp
    · exact fun _ h3 => Bool.noConfusion h3
    · exact fun h3 => absurd hpc h3
    · exact fun h3 => Bool.noConfusion h3
    · exact fun _ _ => hr.resident (by omega) hm
  by_cases hone : (s.reg (v.reg p)).mlockcnt = 1
  · obtain ⟨h3, h4, h5, h6⟩ := hlast hone
    refine h.returned (regInv_other h.reg h1 h2 (fun r hne => by rw [h3, update_of_ne hne])
      (hstep ?_)) h3 h4 h5 h6
    rw [h3, update_self, hresv, hcond hone, if_pos (by omega)]
    omega
  · obtain ⟨h3, h4, h5, h6, h7⟩ := hmore hone
    refine ⟨regInv_other h.reg h1 h2 (fun r _ => by rw [h3]) (hstep ?_), ?_, ?_⟩
    · rw [h3, hresv, if_neg (by omega)]
    · rw [h3, h4, h5, h7]
      exact h.balance
    · rw [h3, h6]
      exact h.swap

/-- A view that is not locked is detached. -/
theorem Inv.leave (h : Inv v s) (hat : (s.preg p).attached = true) (hl : (s.preg p).locked = false)
    (hpc : (s.preg p).pc = .user) : ∃ s', s.removePreg v p = .ok s' ∧ Inv v s' := by
  have hr := h.reg (v.reg p)
  have hout : ∀ {s' : Vm P R} {V : Finset ℕ},
      s'.reg = update s.reg (v.reg p)
        { s.reg (v.reg p) with refcnt := (s.reg (v.reg p)).refcnt - 1, valid := V } →
      s'.preg = update s.preg p { s.preg p with attached := false } → s'.reserved = s.reserved →
      ((s.reg (v.reg p)).mlockcnt ≠ 0 → (s.reg (v.reg p)).mlocking = false → v.pages (v.reg p) ⊆ V) →
      ∀ r, RegInv v s' r := fun hreg hpreg hres hV => by
    refine regInv_other h.reg hreg hpreg (fun r _ => by rw [hres]) ?_
    refine hr.step hreg hpreg ⟨rfl, rfl⟩ (by rw [hpc]; decide) (by rw [hpc]; decide) ?_ ?_ ?_ ?_ ?_ hV ?_
    · simp
    · dsimp only
      rw [hat]
      simp
      omega
    · exact fun _ h1 => Bool.noConfusion (hl.symm.trans h1)
    · exact fun h1 => absurd hpc h1
    · exact fun h1 => Bool.noConfusion (hl.symm.trans h1)
    · rw [hres, hr.reserved]
  by_cases hfree : (s.reg (v.reg p)).refcnt - 1 = 0 ∧ v.nofree (v.reg p) = false
  · -- nobody has a view of the region any more
    have hcnt : (s.reg (v.reg p)).mlockcnt = 0 := by
      by_contra h1
      obtain ⟨q, hq⟩ := exists_of_count (hr.counted ▸ h1)
      have hqp : q ≠ p := by
        rintro rfl
        exact Bool.noConfusion (hl.symm.trans hq.2)
      have h3 := count_update (v := v) Preg.attached s.preg p { s.preg p with attached := false }
      have h4 := count_pos (v := v) (f := Preg.attached) (p := q)
        (g := update s.preg p { s.preg p with attached := false })
        (by rw [update_of_ne hqp]; exact hr.attached q hq.1 hq.2)
      rw [hq.1, h3, ← hr.refcnt, hat] at h4
      simp only [Bool.toNat_false, Bool.toNat_true] at h4
      omega
    have h0 : s.removePreg v p = .ok (((s.setPreg p { s.preg p with attached := false }).setReg (v.reg p)
        { s.reg (v.reg p) with refcnt := (s.reg (v.reg p)).refcnt - 1 }).setReg (v.reg p)
        { s.reg (v.reg p) with refcnt := (s.reg (v.reg p)).refcnt - 1, valid := ∅ }) := by
      simp only [Vm.removePreg, Vm.setReg, Vm.setPreg, update_self, if_pos hfree, hcnt, ne_eq,
        not_true_eq_false, if_false]
    refine ⟨_, h0, hout (V := ∅) ?_ rfl rfl fun h1 => absurd hcnt h1, h.balance, h.swap⟩
    simp only [Vm.setReg, update_idem]
    rfl
  · have h0 : s.removePreg v p = .ok ((s.setPreg p { s.preg p with attached := false }).setReg (v.reg p)
        { s.reg (v.reg p) with refcnt := (s.reg (v.reg p)).refcnt - 1 }) := by
      simp only [Vm.removePreg, Vm.setReg, Vm.setPreg, update_self, if_neg hfree]
    exact ⟨_, h0, hout rfl rfl rfl hr.resident, h.balance, h.swap⟩

theorem Inv.detach (h : Inv v s) (hen : Enabled v s (.detach p)) (hcond : Cond v s (.detach p)) :
    ∃ s', s.detachreg v p = .ok s' ∧ Inv v s' := by
  obtain ⟨hat, hpc⟩ := hen
  unfold Vm.detachreg
  by_cases hl : (s.preg p).locked = true
  · have h1 := (munlockpreg_spec (v := v) s p).2.1
    have h2 : (s.munlockpreg v p).preg p = { s.preg p with locked := false } := by rw [h1, update_self]
    rw [if_pos hl]
    exact (h.unlock hl hpc (hcond hl)).leave (p := p) (by rw [h2]; exact hat) (by rw [h2])
      (by rw [h2]; exact hpc)
  · rw [if_neg hl]
    exact h.leave hat (by simpa using hl) hpc

theorem Inv.attach (h : Inv v s) (hen : Enabled v s (.attach p)) : Inv v (s.attachreg v p) := by
  have hr := h.reg (v.reg p)
  have hat : (s.preg p).attached = false := hen
  have hl : (s.preg p).locked = false := by
    by_contra h1
    exact Bool.noConfusion (hat.symm.trans (hr.attached p rfl (by simpa using h1)))
  have hpc : (s.preg p).pc = .user := by
    by_contra h1
    exact Bool.noConfusion (hl.symm.trans (hr.locked p rfl h1))
  refine ⟨regInv_other h.reg rfl rfl (fun _ _ => rfl) ?_, h.balance, h.swap⟩
  refine hr.step rfl rfl ⟨rfl, rfl⟩ (by rw [hpc]; decide) (by decide) ?_ ?_ ?_ ?_ ?_ hr.resident hr.reserved
  · dsimp only
    rw [hl]
    simp
  · dsimp only
    rw [hat]
    simp
  · exact fun _ h1 => Bool.noConfusion h1
  · exact fun h1 => absurd rfl h1
  · exact fun h1 => Bool.noConfusion h1

omit [DecidableEq P] in
/-- Pages come into memory or go. -/
theorem Inv.pages (h : Inv v s) (r : R) (V : Finset ℕ) (hV : (s.reg r).mlockcnt ≠ 0 →
    (s.reg r).mlocking = false → v.pages r ⊆ V) : Inv v (s.setReg r { s.reg r with valid := V }) := by
  refine ⟨fun a => ?_, h.balance, h.swap⟩
  by_cases ha : a = r
  · subst ha
    have hr := h.reg a
    have hx : (s.setReg a { s.reg a with valid := V }).reg a = { s.reg a with valid := V } := update_self ..
    exact ⟨by rw [hx]; exact hr.counted, by rw [hx]; exact hr.refcnt, by rw [hx]; exact hr.sema,
      by rw [hx]; exact hr.pager, by rw [hx]; exact hr.paging, hr.one, by rw [hx]; exact hr.busy,
      hr.locked, hr.attached, by rw [hx]; exact hV, by rw [hx]; exact hr.reserved⟩
  · exact (h.reg a).congr (update_of_ne ha _ _) (fun _ _ => rfl) rfl

/-- A process that waits goes on. -/
theorem Inv.goes {pc : Pc} (h : Inv v s) (hp : (s.preg p).pc = .waiting ∨ (s.preg p).pc = .woken)
    (hm : (s.reg (v.reg p)).mlocking = false) (hpc : pc ≠ .paging) :
    Inv v (s.setPreg p { s.preg p with pc := pc }) := by
  have hr := h.reg (v.reg p)
  have hl : (s.preg p).locked = true := hr.locked p rfl (by rcases hp with h1 | h1 <;> rw [h1] <;> decide)
  have hreg : (s.setPreg p { s.preg p with pc := pc }).reg = update s.reg (v.reg p) (s.reg (v.reg p)) :=
    (update_eq_self ..).symm
  refine ⟨regInv_other h.reg hreg rfl (fun _ _ => rfl) ?_, h.balance, h.swap⟩
  refine hr.step hreg rfl ⟨rfl, rfl⟩ (by rcases hp with h1 | h1 <;> rw [h1] <;> decide) hpc ?_ ?_ ?_
    (fun _ => hl) (hr.attached p rfl) hr.resident hr.reserved
  · simp
  · simp
  · exact fun h1 => Bool.noConfusion (hm.symm.trans h1)

omit [DecidableEq P] in
theorem Inv.start (h : Start s) : Inv v s := by
  obtain ⟨hreg, hpreg, -, -, hswap, hres, htot⟩ := h
  have hnone : ∀ f : Preg → Bool, f { attached := false, locked := false, pc := .user } = false →
      ∀ r, count v f s.preg r = 0 := fun f hf r => by
    unfold count
    rw [filter_false_of_mem fun p _ h1 => ?_]
    · rfl
    · rw [hpreg p, hf] at h1
      exact Bool.noConfusion h1.2
  refine ⟨fun r => ?_, ?_, ?_⟩
  · refine ⟨?_, ?_, by rw [hreg r], fun h1 => ?_, fun p _ h1 => ?_, fun p _ _ _ h1 => ?_, fun h1 => ?_,
      fun p _ h1 => ?_, fun p _ h1 => ?_, fun h1 => ?_, ?_⟩
    · rw [hreg r, hnone Preg.locked rfl]
    · rw [hreg r, hnone Preg.attached rfl]
    · rw [hreg r] at h1
      exact Bool.noConfusion h1
    · rw [hpreg p] at h1
      cases h1
    · rw [hpreg p] at h1
      cases h1
    · rw [hreg r] at h1
      exact Bool.noConfusion h1
    · rw [hpreg p] at h1
      exact absurd rfl h1
    · rw [hpreg p] at h1
      exact Bool.noConfusion h1
    · rw [hreg r] at h1
      exact absurd rfl h1
    · rw [hres r, hreg r]
      rfl
  · rw [sum_eq_zero fun r _ => hres r, htot, add_zero]
  · rw [sum_eq_zero fun r _ => hres r, hswap]

/-! ### Runs -/

/-- Ten pages may be locked. -/
def empty : Vm Bool Unit where
  reg _ := { mlockcnt := 0, mlocking := false, mlock := false, refcnt := 0, valid := ∅ }
  preg _ := { attached := false, locked := false, pc := .user }
  lockable := 10
  stolen := 0
  swap := 0
  reserved _ := 0
  total := 10

end Hpux.Mlock
