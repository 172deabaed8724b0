import Hpux910.Lib.Census
import Hpux910.Sys.SysVShm
import Mathlib

/-!
# Runs of the shared memory calls

* `Tables`, `Forks`, `Counts`, `ShmInv` : the invariant, in three parts.
* `attached_except`, `expected_except` : what is counted, when one address space and one fork change.
* `ShmInv.recount`, `ShmInv.regroup`, `ShmInv.freed` : the three ways to keep it.
* `shmget_spec`, `shmat_spec`, `shmrmseg_spec`, `detach_spec`, `shmctl_spec` : the calls.
* `ShmInv.call` : every step; `shm_kept` : runs.
-/

namespace Hpux

namespace SysV

open Function List

variable {P : Type} {k : ShmInfo} {s s' : Shm P} {p c : P} {i r : ℕ}

/-! ### The invariant -/

/-- The sequence number of an id is that of its entry as long as this is not freed, and smaller
afterwards. -/
structure Given.Kept (k : ShmInfo) (s : Shm P) (g : Given) : Prop where
  slot : g.slot < k.shmmni
  freed : g.freed ≤ s.freed g.slot
  wraps : g.wraps ≤ s.wraps g.slot
  seq : ∃ q : ℕ, g.id = (q * k.shmmni + g.slot : ℕ) ∧ (s.wraps g.slot = g.wraps →
    if g.freed = s.freed g.slot then q = (s.shmem g.slot).perm.seq else q < (s.shmem g.slot).perm.seq)

/-- The entries and their regions. -/
structure Tables (k : ShmInfo) (s : Shm P) : Prop where
  alloc : ∀ i, (s.shmem i).perm.ipcAlloc = true ↔ (s.shmem i).vas ≠ none
  bound : ∀ i r, (s.shmem i).vas = some r → i < k.shmmni
  inj : ∀ i j r, (s.shmem i).vas = some r → (s.shmem j).vas = some r → i = j
  owned : ∀ r, s.reg r ≠ none → ∃ i, (s.shmem i).vas = some r
  fresh : ∀ r, s.reg r ≠ none → r < s.next
  small : ∀ i, (s.shmem i).perm.seq < 65536
  ids_pos : ∀ i, i < k.shmmni → (s.shmem i).perm.seq * k.shmmni + i < 2 ^ 31
  ids : ∀ g ∈ s.ids, g.Kept k s

/-- The address space that a fork makes. -/
def Fork.child : Fork P → Option P
  | .none => .none
  | .copying c _ _ _ => some c
  | .backing c _ => some c

/-- A process that forks is there and its pregions are as they were; those of the child are the ones that
have been copied, and no others when the fork fails. -/
def ForkOk (s : Shm P) (p : P) : Prop :=
  match s.fork p with
  | .none => True
  | .copying c done left b => s.life p = .up ∧ s.life c = .made ∧ s.pregs c = done ∧
      s.pregs p = done.reverse ++ left ∧ (b = true → left ≠ [])
  | .backing c back => s.life p = .up ∧ s.life c = .undone ∧ back ⊆ s.pregs p ∧ s.pregs c ⊆ s.pregs p

structure Forks (s : Shm P) : Prop where
  ok : ∀ p, ForkOk s p
  child : ∀ p q c, (s.fork p).child = some c → (s.fork q).child = some c → p = q
  empty : ∀ p, s.life p = .none → s.pregs p = []
  parent : ∀ c, s.life c = .made ∨ s.life c = .undone → ∃ p, (s.fork p).child = some c

/-- What is counted. -/
structure Counts [Fintype P] (s : Shm P) : Prop where
  counted : ∀ i r, (s.shmem i).vas = some r → (s.shmem i).nattch = expected s r % 65536
  refcnt : ∀ i r, (s.shmem i).vas = some r → s.reg r = some (1 + (attached s r : ℤ))
  member : ∀ p, ∀ x ∈ s.pregs p, ∃ i, (s.shmem i).vas = some x.reg
  dest : ∀ i r, (s.shmem i).vas = some r → (s.shmem i).dest = true → 0 < attached s r

structure ShmInv [Fintype P] (k : ShmInfo) (s : Shm P) : Prop where
  tables : Tables k s
  forks : Forks s
  counts : Counts s

/-! ### Forks -/

theorem Forks.up (h : Forks s) (hp : (s.fork p).child = some c) :
    s.life p = .up ∧ (s.life c = .made ∨ s.life c = .undone) := by
  have h1 := h.ok p
  unfold ForkOk at h1
  cases hf : s.fork p with
  | none =>
    rw [hf] at hp
    cases hp
  | copying c' done left b =>
    rw [hf] at hp h1
    cases hp
    exact ⟨h1.1, .inl h1.2.1⟩
  | backing c' back =>
    rw [hf] at hp h1
    cases hp
    exact ⟨h1.1, .inr h1.2.1⟩

/-- What a fork depends on. -/
theorem ForkOk.congr (h : ForkOk s p) (hf : s'.fork p = s.fork p)
    (hp : s.fork p ≠ .none → s'.life p = s.life p ∧ s'.pregs p = s.pregs p)
    (hc : ∀ c, (s.fork p).child = some c → s'.life c = s.life c ∧ s'.pregs c = s.pregs c) : ForkOk s' p := by
  unfold ForkOk at h ⊢
  rw [hf]
  cases hf : s.fork p with
  | none => trivial
  | copying c done left b =>
    rw [hf] at h hp hc
    obtain ⟨h1, h2⟩ := hp nofun
    obtain ⟨h3, h4⟩ := hc c rfl
    simpa only [h1, h2, h3, h4] using h
  | backing c back =>
    rw [hf] at h hp hc
    obtain ⟨h1, h2⟩ := hp nofun
    obtain ⟨h3, h4⟩ := hc c rfl
    simpa only [h1, h2, h3, h4] using h

/-- A process that does not fork attaches, detaches or is gone. -/
theorem Forks.own (h : Forks s) (hp : s.life p = .up) (hn : s.fork p = .none) (hf : s'.fork = s.fork)
    (hother : ∀ q, q ≠ p → s'.life q = s.life q ∧ s'.pregs q = s.pregs q)
    (hself : s'.life p = .up ∨ s'.life p = .none ∧ s'.pregs p = []) : Forks s' := by
  refine ⟨fun q => (h.ok q).congr (by rw [hf]) (fun hq => hother q ?_) (fun c hc => hother c ?_), ?_,
    fun q hq => ?_, fun c hc => ?_⟩
  · rintro rfl
    exact hq hn
  · rintro rfl
    rcases (h.up hc).2 with h1 | h1 <;> rw [hp] at h1 <;> cases h1
  · rw [hf]
    exact h.child
  · by_cases hqp : q = p
    · subst hqp
      rcases hself with h1 | h1
      · rw [hq] at h1
        cases h1
      · exact h1.2
    · rw [(hother q hqp).1] at hq
      rw [(hother q hqp).2]
      exact h.empty q hq
  · by_cases hcp : c = p
    · subst hcp
      rcases hself with h1 | h1
      · rw [h1] at hc
        rcases hc with h2 | h2 <;> cases h2
      · rw [h1.1] at hc
        rcases hc with h2 | h2 <;> cases h2
    · rw [(hother c hcp).1] at hc
      rw [hf]
      exact h.parent c hc

/-- A fork goes on. -/
theorem Forks.step (h : Forks s) (hp : s.life p = .up)
    (hc : (s.fork p).child = some c ∨ s.fork p = .none ∧ s.life c = .none)
    (hf : ∀ q, q ≠ p → s'.fork q = s.fork q)
    (hother : ∀ q, q ≠ c → s'.life q = s.life q ∧ s'.pregs q = s.pregs q)
    (hself : ForkOk s' p) (hchild : (s'.fork p).child = some c ∨
      (s'.fork p).child = none ∧ (s'.life c = .up ∨ s'.life c = .none))
    (hempty : s'.life c = .none → s'.pregs c = []) : Forks s' := by
  have hup : s.life c ≠ .up := by
    rcases hc with h1 | ⟨-, h1⟩
    · rcases (h.up h1).2 with h2 | h2 <;> rw [h2] <;> nofun
    · rw [h1]
      nofun
  have hnot : ∀ q, q ≠ p → (s.fork q).child ≠ some c := by
    intro q hq hqc
    rcases hc with h1 | ⟨-, h1⟩
    · exact hq (h.child q p c hqc h1)
    · rcases (h.up hqc).2 with h2 | h2 <;> rw [h1] at h2 <;> cases h2
  have hold : ∀ d, (s.fork p).child = some d → d = c := by
    intro d hd
    rcases hc with h1 | ⟨h1, -⟩
    · rw [hd] at h1
      cases h1
      rfl
    · rw [h1] at hd
      cases hd
  have hnew : ∀ d, (s'.fork p).child = some d → d = c := by
    intro d hd
    rcases hchild with h1 | ⟨h1, -⟩
    · rw [hd] at h1
      cases h1
      rfl
    · rw [hd] at h1
      cases h1
  refine ⟨fun q => ?_, fun q q' d hq hq' => ?_, fun q hq => ?_, fun d hd => ?_⟩
  · by_cases hqp : q = p
    · rw [hqp]
      exact hself
    · refine (h.ok q).congr (hf q hqp) (fun hn => hother q ?_) (fun d hd => hother d ?_)
      · rintro rfl
        cases hq : (s.fork q).child with
        | none =>
          cases hfq : s.fork q with
          | none => exact hn hfq
          | copying => rw [hfq] at hq; cases hq
          | backing => rw [hfq] at hq; cases hq
        | some d => exact hup (h.up hq).1
      · rintro rfl
        exact hnot q hqp hd
  · by_cases hqp : q = p <;> by_cases hqp' : q' = p
    · rw [hqp, hqp']
    · subst hqp
      rw [hf q' hqp'] at hq'
      have := hnew d hq
      subst this
      exact absurd hq' (hnot q' hqp')
    · subst hqp'
      rw [hf q hqp] at hq
      have := hnew d hq'
      subst this
      exact absurd hq (hnot q hqp)
    · rw [hf q hqp] at hq
      rw [hf q' hqp'] at hq'
      exact h.child q q' d hq hq'
  · by_cases hqc : q = c
    · subst hqc
      exact hempty hq
    · rw [(hother q hqc).1] at hq
      rw [(hother q hqc).2]
      exact h.empty q hq
  · by_cases hdc : d = c
    · subst hdc
      rcases hchild with h1 | ⟨-, h1⟩
      · exact ⟨p, h1⟩
      · rcases h1 with h1 | h1 <;> rw [h1] at hd <;> rcases hd with h2 | h2 <;> cases h2
    · rw [(hother d hdc).1] at hd
      obtain ⟨q, hq⟩ := h.parent d hd
      have hqp : q ≠ p := by
        rintro rfl
        exact hdc (hold d hq)
      exact ⟨q, by rw [hf q hqp, hq]⟩

/-! ### Counting -/

@[simp]
theorem regCount_nil : regCount r [] = 0 := rfl

theorem regCount_cons (x : Preg) (l : List Preg) :
    regCount r (x :: l) = regCount r l + if x.reg = r then 1 else 0 := by
  simp [regCount, countP_cons]

theorem regCount_erase {x : Preg} {l : List Preg} (hx : x ∈ l) :
    regCount r (l.erase x) + (if x.reg = r then 1 else 0) = regCount r l := by
  have h1 : regCount r (x :: l.erase x) = regCount r l := (perm_cons_erase hx).symm.countP_eq _
  rw [← h1, regCount_cons]

theorem regCount_pos {x : Preg} {l : List Preg} (hx : x ∈ l) : 0 < regCount x.reg l :=
  countP_pos_iff.2 ⟨x, hx, by simp⟩

section

variable [Fintype P]

/-- What an address space adds. -/
def term (s : Shm P) (r : ℕ) (p : P) : ℕ := if s.life p = .undone then 0 else regCount r (s.pregs p)

theorem expected_eq (s : Shm P) (r : ℕ) : expected s r = ∑ p, term s r p + ∑ p, (s.fork p).bumps r := rfl

theorem attached_except (c : P) (h : ∀ q, q ≠ c → s'.pregs q = s.pregs q) (r : ℕ) :
    attached s' r + regCount r (s.pregs c) = attached s r + regCount r (s'.pregs c) :=
  sum_except c (f := fun q => regCount r (s'.pregs q)) (g := fun q => regCount r (s.pregs q))
    fun q hq => congrArg (regCount r) (h q hq)

/-- One address space and one fork change. -/
theorem expected_except (p c : P) (h : ∀ q, q ≠ c → s'.life q = s.life q ∧ s'.pregs q = s.pregs q)
    (hf : ∀ q, q ≠ p → s'.fork q = s.fork q) (r : ℕ) :
    expected s' r + term s r c + (s.fork p).bumps r = expected s r + term s' r c + (s'.fork p).bumps r := by
  have h1 : ∑ q, term s' r q + term s r c = ∑ q, term s r q + term s' r c :=
    sum_except c fun q hq => by rw [term, term, (h q hq).1, (h q hq).2]
  have h2 : ∑ q, (s'.fork q).bumps r + (s.fork p).bumps r =
      ∑ q, (s.fork q).bumps r + (s'.fork p).bumps r :=
    sum_except p (f := fun q => (s'.fork q).bumps r) (g := fun q => (s.fork q).bumps r)
      fun q hq => congrArg (Fork.bumps r) (hf q hq)
  rw [expected_eq, expected_eq]
  omega

theorem attached_pos {x : Preg} (hx : x ∈ s.pregs p) : 0 < attached s x.reg :=
  lt_of_lt_of_le (regCount_pos hx)
    (Finset.single_le_sum (f := fun p => regCount x.reg (s.pregs p)) (fun _ _ => Nat.zero_le _)
      (Finset.mem_univ p))

/-- Without forks, what is counted is what is attached. -/
theorem expected_eq_attached (h : Forks s) (hf : ∀ p, s.fork p = .none) (r : ℕ) :
    expected s r = attached s r := by
  have h1 : ∀ p, (s.fork p).bumps r = 0 := fun p => by rw [hf p]; rfl
  have h2 : ∀ p, term s r p = regCount r (s.pregs p) := by
    intro p
    refine if_neg fun hp => ?_
    obtain ⟨q, hq⟩ := h.parent p (.inr hp)
    rw [hf q] at hq
    cases hq
  rw [expected_eq, Finset.sum_congr rfl fun p _ => h1 p, Finset.sum_congr rfl fun p _ => h2 p,
    Finset.sum_const_zero]
  rfl

/-! ### Keeping the invariant -/

/-- What says which segment an entry is. -/
structure ShmidDs.Same (a b : ShmidDs) : Prop where
  vas : a.vas = b.vas
  alloc : a.perm.ipcAlloc = b.perm.ipcAlloc
  seq : a.perm.seq = b.perm.seq

@[simp]
theorem ShmidDs.Same.rfl {a : ShmidDs} : a.Same a := ⟨.refl _, .refl _, .refl _⟩

/-- What the calls do not touch unless an entry is freed or an id is returned. -/
structure Beside (s s' : Shm P) : Prop where
  freed : s'.freed = s.freed
  wraps : s'.wraps = s.wraps
  ids : s'.ids = s.ids

omit [Fintype P] in
theorem Tables.congr (h : Tables k s) (hs : ∀ i, (s'.shmem i).Same (s.shmem i))
    (hreg : ∀ r, s'.reg r = none ↔ s.reg r = none) (hnext : s.next ≤ s'.next) (hb : Beside s s') :
    Tables k s' := by
  refine ⟨fun i => ?_, fun i r hi => ?_, fun i j r hi hj => ?_, fun r hr => ?_, fun r hr => ?_, fun i => ?_,
    fun i hi => ?_, fun g hg => ?_⟩
  · rw [(hs i).alloc, (hs i).vas]
    exact h.alloc i
  · rw [(hs i).vas] at hi
    exact h.bound i r hi
  · rw [(hs i).vas] at hi
    rw [(hs j).vas] at hj
    exact h.inj i j r hi hj
  · obtain ⟨i, hi⟩ := h.owned r ((hreg r).not.1 hr)
    exact ⟨i, by rw [(hs i).vas, hi]⟩
  · exact lt_of_lt_of_le (h.fresh r ((hreg r).not.1 hr)) hnext
  · rw [(hs i).seq]
    exact h.small i
  · rw [(hs i).seq]
    exact h.ids_pos i hi
  · rw [hb.ids] at hg
    obtain ⟨h1, h2, h3, h4⟩ := h.ids g hg
    refine ⟨h1, by rwa [hb.freed], by rwa [hb.wraps], ?_⟩
    rw [hb.wraps, hb.freed, (hs g.slot).seq]
    exact h4

/-- The pregions of one segment change, and it counts them. -/
theorem ShmInv.recount (h : ShmInv k s) (hv : (s.shmem i).vas = some r)
    (hsame : (s'.shmem i).Same (s.shmem i)) (hother : ∀ j, j ≠ i → s'.shmem j = s.shmem j)
    (hreg : s'.reg = update s.reg r (some (1 + (attached s' r : ℤ)))) (hnext : s'.next = s.next)
    (hb : Beside s s')
    (hatt : ∀ r', r' ≠ r → attached s' r' = attached s r' ∧ expected s' r' = expected s r')
    (hcnt : (s'.shmem i).nattch = expected s' r % 65536)
    (hdest : (s'.shmem i).dest = true → 0 < attached s' r)
    (hmem : ∀ p, ∀ x ∈ s'.pregs p, x.reg = r ∨ ∃ q, x ∈ s.pregs q) (hf : Forks s') : ShmInv k s' := by
  have hall : ∀ j, (s'.shmem j).Same (s.shmem j) := fun j => by
    by_cases hj : j = i
    · rw [hj]
      exact hsame
    · rw [hother j hj]
      exact .rfl
  have hne : ∀ j r', j ≠ i → (s.shmem j).vas = some r' → r' ≠ r := by
    rintro j r' hj hjr rfl
    exact hj (h.tables.inj j i _ hjr hv)
  refine ⟨h.tables.congr hall (fun r' => ?_) hnext.ge hb, hf, ⟨fun j r' hj => ?_, fun j r' hj => ?_,
    fun q x hx => ?_, fun j r' hj hd => ?_⟩⟩
  · rw [hreg]
    by_cases hr : r' = r
    · subst hr
      rw [update_self, h.counts.refcnt i _ hv]
      simp
    · rw [update_of_ne hr]
  · rw [(hall j).vas] at hj
    by_cases hji : j = i
    · subst hji
      rw [hv] at hj
      cases hj
      exact hcnt
    · rw [hother j hji, (hatt r' (hne j r' hji hj)).2]
      exact h.counts.counted j r' hj
  · rw [(hall j).vas] at hj
    rw [hreg]
    by_cases hji : j = i
    · subst hji
      rw [hv] at hj
      cases hj
      exact update_self ..
    · rw [update_of_ne (hne j r' hji hj), (hatt r' (hne j r' hji hj)).1]
      exact h.counts.refcnt j r' hj
  · rcases hmem q x hx with h1 | ⟨q', h1⟩
    · exact ⟨i, by rw [hsame.vas, hv, h1]⟩
    · obtain ⟨j, hj⟩ := h.counts.member q' x h1
      exact ⟨j, by rw [(hall j).vas, hj]⟩
  · rw [(hall j).vas] at hj
    by_cases hji : j = i
    · subst hji
      rw [hv] at hj
      cases hj
      exact hdest hd
    · rw [hother j hji] at hd
      rw [(hatt r' (hne j r' hji hj)).1]
      exact h.counts.dest j r' hj hd

/-- Nothing that is counted changes. -/
theorem ShmInv.regroup (h : ShmInv k s) (hs : ∀ i, (s'.shmem i).Same (s.shmem i))
    (hn : ∀ i, (s'.shmem i).nattch = (s.shmem i).nattch)
    (hd : ∀ i, (s'.shmem i).dest = true → (s.shmem i).dest = true)
    (hreg : s'.reg = s.reg) (hnext : s'.next = s.next) (hb : Beside s s')
    (hatt : ∀ r, attached s' r = attached s r ∧ expected s' r = expected s r)
    (hmem : ∀ p, ∀ x ∈ s'.pregs p, ∃ q, x ∈ s.pregs q) (hf : Forks s') : ShmInv k s' := by
  refine ⟨h.tables.congr hs (fun r' => by rw [hreg]) hnext.ge hb, hf, ⟨fun j r' hj => ?_,
    fun j r' hj => ?_, fun q x hx => ?_, fun j r' hj hd' => ?_⟩⟩
  · rw [(hs j).vas] at hj
    rw [hn, (hatt r').2]
    exact h.counts.counted j r' hj
  · rw [(hs j).vas] at hj
    rw [hreg, (hatt r').1]
    exact h.counts.refcnt j r' hj
  · obtain ⟨q', h1⟩ := hmem q x hx
    obtain ⟨j, hj⟩ := h.counts.member q' x h1
    exact ⟨j, by rw [(hs j).vas, hj]⟩
  · rw [(hs j).vas] at hj
    rw [(hatt r').1]
    exact h.counts.dest j r' hj (hd j hd')

/-! ### Entries and ids -/

end

/-- The next sequence number is one more, or it starts again; ids do not get negative. -/
theorem nextSeq_spec {i seq : ℕ} (hi : i < k.shmmni) (hsmall : seq < 65536)
    (hpos : seq * k.shmmni + i < 2 ^ 31) :
    (Shm.nextSeq k i seq = 0 ∨ Shm.nextSeq k i seq = seq + 1) ∧ Shm.nextSeq k i seq < 65536 ∧
      Shm.nextSeq k i seq * k.shmmni + i < 2 ^ 31 := by
  have hmni := k.mni_lt
  have hzero : 0 * k.shmmni + i < 2 ^ 31 := by omega
  unfold Shm.nextSeq
  simp only
  split_ifs with h1
  · exact ⟨.inl rfl, by decide, hzero⟩
  rcases Nat.lt_or_ge (seq + 1) 65536 with h2 | h2
  · rw [Nat.mod_eq_of_lt h2] at h1 ⊢
    refine ⟨.inr rfl, h2, ?_⟩
    have hnext : (seq + 1) * k.shmmni = seq * k.shmmni + k.shmmni := Nat.succ_mul ..
    rw [hnext] at h1 ⊢
    generalize seq * k.shmmni = n at h1 hpos ⊢
    rw [Int.bmod_def] at h1
    split_ifs at h1 <;> omega
  · have h3 : (seq + 1) % 65536 = 0 := by omega
    rw [h3]
    exact ⟨.inl rfl, by decide, hzero⟩

theorem Tables.shmid_eq (h : Tables k s) (hi : i < k.shmmni) :
    s.shmid k i = ((s.shmem i).perm.seq * k.shmmni + i : ℕ) := by
  have h1 := h.ids_pos i hi
  unfold Shm.shmid
  generalize (s.shmem i).perm.seq * k.shmmni + i = n at h1 ⊢
  rw [Int.bmod_def]
  split_ifs <;> omega

theorem entry_of_id {q : ℕ} (hi : i < k.shmmni) :
    (((q * k.shmmni + i : ℕ) : ℤ) % k.shmmni).toNat = i ∧ ((q * k.shmmni + i : ℕ) : ℤ) / k.shmmni = q := by
  rw [← Int.natCast_mod, ← Int.natCast_div, Int.toNat_natCast, Nat.mul_comm, Nat.mul_add_mod,
    Nat.mod_eq_of_lt hi, Nat.mul_add_div k.mni_pos, Nat.div_eq_of_lt hi, Nat.add_zero]
  exact ⟨rfl, rfl⟩

theorem shmconv_some {id : ℤ} {flg : Bool} (h : s.shmconv k id flg = some i) :
    i < k.shmmni ∧ (s.shmem i).perm.ipcAlloc = true ∧ (flg = true → (s.shmem i).dest = false) := by
  have hpos : (0 : ℤ) < k.shmmni := by exact_mod_cast k.mni_pos
  unfold Shm.shmconv at h
  simp only at h
  split_ifs at h with h1 h2
  cases h
  simp only [not_or, not_and, Bool.not_eq_false, Bool.not_eq_true] at h2
  have h4 := Int.emod_lt_of_pos id hpos
  exact ⟨by omega, h2.1, h2.2.1⟩

theorem Tables.regtoshm_eq (h : Tables k s) (hv : (s.shmem i).vas = some r) : s.regtoshm k r = some i := by
  unfold Shm.regtoshm
  cases hf : (List.range k.shmmni).find? fun i => decide ((s.shmem i).vas = some r) with
  | none =>
    have h1 := find?_eq_none.1 hf i (mem_range.2 (h.bound i r hv))
    simp [hv] at h1
  | some j =>
    have h1 : (s.shmem j).vas = some r := by simpa using find?_some hf
    rw [h.inj j i r h1 hv]

/-- An id that is returned. -/
theorem Tables.give (h : Tables k s) (hi : i < k.shmmni) :
    Tables k { s with ids := ⟨s.shmid k i, i, s.freed i, s.wraps i⟩ :: s.ids } := by
  refine ⟨h.alloc, h.bound, h.inj, h.owned, h.fresh, h.small, h.ids_pos, fun g hg => ?_⟩
  rcases mem_cons.1 hg with rfl | hg
  · have h1 := h.shmid_eq hi
    refine ⟨hi, Nat.le_refl _, Nat.le_refl _, (s.shmem i).perm.seq, ?_, fun _ => ?_⟩
    · simpa only using h1
    · simp only [if_true]
  · obtain ⟨h1, h2, h3, h4⟩ := h.ids g hg
    exact ⟨h1, h2, h3, h4⟩

theorem free_vas (i : ℕ) (y : ShmidDs) : ((s.free k i y).shmem i).vas = y.vas := by
  simp [Shm.free, Shm.setShm]

/-- An entry is freed, with its region if it has one. -/
theorem Tables.free {y : ShmidDs} {s₁ : Shm P} (h : Tables k s) (hi : i < k.shmmni) (hy : y.vas = none)
    (hseq : y.perm.seq = (s.shmem i).perm.seq) (hsh : s₁.shmem = s.shmem)
    (hreg : ∀ r, s₁.reg r = if (s.shmem i).vas = some r then none else s.reg r) (hnext : s.next ≤ s₁.next)
    (hb : Beside s s₁) : Tables k (s₁.free k i y) := by
  obtain ⟨hstep, hsmall, hpos⟩ := nextSeq_spec hi (h.small i) (h.ids_pos i hi)
  have hself : (s₁.free k i y).shmem i = { y with
      perm := { y.perm with ipcAlloc := false, mode := 0, seq := Shm.nextSeq k i y.perm.seq }
      dest := false, noswap := false, clear := false } := update_self ..
  have hother : ∀ j, j ≠ i → (s₁.free k i y).shmem j = s.shmem j := fun j hj =>
    (update_of_ne hj ..).trans (congrFun hsh j)
  have hvas : ∀ j r, ((s₁.free k i y).shmem j).vas = some r → j ≠ i ∧ (s.shmem j).vas = some r := by
    intro j r hj
    by_cases hji : j = i
    · subst hji
      rw [hself] at hj
      rw [hy] at hj
      cases hj
    · rw [hother j hji] at hj
      exact ⟨hji, hj⟩
  have hreg' : ∀ r, s₁.reg r ≠ none → (s.shmem i).vas ≠ some r ∧ s.reg r ≠ none := by
    intro r hr
    rw [hreg] at hr
    split_ifs at hr with h1
    · exact absurd rfl hr
    · exact ⟨h1, hr⟩
  refine ⟨fun j => ?_, fun j r hj => h.bound j r (hvas j r hj).2,
    fun j j' r hj hj' => h.inj j j' r (hvas j r hj).2 (hvas j' r hj').2, fun r hr => ?_,
    fun r hr => lt_of_lt_of_le (h.fresh r (hreg' r hr).2) hnext, fun j => ?_, fun j hj => ?_, fun g hg => ?_⟩
  · by_cases hji : j = i
    · subst hji
      rw [hself]
      simp [hy]
    · rw [hother j hji]
      exact h.alloc j
  · obtain ⟨h1, h2⟩ := hreg' r hr
    obtain ⟨j, hj⟩ := h.owned r h2
    have hji : j ≠ i := by
      rintro rfl
      exact h1 hj
    exact ⟨j, by rw [hother j hji, hj]⟩
  · by_cases hji : j = i
    · subst hji
      rw [hself]
      simpa only [hseq] using hsmall
    · rw [hother j hji]
      exact h.small j
  · by_cases hji : j = i
    · subst hji
      rw [hself]
      simpa only [hseq] using hpos
    · rw [hother j hji]
      exact h.ids_pos j hj
  · obtain ⟨h1, h2, h3, q, h4, h5⟩ := h.ids g (hb.ids ▸ hg)
    by_cases hgi : g.slot = i
    · have hfreed : (s₁.free k i y).freed g.slot = s.freed g.slot + 1 := by
        rw [hgi, ← hb.freed]
        exact update_self ..
      have hwraps : (s₁.free k i y).wraps g.slot =
          if Shm.nextSeq k i y.perm.seq = 0 then s.wraps g.slot + 1 else s.wraps g.slot := by
        rw [hgi, ← hb.wraps]
        exact update_self ..
      refine ⟨h1, by omega, ?_, q, h4, fun hw => ?_⟩
      · rw [hwraps]
        split_ifs <;> omega
      · rw [hwraps, hseq] at hw
        rw [hfreed, if_neg (by omega), hgi, hself]
        simp only [hseq]
        split_ifs at hw with h6
        · omega
        · have h7 := h5 hw
          rw [hgi] at h7
          split_ifs at h7 <;> omega
    · have hfreed : (s₁.free k i y).freed g.slot = s.freed g.slot := by
        rw [← hb.freed]
        exact update_of_ne hgi ..
      have hwraps : (s₁.free k i y).wraps g.slot = s.wraps g.slot := by
        rw [← hb.wraps]
        exact update_of_ne hgi ..
      refine ⟨h1, by rw [hfreed]; exact h2, by rw [hwraps]; exact h3, q, h4, ?_⟩
      rw [hfreed, hwraps, hother g.slot hgi]
      exact h5

section

variable [Fintype P]

/-- Nobody is attached to its region. -/
theorem ShmInv.freed {y : ShmidDs} {s₁ : Shm P} (h : ShmInv k s) (hi : i < k.shmmni) (hy : y.vas = none)
    (hseq : y.perm.seq = (s.shmem i).perm.seq) (hsh : s₁.shmem = s.shmem)
    (hreg : ∀ r, s₁.reg r = if (s.shmem i).vas = some r then none else s.reg r) (hnext : s.next ≤ s₁.next)
    (hb : Beside s s₁) (hzero : ∀ r, (s.shmem i).vas = some r → attached s₁ r = 0)
    (hatt : ∀ r, (s.shmem i).vas ≠ some r → attached s₁ r = attached s r ∧ expected s₁ r = expected s r)
    (hmem : ∀ p, ∀ x ∈ s₁.pregs p, ∃ q, x ∈ s.pregs q) (hf : Forks s₁) : ShmInv k (s₁.free k i y) := by
  have hother : ∀ j, j ≠ i → (s₁.free k i y).shmem j = s.shmem j := fun j hj =>
    (update_of_ne hj ..).trans (congrFun hsh j)
  have hvas : ∀ j r, ((s₁.free k i y).shmem j).vas = some r →
      (s₁.free k i y).shmem j = s.shmem j ∧ (s.shmem j).vas = some r ∧ (s.shmem i).vas ≠ some r := by
    intro j r hj
    by_cases hji : j = i
    · have h1 : (s₁.free k i y).shmem i = { y with
          perm := { y.perm with ipcAlloc := false, mode := 0, seq := Shm.nextSeq k i y.perm.seq }
          dest := false, noswap := false, clear := false } := update_self ..
      rw [hji, h1, hy] at hj
      cases hj
    · rw [hother j hji] at hj ⊢
      exact ⟨rfl, hj, fun hir => hji (h.tables.inj j i r hj hir)⟩
  refine ⟨h.tables.free hi hy hseq hsh hreg hnext hb, ⟨hf.ok, hf.child, hf.empty, hf.parent⟩,
    ⟨fun j r hj => ?_, fun j r hj => ?_, fun q x hx => ?_, fun j r hj hd => ?_⟩⟩
  · obtain ⟨h1, h2, h3⟩ := hvas j r hj
    rw [h1]
    exact (h.counts.counted j r h2).trans (congrArg (· % 65536) (hatt r h3).2.symm)
  · obtain ⟨h1, h2, h3⟩ := hvas j r hj
    have h4 : (s₁.free k i y).reg r = s.reg r := (hreg r).trans (if_neg h3)
    have h5 : attached (s₁.free k i y) r = attached s r := (hatt r h3).1
    rw [h4, h5]
    exact h.counts.refcnt j r h2
  · obtain ⟨q', h1⟩ := hmem q x hx
    obtain ⟨j, hj⟩ := h.counts.member q' x h1
    have hji : j ≠ i := by
      rintro rfl
      have h2 : 0 < attached s₁ x.reg := attached_pos hx
      rw [hzero x.reg hj] at h2
      exact absurd h2 (lt_irrefl 0)
    exact ⟨j, by rw [hother j hji, hj]⟩
  · obtain ⟨h1, h2, h3⟩ := hvas j r hj
    rw [h1] at hd
    exact (h.counts.dest j r h2 hd).trans_eq (hatt r h3).1.symm

theorem ShmInv.no_preg (h : ShmInv k s) (hr : s.reg r = none) : ∀ p, ∀ x ∈ s.pregs p, x.reg ≠ r := by
  rintro p x hx rfl
  obtain ⟨i, hi⟩ := h.counts.member p x hx
  rw [h.counts.refcnt i _ hi] at hr
  cases hr

theorem regCount_eq_zero {l : List Preg} (h : ∀ x ∈ l, x.reg ≠ r) : regCount r l = 0 :=
  countP_eq_zero.2 fun x hx => by simpa using h x hx

theorem attached_eq_zero (h : ∀ p, ∀ x ∈ s.pregs p, x.reg ≠ r) : attached s r = 0 :=
  Finset.sum_eq_zero fun p _ => regCount_eq_zero (h p)

theorem expected_eq_zero (hf : Forks s) (h : ∀ p, ∀ x ∈ s.pregs p, x.reg ≠ r) : expected s r = 0 := by
  have hterm : ∀ p, term s r p = 0 := fun p => by
    unfold term
    rw [regCount_eq_zero (h p), ite_self]
  have hbumps : ∀ p, (s.fork p).bumps r = 0 := by
    intro p
    have hok := hf.ok p
    unfold ForkOk at hok
    cases hp : s.fork p with
    | none => rfl
    | copying c done left b =>
      rw [hp] at hok
      have h1 : regCount r (left.take 1) = 0 := regCount_eq_zero fun x hx =>
        h p x (by rw [hok.2.2.2.1]; exact mem_append_right _ (mem_of_mem_take hx))
      rw [Fork.bumps, h1, ite_self]
    | backing c back =>
      rw [hp] at hok
      exact regCount_eq_zero fun x hx => h p x (hok.2.2.1 hx)
  rw [expected_eq, Finset.sum_eq_zero fun p _ => hterm p, Finset.sum_eq_zero fun p _ => hbumps p,
    Nat.add_zero]

/-- A segment is made. -/
theorem ShmInv.made {y : ShmidDs} (h : ShmInv k s) (hi : i < k.shmmni) (hfree : (s.shmem i).vas = none)
    (hsh : s'.shmem = update s.shmem i y) (hy : y.vas = some s.next) (halloc : y.perm.ipcAlloc = true)
    (hseq : y.perm.seq = (s.shmem i).perm.seq) (hn : y.nattch = 0) (hd : y.dest = false)
    (hreg : s'.reg = update s.reg s.next (some 1)) (hnext : s'.next = s.next + 1) (hb : Beside s s')
    (hpregs : s'.pregs = s.pregs) (hlife : s'.life = s.life) (hfork : s'.fork = s.fork) : ShmInv k s' := by
  have hnone : s.reg s.next = none := by
    by_contra h1
    exact lt_irrefl _ (h.tables.fresh s.next h1)
  have hnoreg := h.no_preg hnone
  have hf : Forks s' := by
    refine ⟨fun p => (h.forks.ok p).congr (by rw [hfork]) (fun _ => by rw [hlife, hpregs]; exact ⟨rfl, rfl⟩)
      (fun c _ => by rw [hlife, hpregs]; exact ⟨rfl, rfl⟩), ?_, ?_, ?_⟩
    · rw [hfork]
      exact h.forks.child
    · rw [hlife, hpregs]
      exact h.forks.empty
    · rw [hlife, hfork]
      exact h.forks.parent
  have hatt : ∀ r, attached s' r = attached s r := fun r => by unfold attached; rw [hpregs]
  have hexp : ∀ r, expected s' r = expected s r := fun r => by unfold expected; rw [hpregs, hlife, hfork]
  have hself : s'.shmem i = y := by rw [hsh, update_self]
  have hother : ∀ j, j ≠ i → s'.shmem j = s.shmem j := fun j hj => by rw [hsh, update_of_ne hj]
  have hold : ∀ j r, (s.shmem j).vas = some r → j ≠ i ∧ r ≠ s.next := by
    intro j r hj
    refine ⟨?_, ?_⟩
    · rintro rfl
      rw [hfree] at hj
      cases hj
    · rintro rfl
      rw [h.counts.refcnt j _ hj] at hnone
      cases hnone
  have hvas : ∀ j r, (s'.shmem j).vas = some r → j = i ∧ r = s.next ∨
      j ≠ i ∧ s'.shmem j = s.shmem j ∧ (s.shmem j).vas = some r := by
    intro j r hj
    by_cases hji : j = i
    · rw [hji, hself, hy] at hj
      cases hj
      exact .inl ⟨hji, rfl⟩
    · rw [hother j hji] at hj
      exact .inr ⟨hji, hother j hji, hj⟩
  refine ⟨⟨fun j => ?_, fun j r hj => ?_, fun j j' r hj hj' => ?_, fun r hr => ?_, fun r hr => ?_, fun j => ?_,
    fun j hj => ?_, fun g hg => ?_⟩, hf, ⟨fun j r hj => ?_, fun j r hj => ?_, fun p x hx => ?_,
    fun j r hj hdest => ?_⟩⟩
  · by_cases hji : j = i
    · rw [hji, hself, hy, halloc]
      simp
    · rw [hother j hji]
      exact h.tables.alloc j
  · rcases hvas j r hj with ⟨rfl, -⟩ | ⟨-, -, h1⟩
    · exact hi
    · exact h.tables.bound j r h1
  · rcases hvas j r hj with ⟨rfl, rfl⟩ | ⟨-, -, h1⟩ <;> rcases hvas j' _ hj' with ⟨rfl, h2⟩ | ⟨-, -, h3⟩
    · rfl
    · exact absurd rfl (hold _ _ h3).2
    · exact absurd h2 (hold _ _ h1).2
    · exact h.tables.inj _ _ _ h1 h3
  · by_cases hrn : r = s.next
    · exact ⟨i, by rw [hself, hy, hrn]⟩
    · rw [hreg, update_of_ne hrn] at hr
      obtain ⟨j, hj⟩ := h.tables.owned r hr
      exact ⟨j, by rw [hother j (hold j r hj).1, hj]⟩
  · rw [hnext]
    by_cases hrn : r = s.next
    · omega
    · rw [hreg, update_of_ne hrn] at hr
      have := h.tables.fresh r hr
      omega
  · by_cases hji : j = i
    · rw [hji, hself, hseq]
      exact h.tables.small i
    · rw [hother j hji]
      exact h.tables.small j
  · by_cases hji : j = i
    · subst hji
      rw [hself, hseq]
      exact h.tables.ids_pos j hj
    · rw [hother j hji]
      exact h.tables.ids_pos j hj
  · rw [hb.ids] at hg
    obtain ⟨h1, h2, h3, h4⟩ := h.tables.ids g hg
    have h5 : (s'.shmem g.slot).perm.seq = (s.shmem g.slot).perm.seq := by
      by_cases hji : g.slot = i
      · rw [hji, hself, hseq]
      · rw [hother g.slot hji]
    refine ⟨h1, by rwa [hb.freed], by rwa [hb.wraps], ?_⟩
    rw [hb.wraps, hb.freed, h5]
    exact h4
  · rcases hvas j r hj with ⟨rfl, rfl⟩ | ⟨-, h1, h2⟩
    · rw [hself, hn, hexp, expected_eq_zero h.forks hnoreg]
    · rw [h1, hexp]
      exact h.counts.counted j r h2
  · rcases hvas j r hj with ⟨rfl, rfl⟩ | ⟨-, -, h2⟩
    · rw [hreg, update_self, hatt, attached_eq_zero hnoreg]
      rfl
    · rw [hreg, update_of_ne (hold j r h2).2, hatt]
      exact h.counts.refcnt j r h2
  · rw [hpregs] at hx
    obtain ⟨j, hj⟩ := h.counts.member p x hx
    exact ⟨j, by rw [hother j (hold j _ hj).1, hj]⟩
  · rcases hvas j r hj with ⟨rfl, rfl⟩ | ⟨-, h1, h2⟩
    · rw [hself, hd] at hdest
      cases hdest
    · rw [h1] at hdest
      rw [hatt]
      exact h.counts.dest j r h2 hdest

/-! ### The calls -/

end

/-- No segment is freed. -/
def Stays (s s' : Shm P) : Prop :=
  ∀ i r, (s.shmem i).vas = some r → (s'.shmem i).vas = some r ∧ s'.freed i = s.freed i

theorem Stays.refl (s : Shm P) : Stays s s := fun _ _ hv => ⟨hv, rfl⟩

theorem Stays.removed [Fintype P] {l : ShmEvent P} (h : Stays s s') : Removed k s l s' := fun i r hv => .inl (h i r hv)

theorem Unharmed.refl (s : Shm P) : Unharmed s s := ⟨fun _ => .inl rfl, rfl, rfl⟩

section

variable [Fintype P] {y : ShmidDs}

/-- An entry that is not taken. -/
theorem ShmInv.refused (h : ShmInv k s) (hfree : (s.shmem i).perm.ipcAlloc = false)
    (hv : (s.shmem i).vas = none) (hy : y.vas = none) (halloc : y.perm.ipcAlloc = false)
    (hseq : y.perm.seq = (s.shmem i).perm.seq) (hn : y.nattch = (s.shmem i).nattch) (hd : y.dest = false) :
    ShmInv k (s.setShm i y) ∧ Stays s (s.setShm i y) ∧ Unharmed s (s.setShm i y) := by
  have hself : (s.setShm i y).shmem i = y := update_self ..
  have hother : ∀ j, j ≠ i → (s.setShm i y).shmem j = s.shmem j := fun j hj => update_of_ne hj ..
  refine ⟨h.regroup (fun j => ?_) (fun j => ?_) (fun j hj => ?_) rfl rfl ⟨rfl, rfl, rfl⟩
    (fun _ => ⟨rfl, rfl⟩) (fun p x hx => ⟨p, hx⟩)
    ⟨h.forks.ok, h.forks.child, h.forks.empty, h.forks.parent⟩, fun j r hj => ⟨?_, rfl⟩,
    fun j => ?_, rfl, rfl⟩
  · by_cases hji : j = i
    · rw [hji, hself]
      exact ⟨hy.trans hv.symm, halloc.trans hfree.symm, hseq⟩
    · rw [hother j hji]
      exact .rfl
  · by_cases hji : j = i
    · rw [hji, hself, hn]
    · rw [hother j hji]
  · by_cases hji : j = i
    · rw [hji, hself, hd] at hj
      cases hj
    · rwa [hother j hji] at hj
  · have hji : j ≠ i := by
      rintro rfl
      rw [hv] at hj
      cases hj
    rw [hother j hji, hj]
  · by_cases hji : j = i
    · rw [hji, hself]
      exact .inr ⟨hfree, hv, halloc, hy⟩
    · exact .inl (hother j hji)

/-- A segment that cannot be made. -/
theorem ShmInv.unmade {s₁ : Shm P} (h : ShmInv k s) (hi : i < k.shmmni)
    (hfree : (s.shmem i).perm.ipcAlloc = false) (hv : (s.shmem i).vas = none) (hy : y.vas = none)
    (hseq : y.perm.seq = (s.shmem i).perm.seq) (hsh : s₁.shmem = s.shmem) (hreg : s₁.reg = s.reg)
    (hnext : s.next ≤ s₁.next) (hb : Beside s s₁) (hpregs : s₁.pregs = s.pregs) (hlife : s₁.life = s.life)
    (hfork : s₁.fork = s.fork) :
    ShmInv k (s₁.free k i y) ∧ Stays s (s₁.free k i y) ∧ Unharmed s (s₁.free k i y) := by
  have hf : Forks s₁ := by
    refine ⟨fun p => (h.forks.ok p).congr (by rw [hfork]) (fun _ => by rw [hlife, hpregs]; exact ⟨rfl, rfl⟩)
      (fun c _ => by rw [hlife, hpregs]; exact ⟨rfl, rfl⟩), ?_, ?_, ?_⟩
    · rw [hfork]
      exact h.forks.child
    · rw [hlife, hpregs]
      exact h.forks.empty
    · rw [hlife, hfork]
      exact h.forks.parent
  have hother : ∀ j, j ≠ i → (s₁.free k i y).shmem j = s.shmem j := fun j hj =>
    (update_of_ne hj ..).trans (congrFun hsh j)
  have hself : (s₁.free k i y).shmem i = { y with
      perm := { y.perm with ipcAlloc := false, mode := 0, seq := Shm.nextSeq k i y.perm.seq }
      dest := false, noswap := false, clear := false } := update_self ..
  refine ⟨h.freed hi hy hseq hsh (fun r => ?_) hnext hb (fun r hr => ?_) (fun r _ => ?_) (fun p x hx => ?_)
    hf, fun j r hj => ?_, fun j => ?_, hreg, hpregs⟩
  · rw [hv, if_neg nofun, hreg]
  · rw [hv] at hr
    cases hr
  · unfold attached expected
    rw [hpregs, hlife, hfork]
    exact ⟨rfl, rfl⟩
  · rw [hpregs] at hx
    exact ⟨p, hx⟩
  · have hji : j ≠ i := by
      rintro rfl
      rw [hv] at hj
      cases hj
    have h1 : (s₁.free k i y).freed j = s₁.freed j := update_of_ne hji ..
    exact ⟨by rw [hother j hji, hj], by rw [h1, hb.freed]⟩
  · by_cases hji : j = i
    · rw [hji, hself]
      exact .inr ⟨hfree, hv, rfl, hy⟩
    · exact .inl (hother j hji)

theorem fails {α : Type} {e : ShmErr} {Q : α → Prop} (h : ShmInv k s' ∧ Stays s s' ∧ Unharmed s s') :
    ShmInv k s' ∧ Stays s s' ∧ (∀ e', (.error e : Except ShmErr α) = .error e' → Unharmed s s') ∧
      ∀ a, (.error e : Except ShmErr α) = .ok a → Q a :=
  ⟨h.1, h.2.1, fun _ _ => h.2.2, nofun⟩

/-- `shmget`: when it fails, all that there is stays as it was. -/
theorem shmget_spec (h : ShmInv k s) {u : User} {key : ℤ} {size : ℕ} {flag : GetFlag}
    {regOk growOk attachOk : Bool} {res : Except ShmErr ℤ}
    (hs : s.shmget k u key size flag regOk growOk attachOk = (res, s')) :
    ShmInv k s' ∧ Stays s s' ∧ (∀ e, res = .error e → Unharmed s s') ∧
      ∀ id, res = .ok id → ∃ i, i < k.shmmni ∧ id = s'.shmid k i := by
  unfold Shm.shmget at hs
  cases hget : ipcgetperm key flag (fun i => (s.shmem i).perm) k.shmmni with
  | error e =>
    simp only [hget] at hs
    cases hs
    exact ⟨h, .refl s, fun _ _ => .refl s, nofun⟩
  | ok ret =>
    obtain ⟨i, _ | _⟩ := ret
    · obtain ⟨hi, -⟩ := ipcgetperm_old hget
      simp only [hget] at hs
      split_ifs at hs <;> cases hs
      · exact ⟨h, .refl s, fun _ _ => .refl s, nofun⟩
      · exact ⟨h, .refl s, nofun, fun id hid => ⟨i, hi, (Except.ok.inj hid).symm⟩⟩
    obtain ⟨hi, hfree⟩ := ipcgetperm_new hget
    have hv : (s.shmem i).vas = none := by
      by_contra h1
      rw [(h.tables.alloc i).2 h1] at hfree
      cases hfree
    simp only [hget] at hs
    by_cases h1 : size < k.shmmin ∨ size > k.shmmax
    · rw [if_pos h1] at hs
      cases hs
      exact fails (h.refused hfree hv hv rfl rfl rfl rfl)
    rw [if_neg h1] at hs
    by_cases h2 : regOk = false
    · rw [if_pos h2] at hs
      cases hs
      exact fails (h.unmade hi hfree hv hv rfl rfl rfl le_rfl ⟨rfl, rfl, rfl⟩ rfl rfl rfl)
    rw [if_neg h2] at hs
    have hback : (s.allocreg.freereg s.next).reg = s.reg := by
      have hnone : s.reg s.next = none := by
        by_contra h3
        exact lt_irrefl _ (h.tables.fresh s.next h3)
      simp only [Shm.freereg, Shm.allocreg, update_idem, ← hnone, update_eq_self]
    by_cases h3 : growOk = false
    · rw [if_pos h3] at hs
      cases hs
      exact fails (h.unmade hi hfree hv hv rfl rfl hback (Nat.le_succ _) ⟨rfl, rfl, rfl⟩ rfl rfl rfl)
    rw [if_neg h3] at hs
    by_cases h4 : attachOk = false
    · rw [if_pos h4] at hs
      cases hs
      exact fails (h.unmade hi hfree hv hv rfl rfl hback (Nat.le_succ _) ⟨rfl, rfl, rfl⟩ rfl rfl rfl)
    rw [if_neg h4] at hs
    cases hs
    refine ⟨h.made hi hv rfl rfl rfl rfl rfl rfl ?_ rfl ⟨rfl, rfl, rfl⟩ rfl rfl rfl, fun j r hj => ⟨?_, rfl⟩,
      nofun, fun id hid => ⟨i, hi, (Except.ok.inj hid).symm⟩⟩
    · simp only [Shm.setShm, Shm.allocreg, update_idem]
    · have hji : j ≠ i := by
        rintro rfl
        rw [hv] at hj
        cases hj
      simp only [Shm.setShm, Shm.allocreg, update_of_ne hji, hj]

omit [Fintype P] in
theorem Stays.of_same (hs : ∀ i, (s'.shmem i).Same (s.shmem i)) (hb : Beside s s') : Stays s s' :=
  fun i _ hv => ⟨by rw [(hs i).vas, hv], by rw [hb.freed]⟩

theorem own_counts (hp : s.life p = .up) (hf : s'.fork = s.fork) (hl : s'.life = s.life)
    (hother : ∀ q, q ≠ p → s'.pregs q = s.pregs q) (r : ℕ) :
    attached s' r + regCount r (s.pregs p) = attached s r + regCount r (s'.pregs p) ∧
      expected s' r + regCount r (s.pregs p) = expected s r + regCount r (s'.pregs p) := by
  refine ⟨attached_except p hother r, ?_⟩
  have h1 := expected_except p p (fun q hq => ⟨by rw [hl], hother q hq⟩) (fun q _ => by rw [hf]) r
  have h2 : term s r p = regCount r (s.pregs p) := if_neg (by rw [hp]; nofun)
  have h3 : term s' r p = regCount r (s'.pregs p) := if_neg (by rw [hl, hp]; nofun)
  rw [h2, h3, hf] at h1
  omega

omit [Fintype P] in
theorem detachreg_keep {n : ℤ} (hr : s.reg r = some n) (hn : n ≠ 1) :
    s.detachreg r = .ok { s with reg := update s.reg r (some (n - 1)) } := by
  unfold Shm.detachreg
  rw [hr]
  exact if_neg (by omega)

omit [Fintype P] in
theorem detachreg_last (hr : s.reg r = some 1) : s.detachreg r = .ok (s.freereg r) := by
  unfold Shm.detachreg
  rw [hr]
  rfl

variable [DecidableEq P]

/-- One more pregion of a segment. -/
theorem ShmInv.attach {v : ℕ} (h : ShmInv k s) (hp : s.life p = .up) (hn : s.fork p = .none)
    (hv : (s.shmem i).vas = some r) (hsh : s'.shmem = update s.shmem i y) (hsame : y.Same (s.shmem i))
    (hcnt : y.nattch = ((s.shmem i).nattch + 1) % 65536)
    (hreg : s'.reg = update s.reg r (some (1 + (attached s r : ℤ) + 1))) (hnext : s'.next = s.next)
    (hpregs : s'.pregs = update s.pregs p (⟨r, v⟩ :: s.pregs p)) (hlife : s'.life = s.life)
    (hfork : s'.fork = s.fork) (hb : Beside s s') : ShmInv k s' ∧ Stays s s' := by
  have hother : ∀ q, q ≠ p → s'.pregs q = s.pregs q := fun q hq => by rw [hpregs, update_of_ne hq]
  have hself : s'.pregs p = ⟨r, v⟩ :: s.pregs p := by rw [hpregs, update_self]
  have hentry : s'.shmem i = y := by rw [hsh, update_self]
  have hrest : ∀ j, j ≠ i → s'.shmem j = s.shmem j := fun j hj => by rw [hsh, update_of_ne hj]
  have hcounts : ∀ r', attached s' r' = attached s r' + (if r = r' then 1 else 0) ∧
      expected s' r' = expected s r' + (if r = r' then 1 else 0) := by
    intro r'
    obtain ⟨h1, h2⟩ := own_counts hp hfork hlife hother r'
    rw [hself, regCount_cons] at h1 h2
    simp only at h1 h2
    omega
  have hat := (hcounts r).1
  have hex := (hcounts r).2
  rw [if_pos rfl] at hat hex
  have hold := h.counts.counted i r hv
  refine ⟨h.recount hv (by rwa [hentry]) hrest ?_ hnext hb (fun r' hr' => ?_) ?_ (fun _ => by omega)
    (fun q x hx => ?_) (h.forks.own hp hn hfork (fun q hq => ⟨by rw [hlife], hother q hq⟩)
      (.inl (by rw [hlife, hp]))), ?_⟩
  · rw [hreg, hat]
    push_cast
    rw [add_assoc]
  · have h1 := hcounts r'
    rw [if_neg (Ne.symm hr')] at h1
    exact h1
  · rw [hentry, hcnt, hex, hold]
    omega
  · by_cases hq : q = p
    · rw [hq, hself] at hx
      rcases mem_cons.1 hx with rfl | hx
      · exact .inl rfl
      · exact .inr ⟨p, hx⟩
    · rw [hother q hq] at hx
      exact .inr ⟨q, hx⟩
  · refine .of_same (fun j => ?_) hb
    by_cases hji : j = i
    · rw [hji, hentry]
      exact hsame
    · rw [hrest j hji]
      exact .rfl

/-- `shmat`: it comes back, and when it fails nothing has changed. -/
theorem shmat_spec (h : ShmInv k s) (hp : s.life p = .up) (hn : s.fork p = .none) (u : User) (id : ℤ)
    (rdonly : Bool) (vaddr : Option ℕ) (mlockOk : Bool) :
    ∃ res s', s.shmat k u p id rdonly vaddr mlockOk = .ok (res, s') ∧ ShmInv k s' ∧ Stays s s' ∧
      ∀ e, res = .error e → s' = s := by
  have hfail : ∀ e : ShmErr, ∃ res s', (.ok (.error e, s) : Except Trap (Except ShmErr ℕ × Shm P)) =
      .ok (res, s') ∧ ShmInv k s' ∧ Stays s s' ∧ ∀ e, res = .error e → s' = s := fun e =>
    ⟨_, _, rfl, h, .refl s, fun _ _ => rfl⟩
  unfold Shm.shmat
  by_cases h1 : (s.pregs p).length ≥ k.shmseg
  · rw [if_pos h1]
    exact hfail _
  rw [if_neg h1]
  cases hc : s.shmconv k id true with
  | none => exact hfail _
  | some i =>
    obtain ⟨hi, halloc, -⟩ := shmconv_some hc
    obtain ⟨r, hv⟩ := Option.ne_none_iff_exists'.1 ((h.tables.alloc i).1 halloc)
    simp only
    split
    · exact hfail _
    · exact hfail _
    · rw [hv]
      cases vaddr with
      | none => exact hfail _
      | some v =>
        have hreg := h.counts.refcnt i r hv
        simp only [Shm.attachreg, hreg, bind, Except.bind]
        by_cases h2 : (s.shmem i).noswap = true ∧ mlockOk = false
        · -- the pregion is detached again
          rw [if_pos h2, detachreg_keep (n := 1 + (attached s r : ℤ) + 1) (update_self ..) (by omega)]
          have hback : 1 + (attached s r : ℤ) + 1 - 1 = 1 + (attached s r : ℤ) := by omega
          refine ⟨_, _, rfl, ?_⟩
          simp only [Shm.setPregs, update_self, erase_cons_head, update_idem, update_eq_self, hback]
          rw [← hreg, update_eq_self]
          exact ⟨h, .refl s, fun _ _ => rfl⟩
        · rw [if_neg h2]
          refine ⟨_, _, rfl, ?_⟩
          exact and_assoc.1 ⟨h.attach (v := v) hp hn hv rfl ⟨hv.symm, rfl, rfl⟩ rfl rfl rfl rfl rfl rfl
            ⟨rfl, rfl, rfl⟩, nofun⟩

omit [Fintype P] [DecidableEq P] in
theorem shmrmseg_spec {a : ℕ} (hv : (s.shmem i).vas = some r) (hr : s.reg r = some (1 + (a : ℤ))) :
    s.shmrmseg k i = if (s.shmem i).dest = true ∧ a = 0 then
      .ok (true, (s.freereg r).free k i { s.shmem i with vas := none, segsz := 0 }) else .ok (false, s) := by
  unfold Shm.shmrmseg
  by_cases hd : (s.shmem i).dest = true
  · by_cases ha : a = 0
    · have hr1 : s.reg r = some 1 := by rw [hr, ha]; rfl
      simp [hd, hv, hr1, detachreg_last hr1, ha, bind, Except.bind, pure, Except.pure]
    · simp [hd, hv, hr, ha]
  · simp [hd]

variable {x : Preg}

/-- One pregion of a segment less; the segment goes with the last one if it is to be removed. -/
theorem detach_spec (h : ShmInv k s) (hp : s.life p = .up) (hn : s.fork p = .none)
    (hx : x ∈ s.pregs p) (l : ShmEvent P) :
    ∃ s', s.detach k p x = .ok s' ∧ ShmInv k s' ∧ Removed k s l s' := by
  obtain ⟨i, hv⟩ := h.counts.member p x hx
  have hreg := h.counts.refcnt i _ hv
  have hpos : 0 < attached s x.reg := attached_pos hx
  have hold := h.counts.counted i _ hv
  obtain ⟨s₁, hs₁⟩ : ∃ s₁, s₁ = { s.setPregs p ((s.pregs p).erase x) with
    reg := update s.reg x.reg (some (1 + (attached s x.reg : ℤ) - 1)) } := ⟨_, rfl⟩
  have hself : s₁.pregs p = (s.pregs p).erase x := by rw [hs₁]; exact update_self ..
  have hother : ∀ q, q ≠ p → s₁.pregs q = s.pregs q := fun q hq => by rw [hs₁]; exact update_of_ne hq ..
  have hsub : ∀ q, ∀ z ∈ s₁.pregs q, z ∈ s.pregs q := by
    intro q z hz
    by_cases hq : q = p
    · rw [hq, hself] at hz
      rw [hq]
      exact mem_of_mem_erase hz
    · rwa [hother q hq] at hz
  have hf : Forks s₁ := h.forks.own hp hn (by rw [hs₁]; rfl)
    (fun q hq => ⟨by rw [hs₁]; rfl, hother q hq⟩) (.inl (by rw [hs₁]; exact hp))
  have hcounts : ∀ r', attached s₁ r' + (if x.reg = r' then 1 else 0) = attached s r' ∧
      expected s₁ r' + (if x.reg = r' then 1 else 0) = expected s r' := by
    intro r'
    obtain ⟨h1, h2⟩ := own_counts hp (by rw [hs₁]; rfl : s₁.fork = s.fork) (by rw [hs₁]; rfl) hother r'
    rw [hself] at h1 h2
    have h3 := regCount_erase (r := r') hx
    omega
  have hat := (hcounts x.reg).1
  have hex := (hcounts x.reg).2
  rw [if_pos rfl] at hat hex
  have hrest : ∀ r', r' ≠ x.reg → attached s₁ r' = attached s r' ∧ expected s₁ r' = expected s r' := by
    intro r' hr'
    have h1 := hcounts r'
    rw [if_neg (Ne.symm hr')] at h1
    exact h1
  have hreg₁ : s₁.reg x.reg = some (1 + (attached s₁ x.reg : ℤ)) := by
    have h1 : s₁.reg x.reg = some (1 + (attached s x.reg : ℤ) - 1) := by
      rw [hs₁]
      exact update_self ..
    rw [h1, ← hat]
    push_cast
    congr 1
    omega
  have hv₁ : (s₁.shmem i).vas = some x.reg := by rw [hs₁]; exact hv
  have hmseg := shmrmseg_spec (k := k) hv₁ hreg₁
  have hcall : s.detach k p x = (s₁.shmrmseg k i).bind fun y => if y.1 then .ok y.2 else
      .ok (y.2.setShm i { y.2.shmem i with nattch := ((y.2.shmem i).nattch + 65535) % 65536 }) := by
    unfold Shm.detach
    rw [h.tables.regtoshm_eq hv]
    simp only [bind, Except.bind]
    rw [detachreg_keep (s := s.setPregs p ((s.pregs p).erase x)) hreg (by omega)]
    rw [hs₁]
    rfl
  rw [hcall, hmseg]
  have hregs : s₁.reg = update s.reg x.reg (some (1 + (attached s₁ x.reg : ℤ))) := by
    rw [← hreg₁, hs₁]
    simp only [update_self]
  have hsh : s₁.shmem = s.shmem := by rw [hs₁]; rfl
  have hb : Beside s s₁ := by rw [hs₁]; exact ⟨rfl, rfl, rfl⟩
  have hnext : s₁.next = s.next := by rw [hs₁]; rfl
  by_cases hrem : (s₁.shmem i).dest = true ∧ attached s₁ x.reg = 0
  · rw [if_pos hrem]
    refine ⟨_, rfl, h.freed (h.tables.bound i _ hv) rfl (by rw [hsh]) hsh (fun r' => ?_) hnext.ge
      ⟨hb.freed, hb.wraps, hb.ids⟩ (fun r' hr' => ?_) (fun r' hr' => hrest r' ?_)
      (fun q z hz => ⟨q, hsub q z hz⟩) ⟨hf.ok, hf.child, hf.empty, hf.parent⟩, fun j r' hj => ?_⟩
    · by_cases hr' : r' = x.reg
      · rw [hr', if_pos hv]
        exact update_self ..
      · rw [if_neg fun h1 => hr' (Option.some.inj (h1.symm.trans hv))]
        refine (update_of_ne hr' ..).trans ?_
        rw [hregs, update_of_ne hr']
    · rw [hv] at hr'
      cases hr'
      exact hrem.2
    · rintro rfl
      exact hr' hv
    · by_cases hji : j = i
      · subst hji
        rw [hv] at hj
        cases hj
        have hvas : (((s₁.freereg x.reg).free k j { s₁.shmem j with vas := none, segsz := 0 }).shmem j).vas =
            none := free_vas ..
        have hfreed : ((s₁.freereg x.reg).free k j { s₁.shmem j with vas := none, segsz := 0 }).freed j =
            s₁.freed j + 1 := update_self ..
        refine .inr ⟨hvas, update_self .., hrem.2, hfreed.trans (by rw [hb.freed]), .inl ?_⟩
        rw [← hsh]
        exact hrem.1
      · have h1 : ((s₁.freereg x.reg).free k i { s₁.shmem i with vas := none, segsz := 0 }).shmem j =
            s₁.shmem j := update_of_ne hji ..
        have h2 : ((s₁.freereg x.reg).free k i { s₁.shmem i with vas := none, segsz := 0 }).freed j =
            s₁.freed j := update_of_ne hji ..
        exact .inl ⟨by rw [h1, hsh, hj], by rw [h2, hb.freed]⟩
  · rw [if_neg hrem]
    have hentry : (s₁.setShm i { s₁.shmem i with nattch := ((s₁.shmem i).nattch + 65535) % 65536 }).shmem i =
        { s₁.shmem i with nattch := ((s₁.shmem i).nattch + 65535) % 65536 } := update_self ..
    have hne : ∀ j, j ≠ i → (s₁.setShm i { s₁.shmem i with
        nattch := ((s₁.shmem i).nattch + 65535) % 65536 }).shmem j = s.shmem j := fun j hj =>
      (update_of_ne hj ..).trans (by rw [hsh])
    have hsame : ((s₁.setShm i { s₁.shmem i with
        nattch := ((s₁.shmem i).nattch + 65535) % 65536 }).shmem i).Same (s.shmem i) := by
      rw [hentry, hsh]
      exact ⟨rfl, rfl, rfl⟩
    refine ⟨_, rfl, h.recount hv hsame hne hregs hnext ⟨hb.freed, hb.wraps, hb.ids⟩ hrest ?_ (fun hd => ?_)
      (fun q z hz => .inr ⟨q, hsub q z hz⟩) ⟨hf.ok, hf.child, hf.empty, hf.parent⟩, ?_⟩
    · rw [hentry, hsh]
      change ((s.shmem i).nattch + 65535) % 65536 = expected s₁ x.reg % 65536
      omega
    · rw [hentry] at hd
      exact Nat.pos_of_ne_zero fun h0 => hrem ⟨hd, h0⟩
    · refine Stays.removed (.of_same (fun j => ?_) ⟨hb.freed, hb.wraps, hb.ids⟩)
      by_cases hji : j = i
      · rw [hji]
        exact hsame
      · rw [hne j hji]
        exact .rfl

omit [Fintype P] [DecidableEq P] in
theorem free_setShm (i : ℕ) (y z : ShmidDs) : (s.setShm i z).free k i y = s.free k i y := by
  simp [Shm.free, Shm.setShm]

omit [DecidableEq P] in
/-- An entry changes in what the pregions do not depend on. -/
theorem ShmInv.edit (h : ShmInv k s) (hy : y.Same (s.shmem i))
    (hn : y.nattch = (s.shmem i).nattch) (hd : y.dest = true → (s.shmem i).dest = true) :
    ShmInv k (s.setShm i y) ∧ Stays s (s.setShm i y) := by
  have hself : (s.setShm i y).shmem i = y := update_self ..
  have hother : ∀ j, j ≠ i → (s.setShm i y).shmem j = s.shmem j := fun j hj => update_of_ne hj ..
  have hall : ∀ j, ((s.setShm i y).shmem j).Same (s.shmem j) := fun j => by
    by_cases hji : j = i
    · rw [hji, hself]
      exact hy
    · rw [hother j hji]
      exact .rfl
  refine ⟨h.regroup hall (fun j => ?_) (fun j hj => ?_) rfl rfl ⟨rfl, rfl, rfl⟩ (fun _ => ⟨rfl, rfl⟩)
    (fun p x hx => ⟨p, hx⟩) ⟨h.forks.ok, h.forks.child, h.forks.empty, h.forks.parent⟩,
    .of_same hall ⟨rfl, rfl, rfl⟩⟩
  · by_cases hji : j = i
    · rw [hji, hself, hn]
    · rw [hother j hji]
  · by_cases hji : j = i
    · rw [hji, hself] at hj
      rw [hji]
      exact hd hj
    · rwa [hother j hji] at hj

/-- `shmctl` with `IPC_RMID` of a segment that may be removed. -/
theorem rmid_spec (h : ShmInv k s) (hv : (s.shmem i).vas = some r) {u : User} {id : ℤ}
    (hc : s.shmconv k id true = some i) :
    ∃ b s', (s.setShm i { s.shmem i with
        dest := true, perm := { (s.shmem i).perm with key := IPC_PRIVATE } }).shmrmseg k i = .ok (b, s') ∧
      ShmInv k s' ∧ Removed k s (.ctl u id .rmid) s' := by
  obtain ⟨y, hy⟩ : ∃ y : ShmidDs, y = { s.shmem i with
    dest := true, perm := { (s.shmem i).perm with key := IPC_PRIVATE } } := ⟨_, rfl⟩
  rw [← hy]
  have hself : (s.setShm i y).shmem i = y := update_self ..
  have hother : ∀ j, j ≠ i → (s.setShm i y).shmem j = s.shmem j := fun j hj => update_of_ne hj ..
  have hyd : y.dest = true := by rw [hy]
  have hyv : ((s.setShm i y).shmem i).vas = some r := by rw [hself, hy, hv]
  have hreg := h.counts.refcnt i r hv
  rw [shmrmseg_spec (k := k) (s := s.setShm i y) hyv hreg, hself]
  by_cases hrem : attached s r = 0
  · rw [if_pos ⟨hyd, hrem⟩]
    have hfree : ((s.setShm i y).freereg r).free k i { y with vas := none, segsz := 0 } =
        (s.freereg r).free k i { y with vas := none, segsz := 0 } := free_setShm (s := s.freereg r) ..
    rw [hfree]
    refine ⟨_, _, rfl, h.freed (h.tables.bound i r hv) rfl (by rw [hy]) rfl (fun r' => ?_) le_rfl
      ⟨rfl, rfl, rfl⟩ (fun r' hr' => ?_) (fun r' _ => ⟨rfl, rfl⟩) (fun q z hz => ⟨q, hz⟩)
      ⟨h.forks.ok, h.forks.child, h.forks.empty, h.forks.parent⟩, fun j r' hj => ?_⟩
    · by_cases hr' : r' = r
      · rw [hr', if_pos hv]
        exact update_self ..
      · rw [if_neg fun h1 => hr' (Option.some.inj (h1.symm.trans hv))]
        exact update_of_ne hr' ..
    · rw [hv] at hr'
      cases hr'
      exact hrem
    · by_cases hji : j = i
      · subst hji
        rw [hv] at hj
        cases hj
        exact .inr ⟨free_vas .., update_self .., hrem, update_self .., .inr ⟨u, id, rfl, hc⟩⟩
      · exact .inl ⟨(congrArg ShmidDs.vas (update_of_ne hji ..)).trans hj, update_of_ne hji ..⟩
  · rw [if_neg fun h1 => hrem h1.2]
    refine ⟨_, _, rfl, h.recount hv (by rw [hself, hy]; exact ⟨rfl, rfl, rfl⟩) hother ?_ rfl ⟨rfl, rfl, rfl⟩
      (fun _ _ => ⟨rfl, rfl⟩) ?_ (fun _ => Nat.pos_of_ne_zero hrem) (fun q z hz => .inr ⟨q, hz⟩)
      ⟨h.forks.ok, h.forks.child, h.forks.empty, h.forks.parent⟩,
      Stays.removed (.of_same (fun j => ?_) ⟨rfl, rfl, rfl⟩)⟩
    · exact (update_eq_self_iff.2 hreg.symm).symm
    · rw [hself, hy]
      exact h.counts.counted i r hv
    · by_cases hji : j = i
      · rw [hji, hself, hy]
        exact ⟨rfl, rfl, rfl⟩
      · rw [hother j hji]
        exact .rfl

/-- `shmctl` comes back. -/
theorem shmctl_spec (h : ShmInv k s) (u : User) (id : ℤ) (cmd : Cmd) :
    ∃ s', s.shmctl k u id cmd = .ok s' ∧ ShmInv k s' ∧ Removed k s (.ctl u id cmd) s' := by
  have hsame : ∃ s', (.ok s : Except Trap (Shm P)) = .ok s' ∧ ShmInv k s' ∧ Removed k s (.ctl u id cmd) s' :=
    ⟨s, rfl, h, (Stays.refl s).removed⟩
  have hedit : ∀ i y, y.Same (s.shmem i) → y.nattch = (s.shmem i).nattch →
      (y.dest = true → (s.shmem i).dest = true) →
      ∃ s', (.ok (s.setShm i y) : Except Trap (Shm P)) = .ok s' ∧ ShmInv k s' ∧
        Removed k s (.ctl u id cmd) s' := by
    intro i y hy hn hd
    obtain ⟨h1, h2⟩ := h.edit hy hn hd
    exact ⟨_, rfl, h1, h2.removed⟩
  unfold Shm.shmctl
  cases cmd with
  | rmid =>
    simp only [Bool.not_false]
    cases hc : s.shmconv k id true with
    | none => exact hsame
    | some i =>
      obtain ⟨hi, halloc, -⟩ := shmconv_some hc
      obtain ⟨r, hv⟩ := Option.ne_none_iff_exists'.1 ((h.tables.alloc i).1 halloc)
      simp only
      split_ifs with h1
      · obtain ⟨b, s', h2, h3, h4⟩ := rmid_spec (u := u) h hv hc
        simp only [h2, bind, Except.bind]
        exact ⟨s', rfl, h3, h4⟩
      · exact hsame
  | set uid gid mode =>
    simp only [Bool.not_false]
    cases s.shmconv k id true with
    | none => exact hsame
    | some i =>
      simp only
      split_ifs
      · exact hedit i _ ⟨rfl, rfl, rfl⟩ rfl fun h1 => h1
      · exact hsame
  | stat =>
    simp only [Bool.not_true]
    cases s.shmconv k id false <;> exact hsame
  | lock priv mlockOk =>
    simp only [Bool.not_false]
    cases s.shmconv k id true with
    | none => exact hsame
    | some i =>
      simp only
      split_ifs
      · exact hedit i _ ⟨rfl, rfl, rfl⟩ rfl fun h1 => h1
      · exact hsame
      · exact hsame
  | unlock priv =>
    simp only [Bool.not_false]
    cases s.shmconv k id true with
    | none => exact hsame
    | some i =>
      simp only
      split_ifs
      · exact hedit i _ ⟨rfl, rfl, rfl⟩ rfl fun h1 => h1
      · exact hsame
      · exact hsame
  | other =>
    simp only [Bool.not_false]
    cases s.shmconv k id true <;> exact hsame

/-! ### Forks go on -/

omit [DecidableEq P] in
theorem ShmInv.quiet (h : ShmInv k s) (hsh : s'.shmem = s.shmem) (hreg : s'.reg = s.reg)
    (hnext : s'.next = s.next) (hb : Beside s s') (hpregs : s'.pregs = s.pregs)
    (hexp : ∀ r, expected s' r = expected s r) (hf : Forks s') : ShmInv k s' ∧ Stays s s' := by
  have hall : ∀ j, (s'.shmem j).Same (s.shmem j) := fun j => by
    rw [hsh]
    exact .rfl
  refine ⟨h.regroup hall (fun j => by rw [hsh]) (fun j hj => by rwa [hsh] at hj) hreg hnext hb
    (fun r => ⟨by unfold attached; rw [hpregs], hexp r⟩) (fun p x hx => ⟨p, by rwa [hpregs] at hx⟩) hf,
    .of_same hall hb⟩

omit [DecidableEq P] in
/-- One segment is counted anew. -/
theorem ShmInv.tally {n : ℕ} (h : ShmInv k s) (hv : (s.shmem i).vas = some r)
    (hsh : s'.shmem = update s.shmem i { s.shmem i with nattch := n })
    (hreg : s'.reg = update s.reg r (some (1 + (attached s' r : ℤ)))) (hnext : s'.next = s.next)
    (hb : Beside s s')
    (hatt : ∀ r', r' ≠ r → attached s' r' = attached s r' ∧ expected s' r' = expected s r')
    (hcnt : n = expected s' r % 65536) (hpos : 0 < attached s' r)
    (hmem : ∀ p, ∀ x ∈ s'.pregs p, x.reg = r ∨ ∃ q, x ∈ s.pregs q) (hf : Forks s') :
    ShmInv k s' ∧ Stays s s' := by
  have hself : s'.shmem i = { s.shmem i with nattch := n } := by rw [hsh, update_self]
  have hother : ∀ j, j ≠ i → s'.shmem j = s.shmem j := fun j hj => by rw [hsh, update_of_ne hj]
  have hsame : (s'.shmem i).Same (s.shmem i) := by
    rw [hself]
    exact ⟨rfl, rfl, rfl⟩
  refine ⟨h.recount hv hsame hother hreg hnext hb hatt (by rw [hself, hcnt]) (fun _ => hpos) hmem hf,
    .of_same (fun j => ?_) hb⟩
  by_cases hji : j = i
  · rw [hji]
    exact hsame
  · rw [hother j hji]
    exact .rfl

omit [Fintype P] in
theorem shmFork_spec (h : Tables k s) (hv : (s.shmem i).vas = some r) (back : Bool) :
    s.shmFork k r back = .ok (s.setShm i { s.shmem i with
      nattch := ((s.shmem i).nattch + if back then 65535 else 1) % 65536 }) := by
  unfold Shm.shmFork
  rw [h.regtoshm_eq hv]

omit [Fintype P] [DecidableEq P] in
theorem bumps_cons (x : Preg) (left done : List Preg) (r : ℕ) :
    (Fork.copying c done (x :: left) true).bumps r = if x.reg = r then 1 else 0 := by
  simp [Fork.bumps, regCount_cons]

/-- A fork goes on with a pregion of the segment. -/
theorem ShmInv.forkTally {f : Fork P} {l : List Preg} {n : ℕ} (h : ShmInv k s)
    (hchild : (s.fork p).child = some c) (hv : (s.shmem i).vas = some r)
    (hsh : s'.shmem = update s.shmem i { s.shmem i with nattch := n })
    (hfork : s'.fork = update s.fork p f) (hpregs : s'.pregs = update s.pregs c l)
    (hreg : s'.reg = update s.reg r (some (1 + (attached s' r : ℤ)))) (hnext : s'.next = s.next)
    (hb : Beside s s') (hlife : s'.life = s.life) (hf : f.child = some c) (hok : ForkOk s' p)
    (hl : ∀ x ∈ l, x.reg = r ∨ x ∈ s.pregs c)
    (hrest : ∀ r', r' ≠ r → regCount r' l = regCount r' (s.pregs c) ∧ f.bumps r' = (s.fork p).bumps r')
    (hcnt : ∀ e, e + (if s.life c = .undone then 0 else regCount r (s.pregs c)) + (s.fork p).bumps r =
      expected s r + (if s.life c = .undone then 0 else regCount r l) + f.bumps r → n = e % 65536)
    (hpos : 0 < attached s' r) : ShmInv k s' ∧ Stays s s' := by
  have hother : ∀ q, q ≠ c → s'.pregs q = s.pregs q := fun q hq => by rw [hpregs, update_of_ne hq]
  have hfo : ∀ q, q ≠ p → s'.fork q = s.fork q := fun q hq => by rw [hfork, update_of_ne hq]
  have hpc : s'.pregs c = l := by rw [hpregs, update_self]
  have hfp : s'.fork p = f := by rw [hfork, update_self]
  have hexp : ∀ r', expected s' r' + (if s.life c = .undone then 0 else regCount r' (s.pregs c)) +
      (s.fork p).bumps r' = expected s r' + (if s.life c = .undone then 0 else regCount r' l) + f.bumps r' := by
    intro r'
    have h1 := expected_except p c (fun q hq => ⟨by rw [hlife], hother q hq⟩) hfo r'
    unfold term at h1
    rwa [hlife, hpc, hfp] at h1
  have hatt : ∀ r', attached s' r' + regCount r' (s.pregs c) = attached s r' + regCount r' l := by
    intro r'
    have h1 := attached_except c hother r'
    rwa [hpc] at h1
  obtain ⟨hup, hmade⟩ := h.forks.up hchild
  refine h.tally hv hsh hreg hnext hb (fun r' hr' => ?_) (hcnt _ (hexp r)) hpos (fun q z hz => ?_)
    (h.forks.step hup (.inl hchild) hfo (fun q hq => ⟨by rw [hlife], hother q hq⟩) hok
      (.inl (by rw [hfp, hf])) (fun h1 => ?_))
  · obtain ⟨h1, h2⟩ := hrest r' hr'
    have h3 := hexp r'
    have h4 := hatt r'
    rw [h1, h2] at h3
    rw [h1] at h4
    omega
  · by_cases hq : q = c
    · rw [hq, hpc] at hz
      rcases hl z hz with h1 | h1
      · exact .inl h1
      · exact .inr ⟨c, h1⟩
    · rw [hother q hq] at hz
      exact .inr ⟨q, hz⟩
  · rw [hlife] at h1
    rw [h1] at hmade
    rcases hmade with h2 | h2 <;> cases h2

variable {done left : List Preg}

/-- `shm_fork` -/
theorem ShmInv.bump (h : ShmInv k s) (hfork : s.fork p = .copying c done (x :: left) false) :
    ∃ s', s.shmFork k x.reg false = .ok s' ∧
      ShmInv k (s'.setFork p (.copying c done (x :: left) true)) ∧
      Stays s (s'.setFork p (.copying c done (x :: left) true)) := by
  have hok := h.forks.ok p
  unfold ForkOk at hok
  rw [hfork] at hok
  obtain ⟨hp, hc, hpc, hpp, -⟩ := hok
  have hx : x ∈ s.pregs p := by rw [hpp]; simp
  obtain ⟨i, hv⟩ := h.counts.member p x hx
  rw [shmFork_spec h.tables hv]
  have hold := h.counts.counted i _ hv
  refine ⟨_, rfl, h.forkTally (l := s.pregs c) (by rw [hfork]; rfl) hv rfl rfl (update_eq_self ..).symm ?_ rfl
    ⟨rfl, rfl, rfl⟩ rfl rfl ?_ (fun z hz => .inr hz) (fun r' hr' => ⟨rfl, ?_⟩) (fun e he => ?_) (attached_pos hx)⟩
  · exact (update_eq_self_iff.2 (h.counts.refcnt i _ hv).symm).symm
  · unfold ForkOk
    simp only [Shm.setFork, update_self]
    exact ⟨hp, hc, hpc, hpp, fun _ => cons_ne_nil x left⟩
  · rw [bumps_cons, if_neg (Ne.symm hr'), hfork]
    rfl
  · rw [bumps_cons, if_pos rfl, hfork] at he
    have h1 : (Fork.copying c done (x :: left) false).bumps x.reg = 0 := rfl
    simp only [Bool.false_eq_true, if_false]
    omega

/-- `duppregion` -/
theorem ShmInv.copy (h : ShmInv k s) (hfork : s.fork p = .copying c done (x :: left) true) (ok : Bool) :
    ∃ s', s.copy p c done x left ok = .ok s' ∧ ShmInv k s' ∧ Stays s s' := by
  have hok := h.forks.ok p
  unfold ForkOk at hok
  rw [hfork] at hok
  obtain ⟨hp, hc, hpc, hpp, -⟩ := hok
  have hx : x ∈ s.pregs p := by rw [hpp]; simp
  obtain ⟨i, hv⟩ := h.counts.member p x hx
  have hcp : c ≠ p := by
    rintro rfl
    rw [hp] at hc
    cases hc
  unfold Shm.copy
  cases ok
  · -- the pregion cannot be had
    simp only [Bool.false_eq_true, if_false]
    refine ⟨_, rfl, h.quiet rfl rfl rfl ⟨rfl, rfl, rfl⟩ rfl (fun r => ?_) ?_⟩
    · have h1 := @expected_except _ s ((s.setFork p (.backing c (x :: done))).setLife c .undone) _ p c
        (fun q hq => ⟨by simp [Shm.setLife, Shm.setFork, hq], rfl⟩)
        (fun q hq => by simp [Shm.setLife, Shm.setFork, hq]) r
      have h2 : term s r c = regCount r done := by
        unfold term
        rw [hc, if_neg (by simp), hpc]
      have h3 : term ((s.setFork p (.backing c (x :: done))).setLife c .undone) r c = 0 := by
        simp [term, Shm.setLife]
      have h4 : (((s.setFork p (.backing c (x :: done))).setLife c .undone).fork p).bumps r =
          regCount r (x :: done) := by simp [Shm.setLife, Shm.setFork, Fork.bumps]
      rw [h2, h3, h4, hfork, bumps_cons, regCount_cons] at h1
      omega
    · refine h.forks.step hp (.inl (by rw [hfork]; rfl)) (fun q hq => by simp [Shm.setLife, Shm.setFork, hq])
        (fun q hq => ⟨by simp [Shm.setLife, Shm.setFork, hq], rfl⟩) ?_
        (.inl (by simp [Shm.setLife, Shm.setFork, Fork.child])) (fun h1 => ?_)
      · unfold ForkOk
        simp only [Shm.setFork, Shm.setLife, update_self, update_of_ne hcp.symm]
        refine ⟨hp, trivial, fun z hz => ?_, fun z hz => ?_⟩
        · rcases mem_cons.1 hz with rfl | hz
          · exact hx
          · rw [hpp]
            simp [hz]
        · rw [hpc] at hz
          rw [hpp]
          simp [hz]
      · simp [Shm.setLife] at h1
  · simp only [if_true, Shm.attachreg, h.counts.refcnt i _ hv, bind, Except.bind]
    have hold := h.counts.counted i _ hv
    have hatt := @attached_except _ s { s with pregs := update s.pregs c (x :: s.pregs c) } _ c
      (fun q hq => update_of_ne hq ..) x.reg
    have hself : ({ s with pregs := update s.pregs c (x :: s.pregs c) } : Shm P).pregs c = x :: s.pregs c :=
      update_self ..
    rw [hself, regCount_cons, if_pos rfl] at hatt
    have hbumps : (Fork.copying c (x :: done) left false).bumps x.reg = 0 := rfl
    refine ⟨_, rfl, h.forkTally (n := (s.shmem i).nattch) (by rw [hfork]; rfl) hv
      (update_eq_self ..).symm rfl rfl ?_ rfl ⟨rfl, rfl, rfl⟩ rfl rfl ?_ (fun z hz => ?_)
      (fun r' hr' => ⟨?_, ?_⟩) (fun e he => ?_) ?_⟩
    · have hsum : attached { s with pregs := update s.pregs c (x :: s.pregs c) } x.reg =
          attached s x.reg + 1 := by omega
      refine congrArg (fun n : ℤ => update s.reg x.reg (some n)) ?_
      change _ = 1 + (attached { s with pregs := update s.pregs c (x :: s.pregs c) } x.reg : ℤ)
      rw [hsum]
      push_cast
      omega
    · unfold ForkOk
      simp only [Shm.setFork, Shm.setPregs, update_self, update_of_ne hcp.symm]
      exact ⟨hp, hc, by rw [hpc], by rw [hpp]; simp, (by simp)⟩
    · rcases mem_cons.1 hz with rfl | hz
      · exact .inl rfl
      · exact .inr hz
    · rw [regCount_cons, if_neg (Ne.symm hr'), Nat.add_zero]
    · rw [hfork, bumps_cons, if_neg (Ne.symm hr')]
      rfl
    · rw [hc, if_neg (by simp), if_neg (by simp), hfork, bumps_cons, if_pos rfl, hbumps, regCount_cons, if_pos rfl] at he
      omega
    · exact attached_pos (p := c) (x := x) (by simp [Shm.setFork, Shm.setPregs])

/-- A fork fails over another pregion. -/
theorem ShmInv.fail (h : ShmInv k s) (hfork : s.fork p = .copying c done left false) :
    ShmInv k ((s.setFork p (.backing c done)).setLife c .undone) ∧
      Stays s ((s.setFork p (.backing c done)).setLife c .undone) := by
  have hok := h.forks.ok p
  unfold ForkOk at hok
  rw [hfork] at hok
  obtain ⟨hp, hc, hpc, hpp, -⟩ := hok
  have hcp : c ≠ p := by
    rintro rfl
    rw [hp] at hc
    cases hc
  refine h.quiet rfl rfl rfl ⟨rfl, rfl, rfl⟩ rfl (fun r => ?_) ?_
  · have h1 := @expected_except _ s ((s.setFork p (.backing c done)).setLife c .undone) _ p c
      (fun q hq => ⟨by simp [Shm.setLife, Shm.setFork, hq], rfl⟩)
      (fun q hq => by simp [Shm.setLife, Shm.setFork, hq]) r
    have h2 : term s r c = regCount r done := by
      unfold term
      rw [hc, if_neg nofun, hpc]
    have h3 : term ((s.setFork p (.backing c done)).setLife c .undone) r c = 0 := by
      simp [term, Shm.setLife]
    have h4 : (((s.setFork p (.backing c done)).setLife c .undone).fork p).bumps r = regCount r done := by
      simp [Shm.setLife, Shm.setFork, Fork.bumps]
    have h5 : (Fork.copying c done left false).bumps r = 0 := rfl
    rw [h2, h3, h4, hfork, h5] at h1
    omega
  · refine h.forks.step hp (.inl (by rw [hfork]; rfl)) (fun q hq => by simp [Shm.setLife, Shm.setFork, hq])
      (fun q hq => ⟨by simp [Shm.setLife, Shm.setFork, hq], rfl⟩) ?_
      (.inl (by simp [Shm.setLife, Shm.setFork, Fork.child])) (fun h1 => by simp [Shm.setLife] at h1)
    unfold ForkOk
    simp only [Shm.setFork, Shm.setLife, update_self, update_of_ne hcp.symm]
    refine ⟨hp, trivial, fun z hz => ?_, fun z hz => ?_⟩
    · rw [hpp]
      simp [hz]
    · rw [hpc] at hz
      rw [hpp]
      simp [hz]

/-- `shm_fork_backout` -/
theorem ShmInv.backout {back : List Preg} (h : ShmInv k s) (hfork : s.fork p = .backing c (x :: back)) :
    ∃ s', s.shmFork k x.reg true = .ok s' ∧ ShmInv k (s'.setFork p (.backing c back)) ∧
      Stays s (s'.setFork p (.backing c back)) := by
  have hok := h.forks.ok p
  unfold ForkOk at hok
  rw [hfork] at hok
  obtain ⟨hp, hc, hback, hpc⟩ := hok
  have hx : x ∈ s.pregs p := hback (mem_cons_self ..)
  obtain ⟨i, hv⟩ := h.counts.member p x hx
  rw [shmFork_spec h.tables hv]
  have hold := h.counts.counted i _ hv
  have hcons : ∀ r, (Fork.backing c (x :: back)).bumps r =
      (Fork.backing c back).bumps r + if x.reg = r then 1 else 0 := fun r => regCount_cons ..
  refine ⟨_, rfl, h.forkTally (l := s.pregs c) (by rw [hfork]; rfl) hv rfl rfl (update_eq_self ..).symm ?_ rfl
    ⟨rfl, rfl, rfl⟩ rfl rfl ?_ (fun z hz => .inr hz) (fun r' hr' => ⟨rfl, ?_⟩) (fun e he => ?_) (attached_pos hx)⟩
  · exact (update_eq_self_iff.2 (h.counts.refcnt i _ hv).symm).symm
  · unfold ForkOk
    simp only [Shm.setFork, update_self]
    exact ⟨hp, hc, fun z hz => hback (mem_cons_of_mem x hz), hpc⟩
  · rw [hfork, hcons, if_neg (Ne.symm hr'), Nat.add_zero]
  · rw [hfork, hcons, if_pos rfl] at he
    simp only [if_true]
    omega

/-- The address space that is given up loses a pregion. -/
theorem ShmInv.undo {l : List Preg} (h : ShmInv k s) (hfork : s.fork p = .backing c [])
    (hpregs : s.pregs c = x :: l) :
    ∃ s', s.detachreg x.reg = .ok s' ∧ ShmInv k (s'.setPregs c l) ∧ Stays s (s'.setPregs c l) := by
  have hok := h.forks.ok p
  unfold ForkOk at hok
  rw [hfork] at hok
  obtain ⟨hp, hc, hback, hpc⟩ := hok
  have hcp : p ≠ c := by
    rintro rfl
    rw [hp] at hc
    cases hc
  have hxc : x ∈ s.pregs c := by rw [hpregs]; exact mem_cons_self ..
  have hx : x ∈ s.pregs p := hpc hxc
  obtain ⟨i, hv⟩ := h.counts.member p x hx
  have hpos : 0 < attached s x.reg := attached_pos hx
  have hatt := @attached_except _ s { s with pregs := update s.pregs c l } _ c
    (fun q hq => update_of_ne hq ..) x.reg
  have hself : ({ s with pregs := update s.pregs c l } : Shm P).pregs c = l := update_self ..
  rw [hself, hpregs, regCount_cons, if_pos rfl] at hatt
  rw [detachreg_keep (h.counts.refcnt i _ hv) (by omega)]
  refine ⟨_, rfl, h.forkTally (n := (s.shmem i).nattch) (by rw [hfork]; rfl) hv
    (update_eq_self ..).symm (update_eq_self_iff.2 hfork.symm).symm rfl ?_ rfl ⟨rfl, rfl, rfl⟩ rfl rfl ?_
    (fun z hz => .inr ?_) (fun r' hr' => ⟨?_, by rw [hfork]⟩) (fun e he => ?_) ?_⟩
  · refine congrArg (fun n : ℤ => update s.reg x.reg (some n)) ?_
    change _ = 1 + (attached { s with pregs := update s.pregs c l } x.reg : ℤ)
    omega
  · unfold ForkOk
    simp only [Shm.setPregs, hfork, update_self, update_of_ne hcp]
    exact ⟨hp, hc, hback, fun z hz => hpc (by rw [hpregs]; exact mem_cons_of_mem x hz)⟩
  · rw [hpregs]
    exact mem_cons_of_mem x hz
  · rw [hpregs, regCount_cons, if_neg (Ne.symm hr'), Nat.add_zero]
  · rw [hc, if_pos rfl, if_pos rfl, hfork] at he
    have hold := h.counts.counted i _ hv
    omega
  · refine attached_pos (p := p) (x := x) ?_
    simp only [Shm.setPregs, update_of_ne hcp]
    exact hx

/-- A fork is over, and the child has what it has. -/
theorem ShmInv.over {y : Life} (h : ShmInv k s) (hchild : (s.fork p).child = some c)
    (hbumps : ∀ r, (s.fork p).bumps r = 0) (hterm : s.life c ≠ .undone ∨ s.pregs c = [])
    (hy : y = .up ∨ y = .none ∧ s.pregs c = []) :
    ShmInv k ((s.setFork p .none).setLife c y) ∧ Stays s ((s.setFork p .none).setLife c y) := by
  obtain ⟨hp, -⟩ := h.forks.up hchild
  have hyn : y ≠ .undone := by rcases hy with rfl | ⟨rfl, -⟩ <;> nofun
  have hlife : ((s.setFork p .none).setLife c y).life c = y := update_self ..
  have hfp : ((s.setFork p .none).setLife c y).fork p = .none := update_self ..
  have hl : ∀ q, q ≠ c → ((s.setFork p .none).setLife c y).life q = s.life q := fun q hq => by
    simp [Shm.setLife, Shm.setFork, hq]
  have hf : ∀ q, q ≠ p → ((s.setFork p .none).setLife c y).fork q = s.fork q := fun q hq => by
    simp [Shm.setLife, Shm.setFork, hq]
  refine h.quiet rfl rfl rfl ⟨rfl, rfl, rfl⟩ rfl (fun r => ?_) (h.forks.step hp (.inl hchild) hf
    (fun q hq => ⟨hl q hq, rfl⟩) ?_ (.inr ⟨by rw [hfp]; rfl, ?_⟩) (fun h1 => ?_))
  · have h1 := expected_except p c (fun q hq => ⟨hl q hq, rfl⟩) hf r
    have h2 : term ((s.setFork p .none).setLife c y) r c = regCount r (s.pregs c) := by
      unfold term
      rw [hlife, if_neg hyn]
      rfl
    have h3 : term s r c = regCount r (s.pregs c) := by
      unfold term
      rcases hterm with h4 | h4
      · rw [if_neg h4]
      · rw [h4, regCount_nil, ite_self]
    rw [h2, h3, hfp, hbumps] at h1
    have h4 : (Fork.none : Fork P).bumps r = 0 := rfl
    omega
  · unfold ForkOk
    rw [hfp]
    trivial
  · rw [hlife]
    exact hy.imp id fun h1 => h1.1
  · rw [hlife] at h1
    rcases hy with h2 | h2
    · rw [h1] at h2
      cases h2
    · exact h2.2

/-- A fork starts. -/
theorem ShmInv.start (h : ShmInv k s) (hp : s.life p = .up) (hn : s.fork p = .none) (hc : s.life c = .none) :
    ShmInv k ((s.setFork p (.copying c [] (s.pregs p) false)).setLife c .made) ∧
      Stays s ((s.setFork p (.copying c [] (s.pregs p) false)).setLife c .made) := by
  have hcp : p ≠ c := by
    rintro rfl
    rw [hp] at hc
    cases hc
  have hempty := h.forks.empty c hc
  obtain ⟨s', hs'⟩ : ∃ s', s' = (s.setFork p (.copying c [] (s.pregs p) false)).setLife c .made := ⟨_, rfl⟩
  rw [← hs']
  have hlife : s'.life c = .made := by rw [hs']; exact update_self ..
  have hfp : s'.fork p = .copying c [] (s.pregs p) false := by rw [hs']; exact update_self ..
  have hl : ∀ q, q ≠ c → s'.life q = s.life q := fun q hq => by
    rw [hs']
    simp [Shm.setLife, Shm.setFork, hq]
  have hf : ∀ q, q ≠ p → s'.fork q = s.fork q := fun q hq => by
    rw [hs']
    simp [Shm.setLife, Shm.setFork, hq]
  have hpregs : s'.pregs = s.pregs := by rw [hs']; rfl
  refine h.quiet (by rw [hs']; rfl) (by rw [hs']; rfl) (by rw [hs']; rfl) (by rw [hs']; exact ⟨rfl, rfl, rfl⟩)
    hpregs (fun r => ?_) (h.forks.step hp (.inr ⟨hn, hc⟩) hf (fun q hq => ⟨hl q hq, by rw [hpregs]⟩) ?_
      (.inl (by rw [hfp]; rfl)) (fun h1 => by rw [hpregs, hempty]))
  · have h1 := expected_except p c (fun q hq => ⟨hl q hq, by rw [hpregs]⟩) hf r
    have h2 : term s' r c = 0 := by
      unfold term
      rw [hpregs, hempty, regCount_nil, ite_self]
    have h3 : term s r c = 0 := by
      unfold term
      rw [hempty, regCount_nil, ite_self]
    have h4 : (Fork.none : Fork P).bumps r = 0 := rfl
    have h5 : (Fork.copying c [] (s.pregs p) false).bumps r = 0 := rfl
    rw [h2, h3, hfp, hn, h4, h5] at h1
    omega
  · unfold ForkOk
    rw [hfp]
    refine ⟨by rw [hl p hcp, hp], hlife, by rw [hpregs, hempty], by rw [hpregs]; rfl, nofun⟩

/-- A process is gone. -/
theorem ShmInv.gone (h : ShmInv k s) (hp : s.life p = .up) (hn : s.fork p = .none) (hempty : s.pregs p = []) :
    ShmInv k (s.setLife p .none) ∧ Stays s (s.setLife p .none) := by
  have hl : ∀ q, q ≠ p → (s.setLife p .none).life q = s.life q := fun q hq => by simp [Shm.setLife, hq]
  refine h.quiet rfl rfl rfl ⟨rfl, rfl, rfl⟩ rfl (fun r => ?_)
    (h.forks.own hp hn rfl (fun q hq => ⟨hl q hq, rfl⟩) (.inr ⟨update_self .., hempty⟩))
  have h1 := expected_except p p (fun q hq => ⟨hl q hq, rfl⟩) (fun q _ => rfl : ∀ q, q ≠ p →
    (s.setLife p .none).fork q = s.fork q) r
  have h2 : term (s.setLife p .none) r p = 0 := by
    unfold term
    rw [show (s.setLife p .none).pregs p = [] from hempty, regCount_nil, ite_self]
  have h3 : term s r p = 0 := by
    unfold term
    rw [hempty, regCount_nil, ite_self]
  rw [h2, h3] at h1
  have h4 : (s.setLife p .none).fork p = s.fork p := rfl
  rw [h4] at h1
  omega

/-! ### Runs -/

/-- Every call comes back and keeps the invariant; a segment goes only as it may. -/
theorem ShmInv.call (h : ShmInv k s) (l : ShmEvent P) (hen : ShmEnabled s l) :
    ∃ s', shmCall k s l = .ok s' ∧ ShmInv k s' ∧ Removed k s l s' := by
  cases l with
  | get u key size flag regOk growOk attachOk =>
    obtain ⟨⟨res, s'⟩, hs⟩ : ∃ y, y = s.shmget k u key size flag regOk growOk attachOk := ⟨_, rfl⟩
    obtain ⟨h1, h2, -, h4⟩ := shmget_spec h hs.symm
    simp only [shmCall, ← hs]
    cases res with
    | error e => exact ⟨s', rfl, h1, h2.removed⟩
    | ok id =>
      obtain ⟨i, hi, hid⟩ := h4 id rfl
      have hslot : (id % k.shmmni).toNat = i := by
        rw [hid, h1.tables.shmid_eq hi]
        exact (entry_of_id hi).1
      refine ⟨{ s' with ids := ⟨id, i, s'.freed i, s'.wraps i⟩ :: s'.ids }, by simp only [hslot], ?_,
        fun i r hv => .inl (h2 i r hv)⟩
      rw [hid]
      exact ⟨h1.tables.give hi, ⟨h1.forks.ok, h1.forks.child, h1.forks.empty, h1.forks.parent⟩,
        ⟨h1.counts.counted, h1.counts.refcnt, h1.counts.member, h1.counts.dest⟩⟩
  | «at» u p id rdonly vaddr mlockOk =>
    obtain ⟨res, s', h1, h2, h3, -⟩ := shmat_spec h hen.1 hen.2 u id rdonly vaddr mlockOk
    refine ⟨s', ?_, h2, h3.removed⟩
    simp only [shmCall, h1]
    rfl
  | dt p addr =>
    simp only [shmCall, Shm.shmdt]
    cases hf : (s.pregs p).find? fun x => x.vaddr = addr with
    | none => exact ⟨s, rfl, h, (Stays.refl s).removed⟩
    | some x => exact detach_spec h hen.1 hen.2 (mem_of_find?_eq_some hf) _
  | ctl u id cmd => exact shmctl_spec h u id cmd
  | dispreg p =>
    obtain ⟨hp, hn, hne⟩ := hen
    obtain ⟨x, l, hl⟩ := exists_cons_of_ne_nil hne
    simp only [shmCall, hl]
    exact detach_spec h hp hn (by rw [hl]; exact mem_cons_self ..) _
  | gone p =>
    obtain ⟨h1, h2⟩ := h.gone hen.1 hen.2.1 hen.2.2
    exact ⟨_, rfl, h1, h2.removed⟩
  | fork p child =>
    obtain ⟨h1, h2⟩ := h.start hen.1 hen.2.1 hen.2.2
    exact ⟨_, rfl, h1, h2.removed⟩
  | bump p =>
    obtain ⟨child, done, x, left, hf⟩ := hen
    obtain ⟨s', h1, h2, h3⟩ := h.bump hf
    refine ⟨_, ?_, h2, h3.removed⟩
    simp only [shmCall, hf, h1, bind, Except.bind]
    rfl
  | copy p ok =>
    obtain ⟨child, done, x, left, hf⟩ := hen
    obtain ⟨s', h1, h2, h3⟩ := h.copy hf ok
    refine ⟨s', ?_, h2, h3.removed⟩
    simp only [shmCall, hf, h1]
  | fail p =>
    obtain ⟨child, done, left, hf⟩ := hen
    obtain ⟨h1, h2⟩ := h.fail hf
    refine ⟨_, ?_, h1, h2.removed⟩
    simp only [shmCall, hf]
  | backout p =>
    obtain ⟨child, x, back, hf⟩ := hen
    obtain ⟨s', h1, h2, h3⟩ := h.backout hf
    refine ⟨_, ?_, h2, h3.removed⟩
    simp only [shmCall, hf, h1, bind, Except.bind]
    rfl
  | undo p =>
    obtain ⟨child, x, l, hf, hl⟩ := hen
    obtain ⟨s', h1, h2, h3⟩ := h.undo hf hl
    refine ⟨_, ?_, h2, h3.removed⟩
    simp only [shmCall, hf, hl, h1, bind, Except.bind]
    rfl
  | undone p =>
    obtain ⟨child, hf, hl⟩ := hen
    obtain ⟨h1, h2⟩ := h.over (y := .none) (by rw [hf]; rfl) (fun r => by rw [hf]; rfl) (.inr hl)
      (.inr ⟨rfl, hl⟩)
    refine ⟨_, ?_, h1, h2.removed⟩
    simp only [shmCall, hf]
  | forked p =>
    obtain ⟨child, done, hf⟩ := hen
    have hmade : s.life child ≠ .undone := by
      have hok := h.forks.ok p
      unfold ForkOk at hok
      rw [hf] at hok
      rw [hok.2.1]
      nofun
    obtain ⟨h1, h2⟩ := h.over (y := .up) (by rw [hf]; rfl) (fun r => by rw [hf]; rfl) (.inl hmade) (.inl rfl)
    refine ⟨_, ?_, h1, h2.removed⟩
    simp only [shmCall, hf]

omit [DecidableEq P] in
theorem ShmInv.init (h : ShmStart s) : ShmInv k s := by
  obtain ⟨h1, h2, h3, h4⟩ := h
  have hfree : ∀ i, (s.shmem i).perm.ipcAlloc = false := fun i => (h1 i).1
  have hseq : ∀ i, (s.shmem i).perm.seq = 0 := fun i => (h1 i).2.1
  have hvas : ∀ i, (s.shmem i).vas = none := fun i => (h1 i).2.2
  refine ⟨⟨fun i => ?_, fun i r hr => ?_, fun i j r hr => ?_, fun r hr => ?_, fun r hr => ?_, fun i => ?_,
    fun i hi => ?_, fun g hg => ?_⟩, ⟨fun p => ?_, fun p q c hp => ?_, fun p _ => (h3 p).1, fun c hc => ?_⟩,
    ⟨fun i r hr => ?_, fun i r hr => ?_, fun p x hx => ?_, fun i r hr => ?_⟩⟩
  · simp [hfree, hvas]
  · simp [hvas] at hr
  · simp [hvas] at hr
  · exact absurd (h2 r) hr
  · exact absurd (h2 r) hr
  · rw [hseq]
    decide
  · rw [hseq]
    have := k.mni_lt
    omega
  · rw [h4] at hg
    cases hg
  · unfold ForkOk
    rw [(h3 p).2.1]
    trivial
  · rw [(h3 p).2.1] at hp
    cases hp
  · rcases (h3 c).2.2 with h5 | h5 <;> rw [h5] at hc <;> rcases hc with h6 | h6 <;> cases h6
  · simp [hvas] at hr
  · simp [hvas] at hr
  · rw [(h3 p).1] at hx
    cases hx
  · simp [hvas] at hr

omit [DecidableEq P] in
/-- What the invariant says to a user. -/
theorem ShmInv.kept (h : ShmInv k s) : ShmKept k s := by
  refine ⟨fun i r hv => ⟨h.counts.counted i r hv, fun hf => ?_⟩, h.tables.alloc, h.counts.refcnt,
    fun r hr => ?_, h.counts.member, h.counts.dest, fun g hg hw hfreed flg => ?_⟩
  · rw [h.counts.counted i r hv, expected_eq_attached h.forks hf]
  · obtain ⟨i, hi⟩ := h.tables.owned r hr
    exact ⟨i, hi, fun j hj => h.tables.inj j i r hj hi⟩
  · obtain ⟨h1, -, -, q, h2, h3⟩ := h.tables.ids g hg
    have h4 := h3 hw
    rw [if_neg hfreed.ne] at h4
    obtain ⟨h5, h6⟩ := entry_of_id (q := q) h1
    have hpos : ¬g.id < 0 := by rw [h2]; omega
    unfold Shm.shmconv
    rw [if_neg hpos, h2, h5, h6]
    refine if_pos (.inr (.inr ?_))
    exact_mod_cast h4.ne

end

/-! ### A segment that a process attaches again and again -/

/-- One entry. -/
def ShmInfo.one : ShmInfo := ⟨2 ^ 20, 1, 1, 65536, by decide, by decide⟩

def Shm.start : Shm Unit where
  shmem _ := ⟨⟨0, 0, 0, 0, false, 0, 0, 0⟩, false, false, false, 0, none, 0⟩
  reg _ := none
  next := 0
  pregs _ := []
  life _ := .up
  fork _ := .none
  freed _ := 0
  wraps _ := 0
  ids := []

end SysV

end Hpux
