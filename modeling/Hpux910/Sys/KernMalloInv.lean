import Hpux910.Sys.KernMallo
import Mathlib

/-!
# The elements of the pages

A page that `kalloc` has handed out for a bucket consists of elements of the size of the bucket.
Each of them is in use, or on the free list of the bucket.

* `State.Elem`, `State.Holds` : the elements of the pages, and what a block occupies.
* `Inv` : the pages, the lists, the blocks and the accounts.
* `Inv.elem_disjoint`, `Inv.block_disjoint` : elements and blocks do not overlap.
* `Inv.take`, `Inv.giveBig`, `Inv.freshElems`, `Inv.putBack`, `Inv.dropBig`, `Inv.reclaim` : what the
  routines do.
-/

namespace Hpux

namespace Mallo

open List Function

variable {C : Config} {s s' : State} {idx : ℕ} {res : Bool} {e p x va n t size type : ℕ}
  {b b' : Block}

/-! ### Sizes -/

theorem Config.nbpg_pos : 0 < C.nbpg := Nat.two_pow_pos _

theorem Config.pow_dvd_nbpg (h : idx ≤ C.pgshift) : 2 ^ idx ∣ C.nbpg := Nat.pow_dvd_pow 2 h

theorem Config.nbpg_dvd : C.nbpg ∣ 2 ^ 32 := by
  have h1 := C.pgshift_lt
  have h2 := C.minbucket_lt
  exact Nat.pow_dvd_pow 2 (by omega)

theorem Config.bucketindx_spec (C : Config) (size : ℕ) :
    C.minbucket ≤ C.bucketindx size ∧ C.bucketindx size ≤ C.maxbucket ∧
    (C.bucketindx size < C.maxbucket → size ≤ 2 ^ C.bucketindx size) ∧
    (C.minbucket < C.bucketindx size → 2 ^ (C.bucketindx size - 1) < size) := by
  unfold bucketindx minallocsize maxbucket
  split_ifs <;> refine ⟨by omega, by omega, fun h => ?_, fun h => ?_⟩ <;>
    first
      | omega
      | (simp only [pow_add, Nat.add_succ_sub_one]; omega)

theorem Config.bucketindx_le (h : size ≤ C.nbpg) : C.bucketindx size ≤ C.pgshift := by
  obtain ⟨-, -, -, h4⟩ := C.bucketindx_spec size
  by_contra hlt
  have h1 := C.minbucket_le
  have h2 : 2 ^ C.pgshift ≤ 2 ^ (C.bucketindx size - 1) := Nat.pow_le_pow_right (by omega) (by omega)
  have h3 := h4 (by omega)
  unfold nbpg at h
  omega

theorem Config.lt_bucketindx (h : C.nbpg < size) : C.pgshift < C.bucketindx size := by
  obtain ⟨-, -, h3, -⟩ := C.bucketindx_spec size
  by_contra hle
  have h1 := C.pgshift_lt
  have h4 : 2 ^ C.bucketindx size ≤ 2 ^ C.pgshift := Nat.pow_le_pow_right (by omega) (by omega)
  have h5 := h3 (by unfold maxbucket; omega)
  unfold nbpg at h
  omega

theorem Config.le_pow_bucketindx (h : C.bucketindx size ≤ C.pgshift) :
    size ≤ 2 ^ C.bucketindx size := by
  have h1 := C.pgshift_lt
  exact (C.bucketindx_spec size).2.2.1 (by unfold maxbucket; omega)

theorem Config.mul_nbpg_le {q : ℕ} (h : q * C.nbpg < 2 ^ 32) : q * C.nbpg + C.nbpg ≤ 2 ^ 32 := by
  obtain ⟨m, hm⟩ := C.nbpg_dvd
  rw [hm, Nat.mul_comm C.nbpg m] at h ⊢
  have hq : q < m := Nat.lt_of_mul_lt_mul_right h
  rw [← Nat.succ_mul]
  exact Nat.mul_le_mul_right _ hq

theorem Config.btorp_mul {q : ℕ} (h : q * C.nbpg < 2 ^ 32) : C.btorp (q * C.nbpg) = q := by
  have h1 := C.mul_nbpg_le h
  have h2 := C.nbpg_pos
  rw [btorp, Nat.mod_eq_of_lt (by omega)]
  refine Nat.div_eq_of_lt_le (by omega) ?_
  rw [Nat.succ_mul]
  omega

/-- A request of up to a page needs one. -/
theorem Config.npg_small (h : size ≤ C.nbpg) :
    C.allocsize size = 2 ^ C.bucketindx size ∧ C.npg size = 1 := by
  have h1 : C.allocsize size = 2 ^ C.bucketindx size := by simp [allocsize, Nat.not_lt.2 h]
  refine ⟨h1, ?_⟩
  have h2 := Nat.le_of_dvd C.nbpg_pos (C.pow_dvd_nbpg (C.bucketindx_le h))
  have h3 : 0 < 2 ^ C.bucketindx size := Nat.two_pow_pos _
  have h4 := C.mul_nbpg_le (q := 1) (by
    have := C.pgshift_lt
    have := C.minbucket_lt
    rw [Nat.one_mul, nbpg]
    exact Nat.pow_lt_pow_right (by omega) (by omega))
  rw [npg, h1, btorp, Nat.mod_eq_of_lt (by omega)]
  refine Nat.div_eq_of_lt_le ?_ ?_
  · omega
  · omega

/-- A larger request gets the pages it needs, if rounding up does not overflow. -/
theorem Config.npg_big (h : C.nbpg < size) (hs : size ≤ 2 ^ 32 - C.nbpg) :
    C.allocsize size = C.npg size * C.nbpg ∧ size ≤ C.npg size * C.nbpg := by
  have h1 := C.nbpg_pos
  have h2 : C.btorp size = (size + (C.nbpg - 1)) / C.nbpg := by
    rw [btorp, Nat.mod_eq_of_lt (by omega)]
  have h3 : C.btorp size * C.nbpg ≤ size + (C.nbpg - 1) := h2 ▸ Nat.div_mul_le_self _ _
  have h4 : size ≤ C.btorp size * C.nbpg := by
    have := Nat.lt_div_mul_add (a := size + (C.nbpg - 1)) h1
    rw [h2]
    omega
  have h5 : C.allocsize size = C.btorp size * C.nbpg := by
    rw [allocsize, if_pos h, ptob, Nat.mod_eq_of_lt (by omega)]
  have h6 : C.npg size = C.btorp size := by
    rw [npg, h5, C.btorp_mul (by omega)]
  rw [h6]
  exact ⟨h5, h4⟩

/-! ### Pages and elements -/

/-- The element is on a page of its bucket. -/
def State.Elem (s : State) (C : Config) (idx : ℕ) (res : Bool) (e : ℕ) : Prop :=
  s.page (e / C.nbpg) = some (.elems idx res) ∧ e % 2 ^ idx = 0

/-- The block is an element, or the pages it was given. -/
def State.Holds (s : State) (C : Config) (b : Block) : Prop :=
  (∃ idx res, s.Elem C idx res b.addr ∧ b.len = 2 ^ idx) ∨
    (b.addr % C.nbpg = 0 ∧ C.pgshift < s.kuIndx (b.addr / C.nbpg) ∧
      s.kuIndx (b.addr / C.nbpg) < reservedPool ∧
      ∃ n, 0 < n ∧ b.len = n * C.nbpg ∧ s.kuPagecnt (b.addr / C.nbpg) ≤ n ∧
        ∀ p, s.page p = some (.big b.addr) ↔ b.addr / C.nbpg ≤ p ∧ p < b.addr / C.nbpg + n)

/-- The memory is on a reserved page. -/
def State.onReserved (s : State) (C : Config) (a : ℕ) : Bool :=
  reservedPool ≤ s.kuIndx (a / C.nbpg)

/-- The bytes that the blocks of a type hold on reserved pages. -/
def State.reservedBytes (s : State) (C : Config) (type : ℕ) : ℤ :=
  ((s.live.filter fun b => b.type = type ∧ s.onReserved C b.addr = true).map
    fun b => (b.len : ℤ)).sum

/-- The sizes of a call that is under way. -/
def CallOk (C : Config) : Call → Prop
  | .kalloc size _ _ _ => size ≤ 2 ^ 32 - C.nbpg
  | .reserve _ size count _ => size ≤ C.nbpg ∧ 0 < C.btorp (C.resbytes size count)
  | _ => True

/-- The pages, the lists, the blocks and the accounts. -/
structure Inv (C : Config) (s : State) : Prop where
  page_out : ∀ p k, s.page p = some k → s.out p = true
  page_zero : s.page 0 = none
  page_top : ∀ p k, s.page p = some k → (p + 1) * C.nbpg ≤ 2 ^ 32
  elems : ∀ p idx res, s.page p = some (.elems idx res) →
    idx ≤ C.pgshift ∧ s.kuIndx p = if res then idx + reservedPool else idx
  big : ∀ p a, s.page p = some (.big a) →
    s.page (a / C.nbpg) = some (.big a) ∧ a ∈ s.live.map Block.addr
  lists : ∀ res idx, ∃ l, Threaded (s.cells res idx) none l ∧ l.Nodup ∧
    ∀ e, e ∈ l ↔ s.Elem C idx res e ∧ e ∉ s.live.map Block.addr
  nodup : (s.live.map Block.addr).Nodup
  live : ∀ b ∈ s.live, b.size ≤ b.len ∧ s.Holds C b
  resinuse : ∀ type, (s.stats type).resinuse = s.reservedBytes C type ∧
    (s.stats type).resinuse ≤ (s.stats type).reslimit
  calls : ∀ t, CallOk C (s.call t)

theorem Config.two_pow_le (h : idx ≤ C.pgshift) : 2 ^ idx ≤ C.nbpg :=
  Nat.le_of_dvd C.nbpg_pos (C.pow_dvd_nbpg h)

/-- An element ends on its page. -/
theorem elem_end (h : idx ≤ C.pgshift) (he : e % 2 ^ idx = 0) :
    e + 2 ^ idx ≤ (e / C.nbpg + 1) * C.nbpg := by
  obtain ⟨r, hr⟩ := C.pow_dvd_nbpg h
  obtain ⟨j, rfl⟩ := Nat.dvd_of_mod_eq_zero he
  have h1 := Nat.lt_div_mul_add (a := 2 ^ idx * j) C.nbpg_pos
  generalize 2 ^ idx * j / C.nbpg = q at h1 ⊢
  rw [hr] at h1 ⊢
  have h2 : 2 ^ idx * j < 2 ^ idx * (q * r + r) := by
    calc 2 ^ idx * j < q * (2 ^ idx * r) + 2 ^ idx * r := h1
      _ = 2 ^ idx * (q * r + r) := by ring
  have h3 : j + 1 ≤ q * r + r := Nat.lt_of_mul_lt_mul_left h2
  calc 2 ^ idx * j + 2 ^ idx = 2 ^ idx * (j + 1) := by ring
    _ ≤ 2 ^ idx * (q * r + r) := Nat.mul_le_mul_left _ h3
    _ = (q + 1) * (2 ^ idx * r) := by ring

theorem multiple_disjoint {e e' : ℕ} (he : e % 2 ^ idx = 0) (he' : e' % 2 ^ idx = 0)
    (hne : e ≠ e') : e + 2 ^ idx ≤ e' ∨ e' + 2 ^ idx ≤ e := by
  obtain ⟨j, rfl⟩ := Nat.dvd_of_mod_eq_zero he
  obtain ⟨j', rfl⟩ := Nat.dvd_of_mod_eq_zero he'
  have hj : j ≠ j' := fun h => hne (by rw [h])
  rw [← Nat.mul_succ, ← Nat.mul_succ]
  obtain h | h := Nat.lt_or_gt_of_ne hj
  · exact .inl (Nat.mul_le_mul_left _ h)
  · exact .inr (Nat.mul_le_mul_left _ h)

theorem page_le (e : ℕ) : e / C.nbpg * C.nbpg ≤ e := Nat.div_mul_le_self _ _

theorem mul_page {a : ℕ} (h : a % C.nbpg = 0) : a / C.nbpg * C.nbpg = a :=
  Nat.div_mul_cancel (Nat.dvd_of_mod_eq_zero h)

/-- An element does not overlap a block that does not begin there. -/
theorem Inv.elem_disjoint (h : Inv C s) (he : s.Elem C idx res e) (hb : s.Holds C b)
    (hne : e ≠ b.addr) : e + 2 ^ idx ≤ b.addr ∨ b.addr + b.len ≤ e := by
  obtain ⟨hp, hm⟩ := he
  have hend := elem_end (h.elems _ _ _ hp).1 hm
  obtain ⟨idx', res', ⟨hp', hm'⟩, hlen⟩ | ⟨ha, -, -, n, hn, hlen, -, hpages⟩ := hb
  · have hend' := elem_end (h.elems _ _ _ hp').1 hm'
    rw [hlen]
    obtain hlt | heq | hlt := Nat.lt_trichotomy (e / C.nbpg) (b.addr / C.nbpg)
    · exact .inl ((hend.trans (Nat.mul_le_mul_right _ hlt)).trans (page_le _))
    · rw [heq, hp'] at hp
      obtain ⟨rfl, -⟩ := Kind.elems.inj (Option.some.inj hp)
      exact multiple_disjoint hm hm' hne
    · exact .inr ((hend'.trans (Nat.mul_le_mul_right _ hlt)).trans (page_le _))
  · have hnot := hpages (e / C.nbpg)
    rw [hp] at hnot
    simp only [reduceCtorEq, Option.some.injEq, false_iff, not_and, not_lt] at hnot
    rw [hlen]
    obtain hlt | hle := Nat.lt_or_ge (e / C.nbpg) (b.addr / C.nbpg)
    · exact .inl ((hend.trans (Nat.mul_le_mul_right _ hlt)).trans (page_le _))
    · refine .inr (le_trans ?_ (page_le (C := C) e))
      have := Nat.mul_le_mul_right C.nbpg (hnot hle)
      rwa [Nat.add_mul, mul_page ha] at this

/-- Two blocks do not overlap. -/
theorem Inv.block_disjoint (h : Inv C s) (hb : s.Holds C b) (hb' : s.Holds C b')
    (hne : b.addr ≠ b'.addr) : b.addr + b.len ≤ b'.addr ∨ b'.addr + b'.len ≤ b.addr := by
  have hb0 := hb
  obtain ⟨idx, res, he, hlen⟩ | ⟨ha, -, -, n, hn, hlen, -, hpages⟩ := hb
  · rw [hlen]
    exact h.elem_disjoint he hb' hne
  · obtain ⟨idx', res', he', hlen'⟩ | ⟨ha', -, -, n', hn', hlen', -, hpages'⟩ := hb'
    · rw [hlen']
      exact (h.elem_disjoint he' hb0 hne.symm).symm
    · have hno : ∀ p, ¬((b.addr / C.nbpg ≤ p ∧ p < b.addr / C.nbpg + n) ∧
          b'.addr / C.nbpg ≤ p ∧ p < b'.addr / C.nbpg + n') := fun p hp => by
        have h1 := (hpages p).2 hp.1
        rw [(hpages' p).2 hp.2] at h1
        exact hne (Kind.big.inj (Option.some.inj h1)).symm
      have h1 := hno (b.addr / C.nbpg)
      have h2 := hno (b'.addr / C.nbpg)
      rw [hlen, hlen']
      obtain hle | hle : b.addr / C.nbpg + n ≤ b'.addr / C.nbpg ∨
          b'.addr / C.nbpg + n' ≤ b.addr / C.nbpg := by omega
      · have := Nat.mul_le_mul_right C.nbpg hle
        rw [Nat.add_mul, mul_page ha, mul_page ha'] at this
        exact .inl this
      · have := Nat.mul_le_mul_right C.nbpg hle
        rw [Nat.add_mul, mul_page ha, mul_page ha'] at this
        exact .inr this

/-! ### What the steps do -/

theorem Inv.holds_page (hb : s.Holds C b) : s.page (b.addr / C.nbpg) ≠ none := by
  obtain ⟨_, _, he, -⟩ | ⟨-, -, -, n, hn, -, -, hpages⟩ := hb
  · rw [he.1]
    simp
  · rw [(hpages _).2 ⟨le_rfl, by omega⟩]
    simp

theorem State.Holds.congr (hb : s.Holds C b) (hpage : ∀ p k, s.page p = some k → s'.page p = some k)
    (hbig : ∀ p, s'.page p = some (.big b.addr) → s.page p = some (.big b.addr))
    (hku : s'.kuIndx (b.addr / C.nbpg) = s.kuIndx (b.addr / C.nbpg))
    (hcnt : s'.kuPagecnt (b.addr / C.nbpg) = s.kuPagecnt (b.addr / C.nbpg)) : s'.Holds C b := by
  obtain ⟨idx, res, he, hlen⟩ | ⟨ha, h1, h2, n, hn, hlen, hc, hpages⟩ := hb
  · exact .inl ⟨idx, res, ⟨hpage _ _ he.1, he.2⟩, hlen⟩
  · exact .inr ⟨ha, hku ▸ h1, hku ▸ h2, n, hn, hlen, hcnt ▸ hc, fun p =>
      ⟨fun hp => (hpages p).1 (hbig p hp), fun hp => hpage _ _ ((hpages p).2 hp)⟩⟩

theorem reservedBytes_congr (hlive : s'.live = s.live)
    (hku : ∀ b ∈ s.live, s'.kuIndx (b.addr / C.nbpg) = s.kuIndx (b.addr / C.nbpg)) :
    s'.reservedBytes C type = s.reservedBytes C type := by
  unfold State.reservedBytes
  rw [hlive]
  congr 2
  refine filter_congr fun b hb => ?_
  rw [show s'.onReserved C b.addr = s.onReserved C b.addr by rw [State.onReserved, hku b hb]; rfl]

/-- The bytes of one block are added. -/
theorem reservedBytes_cons (hlive : s'.live = b :: s.live)
    (hku : ∀ b ∈ s.live, s'.kuIndx (b.addr / C.nbpg) = s.kuIndx (b.addr / C.nbpg)) :
    s'.reservedBytes C type = s.reservedBytes C type +
      if type = b.type ∧ s'.onReserved C b.addr = true then (b.len : ℤ) else 0 := by
  have hrest : ({ s' with live := s.live } : State).reservedBytes C type =
      s.reservedBytes C type := reservedBytes_congr rfl hku
  rw [← hrest]
  unfold State.reservedBytes
  rw [hlive, filter_cons]
  by_cases hc : b.type = type ∧ s'.onReserved C b.addr = true
  · have hc' : type = b.type ∧ s'.onReserved C b.addr = true := ⟨hc.1.symm, hc.2⟩
    rw [if_pos (by simpa using hc), if_pos hc', map_cons, sum_cons, add_comm]
    rfl
  · have hc' : ¬(type = b.type ∧ s'.onReserved C b.addr = true) := fun h => hc ⟨h.1.symm, h.2⟩
    rw [if_neg (by simpa using hc), if_neg hc', add_zero]
    rfl

/-- A block is one of those in use, and the others are those elsewhere. -/
theorem perm_forget {l : List Block} (h : (l.map Block.addr).Nodup) (hb : b ∈ l) :
    l.Perm (b :: l.filter fun b' => b'.addr ≠ b.addr) := by
  induction l with
  | nil => cases hb
  | cons d l ih =>
    rw [map_cons, nodup_cons] at h
    obtain rfl | hb := mem_cons.1 hb
    · have hall : ∀ b' ∈ l, b'.addr ≠ b.addr := fun b' hb' he =>
        h.1 (he ▸ mem_map_of_mem hb')
      rw [filter_cons_of_neg (by simp), filter_eq_self.2 (by simpa using hall)]
    · have hne : d.addr ≠ b.addr := fun he => h.1 (he ▸ mem_map_of_mem hb)
      rw [filter_cons_of_pos (by simpa using hne)]
      exact ((ih h.2 hb).cons d).trans (.swap b d _)

theorem mem_forget {l : List Block} (h : (l.map Block.addr).Nodup) (hb : b ∈ l) :
    e ∈ (l.filter fun b' => b'.addr ≠ b.addr).map Block.addr ↔
      e ∈ l.map Block.addr ∧ e ≠ b.addr := by
  rw [((perm_forget h hb).map Block.addr).mem_iff, map_cons, mem_cons]
  have hnot : b.addr ∉ (l.filter fun b' => b'.addr ≠ b.addr).map Block.addr := by simp
  constructor
  · intro he
    exact ⟨.inr he, fun heq => hnot (heq ▸ he)⟩
  · rintro ⟨rfl | he, hne⟩
    · exact absurd rfl hne
    · exact he

/-- The bytes of one block are taken off. -/
theorem reservedBytes_forget (hnd : (s.live.map Block.addr).Nodup) (hb : b ∈ s.live)
    (hlive : s'.live = s.live.filter fun b' => b'.addr ≠ b.addr)
    (hku : s'.kuIndx = s.kuIndx) : s'.reservedBytes C type = s.reservedBytes C type -
      if type = b.type ∧ s.onReserved C b.addr = true then (b.len : ℤ) else 0 := by
  have hsum : s.reservedBytes C type =
      ({ s' with live := b :: s'.live } : State).reservedBytes C type := by
    unfold State.reservedBytes
    simp only [State.onReserved, hku, hlive]
    exact (((perm_forget hnd hb).filter _).map _).sum_eq
  have hcons : ({ s' with live := b :: s'.live } : State).reservedBytes C type =
      s'.reservedBytes C type +
        if type = b.type ∧ s'.onReserved C b.addr = true then (b.len : ℤ) else 0 :=
    reservedBytes_cons rfl fun _ _ => rfl
  rw [hsum, hcons, show s'.onReserved C b.addr = s.onReserved C b.addr by
    rw [State.onReserved, hku]; rfl]
  ring

/-- Only the accounts and the callers change. -/
theorem Inv.update (h : Inv C s) (hmem : s'.mem = s.mem) (hb : s'.bucket = s.bucket)
    (hku : s'.kuIndx = s.kuIndx) (hcnt : s'.kuPagecnt = s.kuPagecnt) (hout : s'.out = s.out)
    (hpage : s'.page = s.page) (hlive : s'.live = s.live)
    (hstats : ∀ type, (s'.stats type).resinuse = (s.stats type).resinuse ∧
      (s.stats type).reslimit ≤ (s'.stats type).reslimit)
    (hcall : ∀ t, CallOk C (s'.call t)) : Inv C s' := by
  have hcells : ∀ res idx, s'.cells res idx = s.cells res idx := fun res idx => by
    funext c
    cases c with
    | none => exact congrFun (congrFun hb res) idx
    | some a => exact congrFun hmem a
  refine ⟨fun p k hp => ?_, hpage ▸ h.page_zero, fun p k hp => h.page_top p k (hpage ▸ hp),
    fun p idx res hp => hku ▸ h.elems p idx res (hpage ▸ hp), fun p a hp => ?_, fun res idx => ?_,
    hlive ▸ h.nodup, fun b hbl => ?_, fun type => ?_, hcall⟩
  · exact hout ▸ h.page_out p k (hpage ▸ hp)
  · rw [hpage, hlive]
    exact h.big p a (hpage ▸ hp)
  · obtain ⟨l, ht, hnd, hl⟩ := h.lists res idx
    refine ⟨l, (hcells res idx) ▸ ht, hnd, fun e => ?_⟩
    rw [hl, State.Elem, State.Elem, hpage, hlive]
  · obtain ⟨h1, h2⟩ := h.live b (hlive ▸ hbl)
    exact ⟨h1, h2.congr (fun p k hp => hpage ▸ hp) (fun p hp => hpage ▸ hp) (hku ▸ rfl)
      (hcnt ▸ rfl)⟩
  · obtain ⟨h1, h2⟩ := h.resinuse type
    obtain ⟨h3, h4⟩ := hstats type
    exact ⟨by rw [h3, h1, reservedBytes_congr hlive fun b _ => by rw [hku]], by omega⟩

/-- The first element of a list comes into use. -/
theorem Inv.take (h : Inv C s) (h0 : s.bucket res idx ≠ 0) (hsize : size ≤ 2 ^ idx)
    (hmem : s'.mem = s.mem)
    (hb : s'.bucket = fun r i => if r = res ∧ i = idx then s.mem (s.bucket res idx)
      else s.bucket r i)
    (hku : s'.kuIndx = s.kuIndx) (hcnt : s'.kuPagecnt = s.kuPagecnt) (hout : s'.out = s.out)
    (hpage : s'.page = s.page) (hlive : s'.live = ⟨s.bucket res idx, size, type, 2 ^ idx⟩ :: s.live)
    (hstats : ∀ type', (s'.stats type').resinuse =
        (s.stats type').resinuse + (if type' = type ∧ res = true then 2 ^ idx else 0) ∧
      (s'.stats type').resinuse ≤ (s'.stats type').reslimit)
    (hcall : ∀ t, CallOk C (s'.call t)) : Inv C s' := by
  obtain ⟨l, ht, hnd, hl⟩ := h.lists res idx
  obtain _ | ⟨a, l⟩ := l
  · exact absurd ht h0
  have ha : s.bucket res idx = a := ht.1.1
  rw [ha] at hlive hb
  obtain ⟨hae, hal⟩ := (hl a).1 mem_cons_self
  obtain ⟨hanot, hnd'⟩ := nodup_cons.1 hnd
  have hres : s.onReserved C a = res := by
    obtain ⟨h1, h2⟩ := h.elems _ _ _ hae.1
    have h3 := C.pgshift_lt
    have h4 := C.minbucket_lt
    unfold State.onReserved
    cases res with
    | false =>
      rw [h2, decide_eq_false_iff_not, reservedPool]
      simp only [Bool.false_eq_true, if_false]
      omega
    | true => simp [h2]
  refine ⟨fun p k hp => hout ▸ h.page_out p k (hpage ▸ hp), hpage ▸ h.page_zero,
    fun p k hp => h.page_top p k (hpage ▸ hp),
    fun p idx res hp => hku ▸ h.elems p idx res (hpage ▸ hp), fun p d hp => ?_, fun r i => ?_, ?_,
    fun b hbl => ?_, fun type' => ?_, hcall⟩
  · rw [hpage, hlive]
    exact (h.big p d (hpage ▸ hp)).imp_right (mem_cons_of_mem a)
  · by_cases hri : r = res ∧ i = idx
    · obtain ⟨rfl, rfl⟩ := hri
      refine ⟨l, ht.2.rehead ?_ fun c _ => ?_, hnd', fun e => ?_⟩
      · simp [State.cells, hb]
      · simp [State.cells, hmem]
      · rw [hlive, map_cons, mem_cons, not_or, State.Elem, hpage]
        constructor
        · intro hel
          obtain ⟨h1, h2⟩ := (hl e).1 (mem_cons_of_mem a hel)
          exact ⟨h1, fun he => hanot ((show e = a from he) ▸ hel), h2⟩
        · rintro ⟨h1, h2, h3⟩
          exact (mem_cons.1 ((hl e).2 ⟨h1, h3⟩)).resolve_left h2
    · obtain ⟨m, htm, hndm, hm⟩ := h.lists r i
      refine ⟨m, htm.congr ?_ fun c _ => ?_, hndm, fun e => ?_⟩
      · simp [State.cells, hb, hri]
      · simp [State.cells, hmem]
      · rw [hm, hlive, map_cons, mem_cons, not_or, State.Elem, State.Elem, hpage]
        constructor
        · rintro ⟨h1, h2⟩
          refine ⟨h1, fun he => hri ?_, h2⟩
          have hae' : s.page (e / C.nbpg) = some (.elems idx res) := (show e = a from he) ▸ hae.1
          rw [h1.1] at hae'
          exact (Kind.elems.inj (Option.some.inj hae')).symm
        · rintro ⟨h1, -, h2⟩
          exact ⟨h1, h2⟩
  · rw [hlive, map_cons]
    exact nodup_cons.2 ⟨hal, h.nodup⟩
  · rw [hlive] at hbl
    obtain rfl | hbl := mem_cons.1 hbl
    · exact ⟨hsize, .inl ⟨idx, res, ⟨hpage ▸ hae.1, hae.2⟩, rfl⟩⟩
    · obtain ⟨h1, h2⟩ := h.live b hbl
      exact ⟨h1, h2.congr (fun p k hp => hpage ▸ hp) (fun p hp => hpage ▸ hp) (hku ▸ rfl)
        (hcnt ▸ rfl)⟩
  · obtain ⟨h1, h2⟩ := hstats type'
    refine ⟨?_, h2⟩
    rw [h1, (h.resinuse type').1, reservedBytes_cons hlive fun b _ => by rw [hku]]
    simp [State.onReserved, hku, ← hres]

theorem Inv.fresh_page (h : Inv C s) (hf : s.Fresh C va n)
    (hp : va / C.nbpg ≤ p ∧ p < va / C.nbpg + n) : s.page p = none := by
  obtain ⟨-, -, -, hout⟩ := hf
  have h1 := hout (p - va / C.nbpg) (by omega)
  rw [show va / C.nbpg + (p - va / C.nbpg) = p by omega] at h1
  by_contra hne
  obtain ⟨k, hk⟩ := Option.ne_none_iff_exists'.1 hne
  rw [h.page_out p k hk] at h1
  cases h1

theorem fresh_top (hf : s.Fresh C va n) (hp : p < va / C.nbpg + n) : (p + 1) * C.nbpg ≤ 2 ^ 32 := by
  obtain ⟨hva, -, htop, -⟩ := hf
  calc (p + 1) * C.nbpg ≤ (va / C.nbpg + n) * C.nbpg := Nat.mul_le_mul_right _ hp
    _ = va + n * C.nbpg := by rw [Nat.add_mul, mul_page hva]
    _ ≤ 2 ^ 32 := htop

theorem fresh_ne_zero (hf : s.Fresh C va n) : va / C.nbpg ≠ 0 := fun hz => by
  have h1 := mul_page hf.1
  rw [hz, Nat.zero_mul] at h1
  exact hf.2.1 h1.symm

theorem mem_run (hva : va % C.nbpg = 0) :
    (va / C.nbpg ≤ e / C.nbpg ∧ e / C.nbpg < va / C.nbpg + n) ↔ va ≤ e ∧ e < va + n * C.nbpg := by
  have hN := C.nbpg_pos
  rw [Nat.le_div_iff_mul_le hN, Nat.div_lt_iff_lt_mul hN, Nat.add_mul, mul_page hva]

/-- The blocks in use and their accounts when a run of pages is handed out. -/
theorem Inv.fresh_block (h : Inv C s) (hf : s.Fresh C va n) {k : Kind}
    (hk : ∀ b ∈ s.live, k ≠ .big b.addr)
    (hpage : ∀ p, s'.page p = if va / C.nbpg ≤ p ∧ p < va / C.nbpg + n then some k else s.page p)
    (hku : ∀ p, ¬(va / C.nbpg ≤ p ∧ p < va / C.nbpg + n) → s'.kuIndx p = s.kuIndx p)
    (hcnt : ∀ p, ¬(va / C.nbpg ≤ p ∧ p < va / C.nbpg + n) → s'.kuPagecnt p = s.kuPagecnt p)
    (hb : b ∈ s.live) : s'.Holds C b ∧ s'.kuIndx (b.addr / C.nbpg) = s.kuIndx (b.addr / C.nbpg) := by
  have hold := (h.live b hb).2
  have hout : ¬(va / C.nbpg ≤ b.addr / C.nbpg ∧ b.addr / C.nbpg < va / C.nbpg + n) := fun hp =>
    Inv.holds_page hold (h.fresh_page hf hp)
  refine ⟨hold.congr (fun p k' hp => ?_) (fun p hp => ?_) (hku _ hout) (hcnt _ hout), hku _ hout⟩
  · rw [hpage, if_neg fun hr => by rw [h.fresh_page hf hr] at hp; cases hp]
    exact hp
  · rw [hpage] at hp
    split_ifs at hp with hr
    · exact absurd (Option.some.inj hp) (hk b hb)
    · exact hp

theorem Inv.fresh_elem (h : Inv C s) (hf : s.Fresh C va n) (he : s.Elem C idx res e) :
    ¬(va / C.nbpg ≤ e / C.nbpg ∧ e / C.nbpg < va / C.nbpg + n) := fun hr => by
  have h1 := he.1
  rw [h.fresh_page hf hr] at h1
  cases h1

/-- A block of whole pages comes into use. -/
theorem Inv.giveBig (h : Inv C s) (hf : s.Fresh C va n) (hn : 0 < n) (hsize : size ≤ n * C.nbpg)
    (hidx : C.pgshift < idx) (hidx' : idx < reservedPool)
    (hmem : ∀ a, a ≠ va → s'.mem a = s.mem a) (hb : s'.bucket = s.bucket)
    (hku : s'.kuIndx = Function.update s.kuIndx (va / C.nbpg) idx)
    (hcnt : ∀ p, p ≠ va / C.nbpg → s'.kuPagecnt p = s.kuPagecnt p)
    (hcnt' : s'.kuPagecnt (va / C.nbpg) ≤ n)
    (hout : ∀ p, s'.out p = if va / C.nbpg ≤ p ∧ p < va / C.nbpg + n then true else s.out p)
    (hpage : ∀ p, s'.page p =
      if va / C.nbpg ≤ p ∧ p < va / C.nbpg + n then some (.big va) else s.page p)
    (hlive : s'.live = ⟨va, size, type, n * C.nbpg⟩ :: s.live)
    (hstats : ∀ type, (s'.stats type).resinuse = (s.stats type).resinuse ∧
      (s.stats type).reslimit ≤ (s'.stats type).reslimit)
    (hcall : ∀ t, CallOk C (s'.call t)) : Inv C s' := by
  have hfirst : va / C.nbpg ≤ va / C.nbpg ∧ va / C.nbpg < va / C.nbpg + n := ⟨le_rfl, by omega⟩
  have hnew : s.page (va / C.nbpg) = none := h.fresh_page hf hfirst
  have hva : va ∉ s.live.map Block.addr := fun hmem => by
    obtain ⟨b, hb, rfl⟩ := mem_map.1 hmem
    exact Inv.holds_page (h.live b hb).2 hnew
  have hblock : ∀ b ∈ s.live, s'.Holds C b ∧
      s'.kuIndx (b.addr / C.nbpg) = s.kuIndx (b.addr / C.nbpg) := fun b hbl => by
    refine h.fresh_block hf (k := .big va) (fun b hb he => ?_) hpage (fun p hp => ?_)
      (fun p hp => ?_) hbl
    · exact hva ((Kind.big.inj he) ▸ mem_map_of_mem hb)
    · rw [hku, update_of_ne fun he => hp (by rw [he]; exact hfirst)]
    · exact hcnt p fun he => hp (by rw [he]; exact hfirst)
  refine ⟨fun p k hp => ?_, ?_, fun p k hp => ?_, fun p i r hp => ?_, fun p a hp => ?_,
    fun r i => ?_, ?_, fun b hbl => ?_, fun type' => ?_, hcall⟩
  · rw [hout]
    rw [hpage] at hp
    split_ifs at hp ⊢ with hr
    · rfl
    · exact h.page_out p k hp
  · rw [hpage, if_neg fun hr => fresh_ne_zero hf (Nat.le_zero.1 hr.1)]
    exact h.page_zero
  · rw [hpage] at hp
    split_ifs at hp with hr
    · exact fresh_top hf hr.2
    · exact h.page_top p k hp
  · rw [hpage] at hp
    split_ifs at hp with hr
    · cases hp
    · rw [hku, update_of_ne fun he => hr (by rw [he]; exact hfirst)]
      exact h.elems p i r hp
  · rw [hpage] at hp
    rw [hlive, map_cons]
    split_ifs at hp with hr
    · obtain rfl := Kind.big.inj (Option.some.inj hp)
      rw [hpage, if_pos hfirst]
      exact ⟨rfl, mem_cons_self⟩
    · obtain ⟨h1, h2⟩ := h.big p a hp
      rw [hpage, if_neg fun hr' => by rw [h.fresh_page hf hr'] at h1; cases h1]
      exact ⟨h1, mem_cons_of_mem va h2⟩
  · obtain ⟨l, ht, hnd, hl⟩ := h.lists r i
    have hne : ∀ e, s.Elem C i r e → e ≠ va := fun e he heq =>
      h.fresh_elem hf he (by rw [heq]; exact hfirst)
    have helem : ∀ e, s'.Elem C i r e ↔ s.Elem C i r e := fun e => by
      unfold State.Elem
      rw [hpage]
      by_cases hr : va / C.nbpg ≤ e / C.nbpg ∧ e / C.nbpg < va / C.nbpg + n
      · rw [if_pos hr, h.fresh_page hf hr]
        simp
      · rw [if_neg hr]
    refine ⟨l, ht.congr ?_ fun e he => ?_, hnd, fun e => ?_⟩
    · simp [State.cells, hb]
    · exact hmem e (hne e ((hl e).1 he).1)
    · rw [hl, helem, hlive, map_cons, mem_cons, not_or]
      exact ⟨fun ⟨h1, h2⟩ => ⟨h1, hne e h1, h2⟩, fun ⟨h1, _, h2⟩ => ⟨h1, h2⟩⟩
  · rw [hlive, map_cons]
    exact nodup_cons.2 ⟨hva, h.nodup⟩
  · rw [hlive] at hbl
    obtain rfl | hbl := mem_cons.1 hbl
    · refine ⟨hsize, .inr ⟨hf.1, ?_, ?_, n, hn, rfl, hcnt', fun p => ?_⟩⟩
      · rw [hku, update_self]
        exact hidx
      · rw [hku, update_self]
        exact hidx'
      · rw [hpage]
        split_ifs with hr
        · simp [hr]
        · exact ⟨fun hp => absurd (h.big p va hp).2 hva, fun hr' => absurd hr' hr⟩
    · exact ⟨(h.live b hbl).1, (hblock b hbl).1⟩
  · obtain ⟨h1, h2⟩ := hstats type'
    have h3 := (h.resinuse type').2
    refine ⟨?_, by omega⟩
    have hnotres : s'.onReserved C va = false := by
      unfold State.onReserved
      rw [hku, update_self, decide_eq_false_iff_not]
      omega
    rw [h1, (h.resinuse type').1, reservedBytes_cons hlive fun b hb => (hblock b hb).2]
    simp [hnotres]

/-- The elements that pages are cut into. -/
theorem mem_segment_run (hva : va % C.nbpg = 0) (hidx : idx ≤ C.pgshift) :
    e ∈ segment va (2 ^ idx) (n * C.nbpg / 2 ^ idx) ↔
      (va / C.nbpg ≤ e / C.nbpg ∧ e / C.nbpg < va / C.nbpg + n) ∧ e % 2 ^ idx = 0 := by
  obtain ⟨r, hr⟩ := C.pow_dvd_nbpg hidx
  have hw : 0 < 2 ^ idx := Nat.two_pow_pos idx
  have hcount : n * C.nbpg / 2 ^ idx = n * r := by
    rw [hr, show n * (2 ^ idx * r) = n * r * 2 ^ idx by ring, Nat.mul_div_cancel _ hw]
  have hva' : va % 2 ^ idx = 0 :=
    Nat.mod_eq_zero_of_dvd ((C.pow_dvd_nbpg hidx).trans (Nat.dvd_of_mod_eq_zero hva))
  rw [mem_segment, hcount, mem_run hva]
  constructor
  · rintro ⟨j, hj, rfl⟩
    refine ⟨⟨by omega, ?_⟩, ?_⟩
    · have h1 : j * 2 ^ idx < n * r * 2 ^ idx := Nat.mul_lt_mul_of_pos_right hj hw
      rw [hr, show n * (2 ^ idx * r) = n * r * 2 ^ idx by ring]
      omega
    · rw [Nat.add_mul_mod_self_right, hva']
  · rintro ⟨⟨h1, h2⟩, h3⟩
    obtain ⟨v, rfl⟩ := Nat.dvd_of_mod_eq_zero hva'
    obtain ⟨i, rfl⟩ := Nat.dvd_of_mod_eq_zero h3
    have hle : v ≤ i := Nat.le_of_mul_le_mul_left h1 hw
    refine ⟨i - v, ?_, ?_⟩
    · rw [hr, show 2 ^ idx * v + n * (2 ^ idx * r) = 2 ^ idx * (v + n * r) by ring] at h2
      have := Nat.lt_of_mul_lt_mul_left h2
      omega
    · rw [Nat.mul_comm (i - v), Nat.mul_sub]
      omega

/-- Pages are cut into elements, which are put before their list. -/
theorem Inv.freshElems (h : Inv C s) (hf : s.Fresh C va n) (hn : 0 < n) (hidx : idx ≤ C.pgshift)
    (hmem : s'.mem = Function.update (thread s.mem va (2 ^ idx) (n * C.nbpg / 2 ^ idx - 1))
      (va + (n * C.nbpg / 2 ^ idx - 1) * 2 ^ idx) (s.bucket res idx))
    (hb : s'.bucket = fun r i => if r = res ∧ i = idx then va else s.bucket r i)
    (hku : ∀ p, s'.kuIndx p = if va / C.nbpg ≤ p ∧ p < va / C.nbpg + n then
      (if res then idx + reservedPool else idx) else s.kuIndx p)
    (hcnt : ∀ p, ¬(va / C.nbpg ≤ p ∧ p < va / C.nbpg + n) → s'.kuPagecnt p = s.kuPagecnt p)
    (hout : ∀ p, s'.out p = if va / C.nbpg ≤ p ∧ p < va / C.nbpg + n then true else s.out p)
    (hpage : ∀ p, s'.page p =
      if va / C.nbpg ≤ p ∧ p < va / C.nbpg + n then some (.elems idx res) else s.page p)
    (hlive : s'.live = s.live) (hstats : ∀ type, (s'.stats type).resinuse = (s.stats type).resinuse ∧
      (s.stats type).reslimit ≤ (s'.stats type).reslimit)
    (hcall : ∀ t, CallOk C (s'.call t)) : Inv C s' := by
  have hw : 0 < 2 ^ idx := Nat.two_pow_pos idx
  have hblock : ∀ b ∈ s.live, s'.Holds C b ∧
      s'.kuIndx (b.addr / C.nbpg) = s.kuIndx (b.addr / C.nbpg) := fun b hbl =>
    h.fresh_block hf (k := .elems idx res) (fun _ _ he => by cases he) hpage
      (fun p hp => by rw [hku, if_neg hp]) hcnt hbl
  have hcount : n * C.nbpg / 2 ^ idx - 1 + 1 = n * C.nbpg / 2 ^ idx := by
    have h1 : 0 < n * C.nbpg / 2 ^ idx := by
      refine Nat.div_pos ((C.two_pow_le hidx).trans ?_) hw
      exact Nat.le_mul_of_pos_left _ hn
    omega
  -- an old element is not among the new ones, and keeps its word
  have hold : ∀ {r i e}, s.Elem C i r e → e ∉ segment va (2 ^ idx) (n * C.nbpg / 2 ^ idx) :=
    fun he hseg => h.fresh_elem hf he ((mem_segment_run hf.1 hidx).1 hseg).1
  have hword : ∀ e, e ∉ segment va (2 ^ idx) (n * C.nbpg / 2 ^ idx) → s'.mem e = s.mem e :=
    fun e he => by
      rw [← hcount, segment_succ', mem_append, not_or, mem_singleton] at he
      rw [hmem, update_of_ne he.2, thread_of_notMem he.1]
  have helem : ∀ r i e, s'.Elem C i r e ↔ s.Elem C i r e ∨
      (r = res ∧ i = idx ∧ e ∈ segment va (2 ^ idx) (n * C.nbpg / 2 ^ idx)) := fun r i e => by
    rw [mem_segment_run hf.1 hidx]
    unfold State.Elem
    rw [hpage]
    by_cases hr : va / C.nbpg ≤ e / C.nbpg ∧ e / C.nbpg < va / C.nbpg + n
    · rw [if_pos hr, h.fresh_page hf hr]
      simp only [Option.some.injEq, Kind.elems.injEq, reduceCtorEq, false_and, false_or, hr,
        true_and]
      constructor
      · rintro ⟨⟨rfl, rfl⟩, he⟩
        exact ⟨rfl, rfl, he⟩
      · rintro ⟨rfl, rfl, he⟩
        exact ⟨⟨rfl, rfl⟩, he⟩
    · simp [hr]
  have hsegl : ∀ e ∈ segment va (2 ^ idx) (n * C.nbpg / 2 ^ idx), e ∉ s.live.map Block.addr :=
    fun e he hmem => by
      obtain ⟨b, hbl, rfl⟩ := mem_map.1 hmem
      exact Inv.holds_page (h.live b hbl).2
        (h.fresh_page hf ((mem_segment_run hf.1 hidx).1 he).1)
  refine ⟨fun p k hp => ?_, ?_, fun p k hp => ?_, fun p i r hp => ?_, fun p a hp => ?_,
    fun r i => ?_, hlive ▸ h.nodup, fun b hbl => ?_, fun type => ?_, hcall⟩
  · rw [hout]
    rw [hpage] at hp
    split_ifs at hp ⊢ with hr
    · rfl
    · exact h.page_out p k hp
  · rw [hpage, if_neg fun hr => fresh_ne_zero hf (Nat.le_zero.1 hr.1)]
    exact h.page_zero
  · rw [hpage] at hp
    split_ifs at hp with hr
    · exact fresh_top hf hr.2
    · exact h.page_top p k hp
  · rw [hku]
    rw [hpage] at hp
    split_ifs at hp with hr
    · obtain ⟨rfl, rfl⟩ := Kind.elems.inj (Option.some.inj hp)
      rw [if_pos hr]
      exact ⟨hidx, rfl⟩
    · rw [if_neg hr]
      exact h.elems p i r hp
  · rw [hpage] at hp
    rw [hlive]
    split_ifs at hp with hr
    · cases hp
    · obtain ⟨h1, h2⟩ := h.big p a hp
      rw [hpage, if_neg fun hr' => by rw [h.fresh_page hf hr'] at h1; cases h1]
      exact ⟨h1, h2⟩
  · obtain ⟨l, ht, hnd, hl⟩ := h.lists r i
    have hsame : ∀ e ∈ l, s'.mem e = s.mem e := fun e he => hword e (hold ((hl e).1 he).1)
    by_cases hri : r = res ∧ i = idx
    · obtain ⟨rfl, rfl⟩ := hri
      refine ⟨segment va (2 ^ i) (n * C.nbpg / 2 ^ i) ++ l, ?_, ?_, fun e => ?_⟩
      · rw [← hcount]
        refine Threaded.segment (ht.rehead ?_ hsame) ?_ hf.2.1 fun j hj => ?_
        · simp [State.cells, hmem]
        · simp [State.cells, hb]
        · have hne : va + j * 2 ^ i ≠ va + (n * C.nbpg / 2 ^ i - 1) * 2 ^ i := fun he =>
            hj.ne (Nat.eq_of_mul_eq_mul_right hw (Nat.add_left_cancel he))
          simp only [State.cells, hmem]
          rw [update_of_ne hne, thread_apply hw hj]
      · exact nodup_append.2 ⟨segment_nodup hw, hnd, fun e he e' he' heq =>
          hold ((hl e').1 he').1 (heq ▸ he)⟩
      · rw [mem_append, helem, hl, hlive]
        constructor
        · rintro (he | ⟨h1, h2⟩)
          · exact ⟨.inr ⟨rfl, rfl, he⟩, hsegl e he⟩
          · exact ⟨.inl h1, h2⟩
        · rintro ⟨h1 | ⟨-, -, he⟩, h2⟩
          · exact .inr ⟨h1, h2⟩
          · exact .inl he
    · refine ⟨l, ht.congr ?_ hsame, hnd, fun e => ?_⟩
      · simp [State.cells, hb, hri]
      · rw [hl, helem, hlive]
        constructor
        · rintro ⟨h1, h2⟩
          exact ⟨.inl h1, h2⟩
        · rintro ⟨h1 | ⟨h1, h1', -⟩, h2⟩
          · exact ⟨h1, h2⟩
          · exact absurd ⟨h1, h1'⟩ hri
  · rw [hlive] at hbl
    exact ⟨(h.live b hbl).1, (hblock b hbl).1⟩
  · obtain ⟨h1, h2⟩ := hstats type
    have h3 := (h.resinuse type).2
    refine ⟨?_, by omega⟩
    rw [h1, (h.resinuse type).1, reservedBytes_congr hlive fun b hb => (hblock b hb).2]

/-- An element goes back to its list. -/
theorem Inv.putBack (h : Inv C s) (hbl : b ∈ s.live) (he : s.Elem C idx res b.addr)
    (hlen : b.len = 2 ^ idx) (hmem : s'.mem = Function.update s.mem b.addr (s.bucket res idx))
    (hb : s'.bucket = fun r i => if r = res ∧ i = idx then b.addr else s.bucket r i)
    (hku : s'.kuIndx = s.kuIndx) (hcnt : s'.kuPagecnt = s.kuPagecnt) (hout : s'.out = s.out)
    (hpage : s'.page = s.page) (hlive : s'.live = s.live.filter fun b' => b'.addr ≠ b.addr)
    (hstats : ∀ type, (s'.stats type).resinuse =
        (s.stats type).resinuse - (if type = b.type ∧ res = true then 2 ^ idx else 0) ∧
      (s.stats type).reslimit ≤ (s'.stats type).reslimit)
    (hcall : ∀ t, CallOk C (s'.call t)) : Inv C s' := by
  have hmem' : ∀ e, e ∈ s'.live.map Block.addr ↔ e ∈ s.live.map Block.addr ∧ e ≠ b.addr :=
    fun e => by rw [hlive, mem_forget h.nodup hbl]
  have hne0 : b.addr ≠ 0 := fun hz => by
    have h1 := he.1
    rw [hz, Nat.zero_div, h.page_zero] at h1
    cases h1
  have hres : s.onReserved C b.addr = res := by
    obtain ⟨h1, h2⟩ := h.elems _ _ _ he.1
    have h3 := C.pgshift_lt
    have h4 := C.minbucket_lt
    unfold State.onReserved
    cases res with
    | false =>
      rw [h2, decide_eq_false_iff_not, reservedPool]
      simp only [Bool.false_eq_true, if_false]
      omega
    | true => simp [h2]
  refine ⟨fun p k hp => hout ▸ h.page_out p k (hpage ▸ hp), hpage ▸ h.page_zero,
    fun p k hp => h.page_top p k (hpage ▸ hp),
    fun p idx res hp => hku ▸ h.elems p idx res (hpage ▸ hp), fun p a hp => ?_, fun r i => ?_, ?_,
    fun b' hb' => ?_, fun type => ?_, hcall⟩
  · rw [hpage] at hp ⊢
    obtain ⟨h1, h2⟩ := h.big p a hp
    refine ⟨h1, (hmem' a).2 ⟨h2, ?_⟩⟩
    rintro rfl
    rw [he.1] at h1
    cases h1
  · obtain ⟨l, ht, hnd, hl⟩ := h.lists r i
    have hnot : b.addr ∉ l := fun hin => ((hl b.addr).1 hin).2 (mem_map_of_mem hbl)
    have hsame : ∀ e ∈ l, s'.mem e = s.mem e := fun e hel => by
      rw [hmem, update_of_ne fun heq : e = b.addr => hnot (heq ▸ hel)]
    by_cases hri : r = res ∧ i = idx
    · obtain ⟨rfl, rfl⟩ := hri
      refine ⟨b.addr :: l, ⟨⟨?_, hne0⟩, ht.rehead ?_ hsame⟩, nodup_cons.2 ⟨hnot, hnd⟩,
        fun e => ?_⟩
      · simp [State.cells, hb]
      · simp [State.cells, hmem]
      · rw [mem_cons, hl, hmem', State.Elem, State.Elem, hpage]
        constructor
        · rintro (rfl | ⟨h1, h2⟩)
          · exact ⟨he, fun h2 => h2.2 rfl⟩
          · exact ⟨h1, fun h3 => h2 h3.1⟩
        · rintro ⟨h1, h2⟩
          by_cases heq : e = b.addr
          · exact .inl heq
          · exact .inr ⟨h1, fun h3 => h2 ⟨h3, heq⟩⟩
    · refine ⟨l, ht.congr ?_ hsame, hnd, fun e => ?_⟩
      · simp [State.cells, hb, hri]
      · rw [hl, hmem', State.Elem, State.Elem, hpage]
        refine and_congr_right fun h1 => not_congr ⟨fun h2 => ⟨h2, ?_⟩, And.left⟩
        rintro rfl
        rw [he.1] at h1
        obtain ⟨e1, e2⟩ := Kind.elems.inj (Option.some.inj h1.1)
        exact hri ⟨e2.symm, e1.symm⟩
  · rw [hlive]
    exact h.nodup.sublist (filter_sublist.map _)
  · rw [hlive] at hb'
    obtain ⟨h1, h2⟩ := h.live b' (mem_of_mem_filter hb')
    exact ⟨h1, h2.congr (fun p k hp => hpage ▸ hp) (fun p hp => hpage ▸ hp) (hku ▸ rfl)
      (hcnt ▸ rfl)⟩
  · obtain ⟨h1, h2⟩ := hstats type
    have h3 := h.resinuse type
    refine ⟨?_, ?_⟩
    · rw [h1, h3.1, reservedBytes_forget h.nodup hbl hlive hku, hres, hlen]
      simp
    · have h4 : (0 : ℤ) ≤ if type = b.type ∧ res = true then 2 ^ idx else 0 := by
        split_ifs <;> positivity
      omega

/-- The pages of a block go back to `kalloc`. -/
theorem Inv.dropBig (h : Inv C s) (hbl : b ∈ s.live)
    (hku : C.pgshift < s.kuIndx (b.addr / C.nbpg) % reservedPool)
    (hmem : s'.mem = s.mem) (hb : s'.bucket = s.bucket) (hku' : s'.kuIndx = s.kuIndx)
    (hcnt : s'.kuPagecnt = s.kuPagecnt) (hout : ∀ p, s'.out p = if b.addr / C.nbpg ≤ p ∧
      p < b.addr / C.nbpg + s.kuPagecnt (b.addr / C.nbpg) then false else s.out p)
    (hpage : ∀ p, s'.page p = if s.page p = some (.big b.addr) then none else s.page p)
    (hlive : s'.live = s.live.filter fun b' => b'.addr ≠ b.addr) (hstats : s'.stats = s.stats)
    (hcall : ∀ t, CallOk C (s'.call t)) : Inv C s' := by
  obtain ⟨idx, res, he, -⟩ | ⟨ha, hku1, hku2, n, hn, hlen, hc, hpages⟩ := (h.live b hbl).2
  · -- an element is on a page of a small bucket
    obtain ⟨h1, h2⟩ := h.elems _ _ _ he.1
    rw [h2] at hku
    unfold reservedPool at hku
    cases res with
    | false =>
      simp only [Bool.false_eq_true, if_false] at hku
      omega
    | true =>
      simp only [if_true] at hku
      omega
  have hpage' : ∀ p k, s'.page p = some k ↔ s.page p = some k ∧ k ≠ .big b.addr := fun p k => by
    rw [hpage]
    split_ifs with hp
    · rw [hp]
      simp only [Option.some.injEq, false_iff, not_and, not_not]
      exact fun he => he.symm
    · refine ⟨fun hk => ⟨hk, ?_⟩, And.left⟩
      rintro rfl
      exact hp hk
  have helem : ∀ r i e, s'.Elem C i r e ↔ s.Elem C i r e := fun r i e => by
    unfold State.Elem
    rw [hpage']
    simp
  have hnotres : s.onReserved C b.addr = false := by
    unfold State.onReserved
    rw [decide_eq_false_iff_not]
    omega
  refine ⟨fun p k hp => ?_, ?_, fun p k hp => h.page_top p k ((hpage' p k).1 hp).1,
    fun p i r hp => hku' ▸ h.elems p i r ((hpage' p _).1 hp).1, fun p a hp => ?_, fun r i => ?_, ?_,
    fun b' hb' => ?_, fun type => ?_, hcall⟩
  · obtain ⟨hp, hne⟩ := (hpage' p k).1 hp
    rw [hout, if_neg fun hr => ?_]
    · exact h.page_out p k hp
    · have := (hpages p).2 ⟨hr.1, by omega⟩
      rw [hp] at this
      exact hne (Option.some.inj this)
  · rw [hpage, h.page_zero]
    simp
  · obtain ⟨hp, hne⟩ := (hpage' p _).1 hp
    obtain ⟨h1, h2⟩ := h.big p a hp
    rw [hpage', hlive, mem_forget h.nodup hbl]
    exact ⟨⟨h1, hne⟩, h2, fun he => hne (by rw [he])⟩
  · obtain ⟨l, ht, hnd, hl⟩ := h.lists r i
    refine ⟨l, ht.congr ?_ fun e _ => ?_, hnd, fun e => ?_⟩
    · simp [State.cells, hb]
    · simp [State.cells, hmem]
    · rw [hl, helem, hlive, mem_forget h.nodup hbl]
      refine and_congr_right fun h1 => not_congr ⟨fun h2 => ⟨h2, ?_⟩, And.left⟩
      rintro rfl
      have h3 := h1.1
      rw [(hpages _).2 ⟨le_rfl, by omega⟩] at h3
      cases h3
  · rw [hlive]
    exact h.nodup.sublist (filter_sublist.map _)
  · rw [hlive] at hb'
    obtain ⟨hb', hne⟩ := mem_filter.1 hb'
    have hne' : b'.addr ≠ b.addr := by simpa using hne
    obtain ⟨h1, ⟨i, r, he, hl⟩ | ⟨h2, h3, h4, m, hm, hl, hc', hp⟩⟩ := h.live b' hb'
    · exact ⟨h1, .inl ⟨i, r, (helem r i _).2 he, hl⟩⟩
    · refine ⟨h1, .inr ⟨h2, hku' ▸ h3, hku' ▸ h4, m, hm, hl, hcnt ▸ hc', fun p => ?_⟩⟩
      rw [hpage', hp]
      simp [hne']
  · have h3 := h.resinuse type
    rw [hstats, reservedBytes_forget h.nodup hbl hlive hku', hnotres]
    simpa using h3

/-- Whole pages are taken off their list and go back to `kalloc`. -/
theorem Inv.cut (h : Inv C s) {l l' F : List ℕ} (hidx : idx ≤ C.pgshift)
    (ht : Threaded (s.cells false idx) none l) (ht' : Threaded (s'.cells false idx) none l')
    (hperm : l.Perm (l' ++ F.flatMap fun a => segment a (2 ^ idx) (C.nbpg / 2 ^ idx)))
    (hF : ∀ a ∈ F, a % C.nbpg = 0) (hmem : ∀ e, e ∉ l → s'.mem e = s.mem e)
    (hb : ∀ r i, ¬(r = false ∧ i = idx) → s'.bucket r i = s.bucket r i)
    (hku : s'.kuIndx = s.kuIndx) (hcnt : s'.kuPagecnt = s.kuPagecnt)
    (hout : ∀ p, s'.out p = if p * C.nbpg ∈ F then false else s.out p)
    (hpage : ∀ p, s'.page p = if p * C.nbpg ∈ F then none else s.page p)
    (hlive : s'.live = s.live) (hstats : s'.stats = s.stats) (hcall : s'.call = s.call) : Inv C s' := by
  have hN := C.nbpg_pos
  obtain ⟨l0, ht0, hnd, hl⟩ := h.lists false idx
  obtain rfl := ht0.unique ht
  have hnd' := hperm.nodup_iff.1 hnd
  -- an element is in the segment of its page
  have hseg : ∀ a ∈ F, ∀ e, e ∈ segment a (2 ^ idx) (C.nbpg / 2 ^ idx) ↔
      e / C.nbpg = a / C.nbpg ∧ e % 2 ^ idx = 0 := fun a ha e => by
    have := mem_segment_run (e := e) (n := 1) (hF a ha) hidx
    rw [Nat.one_mul] at this
    rw [this]
    refine and_congr_left fun _ => ?_
    omega
  have hfirst : ∀ a ∈ F, a ∈ segment a (2 ^ idx) (C.nbpg / 2 ^ idx) := fun a ha =>
    (hseg a ha a).2 ⟨rfl, Nat.mod_eq_zero_of_dvd
      ((C.pow_dvd_nbpg hidx).trans (Nat.dvd_of_mod_eq_zero (hF a ha)))⟩
  have hflat : ∀ a ∈ F, ∀ e ∈ segment a (2 ^ idx) (C.nbpg / 2 ^ idx), e ∈ l0 := fun a ha e he =>
    hperm.mem_iff.2 (mem_append_right _ (mem_flatMap.2 ⟨a, ha, he⟩))
  have hkind : ∀ p, p * C.nbpg ∈ F → s.page p = some (.elems idx false) := fun p hp => by
    have h1 := ((hl _).1 (hflat _ hp _ (hfirst _ hp))).1.1
    rwa [Nat.mul_div_cancel _ hN] at h1
  have hpage' : ∀ p k, k ≠ .elems idx false → (s'.page p = some k ↔ s.page p = some k) :=
    fun p k hk => by
      rw [hpage]
      split_ifs with hp
      · rw [hkind p hp]
        simp only [Option.some.injEq, false_iff]
        exact fun he => hk he.symm
      · rfl
  have hsub : ∀ p k, s'.page p = some k → s.page p = some k := fun p k hp => by
    rw [hpage] at hp
    split_ifs at hp
    exact hp
  have hin : ∀ e, e ∈ l' ↔ e ∈ l0 ∧ e / C.nbpg * C.nbpg ∉ F := fun e => by
    constructor
    · intro he
      refine ⟨hperm.mem_iff.2 (mem_append_left _ he), fun hF' => ?_⟩
      have h1 := ((hl e).1 (hperm.mem_iff.2 (mem_append_left _ he))).1.2
      have h2 : e ∈ segment (e / C.nbpg * C.nbpg) (2 ^ idx) (C.nbpg / 2 ^ idx) :=
        (hseg _ hF' e).2 ⟨by rw [Nat.mul_div_cancel _ hN], h1⟩
      exact (nodup_append.1 hnd').2.2 e he e (mem_flatMap.2 ⟨_, hF', h2⟩) rfl
    · rintro ⟨he, hno⟩
      obtain he | he := mem_append.1 (hperm.mem_iff.1 he)
      · exact he
      · obtain ⟨a, ha, he⟩ := mem_flatMap.1 he
        rw [((hseg a ha e).1 he).1, mul_page (hF a ha)] at hno
        exact absurd ha hno
  have hliveok : ∀ b ∈ s.live, b.addr / C.nbpg * C.nbpg ∈ F →
      s.page (b.addr / C.nbpg) = some (.elems idx false) ∧ b.addr % 2 ^ idx ≠ 0 :=
    fun b hbl hF' => by
      refine ⟨hkind _ hF', fun hz => ?_⟩
      have h2 := hflat _ hF' b.addr ((hseg _ hF' _).2 ⟨by rw [Nat.mul_div_cancel _ hN], hz⟩)
      exact ((hl _).1 h2).2 (mem_map_of_mem hbl)
  refine ⟨fun p k hp => ?_, ?_, fun p k hp => h.page_top p k (hsub p k hp),
    fun p i r hp => hku ▸ h.elems p i r (hsub p _ hp), fun p a hp => ?_, fun r i => ?_,
    hlive ▸ h.nodup, fun b hbl => ?_, fun type => ?_, fun t => hcall ▸ h.calls t⟩
  · rw [hout]
    rw [hpage] at hp
    split_ifs at hp ⊢
    exact h.page_out p k hp
  · rw [hpage, h.page_zero]
    simp
  · obtain ⟨h1, h2⟩ := h.big p a (hsub p _ hp)
    rw [hpage' _ _ (by simp), hlive]
    exact ⟨h1, h2⟩
  · by_cases hri : r = false ∧ i = idx
    · obtain ⟨rfl, rfl⟩ := hri
      refine ⟨l', ht', (nodup_append.1 hnd').1, fun e => ?_⟩
      rw [hin, hl, hlive, State.Elem, State.Elem, hpage]
      split_ifs with hF'
      · simp [hF']
      · simp [hF']
    · obtain ⟨m, htm, hndm, hm⟩ := h.lists r i
      have hne : Kind.elems i r ≠ .elems idx false := fun he => by
        obtain ⟨e1, e2⟩ := Kind.elems.inj he
        exact hri ⟨e2, e1⟩
      refine ⟨m, htm.congr (hb r i hri) fun e he => hmem e fun hel => ?_, hndm, fun e => ?_⟩
      · have h1 := ((hl e).1 hel).1.1
        rw [((hm e).1 he).1.1] at h1
        exact hne (Option.some.inj h1)
      · rw [hm, hlive, State.Elem, State.Elem, hpage' _ _ hne]
  · rw [hlive] at hbl
    obtain ⟨h1, ⟨i, r, he, hlen⟩ | ⟨h2, h3, h4, m, hm, hlen, hc, hp⟩⟩ := h.live b hbl
    · refine ⟨h1, .inl ⟨i, r, ⟨?_, he.2⟩, hlen⟩⟩
      rw [hpage, if_neg fun hF' => ?_]
      · exact he.1
      · obtain ⟨h5, h6⟩ := hliveok b hbl hF'
        rw [he.1] at h5
        obtain ⟨rfl, -⟩ := Kind.elems.inj (Option.some.inj h5)
        exact h6 he.2
    · refine ⟨h1, .inr ⟨h2, hku ▸ h3, hku ▸ h4, m, hm, hlen, hcnt ▸ hc, fun p => ?_⟩⟩
      rw [hpage' _ _ (by simp), hp]
  · rw [hstats, reservedBytes_congr hlive fun b _ => by rw [hku]]
    exact h.resinuse type

/-- A caller writes to its block. -/
theorem Inv.write (h : Inv C s) (hbl : b ∈ s.live) (hx : b.addr ≤ x ∧ x < b.addr + b.len) {v : ℕ} :
    Inv C { s with mem := Function.update s.mem x v } := by
  refine ⟨h.page_out, h.page_zero, h.page_top, h.elems, h.big, fun r i => ?_, h.nodup, h.live,
    h.resinuse, h.calls⟩
  obtain ⟨l, ht, hnd, hl⟩ := h.lists r i
  refine ⟨l, ht.congr rfl fun e he => ?_, hnd, hl⟩
  refine update_of_ne (fun heq : e = x => ?_) _ _
  obtain ⟨h1, h2⟩ := (hl e).1 he
  have hne : e ≠ b.addr := fun he => h2 (he ▸ mem_map_of_mem hbl)
  have hw : 0 < 2 ^ i := Nat.two_pow_pos i
  have := h.elem_disjoint h1 (h.live b hbl).2 hne
  omega

end Mallo

end Hpux
