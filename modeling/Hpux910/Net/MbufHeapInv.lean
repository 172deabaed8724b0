import Hpux910.Net.MbufHeap
import Mathlib

/-!
# Clusters and the mbufs that refer to them

`Heap.Inv s L X` says that the mbufs in `L` are in use and those in `X` are about to be given back: the
count in the head of a cluster is the number of mbufs in `L` that refer to it, the head is one of them
or marked free, and the storage held is that of the clusters in use.

* `owner`, `refs` : the cluster that an mbuf refers to, and the mbufs that refer to a cluster.
* `HeadOk`, `Inv` : the invariant of a head, and of the memory.
* `mtocl_eq` : `MTOCL` finds the start of the storage wherever the data begin.
* `Inv.set`, `Inv.mget`, `Inv.attach`, `Inv.share` : what the elementary steps do.
* `Inv.mFree` : `m_free` gives back what it should, and nothing else.
-/

namespace Hpux.Net.Heap

open List Option

variable {s s' : Heap} {L X : List ℕ} {a h : ℕ} {c : Cell}

/-- The head of the cluster that an mbuf refers to; a cluster of DUX is never shared. -/
def owner (s : Heap) (a : ℕ) : Option ℕ :=
  (s.mem a).bind fun c => if c.hascl then some (if c.cltype = .dux then a else c.head) else none

/-- How many of the mbufs refer to the cluster. -/
def refs (s : Heap) (L : List ℕ) (h : ℕ) : ℕ := L.countP fun a => s.owner a = some h

/-- An mbuf in use: its data lie in the storage. -/
structure LiveOk (c : Cell) : Prop where
  used : c.free = false
  start : c.pos ≤ c.lim
  fits : c.pos + c.len ≤ c.lim
  small : c.hascl = false → c.lim = MLEN

/-- The first mbuf of a cluster in use. -/
structure HeadOk (s : Heap) (L : List ℕ) (h : ℕ) (c : Cell) : Prop where
  count : c.cltype ≠ .dux → c.head = h ∧ c.refcnt = s.refs L h
  own : h ∈ L → c.hascl = true
  zombie : h ∉ L → c.free = true ∧ c.cltype ≠ .dux
  same : ∀ a ∈ L, s.owner a = some h → ∃ ca, s.mem a = some ca ∧ ca.cltype = c.cltype
  normal : c.cltype = .normal → (∃ k, k ≤ 32 ∧ c.clsize = 2 ^ k) ∧ c.base % c.clsize = 0 ∧
    c.base ≤ c.pos ∧ c.pos < c.base + c.clsize ∧ c.base + c.clsize ≤ 4294967296 ∧
    (h ∈ L → c.lim = c.base + c.clsize)
  func : c.cltype = .nfs ∨ c.cltype = .ops ∨ c.cltype = .dux → c.clfun ≠ none

structure Inv (s : Heap) (L X : List ℕ) : Prop where
  nodup : L.Nodup
  live : ∀ a ∈ L, ∃ c, s.mem a = some c ∧ LiveOk c
  alloc : ∀ a, s.mem a ≠ none → a ∈ L ∨ a ∈ s.clusters ∨ a ∈ X
  back : X.Nodup ∧ ∀ a ∈ X, s.mem a ≠ none ∧ a ∉ L ∧ a ∉ s.clusters
  heads : s.clusters.Nodup
  clusters : ∀ h, h ∈ s.clusters ↔ ∃ a ∈ L, s.owner a = some h
  head : ∀ h ∈ s.clusters, ∃ c, s.mem h = some c ∧ s.HeadOk L h c
  held : s.held.Perm (s.clusters.filterMap fun h => (s.mem h).bind token)

/-! ### The start of the storage -/

theorem testBit_mask {k : ℕ} (hk : k ≤ 32) (i : ℕ) :
    (4294967296 - 2 ^ k).testBit i = (decide (i < 32) && decide (k ≤ i)) := by
  have h1 : 2 ^ k - 1 < 2 ^ 32 := by
    have h2 : 2 ^ k ≤ 2 ^ 32 := Nat.pow_le_pow_right (by decide) hk
    have h3 : 0 < 2 ^ k := Nat.two_pow_pos k
    omega
  have h2 : 4294967296 - 2 ^ k = 2 ^ 32 - (2 ^ k - 1 + 1) := by
    have h3 : 0 < 2 ^ k := Nat.two_pow_pos k
    omega
  rw [h2, Nat.testBit_two_pow_sub_succ h1, Nat.testBit_two_pow_sub_one]
  by_cases h3 : i < k <;> simp [h3, Nat.not_le.2, Nat.not_lt.1]

/-- `MTOCL` finds the start of the storage from any place in it. -/
theorem mtocl_eq {k : ℕ} (hk : k ≤ 32) (hs : c.clsize = 2 ^ k) (hb : c.base % c.clsize = 0)
    (h1 : c.base ≤ c.pos) (h2 : c.pos < c.base + c.clsize)
    (h3 : c.base + c.clsize ≤ 4294967296) : mtocl c = c.base := by
  have hpos : c.pos < 2 ^ 32 := by
    omega
  have hbase : c.base = 2 ^ k * (c.pos / 2 ^ k) := by
    obtain ⟨q, hq⟩ := Nat.dvd_of_mod_eq_zero hb
    rw [hs] at hq h2
    have h5 : c.pos / 2 ^ k = q := by
      refine Nat.div_eq_of_lt_le ?_ ?_
      · rw [mul_comm]
        omega
      · rw [Nat.add_mul, one_mul, mul_comm]
        omega
    rw [h5, hq]
  unfold mtocl
  rw [hs, hbase]
  refine Nat.eq_of_testBit_eq fun i => ?_
  rw [Nat.testBit_and, testBit_mask hk, Nat.testBit_two_pow_mul, Nat.testBit_div_two_pow]
  by_cases h4 : k ≤ i
  · have h5 : i - k + k = i := by omega
    by_cases h6 : i < 32
    · simp [h4, h5, h6]
    · have h7 : c.pos.testBit i = false :=
        Nat.testBit_lt_two_pow (hpos.trans_le (Nat.pow_le_pow_right (by decide) (by omega)))
      simp [h5, h7]
  · simp [h4]

/-! ### What an mbuf refers to -/

/-- What says which cluster an mbuf refers to. -/
def Cell.ref (c : Cell) : Option (CType × ℕ) := if c.hascl then some (c.cltype, c.head) else none

theorem mem_set (s : Heap) (a b : ℕ) (c : Cell) :
    (s.set a c).mem b = if b = a then some c else s.mem b := by
  unfold set
  by_cases h1 : b = a
  · subst h1
    simp
  · simp [h1]

theorem owner_of (hc : s.mem a = some c) :
    s.owner a = if c.hascl then some (if c.cltype = .dux then a else c.head) else none := by
  unfold owner
  rw [hc]
  rfl

theorem owner_eq (s : Heap) (a : ℕ) : s.owner a = ((s.mem a).bind Cell.ref).map fun r =>
    if r.1 = .dux then a else r.2 := by
  unfold owner
  cases s.mem a with
  | none => rfl
  | some c =>
    rw [bind_some, bind_some]
    unfold Cell.ref
    cases c.hascl <;> rfl

theorem owner_congr (h1 : (s'.mem a).bind Cell.ref = (s.mem a).bind Cell.ref) :
    s'.owner a = s.owner a := by
  rw [owner_eq, owner_eq, h1]

/-- The type of the cluster that an mbuf refers to is told by what says which cluster it is. -/
theorem type_congr (h1 : (s'.mem a).bind Cell.ref = (s.mem a).bind Cell.ref)
    (ho : s.owner a = some h) (hc : s.mem a = some c) :
    ∃ c', s'.mem a = some c' ∧ c'.cltype = c.cltype := by
  rw [hc, bind_some] at h1
  have h2 : c.hascl = true := by
    by_contra h2
    rw [owner_of hc, if_neg h2] at ho
    cases ho
  rw [show Cell.ref c = some (c.cltype, c.head) from if_pos h2] at h1
  obtain ⟨c', h3, h4⟩ := bind_eq_some_iff.1 h1
  unfold Cell.ref at h4
  split_ifs at h4
  exact ⟨c', h3, (Prod.mk.inj (Option.some.inj h4)).1⟩

theorem refs_cons : s.refs (a :: L) h = s.refs L h + if s.owner a = some h then 1 else 0 := by
  unfold refs
  rw [countP_cons]
  by_cases h1 : s.owner a = some h <;> simp [h1]

theorem refs_congr (h1 : ∀ b ∈ L, s'.owner b = s.owner b) : s'.refs L h = s.refs L h := by
  unfold refs
  refine countP_congr fun b hb => ?_
  rw [h1 b hb]

theorem refs_pos : 0 < s.refs L h ↔ ∃ b ∈ L, s.owner b = some h := by
  unfold refs
  rw [countP_pos_iff]
  simp

theorem refs_perm {L' : List ℕ} (hp : L.Perm L') : s.refs L h = s.refs L' h := hp.countP_eq _

theorem HeadOk.congr (hc : s.HeadOk L h c)
    (h1 : ∀ b ∈ L, (s'.mem b).bind Cell.ref = (s.mem b).bind Cell.ref) : s'.HeadOk L h c := by
  have h2 : ∀ b ∈ L, s'.owner b = s.owner b := fun b hb => owner_congr (h1 b hb)
  refine ⟨fun h3 => ?_, hc.own, hc.zombie, fun b hb h3 => ?_, hc.normal, hc.func⟩
  · rw [refs_congr h2]
    exact hc.count h3
  · rw [h2 b hb] at h3
    obtain ⟨cb, h4, h5⟩ := hc.same b hb h3
    obtain ⟨cb', h6, h7⟩ := type_congr (h1 b hb) h3 h4
    exact ⟨cb', h6, h7.trans h5⟩

theorem HeadOk.owner (hc : s.HeadOk L h c) (hm : s.mem h = some c) (hL : h ∈ L) :
    s.owner h = some h := by
  rw [owner_of hm, if_pos (hc.own hL)]
  split_ifs with h1
  · rfl
  · rw [(hc.count h1).1]

theorem Inv.not_head (hs : s.Inv L X) (hc : s.mem a = some c) (hL : a ∈ L) (h1 : c.hascl = false) :
    a ∉ s.clusters := fun h2 => by
  obtain ⟨c', h3, h4⟩ := hs.head a h2
  rw [hc] at h3
  obtain rfl := Option.some.inj h3
  rw [h4.own hL] at h1
  cases h1

/-! ### Elementary steps -/

/-- An mbuf in use changes what does not matter to its cluster. -/
theorem Inv.update {c' : Cell} (hs : s.Inv L X) (hL : a ∈ L) (hc : s.mem a = some c)
    (href : Cell.ref c' = Cell.ref c) (hlive : LiveOk c')
    (hhead : a ∈ s.clusters → (s.HeadOk L a c → s.HeadOk L a c') ∧ token c' = token c) :
    (s.set a c').Inv L X := by
  have hmema : (s.set a c').mem a = some c' := by
    rw [mem_set, if_pos rfl]
  have hmemo : ∀ b, b ≠ a → (s.set a c').mem b = s.mem b := fun b hb => by
    rw [mem_set, if_neg hb]
  have hrefs : ∀ b, ((s.set a c').mem b).bind Cell.ref = (s.mem b).bind Cell.ref := fun b => by
    by_cases h1 : b = a
    · rw [h1, hmema, hc]
      exact href
    · rw [hmemo b h1]
  refine ⟨hs.nodup, fun b hb => ?_, fun b hb => ?_, ⟨hs.back.1, fun b hb => ?_⟩, hs.heads,
    fun x => ?_, fun x hx => ?_, ?_⟩
  · by_cases h1 : b = a
    · rw [h1]
      exact ⟨c', hmema, hlive⟩
    · rw [hmemo b h1]
      exact hs.live b hb
  · by_cases h1 : b = a
    · exact .inl (h1 ▸ hL)
    · rw [hmemo b h1] at hb
      exact hs.alloc b hb
  · obtain ⟨h1, h2⟩ := hs.back.2 b hb
    rw [hmemo b fun h3 => h2.1 (h3 ▸ hL)]
    exact ⟨h1, h2⟩
  · refine (hs.clusters x).trans (exists_congr fun b => and_congr_right fun _ => ?_)
    rw [owner_congr (hrefs b)]
  · obtain ⟨cx, h1, h2⟩ := hs.head x hx
    by_cases h3 : x = a
    · subst h3
      rw [hc] at h1
      obtain rfl := Option.some.inj h1
      exact ⟨c', hmema, ((hhead hx).1 h2).congr fun b _ => hrefs b⟩
    · exact ⟨cx, by rw [hmemo x h3, h1], h2.congr fun b _ => hrefs b⟩
  · refine hs.held.trans (List.Perm.of_eq (filterMap_congr fun x hx => ?_))
    by_cases h1 : x = a
    · subst h1
      rw [hmema, hc]
      exact (hhead hx).2.symm
    · rw [hmemo x h1]

/-- The data of an mbuf in use change their place or length. -/
theorem Inv.set {p : ℕ} {l : ℤ} (hs : s.Inv L X) (hL : a ∈ L) (hc : s.mem a = some c)
    (hfit : p + l ≤ c.lim) (hp : p = c.pos ∨ p < c.lim) (hcl : c.hascl = true → c.pos ≤ p) :
    (s.set a { c with pos := p, len := l }).Inv L X := by
  obtain ⟨c1, h1, hlive⟩ := hs.live a hL
  rw [hc] at h1
  obtain rfl := Option.some.inj h1
  have hstart : (p : ℤ) ≤ c.lim := by
    have h1 := hlive.start
    omega
  refine hs.update hL hc rfl ⟨hlive.used, hstart, hfit, hlive.small⟩ fun _ => ⟨fun h1 => ?_, rfl⟩
  refine ⟨h1.count, h1.own, h1.zombie, h1.same, fun h2 => ?_, h1.func⟩
  obtain ⟨h3, h4, h5, h6, h7, h8⟩ := h1.normal h2
  refine ⟨h3, h4, h5.trans (hcl (h1.own hL)), ?_, h7, h8⟩
  show p < c.base + c.clsize
  have h11 := h8 hL
  omega

theorem Inv.set_small {c' : Cell} (hs : s.Inv L X) (hL : a ∈ L) (hc : s.mem a = some c)
    (hcl : c.hascl = false) (hcl' : c'.hascl = false) (hlive : LiveOk c') : (s.set a c').Inv L X := by
  refine hs.update hL hc ?_ hlive fun h1 => (hs.not_head hc hL hcl h1).elim
  unfold Cell.ref
  rw [hcl, hcl', if_neg (by simp), if_neg (by simp)]

/-- `MGET` -/
theorem Inv.mget {ans ans' : List (Option ℕ)} (hs : s.Inv L X) (hg : s.mget ans = some (a, s', ans')) :
    s'.Inv (a :: L) X ∧ s'.mem a = some Cell.new ∧ a ∉ L ∧ ∀ b ∈ L, s'.mem b = s.mem b := by
  unfold Heap.mget at hg
  split at hg
  · next a' ans'' =>
    split_ifs at hg with hnone
    obtain ⟨rfl, h1⟩ := Prod.mk.inj (Option.some.inj hg)
    obtain ⟨rfl, rfl⟩ := Prod.mk.inj h1
    have hL : a' ∉ L := fun h2 => by
      obtain ⟨c, h3, -⟩ := hs.live a' h2
      rw [hnone] at h3
      cases h3
    have hX : a' ∉ X := fun h2 => (hs.back.2 a' h2).1 hnone
    have hcl : a' ∉ s.clusters := fun h2 => by
      obtain ⟨c, h3, -⟩ := hs.head a' h2
      rw [hnone] at h3
      cases h3
    have hmem : ∀ b, b ≠ a' → (s.set a' Cell.new).mem b = s.mem b := fun b hb => by
      rw [mem_set, if_neg hb]
    have hne : ∀ b ∈ L, b ≠ a' := fun b hb h2 => hL (h2 ▸ hb)
    have hnew : (s.set a' Cell.new).mem a' = some Cell.new := by
      rw [mem_set, if_pos rfl]
    have hown : (s.set a' Cell.new).owner a' = none := owner_of hnew
    have hold : ∀ b ∈ L, (s.set a' Cell.new).owner b = s.owner b := fun b hb =>
      owner_congr (congrArg (Option.bind · Cell.ref) (hmem b (hne b hb)))
    refine ⟨⟨nodup_cons.2 ⟨hL, hs.nodup⟩, forall_mem_cons.2 ⟨⟨_, hnew, rfl, ?_, ?_,
      fun _ => rfl⟩, fun b hb => ?_⟩, fun b hb => ?_, ⟨hs.back.1, fun b hb => ?_⟩, hs.heads, fun x => ?_,
      fun x hx => ?_, ?_⟩, hnew, hL, fun b hb => hmem b (hne b hb)⟩
    · decide
    · decide
    · rw [hmem b (hne b hb)]
      exact hs.live b hb
    · by_cases h2 : b = a'
      · exact .inl (mem_cons.2 (.inl h2))
      · rw [hmem b h2] at hb
        exact (hs.alloc b hb).imp_left (mem_cons_of_mem a')
    · obtain ⟨h2, h3, h4⟩ := hs.back.2 b hb
      have h5 : b ≠ a' := fun h6 => hX (h6 ▸ hb)
      rw [hmem b h5]
      exact ⟨h2, fun h6 => (mem_cons.1 h6).elim h5 h3, h4⟩
    · show x ∈ s.clusters ↔ _
      rw [hs.clusters, exists_mem_cons_iff, hown]
      constructor
      · rintro ⟨b, hb, h2⟩
        exact .inr ⟨b, hb, (hold b hb).trans h2⟩
      · rintro (h2 | ⟨b, hb, h2⟩)
        · cases h2
        · exact ⟨b, hb, (hold b hb).symm.trans h2⟩
    · have hxa : x ≠ a' := fun h2 => hcl (h2 ▸ hx)
      obtain ⟨cx, h2, h3⟩ := hs.head x hx
      have h4 : (s.set a' Cell.new).HeadOk L x cx :=
        h3.congr fun b hb => by rw [hmem b (hne b hb)]
      refine ⟨cx, by rw [hmem x hxa, h2], fun h5 => ?_, fun h5 => ?_, fun h5 => ?_, ?_, fun h5 => ?_,
        h4.func⟩
      · rw [refs_cons, hown]
        exact h4.count h5
      · exact h4.own ((mem_cons.1 h5).resolve_left hxa)
      · exact h4.zombie fun h6 => h5 (mem_cons_of_mem a' h6)
      · refine forall_mem_cons.2 ⟨fun h5 => ?_, h4.same⟩
        rw [hown] at h5
        cases h5
      · obtain ⟨h6, h7, h8, h9, h10, h11⟩ := h4.normal h5
        exact ⟨h6, h7, h8, h9, h10, fun h12 => h11 ((mem_cons.1 h12).resolve_left hxa)⟩
    · refine hs.held.trans (List.Perm.of_eq (filterMap_congr fun x hx => ?_))
      rw [hmem x fun h2 => hcl (h2 ▸ hx)]
  · cases hg

/-- What a new cluster has to satisfy. -/
structure AttachOk (m : ℕ) (c : Cell) : Prop where
  used : c.free = false
  hascl : c.hascl = true
  start : c.pos ≤ c.lim
  fits : c.pos + c.len ≤ c.lim
  head : c.cltype ≠ .dux → c.head = m ∧ c.refcnt = 1
  normal : c.cltype = .normal → (∃ k, k ≤ 32 ∧ c.clsize = 2 ^ k) ∧ c.base % c.clsize = 0 ∧
    c.base = c.pos ∧ c.base + c.clsize ≤ 4294967296 ∧ c.lim = c.base + c.clsize
  func : c.cltype = .nfs ∨ c.cltype = .ops ∨ c.cltype = .dux → c.clfun ≠ none

/-- A cluster for an mbuf that has none. -/
theorem Inv.attach {c' : Cell} (hs : s.Inv L X) (hL : a ∈ L) (hc : s.mem a = some c)
    (hcl : c.hascl = false) (hok : AttachOk a c') : (s.attach a c').Inv L X := by
  have hna : a ∉ s.clusters := hs.not_head hc hL hcl
  have hmem : ∀ b, b ≠ a → (s.attach a c').mem b = s.mem b := fun b hb => by
    simp [Heap.attach, hb]
  have hnew : (s.attach a c').mem a = some c' := by
    simp [Heap.attach]
  have hown : (s.attach a c').owner a = some a := by
    rw [owner_of hnew, if_pos hok.hascl]
    split_ifs with h1
    · rfl
    · rw [(hok.head h1).1]
  have hold : ∀ b, b ≠ a → (s.attach a c').owner b = s.owner b := fun b hb =>
    owner_congr (congrArg (Option.bind · Cell.ref) (hmem b hb))
  have hnone : s.owner a = none := by
    rw [owner_of hc, hcl]
    rfl
  -- nobody referred to the mbuf before
  have hno : ∀ b ∈ L, s.owner b ≠ some a := fun b hb h1 => hna ((hs.clusters a).2 ⟨b, hb, h1⟩)
  have hiff : ∀ b ∈ L, (s.attach a c').owner b = some a ↔ b = a := fun b hb => by
    by_cases h1 : b = a
    · rw [h1]
      exact ⟨fun _ => rfl, fun _ => hown⟩
    · rw [hold b h1]
      exact ⟨fun h2 => (hno b hb h2).elim, fun h2 => (h1 h2).elim⟩
  have hone : (s.attach a c').refs L a = 1 := by
    rw [← count_eq_one_of_mem hs.nodup hL]
    unfold refs List.count
    exact countP_congr fun b hb => by
      have h1 := hiff b hb
      simp only [decide_eq_true_eq, beq_iff_eq]
      exact h1
  have hrefs : ∀ x, x ≠ a → (s.attach a c').refs L x = s.refs L x := fun x hx => by
    unfold refs
    refine countP_congr fun b _ => ?_
    by_cases h1 : b = a
    · rw [h1, hown, hnone]
      simp [Ne.symm hx]
    · rw [hold b h1]
  refine ⟨hs.nodup, fun b hb => ?_, fun b hb => ?_, ⟨hs.back.1, fun b hb => ?_⟩,
    nodup_cons.2 ⟨hna, hs.heads⟩, fun x => ?_, forall_mem_cons.2 ⟨⟨c', hnew, ?_⟩,
    fun x hx => ?_⟩, ?_⟩
  · by_cases h1 : b = a
    · rw [h1]
      exact ⟨c', hnew, hok.used, hok.start, hok.fits, fun h2 => by rw [hok.hascl] at h2; cases h2⟩
    · rw [hmem b h1]
      exact hs.live b hb
  · by_cases h1 : b = a
    · exact .inl (h1 ▸ hL)
    · rw [hmem b h1] at hb
      exact (hs.alloc b hb).imp_right (Or.imp_left (mem_cons_of_mem a))
  · obtain ⟨h1, h2, h3⟩ := hs.back.2 b hb
    have h4 : b ≠ a := fun h5 => h2 (h5 ▸ hL)
    rw [hmem b h4]
    exact ⟨h1, h2, fun h5 => (mem_cons.1 h5).elim h4 h3⟩
  · show x ∈ a :: s.clusters ↔ _
    rw [mem_cons, hs.clusters]
    constructor
    · rintro (rfl | ⟨b, hb, h1⟩)
      · exact ⟨x, hL, hown⟩
      · refine ⟨b, hb, ?_⟩
        rw [hold b, h1]
        rintro rfl
        rw [hnone] at h1
        cases h1
    · rintro ⟨b, hb, h1⟩
      by_cases h2 : b = a
      · rw [h2, hown] at h1
        exact .inl (Option.some.inj h1).symm
      · rw [hold b h2] at h1
        exact .inr ⟨b, hb, h1⟩
  · refine ⟨fun h1 => ?_, fun _ => hok.hascl, fun h1 => (h1 hL).elim, fun b hb h1 => ?_, fun h1 => ?_,
      hok.func⟩
    · rw [hone]
      exact hok.head h1
    · rw [(hiff b hb).1 h1]
      exact ⟨c', hnew, rfl⟩
    · obtain ⟨⟨k, h2, h3⟩, h4, h5, h6, h7⟩ := hok.normal h1
      have h8 : 0 < c'.clsize := h3 ▸ Nat.two_pow_pos k
      exact ⟨⟨k, h2, h3⟩, h4, h5.le, by omega, h6, fun _ => h7⟩
  · have hxa : x ≠ a := fun h1 => hna (h1 ▸ hx)
    obtain ⟨cx, h1, h2⟩ := hs.head x hx
    refine ⟨cx, by rw [hmem x hxa, h1], fun h3 => ?_, h2.own, h2.zombie, fun b hb h3 => ?_, h2.normal,
      h2.func⟩
    · rw [hrefs x hxa]
      exact h2.count h3
    · have h4 : b ≠ a := fun h5 => by
        rw [h5, hown] at h3
        exact hxa (Option.some.inj h3).symm
      rw [hmem b h4]
      rw [hold b h4] at h3
      exact h2.same b hb h3
  · show ((token c').toList ++ s.held).Perm ((a :: s.clusters).filterMap _)
    have h1 : s.held.Perm (s.clusters.filterMap fun h => ((s.attach a c').mem h).bind token) :=
      hs.held.trans (List.Perm.of_eq (filterMap_congr fun x hx => by
        rw [hmem x fun h2 => hna (h2 ▸ hx)]))
    rw [filterMap_cons, hnew, bind_some]
    cases token c' with
    | none => exact h1
    | some t => exact h1.cons t

/-- An mbuf without a cluster refers to the cluster of another one, which is counted in its head. -/
theorem Inv.share {m : ℕ} {mc : Cell} (nc : Cell) (hs : s.Inv L X) (hL : a ∈ L) (hc : s.mem a = some c)
    (hcl : c.hascl = false) (hm : m ∈ L) (hmc : s.mem m = some mc) (hmcl : mc.hascl = true)
    (hdux : mc.cltype ≠ .dux) (hn : nc.free = false ∧ nc.pos ≤ nc.lim ∧ nc.pos + nc.len ≤ nc.lim ∧
      nc.hascl = true ∧ nc.cltype = mc.cltype ∧ nc.head = mc.head) :
    ∃ hc, (s.set a nc).mem mc.head = some hc ∧
      ((s.set a nc).set mc.head { hc with refcnt := hc.refcnt + 1 }).Inv L X := by
  obtain ⟨hn1, hn0, hn2, hn3, hn4, hn5⟩ := hn
  have hna : a ∉ s.clusters := hs.not_head hc hL hcl
  have hown : s.owner m = some mc.head := by
    rw [owner_of hmc, if_pos hmcl, if_neg hdux]
  have hhead : mc.head ∈ s.clusters := (hs.clusters _).2 ⟨m, hm, hown⟩
  have hne : mc.head ≠ a := fun h1 => hna (h1 ▸ hhead)
  obtain ⟨hc', h1, h2⟩ := hs.head _ hhead
  obtain ⟨mc', h3, h4⟩ := h2.same m hm hown
  rw [hmc] at h3
  obtain rfl := Option.some.inj h3
  have hnone : s.owner a = none := by
    rw [owner_of hc, hcl]
    rfl
  refine ⟨hc', by rw [mem_set, if_neg hne, h1], ?_⟩
  generalize hs' : (s.set a nc).set mc.head { hc' with refcnt := hc'.refcnt + 1 } = s'
  have hcls : s'.clusters = s.clusters := by
    rw [← hs']
    rfl
  have hmem : ∀ b, s'.mem b = if b = mc.head then some { hc' with refcnt := hc'.refcnt + 1 } else
      if b = a then some nc else s.mem b := fun b => by
    rw [← hs', mem_set, mem_set]
  have hmema : s'.mem a = some nc := by
    rw [hmem, if_neg (Ne.symm hne), if_pos rfl]
  have hmemh : s'.mem mc.head = some { hc' with refcnt := hc'.refcnt + 1 } := by
    rw [hmem, if_pos rfl]
  have hmemo : ∀ b, b ≠ mc.head → b ≠ a → s'.mem b = s.mem b := fun b h5 h6 => by
    rw [hmem, if_neg h5, if_neg h6]
  have href : ∀ b, b ≠ a → (s'.mem b).bind Cell.ref = (s.mem b).bind Cell.ref := fun b hb => by
    by_cases h5 : b = mc.head
    · rw [h5, hmemh, h1]
      rfl
    · rw [hmemo b h5 hb]
  have hnewo : s'.owner a = some mc.head := by
    rw [owner_of hmema, if_pos hn3, if_neg (hn4 ▸ hdux), hn5]
  have hold : ∀ b, b ≠ a → s'.owner b = s.owner b := fun b hb => owner_congr (href b hb)
  have hrefs : ∀ x, s'.refs L x = s.refs L x + if x = mc.head then 1 else 0 := fun x => by
    obtain ⟨L1, L2, rfl⟩ := append_of_mem hL
    have h5 : (L1 ++ a :: L2).Perm (a :: (L1 ++ L2)) := perm_middle
    have h6 : ∀ b ∈ L1 ++ L2, b ≠ a := fun b hb h7 =>
      (nodup_cons.1 (h5.nodup_iff.1 hs.nodup)).1 (h7 ▸ hb)
    rw [refs_perm h5, refs_perm h5, refs_cons, refs_cons, hnone, hnewo,
      refs_congr fun b hb => hold b (h6 b hb)]
    by_cases h7 : x = mc.head
    · simp [h7]
    · simp [h7, Ne.symm h7]
  refine ⟨hs.nodup, fun b hb => ?_, fun b hb => ?_, ⟨hs.back.1, fun b hb => ?_⟩, hcls ▸ hs.heads,
    fun x => ?_, fun x hx => ?_, ?_⟩
  · by_cases h5 : b = a
    · rw [h5]
      exact ⟨nc, hmema, hn1, hn0, hn2, fun h6 => by rw [hn3] at h6; cases h6⟩
    · by_cases h6 : b = mc.head
      · obtain ⟨cb, h7, h8⟩ := hs.live b hb
        rw [h6] at h7 ⊢
        rw [h1] at h7
        obtain rfl := Option.some.inj h7
        exact ⟨_, hmemh, h8.used, h8.start, h8.fits, h8.small⟩
      · rw [hmemo b h6 h5]
        exact hs.live b hb
  · rw [hcls]
    by_cases h5 : b = a
    · exact .inl (h5 ▸ hL)
    · refine hs.alloc b fun h6 => hb ?_
      have h7 : b ≠ mc.head := fun h8 => by
        rw [h8, h1] at h6
        cases h6
      rw [hmemo b h7 h5, h6]
  · rw [hcls]
    obtain ⟨h5, h6, h7⟩ := hs.back.2 b hb
    refine ⟨?_, h6, h7⟩
    rw [hmemo b (fun h8 => h7 (h8 ▸ hhead)) fun h8 => h6 (h8 ▸ hL)]
    exact h5
  · rw [hcls, hs.clusters]
    constructor
    · rintro ⟨b, hb, h5⟩
      refine ⟨b, hb, ?_⟩
      rw [hold b, h5]
      rintro rfl
      rw [hnone] at h5
      cases h5
    · rintro ⟨b, hb, h5⟩
      by_cases h6 : b = a
      · rw [h6, hnewo] at h5
        exact ⟨m, hm, hown.trans h5⟩
      · rw [hold b h6] at h5
        exact ⟨b, hb, h5⟩
  · rw [hcls] at hx
    obtain ⟨cx, h5, h6⟩ := hs.head x hx
    have hsame : ∀ b ∈ L, s'.owner b = some x → ∃ cb, s'.mem b = some cb ∧ cb.cltype = cx.cltype := by
      intro b hb h7
      by_cases h8 : b = a
      · rw [h8, hnewo] at h7
        obtain rfl := Option.some.inj h7
        rw [h1] at h5
        obtain rfl := Option.some.inj h5
        rw [h8]
        exact ⟨nc, hmema, hn4.trans h4⟩
      · rw [hold b h8] at h7
        obtain ⟨cb, h9, h10⟩ := h6.same b hb h7
        obtain ⟨cb', h11, h12⟩ := type_congr (href b h8) h7 h9
        exact ⟨cb', h11, h12.trans h10⟩
    by_cases h7 : x = mc.head
    · subst h7
      rw [h1] at h5
      obtain rfl := Option.some.inj h5
      refine ⟨_, hmemh, fun h8 => ?_, h6.own, h6.zombie, hsame, h6.normal, h6.func⟩
      obtain ⟨h9, h10⟩ := h6.count h8
      refine ⟨h9, ?_⟩
      show hc'.refcnt + 1 = _
      rw [hrefs, if_pos rfl, h10]
      push_cast
      rfl
    · refine ⟨cx, ?_, fun h8 => ?_, h6.own, h6.zombie, hsame, h6.normal, h6.func⟩
      · rw [hmemo x h7 fun h8 => hna (h8 ▸ hx), h5]
      · rw [hrefs, if_neg h7, Nat.add_zero]
        exact h6.count h8
  · rw [hcls]
    have hheld : s'.held = s.held := by
      rw [← hs']
      rfl
    rw [hheld]
    refine hs.held.trans (List.Perm.of_eq (filterMap_congr fun x hx => ?_))
    by_cases h5 : x = mc.head
    · rw [h5, hmemh, h1]
      rfl
    · rw [hmemo x h5 fun h6 => hna (h6 ▸ hx)]

/-! ### Giving back -/

theorem giveBack_ok {t : Storage} {rest : List ℕ} (hp : s.held.Perm (t :: rest.filterMap fun h =>
    (s.mem h).bind token)) (hr : s.clusters.erase a = rest) :
    ∃ s', s.giveBack a t = .ok s' ∧ s'.mem = s.mem ∧ s'.clusters = rest ∧
      s'.held.Perm (s'.clusters.filterMap fun h => (s'.mem h).bind token) := by
  have h1 : t ∈ s.held := hp.mem_iff.2 mem_cons_self
  unfold giveBack
  rw [if_pos h1, hr]
  refine ⟨_, rfl, rfl, rfl, ?_⟩
  have h2 := hp.erase t
  rw [erase_cons_head] at h2
  exact h2

/-- The storage of a cluster is held, and is given back where it was taken from. -/
theorem Inv.release (hs : s.Inv L X) (hn : a ∈ s.clusters) (hc : s.mem a = some c) (c' : Cell)
    (htype : c'.cltype = c.cltype) (hpos : mtocl c' = mtocl c)
    (hfun : c'.clfun = c.clfun ∧ c'.clarg = c.clarg) (c'' : Cell) (hc'' : token c'' = token c) :
    ∃ s', (s.set a c'').release a c' = .ok s' ∧ s'.mem = (s.set a c'').mem ∧
      s'.clusters = s.clusters.erase a ∧
      s'.held.Perm (s'.clusters.filterMap fun h => (s'.mem h).bind token) := by
  obtain ⟨c1, h1, hok⟩ := hs.head a hn
  rw [hc] at h1
  obtain rfl := Option.some.inj h1
  have hcl : (s.set a c'').clusters = s.clusters := rfl
  have hperm : s.clusters.Perm (a :: s.clusters.erase a) := perm_cons_erase hn
  have htok : ∀ h, ((s.set a c'').mem h).bind token = (s.mem h).bind token := fun h => by
    rw [mem_set]
    split_ifs with h2
    · rw [h2, hc]
      exact hc''
    · rfl
  have hheld : (s.set a c'').held.Perm ((token c).toList ++
      (s.clusters.erase a).filterMap fun h => ((s.set a c'').mem h).bind token) := by
    refine hs.held.trans ((hperm.filterMap _).trans (List.Perm.of_eq ?_))
    rw [filterMap_cons, hc, bind_some, filterMap_congr fun h _ => (htok h).symm]
    cases token c <;> rfl
  unfold Heap.release
  cases h2 : c.cltype with
  | normal =>
    rw [htype, h2]
    dsimp only
    obtain ⟨⟨k, hk, hsz⟩, h3, h4, h5, h6, -⟩ := hok.normal h2
    have h7 : token c = some (.block c.base) := by
      unfold token
      rw [h2]
    rw [hpos, mtocl_eq hk hsz h3 h4 h5 h6]
    rw [h7] at hheld
    exact giveBack_ok hheld (by rw [hcl])
  | streams | ext =>
    rw [htype, h2]
    dsimp only
    have h7 : token c = c.clfun.map fun f => .fn f c.clarg := by
      unfold token
      rw [h2]
    rw [hfun.1, hfun.2]
    cases h8 : c.clfun with
    | none =>
      rw [h7, h8] at hheld
      exact ⟨_, rfl, rfl, rfl, hheld⟩
    | some f =>
      rw [h7, h8] at hheld
      exact giveBack_ok hheld (by rw [hcl])
  | nfs | ops | dux =>
    rw [htype, h2]
    dsimp only
    have h7 : token c = c.clfun.map fun f => .fn f c.clarg := by
      unfold token
      rw [h2]
    rw [hfun.1, hfun.2]
    obtain ⟨f, h8⟩ := ne_none_iff_exists'.1 (hok.func (by rw [h2]; simp))
    rw [h7, h8] at hheld
    rw [h8]
    exact giveBack_ok hheld (by rw [hcl])

/-- An mbuf that nothing refers to is given back. -/
theorem Inv.mbufFree (hs : s.Inv L (a :: X)) :
    ∃ s', s.mbufFree a = .ok s' ∧ s'.Inv L X ∧ ∀ b, b ≠ a → s'.mem b = s.mem b := by
  obtain ⟨h1, h2, h3⟩ := hs.back.2 a mem_cons_self
  obtain ⟨h4, h5⟩ := nodup_cons.1 hs.back.1
  unfold Heap.mbufFree
  obtain ⟨c, hc⟩ := ne_none_iff_exists'.1 h1
  rw [hc]
  have hmem : ∀ b, b ≠ a → ({ s with mem := Function.update s.mem a none } : Heap).mem b = s.mem b :=
    fun b hb => by simp [hb]
  have hL : ∀ b ∈ L, b ≠ a := fun b hb h6 => h2 (h6 ▸ hb)
  refine ⟨_, rfl, ⟨hs.nodup, fun b hb => ?_, fun b hb => ?_, ⟨h5, fun b hb => ?_⟩, hs.heads,
    fun x => ?_, fun x hx => ?_, ?_⟩, hmem⟩
  · rw [hmem b (hL b hb)]
    exact hs.live b hb
  · have h6 : b ≠ a := fun h7 => by
      rw [h7] at hb
      simp at hb
    rw [hmem b h6] at hb
    exact (hs.alloc b hb).imp_right (Or.imp_right fun h7 => (mem_cons.1 h7).resolve_left h6)
  · obtain ⟨h6, h7, h8⟩ := hs.back.2 b (mem_cons_of_mem a hb)
    rw [hmem b fun h9 => h4 (h9 ▸ hb)]
    exact ⟨h6, h7, h8⟩
  · refine (hs.clusters x).trans (exists_congr fun b => and_congr_right fun hb => ?_)
    rw [owner_congr (congrArg (Option.bind · Cell.ref) (hmem b (hL b hb)))]
  · obtain ⟨cx, h6, h7⟩ := hs.head x hx
    refine ⟨cx, ?_, h7.congr fun b hb => congrArg (Option.bind · Cell.ref) (hmem b (hL b hb))⟩
    rw [hmem x fun h8 => h3 (h8 ▸ hx), h6]
  · refine hs.held.trans (List.Perm.of_eq (filterMap_congr fun x hx => ?_))
    rw [hmem x fun h8 => h3 (h8 ▸ hx)]

/-- One of the mbufs goes: what is true of the other heads stays true. -/
theorem HeadOk.of_cons {x : ℕ} (hx : s.HeadOk (a :: L) x c) (hne : s.owner a ≠ some x)
    (hxa : x ∈ L ↔ x ∈ a :: L)
    (h1 : ∀ b ∈ L, (s'.mem b).bind Cell.ref = (s.mem b).bind Cell.ref) : s'.HeadOk L x c := by
  have h2 : s.HeadOk L x c := by
    refine ⟨fun h3 => ?_, fun h3 => hx.own (hxa.1 h3), fun h3 => hx.zombie (mt hxa.2 h3),
      fun b hb => hx.same b (mem_cons_of_mem a hb), fun h3 => ?_, hx.func⟩
    · have h4 := hx.count h3
      rw [refs_cons, if_neg hne, Nat.add_zero] at h4
      exact h4
    · obtain ⟨h4, h5, h6, h7, h8, h9⟩ := hx.normal h3
      exact ⟨h4, h5, h6, h7, h8, fun h10 => h9 (hxa.1 h10)⟩
  exact h2.congr h1

/-- An mbuf without a cluster goes. -/
theorem Inv.drop_small (hs : s.Inv (a :: L) X) (hc : s.mem a = some c) (hcl : c.hascl = false) :
    s.Inv L (a :: X) := by
  obtain ⟨haL, hnd⟩ := nodup_cons.1 hs.nodup
  have hna := hs.not_head hc mem_cons_self hcl
  have hnone : s.owner a = none := by
    rw [owner_of hc, hcl]
    rfl
  refine ⟨hnd, fun b hb => hs.live b (mem_cons_of_mem a hb), fun b hb => ?_,
    ⟨nodup_cons.2 ⟨fun h1 => (hs.back.2 a h1).2.1 mem_cons_self, hs.back.1⟩,
      forall_mem_cons.2 ⟨⟨by rw [hc]; exact nofun, haL, hna⟩, fun b hb => ?_⟩⟩, hs.heads,
    fun x => ?_, fun x hx => ?_, hs.held⟩
  · rcases hs.alloc b hb with h1 | h1 | h1
    · rcases mem_cons.1 h1 with rfl | h1
      · exact .inr (.inr mem_cons_self)
      · exact .inl h1
    · exact .inr (.inl h1)
    · exact .inr (.inr (mem_cons_of_mem a h1))
  · obtain ⟨h1, h2, h3⟩ := hs.back.2 b hb
    exact ⟨h1, fun h4 => h2 (mem_cons_of_mem a h4), h3⟩
  · rw [hs.clusters, exists_mem_cons_iff, hnone]
    simp
  · obtain ⟨cx, h1, h2⟩ := hs.head x hx
    have h3 : x ≠ a := fun h4 => hna (h4 ▸ hx)
    exact ⟨cx, h1, h2.of_cons (by rw [hnone]; exact nofun)
      ⟨mem_cons_of_mem a, fun h4 => (mem_cons.1 h4).resolve_left h3⟩ fun _ _ => rfl⟩

/-- The last mbuf of a cluster goes, and the storage with it; the head is no longer needed. -/
theorem Inv.drop_last {n : ℕ} (hs : s.Inv (a :: L) X) (hown : s.owner a = some n)
    (hlast : ∀ b ∈ L, s.owner b ≠ some n) (hmem : ∀ b, b ≠ n → s'.mem b = s.mem b)
    (hn : s'.mem n ≠ none) (hcl : s'.clusters = s.clusters.erase n)
    (hheld : s'.held.Perm (s'.clusters.filterMap fun h => (s'.mem h).bind token)) :
    s'.Inv L (if n = a then a :: X else n :: a :: X) := by
  obtain ⟨haL, hnd⟩ := nodup_cons.1 hs.nodup
  have hnc : n ∈ s.clusters := (hs.clusters n).2 ⟨a, mem_cons_self, hown⟩
  have hmemc : ∀ x, x ∈ s'.clusters ↔ x ≠ n ∧ x ∈ s.clusters := fun x => by
    rw [hcl, hs.heads.mem_erase_iff]
  have hnL : n ∉ L := fun h1 => by
    obtain ⟨cn, h2, h3⟩ := hs.head n hnc
    exact hlast n h1 (h3.owner h2 (mem_cons_of_mem a h1))
  have hX : ∀ b ∈ X, b ≠ n ∧ b ≠ a := fun b hb => by
    obtain ⟨-, h2, h3⟩ := hs.back.2 b hb
    exact ⟨fun h4 => h3 (h4 ▸ hnc), fun h4 => h2 (h4 ▸ mem_cons_self)⟩
  have hold : ∀ b ∈ L, s'.mem b = s.mem b := fun b hb => hmem b fun h1 => hnL (h1 ▸ hb)
  -- the mbuf itself is no head of another cluster
  have hself : ∀ x ∈ s.clusters, x = a → x = n := fun x hx h1 => by
    obtain ⟨cx, h2, h3⟩ := hs.head x hx
    have h4 := h3.owner h2 (h1 ▸ mem_cons_self)
    rw [h1, hown] at h4
    rw [h1, Option.some.inj h4]
  have hback : ∀ b ∈ X, s'.mem b ≠ none ∧ b ∉ L ∧ b ∉ s'.clusters := fun b hb => by
    obtain ⟨h1, h2, h3⟩ := hs.back.2 b hb
    rw [hmem b (hX b hb).1]
    exact ⟨h1, fun h4 => h2 (mem_cons_of_mem a h4), fun h4 => h3 ((hmemc b).1 h4).2⟩
  have hnback : s'.mem n ≠ none ∧ n ∉ L ∧ n ∉ s'.clusters :=
    ⟨hn, hnL, fun h1 => ((hmemc n).1 h1).1 rfl⟩
  refine ⟨hnd, fun b hb => ?_, fun b hb => ?_, ?_, ?_, fun x => ?_, fun x hx => ?_, hheld⟩
  · rw [hold b hb]
    exact hs.live b (mem_cons_of_mem a hb)
  · by_cases h1 : b = n
    · refine .inr (.inr ?_)
      split_ifs with h2
      · exact mem_cons.2 (.inl (h1.trans h2))
      · exact mem_cons.2 (.inl h1)
    · rw [hmem b h1] at hb
      rcases hs.alloc b hb with h2 | h2 | h2
      · rcases mem_cons.1 h2 with rfl | h2
        · refine .inr (.inr ?_)
          rw [if_neg (Ne.symm h1)]
          exact mem_cons_of_mem n mem_cons_self
        · exact .inl h2
      · exact .inr (.inl ((hmemc b).2 ⟨h1, h2⟩))
      · refine .inr (.inr ?_)
        split_ifs
        · exact mem_cons_of_mem a h2
        · exact mem_cons_of_mem n (mem_cons_of_mem a h2)
  · have haX : a ∉ X := fun h1 => (hX a h1).2 rfl
    split_ifs with h1
    · subst h1
      exact ⟨nodup_cons.2 ⟨haX, hs.back.1⟩, forall_mem_cons.2 ⟨hnback, hback⟩⟩
    · have h2 : s'.mem a ≠ none := by
        rw [hmem a (Ne.symm h1)]
        obtain ⟨ca, h3, -⟩ := hs.live a mem_cons_self
        rw [h3]
        exact nofun
      refine ⟨nodup_cons.2 ⟨fun h3 => ?_, nodup_cons.2 ⟨haX, hs.back.1⟩⟩,
        forall_mem_cons.2 ⟨hnback, forall_mem_cons.2 ⟨⟨h2, haL, fun h3 => ?_⟩, hback⟩⟩⟩
      · rcases mem_cons.1 h3 with h3 | h3
        · exact h1 h3
        · exact (hX n h3).1 rfl
      · obtain ⟨h4, h5⟩ := (hmemc a).1 h3
        exact h4 (hself a h5 rfl)
  · rw [hcl]
    exact hs.heads.erase n
  · rw [hmemc, hs.clusters, exists_mem_cons_iff, hown]
    constructor
    · rintro ⟨h1, h2 | ⟨b, hb, h2⟩⟩
      · exact (h1 (Option.some.inj h2).symm).elim
      · exact ⟨b, hb, (owner_congr (congrArg (Option.bind · Cell.ref) (hold b hb))).trans h2⟩
    · rintro ⟨b, hb, h1⟩
      rw [owner_congr (congrArg (Option.bind · Cell.ref) (hold b hb))] at h1
      exact ⟨fun h2 => hlast b hb (h2 ▸ h1), .inr ⟨b, hb, h1⟩⟩
  · obtain ⟨h1, h2⟩ := (hmemc x).1 hx
    obtain ⟨cx, h3, h4⟩ := hs.head x h2
    refine ⟨cx, by rw [hmem x h1, h3], h4.of_cons ?_ ⟨mem_cons_of_mem a, fun h5 => ?_⟩
      fun b hb => congrArg (Option.bind · Cell.ref) (hold b hb)⟩
    · rw [hown]
      exact fun h5 => h1 (Option.some.inj h5).symm
    · exact (mem_cons.1 h5).resolve_left fun h6 => h1 (hself x h2 h6)

/-- An mbuf goes that is not the last one of a cluster: it is counted no longer, and if it is the head
it stays as one that is marked free. -/
theorem Inv.drop_ref {n : ℕ} (h' : Cell) (hs : s.Inv (a :: L) X) (hown : s.owner a = some n)
    (hmore : ∃ b ∈ L, s.owner b = some n) (hc : s.mem n = some c) (hdux : c.cltype ≠ .dux)
    (hh : h'.refcnt = c.refcnt - 1 ∧ h'.cltype = c.cltype ∧ h'.clsize = c.clsize ∧
      h'.head = c.head ∧ h'.clfun = c.clfun ∧ h'.clarg = c.clarg ∧ h'.base = c.base ∧
      h'.lim = c.lim ∧ (c.cltype = .normal → h'.pos = c.pos)) (hself : if n = a then h'.free = true
      else h'.free = c.free ∧ h'.hascl = c.hascl ∧ h'.pos = c.pos ∧ h'.len = c.len) :
    (s.set n h').Inv L (if n = a then X else a :: X) := by
  obtain ⟨hr, ht, hsz, hhd, hfn, harg, hbase, hlim, hpos⟩ := hh
  obtain ⟨haL, hnd⟩ := nodup_cons.1 hs.nodup
  have hnc : n ∈ s.clusters := (hs.clusters n).2 ⟨a, mem_cons_self, hown⟩
  have hmemo : ∀ b, b ≠ n → (s.set n h').mem b = s.mem b := fun b hb => by
    rw [mem_set, if_neg hb]
  have hmemn : (s.set n h').mem n = some h' := by
    rw [mem_set, if_pos rfl]
  have hne : ∀ b ∈ L, b ≠ a := fun b hb h1 => haL (h1 ▸ hb)
  have href : ∀ b ∈ L, ((s.set n h').mem b).bind Cell.ref = (s.mem b).bind Cell.ref := fun b hb => by
    by_cases h1 : b = n
    · rw [if_neg (h1 ▸ hne b hb)] at hself
      rw [h1, hmemn, hc]
      simp [Cell.ref, ht, hhd, hself.2.1]
    · rw [hmemo b h1]
  have hold : ∀ b ∈ L, (s.set n h').owner b = s.owner b := fun b hb => owner_congr (href b hb)
  have hselfc : ∀ x ∈ s.clusters, x = a → x = n := fun x hx h1 => by
    obtain ⟨cx, h2, h3⟩ := hs.head x hx
    have h4 := h3.owner h2 (h1 ▸ mem_cons_self)
    rw [h1, hown] at h4
    rw [h1, Option.some.inj h4]
  have hXn : ∀ b ∈ X, b ≠ n ∧ b ≠ a := fun b hb => by
    obtain ⟨-, h2, h3⟩ := hs.back.2 b hb
    exact ⟨fun h4 => h3 (h4 ▸ hnc), fun h4 => h2 (h4 ▸ mem_cons_self)⟩
  have hback : ∀ b ∈ X, (s.set n h').mem b ≠ none ∧ b ∉ L ∧ b ∉ s.clusters := fun b hb => by
    obtain ⟨h1, h2, h3⟩ := hs.back.2 b hb
    rw [hmemo b (hXn b hb).1]
    exact ⟨h1, fun h4 => h2 (mem_cons_of_mem a h4), h3⟩
  refine ⟨hnd, fun b hb => ?_, fun b hb => ?_, ?_, hs.heads, fun x => ?_, fun x hx => ?_, ?_⟩
  · obtain ⟨cb, h1, h2⟩ := hs.live b (mem_cons_of_mem a hb)
    by_cases h3 : b = n
    · rw [h3] at h1 ⊢
      rw [if_neg (h3 ▸ hne b hb)] at hself
      obtain ⟨h4, h5, h6, h7⟩ := hself
      rw [hc] at h1
      obtain rfl := Option.some.inj h1
      exact ⟨h', hmemn, h4.trans h2.used, by rw [h6, hlim]; exact h2.start,
        by rw [h6, h7, hlim]; exact h2.fits,
        fun h8 => by rw [hlim]; exact h2.small (h5 ▸ h8)⟩
    · rw [hmemo b h3]
      exact ⟨cb, h1, h2⟩
  · show b ∈ L ∨ b ∈ s.clusters ∨ _
    by_cases h1 : b = n
    · exact .inr (.inl (h1 ▸ hnc))
    · rw [hmemo b h1] at hb
      rcases hs.alloc b hb with h2 | h2 | h2
      · rcases mem_cons.1 h2 with rfl | h2
        · rw [if_neg (Ne.symm h1)]
          exact .inr (.inr mem_cons_self)
        · exact .inl h2
      · exact .inr (.inl h2)
      · refine .inr (.inr ?_)
        split_ifs
        · exact h2
        · exact mem_cons_of_mem a h2
  · split_ifs with h1
    · exact ⟨hs.back.1, hback⟩
    · refine ⟨nodup_cons.2 ⟨fun h2 => (hXn a h2).2 rfl, hs.back.1⟩,
        forall_mem_cons.2 ⟨⟨?_, haL, fun h2 => h1 (hselfc a h2 rfl).symm⟩, hback⟩⟩
      obtain ⟨ca, h2, -⟩ := hs.live a mem_cons_self
      rw [hmemo a (Ne.symm h1), h2]
      exact nofun
  · show x ∈ s.clusters ↔ _
    rw [hs.clusters, exists_mem_cons_iff, hown]
    constructor
    · rintro (h1 | ⟨b, hb, h1⟩)
      · obtain ⟨b, hb, h2⟩ := hmore
        exact ⟨b, hb, (hold b hb).trans (h2.trans h1)⟩
      · exact ⟨b, hb, (hold b hb).trans h1⟩
    · rintro ⟨b, hb, h1⟩
      exact .inr ⟨b, hb, (hold b hb).symm.trans h1⟩
  · obtain ⟨cx, h1, h2⟩ := hs.head x hx
    by_cases h3 : x = n
    · subst h3
      rw [hc] at h1
      obtain rfl := Option.some.inj h1
      have h4 : x ≠ a → (x ∈ L ↔ x ∈ a :: L) := fun h5 =>
        ⟨mem_cons_of_mem a, fun h6 => (mem_cons.1 h6).resolve_left h5⟩
      refine ⟨h', hmemn, fun h5 => ?_, fun h5 => ?_, fun h5 => ?_, fun b hb h5 => ?_, fun h5 => ?_,
        fun h5 => ?_⟩
      · obtain ⟨h6, h7⟩ := h2.count hdux
        rw [refs_cons, hown, if_pos rfl] at h7
        refine ⟨hhd.trans h6, ?_⟩
        rw [hr, h7, refs_congr hold]
        push_cast
        omega
      · have h6 : x ≠ a := hne x h5
        rw [if_neg h6] at hself
        exact hself.2.1.trans (h2.own (mem_cons_of_mem a h5))
      · refine ⟨?_, ht ▸ hdux⟩
        by_cases h6 : x = a
        · rwa [if_pos h6] at hself
        · rw [if_neg h6] at hself
          exact hself.1.trans (h2.zombie (mt (h4 h6).2 h5)).1
      · rw [hold b hb] at h5
        obtain ⟨cb, h6, h7⟩ := h2.same b (mem_cons_of_mem a hb) h5
        obtain ⟨cb', h8, h9⟩ := type_congr (href b hb) h5 h6
        exact ⟨cb', h8, h9.trans (h7.trans ht.symm)⟩
      · rw [ht] at h5
        obtain ⟨h6, h7, h8, h9, h10, h11⟩ := h2.normal h5
        rw [hsz, hbase, hpos h5, hlim]
        exact ⟨h6, h7, h8, h9, h10, fun h12 => h11 (mem_cons_of_mem a h12)⟩
      · rw [hfn]
        exact h2.func (ht ▸ h5)
    · refine ⟨cx, by rw [hmemo x h3, h1], h2.of_cons ?_ ⟨mem_cons_of_mem a, fun h5 => ?_⟩ href⟩
      · rw [hown]
        exact fun h5 => h3 (Option.some.inj h5).symm
      · exact (mem_cons.1 h5).resolve_left fun h6 => h3 (hselfc x hx h6)
  · refine hs.held.trans (List.Perm.of_eq (filterMap_congr fun x _ => ?_))
    by_cases h1 : x = n
    · rw [h1, hmemn, hc]
      show token c = token h'
      unfold token
      rw [ht, hbase, hfn, harg]
    · rw [hmemo x h1]

/-- `m_free` of an mbuf in use succeeds; mbufs without a cluster are left alone. -/
theorem Inv.mFree (hs : s.Inv (a :: L) X) : ∃ s', s.mFree a = .ok s' ∧ s'.Inv L X ∧
    ∀ b ∈ L, ∀ c, s.mem b = some c → c.hascl = false → s'.mem b = some c := by
  obtain ⟨c, hc, hlive⟩ := hs.live a mem_cons_self
  obtain ⟨haL, -⟩ := nodup_cons.1 hs.nodup
  have hne : ∀ b ∈ L, b ≠ a := fun b hb h1 => haL (h1 ▸ hb)
  unfold Heap.mFree
  have hget : s.get a = .ok c := by
    unfold get
    rw [hc]
  rw [hget]
  show ∃ s', (if c.free then _ else _) = Except.ok s' ∧ _
  rw [hlive.used, if_neg (by simp)]
  by_cases hcl : c.hascl = true
  swap
  · rw [if_neg hcl]
    obtain ⟨s', h1, h2, h3⟩ := (hs.drop_small hc (by simpa using hcl)).mbufFree
    exact ⟨s', h1, h2, fun b hb cb hcb _ => (h3 b (hne b hb)).trans hcb⟩
  rw [if_pos hcl]
  by_cases hdux : c.cltype = .dux
  · rw [if_pos hdux]
    have hown : s.owner a = some a := by
      rw [owner_of hc, if_pos hcl, if_pos hdux]
    have hac : a ∈ s.clusters := (hs.clusters a).2 ⟨a, mem_cons_self, hown⟩
    have hsame : s.set a c = s := by
      unfold Heap.set
      rw [← hc, Function.update_eq_self]
    obtain ⟨s1, h1, h2, h3, h4⟩ := hs.release hac hc c rfl rfl ⟨rfl, rfl⟩ c rfl
    rw [hsame] at h1 h2
    have hlast : ∀ b ∈ L, s.owner b ≠ some a := fun b hb h5 => by
      obtain ⟨ca, h6, h7⟩ := hs.head a hac
      rw [hc] at h6
      obtain rfl := Option.some.inj h6
      obtain ⟨cb, h8, h9⟩ := h7.same b (mem_cons_of_mem a hb) h5
      rw [owner_of h8] at h5
      split_ifs at h5 with h10 h11
      · exact hne b hb (Option.some.inj h5)
      · exact h11 (h9.trans hdux)
    have h5 := hs.drop_last hown hlast (fun b _ => by rw [h2]) (by rw [h2, hc]; exact nofun) h3 h4
    rw [if_pos rfl] at h5
    obtain ⟨s2, h6, h7, h8⟩ := h5.mbufFree
    rw [h1]
    refine ⟨s2, h6, h7, fun b hb cb hcb _ => ?_⟩
    rw [h8 b (hne b hb), h2]
    exact hcb
  rw [if_neg hdux]
  have hown : s.owner a = some c.head := by
    rw [owner_of hc, if_pos hcl, if_neg hdux]
  have hnc : c.head ∈ s.clusters := (hs.clusters _).2 ⟨a, mem_cons_self, hown⟩
  obtain ⟨hd, hhd, hok⟩ := hs.head _ hnc
  obtain ⟨c', h1, htype⟩ := hok.same a mem_cons_self hown
  rw [hc] at h1
  obtain rfl := Option.some.inj h1
  have hhdux : hd.cltype ≠ .dux := fun h1 => hdux (htype.trans h1)
  obtain ⟨-, hcount⟩ := hok.count hhdux
  rw [refs_cons, hown, if_pos rfl] at hcount
  have hgeth : s.get c.head = .ok hd := by
    unfold get
    rw [hhd]
  -- an mbuf without a cluster is not the head
  have hsmall : ∀ b ∈ L, ∀ cb, s.mem b = some cb → cb.hascl = false → b ≠ c.head :=
    fun b hb cb hcb hcl' h1 => by
      rw [h1, hhd] at hcb
      obtain rfl := Option.some.inj hcb
      rw [hok.own (h1 ▸ mem_cons_of_mem a hb)] at hcl'
      cases hcl'
  dsimp only
  rw [hgeth]
  show ∃ s', (if hd.refcnt - 1 = 0 then _ else _) = Except.ok s' ∧ _
  by_cases hz : hd.refcnt - 1 = 0
  · rw [if_pos hz]
    have hlast : ∀ b ∈ L, s.owner b ≠ some c.head := fun b hb h1 => by
      have h2 : 0 < s.refs L c.head := refs_pos.2 ⟨b, hb, h1⟩
      omega
    obtain ⟨s1, h1, h2, h3, h4⟩ := hs.release hnc hhd
      { hd with refcnt := hd.refcnt - 1, cltype := c.cltype } htype rfl ⟨rfl, rfl⟩
      { hd with refcnt := hd.refcnt - 1 } rfl
    rw [h1]
    have hmem1 : ∀ b, b ≠ c.head → s1.mem b = s.mem b := fun b hb => by
      rw [h2, mem_set, if_neg hb]
    have h5 := hs.drop_last hown hlast hmem1 (by rw [h2, mem_set, if_pos rfl]; exact nofun) h3 h4
    show ∃ s', (if c.head ≠ a then s1.mbufFree c.head >>= fun s => s.mbufFree a
      else s1.mbufFree a) = Except.ok s' ∧ _
    by_cases h6 : c.head = a
    · rw [if_pos h6] at h5
      rw [if_neg (not_not.2 h6)]
      obtain ⟨s2, h7, h8, h9⟩ := h5.mbufFree
      refine ⟨s2, h7, h8, fun b hb cb hcb hcl' => ?_⟩
      rw [h9 b (hne b hb), hmem1 b (hsmall b hb cb hcb hcl')]
      exact hcb
    · rw [if_neg h6] at h5
      rw [if_pos h6]
      obtain ⟨s2, h7, h8, h9⟩ := h5.mbufFree
      obtain ⟨s3, h10, h11, h12⟩ := h8.mbufFree
      rw [h7]
      refine ⟨s3, h10, h11, fun b hb cb hcb hcl' => ?_⟩
      have h13 := hsmall b hb cb hcb hcl'
      rw [h12 b (hne b hb), h9 b h13, hmem1 b h13]
      exact hcb
  · rw [if_neg hz]
    have hmore : ∃ b ∈ L, s.owner b = some c.head := refs_pos.1 (by omega)
    by_cases h6 : c.head = a
    · rw [if_pos h6]
      have h7 := Inv.drop_ref (zombie { hd with refcnt := hd.refcnt - 1 }) hs hown hmore hhd hhdux
        (by unfold zombie; cases hd.cltype <;> simp) (by
          rw [if_pos h6]
          unfold zombie
          cases hd.cltype <;> rfl)
      rw [if_pos h6] at h7
      have h8 : (s.set c.head { hd with refcnt := hd.refcnt - 1 }).set a
          (zombie { hd with refcnt := hd.refcnt - 1 }) =
          s.set c.head (zombie { hd with refcnt := hd.refcnt - 1 }) := by
        rw [h6]
        unfold Heap.set
        dsimp only
        rw [Function.update_idem]
      refine ⟨_, congrArg Except.ok h8, h7, fun b hb cb hcb _ => ?_⟩
      rw [mem_set, if_neg (h6 ▸ hne b hb)]
      exact hcb
    · rw [if_neg h6]
      have h7 := Inv.drop_ref { hd with refcnt := hd.refcnt - 1 } hs hown hmore hhd hhdux
        ⟨rfl, rfl, rfl, rfl, rfl, rfl, rfl, rfl, fun _ => rfl⟩ (by
          rw [if_neg h6]
          exact ⟨rfl, rfl, rfl, rfl⟩)
      rw [if_neg h6] at h7
      obtain ⟨s2, h8, h9, h10⟩ := h7.mbufFree
      refine ⟨s2, h8, h9, fun b hb cb hcb hcl' => ?_⟩
      rw [h10 b (hne b hb), mem_set, if_neg (hsmall b hb cb hcb hcl')]
      exact hcb

end Hpux.Net.Heap
