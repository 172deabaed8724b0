import Hpux910.Lib.Lts
import Mathlib

/-!
# Maps of resources of one size

`getfixedresources` takes a resource from a list that is threaded through the free resources; when
the list is empty, `growmap` gets a disc buffer and carves it up.  The map word is the head of the
list, and while `growmap` waits for the buffer it says that the map is locked, and whether somebody
waits for it.  A process gives up the processor in `geteblk` and in `sleep` only.

* `Word`, `Chain` : a map word or the first word of a resource; the list that begins at a word.
* `growLoop` : a buffer is carved up.
* `St`, `Act`, `St.next`, `lts` : the map and its callers as a transition system.
* `Safe`, `Cond` : what the routines should keep, and when they do.
* `fixed_resources_kept` : every run whose steps meet the condition keeps it.
-/

namespace Hpux.FixedRmap

open List Function

/-- What is in the map word or in the first word of a resource. -/
inductive Word
  /-- `NULL` -/
  | null
  /-- `BUFFER_LOCKED` -/
  | locked
  /-- `BUFFER_WAITING` -/
  | waiting
  | addr (a : ℕ)
  deriving DecidableEq

/-- The map word says that `growmap` is at work. -/
def Word.busy : Word → Bool
  | locked | waiting => true
  | _ => false

/-- The list that begins at a word, and the word at its end. -/
def Chain (mem : ℕ → Word) : Word → List ℕ → Word → Prop
  | w, [], t => w = t ∧ ∀ a, t ≠ .addr a
  | w, a :: l, t => w = .addr a ∧ Chain mem (mem a) l t

section Chain

variable {mem mem' : ℕ → Word} {w t : Word} {l : List ℕ} {a : ℕ}

theorem Chain.congr (h : Chain mem w l t) (hl : ∀ a ∈ l, mem' a = mem a) : Chain mem' w l t := by
  induction l generalizing w with
  | nil => exact h
  | cons a l ih =>
    refine ⟨h.1, ?_⟩
    rw [hl a mem_cons_self]
    exact ih h.2 fun b hb => hl b (mem_cons_of_mem a hb)

theorem Chain.of_addr (h : Chain mem (.addr a) l t) : ∃ m, l = a :: m ∧ Chain mem (mem a) m t := by
  cases l with
  | nil => exact absurd h.1.symm (h.2 a)
  | cons b m =>
    obtain ⟨h1, h2⟩ := h
    obtain rfl := Word.addr.inj h1
    exact ⟨m, rfl, h2⟩

theorem Chain.of_not_addr (h : Chain mem w l t) (hw : ∀ a, w ≠ .addr a) : l = [] ∧ t = w := by
  cases l with
  | nil => exact ⟨rfl, h.1.symm⟩
  | cons a m => exact absurd h.1 (hw a)

end Chain

/-! ### Carving a buffer -/

/-- The starts of `n` resources of the same size. -/
def pieces (size : ℕ) : ℕ → ℕ → List ℕ
  | _, 0 => []
  | b, n + 1 => b :: pieces size (b + size) n

/-- The loop of `growmap`; the first argument bounds the number of rounds. -/
def growLoop (resourcesize : ℕ) (lastbuf : ℤ) : ℕ → ℕ → (ℕ → Word) → ℕ → Word
  | 0, bufp, mem => Function.update mem bufp .null
  | fuel + 1, bufp, mem =>
    if (bufp : ℤ) ≤ lastbuf then
      growLoop resourcesize lastbuf fuel (bufp + resourcesize)
        (Function.update mem bufp (.addr (bufp + resourcesize)))
    else Function.update mem bufp .null

/-- The resource is at least big enough to hold a pointer. -/
def atLeast (resourcesize : ℕ) : ℕ := if resourcesize < 4 then 4 else resourcesize

/-- The memory after a buffer at `bufp` is carved up. -/
def carve (resourcesize buffersize bufp : ℕ) (mem : ℕ → Word) : ℕ → Word :=
  growLoop (atLeast resourcesize)
    ((bufp : ℤ) + buffersize - atLeast resourcesize - atLeast resourcesize) buffersize bufp mem

theorem mem_pieces {size b n a : ℕ} : a ∈ pieces size b n ↔ ∃ j < n, a = b + j * size := by
  induction n generalizing b with
  | zero => simp [pieces]
  | succ n ih =>
    rw [pieces, mem_cons, ih]
    constructor
    · rintro (rfl | ⟨j, hj, rfl⟩)
      · exact ⟨0, by omega, by omega⟩
      · exact ⟨j + 1, by omega, by ring⟩
    · rintro ⟨j, hj, rfl⟩
      cases j with
      | zero => exact .inl (by omega)
      | succ j => exact .inr ⟨j, by omega, by ring⟩

theorem growLoop_other {size : ℕ} {last : ℤ} {fuel b a : ℕ} {mem : ℕ → Word} (ha : a < b) :
    growLoop size last fuel b mem a = mem a := by
  induction fuel generalizing b mem with
  | zero => exact update_of_ne ha.ne _ _
  | succ fuel ih =>
    unfold growLoop
    split
    · rw [ih (by omega), update_of_ne ha.ne]
    · exact update_of_ne ha.ne _ _

/-- The loop links the pieces one after the other. -/
theorem growLoop_chain {size : ℕ} {last : ℤ} {fuel b n : ℕ} {mem : ℕ → Word} (hsize : 0 < size)
    (hn : n ≤ fuel) (hlast : ∀ j : ℕ, j < n ↔ ((b + j * size : ℕ) : ℤ) ≤ last) :
    Chain (growLoop size last fuel b mem) (.addr b) (pieces size b (n + 1)) .null ∧
      ∀ a, a ∉ pieces size b (n + 1) → growLoop size last fuel b mem a = mem a := by
  induction fuel generalizing b n mem with
  | zero =>
    obtain rfl : n = 0 := by omega
    refine ⟨⟨rfl, update_self .., nofun⟩, fun a ha => ?_⟩
    exact update_of_ne (fun h => ha (by simp [pieces, h])) _ _
  | succ fuel ih =>
    have h0 := hlast 0
    simp only [Nat.zero_mul, Nat.add_zero] at h0
    unfold growLoop
    cases n with
    | zero =>
      rw [if_neg (by omega)]
      refine ⟨⟨rfl, update_self .., nofun⟩, fun a ha => ?_⟩
      exact update_of_ne (fun h => ha (by simp [pieces, h])) _ _
    | succ n =>
      rw [if_pos (h0.1 (by omega))]
      obtain ⟨h1, h2⟩ := @ih (b + size) n
        (Function.update mem b (.addr (b + size))) (by omega) <| by
          intro j
          rw [← Nat.succ_lt_succ_iff, hlast (j + 1)]
          ring_nf
      constructor
      · refine ⟨rfl, ?_⟩
        rw [growLoop_other (by omega), update_self]
        exact h1
      · intro a ha
        rw [pieces, mem_cons, not_or] at ha
        rw [h2 a ha.2, update_of_ne ha.1]

/-- A buffer that has room for a resource is carved into as many as fit. -/
theorem carve_chain {resourcesize buffersize b : ℕ} {mem : ℕ → Word}
    (h : atLeast resourcesize ≤ buffersize) :
    let n := buffersize / atLeast resourcesize
    Chain (carve resourcesize buffersize b mem) (.addr b) (pieces (atLeast resourcesize) b n) .null ∧
      ∀ a, a ∉ pieces (atLeast resourcesize) b n →
        carve resourcesize buffersize b mem a = mem a := by
  intro n
  have hpos : 0 < atLeast resourcesize := by
    unfold atLeast
    split <;> omega
  have hn : 1 ≤ n := (Nat.one_le_div_iff hpos).2 h
  have hle : n ≤ buffersize := Nat.div_le_self _ _
  obtain ⟨m, hm⟩ : ∃ m, n = m + 1 := ⟨n - 1, by omega⟩
  rw [hm]
  refine growLoop_chain hpos (by omega) fun j => ?_
  have h1 : j + 2 ≤ n ↔ (j + 2) * atLeast resourcesize ≤ buffersize := Nat.le_div_iff_mul_le hpos
  have h2 : (j + 2) * atLeast resourcesize =
      j * atLeast resourcesize + 2 * atLeast resourcesize := by ring
  rw [h2] at h1
  push_cast
  omega

/-! ### The map and its callers -/

/-- Where a process is: outside, asleep on the map, awake again, or in `geteblk`. -/
inductive Pc
  | idle
  | asleep
  | woken
  | growing
  deriving DecidableEq

/-- The map of one size of resources. -/
structure St (Pid : Type) where
  /-- `*mapp` -/
  map : Word
  /-- the first word of every resource -/
  mem : ℕ → Word
  /-- the buffers that the map has got -/
  bufs : List ℕ
  pc : Pid → Pc
  /-- the resources that a caller has -/
  held : Pid → List ℕ

inductive Act (Pid : Type)
  /-- `getfixedresources`, or its loop after a `wakeup` -/
  | get (p : Pid)
  /-- `geteblk` returns a buffer -/
  | grow (p : Pid) (bufp : ℕ)
  | release (p : Pid) (resource : ℕ)
  /-- a caller writes to the first word of a resource that it has -/
  | use (p : Pid) (resource : ℕ) (w : Word)

variable {Pid : Type}

/-- The new buffer is not where another one is. -/
def St.Fresh (s : St Pid) (buffersize bufp : ℕ) : Prop :=
  ∀ b ∈ s.bufs, bufp + buffersize ≤ b ∨ b + buffersize ≤ bufp

instance (s : St Pid) (buffersize bufp : ℕ) : Decidable (s.Fresh buffersize bufp) :=
  inferInstanceAs (Decidable (∀ b ∈ s.bufs, _))

def St.Enabled (buffersize : ℕ) (s : St Pid) : Act Pid → Prop
  | .get p => s.pc p = .idle ∨ s.pc p = .woken
  | .grow p bufp => s.pc p = .growing ∧ s.Fresh buffersize bufp
  | .release p a => s.pc p = .idle ∧ a ∈ s.held p
  | .use p a _ => a ∈ s.held p

instance (buffersize : ℕ) (s : St Pid) (a : Act Pid) : Decidable (s.Enabled buffersize a) := by
  cases a <;> unfold St.Enabled <;> infer_instance

variable [DecidableEq Pid]

def St.next (resourcesize buffersize : ℕ) (s : St Pid) : Act Pid → St Pid
  | .get p =>
    match s.map with
    | .locked | .waiting => { s with map := .waiting, pc := Function.update s.pc p .asleep }
    | .null => { s with map := .locked, pc := Function.update s.pc p .growing }
    | .addr a =>
      { s with
        map := s.mem a
        pc := Function.update s.pc p .idle
        held := Function.update s.held p (a :: s.held p) }
  | .grow p bufp =>
    let pc := fun q =>
      if s.map = .waiting ∧ s.pc q = .asleep then .woken else s.pc q
    let mem := carve resourcesize buffersize bufp s.mem
    { map := mem bufp
      mem := mem
      bufs := bufp :: s.bufs
      pc := Function.update pc p .idle
      held := Function.update s.held p (bufp :: s.held p) }
  | .release p a =>
    { s with
      mem := Function.update s.mem a s.map
      map := .addr a
      held := Function.update s.held p ((s.held p).erase a) }
  | .use _ a w => { s with mem := Function.update s.mem a w }

/-- One map and any number of processes. -/
def lts (resourcesize buffersize : ℕ) : Lts (St Pid) (Act Pid) where
  init s := s.map = .null ∧ s.bufs = [] ∧ (∀ p, s.pc p = .idle) ∧ ∀ p, s.held p = []
  step s a s' := s.Enabled buffersize a ∧ s' = s.next resourcesize buffersize a

/-- The resources that have been carved from the buffers: as many as fit, but at least one. -/
def St.chunks (resourcesize buffersize : ℕ) (s : St Pid) : List ℕ :=
  s.bufs.flatMap fun b =>
    pieces (atLeast resourcesize) b (max 1 (buffersize / atLeast resourcesize))

/-- What the routines should keep. -/
structure Safe (resourcesize buffersize : ℕ) (s : St Pid) : Prop where
  /-- Every resource is on the list once, or has exactly one holder, who has it once. -/
  once : ∃ l t, Chain s.mem s.map l t ∧ l.Nodup ∧ (∀ a ∈ l, a ∈ s.chunks resourcesize buffersize) ∧
    ∀ a ∈ s.chunks resourcesize buffersize, (a ∈ l ∧ ∀ p, a ∉ s.held p) ∨ (a ∉ l ∧ ∃! p, a ∈ s.held p)
  held : ∀ p, (s.held p).Nodup ∧ ∀ a ∈ s.held p, a ∈ s.chunks resourcesize buffersize
  /-- No resource runs past its buffer or into another one. -/
  inside : ∀ a ∈ s.chunks resourcesize buffersize,
    ∃ b ∈ s.bufs, b ≤ a ∧ a + resourcesize ≤ b + buffersize
  apart : (s.chunks resourcesize buffersize).Pairwise
    fun a b => a + resourcesize ≤ b ∨ b + resourcesize ≤ a
  /-- Nobody sleeps on the map when nobody is growing it. -/
  awake : (∀ p, s.pc p ≠ .growing) → ∀ p, s.pc p ≠ .asleep

/-- The condition on a step: when `geteblk` returns, the map word still says that the map is locked
(nothing has been released meanwhile that is not taken again), and a buffer has room for a
resource. -/
def Cond (resourcesize buffersize : ℕ) (s : St Pid) : Act Pid → Prop
  | .grow _ _ => s.map.busy = true ∧ atLeast resourcesize ≤ buffersize
  | _ => True

omit [DecidableEq Pid] in
instance (resourcesize buffersize : ℕ) (s : St Pid) (a : Act Pid) :
    Decidable (Cond resourcesize buffersize s a) := by
  cases a <;> unfold Cond <;> infer_instance

/-! ### The invariant -/

variable {resourcesize buffersize : ℕ} {s : St Pid}

/-- The list is `l` and the word at its end is `t`. -/
structure Inv (resourcesize buffersize : ℕ) (s : St Pid) (l : List ℕ) (t : Word) : Prop where
  chain : Chain s.mem s.map l t
  nodup : l.Nodup
  free : ∀ a ∈ l, a ∈ s.chunks resourcesize buffersize ∧ ∀ p, a ∉ s.held p
  held : ∀ p, (s.held p).Nodup ∧ ∀ a ∈ s.held p, a ∈ s.chunks resourcesize buffersize
  one : ∀ p q a, a ∈ s.held p → a ∈ s.held q → p = q
  all : ∀ a ∈ s.chunks resourcesize buffersize, a ∈ l ∨ ∃ p, a ∈ s.held p
  bufs : s.bufs.Pairwise fun a b => a + buffersize ≤ b ∨ b + buffersize ≤ a
  room : s.bufs ≠ [] → atLeast resourcesize ≤ buffersize
  grower : ∀ p q, s.pc p = .growing → s.pc q = .growing → p = q
  unlocked : t = .null → ∀ p, s.pc p ≠ .growing ∧ s.pc p ≠ .asleep
  locked : t ≠ .null → t.busy = true ∧ ∃ p, s.pc p = .growing
  sleepers : ∀ p, s.pc p = .asleep → t = .waiting

omit [DecidableEq Pid] in
theorem size_le (resourcesize : ℕ) : resourcesize ≤ atLeast resourcesize ∧ 0 < atLeast resourcesize := by
  unfold atLeast
  split <;> omega

omit [DecidableEq Pid] in
/-- Where a resource lies. -/
theorem mem_chunks (h : s.bufs ≠ [] → atLeast resourcesize ≤ buffersize) {a : ℕ}
    (ha : a ∈ s.chunks resourcesize buffersize) :
    ∃ b ∈ s.bufs, b ≤ a ∧ a + atLeast resourcesize ≤ b + buffersize ∧
      ∃ j, a = b + j * atLeast resourcesize := by
  obtain ⟨b, hb, ha⟩ := mem_flatMap.1 ha
  have hfit := h (ne_nil_of_mem hb)
  have hpos := (size_le resourcesize).2
  obtain ⟨j, hj, rfl⟩ := mem_pieces.1 ha
  have hn : 1 ≤ buffersize / atLeast resourcesize := (Nat.one_le_div_iff hpos).2 hfit
  rw [max_eq_right hn] at hj
  refine ⟨b, hb, by omega, ?_, j, rfl⟩
  have h1 : (j + 1) * atLeast resourcesize ≤ buffersize :=
    (Nat.le_div_iff_mul_le hpos).1 hj
  have h2 : (j + 1) * atLeast resourcesize = j * atLeast resourcesize + atLeast resourcesize := by
    ring
  omega

omit [DecidableEq Pid] in
theorem pieces_apart (size b n : ℕ) : (pieces size b n).Pairwise fun a c => a + size ≤ c := by
  induction n generalizing b with
  | zero => exact .nil
  | succ n ih =>
    refine pairwise_cons.2 ⟨fun a ha => ?_, ih (b + size)⟩
    obtain ⟨j, -, rfl⟩ := mem_pieces.1 ha
    omega

omit [DecidableEq Pid] in
/-- Two resources do not overlap. -/
theorem chunks_apart (h : s.bufs ≠ [] → atLeast resourcesize ≤ buffersize)
    (hb : s.bufs.Pairwise fun a b => a + buffersize ≤ b ∨ b + buffersize ≤ a) :
    (s.chunks resourcesize buffersize).Pairwise
      fun a b => a + atLeast resourcesize ≤ b ∨ b + atLeast resourcesize ≤ a := by
  have hpos := (size_le resourcesize).2
  refine pairwise_flatMap.2 ⟨fun b _ => (pieces_apart _ b _).imp .inl, ?_⟩
  refine hb.imp_of_mem ?_
  intro b c hbm _ hbc a ha d hd
  have hfit := h (ne_nil_of_mem hbm)
  have hn : 1 ≤ buffersize / atLeast resourcesize := (Nat.one_le_div_iff hpos).2 hfit
  have hin : ∀ {x y : ℕ}, y ∈ pieces (atLeast resourcesize) x
      (max 1 (buffersize / atLeast resourcesize)) →
      x ≤ y ∧ y + atLeast resourcesize ≤ x + buffersize := by
    intro x y hy
    obtain ⟨j, hj, rfl⟩ := mem_pieces.1 hy
    rw [max_eq_right hn] at hj
    have h2 : (j + 1) * atLeast resourcesize ≤ buffersize := (Nat.le_div_iff_mul_le hpos).1 hj
    have h3 : (j + 1) * atLeast resourcesize =
        j * atLeast resourcesize + atLeast resourcesize := by ring
    omega
  have h4 := hin ha
  have h5 := hin hd
  rcases hbc with h6 | h6 <;> omega

omit [DecidableEq Pid] in
theorem Inv.safe {l : List ℕ} {t : Word} (h : Inv resourcesize buffersize s l t) :
    Safe resourcesize buffersize s where
  once := by
    refine ⟨l, t, h.chain, h.nodup, fun a ha => (h.free a ha).1, fun a ha => ?_⟩
    by_cases hal : a ∈ l
    · exact .inl ⟨hal, (h.free a hal).2⟩
    · obtain ⟨p, hp⟩ := (h.all a ha).resolve_left hal
      exact .inr ⟨hal, p, hp, fun q hq => h.one q p a hq hp⟩
  held := h.held
  inside a ha := by
    obtain ⟨b, hb, h1, h2, -⟩ := mem_chunks h.room ha
    have := (size_le resourcesize).1
    exact ⟨b, hb, h1, by omega⟩
  apart := by
    have := (size_le resourcesize).1
    exact (chunks_apart h.room h.bufs).imp fun {a b} h1 => by omega
  awake hg p hp := by
    have ht : t ≠ .null := by
      rw [h.sleepers p hp]
      exact nofun
    obtain ⟨-, q, hq⟩ := h.locked ht
    exact hg q hq

/-! ### Steps -/

variable {l : List ℕ} {t : Word} {p : Pid} {a : ℕ}

theorem growing_update {pc : Pid → Pc} {c : Pc} (hp : pc p ≠ .growing) (hc : c ≠ .growing) (q : Pid) :
    Function.update pc p c q = .growing ↔ pc q = .growing := by
  by_cases hq : q = p
  · rw [hq, update_self]
    exact iff_of_false hc hp
  · rw [update_of_ne hq]

theorem Inv.get (h : Inv resourcesize buffersize s l t) (hp : s.pc p = .idle ∨ s.pc p = .woken) :
    ∃ l' t', Inv resourcesize buffersize (s.next resourcesize buffersize (.get p)) l' t' := by
  have hng : s.pc p ≠ .growing := by
    rcases hp with hp | hp <;> rw [hp] <;> exact nofun
  have hbusy : s.map.busy = true →
      Inv resourcesize buffersize
        { s with map := .waiting, pc := Function.update s.pc p .asleep } [] .waiting := by
    intro hb
    obtain ⟨rfl, rfl⟩ := h.chain.of_not_addr (w := s.map) fun a ha => by
      rw [ha] at hb
      exact Bool.noConfusion hb
    have hg := @growing_update Pid _ p s.pc .asleep hng nofun
    obtain ⟨-, g, hgg⟩ := h.locked fun h1 => by
      rw [h1] at hb
      exact Bool.noConfusion hb
    exact ⟨⟨rfl, nofun⟩, .nil, nofun, h.held, h.one, h.all, h.bufs, h.room,
      fun q r hq hr => h.grower q r ((hg q).1 hq) ((hg r).1 hr), nofun,
      fun _ => ⟨rfl, g, (hg g).2 hgg⟩, fun _ _ => rfl⟩
  unfold St.next
  cases hmap : s.map with
  | locked => exact ⟨[], .waiting, hbusy (by rw [hmap]; rfl)⟩
  | waiting => exact ⟨[], .waiting, hbusy (by rw [hmap]; rfl)⟩
  | null =>
    have hch := h.chain
    rw [hmap] at hch
    obtain ⟨rfl, rfl⟩ := hch.of_not_addr nofun
    have hno := h.unlocked rfl
    refine ⟨[], .locked, ⟨rfl, nofun⟩, .nil, nofun, h.held, h.one, h.all, h.bufs, h.room, ?_, nofun,
      fun _ => ⟨rfl, p, update_self ..⟩, ?_⟩
    · have honly : ∀ q, Function.update s.pc p .growing q = .growing → q = p := by
        intro q hq
        by_contra hqp
        rw [update_of_ne hqp] at hq
        exact (hno q).1 hq
      exact fun q r hq hr => (honly q hq).trans (honly r hr).symm
    · intro q hq
      by_cases hqp : q = p
      · rw [hqp] at hq
        exact nomatch (update_self ..).symm.trans hq
      · exact absurd ((update_of_ne hqp _ _).symm.trans hq) (hno q).2
  | addr a =>
    have hch := h.chain
    rw [hmap] at hch
    obtain ⟨m, rfl, hm⟩ := hch.of_addr
    obtain ⟨ham, hmnd⟩ := nodup_cons.1 h.nodup
    obtain ⟨hac, hafree⟩ := h.free a mem_cons_self
    have hg := @growing_update Pid _ p s.pc .idle hng nofun
    have hheld : ∀ q b, b ∈ Function.update s.held p (a :: s.held p) q ↔
        b ∈ s.held q ∨ q = p ∧ b = a := by
      intro q b
      by_cases hqp : q = p
      · rw [hqp, update_self, mem_cons]
        tauto
      · rw [update_of_ne hqp]
        tauto
    refine ⟨m, t, hm, hmnd, ?_, ?_, ?_, ?_, h.bufs, h.room,
      fun q r hq hr => h.grower q r ((hg q).1 hq) ((hg r).1 hr), ?_, ?_, ?_⟩
    · intro b hb
      obtain ⟨h1, h2⟩ := h.free b (mem_cons_of_mem a hb)
      refine ⟨h1, fun q hq => ?_⟩
      rcases (hheld q b).1 hq with h3 | ⟨-, rfl⟩
      · exact h2 q h3
      · exact ham hb
    · intro q
      constructor
      · by_cases hqp : q = p
        · rw [hqp]
          simp only [update_self]
          exact nodup_cons.2 ⟨hafree p, (h.held p).1⟩
        · simp only [update_of_ne hqp]
          exact (h.held q).1
      · intro b hb
        rcases (hheld q b).1 hb with h3 | ⟨-, rfl⟩
        · exact (h.held q).2 b h3
        · exact hac
    · intro q r b hq hr
      rcases (hheld q b).1 hq with h3 | ⟨rfl, rfl⟩ <;> rcases (hheld r b).1 hr with h4 | ⟨rfl, h5⟩
      · exact h.one q r b h3 h4
      · rw [h5] at h3
        exact absurd h3 (hafree q)
      · exact absurd h4 (hafree r)
      · rfl
    · intro b hb
      rcases h.all b hb with h1 | ⟨q, hq⟩
      · rcases mem_cons.1 h1 with rfl | h1
        · exact .inr ⟨p, (hheld p b).2 (.inr ⟨rfl, rfl⟩)⟩
        · exact .inl h1
      · exact .inr ⟨q, (hheld q b).2 (.inl hq)⟩
    · intro ht q
      refine ⟨fun hq => (h.unlocked ht q).1 ((hg q).1 hq), fun hq => ?_⟩
      by_cases hqp : q = p
      · rw [hqp] at hq
        exact nomatch (update_self ..).symm.trans hq
      · exact (h.unlocked ht q).2 ((update_of_ne hqp _ _).symm.trans hq)
    · intro ht
      obtain ⟨h1, g, hgg⟩ := h.locked ht
      exact ⟨h1, g, (hg g).2 hgg⟩
    · intro q hq
      by_cases hqp : q = p
      · rw [hqp] at hq
        exact nomatch (update_self ..).symm.trans hq
      · exact h.sleepers q ((update_of_ne hqp _ _).symm.trans hq)

theorem Inv.release (h : Inv resourcesize buffersize s l t) (ha : a ∈ s.held p) :
    Inv resourcesize buffersize (s.next resourcesize buffersize (.release p a)) (a :: l) t := by
  have hal : a ∉ l := fun hl => (h.free a hl).2 p ha
  have hheld : ∀ q b, b ∈ Function.update s.held p ((s.held p).erase a) q ↔
      b ∈ s.held q ∧ ¬(q = p ∧ b = a) := by
    intro q b
    by_cases hqp : q = p
    · rw [hqp, update_self, (h.held p).1.mem_erase_iff]
      tauto
    · rw [update_of_ne hqp]
      tauto
  refine ⟨⟨rfl, ?_⟩, nodup_cons.2 ⟨hal, h.nodup⟩, ?_, ?_, ?_, ?_, h.bufs, h.room, h.grower,
    h.unlocked, h.locked, h.sleepers⟩
  · simp only [St.next, update_self]
    refine h.chain.congr fun b hb => update_of_ne ?_ _ _
    rintro rfl
    exact hal hb
  · intro b hb
    rcases mem_cons.1 hb with rfl | hb
    · refine ⟨(h.held p).2 b ha, fun q hq => ?_⟩
      obtain ⟨h1, h2⟩ := (hheld q b).1 hq
      exact h2 ⟨h.one q p b h1 ha, rfl⟩
    · exact ⟨(h.free b hb).1, fun q hq => (h.free b hb).2 q ((hheld q b).1 hq).1⟩
  · intro q
    refine ⟨?_, fun b hb => (h.held q).2 b ((hheld q b).1 hb).1⟩
    by_cases hqp : q = p
    · simp only [St.next, hqp, update_self]
      exact (h.held p).1.erase a
    · simp only [St.next, update_of_ne hqp]
      exact (h.held q).1
  · exact fun q r b hq hr => h.one q r b ((hheld q b).1 hq).1 ((hheld r b).1 hr).1
  · intro b hb
    by_cases hba : b = a
    · exact .inl (hba ▸ mem_cons_self)
    · rcases h.all b hb with h1 | ⟨q, hq⟩
      · exact .inl (mem_cons_of_mem a h1)
      · exact .inr ⟨q, (hheld q b).2 ⟨hq, fun h2 => hba h2.2⟩⟩

omit [DecidableEq Pid] in
theorem Inv.use {w : Word} (h : Inv resourcesize buffersize s l t) (ha : a ∈ s.held p) :
    Inv resourcesize buffersize { s with mem := Function.update s.mem a w } l t :=
  ⟨h.chain.congr fun b hb =>
      update_of_ne (fun hba => (h.free b hb).2 p (by rw [hba]; exact ha)) _ _,
    h.nodup, h.free, h.held, h.one, h.all, h.bufs, h.room, h.grower, h.unlocked, h.locked,
    h.sleepers⟩

/-- A buffer comes when nothing has been released meanwhile. -/
theorem Inv.grow {b : ℕ} (h : Inv resourcesize buffersize s l t) (hp : s.pc p = .growing)
    (hfresh : s.Fresh buffersize b) (hbusy : s.map.busy = true)
    (hroom : atLeast resourcesize ≤ buffersize) :
    ∃ l', Inv resourcesize buffersize (s.next resourcesize buffersize (.grow p b)) l' .null := by
  obtain ⟨rfl, rfl⟩ := h.chain.of_not_addr (w := s.map) fun a ha => by
    rw [ha] at hbusy
    exact Bool.noConfusion hbusy
  obtain ⟨hch, hother⟩ := @carve_chain resourcesize buffersize b s.mem hroom
  have hpos := (size_le resourcesize).2
  have hn : 1 ≤ buffersize / atLeast resourcesize := (Nat.one_le_div_iff hpos).2 hroom
  obtain ⟨n, hn'⟩ : ∃ n, buffersize / atLeast resourcesize = n + 1 :=
    ⟨buffersize / atLeast resourcesize - 1, by omega⟩
  rw [hn'] at hch
  have hnew : (s.next resourcesize buffersize (.grow p b)).chunks resourcesize buffersize =
      pieces (atLeast resourcesize) b (n + 1) ++ s.chunks resourcesize buffersize := by
    have hmax : max 1 (n + 1) = n + 1 := by omega
    simp only [St.chunks, St.next, flatMap_cons, hn', hmax]
  have hbufs : (b :: s.bufs).Pairwise fun a b => a + buffersize ≤ b ∨ b + buffersize ≤ a :=
    pairwise_cons.2 ⟨hfresh, h.bufs⟩
  -- the new resources are not among the old ones
  have hapart := @chunks_apart Pid resourcesize buffersize
    (s.next resourcesize buffersize (.grow p b)) (fun _ => hroom) hbufs
  rw [hnew] at hapart
  have hdis : ∀ a ∈ pieces (atLeast resourcesize) b (n + 1),
      a ∉ s.chunks resourcesize buffersize := by
    intro a ha hac
    have h1 := (pairwise_append.1 hapart).2.2 a ha a hac
    omega
  have hnd : (pieces (atLeast resourcesize) b (n + 1)).Nodup :=
    (pairwise_append.1 hapart).1.imp fun {x y} h1 h2 => by omega
  obtain ⟨hbn, hnd'⟩ := nodup_cons.1 hnd
  have hheld : ∀ q x, x ∈ Function.update s.held p (b :: s.held p) q ↔
      x ∈ s.held q ∨ q = p ∧ x = b := by
    intro q x
    by_cases hqp : q = p
    · rw [hqp, update_self, mem_cons]
      tauto
    · rw [update_of_ne hqp]
      tauto
  have hbmem : b ∈ pieces (atLeast resourcesize) b (n + 1) := mem_cons_self
  have hbfree : ∀ q, b ∉ s.held q := fun q hq => hdis b hbmem ((h.held q).2 b hq)
  -- whoever was asleep is awake, and nobody grows the map
  have hpc : ∀ q, (s.next resourcesize buffersize (.grow p b)).pc q ≠ .growing ∧
      (s.next resourcesize buffersize (.grow p b)).pc q ≠ .asleep := by
    intro q
    by_cases hqp : q = p
    · simp only [St.next, hqp, update_self]
      exact ⟨nofun, nofun⟩
    · simp only [St.next, update_of_ne hqp]
      split
      · exact ⟨nofun, nofun⟩
      · rename_i h1
        exact ⟨fun h2 => hqp (h.grower q p h2 hp), fun h2 => h1 ⟨h.sleepers q h2, h2⟩⟩
  refine ⟨pieces (atLeast resourcesize) (b + atLeast resourcesize) n, hch.2, hnd', ?_, ?_, ?_, ?_,
    hbufs, fun _ => hroom, fun q _ hq => absurd hq (hpc q).1, fun _ => hpc, fun h1 => absurd rfl h1,
    fun q hq => absurd hq (hpc q).2⟩
  · intro a ha
    have ha' : a ∈ pieces (atLeast resourcesize) b (n + 1) := mem_cons_of_mem b ha
    rw [hnew]
    refine ⟨mem_append_left _ ha', fun q hq => ?_⟩
    rcases (hheld q a).1 hq with h1 | ⟨-, rfl⟩
    · exact hdis a ha' ((h.held q).2 a h1)
    · exact hbn ha
  · intro q
    rw [hnew]
    constructor
    · by_cases hqp : q = p
      · simp only [St.next, hqp, update_self]
        exact nodup_cons.2 ⟨hbfree p, (h.held p).1⟩
      · simp only [St.next, update_of_ne hqp]
        exact (h.held q).1
    · intro a ha
      rcases (hheld q a).1 ha with h1 | ⟨-, rfl⟩
      · exact mem_append_right _ ((h.held q).2 a h1)
      · exact mem_append_left _ hbmem
  · intro q r a hq hr
    rcases (hheld q a).1 hq with h3 | ⟨rfl, rfl⟩ <;> rcases (hheld r a).1 hr with h4 | ⟨rfl, h5⟩
    · exact h.one q r a h3 h4
    · rw [h5] at h3
      exact absurd h3 (hbfree q)
    · exact absurd h4 (hbfree r)
    · rfl
  · intro a ha
    rw [hnew] at ha
    rcases mem_append.1 ha with h1 | h1
    · rcases mem_cons.1 h1 with rfl | h1
      · exact .inr ⟨p, (hheld p a).2 (.inr ⟨rfl, rfl⟩)⟩
      · exact .inl h1
    · obtain ⟨q, hq⟩ := (h.all a h1).resolve_left not_mem_nil
      exact .inr ⟨q, (hheld q a).2 (.inl hq)⟩

theorem Inv.next {act : Act Pid} (h : Inv resourcesize buffersize s l t)
    (hc : Cond resourcesize buffersize s act) (he : s.Enabled buffersize act) :
    ∃ l' t', Inv resourcesize buffersize (s.next resourcesize buffersize act) l' t' := by
  cases act with
  | get p => exact h.get he
  | grow p b =>
    obtain ⟨l', hl'⟩ := h.grow he.1 he.2 hc.1 hc.2
    exact ⟨l', .null, hl'⟩
  | release p a => exact ⟨a :: l, t, h.release he.2⟩
  | use p a w => exact ⟨l, t, h.use he⟩

/-- In every run of any number of processes whose steps meet the condition, every resource is on the
list once or held by one caller, resources lie apart and inside their buffers, and nobody sleeps on
the map when it is not being grown. -/
theorem fixed_resources_kept (resourcesize buffersize : ℕ) :
    ∀ s : St Pid, ((lts resourcesize buffersize).restrict (Cond resourcesize buffersize)).Reach s →
      Safe resourcesize buffersize s := by
  intro s hr
  obtain ⟨l, t, h⟩ : ∃ l t, Inv resourcesize buffersize s l t := by
    refine hr.inv (I := fun s => ∃ l t, Inv resourcesize buffersize s l t) ?_ ?_
    · rintro s ⟨h1, h2, h3, h4⟩
      have hnone : s.chunks resourcesize buffersize = [] := by
        rw [St.chunks, h2]
        rfl
      refine ⟨[], .null, ⟨h1, nofun⟩, .nil, nofun, fun p => ?_, fun p q a ha => ?_, ?_, ?_, ?_, ?_, ?_,
        fun h => absurd rfl h, ?_⟩
      · rw [h4]
        exact ⟨.nil, nofun⟩
      · rw [h4] at ha
        cases ha
      · rw [hnone]
        exact nofun
      · rw [h2]
        exact .nil
      · exact fun h => absurd h2 h
      · intro p q hp
        rw [h3] at hp
        cases hp
      · intro _ p
        rw [h3]
        exact ⟨nofun, nofun⟩
      · intro p hp
        rw [h3] at hp
        cases hp
    · rintro s a s' - ⟨l, t, h⟩ ⟨hc, he, rfl⟩
      exact h.next hc he
  exact h.safe

/-! ### Concrete runs -/

/-- Nothing has been asked for. -/
def empty : St (Fin 3) where
  map := .null
  mem _ := .null
  bufs := []
  pc _ := .idle
  held _ := []

/-- A process waits for the first buffer and sleeps while another gets it. -/
theorem fixed_resources_kept_wait :
    ∃ s : St (Fin 3), ((lts 8 24).restrict (Cond 8 24)).Reach s ∧ s.held 0 = [100] ∧
      s.held 1 = [108] ∧ Safe 8 24 s := by
  have hrun : Lts.Follows (fun s a => Cond 8 24 s a ∧ s.Enabled 24 a) (St.next 8 24) empty
      [.get 0, .get 1, .grow 0 100, .get 1] := by decide +kernel
  have hreach := Lts.Reach.follows (A := (lts 8 24).restrict (Cond 8 24))
    (.init ⟨rfl, rfl, fun _ => rfl, fun _ => rfl⟩) (fun s a h => ⟨h.1, h.2, rfl⟩) hrun
  exact ⟨_, hreach, by decide +kernel, by decide +kernel, fixed_resources_kept 8 24 _ hreach⟩

/-- Process 0 has the only resource; process 1 grows the map, process 2 sleeps on it, and process 0
gives its resource back before the buffer comes: the resource is on no list and process 2 is not
woken. -/
theorem release_while_growing :
    ∃ s : St (Fin 3), (lts 8 8).Reach s ∧ (∀ p, s.pc p ≠ .growing) ∧ s.pc 2 = .asleep ∧
      100 ∈ s.chunks 8 8 ∧ s.map = .null ∧ (∀ p, 100 ∉ s.held p) ∧ ¬Safe 8 8 s := by
  have hrun : Lts.Follows (fun s a => s.Enabled 8 a) (St.next 8 8) empty
      [.get 0, .grow 0 100, .get 1, .get 2, .release 0 100, .grow 1 200] := by decide +kernel
  have hreach := Lts.Reach.follows (A := lts 8 8) (.init ⟨rfl, rfl, fun _ => rfl, fun _ => rfl⟩)
    (fun s a h => ⟨h, rfl⟩) hrun
  refine ⟨_, hreach, by decide +kernel, by decide +kernel, by decide +kernel, by decide +kernel,
    by decide +kernel, fun hsafe => ?_⟩
  exact hsafe.awake (by decide +kernel) 2 (by decide +kernel)

end Hpux.FixedRmap
