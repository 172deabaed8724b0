import Mathlib

/-!
# Search trees with values at the leaves

The nodes of a B-tree whose values are all at the bottom.  A node at the bottom is a list of keys
with values.  A node above has a list of keys with children, the child of a key being responsible
for the keys from there to the next one, and possibly a child in front of the first key.

* `Node` : the nodes of a given height.
* `flat` : the keys and values of a node from left to right.
* `Chain`, `Fits` : a node is responsible for a range of keys, and its rows are not too long.
* `child`, `enter` : the way down to the child that is responsible for a key, for a look and for a
  change that may split the child.
* `Fits.sorted`, `Chain.child_spec`, `Chain.enter_spec` : what they do to `flat`.
* `nodes`, `Filled` : the number of nodes, and trees whose rows are not too short either;
  `Filled.nodes_le`, `Filled.pow_le` : such a tree has few nodes and is not high.
-/

namespace Hpux

namespace KeyTree

open List

variable {α β : Type*}

/-! ### Lists of keys -/

/-- The keys of a list increase. -/
def Sorted (l : List (ℕ × β)) : Prop := l.Pairwise fun a b => a.1 < b.1

/-- Put an entry in front of the first one with a larger key. -/
def insertAt (key : ℕ) (v : β) : List (ℕ × β) → List (ℕ × β)
  | [] => [(key, v)]
  | e :: rest => if e.1 > key then (key, v) :: e :: rest else e :: insertAt key v rest

section Insert

variable {key : ℕ} {v : β} {A B : List (ℕ × β)}

@[simp] theorem insertAt_nil : insertAt key v [] = [(key, v)] := rfl

theorem insertAt_cons (e : ℕ × β) (l : List (ℕ × β)) : insertAt key v (e :: l) =
    if e.1 > key then (key, v) :: e :: l else e :: insertAt key v l := rfl

@[simp] theorem length_insertAt (l : List (ℕ × β)) : (insertAt key v l).length = l.length + 1 := by
  induction l with
  | nil => rfl
  | cons e l ih =>
    rw [insertAt_cons]
    split_ifs <;> simp [ih]

theorem insertAt_append_right (h : ∀ e ∈ A, e.1 ≤ key) :
    insertAt key v (A ++ B) = A ++ insertAt key v B := by
  induction A with
  | nil => rfl
  | cons e A ih =>
    have he := h e (by simp)
    rw [cons_append, insertAt_cons, if_neg (by omega), ih fun f hf => h f (by simp [hf])]
    rfl

theorem insertAt_append_left (h : ∀ e ∈ B, key < e.1) :
    insertAt key v (A ++ B) = insertAt key v A ++ B := by
  induction A with
  | nil =>
    cases B with
    | nil => rfl
    | cons e B =>
      have he := h e (by simp)
      simp [insertAt_cons, he]
  | cons e A ih =>
    simp only [cons_append, insertAt_cons]
    split_ifs
    · rfl
    · rw [ih, cons_append]

theorem mem_insertAt {l : List (ℕ × β)} {e : ℕ × β} : e ∈ insertAt key v l ↔ e = (key, v) ∨ e ∈ l := by
  induction l with
  | nil => simp
  | cons f l ih =>
    rw [insertAt_cons]
    split_ifs
    · simp
    · simp only [mem_cons, ih]
      tauto

theorem Sorted.insertAt {l : List (ℕ × β)} (h : Sorted l) (hkey : ∀ e ∈ l, e.1 ≠ key) :
    Sorted (insertAt key v l) := by
  induction l with
  | nil => exact pairwise_singleton ..
  | cons e l ih =>
    obtain ⟨h1, h2⟩ := pairwise_cons.1 h
    rw [insertAt_cons]
    split_ifs with hgt
    · refine pairwise_cons.2 ⟨fun f hf => ?_, h⟩
      rcases mem_cons.1 hf with rfl | hf
      · exact hgt
      · exact lt_trans hgt (h1 f hf)
    · refine pairwise_cons.2 ⟨fun f hf => ?_, ih h2 fun f hf => hkey f (by simp [hf])⟩
      have he := hkey e (by simp)
      rcases mem_insertAt.1 hf with rfl | hf
      · show e.1 < key
        omega
      · exact h1 f hf

theorem Sorted.append (hA : Sorted A) (hB : Sorted B) (k : ℕ) (h : ∀ e ∈ A, e.1 < k)
    (h' : ∀ e ∈ B, k ≤ e.1) : Sorted (A ++ B) :=
  pairwise_append.2 ⟨hA, hB, fun a ha b hb => lt_of_lt_of_le (h a ha) (h' b hb)⟩

end Insert

/-! ### Nodes -/

/-- The nodes of height `d`. -/
def Node (α : Type*) : ℕ → Type _
  | 0 => List (ℕ × α)
  | d + 1 => Option (Node α d) × List (ℕ × Node α d)

section Row

variable (G : β → List (ℕ × α)) (P : ℕ → ℕ → β → Prop)

/-- The entries below a row of children. -/
def row (cur : Option β) (ps : List (ℕ × β)) : List (ℕ × α) :=
  cur.elim [] G ++ ps.flatMap fun e => G e.2

/-- The child in front of key `k`, when there is one. -/
def Below (lo k : ℕ) : Option β → Prop
  | none => k = lo
  | some c => lo < k ∧ P lo k c

/-- The children of a row divide the keys from `lo` up to `hi` among them. -/
def Chain : ℕ → ℕ → Option β → List (ℕ × β) → Prop
  | lo, hi, cur, [] => ∃ c, cur = some c ∧ P lo hi c
  | lo, hi, cur, (k, c) :: rest => Below P lo k cur ∧ k < hi ∧ Chain k hi (some c) rest

end Row

/-- The key where the child in front of a row ends. -/
def nextKey (hi : ℕ) : List (ℕ × β) → ℕ
  | [] => hi
  | e :: _ => e.1

/-- The same for the children that have a key. -/
def Rows (P : ℕ → ℕ → β → Prop) (hi : ℕ) : List (ℕ × β) → Prop
  | [] => True
  | (k, c) :: rest => k < nextKey hi rest ∧ P k (nextKey hi rest) c ∧ Rows P hi rest

/-- The entries of a node from left to right. -/
def flat : ∀ d, Node α d → List (ℕ × α)
  | 0, l => l
  | d + 1, n => row (flat d) n.1 n.2

/-- A leaf for the keys from `lo` up to `hi` with at most `ord` entries. -/
def LeafFits (ord lo hi : ℕ) (l : List (ℕ × α)) : Prop :=
  l.length ≤ ord ∧ Sorted l ∧ ∀ e ∈ l, lo ≤ e.1 ∧ e.1 < hi

/-- The node is responsible for the keys from `lo` up to `hi`, and its rows have at most `ord`
keys. -/
def Fits (ord : ℕ) : ∀ d, ℕ → ℕ → Node α d → Prop
  | 0, lo, hi, l => LeafFits ord lo hi l
  | d + 1, lo, hi, n => n.2 ≠ [] ∧ n.2.length ≤ ord ∧ Chain (Fits ord d) lo hi n.1 n.2

/-- The child that is responsible for the key: the one in front of the first larger key. -/
def child (key : ℕ) : Option β → List (ℕ × β) → Option β
  | cur, [] => cur
  | cur, (k, c) :: rest =>
    if k ≥ key then (if k = key then some c else cur) else child key (some c) rest

/-- Let `f` change that child.  `f` may split it: then it gives the new right half with its key. -/
def enter (key : ℕ) (f : β → Option (β × Option (ℕ × β))) :
    Option β → List (ℕ × β) → Option (Option β × List (ℕ × β) × Option (ℕ × β))
  | cur, [] => (cur.bind f).map fun (c, sp) => (some c, [], sp)
  | cur, (k, c) :: rest =>
    if k ≥ key then
      if k = key then (f c).map fun (c, sp) => (cur, (k, c) :: rest, sp)
      else (cur.bind f).map fun (c', sp) => (some c', (k, c) :: rest, sp)
    else (enter key f (some c) rest).bind fun (c, rest, sp) =>
      c.map fun c => (cur, (k, c) :: rest, sp)

section Chains

variable {G : β → List (ℕ × α)} {P : ℕ → ℕ → β → Prop} {lo hi key : ℕ} {cur : Option β}
  {ps : List (ℕ × β)}

theorem chain_cons (k : ℕ) (c : β) : Chain P lo hi cur ((k, c) :: ps) ↔
    Below P lo k cur ∧ k < hi ∧ Chain P k hi (some c) ps := Iff.rfl

theorem rows_cons (k : ℕ) (c : β) : Rows P hi ((k, c) :: ps) ↔
    k < nextKey hi ps ∧ P k (nextKey hi ps) c ∧ Rows P hi ps := Iff.rfl

theorem child_cons (k : ℕ) (c : β) : child key cur ((k, c) :: ps) =
    if k ≥ key then (if k = key then some c else cur) else child key (some c) ps := rfl

theorem row_cons (k : ℕ) (c : β) : row G cur ((k, c) :: ps) = cur.elim [] G ++ row G (some c) ps := by
  simp [row]

theorem Below.le {k : ℕ} (h : Below P lo k cur) : lo ≤ k := by
  cases cur with
  | none => exact (show k = lo from h).ge
  | some c => exact h.1.le

theorem Rows.nextKey_le (h : Rows P hi ps) : nextKey hi ps ≤ hi := by
  induction ps with
  | nil => exact le_rfl
  | cons e ps ih =>
    obtain ⟨h1, -, h3⟩ := h
    exact h1.le.trans (ih h3)

theorem chain_iff_rows (hne : ps ≠ []) :
    Chain P lo hi cur ps ↔ Below P lo (nextKey hi ps) cur ∧ Rows P hi ps := by
  induction ps generalizing cur lo with
  | nil => exact absurd rfl hne
  | cons e ps ih =>
    obtain ⟨k, c⟩ := e
    cases ps with
    | nil =>
      simp only [Chain, Rows, nextKey, Option.some.injEq, exists_eq_left', and_true]
    | cons e ps =>
      rw [chain_cons, ih (by simp), rows_cons]
      simp only [Below, nextKey]
      constructor
      · rintro ⟨h1, h2, ⟨h3, h4⟩, h5⟩
        exact ⟨h1, h3, h4, h5⟩
      · rintro ⟨h1, h3, h4, h5⟩
        refine ⟨h1, ?_, ⟨h3, h4⟩, h5⟩
        exact lt_of_lt_of_le h3 h5.nextKey_le

theorem Chain.lt_of_cons {e : ℕ × β} (h : Chain P lo hi cur (e :: ps)) : lo < hi :=
  lt_of_le_of_lt h.1.le h.2.1

/-- Changing the children one by one keeps a row. -/
theorem Chain.map {g : β → β} (hg : ∀ lo hi c, P lo hi c → P lo hi (g c)) (h : Chain P lo hi cur ps) :
    Chain P lo hi (cur.map g) (ps.map fun e => (e.1, g e.2)) := by
  induction ps generalizing cur lo with
  | nil =>
    obtain ⟨c, rfl, hc⟩ := h
    exact ⟨g c, rfl, hg lo hi c hc⟩
  | cons e ps ih =>
    obtain ⟨h1, h2, h3⟩ := h
    refine ⟨?_, h2, ih h3⟩
    cases cur with
    | none => exact h1
    | some c => exact ⟨h1.1, hg lo e.1 c h1.2⟩

theorem Chain.lt {c : β} (h : Chain P lo hi (some c) ps) (hne : ps ≠ []) : lo < hi := by
  cases ps with
  | nil => exact absurd rfl hne
  | cons e ps => exact lt_trans h.1.1 h.2.1

section Bounds

variable (hG : ∀ lo hi c, P lo hi c → ∀ e ∈ G c, lo ≤ e.1 ∧ e.1 < hi)
include hG

theorem Below.bounds {k : ℕ} (h : Below P lo k cur) : ∀ e ∈ cur.elim [] G, lo ≤ e.1 ∧ e.1 < k := by
  cases cur with
  | none => simp
  | some c => exact hG lo k c h.2

theorem Chain.bounds (h : Chain P lo hi cur ps) : ∀ e ∈ row G cur ps, lo ≤ e.1 ∧ e.1 < hi := by
  induction ps generalizing cur lo with
  | nil =>
    obtain ⟨c, rfl, hc⟩ := h
    simpa [row] using hG lo hi c hc
  | cons p ps ih =>
    obtain ⟨k, c⟩ := p
    obtain ⟨h1, h2, h3⟩ := h
    intro e he
    rw [row_cons] at he
    rcases mem_append.1 he with he | he
    · have := h1.bounds hG e he
      omega
    · have := ih h3 e he
      have := h1.le
      omega

theorem Chain.sorted (hS : ∀ lo hi c, P lo hi c → Sorted (G c)) (h : Chain P lo hi cur ps) :
    Sorted (row G cur ps) := by
  induction ps generalizing cur lo with
  | nil =>
    obtain ⟨c, rfl, hc⟩ := h
    simpa [row] using hS lo hi c hc
  | cons p ps ih =>
    obtain ⟨k, c⟩ := p
    obtain ⟨h1, h2, h3⟩ := h
    rw [row_cons]
    refine Sorted.append ?_ (ih h3) k (fun e he => (h1.bounds hG e he).2)
      fun e he => (h3.bounds hG e he).1
    cases cur with
    | none => exact List.Pairwise.nil
    | some c => exact hS lo k c h1.2

/-- The child of a key holds what the row has around it. -/
theorem Chain.child_spec (h : Chain P lo hi cur ps) (hlo : lo ≤ key) (hhi : key < hi) :
    ∃ c lo' hi' A B, child key cur ps = some c ∧ lo' ≤ key ∧ key < hi' ∧ P lo' hi' c ∧
      row G cur ps = A ++ G c ++ B ∧ (∀ e ∈ A, e.1 < key) ∧ ∀ e ∈ B, key < e.1 := by
  induction ps generalizing cur lo with
  | nil =>
    obtain ⟨c, rfl, hc⟩ := h
    exact ⟨c, lo, hi, [], [], rfl, hlo, hhi, hc, by simp [row], by simp, by simp⟩
  | cons p ps ih =>
    obtain ⟨k, c⟩ := p
    obtain ⟨h1, h2, h3⟩ := h
    have hA : ∀ e ∈ cur.elim [] G, e.1 < k := fun e he => (h1.bounds hG e he).2
    rw [child_cons]
    by_cases hk : k ≤ key
    · -- the child is `c` or one behind it, also when `key` is the key of `c`
      obtain ⟨c', lo', hi', A, B, hc, h4, h5, h6, h7, h8, h9⟩ := ih h3 hk
      refine ⟨c', lo', hi', cur.elim [] G ++ A, B, ?_, h4, h5, h6, ?_, ?_, h9⟩
      · by_cases heq : k = key
        · rw [if_pos (by omega), if_pos heq]
          cases ps with
          | nil => exact hc
          | cons p ps =>
            have : k < p.1 := h3.1.1
            rwa [child_cons, if_pos (by omega), if_neg (by omega)] at hc
        · rwa [if_neg (by omega)]
      · rw [row_cons, h7]
        simp
      · intro e he
        rcases mem_append.1 he with he | he
        · exact lt_of_lt_of_le (hA e he) hk
        · exact h8 e he
    · rw [if_pos (by omega), if_neg (by omega)]
      cases cur with
      | none => exact absurd (show k = lo from h1) (by omega)
      | some c₀ =>
        refine ⟨c₀, lo, k, [], row G (some c) ps, rfl, hlo, by omega, h1.2, ?_, by simp, ?_⟩
        · rw [row_cons]
          rfl
        · intro e he
          have := (h3.bounds hG e he).1
          omega

end Bounds

/-- What a change of the child responsible for `lo` up to `hi` may do: the entry is added, and a
split child gives its upper keys away. -/
def Grown (G : β → List (ℕ × α)) (P : ℕ → ℕ → β → Prop) (key : ℕ) (v : α) (lo hi : ℕ)
    (c c' : β) (sp : Option (ℕ × β)) : Prop :=
  G c' ++ sp.elim [] (fun e => G e.2) = insertAt key v (G c) ∧
    match sp with
    | none => P lo hi c'
    | some e => lo < e.1 ∧ e.1 < hi ∧ P lo e.1 c' ∧ P e.1 hi e.2

/-- The row with the right half of a split child linked in. -/
def linked (ps : List (ℕ × β)) (sp : Option (ℕ × β)) : List (ℕ × β) :=
  sp.elim ps fun e => insertAt e.1 e.2 ps

/-- If the change adds an entry to the child, it adds it to the row. -/
theorem Chain.enter_spec {f : β → Option (β × Option (ℕ × β))} {v : α}
    (hG : ∀ lo hi c, P lo hi c → ∀ e ∈ G c, lo ≤ e.1 ∧ e.1 < hi)
    (hf : ∀ lo hi c, P lo hi c → lo ≤ key → key < hi → (∀ e ∈ G c, e.1 ≠ key) →
      ∃ c' sp, f c = some (c', sp) ∧ Grown G P key v lo hi c c' sp)
    (h : Chain P lo hi cur ps) (hlo : lo ≤ key) (hhi : key < hi) (hne : ∀ e ∈ row G cur ps, e.1 ≠ key) :
    ∃ cur' ps' sp, enter key f cur ps = some (cur', ps', sp) ∧ ps'.length = ps.length ∧
      (∀ e, sp = some e → lo < e.1) ∧ (∀ c, cur = some c → ∃ c', cur' = some c') ∧
      Chain P lo hi cur' (linked ps' sp) ∧
      row G cur' (linked ps' sp) = insertAt key v (row G cur ps) := by
  induction ps generalizing cur lo with
  | nil =>
    obtain ⟨c, rfl, hc⟩ := h
    obtain ⟨c', sp, heq, hgrow, hsp⟩ := hf lo hi c hc hlo hhi (by simpa [row] using hne)
    refine ⟨some c', [], sp, by simp [enter, heq], rfl, ?_, fun _ _ => ⟨c', rfl⟩, ?_, ?_⟩
    · rintro e rfl
      exact hsp.1
    · cases sp with
      | none => exact ⟨c', rfl, hsp⟩
      | some e => exact ⟨⟨hsp.1, hsp.2.2.1⟩, hsp.2.1, e.2, rfl, hsp.2.2.2⟩
    · cases sp with
      | none => simpa [row, linked] using hgrow
      | some e => simpa [row, linked] using hgrow
  | cons p ps ih =>
    obtain ⟨k, c⟩ := p
    obtain ⟨h1, h2, h3⟩ := h
    have hA : ∀ e ∈ cur.elim [] G, e.1 < k := fun e he => (h1.bounds hG e he).2
    rw [row_cons] at hne
    by_cases hk : k ≤ key
    · obtain ⟨c₁, ps', sp, heq, hlen, hlt, hsome, hchain, hrow⟩ :=
        ih h3 hk fun e he => hne e (mem_append_right _ he)
      obtain ⟨c', rfl⟩ := hsome c rfl
      have henter : enter key f cur ((k, c) :: ps) = some (cur, (k, c') :: ps', sp) := by
        rw [enter]
        by_cases hkey : k = key
        · -- the next key is larger, so the way down from `c` ends at once
          rw [if_pos (by omega), if_pos hkey]
          have hstop : enter key f (some c) ps = (f c).map fun (c, sp) => (some c, ps, sp) := by
            cases ps with
            | nil => rfl
            | cons p ps =>
              have : k < p.1 := h3.1.1
              rw [enter, if_pos (by omega), if_neg (by omega)]
              rfl
          rw [hstop] at heq
          obtain ⟨⟨c₂, sp₂⟩, hfc, hrest⟩ := Option.map_eq_some_iff.1 heq
          obtain ⟨h4, h5, h6⟩ := Prod.mk.inj hrest |>.imp id Prod.mk.inj
          rw [hfc, ← Option.some.inj h4, ← h5, ← h6]
          rfl
        · rw [if_neg (by omega), heq]
          rfl
      have hlink : linked ((k, c') :: ps') sp = (k, c') :: linked ps' sp := by
        cases sp with
        | none => rfl
        | some e =>
          have := hlt e rfl
          simp only [linked, Option.elim_some, insertAt_cons]
          rw [if_neg (by omega)]
      refine ⟨cur, (k, c') :: ps', sp, henter, by simp [hlen], fun e he => ?_, fun c hc => ⟨c, hc⟩,
        ?_, ?_⟩
      · exact lt_of_le_of_lt h1.le (hlt e he)
      · rw [hlink]
        exact ⟨h1, h2, hchain⟩
      · rw [hlink, row_cons, row_cons, hrow, insertAt_append_right fun e he => ?_]
        exact (hA e he).le.trans hk
    · cases cur with
      | none => exact absurd (show k = lo from h1) (by omega)
      | some c₀ =>
        obtain ⟨c', sp, heq, hgrow, hsp⟩ := hf lo k c₀ h1.2 hlo (by omega)
          fun e he => hne e (mem_append_left _ he)
        have hbig : ∀ e ∈ row G (some c) ps, key < e.1 := fun e he => by
          have := (h3.bounds hG e he).1
          omega
        refine ⟨some c', (k, c) :: ps, sp, ?_, rfl, ?_, fun _ _ => ⟨c', rfl⟩, ?_, ?_⟩
        · rw [enter, if_pos (by omega), if_neg (by omega), Option.bind_some, heq]
          rfl
        · rintro e rfl
          exact hsp.1
        · cases sp with
          | none => exact ⟨⟨h1.1, hsp⟩, h2, h3⟩
          | some e =>
            simp only [linked, Option.elim_some, insertAt_cons]
            rw [if_pos hsp.2.1]
            exact ⟨⟨hsp.1, hsp.2.2.1⟩, hsp.2.1.trans h2, ⟨hsp.2.1, hsp.2.2.2⟩, h2, h3⟩
        · rw [row_cons, Option.elim_some, insertAt_append_left hbig, ← hgrow]
          cases sp with
          | none => simp [linked, row]
          | some e =>
            simp only [linked, Option.elim_some, insertAt_cons]
            rw [if_pos hsp.2.1]
            simp [row]

/-- Cut a row in front of one of its keys. -/
theorem chain_append {A B : List (ℕ × β)} {k : ℕ} {c : β} (hA : A ≠ []) :
    Chain P lo hi cur (A ++ (k, c) :: B) ↔ Chain P lo k cur A ∧ k < hi ∧ Chain P k hi (some c) B := by
  induction A generalizing cur lo with
  | nil => exact absurd rfl hA
  | cons p A ih =>
    obtain ⟨k₁, c₁⟩ := p
    simp only [cons_append, chain_cons]
    by_cases hnil : A = []
    · subst hnil
      simp only [nil_append, Chain, Below, Option.some.injEq, exists_eq_left']
      constructor
      · rintro ⟨h1, h2, ⟨h3, h4⟩, h5, h6⟩
        exact ⟨⟨h1, h3, h4⟩, h5, h6⟩
      · rintro ⟨⟨h1, h3, h4⟩, h5, h6⟩
        exact ⟨h1, h3.trans h5, ⟨h3, h4⟩, h5, h6⟩
    · rw [ih hnil]
      constructor
      · rintro ⟨h1, h2, h3, h4, h5⟩
        exact ⟨⟨h1, h3.lt hnil, h3⟩, h4, h5⟩
      · rintro ⟨⟨h1, h2, h3⟩, h4, h5⟩
        exact ⟨h1, h2.trans h4, h3, h4, h5⟩

end Chains

/-! ### Well-formed nodes -/

section Fits

variable {ord d lo hi : ℕ} {n : Node α d}

theorem Fits.bounds (h : Fits ord d lo hi n) : ∀ e ∈ flat d n, lo ≤ e.1 ∧ e.1 < hi := by
  induction d generalizing lo hi with
  | zero => exact h.2.2
  | succ d ih => exact h.2.2.bounds fun lo hi c hc => ih hc

theorem Fits.sorted (h : Fits ord d lo hi n) : Sorted (flat d n) := by
  induction d generalizing lo hi with
  | zero => exact h.2.1
  | succ d ih => exact h.2.2.sorted (fun lo hi c hc => hc.bounds) fun lo hi c hc => ih hc

theorem lookup_insertAt {l : List (ℕ × α)} {key k : ℕ} {v : α} (h : ∀ e ∈ l, e.1 ≠ key) :
    (insertAt key v l).lookup k = if k = key then some v else l.lookup k := by
  induction l with
  | nil =>
    rw [insertAt_nil]
    split_ifs with hk
    · rw [hk, lookup_cons_self]
    · rw [lookup_cons, beq_eq_false_iff_ne.2 hk]
  | cons e l ih =>
    rw [insertAt_cons]
    split_ifs with hgt hk hk
    · rw [hk, lookup_cons_self]
    · rw [lookup_cons, beq_eq_false_iff_ne.2 hk]
    · have he : (k == e.1) = false := by
        rw [hk, beq_eq_false_iff_ne]
        exact (h e (by simp)).symm
      rw [lookup_cons, he, ih fun f hf => h f (by simp [hf]), if_pos hk]
    · rw [lookup_cons, lookup_cons, ih fun f hf => h f (by simp [hf]), if_neg hk]

/-- Whether a leaf fits depends on its keys only. -/
theorem LeafFits.of_keys {l l' : List (ℕ × α)} (h : LeafFits ord lo hi l)
    (hk : l'.map Prod.fst = l.map Prod.fst) : LeafFits ord lo hi l' := by
  obtain ⟨hlen, hsort, hbd⟩ := h
  refine ⟨?_, ?_, fun e he => ?_⟩
  · have := congrArg List.length hk
    simp only [length_map] at this
    omega
  · have hs : (l.map Prod.fst).Pairwise (· < ·) := pairwise_map.2 hsort
    rw [← hk] at hs
    exact pairwise_map.1 hs
  · have hmem : e.1 ∈ l'.map Prod.fst := mem_map_of_mem he
    rw [hk] at hmem
    obtain ⟨f, hf, hfe⟩ := mem_map.1 hmem
    rw [← hfe]
    exact hbd f hf

/-- A look passes smaller and larger keys. -/
theorem lookup_between {A B C : List (ℕ × α)} {key : ℕ} (hA : ∀ e ∈ A, e.1 < key)
    (hC : ∀ e ∈ C, key < e.1) : (A ++ B ++ C).lookup key = B.lookup key := by
  have hnil : ∀ L : List (ℕ × α), (∀ e ∈ L, e.1 ≠ key) → L.lookup key = none := by
    intro L hL
    rw [lookup_eq_none_iff]
    intro e he
    simpa using (hL e he).symm
  rw [lookup_append, lookup_append, hnil A fun e he => (hA e he).ne,
    hnil C fun e he => (hC e he).ne']
  simp

end Fits

/-! ### Sizes -/

section Sizes

/-- The children of a row. -/
def kids (cur : Option β) (ps : List (ℕ × β)) : List β := cur.toList ++ ps.map Prod.snd

/-- The number of nodes. -/
def nodes : ∀ d, Node α d → ℕ
  | 0, _ => 1
  | d + 1, n => 1 + ((kids n.1 n.2).map (nodes d)).sum

/-- The length of the row of a node. -/
def rowLen : ∀ d, Node α d → ℕ
  | 0, l => (show List (ℕ × α) from l).length
  | _ + 1, n => n.2.length

/-- The rows below the top have at least `m` and at most `ord` keys. -/
def Filled (m ord : ℕ) : ∀ d, Node α d → Prop
  | 0, _ => True
  | d + 1, n => ∀ c ∈ kids n.1 n.2, m ≤ rowLen d c ∧ rowLen d c ≤ ord ∧ Filled m ord d c

variable {m ord d key : ℕ} {cur cur' : Option β} {ps ps' : List (ℕ × β)}

theorem nodes_succ (n : Node α (d + 1)) : nodes (d + 1) n = 1 + ((kids n.1 n.2).map (nodes d)).sum := rfl

theorem length_kids (cur : Option β) (ps : List (ℕ × β)) :
    (kids cur ps).length = cur.toList.length + ps.length := by
  rw [kids, length_append, length_map]

theorem kids_append (A B : List (ℕ × β)) : kids cur (A ++ B) = kids cur A ++ kids none B := by
  simp [kids]

theorem kids_insertAt (k : ℕ) (c : β) : (kids cur (insertAt k c ps)).Perm (c :: kids cur ps) := by
  have h : (insertAt k c ps).Perm ((k, c) :: ps) := by
    induction ps with
    | nil => exact .refl _
    | cons e ps ih =>
      rw [insertAt_cons]
      split_ifs
      · exact .refl _
      · exact (ih.cons e).trans (.swap ..)
  exact ((h.map Prod.snd).append_left cur.toList).trans perm_middle

theorem length_flat_succ (n : Node α (d + 1)) :
    (flat (d + 1) n).length = ((kids n.1 n.2).map fun c => (flat d c).length).sum := by
  rw [flat, row, kids, length_append, length_flatMap, map_append, sum_append,
    map_map]
  cases n.1 <;> simp [Function.comp_def]

/-- The way down changes one child. -/
theorem enter_cases {f : β → Option (β × Option (ℕ × β))} {sp : Option (ℕ × β)}
    (h : enter key f cur ps = some (cur', ps', sp)) : ∃ A c c' B, child key cur ps = some c ∧
      f c = some (c', sp) ∧ kids cur ps = A ++ c :: B ∧ kids cur' ps' = A ++ c' :: B ∧
      ps'.length = ps.length ∧ cur'.isSome = cur.isSome := by
  induction ps generalizing cur cur' ps' with
  | nil =>
    obtain ⟨⟨c', sp'⟩, hb, he⟩ := Option.map_eq_some_iff.1 h
    obtain ⟨c, rfl, hf⟩ := Option.bind_eq_some_iff.1 hb
    cases he
    exact ⟨[], c, c', [], rfl, hf, rfl, rfl, rfl, rfl⟩
  | cons e ps ih =>
    obtain ⟨k, c₁⟩ := e
    rw [enter] at h
    split_ifs at h with hge heq
    · obtain ⟨⟨c', sp'⟩, hf, he⟩ := Option.map_eq_some_iff.1 h
      cases he
      refine ⟨cur.toList, c₁, c', ps.map Prod.snd, ?_, hf, rfl, rfl, rfl, rfl⟩
      rw [child_cons, if_pos hge, if_pos heq]
    · obtain ⟨⟨c', sp'⟩, hb, he⟩ := Option.map_eq_some_iff.1 h
      obtain ⟨c, rfl, hf⟩ := Option.bind_eq_some_iff.1 hb
      cases he
      refine ⟨[], c, c', c₁ :: ps.map Prod.snd, ?_, hf, rfl, rfl, rfl, rfl⟩
      rw [child_cons, if_pos hge, if_neg heq]
    · obtain ⟨⟨cur₂, ps₂, sp₂⟩, he, hm⟩ := Option.bind_eq_some_iff.1 h
      obtain ⟨c₂, rfl, hm⟩ := Option.map_eq_some_iff.1 hm
      cases hm
      obtain ⟨A, c, c', B, h1, h2, h3, h4, h5, -⟩ := ih he
      refine ⟨cur.toList ++ A, c, c', B, ?_, h2, ?_, ?_, congrArg Nat.succ h5, rfl⟩
      · rw [child_cons, if_neg hge, h1]
      · rw [append_assoc, ← h3]
        rfl
      · rw [append_assoc, ← h4]
        rfl

/-- A sum over the children. -/
theorem sum_kids_le {f g : β → ℕ} {k : ℕ} {L : List β} (h : ∀ c ∈ L, k * f c + 1 ≤ g c) :
    k * (L.map f).sum + L.length ≤ (L.map g).sum := by
  induction L with
  | nil => simp
  | cons c L ih =>
    have h1 := h c mem_cons_self
    have h2 := ih fun c hc => h c (mem_cons_of_mem _ hc)
    simp only [map_cons, sum_cons, length_cons, Nat.mul_add]
    omega

theorem length_mul_le_sum {g : β → ℕ} {k : ℕ} {L : List β} (h : ∀ c ∈ L, k ≤ g c) :
    L.length * k ≤ (L.map g).sum := by
  induction L with
  | nil => simp
  | cons c L ih =>
    have h1 := h c mem_cons_self
    have h2 := ih fun c hc => h c (mem_cons_of_mem _ hc)
    simp only [map_cons, sum_cons, length_cons, Nat.add_mul, Nat.one_mul]
    omega

/-- A tree with long rows has few nodes. -/
theorem Filled.nodes_le {n : Node α d} (h : Filled (m + 1) ord d n) (hlen : m + 1 ≤ rowLen d n) :
    m * nodes d n + 1 ≤ (flat d n).length := by
  induction d with
  | zero =>
    show m * 1 + 1 ≤ _
    rw [Nat.mul_one]
    exact hlen
  | succ d ih =>
    have hsum := sum_kids_le (f := nodes d) (k := m) (L := kids n.1 n.2) fun c hc =>
      ih (h c hc).2.2 (h c hc).1
    have hkids : m + 1 ≤ (kids n.1 n.2).length := by
      rw [length_kids]
      exact le_trans hlen (Nat.le_add_left _ _)
    rw [nodes_succ, length_flat_succ, Nat.mul_add, Nat.mul_one]
    omega

/-- It is not high. -/
theorem Filled.pow_le {n : Node α d} (h : Filled m ord d n) (hlen : m ≤ rowLen d n) :
    m ^ (d + 1) ≤ (flat d n).length := by
  induction d with
  | zero =>
    rw [Nat.zero_add, Nat.pow_one]
    exact hlen
  | succ d ih =>
    have hsum := length_mul_le_sum (k := m ^ (d + 1)) (L := kids n.1 n.2) fun c hc =>
      ih (h c hc).2.2 (h c hc).1
    have hkids : m ≤ (kids n.1 n.2).length := by
      rw [length_kids]
      exact le_trans hlen (Nat.le_add_left _ _)
    rw [length_flat_succ]
    calc m ^ (d + 1 + 1) = m * m ^ (d + 1) := Nat.pow_succ' ..
      _ ≤ (kids n.1 n.2).length * m ^ (d + 1) := Nat.mul_le_mul_right _ hkids
      _ ≤ _ := hsum

/-- Different keys of a range are not more than the range has. -/
theorem Sorted.length_le {l : List (ℕ × β)} {lo hi : ℕ} (h : Sorted l)
    (hbd : ∀ e ∈ l, lo ≤ e.1 ∧ e.1 < hi) : l.length ≤ hi - lo := by
  induction l generalizing lo with
  | nil => exact Nat.zero_le _
  | cons e l ih =>
    obtain ⟨h1, h2⟩ := pairwise_cons.1 h
    have he := hbd e mem_cons_self
    have hl := @ih (e.1 + 1) h2 fun f hf => ⟨h1 f hf, (hbd f (mem_cons_of_mem _ hf)).2⟩
    rw [length_cons]
    omega

end Sizes

end KeyTree

end Hpux
