import Hpux910.Sys.VfdTree
import Mathlib

/-!
# The size of the tree of chunks

`vfdpgs` tells how many pages the descriptors of a region take: those of the chunks, and those of the nodes of the
B-tree above them.  The tree is not built yet then, so the number of its nodes is estimated.

* `vfdpgs`, `overhead` : the estimate.
* `ballocs`, `btBallocs` : how many nodes an insertion allocates.
* `insertAll` : a row of insertions, with the number of nodes they have allocated.
* `Broot.Sized` : the invariant.  A node is split when it has 30 keys, so below the root there are at least 15 in each.
* `btree_resource_bound` : the number of nodes is never more than the estimate, and `b_depth` is at most `B_DEPTH`.
-/

namespace Hpux

namespace Vfd

open KeyTree List

/-- `B_ORD2`. -/
def bOrd2 : ℕ := 31
/-- `B_ORDSHIFT`. -/
def bOrdshift : ℕ := 3
/-- `B_DEPTH`. -/
def bDepthMax : ℕ := 10
/-- `CHUNKSHIFT`. -/
def chunkshift : ℕ := 5
/-- `CHUNKS_PER_PAGE`: a page of 4096 bytes has chunks of 256 bytes behind its header. -/
def chunksPerPage : ℕ := 4096 / 256 - 1

/-- What `vfdpgs` adds to `x` chunks for the inner nodes. -/
def overhead (x : ℕ) : ℕ := (x + bOrd2) >>> bOrdshift

/-- `vfdpgs`. -/
def vfdpgs (npages : ℕ) : ℕ :=
  if npages = 0 then 0
  else
    let x := (npages + (chunkent - 1)) >>> chunkshift
    let x := x + overhead x
    (x + (chunksPerPage - 1)) / chunksPerPage

/-- How often the loop of `bt_ins` calls `balloc` for the nodes of the search path: once for each of them that becomes
too long. -/
def ballocs {α : Type*} (key : ℕ) (nval : α) : ∀ d, Node α d → ℕ
  | 0, l => if (show List (ℕ × α) from l).length + 1 ≤ bOrd then 0 else 1
  | d + 1, n =>
    match child key n.1 n.2 with
    | none => 0
    | some c =>
      ballocs key nval d c +
        match nodeInsert key nval d c with
        | some (_, some _) => if n.2.length + 1 ≤ bOrd then 0 else 1
        | _ => 0

/-- How often `bt_insert` calls `balloc`: for a new tree, for the nodes that are split, and for a new root. -/
def btBallocs (br : Broot) (key : ℕ) (nval : Chunk) : ℕ :=
  match br.bRoot with
  | none => 1
  | some ⟨d, bt⟩ =>
    match nodeSearch key d bt with
    | some _ => 0
    | none =>
      ballocs key nval d bt +
        match nodeInsert key nval d bt with
        | some (_, some _) => 1
        | _ => 0

/-- A row of insertions: the tree after it and the number of nodes that have been allocated. -/
def insertAll : Broot → List (ℕ × Chunk) → Except Panic (Broot × ℕ)
  | br, [] => .ok (br, 0)
  | br, (key, nval) :: l =>
    match btInsert br key nval with
    | .error p => .error p
    | .ok br' => (insertAll br' l).map fun r => (r.1, btBallocs br key nval + r.2)

/-- `b_depth`. -/
def Broot.bDepth (br : Broot) : ℕ := br.bRoot.elim 0 fun t => t.1 + 1

/-! ### One insertion -/

section Nodes

variable {α β : Type*} {key d : ℕ} {v : α}

/-- A node that is split gives half of its 30 keys away. -/
theorem split_half (l : List (ℕ × β)) (hlen : l.length ≤ bOrd + 1) :
    (l.length ≤ bOrd ∧ split l = (l, none)) ∨
    ∃ A k B, l = A ++ B ∧ A.length = 15 ∧ B.length = 15 ∧ ¬l.length ≤ bOrd ∧ split l = (A, some (k, B)) := by
  unfold split
  split_ifs with hshort
  · exact .inl ⟨hshort, rfl⟩
  · right
    have h30 : l.length = 30 := by
      simp only [bOrd] at hlen hshort
      omega
    have hhalf : bSize / 2 = 15 := rfl
    have hUl : (l.drop 15).length = 15 := by rw [length_drop, h30]
    rw [hhalf, take_of_length_le hUl.le]
    rcases hU : l.drop 15 with _ | ⟨e, B⟩
    · rw [hU] at hUl
      cases hUl
    · refine ⟨l.take 15, e.1, e :: B, ?_, by rw [length_take, h30]; rfl, hU ▸ hUl, hshort, rfl⟩
      rw [← hU, take_append_drop]

/-- What an insertion does to the sizes. -/
structure Resized (key : ℕ) (v : α) (d : ℕ) (n n' : Node α d) (sp : Option (ℕ × Node α d)) : Prop where
  filled : Filled 15 bOrd d n'
  len : rowLen d n' ≤ bOrd
  keep : sp = none → rowLen d n ≤ rowLen d n'
  half : ∀ e, sp = some e → rowLen d n' = 15 ∧ rowLen d e.2 = 15 ∧ Filled 15 bOrd d e.2
  count : KeyTree.nodes d n' + sp.elim 0 (fun e => KeyTree.nodes d e.2) = KeyTree.nodes d n + ballocs key v d n

theorem ballocs_zero (l : Node α 0) :
    ballocs key v 0 l = if rowLen 0 l + 1 ≤ bOrd then 0 else 1 := rfl

theorem ballocs_succ {n : Node α (d + 1)} {c c' : Node α d} {sp : Option (ℕ × Node α d)}
    (hc : child key n.1 n.2 = some c) (hins : nodeInsert key v d c = some (c', sp)) :
    ballocs key v (d + 1) n =
      ballocs key v d c + if sp.isSome ∧ ¬rowLen (d + 1) n + 1 ≤ bOrd then 1 else 0 := by
  rw [ballocs, hc]
  simp only [hins]
  cases sp with
  | none => rfl
  | some e =>
    show _ + (if n.2.length + 1 ≤ bOrd then 0 else 1) =
      _ + if true = true ∧ ¬n.2.length + 1 ≤ bOrd then 1 else 0
    split_ifs with h1 h2 h2
    · exact absurd h1 h2.2
    · rfl
    · rfl
    · exact absurd ⟨rfl, h1⟩ h2

theorem nodeInsert_resized {n n' : Node α d} {sp : Option (ℕ × Node α d)} (h : Filled 15 bOrd d n)
    (hlen : rowLen d n ≤ bOrd) (heq : nodeInsert key v d n = some (n', sp)) : Resized key v d n n' sp := by
  induction d with
  | zero =>
    have hl : (insertAt key v (show List (ℕ × α) from n)).length = rowLen 0 n + 1 := length_insertAt _
    have heq' : split (insertAt key v n) = (n', sp) := Option.some.inj heq
    rcases split_half (insertAt key v n) (by rw [hl]; omega) with ⟨hshort, hsp⟩ | ⟨A, k, B, hAB, hA, hB, hlong, hsp⟩
    · cases hsp.symm.trans heq'
      rw [hl] at hshort
      refine ⟨trivial, hl.trans_le hshort, fun _ => ?_, nofun, ?_⟩
      · exact (Nat.le_succ _).trans hl.ge
      · rw [ballocs_zero, if_pos hshort]
        rfl
    · cases hsp.symm.trans heq'
      rw [hl] at hlong
      refine ⟨trivial, ?_, nofun, fun e he => ?_, ?_⟩
      · exact hA.trans_le (by decide)
      · cases he
        exact ⟨hA, hB, trivial⟩
      · rw [ballocs_zero, if_neg hlong]
        rfl
  | succ d ih =>
    obtain ⟨⟨cur, ps, below⟩, hent, hres⟩ := Option.map_eq_some_iff.1 heq
    obtain ⟨A, c, c', B, hchild, hins, hkids, hkids', hps, -⟩ := enter_cases hent
    obtain ⟨hclo, hchi, hcf⟩ := h c (by rw [hkids]; simp)
    have hr := ih hcf hchi hins
    have hball := ballocs_succ hchild hins
    have hsize : ((kids cur ps).map (KeyTree.nodes d)).sum + below.elim 0 (fun e => KeyTree.nodes d e.2) =
        ((kids n.1 n.2).map (KeyTree.nodes d)).sum + ballocs key v d c := by
      have hcount := hr.count
      rw [hkids, hkids']
      simp only [map_append, map_cons, sum_append, sum_cons]
      omega
    -- only the changed child is another one
    have hkf : ∀ x ∈ kids cur ps, 15 ≤ rowLen d x ∧ rowLen d x ≤ bOrd ∧ Filled 15 bOrd d x := by
      intro x hx
      rw [hkids'] at hx
      have hother : x ∈ A ∨ x ∈ B → 15 ≤ rowLen d x ∧ rowLen d x ≤ bOrd ∧ Filled 15 bOrd d x := fun hx =>
        h x (by rw [hkids]; simp only [mem_append, mem_cons]; exact hx.imp_right .inr)
      rcases mem_append.1 hx with hx | hx
      · exact hother (.inl hx)
      · rcases mem_cons.1 hx with rfl | hx
        · refine ⟨?_, hr.len, hr.filled⟩
          cases below with
          | none => exact hclo.trans (hr.keep rfl)
          | some e => exact (hr.half e rfl).1.ge
        · exact hother (.inr hx)
    cases below with
    | none =>
      cases hres
      refine ⟨hkf, hps.trans_le hlen, fun _ => hps.ge, nofun, ?_⟩
      rw [hball, nodes_succ n, if_neg fun hc => Bool.false_ne_true hc.1]
      show 1 + ((kids cur ps).map (KeyTree.nodes d)).sum + 0 = _
      rw [Option.elim_none] at hsize
      omega
    | some e =>
      obtain ⟨-, he15, hef⟩ := hr.half e rfl
      have hl : (insertAt e.1 e.2 ps).length = rowLen (d + 1) n + 1 := by rw [length_insertAt, hps]; rfl
      have hperm := @kids_insertAt _ cur ps e.1 e.2
      have hkf2 : ∀ x ∈ kids cur (insertAt e.1 e.2 ps), 15 ≤ rowLen d x ∧ rowLen d x ≤ bOrd ∧ Filled 15 bOrd d x := by
        intro x hx
        rcases mem_cons.1 (hperm.subset hx) with rfl | hx
        · exact ⟨he15.ge, he15.trans_le (by decide), hef⟩
        · exact hkf x hx
      have hsum : ((kids cur (insertAt e.1 e.2 ps)).map (KeyTree.nodes d)).sum =
          KeyTree.nodes d e.2 + ((kids cur ps).map (KeyTree.nodes d)).sum := by
        rw [(hperm.map (KeyTree.nodes d)).sum_nat, map_cons, sum_cons]
      rcases split_half (insertAt e.1 e.2 ps) (by rw [hl]; omega) with
        ⟨hshort, hsp⟩ | ⟨A₂, k, B₂, hAB, hA, hB, hlong, hsp⟩
      · dsimp only at hres
        rw [hsp] at hres
        cases hres
        rw [hl] at hshort
        refine ⟨hkf2, hl.trans_le hshort, fun _ => (Nat.le_succ _).trans hl.ge, nofun, ?_⟩
        rw [hball, nodes_succ n, if_neg fun hc => hc.2 hshort]
        show 1 + ((kids cur (insertAt e.1 e.2 ps)).map (KeyTree.nodes d)).sum + 0 = _
        rw [Option.elim_some] at hsize
        omega
      · dsimp only at hres
        rw [hsp] at hres
        cases hres
        rw [hl] at hlong
        rw [hAB, kids_append] at hkf2 hsum
        refine ⟨fun x hx => hkf2 x (mem_append_left _ hx), hA.trans_le (by decide), nofun, fun e' he' => ?_, ?_⟩
        · cases he'
          exact ⟨hA, hB, fun x hx => hkf2 x (mem_append_right _ hx)⟩
        · rw [hball, nodes_succ n, if_pos ⟨rfl, hlong⟩]
          show 1 + ((kids cur A₂).map (KeyTree.nodes d)).sum + (1 + ((kids none B₂).map (KeyTree.nodes d)).sum) = _
          rw [map_append, sum_append] at hsum
          rw [Option.elim_some] at hsize
          omega

/-- The root keeps its first child. -/
theorem nodeInsert_first {n n' : Node α (d + 1)} {sp : Option (ℕ × Node α (d + 1))}
    (heq : nodeInsert key v (d + 1) n = some (n', sp)) : n'.1.isSome = n.1.isSome := by
  obtain ⟨⟨cur, ps, below⟩, hent, hres⟩ := Option.map_eq_some_iff.1 heq
  obtain ⟨A, c, c', B, -, -, -, -, -, hcur⟩ := enter_cases hent
  rw [← hcur]
  cases below with
  | none =>
    cases hres
    rfl
  | some e =>
    cases hres
    rfl

theorem mapAt_sizes (f : α → α) (n : Node α d) : KeyTree.nodes d (mapAt key f d n) = KeyTree.nodes d n ∧
    rowLen d (mapAt key f d n) = rowLen d n ∧ (Filled 15 bOrd d n → Filled 15 bOrd d (mapAt key f d n)) := by
  induction d with
  | zero => exact ⟨rfl, length_map _, id⟩
  | succ d ih =>
    have hkids : kids (mapAt key f (d + 1) n).1 (mapAt key f (d + 1) n).2 =
        (kids n.1 n.2).map (mapAt key f d) := by
      obtain ⟨cur, ps⟩ := n
      show kids (cur.map _) (ps.map _) = (kids cur ps).map _
      rw [kids, kids, map_append, map_map, map_map]
      cases cur <;> rfl
    refine ⟨?_, length_map _, fun h x hx => ?_⟩
    · rw [nodes_succ, nodes_succ, hkids, map_map]
      exact congrArg (fun l : List ℕ => 1 + l.sum) (map_congr_left fun c _ => (ih c).1)
    · rw [hkids] at hx
      obtain ⟨c, hc, rfl⟩ := mem_map.1 hx
      obtain ⟨h1, h2, h3⟩ := h c hc
      rw [(ih c).2.1]
      exact ⟨h1, h2, (ih c).2.2 h3⟩

theorem rowLen_le {lo hi : ℕ} {n : Node α d} (h : Fits bOrd d lo hi n) : rowLen d n ≤ bOrd := by
  cases d with
  | zero => exact h.1
  | succ d => exact h.2.1

end Nodes

/-! ### Rows of insertions -/

/-- The keys are of type `unsigned long`. -/
def ulongLimit : ℕ := 2 ^ 32

/-- The tree is one, its rows below the root are at least half full, and it has `n` nodes. -/
structure Broot.Sized (br : Broot) (n : ℕ) : Prop where
  empty : br.bRoot = none → n = 0
  fits : ∀ d t, br.bRoot = some ⟨d, t⟩ → Fits bOrd d 0 ulongLimit t
  filled : ∀ d t, br.bRoot = some ⟨d, t⟩ → Filled 15 bOrd d t
  first : ∀ d t, br.bRoot = some ⟨d + 1, t⟩ → t.1.isSome
  count : ∀ d t, br.bRoot = some ⟨d, t⟩ → KeyTree.nodes d t = n

section Root

variable {br : Broot} {key n : ℕ}

theorem Broot.Sized.of_root {d : ℕ} {t : Node Chunk d} (hroot : br.bRoot = some ⟨d, t⟩)
    (hfits : Fits bOrd d 0 ulongLimit t) (hfilled : Filled 15 bOrd d t)
    (hfirst : ∀ d' t', (⟨d, t⟩ : Σ d, Node Chunk d) = ⟨d' + 1, t'⟩ → t'.1.isSome) (hcount : KeyTree.nodes d t = n) :
    br.Sized n := by
  refine ⟨fun h => ?_, fun d' t' h => ?_, fun d' t' h => ?_, fun d' t' h => ?_, fun d' t' h => ?_⟩
  · rw [hroot] at h
    cases h
  all_goals
    rw [hroot] at h
  · cases h
    exact hfits
  · cases h
    exact hfilled
  · exact hfirst d' t' (Option.some.inj h)
  · cases h
    exact hcount

/-- One insertion. -/
theorem Broot.Sized.insert (h : br.Sized n) (hkey : key < ulongLimit) (nval : Chunk) :
    ∃ br', btInsert br key nval = .ok br' ∧ br'.Sized (n + btBallocs br key nval) ∧
      ∀ e ∈ br'.chunks, e.1 = key ∨ ∃ f ∈ br.chunks, f.1 = e.1 := by
  unfold btInsert btBallocs
  rcases hroot : br.bRoot with _ | ⟨d, t⟩
  · obtain rfl := h.empty hroot
    refine ⟨_, rfl, .of_root rfl ⟨Nat.le_add_left 1 28, pairwise_singleton .., by simpa using hkey⟩ trivial
      nofun rfl, fun e he => .inl ?_⟩
    obtain rfl := mem_singleton.1 he
    rfl
  · have hfits := h.fits d t hroot
    have hfilled := h.filled d t hroot
    have hcount := h.count d t hroot
    have hchunks := Broot.chunks_some hroot
    rcases hs : nodeSearch key d t with _ | c
    · have hne : ∀ e ∈ flat d t, e.1 ≠ key := by
        rw [nodeSearch_spec hfits (Nat.zero_le _) hkey, lookup_eq_none_iff] at hs
        intro e he heq
        have := hs e he
        rw [bne_iff_ne] at this
        exact this heq.symm
      obtain ⟨t', sp, heq, hgrow, hsp⟩ := nodeInsert_spec (v := nval) hfits (Nat.zero_le _) hkey hne
      have hr := nodeInsert_resized hfilled (rowLen_le hfits) heq
      have hmem : ∀ e ∈ flat d t' ++ sp.elim [] (fun e => flat d e.2),
          e.1 = key ∨ ∃ f ∈ br.chunks, f.1 = e.1 := by
        intro e he
        rw [hgrow] at he
        rcases mem_insertAt.1 he with rfl | he
        · exact .inl rfl
        · exact .inr ⟨e, hchunks ▸ he, rfl⟩
      simp only [hs, heq]
      cases sp with
      | none =>
        refine ⟨_, rfl, .of_root rfl hsp hr.filled ?_ ?_, fun e he => hmem e (mem_append_left _ he)⟩
        · rintro d' t'' he
          cases he
          rw [nodeInsert_first heq]
          exact h.first d' t hroot
        · rw [← hcount, Nat.add_zero, ← hr.count]
          rfl
      | some e =>
        obtain ⟨h15, he15, hef⟩ := hr.half e rfl
        refine ⟨_, rfl, .of_root rfl ⟨cons_ne_nil _ _, Nat.le_add_left 1 28, ⟨hsp.1, hsp.2.2.1⟩, hsp.2.1, e.2,
          rfl, hsp.2.2.2⟩ ?_ ?_ ?_, fun f hf => hmem f ?_⟩
        · intro x hx
          rcases mem_cons.1 hx with rfl | hx
          · exact ⟨h15.ge, h15.trans_le (by decide), hr.filled⟩
          · obtain rfl := mem_singleton.1 hx
            exact ⟨he15.ge, he15.trans_le (by decide), hef⟩
        · rintro d' t'' he
          cases he
          rfl
        · have hc := hr.count
          show 1 + (KeyTree.nodes d t' + (KeyTree.nodes d e.2 + 0)) = n + (ballocs key nval d t + 1)
          rw [Option.elim_some] at hc
          omega
        · have hrow : flat (d + 1) (show Node Chunk (d + 1) from (some t', [(e.1, e.2)])) = flat d t' ++ flat d e.2 := by
            show row (flat d) (some t') [(e.1, e.2)] = _
            simp [row]
          exact hrow ▸ hf
    · obtain ⟨h1, -, h3⟩ := @mapAt_sizes _ key _ (fun _ => nval) t
      simp only [hs]
      refine ⟨_, rfl, .of_root rfl (fits_mapAt hfits) (h3 hfilled) ?_ (h1.trans hcount), fun e he => .inr ?_⟩
      · rintro d' t'' he
        cases he
        have hfirst := h.first d' t hroot
        obtain ⟨c, hc⟩ := Option.isSome_iff_exists.1 hfirst
        show (t.1.map _).isSome
        rw [hc]
        rfl
      · have hflat : e ∈ flat d (mapAt key (fun _ => nval) d t) := he
        rw [flat_mapAt] at hflat
        obtain ⟨f, hf, rfl⟩ := mem_map.1 hflat
        refine ⟨f, hchunks ▸ hf, ?_⟩
        split_ifs <;> rfl

/-- Half-full rows: 15 keys or more for a node, and two children of the root. -/
theorem Broot.Sized.bound (h : br.Sized n) : 8 * n ≤ br.chunks.length + 31 ∧ br.bDepth ≤ bDepthMax := by
  unfold Broot.bDepth
  rcases hroot : br.bRoot with _ | ⟨d, t⟩
  · rw [h.empty hroot]
    exact ⟨Nat.zero_le _, Nat.zero_le _⟩
  · have hfits := h.fits d t hroot
    have hfilled := h.filled d t hroot
    have hcount := h.count d t hroot
    have hE : (flat d t).length ≤ ulongLimit := hfits.sorted.length_le hfits.bounds
    rw [Broot.chunks_some hroot, Option.elim_some]
    cases d with
    | zero =>
      obtain rfl : 1 = n := hcount
      have hone : 0 + 1 ≤ bDepthMax := by decide
      exact ⟨by omega, hone⟩
    | succ d =>
      have hkids : 2 ≤ (kids t.1 t.2).length := by
        obtain ⟨c, hc⟩ := Option.isSome_iff_exists.1 (h.first d t hroot)
        have hrow := length_pos_of_ne_nil hfits.1
        rw [length_kids, hc]
        exact Nat.add_le_add_left hrow 1
      have hsum := sum_kids_le (f := KeyTree.nodes d) (k := 14) (L := kids t.1 t.2) fun c hc =>
        (hfilled c hc).2.2.nodes_le (hfilled c hc).1
      have hpow := length_mul_le_sum (k := 15 ^ (d + 1)) (L := kids t.1 t.2) fun c hc =>
        (hfilled c hc).2.2.pow_le (hfilled c hc).1
      rw [← length_flat_succ] at hsum hpow
      rw [nodes_succ] at hcount
      refine ⟨by omega, ?_⟩
      -- a higher tree has more keys than there are
      have hd : d + 1 ≤ 8 := by
        by_contra hlt
        have h9 : 15 ^ 9 ≤ 15 ^ (d + 1) := Nat.pow_le_pow_right (by omega) (by omega)
        have h2 : 2 * 15 ^ (d + 1) ≤ (kids t.1 t.2).length * 15 ^ (d + 1) := Nat.mul_le_mul_right _ hkids
        have h3 : ulongLimit < 15 ^ 9 := by decide
        omega
      exact (Nat.succ_le_succ hd).trans (by decide)

theorem Broot.Sized.insertAll (h : br.Sized n) {l : List (ℕ × Chunk)} (hkeys : ∀ e ∈ l, e.1 < ulongLimit) :
    ∃ br' m, insertAll br l = .ok (br', m) ∧ br'.Sized (n + m) ∧
      ∀ e ∈ br'.chunks, e.1 ∈ l.map Prod.fst ∨ ∃ f ∈ br.chunks, f.1 = e.1 := by
  induction l generalizing br n with
  | nil => exact ⟨br, 0, rfl, h, fun e he => .inr ⟨e, he, rfl⟩⟩
  | cons e l ih =>
    obtain ⟨key, nval⟩ := e
    obtain ⟨br₁, h1, h2, h3⟩ := h.insert (hkeys _ mem_cons_self) nval
    obtain ⟨br₂, m, h4, h5, h6⟩ := ih h2 fun e he => hkeys e (mem_cons_of_mem _ he)
    refine ⟨br₂, btBallocs br key nval + m, ?_, by rwa [← Nat.add_assoc], fun e he => ?_⟩
    · rw [Vfd.insertAll, h1]
      simp only [h4]
      rfl
    · rw [map_cons, mem_cons]
      rcases h6 e he with he | ⟨f, hf, hfe⟩
      · exact .inl (.inr he)
      · rcases h3 f hf with hk | ⟨g, hg, hgf⟩
        · exact .inl (.inl (hfe ▸ hk))
        · exact .inr ⟨g, hg, hgf.trans hfe⟩

end Root

theorem Broot.Sized.new {br : Broot} (hnew : br.bRoot = none) : br.Sized 0 := by
  refine ⟨fun _ => rfl, ?_, ?_, ?_, ?_⟩ <;> exact fun d t ht => absurd (hnew.symm.trans ht) nofun

/-- Whatever the order of the insertions into an empty tree, with at most `x` different keys: none fails, the nodes
they allocate are not more than the estimate for `x` chunks, and the tree is not deeper than `B_DEPTH`. -/
theorem btree_resource_bound {br : Broot} (hnew : br.bRoot = none) {l : List (ℕ × Chunk)}
    (hkeys : ∀ e ∈ l, e.1 < ulongLimit) {x : ℕ} (hx : (l.map Prod.fst).dedup.length ≤ x) :
    ∃ br' n, insertAll br l = .ok (br', n) ∧ n ≤ overhead x ∧ br'.bDepth ≤ bDepthMax := by
  obtain ⟨br', n, h1, h2, h3⟩ := (Broot.Sized.new hnew).insertAll hkeys
  rw [Nat.zero_add] at h2
  obtain ⟨h4, h5⟩ := h2.bound
  refine ⟨br', n, h1, ?_, h5⟩
  have hsorted : Sorted br'.chunks := by
    rcases hroot : br'.bRoot with _ | ⟨d, t⟩
    · rw [Broot.chunks_none hroot]
      exact List.Pairwise.nil
    · rw [Broot.chunks_some hroot]
      exact (h2.fits d t hroot).sorted
  have hlen : br'.chunks.length ≤ x := by
    have hnodup : (br'.chunks.map Prod.fst).Nodup :=
      List.pairwise_map.2 (hsorted.imp fun hab => hab.ne)
    have hsub : br'.chunks.map Prod.fst ⊆ (l.map Prod.fst).dedup := by
      intro k hk
      obtain ⟨e, he, rfl⟩ := List.mem_map.1 hk
      rw [List.mem_dedup]
      refine (h3 e he).resolve_right ?_
      rw [Broot.chunks_none hnew]
      rintro ⟨f, hf, -⟩
      cases hf
    have hle := (hnodup.subperm hsub).length_le
    rw [List.length_map] at hle
    exact hle.trans hx
  rw [overhead, bOrd2, bOrdshift, Nat.shiftRight_eq_div_pow, Nat.le_div_iff_mul_le (by decide)]
  omega

/-- Two keys in the wrong order. -/
theorem btree_resource_bound_two : ∃ br' n,
    insertAll (btInit ⟨.dzero, 0⟩) [(7, Chunk.zero), (3, Chunk.zero)] = .ok (br', n) ∧ n ≤ overhead 2 ∧ br'.bDepth ≤ bDepthMax :=
  btree_resource_bound rfl (by simp [ulongLimit]) (by decide)

end Vfd

end Hpux
