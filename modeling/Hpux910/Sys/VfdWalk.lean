import Hpux910.Sys.VfdTree
import Mathlib

/-!
# Walks over the page descriptors

* `visitChunks`, `visit` : the plain loops over a list of chunks and over a list of entries, which
  stop at the first non-zero result.
* `forNode_spec` : the recursive walk over a node does what the loop does with the chunks of the
  node from left to right, though it goes past some children and stops early.
* `pages_eq` : the parts of the chunks in a range are its pages that have an entry, in order.
* `foreachChunk_spec`, `foreachEntry_spec`, `foreachValid_spec` : the three routines.
-/

namespace Hpux

namespace Vfd

open KeyTree List

variable {σ : Type*}

/-- Call the function for the chunks in the range until it gives a non-zero result.  The first
component says that it did. -/
def visitChunks (start cnt : ℕ) (fn : ChunkFn σ) :
    List (ℕ × Chunk) → σ → Bool × List (ℕ × Chunk) × σ
  | [], s => (false, [], s)
  | (key, c) :: rest, s =>
    let (r, c, s) := callPart start cnt fn key c s
    if r ≠ 0 then (true, (key, c) :: rest, s)
    else
      let (b, rest, s) := visitChunks start cnt fn rest s
      (b, (key, c) :: rest, s)

/-- Call the function for the entries until it gives a non-zero result. -/
def visit (fn : EntryFn σ) : List (ℕ × VfdDbd) → σ → Bool × σ
  | [], s => (false, s)
  | (i, e) :: rest, s =>
    let (r, _, s) := fn s i e
    if r ≠ 0 then (true, s) else visit fn rest s

section Chunks

variable {start cnt : ℕ} {fn : ChunkFn σ} {L L' A A' B B' : List (ℕ × Chunk)} {s s' s₁ : σ}
  {r : ℤ} {hi mid : ℕ}

variable {key : ℕ}

theorem callPart_out (h : ¬ InRange start cnt key) (c : Chunk) (s : σ) :
    callPart start cnt fn key c s = (0, c, s) := if_neg h

theorem visitChunks_go {c c' : Chunk} (h : callPart start cnt fn key c s = (0, c', s₁)) :
    visitChunks start cnt fn ((key, c) :: L) s = ((visitChunks start cnt fn L s₁).1,
      (key, c') :: (visitChunks start cnt fn L s₁).2.1, (visitChunks start cnt fn L s₁).2.2) := by
  rw [visitChunks, h]
  rfl

theorem visitChunks_stop {c c' : Chunk} (h : callPart start cnt fn key c s = (r, c', s₁))
    (hr : r ≠ 0) : visitChunks start cnt fn ((key, c) :: L) s = (true, (key, c') :: L, s₁) := by
  rw [visitChunks, h]
  exact if_pos hr

theorem visitChunks_out (h : ∀ e ∈ L, ¬ InRange start cnt e.1) (s : σ) :
    visitChunks start cnt fn L s = (false, L, s) := by
  induction L with
  | nil => rfl
  | cons e L ih =>
    rw [visitChunks_go (callPart_out (h e (by simp)) e.2 s), ih fun f hf => h f (by simp [hf])]

theorem visitChunks_append_stop (h : visitChunks start cnt fn A s = (true, A', s')) :
    visitChunks start cnt fn (A ++ B) s = (true, A' ++ B, s') := by
  induction A generalizing A' s with
  | nil => cases h
  | cons e A ih =>
    obtain ⟨key, c⟩ := e
    rcases hc : callPart start cnt fn key c s with ⟨r, c', s₁⟩
    by_cases hr : r ≠ 0
    · rw [visitChunks_stop hc hr] at h
      rw [cons_append, visitChunks_stop hc hr]
      cases h
      rfl
    · obtain rfl := not_ne_iff.1 hr
      rcases hA : visitChunks start cnt fn A s₁ with ⟨b, A₁, s₂⟩
      rw [visitChunks_go hc, hA] at h
      cases h
      rw [cons_append, visitChunks_go hc, ih hA]
      rfl

theorem visitChunks_append_go (h : visitChunks start cnt fn A s = (false, A', s₁)) :
    visitChunks start cnt fn (A ++ B) s = ((visitChunks start cnt fn B s₁).1,
      A' ++ (visitChunks start cnt fn B s₁).2.1, (visitChunks start cnt fn B s₁).2.2) := by
  induction A generalizing A' s with
  | nil =>
    cases h
    rfl
  | cons e A ih =>
    obtain ⟨key, c⟩ := e
    rcases hc : callPart start cnt fn key c s with ⟨r, c', s₂⟩
    by_cases hr : r ≠ 0
    · rw [visitChunks_stop hc hr] at h
      cases h
    · obtain rfl := not_ne_iff.1 hr
      rcases hA : visitChunks start cnt fn A s₂ with ⟨b, A₁, s₃⟩
      rw [visitChunks_go hc, hA] at h
      cases h
      rw [cons_append, visitChunks_go hc, ih hA]
      rfl

theorem visitChunks_keys (L : List (ℕ × Chunk)) (s : σ) :
    (visitChunks start cnt fn L s).2.1.map Prod.fst = L.map Prod.fst := by
  induction L generalizing s with
  | nil => rfl
  | cons e L ih =>
    obtain ⟨key, c⟩ := e
    rcases hc : callPart start cnt fn key c s with ⟨r, c', s₁⟩
    by_cases hr : r ≠ 0
    · rw [visitChunks_stop hc hr]
      rfl
    · obtain rfl := not_ne_iff.1 hr
      rw [visitChunks_go hc, map_cons, map_cons, ih]

/-- A walk with result `r` over chunks below `hi` did what the loop does.  A non-zero result means
that the function gave one, or that the range ends before `hi`. -/
def Walked (start cnt : ℕ) (fn : ChunkFn σ) (hi : ℕ) (L L' : List (ℕ × Chunk)) (s s' : σ) (r : ℤ) :
    Prop :=
  ∃ b, visitChunks start cnt fn L s = (b, L', s') ∧ (b = true → r ≠ 0) ∧
    (r ≠ 0 → b = true ∨ endIdx start cnt < hi)

theorem Walked.nil (s : σ) : Walked start cnt fn hi [] [] s s 0 := ⟨false, rfl, by simp, by simp⟩

theorem Walked.keys (h : Walked start cnt fn hi L L' s s' r) : L'.map Prod.fst = L.map Prod.fst := by
  obtain ⟨b, heq, -⟩ := h
  have := @visitChunks_keys _ start cnt fn L s
  rwa [heq] at this

theorem Walked.out (h : ∀ e ∈ L, ¬ InRange start cnt e.1) (s : σ) : Walked start cnt fn hi L L s s 0 :=
  ⟨false, visitChunks_out h s, by simp, by simp⟩

theorem Walked.single {c c' : Chunk} (h : callPart start cnt fn key c s = (r, c', s')) :
    Walked start cnt fn hi [(key, c)] [(key, c')] s s' r := by
  by_cases hr : r ≠ 0
  · exact ⟨true, visitChunks_stop h hr, fun _ => hr, fun _ => .inl rfl⟩
  · obtain rfl := not_ne_iff.1 hr
    exact ⟨false, visitChunks_go h, by simp, by simp⟩

/-- A walk that goes on. -/
theorem Walked.append (h : Walked start cnt fn mid A A' s s₁ 0)
    (h' : Walked start cnt fn hi B B' s₁ s' r) : Walked start cnt fn hi (A ++ B) (A' ++ B') s s' r := by
  obtain ⟨b, heq, hb, -⟩ := h
  obtain ⟨b', heq', hb', hr'⟩ := h'
  have hfalse : b = false := by
    cases b with
    | false => rfl
    | true => exact absurd rfl (hb rfl)
  rw [hfalse] at heq
  refine ⟨b', ?_, hb', hr'⟩
  rw [visitChunks_append_go heq, heq']

/-- A walk that stops, at a result of the function or behind the range. -/
theorem Walked.stop (h : Walked start cnt fn mid A A' s s' r)
    (hstop : r ≠ 0 ∨ endIdx start cnt < mid) (hB : ∀ e ∈ B, mid ≤ e.1) (hmid : mid ≤ hi) :
    Walked start cnt fn hi (A ++ B) (A' ++ B) s s' 1 := by
  obtain ⟨b, heq, -, hcase⟩ := h
  cases b with
  | true => exact ⟨true, visitChunks_append_stop heq, by simp, fun _ => .inl rfl⟩
  | false =>
    have hend : endIdx start cnt < mid :=
      hstop.elim (fun hr => (hcase hr).resolve_left (by simp)) id
    have hout : ∀ e ∈ B, ¬ InRange start cnt e.1 := by
      intro e he hin
      have h1 := hB e he
      have h2 := hin.2
      omega
    refine ⟨false, ?_, by simp, fun _ => .inr (by omega)⟩
    rw [visitChunks_append_go heq, visitChunks_out hout]

/-- The slots of a leaf. -/
theorem forLeaf_spec (hL : Sorted L) (hhi : ∀ e ∈ L, e.1 < hi) (s : σ) :
    Walked start cnt fn hi L (forLeaf start cnt fn L s).2.1 s (forLeaf start cnt fn L s).2.2
      (forLeaf start cnt fn L s).1 := by
  induction L generalizing s with
  | nil => exact .nil s
  | cons e L ih =>
    obtain ⟨key, c⟩ := e
    obtain ⟨h1, h2⟩ := pairwise_cons.1 hL
    have hkey : key < hi := hhi (key, c) (by simp)
    rcases hc : callPart start cnt fn key c s with ⟨r, c', s₁⟩
    have hone : Walked start cnt fn (key + 1) [(key, c)] [(key, c')] s s₁ r := .single hc
    rw [forLeaf, hc]
    dsimp only
    by_cases hr : r ≠ 0
    · rw [if_pos hr]
      exact hone.stop (.inl hr) h1 hkey
    · obtain rfl := not_ne_iff.1 hr
      rw [if_neg hr]
      by_cases hend : (key : ℤ) > endIdx start cnt
      · rw [if_pos hend]
        exact hone.stop (.inr (by omega)) h1 hkey
      · rw [if_neg hend]
        exact hone.append (ih h2 (fun e he => hhi e (by simp [he])) s₁)

section Interior

variable {β : Type*} {G : β → List (ℕ × Chunk)} {P : ℕ → ℕ → β → Prop} {visit : β → σ → ℤ × β × σ}
  {ps : List (ℕ × β)}

/-- The walk over a child keeps it well-formed, and is known. -/
def Visits (start cnt : ℕ) (fn : ChunkFn σ) (G : β → List (ℕ × Chunk)) (P : ℕ → ℕ → β → Prop)
    (visit : β → σ → ℤ × β × σ) : Prop :=
  ∀ lo hi c s, P lo hi c → P lo hi (visit c s).2.1 ∧
    Walked start cnt fn hi (G c) (G (visit c s).2.1) s (visit c s).2.2 (visit c s).1

theorem nextKey_of_keys {ps' : List (ℕ × β)} (h : ps'.map Prod.fst = ps.map Prod.fst) :
    nextKey hi ps' = nextKey hi ps := by
  cases ps with
  | nil => rw [map_eq_nil_iff.1 h]
  | cons e ps =>
    cases ps' with
    | nil => cases h
    | cons e' ps' => exact (List.cons.inj h).1

variable (hG : ∀ lo hi c, P lo hi c → ∀ e ∈ G c, lo ≤ e.1 ∧ e.1 < hi)
include hG

theorem Rows.bounds (h : Rows P hi ps) : ∀ e ∈ ps.flatMap fun e => G e.2, nextKey hi ps ≤ e.1 := by
  induction ps with
  | nil => simp
  | cons p ps ih =>
    obtain ⟨h1, h2, h3⟩ := h
    intro e he
    rw [flatMap_cons] at he
    rcases mem_append.1 he with he | he
    · exact (hG _ _ _ h2 e he).1
    · exact h1.le.trans (ih h3 e he)

/-- The slots of an interior node. -/
theorem forInterior_spec (hv : Visits start cnt fn G P visit) (h : Rows P hi ps) (s : σ) :
    Rows P hi (forInterior start cnt visit ps s).2.1 ∧
    (forInterior start cnt visit ps s).2.1.map Prod.fst = ps.map Prod.fst ∧
    Walked start cnt fn hi (ps.flatMap fun e => G e.2)
      ((forInterior start cnt visit ps s).2.1.flatMap fun e => G e.2) s
      (forInterior start cnt visit ps s).2.2 (forInterior start cnt visit ps s).1 := by
  induction ps generalizing s with
  | nil => exact ⟨trivial, rfl, .nil s⟩
  | cons e ps ih =>
    obtain ⟨key, c⟩ := e
    obtain ⟨h1, h2, h3⟩ := h
    rcases hc : visit c s with ⟨r, c', s₁⟩
    obtain ⟨hP, hwalk⟩ := hv _ _ c s h2
    rw [hc] at hP hwalk
    have hnext := Rows.bounds hG h3
    rw [forInterior, hc]
    dsimp only
    by_cases hr : r ≠ 0
    · rw [if_pos hr]
      exact ⟨⟨h1, hP, h3⟩, rfl, hwalk.stop (.inl hr) hnext h3.nextKey_le⟩
    · obtain rfl := not_ne_iff.1 hr
      rw [if_neg hr]
      by_cases hend : (key : ℤ) > endIdx start cnt
      · rw [if_pos hend]
        exact ⟨⟨h1, hP, h3⟩, rfl, hwalk.stop (.inr (by omega)) hnext h3.nextKey_le⟩
      · rw [if_neg hend]
        obtain ⟨h4, h5, h6⟩ := ih h3 s₁
        have hkeys := @nextKey_of_keys hi _ _ _ h5
        refine ⟨⟨by rw [hkeys]; exact h1, by rw [hkeys]; exact hP, h4⟩, by simp [h5], ?_⟩
        exact hwalk.append h6

/-- The child in front of the first key. -/
theorem forDown0_spec (hv : Visits start cnt fn G P visit) {lo : ℕ} {cur : Option β}
    (hcur : Below P lo (nextKey hi ps) cur) (hps : ps ≠ []) (s : σ) :
    Below P lo (nextKey hi ps) (forDown0 start visit cur ps s).2.1 ∧
    Walked start cnt fn (nextKey hi ps) (cur.elim [] G)
      ((forDown0 start visit cur ps s).2.1.elim [] G) s
      (forDown0 start visit cur ps s).2.2 (forDown0 start visit cur ps s).1 := by
  cases ps with
  | nil => exact absurd rfl hps
  | cons e ps =>
    obtain ⟨key, c₀⟩ := e
    cases cur with
    | none => exact ⟨hcur, .nil s⟩
    | some c =>
      rw [forDown0]
      dsimp only
      obtain ⟨h1, h2⟩ := hcur
      split_ifs with hstart
      · obtain ⟨hP, hwalk⟩ := hv _ _ c s h2
        exact ⟨⟨h1, hP⟩, hwalk⟩
      · -- the range starts behind this child
        refine ⟨⟨h1, h2⟩, .out (fun e he hin => ?_) s⟩
        have h3 := (hG _ _ _ h2 e he).2
        have h4 := hin.1
        have h5 : nextKey hi ((key, c₀) :: ps) = key := rfl
        omega

end Interior

/-- The walk over a node does what the loop does with its chunks. -/
theorem forNode_spec (d : ℕ) : Visits start cnt fn (flat d) (Fits bOrd d) (forNode start cnt fn d) := by
  induction d with
  | zero =>
    intro lo hi l s h
    have hwalk := @forLeaf_spec _ start cnt fn _ _ h.2.1
      (fun e he => (h.2.2 e he).2) s
    exact ⟨LeafFits.of_keys h hwalk.keys, hwalk⟩
  | succ d ih =>
    intro lo hi n s h
    obtain ⟨cur, ps⟩ := n
    obtain ⟨hnil, hlen, hchain⟩ := h
    have hG : ∀ lo hi (c : Node Chunk d), Fits bOrd d lo hi c →
        ∀ e ∈ flat d c, lo ≤ e.1 ∧ e.1 < hi := fun lo hi c hc => hc.bounds
    obtain ⟨hbelow, hrows⟩ := (chain_iff_rows hnil).1 hchain
    obtain ⟨hbelow', hwalk⟩ := forDown0_spec hG ih hbelow hnil s
    rcases hdown : forDown0 start (forNode start cnt fn d) cur ps s with ⟨r, cur', s₁⟩
    rw [hdown] at hbelow' hwalk
    have hnode : forNode start cnt fn (d + 1) (cur, ps) s =
        if r ≠ 0 then (1, (cur', ps), s₁)
        else ((forInterior start cnt (forNode start cnt fn d) ps s₁).1,
          (cur', (forInterior start cnt (forNode start cnt fn d) ps s₁).2.1),
          (forInterior start cnt (forNode start cnt fn d) ps s₁).2.2) := by
      simp only [forNode, hdown]
      rfl
    rw [hnode]
    by_cases hr : r ≠ 0
    · rw [if_pos hr]
      refine ⟨⟨hnil, hlen, (chain_iff_rows hnil).2 ⟨hbelow', hrows⟩⟩, ?_⟩
      exact hwalk.stop (.inl hr) (Rows.bounds hG hrows) hrows.nextKey_le
    · obtain rfl := not_ne_iff.1 hr
      rw [if_neg hr]
      obtain ⟨h4, h5, h6⟩ := forInterior_spec hG ih hrows s₁
      have hlen' := congrArg List.length h5
      simp only [length_map] at hlen'
      have hnil' : (forInterior start cnt (forNode start cnt fn d) ps s₁).2.1 ≠ [] := by
        intro h
        rw [h] at hlen'
        exact hnil (length_eq_zero_iff.1 hlen'.symm)
      refine ⟨⟨hnil', hlen'.trans_le hlen, (chain_iff_rows hnil').2 ⟨?_, h4⟩⟩, hwalk.append h6⟩
      rw [nextKey_of_keys h5]
      exact hbelow'

end Chunks

/-! ### The region -/

/-- The chunks of a region, in order. -/
def Region.chunkList (rp : Region) (br : Broot) : List (ℕ × Chunk) :=
  match br.bRoot with
  | none => if rp.rKey ≠ unusedIdx then [(rp.rKey, rp.rChunk)] else []
  | some ⟨d, n⟩ => flat d n

section Region

variable {rp rp' : Region} {br br' : Broot} {start cnt : ℕ} {fn : ChunkFn σ} {s : σ}

theorem lookup_isSome_keys {L L' : List (ℕ × Chunk)} (h : L'.map Prod.fst = L.map Prod.fst)
    (k : ℕ) : (L'.lookup k).isSome = (L.lookup k).isSome := by
  have hkeys : ∀ L : List (ℕ × Chunk), (L.lookup k).isSome = (L.map Prod.fst).contains k := by
    intro L
    induction L with
    | nil => rfl
    | cons e L ih =>
      rw [lookup_cons, map_cons, contains_cons, ← ih]
      cases k == e.1 <;> simp
  rw [hkeys, hkeys, h]

theorem chunkList_sorted (h : rp.Ok) (hbr : rp.rRoot = some br) : Sorted (rp.chunkList br) := by
  unfold Region.chunkList
  split
  · split_ifs
    · exact pairwise_singleton ..
    · exact List.Pairwise.nil
  · next d n hroot => exact ((h.root br hbr).1.tree _ hroot).sorted

theorem chunkList_lookup (h : rp.Ok) (hbr : rp.rRoot = some br) {k : ℕ} (hk : k < maxKey) :
    (rp.chunkList br).lookup k = rp.chunkAt k := by
  obtain ⟨-, htree⟩ := h.root br hbr
  unfold Region.chunkList
  split
  · next hroot =>
    rw [chunkAt_own hbr hroot]
    by_cases hun : rp.rKey = unusedIdx
    · have : unusedIdx ≠ k := by
        rintro rfl
        exact absurd hk (by decide)
      rw [if_neg (not_not.2 hun), hun, if_neg this]
      rfl
    · rw [if_pos hun]
      by_cases hkk : rp.rKey = k
      · rw [if_pos hkk, hkk, lookup_cons_self]
      · rw [if_neg hkk, lookup_cons, beq_eq_false_iff_ne.2 (Ne.symm hkk)]
        rfl
  · next d n hroot =>
    have hdont : rp.rKey = dontuseIdx := htree.resolve_left (by rw [hroot]; simp)
    rw [chunkAt_tree hbr hdont hk, Broot.chunks_some hroot]

/-- `foreach_chunk` is the loop over the chunks of the region. -/
theorem foreachChunk_eq (h : rp.Ok) (hbr : rp.rRoot = some br) (start cnt : ℕ) (fn : ChunkFn σ)
    (s : σ) : ∃ rp' br', foreachChunk rp start cnt fn s =
        (rp', (visitChunks start cnt fn (rp.chunkList br) s).2.2) ∧
      rp'.Ok ∧ rp'.rRoot = some br' ∧ br.SameProtos br' ∧ br'.bKeyCache = br.bKeyCache ∧
      rp'.rPgsz = rp.rPgsz ∧ rp'.rNvalid = rp.rNvalid ∧ rp'.rKey = rp.rKey ∧
      rp'.chunkList br' = (visitChunks start cnt fn (rp.chunkList br) s).2.1 := by
  obtain ⟨hok, htree⟩ := h.root br hbr
  rw [foreachChunk, hbr]
  dsimp only
  rcases hroot : br.bRoot with _ | ⟨d, n⟩
  · simp only [forVal2, hroot, Region.chunkList]
    by_cases hun : rp.rKey = unusedIdx
    · rw [if_neg (not_not.2 hun), if_neg (not_not.2 hun)]
      exact ⟨rp, br, rfl, h, hbr, .refl br, rfl, rfl, rfl, rfl, by simp [hroot, hun]; rfl⟩
    · rw [if_pos hun, if_pos hun]
      rcases hc : callPart start cnt fn rp.rKey rp.rChunk s with ⟨r, c, s₁⟩
      have hvisit : (visitChunks start cnt fn [(rp.rKey, rp.rChunk)] s).2 =
          ([(rp.rKey, c)], s₁) := by
        by_cases hr : r ≠ 0
        · rw [visitChunks_stop hc hr]
        · obtain rfl := not_ne_iff.1 hr
          rw [visitChunks_go hc]
          rfl
      rw [hvisit]
      refine ⟨{ rp with rChunk := c }, br, rfl, ⟨h.size, h.key, h.root⟩, hbr, .refl br, rfl, rfl,
        rfl, rfl, ?_⟩
      simp only [hroot]
      rw [if_pos hun]
  · simp only [forVal2, hroot, Region.chunkList]
    obtain ⟨hfits, b, hvisit, -⟩ := @forNode_spec _ start cnt fn d 0 maxKey
      n s (hok.tree _ hroot)
    have hdont : rp.rKey = dontuseIdx := htree.resolve_left (by rw [hroot]; simp)
    have hkeys := @visitChunks_keys _ start cnt fn (flat d n) s
    rw [hvisit] at hkeys
    rw [hvisit]
    refine ⟨_, { br with bRoot := some ⟨d, (forNode start cnt fn d n s).2.1⟩ }, rfl, ?_, rfl,
      ⟨rfl, rfl, rfl, rfl⟩, rfl, rfl, rfl, rfl, rfl⟩
    refine .ofTree h.size rfl hdont ⟨fun t ht => ?_, fun k hk => ?_⟩
    · obtain rfl := Option.some.inj ht
      exact hfits
    · refine (hok.cache k hk).imp id fun hsome => ?_
      rw [Broot.chunks_some hroot] at hsome
      show ((flat d (forNode start cnt fn d n s).2.1).lookup k).isSome
      rw [lookup_isSome_keys hkeys]
      exact hsome

end Region

/-! ### Entries -/

theorem lookup_of_mem {α : Type*} {L : List (ℕ × α)} (hL : Sorted L) {e : ℕ × α} (he : e ∈ L) :
    L.lookup e.1 = some e.2 := by
  obtain ⟨A, B, rfl⟩ := append_of_mem he
  obtain ⟨-, h2, h3⟩ := pairwise_append.1 hL
  have := lookup_between (B := [e]) (fun a ha => h3 a ha e (by simp))
    (fun b hb => (pairwise_cons.1 h2).1 b hb)
  rw [← append_cons] at this
  rw [this, lookup_cons_self]

theorem mem_of_lookup {α : Type*} {L : List (ℕ × α)} {k : ℕ} {c : α} (h : L.lookup k = some c) :
    (k, c) ∈ L := by
  induction L with
  | nil => cases h
  | cons e L ih =>
    rw [lookup_cons] at h
    by_cases hk : k = e.1
    · rw [beq_iff_eq.2 hk] at h
      obtain rfl := Option.some.inj h
      simp [hk]
    · rw [beq_eq_false_iff_ne.2 hk] at h
      exact mem_cons_of_mem _ (ih h)

/-- The pages of a chunk that lie in the range, with their entries. -/
def partPages (start cnt : ℕ) (e : ℕ × Chunk) : List (ℕ × VfdDbd) :=
  if InRange start cnt e.1 then
    (List.range (part start cnt e.1).2.2).map fun x =>
      ((part start cnt e.1).1 + x, e.2.at ((part start cnt e.1).2.1 + x))
  else []

/-- The pages of the range that have an entry, in order. -/
def Region.pages (rp : Region) (start cnt : ℕ) : List (ℕ × VfdDbd) :=
  if rp.rRoot.isNone then []
  else (List.range' start cnt).filterMap fun i => (rp.entry i).map fun e => (i, e)

section Pages

variable {start cnt : ℕ}

/-- The part of a chunk: its pages in the range, and where their entries are. -/
theorem part_spec {key : ℕ} (h : InRange start cnt key) :
    (∀ i, (part start cnt key).1 ≤ i ∧ i < (part start cnt key).1 + (part start cnt key).2.2 ↔
      start ≤ i ∧ i < start + cnt ∧ cindex i = key) ∧ (∀ x, x < (part start cnt key).2.2 →
      coffset ((part start cnt key).1 + x) = (part start cnt key).2.1 + x) ∧
    (part start cnt key).2.1 + (part start cnt key).2.2 ≤ chunkent := by
  obtain ⟨h1, h2⟩ := h
  obtain ⟨r, hr⟩ : ∃ r, r = if start > regidx key then start else regidx key := ⟨_, rfl⟩
  obtain ⟨j, hj⟩ : ∃ j, j = if start > regidx key then coffset start else 0 := ⟨_, rfl⟩
  obtain ⟨n, hn⟩ : ∃ n, n = if chunkent - j > start + cnt - r then start + cnt - r
    else chunkent - j := ⟨_, rfl⟩
  have hpart : part start cnt key = (r, j, n) := by
    rw [hn, hr, hj]
    rfl
  have hrj : (start > key * 32 ∧ r = start ∧ j = start % 32) ∨
      (start ≤ key * 32 ∧ r = key * 32 ∧ j = 0) := by
    by_cases hs : start > regidx key
    · rw [if_pos hs] at hr hj
      exact Or.inl ⟨hs, hr, hj⟩
    · rw [if_neg hs] at hr hj
      exact Or.inr ⟨not_lt.1 hs, hr, hj⟩
  have hcnt : n = min (start + cnt - r) (32 - j) := by
    rw [hn]
    by_cases hs : chunkent - j > start + cnt - r
    · rw [if_pos hs]
      exact (min_eq_left (le_of_lt hs)).symm
    · rw [if_neg hs]
      exact (min_eq_right (not_lt.1 hs)).symm
  simp only [endIdx, cindex, chunkent] at h1 h2
  push_cast at h2
  simp only [hpart, cindex, coffset, chunkent]
  clear hn hr hj hpart
  rcases hrj with ⟨hs, rfl, rfl⟩ | ⟨hs, rfl, rfl⟩
  · refine ⟨fun i => ⟨fun h => ?_, fun h => ?_⟩, fun x hx => ?_, ?_⟩
    all_goals omega
  · refine ⟨fun i => ⟨fun h => ?_, fun h => ?_⟩, fun x hx => ?_, ?_⟩
    all_goals omega

theorem not_inRange {key i : ℕ} (h : ¬ InRange start cnt key) (hlo : start ≤ i)
    (hhi : i < start + cnt) : cindex i ≠ key := by
  rintro rfl
  apply h
  simp only [InRange, endIdx, cindex, chunkent]
  push_cast
  omega

theorem mem_partPages {e : ℕ × Chunk} {p : ℕ × VfdDbd} : p ∈ partPages start cnt e ↔
    start ≤ p.1 ∧ p.1 < start + cnt ∧ cindex p.1 = e.1 ∧ p.2 = e.2.at (coffset p.1) := by
  unfold partPages
  split_ifs with hin
  · obtain ⟨h1, h2, -⟩ := part_spec hin
    constructor
    · intro hp
      obtain ⟨x, hx, rfl⟩ := mem_map.1 hp
      have hx := mem_range.1 hx
      obtain ⟨h3, h4, h5⟩ := (h1 ((part start cnt e.1).1 + x)).1 ⟨by omega, by omega⟩
      exact ⟨h3, h4, h5, by rw [h2 x hx]⟩
    · rintro ⟨h3, h4, h5, h6⟩
      obtain ⟨h7, h8⟩ := (h1 p.1).2 ⟨h3, h4, h5⟩
      refine mem_map.2 ⟨p.1 - (part start cnt e.1).1, mem_range.2 (by omega), ?_⟩
      have h9 := h2 (p.1 - (part start cnt e.1).1) (by omega)
      rw [show (part start cnt e.1).1 + (p.1 - (part start cnt e.1).1) = p.1 by omega] at h9 ⊢
      rw [← h9, ← h6]
  · refine iff_of_false (by simp) ?_
    rintro ⟨h3, h4, h5, -⟩
    exact not_inRange hin h3 h4 h5

theorem partPages_sorted (e : ℕ × Chunk) : Sorted (partPages start cnt e) := by
  unfold partPages
  split_ifs
  · refine pairwise_map.2 (List.Pairwise.imp (fun {a b} hab => ?_) pairwise_lt_range)
    show _ + a < _ + b
    omega
  · exact List.Pairwise.nil

/-- The parts of the chunks of a list are the pages of the range that have an entry in it. -/
theorem pages_eq {L : List (ℕ × Chunk)} (hL : Sorted L) :
    L.flatMap (partPages start cnt) = (List.range' start cnt).filterMap fun i =>
      (L.lookup (cindex i)).map fun c => (i, c.at (coffset i)) := by
  -- both lists have increasing pages, and the same members
  have hirr : Std.Irrefl fun a b : ℕ × VfdDbd => a.1 < b.1 := ⟨fun a => lt_irrefl a.1⟩
  have hanti : Std.Antisymm fun a b : ℕ × VfdDbd => a.1 < b.1 :=
    ⟨fun a b h h' => absurd (lt_trans h h') (lt_irrefl a.1)⟩
  refine List.Pairwise.eq_of_mem_iff (r := fun a b : ℕ × VfdDbd => a.1 < b.1) ?_ ?_ fun p => ?_
  · refine pairwise_flatMap.2 ⟨fun e _ => partPages_sorted e, ?_⟩
    refine hL.imp fun {e f} hef p hp q hq => ?_
    obtain ⟨-, -, hpe, -⟩ := mem_partPages.1 hp
    obtain ⟨-, -, hqf, -⟩ := mem_partPages.1 hq
    by_contra hle
    have hle : q.1 ≤ p.1 := not_lt.1 hle
    have : cindex q.1 ≤ cindex p.1 := Nat.div_le_div_right hle
    omega
  · refine List.Pairwise.filterMap _ (fun i i' hii p hp q hq => ?_) pairwise_lt_range'
    obtain ⟨c, -, rfl⟩ := Option.map_eq_some_iff.1 hp
    obtain ⟨c', -, rfl⟩ := Option.map_eq_some_iff.1 hq
    exact hii
  · rw [mem_flatMap, mem_filterMap]
    constructor
    · rintro ⟨e, he, hp⟩
      obtain ⟨h1, h2, h3, h4⟩ := mem_partPages.1 hp
      refine ⟨p.1, mem_range'_1.2 ⟨h1, h2⟩, ?_⟩
      rw [h3, lookup_of_mem hL he, Option.map_some, ← h4]
    · rintro ⟨i, hi, hp⟩
      obtain ⟨c, hc, rfl⟩ := Option.map_eq_some_iff.1 hp
      obtain ⟨h1, h2⟩ := mem_range'_1.1 hi
      exact ⟨(cindex i, c), mem_of_lookup hc, mem_partPages.2 ⟨h1, h2, rfl, rfl⟩⟩

end Pages

section Visit

variable {fn : EntryFn σ}

theorem visit_append (A B : List (ℕ × VfdDbd)) (s : σ) : visit fn (A ++ B) s =
    if (visit fn A s).1 = true then visit fn A s else visit fn B (visit fn A s).2 := by
  induction A generalizing s with
  | nil => rfl
  | cons p A ih =>
    rw [cons_append, visit, visit]
    rcases fn s p.1 p.2 with ⟨r, e, s₁⟩
    by_cases hr : r ≠ 0
    · simp only [if_pos hr, if_true]
    · simp only [if_neg hr, ih]

/-- `for_val3` visits the entries that the scan is for. -/
theorem forVal3_spec (scanAll : Bool) {cnt j : ℕ} (hfit : j + cnt ≤ chunkent) (s : σ) (idx : ℕ)
    (c : Chunk) : ((forVal3 scanAll fn cnt s idx j c).1 ≠ 0 ↔
        (visit fn (((List.range cnt).map fun x => (idx + x, c.at (j + x))).filter
          fun p => scanAll || p.2.cVfd.pgV) s).1 = true) ∧
      (forVal3 scanAll fn cnt s idx j c).2.2 =
        (visit fn (((List.range cnt).map fun x => (idx + x, c.at (j + x))).filter
          fun p => scanAll || p.2.cVfd.pgV) s).2 := by
  induction cnt generalizing s idx j c with
  | zero => simp [forVal3, visit]
  | succ cnt ih =>
    have hlist : ∀ c' : Chunk, (∀ x, x < cnt → c'.at (j + 1 + x) = c.at (j + 1 + x)) →
        (List.range (cnt + 1)).map (fun x => (idx + x, c.at (j + x))) =
          (idx, c.at j) :: (List.range cnt).map fun x => (idx + 1 + x, c'.at (j + 1 + x)) := by
      intro c' hc'
      rw [range_succ_eq_map, map_cons, map_map]
      refine congrArg _ (map_congr_left fun x hx => ?_)
      rw [hc' x (mem_range.1 hx)]
      simp [Nat.add_assoc, Nat.add_comm 1 x]
    rw [forVal3]
    by_cases hscan : scanAll = true ∨ (c.at j).cVfd.pgV = true
    · rw [if_pos hscan]
      have hkeep : (scanAll || (c.at j).cVfd.pgV) = true := by simpa using hscan
      rcases hcall : fn s idx (c.at j) with ⟨r, e, s₁⟩
      have hput : ∀ x, x < cnt → (c.put j e).at (j + 1 + x) = c.at (j + 1 + x) := by
        intro x hx
        rw [Chunk.at_put (by omega) (by omega), if_neg (by omega)]
      rw [hlist (c.put j e) hput, filter_cons, if_pos hkeep, visit, hcall]
      dsimp only
      by_cases hr : r ≠ 0
      · simp [if_pos hr]
      · rw [if_neg hr, if_neg hr]
        exact ih (by omega) s₁ (idx + 1) (c.put j e)
    · have hdrop : ¬ (scanAll || (c.at j).cVfd.pgV) = true := by simpa using hscan
      rw [if_neg hscan, hlist c fun _ _ => rfl, filter_cons, if_neg hdrop]
      exact ih (by omega) s (idx + 1) c

/-- The function that `foreach_entry` and `foreach_valid` give to `for_val2`. -/
abbrev scanFn (scanAll : Bool) (fn : EntryFn σ) : ChunkFn σ :=
  fun s idx j cnt c => forVal3 scanAll fn cnt s idx j c

theorem visitChunks_scan (scanAll : Bool) (start cnt : ℕ) (L : List (ℕ × Chunk)) (s : σ) :
    ((visitChunks start cnt (scanFn scanAll fn) L s).1,
        (visitChunks start cnt (scanFn scanAll fn) L s).2.2) =
      visit fn ((L.flatMap (partPages start cnt)).filter fun p => scanAll || p.2.cVfd.pgV) s := by
  induction L generalizing s with
  | nil => rfl
  | cons e L ih =>
    obtain ⟨key, c⟩ := e
    rw [flatMap_cons, filter_append, visit_append]
    rcases hc : callPart start cnt (scanFn scanAll fn) key c s with ⟨r, c', s₁⟩
    have hone : (r ≠ 0 ↔ (visit fn ((partPages start cnt (key, c)).filter
          fun p => scanAll || p.2.cVfd.pgV) s).1 = true) ∧
        s₁ = (visit fn ((partPages start cnt (key, c)).filter
          fun p => scanAll || p.2.cVfd.pgV) s).2 := by
      by_cases hin : InRange start cnt key
      · have := @forVal3_spec _ fn scanAll _ _ (part_spec hin).2.2 s (part start cnt key).1 c
        rw [callPart, if_pos hin] at hc
        rw [show forVal3 scanAll fn (part start cnt key).2.2 s (part start cnt key).1
          (part start cnt key).2.1 c = (r, c', s₁) from hc] at this
        rw [partPages, if_pos hin]
        exact this
      · rw [callPart_out hin] at hc
        rw [partPages, if_neg hin]
        cases hc
        simp [visit]
    obtain ⟨h1, h2⟩ := hone
    by_cases hr : r ≠ 0
    · rw [visitChunks_stop hc hr, if_pos (h1.1 hr)]
      exact Prod.ext (h1.1 hr).symm h2
    · obtain rfl := not_ne_iff.1 hr
      rw [visitChunks_go hc, if_neg (fun h => hr (h1.2 h)), ← h2, ← ih]

end Visit

/-! ### The three routines -/

section Foreach

variable {rp : Region} {start cnt : ℕ}

theorem pages_chunkList {br : Broot} (h : rp.Ok) (hbr : rp.rRoot = some br)
    (hfit : start + cnt ≤ 2 ^ 31) :
    (rp.chunkList br).flatMap (partPages start cnt) = rp.pages start cnt := by
  rw [pages_eq (chunkList_sorted h hbr), Region.pages, hbr]
  refine filterMap_congr fun i hi => ?_
  have hi := (mem_range'_1.1 hi).2
  have hkey : cindex i < maxKey := by
    simp only [cindex, chunkent, maxKey]
    omega
  rw [chunkList_lookup h hbr hkey, Region.entry, Option.map_map]
  rfl

/-- `foreach_chunk` calls its function for the parts of the chunks in order, up to the first
non-zero result. -/
theorem foreachChunk_spec (h : rp.Ok) (hfit : start + cnt ≤ 2 ^ 31) (fn : ChunkFn σ) (s : σ) :
    ∃ L : List (ℕ × Chunk), Sorted L ∧ L.flatMap (partPages start cnt) = rp.pages start cnt ∧
      (foreachChunk rp start cnt fn s).2 = (visitChunks start cnt fn L s).2.2 := by
  rcases hbr : rp.rRoot with _ | br
  · exact ⟨[], List.Pairwise.nil, by simp [Region.pages, hbr], by rw [foreachChunk, hbr]; rfl⟩
  · obtain ⟨rp', br', heq, -⟩ := foreachChunk_eq h hbr start cnt fn s
    exact ⟨rp.chunkList br, chunkList_sorted h hbr, pages_chunkList h hbr hfit, by rw [heq]⟩

theorem foreachEntry_spec (h : rp.Ok) (hfit : start + cnt ≤ 2 ^ 31) (fn : EntryFn σ) (s : σ) :
    (foreachEntry rp start cnt fn s).2 = (visit fn (rp.pages start cnt) s).2 := by
  obtain ⟨L, -, hL, heq⟩ := foreachChunk_spec h hfit (scanFn true fn) s
  have hscan := congrArg Prod.snd (@visitChunks_scan _ fn true start cnt L s)
  rw [foreachEntry, heq, hscan, hL]
  simp

/-- `foreach_valid` calls its function for the valid ones of them. -/
theorem foreachValid_spec (h : rp.Ok) (hfit : start + cnt ≤ 2 ^ 31)
    (hn : rp.rNvalid = 0 → ∀ p ∈ rp.pages start cnt, p.2.cVfd.pgV = false) (fn : EntryFn σ) (s : σ) :
    (foreachValid rp start cnt fn s).2 =
      (visit fn ((rp.pages start cnt).filter fun p => p.2.cVfd.pgV) s).2 := by
  unfold foreachValid
  split_ifs with hzero
  · rw [filter_eq_nil_iff.2 fun p hp => by simp [hn hzero p hp]]
    rfl
  · obtain ⟨L, -, hL, heq⟩ := foreachChunk_spec h hfit (scanFn false fn) s
    have hscan := congrArg Prod.snd (@visitChunks_scan _ fn false start cnt L s)
    rw [heq, hscan, hL]
    simp

end Foreach

end Vfd

end Hpux
