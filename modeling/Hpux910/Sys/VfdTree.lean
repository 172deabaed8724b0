import Hpux910.Sys.VfdProto

/-!
# The tree of chunks

* `nodeSearch_spec`, `nodeInsert_spec`, `flat_mapAt` : the search finds what the node has; an
  insertion adds the entry, whether nodes are split or not; a write changes one value.
* `Region.Ok` : the invariant of a region.  It has its chunk in the tree or in itself, and the cache
  of the root names chunks of the tree.
* `findentry_spec` : a lookup never fails within the size of the region, gives the page an entry
  with its prototypes if it has none, and changes no other entry.
* `entry_modify` : a write through the pointers changes one page.
-/

namespace Hpux

namespace Vfd

open KeyTree List Option

/-! ### Nodes -/

section Nodes

variable {α β : Type*} {key lo hi d : ℕ} {v : α} {l : List (ℕ × α)}

theorem leafSearch_eq (h : Sorted l) : leafSearch key l = l.lookup key := by
  induction l with
  | nil => rfl
  | cons e l ih =>
    obtain ⟨h1, h2⟩ := pairwise_cons.1 h
    rw [leafSearch]
    split_ifs with hge heq
    · rw [← heq, lookup_cons_self]
    · rw [eq_comm, lookup_eq_none_iff]
      intro f hf
      rw [bne_iff_ne]
      rcases mem_cons.1 hf with rfl | hf
      · exact fun h => heq h.symm
      · have := h1 f hf
        omega
    · have hne : (key == e.1) = false := by
        rw [beq_eq_false_iff_ne]
        omega
      rw [ih h2, lookup_cons, hne]

theorem nodeSearch_spec {n : Node α d} (h : Fits bOrd d lo hi n) (hlo : lo ≤ key) (hhi : key < hi) :
    nodeSearch key d n = (flat d n).lookup key := by
  induction d generalizing lo hi with
  | zero => exact leafSearch_eq h.2.1
  | succ d ih =>
    obtain ⟨c, lo', hi', A, B, hc, hlo', hhi', hP, hrow, hA, hB⟩ :=
      h.2.2.child_spec (fun lo hi c hc => hc.bounds) hlo hhi
    rw [nodeSearch, hc, bind_some, ih hP hlo' hhi', flat, hrow, lookup_between hA hB]

/-- A row that is too long is cut in the middle. -/
theorem split_cases (l : List (ℕ × β)) (hlen : l.length ≤ bOrd + 1) :
    (l.length ≤ bOrd ∧ split l = (l, none)) ∨
    ∃ A k c B, l = A ++ (k, c) :: B ∧ A ≠ [] ∧ A.length ≤ bOrd ∧ B.length + 1 ≤ bOrd ∧
      split l = (A, some (k, (k, c) :: B)) := by
  unfold split
  split_ifs with hshort
  · exact .inl ⟨hshort, rfl⟩
  · right
    have h30 : l.length = 30 := by simp only [bOrd] at hlen hshort; omega
    obtain ⟨A, hA⟩ : ∃ A, A = l.take (bSize / 2) := ⟨_, rfl⟩
    obtain ⟨U, hU⟩ : ∃ U, U = l.drop (bSize / 2) := ⟨_, rfl⟩
    have hhalf : bSize / 2 = 15 := rfl
    have hAl : A.length = 15 := by rw [hA, length_take, h30, hhalf]; rfl
    have hUl : U.length = 15 := by rw [hU, length_drop, h30, hhalf]
    have hl : l = A ++ U := by rw [hA, hU, take_append_drop]
    rw [← hU, take_of_length_le (by omega), ← hA]
    cases U with
    | nil => cases hUl
    | cons e B =>
      refine ⟨A, e.1, e.2, B, hl, ?_, by simp only [bOrd]; omega, ?_, rfl⟩
      · rintro rfl
        cases hAl
      · rw [length_cons] at hUl
        simp only [bOrd]
        omega

/-- The insertion into a leaf. -/
theorem leafInsert_spec (h : LeafFits bOrd lo hi l) (hlo : lo ≤ key)
    (hhi : key < hi) (hne : ∀ e ∈ l, e.1 ≠ key) : ∃ l' sp, split (insertAt key v l) = (l', sp) ∧
      Grown id (LeafFits bOrd) key v lo hi l l' sp := by
  obtain ⟨hlen, hsort, hbd⟩ := h
  have hsort' : Sorted (insertAt key v l) := hsort.insertAt hne
  have hbd' : ∀ e ∈ insertAt key v l, lo ≤ e.1 ∧ e.1 < hi := by
    intro e he
    rcases mem_insertAt.1 he with rfl | he
    · exact ⟨hlo, hhi⟩
    · exact hbd e he
  rcases split_cases (insertAt key v l) (by rw [length_insertAt]; omega) with
    ⟨hshort, heq⟩ | ⟨A, k, c, B, hAB, hA, hAlen, hBlen, heq⟩
  · exact ⟨insertAt key v l, none, heq, by simp, hshort, hsort', hbd'⟩
  · rw [hAB] at hsort' hbd'
    obtain ⟨hsA, hsB, hlt⟩ := pairwise_append.1 hsort'
    refine ⟨A, some (k, (k, c) :: B), heq, hAB.symm, ?_, ?_, ⟨hAlen, hsA, ?_⟩, hBlen, hsB, ?_⟩
    · obtain ⟨e, he⟩ := exists_mem_of_ne_nil A hA
      exact lt_of_le_of_lt (hbd' e (by simp [he])).1 (hlt e he (k, c) (by simp))
    · exact (hbd' (k, c) (by simp)).2
    · exact fun e he => ⟨(hbd' e (by simp [he])).1, hlt e he (k, c) (by simp)⟩
    · intro e he
      refine ⟨?_, (hbd' e (mem_append_right _ he)).2⟩
      rcases mem_cons.1 he with rfl | he
      · exact le_rfl
      · exact ((pairwise_cons.1 hsB).1 e he).le

/-- The insertion adds the entry to the node; when the node is split, its upper keys go to a new
node of the same height. -/
theorem nodeInsert_spec {n : Node α d} (h : Fits bOrd d lo hi n) (hlo : lo ≤ key) (hhi : key < hi)
    (hne : ∀ e ∈ flat d n, e.1 ≠ key) : ∃ n' sp, nodeInsert key v d n = some (n', sp) ∧
      Grown (flat d) (Fits bOrd d) key v lo hi n n' sp := by
  induction d generalizing lo hi with
  | zero =>
    obtain ⟨l', sp, heq, hgrown⟩ := leafInsert_spec (v := v) h hlo hhi hne
    exact ⟨l', sp, congrArg some heq, hgrown⟩
  | succ d ih =>
    obtain ⟨hnil, hlen, hchain⟩ := h
    obtain ⟨cur, ps, sp, heq, hps, hlt, -, hchain', hrow⟩ :=
      hchain.enter_spec (f := nodeInsert key v d) (v := v) (fun lo hi c hc => hc.bounds)
        (fun lo hi c hc h1 h2 h3 => ih hc h1 h2 h3) hlo hhi hne
    rw [nodeInsert, heq, map_some]
    cases sp with
    | none =>
      refine ⟨(cur, ps), none, rfl, ?_, ?_⟩
      · simpa [flat, linked] using hrow
      · refine ⟨fun h => hnil ?_, hps.trans_le hlen, hchain'⟩
        have hps' : ([] : List (ℕ × Node α d)).length = n.2.length := h ▸ hps
        exact length_eq_zero_iff.1 hps'.symm
    | some e =>
      have hlink : linked ps (some e) = insertAt e.1 e.2 ps := rfl
      rw [hlink] at hchain' hrow
      rcases split_cases (insertAt e.1 e.2 ps) (by
          rw [length_insertAt, hps]; exact Nat.succ_le_succ hlen) with
        ⟨hshort, hsp⟩ | ⟨A, k, c, B, hAB, hA, hAlen, hBlen, hsp⟩
      · refine ⟨(cur, insertAt e.1 e.2 ps), none, ?_, ?_, ?_, hshort, hchain'⟩
        · dsimp only
          rw [hsp]
          rfl
        · simpa [flat] using hrow
        · exact ne_nil_of_length_pos (by simp)
      · rw [hAB] at hchain' hrow
        obtain ⟨h1, h2, h3⟩ := (chain_append hA).1 hchain'
        refine ⟨(cur, A), some (k, (none, (k, c) :: B)), ?_, ?_, ?_, h2, ⟨hA, hAlen, h1⟩,
          cons_ne_nil _ _, hBlen, rfl, h2, h3⟩
        · dsimp only
          rw [hsp]
          rfl
        · show row (flat d) cur A ++ row (flat d) none ((k, c) :: B) = _
          rw [flat, ← hrow]
          simp [row]
        · cases A with
          | nil => exact absurd rfl hA
          | cons e A => exact h1.lt_of_cons

theorem flat_mapAt (f : α → α) (n : Node α d) :
    flat d (mapAt key f d n) = (flat d n).map fun e => if e.1 = key then (e.1, f e.2) else e := by
  induction d with
  | zero => rfl
  | succ d ih =>
    obtain ⟨cur, ps⟩ := n
    show row (flat d) (cur.map (mapAt key f d)) (ps.map fun e => (e.1, mapAt key f d e.2)) =
      (row (flat d) cur ps).map _
    rw [row, row, map_append, map_flatMap, flatMap_map]
    simp only [ih]
    cases cur with
    | none => rfl
    | some c => simp [ih]

theorem fits_mapAt {f : α → α} {n : Node α d} (h : Fits bOrd d lo hi n) :
    Fits bOrd d lo hi (mapAt key f d n) := by
  induction d generalizing lo hi with
  | zero =>
    obtain ⟨hlen, hsort, hbd⟩ := h
    have hkey : ∀ e : ℕ × α, (if e.1 = key then (e.1, f e.2) else e).1 = e.1 := by
      intro e
      split_ifs <;> rfl
    refine ⟨(length_map _).trans_le hlen, ?_, ?_⟩
    · refine pairwise_map.2 (List.Pairwise.imp (fun {a b} hab => ?_) hsort)
      rw [hkey, hkey]
      exact hab
    · intro e he
      obtain ⟨e₀, he₀, rfl⟩ := mem_map.1 he
      rw [hkey]
      exact hbd e₀ he₀
  | succ d ih =>
    refine ⟨fun hnil => h.1 (map_eq_nil_iff.1 hnil), (length_map _).trans_le h.2.1, ?_⟩
    exact h.2.2.map fun lo hi c hc => ih hc

theorem lookup_mapAt {f : α → α} {k : ℕ} :
    (l.map fun e => if e.1 = key then (e.1, f e.2) else e).lookup k =
      if k = key then (l.lookup k).map f else l.lookup k := by
  induction l with
  | nil => simp
  | cons e l ih =>
    rw [map_cons, lookup_cons, lookup_cons, ih]
    by_cases he : e.1 = key
    · rw [if_pos he]
      by_cases hk : k = e.1
      · rw [beq_iff_eq.2 hk]
        simp [hk, he]
      · rw [beq_eq_false_iff_ne.2 hk]
    · rw [if_neg he]
      by_cases hk : k = e.1
      · rw [beq_iff_eq.2 hk]
        simp [hk, he]
      · rw [beq_eq_false_iff_ne.2 hk]

end Nodes

/-! ### The invariant -/

/-- More pages than an address space has. -/
def maxPages : ℕ := 2 ^ 30

/-- More than every index of a page. -/
def maxIndex : ℕ := 2 ^ 31

/-- More than every index of a chunk. -/
def maxKey : ℕ := 2 ^ 26

/-- The tree is one, and the cache names chunks of it. -/
structure Broot.Ok (br : Broot) : Prop where
  tree : ∀ t, br.bRoot = some t → Fits bOrd t.1 0 maxKey t.2
  cache : ∀ k, k = br.bKeyCache.1 ∨ k = br.bKeyCache.2 →
    k = unusedIdx ∨ (br.chunks.lookup k).isSome

/-- The region fits an address space, and the tree is used only when the chunk of the region is not. -/
structure Region.Ok (rp : Region) : Prop where
  size : rp.rPgsz < maxPages
  key : rp.rKey = unusedIdx ∨ rp.rKey = dontuseIdx ∨ rp.rKey < maxKey
  root : ∀ br, rp.rRoot = some br → br.Ok ∧ (br.bRoot = none ∨ rp.rKey = dontuseIdx)

/-- The prototypes of a page. -/
def Broot.proto (br : Broot) (i : ℕ) : VfdDbd := ⟨(defaultVfd br i).1, defaultDbd br i⟩

section Root

variable {br : Broot} {key : ℕ} {nval : Chunk}

theorem Broot.chunks_none (h : br.bRoot = none) : br.chunks = [] := by
  rw [Broot.chunks, h]
  rfl

theorem Broot.chunks_some {d : ℕ} {n : Node Chunk d} (h : br.bRoot = some ⟨d, n⟩) :
    br.chunks = flat d n := by
  rw [Broot.chunks, h]
  rfl

/-- `bt_search` finds what the tree has. -/
theorem btSearch_spec (h : br.Ok) (hkey : key < maxKey) :
    (btSearch br key).1 = (br.chunks.lookup key).isSome ∧ (btSearch br key).2.Ok ∧
      (btSearch br key).2.bRoot = br.bRoot := by
  have hfind : (br.bRoot.bind fun t => nodeSearch key t.1 t.2) = br.chunks.lookup key := by
    rcases hroot : br.bRoot with _ | ⟨d, n⟩
    · rw [Broot.chunks_none hroot]
      rfl
    · rw [Broot.chunks_some hroot]
      exact nodeSearch_spec (h.tree _ hroot) (Nat.zero_le _) hkey
  unfold btSearch
  rw [hfind]
  split_ifs with hcache
  · refine ⟨?_, h, rfl⟩
    rcases h.cache _ (.inl rfl) with hun | hsome
    · rw [hcache] at hun
      rw [hun] at hkey
      exact absurd hkey (by decide)
    · rw [hcache] at hsome
      exact hsome.symm
  · rcases hl : br.chunks.lookup key with _ | c
    · exact ⟨rfl, h, rfl⟩
    · refine ⟨rfl, ⟨h.tree, fun k hk => ?_⟩, rfl⟩
      show k = unusedIdx ∨ (br.chunks.lookup k).isSome
      rcases hk with hk | hk
      · rw [show k = key from hk, hl]
        exact .inr rfl
      · exact h.cache k (.inl hk)

/-- `bt_insert` adds the chunk. -/
theorem btInsert_spec (h : br.Ok) (hkey : key < maxKey) (hnone : br.chunks.lookup key = none)
    (nval : Chunk) : ∃ br', btInsert br key nval = .ok br' ∧ br'.Ok ∧
      (∀ k, br'.chunks.lookup k = if k = key then some nval else br.chunks.lookup k) ∧
      br'.chunks = insertAt key nval br.chunks := by
  have hne : ∀ e ∈ br.chunks, e.1 ≠ key := by
    intro e he heq
    have := lookup_eq_none_iff.1 hnone e he
    rw [bne_iff_ne] at this
    exact this heq.symm
  -- it is enough to say what the new tree is
  have hfinish : ∀ br' : Broot, br'.bKeyCache = (br.insCache key).bKeyCache →
      (∀ t, br'.bRoot = some t → Fits bOrd t.1 0 maxKey t.2) →
      br'.chunks = insertAt key nval br.chunks → br'.Ok ∧
        (∀ k, br'.chunks.lookup k = if k = key then some nval else br.chunks.lookup k) ∧
        br'.chunks = insertAt key nval br.chunks := by
    intro br' hc hfits hflat
    have hlook : ∀ k, br'.chunks.lookup k = if k = key then some nval else br.chunks.lookup k := by
      intro k
      rw [hflat, lookup_insertAt hne]
    refine ⟨⟨hfits, fun k hk => ?_⟩, hlook, hflat⟩
    rw [hc] at hk
    rw [hlook]
    split_ifs with hkk
    · exact .inr rfl
    · rcases hk with hk | hk
      · exact absurd hk hkk
      · exact h.cache k (.inl hk)
  unfold btInsert
  rcases hroot : br.bRoot with _ | ⟨d, n⟩
  · refine ⟨_, rfl, hfinish _ rfl (fun t ht => ?_) ?_⟩
    · obtain rfl := Option.some.inj ht
      exact ⟨Nat.le_add_left 1 28, pairwise_singleton .., by simpa using hkey⟩
    · rw [Broot.chunks_none hroot]
      rfl
  · have hfit := h.tree _ hroot
    have hflat := Broot.chunks_some hroot
    have hsearch : nodeSearch key d n = none := by
      rw [nodeSearch_spec hfit (Nat.zero_le _) hkey, ← hflat, hnone]
    obtain ⟨n', sp, heq, hgrow, hsp⟩ := nodeInsert_spec (v := nval) hfit (Nat.zero_le _) hkey
      (by rw [← hflat]; exact hne)
    simp only [hsearch, heq]
    cases sp with
    | none =>
      refine ⟨_, rfl, hfinish _ rfl (fun t ht => ?_) ?_⟩
      · obtain rfl := Option.some.inj ht
        exact hsp
      · rw [hflat, ← hgrow]
        exact (append_nil _).symm
    | some e =>
      refine ⟨_, rfl, hfinish _ rfl (fun t ht => ?_) ?_⟩
      · obtain rfl := Option.some.inj ht
        exact ⟨cons_ne_nil _ _, Nat.le_add_left 1 28, ⟨hsp.1, hsp.2.2.1⟩, hsp.2.1, e.2, rfl,
          hsp.2.2.2⟩
      · rw [hflat, ← hgrow]
        show row (flat d) (some n') [(e.1, e.2)] = _
        simp [row]

end Root

/-! ### Lookups -/

section Region

variable {rp rp' : Region} {br : Broot} {i j key : ℕ}

theorem Region.Ok.ofTree (hsize : rp.rPgsz < maxPages) (hbr : rp.rRoot = some br)
    (hkey : rp.rKey = dontuseIdx) (hok : br.Ok) : rp.Ok := by
  refine ⟨hsize, .inr (.inl hkey), fun br' hbr' => ?_⟩
  obtain rfl := Option.some.inj (hbr.symm.trans hbr')
  exact ⟨hok, .inr hkey⟩

theorem Region.Ok.ofOwn (hsize : rp.rPgsz < maxPages) (hbr : rp.rRoot = some br)
    (hkey : rp.rKey = unusedIdx ∨ rp.rKey < maxKey) (hok : br.Ok) (hnone : br.bRoot = none) :
    rp.Ok := by
  refine ⟨hsize, hkey.imp id .inr, fun br' hbr' => ?_⟩
  obtain rfl := Option.some.inj (hbr.symm.trans hbr')
  exact ⟨hok, .inl hnone⟩

theorem chunkAt_tree (hbr : rp.rRoot = some br) (hkey : rp.rKey = dontuseIdx) {k : ℕ}
    (hk : k < maxKey) : rp.chunkAt k = br.chunks.lookup k := by
  have : dontuseIdx ≠ k := by
    rintro rfl
    exact absurd hk (by decide)
  rw [Region.chunkAt, hkey, if_neg this, hbr, bind_some]

theorem chunkAt_own (hbr : rp.rRoot = some br) (hnone : br.bRoot = none) (k : ℕ) :
    rp.chunkAt k = if rp.rKey = k then some rp.rChunk else none := by
  rw [Region.chunkAt, hbr, bind_some, Broot.chunks_none hnone]
  rfl

theorem cindex_lt {i : ℕ} (h : i < maxIndex) : cindex i < maxKey := by
  simp only [cindex, chunkent, maxIndex, maxKey] at h ⊢
  omega

theorem index_lt {i : ℕ} (h : i < maxPages) : i < maxIndex := h.trans (by decide)

theorem fillLoop_same {br' : Broot} (h : br.SameProtos br') (idx : ℕ) (dbd : Dbd) (n j : ℕ)
    (vfd : VfdT × ℤ) (c : Chunk) : fillLoop br' idx dbd n j vfd c = fillLoop br idx dbd n j vfd c := by
  induction n generalizing j vfd c with
  | zero => rfl
  | succ n ih =>
    simp only [fillLoop, ih]
    rw [defaultVfd, defaultVfd, h.1]

theorem fillchunk_same {br' : Broot} (h : br.SameProtos br') (c : Chunk) (idx : ℕ) :
    fillchunk c br' idx = fillchunk c br idx := by
  simp only [fillchunk, fillLoop_same h, defaultVfd, defaultDbd, h.1, h.2.1, h.2.2.1, h.2.2.2]

/-- What a lookup of page `i` makes of the chunks. -/
def Looked (br : Broot) (i : ℕ) (rp rp' : Region) : Prop :=
  ∀ k, k < maxKey → rp'.chunkAt k = if k = cindex i then
    some ((rp.chunkAt k).getD (fillchunk .zero br (chunkround i))) else rp.chunkAt k

/-- A lookup within the region does not fail, and makes the chunk if there is none. -/
theorem findentry_spec (h : rp.Ok) (hbr : rp.rRoot = some br) (hi : i < rp.rPgsz) :
    ∃ rp', findentry rp i = .ok rp' ∧ rp'.Ok ∧ rp'.rNvalid = rp.rNvalid ∧ Looked br i rp rp' := by
  have hkey : cindex i < maxKey := cindex_lt (index_lt (hi.trans h.size))
  obtain ⟨hok, htree⟩ := h.root br hbr
  unfold findentry
  simp only [hbr]
  rw [if_neg (by omega)]
  by_cases hown : rp.rKey = cindex i
  · rw [if_pos hown]
    refine ⟨rp, rfl, h, rfl, fun k _ => ?_⟩
    split_ifs with hk
    · rw [hk, Region.chunkAt, if_pos hown]
      rfl
    · rfl
  rw [if_neg hown]
  by_cases hunused : rp.rKey = unusedIdx
  · -- the chunk of the region is used for the first time
    rw [if_pos hunused]
    have hnone : br.bRoot = none := htree.resolve_right (by rw [hunused]; decide)
    refine ⟨_, rfl, .ofOwn h.size rfl (.inr hkey) hok hnone, rfl, fun k hk => ?_⟩
    have hold : rp.chunkAt k = none := by
      rw [chunkAt_own hbr hnone, hunused, if_neg]
      rintro rfl
      exact absurd hk (by decide)
    rw [hold, chunkAt_own rfl hnone]
    by_cases hkk : cindex i = k
    · rw [if_pos hkk, if_pos hkk.symm]
      rfl
    · rw [if_neg hkk, if_neg (Ne.symm hkk)]
  rw [if_neg hunused]
  by_cases hdont : rp.rKey = dontuseIdx
  · rw [if_pos hdont]
    obtain ⟨h1, h2, h3⟩ := btSearch_spec hok hkey
    rcases hs : btSearch br (cindex i) with ⟨found, br₁⟩
    rw [hs] at h1 h2 h3
    have hchunks : br₁.chunks = br.chunks := by rw [Broot.chunks, Broot.chunks, h3]
    cases found with
    | true =>
      refine ⟨_, rfl, .ofTree h.size rfl hdont h2, rfl, fun k hk => ?_⟩
      rw [@chunkAt_tree { rp with rRoot := some br₁ } br₁ rfl hdont k hk, hchunks,
        chunkAt_tree hbr hdont hk]
      split_ifs with hkk
      · rw [hkk]
        obtain ⟨c, hc⟩ := isSome_iff_exists.1 h1.symm
        rw [hc]
        rfl
      · rfl
    | false =>
      have hnone : br.chunks.lookup (cindex i) = none := isSome_eq_false_iff.1 h1.symm |>
        isNone_iff_eq_none.1
      obtain ⟨br₂, hins, hok₂, hlook, -⟩ := btInsert_spec h2 hkey (by rw [hchunks, hnone])
        (fillchunk .zero br₁ (chunkround i))
      have hproto : fillchunk .zero br₁ (chunkround i) = fillchunk .zero br (chunkround i) :=
        fillchunk_same (by simpa only [hs] using btSearch_proto br (cindex i)) _ _
      simp only [hins]
      refine ⟨_, rfl, .ofTree h.size rfl hdont hok₂, rfl, fun k hk => ?_⟩
      rw [@chunkAt_tree { rp with rRoot := some br₂ } br₂ rfl hdont k hk, hlook, hchunks,
        chunkAt_tree hbr hdont hk, hproto]
      split_ifs with hkk
      · rw [hkk, hnone]
        rfl
      · rfl
  · -- the chunk of the region moves into the tree
    rw [if_neg hdont]
    have hnone : br.bRoot = none := htree.resolve_right hdont
    have hreal : rp.rKey < maxKey := (h.key.resolve_left hunused).resolve_left hdont
    have hkill : br.killCache.Ok := by
      refine ⟨fun t ht => absurd (hnone.symm.trans ht) (by simp), fun k hk => ?_⟩
      rcases hk with hk | hk <;> exact .inl hk
    have hempty : br.killCache.chunks = [] := Broot.chunks_none hnone
    obtain ⟨br₁, hins₁, hok₁, hlook₁, -⟩ :=
      btInsert_spec hkill hreal (by rw [hempty]; rfl) rp.rChunk
    obtain ⟨br₂, hins₂, hok₂, hlook₂, -⟩ := btInsert_spec hok₁ hkey
      (by rw [hlook₁, if_neg (Ne.symm hown), hempty]; rfl) (fillchunk .zero br₁ (chunkround i))
    have hkilled : br.SameProtos br.killCache := ⟨rfl, rfl, rfl, rfl⟩
    have hproto : fillchunk .zero br₁ (chunkround i) = fillchunk .zero br (chunkround i) :=
      fillchunk_same (hkilled.trans (btInsert_proto hins₁)) _ _
    simp only [hins₁, hins₂]
    refine ⟨_, rfl, .ofTree h.size rfl rfl hok₂, rfl, fun k hk => ?_⟩
    rw [@chunkAt_tree { rp with rRoot := some br₂, rKey := dontuseIdx, rChunk := .zero } br₂ rfl rfl
      k hk, hlook₂, hlook₁, hempty, chunkAt_own hbr hnone, hproto]
    by_cases hkk : k = cindex i
    · rw [if_pos hkk, if_pos hkk, if_neg (by omega)]
      rfl
    · rw [if_neg hkk, if_neg hkk]
      by_cases hk' : k = rp.rKey
      · rw [if_pos hk', if_pos hk'.symm]
      · rw [if_neg hk', if_neg (Ne.symm hk')]
        rfl

/-- A chunk that the cache names exists. -/
theorem cached_chunkAt (h : rp.Ok) (hbr : rp.rRoot = some br) (hi : i < maxIndex)
    (hc : br.bKeyCache.1 = cindex i ∨ br.bKeyCache.2 = cindex i) : (rp.chunkAt (cindex i)).isSome := by
  obtain ⟨hok, htree⟩ := h.root br hbr
  have hkey := cindex_lt hi
  rcases hok.cache (cindex i) (hc.imp Eq.symm Eq.symm) with hun | hsome
  · rw [hun] at hkey
    exact absurd hkey (by decide)
  · rcases htree with hnone | hdont
    · rw [Broot.chunks_none hnone] at hsome
      cases hsome
    · rwa [chunkAt_tree hbr hdont hkey]

/-- The same for the macros, which trust the cache. -/
theorem findEntryMacro_spec (h : rp.Ok) (hbr : rp.rRoot = some br) (hi : i < rp.rPgsz) :
    ∃ rp', findEntryMacro rp i = .ok rp' ∧ rp'.Ok ∧ rp'.rNvalid = rp.rNvalid ∧ Looked br i rp rp' := by
  unfold findEntryMacro
  simp only [hbr]
  split_ifs with hcache
  · refine ⟨rp, rfl, h, rfl, fun k hk => ?_⟩
    split_ifs with hkk
    · have hsome := (cached_chunkAt h hbr (index_lt (hi.trans h.size)) hcache)
      rw [hkk]
      obtain ⟨c, hc⟩ := isSome_iff_exists.1 hsome
      rw [hc]
      rfl
    · rfl
  · exact findentry_spec h hbr hi

/-! ### Entries -/

theorem page_eq {i j : ℕ} (h : cindex i = cindex j) (h' : coffset i = coffset j) : i = j := by
  simp only [cindex, coffset, chunkent] at h h'
  omega

/-- A lookup gives the pages of a chunk their prototypes, unless the chunk exists. -/
theorem Looked.entry (h : Looked br i rp rp') (hi : i < maxPages) (hj : j < maxIndex) :
    rp'.entry j = if cindex j = cindex i then some ((rp.entry j).getD (br.proto j))
      else rp.entry j := by
  rw [Region.entry, Region.entry, h _ (cindex_lt hj)]
  split_ifs with hij
  · rcases rp.chunkAt (cindex j) with _ | c
    · have hround : chunkround i + chunkent ≤ unusedIdx := by
        simp only [chunkround, chunkent, unusedIdx, maxPages] at hi ⊢
        omega
      have hpage : chunkround i + coffset j = j := by
        simp only [chunkround, coffset, cindex, chunkent] at hij ⊢
        omega
      simp only [getD_none, map_some, map_none, Option.some.injEq]
      rw [fillchunk_at hround (show coffset j < chunkent from Nat.mod_lt _ (by decide)), hpage]
      rfl
    · rfl
  · rfl

theorem chunkAt_modifyChunk (rp : Region) (f : Chunk → Chunk) (k : ℕ) :
    (rp.modifyChunk key f).chunkAt k = if k = key then (rp.chunkAt k).map f else rp.chunkAt k := by
  unfold Region.modifyChunk
  by_cases hown : rp.rKey = key
  · rw [if_pos hown]
    by_cases hk : k = key
    · rw [if_pos hk, Region.chunkAt, Region.chunkAt, if_pos (hown.trans hk.symm),
        if_pos (hown.trans hk.symm)]
      rfl
    · have hne : rp.rKey ≠ k := fun h => hk (h.symm.trans hown)
      rw [if_neg hk, Region.chunkAt, Region.chunkAt, if_neg hne, if_neg hne]
  · rw [if_neg hown, Region.chunkAt, Region.chunkAt]
    dsimp only
    by_cases hk : rp.rKey = k
    · rw [if_pos hk, if_pos hk, if_neg (by omega)]
    · rw [if_neg hk, if_neg hk]
      rcases hroot : rp.rRoot with _ | br
      · simp
      · simp only [map_some, bind_some]
        rcases htree : br.bRoot with _ | ⟨d, n⟩
        · simp [Broot.chunks, htree]
        · simp only [Broot.chunks, htree, map_some, elim_some, flat_mapAt,
            lookup_mapAt]

/-- A write through the pointers changes one page. -/
theorem entry_modify (rp : Region) (f : VfdDbd → VfdDbd) :
    (rp.modify i f).entry j = if j = i then (rp.entry j).map f else rp.entry j := by
  have hoff : ∀ x : ℕ, coffset x < chunkent := fun x => Nat.mod_lt _ (by decide)
  rw [Region.modify, Region.entry, Region.entry, chunkAt_modifyChunk]
  by_cases hc : cindex j = cindex i
  · rw [if_pos hc, Option.map_map]
    rcases rp.chunkAt (cindex j) with _ | c
    · split_ifs <;> rfl
    · simp only [map_some, Function.comp_apply, Chunk.at_put (hoff j) (hoff i)]
      split_ifs with ho hji hji
      · rw [hji]
      · exact absurd (page_eq hc ho) hji
      · exact absurd (congrArg coffset hji) ho
      · rfl
  · rw [if_neg hc, if_neg fun hji => hc (congrArg cindex hji)]

theorem Region.Ok.modifyChunk (h : rp.Ok) (f : Chunk → Chunk) : (rp.modifyChunk key f).Ok := by
  unfold Region.modifyChunk
  split_ifs with hown
  · exact ⟨h.size, h.key, h.root⟩
  · refine ⟨h.size, h.key, fun br' hbr' => ?_⟩
    obtain ⟨br, hbr, rfl⟩ := map_eq_some_iff.1 hbr'
    obtain ⟨hok, htree⟩ := h.root br hbr
    refine ⟨⟨fun t ht => ?_, fun k hk => ?_⟩, ?_⟩
    · obtain ⟨t₀, ht₀, rfl⟩ := map_eq_some_iff.1 ht
      exact fits_mapAt (hok.tree t₀ ht₀)
    · refine (hok.cache k hk).imp id fun hsome => ?_
      rcases hroot : br.bRoot with _ | ⟨d, n⟩
      · rw [Broot.chunks_none hroot] at hsome
        cases hsome
      · rw [Broot.chunks_some hroot] at hsome
        simp only [Broot.chunks, map_some, elim_some, flat_mapAt, lookup_mapAt]
        split_ifs <;> simpa using hsome
    · refine htree.imp (fun hnone => ?_) id
      show br.bRoot.map _ = none
      rw [hnone]
      rfl

theorem Region.Ok.modify (h : rp.Ok) (f : VfdDbd → VfdDbd) : (rp.modify i f).Ok :=
  h.modifyChunk _

end Region

end Vfd

end Hpux
