import Hpux910.Net.IpReassMem

/-!
# The data of the reassembly queues

When no fragment begins at byte 32768 or later, and none is trimmed to begin there, the insertion of
`ip_reass` is the insertion of a segment, and the queue is a list of segments without overlap that
covers what was received.

* `fragSegs` : a fragment on a queue as a segment.
* `FragOk` : the fields of a fragment agree with its chain.
* `FragOf` : a fragment of a given datagram.
* `QueueOk` : what holds of a queue.
* `ReassCond` : the offsets stay below 32768, and a last fragment ends at 65535 at most.
* `ip_reass_correct` : in every run whose steps meet the condition, a datagram is delivered exactly
  when its fragments cover it, and it is the right one.
-/

namespace Hpux.Net

open List

variable {B : Type} {netmemmax : ℤ} {s s' : St B} {q : Ipq B} {f g p : Frag B}
variable {frags frags' : List (Frag B)} {D : List B}

/-- The fragment from a point on. -/
def Frag.cut (f : Frag B) (x : ℤ) : Frag B :=
  { f with m := mAdj f.m (x - f.off), off := x, len := (f.hi - x).toNat }

/-- A fragment on a queue as a segment. -/
def fragSegs (B : Type) : Segs (Frag B) where
  lo := Frag.off
  hi := Frag.hi
  cut := Frag.cut
  lo_cut _ _ := rfl
  hi_cut f x h := by
    show x + ((f.hi - x).toNat : ℤ) = f.hi
    omega

/-- The fields of a fragment agree with its chain. -/
structure FragOk (f : Frag B) : Prop where
  ok : OkChain f.m
  kernel : KernelData f.m
  nonempty : f.m ≠ []
  len : (bytes f.m).length = f.len
  lo : 0 ≤ f.off
  short : f.len < 65536
  last : f.mff = false → f.hi ≤ 65535

/-- The offset of a fragment as an unsigned number, which it is in the header. -/
def Frag.pos (f : Frag B) : ℕ := ushort f.off

/-- A fragment of a datagram with these bytes. -/
structure FragOf (D : List B) (f : Frag B) : Prop where
  fits : f.pos + f.len ≤ D.length
  data : bytes f.m = (D.drop f.pos).take f.len
  last : f.mff = false ↔ f.pos + f.len = D.length

/-- The fragments cover the whole datagram, and the last one is there. -/
def Whole (D : List B) (l : List (Frag B)) : Prop :=
  (∀ x < D.length, ∃ f ∈ l, f.pos ≤ x ∧ x < f.pos + f.len) ∧ ∃ f ∈ l, f.mff = false

/-! ### Trims -/

theorem short_eq {x : ℤ} (h1 : -32768 ≤ x) (h2 : x < 32768) : short x = x := by
  unfold short Int.bmod
  dsimp only
  split_ifs <;> omega

theorem ushort_eq {x : ℤ} (h1 : 0 ≤ x) (h2 : x < 65536) : ushort x = x.toNat := by
  unfold ushort
  rw [Int.emod_eq_of_lt h1 h2]

theorem FragOk.pos_eq (h : FragOk f) (h1 : f.off < 65536) : (f.pos : ℤ) = f.off := by
  have h2 := h.lo
  unfold Frag.pos
  rw [ushort_eq h2 h1]
  omega

theorem kernelData_adjFront {c : List (Mbuf B)} {n : ℤ} (h : KernelData c) :
    KernelData (adjFront c n) := by
  induction c generalizing n with
  | nil => exact nofun
  | cons m c ih =>
    obtain ⟨h1, h2⟩ := kernelData_cons.1 h
    unfold adjFront
    split_ifs
    · exact kernelData_cons.2 ⟨h1, ih h2⟩
    · exact kernelData_cons.2 ⟨h1, h2⟩
    · exact h

theorem adjFront_ne_nil {c : List (Mbuf B)} {n : ℤ} (h : c ≠ []) : adjFront c n ≠ [] := by
  cases c with
  | nil => exact absurd rfl h
  | cons m c =>
    unfold adjFront
    split_ifs <;> simp

theorem ipCountMem_adjFront (c : List (Mbuf B)) (n : ℤ) : ipCountMem (adjFront c n) = ipCountMem c := by
  induction c generalizing n with
  | nil => rfl
  | cons m c ih =>
    unfold adjFront
    split_ifs
    · simp only [ipCountMem, map_cons, sum_cons] at ih ⊢
      rw [ih]
    · rfl
    · rfl

/-- The part of a fragment from a point within it. -/
theorem FragOk.cut (h : FragOk f) {x : ℤ} (h1 : f.off ≤ x) (h2 : x ≤ f.hi) :
    FragOk (f.cut x) ∧ bytes (f.cut x).m = (bytes f.m).drop (x - f.off).toNat ∧
      (f.cut x).hi = f.hi ∧ ipCountMem (f.cut x).m = ipCountMem f.m := by
  have h3 := h.lo
  have h4 := h.short
  have h5 := h.len
  have hadj : (f.cut x).m = adjFront f.m (x - f.off) := by
    show mAdj f.m (x - f.off) = _
    unfold mAdj
    rw [if_pos (by omega)]
  obtain ⟨h6, h7⟩ := adjFront_ok h.ok h.kernel (show 0 ≤ x - f.off by omega)
  have hhi : (f.cut x).hi = f.hi := (fragSegs B).hi_cut f x h2
  have hhi' : f.hi = f.off + f.len := rfl
  refine ⟨⟨?_, ?_, ?_, ?_, ?_, ?_, ?_⟩, ?_, hhi, ?_⟩
  · rw [hadj]
    exact h6
  · rw [hadj]
    exact kernelData_adjFront h.kernel
  · rw [hadj]
    exact adjFront_ne_nil h.nonempty
  · rw [hadj, h7, length_drop]
    show _ = (f.hi - x).toNat
    omega
  · show 0 ≤ x
    omega
  · show (f.hi - x).toNat < 65536
    omega
  · intro h8
    rw [hhi]
    exact h.last h8
  · rw [hadj, h7]
  · rw [hadj]
    exact ipCountMem_adjFront _ _

theorem FragOf.cut (h : FragOf D f) (hf : FragOk f) {x : ℤ} (h1 : f.off ≤ x) (h2 : x ≤ f.hi)
    (h3 : x < 32768) : FragOf D (f.cut x) := by
  have h5 : f.hi = f.off + f.len := rfl
  have h6 := hf.pos_eq (by omega)
  obtain ⟨hc, hb, -, -⟩ := hf.cut h1 h2
  have h7 : ((f.cut x).pos : ℤ) = x := hc.pos_eq (by show x < 65536; omega)
  have h8 : (f.cut x).len = (f.hi - x).toNat := rfl
  have h9 := h.fits
  refine ⟨by omega, ?_, ?_⟩
  · rw [hb, h.data, drop_take, drop_drop]
    congr 1
    · omega
    · congr 1
      omega
  · have h10 := h.last
    show f.mff = false ↔ _
    rw [h10]
    omega

/-! ### The insertion is the insertion of a segment -/

/-- No trim moves the start of a fragment to byte 32768 or beyond. -/
def TrimOk (f : Frag B) (frags : List (Frag B)) : Prop :=
  ∀ e ∈ frags, (e.off ≤ f.off → f.off < e.hi → e.hi < f.hi → e.hi < 32768) ∧
    (f.off < e.off → e.off < f.hi → f.hi < e.hi → f.hi < 32768)

theorem fragSegs_trimFront (p f : Frag B) : (fragSegs B).trimFront (some p) f =
    if f.off < p.hi then if f.hi ≤ p.hi then none else some (f.cut p.hi) else some f := rfl

theorem fragSegs_trimSucc (f q : Frag B) (qs : List (Frag B)) : (fragSegs B).trimSucc f (q :: qs) =
      if q.off < f.hi then if f.hi < q.hi then q.cut f.hi :: qs else (fragSegs B).trimSucc f qs
      else q :: qs := rfl

theorem trimPrev_eq (hf : 0 ≤ f.off) (hl : f.len < 65536) {o : Option (Frag B)}
    (ho : ∀ p ∈ o, f.off < p.hi → p.hi < f.hi → p.hi < 32768) :
    trimPrev o f = (fragSegs B).trimFront o f := by
  cases o with
  | none => rfl
  | some p =>
    have h1 := ho p rfl
    have hhi : f.hi = f.off + f.len := rfl
    have hphi : p.hi = p.off + p.len := rfl
    rw [fragSegs_trimFront]
    unfold trimPrev
    dsimp only
    by_cases h2 : f.off < p.hi
    · rw [if_pos h2, if_pos (by omega)]
      by_cases h3 : f.hi ≤ p.hi
      · rw [if_pos h3, if_pos (by omega)]
      · rw [if_neg h3, if_neg (by omega)]
        have h4 := h1 h2 (by omega)
        have h5 : p.off + p.len - f.off = p.hi - f.off := by omega
        have h6 : short (f.off + (p.hi - f.off)) = p.hi := by
          rw [short_eq (by omega) (by omega)]
          omega
        have h7 : ushort (f.len - (p.hi - f.off)) = (f.hi - p.hi).toNat := by
          rw [ushort_eq (by omega) (by omega)]
          omega
        rw [h5, h6, h7]
        rfl
    · rw [if_neg h2, if_neg (by omega)]

theorem trimNext_eq {l : List (Frag B)}
    (hl : ∀ q ∈ l, 0 ≤ q.off ∧ q.len < 65536 ∧ (q.off < f.hi → f.hi < q.hi → f.hi < 32768)) :
    (trimNext f l).1 = (fragSegs B).trimSucc f l := by
  induction l with
  | nil => rfl
  | cons q qs ih =>
    obtain ⟨⟨h1, h2, h3⟩, h4⟩ := forall_mem_cons.1 hl
    have hhi : f.hi = f.off + f.len := rfl
    have hqhi : q.hi = q.off + q.len := rfl
    rw [fragSegs_trimSucc]
    unfold trimNext
    dsimp only
    by_cases h5 : q.off < f.hi
    · rw [if_pos h5, if_pos (by omega)]
      by_cases h6 : f.hi < q.hi
      · rw [if_pos h6, if_pos (by omega)]
        have h7 := h3 h5 h6
        have h8 : f.off + f.len - q.off = f.hi - q.off := by omega
        have h9 : short (q.off + (f.hi - q.off)) = f.hi := by
          rw [short_eq (by omega) (by omega)]
          omega
        have h10 : ushort (q.len - (f.hi - q.off)) = (q.hi - f.hi).toNat := by
          rw [ushort_eq (by omega) (by omega)]
          omega
        rw [h8, h9, h10]
        rfl
      · rw [if_neg h6, if_neg (by omega)]
        exact ih h4
    · rw [if_neg h5, if_neg (by omega)]

/-- A new fragment with its memory recorded. -/
def Frag.counted (netmemmax : ℤ) (f : Frag B) : Frag B :=
  { f with mem := if netmemmax ≤ 0 then 0 else ipCountMem f.m }

theorem trimSucc_counted (f : Frag B) (l : List (Frag B)) :
    (fragSegs B).trimSucc (f.counted netmemmax) l = (fragSegs B).trimSucc f l := by
  induction l with
  | nil => rfl
  | cons q qs ih =>
    rw [fragSegs_trimSucc, fragSegs_trimSucc, ih]
    rfl

/-- What holds of the fragments of a queue and of those received for it. -/
structure QueueOk (frags got : List (Frag B)) : Prop where
  sorted : (fragSegs B).Sorted frags
  ok : ∀ f ∈ frags, FragOk f ∧ f.off < 32768
  got_ok : ∀ f ∈ got, FragOk f ∧ f.off < 32768
  nonempty : frags ≠ []
  got_nonempty : got ≠ []
  covers : ∀ x, (fragSegs B).Covers frags x ↔ (fragSegs B).Covers got x
  of : ∀ D, (∀ f ∈ got, FragOf D f) → ∀ f ∈ frags, FragOf D f

/-- The insertion of `ip_reass`, when no trim goes beyond byte 32768. -/
theorem insertFrag_eq {got : List (Frag B)} (h : QueueOk frags got) (hf : FragOk f)
    (ht : TrimOk f frags) : (insertFrag netmemmax f frags).map Prod.fst =
      (fragSegs B).insert (f.counted netmemmax) frags := by
  have hfhi : 0 ≤ (f.len : ℤ) := Int.natCast_nonneg _
  have hmem : ∀ q, q ∈ ((fragSegs B).place f frags).1 ∨ q ∈ ((fragSegs B).place f frags).2 →
      q ∈ frags := fun q hq => by
    rw [← Segs.place_append (S := fragSegs B) f frags]
    exact mem_append.2 hq
  have hs := h.sorted
  rw [← Segs.place_append (S := fragSegs B) f frags] at hs
  obtain ⟨hs1, -, -⟩ := Segs.sorted_append.1 hs
  have hprev : trimPrev ((fragSegs B).place f frags).1.getLast? f =
      (fragSegs B).trimFront ((fragSegs B).place f frags).1.getLast? f :=
    trimPrev_eq hf.lo hf.short fun p hp h1 h2 =>
      (ht p (hmem p (.inl (mem_of_getLast? hp)))).1
        (Segs.lo_le_of_mem_place (mem_of_getLast? hp)) h1 h2
  have hcount : (fragSegs B).trimFront ((fragSegs B).place f frags).1.getLast?
      (f.counted netmemmax) = ((fragSegs B).trimFront ((fragSegs B).place f frags).1.getLast? f).map
        (Frag.counted netmemmax) := by
    cases hp : ((fragSegs B).place f frags).1.getLast? with
    | none => rfl
    | some p =>
      rw [fragSegs_trimFront, fragSegs_trimFront]
      show (if f.off < p.hi then if f.hi ≤ p.hi then none else _ else _) = _
      split_ifs with h1 h2
      · rfl
      · have h4 := (hf.cut (x := p.hi) (by omega) (by omega)).2.2.2
        have h5 : (f.counted netmemmax).cut p.hi = (f.cut p.hi).counted netmemmax := by
          unfold Frag.counted
          rw [h4]
          rfl
        exact congrArg some h5
      · rfl
  have hplace : (fragSegs B).place (f.counted netmemmax) frags = (fragSegs B).place f frags := rfl
  unfold insertFrag Segs.insert
  rw [hplace, hcount]
  show (Option.map _ (trimPrev ((fragSegs B).place f frags).1.getLast? f)).map Prod.fst = _
  rw [hprev, Option.map_map, Option.map_map]
  refine Option.map_congr fun f' hf' => ?_
  obtain ⟨h1, h2, h3, -, -, -⟩ := Segs.trimFront_spec hs1
    (fun p hp => Segs.lo_le_of_mem_place hp) (by show f.off ≤ f.off + f.len; omega) hf'
  have h4 : f'.hi = f.hi := h3
  have hnext : (trimNext f' ((fragSegs B).place f frags).2).1 =
      (fragSegs B).trimSucc (f'.counted netmemmax) ((fragSegs B).place f frags).2 := by
    rw [trimSucc_counted]
    refine trimNext_eq fun q hq => ?_
    have h5 := h.ok q (hmem q (.inr hq))
    have h6 := h.sorted.lt_of_mem_place hq
    rw [h4]
    exact ⟨h5.1.lo, h5.1.short, (ht q (hmem q (.inr hq))).2 h6⟩
  show _ ++ _ :: (trimNext f' ((fragSegs B).place f frags).2).1 = _
  rw [hnext]
  rfl

theorem FragOk.counted (h : FragOk f) : FragOk (f.counted netmemmax) :=
  ⟨h.ok, h.kernel, h.nonempty, h.len, h.lo, h.short, h.last⟩

theorem FragOf.counted (h : FragOf D f) : FragOf D (f.counted netmemmax) := ⟨h.fits, h.data, h.last⟩

theorem QueueOk.single (hf : FragOk f) (h1 : f.off < 32768) :
    QueueOk [f.counted netmemmax] [f] where
  sorted := Segs.sorted_cons.2 ⟨by show f.off ≤ f.off + f.len; omega, nofun, Segs.Sorted.nil⟩
  ok := forall_mem_singleton.2 ⟨hf.counted, h1⟩
  got_ok := forall_mem_singleton.2 ⟨hf, h1⟩
  nonempty := nofun
  got_nonempty := nofun
  covers x := by
    rw [Segs.covers_cons, Segs.covers_cons]
    exact Iff.rfl
  of D h := forall_mem_singleton.2 (forall_mem_singleton.1 h).counted

variable {got : List (Frag B)}

/-- A fragment that the queue covers already adds nothing. -/
theorem QueueOk.dropped (h : QueueOk frags got) (hf : FragOk f)
    (h1 : f.off < 32768) (hins : (fragSegs B).insert (f.counted netmemmax) frags = none) :
    QueueOk frags (got ++ [f]) where
  sorted := h.sorted
  ok := h.ok
  got_ok := forall_mem_append.2 ⟨h.got_ok, forall_mem_singleton.2 ⟨hf, h1⟩⟩
  nonempty := h.nonempty
  got_nonempty := by simp
  covers x := by
    rw [Segs.covers_append, ← h.covers, Segs.covers_cons]
    refine ⟨.inl, fun h2 => h2.elim id fun h3 => h3.elim (fun h4 => ?_) fun ⟨e, he, _⟩ => nomatch he⟩
    exact Segs.covers_of_insert_none hins h4.1 h4.2
  of D hD := h.of D (forall_mem_append.1 hD).1

theorem QueueOk.insert (h : QueueOk frags got) (hf : FragOk f)
    (h1 : f.off < 32768) (ht : TrimOk f frags)
    (hins : (fragSegs B).insert (f.counted netmemmax) frags = some frags') :
    QueueOk frags' (got ++ [f]) := by
  have hwf : (fragSegs B).lo (f.counted netmemmax) ≤ (fragSegs B).hi (f.counted netmemmax) := by
    show f.off ≤ f.off + f.len
    omega
  have hcov := h.sorted.covers_insert hwf hins
  -- the fragments of the queue, and the parts that trims leave of them
  have hmem : ∀ P : Frag B → Prop, (∀ e ∈ frags, P e) → P (f.counted netmemmax) →
      (∀ e x, FragOk e → P e → e.off ≤ x → x ≤ e.hi → x < 32768 → P (e.cut x)) →
      ∀ e ∈ frags', P e := by
    intro P hP hPf hcut e he
    rcases h.sorted.mem_insert hwf hins he with h2 | rfl | ⟨p, hp, h2, h3, h4, rfl⟩ |
        ⟨q, hq, h2, h3, h4, rfl⟩
    · exact hP e h2
    · exact hPf
    · exact hcut _ _ hf.counted hPf h3.le h4.le ((ht p hp).1 h2 h3 h4)
    · exact hcut _ _ (h.ok q hq).1 (hP q hq) h3.le h4.le ((ht q hq).2 h2 h3 h4)
  refine ⟨h.sorted.insert hwf hins, ?_, ?_, ?_, by simp, fun x => ?_, fun D hD => ?_⟩
  · refine hmem (fun e => FragOk e ∧ e.off < 32768) h.ok ⟨hf.counted, h1⟩ ?_
    exact fun e x he _ h2 h3 h4 => ⟨(he.cut h2 h3).1, h4⟩
  · exact forall_mem_append.2 ⟨h.got_ok, forall_mem_singleton.2 ⟨hf, h1⟩⟩
  · obtain ⟨e', -, rfl⟩ := Option.map_eq_some_iff.1 hins
    simp
  · rw [hcov, Segs.covers_append, h.covers, Segs.covers_cons]
    refine or_congr Iff.rfl ⟨.inl, fun h2 => h2.elim id fun ⟨e, he, _⟩ => nomatch he⟩
  · obtain ⟨h2, h3⟩ := forall_mem_append.1 hD
    refine hmem (FragOf D) (h.of D h2) (forall_mem_singleton.1 h3).counted ?_
    exact fun e x he hDe h4 h5 h6 => hDe.cut he h4 h5 h6

/-! ### Complete datagrams -/

theorem contiguous_eq_some {x y : ℤ} : contiguous x frags = some y ↔ (fragSegs B).Tiles x frags y := by
  induction frags generalizing x with
  | nil => exact ⟨Option.some.inj, congrArg some⟩
  | cons q qs ih =>
    show (if q.off ≠ x then none else contiguous (x + q.len) qs) = some y ↔
      q.off = x ∧ (fragSegs B).Tiles (q.off + q.len) qs y
    split_ifs with h1
    · exact ⟨nofun, fun h => absurd h.1 h1⟩
    · obtain rfl := not_not.1 h1
      rw [ih]
      exact ⟨fun h => ⟨rfl, h⟩, And.right⟩

theorem complete_eq_some {y : ℤ} (h0 : frags ≠ []) : complete frags = some y ↔
      (fragSegs B).Tiles 0 frags y ∧ ∃ f, frags.getLast? = some f ∧ f.mff = false := by
  obtain ⟨f, hf⟩ : ∃ f, frags.getLast? = some f := by
    cases h1 : frags.getLast? with
    | none => exact absurd (getLast?_eq_none_iff.1 h1) h0
    | some f => exact ⟨f, rfl⟩
  unfold complete
  rw [hf, ← contiguous_eq_some]
  cases contiguous 0 frags with
  | none => simp
  | some next =>
    show (if f.mff = true then none else some next) = some y ↔ _
    cases hff : f.mff <;> simp [hff]

theorem catLoop_ne_nil (m : Mbuf B) (c : List (Mbuf B)) : catLoop m c ≠ [] := by
  induction c generalizing m with
  | nil => simp [catLoop]
  | cons n c ih =>
    unfold catLoop
    split_ifs
    · simp
    · exact ih _

theorem mCat_ne_nil {c d r : List (Mbuf B)} (h : mCat c d = .ok r) : r ≠ [] := by
  cases c with
  | nil => cases h
  | cons m c =>
    cases c with
    | nil =>
      obtain rfl := Except.ok.inj h
      exact catLoop_ne_nil m d
    | cons m' c =>
      obtain ⟨r', -, h2⟩ := bind_ok.1 h
      obtain rfl := Except.ok.inj h2
      exact nofun

/-- Chains are put together one after the other. -/
theorem foldlM_mCat {cs : List (List (Mbuf B))} {r : List (Mbuf B)} (hr : OkChain r) (h0 : r ≠ [])
    (hcs : ∀ c ∈ cs, OkChain c ∧ KernelData c) :
    ∃ r', cs.foldlM mCat r = .ok r' ∧ bytes r' = bytes r ++ cs.flatMap bytes := by
  induction cs generalizing r with
  | nil => exact ⟨r, rfl, by simp⟩
  | cons c cs ih =>
    obtain ⟨⟨h1, h2⟩, h3⟩ := forall_mem_cons.1 hcs
    obtain ⟨r1, h4, h5, h6⟩ := mCat_ok hr h1 h2 h0
    obtain ⟨r', h7, h8⟩ := ih h5 (mCat_ne_nil h4) h3
    refine ⟨r', ?_, ?_⟩
    · rw [foldlM_cons, h4]
      exact h7
    · rw [h8, h6, flatMap_cons, append_assoc]

theorem catFrags_ok (h : ∀ f ∈ frags, FragOk f) (h0 : frags ≠ []) :
    ∃ r, catFrags frags = .ok r ∧ bytes r = frags.flatMap fun f => bytes f.m := by
  cases frags with
  | nil => exact absurd rfl h0
  | cons f fs =>
    obtain ⟨h1, h2⟩ := forall_mem_cons.1 h
    cases hm : f.m with
    | nil => exact absurd hm h1.nonempty
    | cons m t =>
      have h3 := h1.ok
      have h4 := h1.kernel
      rw [hm] at h3 h4
      obtain ⟨h5, h6⟩ := okChain_cons.1 h3
      obtain ⟨r1, h7, h8, h9⟩ := mCat_ok (c := [m]) (okChain_cons.2 ⟨h5, nofun⟩) h6
        (kernelData_cons.1 h4).2 nofun
      have hrest : ∀ c ∈ fs.map Frag.m, OkChain c ∧ KernelData c := fun c hc => by
        obtain ⟨g, hg, rfl⟩ := mem_map.1 hc
        exact ⟨(h2 g hg).ok, (h2 g hg).kernel⟩
      obtain ⟨r, h10, h11⟩ := foldlM_mCat h8 (mCat_ne_nil h7) hrest
      refine ⟨r, ?_, ?_⟩
      · unfold catFrags
        rw [map_cons, hm]
        dsimp only
        rw [h7]
        exact h10
      · rw [h11, h9, flatMap_cons, hm, bytes_cons, bytes_cons, bytes_nil, append_nil,
          flatMap_map]

/-- The length of the data of fragments that follow on one another. -/
theorem tiles_length {x y : ℤ} (h : ∀ f ∈ frags, FragOk f) (ht : (fragSegs B).Tiles x frags y) :
    x + (frags.flatMap fun f => bytes f.m).length = y := by
  induction frags generalizing x with
  | nil =>
    have h1 : x = y := ht
    simpa using h1
  | cons f fs ih =>
    obtain ⟨h1, h2⟩ := forall_mem_cons.1 h
    obtain ⟨h3, h4⟩ := ht
    have h5 := ih h2 h4
    have h6 := h1.len
    have h7 : (fragSegs B).hi f = f.off + f.len := rfl
    have h8 : f.off = x := h3
    rw [flatMap_cons, length_append]
    omega

/-- The data of fragments of a datagram that follow on one another. -/
theorem tiles_data {x y : ℤ} (h : ∀ f ∈ frags, FragOk f ∧ f.off < 32768)
    (hD : ∀ f ∈ frags, FragOf D f) (hx : 0 ≤ x) (ht : (fragSegs B).Tiles x frags y) :
    (frags.flatMap fun f => bytes f.m) = (D.drop x.toNat).take (y - x).toNat := by
  induction frags generalizing x with
  | nil =>
    have h1 : x = y := ht
    rw [h1, sub_self]
    rfl
  | cons f fs ih =>
    obtain ⟨⟨h1, h1'⟩, h2⟩ := forall_mem_cons.1 h
    obtain ⟨h3, h4⟩ := forall_mem_cons.1 hD
    obtain ⟨h5, h6⟩ := ht
    have h5' : f.off = x := h5
    have h7 : (fragSegs B).hi f = f.off + f.len := rfl
    have h8 := h1.pos_eq (by omega)
    have h9 := tiles_length (fun g hg => (h2 g hg).1) h6
    have h10 : f.pos = x.toNat := by omega
    rw [flatMap_cons, ih h2 h4 (by omega) h6, h3.data, h10]
    have h11 : (y - x).toNat = f.len + (y - (fragSegs B).hi f).toNat := by omega
    have h12 : ((fragSegs B).hi f).toNat = x.toNat + f.len := by omega
    rw [h11, h12, take_add, drop_drop]

/-- A queue is complete exactly when what was received makes up the datagram. -/
theorem QueueOk.complete_iff (h : QueueOk frags got) (hD : ∀ f ∈ got, FragOf D f) :
    ((complete frags).isSome ↔ Whole D got) ∧ ∀ y, complete frags = some y → y = D.length := by
  have hfr := h.of D hD
  have hpos : ∀ f : Frag B, FragOk f ∧ f.off < 32768 → (f.pos : ℤ) = f.off := fun f hf =>
    hf.1.pos_eq (by omega)
  have hlast : ∀ y, complete frags = some y → y = D.length := fun y hy => by
    obtain ⟨h1, f, h2, h3⟩ := (complete_eq_some h.nonempty).1 hy
    have hf := mem_of_getLast? h2
    have h4 := h1.hi_last h2
    have h5 := (hfr f hf).last.1 h3
    have h6 := hpos f (h.ok f hf)
    have h7 : (fragSegs B).hi f = f.off + f.len := rfl
    omega
  refine ⟨⟨fun hs => ?_, fun hw => ?_⟩, hlast⟩
  · obtain ⟨y, hy⟩ := Option.isSome_iff_exists.1 hs
    have hyD := hlast y hy
    obtain ⟨h1, f, h2, h3⟩ := (complete_eq_some h.nonempty).1 hy
    have hcov : ∀ x < D.length, ∃ g ∈ got, g.pos ≤ x ∧ x < g.pos + g.len := fun x hx => by
      obtain ⟨g, hg, h4, h5⟩ := (h.covers x).1 (h1.covers (z := x) (by omega) (by omega))
      have h6 := hpos g (h.got_ok g hg)
      have h7 : (fragSegs B).hi g = g.off + g.len := rfl
      have h8 : (fragSegs B).lo g = g.off := rfl
      exact ⟨g, hg, by omega, by omega⟩
    refine ⟨hcov, ?_⟩
    -- the fragment with the last byte is the last one
    rcases Nat.eq_zero_or_pos D.length with h4 | h4
    · obtain ⟨g, hg⟩ := exists_mem_of_ne_nil got h.got_nonempty
      have h5 := (hD g hg).fits
      exact ⟨g, hg, (hD g hg).last.2 (by omega)⟩
    · obtain ⟨g, hg, h5, h6⟩ := hcov (D.length - 1) (by omega)
      have h7 := (hD g hg).fits
      exact ⟨g, hg, (hD g hg).last.2 (by omega)⟩
  · obtain ⟨h1, g, hg, hgm⟩ := hw
    have htiles : (fragSegs B).Tiles 0 frags D.length := by
      refine h.sorted.tiles (fun e he => ?_) (fun z hz hz' => ?_) (Int.natCast_nonneg _)
      · have h2 := (hfr e he).fits
        have h3 := hpos e (h.ok e he)
        have h4 : (fragSegs B).hi e = e.off + e.len := rfl
        have h5 : (fragSegs B).lo e = e.off := rfl
        omega
      · obtain ⟨e, he, h2, h3⟩ := h1 z.toNat (by omega)
        have h4 := hpos e (h.got_ok e he)
        refine (h.covers z).2 ⟨e, he, ?_, ?_⟩
        · show e.off ≤ z
          omega
        · show z < e.off + e.len
          omega
    obtain ⟨f, hf⟩ : ∃ f, frags.getLast? = some f := by
      cases h2 : frags.getLast? with
      | none => exact absurd (getLast?_eq_none_iff.1 h2) h.nonempty
      | some f => exact ⟨f, rfl⟩
    refine Option.isSome_iff_exists.2 ⟨_, (complete_eq_some h.nonempty).2 ⟨htiles, f, hf, ?_⟩⟩
    have hfm := mem_of_getLast? hf
    have h2 := htiles.hi_last hf
    have h3 := hpos f (h.ok f hfm)
    have h4 : (fragSegs B).hi f = f.off + f.len := rfl
    exact (hfr f hfm).last.2 (by omega)

/-! ### Runs -/

/-- What is delivered after these fragments: a datagram whose length is that of its chain, and for
fragments of one datagram that datagram, exactly when they make it up. -/
def Delivers (got : List (Frag B)) (d : Option (Datagram B)) : Prop :=
  (∀ dg ∈ d, dg.len = (bytes dg.m).length) ∧ ∀ D, (∀ f ∈ got, FragOf D f) →
      (d.isSome ↔ Whole D got) ∧ ∀ dg ∈ d, bytes dg.m = D ∧ dg.len = D.length

/-- The queues are in order and incomplete. -/
def SysOk (s : St B) : Prop := ∀ q ∈ s.ipq, QueueOk q.frags q.got ∧ complete q.frags = none

theorem QueueOk.delivers_none (h : QueueOk frags got)
    (hc : complete frags = none) : Delivers got (none : Option (Datagram B)) := by
  refine ⟨nofun, fun D hD => ⟨?_, nofun⟩⟩
  rw [← (h.complete_iff hD).1, hc]
  exact ⟨nofun, nofun⟩

/-- A queue that is complete gives its datagram. -/
theorem QueueOk.delivers_some (h : QueueOk frags got) {y : ℤ} (hc : complete frags = some y) :
    ∃ m, catFrags frags = .ok m ∧ Delivers got (some { len := ushort y, m := m }) := by
  have hok : ∀ f ∈ frags, FragOk f := fun f hf => (h.ok f hf).1
  obtain ⟨m, h1, h2⟩ := catFrags_ok hok h.nonempty
  obtain ⟨h3, f, h4, h5⟩ := (complete_eq_some h.nonempty).1 hc
  have h6 := tiles_length hok h3
  have hf := hok f (mem_of_getLast? h4)
  have h7 : f.hi = y := h3.hi_last h4
  have h8 := hf.last h5
  have hlen : ushort y = (bytes m).length := by
    rw [ushort_eq (by omega) (by omega), h2]
    omega
  refine ⟨m, h1, fun dg hdg => ?_, fun D hD => ?_⟩
  · obtain rfl := Option.some.inj hdg
    exact hlen
  · obtain ⟨h9, h10⟩ := h.complete_iff hD
    have hyD := h10 y hc
    have hdata : bytes m = D := by
      rw [h2, tiles_data h.ok (h.of D hD) (le_refl 0) h3, hyD, Int.toNat_zero, drop_zero,
        sub_zero, Int.toNat_natCast, take_length]
    refine ⟨?_, fun dg hdg => ?_⟩
    · rw [← h9, hc]
      exact ⟨fun _ => rfl, fun _ => rfl⟩
    · obtain rfl := Option.some.inj hdg
      exact ⟨hdata, by rw [hlen, hdata]⟩

theorem SysOk.freeLast (h : SysOk s) : SysOk (freeLast s) := by
  unfold Net.freeLast
  split
  · exact h
  · exact fun q hq => h q (dropLast_subset _ hq)

/-- The end of `ip_reass`, for a queue that has its new fragment. -/
theorem reassTail_ok {before after : List (Ipq B)} {msize newcnt oldcnt : ℤ}
    (hl : ∀ q ∈ before ++ after, QueueOk q.frags q.got ∧ complete q.frags = none)
    (hq : QueueOk q.frags q.got) :
    ∃ s' d, reassTail netmemmax before after msize q newcnt oldcnt = .ok (s', d) ∧ SysOk s' ∧
      Delivers q.got d := by
  unfold reassTail
  cases hc : complete q.frags with
  | some y =>
    obtain ⟨m, h1, h2⟩ := hq.delivers_some hc
    refine ⟨{ ipq := before ++ after, msize := msize - q.mem }, _, ?_, hl, h2⟩
    dsimp only
    rw [h1]
    rfl
  | none =>
    dsimp only
    have hmem : ∀ q' ∈ before ++ q :: after, QueueOk q'.frags q'.got ∧ complete q'.frags = none :=
      fun q' hq' => by
        rcases mem_append.1 hq' with h1 | h1
        · exact hl q' (mem_append_left _ h1)
        · rcases mem_cons.1 h1 with rfl | h1
          · exact ⟨hq, hc⟩
          · exact hl q' (mem_append_right _ h1)
    split_ifs with h1 h2
    · exact ⟨_, _, rfl, hmem, hq.delivers_none hc⟩
    · refine ⟨_, _, rfl, SysOk.freeLast (forall_mem_cons.2 ⟨⟨hq, hc⟩, hl⟩), hq.delivers_none hc⟩
    · exact ⟨_, _, rfl, forall_mem_cons.2 ⟨⟨hq, hc⟩, hl⟩, hq.delivers_none hc⟩

/-- The fragments received for a datagram since its queue was made. -/
def received (s : St B) (k : IpKey) : List (Frag B) :=
  match s.ipq.dropWhile (fun q => q.key ≠ k) with
  | [] => []
  | q :: _ => q.got

theorem ipReass_ok (h : SysOk s) {k : IpKey} {mget : Bool} (hf : FragOk f) (h1 : f.off < 32768)
    (ht : ∀ q ∈ s.ipq, q.key = k → TrimOk f q.frags) :
    ∃ s' d, ipReass netmemmax s k f mget = .ok (s', d) ∧ SysOk s' ∧
      (∀ dg ∈ d, dg.len = (bytes dg.m).length) ∧
      (mget = true ∨ (∃ q ∈ s.ipq, q.key = k) → Delivers (received s k ++ [f]) d) := by
  unfold ipReass received
  cases hd : s.ipq.dropWhile (fun q => q.key ≠ k) with
  | nil =>
    cases mget with
    | false =>
      refine ⟨s, none, rfl, h, nofun, fun h2 => ?_⟩
      obtain ⟨q, hq, hk⟩ := h2.resolve_left nofun
      have h3 := dropWhile_eq_nil_iff.1 hd q hq
      simp [hk] at h3
    | true =>
      obtain ⟨s', d, h2, h3, h4⟩ := @reassTail_ok B netmemmax
        { key := k, ttl := IPFRAGTTL, frags := [f.counted netmemmax], mem := 0, got := [f] }
        [] s.ipq s.msize (MSIZE + (f.counted netmemmax).mem) 0 h (QueueOk.single hf h1)
      exact ⟨s', d, h2, h3, h4.1, fun _ => h4⟩
  | cons q after =>
    have hl := takeWhile_cons_of_dropWhile hd
    have hall := h
    unfold SysOk at hall
    rw [hl] at hall
    have hqm : q ∈ s.ipq := by
      rw [hl]
      exact mem_append_right _ mem_cons_self
    have hk : q.key = k := by
      have h2 := head?_dropWhile_not (fun q : Ipq B => decide (q.key ≠ k)) s.ipq
      rw [hd] at h2
      simpa using h2
    obtain ⟨hq, hqc⟩ := h q hqm
    have htq := ht q hqm hk
    have heq := @insertFrag_eq B netmemmax _ _ _ hq hf htq
    have hothers : ∀ q' ∈ s.ipq.takeWhile (fun q => q.key ≠ k) ++ after,
        QueueOk q'.frags q'.got ∧ complete q'.frags = none := fun q' hq' =>
      hall q' ((mem_append.1 hq').elim (fun h => mem_append_left _ h)
        fun h => mem_append_right _ (mem_cons_of_mem q h))
    cases hins : insertFrag netmemmax f q.frags with
    | none =>
      rw [hins] at heq
      have hq' := hq.dropped hf h1 heq.symm
      dsimp only
      rw [hins]
      refine ⟨_, none, rfl, fun q' hq'' => ?_, nofun, fun _ => hq'.delivers_none hqc⟩
      rcases mem_append.1 hq'' with h2 | h2
      · exact hothers q' (mem_append_left _ h2)
      · rcases mem_cons.1 h2 with rfl | h2
        · exact ⟨hq', hqc⟩
        · exact hothers q' (mem_append_right _ h2)
    | some x =>
      obtain ⟨frags, mem, oldcnt⟩ := x
      rw [hins] at heq
      have hq' := hq.insert hf h1 htq heq.symm
      obtain ⟨s', d, h2, h3, h4⟩ := @reassTail_ok B netmemmax
        { q with frags := frags, got := q.got ++ [f] } _ _ s.msize mem oldcnt hothers hq'
      dsimp only
      rw [hins]
      exact ⟨s', d, h2, h3, h4.1, fun _ => h4⟩

/-- An arriving fragment begins below byte 32768, ends at 65535 at most if it is the last one, and
no trim moves the start of a fragment to byte 32768 or beyond. -/
def ReassCond (s : St B) : Act B → Prop
  | .input k off mff m _ =>
    (mff ∨ off ≠ 0) → 0 ≤ off ∧ (mff = false → off + count m ≤ 65535) ∧ ∀ q ∈ s.ipq, q.key = k →
          TrimOk { off := off, len := (count m).toNat, mff := mff, m := m, mem := 0 } q.frags
  | _ => True

/-- One datagram of `ipintr`, as long as the queues are in order. -/
theorem ipInput_ok (h : SysOk s) {k : IpKey} {off : ℤ} {mff mget : Bool} {m : List (Mbuf B)}
    (hg : GoodInput off m) (hc : ReassCond s (.input k off mff m mget)) :
    ∃ s' d, ipInput netmemmax s k off mff m mget = .ok (s', d) ∧ SysOk s' ∧
      (∀ dg ∈ d, dg.len = (bytes dg.m).length) ∧
      (mget = true ∨ (∃ q ∈ s.ipq, q.key = k) → ∀ D, (∀ f ∈ received s k ++
          [{ off := off, len := (count m).toNat, mff := mff, m := m, mem := 0 }], FragOf D f) →
        (d.isSome ↔ Whole D (received s k ++
          [{ off := off, len := (count m).toNat, mff := mff, m := m, mem := 0 }])) ∧
        ∀ dg ∈ d, bytes dg.m = D ∧ dg.len = D.length) := by
  have hcount := hg.ok.count_eq
  have hlt := hg.len
  unfold ipInput
  split_ifs with h1
  · obtain ⟨h2, h3, h4⟩ := hc h1
    have hf : FragOk { off := off, len := (count m).toNat, mff := mff, m := m, mem := 0 } := by
      refine ⟨hg.ok, hg.kernel, hg.nonempty, ?_, h2, ?_, fun h5 => ?_⟩
      · dsimp only
        omega
      · dsimp only
        omega
      · have h6 := h3 h5
        show off + ((count m).toNat : ℤ) ≤ 65535
        omega
    obtain ⟨s', d, h5, h6, h7, h8⟩ := @ipReass_ok B netmemmax _ _ h k mget hf hg.hi h4
    exact ⟨s', d, h5, h6, h7, fun h9 => (h8 h9).2⟩
  · -- a datagram that is no fragment is handed on
    obtain ⟨h2, h3⟩ := not_or.1 h1
    obtain rfl := not_not.1 h3
    have h2' : mff = false := by simpa using h2
    refine ⟨ipFreef s k, _, rfl, ?_, fun dg hdg => ?_, fun _ D hD => ?_⟩
    · unfold ipFreef
      split
      · exact h
      · next q after hd =>
        have hl := takeWhile_cons_of_dropWhile hd
        intro q' hq'
        refine h q' ?_
        rw [hl]
        rcases mem_append.1 hq' with h4 | h4
        · exact mem_append_left _ h4
        · exact mem_append_right _ (mem_cons_of_mem q h4)
    · obtain rfl := Option.some.inj hdg
      dsimp only
      omega
    · have hf := (forall_mem_append.1 hD).2 _ (mem_singleton_self _)
      have hlast := hf.last.1 h2'
      have hdata := hf.data
      have hpos : Frag.pos { off := 0, len := (count m).toNat, mff := mff, m := m, mem := 0 } = 0 := rfl
      rw [hpos] at hlast hdata
      dsimp only at hlast hdata
      have hbytes : bytes m = D := by
        rw [hdata, drop_zero, take_of_length_le (by omega)]
      refine ⟨⟨fun _ => ⟨fun x hx => ?_, ?_⟩, fun _ => rfl⟩, fun dg hdg => ?_⟩
      · refine ⟨_, mem_append_right _ (mem_singleton_self _), ?_⟩
        rw [hpos]
        dsimp only
        omega
      · exact ⟨_, mem_append_right _ (mem_singleton_self _), h2'⟩
      · obtain rfl := Option.some.inj hdg
        refine ⟨hbytes, ?_⟩
        dsimp only
        omega

theorem slowtimoLoop_frags {l : List (Ipq B)} {msize : ℤ} (hq : q ∈ (slowtimoLoop l msize).1) :
    ∃ q' ∈ l, q.frags = q'.frags ∧ q.got = q'.got := by
  induction l generalizing msize with
  | nil => cases hq
  | cons q' l ih =>
    unfold slowtimoLoop at hq
    dsimp only at hq
    split_ifs at hq
    · obtain ⟨r, h1, h2⟩ := ih hq
      exact ⟨r, mem_cons_of_mem q' h1, h2⟩
    · rcases mem_cons.1 hq with rfl | hq
      · exact ⟨q', mem_cons_self, rfl, rfl⟩
      · obtain ⟨r, h1, h2⟩ := ih hq
        exact ⟨r, mem_cons_of_mem q' h1, h2⟩

theorem sysOk_of_reach (h : ((lts B netmemmax).restrict ReassCond).Reach s) : SysOk s := by
  refine h.inv ?_ fun s a s' _ hs hstep => ?_
  · rintro s ⟨h1, -⟩ q hq
    rw [h1] at hq
    cases hq
  · obtain ⟨hc, he, d, hd⟩ := hstep
    cases a with
    | input k off mff m mget =>
      obtain ⟨s1, d1, h1, h2, -⟩ := @ipInput_ok B netmemmax _ hs _ _ _ _ _ he hc
      have h3 : ipInput netmemmax s k off mff m mget = .ok (s', d) := hd
      rw [h1] at h3
      obtain ⟨rfl, -⟩ := Prod.mk.inj (Except.ok.inj h3)
      exact h2
    | slowtimo =>
      obtain ⟨rfl, -⟩ := Prod.mk.inj (Except.ok.inj hd)
      intro q hq
      obtain ⟨q', h1, h2, h3⟩ := slowtimoLoop_frags hq
      rw [h2, h3]
      exact hs q' h1
    | drain =>
      obtain ⟨rfl, -⟩ := Prod.mk.inj (Except.ok.inj hd)
      exact nofun

/-- In every run whose steps meet the condition the queues stay in order without overlap, what is
delivered has the length of its chain, and for fragments of one datagram it is that datagram and is
delivered exactly when the fragments received make it up. -/
theorem ip_reass_correct (h : ((lts B netmemmax).restrict ReassCond).Reach s) {k : IpKey} {off : ℤ}
    {mff mget : Bool} {m : List (Mbuf B)} (hg : GoodInput off m)
    (hc : ReassCond s (.input k off mff m mget)) :
    (∀ q ∈ s.ipq, (fragSegs B).Sorted q.frags) ∧
      ∃ s' d, ipInput netmemmax s k off mff m mget = .ok (s', d) ∧
        (∀ dg ∈ d, dg.len = (bytes dg.m).length) ∧
        (mget = true ∨ (∃ q ∈ s.ipq, q.key = k) → ∀ D, (∀ f ∈ received s k ++
            [{ off := off, len := (count m).toNat, mff := mff, m := m, mem := 0 }], FragOf D f) →
          (d.isSome ↔ Whole D (received s k ++
            [{ off := off, len := (count m).toNat, mff := mff, m := m, mem := 0 }])) ∧
          ∀ dg ∈ d, bytes dg.m = D ∧ dg.len = D.length) := by
  have hs := sysOk_of_reach h
  refine ⟨fun q hq => (hs q hq).1.sorted, ?_⟩
  obtain ⟨s', d, h1, -, h2, h3⟩ := @ipInput_ok B netmemmax _ hs _ _ _ _ _ hg hc
  exact ⟨s', d, h1, h2, h3⟩

/-! ### Runs on fixed inputs -/

theorem unit_list_ext {l l' : List Unit} (h : l.length = l'.length) : l = l' :=
  ext_getElem h fun _ _ _ => rfl

theorem eight_bytes : bytes [eight] = List.replicate 8 () :=
  unit_list_ext (by
    rw [bytes_cons, eight_ok.holds.2.1, bytes_nil, append_nil]
    have h1 := eight_ok.bytes_length
    have h2 : eight.len = 8 := rfl
    rw [length_replicate]
    omega)

/-- A large mbuf. -/
def large (n : ℕ) : Mbuf Unit where
  cl := some { cltype := .normal, clsize := n }
  dat := List.replicate n ()
  off := 0
  len := n

theorem large_ok {n : ℕ} (h : n < 32768) : (large n).Ok where
  len_nonneg := Int.natCast_nonneg _
  short := Int.ofNat_lt.2 h
  fits := by
    show ((0 : ℕ) : ℤ) + (n : ℤ) ≤ ((List.replicate n ()).length : ℕ)
    rw [length_replicate]
    omega
  small := nofun
  sid := nofun

/-- Two large mbufs. -/
def pair (n : ℕ) : List (Mbuf Unit) := [large n, large n]

theorem pair_ok {n : ℕ} (h : n < 32768) : OkChain (pair n) :=
  okChain_cons.2 ⟨large_ok h, okChain_cons.2 ⟨large_ok h, nofun⟩⟩

theorem goodInput_pair {n : ℕ} {off : ℤ} (h : n < 32768) (h1 : -32768 ≤ off) (h2 : off < 32768) :
    GoodInput off (pair n) where
  ok := pair_ok h
  kernel := kernelData_cons.2 ⟨rfl, kernelData_cons.2 ⟨rfl, nofun⟩⟩
  nonempty := nofun
  len := by
    show (n : ℤ) + (n + 0) < 65536
    omega
  lo := h1
  hi := h2

/-- Two fragments of eight bytes arrive, the last one second. -/
theorem ip_reass_correct_two : ∃ s s' dg,
    ((lts Unit 204800).restrict ReassCond).Reach s ∧
      ipInput 204800 s keyA 8 false [eight] true = .ok (s', some dg) ∧
      bytes dg.m = List.replicate 16 () ∧ dg.len = 16 := by
  have hc1 : ReassCond { ipq := [], msize := 0 } (.input keyA 0 true [eight] true) := fun _ =>
    ⟨le_refl 0, nofun, nofun⟩
  have e1 : (Act.input keyA 0 true [eight] true).Enabled := goodInput_eight
  have h0 : ((lts Unit 204800).restrict ReassCond).Reach { ipq := [], msize := 0 } := .init ⟨rfl, rfl⟩
  have h1 := h0.step ⟨hc1, e1, none, rfl⟩
  have hg : GoodInput 8 [eight] := { goodInput_eight with lo := by decide, hi := by decide }
  obtain ⟨-, s', d, h2, -, h4⟩ := @ip_reass_correct Unit 204800 _ h1 keyA 8 false true
    [eight] hg (fun _ => ⟨by decide, fun _ => by decide, by
      intro q hq _
      obtain rfl := List.mem_singleton.1 hq
      intro e he
      obtain rfl := List.mem_singleton.1 he
      decide⟩)
  have hD : ∀ f ∈ [({ off := 0, len := 8, mff := true, m := [eight], mem := 0 } : Frag Unit),
      { off := 8, len := 8, mff := false, m := [eight], mem := 0 }],
      FragOf (List.replicate 16 ()) f := by
    refine List.forall_mem_cons.2 ⟨⟨by decide, ?_, by decide⟩,
      List.forall_mem_singleton.2 ⟨by decide, ?_, by decide⟩⟩
    · exact eight_bytes.trans rfl
    · exact eight_bytes.trans rfl
  obtain ⟨h5, h6⟩ := h4 (.inl rfl) (List.replicate 16 ()) hD
  have h7 : d.isSome := h5.2 ⟨fun x hx => by
    rw [List.length_replicate] at hx
    rcases lt_or_ge x 8 with h8 | h8
    · exact ⟨_, List.mem_cons_self, Nat.zero_le x, h8⟩
    · exact ⟨_, List.mem_cons_of_mem _ List.mem_cons_self, h8, hx⟩,
    _, List.mem_cons_of_mem _ List.mem_cons_self, rfl⟩
  obtain ⟨dg, rfl⟩ := Option.isSome_iff_exists.1 h7
  obtain ⟨h8, h9⟩ := h6 dg rfl
  exact ⟨_, s', dg, h1, h2, h8, by rw [h9]; rfl⟩

/-- A datagram of 32776 bytes is never put together, although both of its fragments have come; and
of two fragments with 72760 bytes in all a datagram is made whose length is said to be 7224. -/
theorem offsets_wrap :
    (∃ s s' : St Unit, (lts Unit 204800).Reach s ∧ GoodInput (-32768) [eight] ∧
      ipInput 204800 s keyA (-32768) false [eight] true = .ok (s', none) ∧
      (∀ f ∈ received s keyA ++ [{ off := -32768, len := 8, mff := false, m := [eight], mem := 0 }],
        FragOf (List.replicate 32776 ()) f) ∧
      Whole (List.replicate 32776 ()) (received s keyA ++
        [{ off := -32768, len := 8, mff := false, m := [eight], mem := 0 }])) ∧
    ∃ (s s' : St Unit) (dg : Datagram Unit), (lts Unit 204800).Reach s ∧
      GoodInput 32760 (pair 20000) ∧
      ipInput 204800 s keyA 32760 false (pair 20000) true = .ok (s', some dg) ∧
      dg.len = 7224 ∧ (bytes dg.m).length = 72760 := by
  have h0 : (lts Unit 204800).Reach { ipq := [], msize := 0 } := .init ⟨rfl, rfl⟩
  have hlen : ∀ n, n < 32768 → (bytes (pair n)).length = n + n := fun n hn => by
    have h1 := (pair_ok hn).count_eq
    have h2 : count (pair n) = (n : ℤ) + (n + 0) := rfl
    omega
  constructor
  · have e1 : (Act.input keyA 0 true (pair 16384) true).Enabled :=
      goodInput_pair (by decide) (by decide) (by decide)
    have h1 := h0.step ⟨e1, none, rfl⟩
    have hD : ∀ f ∈ [({ off := 0, len := 32768, mff := true, m := pair 16384, mem := 0 } : Frag Unit),
        { off := -32768, len := 8, mff := false, m := [eight], mem := 0 }],
        FragOf (List.replicate 32776 ()) f := by
      refine List.forall_mem_cons.2 ⟨⟨?_, unit_list_ext ?_, ?_⟩,
        List.forall_mem_singleton.2 ⟨?_, unit_list_ext ?_, ?_⟩⟩
      · rw [List.length_replicate]
        decide
      · rw [hlen _ (by decide), List.length_take, List.length_drop, List.length_replicate]
        rfl
      · rw [List.length_replicate]
        decide
      · rw [List.length_replicate]
        decide
      · rw [eight_bytes, List.length_take, List.length_drop, List.length_replicate,
          List.length_replicate]
        rfl
      · rw [List.length_replicate]
        decide
    refine ⟨_, _, h1, { goodInput_eight with lo := by decide, hi := by decide }, rfl, hD, ?_⟩
    refine ⟨fun x hx => ?_, _, List.mem_cons_of_mem _ List.mem_cons_self, rfl⟩
    rw [List.length_replicate] at hx
    rcases lt_or_ge x 32768 with h8 | h8
    · exact ⟨_, List.mem_cons_self, Nat.zero_le x, h8⟩
    · exact ⟨_, List.mem_cons_of_mem _ List.mem_cons_self, h8, hx⟩
  · have e1 : (Act.input keyA 0 true (pair 16380) true).Enabled :=
      goodInput_pair (by decide) (by decide) (by decide)
    have h1 := h0.step ⟨e1, none, rfl⟩
    refine ⟨_, _, _, h1, goodInput_pair (by decide) (by decide) (by decide), rfl, rfl, ?_⟩
    show (bytes (pair 16380 ++ pair 20000)).length = 72760
    rw [bytes_append, List.length_append, hlen _ (by decide), hlen _ (by decide)]

end Hpux.Net
