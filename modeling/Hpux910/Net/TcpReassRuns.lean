import Hpux910.Net.IpReassData
import Hpux910.Net.TcpReass

/-!
# What TCP appends to the receive buffer

A segment on the queue holds its piece of the stream without the byte that was pulled out of it, if
that byte is still in what is left.  `ti_urp` is not counted down when the front of a segment goes,
so a second trim can judge wrongly where the byte was; `TcpCond` excludes exactly that, and segments
whose length does not fit `ti_len`.

* `pullLoop_ok` : the byte that is pulled out, and the bytes that stay.
* `SegOk`, `SegOk.trim` : the invariant of a segment, and what a trim does.
* `reassInsert_eq` : the insertion is `Segs.insert`.
* `TcpOk`, `tcpInput_ok` : the invariant of the control block, and one arrival.
* `tcp_reass_stream` : the receive buffer and the queue in every run whose steps meet the condition.
-/

namespace Hpux.Net

open List Option

variable {B : Type} {D : ℤ → B} {irs : ℤ}

/-! ### Sequence numbers -/

theorem sdiff_eq {a b z : ℤ} (h : (a - b - z) % 4294967296 = 0) (h1 : -2147483648 ≤ z)
    (h2 : z < 2147483648) : sdiff a b = z := by
  unfold sdiff
  rw [Int.bmod_def]
  omega

/-! ### The urgent byte -/

theorem Mbuf.Ok.closeGap {m : Mbuf B} (h : m.Ok) (hs : m.sid = none) {cnt : ℤ} (h0 : 0 ≤ cnt)
    (hc : cnt < m.len) : (m.closeGap cnt).Ok ∧ (m.closeGap cnt).sid = none ∧
      (m.closeGap cnt).bytes = m.bytes.eraseIdx cnt.toNat ∧
      (m.rd cnt 1).head? = m.bytes[cnt.toNat]? := by
  have h1 := h.fits
  have h2 := h.short
  have hlen := h.bytes_length
  have hs' : (m.closeGap cnt).sid = none := hs
  have hrd : (m.rd (cnt + 1) (m.len - cnt - 1)).length = (m.len - cnt - 1).toNat := by
    unfold Mbuf.rd
    rw [length_take, length_drop]
    omega
  have hdat : (m.closeGap cnt).dat.length = m.dat.length := by
    show (m.dat.take (m.off + cnt.toNat) ++ m.rd (cnt + 1) (m.len - cnt - 1) ++
      m.dat.drop (m.off + (m.len - 1).toNat)).length = _
    rw [length_append, length_append, hrd, length_take, length_drop]
    omega
  refine ⟨⟨?_, ?_, ?_, fun h3 => hdat.trans (h.small h3), fun d o h3 => ?_⟩, hs', ?_, ?_⟩
  · show 0 ≤ m.len - 1
    omega
  · show m.len - 1 < 32768
    omega
  · rw [hdat]
    show (m.off : ℤ) + (m.len - 1) ≤ _
    omega
  · rw [hs'] at h3
    cases h3
  · have h3 : m.dat.take (m.off + cnt.toNat) = m.dat.take m.off ++ m.bytes.take cnt.toNat := by
      rw [← Mbuf.rd_all hs]
      unfold Mbuf.rd
      rw [take_take, min_eq_left (by omega), Int.toNat_zero, Nat.add_zero, ← take_add]
    have h4 : m.rd (cnt + 1) (m.len - cnt - 1) = m.bytes.drop (cnt.toNat + 1) := by
      rw [Mbuf.rd_eq hs (by omega) (by omega), take_of_length_le]
      · congr 1
        omega
      · rw [length_drop]
        omega
    have h5 : (m.bytes.take cnt.toNat ++ m.bytes.drop (cnt.toNat + 1)).length =
        (m.len - 1).toNat := by
      rw [length_append, length_take, length_drop]
      omega
    have h6 : (m.dat.take m.off).length = m.off := by
      rw [length_take]
      omega
    rw [← Mbuf.rd_all hs']
    show ((m.dat.take (m.off + cnt.toNat) ++ m.rd (cnt + 1) (m.len - cnt - 1) ++
      m.dat.drop (m.off + (m.len - 1).toNat)).drop (m.off + 0)).take (m.len - 1).toNat = _
    rw [h3, h4, append_assoc, append_assoc, drop_append_of_le_length (by omega),
      drop_eq_nil_of_le (by omega), nil_append, ← append_assoc, ← h5,
      take_left, eraseIdx_eq_take_drop_succ]
  · rw [Mbuf.rd_eq hs h0 (by omega)]
    have h3 : (1 : ℤ).toNat = 1 := rfl
    rw [h3, head?_take]
    simp

variable {c : List (Mbuf B)}

/-- The byte pulled out, and the bytes that stay. -/
theorem pullLoop_ok (hc : OkChain c) (hk : KernelData c) {cnt : ℤ} (h0 : 0 ≤ cnt)
    (hl : cnt < (bytes c).length) : ∃ b c', pullLoop c cnt = .ok (b, c') ∧ OkChain c' ∧ KernelData c' ∧
      b = (bytes c)[cnt.toNat]? ∧ bytes c' = (bytes c).eraseIdx cnt.toNat := by
  induction c generalizing cnt with
  | nil =>
    have h1 : cnt < ((0 : ℕ) : ℤ) := hl
    omega
  | cons m c ih =>
    obtain ⟨h1, h2⟩ := okChain_cons.1 hc
    obtain ⟨h3, h4⟩ := kernelData_cons.1 hk
    have hlen := h1.bytes_length
    rw [bytes_cons, length_append] at hl
    unfold pullLoop
    split_ifs with h5
    · obtain ⟨h6, h7, h8, h9⟩ := h1.closeGap h3 h0 h5
      refine ⟨_, _, rfl, okChain_cons.2 ⟨h6, h2⟩, kernelData_cons.2 ⟨h7, h4⟩, ?_, ?_⟩
      · rw [h9, bytes_cons, getElem?_append_left (by omega)]
      · rw [bytes_cons, bytes_cons, h8, eraseIdx_append_of_lt_length (by omega)]
    · obtain ⟨b, c', h6, h7, h8, h9, h10⟩ := ih h2 h4 (show 0 ≤ cnt - m.len by omega) (by omega)
      have h11 : cnt.toNat - m.bytes.length = (cnt - m.len).toNat := by omega
      rw [h6]
      refine ⟨b, m :: c', rfl, okChain_cons.2 ⟨h1, h7⟩, kernelData_cons.2 ⟨h3, h8⟩, ?_, ?_⟩
      · rw [h9, bytes_cons, getElem?_append_right (by omega), h11]
      · rw [bytes_cons, bytes_cons, h10, eraseIdx_append_of_length_le (by omega), h11]

theorem kernelData_adjTail {n : ℤ} (h : KernelData c) : KernelData (adjTail c n) := by
  induction c generalizing n with
  | nil => exact nofun
  | cons m c ih =>
    obtain ⟨h1, h2⟩ := kernelData_cons.1 h
    unfold adjTail
    split_ifs
    · refine kernelData_cons.2 ⟨h1, fun x hx => ?_⟩
      obtain ⟨y, hy, rfl⟩ := mem_map.1 hx
      exact h2 y hy
    · exact kernelData_cons.2 ⟨h1, ih h2⟩

theorem kernelData_mAdj {n : ℤ} (h : KernelData c) : KernelData (mAdj c n) := by
  unfold mAdj
  split_ifs
  · exact kernelData_adjFront h
  · split
    · exact nofun
    · next m hm =>
      split_ifs
      · intro x hx
        rcases mem_append.1 hx with hx | hx
        · exact h x (dropLast_subset c hx)
        · rw [mem_singleton.1 hx]
          exact h m (mem_of_getLast? hm)
      · exact kernelData_adjTail h

/-! ### Segments on the queue -/

/-- A segment of the stream `D` without the byte pulled out of it; `ti_urp` counts at least to that
byte.  When no byte is missing, no test of the code finds one. -/
structure SegOk (D : ℤ → B) (irs : ℤ) (q : Seg B) : Prop where
  seq : q.seq = u32 (irs + q.pos)
  pos : 0 < q.len
  short : q.len < 32768
  chain : OkChain q.m
  kernel : KernelData q.m
  data : bytes q.m = kept D q.pos (q.pos + q.len) q.hole.toList
  hole : ∀ h ∈ q.hole, q.pos ≤ h ∧ h < q.pos + q.len ∧ q.urg ∧ h - q.pos < q.urp
  nohole : q.hole = none → ∀ i, i < q.len → ¬ q.Oob i

/-- The trims of the code are right where `ti_urp` counts from the start of the segment as it is,
or the byte that it counts to is not taken away. -/
def Seg.Judges (q : Seg B) (i : ℤ) : Prop := ∀ h ∈ q.hole, h < q.pos + i → q.urp ≤ i

variable {q : Seg B}

/-- The urgent byte is taken away exactly if the code finds it so. -/
theorem SegOk.oob_iff (h : SegOk D irs q) {i : ℤ} (hi : i < q.len) (hj : q.Judges i) :
    q.Oob i ↔ ∃ x ∈ q.hole, x < q.pos + i := by
  cases hq : q.hole with
  | none =>
    constructor
    · exact fun h1 => (h.nohole hq i hi h1).elim
    · rintro ⟨x, hx, -⟩
      cases hx
  | some x =>
    obtain ⟨h1, h2, h3, h4⟩ := h.hole x hq
    constructor
    · rintro ⟨-, -, -, h5⟩
      exact ⟨x, rfl, by omega⟩
    · rintro ⟨y, hy, h5⟩
      obtain rfl := Option.some.inj hy
      have h6 := hj x hq h5
      exact ⟨h3, by omega, by omega, h6⟩

/-- What is left after a trim. -/
theorem SegOk.trim (h : SegOk D irs q) {i : ℤ} (h0 : 0 < i) (hi : i < q.len)
    (hj : q.Judges i) : SegOk D irs (q.trim i) := by
  have hoob := h.oob_iff hi hj
  have hpos := h.pos
  have hshort := h.short
  have hseq : (q.trim i).seq = u32 (irs + (q.trim i).pos) := by
    show u32 (q.seq + i) = u32 (irs + (q.pos + i))
    rw [h.seq]
    unfold u32
    omega
  by_cases hc : q.Oob i
  · -- the byte pulled out is in the part that goes, so one byte less goes from the chain
    obtain ⟨x, hx, hxi⟩ := hoob.1 hc
    obtain ⟨h1, -, -, -⟩ := h.hole x hx
    have hm : (q.trim i).m = mAdj q.m (i - 1) := by
      unfold Seg.trim
      dsimp only
      rw [if_pos hc]
    have hhole : (q.trim i).hole = none := by
      show q.hole.filter _ = none
      rw [show q.hole = some x from hx]
      exact filter_some_neg (by simpa using hxi)
    obtain ⟨h2, h3⟩ := mAdj_front h.chain h.kernel (show 0 ≤ i - 1 by omega)
    refine ⟨hseq, by show 0 < q.len - i; omega, by show q.len - i < 32768; omega, ?_, ?_, ?_, ?_, ?_⟩
    · rw [hm]
      exact h2
    · rw [hm]
      exact kernelData_mAdj h.kernel
    · rw [hm, h3, h.data, hhole]
      have h4 : q.hole.toList = [x] := by
        rw [show q.hole = some x from hx]
        rfl
      rw [h4, drop_kept (show q.pos ≤ q.pos + i by omega) (by omega)]
      · show kept D (q.pos + i) (q.pos + q.len) [x] =
          kept D (q.pos + i) (q.pos + i + (q.len - i)) []
        rw [show q.pos + i + (q.len - i) = q.pos + q.len by omega]
        exact kept_congr fun y h5 _ => by simp; omega
      · rw [length_kept_one h1 hxi]
        omega
    · rw [hhole]
      exact nofun
    · rintro - k - ⟨h4, -⟩
      have h5 : (q.trim i).urg = false := by
        unfold Seg.trim
        dsimp only
        rw [decide_eq_true hc]
        simp
      rw [h5] at h4
      cases h4
  · have hm : (q.trim i).m = mAdj q.m i := by
      unfold Seg.trim
      dsimp only
      rw [if_neg hc]
    have hurp : (q.trim i).urp = q.urp := by
      unfold Seg.trim
      dsimp only
      rw [if_neg hc]
    have hhole : (q.trim i).hole = q.hole := by
      show q.hole.filter _ = q.hole
      cases hq : q.hole with
      | none => rfl
      | some x =>
        have h1 : q.pos + i ≤ x := by
          by_contra h2
          exact hc (hoob.2 ⟨x, hq, by omega⟩)
        exact filter_some_pos (by simpa using h1)
    have hgone : ∀ x ∈ q.hole.toList, ¬ (q.pos ≤ x ∧ x < q.pos + i) := fun x hx h1 =>
      hc (hoob.2 ⟨x, mem_toList.1 hx, h1.2⟩)
    obtain ⟨h2, h3⟩ := mAdj_front h.chain h.kernel h0.le
    refine ⟨hseq, by show 0 < q.len - i; omega, by show q.len - i < 32768; omega, ?_, ?_, ?_, ?_, ?_⟩
    · rw [hm]
      exact h2
    · rw [hm]
      exact kernelData_mAdj h.kernel
    · rw [hm, h3, h.data, hhole, drop_kept (show q.pos ≤ q.pos + i by omega) (by omega)]
      · show kept D (q.pos + i) (q.pos + q.len) _ = kept D (q.pos + i) (q.pos + i + (q.len - i)) _
        rw [show q.pos + i + (q.len - i) = q.pos + q.len by omega]
      · rw [length_kept hgone]
        omega
    · intro x hx
      rw [hhole] at hx
      obtain ⟨h4, h5, h6, h7⟩ := h.hole x hx
      have h8 := hgone x (mem_toList.2 hx)
      rw [hurp]
      refine ⟨?_, ?_, ?_, ?_⟩
      · show q.pos + i ≤ x
        omega
      · show x < q.pos + i + (q.len - i)
        omega
      · show (q.urg && !decide (q.Oob i)) = true
        rw [decide_eq_false hc, h6]
        rfl
      · show x - (q.pos + i) < q.urp
        omega
    · intro h1 k hk h4
      rw [hhole] at h1
      obtain ⟨h5, h6, h7, h8⟩ := h4
      rw [hurp] at h6 h7 h8
      have hk' : k < q.len - i := hk
      have h9 : q.urg = true := by
        have h10 : (q.urg && !decide (q.Oob i)) = true := h5
        rw [Bool.and_eq_true] at h10
        exact h10.1
      exact h.nohole h1 k (by omega) ⟨h9, h6, by omega, h8⟩

/-! ### The insertion -/

variable (B) in
/-- Segments of the stream, trimmed as the code does it. -/
def tcpSegs : Segs (Seg B) where
  lo q := q.pos
  hi q := q.pos + q.len
  cut q x := q.trim (x - q.pos)
  lo_cut q x := by
    show q.pos + (x - q.pos) = x
    omega
  hi_cut q x _ := by
    show q.pos + (x - q.pos) + (q.len - (x - q.pos)) = q.pos + q.len
    omega

theorem tcpSegs_lo (q : Seg B) : (tcpSegs B).lo q = q.pos := rfl

theorem tcpSegs_hi (q : Seg B) : (tcpSegs B).hi q = q.pos + q.len := rfl

theorem tcpSegs_cut (q : Seg B) (x : ℤ) : (tcpSegs B).cut q x = q.trim (x - q.pos) := rfl

/-- A segment that lies in the window. -/
structure InWindow (nxt : ℤ) (q : Seg B) : Prop where
  lo : nxt ≤ q.pos
  hi : q.pos + q.len ≤ nxt + 65535

variable {nxt : ℤ} {ti : Seg B} {segs : List (Seg B)}

theorem reassPrev_eq {p : Option (Seg B)} (hp : ∀ q ∈ p, SegOk D irs q ∧ InWindow nxt q)
    (ht : SegOk D irs ti) (hw : InWindow nxt ti) : reassPrev p ti = (tcpSegs B).trimFront p ti := by
  cases p with
  | none => rfl
  | some p =>
    obtain ⟨h1, h2, h3⟩ := hp p rfl
    have h4 := h1.pos
    have h5 := ht.pos
    have h6 := hw.lo
    have h7 := hw.hi
    have hi : sdiff (p.seq + p.len) ti.seq = p.pos + p.len - ti.pos := by
      refine sdiff_eq ?_ (by omega) (by omega)
      rw [h1.seq, ht.seq]
      unfold u32
      omega
    unfold reassPrev Segs.trimFront
    dsimp only
    rw [hi, tcpSegs_lo, tcpSegs_hi, tcpSegs_hi, tcpSegs_cut]
    by_cases h8 : ti.pos < p.pos + p.len
    · rw [if_pos h8, if_pos (by omega)]
      by_cases h9 : ti.pos + ti.len ≤ p.pos + p.len
      · rw [if_pos h9, if_pos (by omega)]
      · rw [if_neg h9, if_neg (by omega)]
    · rw [if_neg h8, if_neg (by omega)]

theorem reassSucc_eq (hs : ∀ q ∈ segs, SegOk D irs q ∧ InWindow nxt q) (ht : SegOk D irs ti)
    (hw : InWindow nxt ti) : reassSucc ti segs = (tcpSegs B).trimSucc ti segs := by
  induction segs with
  | nil => rfl
  | cons q qs ih =>
    obtain ⟨⟨h1, h2, h3⟩, h4⟩ := forall_mem_cons.1 hs
    have h5 := h1.pos
    have h6 := ht.pos
    have h7 := hw.lo
    have h8 := hw.hi
    have hi : sdiff (ti.seq + ti.len) q.seq = ti.pos + ti.len - q.pos := by
      refine sdiff_eq ?_ (by omega) (by omega)
      rw [h1.seq, ht.seq]
      unfold u32
      omega
    unfold reassSucc Segs.trimSucc
    dsimp only
    rw [hi, tcpSegs_lo, tcpSegs_hi, tcpSegs_hi, tcpSegs_cut, ih h4]
    by_cases h9 : q.pos < ti.pos + ti.len
    · rw [if_pos h9, if_neg (by omega)]
      by_cases h10 : ti.pos + ti.len < q.pos + q.len
      · rw [if_pos h10, if_pos (by omega)]
      · rw [if_neg h10, if_neg (by omega)]
    · rw [if_neg h9, if_pos (by omega)]

theorem takeWhile_congr_mem {α : Type*} {p q : α → Bool} {l : List α} (h : ∀ a ∈ l, p a = q a) :
    l.takeWhile p = l.takeWhile q ∧ l.dropWhile p = l.dropWhile q := by
  induction l with
  | nil => exact ⟨rfl, rfl⟩
  | cons a l ih =>
    obtain ⟨h1, h2⟩ := forall_mem_cons.1 h
    obtain ⟨h3, h4⟩ := ih h2
    rw [takeWhile_cons, takeWhile_cons, dropWhile_cons, dropWhile_cons, h1, h3, h4]
    exact ⟨rfl, rfl⟩

/-- The queue is searched by sequence numbers as it is by places in the stream. -/
theorem place_eq (hs : ∀ q ∈ segs, SegOk D irs q ∧ InWindow nxt q) (ht : SegOk D irs ti)
    (hw : InWindow nxt ti) :
    segs.takeWhile (fun q => ¬ SeqGt q.seq ti.seq) = ((tcpSegs B).place ti segs).1 ∧
      segs.dropWhile (fun q => ¬ SeqGt q.seq ti.seq) = ((tcpSegs B).place ti segs).2 := by
  refine takeWhile_congr_mem fun q hq => decide_eq_decide.2 ?_
  obtain ⟨h1, h2, h3⟩ := hs q hq
  have h4 := h1.pos
  have h5 := ht.pos
  have h6 := hw.lo
  have h7 := hw.hi
  have hi : sdiff q.seq ti.seq = q.pos - ti.pos := by
    refine sdiff_eq ?_ (by omega) (by omega)
    rw [h1.seq, ht.seq]
    unfold u32
    omega
  unfold SeqGt
  rw [hi, tcpSegs_lo, tcpSegs_lo]
  omega

/-- No trim of the segments after the new one misjudges. -/
def Judged (ti : Seg B) (segs : List (Seg B)) : Prop :=
  ∀ q ∈ segs, ti.pos < q.pos → q.pos < ti.pos + ti.len → ti.pos + ti.len < q.pos + q.len →
    q.Judges (ti.pos + ti.len - q.pos)

/-- A segment that is not trimmed yet: `ti_urp` counts exactly to the byte that is missing. -/
def Seg.Fresh (q : Seg B) : Prop := ∀ h ∈ q.hole, q.urp = h - q.pos + 1

theorem Seg.Fresh.judges (h : q.Fresh) (i : ℤ) : q.Judges i := fun x hx h1 => by
  have h2 := h x hx
  omega

theorem reassInsert_eq (hs : ∀ q ∈ segs, SegOk D irs q ∧ InWindow nxt q) (ht : SegOk D irs ti)
    (hw : InWindow nxt ti) (hf : ti.Fresh) : reassInsert ti segs = (tcpSegs B).insert ti segs := by
  obtain ⟨h1, h2⟩ := place_eq hs ht hw
  have hbefore : ∀ q ∈ ((tcpSegs B).place ti segs).1, q ∈ segs := fun q hq => by
    rw [← Segs.place_append (S := tcpSegs B) ti segs]
    exact mem_append_left _ hq
  have hafter : ∀ q ∈ ((tcpSegs B).place ti segs).2, q ∈ segs := fun q hq => by
    rw [← Segs.place_append (S := tcpSegs B) ti segs]
    exact mem_append_right _ hq
  have h3 : reassPrev ((tcpSegs B).place ti segs).1.getLast? ti =
      (tcpSegs B).trimFront ((tcpSegs B).place ti segs).1.getLast? ti :=
    reassPrev_eq (fun q hq => hs q (hbefore q (mem_of_getLast? hq))) ht hw
  unfold reassInsert Segs.insert
  dsimp only
  rw [h1, h2, h3]
  cases h4 : (tcpSegs B).trimFront ((tcpSegs B).place ti segs).1.getLast? ti with
  | none => rfl
  | some ti' =>
    have h5 : SegOk D irs ti' ∧ InWindow nxt ti' := by
      cases hp : ((tcpSegs B).place ti segs).1.getLast? with
      | none =>
        rw [hp] at h4
        obtain rfl := Option.some.inj h4
        exact ⟨ht, hw⟩
      | some p =>
        rw [hp] at h4
        unfold Segs.trimFront at h4
        dsimp only at h4
        rw [tcpSegs_lo, tcpSegs_hi, tcpSegs_hi, tcpSegs_cut] at h4
        split_ifs at h4 with h6 h7
        · obtain rfl := Option.some.inj h4
          refine ⟨ht.trim (by omega) (by omega) (hf.judges _), ?_, ?_⟩
          · have h8 := hw.lo
            show nxt ≤ ti.pos + (p.pos + p.len - ti.pos)
            omega
          · have h8 := hw.hi
            show ti.pos + (p.pos + p.len - ti.pos) + (ti.len - (p.pos + p.len - ti.pos)) ≤ _
            omega
        · obtain rfl := Option.some.inj h4
          exact ⟨ht, hw⟩
    rw [map_some, map_some,
      reassSucc_eq (fun q hq => hs q (hafter q hq)) h5.1 h5.2]

/-- After an insertion every segment on the queue is as it should be. -/
theorem insert_ok {segs' : List (Seg B)} (hs : ∀ q ∈ segs, SegOk D irs q ∧ InWindow nxt q)
    (hsort : (tcpSegs B).Sorted segs) (ht : SegOk D irs ti) (hw : InWindow nxt ti) (hf : ti.Fresh)
    (hj : Judged ti segs) (hi : (tcpSegs B).insert ti segs = some segs') :
    ∀ q ∈ segs', SegOk D irs q ∧ InWindow nxt q ∧
      ∀ x ∈ q.hole, x ∈ ti.hole ∨ ∃ q' ∈ segs, x ∈ q'.hole := by
  have hwf : (tcpSegs B).lo ti ≤ (tcpSegs B).hi ti := by
    have h1 := ht.pos
    rw [tcpSegs_lo, tcpSegs_hi]
    omega
  have htrim : ∀ (q : Seg B) (i x : ℤ), x ∈ (q.trim i).hole → x ∈ q.hole := fun q i x hx =>
    (mem_filter_iff.1 hx).1
  intro q hq
  obtain h1 | rfl | ⟨p, hp, h2, h3, h4, rfl⟩ | ⟨r, hr, h2, h3, h4, rfl⟩ := hsort.mem_insert hwf hi hq
  · obtain ⟨h2, h3⟩ := hs q h1
    exact ⟨h2, h3, fun x hx => .inr ⟨q, h1, hx⟩⟩
  · exact ⟨ht, hw, fun x hx => .inl hx⟩
  · rw [tcpSegs_lo, tcpSegs_hi] at h3
    rw [tcpSegs_hi, tcpSegs_hi] at h4
    rw [tcpSegs_cut, tcpSegs_hi]
    have h5 := hw.lo
    have h6 := hw.hi
    refine ⟨ht.trim (by omega) (by omega) (hf.judges _), ⟨?_, ?_⟩, fun x hx => .inl (htrim _ _ x hx)⟩
    · show nxt ≤ ti.pos + (p.pos + p.len - ti.pos)
      omega
    · show ti.pos + (p.pos + p.len - ti.pos) + (ti.len - (p.pos + p.len - ti.pos)) ≤ _
      omega
  · rw [tcpSegs_lo, tcpSegs_lo] at h2
    rw [tcpSegs_lo, tcpSegs_hi] at h3
    rw [tcpSegs_hi, tcpSegs_hi] at h4
    rw [tcpSegs_cut, tcpSegs_hi]
    obtain ⟨h5, h6, h7⟩ := hs r hr
    refine ⟨h5.trim (by omega) (by omega) (hj r hr h2 h3 h4), ⟨?_, ?_⟩,
      fun x hx => .inr ⟨r, hr, htrim _ _ x hx⟩⟩
    · show nxt ≤ r.pos + (ti.pos + ti.len - r.pos)
      omega
    · show r.pos + (ti.pos + ti.len - r.pos) + (r.len - (ti.pos + ti.len - r.pos)) ≤ _
      omega

/-! ### The control block -/

/-- What the connection received so far, and the queue. -/
structure TcpOk (D : ℤ → B) (irs : ℤ) (tp : Tcb B) : Prop where
  nxt : 0 ≤ tp.nxt
  rcvNxt : tp.rcvNxt = u32 (irs + tp.nxt)
  soRcv : tp.soRcv = kept D 0 tp.nxt tp.gone
  gone : ∀ x ∈ tp.gone, x < tp.nxt ∧ x ∈ tp.pulled
  tIobc : tp.tIobc = tp.pulled.getLast?.map D
  sorted : (tcpSegs B).Sorted tp.segs
  segs : ∀ q ∈ tp.segs, SegOk D irs q ∧ InWindow tp.nxt q ∧ ∀ x ∈ q.hole, x ∈ tp.pulled

variable {tp : Tcb B}

/-- The segment at `rcv_nxt` is appended; the queue is that of the rest. -/
theorem TcpOk.append (h : TcpOk D irs tp) (hs : SegOk D irs ti) (hseq : ti.pos = tp.nxt)
    (hp : ∀ x ∈ ti.hole, x ∈ tp.pulled) (hsort : (tcpSegs B).Sorted segs)
    (hsegs : ∀ q ∈ segs, SegOk D irs q ∧ tp.nxt + ti.len ≤ q.pos ∧
      q.pos + q.len ≤ tp.nxt + 65535 ∧ ∀ x ∈ q.hole, x ∈ tp.pulled) :
    TcpOk D irs { tp.append ti with segs := segs } := by
  have h1 := hs.pos
  have h2 := h.nxt
  refine ⟨?_, ?_, ?_, fun x hx => ?_, h.tIobc, hsort, fun q hq => ?_⟩
  · show 0 ≤ tp.nxt + ti.len
    omega
  · show u32 (tp.rcvNxt + ti.len) = u32 (irs + (tp.nxt + ti.len))
    rw [h.rcvNxt]
    unfold u32
    omega
  · show tp.soRcv ++ bytes ti.m = kept D 0 (tp.nxt + ti.len) (tp.gone ++ ti.hole.toList)
    rw [h.soRcv, hs.data, hseq, ← kept_append h2 (show tp.nxt ≤ tp.nxt + ti.len by omega)]
    refine congrArg₂ _ (kept_congr fun x h3 h4 => ?_) (kept_congr fun x h3 h4 => ?_)
    · rw [mem_append]
      refine ⟨.inl, fun h5 => h5.resolve_right fun h6 => ?_⟩
      have h7 := (hs.hole x (mem_toList.1 h6)).1
      omega
    · rw [mem_append]
      refine ⟨.inr, fun h5 => h5.resolve_left fun h6 => ?_⟩
      have h7 := (h.gone x h6).1
      omega
  · show x < tp.nxt + ti.len ∧ x ∈ tp.pulled
    rcases mem_append.1 hx with hx | hx
    · obtain ⟨h3, h4⟩ := h.gone x hx
      exact ⟨by omega, h4⟩
    · have hx' := mem_toList.1 hx
      obtain ⟨-, h3, -⟩ := hs.hole x hx'
      exact ⟨by omega, hp x hx'⟩
  · obtain ⟨h3, h4, h5, h6⟩ := hsegs q hq
    refine ⟨h3, ⟨h4, ?_⟩, h6⟩
    show q.pos + q.len ≤ tp.nxt + ti.len + 65535
    omega

theorem TcpOk.seq_iff (h : TcpOk D irs tp) (hs : SegOk D irs ti) (hw : InWindow tp.nxt ti) :
    ti.seq = tp.rcvNxt ↔ ti.pos = tp.nxt := by
  have h1 := hw.lo
  have h2 := hw.hi
  have h3 := hs.pos
  rw [hs.seq, h.rcvNxt]
  unfold u32
  omega

theorem presentLoop_ok (h : TcpOk D irs { tp with segs := segs }) :
    TcpOk D irs (presentLoop tp segs) := by
  induction segs generalizing tp with
  | nil => exact h
  | cons ti segs ih =>
    obtain ⟨⟨h1, h2, h3⟩, h4⟩ := forall_mem_cons.1 h.segs
    obtain ⟨h5, h6, h7⟩ := Segs.sorted_cons.1 h.sorted
    unfold presentLoop
    split_ifs with h8
    · have hpos : ti.pos = tp.nxt := (h.seq_iff h1 h2).1 h8
      refine ih (h.append h1 hpos h3 h7 fun q hq => ?_)
      obtain ⟨h9, h10, h11⟩ := h4 q hq
      have h12 := h6 q hq
      rw [tcpSegs_hi, tcpSegs_lo, hpos] at h12
      exact ⟨h9, h12, h10.hi, h11⟩
    · exact h

theorem present_ok (h : TcpOk D irs tp) : TcpOk D irs (present tp) := by
  unfold present
  split_ifs
  · exact h
  · split
    · exact h
    · split_ifs
      · exact h
      · exact h
      · exact presentLoop_ok h

/-- A segment that lies in the window is put on the queue, or appended at once. -/
theorem TCP_REASS_ok (h : TcpOk D irs tp) (ht : SegOk D irs ti) (hw : InWindow tp.nxt ti)
    (hf : ti.Fresh) (hp : ∀ x ∈ ti.hole, x ∈ tp.pulled) (hj : Judged ti tp.segs) :
    TcpOk D irs (TCP_REASS tp ti) := by
  unfold TCP_REASS
  split_ifs with h1
  · obtain ⟨h2, h3, -⟩ := h1
    have h4 := h.append ht ((h.seq_iff ht hw).1 h2) hp Segs.Sorted.nil nofun
    rw [← h3] at h4
    exact h4
  · have hs : ∀ q ∈ tp.segs, SegOk D irs q ∧ InWindow tp.nxt q := fun q hq =>
      ⟨(h.segs q hq).1, (h.segs q hq).2.1⟩
    have heq := reassInsert_eq hs ht hw hf
    unfold tcpReass
    cases hins : reassInsert ti tp.segs with
    | none => exact h
    | some segs' =>
      rw [hins] at heq
      have hwf : (tcpSegs B).lo ti ≤ (tcpSegs B).hi ti := by
        have h2 := ht.pos
        rw [tcpSegs_lo, tcpSegs_hi]
        omega
      have hall := insert_ok hs h.sorted ht hw hf hj heq.symm
      refine present_ok ⟨h.nxt, h.rcvNxt, h.soRcv, h.gone, h.tIobc, h.sorted.insert hwf heq.symm, ?_⟩
      intro q hq
      obtain ⟨h2, h3, h4⟩ := hall q hq
      refine ⟨h2, h3, fun x hx => ?_⟩
      rcases h4 x hx with h5 | ⟨q', hq', h5⟩
      · exact hp x h5
      · exact (h.segs q' hq').2.2 x h5

/-! ### What arrives -/

/-- A segment of the stream that nothing was pulled out of. -/
structure Plain (D : ℤ → B) (irs : ℤ) (q : Seg B) : Prop where
  seq : q.seq = u32 (irs + q.pos)
  len : 0 ≤ q.len
  short : q.len < 32768
  urp : 0 ≤ q.urp
  chain : OkChain q.m
  kernel : KernelData q.m
  data : bytes q.m = kept D q.pos (q.pos + q.len) []
  hole : q.hole = none

variable {x : TcpIn B}

theorem TcpIn.Of.plain (h : x.Of D tp) (hl : count x.m < 32768) : Plain D irs (x.seg irs) := by
  have h0 := h.ok.count_eq
  have h1 : short (count x.m) = count x.m := by
    unfold short
    rw [Int.bmod_def]
    omega
  refine ⟨rfl, ?_, ?_, Int.natCast_nonneg _, h.ok, h.kernel, ?_, rfl⟩
  · show 0 ≤ short (count x.m)
    omega
  · show short (count x.m) < 32768
    omega
  · show bytes x.m = kept D x.pos (x.pos + short (count x.m)) []
    rw [h1]
    exact h.data

/-- The duplicate data are cut off, and `ti_urp` counts from the new start. -/
theorem trimDup_ok {q q' : Seg B} (h : Plain D irs q) {n : ℤ} (h1 : n - 1073741824 ≤ q.pos)
    (h2 : q.pos ≤ n + 1073741824) (hq : trimDup (u32 (irs + n)) q = some q') :
    Plain D irs q' ∧ q'.pos = max q.pos n ∧ q'.pos + q'.len = q.pos + q.len := by
  have h4 := h.short
  have hi : sdiff (u32 (irs + n)) q.seq = n - q.pos := by
    refine sdiff_eq ?_ (by omega) (by omega)
    rw [h.seq]
    unfold u32
    omega
  unfold trimDup at hq
  dsimp only at hq
  have hu : 0 ≤ if n - q.pos < q.urp then q.urp - (n - q.pos) else 0 := by
    split_ifs <;> omega
  rw [hi] at hq
  generalize (if n - q.pos < q.urp then q.urp - (n - q.pos) else 0) = u at hq hu
  split_ifs at hq with h5 h6
  · obtain rfl := Option.some.inj hq
    obtain ⟨h7, h8⟩ := mAdj_front h.chain h.kernel h5.le
    refine ⟨⟨?_, ?_, ?_, hu, h7, kernelData_mAdj h.kernel, ?_, h.hole⟩, ?_, ?_⟩
    · show u32 (q.seq + (n - q.pos)) = u32 (irs + (q.pos + (n - q.pos)))
      rw [h.seq]
      unfold u32
      omega
    · show 0 ≤ q.len - (n - q.pos)
      omega
    · show q.len - (n - q.pos) < 32768
      omega
    · show bytes (mAdj q.m (n - q.pos)) =
        kept D (q.pos + (n - q.pos)) (q.pos + (n - q.pos) + (q.len - (n - q.pos))) []
      rw [h8, h.data, show q.pos + (n - q.pos) = n by omega,
        show n + (q.len - (n - q.pos)) = q.pos + q.len by omega]
      refine drop_kept (by omega) (by omega) ?_
      rw [length_kept (by simp)]
    · show q.pos + (n - q.pos) = _
      omega
    · show q.pos + (n - q.pos) + (q.len - (n - q.pos)) = _
      omega
  · obtain rfl := Option.some.inj hq
    exact ⟨h, by omega, rfl⟩

/-- What is after the window is cut off. -/
theorem trimWnd_ok {q q' : Seg B} (h : Plain D irs q) {n wnd : ℤ} (h0 : 0 ≤ wnd) (hw : wnd < 65536)
    (h1 : n ≤ q.pos) (h2 : q.pos ≤ n + 1073741824) (hq : trimWnd (u32 (irs + n)) wnd q = some q') :
    Plain D irs q' ∧ q'.pos = q.pos ∧ q'.pos + q'.len = min (q.pos + q.len) (n + wnd) := by
  have h3 := h.len
  have h4 := h.short
  have hi : sdiff (q.seq + q.len) (u32 (irs + n) + wnd) = q.pos + q.len - (n + wnd) := by
    refine sdiff_eq ?_ (by omega) (by omega)
    rw [h.seq]
    unfold u32
    omega
  unfold trimWnd at hq
  dsimp only at hq
  rw [hi] at hq
  split_ifs at hq with h5 h6
  · obtain rfl := Option.some.inj hq
    -- a segment that is all after the window goes on only if the window is closed at its start
    have h7 : q.pos + q.len - (n + wnd) ≤ q.len := by
      by_contra h8
      refine h6 ⟨by omega, fun h9 => ?_⟩
      have h10 := h9.2
      rw [h.seq] at h10
      unfold u32 at h10
      omega
    have hlen : (bytes q.m).length = q.len.toNat := by
      rw [h.data, length_kept (by simp)]
      congr 1
      omega
    obtain ⟨h8, h9⟩ := mAdj_tail h.chain (show -(q.pos + q.len - (n + wnd)) < 0 by omega)
      (.inl (by omega))
    refine ⟨⟨h.seq, ?_, ?_, h.urp, h8, kernelData_mAdj h.kernel, ?_, h.hole⟩, rfl, ?_⟩
    · show 0 ≤ q.len - (q.pos + q.len - (n + wnd))
      omega
    · show q.len - (q.pos + q.len - (n + wnd)) < 32768
      omega
    · show bytes (mAdj q.m (-(q.pos + q.len - (n + wnd)))) =
        kept D q.pos (q.pos + (q.len - (q.pos + q.len - (n + wnd)))) []
      rw [h9, h.data]
      refine take_kept (by omega) (by omega) ?_
      rw [length_kept (by simp), length_kept (by simp)]
      omega
    · show q.pos + (q.len - (q.pos + q.len - (n + wnd))) = _
      omega
  · obtain rfl := Option.some.inj hq
    exact ⟨h, rfl, by omega⟩

/-- A segment with text after the processing of `TH_URG`. -/
theorem urgProcess_ok (sbcc : ℤ) (h : TcpOk D irs tp) (hq : Plain D irs q)
    (hlen : q.len ≠ 0) (ht : tp.tState < TCPS_TIME_WAIT) :
    ∃ tp' q', urgProcess sbcc tp q = .ok (tp', q') ∧ TcpOk D irs tp' ∧ tp'.nxt = tp.nxt ∧
      tp'.segs = tp.segs ∧ SegOk D irs q' ∧ q'.Fresh ∧ q'.pos = q.pos ∧ q'.len = q.len ∧
      ∀ x ∈ q'.hole, x ∈ tp'.pulled := by
  have hpos : 0 < q.len := lt_of_le_of_ne hq.len (Ne.symm hlen)
  have hurp := hq.urp
  have hdata : bytes q.m = kept D q.pos (q.pos + q.len) q.hole.toList := by
    rw [hq.hole]
    exact hq.data
  have hnone : ∀ x, x ∉ q.hole := fun x hx => by
    rw [hq.hole] at hx
    cases hx
  have hplain : ∀ u, (∀ i, i < q.len → ¬ ({ q with urp := u } : Seg B).Oob i) →
      SegOk D irs { q with urp := u } := fun u hu =>
    ⟨hq.seq, hpos, hq.short, hq.chain, hq.kernel, hdata, fun x hx => (hnone x hx).elim, fun _ => hu⟩
  unfold urgProcess
  split_ifs with h1 h2 h3
  · exact ⟨tp, _, rfl, h, rfl, rfl, hplain 0 fun i _ h4 => h4.2.1 rfl, fun x hx => (hnone x hx).elim,
      rfl, rfl, fun x hx => (hnone x hx).elim⟩
  · -- the urgent byte is in the segment and is pulled out
    obtain ⟨h4, h5, -⟩ := h1
    have hblen : (bytes q.m).length = q.len.toNat := by
      rw [hq.data, length_kept (by simp)]
      congr 1
      omega
    obtain ⟨b, m, h6, h7, h8, h9, h10⟩ :=
      pullLoop_ok hq.chain hq.kernel (show 0 ≤ q.urp - 1 by omega) (by omega)
    obtain ⟨h11, h12⟩ := eraseIdx_kept (D := D) (show q.pos ≤ q.pos + q.urp - 1 by omega)
      (show q.pos + q.urp - 1 < q.pos + q.len by omega)
    rw [hq.data, show q.urp - 1 = q.pos + q.urp - 1 - q.pos by omega] at h9 h10
    rw [h11] at h10
    rw [h12] at h9
    rw [h6]
    refine ⟨_, _, rfl, ⟨h.nxt, h.rcvNxt, h.soRcv, fun x hx => ?_, ?_, h.sorted, fun r hr => ?_⟩, rfl,
      rfl, ⟨hq.seq, hpos, hq.short, h7, h8, h10, fun x hx => ?_, nofun⟩, fun x hx => ?_, rfl, rfl,
      fun x hx => ?_⟩
    · obtain ⟨h13, h14⟩ := h.gone x hx
      exact ⟨h13, mem_append_left _ h14⟩
    · show b = (tp.pulled ++ [q.pos + q.urp - 1]).getLast?.map D
      rw [h9, getLast?_concat]
      rfl
    · obtain ⟨h13, h14, h15⟩ := h.segs r hr
      exact ⟨h13, h14, fun x hx => mem_append_left _ (h15 x hx)⟩
    · obtain rfl := Option.some.inj hx
      refine ⟨?_, ?_, h4, ?_⟩
      · show q.pos ≤ q.pos + q.urp - 1
        omega
      · show q.pos + q.urp - 1 < q.pos + q.len
        omega
      · show q.pos + q.urp - 1 - q.pos < q.urp
        omega
    · obtain rfl := Option.some.inj hx
      show q.urp = q.pos + q.urp - 1 - q.pos + 1
      omega
    · obtain rfl := Option.some.inj hx
      exact mem_append_right _ (mem_singleton_self _)
  · exact ⟨tp, q, rfl, h, rfl, rfl, hplain q.urp fun i _ h4 => h3 h4.2.2.1,
      fun x hx => (hnone x hx).elim, rfl, rfl, fun x hx => (hnone x hx).elim⟩
  · exact ⟨tp, q, rfl, h, rfl, rfl, hplain q.urp fun i _ h4 => h1 ⟨h4.1, h4.2.1, ht⟩,
      fun x hx => (hnone x hx).elim, rfl, rfl, fun x hx => (hnone x hx).elim⟩

/-- Where a segment that arrives ends when what is after the window is cut off. -/
def TcpIn.hi (tp : Tcb B) (x : TcpIn B) : ℤ := min (x.pos + count x.m) (tp.nxt + x.wnd)

/-- The length of a segment fits `ti_len`; and a segment on the queue that loses its front to it,
together with the place of its urgent byte, has a `ti_urp` that counts to a byte in that front. -/
def TcpCond (tp : Tcb B) : TcpAct B → Prop
  | .input x => count x.m < 32768 ∧ ∀ q ∈ tp.segs, max x.pos tp.nxt < q.pos → q.pos < x.hi tp →
      x.hi tp < q.pos + q.len → q.Judges (x.hi tp - q.pos)
  | _ => True

theorem urgProcess_no_text (tp : Tcb B) (sbcc : ℤ) (hq : Plain D irs q) (hl : q.len = 0) :
    ∃ q', urgProcess sbcc tp q = .ok (tp, q') ∧ q'.len = 0 := by
  have h1 := hq.urp
  unfold urgProcess
  split_ifs with h2 h3 h4
  · exact ⟨_, rfl, hl⟩
  · have h5 := h2.2.1
    omega
  · exact ⟨_, rfl, hl⟩
  · exact ⟨_, rfl, hl⟩

/-- One segment arrives. -/
theorem tcpInput_ok (h : TcpOk D irs tp) (hx : x.Of D tp)
    (hc : TcpCond tp (.input x)) : ∃ tp', tcpInput irs tp x = .ok tp' ∧ TcpOk D irs tp' := by
  obtain ⟨hl, hj⟩ := hc
  have hplain : Plain D irs (x.seg irs) := hx.plain hl
  have hcount := hx.ok.count_eq
  have hlen : (x.seg irs).len = count x.m := by
    show short (count x.m) = count x.m
    unfold short
    rw [Int.bmod_def]
    omega
  have hwnd : (x.wnd : ℤ) < 65536 := by
    have h1 := hx.wnd
    omega
  unfold tcpInput
  rw [h.rcvNxt]
  cases hd : trimDup (u32 (irs + tp.nxt)) (x.seg irs) with
  | none => exact ⟨tp, rfl, h⟩
  | some q =>
    obtain ⟨h1, h2, h3⟩ := trimDup_ok hplain hx.near.1 hx.near.2 hd
    have hxpos : (x.seg irs).pos = x.pos := rfl
    have hnear := hx.near.2
    rw [hxpos] at h2 h3
    cases hw : trimWnd (u32 (irs + tp.nxt)) x.wnd q with
    | none =>
      rw [bind_some, hw]
      exact ⟨tp, rfl, h⟩
    | some ti =>
      obtain ⟨h4, h5, h6⟩ := trimWnd_ok h1 (Int.natCast_nonneg _) hwnd (by omega) (by omega) hw
      rw [h3, hlen] at h6
      rw [bind_some, hw]
      dsimp only
      by_cases h7 : ti.len = 0
      · obtain ⟨q', h8, h9⟩ := urgProcess_no_text tp x.sbcc h4 h7
        refine ⟨tp, ?_, h⟩
        rw [h8]
        unfold dodata
        show Except.ok (if q'.len ≠ 0 ∧ tp.tState < TCPS_TIME_WAIT then _ else _) = Except.ok tp
        rw [if_neg fun h10 => h10.1 h9]
      · by_cases h8 : tp.tState < TCPS_TIME_WAIT
        · obtain ⟨tp', q', h9, h10, h11, h12, h13, h14, h15, h16, h17⟩ :=
            urgProcess_ok x.sbcc h h4 h7 h8
          have hhi : q'.pos + q'.len = x.hi tp := by
            unfold TcpIn.hi
            omega
          rw [h9]
          refine ⟨dodata tp' q', rfl, ?_⟩
          unfold dodata
          split_ifs with h18
          · refine TCP_REASS_ok h10 h13 ⟨?_, ?_⟩ h14 h17 fun r hr h19 h20 h21 => ?_
            · omega
            · unfold TcpIn.hi at hhi
              omega
            · rw [hhi] at h20 h21 ⊢
              rw [h12] at hr
              exact hj r hr (by omega) h20 h21
          · exact h10
        · refine ⟨tp, ?_, h⟩
          unfold urgProcess
          rw [if_neg fun h9 => h8 h9.2.2]
          show Except.ok (dodata tp ti) = Except.ok tp
          unfold dodata
          rw [if_neg fun h9 => h8 h9.2]

/-! ### Whole runs -/

theorem tcpOk_of_reach (h : ((tcpLts D irs).restrict TcpCond).Reach tp) : TcpOk D irs tp := by
  refine h.inv ?_ fun tp a tp' _ hs hstep => ?_
  · rintro tp ⟨h1, h2, h3, h4, h5, h6, h7⟩
    refine ⟨h5.ge, by rw [h4, h5, add_zero], ?_, ?_, by rw [h3, h7]; rfl, ?_, ?_⟩
    · rw [h2, h5, kept_self]
    · rw [h6]
      exact nofun
    · rw [h1]
      exact Segs.Sorted.nil
    · rw [h1]
      exact nofun
  · obtain ⟨hc, hstep⟩ := hstep
    cases a with
    | input x =>
      obtain ⟨tp1, h1, h2⟩ := tcpInput_ok hs hstep.1 hc
      have h3 : tcpInput irs tp x = .ok tp' := hstep.2
      rw [h1] at h3
      obtain rfl := Except.ok.inj h3
      exact h2
    | state t =>
      obtain rfl : tp' = { tp with tState := t } := hstep
      exact ⟨hs.nxt, hs.rcvNxt, hs.soRcv, hs.gone, hs.tIobc, hs.sorted, hs.segs⟩
    | present =>
      obtain rfl : tp' = present tp := hstep
      exact present_ok hs

/-- In every run whose steps meet the condition the receive buffer got the stream up to `rcv_nxt`
without urgent bytes that were pulled out, a chain on the queue is as long as `ti_len` says or misses
the byte that was pulled out of it, and a segment that arrives is taken without a panic. -/
theorem tcp_reass_stream (h : ((tcpLts D irs).restrict TcpCond).Reach tp) :
    tp.soRcv = kept D 0 tp.nxt tp.gone ∧ tp.rcvNxt = u32 (irs + tp.nxt) ∧
      (∀ x ∈ tp.gone, x ∈ tp.pulled) ∧ tp.tIobc = tp.pulled.getLast?.map D ∧
      (∀ q ∈ tp.segs, q.seq = u32 (irs + q.pos) ∧
        bytes q.m = kept D q.pos (q.pos + q.len) q.hole.toList ∧
        ((bytes q.m).length : ℤ) = (if q.hole.isSome then q.len - 1 else q.len) ∧
        ∀ x ∈ q.hole, q.pos ≤ x ∧ x < q.pos + q.len ∧ x ∈ tp.pulled) ∧
      ∀ x : TcpIn B, x.Of D tp → TcpCond tp (.input x) → ∃ tp', tcpInput irs tp x = .ok tp' := by
  have hs := tcpOk_of_reach h
  refine ⟨hs.soRcv, hs.rcvNxt, fun x hx => (hs.gone x hx).2, hs.tIobc, fun q hq => ?_,
    fun x h1 h2 => ?_⟩
  · obtain ⟨h1, h2, h3⟩ := hs.segs q hq
    have h4 := h1.pos
    refine ⟨h1.seq, h1.data, ?_, fun x hx => ?_⟩
    · rw [h1.data]
      cases hh : q.hole with
      | none =>
        rw [length_kept (by simp)]
        simp only [Option.isSome_none, Bool.false_eq_true, if_false]
        omega
      | some x =>
        obtain ⟨h5, h6, -⟩ := h1.hole x hh
        rw [Option.toList_some, length_kept_one h5 h6]
        simp only [Option.isSome_some, if_true]
        omega
    · obtain ⟨h5, h6, -⟩ := h1.hole x hx
      exact ⟨h5, h6, h3 x hx⟩
  · obtain ⟨tp', h3, -⟩ := tcpInput_ok hs h1 h2
    exact ⟨tp', h3⟩

/-! ### Runs on fixed inputs -/

/-- One mbuf with a piece of the stream whose bytes are their places. -/
def piece (lo : ℤ) (n : ℕ) : List (Mbuf ℤ) :=
  [{ cl := some { cltype := .normal, clsize := n }, dat := ints lo (lo + n), off := 0, len := n }]

/-- A segment of that stream. -/
def arrival (lo : ℤ) (n : ℕ) (urg : Bool) (urp : ℕ) : TcpIn ℤ where
  pos := lo
  m := piece lo n
  urg := urg
  urp := urp
  wnd := 1000
  sbcc := 0

theorem arrival_of {tp : Tcb ℤ} {lo : ℤ} {n urp : ℕ} {urg : Bool} (h0 : 0 ≤ lo) (hn : n < 32768)
    (hu : urp < 65536) (h1 : tp.nxt - 1073741824 ≤ lo) (h2 : lo ≤ tp.nxt + 1073741824) :
    (arrival lo n urg urp).Of id tp := by
  have hlen : (ints lo (lo + n)).length = n := by
    rw [length_ints]
    omega
  have hcount : count (piece lo n) = n := by
    show (n : ℤ) + 0 = n
    omega
  refine ⟨okChain_cons.2 ⟨⟨Int.natCast_nonneg n, ?_, ?_, nofun, nofun⟩, nofun⟩,
    kernelData_cons.2 ⟨rfl, nofun⟩, ?_, h0, ⟨h1, h2⟩, ?_, hu, ?_⟩
  · show (n : ℤ) < 32768
    omega
  · show ((0 : ℕ) : ℤ) + (n : ℤ) ≤ ((ints lo (lo + n)).length : ℕ)
    omega
  · show (((ints lo (lo + n)).drop 0).take (n : ℤ).toNat) ++ [] =
      kept id lo (lo + count (piece lo n)) []
    rw [hcount, append_nil, drop_zero, take_of_length_le (by omega)]
    unfold kept
    simp
  · show count (piece lo n) < 65536
    omega
  · show 1000 < 65536
    decide

/-- An established connection that has received nothing. -/
def fresh (B : Type) : Tcb B where
  tState := TCPS_ESTABLISHED
  rcvNxt := 0
  segs := []
  soRcv := []
  tIobc := none
  nxt := 0
  gone := []
  pulled := []

theorem step_input {tp tp' : Tcb B} (hx : x.Of D tp) (h : tcpInput irs tp x = .ok tp') :
    (tcpLts D irs).step tp (.input x) tp' := ⟨hx, h⟩

theorem reach_input {tp' : Tcb B} (h : ((tcpLts D irs).restrict TcpCond).Reach tp)
    (hx : x.Of D tp) (hc : TcpCond tp (.input x)) (hs : tcpInput irs tp x = .ok tp') :
    ((tcpLts D irs).restrict TcpCond).Reach tp' := h.step ⟨hc, step_input hx hs⟩

/-- A segment with an urgent byte waits for the one before it. -/
theorem tcp_reass_stream_urgent : ∃ tp, ((tcpLts id 0).restrict TcpCond).Reach tp ∧
    tp.soRcv = [0, 1, 2, 3, 4, 6, 7] ∧ tp.soRcv = kept id 0 tp.nxt tp.gone := by
  have h0 : ((tcpLts id 0).restrict TcpCond).Reach (fresh ℤ) :=
    .init ⟨rfl, rfl, rfl, rfl, rfl, rfl, rfl⟩
  have h1 := reach_input (x := arrival 3 5 true 3) h0
    (arrival_of (by decide) (by decide) (by decide) (by decide) (by decide))
    ⟨by decide, fun q hq => by cases hq⟩ rfl
  have h2 := reach_input (x := arrival 0 4 false 0) h1
    (arrival_of (by decide) (by decide) (by decide) (by decide) (by decide))
    ⟨by decide, fun q hq _ _ _ x hx h3 => by
      obtain rfl := List.mem_singleton.1 hq
      obtain rfl := Option.some.inj hx
      exact absurd h3 (by decide)⟩ rfl
  exact ⟨_, h2, by decide, (tcp_reass_stream h2).1⟩

/-- A segment is trimmed twice from the front, the second time with its urgent byte, and loses a byte
that is not urgent; and a segment of 40000 bytes moves `rcv_nxt` back. -/
theorem stream_byte_lost :
    (∃ tp, (tcpLts id 0).Reach tp ∧ tp.nxt = 20 ∧ tp.pulled = [15] ∧
      tp.soRcv = ints 0 16 ++ ints 17 20) ∧
    ∃ (D : ℤ → Unit) (tp : Tcb Unit), (tcpLts D 0).Reach tp ∧ tp.soRcv.length = 40000 ∧
      tp.rcvNxt = 4294941760 := by
  constructor
  · have h0 : (tcpLts id 0).Reach (fresh ℤ) := .init ⟨rfl, rfl, rfl, rfl, rfl, rfl, rfl⟩
    have h1 := h0.step (step_input (x := arrival 10 10 true 6) (arrival_of (by decide) (by decide)
      (by decide) (by decide) (by decide)) rfl)
    have h2 := h1.step (step_input (x := arrival 5 7 false 0) (arrival_of (by decide) (by decide)
      (by decide) (by decide) (by decide)) rfl)
    have h3 := h2.step (step_input (x := arrival 5 11 false 0) (arrival_of (by decide) (by decide)
      (by decide) (by decide) (by decide)) rfl)
    have h4 := h3.step (step_input (x := arrival 0 5 false 0) (arrival_of (by decide) (by decide)
      (by decide) (by decide) (by decide)) rfl)
    exact ⟨_, h4, by decide, by decide, by decide⟩
  · have h0 : (tcpLts (fun _ => ()) 0).Reach (fresh Unit) := .init ⟨rfl, rfl, rfl, rfl, rfl, rfl, rfl⟩
    have hlen : (bytes (pair 20000)).length = 40000 := by
      have h1 := (pair_ok (show 20000 < 32768 by decide)).count_eq
      have h2 : count (pair 20000) = 40000 := rfl
      omega
    let x : TcpIn Unit := { pos := 0, m := pair 20000, urg := false, urp := 0, wnd := 50000, sbcc := 0 }
    have hx : x.Of (fun _ => ()) (fresh Unit) := by
      refine ⟨pair_ok (by decide), kernelData_cons.2 ⟨rfl, kernelData_cons.2 ⟨rfl, nofun⟩⟩, ?_,
        le_refl 0, ⟨by decide, by decide⟩, by decide, by decide, by decide⟩
      refine unit_list_ext ?_
      rw [hlen, length_kept (by simp)]
      rfl
    have e1 : tcpInput 0 (fresh Unit) x = .ok ((fresh Unit).append (x.seg 0)) := rfl
    have h1 := h0.step (step_input hx e1)
    refine ⟨_, _, h1, ?_, by decide⟩
    show ([] ++ bytes (pair 20000)).length = 40000
    rw [List.nil_append, hlen]

end Hpux.Net
