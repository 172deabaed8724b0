import Hpux910.Net.MbufCopy

/-!
# Joining, trimming and cutting mbuf chains

* `mCat_ok`, `mAdj_front`, `mAdj_tail` : `m_cat` and `m_adj`.
* `pullupLoop_ok`, `mPullup_cases` : `m_pullup`.
* `CutsDux`, `mFrag_cases` : `m_frag`.
* `mbuf_bytes` : what the routines do to the bytes of a chain.
-/

namespace Hpux.Net

open List

variable {B : Type} {m n : Mbuf B} {c d : List (Mbuf B)} {as : List B}

/-! ### `m_cat` -/

theorem catLoop_ok (hm : m.Ok) (hc : OkChain c) (hk : KernelData c) :
    OkChain (catLoop m c) ∧ bytes (catLoop m c) = m.bytes ++ bytes c := by
  induction c generalizing m with
  | nil => exact ⟨okChain_cons.2 ⟨hm, nofun⟩, rfl⟩
  | cons n c ih =>
    obtain ⟨h1, h2⟩ := okChain_cons.1 hc
    obtain ⟨h3, h4⟩ := kernelData_cons.1 hk
    unfold catLoop
    split_ifs with h5
    · exact ⟨okChain_cons.2 ⟨hm, hc⟩, rfl⟩
    · obtain ⟨h6, h7, h8⟩ := not_or.1 h5 |>.imp id not_or.1
      have hcl : m.cl = none := Option.isSome_eq_false_iff.1 (Bool.not_eq_true _ ▸ h6) |>
        Option.isNone_iff_eq_none.1
      have h9 := hm.bytes_length
      have h10 := h1.bytes_length
      obtain ⟨h11, h12, -⟩ := @Mbuf.Holds.append B m _ (n.rd 0 n.len) hm.holds hcl
        (by rw [Mbuf.rd_all h3]; omega)
      obtain ⟨h13, h14⟩ := ih h11 h2 h4
      refine ⟨h13, ?_⟩
      rw [h14, h12, Mbuf.rd_all h3, bytes_cons, append_assoc]

theorem mCat_ok (hc : OkChain c) (hd : OkChain d) (hk : KernelData d) (h0 : c ≠ []) :
    ∃ r, mCat c d = .ok r ∧ OkChain r ∧ bytes r = bytes c ++ bytes d := by
  induction c with
  | nil => exact absurd rfl h0
  | cons m c ih =>
    obtain ⟨h1, h2⟩ := okChain_cons.1 hc
    cases c with
    | nil =>
      obtain ⟨h3, h4⟩ := catLoop_ok h1 hd hk
      refine ⟨_, rfl, h3, ?_⟩
      rw [h4, bytes_cons, bytes_nil, append_nil]
    | cons m' c =>
      obtain ⟨r, h3, h4, h5⟩ := ih h2 nofun
      refine ⟨m :: r, ?_, okChain_cons.2 ⟨h1, h4⟩, ?_⟩
      · unfold mCat
        rw [h3]
        rfl
      · simp only [bytes_cons, h5, append_assoc]

/-! ### `m_adj` -/

/-- An mbuf that keeps the first bytes only. -/
theorem Mbuf.Ok.trunc (h : m.Ok) {k : ℤ} (h0 : 0 ≤ k) (hk : k ≤ m.len) :
    ({ m with len := k } : Mbuf B).Ok ∧
      ({ m with len := k } : Mbuf B).bytes = m.bytes.take k.toNat := by
  have h1 := h.fits
  have h2 := h.short
  have hs : ({ m with len := k } : Mbuf B).sid = m.sid := rfl
  refine ⟨⟨h0, by show k < 32768; omega, by show (m.off : ℤ) + k ≤ m.dat.length; omega, h.small,
    fun d o hd => ?_⟩, ?_⟩
  · have h3 := h.sid d o hd
    show (o : ℤ) + k ≤ d.length
    omega
  · unfold Mbuf.bytes
    rw [hs]
    have hmin : min k.toNat m.len.toNat = k.toNat := by omega
    cases m.sid with
    | none =>
      simp only [Mbuf.rd, take_take, hmin]
    | some x =>
      simp only [take_take, hmin]

theorem Mbuf.Ok.empty (h : m.Ok) :
    ({ m with len := 0 } : Mbuf B).Ok ∧ ({ m with len := 0 } : Mbuf B).bytes = [] := by
  obtain ⟨h1, h2⟩ := h.trunc (le_refl 0) h.len_nonneg
  exact ⟨h1, by rw [h2]; rfl⟩

variable {len : ℤ}

theorem adjFront_ok (hc : OkChain c) (hk : KernelData c) (h0 : 0 ≤ len) :
    OkChain (adjFront c len) ∧ bytes (adjFront c len) = (bytes c).drop len.toNat := by
  induction c generalizing len with
  | nil => exact ⟨nofun, drop_nil.symm⟩
  | cons m c ih =>
    obtain ⟨h1, h2⟩ := okChain_cons.1 hc
    obtain ⟨h3, h4⟩ := kernelData_cons.1 hk
    have h5 := h1.bytes_length
    unfold adjFront
    split_ifs with h6 h7
    · obtain ⟨h8, h9⟩ := ih h2 h4 (show 0 ≤ len - m.len by omega)
      refine ⟨okChain_cons.2 ⟨h1.empty.1, h8⟩, ?_⟩
      have h10 : m.bytes.drop len.toNat = [] := drop_eq_nil_of_le (by omega)
      rw [bytes_cons, h1.empty.2, h9, bytes_cons, drop_append, h10]
      congr 2
      omega
    · obtain ⟨h8, h9, -⟩ := h1.share_holds h3 (i := len) (k := m.len - len) h0 (by omega) (by omega)
      refine ⟨okChain_cons.2 ⟨h8, h2⟩, ?_⟩
      show (m.share len (m.len - len)).bytes ++ bytes c = _
      rw [bytes_cons, drop_append_of_le_length (by omega), h9, Mbuf.rd_eq h3 h0 (by omega), take_of_length_le]
      rw [length_drop]
      omega
    · obtain rfl : len = 0 := by omega
      exact ⟨hc, rfl⟩

theorem adjTail_ok {k : ℤ} (hc : OkChain c) (h0 : 0 ≤ k) (hk : k ≤ (bytes c).length) :
    OkChain (adjTail c k) ∧ bytes (adjTail c k) = (bytes c).take k.toNat := by
  induction c generalizing k with
  | nil => exact ⟨nofun, take_nil.symm⟩
  | cons m c ih =>
    obtain ⟨h1, h2⟩ := okChain_cons.1 hc
    have h5 := h1.bytes_length
    rw [bytes_cons, length_append] at hk
    unfold adjTail
    split_ifs with h6
    · obtain ⟨h7, h8⟩ := h1.trunc h0 h6
      have h9 : bytes (c.map fun m => { m with len := 0 }) = [] := by
        refine flatMap_eq_nil_iff.2 fun x hx => ?_
        obtain ⟨y, hy, rfl⟩ := mem_map.1 hx
        exact (h2 y hy).empty.2
      refine ⟨okChain_cons.2 ⟨h7, fun x hx => ?_⟩, ?_⟩
      · obtain ⟨y, hy, rfl⟩ := mem_map.1 hx
        exact (h2 y hy).empty.1
      · rw [bytes_cons, h8, h9, bytes_cons, append_nil,
          take_append_of_le_length (by omega)]
    · obtain ⟨h7, h8⟩ := ih h2 (k := k - m.len) (by omega) (by omega)
      refine ⟨okChain_cons.2 ⟨h1, h7⟩, ?_⟩
      have h9 : m.bytes.take k.toNat = m.bytes := take_of_length_le (by omega)
      rw [bytes_cons, h8, bytes_cons, take_append, h9]
      congr 2
      omega

theorem mAdj_front (hc : OkChain c) (hk : KernelData c) (h0 : 0 ≤ len) :
    OkChain (mAdj c len) ∧ bytes (mAdj c len) = (bytes c).drop len.toNat := by
  unfold mAdj
  rw [if_pos h0]
  exact adjFront_ok hc hk h0

theorem mAdj_tail (hc : OkChain c) (h0 : len < 0) (hl : -len ≤ (bytes c).length ∨ c = []) :
    OkChain (mAdj c len) ∧ bytes (mAdj c len) = (bytes c).take ((bytes c).length + len).toNat := by
  unfold mAdj
  rw [if_neg (by omega)]
  cases hlast : c.getLast? with
  | none =>
    obtain rfl := getLast?_eq_none_iff.1 hlast
    exact ⟨nofun, take_nil.symm⟩
  | some m =>
    obtain ⟨c', rfl⟩ := getLast?_eq_some_iff.1 hlast
    obtain ⟨h1, h2⟩ := okChain_append.1 hc
    have h3 := (okChain_cons.1 h2).1
    have h4 := h3.bytes_length
    have hlen : (bytes (c' ++ [m])).length = (bytes c').length + m.bytes.length := by
      rw [bytes_append, length_append, bytes_cons, bytes_nil, append_nil]
    dsimp only
    split_ifs with h5
    · obtain ⟨h6, h7⟩ := h3.trunc (k := m.len - -len) (by omega) (by omega)
      rw [dropLast_concat]
      refine ⟨okChain_append.2 ⟨h1, okChain_cons.2 ⟨h6, nofun⟩⟩, ?_⟩
      have h8 : (bytes c').take (((bytes c').length + m.bytes.length : ℕ) + len).toNat = bytes c' :=
        take_of_length_le (by omega)
      rw [hlen, bytes_append, bytes_append, take_append, h8, bytes_cons, bytes_cons, h7,
        bytes_nil, append_nil, append_nil]
      congr 2
      omega
    · have hl' : -len ≤ (bytes (c' ++ [m])).length := hl.resolve_right (by simp)
      have h6 := hc.count_eq
      obtain ⟨h7, h8⟩ := adjTail_ok hc (k := count (c' ++ [m]) - -len) (by omega) (by omega)
      refine ⟨h7, ?_⟩
      rw [h8]
      congr 1
      omega

/-! ### `m_pullup` -/

/-- The loop moves bytes from the chain into the small mbuf, which has room for `len` of them. -/
theorem pullupLoop_ok {space len : ℤ} (hm : m.Holds as) (hcl : m.cl = none)
    (hsp : m.off + space = MLEN) (hr : as.length + len ≤ space) (h0 : 0 ≤ len) (hc : OkChain c)
    (hk : KernelData c) : ∃ m' c' len' freed bs, pullupLoop space m c len = some (m', c', len', freed) ∧
      m'.cl = none ∧ m'.Holds (as ++ bs) ∧ bs ++ bytes c' = bytes c ∧ OkChain c' ∧
      len' = len - bs.length ∧ freed + c'.length = c.length ∧ (0 < len' → c' = []) := by
  induction c generalizing m len as with
  | nil =>
    exact ⟨m, [], len, 0, [], rfl, hcl, by rwa [append_nil], rfl, nofun, by simp, rfl,
      fun _ => rfl⟩
  | cons n c ih =>
    obtain ⟨h1, h2⟩ := okChain_cons.1 hc
    obtain ⟨h3, h4⟩ := kernelData_cons.1 hk
    have h5 := h1.bytes_length
    have h7 := hm.2.2
    unfold pullupLoop
    dsimp only
    obtain ⟨k, hkeq, hk0, hkn⟩ : ∃ k, min (min (space - m.len) (len + MPULL_EXTRA)) n.len = k ∧
        0 ≤ k ∧ k ≤ n.len := ⟨_, rfl, by omega, by omega⟩
    rw [hkeq]
    have hrd : n.rd 0 k = n.bytes.take k.toNat := by
      rw [Mbuf.rd_eq h3 (le_refl 0) (by omega)]
      rfl
    have hlen : (n.bytes.take k.toNat).length = k.toNat := by
      rw [length_take]
      omega
    have happ := @Mbuf.Holds.append B m _ (n.bytes.take k.toNat) hm hcl (by omega)
    rw [hrd]
    split_ifs with h8 h9 h10
    · -- with room for the rest of `len` the loop takes all of the mbuf
      exfalso
      omega
    · obtain ⟨h11, h12, -⟩ := h1.share_holds h3 (i := k) (k := n.len - k) hk0 (by omega) (by omega)
      refine ⟨_, _, _, _, n.bytes.take k.toNat, rfl, hcl, happ, ?_, okChain_cons.2 ⟨h11, h2⟩, by omega,
        Nat.zero_add _, fun h => absurd h h9⟩
      show _ ++ bytes (n.share k (n.len - k) :: c) = _
      have h13 : (n.bytes.drop k.toNat).take (n.len - k).toNat = n.bytes.drop k.toNat :=
        take_of_length_le (by rw [length_drop]; omega)
      rw [bytes_cons, h12, Mbuf.rd_eq h3 hk0 (by omega), h13, ← append_assoc,
        take_append_drop, bytes_cons]
    · have hall : n.bytes.take k.toNat = n.bytes := take_of_length_le (by omega)
      rw [hall] at happ hlen ⊢
      obtain ⟨m', c', len', freed, bs, h11, h12, h13, h14, h15, h16, h17, h18⟩ :=
        ih happ hcl hsp (by rw [length_append]; omega) (show 0 ≤ len - k by omega) h2 h4
      refine ⟨m', c', len', freed + 1, n.bytes ++ bs, ?_, h12, ?_, ?_, h15, ?_, ?_, h18⟩
      · rw [h11]
        rfl
      · rwa [← append_assoc]
      · rw [append_assoc, h14, bytes_cons]
      · rw [length_append]
        omega
      · rw [length_cons]
        omega
    · have hall : n.bytes.take k.toNat = n.bytes := take_of_length_le (by omega)
      rw [hall] at happ hlen ⊢
      refine ⟨_, c, len - k, 1, n.bytes, rfl, hcl, happ, bytes_cons.symm, h2, by omega, ?_,
        fun h => absurd h h10⟩
      rw [length_cons]
      omega

/-- A small mbuf after its data were moved has room for `len` bytes. -/
theorem realign_ok (w : ℕ) (h : n.Ok) (hcl : n.cl = none) (hl : len ≤ MLEN) :
    (realign w n len).Holds n.bytes ∧ (realign w n len).cl = none ∧
      (realign w n len).off + len ≤ MLEN := by
  have hs := Mbuf.sid_of_small hcl
  have h1 := h.bytes_length
  have h2 := h.fits
  have h3 := h.small hcl
  unfold realign
  split_ifs with h4
  · have heq : ({ n with dat := n.rd 0 n.len ++ n.dat.drop n.len.toNat, off := 0 } : Mbuf B) =
        n.fill n.bytes := by
      have h5 : n.len.toNat = n.bytes.length := by omega
      unfold Mbuf.fill
      rw [Mbuf.rd_all hs, h5, h1]
    rw [heq]
    refine ⟨Mbuf.fill_holds hs (by omega) (by have := h.short; omega) h.small, hcl, ?_⟩
    show ((0 : ℕ) : ℤ) + len ≤ MLEN
    omega
  · exact ⟨h.holds, hcl, by omega⟩

/-- The mbuf that the loop has filled, the chain that is left, and `len`. -/
theorem pulled_ok {len len' : ℤ} {m' : Mbuf B} {c' : List (Mbuf B)} {freed : ℕ} {bs : List B}
    (h2 : m'.Holds bs) (h3 : OkChain c') (h4 : len' = len - bs.length) (h5 : 0 < len' → c' = []) :
    (pulled m' c' len' freed = .null (freed + 1) ∧ (bs ++ bytes c').length < len) ∨
      (pulled m' c' len' freed = .chain (m' :: c') ∧ len ≤ m'.len ∧ OkChain (m' :: c')) := by
  have h6 := h2.2.2
  unfold pulled
  split_ifs with h7
  · obtain rfl := h5 h7
    refine .inl ⟨by simp, ?_⟩
    rw [bytes_nil, append_nil]
    omega
  · exact .inr ⟨rfl, by omega, okChain_cons.2 ⟨h2.1, h3⟩⟩

section Pullup

variable [Inhabited B] {mem : List Bool}

/-- `m_pullup` gives a null pointer when no mbuf is to be had or the chain is too short, and frees
the mbufs; otherwise the bytes are the same and the first mbuf has `len` of them. -/
theorem mPullup_cases (w : ℕ) {len : ℤ} (hc : OkChain (n :: c)) (hk : KernelData (n :: c))
    (h0 : 0 ≤ len) (hl : len ≤ MLEN) (hone : len ≤ (bytes (n :: c)).length ∨ n.hascl ∨ c ≠ []) :
    (mPullup w (n :: c) len mem = some (.null (c.length + 1)) ∧ n.hascl ∧ ¬ Plenty 1 mem) ∨
      ((n.hascl = true → ∃ mem', malloc mem = .ok mem') ∧
        (((bytes (n :: c)).length < len ∧ mPullup w (n :: c) len mem =
            some (.null (c.length + 1 + if n.hascl then 1 else 0))) ∨
          ∃ m r, mPullup w (n :: c) len mem = some (.chain (m :: r)) ∧ m.cl = none ∧ len ≤ m.len ∧
            OkChain (m :: r) ∧ bytes (m :: r) = bytes (n :: c))) := by
  obtain ⟨h1, h2⟩ := okChain_cons.1 hc
  obtain ⟨h3, h4⟩ := kernelData_cons.1 hk
  unfold mPullup
  dsimp only
  rw [if_neg (by omega)]
  by_cases hcl : n.hascl = true
  · rw [if_pos hcl]
    cases hmem : malloc mem with
    | error e =>
      exact .inl ⟨rfl, hcl, (malloc_error hmem).2⟩
    | ok mem' =>
      refine .inr ⟨fun _ => ⟨mem', rfl⟩, ?_⟩
      obtain ⟨m', c', len', freed, bs, h5, h6, h7, h8, h9, h10, h11, h12⟩ :=
        pullupLoop_ok (m := smallMbuf) (@small_fill_holds B _ [] (Nat.zero_le _)) rfl
          (Int.zero_add _) (by rwa [length_nil, Nat.cast_zero, zero_add]) h0 hc hk
      rw [nil_append] at h7
      rw [if_pos hcl]
      dsimp only
      rw [h5]
      rcases pulled_ok h7 h9 h10 h12 with ⟨h13, h14⟩ | ⟨h13, h14, h15⟩
      · refine .inl ⟨by rwa [h8] at h14, congrArg some (h13.trans ?_)⟩
        obtain rfl := h12 (by
          rw [h8] at h14
          have h15 := congrArg List.length h8
          rw [length_append] at h15
          omega)
        obtain rfl : freed = c.length + 1 := h11
        rfl
      · refine .inr ⟨m', c', congrArg some h13, h6, h14, h15, ?_⟩
        rw [bytes_cons, h7.2.1, h8]
  · rw [if_neg hcl]
    have hcl' : n.cl = none := by
      unfold Mbuf.hascl at hcl
      simpa using hcl
    obtain ⟨h5, h6, h7⟩ := realign_ok w h1 hcl' hl
    have h8 := h1.bytes_length
    have h9 := h5.2.2
    refine .inr ⟨fun h => absurd h hcl, ?_⟩
    rw [if_neg hcl]
    split_ifs with h10 h11
    · obtain rfl := isEmpty_iff.1 h10
      rw [bytes_cons, bytes_nil, append_nil] at hone ⊢
      refine .inr ⟨_, _, rfl, h6, ?_, okChain_cons.2 ⟨h5.1, nofun⟩, ?_⟩
      · rcases hone with hone | hone | hone
        · omega
        · exact absurd hone hcl
        · exact absurd rfl hone
      · rw [bytes_cons, h5.2.1, bytes_nil, append_nil]
    · refine .inr ⟨_, _, rfl, h6, by omega, okChain_cons.2 ⟨h5.1, h2⟩, ?_⟩
      rw [bytes_cons, h5.2.1, bytes_cons]
    · obtain ⟨m', c', len', freed, bs, h12, h13, h14, h15, h16, h17, h18, h19⟩ :=
        @pullupLoop_ok B _ _ _ (MLEN - (realign w n len).off) (len - (realign w n len).len)
          h5 h6 (by omega) (by omega) (by omega) h2 h4
      rw [h12]
      have hlen' : len' = len - (n.bytes ++ bs).length := by
        rw [length_append]
        omega
      rcases pulled_ok h14 h16 hlen' h19 with ⟨h20, h21⟩ | ⟨h20, h21, h22⟩
      · rw [append_assoc, h15] at h21
        refine .inl ⟨by rwa [bytes_cons], congrArg some (h20.trans ?_)⟩
        obtain rfl := h19 (by
          have h22 := congrArg List.length h15
          rw [length_append] at h21 h22
          omega)
        obtain rfl : freed = c.length := h18
        rfl
      · refine .inr ⟨m', c', congrArg some h20, h13, h21, h22, ?_⟩
        rw [bytes_cons, h14.2.1, append_assoc, h15, bytes_cons]

end Pullup

/-! ### `m_frag` -/

/-- `m_frag` cuts a cluster of DUX in two: the boundary lies within the cluster, and the chain is not
cut in front of it instead. -/
def CutsDux (c : List (Mbuf B)) (residp maxresid : ℤ) (mask : ℕ) : Prop :=
  ∃ before m after, c = before ++ m :: after ∧
    (∃ sid clsize, m.cl = some { cltype := ClType.dux sid, clsize := clsize }) ∧
    count before < residp ∧ residp < count before + m.len ∧
    ¬ (residp - count before ≤ maxresid ∧ (residp - count before).toNat &&& mask = 0 ∧ before ≠ [])

section Frag

variable [Inhabited B] {mem : List Bool} {resid maxresid : ℤ} {mask : ℕ}

/-- The two parts of an mbuf that is cut. -/
theorem fragMbuf_ok (hm : m.Ok) (h0 : 0 ≤ resid) (hl : resid ≤ m.len)
    (hd : ¬ ∃ sid clsize, m.cl = some { cltype := ClType.dux sid, clsize := clsize }) :
    ∃ n, fragMbuf { m with len := resid } resid (m.len - resid) mem = .ok n ∧ n.Ok ∧
      m.bytes.take resid.toNat ++ n.bytes = m.bytes := by
  have h1 := hm.bytes_length
  have h2 := hm.fits
  have hrd : m.sid = none → m.bytes.take resid.toNat ++ m.rd resid (m.len - resid) = m.bytes := by
    intro hs
    have h3 : (m.bytes.drop resid.toNat).take (m.len - resid).toNat = m.bytes.drop resid.toNat :=
      take_of_length_le (by rw [length_drop]; omega)
    rw [Mbuf.rd_eq hs h0 (by omega), h3, take_append_drop]
  unfold fragMbuf
  dsimp only
  split
  · next hcl =>
    have h3 := hm.small hcl
    obtain ⟨h4, h5, -⟩ := @small_fill_holds B _ (m.rd resid (m.len - resid)) (by
      simp only [Mbuf.rd, length_take, length_drop]
      omega)
    exact ⟨_, rfl, h4,
      (congrArg (m.bytes.take resid.toNat ++ ·) h5).trans (hrd (Mbuf.sid_of_small hcl))⟩
  · next hcl => exact absurd ⟨_, _, hcl⟩ hd
  · next k hdux hcl =>
    have hs := Mbuf.sid_of_not_dux hcl hdux
    obtain ⟨h4, h5, -⟩ := hm.share_holds hs h0 (k := m.len - resid) (by omega) (by omega)
    exact ⟨_, rfl, h4, (congrArg (m.bytes.take resid.toNat ++ ·) h5).trans (hrd hs)⟩

/-- The scan of `m_frag`, which has passed some mbufs. -/
theorem fragScan_cases {before : List (Mbuf B)} (hb : OkChain before) (hc : OkChain c)
    (h0 : 0 ≤ resid) (hd : ¬ CutsDux (before ++ c) (resid + count before) maxresid mask) :
    (∃ front rest resid', fragScan maxresid mask mem before c resid = .ok (.cut front rest resid') ∧
        OkChain front ∧ OkChain rest ∧ bytes front ++ bytes rest = bytes (before ++ c) ∧
        (bytes front).length + resid' = (bytes before).length + resid ∧ 0 ≤ resid') ∨
      (fragScan maxresid mask mem before c resid = .ok (.error (before ++ c)) ∧ ¬ Plenty 1 mem) := by
  induction c generalizing before resid with
  | nil => exact .inl ⟨before, [], resid, rfl, hb, nofun, by simp, rfl, h0⟩
  | cons m c ih =>
    obtain ⟨h1, h2⟩ := okChain_cons.1 hc
    have h3 := h1.bytes_length
    unfold fragScan
    split_ifs with h4 h5 h6
    · have hb' : OkChain (before ++ [m]) := okChain_append.2 ⟨hb, okChain_cons.2 ⟨h1, nofun⟩⟩
      have hsum : resid - m.len + count (before ++ [m]) = resid + count before := by
        unfold count
        simp
      have h7 := ih hb' h2 (show 0 ≤ resid - m.len by omega)
        (by rwa [append_assoc, singleton_append, hsum])
      rw [append_assoc, singleton_append] at h7
      refine h7.imp ?_ id
      rintro ⟨front, rest, resid', h8, h9, h10, h11, h12, h13⟩
      refine ⟨front, rest, resid', h8, h9, h10, h11, ?_, h13⟩
      rw [h12, bytes_append, length_append, bytes_cons, bytes_nil, append_nil]
      omega
    · exact .inl ⟨before, m :: c, 0, rfl, hb, hc, (bytes_append).symm, by omega, le_refl 0⟩
    · exact .inl ⟨before, m :: c, resid, rfl, hb, hc, (bytes_append).symm, rfl, h0⟩
    · cases hmem : malloc mem with
      | error e => exact .inr ⟨rfl, (malloc_error hmem).2⟩
      | ok mem' =>
        left
        have hdm : ¬ ∃ sid clsize, m.cl = some { cltype := ClType.dux sid, clsize := clsize } := fun h7 =>
          hd ⟨before, m, c, rfl, h7, by omega, by omega, by rwa [add_sub_cancel_right]⟩
        obtain ⟨n, h7, h8, h9⟩ := @fragMbuf_ok B m _ mem' resid h1 h0 (by omega) hdm
        obtain ⟨h10, h11⟩ := h1.trunc h0 (by omega)
        refine ⟨before ++ [{ m with len := resid }], n :: c, 0, ?_, ?_, okChain_cons.2 ⟨h8, h2⟩, ?_, ?_,
          le_refl 0⟩
        · dsimp only
          rw [h7]
        · exact okChain_append.2 ⟨hb, okChain_cons.2 ⟨h10, nofun⟩⟩
        · simp only [bytes_append, bytes_cons, bytes_nil, h11, append_nil, append_assoc]
          rw [← append_assoc _ n.bytes, h9]
        · simp only [bytes_append, bytes_cons, bytes_nil, h11, append_nil, length_append,
            length_take]
          omega

/-- `m_frag` panics when its numbers are out of range; otherwise it cuts the chain, or leaves it as
it was for want of memory. -/
theorem mFrag_cases (hc : OkChain c) (h0 : 0 < resid) (hd : ¬ CutsDux c resid maxresid mask) :
    (mFrag c resid maxresid mask mem = .error .panic ∧ (maxresid < 0 ∨ resid ≤ maxresid)) ∨
      (∃ front rest resid', mFrag c resid maxresid mask mem = .ok (.cut front rest resid') ∧
        OkChain front ∧ OkChain rest ∧ bytes front ++ bytes rest = bytes c ∧
        (bytes front).length + resid' = resid ∧ 0 ≤ resid') ∨
      (mFrag c resid maxresid mask mem = .ok (.error c) ∧ ¬ Plenty 1 mem) := by
  unfold mFrag
  rw [if_neg (by omega)]
  split_ifs with h1
  · exact .inl ⟨rfl, by omega⟩
  · right
    have h2 := @fragScan_cases B c _ mem resid maxresid mask [] nofun hc h0.le
      (by rwa [show count ([] : List (Mbuf B)) = 0 from rfl, add_zero])
    simpa using h2

end Frag

/-! ### All routines -/

section Main

variable [Inhabited B]

/-- The routines do to the bytes of a chain what their names say.  Left out are a chain trimmed at its
tail by more than it holds, a chain of one small mbuf that is to be pulled up beyond its bytes, and a
cluster of DUX that is cut; `m_copy_nfs_loopback` can fail because of an empty mbuf too. -/
theorem mbuf_bytes (w : ℕ) (hc : OkChain c) (hd : OkChain d) :
    (∀ off len mem, len ≤ M_COPYALL ∨ (bytes c).length ≤ M_COPYALL →
      (mCopy c off len mem = .error .panic ∨
        (mCopy c off len mem = .error .nobufs ∧ ¬ Plenty (2 * c.length) mem) ∨
        ∃ r, mCopy c off len mem = .ok r ∧ OkChain r ∧ bytes r = slice (bytes c) off len) ∧
      ((∀ m ∈ c, ¬ m.BigDux) → 0 ≤ off → off ≤ (bytes c).length →
        len = M_COPYALL ∨ (0 ≤ len ∧ off + len ≤ (bytes c).length) →
        mCopy c off len mem ≠ .error .panic)) ∧
    (KernelData c → ∀ off len,
      (mCopydata c off len = .error .panic ∨
        mCopydata c off len = .ok (((bytes c).drop off.toNat).take len.toNat)) ∧
      (0 ≤ off → 0 ≤ len → off + len ≤ (bytes c).length → mCopydata c off len ≠ .error .panic)) ∧
    (c ≠ [] → KernelData d →
      ∃ r, mCat c d = .ok r ∧ OkChain r ∧ bytes r = bytes c ++ bytes d) ∧
    (KernelData c → ∀ len : ℤ, 0 ≤ len →
      OkChain (mAdj c len) ∧ bytes (mAdj c len) = (bytes c).drop len.toNat) ∧
    (∀ len : ℤ, len < 0 → -len ≤ (bytes c).length ∨ c = [] →
      OkChain (mAdj c len) ∧
        bytes (mAdj c len) = (bytes c).take ((bytes c).length + len).toNat) ∧
    (KernelData c → ∀ n c', c = n :: c' → ∀ (len : ℤ) (mem : List Bool), 0 ≤ len → len ≤ MLEN →
      len ≤ (bytes c).length ∨ n.hascl ∨ c' ≠ [] →
      (mPullup w c len mem = some (.null c.length) ∧ n.hascl ∧ ¬ Plenty 1 mem) ∨
        ((n.hascl = true → ∃ mem', malloc mem = .ok mem') ∧
          (((bytes c).length < len ∧
              mPullup w c len mem = some (.null (c.length + if n.hascl then 1 else 0))) ∨
            ∃ m r, mPullup w c len mem = some (.chain (m :: r)) ∧ m.cl = none ∧ len ≤ m.len ∧
              OkChain (m :: r) ∧ bytes (m :: r) = bytes c))) ∧
    (∀ resid maxresid mask mem, 0 < resid → ¬ CutsDux c resid maxresid mask →
      (mFrag c resid maxresid mask mem = .error .panic ∧ (maxresid < 0 ∨ resid ≤ maxresid)) ∨
        (∃ front rest resid', mFrag c resid maxresid mask mem = .ok (.cut front rest resid') ∧
          OkChain front ∧ OkChain rest ∧ bytes front ++ bytes rest = bytes c ∧
          (bytes front).length + resid' = resid ∧ 0 ≤ resid') ∨
        (mFrag c resid maxresid mask mem = .ok (.error c) ∧ ¬ Plenty 1 mem)) ∧
    (∀ (t : List (List (Mbuf B))) (mem : List Bool), (∀ e ∈ t, OkChain e) →
      (∀ e ∈ t, KernelData e) →
      (mCopyNfsLoopback t mem = .error .nobufs ∧ ¬ Plenty (2 * (t.flatMap bytes).length) mem) ∨
        (∃ mem', mCopyNfsLoopback t mem = .ok (none, mem') ∧ ∃ e ∈ t, ∃ m ∈ e, m.len = 0) ∨
        ∃ r mem', mCopyNfsLoopback t mem = .ok (some r, mem') ∧ (∀ e ∈ r, OkChain e) ∧
          r.map bytes = t.map bytes) := by
  refine ⟨fun off len mem h => ⟨mCopy_cases hc h, fun h1 h2 h3 h4 => mCopy_ne_panic hc h1 h2 h3 h4⟩,
    fun hk off len => ⟨mCopydata_cases hc hk, mCopydata_ne_panic hc hk⟩,
    fun h0 hk => mCat_ok hc hd hk h0, fun hk len h0 => mAdj_front hc hk h0,
    fun len h0 hl => mAdj_tail hc h0 hl, ?_,
    fun resid maxresid mask mem h0 hx => mFrag_cases hc h0 hx,
    fun t mem h1 h2 => loopback_cases h1 h2⟩
  rintro hk n c' rfl len mem h0 hl hone
  exact mPullup_cases w hc hk h0 hl hone

end Main

/-- An mbuf with three bytes is trimmed at both ends. -/
theorem mbuf_bytes_trim :
    bytes (mAdj [(smallMbuf : Mbuf ℕ).fill [1, 2, 3]] 1) = [2, 3] ∧
      bytes (mAdj [(smallMbuf : Mbuf ℕ).fill [1, 2, 3]] (-1)) = [1, 2] := by
  have h1 : OkChain [(smallMbuf : Mbuf ℕ).fill [1, 2, 3]] :=
    okChain_cons.2 ⟨(small_fill_holds (by decide)).1, nofun⟩
  have h2 : bytes [(smallMbuf : Mbuf ℕ).fill [1, 2, 3]] = [1, 2, 3] := by
    rw [bytes_cons, (small_fill_holds (by decide)).2.1, bytes_nil, List.append_nil]
  obtain ⟨-, -, -, h3, h4, -⟩ := mbuf_bytes 3 h1 h1
  have hk : KernelData [(smallMbuf : Mbuf ℕ).fill [1, 2, 3]] := kernelData_cons.2 ⟨rfl, nofun⟩
  rw [(h3 hk 1 (by decide)).2, (h4 (-1) (by decide) (by rw [h2]; decide)).2, h2]
  exact ⟨rfl, rfl⟩

/-- A cluster of DUX with two bytes. -/
def duxMbuf (sid : Option (List ℕ × ℕ)) : Mbuf ℕ where
  cl := some { cltype := .dux sid, clsize := 2 }
  dat := [1, 2]
  off := 0
  len := 2

/-- Where the routines go wrong: a chain of one small mbuf is pulled up beyond its bytes, and one is
not pulled up beyond `MLEN`; a trim at the tail leaves a negative length; `m_frag` loses the bytes of
a cluster of DUX, also when it fails, and does not split when it is asked for nothing; an empty mbuf
makes `m_copy_nfs_loopback` fail; `m_copydata` reads a cluster of DUX in the wrong address space. -/
theorem mbuf_bytes_fail :
    mPullup 3 [(smallMbuf : Mbuf ℕ).fill [1]] 2 [] =
        some (.chain [(smallMbuf : Mbuf ℕ).fill [1]]) ∧
      mPullup 3 [(normalMbuf : Mbuf ℕ)] 225 [true] = some (.null 1) ∧
      (mAdj [(smallMbuf : Mbuf ℕ).fill [1]] (-2)).map Mbuf.len = [-1] ∧
      (∃ front rest, mFrag [duxMbuf none] 1 0 0 [true, true] = .ok (.cut front rest 0) ∧
        bytes front ++ bytes rest = [1]) ∧
      (∃ c, mFrag [duxMbuf none] 1 0 0 [true] = .ok (.error c) ∧ bytes c = [1]) ∧
      mFrag [duxMbuf none] 0 0 0 [] = .ok (.cut [duxMbuf none] [duxMbuf none] 0) ∧
      (∃ mem, mCopyNfsLoopback [[(smallMbuf : Mbuf ℕ)]] [true, true] = .ok (none, mem)) ∧
      (mCopydata [duxMbuf (some ([3, 4], 0))] 0 2 = .ok [1, 2] ∧
        bytes [duxMbuf (some ([3, 4], 0))] = [3, 4]) := by
  refine ⟨rfl, rfl, rfl, ⟨_, _, rfl, rfl⟩, ⟨_, rfl, rfl⟩, rfl, ⟨[true, true], ?_⟩, rfl, rfl⟩
  simp [mCopyNfsLoopback, copyChainNfs, mbufcopyNfs, copyNfsLoop, smallMbuf]
  rfl

end Hpux.Net
