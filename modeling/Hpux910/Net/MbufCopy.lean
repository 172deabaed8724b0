import Hpux910.Net.MbufBytes

/-!
# Copies of an mbuf chain

`m_copy` and `m_copydata` give a slice of a chain's bytes, and `m_copy_nfs_loopback` copies of whole
chains.  A routine that ends without a result has found no memory, or its arguments are out of range.

* `Plenty` : so many allocations succeed.
* `mCopy_cases`, `mCopy_ne_panic` : `m_copy`.
* `mCopydata_cases`, `mCopydata_ne_panic` : `m_copydata`.
* `loopback_cases` : `m_copy_nfs_loopback`.
-/

namespace Hpux.Net

open List

variable {B : Type} {m n : Mbuf B} {c d : List (Mbuf B)}

/-! ### Memory -/

/-- So many allocations succeed. -/
def Plenty (k : ℕ) (mem : List Bool) : Prop := (∀ b ∈ mem, b = true) ∧ k ≤ mem.length

theorem bind_ok {α β : Type} {x : Except Stop α} {f : α → Except Stop β} {b : β} :
    (x >>= f) = .ok b ↔ ∃ a, x = .ok a ∧ f a = .ok b := by
  cases x with
  | error e => exact ⟨nofun, fun ⟨a, h, _⟩ => nomatch h⟩
  | ok a => exact ⟨fun h => ⟨a, rfl, h⟩, fun ⟨a', h, h'⟩ => Except.ok.inj h ▸ h'⟩

theorem bind_error {α β : Type} {x : Except Stop α} {f : α → Except Stop β} {e : Stop} :
    (x >>= f) = .error e ↔ x = .error e ∨ ∃ a, x = .ok a ∧ f a = .error e := by
  cases x with
  | error e' =>
    refine ⟨fun h => .inl (by rw [Except.error.inj h]), ?_⟩
    rintro (h | ⟨a, h, -⟩)
    · rw [Except.error.inj h]
      rfl
    · cases h
  | ok a =>
    refine ⟨fun h => .inr ⟨a, rfl, h⟩, ?_⟩
    rintro (h | ⟨a', h, h'⟩)
    · cases h
    · exact Except.ok.inj h ▸ h'

theorem malloc_ok {mem mem' : List Bool} (h : malloc mem = .ok mem') : mem = true :: mem' := by
  unfold malloc at h
  split at h
  · rw [Except.ok.inj h]
  · cases h

theorem malloc_error {mem : List Bool} {e : Stop} (h : malloc mem = .error e) :
    e = .nobufs ∧ ¬ Plenty 1 mem := by
  unfold malloc at h
  split at h
  · cases h
  · rename_i hm
    refine ⟨(Except.error.inj h).symm, fun hp => ?_⟩
    obtain ⟨h1, h2⟩ := hp
    cases mem with
    | nil => cases h2
    | cons b mem =>
      obtain rfl : b = true := h1 b mem_cons_self
      exact hm mem rfl

theorem Plenty.tail {k : ℕ} {b : Bool} {mem : List Bool} (h : Plenty (k + 1) (b :: mem)) :
    Plenty k mem :=
  ⟨fun b hb => h.1 b (mem_cons_of_mem _ hb), Nat.le_of_succ_le_succ h.2⟩

theorem Plenty.mono {k j : ℕ} {mem : List Bool} (h : Plenty k mem) (hj : j ≤ k) : Plenty j mem :=
  ⟨h.1, hj.trans h.2⟩

/-! ### Slices -/

/-- What `m_copy` is asked for: `len` bytes from `off` on, or all of them. -/
def slice (bs : List B) (off len : ℤ) : List B :=
  if len = M_COPYALL then bs.drop off.toNat else (bs.drop off.toNat).take len.toNat

theorem toNat_sub_min {len off : ℤ} {n : ℕ} (ho : 0 ≤ off) (hl : off ≤ n) (h0 : 0 < len) :
    (len - min len (n - off)).toNat = len.toNat - (n - off.toNat) := by
  rcases le_total len (n - off) with h | h
  · rw [min_eq_left h]
    omega
  · rw [min_eq_right h]
    omega

/-- A slice begins with what one mbuf has of it. -/
theorem slice_append {as bs : List B} {off len : ℤ} (ho : 0 ≤ off) (hl : off ≤ as.length)
    (h0 : 0 < len) (hs : as.length < 32768) (hall : len ≤ M_COPYALL ∨ bs.length ≤ M_COPYALL) :
    (as.drop off.toNat).take (min len (as.length - off)).toNat ++
        slice bs 0 (if len ≠ M_COPYALL then len - min len (as.length - off) else len) =
      slice (as ++ bs) off len := by
  have hlen : (as.drop off.toNat).length = as.length - off.toNat := length_drop
  have hdrop : (as ++ bs).drop off.toNat = as.drop off.toNat ++ bs :=
    drop_append_of_le_length (by omega)
  unfold slice
  rw [hdrop]
  by_cases hA : len = M_COPYALL
  · rw [if_neg (not_not_intro hA), if_pos hA, if_pos hA, Int.toNat_zero, drop_zero,
      take_of_length_le]
    unfold M_COPYALL at hA
    omega
  · rw [if_pos hA, if_neg hA, take_append, hlen]
    congr 1
    · by_cases h1 : len ≤ as.length - off
      · rw [min_eq_left h1]
      · rw [take_of_length_le (by omega), take_of_length_le (by omega)]
    · rw [Int.toNat_zero, drop_zero]
      have h2 := toNat_sub_min ho hl h0
      split_ifs with h3
      · -- the length left happens to be the one for all
        rw [take_of_length_le]
        omega
      · rw [h2]

section Copy

variable [Inhabited B] {off len : ℤ} {mem mem' : List Bool}

/-! ### Copies of an mbuf -/

theorem small_fill_holds {bs : List B} (h : bs.length ≤ MLEN) :
    ((smallMbuf : Mbuf B).fill bs).Holds bs :=
  Mbuf.fill_holds rfl (by simpa [smallMbuf] using h) (by unfold MLEN at h; omega)
    fun _ => length_replicate

theorem normal_fill_holds {bs : List B} (h : bs.length ≤ MCLBYTES) :
    ((normalMbuf : Mbuf B).fill bs).Holds bs :=
  Mbuf.fill_holds rfl (by simpa [normalMbuf] using h) (by unfold MCLBYTES at h; omega) nofun

theorem mclcopyDux_ok (hm : m.Ok) (ho : 0 ≤ off) (hl : off ≤ m.len)
    (h : mclcopyDux m off len mem = .ok (n, mem')) :
    n.Holds ((m.bytes.drop off.toNat).take (min len (m.len - off)).toNat) ∧ mem = true :: mem' := by
  unfold mclcopyDux at h
  obtain ⟨mem1, h1, h2⟩ := bind_ok.1 h
  dsimp only at h2
  have h3 := hm.bytes_length
  split_ifs at h2 with h4
  · cases h2
  · have hlen : ((m.bytes.drop off.toNat).take (min len (m.len - off)).toNat).length ≤ MCLBYTES := by
      rw [length_take]
      omega
    cases hs : m.sid with
    | none =>
      rw [hs] at h2
      obtain ⟨rfl, rfl⟩ := Prod.mk.inj (Except.ok.inj h2)
      refine ⟨?_, malloc_ok h1⟩
      rw [Mbuf.rd_eq hs ho (by omega)]
      exact normal_fill_holds hlen
    | some x =>
      obtain ⟨d, o⟩ := x
      rw [hs] at h2
      obtain ⟨rfl, rfl⟩ := Prod.mk.inj (Except.ok.inj h2)
      refine ⟨?_, malloc_ok h1⟩
      have h5 : (m.bytes.drop off.toNat).take (min len (m.len - off)).toNat =
          (d.drop (o + off.toNat)).take (min len (m.len - off)).toNat := by
        unfold Mbuf.bytes
        rw [hs]
        simp only [drop_take, drop_drop, take_take]
        congr 1
        omega
      rw [← h5]
      exact normal_fill_holds hlen

/-- The new mbuf of `m_copy` holds a slice of the bytes of the one copied. -/
theorem copyMbuf_ok (hm : m.Ok) (ho : 0 ≤ off) (hl : off ≤ m.len) (h0 : 0 ≤ len)
    (h : copyMbuf m off len mem = .ok (n, mem')) :
    n.Holds ((m.bytes.drop off.toNat).take (min len (m.len - off)).toNat) ∧
      (mem = mem' ∨ mem = true :: mem') := by
  have h3 := hm.bytes_length
  have hrd : m.sid = none → m.rd off (min len (m.len - off)) =
      (m.bytes.drop off.toNat).take (min len (m.len - off)).toNat := fun hs =>
    Mbuf.rd_eq hs ho (by omega)
  have hfits := hm.fits
  unfold copyMbuf at h
  dsimp only at h
  split at h
  · next hcl =>
    obtain ⟨rfl, rfl⟩ := Prod.mk.inj (Except.ok.inj h)
    refine ⟨?_, .inl rfl⟩
    rw [hrd (Mbuf.sid_of_small hcl)]
    refine small_fill_holds ?_
    have h4 := hm.small hcl
    rw [length_take]
    omega
  · obtain ⟨h4, h5⟩ := mclcopyDux_ok hm ho hl h
    exact ⟨h4, .inr h5⟩
  · next k hdux hcl =>
    obtain ⟨rfl, rfl⟩ := Prod.mk.inj (Except.ok.inj h)
    refine ⟨?_, .inl rfl⟩
    have hs := Mbuf.sid_of_not_dux hcl hdux
    rw [← hrd hs]
    exact hm.share_holds hs ho (by omega) (by omega)

/-! ### `m_copy` and `m_copydata` -/

omit [Inhabited B] in
theorem skipOff_ok {c' : List (Mbuf B)} {off' : ℤ} (hc : OkChain c) (ho : 0 ≤ off)
    (h : skipOff c off = .ok (c', off')) :
    c' <:+ c ∧ (0 ≤ off' ∧ off' ≤ (bytes c').length) ∧ (∀ m ∈ c'.head?, off' ≤ m.len) ∧
      (bytes c').drop off'.toNat = (bytes c).drop off.toNat := by
  induction c generalizing off with
  | nil =>
    unfold skipOff at h
    split_ifs at h with h1
    obtain ⟨rfl, rfl⟩ := Prod.mk.inj (Except.ok.inj h)
    exact ⟨suffix_refl _, ⟨ho, by omega⟩, nofun, rfl⟩
  | cons m c ih =>
    obtain ⟨h1, h2⟩ := okChain_cons.1 hc
    have h3 := h1.bytes_length
    have hlen : (bytes (m :: c)).length = m.bytes.length + (bytes c).length := by
      rw [bytes_cons, length_append]
    unfold skipOff at h
    split_ifs at h with h5 h6
    · obtain ⟨rfl, rfl⟩ := Prod.mk.inj (Except.ok.inj h)
      refine ⟨suffix_refl _, ⟨ho, by rw [hlen]; omega⟩, fun m' hm' => ?_, rfl⟩
      obtain rfl := Option.some.inj hm'
      exact h6.le
    · obtain ⟨h7, h8, h9, h10⟩ := ih h2 (by omega) h
      refine ⟨h7.trans (suffix_cons m c), h8, h9, ?_⟩
      have h11 : m.bytes.drop off.toNat = [] := drop_eq_nil_of_le (by omega)
      rw [h10, bytes_cons, drop_append, h11, nil_append]
      congr 1
      omega
    · obtain ⟨rfl, rfl⟩ := Prod.mk.inj (Except.ok.inj h)
      refine ⟨suffix_refl _, ⟨ho, by rw [hlen]; omega⟩, fun m' hm' => ?_, rfl⟩
      obtain rfl := Option.some.inj hm'
      omega

omit [Inhabited B] in
theorem skipOff_error {e : Stop} (hc : OkChain c) (h : skipOff c off = .error e) :
    e = .panic ∧ ((bytes c).length : ℤ) < off := by
  induction c generalizing off with
  | nil =>
    unfold skipOff at h
    split_ifs at h with h1
    exact ⟨(Except.error.inj h).symm, h1⟩
  | cons m c ih =>
    obtain ⟨h1, h2⟩ := okChain_cons.1 hc
    have h3 := h1.bytes_length
    unfold skipOff at h
    split_ifs at h with h5 h6
    obtain ⟨h7, h8⟩ := ih h2 h
    refine ⟨h7, ?_⟩
    rw [bytes_cons, length_append]
    omega

omit [Inhabited B] in
theorem OkChain.suffix (h : OkChain c) (hd : d <:+ c) : OkChain d := fun m hm => h m (hd.subset hm)

theorem mCopyLoop_ok {r : List (Mbuf B)} (hc : OkChain c) (ho : 0 ≤ off)
    (hl : ∀ m ∈ c.head?, off ≤ m.len) (h0 : 0 ≤ len)
    (hall : len ≤ M_COPYALL ∨ (bytes c).length ≤ M_COPYALL)
    (h : mCopyLoop c off len mem = .ok r) : OkChain r ∧ bytes r = slice (bytes c) off len := by
  induction c generalizing off len mem r with
  | nil =>
    unfold mCopyLoop at h
    split_ifs at h
    obtain rfl := Except.ok.inj h
    refine ⟨nofun, ?_⟩
    simp [slice]
  | cons m c ih =>
    obtain ⟨h1, h2⟩ := okChain_cons.1 hc
    have h3 := h1.bytes_length
    have h4 := hl m rfl
    unfold mCopyLoop at h
    by_cases h5 : 0 < len
    · rw [if_pos h5] at h
      obtain ⟨mem1, -, h⟩ := bind_ok.1 h
      obtain ⟨⟨n, mem2⟩, h6, h⟩ := bind_ok.1 h
      obtain ⟨r', h7, h⟩ := bind_ok.1 h
      obtain rfl := Except.ok.inj h
      obtain ⟨⟨h8, h9, h10⟩, -⟩ := copyMbuf_ok h1 ho h4 h0 h6
      have hn : n.len = min len (m.len - off) := by
        rw [h10, length_take, length_drop]
        omega
      have hall' : len ≤ M_COPYALL ∨ ((bytes c).length : ℤ) ≤ M_COPYALL := by
        rw [bytes_cons, length_append] at hall
        omega
      rw [hn] at h7
      have hmin : (if len ≠ M_COPYALL then len - min len (m.len - off) else len) ≤ len ∧
          0 ≤ (if len ≠ M_COPYALL then len - min len (m.len - off) else len) := by
        split_ifs <;> omega
      have hhead : ∀ m' ∈ c.head?, 0 ≤ m'.len := fun m' hm' =>
        (h2 m' (mem_of_mem_head? hm')).len_nonneg
      obtain ⟨h11, h12⟩ := ih h2 (le_refl 0) hhead hmin.2 (hall'.imp hmin.1.trans id) h7
      refine ⟨okChain_cons.2 ⟨h8, h11⟩, ?_⟩
      rw [bytes_cons, bytes_cons, h9, h12, ← h3]
      exact slice_append ho (by omega) h5 (by have := h1.short; omega) hall'
    · rw [if_neg h5] at h
      obtain rfl := Except.ok.inj h
      refine ⟨nofun, ?_⟩
      obtain rfl : len = 0 := by omega
      simp [slice, M_COPYALL]

theorem mclcopyDux_error {e : Stop} (ho : 0 ≤ off) (hl : off ≤ m.len) (h0 : 0 ≤ len)
    (h : mclcopyDux m off len mem = .error e) :
    (e = .nobufs ∧ ¬ Plenty 1 mem) ∨ (e = .panic ∧ (MCLBYTES : ℤ) < m.len) := by
  unfold mclcopyDux at h
  rcases bind_error.1 h with h | ⟨mem1, -, h⟩
  · exact .inl (malloc_error h)
  · dsimp only at h
    split_ifs at h with h1
    · refine .inr ⟨(Except.error.inj h).symm, ?_⟩
      omega
    · cases hs : m.sid with
      | none =>
        rw [hs] at h
        cases h
      | some x =>
        rw [hs] at h
        cases h

theorem copyMbuf_error {e : Stop} (ho : 0 ≤ off) (hl : off ≤ m.len) (h0 : 0 ≤ len)
    (h : copyMbuf m off len mem = .error e) :
    (e = .nobufs ∧ ¬ Plenty 1 mem) ∨ (e = .panic ∧ m.BigDux) := by
  unfold copyMbuf at h
  dsimp only at h
  split at h
  · cases h
  · next sid clsize hcl =>
    exact (mclcopyDux_error ho hl h0 h).imp id (And.imp_right fun h1 => ⟨⟨sid, clsize, hcl⟩, h1⟩)
  · cases h

theorem mCopyLoop_error {e : Stop} (hc : OkChain c) (ho : 0 ≤ off)
    (hl : ∀ m ∈ c.head?, off ≤ m.len) (h0 : 0 ≤ len) (h : mCopyLoop c off len mem = .error e) :
    (e = .nobufs ∧ ¬ Plenty (2 * c.length) mem) ∨
      (e = .panic ∧ (len ≠ M_COPYALL ∧ (bytes c).length - off < len ∨ ∃ m ∈ c, m.BigDux)) := by
  induction c generalizing off len mem with
  | nil =>
    unfold mCopyLoop at h
    split_ifs at h with h1
    refine .inr ⟨(Except.error.inj h).symm, .inl ⟨h1.2, ?_⟩⟩
    show (0 : ℤ) - off < len
    omega
  | cons m c ih =>
    obtain ⟨h1, h2⟩ := okChain_cons.1 hc
    have h3 := h1.bytes_length
    have h4 := hl m rfl
    unfold mCopyLoop at h
    by_cases h5 : 0 < len
    · rw [if_pos h5] at h
      rcases bind_error.1 h with ha | ⟨mem1, hm1, ha⟩
      · obtain ⟨h6, h7⟩ := malloc_error ha
        exact .inl ⟨h6, fun hp => h7 (hp.mono (by rw [length_cons]; omega))⟩
      obtain rfl := malloc_ok hm1
      rcases bind_error.1 ha with hb | ⟨⟨n, mem2⟩, h6, hb⟩
      · refine (copyMbuf_error ho h4 h0 hb).imp (And.imp_right fun h7 hp => h7 ?_)
          (And.imp_right fun h7 => .inr ⟨m, mem_cons_self, h7⟩)
        exact (Plenty.tail (k := 2 * c.length + 1) hp).mono (by omega)
      · rcases bind_error.1 hb with hd | ⟨r, -, hd⟩
        · obtain ⟨⟨-, -, h10⟩, hmem⟩ := copyMbuf_ok h1 ho h4 h0 h6
          have hn : n.len = min len (m.len - off) := by
            rw [h10, length_take, length_drop]
            omega
          have hhead : ∀ m' ∈ c.head?, 0 ≤ m'.len := fun m' hm' =>
            (h2 m' (mem_of_mem_head? hm')).len_nonneg
          have h0' : 0 ≤ if len ≠ M_COPYALL then len - n.len else len := by
            split_ifs <;> omega
          refine (ih h2 (le_refl 0) hhead h0' hd).imp ?_ ?_
          · refine And.imp_right fun h7 hp => h7 ?_
            have h8 : Plenty (2 * c.length + 1) mem1 := hp.tail
            rcases hmem with rfl | rfl
            · exact h8.mono (by omega)
            · exact h8.tail
          · refine And.imp_right fun h7 => h7.imp ?_ fun ⟨m', hm', hd⟩ =>
              ⟨m', mem_cons_of_mem m hm', hd⟩
            rintro ⟨h8, h9⟩
            rw [bytes_cons, length_append]
            split_ifs at h8 h9 with h11
            · refine ⟨h11, ?_⟩
              omega
            · exact absurd h11 (not_not_intro h8)
        · cases hd
    · rw [if_neg h5] at h
      cases h

theorem mCopy_cases (hc : OkChain c) (hall : len ≤ M_COPYALL ∨ (bytes c).length ≤ M_COPYALL) :
    mCopy c off len mem = .error .panic ∨
      (mCopy c off len mem = .error .nobufs ∧ ¬ Plenty (2 * c.length) mem) ∨
      ∃ r, mCopy c off len mem = .ok r ∧ OkChain r ∧ bytes r = slice (bytes c) off len := by
  unfold mCopy
  split_ifs with h1 h2
  · refine .inr (.inr ⟨[], rfl, nofun, ?_⟩)
    simp [slice, M_COPYALL, h1]
  · exact .inl rfl
  · have ho : 0 ≤ off := by omega
    have h0 : 0 ≤ len := by omega
    cases hs : skipOff c off with
    | error e =>
      obtain ⟨rfl, -⟩ := skipOff_error hc hs
      exact .inl rfl
    | ok x =>
      obtain ⟨c', off'⟩ := x
      obtain ⟨h3, ⟨h4, h4'⟩, h5, h6⟩ := skipOff_ok hc ho hs
      have hc' := hc.suffix h3
      show mCopyLoop c' off' len mem = _ ∨ _
      cases hr : mCopyLoop c' off' len mem with
      | error e =>
        rcases mCopyLoop_error hc' h4 h5 h0 hr with ⟨rfl, h7⟩ | ⟨rfl, -⟩
        · refine .inr (.inl ⟨hr, fun hp => h7 (hp.mono ?_)⟩)
          have h8 := h3.length_le
          omega
        · exact .inl rfl
      | ok r =>
        have hall' : len ≤ M_COPYALL ∨ (bytes c').length ≤ M_COPYALL := by
          refine hall.imp id fun h7 => le_trans ?_ h7
          obtain ⟨e, rfl⟩ := h3
          rw [bytes_append, length_append]
          omega
        obtain ⟨h7, h8⟩ := mCopyLoop_ok hc' h4 h5 h0 hall' hr
        refine .inr (.inr ⟨r, hr, h7, ?_⟩)
        rw [h8]
        unfold slice
        rw [h6]

theorem mCopy_ne_panic (hc : OkChain c) (hd : ∀ m ∈ c, ¬ m.BigDux) (ho : 0 ≤ off)
    (ho' : off ≤ (bytes c).length) (hl : len = M_COPYALL ∨ (0 ≤ len ∧ off + len ≤ (bytes c).length)) :
    mCopy c off len mem ≠ .error .panic := by
  have h0 : 0 ≤ len := by
    unfold M_COPYALL at hl
    omega
  unfold mCopy
  split_ifs with h1 h2
  · exact nofun
  · omega
  · cases hs : skipOff c off with
    | error e =>
      have h3 := (skipOff_error hc hs).2
      omega
    | ok x =>
      obtain ⟨c', off'⟩ := x
      obtain ⟨h3, ⟨h4, h4'⟩, h5, h6⟩ := skipOff_ok hc ho hs
      intro hr
      rcases mCopyLoop_error (hc.suffix h3) h4 h5 h0 hr with ⟨h7, -⟩ | ⟨-, ⟨h7, h8⟩ | ⟨m, h7, h8⟩⟩
      · cases h7
      · have h9 := congrArg List.length h6
        rw [length_drop, length_drop] at h9
        rcases hl with hl | hl
        · exact h7 hl
        · omega
      · exact hd m (h3.subset h7) h8

/-! ### `m_copydata` -/

omit [Inhabited B] in
theorem copydataLoop_cases (hc : OkChain c) (hk : KernelData c) (ho : 0 ≤ off)
    (hl : ∀ m ∈ c.head?, off ≤ m.len) (h0 : 0 ≤ len) :
    (copydataLoop c off len = .error .panic ∧ (bytes c).length - off < len) ∨
      copydataLoop c off len = .ok (((bytes c).drop off.toNat).take len.toNat) := by
  induction c generalizing off len with
  | nil =>
    unfold copydataLoop
    split_ifs with h1
    · refine .inl ⟨rfl, ?_⟩
      show (0 : ℤ) - off < len
      omega
    · exact .inr (by simp)
  | cons m c ih =>
    obtain ⟨h1, h2⟩ := okChain_cons.1 hc
    obtain ⟨hm, hk'⟩ := kernelData_cons.1 hk
    have h3 := h1.bytes_length
    have h4 := hl m rfl
    unfold copydataLoop
    by_cases h5 : 0 < len
    · rw [if_pos h5]
      dsimp only
      have hhead : ∀ m' ∈ c.head?, 0 ≤ m'.len := fun m' hm' =>
        (h2 m' (mem_of_mem_head? hm')).len_nonneg
      have hrd : m.rd off (min (m.len - off) len) =
          (m.bytes.drop off.toNat).take (min (m.len - off) len).toNat := Mbuf.rd_eq hm ho (by omega)
      rcases ih h2 hk' (le_refl 0) hhead
          (show 0 ≤ len - min (m.len - off) len by omega) with
        ⟨h6, h7⟩ | h6
      · refine .inl ⟨?_, ?_⟩
        · rw [h6]
          rfl
        · rw [bytes_cons, length_append]
          omega
      · right
        rw [h6, hrd, bytes_cons, drop_append_of_le_length (by omega), take_append,
          length_drop]
        show Except.ok _ = _
        congr 2
        · rcases le_total (m.len - off) len with h7 | h7
          · rw [min_eq_left h7, take_of_length_le, take_of_length_le] <;>
              rw [length_drop] <;> omega
          · rw [min_eq_right h7]
        · rw [Int.toNat_zero, drop_zero]
          congr 1
          omega
    · rw [if_neg h5]
      obtain rfl : len = 0 := by omega
      exact .inr (by simp)

omit [Inhabited B] in
theorem mCopydata_cases (hc : OkChain c) (hk : KernelData c) : mCopydata c off len = .error .panic ∨
      mCopydata c off len = .ok (((bytes c).drop off.toNat).take len.toNat) := by
  unfold mCopydata
  split_ifs with h1
  · exact .inl rfl
  · have ho : 0 ≤ off := by omega
    cases hs : skipOff c off with
    | error e =>
      obtain ⟨rfl, -⟩ := skipOff_error hc hs
      exact .inl rfl
    | ok x =>
      obtain ⟨c', off'⟩ := x
      obtain ⟨h3, ⟨h4, h4'⟩, h5, h6⟩ := skipOff_ok hc ho hs
      have hk' : KernelData c' := fun m hm => hk m (h3.subset hm)
      show copydataLoop c' off' len = _ ∨ copydataLoop c' off' len = _
      rw [← h6]
      exact (copydataLoop_cases (hc.suffix h3) hk' h4 h5 (by omega)).imp And.left id

omit [Inhabited B] in
theorem mCopydata_ne_panic (hc : OkChain c) (hk : KernelData c) (ho : 0 ≤ off) (h0 : 0 ≤ len)
    (hl : off + len ≤ (bytes c).length) : mCopydata c off len ≠ .error .panic := by
  unfold mCopydata
  rw [if_neg (by omega)]
  cases hs : skipOff c off with
  | error e =>
    have h3 := (skipOff_error hc hs).2
    omega
  | ok x =>
    obtain ⟨c', off'⟩ := x
    obtain ⟨h3, ⟨h4, h4'⟩, h5, h6⟩ := skipOff_ok hc ho hs
    have hk' : KernelData c' := fun m hm => hk m (h3.subset hm)
    intro hr
    rcases copydataLoop_cases (hc.suffix h3) hk' h4 h5 h0 with ⟨-, h7⟩ | h7
    · have h9 := congrArg List.length h6
      rw [length_drop, length_drop] at h9
      omega
    · have h8 : copydataLoop c' off' len = .error .panic := hr
      rw [h8] at h7
      cases h7

/-! ### `m_copy_nfs_loopback` -/

/-- The allocations for one piece of `mbufcopy_nfs`: an mbuf, and a cluster for a large one. -/
theorem piece_alloc (left : ℕ) (mem : List Bool) :
    ((malloc mem >>= fun mem => if MLEN * 2 < left then malloc mem else .ok mem) =
        .error .nobufs ∧ ¬ Plenty 2 mem) ∨
      ∃ mem', (malloc mem >>= fun mem => if MLEN * 2 < left then malloc mem else .ok mem) =
        .ok mem' ∧ ∀ k, Plenty (k + 2) mem → Plenty k mem' := by
  cases hr : malloc mem >>= fun mem => if MLEN * 2 < left then malloc mem else .ok mem with
  | error e =>
    left
    rcases bind_error.1 hr with h | ⟨mem1, h, h'⟩
    · obtain ⟨rfl, h2⟩ := malloc_error h
      exact ⟨rfl, fun hp => h2 (hp.mono (by omega))⟩
    · obtain rfl := malloc_ok h
      split_ifs at h'
      obtain ⟨rfl, h2⟩ := malloc_error h'
      exact ⟨rfl, fun hp => h2 hp.tail⟩
  | ok mem' =>
    right
    refine ⟨mem', rfl, fun k hk => ?_⟩
    obtain ⟨mem1, h, h'⟩ := bind_ok.1 hr
    obtain rfl := malloc_ok h
    have h2 : Plenty (k + 1) mem1 := hk.tail
    split_ifs at h'
    · obtain rfl := malloc_ok h'
      exact h2.tail
    · obtain rfl := Except.ok.inj h'
      exact h2.mono (by omega)

/-- The rounds of `mbufcopy_nfs` from an offset on, which need two allocations for a byte at most. -/
theorem copyNfsLoop_cases (hm : m.Ok) (hs : m.sid = none) {left : ℕ} (ho : 0 ≤ off)
    (hl : off + left = m.len) :
    (copyNfsLoop m left off mem = .error .nobufs ∧ ¬ Plenty (2 * left) mem) ∨
      ∃ r mem', copyNfsLoop m left off mem = .ok (r, mem') ∧ OkChain r ∧
        bytes r = m.bytes.drop off.toNat ∧ (r = [] → left = 0) ∧
        ∀ k, Plenty (k + 2 * left) mem → Plenty k mem' := by
  induction left using Nat.strong_induction_on generalizing off mem with
  | h left ih =>
    have h3 := hm.bytes_length
    by_cases h1 : left = 0
    · subst h1
      rw [copyNfsLoop, dif_pos rfl]
      refine .inr ⟨[], mem, rfl, nofun, ?_, fun _ => rfl, fun k hk => hk⟩
      rw [drop_eq_nil_of_le (by omega)]
      rfl
    · -- the piece copied in this round
      obtain ⟨n, hn, hn0, hnl⟩ : ∃ n, n = (if MLEN * 2 < left then min left MCLBYTES else
          min left MLEN) ∧ 0 < n ∧ n ≤ left := by
        refine ⟨_, rfl, ?_⟩
        unfold MLEN MCLBYTES
        split_ifs <;> omega
      have heq : copyNfsLoop m left off mem =
          (malloc mem >>= fun mem => if MLEN * 2 < left then malloc mem else .ok mem) >>= fun mem =>
            copyNfsLoop m (left - n) (off + n) mem >>= fun r =>
              pure ((if MLEN * 2 < left then normalMbuf.fill (m.rd off n)
                else smallMbuf.fill (m.rd off n)) :: r.1, r.2) := by
        rw [copyNfsLoop, dif_neg h1, hn, bind_assoc]
        refine congrArg _ (funext fun mem1 => ?_)
        split_ifs <;> rfl
      have hrd : m.rd off n = (m.bytes.drop off.toNat).take n := by
        have h4 := Mbuf.rd_eq hs ho (k := n) (by omega)
        rwa [Int.toNat_natCast] at h4
      have hnew : (if MLEN * 2 < left then normalMbuf.fill (m.rd off n)
          else smallMbuf.fill (m.rd off n) : Mbuf B).Holds ((m.bytes.drop off.toNat).take n) := by
        rw [hrd]
        split_ifs at hn ⊢
        · exact normal_fill_holds (by rw [length_take]; omega)
        · exact small_fill_holds (by rw [length_take]; omega)
      rw [heq]
      rcases piece_alloc left mem with ⟨h4, h5⟩ | ⟨mem1, h4, h5⟩
      · rw [h4]
        exact .inl ⟨rfl, fun hp => h5 (hp.mono (by omega))⟩
      · rw [h4]
        rcases @ih (left - n) (by omega) (off + n) mem1 (by omega) (by omega) with
          ⟨h6, h7⟩ | ⟨r, mem', h6, h7, h8, -, h9⟩
        · refine .inl ⟨?_, fun hp => h7 (h5 _ (hp.mono (by omega)))⟩
          show (copyNfsLoop m (left - n) (off + n) mem1 >>= _) = _
          rw [h6]
          rfl
        · right
          refine ⟨_, mem', ?_, okChain_cons.2 ⟨hnew.1, h7⟩, ?_, nofun, fun k hk =>
            h9 k (h5 _ (hk.mono (by omega)))⟩
          · show (copyNfsLoop m (left - n) (off + n) mem1 >>= _) = _
            rw [h6]
            rfl
          · rw [bytes_cons, hnew.2.1, h8, Int.toNat_add_nat ho, ← drop_drop,
              take_append_drop]

theorem mbufcopyNfs_cases (hm : m.Ok) (hs : m.sid = none) :
    (mbufcopyNfs m mem = .error .nobufs ∧ ¬ Plenty (2 * m.bytes.length) mem) ∨
      ∃ r mem', mbufcopyNfs m mem = .ok (r, mem') ∧ OkChain r ∧ bytes r = m.bytes ∧
        (r = [] → m.len = 0) ∧ ∀ k, Plenty (k + 2 * m.bytes.length) mem → Plenty k mem' := by
  have h1 := hm.bytes_length
  have h3 : m.len.toNat = m.bytes.length := by omega
  unfold mbufcopyNfs
  rw [if_neg (by omega), h3]
  rcases @copyNfsLoop_cases B m _ 0 mem hm hs m.bytes.length (le_refl 0) (by omega) with
    h4 | ⟨r, mem', h4, h5, h6, h7, h8⟩
  · exact .inl h4
  · exact .inr ⟨r, mem', h4, h5, h6, fun h => by have := h7 h; omega, h8⟩

/-- A chain is copied, or memory is short, or the chain has an empty mbuf. -/
theorem copyChainNfs_cases (hc : OkChain c) (hk : KernelData c) :
    (copyChainNfs c mem = .error .nobufs ∧ ¬ Plenty (2 * (bytes c).length) mem) ∨
      (∃ mem', copyChainNfs c mem = .ok (none, mem') ∧ ∃ m ∈ c, m.len = 0) ∨
      ∃ r mem', copyChainNfs c mem = .ok (some r, mem') ∧ OkChain r ∧ bytes r = bytes c ∧
        ∀ k, Plenty (k + 2 * (bytes c).length) mem → Plenty k mem' := by
  induction c generalizing mem with
  | nil => exact .inr (.inr ⟨[], mem, rfl, nofun, rfl, fun k hk => hk⟩)
  | cons m c ih =>
    obtain ⟨h1, h2⟩ := okChain_cons.1 hc
    obtain ⟨hm, hk'⟩ := kernelData_cons.1 hk
    have hlen : (bytes (m :: c)).length = m.bytes.length + (bytes c).length := by
      rw [bytes_cons, length_append]
    rcases @mbufcopyNfs_cases B m _ mem h1 hm with ⟨h3, h4⟩ | ⟨r, mem1, h3, h4, h5, h6, h7⟩
    · refine .inl ⟨?_, fun hp => h4 (hp.mono (by omega))⟩
      unfold copyChainNfs
      rw [h3]
      rfl
    · have heq : copyChainNfs (m :: c) mem = if r.isEmpty then .ok (none, mem1) else
          copyChainNfs c mem1 >>= fun x => pure (x.1.map (r ++ ·), x.2) := by
        rw [copyChainNfs, h3]
        cases r <;> rfl
      rw [heq]
      split_ifs with h8
      · exact .inr (.inl ⟨mem1, rfl, m, mem_cons_self, h6 (isEmpty_iff.1 h8)⟩)
      · rcases @ih mem1 h2 hk' with ⟨h9, h10⟩ | ⟨mem2, h9, m', hm', h10⟩ |
            ⟨r', mem2, h9, h10, h11, h12⟩
        · rw [h9]
          exact .inl ⟨rfl, fun hp => h10 (h7 _ (hp.mono (by omega)))⟩
        · rw [h9]
          exact .inr (.inl ⟨mem2, rfl, m', mem_cons_of_mem m hm', h10⟩)
        · rw [h9]
          refine .inr (.inr ⟨r ++ r', mem2, rfl, okChain_append.2 ⟨h4, h10⟩, ?_, fun k hk =>
            h12 k (h7 _ (hk.mono (by omega)))⟩)
          rw [bytes_append, bytes_cons, h5, h11]

/-- `m_copy_nfs_loopback` fails for want of memory, or because of an empty mbuf. -/
theorem loopback_cases {t : List (List (Mbuf B))} (hc : ∀ c ∈ t, OkChain c)
    (hk : ∀ c ∈ t, KernelData c) :
    (mCopyNfsLoopback t mem = .error .nobufs ∧ ¬ Plenty (2 * (t.flatMap bytes).length) mem) ∨
      (∃ mem', mCopyNfsLoopback t mem = .ok (none, mem') ∧ ∃ c ∈ t, ∃ m ∈ c, m.len = 0) ∨
      ∃ r mem', mCopyNfsLoopback t mem = .ok (some r, mem') ∧ (∀ c ∈ r, OkChain c) ∧
        r.map bytes = t.map bytes := by
  induction t generalizing mem with
  | nil => exact .inr (.inr ⟨[], mem, rfl, nofun, rfl⟩)
  | cons c t ih =>
    obtain ⟨h1, h2⟩ := forall_mem_cons.1 hc
    obtain ⟨h3, h4⟩ := forall_mem_cons.1 hk
    have hlen : ((c :: t).flatMap bytes).length = (bytes c).length + (t.flatMap bytes).length := by
      rw [flatMap_cons, length_append]
    rcases @copyChainNfs_cases B c _ mem h1 h3 with ⟨h5, h6⟩ | ⟨mem1, h5, m, hm, h6⟩ |
        ⟨r, mem1, h5, h6, h7, h8⟩
    · refine .inl ⟨?_, fun hp => h6 (hp.mono (by omega))⟩
      rw [mCopyNfsLoopback, h5]
      rfl
    · refine .inr (.inl ⟨mem1, ?_, c, mem_cons_self, m, hm, h6⟩)
      rw [mCopyNfsLoopback, h5]
      rfl
    · have heq : mCopyNfsLoopback (c :: t) mem =
          mCopyNfsLoopback t mem1 >>= fun x => pure (x.1.map (r :: ·), x.2) := by
        rw [mCopyNfsLoopback, h5]
        rfl
      rw [heq]
      rcases @ih mem1 h2 h4 with ⟨h9, h10⟩ | ⟨mem2, h9, c', hc', h10⟩ |
          ⟨r', mem2, h9, h10, h11⟩
      · rw [h9]
        exact .inl ⟨rfl, fun hp => h10 (h8 _ (hp.mono (by omega)))⟩
      · rw [h9]
        exact .inr (.inl ⟨mem2, rfl, c', mem_cons_of_mem c hc', h10⟩)
      · rw [h9]
        refine .inr (.inr ⟨r :: r', mem2, rfl, forall_mem_cons.2 ⟨h6, h10⟩, ?_⟩)
        rw [map_cons, map_cons, h7, h11]

end Copy

end Hpux.Net
