import Mathlib

/-!
# uuencode and uudecode

`encode` (`uuencode.c`) writes a file as lines of printing characters: the number of bytes of the line, then four
characters for each group of three bytes.  `decode` (`uudecode.c`) reads them back.

* `char`, `putc` : characters as operands and as output.
* `ENC`, `DEC` : six bits as a character.
* `fr`, `encode` : the encoder; its buffer keeps the bytes of the line before.
* `fgets`, `decode` : the decoder, up to the line that announces no bytes.
* `decode_encode` : what `decode` makes of the output of `encode`.

A `char` is signed or not, as the machine has it; the parameter `signed` says which.
-/

namespace Hpux

namespace Uucode

open Function List

/-- The value of a `char` as an operand. -/
def char (signed : Bool) (c : UInt8) : BitVec 32 :=
  if signed then c.toBitVec.signExtend 32 else c.toBitVec.setWidth 32

/-- `putc` writes the low byte. -/
def putc (c : BitVec 32) : UInt8 := ⟨c.setWidth 8⟩

/-! ### The encoder -/

/-- `ENC`. -/
def ENC (c : BitVec 32) : BitVec 32 := if c ≠ 0 then (c &&& 0o77) + 32 else 0x60

/-- `fr`: read `cnt` bytes to the places of `buf` from `i` on, or less at the end of the file. -/
def fr : ℕ → ℕ → List UInt8 → (ℕ → UInt8) → ℕ × List UInt8 × (ℕ → UInt8)
  | 0, i, file, buf => (i, file, buf)
  | _ + 1, i, [], buf => (i, [], buf)
  | cnt + 1, i, c :: file, buf => fr cnt (i + 1) file (update buf i c)

/-- `outdec` of `uuencode.c`: the group of three bytes at `p`. -/
def outenc (signed : Bool) (buf : ℕ → UInt8) (p : ℕ) : List UInt8 :=
  let c1 := (char signed (buf p)).sshiftRight 2
  let c2 := (char signed (buf p) <<< 4) &&& 0o60 ||| ((char signed (buf (p + 1))).sshiftRight 4) &&& 0o17
  let c3 := (char signed (buf (p + 1)) <<< 2) &&& 0o74 ||| ((char signed (buf (p + 2))).sshiftRight 6) &&& 0o3
  let c4 := char signed (buf (p + 2)) &&& 0o77
  [putc (ENC c1), putc (ENC c2), putc (ENC c3), putc (ENC c4)]

/-- The groups of a line of `n` bytes, from place `i` on. -/
def groups (signed : Bool) (buf : ℕ → UInt8) (n i : ℕ) : List UInt8 :=
  if i < n then outenc signed buf i ++ groups signed buf n (i + 3) else []
  termination_by n - i

/-- A line without its newline. -/
def line (signed : Bool) (buf : ℕ → UInt8) (n : ℕ) : List UInt8 :=
  putc (ENC (BitVec.ofNat 32 n)) :: groups signed buf n 0

/-- The newline. -/
def newline : UInt8 := 10

theorem fr_below (cnt : ℕ) : ∀ (i : ℕ) (file : List UInt8) (buf : ℕ → UInt8) (k : ℕ), k < i →
    (fr cnt i file buf).2.2 k = buf k := by
  induction cnt with
  | zero => exact fun _ _ _ _ _ => rfl
  | succ cnt ih =>
    intro i file buf k hk
    cases file with
    | nil => rfl
    | cons c file => rw [fr, ih _ _ _ _ (by omega), update_of_ne (by omega)]

/-- `fr` stores the bytes that it takes from the file. -/
theorem fr_spec (cnt : ℕ) : ∀ (i : ℕ) (file : List UInt8) (buf : ℕ → UInt8),
    (fr cnt i file buf).1 = i + min cnt file.length ∧ (fr cnt i file buf).2.1 = file.drop cnt ∧
      ∀ k < min cnt file.length, (fr cnt i file buf).2.2 (i + k) = file.getD k 0 := by
  induction cnt with
  | zero => exact fun i file buf => ⟨by simp [fr], rfl, by simp⟩
  | succ cnt ih =>
    intro i file buf
    cases file with
    | nil => exact ⟨by simp [fr], rfl, by simp⟩
    | cons c file =>
      obtain ⟨h1, h2, h3⟩ := ih (i + 1) file (update buf i c)
      rw [fr, length_cons, h1, h2]
      refine ⟨by omega, rfl, fun k hk => ?_⟩
      cases k with
      | zero =>
        rw [fr_below cnt _ _ _ _ (by omega), getD_cons_zero]
        exact update_self i c buf
      | succ k => rw [getD_cons_succ, ← h3 k (by omega), Nat.add_right_comm]; rfl

/-- `encode`. -/
def encode (signed : Bool) (buf : ℕ → UInt8) (file : List UInt8) : List UInt8 :=
  line signed (fr 45 0 file buf).2.2 (fr 45 0 file buf).1 ++ newline ::
    if (fr 45 0 file buf).1 ≤ 0 then [] else encode signed (fr 45 0 file buf).2.2 (fr 45 0 file buf).2.1
  termination_by file.length
  decreasing_by
    obtain ⟨h1, h2, -⟩ := fr_spec 45 0 file buf
    rw [h2, length_drop]
    omega

/-! ### The decoder -/

/-- `DEC`. -/
def DEC (c : BitVec 32) : BitVec 32 := (c - 32) &&& 0o77

/-- `fgets`: the characters up to the newline or to the end of the file, at most `n`. -/
def fgets : ℕ → List UInt8 → List UInt8 × List UInt8
  | 0, s => ([], s)
  | _ + 1, [] => ([], [])
  | n + 1, c :: s => if c = newline then ([c], s) else (c :: (fgets n s).1, (fgets n s).2)

/-- The buffer with the characters that `fgets` has read and a null behind them. -/
def store (l : List UInt8) (buf : ℕ → UInt8) : ℕ → UInt8 :=
  fun k => if k < l.length then l.getD k 0 else if k = l.length then 0 else buf k

/-- `outdec` of `uudecode.c`: the bytes of the group at `p`, at most `n`. -/
def outdec (signed : Bool) (buf : ℕ → UInt8) (p n : ℕ) : List UInt8 :=
  let d := fun k => DEC (char signed (buf (p + k)))
  let c1 := d 0 <<< 2 ||| d 1 >>> 4
  let c2 := d 1 <<< 4 ||| d 2 >>> 2
  let c3 := d 2 <<< 6 ||| d 3
  (if n ≥ 1 then [putc c1] else []) ++ (if n ≥ 2 then [putc c2] else []) ++ if n ≥ 3 then [putc c3] else []

/-- The groups of a line of `n` bytes, from place `bp` on. -/
def ungroups (signed : Bool) (buf : ℕ → UInt8) (bp n : ℕ) : List UInt8 :=
  if n > 0 then outdec signed buf bp n ++ ungroups signed buf (bp + 4) (n - 3) else []

theorem length_fgets (n : ℕ) (s : List UInt8) : (fgets n s).1.length + (fgets n s).2.length = s.length := by
  induction n generalizing s with
  | zero => simp [fgets]
  | succ n ih =>
    cases s with
    | nil => rfl
    | cons c s =>
      rw [fgets]
      split_ifs
      · simp [Nat.add_comm]
      · have := ih s
        simp only [length_cons]
        omega

/-- `sizeof buf`. -/
def bufsize : ℕ := 80

/-- `decode`: what it writes and what is left of its input; `none` is `Short file`. -/
def decode (signed : Bool) (buf : ℕ → UInt8) (s : List UInt8) : Option (List UInt8 × List UInt8) :=
  if (fgets (bufsize - 1) s).1 = [] then none
  else
    let buf := store (fgets (bufsize - 1) s).1 buf
    -- six bits, so not negative
    let n := (DEC (char signed (buf 0))).toNat
    if n ≤ 0 then some ([], (fgets (bufsize - 1) s).2)
    else
      (decode signed buf (fgets (bufsize - 1) s).2).map fun r => (ungroups signed buf 1 n ++ r.1, r.2)
  termination_by s.length
  decreasing_by
    rename_i h _
    have h1 := length_fgets (bufsize - 1) s
    have h2 := length_pos_of_ne_nil h
    omega

/-! ### Characters -/

/-- The character of six bits. -/
def enc (x : ℕ) : UInt8 := UInt8.ofNat (if x = 0 then 0x60 else x + 32)

theorem putc_ENC : ∀ x < 64, putc (ENC (BitVec.ofNat 32 x)) = enc x := by decide

theorem DEC_enc (signed : Bool) : ∀ x < 64, DEC (char signed (enc x)) = BitVec.ofNat 32 x := by
  cases signed <;> decide

theorem newline_ne_enc : ∀ x < 64, newline ≠ enc x := by decide

/-- The value of a `char` is that of its byte, up to 256 when it has a sign. -/
theorem char_toInt (signed : Bool) (c : UInt8) : (char signed c).toInt = c.toNat ∨
    128 ≤ c.toNat ∧ (char signed c).toInt = c.toNat - 256 := by
  have hlt := c.toNat_lt
  cases signed with
  | false =>
    left
    have h : (char false c).toNat = c.toNat := by
      show (c.toBitVec.setWidth 32).toNat = c.toNat
      rw [BitVec.toNat_setWidth, UInt8.toNat_toBitVec, Nat.mod_eq_of_lt (by omega)]
    rw [BitVec.toInt_eq_toNat_of_lt (by omega), h]
  | true =>
    have h : (char true c).toInt = c.toBitVec.toInt := BitVec.toInt_signExtend_of_le (by omega)
    rw [h, BitVec.toInt_eq_toNat_cond, UInt8.toNat_toBitVec]
    split_ifs <;> omega

/-- A mask of low bits takes the remainder, also of a negative number. -/
theorem and_mask (x : BitVec 32) {k : ℕ} (hk : k ≤ 32) :
    x &&& BitVec.ofNat 32 (2 ^ k - 1) = BitVec.ofNat 32 (x.toInt % 2 ^ k).toNat := by
  have hpow : (2 : ℤ) ^ 32 = 2 ^ k * 2 ^ (32 - k) := by rw [← pow_add, Nat.add_sub_cancel' hk]
  have hle : 2 ^ k ≤ 2 ^ 32 := Nat.pow_le_pow_right (by omega) hk
  have hmod : x.toInt % 2 ^ k = ((x.toNat % 2 ^ k : ℕ) : ℤ) := by
    rw [BitVec.toInt_eq_toNat_cond]
    split_ifs
    · rw [Int.natCast_emod, Int.natCast_pow]
      rfl
    · rw [Int.natCast_pow, Int.natCast_emod, Int.natCast_pow]
      show ((x.toNat : ℤ) - 2 ^ 32) % 2 ^ k = _
      rw [hpow, Int.sub_mul_emod_self_left]
      rfl
  refine BitVec.eq_of_toNat_eq ?_
  rw [BitVec.toNat_and, BitVec.toNat_ofNat, BitVec.toNat_ofNat, hmod, Int.toNat_natCast,
    Nat.mod_eq_of_lt (a := 2 ^ k - 1) (by omega), Nat.and_two_pow_sub_one_eq_mod, Nat.mod_eq_of_lt (a := _ % _)]
  exact Nat.lt_of_lt_of_le (Nat.mod_lt _ (Nat.two_pow_pos k)) hle

theorem char_and (signed : Bool) (c : UInt8) {k : ℕ} (hk : k ≤ 8) :
    char signed c &&& BitVec.ofNat 32 (2 ^ k - 1) = BitVec.ofNat 32 (c.toNat % 2 ^ k) := by
  have hpow : (256 : ℤ) = 2 ^ k * 2 ^ (8 - k) := by rw [← pow_add, Nat.add_sub_cancel' hk]; rfl
  have hmod : (char signed c).toInt % 2 ^ k = ((c.toNat % 2 ^ k : ℕ) : ℤ) := by
    rw [Int.natCast_emod, Int.natCast_pow]
    rcases char_toInt signed c with h | ⟨-, h⟩
    · rw [h]
      rfl
    · rw [h, hpow, Int.sub_mul_emod_self_left]
      rfl
  rw [and_mask _ (by omega), hmod, Int.toNat_natCast]

/-- The upper bits of a `char`, shifted down; the copies of the sign are masked out. -/
theorem char_shr (signed : Bool) (c : UInt8) {i k : ℕ} (hk : i + k = 8) :
    (char signed c).sshiftRight i &&& BitVec.ofNat 32 (2 ^ k - 1) = BitVec.ofNat 32 (c.toNat / 2 ^ i) := by
  have hpow : (256 : ℤ) = 2 ^ i * 2 ^ k := by rw [← pow_add, hk]; rfl
  have hlt : c.toNat / 2 ^ i < 2 ^ k := by
    refine Nat.div_lt_of_lt_mul ?_
    rw [← Nat.pow_add, hk]
    exact c.toNat_lt
  have hne : (2 : ℤ) ^ i ≠ 0 := Int.pow_ne_zero (by omega)
  have hmod : ((char signed c).sshiftRight i).toInt % 2 ^ k = ((c.toNat / 2 ^ i : ℕ) : ℤ) := by
    rw [BitVec.toInt_sshiftRight, Int.shiftRight_eq_div_pow]
    have h0 : ((c.toNat / 2 ^ i : ℕ) : ℤ) % 2 ^ k = (c.toNat / 2 ^ i : ℕ) :=
      Int.emod_eq_of_lt (Int.natCast_nonneg _) (by exact_mod_cast hlt)
    rw [← h0]
    rcases char_toInt signed c with h | ⟨-, h⟩
    · rw [h]
      norm_cast
    · rw [h, hpow, Int.natCast_pow]
      show ((c.toNat : ℤ) - 2 ^ i * 2 ^ k) / 2 ^ i % 2 ^ k = _
      rw [Int.sub_mul_ediv_left _ _ hne, Int.sub_emod_right]
      norm_cast
  rw [and_mask _ (by omega), hmod, Int.toNat_natCast]

theorem ofNat_shl (x i : ℕ) : BitVec.ofNat 32 x <<< i = BitVec.ofNat 32 (2 ^ i * x) := by
  refine BitVec.eq_of_toNat_eq ?_
  simp [Nat.shiftLeft_eq, Nat.mul_comm]

theorem char_shl (signed : Bool) (c : UInt8) {i k : ℕ} (hk : k ≤ 8) :
    char signed c <<< i &&& BitVec.ofNat 32 (2 ^ i * (2 ^ k - 1)) = BitVec.ofNat 32 (2 ^ i * (c.toNat % 2 ^ k)) := by
  rw [← ofNat_shl, ← BitVec.shiftLeft_and_distrib, char_and signed c hk, ofNat_shl]

/-- The upper six bits: the number that is encoded may be negative. -/
theorem putc_c1 (signed : Bool) (c : UInt8) : putc (ENC ((char signed c).sshiftRight 2)) = enc (c.toNat / 2 ^ 2) := by
  have hlt := c.toNat_lt
  have hsum : ∀ x < 64, x ≠ 0 → putc (BitVec.ofNat 32 x + 32) = enc x := by decide
  have hint : ((char signed c).sshiftRight 2).toInt = (char signed c).toInt / 2 ^ 2 := by
    rw [BitVec.toInt_sshiftRight, Int.shiftRight_eq_div_pow]
    rfl
  rw [ENC]
  split_ifs with h
  · have hand := char_shr signed c (show 2 + 6 = 8 by omega)
    rw [show BitVec.ofNat 32 (2 ^ 6 - 1) = 0o77 from rfl] at hand
    rw [hand]
    refine hsum _ (by omega) fun h0 => h (BitVec.eq_of_toInt_eq ?_)
    rw [hint]
    show _ = (0 : ℤ)
    rcases char_toInt signed c with hc | ⟨hneg, hc⟩ <;> omega
  · have h0 : ((char signed c).sshiftRight 2).toInt = 0 := by rw [not_not.1 h]; rfl
    have hx : c.toNat / 2 ^ 2 = 0 := by
      rw [hint] at h0
      rcases char_toInt signed c with hc | ⟨-, hc⟩ <;> omega
    rw [hx]
    rfl

theorem ofNat_or_ofNat {i x y : ℕ} (hy : y < 2 ^ i) :
    BitVec.ofNat 32 (2 ^ i * x) ||| BitVec.ofNat 32 y = BitVec.ofNat 32 (2 ^ i * x + y) := by
  rw [Nat.two_pow_add_eq_or_of_lt hy, BitVec.ofNat_or]

/-- The four groups of six bits. -/
def sextets (a b c : ℕ) : List ℕ := [a / 4, 16 * (a % 4) + b / 16, 4 * (b % 16) + c / 64, c % 64]

theorem outenc_eq (signed : Bool) (buf : ℕ → UInt8) (p : ℕ) : outenc signed buf p =
    (sextets (buf p).toNat (buf (p + 1)).toNat (buf (p + 2)).toNat).map enc := by
  have hb := (buf (p + 1)).toNat_lt
  have hc := (buf (p + 2)).toNat_lt
  have h1 : char signed (buf p) <<< 4 &&& 0o60 = _ := char_shl signed (buf p) (show 2 ≤ 8 by omega)
  have h2 : (char signed (buf (p + 1))).sshiftRight 4 &&& 0o17 = _ :=
    char_shr signed (buf (p + 1)) (show 4 + 4 = 8 by omega)
  have h3 : char signed (buf (p + 1)) <<< 2 &&& 0o74 = _ := char_shl signed (buf (p + 1)) (show 4 ≤ 8 by omega)
  have h4 : (char signed (buf (p + 2))).sshiftRight 6 &&& 0o3 = _ :=
    char_shr signed (buf (p + 2)) (show 6 + 2 = 8 by omega)
  have h5 : char signed (buf (p + 2)) &&& 0o77 = _ := char_and signed (buf (p + 2)) (show 6 ≤ 8 by omega)
  simp only [outenc, sextets, map_cons, map_nil, h1, h2, h3, h4, h5, putc_c1]
  rw [ofNat_or_ofNat (by omega), ofNat_or_ofNat (by omega), putc_ENC _ (by omega), putc_ENC _ (by omega),
    putc_ENC _ (by omega)]
  rfl

theorem ofNat_shr {x : ℕ} (hx : x < 64) (i : ℕ) : BitVec.ofNat 32 x >>> i = BitVec.ofNat 32 (x / 2 ^ i) := by
  have h := Nat.div_le_self x (2 ^ i)
  refine BitVec.eq_of_toNat_eq ?_
  simp only [BitVec.toNat_ushiftRight, BitVec.toNat_ofNat, Nat.shiftRight_eq_div_pow]
  rw [Nat.mod_eq_of_lt (by omega), Nat.mod_eq_of_lt (by omega)]

theorem putc_ofNat {x : ℕ} (hx : x < 2 ^ 32) (c : UInt8) (h : x % 256 = c.toNat) : putc (BitVec.ofNat 32 x) = c := by
  refine UInt8.toNat_inj.1 ?_
  rw [← h]
  show ((BitVec.ofNat 32 x).setWidth 8).toNat = _
  rw [BitVec.toNat_setWidth, BitVec.toNat_ofNat, Nat.mod_eq_of_lt hx]

/-- The decoder puts the bytes of a group together again; it writes no more than `n` of them. -/
theorem outdec_eq (signed : Bool) (buf : ℕ → UInt8) (p n : ℕ) (a b c : UInt8)
    (h : ∀ k < 4, buf (p + k) = ((sextets a.toNat b.toNat c.toNat).map enc).getD k 0) :
    outdec signed buf p n = [a, b, c].take n := by
  have ha := a.toNat_lt
  have hb := b.toNat_lt
  have hc := c.toNat_lt
  have h0 : buf (p + 0) = enc (a.toNat / 4) := h 0 (by omega)
  have h1 : buf (p + 1) = enc (16 * (a.toNat % 4) + b.toNat / 16) := h 1 (by omega)
  have h2 : buf (p + 2) = enc (4 * (b.toNat % 16) + c.toNat / 64) := h 2 (by omega)
  have h3 : buf (p + 3) = enc (c.toNat % 64) := h 3 (by omega)
  have h4 : n = 0 ∨ n = 1 ∨ n = 2 ∨ 3 ≤ n := by omega
  simp only [outdec, h0, h1, h2, h3]
  rw [DEC_enc _ _ (by omega), DEC_enc _ _ (by omega), DEC_enc _ _ (by omega), DEC_enc _ _ (by omega),
    ofNat_shl, ofNat_shl, ofNat_shl, ofNat_shr (by omega), ofNat_shr (by omega), ofNat_or_ofNat (by omega),
    ofNat_or_ofNat (by omega), ofNat_or_ofNat (by omega), putc_ofNat (by omega) a (by omega),
    putc_ofNat (by omega) b (by omega), putc_ofNat (by omega) c (by omega)]
  rcases h4 with rfl | rfl | rfl | h4
  · rfl
  · rfl
  · rfl
  · rw [if_pos (by omega), if_pos (by omega), if_pos h4, take_of_length_le (by simpa using h4)]
    rfl

/-! ### Lines -/

theorem groups_of_lt (signed : Bool) (buf : ℕ → UInt8) {n i : ℕ} (h : i < n) :
    groups signed buf n i = outenc signed buf i ++ groups signed buf n (i + 3) := by
  rw [groups, if_pos h]

theorem groups_of_le (signed : Bool) (buf : ℕ → UInt8) {n i : ℕ} (h : n ≤ i) : groups signed buf n i = [] := by
  rw [groups, if_neg (by omega)]

theorem groups_spec (signed : Bool) (buf : ℕ → UInt8) (n i : ℕ) :
    (groups signed buf n i).length = (n - i + 2) / 3 * 4 ∧ ∀ c ∈ groups signed buf n i, ∃ x < 64, c = enc x := by
  induction i using groups.induct n with
  | case1 i h ih =>
    obtain ⟨h1, h2⟩ := ih
    have ha := (buf i).toNat_lt
    have hb := (buf (i + 1)).toNat_lt
    have hc := (buf (i + 2)).toNat_lt
    rw [groups_of_lt signed buf h]
    refine ⟨?_, fun c hcm => ?_⟩
    · rw [length_append, h1, outenc_eq]
      simp only [sextets, length_map, length_cons, length_nil]
      omega
    · rcases mem_append.1 hcm with hcm | hcm
      · rw [outenc_eq] at hcm
        obtain ⟨x, hx, rfl⟩ := mem_map.1 hcm
        refine ⟨x, ?_, rfl⟩
        simp only [sextets, mem_cons, not_mem_nil, or_false] at hx
        omega
      · exact h2 c hcm
  | case2 i h =>
    rw [groups_of_le signed buf (by omega)]
    exact ⟨by rw [show n - i = 0 by omega]; rfl, by simp⟩

/-- The first group of what is left of a line; a short one leaves out the bytes behind the end. -/
theorem take_group {a b c : UInt8} (m : List UInt8) (h : ∀ k < m.length, k < 3 → [a, b, c].getD k 0 = m.getD k 0) :
    [a, b, c].take m.length ++ m.drop 3 = m := by
  rcases m with _ | ⟨x, _ | ⟨y, _ | ⟨z, m⟩⟩⟩
  · rfl
  · obtain rfl : a = x := h 0 (by simp) (by omega)
    rfl
  · obtain rfl : a = x := h 0 (by simp) (by omega)
    obtain rfl : b = y := h 1 (by simp) (by omega)
    rfl
  · obtain rfl : a = x := h 0 (by simp) (by omega)
    obtain rfl : b = y := h 1 (by simp) (by omega)
    obtain rfl : c = z := h 2 (by simp) (by omega)
    simp

/-- The decoder gets the bytes of a line back. -/
theorem ungroups_groups (signed signed' : Bool) (buf buf' : ℕ → UInt8) (l : List UInt8)
    (hbuf : ∀ k < l.length, buf k = l.getD k 0) (i bp : ℕ)
    (h : ∀ k < (groups signed buf l.length i).length, buf' (bp + k) = (groups signed buf l.length i).getD k 0) :
    ungroups signed' buf' bp (l.length - i) = l.drop i := by
  induction i using groups.induct l.length generalizing bp with
  | case1 i hi ih =>
    have hlen : (outenc signed buf i).length = 4 := by
      rw [outenc_eq]
      rfl
    rw [groups_of_lt signed buf hi] at h
    rw [ungroups, if_pos (by omega), outdec_eq signed' buf' bp _ (buf i) (buf (i + 1)) (buf (i + 2)),
      Nat.sub_sub, ih]
    · rw [← length_drop, ← drop_drop]
      refine take_group _ fun k hk hk3 => ?_
      rw [length_drop] at hk
      have h1 : buf (i + k) = (l.drop i).getD k 0 := by
        rw [hbuf (i + k) (by omega), getD_eq_getElem?_getD, getD_eq_getElem?_getD, getElem?_drop]
      rw [← h1]
      obtain rfl | rfl | rfl : k = 0 ∨ k = 1 ∨ k = 2 := by omega
      all_goals rfl
    · intro k hk
      have h1 := h (4 + k) (by rw [length_append]; omega)
      rw [getD_append_right _ _ _ _ (by omega), hlen, Nat.add_sub_cancel_left] at h1
      rw [Nat.add_assoc, h1]
    · intro k hk
      have h1 := h k (by rw [length_append]; omega)
      rw [getD_append _ _ _ _ (by omega), outenc_eq] at h1
      exact h1
  | case2 i hi =>
    rw [ungroups, if_neg (by omega), drop_of_length_le (by omega)]

theorem fgets_line {l s : List UInt8} (hl : newline ∉ l) : ∀ n, l.length < n →
    fgets n (l ++ newline :: s) = (l ++ [newline], s) := by
  induction l with
  | nil =>
    intro n hn
    cases n with
    | zero => simp at hn
    | succ n => rfl
  | cons c l ih =>
    intro n hn
    rw [mem_cons, not_or] at hl
    cases n with
    | zero => simp at hn
    | succ n =>
      rw [cons_append, fgets, if_neg (Ne.symm hl.1), ih hl.2 n (by simpa using hn)]
      rfl

theorem line_range (signed : Bool) (buf : ℕ → UInt8) {n : ℕ} (hn : n ≤ 45) :
    line signed buf n = enc n :: groups signed buf n 0 ∧ (line signed buf n).length + 2 ≤ bufsize ∧
      newline ∉ line signed buf n := by
  have h1 : line signed buf n = enc n :: groups signed buf n 0 := by rw [line, putc_ENC n (by omega)]
  obtain ⟨h2, h3⟩ := groups_spec signed buf n 0
  refine ⟨h1, ?_, ?_⟩
  · rw [h1, length_cons, h2, bufsize]
    omega
  · rw [h1, mem_cons, not_or]
    refine ⟨newline_ne_enc n (by omega), fun h => ?_⟩
    obtain ⟨x, hx, he⟩ := h3 _ h
    exact newline_ne_enc x hx he

/-- One round of `decode` on a line of `encode`. -/
theorem decode_line (signed signed' : Bool) (buf buf' : ℕ → UInt8) (l s : List UInt8) (hl : l.length ≤ 45)
    (hbuf : ∀ k < l.length, buf k = l.getD k 0) : ∃ buf'',
      decode signed' buf' (line signed buf l.length ++ newline :: s) =
        if l.length = 0 then some ([], s) else (decode signed' buf'' s).map fun r => (l ++ r.1, r.2) := by
  obtain ⟨h1, h2, h3⟩ := line_range signed buf hl
  obtain ⟨L, hL⟩ : ∃ L, L = line signed buf l.length ++ [newline] := ⟨_, rfl⟩
  have hget : fgets (bufsize - 1) (line signed buf l.length ++ newline :: s) = (L, s) := by
    rw [hL]
    exact fgets_line h3 _ (by omega)
  have hat : ∀ k < (line signed buf l.length).length, store L buf' k = (line signed buf l.length).getD k 0 := by
    intro k hk
    rw [store, if_pos (by rw [hL, length_append]; omega), hL, getD_append _ _ _ _ hk]
  have hn : (DEC (char signed' (store L buf' 0))).toNat = l.length := by
    rw [hat 0 (by rw [h1]; simp), h1, getD_cons_zero, DEC_enc _ _ (by omega), BitVec.toNat_ofNat,
      Nat.mod_eq_of_lt (by omega)]
  have hgroups : ungroups signed' (store L buf') 1 l.length = l := by
    refine ungroups_groups signed signed' buf (store L buf') l hbuf 0 1 fun k hk => ?_
    rw [hat (1 + k) (by rw [h1, length_cons]; omega), h1, Nat.add_comm, getD_cons_succ]
  refine ⟨store L buf', ?_⟩
  rw [decode, hget, if_neg (by simp [hL])]
  simp only [hn, hgroups, Nat.le_zero]

/-- Any bytes come back, and the decoder stops behind the line that announces no bytes; the lines have no newline
inside and room in the buffer of the decoder. -/
theorem decode_encode (signed signed' : Bool) (buf buf' : ℕ → UInt8) (file s : List UInt8) :
    decode signed' buf' (encode signed buf file ++ s) = some (file, s) ∧
      ∃ lines : List (List UInt8), encode signed buf file = lines.flatMap (fun l => l ++ [newline]) ∧
        ∀ l ∈ lines, l.length + 2 ≤ bufsize ∧ newline ∉ l := by
  induction buf, file using encode.induct generalizing buf' with
  | case1 buf file ih =>
    obtain ⟨h1, h2, h3⟩ := fr_spec 45 0 file buf
    obtain ⟨l, hl⟩ : ∃ l, l = file.take 45 := ⟨_, rfl⟩
    obtain ⟨B, hB⟩ : ∃ B, B = (fr 45 0 file buf).2.2 := ⟨_, rfl⟩
    have hlen : (fr 45 0 file buf).1 = l.length := by rw [h1, hl, List.length_take, Nat.zero_add]
    have hlen45 : l.length ≤ 45 := by rw [hl, List.length_take]; omega
    have hbuf : ∀ k < l.length, B k = l.getD k 0 := by
      intro k hk
      rw [hl, List.length_take] at hk
      rw [hB, ← Nat.zero_add k, h3 k hk, hl, Nat.zero_add, List.getD_eq_getElem?_getD, List.getD_eq_getElem?_getD,
        List.getElem?_take_of_lt (by omega)]
    rw [← hB, hlen, h2] at ih
    obtain ⟨-, hfit, hnl⟩ := line_range signed B hlen45
    obtain ⟨buf'', hround⟩ := decode_line signed signed' B buf' l
      ((if l.length = 0 then [] else encode signed B (file.drop 45)) ++ s) hlen45 hbuf
    have heq : encode signed buf file = line signed B l.length ++ newline ::
        if l.length = 0 then [] else encode signed B (file.drop 45) := by
      rw [encode, ← hB, hlen, h2]
      simp only [Nat.le_zero]
    rw [heq, List.append_assoc, List.cons_append, hround]
    by_cases h0 : l.length = 0
    · -- the end of the file
      rw [if_pos h0, if_pos h0, List.nil_append]
      have hfile : file = [] := by
        rw [hl, List.length_take] at h0
        exact List.eq_nil_of_length_eq_zero (by omega)
      refine ⟨by rw [hfile], [line signed B l.length], by simp, fun l' hl' => ?_⟩
      obtain rfl := List.mem_singleton.1 hl'
      exact ⟨hfit, hnl⟩
    · obtain ⟨ih1, lines, ih2, ih3⟩ := ih (by omega) buf''
      rw [if_neg h0, if_neg h0, ih1]
      refine ⟨?_, line signed B l.length :: lines, ?_, fun l' hl' => ?_⟩
      · rw [Option.map_some, hl, List.take_append_drop]
      · rw [List.flatMap_cons, ← ih2, List.append_assoc]
        rfl
      · rcases List.mem_cons.1 hl' with rfl | hl'
        · exact ⟨hfit, hnl⟩
        · exact ih3 l' hl'

end Uucode

end Hpux
