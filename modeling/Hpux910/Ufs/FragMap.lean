import Mathlib

/-!
# The map of free fragments

A cylinder group has a map with a bit for each fragment, and a block is 1, 2, 4 or 8 fragments.  `mapsearch` of
`ufs/ufs_alloc.c` finds a run of fragments with tables that say for each byte of the map which runs it holds.

* `fragtbl`, `around`, `inside` : the tables of `ufs/ufs_tables.c`.
* `blkmap`, `isblock`, `scanc`, `mapsearch` : the code.
* `Run` : a run of free fragments in a block with no free one at its ends.
* `fits_run`, `exists_run`, `fragtbl_table` : what the tables say.
* `mapsearch_spec` : the search finds a run of the size if there is one.
-/

namespace Hpux

namespace UfsAlloc

open List

/-! ### The tables -/

/-- `fragtbl124`, for blocks of 1, 2 or 4 fragments. -/
def fragtbl124 : List ℕ :=
  [0x00, 0x16, 0x16, 0x2a, 0x16, 0x16, 0x26, 0x4e, 0x16, 0x16, 0x16, 0x3e, 0x2a, 0x3e, 0x4e, 0x8a,
   0x16, 0x16, 0x16, 0x3e, 0x16, 0x16, 0x36, 0x5e, 0x16, 0x16, 0x16, 0x3e, 0x3e, 0x3e, 0x5e, 0x9e,
   0x16, 0x16, 0x16, 0x3e, 0x16, 0x16, 0x36, 0x5e, 0x16, 0x16, 0x16, 0x3e, 0x3e, 0x3e, 0x5e, 0x9e,
   0x2a, 0x3e, 0x3e, 0x2a, 0x3e, 0x3e, 0x2e, 0x6e, 0x3e, 0x3e, 0x3e, 0x3e, 0x2a, 0x3e, 0x6e, 0xaa,
   0x16, 0x16, 0x16, 0x3e, 0x16, 0x16, 0x36, 0x5e, 0x16, 0x16, 0x16, 0x3e, 0x3e, 0x3e, 0x5e, 0x9e,
   0x16, 0x16, 0x16, 0x3e, 0x16, 0x16, 0x36, 0x5e, 0x16, 0x16, 0x16, 0x3e, 0x3e, 0x3e, 0x5e, 0x9e,
   0x26, 0x36, 0x36, 0x2e, 0x36, 0x36, 0x26, 0x6e, 0x36, 0x36, 0x36, 0x3e, 0x2e, 0x3e, 0x6e, 0xae,
   0x4e, 0x5e, 0x5e, 0x6e, 0x5e, 0x5e, 0x6e, 0x4e, 0x5e, 0x5e, 0x5e, 0x7e, 0x6e, 0x7e, 0x4e, 0xce,
   0x16, 0x16, 0x16, 0x3e, 0x16, 0x16, 0x36, 0x5e, 0x16, 0x16, 0x16, 0x3e, 0x3e, 0x3e, 0x5e, 0x9e,
   0x16, 0x16, 0x16, 0x3e, 0x16, 0x16, 0x36, 0x5e, 0x16, 0x16, 0x16, 0x3e, 0x3e, 0x3e, 0x5e, 0x9e,
   0x16, 0x16, 0x16, 0x3e, 0x16, 0x16, 0x36, 0x5e, 0x16, 0x16, 0x16, 0x3e, 0x3e, 0x3e, 0x5e, 0x9e,
   0x3e, 0x3e, 0x3e, 0x3e, 0x3e, 0x3e, 0x3e, 0x7e, 0x3e, 0x3e, 0x3e, 0x3e, 0x3e, 0x3e, 0x7e, 0xbe,
   0x2a, 0x3e, 0x3e, 0x2a, 0x3e, 0x3e, 0x2e, 0x6e, 0x3e, 0x3e, 0x3e, 0x3e, 0x2a, 0x3e, 0x6e, 0xaa,
   0x3e, 0x3e, 0x3e, 0x3e, 0x3e, 0x3e, 0x3e, 0x7e, 0x3e, 0x3e, 0x3e, 0x3e, 0x3e, 0x3e, 0x7e, 0xbe,
   0x4e, 0x5e, 0x5e, 0x6e, 0x5e, 0x5e, 0x6e, 0x4e, 0x5e, 0x5e, 0x5e, 0x7e, 0x6e, 0x7e, 0x4e, 0xce,
   0x8a, 0x9e, 0x9e, 0xaa, 0x9e, 0x9e, 0xae, 0xce, 0x9e, 0x9e, 0x9e, 0xbe, 0xaa, 0xbe, 0xce, 0x8a]

/-- `fragtbl8`, for blocks of 8 fragments. -/
def fragtbl8 : List ℕ :=
  [0x00, 0x01, 0x01, 0x02, 0x01, 0x01, 0x02, 0x04, 0x01, 0x01, 0x01, 0x03, 0x02, 0x03, 0x04, 0x08,
   0x01, 0x01, 0x01, 0x03, 0x01, 0x01, 0x03, 0x05, 0x02, 0x03, 0x03, 0x02, 0x04, 0x05, 0x08, 0x10,
   0x01, 0x01, 0x01, 0x03, 0x01, 0x01, 0x03, 0x05, 0x01, 0x01, 0x01, 0x03, 0x03, 0x03, 0x05, 0x09,
   0x02, 0x03, 0x03, 0x02, 0x03, 0x03, 0x02, 0x06, 0x04, 0x05, 0x05, 0x06, 0x08, 0x09, 0x10, 0x20,
   0x01, 0x01, 0x01, 0x03, 0x01, 0x01, 0x03, 0x05, 0x01, 0x01, 0x01, 0x03, 0x03, 0x03, 0x05, 0x09,
   0x01, 0x01, 0x01, 0x03, 0x01, 0x01, 0x03, 0x05, 0x03, 0x03, 0x03, 0x03, 0x05, 0x05, 0x09, 0x11,
   0x02, 0x03, 0x03, 0x02, 0x03, 0x03, 0x02, 0x06, 0x03, 0x03, 0x03, 0x03, 0x02, 0x03, 0x06, 0x0a,
   0x04, 0x05, 0x05, 0x06, 0x05, 0x05, 0x06, 0x04, 0x08, 0x09, 0x09, 0x0a, 0x10, 0x11, 0x20, 0x40,
   0x01, 0x01, 0x01, 0x03, 0x01, 0x01, 0x03, 0x05, 0x01, 0x01, 0x01, 0x03, 0x03, 0x03, 0x05, 0x09,
   0x01, 0x01, 0x01, 0x03, 0x01, 0x01, 0x03, 0x05, 0x03, 0x03, 0x03, 0x03, 0x05, 0x05, 0x09, 0x11,
   0x01, 0x01, 0x01, 0x03, 0x01, 0x01, 0x03, 0x05, 0x01, 0x01, 0x01, 0x03, 0x03, 0x03, 0x05, 0x09,
   0x03, 0x03, 0x03, 0x03, 0x03, 0x03, 0x03, 0x07, 0x05, 0x05, 0x05, 0x07, 0x09, 0x09, 0x11, 0x21,
   0x02, 0x03, 0x03, 0x02, 0x03, 0x03, 0x02, 0x06, 0x03, 0x03, 0x03, 0x03, 0x02, 0x03, 0x06, 0x0a,
   0x03, 0x03, 0x03, 0x03, 0x03, 0x03, 0x03, 0x07, 0x02, 0x03, 0x03, 0x02, 0x06, 0x07, 0x0a, 0x12,
   0x04, 0x05, 0x05, 0x06, 0x05, 0x05, 0x06, 0x04, 0x05, 0x05, 0x05, 0x07, 0x06, 0x07, 0x04, 0x0c,
   0x08, 0x09, 0x09, 0x0a, 0x09, 0x09, 0x0a, 0x0c, 0x10, 0x11, 0x11, 0x12, 0x20, 0x21, 0x40, 0x80]

/-- `fragtbl`, by `fs_fragshift`: a block has `2 ^ shift` fragments. -/
def fragtbl (shift : ℕ) : List ℕ := if shift = 3 then fragtbl8 else fragtbl124

/-- The bits of a run of fragments with its two neighbours. -/
def around : List ℕ := [0x3, 0x7, 0xf, 0x1f, 0x3f, 0x7f, 0xff, 0x1ff, 0x3ff]

/-- The bits of the run. -/
def inside : List ℕ := [0x0, 0x2, 0x6, 0xe, 0x1e, 0x3e, 0x7e, 0xfe, 0x1fe]

/-! ### The map -/

/-- `cg_free`, by its bytes. -/
abbrev Map := ℕ → BitVec 8

/-- The macro `isset`: the fragment is free. -/
def isset (map : Map) (i : ℕ) : Bool := (map (i / 8)).getLsbD (i % 8)

/-- The bits of a block of the map. -/
def blkmap (shift : ℕ) (map : Map) (loc : ℕ) : ℕ :=
  (map (loc / 8)).toNat >>> (loc % 8) &&& 0xff >>> (8 - 2 ^ shift)

/-- The byte of block `h`, and the bits of the block in it. -/
def blockMask (shift h : ℕ) : BitVec 8 := BitVec.ofNat 8 ((2 ^ 2 ^ shift - 1) <<< (h % (8 / 2 ^ shift) * 2 ^ shift))

/-- `isblock`: the block is free. -/
def isblock (shift : ℕ) (map : Map) (h : ℕ) : Bool :=
  map (h / (8 / 2 ^ shift)) &&& blockMask shift h = blockMask shift h

/-- `scanc`: the first byte from `i` on with a bit of `mask` in the table; what is left from there, or 0. -/
def scanc (cp : Map) (table : List ℕ) (mask : ℕ) : (size i : ℕ) → ℕ
  | 0, _ => 0
  | size + 1, i => if table.getD (cp i).toNat 0 &&& mask = 0 then scanc cp table mask size (i + 1) else size + 1

/-- The test of `mapsearch` for a run of `allocsiz` fragments at `pos` in a block. -/
def fits (allocsiz pos blk : ℕ) : Bool :=
  blk <<< 1 &&& around.getD allocsiz 0 <<< pos = inside.getD allocsiz 0 <<< pos

/-- The loop over the blocks of a byte, `for (i = bno + NBBY; bno < i; bno += fs->fs_frag)`. -/
def sift (shift : ℕ) (map : Map) (allocsiz : ℕ) : (turns bno : ℕ) → Option ℕ
  | 0, _ => none
  | turns + 1, bno =>
    match (List.range (2 ^ shift - allocsiz + 1)).find? fun pos => fits allocsiz pos (blkmap shift map bno) with
    | some pos => some (bno + pos)
    | none => sift shift map allocsiz turns (bno + 2 ^ shift)

/-- What `mapsearch` gives: `-1`, or the place of the run and the new `cg_frotor`.  There is no answer if it
panics. -/
abbrev Found := Option (Option (ℕ × ℕ))

/-- The bits of the table for runs of `allocsiz` fragments. -/
def tblMask (shift allocsiz : ℕ) : ℕ := 1 <<< (allocsiz - 1 + 2 ^ shift % 8)

/-- `mapsearch`. -/
def mapsearch (shift fpg : ℕ) (map : Map) (cg_frotor bpref allocsiz : ℕ) : Found :=
  let start := if 0 < bpref then bpref % fpg / 8 else cg_frotor / 8
  let len := (fpg + 7) / 8 - start
  let loc := scanc map (fragtbl shift) (tblMask shift allocsiz) len start
  let found (bno : ℕ) : Found := (sift shift map allocsiz (8 / 2 ^ shift) bno).map fun r => some (r, bno)
  if loc = 0 then
    let loc := scanc map (fragtbl shift) (tblMask shift allocsiz) (start + 1) 0
    if loc = 0 then some none else found ((start + 1 - loc) * 8)
  else found ((start + len - loc) * 8)

/-! ### What the tables say -/

/-- A run of `n` free fragments at `pos` in a block of `frag` fragments, whose neighbours are not free. -/
def Run (frag blk n pos : ℕ) : Prop :=
  pos + n ≤ frag ∧ (∀ i < n, blk.testBit (pos + i) = true) ∧ (pos ≠ 0 → blk.testBit (pos - 1) = false) ∧
    blk.testBit (pos + n) = false

instance (frag blk n pos : ℕ) : Decidable (Run frag blk n pos) := inferInstanceAs (Decidable (_ ∧ _))

theorem around_eq : ∀ n < 9, around.getD n 0 = 2 ^ (n + 2) - 1 := by decide

theorem inside_eq : ∀ n < 9, inside.getD n 0 = 2 * (2 ^ n - 1) := by decide

/-- The test for a run finds just those without free neighbours. -/
theorem fits_run {frag blk n pos : ℕ} (hn : n < 9) (h0 : 0 < n) (hpos : pos + n ≤ frag) : fits n pos blk = true ↔ Run frag blk n pos := by
  have hleft : ∀ k, (blk <<< 1 &&& around.getD n 0 <<< pos).testBit k =
      (decide (1 ≤ k ∧ pos ≤ k ∧ k < pos + n + 2) && blk.testBit (k - 1)) := by
    intro k
    rw [around_eq n hn, Nat.testBit_and, Nat.testBit_shiftLeft, Nat.testBit_shiftLeft, Nat.testBit_two_pow_sub_one]
    by_cases hk : 1 ≤ k ∧ pos ≤ k ∧ k < pos + n + 2
    · simp [hk.1, hk.2.1, show k - pos < n + 2 by omega, hk.2.2]
    · rw [decide_eq_false hk, Bool.false_and]
      by_contra hne
      simp only [ge_iff_le, Bool.not_eq_false, Bool.and_eq_true, decide_eq_true_eq] at hne
      omega
  have hright : ∀ k, (inside.getD n 0 <<< pos).testBit k = decide (pos + 1 ≤ k ∧ k < pos + n + 1) := by
    intro k
    rw [inside_eq n hn, Nat.testBit_shiftLeft, show 2 * (2 ^ n - 1) = (2 ^ n - 1) <<< 1 by rw [Nat.shiftLeft_eq]; omega,
      Nat.testBit_shiftLeft, Nat.testBit_two_pow_sub_one, Bool.eq_iff_iff]
    simp only [ge_iff_le, Bool.and_eq_true, decide_eq_true_eq]
    omega
  unfold fits Run
  rw [decide_eq_true_eq]
  constructor
  · intro heq
    have hbit : ∀ k, 1 ≤ k → pos ≤ k → k < pos + n + 2 → blk.testBit (k - 1) = decide (pos + 1 ≤ k ∧ k < pos + n + 1) := by
      intro k h1 h2 h3
      have := congrArg (Nat.testBit · k) heq
      simpa only [hleft, hright, h1, h2, h3, and_self, decide_true, Bool.true_and] using this
    refine ⟨hpos, fun i hi => ?_, fun hp => ?_, ?_⟩
    · have := hbit (pos + i + 1) (by omega) (by omega) (by omega)
      rwa [Nat.add_sub_cancel, decide_eq_true (by omega)] at this
    · have := hbit pos (by omega) (by omega) (by omega)
      rwa [decide_eq_false (by omega)] at this
    · have := hbit (pos + n + 1) (by omega) (by omega) (by omega)
      rwa [Nat.add_sub_cancel, decide_eq_false (by omega)] at this
  · rintro ⟨-, hin, hbefore, hafter⟩
    refine Nat.eq_of_testBit_eq fun k => ?_
    rw [hleft, hright]
    by_cases hk : 1 ≤ k ∧ pos ≤ k ∧ k < pos + n + 2
    · rw [decide_eq_true hk, Bool.true_and]
      by_cases hmid : pos + 1 ≤ k ∧ k < pos + n + 1
      · rw [decide_eq_true hmid, show k - 1 = pos + (k - 1 - pos) by omega]
        exact hin _ (by omega)
      · rw [decide_eq_false hmid]
        by_cases hp : k = pos
        · subst hp
          exact hbefore (by omega)
        · rw [show k - 1 = pos + n by omega]
          exact hafter
    · rw [decide_eq_false hk, Bool.false_and, decide_eq_false (by omega)]

/-- Free fragments in a row are part of a run: it is found by going on in both directions. -/
theorem exists_run {frag blk : ℕ} (hblk : ∀ i, frag ≤ i → blk.testBit i = false) : ∀ (d n pos : ℕ),
    n + d = frag → pos + n ≤ frag → (∀ i < n, blk.testBit (pos + i) = true) → ∃ a, n ≤ a ∧ ∃ pos, Run frag blk a pos
  | d, n, pos, hd, hpos, hall => by
    by_cases hbefore : pos ≠ 0 ∧ blk.testBit (pos - 1) = true
    · obtain ⟨d, rfl⟩ : ∃ e, d = e + 1 := ⟨d - 1, by omega⟩
      obtain ⟨a, ha, q, hrun⟩ := exists_run hblk d (n + 1) (pos - 1) (by omega) (by omega) fun i hi => by
        cases i with
        | zero => exact hbefore.2
        | succ i =>
          rw [show pos - 1 + (i + 1) = pos + i by omega]
          exact hall i (by omega)
      exact ⟨a, by omega, q, hrun⟩
    · cases hafter : blk.testBit (pos + n) with
      | true =>
        have hlt : pos + n < frag := by
          by_contra hge
          rw [hblk _ (Nat.not_lt.1 hge)] at hafter
          cases hafter
        obtain ⟨d, rfl⟩ : ∃ e, d = e + 1 := ⟨d - 1, by omega⟩
        obtain ⟨a, ha, q, hrun⟩ := exists_run hblk d (n + 1) pos (by omega) (by omega) fun i hi => by
          rcases Nat.lt_succ_iff_lt_or_eq.1 hi with hi | rfl
          · exact hall i hi
          · exact hafter
        exact ⟨a, by omega, q, hrun⟩
      | false =>
        refine ⟨n, Nat.le_refl n, pos, hpos, hall, fun h0 => ?_, hafter⟩
        rw [← Bool.not_eq_true]
        exact fun h => hbefore ⟨h0, h⟩

/-- `fits` without the tables of masks. -/
def fitsPow (n pos blk : ℕ) : Bool :=
  Nat.beq (Nat.land (Nat.shiftLeft blk 1) (Nat.shiftLeft (Nat.sub (Nat.pow 2 (n + 2)) 1) pos))
    (Nat.shiftLeft (Nat.mul 2 (Nat.sub (Nat.pow 2 n) 1)) pos)

theorem fitsPow_eq {n : ℕ} (hn : n < 9) (pos blk : ℕ) : fitsPow n pos blk = fits n pos blk := by
  rw [fits, around_eq n hn, inside_eq n hn, Bool.eq_iff_iff, decide_eq_true_iff]
  exact Nat.beq_eq ▸ Iff.rfl

/-- The entry of the table for the byte `b` says which runs the byte holds. -/
def entryOk (shift b entry : ℕ) : Bool :=
  (List.range (2 ^ shift)).all fun n =>
    (Nat.beq (Nat.land entry (tblMask shift (n + 1))) 0).not ==
      (List.range (8 / 2 ^ shift)).any fun k => (List.range (2 ^ shift - n)).any fun pos =>
        fitsPow (n + 1) pos (Nat.land (Nat.shiftRight b (k * 2 ^ shift)) (Nat.shiftRight 0xff (8 - 2 ^ shift)))

/-- The entries are those for the bytes from `b` on. -/
def entriesOk (shift : ℕ) : ℕ → List ℕ → Bool
  | _, [] => true
  | b, entry :: l => entryOk shift b entry && entriesOk shift (b + 1) l

theorem entriesOk_spec {shift : ℕ} : ∀ {l : List ℕ} {b : ℕ}, entriesOk shift b l = true →
    ∀ i < l.length, entryOk shift (b + i) (l.getD i 0) = true
  | entry :: l, b, h, i, hi => by
    obtain ⟨h1, h2⟩ := Bool.and_eq_true_iff.1 h
    cases i with
    | zero => exact h1
    | succ i =>
      rw [show b + (i + 1) = b + 1 + i by omega]
      exact entriesOk_spec h2 i (Nat.lt_of_succ_lt_succ hi)

theorem fragtbl_entries : ∀ shift < 4, entriesOk shift 0 (fragtbl shift) = true ∧ (fragtbl shift).length = 256 := by
  decide +kernel

theorem fragtbl_table : ∀ shift < 4, ∀ b < 256, ∀ n < 2 ^ shift,
    (fragtbl shift).getD b 0 &&& tblMask shift (n + 1) ≠ 0 ↔ ∃ k < 8 / 2 ^ shift, ∃ pos < 2 ^ shift - n,
        fits (n + 1) pos (b >>> (k * 2 ^ shift) &&& 0xff >>> (8 - 2 ^ shift)) = true := by
  intro shift hs b hb n hn
  obtain ⟨hok, hlen⟩ := fragtbl_entries shift hs
  have hle : 2 ^ shift < 9 := by
    interval_cases shift <;> decide
  have h1 := all_eq_true.1 (entriesOk_spec hok b (by omega)) n (mem_range.2 hn)
  have h2 := beq_iff_eq.1 h1
  have h3 : (Nat.beq (Nat.land ((fragtbl shift).getD b 0) (tblMask shift (n + 1))) 0).not = true ↔
      (fragtbl shift).getD b 0 &&& tblMask shift (n + 1) ≠ 0 := by
    rw [Bool.not_eq_true', ← Bool.not_eq_true, Nat.beq_eq]
    rfl
  rw [← h3, h2, any_eq_true]
  simp only [mem_range, any_eq_true, fitsPow_eq (show n + 1 < 9 by omega), Nat.zero_add]
  rfl

variable {shift fpg loc n : ℕ} {map : Map}

/-- The bits of a block of the map are those of its fragments. -/
theorem testBit_blkmap (hs : shift < 4) (hloc : 2 ^ shift ∣ loc) (j : ℕ) :
    (blkmap shift map loc).testBit j = (decide (j < 2 ^ shift) && isset map (loc + j)) := by
  have hmask : 0xff >>> (8 - 2 ^ shift) = 2 ^ 2 ^ shift - 1 := by
    interval_cases shift <;> rfl
  unfold blkmap isset
  rw [hmask, Nat.testBit_and, Nat.testBit_shiftRight, Nat.testBit_two_pow_sub_one, Bool.and_comm]
  by_cases hj : j < 2 ^ shift
  · have hin : (loc + j) / 8 = loc / 8 ∧ (loc + j) % 8 = loc % 8 + j := by
      interval_cases shift <;> omega
    rw [hin.1, hin.2]
    rfl
  · rw [decide_eq_false hj, Bool.false_and, Bool.false_and]

theorem testBit_blkmap_ge (hs : shift < 4) {i : ℕ} (hi : 2 ^ shift ≤ i) : (blkmap shift map loc).testBit i = false := by
  have hmask : 0xff >>> (8 - 2 ^ shift) = 2 ^ 2 ^ shift - 1 := by
    interval_cases shift <;> rfl
  unfold blkmap
  rw [hmask, Nat.testBit_and, Nat.testBit_two_pow_sub_one, decide_eq_false (Nat.not_lt.2 hi), Bool.and_false]

theorem frag_le (hs : shift < 4) : 2 ^ shift < 9 := by
  interval_cases shift <;> decide

theorem fits_iff (hs : shift < 4) (hn : 1 ≤ n) {pos : ℕ} (hpos : pos + n ≤ 2 ^ shift) :
    fits n pos (blkmap shift map loc) = true ↔ Run (2 ^ shift) (blkmap shift map loc) n pos :=
  fits_run (by have := frag_le hs; omega) hn hpos

/-- There are `n` free fragments in a row in a block if there is a run of `n` or more. -/
theorem exists_run_iff (hs : shift < 4) (hloc : 2 ^ shift ∣ loc) (hle : n ≤ 2 ^ shift) :
    (∃ pos, pos + n ≤ 2 ^ shift ∧ ∀ i < n, isset map (loc + (pos + i)) = true) ↔
      ∃ a, n ≤ a ∧ ∃ pos, Run (2 ^ shift) (blkmap shift map loc) a pos := by
  constructor
  · rintro ⟨pos, hpos, hall⟩
    refine exists_run (fun _ => testBit_blkmap_ge hs) (2 ^ shift - n) n pos (by omega) hpos fun i hi => ?_
    rw [testBit_blkmap hs hloc, hall i hi, decide_eq_true (by omega), Bool.and_true]
  · rintro ⟨a, hna, pos, hrun⟩
    refine ⟨pos, by have := hrun.1; omega, fun i hi => ?_⟩
    have hbit := hrun.2.1 i (by omega)
    rw [testBit_blkmap hs hloc, Bool.and_eq_true] at hbit
    exact hbit.2

/-! ### The search -/

/-- The byte has a run of `a` fragments, by the table. -/
def Hit (shift : ℕ) (map : Map) (a byte : ℕ) : Prop :=
  (fragtbl shift).getD (map byte).toNat 0 &&& tblMask shift a ≠ 0

theorem eight_eq (hs : shift < 4) : 8 = 8 / 2 ^ shift * 2 ^ shift := by
  interval_cases shift <;> rfl

/-- The table is right about each block of a byte. -/
theorem hit_iff (hs : shift < 4) (hn : 1 ≤ n) (hle : n ≤ 2 ^ shift) (byte : ℕ) :
    Hit shift map n byte ↔ ∃ k < 8 / 2 ^ shift, ∃ pos, pos + n ≤ 2 ^ shift ∧
      fits n pos (blkmap shift map (byte * 8 + k * 2 ^ shift)) = true := by
  obtain ⟨m, rfl⟩ : ∃ m, n = m + 1 := ⟨n - 1, by omega⟩
  have hblk : ∀ k < 8 / 2 ^ shift, blkmap shift map (byte * 8 + k * 2 ^ shift) =
      (map byte).toNat >>> (k * 2 ^ shift) &&& 0xff >>> (8 - 2 ^ shift) := by
    intro k hk
    have hlt : k * 2 ^ shift < 8 := by
      calc k * 2 ^ shift < 8 / 2 ^ shift * 2 ^ shift := Nat.mul_lt_mul_of_pos_right hk (by positivity)
        _ = 8 := (eight_eq hs).symm
    unfold blkmap
    rw [show (byte * 8 + k * 2 ^ shift) / 8 = byte by omega,
      show (byte * 8 + k * 2 ^ shift) % 8 = k * 2 ^ shift by omega]
  unfold Hit
  rw [fragtbl_table shift hs _ (map byte).isLt m (by omega)]
  constructor
  · rintro ⟨k, hk, pos, hpos, hfit⟩
    exact ⟨k, hk, pos, by omega, by rwa [hblk k hk]⟩
  · rintro ⟨k, hk, pos, hpos, hfit⟩
    exact ⟨k, hk, pos, by omega, by rwa [hblk k hk] at hfit⟩

/-- What `scanc` gives. -/
theorem scanc_spec (map : Map) (shift a : ℕ) : ∀ (size i : ℕ),
    (scanc map (fragtbl shift) (tblMask shift a) size i = 0 ∧ ∀ j < size, ¬ Hit shift map a (i + j)) ∨
      ∃ j < size, scanc map (fragtbl shift) (tblMask shift a) size i = size - j ∧ Hit shift map a (i + j)
  | 0, i => .inl ⟨rfl, fun j hj => absurd hj (Nat.not_lt_zero j)⟩
  | size + 1, i => by
    rw [scanc]
    split_ifs with hit
    · rcases scanc_spec map shift a size (i + 1) with ⟨hz, hno⟩ | ⟨j, hj, hv, hyes⟩
      · refine .inl ⟨hz, fun j hj => ?_⟩
        cases j with
        | zero => exact fun h => h hit
        | succ j =>
          rw [show i + (j + 1) = i + 1 + j by omega]
          exact hno j (by omega)
      · refine .inr ⟨j + 1, by omega, by omega, ?_⟩
        rwa [show i + (j + 1) = i + 1 + j by omega]
    · exact .inr ⟨0, by omega, rfl, hit⟩

/-- The loop over the blocks of a byte finds the run that the table has promised. -/
theorem sift_spec {a : ℕ} : ∀ (turns bno : ℕ),
    (∃ k < turns, ∃ pos, pos + a ≤ 2 ^ shift ∧ fits a pos (blkmap shift map (bno + k * 2 ^ shift)) = true) →
    ∃ k < turns, ∃ pos, pos + a ≤ 2 ^ shift ∧ fits a pos (blkmap shift map (bno + k * 2 ^ shift)) = true ∧
      sift shift map a turns bno = some (bno + k * 2 ^ shift + pos)
  | 0, _, ⟨_, hk, _⟩ => absurd hk (Nat.not_lt_zero _)
  | turns + 1, bno, ⟨k, hk, pos, hpos, hfit⟩ => by
    rw [sift]
    cases hfind : (List.range (2 ^ shift - a + 1)).find? fun pos => fits a pos (blkmap shift map bno) with
    | some q =>
      have hq := mem_range.1 (mem_of_find?_eq_some hfind)
      have hfits := find?_some (p := fun pos => fits a pos (blkmap shift map bno)) hfind
      refine ⟨0, by omega, q, by omega, ?_, ?_⟩
      · rwa [Nat.zero_mul, Nat.add_zero]
      · rw [Nat.zero_mul, Nat.add_zero]
    | none =>
      cases k with
      | zero =>
        rw [Nat.zero_mul, Nat.add_zero] at hfit
        exact absurd hfit (find?_eq_none.1 hfind pos (mem_range.2 (by omega)))
      | succ k =>
        have hnext : ∀ k, bno + (k + 1) * 2 ^ shift = bno + 2 ^ shift + k * 2 ^ shift := by
          intro k
          rw [Nat.succ_mul]
          omega
        obtain ⟨k', hk', q, hq, hfit', hs⟩ := sift_spec turns (bno + 2 ^ shift)
          ⟨k, by omega, pos, hpos, by rwa [hnext] at hfit⟩
        refine ⟨k' + 1, by omega, q, hq, ?_, ?_⟩
        · rwa [hnext]
        · rw [hnext]
          exact hs

/-- `mapsearch` finds a run of the size if there is one; it does not panic. -/
theorem mapsearch_spec (hs : shift < 4) (hfpg : 2 ^ shift ∣ fpg) (hpos : 0 < fpg) {frotor bpref a : ℕ}
    (hrotor : frotor < fpg) (hout : ∀ i, fpg ≤ i → isset map i = false) (ha : 1 ≤ a) (hale : a ≤ 2 ^ shift) :
    (∃ b < fpg / 2 ^ shift, ∃ pos, Run (2 ^ shift) (blkmap shift map (b * 2 ^ shift)) a pos ∧
      ∃ r, mapsearch shift fpg map frotor bpref a = some (some (b * 2 ^ shift + pos, r))) ∨
    (∀ b < fpg / 2 ^ shift, ∀ pos, ¬ Run (2 ^ shift) (blkmap shift map (b * 2 ^ shift)) a pos) ∧
      mapsearch shift fpg map frotor bpref a = some none := by
  obtain ⟨start, hstart⟩ : ∃ start, start = if 0 < bpref then bpref % fpg / 8 else frotor / 8 := ⟨_, rfl⟩
  have hlt : start < (fpg + 7) / 8 := by
    have := Nat.mod_lt bpref hpos
    split_ifs at hstart <;> omega
  -- what follows from a byte that the table has a run for
  have hbyte : ∀ byte, Hit shift map a byte → ∃ b < fpg / 2 ^ shift, ∃ pos,
      Run (2 ^ shift) (blkmap shift map (b * 2 ^ shift)) a pos ∧
      ((sift shift map a (8 / 2 ^ shift) (byte * 8)).map fun r => some (r, byte * 8)) =
        some (some (b * 2 ^ shift + pos, byte * 8)) := by
    intro byte hit
    obtain ⟨k, -, pos, hfit, hf, hsift⟩ := sift_spec _ _ ((hit_iff hs ha hale byte).1 hit)
    have hb : (byte * (8 / 2 ^ shift) + k) * 2 ^ shift = byte * 8 + k * 2 ^ shift := by
      rw [Nat.add_mul, Nat.mul_assoc, ← eight_eq hs]
    have hrun := (fits_iff hs ha hfit).1 hf
    rw [← hb] at hrun hsift
    refine ⟨byte * (8 / 2 ^ shift) + k, ?_, pos, hrun, by rw [hsift]; rfl⟩
    -- the fragments behind the map are not free
    by_contra hge
    have hbit := hrun.2.1 0 (by omega)
    rw [testBit_blkmap hs (Nat.dvd_mul_left _ _), hout, Bool.and_false] at hbit
    · exact absurd hbit Bool.false_ne_true
    · calc fpg = fpg / 2 ^ shift * 2 ^ shift := (Nat.div_mul_cancel hfpg).symm
        _ ≤ (byte * (8 / 2 ^ shift) + k) * 2 ^ shift := Nat.mul_le_mul_right _ (Nat.not_lt.1 hge)
        _ ≤ _ := Nat.le_add_right _ _
  unfold mapsearch
  rw [← hstart]
  dsimp only
  rcases scanc_spec map shift a ((fpg + 7) / 8 - start) start with ⟨hz, hno⟩ | ⟨j, hj, hv, hit⟩
  · rw [if_pos hz]
    rcases scanc_spec map shift a (start + 1) 0 with ⟨hz', hno'⟩ | ⟨j, hj, hv, hit⟩
    · rw [if_pos hz']
      refine .inr ⟨fun b hb pos hrun => ?_, rfl⟩
      -- the block is in a byte, which is in one of the two parts
      have hblt : b * 2 ^ shift < fpg := by
        calc b * 2 ^ shift < fpg / 2 ^ shift * 2 ^ shift := Nat.mul_lt_mul_of_pos_right hb (by positivity)
          _ = fpg := Nat.div_mul_cancel hfpg
      have hit : Hit shift map a (b * 2 ^ shift / 8) := by
        refine (hit_iff hs ha hale _).2 ⟨b % (8 / 2 ^ shift), Nat.mod_lt _ ?_, pos, hrun.1, ?_⟩
        · interval_cases shift <;> decide
        · have heq : b * 2 ^ shift / 8 * 8 + b % (8 / 2 ^ shift) * 2 ^ shift = b * 2 ^ shift := by
            interval_cases shift <;> omega
          rw [heq]
          exact (fits_iff hs ha hrun.1).2 hrun
      rcases Nat.lt_or_ge (b * 2 ^ shift / 8) start with hb' | hb'
      · have := hno' (b * 2 ^ shift / 8) (by omega)
        rw [Nat.zero_add] at this
        exact this hit
      · have := hno (b * 2 ^ shift / 8 - start) (by omega)
        rw [Nat.add_sub_cancel' hb'] at this
        exact this hit
    · rw [Nat.zero_add] at hit
      rw [if_neg (by omega), hv, show start + 1 - (start + 1 - j) = j by omega]
      obtain ⟨b, hb, pos, hrun, hm⟩ := hbyte j hit
      exact .inl ⟨b, hb, pos, hrun, j * 8, hm⟩
  · rw [if_neg (by omega), hv, show start + ((fpg + 7) / 8 - start) - ((fpg + 7) / 8 - start - j) = start + j by omega]
    obtain ⟨b, hb, pos, hrun, hm⟩ := hbyte (start + j) hit
    exact .inl ⟨b, hb, pos, hrun, (start + j) * 8, hm⟩

end UfsAlloc

end Hpux
