import Mathlib

/-!
# From a request to a range of bytes

Both `fcntl` and `lockf` turn what the user asks for into a range `[LB, UB)` of bytes of the file, which is
what the lock list is searched and changed with.  They calculate in 32 bits.

* `fcntlRange`, `lockfRange` : the two entry points, with the additions that they make on the way.
* `named` : the bytes that a request names.
* `Right` : the range is that of the request, and no addition has wrapped around.
* `fcntl_right_iff`, `lockf_right_iff`, `lock_range_iff` : exactly when it is.
-/

namespace Hpux

namespace Lockf

inductive RangeErr
  | EINVAL
  | EBADF
  /-- what `VOP_GETATTR` returned -/
  | getattr (e : ℕ)
  deriving DecidableEq

def MAX_LOCK_SIZE : BitVec 32 := 0x7fffffff#32

/-- `l_type` -/
inductive FlockType
  | F_RDLCK
  | F_WRLCK
  | F_UNLCK
  | other
  deriving DecidableEq

/-- `struct flock`, as far as the user fills it in. -/
structure Flock where
  lType : FlockType
  lWhence : BitVec 16
  lStart : BitVec 32
  lLen : BitVec 32
  deriving DecidableEq

/-- What is read of the open file: is it a vnode, is that a fifo, `FREAD` and `FWRITE` of `f_flag`, `f_offset`,
and what `VOP_GETATTR` says about the size. -/
structure OpenFile where
  vnode : Bool
  fifo : Bool
  fread : Bool
  fwrite : Bool
  fOffset : BitVec 32
  vaSize : Except ℕ (BitVec 32)

inductive FcntlCmd
  | F_GETLK
  | F_SETLK
  | F_SETLKW
  deriving DecidableEq

/-- An addition: what it should come to, and what it comes to. -/
structure Addition where
  sum : ℤ
  got : BitVec 32

def plus (a b : BitVec 32) : Addition := ⟨a.toInt + b.toInt, a + b⟩

/-- What the entry points come to: the range that goes to the file system, and the additions. -/
abbrev Outcome := Except RangeErr (BitVec 32 × BitVec 32) × List Addition

/-- `LB` before it is checked. -/
def fcntlLB (fl : Flock) (fp : OpenFile) : Except RangeErr (BitVec 32) × List Addition :=
  if fl.lWhence = 1 then (.ok (fl.lStart + fp.fOffset), [plus fl.lStart fp.fOffset])
  else if fl.lWhence = 2 then
    match fp.vaSize with
    | .error e => (.error (.getattr e), [])
    -- `va_size` is unsigned
    | .ok size => (.ok (fl.lStart + size), [⟨fl.lStart.toInt + size.toNat, fl.lStart + size⟩])
  else if fl.lWhence ≠ 0 then (.error .EINVAL, [])
  else (.ok fl.lStart, [])

/-- The checks of the lock type and of the access. -/
def fcntlAccess (cmd : FcntlCmd) (fl : Flock) (fp : OpenFile) : Except RangeErr Unit :=
  if fl.lType = .other then .error .EINVAL
  else if (cmd = .F_SETLK ∨ cmd = .F_SETLKW) ∧
      (fl.lType = .F_RDLCK ∧ fp.fread = false ∨ fl.lType = .F_WRLCK ∧ fp.fwrite = false) then .error .EBADF
  else .ok ()

/-- The range, when `LB` is known. -/
def fcntlUB (cmd : FcntlCmd) (fl : Flock) (fp : OpenFile) (LB : BitVec 32) (adds : List Addition) : Outcome :=
  if MAX_LOCK_SIZE.slt LB = false ∧ LB.slt 0 then (.error .EINVAL, adds)
  else
    let LB := if MAX_LOCK_SIZE.slt LB then MAX_LOCK_SIZE else LB
    if fl.lLen = 0 then ((fcntlAccess cmd fl fp).map fun _ => (LB, MAX_LOCK_SIZE), adds)
    else
      let adds := adds ++ [plus LB fl.lLen]
      let UB := LB + fl.lLen
      let UB := if MAX_LOCK_SIZE.slt UB then MAX_LOCK_SIZE else UB
      if UB.slt 0 ∨ UB.slt LB ∨ UB = LB then (.error .EINVAL, adds)
      else ((fcntlAccess cmd fl fp).map fun _ => (LB, UB), adds)

/-- The cases `F_GETLK`, `F_SETLK` and `F_SETLKW` of `fcntl`, up to `VOP_LOCKCTL`. -/
def fcntlRange (cmd : FcntlCmd) (fl : Flock) (fp : OpenFile) : Outcome :=
  if fp.vnode = false then (.error .EINVAL, [])
  else
    match fcntlLB fl fp with
    | (.error e, adds) => (.error e, adds)
    | (.ok LB, adds) => fcntlUB cmd fl fp LB adds

def F_ULOCK : ℤ := 0

def F_LOCK : ℤ := 1

def F_TLOCK : ℤ := 2

def F_TEST : ℤ := 3

/-- The checks of `lockf` before the range; `privLockRdonly` is `in_privgrp(PRIV_LOCKRDONLY, 0)`. -/
def lockfCheck (flag : ℤ) (fp : OpenFile) (privLockRdonly : Bool) (offset : BitVec 32) : Except RangeErr Unit :=
  if fp.vnode = false then .error .EINVAL
  else if (flag = F_LOCK ∨ flag = F_TLOCK) ∧ fp.fread ∧ fp.fwrite = false ∧ privLockRdonly = false then
    .error .EBADF
  else if flag > F_TEST ∨ flag < F_ULOCK ∨ MAX_LOCK_SIZE.slt offset then .error .EINVAL
  else .ok ()

/-- The offset of a pipe is always 0. -/
def lockfOffset (fp : OpenFile) : BitVec 32 := if fp.fifo then 0 else fp.fOffset

/-- `lockf`, up to `VOP_LOCKF`. -/
def lockfRange (flag : ℤ) (size : BitVec 32) (fp : OpenFile) (privLockRdonly : Bool) : Outcome :=
  let offset := lockfOffset fp
  match lockfCheck flag fp privLockRdonly offset with
  | .error e => (.error e, [])
  | .ok _ =>
    let adds := [plus offset size]
    if size.slt 0 then
      let UB := offset
      let LB := UB + size
      if LB.slt 0 then (.error .EINVAL, adds)
      else if LB = UB then (.error .EINVAL, adds)
      else (.ok (LB, UB), adds)
    else
      let LB := offset
      let UB := LB + size
      let UB := if UB.sle 0 ∨ size = 0 ∨ MAX_LOCK_SIZE.slt UB then MAX_LOCK_SIZE else UB
      if LB = UB then (.error .EINVAL, adds)
      else (.ok (LB, UB), adds)

/-! ### What is asked for -/

/-- The bytes from `start` on, as many as `len` says, or those before it; all of them up to the largest one
when it is 0. -/
def named (start len : ℤ) : Set ℤ :=
  {b | if len = 0 then start ≤ b ∧ b < MAX_LOCK_SIZE.toInt
    else if 0 < len then start ≤ b ∧ b < start + len
    else start + len ≤ b ∧ b < start}

/-- Where the request of `fcntl` starts. -/
def fcntlStart (fl : Flock) (fp : OpenFile) : Option ℤ :=
  if fl.lWhence = 1 then some (fl.lStart.toInt + fp.fOffset.toInt)
  else if fl.lWhence = 2 then fp.vaSize.toOption.map fun size => fl.lStart.toInt + size.toNat
  else if fl.lWhence = 0 then some fl.lStart.toInt
  else none

/-- A range that reaches the lock list is not empty, within the limits, and that of the request; and no
addition wraps around. -/
def Right (start : Option ℤ) (len : ℤ) (out : Outcome) : Prop :=
  (∀ LB UB, out.1 = .ok (LB, UB) → 0 ≤ LB.toInt ∧ LB.toInt < UB.toInt ∧ UB.toInt ≤ MAX_LOCK_SIZE.toInt ∧
    ∃ a, start = some a ∧ Set.Ico LB.toInt UB.toInt = named a len) ∧
  ∀ a ∈ out.2, a.got.toInt = a.sum

/-- The number is one of 32 bits. -/
def Fits (n : ℤ) : Prop := -2 ^ 31 ≤ n ∧ n < 2 ^ 31

/-- The sums fit, and the request is not for what is left of the file from the largest offset on. -/
def FcntlHolds (cmd : FcntlCmd) (fl : Flock) (fp : OpenFile) : Prop :=
  fp.vnode = true → ∀ start, fcntlStart fl fp = some start → Fits start ∧
    (0 ≤ start → (fl.lLen ≠ 0 → Fits (start + fl.lLen.toInt)) ∧
      (fl.lLen = 0 → start = MAX_LOCK_SIZE.toInt → ∃ e, fcntlAccess cmd fl fp = .error e))

/-- The sum fits, and a request for the bytes from the offset on is not made at a negative one. -/
def LockfHolds (flag : ℤ) (size : BitVec 32) (fp : OpenFile) (privLockRdonly : Bool) : Prop :=
  lockfCheck flag fp privLockRdonly (lockfOffset fp) = .ok () →
    Fits ((lockfOffset fp).toInt + size.toInt) ∧ (0 ≤ size.toInt → 0 ≤ (lockfOffset fp).toInt)

/-! ### Signed numbers of 32 bits -/

theorem fits_toInt (a : BitVec 32) : Fits a.toInt :=
  ⟨by have := BitVec.le_toInt a; omega, by have := BitVec.toInt_lt (x := a); omega⟩

@[simp]
theorem max_toInt : MAX_LOCK_SIZE.toInt = 2147483647 := by decide

@[simp]
theorem max_not_slt (a : BitVec 32) : MAX_LOCK_SIZE.slt a = false := by
  have h := (fits_toInt a).2
  rw [BitVec.slt, max_toInt]
  simp only [decide_eq_false_iff_not]
  omega

theorem slt_zero_iff (a : BitVec 32) : a.slt 0 = true ↔ a.toInt < 0 := by
  rw [BitVec.slt_iff_toInt_lt]
  rfl

theorem add_toInt_iff (a b : BitVec 32) : (a + b).toInt = a.toInt + b.toInt ↔ Fits (a.toInt + b.toInt) := by
  constructor
  · intro h
    rw [← h]
    exact fits_toInt _
  · rintro ⟨h1, h2⟩
    rw [BitVec.toInt_add, Int.bmod_def]
    split_ifs <;> omega

theorem add_toNat_iff (a b : BitVec 32) : (a + b).toInt = a.toInt + b.toNat ↔ Fits (a.toInt + b.toNat) := by
  constructor
  · intro h
    rw [← h]
    exact fits_toInt _
  · rintro ⟨h1, h2⟩
    rw [BitVec.toInt_add, Int.bmod_def, BitVec.toInt_eq_toNat_cond b]
    split_ifs <;> omega

theorem toInt_eq_zero_iff (a : BitVec 32) : a.toInt = 0 ↔ a = 0 := by
  constructor
  · intro h
    exact BitVec.eq_of_toInt_eq (by rw [h]; rfl)
  · rintro rfl
    rfl

/-! ### `fcntl` -/

variable {cmd : FcntlCmd} {fl : Flock} {fp : OpenFile} {LB UB : BitVec 32} {adds : List Addition} {start len : ℤ}

theorem right_error {e : RangeErr} {s : Option ℤ} :
    Right s len (.error e, adds) ↔ ∀ a ∈ adds, a.got.toInt = a.sum :=
  ⟨fun h => h.2, fun h => ⟨nofun, h⟩⟩

theorem right_range :
    Right (some start) len (.ok (LB, UB), adds) ↔ (0 ≤ LB.toInt ∧ LB.toInt < UB.toInt ∧
      UB.toInt ≤ MAX_LOCK_SIZE.toInt ∧ Set.Ico LB.toInt UB.toInt = named start len) ∧
      ∀ a ∈ adds, a.got.toInt = a.sum := by
  refine and_congr_left fun _ => ⟨fun h => ?_, ?_⟩
  · obtain ⟨h1, h2, h3, a, h4, h5⟩ := h LB UB rfl
    cases h4
    exact ⟨h1, h2, h3, h5⟩
  · rintro ⟨h1, h2, h3, h4⟩ _ _ ⟨⟩
    exact ⟨h1, h2, h3, start, rfl, h4⟩

theorem right_access : Right (some start) len ((fcntlAccess cmd fl fp).map fun _ => (LB, UB), adds) ↔
      ((∃ e, fcntlAccess cmd fl fp = .error e) ∨ 0 ≤ LB.toInt ∧ LB.toInt < UB.toInt ∧
        UB.toInt ≤ MAX_LOCK_SIZE.toInt ∧ Set.Ico LB.toInt UB.toInt = named start len) ∧
      ∀ a ∈ adds, a.got.toInt = a.sum := by
  cases fcntlAccess cmd fl fp with
  | error e => simp [Except.map, right_error]
  | ok _ => simp [Except.map, right_range]

theorem named_zero (start : ℤ) : named start 0 = Set.Ico start MAX_LOCK_SIZE.toInt := by
  ext b
  simp [named]

theorem named_pos (start : ℤ) (h : 0 < len) : named start len = Set.Ico start (start + len) := by
  ext b
  simp [named, h, h.ne']

theorem named_neg (start : ℤ) (h : len < 0) : named start len = Set.Ico (start + len) start := by
  ext b
  simp [named, h.ne, not_lt.2 h.le]

/-- `LB` is right when what it is made of fits, and `UB` then too. -/
theorem fcntlUB_right_iff (hLB : LB.toInt = start ↔ Fits start)
    (hadds : (∀ a ∈ adds, a.got.toInt = a.sum) ↔ Fits start) :
    Right (some start) fl.lLen.toInt (fcntlUB cmd fl fp LB adds) ↔ Fits start ∧
      (0 ≤ start → (fl.lLen ≠ 0 → Fits (start + fl.lLen.toInt)) ∧
        (fl.lLen = 0 → start = MAX_LOCK_SIZE.toInt → ∃ e, fcntlAccess cmd fl fp = .error e)) := by
  by_cases hfits : Fits start
  swap
  · refine iff_of_false (fun h => hfits (hadds.1 fun a ha => h.2 a ?_)) fun h => hfits h.1
    unfold fcntlUB
    simp only
    split_ifs <;> simp [ha]
  obtain rfl := hLB.2 hfits
  have hok := hadds.2 hfits
  have hlarge := hfits.2
  simp only [hfits, true_and]
  unfold fcntlUB
  simp only [max_not_slt, true_and, slt_zero_iff, Bool.false_eq_true, if_false]
  by_cases hneg : LB.toInt < 0
  · rw [if_pos hneg, right_error]
    exact iff_of_true hok fun h => absurd hneg (not_lt.2 h)
  rw [if_neg hneg]
  have hpos : 0 ≤ LB.toInt := not_lt.1 hneg
  by_cases hlen : fl.lLen = 0
  · -- to the end of the file
    have hzero : fl.lLen.toInt = 0 := (toInt_eq_zero_iff _).2 hlen
    rw [if_pos hlen, right_access, hzero, named_zero, max_toInt]
    constructor
    · rintro ⟨he | ⟨-, h1, -⟩, -⟩ -
      · exact ⟨fun h => absurd hlen h, fun _ _ => he⟩
      · exact ⟨fun h => absurd hlen h, fun _ h => absurd h h1.ne⟩
    · intro h
      refine ⟨?_, hok⟩
      by_cases hmax : LB.toInt = 2147483647
      · exact .inl ((h hpos).2 hlen hmax)
      · exact .inr ⟨hpos, by omega, le_rfl, rfl⟩
  · have hne : fl.lLen.toInt ≠ 0 := fun h => hlen ((toInt_eq_zero_iff _).1 h)
    have hsum := add_toInt_iff LB fl.lLen
    have hadds' : (∀ a ∈ adds ++ [plus LB fl.lLen], a.got.toInt = a.sum) ↔
        Fits (LB.toInt + fl.lLen.toInt) := by
      simp only [List.forall_mem_append, List.forall_mem_singleton]
      exact ⟨fun h => hsum.1 h.2, fun h => ⟨hok, hsum.2 h⟩⟩
    have hgoal : (0 ≤ LB.toInt → (fl.lLen ≠ 0 → Fits (LB.toInt + fl.lLen.toInt)) ∧
        (fl.lLen = 0 → LB.toInt = MAX_LOCK_SIZE.toInt → ∃ e, fcntlAccess cmd fl fp = .error e)) ↔
        Fits (LB.toInt + fl.lLen.toInt) :=
      ⟨fun h => (h hpos).1 hlen, fun h _ => ⟨fun _ => h, fun h' => absurd h' hlen⟩⟩
    rw [if_neg hlen, hgoal]
    split_ifs with hbad
    · rw [right_error, hadds']
    · rw [right_access, hadds', and_iff_right_iff_imp]
      intro h
      rw [BitVec.slt_iff_toInt_lt, hsum.2 h, not_or, not_or] at hbad
      rw [hsum.2 h, max_toInt]
      have hfit := h.2
      refine .inr ⟨hpos, by omega, by omega, ?_⟩
      rw [named_pos _ (by omega)]

/-- `fcntl` gets it right exactly when the sums fit, except for the empty range at the largest offset. -/
theorem fcntl_right_iff (cmd : FcntlCmd) (fl : Flock) (fp : OpenFile) :
    Right (fcntlStart fl fp) fl.lLen.toInt (fcntlRange cmd fl fp) ↔ FcntlHolds cmd fl fp := by
  unfold fcntlRange FcntlHolds
  by_cases hv : fp.vnode = false
  · rw [if_pos hv, right_error, hv]
    simp
  rw [if_neg hv]
  simp only [Bool.not_eq_false] at hv
  simp only [hv, true_imp_iff]
  unfold fcntlLB fcntlStart
  by_cases h1 : fl.lWhence = 1
  · simp only [if_pos h1, Option.some.injEq, forall_eq']
    refine fcntlUB_right_iff (add_toInt_iff _ _) ?_
    simp only [List.forall_mem_singleton]
    exact add_toInt_iff _ _
  simp only [if_neg h1]
  by_cases h2 : fl.lWhence = 2
  · simp only [if_pos h2]
    cases fp.vaSize with
    | error e => simp [right_error, Except.toOption]
    | ok size =>
      simp only [Except.toOption, Option.map_some, Option.some.injEq, forall_eq']
      refine fcntlUB_right_iff (add_toNat_iff _ _) ?_
      simp only [List.forall_mem_singleton]
      exact add_toNat_iff _ _
  simp only [if_neg h2]
  by_cases h3 : fl.lWhence = 0
  · simp only [h3, ne_eq, not_true_eq_false, if_false, if_true, Option.some.injEq, forall_eq']
    exact fcntlUB_right_iff (iff_of_true rfl (fits_toInt _)) (iff_of_true nofun (fits_toInt _))
  · simp only [h3, ne_eq, not_false_eq_true, if_true, if_false, right_error]
    simp

/-! ### `lockf` -/

/-- `lockf` gets it right exactly when the sum fits and the offset is not negative where it is the start. -/
theorem lockf_right_iff (flag : ℤ) (size : BitVec 32) (fp : OpenFile) (privLockRdonly : Bool) :
    Right (some (lockfOffset fp).toInt) size.toInt (lockfRange flag size fp privLockRdonly) ↔
      LockfHolds flag size fp privLockRdonly := by
  unfold lockfRange LockfHolds
  simp only
  generalize lockfOffset fp = offset
  cases hc : lockfCheck flag fp privLockRdonly offset with
  | error e => simp [right_error]
  | ok _ =>
    have hsum := add_toInt_iff offset size
    have hadds : (∀ a ∈ [plus offset size], a.got.toInt = a.sum) ↔ Fits (offset.toInt + size.toInt) := by
      rw [List.forall_mem_singleton]
      exact hsum
    simp only [slt_zero_iff, true_imp_iff]
    by_cases hneg : size.toInt < 0
    · rw [if_pos hneg]
      have hgoal : (Fits (offset.toInt + size.toInt) ∧ (0 ≤ size.toInt → 0 ≤ offset.toInt)) ↔
          Fits (offset.toInt + size.toInt) := and_iff_left fun h => absurd hneg (not_lt.2 h)
      rw [hgoal]
      split_ifs with h1 h2
      · rw [right_error, hadds]
      · rw [right_error, hadds]
      · rw [right_range, hadds, and_iff_right_iff_imp]
        intro h
        rw [hsum.2 h] at h1 ⊢
        have hoff := (fits_toInt offset).2
        exact ⟨not_lt.1 h1, by omega, by rw [max_toInt]; omega, (named_neg _ hneg).symm⟩
    · rw [if_neg hneg]
      by_cases hfits : Fits (offset.toInt + size.toInt)
      swap
      · refine iff_of_false (fun h => hfits (hadds.1 ?_)) fun h => hfits h.1
        split_ifs at h <;> exact h.2
      have hlarge := (fits_toInt offset).2
      have hsize : size = 0 ↔ size.toInt = 0 := (toInt_eq_zero_iff size).symm
      have hzero : (offset + size).sle 0 = true ↔ offset.toInt + size.toInt ≤ 0 := by
        rw [BitVec.sle_iff_toInt_le, hsum.2 hfits]
        rfl
      have hpos : 0 ≤ size.toInt := not_lt.1 hneg
      have hgoal : (Fits (offset.toInt + size.toInt) ∧ (0 ≤ size.toInt → 0 ≤ offset.toInt)) ↔
          0 ≤ offset.toInt := ⟨fun h => h.2 hpos, fun h => ⟨hfits, fun _ => h⟩⟩
      have hok := hadds.2 hfits
      rw [hgoal]
      simp only [max_not_slt, hzero, hsize, Bool.false_eq_true, or_false]
      by_cases h1 : offset.toInt + size.toInt ≤ 0 ∨ size.toInt = 0
      · -- to the end of the file
        rw [if_pos h1]
        split_ifs with h2
        · rw [right_error, h2, max_toInt]
          rw [h2] at hok
          exact iff_of_true hok (by decide)
        · have h3 : offset.toInt ≠ 2147483647 := fun h => h2 (BitVec.eq_of_toInt_eq (by rw [h, max_toInt]))
          rw [right_range, max_toInt]
          refine ⟨fun h => h.1.1, fun h => ⟨⟨h, by omega, le_rfl, ?_⟩, hok⟩⟩
          have h4 : size.toInt = 0 := by omega
          rw [h4, named_zero, max_toInt]
      · rw [if_neg h1]
        split_ifs with h2
        · have h3 := hsum.2 hfits
          rw [← h2] at h3
          omega
        · rw [right_range, hsum.2 hfits, max_toInt]
          have hlast := hfits.2
          exact ⟨fun h => h.1.1, fun h => ⟨⟨h, by omega, by omega, (named_pos _ (by omega)).symm⟩, hok⟩⟩

/-- The ranges that `fcntl` and `lockf` come to are exactly those of the requests when the sums fit, `fcntl`
is not asked for what is left from the largest offset on, and `lockf` not for the bytes from a negative offset
on; and only then. -/
theorem lock_range_iff (cmd : FcntlCmd) (fl : Flock) (flag : ℤ) (size : BitVec 32) (fp : OpenFile)
    (privLockRdonly : Bool) :
    (Right (fcntlStart fl fp) fl.lLen.toInt (fcntlRange cmd fl fp) ↔ FcntlHolds cmd fl fp) ∧
    (Right (some (lockfOffset fp).toInt) size.toInt (lockfRange flag size fp privLockRdonly) ↔
      LockfHolds flag size fp privLockRdonly) :=
  ⟨fcntl_right_iff cmd fl fp, lockf_right_iff flag size fp privLockRdonly⟩

/-- A lock from the largest offset to the end of the file is for no byte at all; and one of 200 bytes at the
offset -100 of a device starts there. -/
theorem lock_range_wrong :
    (∃ cmd fl fp, (fcntlRange cmd fl fp).1 = .ok (MAX_LOCK_SIZE, MAX_LOCK_SIZE) ∧
      ¬Right (fcntlStart fl fp) fl.lLen.toInt (fcntlRange cmd fl fp)) ∧
    ∃ flag size fp, (lockfRange flag size fp true).1 = .ok (-100#32, 100#32) ∧
      ¬Right (some (lockfOffset fp).toInt) size.toInt (lockfRange flag size fp true) := by
  refine ⟨⟨.F_SETLK, ⟨.F_WRLCK, 0, MAX_LOCK_SIZE, 0⟩, ⟨true, false, true, true, 0, .ok 0⟩, rfl, ?_⟩,
    F_LOCK, 200#32, ⟨true, false, true, true, -100#32, .ok 0⟩, rfl, ?_⟩
  · intro h
    have := (h.1 _ _ rfl).2.1
    exact absurd this (lt_irrefl _)
  · intro h
    have := (h.1 _ _ rfl).1
    revert this
    decide

end Lockf

end Hpux
