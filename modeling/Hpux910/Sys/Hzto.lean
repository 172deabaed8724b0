import Hpux910.Sys.KernClock
import Mathlib

/-!
# Ticks until a point of time

`hzto` of `sys/kern_clock.c` gives the clock ticks until a time of day, for `timeout`.

* `Timeval` : a time of day; the seconds are unsigned, the microseconds signed.
* `hzto` : the code, in 32 bits; `hztoExact` : the same without overflow.
* `ticksLeft` : the time that is left, rounded up to whole ticks.
* `Right` : what an answer should be.
* `hzto_right_iff` : the targets for which `hzto` is right.
-/

namespace Hpux

namespace Hzto

open Callouts (i32 i32_eq)

/-- The two machines; the code is compiled for each. -/
inductive Machine
  | s300
  | s800

/-- `HZ`, the clock ticks in a second. -/
def Machine.HZ : Machine → ℤ
  | .s300 => 50
  | .s800 => 100

/-- The microseconds of a tick. -/
def Machine.tick (m : Machine) : ℤ := 1000000 / m.HZ

/-- The most seconds for which the ticks are computed. -/
def Machine.limit (m : Machine) : ℤ := 0x7fffffff / m.HZ - m.HZ

/-- `struct timeval`, a time of day. -/
structure Timeval where
  tv_sec : ℤ
  tv_usec : ℤ
  sec_nonneg : 0 ≤ tv_sec
  sec_lt : tv_sec < 2 ^ 32
  usec_nonneg : 0 ≤ tv_usec
  usec_lt : tv_usec < 1000000

/-- `unsigned long` arithmetic. -/
def u32 (x : ℤ) : ℤ := x % 2 ^ 32

/-- The ticks of `sec` seconds and `usec` microseconds, by the expression in the code; `long` and `ulong` stand for
its signed and its unsigned arithmetic. -/
def ticks (m : Machine) (long ulong : ℤ → ℤ) (sec usec : ℤ) : ℤ :=
  ulong (ulong (sec * m.HZ) + ulong ((long (long (long usec + m.tick) - 1)).tdiv m.tick))

/-- `hzto`, with the time of day `now`. -/
def hzto (m : Machine) (now tv : Timeval) : ℤ :=
  let sec := u32 (tv.tv_sec - now.tv_sec)
  if sec ≤ m.limit then i32 (ticks m i32 u32 sec (tv.tv_usec - now.tv_usec)) else 0x7fffffff

/-- `hzto` without overflow. -/
def hztoExact (m : Machine) (now tv : Timeval) : ℤ :=
  let sec := tv.tv_sec - now.tv_sec
  if sec ≤ m.limit then ticks m id id sec (tv.tv_usec - now.tv_usec) else 0x7fffffff

namespace Timeval

/-- The microseconds from `now` to `tv`. -/
def left (now tv : Timeval) : ℤ := (tv.tv_sec - now.tv_sec) * 1000000 + (tv.tv_usec - now.tv_usec)

/-- `tv` is not before `now`. -/
def NotBefore (tv now : Timeval) : Prop := 0 ≤ now.left tv

instance (tv now : Timeval) : Decidable (tv.NotBefore now) := inferInstanceAs (Decidable (0 ≤ now.left tv))

end Timeval

/-- The time that is left, rounded up to whole ticks. -/
def ticksLeft (m : Machine) (now tv : Timeval) : ℤ := (now.left tv + m.tick - 1) / m.tick

/-- What the answer for `tv` should be: no later target has a smaller one; it is at most one tick for a target that
is not in the future; nothing has overflowed; it is the time left, up to one tick, if that fits in a `long`; and
it is the largest `long` only if that does not fit. -/
structure Right (m : Machine) (now tv : Timeval) : Prop where
  mono : ∀ later : Timeval, later.NotBefore tv → hzto m now tv ≤ hzto m now later
  past : now.NotBefore tv → hzto m now tv ≤ 1
  exact : hzto m now tv = hztoExact m now tv
  close : -2 ^ 31 ≤ ticksLeft m now tv → ticksLeft m now tv < 2 ^ 31 →
    ticksLeft m now tv ≤ hzto m now tv + 1 ∧ hzto m now tv ≤ ticksLeft m now tv + 1
  largest : hzto m now tv = 0x7fffffff → ¬ (-2 ^ 31 ≤ ticksLeft m now tv ∧ ticksLeft m now tv < 2 ^ 31)

/-! ### Rounding -/

/-- Division that truncates: the quotient of a negative number is the next greater one. -/
theorem tdiv_bounds {k : ℤ} (hk : 0 < k) (x : ℤ) :
    0 ≤ x ∧ k * x.tdiv k ≤ x ∧ x < k * x.tdiv k + k ∨ x < 0 ∧ x ≤ k * x.tdiv k ∧ k * x.tdiv k < x + k := by
  have hmod : k * x.tdiv k + x.tmod k = x := Int.mul_tdiv_add_tmod x k
  rcases Int.lt_or_le x 0 with hx | hx
  · have h1 : -k < x.tmod k := Int.lt_tmod_of_pos x hk
    have h2 : 0 ≤ (-x).tmod k := Int.tmod_nonneg k (by omega)
    rw [Int.neg_tmod] at h2
    exact .inr ⟨hx, by omega, by omega⟩
  · have h1 : x.tmod k < k := Int.tmod_lt_of_pos x hk
    have h2 : 0 ≤ x.tmod k := Int.tmod_nonneg k hx
    exact .inl ⟨hx, by omega, by omega⟩

/-- The ticks of a part of a second. -/
def frac (m : Machine) (usec : ℤ) : ℤ := (usec + m.tick - 1).tdiv m.tick

theorem HZ_s300 : Machine.s300.HZ = 50 := rfl

theorem HZ_s800 : Machine.s800.HZ = 100 := rfl

theorem tick_s300 : Machine.s300.tick = 20000 := rfl

theorem tick_s800 : Machine.s800.tick = 10000 := rfl

theorem HZ_pos (m : Machine) : 0 < m.HZ := by cases m <;> decide

theorem tick_pos (m : Machine) : 0 < m.tick := by cases m <;> decide

/-- The ticks of a part of a second are those of a second at most, in either direction. -/
theorem frac_bounds (m : Machine) {usec : ℤ} (h1 : -1000000 < usec) (h2 : usec < 1000000) :
    -m.HZ < frac m usec ∧ frac m usec ≤ m.HZ := by
  have hb := tdiv_bounds (tick_pos m) (usec + m.tick - 1)
  obtain ⟨q, hq⟩ : ∃ q, q = frac m usec := ⟨_, rfl⟩
  rw [← frac, ← hq] at hb
  rw [← hq]
  cases m
  · simp only [HZ_s300, tick_s300] at hb ⊢
    omega
  · simp only [HZ_s800, tick_s800] at hb ⊢
    omega

/-- The time left is rounded up, or one tick is added. -/
theorem ticksLeft_bounds (m : Machine) (now tv : Timeval) :
    ticksLeft m now tv ≤ (tv.tv_sec - now.tv_sec) * m.HZ + frac m (tv.tv_usec - now.tv_usec) ∧
      (tv.tv_sec - now.tv_sec) * m.HZ + frac m (tv.tv_usec - now.tv_usec) ≤ ticksLeft m now tv + 1 := by
  have hb := tdiv_bounds (tick_pos m) (tv.tv_usec - now.tv_usec + m.tick - 1)
  rw [← frac] at hb
  obtain ⟨q, hq⟩ : ∃ q, q = frac m (tv.tv_usec - now.tv_usec) := ⟨_, rfl⟩
  rw [← hq] at hb ⊢
  unfold ticksLeft Timeval.left
  cases m
  · simp only [HZ_s300, tick_s300] at hb ⊢
    omega
  · simp only [HZ_s800, tick_s800] at hb ⊢
    omega

/-! ### The code and the same without overflow -/

theorem ticks_exact (m : Machine) (sec usec : ℤ) : ticks m id id sec usec = sec * m.HZ + frac m usec := rfl

theorem ticks_eq (m : Machine) {sec usec : ℤ} (h : 0 ≤ sec) (hsec : sec ≤ m.limit) (h1 : -1000000 < usec)
    (h2 : usec < 1000000) : i32 (ticks m i32 u32 sec usec) = sec * m.HZ + frac m usec := by
  have hf := frac_bounds m h1 h2
  have hlong : i32 (i32 (i32 usec + m.tick) - 1) = usec + m.tick - 1 := by
    have ht : 0 < m.tick ∧ m.tick ≤ 20000 := by cases m <;> decide
    rw [i32_eq (x := usec) (by omega) (by omega), i32_eq (x := usec + m.tick) (by omega) (by omega),
      i32_eq (by omega) (by omega)]
  rw [ticks, hlong, ← frac]
  have hbound : sec * m.HZ + m.HZ < 2 ^ 31 ∧ 0 ≤ sec * m.HZ := by
    have hlim : (m.limit + 1) * m.HZ < 2 ^ 31 := by cases m <;> decide
    have hHZ := HZ_pos m
    have h3 : (sec + 1) * m.HZ ≤ (m.limit + 1) * m.HZ := Int.mul_le_mul_of_nonneg_right (by omega) (by omega)
    have h4 := Int.mul_nonneg h (Int.le_of_lt hHZ)
    rw [Int.add_mul, Int.one_mul] at h3
    omega
  have hHZ : m.HZ ≤ 100 := by cases m <;> decide
  obtain ⟨x, hx⟩ : ∃ x, x = sec * m.HZ := ⟨_, rfl⟩
  obtain ⟨q, hq⟩ : ∃ q, q = frac m usec := ⟨_, rfl⟩
  rw [← hx] at hbound ⊢
  rw [← hq] at hf ⊢
  have hconv : i32 (u32 (u32 x + u32 q)) = i32 (x + q) := by
    unfold i32 u32
    rw [← Int.add_emod]
    exact Int.emod_bmod (x + q) (2 ^ 32)
  rw [hconv, i32_eq (by omega) (by omega)]

theorem sub_usec (now tv : Timeval) :
    -1000000 < tv.tv_usec - now.tv_usec ∧ tv.tv_usec - now.tv_usec < 1000000 := by
  have := now.usec_nonneg
  have := now.usec_lt
  have := tv.usec_nonneg
  have := tv.usec_lt
  omega

/-- Nothing overflows for a target whose seconds are not past. -/
theorem hzto_exact (m : Machine) {now tv : Timeval} (h : now.tv_sec ≤ tv.tv_sec) :
    hzto m now tv = hztoExact m now tv := by
  have hsec : u32 (tv.tv_sec - now.tv_sec) = tv.tv_sec - now.tv_sec := by
    have := tv.sec_lt
    have := now.sec_nonneg
    unfold u32
    omega
  unfold hzto hztoExact
  rw [hsec]
  dsimp only
  split_ifs with hlim
  · exact ticks_eq m (by omega) hlim (sub_usec now tv).1 (sub_usec now tv).2
  · rfl

/-- The seconds of a target that are past are taken for a time in the future. -/
theorem hzto_past (m : Machine) {now tv : Timeval} (h : tv.tv_sec < now.tv_sec) :
    hztoExact m now tv ≤ 0 ∧ 0 < hzto m now tv := by
  obtain ⟨hu1, hu2⟩ := sub_usec now tv
  have hf := frac_bounds m hu1 hu2
  have hHZ := HZ_pos m
  have hlimit : 0 ≤ m.limit := by cases m <;> decide
  constructor
  · unfold hztoExact
    dsimp only
    rw [if_pos (by omega), ticks_exact]
    have h1 : (tv.tv_sec - now.tv_sec) * m.HZ ≤ (-1) * m.HZ :=
      Int.mul_le_mul_of_nonneg_right (by omega) (by omega)
    omega
  · unfold hzto
    dsimp only
    split_ifs with hlim
    · have hpos : 1 ≤ u32 (tv.tv_sec - now.tv_sec) := by
        have := tv.sec_nonneg
        have := now.sec_lt
        unfold u32
        omega
      rw [ticks_eq m (by omega) hlim hu1 hu2]
      have h1 : 1 * m.HZ ≤ u32 (tv.tv_sec - now.tv_sec) * m.HZ :=
        Int.mul_le_mul_of_nonneg_right hpos (by omega)
      omega
    · decide

theorem hzto_le (m : Machine) (now tv : Timeval) : hzto m now tv ≤ 0x7fffffff := by
  unfold hzto
  dsimp only
  split_ifs
  · have := Int.bmod_lt (x := ticks m i32 u32 (u32 (tv.tv_sec - now.tv_sec)) (tv.tv_usec - now.tv_usec))
      (m := 2 ^ 32) (by decide)
    exact Int.lt_add_one_iff.1 this
  · exact Int.le_refl _

/-- A later target has no smaller answer. -/
theorem hzto_mono (m : Machine) {now tv later : Timeval} (h : now.tv_sec ≤ tv.tv_sec)
    (hl : later.NotBefore tv) : hzto m now tv ≤ hzto m now later := by
  have hsec : tv.tv_sec ≤ later.tv_sec := by
    have := (sub_usec tv later).2
    unfold Timeval.NotBefore Timeval.left at hl
    omega
  by_cases hlim : later.tv_sec - now.tv_sec ≤ m.limit
  · rw [hzto_exact m h, hzto_exact m (Int.le_trans h hsec), hztoExact, hztoExact]
    rw [if_pos (by omega), if_pos hlim, ticks_exact, ticks_exact]
    have hb := tdiv_bounds (tick_pos m) (tv.tv_usec - now.tv_usec + m.tick - 1)
    have hb' := tdiv_bounds (tick_pos m) (later.tv_usec - now.tv_usec + m.tick - 1)
    rw [← frac] at hb hb'
    obtain ⟨q, hq⟩ : ∃ q, q = frac m (tv.tv_usec - now.tv_usec) := ⟨_, rfl⟩
    obtain ⟨q', hq'⟩ : ∃ q', q' = frac m (later.tv_usec - now.tv_usec) := ⟨_, rfl⟩
    rw [← hq] at hb ⊢
    rw [← hq'] at hb' ⊢
    unfold Timeval.NotBefore Timeval.left at hl
    cases m
    · simp only [HZ_s300, tick_s300] at hb hb' ⊢
      omega
    · simp only [HZ_s800, tick_s800] at hb hb' ⊢
      omega
  · have hmax : hzto m now later = 0x7fffffff := by
      rw [hzto_exact m (Int.le_trans h hsec), hztoExact]
      exact if_neg hlim
    rw [hmax]
    exact hzto_le m now tv

/-! ### When an answer is right -/

/-- `hzto` is right exactly for the targets whose seconds are not past, and which are near enough for the ticks to
be computed or too far for them to fit. -/
theorem hzto_right_iff (m : Machine) (now tv : Timeval) :
    Right m now tv ↔ now.tv_sec ≤ tv.tv_sec ∧
      (tv.tv_sec - now.tv_sec ≤ m.limit ∨ 2 ^ 31 ≤ ticksLeft m now tv) := by
  have hleft := ticksLeft_bounds m now tv
  constructor
  · intro h
    have hsec : now.tv_sec ≤ tv.tv_sec := by
      by_contra hlt
      have hpast := hzto_past m (Int.lt_of_not_ge hlt)
      have := h.exact
      omega
    refine ⟨hsec, ?_⟩
    by_contra hno
    rw [not_or] at hno
    -- the largest `long` for a time that fits
    have hmax : hzto m now tv = 0x7fffffff := by
      rw [hzto_exact m hsec, hztoExact]
      exact if_neg hno.1
    have hf := frac_bounds m (sub_usec now tv).1 (sub_usec now tv).2
    have hpos : 0 ≤ (tv.tv_sec - now.tv_sec) * m.HZ :=
      Int.mul_nonneg (by omega) (Int.le_of_lt (HZ_pos m))
    have hHZ : m.HZ ≤ 100 := by cases m <;> decide
    exact h.largest hmax (by omega)
  · rintro ⟨hsec, hlim⟩
    by_cases hle : tv.tv_sec - now.tv_sec ≤ m.limit
    · have hval : hzto m now tv = (tv.tv_sec - now.tv_sec) * m.HZ + frac m (tv.tv_usec - now.tv_usec) := by
        rw [hzto_exact m hsec, hztoExact]
        exact if_pos hle
      refine ⟨fun later hl => hzto_mono m hsec hl, fun hp => ?_, hzto_exact m hsec, fun _ _ => ?_, fun hmax => ?_⟩
      · have hl : ticksLeft m now tv ≤ 0 := by
          unfold ticksLeft
          unfold Timeval.NotBefore at hp
          have hneg : now.left tv ≤ 0 := by
            unfold Timeval.left at hp ⊢
            omega
          exact Int.lt_add_one_iff.1 (Int.ediv_lt_of_lt_mul (tick_pos m) (by omega))
        omega
      · omega
      · exfalso
        have hf := frac_bounds m (sub_usec now tv).1 (sub_usec now tv).2
        have hlt : (m.limit + 1) * m.HZ < 0x7fffffff := by cases m <;> decide
        have h1 : (tv.tv_sec - now.tv_sec) * m.HZ ≤ m.limit * m.HZ :=
          Int.mul_le_mul_of_nonneg_right hle (Int.le_of_lt (HZ_pos m))
        rw [Int.add_mul, Int.one_mul] at hlt
        omega
    · have hfar : 2 ^ 31 ≤ ticksLeft m now tv := hlim.resolve_left hle
      have hmax : hzto m now tv = 0x7fffffff := by
        rw [hzto_exact m hsec, hztoExact]
        exact if_neg hle
      refine ⟨fun later hl => hzto_mono m hsec hl, fun hp => ?_, hzto_exact m hsec, fun _ _ => ?_, fun _ => ?_⟩
      · exfalso
        have h0 : 0 ≤ m.limit := by cases m <;> decide
        have := (sub_usec now tv).1
        unfold Timeval.NotBefore Timeval.left at hp
        omega
      · omega
      · omega

/-- A target one second ago, for which the answer is the largest `long`; and one that leaves 2147482000 ticks, for
which it is that as well. -/
theorem hzto_too_long :
    ¬ Right .s300 ⟨10, 0, by decide, by decide, by decide, by decide⟩
        ⟨9, 0, by decide, by decide, by decide, by decide⟩ ∧
      ¬ Right .s300 ⟨0, 0, by decide, by decide, by decide, by decide⟩
        ⟨42949640, 0, by decide, by decide, by decide, by decide⟩ := by
  refine ⟨fun h => absurd (h.past (by decide)) (by decide), fun h => ?_⟩
  exact h.largest (by decide) (by decide)

end Hzto

end Hpux
