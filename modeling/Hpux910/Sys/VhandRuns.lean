import Hpux910.Sys.VmVhand
import Hpux910.Lib.TwoHands
import Mathlib

/-!
# The hands on one pregion

The indices of a pregion are the places of two hands on a circle of `p_count` pages.

* `Placed` : the indices stand for the hands.
* `agepages_spec`, `steal_spec` : the age hand goes on unless it is right behind the steal hand; the
  steal hand goes on when it is more than `keep` pages behind the age hand.
* `turn_spec`, `round_moves` : one visit, and a round of visits of both hands.
* `clock_moves_iff` : in every run from `activate_preg` one of the hands can move if and only if
  `keep` leaves room for it or the age hand is not up against the steal hand; and enough rounds with
  room bring both hands to every page.
-/

namespace Hpux

namespace Vhand

open List

/-- The pages from the steal hand to the age hand. -/
def Preg.gap (p : Preg) : ℕ :=
  if p.pStealscan ≤ p.pAgescan then p.pAgescan - p.pStealscan
  else p.pAgescan + p.pCount - p.pStealscan

/-- The distance from the age hand at which `localstop_index` stops the steal hand. -/
def keep (rp : Reg) (handlaps n : ℕ) : ℕ :=
  if rp.rIncore ≠ 0 ∧ handlaps * (n >>> logAgefraction) ≠ 0 then
    handlaps * (n >>> logAgefraction) else 1

/-- The hands may work on the region: it can be locked, is not swapped and not locked in memory, and
has valid pages. -/
def Reg.Open (rp : Reg) : Prop :=
  rp.rLock = true ∧ rp.rDbd = 0 ∧ rp.rNvalid ≠ 0 ∧ rp.rMlockcnt = 0

/-- `VOP_PAGEOUT` leaves the index behind the last page it looked at, which is one of the range. -/
def LegalPageout (pageout : ℕ → ℕ → ℕ) : Prop :=
  ∀ x y, x ≤ y → x < pageout x y ∧ pageout x y ≤ y + 1

/-- The indices of a pregion of `n` pages stand for the two hands. -/
structure Placed (n : ℕ) (h : Hands n) (p : Preg) : Prop where
  count : p.pCount = n
  age_le : p.pAgescan ≤ n
  steal_le : p.pStealscan ≤ n
  wrap : p.pAgescan = n → p.pStealscan ≠ 0 ∧ p.pStealscan ≠ n
  more : p.pStealscan = n → 1 < n
  gap : h.lead = h.tail + p.gap
  age : p.pAgescan % n = h.lead % n
  steal : p.pStealscan % n = h.tail % n

section

variable {n : ℕ} {h : Hands n} {p : Preg} {rp : Reg} {handlaps : ℕ}

theorem shift_eq (n : ℕ) : n >>> logAgefraction = n / 16 := Nat.shiftRight_eq_div_pow n 4

theorem keep_lt (hlaps : handlaps < agefraction) (hn : 2 ≤ n) : keep rp handlaps n < n := by
  unfold keep
  rw [shift_eq]
  split_ifs
  · have h1 : handlaps * (n / 16) ≤ 15 * (n / 16) :=
      Nat.mul_le_mul_right _ (Nat.le_of_lt_succ hlaps)
    omega
  · exact hn

theorem keep_pos : 1 ≤ keep rp handlaps n := by
  unfold keep
  split_ifs with hk
  · exact Nat.pos_of_ne_zero hk.2
  · exact le_rfl

/-! ### The age hand -/

theorem Placed.wrapAge (hp : Placed n h p) (hn : 1 ≤ n) :
    Placed n h (wrapAge p) ∧ (Vhand.wrapAge p).pAgescan < n := by
  obtain ⟨hc, ha, hs, hw, hm, hg, h1, h2⟩ := hp
  unfold Vhand.wrapAge
  by_cases hfull : p.pAgescan ≥ p.pCount
  · rw [if_pos hfull]
    obtain ⟨h3, h4⟩ := hw (by omega)
    refine ⟨⟨hc, Nat.zero_le n, hs, fun h => ?_, hm, ?_, ?_, h2⟩, hn⟩
    · exact absurd h (by show (0 : ℕ) ≠ n; omega)
    · rw [hg]
      simp only [Preg.gap]
      split_ifs <;> omega
    · rw [← h1, show p.pAgescan = n by omega, Nat.mod_self]
      exact Nat.zero_mod n
  · rw [if_neg hfull]
    exact ⟨⟨hc, ha, hs, hw, hm, hg, h1, h2⟩, by omega⟩

theorem Placed.upAgainst_iff (hp : Placed n h p) (ha : p.pAgescan < n) :
    UpAgainst p ↔ h.lead + 1 = h.tail + n := by
  have hg := hp.gap
  have hs := hp.steal_le
  have hc := hp.count
  unfold Preg.gap at hg
  unfold UpAgainst
  split_ifs at hg <;> omega

/-- What `numtoscan` keeps to. -/
theorem numtoscan_spec (numtoage : ℕ) (ha : p.pAgescan < p.pCount) (hup : ¬ UpAgainst p)
    (h1 : 1 ≤ numtoage) (h2 : 1 ≤ p.pAgeremain) :
    1 ≤ numtoscan p numtoage ∧ numtoscan p numtoage ≤ p.pAgeremain ∧
    p.pAgescan + numtoscan p numtoage ≤ p.pCount ∧
    (p.pAgescan < p.pStealscan → p.pAgescan + numtoscan p numtoage < p.pStealscan) ∧
    (p.pStealscan = 0 → p.pAgescan + numtoscan p numtoage < p.pCount) := by
  unfold UpAgainst at hup
  obtain ⟨a, ha'⟩ : ∃ a, a = min numtoage p.pAgeremain := ⟨_, rfl⟩
  obtain ⟨b, hb⟩ : ∃ b, b = if a > p.pCount - p.pAgescan then p.pCount - p.pAgescan else a :=
    ⟨_, rfl⟩
  obtain ⟨c, hc⟩ : ∃ c, c = if p.pAgescan < p.pStealscan ∧ p.pStealscan ≤ p.pAgescan + b then
    p.pStealscan - p.pAgescan - 1 else b := ⟨_, rfl⟩
  obtain ⟨d, hd⟩ : ∃ d, d = if p.pAgescan + c = p.pCount ∧ p.pStealscan = 0 then c - 1 else c :=
    ⟨_, rfl⟩
  have heq : numtoscan p numtoage = d := by
    rw [hd, hc, hb, ha']
    rfl
  have hb' : 1 ≤ b ∧ b ≤ p.pAgeremain ∧ p.pAgescan + b ≤ p.pCount := by
    rw [hb]
    split_ifs <;> omega
  have hc' : 1 ≤ c ∧ c ≤ p.pAgeremain ∧ p.pAgescan + c ≤ p.pCount ∧
      (p.pAgescan < p.pStealscan → p.pAgescan + c < p.pStealscan) := by
    rw [hc]
    split_ifs <;> omega
  rw [heq, hd]
  split_ifs <;> omega

/-- The loop of `agepages` ends by itself: more fuel makes no difference. -/
theorem agepagesLoop_enough (valid : ℕ → Bool) {fuel fuel' numtoage : ℕ} (hc : 0 < p.pCount)
    (h1 : 1 ≤ numtoage) (h2 : 1 ≤ p.pAgeremain) (hf : p.pAgeremain < fuel)
    (hf' : p.pAgeremain < fuel') :
    agepagesLoop valid fuel numtoage p = agepagesLoop valid fuel' numtoage p := by
  induction fuel generalizing fuel' numtoage p with
  | zero => omega
  | succ fuel ih =>
    obtain ⟨f', rfl⟩ : ∃ f', fuel' = f' + 1 := ⟨fuel' - 1, by omega⟩
    rw [agepagesLoop, agepagesLoop]
    obtain ⟨q, hq⟩ : ∃ q, q = wrapAge p := ⟨_, rfl⟩
    obtain ⟨hrem, hcount, hlt⟩ : q.pAgeremain = p.pAgeremain ∧ q.pCount = p.pCount ∧
        q.pAgescan < q.pCount := by
      rw [hq, wrapAge]
      split_ifs with hfull
      · exact ⟨rfl, rfl, hc⟩
      · exact ⟨rfl, rfl, not_le.1 hfull⟩
    rw [← hq]
    by_cases hup : UpAgainst q
    · rw [if_pos hup, if_pos hup]
    · obtain ⟨h3, -⟩ := numtoscan_spec numtoage hlt hup h1 (by omega)
      rw [if_neg hup, if_neg hup]
      dsimp only
      split_ifs with hmore
      · rw [@ih { q with
            pAgescan := q.pAgescan + numtoscan q numtoage
            pAgeremain := q.pAgeremain - numtoscan q numtoage } f' _ (by dsimp only; omega) hmore.1
          hmore.2 (by dsimp only; omega) (by dsimp only; omega)]
      · rfl

/-- A stretch of pages that the age hand scans. -/
theorem Placed.scan (hp : Placed n h p) {m : ℕ} (remain : ℕ) (ha : p.pAgescan < n) (hm : 1 ≤ m)
    (hfit : p.pAgescan + m ≤ n) (hs : p.pAgescan < p.pStealscan → p.pAgescan + m < p.pStealscan)
    (hz : p.pStealscan = 0 → p.pAgescan + m < n) :
    ∃ h' : Hands n, Placed n h' { p with pAgescan := p.pAgescan + m, pAgeremain := remain } ∧
      h'.tail = h.tail ∧ h'.lead = h.lead + m ∧
      visits n h'.lead = visits n h.lead ++ List.range' p.pAgescan m := by
  have hg := hp.gap
  have hc := hp.count
  have hle := hp.steal_le
  have h1 := hp.age
  unfold Preg.gap at hg
  have hwithin : h.lead + m < h.tail + n := by
    split_ifs at hg <;> omega
  refine ⟨⟨h.lead + m, h.tail, by have := h.behind; omega, hwithin⟩,
    ⟨hc, hfit, hle, fun hfull => ?_, hp.more, ?_, ?_, hp.steal⟩, rfl, rfl, visits_append h1 hfit⟩
  · have hfull : p.pAgescan + m = n := hfull
    refine ⟨fun h0 => absurd (hz h0) (by omega), fun h0 => ?_⟩
    have h0 : p.pStealscan = n := h0
    omega
  · simp only [Preg.gap]
    split_ifs at hg ⊢ <;> omega
  · show (p.pAgescan + m) % n = (h.lead + m) % n
    rw [Nat.add_mod, h1, ← Nat.add_mod]

/-- The loop of `agepages` scans pages in order, and stops behind the steal hand. -/
theorem agepagesLoop_spec (hn : 1 ≤ n) (valid : ℕ → Bool) (fuel : ℕ) {numtoage : ℕ}
    (hp : Placed n h p) (h1 : 1 ≤ numtoage) (h2 : 1 ≤ p.pAgeremain) :
    ∃ h' : Hands n, Placed n h' (agepagesLoop valid fuel numtoage p).1 ∧ h'.tail = h.tail ∧
      h.lead ≤ h'.lead ∧ (fuel ≠ 0 → h.lead + 1 ≠ h.tail + n → h.lead < h'.lead) ∧
      visits n h'.lead = visits n h.lead ++ (agepagesLoop valid fuel numtoage p).2 := by
  induction fuel generalizing h p numtoage with
  | zero => exact ⟨h, hp, rfl, le_rfl, fun h => absurd rfl h, (append_nil _).symm⟩
  | succ fuel ih =>
    obtain ⟨hp₀, ha⟩ := hp.wrapAge hn
    obtain ⟨q, hq⟩ : ∃ q, q = wrapAge p := ⟨_, rfl⟩
    have hrem : q.pAgeremain = p.pAgeremain := by
      rw [hq, wrapAge]
      split_ifs <;> rfl
    rw [← hq] at hp₀ ha
    rw [agepagesLoop, ← hq]
    by_cases hup : UpAgainst q
    · rw [if_pos hup]
      refine ⟨h, ⟨hp₀.count, hp₀.age_le, hp₀.steal_le, hp₀.wrap, hp₀.more, hp₀.gap, hp₀.age,
        hp₀.steal⟩, rfl, le_rfl, fun _ hne => ?_, (append_nil _).symm⟩
      exact absurd ((hp₀.upAgainst_iff ha).1 hup) hne
    · rw [if_neg hup]
      obtain ⟨m, hm⟩ : ∃ m, m = numtoscan q numtoage := ⟨_, rfl⟩
      obtain ⟨h3, h4, h5, h6, h7⟩ := numtoscan_spec numtoage
        (by rw [hp₀.count]; exact ha) hup h1 (by omega)
      rw [← hm] at h3 h4 h5 h6 h7
      rw [hp₀.count] at h5 h7
      obtain ⟨h', hp', ht', hl', hv'⟩ := hp₀.scan (q.pAgeremain - m) ha h3 h5 h6 h7
      dsimp only
      rw [← hm]
      by_cases hmore : numtoage - ((List.range' q.pAgescan m).filter valid).length > 0 ∧
          q.pAgeremain - m > 0
      · rw [if_pos hmore]
        obtain ⟨h'', hp'', ht'', hl'', -, hv''⟩ := ih hp' hmore.1 hmore.2
        refine ⟨h'', hp'', ht''.trans ht', by omega, fun _ _ => by omega, ?_⟩
        rw [hv'', hv', append_assoc]
      · rw [if_neg hmore]
        exact ⟨h', hp', ht', by omega, fun _ _ => by omega, hv'⟩

/-! ### The steal hand -/

/-- `localstop_index` is `keep` pages behind the age hand. -/
theorem localstop_eq (rp : Reg) (handlaps : ℕ) (hc : p.pCount = n) : localstop rp handlaps p =
    if (p.pAgescan : ℤ) - keep rp handlaps n ≤ 0 then (p.pAgescan : ℤ) - keep rp handlaps n + n
    else (p.pAgescan : ℤ) - keep rp handlaps n := by
  obtain ⟨t, ht⟩ : ∃ t, t = handlaps * (n >>> logAgefraction) := ⟨_, rfl⟩
  have hcast : (handlaps : ℤ) * ((n >>> logAgefraction : ℕ) : ℤ) = (t : ℤ) := by
    rw [ht]
    push_cast
    rfl
  unfold localstop keep
  rw [hc, hcast, ← ht]
  by_cases hin : rp.rIncore ≠ 0
  · by_cases hz : t = 0
    · simp [hin, hz]
    · have hne : (p.pAgescan : ℤ) - t ≠ p.pAgescan := by omega
      have hkeep : (if rp.rIncore ≠ 0 ∧ t ≠ 0 then t else 1) = t := if_pos ⟨hin, hz⟩
      simp only [hkeep, if_pos hin, if_neg hne]
  · simp [hin]

theorem Placed.between_iff (hp : Placed n h p) {k : ℕ} (hk : 1 ≤ k) (hkn : k < n ∨ n = 1) :
    CircBetween p.pStealscan (if (p.pAgescan : ℤ) - k ≤ 0 then (p.pAgescan : ℤ) - k + n
      else (p.pAgescan : ℤ) - k) p.pAgescan ↔ h.lead ≤ h.tail + k := by
  obtain ⟨hc, ha, hs, hw, hm, hg, -, -⟩ := hp
  unfold Preg.gap at hg
  unfold CircBetween
  rw [hc] at hg
  split_ifs at hg ⊢ <;> omega

/-- On a region that is open the steal hand works when it is far enough from the age hand. -/
theorem stealVisit_spec (hp : Placed n h p) (hopen : rp.Open) (hlaps : handlaps < agefraction)
    (hn : 1 ≤ n) (hmax : n < 2 ^ 31) (same : Bool) : (h.tail + keep rp handlaps n < h.lead →
      stealVisit rp handlaps same p = (.take (localstop rp handlaps p), p)) ∧
    (h.lead ≤ h.tail + keep rp handlaps n →
      ∃ ans, (∀ stop, ans ≠ .take stop) ∧ stealVisit rp handlaps same p = (ans, p)) := by
  have hkn : keep rp handlaps n < n ∨ n = 1 := by
    rcases Nat.lt_or_ge n 2 with hlt | hge
    · exact .inr (by omega)
    · exact .inl (keep_lt hlaps hge)
  have hbetween := hp.between_iff (k := keep rp handlaps n) keep_pos hkn
  rw [← localstop_eq rp handlaps hp.count] at hbetween
  obtain ⟨h1, h2, h3, h4⟩ := hopen
  have hclip : (if p.pAgescan > p.pCount then { p with pAgescan := p.pCount } else p) = p :=
    if_neg (by have := hp.age_le; have := hp.count; omega)
  -- the first test asks for less than the second
  have hfirst : handlaps = 0 →
      CircBetween p.pStealscan (((p.pAgescan : ℤ) - 1) % 2 ^ 32) p.pAgescan →
      h.lead ≤ h.tail + keep rp handlaps n := by
    intro hz hcirc
    have hkeep : keep rp handlaps n = 1 := by
      rw [keep, hz]
      simp
    rw [hkeep]
    obtain ⟨hc, ha, hs, hw, hm, hg, -, -⟩ := hp
    unfold Preg.gap at hg
    unfold CircBetween at hcirc
    rw [hc] at hg
    split_ifs at hg <;> omega
  have hrun : stealVisit rp handlaps same p =
      if handlaps = 0 ∧ same = true ∧
        CircBetween p.pStealscan (((p.pAgescan : ℤ) - 1) % 2 ^ 32) p.pAgescan then (.wait, p)
      else if CircBetween p.pStealscan (localstop rp handlaps p) p.pAgescan then
        (if handlaps = 0 ∧ same = true then .wait else .skip, p)
      else (.take (localstop rp handlaps p), p) := by
    rw [stealVisit, if_neg (by simp [h1]), if_neg (by simp [h2]), if_neg h3, if_neg (by simp [h4])]
    dsimp only
    rw [hclip]
  rw [hrun]
  constructor
  · intro hfar
    rw [if_neg fun hc => absurd (hfirst hc.1 hc.2.2) (not_le.2 hfar),
      if_neg fun hc => absurd (hbetween.1 hc) (not_le.2 hfar)]
  · intro hnear
    by_cases hc : handlaps = 0 ∧ same = true ∧
        CircBetween p.pStealscan (((p.pAgescan : ℤ) - 1) % 2 ^ 32) p.pAgescan
    · rw [if_pos hc]
      exact ⟨.wait, fun stop => nofun, rfl⟩
    · rw [if_neg hc, if_pos (hbetween.2 hnear)]
      refine ⟨_, fun stop => ?_, rfl⟩
      split_ifs <;> nofun

/-- The steal hand passes a region that is not open. -/
theorem stealVisit_closed (hclosed : ¬ rp.Open) (handlaps : ℕ) (same : Bool) (p : Preg) :
    ∃ ans, (∀ stop, ans ≠ .take stop) ∧ stealVisit rp handlaps same p = (ans, p) := by
  have hskip : ∀ stop, (if handlaps = 0 ∧ same = true then Steal.wait else .skip) ≠ .take stop := by
    intro stop
    split_ifs <;> nofun
  unfold stealVisit
  dsimp only
  by_cases h1 : rp.rLock = false
  · exact ⟨_, hskip, if_pos h1⟩
  rw [if_neg h1]
  by_cases h2 : rp.rDbd ≠ 0
  · exact ⟨_, hskip, if_pos h2⟩
  rw [if_neg h2]
  by_cases h3 : rp.rNvalid = 0
  · rw [if_pos h3]
    by_cases h4 : rp.rIncore = 0 ∧ rp.countvfd ≠ 0
    · rw [if_pos h4]
      split_ifs
      · exact ⟨.wait, fun _ => nofun, rfl⟩
      · exact ⟨.swap, fun _ => nofun, rfl⟩
    · exact ⟨_, hskip, if_neg h4⟩
  rw [if_neg h3]
  by_cases h4 : rp.rMlockcnt ≠ 0
  · exact ⟨_, hskip, if_pos h4⟩
  · exact absurd ⟨by simpa using h1, not_ne_iff.1 h2, h3, not_ne_iff.1 h4⟩ hclosed

/-- A stretch of pages that the steal hand takes. -/
theorem Placed.offer (hp : Placed n h p) {m : ℕ} (hm : 1 ≤ m) (hfit : p.pStealscan + m ≤ n)
    (hgap : m < p.gap) :
    ∃ h' : Hands n, Placed n h' { p with pStealscan := p.pStealscan + m } ∧
      h'.lead = h.lead ∧ h'.tail = h.tail + m ∧
      visits n h'.tail = visits n h.tail ++ List.range' p.pStealscan m := by
  obtain ⟨hc, ha, hs, hw, hone, hg, h1, h2⟩ := hp
  have hwithin := h.within
  refine ⟨⟨h.lead, h.tail + m, by omega, by omega⟩, ⟨hc, ha, hfit, fun hfull => ?_, fun hfull => ?_,
    ?_, h1, ?_⟩, rfl, rfl, visits_append h2 hfit⟩
  · have hfull : p.pAgescan = n := hfull
    show p.pStealscan + m ≠ 0 ∧ p.pStealscan + m ≠ n
    unfold Preg.gap at hgap
    split_ifs at hgap <;> omega
  · have hfull : p.pStealscan + m = n := hfull
    omega
  · show h.lead = h.tail + m + Preg.gap { p with pStealscan := p.pStealscan + m }
    unfold Preg.gap at hg hgap ⊢
    dsimp only
    split_ifs at hg hgap ⊢ <;> omega
  · show (p.pStealscan + m) % n = (h.tail + m) % n
    rw [Nat.add_mod, h2, ← Nat.add_mod]

/-- The end of the pregion is its start. -/
theorem Placed.stealWrap (hp : Placed n h p) (hfull : p.pStealscan = n) :
    Placed n h { p with pStealscan := 0 } := by
  obtain ⟨hc, ha, hs, hw, hone, hg, h1, h2⟩ := hp
  refine ⟨hc, ha, Nat.zero_le n, fun h => absurd hfull (hw h).2, fun hz => ?_, ?_, h1, ?_⟩
  · have hz : 0 = n := hz
    omega
  · show h.lead = h.tail + Preg.gap { p with pStealscan := 0 }
    have hne : p.pAgescan ≠ n := fun h => (hw h).2 hfull
    unfold Preg.gap at hg ⊢
    dsimp only
    split_ifs at hg ⊢ <;> omega
  · rw [← h2, hfull, Nat.mod_self]
    exact Nat.zero_mod n

/-- The place of the stop, from the two places of the hands. -/
theorem stop_place {a s k : ℕ} (hs : s < n) (hgap : k < if s ≤ a then a - s else a + n - s) :
    (s < (if a ≤ k then a + n - k else a - k) ∧
      (if a ≤ k then a + n - k else a - k) + k ≤ (if s ≤ a then a - s else a + n - s) + s) ∨
    ((if a ≤ k then a + n - k else a - k) < s ∧ a = (if a ≤ k then a + n - k else a - k) + k ∧
      (if s ≤ a then a - s else a + n - s) + s = a + n) := by
  by_cases hsa : s ≤ a
  · rw [if_pos hsa] at hgap ⊢
    rw [if_neg (by omega)]
    exact .inl ⟨by omega, by omega⟩
  · rw [if_neg hsa] at hgap ⊢
    by_cases hak : a ≤ k
    · rw [if_pos hak]
      exact .inl ⟨by omega, by omega⟩
    · rw [if_neg hak]
      exact .inr ⟨by omega, by omega, by omega⟩

/-- When the steal hand works on a pregion, it offers at least one page, and keeps its distance. -/
theorem stealpages_spec {pageout : ℕ → ℕ → ℕ} (hp : Placed n h p) (hlegal : LegalPageout pageout)
    (hn : 2 ≤ n) (hlaps : handlaps < agefraction) (hfar : h.tail + keep rp handlaps n < h.lead) :
    ∃ h' : Hands n, Placed n h' (stealpages pageout (localstop rp handlaps p) p).1 ∧
      h'.lead = h.lead ∧ h.tail < h'.tail ∧ visits n h'.tail =
        visits n h.tail ++ (stealpages pageout (localstop rp handlaps p) p).2 := by
  obtain ⟨k, hk⟩ : ∃ k, k = keep rp handlaps n := ⟨_, rfl⟩
  have hk1 : 1 ≤ k := hk ▸ keep_pos
  have hkn : k < n := hk ▸ keep_lt hlaps hn
  rw [localstop_eq rp handlaps hp.count]
  rw [← hk] at hfar ⊢
  obtain ⟨q, hq⟩ : ∃ q, q = if p.pStealscan ≥ p.pCount then { p with pStealscan := 0 } else p :=
    ⟨_, rfl⟩
  have hq' : Placed n h q ∧ q.pStealscan < n ∧ q.pAgescan = p.pAgescan := by
    rw [hq]
    have := hp.steal_le
    by_cases hfull : p.pStealscan ≥ p.pCount
    · rw [if_pos hfull]
      rw [hp.count] at hfull
      exact ⟨hp.stealWrap (by omega), by show 0 < n; omega, rfl⟩
    · rw [if_neg hfull]
      rw [hp.count] at hfull
      exact ⟨hp, by omega, rfl⟩
  obtain ⟨hpq, hlt, hage⟩ := hq'
  rw [stealpages, ← hq, ← hage]
  obtain ⟨t, ht⟩ : ∃ t : ℕ, t = if q.pAgescan ≤ k then q.pAgescan + n - k else q.pAgescan - k :=
    ⟨_, rfl⟩
  have hstop : (if (q.pAgescan : ℤ) - k ≤ 0 then (q.pAgescan : ℤ) - k + n
      else (q.pAgescan : ℤ) - k) = t := by
    rw [ht]
    split_ifs <;> omega
  have hgap := hpq.gap
  have ha := hpq.age_le
  have hc := hpq.count
  rw [hstop]
  clear hstop
  dsimp only
  have hplace : (q.pStealscan < t ∧ t + k ≤ q.gap + q.pStealscan) ∨
      (t < q.pStealscan ∧ q.pAgescan = t + k ∧ q.gap + q.pStealscan = q.pAgescan + n) := by
    have hkgap : k < q.gap := by omega
    unfold Preg.gap at hkgap ⊢
    rw [hc] at hkgap ⊢
    rw [ht]
    exact stop_place hlt hkgap
  have htn : 1 ≤ t ∧ t ≤ n := by
    rw [ht]
    split_ifs <;> omega
  clear ht
  rcases hplace with ⟨hbefore, hroom⟩ | ⟨hbehind, hroom, hround⟩
  · rw [if_pos (by omega)]
    obtain ⟨h1, h2⟩ := hlegal q.pStealscan ((t : ℤ) - 1).toNat (by omega)
    obtain ⟨m, hm⟩ : ∃ m, m = pageout q.pStealscan ((t : ℤ) - 1).toNat - q.pStealscan := ⟨_, rfl⟩
    have hnew : pageout q.pStealscan ((t : ℤ) - 1).toNat = q.pStealscan + m := by omega
    obtain ⟨h', hp', hl', ht', hv'⟩ := hpq.offer (m := m) (by omega) (by omega) (by omega)
    rw [hnew, Nat.add_sub_cancel_left]
    exact ⟨h', hp', hl', by omega, hv'⟩
  · rw [if_neg (by omega), if_pos (by omega)]
    obtain ⟨h1, h2⟩ := hlegal q.pStealscan (q.pCount - 1) (by omega)
    obtain ⟨m, hm⟩ : ∃ m, m = pageout q.pStealscan (q.pCount - 1) - q.pStealscan := ⟨_, rfl⟩
    have hnew : pageout q.pStealscan (q.pCount - 1) = q.pStealscan + m := by omega
    obtain ⟨h', hp', hl', ht', hv'⟩ := hpq.offer (m := m) (by omega) (by omega) (by omega)
    rw [hnew, Nat.add_sub_cancel_left]
    by_cases hfull : q.pStealscan + m ≥ q.pCount
    · -- around the end of the pregion
      rw [if_pos hfull]
      have hwrap := hp'.stealWrap (by show q.pStealscan + m = n; omega)
      obtain ⟨h3, h4⟩ := hlegal 0 ((t : ℤ) - 1).toNat (by omega)
      have hgap0 : Preg.gap { q with pStealscan := 0 } = q.pAgescan := by
        simp [Preg.gap]
      obtain ⟨h'', hp'', hl'', ht'', hv''⟩ := hwrap.offer
        (m := pageout 0 ((t : ℤ) - 1).toNat) (by omega) (by dsimp only; omega)
        (by rw [hgap0]; omega)
      rw [Nat.zero_add] at hp''
      refine ⟨h'', hp'', hl''.trans hl', by omega, ?_⟩
      rw [hv'', hv', append_assoc]
    · rw [if_neg hfull]
      exact ⟨h', hp', hl', by omega, hv'⟩

/-! ### Visits -/

/-- The caller of a visit: `vhand` asks for at least one page to age, and `handlaps` is in its
range. -/
def Turn.Legal : Turn → Prop
  | .age _ _ _ numtoage _ => 1 ≤ numtoage
  | .steal _ handlaps _ pageout => handlaps < agefraction ∧ LegalPageout pageout

/-- The age hand comes to a pregion of `n` pages that is open, and gets some pages to age. -/
def Turn.Ages (n : ℕ) : Turn → Prop
  | .age rp newregion rand _ _ =>
    rp.Open ∧ newregion = true ∧ agesize rp rand (activatePreg n) % 2 ^ 16 ≠ 0
  | .steal .. => False

/-- The steal hand comes to a pregion of `n` pages that is open, with room between the hands. -/
def Turn.Steals (n : ℕ) : Turn → Prop
  | .age .. => False
  | .steal rp handlaps _ _ => rp.Open ∧ keep rp handlaps n + 1 < n

/-- A visit leaves the indices at the places of two hands, of which one has moved or none. -/
def Turned (n : ℕ) (h : Hands n) (p : Preg) (t : Turn) : Prop :=
  ∃ h' : Hands n, Placed n h' (turn p t).1 ∧ h.lead ≤ h'.lead ∧ h.tail ≤ h'.tail ∧
    (h'.lead = h.lead ∨ h'.tail = h.tail) ∧
    visits n h'.lead = visits n h.lead ++ (turn p t).2.1 ∧
    visits n h'.tail = visits n h.tail ++ (turn p t).2.2 ∧
    (t.Ages n → h.lead + 1 < h.tail + n → h.lead < h'.lead) ∧
    (t.Steals n → h.lead + 1 = h.tail + n → h.tail < h'.tail)

theorem Placed.quiet (hp : Placed n h p) {t : Turn} (heq : turn p t = (p, [], []))
    (hages : ¬ t.Ages n) (hsteals : t.Steals n → h.lead + 1 ≠ h.tail + n) : Turned n h p t := by
  refine ⟨h, by rw [heq]; exact hp, le_rfl, le_rfl, .inl rfl, ?_, ?_, fun ha => absurd ha hages,
    fun hs hup => absurd hup (hsteals hs)⟩
  · rw [heq]
    exact (append_nil _).symm
  · rw [heq]
    exact (append_nil _).symm

theorem turn_spec (hn : 1 ≤ n) (hmax : n < 2 ^ 31) (hp : Placed n h p) {t : Turn} (ht : t.Legal) :
    Turned n h p t := by
  unfold Turned
  cases t with
  | age rp newregion rand numtoage valid =>
    have hquiet : ∀ r, Placed n h { p with pAgeremain := r } := fun r =>
      ⟨hp.count, hp.age_le, hp.steal_le, hp.wrap, hp.more, hp.gap, hp.age, hp.steal⟩
    obtain ⟨ok, r, hv, hok⟩ : ∃ ok r, ageVisit rp newregion rand p =
        (ok, { p with pAgeremain := r }) ∧ (ok = true → 1 ≤ r) := by
      unfold ageVisit
      dsimp only
      split_ifs with h1 h2 h3
      all_goals exact ⟨_, _, rfl, by first | exact fun _ => ‹_› | exact nofun⟩
    have hages : Turn.Ages n (.age rp newregion rand numtoage valid) → ok = true := by
      rintro ⟨⟨h1, h2, h3, h4⟩, rfl, hsize⟩
      have hsize' : agesize rp rand p % 2 ^ 16 ≠ 0 := by
        rwa [agesize, hp.count]
      rw [ageVisit, if_pos ⟨h4, h1, h2, h3⟩] at hv
      dsimp only at hv
      rw [if_pos rfl, if_pos (Nat.pos_of_ne_zero hsize')] at hv
      exact (congrArg Prod.fst hv).symm
    rw [turn, hv]
    cases ok with
    | false =>
      exact ⟨h, hquiet r, le_rfl, le_rfl, .inl rfl, (append_nil _).symm,
        (append_nil _).symm, fun ha => absurd (hages ha) (by simp), fun hs => hs.elim⟩
    | true =>
      obtain ⟨h', hp', ht', hle, hmove, hvis⟩ :=
        agepagesLoop_spec hn valid (r + 1) (hquiet r) ht (hok rfl)
      exact ⟨h', hp', hle, ht'.ge, .inr ht', hvis, by rw [ht']; exact (append_nil _).symm,
        fun _ hroom => hmove (Nat.succ_ne_zero r) hroom.ne, fun hs => hs.elim⟩
  | steal rp handlaps same pageout =>
    have hpass : ∀ ans, (∀ stop, ans ≠ Steal.take stop) →
        stealVisit rp handlaps same p = (ans, p) →
        turn p (.steal rp handlaps same pageout) = (p, [], []) := by
      intro ans hans heq
      rw [turn, heq]
      cases ans with
      | take stop => exact absurd rfl (hans stop)
      | _ => rfl
    by_cases hopen : rp.Open
    · obtain ⟨hfar, hnear⟩ := stealVisit_spec hp hopen ht.1 hn hmax same
      by_cases hlt : h.tail + keep rp handlaps n < h.lead
      · have hwithin := h.within
        have hkeep : 1 ≤ keep rp handlaps n := keep_pos
        obtain ⟨h', hp', hl', hlt', hvis⟩ := stealpages_spec hp ht.2 (by omega) ht.1 hlt
        rw [turn, hfar hlt]
        exact ⟨h', hp', hl'.ge, hlt'.le, .inl hl', by rw [hl']; exact (append_nil _).symm, hvis,
          fun ha => ha.elim, fun _ _ => hlt'⟩
      · obtain ⟨ans, hans, heq⟩ := hnear (not_lt.1 hlt)
        refine hp.quiet (hpass ans hans heq) id fun hs hup => ?_
        have := hs.2
        omega
    · obtain ⟨ans, hans, heq⟩ := stealVisit_closed hopen handlaps same p
      exact hp.quiet (hpass ans hans heq) id fun hs => absurd hs.1 hopen

/-- Runs keep the hands in step with the indices. -/
theorem runTurns_spec (hn : 1 ≤ n) (hmax : n < 2 ^ 31) {ts : List Turn} (hp : Placed n h p)
    (hts : ∀ t ∈ ts, t.Legal) :
    ∃ h' : Hands n, Placed n h' (runTurns p ts).1 ∧ h.lead ≤ h'.lead ∧ h.tail ≤ h'.tail ∧
      visits n h'.lead = visits n h.lead ++ (runTurns p ts).2.1 ∧
      visits n h'.tail = visits n h.tail ++ (runTurns p ts).2.2 ∧
      (∀ t ∈ ts, t.Ages n → h.lead + 1 < h.tail + n → h.lead + h.tail < h'.lead + h'.tail) ∧
      (∀ t ∈ ts, t.Steals n → h.lead + 1 = h.tail + n → h.lead + h.tail < h'.lead + h'.tail) := by
  induction ts generalizing h p with
  | nil => exact ⟨h, hp, le_rfl, le_rfl, (append_nil _).symm, (append_nil _).symm,
      fun t ht => (nomatch ht), fun t ht => (nomatch ht)⟩
  | cons t ts ih =>
    obtain ⟨h₁, hp₁, hl₁, ht₁, -, hv₁, hw₁, ha₁, hs₁⟩ := turn_spec hn hmax hp (hts t (by simp))
    obtain ⟨h₂, hp₂, hl₂, ht₂, hv₂, hw₂, ha₂, hs₂⟩ := ih hp₁ fun u hu => hts u (by simp [hu])
    refine ⟨h₂, hp₂, hl₁.trans hl₂, ht₁.trans ht₂, ?_, ?_, fun u hu hages hroom => ?_,
      fun u hu hsteals hup => ?_⟩
    · rw [hv₂, hv₁, append_assoc]
      rfl
    · rw [hw₂, hw₁, append_assoc]
      rfl
    -- if the first visit moves nothing, the rest starts from the same places
    · rcases mem_cons.1 hu with rfl | hu
      · have := ha₁ hages hroom
        omega
      · by_cases hsame : h₁.lead = h.lead ∧ h₁.tail = h.tail
        · have := ha₂ u hu hages (by omega)
          omega
        · omega
    · rcases mem_cons.1 hu with rfl | hu
      · have := hs₁ hsteals hup
        omega
      · by_cases hsame : h₁.lead = h.lead ∧ h₁.tail = h.tail
        · have := hs₂ u hu hsteals (by omega)
          omega
        · omega

/-- A round: both hands come to the pregion, and there is room between them. -/
structure Round (n : ℕ) (ts : List Turn) : Prop where
  legal : ∀ t ∈ ts, t.Legal
  ages : ∃ t ∈ ts, t.Ages n
  steals : ∃ t ∈ ts, t.Steals n

/-- In a round one of the hands moves. -/
theorem Round.moves (hn : 1 ≤ n) (hmax : n < 2 ^ 31) {ts : List Turn} (hround : Round n ts)
    (hp : Placed n h p) : ∃ h' : Hands n, Placed n h' (runTurns p ts).1 ∧
      h.lead + h.tail < h'.lead + h'.tail ∧ visits n h'.lead = visits n h.lead ++ (runTurns p ts).2.1 ∧
      visits n h'.tail = visits n h.tail ++ (runTurns p ts).2.2 := by
  obtain ⟨h', hp', -, -, hv, hw, hages, hsteals⟩ := runTurns_spec hn hmax hp hround.legal
  obtain ⟨t, ht, hta⟩ := hround.ages
  obtain ⟨u, hu, hus⟩ := hround.steals
  refine ⟨h', hp', ?_, hv, hw⟩
  have := h.within
  by_cases hroom : h.lead + 1 < h.tail + n
  · exact hages t ht hta hroom
  · exact hsteals u hu hus (by omega)

theorem runTurns_append (p : Preg) (ts us : List Turn) : runTurns p (ts ++ us) =
    ((runTurns (runTurns p ts).1 us).1, (runTurns p ts).2.1 ++ (runTurns (runTurns p ts).1 us).2.1,
      (runTurns p ts).2.2 ++ (runTurns (runTurns p ts).1 us).2.2) := by
  induction ts generalizing p with
  | nil => rfl
  | cons t ts ih =>
    simp only [cons_append, runTurns, ih, append_assoc]

/-- Each round is one step of one of the hands or more. -/
theorem rounds_move (hn : 1 ≤ n) (hmax : n < 2 ^ 31) {rounds : List (List Turn)}
    (hrounds : ∀ r ∈ rounds, Round n r) (hp : Placed n h p) :
    ∃ h' : Hands n, Placed n h' (runTurns p rounds.flatten).1 ∧
      h.lead + h.tail + rounds.length ≤ h'.lead + h'.tail ∧
      visits n h'.lead = visits n h.lead ++ (runTurns p rounds.flatten).2.1 ∧
      visits n h'.tail = visits n h.tail ++ (runTurns p rounds.flatten).2.2 := by
  induction rounds generalizing h p with
  | nil => exact ⟨h, hp, le_rfl, (append_nil _).symm, (append_nil _).symm⟩
  | cons r rounds ih =>
    obtain ⟨h₁, hp₁, hlt, hv₁, hw₁⟩ := (hrounds r (by simp)).moves hn hmax hp
    obtain ⟨h₂, hp₂, hle, hv₂, hw₂⟩ := ih (fun u hu => hrounds u (by simp [hu])) hp₁
    rw [flatten_cons, runTurns_append]
    refine ⟨h₂, hp₂, ?_, ?_, ?_⟩
    · rw [length_cons]
      omega
    · rw [hv₂, hv₁, append_assoc]
    · rw [hw₂, hw₁, append_assoc]

/-- The hands of a new pregion. -/
def newHands (hn : 1 ≤ n) : Hands n := ⟨0, 0, le_rfl, by omega⟩

theorem placed_new (hn : 1 ≤ n) : Placed n (newHands hn) (activatePreg n) :=
  ⟨rfl, Nat.zero_le n, Nat.zero_le n, fun h => absurd h (by show (0 : ℕ) ≠ n; omega),
    fun h => absurd h (by show (0 : ℕ) ≠ n; omega), rfl, rfl, rfl⟩

/-! ### The clock -/

/-- The age hand scans a page, whatever it is asked for. -/
def AgeMoves (p : Preg) : Prop := ∀ (valid : ℕ → Bool) (numtoage remain : ℕ), 1 ≤ numtoage →
  1 ≤ remain → (agepages valid numtoage { p with pAgeremain := remain }).2 ≠ []

/-- The steal hand is let in and offers a page. -/
def StealMoves (rp : Reg) (handlaps : ℕ) (same : Bool) (p : Preg) : Prop :=
  ∃ stop p', stealVisit rp handlaps same p = (.take stop, p') ∧
    ∀ pageout, LegalPageout pageout → (stealpages pageout stop p').2 ≠ []

theorem Placed.ageMoves_iff (hp : Placed n h p) (hn : 1 ≤ n) :
    AgeMoves p ↔ ¬ UpAgainst (Vhand.wrapAge p) := by
  constructor
  · intro hmoves hup
    refine hmoves (fun _ => true) 1 1 le_rfl le_rfl ?_
    have hup' : UpAgainst (Vhand.wrapAge { p with pAgeremain := 1 }) := by
      unfold Vhand.wrapAge at hup ⊢
      split_ifs at hup ⊢ <;> exact hup
    rw [agepages, agepagesLoop, if_pos hup']
  · intro hup valid numtoage remain h1 h2 hnil
    obtain ⟨hpw, ha⟩ := hp.wrapAge hn
    rw [hpw.upAgainst_iff ha] at hup
    have hp' : Placed n h { p with pAgeremain := remain } :=
      ⟨hp.count, hp.age_le, hp.steal_le, hp.wrap, hp.more, hp.gap, hp.age, hp.steal⟩
    obtain ⟨h', -, -, -, hmove, hvis⟩ := agepagesLoop_spec hn valid (remain + 1) hp' h1 h2
    have hlt := hmove (Nat.succ_ne_zero remain) hup
    rw [agepages] at hnil
    rw [hnil, append_nil] at hvis
    have := congrArg List.length hvis
    rw [length_visits, length_visits] at this
    omega

theorem Placed.stealMoves_iff (hp : Placed n h p) (hn : 1 ≤ n) (hmax : n < 2 ^ 31)
    (hopen : rp.Open) (hlaps : handlaps < agefraction) (same : Bool) :
    StealMoves rp handlaps same p ↔ h.tail + keep rp handlaps n < h.lead := by
  obtain ⟨hfar, hnear⟩ := stealVisit_spec hp hopen hlaps hn hmax same
  constructor
  · rintro ⟨stop, p', heq, -⟩
    by_contra hno
    obtain ⟨ans, hans, heq'⟩ := hnear (not_lt.1 hno)
    exact hans stop (congrArg Prod.fst (heq'.symm.trans heq))
  · intro hlt
    refine ⟨_, _, hfar hlt, fun pageout hlegal hnil => ?_⟩
    have hwithin := h.within
    have hkeep : 1 ≤ keep rp handlaps n := keep_pos
    obtain ⟨h', -, -, hmove, hvis⟩ := stealpages_spec hp hlegal (by omega) hlaps hlt
    rw [hnil, append_nil] at hvis
    have := congrArg List.length hvis
    rw [length_visits, length_visits] at this
    omega

/-- In every run from `activate_preg` on, and for every number of laps, one of the hands can move on
an open region if and only if the steal hand's distance leaves room on the pregion or the age hand
is not up against the steal hand.  Rounds with room take both hands to every page. -/
theorem clock_moves_iff (hn : 1 ≤ n) (hmax : n < 2 ^ 31) :
    (∀ ts : List Turn, (∀ t ∈ ts, t.Legal) → ∀ (rp : Reg) (handlaps : ℕ) (same : Bool), rp.Open →
      handlaps < agefraction →
      ((AgeMoves (runTurns (activatePreg n) ts).1 ∨
          StealMoves rp handlaps same (runTurns (activatePreg n) ts).1) ↔
        (keep rp handlaps n + 1 < n ∨ ¬ UpAgainst (wrapAge (runTurns (activatePreg n) ts).1)))) ∧
    ∀ rounds : List (List Turn), (∀ r ∈ rounds, Round n r) → 3 * n ≤ rounds.length → ∀ i, i < n →
      i ∈ (runTurns (activatePreg n) rounds.flatten).2.1 ∧
      i ∈ (runTurns (activatePreg n) rounds.flatten).2.2 := by
  refine ⟨fun ts hts rp handlaps same hopen hlaps => ?_, fun rounds hrounds hlen i hi => ?_⟩
  · obtain ⟨h, hp, -⟩ := runTurns_spec hn hmax (placed_new hn) hts
    obtain ⟨hpw, ha⟩ := hp.wrapAge hn
    have hup := hpw.upAgainst_iff ha
    rw [hp.ageMoves_iff hn, hp.stealMoves_iff hn hmax hopen hlaps same]
    by_cases hagainst : UpAgainst (wrapAge (runTurns (activatePreg n) ts).1)
    · have := hup.1 hagainst
      simp only [hagainst, not_true_eq_false, false_or, or_false]
      omega
    · simp only [hagainst, not_false_eq_true, true_or, or_true]
  · obtain ⟨h, -, hsum, hv, hw⟩ := rounds_move hn hmax hrounds (placed_new hn)
    obtain ⟨h1, h2⟩ := h.around (by omega) hi
    rw [hv] at h1
    rw [hw] at h2
    exact ⟨h1, h2⟩

/-- Nothing moves on a pregion of one page. -/
theorem single_stuck {h : Hands 1} (ts : List Turn) (hp : Placed 1 h p) (hts : ∀ t ∈ ts, t.Legal) :
    (runTurns p ts).2 = ([], []) := by
  induction ts generalizing h p with
  | nil => rfl
  | cons t ts ih =>
    obtain ⟨h', hp', hle, hle', hmove, hv, hw, -⟩ :=
      turn_spec le_rfl (by decide) hp (hts t (by simp))
    have h1 := h.behind
    have h2 := h.within
    have h3 := h'.behind
    have h4 := h'.within
    rw [show h'.lead = h.lead by omega, self_eq_append_right] at hv
    rw [show h'.tail = h.tail by omega, self_eq_append_right] at hw
    have hrest := ih hp' fun u hu => hts u (by simp [hu])
    simp only [runTurns, hv, hw, hrest, append_nil]

/-- A region in use. -/
def openReg : Reg := ⟨true, 0, 1, 1, 0, 0⟩

/-- Nine rounds take both hands around a pregion of three pages. -/
theorem clock_moves_three : ∃ rounds : List (List Turn), rounds.length = 9 ∧ ∀ i, i < 3 →
    i ∈ (runTurns (activatePreg 3) rounds.flatten).2.1 ∧
    i ∈ (runTurns (activatePreg 3) rounds.flatten).2.2 := by
  have hopen : openReg.Open := ⟨rfl, rfl, by decide, rfl⟩
  obtain ⟨r, hr⟩ : ∃ r : List Turn, r = [.age openReg true 0 1 fun _ => true,
      .steal openReg 0 false fun x _ => x + 1] := ⟨_, rfl⟩
  have hround : Round 3 r := by
    rw [hr]
    refine ⟨fun t ht => ?_, ⟨_, List.mem_cons_self, hopen, rfl, by decide⟩,
      ⟨_, List.mem_cons_of_mem _ List.mem_cons_self, hopen, by decide⟩⟩
    rcases List.mem_cons.1 ht with rfl | ht
    · exact Nat.le_refl 1
    · obtain rfl := List.mem_singleton.1 ht
      exact ⟨by decide, fun x y hxy => ⟨Nat.lt_succ_self x, Nat.succ_le_succ hxy⟩⟩
  refine ⟨List.replicate 9 r, List.length_replicate .., ?_⟩
  exact (clock_moves_iff (by decide) (by decide)).2 _
    (fun u hu => (List.eq_of_mem_replicate hu) ▸ hround) (by rw [List.length_replicate])

/-- The page of a pregion of one page is never aged and never offered for stealing. -/
theorem single_page_wedged :
    (∀ (rp : Reg) (handlaps : ℕ) (same : Bool), rp.Open → handlaps < agefraction →
      ¬ (AgeMoves (activatePreg 1) ∨ StealMoves rp handlaps same (activatePreg 1))) ∧
    ∀ ts : List Turn, (∀ t ∈ ts, t.Legal) → (runTurns (activatePreg 1) ts).2 = ([], []) := by
  have hp := placed_new (n := 1) le_rfl
  refine ⟨fun rp handlaps same hopen hlaps => ?_, fun ts hts => single_stuck ts hp hts⟩
  rw [hp.ageMoves_iff le_rfl, hp.stealMoves_iff le_rfl (by decide) hopen hlaps same]
  rintro (hup | hlt)
  · exact hup (by decide)
  · exact absurd hlt (Nat.not_lt_zero _)

end

end Vhand

end Hpux
