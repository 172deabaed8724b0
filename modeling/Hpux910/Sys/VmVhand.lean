import Mathlib

/-!
# The two hands of the page clock

`vhand` (`sys/vm_vhand.c`) goes around the active pregions with two hands.  The age hand clears the
reference bits of the pages of a pregion, the steal hand takes the pages that were not used since.
Each hand has an index in every pregion.

* `Preg`, `Reg` : the fields of a pregion and of its region that the hands look at.
* `stealVisit`, `stealpages` : the steal hand on a pregion.
* `ageVisit`, `agepages` : the age hand on a pregion.
* `Turn`, `runTurns` : the visits of the two hands to one pregion.

The clock of the pregions themselves is in the parameters of a visit: `handlaps`, and whether the
hands are on the same pregion.
-/

namespace Hpux

namespace Vhand

/-- `LOGAGEFRACTION`. -/
def logAgefraction : ℕ := 4
/-- `AGEFRACTION`. -/
def agefraction : ℕ := 2 ^ logAgefraction

/-- `preg_t`. -/
structure Preg where
  /-- `p_count`. -/
  pCount : ℕ
  /-- `p_agescan`. -/
  pAgescan : ℕ
  /-- `p_ageremain`, an unsigned short. -/
  pAgeremain : ℕ
  /-- `p_stealscan`. -/
  pStealscan : ℕ
  deriving DecidableEq, Repr

/-- `reg_t` at the time of a visit. -/
structure Reg where
  /-- `creglock` gets the lock. -/
  rLock : Bool
  /-- `r_dbd`. -/
  rDbd : ℕ
  /-- `r_nvalid`. -/
  rNvalid : ℕ
  /-- `r_incore`. -/
  rIncore : ℕ
  /-- `r_mlockcnt`. -/
  rMlockcnt : ℕ
  /-- `countvfd`. -/
  countvfd : ℕ

/-- The part of `activate_preg` for the hands. -/
def activatePreg (count : ℕ) : Preg := ⟨count, 0, 0, 0⟩

/-- `CIRC_BETWEEN(x, l, h)`. -/
def CircBetween (x l h : ℤ) : Prop := (h ≥ l ∧ x ≥ l ∧ x ≤ h) ∨ (h < l ∧ (x ≥ l ∨ x ≤ h))

instance (x l h : ℤ) : Decidable (CircBetween x l h) := inferInstanceAs (Decidable (_ ∨ _))

/-! ### The steal hand -/

/-- What `advance_stealhand` makes of a pregion. -/
inductive Steal
  /-- Return 1, with `localstop_index`. -/
  | take (localstopIndex : ℤ)
  /-- Go on to the next pregion. -/
  | skip
  /-- Return 0. -/
  | wait
  /-- Swap the descriptors of the region. -/
  | swap
  deriving DecidableEq

/-- `localstop_index`. -/
def localstop (rp : Reg) (handlaps : ℕ) (p : Preg) : ℤ :=
  let stop : ℤ :=
    if rp.rIncore ≠ 0 then
      let stop : ℤ := p.pAgescan - handlaps * (p.pCount >>> logAgefraction : ℕ)
      if stop = p.pAgescan then stop - 1 else stop
    else p.pAgescan - 1
  if stop ≤ 0 then stop + p.pCount else stop

/-- The body of the loop of `advance_stealhand`.  `same` says that both hands are on the pregion. -/
def stealVisit (rp : Reg) (handlaps : ℕ) (same : Bool) (p : Preg) : Steal × Preg :=
  let skipPreg : Steal := if handlaps = 0 ∧ same = true then .wait else .skip
  if rp.rLock = false then (skipPreg, p)
  else if rp.rDbd ≠ 0 then (skipPreg, p)
  else if rp.rNvalid = 0 then
    if rp.rIncore = 0 ∧ rp.countvfd ≠ 0 then
      if handlaps = 0 ∧ same = true then (.wait, p) else (.swap, p)
    else (skipPreg, p)
  else if rp.rMlockcnt ≠ 0 then (skipPreg, p)
  else
    let p := if p.pAgescan > p.pCount then { p with pAgescan := p.pCount } else p
    -- the indices are unsigned
    if handlaps = 0 ∧ same = true ∧
        CircBetween p.pStealscan (((p.pAgescan : ℤ) - 1) % 2 ^ 32) p.pAgescan then (.wait, p)
    else if CircBetween p.pStealscan (localstop rp handlaps p) p.pAgescan then (skipPreg, p)
    else (.take (localstop rp handlaps p), p)

/-- `stealpages`, with the pages that `VOP_PAGEOUT` looks at.  `pageout start stop` is what
`VOP_PAGEOUT` leaves in `p_stealscan`. -/
def stealpages (pageout : ℕ → ℕ → ℕ) (stop : ℤ) (p : Preg) : Preg × List ℕ :=
  let p := if p.pStealscan ≥ p.pCount then { p with pStealscan := 0 } else p
  if stop > p.pStealscan then
    let s := pageout p.pStealscan (stop - 1).toNat
    ({ p with pStealscan := s }, List.range' p.pStealscan (s - p.pStealscan))
  else if stop < p.pStealscan then
    let s := pageout p.pStealscan (p.pCount - 1)
    if s ≥ p.pCount then
      let s' := pageout 0 (stop - 1).toNat
      ({ p with pStealscan := s' },
        List.range' p.pStealscan (s - p.pStealscan) ++ List.range' 0 s')
    else ({ p with pStealscan := s }, List.range' p.pStealscan (s - p.pStealscan))
  else (p, [])

/-! ### The age hand -/

/-- The pages that `advance_agehand` gives to a visit, with the draw `rand` of 0 to 15. -/
def agesize (rp : Reg) (rand : ℕ) (p : Preg) : ℕ :=
  if rp.rIncore ≠ 0 then
    if rand < p.pCount % agefraction then (p.pCount >>> logAgefraction) + 1
    else p.pCount >>> logAgefraction
  else p.pCount

/-- The body of the loop of `advance_agehand`: whether it returns 1, and the pregion. -/
def ageVisit (rp : Reg) (newregion : Bool) (rand : ℕ) (p : Preg) : Bool × Preg :=
  if rp.rMlockcnt = 0 ∧ rp.rLock = true ∧ rp.rDbd = 0 ∧ rp.rNvalid ≠ 0 then
    let remain :=
      if newregion = true then agesize rp rand p % 2 ^ 16
      else if p.pAgeremain > agesize rp agefraction p then agesize rp agefraction p % 2 ^ 16
      else p.pAgeremain
    if remain > 0 then (true, { p with pAgeremain := remain })
    else (false, { p with pAgeremain := 0 })
  else (false, { p with pAgeremain := 0 })

/-- `numtoscan`. -/
def numtoscan (p : Preg) (numtoage : ℕ) : ℕ :=
  let n := min numtoage p.pAgeremain
  let n := if n > p.pCount - p.pAgescan then p.pCount - p.pAgescan else n
  let n := if p.pAgescan < p.pStealscan ∧ p.pStealscan ≤ p.pAgescan + n then
    p.pStealscan - p.pAgescan - 1 else n
  if p.pAgescan + n = p.pCount ∧ p.pStealscan = 0 then n - 1 else n

/-- The age hand is up against the steal hand. -/
def UpAgainst (p : Preg) : Prop :=
  p.pAgescan + 1 = p.pStealscan ∨ (p.pAgescan + 1 ≥ p.pCount ∧ p.pStealscan = 0)

instance (p : Preg) : Decidable (UpAgainst p) := inferInstanceAs (Decidable (_ ∨ _))

/-- The start of the loop of `agepages`. -/
def wrapAge (p : Preg) : Preg := if p.pAgescan ≥ p.pCount then { p with pAgescan := 0 } else p

/-- The loop of `agepages`, with the pages it scans.  `valid` says which pages are. -/
def agepagesLoop (valid : ℕ → Bool) : ℕ → ℕ → Preg → Preg × List ℕ
  | 0, _, p => (p, [])
  | fuel + 1, numtoage, p =>
    let p := wrapAge p
    if UpAgainst p then ({ p with pAgeremain := 0 }, [])
    else
      let n := numtoscan p numtoage
      let pages := List.range' p.pAgescan n
      let physCount := (pages.filter valid).length
      let p := { p with pAgescan := p.pAgescan + n, pAgeremain := p.pAgeremain - n }
      if numtoage - physCount > 0 ∧ p.pAgeremain > 0 then
        let (p, more) := agepagesLoop valid fuel (numtoage - physCount) p
        (p, pages ++ more)
      else (p, pages)

/-- `agepages`.  Each turn of the loop but the last takes from `p_ageremain`. -/
def agepages (valid : ℕ → Bool) (numtoage : ℕ) (p : Preg) : Preg × List ℕ :=
  agepagesLoop valid (p.pAgeremain + 1) numtoage p

/-! ### Visits -/

/-- A visit of one of the hands. -/
inductive Turn
  | age (rp : Reg) (newregion : Bool) (rand numtoage : ℕ) (valid : ℕ → Bool)
  | steal (rp : Reg) (handlaps : ℕ) (same : Bool) (pageout : ℕ → ℕ → ℕ)

/-- The pregion after a visit, and the pages that were aged and offered for stealing. -/
def turn (p : Preg) : Turn → Preg × List ℕ × List ℕ
  | .age rp newregion rand numtoage valid =>
    match ageVisit rp newregion rand p with
    | (true, p) =>
      let (p, pages) := agepages valid numtoage p
      (p, pages, [])
    | (false, p) => (p, [], [])
  | .steal rp handlaps same pageout =>
    match stealVisit rp handlaps same p with
    | (.take stop, p) =>
      let (p, pages) := stealpages pageout stop p
      (p, [], pages)
    | (_, p) => (p, [], [])

/-- Visits in turn. -/
def runTurns (p : Preg) : List Turn → Preg × List ℕ × List ℕ
  | [] => (p, [], [])
  | t :: ts =>
    let (p, aged, offered) := turn p t
    let (p, aged', offered') := runTurns p ts
    (p, aged ++ aged', offered ++ offered')

end Vhand

end Hpux
