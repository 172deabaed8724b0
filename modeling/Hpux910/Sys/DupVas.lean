import Mathlib

/-!
# Copying an address space

`dupvas` copies the pregions of a process for its child.  When one of them cannot be copied it walks back over those
it has done, takes the counts down again and throws the child's pregions away.

* `Counter`, `Kern` : the counts that pregions have a part in, and the regions.
* `dupreg`, `attachreg`, `duppregion`, `detachreg`, `freereg` : what the routines do to them.
* `privateCopy`, `sharedCopy`, `dupLoop`, `dupvas` : the copying and the way back.
* `taken`, `held` : the counts that the way back takes down for a pregion of the parent and for one of the child.
* `Undoable` : the condition under which nothing stays behind.
* `dupvas_null_iff` : when `dupvas` fails, nothing has changed if and only if that condition holds.
-/

namespace Hpux

namespace Vas

open List

/-- Values of `p_type`. -/
inductive PType
  | unused | uarea | text | data | stack | shmem | nulldref | libtxt | libdat | sigstack | io | mmap | graflockpg
  deriving DecidableEq, Repr

/-- Values of `r_type`. -/
inductive RType
  | private_ | shared
  deriving DecidableEq, Repr

/-- Bits of `p_flags`. -/
structure PFlags where
  /-- `PF_EXACT`. -/
  exact : Bool
  /-- `PF_MLOCK`. -/
  mlock : Bool
  /-- `PF_NOPAGE`. -/
  nopage : Bool
  /-- `PF_WRITABLE`. -/
  writable : Bool
  /-- `PF_VTEXT`. -/
  vtext : Bool
  deriving DecidableEq, Repr

/-- `preg_t`. -/
structure Preg where
  /-- `p_type`. -/
  pType : PType
  /-- `p_flags`. -/
  pFlags : PFlags
  /-- `p_reg`. -/
  pReg : ℕ
  deriving DecidableEq, Repr

/-- `reg_t`. -/
structure Region where
  /-- `r_type`. -/
  rType : RType
  /-- `r_fstore`. -/
  rFstore : Option ℕ
  /-- `RF_NOFREE`. -/
  rNofree : Bool
  deriving DecidableEq, Repr

/-- The counts of vnodes and regions. -/
inductive Counter
  /-- `v_tcount`. -/
  | tcount (vp : ℕ)
  /-- `v_vas->va_refcnt`, how often the vnode is mapped. -/
  | mapping (vp : ℕ)
  /-- `v_vas->va_wcount`, how often for writing. -/
  | wcount (vp : ℕ)
  /-- `shm_nattch` of the segment with this region. -/
  | nattch (rp : ℕ)
  /-- `r_refcnt`. -/
  | refcnt (rp : ℕ)
  /-- `r_incore`. -/
  | incore (rp : ℕ)
  /-- `r_mlockcnt`. -/
  | mlockcnt (rp : ℕ)
  deriving DecidableEq, Repr

/-- The regions and the counts. -/
structure Kern where
  /-- The regions. -/
  regs : ℕ → Region
  /-- The values of the counts. -/
  counts : Counter → ℤ
  /-- The first number that no region has had. -/
  next : ℕ
  /-- The regions that `freereg` has freed. -/
  freed : List ℕ

/-- Add `d` to each of these counts. -/
def Kern.bump (k : Kern) (d : ℤ) (xs : List Counter) : Kern :=
  { k with counts := fun y => k.counts y + d * xs.count y }

/-- `allocreg`. -/
def Kern.allocreg (k : Kern) (fstore : Option ℕ) (regtype : RType) : Kern :=
  { k with regs := Function.update k.regs k.next ⟨regtype, fstore, false⟩, next := k.next + 1 }

/-- `freereg`. -/
def Kern.freereg (k : Kern) (rp : ℕ) : Kern :=
  if k.counts (.refcnt rp) ≠ 0 then k else { k with freed := rp :: k.freed }

/-- Where the copying of a pregion gets to. -/
inductive Copied
  | ok
  /-- `dupreg` has no swap space. -/
  | noRegion
  /-- `dupvfds` fails in `dupreg`. -/
  | noVfds
  /-- The pregion cannot be attached. -/
  | noAttach
  deriving DecidableEq, Repr

/-- `dupreg`. -/
def dupreg (k : Kern) (rp : ℕ) (regtype : RType) (o : Copied) : Option ℕ × Kern :=
  if (k.regs rp).rType = .shared ∧ regtype = .shared then (some rp, k)
  else match o with
    | .noRegion => (none, k)
    | .noVfds => (none, (k.allocreg (k.regs rp).rFstore regtype).freereg k.next)
    | .ok | .noAttach => (some k.next, k.allocreg (k.regs rp).rFstore regtype)

/-- The count that `add_pregion_to_region` takes up and `remove_pregion_from_region` down. -/
def wcounts (regs : ℕ → Region) (prp : Preg) : List Counter :=
  match (regs prp.pReg).rFstore with
  | some vp =>
    if prp.pType = .mmap ∧ prp.pFlags.writable = true ∧ (regs prp.pReg).rType = .shared then [.wcount vp] else []
  | none => []

/-- The counts of a pregion that is attached. -/
def held (regs : ℕ → Region) (prp : Preg) : List Counter :=
  wcounts regs prp ++ [Counter.incore prp.pReg, .refcnt prp.pReg]

/-- `attachreg`; `none` when there is no place. -/
def attachreg (k : Kern) (vas : List Preg) (rp : ℕ) (pregtype : PType) (pregflag : PFlags) (o : Copied) :
    Option (Kern × List Preg) :=
  if o = .noAttach then none
  else
    let prp : Preg := ⟨pregtype, if pregtype = .text then { pregflag with vtext := true } else pregflag, rp⟩
    some (k.bump 1 (held k.regs prp), prp :: vas)

/-- `duppregion`. -/
def duppregion (k : Kern) (vas : List Preg) (prp : Preg) (o : Copied) : Option (Kern × List Preg) :=
  if o ≠ .ok then none
  else
    let prp2 : Preg := { prp with pFlags := { prp.pFlags with mlock := false } }
    some (k.bump 1 (held k.regs prp2), prp2 :: vas)

/-- `detachreg`. -/
def detachreg (k : Kern) (prp : Preg) : Kern :=
  let k := if prp.pFlags.mlock = true then k.bump (-1) [.mlockcnt prp.pReg] else k
  let k := k.bump (-1) (held k.regs prp)
  if k.counts (.refcnt prp.pReg) = 0 ∧ (k.regs prp.pReg).rNofree = false then k.freereg prp.pReg else k

/-- What a copy leaves: the counts, the pregions of the child, the pregion of the parent, and whether it failed. -/
structure Copy where
  kern : Kern
  dvas : List Preg
  prp : Preg
  bad : Bool

/-- `private_copy`. -/
def privateCopy (k : Kern) (dvas : List Preg) (prp : Preg) (o : Copied) : Copy :=
  match dupreg k prp.pReg (k.regs prp.pReg).rType o with
  | (none, k) => ⟨k, dvas, prp, true⟩
  | (some rp, k) =>
    match attachreg k dvas rp prp.pType { prp.pFlags with mlock := false, nopage := false, exact := true } o with
    | none => ⟨k.freereg rp, dvas, prp, true⟩
    | some (k, dvas) => ⟨k, dvas, prp, false⟩

/-- `shared_copy`. -/
def sharedCopy (k : Kern) (dvas : List Preg) (prp : Preg) (o : Copied) : Copy :=
  let noexact := !prp.pFlags.exact
  let prp := if noexact then { prp with pFlags := { prp.pFlags with exact := true } } else prp
  match duppregion k dvas prp o with
  | none => ⟨k, dvas, prp, true⟩
  | some (k, dvas) =>
    ⟨k, dvas, if noexact then { prp with pFlags := { prp.pFlags with exact := false } } else prp, false⟩

/-- What is answered for one pregion. -/
structure Ans where
  /-- `inctext` is refused, by the server of the file. -/
  inctext : Bool
  /-- `mapvnode` fails. -/
  mapvnode : Bool
  /-- How the copying goes. -/
  copy : Copied
  deriving DecidableEq, Repr

/-- `inctext`. -/
def inctext (k : Kern) (vp : ℕ) (refused : Bool) : Kern := if refused then k else k.bump 1 [.tcount vp]

/-- `dectext` by 1. -/
def dectext (k : Kern) (vp : ℕ) : Kern := k.bump (-1) [.tcount vp]

/-- The first half of the loop of `dupvas`, which counts the vnode or the segment of a pregion once more; the second
component says that the vnode could not be mapped. -/
def countUp (k : Kern) (prp : Preg) (a : Ans) : Kern × Bool :=
  match prp.pType with
  | .text | .mmap =>
    match (k.regs prp.pReg).rFstore with
    | some vp =>
      -- the result of `inctext` is not looked at
      let k := if prp.pFlags.vtext = true then inctext k vp a.inctext else k
      if a.mapvnode = true then (if prp.pFlags.vtext = true then dectext k vp else k, true)
      else (k.bump 1 [.mapping vp], false)
    | none => (k, false)
  | .shmem => (k.bump 1 [.nattch prp.pReg], false)
  | _ => (k, false)

/-- The loop of the way back, for one pregion. -/
def backout (k : Kern) (prp : Preg) : Kern :=
  match prp.pType with
  | .text | .mmap =>
    match (k.regs prp.pReg).rFstore with
    | some vp => (if prp.pFlags.vtext = true then dectext k vp else k).bump (-1) [.mapping vp]
    | none => k
  | .shmem => k.bump (-1) [.nattch prp.pReg]
  | _ => k

/-- How the loop of `dupvas` ends: the pregions from the cursor backwards, those behind it, the counts, and the
pregions of the child. -/
structure Loop where
  cur : List Preg
  rest : List Preg
  kern : Kern
  dvas : List Preg
  bad : Bool

/-- The second half of the loop of `dupvas`. -/
def copyPreg (k : Kern) (dvas : List Preg) (prp : Preg) (o : Copied) : Copy :=
  if (k.regs prp.pReg).rType = .private_ then privateCopy k dvas prp o else sharedCopy k dvas prp o

/-- The loop of `dupvas` behind the pregions `done`, the last of them first. -/
def dupLoop (ans : ℕ → Ans) : List Preg → List Preg → Kern → List Preg → Loop
  | done, [], k, dvas => ⟨done, [], k, dvas, false⟩
  | done, prp :: rest, k, dvas =>
    if prp.pType = .nulldref ∨ prp.pType = .uarea then dupLoop ans (prp :: done) rest k dvas
    else
      let c := countUp k prp (ans done.length)
      if c.2 = true then ⟨done, prp :: rest, c.1, dvas, true⟩
      else
        let r := copyPreg c.1 dvas prp (ans done.length).copy
        if r.bad = true then ⟨r.prp :: done, rest, r.kern, r.dvas, true⟩
        else dupLoop ans (r.prp :: done) rest r.kern r.dvas

/-- `dupvas` for `FORK_PROCESS`: the pregions of the child or `NULL`, those of the parent, and the counts.  The
region of null dereferences is `globalnullrp`, and `nullfails` says that it cannot be attached. -/
def dupvas (ps : List Preg) (k : Kern) (ans : ℕ → Ans) (globalnullrp : ℕ) (nullfails : Bool) :
    Option (List Preg) × List Preg × Kern :=
  let r := dupLoop ans [] ps k []
  let bad := (none, r.cur.reverse ++ r.rest, r.dvas.foldl detachreg (r.cur.foldl backout r.kern))
  if r.bad = true then bad
  else if ∃ p ∈ ps, p.pType = .nulldref then
    match attachreg r.kern r.dvas globalnullrp .nulldref ⟨true, false, true, false, false⟩
      (if nullfails then .noAttach else .ok) with
    | none => bad
    | some (k, dvas) => (some dvas, r.cur.reverse ++ r.rest, k)
  else (some r.dvas, r.cur.reverse ++ r.rest, r.kern)

/-! ### What the way back takes down -/

/-- The vnode that is counted for a pregion. -/
def vnodeOf (regs : ℕ → Region) (prp : Preg) : Option ℕ :=
  if prp.pType = .text ∨ prp.pType = .mmap then (regs prp.pReg).rFstore else none

/-- The counts that the way back takes down for a pregion of the parent. -/
def taken (regs : ℕ → Region) (prp : Preg) : List Counter :=
  match vnodeOf regs prp with
  | some vp => (if prp.pFlags.vtext = true then [.tcount vp] else []) ++ [.mapping vp]
  | none => if prp.pType = .shmem then [.nattch prp.pReg] else []

/-- The text count that was not taken up, though the way back takes it down. -/
def lost (regs : ℕ → Region) (prp : Preg) (a : Ans) : List Counter :=
  match vnodeOf regs prp with
  | some vp => if prp.pFlags.vtext = true ∧ a.inctext = true then [.tcount vp] else []
  | none => []

/-- The vnode of a pregion cannot be mapped. -/
def mapFails (regs : ℕ → Region) (prp : Preg) (a : Ans) : Bool := (vnodeOf regs prp).isSome && a.mapvnode

/-- Nothing stays behind when `dupvas` fails in this list, the first of whose pregions has the answers `ans i`: no
text count has been refused, and if a shared pregion cannot be copied, it has `PF_EXACT`. -/
def Undoable (regs : ℕ → Region) (ans : ℕ → Ans) : ℕ → List Preg → Prop
  | _, [] => True
  | i, prp :: rest =>
    if prp.pType = .nulldref ∨ prp.pType = .uarea then Undoable regs ans (i + 1) rest
    else lost regs prp (ans i) = [] ∧
      if mapFails regs prp (ans i) = true then True
      else if (ans i).copy = .ok then Undoable regs ans (i + 1) rest
      else (regs prp.pReg).rType = .private_ ∨ prp.pFlags.exact = true

section Steps

variable {k : Kern} {prp : Preg} {a : Ans}

@[simp] theorem bump_regs (d : ℤ) (xs : List Counter) : (k.bump d xs).regs = k.regs := rfl
@[simp] theorem bump_next (d : ℤ) (xs : List Counter) : (k.bump d xs).next = k.next := rfl
@[simp] theorem bump_freed (d : ℤ) (xs : List Counter) : (k.bump d xs).freed = k.freed := rfl
theorem bump_counts (d : ℤ) (xs : List Counter) (y : Counter) :
    (k.bump d xs).counts y = k.counts y + d * xs.count y := rfl

/-- Only the counts differ. -/
structure SameRegions (k k' : Kern) : Prop where
  regs : k'.regs = k.regs
  next : k'.next = k.next
  freed : k'.freed = k.freed

theorem SameRegions.refl (k : Kern) : SameRegions k k := ⟨rfl, rfl, rfl⟩

theorem SameRegions.bump (d : ℤ) (xs : List Counter) : SameRegions k (k.bump d xs) := ⟨rfl, rfl, rfl⟩

theorem SameRegions.trans {k₁ k₂ k₃ : Kern} (h₁ : SameRegions k₁ k₂) (h₂ : SameRegions k₂ k₃) : SameRegions k₁ k₃ :=
  ⟨h₂.regs.trans h₁.regs, h₂.next.trans h₁.next, h₂.freed.trans h₁.freed⟩

theorem countUp_some {vp : ℕ} (h : vnodeOf k.regs prp = some vp) : countUp k prp a =
    if a.mapvnode = true then
      (if prp.pFlags.vtext = true then dectext (inctext k vp a.inctext) vp else k, true)
    else ((if prp.pFlags.vtext = true then inctext k vp a.inctext else k).bump 1 [.mapping vp], false) := by
  unfold vnodeOf at h
  unfold countUp
  split_ifs at h with ht
  have hif : ∀ k' : Kern, (if prp.pFlags.vtext = true then dectext k' vp else k) =
      if prp.pFlags.vtext = true then dectext (if prp.pFlags.vtext = true then k' else k) vp
      else if prp.pFlags.vtext = true then k' else k := by
    intro k'
    cases prp.pFlags.vtext <;> rfl
  rcases ht with ht | ht <;> simp only [ht, h, hif]

theorem countUp_none (h : vnodeOf k.regs prp = none) :
    countUp k prp a = (if prp.pType = .shmem then k.bump 1 [.nattch prp.pReg] else k, false) := by
  unfold vnodeOf at h
  unfold countUp
  split_ifs at h with ht
  · rcases ht with ht | ht <;> simp [ht, h]
  · cases hp : prp.pType <;> simp_all

theorem backout_some {vp : ℕ} (h : vnodeOf k.regs prp = some vp) :
    backout k prp = (if prp.pFlags.vtext = true then dectext k vp else k).bump (-1) [.mapping vp] := by
  unfold vnodeOf at h
  unfold backout
  split_ifs at h with ht
  rcases ht with ht | ht <;> simp only [ht, h]

theorem backout_none (h : vnodeOf k.regs prp = none) :
    backout k prp = if prp.pType = .shmem then k.bump (-1) [.nattch prp.pReg] else k := by
  unfold vnodeOf at h
  unfold backout
  split_ifs at h with ht
  · rcases ht with ht | ht <;> simp [ht, h]
  · cases hp : prp.pType <;> simp_all

/-- The first half of the loop. -/
theorem countUp_spec (k : Kern) (prp : Preg) (a : Ans) : SameRegions k (countUp k prp a).1 ∧
    (countUp k prp a).2 = mapFails k.regs prp a ∧ ∀ y, (countUp k prp a).1.counts y =
      k.counts y + (if mapFails k.regs prp a = true then 0 else ((taken k.regs prp).count y : ℤ)) -
        (lost k.regs prp a).count y := by
  cases h : vnodeOf k.regs prp with
  | none =>
    have hfails : mapFails k.regs prp a = false := by rw [mapFails, h]; rfl
    have hlost : lost k.regs prp a = [] := by rw [lost, h]
    rw [countUp_none h, hfails, hlost, taken, h]
    by_cases hshm : prp.pType = .shmem
    · simp only [if_pos hshm]
      exact ⟨.bump 1 _, trivial, fun y => by rw [bump_counts, if_neg Bool.false_ne_true, count_nil]; omega⟩
    · simp only [if_neg hshm]
      exact ⟨.refl k, trivial, fun y => by rw [if_neg Bool.false_ne_true, count_nil]; omega⟩
  | some vp =>
    have hfails : mapFails k.regs prp a = a.mapvnode := by rw [mapFails, h]; rfl
    rw [countUp_some h, hfails, taken, lost, h]
    unfold inctext dectext
    cases a.mapvnode <;> cases prp.pFlags.vtext <;> cases a.inctext <;>
    · refine ⟨⟨rfl, rfl, rfl⟩, rfl, fun y => ?_⟩
      simp only [bump_counts, count_append, count_nil, if_true, if_false, and_self, and_false, false_and,
        Bool.false_eq_true]
      omega

/-- The loop of the way back takes down what is taken. -/
theorem backout_spec (k : Kern) (prp : Preg) : SameRegions k (backout k prp) ∧
    ∀ y, (backout k prp).counts y = k.counts y - (taken k.regs prp).count y := by
  cases h : vnodeOf k.regs prp with
  | none =>
    rw [backout_none h, taken, h]
    by_cases hshm : prp.pType = .shmem
    · simp only [if_pos hshm]
      exact ⟨.bump (-1) _, fun y => by rw [bump_counts]; omega⟩
    · simp only [if_neg hshm]
      exact ⟨.refl k, fun y => by rw [count_nil]; omega⟩
  | some vp =>
    rw [backout_some h, taken, h]
    unfold dectext
    cases prp.pFlags.vtext <;>
    · refine ⟨⟨rfl, rfl, rfl⟩, fun y => ?_⟩
      simp only [bump_counts, count_append, count_nil, if_true, if_false, Bool.false_eq_true]
      omega

theorem foldl_backout (k : Kern) (cur : List Preg) : SameRegions k (cur.foldl backout k) ∧
    ∀ y, (cur.foldl backout k).counts y = k.counts y - (cur.flatMap (taken k.regs)).count y := by
  induction cur generalizing k with
  | nil => exact ⟨.refl k, fun y => (Int.sub_zero _).symm⟩
  | cons p cur ih =>
    obtain ⟨h1, h2⟩ := backout_spec k p
    obtain ⟨h3, h4⟩ := ih (backout k p)
    refine ⟨h1.trans h3, fun y => ?_⟩
    rw [foldl_cons, h4, h2, h1.regs, flatMap_cons, count_append]
    omega

end Steps

/-! ### The invariant of the loop -/

section Held

variable {regs regs' : ℕ → Region} {prp : Preg}

theorem held_congr (h : regs' prp.pReg = regs prp.pReg) : held regs' prp = held regs prp := by
  unfold held wcounts
  rw [h]

theorem wcounts_refcnt (r : ℕ) : (wcounts regs prp).count (.refcnt r) = 0 := by
  rw [count_eq_zero]
  unfold wcounts
  split
  · split_ifs
    · exact fun h => by cases mem_singleton.1 h
    · exact not_mem_nil
  · exact not_mem_nil

theorem held_refcnt (r : ℕ) : (held regs prp).count (.refcnt r) = if prp.pReg = r then 1 else 0 := by
  rw [held, count_append, wcounts_refcnt]
  simp [count_cons]

theorem flatMap_held_refcnt (ds : List Preg) (r : ℕ) :
    (ds.flatMap (held regs)).count (.refcnt r) = (ds.map Preg.pReg).count r := by
  induction ds with
  | nil => rfl
  | cons d ds ih =>
    rw [flatMap_cons, count_append, ih, held_refcnt, map_cons, count_cons]
    simp only [beq_iff_eq]
    omega

theorem flatMap_held_congr {ds : List Preg} (h : ∀ d ∈ ds, regs' d.pReg = regs d.pReg) :
    ds.flatMap (held regs') = ds.flatMap (held regs) := by
  induction ds with
  | nil => rfl
  | cons d ds ih =>
    rw [flatMap_cons, flatMap_cons, held_congr (h d mem_cons_self),
      ih fun e he => h e (mem_cons_of_mem _ he)]

theorem taken_refcnt (r : ℕ) : (taken regs prp).count (.refcnt r) = 0 := by
  rw [count_eq_zero]
  unfold taken
  split
  · split_ifs <;> simp
  · split_ifs <;> simp

theorem flatMap_taken_refcnt (cur : List Preg) (r : ℕ) : (cur.flatMap (taken regs)).count (.refcnt r) = 0 := by
  induction cur with
  | nil => rfl
  | cons p cur ih => rw [flatMap_cons, count_append, ih, taken_refcnt]

theorem lost_refcnt (a : Ans) (r : ℕ) : (lost regs prp a).count (.refcnt r) = 0 := by
  rw [count_eq_zero]
  unfold lost
  split
  · split_ifs <;> simp
  · exact not_mem_nil

theorem taken_congr {regs' : ℕ → Region} (h : regs' prp.pReg = regs prp.pReg) : taken regs' prp = taken regs prp := by
  unfold taken vnodeOf
  rw [h]

theorem taken_skip (h : prp.pType = .nulldref ∨ prp.pType = .uarea) : taken regs prp = [] := by
  unfold taken vnodeOf
  rcases h with h | h <;> simp [h]

end Held

/-- The state of the loop: `un` are text counts that have been refused, `gone` is the region that a failing copy has
made and freed, `cur` the pregions that the way back would go over. -/
structure Going (k₀ k : Kern) (gone : List ℕ) (un : List Counter) (cur dvas : List Preg) : Prop where
  counts : ∀ y, k.counts y = k₀.counts y + (cur.flatMap (taken k₀.regs)).count y - un.count y +
    (dvas.flatMap (held k.regs)).count y
  next : k₀.next ≤ k.next
  regs : ∀ r, r < k₀.next → k.regs r = k₀.regs r
  made : ∀ r, k₀.next ≤ r → r < k.next → (k.regs r).rNofree = false
  freed : k.freed = gone ++ k₀.freed
  late : ∀ r ∈ gone, k₀.next ≤ r
  ids : ∀ r, k₀.next ≤ r → (gone ++ dvas.map Preg.pReg).count r = if r < k.next then 1 else 0
  child : ∀ d ∈ dvas, d.pFlags.mlock = false ∧ d.pReg < k.next ∧
    (d.pReg < k₀.next → 1 ≤ k₀.counts (.refcnt d.pReg))
  text : ∀ r, un.count (.refcnt r) = 0

section Loop

variable {k₀ k : Kern} {gone : List ℕ} {un : List Counter} {cur dvas : List Preg} {prp : Preg} {o : Copied}

theorem Going.refcnt (h : Going k₀ k gone un cur dvas) (r : ℕ) :
    k.counts (.refcnt r) = k₀.counts (.refcnt r) + (dvas.map Preg.pReg).count r := by
  rw [h.counts, flatMap_taken_refcnt, h.text, flatMap_held_refcnt]
  omega

theorem Going.skip (h : Going k₀ k gone un cur dvas) (hp : prp.pType = .nulldref ∨ prp.pType = .uarea) :
    Going k₀ k gone un (prp :: cur) dvas := by
  refine ⟨fun y => ?_, h.next, h.regs, h.made, h.freed, h.late, h.ids, h.child, h.text⟩
  rw [flatMap_cons, taken_skip hp, nil_append]
  exact h.counts y

theorem Going.countUp (h : Going k₀ k gone un cur dvas) (hold : prp.pReg < k₀.next) (a : Ans) :
    (countUp k prp a).1.regs = k.regs ∧ (countUp k prp a).2 = mapFails k₀.regs prp a ∧
    Going k₀ (countUp k prp a).1 gone (lost k₀.regs prp a ++ un)
      (if mapFails k₀.regs prp a = true then cur else prp :: cur) dvas := by
  obtain ⟨hsame, hbad, hcounts⟩ := countUp_spec k prp a
  have hreg := h.regs _ hold
  have hv : vnodeOf k.regs prp = vnodeOf k₀.regs prp := by
    unfold vnodeOf
    rw [hreg]
  have hfails : mapFails k.regs prp a = mapFails k₀.regs prp a := by rw [mapFails, mapFails, hv]
  have hlost : lost k.regs prp a = lost k₀.regs prp a := by rw [lost, lost, hv]
  refine ⟨hsame.regs, hbad.trans hfails, fun y => ?_, ?_, ?_, ?_, ?_, h.late, ?_, ?_, fun r => ?_⟩
  · have hy := hcounts y
    rw [hfails, hlost, taken_congr hreg, h.counts y] at hy
    rw [hy, hsame.regs, count_append]
    split_ifs
    · omega
    · rw [flatMap_cons, count_append]
      omega
  · rw [hsame.next]
    exact h.next
  · rw [hsame.regs]
    exact h.regs
  · rw [hsame.regs, hsame.next]
    exact h.made
  · rw [hsame.freed]
    exact h.freed
  · rw [hsame.next]
    exact h.ids
  · rw [hsame.next]
    exact h.child
  · rw [count_append, lost_refcnt, h.text]

/-- A region made for the child. -/
theorem Going.allocreg (h : Going k₀ k gone un cur dvas) (fs : Option ℕ) (t : RType) :
    (dvas.flatMap (held (k.allocreg fs t).regs)) = dvas.flatMap (held k.regs) ∧
    (∀ r, r < k₀.next → (k.allocreg fs t).regs r = k₀.regs r) ∧
    ∀ r, k₀.next ≤ r → r < k.next + 1 → ((k.allocreg fs t).regs r).rNofree = false := by
  have hne : ∀ r, r < k.next → (k.allocreg fs t).regs r = k.regs r := fun r hr => Function.update_of_ne hr.ne _ _
  refine ⟨flatMap_held_congr fun d hd => hne _ (h.child d hd).2.1, fun r hr => ?_, fun r h1 h2 => ?_⟩
  · rw [hne r (hr.trans_le h.next), h.regs r hr]
  · rcases (Nat.lt_succ_iff.1 h2).lt_or_eq with hlt | rfl
    · rw [hne r hlt]
      exact h.made r h1 hlt
    · show (Function.update k.regs k.next ⟨t, fs, false⟩ k.next).rNofree = false
      rw [Function.update_self]

/-- A private pregion is copied. -/
theorem Going.privateOk (h : Going k₀ k [] un cur dvas) (hpriv : (k.regs prp.pReg).rType = .private_) :
    (privateCopy k dvas prp .ok).bad = false ∧ (privateCopy k dvas prp .ok).prp = prp ∧
    Going k₀ (privateCopy k dvas prp .ok).kern [] un cur (privateCopy k dvas prp .ok).dvas := by
  have hdup : dupreg k prp.pReg (k.regs prp.pReg).rType .ok =
      (some k.next, k.allocreg (k.regs prp.pReg).rFstore (k.regs prp.pReg).rType) := by
    rw [dupreg, hpriv]
    rfl
  obtain ⟨hheld, hregs, hmade⟩ := h.allocreg (k.regs prp.pReg).rFstore (k.regs prp.pReg).rType
  have hlt : k.next < k.next + 1 := Nat.lt_succ_self _
  obtain ⟨child, hreg, hml, hcopy⟩ : ∃ child : Preg, child.pReg = k.next ∧ child.pFlags.mlock = false ∧
      privateCopy k dvas prp .ok =
        ⟨(k.allocreg (k.regs prp.pReg).rFstore (k.regs prp.pReg).rType).bump 1
          (held (k.allocreg (k.regs prp.pReg).rFstore (k.regs prp.pReg).rType).regs child), child :: dvas, prp, false⟩ := by
    rw [privateCopy, hdup]
    refine ⟨_, rfl, ?_, rfl⟩
    simp only
    split_ifs <;> rfl
  rw [hcopy]
  refine ⟨rfl, rfl, fun y => ?_, h.next.trans hlt.le, hregs, hmade, h.freed, nofun, fun r hr => ?_, fun d hd => ?_, h.text⟩
  · have hy : k.counts y = k₀.counts y + (cur.flatMap (taken k₀.regs)).count y - un.count y +
        (dvas.flatMap (held k.regs)).count y := h.counts y
    rw [bump_counts, bump_regs, flatMap_cons, count_append, hheld]
    show k.counts y + _ = _
    omega
  · have hid := h.ids r hr
    simp only [nil_append, map_cons, count_cons, beq_iff_eq, hreg] at hid ⊢
    show _ = if r < k.next + 1 then 1 else 0
    rw [hid]
    split_ifs <;> omega
  · rcases mem_cons.1 hd with rfl | hd
    · exact ⟨hml, hreg ▸ hlt, fun hc => absurd (h.next.trans_lt (hreg ▸ hc)) (lt_irrefl _)⟩
    · obtain ⟨h1, h2, h3⟩ := h.child d hd
      exact ⟨h1, h2.trans hlt, h3⟩

/-- A private pregion is not copied: its region has been freed if it was made. -/
theorem Going.privateBad (h : Going k₀ k [] un cur dvas) (hpriv : (k.regs prp.pReg).rType = .private_)
    (hunused : ∀ r, k₀.next ≤ r → k₀.counts (.refcnt r) = 0) (ho : o ≠ .ok) :
    (privateCopy k dvas prp o).bad = true ∧ (privateCopy k dvas prp o).prp = prp ∧
    ∃ gone, Going k₀ (privateCopy k dvas prp o).kern gone un cur (privateCopy k dvas prp o).dvas := by
  obtain ⟨hheld, hregs, hmade⟩ := h.allocreg (k.regs prp.pReg).rFstore (k.regs prp.pReg).rType
  have hzero : k.counts (.refcnt k.next) = 0 := by
    rw [h.refcnt, hunused _ h.next]
    have hid := h.ids k.next h.next
    rw [if_neg (lt_irrefl _), nil_append] at hid
    omega
  have hfree : (k.allocreg (k.regs prp.pReg).rFstore (k.regs prp.pReg).rType).freereg k.next =
      { k.allocreg (k.regs prp.pReg).rFstore (k.regs prp.pReg).rType with freed := k.next :: k.freed } :=
    if_neg (not_not.2 hzero)
  have hgone : Going k₀ { k.allocreg (k.regs prp.pReg).rFstore (k.regs prp.pReg).rType with
      freed := k.next :: k.freed } [k.next] un cur dvas := by
    refine ⟨fun y => ?_, h.next.trans (Nat.le_succ _), hregs, hmade, ?_, ?_, fun r hr => ?_, fun d hd => ?_, h.text⟩
    · rw [hheld]
      exact h.counts y
    · exact congrArg (k.next :: ·) h.freed
    · intro r hr
      rw [mem_singleton.1 hr]
      exact h.next
    · have hid := h.ids r hr
      simp only [nil_append, cons_append, count_cons, beq_iff_eq] at hid ⊢
      show _ = if r < k.next + 1 then 1 else 0
      rw [hid]
      split_ifs <;> omega
    · obtain ⟨h1, h2, h3⟩ := h.child d hd
      exact ⟨h1, h2.trans (Nat.lt_succ_self _), h3⟩
  cases o with
  | ok => exact absurd rfl ho
  | noRegion =>
    have hdup : dupreg k prp.pReg (k.regs prp.pReg).rType .noRegion = (none, k) := by
      rw [dupreg, hpriv]
      rfl
    rw [privateCopy, hdup]
    exact ⟨rfl, rfl, [], h⟩
  | noVfds =>
    have hdup : dupreg k prp.pReg (k.regs prp.pReg).rType .noVfds =
        (none, { k.allocreg (k.regs prp.pReg).rFstore (k.regs prp.pReg).rType with freed := k.next :: k.freed }) := by
      rw [← hfree, dupreg, hpriv]
      rfl
    rw [privateCopy, hdup]
    exact ⟨rfl, rfl, [k.next], hgone⟩
  | noAttach =>
    have hdup : dupreg k prp.pReg (k.regs prp.pReg).rType .noAttach =
        (some k.next, k.allocreg (k.regs prp.pReg).rFstore (k.regs prp.pReg).rType) := by
      rw [dupreg, hpriv]
      rfl
    rw [privateCopy, hdup]
    refine ⟨rfl, rfl, [k.next], ?_⟩
    show Going k₀ ((k.allocreg _ _).freereg k.next) _ _ _ _
    rw [hfree]
    exact hgone

/-- A shared pregion is copied, and has its flags again. -/
theorem Going.sharedOk (h : Going k₀ k [] un cur dvas) (hold : prp.pReg < k₀.next)
    (hpos : 1 ≤ k₀.counts (.refcnt prp.pReg)) :
    (sharedCopy k dvas prp .ok).bad = false ∧ (sharedCopy k dvas prp .ok).prp = prp ∧
    Going k₀ (sharedCopy k dvas prp .ok).kern [] un cur (sharedCopy k dvas prp .ok).dvas := by
  obtain ⟨t, ⟨e, ml, np, w, v⟩, rp⟩ := prp
  have hcopy : sharedCopy k dvas ⟨t, ⟨e, ml, np, w, v⟩, rp⟩ .ok =
      ⟨k.bump 1 (held k.regs ⟨t, ⟨true, false, np, w, v⟩, rp⟩), ⟨t, ⟨true, false, np, w, v⟩, rp⟩ :: dvas,
        ⟨t, ⟨e, ml, np, w, v⟩, rp⟩, false⟩ := by
    cases e <;> rfl
  rw [hcopy]
  refine ⟨rfl, rfl, fun y => ?_, h.next, h.regs, h.made, h.freed, nofun, fun r hr => ?_, fun d hd => ?_, h.text⟩
  · rw [bump_counts, bump_regs, flatMap_cons, count_append, h.counts y]
    omega
  · have hid := h.ids r hr
    simp only [nil_append, map_cons, count_cons, beq_iff_eq] at hid ⊢
    rw [if_neg (hold.trans_le hr).ne]
    exact hid
  · rcases mem_cons.1 hd with rfl | hd
    · exact ⟨rfl, hold.trans_le h.next, fun _ => hpos⟩
    · exact h.child d hd

theorem sharedBad (ho : o ≠ .ok) : sharedCopy k dvas prp o =
    ⟨k, dvas, { prp with pFlags := { prp.pFlags with exact := true } }, true⟩ := by
  obtain ⟨t, ⟨e, ml, np, w, v⟩, rp⟩ := prp
  unfold sharedCopy duppregion
  cases e <;> simp [ho]

theorem dupLoop_skip {ans : ℕ → Ans} {done rest : List Preg} (hskip : prp.pType = .nulldref ∨ prp.pType = .uarea) :
    dupLoop ans done (prp :: rest) k dvas = dupLoop ans (prp :: done) rest k dvas := if_pos hskip

theorem dupLoop_step {ans : ℕ → Ans} {done rest : List Preg} (hskip : ¬(prp.pType = .nulldref ∨ prp.pType = .uarea)) :
    dupLoop ans done (prp :: rest) k dvas =
      if (countUp k prp (ans done.length)).2 = true then
        ⟨done, prp :: rest, (countUp k prp (ans done.length)).1, dvas, true⟩
      else if (copyPreg (countUp k prp (ans done.length)).1 dvas prp (ans done.length).copy).bad = true then
        ⟨(copyPreg (countUp k prp (ans done.length)).1 dvas prp (ans done.length).copy).prp :: done, rest,
          (copyPreg (countUp k prp (ans done.length)).1 dvas prp (ans done.length).copy).kern,
          (copyPreg (countUp k prp (ans done.length)).1 dvas prp (ans done.length).copy).dvas, true⟩
      else dupLoop ans ((copyPreg (countUp k prp (ans done.length)).1 dvas prp (ans done.length).copy).prp :: done) rest
        (copyPreg (countUp k prp (ans done.length)).1 dvas prp (ans done.length).copy).kern
        (copyPreg (countUp k prp (ans done.length)).1 dvas prp (ans done.length).copy).dvas := if_neg hskip

end Loop

/-- How the loop ends, if nothing is behind the cursor yet: the counts are those that the way back takes down, and what
has been refused is nothing, and every pregion as before, exactly in an `Undoable` list. -/
theorem dupLoop_spec {k₀ : Kern} (hunused : ∀ r, k₀.next ≤ r → k₀.counts (.refcnt r) = 0) (ans : ℕ → Ans)
    {todo : List Preg} (hps : ∀ p ∈ todo, p.pReg < k₀.next ∧ 1 ≤ k₀.counts (.refcnt p.pReg))
    {done dvas : List Preg} {k : Kern} {un : List Counter} (h : Going k₀ k [] un done dvas) :
    ∃ gone un', Going k₀ (dupLoop ans done todo k dvas).kern gone (un' ++ un) (dupLoop ans done todo k dvas).cur
        (dupLoop ans done todo k dvas).dvas ∧
      ((un' = [] ∧ (dupLoop ans done todo k dvas).cur.reverse ++ (dupLoop ans done todo k dvas).rest =
        done.reverse ++ todo) ↔ Undoable k₀.regs ans done.length todo) := by
  induction todo generalizing done dvas k un with
  | nil => exact ⟨[], [], h, by simp [dupLoop, Undoable]⟩
  | cons prp rest ih =>
    obtain ⟨⟨hold, hpos⟩, hrest⟩ := forall_mem_cons.1 hps
    have hmove : (prp :: done).reverse ++ rest = done.reverse ++ prp :: rest := by
      rw [reverse_cons, append_assoc]
      rfl
    by_cases hskip : prp.pType = .nulldref ∨ prp.pType = .uarea
    · rw [dupLoop_skip hskip, Undoable, if_pos hskip, ← hmove]
      exact ih hrest (h.skip hskip)
    rw [dupLoop_step hskip, Undoable, if_neg hskip]
    obtain ⟨hregs, hbad, hup⟩ := h.countUp hold (ans done.length)
    rw [hbad]
    cases hfails : mapFails k₀.regs prp (ans done.length) with
    | true =>
      rw [hfails, if_pos rfl] at hup
      exact ⟨[], lost k₀.regs prp (ans done.length), hup, by simp⟩
    | false =>
      rw [hfails, if_neg Bool.false_ne_true] at hup
      rw [if_neg Bool.false_ne_true, if_neg Bool.false_ne_true]
      have hreg : (countUp k prp (ans done.length)).1.regs prp.pReg = k₀.regs prp.pReg := hup.regs _ hold
      by_cases hok : (ans done.length).copy = .ok
      · -- after a copy the loop goes on
        obtain ⟨hgood, hprp, hcopy⟩ : (copyPreg (countUp k prp (ans done.length)).1 dvas prp .ok).bad = false ∧
            (copyPreg (countUp k prp (ans done.length)).1 dvas prp .ok).prp = prp ∧
            Going k₀ (copyPreg (countUp k prp (ans done.length)).1 dvas prp .ok).kern []
              (lost k₀.regs prp (ans done.length) ++ un) (prp :: done)
              (copyPreg (countUp k prp (ans done.length)).1 dvas prp .ok).dvas := by
          unfold copyPreg
          split_ifs with hpriv
          · exact hup.privateOk hpriv
          · exact hup.sharedOk hold hpos
        rw [hok, hgood, hprp, if_neg Bool.false_ne_true, if_pos rfl]
        obtain ⟨gone, un', h1, h2⟩ := ih hrest hcopy
        refine ⟨gone, un' ++ lost k₀.regs prp (ans done.length), by rwa [append_assoc], ?_⟩
        rw [length_cons, hmove] at h2
        rw [← h2, append_eq_nil_iff]
        tauto
      · rw [if_neg hok]
        by_cases hpriv : ((countUp k prp (ans done.length)).1.regs prp.pReg).rType = .private_
        · obtain ⟨h1, h2, gone, h3⟩ := hup.privateBad hpriv hunused hok
          rw [copyPreg, if_pos hpriv, h1, if_pos rfl, h2]
          refine ⟨gone, _, h3, ?_⟩
          rw [hmove]
          exact ⟨fun hc => ⟨hc.1, .inl (hreg ▸ hpriv)⟩, fun hc => ⟨hc.1, rfl⟩⟩
        · rw [copyPreg, if_neg hpriv, sharedBad hok, if_pos rfl]
          refine ⟨[], lost k₀.regs prp (ans done.length), ?_, ?_⟩
          · refine ⟨fun y => ?_, hup.next, hup.regs, hup.made, hup.freed, hup.late, hup.ids, hup.child, hup.text⟩
            have htaken : taken k₀.regs { prp with pFlags := { prp.pFlags with exact := true } } = taken k₀.regs prp := rfl
            rw [flatMap_cons, htaken, ← flatMap_cons]
            exact hup.counts y
          · rw [hreg] at hpriv
            simp only
            rw [reverse_cons, append_assoc, append_cancel_left_eq, singleton_append,
              List.cons.injEq]
            obtain ⟨t, ⟨e, ml, np, w, v⟩, rp⟩ := prp
            simp only [and_true, Preg.mk.injEq, PFlags.mk.injEq, true_and, hpriv, false_or, eq_comm]

/-! ### The way back -/

theorem detachreg_eq {k : Kern} {d : Preg} (hm : d.pFlags.mlock = false) (hcount : (k.regs d.pReg).rNofree = false ∨
    k.counts (.refcnt d.pReg) ≠ 1) : detachreg k d =
    if k.counts (.refcnt d.pReg) = 1 then
      { k.bump (-1) (held k.regs d) with freed := d.pReg :: k.freed }
    else k.bump (-1) (held k.regs d) := by
  have hcounts : (k.bump (-1) (held k.regs d)).counts (.refcnt d.pReg) = k.counts (.refcnt d.pReg) - 1 := by
    rw [bump_counts, held_refcnt, if_pos rfl]
    omega
  unfold detachreg
  rw [hm, if_neg Bool.false_ne_true]
  simp only [hcounts, bump_regs]
  by_cases hone : k.counts (.refcnt d.pReg) = 1
  · rw [if_pos ⟨by omega, hcount.resolve_right (not_not.2 hone)⟩, if_pos hone, Kern.freereg, hcounts,
      if_neg (by omega)]
    rfl
  · rw [if_neg fun hc => hone (by omega), if_neg hone]

/-- All pregions of the child are detached: the regions made for it are freed, the others are not. -/
theorem foldl_detachreg {n : ℕ} {ds : List Preg} {k : Kern} (hm : ∀ d ∈ ds, d.pFlags.mlock = false)
    (hnew : ∀ d ∈ ds, n ≤ d.pReg → k.counts (.refcnt d.pReg) = 1 ∧ (ds.map Preg.pReg).count d.pReg = 1 ∧
      (k.regs d.pReg).rNofree = false)
    (hold : ∀ d ∈ ds, d.pReg < n → ((ds.map Preg.pReg).count d.pReg : ℤ) < k.counts (.refcnt d.pReg)) :
    (ds.foldl detachreg k).regs = k.regs ∧ (ds.foldl detachreg k).next = k.next ∧
      (∀ y, (ds.foldl detachreg k).counts y = k.counts y - (ds.flatMap (held k.regs)).count y) ∧
      ∀ r, (ds.foldl detachreg k).freed.count r = k.freed.count r + if n ≤ r then (ds.map Preg.pReg).count r else 0 := by
  induction ds generalizing k with
  | nil => exact ⟨rfl, rfl, fun y => (Int.sub_zero _).symm, fun r => by split_ifs <;> rfl⟩
  | cons d ds ih =>
    obtain ⟨hmd, hms⟩ := forall_mem_cons.1 hm
    have hdcount : ∀ r, ((d :: ds).map Preg.pReg).count r =
        (ds.map Preg.pReg).count r + if d.pReg = r then 1 else 0 := by
      intro r
      rw [map_cons, count_cons]
      simp only [beq_iff_eq]
    have hone : k.counts (.refcnt d.pReg) = 1 ↔ n ≤ d.pReg := by
      constructor
      · intro hc
        by_contra hlt
        have hd := hold d mem_cons_self (Nat.lt_of_not_le hlt)
        rw [hdcount, if_pos rfl] at hd
        omega
      · exact fun hle => (hnew d mem_cons_self hle).1
    have heq := detachreg_eq hmd <| by
      by_cases hle : n ≤ d.pReg
      · exact .inl (hnew d mem_cons_self hle).2.2
      · exact .inr (hone.not.2 hle)
    have hcounts : ∀ y, (detachreg k d).counts y = k.counts y - (held k.regs d).count y := by
      intro y
      rw [heq]
      split_ifs
      · show k.counts y + -1 * _ = _
        omega
      · rw [bump_counts]
        omega
    have hregs : (detachreg k d).regs = k.regs := by
      rw [heq]
      split_ifs <;> rfl
    have hnext : (detachreg k d).next = k.next := by
      rw [heq]
      split_ifs <;> rfl
    have hfreed : ∀ r, (detachreg k d).freed.count r = k.freed.count r + if n ≤ r ∧ d.pReg = r then 1 else 0 := by
      intro r
      rw [heq]
      by_cases hle : n ≤ d.pReg
      · rw [if_pos (hone.2 hle)]
        simp only [count_cons, beq_iff_eq]
        by_cases hr : d.pReg = r
        · rw [if_pos hr, if_pos ⟨hr ▸ hle, hr⟩]
        · rw [if_neg hr, if_neg fun hc => hr hc.2]
      · have hno : ¬(n ≤ r ∧ d.pReg = r) := fun hc => hle (hc.2 ▸ hc.1)
        rw [if_neg (hone.not.2 hle), if_neg hno]
        rfl
    have hrefs : ∀ r, (detachreg k d).counts (.refcnt r) = k.counts (.refcnt r) - if d.pReg = r then 1 else 0 := by
      intro r
      rw [hcounts, held_refcnt]
      split_ifs <;> rfl
    have hnew' : ∀ e ∈ ds, n ≤ e.pReg → (detachreg k d).counts (.refcnt e.pReg) = 1 ∧
        (ds.map Preg.pReg).count e.pReg = 1 ∧ ((detachreg k d).regs e.pReg).rNofree = false := by
      intro e he hle
      obtain ⟨h5, h6, h7⟩ := hnew e (mem_cons_of_mem _ he) hle
      rw [hdcount] at h6
      have hpos : 0 < (ds.map Preg.pReg).count e.pReg := count_pos_iff.2 (mem_map_of_mem he)
      have hne : ¬d.pReg = e.pReg := by
        intro hc
        rw [if_pos hc] at h6
        omega
      rw [if_neg hne] at h6
      rw [hrefs, if_neg hne, hregs]
      exact ⟨by omega, h6, h7⟩
    have hold' : ∀ e ∈ ds, e.pReg < n →
        ((ds.map Preg.pReg).count e.pReg : ℤ) < (detachreg k d).counts (.refcnt e.pReg) := by
      intro e he hlt
      have h5 := hold e (mem_cons_of_mem _ he) hlt
      rw [hdcount] at h5
      rw [hrefs]
      split_ifs at h5 ⊢ <;> omega
    obtain ⟨h1, h2, h3, h4⟩ := ih hms hnew' hold'
    refine ⟨h1.trans hregs, h2.trans hnext, fun y => ?_, fun r => ?_⟩
    · rw [foldl_cons, h3, hcounts, hregs, flatMap_cons, count_append]
      omega
    · rw [foldl_cons, h4, hfreed, hdcount]
      split_ifs <;> omega

/-! ### The whole routine -/

/-- The state before the call: the regions of the pregions are referred to, no number behind `next` is used. -/
structure Wf (k : Kern) (ps : List Preg) : Prop where
  attached : ∀ p ∈ ps, p.pReg < k.next ∧ 1 ≤ k.counts (.refcnt p.pReg)
  unused : ∀ r, k.next ≤ r → k.counts (.refcnt r) = 0
  freed : ∀ r ∈ k.freed, r < k.next

/-- Nothing has changed for the parent: its pregions have their flags, every count is as before, and each region made
meanwhile has been freed, once. -/
structure Untouched (k : Kern) (ps : List Preg) (k' : Kern) (ps' : List Preg) : Prop where
  flags : ps' = ps
  counts : k'.counts = k.counts
  freed : ∀ r, k'.freed.count r = k.freed.count r + if k.next ≤ r ∧ r < k'.next then 1 else 0

/-- After the way back the refused text counts are missing, and the regions made for the child are gone. -/
theorem Going.back {k₀ k : Kern} {gone : List ℕ} {un : List Counter} {cur dvas : List Preg}
    (h : Going k₀ k gone un cur dvas) (hunused : ∀ r, k₀.next ≤ r → k₀.counts (.refcnt r) = 0)
    (hcur : ∀ p ∈ cur, p.pReg < k₀.next) :
    (∀ y, (dvas.foldl detachreg (cur.foldl backout k)).counts y = k₀.counts y - un.count y) ∧
      ∀ r, (dvas.foldl detachreg (cur.foldl backout k)).freed.count r = k₀.freed.count r +
        if k₀.next ≤ r ∧ r < (dvas.foldl detachreg (cur.foldl backout k)).next then 1 else 0 := by
  obtain ⟨hsame, hback⟩ := foldl_backout k cur
  have htaken : cur.flatMap (taken k.regs) = cur.flatMap (taken k₀.regs) := by
    rw [List.flatMap, List.flatMap, map_congr_left fun p hp => taken_congr (h.regs _ (hcur p hp))]
  have hrefs : ∀ r, (cur.foldl backout k).counts (.refcnt r) =
      k₀.counts (.refcnt r) + (dvas.map Preg.pReg).count r := by
    intro r
    rw [hback, flatMap_taken_refcnt, h.refcnt]
    omega
  have hnew : ∀ d ∈ dvas, k₀.next ≤ d.pReg → (cur.foldl backout k).counts (.refcnt d.pReg) = 1 ∧
      (dvas.map Preg.pReg).count d.pReg = 1 ∧ ((cur.foldl backout k).regs d.pReg).rNofree = false := by
    intro d hd hle
    have hid := h.ids d.pReg hle
    rw [if_pos (h.child d hd).2.1, count_append] at hid
    have hpos : 0 < (dvas.map Preg.pReg).count d.pReg := count_pos_iff.2 (mem_map_of_mem hd)
    rw [hrefs, hunused _ hle, hsame.regs]
    exact ⟨by omega, by omega, h.made _ hle (h.child d hd).2.1⟩
  have hold : ∀ d ∈ dvas, d.pReg < k₀.next →
      ((dvas.map Preg.pReg).count d.pReg : ℤ) < (cur.foldl backout k).counts (.refcnt d.pReg) := by
    intro d hd hlt
    have hpos := (h.child d hd).2.2 hlt
    rw [hrefs]
    omega
  obtain ⟨-, h2, h3, h4⟩ := foldl_detachreg (fun d hd => (h.child d hd).1) hnew hold
  refine ⟨fun y => ?_, fun r => ?_⟩
  · rw [h3, hback, hsame.regs, htaken, h.counts y]
    omega
  · rw [h4, hsame.freed, h.freed, h2, hsame.next, count_append]
    by_cases hr : k₀.next ≤ r
    · have hid := h.ids r hr
      rw [count_append] at hid
      rw [if_pos hr]
      by_cases hlt : r < k.next
      · rw [if_pos hlt] at hid
        rw [if_pos ⟨hr, hlt⟩]
        omega
      · rw [if_neg hlt] at hid
        rw [if_neg fun hc => hlt hc.2]
        omega
    · rw [if_neg hr, if_neg fun hc => hr hc.1, count_eq_zero_of_not_mem fun hg => hr (h.late r hg)]
      omega

theorem privateCopy_prp (k : Kern) (dvas : List Preg) (prp : Preg) (o : Copied) : (privateCopy k dvas prp o).prp = prp := by
  unfold privateCopy
  split
  · rfl
  · split <;> rfl

theorem sharedCopy_pReg (k : Kern) (dvas : List Preg) (prp : Preg) (o : Copied) :
    (sharedCopy k dvas prp o).prp.pReg = prp.pReg := by
  obtain ⟨t, ⟨e, ml, np, w, v⟩, rp⟩ := prp
  cases e <;> cases o <;> rfl

/-- The pregions from the cursor backwards are pregions of the parent. -/
theorem dupLoop_cur {n : ℕ} (ans : ℕ → Ans) {todo done dvas : List Preg} {k : Kern} (h1 : ∀ p ∈ todo, p.pReg < n)
    (h2 : ∀ p ∈ done, p.pReg < n) : ∀ p ∈ (dupLoop ans done todo k dvas).cur, p.pReg < n := by
  induction todo generalizing done dvas k with
  | nil => exact h2
  | cons prp rest ih =>
    obtain ⟨hp, hrest⟩ := forall_mem_cons.1 h1
    by_cases hskip : prp.pType = .nulldref ∨ prp.pType = .uarea
    · rw [dupLoop_skip hskip]
      exact ih hrest (forall_mem_cons.2 ⟨hp, h2⟩)
    · rw [dupLoop_step hskip]
      have hcopy : (copyPreg (countUp k prp (ans done.length)).1 dvas prp (ans done.length).copy).prp.pReg = prp.pReg := by
        unfold copyPreg
        split_ifs
        · exact congrArg Preg.pReg (privateCopy_prp ..)
        · exact sharedCopy_pReg ..
      split_ifs
      · exact h2
      · exact forall_mem_cons.2 ⟨hcopy ▸ hp, h2⟩
      · exact ih hrest (forall_mem_cons.2 ⟨hcopy ▸ hp, h2⟩)

/-- When `dupvas` returns `NULL`, nothing has changed for the parent and each region made for the child has been freed
once, if and only if no text count was refused and no shared pregion without `PF_EXACT` could not be copied. -/
theorem dupvas_null_iff {k : Kern} {ps : List Preg} (hwf : Wf k ps) {ans : ℕ → Ans} {globalnullrp : ℕ} {nullfails : Bool}
    (hnull : (dupvas ps k ans globalnullrp nullfails).1 = none) :
    Untouched k ps (dupvas ps k ans globalnullrp nullfails).2.2 (dupvas ps k ans globalnullrp nullfails).2.1 ↔
      Undoable k.regs ans 0 ps := by
  have hstart : Going k k [] [] [] [] := by
    refine ⟨fun y => ?_, Nat.le_refl _, fun r _ => rfl, fun r h1 h2 => absurd h1 (Nat.not_le_of_lt h2), rfl, nofun,
      fun r hr => ?_, nofun, fun r => rfl⟩
    · rw [List.flatMap_nil, List.flatMap_nil, List.count_nil]
      omega
    · rw [if_neg (Nat.not_lt_of_le hr)]
      rfl
  obtain ⟨gone, un, hgoing, hiff⟩ := dupLoop_spec hwf.unused ans hwf.attached hstart
  have hcur := @dupLoop_cur _ ans _ [] [] k (fun p hp => (hwf.attached p hp).1) nofun
  obtain ⟨hcounts, hfreed⟩ := hgoing.back hwf.unused hcur
  have hbad : dupvas ps k ans globalnullrp nullfails = (none, (dupLoop ans [] ps k []).cur.reverse ++
      (dupLoop ans [] ps k []).rest, (dupLoop ans [] ps k []).dvas.foldl detachreg
        ((dupLoop ans [] ps k []).cur.foldl backout (dupLoop ans [] ps k []).kern)) := by
    unfold dupvas attachreg at hnull ⊢
    simp only at hnull ⊢
    split_ifs at hnull ⊢ <;> rfl
  rw [hbad]
  rw [List.append_nil] at hgoing hcounts
  refine Iff.trans ?_ hiff
  constructor
  · intro h
    refine ⟨?_, h.flags⟩
    -- a count of something refused would be lower
    rcases un with _ | ⟨x, un⟩
    · rfl
    · have hx := congrFun h.counts x
      rw [hcounts x, List.count_cons_self] at hx
      omega
  · rintro ⟨rfl, hflags⟩
    refine ⟨hflags, funext fun y => ?_, hfreed⟩
    rw [hcounts y, List.count_nil]
    omega

/-- A region that is attached once. -/
def oneRegion : Kern :=
  ⟨fun _ => ⟨.shared, some 5, false⟩, fun y => if y = .refcnt 0 ∨ y = .incore 0 ∨ y = .mapping 5 then 1 else 0, 1, []⟩

theorem oneRegion_wf (fl : PFlags) : Wf oneRegion [⟨.mmap, fl, 0⟩] := by
  refine ⟨fun p hp => ?_, fun r hr => ?_, nofun⟩
  · obtain rfl := mem_singleton.1 hp
    have hpos : 1 ≤ oneRegion.counts (.refcnt 0) := by decide
    exact ⟨Nat.zero_lt_one, hpos⟩
  · have hne : r ≠ 0 := Nat.one_le_iff_ne_zero.1 hr
    simp [oneRegion, hne]

/-- A mapped file at a fixed address, of which the copy cannot be attached. -/
theorem dupvas_null_iff_exact : Untouched oneRegion [⟨.mmap, ⟨true, false, false, false, false⟩, 0⟩]
    (dupvas [⟨.mmap, ⟨true, false, false, false, false⟩, 0⟩] oneRegion (fun _ => ⟨false, false, .noAttach⟩) 0 false).2.2
    (dupvas [⟨.mmap, ⟨true, false, false, false, false⟩, 0⟩] oneRegion (fun _ => ⟨false, false, .noAttach⟩) 0 false).2.1 :=
  (dupvas_null_iff (oneRegion_wf _) rfl).2 ⟨rfl, .inr rfl⟩

/-- At an address that the system chose: the pregion of the parent has `PF_EXACT` afterwards. -/
theorem shared_copy_keeps_exact :
    (dupvas [⟨.mmap, ⟨false, false, false, false, false⟩, 0⟩] oneRegion (fun _ => ⟨false, false, .noAttach⟩) 0 false).1 =
      none ∧
    (dupvas [⟨.mmap, ⟨false, false, false, false, false⟩, 0⟩] oneRegion (fun _ => ⟨false, false, .noAttach⟩) 0 false).2.1 =
      [⟨.mmap, ⟨true, false, false, false, false⟩, 0⟩] ∧
    ¬Untouched oneRegion [⟨.mmap, ⟨false, false, false, false, false⟩, 0⟩]
      (dupvas [⟨.mmap, ⟨false, false, false, false, false⟩, 0⟩] oneRegion (fun _ => ⟨false, false, .noAttach⟩) 0 false).2.2
      (dupvas [⟨.mmap, ⟨false, false, false, false, false⟩, 0⟩] oneRegion (fun _ => ⟨false, false, .noAttach⟩) 0 false).2.1 :=
  ⟨rfl, rfl, fun h => absurd h.flags (by decide)⟩

end Vas

end Hpux
