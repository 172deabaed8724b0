import Hpux910.Ufs.FragMap
import Hpux910.Ufs.HashAlloc
import Mathlib

/-!
# Allocating blocks and fragments

`alloc` of `ufs/ufs_alloc.c` gives a file a block, or fragments of one: it goes through the cylinder groups with
`hashalloc` and asks each with `alloccg`.

* `Geom`, `Cg`, `Fs` : the super block, a cylinder group, and the file system.
* `alloccgblk`, `alloccg`, `alloc` : the code.
* `Consistent` : the summaries are those of the maps.
* `FreeRun` : there are so many free fragments in a row in a block.
* `alloccg_refuses` : the groups that `alloccg` refuses.
* `alloc_nospace_iff` : when `alloc` reports that there is no space.
-/

namespace Hpux

namespace UfsAlloc

open Function List

/-! ### The file system -/

/-- What the allocator reads of `struct fs` and does not change. -/
structure Geom where
  fs_ncg : ℕ
  fs_fpg : ℕ
  /-- A block has `2 ^ fs_fragshift` fragments. -/
  fs_fragshift : ℕ
  /-- A fragment has `2 ^ fs_fshift` bytes. -/
  fs_fshift : ℕ
  fs_size : ℕ
  fs_dsize : ℤ
  fs_minfree : ℤ
  fs_ipg : ℕ
  fs_spc : ℕ
  fs_nsect : ℕ
  fs_nspf : ℕ
  fs_cpc : ℕ
  fs_postbl : ℕ → ℕ → ℤ
  fs_rotbl : ℕ → ℕ
  MAXBPC : ℕ
  fragshift_lt : fs_fragshift < 4
  fpg_pos : 0 < fs_fpg
  frag_dvd : 2 ^ fs_fragshift ∣ fs_fpg
  size_le : fs_size ≤ fs_ncg * fs_fpg

namespace Geom

/-- `fs_frag`. -/
def frag (g : Geom) : ℕ := 2 ^ g.fs_fragshift

/-- `fs_bsize`. -/
def bsize (g : Geom) : ℕ := g.frag * 2 ^ g.fs_fshift

/-- `cbtocylno`. -/
def cylno (g : Geom) (bno : ℕ) : ℕ := bno * g.fs_nspf / g.fs_spc

/-- `cbtorpos`. -/
def rpos (g : Geom) (bno : ℕ) : ℕ := bno * g.fs_nspf % g.fs_nsect * 8 / g.fs_nsect

end Geom

/-- `struct csum`, without directories and inodes. -/
structure Csum where
  cs_nbfree : ℤ
  cs_nffree : ℤ

/-- `struct cg`. -/
structure Cg where
  cg_cgx : ℕ
  cg_cs : Csum
  cg_rotor : ℕ
  cg_frotor : ℕ
  cg_frsum : ℕ → ℤ
  cg_btot : ℕ → ℤ
  cg_b : ℕ → ℕ → ℤ
  cg_free : Map
  /-- `bread` gives the group, and its `cg_magic` is right. -/
  readable : Bool

/-- The parts of `struct fs` that change, and the cylinder groups. -/
structure Fs where
  cgs : ℕ → Cg
  fs_cs : ℕ → Csum
  fs_cstotal : Csum
  fs_fmod : Bool

/-- The file system and the inode that gets the space. -/
structure St where
  fs : Fs
  i_blocks : ℕ
  /-- The flag `IFRAG`. -/
  ifrag : Bool

/-! ### Blocks -/

/-- `clrblock`. -/
def clrblock (shift : ℕ) (map : Map) (h : ℕ) : Map :=
  update map (h / (8 / 2 ^ shift)) (map (h / (8 / 2 ^ shift)) &&& ~~~ blockMask shift h)

/-- `clrbit`. -/
def clrbit (map : Map) (i : ℕ) : Map := update map (i / 8) (map (i / 8) &&& ~~~ (1#8 <<< (i % 8)))

/-- `setbit`. -/
def setbit (map : Map) (i : ℕ) : Map := update map (i / 8) (map (i / 8) ||| 1#8 <<< (i % 8))

/-- Counts of free blocks and fragments are changed. -/
def Csum.add (c : Csum) (nb nf : ℤ) : Csum := ⟨c.cs_nbfree + nb, c.cs_nffree + nf⟩

/-- A group is written back, and the counts of group `cgx` and of the file system are changed. -/
def Fs.account (fs : Fs) (cg : ℕ) (cgp : Cg) (cgx : ℕ) (nb nf : ℤ) : Fs where
  cgs := update fs.cgs cg { cgp with cg_cs := cgp.cg_cs.add nb nf }
  fs_cs := update fs.fs_cs cgx ((fs.fs_cs cgx).add nb nf)
  fs_cstotal := fs.fs_cstotal.add nb nf
  fs_fmod := true

variable (g : Geom)

/-- `alloccgblk` from the label `gotit` on. -/
def gotit (fs : Fs) (cg : ℕ) (cgp : Cg) (bno : ℕ) : ℕ × Fs :=
  let cylno := g.cylno bno
  (cgp.cg_cgx * g.fs_fpg + bno, fs.account cg { cgp with
      cg_free := clrblock g.fs_fragshift cgp.cg_free (bno / g.frag)
      cg_b := update cgp.cg_b cylno (update (cgp.cg_b cylno) (g.rpos bno) (cgp.cg_b cylno (g.rpos bno) - 1))
      cg_btot := update cgp.cg_btot cylno (cgp.cg_btot cylno - 1) } cgp.cg_cgx (-1) 0)

/-- `alloccgblk` from the label `norot` on. -/
def norot (fs : Fs) (cg bpref : ℕ) : Option (ℕ × Fs) :=
  let cgp := fs.cgs cg
  match mapsearch g.fs_fragshift g.fs_fpg cgp.cg_free cgp.cg_frotor bpref g.frag with
  | none => none
  | some none => some (0, fs)
  | some (some (bno, frotor)) => some (gotit g fs cg { cgp with cg_rotor := bno, cg_frotor := frotor } bno)

/-- The rotational position with a free block, from `pos` on and round; `pos` itself if there is none. -/
def cylpos (cylbp : ℕ → ℤ) (pos : ℕ) : ℕ :=
  ((List.range' pos (8 - pos) ++ List.range pos).find? fun i => 0 < cylbp i).getD pos

/-- The blocks of a rotational position, from the `i`-th one behind `bno` along `fs_rotbl`; none is a panic. -/
def rotate (map : Map) (bno : ℕ) : (turns i : ℕ) → Option ℕ
  | 0, _ => none
  | turns + 1, i =>
    if isblock g.fs_fragshift map (bno + i) then some (bno + i)
    else if g.fs_rotbl i = 0 ∨ g.MAXBPC < i + g.fs_rotbl i then none
    else rotate map bno turns (i + g.fs_rotbl i)

/-- `alloccgblk`: the address of the block, 0, or a panic. -/
def alloccgblk (fs : Fs) (cg bpref : ℕ) : Option (ℕ × Fs) :=
  let cgp := fs.cgs cg
  if bpref = 0 then norot g fs cg cgp.cg_rotor
  else
    let bpref := (bpref - bpref % g.frag) % g.fs_fpg
    if isblock g.fs_fragshift cgp.cg_free (bpref / g.frag) then some (gotit g fs cg cgp bpref)
    else
      let cylno := g.cylno bpref
      if cgp.cg_btot cylno = 0 then norot g fs cg bpref
      else if g.fs_cpc = 0 then norot g fs cg ((g.fs_spc * cylno + g.fs_nspf - 1) / g.fs_nspf)
      else
        let cylbp := cgp.cg_b cylno
        let i := cylpos cylbp (g.rpos bpref)
        if 0 < cylbp i then
          let pos := cylno % g.fs_cpc
          let bno := (cylno - pos) * g.fs_spc / (g.fs_nspf * g.frag)
          if g.fs_postbl pos i = -1 then none
          else (rotate g cgp.cg_free bno (g.MAXBPC + 1) (g.fs_postbl pos i).toNat).map fun h =>
            gotit g fs cg cgp (h * g.frag)
        else norot g fs cg bpref

/-! ### Fragments -/

/-- The loop of `alloccg` for the size of run that is used: `fs_frag` if there is none. -/
def allocsiz (cgp : Cg) (frags : ℕ) : ℕ :=
  ((List.range' frags (g.frag - frags)).find? fun n => cgp.cg_frsum n ≠ 0).getD g.frag

/-- A block has been allocated for `frags` fragments, and the others are given back. -/
def hackUp (fs : Fs) (cg bno frags : ℕ) : Fs :=
  let cgp := fs.cgs cg
  let bpref := bno % g.fs_fpg
  fs.account cg
    { cgp with
      cg_free := (List.range' frags (g.frag - frags)).foldl (fun map i => setbit map (bpref + i)) cgp.cg_free
      cg_frsum := update cgp.cg_frsum (g.frag - frags) (cgp.cg_frsum (g.frag - frags) + 1) }
    cg 0 (g.frag - frags : ℕ)

/-- The fragments from `bno` on are taken out of a run of `siz`. -/
def takeFrags (fs : Fs) (cg bno frotor siz frags : ℕ) : Fs :=
  let cgp := fs.cgs cg
  let frsum := update cgp.cg_frsum siz (cgp.cg_frsum siz - 1)
  fs.account cg
    { cgp with
      cg_frotor := frotor
      cg_free := (List.range frags).foldl (fun map i => clrbit map (bno + i)) cgp.cg_free
      cg_frsum := if frags ≠ siz then update frsum (siz - frags) (frsum (siz - frags) + 1) else frsum }
    cg 0 (-frags)

/-- `B_WORSTFIT`. -/
def B_WORSTFIT : ℕ := 1

/-- `B_DQ_FORCE`. -/
def B_DQ_FORCE : ℕ := 2

/-- A whole block is to be taken for fragments. -/
def worst (fs : Fs) (policy : ℕ) : Prop := policy = B_WORSTFIT ∧ fs.fs_cstotal.cs_nbfree ≠ 0

instance (fs : Fs) (policy : ℕ) : Decidable (worst fs policy) := inferInstanceAs (Decidable (_ ∧ _))

/-- `alloccg` for less than a block, with a run of `siz` fragments or a block. -/
def alloccgFrags (s : St) (cg bpref frags siz : ℕ) : Option (ℕ × St) :=
  let cgp := s.fs.cgs cg
  if siz = g.frag then
    if cgp.cg_cs.cs_nbfree = 0 then some (0, s)
    else (alloccgblk g s.fs cg bpref).map fun x => (x.1, { s with fs := hackUp g x.2 cg x.1 frags })
  else
    match mapsearch g.fs_fragshift g.fs_fpg cgp.cg_free cgp.cg_frotor bpref siz with
    | none => none
    | some none => some (0, s)
    | some (some (bno, frotor)) =>
      some (cg * g.fs_fpg + bno, { s with fs := takeFrags s.fs cg bno frotor siz frags })

/-- `alloccg`. -/
def alloccg (size policy : ℕ) : Allocator St := fun s cg bpref =>
  let cgp := s.fs.cgs cg
  if (s.fs.fs_cs cg).cs_nbfree = 0 ∧ size = g.bsize then some (0, s)
  else if cgp.readable = false then some (0, s)
  else if cgp.cg_cs.cs_nbfree = 0 ∧ size = g.bsize then some (0, s)
  else if size = g.bsize then (alloccgblk g s.fs cg bpref).map fun x => (x.1, { s with fs := x.2 })
  else
    let frags := size / 2 ^ g.fs_fshift
    if worst s.fs policy then alloccgFrags g { s with ifrag := true } cg bpref frags g.frag
    else alloccgFrags g s cg bpref frags (allocsiz g cgp frags)

/-- How `alloc` ends. -/
inductive Alloc
  | got (bno : ℕ)
  | nospace
  | quota
  | panic
  deriving DecidableEq

/-- `freespace`, what is left above the reserve. -/
def freespace (fs : Fs) : ℤ :=
  fs.fs_cstotal.cs_nbfree * g.frag + fs.fs_cstotal.cs_nffree - (g.fs_dsize * g.fs_minfree).tdiv 100

/-- `alloc` from the choice of the cylinder group on. -/
def allocFrom (i_number : ℕ) (bpref : ℤ) (size policy : ℕ) (s : St) : Alloc × St :=
  let bpref := if bpref < 0 ∨ g.fs_size ≤ bpref then 0 else bpref.toNat
  let cg := if bpref = 0 then i_number / g.fs_ipg else bpref / g.fs_fpg
  match hashalloc (alloccg g size policy) g.fs_ncg cg bpref s with
  | none => (.panic, s)
  | some (bno, s', _) =>
    if bno = 0 then (.nospace, s') else (.got bno, { s' with i_blocks := s'.i_blocks + size / 1024 })

/-- `alloc` for the inode `i_number` by a user, where `chkdq` says whether the quota refuses. -/
def alloc (i_number u_uid : ℕ) (chkdq : Bool) (bpref : ℤ) (size policy : ℕ) (s : St) : Alloc × St :=
  if g.bsize < size ∨ size % 2 ^ g.fs_fshift ≠ 0 then (.panic, s)
  else if size = g.bsize ∧ s.fs.fs_cstotal.cs_nbfree = 0 then (.nospace, s)
  else if u_uid ≠ 0 ∧ freespace g s.fs ≤ 0 then (.nospace, s)
  else if policy &&& B_DQ_FORCE = 0 ∧ chkdq = true then (.quota, s)
  else allocFrom g i_number bpref size policy s

/-! ### Summaries -/

/-- The fragments of block `b` are all free. -/
def FreeBlock (map : Map) (b : ℕ) : Prop := ∀ i < g.frag, isset map (b * g.frag + i) = true

instance (map : Map) (b : ℕ) : Decidable (FreeBlock g map b) := inferInstanceAs (Decidable (∀ _, _))

/-- The number of blocks in a group. -/
def Geom.blocks (g : Geom) : ℕ := g.fs_fpg / g.frag

/-- The number of free blocks of a map. -/
def nbfree (map : Map) : ℕ := (List.range g.blocks).countP fun b => FreeBlock g map b

/-- The number of runs of `n` fragments in the blocks of a map. -/
def frsum (map : Map) (n : ℕ) : ℕ :=
  ((List.range g.blocks).map fun b =>
    (List.range g.frag).countP fun pos => Run g.frag (blkmap g.fs_fragshift map (b * g.frag)) n pos).sum

/-- The summaries of the groups and of the file system are those of the maps; the rotors are in the groups, nothing
is free behind a map, and the first fragment of the file system, with the boot block, is not free. -/
structure Consistent (fs : Fs) : Prop where
  cgx : ∀ cg < g.fs_ncg, (fs.cgs cg).cg_cgx = cg
  cs : ∀ cg < g.fs_ncg, fs.fs_cs cg = (fs.cgs cg).cg_cs
  nbfree : ∀ cg < g.fs_ncg, (fs.cgs cg).cg_cs.cs_nbfree = nbfree g (fs.cgs cg).cg_free
  frsum : ∀ cg < g.fs_ncg, ∀ n, 1 ≤ n → n < g.frag → (fs.cgs cg).cg_frsum n = frsum g (fs.cgs cg).cg_free n
  total : fs.fs_cstotal.cs_nbfree = ((List.range g.fs_ncg).map fun cg => (fs.cgs cg).cg_cs.cs_nbfree).sum
  frotor : ∀ cg < g.fs_ncg, (fs.cgs cg).cg_frotor < g.fs_fpg
  behind : ∀ cg < g.fs_ncg, ∀ i, g.fs_fpg ≤ i → isset (fs.cgs cg).cg_free i = false
  boot : isset (fs.cgs 0).cg_free 0 = false

/-- All cylinder groups can be read. -/
def Readable (fs : Fs) : Prop := ∀ cg < g.fs_ncg, (fs.cgs cg).readable = true

/-- There are `frags` free fragments in a row in a block of group `cg`. -/
def FreeRun (fs : Fs) (cg frags : ℕ) : Prop :=
  ∃ b < g.blocks, ∃ pos, pos + frags ≤ g.frag ∧
    ∀ i < frags, isset (fs.cgs cg).cg_free (b * g.frag + (pos + i)) = true

variable {g} {fs : Fs} {cg : ℕ}

theorem frag_pos (g : Geom) : 0 < g.frag := Nat.two_pow_pos _

/-- A free block is a run of all fragments. -/
theorem freeBlock_iff (map : Map) (b : ℕ) :
    FreeBlock g map b ↔ Run g.frag (blkmap g.fs_fragshift map (b * g.frag)) g.frag 0 := by
  have hdvd : 2 ^ g.fs_fragshift ∣ b * g.frag := Nat.dvd_mul_left _ _
  constructor
  · intro h
    refine ⟨by omega, fun i hi => ?_, fun h0 => absurd rfl h0, ?_⟩
    · rw [testBit_blkmap g.fragshift_lt hdvd, Nat.zero_add, h i hi, Bool.and_true]
      exact decide_eq_true hi
    · exact testBit_blkmap_ge g.fragshift_lt (by rw [Nat.zero_add]; exact Nat.le_refl _)
  · intro h i hi
    have hbit := h.2.1 i hi
    rw [testBit_blkmap g.fragshift_lt hdvd, Bool.and_eq_true, Nat.zero_add] at hbit
    exact hbit.2

namespace Consistent

theorem nbfree_ne_zero (h : Consistent g fs) (hcg : cg < g.fs_ncg) :
    (fs.cgs cg).cg_cs.cs_nbfree ≠ 0 ↔ ∃ b < g.blocks, FreeBlock g (fs.cgs cg).cg_free b := by
  rw [h.nbfree cg hcg, UfsAlloc.nbfree]
  have hpos := countP_pos_iff (p := fun b => decide (FreeBlock g (fs.cgs cg).cg_free b)) (l := List.range g.blocks)
  simp only [mem_range, decide_eq_true_eq] at hpos
  rw [← hpos]
  omega

theorem frsum_ne_zero (h : Consistent g fs) (hcg : cg < g.fs_ncg) {n : ℕ} (h1 : 1 ≤ n) (hn : n < g.frag) :
    (fs.cgs cg).cg_frsum n ≠ 0 ↔
      ∃ b < g.blocks, ∃ pos, Run g.frag (blkmap g.fs_fragshift (fs.cgs cg).cg_free (b * g.frag)) n pos := by
  rw [h.frsum cg hcg n h1 hn, UfsAlloc.frsum, ne_eq, Int.natCast_eq_zero, sum_eq_zero_iff]
  simp only [mem_map, mem_range, forall_exists_index, and_imp, forall_apply_eq_imp_iff₂, not_forall,
    exists_prop]
  refine exists_congr fun b => and_congr_right fun _ => ?_
  rw [← ne_eq, ← Nat.pos_iff_ne_zero, countP_pos_iff]
  simp only [mem_range, decide_eq_true_eq]
  refine exists_congr fun pos => and_iff_right_of_imp fun hrun => ?_
  have := hrun.1
  omega

/-- The file system has a free block if a group has one. -/
theorem total_ne_zero (h : Consistent g fs) :
    fs.fs_cstotal.cs_nbfree ≠ 0 ↔ ∃ cg < g.fs_ncg, (fs.cgs cg).cg_cs.cs_nbfree ≠ 0 := by
  have hnat : fs.fs_cstotal.cs_nbfree =
      (((List.range g.fs_ncg).map fun cg => UfsAlloc.nbfree g (fs.cgs cg).cg_free).sum : ℕ) := by
    rw [h.total, Nat.cast_list_sum, map_map]
    exact congrArg List.sum (map_congr_left fun cg hcg => h.nbfree cg (mem_range.1 hcg))
  rw [hnat, ne_eq, Int.natCast_eq_zero, sum_eq_zero_iff]
  simp only [mem_map, mem_range, forall_exists_index, and_imp, forall_apply_eq_imp_iff₂, not_forall,
    exists_prop]
  refine exists_congr fun cg => and_congr_right fun hcg => ?_
  rw [h.nbfree cg hcg, ne_eq, Int.natCast_eq_zero]

/-- A group has a run of free fragments if the summaries show a block, or fragments in sufficient number. -/
theorem freeRun_iff (h : Consistent g fs) (hcg : cg < g.fs_ncg) {frags : ℕ} (h1 : 1 ≤ frags) (hle : frags ≤ g.frag) :
    FreeRun g fs cg frags ↔ (fs.cgs cg).cg_cs.cs_nbfree ≠ 0 ∨
      ∃ n, frags ≤ n ∧ n < g.frag ∧ (fs.cgs cg).cg_frsum n ≠ 0 := by
  have hblock : ∀ b, (∃ pos, pos + frags ≤ g.frag ∧
      ∀ i < frags, isset (fs.cgs cg).cg_free (b * g.frag + (pos + i)) = true) ↔
      ∃ a, frags ≤ a ∧ ∃ pos, Run g.frag (blkmap g.fs_fragshift (fs.cgs cg).cg_free (b * g.frag)) a pos :=
    fun b => exists_run_iff g.fragshift_lt (Nat.dvd_mul_left _ _) hle
  rw [h.nbfree_ne_zero hcg]
  constructor
  · rintro ⟨b, hb, hfree⟩
    obtain ⟨a, ha, pos, hrun⟩ := (hblock b).1 hfree
    rcases Nat.lt_or_ge a g.frag with hlt | hge
    · exact .inr ⟨a, ha, hlt, (h.frsum_ne_zero hcg (by omega) hlt).2 ⟨b, hb, pos, hrun⟩⟩
    · have := hrun.1
      obtain rfl : a = g.frag := by omega
      obtain rfl : pos = 0 := by omega
      exact .inl ⟨b, hb, (freeBlock_iff _ b).2 hrun⟩
  · rintro (⟨b, hb, hfree⟩ | ⟨n, hn, hlt, hne⟩)
    · exact ⟨b, hb, (hblock b).2 ⟨g.frag, hle, 0, (freeBlock_iff _ b).1 hfree⟩⟩
    · obtain ⟨b, hb, pos, hrun⟩ := (h.frsum_ne_zero hcg (by omega) hlt).1 hne
      exact ⟨b, hb, (hblock b).2 ⟨n, hn, pos, hrun⟩⟩

end Consistent

/-! ### What a group gives -/

theorem addr_ne_zero {bno : ℕ} (hbno : cg = 0 → bno ≠ 0) : cg * g.fs_fpg + bno ≠ 0 := by
  rcases Nat.eq_zero_or_pos cg with rfl | hpos
  · have := hbno rfl
    omega
  · have := Nat.mul_pos hpos g.fpg_pos
    omega

theorem isset_of_isblock {map : Map} (h : isblock g.fs_fragshift map 0 = true) : isset map 0 = true := by
  unfold isblock at h
  have hmask : (blockMask g.fs_fragshift 0).getLsbD 0 = true := by
    have hs := g.fragshift_lt
    interval_cases g.fs_fragshift <;> decide
  have hbit := congrArg (BitVec.getLsbD · 0) (of_decide_eq_true h)
  simp only [BitVec.getLsbD_and, hmask, Bool.and_true, Nat.zero_div] at hbit
  exact hbit

theorem isset_of_run {map : Map} {b n pos : ℕ} (hn : 1 ≤ n)
    (h : Run g.frag (blkmap g.fs_fragshift map (b * g.frag)) n pos) : isset map (b * g.frag + pos) = true := by
  have hdvd : 2 ^ g.fs_fragshift ∣ b * g.frag := Nat.dvd_mul_left _ _
  have hbit := h.2.1 0 hn
  rw [testBit_blkmap g.fragshift_lt hdvd, Bool.and_eq_true] at hbit
  exact hbit.2

theorem rotate_isblock (map : Map) (bno : ℕ) : ∀ {turns i b : ℕ}, rotate g map bno turns i = some b →
    isblock g.fs_fragshift map b = true
  | 0, _, _, hr => absurd hr nofun
  | turns + 1, i, b, hr => by
    rw [rotate] at hr
    split_ifs at hr with hb
    · rwa [← Option.some.inj hr]
    · exact rotate_isblock map bno hr

section

variable (h : Consistent g fs) (hcg : cg < g.fs_ncg)

include h hcg

theorem mapsearch_cg {bpref n : ℕ} (h1 : 1 ≤ n) (hn : n ≤ g.frag) :
    (∃ b < g.blocks, ∃ pos, Run g.frag (blkmap g.fs_fragshift (fs.cgs cg).cg_free (b * g.frag)) n pos ∧
      ∃ r, mapsearch g.fs_fragshift g.fs_fpg (fs.cgs cg).cg_free (fs.cgs cg).cg_frotor bpref n
        = some (some (b * g.frag + pos, r))) ∨
    (∀ b < g.blocks, ∀ pos, ¬ Run g.frag (blkmap g.fs_fragshift (fs.cgs cg).cg_free (b * g.frag)) n pos) ∧
      mapsearch g.fs_fragshift g.fs_fpg (fs.cgs cg).cg_free (fs.cgs cg).cg_frotor bpref n = some none :=
  mapsearch_spec g.fragshift_lt g.frag_dvd g.fpg_pos (h.frotor cg hcg) (h.behind cg hcg) h1 hn

theorem gotit_ne_zero (cgp : Cg) (hcgx : cgp.cg_cgx = cg) {bno : ℕ} (hbno : bno = 0 → isset (fs.cgs cg).cg_free 0 = true) :
    (gotit g fs cg cgp bno).1 ≠ 0 := by
  unfold gotit
  rw [hcgx]
  refine addr_ne_zero fun h0 hb => ?_
  subst h0
  exact Bool.false_ne_true (h.boot.symm.trans (hbno hb))

theorem norot_ne_zero (hfree : (fs.cgs cg).cg_cs.cs_nbfree ≠ 0) (bpref : ℕ) {x : ℕ × Fs}
    (hx : norot g fs cg bpref = some x) : x.1 ≠ 0 := by
  unfold norot at hx
  dsimp only at hx
  rcases @mapsearch_cg _ _ _ h hcg bpref _ (frag_pos g) (Nat.le_refl _) with ⟨b, hb, pos, hrun, r, hm⟩ | ⟨hno, -⟩
  · rw [hm] at hx
    obtain rfl := Option.some.inj hx
    refine gotit_ne_zero h hcg { fs.cgs cg with cg_rotor := _, cg_frotor := _ } (h.cgx cg hcg) fun h0 => ?_
    rw [← h0]
    exact isset_of_run (frag_pos g) hrun
  · obtain ⟨b, hb, hfb⟩ := (h.nbfree_ne_zero hcg).1 hfree
    exact absurd ((freeBlock_iff _ b).1 hfb) (hno b hb 0)

/-- A group with a free block does not refuse one. -/
theorem alloccgblk_ne_zero (hfree : (fs.cgs cg).cg_cs.cs_nbfree ≠ 0) (bpref : ℕ) {x : ℕ × Fs}
    (hx : alloccgblk g fs cg bpref = some x) : x.1 ≠ 0 := by
  unfold alloccgblk at hx
  dsimp only at hx
  split_ifs at hx with h0 hblk hbtot hcpc hcyl hpost
  · exact norot_ne_zero h hcg hfree _ hx
  · obtain rfl := Option.some.inj hx
    refine gotit_ne_zero h hcg _ (h.cgx cg hcg) fun hb => ?_
    rw [hb, Nat.zero_div] at hblk
    exact isset_of_isblock hblk
  · exact norot_ne_zero h hcg hfree _ hx
  · exact norot_ne_zero h hcg hfree _ hx
  · obtain ⟨b, hb, rfl⟩ := Option.map_eq_some_iff.1 hx
    refine gotit_ne_zero h hcg _ (h.cgx cg hcg) fun hb0 => ?_
    have hblock := rotate_isblock _ _ hb
    rcases Nat.mul_eq_zero.1 hb0 with rfl | hf
    · exact isset_of_isblock hblock
    · exact absurd hf (frag_pos g).ne'
  · exact norot_ne_zero h hcg hfree _ hx

end

/-- The run that is looked for is the smallest that the summary shows. -/
theorem allocsiz_spec (cgp : Cg) (frags : ℕ) :
    allocsiz g cgp frags = g.frag ∧ (∀ n, frags ≤ n → n < g.frag → cgp.cg_frsum n = 0) ∨
      frags ≤ allocsiz g cgp frags ∧ allocsiz g cgp frags < g.frag ∧ cgp.cg_frsum (allocsiz g cgp frags) ≠ 0 := by
  unfold allocsiz
  cases hfind : (List.range' frags (g.frag - frags)).find? fun n => cgp.cg_frsum n ≠ 0 with
  | none =>
    refine .inl ⟨rfl, fun n hn hlt => ?_⟩
    have := find?_eq_none.1 hfind n (mem_range'_1.2 ⟨hn, by omega⟩)
    simpa using this
  | some n =>
    have hn := mem_range'_1.1 (mem_of_find?_eq_some hfind)
    have hne := find?_some (p := fun n => decide (cgp.cg_frsum n ≠ 0)) hfind
    exact .inr ⟨hn.1, by simp only [Option.getD_some]; omega, of_decide_eq_true hne⟩

/-- The groups that `alloccg` refuses, by their summaries. -/
def Refuses (g : Geom) (fs : Fs) (size policy cg : ℕ) : Prop :=
  (fs.cgs cg).cg_cs.cs_nbfree = 0 ∧ (size = g.bsize ∨ worst fs policy ∨
    ∀ n, size / 2 ^ g.fs_fshift ≤ n → n < g.frag → (fs.cgs cg).cg_frsum n = 0)

section

variable (h : Consistent g fs) (hcg : cg < g.fs_ncg) {s : St} (hs : s.fs = fs) {size : ℕ} (policy bpref : ℕ)

include h hcg hs

omit hcg in
theorem alloccgFrags_refuses {frags siz : ℕ} (hnb : (fs.cgs cg).cg_cs.cs_nbfree = 0) (hsiz : siz = g.frag) :
    alloccgFrags g s cg bpref frags siz = some (0, s) := by
  subst hs
  unfold alloccgFrags
  dsimp only
  rw [if_pos hsiz, if_pos hnb]

/-- Fragments are not refused if there is a block, or a run of the size that is looked for. -/
theorem alloccgFrags_ne_zero {frags siz : ℕ} (hfrags : 1 ≤ siz) (hle : siz ≤ g.frag)
    (hblk : siz = g.frag → (fs.cgs cg).cg_cs.cs_nbfree ≠ 0)
    (hrun : siz < g.frag → (fs.cgs cg).cg_frsum siz ≠ 0) {x : ℕ × St}
    (hx : alloccgFrags g s cg bpref frags siz = some x) : x.1 ≠ 0 := by
  subst hs
  unfold alloccgFrags at hx
  dsimp only at hx
  split_ifs at hx with hsiz hnb
  · exact absurd hnb (hblk hsiz)
  · obtain ⟨y, hy, rfl⟩ := Option.map_eq_some_iff.1 hx
    exact alloccgblk_ne_zero h hcg hnb _ hy
  · have hlt : siz < g.frag := by omega
    rcases @mapsearch_cg _ _ _ h hcg bpref _ hfrags hle with ⟨b, hb, pos, hr, r, hm⟩ | ⟨hno, -⟩
    · rw [hm] at hx
      obtain rfl := Option.some.inj hx
      refine addr_ne_zero fun h0 hb0 => ?_
      have hset := isset_of_run hfrags hr
      subst h0
      rw [hb0] at hset
      exact Bool.false_ne_true (h.boot.symm.trans hset)
    · obtain ⟨b, hb, pos, hr⟩ := (h.frsum_ne_zero hcg hfrags hlt).1 (hrun hlt)
      exact absurd hr (hno b hb pos)

omit hcg in
/-- A group that is refused stays as it is. -/
theorem alloccg_refuses (href : Refuses g fs size policy cg) :
    ∃ s', alloccg g size policy s cg bpref = some (0, s') ∧ s'.fs = fs := by
  obtain ⟨hnb, hwhy⟩ := href
  unfold alloccg
  dsimp only
  split_ifs with h1 h2 h3 hsize hworst
  · exact ⟨s, rfl, hs⟩
  · exact ⟨s, rfl, hs⟩
  · exact ⟨s, rfl, hs⟩
  · exact absurd ⟨by rw [hs]; exact hnb, hsize⟩ h3
  · exact ⟨_, alloccgFrags_refuses h (s := { s with ifrag := true }) hs bpref hnb rfl, hs⟩
  · refine ⟨s, alloccgFrags_refuses h hs bpref hnb ?_, hs⟩
    rw [hs] at hworst ⊢
    rcases allocsiz_spec (g := g) (fs.cgs cg) (size / 2 ^ g.fs_fshift) with ⟨heq, -⟩ | ⟨hge, hlt, hne⟩
    · exact heq
    · exact absurd (((hwhy.resolve_left hsize).resolve_left hworst) _ hge hlt) hne

/-- A group that is not refused by its summary gives something. -/
theorem alloccg_ne_zero (hread : (fs.cgs cg).readable = true) (href : ¬ Refuses g fs size policy cg)
    (hsize : 1 ≤ size / 2 ^ g.fs_fshift) {x : ℕ × St}
    (hx : alloccg g size policy s cg bpref = some x) : x.1 ≠ 0 := by
  have hs' := hs
  subst hs
  unfold Refuses at href
  unfold alloccg at hx
  dsimp only at hx
  split_ifs at hx with h1 h2 h3 hblk hworst
  · rw [h.cs cg hcg] at h1
    exact absurd ⟨h1.1, .inl h1.2⟩ href
  · rw [hread] at h2
    cases h2
  · exact absurd ⟨h3.1, .inl h3.2⟩ href
  · obtain ⟨y, hy, rfl⟩ := Option.map_eq_some_iff.1 hx
    exact alloccgblk_ne_zero h hcg (fun hnb => h3 ⟨hnb, hblk⟩) _ hy
  · exact alloccgFrags_ne_zero h hcg (s := { s with ifrag := true }) rfl bpref (frag_pos g) (Nat.le_refl _)
      (fun _ hnb => href ⟨hnb, .inr (.inl hworst)⟩) (fun hlt => absurd hlt (Nat.lt_irrefl _)) hx
  · rcases allocsiz_spec (g := g) (s.fs.cgs cg) (size / 2 ^ g.fs_fshift) with ⟨heq, hno⟩ | ⟨hge, hlt, hne⟩
    · exact alloccgFrags_ne_zero h hcg rfl bpref (by rw [heq]; exact frag_pos g) (Nat.le_of_eq heq)
        (fun _ hnb => href ⟨hnb, .inr (.inr hno)⟩) (fun hlt => absurd heq hlt.ne) hx
    · exact alloccgFrags_ne_zero h hcg rfl bpref (by omega) hlt.le (fun heq => absurd heq hlt.ne) (fun _ => hne) hx

end

/-! ### When there is no space -/

/-- Every group is refused exactly if none has a run of free fragments of the size. -/
theorem refuses_iff (h : Consistent g fs) (policy : ℕ) {frags : ℕ} (h1 : 1 ≤ frags) (hle : frags ≤ g.frag) :
    (∀ cg < g.fs_ncg, Refuses g fs (frags * 2 ^ g.fs_fshift) policy cg) ↔ ∀ cg < g.fs_ncg, ¬ FreeRun g fs cg frags := by
  have hdiv : frags * 2 ^ g.fs_fshift / 2 ^ g.fs_fshift = frags := Nat.mul_div_cancel _ (Nat.two_pow_pos _)
  constructor
  · intro hall cg hcg hfree
    obtain ⟨hnb, hwhy⟩ := hall cg hcg
    rw [hdiv] at hwhy
    rcases (h.freeRun_iff hcg h1 hle).1 hfree with hne | ⟨n, hn, hlt, hne⟩
    · exact hne hnb
    · rcases hwhy with hsize | hworst | hno
      · have : frags = g.frag := Nat.eq_of_mul_eq_mul_right (Nat.two_pow_pos _) hsize
        omega
      · -- a free block of another group
        obtain ⟨cg', hcg', hne'⟩ := h.total_ne_zero.1 hworst.2
        exact hne' (hall cg' hcg').1
      · exact hne (hno n hn hlt)
  · intro hall cg hcg
    have hno := mt (h.freeRun_iff hcg h1 hle).2 (hall cg hcg)
    rw [not_or, not_not] at hno
    refine ⟨hno.1, .inr (.inr fun n hn hlt => ?_)⟩
    rw [hdiv] at hn
    by_contra hne
    exact hno.2 ⟨n, hn, hlt, hne⟩

/-- The search through the groups reports no space exactly if none has a run of the size. -/
theorem allocFrom_nospace_iff {s : St} (h : Consistent g s.fs) (hread : Readable g s.fs) {frags : ℕ}
    (h1 : 1 ≤ frags) (hle : frags ≤ g.frag) {i_number : ℕ} (hino : i_number / g.fs_ipg < g.fs_ncg) (bpref : ℤ)
    (policy : ℕ) : (allocFrom g i_number bpref (frags * 2 ^ g.fs_fshift) policy s).1 = .nospace ↔
      ∀ cg < g.fs_ncg, ¬ FreeRun g s.fs cg frags := by
  have hdiv : frags * 2 ^ g.fs_fshift / 2 ^ g.fs_fshift = frags := Nat.mul_div_cancel _ (Nat.two_pow_pos _)
  unfold allocFrom
  obtain ⟨pref, hpref⟩ : ∃ pref, pref = if bpref < 0 ∨ g.fs_size ≤ bpref then 0 else bpref.toNat := ⟨_, rfl⟩
  rw [← hpref]
  dsimp only
  have hcg : (if pref = 0 then i_number / g.fs_ipg else pref / g.fs_fpg) < g.fs_ncg := by
    split_ifs with h0
    · exact hino
    · refine Nat.div_lt_of_lt_mul ?_
      have := g.size_le
      rw [Nat.mul_comm]
      split_ifs at hpref <;> omega
  obtain ⟨icg, hicg⟩ : ∃ icg, icg = if pref = 0 then i_number / g.fs_ipg else pref / g.fs_fpg := ⟨_, rfl⟩
  rw [← hicg] at hcg ⊢
  rw [← refuses_iff h policy h1 hle]
  constructor
  · intro hno
    cases hh : hashalloc (alloccg g (frags * 2 ^ g.fs_fshift) policy) g.fs_ncg icg pref s with
    | none =>
      rw [hh] at hno
      cases hno
    | some x =>
      obtain ⟨r, s', probes⟩ := x
      have hr : r = 0 := by
        by_contra hr
        rw [hh] at hno
        dsimp only at hno
        rw [if_neg hr] at hno
        cases hno
      refine (hashalloc_eq_zero_iff _ (I := fun t => t.fs = s.fs) hcg ?_ rfl hh).1 hr
      intro t ht x hx r t' hrun
      have hlt := lt_of_mem_cgs hcg hx
      by_cases href : Refuses g s.fs (frags * 2 ^ g.fs_fshift) policy x.1
      · obtain ⟨t₁, ht₁, hsame⟩ := alloccg_refuses h ht policy x.2 href
        obtain ⟨rfl, rfl⟩ : 0 = r ∧ t₁ = t' := by simpa using ht₁.symm.trans hrun
        exact ⟨iff_of_true rfl href, fun _ => hsame⟩
      · have hne := alloccg_ne_zero h hlt ht policy x.2 (hread x.1 hlt) href (by omega) hrun
        exact ⟨iff_of_false hne href, fun h0 => absurd h0 hne⟩
  · intro hall
    obtain ⟨s', probes, hzero⟩ := @hashalloc_eq_zero _ (alloccg g (frags * 2 ^ g.fs_fshift) policy)
      (fun t => t.fs = s.fs) _ _ pref hcg
      (fun t ht cg hlt pref => alloccg_refuses h ht policy pref (hall cg hlt)) _ rfl
    rw [hzero]
    rfl

/-- `hashalloc` asks groups that exist, and all of them before it gives up, which it does exactly if all refuse.
With consistent summaries, groups that can be read and a quota that does not refuse, `alloc` reports that there is no
space exactly if no group has a run of free fragments of the size, or the user is not the super-user and only the
reserve is left. -/
theorem alloc_nospace_iff (g : Geom) (s : St) (i_number u_uid : ℕ) (chkdq : Bool) (bpref : ℤ) (frags policy : ℕ)
    (h : Consistent g s.fs) (hread : Readable g s.fs) (h1 : 1 ≤ frags) (hle : frags ≤ g.frag)
    (hino : i_number / g.fs_ipg < g.fs_ncg) (hquota : policy &&& B_DQ_FORCE ≠ 0 ∨ chkdq = false) :
    (∀ (σ : Type) (allocator : Allocator σ) (ncg icg pref : ℕ) (t : σ), icg < ncg →
      ((∀ t cg pref, allocator t cg pref ≠ none) → hashalloc allocator ncg icg pref t ≠ none) ∧
      ∀ r t' probes, hashalloc allocator ncg icg pref t = some (r, t', probes) → Searched ncg r probes) ∧
    ((alloc g i_number u_uid chkdq bpref (frags * 2 ^ g.fs_fshift) policy s).1 = .nospace ↔
      (∀ cg < g.fs_ncg, ¬ FreeRun g s.fs cg frags) ∨ u_uid ≠ 0 ∧ freespace g s.fs ≤ 0) := by
  refine ⟨fun σ allocator ncg icg pref t hicg => ⟨fun ha => ask_isSome allocator ha _ t,
    fun r t' probes hr => hashalloc_searched allocator hicg hr⟩, ?_⟩
  unfold alloc
  split_ifs with hbad hfull hres hq
  · exfalso
    rcases hbad with hbad | hbad
    · exact absurd (Nat.mul_le_mul_right (2 ^ g.fs_fshift) hle) (Nat.not_le.2 hbad)
    · exact hbad (Nat.mul_mod_left _ _)
  · -- no free block in the file system
    refine iff_of_true rfl (.inl ((refuses_iff h policy h1 hle).1 fun cg hcg => ⟨?_, .inl hfull.1⟩))
    by_contra hne
    exact h.total_ne_zero.2 ⟨cg, hcg, hne⟩ hfull.2
  · exact iff_of_true rfl (.inr hres)
  · exfalso
    rcases hquota with hf | hf
    · exact hf hq.1
    · rw [hf] at hq
      cases hq.2
  · rw [allocFrom_nospace_iff h hread h1 hle hino bpref policy, or_iff_left hres]

/-! ### A small file system -/

/-- Two blocks of 8 fragments in one group, and half of them in reserve. -/
def twoBlocks : Geom where
  fs_ncg := 1
  fs_fpg := 16
  fs_fragshift := 3
  fs_fshift := 10
  fs_size := 16
  fs_dsize := 16
  fs_minfree := 50
  fs_ipg := 64
  fs_spc := 16
  fs_nsect := 16
  fs_nspf := 1
  fs_cpc := 0
  fs_postbl _ _ := -1
  fs_rotbl _ := 0
  MAXBPC := 16
  fragshift_lt := by decide
  fpg_pos := by decide
  frag_dvd := by decide
  size_le := by decide

/-- The second block is free. -/
def halfFree (readable : Bool) : St where
  fs :=
    { cgs := fun _ =>
        { cg_cgx := 0
          cg_cs := ⟨1, 0⟩
          cg_rotor := 0
          cg_frotor := 0
          cg_frsum := fun _ => 0
          cg_btot := fun _ => 1
          cg_b := fun _ _ => 1
          cg_free := fun i => if i = 1 then 0xff else 0
          readable := readable }
      fs_cs := fun _ => ⟨1, 0⟩
      fs_cstotal := ⟨1, 0⟩
      fs_fmod := false }
  i_blocks := 0
  ifrag := false

theorem halfFree_consistent (readable : Bool) : Consistent twoBlocks (halfFree readable).fs where
  cgx cg hcg := by
    obtain rfl : cg = 0 := Nat.lt_one_iff.1 hcg
    rfl
  cs _ _ := rfl
  nbfree _ _ := by
    show (1 : ℤ) = (nbfree twoBlocks fun i => if i = 1 then 0xff else 0 : ℕ)
    decide
  frsum _ _ n h1 hn := by
    have hall : ∀ n < 8, 1 ≤ n → frsum twoBlocks (fun i => if i = 1 then 0xff else 0) n = 0 := by decide +kernel
    exact congrArg Nat.cast (hall n hn h1).symm
  total := rfl
  frotor _ _ := show 0 < 16 by decide
  behind _ _ i hi := by
    have hne : i / 8 ≠ 1 := by
      have : 16 ≤ i := hi
      omega
    simp [isset, halfFree, hne]
  boot := show isset (fun i => if i = 1 then 0xff else 0) 0 = false by decide

/-- The super-user gets the block of the reserve. -/
theorem alloc_nospace_superuser :
    (alloc twoBlocks 2 0 false 0 (8 * 2 ^ 10) B_WORSTFIT (halfFree true)).1 ≠ .nospace := by
  have h := (alloc_nospace_iff twoBlocks (halfFree true) 2 0 false 0 8 B_WORSTFIT (halfFree_consistent true)
    (fun _ _ => rfl) (by decide) (by decide) (by decide) (.inr rfl)).2
  intro hno
  rcases h.1 hno with hfree | hres
  · exact hfree 0 (by decide) ⟨1, by decide, 0, by decide, by decide⟩
  · exact hres.1 rfl

/-- Two requests for a block that report no space though there is a free one: by a user for whom only the reserve is
left, and with a group that cannot be read. -/
theorem alloc_reserve :
    Consistent twoBlocks (halfFree true).fs ∧ FreeRun twoBlocks (halfFree true).fs 0 8 ∧
      (alloc twoBlocks 2 1 false 0 (8 * 2 ^ 10) B_WORSTFIT (halfFree true)).1 = .nospace ∧
      Consistent twoBlocks (halfFree false).fs ∧ FreeRun twoBlocks (halfFree false).fs 0 8 ∧
      (alloc twoBlocks 2 0 false 0 (8 * 2 ^ 10) B_WORSTFIT (halfFree false)).1 = .nospace :=
  ⟨halfFree_consistent true, ⟨1, by decide, 0, by decide, by decide⟩, by decide,
    halfFree_consistent false, ⟨1, by decide, 0, by decide, by decide⟩, by decide⟩

end UfsAlloc

end Hpux
