import Hpux910.Ufs.DirLinkCount

/-!
# Creating, linking and removing

What `direnter(DE_CREATE)`, `direnter(DE_LINK)` and `dirremove` do to the excess of the link counts
over the directory entries.

* `dirfixdotdot_rewrite` : a rewritten `..`.
* `direnterCreate_excess`, `direnterLink_excess` : a new entry.
* `dirremove_unlink`, `dirremove_rmdir`, `dirremove_matching` : an entry taken out.
-/

namespace Hpux.DirLink

open Option

variable {Ino : Type} [DecidableEq Ino]

theorem firstErr_eq_none {l : List (Option Errno)} : firstErr l = none ↔ ∀ e ∈ l, e = none := by
  rw [firstErr, List.findSome?_eq_none_iff]
  rfl

@[simp] theorem firstErr_nil : firstErr [] = none := rfl

@[simp] theorem firstErr_cons (e : Option Errno) (l : List (Option Errno)) :
    firstErr (e :: l) = none ↔ e = none ∧ firstErr l = none := by
  rw [firstErr_eq_none, firstErr_eq_none, List.forall_mem_cons]

@[simp] theorem errIf_eq_none {p : Prop} [Decidable p] {e : Errno} : errIf p e = none ↔ ¬p := by
  rw [errIf]
  split_ifs with h <;> simp [h]

variable {fs : Fs Ino} {env : Env Ino} {tdp : Ino}

omit [DecidableEq Ino] in
theorem ifdir_of_targetErr (h : targetErr fs tdp env = none) : (fs.inode tdp).ifdir = true := by
  rw [targetErr, firstErr_cons, errIf_eq_none] at h
  exact Bool.eq_true_of_not_eq_false h.1

omit [DecidableEq Ino] in
theorem setDotdot_nlink (lfn : Bool) (n : Ino) (ip : Inode Ino) :
    (setDotdot lfn n ip).iNlink = ip.iNlink := by
  rw [setDotdot]
  split <;> rfl

omit [DecidableEq Ino] in
theorem setDotdot_ifdir (lfn : Bool) (n : Ino) (ip : Inode Ino) :
    (setDotdot lfn n ip).ifdir = ip.ifdir := by
  rw [setDotdot]
  split <;> rfl

theorem single_two (i : Ino) : (Pi.single i 2 : Ino → ℤ) = Pi.single i 1 + Pi.single i 1 := by
  rw [← Pi.single_add]
  rfl

theorem single_neg_one (i : Ino) : (Pi.single i (-1) : Ino → ℤ) = -Pi.single i 1 :=
  Pi.single_neg i 1

theorem single_ne_zero (i : Ino) : (Pi.single i 1 : Ino → ℤ) ≠ 0 := by
  rw [Ne, Pi.single_eq_zero_iff]
  exact one_ne_zero

/-! ### `dirfixdotdot` and `diraddentry` -/

variable [Fintype Ino]

theorem excess_dirprepareentry (fs : Fs Ino) (dp : Ino) (s : Slot Ino) :
    (dirprepareentry fs dp s).excess = fs.excess := by
  refine Fs.excess_upd_keep _ _ rfl ?_
  rw [Inode.held, Inode.held, List.map_map]
  rfl

/-- What a rewritten `..` does to the counts. -/
theorem dirfixdotdot_rewrite {dp opdp npdp : Ino}
    (h : dotdotFix fs dp npdp env = .rewrite) (hdir : (fs.inode dp).ifdir = true) :
    (dirfixdotdot fs dp opdp npdp env).2 = none ∧
      (dirfixdotdot fs dp opdp npdp env).1.excess = fs.excess
        + Pi.single (dotdotLoses fs.lfn (fs.inode dp) npdp) 1
        - if (fs.inode opdp).iNlink + (if opdp = npdp then 1 else 0) ≠ 0 then Pi.single opdp 1
          else 0 := by
  set fs1 := (fs.link npdp 1).upd dp (setDotdot fs.lfn npdp) with hfs1
  have hn : (fs1.inode opdp).iNlink
      = (fs.inode opdp).iNlink + if opdp = npdp then 1 else 0 := by
    rw [hfs1, Fs.upd_inode]
    split_ifs with h1
    all_goals simp_all [setDotdot_nlink]
  have hex : fs1.excess = fs.excess + Pi.single (dotdotLoses fs.lfn (fs.inode dp) npdp) 1 := by
    have hdir' : ((fs.link npdp 1).inode dp).ifdir = true := by rwa [Fs.link_ifdir]
    rw [hfs1, Fs.excess_upd_held _ _ (setDotdot_nlink _ _ _), tally_held_setDotdot hdir',
      Fs.excess_link, dotdotLoses_link]
    abel
  have hcall : dirfixdotdot fs dp opdp npdp env
      = (if (fs1.inode opdp).iNlink ≠ 0 then fs1.link opdp (-1) else fs1, none) := by
    rw [dirfixdotdot, h]
  rw [hcall, ← hn]
  refine ⟨rfl, ?_⟩
  dsimp only
  split_ifs with h1
  · rw [Fs.excess_link, hex, single_neg_one]
    abel
  · rw [hex, sub_zero]

omit [Fintype Ino] in
/-- Only the directory whose `..` is rewritten changes in more than its link count. -/
theorem dirfixdotdot_keep {α : Type} (f : Inode Ino → α)
    (hf : ∀ (ip : Inode Ino) (z : ℤ), f { ip with iNlink := z } = f ip) (fs : Fs Ino)
    (dp opdp npdp : Ino) (env : Env Ino) {j : Ino} (hj : j ≠ dp) :
    f ((dirfixdotdot fs dp opdp npdp env).1.inode j) = f (fs.inode j) := by
  rw [dirfixdotdot]
  split
  · rfl
  · rfl
  · dsimp only
    have h1 : f (((fs.link npdp 1).upd dp (setDotdot fs.lfn npdp)).inode j) = f (fs.inode j) := by
      rw [Fs.upd_inode, if_neg hj]
      exact Fs.link_keep f hf _ _ _ _
    split_ifs
    · rw [Fs.link_keep f hf, h1]
    · exact h1

omit [Fintype Ino] in
theorem dirfixdotdot_ifdir (fs : Fs Ino) (dp opdp npdp : Ino) (env : Env Ino) (j : Ino) :
    ((dirfixdotdot fs dp opdp npdp env).1.inode j).ifdir = (fs.inode j).ifdir := by
  by_cases hj : j = dp
  · subst hj
    rw [dirfixdotdot]
    split
    · rfl
    · rfl
    · dsimp only
      split_ifs
      · rw [Fs.link_ifdir, Fs.upd_inode, if_pos rfl, setDotdot_ifdir, Fs.link_ifdir]
      · rw [Fs.upd_inode, if_pos rfl, setDotdot_ifdir, Fs.link_ifdir]
  · exact dirfixdotdot_keep (·.ifdir) (fun _ _ => rfl) fs dp opdp npdp env hj

omit [Fintype Ino] in
/-- The link counts of all but the two parents stay. -/
theorem dirfixdotdot_nlink (fs : Fs Ino) (dp opdp npdp : Ino) (env : Env Ino) {j : Ino}
    (h1 : j ≠ opdp) (h2 : j ≠ npdp) :
    ((dirfixdotdot fs dp opdp npdp env).1.inode j).iNlink = (fs.inode j).iNlink := by
  have hset : (((fs.link npdp 1).upd dp (setDotdot fs.lfn npdp)).inode j).iNlink
      = (fs.inode j).iNlink := by
    rw [Fs.upd_inode]
    split_ifs with h
    · rw [setDotdot_nlink, ← h, Fs.link_nlink, if_neg h2, add_zero]
    · rw [Fs.link_nlink, if_neg h2, add_zero]
  rw [dirfixdotdot]
  split
  · rfl
  · rfl
  · dsimp only
    split_ifs
    · rw [Fs.link_nlink, if_neg h1, add_zero, hset]
    · exact hset

theorem excess_addEnt (s : Slot Ino) (name : String) (sip : Ino) (hdir : (fs.inode tdp).ifdir = true) :
    (fs.upd tdp (Inode.addEnt s name sip)).excess = fs.excess - Pi.single sip 1 := by
  rw [Fs.excess_upd_held, tally_held_addEnt s name sip hdir]
  · abel
  · rfl

variable {name : String}

omit [Fintype Ino] in
theorem diraddentry_prepare {tdp sip : Ino} {sdp : Option Ino}
   {e : Errno} (h : env.prepare = some e) : diraddentry fs tdp name sip sdp env
      = (fs.upd tdp fun d => { d with iSize := max d.iSize env.grown }, some e) := by
  rw [diraddentry, h]

theorem excess_grown (fs : Fs Ino) (tdp : Ino) (z : ℕ) :
    (fs.upd tdp fun d => { d with iSize := max d.iSize z }).excess = fs.excess :=
  Fs.excess_upd_keep _ _ rfl rfl

theorem diraddentry_none (name : String) (sip : Ino)
    (h : env.prepare = none) (hdir : (fs.inode tdp).ifdir = true) :
    (diraddentry fs tdp name sip none env).2 = none ∧
      (diraddentry fs tdp name sip none env).1.excess = fs.excess - Pi.single sip 1 := by
  rw [diraddentry, h]
  refine ⟨rfl, ?_⟩
  dsimp only
  rw [excess_addEnt, excess_dirprepareentry]
  rw [dirprepareentry, Fs.upd_inode, if_pos rfl]
  exact hdir

/-! ### Creating and linking -/

theorem excess_set_zero (fs : Fs Ino) (n : Ino) :
    (fs.upd n fun ip => { ip with iNlink := 0 }).excess
      = fs.excess - Pi.single n (fs.inode n).iNlink := by
  have hh : ({ fs.inode n with iNlink := 0 } : Inode Ino).held = (fs.inode n).held := rfl
  rw [Fs.excess_upd, hh]
  dsimp only
  rw [zero_sub, Pi.single_neg]
  abel

theorem excess_unmake (fs : Fs Ino) (n : Ino) :
    (iput (fs.upd n fun ip => { ip with iNlink := 0 }) n).excess
      = fs.excess - Pi.single n (fs.inode n).iNlink + tally (fs.inode n).held := by
  rw [excess_iput, excess_set_zero, Fs.upd_inode, if_pos rfl]
  · rfl
  · rw [Fs.upd_inode, if_pos rfl]

/-- `dirmakeinode` makes an inode with one link too many, which the entry to come accounts for. -/
theorem dirmakeinode_excess {tdp n : Ino} (vt : VType) (env : Env Ino)
    (hn : (fs.inode n).ifdir = false) (hz : (fs.inode n).iNlink = 0)
    (hdir : (fs.inode tdp).ifdir = true) :
    (∃ fs1 e, vt = .VDIR ∧ dirmakeinode fs tdp n vt env = (fs1, some e) ∧ fs1.excess = fs.excess) ∨
    ∃ fs1, dirmakeinode fs tdp n vt env = (fs1, none) ∧
      fs1.excess = fs.excess + Pi.single n 1 ∧ (fs1.inode tdp).ifdir = true ∧
      (fs1.inode n).ifdir = decide (vt ≠ .file) ∧
      (fs1.inode n).iNlink = (if vt = .VDIR then 2 else 1) ∧
      (fs1.inode n).held = if vt = .VDIR then [n, tdp] else [] := by
  have hne : tdp ≠ n := by
    rintro rfl
    rw [hdir] at hn
    exact absurd hn (by decide)
  have hheld : (fs.inode n).held = [] := by
    rw [Inode.held, hn]
    rfl
  set made : Inode Ino := {
    ifdir := vt ≠ .file, iNlink := if vt = .VDIR then 2 else 1, iSize := 0, ents := [],
    stale := (none, false) } with hmade
  have hmadeHeld : made.held = [] := by
    rw [Inode.held]
    split_ifs <;> rfl
  have hex : (fs.upd n fun _ => made).excess = fs.excess + Pi.single n made.iNlink := by
    rw [Fs.excess_upd, hz, hheld, hmadeHeld, sub_zero, tally_nil]
    abel
  by_cases hvt : vt = .VDIR
  · subst hvt
    have hmk : dirmakeinode fs tdp n .VDIR env
        = let r := dirmakedirect (fs.upd n fun _ => made) n tdp env
          (r.2.elim r.1 fun _ => iput (r.1.upd n fun ip => { ip with iNlink := 0 }) n, r.2) := by
      rw [dirmakeinode, if_pos rfl]
      rcases dirmakedirect (fs.upd n fun _ => made) n tdp env with ⟨fs2, _ | e⟩ <;> rfl
    rw [hmk, dirmakedirect]
    cases firstErr [errIf (((fs.upd n fun _ => made).inode tdp).iNlink ≥ MAXLINK) .EMLINK,
      env.bmap] with
    | some e =>
      refine .inl ⟨_, e, rfl, rfl, ?_⟩
      dsimp only [Option.elim]
      rw [excess_unmake, hex, Fs.upd_inode, if_pos rfl, hmadeHeld, tally_nil]
      abel
    | none =>
      dsimp only [Option.elim]
      refine .inr ⟨_, rfl, ?_, ?_, ?_, ?_, ?_⟩
      · have hheld' : ∀ ip : Inode Ino, ip.ifdir = true →
            tally ({ ip with
              iSize := dirtemplateSize fs.lfn
              ents := [⟨0, ".", n⟩, ⟨dotdotOff fs.lfn, "..", tdp⟩] } : Inode Ino).held
              = Pi.single n 1 + Pi.single tdp 1 := by
          intro ip hip
          rw [Inode.held, if_pos hip]
          simp
        have hmid : ((fs.upd n fun _ => made).link tdp 1).inode n = made := by
          rw [Fs.link, Fs.upd_inode, if_neg hne.symm, Fs.upd_inode, if_pos rfl]
        dsimp only [Fs.upd_lfn]
        rw [Fs.excess_upd_held _ _ rfl, hmid, hheld' made rfl, hmadeHeld, tally_nil,
          Fs.excess_link, hex]
        rw [show made.iNlink = 2 from rfl, single_two]
        abel
      · rw [Fs.upd_inode, if_neg hne, Fs.link_ifdir, Fs.upd_inode, if_neg hne]
        exact hdir
      · rw [Fs.upd_inode, if_pos rfl]
        dsimp only
        rw [Fs.link_ifdir, Fs.upd_inode, if_pos rfl]
      · rw [Fs.upd_inode, if_pos rfl]
        dsimp only
        rw [Fs.link_nlink, if_neg hne.symm, add_zero, Fs.upd_inode, if_pos rfl]
      · rw [Fs.upd_inode, if_pos rfl, Inode.held]
        dsimp only
        rw [Fs.link_ifdir, Fs.upd_inode, if_pos rfl]
        rfl
  · refine .inr ⟨fs.upd n fun _ => made, ?_, ?_, ?_, ?_, ?_, ?_⟩
    · rw [dirmakeinode]
      exact if_neg hvt
    · rw [hex, hmade]
      dsimp only
      rw [if_neg hvt]
    · rw [Fs.upd_inode, if_neg hne]
      exact hdir
    · rw [Fs.upd_inode, if_pos rfl]
    · rw [Fs.upd_inode, if_pos rfl]
    · rw [Fs.upd_inode, if_pos rfl, hmadeHeld, if_neg hvt]

omit [Fintype Ino] [DecidableEq Ino] in
theorem ialloc_some {n : Ino} (h : ialloc fs env = some n) :
    (fs.inode n).ifdir = false ∧ (fs.inode n).iNlink = 0 := by
  obtain ⟨-, hf⟩ := filter_eq_some_iff.1 h
  exact of_decide_eq_true hf

omit [Fintype Ino] [DecidableEq Ino] in
theorem ifdir_of_createErr (h : createErr fs tdp name env = none) : (fs.inode tdp).ifdir = true := by
  rw [createErr, firstErr_cons, firstErr_cons] at h
  exact ifdir_of_targetErr h.2.1

/-- `mknod` of an empty directory gets as far as the entry, which cannot be prepared. -/
def EmptyDirFails (fs : Fs Ino) (tdp : Ino) (name : String) (vt : VType) (env : Env Ino) : Prop :=
  createErr fs tdp name env = none ∧ (ialloc fs env).isSome ∧ vt = .VEMPTYDIR ∧ env.prepare ≠ none

/-- `direnter(DE_CREATE)` leaves the counts right, except that an empty directory from `mknod`
whose entry cannot be prepared takes a link of the target directory along. -/
theorem direnterCreate_excess (fs : Fs Ino) (tdp : Ino) (name : String) (vt : VType) (env : Env Ino) :
    ¬EmptyDirFails fs tdp name vt env ∧ (direnterCreate fs tdp name vt env).1.excess = fs.excess ∨
      EmptyDirFails fs tdp name vt env ∧
        (direnterCreate fs tdp name vt env).1.excess = fs.excess - Pi.single tdp 1 := by
  rw [direnterCreate, EmptyDirFails]
  cases hc : createErr fs tdp name env with
  | some e => exact .inl ⟨fun h => absurd h.1 (some_ne_none e), rfl⟩
  | none =>
    have hdir := ifdir_of_createErr hc
    cases hi : ialloc fs env with
    | none => exact .inl ⟨fun h => absurd h.2.1 Bool.false_ne_true, rfl⟩
    | some n =>
      obtain ⟨hn, hz⟩ := ialloc_some hi
      rcases dirmakeinode_excess vt env hn hz hdir with
        ⟨fs1, e, hvt, hm, hex⟩ | ⟨fs1, hm, hex, hdir1, hdirn, hnl, hheld⟩
      · refine .inl ⟨fun h => ?_, ?_⟩
        · rw [hvt] at h
          exact absurd h.2.2.1 (by decide)
        · dsimp only
          rw [hm]
          exact hex
      · dsimp only
        rw [hm]
        dsimp only
        cases hp : env.prepare with
        | none =>
          obtain ⟨h2, hex2⟩ := diraddentry_none name n hp hdir1
          refine .inl ⟨fun h => h.2.2.2 rfl, ?_⟩
          rw [show diraddentry fs1 tdp name n none env
            = ((diraddentry fs1 tdp name n none env).1, none) from Prod.ext rfl h2]
          dsimp only
          rw [hex2, hex, add_sub_cancel_right]
        | some e =>
          have hne : n ≠ tdp := by
            rintro rfl
            rw [hdir] at hn
            exact absurd hn (by decide)
          rw [diraddentry_prepare hp]
          dsimp only
          set fs2 := fs1.upd tdp fun d => { d with iSize := max d.iSize env.grown } with hfs2
          have hn2 : fs2.inode n = fs1.inode n := by rw [hfs2, Fs.upd_inode, if_neg hne]
          have hex2 : fs2.excess = fs.excess + Pi.single n 1 := by
            rw [hfs2, excess_grown, hex]
          rw [hn2, hdirn]
          cases vt with
          | file =>
            refine .inl ⟨fun h => absurd h.2.2.1 (by decide), ?_⟩
            rw [if_neg (by decide), excess_unmake, hn2, hnl, hheld, hex2]
            simp
          | VDIR =>
            refine .inl ⟨fun h => absurd h.2.2.1 (by decide), ?_⟩
            rw [if_pos (by decide), excess_unmake, Fs.link_nlink, if_neg hne, add_zero,
              Fs.link_held, Fs.excess_link, hn2, hnl, hheld, hex2]
            simp only [if_true, tally_cons, tally_nil, single_two, single_neg_one]
            abel
          | VEMPTYDIR =>
            refine .inr ⟨⟨rfl, rfl, rfl, some_ne_none e⟩, ?_⟩
            rw [if_pos (by decide), excess_unmake, Fs.link_nlink, if_neg hne, add_zero,
              Fs.link_held, Fs.excess_link, hn2, hnl, hheld, hex2]
            simp only [reduceCtorEq, if_false, tally_nil, single_neg_one]
            abel

/-- `direnter(DE_LINK)` leaves the counts right. -/
theorem direnterLink_excess (fs : Fs Ino) (tdp : Ino) (name : String) (sip : Ino) (env : Env Ino) :
    (direnterLink fs tdp name sip env).1.excess = fs.excess := by
  rw [direnterLink]
  cases sourceErr fs sip with
  | some e => rfl
  | none =>
    dsimp only
    cases hl : linkErr (fs.link sip 1) tdp name env with
    | some e =>
      dsimp only [undo]
      rw [Fs.excess_link, Fs.excess_link, single_neg_one]
      abel
    | none =>
      have hdir : ((fs.link sip 1).inode tdp).ifdir = true := by
        rw [linkErr, firstErr_cons] at hl
        exact ifdir_of_targetErr hl.1
      cases hp : env.prepare with
      | none =>
        obtain ⟨h2, hex⟩ := diraddentry_none name sip hp hdir
        rw [show diraddentry (fs.link sip 1) tdp name sip none env
          = ((diraddentry (fs.link sip 1) tdp name sip none env).1, none) from Prod.ext rfl h2]
        dsimp only [undo]
        rw [hex, Fs.excess_link, add_sub_cancel_right]
      | some e =>
        rw [diraddentry_prepare hp]
        dsimp only [undo]
        rw [Fs.excess_link, excess_grown, Fs.excess_link, single_neg_one]
        abel

/-! ### Removing -/

/-- The inode whose entry `dirremove` takes out, with the slot, when it gets that far. -/
def removeTarget (fs : Fs Ino) (dp : Ino) (name : String) (oip : Option Ino) (rmdir : Bool)
    (env : RemoveEnv) : Option (ℕ × Ino) :=
  match firstErr [errIf (rmdir ∧ name = ".") .EINVAL, errIf (rmdir ∧ name = "..") .EEXIST,
      errIf ((fs.inode dp).ifdir = false) .ENOTDIR, env.access, env.look] with
  | some _ => none
  | none =>
    (dircheckforname (fs.inode dp) name).filter fun r =>
      (removeErr fs name r.2 oip rmdir env).isNone

variable {oip : Option Ino}

omit [Fintype Ino] in
/-- A call that takes no entry out. -/
theorem dirremove_none {dp : Ino} {rmdir : Bool}
    {env : RemoveEnv} (h : removeTarget fs dp name oip rmdir env = none)
    (hpos : ∀ k i, dircheckforname (fs.inode dp) name = some (k, i) →
      (fs.inode dp).ifdir = true → 0 < (fs.inode i).iNlink) :
    (dirremove fs dp name oip rmdir env).1 = fs := by
  rw [dirremove]
  rw [removeTarget] at h
  cases hf : firstErr [errIf (rmdir ∧ name = ".") .EINVAL, errIf (rmdir ∧ name = "..") .EEXIST,
      errIf ((fs.inode dp).ifdir = false) .ENOTDIR, env.access, env.look] with
  | some e => rfl
  | none =>
    have hdir : (fs.inode dp).ifdir = true := by
      simp only [firstErr_cons, errIf_eq_none] at hf
      exact Bool.eq_true_of_not_eq_false hf.2.2.1
    rw [hf] at h
    dsimp only at h ⊢
    cases hl : dircheckforname (fs.inode dp) name with
    | none => rfl
    | some r =>
      obtain ⟨k, i⟩ := r
      rw [hl] at h
      cases hr : removeErr fs name i oip rmdir env with
      | none => simp [hr] at h
      | some e =>
        dsimp only
        rw [hr]
        dsimp only
        split_ifs
        · rfl
        · exact iput_of_pos (hpos k i hl hdir)

variable {dp i : Ino} {k : ℕ}

omit [Fintype Ino] in
/-- A call that takes an entry out. -/
theorem dirremove_some {rmdir : Bool}
    {env : RemoveEnv} (h : removeTarget fs dp name oip rmdir env = some (k, i)) :
    dircheckforname (fs.inode dp) name = some (k, i) ∧ (fs.inode dp).ifdir = true ∧
      removeErr fs name i oip rmdir env = none ∧ (dirremove fs dp name oip rmdir env).1
        = let fs1 := dropLinks (fs.upd dp (Inode.dropEnt fs.lfn k)) dp i rmdir
          if i = dp then fs1 else iput fs1 i := by
  rw [removeTarget] at h
  rw [dirremove]
  cases hf : firstErr [errIf (rmdir ∧ name = ".") .EINVAL, errIf (rmdir ∧ name = "..") .EEXIST,
      errIf ((fs.inode dp).ifdir = false) .ENOTDIR, env.access, env.look] with
  | some e =>
    rw [hf] at h
    exact absurd h (some_ne_none _).symm
  | none =>
    have hdir : (fs.inode dp).ifdir = true := by
      simp only [firstErr_cons, errIf_eq_none] at hf
      exact Bool.eq_true_of_not_eq_false hf.2.2.1
    rw [hf] at h
    obtain ⟨hl, hr⟩ := filter_eq_some_iff.1 h
    have hr' : removeErr fs name i oip rmdir env = none := isNone_iff_eq_none.1 hr
    refine ⟨hl, hdir, hr', ?_⟩
    dsimp only
    rw [hl]
    dsimp only
    rw [hr']
    dsimp only
    split_ifs <;> rfl

theorem excess_dropEnt
    (hl : dircheckforname (fs.inode dp) name = some (k, i)) (hdir : (fs.inode dp).ifdir = true) :
    (fs.upd dp (Inode.dropEnt fs.lfn k)).excess = fs.excess + Pi.single i 1 := by
  obtain ⟨e, he, -, rfl⟩ := dircheckforname_some hl
  rw [Fs.excess_upd_held, tally_held_dropEnt he hdir]
  · abel
  · rfl

/-- Taking out an entry and one link leaves the counts right, unless that was the last link of a
directory with entries. -/
theorem dirremove_unlink {rmdir : Bool} {env : RemoveEnv}
    (h : removeTarget fs dp name oip rmdir env = some (k, i))
    (hun : ¬(rmdir = true ∧ (fs.inode i).ifdir = true)) (hpos : 0 < (fs.inode i).iNlink) :
    (dirremove fs dp name oip rmdir env).1.excess = fs.excess
      + if i ≠ dp ∧ (fs.inode i).iNlink = 1 then tally (fs.inode i).held else 0 := by
  obtain ⟨hl, hdir, -, heq⟩ := dirremove_some h
  set fs1 := fs.upd dp (Inode.dropEnt fs.lfn k) with hfs1
  have hn1 : (fs1.inode i).iNlink = (fs.inode i).iNlink := by
    rw [hfs1, Fs.upd_inode]
    split_ifs with hi
    · rw [hi]
      rfl
    · rfl
  have hd1 : (fs1.inode i).ifdir = (fs.inode i).ifdir := by
    rw [hfs1, Fs.upd_inode]
    split_ifs with hi
    · rw [hi]
      rfl
    · rfl
  have hdrop : dropLinks fs1 dp i rmdir = fs1.link i (-1) := by
    rw [dropLinks, if_pos (by omega), hd1, if_neg hun]
  have hex : (fs1.link i (-1)).excess = fs.excess := by
    rw [Fs.excess_link, hfs1, excess_dropEnt hl hdir, single_neg_one]
    abel
  rw [heq, hdrop]
  dsimp only
  by_cases hi : i = dp
  · rw [if_pos hi, hex, if_neg (fun h => h.1 hi), add_zero]
  · have hsame : (fs1.inode i).held = (fs.inode i).held := by
      rw [hfs1, Fs.upd_inode, if_neg hi]
    rw [if_neg hi]
    by_cases hone : (fs.inode i).iNlink = 1
    · have hz : ((fs1.link i (-1)).inode i).iNlink ≤ 0 := by
        rw [Fs.link_nlink, if_pos rfl, hn1, hone]
        decide
      rw [excess_iput hz, hex, Fs.link_held, hsame, if_pos ⟨hi, hone⟩]
    · have hp : 0 < ((fs1.link i (-1)).inode i).iNlink := by
        rw [Fs.link_nlink, if_pos rfl, hn1]
        omega
      rw [iput_of_pos hp, hex, if_neg (fun h => hone h.2), add_zero]

omit [Fintype Ino] [DecidableEq Ino] in
theorem dirtemplateSize_ne_zero (lfn : Bool) : dirtemplateSize lfn ≠ 0 := by
  cases lfn <;> decide

/-- What `rmdir` on a directory takes from the counts: the name, one link more for `.`, and a link
of the parent for `..`. -/
theorem dirremove_rmdir {env : RemoveEnv} (h : removeTarget fs dp name oip true env = some (k, i))
    (hdiri : (fs.inode i).ifdir = true) :
    (dirremove fs dp name oip true env).1.excess = fs.excess + if (fs.inode i).iSize ≠ 0 then
          tally (fs.inode i).held - Pi.single i 1 - Pi.single dp 1
        else 0 := by
  have hname : name ≠ "." ∧ name ≠ ".." := by
    rw [removeTarget] at h
    cases hf : firstErr [errIf ((true : Bool) = true ∧ name = ".") .EINVAL,
        errIf ((true : Bool) = true ∧ name = "..") .EEXIST,
        errIf ((fs.inode dp).ifdir = false) .ENOTDIR, env.access, env.look] with
    | some e =>
      rw [hf] at h
      exact absurd h (some_ne_none _).symm
    | none =>
      simp only [firstErr_cons, errIf_eq_none, true_and] at hf
      exact ⟨hf.1, hf.2.1⟩
  obtain ⟨hl, hdir, hr, heq⟩ := dirremove_some h
  have hchk : (fs.inode i).iNlink = 2 ∧ dirempty (fs.inode i) env.empty ≠ 0 := by
    simp only [removeErr, firstErr_cons, errIf_eq_none] at hr
    have hlast := hr.2.2.2.2.2.1
    rw [not_and, not_and, not_or, not_not] at hlast
    exact hlast trivial hdiri
  have hi : i ≠ dp := by
    rintro rfl
    exact hchk.2 (dirempty_of_lookup hl hname.1 hname.2)
  set fs1 := fs.upd dp (Inode.dropEnt fs.lfn k) with hfs1
  have hsame : fs1.inode i = fs.inode i := by rw [hfs1, Fs.upd_inode, if_neg hi]
  have hex : fs1.excess = fs.excess + Pi.single i 1 := excess_dropEnt hl hdir
  rw [heq]
  dsimp only
  rw [if_neg hi]
  by_cases hs : (fs.inode i).iSize = 0
  · have hdrop : dropLinks fs1 dp i true = fs1.link i (-1) := by
      rw [dropLinks, hsame, if_pos (by omega), if_pos ⟨rfl, hdiri⟩]
      dsimp only
      rw [Fs.link_iSize, hsame, if_neg (not_not.2 hs)]
    have hp : 0 < ((fs1.link i (-1)).inode i).iNlink := by
      rw [Fs.link_nlink, if_pos rfl, hsame, hchk.1]
      decide
    rw [hdrop, iput_of_pos hp, Fs.excess_link, hex, single_neg_one, if_neg (not_not.2 hs)]
    abel
  · have hdrop : dropLinks fs1 dp i true
        = itrunc (((fs1.link i (-1)).link i (-1)).link dp (-1)) i := by
      have htest : ∀ n m : ℕ,
          (if n ≥ m then dirtemplateSize true else dirtemplateSize false) ≠ 0 := by
        intro n m
        split_ifs <;> exact dirtemplateSize_ne_zero _
      rw [dropLinks, hsame, if_pos (by omega), if_pos ⟨rfl, hdiri⟩]
      dsimp only
      rw [Fs.link_iSize, hsame, if_pos hs, Fs.link_nlink, if_pos rfl, hsame, hchk.1,
        if_pos (htest _ _), if_pos (show (2 : ℤ) + -1 > 0 by decide)]
    have hz : ((itrunc (((fs1.link i (-1)).link i (-1)).link dp (-1)) i).inode i).iNlink ≤ 0 := by
      rw [itrunc, Fs.upd_inode, if_pos rfl]
      dsimp only
      rw [Fs.link_nlink, if_neg hi, Fs.link_nlink, if_pos rfl, Fs.link_nlink, if_pos rfl, hsame,
        hchk.1]
      decide
    rw [hdrop, excess_iput hz, held_itrunc, excess_itrunc, Fs.link_held, Fs.link_held,
      Fs.link_held, hsame, Fs.excess_link, Fs.excess_link, Fs.excess_link, hex, single_neg_one,
      single_neg_one, if_pos hs, tally_nil]
    abel

/-- The `dirremove` that ends a rename takes out the old name of an inode with another link. -/
theorem dirremove_matching {env : RemoveEnv}
    (hl : dircheckforname (fs.inode dp) name = some (k, i)) (hn : 2 ≤ (fs.inode i).iNlink) :
    (dirremove fs dp name (some i) false env).1.excess = fs.excess := by
  cases ht : removeTarget fs dp name (some i) false env with
  | none =>
    rw [dirremove_none ht]
    intro k' i' hl' _
    rw [hl] at hl'
    obtain ⟨rfl, rfl⟩ := Prod.mk.inj (Option.some.inj hl')
    omega
  | some r =>
    obtain ⟨k', i'⟩ := r
    have hl' := (dirremove_some ht).1
    rw [hl] at hl'
    obtain ⟨rfl, rfl⟩ := Prod.mk.inj (Option.some.inj hl')
    rw [dirremove_unlink ht (fun h => absurd h.1 Bool.false_ne_true) (by omega),
      if_neg (by omega), add_zero]

end Hpux.DirLink
