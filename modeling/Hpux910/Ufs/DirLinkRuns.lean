import Hpux910.Ufs.DirLinkRename

/-!
# Link counts against directory entries

A call of `direnter` or `dirremove` on a file system whose link counts are right leaves them right,
whether it succeeds or fails, but for some cases that are told exactly.

* `Kept` : the cases are avoided.
* `link_counts_kept` : the call does not panic and the counts are right afterwards, exactly then.
* `rmdir_takes_parent_link` : a directory without `..` takes a link of its parent along.
-/

namespace Hpux.DirLink

open Option

variable {Ino : Type} [DecidableEq Ino]

/-! ### When the counts stay right -/

/-- A directory moved over nothing: the link that `dirfixdotdot` takes from the old parent is the
one of the entry that it rewrites. -/
def MoveKept (fs : Fs Ino) (sdp tdp sip : Ino) (env : Env Ino) : Prop :=
  dotdotFix (fs.link sip 1) sip tdp env = .rewrite →
    dotdotLoses fs.lfn (fs.inode sip) tdp = sdp

/-- A directory moved over an empty one: the target has the two links that are taken for a
directory with `.`; `..` of the source can be rewritten; and the links that are taken are those of
the entries that go. -/
def ReplaceKept (fs : Fs Ino) (sdp tdp sip tip : Ino) (env : Env Ino) : Prop :=
  let edir := dirempty (fs.inode tip) env.empty'
  let fix := dotdotFix (fs.link sip 1) sip tdp env
  (hasDot edir → (fs.inode tip).iNlink = 2) ∧
  (sdp ≠ tdp → ∀ e, fix ≠ .fail e) ∧
  ((if hasDot edir ∨ (fs.inode tip).iNlink = 1 then (fs.inode tip).held else []) ++
    (if sdp ≠ tdp ∧ fix = .rewrite then [dotdotLoses fs.lfn (fs.inode sip) tdp] else [])).Perm
  ((if hasDot edir then [tip] else []) ++ (if hasDotdot edir then [tdp] else []) ++
    (if sdp ≠ tdp ∧ fix = .rewrite ∧ (fs.inode sdp).iNlink ≠ 0 then [sdp] else []))

/-- The errors of a rename before the target name is searched. -/
def renameStartErr (fs : Fs Ino) (sdp tdp sip : Ino) (tnm : String) (env : Env Ino) :
    Option Errno :=
  firstErr [errIf (tnm = "." ∨ tnm = "..") .EEXIST, sourceErr fs sip,
    moveErr (fs.link sip 1) tdp sdp sip env]

/-- The rename of a directory that gets as far as changing the target directory. -/
def RenameKept (fs : Fs Ino) (sdp : Ino) (snm : String) (tdp : Ino) (tnm : String)
    (env : Env Ino) : Prop :=
  ∀ sip, renameSource fs sdp snm = some sip → (fs.inode sip).ifdir = true →
    renameStartErr fs sdp tdp sip tnm env = none →
    match dircheckforname (fs.inode tdp) tnm with
    | none =>
      firstErr [errIf (sip = tdp) .EINVAL, env.iwrite, env.prepare] = none →
        MoveKept fs sdp tdp sip env
    | some (_, tip) =>
      replaceErr tdp sip tip env = none → renameErr fs sip tip env = none →
        ReplaceKept fs sdp tdp sip tip env

/-- When a call leaves the counts right. -/
def Kept (fs : Fs Ino) (env : Env Ino) (renv : RemoveEnv) : Op Ino → Prop
  | .create tdp name vt => ¬EmptyDirFails fs tdp name vt env
  | .link _ _ _ => True
  | .rename sdp snm tdp tnm => RenameKept fs sdp snm tdp tnm env
  -- a directory does not lose its last link while it has entries
  | .remove dp name =>
    ∀ k ip, removeTarget fs dp name none false renv = some (k, ip) → ip ≠ dp →
      (fs.inode ip).iNlink = 1 → (fs.inode ip).held = []
  -- the two entries of the directory are its own and its parent's
  | .rmdir dp name =>
    ∀ k ip, removeTarget fs dp name none true renv = some (k, ip) →
      (fs.inode ip).ifdir = true → (fs.inode ip).iSize ≠ 0 → (fs.inode ip).held.Perm [ip, dp]

/-! ### Renames -/

omit [DecidableEq Ino] in
theorem held_of_not_dir {ip : Inode Ino} (h : ip.ifdir = false) : ip.held = [] := by
  rw [Inode.held, if_neg]
  rw [h]
  exact Bool.false_ne_true

theorem renameErr_link (fs : Fs Ino) {sip tip : Ino} (env : Env Ino) (h : tip ≠ sip) :
    renameErr (fs.link sip 1) sip tip env = renameErr fs sip tip env := by
  have ht : (fs.link sip 1).inode tip = fs.inode tip := by
    rw [Fs.link, Fs.upd_inode, if_neg h]
  rw [renameErr, renameErr, ht, Fs.link_ifdir]

variable [Fintype Ino] {fs : Fs Ino}

/-- A rewritten `..` leaves the counts right when the old parent is the one it named. -/
theorem moveDelta_eq_zero (hb : fs.excess = 0) {sdp tdp sip : Ino} {env : Env Ino}
    (hdir : (fs.inode sip).ifdir = true) (hss : sdp ≠ sip) :
    moveDelta (fs.link sip 1) sdp tdp sip env = 0 ↔ MoveKept fs sdp tdp sip env := by
  rw [moveDelta, MoveKept, dotdotLoses_link, Fs.link_lfn, Fs.link_nlink, if_neg hss, add_zero]
  by_cases hfix : dotdotFix (fs.link sip 1) sip tdp env = .rewrite
  · rw [if_pos hfix]
    constructor
    · intro h _
      by_cases hn : (fs.inode sdp).iNlink + (if sdp = tdp then 1 else 0) ≠ 0
      · rw [if_pos hn, sub_eq_zero] at h
        by_contra hne
        have hx := congrFun h sdp
        rw [Pi.single_eq_same, Pi.single_eq_of_ne (Ne.symm hne)] at hx
        exact absurd hx (by decide)
      · rw [if_neg hn, sub_zero] at h
        exact absurd h (single_ne_zero _)
    · intro h
      have hl := h hfix
      have hn : (fs.inode sdp).iNlink + (if sdp = tdp then 1 else 0) ≠ 0 := by
        have h0 := nlink_nonneg hb sdp
        by_cases hst : sdp = tdp
        · rw [if_pos hst]
          omega
        · -- the record that is rewritten is an entry that names the old parent
          rw [dotdotLoses] at hl
          cases hr : dotdotRec fs.lfn (fs.inode sip) with
          | none =>
            rw [hr] at hl
            exact absurd hl.symm hst
          | some r =>
            rw [hr] at hl
            have hmem : sdp ∈ (fs.inode sip).held := by
              rw [Inode.held, if_pos hdir, ← hl]
              exact List.mem_map_of_mem (List.mem_of_getElem? (firstRec_some hr).1)
            have := (tally_pos hmem).trans_le (tally_held_le hb sip sdp)
            split_ifs
            omega
      rw [if_pos hn, hl, sub_self]
  · rw [if_neg hfix]
    exact iff_of_true rfl fun h => absurd h hfix

omit [Fintype Ino] in
theorem renameSource_some {sdp sip : Ino} {snm : String} (h : renameSource fs sdp snm = some sip) :
    (∃ j, dircheckforname (fs.inode sdp) snm = some (j, sip)) ∧ (fs.inode sdp).ifdir = true ∧
      snm ≠ "." ∧ snm ≠ ".." ∧ sdp ≠ sip := by
  rw [renameSource] at h
  cases hl : dircheckforname (fs.inode sdp) snm with
  | none =>
    rw [hl] at h
    exact absurd h (some_ne_none _).symm
  | some r =>
    obtain ⟨j, i⟩ := r
    rw [hl] at h
    dsimp only at h
    split_ifs at h with hbad
    obtain rfl := Option.some.inj h
    obtain ⟨h1, h2, h3, h4⟩ : ¬_ ∧ ¬_ ∧ ¬_ ∧ ¬_ := by simpa only [not_or] using hbad
    exact ⟨⟨j, rfl⟩, Bool.eq_true_of_not_eq_false h1, h2, h3, h4⟩

section Rename

variable {fs : Fs Ino} {sdp sip tdp : Ino} {snm tnm : String} {env : Env Ino} {renv : RemoveEnv}

/-- The rename leaves right counts. -/
def RenameRight (fs : Fs Ino) (sdp : Ino) (snm : String) (tdp : Ino) (tnm : String) (env : Env Ino)
    (renv : RemoveEnv) : Prop :=
  ∃ fs', ufsRename fs sdp snm tdp tnm env renv = some fs' ∧ fs'.excess = 0

omit [Fintype Ino] [DecidableEq Ino] in
theorem renameStartErr_none [DecidableEq Ino] (h : renameStartErr fs sdp tdp sip tnm env = none) :
    firstErr [errIf (tnm = "." ∨ tnm = "..") .EEXIST, sourceErr fs sip] = none ∧
      moveErr (fs.link sip 1) tdp sdp sip env = none ∧ (fs.inode tdp).ifdir = true := by
  simp only [renameStartErr, firstErr_cons, firstErr_nil, and_true] at h
  refine ⟨by simpa only [firstErr_cons, firstErr_nil, and_true] using ⟨h.1, h.2.1⟩, h.2.2, ?_⟩
  have hm := h.2.2
  rw [moveErr, firstErr_cons] at hm
  have hd := ifdir_of_targetErr hm.1
  rwa [Fs.link_ifdir] at hd

omit [Fintype Ino] in
/-- The rename of a name to one that is not there. -/
theorem direnterRename_nothing (h : renameStartErr fs sdp tdp sip tnm env = none)
    (hl : dircheckforname (fs.inode tdp) tnm = none) : direnterRename fs tdp tnm sdp sip env
      = some (undo sip
          (match firstErr [errIf (sip = tdp) .EINVAL, env.iwrite] with
          | some e => (fs.link sip 1, some e)
          | none => diraddentry (fs.link sip 1) tdp tnm sip (some sdp) env)) := by
  obtain ⟨h0, hm, -⟩ := renameStartErr_none h
  rw [direnterRename, h0]
  dsimp only
  rw [hm]
  dsimp only
  rw [dircheckforname_link, hl]
  dsimp only
  cases firstErr [errIf (sip = tdp) .EINVAL, env.iwrite] <;> rfl

variable {tip : Ino} {k : ℕ}

omit [Fintype Ino] in
/-- The rename of a name to one that names `tip`. -/
theorem direnterRename_found (h : renameStartErr fs sdp tdp sip tnm env = none)
    (hl : dircheckforname (fs.inode tdp) tnm = some (k, tip)) : direnterRename fs tdp tnm sdp sip env
      = ((match replaceErr tdp sip tip env with
          | some e => some (fs.link sip 1, some e)
          | none => dirrename (fs.link sip 1) sdp sip tdp k tip env).map
          fun r : Fs Ino × Option Errno => undo sip (if tip = tdp then r.1 else iput r.1 tip, r.2)) := by
  obtain ⟨h0, hm, -⟩ := renameStartErr_none h
  rw [direnterRename, h0]
  dsimp only
  rw [hm]
  dsimp only
  rw [dircheckforname_link, hl]
  dsimp only
  by_cases ht : tip = tdp
  · rw [if_pos ht]
    simp only [if_pos ht] <;> rcases replaceErr tdp sip tip env with _ | e <;>
      cases dirrename (fs.link sip 1) sdp sip tdp k tip env <;> rfl
  · rw [if_neg ht]
    simp only [if_neg ht]
    cases replaceErr tdp sip tip env with
    | some e => rfl
    | none => cases dirrename (fs.link sip 1) sdp sip tdp k tip env <;> rfl

/-- A rename that fails earlier changes no count. -/
theorem direnterRename_early {e : Errno} (h : renameStartErr fs sdp tdp sip tnm env = some e) :
    ∃ fs' e', direnterRename fs tdp tnm sdp sip env = some (fs', some e') ∧ fs'.excess = fs.excess := by
  rw [direnterRename]
  cases h0 : firstErr [errIf (tnm = "." ∨ tnm = "..") .EEXIST, sourceErr fs sip] with
  | some e' => exact ⟨fs, e', rfl, rfl⟩
  | none =>
    dsimp only
    cases hm : moveErr (fs.link sip 1) tdp sdp sip env with
    | some e' =>
      refine ⟨(fs.link sip 1).link sip (-1), e', rfl, ?_⟩
      rw [Fs.excess_link, Fs.excess_link, single_neg_one]
      abel
    | none =>
      simp only [firstErr_cons, firstErr_nil, and_true] at h0
      have hnone : renameStartErr fs sdp tdp sip tnm env = none := by
        simp only [renameStartErr, firstErr_cons, firstErr_nil, and_true]
        exact ⟨h0.1, h0.2, hm⟩
      rw [hnone] at h
      exact absurd h (some_ne_none e).symm

theorem renameRight_error {fs1 : Fs Ino} {e : Errno} (hs : renameSource fs sdp snm = some sip)
    (h : direnterRename fs tdp tnm sdp sip env = some (fs1, some e)) :
    RenameRight fs sdp snm tdp tnm env renv ↔ fs1.excess = 0 := by
  rw [RenameRight, ufsRename, hs]
  dsimp only
  rw [h]
  simp

theorem renameRight_panic (hs : renameSource fs sdp snm = some sip)
    (h : direnterRename fs tdp tnm sdp sip env = none) : ¬RenameRight fs sdp snm tdp tnm env renv := by
  rw [RenameRight, ufsRename, hs]
  dsimp only
  rw [h]
  simp

theorem renameRight_done {fs1 : Fs Ino} {j : ℕ} (hs : renameSource fs sdp snm = some sip)
    (h : direnterRename fs tdp tnm sdp sip env = some (fs1, none))
    (hl : dircheckforname (fs1.inode sdp) snm = some (j, sip)) (hn : 2 ≤ (fs1.inode sip).iNlink) :
    RenameRight fs sdp snm tdp tnm env renv ↔ fs1.excess = 0 := by
  rw [RenameRight, ufsRename, hs]
  dsimp only
  rw [h]
  simp only [Option.some.injEq, exists_eq_left']
  rw [dirremove_matching hl hn]

/-! #### Over nothing -/

theorem excess_undo_link {fs1 : Fs Ino} (h : fs1.excess = fs.excess + Pi.single sip 1) :
    (fs1.link sip (-1)).excess = fs.excess := by
  rw [Fs.excess_link, h, single_neg_one]
  abel

/-- A rename over nothing. -/
theorem renameRight_nothing (hb : fs.excess = 0) (hs : renameSource fs sdp snm = some sip)
    (h : renameStartErr fs sdp tdp sip tnm env = none)
    (hl : dircheckforname (fs.inode tdp) tnm = none) : RenameRight fs sdp snm tdp tnm env renv ↔
      ((fs.inode sip).ifdir = true →
        firstErr [errIf (sip = tdp) .EINVAL, env.iwrite, env.prepare] = none →
          MoveKept fs sdp tdp sip env) := by
  obtain ⟨⟨j, hj⟩, -, -, -, hss⟩ := renameSource_some hs
  obtain ⟨h0, -, hdir⟩ := renameStartErr_none h
  have hcall := direnterRename_nothing h hl
  have hsnl : 0 < (fs.inode sip).iNlink := by
    simp only [firstErr_cons, sourceErr, errIf_eq_none] at h0
    have := nlink_nonneg hb sip
    omega
  set fs1 := fs.link sip 1 with hfs1
  have hex1 : fs1.excess = fs.excess + Pi.single sip 1 := Fs.excess_link _ _ _
  have hj1 : dircheckforname (fs1.inode sdp) snm = some (j, sip) := by
    rw [hfs1, dircheckforname_link, hj]
  have hl1 : dircheckforname (fs1.inode tdp) tnm = none := by rw [hfs1, dircheckforname_link, hl]
  have hdir1 : (fs1.inode tdp).ifdir = true := by rw [hfs1, Fs.link_ifdir, hdir]
  have hnl1 : 2 ≤ (fs1.inode sip).iNlink := by
    rw [hfs1, Fs.link_nlink, if_pos rfl]
    omega
  cases hf : firstErr [errIf (sip = tdp) .EINVAL, env.iwrite] with
  | some e =>
    rw [hf] at hcall
    rw [renameRight_error hs hcall, excess_undo_link hex1]
    refine iff_of_true hb fun _ hnone => ?_
    simp only [firstErr_cons, firstErr_nil, and_true] at hnone
    have : firstErr [errIf (sip = tdp) .EINVAL, env.iwrite] = none := by
      simp only [firstErr_cons, firstErr_nil, and_true]
      exact ⟨hnone.1, hnone.2.1⟩
    rw [hf] at this
    exact absurd this (some_ne_none e)
  | none =>
    rw [hf] at hcall
    dsimp only at hcall
    simp only [firstErr_cons, firstErr_nil, and_true, errIf_eq_none] at hf
    cases hsd : (fs.inode sip).ifdir with
    | false =>
      have hsd1 : (fs1.inode sip).ifdir = false := by rw [hfs1, Fs.link_ifdir, hsd]
      refine Iff.trans ?_ (iff_of_true trivial fun h => absurd h Bool.false_ne_true)
      rcases diraddentry_file env hdir1 hsd1 hj1 hl1 with
        ⟨fs', e, hadd, hex⟩ | ⟨fs', k', hadd, hex, hn, hk'⟩
      · rw [hadd] at hcall
        rw [renameRight_error hs hcall, excess_undo_link (hex.trans hex1)]
        exact iff_of_true hb trivial
      · rw [hadd] at hcall
        rw [renameRight_done hs hcall hk' (by rw [hn]; exact hnl1), hex, hex1, hb]
        simp
    | true =>
      have hsd1 : (fs1.inode sip).ifdir = true := by rw [hfs1, Fs.link_ifdir, hsd]
      rcases diraddentry_some env hdir1 hsd1 hf.1 hss.symm hj1 hl1 with
        ⟨⟨fs', e, hadd, hex⟩, hfail⟩ | ⟨hp, -, fs', k', hadd, hex, hn, hk'⟩
      · rw [hadd] at hcall
        rw [renameRight_error hs hcall, excess_undo_link (hex.trans hex1)]
        refine iff_of_true hb fun _ hnone hrew => ?_
        simp only [firstErr_cons] at hnone
        obtain ⟨e', he'⟩ := hfail hnone.2.2.1
        rw [he'] at hrew
        exact absurd hrew (by simp)
      · rw [hadd] at hcall
        have hmid : fs'.excess = moveDelta fs1 sdp tdp sip env := by
          rw [hex, hex1, hb]
          abel
        rw [renameRight_done hs hcall hk' (by rw [hn]; exact hnl1), hmid, hfs1,
          moveDelta_eq_zero hb hsd hss]
        refine ⟨fun hm _ _ => hm, fun hm => hm rfl ?_⟩
        simp only [firstErr_cons, firstErr_nil, and_true, errIf_eq_none]
        exact ⟨hf.1, hf.2, hp⟩

/-! #### Over an entry -/

omit [Fintype Ino] in
/-- The list of what goes has the same members as the list of what is taken exactly when the
differences cancel. -/
theorem replace_sum {A B C D E : List Ino} :
    (A ++ B).Perm (C ++ D ++ E) ↔ tally A + tally B - tally C - tally D - tally E = 0 := by
  rw [← tally_eq_iff, tally_append, tally_append, tally_append, ← sub_eq_zero]
  constructor
  · intro h
    rw [← h]
    abel
  · intro h
    rw [← h]
    abel

/-- A rename over a directory that fails at `..` leaves the target short of links. -/
theorem replace_fails (hb : fs.excess = 0)
    (hl : dircheckforname (fs.inode tdp) tnm = some (k, tip)) (hdir : (fs.inode tdp).ifdir = true)
    (htdp : tip ≠ tdp) (htsip : tip ≠ sip) {edir : ℕ}
    (hpanic : hasDot edir = true → (fs.inode tip).iNlink = 2) :
    ((iput ((fs.link sip 1).link tip (-drops edir)) tip).link sip (-1)).excess ≠ 0 := by
  set fs2 := (fs.link sip 1).link tip (-drops edir) with hfs2
  have hself : tally (fs.inode tip).held tip + 1 ≤ (fs.inode tip).iNlink := by
    have h1 := tally_add_le_of_excess hb htdp tip
    have h2 := tally_pos (mem_held_of_lookup hl hdir)
    omega
  have hd : 1 ≤ drops edir ∧ (hasDot edir = true → drops edir = 2) := by
    rw [drops]
    split_ifs with h
    · exact ⟨by decide, fun _ => rfl⟩
    · exact ⟨by decide, fun h' => absurd h' h⟩
  have hn2 : (fs2.inode tip).iNlink = (fs.inode tip).iNlink - drops edir := by
    rw [hfs2, Fs.link_nlink, if_pos rfl, Fs.link_nlink, if_neg htsip, add_zero, sub_eq_add_neg]
  have hx2 : fs2.excess tip = -drops edir := by
    rw [hfs2, Fs.excess_link, Fs.excess_link, hb, zero_add, Pi.add_apply, Pi.single_eq_same,
      Pi.single_eq_of_ne htsip, zero_add]
  have hh2 : (fs2.inode tip).held = (fs.inode tip).held := by
    rw [hfs2, Fs.link_held, Fs.link_held]
  intro hzero
  have hx := congrFun hzero tip
  rw [Fs.excess_link, Pi.add_apply, Pi.single_eq_of_ne htsip, add_zero, Pi.zero_apply] at hx
  by_cases hle : (fs2.inode tip).iNlink ≤ 0
  · rw [excess_iput hle, Pi.add_apply, hx2, hh2] at hx
    by_cases hdot : hasDot edir = true
    · omega
    · omega
  · rw [iput_of_pos (not_le.1 hle), hx2] at hx
    omega

omit [Fintype Ino] in
/-- What the rewritten `..` does to the counts, as lists of what goes and of what is taken. -/
theorem moveDelta_lists (hss : sdp ≠ sip) :
    (if sdp ≠ tdp then moveDelta (fs.link sip 1) sdp tdp sip env else 0)
      = tally (if sdp ≠ tdp ∧ dotdotFix (fs.link sip 1) sip tdp env = .rewrite then
          [dotdotLoses fs.lfn (fs.inode sip) tdp] else [])
        - tally (if sdp ≠ tdp ∧ dotdotFix (fs.link sip 1) sip tdp env = .rewrite ∧
            (fs.inode sdp).iNlink ≠ 0 then [sdp] else []) := by
  by_cases hst : sdp = tdp
  · simp [hst]
  · rw [moveDelta, dotdotLoses_link, Fs.link_lfn, Fs.link_nlink, if_neg hss, add_zero, if_neg hst,
      add_zero, if_pos hst]
    by_cases hfix : dotdotFix (fs.link sip 1) sip tdp env = .rewrite
    · by_cases hn : (fs.inode sdp).iNlink = 0
      · simp [hst, hfix, hn]
      · simp [hst, hfix, hn]
    · simp [hfix]

/-- A rename of a file over a file. -/
theorem renameRight_file (hb : fs.excess = 0) (hs : renameSource fs sdp snm = some sip)
    (h : renameStartErr fs sdp tdp sip tnm env = none)
    (hl : dircheckforname (fs.inode tdp) tnm = some (k, tip)) (hst : sip ≠ tip)
    (hsnl : 0 < (fs.inode sip).iNlink) (hcall : direnterRename fs tdp tnm sdp sip env
      = (dirrename (fs.link sip 1) sdp sip tdp k tip env).map
          fun r : Fs Ino × Option Errno => undo sip (if tip = tdp then r.1 else iput r.1 tip, r.2))
    (hrn : renameErr fs sip tip env = none) (hsd : (fs.inode sip).ifdir = false) :
    RenameRight fs sdp snm tdp tnm env renv := by
  obtain ⟨⟨j, hj⟩, hdirs, -, -, hss⟩ := renameSource_some hs
  obtain ⟨-, -, hdir⟩ := renameStartErr_none h
  obtain ⟨ent, hent, -, hentIno⟩ := dircheckforname_some
    ((dircheckforname_link fs sip 1 tdp tnm).trans hl)
  obtain ⟨htip, fs', hfs', hex, htip', hn', hl'⟩ := dirrename_file sdp
    (by rw [renameErr_link fs env hst.symm, hrn]) (by rw [Fs.link_ifdir, hsd])
    (by rw [Fs.link_ifdir, hdir]) hent hentIno hst.symm
    (by rw [dircheckforname_link, hj])
  rw [Fs.link_ifdir] at htip
  have htdp : tip ≠ tdp := by
    rintro rfl
    rw [hdir] at htip
    exact absurd htip (by decide)
  have htsdp : sdp ≠ tip := by
    rintro rfl
    rw [hdirs] at htip
    exact absurd htip (by decide)
  have hput : (iput fs' tip).excess = fs'.excess := by
    by_cases hle : (fs'.inode tip).iNlink ≤ 0
    · rw [excess_iput hle, held_of_not_dir htip', tally_nil, add_zero]
    · rw [iput_of_pos (not_le.1 hle)]
  rw [hfs', map_some, if_neg htdp] at hcall
  have hlook : dircheckforname ((iput fs' tip).inode sdp) snm = some (j, sip) := by
    rw [iput_inode htsdp, hl']
  have hnl : 2 ≤ ((iput fs' tip).inode sip).iNlink := by
    rw [iput_inode hst, hn', Fs.link_nlink, if_pos rfl]
    omega
  rw [renameRight_done hs hcall hlook hnl, hput, hex, Fs.excess_link, add_sub_cancel_right, hb]

/-- A rename of a directory over a directory. -/
theorem renameRight_dir (hb : fs.excess = 0) (hs : renameSource fs sdp snm = some sip)
    (h : renameStartErr fs sdp tdp sip tnm env = none)
    (hl : dircheckforname (fs.inode tdp) tnm = some (k, tip)) (hst : sip ≠ tip)
    (hsntdp : sip ≠ tdp) (hsnl : 0 < (fs.inode sip).iNlink) (hname : tnm ≠ "." ∧ tnm ≠ "..")
    (hcall : direnterRename fs tdp tnm sdp sip env
      = (dirrename (fs.link sip 1) sdp sip tdp k tip env).map
          fun r : Fs Ino × Option Errno => undo sip (if tip = tdp then r.1 else iput r.1 tip, r.2))
    (hrn : renameErr fs sip tip env = none) (hsd : (fs.inode sip).ifdir = true) :
    RenameRight fs sdp snm tdp tnm env renv ↔ ReplaceKept fs sdp tdp sip tip env := by
  obtain ⟨⟨j, hj⟩, hdirs, hd1, hd2, hss⟩ := renameSource_some hs
  obtain ⟨-, -, hdir⟩ := renameStartErr_none h
  obtain ⟨ent, hent, -, hentIno⟩ := dircheckforname_some
    ((dircheckforname_link fs sip 1 tdp tnm).trans hl)
  have htpos : 0 < (fs.inode tip).iNlink := nlink_pos_of_lookup hb hl hdir
  have hempty : dirempty (fs.inode tip) env.empty ≠ 0 := by
    simp only [renameErr, firstErr_cons, errIf_eq_none, not_and, not_or] at hrn
    have htd : (fs.inode tip).ifdir = true := by
      by_contra hf
      exact hrn.2.2.2.1 (Bool.eq_false_iff.2 hf) hsd
    exact (hrn.2.2.1 htd).1
  have htdp : tip ≠ tdp := by
    rintro rfl
    exact hempty (dirempty_of_lookup hl hname.1 hname.2)
  have htsdp : tip ≠ sdp := by
    rintro rfl
    exact hempty (dirempty_of_lookup hj hd1 hd2)
  set fs1 := fs.link sip 1 with hfs1
  set edir := dirempty (fs.inode tip) env.empty' with hedir
  have hedir1 : dirempty (fs1.inode tip) env.empty' = edir := dirempty_link _ _ _ _ _
  have hrn1 : renameErr fs1 sip tip env = none := by rw [hfs1, renameErr_link fs env hst.symm, hrn]
  have hsd1 : (fs1.inode sip).ifdir = true := by rw [hfs1, Fs.link_ifdir, hsd]
  have hdir1 : (fs1.inode tdp).ifdir = true := by rw [hfs1, Fs.link_ifdir, hdir]
  have hn1 : (fs1.inode tip).iNlink = (fs.inode tip).iNlink := by
    rw [hfs1, Fs.link_nlink, if_neg hst.symm, add_zero]
  rw [ReplaceKept, ← hedir, ← hfs1]
  by_cases hpanic : hasDot edir = true → (fs.inode tip).iNlink = 2
  swap
  · obtain ⟨hdot, hn⟩ := Classical.not_imp.1 hpanic
    have hnone : dirrename fs1 sdp sip tdp k tip env = none :=
      dirrename_panics hrn1 hsd1 (by rw [hedir1]; exact hdot) (by rw [hn1]; exact hn)
    rw [hnone] at hcall
    exact iff_of_false (renameRight_panic hs hcall) fun hk => hpanic hk.1
  have hpanic1 : hasDot (dirempty (fs1.inode tip) env.empty') = true →
      (fs1.inode tip).iNlink = 2 := by rwa [hedir1, hn1]
  by_cases hfail : sdp ≠ tdp ∧ ∃ e, dotdotFix fs1 sip tdp env = .fail e
  · obtain ⟨hne, e, he⟩ := hfail
    rw [dirrename_fails hrn1 hsd1 hpanic1 hne htdp hst.symm he, hedir1, map_some,
      if_neg htdp] at hcall
    refine iff_of_false ?_ fun hk => hk.2.1 hne e he
    rw [renameRight_error hs hcall]
    exact replace_fails hb hl hdir htdp hst.symm hpanic
  have hok : sdp ≠ tdp → ∀ e, dotdotFix fs1 sip tdp env ≠ .fail e :=
    fun hne e he => hfail ⟨hne, e, he⟩
  obtain ⟨fs', j', hfs', hex, hn', hh', hs', hl'⟩ := dirrename_moves hrn1 hsd1 hdir1 hent hentIno
    htdp hst.symm htsdp hsntdp hss.symm (by rw [hfs1, dircheckforname_link, hj]) hpanic1 hok
  rw [hedir1] at hex hn' hh'
  rw [hfs', map_some, if_neg htdp] at hcall
  have hlook : dircheckforname ((iput fs' tip).inode sdp) snm = some (j', sip) := by
    rw [iput_inode htsdp.symm, hl']
  have hnl : 2 ≤ ((iput fs' tip).inode sip).iNlink := by
    rw [iput_inode hst, hs', hfs1, Fs.link_nlink, if_pos rfl]
    omega
  -- the target is freed with its entries when it has lost its last link
  have hput : (iput fs' tip).excess = fs'.excess
      + if hasDot edir = false ∧ (fs.inode tip).iNlink = 1 then tally (fs.inode tip).held else 0 := by
    have hheld1 : (fs1.inode tip).held = (fs.inode tip).held := Fs.link_held _ _ _ _
    rw [hheld1] at hh'
    rw [hn1, drops] at hn'
    by_cases hdot : hasDot edir = true
    · rw [if_pos hdot, hpanic hdot] at hn'
      rw [excess_iput (by omega), hh', if_pos hdot, hdot, if_neg (by simp), tally_nil]
    · rw [if_neg hdot] at hn'
      rw [Bool.not_eq_true] at hdot
      by_cases hone : (fs.inode tip).iNlink = 1
      · rw [excess_iput (by omega), hh', hdot, if_neg (by simp), if_pos ⟨rfl, hone⟩]
      · rw [iput_of_pos (by omega), if_neg (fun h => hone h.2), add_zero]
  have hsum : (iput fs' tip).excess
      = tally (if hasDot edir = true ∨ (fs.inode tip).iNlink = 1 then (fs.inode tip).held else [])
        + (if sdp ≠ tdp then moveDelta fs1 sdp tdp sip env else 0)
        - tally (if hasDot edir = true then [tip] else [])
        - tally (if hasDotdot edir = true then [tdp] else []) := by
    have hheld1 : (fs1.inode tip).held = (fs.inode tip).held := Fs.link_held _ _ _ _
    have htake : (Pi.single tip (1 - drops edir) : Ino → ℤ)
        = -tally (if hasDot edir = true then [tip] else []) := by
      rw [drops]
      split_ifs
      · rw [tally_cons, tally_nil, add_zero, ← single_neg_one]
        rfl
      · rw [sub_self, Pi.single_zero, tally_nil, neg_zero]
    have hparent : (if hasDotdot edir = true then Pi.single tdp 1 else 0 : Ino → ℤ)
        = tally (if hasDotdot edir = true then [tdp] else []) := by
      split_ifs
      · rw [tally_cons, tally_nil, add_zero]
      · rfl
    have hgone : (if hasDot edir = true then tally (fs.inode tip).held else 0)
        + (if hasDot edir = false ∧ (fs.inode tip).iNlink = 1 then tally (fs.inode tip).held else 0)
        = tally (if hasDot edir = true ∨ (fs.inode tip).iNlink = 1 then (fs.inode tip).held
            else []) := by
      cases hasDot edir <;> by_cases hone : (fs.inode tip).iNlink = 1 <;> simp [hone]
    rw [hput, hex, hheld1, htake, hparent, ← hgone, hfs1, Fs.excess_link, hb]
    abel
  rw [renameRight_done hs hcall hlook hnl, and_iff_right hpanic, and_iff_right hok, replace_sum,
    hsum, hfs1, moveDelta_lists hss]
  refine iff_of_eq (congrArg (· = 0) ?_)
  abel

/-- A rename over an entry. -/
theorem renameRight_found (hb : fs.excess = 0) (hs : renameSource fs sdp snm = some sip)
    (h : renameStartErr fs sdp tdp sip tnm env = none)
    (hl : dircheckforname (fs.inode tdp) tnm = some (k, tip)) :
    RenameRight fs sdp snm tdp tnm env renv ↔
      ((fs.inode sip).ifdir = true → replaceErr tdp sip tip env = none →
        renameErr fs sip tip env = none → ReplaceKept fs sdp tdp sip tip env) := by
  obtain ⟨⟨j, hj⟩, -, hd1, hd2, hss⟩ := renameSource_some hs
  obtain ⟨h0, -, hdir⟩ := renameStartErr_none h
  have hcall := direnterRename_found h hl
  have htpos : 0 < (fs.inode tip).iNlink := nlink_pos_of_lookup hb hl hdir
  have hname : tnm ≠ "." ∧ tnm ≠ ".." := by
    simp only [firstErr_cons, errIf_eq_none] at h0
    exact not_or.1 h0.1
  have hsnl : 0 < (fs.inode sip).iNlink := by
    simp only [firstErr_cons, sourceErr, errIf_eq_none] at h0
    have := nlink_nonneg hb sip
    omega
  set fs1 := fs.link sip 1 with hfs1
  have hex1 : fs1.excess = fs.excess + Pi.single sip 1 := Fs.excess_link _ _ _
  -- an error before the first change undoes the link of the source
  have herr : ∀ e, direnterRename fs tdp tnm sdp sip env
      = some (undo sip (if tip = tdp then fs1 else iput fs1 tip, some e)) →
      RenameRight fs sdp snm tdp tnm env renv := by
    intro e he
    have hsame : (if tip = tdp then fs1 else iput fs1 tip) = fs1 := by
      split_ifs
      · rfl
      · refine iput_of_pos ?_
        rw [hfs1, Fs.link_nlink]
        split_ifs <;> omega
    rw [hsame] at he
    rw [renameRight_error hs he, excess_undo_link hex1]
    exact hb
  cases hre : replaceErr tdp sip tip env with
  | some e =>
    rw [hre] at hcall
    exact iff_of_true (herr e hcall) fun _ hnone => absurd hnone (some_ne_none e)
  | none =>
    rw [hre] at hcall
    dsimp only at hcall
    have hne : ¬sip = tip ∧ ¬sip = tdp := by
      simp only [replaceErr, firstErr_cons, errIf_eq_none] at hre
      exact ⟨hre.1, hre.2.2.1⟩
    cases hrn : renameErr fs sip tip env with
    | some e =>
      have hcall' : dirrename fs1 sdp sip tdp k tip env = some (fs1, some e) := by
        rw [dirrename, hfs1, renameErr_link fs env (Ne.symm hne.1), hrn]
      rw [hcall'] at hcall
      exact iff_of_true (herr e hcall) fun _ _ hnone => absurd hnone (some_ne_none e)
    | none =>
      cases hsd : (fs.inode sip).ifdir with
      | false =>
        exact iff_of_true (renameRight_file hb hs h hl hne.1 hsnl hcall hrn hsd)
          fun h => absurd h Bool.false_ne_true
      | true =>
        rw [renameRight_dir hb hs h hl hne.1 hne.2 hsnl hname hcall hrn hsd]
        exact ⟨fun hk _ _ _ => hk, fun hk => hk rfl rfl rfl⟩

end Rename

/-- A rename keeps the counts right exactly in the cases of `RenameKept`. -/
theorem ufsRename_kept (hb : fs.excess = 0) (sdp : Ino) (snm : String) (tdp : Ino)
    (tnm : String) (env : Env Ino) (renv : RemoveEnv) :
    RenameRight fs sdp snm tdp tnm env renv ↔ RenameKept fs sdp snm tdp tnm env := by
  rw [RenameKept]
  cases hs : renameSource fs sdp snm with
  | none =>
    refine iff_of_true ⟨fs, ?_, hb⟩ fun _ h => absurd h (some_ne_none _).symm
    rw [ufsRename, hs]
  | some sip =>
    simp only [Option.some.injEq, forall_eq']
    cases hst : renameStartErr fs sdp tdp sip tnm env with
    | some e =>
      obtain ⟨fs', e', he, hex⟩ := direnterRename_early hst
      rw [renameRight_error hs he, hex]
      exact iff_of_true hb fun _ h => absurd h (some_ne_none e)
    | none =>
      cases hl : dircheckforname (fs.inode tdp) tnm with
      | none =>
        rw [renameRight_nothing hb hs hst hl]
        exact ⟨fun h hd _ => h hd, fun h hd => h hd rfl⟩
      | some r =>
        rw [renameRight_found hb hs hst hl]
        exact ⟨fun h hd _ => h hd, fun h hd => h hd rfl⟩

/-! ### Removals -/

/-- An unlink keeps the counts right unless it takes the last link of a directory that has
entries. -/
theorem remove_kept (hb : fs.excess = 0) (dp : Ino) (name : String) (renv : RemoveEnv) :
    (dirremove fs dp name none false renv).1.excess = 0 ↔
      ∀ k ip, removeTarget fs dp name none false renv = some (k, ip) → ip ≠ dp →
        (fs.inode ip).iNlink = 1 → (fs.inode ip).held = [] := by
  have hpos : ∀ k i, dircheckforname (fs.inode dp) name = some (k, i) →
      (fs.inode dp).ifdir = true → 0 < (fs.inode i).iNlink :=
    fun k i hl hdir => nlink_pos_of_lookup hb hl hdir
  cases ht : removeTarget fs dp name none false renv with
  | none =>
    rw [dirremove_none ht hpos]
    exact iff_of_true hb fun _ _ h => absurd h (some_ne_none _).symm
  | some r =>
    obtain ⟨k, i⟩ := r
    obtain ⟨hl, hdir, -, -⟩ := dirremove_some ht
    rw [dirremove_unlink ht (fun h => absurd h.1 Bool.false_ne_true) (hpos k i hl hdir), hb,
      zero_add]
    constructor
    · intro h k' i' hki hne hone
      obtain ⟨rfl, rfl⟩ := Prod.mk.inj (Option.some.inj hki)
      rw [if_pos ⟨hne, hone⟩] at h
      exact tally_eq_zero_iff.1 h
    · intro h
      split_ifs with hc
      · rw [h k i rfl hc.1 hc.2, tally_nil]
      · rfl

/-- A rmdir keeps the counts right when the entries of the directory are `.` and `..`, that is when
they name itself and its parent. -/
theorem rmdir_kept (hb : fs.excess = 0) (dp : Ino) (name : String) (renv : RemoveEnv) :
    (dirremove fs dp name none true renv).1.excess = 0 ↔
      ∀ k ip, removeTarget fs dp name none true renv = some (k, ip) →
        (fs.inode ip).ifdir = true → (fs.inode ip).iSize ≠ 0 → (fs.inode ip).held.Perm [ip, dp] := by
  have hpos : ∀ k i, dircheckforname (fs.inode dp) name = some (k, i) →
      (fs.inode dp).ifdir = true → 0 < (fs.inode i).iNlink :=
    fun k i hl hdir => nlink_pos_of_lookup hb hl hdir
  cases ht : removeTarget fs dp name none true renv with
  | none =>
    rw [dirremove_none ht hpos]
    exact iff_of_true hb fun _ _ h => absurd h (some_ne_none _).symm
  | some r =>
    obtain ⟨k, i⟩ := r
    obtain ⟨hl, hdir, -, -⟩ := dirremove_some ht
    cases hd : (fs.inode i).ifdir with
    | false =>
      rw [dirremove_unlink ht (fun h => by rw [hd] at h; exact absurd h.2 Bool.false_ne_true)
        (hpos k i hl hdir), hb, zero_add, held_of_not_dir hd, tally_nil, ite_self]
      refine iff_of_true rfl fun k' i' hki hdi => ?_
      obtain ⟨rfl, rfl⟩ := Prod.mk.inj (Option.some.inj hki)
      rw [hd] at hdi
      exact absurd hdi Bool.false_ne_true
    | true =>
      rw [dirremove_rmdir ht hd, hb, zero_add]
      have hperm : tally (fs.inode i).held - Pi.single i 1 - Pi.single dp 1 = 0
          ↔ (fs.inode i).held.Perm [i, dp] := by
        rw [← tally_eq_iff, tally_cons, tally_cons, tally_nil, add_zero, sub_sub, sub_eq_zero]
      constructor
      · intro h k' i' hki _ hs
        obtain ⟨rfl, rfl⟩ := Prod.mk.inj (Option.some.inj hki)
        rw [if_pos hs] at h
        exact hperm.1 h
      · intro h
        split_ifs with hs
        · exact hperm.2 (h k i rfl hd hs)
        · rfl

/-- **Link counts and directory entries.**  On a file system whose link counts equal the directory
entries, a call does not panic and leaves them equal exactly when it is none of the cases that
`Kept` excludes. -/
theorem link_counts_kept (fs : Fs Ino) (hb : fs.Balanced) (op : Op Ino) (env : Env Ino)
    (renv : RemoveEnv) :
    (∃ fs', op.exec fs env renv = some fs' ∧ fs'.Balanced) ↔ Kept fs env renv op := by
  rw [Fs.balanced_iff] at hb
  simp only [Fs.balanced_iff]
  cases op with
  | create tdp name vt =>
    simp only [Op.exec, Option.some.injEq, exists_eq_left', Kept]
    rcases direnterCreate_excess fs tdp name vt env with ⟨hk, hex⟩ | ⟨hk, hex⟩
    · rw [hex]
      exact iff_of_true hb hk
    · rw [hex, hb, zero_sub, neg_eq_zero]
      exact iff_of_false (single_ne_zero tdp) (not_not.2 hk)
  | link tdp name sip =>
    simp only [Op.exec, Option.some.injEq, exists_eq_left', Kept]
    rw [direnterLink_excess]
    exact iff_of_true hb trivial
  | rename sdp snm tdp tnm => exact ufsRename_kept hb sdp snm tdp tnm env renv
  | remove dp name =>
    simp only [Op.exec, Option.some.injEq, exists_eq_left', Kept]
    exact remove_kept hb dp name renv
  | rmdir dp name =>
    simp only [Op.exec, Option.some.injEq, exists_eq_left', Kept]
    exact rmdir_kept hb dp name renv

instance (fs : Fs Ino) : Decidable fs.Balanced :=
  inferInstanceAs (Decidable (∀ i, (fs.inode i).iNlink = fs.refs i))

/-! ### Concrete calls -/

local instance neZero_three : NeZero 3 := ⟨by decide⟩

/-- Nothing goes wrong outside. -/
def quietEnv : Env (Fin 3) where
  iexec := none
  checkpath := none
  look := none
  sticky := false
  iwrite := none
  ialloc := some 2
  bmap := none
  prepare := none
  grown := 0
  slot := { off := 36, pos := 3, reloc := id, entryend := 48, stale := (none, false) }
  dotdot := none
  empty := true
  empty' := true

def quietRemove : RemoveEnv where
  access := none
  look := none
  sticky := false
  mounted := false
  empty := true

/-- A root with one directory `a` in it, which has the entries that are given. -/
def oneDir (nlinkRoot nlinkA : ℤ) (ents : List (Direct (Fin 3))) : Fs (Fin 3) where
  lfn := true
  inode i :=
    if i = 0 then
      { ifdir := true, iNlink := nlinkRoot, iSize := 1024,
        ents := [⟨0, ".", 0⟩, ⟨12, "..", 0⟩, ⟨24, "a", 1⟩], stale := (none, false) }
    else if i = 1 then
      { ifdir := true, iNlink := nlinkA, iSize := 1024, ents := ents, stale := (none, true) }
    else { ifdir := false, iNlink := 0, iSize := 0, ents := [], stale := (none, false) }

/-- `rmdir` of a directory with `.` and `..`. -/
theorem link_counts_kept_rmdir :
    ∃ fs', Op.exec (oneDir 3 2 [⟨0, ".", 1⟩, ⟨12, "..", 0⟩]) quietEnv quietRemove (.rmdir 0 "a")
      = some fs' ∧ fs'.Balanced := by
  refine (link_counts_kept _ (by decide) _ _ _).2 ?_
  intro k ip h _ _
  have ht : removeTarget (oneDir 3 2 [⟨0, ".", 1⟩, ⟨12, "..", 0⟩]) 0 "a" none true quietRemove
      = some (2, 1) := by decide
  rw [ht] at h
  obtain ⟨rfl, rfl⟩ := Prod.mk.inj (Option.some.inj h)
  exact List.Perm.refl _

/-- `rmdir` of a directory whose `..` was unlinked takes a link of its parent along: the test of
the size is always true. -/
theorem rmdir_takes_parent_link :
    ¬∀ (fs : Fs (Fin 3)) (op : Op (Fin 3)) (env : Env (Fin 3)) (renv : RemoveEnv), fs.Balanced →
      ∃ fs', op.exec fs env renv = some fs' ∧ fs'.Balanced := by
  intro h
  obtain ⟨fs', hex, hb⟩ := h (oneDir 2 2 [⟨0, ".", 1⟩]) (.rmdir 0 "a") quietEnv quietRemove
    (by decide)
  obtain rfl := Option.some.inj hex
  revert hb
  decide

end Hpux.DirLink
