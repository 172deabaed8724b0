import Hpux910.Ufs.DirLinkRename

/-!
# A rename that fails

`dirrename` takes the links of the directory that it replaces before `dirfixdotdot` rewrites the
`..` of the source.  When `dirfixdotdot` fails the links are not given back.

* `Sys` : the file systems and the numbers of the inodes.
* `Sys.dirrename` : the routine, with its tests of the inode numbers and the file systems.
* `Unchanged` : what a rename that fails should leave alone.
* `Spoils` : when it does not.
-/

namespace Hpux.RenameFail

open DirLink

variable {Ino : Type} [DecidableEq Ino]

/-- The inodes of a system: what `DirLink` says of them, and which they are. -/
structure Sys (Ino : Type) where
  fs : Fs Ino
  /-- `i_number` -/
  number : Ino → ℕ
  /-- `i_vnode.v_vfsp` -/
  vfsp : Ino → ℕ

/-- The checks of `dirrename` before it looks at the kinds of the inodes. -/
def Sys.placeErr (s : Sys Ino) (sip tdp tip : Ino) (env : Env Ino) : Option Errno :=
  firstErr [env.iwrite,
    errIf (s.vfsp tip ≠ s.vfsp tdp ∨ s.vfsp tip ≠ s.vfsp sip) .EXDEV]

/-- `dirrename(sdp, sip, tdp, namep, tip, slotp)`; `k` is the slot of the entry.  `none` is the
panic. -/
def Sys.dirrename (s : Sys Ino) (sdp sip tdp : Ino) (k : ℕ) (tip : Ino) (env : Env Ino) :
    Option (Fs Ino × Option Errno) :=
  if s.number sip = s.number tip then some (s.fs, none)
  else
    match s.placeErr sip tdp tip env with
    | some e => some (s.fs, some e)
    | none => DirLink.dirrename s.fs sdp sip tdp k tip env

/-- The link counts of the four inodes, the entries of the two target directories, `..` of the
source and the blocks of the target are the same. -/
structure Unchanged (fs fs' : Fs Ino) (sdp sip tdp tip : Ino) : Prop where
  nlink : ∀ i ∈ [tip, sip, sdp, tdp], (fs'.inode i).iNlink = (fs.inode i).iNlink
  ents : ∀ i ∈ [tip, tdp], (fs'.inode i).ents = (fs.inode i).ents
  dotdot : dotdotIno fs'.lfn (fs'.inode sip) = dotdotIno fs.lfn (fs.inode sip)
  blocks : (fs'.inode tip).iSize = (fs.inode tip).iSize

/-- All tests of `dirrename` are passed for a directory that comes from another parent, and then
`dirfixdotdot` fails: `..` of the source cannot be read, or is mangled, or the new parent has
`MAXLINK` links. -/
structure Spoils (s : Sys Ino) (sdp sip tdp tip : Ino) (env : Env Ino) : Prop where
  number : s.number sip ≠ s.number tip
  place : s.placeErr sip tdp tip env = none
  kinds : renameErr s.fs sip tip env = none
  ifdir : (s.fs.inode sip).ifdir = true
  parent : sdp ≠ tdp
  /-- It does not panic: the target has two links unless it is found without `.`. -/
  links : hasDot (dirempty (s.fs.inode tip) env.empty') = true → (s.fs.inode tip).iNlink = 2
  fix : ∃ e, dotdotFix s.fs sip tdp env = .fail e

variable {s : Sys Ino} {sdp sip tdp tip : Ino} {k : ℕ} {env : Env Ino} {fs fs' : Fs Ino}

omit [DecidableEq Ino] in
theorem Unchanged.refl (fs : Fs Ino) : Unchanged fs fs sdp sip tdp tip :=
  ⟨fun _ _ => rfl, fun _ _ => rfl, rfl, rfl⟩

omit [DecidableEq Ino] in
theorem nlink_le (hr : renameErr fs sip tip env = none) (hsip : (fs.inode sip).ifdir = true) :
    (fs.inode tip).iNlink ≤ 2 := by
  simp only [renameErr, firstErr, errIf, hsip, List.findSome?_eq_none_iff, List.mem_cons,
    List.not_mem_nil, or_false, forall_eq_or_imp, forall_eq, id_eq, ite_eq_right_iff,
    reduceCtorEq, imp_false, not_and, not_or, and_true, Bool.not_eq_false] at hr
  exact Int.not_lt.1 (hr.2.2.1 hr.2.2.2).2

/-- The count of the target does not change what `dirfixdotdot` finds. -/
theorem dotdotFix_drops (hr : renameErr fs sip tip env = none)
    (hsip : (fs.inode sip).ifdir = true) (hne : sip ≠ tip) (edir : ℕ) :
    dotdotFix (fs.link tip (-drops edir)) sip tdp env = dotdotFix fs sip tdp env := by
  by_cases ht : tdp = tip
  · subst ht
    have hle := nlink_le hr hsip
    have hdrops : 0 < drops edir := by
      unfold drops
      split_ifs <;> decide
    have hd : (fs.link tdp (-drops edir)).inode sip = fs.inode sip := by
      rw [Fs.link, Fs.upd_inode, if_neg hne]
    -- neither count is `MAXLINK`
    have h1 : (fs.inode tdp).iNlink ≠ MAXLINK := by
      unfold MAXLINK
      omega
    have h2 : ((fs.link tdp (-drops edir)).inode tdp).iNlink ≠ MAXLINK := by
      rw [Fs.link_nlink, if_pos rfl]
      unfold MAXLINK
      omega
    rw [dotdotFix, dotdotFix, hd, Fs.link_lfn, if_neg h1, if_neg h2]
  · exact dotdotFix_link fs _ env hne ht

/-- A rename fails with everything unchanged, or it has taken the links of the target. -/
theorem dirrename_error {e : Errno} (h : s.dirrename sdp sip tdp k tip env = some (fs', some e)) :
    fs' = s.fs ∨ Spoils s sdp sip tdp tip env ∧
      fs' = s.fs.link tip (-drops (dirempty (s.fs.inode tip) env.empty')) := by
  unfold Sys.dirrename at h
  split_ifs at h with hnum
  · simp at h
  cases hplace : s.placeErr sip tdp tip env with
  | some e' =>
    simp only [hplace, Option.some.injEq, Prod.mk.injEq] at h
    exact .inl h.1.symm
  | none =>
  rw [hplace] at h
  dsimp only at h
  cases hr : renameErr s.fs sip tip env with
  | some e' =>
    rw [DirLink.dirrename, hr] at h
    cases h
    exact .inl rfl
  | none =>
    cases hsip : (s.fs.inode sip).ifdir with
    | false =>
      rw [DirLink.dirrename, hr] at h
      simp [hsip] at h
    | true =>
      rw [dirrename_eq hr hsip] at h
      dsimp only at h
      split_ifs at h with hpanic hpar
      · -- `dirfixdotdot`
        have hne : sip ≠ tip := fun he => hnum (by rw [he])
        rw [dirfixdotdot, dotdotFix_drops hr hsip hne] at h
        cases hfix : dotdotFix s.fs sip tdp env with
        | nothing => simp [hfix, renameEnd] at h
        | rewrite => simp [hfix, renameEnd] at h
        | fail e' =>
          simp only [hfix, renameEnd, Option.some.injEq, Prod.mk.injEq] at h
          refine .inr ⟨⟨hnum, hplace, hr, hsip, hpar, fun hd => ?_, e', hfix⟩, h.1.symm⟩
          exact not_not.1 fun hn => hpanic ⟨hd, hn⟩
      · simp [renameEnd] at h

theorem Spoils.fails (h : Spoils s sdp sip tdp tip env) : ∃ e, s.dirrename sdp sip tdp k tip env =
      some (s.fs.link tip (-drops (dirempty (s.fs.inode tip) env.empty')), some e) := by
  obtain ⟨hnum, hplace, hr, hsip, hpar, hlinks, e, hfix⟩ := h
  have hne : sip ≠ tip := fun he => hnum (by rw [he])
  refine ⟨e, ?_⟩
  rw [Sys.dirrename, if_neg hnum, hplace]
  dsimp only
  rw [dirrename_eq hr hsip]
  dsimp only
  rw [if_neg fun hp => hp.2 (hlinks hp.1), if_pos hpar, dirfixdotdot,
    dotdotFix_drops hr hsip hne, hfix]
  rfl

/-- A rename that fails changes nothing, unless `dirfixdotdot` fails after the links of the target
have been taken. -/
theorem dirrename_unchanged_iff (s : Sys Ino) (sdp sip tdp : Ino) (k : ℕ) (tip : Ino)
    (env : Env Ino) :
    (∀ fs' e, s.dirrename sdp sip tdp k tip env = some (fs', some e) →
      Unchanged s.fs fs' sdp sip tdp tip) ↔ ¬Spoils s sdp sip tdp tip env := by
  refine ⟨fun h hsp => ?_, fun hsp fs' e h => ?_⟩
  · obtain ⟨e, he⟩ := hsp.fails (k := k)
    have hn := (h _ e he).nlink tip (by simp)
    rw [Fs.link_nlink, if_pos rfl] at hn
    have hdrops : 0 < drops (dirempty (s.fs.inode tip) env.empty') := by
      unfold drops
      split_ifs <;> decide
    omega
  · obtain rfl | ⟨hsp', -⟩ := dirrename_error h
    · exact .refl _
    · exact absurd hsp' hsp

/-! ### A run -/

/-- The root 0 has the directories 1 and 2; 3 is to be moved from 1 to 2, over the empty 4.  The
count of 3 is one up, for its new entry. -/
def twoParents : Sys (Fin 5) where
  fs :=
    { lfn := false
      inode := fun i =>
        match i with
        | 0 => ⟨true, 4, 128, [⟨0, ".", 0⟩, ⟨32, "..", 0⟩, ⟨64, "x", 1⟩, ⟨96, "t", 2⟩],
            (none, false)⟩
        | 1 => ⟨true, 3, 96, [⟨0, ".", 1⟩, ⟨32, "..", 0⟩, ⟨64, "a", 3⟩], (none, false)⟩
        | 2 => ⟨true, 3, 96, [⟨0, ".", 2⟩, ⟨32, "..", 0⟩, ⟨64, "b", 4⟩], (none, false)⟩
        | 3 => ⟨true, 3, 64, [⟨0, ".", 3⟩, ⟨32, "..", 1⟩], (none, false)⟩
        | 4 => ⟨true, 2, 64, [⟨0, ".", 4⟩, ⟨32, "..", 2⟩], (none, false)⟩ }
  number i := i + 2
  vfsp _ := 0

/-- The disc cannot read the block with `..` of the source. -/
def noDotdot : Env (Fin 5) where
  iexec := none
  checkpath := none
  look := none
  sticky := false
  iwrite := none
  ialloc := none
  bmap := none
  prepare := none
  grown := 0
  slot := ⟨0, 0, id, 0, (none, false)⟩
  dotdot := some Errno.EIO
  empty := true
  empty' := true

/-- The rename fails, and the empty target has lost its two links. -/
theorem dirrename_takes_links : ∃ fs', twoParents.dirrename 1 3 2 2 4 noDotdot =
    some (fs', some Errno.EIO) ∧ ¬Unchanged twoParents.fs fs' 1 3 2 4 := by
  refine ⟨_, rfl, fun h => ?_⟩
  have hn := h.nlink 4 (by simp)
  revert hn
  decide

end Hpux.RenameFail
