import Hpux910.Ufs.DirLinkOps

/-!
# Renaming

A rename over nothing enters the source under the new name and points its `..` at the new parent.
A rename over a directory also takes that directory's own entries and links out of the count.

* `diraddentry_some` : the first case.
* `dirrename_panics`, `dirrename_fails`, `dirrename_moves` : the second.
* `lookup_addEnt`, `lookup_setIno` : the old name is still found for the `dirremove` to come.
-/

namespace Hpux.DirLink

open List Option

variable {Ino : Type}

/-! ### The old name -/

theorem find?_insertIdx {α : Type} {p : α → Bool} {x : α} (hx : p x = false) (l : List α) (i : ℕ) :
    (l.insertIdx i x).find? p = l.find? p := by
  induction l generalizing i with
  | nil =>
    cases i with
    | zero => rw [insertIdx_zero, find?_cons, hx]
    | succ i => rw [insertIdx_succ_nil]
  | cons a l ih =>
    cases i with
    | zero => rw [insertIdx_zero, find?_cons, hx]
    | succ i => rw [insertIdx_succ_cons, find?_cons, find?_cons, ih]

theorem lookup_ino (ip : Inode Ino) (name : String) :
    (dircheckforname ip name).map (·.2) = (ip.ents.find? (·.dName = name)).map (·.dIno) := by
  rw [dircheckforname, firstRec, find?_eq_bind_findIdx?_getElem?, Option.map_map]
  cases ip.ents.findIdx? (·.dName = name) with
  | none => rfl
  | some k =>
    rw [bind_some, bind_some, Option.map_map]
    rfl

variable {ip : Inode Ino}

theorem lookup_of_ino {name : String} {i : Ino}
    (h : (ip.ents.find? (·.dName = name)).map (·.dIno) = some i) :
    ∃ k, dircheckforname ip name = some (k, i) := by
  rw [← lookup_ino] at h
  obtain ⟨⟨k, i'⟩, hk, rfl⟩ := map_eq_some_iff.1 h
  exact ⟨k, hk⟩

theorem ino_of_lookup {name : String} {k : ℕ} {i : Ino} (h : dircheckforname ip name = some (k, i)) :
    (ip.ents.find? (·.dName = name)).map (·.dIno) = some i := by
  rw [← lookup_ino, h]
  rfl

theorem lookup_addEnt {ip ip' : Inode Ino} {name name' : String} {k : ℕ} {i : Ino}
    (h : dircheckforname ip name = some (k, i)) (hne : name' ≠ name) (s : Slot Ino) (sip : Ino)
    (hip : ip'.ents = ip.ents.map fun e => { e with off := s.reloc e.off }) :
    ∃ k', dircheckforname (ip'.addEnt s name' sip) name = some (k', i) := by
  refine lookup_of_ino ((congrArg _ (find?_insertIdx (p := fun e => decide (e.dName = name))
    (decide_eq_false hne) ip'.ents _)).trans ?_)
  rw [hip, find?_map, Option.map_map]
  exact ino_of_lookup h

/-- The name that is found under the rewritten entry finds the new inode, every other name what it
found before. -/
theorem lookup_setIno {name : String} {k j : ℕ} {i n : Ino}
    (h : dircheckforname ip name = some (j, i)) :
    dircheckforname (ip.setIno k n) name = some (j, if k = j then n else i) := by
  obtain ⟨⟨j', e⟩, hr, he⟩ := map_eq_some_iff.1 h
  obtain ⟨rfl, rfl⟩ := Prod.mk.inj he
  have hname : (ip.ents.modify k fun e => { e with dIno := n }).map (·.dName)
      = ip.ents.map (·.dName) := by
    refine ext_getElem? fun m => ?_
    rw [getElem?_map, getElem?_modify, getElem?_map]
    split_ifs
    · cases ip.ents[m]? <;> rfl
    · cases ip.ents[m]? <;> rfl
  have hidx : ∀ l : List (Direct Ino), l.findIdx? (·.dName = name)
      = (l.map (·.dName)).findIdx? (· = name) := by
    intro l
    rw [findIdx?_map]
    rfl
  obtain ⟨j'', hj, hje⟩ := bind_eq_some_iff.1 hr
  obtain ⟨e', he', hee⟩ := map_eq_some_iff.1 hje
  obtain ⟨rfl, rfl⟩ := Prod.mk.inj hee
  rw [dircheckforname, firstRec, Inode.setIno, hidx, hname, ← hidx, hj, bind_some,
    getElem?_modify, he']
  by_cases hk : k = j''
  · simp [hk]
  · simp [hk]

variable [DecidableEq Ino]

/-! ### Over nothing -/

theorem dotdotFix_prepare (fs : Fs Ino) {sip tdp : Ino} (s : Slot Ino) (env : Env Ino) (h : sip ≠ tdp) :
    dotdotFix (dirprepareentry fs tdp s) sip tdp env = dotdotFix fs sip tdp env := by
  have hs : (dirprepareentry fs tdp s).inode sip = fs.inode sip := by
    rw [dirprepareentry, Fs.upd_inode, if_neg h]
  have ht : ((dirprepareentry fs tdp s).inode tdp).iNlink = (fs.inode tdp).iNlink := by
    rw [dirprepareentry, Fs.upd_inode, if_pos rfl]
  rw [dotdotFix, dotdotFix, hs, ht]
  rfl

variable [Fintype Ino]

/-- What the rewritten `..` of a moved directory does to the counts. -/
def moveDelta (fs : Fs Ino) (sdp tdp sip : Ino) (env : Env Ino) : Ino → ℤ :=
  if dotdotFix fs sip tdp env = .rewrite then
    Pi.single (dotdotLoses fs.lfn (fs.inode sip) tdp) 1
      - if (fs.inode sdp).iNlink + (if sdp = tdp then 1 else 0) ≠ 0 then Pi.single sdp 1 else 0
  else 0

variable {dp opdp npdp : Ino}

theorem dirfixdotdot_excess {fs : Fs Ino} {env : Env Ino} (hdir : (fs.inode dp).ifdir = true) :
    (dirfixdotdot fs dp opdp npdp env).1.excess = fs.excess + moveDelta fs opdp npdp dp env := by
  rw [moveDelta]
  by_cases h : dotdotFix fs dp npdp env = .rewrite
  · rw [if_pos h, (dirfixdotdot_rewrite h hdir).2, add_sub_assoc]
  · rw [if_neg h, add_zero, dirfixdotdot]
    cases hf : dotdotFix fs dp npdp env with
    | nothing => rfl
    | fail e => rfl
    | rewrite => exact absurd hf h

omit [Fintype Ino] in
theorem dirfixdotdot_error {fs : Fs Ino} {env : Env Ino} {e : Errno} :
    (dirfixdotdot fs dp opdp npdp env).2 = some e ↔ dotdotFix fs dp npdp env = .fail e := by
  rw [dirfixdotdot]
  cases dotdotFix fs dp npdp env with
  | nothing => simp
  | fail e' => simp
  | rewrite => simp

omit [Fintype Ino] in
theorem dirfixdotdot_fail {fs : Fs Ino} {env : Env Ino} {e : Errno}
    (h : dotdotFix fs dp npdp env = .fail e) : dirfixdotdot fs dp opdp npdp env = (fs, some e) := by
  rw [dirfixdotdot, h]

omit [Fintype Ino] in
theorem dirfixdotdot_ok {fs : Fs Ino} {env : Env Ino} (h : ∀ e, dotdotFix fs dp npdp env ≠ .fail e) :
    dirfixdotdot fs dp opdp npdp env = ((dirfixdotdot fs dp opdp npdp env).1, none) := by
  refine Prod.ext rfl ?_
  cases he : (dirfixdotdot fs dp opdp npdp env).2 with
  | none => rfl
  | some e => exact absurd (dirfixdotdot_error.1 he) (h e)

/-- A rename over nothing fails and changes no count, or it enters the source, rewrites `..`, and
the old name finds the source as before. -/
theorem diraddentry_some (env : Env Ino) {fs : Fs Ino} {tdp sip sdp : Ino} {name snm : String}
    {k : ℕ} (hdir : (fs.inode tdp).ifdir = true) (hsip : (fs.inode sip).ifdir = true)
    (hne : sip ≠ tdp) (hsdp : sip ≠ sdp) (hl : dircheckforname (fs.inode sdp) snm = some (k, sip))
    (hnew : dircheckforname (fs.inode tdp) name = none) :
    ((∃ fs' e, diraddentry fs tdp name sip (some sdp) env = (fs', some e) ∧ fs'.excess = fs.excess) ∧
      (env.prepare = none → ∃ e, dotdotFix fs sip tdp env = .fail e)) ∨
    env.prepare = none ∧ (∀ e, dotdotFix fs sip tdp env ≠ .fail e) ∧
      ∃ fs' k', diraddentry fs tdp name sip (some sdp) env = (fs', none) ∧
        fs'.excess = fs.excess + moveDelta fs sdp tdp sip env - Pi.single sip 1 ∧
        (fs'.inode sip).iNlink = (fs.inode sip).iNlink ∧
        dircheckforname (fs'.inode sdp) snm = some (k', sip) := by
  cases hp : env.prepare with
  | some e =>
    refine .inl ⟨⟨_, e, diraddentry_prepare hp, excess_grown _ _ _⟩, fun h => ?_⟩
    exact absurd h (some_ne_none e)
  | none =>
    set fs1 := dirprepareentry fs tdp env.slot with hfs1
    have hsip1 : fs1.inode sip = fs.inode sip := by
      rw [hfs1, dirprepareentry, Fs.upd_inode, if_neg hne]
    have hfix : dotdotFix fs1 sip tdp env = dotdotFix fs sip tdp env :=
      dotdotFix_prepare fs env.slot env hne
    have hadd : diraddentry fs tdp name sip (some sdp) env
        = let r := dirfixdotdot fs1 sip sdp tdp env
          (r.2.elim (r.1.upd tdp (Inode.addEnt env.slot name sip)) fun _ => r.1, r.2) := by
      rw [diraddentry, hp]
      dsimp only
      rw [← hfs1, hsip1, if_pos hsip] <;>
        rcases dirfixdotdot fs1 sip sdp tdp env with ⟨fs2, _ | e⟩ <;> rfl
    by_cases hfail : ∃ e, dotdotFix fs sip tdp env = .fail e
    · obtain ⟨e, he⟩ := hfail
      refine .inl ⟨⟨fs1, e, ?_, excess_dirprepareentry _ _ _⟩, fun _ => ⟨e, he⟩⟩
      rw [hadd, dirfixdotdot_fail (hfix.trans he)]
      rfl
    · have hok : ∀ e, dotdotFix fs sip tdp env ≠ .fail e := not_exists.1 hfail
      set fs2 := (dirfixdotdot fs1 sip sdp tdp env).1 with hfs2
      have hdir2 : (fs2.inode tdp).ifdir = true := by
        rw [hfs2, dirfixdotdot_ifdir, hfs1, dirprepareentry, Fs.upd_inode, if_pos rfl]
        exact hdir
      have hents : (fs2.inode tdp).ents
          = (fs.inode tdp).ents.map fun e => { e with off := env.slot.reloc e.off } := by
        rw [hfs2, dirfixdotdot_keep (·.ents) (fun _ _ => rfl) _ _ _ _ _ hne.symm, hfs1,
          dirprepareentry, Fs.upd_inode, if_pos rfl]
      have hex2 : fs2.excess = fs.excess + moveDelta fs sdp tdp sip env := by
        have hdelta : moveDelta fs1 sdp tdp sip env = moveDelta fs sdp tdp sip env := by
          have hsdp1 : (fs1.inode sdp).iNlink = (fs.inode sdp).iNlink := by
            rw [hfs1, dirprepareentry, Fs.upd_inode]
            split_ifs with h
            · rw [h]
            · rfl
          rw [moveDelta, moveDelta, hfix, hsip1, hsdp1]
          rfl
        rw [hfs2, dirfixdotdot_excess (by rw [hsip1]; exact hsip), hdelta, hfs1,
          excess_dirprepareentry]
      have hlook : ∃ k', dircheckforname
          ((fs2.upd tdp (Inode.addEnt env.slot name sip)).inode sdp) snm = some (k', sip) := by
        rw [Fs.upd_inode]
        split_ifs with hsd
        · subst hsd
          refine lookup_addEnt hl ?_ env.slot sip hents
          rintro rfl
          rw [hnew] at hl
          exact absurd hl (some_ne_none _).symm
        · refine ⟨k, ?_⟩
          rw [hfs2, dirfixdotdot_keep (dircheckforname · snm) (fun _ _ => rfl) _ _ _ _ _ hsdp.symm,
            hfs1, dirprepareentry, Fs.upd_inode, if_neg hsd]
          exact hl
      obtain ⟨k', hk'⟩ := hlook
      refine .inr ⟨rfl, hok, _, k', ?_, ?_, ?_, hk'⟩
      · rw [hadd, dirfixdotdot_ok (fun e => by rw [hfix]; exact hok e)]
        rfl
      · rw [excess_addEnt _ _ _ hdir2, hex2]
      · rw [Fs.upd_inode, if_neg hne, hfs2, dirfixdotdot_nlink _ _ _ _ _ hsdp hne, hsip1]

/-- A file is entered without a look at `..`. -/
theorem diraddentry_file (env : Env Ino) {fs : Fs Ino} {tdp sip sdp : Ino} {name snm : String}
    {k : ℕ} (hdir : (fs.inode tdp).ifdir = true) (hsip : (fs.inode sip).ifdir = false)
    (hl : dircheckforname (fs.inode sdp) snm = some (k, sip))
    (hnew : dircheckforname (fs.inode tdp) name = none) :
    (∃ fs' e, diraddentry fs tdp name sip (some sdp) env = (fs', some e) ∧ fs'.excess = fs.excess) ∨
    ∃ fs' k', diraddentry fs tdp name sip (some sdp) env = (fs', none) ∧
      fs'.excess = fs.excess - Pi.single sip 1 ∧ (fs'.inode sip).iNlink = (fs.inode sip).iNlink ∧
      dircheckforname (fs'.inode sdp) snm = some (k', sip) := by
  have hne : sip ≠ tdp := by
    rintro rfl
    rw [hdir] at hsip
    exact absurd hsip (by decide)
  cases hp : env.prepare with
  | some e => exact .inl ⟨_, e, diraddentry_prepare hp, excess_grown _ _ _⟩
  | none =>
    set fs1 := dirprepareentry fs tdp env.slot with hfs1
    have hsip1 : fs1.inode sip = fs.inode sip := by
      rw [hfs1, dirprepareentry, Fs.upd_inode, if_neg hne]
    have hdir1 : (fs1.inode tdp).ifdir = true := by
      rw [hfs1, dirprepareentry, Fs.upd_inode, if_pos rfl]
      exact hdir
    have hlook : ∃ k', dircheckforname
        ((fs1.upd tdp (Inode.addEnt env.slot name sip)).inode sdp) snm = some (k', sip) := by
      rw [Fs.upd_inode]
      split_ifs with hsd
      · subst hsd
        refine lookup_addEnt hl ?_ env.slot sip ?_
        · rintro rfl
          rw [hnew] at hl
          exact absurd hl (some_ne_none _).symm
        · rw [hfs1, dirprepareentry, Fs.upd_inode, if_pos rfl]
      · refine ⟨k, ?_⟩
        rw [hfs1, dirprepareentry, Fs.upd_inode, if_neg hsd]
        exact hl
    obtain ⟨k', hk'⟩ := hlook
    refine .inr ⟨_, k', ?_, ?_, ?_, hk'⟩
    · rw [diraddentry, hp]
      dsimp only
      rw [← hfs1, hsip1, hsip, if_neg Bool.false_ne_true]
    · rw [excess_addEnt _ _ _ hdir1, hfs1, excess_dirprepareentry]
    · rw [Fs.upd_inode, if_neg hne, hsip1]

/-! ### Over a directory -/

/-- The links that `dirrename` takes from the target directory. -/
def drops (edir : ℕ) : ℤ := if hasDot edir then 2 else 1

omit [Fintype Ino] in
theorem link_link (fs : Fs Ino) (i : Ino) (a b : ℤ) : (fs.link i a).link i b = fs.link i (a + b) := by
  have hinode : ((fs.link i a).link i b).inode = (fs.link i (a + b)).inode := by
    funext j
    simp only [Fs.link, Fs.upd_inode]
    split_ifs with h
    · simp [add_assoc]
    · rfl
  exact congrArg (Fs.mk fs.lfn) hinode

variable {fs : Fs Ino} {sdp sip tdp tip : Ino} {env : Env Ino} {k : ℕ}

omit [Fintype Ino] in
/-- `dirrename` of a directory, with the two ways of lowering the target's count in one. -/
theorem dirrename_eq (hr : renameErr fs sip tip env = none) (hsip : (fs.inode sip).ifdir = true) :
    dirrename fs sdp sip tdp k tip env =
      let edir := dirempty (fs.inode tip) env.empty'
      let fs2 := fs.link tip (-drops edir)
      if hasDot edir ∧ (fs.inode tip).iNlink ≠ 2 then none
      else some (renameEnd tdp k sip tip edir
        (if sdp ≠ tdp then dirfixdotdot fs2 sip sdp tdp env else (fs2, none))) := by
  have hfs2 : (if hasDot (dirempty (fs.inode tip) env.empty') = true then
      (fs.link tip (-1)).link tip (-1) else fs.link tip (-1))
      = fs.link tip (-drops (dirempty (fs.inode tip) env.empty')) := by
    rw [drops]
    split_ifs
    · exact link_link _ _ _ _
    · rfl
  have hpanic : (hasDot (dirempty (fs.inode tip) env.empty') = true ∧
        ((fs.link tip (-drops (dirempty (fs.inode tip) env.empty'))).inode tip).iNlink ≠ 0)
      ↔ hasDot (dirempty (fs.inode tip) env.empty') = true ∧ (fs.inode tip).iNlink ≠ 2 := by
    refine and_congr_right fun h => not_congr ?_
    rw [Fs.link_nlink, if_pos rfl, drops, if_pos h]
    omega
  rw [dirrename, hr]
  dsimp only
  rw [if_pos hsip, dirempty_link, hfs2]
  simp only [hpanic]

variable {e : Direct Ino}

/-- What the end of `dirrename` does to the counts: the new parent loses the link of the target's
`..`, the target's own entries go, and its name now finds the source. -/
theorem excess_renameEnd {fs3 : Fs Ino} {edir : ℕ}
    (hk : (fs3.inode tdp).ents[k]? = some e) (he : e.dIno = tip) (htdp : tip ≠ tdp)
    (hdir : (fs3.inode tdp).ifdir = true) :
    (renameEnd tdp k sip tip edir (fs3, none)).1.excess = fs3.excess
      - (if hasDotdot edir then Pi.single tdp 1 else 0)
      + (if hasDot edir then tally (fs3.inode tip).held else 0)
      + Pi.single tip 1 - Pi.single sip 1 := by
  rw [renameEnd]
  dsimp only
  set fs4 := if hasDotdot edir then fs3.link tdp (-1) else fs3 with hfs4
  set fs5 := if hasDot edir then itrunc fs4 tip else fs4 with hfs5
  have h4 : fs4.excess = fs3.excess - if hasDotdot edir then Pi.single tdp 1 else 0 := by
    rw [hfs4]
    split_ifs
    · rw [Fs.excess_link, single_neg_one, sub_eq_add_neg]
    · rw [sub_zero]
  have h4t : (fs4.inode tip).held = (fs3.inode tip).held := by
    rw [hfs4]
    split_ifs
    · exact Fs.link_held _ _ _ _
    · rfl
  have h5 : fs5.excess = fs4.excess + if hasDot edir then tally (fs3.inode tip).held else 0 := by
    rw [hfs5]
    split_ifs
    · rw [excess_itrunc, h4t]
    · rw [add_zero]
  -- neither the count of the parent nor the data of the target is the parent's list of entries
  have hkeep : ∀ {α : Type} (f : Inode Ino → α),
      (∀ (ip : Inode Ino) (z : ℤ), f { ip with iNlink := z } = f ip) →
      f (fs5.inode tdp) = f (fs3.inode tdp) := by
    intro α f hf
    have h45 : fs5.inode tdp = fs4.inode tdp := by
      rw [hfs5]
      split_ifs
      · rw [itrunc, Fs.upd_inode, if_neg htdp.symm]
      · rfl
    rw [h45, hfs4]
    split_ifs
    · exact Fs.link_keep f hf _ _ _ _
    · rfl
  have hk5 : (fs5.inode tdp).ents[k]? = some e := by rw [hkeep (·.ents) fun _ _ => rfl, hk]
  have hd5 : (fs5.inode tdp).ifdir = true := by rw [hkeep (·.ifdir) fun _ _ => rfl, hdir]
  rw [Fs.excess_upd_held _ _ rfl, tally_held_setIno hk5 hd5, h5, h4, he]
  abel

omit [Fintype Ino] in
/-- The end of `dirrename` leaves the link counts of all but the parent alone. -/
theorem renameEnd_nlink (fs3 : Fs Ino) (edir : ℕ) {j : Ino} (hj : j ≠ tdp) :
    (((renameEnd tdp k sip tip edir (fs3, none)).1).inode j).iNlink = (fs3.inode j).iNlink := by
  have h4 : ((if hasDotdot edir then fs3.link tdp (-1) else fs3).inode j).iNlink
      = (fs3.inode j).iNlink := by
    split_ifs
    · rw [Fs.link_nlink, if_neg hj, add_zero]
    · rfl
  rw [renameEnd]
  dsimp only
  rw [Fs.upd_inode, if_neg hj, ← h4]
  by_cases hd : hasDot edir = true
  · rw [if_pos hd, itrunc, Fs.upd_inode]
    split_ifs with h1
    · rw [h1]
    · rw [h1]
    · rfl
    · rfl
  · rw [if_neg hd]

omit [Fintype Ino] in
/-- The target's entries are gone when it was truncated. -/
theorem renameEnd_held (fs3 : Fs Ino) (edir : ℕ) (htdp : tip ≠ tdp) :
    (((renameEnd tdp k sip tip edir (fs3, none)).1).inode tip).held
      = if hasDot edir then [] else (fs3.inode tip).held := by
  rw [renameEnd]
  dsimp only
  rw [Fs.upd_inode, if_neg htdp]
  by_cases hd : hasDot edir = true
  · rw [if_pos hd, if_pos hd, held_itrunc]
  · rw [if_neg hd, if_neg hd]
    split_ifs
    · exact Fs.link_held _ _ _ _
    · rfl

omit [Fintype Ino] in
/-- The old name of the source is still found. -/
theorem renameEnd_lookup {fs3 : Fs Ino} (edir : ℕ) {snm : String} {j : ℕ} (htdp : tip ≠ tdp)
    (htsdp : tip ≠ sdp) (hl : dircheckforname (fs3.inode sdp) snm = some (j, sip)) :
    dircheckforname (((renameEnd tdp k sip tip edir (fs3, none)).1).inode sdp) snm = some (j, sip) := by
  have hmid : ∀ i, i ≠ tip → dircheckforname ((if hasDot edir then
      itrunc (if hasDotdot edir then fs3.link tdp (-1) else fs3) tip
      else if hasDotdot edir then fs3.link tdp (-1) else fs3).inode i) snm
      = dircheckforname (fs3.inode i) snm := by
    intro i hi
    have h4 : dircheckforname ((if hasDotdot edir then fs3.link tdp (-1) else fs3).inode i) snm
        = dircheckforname (fs3.inode i) snm := by
      split_ifs
      · exact dircheckforname_link _ _ _ _ _
      · rfl
    rw [← h4]
    split_ifs
    · rw [itrunc, Fs.upd_inode, if_neg hi]
    · rw [itrunc, Fs.upd_inode, if_neg hi]
    · rfl
    · rfl
  rw [renameEnd]
  dsimp only
  rw [Fs.upd_inode]
  by_cases hsd : sdp = tdp
  · rw [if_pos hsd, lookup_setIno ((hmid tdp htdp.symm).trans (hsd ▸ hl)), ite_self]
  · rw [if_neg hsd, hmid sdp htsdp.symm, hl]

omit [Fintype Ino] in
theorem moveDelta_link {z : ℤ} (h1 : sip ≠ tip) (h2 : tdp ≠ tip) (h3 : sdp ≠ tip) :
    moveDelta (fs.link tip z) sdp tdp sip env = moveDelta fs sdp tdp sip env := by
  rw [moveDelta, moveDelta, dotdotFix_link fs z env h1 h2, Fs.link_nlink, if_neg h3, add_zero,
    dotdotLoses_link, Fs.link_lfn]

/-- The target loses its links and, when the parent is different, `..` of the source is
rewritten. -/
theorem renameMid (sdp : Ino) (env : Env Ino) (htdp : tip ≠ tdp) (htsip : tip ≠ sip) (htsdp : tip ≠ sdp) (z : ℤ)
    (hsip : (fs.inode sip).ifdir = true) (hok : sdp ≠ tdp → ∀ e, dotdotFix fs sip tdp env ≠ .fail e) :
    ∃ fs3, (if sdp ≠ tdp then dirfixdotdot (fs.link tip z) sip sdp tdp env
        else (fs.link tip z, none)) = (fs3, none) ∧ fs3.excess = fs.excess + Pi.single tip z
        + (if sdp ≠ tdp then moveDelta fs sdp tdp sip env else 0) ∧
      (fs3.inode tip).iNlink = (fs.inode tip).iNlink + z ∧
      (sip ≠ sdp → sip ≠ tdp → (fs3.inode sip).iNlink = (fs.inode sip).iNlink) ∧
      ∀ {α : Type} (f : Inode Ino → α),
        (∀ (ip : Inode Ino) (z : ℤ), f { ip with iNlink := z } = f ip) →
        ∀ j, j ≠ sip → f (fs3.inode j) = f (fs.inode j) := by
  by_cases hne : sdp = tdp
  · refine ⟨fs.link tip z, ?_, ?_, ?_, fun _ _ => ?_, fun f hf j _ => Fs.link_keep f hf _ _ _ _⟩
    · rw [if_neg (not_not.2 hne)]
    · rw [if_neg (not_not.2 hne), Fs.excess_link, add_zero]
    · rw [Fs.link_nlink, if_pos rfl]
    · rw [Fs.link_nlink, if_neg htsip.symm, add_zero]
  · have hfix := dotdotFix_link fs z env htsip.symm htdp.symm
    refine ⟨(dirfixdotdot (fs.link tip z) sip sdp tdp env).1, ?_, ?_, ?_, fun h1 h2 => ?_,
      fun f hf j hj => ?_⟩
    · rw [if_pos hne]
      exact dirfixdotdot_ok fun e => by rw [hfix]; exact hok hne e
    · rw [if_pos hne, dirfixdotdot_excess (by rw [Fs.link_ifdir]; exact hsip), Fs.excess_link,
        moveDelta_link htsip.symm htdp.symm htsdp.symm]
    · rw [dirfixdotdot_nlink _ _ _ _ _ htsdp htdp, Fs.link_nlink, if_pos rfl]
    · rw [dirfixdotdot_nlink _ _ _ _ _ h1 h2, Fs.link_nlink, if_neg htsip.symm, add_zero]
    · rw [dirfixdotdot_keep f hf _ _ _ _ _ hj, Fs.link_keep f hf]

/-- What a rename over a directory does, when it neither panics nor fails at `..`. -/
theorem dirrename_moves {snm : String} {j : ℕ}
    (hr : renameErr fs sip tip env = none) (hsip : (fs.inode sip).ifdir = true)
    (hdir : (fs.inode tdp).ifdir = true) (hk : (fs.inode tdp).ents[k]? = some e)
    (he : e.dIno = tip) (htdp : tip ≠ tdp) (htsip : tip ≠ sip) (htsdp : tip ≠ sdp)
    (hst : sip ≠ tdp) (hss : sip ≠ sdp) (hl : dircheckforname (fs.inode sdp) snm = some (j, sip))
    (hpanic : hasDot (dirempty (fs.inode tip) env.empty') → (fs.inode tip).iNlink = 2)
    (hok : sdp ≠ tdp → ∀ e, dotdotFix fs sip tdp env ≠ .fail e) :
    ∃ fs' j', dirrename fs sdp sip tdp k tip env = some (fs', none) ∧
      fs'.excess = fs.excess + Pi.single tip (1 - drops (dirempty (fs.inode tip) env.empty'))
        + (if sdp ≠ tdp then moveDelta fs sdp tdp sip env else 0)
        - (if hasDotdot (dirempty (fs.inode tip) env.empty') then Pi.single tdp 1 else 0)
        + (if hasDot (dirempty (fs.inode tip) env.empty') then tally (fs.inode tip).held else 0)
        - Pi.single sip 1 ∧
      (fs'.inode tip).iNlink = (fs.inode tip).iNlink - drops (dirempty (fs.inode tip) env.empty') ∧
      (fs'.inode tip).held
        = (if hasDot (dirempty (fs.inode tip) env.empty') then [] else (fs.inode tip).held) ∧
      (fs'.inode sip).iNlink = (fs.inode sip).iNlink ∧
      dircheckforname (fs'.inode sdp) snm = some (j', sip) := by
  set edir := dirempty (fs.inode tip) env.empty' with hedir
  obtain ⟨fs3, hfs3, hex3, hn3, hs3, hkeep3⟩ :=
    renameMid sdp env htdp htsip htsdp (-drops edir) hsip hok
  have hk3 : (fs3.inode tdp).ents[k]? = some e := by
    rw [hkeep3 (·.ents) (fun _ _ => rfl) tdp hst.symm, hk]
  have hd3 : (fs3.inode tdp).ifdir = true := by
    rw [hkeep3 (·.ifdir) (fun _ _ => rfl) tdp hst.symm, hdir]
  have hh3 : (fs3.inode tip).held = (fs.inode tip).held :=
    hkeep3 Inode.held (fun _ _ => rfl) tip htsip
  have hl3 : dircheckforname (fs3.inode sdp) snm = some (j, sip) := by
    rw [hkeep3 (dircheckforname · snm) (fun _ _ => rfl) sdp hss.symm, hl]
  have hcall : dirrename fs sdp sip tdp k tip env
      = some (renameEnd tdp k sip tip edir (fs3, none)) := by
    rw [dirrename_eq hr hsip, ← hedir]
    dsimp only
    rw [if_neg (fun h => h.2 (hpanic h.1)), hfs3]
  refine ⟨(renameEnd tdp k sip tip edir (fs3, none)).1, j, hcall, ?_, ?_, ?_, ?_, ?_⟩
  · rw [excess_renameEnd hk3 he htdp hd3, hex3, hh3, Pi.single_sub, Pi.single_neg]
    abel
  · rw [renameEnd_nlink fs3 edir htdp, hn3, sub_eq_add_neg]
  · rw [renameEnd_held fs3 edir htdp, hh3]
  · rw [renameEnd_nlink fs3 edir hst, hs3 hss hst]
  · exact renameEnd_lookup edir htdp htsdp hl3

omit [Fintype Ino] in
/-- A rename over a directory that has `.`, or cannot be read again, panics unless the directory
has two links. -/
theorem dirrename_panics (hr : renameErr fs sip tip env = none) (hsip : (fs.inode sip).ifdir = true)
    (hdot : hasDot (dirempty (fs.inode tip) env.empty') = true) (hn : (fs.inode tip).iNlink ≠ 2) :
    dirrename fs sdp sip tdp k tip env = none := by
  rw [dirrename_eq hr hsip]
  dsimp only
  rw [if_pos ⟨hdot, hn⟩]

omit [Fintype Ino] in
/-- A rename over a directory that fails at `..` has already taken the target's links. -/
theorem dirrename_fails {e : Errno} (hr : renameErr fs sip tip env = none)
    (hsip : (fs.inode sip).ifdir = true)
    (hpanic : hasDot (dirempty (fs.inode tip) env.empty') → (fs.inode tip).iNlink = 2)
    (hne : sdp ≠ tdp) (htdp : tip ≠ tdp) (htsip : tip ≠ sip)
    (hfail : dotdotFix fs sip tdp env = .fail e) : dirrename fs sdp sip tdp k tip env
      = some (fs.link tip (-drops (dirempty (fs.inode tip) env.empty')), some e) := by
  rw [dirrename_eq hr hsip]
  dsimp only
  rw [if_neg (fun h => h.2 (hpanic h.1)), if_pos hne, dirfixdotdot_fail]
  · rfl
  · rw [dotdotFix_link fs _ env htsip.symm htdp.symm, hfail]

/-- A rename of a file over a file. -/
theorem dirrename_file (sdp : Ino) {snm : String} {j : ℕ}
    (hr : renameErr fs sip tip env = none) (hsip : (fs.inode sip).ifdir = false)
    (hdir : (fs.inode tdp).ifdir = true) (hk : (fs.inode tdp).ents[k]? = some e)
    (he : e.dIno = tip) (htsip : tip ≠ sip) (hl : dircheckforname (fs.inode sdp) snm = some (j, sip)) :
    (fs.inode tip).ifdir = false ∧ ∃ fs', dirrename fs sdp sip tdp k tip env = some (fs', none) ∧
      fs'.excess = fs.excess - Pi.single sip 1 ∧ (fs'.inode tip).ifdir = false ∧
      (fs'.inode sip).iNlink = (fs.inode sip).iNlink ∧
      dircheckforname (fs'.inode sdp) snm = some (j, sip) := by
  have htip : (fs.inode tip).ifdir = false := by
    simp only [renameErr, firstErr_cons, errIf_eq_none] at hr
    rw [← Bool.not_eq_true]
    exact fun h => hr.2.1 ⟨h, hsip⟩
  have htdp : tip ≠ tdp := by
    rintro rfl
    rw [hdir] at htip
    exact absurd htip (by decide)
  have hst : sip ≠ tdp := by
    rintro rfl
    rw [hdir] at hsip
    exact absurd hsip (by decide)
  refine ⟨htip, (fs.link tip (-1)).upd tdp (·.setIno k sip), ?_, ?_, ?_, ?_, ?_⟩
  · rw [dirrename, hr]
    dsimp only
    rw [hsip, if_neg Bool.false_ne_true]
  · have hk1 : ((fs.link tip (-1)).inode tdp).ents[k]? = some e := by
      rw [Fs.link_keep (·.ents) fun _ _ => rfl, hk]
    rw [Fs.excess_upd_held _ _ rfl, tally_held_setIno hk1 (by rw [Fs.link_ifdir, hdir]),
      Fs.excess_link, he, single_neg_one]
    abel
  · rw [Fs.upd_inode, if_neg htdp, Fs.link_ifdir, htip]
  · rw [Fs.upd_inode, if_neg hst, Fs.link_nlink, if_neg htsip.symm, add_zero]
  · rw [Fs.upd_inode]
    by_cases hsd : sdp = tdp
    · have hl1 : dircheckforname ((fs.link tip (-1)).inode tdp) snm = some (j, sip) := by
        rw [dircheckforname_link, ← hsd, hl]
      rw [if_pos hsd, lookup_setIno hl1, ite_self]
    · rw [if_neg hsd, dircheckforname_link, hl]

end Hpux.DirLink
