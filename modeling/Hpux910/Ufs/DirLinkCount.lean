import Hpux910.Ufs.DirLink

/-!
# What the directory operations do to the counts

The link counts are right when `Fs.excess` is `0`.  Each operation of `ufs_dir.c` changes the
excess by an amount that is read off its code, so the effect of a whole call is a sum.

* `Fs.refs`, `Fs.Balanced` : the number of directory entries naming an inode, and link counts that
  equal it.
* `dirfixdotdot_excess`, `diraddentry_excess`, `dirremove_excess`, … : what the functions do.
-/

namespace Hpux.DirLink

open List

variable {Ino : Type}

/-! ### Finding records -/

variable {k : ℕ} {e : Direct Ino}

theorem firstRec_some {p : Direct Ino → Bool} {l : List (Direct Ino)}
    (h : firstRec p l = some (k, e)) : l[k]? = some e ∧ p e = true := by
  obtain ⟨j, hj, he⟩ := Option.bind_eq_some_iff.1 h
  obtain ⟨a, ha, hae⟩ := Option.map_eq_some_iff.1 he
  obtain ⟨rfl, rfl⟩ := Prod.mk.inj hae
  obtain ⟨hlt, hp, -⟩ := findIdx?_eq_some_iff_getElem.1 hj
  rw [getElem?_eq_getElem hlt] at ha
  obtain rfl := Option.some.inj ha
  exact ⟨getElem?_eq_getElem hlt, hp⟩

theorem map_modify_dIno {l : List (Direct Ino)} (h : l[k]? = some e) (n : Ino) :
    (l.modify k fun e => { e with dIno := n }).map (·.dIno) = (l.map (·.dIno)).set k n := by
  have hlt : k < l.length := (List.getElem?_eq_some_iff.1 h).1
  refine List.ext_getElem? fun j => ?_
  rw [getElem?_map, getElem?_modify, getElem?_set, length_map]
  by_cases hj : k = j
  · subst hj
    simp [hlt]
  · simp [hj]

variable {ip : Inode Ino} {name : String} {i : Ino}

theorem dircheckforname_some (h : dircheckforname ip name = some (k, i)) :
    ∃ e, ip.ents[k]? = some e ∧ e.dName = name ∧ e.dIno = i := by
  obtain ⟨⟨k', e⟩, hr, he⟩ := Option.map_eq_some_iff.1 h
  obtain ⟨rfl, rfl⟩ := Prod.mk.inj he
  obtain ⟨hget, hp⟩ := firstRec_some hr
  exact ⟨e, hget, of_decide_eq_true hp, rfl⟩

theorem mem_held_of_lookup
    (h : dircheckforname ip name = some (k, i)) (hdir : ip.ifdir = true) : i ∈ ip.held := by
  obtain ⟨e, he, -, rfl⟩ := dircheckforname_some h
  rw [Inode.held, if_pos hdir]
  exact mem_map_of_mem (mem_of_getElem? he)

theorem dirempty_of_lookup {io : Bool}
    (h : dircheckforname ip name = some (k, i)) (h1 : name ≠ ".") (h2 : name ≠ "..") :
    dirempty ip io = 0 := by
  obtain ⟨e, he, rfl, -⟩ := dircheckforname_some h
  have hany : (ip.ents.any fun e => e.dName ≠ "." ∧ e.dName ≠ "..") = true :=
    any_eq_true.2 ⟨e, mem_of_getElem? he, decide_eq_true ⟨h1, h2⟩⟩
  rw [dirempty, if_pos hany]
  split_ifs <;> rfl

variable [DecidableEq Ino]

@[simp] theorem Fs.upd_inode (fs : Fs Ino) (i : Ino) (g : Inode Ino → Inode Ino) (j : Ino) :
    (fs.upd i g).inode j = if j = i then g (fs.inode i) else fs.inode j := by
  exact Function.update_apply _ _ _ _

@[simp] theorem Fs.upd_lfn (fs : Fs Ino) (i : Ino) (g : Inode Ino → Inode Ino) :
    (fs.upd i g).lfn = fs.lfn := rfl

@[simp] theorem Fs.link_lfn (fs : Fs Ino) (i : Ino) (z : ℤ) : (fs.link i z).lfn = fs.lfn := rfl

@[simp] theorem Fs.link_nlink (fs : Fs Ino) (i : Ino) (z : ℤ) (j : Ino) :
    ((fs.link i z).inode j).iNlink = (fs.inode j).iNlink + if j = i then z else 0 := by
  rw [Fs.link, Fs.upd_inode]
  split_ifs with h
  · rw [h]
  · exact (add_zero _).symm

theorem Fs.link_keep {α : Type} (f : Inode Ino → α)
    (hf : ∀ (ip : Inode Ino) (z : ℤ), f { ip with iNlink := z } = f ip) (fs : Fs Ino) (i : Ino)
    (z : ℤ) (j : Ino) : f ((fs.link i z).inode j) = f (fs.inode j) := by
  rw [Fs.link, Fs.upd_inode]
  split_ifs with h
  · rw [h]
    exact hf _ _
  · rfl

@[simp] theorem Fs.link_ifdir (fs : Fs Ino) (i : Ino) (z : ℤ) (j : Ino) :
    ((fs.link i z).inode j).ifdir = (fs.inode j).ifdir :=
  Fs.link_keep (·.ifdir) (fun _ _ => rfl) fs i z j

@[simp] theorem Fs.link_iSize (fs : Fs Ino) (i : Ino) (z : ℤ) (j : Ino) :
    ((fs.link i z).inode j).iSize = (fs.inode j).iSize :=
  Fs.link_keep (·.iSize) (fun _ _ => rfl) fs i z j

@[simp] theorem Fs.link_held (fs : Fs Ino) (i : Ino) (z : ℤ) (j : Ino) :
    ((fs.link i z).inode j).held = (fs.inode j).held :=
  Fs.link_keep Inode.held (fun _ _ => rfl) fs i z j

/-! ### What a changed link count leaves alone -/

@[simp] theorem dircheckforname_link (fs : Fs Ino) (i : Ino) (z : ℤ) (j : Ino) (name : String) :
    dircheckforname ((fs.link i z).inode j) name = dircheckforname (fs.inode j) name :=
  Fs.link_keep (dircheckforname · name) (fun _ _ => rfl) fs i z j

@[simp] theorem dirempty_link (fs : Fs Ino) (i : Ino) (z : ℤ) (j : Ino) (io : Bool) :
    dirempty ((fs.link i z).inode j) io = dirempty (fs.inode j) io :=
  Fs.link_keep (dirempty · io) (fun _ _ => rfl) fs i z j

/-- The inode that loses an entry when `dotdot_ino` becomes `n`: none but `n` itself when no live
record starts there. -/
def dotdotLoses (lfn : Bool) (ip : Inode Ino) (n : Ino) : Ino :=
  match dotdotRec lfn ip with
  | some (_, e) => e.dIno
  | none => n

@[simp] theorem dotdotLoses_link (fs : Fs Ino) (i : Ino) (z : ℤ) (j : Ino) (lfn : Bool) (n : Ino) :
    dotdotLoses lfn ((fs.link i z).inode j) n = dotdotLoses lfn (fs.inode j) n :=
  Fs.link_keep (dotdotLoses lfn · n) (fun _ _ => rfl) fs i z j

/-- Of the inode whose link count is raised or lowered, the tests of `dirfixdotdot` read only
whether a count is 0 and whether the new parent's is the greatest. -/
theorem dotdotFix_link (fs : Fs Ino) {i dp npdp : Ino} (z : ℤ) (env : Env Ino) (h1 : dp ≠ i)
    (h2 : npdp ≠ i) : dotdotFix (fs.link i z) dp npdp env = dotdotFix fs dp npdp env := by
  have hd : (fs.link i z).inode dp = fs.inode dp := by
    rw [Fs.link, Fs.upd_inode, if_neg h1]
  rw [dotdotFix, dotdotFix, hd, Fs.link_nlink, if_neg h2, add_zero, Fs.link_lfn]

/-! ### The references of one directory -/

theorem tally_held_setIno (h : ip.ents[k]? = some e) (hdir : ip.ifdir = true) (n : Ino) :
    tally (ip.setIno k n).held = tally ip.held - Pi.single e.dIno 1 + Pi.single n 1 := by
  obtain ⟨hlt, he⟩ := List.getElem?_eq_some_iff.1 h
  rw [Inode.held, Inode.held, Inode.setIno, if_pos hdir, if_pos hdir, map_modify_dIno h,
    tally_set (by rwa [length_map]), getElem_map, he]

theorem tally_held_setDotdot {lfn : Bool} (hdir : ip.ifdir = true) (n : Ino) :
    tally (setDotdot lfn n ip).held
      = tally ip.held - Pi.single (dotdotLoses lfn ip n) 1 + Pi.single n 1 := by
  rw [setDotdot, dotdotLoses]
  cases hr : dotdotRec lfn ip with
  | none =>
    dsimp only
    rw [sub_add_cancel]
    rfl
  | some r => exact tally_held_setIno (firstRec_some hr).1 hdir n

theorem tally_held_dropEnt {lfn : Bool} (h : ip.ents[k]? = some e) (hdir : ip.ifdir = true) :
    tally (ip.dropEnt lfn k).held = tally ip.held - Pi.single e.dIno 1 := by
  obtain ⟨hlt, he⟩ := List.getElem?_eq_some_iff.1 h
  rw [Inode.held, Inode.held, Inode.dropEnt, if_pos hdir, if_pos hdir, ← List.eraseIdx_map,
    tally_eraseIdx (by rwa [length_map]), getElem_map, he]

theorem tally_held_addEnt (s : Slot Ino) (name : String) (sip : Ino) (hdir : ip.ifdir = true) :
    tally (ip.addEnt s name sip).held = tally ip.held + Pi.single sip 1 := by
  have hperm := (perm_insertIdx ⟨s.off, name, sip⟩ ip.ents
    (Nat.min_le_right s.pos ip.ents.length)).map (·.dIno)
  rw [Inode.held, Inode.held, Inode.addEnt, if_pos hdir, if_pos hdir, tally_eq_iff.2 hperm,
    map_cons, tally_cons, add_comm]

theorem held_itrunc (fs : Fs Ino) (i : Ino) : ((itrunc fs i).inode i).held = [] := by
  rw [itrunc, Fs.upd_inode, if_pos rfl, Inode.held]
  split_ifs <;> rfl

variable {fs : Fs Ino}

theorem iput_inode {i j : Ino} (h : j ≠ i) : (iput fs i).inode j = fs.inode j := by
  rw [iput]
  split_ifs
  · rw [Fs.upd_inode, if_neg h, itrunc, Fs.upd_inode, if_neg h]
  · rfl

theorem iput_of_pos (h : 0 < (fs.inode i).iNlink) : iput fs i = fs := by
  rw [iput, if_neg (not_le.2 h)]

/-! ### The excess -/

variable [Fintype Ino]

/-- The number of directory entries that name the inode, `.` and `..` included. -/
def Fs.refs (fs : Fs Ino) (i : Ino) : ℕ := ∑ d, (fs.inode d).held.count i

/-- Each `i_nlink` equals the number of directory entries naming the inode. -/
def Fs.Balanced (fs : Fs Ino) : Prop := ∀ i, (fs.inode i).iNlink = fs.refs i

/-- Links beyond directory entries. -/
def Fs.excess (fs : Fs Ino) : Ino → ℤ :=
  Hpux.excess (fun i => (fs.inode i).iNlink) fun d => (fs.inode d).held

theorem Fs.balanced_iff (fs : Fs Ino) : fs.Balanced ↔ fs.excess = 0 := by
  have hex : ∀ i, fs.excess i = (fs.inode i).iNlink - fs.refs i := by
    intro i
    rw [Fs.refs, Nat.cast_sum]
    rfl
  constructor
  · intro h
    funext i
    rw [hex, h i, sub_self]
    rfl
  · intro h i
    have hi := congrFun h i
    rw [hex] at hi
    exact sub_eq_zero.1 hi

theorem Fs.excess_upd (fs : Fs Ino) (i : Ino) (g : Inode Ino → Inode Ino) :
    (fs.upd i g).excess = fs.excess + Pi.single i ((g (fs.inode i)).iNlink - (fs.inode i).iNlink)
      + tally (fs.inode i).held - tally (g (fs.inode i)).held := by
  have hn : (fun j => ((fs.upd i g).inode j).iNlink)
      = Function.update (fun j => (fs.inode j).iNlink) i (g (fs.inode i)).iNlink := by
    funext j
    rw [Fs.upd_inode, Function.update_apply]
    split_ifs <;> rfl
  have hh : (fun j => ((fs.upd i g).inode j).held)
      = Function.update (fun j => (fs.inode j).held) i (g (fs.inode i)).held := by
    funext j
    rw [Fs.upd_inode, Function.update_apply]
    split_ifs <;> rfl
  rw [Fs.excess, hn, hh, excess_update]
  rfl

theorem Fs.excess_upd_keep (fs : Fs Ino) (i : Ino) {g : Inode Ino → Inode Ino}
    (h1 : (g (fs.inode i)).iNlink = (fs.inode i).iNlink)
    (h2 : (g (fs.inode i)).held = (fs.inode i).held) : (fs.upd i g).excess = fs.excess := by
  rw [Fs.excess_upd, h1, h2, sub_self, Pi.single_zero]
  abel

theorem Fs.excess_upd_held (fs : Fs Ino) (i : Ino) {g : Inode Ino → Inode Ino}
    (h1 : (g (fs.inode i)).iNlink = (fs.inode i).iNlink) :
    (fs.upd i g).excess = fs.excess + tally (fs.inode i).held - tally (g (fs.inode i)).held := by
  rw [Fs.excess_upd, h1, sub_self, Pi.single_zero, add_zero]

@[simp] theorem Fs.excess_link (fs : Fs Ino) (i : Ino) (z : ℤ) :
    (fs.link i z).excess = fs.excess + Pi.single i z := by
  have hh : ({ fs.inode i with iNlink := (fs.inode i).iNlink + z } : Inode Ino).held
      = (fs.inode i).held := rfl
  rw [Fs.link, Fs.excess_upd, hh, add_sub_cancel_left]
  abel

theorem excess_itrunc (fs : Fs Ino) (i : Ino) :
    (itrunc fs i).excess = fs.excess + tally (fs.inode i).held := by
  have hh : ({ fs.inode i with iSize := 0, ents := [] } : Inode Ino).held = [] := by
    rw [Inode.held]
    split_ifs <;> rfl
  rw [itrunc, Fs.excess_upd_held, hh, tally_nil, sub_zero]
  rfl

theorem excess_iput (h : (fs.inode i).iNlink ≤ 0) :
    (iput fs i).excess = fs.excess + tally (fs.inode i).held := by
  have hh : ({ (itrunc fs i).inode i with ifdir := false } : Inode Ino).held = [] := by
    rw [Inode.held, if_neg Bool.false_ne_true]
  rw [iput, if_pos h, Fs.excess_upd_held _ _ rfl, hh, held_itrunc, excess_itrunc]
  abel

theorem tally_held_le (h : fs.excess = 0) (d i : Ino) :
    tally (fs.inode d).held i ≤ (fs.inode i).iNlink :=
  tally_le_of_excess h d i

theorem nlink_nonneg (h : fs.excess = 0) (i : Ino) : 0 ≤ (fs.inode i).iNlink :=
  (tally_nonneg _ i).trans (tally_held_le h i i)

theorem nlink_pos_of_lookup (h : fs.excess = 0) {d i : Ino}
    (hl : dircheckforname (fs.inode d) name = some (k, i)) (hdir : (fs.inode d).ifdir = true) :
    0 < (fs.inode i).iNlink :=
  (tally_pos (mem_held_of_lookup hl hdir)).trans_le (tally_held_le h d i)

end Hpux.DirLink
