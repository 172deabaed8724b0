import Hpux910.Ufs.DirRename
import Mathlib

/-!
# What holds while directories are renamed

* `Locks`, `Marks`, `Tree` : an inode is locked by one process; a mark belongs to one rename; `..`
  leads to the root along directories that exist.
* `Early` : the directories that have been marked no later than the source of a process.  The walk
  heeds these; the ones marked later are moved by processes that heed its source.
* `PlaceAt` : what a process has found out where it is.
* `CanMove.spec` : what a step that changes only locks can do.
* `Inv.next` : one step.
-/

namespace Hpux.DirRename

open List

variable {Pid Ino : Type} {root : Ino}
  {s : St Pid Ino} {p q : Pid} {c : Pc Ino} {i n : Ino}

/-- An inode is locked by at most one process. -/
structure Locks (s : St Pid Ino) : Prop where
  mutex : ∀ p q i, i ∈ s.held p → i ∈ s.held q → p = q
  locked : ∀ p i, i ∈ s.held p → s.ilocked i = true

/-- A mark belongs to one rename, whose source exists. -/
structure Marks (s : St Pid Ino) : Prop where
  flagged : ∀ p, s.Renaming p → s.irename (s.sip p) = true
  marked : ∀ i, s.irename i = true → ∃ p, s.Renaming p ∧ s.sip p = i
  one : ∀ p q, s.Renaming p → s.Renaming q → s.sip p = s.sip q → p = q
  live : ∀ p, s.Renaming p → s.gone (s.sip p) = false
  since_lt : ∀ p, s.Renaming p → s.since p < s.clock

/-- The tree and the entries that go with it. -/
structure Tree (root : Ino) (s : St Pid Ino) : Prop where
  rooted : Rooted s.parent root
  entRoot : ∀ d, s.ent d root = false
  rootLive : s.gone root = false
  parentLive : ∀ c, s.gone c = false → s.gone (s.parent c) = false
  /-- A directory has an entry in its parent, but for one whose `..` is rewritten already. -/
  inDir : ∀ c, s.gone c = false → c ≠ root → s.ent (s.parent c) c = true ∨
    ∃ p, (s.pc p).moved = true ∧ s.sip p = c ∧ s.tdp p = s.parent c
  srcRoot : ∀ p, s.pc p ≠ .idle → s.sip p ≠ root
  srcParent : ∀ p, s.pc p ≠ .idle → s.sdp p ≠ s.tdp p
  srcEnt : ∀ p, s.pc p ≠ .idle → s.gone (s.sip p) = false → s.ent (s.sdp p) (s.sip p) = true

/-- The directories that have been marked no later than the source of `p`. -/
def Early (s : St Pid Ino) (p : Pid) (i : Ino) : Prop :=
  ∃ r, s.Renaming r ∧ s.since r ≤ s.since p ∧ s.sip r = i

/-- The directory that is replaced is another one, and it is gone. -/
def Replaced (s : St Pid Ino) (p : Pid) (tip : Option Ino) : Prop :=
  ∀ i ∈ tip, i ≠ s.sip p ∧ i ≠ s.sdp p ∧ s.gone i = true

/-- The target exists and none of the marked directories is above it. -/
def Checked (s : St Pid Ino) (p : Pid) : Prop :=
  s.gone (s.tdp p) = false ∧ Avoids s.parent (Early s p) (s.tdp p)

/-- What a process has found out where it is. -/
def PlaceAt (root : Ino) (s : St Pid Ino) (p : Pid) : Pc Ino → Prop
  | .walk ip => Passes s.parent (Early s p) (s.tdp p) ip ∧ ¬Early s p ip
  | .iget n => n ≠ s.sip p ∧ Passes s.parent (Early s p) (s.tdp p) n
  | .relock ok => ok = true → Avoids s.parent (Early s p) (s.tdp p)
  | .backSip n => n ≠ s.sip p
  | .renamed n | .relockRen n => n ≠ s.sip p ∧ n ≠ s.tdp p
  | .search => Checked s p
  | .igetTip tip | .haveTip tip => Checked s p ∧ tip ≠ s.tdp p ∧ tip ≠ root
  | .fixSip tip | .fixing tip => Checked s p ∧ Replaced s p tip
  | .fixOpdp tip | .atOpdp tip | .entering tip => Replaced s p tip
  | .selfBack | .selfUndo => False
  | _ => True

/-- The invariant of the renames. -/
structure Inv (root : Ino) (s : St Pid Ino) : Prop where
  locks : Locks s
  marks : Marks s
  tree : Tree root s
  place : ∀ p, PlaceAt root s p (s.pc p)
  waits : Acyclic s.WaitsFor

/-! ### Where a process goes -/

theorem Marks.early_self (h : s.Renaming p) : Early s p (s.sip p) := ⟨p, h, Nat.le_refl _, rfl⟩

theorem Marks.not_early (h : Marks s) (hn : s.irename n = false) : ¬Early s p n := by
  rintro ⟨r, hr, -, rfl⟩
  rw [h.flagged r hr] at hn
  exact Bool.noConfusion hn

theorem Inv.not_early_root (h : Inv root s) : ¬Early s p root := by
  rintro ⟨r, hr, -, hroot⟩
  refine h.tree.srcRoot r ?_ hroot
  intro hidle
  rw [St.Renaming, hidle] at hr
  exact Bool.noConfusion hr

/-- Nobody waits for an inode that he has locked himself. -/
theorem wants_notMem_held (hm : ∀ tip, c = .fixSip tip → s.Renaming p) (hx : s.sdp p ≠ s.tdp p)
    (h : PlaceAt root s p c) (hw : c.wants (s.sip p) (s.sdp p) (s.tdp p) = some i) :
    i ∉ c.held (s.sip p) (s.sdp p) (s.tdp p) := by
  have hta : Checked s p → s.Renaming p → s.sip p ≠ s.tdp p := by
    intro hck hr hat
    refine hck.2 (s.sip p) (Marks.early_self hr) ?_
    rw [hat]
    exact Above.refl _ _
  cases c <;> simp only [Pc.wants, Pc.held, Option.some.injEq, reduceCtorEq] at hw ⊢ <;> subst hw
  case lockSip | lockTdp | iget | relock | relockTmp | selfBack => exact not_mem_nil
  case relockRen n => simpa using fun hn => h.2 hn.symm
  case backSip n => simpa using fun hn => h hn.symm
  case igetTip tip => simpa using h.2.1
  case fixSip tip =>
    simp only [mem_cons, Option.mem_toList, not_or]
    exact ⟨hta h.1 (hm tip rfl), fun hi => (h.2 _ hi).1 rfl⟩
  case fixOpdp tip =>
    simp only [mem_cons, Option.mem_toList, not_or]
    exact ⟨hx, fun hi => (h _ hi).2.1 rfl⟩

variable [DecidableEq Pid] [DecidableEq Ino]

/-- What a step to `c` does with the locks. -/
structure Goes (s : St Pid Ino) (p : Pid) (c : Pc Ino) : Prop where
  busy : s.pc p ≠ .idle
  /-- It locks what is free. -/
  locks : ∀ i ∈ c.held (s.sip p) (s.sdp p) (s.tdp p), i ∈ s.held p ∨ s.ilocked i = false
  /-- It locks nothing when it goes on to wait for an inode. -/
  waits : ∀ i, c.wants (s.sip p) (s.sdp p) (s.tdp p) = some i →
    ∀ j ∈ c.held (s.sip p) (s.sdp p) (s.tdp p), j ∈ s.held p

omit [DecidableEq Pid] in
theorem St.CanMove.goes (h : s.CanMove root p c) :
    Goes s p c ∧ c.marks = (s.pc p).marks ∧ ((s.pc p).moved = true → c.moved = true) := by
  have hheld : s.held p = (s.pc p).held (s.sip p) (s.sdp p) (s.tdp p) := rfl
  unfold St.CanMove at h
  cases hpc : s.pc p <;> simp only [hpc] at h hheld
  all_goals
    refine ⟨⟨by rw [hpc]; simp, ?_, ?_⟩, ?_, ?_⟩
    all_goals grind [Pc.held, Pc.wants, Pc.marks, Pc.moved]

omit [DecidableEq Pid] in
/-- What a process knows after a step that changes only locks. -/
theorem Inv.place_move (h : Inv root s) (hm : s.CanMove root p c) (hc : Cond s (.move p c)) :
    PlaceAt root s p c := by
  have hpl := h.place p
  obtain ⟨hstart, hself, -⟩ := hc
  unfold St.CanMove at hm
  cases hpc : s.pc p <;> simp only [hpc] at hm hpl
  case haveTdp =>
    obtain rfl | ⟨hlive, hne, rfl⟩ := hm
    · trivial
    split
    · rename_i hroot
      refine ⟨hlive, (Passes.refl _ _ _).avoids ?_ ?_⟩
      · rw [hroot]
        exact h.tree.rooted
      · rw [hroot]
        exact h.not_early_root
    · rename_i hroot
      refine ⟨Passes.refl _ _ _, ?_⟩
      rintro ⟨r, hr, hle, hsip⟩
      have := hstart (by rw [if_neg hroot]) hpc r hr hsip
      omega
  case walk ip =>
    obtain rfl | ⟨hlive, hne, rfl⟩ := hm
    · split
      · trivial
      · exact fun h => Bool.noConfusion h
    -- `ip` is not marked, so the marked directories above it are above its parent
    have hup := hpl.1.parent hpl.2
    split_ifs with hroot hip
    · exact ⟨hne, hup⟩
    · subst hip
      rw [not_not.1 hroot] at hup
      exact ⟨hlive, hup.avoids h.tree.rooted h.not_early_root⟩
    · rw [not_not.1 hroot] at hup
      exact fun _ => hup.avoids h.tree.rooted h.not_early_root
  case iget n =>
    obtain ⟨-, rfl⟩ | rfl := hm
    · split
      · rename_i hflag
        rw [if_pos hflag] at hself
        exact ⟨hpl.1, fun hn => hself (by rw [hn])⟩
      · rename_i hflag
        exact ⟨hpl.2, h.marks.not_early (by simpa using hflag)⟩
    · exact fun h => Bool.noConfusion h
  case relock ok =>
    obtain ⟨-, rfl⟩ := hm
    split
    · rename_i hok
      exact ⟨hok.2, hpl hok.1⟩
    · trivial
  case renamed n =>
    subst hm
    rw [if_neg hpl.2]
    exact hpl
  case relockRen n =>
    obtain ⟨-, rfl⟩ := hm
    exact hpl.1
  case search =>
    obtain rfl | rfl | hm := hm
    · trivial
    · exact ⟨hpl, fun _ hi => absurd hi (Option.not_mem_none _)⟩
    · split at hm
      · rename_i tip
        refine ⟨hpl, hm.2, ?_⟩
        rintro rfl
        rw [h.tree.entRoot] at hm
        exact Bool.noConfusion hm.1
      · exact hm.elim
  case igetTip tip =>
    obtain ⟨-, rfl⟩ | rfl := hm
    · exact hpl
    · trivial
  case fixSip tip =>
    obtain ⟨-, rfl⟩ := hm
    exact hpl
  case fixing tip =>
    obtain ⟨-, rfl⟩ | rfl := hm
    · exact hpl.2
    · trivial
  case fixOpdp tip =>
    obtain ⟨-, rfl⟩ := hm
    exact hpl
  case atOpdp tip =>
    subst hm
    exact hpl
  all_goals grind [PlaceAt]

/-! ### Locks and waits -/

variable {s' : St Pid Ino}

/-- A step of `p` as the others see it. -/
structure Shift (s s' : St Pid Ino) (p : Pid) : Prop where
  other : ∀ q, q ≠ p → s'.pc q = s.pc q ∧ s'.sip q = s.sip q ∧ s'.sdp q = s.sdp q ∧
    s'.tdp q = s.tdp q
  locks : ∀ i ∈ s'.held p, (i ∈ s.held p ∨ s.ilocked i = false) ∧ s'.ilocked i = true
  waits : ∀ i, s'.wants p = some i → ∀ j ∈ s'.held p, j ∈ s.held p
  keeps : ∀ i, i ∉ s.held p → s.ilocked i = true → s'.ilocked i = true

omit [DecidableEq Pid] [DecidableEq Ino] in
theorem Shift.held (h : Shift s s' p) (hq : q ≠ p) : s'.held q = s.held q := by
  obtain ⟨h1, h2, h3, h4⟩ := h.other q hq
  rw [St.held, St.held, h1, h2, h3, h4]

omit [DecidableEq Pid] [DecidableEq Ino] in
theorem Shift.wants (h : Shift s s' p) (hq : q ≠ p) : s'.wants q = s.wants q := by
  obtain ⟨h1, h2, h3, h4⟩ := h.other q hq
  rw [St.wants, St.wants, h1, h2, h3, h4]

/-- The step to `c` seen by the others; a state that differs in other fields is the same here. -/
theorem Goes.shift (h : Goes s p c) : Shift s (s.move p c) p := by
  have hheld : (s.move p c).held p = c.held (s.sip p) (s.sdp p) (s.tdp p) := by
    simp only [St.held, St.move, Function.update_self]
  have hwants : (s.move p c).wants p = c.wants (s.sip p) (s.sdp p) (s.tdp p) := by
    simp only [St.wants, St.move, Function.update_self]
  refine ⟨fun q hq => ⟨Function.update_of_ne hq _ _, rfl, rfl, rfl⟩, ?_, ?_, ?_⟩
  · intro i hi
    rw [hheld] at hi
    exact ⟨h.locks i hi, if_pos hi⟩
  · rw [hwants, hheld]
    exact h.waits
  · intro i hi hl
    simp only [St.move]
    split_ifs
    · rfl
    · exact hl

omit [DecidableEq Ino] in
theorem Locks.step (h : Locks s) (hs : Shift s s' p) : Locks s' := by
  have hone : ∀ q i, q ≠ p → i ∈ s'.held q → i ∉ s'.held p := by
    intro q i hq hi hp
    rw [hs.held hq] at hi
    rcases (hs.locks i hp).1 with h1 | h1
    · exact hq (h.mutex q p i hi h1)
    · rw [h.locked q i hi] at h1
      exact Bool.noConfusion h1
  constructor
  · intro q r i hi hi'
    by_cases hq : q = p
    · by_cases hr : r = p
      · rw [hq, hr]
      · rw [hq] at hi
        exact absurd hi (hone r i hr hi')
    · by_cases hr : r = p
      · rw [hr] at hi'
        exact absurd hi' (hone q i hq hi)
      · rw [hs.held hq] at hi
        rw [hs.held hr] at hi'
        exact h.mutex q r i hi hi'
  · intro q i hi
    by_cases hq : q = p
    · rw [hq] at hi
      exact (hs.locks i hi).2
    · rw [hs.held hq] at hi
      exact hs.keeps i (fun hp => hq (h.mutex q p i hi hp)) (h.locked q i hi)

omit [DecidableEq Ino] in
/-- The waits after a step: `p` waits for nobody, or holds nothing, or waits for somebody who is not
kept waiting. -/
theorem acyclic_step (h : Acyclic s.WaitsFor) (hl : Locks s) (hs : Shift s s' p)
    (hself : ∀ i, s'.wants p = some i → i ∉ s'.held p)
    (hc : s'.held p ≠ [] → ∀ i, s'.wants p = some i → s.Moves i) : Acyclic s'.WaitsFor := by
  refine h.of_step (p := p) ?_ ?_
  · rintro a b ha hb ⟨i, h1, h2⟩
    rw [hs.wants ha] at h1
    rw [hs.held hb] at h2
    exact ⟨i, h1, h2⟩
  by_cases hheld : s'.held p = []
  · refine not_cycle_of_source ?_
    rintro q ⟨i, -, h2⟩
    rw [hheld] at h2
    exact not_mem_nil h2
  refine not_cycle_of_next ?_
  rintro q ⟨i, h1, h2⟩ r ⟨j, h3, h4⟩
  have hq : q ≠ p := by
    rintro rfl
    exact hself i h1 h2
  rw [hs.held hq] at h2
  rw [hs.wants hq] at h3
  have hfree := hc hheld i h1 q h2 j h3
  by_cases hr : r = p
  · rw [hr] at h4
    rw [hl.locked p j (hs.waits i h1 j h4)] at hfree
    exact Bool.noConfusion hfree
  · rw [hs.held hr] at h4
    rw [hl.locked r j h4] at hfree
    exact Bool.noConfusion hfree

/-! ### Marks, the tree and what the others know -/

omit [DecidableEq Pid] [DecidableEq Ino]

/-- A step that neither marks nor takes a mark away. -/
theorem Marks.keep (h : Marks s) (hr : ∀ q, (s'.Renaming q ↔ s.Renaming q) ∧
      (s.Renaming q → s'.sip q = s.sip q ∧ s'.since q = s.since q))
    (hflag : s'.irename = s.irename) (hclock : s'.clock = s.clock)
    (hlive : ∀ q, s.Renaming q → s'.gone (s.sip q) = false) : Marks s' where
  flagged q hq := by
    have hq' := (hr q).1.1 hq
    rw [hflag, ((hr q).2 hq').1]
    exact h.flagged q hq'
  marked i hi := by
    rw [hflag] at hi
    obtain ⟨q, hq, hsip⟩ := h.marked i hi
    exact ⟨q, (hr q).1.2 hq, ((hr q).2 hq).1.trans hsip⟩
  one a b ha hb hab := by
    have ha' := (hr a).1.1 ha
    have hb' := (hr b).1.1 hb
    rw [((hr a).2 ha').1, ((hr b).2 hb').1] at hab
    exact h.one a b ha' hb' hab
  live q hq := by
    have hq' := (hr q).1.1 hq
    rw [((hr q).2 hq').1]
    exact hlive q hq'
  since_lt q hq := by
    have hq' := (hr q).1.1 hq
    rw [((hr q).2 hq').2, hclock]
    exact h.since_lt q hq'

theorem Early.keep (hr : ∀ q, (s'.Renaming q ↔ s.Renaming q) ∧
      (s.Renaming q → s'.sip q = s.sip q ∧ s'.since q = s.since q))
    (hq : s.Renaming q) (hi : Early s' q i) : Early s q i := by
  obtain ⟨r, h1, h2, h3⟩ := hi
  have h1' := (hr r).1.1 h1
  rw [((hr r).2 h1').2, ((hr q).2 hq).2] at h2
  rw [((hr r).2 h1').1] at h3
  exact ⟨r, h1', h2, h3⟩

/-- What a process knows stays true in another state. -/
theorem PlaceAt.keep (h : PlaceAt root s q c) (hsip : s'.sip q = s.sip q) (hsdp : s'.sdp q = s.sdp q)
    (htdp : s'.tdp q = s.tdp q) (hgone : ∀ i, s.gone i = true → s'.gone i = true)
    (hlive : s.tdp q ∈ c.held (s.sip q) (s.sdp q) (s.tdp q) → s.gone (s.tdp q) = false →
      s'.gone (s.tdp q) = false) (hE : c.marks = true → ∀ i, Early s' q i → Early s q i)
    (hav : c.marks = true → Avoids s.parent (Early s q) (s.tdp q) →
      Avoids s'.parent (Early s' q) (s.tdp q))
    (hpass : c.marks = true → ∀ n, Passes s.parent (Early s q) (s.tdp q) n →
      Passes s'.parent (Early s' q) (s.tdp q) n) : PlaceAt root s' q c := by
  have hck : c.marks = true → s.tdp q ∈ c.held (s.sip q) (s.sdp q) (s.tdp q) →
      Checked s q → Checked s' q := by
    intro hm ht hck
    rw [Checked, htdp]
    exact ⟨hlive ht hck.1, hav hm hck.2⟩
  have hrep : ∀ tip, Replaced s q tip → Replaced s' q tip := by
    intro tip hrep i hi
    obtain ⟨h1, h2, h3⟩ := hrep i hi
    rw [hsip, hsdp]
    exact ⟨h1, h2, hgone i h3⟩
  cases c
  case walk ip =>
    unfold PlaceAt
    rw [htdp]
    exact ⟨hpass rfl ip h.1, fun hi => h.2 (hE rfl ip hi)⟩
  case iget n =>
    unfold PlaceAt
    rw [htdp, hsip]
    exact ⟨h.1, hpass rfl n h.2⟩
  case relock ok =>
    unfold PlaceAt
    rw [htdp]
    exact fun hok => hav rfl (h hok)
  case renamed n | relockRen n =>
    unfold PlaceAt
    rw [htdp, hsip]
    exact h
  case backSip n =>
    unfold PlaceAt
    rw [hsip]
    exact h
  case search => exact hck rfl (mem_cons_self ..) h
  case igetTip tip | haveTip tip =>
    unfold PlaceAt
    rw [htdp]
    exact ⟨hck rfl (mem_cons_self ..) h.1, h.2⟩
  case fixSip tip => exact ⟨hck rfl (mem_cons_self ..) h.1, hrep tip h.2⟩
  case fixing tip =>
    exact ⟨hck rfl (mem_cons_of_mem _ (mem_cons_self ..)) h.1, hrep tip h.2⟩
  case fixOpdp tip | atOpdp tip | entering tip => exact hrep tip h
  case selfBack | selfUndo => exact h
  all_goals trivial

/-- What a process knows stays true when the hierarchy stays as it is. -/
theorem PlaceAt.same (h : PlaceAt root s q c) (hsip : s'.sip q = s.sip q) (hsdp : s'.sdp q = s.sdp q)
    (htdp : s'.tdp q = s.tdp q) (hpar : s'.parent = s.parent) (hgone : s'.gone = s.gone)
    (hE : c.marks = true → ∀ i, Early s' q i → Early s q i) : PlaceAt root s' q c := by
  refine h.keep hsip hsdp htdp ?_ ?_ hE ?_ ?_
  · rw [hgone]
    exact fun _ h => h
  · rw [hgone]
    exact fun _ h => h
  · rw [hpar]
    exact fun hm h => h.mono (hE hm)
  · rw [hpar]
    exact fun hm n h => h.mono (hE hm)

/-- A step that leaves the hierarchy alone. -/
theorem Tree.keep (h : Tree root s) (hpar : s'.parent = s.parent) (hent : s'.ent = s.ent)
    (hgone : s'.gone = s.gone) (hmoved : ∀ q, (s.pc q).moved = true →
      (s'.pc q).moved = true ∧ s'.sip q = s.sip q ∧ s'.tdp q = s.tdp q)
    (hsrc : ∀ q, s'.pc q ≠ .idle → s'.sip q ≠ root ∧ s'.sdp q ≠ s'.tdp q ∧
      (s.gone (s'.sip q) = false → s.ent (s'.sdp q) (s'.sip q) = true)) : Tree root s' where
  rooted := by
    rw [hpar]
    exact h.rooted
  entRoot := by
    rw [hent]
    exact h.entRoot
  rootLive := by
    rw [hgone]
    exact h.rootLive
  parentLive := by
    rw [hgone, hpar]
    exact h.parentLive
  inDir c hc hroot := by
    rw [hgone] at hc
    rw [hent, hpar]
    refine (h.inDir c hc hroot).imp_right ?_
    rintro ⟨q, h1, h2, h3⟩
    obtain ⟨h4, h5, h6⟩ := hmoved q h1
    exact ⟨q, h4, h5.trans h2, h6.trans h3⟩
  srcRoot q hq := (hsrc q hq).1
  srcParent q hq := (hsrc q hq).2.1
  srcEnt q hq := by
    rw [hgone, hent]
    exact (hsrc q hq).2.2

end Hpux.DirRename
