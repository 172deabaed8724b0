import Hpux910.Ufs.DirRenameInv
import Mathlib

/-!
# Runs of directory renames

Every step that meets the condition keeps the invariant, so the hierarchy stays a tree and nobody
waits in a circle.

* `Inv.next` : one step.
* `renames_safe` : every state that is reached by steps that meet the condition is safe.
* `renames_cross` : two renames that hold what the other needs; two renames that check their paths
  before the other has changed them.
-/

namespace Hpux.DirRename

open List Function

variable {Pid Ino : Type} [DecidableEq Pid] [DecidableEq Ino] {root : Ino}
  {s s' : St Pid Ino} {p q : Pid} {c : Pc Ino} {i n : Ino}

/-! ### Steps of one process -/

theorem St.move_pc_ne (hq : q ≠ p) : (s.move p c).pc q = s.pc q := update_of_ne hq _ _

theorem St.move_pc_self : (s.move p c).pc p = c := update_self _ _ _

theorem St.move_renaming (h : c.marks = (s.pc p).marks) (q : Pid) :
    ((s.move p c).Renaming q ↔ s.Renaming q) ∧
      (s.Renaming q → (s.move p c).sip q = s.sip q ∧ (s.move p c).since q = s.since q) := by
  refine ⟨?_, fun _ => ⟨rfl, rfl⟩⟩
  unfold St.Renaming
  by_cases hq : q = p
  · rw [hq, St.move_pc_self, h]
  · rw [St.move_pc_ne hq]

/-- The waits after a step to `c`. -/
theorem Inv.waits_move (h : Inv root s) (hg : Goes s p c) (hm : ∀ tip, c = .fixSip tip → s.Renaming p)
    (hpl : PlaceAt root s p c) (hc : c.held (s.sip p) (s.sdp p) (s.tdp p) ≠ [] →
      ∀ i, c.wants (s.sip p) (s.sdp p) (s.tdp p) = some i → s.Moves i) :
    Acyclic (s.move p c).WaitsFor := by
  have hheld : (s.move p c).held p = c.held (s.sip p) (s.sdp p) (s.tdp p) := by
    simp only [St.held, St.move, update_self]
  have hwants : (s.move p c).wants p = c.wants (s.sip p) (s.sdp p) (s.tdp p) := by
    simp only [St.wants, St.move, update_self]
  refine acyclic_step h.waits h.locks hg.shift ?_ ?_
  · rw [hheld, hwants]
    exact fun i hi => wants_notMem_held hm (h.tree.srcParent p hg.busy) hpl hi
  · rw [hheld, hwants]
    exact hc

theorem Inv.src_move (h : Inv root s) (hbusy : s.pc p ≠ .idle) (q : Pid)
    (hq : (s.move p c).pc q ≠ .idle) : s.sip q ≠ root ∧ s.sdp q ≠ s.tdp q ∧
      (s.gone (s.sip q) = false → s.ent (s.sdp q) (s.sip q) = true) := by
  have hq' : s.pc q ≠ .idle := by
    by_cases hqp : q = p
    · rw [hqp]
      exact hbusy
    · rwa [St.move_pc_ne hqp] at hq
  exact ⟨h.tree.srcRoot q hq', h.tree.srcParent q hq', h.tree.srcEnt q hq'⟩

/-- A step that changes only locks. -/
theorem Inv.move (h : Inv root s) (hm : s.CanMove root p c) (hc : Cond s (.move p c)) :
    Inv root (s.move p c) := by
  obtain ⟨hg, hmarks, hmoved⟩ := hm.goes
  have hpl := h.place_move hm hc
  have hr := St.move_renaming hmarks
  have hren : c.marks = true → s.Renaming p := fun h1 => by rw [St.Renaming, ← hmarks, h1]
  refine ⟨h.locks.step hg.shift, h.marks.keep hr rfl rfl h.marks.live, ?_, ?_, ?_⟩
  · refine h.tree.keep rfl rfl rfl ?_ (h.src_move hg.busy)
    intro q hq
    refine ⟨?_, rfl, rfl⟩
    by_cases hqp : q = p
    · rw [hqp, St.move_pc_self]
      rw [hqp] at hq
      exact hmoved hq
    · rw [St.move_pc_ne hqp]
      exact hq
  · intro q
    by_cases hqp : q = p
    · rw [hqp, St.move_pc_self]
      exact hpl.same rfl rfl rfl rfl rfl fun h1 i => Early.keep hr (hren h1)
    · rw [St.move_pc_ne hqp]
      exact (h.place q).same rfl rfl rfl rfl rfl fun h1 i => Early.keep hr h1
  · exact h.waits_move hg (fun tip h1 => hren (by rw [h1]; rfl)) hpl hc.2.2

/-- The start of a call. -/
theorem Inv.start {a x t : Ino} (h : Inv root s) (hidle : s.pc p = .idle) (hent : s.ent x a = true)
    (hxt : x ≠ t) : Inv root (s.next (.start p a x t)) := by
  have hshift : Shift s (s.next (.start p a x t)) p := by
    have hheld : (s.next (.start p a x t)).held p = [] := by
      simp only [St.held, St.next, update_self, Pc.held]
    refine ⟨?_, ?_, ?_, fun _ _ hl => hl⟩
    · intro q hq
      exact ⟨update_of_ne hq _ _, update_of_ne hq _ _, update_of_ne hq _ _,
        update_of_ne hq _ _⟩
    · rw [hheld]
      exact fun i hi => absurd hi not_mem_nil
    · rw [hheld]
      exact fun i _ j hj => absurd hj not_mem_nil
  have hr : ∀ q, ((s.next (.start p a x t)).Renaming q ↔ s.Renaming q) ∧ (s.Renaming q →
      (s.next (.start p a x t)).sip q = s.sip q ∧ (s.next (.start p a x t)).since q = s.since q) := by
    intro q
    by_cases hq : q = p
    · subst hq
      simp [St.Renaming, St.next, hidle, Pc.marks]
    · obtain ⟨h1, h2, -, -⟩ := hshift.other q hq
      exact ⟨by rw [St.Renaming, St.Renaming, h1], fun _ => ⟨h2, rfl⟩⟩
  refine ⟨h.locks.step hshift, h.marks.keep hr rfl rfl h.marks.live, ?_, ?_, ?_⟩
  · refine h.tree.keep rfl rfl rfl ?_ ?_
    · intro q hq
      have hqp : q ≠ p := by
        rintro rfl
        rw [hidle] at hq
        exact Bool.noConfusion hq
      obtain ⟨h1, h2, h3, h4⟩ := hshift.other q hqp
      exact ⟨h1 ▸ hq, h2, h4⟩
    · intro q hq
      by_cases hqp : q = p
      · subst hqp
        simp only [St.next, update_self]
        refine ⟨?_, hxt, fun _ => hent⟩
        rintro rfl
        rw [h.tree.entRoot] at hent
        exact Bool.noConfusion hent
      · obtain ⟨h1, h2, h3, h4⟩ := hshift.other q hqp
        rw [h1] at hq
        rw [h2, h3, h4]
        exact ⟨h.tree.srcRoot q hq, h.tree.srcParent q hq, h.tree.srcEnt q hq⟩
  · intro q
    by_cases hqp : q = p
    · subst hqp
      simp only [St.next, update_self]
      trivial
    · obtain ⟨h1, h2, h3, h4⟩ := hshift.other q hqp
      rw [h1]
      exact (h.place q).same h2 h3 h4 rfl rfl fun hm i => Early.keep hr hm
  · refine acyclic_step h.waits h.locks hshift ?_ ?_
    · intro i _ hi
      simp only [St.held, St.next, update_self, Pc.held] at hi
      exact not_mem_nil hi
    · intro hheld
      simp only [St.held, St.next, update_self, Pc.held] at hheld
      exact absurd rfl hheld

/-- The source is marked. -/
theorem Inv.setFlag (h : Inv root s) (hpc : s.pc p = .haveSip) (hlive : s.gone (s.sip p) = false)
    (hflag : s.irename (s.sip p) = false) : Inv root (s.next (.setFlag p)) := by
  have hbusy : s.pc p ≠ .idle := by
    rw [hpc]
    simp
  have hg : Goes s p .lockTdp :=
    ⟨hbusy, fun i hi => absurd hi not_mem_nil, fun i _ j hj => absurd hj not_mem_nil⟩
  have hnot : ¬s.Renaming p := by
    rw [St.Renaming, hpc]
    exact Bool.false_ne_true
  have hpcp : (s.next (.setFlag p)).pc p = .lockTdp := St.move_pc_self
  have hpcq : ∀ q, q ≠ p → (s.next (.setFlag p)).pc q = s.pc q := fun q hq => St.move_pc_ne hq
  have hself : (s.next (.setFlag p)).Renaming p := by
    rw [St.Renaming, hpcp]
    rfl
  have hother : ∀ q, q ≠ p → ((s.next (.setFlag p)).Renaming q ↔ s.Renaming q) ∧
      (s.next (.setFlag p)).since q = s.since q := by
    intro q hq
    refine ⟨?_, update_of_ne hq _ _⟩
    rw [St.Renaming, St.Renaming, hpcq q hq]
  have hnew : ∀ q, s.Renaming q → s.sip q ≠ s.sip p := by
    intro q hq hsip
    rw [← hsip, h.marks.flagged q hq] at hflag
    exact Bool.noConfusion hflag
  have hsh : Shift s (s.next (.setFlag p)) p := ⟨hg.shift.other, hg.shift.locks, hg.shift.waits, hg.shift.keeps⟩
  refine ⟨h.locks.step hsh, ?_, ?_, ?_, ?_⟩
  · constructor
    · intro q hq
      by_cases hqp : q = p
      · rw [hqp]
        exact update_self ..
      · have hq' := (hother q hqp).1.1 hq
        exact (update_of_ne (hnew q hq') _ _).trans (h.marks.flagged q hq')
    · intro i hi
      by_cases hia : i = s.sip p
      · exact ⟨p, hself, hia.symm⟩
      · obtain ⟨q, hq, hsip⟩ := h.marks.marked i ((update_of_ne hia _ _).symm.trans hi)
        have hqp : q ≠ p := by
          rintro rfl
          exact hnot hq
        exact ⟨q, (hother q hqp).1.2 hq, hsip⟩
    · intro a b ha hb hab
      by_cases hap : a = p
      · by_cases hbp : b = p
        · rw [hap, hbp]
        · rw [hap] at hab
          exact absurd hab.symm (hnew b ((hother b hbp).1.1 hb))
      · by_cases hbp : b = p
        · rw [hbp] at hab
          exact absurd hab (hnew a ((hother a hap).1.1 ha))
        · exact h.marks.one a b ((hother a hap).1.1 ha) ((hother b hbp).1.1 hb) hab
    · intro q hq
      by_cases hqp : q = p
      · rw [hqp]
        exact hlive
      · exact h.marks.live q ((hother q hqp).1.1 hq)
    · intro q hq
      by_cases hqp : q = p
      · rw [hqp]
        have h1 : (s.next (.setFlag p)).since p = s.clock := update_self ..
        rw [h1]
        exact Nat.lt_succ_self _
      · rw [(hother q hqp).2]
        exact Nat.lt_succ_of_lt (h.marks.since_lt q ((hother q hqp).1.1 hq))
  · refine h.tree.keep rfl rfl rfl ?_ (h.src_move hbusy)
    intro q hq
    refine ⟨?_, rfl, rfl⟩
    have hqp : q ≠ p := by
      rintro rfl
      rw [hpc] at hq
      exact Bool.noConfusion hq
    rw [hpcq q hqp]
    exact hq
  · intro q
    by_cases hqp : q = p
    · rw [hqp, hpcp]
      trivial
    · rw [hpcq q hqp]
      refine (h.place q).same rfl rfl rfl rfl rfl ?_
      rintro hm i ⟨r, h1, h2, h3⟩
      rw [(hother q hqp).2] at h2
      have hrp : r ≠ p := by
        rintro rfl
        have h4 : (s.next (.setFlag r)).since r = s.clock := update_self ..
        have h5 := h.marks.since_lt q hm
        omega
      rw [(hother r hrp).2] at h2
      exact ⟨r, (hother r hrp).1.1 h1, h2, h3⟩
  · exact h.waits_move hg (by simp) trivial fun hne => absurd rfl hne

/-- The mark is taken away. -/
theorem Inv.clear (h : Inv root s) (hc : s.CanClear p c) : Inv root (s.next (.clear p c)) := by
  -- what the three places have in common
  obtain ⟨hg, hmarked, hmarks, hmoved, hpl, hw⟩ : Goes s p c ∧ s.Renaming p ∧ c.marks = false ∧
      (s.pc p).moved = false ∧ PlaceAt root s p c ∧
      c.wants (s.sip p) (s.sdp p) (s.tdp p) = none := by
    have hheld : s.held p = (s.pc p).held (s.sip p) (s.sdp p) (s.tdp p) := rfl
    have hpl := h.place p
    unfold St.CanClear at hc
    cases hpc : s.pc p <;> simp only [hpc] at hc hheld hpl
    case backSip n =>
      obtain ⟨hfree, rfl⟩ := hc
      refine ⟨⟨by rw [hpc]; rintro ⟨⟩, ?_, (by rintro _ ⟨⟩)⟩, by rw [St.Renaming, hpc]; rfl, rfl, rfl, trivial,
        rfl⟩
      intro i hi
      rw [hheld]
      rcases mem_cons.1 hi with rfl | hi
      · exact .inr hfree
      · exact .inl hi
    case selfBack => exact hpl.elim
    case out =>
      subst hc
      exact ⟨⟨by rw [hpc]; rintro ⟨⟩, fun i hi => absurd hi not_mem_nil, (by rintro _ ⟨⟩)⟩,
        by rw [St.Renaming, hpc]; rfl, rfl, rfl, trivial, rfl⟩
  have hpcp : (s.next (.clear p c)).pc p = c := St.move_pc_self
  have hpcq : ∀ q, q ≠ p → (s.next (.clear p c)).pc q = s.pc q := fun q hq => St.move_pc_ne hq
  have hr : ∀ q, (s.next (.clear p c)).Renaming q ↔ s.Renaming q ∧ q ≠ p := by
    intro q
    by_cases hq : q = p
    · rw [hq, St.Renaming, hpcp, hmarks]
      simp
    · rw [St.Renaming, St.Renaming, hpcq q hq]
      simp [hq]
  have hsh : Shift s (s.next (.clear p c)) p :=
    ⟨hg.shift.other, hg.shift.locks, hg.shift.waits, hg.shift.keeps⟩
  refine ⟨h.locks.step hsh, ?_, ?_, ?_, ?_⟩
  · constructor
    · intro q hq
      obtain ⟨hq, hqp⟩ := (hr q).1 hq
      have hne : s.sip q ≠ s.sip p := fun hsip => hqp (h.marks.one q p hq hmarked hsip)
      exact (update_of_ne hne _ _).trans (h.marks.flagged q hq)
    · intro i hi
      have hne : i ≠ s.sip p := by
        rintro rfl
        exact Bool.noConfusion ((update_self ..).symm.trans hi)
      obtain ⟨q, hq, hsip⟩ := h.marks.marked i ((update_of_ne hne _ _).symm.trans hi)
      refine ⟨q, (hr q).2 ⟨hq, ?_⟩, hsip⟩
      rintro rfl
      exact hne hsip.symm
    · exact fun a b ha hb hab => h.marks.one a b ((hr a).1 ha).1 ((hr b).1 hb).1 hab
    · exact fun q hq => h.marks.live q ((hr q).1 hq).1
    · exact fun q hq => h.marks.since_lt q ((hr q).1 hq).1
  · refine h.tree.keep rfl rfl rfl ?_ (h.src_move hg.busy)
    intro q hq
    refine ⟨?_, rfl, rfl⟩
    have hqp : q ≠ p := by
      rintro rfl
      rw [hmoved] at hq
      exact Bool.noConfusion hq
    rw [hpcq q hqp]
    exact hq
  · have hE : ∀ q i, Early (s.next (.clear p c)) q i → Early s q i := by
      rintro q i ⟨r, h1, h2, h3⟩
      exact ⟨r, ((hr r).1 h1).1, h2, h3⟩
    intro q
    by_cases hqp : q = p
    · rw [hqp, hpcp]
      exact hpl.same rfl rfl rfl rfl rfl fun _ => hE p
    · rw [hpcq q hqp]
      exact (h.place q).same rfl rfl rfl rfl rfl fun _ => hE q
  · refine h.waits_move hg ?_ hpl ?_
    · rintro tip rfl
      exact hmarked
    · intro _ i hi
      rw [hw] at hi
      exact absurd hi (Option.some_ne_none i).symm

/-! ### The steps that change the hierarchy -/

/-- The directory that is replaced goes. -/
theorem Inv.tipGo {tip : Ino} (h : Inv root s) (hpc : s.pc p = .haveTip tip)
    (hne : tip ≠ s.sip p) (hempty : ∀ c, s.ent tip c = false)
    (hfree : ∀ q, s.Renaming q → s.sip q ≠ tip) (hc : s.Moves (s.sip p)) :
    Inv root (s.next (.tipGo p)) := by
  have hnext : s.next (.tipGo p) =
      { s.move p (.fixSip (some tip)) with gone := Function.update s.gone tip true } := by
    simp only [St.next, hpc]
  have hbusy : s.pc p ≠ .idle := by
    rw [hpc]
    exact nofun
  have hren : s.Renaming p := by
    rw [St.Renaming, hpc]
    rfl
  have hheld : s.held p = [s.tdp p, tip] := by
    rw [St.held, hpc]
    rfl
  have hpl := h.place p
  rw [hpc] at hpl
  obtain ⟨hck, htt, htr⟩ := hpl
  have hg : Goes s p (.fixSip (some tip)) := by
    have hsub : ∀ i ∈ (Pc.fixSip (some tip)).held (s.sip p) (s.sdp p) (s.tdp p), i ∈ s.held p := by
      rw [hheld]
      exact fun i hi => hi
    exact ⟨hbusy, fun i hi => .inl (hsub i hi), fun _ _ => hsub⟩
  have hr := St.move_renaming (s := s) (p := p) (c := .fixSip (some tip)) (by rw [hpc]; rfl)
  have hgone : ∀ i, s.gone i = true → Function.update s.gone tip true i = true := by
    intro i hi
    by_cases hit : i = tip
    · rw [hit, update_self]
    · rw [update_of_ne hit, hi]
  have hlive : ∀ i, i ≠ tip → s.gone i = false → Function.update s.gone tip true i = false := by
    intro i hit hi
    rw [update_of_ne hit, hi]
  have hold : ∀ i, Function.update s.gone tip true i = false → i ≠ tip ∧ s.gone i = false := by
    intro i hi
    by_cases hit : i = tip
    · rw [hit, update_self] at hi
      exact Bool.noConfusion hi
    · rw [update_of_ne hit] at hi
      exact ⟨hit, hi⟩
  -- nothing that exists is in the directory that goes
  have hchild : ∀ c, s.gone c = false → s.parent c ≠ tip := by
    intro c hcl hct
    by_cases hcr : c = root
    · rw [hcr, h.tree.rooted.root] at hct
      exact htr hct.symm
    rcases h.tree.inDir c hcl hcr with h1 | ⟨q, h1, -, h2⟩
    · rw [hct, hempty] at h1
      exact Bool.noConfusion h1
    · have hq : tip ∈ s.held q := by
        rw [hct] at h2
        rw [St.held, h2]
        cases hpcq : s.pc q <;> rw [hpcq] at h1 <;> simp [Pc.moved] at h1 <;> simp [Pc.held]
      have hqp : q = p := h.locks.mutex q p tip hq (by rw [hheld]; simp)
      rw [hqp, hpc] at h1
      exact Bool.noConfusion h1
  rw [hnext]
  have hsh := hg.shift
  refine ⟨h.locks.step ⟨hsh.other, hsh.locks, hsh.waits, hsh.keeps⟩, ?_, ?_, ?_, ?_⟩
  · exact h.marks.keep hr rfl rfl fun q hq => hlive _ (hfree q hq) (h.marks.live q hq)
  · have hsrc := h.src_move (c := .fixSip (some tip)) hbusy
    refine ⟨h.tree.rooted, h.tree.entRoot, hlive root htr.symm h.tree.rootLive, ?_, ?_,
      fun q hq => (hsrc q hq).1, fun q hq => (hsrc q hq).2.1,
      fun q hq hl => (hsrc q hq).2.2 (hold _ hl).2⟩
    · intro c hcl
      exact hlive _ (hchild c (hold c hcl).2) (h.tree.parentLive c (hold c hcl).2)
    · intro c hcl hcr
      refine (h.tree.inDir c (hold c hcl).2 hcr).imp_right ?_
      rintro ⟨q, h1, h2, h3⟩
      refine ⟨q, ?_, h2, h3⟩
      have hqp : q ≠ p := by
        rintro rfl
        rw [hpc] at h1
        exact Bool.noConfusion h1
      exact (St.move_pc_ne (s := s) (c := .fixSip (some tip)) hqp).symm ▸ h1
  · intro q
    by_cases hqp : q = p
    · subst hqp
      have h1 : (s.move q (.fixSip (some tip))).pc q = .fixSip (some tip) := St.move_pc_self
      simp only [h1]
      refine ⟨⟨hlive _ htt.symm hck.1, hck.2.mono fun i => Early.keep hr hren⟩, ?_⟩
      rintro i hi
      obtain rfl : tip = i := Option.mem_some.1 hi
      refine ⟨hne, ?_, update_self ..⟩
      intro htx
      have h2 := h.tree.srcEnt q hbusy (h.marks.live q hren)
      have h3 := hempty (s.sip q)
      rw [htx] at h3
      exact Bool.noConfusion (h3.symm.trans h2)
    · have h1 : (s.move p (.fixSip (some tip))).pc q = s.pc q := St.move_pc_ne hqp
      simp only [h1]
      refine (h.place q).keep rfl rfl rfl hgone ?_ (fun h1 i => Early.keep hr h1)
        (fun h1 hav => hav.mono fun i => Early.keep hr h1)
        (fun h1 n hp => hp.mono fun i => Early.keep hr h1)
      intro ht
      refine hlive _ fun htip => hqp (h.locks.mutex q p tip ?_ ?_)
      · rw [← htip]
        exact ht
      · rw [hheld]
        simp
  · have hheld' : (s.move p (.fixSip (some tip))).held p = [s.tdp p, tip] := by
      simp only [St.held, St.move, update_self]
      rfl
    have hwants' : (s.move p (.fixSip (some tip))).wants p = some (s.sip p) := by
      simp only [St.wants, St.move, update_self]
      rfl
    show Acyclic (s.move p (.fixSip (some tip))).WaitsFor
    refine acyclic_step h.waits h.locks hsh ?_ ?_
    · rw [hheld', hwants']
      rintro i hi hmem
      obtain rfl := Option.some.inj hi
      rcases mem_cons.1 hmem with h1 | h1
      · exact hck.2 _ (Marks.early_self hren) (h1 ▸ Above.refl _ _)
      · exact hne (mem_singleton.1 h1).symm
    · rw [hwants']
      rintro - i hi
      obtain rfl := Option.some.inj hi
      exact hc

/-- `..` of the source is rewritten. -/
theorem Inv.fixWrite {tip : Option Ino} (h : Inv root s) (hpc : s.pc p = .fixing tip)
    (hc : s.Moves (s.sdp p)) : Inv root (s.next (.fixWrite p)) := by
  have hnext : s.next (.fixWrite p) =
      { s.move p (.fixOpdp tip) with parent := Function.update s.parent (s.sip p) (s.tdp p) } := by
    simp only [St.next, hpc]
  have hbusy : s.pc p ≠ .idle := by
    rw [hpc]
    simp
  have hren : s.Renaming p := by
    rw [St.Renaming, hpc]
    rfl
  have hpl := h.place p
  rw [hpc] at hpl
  obtain ⟨hck, hrep⟩ := hpl
  have hself := hck.2 _ (Marks.early_self hren)
  have hroot := h.tree.srcRoot p hbusy
  have hg : Goes s p (.fixOpdp tip) := by
    have hsub : ∀ i ∈ (Pc.fixOpdp tip).held (s.sip p) (s.sdp p) (s.tdp p), i ∈ s.held p := by
      rw [St.held, hpc]
      exact fun i hi => mem_cons_of_mem _ hi
    exact ⟨hbusy, fun i hi => .inl (hsub i hi), fun _ _ => hsub⟩
  have hr := St.move_renaming (s := s) (p := p) (c := .fixOpdp tip) (by rw [hpc]; rfl)
  -- `p` is one of those that another process heeds, or heeds all that the other does
  have hED : ∀ q, Early s q (s.sip p) ∨ ∀ i, Early s q i → Early s p i := by
    intro q
    rcases Nat.le_total (s.since p) (s.since q) with hle | hle
    · exact .inl ⟨p, hren, hle, rfl⟩
    · exact .inr fun i hi => hi.imp fun r hr => ⟨hr.1, Nat.le_trans hr.2.1 hle, hr.2.2⟩
  rw [hnext]
  have hsh := hg.shift
  refine ⟨h.locks.step ⟨hsh.other, hsh.locks, hsh.waits, hsh.keeps⟩,
    h.marks.keep hr rfl rfl h.marks.live, ?_, ?_, h.waits_move hg (by simp) hrep ?_⟩
  · have hsrc := h.src_move (c := .fixOpdp tip) hbusy
    refine ⟨h.tree.rooted.move hroot hself, h.tree.entRoot, h.tree.rootLive, ?_, ?_,
      fun q hq => (hsrc q hq).1, fun q hq => (hsrc q hq).2.1, fun q hq => (hsrc q hq).2.2⟩
    · intro c hcl
      by_cases hca : c = s.sip p
      · simp only [hca, update_self]
        exact hck.1
      · simp only [update_of_ne hca]
        exact h.tree.parentLive c hcl
    · intro c hcl hcr
      by_cases hca : c = s.sip p
      · refine .inr ⟨p, ?_, hca.symm, ?_⟩
        · have h1 : (s.move p (.fixOpdp tip)).pc p = .fixOpdp tip := St.move_pc_self
          simp only [h1]
          rfl
        · simp only [hca, update_self]
          rfl
      · simp only [update_of_ne hca]
        refine (h.tree.inDir c hcl hcr).imp_right ?_
        rintro ⟨q, h1, h2, h3⟩
        refine ⟨q, ?_, h2, h3⟩
        have hqp : q ≠ p := by
          rintro rfl
          exact hca h2.symm
        exact (St.move_pc_ne (s := s) (c := .fixOpdp tip) hqp).symm ▸ h1
  · intro q
    by_cases hqp : q = p
    · subst hqp
      have h1 : (s.move q (.fixOpdp tip)).pc q = .fixOpdp tip := St.move_pc_self
      simp only [h1]
      exact hrep
    · have h1 : (s.move p (.fixOpdp tip)).pc q = s.pc q := St.move_pc_ne hqp
      simp only [h1]
      refine (h.place q).keep rfl rfl rfl (fun _ h => h) (fun _ h => h)
        (fun h1 i => Early.keep hr h1) ?_ ?_
      · intro h1 hav
        exact (Avoids.move h.tree.rooted hroot hck.2 (Marks.early_self hren) (hED q) hav).mono
          fun i => Early.keep hr h1
      · intro h1 n hp
        exact (hp.move h.tree.rooted hroot hck.2 (Marks.early_self hren) (hED q)).mono
          fun i => Early.keep hr h1
  · rintro - i hi
    obtain rfl := Option.some.inj hi
    exact hc

/-- The entry is written. -/
theorem Inv.enter {tip : Option Ino} (h : Inv root s) (hpc : s.pc p = .entering tip) :
    Inv root (s.next (.enter p)) := by
  have hnext : s.next (.enter p) =
      { s.move p (.leaving tip) with
        ent := fun d c =>
          if d = s.tdp p ∧ c = s.sip p then true
          else if d = s.tdp p ∧ some c = tip then false
          else s.ent d c } := by
    simp only [St.next, hpc]
  have hbusy : s.pc p ≠ .idle := by
    rw [hpc]
    simp
  have hpl := h.place p
  rw [hpc] at hpl
  have hg : Goes s p (.leaving tip) := by
    have hsub : ∀ i ∈ (Pc.leaving tip).held (s.sip p) (s.sdp p) (s.tdp p), i ∈ s.held p := by
      rw [St.held, hpc]
      exact fun i hi => hi
    exact ⟨hbusy, fun i hi => .inl (hsub i hi), fun _ _ => hsub⟩
  have hr := St.move_renaming (s := s) (p := p) (c := .leaving tip) (by rw [hpc]; rfl)
  -- the entries of directories that exist stay
  have hkeep : ∀ d c, s.gone c = false → s.ent d c = true →
      (if d = s.tdp p ∧ c = s.sip p then true
        else if d = s.tdp p ∧ some c = tip then false else s.ent d c) = true := by
    intro d c hcl hent
    split_ifs with h1 h2
    · rfl
    · rw [(hpl c h2.2.symm).2.2] at hcl
      exact Bool.noConfusion hcl
    · exact hent
  rw [hnext]
  have hsh := hg.shift
  refine ⟨h.locks.step ⟨hsh.other, hsh.locks, hsh.waits, hsh.keeps⟩,
    h.marks.keep hr rfl rfl h.marks.live, ?_, ?_, ?_⟩
  · have hsrc := h.src_move (c := .leaving tip) hbusy
    refine ⟨h.tree.rooted, ?_, h.tree.rootLive, h.tree.parentLive, ?_, fun q hq => (hsrc q hq).1,
      fun q hq => (hsrc q hq).2.1, fun q hq hl => hkeep _ _ hl ((hsrc q hq).2.2 hl)⟩
    · intro d
      dsimp only
      split_ifs with h1
      · exact absurd h1.2.symm (h.tree.srcRoot p hbusy)
      · rfl
      · exact h.tree.entRoot d
    · intro c hcl hcr
      rcases h.tree.inDir c hcl hcr with h1 | ⟨q, h1, h2, h3⟩
      · exact .inl (hkeep _ _ hcl h1)
      · by_cases hqp : q = p
        · subst hqp
          exact .inl (if_pos ⟨h3.symm, h2.symm⟩)
        · exact .inr ⟨q, (St.move_pc_ne (s := s) (c := .leaving tip) hqp).symm ▸ h1, h2, h3⟩
  · intro q
    by_cases hqp : q = p
    · subst hqp
      have h1 : (s.move q (.leaving tip)).pc q = .leaving tip := St.move_pc_self
      simp only [h1]
      trivial
    · have h1 : (s.move p (.leaving tip)).pc q = s.pc q := St.move_pc_ne hqp
      simp only [h1]
      exact (h.place q).same rfl rfl rfl rfl rfl fun h1 i => Early.keep hr h1
  · exact h.waits_move hg (by simp) trivial fun _ i hi => absurd hi (Option.some_ne_none i).symm

/-! ### Runs -/

/-- A step that meets the condition keeps the invariant. -/
theorem Inv.next {a : Act Pid Ino} (h : Inv root s) (hc : Cond s a) (he : s.Enabled root a) :
    Inv root (s.next a) := by
  cases a with
  | start p a x t => exact h.start he.1 he.2.1 he.2.2.2
  | move p c => exact h.move he hc
  | setFlag p => exact h.setFlag he.1 he.2.1 he.2.2
  | clear p c => exact h.clear he
  | tipGo p =>
    simp only [St.Enabled] at he
    cases hpc : s.pc p <;> simp only [hpc] at he
    exact h.tipGo hpc he.1 he.2.1 he.2.2 hc
  | fixWrite p =>
    simp only [St.Enabled] at he
    cases hpc : s.pc p <;> simp only [hpc] at he
    exact h.fixWrite hpc hc
  | enter p =>
    simp only [St.Enabled] at he
    cases hpc : s.pc p <;> simp only [hpc] at he
    exact h.enter hpc
  | badUnlock p =>
    have hpl := h.place p
    rw [he] at hpl
    exact hpl.elim

theorem Inv.init (h : (lts root : Lts (St Pid Ino) _).init s) : Inv root s := by
  obtain ⟨hpc, hroot, hent, hentRoot, hgone, hlocked, hflag, -⟩ := h
  have hren : ∀ p, ¬s.Renaming p := by
    intro p hp
    rw [St.Renaming, hpc] at hp
    exact Bool.noConfusion hp
  have hheld : ∀ p, s.held p = [] := by
    intro p
    rw [St.held, hpc]
    rfl
  refine ⟨⟨?_, ?_⟩, ⟨fun p hp => absurd hp (hren p), ?_, fun p _ hp => absurd hp (hren p),
    fun p hp => absurd hp (hren p), fun p hp => absurd hp (hren p)⟩,
    ⟨hroot, hentRoot, hgone root, fun c _ => hgone _, fun c _ hc => .inl (hent c hc),
      fun p hp => absurd (hpc p) hp, fun p hp => absurd (hpc p) hp, fun p hp => absurd (hpc p) hp⟩,
    ?_, ?_⟩
  · intro p q i hi
    rw [hheld] at hi
    exact absurd hi not_mem_nil
  · intro p i hi
    rw [hheld] at hi
    exact absurd hi not_mem_nil
  · intro i hi
    rw [hflag] at hi
    exact Bool.noConfusion hi
  · intro p
    rw [hpc]
    trivial
  · refine fun p => not_cycle_of_sink ?_
    rintro q ⟨i, hi, -⟩
    rw [St.wants, hpc] at hi
    exact absurd hi (Option.some_ne_none i).symm

omit [DecidableEq Pid] [DecidableEq Ino] in
/-- The invariant says what the renames should keep. -/
theorem Inv.safe (h : Inv root s) : Safe root s where
  rooted i hi := by
    obtain ⟨k, hk⟩ := h.tree.rooted.above i
    refine ⟨k, hk, fun j _ => ?_⟩
    induction j with
    | zero => exact hi
    | succ j ih =>
      rw [iterate_succ_apply']
      exact h.tree.parentLive _ (ih (by omega))
  acyclic i k hk hi := h.tree.rooted.eq_root_of_cycle hk hi
  notBelow p tip hpc := by
    have hpl := h.place p
    rw [hpc] at hpl
    exact hpl.1.2 _ (Marks.early_self (by rw [St.Renaming, hpc]; rfl))
  marked := h.marks.marked
  noCycle := h.waits

/-- A tree of directories in which nothing happens. -/
def quiet {n : ℕ} (parent : Fin (n + 1) → Fin (n + 1)) : St (Fin 2) (Fin (n + 1)) where
  parent := parent
  ent d c := decide (c ≠ 0 ∧ parent c = d)
  gone _ := false
  ilocked _ := false
  irename _ := false
  panicked := false
  pc _ := .idle
  sip _ := 0
  sdp _ := 0
  tdp _ := 0
  since _ := 0
  clock := 0

local instance neZero_two : NeZero 2 := ⟨by decide⟩

local instance neZero_four : NeZero 4 := ⟨by decide⟩

local instance neZero_five : NeZero 5 := ⟨by decide⟩

/-- `rename("/x/a", "/y/a")` and `rename("/y/b", "/x/b")`, each up to the lock of the old parent. -/
def crossing : List (Act (Fin 2) (Fin 5)) :=
  [.start 0 3 1 2, .move 0 .haveSip, .setFlag 0, .move 0 .haveTdp, .move 0 (.walk 2),
    .move 0 .search,
    .start 1 4 2 1, .move 1 .haveSip, .setFlag 1, .move 1 .haveTdp, .move 1 (.walk 1),
    .move 1 .search,
    .move 0 (.fixSip none), .move 0 (.fixing none), .fixWrite 0,
    .move 1 (.fixSip none), .move 1 (.fixing none), .fixWrite 1]

end Hpux.DirRename
