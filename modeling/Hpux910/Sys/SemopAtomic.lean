import Hpux910.Sys.SysVSem

/-!
# A `semop` that stops changes nothing

`semop` does its operations in place and takes them back, last first, when one of them cannot be
done.  Every operation that was done left the undo table in a state from which `semaoe` with the
opposite value leads back: an entry that it removed made room, and an entry that it created is
removed again.  So the rollback cannot fail.

* `Kernel.Ok` : the undo table is well formed and the values are 16-bit numbers.
* `semopOne_ends`, `semopOne_done`, `semopOne_stop` : one operation.
* `Applied` : the states that a row of operations leads to.
* `semundo_applied` : the rollback leads back.
* `semop_all_or_nothing` : the main theorem.
-/

namespace Hpux

namespace SysV

/-- The undo table is well formed and `semval` is an `unsigned short`. -/
structure Kernel.Ok (I : Seminfo) (k : Kernel) : Prop where
  undo : k.undo.Ok I
  semval : ∀ x, (k.sem x).semval < 65536

/-- What a process does in `semop`, without the flag that it was woken. -/
def SemProc.call : SemProc → Option (Chan × SemopCall)
  | .running => none
  | .asleep c call _ => some (c, call)

/-- The adjustment that an operation makes. -/
def Sembuf.undoVal (op : Sembuf) : ℤ := if op.semUndo then op.semOp else 0

namespace Kernel

variable (k : Kernel) (x y p : ℕ) (d : ℤ)

@[simp] theorem setSem_sem (s : Sem) : (k.setSem x s).sem = Function.update k.sem x s := rfl
@[simp] theorem setSem_undo (s : Sem) : (k.setSem x s).undo = k.undo := rfl
@[simp] theorem setSem_sema (s : Sem) : (k.setSem x s).sema = k.sema := rfl
@[simp] theorem setSem_semmap (s : Sem) : (k.setSem x s).semmap = k.semmap := rfl
@[simp] theorem setSem_procs (s : Sem) : (k.setSem x s).procs = k.procs := rfl
@[simp] theorem wakeup_sem (c : Chan) : (k.wakeup c).sem = k.sem := rfl
@[simp] theorem wakeup_undo (c : Chan) : (k.wakeup c).undo = k.undo := rfl
@[simp] theorem wakeup_sema (c : Chan) : (k.wakeup c).sema = k.sema := rfl
@[simp] theorem wakeup_semmap (c : Chan) : (k.wakeup c).semmap = k.semmap := rfl

@[simp] theorem wakeup_call (c : Chan) : ((k.wakeup c).procs p).call = (k.procs p).call := by
  show ((k.procs p).wake c).call = _
  cases k.procs p <;> rfl

/-- `k'` has the sets, the map and the sleeping calls of `k`. -/
structure Keeps (k k' : Kernel) : Prop where
  sema : k'.sema = k.sema
  semmap : k'.semmap = k.semmap
  call : ∀ p, (k'.procs p).call = (k.procs p).call

/-- `k'` differs from `k` in the semaphores and in who was woken only. -/
structure Touch (k k' : Kernel) : Prop extends Keeps k k' where
  undo : k'.undo = k.undo

theorem Keeps.refl : k.Keeps k := ⟨rfl, rfl, fun _ => rfl⟩

theorem Touch.refl : k.Touch k := ⟨.refl k, rfl⟩

variable {k} in
theorem Keeps.trans {k' k'' : Kernel} (h : k.Keeps k') (h' : k'.Keeps k'') : k.Keeps k'' :=
  ⟨h'.sema.trans h.sema, h'.semmap.trans h.semmap, fun p => (h'.call p).trans (h.call p)⟩

variable {k} in
theorem Touch.trans {k' k'' : Kernel} (h : k.Touch k') (h' : k'.Touch k'') : k.Touch k'' :=
  ⟨h.toKeeps.trans h'.toKeeps, h'.undo.trans h.undo⟩

theorem touch_setSem (s : Sem) : k.Touch (k.setSem x s) := ⟨⟨rfl, rfl, fun _ => rfl⟩, rfl⟩

theorem touch_wakeup (c : Chan) : k.Touch (k.wakeup c) := ⟨⟨rfl, rfl, fun _ => by simp⟩, rfl⟩

theorem touch_addVal : k.Touch (k.addVal x d) := k.touch_setSem x _

theorem touch_wakeN : k.Touch (k.wakeN x) := by
  unfold wakeN
  split_ifs
  · exact (k.touch_setSem x _).trans (touch_wakeup _ _)
  · exact .refl k

theorem touch_wakeZ : k.Touch (k.wakeZ x) := by
  unfold wakeZ
  split_ifs
  · exact (k.touch_setSem x _).trans (touch_wakeup _ _)
  · exact .refl k

@[simp] theorem wakeN_semval : ((k.wakeN x).sem y).semval = (k.sem y).semval := by
  unfold wakeN
  split_ifs
  · by_cases hy : y = x
    · subst hy; simp
    · simp [hy]
  · rfl

@[simp] theorem wakeZ_semval : ((k.wakeZ x).sem y).semval = (k.sem y).semval := by
  unfold wakeZ
  split_ifs
  · by_cases hy : y = x
    · subst hy; simp
    · simp [hy]
  · rfl

theorem addVal_semval : ((k.addVal x d).sem y).semval =
    if y = x then ushort ((k.sem x).semval + d) else (k.sem y).semval := by
  unfold addVal
  by_cases hy : y = x
  · subst hy; simp
  · simp [hy]

end Kernel

/-! ### One operation -/

section

variable {I : Seminfo} {k : Kernel} {u : User} {semid : ℤ} {sp : ℕ} {op : Sembuf}

/-- What an operation that was done did: its part of the undo table, and the value. -/
structure OpDone (I : Seminfo) (u : User) (semid : ℤ) (sp : ℕ) (op : Sembuf) (k k' : Kernel) :
    Prop extends k.Keeps k' where
  undo : Semaoe I u.proc op.undoVal semid (short op.semNum) k.undo (k'.undo, none)
  semval : ∀ x, (k'.sem x).semval =
    if x = (k.sema sp).semBase + op.semNum then ushort ((k.sem x).semval + op.semOp)
    else (k.sem x).semval
  /-- The new value is a semaphore value. -/
  range : ∀ x, x = (k.sema sp).semBase + op.semNum → 0 ≤ (k.sem x).semval + op.semOp ∧
    ((k.sem x).semval ≤ I.semvmx → (k.sem x).semval + op.semOp ≤ I.semvmx)

variable {k' : Kernel}

/-- Assemble `OpDone` for an operation that adds to the value. -/
theorem OpDone.of_add {t : UndoTab}
    (hundo : Semaoe I u.proc op.undoVal semid (short op.semNum) k.undo (t, none))
    (htouch : Kernel.Touch (({ k with undo := t } : Kernel).addVal
      ((k.sema sp).semBase + op.semNum) op.semOp) k')
    (hval : ∀ x, (k'.sem x).semval = ((({ k with undo := t } : Kernel).addVal
      ((k.sema sp).semBase + op.semNum) op.semOp).sem x).semval)
    (hrange : ∀ x, x = (k.sema sp).semBase + op.semNum → 0 ≤ (k.sem x).semval + op.semOp ∧
      ((k.sem x).semval ≤ I.semvmx → (k.sem x).semval + op.semOp ≤ I.semvmx)) :
    OpDone I u semid sp op k k' := by
  have hall := (Kernel.touch_addVal { k with undo := t } ((k.sema sp).semBase + op.semNum)
    op.semOp).trans htouch
  refine ⟨⟨hall.sema, hall.semmap, hall.call⟩, hall.undo ▸ hundo, fun x => ?_, hrange⟩
  rw [hval, Kernel.addVal_semval]
  split_ifs with hx
  · rw [hx]
  · rfl

theorem semaoe_undoVal (hk : k.undo.Ok I) {t : UndoTab} {e : Option Errno}
    (h : (if op.semUndo then semaoe I u.proc op.semOp semid (short op.semNum) k.undo
      else (k.undo, none)) = (t, e)) :
    Semaoe I u.proc op.undoVal semid (short op.semNum) k.undo (t, e) := by
  have hcases := semaoe_cases hk u.proc op.semOp semid (short op.semNum)
  unfold Sembuf.undoVal
  split_ifs at h ⊢
  · rwa [h] at hcases
  · cases h
    exact .zero rfl

/-- The ways in which an operation ends. -/
inductive OpEnds (I : Seminfo) (k : Kernel) (u : User) (semid : ℤ) (sp : ℕ) (op : Sembuf) (x : ℕ) :
    Kernel × Pass → Prop
  | add {t : UndoTab} (hpos : 0 < op.semOp) (hle : op.semOp + (k.sem x).semval ≤ I.semvmx)
      (ht : (if op.semUndo then semaoe I u.proc op.semOp semid (short op.semNum) k.undo
        else (k.undo, none)) = (t, none)) :
      OpEnds I k u semid sp op x ((({ k with undo := t } : Kernel).addVal x op.semOp).wakeN x, .done)
  | sub {t : UndoTab} (hneg : op.semOp < 0) (hge : -op.semOp ≤ (k.sem x).semval)
      (ht : (if op.semUndo then semaoe I u.proc op.semOp semid (short op.semNum) k.undo
        else (k.undo, none)) = (t, none)) :
      OpEnds I k u semid sp op x
        (if ((({ k with undo := t } : Kernel).addVal x op.semOp).sem x).semval = 0 then
          (({ k with undo := t } : Kernel).addVal x op.semOp).wakeZ x
          else ({ k with undo := t } : Kernel).addVal x op.semOp, .done)
  | zero (hzero : op.semOp = 0) (hval : (k.sem x).semval = 0) : OpEnds I k u semid sp op x (k, .done)
  | full {t : UndoTab} {e : Errno}
      (ht : (if op.semUndo then semaoe I u.proc op.semOp semid (short op.semNum) k.undo
        else (k.undo, none)) = (t, some e)) :
      OpEnds I k u semid sp op x ({ k with undo := t }, .fail e)
  | refused (e : Errno) : OpEnds I k u semid sp op x (k, .fail e)
  | ncnt (hneg : op.semOp < 0) (hlt : (k.sem x).semval < -op.semOp) :
      OpEnds I k u semid sp op x (k, .sleep (.ncnt x))
  | zcnt (hzero : op.semOp = 0) (hne : (k.sem x).semval ≠ 0) :
      OpEnds I k u semid sp op x (k, .sleep (.zcnt x))

theorem semopOne_ends (I : Seminfo) (k : Kernel) (u : User) (semid : ℤ) (sp : ℕ) (op : Sembuf) :
    OpEnds I k u semid sp op ((k.sema sp).semBase + op.semNum) (semopOne I k u semid sp op) := by
  unfold semopOne
  simp only
  by_cases hpos : op.semOp > 0
  · rw [if_pos hpos]
    by_cases hbig : op.semOp + (k.sem ((k.sema sp).semBase + op.semNum)).semval > I.semvmx
    · rw [if_pos hbig]
      exact .refused _
    · rw [if_neg hbig]
      cases hr : (if op.semUndo then semaoe I u.proc op.semOp semid (short op.semNum) k.undo
        else (k.undo, none)) with
      | mk t e =>
        cases e with
        | some e => exact .full hr
        | none => exact .add hpos (not_lt.1 hbig) hr
  rw [if_neg hpos]
  by_cases hneg : op.semOp < 0
  · rw [if_pos hneg]
    by_cases hge : ((k.sem ((k.sema sp).semBase + op.semNum)).semval : ℤ) ≥ -op.semOp
    · rw [if_pos hge]
      cases hr : (if op.semUndo then semaoe I u.proc op.semOp semid (short op.semNum) k.undo
        else (k.undo, none)) with
      | mk t e =>
        cases e with
        | some e => exact .full hr
        | none => exact .sub hneg hge hr
    · rw [if_neg hge]
      split_ifs
      · exact .refused _
      · exact .ncnt hneg (not_le.1 hge)
  · have hzero : op.semOp = 0 := by omega
    rw [if_neg hneg]
    split_ifs with hval
    · exact .refused _
    · exact .zcnt hzero hval
    · exact .zero hzero (not_not.1 hval)

theorem semopOne_done (hk : k.undo.Ok I) (h : semopOne I k u semid sp op = (k', .done)) :
    OpDone I u semid sp op k k' := by
  have hends := semopOne_ends I k u semid sp op
  rw [h] at hends
  cases hends with
  | add hpos hle ht =>
    refine .of_add (semaoe_undoVal hk ht) (Kernel.touch_wakeN _ _) (by simp) ?_
    rintro x rfl
    omega
  | sub hneg hge ht =>
    refine .of_add (semaoe_undoVal hk ht) ?_ ?_ ?_
    · split_ifs
      · exact Kernel.touch_wakeZ _ _
      · exact .refl _
    · intro x
      split_ifs
      · simp
      · rfl
    · rintro x rfl
      omega
  | zero hzero hval =>
    refine ⟨.refl k, .zero ?_, fun x => ?_, ?_⟩
    · simp [Sembuf.undoVal, hzero]
    · split_ifs with hx
      · subst hx
        simp [hzero, hval, ushort]
      · rfl
    · rintro x rfl
      omega

/-- What an operation that cannot be done leaves behind: at most a structure for the process. -/
structure OpStop (I : Seminfo) (u : User) (k k' : Kernel) : Prop extends k.Keeps k' where
  sem : k'.sem = k.sem
  ok : k'.undo.Ok I
  semu : k'.undo.semu = k.undo.semu
  owns : UndoTab.Owns u.proc k.undo k'.undo

theorem OpStop.refl (hk : k.undo.Ok I) : OpStop I u k k := ⟨.refl k, rfl, hk, rfl, .refl _ _⟩

theorem OpStop.of_fail {t : UndoTab} {e : Errno}
    (h : Semaoe I u.proc op.undoVal semid (short op.semNum) k.undo (t, some e)) :
    OpStop I u k { k with undo := t } := by
  cases h with
  | fail _ hok hown _ hsemu => exact ⟨⟨rfl, rfl, fun _ => rfl⟩, rfl, hok, hsemu, hown⟩

theorem semopOne_stop (hk : k.undo.Ok I) {r : Pass} (hr : r ≠ .done)
    (h : semopOne I k u semid sp op = (k', r)) : OpStop I u k k' := by
  have hends := semopOne_ends I k u semid sp op
  rw [h] at hends
  cases hends with
  | add | sub | zero => exact absurd rfl hr
  | full ht => exact .of_fail (semaoe_undoVal hk ht)
  | refused | ncnt | zcnt => exact .refl hk

/-! ### The rollback -/

variable (I u semid sp) in
/-- `Applied k₀ dn k` : the operations `dn`, last first, lead from `k₀` to `k`. -/
inductive Applied (k₀ : Kernel) : List Sembuf → Kernel → Prop
  | nil : Applied k₀ [] k₀
  | cons {dn : List Sembuf} {k k' : Kernel} {op : Sembuf} (h : Applied k₀ dn k)
      (hop : semopOne I k u semid sp op = (k', .done)) : Applied k₀ (op :: dn) k'

theorem OpDone.ok (hk : k.Ok I) (h : OpDone I u semid sp op k k') :
    k'.Ok I ∧ UndoTab.Owns u.proc k.undo k'.undo := by
  have hval : ∀ x, (k'.sem x).semval < 65536 := fun x => by
    rw [h.semval]
    split_ifs
    · exact ushort_lt _
    · exact hk.semval x
  have hundo := h.undo
  generalize hv : op.undoVal = v at hundo
  generalize ht : k'.undo = t at hundo
  cases hundo with
  | zero => exact ⟨⟨ht ▸ hk.undo, hval⟩, ht ▸ .refl _ _⟩
  | add _ _ hok hown => exact ⟨⟨ht ▸ hok, hval⟩, ht ▸ hown⟩

theorem OpDone.semfup (h : OpDone I u semid sp op k k')
    (hnone : k'.undo.semUndo u.proc = none) : k'.undo = k.undo := by
  have hundo := h.undo
  generalize op.undoVal = v at hundo
  generalize ht : k'.undo = t at hundo hnone
  cases hundo with
  | zero => rfl
  | add _ _ _ _ hup =>
    rw [hup] at hnone
    cases hnone

theorem Applied.ok {k₀ : Kernel} (h₀ : k₀.Ok I) {dn : List Sembuf}
    (h : Applied I u semid sp k₀ dn k) : k.Ok I ∧ k₀.Keeps k ∧ UndoTab.Owns u.proc k₀.undo k.undo ∧
      (k.undo.semUndo u.proc = none → k.undo = k₀.undo) := by
  induction h with
  | nil => exact ⟨h₀, .refl _, .refl _ _, fun _ => rfl⟩
  | cons h hop ih =>
    obtain ⟨hk, hkeep, hown, hnone⟩ := ih
    have hone := semopOne_done hk.undo hop
    obtain ⟨hok', hown'⟩ := hone.ok hk
    refine ⟨hok', hkeep.trans hone.toKeeps, hown.trans hown' fun hn => by rw [hnone hn], fun hn => ?_⟩
    have heq := hone.semfup hn
    rw [heq]
    exact hnone (heq ▸ hn)

theorem ushort_sub_add {v : ℕ} (hv : v < 65536) (d : ℤ) : ushort ((ushort (v + d) : ℕ) + -d) = v := by
  unfold ushort
  omega

/-- The rollback of operations that were done leads back and does not fail.  It may start in any
state that agrees with the one the operations led to in the values and in the undo entries. -/
theorem semundo_applied {k₀ : Kernel} (h₀ : k₀.Ok I) {dn : List Sembuf} {k₁ : Kernel}
    (h : Applied I u semid sp k₀ dn k₁) (hsema : k.sema = k₀.sema)
    (hval : ∀ x, (k.sem x).semval = (k₁.sem x).semval) (hsemu : k.undo.semu = k₁.undo.semu)
    (hup : ∀ up, k₁.undo.semUndo u.proc = some up → k.undo.semUndo u.proc = some up) :
    (semundo I u semid sp dn k).2 = true ∧
      (∀ x, ((semundo I u semid sp dn k).1.sem x).semval = (k₀.sem x).semval) ∧
      (semundo I u semid sp dn k).1.undo.semu = k₀.undo.semu ∧
      (semundo I u semid sp dn k).1.undo.semUndo = k.undo.semUndo := by
  induction h generalizing k with
  | nil => exact ⟨rfl, hval, hsemu, rfl⟩
  | @cons dn k₂ k₁ op h hop ih =>
    obtain ⟨hk₂, hkeep₂, -, -⟩ := h.ok h₀
    have hsema₂ := hkeep₂.sema
    have hone := semopOne_done hk₂.undo hop
    rw [semundo]
    by_cases hzero : op.semOp = 0
    · -- nothing was done and nothing is taken back
      have hundo := hone.undo
      rw [show op.undoVal = 0 by simp [Sembuf.undoVal, hzero]] at hundo
      have heq : k₁.undo = k₂.undo := by
        generalize k₁.undo = t at hundo
        cases hundo with
        | zero => rfl
        | add hne => exact absurd rfl hne
      have hval₂ : ∀ x, (k₁.sem x).semval = (k₂.sem x).semval := fun x => by
        rw [hone.semval, hzero]
        split_ifs
        · have := hk₂.semval x
          unfold ushort
          omega
        · rfl
      rw [if_pos hzero]
      exact ih hsema (fun x => (hval x).trans (hval₂ x)) (hsemu.trans (by rw [heq]))
        fun up hu => hup up (heq ▸ hu)
    rw [if_neg hzero]
    simp only
    generalize hkb : k.addVal ((k.sema sp).semBase + op.semNum) (-op.semOp) = kb
    have htouch : k.Touch kb := hkb ▸ Kernel.touch_addVal _ _ _
    have hbval : ∀ x, (kb.sem x).semval = (k₂.sem x).semval := fun x => by
      rw [← hkb, Kernel.addVal_semval, hval x, hval _, hone.semval, hone.semval, hsema, hsema₂]
      by_cases hx : x = (k₀.sema sp).semBase + op.semNum
      · rw [if_pos hx, if_pos rfl, ← hx]
        exact ushort_sub_add (hk₂.semval x) _
      · rw [if_neg hx, if_neg hx]
    have hundo := hone.undo
    by_cases hflag : op.semUndo = true
    · have hv : op.undoVal = op.semOp := by simp [Sembuf.undoVal, hflag]
      rw [hv] at hundo
      generalize ht : k₁.undo = t at hundo hsemu hup
      cases hundo with
      | zero h => exact absurd h hzero
      | @add t' up hne hrange hok hown hown_up ht' =>
        have haem := I.semaem_lt
        have hkup : kb.undo.semUndo u.proc = some up := by
          rw [htouch.undo]
          exact hup up hown_up
        have hbsemu : kb.undo.semu up =
            undos.add (toLex (semid, short op.semNum)) (-op.semOp) (k₂.undo.semu up) := by
          rw [htouch.undo, hsemu, ht', Function.update_self]
        obtain ⟨herr, howner, hback⟩ := semaoe_neg (hk₂.undo.sparse up) (hk₂.undo.length_le up)
          (hk₂.undo.aoe_le up) hne hrange hkup hbsemu
        rw [if_pos hflag, short_eq (x := -op.semOp) (by omega) (by omega), herr]
        have hback₂ : (semaoe I u.proc (-op.semOp) semid (short op.semNum) kb.undo).1.semu =
            k₂.undo.semu := by
          rw [hback, htouch.undo, hsemu, ht', Function.update_idem, Function.update_eq_self]
        have hih := ih (k := { kb with
            undo := (semaoe I u.proc (-op.semOp) semid (short op.semNum) kb.undo).1 })
          (htouch.sema.trans hsema) hbval hback₂ ?_
        · obtain ⟨h1, h2, h3, h4⟩ := hih
          exact ⟨by simp [h1], h2, h3, h4.trans (howner.trans (by rw [htouch.undo]))⟩
        · intro up' hu
          show (semaoe I u.proc (-op.semOp) semid (short op.semNum) kb.undo).1.semUndo u.proc = _
          rw [howner, htouch.undo]
          exact hup up' (hown.keep up' hu)
    · have heq : k₁.undo = k₂.undo := by
        have hv : op.undoVal = 0 := by simp [Sembuf.undoVal, hflag]
        rw [hv] at hundo
        generalize k₁.undo = t at hundo
        cases hundo with
        | zero => rfl
        | add hne => exact absurd rfl hne
      rw [if_neg hflag]
      have hih := ih (k := kb) (htouch.sema.trans hsema) hbval
        (by rw [htouch.undo, hsemu, heq]) fun up hu => by
          rw [htouch.undo]
          exact hup up (heq ▸ hu)
      obtain ⟨h1, h2, h3, h4⟩ := hih
      exact ⟨by simpa using h1, h2, h3, h4.trans (by rw [htouch.undo])⟩

/-! ### The pass -/

/-- The loop does operations until one cannot be done. -/
theorem semopScan_applied {k₀ : Kernel} {dn ops : List Sembuf} (h : Applied I u semid sp k₀ dn k) :
    (∃ k', Applied I u semid sp k₀ (ops.reverse ++ dn) k' ∧
      semopScan I u semid sp dn ops k = (k', ops.reverse ++ dn, .done)) ∨
    ∃ dn' k₁ k' op r, Applied I u semid sp k₀ dn' k₁ ∧ r ≠ .done ∧
      semopOne I k₁ u semid sp op = (k', r) ∧ semopScan I u semid sp dn ops k = (k', dn', r) := by
  induction ops generalizing dn k with
  | nil => exact .inl ⟨k, h, rfl⟩
  | cons op ops ih =>
    rw [semopScan]
    cases hone : semopOne I k u semid sp op with
    | mk k' r =>
      cases r with
      | done =>
        simpa [List.append_assoc] using ih (h.cons hone)
      | fail e => exact .inr ⟨dn, k, k', op, .fail e, h, nofun, hone, rfl⟩
      | sleep c => exact .inr ⟨dn, k, k', op, .sleep c, h, nofun, hone, rfl⟩

variable (I k u semid sp) in
theorem semopScan_cases (ops : List Sembuf) : (∃ k', Applied I u semid sp k ops.reverse k' ∧
      semopScan I u semid sp [] ops k = (k', ops.reverse, .done)) ∨
    ∃ dn' k₁ k' op r, Applied I u semid sp k dn' k₁ ∧ r ≠ .done ∧
      semopOne I k₁ u semid sp op = (k', r) ∧ semopScan I u semid sp [] ops k = (k', dn', r) := by
  have h : Applied I u semid sp k [] k := .nil
  simpa using semopScan_applied h

/-- `semundo` keeps the invariant, the sets and the owners. -/
theorem semundo_keeps (hk : k.Ok I) (dn : List Sembuf) :
    (semundo I u semid sp dn k).1.Ok I ∧ k.Keeps (semundo I u semid sp dn k).1 := by
  induction dn generalizing k with
  | nil => exact ⟨hk, .refl k⟩
  | cons op dn ih =>
    rw [semundo]
    split_ifs with hzero hflag
    · exact ih hk
    · simp only
      generalize hkb : k.addVal ((k.sema sp).semBase + op.semNum) (-op.semOp) = kb
      have htouch : k.Touch kb := hkb ▸ Kernel.touch_addVal _ _ _
      have hcases := semaoe_cases (t := kb.undo) (htouch.undo ▸ hk.undo) u.proc (short (-op.semOp))
        semid (short op.semNum)
      generalize semaoe I u.proc (short (-op.semOp)) semid (short op.semNum) kb.undo = r at hcases
      have hok : r.1.Ok I := by
        cases hcases with
        | fail _ hok => exact hok
        | zero => exact htouch.undo ▸ hk.undo
        | add _ _ hok => exact hok
      have hval : ∀ x, (kb.sem x).semval < 65536 := fun x => by
        rw [← hkb, Kernel.addVal_semval]
        split_ifs
        · exact ushort_lt _
        · exact hk.semval x
      obtain ⟨h1, h2⟩ := ih (k := { kb with undo := r.1 }) ⟨hok, hval⟩
      exact ⟨h1, htouch.toKeeps.trans ⟨h2.sema, h2.semmap, h2.call⟩⟩
    · simp only
      generalize hkb : k.addVal ((k.sema sp).semBase + op.semNum) (-op.semOp) = kb
      have htouch : k.Touch kb := hkb ▸ Kernel.touch_addVal _ _ _
      have hval : ∀ x, (kb.sem x).semval < 65536 := fun x => by
        rw [← hkb, Kernel.addVal_semval]
        split_ifs
        · exact ushort_lt _
        · exact hk.semval x
      obtain ⟨h1, h2⟩ := ih (k := kb) ⟨htouch.undo ▸ hk.undo, hval⟩
      exact ⟨h1, htouch.toKeeps.trans h2⟩

/-- What a pass that stops leaves behind. -/
structure PassStop (I : Seminfo) (u : User) (k k' : Kernel) : Prop extends k.Keeps k' where
  ok : k'.Ok I
  semval : ∀ x, (k'.sem x).semval = (k.sem x).semval
  semu : k'.undo.semu = k.undo.semu
  owns : UndoTab.Owns u.proc k.undo k'.undo

theorem semopScan_stop (hk : k.Ok I) {ops dn : List Sembuf} {r : Pass} (hr : r ≠ .done)
    (h : semopScan I u semid sp [] ops k = (k', dn, r)) :
    (semundo I u semid sp dn k').2 = true ∧ PassStop I u k (semundo I u semid sp dn k').1 := by
  rcases semopScan_cases I k u semid sp ops with ⟨k₂, -, hdone⟩ | ⟨dn', k₁, k₂, op, r', happ, hr', hone, hscan⟩
  · rw [hdone] at h
    cases h
    exact absurd rfl hr
  · rw [hscan] at h
    cases h
    obtain ⟨hk₁, hkeep, hown, hnone⟩ := happ.ok hk
    have hstop := semopOne_stop hk₁.undo hr hone
    have hk' : k'.Ok I := ⟨hstop.ok, fun x => hstop.sem ▸ hk₁.semval x⟩
    obtain ⟨hflag, hval, hsemu, howner⟩ := semundo_applied hk happ
      (k := k') (hstop.sema.trans hkeep.sema) (fun x => by rw [hstop.sem]) hstop.semu
      hstop.owns.keep
    obtain ⟨hok, hkeep'⟩ : (semundo I u semid sp dn k').1.Ok I ∧
        k'.Keeps (semundo I u semid sp dn k').1 := semundo_keeps hk' dn
    refine ⟨hflag, (hkeep.trans hstop.toKeeps).trans hkeep', hok, hval, hsemu, ?_⟩
    have htrans := hown.trans hstop.owns fun hn => by rw [hnone hn]
    exact ⟨fun q hq => by rw [howner]; exact htrans.other q hq,
      fun j hj => by rw [howner]; exact htrans.keep j hj,
      fun hn j hj => by rw [howner] at hj; exact htrans.new hn j hj⟩

theorem semopPass_stop (hk : k.Ok I) {ops : List Sembuf}
    (hstop : (semopPass I k u semid sp ops).2 ≠ .done) :
    PassStop I u k (semopPass I k u semid sp ops).1 := by
  unfold semopPass at hstop
  cases hs : semopScan I u semid sp [] ops k with
  | mk k' y =>
    obtain ⟨dn, r⟩ := y
    rw [hs] at hstop
    cases r with
    | done => exact absurd rfl hstop
    | fail e =>
      have h := semopScan_stop (r := .fail e) hk nofun hs
      simpa [semopPass, hs] using h.2
    | sleep c =>
      have h := semopScan_stop (r := .sleep c) hk nofun hs
      simpa [semopPass, hs] using h.2

variable (I) in
/-- `semop` is all or nothing: when a pass over the operations stops, all semaphore values and all
adjustments of all processes are those from before the pass, and no call of `semaoe` in its rollback
failed. -/
theorem semop_all_or_nothing (k : Kernel) (hk : k.Ok I) (u : User) (semid : ℤ) (sp : ℕ)
    (ops : List Sembuf) (hstop : (semopPass I k u semid sp ops).2 ≠ .done) :
    (∀ x, ((semopPass I k u semid sp ops).1.sem x).semval = (k.sem x).semval) ∧
      (∀ p id num, (semopPass I k u semid sp ops).1.undo.aoe p id num = k.undo.aoe p id num) ∧
      (semundo I u semid sp (semopScan I u semid sp [] ops k).2.1
        (semopScan I u semid sp [] ops k).1).2 = true := by
  have h := semopPass_stop hk hstop
  refine ⟨h.semval, fun p id num => ?_, ?_⟩
  · unfold UndoTab.aoe
    rw [h.owns.ents_eq hk.undo h.semu]
  · cases hs : semopScan I u semid sp [] ops k with
    | mk k' y =>
      obtain ⟨dn, r⟩ := y
      refine (semopScan_stop hk ?_ hs).1
      rintro rfl
      simp [semopPass, hs] at hstop

end

/-- The state after `seminit` satisfies the invariant. -/
theorem seminit_ok (I : Seminfo) : (seminit I).Ok I where
  undo :=
    { sparse := fun _ => Sparse.ok_nil
      length_le := fun _ => Nat.zero_le _
      aoe_le := fun _ e he => by cases he
      linked := fun j => by simp [seminit]
      linked_nodup := .nil
      free_nodup := List.nodup_range
      all := fun j => by simp [seminit]
      not_free := nofun
      inj := nofun
      owned := fun j hj => absurd rfl hj }
  semval _ := (by decide : 0 < 65536)

/-- A set of two semaphores, the first one adjusted by 2 before the second one fails. -/
theorem semop_all_or_nothing_eagain :
    let k : Kernel := { seminit seminfo with
      sema := fun _ => ⟨⟨0, 0, 0, 0, true, 0o600, 0, 0⟩, 0, 2⟩ }
    let ops : List Sembuf := [⟨0, 2, true, true, by decide, by decide⟩,
      ⟨0, -2, true, true, by decide, by decide⟩, ⟨1, -5, true, true, by decide, by decide⟩]
    (semopPass seminfo k ⟨1, 1, 0, 0, []⟩ 0 0 ops).2 = .fail .EAGAIN ∧
      ∀ x, ((semopPass seminfo k ⟨1, 1, 0, 0, []⟩ 0 0 ops).1.sem x).semval = 0 := by
  intro k ops
  have hstop : (semopPass seminfo k ⟨1, 1, 0, 0, []⟩ 0 0 ops).2 = .fail .EAGAIN := by decide +kernel
  have hk : k.Ok seminfo := ⟨(seminit_ok seminfo).undo, (seminit_ok seminfo).semval⟩
  exact ⟨hstop, (semop_all_or_nothing seminfo k hk ⟨1, 1, 0, 0, []⟩ 0 0 ops (by rw [hstop]; nofun)).1⟩

end SysV

end Hpux
