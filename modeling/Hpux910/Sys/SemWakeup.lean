import Hpux910.Sys.SemSets
import Mathlib

/-!
# No lost wakeup for semaphores

The counters `semncnt` and `semzcnt` say that somebody sleeps: who changes a semaphore wakes the
sleepers when the counter is set and clears it, an interrupted sleeper takes itself off.

* `Kernel.cnt`, `SemProc.waits` : a counter, and who sleeps on its address with no wakeup pending.
* `Stir` : what waking leaves of the counters and the sleepers; every call stirs.
* `Wakes` : a stir after which who still sleeps does so for a reason.
* `Counted` : the counters against the sleepers.
* `Parked` : why a sleeper sleeps.
-/

namespace Hpux

namespace SysV

open List

/-- `MAXPID`: the processes have different ids below it. -/
def MAXPID : ℕ := 30000

/-- The counter of a channel. -/
def Kernel.cnt (k : Kernel) : Chan → ℕ
  | .ncnt x => (k.sem x).semncnt
  | .zcnt x => (k.sem x).semzcnt

/-- The process sleeps on the channel, and no wakeup is pending. -/
def SemProc.waits (c : Chan) : SemProc → Bool
  | .asleep c' _ false => c' = c
  | _ => false

theorem SemProc.waits_iff {c : Chan} {st : SemProc} :
    st.waits c = true ↔ ∃ call, st = .asleep c call false := by
  cases st with
  | running => simp [waits]
  | asleep c' call woken => cases woken <;> simp [waits]

variable {I : Seminfo} {k k' k'' : Kernel} {x y p : ℕ} {c : Chan}

/-! ### Stirring -/

/-- Each channel is as it was, or its counter was cleared and its sleepers were woken; nobody falls
asleep. -/
structure Stir (k k' : Kernel) : Prop where
  asleep : ∀ p c call, k'.procs p = .asleep c call false → k.procs p = .asleep c call false
  chan : ∀ c, (k'.cnt c = k.cnt c ∧ ∀ p, (k'.procs p).waits c = (k.procs p).waits c) ∨
    k'.cnt c = 0 ∧ ∀ p, (k'.procs p).waits c = false

theorem Stir.refl (k : Kernel) : Stir k k := ⟨fun _ _ _ h => h, fun _ => .inl ⟨rfl, fun _ => rfl⟩⟩

theorem Stir.trans (h : Stir k k') (h' : Stir k' k'') : Stir k k'' := by
  refine ⟨fun p c call hp => h.asleep p c call (h'.asleep p c call hp), fun c => ?_⟩
  obtain ⟨hcnt', hw'⟩ | h' := h'.chan c
  · obtain ⟨hcnt, hw⟩ | ⟨hcnt, hw⟩ := h.chan c
    · exact .inl ⟨hcnt'.trans hcnt, fun p => (hw' p).trans (hw p)⟩
    · exact .inr ⟨hcnt'.trans hcnt, fun p => (hw' p).trans (hw p)⟩
  · exact .inr h'

theorem Stir.waits (h : Stir k k') (hp : (k'.procs p).waits c = true) : (k.procs p).waits c = true := by
  obtain ⟨call, hp⟩ := SemProc.waits_iff.1 hp
  exact SemProc.waits_iff.2 ⟨call, h.asleep p c call hp⟩

theorem Stir.of_eq (hcnt : ∀ c, k'.cnt c = k.cnt c) (hprocs : k'.procs = k.procs) : Stir k k' :=
  ⟨fun p c call h => hprocs ▸ h, fun c => .inl ⟨hcnt c, fun p => by rw [hprocs]⟩⟩

theorem stir_setSem {s : Sem} (hn : s.semncnt = (k.sem x).semncnt)
    (hz : s.semzcnt = (k.sem x).semzcnt) : Stir k (k.setSem x s) := by
  refine .of_eq (fun c => ?_) rfl
  cases c with
  | ncnt y =>
    by_cases hy : y = x
    · subst hy
      simpa [Kernel.cnt] using hn
    · simp [Kernel.cnt, hy]
  | zcnt y =>
    by_cases hy : y = x
    · subst hy
      simpa [Kernel.cnt] using hz
    · simp [Kernel.cnt, hy]

theorem stir_addVal (d : ℤ) : Stir k (k.addVal x d) := stir_setSem rfl rfl

theorem waits_wake (c' : Chan) (st : SemProc) :
    (st.wake c').waits c = (st.waits c && decide (c ≠ c')) := by
  cases st with
  | running => rfl
  | asleep c₀ call woken =>
    cases woken with
    | true => simp [SemProc.wake, SemProc.waits]
    | false =>
      by_cases h0 : c₀ = c'
      · subst h0
        simp [SemProc.wake, SemProc.waits]
        tauto
      · by_cases hc : c₀ = c
        · subst hc
          simp [SemProc.wake, SemProc.waits, h0]
        · simp [SemProc.wake, SemProc.waits, h0, hc]

variable {call : SemopCall}

theorem asleep_wake {c' : Chan} {st : SemProc}
    (h : st.wake c' = .asleep c call false) : st = .asleep c call false := by
  cases st with
  | running => cases h
  | asleep c₀ call' woken =>
    simp only [SemProc.wake, SemProc.asleep.injEq, Bool.or_eq_false_iff] at h
    obtain ⟨rfl, rfl, rfl, -⟩ := h
    rfl

theorem stir_clear {s : Sem} (hother : ∀ c', c' ≠ c → (k.setSem x s).cnt c' = k.cnt c')
    (hzero : (k.setSem x s).cnt c = 0) : Stir k ((k.setSem x s).wakeup c) := by
  refine ⟨fun p c' call h => asleep_wake h, fun c' => ?_⟩
  by_cases hc : c' = c
  · subst hc
    exact .inr ⟨hzero, fun p => (waits_wake ..).trans (by simp)⟩
  · exact .inl ⟨hother c' hc, fun p => (waits_wake ..).trans (by simp [hc, Kernel.setSem])⟩

theorem cnt_setSem_ncnt (n : ℕ) (c : Chan) :
    (k.setSem x { k.sem x with semncnt := n }).cnt c = if c = .ncnt x then n else k.cnt c := by
  cases c with
  | ncnt y =>
    by_cases hy : y = x
    · subst hy
      simp [Kernel.cnt]
    · simp [Kernel.cnt, hy]
  | zcnt y =>
    by_cases hy : y = x
    · subst hy
      simp [Kernel.cnt]
    · simp [Kernel.cnt, hy]

theorem cnt_setSem_zcnt (n : ℕ) (c : Chan) :
    (k.setSem x { k.sem x with semzcnt := n }).cnt c = if c = .zcnt x then n else k.cnt c := by
  cases c with
  | ncnt y =>
    by_cases hy : y = x
    · subst hy
      simp [Kernel.cnt]
    · simp [Kernel.cnt, hy]
  | zcnt y =>
    by_cases hy : y = x
    · subst hy
      simp [Kernel.cnt]
    · simp [Kernel.cnt, hy]

theorem stir_wakeN : Stir k (k.wakeN x) := by
  unfold Kernel.wakeN
  split_ifs
  · exact stir_clear (fun c' hc => by rw [cnt_setSem_ncnt, if_neg hc])
      (by rw [cnt_setSem_ncnt, if_pos rfl])
  · exact .refl k

theorem stir_wakeZ : Stir k (k.wakeZ x) := by
  unfold Kernel.wakeZ
  split_ifs
  · exact stir_clear (fun c' hc => by rw [cnt_setSem_zcnt, if_neg hc])
      (by rw [cnt_setSem_zcnt, if_pos rfl])
  · exact .refl k

/-! ### Counters that are set for the sleepers -/

/-- Where somebody sleeps, the counter is set. -/
def Kernel.Flagged (k : Kernel) : Prop := ∀ p c, (k.procs p).waits c = true → 0 < k.cnt c

theorem Stir.flagged (h : Stir k k') (hk : k.Flagged) : k'.Flagged := by
  intro p c hp
  obtain ⟨hcnt, hw⟩ | ⟨-, hw⟩ := h.chan c
  · rw [hcnt]
    exact hk p c (by rw [← hw, hp])
  · rw [hw] at hp
    cases hp

theorem wakeN_waits (hk : k.Flagged) : ((k.wakeN x).procs p).waits (.ncnt x) = false := by
  unfold Kernel.wakeN
  split_ifs with h
  · exact (waits_wake ..).trans (by simp)
  · by_contra hp
    rw [Bool.not_eq_false] at hp
    exact absurd (hk p _ hp) (by simpa [Kernel.cnt] using h)

theorem wakeZ_waits (hk : k.Flagged) : ((k.wakeZ x).procs p).waits (.zcnt x) = false := by
  unfold Kernel.wakeZ
  split_ifs with h
  · exact (waits_wake ..).trans (by simp)
  · by_contra hp
    rw [Bool.not_eq_false] at hp
    exact absurd (hk p _ hp) (by simpa [Kernel.cnt] using h)

/-- A stir after which nobody sleeps for a value that was raised, or for a zero that came. -/
structure Wakes (k k' : Kernel) : Prop extends Stir k k' where
  ncnt : ∀ x p, (k'.procs p).waits (.ncnt x) = true → (k'.sem x).semval ≤ (k.sem x).semval
  zcnt : ∀ x p, (k'.procs p).waits (.zcnt x) = true → (k'.sem x).semval = 0 → (k.sem x).semval = 0

theorem Wakes.trans (h : Wakes k k') (h' : Wakes k' k'') : Wakes k k'' :=
  ⟨h.toStir.trans h'.toStir,
    fun x p hp => (h'.ncnt x p hp).trans (h.ncnt x p (h'.waits hp)),
    fun x p hp h0 => h.zcnt x p (h'.waits hp) (h'.zcnt x p hp h0)⟩

theorem Stir.wakes (h : Stir k k') (hval : ∀ x, (k'.sem x).semval = (k.sem x).semval) : Wakes k k' :=
  ⟨h, fun x _ _ => (hval x).le, fun x _ _ h0 => (hval x) ▸ h0⟩

theorem Wakes.refl (k : Kernel) : Wakes k k := (Stir.refl k).wakes fun _ => rfl

/-- One value changes. -/
theorem Stir.wakes_of (h : Stir k k') (hother : ∀ y, y ≠ x → (k'.sem y).semval = (k.sem y).semval)
    (hn : (k'.sem x).semval ≤ (k.sem x).semval ∨ ∀ p, (k'.procs p).waits (.ncnt x) = false)
    (hz : ((k'.sem x).semval = 0 → (k.sem x).semval = 0) ∨
      ∀ p, (k'.procs p).waits (.zcnt x) = false) : Wakes k k' := by
  refine ⟨h, fun y p hp => ?_, fun y p hp h0 => ?_⟩
  · by_cases hy : y = x
    · subst hy
      obtain hn | hn := hn
      · exact hn
      · rw [hn] at hp
        cases hp
    · exact (hother y hy).le
  · by_cases hy : y = x
    · subst hy
      obtain hz | hz := hz
      · exact hz h0
      · rw [hz] at hp
        cases hp
    · rw [← hother y hy, h0]

/-! ### The calls -/

theorem putVal_wakes (hk : k.Flagged) (u : User) (x v : ℕ) : Wakes k (k.putVal u x v) := by
  have hval := k.putVal_semval u x v
  have hset : Stir k (k.setSem x { k.sem x with semval := v, sempid := ushort u.pid }) :=
    stir_setSem rfl rfl
  have hflag := hset.flagged hk
  have hother : ∀ y, y ≠ x → ((k.putVal u x v).sem y).semval = (k.sem y).semval :=
    fun y hy => by rw [hval, if_neg hy]
  unfold Kernel.putVal at hval hother ⊢
  simp only at hval hother ⊢
  by_cases hv : v ≠ 0
  · rw [if_pos hv] at hval hother ⊢
    exact (hset.trans stir_wakeN).wakes_of hother (.inr fun p => wakeN_waits hflag)
      (.inl fun h0 => by rw [hval, if_pos rfl] at h0; exact absurd h0 hv)
  · rw [if_neg hv] at hval hother ⊢
    rw [not_not] at hv
    exact (hset.trans stir_wakeZ).wakes_of hother (.inl (by rw [hval, if_pos rfl, hv]; omega))
      (.inr fun p => wakeZ_waits hflag)

/-- After `clearSem` nobody sleeps for the semaphore. -/
theorem clearSem_spec (hk : k.Flagged) (x : ℕ) : Stir k (k.clearSem x) ∧
    ∀ p, ((k.clearSem x).procs p).waits (.ncnt x) = false ∧
      ((k.clearSem x).procs p).waits (.zcnt x) = false := by
  have hset : Stir k (k.setSem x { k.sem x with semval := 0, sempid := 0 }) := stir_setSem rfl rfl
  unfold Kernel.clearSem
  generalize k.setSem x { k.sem x with semval := 0, sempid := 0 } = k₁ at hset ⊢
  have hflag : (k₁.wakeN x).Flagged := stir_wakeN.flagged (hset.flagged hk)
  refine ⟨(hset.trans stir_wakeN).trans stir_wakeZ, fun p => ⟨?_, wakeZ_waits hflag⟩⟩
  by_contra hp
  rw [Bool.not_eq_false] at hp
  have hw := stir_wakeZ.waits hp
  rw [wakeN_waits (hset.flagged hk)] at hw
  cases hw

variable {u : User} {semid : ℤ} {sp : ℕ} {op : Sembuf}

/-- The value after an operation, which does not wrap. -/
theorem semopOne_done_val (hk : k.Ok I) (h : semopOne I k u semid sp op = (k', .done)) (y : ℕ) :
    ((k'.sem y).semval : ℤ) =
      (k.sem y).semval + if k.cell sp op.semNum = y then op.semOp else 0 := by
  have hdone := semopOne_done hk.undo h
  have hlt := hk.semval y
  have hvmx := I.semvmx_lt
  rw [hdone.semval y]
  by_cases hy : y = (k.sema sp).semBase + op.semNum
  · have hle : ((k.sem y).semval : ℤ) + op.semOp < 65536 := by
      have hends := semopOne_ends I k u semid sp op
      rw [h, ← hy] at hends
      cases hends <;> omega
    have hnn := (hdone.range y hy).1
    rw [if_pos hy, if_pos (show k.cell sp op.semNum = y from hy.symm), ushort]
    omega
  · rw [if_neg hy, if_neg fun hc : k.cell sp op.semNum = y => hy hc.symm]
    omega

/-- An operation that is done wakes those for whom it may matter. -/
theorem semopOne_wakes (hflag : k.Flagged) (hk : k.Ok I)
    (h : semopOne I k u semid sp op = (k', .done)) : Wakes k k' := by
  have hval := semopOne_done_val hk h
  have hother : ∀ y, y ≠ k.cell sp op.semNum → (k'.sem y).semval = (k.sem y).semval := by
    intro y hy
    have := hval y
    rw [if_neg (Ne.symm hy)] at this
    omega
  have hx := hval (k.cell sp op.semNum)
  rw [if_pos rfl] at hx
  have hends : OpEnds I k u semid sp op (k.cell sp op.semNum) _ := semopOne_ends I k u semid sp op
  rw [h] at hends
  cases hends with
  | @add t hpos =>
    have hundo : Stir k { k with undo := t } := .of_eq (fun _ => rfl) rfl
    have hadd := hundo.trans (stir_addVal (x := k.cell sp op.semNum) op.semOp)
    exact (hadd.trans stir_wakeN).wakes_of hother
      (.inr fun p => wakeN_waits (hadd.flagged hflag)) (.inl fun h0 => by omega)
  | @sub t hneg =>
    have hundo : Stir k { k with undo := t } := .of_eq (fun _ => rfl) rfl
    have hadd := hundo.trans (stir_addVal (x := k.cell sp op.semNum) op.semOp)
    by_cases h0 : ((({ k with undo := t } : Kernel).addVal (k.cell sp op.semNum) op.semOp).sem
        (k.cell sp op.semNum)).semval = 0
    · simp only [if_pos h0] at hx hother ⊢
      exact (hadd.trans stir_wakeZ).wakes_of hother (.inl (by omega))
        (.inr fun p => wakeZ_waits (hadd.flagged hflag))
    · simp only [if_neg h0] at hx hother ⊢
      exact hadd.wakes_of hother (.inl (by omega)) (.inl fun h => absurd h h0)
  | zero => exact .refl _

/-- What the operations `dn` add to the semaphore `num`. -/
def earlier (dn : List Sembuf) (num : ℕ) : ℤ :=
  (dn.map fun op => if op.semNum = num then op.semOp else 0).sum

/-- The operations that were done, with the values they lead to. -/
theorem Applied.wakes {k₀ : Kernel} (hflag : k₀.Flagged) (hk : k₀.Ok I) {dn : List Sembuf}
    (h : Applied I u semid sp k₀ dn k) : Wakes k₀ k ∧ ∀ num, ((k.sem (k₀.cell sp num)).semval : ℤ) =
        (k₀.sem (k₀.cell sp num)).semval + earlier dn num := by
  induction h with
  | nil => exact ⟨.refl _, fun num => by simp [earlier]⟩
  | @cons dn k k' op h hop ih =>
    obtain ⟨hw, hval⟩ := ih
    obtain ⟨hok, hkeep, -⟩ := h.ok hk
    have hcell : ∀ num, k.cell sp num = k₀.cell sp num := fun num => by
      rw [Kernel.cell, Kernel.cell, hkeep.sema]
    refine ⟨hw.trans (semopOne_wakes (hw.flagged hflag) hok hop), fun num => ?_⟩
    have hone := semopOne_done_val hok hop (k₀.cell sp num)
    rw [hcell, hval num] at hone
    have hiff : k₀.cell sp op.semNum = k₀.cell sp num ↔ op.semNum = num := by
      simp [Kernel.cell]
    simp only [hiff] at hone
    rw [hone, earlier, earlier, map_cons, sum_cons]
    omega

theorem semopOne_sleep (h : semopOne I k u semid sp op = (k', .sleep c)) : k' = k ∧
    (c = .ncnt (k.cell sp op.semNum) ∧ op.semOp < 0 ∧
      ((k.sem (k.cell sp op.semNum)).semval : ℤ) < -op.semOp ∨
    c = .zcnt (k.cell sp op.semNum) ∧ op.semOp = 0 ∧ (k.sem (k.cell sp op.semNum)).semval ≠ 0) := by
  have hends := semopOne_ends I k u semid sp op
  rw [h] at hends
  cases hends with
  | ncnt hneg hlt => exact ⟨rfl, .inl ⟨rfl, hneg, hlt⟩⟩
  | zcnt hzero hne => exact ⟨rfl, .inr ⟨rfl, hzero, hne⟩⟩

theorem semundo_stir (dn : List Sembuf) : Stir k (semundo I u semid sp dn k).1 := by
  induction dn generalizing k with
  | nil => exact .refl k
  | cons op dn ih =>
    rw [semundo]
    by_cases hzero : op.semOp = 0
    · rw [if_pos hzero]
      exact ih
    · rw [if_neg hzero]
      have hadd : Stir k (k.addVal ((k.sema sp).semBase + op.semNum) (-op.semOp)) := stir_addVal _
      simp only
      generalize (if op.semUndo then semaoe I u.proc (short (-op.semOp)) semid (short op.semNum)
        (k.addVal ((k.sema sp).semBase + op.semNum) (-op.semOp)).undo else
        ((k.addVal ((k.sema sp).semBase + op.semNum) (-op.semOp)).undo, none)) = r
      have hundo : Stir (k.addVal ((k.sema sp).semBase + op.semNum) (-op.semOp))
          { k.addVal ((k.sema sp).semBase + op.semNum) (-op.semOp) with undo := r.1 } :=
        .of_eq (fun _ => rfl) rfl
      exact (hadd.trans hundo).trans ih

theorem setPids_stir (u : User) (sp : ℕ) (ops : List Sembuf) (k : Kernel) :
    Stir k (k.setPids u sp ops) := by
  induction ops generalizing k with
  | nil => exact .refl k
  | cons op ops ih =>
    have hone : Stir k (k.setSem ((k.sema sp).semBase + op.semNum)
        { k.sem ((k.sema sp).semBase + op.semNum) with sempid := ushort u.pid }) :=
      stir_setSem rfl rfl
    exact hone.trans (ih _)

/-- A process that does not sleep goes on running. -/
theorem stir_running (hp : ∀ c, (k.procs p).waits c = false) : Stir k (k.setProc p .running) := by
  refine ⟨fun q c call hq => ?_, fun c => .inl ⟨?_, fun q => ?_⟩⟩
  · by_cases hqp : q = p
    · subst hqp
      simp [Kernel.setProc] at hq
    · simpa [Kernel.setProc, hqp] using hq
  · cases c <;> rfl
  · by_cases hqp : q = p
    · subst hqp
      rw [hp c]
      simp [Kernel.setProc, SemProc.waits]
    · simp [Kernel.setProc, hqp]

theorem Wakes.running (h : Wakes k k') (hp : ∀ c, (k.procs p).waits c = false) :
    Wakes k (k'.setProc p .running) := by
  refine h.trans ((stir_running fun c => ?_).wakes fun _ => rfl)
  rw [← Bool.not_eq_true]
  intro hw
  have := h.waits hw
  rw [hp] at this
  cases this

theorem foldl_wakes {α : Type} {f : Kernel → α → Kernel}
    (hf : ∀ k i, k.Flagged → Wakes k (f k i)) (l : List α) (hk : k.Flagged) :
    Wakes k (l.foldl f k) := by
  induction l generalizing k with
  | nil => exact .refl k
  | cons i l ih =>
    have hone := hf k i hk
    exact hone.trans (ih (hone.flagged hk))

theorem undo_wakes (k : Kernel) (t : UndoTab) : Wakes k { k with undo := t } := by
  have hcnt : ∀ c, Kernel.cnt { k with undo := t } c = k.cnt c := fun c => by cases c <;> rfl
  exact (Stir.of_eq hcnt rfl).wakes fun _ => rfl

theorem semSetval_wakes (hk : k.Flagged) (u : User) (semid : ℤ) (semnum arg : ℕ) :
    Wakes k (semSetval I k u semid semnum arg).1 := by
  unfold semSetval
  cases semconv I k semid with
  | none => exact .refl k
  | some sp =>
    simp only
    cases ipcaccess u (k.sema sp).semPerm SEM_A with
    | some e => exact .refl k
    | none =>
      simp only
      split_ifs
      · exact .refl k
      · exact .refl k
      · exact (putVal_wakes hk u _ arg).trans (undo_wakes ..)

theorem semSetall_wakes (hk : k.Flagged) (u : User) (semid : ℤ) (semvals : ℕ → ℕ) :
    Wakes k (semSetall I k u semid semvals).1 := by
  unfold semSetall
  cases semconv I k semid with
  | none => exact .refl k
  | some sp =>
    simp only
    cases ipcaccess u (k.sema sp).semPerm SEM_A with
    | some e => exact .refl k
    | none =>
      simp only
      split_ifs
      · exact .refl k
      · have hrm : Wakes k (k.semunrm semid 0 (k.sema sp).semNsems) := undo_wakes ..
        exact hrm.trans (foldl_wakes (fun k' i hk' => putVal_wakes hk' u _ _) _ (hrm.flagged hk))

/-- An entry of the undo table that is given back wakes those for whom it may matter. -/
theorem semexitOne_wakes (hk : k.Flagged) (e : Undo) : Wakes k (semexitOne I k e) := by
  cases hi : semconv I k e.unId with
  | none =>
    unfold semexitOne
    rw [hi]
    exact .refl k
  | some i =>
    have hval := semexitOne_semval (e := e) hi
    have hadj := hval ((k.sema i).semBase + e.unNum).toNat
    rw [if_pos rfl, Seminfo.adjust] at hadj
    have hother : ∀ y, y ≠ ((k.sema i).semBase + e.unNum).toNat →
        ((semexitOne I k e).sem y).semval = (k.sem y).semval := fun y hy => by rw [hval, if_neg hy]
    unfold semexitOne at hval hadj hother ⊢
    simp only [hi] at hadj hother ⊢
    generalize ((k.sema i).semBase + e.unNum).toNat = x at hadj hother ⊢
    by_cases hout : ((k.sem x).semval : ℤ) + e.unAoe < 0 ∨ ((k.sem x).semval : ℤ) + e.unAoe > I.semvmx
    · simp only [if_pos hout]
      exact .refl k
    · simp only [if_neg hout] at hadj hother ⊢
      rw [not_or, not_lt, not_lt] at hout
      have hset : Stir k (k.setSem x { k.sem x with semval := ushort ((k.sem x).semval + e.unAoe) }) :=
        stir_setSem rfl rfl
      generalize k.setSem x { k.sem x with semval := ushort ((k.sem x).semval + e.unAoe) } = k₁ at *
      by_cases h0 : ((k.sem x).semval : ℤ) + e.unAoe = 0 <;> by_cases hpos : e.unAoe > 0
      · omega
      · simp only [if_pos h0, if_neg hpos] at hadj hother ⊢
        exact (hset.trans stir_wakeZ).wakes_of hother (.inl (by omega))
          (.inr fun p => wakeZ_waits (hset.flagged hk))
      · simp only [if_neg h0, if_pos hpos] at hadj hother ⊢
        exact (hset.trans stir_wakeN).wakes_of hother (.inr fun p => wakeN_waits (hset.flagged hk))
          (.inl (by omega))
      · simp only [if_neg h0, if_neg hpos] at hadj hother ⊢
        exact hset.wakes_of hother (.inl (by omega)) (.inl (by omega))

theorem semexit_wakes (hk : k.Flagged) (u : User) : Wakes k (semexit I k u) := by
  unfold semexit
  cases k.undo.semUndo u.proc with
  | none => exact .refl k
  | some up =>
    exact (foldl_wakes (fun k' e hk' => semexitOne_wakes hk' e) (k.undo.semu up).reverse hk).trans
      (undo_wakes ..)

/-! ### One pass of `semop` -/

theorem semopOne_stop_undo {r : Pass} (hr : r ≠ .done)
    (h : semopOne I k u semid sp op = (k', r)) : ∃ t, k' = { k with undo := t } := by
  have hends := semopOne_ends I k u semid sp op
  rw [h] at hends
  cases hends with
  | add | sub | zero => exact absurd rfl hr
  | full | refused | ncnt | zcnt => exact ⟨_, rfl⟩

/-- The operations before the one that stops the pass were done. -/
theorem semopScan_stops {k₀ : Kernel} {dn dn' ops : List Sembuf} {r : Pass}
    (happ : Applied I u semid sp k₀ dn k) (hr : r ≠ .done)
    (h : semopScan I u semid sp dn ops k = (k', dn', r)) :
    ∃ front op rest k₁, ops = front ++ op :: rest ∧ dn' = front.reverse ++ dn ∧
      Applied I u semid sp k₀ (front.reverse ++ dn) k₁ ∧ semopOne I k₁ u semid sp op = (k', r) := by
  induction ops generalizing dn k with
  | nil =>
    cases h
    exact absurd rfl hr
  | cons op ops ih =>
    rw [semopScan] at h
    cases hop : semopOne I k u semid sp op with
    | mk k₂ r₂ =>
      rw [hop] at h
      by_cases hdone : r₂ = .done
      · subst hdone
        obtain ⟨front, op', rest, k₁, rfl, rfl, happ', hop'⟩ := ih (happ.cons hop) h
        refine ⟨op :: front, op', rest, k₁, rfl, ?_, ?_, hop'⟩
        · simp
        · simpa using happ'
      · have heq : (k₂, dn, r₂) = (k', dn', r) := by
          cases r₂ with
          | done => exact absurd rfl hdone
          | fail e => exact h
          | sleep c => exact h
        cases heq
        exact ⟨[], op, ops, k, rfl, rfl, happ, hop⟩

theorem earlier_reverse (dn : List Sembuf) (num : ℕ) : earlier dn.reverse num = earlier dn num := by
  rw [earlier, earlier, map_reverse, sum_reverse]

/-- Why `semop` sleeps: after the operations before it the semaphore is too small, or is not
zero. -/
structure Blocked (k : Kernel) (sp : ℕ) (ops : List Sembuf) (c : Chan) (front : List Sembuf)
    (op : Sembuf) (rest : List Sembuf) : Prop where
  ops : ops = front ++ op :: rest
  why : (c = .ncnt (k.cell sp op.semNum) ∧ op.semOp < 0 ∧
      ((k.sem (k.cell sp op.semNum)).semval : ℤ) + earlier front op.semNum < -op.semOp) ∨
    c = .zcnt (k.cell sp op.semNum) ∧ op.semOp = 0 ∧
      (earlier front op.semNum ≤ 0 → (k.sem (k.cell sp op.semNum)).semval ≠ 0)

/-- What one pass does: it stirs, wakes those for whom it may matter, and sleeps for a reason. -/
theorem semopPass_wakes (hflag : k.Flagged) (hk : k.Ok I) (u : User) (semid : ℤ) (sp : ℕ)
    (ops : List Sembuf) : Wakes k (semopPass I k u semid sp ops).1 ∧
      (semopPass I k u semid sp ops).1.sema = k.sema ∧
      ∀ c, (semopPass I k u semid sp ops).2 = .sleep c →
        ∃ front op rest, Blocked (semopPass I k u semid sp ops).1 sp ops c front op rest := by
  cases hscan : semopScan I u semid sp [] ops k with
  | mk k₂ x =>
    obtain ⟨dn, r⟩ := x
    by_cases hr : r = .done
    · subst hr
      have hpass : semopPass I k u semid sp ops = (k₂, .done) := by
        rw [semopPass, hscan]
      obtain ⟨k', happ, heq⟩ | ⟨dn', k₁, k', op, r, -, hne, -, heq⟩ :=
        semopScan_cases I k u semid sp ops
      · rw [hscan] at heq
        cases heq
        rw [hpass]
        exact ⟨(happ.wakes hflag hk).1, (happ.ok hk).2.1.sema, (by simp)⟩
      · rw [hscan] at heq
        cases heq
        exact absurd rfl hne
    · have hpass : semopPass I k u semid sp ops = ((semundo I u semid sp dn k₂).1, r) := by
        rw [semopPass, hscan]
        cases r with
        | done => exact absurd rfl hr
        | fail e => rfl
        | sleep c => rfl
      obtain ⟨-, hstop⟩ := semopScan_stop hk hr hscan
      obtain ⟨front, op, rest, k₁, rfl, rfl, happ, hop⟩ := semopScan_stops .nil hr hscan
      rw [append_nil] at happ hstop hpass
      obtain ⟨hw, hval⟩ := happ.wakes hflag hk
      have hkeep := (happ.ok hk).2.1
      have hundo : Wakes k₁ k₂ := by
        obtain ⟨t, rfl⟩ := semopOne_stop_undo hr hop
        exact undo_wakes k₁ t
      rw [hpass]
      refine ⟨((hw.toStir.trans hundo.toStir).trans (semundo_stir _)).wakes hstop.semval,
        hstop.sema, fun c hc => ⟨front, op, rest, rfl, ?_⟩⟩
      simp only at hc
      subst hc
      have hcell : k₁.cell sp op.semNum = k.cell sp op.semNum := by
        rw [Kernel.cell, Kernel.cell, hkeep.sema]
      have hcell' : (semundo I u semid sp front.reverse k₂).1.cell sp op.semNum =
          k.cell sp op.semNum := by
        rw [Kernel.cell, Kernel.cell, hstop.sema]
      have hval' := hval op.semNum
      rw [earlier_reverse] at hval'
      rw [hcell', hstop.semval]
      obtain ⟨-, ⟨rfl, hneg, hlt⟩ | ⟨rfl, hzero, hne⟩⟩ := semopOne_sleep hop
      · rw [hcell] at hlt ⊢
        exact .inl ⟨rfl, hneg, by omega⟩
      · rw [hcell] at hne ⊢
        exact .inr ⟨rfl, hzero, fun hle h0 => by omega⟩

/-! ### The counters against the sleepers -/

variable {nproc : ℕ}

/-- Who sleeps on a channel. -/
def Kernel.sleepers (k : Kernel) (nproc : ℕ) (c : Chan) : Finset ℕ :=
  (Finset.range nproc).filter fun p => (k.procs p).waits c

/-- The counters are set where somebody sleeps, and count no more than those who sleep. -/
structure Counted (nproc : ℕ) (k : Kernel) : Prop where
  bound : ∀ p c, (k.procs p).waits c = true → p < nproc
  flagged : k.Flagged
  le : ∀ c, k.cnt c ≤ (k.sleepers nproc c).card

theorem Counted.zero (h : Counted nproc k) (hc : ∀ p, (k.procs p).waits c = false) : k.cnt c = 0 := by
  have hnone : k.sleepers nproc c = ∅ := Finset.filter_false_of_mem fun p _ => by simp [hc p]
  have hle := h.le c
  rw [hnone, Finset.card_empty] at hle
  omega

theorem Counted.stir (h : Counted nproc k) (hs : Stir k k') : Counted nproc k' := by
  refine ⟨fun p c hp => h.bound p c (hs.waits hp), hs.flagged h.flagged, fun c => ?_⟩
  obtain ⟨hcnt, hw⟩ | ⟨hcnt, -⟩ := hs.chan c
  · rw [hcnt]
    refine (h.le c).trans (Finset.card_le_card fun p hp => ?_)
    simpa [Kernel.sleepers, hw] using hp
  · rw [hcnt]
    exact Nat.zero_le _

theorem waits_setProc (st : SemProc) (q : ℕ) : ((k.setProc p st).procs q).waits c =
    if q = p then st.waits c else (k.procs q).waits c := by
  by_cases hq : q = p
  · subst hq
    simp [Kernel.setProc]
  · simp [Kernel.setProc, hq]

theorem cnt_count (c c' : Chan) :
    (k.count c).cnt c' = if c' = c then ushort (k.cnt c + 1) else k.cnt c' := by
  cases c with
  | ncnt x => exact cnt_setSem_ncnt ..
  | zcnt x => exact cnt_setSem_zcnt ..

theorem count_procs (c : Chan) : (k.count c).procs = k.procs := by
  cases c <;> rfl

/-- A process that falls asleep counts itself; the processes are too few for the counter to wrap. -/
theorem Counted.sleep (h : Counted nproc k) (hnproc : nproc ≤ MAXPID) (hp : p < nproc)
    (hrun : ∀ c, (k.procs p).waits c = false) (call : SemopCall) :
    Counted nproc ((k.count c).setProc p (.asleep c call false)) := by
  have hwaits : ∀ q c', (((k.count c).setProc p (.asleep c call false)).procs q).waits c' = true ↔
      q = p ∧ c' = c ∨ (k.procs q).waits c' = true := by
    intro q c'
    rw [waits_setProc, count_procs]
    by_cases hq : q = p
    · subst hq
      rw [if_pos rfl, hrun c']
      simp only [SemProc.waits, decide_eq_true_eq, Bool.false_eq_true, or_false, true_and]
      exact eq_comm
    · simp [hq]
  have hmem : p ∉ k.sleepers nproc c := by simp [Kernel.sleepers, hrun c]
  have hcard : k.cnt c + 1 ≤ nproc := by
    have hle := h.le c
    have hsub : insert p (k.sleepers nproc c) ⊆ Finset.range nproc := by
      refine Finset.insert_subset (Finset.mem_range.2 hp) (Finset.filter_subset _ _)
    have hcard := Finset.card_le_card hsub
    rw [Finset.card_insert_of_notMem hmem, Finset.card_range] at hcard
    omega
  have hcnt : ∀ c', (((k.count c).setProc p (.asleep c call false)).cnt c') =
      if c' = c then k.cnt c + 1 else k.cnt c' := by
    intro c'
    have hset : ((k.count c).setProc p (.asleep c call false)).cnt c' = (k.count c).cnt c' := by
      cases c' <;> rfl
    have hwrap : ushort ((k.cnt c : ℤ) + 1) = k.cnt c + 1 := by
      rw [MAXPID] at hnproc
      unfold ushort
      omega
    rw [hset, cnt_count, hwrap]
  refine ⟨fun q c' hq => ?_, fun q c' hq => ?_, fun c' => ?_⟩
  · obtain ⟨rfl, -⟩ | hq := (hwaits q c').1 hq
    · exact hp
    · exact h.bound q c' hq
  · rw [hcnt]
    split_ifs with hc
    · omega
    · obtain ⟨-, rfl⟩ | hq := (hwaits q c').1 hq
      · exact absurd rfl hc
      · exact h.flagged q c' hq
  · rw [hcnt]
    split_ifs with hc
    · subst hc
      have hins : insert p (k.sleepers nproc c') ⊆
          ((k.count c').setProc p (.asleep c' call false)).sleepers nproc c' := by
        intro q hq
        rw [Finset.mem_insert, Kernel.sleepers, Finset.mem_filter] at hq
        rw [Kernel.sleepers, Finset.mem_filter, hwaits]
        obtain rfl | ⟨hq, hw⟩ := hq
        · exact ⟨Finset.mem_range.2 hp, .inl ⟨rfl, rfl⟩⟩
        · exact ⟨hq, .inr hw⟩
      have := Finset.card_le_card hins
      rw [Finset.card_insert_of_notMem hmem] at this
      have := h.le c'
      omega
    · refine (h.le c').trans (Finset.card_le_card fun q hq => ?_)
      rw [Kernel.sleepers, Finset.mem_filter] at hq ⊢
      exact ⟨hq.1, (hwaits q c').2 (.inr hq.2)⟩

/-- What an interrupted sleeper does: it clears the counter and wakes the others, or counts itself
off. -/
theorem uncount_cases (c : Chan) : (k.cnt c ≤ 1 ∧ Stir k (k.uncount c) ∧
      ∀ p, ((k.uncount c).procs p).waits c = false) ∨ (1 < k.cnt c ∧ (k.uncount c).procs = k.procs ∧
      ∀ c', (k.uncount c).cnt c' = if c' = c then k.cnt c - 1 else k.cnt c') := by
  cases c with
  | ncnt x =>
    unfold Kernel.uncount
    simp only
    split_ifs with h
    · exact .inl ⟨h, stir_clear (fun c' hc => by rw [cnt_setSem_ncnt, if_neg hc])
        (by rw [cnt_setSem_ncnt, if_pos rfl]), fun p => (waits_wake ..).trans (by simp)⟩
    · exact .inr ⟨not_le.1 h, rfl, fun c' => cnt_setSem_ncnt ..⟩
  | zcnt x =>
    unfold Kernel.uncount
    simp only
    split_ifs with h
    · exact .inl ⟨h, stir_clear (fun c' hc => by rw [cnt_setSem_zcnt, if_neg hc])
        (by rw [cnt_setSem_zcnt, if_pos rfl]), fun p => (waits_wake ..).trans (by simp)⟩
    · exact .inr ⟨not_le.1 h, rfl, fun c' => cnt_setSem_zcnt ..⟩

theorem Counted.intr (h : Counted nproc k) {woken : Bool}
    (hp : k.procs p = .asleep c call woken) : Counted nproc ((k.uncount c).setProc p .running) := by
  have hother : ∀ c', c' ≠ c → (k.procs p).waits c' = false := by
    intro c' hc
    rw [hp]
    cases woken <;> simp [SemProc.waits, Ne.symm hc]
  obtain ⟨-, hstir, hnone⟩ | ⟨hlt, hprocs, hcnt⟩ := uncount_cases (k := k) c
  · refine h.stir (hstir.trans (stir_running fun c' => ?_))
    by_cases hc : c' = c
    · subst hc
      exact hnone p
    · rw [← Bool.not_eq_true]
      intro hw
      have := hstir.waits hw
      rw [hother c' hc] at this
      cases this
  · have hcnt' : ∀ c', ((k.uncount c).setProc p .running).cnt c' =
        if c' = c then k.cnt c - 1 else k.cnt c' := by
      intro c'
      rw [← hcnt]
      cases c' <;> rfl
    have hwaits : ∀ q c', (((k.uncount c).setProc p .running).procs q).waits c' =
        if q = p then false else (k.procs q).waits c' := by
      intro q c'
      rw [waits_setProc, hprocs]
      rfl
    refine ⟨fun q c' hq => ?_, fun q c' hq => ?_, fun c' => ?_⟩
    · rw [hwaits] at hq
      split_ifs at hq
      exact h.bound q c' hq
    · rw [hwaits] at hq
      split_ifs at hq
      rw [hcnt']
      split_ifs
      · omega
      · exact h.flagged q c' hq
    · rw [hcnt']
      split_ifs with hc
      · subst hc
        have hsub : (k.sleepers nproc c').erase p ⊆
            ((k.uncount c').setProc p .running).sleepers nproc c' := by
          intro q hq
          rw [Finset.mem_erase, Kernel.sleepers, Finset.mem_filter] at hq
          rw [Kernel.sleepers, Finset.mem_filter, hwaits, if_neg hq.1]
          exact hq.2
        have hcard := Finset.card_le_card hsub
        have := Finset.pred_card_le_card_erase (s := k.sleepers nproc c') (a := p)
        have := h.le c'
        omega
      · refine (h.le c').trans (Finset.card_le_card fun q hq => ?_)
        rw [Kernel.sleepers, Finset.mem_filter] at hq ⊢
        rw [hwaits]
        have hqp : q ≠ p := by
          rintro rfl
          rw [hother c' hc] at hq
          exact absurd hq.2 (by decide)
        rw [if_neg hqp]
        exact hq

/-! ### Why sleepers sleep -/

/-- A call that sleeps on `c` without a pending wakeup: its set is there, and the operation that
made it sleep could still not be done. -/
structure Parked (I : Seminfo) (k : Kernel) (call : SemopCall) (c : Chan) : Prop where
  conv : semconv I k call.semid = some call.sp
  blocked : ∃ front op rest, Blocked k call.sp call.semops c front op rest ∧
    op.semNum < (k.sema call.sp).semNsems

theorem semconv_congr {s : ℤ} {sp : ℕ} (h : semconv I k s = some sp) (hsema : k'.sema sp = k.sema sp) :
    semconv I k' s = some sp := by
  obtain ⟨hlt, halloc, rfl, -, -⟩ := semconv_spec h
  rw [← Kernel.idOf_congr hsema]
  exact semconv_idOf hlt (hsema ▸ halloc)

/-- The semaphore of a channel. -/
def Chan.cell : Chan → ℕ
  | .ncnt x => x
  | .zcnt x => x

theorem Parked.live (h : Parked I k call c) :
    ∃ num, k.IsLive I call.sp num ∧ c.cell = k.cell call.sp num := by
  obtain ⟨front, op, rest, hb, hlt⟩ := h.blocked
  obtain ⟨hsp, halloc, -⟩ := semconv_spec h.conv
  refine ⟨op.semNum, ⟨hsp, halloc, hlt⟩, ?_⟩
  obtain ⟨rfl, -⟩ | ⟨rfl, -⟩ := hb.why <;> rfl

/-- Neither the set nor the value changes. -/
theorem Parked.congr (h : Parked I k call c) (hsema : k'.sema call.sp = k.sema call.sp)
    (hval : (k'.sem c.cell).semval = (k.sem c.cell).semval) : Parked I k' call c := by
  refine ⟨semconv_congr h.conv hsema, ?_⟩
  obtain ⟨front, op, rest, hb, hlt⟩ := h.blocked
  have hcell : k'.cell call.sp op.semNum = k.cell call.sp op.semNum := Kernel.cell_congr hsema _
  refine ⟨front, op, rest, ⟨hb.ops, ?_⟩, by rw [hsema]; exact hlt⟩
  rw [hcell]
  obtain ⟨rfl, hneg, hlt⟩ | ⟨rfl, hzero, hne⟩ := hb.why
  · rw [Chan.cell] at hval
    rw [hval]
    exact .inl ⟨rfl, hneg, hlt⟩
  · rw [Chan.cell] at hval
    rw [hval]
    exact .inr ⟨rfl, hzero, hne⟩

/-- Who still sleeps after a call that wakes does so for a reason. -/
theorem Parked.wakes (h : Parked I k call c) (hw : Wakes k k')
    (hsema : k'.sema = k.sema) (hp : (k'.procs p).waits c = true) : Parked I k' call c := by
  refine ⟨semconv_congr h.conv (congrFun hsema _), ?_⟩
  obtain ⟨front, op, rest, hb, hlt⟩ := h.blocked
  have hcell : k'.cell call.sp op.semNum = k.cell call.sp op.semNum :=
    Kernel.cell_congr (congrFun hsema _) _
  refine ⟨front, op, rest, ⟨hb.ops, ?_⟩, by rw [hsema]; exact hlt⟩
  rw [hcell]
  obtain ⟨rfl, hneg, hlt⟩ | ⟨rfl, hzero, hne⟩ := hb.why
  · have := hw.ncnt _ p hp
    exact .inl ⟨rfl, hneg, by omega⟩
  · exact .inr ⟨rfl, hzero, fun hle h0 => hne hle (hw.zcnt _ p hp h0)⟩

/-- The counters are right, and who sleeps without a pending wakeup does so for a reason. -/
structure Rested (I : Seminfo) (nproc : ℕ) (k : Kernel) : Prop extends Counted nproc k where
  parked : ∀ p c call, k.procs p = .asleep c call false → Parked I k call c

theorem Rested.wakes (h : Rested I nproc k) (hw : Wakes k k') (hsema : k'.sema = k.sema) :
    Rested I nproc k' := by
  refine ⟨h.toCounted.stir hw.toStir, fun p c call hp => ?_⟩
  exact (h.parked p c call (hw.asleep p c call hp)).wakes hw hsema
    (SemProc.waits_iff.2 ⟨call, hp⟩)

/-- `semget` finds no sleeper at the semaphores that it clears. -/
theorem Rested.semget (h : Rested I nproc k) (hsets : k.SetsOk I) (hget : Semget I k k') :
    Rested I nproc k' := by
  cases hget with
  | same => exact h
  | dead i hother hfree hdead hmap hundo hsem hprocs =>
    have hstir : Stir k k' := .of_eq (fun c => by cases c <;> simp [Kernel.cnt, hsem]) hprocs
    refine ⟨h.toCounted.stir hstir, fun p c call hp => ?_⟩
    have hpark := h.parked p c call (hstir.asleep p c call hp)
    have hne : call.sp ≠ i := by
      rintro rfl
      rw [(semconv_spec hpark.conv).2.1] at hfree
      cases hfree
    exact hpark.congr (hother _ hne) (by rw [hsem])
  | new i n hlt hother hfree halloc hpos hle hmem hbase hnsems hmap hundo hprocs hsem =>
    obtain ⟨-, hfrom, -⟩ := ipcmalloc_spec hsets.map_ok hpos hmem
    have hout : ∀ p c call, k.procs p = .asleep c call false →
        ¬((k'.sema i).semBase ≤ c.cell ∧ c.cell < (k'.sema i).semBase + n) := by
      intro p c call hp hin
      obtain ⟨num, hlive, hcell⟩ := (h.parked p c call hp).live
      rw [hcell] at hin
      exact hsets.not_free _ _ hlive (hfrom _ (by omega) (by omega))
    have hstir : Stir k k' := by
      refine ⟨fun p c call hp => hprocs ▸ hp, fun c => ?_⟩
      by_cases hin : (k'.sema i).semBase ≤ c.cell ∧ c.cell < (k'.sema i).semBase + n
      · refine .inr ⟨?_, fun p => ?_⟩
        · have hzero : k'.sem c.cell = Sem.zero := by rw [hsem, if_pos hin]
          cases c with
          | ncnt x => exact congrArg Sem.semncnt hzero
          | zcnt x => exact congrArg Sem.semzcnt hzero
        · rw [← Bool.not_eq_true, hprocs, SemProc.waits_iff]
          rintro ⟨call, hp⟩
          exact hout p c call hp hin
      · refine .inl ⟨?_, fun p => by rw [hprocs]⟩
        have hsame : k'.sem c.cell = k.sem c.cell := by rw [hsem, if_neg hin]
        cases c with
        | ncnt x => exact congrArg Sem.semncnt hsame
        | zcnt x => exact congrArg Sem.semzcnt hsame
    refine ⟨h.toCounted.stir hstir, fun p c call hp => ?_⟩
    have hp' := hstir.asleep p c call hp
    have hpark := h.parked p c call hp'
    have hne : call.sp ≠ i := by
      rintro rfl
      rw [(semconv_spec hpark.conv).2.1] at hfree
      cases hfree
    exact hpark.congr (hother _ hne) (by rw [hsem, if_neg (hout p c call hp')])

/-- The loop of `IPC_RMID` wakes everybody who sleeps for a semaphore of the set. -/
theorem clearSem_loop (hk : k.Flagged) (base n : ℕ) :
    let k' := (List.range n).foldl (fun k i => k.clearSem (base + i)) k
    Stir k k' ∧ (∀ p c, base ≤ c.cell → c.cell < base + n → (k'.procs p).waits c = false) ∧
      ∀ y, ¬(base ≤ y ∧ y < base + n) → (k'.sem y).semval = (k.sem y).semval := by
  induction n with
  | zero => exact ⟨.refl k, fun p c h1 h2 => by omega, fun _ _ => rfl⟩
  | succ n ih =>
    obtain ⟨hstir, hnone, hval⟩ := ih
    simp only [range_succ, foldl_append, foldl_cons, foldl_nil]
    generalize (List.range n).foldl (fun k i => k.clearSem (base + i)) k = k₁ at hstir hnone hval ⊢
    obtain ⟨hclear, hgone⟩ := clearSem_spec (hstir.flagged hk) (base + n)
    refine ⟨hstir.trans hclear, fun p c h1 h2 => ?_, fun y hy => ?_⟩
    · by_cases hc : c.cell = base + n
      · cases c with
        | ncnt x => exact hc ▸ (hgone p).1
        | zcnt x => exact hc ▸ (hgone p).2
      · rw [← Bool.not_eq_true]
        intro hw
        have := hclear.waits hw
        rw [hnone p c h1 (by omega)] at this
        cases this
    · rw [Kernel.clearSem_semval, if_neg (by omega)]
      exact hval y (by omega)

theorem eachSem_clearSem (hk : k.Flagged) {i : ℕ} {k' : Kernel}
    (h : k.eachSem (fun k x _ => k.clearSem x) i = k') : Stir k k' ∧ k'.sema = k.sema ∧
      (∀ p c, (k.sema i).semBase ≤ c.cell → c.cell < (k.sema i).semBase + (k.sema i).semNsems →
        (k'.procs p).waits c = false) ∧
      ∀ y, ¬((k.sema i).semBase ≤ y ∧ y < (k.sema i).semBase + (k.sema i).semNsems) →
        (k'.sem y).semval = (k.sem y).semval := by
  subst h
  obtain ⟨hstir, hnone, hval⟩ := clearSem_loop hk (k.sema i).semBase (k.sema i).semNsems
  have htouch := Kernel.eachSem_touch (fun k x _ => Kernel.touch_clearSem k x) k i
  exact ⟨hstir, htouch.sema, hnone, hval⟩

theorem Rested.rmid (h : Rested I nproc k) (u : User) (semid : ℤ) :
    Rested I nproc (semRmid I k u semid).1 := by
  unfold semRmid
  cases hi : semconv I k semid with
  | none => exact h
  | some i =>
    simp only
    by_cases hperm : u.uUid ≠ (k.sema i).semPerm.uid ∧ u.uUid ≠ (k.sema i).semPerm.cuid ∧
        u.suser = false
    · rw [if_pos hperm]
      exact h
    rw [if_neg hperm]
    have hundo : Wakes k (k.semunrm semid 0 (k.sema i).semNsems) := undo_wakes ..
    generalize hk₁ : (k.semunrm semid 0 (k.sema i).semNsems).eachSem _ i = k₁
    obtain ⟨hloop, hsema, hnone, hval⟩ := eachSem_clearSem (hundo.flagged h.flagged) hk₁
    have hstir : Stir k k₁ := hundo.toStir.trans hloop
    refine ⟨(h.toCounted.stir hstir).stir (.of_eq (fun c => by cases c <;> rfl) rfl),
      fun p c call hp => ?_⟩
    change k₁.procs p = _ at hp
    have hpark := h.parked p c call (hstir.asleep p c call hp)
    obtain ⟨num, hlive, hcell⟩ := hpark.live
    have hw : (k₁.procs p).waits c = true := SemProc.waits_iff.2 ⟨call, hp⟩
    -- the sleepers of the set were woken, and the other sets keep their semaphores
    have hout : ¬((k.sema i).semBase ≤ c.cell ∧ c.cell < (k.sema i).semBase + (k.sema i).semNsems) := by
      rintro ⟨h1, h2⟩
      have := hnone p c h1 h2
      rw [hw] at this
      cases this
    have hne : call.sp ≠ i := by
      rintro rfl
      have := hlive.num_lt
      rw [hcell, Kernel.cell] at hout
      omega
    refine hpark.congr ?_ (hval _ hout)
    show Function.update k₁.sema i _ call.sp = _
    rw [Function.update_of_ne hne, hsema]
    rfl

/-! ### Steps -/

/-- `semop` from its label `check` on. -/
theorem Rested.semopTry (h : Rested I nproc k) (hok : k.Ok I) (hnproc : nproc ≤ MAXPID)
   (hproc : call.user.proc < nproc) (hrun : ∀ c, (k.procs call.user.proc).waits c = false)
    (hconv : semconv I k call.semid = some call.sp)
    (hfit : ∀ op ∈ call.semops, op.semNum < (k.sema call.sp).semNsems) :
    Rested I nproc (semopTry I k call).1 := by
  obtain ⟨hw, hsema, hwhy⟩ := semopPass_wakes h.flagged hok call.user call.semid call.sp call.semops
  unfold SysV.semopTry
  cases hpass : semopPass I k call.user call.semid call.sp call.semops with
  | mk k₁ r =>
    rw [hpass] at hw hsema hwhy
    have hrun₁ : ∀ c, (k₁.procs call.user.proc).waits c = false := by
      intro c
      rw [← Bool.not_eq_true]
      intro hp
      have := hw.waits hp
      rw [hrun] at this
      cases this
    cases r with
    | done =>
      obtain ⟨htouch, hval⟩ := Kernel.setPids_spec call.user call.sp call.semops k₁
      have hpids := (setPids_stir call.user call.sp call.semops k₁).wakes hval
      exact h.wakes ((hw.trans hpids).running hrun) (htouch.sema.trans hsema)
    | fail e => exact h.wakes (hw.running hrun) hsema
    | sleep c =>
      have h₁ := h.wakes hw hsema
      refine ⟨h₁.toCounted.sleep hnproc hproc hrun₁ call, fun p c' call' hp => ?_⟩
      have hvals : ∀ y, (((k₁.count c).setProc call.user.proc (.asleep c call false)).sem y).semval =
          (k₁.sem y).semval := fun y => k₁.count_semval c y
      have hsets : ((k₁.count c).setProc call.user.proc (.asleep c call false)).sema = k₁.sema := by
        cases c <;> rfl
      by_cases hpc : p = call.user.proc
      · subst hpc
        simp only [Kernel.setProc, Function.update_self, SemProc.asleep.injEq] at hp
        obtain ⟨rfl, rfl, -⟩ := hp
        obtain ⟨front, op, rest, hb⟩ := hwhy c rfl
        have hpark : Parked I k₁ call c := by
          refine ⟨semconv_congr hconv (congrFun hsema _), front, op, rest, hb, ?_⟩
          rw [hsema]
          exact hfit op (by rw [hb.ops]; simp)
        exact hpark.congr (congrFun hsets _) (hvals _)
      · simp only [Kernel.setProc, Function.update_of_ne hpc, count_procs] at hp
        exact (h₁.parked p c' call' hp).congr (congrFun hsets _) (hvals _)

theorem Rested.intr (h : Rested I nproc k) {woken : Bool} (hp : k.procs p = .asleep c call woken) :
    Rested I nproc ((k.uncount c).setProc p .running) := by
  refine ⟨h.toCounted.intr hp, fun q c' call' hq => ?_⟩
  have hq' : k.procs q = .asleep c' call' false := by
    by_cases hqp : q = p
    · subst hqp
      simp [Kernel.setProc] at hq
    · simp only [Kernel.setProc, Function.update_of_ne hqp] at hq
      obtain ⟨-, hstir, -⟩ | ⟨-, hprocs, -⟩ := uncount_cases (k := k) c
      · exact hstir.asleep q c' call' hq
      · rwa [hprocs] at hq
  exact (h.parked q c' call' hq').congr (congrFun (k.touch_uncount c).sema _)
    (k.uncount_semval c _)

theorem SemctlSet.sema {semid : ℤ} {P : ℕ → ℕ → ℕ → Prop} {x : Kernel × Option Errno}
    (h : SemctlSet I k semid P x) : x.1.sema = k.sema := by
  cases h with
  | same e => rfl
  | set i low high hi hP hkeep hundo hval => exact hkeep.sema

/-- The process that acts. -/
def SemAct.proc : SemAct → ℕ
  | .semget u _ _ _ => u.proc
  | .rmid u _ => u.proc
  | .setval u _ _ _ => u.proc
  | .setall u _ _ => u.proc
  | .semop u _ _ => u.proc
  | .resume p => p
  | .intr p => p
  | .exit u => u.proc

/-- The process that acts is in the process table.  A call that `semconv` lets go on after its sleep
finds its semaphores in the set. -/
def Kernel.Fits (I : Seminfo) (nproc : ℕ) (k : Kernel) (a : SemAct) : Prop :=
  a.proc < nproc ∧ match a with
    | .resume p => ∀ c call, k.procs p = .asleep c call true → semconv I k call.semid ≠ none →
      ∀ op ∈ call.semops, op.semNum < (k.sema call.sp).semNsems
    | _ => True

theorem semopCheck_fits {ds : SemidDs} {ops : List Sembuf} (h : semopCheck u ds ops = none) :
    ∀ op ∈ ops, op.semNum < ds.semNsems := by
  intro op hop
  have := findSome?_eq_none_iff.1 h op hop
  rw [Option.or_eq_none_iff] at this
  by_contra hge
  rw [if_pos (not_lt.1 hge)] at this
  cases this.2

theorem Rested.step (h : Rested I nproc k) (hinv : k.Inv I) (hnproc : nproc ≤ MAXPID) {a : SemAct}
    (hfits : k.Fits I nproc a) (hs : k.step I a = some k') : Rested I nproc k' := by
  have hrunning : ∀ {p}, k.procs p = .running → ∀ c, (k.procs p).waits c = false := by
    intro p hp c
    rw [hp]
    rfl
  cases a with
  | semget u key nsems semflg =>
    simp only [Kernel.step] at hs
    split at hs <;> cases hs
    exact h.semget hinv.sets (semget_cases I k u key nsems semflg)
  | rmid u semid =>
    simp only [Kernel.step] at hs
    split at hs <;> cases hs
    exact h.rmid u semid
  | setval u semid semnum arg =>
    simp only [Kernel.step] at hs
    split at hs <;> cases hs
    exact h.wakes (semSetval_wakes h.flagged u semid semnum arg) (semSetval_cases ..).sema
  | setall u semid semvals =>
    simp only [Kernel.step] at hs
    split at hs <;> cases hs
    exact h.wakes (semSetall_wakes h.flagged u semid semvals) (semSetall_cases ..).sema
  | semop u semid ops =>
    simp only [Kernel.step] at hs
    split at hs <;> cases hs
    rename_i hrun
    unfold SysV.semop
    split_ifs
    · exact h
    · cases hi : semconv I k semid with
      | none => exact h
      | some sp =>
        simp only
        cases hcheck : semopCheck u (k.sema sp) ops with
        | some e => exact h
        | none =>
          exact h.semopTry hinv.toOk hnproc hfits.1 (hrunning hrun) hi (semopCheck_fits hcheck)
  | resume p =>
    simp only [Kernel.step] at hs
    split at hs <;> cases hs
    rename_i c call hp
    obtain ⟨hproc, hsp⟩ := hinv.calls p c call (by rw [hp]; rfl)
    have hrun : ∀ c', (k.procs call.user.proc).waits c' = false := by
      intro c'
      rw [hproc, hp]
      rfl
    unfold semopAgain
    cases hi : semconv I k call.semid with
    | none => exact h.wakes ((Wakes.refl k).running hrun) rfl
    | some sp =>
      have hspeq : sp = call.sp := by rw [hsp, (semconv_spec hi).2.2.2.1]
      subst hspeq
      refine h.semopTry hinv.toOk hnproc (hproc ▸ hfits.1) hrun hi ?_
      exact hfits.2 c call hp (by rw [hi]; simp)
  | intr p =>
    simp only [Kernel.step] at hs
    split at hs <;> cases hs
    rename_i c call woken hp
    exact h.intr hp
  | exit u =>
    simp only [Kernel.step] at hs
    split at hs <;> cases hs
    refine h.wakes (semexit_wakes h.flagged u) (semexit_sema u)

/-! ### The theorem -/

/-- The counters and the sleepers agree, and nobody sleeps whose operation could be done. -/
structure NoLostWakeup (k : Kernel) : Prop where
  /-- Where a process sleeps the counter is set. -/
  set : ∀ p c call, k.procs p = .asleep c call false → 0 < k.cnt c
  /-- Where nobody sleeps it is zero. -/
  clear : ∀ c, (∀ p call, k.procs p ≠ .asleep c call false) → k.cnt c = 0
  /-- The value that a process waits for, after the operations of its array before that one, has
  not come. -/
  sleeps : ∀ p c call, k.procs p = .asleep c call false →
    ∃ front op rest, Blocked k call.sp call.semops c front op rest

end SysV

end Hpux
