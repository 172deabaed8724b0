import Hpux910.Sys.SemopAtomic

/-!
# The semaphore sets in every run

What holds of the sets, of the allocation map and of the undo table in every reachable state,
whatever the processes do: live sets have disjoint ranges of `sem[]` that are not free, and the
undo table is well formed.

* `semconv_spec` : an id names a live set.
* `Kernel.SetsOk` : the invariant of the sets.
* `Semget`, `SemctlSet`, `Rmid`, `SemopTried` : what the calls do.
* `reach_ok` : the invariant of the whole facility.
-/

namespace Hpux

namespace SysV

/-- The id of the set at `i`. -/
def Kernel.idOf (I : Seminfo) (k : Kernel) (i : ℕ) : ℤ := (k.sema i).semPerm.seq * I.semmni + i

/-- The semaphore `num` of the set at `i` exists. -/
structure Kernel.IsLive (I : Seminfo) (k : Kernel) (i num : ℕ) : Prop where
  lt : i < I.semmni
  alloc : (k.sema i).semPerm.ipcAlloc = true
  num_lt : num < (k.sema i).semNsems

/-- The index of a semaphore in `sem[]`. -/
def Kernel.cell (k : Kernel) (i num : ℕ) : ℕ := (k.sema i).semBase + num

variable {I : Seminfo} {k k' : Kernel} {i : ℕ}

/-- An id that `semconv` accepts is that of an allocated set. -/
theorem semconv_spec {s : ℤ} (h : semconv I k s = some i) :
    i < I.semmni ∧ (k.sema i).semPerm.ipcAlloc = true ∧ s = k.idOf I i ∧
      i = (s % I.semmni).toNat ∧ 0 ≤ s := by
  have hpos := I.semmni_pos
  unfold semconv at h
  simp only at h
  split_ifs at h with hbad
  cases h
  simp only [not_or, not_lt, Bool.not_eq_false, ne_eq, not_not] at hbad
  obtain ⟨h0, halloc, hseq⟩ := hbad
  have hmod := Int.emod_nonneg s (b := I.semmni) (by omega)
  have hlt := Int.emod_lt_of_pos s (b := I.semmni) (by omega)
  refine ⟨by omega, halloc, ?_, rfl, h0⟩
  rw [Kernel.idOf, ← hseq, Int.toNat_of_nonneg hmod]
  exact (Int.ediv_mul_add_emod s I.semmni).symm

theorem semconv_idOf (hi : i < I.semmni) (halloc : (k.sema i).semPerm.ipcAlloc = true) :
    semconv I k (k.idOf I i) = some i := by
  have hpos := I.semmni_pos
  have hmod : (k.idOf I i % I.semmni).toNat = i := by
    rw [Kernel.idOf, Int.add_comm, Int.add_mul_emod_self_right, Int.emod_eq_of_lt (by omega) (by omega)]
    rfl
  have hdiv : k.idOf I i / I.semmni = (k.sema i).semPerm.seq := by
    rw [Kernel.idOf, Int.add_comm, Int.add_mul_ediv_right _ _ (by omega),
      Int.ediv_eq_zero_of_lt (by omega) (by omega), Int.zero_add]
  have hnonneg : ¬k.idOf I i < 0 := by
    have : (0 : ℤ) ≤ (k.sema i).semPerm.seq * I.semmni := Int.mul_nonneg (by omega) (by omega)
    rw [Kernel.idOf]
    omega
  unfold semconv
  simp only [hmod, hdiv]
  rw [if_neg]
  simp [hnonneg, halloc]

theorem Kernel.idOf_inj {i j : ℕ} (hi : i < I.semmni) (hj : j < I.semmni)
    (h : k.idOf I i = k'.idOf I j) : i = j := by
  have hmod : ∀ (k : Kernel) (i : ℕ), i < I.semmni → k.idOf I i % I.semmni = i := fun k i hi => by
    rw [Kernel.idOf, Int.add_comm, Int.add_mul_emod_self_right, Int.emod_eq_of_lt (by omega) (by omega)]
  have := (hmod k i hi).symm.trans ((congrArg (· % (I.semmni : ℤ)) h).trans (hmod k' j hj))
  exact_mod_cast this

/-! ### The invariant of the sets -/

/-- Live sets have disjoint ranges of semaphores, and these are not free. -/
structure Kernel.SetsOk (I : Seminfo) (k : Kernel) : Prop where
  map_ok : segSpans.Ok k.semmap.segs
  nsems_pos : ∀ i, i < I.semmni → (k.sema i).semPerm.ipcAlloc = true → 0 < (k.sema i).semNsems
  nsems_le : ∀ i, i < I.semmni → (k.sema i).semPerm.ipcAlloc = true → (k.sema i).semNsems ≤ I.semmsl
  not_free : ∀ i num, k.IsLive I i num → k.cell i num + 1 ∉ units k.semmap.segs
  inj : ∀ i num i' num', k.IsLive I i num → k.IsLive I i' num' →
    k.cell i num = k.cell i' num' → i = i' ∧ num = num'

theorem Kernel.IsLive.congr (hsema : k'.sema = k.sema) {i num : ℕ} :
    k'.IsLive I i num ↔ k.IsLive I i num := by
  constructor
  · rintro ⟨h1, h2, h3⟩
    exact ⟨h1, hsema ▸ h2, hsema ▸ h3⟩
  · rintro ⟨h1, h2, h3⟩
    exact ⟨h1, hsema ▸ h2, hsema ▸ h3⟩

theorem Kernel.idOf_congr (h : k'.sema i = k.sema i) : k'.idOf I i = k.idOf I i := by
  rw [Kernel.idOf, Kernel.idOf, h]

theorem Kernel.cell_congr (h : k'.sema i = k.sema i) (num : ℕ) : k'.cell i num = k.cell i num := by
  rw [Kernel.cell, Kernel.cell, h]

theorem Kernel.SetsOk.congr (hk : k.SetsOk I) (hsema : k'.sema = k.sema)
    (hmap : k'.semmap = k.semmap) : k'.SetsOk I := by
  obtain ⟨h1, h0, h2, h3, h4⟩ := hk
  have hlive : ∀ i num, k'.IsLive I i num → k.IsLive I i num := fun i num h =>
    ⟨h.lt, hsema ▸ h.alloc, hsema ▸ h.num_lt⟩
  refine ⟨hmap ▸ h1, by rwa [hsema], by rwa [hsema], fun i num h => ?_, fun i num i' num' h h' heq => ?_⟩
  · rw [hmap]
    have := h3 i num (hlive i num h)
    rwa [Kernel.cell, ← hsema] at this
  · refine h4 i num i' num' (hlive i num h) (hlive i' num' h') ?_
    rwa [Kernel.cell, Kernel.cell, ← hsema]

/-- The sleeping calls name their set by its index. -/
def Kernel.CallsOk (I : Seminfo) (k : Kernel) : Prop :=
  ∀ p c call, (k.procs p).call = some (c, call) →
    call.user.proc = p ∧ call.sp = (call.semid % I.semmni).toNat

theorem Kernel.CallsOk.congr (h : k.CallsOk I) (hcall : ∀ p, (k'.procs p).call = (k.procs p).call) :
    k'.CallsOk I := fun p c call hp => h p c call (by rw [← hcall, hp])

/-- The invariant of the facility. -/
structure Kernel.Inv (I : Seminfo) (k : Kernel) : Prop extends k.Ok I where
  sets : k.SetsOk I
  calls : k.CallsOk I

theorem seminit_inv (I : Seminfo) : (seminit I).Inv I where
  toOk := seminit_ok I
  sets :=
    { map_ok := by
        simp only [seminit, ipcmfree, mfreeHere]
        split_ifs with h1 h2
        · exact Spans.ok_nil
        · exact Spans.ok_nil
        · exact Spans.ok_cons.2 ⟨by simp only [segSpans_lo, segSpans_hi]; omega, by simp, Spans.ok_nil⟩
      nsems_pos := fun i _ h => by cases h
      nsems_le := fun i _ h => by cases h
      not_free := fun i num h => by cases h.alloc
      inj := fun i num i' num' h => by cases h.alloc }
  calls p c call h := by cases h

/-! ### Loops over the semaphores of a set -/

theorem Kernel.eachSem_touch {f : Kernel → ℕ → ℕ → Kernel} (hf : ∀ (k : Kernel) x i, k.Touch (f k x i))
    (k : Kernel) (sp : ℕ) : k.Touch (k.eachSem f sp) := by
  unfold Kernel.eachSem
  generalize (k.sema sp).semBase = base
  generalize List.range (k.sema sp).semNsems = l
  induction l generalizing k with
  | nil => exact .refl k
  | cons i l ih => exact (hf k (base + i) i).trans (ih _)

theorem Kernel.eachSem_semval {f : Kernel → ℕ → ℕ → Kernel} (k : Kernel) (sp : ℕ)
    (hf : ∀ (k' : Kernel) x i, i < (k.sema sp).semNsems → (∀ y, (k'.sem y).semval < 65536) →
      ∀ y, ((f k' x i).sem y).semval < 65536)
    (hk : ∀ y, (k.sem y).semval < 65536) : ∀ y, ((k.eachSem f sp).sem y).semval < 65536 := by
  unfold Kernel.eachSem
  have hl : ∀ i ∈ List.range (k.sema sp).semNsems, i < (k.sema sp).semNsems := by simp
  generalize (k.sema sp).semBase = base
  generalize List.range (k.sema sp).semNsems = l at hl
  generalize hk₀ : k = k₀ at hk ⊢
  rw [hk₀] at hf hl
  clear hk₀
  generalize hn : (k₀.sema sp).semNsems = n at hf hl
  clear hn
  induction l generalizing k₀ with
  | nil => exact hk
  | cons i l ih =>
    exact ih _ (hf k₀ (base + i) i (hl i (by simp)) hk) fun j hj => hl j (by simp [hj])

theorem Kernel.touch_clearSem (k : Kernel) (x : ℕ) : k.Touch (k.clearSem x) :=
  ((k.touch_setSem x _).trans (touch_wakeN _ x)).trans (touch_wakeZ _ x)

theorem Kernel.touch_putVal (k : Kernel) (u : User) (x v : ℕ) : k.Touch (k.putVal u x v) := by
  unfold Kernel.putVal
  simp only
  split_ifs
  · exact (k.touch_setSem x _).trans (touch_wakeN _ x)
  · exact (k.touch_setSem x _).trans (touch_wakeZ _ x)

theorem Kernel.clearSem_semval (k : Kernel) (x y : ℕ) :
    ((k.clearSem x).sem y).semval = if y = x then 0 else (k.sem y).semval := by
  unfold Kernel.clearSem
  by_cases hy : y = x
  · subst hy; simp
  · simp [hy]

theorem Kernel.putVal_semval (k : Kernel) (u : User) (x v y : ℕ) :
    ((k.putVal u x v).sem y).semval = if y = x then v else (k.sem y).semval := by
  unfold Kernel.putVal
  simp only
  split_ifs with h1 h2 h2
  · subst h2; simp
  · simp [h2]
  · subst h2; simp
  · simp [h2]

/-! ### What the calls do -/

/-- What `semget` can do: nothing, spoil a free slot, or make a set. -/
inductive Semget (I : Seminfo) (k : Kernel) : Kernel → Prop
  | same : Semget I k k
  | dead (i : ℕ) {k' : Kernel} (hother : ∀ j, j ≠ i → k'.sema j = k.sema j)
      (hfree : (k.sema i).semPerm.ipcAlloc = false) (hdead : (k'.sema i).semPerm.ipcAlloc = false)
      (hmap : k'.semmap = k.semmap) (hundo : k'.undo = k.undo) (hsem : k'.sem = k.sem)
      (hprocs : k'.procs = k.procs) : Semget I k k'
  | new (i n : ℕ) {k' : Kernel} (hlt : i < I.semmni) (hother : ∀ j, j ≠ i → k'.sema j = k.sema j)
      (hfree : (k.sema i).semPerm.ipcAlloc = false) (halloc : (k'.sema i).semPerm.ipcAlloc = true)
      (hpos : 0 < n) (hle : n ≤ I.semmsl) (hmem : (ipcmalloc k.semmap n).1 ≠ 0)
      (hbase : (k'.sema i).semBase + 1 = (ipcmalloc k.semmap n).1)
      (hnsems : (k'.sema i).semNsems = n) (hmap : k'.semmap = (ipcmalloc k.semmap n).2)
      (hundo : k'.undo = k.undo) (hprocs : k'.procs = k.procs)
      (hsem : ∀ y, k'.sem y = if (k'.sema i).semBase ≤ y ∧ y < (k'.sema i).semBase + n then Sem.zero
        else k.sem y) : Semget I k k'

theorem semget_cases (I : Seminfo) (k : Kernel) (u : User) (key nsems : ℤ) (semflg : GetFlag) :
    Semget I k (semget I k u key nsems semflg).1 := by
  unfold semget
  cases hget : ipcgetperm key semflg (fun i => (k.sema i).semPerm) I.semmni with
  | error e => exact .same
  | ok y =>
    obtain ⟨i, status⟩ := y
    cases status with
    | false =>
      simp only
      split_ifs <;> exact .same
    | true =>
      obtain ⟨hlt, hfree⟩ := ipcgetperm_new hget
      simp only
      by_cases hbad : nsems ≤ 0 ∨ nsems > I.semmsl
      · rw [if_pos hbad]
        exact .dead i (fun j hj => by simp [hj]) hfree (by simp) rfl rfl rfl rfl
      rw [if_neg hbad]
      by_cases hmem : (ipcmalloc k.semmap nsems.toNat).1 = 0
      · rw [if_pos hmem]
        exact .dead i (fun j hj => by simp [hj]) hfree (by simp) rfl rfl rfl rfl
      · rw [if_neg hmem]
        refine .new i nsems.toNat hlt (fun j hj => by simp [hj]) hfree ?_ (by omega) (by omega) hmem
          ?_ ?_ rfl rfl rfl fun y => ?_
        · simp [IpcPerm.init]
        · simp only [Function.update_self]
          omega
        · simp
        · simp

/-- What `semctl(IPC_RMID)` can do: nothing, or remove the set at `i`. -/
inductive Rmid (I : Seminfo) (k : Kernel) (semid : ℤ) : Kernel → Prop
  | same : Rmid I k semid k
  | gone (i : ℕ) {k' : Kernel} (hi : semconv I k semid = some i)
      (hundo : k'.undo = semunrm semid 0 (k.sema i).semNsems k.undo)
      (hcall : ∀ p, (k'.procs p).call = (k.procs p).call)
      (hval : (∀ y, (k.sem y).semval < 65536) → ∀ y, (k'.sem y).semval < 65536)
      (hmap : k'.semmap = ipcmfree k.semmap (k.sema i).semNsems ((k.sema i).semBase + 1))
      (hother : ∀ j, j ≠ i → k'.sema j = k.sema j)
      (hdead : (k'.sema i).semPerm.ipcAlloc = false) : Rmid I k semid k'

theorem semRmid_cases (I : Seminfo) (k : Kernel) (u : User) (semid : ℤ) :
    Rmid I k semid (semRmid I k u semid).1 := by
  unfold semRmid
  cases hi : semconv I k semid with
  | none => exact .same
  | some i =>
    simp only
    by_cases hperm : u.uUid ≠ (k.sema i).semPerm.uid ∧ u.uUid ≠ (k.sema i).semPerm.cuid ∧
        u.suser = false
    · rw [if_pos hperm]
      exact .same
    rw [if_neg hperm]
    have htouch := Kernel.eachSem_touch (f := fun k x _ => k.clearSem x)
      (fun k x _ => k.touch_clearSem x) (k.semunrm semid 0 (k.sema i).semNsems) i
    refine .gone i hi htouch.undo htouch.call (fun hk y => ?_) ?_ (fun j hj => ?_) ?_
    · refine Kernel.eachSem_semval (k.semunrm semid 0 (k.sema i).semNsems) i
        (f := fun k x _ => k.clearSem x) (fun k x _ _ hk y => ?_) hk y
      rw [Kernel.clearSem_semval]
      split_ifs
      · decide
      · exact hk y
    · show ipcmfree (Kernel.eachSem _ _ i).semmap _ _ = _
      rw [htouch.semmap]
      rfl
    · show Function.update (Kernel.eachSem _ _ i).sema i _ j = _
      rw [Function.update_of_ne hj, htouch.sema]
      rfl
    · simp

/-- What `semctl(SETVAL)` and `semctl(SETALL)` can do: nothing, or set some semaphores of the set
at `i` and remove the entries for them. -/
inductive SemctlSet (I : Seminfo) (k : Kernel) (semid : ℤ) (P : ℕ → ℕ → ℕ → Prop) :
    Kernel × Option Errno → Prop
  | same (e : Errno) : SemctlSet I k semid P (k, some e)
  | set (i low high : ℕ) {k' : Kernel} (hi : semconv I k semid = some i) (hP : P i low high)
      (hkeep : k.Keeps k') (hundo : k'.undo = semunrm semid low high k.undo)
      (hval : (∀ y, (k.sem y).semval < 65536) → ∀ y, (k'.sem y).semval < 65536) :
      SemctlSet I k semid P (k', none)

theorem semSetval_cases (I : Seminfo) (k : Kernel) (u : User) (semid : ℤ) (semnum arg : ℕ) :
    SemctlSet I k semid (fun i low high => low = semnum ∧ high = semnum ∧
      semnum < (k.sema i).semNsems) (semSetval I k u semid semnum arg) := by
  have hvmx := I.semvmx_lt
  unfold semSetval
  cases hi : semconv I k semid with
  | none => exact .same _
  | some i =>
    simp only
    cases ipcaccess u (k.sema i).semPerm SEM_A with
    | some e => exact .same e
    | none =>
      simp only
      split_ifs with hnum harg
      · exact .same _
      · exact .same _
      · have htouch := k.touch_putVal u ((k.sema i).semBase + semnum) arg
        refine .set i semnum semnum hi ⟨rfl, rfl, by omega⟩ ⟨htouch.sema, htouch.semmap, htouch.call⟩ ?_
          fun hk y => ?_
        · simp only [Kernel.semunrm, htouch.undo]
        · show ((k.putVal u _ arg).sem y).semval < 65536
          rw [Kernel.putVal_semval]
          split_ifs
          · omega
          · exact hk y

theorem semSetall_cases (I : Seminfo) (k : Kernel) (u : User) (semid : ℤ) (semvals : ℕ → ℕ) :
    SemctlSet I k semid (fun i low high => low = 0 ∧ high = (k.sema i).semNsems)
      (semSetall I k u semid semvals) := by
  have hvmx := I.semvmx_lt
  unfold semSetall
  cases hi : semconv I k semid with
  | none => exact .same _
  | some i =>
    simp only
    cases ipcaccess u (k.sema i).semPerm SEM_A with
    | some e => exact .same e
    | none =>
      simp only
      split_ifs with hbig
      · exact .same _
      · have htouch := Kernel.eachSem_touch (f := fun k x i => k.putVal u x (semvals i))
          (fun k x i => k.touch_putVal u x _) (k.semunrm semid 0 (k.sema i).semNsems) i
        refine .set i 0 _ hi ⟨rfl, rfl⟩ ⟨htouch.sema, htouch.semmap, htouch.call⟩ htouch.undo
          fun hk y => ?_
        refine Kernel.eachSem_semval (k.semunrm semid 0 (k.sema i).semNsems) i
          (f := fun k x i => k.putVal u x (semvals i)) (fun k' x j hj hk y => ?_) hk y
        have hsmall : ¬semvals j > I.semvmx := fun h => hbig ⟨j, hj, h⟩
        rw [Kernel.putVal_semval]
        split_ifs
        · omega
        · exact hk y

/-! ### What `semop` does -/

theorem Kernel.touch_count (k : Kernel) (c : Chan) : k.Touch (k.count c) := by
  cases c <;> exact k.touch_setSem _ _

theorem Kernel.touch_uncount (k : Kernel) (c : Chan) : k.Touch (k.uncount c) := by
  unfold Kernel.uncount
  cases c with
  | ncnt x =>
    simp only
    split_ifs
    · exact (k.touch_setSem x _).trans (touch_wakeup _ _)
    · exact k.touch_setSem x _
  | zcnt x =>
    simp only
    split_ifs
    · exact (k.touch_setSem x _).trans (touch_wakeup _ _)
    · exact k.touch_setSem x _

theorem Kernel.setSem_semval {k : Kernel} {x : ℕ} {s : Sem} (h : s.semval = (k.sem x).semval) (y : ℕ) :
    ((k.setSem x s).sem y).semval = (k.sem y).semval := by
  by_cases hy : y = x
  · subst hy; simpa using h
  · simp [hy]

@[simp] theorem Kernel.count_semval (k : Kernel) (c : Chan) (y : ℕ) :
    ((k.count c).sem y).semval = (k.sem y).semval := by
  cases c <;> exact Kernel.setSem_semval (by rfl) y

@[simp] theorem Kernel.uncount_semval (k : Kernel) (c : Chan) (y : ℕ) :
    ((k.uncount c).sem y).semval = (k.sem y).semval := by
  unfold Kernel.uncount
  cases c with
  | ncnt x =>
    simp only
    split_ifs <;> exact Kernel.setSem_semval (by rfl) y
  | zcnt x =>
    simp only
    split_ifs <;> exact Kernel.setSem_semval (by rfl) y

theorem Kernel.setPids_spec (u : User) (sp : ℕ) (ops : List Sembuf) (k : Kernel) :
    k.Touch (k.setPids u sp ops) ∧ ∀ y, ((k.setPids u sp ops).sem y).semval = (k.sem y).semval := by
  unfold Kernel.setPids
  induction ops generalizing k with
  | nil => exact ⟨.refl k, fun _ => rfl⟩
  | cons op ops ih =>
    obtain ⟨h1, h2⟩ := ih (k.setSem ((k.sema sp).semBase + op.semNum)
      { k.sem ((k.sema sp).semBase + op.semNum) with sempid := ushort u.pid })
    exact ⟨(k.touch_setSem _ _).trans h1, fun y => (h2 y).trans (Kernel.setSem_semval (by rfl) y)⟩

/-- `k'` is `k` except for the counters, who was woken, and where the caller stands. -/
structure LeavesAt (call : SemopCall) (k k' : Kernel) : Prop where
  sema : k'.sema = k.sema
  semmap : k'.semmap = k.semmap
  undo : k'.undo = k.undo
  semval : ∀ x, (k'.sem x).semval = (k.sem x).semval
  call : ∀ q, (k'.procs q).call = (k.procs q).call ∨ q = call.user.proc ∧
    ((k'.procs q).call = none ∨ ∃ c, (k'.procs q).call = some (c, call))

variable {call : SemopCall}

theorem LeavesAt.of_touch (h : k.Touch k')
    (hval : ∀ x, (k'.sem x).semval = (k.sem x).semval) {st : SemProc}
    (hst : st.call = none ∨ ∃ c, st.call = some (c, call)) :
    LeavesAt call k (k'.setProc call.user.proc st) := by
  refine ⟨h.sema, h.semmap, h.undo, hval, fun q => ?_⟩
  by_cases hq : q = call.user.proc
  · subst hq
    exact .inr ⟨rfl, by simpa [Kernel.setProc] using hst⟩
  · exact .inl (by simpa [Kernel.setProc, hq] using h.call q)

/-- What `semop` can do from its label `check` on. -/
inductive Tried (I : Seminfo) (k : Kernel) (call : SemopCall) : Kernel → Prop
  | stop {k₁ k' : Kernel}
      (hpass : (semopPass I k call.user call.semid call.sp call.semops).2 ≠ .done)
      (hstop : PassStop I call.user k k₁) (hat : LeavesAt call k₁ k') : Tried I k call k'
  | done {k₁ k' : Kernel}
      (hpass : (semopPass I k call.user call.semid call.sp call.semops).2 = .done)
      (happ : Applied I call.user call.semid call.sp k call.semops.reverse k₁)
      (hat : LeavesAt call k₁ k') : Tried I k call k'

theorem semopTry_cases (hk : k.Ok I) (call : SemopCall) : Tried I k call (semopTry I k call).1 := by
  unfold semopTry
  cases hp : semopPass I k call.user call.semid call.sp call.semops with
  | mk k₁ r =>
    have hstop : r ≠ .done → PassStop I call.user k k₁ := fun hr => by
      have : PassStop I call.user k (semopPass I k call.user call.semid call.sp call.semops).1 :=
        semopPass_stop hk (by rwa [hp])
      rwa [hp] at this
    cases r with
    | done =>
      obtain ⟨htouch, hval⟩ := Kernel.setPids_spec call.user call.sp call.semops k₁
      refine .done (by rw [hp]) ?_ (.of_touch htouch hval (.inl rfl))
      rcases semopScan_cases I k call.user call.semid call.sp call.semops with
        ⟨k₂, happ, hscan⟩ | ⟨dn', k₂, k₃, op, r, -, hr, -, hscan⟩
      · rw [semopPass, hscan] at hp
        cases hp
        exact happ
      · rw [semopPass, hscan] at hp
        cases r with
        | done => exact absurd rfl hr
        | fail e => cases hp
        | sleep c => cases hp
    | fail e =>
      exact .stop (by rw [hp]; simp) (hstop (by simp)) (.of_touch (.refl _) (fun _ => rfl) (.inl rfl))
    | sleep c =>
      exact .stop (by rw [hp]; simp) (hstop (by simp))
        (.of_touch (k₁.touch_count c) (k₁.count_semval c) (.inr ⟨c, rfl⟩))

/-! ### Every run -/

theorem Kernel.Inv.leavesAt {k₁ : Kernel} (hk : k.Inv I) (hok : k₁.Ok I)
    (hkeep : k.Keeps k₁) (hat : LeavesAt call k₁ k')
    (hsp : call.sp = (call.semid % I.semmni).toNat) : k'.Inv I where
  undo := hat.undo ▸ hok.undo
  semval x := hat.semval x ▸ hok.semval x
  sets := hk.sets.congr (hat.sema.trans hkeep.sema) (hat.semmap.trans hkeep.semmap)
  calls q c call' hq := by
    rcases hat.call q with heq | ⟨rfl, hnone | ⟨c', hsome⟩⟩
    · exact hk.calls q c call' (by rw [← hkeep.call q, ← heq, hq])
    · rw [hq] at hnone
      cases hnone
    · rw [hq] at hsome
      cases hsome
      exact ⟨rfl, hsp⟩

theorem Kernel.Inv.tried (hk : k.Inv I) (h : Tried I k call k')
    (hsp : call.sp = (call.semid % I.semmni).toNat) : k'.Inv I := by
  cases h with
  | stop _ hstop hat => exact hk.leavesAt hstop.ok hstop.toKeeps hat hsp
  | done _ happ hat =>
    obtain ⟨hok, hkeep, -, -⟩ := happ.ok hk.toOk
    exact hk.leavesAt hok hkeep hat hsp

theorem Kernel.Inv.semget (hk : k.Inv I) (h : Semget I k k') : k'.Inv I := by
  cases h with
  | same => exact hk
  | dead i hother hfree hdead hmap hundo hsem hprocs =>
    have hne : ∀ j, (k'.sema j).semPerm.ipcAlloc = true → k'.sema j = k.sema j := fun j hj => by
      refine hother j ?_
      rintro rfl
      rw [hdead] at hj
      cases hj
    have hlive : ∀ j num, k'.IsLive I j num → k.IsLive I j num := fun j num h =>
      ⟨h.lt, hne j h.alloc ▸ h.alloc, hne j h.alloc ▸ h.num_lt⟩
    have hcell : ∀ j num, k'.IsLive I j num → k'.cell j num = k.cell j num := fun j num h => by
      rw [Kernel.cell, Kernel.cell, hne j h.alloc]
    refine ⟨⟨hundo ▸ hk.undo, hsem ▸ hk.semval⟩, ⟨hmap ▸ hk.sets.map_ok, fun j hj hal => ?_,
      fun j hj hal => ?_, fun j num h => ?_, fun j num j' num' h h' heq => ?_⟩, hk.calls.congr fun p => by rw [hprocs]⟩
    · have heq := hne j hal
      rw [heq] at hal ⊢
      exact hk.sets.nsems_pos j hj hal
    · have heq := hne j hal
      rw [heq] at hal ⊢
      exact hk.sets.nsems_le j hj hal
    · rw [hcell j num h, hmap]
      exact hk.sets.not_free j num (hlive j num h)
    · rw [hcell j num h, hcell j' num' h'] at heq
      exact hk.sets.inj j num j' num' (hlive j num h) (hlive j' num' h') heq
  | new i n hlt hother hfree halloc hpos hle hmem hbase hnsems hmap hundo hprocs hsem =>
    obtain ⟨hmapok, hwas, hnow⟩ := ipcmalloc_spec hk.sets.map_ok hpos hmem
    rw [← hmap] at hmapok hnow
    rw [← hbase] at hwas hnow
    -- a live semaphore of the new state is one of the new set or an old one
    have hlive : ∀ j num, k'.IsLive I j num → (j = i ∧ num < n) ∨ (j ≠ i ∧ k.IsLive I j num) := by
      rintro j num ⟨h1, h2, h3⟩
      by_cases hji : j = i
      · subst hji
        exact .inl ⟨rfl, hnsems ▸ h3⟩
      · rw [hother j hji] at h2 h3
        exact .inr ⟨hji, h1, h2, h3⟩
    have hcell : ∀ j num, j ≠ i → k'.cell j num = k.cell j num := fun j num hji => by
      rw [Kernel.cell, Kernel.cell, hother j hji]
    refine ⟨⟨hundo ▸ hk.undo, fun x => ?_⟩, ⟨hmapok, fun j hj hal => ?_, fun j hj hal => ?_,
      fun j num h => ?_, fun j num j' num' h h' heq => ?_⟩, hk.calls.congr fun p => by rw [hprocs]⟩
    · rw [hsem]
      split_ifs
      · decide
      · exact hk.semval x
    · by_cases hji : j = i
      · subst hji
        exact hnsems ▸ hpos
      · rw [hother j hji] at hal ⊢
        exact hk.sets.nsems_pos j hj hal
    · by_cases hji : j = i
      · subst hji
        exact hnsems ▸ hle
      · rw [hother j hji] at hal ⊢
        exact hk.sets.nsems_le j hj hal
    · rcases hlive j num h with ⟨rfl, hnum⟩ | ⟨hji, hold⟩
      · rw [hnow, Kernel.cell]
        omega
      · rw [hnow, hcell j num hji]
        exact fun hmem => hk.sets.not_free j num hold hmem.1
    · rcases hlive j num h with ⟨rfl, hnum⟩ | ⟨hji, hold⟩ <;>
        rcases hlive j' num' h' with ⟨rfl, hnum'⟩ | ⟨hji', hold'⟩
      · simp only [Kernel.cell] at heq
        exact ⟨rfl, by omega⟩
      · rw [hcell j' num' hji'] at heq
        refine absurd (hwas (k'.cell j num + 1) ?_ ?_) (heq ▸ hk.sets.not_free j' num' hold') <;>
          (rw [Kernel.cell]; omega)
      · rw [hcell j num hji] at heq
        refine absurd (hwas (k'.cell j' num' + 1) ?_ ?_) (heq ▸ hk.sets.not_free j num hold) <;>
          (rw [Kernel.cell]; omega)
      · rw [hcell j num hji, hcell j' num' hji'] at heq
        exact hk.sets.inj j num j' num' hold hold' heq

theorem Kernel.Inv.rmid (hk : k.Inv I) {semid : ℤ} (h : Rmid I k semid k') : k'.Inv I := by
  cases h with
  | same => exact hk
  | gone i hi hundo hcall hval hmap hother hdead =>
    obtain ⟨hlt, halloc, -, -, -⟩ := semconv_spec hi
    have hne : ∀ j, (k'.sema j).semPerm.ipcAlloc = true → j ≠ i := by
      rintro j hj rfl
      rw [hdead] at hj
      cases hj
    have hlive : ∀ j num, k'.IsLive I j num → k.IsLive I j num := fun j num h => by
      have hj := hother j (hne j h.alloc)
      exact ⟨h.lt, hj ▸ h.alloc, hj ▸ h.num_lt⟩
    have hcell : ∀ j num, k'.IsLive I j num → k'.cell j num = k.cell j num := fun j num h => by
      rw [Kernel.cell, Kernel.cell, hother j (hne j h.alloc)]
    have hfreed := ipcmfree_spec (hk.sets.nsems_pos i hlt halloc) hk.sets.map_ok
      (a := (k.sema i).semBase + 1) fun x h1 h2 hx => by
        have := hk.sets.not_free i (x - ((k.sema i).semBase + 1)) ⟨hlt, halloc, by omega⟩
        rw [Kernel.cell, show (k.sema i).semBase + (x - ((k.sema i).semBase + 1)) + 1 = x by omega] at this
        exact this hx
    refine ⟨⟨?_, hval hk.semval⟩, ⟨?_, fun j hj hal => ?_, fun j hj hal => ?_, fun j num h hfree => ?_,
      fun j num j' num' h h' heq => ?_⟩, hk.calls.congr hcall⟩
    · rw [hundo]
      exact (semunrm_spec hk.undo _ _ _).1
    · rw [hmap]
      exact hfreed.ok
    · have heq := hother j (hne j hal)
      rw [heq] at hal ⊢
      exact hk.sets.nsems_pos j hj hal
    · have heq := hother j (hne j hal)
      rw [heq] at hal ⊢
      exact hk.sets.nsems_le j hj hal
    · have hold := hlive j num h
      rw [hcell j num h, hmap] at hfree
      rcases hfreed.sub _ hfree with hbad | ⟨h1, h2⟩
      · exact hk.sets.not_free j num hold hbad
      · -- the cell would belong to the removed set
        have := (hk.sets.inj j num i (k.cell j num - (k.sema i).semBase) hold
          ⟨hlt, halloc, by omega⟩ (by rw [Kernel.cell.eq_1 k i]; omega)).1
        exact hne j h.alloc this
    · rw [hcell j num h, hcell j' num' h'] at heq
      exact hk.sets.inj j num j' num' (hlive j num h) (hlive j' num' h') heq

theorem Kernel.Inv.semctlSet (hk : k.Inv I) {semid : ℤ} {P : ℕ → ℕ → ℕ → Prop}
    {x : Kernel × Option Errno} (h : SemctlSet I k semid P x) : x.1.Inv I := by
  cases h with
  | same => exact hk
  | set i low high hi hP hkeep hundo hval =>
    exact ⟨⟨hundo ▸ (semunrm_spec hk.undo _ _ _).1, hval hk.semval⟩,
      hk.sets.congr hkeep.sema hkeep.semmap, hk.calls.congr hkeep.call⟩

/-! ### What `semexit` does -/

theorem semexitOne_touch (k : Kernel) (e : Undo) : k.Touch (semexitOne I k e) := by
  unfold semexitOne
  cases semconv I k e.unId with
  | none => exact .refl k
  | some sp =>
    simp only
    split_ifs
    all_goals first
      | exact .refl k
      | exact ((k.touch_setSem _ _).trans (Kernel.touch_wakeZ _ _)).trans (Kernel.touch_wakeN _ _)
      | exact (k.touch_setSem _ _).trans (Kernel.touch_wakeN _ _)
      | exact (k.touch_setSem _ _).trans (Kernel.touch_wakeZ _ _)
      | exact k.touch_setSem _ _

/-- The value that `semexit` gives a semaphore. -/
def Seminfo.adjust (I : Seminfo) (semval : ℕ) (aoe : ℤ) : ℕ :=
  if semval + aoe < 0 ∨ semval + aoe > I.semvmx then semval else (semval + aoe).toNat

theorem Seminfo.adjust_lt {semval : ℕ} (h : semval < 65536) (aoe : ℤ) :
    I.adjust semval aoe < 65536 := by
  have := I.semvmx_lt
  unfold Seminfo.adjust
  split_ifs <;> omega

/-- An entry changes the value of its semaphore only. -/
theorem semexitOne_semval {e : Undo} (hi : semconv I k e.unId = some i) (x : ℕ) :
    ((semexitOne I k e).sem x).semval =
      if x = ((k.sema i).semBase + e.unNum).toNat then I.adjust (k.sem x).semval e.unAoe
      else (k.sem x).semval := by
  have hvmx := I.semvmx_lt
  unfold semexitOne Seminfo.adjust
  simp only [hi]
  generalize ((k.sema i).semBase + e.unNum).toNat = y
  by_cases hout : ((k.sem y).semval : ℤ) + e.unAoe < 0 ∨ (k.sem y).semval + e.unAoe > I.semvmx
  · rw [if_pos hout]
    split_ifs with hx hx'
    · rfl
    · subst hx
      exact absurd hout hx'
    · rfl
  · rw [if_neg hout]
    have hval : ushort ((k.sem y).semval + e.unAoe) = ((k.sem y).semval + e.unAoe).toNat := by
      unfold ushort
      omega
    have hset : ((k.setSem y { k.sem y with semval := ushort ((k.sem y).semval + e.unAoe) }).sem
        x).semval = if x = y then ((k.sem y).semval + e.unAoe).toNat else (k.sem x).semval := by
      by_cases hx : x = y
      · subst hx
        simpa using hval
      · simp [hx]
    have hrest : ∀ k₁ : Kernel,
        ((if e.unAoe > 0 then
          (if ((k.sem y).semval : ℤ) + e.unAoe = 0 then k₁.wakeZ y else k₁).wakeN y
          else if ((k.sem y).semval : ℤ) + e.unAoe = 0 then k₁.wakeZ y else k₁).sem x).semval =
        (k₁.sem x).semval := fun k₁ => by
      split_ifs <;> simp
    rw [hrest, hset]
    split_ifs with hx hx'
    · subst hx
      exact absurd hx' hout
    · rw [hx]
    · rfl

theorem semexit_loop_touch (l : List Undo) (k : Kernel) : k.Touch (l.foldl (semexitOne I) k) := by
  induction l generalizing k with
  | nil => exact .refl k
  | cons e l ih => exact (semexitOne_touch k e).trans (ih _)

theorem semexit_sema (u : User) : (semexit I k u).sema = k.sema := by
  unfold semexit
  cases k.undo.semUndo u.proc with
  | none => rfl
  | some up => exact (semexit_loop_touch (I := I) (k.undo.semu up).reverse k).sema

theorem semexitOne_lt (hk : ∀ x, (k.sem x).semval < 65536) (e : Undo) (x : ℕ) :
    ((semexitOne I k e).sem x).semval < 65536 := by
  cases hi : semconv I k e.unId with
  | none =>
    unfold semexitOne
    rw [hi]
    exact hk x
  | some i =>
    rw [semexitOne_semval hi]
    split_ifs
    · exact Seminfo.adjust_lt (hk x) _
    · exact hk x

theorem semexit_loop_lt (hk : ∀ x, (k.sem x).semval < 65536) (l : List Undo) :
    ∀ x, ((l.foldl (semexitOne I) k).sem x).semval < 65536 := by
  induction l generalizing k with
  | nil => exact hk
  | cons e l ih => exact ih (semexitOne_lt hk e)

theorem Kernel.Inv.semexit (hk : k.Inv I) (u : User) : (semexit I k u).Inv I := by
  unfold SysV.semexit
  cases hp : k.undo.semUndo u.proc with
  | none => exact hk
  | some up =>
    have htouch := semexit_loop_touch (I := I) (k.undo.semu up).reverse k
    refine ⟨⟨?_, semexit_loop_lt hk.semval _⟩, hk.sets.congr htouch.sema htouch.semmap,
      hk.calls.congr htouch.call⟩
    show (UndoTab.release (List.foldl (semexitOne I) k (k.undo.semu up).reverse).undo u.proc up).Ok I
    rw [htouch.undo]
    exact hk.undo.release hp

/-- Every step keeps the invariant. -/
theorem Kernel.Inv.step (hk : k.Inv I) {a : SemAct} (h : k.step I a = some k') : k'.Inv I := by
  cases a with
  | semget u key nsems semflg =>
    simp only [Kernel.step] at h
    split at h <;> cases h
    exact hk.semget (semget_cases I k u key nsems semflg)
  | rmid u semid =>
    simp only [Kernel.step] at h
    split at h <;> cases h
    exact hk.rmid (semRmid_cases I k u semid)
  | setval u semid semnum arg =>
    simp only [Kernel.step] at h
    split at h <;> cases h
    exact hk.semctlSet (semSetval_cases I k u semid semnum arg)
  | setall u semid semvals =>
    simp only [Kernel.step] at h
    split at h <;> cases h
    exact hk.semctlSet (semSetall_cases I k u semid semvals)
  | semop u semid ops =>
    simp only [Kernel.step] at h
    split at h <;> cases h
    unfold SysV.semop
    split_ifs
    · exact hk
    · cases hi : semconv I k semid with
      | none => exact hk
      | some sp =>
        simp only
        cases semopCheck u (k.sema sp) ops with
        | some e => exact hk
        | none => exact hk.tried (semopTry_cases hk.toOk _) (semconv_spec hi).2.2.2.1
  | resume p =>
    simp only [Kernel.step] at h
    split at h <;> cases h
    rename_i c call hp
    have hcall := hk.calls p c call (by rw [hp]; rfl)
    unfold semopAgain
    cases hi : semconv I k call.semid with
    | none => exact hk.leavesAt hk.toOk (.refl k) (.of_touch (.refl k) (fun _ => rfl) (.inl rfl)) hcall.2
    | some sp => exact hk.tried (semopTry_cases hk.toOk call) hcall.2
  | intr p =>
    simp only [Kernel.step] at h
    split at h <;> cases h
    rename_i c call woken hp
    have hcall := hk.calls p c call (by rw [hp]; rfl)
    rw [← hcall.1]
    exact hk.leavesAt hk.toOk (.refl k)
      (.of_touch (k.touch_uncount c) (k.uncount_semval c) (.inl rfl)) hcall.2
  | exit u =>
    simp only [Kernel.step] at h
    split at h <;> cases h
    exact hk.semexit u

theorem reach_inv (h : (semSys I).Reach k) : k.Inv I :=
  h.inv (fun _ h => h ▸ seminit_inv I) fun _ _ _ _ hk hs => hk.step hs

end SysV

end Hpux
