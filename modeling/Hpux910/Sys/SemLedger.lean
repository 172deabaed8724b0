import Hpux910.Sys.SemSets

/-!
# Adjustments and the operations they stand for

A ledger kept beside the kernel records what the successful `SEM_UNDO` operations of each process
added to each semaphore since it was last set or created.  As long as a sleeper that `semconv` lets
through finds its semaphores in the set it named, the undo table is the ledger with the sign
changed, and `semexit` pays it back.

The condition is needed: `seq` is an `unsigned short`, so after 65536 removals a set has an old id
again.

* `Book` : the kernel and the ledger.
* `Book.Ok` : the table is the ledger.
* `Exits` : what `semexit` does.
* `Kernel.StillFits` : the condition on a step.
* `undo_table_is_ledger` : the main theorem.
-/

namespace Hpux

namespace SysV

open List

variable {I : Seminfo} {k k' : Kernel}

/-! ### The ledger -/

/-- What the operations of a call with `SEM_UNDO` add to the semaphore at `x`. -/
def opsSum (base : ℕ) (ops : List Sembuf) (x : ℕ) : ℤ :=
  (ops.map fun op => if base + op.semNum = x then op.undoVal else 0).sum

/-- The call whose operations are tried in a step. -/
def Kernel.passOf (I : Seminfo) (k : Kernel) : SemAct → Option SemopCall
  | .semop u semid ops =>
    if ops.length > I.semopm then none
    else
      match semconv I k semid with
      | none => none
      | some sp =>
        match semopCheck u (k.sema sp) ops with
        | some _ => none
        | none => some ⟨u, semid, sp, ops⟩
  | .resume p =>
    match k.procs p with
    | .asleep _ call true => if semconv I k call.semid = none then none else some call
    | _ => none
  | _ => none

/-- The semaphore at `x` belongs to a set that is new in `k'`. -/
def Kernel.isCreated (I : Seminfo) (k k' : Kernel) (x : ℕ) : Prop :=
  ∃ i < I.semmni, (k.sema i).semPerm.ipcAlloc = false ∧ (k'.sema i).semPerm.ipcAlloc = true ∧
    (k'.sema i).semBase ≤ x ∧ x < (k'.sema i).semBase + (k'.sema i).semNsems

/-- The semaphore at `x` is created or set in a step. -/
def Kernel.isSet (I : Seminfo) (k : Kernel) (x : ℕ) : SemAct → Prop
  | .semget u key nsems semflg => k.isCreated I (semget I k u key nsems semflg).1 x
  | .setval u semid semnum arg =>
    (semSetval I k u semid semnum arg).2 = none ∧
      ∃ i < I.semmni, semconv I k semid = some i ∧ x = k.cell i semnum
  | .setall u semid semvals =>
    (semSetall I k u semid semvals).2 = none ∧ ∃ i < I.semmni, semconv I k semid = some i ∧
        ∃ num < (k.sema i).semNsems, x = k.cell i num
  | _ => False

/-- The kernel and, for each process and each index of `sem[]`, what the successful `SEM_UNDO`
operations of the process added since the semaphore was last set or created. -/
structure Book where
  /-- The kernel. -/
  k : Kernel
  /-- The ledger. -/
  led : ℕ → ℕ → ℤ

open Classical in
/-- The ledger after a step. -/
noncomputable def Book.enter (I : Seminfo) (b : Book) (a : SemAct) (p x : ℕ) : ℤ :=
  if b.k.isSet I x a then 0
  else
    match a with
    -- the adjustments of the process were paid back
    | .exit u => if p = u.proc then 0 else b.led p x
    | a =>
      match b.k.passOf I a with
      | some call =>
        if p = call.user.proc ∧
            (semopPass I b.k call.user call.semid call.sp call.semops).2 = .done then
          b.led p x + opsSum (b.k.sema call.sp).semBase call.semops x
        else b.led p x
      | none => b.led p x

/-- The kernel with its ledger. -/
def bookSys (I : Seminfo) : Lts Book SemAct where
  init b := b = ⟨seminit I, fun _ _ => 0⟩
  step b a b' := b.k.step I a = some b'.k ∧ b'.led = b.enter I a

/-- A process that `semconv` lets go on after its sleep finds the semaphores that it adjusts in the
set. -/
def Kernel.StillFits (I : Seminfo) (k : Kernel) : SemAct → Prop
  | .resume p => ∀ c call, k.procs p = .asleep c call true → semconv I k call.semid ≠ none →
    ∀ op ∈ call.semops, op.undoVal ≠ 0 → op.semNum < (k.sema call.sp).semNsems
  | _ => True

theorem Book.reach_kernel {b : Book} (h : (bookSys I).Reach b) : (semSys I).Reach b.k := by
  induction h with
  | init h => exact .init (by rw [h]; rfl)
  | step _ hs ih => exact .step ih hs.1

/-! ### Successful operations -/

variable {semid : ℤ}

/-- Done operations change the entries of the process by what they add. -/
theorem Applied.ents {u : User} {sp : ℕ} (hk : k.Ok I) {dn : List Sembuf}
    (h : Applied I u semid sp k dn k') : (∀ q, q ≠ u.proc → k'.undo.ents q = k.undo.ents q) ∧
      (∀ e ∈ k'.undo.ents u.proc, e ∈ k.undo.ents u.proc ∨
        ∃ op ∈ dn, op.undoVal ≠ 0 ∧ e.unId = semid ∧ e.unNum = short op.semNum) ∧
      ∀ id num, k'.undo.aoe u.proc id num = k.undo.aoe u.proc id num -
        (dn.map fun op => if semid = id ∧ short op.semNum = num then op.undoVal else 0).sum := by
  induction h with
  | nil => exact ⟨fun _ _ => rfl, fun e he => .inl he, fun _ _ => by simp⟩
  | @cons dn k₁ k₂ op happ hop ih =>
    obtain ⟨hk₁, -, -, -⟩ := happ.ok hk
    obtain ⟨hother, hmem, haoe⟩ := ih
    obtain ⟨hother', hents⟩ := (semopOne_done hk₁.undo hop).undo.ents hk₁.undo
    refine ⟨fun q hq => (hother' q hq).trans (hother q hq), fun e he => ?_, fun id num => ?_⟩
    · rw [hents] at he
      have hold : e ∈ k₁.undo.ents u.proc ∨
          op.undoVal ≠ 0 ∧ undos.key e = toLex (semid, short op.semNum) := by
        split_ifs at he with hzero
        · exact .inl he
        · exact (Sparse.mem_add he).imp id fun h => ⟨hzero, h⟩
      rcases hold with he | ⟨hne, he⟩
      · rcases hmem e he with he | ⟨op', hop', he⟩
        · exact .inl he
        · exact .inr ⟨op', by simp [hop'], he⟩
      · exact .inr ⟨op, by simp, hne, key_eq_iff.1 he⟩
    · have hstep : k₂.undo.aoe u.proc id num = k₁.undo.aoe u.proc id num -
          if semid = id ∧ short op.semNum = num then op.undoVal else 0 := by
        unfold UndoTab.aoe
        rw [hents]
        by_cases hzero : op.undoVal = 0
        · rw [if_pos hzero, hzero]
          split_ifs <;> simp
        · rw [if_neg hzero]
          by_cases hkey : semid = id ∧ short op.semNum = num
          · obtain ⟨rfl, rfl⟩ := hkey
            rw [if_pos ⟨rfl, rfl⟩, (hk₁.undo.ents _).coeff_add_self]
            omega
          · rw [if_neg hkey, Sparse.coeff_add_of_ne]
            · omega
            · intro heq
              exact hkey (by simpa [Prod.ext_iff, eq_comm] using heq)
      rw [hstep, haoe, map_cons, sum_cons]
      omega

/-- In a set that has the semaphores that the operations adjust, an entry and a place in `sem[]` stand for
the same semaphore. -/
theorem opsSum_eq (hk : k.Inv I) {sp : ℕ} (hsp : semconv I k semid = some sp)
    {ops : List Sembuf} (hfit : ∀ op ∈ ops, op.undoVal ≠ 0 → op.semNum < (k.sema sp).semNsems)
    {i num : ℕ} (hlive : k.IsLive I i num) :
    (ops.map fun op => if semid = k.idOf I i ∧ short op.semNum = num then op.undoVal else 0).sum =
      opsSum (k.sema sp).semBase ops (k.cell i num) := by
  obtain ⟨hlt, halloc, hid, -, -⟩ := semconv_spec hsp
  have hmsl := I.semmsl_lt
  unfold opsSum
  congr 1
  refine map_congr_left fun op hop => ?_
  by_cases hzero : op.undoVal = 0
  · rw [hzero, ite_self, ite_self]
  have hle := hk.sets.nsems_le sp hlt halloc
  have hnum := hfit op hop hzero
  have hshort : short op.semNum = op.semNum := short_eq (by omega) (by omega)
  have hiff : (semid = k.idOf I i ∧ short op.semNum = num) ↔
      (k.sema sp).semBase + op.semNum = k.cell i num := by
    rw [hshort, hid]
    constructor
    · rintro ⟨h1, h2⟩
      obtain rfl := Kernel.idOf_inj hlt hlive.lt h1
      rw [Kernel.cell, show op.semNum = num by exact_mod_cast h2]
    · intro h
      obtain ⟨rfl, rfl⟩ := hk.sets.inj sp op.semNum i num ⟨hlt, halloc, hnum⟩ hlive h
      exact ⟨rfl, rfl⟩
  simp only [hiff]

/-! ### Steps -/

/-- Ledger and table agree, for a kernel that is known to satisfy the invariant. -/
structure Agrees (I : Seminfo) (k : Kernel) (led : ℕ → ℕ → ℤ) : Prop where
  live : ∀ p, ∀ e ∈ k.undo.ents p, ∃ i num, k.IsLive I i num ∧ e.unId = k.idOf I i ∧
    e.unNum = (num : ℤ)
  ledger : ∀ p i num, k.IsLive I i num → k.undo.aoe p (k.idOf I i) num = -led p (k.cell i num)

theorem Agrees.congr {led : ℕ → ℕ → ℤ} (h : Agrees I k led) (hsema : k'.sema = k.sema)
    (hents : ∀ p, k'.undo.ents p = k.undo.ents p) : Agrees I k' led := by
  have hid : ∀ i, k'.idOf I i = k.idOf I i := fun i => Kernel.idOf_congr (by rw [hsema])
  have hcell : ∀ i num, k'.cell i num = k.cell i num := fun i => Kernel.cell_congr (by rw [hsema])
  refine ⟨fun p e he => ?_, fun p i num hl => ?_⟩
  · obtain ⟨i, num, hl, h1, h2⟩ := h.live p e (hents p ▸ he)
    exact ⟨i, num, (Kernel.IsLive.congr hsema).2 hl, (hid i).symm ▸ h1, h2⟩
  · rw [UndoTab.aoe, hents, hid, hcell]
    exact h.ledger p i num ((Kernel.IsLive.congr hsema).1 hl)

variable {led led' : ℕ → ℕ → ℤ}

/-- A pass over the operations of a call whose semaphores are in its set. -/
theorem Agrees.tried (hk : k.Inv I) (h : Agrees I k led) (call : SemopCall)
    (hsp : semconv I k call.semid = some call.sp)
    (hfit : ∀ op ∈ call.semops, op.undoVal ≠ 0 → op.semNum < (k.sema call.sp).semNsems) (htried : Tried I k call k')
    (hled : ∀ p x, led' p x = if p = call.user.proc ∧
        (semopPass I k call.user call.semid call.sp call.semops).2 = .done then
      led p x + opsSum (k.sema call.sp).semBase call.semops x else led p x) : Agrees I k' led' := by
  cases htried with
  | stop hpass hstop hat =>
    have hsame : led' = led := by
      funext p x
      rw [hled, if_neg fun h => hpass h.2]
    rw [hsame]
    refine h.congr (hat.sema.trans hstop.sema) fun p => ?_
    rw [hat.undo]
    exact hstop.owns.ents_eq hk.undo hstop.semu p
  | done hpass happ hat =>
    obtain ⟨-, hkeep, -, -⟩ := happ.ok hk.toOk
    obtain ⟨hother, hmem, haoe⟩ := happ.ents hk.toOk
    obtain ⟨hlt, halloc, hid, -, -⟩ := semconv_spec hsp
    have hmsl := I.semmsl_lt
    have hsema : k'.sema = k.sema := hat.sema.trans hkeep.sema
    have hids : ∀ i, k'.idOf I i = k.idOf I i := fun i => Kernel.idOf_congr (by rw [hsema])
    refine ⟨fun p e he => ?_, fun p i num hl => ?_⟩
    · rw [hat.undo] at he
      have hold : e ∈ k.undo.ents p ∨
          ∃ op ∈ call.semops, op.undoVal ≠ 0 ∧ e.unId = call.semid ∧ e.unNum = short op.semNum := by
        by_cases hp : p = call.user.proc
        · subst hp
          simpa using hmem e he
        · exact .inl (hother p hp ▸ he)
      rcases hold with he | ⟨op, hop, hne, h1, h2⟩
      · obtain ⟨i, num, hl, h1, h2⟩ := h.live p e he
        exact ⟨i, num, (Kernel.IsLive.congr hsema).2 hl, (hids i).symm ▸ h1, h2⟩
      · have hnum := hfit op hop hne
        have hle := hk.sets.nsems_le call.sp hlt halloc
        refine ⟨call.sp, op.semNum, (Kernel.IsLive.congr hsema).2 ⟨hlt, halloc, hnum⟩, ?_, ?_⟩
        · rw [hids, h1, hid]
        · rw [h2, short_eq (by omega) (by omega)]
    · have hl' := (Kernel.IsLive.congr hsema).1 hl
      have hcell : k'.cell i num = k.cell i num := Kernel.cell_congr (congrFun hsema i) num
      rw [hids, hcell, hat.undo, hled]
      by_cases hp : p = call.user.proc
      · subst hp
        rw [if_pos ⟨rfl, hpass⟩, haoe, h.ledger _ i num hl', map_reverse, sum_reverse,
          opsSum_eq hk hsp hfit hl']
        omega
      · rw [if_neg fun h => hp h.1, UndoTab.aoe, hother p hp]
        exact h.ledger p i num hl'

/-- A new set has no entries: its id belonged to no set. -/
theorem Agrees.semget (hk : k.Inv I) (h : Agrees I k led)
    (hget : Semget I k k') (hset : ∀ p x, k.isCreated I k' x → led' p x = 0)
    (hkeep : ∀ p x, ¬k.isCreated I k' x → led' p x = led p x) : Agrees I k' led' := by
  cases hget with
  | same =>
    have hsame : led' = led := by
      funext p x
      refine hkeep p x ?_
      rintro ⟨i, -, h1, h2, -⟩
      rw [h1] at h2
      cases h2
    rw [hsame]
    exact h
  | dead i hother hfree hdead hmap hundo hsem hprocs =>
    have hsame : led' = led := by
      funext p x
      refine hkeep p x ?_
      rintro ⟨j, -, h1, h2, -⟩
      by_cases hji : j = i
      · subst hji
        rw [hdead] at h2
        cases h2
      · rw [hother j hji, h1] at h2
        cases h2
    have hne : ∀ j num, k.IsLive I j num → j ≠ i := by
      rintro j num hl rfl
      rw [hl.alloc] at hfree
      cases hfree
    have hlive : ∀ j num, k.IsLive I j num ↔ k'.IsLive I j num := by
      intro j num
      constructor
      · intro hl
        have hj := hother j (hne j num hl)
        exact ⟨hl.lt, hj ▸ hl.alloc, hj ▸ hl.num_lt⟩
      · intro hl
        have hji : j ≠ i := by
          rintro rfl
          rw [hl.alloc] at hdead
          cases hdead
        have hj := hother j hji
        exact ⟨hl.lt, hj ▸ hl.alloc, hj ▸ hl.num_lt⟩
    rw [hsame]
    refine ⟨fun p e he => ?_, fun p j num hl => ?_⟩
    · obtain ⟨j, num, hl, h1, h2⟩ := h.live p e (hundo ▸ he)
      exact ⟨j, num, (hlive j num).1 hl, (Kernel.idOf_congr (hother j (hne j num hl))).symm ▸ h1, h2⟩
    · have hl' := (hlive j num).2 hl
      have hj := hother j (hne j num hl')
      rw [hundo, Kernel.idOf_congr hj, Kernel.cell_congr hj]
      exact h.ledger p j num hl'
  | new i n hlt hother hfree halloc hpos hle hmem hbase hnsems hmap hundo hprocs hsem =>
    have hk' := hk.semget (.new i n hlt hother hfree halloc hpos hle hmem hbase hnsems hmap hundo
      hprocs hsem)
    have hne : ∀ j num, k.IsLive I j num → j ≠ i := by
      rintro j num hl rfl
      rw [hl.alloc] at hfree
      cases hfree
    refine ⟨fun p e he => ?_, fun p j num hl => ?_⟩
    · obtain ⟨j, num, hl, h1, h2⟩ := h.live p e (hundo ▸ he)
      have hj := hother j (hne j num hl)
      exact ⟨j, num, ⟨hl.lt, hj ▸ hl.alloc, hj ▸ hl.num_lt⟩, (Kernel.idOf_congr hj).symm ▸ h1, h2⟩
    · by_cases hji : j = i
      · subst hji
        have hnum := hl.num_lt
        have hzero : led' p (k'.cell j num) = 0 := by
          refine hset p _ ⟨j, hlt, hfree, halloc, ?_, ?_⟩ <;>
            (rw [Kernel.cell]; omega)
        rw [hundo, hzero, Int.neg_zero]
        -- an entry would be for a live set with this id
        by_contra hne'
        obtain ⟨e, he, hkey, -⟩ := Sparse.exists_of_coeff_ne_zero hne'
        obtain ⟨i', num', hl', h1, -⟩ := h.live p e he
        have hid := (key_eq_iff.1 hkey).1
        rw [h1] at hid
        exact hne i' num' hl' (Kernel.idOf_inj hl'.lt hlt hid)
      · have hj := hother j hji
        have hl' : k.IsLive I j num := ⟨hl.lt, hj ▸ hl.alloc, hj ▸ hl.num_lt⟩
        rw [hundo, Kernel.idOf_congr hj, hkeep, Kernel.cell_congr hj]
        · exact h.ledger p j num hl'
        · rintro ⟨i', hi', h1, h2, h3, h4⟩
          by_cases hii : i' = i
          · subst hii
            refine hji (hk'.sets.inj j num i' (k'.cell j num - (k'.sema i').semBase) hl
              ⟨hi', h2, by omega⟩ ?_).1
            simp only [Kernel.cell] at h3 ⊢
            omega
          · rw [hother i' hii, h1] at h2
            cases h2

/-- `IPC_RMID` removes the entries for the set with it. -/
theorem Agrees.rmid {led : ℕ → ℕ → ℤ} (hk : k.Inv I) (h : Agrees I k led)
    (hrmid : Rmid I k semid k') : Agrees I k' led := by
  cases hrmid with
  | same => exact h
  | gone i hi hundo hcall hval hmap hother hdead =>
    obtain ⟨hlt, halloc, hid, -, -⟩ := semconv_spec hi
    have hne : ∀ j num, k'.IsLive I j num → j ≠ i := by
      rintro j num hl rfl
      rw [hl.alloc] at hdead
      cases hdead
    refine ⟨fun p e he => ?_, fun p j num hl => ?_⟩
    · rw [hundo, semunrm_ents hk.undo] at he
      obtain ⟨j, num, hl, h1, h2⟩ := h.live p e (mem_of_mem_filter he)
      have hji : j ≠ i := by
        rintro rfl
        have hkept := of_mem_filter he
        simp only [Undo.isKept, decide_eq_true_eq] at hkept
        have := hl.num_lt
        exact hkept ⟨h1.trans hid.symm, by omega, by omega⟩
      have hj := hother j hji
      exact ⟨j, num, ⟨hl.lt, hj ▸ hl.alloc, hj ▸ hl.num_lt⟩, (Kernel.idOf_congr hj).symm ▸ h1, h2⟩
    · have hji := hne j num hl
      have hj := hother j hji
      have hl' : k.IsLive I j num := ⟨hl.lt, hj ▸ hl.alloc, hj ▸ hl.num_lt⟩
      rw [hundo, semunrm_aoe hk.undo, Kernel.idOf_congr hj, Kernel.cell_congr hj, if_neg]
      · exact h.ledger p j num hl'
      · rintro ⟨heq, -⟩
        exact hji (Kernel.idOf_inj hl.lt hlt (heq.trans hid))

/-- `SETVAL` and `SETALL` remove the entries for the semaphores they set. -/
theorem Agrees.semctlSet (hk : k.Inv I) (h : Agrees I k led)
    {P : ℕ → ℕ → ℕ → Prop} {x : Kernel × Option Errno} (hset : SemctlSet I k semid P x)
    (hsame : x.2 ≠ none → led' = led)
    (hled : ∀ i low high, semconv I k semid = some i → P i low high → x.2 = none →
      ∀ p j num, k.IsLive I j num → led' p (k.cell j num) =
        if j = i ∧ low ≤ num ∧ num ≤ high then 0 else led p (k.cell j num)) :
    Agrees I x.1 led' := by
  cases hset with
  | same e =>
    rw [hsame nofun]
    exact h
  | set i low high hi hP hkeep hundo hval =>
    obtain ⟨hlt, halloc, hid, -, -⟩ := semconv_spec hi
    have hids : ∀ j, Kernel.idOf I _ j = k.idOf I j := fun j =>
      Kernel.idOf_congr (congrFun hkeep.sema j)
    refine ⟨fun p e he => ?_, fun p j num hl => ?_⟩
    · rw [hundo, semunrm_ents hk.undo] at he
      obtain ⟨j, num, hl, h1, h2⟩ := h.live p e (mem_of_mem_filter he)
      exact ⟨j, num, (Kernel.IsLive.congr hkeep.sema).2 hl, (hids j).symm ▸ h1, h2⟩
    · have hl' := (Kernel.IsLive.congr hkeep.sema).1 hl
      rw [hundo, semunrm_aoe hk.undo, hids, Kernel.cell_congr (congrFun hkeep.sema j),
        hled i low high hi hP rfl p j num hl', h.ledger p j num hl']
      have hiff : (k.idOf I j = semid ∧ (low : ℤ) ≤ num ∧ (num : ℤ) ≤ high) ↔
          j = i ∧ low ≤ num ∧ num ≤ high := by
        rw [hid]
        constructor
        · rintro ⟨h1, h2, h3⟩
          exact ⟨Kernel.idOf_inj hl'.lt hlt h1, by omega, by omega⟩
        · rintro ⟨rfl, h2, h3⟩
          exact ⟨rfl, by omega, by omega⟩
      simp only [hiff]
      split_ifs <;> simp

/-- After `semexit` the process has no entries. -/
theorem semexit_ents (hk : k.Inv I) (u : User) : (semexit I k u).undo.semUndo u.proc = none ∧
      ∀ q, q ≠ u.proc → (semexit I k u).undo.ents q = k.undo.ents q := by
  unfold semexit
  cases hp : k.undo.semUndo u.proc with
  | none => exact ⟨hp, fun _ _ => rfl⟩
  | some up =>
    have htouch := semexit_loop_touch (I := I) (k.undo.semu up).reverse k
    simp only [htouch.undo]
    refine ⟨by simp [UndoTab.release], fun q hq => ?_⟩
    unfold UndoTab.ents
    simp only [UndoTab.release, Function.update_of_ne hq]
    cases hj : k.undo.semUndo q with
    | none => rfl
    | some j =>
      have hju : j ≠ up := by
        rintro rfl
        exact hq (hk.undo.inj q u.proc j hj hp)
      simp only
      rw [Function.update_of_ne hju]

theorem Agrees.semexit (hk : k.Inv I) (h : Agrees I k led) (u : User)
    (hled : ∀ p x, led' p x = if p = u.proc then 0 else led p x) :
    Agrees I (semexit I k u) led' := by
  obtain ⟨hgone, hother⟩ := semexit_ents hk u
  have hsema := semexit_sema (I := I) (k := k) u
  have hids : ∀ i, Kernel.idOf I _ i = k.idOf I i := fun i => Kernel.idOf_congr (congrFun hsema i)
  refine ⟨fun p e he => ?_, fun p i num hl => ?_⟩
  · by_cases hp : p = u.proc
    · subst hp
      rw [UndoTab.ents_none hgone] at he
      cases he
    · obtain ⟨i, num, hl, h1, h2⟩ := h.live p e (hother p hp ▸ he)
      exact ⟨i, num, (Kernel.IsLive.congr hsema).2 hl, (hids i).symm ▸ h1, h2⟩
  · have hl' := (Kernel.IsLive.congr hsema).1 hl
    rw [hids, Kernel.cell_congr (congrFun hsema i), hled, UndoTab.aoe]
    by_cases hp : p = u.proc
    · subst hp
      rw [UndoTab.ents_none hgone, if_pos rfl]
      rfl
    · rw [hother p hp, if_neg hp]
      exact h.ledger p i num hl'

theorem Book.enter_of_not_set {b : Book} {a : SemAct} (hset : ∀ x, ¬b.k.isSet I x a)
    (hexit : ∀ u, a ≠ .exit u) (p x : ℕ) : b.enter I a p x = match b.k.passOf I a with
      | some call =>
        if p = call.user.proc ∧
            (semopPass I b.k call.user call.semid call.sp call.semops).2 = .done then
          b.led p x + opsSum (b.k.sema call.sp).semBase call.semops x
        else b.led p x
      | none => b.led p x := by
  unfold Book.enter
  rw [if_neg (hset x)]
  cases a with
  | exit u => exact absurd rfl (hexit u)
  | _ => rfl

/-- Every step whose semaphores are still there keeps table and ledger in agreement. -/
theorem Agrees.step {b b' : Book} {a : SemAct} (hk : b.k.Inv I) (h : Agrees I b.k b.led)
    (hfit : b.k.StillFits I a) (hs : (bookSys I).step b a b') : Agrees I b'.k b'.led := by
  obtain ⟨k', led'⟩ := b'
  obtain ⟨hstep, hled⟩ : b.k.step I a = some k' ∧ led' = b.enter I a := hs
  have hsame : (∀ x, ¬b.k.isSet I x a) → (∀ u, a ≠ .exit u) → b.k.passOf I a = none →
      b.enter I a = b.led := fun h1 h2 h3 => by
    funext p x
    rw [Book.enter_of_not_set h1 h2, h3]
  show Agrees I k' led'
  rw [hled]
  cases a with
  | semget u key nsems semflg =>
    simp only [Kernel.step] at hstep
    split at hstep <;> cases hstep
    refine h.semget hk (semget_cases I b.k u key nsems semflg) (fun p x hx => ?_) fun p x hx => ?_
    · exact if_pos hx
    · exact if_neg hx
  | rmid u semid =>
    simp only [Kernel.step] at hstep
    split at hstep <;> cases hstep
    rw [hsame (fun _ => id) (by simp) rfl]
    exact h.rmid hk (semRmid_cases I b.k u semid)
  | setval u semid semnum arg =>
    simp only [Kernel.step] at hstep
    split at hstep <;> cases hstep
    refine h.semctlSet hk (semSetval_cases I b.k u semid semnum arg) (fun hne => ?_) ?_
    · exact hsame (fun x hx => hne hx.1) (by simp) rfl
    · rintro i low high hi ⟨rfl, rfl, hnum⟩ hok p j num hl
      obtain ⟨hlt, halloc, -, -, -⟩ := semconv_spec hi
      have hiff : b.k.isSet I (b.k.cell j num) (.setval u semid high arg) ↔
          j = i ∧ high ≤ num ∧ num ≤ high := by
        constructor
        · rintro ⟨-, i', -, hi', heq⟩
          rw [hi] at hi'
          cases hi'
          obtain ⟨rfl, rfl⟩ := hk.sets.inj j num i high hl ⟨hlt, halloc, hnum⟩ heq
          exact ⟨rfl, le_rfl, le_rfl⟩
        · rintro ⟨rfl, h1, h2⟩
          obtain rfl : num = high := by omega
          exact ⟨hok, j, hlt, hi, rfl⟩
      unfold Book.enter
      simp only [hiff]
      rfl
  | setall u semid semvals =>
    simp only [Kernel.step] at hstep
    split at hstep <;> cases hstep
    refine h.semctlSet hk (semSetall_cases I b.k u semid semvals) (fun hne => ?_) ?_
    · exact hsame (fun x hx => hne hx.1) (by simp) rfl
    · rintro i low high hi ⟨rfl, rfl⟩ hok p j num hl
      obtain ⟨hlt, halloc, -, -, -⟩ := semconv_spec hi
      have hiff : b.k.isSet I (b.k.cell j num) (.setall u semid semvals) ↔
          j = i ∧ 0 ≤ num ∧ num ≤ (b.k.sema i).semNsems := by
        constructor
        · rintro ⟨-, i', -, hi', num', hnum', heq⟩
          rw [hi] at hi'
          cases hi'
          obtain ⟨rfl, rfl⟩ := hk.sets.inj j num i num' hl ⟨hlt, halloc, hnum'⟩ heq
          exact ⟨rfl, Nat.zero_le _, hnum'.le⟩
        · rintro ⟨rfl, -, -⟩
          exact ⟨hok, j, hlt, hi, num, hl.num_lt, rfl⟩
      unfold Book.enter
      simp only [hiff]
      rfl
  | semop u semid ops =>
    simp only [Kernel.step] at hstep
    split at hstep <;> cases hstep
    rename_i hrun
    have henter := Book.enter_of_not_set (I := I) (b := b) (a := .semop u semid ops)
      (fun _ => id) (by simp)
    unfold SysV.semop
    by_cases hlen : ops.length > I.semopm
    · rw [if_pos hlen, hsame (fun _ => id) (by simp) (by rw [Kernel.passOf, if_pos hlen])]
      exact h
    rw [if_neg hlen]
    cases hi : semconv I b.k semid with
    | none =>
      rw [hsame (fun _ => id) (by simp) (by rw [Kernel.passOf, if_neg hlen, hi])]
      exact h
    | some sp =>
      simp only
      cases hc : semopCheck u (b.k.sema sp) ops with
      | some e =>
        rw [hsame (fun _ => id) (by simp) (by rw [Kernel.passOf, if_neg hlen, hi]; simp only [hc])]
        exact h
      | none =>
        have hpass : b.k.passOf I (.semop u semid ops) = some ⟨u, semid, sp, ops⟩ := by
          rw [Kernel.passOf, if_neg hlen, hi]
          simp only [hc]
        refine h.tried hk ⟨u, semid, sp, ops⟩ hi ?_ (semopTry_cases hk.toOk _) fun p x => ?_
        · -- the first loop checked the numbers
          intro op hop _
          have := findSome?_eq_none_iff.1 hc op hop
          rw [Option.or_eq_none_iff] at this
          by_contra hge
          rw [if_pos (Nat.le_of_not_lt hge)] at this
          cases this.2
        · rw [henter, hpass]
  | resume p =>
    simp only [Kernel.step] at hstep
    split at hstep <;> cases hstep
    rename_i c call hp
    have hcall := hk.calls p c call (by rw [hp]; rfl)
    have henter := Book.enter_of_not_set (I := I) (b := b) (a := .resume p) (fun _ => id) (by simp)
    unfold semopAgain
    cases hi : semconv I b.k call.semid with
    | none =>
      rw [hsame (fun _ => id) (by simp) (by simp only [Kernel.passOf, hp, hi, if_true])]
      exact h.congr rfl fun _ => rfl
    | some sp =>
      obtain rfl : sp = call.sp := (semconv_spec hi).2.2.2.1.trans hcall.2.symm
      have hpass : b.k.passOf I (.resume p) = some call := by
        simp only [Kernel.passOf, hp, hi]
        rfl
      refine h.tried hk call hi (hfit c call hp (by rw [hi]; simp)) (semopTry_cases hk.toOk call)
        fun p x => ?_
      rw [henter, hpass]
  | intr p =>
    simp only [Kernel.step] at hstep
    split at hstep <;> cases hstep
    rename_i c call woken hp
    rw [hsame (fun _ => id) (by simp) rfl]
    have htouch := b.k.touch_uncount c
    exact h.congr htouch.sema fun q => by
      show (b.k.uncount c).undo.ents q = _
      rw [htouch.undo]
  | exit u =>
    simp only [Kernel.step] at hstep
    split at hstep <;> cases hstep
    exact h.semexit hk u fun p x => if_neg id

/-! ### Exit -/

/-- What `semexit` should do: pay each adjustment back once, and forget all of them. -/
structure Exits (I : Seminfo) (u : User) (k k' : Kernel) : Prop where
  live : ∀ i num, k.IsLive I i num → (k'.sem (k.cell i num)).semval =
    I.adjust (k.sem (k.cell i num)).semval (k.undo.aoe u.proc (k.idOf I i) num)
  rest : ∀ x, (∀ i num, k.IsLive I i num → x ≠ k.cell i num) →
    (k'.sem x).semval = (k.sem x).semval
  gone : k'.undo.ents u.proc = []
  others : ∀ q, q ≠ u.proc → k'.undo.ents q = k.undo.ents q

@[simp] theorem Seminfo.adjust_zero (I : Seminfo) (semval : ℕ) : I.adjust semval 0 = semval := by
  unfold Seminfo.adjust
  split_ifs <;> simp

/-- The loop of `semexit` over entries of live semaphores. -/
theorem semexit_loop {l : List Undo} (hk : k.Inv I) (hne : l.Pairwise fun e f => undos.key e ≠ undos.key f)
    (hlive : ∀ e ∈ l, ∃ i num, k.IsLive I i num ∧ e.unId = k.idOf I i ∧ e.unNum = (num : ℤ)) :
    (∀ i num, k.IsLive I i num → ((l.foldl (semexitOne I) k).sem (k.cell i num)).semval =
      I.adjust (k.sem (k.cell i num)).semval (undos.coeff l (toLex (k.idOf I i, (num : ℤ))))) ∧
    ∀ x, (∀ i num, k.IsLive I i num → x ≠ k.cell i num) →
      ((l.foldl (semexitOne I) k).sem x).semval = (k.sem x).semval := by
  induction l generalizing k with
  | nil => exact ⟨fun i num _ => by simp, fun _ _ => rfl⟩
  | cons e l ih =>
    obtain ⟨hne, hnel⟩ := pairwise_cons.1 hne
    obtain ⟨j, m, hl, hid, hnum⟩ := hlive e (by simp)
    have htouch := semexitOne_touch (I := I) k e
    have hsema := htouch.sema
    have hj : semconv I k e.unId = some j := hid ▸ semconv_idOf hl.lt hl.alloc
    have hcell : ((k.sema j).semBase + e.unNum).toNat = k.cell j m := by
      rw [hnum, Kernel.cell]
      omega
    have hval := semexitOne_semval hj
    rw [hcell] at hval
    have hids : ∀ i, (semexitOne I k e).idOf I i = k.idOf I i := fun i =>
      Kernel.idOf_congr (congrFun hsema i)
    have hcells : ∀ i num, (semexitOne I k e).cell i num = k.cell i num := fun i =>
      Kernel.cell_congr (congrFun hsema i)
    have hinv : (semexitOne I k e).Inv I :=
      ⟨⟨htouch.undo ▸ hk.undo, semexitOne_lt hk.semval e⟩, hk.sets.congr hsema htouch.semmap,
        hk.calls.congr htouch.call⟩
    obtain ⟨ih₁, ih₂⟩ := ih hinv hnel fun f hf => by
      obtain ⟨i, num, hl, h1, h2⟩ := hlive f (by simp [hf])
      exact ⟨i, num, (Kernel.IsLive.congr hsema).2 hl, (hids i).symm ▸ h1, h2⟩
    refine ⟨fun i num hl' => ?_, fun x hx => ?_⟩
    · have := ih₁ i num ((Kernel.IsLive.congr hsema).2 hl')
      rw [hcells, hids] at this
      rw [foldl_cons, this, hval, Sparse.coeff_cons]
      by_cases heq : k.cell i num = k.cell j m
      · -- the entry is for this semaphore, and no later one is
        obtain ⟨rfl, rfl⟩ := hk.sets.inj i num j m hl' hl heq
        have hkey : undos.key e = toLex (k.idOf I i, (num : ℤ)) := key_eq_iff.2 ⟨hid, hnum⟩
        rw [if_pos rfl, if_pos hkey, Sparse.coeff_eq_zero_of_forall_ne, Seminfo.adjust_zero, undos_val]
        exact fun f hf hkf => hne f hf (hkey.trans hkf.symm)
      · have hkey : undos.key e ≠ toLex (k.idOf I i, (num : ℤ)) := by
          intro hkey
          obtain ⟨h1, h2⟩ := key_eq_iff.1 hkey
          obtain rfl := Kernel.idOf_inj hl.lt hl'.lt (hid.symm.trans h1)
          obtain rfl : m = num := by
            rw [hnum] at h2
            exact_mod_cast h2
          exact heq rfl
        rw [if_neg heq, if_neg hkey]
    · rw [foldl_cons, ih₂ x fun i num hl' => by
        rw [hcells]
        exact hx i num ((Kernel.IsLive.congr hsema).1 hl'), hval, if_neg (hx j m hl)]

/-- While table and ledger agree, `semexit` does what it should. -/
theorem Agrees.exits {led : ℕ → ℕ → ℤ} (hk : k.Inv I) (h : Agrees I k led) (u : User) :
    Exits I u k (SysV.semexit I k u) := by
  obtain ⟨hgone, hother⟩ := semexit_ents hk u
  have hsem : (SysV.semexit I k u).sem = ((k.undo.ents u.proc).reverse.foldl (semexitOne I) k).sem := by
    unfold SysV.semexit UndoTab.ents
    cases k.undo.semUndo u.proc <;> rfl
  have hdistinct : (k.undo.ents u.proc).Pairwise fun e f => undos.key e ≠ undos.key f :=
    (hk.undo.ents u.proc).1.imp fun h => h.ne
  obtain ⟨h1, h2⟩ := semexit_loop (l := (k.undo.ents u.proc).reverse) hk
    (pairwise_reverse.2 (hdistinct.imp fun h => h.symm))
    fun e he => h.live u.proc e (mem_reverse.1 he)
  refine ⟨fun i num hl => ?_, fun x hx => ?_, UndoTab.ents_none hgone, hother⟩
  · rw [hsem, h1 i num hl, Sparse.coeff_reverse hdistinct]
    rfl
  · rw [hsem, h2 x hx]

/-! ### The theorem -/

/-- The invariant of the undo table and of exit. -/
structure UndoInvariant (I : Seminfo) (b : Book) : Prop where
  /-- The entries of a process increase in `(un_id, un_num)`. -/
  sorted : ∀ p, (b.k.undo.ents p).Pairwise fun e f =>
    e.unId < f.unId ∨ e.unId = f.unId ∧ e.unNum < f.unNum
  nonzero : ∀ p, ∀ e ∈ b.k.undo.ents p, e.unAoe ≠ 0
  count_le : ∀ p, (b.k.undo.ents p).length ≤ I.semume
  /-- A structure of a process is on the active list, once, iff it has entries. -/
  linked : ∀ p j, b.k.undo.semUndo p = some j →
    (j ∈ b.k.undo.semunp ↔ 0 < (b.k.undo.semu j).length)
  linked_once : b.k.undo.semunp.Nodup
  /-- A structure is once on the free chain, or belongs to one process. -/
  place : ∀ j < I.semmnu, (b.k.undo.semfup.count j = 1 ∧ ∀ p, b.k.undo.semUndo p ≠ some j) ∨
    (j ∉ b.k.undo.semfup ∧ ∃! p, b.k.undo.semUndo p = some j)
  /-- The adjustment of a live semaphore is minus what the process did to it. -/
  ledger : ∀ p i num, b.k.IsLive I i num →
    b.k.undo.aoe p (b.k.idOf I i) num = -b.led p (b.k.cell i num)
  exits : ∀ u, Exits I u b.k (semexit I b.k u)

theorem UndoInvariant.of_agrees {b : Book} (hk : b.k.Inv I) (h : Agrees I b.k b.led) :
    UndoInvariant I b where
  sorted p := (hk.undo.ents p).1.imp fun h => by simpa [Prod.Lex.toLex_lt_toLex] using h
  nonzero p := (hk.undo.ents p).2
  count_le p := by
    unfold UndoTab.ents
    split
    · exact hk.undo.length_le _
    · exact Nat.zero_le _
  linked p j _ := by rw [hk.undo.linked, length_pos_iff]
  linked_once := hk.undo.linked_nodup
  place j hj := by
    rcases (hk.undo.all j).1 hj with hfree | ⟨p, hp⟩
    · exact .inl ⟨count_eq_one_of_mem hk.undo.free_nodup hfree,
        fun p hp => hk.undo.not_free p j hp hfree⟩
    · exact .inr ⟨hk.undo.not_free p j hp, p, hp, fun q hq => hk.undo.inj q p j hq hp⟩
  ledger := h.ledger
  exits := h.exits hk

theorem agrees_seminit (I : Seminfo) : Agrees I (seminit I) fun _ _ => 0 where
  live p e he := by cases he
  ledger p i num h := by cases h.alloc

/-- In every run in which a process that goes on after its sleep in `semop` with a valid id finds
the semaphores that it adjusts in the set, the undo table is right in every state, and `semexit`
would pay every adjustment back. -/
theorem undo_table_is_ledger (I : Seminfo) (b : Book)
    (h : ((bookSys I).restrict fun b a => b.k.StillFits I a).Reach b) : UndoInvariant I b := by
  refine .of_agrees (reach_inv (Book.reach_kernel h.of_restrict)) ?_
  refine h.inv (I := fun b => Agrees I b.k b.led) (fun b hb => ?_) fun b a b' hb hagree hs => ?_
  · rw [show b = _ from hb]
    exact agrees_seminit I
  · exact hagree.step (reach_inv (Book.reach_kernel hb.of_restrict)) hs.1 hs.2

/-- Process 1 waits for a semaphore of a new set, is woken by `SETVAL`, and goes on. -/
theorem undo_table_is_ledger_resume :
    ∃ b : Book, b.k.undo.ents 1 = [⟨1, 0, 0⟩] ∧ UndoInvariant seminfo b := by
  let root : User := ⟨0, 0, 0, 0, []⟩
  let ops : List Sembuf := [⟨0, -1, true, false, by decide, by decide⟩]
  have hrun : ∀ {b : Book} {a : SemAct} {k' : Kernel},
      ((bookSys seminfo).restrict fun b a => b.k.StillFits seminfo a).Reach b →
      b.k.StillFits seminfo a → b.k.step seminfo a = some k' →
      ((bookSys seminfo).restrict fun b a => b.k.StillFits seminfo a).Reach
        ⟨k', b.enter seminfo a⟩ := fun {b a k'} h hfit hs => .step h (l := a) ⟨hfit, hs, rfl⟩
  have h₀ : ((bookSys seminfo).restrict fun b a => b.k.StillFits seminfo a).Reach
    ⟨seminit seminfo, fun _ _ => 0⟩ := .init rfl
  have h₁ := hrun h₀ (a := .semget root IPC_PRIVATE 1 ⟨true, false, 0o600⟩) trivial
    (Option.some_get (by decide +kernel)).symm
  have h₂ := hrun h₁ (a := .semop ⟨1, 1, 0, 0, []⟩ 0 ops) trivial
    (Option.some_get (by decide +kernel)).symm
  have h₃ := hrun h₂ (a := .setval root 0 0 1) trivial (Option.some_get (by decide +kernel)).symm
  have h₄ := hrun h₃ (a := .resume 1) ?_ (Option.some_get (by decide +kernel)).symm
  · exact ⟨_, by decide +kernel, undo_table_is_ledger seminfo _ h₄⟩
  · intro c call hp _ op hop _
    have hproc : ∀ k : Kernel, k.procs 1 = .asleep (.ncnt 0) ⟨⟨1, 1, 0, 0, []⟩, 0, 0, ops⟩ true →
        k.procs 1 = .asleep c call true → call.semops = ops ∧ call.sp = 0 := by
      intro k h1 h2
      rw [h1] at h2
      cases h2
      exact ⟨rfl, rfl⟩
    obtain ⟨h1, h2⟩ := hproc _ (by decide +kernel) hp
    rw [h1, List.mem_singleton] at hop
    rw [hop, h2]
    decide +kernel

/-! ### An id that comes back

A process waits for the second semaphore of a set to become zero, to add 1 to it.  The set is
removed, so the process is woken, but before it runs the slot is used and removed 65535 times more
and is then used for a set of one semaphore, which has the old id.  The process goes on and adds to
the first semaphore of the next set. -/

namespace Reuse

/-- The user who makes and removes the sets. -/
def root : User := ⟨0, 0, 0, 0, []⟩

/-- The call that sleeps. -/
def call : SemopCall :=
  ⟨⟨1, 1, 0, 0, []⟩, 0, 0, [⟨1, 0, false, false, by decide, by decide⟩,
    ⟨1, 1, true, false, by decide, by decide⟩]⟩

/-- `semget(IPC_PRIVATE, nsems, 0600)`. -/
def get (nsems : ℤ) : SemAct := .semget root IPC_PRIVATE nsems ⟨true, false, 0o600⟩

/-- Nobody has undo entries, and the process was woken. -/
def Woken (k : Kernel) : Prop :=
  (k.undo.semunp = [] ∧ k.undo.semUndo 1 = none ∧ k.undo.semfup = List.range 30 ∧
    k.undo.semu 0 = []) ∧ k.procs 0 = .running ∧ k.procs 1 = .asleep (.zcnt 1) call true

instance (k : Kernel) : Decidable (Woken k) := inferInstanceAs (Decidable (_ ∧ _))

/-- No set is left, and `n` removals were counted for the first slot. -/
def Parked (n : ℕ) (k : Kernel) : Prop :=
  (∀ i < 64, (k.sema i).semPerm.ipcAlloc = false) ∧ (k.sema 0).semPerm.seq = n ∧
    k.semmap = ⟨[⟨1, 128⟩], 63⟩ ∧ Woken k

/-- The first slot has a set of one semaphore of the superuser, the others have none. -/
structure Made (n : ℕ) (k : Kernel) : Prop where
  dead : ∀ i < 64, i ≠ 0 → (k.sema i).semPerm.ipcAlloc = false
  alloc : (k.sema 0).semPerm.ipcAlloc = true
  seq : (k.sema 0).semPerm.seq = n
  uid : (k.sema 0).semPerm.uid = 0
  base : (k.sema 0).semBase = 0
  nsems : (k.sema 0).semNsems = 1
  map : k.semmap = ⟨[⟨2, 127⟩], 63⟩
  woken : Woken k

instance (n : ℕ) (k : Kernel) : Decidable (Parked n k) := inferInstanceAs (Decidable (_ ∧ _))

/-- `semget` with `IPC_PRIVATE` takes the first free slot. -/
theorem semget_private {k : Kernel} {i n a : ℕ} {m : IpcMap} {u : User} (flg : GetFlag)
    (hi : i < I.semmni) (hfree : (k.sema i).semPerm.ipcAlloc = false)
    (hused : ∀ j < i, (k.sema j).semPerm.ipcAlloc = true) (hn : 0 < n) (hle : n ≤ I.semmsl)
    (hm : ipcmalloc k.semmap n = (a + 1, m)) :
    (semget I k u IPC_PRIVATE n flg).1 = { k with
      sema := Function.update k.sema i ⟨(k.sema i).semPerm.init u IPC_PRIVATE flg, a, n⟩
      semmap := m
      sem := fun y => if a ≤ y ∧ y < a + n then Sem.zero else k.sem y } := by
  have hfind : ((List.range I.semmni).find? fun i => !(k.sema i).semPerm.ipcAlloc) = some i := by
    rw [find?_range_eq_some]
    exact ⟨by simp [hfree], mem_range.2 hi, fun j hj => by simp [hused j hj]⟩
  have hget : ipcgetperm IPC_PRIVATE flg (fun i => (k.sema i).semPerm) I.semmni = .ok (i, true) := by
    simp only [ipcgetperm, hfind, if_true]
  unfold semget
  rw [hget]
  simp only [hm, Int.toNat_natCast]
  rw [if_neg (by omega), if_neg (by omega)]
  rfl

/-- `wakeup` does not change a process that runs or was woken already. -/
theorem clearSem_procs {k : Kernel} {p : ℕ} (h : ∀ c, (k.procs p).wake c = k.procs p) (x : ℕ) :
    (k.clearSem x).procs p = k.procs p := by
  have hN : ∀ k' : Kernel, k'.procs p = k.procs p → (k'.wakeN x).procs p = k.procs p := by
    intro k' hk'
    unfold Kernel.wakeN
    split_ifs
    · show (k'.procs p).wake _ = _
      rw [hk', h]
    · exact hk'
  have hZ : ∀ k' : Kernel, k'.procs p = k.procs p → (k'.wakeZ x).procs p = k.procs p := by
    intro k' hk'
    unfold Kernel.wakeZ
    split_ifs
    · show (k'.procs p).wake _ = _
      rw [hk', h]
    · exact hk'
  exact hZ _ (hN _ rfl)

/-- A new set of one semaphore. -/
theorem made_of_parked {n : ℕ} {k : Kernel} (h : Parked n k) :
    ∃ k', k.step seminfo (get 1) = some k' ∧ Made n k' := by
  obtain ⟨hdead, hseq, hmap, hwoken⟩ := h
  have hget := semget_private (I := seminfo) (k := k) (i := 0) (n := 1) (a := 0)
    (m := ⟨[⟨2, 127⟩], 63⟩) (u := root) ⟨true, false, 0o600⟩ (by decide) (hdead 0 (by decide))
    (by omega) (by decide) (by decide) (by rw [hmap]; decide)
  refine ⟨(semget seminfo k root IPC_PRIVATE 1 ⟨true, false, 0o600⟩).1, ?_, ?_⟩
  · simp only [get, Kernel.step, show k.procs root.proc = .running from hwoken.2.1]
  · rw [show (1 : ℤ) = ((1 : ℕ) : ℤ) from rfl, hget]
    refine ⟨fun i hi hne => ?_, ?_, ?_, ?_, ?_, ?_, rfl, hwoken⟩
    · simpa [hne] using hdead i hi
    all_goals simp [IpcPerm.init, root, hseq]

/-- The removal of the set counts one more removal, modulo 65536. -/
theorem parked_of_made {n : ℕ} {k : Kernel} (h : Made n k) (hn : n < 65536) :
    ∃ k', k.step seminfo (.rmid root (k.idOf seminfo 0)) = some k' ∧ Parked ((n + 1) % 65536) k' := by
  have hid : k.idOf seminfo 0 = n * 64 := by
    rw [Kernel.idOf, h.seq]
    rfl
  have hconv := semconv_idOf (I := seminfo) (k := k) (i := 0) (by decide) h.alloc
  refine ⟨(semRmid seminfo k root (k.idOf seminfo 0)).1, ?_, ?_⟩
  · simp only [Kernel.step, show k.procs root.proc = .running from h.woken.2.1]
  · unfold semRmid
    rw [hconv]
    simp only
    rw [if_neg (by simp [root, h.uid])]
    have hone : ∀ k' : Kernel, (k'.sema 0).semNsems = 1 →
        k'.eachSem (fun k x _ => k.clearSem x) 0 = k'.clearSem ((k'.sema 0).semBase + 0) := by
      intro k' hk'
      unfold Kernel.eachSem
      rw [hk']
      rfl
    rw [hone (k.semunrm (k.idOf seminfo 0) 0 (k.sema 0).semNsems) h.nsems]
    generalize hk₁ : (k.semunrm (k.idOf seminfo 0) 0 (k.sema 0).semNsems).clearSem _ = k₁
    have htouch : (k.semunrm (k.idOf seminfo 0) 0 (k.sema 0).semNsems).Touch k₁ :=
      hk₁ ▸ Kernel.touch_clearSem _ _
    obtain ⟨⟨hunp, hun, hfup, hsemu⟩, hroot, hparked⟩ := h.woken
    have hundo : k₁.undo = { k.undo with semunp := [] } := by
      rw [htouch.undo]
      simp only [Kernel.semunrm, SysV.semunrm, hunp, semunrmChain]
    refine ⟨fun i hi => ?_, ?_, ?_, ⟨?_, ?_, ?_, ?_⟩, ?_, ?_⟩
    · by_cases hi0 : i = 0
      · simp [hi0]
      · simp only [Function.update_of_ne hi0, htouch.sema]
        exact h.dead i hi hi0
    · simp only [Function.update_self, h.seq, hid]
      rw [if_neg]
      simp only [seminfo]
      omega
    · simp only [htouch.semmap, h.nsems, h.base]
      show ipcmfree k.semmap 1 (0 + 1) = _
      rw [h.map]
      decide
    · rw [hundo]
    · rw [hundo]
      exact hun
    · rw [hundo]
      exact hfup
    · rw [hundo]
      exact hsemu
    · rw [← hroot, ← hk₁]
      exact clearSem_procs (p := 0) (fun c => by simp [Kernel.semunrm, hroot, SemProc.wake]) _
    · rw [← hparked, ← hk₁]
      exact clearSem_procs (p := 1) (fun c => by simp [Kernel.semunrm, hparked, SemProc.wake]) _

theorem reach_step {b : Book} (h : (bookSys I).Reach b) {a : SemAct} {k' : Kernel}
    (hs : b.k.step I a = some k') : (bookSys I).Reach ⟨k', b.enter I a⟩ :=
  .step h (l := a) ⟨hs, rfl⟩

/-- Any number of removals. -/
theorem reach_parked {n : ℕ} {b : Book} (h : (bookSys seminfo).Reach b) (hb : Parked n b.k)
    (hn : n < 65536) (m : ℕ) : ∃ b', (bookSys seminfo).Reach b' ∧ Parked ((n + m) % 65536) b'.k := by
  induction m with
  | zero => exact ⟨b, h, by rwa [Nat.add_zero, Nat.mod_eq_of_lt hn]⟩
  | succ m ih =>
    obtain ⟨b', hreach, hparked⟩ := ih
    obtain ⟨k₁, hs₁, hmade⟩ := made_of_parked hparked
    obtain ⟨k₂, hs₂, hparked₂⟩ := parked_of_made hmade (Nat.mod_lt _ (by decide))
    have hmod : ((n + m) % 65536 + 1) % 65536 = (n + (m + 1)) % 65536 := by omega
    exact ⟨_, reach_step (reach_step hreach hs₁) hs₂, hmod ▸ hparked₂⟩

theorem reach_parked_one : ∃ b, (bookSys seminfo).Reach b ∧ Parked 1 b.k := by
  have h₀ : (bookSys seminfo).Reach ⟨seminit seminfo, fun _ _ => 0⟩ := .init rfl
  have h₁ := reach_step h₀ (a := get 2) (Option.some_get (by decide +kernel)).symm
  have h₂ := reach_step h₁ (a := .setval root 0 1 1) (Option.some_get (by decide +kernel)).symm
  have h₃ := reach_step h₂ (a := .semop call.user 0 call.semops)
    (Option.some_get (by decide +kernel)).symm
  have h₄ := reach_step h₃ (a := .rmid root 0) (Option.some_get (by decide +kernel)).symm
  exact ⟨_, h₄, by decide +kernel⟩

/-- The operations of the call succeed on semaphores that are zero. -/
theorem call_done {k : Kernel} (hbase : (k.sema 0).semBase = 0) (hsem : k.sem 1 = Sem.zero)
    (hwoken : Woken k) : (semopPass seminfo k call.user call.semid call.sp call.semops).2 = .done := by
  obtain ⟨⟨-, hun, hfup, hsemu⟩, -, -⟩ := hwoken
  have haoe : (semaoe seminfo 1 1 0 (short 1) k.undo).2 = none := by
    unfold semaoe
    rw [if_neg (by decide), if_neg (by decide), hun]
    simp only [hfup, range_succ_eq_map]
    unfold semaoeAt
    simp [UndoTab.grab, hsemu, seminfo]
  have hvmx : seminfo.semvmx = 32767 := rfl
  have hwait : semopOne seminfo k call.user 0 0 ⟨1, 0, false, false, by decide, by decide⟩ =
      (k, .done) := by
    simp [semopOne, hbase, hsem, Sem.zero]
  have hadd : (semopOne seminfo k call.user 0 0 ⟨1, 1, true, false, by decide, by decide⟩).2 =
      .done := by
    simp only [semopOne, hbase, Nat.zero_add, hsem, hvmx]
    rw [if_pos (by decide), if_neg (by decide)]
    rw [if_pos trivial]
    rcases hr : semaoe seminfo call.user.proc 1 0 (short ((1 : ℕ) : ℤ)) k.undo with ⟨t, e⟩
    obtain rfl : e = none := (congrArg Prod.snd hr).symm.trans haoe
    rfl
  show (semopPass seminfo k call.user 0 0 call.semops).2 = _
  simp only [semopPass, call, semopScan] at hwait hadd ⊢
  rw [hwait]
  simp only
  cases hr : semopOne seminfo k ⟨1, 1, 0, 0, []⟩ 0 0 ⟨1, 1, true, false, by decide, by decide⟩ with
  | mk k' r =>
    rw [hr] at hadd
    subst hadd
    rfl

/-- The claim of `undo_table_is_ledger` fails without its condition. -/
theorem undo_table_not_ledger : ¬∀ b, (bookSys seminfo).Reach b → UndoInvariant seminfo b := by
  intro hall
  obtain ⟨b₁, hreach₁, hparked₁⟩ := reach_parked_one
  -- 65535 more removals, and the id is back
  obtain ⟨b, hreach, hparked⟩ := reach_parked hreach₁ hparked₁ (by decide) 65535
  obtain ⟨k₁, hs₁, hmade⟩ := made_of_parked hparked
  have hreach₁ := reach_step hreach hs₁
  generalize b.enter seminfo (get 1) = led₁ at hreach₁
  have hget := semget_private (I := seminfo) (k := k₁) (i := 1) (n := 1) (a := 1)
    (m := ⟨[⟨3, 126⟩], 63⟩) (u := root) ⟨true, false, 0o600⟩ (by decide)
    (hmade.dead 1 (by decide) (by decide))
    (fun j hj => by obtain rfl : j = 0 := by omega
                    exact hmade.alloc) (by omega) (by decide) (by rw [hmade.map]; decide)
  generalize hk₂ : (semget seminfo k₁ root IPC_PRIVATE (1 : ℕ) ⟨true, false, 0o600⟩).1 = k₂ at hget
  have hs₂ : k₁.step seminfo (get 1) = some k₂ := by
    rw [← hk₂]
    simp only [get, Kernel.step, show k₁.procs root.proc = .running from hmade.woken.2.1]
    rfl
  have hreach₂ := reach_step hreach₁ hs₂
  have hled₂ : (⟨k₁, led₁⟩ : Book).enter seminfo (get 1) 1 1 = 0 := by
    refine if_pos ⟨1, by decide, hmade.dead 1 (by decide) (by decide), ?_⟩
    rw [show (1 : ℤ) = ((1 : ℕ) : ℤ) from rfl, hk₂, hget]
    simp [IpcPerm.init]
  generalize (⟨k₁, led₁⟩ : Book).enter seminfo (get 1) = led₂ at hreach₂ hled₂
  have hwoken₂ : Woken k₂ := by
    rw [hget]
    exact hmade.woken
  have hbase₂ : (k₂.sema 0).semBase = 0 := by
    rw [hget]
    simpa using hmade.base
  have hsem₂ : k₂.sem 1 = Sem.zero := by
    rw [hget]
    simp
  have hlive₂ : k₂.IsLive seminfo 1 0 := by
    rw [hget]
    exact ⟨by decide, by simp [IpcPerm.init], by simp⟩
  have hcell₂ : k₂.cell 1 0 = 1 := by
    rw [hget]
    simp [Kernel.cell]
  have hid₂ : k₂.idOf seminfo 0 = 0 := by
    rw [hget, Kernel.idOf]
    simp [hmade.seq]
  have halloc₂ : (k₂.sema 0).semPerm.ipcAlloc = true := by
    rw [hget]
    simpa using hmade.alloc
  have hconv : semconv seminfo k₂ call.semid = some 0 := by
    have := semconv_idOf (I := seminfo) (k := k₂) (i := 0) (by decide) halloc₂
    rwa [hid₂] at this
  have hpass := call_done hbase₂ hsem₂ hwoken₂
  have hs₃ : k₂.step seminfo (.resume 1) = some (semopTry seminfo k₂ call).1 := by
    simp only [Kernel.step, hwoken₂.2.2, semopAgain, hconv]
  have hreach₃ := reach_step hreach₂ hs₃
  have hok := (reach_inv (Book.reach_kernel hreach₂)).toOk
  have hinv := (hall _ hreach₃).ledger 1 1 0
  -- the ledger says 1, and the table has no entry for the set
  have hpassOf : k₂.passOf seminfo (.resume 1) = some call := by
    simp only [Kernel.passOf, hwoken₂.2.2, hconv]
    rfl
  have hled₃ : (⟨k₂, led₂⟩ : Book).enter seminfo (.resume 1) 1 1 = 1 := by
    rw [Book.enter_of_not_set (fun _ => id) (fun _ h => by cases h), hpassOf]
    simp only [hpass, and_true]
    rw [if_pos (by decide), hled₂, show (k₂.sema call.sp).semBase = 0 from hbase₂]
    decide
  simp only at hinv
  cases semopTry_cases hok call with
  | stop hne => exact hne hpass
  | @done k₃ _ _ happ hat =>
    obtain ⟨-, hkeep, -, -⟩ := happ.ok hok
    have hsema := hat.sema.trans hkeep.sema
    obtain ⟨-, -, haoe⟩ := happ.ents hok
    have hne : call.semid ≠ k₂.idOf seminfo 1 := by
      intro heq
      have : 0 = 1 := Kernel.idOf_inj (by decide) (by decide) (hid₂.trans heq)
      cases this
    have hzero : k₂.undo.aoe 1 (k₂.idOf seminfo 1) (0 : ℕ) = 0 := by
      rw [UndoTab.aoe, UndoTab.ents_none hwoken₂.1.2.1]
      rfl
    have haoe' := haoe (k₂.idOf seminfo 1) (0 : ℕ)
    have hsum : (call.semops.reverse.map fun _ => (0 : ℤ)).sum = 0 := rfl
    simp only [hne, false_and, if_false, hsum] at haoe'
    have hcon := hinv ((Kernel.IsLive.congr hsema).2 hlive₂)
    rw [Kernel.idOf_congr (congrFun hsema 1), Kernel.cell_congr (congrFun hsema 1), hcell₂, hled₃,
      hat.undo] at hcon
    rw [show call.user.proc = 1 from rfl, hzero, hcon] at haoe'
    omega

end Reuse

end SysV

end Hpux
