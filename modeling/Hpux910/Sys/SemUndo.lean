import Hpux910.Lib.Sparse
import Hpux910.Sys.SysVIpc
import Mathlib

/-!
# The adjust-on-exit table of the semaphores

Each process that does semaphore operations with `SEM_UNDO` owns a `sem_undo` structure with its
adjustments, sorted by `(un_id, un_num)`.  Structures with entries are linked on `semunp`, those
without owner on `semfup` (`sys/sysV_sem.c`).

* `Seminfo` : the tunable limits.
* `UndoTab` : the structures, the two chains and the owners.
* `semaoe`, `semunrm`, `UndoTab.release` : the routines that edit the table.
* `UndoTab.Ok` : the invariant of the table.
* `semaoe_cases`, `semunrm_spec`, `UndoTab.Ok.release` : what the routines do, and that they keep
  the invariant.
-/

namespace Hpux

namespace SysV

open List Function

/-- `seminfo`; the bounds are those of the fields that hold values of this size. -/
structure Seminfo where
  /-- Entries of the allocation map. -/
  semmap : ℕ
  /-- Semaphore sets. -/
  semmni : ℕ
  /-- Semaphores. -/
  semmns : ℕ
  /-- Undo structures. -/
  semmnu : ℕ
  /-- Semaphores of one set. -/
  semmsl : ℕ
  /-- Operations of one call. -/
  semopm : ℕ
  /-- Undo entries of one process. -/
  semume : ℕ
  /-- Largest semaphore value. -/
  semvmx : ℕ
  /-- Largest adjustment. -/
  semaem : ℕ
  semmni_pos : 0 < semmni
  semmnu_pos : 0 < semmnu
  /-- Ids are `int`. -/
  semmni_lt : semmni < 32768
  /-- `m_size` is a `short`. -/
  semmns_lt : semmns < 32768
  /-- `un_num` is a `short`. -/
  semmsl_lt : semmsl < 32768
  /-- `un_cnt` is a `short`. -/
  semume_lt : semume < 32768
  /-- `semval` is an `unsigned short`. -/
  semvmx_lt : semvmx < 65536
  /-- `un_aoe` is a `short`. -/
  semaem_lt : semaem < 32768

/-- The values of `conf.c`. -/
def seminfo : Seminfo where
  semmap := 66
  semmni := 64
  semmns := 128
  semmnu := 30
  semmsl := 50
  semopm := 500
  semume := 10
  semvmx := 32767
  semaem := 16384
  semmni_pos := by decide
  semmnu_pos := by decide
  semmni_lt := by decide
  semmns_lt := by decide
  semmsl_lt := by decide
  semume_lt := by decide
  semvmx_lt := by decide
  semaem_lt := by decide

/-- Conversion to `short`. -/
def short (x : ℤ) : ℤ := x.bmod 65536

/-- Conversion to `unsigned short`. -/
def ushort (x : ℤ) : ℕ := (x % 65536).toNat

theorem short_eq {x : ℤ} (h1 : -32768 ≤ x) (h2 : x < 32768) : short x = x := by
  unfold short
  rw [Int.bmod_def]
  split_ifs <;> omega

theorem ushort_lt (x : ℤ) : ushort x < 65536 := by
  unfold ushort
  omega

/-- An entry of `un_ent`. -/
structure Undo where
  /-- `un_aoe`, the adjustment. -/
  unAoe : ℤ
  /-- `un_num`, the semaphore in its set. -/
  unNum : ℤ
  /-- `un_id`, the set. -/
  unId : ℤ
  deriving DecidableEq, Repr

/-- The undo structures, by their index in `semu[]`. -/
structure UndoTab where
  /-- `sem_undo[]`, the structure of each process. -/
  semUndo : ℕ → Option ℕ
  /-- The entries `un_ent[0..un_cnt]` of each structure. -/
  semu : ℕ → List Undo
  /-- The active chain. -/
  semunp : List ℕ
  /-- The free chain. -/
  semfup : List ℕ

namespace UndoTab

/-- The entries of a process. -/
def ents (t : UndoTab) (p : ℕ) : List Undo :=
  match t.semUndo p with
  | some up => t.semu up
  | none => []

/-- A new entry was put into the structure `up`; the first one links it. -/
def insert (t : UndoTab) (up : ℕ) (l : List Undo) : UndoTab :=
  { t with
    semu := Function.update t.semu up l
    semunp := if t.semu up = [] then up :: t.semunp else t.semunp }

/-- An entry of the structure `up` was changed or removed; without the last one it is unlinked. -/
def store (t : UndoTab) (up : ℕ) (l : List Undo) : UndoTab :=
  { t with
    semu := Function.update t.semu up l
    semunp := if l = [] then t.semunp.erase up else t.semunp }

/-- Give the process `p` the first free structure. -/
def grab (t : UndoTab) (p up : ℕ) (rest : List ℕ) : UndoTab :=
  { t with semfup := rest, semUndo := Function.update t.semUndo p (some up) }

/-- The end of `semexit` : drop the entries of the structure, unlink it and put it on the free
chain. -/
def release (t : UndoTab) (p up : ℕ) : UndoTab where
  semUndo := Function.update t.semUndo p none
  semu := Function.update t.semu up []
  semunp := if t.semu up = [] then t.semunp else t.semunp.erase up
  semfup := up :: t.semfup

end UndoTab

/-- The entries that the search loop of `semaoe` skips. -/
def Undo.isBefore (id num : ℤ) (e : Undo) : Bool :=
  e.unId < id ∨ (e.unId = id ∧ e.unNum < num)

section

variable (I : Seminfo)

/-- `semaoe` from its search loop on, for the structure `up`. -/
def semaoeAt (up : ℕ) (val id num : ℤ) (t : UndoTab) : UndoTab × Option Errno :=
  let skipped := (t.semu up).takeWhile (Undo.isBefore id num)
  match (t.semu up).dropWhile (Undo.isBefore id num) with
  | [] =>
    if (t.semu up).length ≥ I.semume then (t, some .EINVAL)
    else (t.insert up (skipped ++ [⟨short (-val), num, id⟩]), none)
  | e :: rest =>
    if e.unId = id ∧ e.unNum = num then
      let tmpAoe := e.unAoe - val
      if tmpAoe > I.semaem ∨ tmpAoe < -I.semaem then (t, some .ERANGE)
      else if short tmpAoe = 0 then (t.store up (skipped ++ rest), none)
      else (t.store up (skipped ++ { e with unAoe := short tmpAoe } :: rest), none)
    else if (t.semu up).length ≥ I.semume then (t, some .EINVAL)
    else (t.insert up (skipped ++ ⟨short (-val), num, id⟩ :: e :: rest), none)

/-- `semaoe` for the process `p`; the error is what it leaves in `u.u_error` when it returns 1. -/
def semaoe (p : ℕ) (val id num : ℤ) (t : UndoTab) : UndoTab × Option Errno :=
  if val = 0 then (t, none)
  else if val > I.semaem ∨ val < -I.semaem then (t, some .ERANGE)
  else
    match t.semUndo p with
    | some up => semaoeAt I up val id num t
    | none =>
      match t.semfup with
      | [] => (t, some .ENOSPC)
      | up :: rest => semaoeAt I up val id num (t.grab p up rest)

end

/-- The inner loop of `semunrm`. -/
def semunrmEnts (id low high : ℤ) : List Undo → List Undo
  | [] => []
  | e :: l =>
    if id < e.unId then e :: l
    else if id > e.unId ∨ low > e.unNum then e :: semunrmEnts id low high l
    else if high < e.unNum then e :: l
    else semunrmEnts id low high l

/-- The outer loop of `semunrm` over the active chain. -/
def semunrmChain (id low high : ℤ) : List ℕ → (ℕ → List Undo) → List ℕ × (ℕ → List Undo)
  | [], semu => ([], semu)
  | p :: chain, semu =>
    let l := semunrmEnts id low high (semu p)
    let x := semunrmChain id low high chain (Function.update semu p l)
    if l = [] then x else (p :: x.1, x.2)

/-- `semunrm`. -/
def semunrm (id low high : ℤ) (t : UndoTab) : UndoTab :=
  let x := semunrmChain id low high t.semunp t.semu
  { t with semunp := x.1, semu := x.2 }

/-! ### Entries as a sparse function -/

/-- The entries as adjustments by `(un_id, un_num)`. -/
def undos : Sparse Undo (ℤ ×ₗ ℤ) where
  key e := toLex (e.unId, e.unNum)
  val := Undo.unAoe
  make k v := ⟨v, (ofLex k).2, (ofLex k).1⟩
  key_make _ _ := rfl
  val_make _ _ := rfl
  make_key_val _ := rfl

@[simp] theorem undos_key (e : Undo) : undos.key e = toLex (e.unId, e.unNum) := rfl
@[simp] theorem undos_val (e : Undo) : undos.val e = e.unAoe := rfl

theorem isBefore_iff (id num : ℤ) (e : Undo) :
    Undo.isBefore id num e = true ↔ undos.key e < toLex (id, num) := by
  simp [Undo.isBefore, Prod.Lex.toLex_lt_toLex]

theorem key_eq_iff {id num : ℤ} {e : Undo} :
    undos.key e = toLex (id, num) ↔ e.unId = id ∧ e.unNum = num := by
  simp [Prod.ext_iff]

/-- The adjustment of a process for one semaphore, 0 without an entry. -/
def UndoTab.aoe (t : UndoTab) (p : ℕ) (id num : ℤ) : ℤ := undos.coeff (t.ents p) (toLex (id, num))

/-! ### The invariant -/

/-- The undo table is well formed. -/
structure UndoTab.Ok (I : Seminfo) (t : UndoTab) : Prop where
  /-- Entries are strictly increasing in `(un_id, un_num)` and not zero. -/
  sparse : ∀ j, undos.Ok (t.semu j)
  length_le : ∀ j, (t.semu j).length ≤ I.semume
  aoe_le : ∀ j, ∀ e ∈ t.semu j, -(I.semaem : ℤ) ≤ e.unAoe ∧ e.unAoe ≤ I.semaem
  /-- The active chain holds the structures with entries. -/
  linked : ∀ j, j ∈ t.semunp ↔ t.semu j ≠ []
  linked_nodup : t.semunp.Nodup
  free_nodup : t.semfup.Nodup
  /-- The structures are those on the free chain and those of the processes. -/
  all : ∀ j, j < I.semmnu ↔ j ∈ t.semfup ∨ ∃ p, t.semUndo p = some j
  not_free : ∀ p j, t.semUndo p = some j → j ∉ t.semfup
  inj : ∀ p q j, t.semUndo p = some j → t.semUndo q = some j → p = q
  /-- Entries are in structures of processes only. -/
  owned : ∀ j, t.semu j ≠ [] → ∃ p, t.semUndo p = some j

namespace UndoTab

variable {I : Seminfo} {t : UndoTab} {p up : ℕ}

theorem ents_some (h : t.semUndo p = some up) : t.ents p = t.semu up := by
  simp [ents, h]

theorem ents_none {p : ℕ} (h : t.semUndo p = none) : t.ents p = [] := by
  simp [ents, h]

theorem Ok.ents (h : t.Ok I) (p : ℕ) : undos.Ok (t.ents p) := by
  unfold UndoTab.ents
  split
  · exact h.sparse _
  · exact Sparse.ok_nil

theorem Ok.free_empty (h : t.Ok I) {j : ℕ} (hj : j ∈ t.semfup) : t.semu j = [] := by
  by_contra hne
  obtain ⟨p, hp⟩ := h.owned j hne
  exact h.not_free p j hp hj

/-- What `semaoe` may do to the owners: give the process `p` a free structure. -/
structure Owns (p : ℕ) (t t' : UndoTab) : Prop where
  other : ∀ q, q ≠ p → t'.semUndo q = t.semUndo q
  keep : ∀ j, t.semUndo p = some j → t'.semUndo p = some j
  new : t.semUndo p = none → ∀ j, t'.semUndo p = some j → j ∈ t.semfup

theorem Owns.refl (p : ℕ) (t : UndoTab) : Owns p t t :=
  ⟨fun _ _ => rfl, fun _ h => h, fun h j hj => by rw [h] at hj; cases hj⟩

/-- New owners and old contents give old entries. -/
theorem Owns.ents_eq {p : ℕ} {t' : UndoTab} (h : Owns p t t') (hok : t.Ok I)
    (hsemu : t'.semu = t.semu) (q : ℕ) : t'.ents q = t.ents q := by
  by_cases hq : q = p
  · subst hq
    cases hp : t.semUndo q with
    | some j => rw [ents_some hp, ents_some (h.keep j hp), hsemu]
    | none =>
      rw [ents_none hp]
      cases hp' : t'.semUndo q with
      | none => exact ents_none hp'
      | some j => rw [ents_some hp', hsemu, hok.free_empty (h.new hp j hp')]
  · unfold UndoTab.ents
    rw [h.other q hq, hsemu]

theorem Owns.trans {p : ℕ} {t' t'' : UndoTab} (h : Owns p t t') (h' : Owns p t' t'')
    (hfup : t'.semUndo p = none → t'.semfup = t.semfup) : Owns p t t'' := by
  refine ⟨fun q hq => (h'.other q hq).trans (h.other q hq), fun j hj => h'.keep j (h.keep j hj), ?_⟩
  intro hp j hj
  cases hp' : t'.semUndo p with
  | none => exact hfup hp' ▸ h'.new hp' j hj
  | some j' =>
    have := h'.keep j' hp'
    rw [hj] at this
    cases this
    exact h.new hp j hp'

/-- Write a list into the structure of a process, with the links that go with it. -/
theorem Ok.write (h : t.Ok I) (hp : t.semUndo p = some up) {l : List Undo}
    (hl : undos.Ok l) (hlen : l.length ≤ I.semume)
    (haoe : ∀ e ∈ l, -(I.semaem : ℤ) ≤ e.unAoe ∧ e.unAoe ≤ I.semaem) {chain : List ℕ}
    (hchain : chain.Nodup) (hup : up ∈ chain ↔ l ≠ [])
    (hother : ∀ j, j ≠ up → (j ∈ chain ↔ j ∈ t.semunp)) :
    Ok I { t with semu := Function.update t.semu up l, semunp := chain } where
  sparse j := by
    by_cases hj : j = up
    · subst hj; simpa using hl
    · simpa [hj] using h.sparse j
  length_le j := by
    by_cases hj : j = up
    · subst hj; simpa using hlen
    · simpa [hj] using h.length_le j
  aoe_le j := by
    by_cases hj : j = up
    · subst hj; simpa using haoe
    · simpa [hj] using h.aoe_le j
  linked j := by
    by_cases hj : j = up
    · subst hj; simpa using hup
    · simp only [update_of_ne hj]
      exact (hother j hj).trans (h.linked j)
  linked_nodup := hchain
  free_nodup := h.free_nodup
  all := h.all
  not_free := h.not_free
  inj := h.inj
  owned j hj := by
    by_cases hju : j = up
    · exact ⟨p, hju ▸ hp⟩
    · exact h.owned j (by simpa [hju] using hj)

theorem Ok.insert (h : t.Ok I) (hp : t.semUndo p = some up) {l : List Undo}
    (hl : undos.Ok l) (hlen : l.length ≤ I.semume)
    (haoe : ∀ e ∈ l, -(I.semaem : ℤ) ≤ e.unAoe ∧ e.unAoe ≤ I.semaem) (hne : l ≠ []) :
    (t.insert up l).Ok I := by
  refine h.write hp hl hlen haoe ?_ ?_ ?_
  · split_ifs with hup
    · exact nodup_cons.2 ⟨fun hmem => (h.linked up).1 hmem hup, h.linked_nodup⟩
    · exact h.linked_nodup
  · split_ifs with hup
    · simpa using hne
    · simpa [hne] using (h.linked up).2 hup
  · intro j hj
    split_ifs
    · simp [hj]
    · rfl

theorem Ok.store (h : t.Ok I) (hp : t.semUndo p = some up) {l : List Undo}
    (hl : undos.Ok l) (hlen : l.length ≤ I.semume)
    (haoe : ∀ e ∈ l, -(I.semaem : ℤ) ≤ e.unAoe ∧ e.unAoe ≤ I.semaem) (hne : t.semu up ≠ []) :
    (t.store up l).Ok I := by
  refine h.write hp hl hlen haoe ?_ ?_ ?_
  · split_ifs
    · exact h.linked_nodup.erase up
    · exact h.linked_nodup
  · split_ifs with hnil
    · simp [hnil, h.linked_nodup.mem_erase_iff]
    · simpa [hnil] using (h.linked up).2 hne
  · intro j hj
    split_ifs
    · simp [h.linked_nodup.mem_erase_iff, hj]
    · rfl

theorem Ok.grab (h : t.Ok I) {rest : List ℕ} (hp : t.semUndo p = none)
    (hup : t.semfup = up :: rest) : (t.grab p up rest).Ok I := by
  have hnd := nodup_cons.1 (hup ▸ h.free_nodup)
  have hfree : ∀ q, t.semUndo q ≠ some up := fun q hq => h.not_free q up hq (by simp [hup])
  refine ⟨h.sparse, h.length_le, h.aoe_le, h.linked, h.linked_nodup, hnd.2, fun j => ?_,
    fun q j hq hj => ?_, fun q q' j hq hq' => ?_, fun j hj => ?_⟩
  · rw [h.all j, hup]
    constructor
    · rintro (hj | ⟨q, hq⟩)
      · rcases mem_cons.1 hj with rfl | hj
        · exact .inr ⟨p, by simp [UndoTab.grab]⟩
        · exact .inl hj
      · refine .inr ⟨q, ?_⟩
        have : q ≠ p := by
          rintro rfl
          rw [hp] at hq
          cases hq
        simpa [UndoTab.grab, this] using hq
    · rintro (hj | ⟨q, hq⟩)
      · exact .inl (by simp [show j ∈ rest from hj])
      · by_cases hqp : q = p
        · subst hqp
          simp only [UndoTab.grab, update_self, Option.some.injEq] at hq
          exact .inl (by simp [hq])
        · exact .inr ⟨q, by simpa [UndoTab.grab, hqp] using hq⟩
  · by_cases hqp : q = p
    · subst hqp
      simp only [UndoTab.grab, update_self, Option.some.injEq] at hq hj
      exact hnd.1 (hq ▸ hj)
    · simp only [UndoTab.grab, update_of_ne hqp] at hq hj
      exact h.not_free q j hq (by simp [hup, hj])
  · by_cases h1 : q = p <;> by_cases h2 : q' = p
    · exact h1.trans h2.symm
    · subst h1
      simp only [UndoTab.grab, update_self, Option.some.injEq, update_of_ne h2] at hq hq'
      exact absurd (hq ▸ hq') (hfree q')
    · subst h2
      simp only [UndoTab.grab, update_self, Option.some.injEq, update_of_ne h1] at hq hq'
      exact absurd (hq' ▸ hq) (hfree q)
    · simp only [UndoTab.grab, update_of_ne h1, update_of_ne h2] at hq hq'
      exact h.inj q q' j hq hq'
  · obtain ⟨q, hq⟩ := h.owned j hj
    refine ⟨q, ?_⟩
    have : q ≠ p := by
      rintro rfl
      rw [hp] at hq
      cases hq
    simpa [UndoTab.grab, this] using hq

theorem owns_grab {rest : List ℕ} (hp : t.semUndo p = none)
    (hup : t.semfup = up :: rest) : Owns p t (t.grab p up rest) := by
  refine ⟨fun q hq => by simp [UndoTab.grab, hq], fun j hj => ?_, fun _ j hj => ?_⟩
  · rw [hp] at hj
    cases hj
  · simp only [UndoTab.grab, update_self, Option.some.injEq] at hj
    simp [hup, hj]

/-- The end of `semexit` keeps the invariant. -/
theorem Ok.release (h : t.Ok I) (hp : t.semUndo p = some up) : (t.release p up).Ok I := by
  have hmem : ∀ j, j ∈ (t.release p up).semunp ↔ j ∈ t.semunp ∧ j ≠ up := by
    intro j
    simp only [UndoTab.release]
    split_ifs with hnil
    · refine ⟨fun hj => ⟨hj, ?_⟩, And.left⟩
      rintro rfl
      exact (h.linked j).1 hj hnil
    · rw [h.linked_nodup.mem_erase_iff, and_comm]
  have hsemu : ∀ j, (t.release p up).semu j = if j = up then [] else t.semu j := fun j => by
    simp [UndoTab.release, update_apply]
  have howner : ∀ q, (t.release p up).semUndo q = if q = p then none else t.semUndo q := fun q => by
    simp [UndoTab.release, update_apply]
  refine ⟨fun j => ?_, fun j => ?_, fun j => ?_, fun j => ?_, ?_, ?_, fun j => ?_, fun q j hq hj => ?_,
    fun q q' j hq hq' => ?_, fun j hj => ?_⟩
  · rw [hsemu]
    split_ifs
    · exact Sparse.ok_nil
    · exact h.sparse j
  · rw [hsemu]
    split_ifs
    · exact Nat.zero_le _
    · exact h.length_le j
  · rw [hsemu]
    split_ifs
    · simp
    · exact h.aoe_le j
  · rw [hmem, hsemu, h.linked]
    split_ifs with hj <;> simp [hj]
  · simp only [UndoTab.release]
    split_ifs
    · exact h.linked_nodup
    · exact h.linked_nodup.erase up
  · exact nodup_cons.2 ⟨h.not_free p up hp, h.free_nodup⟩
  · rw [h.all j]
    simp only [UndoTab.release, mem_cons]
    constructor
    · rintro (hj | ⟨q, hq⟩)
      · exact .inl (.inr hj)
      · by_cases hqp : q = p
        · subst hqp
          rw [hp] at hq
          cases hq
          exact .inl (.inl rfl)
        · exact .inr ⟨q, by simpa [hqp] using hq⟩
    · rintro ((rfl | hj) | ⟨q, hq⟩)
      · exact .inr ⟨p, hp⟩
      · exact .inl hj
      · by_cases hqp : q = p
        · subst hqp
          simp at hq
        · exact .inr ⟨q, by simpa [hqp] using hq⟩
  · rw [howner] at hq
    split_ifs at hq with hqp
    rcases mem_cons.1 hj with rfl | hj
    · exact hqp (h.inj q p j hq hp)
    · exact h.not_free q j hq hj
  · rw [howner] at hq hq'
    split_ifs at hq hq'
    exact h.inj q q' j hq hq'
  · rw [hsemu] at hj
    split_ifs at hj with hju
    · exact absurd rfl hj
    · obtain ⟨q, hq⟩ := h.owned j hj
      refine ⟨q, ?_⟩
      rw [howner, if_neg]
      · exact hq
      · rintro rfl
        rw [hp] at hq
        cases hq
        exact hju rfl

end UndoTab

/-! ### What `semaoe` does -/

section

variable {I : Seminfo} {t : UndoTab}

/-- `semaoe` on a well-formed structure subtracts `val` from the adjustment, or fails. -/
theorem semaoeAt_eq {up : ℕ} (hs : undos.Ok (t.semu up)) {val : ℤ} (id num : ℤ)
    (hval : -(I.semaem : ℤ) ≤ val ∧ val ≤ I.semaem) : semaoeAt I up val id num t =
      let c := undos.coeff (t.semu up) (toLex (id, num))
      let l := undos.add (toLex (id, num)) (-val) (t.semu up)
      if c = 0 then
        if (t.semu up).length ≥ I.semume then (t, some .EINVAL) else (t.insert up l, none)
      else if c - val > I.semaem ∨ c - val < -I.semaem then (t, some .ERANGE)
      else (t.store up l, none) := by
  have haem := I.semaem_lt
  have hneg : short (-val) = -val := short_eq (by omega) (by omega)
  rw [Sparse.add_eq_append _ _ (isBefore_iff id num),
    hs.coeff_dropWhile (isBefore_iff id num), semaoeAt]
  have hsub : undos.Ok ((t.semu up).dropWhile (Undo.isBefore id num)) :=
    ⟨hs.1.sublist (dropWhile_sublist _), fun e he => hs.2 e ((dropWhile_sublist _).subset he)⟩
  cases hd : (t.semu up).dropWhile (Undo.isBefore id num) with
  | nil => simp only [Sparse.coeff_nil, if_true, hneg]; rfl
  | cons e rest =>
    rw [hd] at hsub
    obtain ⟨hne, hlt, -⟩ := Sparse.ok_cons.1 hsub
    by_cases hkey : e.unId = id ∧ e.unNum = num
    · have hk : undos.key e = toLex (id, num) := key_eq_iff.2 hkey
      have hc : undos.coeff (e :: rest) (toLex (id, num)) = e.unAoe := by
        rw [Sparse.coeff_cons, if_pos hk, undos_val]
      have hadd : undos.val e + -val = e.unAoe - val := rfl
      simp only [hc, if_pos hkey, if_pos hk, hadd]
      rw [if_neg (show ¬e.unAoe = 0 from hne)]
      by_cases hrange : e.unAoe - val > I.semaem ∨ e.unAoe - val < -I.semaem
      · rw [if_pos hrange, if_pos hrange]
      · rw [if_neg hrange, if_neg hrange, short_eq (by omega) (by omega)]
        obtain ⟨rfl, rfl⟩ := hkey
        by_cases hz : e.unAoe - val = 0
        · simp only [if_pos hz]
        · simp only [if_neg hz]
          rfl
    · have hk : undos.key e ≠ toLex (id, num) := fun h => hkey (key_eq_iff.1 h)
      have hnot : ¬undos.key e < toLex (id, num) := by
        rw [← isBefore_iff]
        have := head?_dropWhile_not (Undo.isBefore id num) (t.semu up)
        rw [hd] at this
        simpa using this
      have hge : toLex (id, num) < undos.key e := lt_of_le_of_ne (not_lt.1 hnot) (Ne.symm hk)
      have hc : undos.coeff (e :: rest) (toLex (id, num)) = 0 := by
        refine Sparse.coeff_eq_zero fun f hf => ?_
        rcases mem_cons.1 hf with rfl | hf
        · exact hge
        · exact hge.trans (hlt f hf)
      simp only [hc, if_neg hkey, if_neg hk, if_true, hneg]
      rfl

/-- Values of the sum of adjustments stay in range when the changed one does. -/
theorem aoe_le_add {l : List Undo} (hl : undos.Ok l) {k : ℤ ×ₗ ℤ} {v : ℤ} (hv : v ≠ 0) {m : ℤ}
    (hm : ∀ e ∈ l, -m ≤ e.unAoe ∧ e.unAoe ≤ m)
    (hk : -m ≤ undos.coeff l k + v ∧ undos.coeff l k + v ≤ m) :
    ∀ e ∈ undos.add k v l, -m ≤ e.unAoe ∧ e.unAoe ≤ m := by
  intro e he
  have hval := (hl.add k hv).coeff_mem he
  by_cases hek : undos.key e = k
  · rw [hek, hl.coeff_add_self] at hval
    rwa [← undos_val, ← hval]
  · rw [Sparse.coeff_add_of_ne hek] at hval
    obtain ⟨f, hf, hkf, hvf⟩ := Sparse.exists_of_coeff_ne_zero (S := undos) (l := l) (k := undos.key e)
      (by rw [hval]; exact (hl.add k hv).2 e he)
    have := hm f hf
    rwa [← undos_val, hvf, hval] at this

/-- What a call of `semaoe` can do: fail with the entries as they were, do nothing, or subtract
`val` from the adjustment of the semaphore in the structure of the process. -/
inductive Semaoe (I : Seminfo) (p : ℕ) (val id num : ℤ) (t : UndoTab) : UndoTab × Option Errno → Prop
  | fail {t' : UndoTab} {e : Errno} (hval : val ≠ 0) (hok : t'.Ok I) (hown : UndoTab.Owns p t t')
      (hnone : t'.semUndo p = none → t'.semfup = t.semfup)
      (hsemu : t'.semu = t.semu) : Semaoe I p val id num t (t', some e)
  | zero (hval : val = 0) : Semaoe I p val id num t (t, none)
  | add {t' : UndoTab} {up : ℕ} (hval : val ≠ 0) (hrange : -(I.semaem : ℤ) ≤ val ∧ val ≤ I.semaem)
      (hok : t'.Ok I) (hown : UndoTab.Owns p t t') (hup : t'.semUndo p = some up)
      (hsemu : t'.semu =
        Function.update t.semu up (undos.add (toLex (id, num)) (-val) (t.semu up))) :
      Semaoe I p val id num t (t', none)

theorem semaoeAt_cases (hok : t.Ok I) {p up : ℕ} (hp : t.semUndo p = some up) {val : ℤ} (id num : ℤ)
    (hne : val ≠ 0) (hval : -(I.semaem : ℤ) ≤ val ∧ val ≤ I.semaem) :
    Semaoe I p val id num t (semaoeAt I up val id num t) := by
  have hs := hok.sparse up
  have hadd : undos.Ok (undos.add (toLex (id, num)) (-val) (t.semu up)) := hs.add _ (by omega)
  have hfail : ∀ e, Semaoe I p val id num t (t, some e) := fun e =>
    .fail hne hok (.refl p t) (fun _ => rfl) rfl
  rw [semaoeAt_eq hs id num hval]
  simp only
  by_cases hc : undos.coeff (t.semu up) (toLex (id, num)) = 0
  · rw [if_pos hc]
    split_ifs with hfull
    · exact hfail _
    · have hlen := hs.length_add hc (-val)
      refine .add hne hval (hok.insert hp hadd (by omega) ?_ ?_) ⟨fun _ _ => rfl, fun _ h => h, ?_⟩ hp rfl
      · exact aoe_le_add hs (by omega) (hok.aoe_le up) (by omega)
      · intro hnil
        rw [hnil] at hlen
        cases hlen
      · intro hnone
        rw [hp] at hnone
        cases hnone
  · rw [if_neg hc]
    split_ifs with hrange
    · exact hfail _
    · refine .add hne hval (hok.store hp hadd ((hs.length_add_le hc _).trans (hok.length_le up)) ?_ ?_)
        ⟨fun _ _ => rfl, fun _ h => h, ?_⟩ hp rfl
      · exact aoe_le_add hs (by omega) (hok.aoe_le up) (by omega)
      · rintro hnil
        rw [hnil] at hc
        exact hc rfl
      · intro hnone
        rw [hp] at hnone
        cases hnone

theorem semaoe_cases (hok : t.Ok I) (p : ℕ) (val id num : ℤ) :
    Semaoe I p val id num t (semaoe I p val id num t) := by
  unfold semaoe
  split_ifs with hzero hrange
  · exact .zero hzero
  · exact .fail hzero hok (.refl p t) (fun _ => rfl) rfl
  · cases hp : t.semUndo p with
    | some up => exact semaoeAt_cases hok hp id num hzero (by omega)
    | none =>
      cases hfup : t.semfup with
      | nil => exact .fail hzero hok (.refl p t) (fun _ => rfl) rfl
      | cons up rest =>
        have hgrab := UndoTab.owns_grab hp hfup
        have hnew : (t.grab p up rest).semUndo p = some up := by simp [UndoTab.grab]
        have hat := semaoeAt_cases (hok.grab hp hfup) hnew id num hzero (by omega)
        simp only
        generalize semaoeAt I up val id num (t.grab p up rest) = x at hat
        cases hat with
        | fail _ hok' hown _ hsemu =>
          have hup := hown.keep up hnew
          refine .fail hzero hok' (hgrab.trans hown ?_) ?_ hsemu
          · intro h
            rw [hnew] at h
            cases h
          · intro h
            rw [hup] at h
            cases h
        | zero hval => exact absurd hval hzero
        | add _ hval hok' hown hup hsemu =>
          refine .add hzero hval hok' (hgrab.trans hown ?_) hup hsemu
          intro h
          rw [hnew] at h
          cases h

/-- A successful call changes the entries of the process only, and only at the semaphore. -/
theorem Semaoe.ents (hok : t.Ok I) {t' : UndoTab} {p : ℕ} {val id num : ℤ}
    (h : Semaoe I p val id num t (t', none)) : (∀ q, q ≠ p → t'.ents q = t.ents q) ∧
      t'.ents p = if val = 0 then t.ents p else undos.add (toLex (id, num)) (-val) (t.ents p) := by
  cases h with
  | zero hval => exact ⟨fun _ _ => rfl, by rw [if_pos hval]⟩
  | @add _ up hne _ hok' hown hup hsemu =>
    refine ⟨fun q hq => ?_, ?_⟩
    · unfold UndoTab.ents
      rw [hown.other q hq]
      cases hj : t.semUndo q with
      | none => rfl
      | some j =>
        have hjup : j ≠ up := by
          rintro rfl
          exact hq (hok'.inj q p j ((hown.other q hq).trans hj) hup)
        simp only
        rw [hsemu, update_of_ne hjup]
    · rw [if_neg hne, UndoTab.ents_some hup, hsemu, update_self]
      congr 1
      cases hj : t.semUndo p with
      | none => rw [UndoTab.ents_none hj, hok.free_empty (hown.new hj up hup)]
      | some j =>
        have := hown.keep j hj
        rw [hup] at this
        cases this
        rw [UndoTab.ents_some hj]

/-- Taking an adjustment back: right after `semaoe` did `val`, doing `-val` cannot fail. -/
theorem semaoe_neg {p up : ℕ} {val id num : ℤ} {l : List Undo} (hl : undos.Ok l)
    (hlen : l.length ≤ I.semume) (haoe : ∀ e ∈ l, -(I.semaem : ℤ) ≤ e.unAoe ∧ e.unAoe ≤ I.semaem)
    (hval : val ≠ 0) (hrange : -(I.semaem : ℤ) ≤ val ∧ val ≤ I.semaem) (hp : t.semUndo p = some up)
    (hup : t.semu up = undos.add (toLex (id, num)) (-val) l) :
    (semaoe I p (-val) id num t).2 = none ∧ (semaoe I p (-val) id num t).1.semUndo = t.semUndo ∧
      (semaoe I p (-val) id num t).1.semu = Function.update t.semu up l := by
  have hs : undos.Ok (t.semu up) := hup ▸ hl.add _ (by omega)
  have hcoeff : undos.coeff (t.semu up) (toLex (id, num)) =
      undos.coeff l (toLex (id, num)) + -val := by rw [hup, hl.coeff_add_self]
  have hback : undos.add (toLex (id, num)) (- -val) (t.semu up) = l := by
    rw [hup]
    exact hl.add_neg_add _ _
  -- the adjustment before is 0 or that of an entry
  have hold : -(I.semaem : ℤ) ≤ undos.coeff l (toLex (id, num)) ∧
      undos.coeff l (toLex (id, num)) ≤ I.semaem := by
    by_cases hc : undos.coeff l (toLex (id, num)) = 0
    · rw [hc]
      omega
    · obtain ⟨e, he, -, hv⟩ := Sparse.exists_of_coeff_ne_zero hc
      rw [← hv]
      exact haoe e he
  unfold semaoe
  rw [if_neg (by omega), if_neg (by omega)]
  simp only [hp]
  rw [semaoeAt_eq hs id num (by omega)]
  simp only [hback]
  split_ifs with hc hfull hout
  · -- the entry was removed, so the structure has room
    have hlength := hs.length_add hc (- -val)
    rw [hback] at hlength
    omega
  · exact ⟨rfl, rfl, rfl⟩
  · omega
  · exact ⟨rfl, rfl, rfl⟩

end

/-! ### What `semunrm` does -/

/-- The entries that `semunrm` keeps. -/
def Undo.isKept (id low high : ℤ) (e : Undo) : Bool :=
  ¬(e.unId = id ∧ low ≤ e.unNum ∧ e.unNum ≤ high)

/-- On a sorted list the early exits of the inner loop miss nothing. -/
theorem semunrmEnts_eq {id low high : ℤ} {l : List Undo} (hl : undos.Ok l) :
    semunrmEnts id low high l = l.filter (Undo.isKept id low high) := by
  induction l with
  | nil => rfl
  | cons e l ih =>
    obtain ⟨-, hlt, htail⟩ := Sparse.ok_cons.1 hl
    have hbehind : ∀ f ∈ l, e.unId < f.unId ∨ (e.unId = f.unId ∧ e.unNum < f.unNum) := fun f hf => by
      simpa [Prod.Lex.toLex_lt_toLex] using hlt f hf
    rw [semunrmEnts]
    split_ifs with h1 h2 h3
    · refine (filter_eq_self.2 fun f hf => ?_).symm
      simp only [Undo.isKept, decide_eq_true_eq]
      rcases mem_cons.1 hf with rfl | hf
      · omega
      · have := hbehind f hf
        omega
    · rw [ih htail, filter_cons, if_pos]
      simp only [Undo.isKept, decide_eq_true_eq]
      omega
    · refine (filter_eq_self.2 fun f hf => ?_).symm
      simp only [Undo.isKept, decide_eq_true_eq]
      rcases mem_cons.1 hf with rfl | hf
      · omega
      · have := hbehind f hf
        omega
    · rw [ih htail, filter_cons, if_neg]
      simp only [Undo.isKept, decide_eq_true_eq]
      omega

theorem semunrmChain_eq (id low high : ℤ) {chain : List ℕ} (hnd : chain.Nodup) (semu : ℕ → List Undo) :
    semunrmChain id low high chain semu = (chain.filter fun j => semunrmEnts id low high (semu j) ≠ [],
        fun j => if j ∈ chain then semunrmEnts id low high (semu j) else semu j) := by
  induction chain generalizing semu with
  | nil => simp [semunrmChain]
  | cons p chain ih =>
    obtain ⟨hp, hnd⟩ := nodup_cons.1 hnd
    have hother : ∀ j ∈ chain,
        Function.update semu p (semunrmEnts id low high (semu p)) j = semu j := fun j hj =>
      update_of_ne (fun h : j = p => hp (h ▸ hj)) _ _
    have hfst : (chain.filter fun j => semunrmEnts id low high
        (Function.update semu p (semunrmEnts id low high (semu p)) j) ≠ []) =
        chain.filter fun j => semunrmEnts id low high (semu j) ≠ [] :=
      filter_congr fun j hj => by rw [hother j hj]
    have hsnd : (fun j => if j ∈ chain then semunrmEnts id low high
          (Function.update semu p (semunrmEnts id low high (semu p)) j)
        else Function.update semu p (semunrmEnts id low high (semu p)) j) =
        fun j => if j ∈ p :: chain then semunrmEnts id low high (semu j) else semu j := by
      funext j
      by_cases hj : j ∈ chain
      · rw [if_pos hj, if_pos (mem_cons_of_mem _ hj), hother j hj]
      · rw [if_neg hj]
        by_cases hjp : j = p
        · subst hjp
          simp
        · simp [hjp, hj]
    rw [semunrmChain, ih hnd]
    simp only [hfst, hsnd, filter_cons]
    by_cases hnil : semunrmEnts id low high (semu p) = [] <;> simp [hnil]

/-- `semunrm` removes the entries for the range from every structure and keeps the table well
formed. -/
theorem semunrm_spec {I : Seminfo} {t : UndoTab} (hok : t.Ok I) (id low high : ℤ) :
    (semunrm id low high t).Ok I ∧ (semunrm id low high t).semUndo = t.semUndo ∧
      (semunrm id low high t).semfup = t.semfup ∧
      ∀ j, (semunrm id low high t).semu j = (t.semu j).filter (Undo.isKept id low high) := by
  have hsemu : ∀ j, (semunrm id low high t).semu j =
      (t.semu j).filter (Undo.isKept id low high) := by
    intro j
    simp only [semunrm, semunrmChain_eq id low high hok.linked_nodup]
    by_cases hj : j ∈ t.semunp
    · rw [if_pos hj, semunrmEnts_eq (hok.sparse j)]
    · rw [if_neg hj, show t.semu j = [] by simpa using mt (hok.linked j).2 hj]
      rfl
  have hchain : (semunrm id low high t).semunp =
      t.semunp.filter fun j => semunrmEnts id low high (t.semu j) ≠ [] := by
    simp only [semunrm, semunrmChain_eq id low high hok.linked_nodup]
  refine ⟨⟨fun j => ?_, fun j => ?_, fun j e he => ?_, fun j => ?_, ?_, hok.free_nodup, hok.all,
    hok.not_free, hok.inj, fun j hj => hok.owned j ?_⟩, rfl, rfl, hsemu⟩
  · rw [hsemu]
    exact (hok.sparse j).filter _
  · rw [hsemu]
    exact (length_filter_le _ _).trans (hok.length_le j)
  · rw [hsemu] at he
    exact hok.aoe_le j e (mem_of_mem_filter he)
  · rw [hchain, hsemu, mem_filter, semunrmEnts_eq (hok.sparse j), hok.linked]
    simp only [ne_eq, decide_not, Bool.not_eq_eq_eq_not, Bool.not_true, decide_eq_false_iff_not]
    refine ⟨And.right, fun h => ⟨?_, h⟩⟩
    intro hnil
    exact h (by rw [hnil]; rfl)
  · rw [hchain]
    exact hok.linked_nodup.filter _
  · intro hnil
    exact hj (by rw [hsemu, hnil]; rfl)

theorem semunrm_ents {I : Seminfo} {t : UndoTab} (hok : t.Ok I) (id low high : ℤ) (p : ℕ) :
    (semunrm id low high t).ents p = (t.ents p).filter (Undo.isKept id low high) := by
  obtain ⟨-, howner, -, hsemu⟩ := semunrm_spec hok id low high
  unfold UndoTab.ents
  rw [howner]
  split
  · exact hsemu _
  · rfl

theorem semunrm_aoe {I : Seminfo} {t : UndoTab} (hok : t.Ok I) (id low high : ℤ) (p : ℕ)
    (id' num : ℤ) : (semunrm id low high t).aoe p id' num =
      if id' = id ∧ low ≤ num ∧ num ≤ high then 0 else t.aoe p id' num := by
  have hq : ∀ e : Undo, Undo.isKept id low high e = true ↔
      ¬((ofLex (undos.key e)).1 = id ∧ low ≤ (ofLex (undos.key e)).2 ∧
        (ofLex (undos.key e)).2 ≤ high) := fun e => by
    simp only [Undo.isKept, decide_eq_true_eq]
    rfl
  have hcoeff := Sparse.coeff_filter (S := undos) (l := t.ents p) (q := Undo.isKept id low high)
    (r := fun k => ¬((ofLex k).1 = id ∧ low ≤ (ofLex k).2 ∧ (ofLex k).2 ≤ high)) hq
    (toLex (id', num))
  rw [UndoTab.aoe, semunrm_ents hok, hcoeff]
  by_cases h : id' = id ∧ low ≤ num ∧ num ≤ high
  · rw [if_pos h]
    exact if_neg (not_not.2 h)
  · rw [if_neg h]
    exact if_pos h

end SysV

end Hpux
