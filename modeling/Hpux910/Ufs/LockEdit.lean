import Hpux910.Lib.Ranges
import Hpux910.Ufs.Locklist
import Mathlib

/-!
# What a lock-list routine can do to its list

`insert_lock`, `compress_lock_list`, `delete_lock` and `unlock` distinguish about thirty cases, but
every one of them is a sequence of five small edits: link a fresh entry, change the range or type
of an entry, wake the sleepers of an entry, unlink and free an entry, set an error.

* `Edit` is one such edit of a list and its pool, `Edits` a sequence of them.
* `Edits.context` : an edit of a part of a list is an edit of the list.

The invariants that relate lists, sleepers and reference counts are proved for `Edit` only.
-/

namespace Hpux

namespace Lockf

/-! ### Regions -/

section Region

variable {cl : Lock} {x : ℤ}

theorem region_before (h : x < cl.llStart) : cl.region x = .before := by
  rw [Lock.region, if_pos h]

theorem region_start (h : x = cl.llStart) : cl.region x = .start := by
  rw [Lock.region, if_neg (by omega), if_pos h]

theorem region_middle (h : cl.llStart < x) (h' : x < cl.llEnd) : cl.region x = .middle := by
  rw [Lock.region, if_neg (by omega), if_neg (by omega), if_pos h']

theorem region_atEnd (h : cl.llStart < cl.llEnd) (h' : x = cl.llEnd) : cl.region x = .atEnd := by
  rw [Lock.region, if_neg (by omega), if_neg (by omega), if_neg (by omega), if_pos h']

theorem region_after (h : cl.llStart < cl.llEnd) (h' : cl.llEnd < x) : cl.region x = .after := by
  rw [Lock.region, if_neg (by omega), if_neg (by omega), if_neg (by omega), if_neg (by omega)]

end Region

theorem isMyLock_iff {u : U} {lp : Lock} : isMyLock u lp = true ↔ lp.owner = u.owner := by
  unfold isMyLock U.owner
  split <;> simp

theorem isMyLock_eq_false_iff {u : U} {lp : Lock} : isMyLock u lp = false ↔ lp.owner ≠ u.owner := by
  rw [← Bool.not_eq_true, isMyLock_iff]

/-! ### Notices -/

namespace Pool

variable (p : Pool) (e : Lock)

theorem notify_fst : (p.notify e).1 = { e with iwant := false, nfsWants := false } := rfl

theorem notify_snd : ∃ es : List Event, (p.notify e).2 = { p with log := p.log ++ es } ∧
    .defaultArm ∉ es ∧ .checksync ∉ es ∧ (e.iwant = true → .wakeup e.addr ∈ es) := by
  unfold notify note
  cases e.iwant <;> cases e.nfsWants
  · exact ⟨[], by simp⟩
  · exact ⟨[.informLm e.llIp e.llStart e.llEnd e.owner], by simp⟩
  · exact ⟨[.wakeup e.addr], by simp⟩
  · exact ⟨[.wakeup e.addr, .informLm e.llIp e.llStart e.llEnd e.owner], by simp⟩

theorem lockfree_eq : p.lockfree e = (p.notify e).2.lockdec
    { e with iwant := false, nfsWants := false, llIp := none, ilbusy := false, owner := .proc 0 } :=
  rfl

@[simp] theorem lockdec_uError : (p.lockdec e).uError = p.uError := by
  unfold lockdec; split_ifs <;> rfl

@[simp] theorem lockdec_log : (p.lockdec e).log = p.log := by
  unfold lockdec; split_ifs <;> rfl

@[simp] theorem notify_uError : (p.notify e).2.uError = p.uError := by
  obtain ⟨es, h, -⟩ := notify_snd p e
  rw [h]

@[simp] theorem lockfree_uError : (p.lockfree e).uError = p.uError := by
  rw [lockfree_eq, lockdec_uError, notify_uError]

end Pool

/-! ### Edits -/

/-- The entry that `lockadd` makes of the free entry `a`. -/
def freshLock (r : Req) (a : ℕ) (lb ub : ℤ) (t : LType) : Lock where
  addr := a
  llCount := 1
  iwant := false
  nfsWants := false
  ilbusy := true
  owner := r.u.owner
  llStart := lb
  llEnd := ub
  llType := t
  llIp := some r.ip

/-- One edit of a lock list by the running process of `r`. -/
inductive Edit (r : Req) : List Lock × Pool → List Lock × Pool → Prop
  /-- Take an entry off the free chain and link it. -/
  | link (l₁ l₂ : List Lock) (p : Pool) {a : ℕ} {fs : List ℕ} (lb ub : ℤ) (t : LType)
      (hfree : p.free = a :: fs) :
      Edit r (l₁ ++ l₂, p) (l₁ ++ freshLock r a lb ub t :: l₂, { p with free := fs })
  /-- Change the range and the type of an own entry. -/
  | change (l₁ l₂ : List Lock) (p : Pool) (e : Lock) (lb ub : ℤ) (t : LType)
      (hown : e.owner = r.u.owner) :
      Edit r (l₁ ++ e :: l₂, p)
        (l₁ ++ { e with llStart := lb, llEnd := ub, llType := t } :: l₂, p)
  /-- Wake the sleepers of an entry. -/
  | wake (l₁ l₂ : List Lock) (p : Pool) (e : Lock) (hown : e.owner = r.u.owner) :
      Edit r (l₁ ++ e :: l₂, p) (l₁ ++ (p.notify e).1 :: l₂, (p.notify e).2)
  /-- Unlink an own entry and free it. -/
  | free (l₁ l₂ : List Lock) (p : Pool) (e : Lock) (hown : e.owner = r.u.owner) :
      Edit r (l₁ ++ e :: l₂, p) (l₁ ++ l₂, p.lockfree e)
  /-- Set `u.u_error` or `u.u_prelock`. -/
  | error (l : List Lock) (p : Pool) (err : Option Errno) (pre : Option ℕ) :
      Edit r (l, p) (l, { p with uError := err, uPrelock := pre })

/-- A sequence of edits. -/
abbrev Edits (r : Req) : List Lock × Pool → List Lock × Pool → Prop :=
  Relation.ReflTransGen (Edit r)

variable {s s' : List Lock × Pool}

theorem Edit.context {r : Req} (h : Edit r s s') (x y : List Lock) :
    Edit r (x ++ s.1 ++ y, s.2) (x ++ s'.1 ++ y, s'.2) := by
  cases h with
  | link l₁ l₂ p lb ub t hfree => simpa using Edit.link (x ++ l₁) (l₂ ++ y) p lb ub t hfree
  | change l₁ l₂ p e lb ub t hown => simpa using Edit.change (x ++ l₁) (l₂ ++ y) p e lb ub t hown
  | wake l₁ l₂ p e hown => simpa using Edit.wake (x ++ l₁) (l₂ ++ y) p e hown
  | free l₁ l₂ p e hown => simpa using Edit.free (x ++ l₁) (l₂ ++ y) p e hown
  | error l p err pre => exact Edit.error _ p err pre

theorem Edits.context {r : Req} (h : Edits r s s') (x y : List Lock) :
    Edits r (x ++ s.1 ++ y, s.2) (x ++ s'.1 ++ y, s'.2) := by
  induction h with
  | refl => exact .refl
  | tail _ hst ih => exact ih.tail (hst.context x y)

theorem Edits.cons {r : Req} {l l' : List Lock} {p p' : Pool} (h : Edits r (l, p) (l', p'))
    (e : Lock) : Edits r (e :: l, p) (e :: l', p') := by
  simpa using h.context [e] []

theorem Edits.prepend {r : Req} {l l' : List Lock} {p p' : Pool} (h : Edits r (l, p) (l', p'))
    (x : List Lock) : Edits r (x ++ l, p) (x ++ l', p') := by
  simpa using h.context x []

section Head

variable {r : Req} {p : Pool} {e : Lock}

theorem Edits.link_head {a : ℕ} {fs : List ℕ} (hfree : p.free = a :: fs) (lb ub : ℤ) (t : LType)
    (l : List Lock) : Edits r (l, p) (freshLock r a lb ub t :: l, { p with free := fs }) :=
  .single (Edit.link [] l p lb ub t hfree)

theorem Edits.change_head (hown : e.owner = r.u.owner) (lb ub : ℤ) (t : LType) (l : List Lock) :
    Edits r (e :: l, p) ({ e with llStart := lb, llEnd := ub, llType := t } :: l, p) :=
  .single (Edit.change [] l p e lb ub t hown)

theorem Edits.wake_head (hown : e.owner = r.u.owner) (l : List Lock) :
    Edits r (e :: l, p) ((p.notify e).1 :: l, (p.notify e).2) :=
  .single (Edit.wake [] l p e hown)

theorem Edits.free_head (hown : e.owner = r.u.owner) (l : List Lock) :
    Edits r (e :: l, p) (l, p.lockfree e) :=
  .single (Edit.free [] l p e hown)

end Head

/-- The edits log only the notices of `notify`. -/
theorem Edits.log {r : Req} (h : Edits r s s') :
    ∃ es : List Event, s'.2.log = s.2.log ++ es ∧ .defaultArm ∉ es ∧ .checksync ∉ es := by
  induction h with
  | refl => exact ⟨[], by simp⟩
  | tail _ hst ih =>
    obtain ⟨es, hes, hd, hc⟩ := ih
    cases hst with
    | link => exact ⟨es, hes, hd, hc⟩
    | change => exact ⟨es, hes, hd, hc⟩
    | error => exact ⟨es, hes, hd, hc⟩
    | wake l₁ l₂ p e =>
      obtain ⟨es', hes', hd', hc', -⟩ := p.notify_snd e
      refine ⟨es ++ es', ?_, by simp [hd, hd'], by simp [hc, hc']⟩
      rw [hes', ← List.append_assoc, ← hes]
    | free l₁ l₂ p e =>
      obtain ⟨es', hes', hd', hc', -⟩ := p.notify_snd e
      refine ⟨es ++ es', ?_, by simp [hd, hd'], by simp [hc, hc']⟩
      rw [Pool.lockfree_eq, Pool.lockdec_log, hes', ← List.append_assoc, ← hes]

end Lockf

end Hpux
