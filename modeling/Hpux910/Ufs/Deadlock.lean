import Hpux910.Ufs.LockRefs
import Hpux910.Lib.Chase

/-!
# Deadlock detection for local locks

Before a process sleeps in `locked` it calls `deadlock`, which follows `p_dlchan` from process to
process: the owner of the entry, the owner of the entry that this owner waits for, and so on.  For
locks of local processes `deadlock` asks no other site and does not lose the processor, so the
whole hunt is one step.

* `Sys.waitsFor` : the wait-for graph, from a process to the owner of its `p_dlchan` entry.
* `Sys.deadlock` : the loop of `deadlock`.
* `localSys` : the system of local processes.
* `localSys_acyclic` : the wait-for graph has no cycle in any state.
* `deadlock_sound_complete` : `deadlock` ends, and answers `EDEADLK` exactly when the new edge
  closes a cycle; then the references are as before.
-/

namespace Hpux

namespace Lockf

open Relation Chase List Function

/-- The local process an owner stands for. -/
def Owner.pid : Owner → Option ℕ
  | .proc p => some p
  | .remote _ _ => none

namespace Sys

variable (s : Sys)

/-- The entry an address stands for: on the list of the inode, or held after it was unlinked. -/
def deref (ip a : ℕ) : Option Lock :=
  ((s.lists ip).find? fun e => e.addr = a).or (s.pool.held.find? fun e => e.addr = a)

/-- `dd_procstat` of a process without forwarding address: its `p_dlchan`. -/
def ddProcstat (q : ℕ) : Option Lock := (s.proc q).at.bind fun x => s.deref x.2.r.ip x.1

/-- `deadlock`, called by the process `rpid` for the entry `lp`.  The inner `none` is `NULL`.  The
arm for remote owners asks another site and is not modelled. -/
def deadlock (rpid : ℕ) : ℕ → Lock → Option (Option ℕ)
  | 0, _ => none
  | fuel + 1, lp =>
    match lp.owner with
    | .remote _ _ => none
    | .proc pid =>
      if pid = rpid then some (s.proc rpid).chan
      else
        match s.ddProcstat pid with
        | none => some none
        | some lp => deadlock rpid fuel lp

/-- The wait-for graph: the owner of the `p_dlchan` entry. -/
def waitsFor (q : ℕ) : Option ℕ := (s.ddProcstat q).bind fun e => e.owner.pid

/-- The state in which a process starts a scan: it has dropped the reference it had. -/
def released (p : ℕ) : Sys :=
  match (s.proc p).at with
  | none => s
  | some (a, w) => (s.lockdec w.r.ip a).setProc p .idle

/-- A process that called `deadlock` gets its answer. -/
def Settles (p : ℕ) (s' : Sys) : Prop :=
  match s.proc p with
  | .hunt a w => ∃ e fuel res, s.deref w.r.ip a = some e ∧ s.deadlock p fuel e = some res ∧
      s.step (.hunted p res.isSome) = some s'
  | _ => s' = s

end Sys

/-- The action is one of a local process and no answer of `deadlock`. -/
def Act.Local : Act → Prop
  | .call _ w => w.r.u.uNsp = none
  | .hunted _ _ => False
  | .resume _ | .signal _ => True
  | .delete _ r => r.u.uNsp = none
  | .unlock _ u _ => u.uNsp = none

/-- The system of local processes.  Process 0 is the swapper and makes no requests. -/
def localSys (n : ℕ) : Lts Sys Act where
  init := (lockSys n).init
  step s a s' := a.Local ∧ a.actor ≠ 0 ∧ ∃ t, (lockSys n).step s a t ∧ t.Settles a.actor s'

variable {n : ℕ} {s t : Sys}

theorem localSys_reach (h : (localSys n).Reach s) : (lockSys n).Reach s := by
  refine h.simulate (fun s hs => .init hs) fun s a s' hs hstep => ?_
  obtain ⟨-, -, t, ht, hset⟩ := hstep
  have htr : (lockSys n).Reach t := .step hs ht
  unfold Sys.Settles at hset
  split at hset
  · obtain ⟨e, fuel, res, -, -, hst⟩ := hset
    exact .step htr (l := .hunted a.actor res.isSome) ⟨ht.1, hst⟩
  · exact hset ▸ htr

/-! ### Entries behind addresses -/

variable {e : Lock}

theorem find_addr {l : List Lock} (h : (addrs l).Nodup) (he : e ∈ l) :
    (l.find? fun f => f.addr = e.addr) = some e := by
  obtain ⟨f, hf⟩ := Option.isSome_iff_exists.1
    (find?_isSome.2 ⟨e, he, by simp⟩ : (l.find? fun f => f.addr = e.addr).isSome)
  have hfe : f.addr = e.addr := by simpa using find?_some hf
  rw [hf, eq_of_addr h (mem_of_find?_eq_some hf) he hfe]

/-- The entry is on the list of the inode or held. -/
def Sys.Has (s : Sys) (ip : ℕ) (e : Lock) : Prop := e ∈ s.lists ip ∨ e ∈ s.pool.held

/-- An address stands for the one entry that has it. -/
theorem deref_eq (h : s.Refs n) {ip : ℕ} (he : s.Has ip e) : s.deref ip e.addr = some e := by
  have hnd := nodup_append.1 (h.entries ip).nodup
  rcases he with he | he
  · rw [Sys.deref, find_addr hnd.1 he]
    rfl
  · have hnone : ((s.lists ip).find? fun f => f.addr = e.addr) = none := by
      refine find?_eq_none.2 fun f hf => ?_
      simp only [decide_eq_true_eq]
      intro hfe
      exact hnd.2.2 _ (mem_addrs.2 ⟨f, hf, hfe⟩) _
        (mem_append_right _ (mem_addrs.2 ⟨e, he, rfl⟩)) rfl
    rw [Sys.deref, hnone, find_addr (nodup_append.1 hnd.2.1).2.1 he]
    rfl

variable {w : Want}

theorem has_of_at (h : s.Refs n) {q a : ℕ} (hq : (s.proc q).at = some (a, w)) :
    ∃ e, s.Has w.r.ip e ∧ e.addr = a := by
  rcases h.chan q a w hq with ha | ha
  · obtain ⟨e, he, hea⟩ := mem_addrs.1 ha
    exact ⟨e, .inl he, hea⟩
  · obtain ⟨e, he, hea⟩ := mem_addrs.1 ha
    exact ⟨e, .inr he, hea⟩

theorem waitsFor_eq (h : s.Refs n) {q : ℕ} (he : s.Has w.r.ip e)
    (hq : (s.proc q).at = some (e.addr, w)) : s.waitsFor q = e.owner.pid := by
  simp [Sys.waitsFor, Sys.ddProcstat, hq, deref_eq h he]

theorem waitsFor_none {q : ℕ} (hq : (s.proc q).at = none) : s.waitsFor q = none := by
  simp [Sys.waitsFor, Sys.ddProcstat, hq]

theorem at_of_waitsFor {q y : ℕ} (hq : s.waitsFor q = some y) : ∃ a w, (s.proc q).at = some (a, w) := by
  cases hat : (s.proc q).at with
  | none =>
    rw [waitsFor_none hat] at hq
    cases hq
  | some x => exact ⟨x.1, x.2, rfl⟩

/-! ### Steps that add no edge -/

/-- In `t` nobody refers to more than in `s`, and the entries referred to have kept their owner or
lost it. -/
def Sys.Follows (s t : Sys) : Prop :=
  ∀ q a w, (t.proc q).at = some (a, w) → (s.proc q).at = some (a, w) ∧
    ∀ e, s.Has w.r.ip e → e.addr = a → ∃ e', t.Has w.r.ip e' ∧ e'.addr = a ∧
      (e'.owner = e.owner ∨ e'.owner = .proc 0)

theorem Sys.Follows.waitsFor (h : s.Follows t) (hs : s.Refs n) (ht : t.Refs n) {q y : ℕ}
    (hq : t.waitsFor q = some y) : s.waitsFor q = some y ∨ y = 0 := by
  obtain ⟨a, w, hat⟩ := at_of_waitsFor hq
  obtain ⟨hats, hent⟩ := h q a w hat
  obtain ⟨e, he, rfl⟩ := has_of_at hs hats
  obtain ⟨e', he', hea, ho⟩ := hent e he rfl
  rw [← hea] at hat
  rw [waitsFor_eq ht he' hat] at hq
  rw [waitsFor_eq hs he hats]
  rcases ho with ho | ho
  · exact .inl (ho ▸ hq)
  · rw [ho] at hq
    exact .inr (Option.some.inj hq).symm

theorem Sys.Follows.acyclic (h : s.Follows t) (hs : s.Refs n) (ht : t.Refs n)
    (hac : Chase.Acyclic s.waitsFor) (hzero : t.proc 0 = .idle) : Chase.Acyclic t.waitsFor := by
  refine hac.of_sub fun x y hxy => (h.waitsFor hs ht hxy).imp id fun hy => ?_
  rw [hy]
  exact waitsFor_none (by rw [hzero]; rfl)

variable {res : List Lock × Pool}

theorem follows_commit (hs : s.Refs n) {r : Req} {ip : ℕ}
    (hed : Edits r (s.lists ip, s.fresh) res) : s.Follows (s.commit ip res) := by
  have hent := hs.entries ip
  obtain ⟨hk, -⟩ := hed.keep
    (show Entries (s.refs n) (s.lists ip) s.fresh from
      ⟨hent.nodup, hent.count, hent.held, hent.free⟩)
  intro q a w hq
  have hat : (s.proc q).at = some (a, w) := by simpa [Sys.commit] using hq
  refine ⟨hat, fun e he hea => ?_⟩
  subst hea
  rcases he with he | he
  · by_cases hi : w.r.ip = ip
    · subst hi
      simp only [Sys.Has, Sys.commit, update_self]
      rcases hk.entry e he (refs_pos (hs.proc q _ w hat).1 (chan_of_at hat)) with
        ⟨e', he', hea, ho, -⟩ | ⟨e', he', hea, ho, -⟩
      · exact ⟨e', .inl he', hea, .inl ho⟩
      · exact ⟨e', .inr he', hea, .inr ho⟩
    · simp only [Sys.Has, Sys.commit, update_of_ne hi]
      exact ⟨e, .inl he, rfl, .inl rfl⟩
  · exact ⟨e, .inr (hk.held e he), rfl, .inl rfl⟩

/-- Entries after `lockdec` come from entries with the same address and owner. -/
theorem has_lockdec {ip a i : ℕ} {e' : Lock} (he : (s.lockdec ip a).Has i e') :
    ∃ e, s.Has i e ∧ e.addr = e'.addr ∧ e.owner = e'.owner := by
  have hmap : ∀ e', e' ∈ Function.update s.lists ip ((s.lists ip).map fun e =>
      if e.addr = a then { e with llCount := e.llCount - 1 } else e) i →
      ∃ e ∈ s.lists i, e.addr = e'.addr ∧ e.owner = e'.owner := by
    intro e' he'
    by_cases hi : i = ip
    · subst hi
      rw [update_self] at he'
      obtain ⟨e, he, rfl⟩ := mem_map.1 he'
      refine ⟨e, he, ?_⟩
      split_ifs <;> exact ⟨rfl, rfl⟩
    · rw [update_of_ne hi] at he'
      exact ⟨e', he', rfl, rfl⟩
  unfold Sys.lockdec at he
  split at he
  · rcases he with he | he
    · obtain ⟨e, he, h⟩ := hmap e' he
      exact ⟨e, .inl he, h⟩
    · refine ⟨e', .inr ?_, rfl, rfl⟩
      simp only at he
      split_ifs at he <;> exact he
  · split at he
    · rename_i f hf
      rcases he with he | he
      · exact ⟨e', .inl he, rfl, rfl⟩
      · simp only [Pool.lockdec] at he
        split_ifs at he
        · exact ⟨e', .inr (mem_filter.1 he).1, rfl, rfl⟩
        · rcases mem_cons.1 he with rfl | he
          · exact ⟨f, .inr (mem_of_find?_eq_some hf), rfl, rfl⟩
          · exact ⟨e', .inr (mem_filter.1 he).1, rfl, rfl⟩
    · exact ⟨e', he, rfl, rfl⟩

theorem lockdec_proc (s : Sys) (ip a : ℕ) : (s.lockdec ip a).proc = s.proc := by
  unfold Sys.lockdec
  split
  · rfl
  · split <;> rfl

theorem follows_drop (hs : s.Refs n) {p a : ℕ} (hp : (s.proc p).at = some (a, w)) :
    s.Follows ((s.lockdec w.r.ip a).setProc p .idle) := by
  intro q b v hq
  have hat : (s.proc q).at = some (b, v) := by
    by_cases hqp : q = p
    · subst hqp
      rw [setProc_self] at hq
      cases hq
    · rw [setProc_of_ne hqp, lockdec_proc] at hq
      exact hq
  refine ⟨hat, fun e he hea => ?_⟩
  subst hea
  obtain ⟨e', he', hea'⟩ := has_of_at (hs.drop hp) hq
  obtain ⟨e'', he'', ha, ho⟩ := has_lockdec he'
  -- there was only one entry with this address
  have : e'' = e := by
    have h1 := deref_eq hs he''
    have h2 := deref_eq hs he
    rw [ha, hea', h2] at h1
    exact (Option.some.inj h1).symm
  subst this
  exact ⟨e', he', hea', .inl ho.symm⟩

theorem refs_released (hs : s.Refs n) (p : ℕ) : (s.released p).Refs n := by
  unfold Sys.released
  split
  · exact hs
  · rename_i a w hat
    exact hs.drop hat

/-! ### The hunt -/

/-- Changing counts and flags on one list keeps the owners. -/
theorem waitsFor_congr (hs : s.Refs n) (ht : t.Refs n) (ip : ℕ) {f : Lock → Lock}
    (hf : ∀ e, SameLock e (f e))
    (hl : t.lists = Function.update s.lists ip ((s.lists ip).map f)) (hpool : t.pool = s.pool)
    {q : ℕ} (hq : (t.proc q).at = (s.proc q).at) : t.waitsFor q = s.waitsFor q := by
  cases hat : (s.proc q).at with
  | none => rw [waitsFor_none hat, waitsFor_none (hq.trans hat)]
  | some x =>
    obtain ⟨a, w⟩ := x
    obtain ⟨e, he, rfl⟩ := has_of_at hs hat
    obtain ⟨e', he', hsame⟩ : ∃ e', t.Has w.r.ip e' ∧ SameLock e e' := by
      rcases he with he | he
      · simp only [Sys.Has, hl]
        by_cases hi : w.r.ip = ip
        · rw [hi, update_self]
          exact ⟨f e, .inl (mem_map_of_mem (hi ▸ he)), hf e⟩
        · rw [update_of_ne hi]
          exact ⟨e, .inl he, ⟨rfl, rfl, rfl, rfl, rfl⟩⟩
      · exact ⟨e, .inr (hpool ▸ he), ⟨rfl, rfl, rfl, rfl, rfl⟩⟩
    rw [waitsFor_eq hs he hat, waitsFor_eq ht he' (by rw [hsame.addr, hq, hat]), hsame.owner]

/-- The state in which `p` calls `deadlock` for the entry `e`. -/
def Sys.hunting (s : Sys) (p : ℕ) (w : Want) (e : Lock) : Sys :=
  (s.lockinc w.r.ip e.addr).setProc p (.hunt e.addr w)

variable {p : ℕ}

/-- Setting `p_dlchan` adds the edge from `p` to the owner of the entry. -/
theorem waitsFor_hunting (hs : s.Refs n) (he : e ∈ s.lists w.r.ip) (ht : (s.hunting p w e).Refs n) :
    (s.hunting p w e).waitsFor = Function.update s.waitsFor p e.owner.pid := by
  funext q
  by_cases hq : q = p
  · subst hq
    rw [update_self]
    have hat : ((s.hunting q w e).proc q).at = some (e.addr, w) := by
      rw [Sys.hunting, setProc_self]
      rfl
    have hhas : (s.hunting q w e).Has w.r.ip { e with llCount := e.llCount + 1 } := by
      left
      simp only [Sys.hunting, Sys.setProc, Sys.lockinc, update_self]
      exact mem_map.2 ⟨e, he, by simp⟩
    exact waitsFor_eq (e := { e with llCount := e.llCount + 1 }) ht hhas hat
  · rw [update_of_ne hq]
    refine waitsFor_congr hs ht w.r.ip
      (f := fun f => if f.addr = e.addr then { f with llCount := f.llCount + 1 } else f)
      (fun f => ?_) rfl rfl ?_
    · split_ifs <;> exact ⟨rfl, rfl, rfl, rfl, rfl⟩
    · rw [Sys.hunting, setProc_of_ne hq]
      rfl

/-- The loop of `deadlock` follows the wait-for graph. -/
theorem deadlock_eq_chase (hloc : ∀ q e, s.ddProcstat q = some e → e.owner.pid ≠ none) (p : ℕ)
    (fuel : ℕ) {lp : Lock} {o : ℕ} (ho : lp.owner = .proc o) : s.deadlock p fuel lp =
      (chase s.waitsFor p fuel o).map fun b => if b then (s.proc p).chan else none := by
  induction fuel generalizing lp o with
  | zero => rfl
  | succ fuel ih =>
    rw [Sys.deadlock, ho, chase]
    by_cases hop : o = p
    · simp [hop]
    · simp only [if_neg hop]
      cases hd : s.ddProcstat o with
      | none =>
        have : s.waitsFor o = none := by simp [Sys.waitsFor, hd]
        simp [this]
      | some e =>
        cases hown : e.owner with
        | proc o' =>
          have : s.waitsFor o = some o' := by simp [Sys.waitsFor, hd, hown, Owner.pid]
          simp only [this]
          exact ih hown
        | remote site pid => exact absurd (by rw [hown]; rfl) (hloc o e hd)

/-! ### The invariant -/

/-- The invariant of local runs. -/
structure Sys.LocalInv (s : Sys) : Prop where
  /-- The wait-for graph has no cycle. -/
  acyclic : Chase.Acyclic s.waitsFor
  /-- No lock is remote. -/
  owners : ∀ ip e, s.Has ip e → e.owner.pid ≠ none
  /-- The swapper waits for nothing. -/
  zero : s.proc 0 = .idle
  /-- No request is made for a remote process. -/
  wants : ∀ q a w, (s.proc q).at = some (a, w) → w.r.u.uNsp = none

theorem owner_pid_ne {u : U} (hu : u.uNsp = none) : u.owner.pid ≠ none := by
  rw [U.owner, hu]
  simp [Owner.pid]

/-- Edits by a local process link only its own locks and free entries to process 0. -/
theorem Edits.owners {r : Req} (hr : r.u.uNsp = none) {x y : List Lock × Pool}
    (h : Edits r x y) (hx : ∀ e, e ∈ x.1 ∨ e ∈ x.2.held → e.owner.pid ≠ none) :
    ∀ e, e ∈ y.1 ∨ e ∈ y.2.held → e.owner.pid ≠ none := by
  induction h with
  | refl => exact hx
  | tail _ hst ih =>
    intro f hf
    cases hst with
    | link l₁ l₂ p lb ub t hfree =>
      simp only [mem_append, mem_cons] at hf ih
      rcases hf with (hf | rfl | hf) | hf
      · exact ih f (.inl (.inl hf))
      · exact owner_pid_ne hr
      · exact ih f (.inl (.inr hf))
      · exact ih f (.inr hf)
    | change l₁ l₂ p e lb ub t hown =>
      simp only [mem_append, mem_cons] at hf ih
      rcases hf with (hf | rfl | hf) | hf
      · exact ih f (.inl (.inl hf))
      · exact ih e (.inl (.inr (.inl rfl)))
      · exact ih f (.inl (.inr (.inr hf)))
      · exact ih f (.inr hf)
    | wake l₁ l₂ p e hown =>
      simp only [mem_append, mem_cons, Pool.notify_held] at hf ih
      rcases hf with (hf | rfl | hf) | hf
      · exact ih f (.inl (.inl hf))
      · exact ih e (.inl (.inr (.inl rfl)))
      · exact ih f (.inl (.inr (.inr hf)))
      · exact ih f (.inr hf)
    | free l₁ l₂ p e hown =>
      simp only [mem_append, mem_cons] at hf ih
      have hheld : ∀ f ∈ (p.lockfree e).held, f ∈ p.held ∨ f.owner = .proc 0 := by
        intro f hf
        rcases p.lockfree_cases e with ⟨-, -, h⟩ | ⟨-, -, h⟩ <;> rw [h] at hf
        · exact .inl hf
        · rcases mem_cons.1 hf with rfl | hf
          · exact .inr rfl
          · exact .inl hf
      rcases hf with (hf | hf) | hf
      · exact ih f (.inl (.inl hf))
      · exact ih f (.inl (.inr (.inr hf)))
      · rcases hheld f hf with hf | hf
        · exact ih f (.inr hf)
        · rw [hf]
          simp [Owner.pid]
    | error l p err pre => exact ih f hf

theorem Sys.LocalInv.commit (h : s.LocalInv) (hs : s.Refs n) {r : Req} (hr : r.u.uNsp = none)
    {ip : ℕ} (hed : Edits r (s.lists ip, s.fresh) res)
    (ht : (s.commit ip res).Refs n) : (s.commit ip res).LocalInv := by
  have hzero : (s.commit ip res).proc 0 = .idle := by
    simp only [Sys.commit, h.zero]
    rfl
  refine ⟨(follows_commit hs hed).acyclic hs ht h.acyclic hzero, fun i e he => ?_, hzero,
    fun q a w hq => h.wants q a w (by simpa [Sys.commit] using hq)⟩
  have hres := hed.owners hr fun e he => h.owners ip e he
  rcases he with he | he
  · by_cases hi : i = ip
    · subst hi
      simp only [Sys.commit, update_self] at he
      exact hres e (.inl he)
    · simp only [Sys.commit, update_of_ne hi] at he
      exact h.owners i e (.inl he)
  · exact hres e (.inr he)

theorem Sys.LocalInv.drop (h : s.LocalInv) (hs : s.Refs n) {p a : ℕ} {w : Want}
    (hp : (s.proc p).at = some (a, w)) : ((s.lockdec w.r.ip a).setProc p .idle).LocalInv := by
  have hzero : ((s.lockdec w.r.ip a).setProc p .idle).proc 0 = .idle := by
    by_cases h0 : 0 = p
    · rw [← h0, setProc_self]
    · rw [setProc_of_ne h0, lockdec_proc, h.zero]
  have hfol := follows_drop hs hp
  refine ⟨hfol.acyclic hs (hs.drop hp) h.acyclic hzero, fun i e he => ?_, hzero,
    fun q b v hq => h.wants q b v (hfol q b v hq).1⟩
  obtain ⟨e', he', -, ho⟩ := has_lockdec he
  rw [← ho]
  exact h.owners i e' he'

theorem Sys.LocalInv.released (h : s.LocalInv) (hs : s.Refs n) (p : ℕ) : (s.released p).LocalInv := by
  unfold Sys.released
  split
  · exact h
  · rename_i a w hat
    exact h.drop hs hat

/-- Steps that change flags of entries and the state of one process without moving its
`p_dlchan`. -/
theorem Sys.LocalInv.of_same (h : s.LocalInv) (hs : s.Refs n) (ht : t.Refs n) (ip : ℕ)
    {f : Lock → Lock} (hf : ∀ e, SameLock e (f e))
    (hl : t.lists = Function.update s.lists ip ((s.lists ip).map f)) (hpool : t.pool = s.pool)
    (hat : ∀ q, (t.proc q).at = (s.proc q).at) : t.LocalInv := by
  have hwf : t.waitsFor = s.waitsFor := by
    funext q
    exact waitsFor_congr hs ht ip hf hl hpool (hat q)
  refine ⟨hwf ▸ h.acyclic, fun i e he => ?_, ?_, fun q a w hq => h.wants q a w (hat q ▸ hq)⟩
  · rcases he with he | he
    · rw [hl] at he
      by_cases hi : i = ip
      · subst hi
        rw [update_self] at he
        obtain ⟨g, hg, rfl⟩ := mem_map.1 he
        rw [(hf g).owner]
        exact h.owners i g (.inl hg)
      · rw [update_of_ne hi] at he
        exact h.owners i e (.inl he)
    · rw [hpool] at he
      exact h.owners i e (.inr he)
  · have h0 := hat 0
    rw [h.zero] at h0
    cases hz : t.proc 0 with
    | idle => rfl
    | hunt => rw [hz] at h0; cases h0
    | asleep => rw [hz] at h0; cases h0
    | ready => rw [hz] at h0; cases h0

theorem has_of_deref {ip a : ℕ} (h : s.deref ip a = some e) : s.Has ip e := by
  unfold Sys.deref at h
  cases hf : (s.lists ip).find? fun e => e.addr = a with
  | some f =>
    rw [hf] at h
    obtain rfl := Option.some.inj h
    exact .inl (mem_of_find?_eq_some hf)
  | none =>
    rw [hf] at h
    exact .inr (mem_of_find?_eq_some h)

section Hunting

variable {p : ℕ} {w : Want} {e : Lock}

/-- The entries keep their owners when a process starts to hunt. -/
theorem has_hunting {ip : ℕ} {f : Lock} (hf : (s.hunting p w e).Has ip f) :
    ∃ f', f.owner = f'.owner ∧ s.Has ip f' := by
  rcases hf with hf | hf
  · by_cases hi : ip = w.r.ip
    · subst hi
      simp only [Sys.hunting, Sys.setProc, Sys.lockinc, update_self] at hf
      obtain ⟨g, hg, rfl⟩ := mem_map.1 hf
      refine ⟨g, ?_, .inl hg⟩
      split_ifs <;> rfl
    · simp only [Sys.hunting, Sys.setProc, Sys.lockinc, update_of_ne hi] at hf
      exact ⟨f, rfl, .inl hf⟩
  · exact ⟨f, rfl, .inr hf⟩

theorem has_hunting_self (p : ℕ) (he : e ∈ s.lists w.r.ip) :
    { e with llCount := e.llCount + 1 } ∈ (s.hunting p w e).lists w.r.ip := by
  simp only [Sys.hunting, Sys.setProc, Sys.lockinc, update_self]
  exact mem_map.2 ⟨e, he, by simp⟩

/-- A process that gives up after the hunt leaves the state as it found it. -/
theorem hunting_undo (ht : (s.hunting p w e).Refs n) (hp : p < n) (hidle : s.proc p = .idle)
    (he : e ∈ s.lists w.r.ip) : (s.hunting p w e).step (.hunted p true) = some s := by
  have hstate : (s.hunting p w e).proc p = .hunt e.addr w := setProc_self ..
  have hpos : 0 < (s.hunting p w e).refs n e.addr := refs_pos hp (by rw [hstate]; rfl)
  have hmem : e.addr ∈ addrs ((s.hunting p w e).lists w.r.ip) :=
    mem_addrs.2 ⟨_, has_hunting_self p he, rfl⟩
  have hlist : ((s.hunting p w e).lists w.r.ip).map (fun f =>
      if f.addr = e.addr then { f with llCount := f.llCount - 1 } else f) = s.lists w.r.ip := by
    simp only [Sys.hunting, Sys.setProc, Sys.lockinc, update_self, List.map_map]
    refine List.map_id'' (fun f => ?_) _
    by_cases hf : f.addr = e.addr
    · simp only [comp_apply, if_pos hf]
      rfl
    · simp only [comp_apply, if_neg hf]
  simp only [Sys.step, hstate, if_true]
  rw [lockdec_linked ht hpos hmem, hlist]
  have hproc : Function.update s.proc p .idle = s.proc := by rw [← hidle, update_eq_self]
  simp [Sys.hunting, Sys.setProc, Sys.lockinc, update_idem, hproc]

end Hunting

/-- The call of `deadlock` by `p` for the listed entry `e`: it ends, it finds a deadlock exactly
when the edge it adds closes a cycle, and then giving up restores the state. -/
theorem hunting_answer (h : s.LocalInv) (hs : s.Refs n) (hp : p < n)
    (hidle : s.proc p = .idle) (he : e ∈ s.lists w.r.ip) (ht : (s.hunting p w e).Refs n) :
    ∃ lp res, (s.hunting p w e).deref w.r.ip e.addr = some lp ∧
      (∀ fuel, n < fuel → (s.hunting p w e).deadlock p fuel lp = some res) ∧
      (∀ fuel res', (s.hunting p w e).deadlock p fuel lp = some res' → res' = res) ∧
      (res ≠ none ↔ TransGen (Edge (s.hunting p w e).waitsFor) p p) ∧
      (s.hunting p w e).step (.hunted p true) = some s := by
  let t := s.hunting p w e
  let lp : Lock := { e with llCount := e.llCount + 1 }
  have hhas : t.Has w.r.ip lp := .inl (has_hunting_self p he)
  have hderef : t.deref w.r.ip e.addr = some lp := deref_eq ht hhas
  obtain ⟨o, ho⟩ : ∃ o, e.owner = .proc o := by
    have := h.owners w.r.ip e (.inl he)
    cases howner : e.owner with
    | proc o => exact ⟨o, rfl⟩
    | remote site pid => exact absurd (by rw [howner]; rfl) this
  have hwf : t.waitsFor = Function.update s.waitsFor p (some o) := by
    rw [waitsFor_hunting hs he ht, ho]
    rfl
  have hloc : ∀ q f, t.ddProcstat q = some f → f.owner.pid ≠ none := by
    intro q f hf
    obtain ⟨⟨a, v⟩, -, hf⟩ := Option.bind_eq_some_iff.1 hf
    obtain ⟨f', ho', hf'⟩ := has_hunting (has_of_deref hf)
    rw [ho']
    exact h.owners _ f' hf'
  have hchase : ∀ fuel, t.deadlock p fuel lp =
      (chase s.waitsFor p fuel o).map fun b => if b then (t.proc p).chan else none := by
    intro fuel
    have := deadlock_eq_chase hloc p fuel (show lp.owner = .proc o from ho)
    rwa [hwf, chase_update] at this
  have hchan : (t.proc p).chan = some e.addr := by
    simp only [t, Sys.hunting, setProc_self]
    rfl
  have hF : ∀ x y, s.waitsFor x = some y → x ∈ Finset.range n := by
    intro x y hxy
    obtain ⟨a, v, hat⟩ := at_of_waitsFor hxy
    exact Finset.mem_range.2 (hs.proc x a v hat).1
  obtain ⟨b, hb, hiff⟩ := chase_spec h.acyclic (Finset.range n) hF p
    (show (Finset.range n).card < n + 1 by simp) o
  refine ⟨lp, if b then some e.addr else none, hderef, fun fuel hfuel => ?_, fun fuel res' hres => ?_,
    ?_, ?_⟩
  · obtain ⟨k, rfl⟩ := Nat.exists_eq_add_of_le (Nat.succ_le_of_lt hfuel)
    rw [hchase, chase_mono hb k, hchan]
    rfl
  · rw [hchase] at hres
    obtain ⟨b', hb', rfl⟩ := Option.map_eq_some_iff.1 hres
    have h1 := chase_mono hb fuel
    have h2 := chase_mono hb' (n + 1)
    rw [Nat.add_comm, h1] at h2
    rw [hchan, Option.some.inj h2]
  · rw [show (s.hunting p w e).waitsFor = _ from hwf, cycle_update_iff, ← hiff]
    cases b <;> simp
  · exact hunting_undo ht hp hidle he

/-- Whatever `deadlock` answers, the invariant is kept. -/
theorem Sys.LocalInv.settle (h : s.LocalInv) (hs : s.Refs n) (hp : p < n) (hp0 : p ≠ 0)
    (hidle : s.proc p = .idle) (hw : w.r.u.uNsp = none)
    (he : e ∈ s.lists w.r.ip) (ht : (s.hunting p w e).Refs n) {s' : Sys}
    (hset : (s.hunting p w e).Settles p s') : s'.LocalInv := by
  obtain ⟨lp, res, hderef, -, huniq, hiff, hundo⟩ := hunting_answer h hs hp hidle he ht
  have hstate : (s.hunting p w e).proc p = .hunt e.addr w := setProc_self ..
  simp only [Sys.Settles, hstate] at hset
  obtain ⟨lp', fuel, res', hderef', hdead, hstep⟩ := hset
  rw [hderef] at hderef'
  obtain rfl := Option.some.inj hderef'
  obtain rfl := huniq fuel res' hdead
  cases res' with
  | some a =>
    -- a deadlock: nothing has changed
    rw [Option.isSome_some, hundo] at hstep
    exact Option.some.inj hstep ▸ h
  | none =>
    obtain ⟨o, ho⟩ := Option.ne_none_iff_exists'.1 (h.owners w.r.ip e (.inl he))
    have hwf := waitsFor_hunting hs he ht
    have hac : Chase.Acyclic (s.hunting p w e).waitsFor := by
      have hno : ¬ TransGen (Edge (s.hunting p w e).waitsFor) p p := fun hc => (hiff.2 hc) rfl
      rw [hwf, ho] at hno ⊢
      exact h.acyclic.update fun hr => hno (cycle_update_iff.2 hr)
    have hinv : (s.hunting p w e).LocalInv := by
      refine ⟨hac, fun i f hf => ?_, ?_, fun q a v hq => ?_⟩
      · obtain ⟨f', ho', hf'⟩ := has_hunting hf
        rw [ho']
        exact h.owners i f' hf'
      · rw [Sys.hunting, setProc_of_ne (Ne.symm hp0)]
        exact h.zero
      · by_cases hq' : q = p
        · subst hq'
          rw [hstate] at hq
          obtain ⟨-, rfl⟩ := Prod.mk.inj (Option.some.inj hq)
          exact hw
        · rw [Sys.hunting, setProc_of_ne hq'] at hq
          exact h.wants q a v hq
    have hat : ((s.hunting p w e).proc p).at = some (e.addr, w) := by rw [hstate]; rfl
    have hlinked : ∃ f ∈ (s.hunting p w e).lists w.r.ip, f.addr = e.addr :=
      ⟨_, has_hunting_self p he, rfl⟩
    simp only [Option.isSome_none, Sys.step, hstate, Bool.false_eq_true, if_false,
      if_pos hlinked] at hstep
    split_ifs at hstep with hflag
    · -- the lock manager is told later; the process does not wait
      obtain rfl := Option.some.inj hstep
      exact (hinv.drop ht hat).of_same (ht.drop hat) ((ht.drop hat).want _ _ _) _
        (want_same w e.addr)
        rfl rfl fun _ => rfl
    · obtain rfl := Option.some.inj hstep
      refine hinv.of_same ht (ht.sleep hstate hflag (mem_addrs.2 hlinked)) _
        (want_same w e.addr)
        rfl rfl fun q => ?_
      by_cases hq : q = p
      · subst hq
        rw [setProc_self, hstate]
        rfl
      · rw [setProc_of_ne hq]
        rfl

theorem settles_commit {p ip : ℕ} (hidle : s.proc p = .idle) {s' : Sys}
    (hset : (s.commit ip res).Settles p s') : s.commit ip res = s' := by
  have hst : (s.commit ip res).proc p = .idle := by
    simp only [Sys.commit, hidle]
    rfl
  simp only [Sys.Settles, hst] at hset
  exact hset.symm

/-- A local process scans the list and, if it has to, hunts for deadlocks. -/
theorem Sys.LocalInv.scan (h : s.LocalInv) (hs : s.Refs n) (hp : p < n) (hp0 : p ≠ 0)
    (hidle : s.proc p = .idle) (hw : w.r.u.uNsp = none) (hu : w.r.u.uProcp = p)
    (hr : w.r.lb < w.r.ub) (ht : s.scan p w = some t) {s' : Sys} (hset : t.Settles p s') :
    s'.LocalInv := by
  have htr := hs.scan hp hidle hu hr ht
  rcases scan_cases hs hidle hr ht with rfl | ⟨-, -, A, M, M', B, p', hl, -, -, hins, -, rfl⟩ |
    ⟨e, he, -, rfl⟩
  · simp only [Sys.Settles, hidle] at hset
    exact hset ▸ h
  · have hcommit := h.commit hs hw (edits_of_inserted hl hins) htr
    exact settles_commit hidle hset ▸ hcommit
  · exact h.settle hs hp hp0 hidle hw he htr hset

/-- Every local step keeps the invariant. -/
theorem Sys.LocalInv.step (h : s.LocalInv) (hs : s.Refs n) {a : Act} {s' : Sys}
    (hstep : (localSys n).step s a s') : s'.LocalInv := by
  obtain ⟨hloc, hp0, t, ⟨hp, ht⟩, hset⟩ := hstep
  have htr : t.Refs n := hs.step hp ht
  cases a with
  | call p w =>
    simp only [Sys.step] at ht
    split_ifs at ht with hg
    exact h.scan hs hp hp0 hg.1 hloc hg.2.1 hg.2.2 ht hset
  | hunted p found => exact hloc.elim
  | resume p =>
    cases hst : s.proc p with
    | ready a w intr =>
      have hat : (s.proc p).at = some (a, w) := by rw [hst]; rfl
      obtain ⟨-, hu, hr⟩ := hs.proc p a w hat
      have hdrop := h.drop hs hat
      have hidle : ((s.lockdec w.r.ip a).setProc p .idle).proc p = .idle := setProc_self ..
      simp only [Sys.step, hst] at ht
      split_ifs at ht
      · obtain rfl := Option.some.inj ht
        simp only [Act.actor, Sys.Settles, hidle] at hset
        exact hset ▸ hdrop
      · rw [← scan_setProc _ p .idle] at ht
        exact hdrop.scan (hs.drop hat) hp hp0 hidle (h.wants p a w hat) hu hr ht hset
    | idle => simp [Sys.step, hst] at ht
    | asleep => simp [Sys.step, hst] at ht
    | hunt => simp [Sys.step, hst] at ht
  | signal p =>
    cases hst : s.proc p with
    | asleep a w =>
      simp only [Sys.step, hst, Option.some.injEq] at ht
      subst ht
      have hstate : (s.setProc p (.ready a w true)).proc p = .ready a w true := setProc_self ..
      simp only [Act.actor, Sys.Settles, hstate] at hset
      subst hset
      refine h.of_same hs htr 0 (f := id) (fun e => ⟨rfl, rfl, rfl, rfl, rfl⟩) ?_ rfl
        fun q => ?_
      · rw [map_id, update_eq_self]
        rfl
      · by_cases hq : q = p
        · subst hq
          rw [hstate, hst]
          rfl
        · rw [setProc_of_ne hq]
    | idle => simp [Sys.step, hst] at ht
    | ready => simp [Sys.step, hst] at ht
    | hunt => simp [Sys.step, hst] at ht
  | delete p r =>
    obtain ⟨hidle, A, M, M', B, p', -, -, -, hed, rfl⟩ := delete_cases hs ht
    exact settles_commit hidle hset ▸ h.commit hs hloc hed htr
  | unlock p u ip =>
    obtain ⟨hidle, res, -, -, hed, rfl⟩ := unlock_cases hs ht
    exact settles_commit hidle hset ▸
      h.commit hs (r := ⟨u, ip, false, 0, 0, .lockf, .unlck⟩) hloc (hed _ rfl) htr

theorem localSys_inv (h : (localSys n).Reach s) : s.LocalInv := by
  have hs : (lockSys n).Reach s ∧ s.LocalInv := by
    refine h.inv (I := fun s => (lockSys n).Reach s ∧ s.LocalInv) (fun s hs => ?_)
      fun s a s' hr hs hstep => ⟨localSys_reach (.step hr hstep), hs.2.step (lockSys_refs hs.1) hstep⟩
    have hinit := hs
    obtain ⟨hl, -, hheld, -, hidle⟩ := hs
    have hat : ∀ q, (s.proc q).at = none := fun q => by rw [hidle]; rfl
    refine ⟨.init hinit, fun x hx => ?_, fun ip e he => ?_, hidle 0, fun q a w hq => ?_⟩
    · obtain ⟨y, hy, -⟩ := TransGen.head'_iff.1 hx
      rw [Edge, waitsFor_none (hat x)] at hy
      cases hy
    · simp [Sys.Has, hl, hheld] at he
    · rw [hat] at hq
      cases hq
  exact hs.2

/-- A scan that ends in `deadlock` has found a listed entry. -/
theorem scan_hunt (hs : s.Refs n) (hidle : s.proc p = .idle) {v : Want}
    (hr : v.r.lb < v.r.ub) (ht : s.scan p v = some t) {b : ℕ}
    (hunt : t.proc p = .hunt b w) : ∃ e ∈ s.lists w.r.ip, e.addr = b ∧ t = s.hunting p w e := by
  rcases scan_cases hs hidle hr ht with rfl | ⟨-, -, A, M, M', B, p', -, -, -, -, -, rfl⟩ |
    ⟨e, he, -, rfl⟩
  · rw [hidle] at hunt
    cases hunt
  · simp only [Sys.commit, hidle] at hunt
    cases hunt
  · rw [setProc_self] at hunt
    obtain ⟨rfl, rfl⟩ := ProcState.hunt.inj hunt
    exact ⟨e, he, rfl, rfl⟩

/-- The steps that end in `deadlock` are those that scan the list. -/
theorem step_hunt (hs : s.Refs n) {a : Act} (hloc : a.Local) (ht : s.step a = some t) {b : ℕ}
   (hunt : t.proc a.actor = .hunt b w) :
    (s.released a.actor).proc a.actor = .idle ∧ ∃ e ∈ (s.released a.actor).lists w.r.ip,
      e.addr = b ∧ t = (s.released a.actor).hunting a.actor w e := by
  cases a with
  | call p v =>
    simp only [Sys.step] at ht
    split_ifs at ht with hg
    have hrel : s.released p = s := by
      simp only [Sys.released, hg.1]
      rfl
    simp only [Act.actor, hrel] at hunt ⊢
    exact ⟨hg.1, scan_hunt hs hg.1 hg.2.2 ht hunt⟩
  | hunted p found => exact hloc.elim
  | resume p =>
    simp only [Act.actor] at hunt ⊢
    cases hst : s.proc p with
    | ready a v intr =>
      have hat : (s.proc p).at = some (a, v) := by rw [hst]; rfl
      have hrel : s.released p = (s.lockdec v.r.ip a).setProc p .idle := by
        simp only [Sys.released, hat]
      have hidle : (s.released p).proc p = .idle := by rw [hrel, setProc_self]
      refine ⟨hidle, ?_⟩
      simp only [Sys.step, hst] at ht
      split_ifs at ht
      · obtain rfl := Option.some.inj ht
        rw [setProc_self] at hunt
        cases hunt
      · rw [← scan_setProc _ p .idle, ← hrel] at ht
        exact scan_hunt (refs_released hs p) hidle (hs.proc p a v hat).2.2 ht hunt
    | idle => simp [Sys.step, hst] at ht
    | asleep => simp [Sys.step, hst] at ht
    | hunt => simp [Sys.step, hst] at ht
  | signal p =>
    cases hst : s.proc p with
    | asleep a v =>
      simp only [Sys.step, hst, Option.some.injEq] at ht
      subst ht
      simp only [Act.actor, setProc_self] at hunt
      cases hunt
    | idle => simp [Sys.step, hst] at ht
    | ready => simp [Sys.step, hst] at ht
    | hunt => simp [Sys.step, hst] at ht
  | delete p r =>
    obtain ⟨hidle, A, M, M', B, p', -, -, -, -, rfl⟩ := delete_cases hs ht
    simp only [Act.actor, Sys.commit, hidle] at hunt
    cases hunt
  | unlock p u ip =>
    obtain ⟨hidle, res, -, -, -, rfl⟩ := unlock_cases hs ht
    simp only [Act.actor, Sys.commit, hidle] at hunt
    cases hunt

/-- Deadlock detection is sound and complete.  In every state that local processes reach, the
wait-for graph has no cycle.  When a step from there makes a process call `deadlock`, the step has
added the edge from the process to the owner of the entry; the loop ends after at most `n + 1`
turns; it finds a deadlock exactly when the new edge closes a cycle through the process; and in
that case `p_dlchan` and the reference counts go back to what they were before the edge. -/
theorem deadlock_sound_complete (h : (localSys n).Reach s) :
    Chase.Acyclic s.waitsFor ∧
    ∀ a t b w, a.Local → a.actor ≠ 0 → (lockSys n).step s a t → t.proc a.actor = .hunt b w →
      ∃ lp o res, t.deref w.r.ip b = some lp ∧ lp.owner = .proc o ∧
        t.waitsFor = Function.update (s.released a.actor).waitsFor a.actor (some o) ∧
        (∀ fuel, n < fuel → t.deadlock a.actor fuel lp = some res) ∧
        (res ≠ none ↔ TransGen (Edge t.waitsFor) a.actor a.actor) ∧
        t.step (.hunted a.actor true) = some (s.released a.actor) := by
  have hinv := localSys_inv h
  have hs := lockSys_refs (localSys_reach h)
  refine ⟨hinv.acyclic, fun a t b w hloc _ hstep hunt => ?_⟩
  have htr : t.Refs n := hs.step hstep.1 hstep.2
  have hrel := hinv.released hs a.actor
  have hrefs := refs_released hs a.actor
  obtain ⟨hidle, e, he, rfl, rfl⟩ := step_hunt hs hloc hstep.2 hunt
  obtain ⟨lp, res, hderef, hfuel, -, hiff, hundo⟩ :=
    hunting_answer hrel hrefs hstep.1 hidle he htr
  obtain ⟨o, ho⟩ : ∃ o, e.owner = .proc o := by
    cases howner : e.owner with
    | proc o => exact ⟨o, rfl⟩
    | remote site pid => exact absurd (by rw [howner]; rfl) (hrel.owners _ e (.inl he))
  have hlp : lp.owner = e.owner := by
    have hself := deref_eq htr (.inl (has_hunting_self a.actor he))
    rw [hderef] at hself
    rw [Option.some.inj hself]
  refine ⟨lp, o, res, hderef, hlp.trans ho, ?_, hfuel, hiff, hundo⟩
  rw [waitsFor_hunting hrefs he htr, ho]
  rfl

theorem settles_idle (h : s.proc p = .idle) : s.Settles p s := by
  simp only [Sys.Settles, h]

theorem settles_hunt {p a f : ℕ} (h : s.proc p = .hunt a w) {r : Option ℕ}
    (he : s.deref w.r.ip a = some e) (hr : s.deadlock p f e = some r)
    (ht : s.step (.hunted p r.isSome) = some t) : s.Settles p t := by
  simp only [Sys.Settles, h]
  exact ⟨e, f, r, he, hr, ht⟩

/-- Processes 1 and 2 hold one lock each, process 1 waits for process 2, and process 2 asks for
the lock of process 1. -/
theorem deadlock_sound_complete_two :
    ∃ s t : Sys, (localSys 3).Reach s ∧ Chase.Acyclic s.waitsFor ∧ s.waitsFor 1 = some 2 ∧
      TransGen (Edge t.waitsFor) 2 2 ∧ t.step (.hunted 2 true) = some s := by
  let want (p : ℕ) (lb : ℤ) : Want :=
    ⟨⟨⟨p, none⟩, 0, false, lb, lb + 10, .fcntl, .wrlck⟩, ⟨.setlkw, false, false⟩⟩
  let s₀ : Sys := ⟨fun _ => [], ⟨[1, 2, 3], [], none, none, []⟩, fun _ => .idle⟩
  let s₁ : Sys := (s₀.step (.call 1 (want 1 0))).get (by decide +kernel)
  let s₂ : Sys := (s₁.step (.call 2 (want 2 20))).get (by decide +kernel)
  let t₂ : Sys := (s₂.step (.call 1 (want 1 20))).get (by decide +kernel)
  let s₃ : Sys := (t₂.step (.hunted 1 false)).get (by decide +kernel)
  let t : Sys := (s₃.step (.call 2 (want 2 0))).get (by decide +kernel)
  let lp : Lock := ⟨1, 2, false, false, true, .proc 1, 0, 10, .wrlck, some 0⟩
  have h₀ : (localSys 3).Reach s₀ := .init ⟨fun _ => rfl, by decide, rfl, rfl, fun _ => rfl⟩
  have h₁ : (localSys 3).Reach s₁ := .step h₀ (l := .call 1 (want 1 0))
    ⟨rfl, by decide, s₁, ⟨by decide, (Option.some_get _).symm⟩,
      settles_idle (by decide +kernel)⟩
  have h₂ : (localSys 3).Reach s₂ := .step h₁ (l := .call 2 (want 2 20))
    ⟨rfl, by decide, s₂, ⟨by decide, (Option.some_get _).symm⟩,
      settles_idle (by decide +kernel)⟩
  have h₃ : (localSys 3).Reach s₃ := by
    have hwait : t₂.proc 1 = .hunt 2 (want 1 20) := by decide +kernel
    refine .step h₂ (l := .call 1 (want 1 20))
      ⟨rfl, by decide, t₂, ⟨by decide, (Option.some_get _).symm⟩, ?_⟩
    refine settles_hunt hwait
      (e := ⟨2, 2, false, false, true, .proc 2, 20, 30, .wrlck, some 0⟩) (f := 2) (r := none)
      (by decide +kernel) (by decide +kernel) (Option.some_get _).symm
  obtain ⟨hac, hdead⟩ := deadlock_sound_complete h₃
  obtain ⟨lp', o, res, hderef, -, -, hfuel, hiff, hundo⟩ :=
    hdead (.call 2 (want 2 0)) t 1 (want 2 0) rfl (by decide)
      ⟨by decide, (Option.some_get _).symm⟩ (by decide +kernel)
  have hrel : s₃.released 2 = s₃ := by
    have hidle : s₃.proc 2 = .idle := by decide +kernel
    simp only [Sys.released, hidle]
    rfl
  have hlp : t.deref 0 1 = some lp := by decide +kernel
  have hres : t.deadlock 2 4 lp = some (some 1) := by decide +kernel
  obtain rfl := Option.some.inj (hlp.symm.trans hderef)
  refine ⟨s₃, t, h₃, hac, by decide +kernel, hiff.1 ?_, hundo.trans (congrArg some hrel)⟩
  rw [Option.some.inj ((hfuel 4 (by decide)).symm.trans hres)]
  simp

end Lockf

end Hpux
