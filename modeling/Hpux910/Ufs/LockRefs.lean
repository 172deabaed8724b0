import Hpux910.Ufs.LockSys
import Hpux910.Ufs.DeleteLock
import Mathlib

/-!
# References to lock entries

A process in `locked` holds a reference to the entry it waits for, and the list holds one to each
of its entries.  An entry is reused only after the last reference is gone, so an address held by a
process always means the entry the process found.

* `Entries` : the invariant of one list with the table, for fixed numbers of references.
* `Edits.keep` : what a list routine does to the entries that processes refer to.
* `Sys.Refs` : the invariant of the whole system; `lockSys_refs` : it holds in every run.
-/

namespace Hpux

namespace Lockf

open List Function

/-- The addresses of the entries of a list. -/
def addrs (l : List Lock) : List ℕ := l.map Lock.addr

@[simp] theorem addrs_nil : addrs [] = [] := rfl

@[simp] theorem addrs_cons (e : Lock) (l : List Lock) : addrs (e :: l) = e.addr :: addrs l := rfl

@[simp] theorem addrs_append (l₁ l₂ : List Lock) : addrs (l₁ ++ l₂) = addrs l₁ ++ addrs l₂ :=
  map_append

theorem mem_addrs {l : List Lock} {a : ℕ} : a ∈ addrs l ↔ ∃ e ∈ l, e.addr = a := mem_map

/-- All addresses a list routine can see. -/
def allAddrs (l : List Lock) (p : Pool) : List ℕ := addrs l ++ (p.free ++ addrs p.held)

theorem eq_of_addr {l : List Lock} (h : (addrs l).Nodup) {e f : Lock} (he : e ∈ l) (hf : f ∈ l)
    (ha : e.addr = f.addr) : e = f := inj_on_of_nodup_map h he hf ha

/-- The counts of the entries agree with `refs`, the numbers of processes that refer to them. -/
structure Entries (refs : ℕ → ℕ) (l : List Lock) (p : Pool) : Prop where
  nodup : (allAddrs l p).Nodup
  count : ∀ e ∈ l, e.llCount = refs e.addr + 1
  held : ∀ e ∈ p.held, e.llCount = refs e.addr ∧ 0 < refs e.addr
  free : ∀ a ∈ p.free, refs a = 0

section Lockdec

variable {refs : ℕ → ℕ} {l : List Lock} {p : Pool} {e : Lock}

@[simp] theorem Pool.notify_free (p : Pool) (e : Lock) : (p.notify e).2.free = p.free := by
  obtain ⟨es, h, -⟩ := p.notify_snd e
  rw [h]

@[simp] theorem Pool.notify_held (p : Pool) (e : Lock) : (p.notify e).2.held = p.held := by
  obtain ⟨es, h, -⟩ := p.notify_snd e
  rw [h]

/-- Dropping the reference of the list puts the entry on the free chain or on the held ones. -/
theorem Pool.lockfree_cases (p : Pool) (e : Lock) :
    (e.llCount - 1 = 0 ∧ (p.lockfree e).free = e.addr :: p.free ∧ (p.lockfree e).held = p.held) ∨
    (e.llCount - 1 ≠ 0 ∧ (p.lockfree e).free = p.free ∧ (p.lockfree e).held =
      { e with llCount := e.llCount - 1, iwant := false, nfsWants := false, llIp := none,
               ilbusy := false, owner := .proc 0 } :: p.held) := by
  rw [Pool.lockfree_eq, Pool.lockdec]
  by_cases h : e.llCount - 1 = 0
  · left
    simp [h]
  · right
    simp [h]

end Lockdec

/-- What one edit does to the entries that processes refer to: the addresses are the same, the
counts stay right, and an entry of the list stays there with its owner or is held without one. -/
structure Keep (refs : ℕ → ℕ) (s s' : List Lock × Pool) : Prop where
  perm : (allAddrs s'.1 s'.2).Perm (allAddrs s.1 s.2)
  held : ∀ e ∈ s.2.held, e ∈ s'.2.held
  log : ∀ ev ∈ s.2.log, ev ∈ s'.2.log
  entry : ∀ e ∈ s.1, 0 < refs e.addr →
    (∃ e' ∈ s'.1, e'.addr = e.addr ∧ e'.owner = e.owner ∧
      (e.iwant = true → e'.iwant = true ∨ .wakeup e.addr ∈ s'.2.log)) ∨
    (∃ e' ∈ s'.2.held, e'.addr = e.addr ∧ e'.owner = .proc 0 ∧
      (e.iwant = true → .wakeup e.addr ∈ s'.2.log))

theorem Keep.refl (refs : ℕ → ℕ) (s : List Lock × Pool) : Keep refs s s :=
  ⟨.refl _, fun _ h => h, fun _ h => h, fun e he _ => .inl ⟨e, he, rfl, rfl, .inl⟩⟩

theorem Keep.trans {refs : ℕ → ℕ} {s₁ s₂ s₃ : List Lock × Pool} (h₁ : Keep refs s₁ s₂)
    (h₂ : Keep refs s₂ s₃) : Keep refs s₁ s₃ := by
  refine ⟨h₂.perm.trans h₁.perm, fun e he => h₂.held e (h₁.held e he),
    fun ev hev => h₂.log ev (h₁.log ev hev), fun e he href => ?_⟩
  rcases h₁.entry e he href with ⟨e', he', ha, ho, hw⟩ | ⟨e', he', ha, ho, hw⟩
  · rcases h₂.entry e' he' (ha ▸ href) with ⟨e'', he'', ha', ho', hw'⟩ | ⟨e'', he'', ha', ho', hw'⟩
    · refine .inl ⟨e'', he'', ha'.trans ha, ho'.trans ho, fun h => ?_⟩
      rcases hw h with h | h
      · exact ha ▸ hw' h
      · exact .inr (h₂.log _ h)
    · refine .inr ⟨e'', he'', ha'.trans ha, ho', fun h => ?_⟩
      rcases hw h with h | h
      · exact ha ▸ hw' h
      · exact h₂.log _ h
  · exact .inr ⟨e', h₂.held e' he', ha, ho, fun h => h₂.log _ (hw h)⟩

section Edit

variable {refs : ℕ → ℕ} {r : Req}

theorem Edit.keep {s s' : List Lock × Pool} (h : Edit r s s') (hs : Entries refs s.1 s.2) :
    Keep refs s s' ∧ Entries refs s'.1 s'.2 := by
  have hcount := hs.count
  -- the addresses are permuted, so they stay without duplicates
  have hent : Keep refs s s' → (∀ e ∈ s'.1, e.llCount = refs e.addr + 1) →
      (∀ e ∈ s'.2.held, e.llCount = refs e.addr ∧ 0 < refs e.addr) →
      (∀ a ∈ s'.2.free, refs a = 0) → Keep refs s s' ∧ Entries refs s'.1 s'.2 :=
    fun h h1 h2 h3 => ⟨h, h.perm.nodup_iff.2 hs.nodup, h1, h2, h3⟩
  cases h with
  | link l₁ l₂ p lb ub t hfree =>
    rename_i a fs
    have ha : refs a = 0 := hs.free a (by simp [hfree])
    refine hent ⟨?_, fun _ h => h, fun _ h => h, fun e he _ => ?_⟩ ?_ hs.held fun x hx =>
      hs.free x (by simp only [hfree]; exact mem_cons_of_mem _ hx)
    · rw [perm_iff_count]
      intro x
      simp only [allAddrs, addrs_append, addrs_cons, hfree, freshLock, count_append,
        count_cons]
      omega
    · refine .inl ⟨e, ?_, rfl, rfl, .inl⟩
      simp only [mem_append, mem_cons] at he ⊢
      tauto
    · intro e he
      simp only [mem_append, mem_cons] at he hcount
      rcases he with he | rfl | he
      · exact hcount e (.inl he)
      · simp [freshLock, ha]
      · exact hcount e (.inr he)
  | change l₁ l₂ p e lb ub t hown =>
    refine hent ⟨?_, fun _ h => h, fun _ h => h, fun f hf _ => ?_⟩ ?_ hs.held hs.free
    · simp [allAddrs]
    · simp only [mem_append, mem_cons] at hf
      rcases hf with hf | rfl | hf
      · exact .inl ⟨f, by simp [hf], rfl, rfl, .inl⟩
      · exact .inl ⟨_, mem_append_right _ mem_cons_self, rfl, rfl, .inl⟩
      · exact .inl ⟨f, by simp [hf], rfl, rfl, .inl⟩
    · intro f hf
      simp only [mem_append, mem_cons] at hf hcount
      rcases hf with hf | rfl | hf
      · exact hcount f (.inl hf)
      · exact hcount e (.inr (.inl rfl))
      · exact hcount f (.inr (.inr hf))
  | wake l₁ l₂ p e hown =>
    obtain ⟨es, hes, -, -, hw⟩ := p.notify_snd e
    refine hent ⟨?_, ?_, ?_, fun f hf _ => ?_⟩ ?_ ?_ ?_
    · simp [allAddrs, Pool.notify_fst]
    · simp
    · simp only [hes, mem_append]
      exact fun _ h => .inl h
    · simp only [mem_append, mem_cons] at hf
      rcases hf with hf | rfl | hf
      · exact .inl ⟨f, by simp [hf], rfl, rfl, .inl⟩
      · refine .inl ⟨_, mem_append_right _ mem_cons_self, rfl, rfl, fun h => .inr ?_⟩
        simp only [hes, mem_append]
        exact .inr (hw h)
      · exact .inl ⟨f, by simp [hf], rfl, rfl, .inl⟩
    · intro f hf
      simp only [mem_append, mem_cons] at hf hcount
      rcases hf with hf | rfl | hf
      · exact hcount f (.inl hf)
      · exact hcount e (.inr (.inl rfl))
      · exact hcount f (.inr (.inr hf))
    · simpa using hs.held
    · simpa using hs.free
  | free l₁ l₂ p e hown =>
    have he : e.llCount = refs e.addr + 1 := hcount e (by simp)
    obtain ⟨es, hes, -, -, hw⟩ := p.notify_snd e
    have hlog : (p.lockfree e).log = p.log ++ es := by
      rw [Pool.lockfree_eq, Pool.lockdec_log, hes]
    have hrest : ∀ f ∈ l₁ ++ l₂, f.llCount = refs f.addr + 1 := by
      intro f hf
      exact hcount f (by simp only [mem_append, mem_cons] at hf ⊢; tauto)
    rcases p.lockfree_cases e with ⟨hc, hfree, hheld⟩ | ⟨hc, hfree, hheld⟩
    · refine hent ⟨?_, ?_, ?_, fun f hf href => ?_⟩ hrest ?_ ?_
      · rw [perm_iff_count]
        intro x
        simp only [allAddrs, addrs_append, addrs_cons, hfree, hheld, count_append,
          count_cons]
        omega
      · simp [hheld]
      · simp only [hlog, mem_append]
        exact fun _ h => .inl h
      · refine .inl ⟨f, ?_, rfl, rfl, .inl⟩
        simp only [mem_append, mem_cons] at hf ⊢
        rcases hf with hf | rfl | hf
        · exact .inl hf
        · omega
        · exact .inr hf
      · simpa [hheld] using hs.held
      · simp only [hfree, mem_cons]
        rintro a (rfl | ha)
        · omega
        · exact hs.free a ha
    · refine hent ⟨?_, ?_, ?_, fun f hf href => ?_⟩ hrest ?_ ?_
      · rw [perm_iff_count]
        intro x
        simp only [allAddrs, addrs_append, addrs_cons, hfree, hheld, count_append,
          count_cons]
        omega
      · intro f hf
        simp [hheld, hf]
      · simp only [hlog, mem_append]
        exact fun _ h => .inl h
      · simp only [mem_append, mem_cons] at hf
        rcases hf with hf | rfl | hf
        · exact .inl ⟨f, by simp [hf], rfl, rfl, .inl⟩
        · refine .inr ⟨{ f with
            llCount := f.llCount - 1, iwant := false, nfsWants := false, llIp := none,
            ilbusy := false, owner := .proc 0 }, by simp [hheld], rfl, rfl, fun h => ?_⟩
          simp only [hlog, mem_append]
          exact .inr (hw h)
        · exact .inl ⟨f, by simp [hf], rfl, rfl, .inl⟩
      · simp only [hheld, mem_cons]
        rintro f (rfl | hf)
        · simp only
          omega
        · exact hs.held f hf
      · simpa [hfree] using hs.free
  | error l p err pre =>
    exact hent ⟨.refl _, fun _ h => h, fun _ h => h, fun f hf _ => .inl ⟨f, hf, rfl, rfl, .inl⟩⟩
      hs.count hs.held hs.free

theorem Edits.keep {s s' : List Lock × Pool} (h : Edits r s s') (hs : Entries refs s.1 s.2) :
    Keep refs s s' ∧ Entries refs s'.1 s'.2 := by
  induction h with
  | refl => exact ⟨.refl refs _, hs⟩
  | tail _ hst ih =>
    obtain ⟨hk, he⟩ := ih
    obtain ⟨hk', he'⟩ := hst.keep he
    exact ⟨hk.trans hk', he'⟩

end Edit

/-! ### The invariant of the system -/

/-- `p_dlchan`. -/
def ProcState.chan (st : ProcState) : Option ℕ := st.at.map Prod.fst

@[simp] theorem chan_idle : ProcState.idle.chan = none := rfl
@[simp] theorem chan_hunt (a : ℕ) (w : Want) : (ProcState.hunt a w).chan = some a := rfl
@[simp] theorem chan_asleep (a : ℕ) (w : Want) : (ProcState.asleep a w).chan = some a := rfl
@[simp] theorem chan_ready (a : ℕ) (w : Want) (intr : Bool) :
    (ProcState.ready a w intr).chan = some a := rfl

/-- How many of the first `n` processes refer to the entry `a`. -/
def Sys.refs (s : Sys) (n a : ℕ) : ℕ :=
  ((Finset.range n).filter fun q => (s.proc q).chan = some a).card

/-- The invariant of the system of `n` processes. -/
structure Sys.Refs (n : ℕ) (s : Sys) : Prop where
  /-- The lists are ordered as `insert_lock` and `delete_lock` need it. -/
  listOk : ∀ i, ListOk (s.lists i)
  /-- Reference counts are right. -/
  entries : ∀ i, Entries (s.refs n) (s.lists i) s.pool
  /-- No entry is on two lists. -/
  apart : ∀ i j, i ≠ j → ∀ a ∈ addrs (s.lists i), a ∉ addrs (s.lists j)
  /-- Only the first `n` processes do anything, and for themselves. -/
  proc : ∀ q a w, (s.proc q).at = some (a, w) → q < n ∧ w.r.u.uProcp = q ∧ w.r.lb < w.r.ub
  /-- The entry a process refers to is on the list of its inode or on none. -/
  chan : ∀ q a w, (s.proc q).at = some (a, w) →
    a ∈ addrs (s.lists w.r.ip) ∨ a ∈ addrs s.pool.held
  /-- Whoever sleeps on an entry sleeps on a listed one, and its wakeup is pending. -/
  asleep : ∀ q a w, s.proc q = .asleep a w →
    ∃ e ∈ s.lists w.r.ip, e.addr = a ∧ e.iwant = true
  /-- All wakeups are delivered. -/
  log : s.pool.log = []

section Sys

variable {n : ℕ} {s : Sys}

@[simp] theorem wake_at (log : List Event) (st : ProcState) : (st.wake log).at = st.at := by
  unfold ProcState.wake
  split
  · split_ifs <;> rfl
  · rfl

@[simp] theorem wake_chan (log : List Event) (st : ProcState) : (st.wake log).chan = st.chan := by
  rw [ProcState.chan, wake_at, ProcState.chan]

variable {w : Want}

theorem wake_eq_asleep {log : List Event} {st : ProcState} {a : ℕ}
    (h : st.wake log = .asleep a w) : st = .asleep a w ∧ .wakeup a ∉ log := by
  cases st with
  | asleep b w' =>
    simp only [ProcState.wake] at h
    split_ifs at h with hb
    cases h
    exact ⟨rfl, hb⟩
  | idle => cases h
  | hunt => cases h
  | ready => cases h

variable {t : Sys}

theorem refs_congr (h : ∀ q, (t.proc q).chan = (s.proc q).chan) : t.refs n = s.refs n := by
  funext a
  simp only [Sys.refs, h]

theorem refs_pos {q a : ℕ} (hq : q < n) (h : (s.proc q).chan = some a) : 0 < s.refs n a :=
  Finset.card_pos.2 ⟨q, Finset.mem_filter.2 ⟨Finset.mem_range.2 hq, h⟩⟩

theorem chan_of_at {st : ProcState} {a : ℕ} (h : st.at = some (a, w)) : st.chan = some a := by
  rw [ProcState.chan, h]
  rfl

/-- The addresses of another list are not touched by edits of `l`. -/
theorem Entries.other {refs : ℕ → ℕ} {l l' m : List Lock} {p p' : Pool} (hm : Entries refs m p)
    (hl' : Entries refs l' p') (hperm : (allAddrs l' p').Perm (allAddrs l p))
    (hap : ∀ a ∈ addrs m, a ∉ addrs l) : Entries refs m p' ∧ ∀ a ∈ addrs m, a ∉ addrs l' := by
  have hout : ∀ a ∈ addrs m, a ∉ allAddrs l' p' := by
    intro a ha ha'
    rcases mem_append.1 (hperm.subset ha') with h | h
    · exact hap a ha h
    · exact (nodup_append.1 hm.nodup).2.2 a ha a h rfl
  refine ⟨⟨?_, hm.count, hl'.held, hl'.free⟩, fun a ha ha' =>
    hout a ha (mem_append_left _ ha')⟩
  refine nodup_append.2 ⟨(nodup_append.1 hm.nodup).1,
    (nodup_append.1 hl'.nodup).2.1, ?_⟩
  rintro a ha b hb rfl
  exact hout a ha (mem_append_right _ hb)

/-- A list routine run by an idle process keeps the invariant. -/
theorem Sys.Refs.commit (h : s.Refs n) {r : Req} {ip : ℕ} {res : List Lock × Pool}
    (hed : Edits r (s.lists ip, s.fresh) res) (hok : ListOk res.1) : (s.commit ip res).Refs n := by
  have hrefs : (s.commit ip res).refs n = s.refs n := refs_congr fun q => wake_chan _ _
  have hent := h.entries ip
  obtain ⟨hk, he⟩ := hed.keep
    (show Entries (s.refs n) (s.lists ip) s.fresh from
      ⟨hent.nodup, hent.count, hent.held, hent.free⟩)
  have hother : ∀ j, j ≠ ip → Entries (s.refs n) (s.lists j) res.2 ∧
      ∀ a ∈ addrs (s.lists j), a ∉ addrs res.1 := fun j hj =>
    (h.entries j).other he hk.perm (h.apart j ip hj)
  refine ⟨fun i => ?_, fun i => ?_, fun i j hij a ha => ?_, fun q a w hq => ?_, fun q a w hq => ?_,
    fun q a w hq => ?_, rfl⟩
  · by_cases hi : i = ip
    · subst hi
      simpa [Sys.commit] using hok
    · simpa [Sys.commit, hi] using h.listOk i
  · rw [hrefs]
    by_cases hi : i = ip
    · subst hi
      simp only [Sys.commit, update_self]
      exact ⟨he.nodup, he.count, he.held, he.free⟩
    · have := (hother i hi).1
      simp only [Sys.commit, update_of_ne hi]
      exact ⟨this.nodup, this.count, this.held, this.free⟩
  · by_cases hi : i = ip
    · subst hi
      simp only [Sys.commit, update_self, update_of_ne (Ne.symm hij)] at ha ⊢
      exact fun ha' => (hother j (Ne.symm hij)).2 a ha' ha
    · by_cases hj : j = ip
      · subst hj
        simp only [Sys.commit, update_self, update_of_ne hi] at ha ⊢
        exact (hother i hi).2 a ha
      · simp only [Sys.commit, update_of_ne hi, update_of_ne hj] at ha ⊢
        exact h.apart i j hij a ha
  · exact h.proc q a w (by simpa [Sys.commit] using hq)
  · have hat : (s.proc q).at = some (a, w) := by simpa [Sys.commit] using hq
    have hheld : a ∈ addrs s.pool.held → a ∈ addrs res.2.held := by
      intro ha
      obtain ⟨f, hf, rfl⟩ := mem_addrs.1 ha
      exact mem_addrs.2 ⟨f, hk.held f hf, rfl⟩
    rcases h.chan q a w hat with ha | ha
    · by_cases hi : w.r.ip = ip
      · subst hi
        simp only [Sys.commit, update_self]
        obtain ⟨f, hf, rfl⟩ := mem_addrs.1 ha
        rcases hk.entry f hf (refs_pos (h.proc q _ w hat).1 (chan_of_at hat)) with
          ⟨e', he', ha', -⟩ | ⟨e', he', ha', -⟩
        · exact .inl (mem_addrs.2 ⟨e', he', ha'⟩)
        · exact .inr (mem_addrs.2 ⟨e', he', ha'⟩)
      · simp only [Sys.commit, update_of_ne hi]
        exact .inl ha
    · exact .inr (hheld ha)
  · obtain ⟨hq, hw⟩ := wake_eq_asleep hq
    obtain ⟨e, hel, rfl, hiw⟩ := h.asleep q a w hq
    have hat : (s.proc q).at = some (e.addr, w) := by rw [hq]; rfl
    by_cases hi : w.r.ip = ip
    · subst hi
      simp only [Sys.commit, update_self]
      rcases hk.entry e hel (refs_pos (h.proc q _ w hat).1 (chan_of_at hat)) with
        ⟨e', he', ha', -, hiw'⟩ | ⟨e', he', ha', -, hiw'⟩
      · exact ⟨e', he', ha', (hiw' hiw).resolve_right hw⟩
      · exact absurd (hiw' hiw) hw
    · simp only [Sys.commit, update_of_ne hi]
      exact ⟨e, hel, rfl, hiw⟩

/-! ### Counting references -/

variable {p : ℕ}

/-- How the counts change with the state of one process. -/
theorem refs_setProc (hp : p < n) (st : ProcState) (a : ℕ) :
    (s.setProc p st).refs n a + (if (s.proc p).chan = some a then 1 else 0) =
      s.refs n a + (if st.chan = some a then 1 else 0) := by
  have hmem : p ∈ Finset.range n := Finset.mem_range.2 hp
  have hrest : ∑ q ∈ (Finset.range n).erase p,
        (if ((s.setProc p st).proc q).chan = some a then 1 else 0) =
      ∑ q ∈ (Finset.range n).erase p, (if (s.proc q).chan = some a then 1 else 0) := by
    refine Finset.sum_congr rfl fun q hq => ?_
    simp only [Sys.setProc, update_of_ne (Finset.ne_of_mem_erase hq)]
  have hself : ((s.setProc p st).proc p) = st := update_self ..
  simp only [Sys.refs, Finset.card_filter]
  rw [← Finset.sum_erase_add _ _ hmem, ← Finset.sum_erase_add _ _ hmem, hrest, hself]
  omega

/-- The entries differ at most in their counts and flags. -/
structure SameLock (e f : Lock) : Prop where
  addr : f.addr = e.addr
  owner : f.owner = e.owner
  start : f.llStart = e.llStart
  fin : f.llEnd = e.llEnd
  type : f.llType = e.llType

variable {f : Lock → Lock}

theorem addrs_map (hf : ∀ e, SameLock e (f e)) (l : List Lock) : addrs (l.map f) = addrs l := by
  simp only [addrs, map_map]
  exact map_congr_left fun e _ => (hf e).addr

theorem ListOk.map {l : List Lock} (hok : ListOk l)
    (hf : ∀ e, SameLock e (f e)) : ListOk (l.map f) := by
  refine Grouped.map hok (fun e => (hf e).owner) fun l hl => ⟨?_, ?_⟩
  · intro e he
    obtain ⟨g, hg, rfl⟩ := mem_map.1 he
    have := hl.1 g hg
    simpa [(hf g).start, (hf g).fin] using this
  · refine pairwise_map.2 (hl.2.imp fun {e g} h => ?_)
    simpa [(hf e).fin, (hf g).start] using h

/-- Steps that change only counts and flags on one list, and states of processes. -/
theorem Sys.Refs.of_map (h : s.Refs n) (ip : ℕ) (hf : ∀ e, SameLock e (f e))
    (hl : t.lists = Function.update s.lists ip ((s.lists ip).map f)) (hpool : t.pool = s.pool)
    (hiw : ∀ e, e.iwant = true → (f e).iwant = true)
    (hcnt : ∀ e ∈ s.lists ip, (f e).llCount = t.refs n e.addr + 1)
    (hsame : ∀ b, b ∉ addrs (s.lists ip) → t.refs n b = s.refs n b)
    (hproc : ∀ q a w, (t.proc q).at = some (a, w) → (s.proc q).at = some (a, w) ∨
      (q < n ∧ w.r.u.uProcp = q ∧ w.r.lb < w.r.ub ∧ a ∈ addrs (s.lists w.r.ip)))
    (hasleep : ∀ q a w, t.proc q = .asleep a w → s.proc q = .asleep a w ∨
      (w.r.ip = ip ∧ ∃ e ∈ s.lists ip, e.addr = a ∧ (f e).iwant = true)) : t.Refs n := by
  have haddr : ∀ i, addrs (t.lists i) = addrs (s.lists i) := by
    intro i
    rw [hl]
    by_cases hi : i = ip
    · subst hi
      rw [update_self, addrs_map hf]
    · rw [update_of_ne hi]
  -- an address of the pool is on no list
  have hpoolAddr : ∀ b, b ∈ s.pool.free ++ addrs s.pool.held → b ∉ addrs (s.lists ip) :=
    fun b hb hb' => (nodup_append.1 (h.entries ip).nodup).2.2 b hb' b hb rfl
  refine ⟨fun i => ?_, fun i => ⟨?_, ?_, ?_, ?_⟩, fun i j hij a ha => ?_, fun q a w hq => ?_,
    fun q a w hq => ?_, fun q a w hq => ?_, by rw [hpool, h.log]⟩
  · rw [hl]
    by_cases hi : i = ip
    · subst hi
      rw [update_self]
      exact (h.listOk i).map hf
    · rw [update_of_ne hi]
      exact h.listOk i
  · have := (h.entries i).nodup
    rwa [allAddrs, haddr, hpool]
  · intro e he
    rw [hl] at he
    by_cases hi : i = ip
    · subst hi
      rw [update_self] at he
      obtain ⟨g, hg, rfl⟩ := mem_map.1 he
      rw [hcnt g hg, (hf g).addr]
    · rw [update_of_ne hi] at he
      rw [(h.entries i).count e he, hsame]
      exact h.apart i ip hi _ (mem_addrs.2 ⟨e, he, rfl⟩)
  · intro e he
    rw [hpool] at he
    rw [hsame _ (hpoolAddr _ (mem_append_right _ (mem_addrs.2 ⟨e, he, rfl⟩)))]
    exact (h.entries ip).held e he
  · intro b hb
    rw [hpool] at hb
    rw [hsame b (hpoolAddr b (mem_append_left _ hb))]
    exact (h.entries ip).free b hb
  · rw [haddr] at ha ⊢
    exact h.apart i j hij a ha
  · rcases hproc q a w hq with hq | ⟨hq, hu, hr, -⟩
    · exact h.proc q a w hq
    · exact ⟨hq, hu, hr⟩
  · rw [haddr, hpool]
    rcases hproc q a w hq with hq | ⟨-, -, -, ha⟩
    · exact h.chan q a w hq
    · exact .inl ha
  · rw [hl]
    rcases hasleep q a w hq with hq | ⟨rfl, e, he, rfl, hw⟩
    · obtain ⟨e, he, rfl, hw⟩ := h.asleep q a w hq
      by_cases hi : w.r.ip = ip
      · subst hi
        rw [update_self]
        exact ⟨f e, mem_map_of_mem he, (hf e).addr, hiw e hw⟩
      · rw [update_of_ne hi]
        exact ⟨e, he, rfl, hw⟩
    · rw [update_self]
      exact ⟨f e, mem_map_of_mem he, (hf e).addr, hw⟩

theorem setProc_of_ne {p q : ℕ} (hq : q ≠ p) (st : ProcState) : (s.setProc p st).proc q = s.proc q :=
  update_of_ne hq ..

@[simp] theorem setProc_self (p : ℕ) (st : ProcState) : (s.setProc p st).proc p = st :=
  update_self ..

theorem setProc_cases {p q : ℕ} {st st' : ProcState} (h : (s.setProc p st).proc q = st') :
    (q = p ∧ st = st') ∨ (q ≠ p ∧ s.proc q = st') := by
  by_cases hq : q = p
  · subst hq
    exact .inl ⟨rfl, by simpa using h⟩
  · exact .inr ⟨hq, by rwa [setProc_of_ne hq] at h⟩

/-- The scan found a lock to wait for. -/
theorem Sys.Refs.hunt (h : s.Refs n) (hp : p < n) (hidle : s.proc p = .idle)
    (hu : w.r.u.uProcp = p) (hr : w.r.lb < w.r.ub) {a : ℕ} (ha : a ∈ addrs (s.lists w.r.ip)) :
    ((s.lockinc w.r.ip a).setProc p (.hunt a w)).Refs n := by
  have hcount : ∀ b, ((s.lockinc w.r.ip a).setProc p (.hunt a w)).refs n b =
      s.refs n b + if a = b then 1 else 0 := by
    intro b
    have h0 := refs_setProc (s := s.lockinc w.r.ip a) hp (.hunt a w) b
    have h1 : (s.lockinc w.r.ip a).refs n b = s.refs n b := rfl
    have h2 : ((s.lockinc w.r.ip a).proc p).chan = none := by
      show (s.proc p).chan = none
      rw [hidle]
      rfl
    simpa [h2, h1] using h0
  refine h.of_map w.r.ip (f := fun e => if e.addr = a then { e with llCount := e.llCount + 1 } else e)
    (fun e => ?_) rfl rfl (fun e he => ?_) (fun e he => ?_) (fun b hb => ?_) (fun q b v hq => ?_)
    (fun q b v hq => ?_)
  · split_ifs <;> exact ⟨rfl, rfl, rfl, rfl, rfl⟩
  · split_ifs <;> exact he
  · have := (h.entries w.r.ip).count e he
    rw [hcount]
    split_ifs with h1 h2 h2
    · simp only; omega
    · exact absurd h1.symm h2
    · exact absurd h2.symm h1
    · exact this
  · rw [hcount, if_neg fun hab : a = b => hb (hab ▸ ha), Nat.add_zero]
  · by_cases hq' : q = p
    · subst hq'
      rw [setProc_self] at hq
      simp only [ProcState.at, Option.some.injEq, Prod.mk.injEq] at hq
      obtain ⟨rfl, rfl⟩ := hq
      exact .inr ⟨hp, hu, hr, ha⟩
    · rw [setProc_of_ne hq'] at hq
      exact .inl hq
  · rcases setProc_cases hq with ⟨-, hst⟩ | ⟨-, hst⟩
    · cases hst
    · exact .inl hst

/-- Dropping a reference to a listed entry leaves it listed. -/
theorem lockdec_linked (h : s.Refs n) {ip a : ℕ} (hpos : 0 < s.refs n a) (ha : a ∈ addrs (s.lists ip)) :
    s.lockdec ip a = { s with lists := Function.update s.lists ip ((s.lists ip).map fun e =>
      if e.addr = a then { e with llCount := e.llCount - 1 } else e) } := by
  obtain ⟨f, hf, rfl⟩ := mem_addrs.1 ha
  have hsome : ((s.lists ip).find? fun e => e.addr = f.addr).isSome :=
    find?_isSome.2 ⟨f, hf, by simp⟩
  obtain ⟨e, he⟩ := Option.isSome_iff_exists.1 hsome
  have hea : e.addr = f.addr := by simpa using find?_some he
  have hc := (h.entries ip).count e (mem_of_find?_eq_some he)
  rw [hea] at hc
  simp only [Sys.lockdec, he]
  rw [if_neg (by omega)]

/-- Dropping a reference to an entry that is on no list. -/
theorem lockdec_held {ip a : ℕ} (ha : a ∉ addrs (s.lists ip)) (hh : a ∈ addrs s.pool.held) :
    ∃ e ∈ s.pool.held, e.addr = a ∧ s.lockdec ip a = { s with pool := ({ s.pool with
      held := s.pool.held.filter fun e => e.addr ≠ a } : Pool).lockdec e } := by
  obtain ⟨f, hf, rfl⟩ := mem_addrs.1 hh
  have hnone : ((s.lists ip).find? fun e => e.addr = f.addr) = none :=
    find?_eq_none.2 fun e he => by simpa using fun hea => ha (mem_addrs.2 ⟨e, he, hea⟩)
  have hsome : (s.pool.held.find? fun e => e.addr = f.addr).isSome :=
    find?_isSome.2 ⟨f, hf, by simp⟩
  obtain ⟨e, he⟩ := Option.isSome_iff_exists.1 hsome
  refine ⟨e, mem_of_find?_eq_some he, by simpa using find?_some he, ?_⟩
  simp only [Sys.lockdec, hnone, he]

theorem perm_addrs_filter {l : List Lock} (h : (addrs l).Nodup) {a : ℕ} (ha : a ∈ addrs l) :
    (a :: addrs (l.filter fun e => e.addr ≠ a)).Perm (addrs l) := by
  have hnot : a ∉ addrs (l.filter fun e => e.addr ≠ a) := by
    intro h'
    obtain ⟨e, he, hea⟩ := mem_addrs.1 h'
    simpa [hea] using (mem_filter.1 he).2
  have hsub : (addrs (l.filter fun e => e.addr ≠ a)).Nodup := h.sublist (filter_sublist.map _)
  refine (perm_ext_iff_of_nodup (nodup_cons.2 ⟨hnot, hsub⟩) h).2 fun b => ?_
  rw [mem_cons, mem_addrs, mem_addrs]
  constructor
  · rintro (rfl | ⟨e, he, rfl⟩)
    · exact mem_addrs.1 ha
    · exact ⟨e, (mem_filter.1 he).1, rfl⟩
  · rintro ⟨e, he, rfl⟩
    by_cases hea : e.addr = a
    · exact .inl hea
    · exact .inr ⟨e, mem_filter.2 ⟨he, by simpa using hea⟩, rfl⟩

/-- A process gives up its reference. -/
theorem Sys.Refs.drop (h : s.Refs n) {p a : ℕ} {w : Want} (hat : (s.proc p).at = some (a, w)) :
    ((s.lockdec w.r.ip a).setProc p .idle).Refs n := by
  obtain ⟨hp, -, -⟩ := h.proc p a w hat
  have hchan : (s.proc p).chan = some a := chan_of_at hat
  have hpos : 0 < s.refs n a := refs_pos hp hchan
  have hproc : (s.lockdec w.r.ip a).proc = s.proc := by
    unfold Sys.lockdec
    split
    · rfl
    · split <;> rfl
  have hcount : ∀ b, ((s.lockdec w.r.ip a).setProc p .idle).refs n b + (if a = b then 1 else 0) =
      s.refs n b := by
    intro b
    have h0 := refs_setProc (s := s.lockdec w.r.ip a) hp .idle b
    have h1 : (s.lockdec w.r.ip a).refs n = s.refs n := refs_congr fun q => by rw [hproc]
    simpa [h1, hproc, hchan] using h0
  have hstate : ∀ q st, ((s.lockdec w.r.ip a).setProc p .idle).proc q = st → st ≠ .idle →
      s.proc q = st := by
    intro q st hq hst
    rcases setProc_cases hq with ⟨-, hq⟩ | ⟨-, hq⟩
    · exact absurd hq.symm hst
    · rwa [hproc] at hq
  have hat' : ∀ q b v, (((s.lockdec w.r.ip a).setProc p .idle).proc q).at = some (b, v) →
      (s.proc q).at = some (b, v) := by
    intro q b v hq
    rw [hstate q _ rfl]
    · exact hq
    · intro he
      rw [he] at hq
      cases hq
  by_cases ha : a ∈ addrs (s.lists w.r.ip)
  · have hdec := lockdec_linked h hpos ha
    refine h.of_map w.r.ip
      (f := fun e => if e.addr = a then { e with llCount := e.llCount - 1 } else e)
      (fun e => ?_) (by rw [hdec]; rfl) (by rw [hdec]; rfl) (fun e he => ?_) (fun e he => ?_)
      (fun b hb => ?_) (fun q b v hq => ?_) (fun q b v hq => ?_)
    · split_ifs <;> exact ⟨rfl, rfl, rfl, rfl, rfl⟩
    · split_ifs <;> exact he
    · have hc := (h.entries w.r.ip).count e he
      have hb := hcount e.addr
      split_ifs with hea
      · rw [if_pos hea.symm] at hb
        simp only; omega
      · rw [if_neg (Ne.symm hea)] at hb
        omega
    · have := hcount b
      rw [if_neg fun hab : a = b => hb (hab ▸ ha)] at this
      omega
    · exact .inl (hat' q b v hq)
    · exact .inl (hstate q _ hq (by simp))
  · obtain ⟨e, he, rfl, hdec⟩ := lockdec_held ha ((h.chan p a w hat).resolve_left ha)
    have hlists : ((s.lockdec w.r.ip e.addr).setProc p .idle).lists = s.lists := by rw [hdec]; rfl
    have hpool : ((s.lockdec w.r.ip e.addr).setProc p .idle).pool = ({ s.pool with
        held := s.pool.held.filter fun f => f.addr ≠ e.addr } : Pool).lockdec e := by rw [hdec]; rfl
    obtain ⟨hc, -⟩ := (h.entries w.r.ip).held e he
    have hself := hcount e.addr
    rw [if_pos rfl] at hself
    have hother : ∀ b, b ≠ e.addr →
        ((s.lockdec w.r.ip e.addr).setProc p .idle).refs n b = s.refs n b := by
      intro b hb
      have := hcount b
      rw [if_neg (Ne.symm hb)] at this
      omega
    have hnd := (nodup_append.1 (nodup_append.1 (h.entries w.r.ip).nodup).2.1)
    have hheld := perm_addrs_filter hnd.2.1 (mem_addrs.2 ⟨e, he, rfl⟩)
    -- the entry is on no list and not on the free chain
    have hlinked : ∀ i, ∀ f ∈ s.lists i, f.addr ≠ e.addr := by
      intro i f hf hfe
      exact (nodup_append.1 (h.entries i).nodup).2.2 f.addr (mem_addrs.2 ⟨f, hf, rfl⟩) f.addr
        (mem_append_right _ (mem_addrs.2 ⟨e, he, hfe.symm⟩)) rfl
    have hfree : e.addr ∉ s.pool.free := fun hf =>
      hnd.2.2 _ hf _ (mem_addrs.2 ⟨e, he, rfl⟩) rfl
    have hent : ∀ i, Entries (((s.lockdec w.r.ip e.addr).setProc p .idle).refs n) (s.lists i)
        (({ s.pool with held := s.pool.held.filter fun f => f.addr ≠ e.addr } : Pool).lockdec e) := by
      intro i
      have hperm : (allAddrs (s.lists i) (({ s.pool with
          held := s.pool.held.filter fun f => f.addr ≠ e.addr } : Pool).lockdec e)).Perm
          (allAddrs (s.lists i) s.pool) := by
        refine List.Perm.append_left _ ?_
        unfold Pool.lockdec
        split_ifs
        · exact perm_middle.symm.trans (List.Perm.append_left _ hheld)
        · exact List.Perm.append_left _ hheld
      refine ⟨hperm.nodup_iff.2 (h.entries i).nodup, ?_, ?_, ?_⟩
      · intro f hf
        rw [hother _ (hlinked i f hf)]
        exact (h.entries i).count f hf
      · have hold : ∀ f ∈ s.pool.held.filter fun f => f.addr ≠ e.addr,
            f.llCount = ((s.lockdec w.r.ip e.addr).setProc p .idle).refs n f.addr ∧
            0 < ((s.lockdec w.r.ip e.addr).setProc p .idle).refs n f.addr := by
          intro f hf
          obtain ⟨hf, hne⟩ := mem_filter.1 hf
          rw [hother _ (by simpa using hne)]
          exact (h.entries i).held f hf
        intro f hf
        unfold Pool.lockdec at hf
        split_ifs at hf with hz
        · exact hold f hf
        · rcases mem_cons.1 hf with rfl | hf
          · simp only
            omega
          · exact hold f hf
      · intro b hb
        unfold Pool.lockdec at hb
        split_ifs at hb with hz
        · rcases mem_cons.1 hb with rfl | hb
          · omega
          · rw [hother b fun hbe => hfree (hbe ▸ hb)]
            exact (h.entries i).free b hb
        · rw [hother b fun hbe => hfree (hbe ▸ hb)]
          exact (h.entries i).free b hb
    refine ⟨fun i => ?_, fun i => ?_, fun i j hij b hb => ?_, fun q b v hq => ?_,
      fun q b v hq => ?_, fun q b v hq => ?_, ?_⟩
    · rw [hlists]
      exact h.listOk i
    · rw [hlists, hpool]
      exact hent i
    · rw [hlists] at hb ⊢
      exact h.apart i j hij b hb
    · exact h.proc q b v (hat' q b v hq)
    · rw [hlists, hpool]
      have hq' := hat' q b v hq
      refine (h.chan q b v hq').imp id fun hb => ?_
      -- somebody still refers to `b`, so it is not the entry that went
      have hbpos : 0 < ((s.lockdec w.r.ip e.addr).setProc p .idle).refs n b :=
        refs_pos (h.proc q b v hq').1 (chan_of_at hq)
      unfold Pool.lockdec
      split_ifs with hz
      · rcases mem_cons.1 (hheld.symm.subset hb) with rfl | hb
        · omega
        · exact hb
      · exact hheld.symm.subset hb
    · rw [hlists]
      exact h.asleep q b v (hstate q _ hq (by simp))
    · rw [hpool, Pool.lockdec_log]
      exact h.log

theorem want_same (w : Want) (a : ℕ) (e : Lock) : SameLock e (if e.addr = a then
    if w.m.flag = .setlkNfscallback then { e with nfsWants := true } else { e with iwant := true }
    else e) := by
  split_ifs <;> exact ⟨rfl, rfl, rfl, rfl, rfl⟩

theorem Sys.Refs.want (h : s.Refs n) (ip a : ℕ) (w : Want) : (s.want ip a w).Refs n := by
  refine h.of_map _ (want_same w a) rfl rfl (fun e he => ?_) (fun e he => ?_) (fun _ _ => rfl)
    (fun q b v hq => .inl hq) (fun q b v hq => .inl hq)
  · split_ifs <;> first | rfl | exact he
  · have := (h.entries ip).count e he
    split_ifs <;> exact this

/-- A process whose hunt found no deadlock goes to sleep. -/
theorem Sys.Refs.sleep (h : s.Refs n) {p a : ℕ} (hp : s.proc p = .hunt a w)
    (hflag : w.m.flag ≠ .setlkNfscallback) (ha : a ∈ addrs (s.lists w.r.ip)) :
    ((s.want w.r.ip a w).setProc p (.asleep a w)).Refs n := by
  have hrefs : ((s.want w.r.ip a w).setProc p (.asleep a w)).refs n = s.refs n := by
    refine refs_congr fun q => ?_
    by_cases hq : q = p
    · subst hq
      rw [setProc_self, hp]
      rfl
    · rw [setProc_of_ne hq]
      rfl
  refine h.of_map _ (want_same w a) rfl rfl (fun e he => ?_) (fun e he => ?_)
    (fun b _ => by rw [hrefs]) (fun q b v hq => ?_) (fun q b v hq => ?_)
  · split_ifs <;> first | rfl | exact he
  · have := (h.entries w.r.ip).count e he
    rw [hrefs]
    split_ifs <;> exact this
  · by_cases hq' : q = p
    · subst hq'
      rw [setProc_self] at hq
      rw [hp]
      exact .inl hq
    · rw [setProc_of_ne hq'] at hq
      exact .inl hq
  · rcases setProc_cases hq with ⟨rfl, hst⟩ | ⟨-, hst⟩
    · obtain ⟨rfl, rfl⟩ := ProcState.asleep.inj hst
      obtain ⟨e, he, rfl⟩ := mem_addrs.1 ha
      exact .inr ⟨rfl, e, he, rfl, by rw [if_pos rfl, if_neg hflag]⟩
    · exact .inl hst

/-- A signal. -/
theorem Sys.Refs.signal (h : s.Refs n) {p a : ℕ} (hp : s.proc p = .asleep a w) :
    (s.setProc p (.ready a w true)).Refs n := by
  have hrefs : (s.setProc p (.ready a w true)).refs n = s.refs n := by
    refine refs_congr fun q => ?_
    by_cases hq : q = p
    · subst hq
      rw [setProc_self, hp]
      rfl
    · rw [setProc_of_ne hq]
  have hat : ∀ q, ((s.setProc p (.ready a w true)).proc q).at = (s.proc q).at := by
    intro q
    by_cases hq : q = p
    · subst hq
      rw [setProc_self, hp]
      rfl
    · rw [setProc_of_ne hq]
  refine h.of_map 0 (f := id) (fun e => ⟨rfl, rfl, rfl, rfl, rfl⟩) ?_ rfl (fun _ he => he)
    (fun e he => ?_) (fun b _ => by rw [hrefs]) (fun q b v hq => ?_) (fun q b v hq => ?_)
  · rw [map_id, update_eq_self]
    rfl
  · rw [hrefs]
    exact (h.entries 0).count e he
  · rw [hat] at hq
    exact .inl hq
  · rcases setProc_cases hq with ⟨-, hst⟩ | ⟨-, hst⟩
    · cases hst
    · exact .inl hst

theorem setProc_idle (h : s.proc p = .idle) : s.setProc p .idle = s := by
  have : Function.update s.proc p .idle = s.proc := by rw [← h, update_eq_self]
  rw [Sys.setProc, this]

theorem scan_setProc (s : Sys) (p : ℕ) (st : ProcState) (w : Want) :
    (s.setProc p st).scan p w = s.scan p w := by
  have hup : ∀ st', Function.update (Function.update s.proc p st) p st' =
      Function.update s.proc p st' := fun st' => update_idem ..
  simp only [Sys.scan, Sys.setProc, Sys.fresh, Sys.lockinc, hup]

theorem lockedScan_cons (r : Req) (m : Mode) (e : Lock) (l : List Lock) : lockedScan r m (e :: l) =
      if lockedScan r m [e] = .clear then lockedScan r m l else lockedScan r m [e] := by
  simp only [lockedScan]
  split_ifs <;> first | rfl | contradiction

theorem lockedScan_one {r : Req} {m : Mode} {e f : Lock} (h : lockedScan r m [e] = .block f) :
    f = e := by
  simp only [lockedScan] at h
  split_ifs at h <;> cases h <;> rfl

theorem blockedBy_of_lockedScan {l : List Lock} {e : Lock}
    (h : lockedScan w.r w.m l = .block e) : e ∈ l ∧ w.blockedBy e := by
  induction l with
  | nil => cases h
  | cons f l ih =>
    rw [lockedScan_cons] at h
    split_ifs at h with hf
    · exact ⟨mem_cons_of_mem _ (ih h).1, (ih h).2⟩
    · obtain rfl := lockedScan_one h
      exact ⟨mem_cons_self, h⟩

theorem commit_note (s : Sys) (ip : ℕ) (l : List Lock) (p : Pool) :
    s.commit ip (l, p.note .checksync) = s.commit ip (l, p) := by
  have hwake : ∀ st : ProcState, st.wake (p.note .checksync).log = st.wake p.log := by
    intro st
    cases st <;> simp [ProcState.wake, Pool.note]
  simp only [Sys.commit, hwake]
  rfl

/-- What a scan can do: nothing, insert a lock, or find a lock to wait for. -/
theorem scan_cases (h : s.Refs n) (hidle : s.proc p = .idle)
    (hr : w.r.lb < w.r.ub) (ht : s.scan p w = some t) : t = s ∨
    (lockedScan w.r w.m (s.lists w.r.ip) = .clear ∧ w.inserts = true ∧
      ∃ A M M' B p', s.lists w.r.ip = A ++ M ++ B ∧ (∀ f ∈ A ++ B, f.owner ≠ w.r.u.owner) ∧
        (∀ f ∈ M, f.owner = w.r.u.owner) ∧ Inserted w.r M M' s.fresh p' ∧
        ListOk (A ++ M' ++ B) ∧ t = s.commit w.r.ip (A ++ M' ++ B, p')) ∨
    ∃ e ∈ s.lists w.r.ip, w.blockedBy e ∧ t = (s.lockinc w.r.ip e.addr).setProc p (.hunt e.addr w) := by
  unfold Sys.scan at ht
  rw [setProc_idle hidle] at ht
  cases hscan : lockedScan w.r w.m (s.lists w.r.ip) with
  | clear =>
    simp only [hscan] at ht
    split_ifs at ht with hins
    · obtain ⟨A, M, M', B, p', p'', hl, hAB, hM, heq, hed, hnote, hok⟩ :=
        insertLock_spec hr (h.listOk w.r.ip) s.fresh
      simp only [heq, Option.some.injEq] at ht
      refine .inr (.inl ⟨rfl, hins, A, M, M', B, p', hl, hAB, hM, hed, hok, ?_⟩)
      rcases hnote with rfl | rfl
      · exact ht.symm
      · rw [← ht, commit_note]
    · exact .inl (Option.some.inj ht).symm
  | fail err =>
    simp only [hscan, Option.some.injEq] at ht
    exact .inl ht.symm
  | getlk e =>
    simp only [hscan, Option.some.injEq] at ht
    exact .inl ht.symm
  | block e =>
    simp only [hscan, Option.some.injEq] at ht
    obtain ⟨he, hb⟩ := blockedBy_of_lockedScan hscan
    exact .inr (.inr ⟨e, he, hb, ht.symm⟩)

theorem edits_of_inserted {r : Req} {l A M M' B : List Lock} {p p' : Pool}
    (hl : l = A ++ M ++ B) (h : Inserted r M M' p p') : Edits r (l, p) (A ++ M' ++ B, p') := by
  rw [hl]
  exact h.edits.context A B

theorem Sys.Refs.scan (h : s.Refs n) (hp : p < n) (hidle : s.proc p = .idle)
    (hu : w.r.u.uProcp = p) (hr : w.r.lb < w.r.ub) {s' : Sys} (hs : s.scan p w = some s') :
    s'.Refs n := by
  rcases scan_cases h hidle hr hs with rfl | ⟨-, -, A, M, M', B, p', hl, -, -, hins, hok, rfl⟩ |
    ⟨e, he, -, rfl⟩
  · exact h
  · exact h.commit (edits_of_inserted hl hins) hok
  · exact h.hunt hp hidle hu hr (mem_addrs.2 ⟨e, he, rfl⟩)

/-- `delete_lock` is a row of edits. -/
theorem delete_cases (h : s.Refs n) {r : Req} (ht : s.step (.delete p r) = some t) :
    s.proc p = .idle ∧ ∃ A M M' B p', s.lists r.ip = A ++ M ++ B ∧
      Deleted r M M' s.fresh p' ∧ ListOk (A ++ M' ++ B) ∧
      Edits r (s.lists r.ip, s.fresh) (A ++ M' ++ B, p') ∧ t = s.commit r.ip (A ++ M' ++ B, p') := by
  simp only [Sys.step] at ht
  split_ifs at ht with hg
  obtain ⟨A, M, M', B, p', p'', hl, -, -, heq, hdel, hnote, hok⟩ :=
    deleteLock_spec hg.2.2 (h.listOk r.ip) s.fresh
  refine ⟨hg.1, A, M, M', B, p', hl, hdel, hok, hl ▸ hdel.edits.context A B, ?_⟩
  rw [← Option.some.inj ht, heq]
  rcases hnote with rfl | rfl
  · rfl
  · rw [commit_note]

theorem unlock_cases (h : s.Refs n) {p ip : ℕ} {u : U} (ht : s.step (.unlock p u ip) = some t) :
    s.proc p = .idle ∧ ∃ res, res.1 = (s.lists ip).filter (fun e => e.owner ≠ u.owner) ∧
      ListOk res.1 ∧ (∀ r : Req, r.u = u → Edits r (s.lists ip, s.fresh) res) ∧
      t = s.commit ip res := by
  simp only [Sys.step] at ht
  split_ifs at ht with hg
  obtain ⟨hl, -, hed⟩ := unlock_spec u (s.lists ip) s.fresh
  exact ⟨hg.1, _, hl, hl ▸ (h.listOk ip).filter u.owner, hed, (Option.some.inj ht).symm⟩

/-- Every step keeps the invariant. -/
theorem Sys.Refs.step (h : s.Refs n) {a : Act} (ha : a.actor < n) {s' : Sys}
    (hs : s.step a = some s') : s'.Refs n := by
  cases a with
  | call p w =>
    simp only [Sys.step] at hs
    split_ifs at hs with hg
    exact h.scan ha hg.1 hg.2.1 hg.2.2 hs
  | hunted p found =>
    cases hp : s.proc p with
    | hunt a w =>
      simp only [Sys.step, hp] at hs
      have hat : (s.proc p).at = some (a, w) := by rw [hp]; rfl
      have hdrop := h.drop hat
      obtain ⟨hpn, hu, hr⟩ := h.proc p a w hat
      split_ifs at hs with hf hl hn
      · exact Option.some.inj hs ▸ hdrop
      · exact Option.some.inj hs ▸ hdrop.want w.r.ip a w
      · exact Option.some.inj hs ▸ h.sleep hp hn (mem_addrs.2 hl)
      · rw [← scan_setProc _ p .idle] at hs
        exact hdrop.scan hpn (setProc_self ..) hu hr hs
    | idle => simp [Sys.step, hp] at hs
    | asleep => simp [Sys.step, hp] at hs
    | ready => simp [Sys.step, hp] at hs
  | resume p =>
    cases hp : s.proc p with
    | ready a w intr =>
      simp only [Sys.step, hp] at hs
      have hat : (s.proc p).at = some (a, w) := by rw [hp]; rfl
      have hdrop := h.drop hat
      obtain ⟨hpn, hu, hr⟩ := h.proc p a w hat
      split_ifs at hs
      · exact Option.some.inj hs ▸ hdrop
      · rw [← scan_setProc _ p .idle] at hs
        exact hdrop.scan hpn (setProc_self ..) hu hr hs
    | idle => simp [Sys.step, hp] at hs
    | asleep => simp [Sys.step, hp] at hs
    | hunt => simp [Sys.step, hp] at hs
  | signal p =>
    cases hp : s.proc p with
    | asleep a w =>
      simp only [Sys.step, hp, Option.some.injEq] at hs
      exact hs ▸ h.signal hp
    | idle => simp [Sys.step, hp] at hs
    | ready => simp [Sys.step, hp] at hs
    | hunt => simp [Sys.step, hp] at hs
  | delete p r =>
    obtain ⟨-, A, M, M', B, p', -, -, hok, hed, rfl⟩ := delete_cases h hs
    exact h.commit hed hok
  | unlock p u ip =>
    obtain ⟨-, res, -, hok, hed, rfl⟩ := unlock_cases h hs
    exact h.commit (hed ⟨u, ip, false, 0, 0, .lockf, .unlck⟩ rfl) hok

/-- The invariant holds in every run. -/
theorem lockSys_refs (h : (lockSys n).Reach s) : s.Refs n := by
  refine h.inv (fun s hs => ?_) fun s a s' _ hs hstep => hs.step hstep.1 hstep.2
  obtain ⟨hl, hfree, hheld, hlog, hidle⟩ := hs
  have hat : ∀ q, (s.proc q).at = none := fun q => by rw [hidle]; rfl
  have hrefs : s.refs n = fun _ => 0 := by
    funext a
    simp [Sys.refs, hidle]
  refine ⟨fun i => ?_, fun i => ⟨?_, ?_, ?_, ?_⟩, fun i j _ a ha => ?_, fun q a w hq => ?_,
    fun q a w hq => ?_, fun q a w hq => ?_, hlog⟩
  · rw [hl]
    exact grouped_nil
  · simpa [allAddrs, hl, hheld] using hfree
  · simp [hl]
  · simp [hheld]
  · simp [hrefs]
  · simp [hl] at ha
  · simp [hat] at hq
  · simp [hat] at hq
  · simp [hidle] at hq

end Sys

end Lockf

end Hpux
