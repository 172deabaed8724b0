import Hpux910.Ufs.LostWakeup

/-!
# The life of a lock entry

All lock entries come from `locklist[]`.  An entry is free, on the list of an inode, or unlinked and kept by the
processes that still refer to it.

* `lockInit` : the free chain that the first `lockalloc` makes.
* `Sys.In` : the places an entry can be in.
* `lifeSys` : the system of processes on record locks, from a table of `nflocks` entries on.
* `SameTable` : no entry appears or is lost.
* `Life`, `lock_life` : what holds of the entries in every run.
-/

namespace Hpux

namespace Lockf

open List

/-- An entry before its first use, with the count that `lockfree` takes down. -/
def blankLock (a : ℕ) : Lock := ⟨a, 1, false, false, false, .proc 0, 0, 0, .unlck, none⟩

/-- The loop of the first `lockalloc`: all entries but the first are freed. -/
def lockInit (nflocks : ℕ) : Pool :=
  (List.range' 1 (nflocks - 1)).foldl (fun p a => p.lockfree (blankLock a)) ⟨[], [], none, none, []⟩

/-- The system before any lock is taken. -/
def Sys.start (nflocks : ℕ) : Sys := ⟨fun _ => [], lockInit nflocks, fun _ => .idle⟩

/-- `n` processes and a table of `nflocks` entries. -/
def lifeSys (n nflocks : ℕ) : Lts Sys Act where
  init s := s = Sys.start nflocks
  step := (lockSys n).step

/-- Where an entry can be. -/
inductive Place
  /-- On the free list. -/
  | free
  /-- On the list of an inode. -/
  | linked (i : ℕ)
  /-- On no list, but processes refer to it. -/
  | held
  deriving DecidableEq

/-- The entry at `a` is in this place. -/
def Sys.In (s : Sys) : Place → ℕ → Prop
  | .free, a => a ∈ s.pool.free
  | .linked i, a => a ∈ addrs (s.lists i)
  | .held, a => a ∈ addrs s.pool.held

/-! ### The table -/

theorem foldl_lockfree (l : List ℕ) (p : Pool) : l.foldl (fun p a => p.lockfree (blankLock a)) p =
    { p with free := l.reverse ++ p.free } := by
  induction l generalizing p with
  | nil => rfl
  | cons a l ih =>
    have hone : p.lockfree (blankLock a) = { p with free := a :: p.free } := rfl
    rw [foldl_cons, hone, ih, reverse_cons, append_assoc]
    rfl

theorem lockInit_eq (nflocks : ℕ) :
    lockInit nflocks = ⟨(List.range' 1 (nflocks - 1)).reverse, [], none, none, []⟩ := by
  rw [lockInit, foldl_lockfree, append_nil]

theorem mem_lockInit {nflocks a : ℕ} : a ∈ (lockInit nflocks).free ↔ 1 ≤ a ∧ a < nflocks := by
  rw [lockInit_eq, mem_reverse, mem_range'_1]
  omega

theorem lockInit_nodup (nflocks : ℕ) : (lockInit nflocks).free.Nodup := by
  rw [lockInit_eq]
  exact nodup_reverse.2 (nodup_range' 1)

theorem lifeSys_reach {n nflocks : ℕ} {s : Sys} (h : (lifeSys n nflocks).Reach s) : (lockSys n).Reach s := by
  refine h.inv (I := (lockSys n).Reach) (fun s hs => .init ?_) fun s a s' _ ih hstep => .step ih hstep
  obtain rfl : s = Sys.start nflocks := hs
  exact ⟨fun _ => rfl, lockInit_nodup nflocks, congrArg Pool.held (lockInit_eq nflocks),
    congrArg Pool.log (lockInit_eq nflocks), fun _ => rfl⟩

/-- The same entries are somewhere. -/
def SameTable (s t : Sys) : Prop := ∀ a, (∃ pl, t.In pl a) ↔ ∃ pl, s.In pl a

theorem SameTable.trans {s t u : Sys} (h₁ : SameTable s t) (h₂ : SameTable t u) : SameTable s u := fun a =>
  (h₂ a).trans (h₁ a)

section Table

variable {n : ℕ} {s t : Sys}

/-- An entry is on the list of `ip`, on another one, or off the lists. -/
theorem in_iff (s : Sys) (ip a : ℕ) :
    (∃ pl, s.In pl a) ↔ a ∈ allAddrs (s.lists ip) s.pool ∨ ∃ i, i ≠ ip ∧ a ∈ addrs (s.lists i) := by
  rw [allAddrs, mem_append, mem_append]
  constructor
  · rintro ⟨pl, h⟩
    cases pl with
    | free => exact .inl (.inr (.inl h))
    | held => exact .inl (.inr (.inr h))
    | linked i =>
      by_cases hi : i = ip
      · exact .inl (.inl (hi ▸ h))
      · exact .inr ⟨i, hi, h⟩
  · rintro ((h | h | h) | ⟨i, -, h⟩)
    · exact ⟨.linked ip, h⟩
    · exact ⟨.free, h⟩
    · exact ⟨.held, h⟩
    · exact ⟨.linked i, h⟩

theorem SameTable.of_perm (ip : ℕ) (hperm : (allAddrs (t.lists ip) t.pool).Perm (allAddrs (s.lists ip) s.pool))
    (hother : ∀ i, i ≠ ip → t.lists i = s.lists i) : SameTable s t := by
  intro a
  rw [in_iff t ip, in_iff s ip, hperm.mem_iff]
  refine or_congr_right (exists_congr fun i => and_congr_right fun hi => ?_)
  rw [hother i hi]

variable {res : List Lock × Pool}

theorem sameTable_commit (ip : ℕ)
    (hperm : (allAddrs res.1 res.2).Perm (allAddrs (s.lists ip) s.pool)) : SameTable s (s.commit ip res) := by
  refine .of_perm ip ?_ fun i hi => Function.update_of_ne hi _ _
  show (allAddrs (Function.update s.lists ip res.1 ip) res.2).Perm _
  rwa [Function.update_self]

theorem sameTable_map (ip : ℕ) {f : Lock → Lock} (hf : ∀ e, SameLock e (f e)) (proc : ℕ → ProcState) :
    SameTable s ⟨Function.update s.lists ip ((s.lists ip).map f), s.pool, proc⟩ := by
  refine .of_perm ip ?_ fun i hi => Function.update_of_ne hi _ _
  show (allAddrs (Function.update s.lists ip ((s.lists ip).map f) ip) s.pool).Perm _
  rw [Function.update_self, allAddrs, addrs_map hf]
  exact .refl _

theorem sameTable_setProc (p : ℕ) (st : ProcState) : SameTable s (s.setProc p st) := fun a =>
  exists_congr fun pl => by cases pl <;> exact Iff.rfl

theorem sameTable_want (ip a : ℕ) (w : Want) : SameTable s (s.want ip a w) := sameTable_map ip (want_same w a) s.proc

theorem count_same (k : ℕ → ℕ) (a : ℕ) (e : Lock) :
    SameLock e (if e.addr = a then { e with llCount := k e.llCount } else e) := by
  split_ifs <;> exact ⟨rfl, rfl, rfl, rfl, rfl⟩

theorem sameTable_lockinc (ip a : ℕ) : SameTable s (s.lockinc ip a) :=
  sameTable_map ip (count_same (· + 1) a) s.proc

/-- What `lockdec` does to an entry that a process refers to and that is on no list: with the last reference the entry
goes to the free list. -/
theorem lockdec_unlinked (h : s.Refs n) {p a : ℕ} {w : Want} (hat : (s.proc p).at = some (a, w))
    (ha : a ∈ addrs s.pool.held) : (s.lockdec w.r.ip a).lists = s.lists ∧
    if s.refs n a = 1 then
      (s.lockdec w.r.ip a).pool.free = a :: s.pool.free ∧
        (a :: addrs (s.lockdec w.r.ip a).pool.held).Perm (addrs s.pool.held)
    else (s.lockdec w.r.ip a).pool.free = s.pool.free ∧
      (addrs (s.lockdec w.r.ip a).pool.held).Perm (addrs s.pool.held) := by
  have hnd := nodup_append.1 (h.entries w.r.ip).nodup
  have hlinked : a ∉ addrs (s.lists w.r.ip) := fun hl => hnd.2.2 a hl a (mem_append_right _ ha) rfl
  obtain ⟨e, he, rfl, hdec⟩ := lockdec_held hlinked ha
  have hcount := ((h.entries w.r.ip).held e he).1
  have hpos : 0 < s.refs n e.addr := refs_pos (h.proc p _ w hat).1 (chan_of_at hat)
  have hperm := perm_addrs_filter (nodup_append.1 hnd.2.1).2.1 (mem_addrs.2 ⟨e, he, rfl⟩)
  rw [hdec]
  refine ⟨rfl, ?_⟩
  simp only [Pool.lockdec]
  by_cases hone : s.refs n e.addr = 1
  · rw [if_pos hone, if_pos (by omega : e.llCount - 1 = 0)]
    exact ⟨rfl, hperm⟩
  · rw [if_neg hone, if_neg (by omega : ¬e.llCount - 1 = 0)]
    exact ⟨rfl, hperm⟩

theorem sameTable_lockdec (h : s.Refs n) {p a : ℕ} {w : Want} (hat : (s.proc p).at = some (a, w)) :
    SameTable s (s.lockdec w.r.ip a) := by
  by_cases hl : a ∈ addrs (s.lists w.r.ip)
  · rw [lockdec_linked h (refs_pos (h.proc p a w hat).1 (chan_of_at hat)) hl]
    exact sameTable_map w.r.ip (count_same (· - 1) a) s.proc
  · obtain ⟨h1, h2⟩ := lockdec_unlinked h hat ((h.chan p a w hat).resolve_left hl)
    refine .of_perm w.r.ip ?_ fun i _ => by rw [h1]
    rw [h1]
    refine List.Perm.append_left _ ?_
    split_ifs at h2 with hone
    · rw [h2.1]
      exact perm_middle.symm.trans (h2.2.append_left _)
    · rw [h2.1]
      exact h2.2.append_left _

theorem entries_of_edits (h : s.Refs n) {i : ℕ} {r : Req}
    (hed : Edits r (s.lists i, s.fresh) res) : Keep (s.refs n) (s.lists i, s.fresh) res ∧
      Entries (s.refs n) res.1 res.2 :=
  hed.keep ⟨(h.entries i).nodup, (h.entries i).count, (h.entries i).held, (h.entries i).free⟩

theorem sameTable_edits (h : s.Refs n) {i : ℕ} {r : Req}
    (hed : Edits r (s.lists i, s.fresh) res) : SameTable s (s.commit i res) :=
  sameTable_commit i (entries_of_edits h hed).1.perm

theorem sameTable_scan (h : s.Refs n) {p : ℕ} (hidle : s.proc p = .idle) {w : Want} (hr : w.r.lb < w.r.ub)
    (ht : s.scan p w = some t) : SameTable s t := by
  rcases scan_cases h hidle hr ht with rfl | ⟨-, -, A, M, M', B, p', hl, -, -, hins, -, rfl⟩ | ⟨e, -, -, rfl⟩
  · exact fun a => Iff.rfl
  · exact sameTable_edits h (edits_of_inserted hl hins)
  · exact (sameTable_lockinc _ _).trans (sameTable_setProc _ _)

/-- One step. -/
theorem sameTable_step (h : s.Refs n) {act : Act} (ht : s.step act = some t) : SameTable s t := by
  cases act with
  | call p w =>
    simp only [Sys.step] at ht
    split_ifs at ht with hg
    exact sameTable_scan h hg.1 hg.2.2 ht
  | hunted p found =>
    cases hp : s.proc p with
    | hunt a w =>
      simp only [Sys.step, hp] at ht
      have hat : (s.proc p).at = some (a, w) := by rw [hp]; rfl
      have hdec := sameTable_lockdec h hat
      split_ifs at ht with hf hl hn
      · cases ht
        exact hdec.trans (sameTable_setProc _ _)
      · cases ht
        exact (hdec.trans (sameTable_want _ _ _)).trans (sameTable_setProc _ _)
      · cases ht
        exact (sameTable_want _ _ _).trans (sameTable_setProc _ _)
      · rw [← scan_setProc _ p .idle] at ht
        exact (hdec.trans (sameTable_setProc _ _)).trans
          (sameTable_scan (h.drop hat) (setProc_self ..) (h.proc p a w hat).2.2 ht)
    | idle => simp [Sys.step, hp] at ht
    | asleep => simp [Sys.step, hp] at ht
    | ready => simp [Sys.step, hp] at ht
  | resume p =>
    cases hp : s.proc p with
    | ready a w intr =>
      simp only [Sys.step, hp] at ht
      have hat : (s.proc p).at = some (a, w) := by rw [hp]; rfl
      have hdec := sameTable_lockdec h hat
      split_ifs at ht
      · cases ht
        exact hdec.trans (sameTable_setProc _ _)
      · rw [← scan_setProc _ p .idle] at ht
        exact (hdec.trans (sameTable_setProc _ _)).trans
          (sameTable_scan (h.drop hat) (setProc_self ..) (h.proc p a w hat).2.2 ht)
    | idle => simp [Sys.step, hp] at ht
    | asleep => simp [Sys.step, hp] at ht
    | hunt => simp [Sys.step, hp] at ht
  | signal p =>
    cases hp : s.proc p with
    | asleep a w =>
      simp only [Sys.step, hp, Option.some.injEq] at ht
      exact ht ▸ sameTable_setProc _ _
    | idle => simp [Sys.step, hp] at ht
    | ready => simp [Sys.step, hp] at ht
    | hunt => simp [Sys.step, hp] at ht
  | delete p r =>
    obtain ⟨-, A, M, M', B, p', -, -, -, hed, rfl⟩ := delete_cases h ht
    exact sameTable_edits h hed
  | unlock p u ip =>
    obtain ⟨-, res, -, -, hed, rfl⟩ := unlock_cases h ht
    exact sameTable_edits h (hed ⟨u, ip, false, 0, 0, .lockf, .unlck⟩ rfl)

end Table

/-! ### Runs -/

/-- What holds of the entries in a state.  `refs` counts the processes that sleep on an entry, or slept on it and have
not run since, or search for a deadlock with it. -/
structure Life (n nflocks : ℕ) (s : Sys) : Prop where
  /-- Every entry is in exactly one place, and no other. -/
  place : ∀ a, 1 ≤ a → a < nflocks → ∃! pl, s.In pl a
  /-- There are no other entries. -/
  table : ∀ pl a, s.In pl a → 1 ≤ a ∧ a < nflocks
  /-- And is there once. -/
  once : s.pool.free.Nodup ∧ (addrs s.pool.held).Nodup ∧ ∀ i, (addrs (s.lists i)).Nodup
  /-- Nobody refers to a free entry. -/
  free : ∀ a ∈ s.pool.free, s.refs n a = 0
  /-- The list refers to its entries, too. -/
  linked : ∀ i, ∀ e ∈ s.lists i, e.llCount = s.refs n e.addr + 1
  /-- The count of an unlinked entry. -/
  held : ∀ e ∈ s.pool.held, e.llCount = s.refs n e.addr ∧ 0 < e.llCount
  /-- The last `lockdec` of an unlinked entry, and no other, puts it on the free list. -/
  last : ∀ p a w, (s.proc p).at = some (a, w) → a ∈ addrs s.pool.held →
    if s.refs n a = 1 then
      (s.lockdec w.r.ip a).pool.free = a :: s.pool.free ∧
        (a :: addrs (s.lockdec w.r.ip a).pool.held).Perm (addrs s.pool.held)
    else (s.lockdec w.r.ip a).pool.free = s.pool.free ∧
      (addrs (s.lockdec w.r.ip a).pool.held).Perm (addrs s.pool.held)
  /-- At any place in a list routine `lockalloc` hands out an entry that nobody refers to and that is nowhere else. -/
  alloc : ∀ i r l pool function a pool', Edits r (s.lists i, s.fresh) (l, pool) →
    pool.lockalloc function = (some a, pool') →
      s.refs n a = 0 ∧ a ∉ addrs l ∧ a ∉ pool'.free ∧ a ∉ addrs pool.held
  /-- And `lockfree` of an entry just unlinked frees it if nobody refers to it, and keeps it otherwise. -/
  unlink : ∀ i r l pool, Edits r (s.lists i, s.fresh) (l, pool) → ∀ e ∈ l,
    if s.refs n e.addr = 0 then (pool.lockfree e).free = e.addr :: pool.free ∧ (pool.lockfree e).held = pool.held
    else (pool.lockfree e).free = pool.free ∧ addrs (pool.lockfree e).held = e.addr :: addrs pool.held

/-- The life of the entries in every run. -/
theorem lock_life {n nflocks : ℕ} {s : Sys} (h : (lifeSys n nflocks).Reach s) : Life n nflocks s := by
  have hrefs := lockSys_refs (lifeSys_reach h)
  have hmem : ∀ a, (∃ pl, s.In pl a) ↔ 1 ≤ a ∧ a < nflocks := by
    refine h.inv (I := fun s => ∀ a, (∃ pl, s.In pl a) ↔ 1 ≤ a ∧ a < nflocks) (fun s hs a => ?_)
      fun s act s' hr ih hstep a => (sameTable_step (lockSys_refs (lifeSys_reach hr)) hstep.2 a).trans (ih a)
    obtain rfl : s = Sys.start nflocks := hs
    rw [← mem_lockInit]
    refine ⟨?_, fun ha => ⟨.free, ha⟩⟩
    rintro ⟨pl, ha⟩
    cases pl with
    | free => exact ha
    | linked i => cases ha
    | held =>
      have hheld : (lockInit nflocks).held = [] := by rw [lockInit_eq]
      rw [Sys.In, Sys.start, hheld] at ha
      cases ha
  have hnd := fun i => List.nodup_append.1 (hrefs.entries i).nodup
  have hpool := List.nodup_append.1 (hnd 0).2.1
  have hone : ∀ {pl pl' : Place} {a : ℕ}, s.In pl a → s.In pl' a → pl = pl' := by
    -- an entry on a list is not in the pool, and not on another list
    have hlist : ∀ {i a}, a ∈ addrs (s.lists i) → a ∉ s.pool.free ∧ a ∉ addrs s.pool.held := fun {i a} ha =>
      ⟨fun hf => (hnd i).2.2 a ha a (List.mem_append_left _ hf) rfl,
        fun hh => (hnd i).2.2 a ha a (List.mem_append_right _ hh) rfl⟩
    intro pl pl' a h1 h2
    cases pl with
    | free =>
      cases pl' with
      | free => rfl
      | linked i => exact absurd h1 (hlist h2).1
      | held => exact absurd rfl (hpool.2.2 a h1 a h2)
    | linked i =>
      cases pl' with
      | free => exact absurd h2 (hlist h1).1
      | linked j =>
        by_contra hij
        exact hrefs.apart i j (fun hc => hij (congrArg _ hc)) a h1 h2
      | held => exact absurd h2 (hlist h1).2
    | held =>
      cases pl' with
      | free => exact absurd rfl (hpool.2.2 a h2 a h1)
      | linked i => exact absurd h1 (hlist h2).2
      | held => rfl
  refine ⟨fun a h1 h2 => ?_, fun pl a ha => (hmem a).1 ⟨pl, ha⟩, ⟨hpool.1, hpool.2.1, fun i => (hnd i).1⟩,
    (hrefs.entries 0).free, fun i => (hrefs.entries i).count, fun e he => ?_,
    fun p a w hat ha => (lockdec_unlinked hrefs hat ha).2, fun i r l pool f a pool' hed halloc => ?_,
    fun i r l pool hed e he => ?_⟩
  · obtain ⟨pl, hpl⟩ := (hmem a).2 ⟨h1, h2⟩
    exact ⟨pl, hpl, fun pl' hpl' => hone hpl' hpl⟩
  · obtain ⟨h1, h2⟩ := (hrefs.entries 0).held e he
    exact ⟨h1, h1 ▸ h2⟩
  · obtain ⟨-, hent⟩ := entries_of_edits hrefs hed
    unfold Pool.lockalloc at halloc
    cases hfree : pool.free with
    | nil =>
      rw [hfree] at halloc
      cases halloc
    | cons b rest =>
      rw [hfree] at halloc
      obtain ⟨hb, rfl⟩ := Prod.mk.inj halloc
      obtain rfl := Option.some.inj hb
      have hin : b ∈ pool.free := hfree ▸ List.mem_cons_self
      have hn := List.nodup_append.1 hent.nodup
      have hp := List.nodup_append.1 hn.2.1
      refine ⟨hent.free b hin, fun hl => hn.2.2 b hl b (List.mem_append_left _ hin) rfl, ?_,
        fun hh => hp.2.2 b hin b hh rfl⟩
      have hnodup := hp.1
      rw [hfree] at hnodup
      exact (List.nodup_cons.1 hnodup).1
  · obtain ⟨-, hent⟩ := entries_of_edits hrefs hed
    have hcount := hent.count e he
    rcases pool.lockfree_cases e with ⟨h1, h2, h3⟩ | ⟨h1, h2, h3⟩
    · rw [if_pos (by omega)]
      exact ⟨h2, h3⟩
    · rw [if_neg (by omega)]
      exact ⟨h2, by rw [h3]; rfl⟩

/-- Process 1 waits for the lock of process 0, which then gives it up: the entry is unlinked, with one reference. -/
theorem lock_life_unlinked : ∃ s, (lifeSys 2 4).Reach s ∧ s.In .held 3 ∧ Life 2 4 s := by
  let as : List Act := [setlkw 0 .wrlck, setlkw 1 .rdlck, .hunted 1 false, .unlock 0 ⟨0, none⟩ 0]
  have hsome : ((Sys.start 4).exec as).isSome := rfl
  have hreach : (lifeSys 2 4).Reach (((Sys.start 4).exec as).get hsome) := by
    let s₁ := ((Sys.start 4).step (setlkw 0 .wrlck)).get rfl
    let s₂ := (s₁.step (setlkw 1 .rdlck)).get rfl
    let s₃ := (s₂.step (.hunted 1 false)).get rfl
    have h₁ : (lifeSys 2 4).Reach s₁ := .step (.init rfl) ⟨by decide, (Option.some_get _).symm⟩
    have h₂ : (lifeSys 2 4).Reach s₂ := .step h₁ ⟨by decide, (Option.some_get _).symm⟩
    have h₃ : (lifeSys 2 4).Reach s₃ := .step h₂ ⟨by decide, (Option.some_get _).symm⟩
    exact .step (l := .unlock 0 ⟨0, none⟩ 0) h₃ ⟨by decide, rfl⟩
  exact ⟨_, hreach, List.mem_singleton_self 3, lock_life hreach⟩

/-- An entry on a list has a reference from it: process 0 has a lock, nobody sleeps or searches, and the count is 1. -/
theorem listed_count : ∃ s e, (lifeSys 1 4).Reach s ∧ e ∈ s.lists 0 ∧ s.refs 1 e.addr = 0 ∧ e.llCount = 1 := by
  let s₁ := ((Sys.start 4).step (setlkw 0 .wrlck)).get rfl
  let e : Lock := ⟨3, 1, false, false, true, .proc 0, 0, 10, .wrlck, some 0⟩
  have h₁ : (lifeSys 1 4).Reach s₁ := .step (.init rfl) ⟨by decide, (Option.some_get _).symm⟩
  have hlist : s₁.lists 0 = [e] := rfl
  have hidle : s₁.proc 0 = .idle := rfl
  refine ⟨s₁, e, h₁, hlist ▸ List.mem_singleton_self e, ?_, rfl⟩
  rw [Sys.refs, Finset.card_eq_zero, Finset.filter_eq_empty_iff]
  intro q hq
  obtain rfl : q = 0 := by simpa using hq
  rw [hidle]
  simp

end Lockf

end Hpux
