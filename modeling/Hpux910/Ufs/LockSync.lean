import Hpux910.Ufs.LockMap
import Hpux910.Dux.Sitemap

/-!
# Record locks and synchronous mode

An inode that several sites have open is used in synchronous mode when one of them writes it, or
when it has record locks that are enforced.  The serving site keeps the mode in the flag `ISYNC` and
has `checksync` (`dux/dux_sync.c`) decide it anew whenever something it depends on changes.

* `Inode`, `issync`, `checksync` : what the mode depends on, and the decision.
* `syncSys` : the calls that change it.  Opens and closes are any change of the site counts.
* `Inode.Synced` : the flag says what `checksync` would.
* `DropsLast` : the calls that leave the flag behind.  `delete_lock` returns from inside its loop
  when the entry it frees is the last of the list, so the call of `checksync` at its end is made
  only for a list that was empty already; `unlock` makes none.
* `synced_iff_not_dropsLast` : the flag is right as long as no call drops the last lock of an inode
  whose mode hangs on its locks, and wrong after every call that does.
-/

namespace Hpux

namespace LockSync

open Lockf List

/-- `IFMT`. -/
def ifmt : ℕ := 0o170000
/-- `IFIFO`. -/
def ififo : ℕ := 0o010000
/-- `IFDIR`. -/
def ifdir : ℕ := 0o040000
/-- `IFREG`. -/
def ifreg : ℕ := 0o100000
/-- `IFNWK`. -/
def ifnwk : ℕ := 0o110000
/-- `IENFMT`. -/
def ienfmt : ℕ := 0o2000
/-- `IEXEC`. -/
def iexec : ℕ := 0o100

/-- What the mode of I/O of an inode depends on. -/
structure Inode where
  /-- `i_mode`. -/
  iMode : ℕ
  /-- `i_opensites`. -/
  iOpensites : Dux.Sitemap
  /-- `i_writesites`. -/
  iWritesites : Dux.Sitemap
  /-- `i_locklist`. -/
  iLocklist : List Lock
  /-- `ISYNC` of `i_flag`. -/
  isync : Bool
  deriving DecidableEq, Repr

/-- The locks of a file with this mode are enforced. -/
def Enforced (mode : ℕ) : Prop := mode &&& ienfmt ≠ 0 ∧ mode &&& (iexec >>> 3) = 0

instance (mode : ℕ) : Decidable (Enforced mode) :=
  inferInstanceAs (Decidable (mode &&& ienfmt ≠ 0 ∧ mode &&& (iexec >>> 3) = 0))

/-- The variable `issync` of `checksync`. -/
def issync (ip : Inode) : Bool :=
  let type := ip.iMode &&& ifmt
  let opensites := Dux.gettotalsites ip.iOpensites
  if type = ifdir ∨ type = ifnwk then true
  else if type = ifreg then
    opensites > 1 ∧ (Dux.gettotalsites ip.iWritesites > 0 ∨
      ip.iLocklist ≠ [] ∧ Enforced ip.iMode)
  else if type = ififo then opensites > 1 ∨ ip.isync = true ∧ opensites > 0
  else false

/-- `checksync`.  `setsync` sets the flag also when the other sites cannot be told. -/
def checksync (ip : Inode) : Inode := { ip with isync := issync ip }

/-- The events that a routine logs after the inode's list has become `l`. -/
def Inode.follow (ip : Inode) (l : List Lock) (log : List Event) : Inode :=
  if .checksync ∈ log then checksync { ip with iLocklist := l } else { ip with iLocklist := l }

/-- What can happen to an inode. -/
inductive Call
  /-- `insert_lock`. -/
  | insert (r : Req)
  /-- `delete_lock`. -/
  | delete (r : Req)
  /-- `unlock`, alone as in `dux_unlockf`. -/
  | unlock (u : U)
  /-- A close: `unlock`, new counts of sites and `checksync`. -/
  | close (u : U) (opensites writesites : Dux.Sitemap)
  /-- An open, or a close by a site that has failed: new counts of sites and `checksync`. -/
  | sites (opensites writesites : Dux.Sitemap)
  /-- A new mode from `ufs_setattr`. -/
  | setattr (mode : ℕ)
  /-- The pool changes under the lists of other inodes. -/
  | other (p : Pool)

/-- The flags `was_enf` and `is_enf` of `ufs_setattr`. -/
def isEnf (mode : ℕ) : Bool :=
  mode &&& ienfmt ≠ 0 ∧ mode &&& ifmt = ifreg ∧ mode &&& (iexec >>> 3) = 0

/-- One call, with a pool that logs the events of this call only. -/
def Call.run : Call → Inode × Pool → Except Panic (Inode × Pool)
  | .insert r, (ip, p) =>
    match insertLock r ip.iLocklist { p with uError := none, log := [] } with
    | .ok (l, p) => .ok (ip.follow l p.log, p)
    | .error e => .error e
  | .delete r, (ip, p) =>
    let (l, p) := deleteLock r ip.iLocklist { p with uError := none, log := [] }
    .ok (ip.follow l p.log, p)
  | .unlock u, (ip, p) =>
    let (l, p) := Lockf.unlock u ip.iLocklist { p with uError := none, log := [] }
    .ok (ip.follow l p.log, p)
  | .close u o w, (ip, p) =>
    let (l, p) := Lockf.unlock u ip.iLocklist { p with uError := none, log := [] }
    .ok (checksync { ip.follow l p.log with iOpensites := o, iWritesites := w }, p)
  | .sites o w, (ip, p) => .ok (checksync { ip with iOpensites := o, iWritesites := w }, p)
  | .setattr mode, (ip, p) =>
    let new := { ip with iMode := mode }
    .ok (if isEnf mode ≠ isEnf ip.iMode then checksync new else new, p)
  | .other p, (ip, _) => .ok (ip, p)

/-- The callers give non-empty ranges, the inode is local, and a new mode keeps the file type. -/
def Call.Allowed (ip : Inode) : Call → Prop
  | .insert r | .delete r => r.lb < r.ub ∧ r.remoteip = false
  | .setattr mode => mode &&& ifmt = ip.iMode &&& ifmt
  | _ => True

/-- The flag `ISYNC` is what `checksync` makes it. -/
def Inode.Synced (ip : Inode) : Prop :=
  ip.isync = true ↔ 1 < Dux.gettotalsites ip.iOpensites ∧
    (0 < Dux.gettotalsites ip.iWritesites ∨ ip.iLocklist ≠ [] ∧ Enforced ip.iMode)

instance (ip : Inode) : Decidable ip.Synced :=
  inferInstanceAs (Decidable (_ ↔ _))

/-- The runs on a regular inode, from any list of locks and any counts. -/
def syncSys : Lts (Inode × Pool) Call where
  init s := s.1.iMode &&& ifmt = ifreg ∧ ListOk s.1.iLocklist ∧ s.1.Synced
  step s c s' := c.Allowed s.1 ∧ c.run s = .ok s'

/-- The call removes the whole entry. -/
def Call.Removes (e : Lock) : Call → Prop
  | .delete r => e.owner = r.u.owner ∧ r.lb ≤ e.llStart ∧ e.llEnd ≤ r.ub
  | .unlock u => e.owner = u.owner
  | _ => False

/-- The mode hangs on the locks alone, and `delete_lock` or `unlock` removes all of them. -/
def DropsLast (s : Inode × Pool) (c : Call) : Prop :=
  s.1.iLocklist ≠ [] ∧ (∀ e ∈ s.1.iLocklist, c.Removes e) ∧
    1 < Dux.gettotalsites s.1.iOpensites ∧ ¬ 0 < Dux.gettotalsites s.1.iWritesites ∧
    Enforced s.1.iMode

/-! ### The decision -/

section

variable {ip : Inode}

theorem issync_regular (h : ip.iMode &&& ifmt = ifreg) :
    issync ip = true ↔ 1 < Dux.gettotalsites ip.iOpensites ∧
      (0 < Dux.gettotalsites ip.iWritesites ∨ ip.iLocklist ≠ [] ∧ Enforced ip.iMode) := by
  have hdir : ¬ (ifreg = ifdir ∨ ifreg = ifnwk) := by decide
  simp only [issync, h, if_neg hdir, if_true, decide_eq_true_iff, gt_iff_lt]

theorem checksync_synced (h : ip.iMode &&& ifmt = ifreg) : (checksync ip).Synced :=
  issync_regular h

theorem Inode.Synced.relist (h : ip.Synced) {l : List Lock} (hl : l = [] ↔ ip.iLocklist = []) :
    Inode.Synced { ip with iLocklist := l } := by
  simpa only [Inode.Synced, ne_eq, hl] using h

theorem Inode.Synced.emptied (h : ip.Synced) (hl : ip.iLocklist ≠ []) :
    Inode.Synced { ip with iLocklist := [] } ↔
      ¬ (1 < Dux.gettotalsites ip.iOpensites ∧ ¬ 0 < Dux.gettotalsites ip.iWritesites ∧
        Enforced ip.iMode) := by
  simp only [Inode.Synced] at h ⊢
  rw [h]
  simp only [ne_eq, hl, not_false_eq_true, true_and, not_true_eq_false, false_and, or_false]
  tauto

end

/-! ### The list routines and emptiness -/

section Lists

variable {r : Req} {l : List Lock} {p : Pool}

theorem nil_of_look {M : List Lock} (hok : spans.Ok M) (h : ∀ b, spans.look M b = none) : M = [] := by
  cases M with
  | nil => rfl
  | cons e M =>
    have hlook := h e.llStart
    rw [look_cons, if_pos ⟨le_rfl, hok.head_lt⟩] at hlook
    cases hlook

/-- `insert_lock` leaves a list with entries with entries, and announces only the first. -/
theorem insertLock_emptiness (hr : r.lb < r.ub) (hloc : r.remoteip = false) (hok : ListOk l)
    (hlog : p.log = []) : ∃ l' p', insertLock r l p = .ok (l', p') ∧ ListOk l' ∧
      ((.checksync ∈ p'.log) ∨ (l' = [] ↔ l = [])) := by
  obtain ⟨A, M, M', B, p', p'', rfl, hAB, hM, heq, hins, hp, hok'⟩ := insertLock_spec hr hok p
  refine ⟨_, _, heq, hok', ?_⟩
  rcases hp with rfl | rfl
  · right
    by_cases hnil : A ++ M ++ B = []
    · -- the list was empty: without an announcement nothing was linked
      rw [hnil, insertLock] at heq
      simp only [hnil, iff_true]
      split at heq
      · exact (Prod.mk.inj (Except.ok.inj heq)).1.symm
      · rw [hloc] at heq
        obtain ⟨es, hes, -, hc⟩ := hins.edits.log
        have hlog' := congrArg Pool.log (Prod.mk.inj (Except.ok.inj heq)).2
        rw [← hlog', hlog, nil_append] at hes
        exact absurd (hes ▸ by simp [Pool.note]) hc
    · refine iff_of_false (fun h => ?_) hnil
      simp only [append_eq_nil_iff] at h
      obtain ⟨⟨hA, hM'⟩, hB⟩ := h
      rcases hins.look with ⟨-, hlook⟩ | ⟨-, hsame⟩
      · have hlb := hlook r.lb
        rw [hM', if_pos ⟨le_rfl, hr⟩] at hlb
        cases hlb
      · exact hnil (by simp [hA, hB, ← hsame, hM'])
  · exact .inl (by simp [Pool.note])

/-- The loop of `delete_lock` ends with its early return when it has emptied the list. -/
theorem deleteScan_ret {p' : Pool} {ret : Bool} (hl : l ≠ [])
    (h : deleteScan r l p = ([], p', ret)) : ret = true := by
  induction l generalizing p with
  | nil => exact absurd rfl hl
  | cons e l ih =>
    have hskip : ∀ (nl : Lock) (q : Pool), ((nl :: (deleteScan r l q).1, (deleteScan r l q).2.1,
        (deleteScan r l q).2.2) : List Lock × Pool × Bool) ≠ ([], p', ret) := by
      intro nl q hq
      cases congrArg Prod.fst hq
    rw [deleteScan] at h
    by_cases hmy : isMyLock r.u e = false
    · rw [if_pos hmy] at h
      exact absurd h (hskip _ _)
    rw [if_neg hmy] at h
    by_cases hout : e.llStart ≥ r.ub ∨ r.lb ≥ e.llEnd
    · rw [if_pos hout] at h
      exact absurd h (hskip _ _)
    rw [if_neg hout] at h
    split at h
    case h_3 | h_4 | h_5 | h_6 =>
      split at h
      · exact (congrArg (fun t => t.2.2) h).symm
      case isFalse hrest => exact ih hrest h
    case h_7 =>
      split at h <;> cases congrArg Prod.fst h
    all_goals exact absurd h (hskip _ _)

/-- `delete_lock` announces an empty list only if it found it empty. -/
theorem deleteLock_announces (hr : r.lb < r.ub) (hloc : r.remoteip = false) (hok : ListOk l)
    (hlog : p.log = []) : .checksync ∈ (deleteLock r l p).2.log ↔ l = [] := by
  obtain ⟨A, M, M', B, p', ret, hl, -, -, hscan, hdel, -⟩ := deleteScan_spec hr hok p
  obtain ⟨es, hes, -, hc⟩ := hdel.edits.log
  have hquiet : .checksync ∉ p'.log := by
    rw [hes, hlog]
    simpa using hc
  rw [deleteLock, hscan]
  dsimp only
  constructor
  · intro hmem
    by_contra hne
    split_ifs at hmem with hcond
    · -- the scan emptied the list, and then it returned early
      obtain ⟨hret, -, hnil⟩ := hcond
      rw [hnil] at hscan
      cases hret.symm.trans (deleteScan_ret hne hscan)
    · exact hquiet hmem
  · intro hnil
    rw [hnil, deleteScan] at hscan
    obtain ⟨h1, h2, h3⟩ := Prod.mk.inj hscan |>.imp id Prod.mk.inj
    rw [if_pos ⟨h3.symm, hloc, h1.symm⟩]
    simp [Pool.note]

/-- `delete_lock` empties a list just when each entry is an own one within the range. -/
theorem deleteLock_empties (hr : r.lb < r.ub) (hok : ListOk l) : (deleteLock r l p).1 = [] ↔
      ∀ e ∈ l, e.owner = r.u.owner ∧ r.lb ≤ e.llStart ∧ e.llEnd ≤ r.ub := by
  obtain ⟨A, M, M', B, p', p'', rfl, hAB, hM, heq, hdel, -, -⟩ := deleteLock_spec hr hok p
  have hMok : spans.Ok M := by
    simpa only [filter_group hAB hM] using hok.group r.u.owner
  rw [heq]
  constructor
  · intro h
    simp only [append_eq_nil_iff] at h
    obtain ⟨⟨rfl, rfl⟩, rfl⟩ := h
    intro e he
    rw [nil_append, append_nil] at he
    rcases hdel.look with ⟨-, hlook⟩ | ⟨-, rfl, -⟩
    · -- the first and the last byte of the entry lose their lock, so both are in the range
      have hin : ∀ b, e.llStart ≤ b → b < e.llEnd → r.lb ≤ b ∧ b < r.ub := by
        intro b hlo hhi
        by_contra hout
        have hb := hlook b
        rw [if_neg hout, (hMok.look_eq_some_iff (v := e.llType)).2 ⟨e, he, hlo, hhi, rfl⟩] at hb
        cases hb
      have hlt : e.llStart < e.llEnd := hMok.1 e he
      have hlast := hin (e.llEnd - 1) (by omega) (by omega)
      exact ⟨hM e he, (hin e.llStart le_rfl hlt).1, by omega⟩
    · cases he
  · intro h
    have hnil : ∀ L : List Lock, (∀ f ∈ L, f ∈ A ++ B) → L = [] := by
      intro L hL
      refine eq_nil_iff_forall_not_mem.2 fun f hf => hAB f (hL f hf) (h f ?_).1
      have := hL f hf
      simp only [mem_append] at this ⊢
      tauto
    have hA : A = [] := hnil A fun f hf => mem_append_left _ hf
    have hB : B = [] := hnil B fun f hf => mem_append_right _ hf
    subst hA hB
    rw [nil_append, append_nil] at h ⊢
    rcases hdel.look with ⟨-, hlook⟩ | ⟨-, -, e, he, hlo, -⟩
    · refine nil_of_look hdel.ok fun b => ?_
      rw [hlook]
      split_ifs with hb
      · rfl
      · by_contra hsome
        obtain ⟨v, hv⟩ := Option.ne_none_iff_exists'.1 hsome
        obtain ⟨e, he, hlo, hhi, -⟩ := hMok.look_eq_some_iff.1 hv
        have := h e he
        simp only [spans_lo, spans_hi] at hlo hhi
        omega
    · have := h e he
      omega

theorem deleteLock_listOk (hr : r.lb < r.ub) (hok : ListOk l) : ListOk (deleteLock r l p).1 := by
  obtain ⟨A, M, M', B, p', p'', -, -, -, heq, -, -, hok'⟩ := deleteLock_spec hr hok p
  rw [heq]
  exact hok'

theorem unlock_quiet (u : U) (l : List Lock) (hlog : p.log = []) :
    .checksync ∉ (Lockf.unlock u l p).2.log := by
  obtain ⟨-, -, hed⟩ := unlock_spec u l p
  obtain ⟨es, hes, -, hc⟩ := (hed ⟨u, 0, false, 0, 0, .lockf, .unlck⟩ rfl).log
  rw [hes, hlog]
  simpa using hc

end Lists

/-! ### Runs -/

section Runs

variable {s s' : Inode × Pool} {c : Call}

/-- What the calls keep apart from the flag. -/
def Sound (s : Inode × Pool) : Prop := s.1.iMode &&& ifmt = ifreg ∧ ListOk s.1.iLocklist

theorem not_dropsLast (h : ∀ e, ¬ c.Removes e) : ¬ DropsLast s c := by
  rintro ⟨hne, hall, -⟩
  obtain ⟨e, he⟩ := exists_mem_of_ne_nil _ hne
  exact h e (hall e he)

/-- A call without an announcement that empties a list leaves the flag as `DropsLast` says. -/
theorem Inode.Synced.follow {ip : Inode} {p : Pool} (h : ip.Synced) {l : List Lock}
    {log : List Event} (hlog : .checksync ∉ log) (hne : ip.iLocklist ≠ [])
    (hl : l = [] ↔ ∀ e ∈ ip.iLocklist, c.Removes e) :
    (ip.follow l log).Synced ↔ ¬ DropsLast (ip, p) c := by
  rw [Inode.follow, if_neg hlog]
  by_cases hnil : l = []
  · rw [hnil, h.emptied hne]
    simp only [DropsLast, ne_eq, hne, not_false_eq_true, true_and]
    rw [and_iff_right (hl.1 hnil)]
  · refine iff_of_true (h.relist (iff_of_false hnil hne)) ?_
    rintro ⟨-, hall, -⟩
    exact hnil (hl.2 hall)

/-- One call: the flag is right afterwards just if the call is not one of `DropsLast`. -/
theorem Call.run_spec (hs : Sound s) (hsync : s.1.Synced) (hc : c.Allowed s.1)
    (hrun : c.run s = .ok s') : Sound s' ∧ (s'.1.Synced ↔ ¬ DropsLast s c) := by
  obtain ⟨ip, p⟩ := s
  obtain ⟨hreg, hok⟩ := hs
  have hfollow : ∀ (l : List Lock) (log : List Event), (ip.follow l log).iMode = ip.iMode ∧
      (ip.follow l log).iLocklist = l := by
    intro l log
    unfold Inode.follow
    split_ifs <;> exact ⟨rfl, rfl⟩
  have hsound : ∀ (l : List Lock) (log : List Event) (q : Pool), ListOk l →
      Sound (ip.follow l log, q) := by
    intro l log q hl
    exact ⟨by rw [(hfollow l log).1]; exact hreg, by rw [(hfollow l log).2]; exact hl⟩
  have hannounced : ∀ (l : List Lock) (log : List Event), .checksync ∈ log →
      (ip.follow l log).Synced := by
    intro l log hlog
    rw [Inode.follow, if_pos hlog]
    exact checksync_synced hreg
  cases c with
  | insert r =>
    obtain ⟨l, q, heq, hok', hem⟩ := insertLock_emptiness hc.1 hc.2 hok
      (p := { p with uError := none, log := [] }) rfl
    rw [Call.run, heq] at hrun
    obtain rfl := Except.ok.inj hrun
    refine ⟨hsound l q.log q hok', iff_of_true ?_ (not_dropsLast fun e he => he)⟩
    by_cases hlog : .checksync ∈ q.log
    · exact hannounced l q.log hlog
    · show (ip.follow l q.log).Synced
      rw [Inode.follow, if_neg hlog]
      exact hsync.relist (hem.resolve_left hlog)
  | delete r =>
    obtain rfl := Except.ok.inj hrun
    refine ⟨hsound _ _ _ (deleteLock_listOk hc.1 hok), ?_⟩
    have hann := deleteLock_announces hc.1 hc.2 hok (p := { p with uError := none, log := [] }) rfl
    by_cases hnil : ip.iLocklist = []
    · exact iff_of_true (hannounced _ _ (hann.2 hnil)) fun hd => hd.1 hnil
    · exact hsync.follow (fun hmem => hnil (hann.1 hmem)) hnil (deleteLock_empties hc.1 hok)
  | unlock u =>
    obtain rfl := Except.ok.inj hrun
    have hquiet := unlock_quiet u ip.iLocklist (p := { p with uError := none, log := [] }) rfl
    have hl := (unlock_spec u ip.iLocklist { p with uError := none, log := [] }).1
    refine ⟨hsound _ _ _ (by rw [hl]; exact hok.filter u.owner), ?_⟩
    by_cases hnil : ip.iLocklist = []
    · refine iff_of_true ?_ fun hd => hd.1 hnil
      show (ip.follow _ _).Synced
      rw [Inode.follow, if_neg hquiet, hl, hnil]
      exact hsync.relist (by simp [hnil])
    · refine hsync.follow hquiet hnil ?_
      rw [hl, filter_eq_nil_iff]
      simp [Call.Removes]
  | close u o w =>
    obtain rfl := Except.ok.inj hrun
    have hl := (unlock_spec u ip.iLocklist { p with uError := none, log := [] }).1
    have hsnd := hsound (Lockf.unlock u ip.iLocklist { p with uError := none, log := [] }).1
      (Lockf.unlock u ip.iLocklist { p with uError := none, log := [] }).2.log p
      (by rw [hl]; exact hok.filter u.owner)
    exact ⟨hsnd, iff_of_true (checksync_synced hsnd.1) (not_dropsLast fun e he => he)⟩
  | sites o w =>
    obtain rfl := Except.ok.inj hrun
    exact ⟨⟨hreg, hok⟩, iff_of_true (checksync_synced hreg) (not_dropsLast fun e he => he)⟩
  | setattr mode =>
    obtain rfl := Except.ok.inj hrun
    have hreg' : mode &&& ifmt = ifreg := Eq.trans hc hreg
    have hnot : ¬ DropsLast (ip, p) (.setattr mode) := not_dropsLast fun e he => he
    dsimp only
    split_ifs with henf
    · exact ⟨⟨hreg', hok⟩, iff_of_true (checksync_synced hreg') hnot⟩
    · refine ⟨⟨hreg', hok⟩, iff_of_true ?_ hnot⟩
      have hsame : Enforced mode ↔ Enforced ip.iMode := by
        have heq : isEnf mode = true ↔ isEnf ip.iMode = true := by rw [not_ne_iff.1 henf]
        simpa [isEnf, hreg, hreg', Enforced] using heq
      simpa only [Inode.Synced, hsame] using hsync
  | other q =>
    obtain rfl := Except.ok.inj hrun
    exact ⟨⟨hreg, hok⟩, iff_of_true hsync (not_dropsLast fun e he => he)⟩

/-- In a run no call of which drops the last lock of an inode whose mode hangs on its locks, the
flag `ISYNC` is always what `checksync` would make it; a call that does so leaves it wrong. -/
theorem synced_iff_not_dropsLast (h : (syncSys.restrict fun s c => ¬ DropsLast s c).Reach s) :
    s.1.Synced ∧ ∀ c s', syncSys.step s c s' → (s'.1.Synced ↔ ¬ DropsLast s c) := by
  have hinv : Sound s ∧ s.1.Synced := by
    refine h.inv (I := fun s => Sound s ∧ s.1.Synced) (fun s hs => ?_) fun s c s' _ ih hstep => ?_
    · exact ⟨⟨hs.1, hs.2.1⟩, hs.2.2⟩
    · obtain ⟨hkeep, hc, hrun⟩ := hstep
      obtain ⟨h1, h2⟩ := Call.run_spec ih.1 ih.2 hc hrun
      exact ⟨h1, h2.2 hkeep⟩
  exact ⟨hinv.2, fun c s' hstep => (Call.run_spec hinv.1 hinv.2 hstep.1 hstep.2).2⟩

end Runs

/-! ### Two sites and one lock -/

/-- A regular file in enforcement mode that two sites have open for reading. -/
def shared : Inode := ⟨0o102644, ⟨2, .array [⟨1, 1⟩, ⟨2, 1⟩]⟩, Dux.clearmap, [], false⟩

/-- Process 3 asks for the first hundred bytes. -/
def hundred : Req := ⟨⟨3, none⟩, 0, false, 0, 100, .lockf, .wrlck⟩

theorem reach_locked : (syncSys.restrict fun s c => ¬ DropsLast s c).Reach
    ({ shared with iLocklist := [freshLock hundred 7 0 100 .wrlck], isync := true },
      ⟨[], [], none, none, [.checksync]⟩) := by
  refine .step (l := .insert hundred) (.init (s := (shared, ⟨[7], [], none, none, []⟩)) ?_) ?_
  · exact ⟨by decide, grouped_nil, by decide⟩
  · exact ⟨fun h => h.1 rfl, ⟨by decide, rfl⟩, rfl⟩

/-- With the lock the file is in synchronous mode, and taking the lock away leaves it there. -/
theorem synced_iff_not_dropsLast_shared : ∃ s s' : Inode × Pool, s.1.isync = true ∧
    s.1.Synced ∧ syncSys.step s (.delete hundred) s' ∧ ¬ s'.1.Synced := by
  obtain ⟨hsync, hstep⟩ := synced_iff_not_dropsLast reach_locked
  refine ⟨_, _, rfl, hsync, ⟨⟨by decide, rfl⟩, rfl⟩, ?_⟩
  decide

/-- Process 3 locks the file and unlocks it: `ISYNC` stays set. -/
theorem delete_lock_leaves_isync : ∃ s, syncSys.Reach s ∧ s.1.iLocklist = [] ∧
    s.1.isync = true ∧ ¬ s.1.Synced := by
  refine ⟨_, .step reach_locked.of_restrict (l := .delete hundred) ⟨⟨by decide, rfl⟩, rfl⟩, ?_⟩
  decide

end LockSync

end Hpux
