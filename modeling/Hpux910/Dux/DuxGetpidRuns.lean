import Hpux910.Dux.DuxGetpid
import Mathlib

/-!
# Uniqueness of process ids

Which site has a chunk is recorded in the server's table and in the tables of the sites, and the
messages between them carry the difference.  The invariant says for every site that the chunks of its
table, those that it returns, and the one that it is about to receive are all given to it in
`pidtable`, and that its processes have their pids from chunks of its table.

* `PidSite.Owns` : the part of the invariant about the variables of a site; it is kept by
  `Owns.free`, `Owns.install`, `Owns.take`, `Owns.serve`.
* `Phase`, `NodeInv` : the allocation in progress and its messages.
* `PidCluster.Inv`, `inv_of_reach` : the invariant of the cluster and its runs.
* `pids_unique` : as long as no process comes back from `preallocate_pid_chunk` to an unavailable slot,
  pids are unique.  `pid_zero_returned` : otherwise pid 0 is returned.
-/

namespace Hpux

namespace Dux

open Function List

/-! ### The server -/

namespace PidServer

variable {t t' : PidServer} {site c firstpid size : ℕ} {lastnewpid : ℤ} {chunks : List ℕ}

/-- What `getpidchunk` gives was free or the site's, and is the site's afterwards. -/
theorem getpidchunk_some (h : t.getpidchunk site lastnewpid = some (firstpid, size, t')) :
    ∃ c, firstpid = CHUNKTOPID c ∧ size = PIDCHUNK ∧ (t.pidtable c = none ∨ t.pidtable c = some site) ∧
      t'.pidtable = update t.pidtable c (some site) := by
  unfold getpidchunk at h
  cases h1 : t.passedOver site lastnewpid with
  | some c =>
    have h2 : t.pidtable c = some site := by
      unfold passedOver at h1
      split_ifs at h1
      have h2 := find?_some h1
      simpa using h2
    simp only [h1, Option.some.injEq, Prod.mk.injEq] at h
    obtain ⟨rfl, rfl, rfl⟩ := h
    exact ⟨c, rfl, rfl, .inr h2, by rw [← h2, update_eq_self]⟩
  | none =>
    cases h2 : t.nextFree site with
    | none => simp [h1, h2] at h
    | some c =>
      simp only [h1, h2, Option.map_some, Option.some.injEq, Prod.mk.injEq] at h
      obtain ⟨rfl, rfl, rfl⟩ := h
      have h3 := find?_some h2
      exact ⟨c, rfl, rfl, by simpa using h3, rfl⟩

theorem getpidchunk_other (h : t.getpidchunk site lastnewpid = some (firstpid, size, t')) {j : ℕ}
    (hj : j ≠ site) (hc : t.pidtable c = some j) : t'.pidtable c = some j := by
  obtain ⟨d, -, -, h1, h2⟩ := getpidchunk_some h
  rw [h2, update_of_ne, hc]
  rintro rfl
  rcases h1 with h1 | h1 <;> rw [h1] at hc <;> cases hc
  exact hj rfl

theorem release_pidtable (t : PidServer) (chunks : List ℕ) (c : ℕ) : (t.release chunks).pidtable c =
      if c ∈ chunks.map PIDTOCHUNK then none else t.pidtable c := by
  unfold release
  induction chunks generalizing t with
  | nil => simp
  | cons pid chunks ih =>
    simp only [foldl_cons, ih, returnpidchunk, map_cons, mem_cons, update_apply]
    by_cases h1 : c = PIDTOCHUNK pid <;> by_cases h2 : c ∈ chunks.map PIDTOCHUNK <;> simp [h1, h2]

end PidServer

theorem pidtochunk_chunktopid (c : ℕ) : PIDTOCHUNK (CHUNKTOPID c) = c := by
  simp [PIDTOCHUNK, CHUNKTOPID, PIDCHUNK]

theorem chunktopid_inj {c d : ℕ} (h : CHUNKTOPID c = CHUNKTOPID d) : c = d := by
  rw [← pidtochunk_chunktopid c, h, pidtochunk_chunktopid]

theorem pidtochunk_eq {c pid : ℕ} :
    PIDTOCHUNK pid = c ↔ CHUNKTOPID c ≤ pid ∧ pid < CHUNKTOPID c + PIDCHUNK := by
  simp only [PIDTOCHUNK, CHUNKTOPID, PIDCHUNK]
  omega

/-! ### The variables of a site -/

namespace PidSite

variable {table table' : ℕ → Option ℕ} {s : PidSite} {i n p c : ℕ}

/-- Chunk `c` is recorded in `mypidchunks`. -/
def Holds (s : PidSite) (n c : ℕ) : Prop :=
  ∃ p < n, (s.mypidchunks p).fin ≠ 0 ∧ (s.mypidchunks p).start = CHUNKTOPID c

/-- What `currentavailpid` may point to when the chunk allocated last starts at `first`: an
unavailable slot, or a pid of the chunk that no process has. -/
def Slot (s : PidSite) (k : ℕ) : Prop :=
  s.availpids k = 0 ∨
    s.lastnewpid + k = s.availpids k ∧ k < PIDCHUNK ∧ PID_MAXSYS < s.availpids k ∧
      s.availpids k ∉ s.proc

/-- The chunks of the site are the site's in the server's table, its processes have pids of them, and
the available pids are those of the last one. -/
structure Owns (table : ℕ → Option ℕ) (i n : ℕ) (s : PidSite) : Prop where
  recorded : ∀ p < n, (s.mypidchunks p).fin ≠ 0 → ∃ c, (s.mypidchunks p).start = CHUNKTOPID c ∧
    (s.mypidchunks p).fin = CHUNKTOPID c + PIDCHUNK ∧ table c = some i
  apart : ∀ p < n, ∀ q < n, (s.mypidchunks p).fin ≠ 0 → (s.mypidchunks q).fin ≠ 0 →
    (s.mypidchunks p).start = (s.mypidchunks q).start → p = q
  last : 0 ≤ s.lastnewpid → ∃ c, s.lastnewpid = CHUNKTOPID c ∧ s.Holds n c
  filled : s.currentavailpid < s.lastavailpid → 0 ≤ s.lastnewpid
  avail : ∀ k, s.currentavailpid ≤ k → k < s.lastavailpid → s.Slot k
  nodup : s.proc.Nodup
  held : ∀ pid ∈ s.proc, PID_MAXSYS < pid ∧ s.Holds n (PIDTOCHUNK pid)

theorem Owns.table_eq (h : Owns table i n s) (hc : s.Holds n c) : table c = some i := by
  obtain ⟨p, hp, h1, h2⟩ := hc
  obtain ⟨d, h3, -, h4⟩ := h.recorded p hp h1
  rwa [chunktopid_inj (h2.symm.trans h3)]

theorem Owns.mono (h : Owns table i n s) (ht : ∀ c, s.Holds n c → table' c = some i) :
    Owns table' i n s := by
  refine ⟨fun p hp h1 => ?_, h.apart, h.last, h.filled, h.avail, h.nodup, h.held⟩
  obtain ⟨c, h2, h3, -⟩ := h.recorded p hp h1
  exact ⟨c, h2, h3, ht c ⟨p, hp, h1, h2⟩⟩

theorem Owns.boot : Owns table i n boot where
  recorded := fun _ _ h => (h rfl).elim
  apart := fun _ _ _ _ h => (h rfl).elim
  last := fun h => absurd h (by decide)
  filled := fun h => absurd h (by decide)
  avail := fun k _ h => absurd h k.not_lt_zero
  nodup := nodup_nil
  held := fun _ h => (not_mem_nil h).elim

theorem skipZeros_spec (availpids : ℕ → ℕ) (n cur : ℕ) : cur ≤ skipZeros availpids n cur ∧
      (skipZeros availpids n cur < cur + n → availpids (skipZeros availpids n cur) ≠ 0) := by
  induction n generalizing cur with
  | zero => exact ⟨le_rfl, fun h => (lt_irrefl _ h).elim⟩
  | succ n ih =>
    unfold skipZeros
    split_ifs with h
    · obtain ⟨h1, h2⟩ := ih (cur + 1)
      exact ⟨by omega, fun h3 => h2 (by omega)⟩
    · exact ⟨le_rfl, fun _ => h⟩

theorem Owns.advance (h : Owns table i n s) {k : ℕ} (hk : s.currentavailpid ≤ k) :
    Owns table i n { s with currentavailpid := k } where
  recorded := h.recorded
  apart := h.apart
  last := h.last
  filled := fun h1 => h.filled (hk.trans_lt h1)
  avail := fun j h1 h2 => h.avail j (hk.trans h1) h2
  nodup := h.nodup
  held := h.held

theorem Owns.skip (h : Owns table i n s) : Owns table i n s.skip :=
  h.advance (skipZeros_spec _ _ _).1

theorem skip_slot (s : PidSite) (h : s.skip.currentavailpid < s.skip.lastavailpid) :
    s.skip.availpids s.skip.currentavailpid ≠ 0 := by
  have h1 : s.skip.currentavailpid < s.lastavailpid := h
  obtain ⟨h2, h3⟩ := skipZeros_spec s.availpids (s.lastavailpid - s.currentavailpid)
    s.currentavailpid
  refine h3 (lt_of_lt_of_le h1 ?_)
  omega

/-- A pid of the process table is not in a chunk that can be released. -/
def Unused (s : PidSite) (p : ℕ) : Prop :=
  (s.mypidchunks p).fin ≠ 0 ∧ s.lastnewpid ≠ (s.mypidchunks p).start ∧
    ∀ pid ∈ s.proc, ¬((s.mypidchunks p).start ≤ pid ∧ pid < (s.mypidchunks p).fin)

theorem Releasable.unused (h : s.Releasable p) : s.Unused p :=
  ⟨h.1, h.2.1, fun pid hp => h.2.2 pid (mem_append_right _ hp)⟩

theorem free_chunks (s : PidSite) (p q : ℕ) (hq : ((s.free p).mypidchunks q).fin ≠ 0) :
    q ≠ p ∧ (s.free p).mypidchunks q = s.mypidchunks q := by
  by_cases h : q = p
  · subst h
    simp [PidSite.free] at hq
  · exact ⟨h, update_of_ne h _ _⟩

theorem Holds.free (h : s.Holds n c) (hp : (s.mypidchunks p).start ≠ CHUNKTOPID c) :
    (s.free p).Holds n c := by
  obtain ⟨q, hq, h1, h2⟩ := h
  have h3 : q ≠ p := by
    rintro rfl
    exact hp h2
  have h4 : (s.free p).mypidchunks q = s.mypidchunks q := update_of_ne h3 _ _
  exact ⟨q, hq, by rwa [h4], by rwa [h4]⟩

theorem Holds.of_free (h : (s.free p).Holds n c) : s.Holds n c := by
  obtain ⟨q, hq, h1, h2⟩ := h
  obtain ⟨-, h4⟩ := free_chunks s p q h1
  exact ⟨q, hq, by rwa [← h4], by rwa [← h4]⟩

/-- An unused chunk that is given up is not recorded any more, and nothing else is lost. -/
theorem Owns.free (h : Owns table i n s) (hp : p < n) (hu : s.Unused p) :
    Owns table i n (s.free p) ∧ ∃ c, (s.mypidchunks p).start = CHUNKTOPID c ∧
      table c = some i ∧ ¬(s.free p).Holds n c := by
  obtain ⟨c, h1, h2, h3⟩ := h.recorded p hp hu.1
  refine ⟨⟨fun q hq hf => ?_, fun q hq r hr hf hg he => ?_, fun hl => ?_, h.filled, h.avail, h.nodup,
    fun pid hpid => ?_⟩, c, h1, h3, ?_⟩
  · obtain ⟨-, hq'⟩ := free_chunks s p q hf
    rw [hq'] at hf ⊢
    exact h.recorded q hq hf
  · obtain ⟨-, hq'⟩ := free_chunks s p q hf
    obtain ⟨-, hr'⟩ := free_chunks s p r hg
    rw [hq'] at hf he
    rw [hr'] at hg he
    exact h.apart q hq r hr hf hg he
  · obtain ⟨d, h4, h5⟩ := h.last hl
    refine ⟨d, h4, h5.free fun h6 => hu.2.1 ?_⟩
    rw [h6]
    exact h4
  · obtain ⟨h4, h5⟩ := h.held pid hpid
    refine ⟨h4, h5.free fun h6 => hu.2.2 pid hpid ?_⟩
    rw [h1, h2]
    exact pidtochunk_eq.1 (chunktopid_inj (h1.symm.trans h6)).symm
  · rintro ⟨q, hq, hf, hs⟩
    obtain ⟨h4, h5⟩ := free_chunks s p q hf
    rw [h5] at hf hs
    exact h4 (h.apart q hq p hp hf hu.1 (hs.trans h1.symm))

/-- `neednewchunk` finds the entry of the chunk, or that there is none and a free entry. -/
theorem lookup_spec (s : PidSite) (firstpid n : ℕ) (avail : Option ℕ) :
    (∀ p, (s.lookup firstpid n avail).1 = some p →
      p < n ∧ (s.mypidchunks p).fin ≠ 0 ∧ (s.mypidchunks p).start = firstpid) ∧
    ((s.lookup firstpid n avail).1 = none →
      (∀ p < n, (s.mypidchunks p).fin ≠ 0 → (s.mypidchunks p).start ≠ firstpid) ∧
      ∀ p, (s.lookup firstpid n avail).2 = some p →
        avail = some p ∨ p < n ∧ (s.mypidchunks p).fin = 0) := by
  induction n generalizing avail with
  | zero => exact ⟨nofun, fun _ => ⟨nofun, fun p hp => .inl hp⟩⟩
  | succ n ih =>
    unfold lookup
    split_ifs with h1 h2
    · obtain ⟨h3, h4⟩ := ih (some n)
      refine ⟨fun p hp => ?_, fun hn => ⟨fun p hp hf => ?_, fun p hp => .inr ?_⟩⟩
      · exact ⟨(h3 p hp).1.trans n.lt_succ_self, (h3 p hp).2⟩
      · exact (h4 hn).1 p (by grind) hf
      · rcases (h4 hn).2 p hp with h5 | ⟨h5, h6⟩
        · obtain rfl := Option.some.inj h5
          exact ⟨n.lt_succ_self, h1⟩
        · exact ⟨h5.trans n.lt_succ_self, h6⟩
    · refine ⟨fun p hp => ?_, nofun⟩
      obtain rfl := Option.some.inj hp
      exact ⟨n.lt_succ_self, h1, h2⟩
    · obtain ⟨h3, h4⟩ := ih avail
      refine ⟨fun p hp => ?_, fun hn => ⟨fun p hp hf => ?_, fun p hp => ?_⟩⟩
      · exact ⟨(h3 p hp).1.trans n.lt_succ_self, (h3 p hp).2⟩
      · rcases Nat.lt_succ_iff_lt_or_eq.1 hp with h5 | rfl
        · exact (h4 hn).1 p h5 hf
        · exact h2
      · rcases (h4 hn).2 p hp with h5 | ⟨h5, h6⟩
        · exact .inl h5
        · exact .inr ⟨h5.trans n.lt_succ_self, h6⟩

/-- The slots that `neednewchunk` fills: the chunk is recorded if it was found, and holds no process
otherwise. -/
theorem fill_slot (s : PidSite) (found : Bool) (c : ℕ)
    (hc : found = false → ∀ pid ∈ s.proc, PIDTOCHUNK pid ≠ c) (k : ℕ)
    (h1 : (s.fill found (CHUNKTOPID c) PIDCHUNK).currentavailpid ≤ k) (h2 : k < PIDCHUNK) :
    (s.fill found (CHUNKTOPID c) PIDCHUNK).Slot k := by
  by_cases h3 : found ∧ CHUNKTOPID c + k ∈ s.pids
  · left
    simp [fill, h2, h3]
  right
  have h4 : (s.fill found (CHUNKTOPID c) PIDCHUNK).availpids k = CHUNKTOPID c + k := by
    simp only [fill, h2, if_true, h3, if_false]
  rw [h4]
  refine ⟨by simp [fill], h2, ?_, fun h5 => ?_⟩
  · have h5 : (if c * 50 = 0 then 7 else 0) ≤ k := h1
    simp only [PID_MAXSYS, CHUNKTOPID, PIDCHUNK]
    split_ifs at h5 with h6 <;> omega
  · cases found with
    | false => exact hc rfl _ h5 (pidtochunk_eq.2 ⟨by omega, by omega⟩)
    | true => exact h3 ⟨rfl, mem_append_right _ h5⟩

/-- A chunk that the server gave to the site is installed. -/
theorem Owns.install (h : Owns table i n s) (hc : table c = some i) {s' : PidSite}
    (hs : s.install n (CHUNKTOPID c) PIDCHUNK = some s') :
    Owns table i n s' ∧ s'.pidAllocInitiated = s.pidAllocInitiated ∧
      s'.pidAllocComplete = s.pidAllocComplete ∧ s'.preallocating = s.preallocating := by
  obtain ⟨h1, h2⟩ := lookup_spec s (CHUNKTOPID c) n none
  unfold PidSite.install at hs
  cases hl : s.lookup (CHUNKTOPID c) n none with
  | mk found avail =>
    rw [hl] at hs h1 h2
    cases found with
    | some p =>
      obtain rfl := Option.some.inj hs
      obtain ⟨h3, h4, h5⟩ := h1 p rfl
      refine ⟨⟨h.recorded, h.apart, fun _ => ⟨c, rfl, p, h3, h4, h5⟩, fun _ => Int.natCast_nonneg _,
        fun k hk hk' => s.fill_slot true c (fun hf => by cases hf) k hk hk', h.nodup, h.held⟩, rfl, rfl, rfl⟩
    | none =>
      obtain ⟨h3, h4⟩ := h2 rfl
      cases avail with
      | none => cases hs
      | some p =>
        obtain rfl := Option.some.inj hs
        obtain ⟨h5, h6⟩ := (h4 p rfl).resolve_left nofun
        -- the chunk was not recorded, so no process has a pid of it
        have h7 : ∀ pid ∈ s.proc, PIDTOCHUNK pid ≠ c := by
          rintro pid hpid rfl
          obtain ⟨-, q, hq, hf, hst⟩ := h.held pid hpid
          exact h3 q hq hf hst
        have h8 : ∀ d, s.Holds n d → PidSite.Holds { s.fill false (CHUNKTOPID c) PIDCHUNK with
            mypidchunks := update s.mypidchunks p ⟨CHUNKTOPID c, CHUNKTOPID c + PIDCHUNK⟩ } n d := by
          rintro d ⟨q, hq, hf, hst⟩
          have h9 : q ≠ p := by
            rintro rfl
            exact hf h6
          exact ⟨q, hq, by simpa [h9] using hf, by simpa [h9] using hst⟩
        refine ⟨⟨fun q hq hf => ?_, fun q hq r hr hf hg he => ?_,
          fun _ => ⟨c, rfl, p, h5, by simp [PIDCHUNK], by simp⟩, fun _ => Int.natCast_nonneg _,
          fun k hk hk' => s.fill_slot false c (fun _ => h7) k hk hk', h.nodup,
          fun pid hpid => ⟨(h.held pid hpid).1, h8 _ (h.held pid hpid).2⟩⟩, rfl, rfl, rfl⟩
        · by_cases h9 : q = p
          · subst h9
            exact ⟨c, by simp, by simp, hc⟩
          · simp only [update_of_ne h9] at hf ⊢
            exact h.recorded q hq hf
        · by_cases h9 : q = p <;> by_cases h10 : r = p
          · rw [h9, h10]
          · subst h9
            simp only [update_self, update_of_ne h10] at hg he
            exact (h3 r hr hg he.symm).elim
          · subst h10
            simp only [update_self, update_of_ne h9] at hf he
            exact (h3 q hq hf he).elim
          · simp only [update_of_ne h9, update_of_ne h10] at hf hg he
            exact h.apart q hq r hr hf hg he

/-- An available pid is returned, and perhaps entered. -/
theorem Owns.take (h : Owns table i n s) (hlt : s.currentavailpid < s.lastavailpid)
    (hne : s.availpids s.currentavailpid ≠ 0) : PID_MAXSYS < s.availpids s.currentavailpid ∧
      Owns table i n { s with
        currentavailpid := s.currentavailpid + 1
        proc := s.availpids s.currentavailpid :: s.proc } := by
  obtain ⟨h1, h2, h3, h4⟩ := (h.avail _ le_rfl hlt).resolve_left hne
  obtain ⟨c, h5, h6⟩ := h.last (h.filled hlt)
  have h7 : PIDTOCHUNK (s.availpids s.currentavailpid) = c := by
    rw [h5] at h1
    exact pidtochunk_eq.2 ⟨by omega, by omega⟩
  refine ⟨h3, h.recorded, h.apart, h.last, fun hl => h.filled hlt, fun k hk hk' => ?_,
    nodup_cons.2 ⟨h4, h.nodup⟩, fun pid hpid => ?_⟩
  · rcases h.avail k (Nat.le_of_succ_le hk) hk' with h8 | ⟨h8, h9, h10, h11⟩
    · exact .inl h8
    · refine .inr ⟨h8, h9, h10, fun h12 => ?_⟩
      rcases mem_cons.1 h12 with h13 | h13
      · have h14 : s.availpids k = s.availpids s.currentavailpid := h13
        have h15 : s.currentavailpid + 1 ≤ k := hk
        omega
      · exact h11 h13
  · rcases mem_cons.1 hpid with rfl | h8
    · exact ⟨h3, h7 ▸ h6⟩
    · exact h.held pid h8

theorem Owns.exit (h : Owns table i n s) (pid : ℕ) :
    Owns table i n { s with proc := s.proc.erase pid } where
  recorded := h.recorded
  apart := h.apart
  last := h.last
  filled := h.filled
  avail := fun k h1 h2 => (h.avail k h1 h2).imp_right fun ⟨h3, h4, h5, h6⟩ =>
    ⟨h3, h4, h5, fun h7 => h6 (mem_of_mem_erase h7)⟩
  nodup := h.nodup.erase _
  held := fun q hq => h.held q (mem_of_mem_erase hq)

/-- The variables that `Owns` is about. -/
def core (s : PidSite) : (ℕ → PidChunk) × ℤ × ℕ × ℕ × (ℕ → ℕ) × List ℕ :=
  (s.mypidchunks, s.lastnewpid, s.currentavailpid, s.lastavailpid, s.availpids, s.proc)

theorem Owns.congr (h : Owns table i n s) {s' : PidSite} (hs : s'.core = s.core) :
    Owns table i n s' := by
  cases s
  cases s'
  simp only [core, Prod.mk.injEq] at hs
  obtain ⟨rfl, rfl, rfl, rfl, rfl, rfl⟩ := hs
  exact ⟨h.recorded, h.apart, h.last, h.filled, h.avail, h.nodup, h.held⟩

/-- A pid of the last chunk is in no chunk that can be released. -/
theorem Owns.unused_take (h : Owns table i n s) (hlt : s.currentavailpid < s.lastavailpid)
    (hne : s.availpids s.currentavailpid ≠ 0) (hp : p < n) (hu : s.Unused p) (k : ℕ) :
    Unused { s with
      currentavailpid := k
      proc := s.availpids s.currentavailpid :: s.proc } p := by
  refine ⟨hu.1, hu.2.1, fun pid hpid => ?_⟩
  rcases mem_cons.1 hpid with rfl | h1
  · obtain ⟨h2, h3, -⟩ := (h.avail _ le_rfl hlt).resolve_left hne
    obtain ⟨c, h4, -⟩ := h.last (h.filled hlt)
    obtain ⟨d, h5, h6, -⟩ := h.recorded p hp hu.1
    have h7 := hu.2.1
    simp only [CHUNKTOPID, PIDCHUNK] at *
    omega
  · exact hu.2.2 pid h1

end PidSite

/-! ### A site and its messages -/

/-- How far an allocation has come: the process in `preallocate_pid_chunk`, the messages on their way,
and the flags `pid_alloc_initiated` and `pid_alloc_complete`. -/
inductive Phase : Option Preallocation → List PidRequest → List PidReply → Bool → Bool → Prop
  | idle : Phase none [] [] false false
  | alloc : Phase (some .alloc) [] [] true false
  | scan (p : ℕ) (chunks : List ℕ) : Phase (some (.scan p chunks)) [] [] true false
  | releasing (p : ℕ) (chunks : List ℕ) :
      Phase (some (.release p)) [.releasepids chunks] [] true false
  | released (p : ℕ) : Phase (some (.release p)) [] [.released] true false
  /-- The site has failed. -/
  | lost (p : ℕ) : Phase (some (.release p)) [] [] true false
  | requested (lastnewpid : ℤ) (chunks : List ℕ) :
      Phase none [.getpids lastnewpid chunks] [] true false
  | refused : Phase none [] [.eagain] true false
  | granted (firstpid size : ℕ) : Phase none [] [.chunk firstpid size] true false
  /-- The site has failed. -/
  | unanswered : Phase none [] [] true false
  | complete : Phase none [] [] true true

variable {a : Option Preallocation} {q : List PidRequest} {r : List PidReply} {b c : Bool}

theorem Phase.completed (h : Phase a q r b c) (hc : c = true) : a = none ∧ q = [] ∧ r = [] := by
  subst hc
  cases h
  exact ⟨rfl, rfl, rfl⟩

theorem Phase.of_releasepids {chunks : List ℕ} (h : Phase a (.releasepids chunks :: q) r b c) :
    (∃ p, a = some (.release p)) ∧ q = [] ∧ r = [] ∧ b = true ∧ c = false := by
  cases h
  exact ⟨⟨_, rfl⟩, rfl, rfl, rfl, rfl⟩

theorem Phase.of_getpids {lastnewpid : ℤ} {chunks : List ℕ}
    (h : Phase a (.getpids lastnewpid chunks :: q) r b c) :
    a = none ∧ q = [] ∧ r = [] ∧ b = true ∧ c = false := by
  cases h
  exact ⟨rfl, rfl, rfl, rfl, rfl⟩

theorem Phase.of_reply {m : PidReply} (h : Phase a q (m :: r) b c) :
    q = [] ∧ r = [] ∧ b = true ∧ c = false ∧ (m ≠ .released → a = none) := by
  cases h with
  | released => exact ⟨rfl, rfl, rfl, rfl, fun h => (h rfl).elim⟩
  | refused | granted => exact ⟨rfl, rfl, rfl, rfl, fun _ => rfl⟩

/-- The chunks that a request returns. -/
def PidRequest.chunks : PidRequest → List ℕ
  | .releasepids chunks => chunks
  | .getpids _ chunks => chunks

/-- The chunks collected so far for a request. -/
def Preallocation.chunks : Preallocation → List ℕ
  | .scan _ chunks => chunks
  | _ => []

namespace PidNode

/-- The chunks that the site has given up and the server has not got back. -/
def returning (x : PidNode) : List ℕ :=
  x.vars.preallocating.elim [] Preallocation.chunks ++ x.toServer.flatMap PidRequest.chunks

/-- A chunk on its way to the site, or arrived and not yet installed. -/
def Granted (x : PidNode) (firstpid size : ℕ) : Prop :=
  .chunk firstpid size ∈ x.toClient ∨
    x.vars.pidAllocComplete = true ∧ x.vars.pidAllocError = false ∧
      firstpid = x.vars.pidAllocFirst ∧ size = x.vars.pidAllocSize

end PidNode

/-- What holds of a site, its messages and the server's table. -/
structure NodeInv (table : ℕ → Option ℕ) (i n : ℕ) (x : PidNode) : Prop where
  owns : x.vars.Owns table i n
  phase : Phase x.vars.preallocating x.toServer x.toClient x.vars.pidAllocInitiated
    x.vars.pidAllocComplete
  returning : ∀ pid ∈ x.returning, ∃ c, pid = CHUNKTOPID c ∧ table c = some i ∧ ¬x.vars.Holds n c
  granted : ∀ firstpid size, x.Granted firstpid size →
    ∃ c, firstpid = CHUNKTOPID c ∧ size = PIDCHUNK ∧ table c = some i
  scanning : ∀ p chunks, x.vars.preallocating = some (.scan p chunks) → p ≤ n
  releasing : ∀ p, x.vars.preallocating = some (.release p) → p < n ∧ x.vars.Unused p

namespace NodeInv

variable {table table' : ℕ → Option ℕ} {x : PidNode} {v : PidSite} {i n p c : ℕ}

/-- The table may give more to the site. -/
theorem mono (h : NodeInv table i n x) (ht : ∀ c, table c = some i → table' c = some i) :
    NodeInv table' i n x where
  owns := h.owns.mono fun c hc => ht c (h.owns.table_eq hc)
  phase := h.phase
  returning := fun pid hp => by
    obtain ⟨c, h1, h2, h3⟩ := h.returning pid hp
    exact ⟨c, h1, ht c h2, h3⟩
  granted := fun firstpid size hg => by
    obtain ⟨c, h1, h2, h3⟩ := h.granted firstpid size hg
    exact ⟨c, h1, h2, ht c h3⟩
  scanning := h.scanning
  releasing := h.releasing

theorem out : NodeInv table i n .out where
  owns := .boot
  phase := .idle
  returning := nofun
  granted := fun _ _ h => by rcases h with h | ⟨h, -⟩ <;> cases h
  scanning := nofun
  releasing := nofun

theorem setVars (h : NodeInv table i n x) (hv : v.Owns table i n) (he : v = { v with
      preallocating := x.vars.preallocating
      pidAllocInitiated := x.vars.pidAllocInitiated, pidAllocComplete := x.vars.pidAllocComplete
      pidAllocError := x.vars.pidAllocError, pidAllocFirst := x.vars.pidAllocFirst
      pidAllocSize := x.vars.pidAllocSize, mypidchunks := x.vars.mypidchunks })
    (hu : ∀ p < n, x.vars.Unused p → v.Unused p) : NodeInv table i n { x with vars := v } := by
  rw [he] at hv hu ⊢
  exact ⟨hv, h.phase, h.returning, h.granted, h.scanning, fun p hp =>
    ⟨(h.releasing p hp).1, hu p (h.releasing p hp).1 (h.releasing p hp).2⟩⟩

/-- No allocation is in progress. -/
theorem idle (hv : v.Owns table i n) (h1 : v.preallocating = none)
    (h2 : v.pidAllocInitiated = false) (h3 : v.pidAllocComplete = false) (h4 : x.toServer = [])
    (h5 : x.toClient = []) : NodeInv table i n { x with vars := v } where
  owns := hv
  phase := by
    dsimp only
    rw [h1, h2, h3, h4, h5]
    exact .idle
  returning := by
    simp [PidNode.returning, h1, h4]
  granted := fun firstpid size h => by
    rcases h with h | ⟨h, -⟩
    · have h6 : .chunk firstpid size ∈ x.toClient := h
      rw [h5] at h6
      cases h6
    · exact Bool.noConfusion (h3.symm.trans h)
  scanning := fun p chunks h => by cases h1.symm.trans h
  releasing := fun p h => by cases h1.symm.trans h

/-- There is no reply. -/
theorem of_request (hv : x.vars.Owns table i n)
    (hp : Phase x.vars.preallocating x.toServer [] x.vars.pidAllocInitiated false)
    (h0 : x.toClient = []) (h1 : x.vars.pidAllocComplete = false)
    (h2 : ∀ pid ∈ x.returning, ∃ c, pid = CHUNKTOPID c ∧ table c = some i ∧ ¬x.vars.Holds n c)
    (h3 : ∀ p chunks, x.vars.preallocating = some (.scan p chunks) → p ≤ n)
    (h4 : ∀ p, x.vars.preallocating = some (.release p) → p < n ∧ x.vars.Unused p) :
    NodeInv table i n x where
  owns := hv
  phase := by rwa [h0, h1]
  returning := h2
  granted := fun firstpid size h => by
    rcases h with h | ⟨h, -⟩
    · rw [h0] at h
      cases h
    · exact Bool.noConfusion (h1.symm.trans h)
  scanning := h3
  releasing := h4

theorem quiet (h : NodeInv table i n x) (h0 : x.vars.pidAllocInitiated = false) :
    x.vars.preallocating = none ∧ x.toServer = [] ∧ x.toClient = [] ∧
      x.vars.pidAllocComplete = false := by
  have h1 := h.phase
  rw [h0] at h1
  generalize x.vars.preallocating = p, x.toServer = q, x.toClient = r,
    x.vars.pidAllocComplete = b at h1
  cases h1
  exact ⟨rfl, rfl, rfl, rfl⟩

theorem busy (h : NodeInv table i n x) {a : Preallocation} (ha : x.vars.preallocating = some a) :
    x.vars.pidAllocInitiated = true ∧ x.vars.pidAllocComplete = false ∧
      ((∀ p, a ≠ .release p) → x.toServer = [] ∧ x.toClient = []) := by
  have h1 := h.phase
  rw [ha] at h1
  generalize x.toServer = q, x.toClient = r, x.vars.pidAllocComplete = b,
    x.vars.pidAllocInitiated = d at h1
  cases h1 with
  | alloc | scan => exact ⟨rfl, rfl, fun _ => ⟨rfl, rfl⟩⟩
  | releasing p | released p | lost p => exact ⟨rfl, rfl, fun h2 => (h2 p rfl).elim⟩

theorem collected (h : NodeInv table i n x) {chunks : List ℕ}
    (ha : x.vars.preallocating = some (.scan p chunks)) :
    ∀ pid ∈ chunks, ∃ c, pid = CHUNKTOPID c ∧ table c = some i ∧ ¬x.vars.Holds n c := by
  intro pid hpid
  refine h.returning pid (mem_append_left _ ?_)
  rwa [ha]

end NodeInv

/-! ### The steps -/

namespace PidCluster

variable {root : ℕ} {nproc : ℕ → ℕ} {s s' : PidCluster} {i n p : ℕ} {x : PidNode} {v : PidSite}
variable {conflict enter : Bool}

/-- The invariant of the cluster. -/
structure Inv (root : ℕ) (nproc : ℕ → ℕ) (s : PidCluster) : Prop where
  node : ∀ i, NodeInv s.server.pidtable i (nproc i) (s.node i)
  root : (s.node root).vars.pidAllocInitiated = false
  returned : ∀ pid ∈ s.returned, PID_MAXSYS < pid

/-- One site changes, and the table as the other sites allow. -/
theorem Inv.update (hs : s.Inv root nproc) (t : PidServer) (hx : NodeInv t.pidtable i (nproc i) x)
    (ht : ∀ j ≠ i, ∀ c, s.server.pidtable c = some j → t.pidtable c = some j)
    (hr : i = root → x.vars.pidAllocInitiated = false) :
    Inv root nproc { s.set i x with server := t } := by
  refine ⟨fun j => ?_, ?_, hs.returned⟩
  · by_cases hj : j = i
    · subst hj
      simpa [set] using hx
    · have h1 := (hs.node j).mono (ht j hj)
      simpa [set, hj] using h1
  · by_cases hj : root = i
    · subst hj
      simpa [set] using hr rfl
    · simpa [set, hj] using hs.root

theorem Inv.set (hs : s.Inv root nproc) (hx : NodeInv s.server.pidtable i (nproc i) x)
    (hr : i = root → x.vars.pidAllocInitiated = false) : Inv root nproc (s.set i x) :=
  hs.update s.server hx (fun _ _ _ h => h) hr

theorem release_other {t : PidServer} {chunks : List ℕ} {j : ℕ} (hj : j ≠ i)
    (h : ∀ pid ∈ chunks, ∃ c, pid = CHUNKTOPID c ∧ t.pidtable c = some i) (c : ℕ)
    (hc : t.pidtable c = some j) : (t.release chunks).pidtable c = some j := by
  rw [PidServer.release_pidtable, if_neg, hc]
  rintro hm
  obtain ⟨pid, hpid, rfl⟩ := mem_map.1 hm
  obtain ⟨d, rfl, hd⟩ := h pid hpid
  rw [pidtochunk_chunktopid, hd] at hc
  exact hj (Option.some.inj hc).symm

theorem release_held {t : PidServer} {chunks : List ℕ} {c : ℕ}
    (h : ∀ pid ∈ chunks, ∃ d, pid = CHUNKTOPID d ∧ d ≠ c) :
    (t.release chunks).pidtable c = t.pidtable c := by
  rw [PidServer.release_pidtable, if_neg]
  rintro hm
  obtain ⟨pid, hpid, hc⟩ := mem_map.1 hm
  obtain ⟨d, rfl, hd⟩ := h pid hpid
  rw [pidtochunk_chunktopid] at hc
  exact hd hc

/-- The loop of the server over its own chunks. -/
theorem releasefreepidchunks_ok {t : PidServer} (hp : p ≤ n) (h : v.Owns t.pidtable i n) :
    (v.releasefreepidchunks p t).1.Owns (v.releasefreepidchunks p t).2.pidtable i n ∧
      (∀ j ≠ i, ∀ c, t.pidtable c = some j → (v.releasefreepidchunks p t).2.pidtable c = some j) ∧
      ∃ m, (v.releasefreepidchunks p t).1 = { v with mypidchunks := m } := by
  induction p generalizing v t with
  | zero => exact ⟨h, fun _ _ _ hc => hc, v.mypidchunks, rfl⟩
  | succ p ih =>
    unfold PidSite.releasefreepidchunks
    split_ifs with h1
    · obtain ⟨h2, c, h3, h4, h5⟩ := h.free (Nat.lt_of_succ_le hp) h1.unused
      have ht : ∀ d, d ≠ c → (t.returnpidchunk (v.mypidchunks p).start).pidtable d =
          t.pidtable d := fun d hd => by
        rw [h3]
        simp [PidServer.returnpidchunk, pidtochunk_chunktopid, hd]
      have h6 : (v.free p).Owns (t.returnpidchunk (v.mypidchunks p).start).pidtable i n :=
        h2.mono fun d hd => by
          rw [ht d fun he => h5 (he ▸ hd)]
          exact h2.table_eq hd
      obtain ⟨h7, h8, m, h9⟩ := ih (Nat.le_of_succ_le hp) h6
      refine ⟨h7, fun j hj d hd => h8 j hj d ?_, m, h9⟩
      rw [ht d fun he => ?_, hd]
      rw [he, h4] at hd
      exact hj (Option.some.inj hd).symm
    · exact ih (Nat.le_of_succ_le hp) h

/-- `neednewchunk` on the server. -/
theorem Inv.neednewchunk (hs : s.Inv root nproc)
    (hx : NodeInv s.server.pidtable root (nproc root) { s.node root with vars := v })
    (hv : v.pidAllocInitiated = false) (h : s.neednewchunk root nproc v = some s') :
    Inv root nproc s' := by
  obtain ⟨h1, h2, h3, h4⟩ := hx.quiet hv
  obtain ⟨h5, h6, m, h7⟩ := releasefreepidchunks_ok le_rfl hx.owns
  unfold PidCluster.neednewchunk at h
  revert h h5 h6 h7
  generalize v.releasefreepidchunks (nproc root) s.server = r
  rintro h h5 h6 h7
  dsimp only at h
  have hr1 : r.1.preallocating = none := by rw [h7]; exact h1
  have hr2 : r.1.pidAllocInitiated = false := by rw [h7]; exact hv
  have hr3 : r.1.pidAllocComplete = false := by rw [h7]; exact h4
  cases hg : r.2.getpidchunk root r.1.lastnewpid with
  | none =>
    rw [hg] at h
    obtain rfl := Option.some.inj h
    exact hs.update r.2 (.idle h5 hr1 hr2 hr3 h2 h3) h6 fun _ => hr2
  | some q =>
    obtain ⟨firstpid, size, t⟩ := q
    rw [hg] at h
    obtain ⟨c, rfl, rfl, h8, h9⟩ := PidServer.getpidchunk_some hg
    obtain ⟨v', hi, rfl⟩ := Option.map_eq_some_iff.1 h
    have hown : r.1.Owns t.pidtable root (nproc root) := h5.mono fun d hd => by
      rw [h9, update_apply]
      split_ifs
      · rfl
      · exact h5.table_eq hd
    obtain ⟨h10, h11, h12, h13⟩ := hown.install (by rw [h9, update_self]) hi
    exact hs.update t (.idle h10 (h13.trans hr1) (h11.trans hr2) (h12.trans hr3) h2 h3)
      (fun j hj d hd => PidServer.getpidchunk_other hg hj (h6 j hj d hd)) fun _ => h11.trans hr2

/-- `dux_getnewpid` past the place where it may have slept, at an available slot. -/
theorem Inv.getnewpid (hs : s.Inv root nproc)
    (hx : NodeInv s.server.pidtable i (nproc i) { s.node i with vars := v })
    (hr : i = root → v.pidAllocInitiated = false)
    (hne : v.currentavailpid < v.lastavailpid → v.availpids v.currentavailpid ≠ 0)
    (h : s.getnewpid root nproc i conflict enter v = some s') : Inv root nproc s' := by
  unfold PidCluster.getnewpid at h
  split_ifs at h with h1 h2
  · subst h2
    exact hs.neednewchunk hx (hr rfl) h
  · obtain rfl := Option.some.inj h
    unfold getpreallocatedpidchunk
    split_ifs
    · exact hs.set (hx.setVars (hx.owns.congr rfl) rfl fun _ _ h => h) fun hi => hr hi
    · exact hs.set (hx.setVars (hx.owns.congr rfl) rfl fun _ _ h => h) fun hi => hr hi
  · obtain rfl := Option.some.inj h
    have hlt := not_le.1 h1
    obtain ⟨h3, h4⟩ := hx.owns.take hlt (hne hlt)
    have h5 : v.Owns s.server.pidtable i (nproc i) := hx.owns
    unfold take
    dsimp only
    cases conflict
    · have h7 : Inv root nproc (s.setVars i { v with
          currentavailpid := v.currentavailpid + 1
          proc := if enter then v.availpids v.currentavailpid :: v.proc else v.proc }) := by
        refine hs.set ?_ fun hi => hr hi
        cases enter
        · exact hx.setVars (h5.advance (Nat.le_succ _)) rfl fun _ _ h => h
        · exact hx.setVars h4 rfl fun p hp hu => h5.unused_take hlt (hne hlt) hp hu _
      exact ⟨h7.node, h7.root, forall_mem_cons.2 ⟨h3, hs.returned⟩⟩
    · exact hs.set (hx.setVars (h5.advance (Nat.le_succ _)) rfl fun _ _ h => h) fun hi => hr hi

theorem Inv.fork (hs : s.Inv root nproc) (h : s.fork root nproc i conflict enter = some s') :
    Inv root nproc s' := by
  have hx := hs.node i
  have hskip : NodeInv s.server.pidtable i (nproc i)
      { s.node i with vars := (s.node i).vars.skip } :=
    hx.setVars hx.owns.skip rfl fun _ _ h => h
  unfold PidCluster.fork at h
  dsimp only at h
  split_ifs at h with h1
  · obtain rfl := Option.some.inj h
    obtain ⟨hne, h2, -⟩ := h1
    obtain ⟨h3, h4, h5, h6⟩ := hskip.quiet h2
    refine hs.set (.of_request (hskip.owns.congr rfl) ?_ h5 h6 ?_ nofun nofun) fun hi => (hne hi).elim
    · have h7 : (s.node i).toServer = [] := h4
      rw [h7]
      exact .alloc
    · have h7 : (s.node i).toServer = [] := h4
      simp [PidNode.returning, Preallocation.chunks, h7]
  · refine hs.getnewpid hskip (fun hi => ?_) (PidSite.skip_slot _) h
    subst hi
    exact hs.root

theorem Inv.allocate (hs : s.Inv root nproc) (h : s.allocate nproc i = some s') :
    Inv root nproc s' := by
  have hx := hs.node i
  unfold PidCluster.allocate at h
  dsimp only at h
  split at h
  · rename_i ha
    obtain rfl := Option.some.inj h
    obtain ⟨h1, h2, h3⟩ := hx.busy ha
    obtain ⟨h4, h5⟩ := h3 nofun
    refine hs.set (.of_request (hx.owns.congr rfl) ?_ h5 h2 ?_ ?_ nofun) fun hi => ?_
    · dsimp only
      rw [h4, h1]
      exact .scan _ _
    · simp [PidNode.returning, Preallocation.chunks, h4]
    · intro p chunks hp
      cases hp
      exact le_rfl
    · subst hi
      exact hs.root
  · cases h

/-- One turn of the loop that looks for chunks to release. -/
theorem Inv.scan (hs : s.Inv root nproc) (h : s.scan i = some s') : Inv root nproc s' := by
  have hx := hs.node i
  unfold PidCluster.scan at h
  dsimp only at h
  split at h
  · rename_i p chunks ha
    obtain ⟨h1, h2, h3⟩ := hx.busy ha
    obtain ⟨h4, h5⟩ := h3 nofun
    have hroot : i = root → (s.node i).vars.pidAllocInitiated = false := fun hi => by
      rw [hi]
      exact hs.root
    have hp : p < nproc i := hx.scanning _ _ ha
    have hall := hx.collected ha
    split_ifs at h with h6 h7
    · -- the request is full and is sent to return what it has
      obtain rfl := Option.some.inj h
      refine hs.set (.of_request (hx.owns.congr rfl) ?_ h5 h2 ?_ nofun ?_) hroot
      · dsimp only
        rw [h4, h1]
        exact .releasing _ _
      · exact fun pid hpid => hall pid <| by
          simpa [PidNode.returning, Preallocation.chunks, PidRequest.chunks, h4] using hpid
      · intro q hq
        cases hq
        exact ⟨hp, h6.unused⟩
    · obtain rfl := Option.some.inj h
      obtain ⟨h8, c, h9, h10, h11⟩ := hx.owns.free hp h6.unused
      refine hs.set (.of_request (h8.congr rfl) ?_ h5 h2 ?_ ?_ nofun) hroot
      · dsimp only [PidSite.free]
        rw [h4, h1]
        exact .scan _ _
      · intro pid hpid
        have h12 : pid ∈ chunks ++ [((s.node i).vars.mypidchunks p).start] := by
          simpa [PidNode.returning, Preallocation.chunks, h4] using hpid
        rcases mem_append.1 h12 with h13 | h13
        · obtain ⟨d, h14, h15, h16⟩ := hall pid h13
          exact ⟨d, h14, h15, fun h17 => h16 (PidSite.Holds.of_free (p := p) h17)⟩
        · obtain rfl := mem_singleton.1 h13
          exact ⟨c, h9, h10, h11⟩
      · intro q l hq
        cases hq
        exact hp.le
    · obtain rfl := Option.some.inj h
      refine hs.set (.of_request (hx.owns.congr rfl) ?_ h5 h2 ?_ ?_ nofun) hroot
      · dsimp only
        rw [h4, h1]
        exact .scan _ _
      · exact fun pid hpid => hall pid <| by
          simpa [PidNode.returning, Preallocation.chunks, h4] using hpid
      · intro q l hq
        cases hq
        exact hp.le
  · cases h

theorem Inv.send (hs : s.Inv root nproc) (h : s.send i = some s') : Inv root nproc s' := by
  have hx := hs.node i
  unfold PidCluster.send at h
  dsimp only at h
  split at h
  · rename_i chunks ha
    obtain rfl := Option.some.inj h
    obtain ⟨h1, h2, h3⟩ := hx.busy ha
    obtain ⟨h4, h5⟩ := h3 nofun
    refine hs.set (.of_request (hx.owns.congr rfl) ?_ h5 h2 ?_ nofun nofun) fun hi => ?_
    · dsimp only
      rw [h4, h1]
      exact .requested _ _
    · exact fun pid hpid => hx.collected ha pid <| by
        simpa [PidNode.returning, PidRequest.chunks, h4] using hpid
    · subst hi
      exact hs.root
  · cases h

theorem Inv.resume (hs : s.Inv root nproc)
    (hc : (s.node i).vars.lastavailpid ≤ (s.node i).vars.currentavailpid ∨
      (s.node i).vars.availpids (s.node i).vars.currentavailpid ≠ 0)
    (h : s.resume root nproc i conflict enter = some s') : Inv root nproc s' := by
  have hx := hs.node i
  unfold PidCluster.resume at h
  dsimp only at h
  split_ifs at h with h1
  refine hs.getnewpid ?_ (fun hi => ?_) ?_ h
  · exact hx.setVars (hx.owns.congr rfl) rfl fun _ _ h => h
  · subst hi
    exact hs.root
  · exact fun hlt => hc.resolve_left (not_le.2 hlt)

theorem Inv.consume (hs : s.Inv root nproc) (h : s.consume nproc i = some s') : Inv root nproc s' := by
  have hx := hs.node i
  unfold PidCluster.consume at h
  dsimp only at h
  split_ifs at h with h1 h2
  · obtain rfl := Option.some.inj h
    obtain ⟨h3, h4, h5⟩ := hx.phase.completed h1.2
    exact hs.set (.idle (hx.owns.congr rfl) h3 rfl rfl h4 h5) fun _ => rfl
  · obtain ⟨v, hi, rfl⟩ := Option.map_eq_some_iff.1 h
    obtain ⟨h3, h4, h5⟩ := hx.phase.completed h1.2
    obtain ⟨c, h6, h7, h8⟩ := hx.granted _ _ (.inr ⟨h1.2, Bool.not_eq_true _ ▸ h2, rfl, rfl⟩)
    rw [h6, h7] at hi
    have hinst := fun ho => PidSite.Owns.install ho h8 hi
    obtain ⟨h9, h10, h11, h12⟩ := hinst (hx.owns.congr rfl)
    exact hs.set (.idle h9 (h12.trans h3) h10 h11 h4 h5) fun _ => h10

theorem serve_release (hx : NodeInv s.server.pidtable i n x) {chunks : List ℕ}
    (hsub : ∀ pid ∈ chunks, pid ∈ x.returning) : x.vars.Owns (s.server.release chunks).pidtable i n ∧
      ∀ j ≠ i, ∀ c, s.server.pidtable c = some j → (s.server.release chunks).pidtable c = some j := by
  refine ⟨hx.owns.mono fun c hc => ?_, fun j hj c hc => release_other hj (fun pid hpid => ?_) c hc⟩
  · rw [release_held fun pid hpid => ?_]
    · exact hx.owns.table_eq hc
    · obtain ⟨d, h1, -, h2⟩ := hx.returning pid (hsub pid hpid)
      exact ⟨d, h1, fun h3 => h2 (h3 ▸ hc)⟩
  · obtain ⟨d, h1, h2, -⟩ := hx.returning pid (hsub pid hpid)
    exact ⟨d, h1, h2⟩

theorem Inv.serve (hs : s.Inv root nproc) (h : s.serve i = some s') : Inv root nproc s' := by
  have hx := hs.node i
  have hroot : i = root → (s.node i).vars.pidAllocInitiated = false := fun hi => by
    rw [hi]
    exact hs.root
  have hphase := hx.phase
  unfold PidCluster.serve at h
  dsimp only at h
  split at h
  · cases h
  · rename_i chunks rest hq
    obtain rfl := Option.some.inj h
    rw [hq] at hphase
    obtain ⟨⟨p, h1⟩, rfl, h2, h3, h4⟩ := hphase.of_releasepids
    obtain ⟨h5, h6⟩ := @serve_release _ _ _ _ hx chunks fun pid hpid =>
      mem_append_right _ (by simpa [hq, PidRequest.chunks] using hpid)
    refine hs.update _ ⟨h5, ?_, ?_, ?_, hx.scanning, hx.releasing⟩ h6 hroot
    · dsimp only
      rw [h1, h2, h3, h4]
      exact .released p
    · simp [PidNode.returning, Preallocation.chunks, h1]
    · rintro firstpid size (h7 | ⟨h7, -⟩)
      · simp [h2] at h7
      · exact Bool.noConfusion (h4.symm.trans h7)
  · rename_i lastnewpid chunks rest hq
    rw [hq] at hphase
    obtain ⟨h1, rfl, h2, h3, h4⟩ := hphase.of_getpids
    obtain ⟨h5, h6⟩ := @serve_release _ _ _ _ hx chunks fun pid hpid =>
      mem_append_right _ (by simpa [hq, PidRequest.chunks] using hpid)
    revert h h5 h6
    generalize s.server.release chunks = t
    intro h h5 h6
    cases hg : t.getpidchunk i lastnewpid with
    | none =>
      rw [hg] at h
      obtain rfl := Option.some.inj h
      refine hs.update _ ⟨h5, ?_, ?_, ?_, hx.scanning, hx.releasing⟩ h6 hroot
      · dsimp only
        rw [h1, h2, h3, h4]
        exact .refused
      · simp [PidNode.returning, h1]
      · rintro firstpid size (h7 | ⟨h7, -⟩)
        · simp [h2] at h7
        · exact Bool.noConfusion (h4.symm.trans h7)
    | some r =>
      obtain ⟨first, len, t'⟩ := r
      rw [hg] at h
      obtain rfl := Option.some.inj h
      obtain ⟨c, rfl, rfl, h7, h8⟩ := PidServer.getpidchunk_some hg
      have hown : (s.node i).vars.Owns t'.pidtable i (nproc i) := h5.mono fun d hd => by
        rw [h8, update_apply]
        split_ifs
        · rfl
        · exact h5.table_eq hd
      refine hs.update _ ⟨hown, ?_, ?_, ?_, hx.scanning, hx.releasing⟩ (fun j hj d hd => ?_) hroot
      · dsimp only
        rw [h1, h2, h3, h4]
        exact .granted _ _
      · simp [PidNode.returning, h1]
      · rintro firstpid size (h9 | ⟨h9, -⟩)
        · obtain ⟨rfl, rfl⟩ : firstpid = CHUNKTOPID c ∧ size = PIDCHUNK := by simpa [h2] using h9
          exact ⟨c, rfl, rfl, by rw [h8, update_self]⟩
        · exact Bool.noConfusion (h4.symm.trans h9)
      · exact PidServer.getpidchunk_other hg hj (h6 j hj d hd)

/-- A reply arrives. -/
theorem Inv.reply (hs : s.Inv root nproc) (h : s.reply i = some s') : Inv root nproc s' := by
  have hx := hs.node i
  have hroot : i = root → (s.node i).vars.pidAllocInitiated = false := fun hi => by
    rw [hi]
    exact hs.root
  have hphase := hx.phase
  unfold PidCluster.reply at h
  dsimp only at h
  split at h
  · cases h
  · rename_i rest hq
    split at h
    · rename_i p ha
      obtain rfl := Option.some.inj h
      rw [hq] at hphase
      obtain ⟨h1, rfl, h2, h3, -⟩ := hphase.of_reply
      obtain ⟨h4, h5⟩ := hx.releasing p ha
      obtain ⟨h6, c, h7, h8, h9⟩ := hx.owns.free h4 h5
      refine hs.set (.of_request (h6.congr rfl) ?_ rfl h3 ?_ ?_ nofun) hroot
      · dsimp only [PidSite.free]
        rw [h1, h2]
        exact .scan _ _
      · intro pid hpid
        have h10 : pid ∈ [((s.node i).vars.mypidchunks p).start] := by
          simpa [PidNode.returning, Preallocation.chunks, h1] using hpid
        obtain rfl := mem_singleton.1 h10
        exact ⟨c, h7, h8, h9⟩
      · intro q l hq
        cases hq
        exact h4.le
    · cases h
  · rename_i rest hq
    obtain rfl := Option.some.inj h
    rw [hq] at hphase
    obtain ⟨h1, rfl, h2, h3, h4⟩ := hphase.of_reply
    have h5 := h4 nofun
    refine hs.set ⟨hx.owns.congr rfl, ?_, ?_, ?_, hx.scanning, hx.releasing⟩ hroot
    · dsimp only
      rw [h1, h2, h5]
      exact .complete
    · simp [PidNode.returning, h5, h1]
    · rintro firstpid size (h6 | ⟨-, h6, -⟩)
      · cases h6
      · cases h6
  · rename_i firstpid size rest hq
    obtain rfl := Option.some.inj h
    obtain ⟨c, h6, h7, h8⟩ := hx.granted firstpid size (.inl (by simp [hq]))
    rw [hq] at hphase
    obtain ⟨h1, rfl, h2, h3, h4⟩ := hphase.of_reply
    have h5 := h4 nofun
    refine hs.set ⟨hx.owns.congr rfl, ?_, ?_, ?_, hx.scanning, hx.releasing⟩ hroot
    · dsimp only
      rw [h1, h2, h5]
      exact .complete
    · simp [PidNode.returning, h5, h1]
    · rintro _ _ (h9 | ⟨-, -, rfl, rfl⟩)
      · cases h9
      · exact ⟨c, h6, h7, h8⟩

theorem NodeInv_dropRequest {table : ℕ → Option ℕ} (hx : NodeInv table i n x) :
    NodeInv table i n { x with toServer := x.toServer.tail } := by
  refine ⟨hx.owns, ?_, fun pid hpid => hx.returning pid ?_, hx.granted, hx.scanning, hx.releasing⟩
  · have h1 := hx.phase
    dsimp only
    generalize x.vars.preallocating = a, x.toServer = q, x.toClient = r,
      x.vars.pidAllocInitiated = b, x.vars.pidAllocComplete = c at h1 ⊢
    cases h1 <;> constructor
  · rcases mem_append.1 hpid with h1 | h1
    · exact mem_append_left _ h1
    · refine mem_append_right _ ?_
      obtain ⟨m, h2, h3⟩ := mem_flatMap.1 h1
      exact mem_flatMap.2 ⟨m, mem_of_mem_tail h2, h3⟩

theorem NodeInv_dropReply {table : ℕ → Option ℕ} (hx : NodeInv table i n x) :
    NodeInv table i n { x with toClient := x.toClient.tail } := by
  refine ⟨hx.owns, ?_, hx.returning, fun firstpid size hg => hx.granted firstpid size ?_,
    hx.scanning, hx.releasing⟩
  · have h1 := hx.phase
    dsimp only
    generalize x.vars.preallocating = a, x.toServer = q, x.toClient = r,
      x.vars.pidAllocInitiated = b, x.vars.pidAllocComplete = c at h1 ⊢
    cases h1 <;> constructor
  · exact hg.imp_left mem_of_mem_tail

/-- A process that comes back from `preallocate_pid_chunk` finds the list at its end or points at an
available pid. -/
def Cond (s : PidCluster) : PidAct → Prop
  | .resume i _ _ => (s.node i).vars.lastavailpid ≤ (s.node i).vars.currentavailpid ∨
      (s.node i).vars.availpids (s.node i).vars.currentavailpid ≠ 0
  | _ => True

theorem Inv.step (hs : s.Inv root nproc) {a : PidAct} (hc : s.Cond a) (he : s.Enabled root a)
    (h : s.next root nproc a = some s') : Inv root nproc s' := by
  have hroot : ∀ i, i = root → (s.node i).vars.pidAllocInitiated = false := by
    rintro i rfl
    exact hs.root
  cases a with
  | fork i conflict enter => exact hs.fork h
  | allocate i => exact hs.allocate h
  | scan i => exact hs.scan h
  | send i => exact hs.send h
  | resume i conflict enter => exact hs.resume hc h
  | consume i => exact hs.consume h
  | serve i => exact hs.serve h
  | reply i => exact hs.reply h
  | dropRequest i =>
    obtain rfl := Option.some.inj h
    exact hs.set (NodeInv_dropRequest (hs.node i)) (hroot i)
  | dropReply i =>
    obtain rfl := Option.some.inj h
    exact hs.set (NodeInv_dropReply (hs.node i)) (hroot i)
  | exit i pid =>
    obtain rfl := Option.some.inj h
    refine hs.set ((hs.node i).setVars ((hs.node i).owns.exit pid) rfl fun p _ hu => ?_) (hroot i)
    exact ⟨hu.1, hu.2.1, fun q hq => hu.2.2 q (mem_of_mem_erase hq)⟩
  | system i pids =>
    obtain rfl := Option.some.inj h
    exact hs.set ((hs.node i).setVars ((hs.node i).owns.congr rfl) rfl fun _ _ h => h) (hroot i)
  | fail i =>
    obtain rfl := Option.some.inj h
    have h1 := hs.node i
    exact hs.set ⟨h1.owns, h1.phase, h1.returning, h1.granted, h1.scanning, h1.releasing⟩ (hroot i)
  | pidCleanup i =>
    obtain rfl := Option.some.inj h
    refine hs.update _ .out (fun j hj c hc => ?_) fun _ => rfl
    have h1 : s.server.pidtable c ≠ some i := by
      rw [hc]
      exact fun h2 => hj (Option.some.inj h2)
    show (if s.server.pidtable c = some i then none else s.server.pidtable c) = some j
    rw [if_neg h1, hc]
  | join i =>
    obtain rfl := Option.some.inj h
    have h1 := hs.node i
    exact hs.set ⟨h1.owns, h1.phase, h1.returning, h1.granted, h1.scanning, h1.releasing⟩ (hroot i)

theorem inv_of_reach (h : ((pidLts root nproc).restrict Cond).Reach s) : s.Inv root nproc := by
  refine h.inv ?_ fun s a s' _ hs hstep => hs.step hstep.1 hstep.2.1 hstep.2.2
  rintro s ⟨-, h2, h3, h4⟩
  have hout : ∀ i, NodeInv s.server.pidtable i (nproc i) (s.node i) := by
    intro i
    by_cases hi : i = root
    · subst hi
      rw [h3]
      have h5 : NodeInv s.server.pidtable i (nproc i) .out := .out
      exact ⟨h5.owns, h5.phase, h5.returning, h5.granted, h5.scanning, h5.releasing⟩
    · rw [h4 i hi]
      exact .out
  refine ⟨hout, ?_, ?_⟩
  · rw [h3]
    rfl
  · rw [h2]
    exact nofun

/-- In every run in which no process comes back from `preallocate_pid_chunk` to an unavailable slot:
no two processes of the cluster have the same pid, no pid that belongs to the system processes is
returned, and the chunks recorded on a site and the one that its available pids are from are
assigned to the site in `pidtable`. -/
theorem pids_unique (h : ((pidLts root nproc).restrict Cond).Reach s) :
    (∀ i, (s.node i).vars.proc.Nodup) ∧
    (∀ i j pid, pid ∈ (s.node i).vars.proc → pid ∈ (s.node j).vars.proc → i = j) ∧
    (∀ pid ∈ s.returned, PID_MAXSYS < pid) ∧
    (∀ i, ∀ p < nproc i, ((s.node i).vars.mypidchunks p).fin ≠ 0 →
      s.server.pidtable (PIDTOCHUNK ((s.node i).vars.mypidchunks p).start) = some i) ∧
    ∀ i, 0 ≤ (s.node i).vars.lastnewpid →
      s.server.pidtable (PIDTOCHUNK (s.node i).vars.lastnewpid.toNat) = some i ∧
      ∀ k, (s.node i).vars.currentavailpid ≤ k → k < (s.node i).vars.lastavailpid →
        (s.node i).vars.availpids k = 0 ∨ PIDTOCHUNK ((s.node i).vars.availpids k) =
          PIDTOCHUNK (s.node i).vars.lastnewpid.toNat := by
  have hs := inv_of_reach h
  refine ⟨fun i => (hs.node i).owns.nodup, fun i j pid hi hj => ?_, hs.returned, fun i p hp hf => ?_,
    fun i hl => ?_⟩
  · have h1 := (hs.node i).owns.table_eq ((hs.node i).owns.held pid hi).2
    have h2 := (hs.node j).owns.table_eq ((hs.node j).owns.held pid hj).2
    exact Option.some.inj (h1.symm.trans h2)
  · obtain ⟨c, h1, -, h2⟩ := (hs.node i).owns.recorded p hp hf
    rwa [h1, pidtochunk_chunktopid]
  · obtain ⟨c, h1, h2⟩ := (hs.node i).owns.last hl
    have h3 : PIDTOCHUNK (s.node i).vars.lastnewpid.toNat = c := by
      rw [h1, Int.toNat_natCast, pidtochunk_chunktopid]
    rw [h3]
    refine ⟨(hs.node i).owns.table_eq h2, fun k hk hk' => ?_⟩
    rcases (hs.node i).owns.avail k hk hk' with h4 | ⟨h4, h5, -⟩
    · exact .inl h4
    · rw [h1] at h4
      exact .inr (pidtochunk_eq.2 ⟨by omega, by omega⟩)

/-! ### The unavailable slot -/

/-- The server is site 1 and site 2 is the other site. -/
def pair (t : PidServer) (v w : PidSite) (q : List PidRequest) (r : List PidReply) (ret : List ℕ) :
    PidCluster where
  server := t
  node := fun i => if i = 1 then ⟨.up, v, [], []⟩ else if i = 2 then ⟨.up, w, q, r⟩ else .out
  returned := ret

/-- The pair is reached, whatever has been returned. -/
def At (t : PidServer) (v w : PidSite) (q : List PidRequest) (r : List PidReply) : Prop :=
  ∃ ret, ((pidLts 1 fun _ => 2).restrict Cond).Reach (pair t v w q r ret)

section Pair

variable {t t' : PidServer} {v v' w w' : PidSite} {q q' : List PidRequest} {r r' : List PidReply}
variable {ret ret' : List ℕ} {a : PidAct}

theorem pair_set_one : (pair t v w q r ret).set 1 ⟨.up, v', [], []⟩ = pair t v' w q r ret := by
  simp only [pair, set, mk.injEq, true_and, and_true]
  funext i
  by_cases h : i = 1 <;> simp [h]

theorem pair_set_two : (pair t v w q r ret).set 2 ⟨.up, w', q', r'⟩ = pair t v w' q' r' ret := by
  simp only [pair, set, mk.injEq, true_and, and_true]
  funext i
  by_cases h : i = 2 <;> simp [h]

theorem At.one (h : At t v w q r) (a : PidAct) (hc : ∀ s, Cond s a)
    (he : ∀ ret, Enabled 1 (pair t v w q r ret) a)
    (hs : ∀ ret, ∃ ret', (pair t v w q r ret).next 1 (fun _ => 2) a =
      some { (pair t v w q r ret).set 1 ⟨.up, v', [], []⟩ with server := t', returned := ret' }) :
    At t' v' w q r := by
  obtain ⟨ret, h⟩ := h
  obtain ⟨ret', h1⟩ := hs ret
  refine ⟨ret', h.step ⟨hc _, he ret, h1.trans ?_⟩⟩
  rw [pair_set_one]
  rfl

/-- A step of the other site, or for it. -/
theorem At.two (h : At t v w q r) (a : PidAct) (hc : ∀ ret, Cond (pair t v w q r ret) a)
    (he : ∀ ret, Enabled 1 (pair t v w q r ret) a)
    (hs : ∀ ret, ∃ ret', (pair t v w q r ret).next 1 (fun _ => 2) a =
      some { (pair t v w q r ret).set 2 ⟨.up, w', q', r'⟩ with server := t', returned := ret' }) :
    At t' v w' q' r' := by
  obtain ⟨ret, h⟩ := h
  obtain ⟨ret', h1⟩ := hs ret
  refine ⟨ret', h.step ⟨hc ret, he ret, h1.trans ?_⟩⟩
  rw [pair_set_two]
  rfl

theorem skip_eq (hne : v.availpids v.currentavailpid ≠ 0) : v.skip = v := by
  have h1 : ∀ n, PidSite.skipZeros v.availpids n v.currentavailpid = v.currentavailpid := by
    intro n
    cases n with
    | zero => rfl
    | succ n => rw [PidSite.skipZeros, if_neg hne]
  unfold PidSite.skip
  rw [h1]

/-- What a fork at an available slot does. -/
theorem fork_take {s : PidCluster} {root i : ℕ} {nproc : ℕ → ℕ} {conflict enter : Bool}
    (hv : (s.node i).vars = v) (hlt : v.currentavailpid < v.lastavailpid)
    (hne : v.availpids v.currentavailpid ≠ 0) (hi : i = root ∨ v.pidAllocInitiated = true ∨
      CHUNK_PREALLOCATE ≤ v.lastavailpid - v.currentavailpid) :
    s.fork root nproc i conflict enter = some (s.take i conflict enter v) := by
  unfold PidCluster.fork
  dsimp only
  rw [hv, skip_eq hne, if_neg, getnewpid, if_neg (not_le.2 hlt)]
  rintro ⟨h1, h2, h3⟩
  rcases hi with hi | hi | hi
  · exact h1 hi
  · rw [hi] at h2
    cases h2
  · omega

/-- A process of the server is created and exits. -/
theorem At.use_one (h : At t v w q r) (hlt : v.currentavailpid < v.lastavailpid)
    (hne : v.availpids v.currentavailpid ≠ 0) :
    At t { v with currentavailpid := v.currentavailpid + 1 } w q r := by
  have h1 : At t { v with
      currentavailpid := v.currentavailpid + 1
      proc := v.availpids v.currentavailpid :: v.proc } w q r :=
    h.one (.fork 1 false true) (fun _ => trivial) (fun _ => rfl) fun ret =>
      ⟨v.availpids v.currentavailpid :: ret,
        (fork_take (s := pair t v w q r ret) (i := 1) (v := v) rfl hlt hne (.inl rfl)).trans rfl⟩
  rw [show v.proc = (v.availpids v.currentavailpid :: v.proc).erase
    (v.availpids v.currentavailpid) from (erase_cons_head ..).symm]
  exact h1.one (.exit 1 (v.availpids v.currentavailpid)) (fun _ => trivial)
    (fun _ => show SiteStatus.up ≠ .out by decide) fun ret => ⟨ret, rfl⟩

theorem At.enter_two (h : At t v w q r) (hlt : w.currentavailpid < w.lastavailpid)
    (hne : w.availpids w.currentavailpid ≠ 0)
    (hi : w.pidAllocInitiated = true ∨ CHUNK_PREALLOCATE ≤ w.lastavailpid - w.currentavailpid) :
    At t v { w with
      currentavailpid := w.currentavailpid + 1
      proc := w.availpids w.currentavailpid :: w.proc } q r :=
  h.two (.fork 2 false true) (fun _ => trivial) (fun _ => rfl) fun ret =>
    ⟨w.availpids w.currentavailpid :: ret,
      (fork_take (s := pair t v w q r ret) (i := 2) (v := w) rfl hlt hne (.inr hi)).trans rfl⟩

theorem At.use_two (h : At t v w q r) (hlt : w.currentavailpid < w.lastavailpid)
    (hne : w.availpids w.currentavailpid ≠ 0)
    (hi : w.pidAllocInitiated = true ∨ CHUNK_PREALLOCATE ≤ w.lastavailpid - w.currentavailpid) :
    At t v { w with currentavailpid := w.currentavailpid + 1 } q r := by
  have h1 := h.enter_two hlt hne hi
  rw [show w.proc = (w.availpids w.currentavailpid :: w.proc).erase
    (w.availpids w.currentavailpid) from (erase_cons_head ..).symm]
  exact h1.two (.exit 2 (w.availpids w.currentavailpid)) (fun _ => trivial)
    (fun _ => show SiteStatus.up ≠ .out by decide) fun ret => ⟨ret, rfl⟩

theorem At.use_many_one (h : At t v w q r) (n : ℕ) (hlt : v.currentavailpid + n ≤ v.lastavailpid)
    (hne : ∀ k, v.currentavailpid ≤ k → k < v.currentavailpid + n → v.availpids k ≠ 0) :
    At t { v with currentavailpid := v.currentavailpid + n } w q r := by
  induction n with
  | zero => exact h
  | succ n ih =>
    exact (ih (by omega) fun k h1 h2 => hne k h1 (by omega)).use_one (by dsimp only; omega)
      (hne _ (Nat.le_add_right _ _) (by dsimp only; omega))

theorem At.use_many_two (h : At t v w q r) (n : ℕ) (hlt : w.currentavailpid + n + 4 ≤ w.lastavailpid)
    (hne : ∀ k, w.currentavailpid ≤ k → k < w.currentavailpid + n → w.availpids k ≠ 0) :
    At t v { w with currentavailpid := w.currentavailpid + n } q r := by
  induction n with
  | zero => exact h
  | succ n ih =>
    exact (ih (by omega) fun k h1 h2 => hne k h1 (by omega)).use_two (by dsimp only; omega)
      (hne _ (Nat.le_add_right _ _) (by dsimp only; omega))
      (.inr (by simp only [CHUNK_PREALLOCATE]; omega))

/-- What the release loop of the server does to its chunks when it has no processes. -/
theorem releasefreepidchunks_quiet (hv : v.pids = []) (p : ℕ) (t : PidServer) :
    (∀ k < p, ((v.releasefreepidchunks p t).1.mypidchunks k).fin ≠ 0 →
      v.lastnewpid = ((v.releasefreepidchunks p t).1.mypidchunks k).start) ∧
    (∀ k, p ≤ k → (v.releasefreepidchunks p t).1.mypidchunks k = v.mypidchunks k) ∧
    (∃ m, (v.releasefreepidchunks p t).1 = { v with mypidchunks := m }) ∧
    (v.releasefreepidchunks p t).2.lastpidchunkallocated = t.lastpidchunkallocated ∧
    ∀ c, (v.releasefreepidchunks p t).2.pidtable c = none ∨
      (v.releasefreepidchunks p t).2.pidtable c = t.pidtable c := by
  induction p generalizing v t with
  | zero => exact ⟨fun k hk => absurd hk k.not_lt_zero, fun k _ => rfl, ⟨_, rfl⟩, rfl, fun c => .inr rfl⟩
  | succ p ih =>
    unfold PidSite.releasefreepidchunks
    split_ifs with h1
    · obtain ⟨h2, h3, ⟨m, h4⟩, h5, h6⟩ := ih (v := v.free p) hv
        (t.returnpidchunk (v.mypidchunks p).start)
      refine ⟨fun k hk hf => ?_, fun k hk => ?_, ⟨m, h4⟩, h5, fun c => ?_⟩
      · rcases Nat.lt_succ_iff_lt_or_eq.1 hk with h7 | rfl
        · exact h2 k h7 hf
        · rw [h3 k le_rfl] at hf
          simp [PidSite.free] at hf
      · rw [h3 k (Nat.le_of_succ_le hk)]
        exact update_of_ne (by omega) _ _
      · rcases h6 c with h7 | h7
        · exact .inl h7
        · rw [h7]
          by_cases h8 : c = PIDTOCHUNK (v.mypidchunks p).start
          · left
            rw [h8]
            exact update_self ..
          · right
            exact update_of_ne h8 _ _
    · obtain ⟨h2, h3, h4, h5, h6⟩ := ih hv t
      refine ⟨fun k hk hf => ?_, fun k hk => h3 k (Nat.le_of_succ_le hk), h4, h5, h6⟩
      rcases Nat.lt_succ_iff_lt_or_eq.1 hk with h7 | rfl
      · exact h2 k h7 hf
      · rw [h3 k le_rfl] at hf ⊢
        by_contra h8
        refine h1 ⟨hf, h8, ?_⟩
        rw [hv]
        exact nofun

theorem lookup_free (v : PidSite) (firstpid n : ℕ) (avail : Option ℕ)
    (h : avail ≠ none ∨ ∃ p < n, (v.mypidchunks p).fin = 0)
    (hn : (v.lookup firstpid n avail).1 = none) : (v.lookup firstpid n avail).2 ≠ none := by
  induction n generalizing avail with
  | zero => exact h.resolve_right fun ⟨p, hp, _⟩ => p.not_lt_zero hp
  | succ n ih =>
    unfold PidSite.lookup at hn ⊢
    split_ifs at hn ⊢ with h1 h2
    · exact ih _ (.inl nofun) hn
    · refine ih _ (h.imp_right ?_) hn
      rintro ⟨p, hp, hf⟩
      rcases Nat.lt_succ_iff_lt_or_eq.1 hp with h3 | rfl
      · exact ⟨p, h3, hf⟩
      · exact (h1 hf).elim

/-- Site 2 has chunk 0 and the server has used up the others as far as chunk `k`. -/
structure Burned (k : ℕ) (t : PidServer) (v : PidSite) : Prop where
  quiet : v.pids = []
  used : v.lastavailpid ≤ v.currentavailpid
  last : t.lastpidchunkallocated = k
  current : v.lastnewpid = -1 ∨ v.lastnewpid = CHUNKTOPID k
  ahead : ∀ c, k < c → t.pidtable c = none
  zero : t.pidtable 0 = some 2
  other : ∀ c, 1 ≤ c → t.pidtable c ≠ some 2

/-- The search of the server ends at the next chunk. -/
theorem getpidchunk_next {k : ℕ} {lastnewpid : ℤ} (hk : k < 599)
    (hl : t.lastpidchunkallocated = k) (hc : lastnewpid = -1 ∨ lastnewpid = CHUNKTOPID k)
    (hn : t.pidtable (k + 1) = none) : t.getpidchunk 1 lastnewpid = some (CHUNKTOPID (k + 1), PIDCHUNK,
      { pidtable := update t.pidtable (k + 1) (some 1), lastpidchunkallocated := (k + 1 : ℕ) }) := by
  have h1 : t.passedOver 1 lastnewpid = none := by
    unfold PidServer.passedOver
    rcases hc with rfl | rfl
    · rfl
    · rw [if_pos (Int.natCast_nonneg _), Int.toNat_natCast, pidtochunk_chunktopid, hl,
        PidServer.between, if_pos (Int.le_refl k), Int.sub_self]
      rfl
  have h2 : t.nextFree 1 = some (k + 1) := by
    unfold PidServer.nextFree PidServer.round
    have h3 : ((k : ℤ) + 1).toNat = k + 1 := by omega
    have h4 : ((NUMPIDCHUNKS : ℤ) - 1 - k).toNat = (598 - k) + 1 := by
      simp only [NUMPIDCHUNKS, MAXPID, PIDCHUNK]
      omega
    rw [hl, h3, h4, range'_succ, cons_append, find?_cons_of_pos]
    simp [hn]
  unfold PidServer.getpidchunk
  rw [h1, h2]
  rfl

/-- The server takes its next chunk and uses it up. -/
theorem Burned.next {k : ℕ} (hb : Burned k t v) (h : At t v w q r) (hk : k < 599) :
    ∃ t' v', At t' v' w q r ∧ Burned (k + 1) t' v' := by
  obtain ⟨ret, hreach⟩ := id h
  have hown : v.Owns t.pidtable 1 2 := ((inv_of_reach hreach).node 1).owns
  obtain ⟨h1, h2, -⟩ := releasefreepidchunks_ok le_rfl hown
  obtain ⟨h3, -, ⟨m, h4⟩, h5, h6⟩ := releasefreepidchunks_quiet hb.quiet 2 t
  generalize hR : v.releasefreepidchunks 2 t = R at h1 h2 h3 h4 h5 h6
  obtain ⟨v1, t1⟩ := R
  dsimp only at h1 h2 h3 h4 h5 h6
  have hcur : v1.lastnewpid = -1 ∨ v1.lastnewpid = CHUNKTOPID k := by
    rw [h4]
    exact hb.current
  have hget := getpidchunk_next hk (h5.trans hb.last) hcur
    ((h6 _).elim id fun h7 => h7.trans (hb.ahead _ k.lt_succ_self))
  -- one of the two entries is free, and the chunk is in none of them
  obtain ⟨h7, h8⟩ := v1.lookup_spec (CHUNKTOPID (k + 1)) 2 none
  have hnone : (v1.lookup (CHUNKTOPID (k + 1)) 2 none).1 = none := by
    by_contra hne
    obtain ⟨p, hp⟩ := Option.ne_none_iff_exists'.1 hne
    obtain ⟨h9, h10, h11⟩ := h7 p hp
    have h12 := h3 p h9 h10
    have h13 := hb.current
    rw [h11] at h12
    simp only [CHUNKTOPID, PIDCHUNK] at h12 h13
    omega
  have hfree : ∃ p < 2, (v1.mypidchunks p).fin = 0 := by
    by_contra hne
    push Not at hne
    have h9 := h3 0 (by omega) (hne 0 (by omega))
    have h10 := h3 1 (by omega) (hne 1 (by omega))
    have h11 := h1.apart 0 (by omega) 1 (by omega) (hne 0 (by omega)) (hne 1 (by omega)) (by omega)
    omega
  obtain ⟨p, hp⟩ := Option.ne_none_iff_exists'.1
    (lookup_free v1 (CHUNKTOPID (k + 1)) 2 none (.inr hfree) hnone)
  have hinst : v1.install 2 (CHUNKTOPID (k + 1)) PIDCHUNK =
      some { v1.fill false (CHUNKTOPID (k + 1)) PIDCHUNK with
        mypidchunks := update v1.mypidchunks p
          ⟨CHUNKTOPID (k + 1), CHUNKTOPID (k + 1) + PIDCHUNK⟩ } := by
    unfold PidSite.install
    rw [show v1.lookup (CHUNKTOPID (k + 1)) 2 none = (none, some p) from Prod.ext hnone hp]
  have hskip : v.skip = v := by
    unfold PidSite.skip
    rw [Nat.sub_eq_zero_of_le hb.used]
    rfl
  have h9 : At { pidtable := update t1.pidtable (k + 1) (some 1)
                 lastpidchunkallocated := (k + 1 : ℕ) }
      { v1.fill false (CHUNKTOPID (k + 1)) PIDCHUNK with
        mypidchunks := update v1.mypidchunks p
          ⟨CHUNKTOPID (k + 1), CHUNKTOPID (k + 1) + PIDCHUNK⟩ } w q r := by
    refine h.one (.fork 1 false false) (fun _ => trivial) (fun _ => rfl) fun ret => ⟨ret, ?_⟩
    show (pair t v w q r ret).fork 1 (fun _ => 2) 1 false false = _
    unfold PidCluster.fork
    rw [show ((pair t v w q r ret).node 1).vars.skip = v from hskip]
    dsimp only
    rw [if_neg fun h => h.1 rfl, getnewpid, if_pos hb.used, if_pos rfl, PidCluster.neednewchunk]
    rw [show v.releasefreepidchunks 2 (pair t v w q r ret).server = (v1, t1) from hR]
    dsimp only
    rw [hget]
    dsimp only
    rw [hinst]
    rfl
  have hcur0 : (v1.fill false (CHUNKTOPID (k + 1)) PIDCHUNK).currentavailpid = 0 := by
    simp [PidSite.fill, CHUNKTOPID, PIDCHUNK]
  refine ⟨_, _, h9.use_many_one 50 ?_ fun j _ hj => ?_, ?_, ?_, rfl, .inr rfl, ?_, ?_, ?_⟩
  · show (v1.fill false (CHUNKTOPID (k + 1)) PIDCHUNK).currentavailpid + 50 ≤ PIDCHUNK
    rw [hcur0]
    rfl
  · have hj' : j < 50 := by
      have h10 : j < (v1.fill false (CHUNKTOPID (k + 1)) PIDCHUNK).currentavailpid + 50 := hj
      omega
    simp [PidSite.fill, hj', PIDCHUNK, CHUNKTOPID]
  · show v1.pids = []
    rw [h4]
    exact hb.quiet
  · show PIDCHUNK ≤ (v1.fill false (CHUNKTOPID (k + 1)) PIDCHUNK).currentavailpid + 50
    exact Nat.le_add_left _ _
  · intro c hc
    show update t1.pidtable (k + 1) (some 1) c = none
    rw [update_of_ne (by omega)]
    exact (h6 c).elim id fun h10 => h10.trans (hb.ahead c (by omega))
  · show update t1.pidtable (k + 1) (some 1) 0 = some 2
    rw [update_of_ne (by omega)]
    exact h2 2 (by decide) 0 hb.zero
  · intro c hc
    show update t1.pidtable (k + 1) (some 1) c ≠ some 2
    rw [update_apply]
    split_ifs
    · decide
    · rcases h6 c with h10 | h10 <;> rw [h10]
      · exact nofun
      · exact hb.other c hc

theorem burn (h : At t v w q r) (hb : Burned 0 t v) (k : ℕ) (hk : k ≤ 599) :
    ∃ t' v', At t' v' w q r ∧ Burned k t' v' := by
  induction k with
  | zero => exact ⟨t, v, h, hb⟩
  | succ k ih =>
    obtain ⟨t1, v1, h1, hb1⟩ := ih (by omega)
    exact hb1.next h1 (by omega)

/-- Site 2 joins a cluster that has just come up. -/
theorem at_boot : At .boot .boot .boot [] [] := by
  have h0 : ((pidLts 1 fun _ => 2).restrict Cond).Reach
      { server := .boot
        node := fun i => if i = 1 then { PidNode.out with status := .up } else .out
        returned := [] } := .init ⟨rfl, rfl, rfl, fun i hi => if_neg hi⟩
  refine ⟨[], h0.step ⟨trivial, rfl, ?_⟩ (l := .join 2)⟩
  simp only [next, PidCluster.set, Option.some.injEq, pair, mk.injEq, true_and, and_true]
  funext i
  by_cases h : i = 2
  · subst h
    rfl
  · simp [h, PidNode.out]

/-- Site 2 begins an allocation. -/
theorem At.initiate (h : At t v w [] []) (h0 : w.pidAllocInitiated = false)
    (h1 : w.lastavailpid - w.currentavailpid < CHUNK_PREALLOCATE) (h2 : w.skip = w) :
    At t v { w with pidAllocInitiated := true, preallocating := some .alloc } [] [] := by
  refine h.two (.fork 2 false false) (fun _ => trivial) (fun _ => rfl) fun ret => ⟨ret, ?_⟩
  show (pair t v w [] [] ret).fork 1 (fun _ => 2) 2 false false = _
  unfold PidCluster.fork
  rw [show ((pair t v w [] [] ret).node 2).vars.skip = w from h2]
  dsimp only
  rw [if_pos ⟨by decide, h0, h1⟩]
  rfl

/-- The rest of `preallocate_pid_chunk` when there is nothing to release. -/
theorem At.request (h : At t v w [] []) (h0 : w.preallocating = some .alloc)
    (h1 : ∀ p, ¬w.Releasable p) :
    At t v { w with preallocating := none, preallocated := w.preallocated + 1 }
      [.getpids w.lastnewpid []] [] := by
  have h2 : At t v { w with preallocating := some (.scan 2 []) } [] [] := by
    refine h.two (.allocate 2) (fun _ => trivial) (fun _ => rfl) fun ret => ⟨ret, ?_⟩
    show (pair t v w [] [] ret).allocate (fun _ => 2) 2 = _
    unfold PidCluster.allocate
    dsimp only
    rw [show ((pair t v w [] [] ret).node 2).vars.preallocating = some .alloc from h0]
    rfl
  have h3 : ∀ p, At t v { w with preallocating := some (.scan (p + 1) []) } [] [] →
      At t v { w with preallocating := some (.scan p []) } [] [] := by
    intro p h
    refine h.two (.scan 2) (fun _ => trivial) (fun _ => rfl) fun ret => ⟨ret, ?_⟩
    exact if_neg (h1 p)
  exact (h3 0 (h3 1 h2)).two (.send 2) (fun _ => trivial) (fun _ => rfl) fun ret => ⟨ret, rfl⟩

/-- The server answers, and the reply arrives. -/
theorem At.grant {firstpid size : ℕ} (h : At t v w [.getpids w.lastnewpid []] [])
    (hg : t.getpidchunk 2 w.lastnewpid = some (firstpid, size, t')) :
    At t' v { w with
      pidAllocComplete := true, pidAllocError := false
      pidAllocFirst := firstpid, pidAllocSize := size } [] [] := by
  have h1 : At t' v w [] [.chunk firstpid size] := by
    refine h.two (.serve 2) (fun _ => trivial) (fun _ => trivial) fun ret => ⟨ret, ?_⟩
    have hserve : t.release [] = t := rfl
    have hnode : (pair t v w [.getpids w.lastnewpid []] [] ret).node 2 = ⟨.up, w, [.getpids w.lastnewpid []], []⟩ := rfl
    have hserver : (pair t v w [.getpids w.lastnewpid []] [] ret).server = t := rfl
    simp only [PidCluster.next, PidCluster.serve, hnode, hserver, hserve, hg]
    rfl
  exact h1.two (.reply 2) (fun _ => trivial) (fun _ => rfl) fun ret => ⟨ret, rfl⟩

/-- A process finds the list at its end and takes responsibility. -/
theorem At.respond (h : At t v w q r) (h0 : w.lastavailpid ≤ w.currentavailpid)
    (h1 : w.pidAllocInitiated = true) (h2 : w.pidAllocResponsible = false) :
    At t v { w with pidAllocResponsible := true } q r := by
  refine h.two (.fork 2 false false) (fun _ => trivial) (fun _ => rfl) fun ret => ⟨ret, ?_⟩
  have hskip : w.skip = w := by
    unfold PidSite.skip
    rw [Nat.sub_eq_zero_of_le h0]
    rfl
  show (pair t v w q r ret).fork 1 (fun _ => 2) 2 false false = _
  unfold PidCluster.fork
  rw [show ((pair t v w q r ret).node 2).vars.skip = w from hskip]
  dsimp only
  rw [if_neg fun h => Bool.noConfusion (h1.symm.trans h.2.1), getnewpid, if_pos h0,
    if_neg (by decide), getpreallocatedpidchunk, if_neg (by rw [h2]; decide)]
  rfl

/-- The responsible process fills the list. -/
theorem At.consume (h : At t v w q r) (h0 : w.pidAllocResponsible = true)
    (h1 : w.pidAllocComplete = true) (h2 : w.pidAllocError = false)
    (hi : { w with
      pidAllocInitiated := false, pidAllocComplete := false
      pidAllocResponsible := false, pidAllocWaiting := false }.install 2 w.pidAllocFirst
        w.pidAllocSize = some w') : At t v w' q r := by
  refine h.two (.consume 2) (fun _ => trivial) (fun _ => rfl) fun ret => ⟨ret, ?_⟩
  show (pair t v w q r ret).consume (fun _ => 2) 2 = _
  unfold PidCluster.consume
  rw [show ((pair t v w q r ret).node 2).vars = w from rfl]
  dsimp only
  rw [if_pos ⟨h0, h1⟩, if_neg (by rw [h2]; decide), hi]
  rfl

theorem At.resume (h : At t v w q r) (h0 : 0 < w.preallocated) (hc : w.lastavailpid ≤
      w.currentavailpid ∨ w.availpids w.currentavailpid ≠ 0)
    (hs : ∀ ret, ∃ ret', (pair t v w q r ret).getnewpid 1 (fun _ => 2) 2 false true
      { w with preallocated := w.preallocated - 1 } =
      some { (pair t v w q r ret).set 2 ⟨.up, w', q, r⟩ with returned := ret' }) :
    At t v w' q r := by
  refine h.two (.resume 2 false true) (fun _ => hc) (fun _ => rfl) fun ret => ?_
  obtain ⟨ret', h1⟩ := hs ret
  refine ⟨ret', (if_pos h0).trans h1⟩

/-- Site 2 with chunk 0 as its only and current chunk. -/
def onlyZero (availpids : ℕ → ℕ) (cur : ℕ) (proc : List ℕ) : PidSite :=
  { PidSite.boot with
    availpids := availpids
    currentavailpid := cur
    lastavailpid := 50
    mypidchunks := update PidSite.boot.mypidchunks 0 ⟨0, 50⟩
    lastnewpid := 0
    pidAllocSize := 50
    proc := proc }

theorem onlyZero_releasable (availpids : ℕ → ℕ) (cur : ℕ) (proc : List ℕ) (p : ℕ) :
    ¬(onlyZero availpids cur proc).Releasable p := by
  rintro ⟨h1, h2, -⟩
  by_cases h : p = 0
  · subst h
    exact h2 rfl
  · exact h1 (by simp [onlyZero, PidSite.boot, h])

/-- The first request of site 2 gets chunk 0, and most of its pids are used. -/
theorem at_first : ∃ a, At ⟨update (fun _ => none) 0 (some 2), 0⟩ .boot (onlyZero a 46 []) [] [] ∧
    ∀ k < 50, a k = k := by
  have h1 := at_boot.initiate rfl (by decide) rfl
  have h2 := h1.request rfl fun p h => h.1 rfl
  have h3 := @At.grant _ ⟨update (fun _ => none) 0 (some 2), 0⟩ _ _ 0 50 h2 rfl
  have h4 := @At.resume _ _ _ { PidSite.boot with
      pidAllocInitiated := true, pidAllocComplete := true, pidAllocResponsible := true
      pidAllocSize := 50 } _ _ h3 (by decide) (.inl (le_refl 0)) fun ret => ⟨ret, rfl⟩
  have h5 := @At.consume _ _ _ (onlyZero (fun i => if i < 50 then
      if false = true ∧ 0 + i ∈ PidSite.boot.pids then 0 else 0 + i else 0) 7 []) _ _ h4 rfl rfl rfl rfl
  have h6 : ∀ k < 50, (if k < 50 then
      if false = true ∧ 0 + k ∈ PidSite.boot.pids then 0 else 0 + k else 0) = k := by
    intro k h7
    rw [if_pos h7, if_neg (fun h => Bool.noConfusion h.1), Nat.zero_add]
  refine ⟨_, h5.use_many_two 39 (show 7 + 39 + 4 ≤ 50 by decide) fun k h8 h9 => ?_, h6⟩
  have h10 : 7 ≤ k := h8
  have h11 : k < 7 + 39 := h9
  exact (h6 k (by omega)).trans_ne (by omega)

/-- The next request of site 2 when all other chunks have been used: it gets chunk 0 once more, in
which one process has been left. -/
theorem at_second {a : ℕ → ℕ} (h : At t v (onlyZero a 46 []) [] []) (ha : ∀ k < 50, a k = k)
    (hg : t.getpidchunk 2 0 = some (0, 50, t')) :
    ∃ a', At t' v (onlyZero a' 46 [47]) [] [] ∧ a' 46 ≠ 0 ∧ a' 47 = 0 := by
  have hne : ∀ k < 50, 0 < k → a k ≠ 0 := fun k h1 h2 => (ha k h1).trans_ne h2.ne'
  have h1 := h.initiate rfl (show 4 < 5 by decide) (skip_eq (hne 46 (by decide) (by decide)))
  have h2 := h1.request rfl (onlyZero_releasable a 46 [])
  have h3 := h2.grant hg
  -- the process that asked takes pid 46 and exits
  have h4 := @At.resume _ _ _ { onlyZero a 47 [a 46] with
      pidAllocInitiated := true, pidAllocComplete := true } _ _ h3 (show 0 < 1 by decide)
    (.inr (hne 46 (by decide) (by decide))) fun ret => ⟨_, rfl⟩
  have h5 : At t' v { onlyZero a 47 [] with
      pidAllocInitiated := true, pidAllocComplete := true } [] [] := by
    rw [show ([] : List ℕ) = [a 46].erase (a 46) by simp]
    exact h4.two (.exit 2 (a 46)) (fun _ => trivial) (fun _ => show SiteStatus.up ≠ .out by decide)
      fun ret => ⟨ret, rfl⟩
  -- pid 47 stays in use
  have h6 := h5.enter_two (show 47 < 50 by decide) (hne 47 (by decide) (by decide)) (.inl rfl)
  have h7 := (h6.use_two (show 48 < 50 by decide) (hne 48 (by decide) (by decide)) (.inl rfl)).use_two
    (show 49 < 50 by decide) (hne 49 (by decide) (by decide)) (.inl rfl)
  have h8 := h7.respond (le_refl 50) rfl rfl
  have h9 := @At.consume _ _ _ (onlyZero (fun i => if i < 50 then
      if true = true ∧ 0 + i ∈ [a 47] then 0 else 0 + i else a i) 7 [a 47]) _ _ h8 rfl rfl rfl rfl
  rw [ha 47 (by decide)] at h9
  refine ⟨_, h9.use_many_two 39 (show 7 + 39 + 4 ≤ 50 by decide) fun k h10 h11 => ?_, ?_, ?_⟩
  · have h12 : 7 ≤ k := h10
    have h13 : k < 7 + 39 := h11
    show (if k < 50 then if true = true ∧ 0 + k ∈ [47] then 0 else 0 + k else a k) ≠ 0
    rw [if_pos (by omega), if_neg (by simp; omega)]
    omega
  · show (if 46 < 50 then if true = true ∧ 0 + 46 ∈ [47] then 0 else 0 + 46 else a 46) ≠ 0
    rw [if_pos (by decide), if_neg (by decide)]
    decide
  · rfl

/-- Site 2 has a process with a pid of chunk 0. -/
theorem pids_unique_pair : ∃ s : PidCluster, 46 ∈ (s.node 2).vars.proc ∧
    (∀ i, 46 ∈ (s.node i).vars.proc → i = 2) ∧ s.server.pidtable 0 = some 2 := by
  obtain ⟨a, h1, h2⟩ := at_first
  have hne : a 46 ≠ 0 := (h2 46 (by decide)).trans_ne (by decide)
  obtain ⟨ret, h3⟩ := (h1.initiate rfl (show 4 < 5 by decide) (skip_eq hne)).enter_two
    (show 46 < 50 by decide) hne (.inl rfl)
  obtain ⟨-, h4, -⟩ := pids_unique h3
  have h6 : 46 ∈ [a 46] := List.mem_singleton.2 (h2 46 (by decide)).symm
  exact ⟨_, h6, fun i hi => h4 i 2 46 hi h6, rfl⟩

/-- A process sleeps in `preallocate_pid_chunk`, another one takes the pid before an unavailable slot,
and the first one returns pid 0. -/
theorem pid_zero_returned : ∃ s, (pidLts 1 fun _ => 2).Reach s ∧ 0 ∈ s.returned := by
  obtain ⟨a, h1, h2⟩ := at_first
  have hb : Burned 0 ⟨update (fun _ => none) 0 (some 2), 0⟩ .boot :=
    ⟨rfl, le_refl 0, rfl, .inl rfl, fun c hc => by simp [hc.ne'], rfl,
      fun c hc => by simp [Nat.one_le_iff_ne_zero.1 hc]⟩
  obtain ⟨t, v, h3, hb'⟩ := burn h1 hb 599 le_rfl
  have hg : t.getpidchunk 2 0 = some (0, 50, ⟨update t.pidtable 0 (some 2), 0⟩) := by
    have h4 : t.passedOver 2 0 = none := by
      unfold PidServer.passedOver
      rw [if_pos (Int.le_refl 0), List.find?_eq_none]
      intro c hc
      rw [hb'.last] at hc
      have h5 : 1 ≤ c := by
        simp [PidServer.between, PIDTOCHUNK] at hc
        omega
      simpa using hb'.other c h5
    have h5 : t.nextFree 2 = some 0 := by
      unfold PidServer.nextFree PidServer.round
      rw [hb'.last, show ((599 : ℕ) : ℤ).toNat = 598 + 1 from rfl, List.range_succ_eq_map]
      exact List.find?_cons_of_pos (by simp [hb'.zero])
    unfold PidServer.getpidchunk
    rw [h4, h5]
    rfl
  obtain ⟨a', h4, h5, h6⟩ := at_second h3 h2 hg
  have h7 := h4.initiate rfl (show 4 < 5 by decide) (skip_eq h5)
  have h8 := h7.use_two (show 46 < 50 by decide) h5 (.inl rfl)
  have h9 := h8.request rfl (onlyZero_releasable a' 47 [47])
  obtain ⟨ret, h10⟩ := h9
  refine ⟨_, h10.of_restrict.step (l := .resume 2 false true) ⟨rfl, rfl⟩, ?_⟩
  exact List.mem_cons.2 (.inl h6.symm)

end Pair

end PidCluster

end Dux

end Hpux
