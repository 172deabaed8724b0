import Hpux910.Dux.DuxGetpid
import Mathlib

/-!
# The search for a chunk of process ids

`getpidchunk` goes round `pidtable` twice with a pointer, and stops when the pointer is at
`lastpidchunkallocated`, which is one before the table at first.

* `Turn`, `scan` : the turns of a loop with a pointer, and all of them.
* `PidServer.turn₁`, `PidServer.turn₂`, `PidServer.getpidchunkLoop` : the loops of `getpidchunk`.
* `PidServer.Searched` : what a call should do.
* `PidServer.scan₁_eq`, `PidServer.scan₂_eq` : a loop finds the first chunk in its way.
* `PidServer.scan₂_runs` : the second loop does not end for a mark before the table and a table without a chunk
  for the site.
* `PidServer.getpidchunk_searched_iff` : when a call does what it should.
-/

namespace Hpux

namespace Dux

open Function List

/-- A turn of a loop with a pointer: it is the last one, it sets the pointer, or it reads the entry at `p`, which
may be what is looked for, before the pointer goes to `next`. -/
inductive Turn
  | stop
  | goto (next : ℤ)
  | look (p : ℤ) (found : Bool) (next : ℤ)

/-- The turns of a loop: the entry found, if there is one, with all entries that are read.  There is no answer as
long as the loop is running. -/
def scan (turn : ℤ → Turn) : ℕ → ℤ → Option (Option ℤ × List ℤ)
  | 0, _ => none
  | fuel + 1, p =>
    match turn p with
    | .stop => some (none, [])
    | .goto next => scan turn fuel next
    | .look r found next =>
      if found then some (some r, [r]) else (scan turn fuel next).map fun x => (x.1, r :: x.2)

namespace PidServer

/-- `while (chunkp++ != lastpidchunkallocated)`. -/
def turn₁ (t : PidServer) (site : ℕ) (chunkp : ℤ) : Turn :=
  if chunkp = t.lastpidchunkallocated then .stop
  else if NUMPIDCHUNKS ≤ chunkp + 1 then .goto (-1)
  else .look (chunkp + 1) (t.pidtable (chunkp + 1).toNat = some site) (chunkp + 1)

/-- The `for` loop; a pointer behind the table is set to one before it, and counted up. -/
def turn₂ (t : PidServer) (site : ℕ) (chunkp : ℤ) : Turn :=
  if chunkp = t.lastpidchunkallocated then .stop
  else if NUMPIDCHUNKS ≤ chunkp then .goto (-1 + 1)
  else .look chunkp (t.pidtable chunkp.toNat = none ∨ t.pidtable chunkp.toNat = some site) (chunkp + 1)

/-- The second half of `getpidchunk`, after the entries in `reads` have been read. -/
def newChunk (t : PidServer) (site fuel : ℕ) (reads : List ℤ) : Option (Option (ℕ × ℕ × PidServer) × List ℤ) :=
  (scan (t.turn₂ site) fuel (t.lastpidchunkallocated + 1)).map fun x =>
    (x.1.map fun p => (CHUNKTOPID p.toNat, CHUNKTOSIZE p.toNat,
      { pidtable := update t.pidtable p.toNat (some site), lastpidchunkallocated := p }), reads ++ x.2)

/-- `getpidchunk` with its two loops, and the entries that are read. -/
def getpidchunkLoop (t : PidServer) (site : ℕ) (lastnewpid : ℤ) (fuel : ℕ) :
    Option (Option (ℕ × ℕ × PidServer) × List ℤ) :=
  if 0 ≤ lastnewpid then
    match scan (t.turn₁ site) fuel (PIDTOCHUNK lastnewpid.toNat) with
    | none => none
    | some (some p, reads) => some (some (CHUNKTOPID p.toNat, CHUNKTOSIZE p.toNat, t), reads)
    | some (none, reads) => t.newChunk site fuel reads
  else t.newChunk site fuel []

/-- The chunk is free, or the site's. -/
def Suits (t : PidServer) (site c : ℕ) : Prop := t.pidtable c = none ∨ t.pidtable c = some site

/-- What a call should do: it ends, reads only entries of the table, assigns to the site a chunk that suits it,
and fails only if there is none. -/
def Searched (t : PidServer) (site : ℕ) (lastnewpid : ℤ) : Prop :=
  ∃ fuel r reads, t.getpidchunkLoop site lastnewpid fuel = some (r, reads) ∧
    (∀ x ∈ reads, 0 ≤ x ∧ x < NUMPIDCHUNKS) ∧
    match r with
    | some (pid, size, t') => ∃ c < NUMPIDCHUNKS, pid = CHUNKTOPID c ∧ size = CHUNKTOSIZE c ∧ t.Suits site c ∧
        t'.pidtable = update t.pidtable c (some site)
    | none => ∀ c < NUMPIDCHUNKS, ¬ t.Suits site c

end PidServer

/-! ### One way along the table -/

variable {turn : ℤ → Turn}

/-- The entries are among some chunks. -/
def Among (reads : List ℤ) (chunks : List ℕ) : Prop := ∀ x ∈ reads, ∃ n ∈ chunks, x = n

theorem Among.append {r r' : List ℤ} {c c' : List ℕ} (h : Among r c) (h' : Among r' c') :
    Among (r ++ r') (c ++ c') := by
  intro x hx
  rcases mem_append.1 hx with hx | hx
  · obtain ⟨n, hn, rfl⟩ := h x hx
    exact ⟨n, mem_append_left _ hn, rfl⟩
  · obtain ⟨n, hn, rfl⟩ := h' x hx
    exact ⟨n, mem_append_right _ hn, rfl⟩

/-- What is left of a loop after some entries have been read, of which one may have been found. -/
def after (found : Option ℕ) (reads : List ℤ) (x : Option (Option ℤ × List ℤ)) : Option (Option ℤ × List ℤ) :=
  match found with
  | some r => some (some (r : ℤ), reads)
  | none => x.map fun x => (x.1, reads ++ x.2)

/-- The pointer goes along `k` entries, from `a` on. -/
theorem scan_along {f : ℕ → Bool} : ∀ (k a : ℕ) (p : ℤ) (fuel : ℕ),
    (∀ j < k, turn (p + (j : ℕ)) = .look ((a + j : ℕ) : ℤ) (f (a + j)) (p + (j : ℕ) + 1)) →
    ∃ reads, Among reads (List.range' a k) ∧
      scan turn (fuel + k) p = after ((List.range' a k).find? f) reads (scan turn fuel (p + k))
  | 0, a, p, fuel, _ => by
    refine ⟨[], nofun, ?_⟩
    rw [show p + ((0 : ℕ) : ℤ) = p by omega]
    show scan turn fuel p = _
    cases h : scan turn fuel p <;> simp [after]
  | k + 1, a, p, fuel, h => by
    have h0 := h 0 (Nat.succ_pos k)
    rw [show p + ((0 : ℕ) : ℤ) = p by omega, Nat.add_zero] at h0
    obtain ⟨reads, hreads, ih⟩ := scan_along (f := f) k (a + 1) (p + 1) fuel fun j hj => by
      have h1 := h (j + 1) (by omega)
      rw [show p + ((j + 1 : ℕ) : ℤ) = p + 1 + j by omega, show a + (j + 1) = a + 1 + j by omega] at h1
      exact h1
    rw [show fuel + (k + 1) = fuel + k + 1 by omega, scan, h0]
    dsimp only
    rw [ih, range'_succ, find?_cons]
    have ha : Among [(a : ℤ)] (a :: List.range' (a + 1) k) := by
      intro x hx
      exact ⟨a, mem_cons_self, mem_singleton.1 hx⟩
    cases hf : f a with
    | true => exact ⟨[(a : ℤ)], ha, by simp [after]⟩
    | false =>
      refine ⟨[(a : ℤ)] ++ reads, ?_, ?_⟩
      · intro x hx
        rcases mem_append.1 hx with hx | hx
        · exact ha x hx
        · obtain ⟨n, hn, rfl⟩ := hreads x hx
          exact ⟨n, mem_cons_of_mem _ hn, rfl⟩
      · rw [show p + 1 + (k : ℤ) = p + ((k + 1 : ℕ) : ℤ) by omega]
        cases (List.range' (a + 1) k).find? f <;> simp [after, comp_def]

namespace PidServer

variable (t : PidServer) (site : ℕ)

theorem turn₁_look {c : ℕ} (h1 : (c : ℤ) - 1 ≠ t.lastpidchunkallocated) (h2 : c < NUMPIDCHUNKS) :
    t.turn₁ site (c - 1) = .look c (t.pidtable c = some site) c := by
  unfold turn₁
  rw [if_neg h1, if_neg (by omega), show (c : ℤ) - 1 + 1 = c by omega, Int.toNat_natCast]

theorem turn₂_look {c : ℕ} (h1 : (c : ℤ) ≠ t.lastpidchunkallocated) (h2 : c < NUMPIDCHUNKS) :
    t.turn₂ site c = .look c (t.pidtable c = none ∨ t.pidtable c = some site) (c + 1) := by
  unfold turn₂
  rw [if_neg h1, if_neg (by omega), Int.toNat_natCast]

/-- Two ways along the table, one after the other. -/
theorem after_after {l l' : List ℕ} {f : ℕ → Bool} {r r' : List ℤ} {x : Option (Option ℤ × List ℤ)}
    (h : Among r l) (h' : Among r' l') : ∃ reads, Among reads (l ++ l') ∧
      after (l.find? f) r (after (l'.find? f) r' x) = after ((l ++ l').find? f) reads x := by
  rw [find?_append]
  cases h1 : l.find? f with
  | some a => exact ⟨r, fun x hx => by
      obtain ⟨n, hn, rfl⟩ := h x hx
      exact ⟨n, mem_append_left _ hn, rfl⟩, rfl⟩
  | none =>
    refine ⟨r ++ r', h.append h', ?_⟩
    cases h2 : l'.find? f <;> simp [after, comp_def]

/-- The first loop finds the first chunk of the site between the pointer and the mark. -/
theorem scan₁_eq {c : ℕ} (hc : c < NUMPIDCHUNKS) (h1 : -1 ≤ t.lastpidchunkallocated)
    (h2 : t.lastpidchunkallocated < NUMPIDCHUNKS) : ∃ fuel, ∀ n, ∃ reads,
    Among reads (between c t.lastpidchunkallocated) ∧ scan (t.turn₁ site) (n + fuel) c
      = after ((between c t.lastpidchunkallocated).find? fun p => t.pidtable p = some site) reads
          (some (none, [])) := by
  have hstop : ∀ n, scan (t.turn₁ site) (n + 1) t.lastpidchunkallocated = some (none, []) := by
    intro n
    rw [scan, turn₁, if_pos rfl]
  have hlook : ∀ (a k : ℕ), (∀ j < k, ((a + j : ℕ) : ℤ) - 1 ≠ t.lastpidchunkallocated ∧ a + j < NUMPIDCHUNKS) →
      ∀ j < k, t.turn₁ site (((a : ℤ) - 1) + (j : ℕ)) = .look ((a + j : ℕ) : ℤ)
        (t.pidtable (a + j) = some site) (((a : ℤ) - 1) + (j : ℕ) + 1) := by
    intro a k h j hj
    have h3 := t.turn₁_look site (h j hj).1 (h j hj).2
    rw [show ((a + j : ℕ) : ℤ) - 1 = (a : ℤ) - 1 + (j : ℕ) by omega] at h3
    rw [h3, show (a : ℤ) - 1 + (j : ℕ) + 1 = ((a + j : ℕ) : ℤ) by omega]
  by_cases hle : (c : ℤ) ≤ t.lastpidchunkallocated
  · obtain ⟨k, hk⟩ : ∃ k : ℕ, t.lastpidchunkallocated = c + k :=
      ⟨(t.lastpidchunkallocated - c).toNat, by omega⟩
    refine ⟨1 + k, fun n => ?_⟩
    obtain ⟨reads, hr, hs⟩ := scan_along (f := fun p => t.pidtable p = some site) k (c + 1) (((c + 1 : ℕ) : ℤ) - 1)
      (n + 1) (hlook (c + 1) k fun j hj => by omega)
    have hb : between c t.lastpidchunkallocated = List.range' (c + 1) k := by
      unfold between
      rw [if_pos hle, show ((c : ℤ) + 1).toNat = c + 1 by omega,
        show (t.lastpidchunkallocated - c).toNat = k by omega]
    rw [show ((c + 1 : ℕ) : ℤ) - 1 = c by omega, ← hk, hstop, show n + 1 + k = n + (1 + k) by omega] at hs
    exact ⟨reads, hb ▸ hr, hb ▸ hs⟩
  · obtain ⟨k, hk⟩ : ∃ k : ℕ, (NUMPIDCHUNKS : ℤ) - 1 = c + k := ⟨NUMPIDCHUNKS - 1 - c, by omega⟩
    obtain ⟨m, hm⟩ : ∃ m : ℕ, t.lastpidchunkallocated = -1 + m :=
      ⟨(t.lastpidchunkallocated + 1).toNat, by omega⟩
    refine ⟨1 + m + 1 + k, fun n => ?_⟩
    obtain ⟨r₁, hr₁, hs₁⟩ := scan_along (f := fun p => t.pidtable p = some site) k (c + 1)
      (((c + 1 : ℕ) : ℤ) - 1) (n + (1 + m + 1)) (hlook (c + 1) k fun j hj => by omega)
    obtain ⟨r₂, hr₂, hs₂⟩ := scan_along (f := fun p => t.pidtable p = some site) m 0 (((0 : ℕ) : ℤ) - 1)
      (n + 1) (hlook 0 m fun j hj => by omega)
    rw [show ((0 : ℕ) : ℤ) - 1 = -1 by omega, ← hm, hstop] at hs₂
    have hturn : scan (t.turn₁ site) (n + (1 + m + 1)) ((c : ℤ) + k) = scan (t.turn₁ site) (n + 1 + m) (-1) := by
      rw [show n + (1 + m + 1) = n + 1 + m + 1 by omega, scan, turn₁, if_neg (by omega), if_pos (by omega)]
    rw [show ((c + 1 : ℕ) : ℤ) - 1 = c by omega, hturn, hs₂,
      show n + (1 + m + 1) + k = n + (1 + m + 1 + k) by omega] at hs₁
    have hb : between c t.lastpidchunkallocated = List.range' (c + 1) k ++ List.range' 0 m := by
      unfold between
      rw [if_neg hle, show ((c : ℤ) + 1).toNat = c + 1 by omega,
        show ((NUMPIDCHUNKS : ℤ) - 1 - c).toNat = k by omega,
        show (t.lastpidchunkallocated + 1).toNat = m by omega, range_eq_range']
    obtain ⟨reads, hr, heq⟩ := after_after (f := fun p => t.pidtable p = some site) (x := some (none, [])) hr₁ hr₂
    rw [heq] at hs₁
    exact ⟨reads, hb ▸ hr, hb ▸ hs₁⟩

/-- What the second loop looks for. -/
def suits (c : ℕ) : Bool := t.pidtable c = none ∨ t.pidtable c = some site

theorem turn₂_along {a k : ℕ} (h : ∀ j < k, ((a + j : ℕ) : ℤ) ≠ t.lastpidchunkallocated ∧ a + j < NUMPIDCHUNKS) :
    ∀ j < k, t.turn₂ site ((a : ℤ) + (j : ℕ)) = .look ((a + j : ℕ) : ℤ) (t.suits site (a + j))
      ((a : ℤ) + (j : ℕ) + 1) := by
  intro j hj
  have h3 := t.turn₂_look site (h j hj).1 (h j hj).2
  rw [show ((a + j : ℕ) : ℤ) = (a : ℤ) + (j : ℕ) by omega] at h3 ⊢
  exact h3

/-- The second loop goes to the end of the table, and is at its start then. -/
theorem scan₂_end {a : ℕ} (h : t.lastpidchunkallocated < a) (ha : a ≤ NUMPIDCHUNKS) (n : ℕ) : ∃ reads,
    Among reads (List.range' a (NUMPIDCHUNKS - a)) ∧
    scan (t.turn₂ site) (n + 1 + (NUMPIDCHUNKS - a)) a =
      after ((List.range' a (NUMPIDCHUNKS - a)).find? (t.suits site)) reads (scan (t.turn₂ site) n 0) := by
  obtain ⟨reads, hr, hs⟩ := scan_along (f := t.suits site) (NUMPIDCHUNKS - a) a a (n + 1)
    (t.turn₂_along site fun j hj => by omega)
  have hturn : scan (t.turn₂ site) (n + 1) ((a : ℤ) + ((NUMPIDCHUNKS - a : ℕ) : ℤ)) = scan (t.turn₂ site) n 0 := by
    rw [scan, turn₂, if_neg (by omega), if_pos (by omega)]
    rfl
  rw [hturn] at hs
  exact ⟨reads, hr, hs⟩

theorem round_eq {a : ℕ} (h : t.lastpidchunkallocated + 1 = a) :
    round t.lastpidchunkallocated = List.range' a (NUMPIDCHUNKS - a) ++ List.range (a - 1) := by
  unfold round
  rw [show (t.lastpidchunkallocated + 1).toNat = a by omega,
    show ((NUMPIDCHUNKS : ℤ) - 1 - t.lastpidchunkallocated).toNat = NUMPIDCHUNKS - a by omega,
    show t.lastpidchunkallocated.toNat = a - 1 by omega]

/-- The second loop finds the first chunk that suits the site after the mark, when there is one or the mark is in
the table. -/
theorem scan₂_eq (h1 : -1 ≤ t.lastpidchunkallocated) (h2 : t.lastpidchunkallocated < NUMPIDCHUNKS)
    (h3 : t.lastpidchunkallocated ≠ -1 ∨ t.nextFree site ≠ none) : ∃ fuel, ∀ n, ∃ reads,
    Among reads (round t.lastpidchunkallocated) ∧
    scan (t.turn₂ site) (n + fuel) (t.lastpidchunkallocated + 1)
      = after (t.nextFree site) reads (some (none, [])) := by
  obtain ⟨a, ha⟩ : ∃ a : ℕ, t.lastpidchunkallocated + 1 = a := ⟨(t.lastpidchunkallocated + 1).toNat, by omega⟩
  have hnext : t.nextFree site = (round t.lastpidchunkallocated).find? (t.suits site) := rfl
  rw [hnext, t.round_eq ha] at h3 ⊢
  rw [ha]
  rcases Nat.eq_zero_or_pos a with rfl | hpos
  · -- the mark is before the table
    refine ⟨1 + NUMPIDCHUNKS, fun n => ?_⟩
    obtain ⟨reads, hr, hs⟩ := t.scan₂_end site (a := 0) (by omega) (by omega) n
    have hne : (List.range' 0 (NUMPIDCHUNKS - 0)).find? (t.suits site) ≠ none := by
      rcases h3 with h3 | h3
      · omega
      · simpa using h3
    obtain ⟨r, hr'⟩ := Option.ne_none_iff_exists'.1 hne
    rw [hr', show n + 1 + (NUMPIDCHUNKS - 0) = n + (1 + NUMPIDCHUNKS) by omega] at hs
    rw [show (0 : ℕ) - 1 = 0 from rfl, range_zero, append_nil, hr']
    exact ⟨reads, hr, hs⟩
  · refine ⟨1 + (a - 1) + 1 + (NUMPIDCHUNKS - a), fun n => ?_⟩
    obtain ⟨r₁, hr₁, hs₁⟩ := t.scan₂_end site (a := a) (by omega) (by omega) (n + (1 + (a - 1)))
    obtain ⟨r₂, hr₂, hs₂⟩ := scan_along (f := t.suits site) (a - 1) 0 ((0 : ℕ) : ℤ) (n + 1)
      (t.turn₂_along site fun j hj => by omega)
    have hstop : scan (t.turn₂ site) (n + 1) (((0 : ℕ) : ℤ) + ((a - 1 : ℕ) : ℤ)) = some (none, []) := by
      rw [scan, turn₂, if_pos (by omega)]
    rw [hstop, show ((0 : ℕ) : ℤ) = 0 from rfl, show n + 1 + (a - 1) = n + (1 + (a - 1)) by omega] at hs₂
    rw [hs₂, show n + (1 + (a - 1)) + 1 + (NUMPIDCHUNKS - a)
      = n + (1 + (a - 1) + 1 + (NUMPIDCHUNKS - a)) by omega] at hs₁
    obtain ⟨reads, hr, heq⟩ := after_after (f := t.suits site) (x := some (none, [])) hr₁ hr₂
    rw [heq] at hs₁
    rw [range_eq_range']
    exact ⟨reads, hr, hs₁⟩

/-- The second loop does not end for a mark before the table when no chunk of it suits the site. -/
theorem scan₂_runs (h1 : t.lastpidchunkallocated = -1) (h2 : ∀ c < NUMPIDCHUNKS, t.suits site c = false) :
    ∀ (fuel c : ℕ), c ≤ NUMPIDCHUNKS → scan (t.turn₂ site) fuel c = none := by
  intro fuel
  induction fuel with
  | zero => exact fun _ _ => rfl
  | succ fuel ih =>
    intro c hc
    rcases Nat.lt_or_eq_of_le hc with hlt | rfl
    · have h3 := t.turn₂_look site (c := c) (by omega) hlt
      have h4 := h2 c hlt
      unfold suits at h4
      rw [h4] at h3
      rw [scan, h3]
      have h5 := ih (c + 1) (by omega)
      rw [show ((c + 1 : ℕ) : ℤ) = (c : ℤ) + 1 by omega] at h5
      simp [h5]
    · have h5 := ih 0 (by omega)
      rw [scan, turn₂, if_neg (by omega), if_pos (Int.le_refl _)]
      exact h5

/-! ### When a call does what it should -/

theorem suits_iff (c : ℕ) : t.suits site c = true ↔ t.Suits site c := by
  unfold suits Suits
  exact decide_eq_true_iff

theorem mem_round (h1 : -1 ≤ t.lastpidchunkallocated) (h2 : t.lastpidchunkallocated < NUMPIDCHUNKS) {c : ℕ} :
    c ∈ round t.lastpidchunkallocated ↔ c < NUMPIDCHUNKS ∧ (c : ℤ) ≠ t.lastpidchunkallocated := by
  obtain ⟨a, ha⟩ : ∃ a : ℕ, t.lastpidchunkallocated + 1 = a := ⟨(t.lastpidchunkallocated + 1).toNat, by omega⟩
  rw [t.round_eq ha, mem_append, mem_range'_1, mem_range]
  omega

theorem mem_between {c last : ℤ} (h2 : last < NUMPIDCHUNKS) (hc : 0 ≤ c) {p : ℕ} (hp : p ∈ between c last) :
    p < NUMPIDCHUNKS ∧ (c ≠ last ∨ (p : ℤ) ≠ last) := by
  unfold between at hp
  split_ifs at hp
  · rw [mem_range'_1] at hp
    omega
  · rw [mem_append, mem_range'_1, mem_range] at hp
    omega

theorem mark_mem_between {c last : ℤ} (hc : 0 ≤ c) (h1 : 0 ≤ last) (hne : c ≠ last) :
    last.toNat ∈ between c last := by
  unfold between
  split_ifs
  · rw [mem_range'_1]
    omega
  · rw [mem_append, mem_range]
    omega

theorem nextFree_eq_none (h1 : -1 ≤ t.lastpidchunkallocated) (h2 : t.lastpidchunkallocated < NUMPIDCHUNKS) :
    t.nextFree site = none ↔
      ∀ c < NUMPIDCHUNKS, (c : ℤ) ≠ t.lastpidchunkallocated → ¬ t.Suits site c := by
  rw [show t.nextFree site = (round t.lastpidchunkallocated).find? (t.suits site) from rfl, find?_eq_none]
  constructor
  · exact fun h c hc hne hs => h c ((t.mem_round h1 h2).2 ⟨hc, hne⟩) ((t.suits_iff site c).2 hs)
  · exact fun h c hc hs =>
      h c ((t.mem_round h1 h2).1 hc).1 ((t.mem_round h1 h2).1 hc).2 ((t.suits_iff site c).1 hs)

/-- The reads are in the table. -/
def InTable (reads : List ℤ) : Prop := ∀ x ∈ reads, 0 ≤ x ∧ x < NUMPIDCHUNKS

theorem Among.inTable {reads : List ℤ} {l : List ℕ} (h : Among reads l) (hl : ∀ p ∈ l, p < NUMPIDCHUNKS) :
    InTable reads := by
  intro x hx
  obtain ⟨n, hn, rfl⟩ := h x hx
  have := hl n hn
  omega

/-- The second half of a call that ends. -/
theorem newChunk_eq (h1 : -1 ≤ t.lastpidchunkallocated) (h2 : t.lastpidchunkallocated < NUMPIDCHUNKS)
    (h3 : t.lastpidchunkallocated ≠ -1 ∨ t.nextFree site ≠ none) : ∃ fuel, ∀ n, ∃ reads, InTable reads ∧
    ∀ r, t.newChunk site (n + fuel) r = some ((t.nextFree site).map fun chunkp =>
      (CHUNKTOPID chunkp, CHUNKTOSIZE chunkp,
        { pidtable := update t.pidtable chunkp (some site), lastpidchunkallocated := chunkp }), r ++ reads) := by
  obtain ⟨fuel, hf⟩ := t.scan₂_eq site h1 h2 h3
  refine ⟨fuel, fun n => ?_⟩
  obtain ⟨reads, hr, hs⟩ := hf n
  refine ⟨reads, Among.inTable hr fun p hp => ((t.mem_round h1 h2).1 hp).1, fun r => ?_⟩
  rw [newChunk, hs]
  cases t.nextFree site <;> simp [after]

variable {lastnewpid : ℤ}

/-- A call that ends does what it is said to do in the table alone. -/
theorem getpidchunkLoop_eq (h1 : -1 ≤ t.lastpidchunkallocated)
    (h2 : t.lastpidchunkallocated < NUMPIDCHUNKS) (h3 : PIDTOCHUNK lastnewpid.toNat < NUMPIDCHUNKS)
    (h4 : t.passedOver site lastnewpid ≠ none ∨ t.lastpidchunkallocated ≠ -1 ∨ t.nextFree site ≠ none) :
    ∃ fuel, ∀ n, ∃ reads, InTable reads ∧
      t.getpidchunkLoop site lastnewpid (n + fuel) = some (t.getpidchunk site lastnewpid, reads) := by
  by_cases hpid : 0 ≤ lastnewpid
  · obtain ⟨f₁, hf₁⟩ := t.scan₁_eq site h3 h1 h2
    have hover : t.passedOver site lastnewpid = (between (PIDTOCHUNK lastnewpid.toNat)
        t.lastpidchunkallocated).find? fun p => t.pidtable p = some site := by
      rw [passedOver, if_pos hpid]
    rw [← hover] at hf₁
    have hin : ∀ {reads}, Among reads (between (PIDTOCHUNK lastnewpid.toNat) t.lastpidchunkallocated) →
        InTable reads := fun hr => Among.inTable hr fun p hp => (mem_between h2 (by omega) hp).1
    cases hp : t.passedOver site lastnewpid with
    | some c =>
      refine ⟨f₁, fun n => ?_⟩
      obtain ⟨reads, hr, hs⟩ := hf₁ n
      refine ⟨reads, hin hr, ?_⟩
      rw [getpidchunkLoop, if_pos hpid, hs, hp, getpidchunk, hp]
      rfl
    | none =>
      obtain ⟨f₂, hf₂⟩ := t.newChunk_eq site h1 h2 (h4.resolve_left fun h => h hp)
      refine ⟨f₁ + f₂, fun n => ?_⟩
      obtain ⟨r₁, hr₁, hs₁⟩ := hf₁ (n + f₂)
      obtain ⟨r₂, hr₂, hs₂⟩ := hf₂ (n + f₁)
      rw [hp] at hs₁
      refine ⟨r₁ ++ r₂, fun x hx => ?_, ?_⟩
      · rcases mem_append.1 hx with hx | hx
        · exact hin hr₁ x hx
        · exact hr₂ x hx
      · rw [getpidchunkLoop, if_pos hpid, show n + (f₁ + f₂) = n + f₂ + f₁ by omega, hs₁]
        dsimp only [after, Option.map_some]
        rw [show n + f₂ + f₁ = n + f₁ + f₂ by omega, hs₂, getpidchunk, hp]
        simp
  · have hp : t.passedOver site lastnewpid = none := by rw [passedOver, if_neg hpid]
    obtain ⟨f₂, hf₂⟩ := t.newChunk_eq site h1 h2 (h4.resolve_left fun h => h hp)
    refine ⟨f₂, fun n => ?_⟩
    obtain ⟨r₂, hr₂, hs₂⟩ := hf₂ n
    refine ⟨r₂, hr₂, ?_⟩
    rw [getpidchunkLoop, if_neg hpid, hs₂, getpidchunk, hp]
    simp

/-- More turns change nothing once a loop has ended. -/
theorem scan_mono {turn : ℤ → Turn} : ∀ (fuel n : ℕ) (p : ℤ) {x : Option ℤ × List ℤ},
    scan turn fuel p = some x → scan turn (fuel + n) p = some x
  | 0, _, _, _, h => absurd h nofun
  | fuel + 1, n, p, x, h => by
    rw [show fuel + 1 + n = fuel + n + 1 by omega]
    unfold scan at h ⊢
    cases hturn : turn p with
    | stop => rwa [hturn] at h
    | goto next =>
      rw [hturn] at h
      exact scan_mono fuel n next h
    | look r found next =>
      rw [hturn] at h
      dsimp only at h ⊢
      split_ifs at h ⊢ with hfound
      · exact h
      · obtain ⟨y, hy, rfl⟩ := Option.map_eq_some_iff.1 h
        rw [scan_mono fuel n next hy]
        rfl

theorem newChunk_mono {fuel : ℕ} (n : ℕ) {r : List ℤ} {x : Option (ℕ × ℕ × PidServer) × List ℤ}
    (h : t.newChunk site fuel r = some x) : t.newChunk site (fuel + n) r = some x := by
  unfold newChunk at h ⊢
  obtain ⟨y, hy, rfl⟩ := Option.map_eq_some_iff.1 h
  rw [scan_mono fuel n _ hy]
  rfl

theorem getpidchunkLoop_mono {fuel : ℕ} (n : ℕ) {x : Option (ℕ × ℕ × PidServer) × List ℤ}
    (h : t.getpidchunkLoop site lastnewpid fuel = some x) :
    t.getpidchunkLoop site lastnewpid (fuel + n) = some x := by
  unfold getpidchunkLoop at h ⊢
  split_ifs at h ⊢ with hpid
  · cases hs : scan (t.turn₁ site) fuel (PIDTOCHUNK lastnewpid.toNat) with
    | none =>
      rw [hs] at h
      exact absurd h nofun
    | some y =>
      obtain ⟨found, reads⟩ := y
      rw [hs] at h
      rw [scan_mono fuel n _ hs]
      cases found with
      | none => exact t.newChunk_mono site n h
      | some p => exact h
  · exact t.newChunk_mono site n h

/-- A call does not end for a mark before the table and a table without a chunk for the site. -/
theorem getpidchunkLoop_runs (h1 : t.lastpidchunkallocated = -1)
    (h2 : ∀ c < NUMPIDCHUNKS, ¬ t.Suits site c) (h3 : PIDTOCHUNK lastnewpid.toNat < NUMPIDCHUNKS) (fuel : ℕ) :
    t.getpidchunkLoop site lastnewpid fuel = none := by
  have hsuits : ∀ c < NUMPIDCHUNKS, t.suits site c = false := fun c hc =>
    Bool.eq_false_iff.2 fun h => h2 c hc ((t.suits_iff site c).1 h)
  have hnew : ∀ r, t.newChunk site fuel r = none := by
    intro r
    rw [newChunk, h1, show (-1 : ℤ) + 1 = ((0 : ℕ) : ℤ) from rfl,
      t.scan₂_runs site h1 hsuits fuel 0 (Nat.zero_le _)]
    rfl
  unfold getpidchunkLoop
  split_ifs with hpid
  · cases hs : scan (t.turn₁ site) fuel (PIDTOCHUNK lastnewpid.toNat) with
    | none => rfl
    | some y =>
      obtain ⟨found, reads⟩ := y
      cases found with
      | none => exact hnew _
      | some p =>
        -- the site has no chunk that the first loop could have found
        exfalso
        obtain ⟨f, hf⟩ := t.scan₁_eq site h3 (by omega) (by rw [h1]; decide)
        obtain ⟨r, -, hr⟩ := hf fuel
        have hnone : (between (PIDTOCHUNK lastnewpid.toNat) t.lastpidchunkallocated).find?
            (fun p => t.pidtable p = some site) = none := by
          rw [find?_eq_none]
          exact fun c hc hsite => h2 c (mem_between (by rw [h1]; decide) (by omega) hc).1
            (.inr (of_decide_eq_true hsite))
        rw [scan_mono fuel f _ hs, hnone] at hr
        exact absurd hr (by simp [after])
  · exact hnew _

/-- What a call that ends must have come back with. -/
theorem Searched.eq (h : t.Searched site lastnewpid) (h1 : -1 ≤ t.lastpidchunkallocated)
    (h2 : t.lastpidchunkallocated < NUMPIDCHUNKS) (h3 : PIDTOCHUNK lastnewpid.toNat < NUMPIDCHUNKS)
    (h4 : t.getpidchunk site lastnewpid = none) : t.lastpidchunkallocated ≠ -1 ∧
      ∀ c < NUMPIDCHUNKS, ¬ t.Suits site c := by
  obtain ⟨fuel, r, reads, hr, -, hres⟩ := h
  have hover : t.passedOver site lastnewpid = none := by
    unfold getpidchunk at h4
    cases hp : t.passedOver site lastnewpid with
    | none => rfl
    | some c =>
      rw [hp] at h4
      exact absurd h4 nofun
  have hnext : t.nextFree site = none := by
    unfold getpidchunk at h4
    rw [hover] at h4
    simpa using h4
  by_cases hm : t.lastpidchunkallocated = -1
  · exfalso
    refine absurd ((t.getpidchunkLoop_runs site hm ?_ h3 fuel).symm.trans hr) nofun
    exact fun c hc => (t.nextFree_eq_none site h1 h2).1 hnext c hc (by omega)
  · refine ⟨hm, ?_⟩
    obtain ⟨f, hf⟩ := t.getpidchunkLoop_eq site h1 h2 h3 (.inr (.inl hm))
    obtain ⟨reads', -, h5⟩ := hf fuel
    rw [t.getpidchunkLoop_mono site f hr, h4] at h5
    obtain ⟨rfl, -⟩ := Prod.mk.inj (Option.some.inj h5)
    exact hres

/-- `getpidchunk` ends, reads only the table, assigns a chunk that suits the site and fails only if there is none,
exactly if some chunk other than the one at the mark suits the site; or the mark is in the table, and its chunk
does not suit the site, or is the site's while the site's last new chunk is another one. -/
theorem getpidchunk_searched_iff {lastnewpid : ℤ} (h1 : -1 ≤ t.lastpidchunkallocated)
    (h2 : t.lastpidchunkallocated < NUMPIDCHUNKS) (h3 : PIDTOCHUNK lastnewpid.toNat < NUMPIDCHUNKS) :
    t.Searched site lastnewpid ↔
      (∃ c < NUMPIDCHUNKS, (c : ℤ) ≠ t.lastpidchunkallocated ∧ t.Suits site c) ∨
        ∃ c : ℕ, t.lastpidchunkallocated = c ∧ (¬ t.Suits site c ∨
          t.pidtable c = some site ∧ 0 ≤ lastnewpid ∧ PIDTOCHUNK lastnewpid.toNat ≠ c) := by
  have hfind : ∀ {c}, t.passedOver site lastnewpid = some c → c < NUMPIDCHUNKS ∧ t.pidtable c = some site := by
    intro c hc
    unfold passedOver at hc
    split_ifs at hc
    exact ⟨(mem_between h2 (by omega) (List.mem_of_find?_eq_some hc)).1, of_decide_eq_true (List.find?_some (p := fun c => decide (t.pidtable c = some site)) hc)⟩
  have hfree : ∀ {c}, t.nextFree site = some c → c < NUMPIDCHUNKS ∧ t.Suits site c := by
    intro c hc
    exact ⟨((t.mem_round h1 h2).1 (List.mem_of_find?_eq_some hc)).1,
      (t.suits_iff site c).1 (List.find?_some (p := t.suits site) hc)⟩
  constructor
  · intro h
    by_contra hno
    rw [not_or] at hno
    obtain ⟨hother, hmark⟩ := hno
    have hnext : t.nextFree site = none := (t.nextFree_eq_none site h1 h2).2
      fun c hc hne hs => hother ⟨c, hc, hne, hs⟩
    have hover : t.passedOver site lastnewpid = none := by
      by_contra hp
      obtain ⟨c, hc⟩ := Option.ne_none_iff_exists'.1 hp
      have hcm : (c : ℤ) = t.lastpidchunkallocated := by
        by_contra hne
        exact hother ⟨c, (hfind hc).1, hne, .inr (hfind hc).2⟩
      unfold passedOver at hc
      split_ifs at hc with hpid
      have hne := (mem_between h2 (by omega) (List.mem_of_find?_eq_some hc)).2
      exact hmark ⟨c, hcm.symm, .inr ⟨of_decide_eq_true (List.find?_some (p := fun c => decide (t.pidtable c = some site)) hc), hpid, by omega⟩⟩
    obtain ⟨hm, hall⟩ := h.eq t site h1 h2 h3 (by rw [getpidchunk, hover, hnext]; rfl)
    exact hmark ⟨t.lastpidchunkallocated.toNat, by omega, .inl (hall _ (by omega))⟩
  · intro h
    have hends : t.passedOver site lastnewpid ≠ none ∨ t.lastpidchunkallocated ≠ -1 ∨ t.nextFree site ≠ none := by
      rcases h with ⟨c, hc, hne, hs⟩ | ⟨c, hc, -⟩
      · exact .inr (.inr fun hn => (t.nextFree_eq_none site h1 h2).1 hn c hc hne hs)
      · exact .inr (.inl (by omega))
    obtain ⟨fuel, hf⟩ := t.getpidchunkLoop_eq site h1 h2 h3 hends
    obtain ⟨reads, hr, heq⟩ := hf 0
    refine ⟨_, _, reads, heq, hr, ?_⟩
    unfold getpidchunk
    cases hp : t.passedOver site lastnewpid with
    | some c =>
      refine ⟨c, (hfind hp).1, rfl, rfl, .inr (hfind hp).2, ?_⟩
      rw [← (hfind hp).2, update_eq_self]
    | none =>
      cases hn : t.nextFree site with
      | some c => exact ⟨c, (hfree hn).1, rfl, rfl, (hfree hn).2, rfl⟩
      | none =>
        intro c hc hs
        have hcm : (c : ℤ) = t.lastpidchunkallocated := by
          by_contra hne
          exact (t.nextFree_eq_none site h1 h2).1 hn c hc hne hs
        rcases h with ⟨c', hc', hne, hs'⟩ | ⟨c', hc', hns | ⟨hsite, hpid, hne⟩⟩
        · exact (t.nextFree_eq_none site h1 h2).1 hn c' hc' hne hs'
        · obtain rfl : c = c' := by omega
          exact hns hs
        · have hmem : t.lastpidchunkallocated.toNat ∈ between (PIDTOCHUNK lastnewpid.toNat) t.lastpidchunkallocated :=
            mark_mem_between (by omega) (by omega) (by omega)
          rw [passedOver, if_pos hpid, List.find?_eq_none] at hp
          refine hp _ hmem (decide_eq_true ?_)
          rw [show t.lastpidchunkallocated.toNat = c' by omega]
          exact hsite

/-- At boot the first call is right. -/
theorem getpidchunk_searched_boot : boot.Searched 1 (-1) :=
  (getpidchunk_searched_iff boot 1 (by decide) (by decide) (by decide)).2
    (.inl ⟨0, by decide, by decide, .inl rfl⟩)

/-- Two tables: only the chunk at the mark is free, which the search fails to find; and all chunks are those of
another site with the mark before the table, where the search does not end. -/
theorem getpidchunk_misses_mark :
    ¬ (PidServer.mk (fun c => if c = 3 then none else some 2) 3).Searched 1 (-1) ∧
      ¬ (PidServer.mk (fun _ => some 2) (-1)).Searched 1 (-1) := by
  constructor
  · intro h
    refine (h.eq _ _ (by decide) (by decide) (by decide) ?_).2 3 (by decide) (.inl rfl)
    rw [getpidchunk, show passedOver _ 1 (-1) = none from rfl]
    simp only [Option.map_eq_none_iff]
    refine (nextFree_eq_none _ 1 (by decide) (by decide)).2 fun c _ hne hs => ?_
    have hc : c ≠ 3 := fun hc => hne (by rw [hc]; rfl)
    simp [Suits, hc] at hs
  · rintro ⟨fuel, r, reads, hr, -, -⟩
    rw [getpidchunkLoop_runs _ 1 rfl (fun c _ hs => by simp [Suits] at hs) (by decide)] at hr
    exact absurd hr nofun

end PidServer

end Dux

end Hpux
