import Hpux910.Lib.SlotTable
import Mathlib

/-!
# Sitemaps

A sitemap (`dux/sitemap.c`) counts how often each site of a cluster uses a resource.  Physically it
is empty, or one embedded entry, or a chain of arrays of entries.

* `Sitemap` : `struct sitemap`.  The entries of the arrays along `s_next` are one list.
* `getsiteentry`, `getsitecount`, `updatesitecount`, `incSitecount`, `decSitecount`,
  `createsitelist` : the routines and macros.
* `Sitemap.count` : the function from sites to counts that a map stands for.
* `Sitemap.Ok` : the invariant.
* `getsiteentry_spec`, `updatesitecount_spec` : what the routines do to the function.
-/

namespace Hpux

namespace Dux

open List

/-- `short` arithmetic. -/
def i16 (x : ℤ) : ℤ := x.bmod (2 ^ 16)

theorem i16_eq {x : ℤ} (hlo : -2 ^ 15 ≤ x) (hhi : x < 2 ^ 15) : i16 x = x :=
  Int.bmod_eq_of_le (by omega) (by omega)

/-- The entries in one `struct sitearray`. -/
def sitearraysize : ℕ := 7

/-- `struct siteentry`. -/
structure SiteEntry where
  /-- `s_site`. -/
  sSite : ℕ
  /-- `s_count`; the entry is free when it is 0. -/
  sCount : ℤ
  deriving DecidableEq, Repr

/-- `s_maptype` with the union that it selects.  The types for a map that is locked are not needed:
the lock is held only while memory is allocated. -/
inductive Union
  /-- `S_MAPEMPTY`. -/
  | empty
  /-- `S_ONESITE` with `s_onesite`. -/
  | onesite (e : SiteEntry)
  /-- `S_ARRAY` with the entries of the arrays from `s_array` on. -/
  | array (entries : List SiteEntry)
  deriving DecidableEq, Repr

/-- `struct sitemap`. -/
structure Sitemap where
  /-- `s_count`, the number of sites. -/
  sCount : ℤ
  /-- `s_maptype` and `s_union`. -/
  union : Union
  deriving DecidableEq, Repr

/-- The calls of `panic`. -/
inductive Panic
  | decrementingNonexistentSite
  | countLtZero
  deriving DecidableEq, Repr

/-- `clearmap`. -/
def clearmap : Sitemap := ⟨0, .empty⟩

/-- `gettotalsites`. -/
def gettotalsites (m : Sitemap) : ℤ := m.sCount

/-- The entries. -/
def Sitemap.entries (m : Sitemap) : List SiteEntry :=
  match m.union with
  | .empty => []
  | .onesite e => [e]
  | .array entries => entries

/-- Write through a pointer to an entry. -/
def Sitemap.modify (m : Sitemap) (i : ℕ) (f : SiteEntry → SiteEntry) : Sitemap :=
  { m with union :=
      match m.union with
      | .empty => .empty
      | .onesite e => .onesite (f e)
      | .array entries => .array (entries.modify i f) }

/-- The loops of `getsiteentry` over the arrays: the entry that has the site, or the first that is
free. -/
def searchArray (mySite site : ℕ) : ℕ → Option ℕ → List SiteEntry → ℕ ⊕ Option ℕ
  | _, entry, [] => .inr entry
  | i, entry, e :: rest =>
    if e.sCount = 0 then searchArray mySite site (i + 1) (entry.or (some i)) rest
    else if e.sSite = site ∨ e.sSite = 0 ∧ site = mySite then .inl i
    else searchArray mySite site (i + 1) entry rest

/-- `getsiteentry`: a pointer to the entry, as its index among the entries, and the new map. -/
def getsiteentry (mySite : ℕ) (m : Sitemap) (site : ℕ) (create : Bool) : Option ℕ × Sitemap :=
  let site := if site = 0 then mySite else site
  match m.union with
  | .empty => if create then (some 0, ⟨1, .onesite ⟨site, 0⟩⟩) else (none, m)
  | .onesite e =>
    if e.sSite = site ∨ e.sSite = 0 ∧ site = mySite then (some 0, m)
    else if create then
      (some 1, ⟨2, .array (e :: ⟨site, 0⟩ :: List.replicate (sitearraysize - 2) ⟨0, 0⟩)⟩)
    else (none, m)
  | .array entries =>
    match searchArray mySite site 0 none entries with
    | .inl i => (some i, m)
    | .inr entry =>
      if create then
        match entry with
        | some i =>
          (some i, ⟨i16 (m.sCount + 1), .array (entries.modify i fun e => { e with sSite := site })⟩)
        | none =>
          (some 0, ⟨i16 (m.sCount + 1),
            .array (⟨site, 0⟩ :: List.replicate (sitearraysize - 1) ⟨0, 0⟩ ++ entries)⟩)
      else (none, m)

/-- The count of the entry that a pointer refers to. -/
def Sitemap.countAt (m : Sitemap) (i : ℕ) : ℤ := (m.entries[i]?.map SiteEntry.sCount).getD 0

/-- `getsitecount`. -/
def getsitecount (mySite : ℕ) (m : Sitemap) (site : ℕ) : ℤ :=
  match (getsiteentry mySite m site false).1 with
  | none => 0
  | some i => m.countAt i

/-- `updatesitecount`: the final count and the new map. -/
def updatesitecount (mySite : ℕ) (m : Sitemap) (site : ℕ) (value : ℤ) :
    Except Panic (ℤ × Sitemap) :=
  if value = 0 then .ok (0, m)
  else
    match getsiteentry mySite m site (value > 0) with
    | (none, _) => .error .decrementingNonexistentSite
    | (some i, m) =>
      let count := i16 (m.countAt i + value)
      let m := m.modify i fun e => { e with sCount := count }
      if count < 0 then .error .countLtZero
      else if count = 0 then
        let m := { m with sCount := i16 (m.sCount - 1) }
        -- the arrays are released with the last site
        .ok (0, if m.sCount = 0 then { m with union := .empty } else m)
      else .ok (count, m)

/-- `INC_SITECOUNT`. -/
def incSitecount (mySite : ℕ) (m : Sitemap) (site : ℕ) : Except Panic Sitemap :=
  let vSite := if site = 0 then mySite else site
  match m.union with
  | .onesite e =>
    if e.sSite = vSite then .ok { m with union := .onesite { e with sCount := i16 (e.sCount + 1) } }
    else (updatesitecount mySite m site 1).map Prod.snd
  | .empty => .ok ⟨1, .onesite ⟨vSite, 1⟩⟩
  | .array _ => (updatesitecount mySite m site 1).map Prod.snd

/-- `DEC_SITECOUNT`. -/
def decSitecount (mySite : ℕ) (m : Sitemap) (site : ℕ) : Except Panic Sitemap :=
  let vSite := if site = 0 then mySite else site
  match m.union with
  | .onesite e =>
    if e.sSite = vSite then
      let count := i16 (e.sCount - 1)
      if count = 0 then .ok ⟨i16 (m.sCount - 1), .empty⟩
      else .ok { m with union := .onesite { e with sCount := count } }
    else (updatesitecount mySite m site (-1)).map Prod.snd
  | _ => (updatesitecount mySite m site (-1)).map Prod.snd

/-- A list of sites for a multisite message: `maxsite` and the sites marked valid. -/
structure SiteList where
  /-- `maxsite`. -/
  maxsite : ℕ
  /-- `dm_sites[site].site_is_valid`. -/
  valid : ℕ → Bool

/-- The entries that `createsitelist` leaves out: those of the own site, and for an open that of the
site that opens, when it is its only use. -/
def SiteEntry.Skipped (mySite uSite : ℕ) (openFlag : Bool) (e : SiteEntry) : Prop :=
  e.sSite = mySite ∨ e.sSite = 0 ∨ openFlag = true ∧ e.sSite = uSite ∧ e.sCount = 1

instance (mySite uSite : ℕ) (openFlag : Bool) :
    DecidablePred (SiteEntry.Skipped mySite uSite openFlag) := fun e =>
  inferInstanceAs (Decidable (e.sSite = mySite ∨ e.sSite = 0 ∨
    openFlag = true ∧ e.sSite = uSite ∧ e.sCount = 1))

/-- The loop of `createsitelist` over the arrays. -/
def sitelistLoop (mySite uSite : ℕ) (openFlag : Bool) : List SiteEntry → SiteList → ℕ → SiteList × ℕ
  | [], mp, found => (mp, found)
  | e :: rest, mp, found =>
    if e.sCount ≠ 0 then
      if e.Skipped mySite uSite openFlag then sitelistLoop mySite uSite openFlag rest mp found
      else
        sitelistLoop mySite uSite openFlag rest
          ⟨if e.sSite > mp.maxsite then e.sSite else mp.maxsite,
            fun s => s = e.sSite || mp.valid s⟩ (found + 1)
    else sitelistLoop mySite uSite openFlag rest mp found

/-- `createsitelist`. -/
def createsitelist (mySite uSite : ℕ) (m : Sitemap) (openFlag : Bool) : Option SiteList :=
  match m.union with
  | .empty => none
  | .onesite e =>
    if e.Skipped mySite uSite openFlag then none
    else some ⟨e.sSite, fun s => s = e.sSite⟩
  | .array entries =>
    match sitelistLoop mySite uSite openFlag entries ⟨0, fun _ => false⟩ 0 with
    | (mp, found) => if found = 0 then none else some mp

/-! ### The meaning of a map -/

/-- Site 0 is the own site. -/
def norm (mySite site : ℕ) : ℕ := if site = 0 then mySite else site

/-- Entries as slots with a site. -/
abbrev slots (mySite : ℕ) : Slots SiteEntry ℕ := ⟨fun e => norm mySite e.sSite, SiteEntry.sCount⟩

/-- How often a site uses the resource. -/
def Sitemap.count (mySite : ℕ) (m : Sitemap) (site : ℕ) : ℤ :=
  (slots mySite).total m.entries (norm mySite site)

/-- The entries are in order: no site has two, the counts fit a `short`, `s_count` is the number of
sites, an embedded entry is in use, and there are whole arrays. -/
structure Sitemap.Ok (mySite : ℕ) (m : Sitemap) : Prop where
  slots : (slots mySite).Ok m.entries
  fits : ∀ e ∈ m.entries, e.sCount < 2 ^ 15
  sCount : m.sCount = ((Dux.slots mySite).live m.entries).length
  sCount_lt : m.sCount < 2 ^ 15
  onesite : ∀ e, m.union = .onesite e → e.sCount ≠ 0
  arrays : ∀ l, m.union = .array l → sitearraysize ∣ l.length

section

variable {mySite : ℕ} {m : Sitemap} {site : ℕ}

theorem ite_site (mySite site : ℕ) : (if site = 0 then mySite else site) = norm mySite site := rfl

theorem norm_norm (mySite site : ℕ) : norm mySite (norm mySite site) = norm mySite site := by
  unfold norm
  split_ifs <;> simp_all

variable {e : SiteEntry}

theorem match_iff : e.sSite = norm mySite site ∨
    e.sSite = 0 ∧ norm mySite site = mySite ↔ norm mySite e.sSite = norm mySite site := by
  unfold norm
  split_ifs <;> simp_all
  omega

theorem modify_append (pre : List SiteEntry) (e : SiteEntry) (post : List SiteEntry)
    (f : SiteEntry → SiteEntry) : (pre ++ e :: post).modify pre.length f = pre ++ f e :: post := by
  induction pre with
  | nil => rfl
  | cons a pre ih => simp [ih]

variable {pre post : List SiteEntry}

/-- Writing through a pointer. -/
theorem entries_modify (h : m.entries = pre ++ e :: post) (f : SiteEntry → SiteEntry) :
    (m.modify pre.length f).entries = pre ++ f e :: post := by
  obtain ⟨c, u⟩ := m
  cases u with
  | empty => simp [Sitemap.entries] at h
  | onesite e' =>
    cases pre with
    | nil =>
      obtain ⟨rfl, rfl⟩ := List.cons.inj h
      rfl
    | cons a pre => simp [Sitemap.entries] at h
  | array l =>
    have hl : l = pre ++ e :: post := h
    rw [hl]
    exact modify_append pre e post f

@[simp] theorem modify_sCount (m : Sitemap) (i : ℕ) (f : SiteEntry → SiteEntry) :
    (m.modify i f).sCount = m.sCount := rfl

theorem countAt_eq (h : m.entries = pre ++ e :: post) : m.countAt pre.length = e.sCount := by
  rw [Sitemap.countAt, h]
  simp

/-! ### Finding an entry -/

/-- The search finds the entry of the site, or the first free one when `entry` is not set. -/
theorem searchArray_spec (l : List SiteEntry) (i : ℕ) (entry : Option ℕ) :
    (∃ pre e post, l = pre ++ e :: post ∧ e.sCount ≠ 0 ∧ norm mySite e.sSite = norm mySite site ∧
      searchArray mySite (norm mySite site) i entry l = .inl (i + pre.length)) ∨
    (∀ e ∈ l, e.sCount ≠ 0 → norm mySite e.sSite ≠ norm mySite site) ∧
      ((∃ k, entry = some k ∧ searchArray mySite (norm mySite site) i entry l = .inr (some k)) ∨
        entry = none ∧ ((∀ e ∈ l, e.sCount ≠ 0) ∧
            searchArray mySite (norm mySite site) i entry l = .inr none ∨
          ∃ pre e post, l = pre ++ e :: post ∧ e.sCount = 0 ∧
            searchArray mySite (norm mySite site) i entry l = .inr (some (i + pre.length)))) := by
  induction l generalizing i entry with
  | nil =>
    refine .inr ⟨by simp, ?_⟩
    cases entry with
    | none => exact .inr ⟨rfl, .inl ⟨by simp, rfl⟩⟩
    | some k => exact .inl ⟨k, rfl, rfl⟩
  | cons a l ih =>
    by_cases ha : a.sCount = 0
    · have hstep : searchArray mySite (norm mySite site) i entry (a :: l) =
          searchArray mySite (norm mySite site) (i + 1) (entry.or (some i)) l := by
        rw [searchArray, if_pos ha]
      rw [hstep]
      obtain ⟨pre, e, post, rfl, he, hk, hs⟩ | ⟨hno, hs⟩ := ih (i + 1) (entry.or (some i))
      · refine .inl ⟨a :: pre, e, post, rfl, he, hk, ?_⟩
        rw [hs, length_cons]
        congr 1
        omega
      · refine .inr ⟨?_, ?_⟩
        · intro e he hc
          obtain rfl | he := mem_cons.1 he
          · exact absurd ha hc
          · exact hno e he hc
        · obtain ⟨k, hk, hs⟩ | ⟨hk, -⟩ := hs
          · cases entry with
            | none =>
              obtain rfl : i = k := by simpa using hk
              exact .inr ⟨rfl, .inr ⟨[], a, l, rfl, ha, hs⟩⟩
            | some k' => exact .inl ⟨k, hk, hs⟩
          · cases entry <;> simp at hk
    · by_cases hk : a.sSite = norm mySite site ∨ a.sSite = 0 ∧ norm mySite site = mySite
      · refine .inl ⟨[], a, l, rfl, ha, match_iff.1 hk, ?_⟩
        rw [searchArray, if_neg ha, if_pos hk]
        rfl
      · have hstep : searchArray mySite (norm mySite site) i entry (a :: l) =
            searchArray mySite (norm mySite site) (i + 1) entry l := by
          rw [searchArray, if_neg ha, if_neg hk]
        have hk' := fun h => hk (match_iff.2 h)
        rw [hstep]
        obtain ⟨pre, e, post, rfl, he, hke, hs⟩ | ⟨hno, hs⟩ := ih (i + 1) entry
        · refine .inl ⟨a :: pre, e, post, rfl, he, hke, ?_⟩
          rw [hs, length_cons]
          congr 1
          omega
        · refine .inr ⟨?_, hs.imp id fun ⟨hnone, hs⟩ => ⟨hnone, ?_⟩⟩
          · intro e he hc
            obtain rfl | he := mem_cons.1 he
            · exact hk'
            · exact hno e he hc
          · obtain ⟨hall, hs⟩ | ⟨pre, e, post, rfl, he, hs⟩ := hs
            · refine .inl ⟨?_, hs⟩
              intro e he
              obtain rfl | he := mem_cons.1 he
              · exact ha
              · exact hall e he
            · refine .inr ⟨a :: pre, e, post, rfl, he, ?_⟩
              rw [hs, length_cons]
              congr 2
              omega

theorem count_eq_zero (h : ∀ e ∈ m.entries, e.sCount ≠ 0 → norm mySite e.sSite ≠ norm mySite site) :
    m.count mySite site = 0 :=
  Slots.total_eq_zero h

/-- The pointer is to the used entry of the site. -/
def Found (mySite : ℕ) (m : Sitemap) (site : ℕ) (i : ℕ) : Prop :=
  ∃ pre e post, m.entries = pre ++ e :: post ∧ i = pre.length ∧ e.sCount ≠ 0 ∧
    norm mySite e.sSite = norm mySite site

/-- The pointer is to a new entry in `m'`, and the used entries are those of `m`. -/
def Created (mySite : ℕ) (m : Sitemap) (site : ℕ) (i : ℕ) (m' : Sitemap) : Prop :=
  ∃ pre post, m'.entries = pre ++ ⟨norm mySite site, 0⟩ :: post ∧ i = pre.length ∧
    (slots mySite).live (pre ++ post) = (slots mySite).live m.entries ∧
    (∀ e ∈ pre ++ post, e ∈ m.entries ∨ e.sCount = 0) ∧ m'.sCount = m.sCount + 1 ∧
    (∀ l, m'.union = .array l → sitearraysize ∣ l.length) ∧
    (∀ e, m'.union = .onesite e → m'.sCount = 1)

theorem live_replicate (n : ℕ) : (slots mySite).live (List.replicate n ⟨0, 0⟩) = [] := by
  simp [Slots.live]

theorem getsiteentry_onesite_eq (c : ℤ) (e : SiteEntry) (create : Bool) :
    getsiteentry mySite ⟨c, .onesite e⟩ site create =
      if e.sSite = norm mySite site ∨ e.sSite = 0 ∧ norm mySite site = mySite then
        (some 0, ⟨c, .onesite e⟩)
      else if create then
        (some 1, ⟨2, .array (e :: ⟨norm mySite site, 0⟩ :: List.replicate (sitearraysize - 2) ⟨0, 0⟩)⟩)
      else (none, ⟨c, .onesite e⟩) := rfl

theorem getsiteentry_onesite {c : ℤ} (h : Sitemap.Ok mySite ⟨c, .onesite e⟩) (create : Bool) :
    (∃ i, getsiteentry mySite ⟨c, .onesite e⟩ site create = (some i, ⟨c, .onesite e⟩) ∧
      Found mySite ⟨c, .onesite e⟩ site i) ∨ norm mySite e.sSite ≠ norm mySite site ∧
      (create = false ∧ getsiteentry mySite ⟨c, .onesite e⟩ site create = (none, ⟨c, .onesite e⟩) ∨
        create = true ∧ ∃ i m', getsiteentry mySite ⟨c, .onesite e⟩ site create = (some i, m') ∧
          Created mySite ⟨c, .onesite e⟩ site i m') := by
  have he : e.sCount ≠ 0 := h.onesite e rfl
  have hc : c = 1 := by
    have hlen := h.sCount
    rwa [Sitemap.entries, Slots.live_cons_of_ne he] at hlen
  by_cases hk : e.sSite = norm mySite site ∨ e.sSite = 0 ∧ norm mySite site = mySite
  · refine .inl ⟨0, ?_, [], e, [], rfl, rfl, he, match_iff.1 hk⟩
    rw [getsiteentry_onesite_eq, if_pos hk]
  · refine .inr ⟨fun h => hk (match_iff.2 h), ?_⟩
    cases create with
    | false =>
      refine .inl ⟨rfl, ?_⟩
      rw [getsiteentry_onesite_eq, if_neg hk]
      rfl
    | true =>
      refine .inr ⟨rfl, 1, ⟨2, .array (e :: ⟨norm mySite site, 0⟩ ::
        List.replicate (sitearraysize - 2) ⟨0, 0⟩)⟩, ?_, [e],
        List.replicate (sitearraysize - 2) ⟨0, 0⟩, rfl, rfl, ?_, ?_, ?_, ?_, ?_⟩
      · rw [getsiteentry_onesite_eq, if_neg hk]
        rfl
      · rw [Slots.live_append, live_replicate, append_nil]
        rfl
      · intro f hf
        obtain hf | hf := mem_append.1 hf
        · exact .inl hf
        · exact .inr (by rw [eq_of_mem_replicate hf])
      · simp only [hc]
        rfl
      · intro l hl
        obtain rfl := Union.array.inj hl
        simp [sitearraysize]
      · simp

theorem getsiteentry_array {c : ℤ} {l : List SiteEntry} (h : Sitemap.Ok mySite ⟨c, .array l⟩)
    (create : Bool)
    (hroom : create = true → (Sitemap.count mySite ⟨c, .array l⟩ site = 0) → c + 1 < 2 ^ 15) :
    (∃ i, getsiteentry mySite ⟨c, .array l⟩ site create = (some i, ⟨c, .array l⟩) ∧
      Found mySite ⟨c, .array l⟩ site i) ∨
    (∀ e ∈ l, e.sCount ≠ 0 → norm mySite e.sSite ≠ norm mySite site) ∧
      (create = false ∧ getsiteentry mySite ⟨c, .array l⟩ site create = (none, ⟨c, .array l⟩) ∨
        create = true ∧ ∃ i m', getsiteentry mySite ⟨c, .array l⟩ site create = (some i, m') ∧
          Created mySite ⟨c, .array l⟩ site i m') := by
  have hcount : 0 ≤ c := by
    have := h.sCount
    simp only at this
    omega
  have hdvd := h.arrays l rfl
  obtain ⟨pre, e, post, rfl, he, hk, hs⟩ | ⟨hno, hs⟩ :=
    @searchArray_spec mySite site l 0 none
  · refine .inl ⟨pre.length, ?_, pre, e, post, rfl, rfl, he, hk⟩
    simp only [getsiteentry, ite_site, hs, Nat.zero_add]
  · refine .inr ⟨hno, ?_⟩
    obtain ⟨k, hk, -⟩ | ⟨-, hs⟩ := hs
    · cases hk
    cases create with
    | false =>
      refine .inl ⟨rfl, ?_⟩
      obtain ⟨-, hs⟩ | ⟨pre, e, post, -, -, hs⟩ := hs <;> simp [getsiteentry, ite_site, hs]
    | true =>
      have hc : i16 (c + 1) = c + 1 := i16_eq (by omega) (hroom rfl (count_eq_zero hno))
      refine .inr ⟨rfl, ?_⟩
      obtain ⟨-, hs⟩ | ⟨pre, e, post, rfl, he, hs⟩ := hs
      · -- a new array in front of the others
        refine ⟨0, ⟨c + 1, .array (⟨norm mySite site, 0⟩ ::
          List.replicate (sitearraysize - 1) ⟨0, 0⟩ ++ l)⟩, ?_, [],
          List.replicate (sitearraysize - 1) ⟨0, 0⟩ ++ l, rfl, rfl, ?_, ?_, rfl, ?_, ?_⟩
        · simp [getsiteentry, ite_site, hs, hc]
        · rw [nil_append, Slots.live_append, live_replicate]
          rfl
        · intro f hf
          rw [nil_append] at hf
          obtain hf | hf := mem_append.1 hf
          · exact .inr (by rw [eq_of_mem_replicate hf])
          · exact .inl hf
        · intro l' hl'
          obtain rfl := Union.array.inj hl'
          simp [sitearraysize] at hdvd ⊢
          omega
        · simp
      · -- the first free entry
        refine ⟨pre.length, ⟨c + 1, .array (pre ++ ⟨norm mySite site, 0⟩ :: post)⟩, ?_, pre, post,
          rfl, rfl, ?_, ?_, rfl, ?_, ?_⟩
        · obtain ⟨s, n⟩ := e
          obtain rfl : n = 0 := he
          simp [getsiteentry, ite_site, hs, hc, modify_append]
        · simp only [Sitemap.entries, Slots.live_append]
          rw [Slots.live_cons_of_free he]
        · intro f hf
          obtain hf | hf := mem_append.1 hf
          · exact .inl (by simp [Sitemap.entries, hf])
          · exact .inl (by simp [Sitemap.entries, hf])
        · intro l' hl'
          obtain rfl := Union.array.inj hl'
          simpa using hdvd
        · simp

/-- `getsiteentry` finds the entry of the site, or tells that there is none, or makes one. -/
theorem getsiteentry_spec (h : m.Ok mySite) (create : Bool)
    (hroom : create = true → m.count mySite site = 0 → m.sCount + 1 < 2 ^ 15) :
    (∃ i, getsiteentry mySite m site create = (some i, m) ∧ Found mySite m site i) ∨
    (∀ e ∈ m.entries, e.sCount ≠ 0 → norm mySite e.sSite ≠ norm mySite site) ∧
      (create = false ∧ getsiteentry mySite m site create = (none, m) ∨
        create = true ∧ ∃ i m', getsiteentry mySite m site create = (some i, m') ∧
          Created mySite m site i m') := by
  obtain ⟨c, u⟩ := m
  cases u with
  | empty =>
    have hc : c = 0 := h.sCount
    refine .inr ⟨by simp [Sitemap.entries], ?_⟩
    cases create with
    | false => exact .inl ⟨rfl, rfl⟩
    | true =>
      refine .inr ⟨rfl, 0, ⟨1, .onesite ⟨norm mySite site, 0⟩⟩, rfl, [], [], rfl, rfl, rfl, by simp,
        ?_, by simp, by simp⟩
      simp only [hc]
      rfl
  | onesite e =>
    refine (getsiteentry_onesite h create).imp id fun ⟨hne, hs⟩ => ⟨?_, hs⟩
    intro f hf _
    obtain rfl := mem_singleton.1 hf
    exact hne
  | array l => exact getsiteentry_array h create hroom

/-! ### Counts -/

theorem Found.count_eq (h : m.Ok mySite) {i : ℕ} (hf : Found mySite m site i) :
    m.count mySite site = m.countAt i := by
  obtain ⟨pre, e, post, hent, rfl, he, hk⟩ := hf
  have hok := h.slots
  rw [countAt_eq hent, Sitemap.count, ← hk, hent]
  rw [hent] at hok
  exact hok.total_mem he

theorem getsitecount_spec (h : m.Ok mySite) (site : ℕ) :
    getsitecount mySite m site = m.count mySite site := by
  obtain ⟨i, hget, hf⟩ | ⟨hno, ⟨-, hget⟩ | ⟨hfalse, -⟩⟩ := @getsiteentry_spec mySite m site h false (by simp)
  · rw [getsitecount, hget, hf.count_eq h]
  · rw [getsitecount, hget, count_eq_zero hno]
  · cases hfalse

theorem Sitemap.Ok.sites (h : m.Ok mySite) : ∃ sites : List ℕ, sites.Nodup ∧
    (∀ k, k ∈ sites ↔ (Dux.slots mySite).total m.entries k ≠ 0) ∧ m.sCount = sites.length :=
  ⟨_, h.slots.nodup, fun _ => h.slots.total_ne_zero.symm, by rw [length_map, h.sCount]⟩

/-- What an update does to the function. -/
structure Updated (mySite : ℕ) (m : Sitemap) (site : ℕ) (value : ℤ) (m' : Sitemap) : Prop where
  ok : m'.Ok mySite
  total : ∀ k, (slots mySite).total m'.entries k =
    (slots mySite).total m.entries k + if norm mySite site = k then value else 0

/-- Writing a count that is not 0 to the entry that `getsiteentry` gave. -/
theorem Updated.write {m₁ : Sitemap} {value c : ℤ}
    (h : m₁.entries = pre ++ e :: post) (hk : norm mySite e.sSite = norm mySite site)
    (hrest : (slots mySite).Ok (pre ++ post)) (hfits : ∀ f ∈ pre ++ post, f.sCount < 2 ^ 15)
    (hkeys : ∀ f ∈ pre ++ post, f.sCount ≠ 0 → norm mySite f.sSite ≠ norm mySite site)
    (htotal : ∀ k, (slots mySite).total (pre ++ post) k + (if norm mySite site = k then e.sCount
      else 0) = (slots mySite).total m.entries k)
    (hc : c = e.sCount + value) (hpos : 0 < c) (hlt : c < 2 ^ 15)
    (hcount : m₁.sCount = ((slots mySite).live (pre ++ post)).length + 1)
    (hcount' : m₁.sCount < 2 ^ 15) (harrays : ∀ l, m₁.union = .array l → sitearraysize ∣ l.length) :
    Updated mySite m site value (m₁.modify pre.length fun e => { e with sCount := c }) := by
  have hent := entries_modify h fun e => { e with sCount := c }
  refine ⟨⟨?_, ?_, ?_, hcount', ?_, ?_⟩, ?_⟩
  · rw [hent]
    refine hrest.set hpos.le fun f hf hv => ?_
    have := hkeys f hf hv
    simp only
    rwa [hk]
  · rw [hent]
    intro f hf
    obtain hf | hf := mem_append.1 hf
    · exact hfits f (by simp [hf])
    · obtain rfl | hf := mem_cons.1 hf
      · exact hlt
      · exact hfits f (by simp [hf])
  · have hlive : ((slots mySite).live (pre ++ { e with sCount := c } :: post)).length =
        ((slots mySite).live (pre ++ post)).length + 1 := by
      rw [Slots.live_append, Slots.live_cons_of_ne hpos.ne', Slots.live_append,
        length_append, length_append, length_cons]
      omega
    rw [hent, hlive]
    exact_mod_cast hcount
  · intro f hf
    have hmem : f ∈ pre ++ { e with sCount := c } :: post := by
      rw [← hent, Sitemap.entries, hf]
      simp
    obtain ⟨n, u⟩ := m₁
    cases u with
    | onesite e' =>
      obtain rfl := Union.onesite.inj hf
      exact hpos.ne'
    | empty => cases hf
    | array l => cases hf
  · intro l hl
    obtain ⟨n, u⟩ := m₁
    cases u with
    | array l' =>
      obtain rfl := Union.array.inj hl
      simpa using harrays l' rfl
    | empty => cases hl
    | onesite e' => cases hl
  · intro k
    rw [hent, ← htotal k, Slots.total_append, Slots.total_cons, Slots.total_append, Slots.term]
    simp only [hk]
    split_ifs <;> omega

/-- Taking out the last use of a site. -/
theorem Updated.clear (h : m.Ok mySite) (hent : m.entries = pre ++ e :: post) (he : e.sCount ≠ 0)
    (hk : norm mySite e.sSite = norm mySite site) :
    let m₁ := { m.modify pre.length (fun e => { e with sCount := 0 }) with sCount := m.sCount - 1 }
    Updated mySite m site (-e.sCount) (if m₁.sCount = 0 then { m₁ with union := .empty } else m₁) := by
  intro m₁
  have hent₁ : m₁.entries = pre ++ { e with sCount := 0 } :: post := entries_modify hent _
  have hok := h.slots
  rw [hent] at hok
  have hlive : (slots mySite).live m₁.entries = (slots mySite).live (pre ++ post) := by
    rw [hent₁, Slots.live_append, Slots.live_cons_of_free rfl, Slots.live_append]
  have hcount : m₁.sCount = ((slots mySite).live m₁.entries).length := by
    have hs := h.sCount
    rw [hent, Slots.live_append, Slots.live_cons_of_ne he, length_append,
      length_cons] at hs
    rw [hlive, Slots.live_append, length_append]
    simp only [m₁]
    omega
  have htotal : ∀ k, (slots mySite).total m₁.entries k =
      (slots mySite).total m.entries k + if norm mySite site = k then -e.sCount else 0 := by
    intro k
    rw [hent₁, hent, Slots.total_set e]
    simp only [Slots.term, hk]
    split_ifs <;> omega
  by_cases hz : m₁.sCount = 0
  · rw [if_pos hz]
    refine ⟨⟨⟨.nil, by simp [Sitemap.entries]⟩, by simp [Sitemap.entries], hz, by simp [hz],
      by simp, by simp⟩, fun k => ?_⟩
    rw [← htotal k, ← Slots.total_live m₁.entries]
    have hnil : (slots mySite).live m₁.entries = [] := by
      rw [← length_eq_zero_iff]
      omega
    rw [hnil]
    rfl
  · rw [if_neg hz]
    have hsub : (pre ++ post).Sublist (pre ++ e :: post) :=
      List.Sublist.append_left (sublist_cons_self _ _) _
    refine ⟨⟨?_, ?_, hcount, ?_, ?_, ?_⟩, htotal⟩
    · rw [hent₁]
      refine (hok.sublist hsub).set (le_refl 0) fun f hf hv => ?_
      exact hok.key_ne he f hf hv
    · have hfits := h.fits
      rw [hent] at hfits
      rw [hent₁]
      intro f hf
      obtain hf | hf := mem_append.1 hf
      · exact hfits f (by simp [hf])
      · obtain rfl | hf := mem_cons.1 hf
        · simp
        · exact hfits f (by simp [hf])
    · have := h.sCount_lt
      simp only [m₁]
      omega
    · -- an embedded entry is the only one
      intro f hf
      refine absurd ?_ hz
      rw [hcount, hlive]
      have hone : m₁.entries = [f] := by rw [Sitemap.entries, hf]
      rw [hent₁] at hone
      obtain ⟨rfl, rfl⟩ : pre = [] ∧ post = [] := by
        have hlen := congrArg List.length hone
        simp only [length_append, length_cons, length_nil] at hlen
        exact ⟨length_eq_zero_iff.1 (by omega), length_eq_zero_iff.1 (by omega)⟩
      rfl
    · intro l hl
      obtain ⟨n, u⟩ := m
      cases u with
      | array l' =>
        obtain rfl := Union.array.inj hl
        simpa using h.arrays l' rfl
      | empty => cases hl
      | onesite e' => cases hl

/-- `updatesitecount` adds `value` at the site, when the result and the number of sites fit a
`short`. -/
theorem updatesitecount_spec (h : m.Ok mySite) {value : ℤ} (hlo : 0 ≤ m.count mySite site + value)
    (hhi : m.count mySite site + value < 2 ^ 15)
    (hroom : 0 < value → m.count mySite site = 0 → m.sCount + 1 < 2 ^ 15) : ∃ v m',
      updatesitecount mySite m site value = .ok (v, m') ∧ Updated mySite m site value m' ∧
        (value ≠ 0 → v = m.count mySite site + value) := by
  by_cases hv : value = 0
  · subst hv
    exact ⟨0, m, rfl, ⟨h, by simp⟩, by simp⟩
  have hok := h.slots
  rw [updatesitecount, if_neg hv]
  obtain ⟨i, hget, hf⟩ | ⟨hno, ⟨hfalse, hget⟩ | ⟨htrue, i, m₁, hget, hnew⟩⟩ :=
    @getsiteentry_spec mySite m site h (decide (value > 0)) (by simpa using hroom)
  · -- the site has an entry
    have hcount := hf.count_eq h
    obtain ⟨pre, e, post, hent, rfl, he, hk⟩ := hf
    rw [hent] at hok
    have hat := countAt_eq hent
    have hc : i16 (m.countAt pre.length + value) = e.sCount + value := by
      rw [hat]
      exact i16_eq (by omega) (by omega)
    simp only [hget, hc]
    rw [if_neg (by omega)]
    by_cases hz : e.sCount + value = 0
    · have hs : i16 (m.sCount - 1) = m.sCount - 1 := by
        have := h.sCount
        have := h.sCount_lt
        exact i16_eq (by omega) (by omega)
      obtain rfl : value = -e.sCount := by omega
      have hclear := Updated.clear h hent he hk
      rw [if_pos hz, hz]
      refine ⟨0, _, rfl, ?_, fun _ => by omega⟩
      simp only [modify_sCount, hs]
      exact hclear
    · rw [if_neg hz]
      have hsub : (pre ++ post).Sublist (pre ++ e :: post) :=
        List.Sublist.append_left (sublist_cons_self _ _) _
      have hfits := h.fits
      rw [hent] at hfits
      refine ⟨_, _, rfl, Updated.write hent hk (hok.sublist hsub)
        (fun f hf => hfits f (hsub.subset hf)) ?_ ?_ rfl (by omega) (by omega) ?_ h.sCount_lt
        h.arrays, fun _ => by omega⟩
      · intro f hf hfv
        have := hok.key_ne he f hf hfv
        simp only [hk] at this
        exact this
      · intro k
        rw [hent, Slots.total_append, Slots.total_append, Slots.total_cons, Slots.term]
        simp only [hk]
        omega
      · rw [h.sCount, hent, Slots.live_append, Slots.live_cons_of_ne he, Slots.live_append,
          length_append, length_append, length_cons]
        push_cast
        omega
  · -- nothing to decrement
    have hzero := count_eq_zero hno
    simp only [gt_iff_lt, decide_eq_false_iff_not, not_lt] at hfalse
    omega
  · -- a new entry
    have hzero := count_eq_zero hno
    simp only [gt_iff_lt, decide_eq_true_eq] at htrue
    obtain ⟨pre, post, hent, rfl, hlive, hmem, hs, harr, -⟩ := hnew
    have hat := countAt_eq hent
    have hc : i16 (m₁.countAt pre.length + value) = value := by
      rw [hat]
      simp only [zero_add]
      exact i16_eq (by omega) (by omega)
    simp only [hget, hc]
    rw [if_neg (by omega), if_neg hv]
    have hrest : (slots mySite).Ok (pre ++ post) := by
      refine ⟨by rw [hlive]; exact hok.1, fun f hf => ?_⟩
      obtain hf | hf := hmem f hf
      · exact hok.2 f hf
      · exact hf.ge
    refine ⟨_, _, rfl, Updated.write hent (norm_norm mySite site) hrest (fun f hf => ?_) ?_ ?_
      (by simp) htrue (by omega) ?_ (by have := hroom htrue hzero; omega) harr, fun _ => by omega⟩
    · obtain hf | hf := hmem f hf
      · exact h.fits f hf
      · rw [hf]
        decide
    · intro f hf hfv
      obtain hf | hf := hmem f hf
      · exact hno f hf hfv
      · exact absurd hf hfv
    · intro k
      rw [← Slots.total_live (pre ++ post), hlive, Slots.total_live]
      simp
    · rw [hs, h.sCount, hlive]

/-- A decrement beyond the count of the site panics, when the result fits a `short`. -/
theorem updatesitecount_error (h : m.Ok mySite) {value : ℤ} (hneg : m.count mySite site + value < 0)
    (hlo : -2 ^ 15 ≤ m.count mySite site + value) :
    ∃ p, updatesitecount mySite m site value = .error p := by
  have hnn : 0 ≤ m.count mySite site := h.slots.total_nonneg
  have hv : ¬value > 0 := by omega
  rw [updatesitecount, if_neg (show ¬value = 0 by omega)]
  obtain ⟨i, hget, hf⟩ | ⟨-, ⟨-, hget⟩ | ⟨htrue, -⟩⟩ :=
    @getsiteentry_spec mySite m site h (decide (value > 0)) (by simp [hv])
  · have hcount := hf.count_eq h
    obtain ⟨pre, e, post, hent, rfl, -, -⟩ := hf
    have hc : i16 (m.countAt pre.length + value) = m.count mySite site + value := by
      rw [← hcount]
      exact i16_eq hlo (by omega)
    simp only [hget, hc]
    exact ⟨_, if_pos hneg⟩
  · rw [hget]
    exact ⟨_, rfl⟩
  · exact absurd htrue (by simpa using hv)

end

end Dux

end Hpux
