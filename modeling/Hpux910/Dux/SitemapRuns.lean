import Hpux910.Dux.Sitemap
import Hpux910.Lib.Lts

/-!
# Runs of a sitemap

The routines and macros that count uses, in any order, from an empty map on.  The site may get its
number on the way: before it joins a cluster `my_site` is 0.

* `incSitecount_eq`, `decSitecount_eq` : the macros are `updatesitecount`.
* `createsitelist_spec` : the list holds the other sites with a count.
* `Sitemap.join` : entries of site 0 stay those of the own site.
* `sitemap_refines_counts` : every map that a run reaches stands for a function from sites to
  counts, and the routines read and update that function.
-/

namespace Hpux

namespace Dux

variable {mySite : ℕ} {m : Sitemap} {site : ℕ}

/-- `INC_SITECOUNT` adds 1. -/
theorem incSitecount_eq (h : m.Ok mySite) (hhi : m.count mySite site + 1 < 2 ^ 15) :
    incSitecount mySite m site = (updatesitecount mySite m site 1).map Prod.snd := by
  obtain ⟨c, u⟩ := m
  cases u with
  | empty => rfl
  | array l => rfl
  | onesite e =>
    have he : 0 ≤ e.sCount := h.slots.2 e (by simp [Sitemap.entries])
    simp only [incSitecount]
    by_cases hk : e.sSite = if site = 0 then mySite else site
    · rw [if_pos hk]
      have hk : e.sSite = norm mySite site := hk
      have hcount : Sitemap.count mySite ⟨c, .onesite e⟩ site = e.sCount := by
        simp [Sitemap.count, Sitemap.entries, Slots.total, Slots.term, hk, norm_norm]
      have hget : getsiteentry mySite ⟨c, .onesite e⟩ site (decide ((1 : ℤ) > 0)) =
          (some 0, ⟨c, .onesite e⟩) := by
        rw [getsiteentry_onesite_eq, if_pos (.inl hk)]
      have hi : i16 (e.sCount + 1) = e.sCount + 1 := i16_eq (by omega) (by omega)
      have hat : Sitemap.countAt ⟨c, .onesite e⟩ 0 = e.sCount := rfl
      rw [updatesitecount, if_neg (by decide), hget]
      simp only [hat, hi]
      rw [if_neg (by omega), if_neg (by omega)]
      rfl
    · rw [if_neg hk]

/-- `DEC_SITECOUNT` subtracts 1. -/
theorem decSitecount_eq (h : m.Ok mySite) (hlo : 1 ≤ m.count mySite site) :
    decSitecount mySite m site = (updatesitecount mySite m site (-1)).map Prod.snd := by
  obtain ⟨c, u⟩ := m
  cases u with
  | empty => rfl
  | array l => rfl
  | onesite e =>
    have he := h.fits e (by simp [Sitemap.entries])
    have hc : c = 1 := by
      have hlen := h.sCount
      rwa [Sitemap.entries, Slots.live_cons_of_ne (h.onesite e rfl)] at hlen
    simp only [decSitecount]
    by_cases hk : e.sSite = if site = 0 then mySite else site
    · rw [if_pos hk]
      have hk : e.sSite = norm mySite site := hk
      have hcount : Sitemap.count mySite ⟨c, .onesite e⟩ site = e.sCount := by
        simp [Sitemap.count, Sitemap.entries, Slots.total, Slots.term, hk, norm_norm]
      have hget : getsiteentry mySite ⟨c, .onesite e⟩ site (decide ((-1 : ℤ) > 0)) =
          (some 0, ⟨c, .onesite e⟩) := by
        rw [getsiteentry_onesite_eq, if_pos (.inl hk)]
      have hi : i16 (e.sCount + -1) = e.sCount - 1 := i16_eq (by omega) (by omega)
      have hi' : i16 (e.sCount - 1) = e.sCount - 1 := i16_eq (by omega) (by omega)
      have hat : Sitemap.countAt ⟨c, .onesite e⟩ 0 = e.sCount := rfl
      have hval : ¬(-1 : ℤ) = 0 := by decide
      have hneg : ¬e.sCount - 1 < 0 := by omega
      rw [updatesitecount, if_neg hval, hget]
      simp only [hat, hi, hi']
      by_cases hz : e.sCount - 1 = 0
      · rw [if_pos hz, if_neg hneg, if_pos hz, hc]
        rfl
      · rw [if_neg hz, if_neg hneg, if_neg hz]
        rfl
    · rw [if_neg hk]

/-! ### Site lists -/

/-- The sites that belong on the list: not the own one, with a count, and not the one that opens if
that is its only use. -/
def Listed (mySite uSite : ℕ) (m : Sitemap) (openFlag : Bool) (s : ℕ) : Prop :=
  s ≠ 0 ∧ s ≠ mySite ∧ m.count mySite s ≠ 0 ∧
    ¬(openFlag = true ∧ s = uSite ∧ m.count mySite s = 1)

/-- The sites on the list are those of the used entries that are not skipped. -/
theorem listed_iff (h : m.Ok mySite) {uSite : ℕ} {openFlag : Bool} {s : ℕ} :
    Listed mySite uSite m openFlag s ↔
      ∃ e ∈ m.entries, e.sCount ≠ 0 ∧ ¬e.Skipped mySite uSite openFlag ∧ e.sSite = s := by
  have hcount : ∀ e ∈ m.entries, e.sCount ≠ 0 → e.sSite ≠ 0 →
      m.count mySite e.sSite = e.sCount := by
    intro e he hv _
    obtain ⟨pre, post, hent⟩ := List.append_of_mem he
    have hok := h.slots
    rw [hent] at hok
    rw [Sitemap.count, hent]
    exact hok.total_mem hv
  constructor
  · rintro ⟨h0, hmy, hc, hopen⟩
    have hns : norm mySite s = s := if_neg h0
    obtain ⟨e, he, hk⟩ := List.mem_map.1 (h.slots.total_ne_zero.1 hc)
    obtain ⟨he, hv⟩ := Slots.mem_live.1 he
    simp only [hns] at hk
    have hes : e.sSite = s := by
      unfold norm at hk
      split_ifs at hk with hz
      · exact absurd hk.symm hmy
      · exact hk
    refine ⟨e, he, hv, ?_, hes⟩
    rintro (hs | hs | ⟨ho, hs, hone⟩)
    · exact hmy (hes ▸ hs)
    · exact h0 (hes ▸ hs)
    · have hce := hcount e he hv (hes ▸ h0)
      rw [hes] at hs hce
      exact hopen ⟨ho, hs, hce.trans hone⟩
  · rintro ⟨e, he, hv, hskip, rfl⟩
    have h0 : e.sSite ≠ 0 := fun hz => hskip (.inr (.inl hz))
    have hce := hcount e he hv h0
    refine ⟨h0, fun hs => hskip (.inl hs), by rwa [hce], ?_⟩
    rintro ⟨ho, hs, hone⟩
    exact hskip (.inr (.inr ⟨ho, hs, hce ▸ hone⟩))

/-- The loop marks the sites of the used entries that are not skipped. -/
theorem sitelistLoop_spec (uSite : ℕ) (openFlag : Bool) (l : List SiteEntry) (mp : SiteList)
    (found : ℕ) : ∃ mp' found', sitelistLoop mySite uSite openFlag l mp found = (mp', found') ∧
      (∀ s, mp'.valid s = true ↔ mp.valid s = true ∨
        ∃ e ∈ l, e.sCount ≠ 0 ∧ ¬e.Skipped mySite uSite openFlag ∧ e.sSite = s) ∧
      (found' = 0 ↔ found = 0 ∧ ∀ e ∈ l, e.sCount ≠ 0 → e.Skipped mySite uSite openFlag) ∧
      mp.maxsite ≤ mp'.maxsite ∧
      (∀ e ∈ l, e.sCount ≠ 0 → ¬e.Skipped mySite uSite openFlag → e.sSite ≤ mp'.maxsite) ∧
      (mp'.maxsite = mp.maxsite ∨
        ∃ e ∈ l, e.sCount ≠ 0 ∧ ¬e.Skipped mySite uSite openFlag ∧ e.sSite = mp'.maxsite) := by
  induction l generalizing mp found with
  | nil => exact ⟨mp, found, rfl, by simp, by simp, le_refl _, by simp, .inl rfl⟩
  | cons e l ih =>
    by_cases hv : e.sCount ≠ 0
    · by_cases hskip : e.Skipped mySite uSite openFlag
      · obtain ⟨mp', found', hrun, hval, hf, hle, hmax, hex⟩ := ih mp found
        refine ⟨mp', found', by rw [sitelistLoop, if_pos hv, if_pos hskip, hrun], ?_, ?_, hle, ?_, ?_⟩
        · simpa [hskip] using hval
        · simpa [hskip] using hf
        · simpa [hskip] using hmax
        · simpa [hskip] using hex
      · obtain ⟨mp', found', hrun, hval, hf, hle, hmax, hex⟩ :=
          ih ⟨if e.sSite > mp.maxsite then e.sSite else mp.maxsite,
            fun s => s = e.sSite || mp.valid s⟩ (found + 1)
        refine ⟨mp', found', by rw [sitelistLoop, if_pos hv, if_neg hskip, hrun], ?_, ?_, ?_, ?_, ?_⟩
        · intro s
          rw [hval]
          simp only [Bool.or_eq_true, decide_eq_true_eq, List.mem_cons, exists_eq_or_imp]
          constructor
          · rintro ((rfl | h) | h)
            · exact .inr (.inl ⟨hv, hskip, rfl⟩)
            · exact .inl h
            · exact .inr (.inr h)
          · rintro (h | ⟨-, -, rfl⟩ | h)
            · exact .inl (.inr h)
            · exact .inl (.inl rfl)
            · exact .inr h
        · constructor
          · intro h
            exact absurd (hf.1 h).1 (by omega)
          · rintro ⟨-, h⟩
            exact absurd (h e (by simp) hv) hskip
        · simp only at hle
          split_ifs at hle <;> omega
        · intro f hf' hfv hfs
          obtain rfl | hf' := List.mem_cons.1 hf'
          · simp only at hle
            split_ifs at hle <;> omega
          · exact hmax f hf' hfv hfs
        · obtain hex | ⟨f, hf', hfs⟩ := hex
          · by_cases hgt : e.sSite > mp.maxsite
            · rw [if_pos hgt] at hex
              exact .inr ⟨e, by simp, hv, hskip, hex.symm⟩
            · rw [if_neg hgt] at hex
              exact .inl hex
          · exact .inr ⟨f, by simp [hf'], hfs⟩
    · obtain ⟨mp', found', hrun, hval, hf, hle, hmax, hex⟩ := ih mp found
      refine ⟨mp', found', by rw [sitelistLoop, if_neg hv, hrun], ?_, ?_, hle, ?_, ?_⟩
      · simpa [hv] using hval
      · simpa [hv] using hf
      · simpa [hv] using hmax
      · simpa [hv] using hex

/-- `createsitelist` gives the sites that belong on the list with the largest of them, or nothing
when there are none. -/
theorem createsitelist_spec (h : m.Ok mySite) (uSite : ℕ) (openFlag : Bool) :
    match createsitelist mySite uSite m openFlag with
    | none => ∀ s, ¬Listed mySite uSite m openFlag s
    | some mp => (∀ s, mp.valid s = true ↔ Listed mySite uSite m openFlag s) ∧
        Listed mySite uSite m openFlag mp.maxsite ∧
        ∀ s, Listed mySite uSite m openFlag s → s ≤ mp.maxsite := by
  have hlisted := fun s => @listed_iff _ _ h uSite openFlag s
  obtain ⟨c, u⟩ := m
  simp only [hlisted]
  cases u with
  | empty => simp [createsitelist, Sitemap.entries]
  | onesite e =>
    have he : e.sCount ≠ 0 := h.onesite e rfl
    simp only [createsitelist, Sitemap.entries, List.mem_singleton, exists_eq_left]
    by_cases hskip : e.Skipped mySite uSite openFlag
    · simp [hskip]
    · simp [hskip, he, eq_comm]
  | array l =>
    obtain ⟨mp', found', hrun, hval, hf, -, hmax, hex⟩ :=
      @sitelistLoop_spec mySite uSite openFlag l ⟨0, fun _ => false⟩ 0
    simp only [createsitelist, Sitemap.entries, hrun]
    by_cases hz : found' = 0
    · rw [if_pos hz]
      obtain ⟨-, hall⟩ := hf.1 hz
      rintro s ⟨e, he, hv, hskip, -⟩
      exact hskip (hall e he hv)
    · rw [if_neg hz]
      have hne : ∃ e ∈ l, e.sCount ≠ 0 ∧ ¬e.Skipped mySite uSite openFlag := by
        by_contra hno
        exact hz (hf.2 ⟨rfl, fun e he hv => by_contra fun hs => hno ⟨e, he, hv, hs⟩⟩)
      refine ⟨fun s => by rw [hval]; simp, ?_, ?_⟩
      · obtain hex | ⟨e, he, hv, hs, hmx⟩ := hex
        · obtain ⟨e, he, hv, hs⟩ := hne
          have hle := hmax e he hv hs
          refine ⟨e, he, hv, hs, ?_⟩
          simp only at hex
          omega
        · exact ⟨e, he, hv, hs, hmx⟩
      · rintro s ⟨e, he, hv, hs, rfl⟩
        exact hmax e he hv hs

/-! ### Joining a cluster -/

/-- When a site without a number becomes site `k`, which had no entry, its own uses stay its own,
and the other counts do not change. -/
theorem Sitemap.Ok.join {k : ℕ} (h : m.Ok 0) (hfree : m.count 0 k = 0) :
    m.Ok k ∧ ∀ s, m.count k s = if norm k s = k then m.count 0 0 else m.count 0 s := by
  have hnorm0 : ∀ s, norm 0 s = s := fun s => by
    unfold norm
    split_ifs with hs
    · exact hs.symm
    · rfl
  have hno : ∀ e ∈ (Dux.slots 0).live m.entries, e.sSite ≠ k := by
    intro e he hek
    refine h.slots.total_ne_zero.2 (List.mem_map.2 ⟨e, he, ?_⟩) hfree
    simp only [hnorm0, hek]
  refine ⟨⟨⟨?_, h.slots.2⟩, h.fits, h.sCount, h.sCount_lt, h.onesite, h.arrays⟩, fun s => ?_⟩
  · refine h.slots.1.imp_of_mem fun {e f} he hf hne heq => hne ?_
    have hek := hno e he
    have hfk := hno f hf
    simp only [hnorm0] at heq ⊢
    unfold norm at heq
    split_ifs at heq <;> omega
  · have hterm : ∀ e ∈ (Dux.slots 0).live m.entries, (Dux.slots k).term (norm k s) e =
        (Dux.slots 0).term (if norm k s = k then 0 else s) e := by
      intro e he
      have hek := hno e he
      simp only [Slots.term, hnorm0]
      congr 1
      unfold norm
      split_ifs <;> simp <;> omega
    have htotal : ∀ k' s', (Dux.slots k').total m.entries s' =
        (((Dux.slots 0).live m.entries).map ((Dux.slots k').term s')).sum :=
      fun k' s' => (Slots.total_live m.entries).symm
    simp only [Sitemap.count, htotal, hnorm0]
    rw [List.map_congr_left hterm]
    split_ifs <;> rfl

/-! ### Runs -/

/-- What can happen to a map. -/
inductive Op
  | update (site : ℕ) (value : ℤ)
  | inc (site : ℕ)
  | dec (site : ℕ)
  /-- The site gets its number in the cluster. -/
  | join (mySite : ℕ)
  deriving DecidableEq, Repr

/-- The site and the number that an operation adds there. -/
def Op.adds : Op → ℕ × ℤ
  | .update site value => (site, value)
  | .inc site => (site, 1)
  | .dec site => (site, -1)
  | .join _ => (0, 0)

/-- One operation: the own site and the map afterwards. -/
def Op.run (mySite : ℕ) (m : Sitemap) : Op → Except Panic (ℕ × Sitemap)
  | .update site value => (updatesitecount mySite m site value).map fun x => (mySite, x.2)
  | .inc site => (incSitecount mySite m site).map fun m => (mySite, m)
  | .dec site => (decSitecount mySite m site).map fun m => (mySite, m)
  | .join k => .ok (k, m)

/-- No count is decremented below 0, and a site that joins has no entry under its number yet. -/
def Op.Enabled (mySite : ℕ) (m : Sitemap) : Op → Prop
  | .join k => mySite = 0 ∧ k ≠ 0 ∧ m.count 0 k = 0
  | op => 0 ≤ m.count mySite op.adds.1 + op.adds.2

/-- The count and the number of sites fit a `short`. -/
def Op.Fits (mySite : ℕ) (m : Sitemap) (op : Op) : Prop :=
  m.count mySite op.adds.1 + op.adds.2 < 2 ^ 15 ∧
    (0 < op.adds.2 → m.count mySite op.adds.1 = 0 → m.sCount + 1 < 2 ^ 15)

/-- A map from `clearmap` on, at a site with the number `mySite`. -/
def sitemapSys (mySite : ℕ) : Lts (ℕ × Sitemap) Op where
  init s := s = (mySite, clearmap)
  step s op s' := op.Enabled s.1 s.2 ∧ op.run s.1 s.2 = .ok s'

/-- What an operation does to the counts. -/
def Op.Effect (mySite : ℕ) (m : Sitemap) (s' : ℕ × Sitemap) : Op → Prop
  | .join k => s'.1 = k ∧
      ∀ s, s'.2.count k s = if norm k s = k then m.count 0 0 else m.count 0 s
  | op => s'.1 = mySite ∧ ∀ s, s'.2.count mySite s = m.count mySite s +
      if norm mySite op.adds.1 = norm mySite s then op.adds.2 else 0

theorem clearmap_ok (mySite : ℕ) : clearmap.Ok mySite :=
  ⟨⟨.nil, by simp [Sitemap.entries, clearmap]⟩, by simp [Sitemap.entries, clearmap], rfl, by decide,
    by simp [clearmap], by simp [clearmap]⟩

theorem Op.run_spec (h : m.Ok mySite) {op : Op} (hen : op.Enabled mySite m) (hfits : op.Fits mySite m) :
    ∃ s', op.run mySite m = .ok s' ∧ s'.2.Ok s'.1 ∧ op.Effect mySite m s' := by
  have hupdate : ∀ (site : ℕ) (value : ℤ), 0 ≤ m.count mySite site + value →
      m.count mySite site + value < 2 ^ 15 →
      (0 < value → m.count mySite site = 0 → m.sCount + 1 < 2 ^ 15) →
      ∃ v m', updatesitecount mySite m site value = .ok (v, m') ∧ m'.Ok mySite ∧
        ∀ s, m'.count mySite s = m.count mySite s +
          if norm mySite site = norm mySite s then value else 0 := by
    intro site value hlo hhi hroom
    obtain ⟨v, m', hrun, hu, -⟩ := updatesitecount_spec h hlo hhi hroom
    exact ⟨v, m', hrun, hu.ok, fun s => hu.total _⟩
  cases op with
  | update site value =>
    obtain ⟨v, m', hrun, hok, hc⟩ := hupdate site value hen hfits.1 hfits.2
    exact ⟨(mySite, m'), by simp only [run, hrun]; rfl, hok, rfl, hc⟩
  | inc site =>
    obtain ⟨v, m', hrun, hok, hc⟩ := hupdate site 1 hen hfits.1 hfits.2
    have hinc : incSitecount mySite m site = .ok m' := by
      rw [@incSitecount_eq mySite m site h hfits.1, hrun]
      rfl
    exact ⟨(mySite, m'), by simp only [run, hinc]; rfl, hok, rfl, hc⟩
  | dec site =>
    obtain ⟨v, m', hrun, hok, hc⟩ := hupdate site (-1) hen hfits.1 hfits.2
    have hlo : 1 ≤ m.count mySite site := by
      have : 0 ≤ m.count mySite site + -1 := hen
      omega
    have hdec : decSitecount mySite m site = .ok m' := by
      rw [decSitecount_eq h hlo, hrun]
      rfl
    exact ⟨(mySite, m'), by simp only [run, hdec]; rfl, hok, rfl, hc⟩
  | join k =>
    obtain ⟨rfl, -, hfree⟩ := hen
    obtain ⟨hok, hc⟩ := h.join hfree
    exact ⟨(k, m), rfl, hok, rfl, hc⟩

/-- In every run whose counts fit, a sitemap stands for a function from sites to counts that are not
negative, in which site 0 is the own site.  `s_count` is the number of sites with a count, no site
has two entries, the reading routines read the function, and every update adds what it should at
its site and nowhere else, and finds no reason to panic. -/
theorem sitemap_refines_counts {mySite₀ : ℕ}
    (h : ((sitemapSys mySite₀).restrict fun s op => op.Fits s.1 s.2).Reach (mySite, m)) :
    ((∀ s, 0 ≤ m.count mySite s) ∧ m.count mySite 0 = m.count mySite mySite ∧
      (∃ sites : List ℕ, sites.Nodup ∧ gettotalsites m = sites.length ∧
        ∀ s, norm mySite s ∈ sites ↔ m.count mySite s ≠ 0) ∧
      ((slots mySite).live m.entries).Pairwise fun e f => norm mySite e.sSite ≠ norm mySite f.sSite) ∧
    (∀ s, getsitecount mySite m s = m.count mySite s) ∧
    (∀ uSite openFlag, match createsitelist mySite uSite m openFlag with
      | none => ∀ s, ¬Listed mySite uSite m openFlag s
      | some mp => (∀ s, mp.valid s = true ↔ Listed mySite uSite m openFlag s) ∧
          Listed mySite uSite m openFlag mp.maxsite ∧
          ∀ s, Listed mySite uSite m openFlag s → s ≤ mp.maxsite) ∧
    (∀ site value, value ≠ 0 → (Op.update site value).Enabled mySite m →
      (Op.update site value).Fits mySite m →
      ∃ m', updatesitecount mySite m site value = .ok (m.count mySite site + value, m')) ∧
    ∀ op : Op, op.Enabled mySite m → op.Fits mySite m →
      ∃ s', op.run mySite m = .ok s' ∧ op.Effect mySite m s' := by
  have hok : m.Ok mySite := by
    refine h.inv (I := fun s => s.2.Ok s.1) ?_ ?_
    · rintro _ rfl
      exact clearmap_ok mySite₀
    · rintro ⟨k, m⟩ op s' - hs ⟨hfits, hen, hrun⟩
      obtain ⟨s'', hrun', hok, -⟩ := Op.run_spec hs hen hfits
      obtain rfl := Except.ok.inj (hrun'.symm.trans hrun)
      exact hok
  obtain ⟨sites, hnd, hmem, hlen⟩ := hok.sites
  refine ⟨⟨fun s => hok.slots.total_nonneg, ?_, ⟨sites, hnd, hlen, fun s => hmem _⟩, hok.slots.1⟩,
    getsitecount_spec hok, createsitelist_spec hok, fun site value hv hen hfits => ?_,
    fun op hen hfits => ?_⟩
  · simp [Sitemap.count, norm]
  · obtain ⟨v, m', hrun, -, hval⟩ :=
      @updatesitecount_spec mySite m site hok value hen hfits.1 hfits.2
    exact ⟨m', by rw [hrun, hval hv]⟩
  · obtain ⟨s', hrun, -, heff⟩ := Op.run_spec hok hen hfits
    exact ⟨s', hrun, heff⟩

/-- Two uses by site 3 and one by site 5. -/
theorem sitemap_refines_counts_two : ∃ m, ((sitemapSys 1).restrict fun s op =>
    op.Fits s.1 s.2).Reach (1, m) ∧ getsitecount 1 m 3 = 2 ∧ gettotalsites m = 2 := by
  have h₁ : ((sitemapSys 1).restrict fun s op => op.Fits s.1 s.2).Reach (1, ⟨1, .onesite ⟨3, 2⟩⟩) :=
    .step (l := .update 3 2) (.init rfl)
      ⟨⟨by decide, by decide⟩, show (0 : ℤ) ≤ _ by decide, rfl⟩
  have h₂ : ((sitemapSys 1).restrict fun s op => op.Fits s.1 s.2).Reach (1, ⟨2, .array
      [⟨3, 2⟩, ⟨5, 1⟩, ⟨0, 0⟩, ⟨0, 0⟩, ⟨0, 0⟩, ⟨0, 0⟩, ⟨0, 0⟩]⟩) :=
    .step (l := .inc 5) h₁ ⟨⟨by decide, by decide⟩, show (0 : ℤ) ≤ _ by decide, rfl⟩
  obtain ⟨-, hread, -⟩ := sitemap_refines_counts h₂
  exact ⟨_, h₂, (hread 3).trans (by decide), rfl⟩

/-- The count does not fit a `short`: a first update of 32768 panics. -/
theorem sitemap_count_overflow : ∃ m, (sitemapSys 1).Reach (1, m) ∧
    (Op.update 3 32768).Enabled 1 m ∧ updatesitecount 1 m 3 32768 = .error .countLtZero :=
  ⟨clearmap, .init rfl, show (0 : ℤ) ≤ _ by decide, rfl⟩

end Dux

end Hpux
