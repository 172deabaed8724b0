import Hpux910.Lib.Lts
import Hpux910.Sys.VfsDnlc

/-!
# Runs of the name cache

The routines of the cache in any order, while the rest of the kernel takes and gives back
references of its own.

* `dnlcLookup_spec`, `dnlcEnter_spec`, `dnlcPurge_spec`, `dnlcPurge1_spec` : each routine is an
  operation of a least recently used cache.
* `dnlc_refines_lru` : the cache in every run.
-/

namespace Hpux

namespace Dnlc

open List Option

variable {c : Cache} {n i : ℕ} {base : Counts} {x : Key × ℕ}

/-! ### Looking a name up -/

theorem forward_perm (i : ℕ) (l : List ℕ) : (forward i l).Perm l := by
  induction l with
  | nil => exact .refl _
  | cons p l ih =>
    cases l with
    | nil => exact .refl _
    | cons q rest =>
      rw [forward]
      split_ifs
      · exact .swap ..
      · exact ih.cons p

theorem wanted_the {dp : ℕ} {name : Name} {cred : Option ℕ} :
    Wanted dp name (.the cred) x = true ↔ x.1 = (dp, name, cred) := by
  obtain ⟨⟨dp', name', cred'⟩, vp⟩ := x
  simp only [Wanted, Bool.and_eq_true, Bool.or_eq_true, decide_eq_true_eq, reduceCtorEq, false_or,
    CredArg.the.injEq, Prod.mk.injEq, and_assoc, @eq_comm _ cred cred']

theorem Cache.Ok.find_long (h : c.Ok n) {k : Key} (hk : k.2.1.len > ncNamlen) :
    Lru.find c.cached k = none := by
  refine Lru.find_eq_none.2 fun hmem => ?_
  obtain ⟨x, hx, rfl⟩ := mem_map.1 hmem
  exact absurd (h.len x hx) (not_le.2 hk)

theorem touch_eq_self {l : List (Key × ℕ)} {k : Key} (h : Lru.find l k = none) : Lru.touch k l = l := by
  have hne : ∀ x ∈ l, x.1 ≠ k := fun x hx hk =>
    Lru.find_eq_none.1 h (mem_map.2 ⟨x, hx, hk⟩)
  rw [Lru.touch, filter_eq_self.2 (by simpa using hne),
    filter_eq_nil_iff.2 (by simpa using hne), append_nil]

/-- `dnlc_lookup` reads the cache and makes the name the most recently used. -/
theorem dnlcLookup_spec (h : c.Ok n) (hc : c.Counted base) (dp : ℕ) (name : Name) (cred : Option ℕ) :
    (dnlcLookup c dp name cred).1 = Lru.find c.cached (dp, name, cred) ∧
      (dnlcLookup c dp name cred).2.Ok n ∧ (dnlcLookup c dp name cred).2.Counted base ∧
      (dnlcLookup c dp name cred).2.cached = Lru.touch (dp, name, cred) c.cached := by
  unfold dnlcLookup
  by_cases hlong : name.len > ncNamlen
  · have hnone := h.find_long (k := (dp, name, cred)) hlong
    rw [if_pos hlong]
    exact ⟨hnone.symm, h, hc, (touch_eq_self hnone).symm⟩
  rw [if_neg hlong]
  obtain ⟨i, x, hs, hi, hx, hw, -⟩ | ⟨hs, hno⟩ := dnlcSearch_spec h dp name (.the cred)
  · obtain ⟨k, vp⟩ := x
    obtain rfl : k = (dp, name, cred) := wanted_the.1 hw
    obtain ⟨pre, post, hl⟩ := append_of_mem hi
    obtain ⟨herase, -⟩ := h.split_lru hl
    have hcached := cached_split hl hx
    have he := slot_eq_some.1 hx
    simp only [hs]
    generalize hc' : ({ c with
      lru := c.lru.erase i ++ [i]
      chain := Function.update c.chain (ncHash name dp)
        (forward i (c.chain (ncHash name dp))) } : Cache) = c'
    have hslot : c'.slot = c.slot := by
      subst hc'
      rfl
    have hlru : c'.lru = pre ++ post ++ [i] := by
      subst hc'
      rw [← herase]
    have htouch : c'.cached = Lru.touch (dp, name, cred) c.cached := by
      have hkeys := h.keys
      rw [hcached] at hkeys
      rw [hcached, Lru.touch_append hkeys, Cache.cached, hlru, hslot, filterMap_append,
        filterMap_append, filterMap_cons_some hx]
      rfl
    have hperm := Lru.touch_perm (dp, name, cred) c.cached
    have hlperm : c'.lru.Perm c.lru := by
      rw [hlru, hl]
      exact (perm_append_singleton i (pre ++ post)).trans perm_middle.symm
    have hchain : ∀ k, (c'.chain k).Perm (c.chain k) := by
      intro k
      subst hc'
      by_cases hk : k = ncHash name dp
      · subst hk
        simpa using forward_perm i _
      · simp [hk]
    refine ⟨?_, ⟨hlperm.trans h.lru, fun k => (hchain k).nodup_iff.2 (h.chain_nodup k),
      fun k j => ?_, fun j hj => ?_, ?_, fun x hx => ?_, ?_⟩, ⟨fun v => ?_, fun cr => ?_⟩, htouch⟩
    · rw [he]
      exact (Lru.find_of_mem h.keys (mem_cached hi hx)).symm
    · rw [(hchain k).mem_iff, h.mem_chain, hslot, hlperm.mem_iff]
    · rw [hslot] at hj
      subst hc'
      exact h.free j hj
    · have hfront := h.front
      rw [hl] at hfront
      rw [hlru, hslot]
      refine pairwise_append.2 ⟨?_, pairwise_singleton .., fun j _ k hk _ => ?_⟩
      · exact hfront.sublist (List.Sublist.append_left (sublist_cons_self i post) pre)
      · obtain rfl := mem_singleton.1 hk
        rw [hx]
        exact some_ne_none _
    · rw [htouch] at hx
      exact h.len x (hperm.mem_iff.1 hx)
    · rw [htouch]
      exact Lru.nodup_touch h.keys
    · have hv : vnHolds c'.cached v = vnHolds c.cached v := by
        rw [htouch, vnHolds, hperm.countP_eq, hperm.countP_eq]
        rfl
      rw [hv, ← hc.vCount v]
      subst hc'
      rfl
    · have hr : credHolds c'.cached cr = credHolds c.cached cr := by
        rw [htouch, credHolds, hperm.countP_eq]
        rfl
      rw [hr, ← hc.crRef cr]
      subst hc'
      rfl
  · have hnone : Lru.find c.cached (dp, name, cred) = none := by
      refine Lru.find_eq_none.2 fun hmem => ?_
      obtain ⟨x, hx, hk⟩ := mem_map.1 hmem
      exact hno x hx (wanted_the.2 hk)
    simp only [hs]
    exact ⟨hnone.symm, h, hc, (touch_eq_self hnone).symm⟩

/-! ### Entering a name -/

/-- The entry that `dnlc_enter` reuses is free, or its credentials are given back with it. -/
def Cache.Releases (c : Cache) : Prop :=
  ∀ i ∈ c.lru.head?, (c.entry i).cred = none ∨ c.releaseCred (c.entry i) = true

/-- The first entry of the LRU list is free as long as there is a free entry. -/
theorem cached_head {rest : List ℕ} (h : c.Ok n) (hl : c.lru = i :: rest) :
    c.slot i = none ∧ c.cached = rest.filterMap c.slot ∧ c.cached.length < n ∨
      ∃ x, c.slot i = some x ∧ c.cached = x :: rest.filterMap c.slot ∧ c.cached.length = n := by
  have hlen : rest.length + 1 = n := by
    have := h.lru.length_eq
    rwa [hl, length_cons, length_range] at this
  cases hx : c.slot i with
  | none =>
    have hcached : c.cached = rest.filterMap c.slot := by
      rw [Cache.cached, hl, filterMap_cons_none hx]
    refine .inl ⟨rfl, hcached, ?_⟩
    rw [hcached]
    have := length_filterMap_le c.slot rest
    omega
  | some x =>
    have hcached : c.cached = x :: rest.filterMap c.slot := by
      rw [Cache.cached, hl, filterMap_cons_some hx]
    refine .inr ⟨x, rfl, hcached, ?_⟩
    have hfront := h.front
    rw [hl, pairwise_cons] at hfront
    have hall : (rest.filterMap c.slot).length = rest.length := by
      rw [length_filterMap_eq_countP, countP_eq_length]
      intro j hj
      have hne := hfront.1 j hj (by simp [hx])
      exact isSome_iff_ne_none.2 hne
    rw [hcached, length_cons, hall, hlen]

/-- Reusing the first entry of the LRU list for a name that is not cached. -/
theorem reuse_spec {rest : List ℕ} (h : c.Ok n) (hl : c.lru = i :: rest) {dp vp : ℕ} {name : Name}
    {cred : Option ℕ} (hlen : name.len ≤ ncNamlen)
    (hno : Lru.find c.cached (dp, name, cred) = none) {counts : Counts} :
    let c' := { c.reuse i rest ⟨some vp, some dp, name, cred⟩ (ncHash name dp) with counts := counts }
    c'.Ok n ∧ c'.cached = rest.filterMap c.slot ++ [((dp, name, cred), vp)] ∧
      c'.cached = Lru.enter n (dp, name, cred) vp c.cached := by
  intro c'
  have hnd := h.nodup_lru
  rw [hl] at hnd
  have hne : ∀ j ∈ rest, j ≠ i := fun j hj hji => (nodup_cons.1 hnd).1 (hji ▸ hj)
  have hslot_i : c'.slot i = some ((dp, name, cred), vp) := by
    simp [c', Cache.slot, Cache.reuse]
  have hslot : ∀ j, j ≠ i → c'.slot j = c.slot j := fun j hj => by
    simp [c', Cache.slot, Cache.reuse, Cache.rmHash, hj]
  have hcached : c'.cached = rest.filterMap c.slot ++ [((dp, name, cred), vp)] := by
    have hlru : c'.lru = rest ++ [i] := rfl
    rw [Cache.cached, hlru, filterMap_append, filterMap_cons_some hslot_i,
      filterMap_congr_slot fun j hj => hslot j (hne j hj)]
    rfl
  have hn : n ≠ 0 := by
    have := h.lru.length_eq
    rw [hl, length_cons, length_range] at this
    omega
  have henter : c'.cached = Lru.enter n (dp, name, cred) vp c.cached := by
    rw [Lru.enter, if_neg (by simp [hno, hn]), hcached]
    obtain ⟨-, hc, hlt⟩ | ⟨x, -, hc, hfull⟩ := cached_head h hl
    · rw [if_neg hlt.ne, hc]
    · rw [if_pos hfull, hc]
      rfl
  have hchain : ∀ k, c'.chain k = if k = ncHash name dp then i :: (c.chain k).erase i
      else (c.chain k).erase i := by
    intro k
    by_cases hk : k = ncHash name dp
    · subst hk
      simp [c', Cache.reuse, Cache.rmHash]
    · simp [c', Cache.reuse, Cache.rmHash, hk]
  have hi_erase : ∀ k, i ∉ (c.chain k).erase i := fun k hk =>
    ((h.chain_nodup k).mem_erase_iff.1 hk).1 rfl
  refine ⟨⟨?_, fun k => ?_, fun k j => ?_, fun j hj => ?_, ?_, fun x hx => ?_, ?_⟩, hcached, henter⟩
  · refine List.Perm.trans ?_ h.lru
    rw [hl]
    exact perm_append_singleton i rest
  · rw [hchain]
    split_ifs
    · exact nodup_cons.2 ⟨hi_erase k, (h.chain_nodup k).erase i⟩
    · exact (h.chain_nodup k).erase i
  · have hlru : j ∈ c'.lru ↔ j ∈ c.lru := by
      rw [hl]
      exact (perm_append_singleton i rest).mem_iff
    rw [hchain, hlru]
    by_cases hj : j = i
    · subst hj
      have hmem : j ∈ c.lru := by simp [hl]
      by_cases hk : k = ncHash name dp
      · simp [hk, hmem, hslot_i, keyHash]
      · simp [hk, hi_erase, hslot_i, keyHash, Ne.symm hk]
    · rw [hslot j hj, ← h.mem_chain]
      split_ifs
      · simp [hj, (h.chain_nodup k).mem_erase_iff]
      · simp [hj, (h.chain_nodup k).mem_erase_iff]
  · by_cases hji : j = i
    · subst hji
      rw [hslot_i] at hj
      cases hj
    · rw [hslot j hji] at hj
      simpa [c', Cache.reuse, Cache.rmHash, hji] using h.free j hj
  · have hfront := h.front
    rw [hl, pairwise_cons] at hfront
    refine pairwise_append.2 ⟨hfront.2.imp_of_mem fun {j k} hj hk hjk => ?_,
      pairwise_singleton .., fun j _ k hk _ => ?_⟩
    · rwa [hslot j (hne j hj), hslot k (hne k hk)]
    · obtain rfl := mem_singleton.1 hk
      rw [hslot_i]
      exact some_ne_none _
  · rw [hcached] at hx
    obtain hx | hx := mem_append.1 hx
    · refine h.len x ?_
      rw [Cache.cached, hl]
      exact ((sublist_cons_self i rest).filterMap c.slot).subset hx
    · obtain rfl := mem_singleton.1 hx
      exact hlen
  · rw [henter]
    exact Lru.nodup_enter h.keys

theorem Cache.Counted.congr {c' : Cache} (hc : c.Counted base) (hcached : c'.cached = c.cached)
    (hv : ∀ vp, c'.counts.vCount vp = c.counts.vCount vp)
    (hr : ∀ cr, c'.counts.crRef cr = c.counts.crRef cr) : c'.Counted base :=
  ⟨fun vp => by rw [hv, hcached, hc.vCount], fun cr => by rw [hr, hcached, hc.crRef]⟩

/-- What `dnlc_enter` does to the counts when it does not keep the name: nothing. -/
theorem backout_spec (h : c.Ok n) (hc : c.Counted base) (dp vp : ℕ) (cred : Option ℕ) :
    ((c.grab dp vp cred).backout dp vp cred).Ok n ∧
      ((c.grab dp vp cred).backout dp vp cred).Counted base := by
  refine ⟨⟨h.lru, h.chain_nodup, h.mem_chain, h.free, h.front, h.len, h.keys⟩,
    hc.congr rfl (fun v => ?_) (fun cr => ?_)⟩
  · simp only [Cache.backout, Cache.grab, crfreeOpt_vCount, vnRele_vCount, crholdOpt_vCount,
      vnHold_vCount]
    split_ifs <;> omega
  · simp only [Cache.backout, Cache.grab, crfreeOpt_crRef, vnRele_crRef, crholdOpt_crRef,
      vnHold_crRef]
    split_ifs <;> omega

/-- The counts after the references of a new name were taken and those of an old entry given back. -/
def Cache.exchange (c : Cache) (dp vp : ℕ) (cred : Option ℕ) (old : Ncache) : Counts :=
  ((if c.releaseCred old then (c.grab dp vp cred).counts.crfreeOpt old.cred
    else (c.grab dp vp cred).counts).vnReleOpt old.dp).vnReleOpt old.vp

theorem exchange_vCount (dp vp : ℕ) (cred : Option ℕ) (old : Ncache) (v : ℕ) :
    (c.exchange dp vp cred old).vCount v = c.counts.vCount v + (if dp = v then 1 else 0) +
      (if vp = v then 1 else 0) + (if old.dp = some v then -1 else 0) +
        if old.vp = some v then -1 else 0 := by
  simp only [Cache.exchange, Cache.grab, vnReleOpt_vCount]
  by_cases hrel : c.releaseCred old = true
  · simp [hrel]
  · simp [hrel]

theorem exchange_crRef (dp vp : ℕ) (cred : Option ℕ) {old : Ncache}
    (hrel : old.cred = none ∨ c.releaseCred old = true) (cr : ℕ) :
    (c.exchange dp vp cred old).crRef cr = c.counts.crRef cr + (if cred = some cr then 1 else 0) +
      if old.cred = some cr then -1 else 0 := by
  simp only [Cache.exchange, Cache.grab, vnReleOpt_crRef]
  obtain hnone | hrel := hrel
  · simp [hnone, Counts.crfreeOpt]
  · simp [hrel]

theorem dnlcEnter_cons {rest : List ℕ} {dp vp : ℕ} {name : Name} {cred : Option ℕ}
    (href : ¬c.Refuses name cred)
    (hs : dnlcSearch c dp name (ncHash name dp) (.the cred) = none) (hl : c.lru = i :: rest) :
    dnlcEnter c dp name vp cred =
      { c.reuse i rest ⟨some vp, some dp, name, cred⟩ (ncHash name dp) with
        counts := c.exchange dp vp cred (c.entry i) } := by
  have hgrab : dnlcSearch (c.grab dp vp cred) dp name (ncHash name dp) (.the cred) = none := hs
  have hlru : (c.grab dp vp cred).lru = i :: rest := hl
  rw [dnlcEnter, if_neg href]
  simp only [hgrab, hlru]
  rfl

/-- `dnlc_enter` caches a name that is not cached, instead of the least recently used one if there
is no free entry. -/
theorem dnlcEnter_spec (h : c.Ok n) (hc : c.Counted base) (hrel : c.Releases) (dp : ℕ) (name : Name)
    (vp : ℕ) (cred : Option ℕ) :
    (dnlcEnter c dp name vp cred).Ok n ∧ (dnlcEnter c dp name vp cred).Counted base ∧
      (dnlcEnter c dp name vp cred).cached = if c.Refuses name cred then c.cached
        else Lru.enter n (dp, name, cred) vp c.cached := by
  by_cases href : c.Refuses name cred
  · rw [dnlcEnter, if_pos href, if_pos href]
    exact ⟨h, hc, rfl⟩
  rw [if_neg href]
  have hgrab : dnlcSearch (c.grab dp vp cred) dp name (ncHash name dp) (.the cred) =
      dnlcSearch c dp name (ncHash name dp) (.the cred) := rfl
  have hback := backout_spec h hc dp vp cred
  obtain ⟨i, x, hs, hi, hx, hw, -⟩ | ⟨hs, hno⟩ := dnlcSearch_spec h dp name (.the cred)
  · have hkey : (dp, name, cred) ∈ Lru.keys c.cached :=
      mem_map.2 ⟨x, mem_cached hi hx, wanted_the.1 hw⟩
    have hrun : dnlcEnter c dp name vp cred = (c.grab dp vp cred).backout dp vp cred := by
      rw [dnlcEnter, if_neg href]
      simp only [hgrab, hs]
    rw [hrun, Lru.enter, if_pos (.inl (Lru.find_isSome.2 hkey))]
    exact ⟨hback.1, hback.2, rfl⟩
  have hnone : Lru.find c.cached (dp, name, cred) = none := by
    refine Lru.find_eq_none.2 fun hmem => ?_
    obtain ⟨x, hx, hk⟩ := mem_map.1 hmem
    exact hno x hx (wanted_the.2 hk)
  cases hl : c.lru with
  | nil =>
    have hlru : (c.grab dp vp cred).lru = [] := hl
    have hrun : dnlcEnter c dp name vp cred = (c.grab dp vp cred).backout dp vp cred := by
      rw [dnlcEnter, if_neg href]
      simp only [hgrab, hs, hlru]
    have hn : n = 0 := by
      have := h.lru.length_eq
      rwa [hl, length_range, length_nil, eq_comm] at this
    rw [hrun, Lru.enter, if_pos (.inr hn)]
    exact ⟨hback.1, hback.2, rfl⟩
  | cons i rest =>
    rw [dnlcEnter_cons href hs hl]
    obtain ⟨hok, hcached, henter⟩ := @reuse_spec c n i rest h hl dp vp name cred
      (not_lt.1 fun hlong => href (.inl hlong)) hnone (c.exchange dp vp cred (c.entry i))
    refine ⟨hok, ⟨fun v => ?_, fun cr => ?_⟩, henter⟩
    · refine (exchange_vCount dp vp cred (c.entry i) v).trans ?_
      rw [hcached, vnHolds_append, vnHolds_singleton, hc.vCount v]
      obtain ⟨hfree, hold, -⟩ | ⟨⟨⟨dp', name', cred'⟩, vp'⟩, hx, hold, -⟩ := cached_head h hl
      · obtain ⟨hd, hv, -⟩ := h.free i hfree
        rw [hold, hd, hv]
        simp only [reduceCtorEq, if_false]
        omega
      · rw [hold, slot_eq_some.1 hx, ← singleton_append, vnHolds_append, vnHolds_singleton]
        simp only [Option.some.injEq]
        split_ifs <;> omega
    · refine (exchange_crRef dp vp cred (hrel i (by simp [hl])) cr).trans ?_
      rw [hcached, credHolds_append, credHolds_singleton, hc.crRef cr]
      obtain ⟨hfree, hold, -⟩ | ⟨⟨⟨dp', name', cred'⟩, vp'⟩, hx, hold, -⟩ := cached_head h hl
      · obtain ⟨-, -, hcred⟩ := h.free i hfree
        rw [hold, hcred]
        simp only [reduceCtorEq, if_false]
        omega
      · rw [hold, slot_eq_some.1 hx, ← singleton_append, credHolds_append,
          credHolds_singleton]
        simp only
        split_ifs <;> omega

/-! ### Removing names -/

/-- `dnlc_remove` forgets the name with any credentials. -/
theorem dnlcRemove_spec (h : c.Ok n) (hc : c.Counted base) (dp : ℕ) (name : Name) :
    (dnlcRemove c dp name).Ok n ∧ (dnlcRemove c dp name).Counted base ∧
      (dnlcRemove c dp name).cached = Lru.drop (Wanted dp name .any) c.cached := by
  unfold dnlcRemove
  by_cases hlong : name.len > ncNamlen
  · rw [if_pos hlong]
    refine ⟨h, hc, (filter_eq_self.2 fun x hx => ?_).symm⟩
    have := h.len x hx
    simp only [Wanted, Bool.not_eq_true', Bool.and_eq_false_iff, decide_eq_false_iff_not]
    refine .inl (.inr fun hn => ?_)
    rw [hn] at this
    omega
  · rw [if_neg hlong]
    obtain ⟨hok, hcnt, hcached, -⟩ := rmLoop_spec (p := Wanted dp name .any) (fun c hc i hs => by
      obtain ⟨i', x, hs', hi, hx, hw, -⟩ | ⟨hs', -⟩ := dnlcSearch_spec hc dp name .any
      · obtain rfl := Option.some.inj (hs'.symm.trans hs)
        exact ⟨hi, x, hx, hw⟩
      · exact absurd (hs'.symm.trans hs) (by simp)) (fun c hc hs => by
      obtain ⟨i', x, hs', -⟩ | ⟨-, hno⟩ := dnlcSearch_spec hc dp name .any
      · exact absurd (hs'.symm.trans hs) (by simp)
      · exact hno) c.lru.length h hc (length_filterMap_le ..)
    exact ⟨hok, hcnt, hcached⟩

/-- The cached names of a vnode. -/
def OfVnode (vp : ℕ) (x : Key × ℕ) : Bool := x.1.1 = vp || x.2 = vp

theorem firstOfVnode_some {vp : ℕ} (h : c.Ok n) (hs : firstOfVnode vp c = some i) :
    i ∈ c.lru ∧ ∃ x, c.slot i = some x ∧ OfVnode vp x := by
  refine ⟨mem_of_find?_eq_some hs, ?_⟩
  have hm := find?_some hs
  simp only [decide_eq_true_eq] at hm
  cases hx : c.slot i with
  | none =>
    obtain ⟨hd, hv, -⟩ := h.free i hx
    simp [hd, hv] at hm
  | some x =>
    obtain ⟨⟨dp, name, cred⟩, vp'⟩ := x
    rw [slot_eq_some.1 hx] at hm
    exact ⟨_, rfl, by simpa [OfVnode] using hm⟩

theorem firstOfVnode_none {vp : ℕ} (hs : firstOfVnode vp c = none) : ∀ x ∈ c.cached, ¬OfVnode vp x := by
  intro x hx hp
  obtain ⟨i, hi, hslot⟩ := mem_filterMap.1 hx
  obtain ⟨⟨dp, name, cred⟩, vp'⟩ := x
  refine absurd (find?_eq_none.1 hs i hi) ?_
  rw [slot_eq_some.1 hslot]
  simpa [OfVnode, ← or_iff_not_imp_left] using hp

theorem dnlcPurgeVp_spec (h : c.Ok n) (hc : c.Counted base) (vp : ℕ) :
    (dnlcPurgeVp c vp).Ok n ∧ (dnlcPurgeVp c vp).Counted base ∧
      (dnlcPurgeVp c vp).cached = Lru.drop (OfVnode vp) c.cached := by
  obtain ⟨hok, hcnt, hcached, -⟩ := rmLoop_spec (fun c hc i => firstOfVnode_some hc)
    (fun c _ => firstOfVnode_none) c.lru.length h hc (length_filterMap_le ..)
  exact ⟨hok, hcnt, hcached⟩

theorem firstHashed_some (h : c.Ok n) (hs : firstHashed c = some i) :
    i ∈ c.lru ∧ ∃ x, c.slot i = some x := by
  obtain ⟨k, -, hk⟩ := exists_of_findSome?_eq_some hs
  obtain ⟨hi, x, hx, -⟩ := (h.mem_chain k i).1 (mem_of_head? hk)
  exact ⟨hi, x, hx⟩

theorem firstHashed_none (h : c.Ok n) (hs : firstHashed c = none) : c.cached = [] := by
  refine filterMap_eq_nil_iff.2 fun i hi => ?_
  by_contra hx
  obtain ⟨x, hx⟩ := ne_none_iff_exists'.1 hx
  have hmem := (h.mem_chain _ i).2 ⟨hi, x, hx, rfl⟩
  have hlt : keyHash x.1 < ncHashSize := Nat.mod_lt _ (by decide)
  have hnil := findSome?_eq_none_iff.1 hs (keyHash x.1) (mem_range.2 hlt)
  rw [head?_eq_none_iff.1 hnil] at hmem
  cases hmem

/-- `dnlc_purge` empties the cache and finds no reason to panic. -/
theorem purgeLoop_spec (fuel : ℕ) (h : c.Ok n) (hc : c.Counted base) (hfuel : c.cached.length ≤ fuel) :
    ∃ c', purgeLoop fuel c = .ok c' ∧ c'.Ok n ∧ c'.Counted base ∧ c'.cached = [] := by
  induction fuel generalizing c with
  | zero => exact ⟨c, rfl, h, hc, length_eq_zero_iff.1 (Nat.le_zero.1 hfuel)⟩
  | succ fuel ih =>
    cases hs : firstHashed c with
    | none => exact ⟨c, by simp only [purgeLoop, hs], h, hc, firstHashed_none h hs⟩
    | some i =>
      obtain ⟨hi, x, hx⟩ := firstHashed_some h hs
      obtain ⟨pre, post, hl⟩ := append_of_mem hi
      obtain ⟨h', hc', hcached⟩ := dnlcRm_spec h hc hl hx
      have hlen : (dnlcRm c i).cached.length ≤ fuel := by
        rw [cached_split hl hx] at hfuel
        rw [hcached]
        simp only [length_append, length_cons] at hfuel ⊢
        omega
      have hnot : ¬((c.entry i).dp = none ∨ (c.entry i).vp = none) := by
        obtain ⟨⟨dp, name, cred⟩, vp⟩ := x
        simp [slot_eq_some.1 hx]
      obtain ⟨c', hrun, hok, hcnt, hnil⟩ := ih h' hc' hlen
      exact ⟨c', by simp only [purgeLoop, hs, if_neg hnot, hrun], hok, hcnt, hnil⟩

/-- `dnlc_purge1` forgets the least recently used name. -/
theorem dnlcPurge1_spec (h : c.Ok n) (hc : c.Counted base) :
    (dnlcPurge1 c).2.Ok n ∧ (dnlcPurge1 c).2.Counted base ∧
      (dnlcPurge1 c).2.cached = c.cached.tail ∧ ((dnlcPurge1 c).1 = true ↔ c.cached ≠ []) := by
  unfold dnlcPurge1
  cases hs : c.lru.find? fun i => (c.entry i).dp.isSome with
  | none =>
    have hnil : c.cached = [] := by
      refine filterMap_eq_nil_iff.2 fun i hi => ?_
      have hd := find?_eq_none.1 hs i hi
      simp only [isSome_iff_ne_none, ne_eq, not_not] at hd
      simp [Cache.slot, hd]
    exact ⟨h, hc, by rw [hnil]; rfl, by simp [hnil]⟩
  | some i =>
    obtain ⟨hd, pre, post, hl, hpre⟩ := find?_eq_some_iff_append.1 hs
    obtain ⟨dp, hd⟩ := isSome_iff_exists.1 hd
    obtain ⟨x, hx, -⟩ := h.slot_of_dp hd
    have hprenil : pre.filterMap c.slot = [] := by
      refine filterMap_eq_nil_iff.2 fun j hj => ?_
      have hdj := hpre j hj
      simp only [Bool.not_eq_true', isSome_eq_false_iff, isNone_iff_eq_none] at hdj
      simp [Cache.slot, hdj]
    have hcached := cached_split hl hx
    rw [hprenil] at hcached
    obtain ⟨hok, hcnt, hcached'⟩ := dnlcRm_spec h hc hl hx
    refine ⟨hok, hcnt, ?_, by simp [hcached]⟩
    rw [hcached', hcached, hprenil]
    rfl

/-! ### Runs -/

/-- The cache with the counts that there would be without it. -/
structure Sys where
  cache : Cache
  base : Counts

/-- The calls, and what the rest of the kernel does. -/
inductive Op
  | enter (dp : ℕ) (name : Name) (vp : ℕ) (cred : Option ℕ)
  | lookup (dp : ℕ) (name : Name) (cred : Option ℕ)
  | remove (dp : ℕ) (name : Name)
  | purge
  | purgeVp (vp : ℕ)
  | purge1
  /-- Other references to a vnode come or go. -/
  | holdVnode (vp : ℕ) (d : ℤ)
  /-- Other references to credentials come or go. -/
  | holdCred (cr : ℕ) (d : ℤ)
  /-- A vnode gets or loses its `rnode`, or the credentials in it change. -/
  | setRnode (vp : ℕ) (rp : Option Rnode)

/-- One call. -/
def Op.run (s : Sys) : Op → Except Panic Sys
  | .enter dp name vp cred => .ok { s with cache := dnlcEnter s.cache dp name vp cred }
  | .lookup dp name cred => .ok { s with cache := (dnlcLookup s.cache dp name cred).2 }
  | .remove dp name => .ok { s with cache := dnlcRemove s.cache dp name }
  | .purge => (dnlcPurge s.cache).map fun c => { s with cache := c }
  | .purgeVp vp => .ok { s with cache := dnlcPurgeVp s.cache vp }
  | .purge1 => .ok { s with cache := (dnlcPurge1 s.cache).2 }
  | .holdVnode vp d =>
    let n := s.cache.counts
    .ok ⟨{ s.cache with counts := { n with vCount := bump n.vCount vp d } },
      { s.base with vCount := bump s.base.vCount vp d }⟩
  | .holdCred cr d =>
    let n := s.cache.counts
    .ok ⟨{ s.cache with counts := { n with crRef := bump n.crRef cr d } },
      { s.base with crRef := bump s.base.crRef cr d }⟩
  | .setRnode vp rp => .ok { s with cache := { s.cache with vtor := Function.update s.cache.vtor vp rp } }

/-- A cache of `n` entries from `dnlc_init` on. -/
def dnlcSys (n : ℕ) : Lts Sys Op where
  init s := ∃ counts vtor, s = ⟨dnlcInit n counts vtor, counts⟩
  step s op s' := op.run s = .ok s'

/-- `dnlc_enter` gives the credentials of the entry that it reuses back. -/
def Op.Careful (s : Sys) : Op → Prop
  | .enter .. => s.cache.Releases
  | _ => True

/-- What a call does to the cached names. -/
def Op.onCached (n : ℕ) (c : Cache) : Op → List (Key × ℕ)
  | .enter dp name vp cred =>
    if c.Refuses name cred then c.cached else Lru.enter n (dp, name, cred) vp c.cached
  | .lookup dp name cred => Lru.touch (dp, name, cred) c.cached
  | .remove dp name => Lru.drop (Wanted dp name .any) c.cached
  | .purge => []
  | .purgeVp vp => Lru.drop (OfVnode vp) c.cached
  | .purge1 => c.cached.tail
  | _ => c.cached

theorem dnlcInit_ok (n : ℕ) (counts : Counts) (vtor : ℕ → Option Rnode) :
    (dnlcInit n counts vtor).Ok n ∧ (dnlcInit n counts vtor).Counted counts := by
  have hslot : ∀ i, (dnlcInit n counts vtor).slot i = none := fun i => rfl
  have hnil : (dnlcInit n counts vtor).cached = [] :=
    filterMap_eq_nil_iff.2 fun i _ => hslot i
  refine ⟨⟨reverse_perm _, fun _ => nodup_nil, fun k i => ?_, fun _ _ => ⟨rfl, rfl, rfl⟩,
    ?_, ?_, ?_⟩, ⟨fun vp => ?_, fun cr => ?_⟩⟩
  · simp [dnlcInit, Cache.slot]
  · exact pairwise_of_forall fun i _ hi => absurd (hslot i) hi
  · simp [hnil]
  · simp [hnil, Lru.keys]
  · rw [hnil]
    simp [vnHolds, dnlcInit]
  · rw [hnil]
    simp [credHolds, dnlcInit]

/-- Each call is the operation on the cached names, and keeps the invariants. -/
theorem Op.run_spec {s : Sys} (h : s.cache.Ok n) (hc : s.cache.Counted s.base) {op : Op}
    (hop : op.Careful s) : ∃ s', op.run s = .ok s' ∧ s'.cache.Ok n ∧ s'.cache.Counted s'.base ∧
      s'.cache.cached = op.onCached n s.cache := by
  cases op with
  | enter dp name vp cred => exact ⟨_, rfl, dnlcEnter_spec h hc hop dp name vp cred⟩
  | lookup dp name cred => exact ⟨_, rfl, (dnlcLookup_spec h hc dp name cred).2⟩
  | remove dp name => exact ⟨_, rfl, dnlcRemove_spec h hc dp name⟩
  | purge =>
    obtain ⟨c', hrun, hspec⟩ := purgeLoop_spec s.cache.lru.length h hc (length_filterMap_le ..)
    have hrun : dnlcPurge s.cache = .ok c' := hrun
    exact ⟨{ s with cache := c' }, by simp only [run, hrun]; rfl, hspec⟩
  | purgeVp vp => exact ⟨_, rfl, dnlcPurgeVp_spec h hc vp⟩
  | purge1 =>
    obtain ⟨hok, hcnt, hcached, -⟩ := dnlcPurge1_spec h hc
    exact ⟨_, rfl, hok, hcnt, hcached⟩
  | holdVnode vp d =>
    refine ⟨_, rfl, ⟨h.lru, h.chain_nodup, h.mem_chain, h.free, h.front, h.len, h.keys⟩,
      ⟨fun v => ?_, hc.crRef⟩, rfl⟩
    change bump s.cache.counts.vCount vp d v = bump s.base.vCount vp d v + vnHolds s.cache.cached v
    rw [bump_apply, bump_apply, hc.vCount v]
    omega
  | holdCred cr d =>
    refine ⟨_, rfl, ⟨h.lru, h.chain_nodup, h.mem_chain, h.free, h.front, h.len, h.keys⟩,
      ⟨hc.vCount, fun k => ?_⟩, rfl⟩
    change bump s.cache.counts.crRef cr d k = bump s.base.crRef cr d k + credHolds s.cache.cached k
    rw [bump_apply, bump_apply, hc.crRef k]
    omega
  | setRnode vp rp =>
    exact ⟨_, rfl, ⟨h.lru, h.chain_nodup, h.mem_chain, h.free, h.front, h.len, h.keys⟩,
      ⟨hc.vCount, hc.crRef⟩, rfl⟩

/-- What a lookup of a key gives after a call, by what it gave before.  An enter of a key that is
cached, or of one that `dnlc_enter` refuses, changes nothing; when all `n` entries are in use it
evicts the least recently used name. -/
def Op.finds (n : ℕ) (c : Cache) (k : Key) : Op → Option ℕ
  | .enter dp name vp cred =>
    if c.Refuses name cred ∨ n = 0 ∨ Lru.find c.cached (dp, name, cred) ≠ none then
      Lru.find c.cached k
    else if k = (dp, name, cred) then some vp
    else if c.cached.length = n ∧ c.cached.head?.map Prod.fst = some k then none
    else Lru.find c.cached k
  | .remove dp name => if k.1 = dp ∧ k.2.1 = name then none else Lru.find c.cached k
  | .purge => none
  | .purgeVp vp =>
    if k.1 = vp ∨ Lru.find c.cached k = some vp then none else Lru.find c.cached k
  | .purge1 => if c.cached.head?.map Prod.fst = some k then none else Lru.find c.cached k
  | _ => Lru.find c.cached k

theorem find_tail {l : List (Key × ℕ)} (h : (Lru.keys l).Nodup) (k : Key) :
    Lru.find l.tail k = if l.head?.map Prod.fst = some k then none else Lru.find l k := by
  cases l with
  | nil => rfl
  | cons x l =>
    obtain ⟨kx, vx⟩ := x
    by_cases hk : kx = k
    · subst hk
      have hnone : Lru.find l kx = none := Lru.find_eq_none.2 (nodup_cons.1 h).1
      simpa using hnone
    · rw [if_neg (by simp [hk])]
      simp [Lru.find, hk]

/-- The operations on the cached names, key by key. -/
theorem find_onCached (h : c.Ok n) (op : Op) (k : Key) :
    Lru.find (op.onCached n c) k = op.finds n c k := by
  cases op with
  | enter dp name vp cred =>
    simp only [Op.onCached, Op.finds]
    by_cases href : c.Refuses name cred
    · rw [if_pos href, if_pos (.inl href)]
    rw [if_neg href]
    by_cases hno : n = 0 ∨ Lru.find c.cached (dp, name, cred) ≠ none
    · rw [if_pos (.inr hno), Lru.enter, if_pos]
      exact hno.symm.imp_left isSome_iff_ne_none.2
    · rw [if_neg (not_or.2 ⟨href, hno⟩)]
      rw [not_or, not_not] at hno
      exact Lru.find_enter h.keys hno.1 hno.2
  | lookup dp name cred => exact Lru.find_touch h.keys
  | remove dp name =>
    simp only [Op.onCached, Op.finds, Lru.find_drop h.keys]
    by_cases hk : k.1 = dp ∧ k.2.1 = name
    · rw [if_pos hk]
      cases Lru.find c.cached k <;> simp [Wanted, hk]
    · rw [if_neg hk]
      cases Lru.find c.cached k <;> simp [Wanted, not_and_or.1 hk]
  | purge => rfl
  | purgeVp vp =>
    simp only [Op.onCached, Op.finds, Lru.find_drop h.keys]
    cases hf : Lru.find c.cached k with
    | none => simp
    | some v =>
      by_cases hk : k.1 = vp ∨ v = vp
      · rw [if_pos (by simpa using hk)]
        simp [OfVnode, ← or_iff_not_imp_left, hk]
      · rw [if_neg (by simpa using hk)]
        rw [not_or] at hk
        simp [OfVnode, hk]
  | purge1 => exact find_tail h.keys k
  | holdVnode | holdCred | setRnode => rfl

/-- In every run in which `dnlc_enter` gives back the credentials of the entries that it reuses, the
cache is a least recently used cache of the names that are entered.  Every entry is on the LRU list
once, and on the chain of its key and no other if it is in use, else on none.  Each name accounts
for one hold on its directory, one on its vnode and one on its credentials, no key is cached twice,
a lookup gives what is cached for the key, and every call changes that as `Op.finds` says. -/
theorem dnlc_refines_lru {s : Sys} (h : ((dnlcSys n).restrict fun s op => op.Careful s).Reach s) :
    (s.cache.lru.Perm (List.range n) ∧ (∀ k, (s.cache.chain k).Nodup) ∧
      (∀ k, ∀ i < n, i ∈ s.cache.chain k ↔ ∃ x, s.cache.slot i = some x ∧ keyHash x.1 = k) ∧
      ∀ k, ∀ i ∈ s.cache.chain k, i < n) ∧
    ((∀ vp, s.cache.counts.vCount vp = s.base.vCount vp + vnHolds s.cache.cached vp) ∧
      ∀ cr, s.cache.counts.crRef cr = s.base.crRef cr + credHolds s.cache.cached cr) ∧
    (Lru.keys s.cache.cached).Nodup ∧
    (∃ c', dnlcPurge s.cache = .ok c' ∧ (∀ vp, c'.counts.vCount vp = s.base.vCount vp) ∧
      ∀ cr, c'.counts.crRef cr = s.base.crRef cr) ∧
    (∀ dp name cred, (dnlcLookup s.cache dp name cred).1 = Lru.find s.cache.cached (dp, name, cred)) ∧
    ∀ op : Op, op.Careful s → ∃ s', op.run s = .ok s' ∧
      s'.cache.cached = op.onCached n s.cache ∧
      ∀ k, Lru.find s'.cache.cached k = op.finds n s.cache k := by
  have hinv : s.cache.Ok n ∧ s.cache.Counted s.base := by
    refine h.inv (I := fun s => s.cache.Ok n ∧ s.cache.Counted s.base) ?_ ?_
    · rintro _ ⟨counts, vtor, rfl⟩
      exact dnlcInit_ok n counts vtor
    · rintro s op s' - ⟨hok, hc⟩ ⟨hop, hrun⟩
      obtain ⟨s'', hrun', hok', hc', -⟩ := Op.run_spec hok hc hop
      obtain rfl := Except.ok.inj (hrun'.symm.trans hrun)
      exact ⟨hok', hc'⟩
  obtain ⟨hok, hc⟩ := hinv
  have hmem : ∀ i, i ∈ s.cache.lru ↔ i < n := fun i =>
    hok.lru.mem_iff.trans List.mem_range
  refine ⟨⟨hok.lru, hok.chain_nodup, fun k i hi => ?_, fun k i hi => ?_⟩, ⟨hc.vCount, hc.crRef⟩,
    hok.keys, ?_, fun dp name cred => (dnlcLookup_spec hok hc dp name cred).1, fun op hop => ?_⟩
  · rw [hok.mem_chain, hmem]
    simp [hi]
  · exact (hmem i).1 ((hok.mem_chain k i).1 hi).1
  · obtain ⟨c', hrun, -, hc', hnil⟩ :=
      purgeLoop_spec s.cache.lru.length hok hc (List.length_filterMap_le ..)
    refine ⟨c', hrun, fun vp => ?_, fun cr => ?_⟩
    · rw [hc'.vCount, hnil]
      simp [vnHolds]
    · rw [hc'.crRef, hnil]
      simp [credHolds]
  · obtain ⟨s', hrun, -, -, hcached⟩ := Op.run_spec hok hc hop
    exact ⟨s', hrun, hcached, fun k => by rw [hcached, find_onCached hok]⟩

/-- A name of one byte. -/
def shortName (b : UInt8) : Name := ⟨b, []⟩

/-- A cache of two entries in which a name of directory 8 is entered. -/
theorem dnlc_refines_lru_one : ∃ s, ((dnlcSys 2).restrict fun s op => op.Careful s).Reach s ∧
    (dnlcLookup s.cache 8 (shortName 97) none).1 = some 16 := by
  have h : ((dnlcSys 2).restrict fun s op => op.Careful s).Reach
      ⟨dnlcEnter (dnlcInit 2 ⟨fun _ => 1, fun _ => 1⟩ fun _ => none) 8 (shortName 97) 16 none,
        ⟨fun _ => 1, fun _ => 1⟩⟩ :=
    .step (l := .enter 8 (shortName 97) 16 none) (.init ⟨_, _, rfl⟩)
      ⟨fun i _ => .inl rfl, rfl⟩
  obtain ⟨-, -, -, -, hlookup, -⟩ := dnlc_refines_lru h
  exact ⟨_, h, (hlookup ..).trans (by decide)⟩

/-- Entering a cached name again keeps the old vnode; and when a name with credentials is evicted,
and neither its directory nor its vnode is an NFS one, its credentials are not given back. -/
theorem dnlc_enter_keeps_old :
    (∃ s s' s'', (dnlcSys 2).Reach s ∧
      (Op.enter 8 (shortName 97) 16 none).run s = .ok s' ∧
      (Op.enter 8 (shortName 97) 24 none).run s' = .ok s'' ∧
      (dnlcLookup s''.cache 8 (shortName 97) none).1 = some 16) ∧
    ∃ s c', (dnlcSys 1).Reach s ∧ dnlcPurge s.cache = .ok c' ∧
      c'.counts.crRef 32 = s.base.crRef 32 + 1 := by
  constructor
  · exact ⟨⟨dnlcInit 2 ⟨fun _ => 1, fun _ => 1⟩ fun _ => none, ⟨fun _ => 1, fun _ => 1⟩⟩, _, _,
      .init ⟨_, _, rfl⟩, rfl, rfl, by decide⟩
  · let c₀ := dnlcInit 1 ⟨fun _ => 1, fun _ => 1⟩ fun _ => none
    let c₁ := dnlcEnter c₀ 8 (shortName 97) 16 (some 32)
    have h₁ : (dnlcSys 1).Reach ⟨c₁, ⟨fun _ => 1, fun _ => 1⟩⟩ :=
      .step (l := .enter 8 (shortName 97) 16 (some 32)) (.init ⟨_, _, rfl⟩) rfl
    have h₂ : (dnlcSys 1).Reach
        ⟨dnlcEnter c₁ 8 (shortName 98) 24 none, ⟨fun _ => 1, fun _ => 1⟩⟩ :=
      .step (l := .enter 8 (shortName 98) 24 none) h₁ rfl
    exact ⟨_, _, h₂, rfl, by decide⟩

end Dnlc

end Hpux
