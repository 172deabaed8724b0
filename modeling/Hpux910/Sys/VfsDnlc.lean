import Hpux910.Lib.LruCache
import Mathlib

/-!
# The directory name lookup cache

`sys/vfs_dnlc.c` keeps the names that directory scans found.  Every entry is on the LRU list, and
on a hash chain when it is in use; it then holds its vnodes and its credentials.

* `Name`, `Ncache`, `Dnlc` : names, entries and the cache with the reference counts it works on.
* `dnlcEnter`, `dnlcLookup`, `dnlcRemove`, `dnlcPurge`, `dnlcPurgeVp`, `dnlcPurge1`, `dnlcRm`,
  `dnlcSearch` : the routines.
* `Cache.slot`, `Cache.cached` : the names that are cached, the least recently used first.
* `Cache.Ok`, `Cache.Counted` : the invariants.
* `dnlcRm_spec`, `rmLoop_spec`, `dnlcSearch_spec` : what the routines do to the cached names.

A vnode or a credential is given by its address.
-/

namespace Hpux

namespace Dnlc

open List

/-- `NC_NAMLEN`. -/
def ncNamlen : ℕ := 15

/-- `NC_HASH_SIZE`. -/
def ncHashSize : ℕ := 256

/-- A name is a string with a first byte. -/
structure Name where
  first : UInt8
  rest : List UInt8
  deriving DecidableEq, Repr

/-- `strlen`. -/
def Name.len (n : Name) : ℕ := n.rest.length + 1

/-- The last byte. -/
def Name.last (n : Name) : UInt8 := n.rest.getLastD n.first

/-- `NC_HASH`. -/
def ncHash (name : Name) (vp : ℕ) : ℕ :=
  (name.first.toNat + name.last.toNat + name.len + vp) % ncHashSize

/-- `struct ncache` without its links. -/
structure Ncache where
  /-- The vnode that the name refers to. -/
  vp : Option ℕ
  /-- The directory. -/
  dp : Option ℕ
  /-- `name` and `namlen`. -/
  name : Name
  /-- The credentials, if not `NOCRED`. -/
  cred : Option ℕ
  deriving DecidableEq, Repr

/-- The credentials that a search is for: `ANYCRED`, or those given (perhaps `NOCRED`). -/
inductive CredArg
  | any
  | the (cred : Option ℕ)
  deriving DecidableEq, Repr

/-- What is used of `struct rnode`. -/
structure Rnode where
  rcred : Option ℕ
  wcred : Option ℕ
  deriving DecidableEq, Repr

/-- The reference counts that the cache works on. -/
structure Counts where
  /-- `v_count` of a vnode. -/
  vCount : ℕ → ℤ
  /-- `cr_ref` of credentials. -/
  crRef : ℕ → ℤ

/-- The cache, and what it uses of the vnodes and credentials. -/
structure Cache where
  /-- `ncache`. -/
  entry : ℕ → Ncache
  /-- The list from `nc_lru.lru_next` on. -/
  lru : List ℕ
  /-- The chain from `nc_hash[hash].hash_next` on. -/
  chain : ℕ → List ℕ
  /-- `v_count` and `cr_ref`. -/
  counts : Counts
  /-- `vtor`, for a vnode with the type `VNFS`. -/
  vtor : ℕ → Option Rnode

/-- The call of `panic`. -/
inductive Panic
  /-- "dnlc_purge: zero vp". -/
  | zeroVp
  deriving DecidableEq, Repr

/-! ### References -/

/-- Add to one count. -/
def bump (f : ℕ → ℤ) (i : ℕ) (d : ℤ) : ℕ → ℤ := Function.update f i (f i + d)

/-- `VN_HOLD`. -/
def Counts.vnHold (n : Counts) (vp : ℕ) : Counts := { n with vCount := bump n.vCount vp 1 }

/-- `VN_RELE`. -/
def Counts.vnRele (n : Counts) (vp : ℕ) : Counts := { n with vCount := bump n.vCount vp (-1) }

/-- `if (vp) VN_RELE(vp)`. -/
def Counts.vnReleOpt (n : Counts) : Option ℕ → Counts
  | none => n
  | some vp => n.vnRele vp

/-- `if (cred != NOCRED) crhold(cred)`. -/
def Counts.crholdOpt (n : Counts) : Option ℕ → Counts
  | none => n
  | some cr => { n with crRef := bump n.crRef cr 1 }

/-- `if (cred != NOCRED) crfree(cred)`. -/
def Counts.crfreeOpt (n : Counts) : Option ℕ → Counts
  | none => n
  | some cr => { n with crRef := bump n.crRef cr (-1) }

/-! ### The routines -/

/-- `dnlc_init`. -/
def dnlcInit (ncsize : ℕ) (counts : Counts) (vtor : ℕ → Option Rnode) : Cache where
  entry _ := ⟨none, none, ⟨0, []⟩, none⟩
  lru := (List.range ncsize).reverse
  chain _ := []
  counts := counts
  vtor := vtor

/-- The test of `dnlc_search`. -/
def Ncache.Matches (e : Ncache) (dp : ℕ) (name : Name) (cred : CredArg) : Prop :=
  e.dp = some dp ∧ e.name = name ∧ (cred = .any ∨ cred = .the e.cred)

instance (e : Ncache) (dp : ℕ) (name : Name) (cred : CredArg) :
    Decidable (e.Matches dp name cred) :=
  inferInstanceAs (Decidable (e.dp = some dp ∧ e.name = name ∧ (cred = .any ∨ cred = .the e.cred)))

/-- `dnlc_search`. -/
def dnlcSearch (c : Cache) (dp : ℕ) (name : Name) (hash : ℕ) (cred : CredArg) : Option ℕ :=
  (c.chain hash).find? fun i => (c.entry i).Matches dp name cred

/-- `RM_HASH`; an entry that is not hashed is a chain of its own. -/
def Cache.rmHash (c : Cache) (i : ℕ) : Cache := { c with chain := fun h => (c.chain h).erase i }

/-- The entry is of an NFS vnode that does not use its credentials both to read and to write. -/
def Cache.differs (c : Cache) (vp cred : Option ℕ) : Bool :=
  match vp.bind c.vtor with
  | none => false
  | some rp => cred ≠ none && (cred ≠ rp.rcred || cred ≠ rp.wcred)

/-- What `dnlc_enter` sets `release_cred` to. -/
def Cache.releaseCred (c : Cache) (e : Ncache) : Bool := c.differs e.dp e.cred || c.differs e.vp e.cred

/-- The references that `dnlc_enter` takes first. -/
def Cache.grab (c : Cache) (dp vp : ℕ) (cred : Option ℕ) : Cache :=
  { c with counts := ((c.counts.vnHold dp).vnHold vp).crholdOpt cred }

/-- The references that it gives back at `backout`. -/
def Cache.backout (c : Cache) (dp vp : ℕ) (cred : Option ℕ) : Cache :=
  { c with counts := ((c.counts.vnRele dp).vnRele vp).crfreeOpt cred }

/-- Reuse the first entry of the LRU list. -/
def Cache.reuse (c : Cache) (i : ℕ) (lru : List ℕ) (e : Ncache) (hash : ℕ) : Cache :=
  let c := c.rmHash i
  { c with
    entry := Function.update c.entry i e
    lru := lru ++ [i]
    chain := Function.update c.chain hash (i :: c.chain hash) }

/-- `dnlc_enter` leaves the name out: it is too long, or the credentials have too many references. -/
def Cache.Refuses (c : Cache) (name : Name) (cred : Option ℕ) : Prop :=
  name.len > ncNamlen ∨ ∃ cr ∈ cred, c.counts.crRef cr ≥ 0x4000

instance (c : Cache) (name : Name) (cred : Option ℕ) : Decidable (c.Refuses name cred) :=
  inferInstanceAs (Decidable (name.len > ncNamlen ∨ ∃ cr ∈ cred, c.counts.crRef cr ≥ 0x4000))

/-- `dnlc_enter`. -/
def dnlcEnter (c : Cache) (dp : ℕ) (name : Name) (vp : ℕ) (cred : Option ℕ) : Cache :=
  if c.Refuses name cred then c
  else
    let hash := ncHash name dp
    let c := c.grab dp vp cred
    match dnlcSearch c dp name hash (.the cred) with
    | some _ => c.backout dp vp cred
    | none =>
      match c.lru with
      | [] => c.backout dp vp cred
      | i :: lru =>
        let old := c.entry i
        let release := c.releaseCred old
        let c := c.reuse i lru ⟨some vp, some dp, name, cred⟩ hash
        let counts := if release then c.counts.crfreeOpt old.cred else c.counts
        { c with counts := (counts.vnReleOpt old.dp).vnReleOpt old.vp }

/-- Move an entry of a chain one place forward. -/
def forward (i : ℕ) : List ℕ → List ℕ
  | p :: q :: rest => if q = i then q :: p :: rest else p :: forward i (q :: rest)
  | l => l

/-- `dnlc_lookup`. -/
def dnlcLookup (c : Cache) (dp : ℕ) (name : Name) (cred : Option ℕ) : Option ℕ × Cache :=
  if name.len > ncNamlen then (none, c)
  else
    let hash := ncHash name dp
    match dnlcSearch c dp name hash (.the cred) with
    | none => (none, c)
    | some i =>
      ((c.entry i).vp,
        { c with
          lru := c.lru.erase i ++ [i]
          chain := Function.update c.chain hash (forward i (c.chain hash)) })

/-- `dnlc_rm`. -/
def dnlcRm (c : Cache) (i : ℕ) : Cache :=
  let e := c.entry i
  let c := c.rmHash i
  { c with
    entry := Function.update c.entry i { e with dp := none, vp := none, cred := none }
    lru := i :: c.lru.erase i
    counts := ((c.counts.vnReleOpt e.dp).vnReleOpt e.vp).crfreeOpt e.cred }

/-- The loops that look for an entry, remove it and start again. -/
def rmLoop (next : Cache → Option ℕ) : ℕ → Cache → Cache
  | 0, c => c
  | fuel + 1, c =>
    match next c with
    | none => c
    | some i => rmLoop next fuel (dnlcRm c i)

/-- `dnlc_remove`. -/
def dnlcRemove (c : Cache) (dp : ℕ) (name : Name) : Cache :=
  if name.len > ncNamlen then c
  else rmLoop (fun c => dnlcSearch c dp name (ncHash name dp) .any) c.lru.length c

/-- The first entry of the first chain that is not empty. -/
def firstHashed (c : Cache) : Option ℕ :=
  (List.range ncHashSize).findSome? fun h => (c.chain h).head?

/-- `dnlc_purge`. -/
def purgeLoop : ℕ → Cache → Except Panic Cache
  | 0, c => .ok c
  | fuel + 1, c =>
    match firstHashed c with
    | none => .ok c
    | some i =>
      if (c.entry i).dp = none ∨ (c.entry i).vp = none then .error .zeroVp
      else purgeLoop fuel (dnlcRm c i)

@[inherit_doc purgeLoop]
def dnlcPurge (c : Cache) : Except Panic Cache := purgeLoop c.lru.length c

/-- The first entry of the LRU list that refers to a vnode. -/
def firstOfVnode (vp : ℕ) (c : Cache) : Option ℕ :=
  c.lru.find? fun i => (c.entry i).dp = some vp ∨ (c.entry i).vp = some vp

/-- `dnlc_purge_vp`. -/
def dnlcPurgeVp (c : Cache) (vp : ℕ) : Cache := rmLoop (firstOfVnode vp) c.lru.length c

/-- `dnlc_purge1`. -/
def dnlcPurge1 (c : Cache) : Bool × Cache :=
  match c.lru.find? fun i => (c.entry i).dp.isSome with
  | some i => (true, dnlcRm c i)
  | none => (false, c)

/-! ### The cached names -/

/-- A directory, a name in it, and credentials. -/
abbrev Key := ℕ × Name × Option ℕ

/-- The key and the vnode of an entry in use. -/
def Cache.slot (c : Cache) (i : ℕ) : Option (Key × ℕ) :=
  match (c.entry i).dp, (c.entry i).vp with
  | some dp, some vp => some ((dp, (c.entry i).name, (c.entry i).cred), vp)
  | _, _ => none

/-- The cached names with their vnodes, the least recently used first. -/
def Cache.cached (c : Cache) : List (Key × ℕ) := c.lru.filterMap c.slot

/-- The hash of a key. -/
def keyHash (k : Key) : ℕ := ncHash k.2.1 k.1

/-- Every entry is on the LRU list once, the free ones first, and on the chain of its key if it is
in use; no key is cached twice. -/
structure Cache.Ok (n : ℕ) (c : Cache) : Prop where
  lru : c.lru.Perm (List.range n)
  chain_nodup : ∀ h, (c.chain h).Nodup
  mem_chain : ∀ h i, i ∈ c.chain h ↔ i ∈ c.lru ∧ ∃ x, c.slot i = some x ∧ keyHash x.1 = h
  free : ∀ i, c.slot i = none → (c.entry i).dp = none ∧ (c.entry i).vp = none ∧
    (c.entry i).cred = none
  front : c.lru.Pairwise fun i j => c.slot i ≠ none → c.slot j ≠ none
  len : ∀ x ∈ c.cached, x.1.2.1.len ≤ ncNamlen
  keys : (Lru.keys c.cached).Nodup

/-- The holds on a vnode that cached names account for. -/
def vnHolds (l : List (Key × ℕ)) (vp : ℕ) : ℤ :=
  (l.countP fun x => x.1.1 = vp) + (l.countP fun x => x.2 = vp)

/-- The holds on credentials that cached names account for. -/
def credHolds (l : List (Key × ℕ)) (cr : ℕ) : ℤ := l.countP fun x => x.1.2.2 = some cr

/-- Every count is the one without the cache, and the holds of the cached names. -/
structure Cache.Counted (base : Counts) (c : Cache) : Prop where
  vCount : ∀ vp, c.counts.vCount vp = base.vCount vp + vnHolds c.cached vp
  crRef : ∀ cr, c.counts.crRef cr = base.crRef cr + credHolds c.cached cr

section

variable {c : Cache} {n i : ℕ} {base : Counts} {x : Key × ℕ}

/-! ### References -/

theorem bump_apply (f : ℕ → ℤ) (i : ℕ) (d : ℤ) (j : ℕ) :
    bump f i d j = f j + if i = j then d else 0 := by
  unfold bump
  by_cases h : j = i
  · subst h
    simp
  · rw [Function.update_of_ne h, if_neg (Ne.symm h), add_zero]

@[simp] theorem vnHold_vCount (m : Counts) (vp j : ℕ) :
    (m.vnHold vp).vCount j = m.vCount j + if vp = j then 1 else 0 := bump_apply ..

@[simp] theorem vnHold_crRef (m : Counts) (vp : ℕ) : (m.vnHold vp).crRef = m.crRef := rfl

@[simp] theorem vnRele_vCount (m : Counts) (vp j : ℕ) :
    (m.vnRele vp).vCount j = m.vCount j + if vp = j then -1 else 0 := bump_apply ..

@[simp] theorem vnRele_crRef (m : Counts) (vp : ℕ) : (m.vnRele vp).crRef = m.crRef := rfl

@[simp] theorem vnReleOpt_vCount (m : Counts) (vp : Option ℕ) (j : ℕ) :
    (m.vnReleOpt vp).vCount j = m.vCount j + if vp = some j then -1 else 0 := by
  cases vp <;> simp [Counts.vnReleOpt]

@[simp] theorem vnReleOpt_crRef (m : Counts) (vp : Option ℕ) : (m.vnReleOpt vp).crRef = m.crRef := by
  cases vp <;> rfl

@[simp] theorem crholdOpt_crRef (m : Counts) (cr : Option ℕ) (j : ℕ) :
    (m.crholdOpt cr).crRef j = m.crRef j + if cr = some j then 1 else 0 := by
  cases cr <;> simp [Counts.crholdOpt, bump_apply]

@[simp] theorem crholdOpt_vCount (m : Counts) (cr : Option ℕ) : (m.crholdOpt cr).vCount = m.vCount := by
  cases cr <;> rfl

@[simp] theorem crfreeOpt_crRef (m : Counts) (cr : Option ℕ) (j : ℕ) :
    (m.crfreeOpt cr).crRef j = m.crRef j + if cr = some j then -1 else 0 := by
  cases cr <;> simp [Counts.crfreeOpt, bump_apply]

@[simp] theorem crfreeOpt_vCount (m : Counts) (cr : Option ℕ) : (m.crfreeOpt cr).vCount = m.vCount := by
  cases cr <;> rfl

theorem vnHolds_append (l l' : List (Key × ℕ)) (vp : ℕ) :
    vnHolds (l ++ l') vp = vnHolds l vp + vnHolds l' vp := by
  simp only [vnHolds, countP_append]
  push_cast
  omega

theorem vnHolds_singleton (x : Key × ℕ) (vp : ℕ) :
    vnHolds [x] vp = (if x.1.1 = vp then 1 else 0) + if x.2 = vp then 1 else 0 := by
  simp only [vnHolds, countP_singleton, decide_eq_true_eq]
  split_ifs <;> rfl

theorem credHolds_append (l l' : List (Key × ℕ)) (cr : ℕ) :
    credHolds (l ++ l') cr = credHolds l cr + credHolds l' cr := by
  simp only [credHolds, countP_append]
  push_cast
  rfl

theorem credHolds_singleton (x : Key × ℕ) (cr : ℕ) :
    credHolds [x] cr = if x.1.2.2 = some cr then 1 else 0 := by
  simp only [credHolds, countP_singleton, decide_eq_true_eq]
  split_ifs <;> rfl

/-! ### Entries -/

theorem slot_eq_some {dp vp : ℕ} {name : Name} {cred : Option ℕ} :
    c.slot i = some ((dp, name, cred), vp) ↔ c.entry i = ⟨some vp, some dp, name, cred⟩ := by
  unfold Cache.slot
  obtain ⟨vp', dp', name', cred'⟩ := c.entry i
  cases vp' <;> cases dp' <;> simp
  tauto

theorem mem_cached (hi : i ∈ c.lru) (hx : c.slot i = some x) : x ∈ c.cached :=
  mem_filterMap.2 ⟨i, hi, hx⟩

theorem Cache.Ok.nodup_lru (h : c.Ok n) : c.lru.Nodup := h.lru.nodup_iff.2 nodup_range

variable {pre post : List ℕ}

theorem cached_split (hl : c.lru = pre ++ i :: post) (hx : c.slot i = some x) :
    c.cached = pre.filterMap c.slot ++ x :: post.filterMap c.slot := by
  rw [Cache.cached, hl, filterMap_append, filterMap_cons_some hx]

/-- An entry with a vnode and a directory is in use. -/
theorem Cache.Ok.slot_of_dp (h : c.Ok n) {dp : ℕ} (hd : (c.entry i).dp = some dp) :
    ∃ x, c.slot i = some x ∧ x.1.1 = dp ∧ x.1.2.1 = (c.entry i).name ∧
      x.1.2.2 = (c.entry i).cred ∧ (c.entry i).vp = some x.2 := by
  cases hx : c.slot i with
  | none =>
    obtain ⟨hdp, -⟩ := h.free i hx
    rw [hdp] at hd
    cases hd
  | some x =>
    obtain ⟨⟨dp', name, cred⟩, vp⟩ := x
    have he := slot_eq_some.1 hx
    rw [he] at hd ⊢
    exact ⟨_, rfl, Option.some.inj hd, rfl, rfl, rfl⟩

/-! ### Removing an entry -/

theorem slot_dnlcRm (j : ℕ) : (dnlcRm c i).slot j = if j = i then none else c.slot j := by
  by_cases hj : j = i
  · subst hj
    simp [Cache.slot, dnlcRm]
  · simp [Cache.slot, dnlcRm, Cache.rmHash, hj]

theorem Cache.Ok.split_lru (h : c.Ok n) (hl : c.lru = pre ++ i :: post) :
    c.lru.erase i = pre ++ post ∧ ∀ j ∈ pre ++ post, j ≠ i := by
  have hnd := h.nodup_lru
  rw [hl] at hnd
  have hni : i ∉ pre ++ post := (nodup_middle.1 hnd).notMem
  refine ⟨?_, fun j hj hji => hni (hji ▸ hj)⟩
  rw [hl, erase_append_right _ fun hp => hni (mem_append_left _ hp), erase_cons_head]

theorem filterMap_congr_slot {c' : Cache} {l : List ℕ} (h : ∀ j ∈ l, c'.slot j = c.slot j) :
    l.filterMap c'.slot = l.filterMap c.slot :=
  filterMap_congr h

/-- `dnlc_rm` forgets the name of an entry in use and gives its references back. -/
theorem dnlcRm_spec (h : c.Ok n) (hc : c.Counted base)
    (hl : c.lru = pre ++ i :: post) (hx : c.slot i = some x) :
    (dnlcRm c i).Ok n ∧ (dnlcRm c i).Counted base ∧
      (dnlcRm c i).cached = pre.filterMap c.slot ++ post.filterMap c.slot := by
  obtain ⟨herase, hne⟩ := h.split_lru hl
  have hcached := cached_split hl hx
  have hlru : (dnlcRm c i).lru = i :: (pre ++ post) := by
    rw [← herase]
    rfl
  have hslot : ∀ j ∈ pre ++ post, (dnlcRm c i).slot j = c.slot j := fun j hj => by
    rw [slot_dnlcRm, if_neg (hne j hj)]
  have hcached' : (dnlcRm c i).cached = pre.filterMap c.slot ++ post.filterMap c.slot := by
    rw [Cache.cached, hlru, filterMap_cons_none (by rw [slot_dnlcRm, if_pos rfl]),
      filterMap_congr_slot hslot, filterMap_append]
  have hsub : (dnlcRm c i).cached.Sublist c.cached := by
    rw [hcached, hcached']
    exact List.Sublist.append_left (sublist_cons_self _ _) _
  obtain ⟨⟨dp, name, cred⟩, vp⟩ := x
  have he := slot_eq_some.1 hx
  refine ⟨⟨?_, fun k => (h.chain_nodup k).erase i, fun k j => ?_, fun j hj => ?_, ?_,
    fun x hx => h.len x (hsub.subset hx), h.keys.sublist (hsub.map _)⟩, ⟨fun v => ?_, fun cr => ?_⟩,
    hcached'⟩
  · rw [hlru]
    refine List.Perm.trans ?_ h.lru
    rw [hl]
    exact perm_middle.symm
  · have hch : (dnlcRm c i).chain k = (c.chain k).erase i := rfl
    rw [hch, (h.chain_nodup k).mem_erase_iff, h.mem_chain, slot_dnlcRm, hlru, hl]
    by_cases hj : j = i
    · simp [hj]
    · simp [hj]
  · by_cases hji : j = i
    · subst hji
      simp [dnlcRm]
    · rw [slot_dnlcRm, if_neg hji] at hj
      simpa [dnlcRm, Cache.rmHash, hji] using h.free j hj
  · have hfront := h.front
    rw [hl] at hfront
    have hrest := hfront.sublist (List.Sublist.append_left (sublist_cons_self i post) pre)
    rw [hlru]
    refine pairwise_cons.2 ⟨fun j _ hj => ?_, hrest.imp_of_mem fun {j k} hj hk hjk => ?_⟩
    · rw [slot_dnlcRm, if_pos rfl] at hj
      exact absurd rfl hj
    · rwa [hslot j hj, hslot k hk]
  · have hv := hc.vCount v
    rw [hcached, vnHolds_append, ← singleton_append, vnHolds_append, vnHolds_singleton] at hv
    rw [hcached', vnHolds_append]
    simp only [dnlcRm, he, crfreeOpt_vCount, vnReleOpt_vCount, Option.some.injEq, Cache.rmHash]
    split_ifs at hv ⊢ <;> omega
  · have hr := hc.crRef cr
    rw [hcached, credHolds_append, ← singleton_append, credHolds_append,
      credHolds_singleton] at hr
    rw [hcached', credHolds_append]
    simp only [dnlcRm, he, crfreeOpt_crRef, vnReleOpt_crRef, Cache.rmHash]
    split_ifs at hr ⊢ <;> omega

/-- What a loop removes: all cached names that satisfy `p`. -/
theorem rmLoop_spec {next : Cache → Option ℕ} {p : Key × ℕ → Bool}
    (hsome : ∀ c : Cache, c.Ok n → ∀ i, next c = some i → i ∈ c.lru ∧ ∃ x, c.slot i = some x ∧ p x)
    (hnone : ∀ c : Cache, c.Ok n → next c = none → ∀ x ∈ c.cached, ¬p x) (fuel : ℕ) (h : c.Ok n)
    (hc : c.Counted base) (hfuel : c.cached.length ≤ fuel) :
    (rmLoop next fuel c).Ok n ∧ (rmLoop next fuel c).Counted base ∧
      (rmLoop next fuel c).cached = Lru.drop p c.cached ∧ next (rmLoop next fuel c) = none := by
  induction fuel generalizing c with
  | zero =>
    have hnil : c.cached = [] := length_eq_zero_iff.1 (Nat.le_zero.1 hfuel)
    refine ⟨h, hc, by rw [rmLoop, hnil]; rfl, ?_⟩
    cases hn : next c with
    | none => rwa [rmLoop]
    | some i =>
      obtain ⟨hi, x, hx, -⟩ := hsome c h i hn
      have hmem := mem_cached hi hx
      rw [hnil] at hmem
      cases hmem
  | succ fuel ih =>
    cases hn : next c with
    | none =>
      simp only [rmLoop, hn]
      refine ⟨h, hc, (filter_eq_self.2 fun x hx => ?_).symm, trivial⟩
      simpa using hnone c h hn x hx
    | some i =>
      obtain ⟨hi, x, hx, hpx⟩ := hsome c h i hn
      obtain ⟨pre, post, hl⟩ := append_of_mem hi
      obtain ⟨h', hc', hpost⟩ := dnlcRm_spec h hc hl hx
      have hpre := cached_split hl hx
      simp only [rmLoop, hn]
      obtain ⟨hok, hcnt, hcached, hend⟩ := ih h' hc' (by
        rw [hpre] at hfuel
        rw [hpost]
        simp only [length_append, length_cons] at hfuel ⊢
        omega)
      refine ⟨hok, hcnt, ?_, hend⟩
      rw [hcached, hpre, hpost]
      simp [Lru.drop, hpx]

/-! ### Finding an entry -/

/-- What `dnlc_search` looks for. -/
def Wanted (dp : ℕ) (name : Name) (cred : CredArg) (x : Key × ℕ) : Bool :=
  x.1.1 = dp && x.1.2.1 = name && (cred = .any || cred = .the x.1.2.2)

/-- `dnlc_search` finds an entry when there is one. -/
theorem dnlcSearch_spec (h : c.Ok n) (dp : ℕ) (name : Name) (cred : CredArg) :
    (∃ i x, dnlcSearch c dp name (ncHash name dp) cred = some i ∧ i ∈ c.lru ∧
      c.slot i = some x ∧ Wanted dp name cred x ∧ i ∈ c.chain (ncHash name dp)) ∨
    dnlcSearch c dp name (ncHash name dp) cred = none ∧ ∀ x ∈ c.cached, ¬Wanted dp name cred x := by
  cases hs : dnlcSearch c dp name (ncHash name dp) cred with
  | some i =>
    have hch := mem_of_find?_eq_some hs
    obtain ⟨hd, hn, hcr⟩ : (c.entry i).Matches dp name cred := by
      simpa using find?_some hs
    obtain ⟨x, hx, hxd, hxn, hxc, -⟩ := h.slot_of_dp hd
    refine .inl ⟨i, x, rfl, ((h.mem_chain _ i).1 hch).1, hx, ?_, hch⟩
    simp only [Wanted, Bool.and_eq_true, Bool.or_eq_true, decide_eq_true_eq]
    exact ⟨⟨hxd, hxn.trans hn⟩, by rwa [hxc]⟩
  | none =>
    refine .inr ⟨rfl, fun x hx hw => ?_⟩
    obtain ⟨i, hi, hslot⟩ := mem_filterMap.1 hx
    obtain ⟨⟨dp', name', cred'⟩, vp⟩ := x
    simp only [Wanted, Bool.and_eq_true, Bool.or_eq_true, decide_eq_true_eq] at hw
    obtain ⟨⟨rfl, rfl⟩, hcr⟩ := hw
    have he := slot_eq_some.1 hslot
    have hch : i ∈ c.chain (ncHash name' dp') := (h.mem_chain _ i).2 ⟨hi, _, hslot, rfl⟩
    refine absurd (find?_eq_none.1 hs i hch) ?_
    simp [Ncache.Matches, he, hcr]

end

end Dnlc

end Hpux
