import Hpux910.Dux.SitemapRuns
import Mathlib

/-!
# Double counts

A client of a remote inode keeps a double count (`dux/sitemap.c`, `dux/dux_vnops.c`): the real
count of its references and the virtual count, which is what the server believes.  The server
counts an open when it serves it and the client when it gets the reply; the client corrects the
server with messages.

* `updatedcount`, `updateDuxref`, `serveRefUpdate` : the routines.
* `RefSys` : a server with the sitemap of one inode, and its clients, with their messages in flight.
* `updatedcount_spec` : what `updatedcount` keeps.
* `Client.Ok` : the balance of one client.
* `refcount_double_count` : the balance in every run, and the runs in which no count gets negative.
-/

namespace Hpux

namespace Dux

open List

/-- `CHECKVCOUNT`. -/
def checkvcount : ℤ := 256

/-- `struct dcount`. -/
structure Dcount where
  /-- `d_rcount`, the real count. -/
  rcount : ℤ
  /-- `d_vcount`, the virtual count. -/
  vcount : ℤ
  deriving DecidableEq, Repr

/-- The calls of `panic` in the two machines. -/
inductive RefPanic
  /-- "updatedcount: negative result". -/
  | negativeResult
  /-- A panic of `updatesitecount`. -/
  | sitemap (p : Panic)
  deriving DecidableEq, Repr

/-- `updatedcount`: the number to subtract at the server and the new counts. -/
def updatedcount (d : Dcount) (delta : ℤ) (serverinitiated : Bool) :
    Except RefPanic (ℤ × Dcount) :=
  let r := d.rcount + delta
  let v := if serverinitiated then d.vcount + delta else d.vcount
  if r < 0 ∨ v < 0 then .error .negativeResult
  else if r = 0 then .ok (v, ⟨r, 0⟩)
  -- actually an "add" here
  else if v = 0 then .ok (-1, ⟨r, 1⟩)
  else if v > checkvcount then .ok (v - r, ⟨r, r⟩)
  else .ok (0, ⟨r, v⟩)

/-- A client of the inode. -/
structure Client where
  /-- `i_refcount`. -/
  refcount : Dcount
  /-- The numbers to subtract in its `DM_REF_UPDATE` messages on their way, the oldest first. -/
  sent : List ℤ
  /-- The replies with the inode that are on their way to it. -/
  granted : ℕ
  deriving DecidableEq, Repr

/-- `send_ref_update` and `send_ref_update_no_ino`. -/
def Client.sendRefUpdate (c : Client) (subtract : ℤ) : Client :=
  { c with sent := c.sent ++ [subtract] }

/-- `update_duxref`. -/
def Client.updateDuxref (c : Client) (delta : ℤ) (serverinitiated : Bool) :
    Except RefPanic Client :=
  match updatedcount c.refcount delta serverinitiated with
  | .error p => .error p
  | .ok (subtract, d) =>
    let c := { c with refcount := d }
    .ok (if subtract ≠ 0 then c.sendRefUpdate subtract else c)

/-- `serve_ref_update`, as far as the sitemap goes. -/
def serveRefUpdate (mySite : ℕ) (refsites : Sitemap) (uSite : ℕ) (subtract : ℤ) :
    Except RefPanic Sitemap :=
  match updatesitecount mySite refsites uSite (-subtract) with
  | .error p => .error (.sitemap p)
  | .ok (_, refsites) => .ok refsites

/-- The server and the clients of an inode. -/
structure RefSys where
  /-- `i_refsites` at the server. -/
  refsites : Sitemap
  /-- The clients, by their sites. -/
  client : ℕ → Client

/-- Replace one client. -/
def RefSys.set (s : RefSys) (site : ℕ) (c : Client) : RefSys :=
  { s with client := Function.update s.client site c }

/-- The events. -/
inductive RefOp
  /-- The server serves an open of the site, and replies. -/
  | grant (site : ℕ)
  /-- A reply arrives. -/
  | reply (site : ℕ)
  /-- A reply arrives, and the client can get no inode for it. -/
  | noIno (site : ℕ)
  /-- References are gained or lost at the site. -/
  | ref (site : ℕ) (delta : ℤ)
  /-- Message `i` of the site arrives at the server. -/
  | arrive (site i : ℕ)
  deriving DecidableEq, Repr

/-- The client of an event. -/
def RefOp.site : RefOp → ℕ
  | .grant site | .reply site | .noIno site | .ref site _ | .arrive site _ => site

/-- One event at the server `mySite`. -/
def RefOp.run (mySite : ℕ) (s : RefSys) : RefOp → Except RefPanic RefSys
  | .grant site =>
    match updatesitecount mySite s.refsites site 1 with
    | .error p => .error (.sitemap p)
    | .ok (_, refsites) =>
      let c := s.client site
      .ok ({ s with refsites }.set site { c with granted := c.granted + 1 })
  | .reply site =>
    let c := s.client site
    match { c with granted := c.granted - 1 }.updateDuxref 1 true with
    | .error p => .error p
    | .ok c => .ok (s.set site c)
  | .noIno site =>
    let c := s.client site
    .ok (s.set site ({ c with granted := c.granted - 1 }.sendRefUpdate 1))
  | .ref site delta =>
    match (s.client site).updateDuxref delta false with
    | .error p => .error p
    | .ok c => .ok (s.set site c)
  | .arrive site i =>
    let c := s.client site
    match serveRefUpdate mySite s.refsites site (c.sent.getD i 0) with
    | .error p => .error p
    | .ok refsites => .ok ({ s with refsites }.set site { c with sent := c.sent.eraseIdx i })

/-- Clients are other sites, only references that are held are lost, and only what is on its way
arrives. -/
def RefOp.Enabled (mySite : ℕ) (s : RefSys) (op : RefOp) : Prop :=
  op.site ≠ 0 ∧ op.site ≠ mySite ∧
    match op with
    | .grant _ => True
    | .reply site | .noIno site => 0 < (s.client site).granted
    | .ref site delta => 0 ≤ (s.client site).refcount.rcount + delta
    | .arrive site i => i < (s.client site).sent.length

/-- What an event adds to the count of its site at the server. -/
def RefOp.adds (s : RefSys) : RefOp → ℤ
  | .grant _ => 1
  | .arrive site i => -(s.client site).sent.getD i 0
  | _ => 0

/-- The count at the server and the number of sites there are in the range of a `short`. -/
def RefOp.Fits (mySite : ℕ) (s : RefSys) (op : RefOp) : Prop :=
  -2 ^ 15 ≤ s.refsites.count mySite op.site + op.adds s ∧
    (Op.update op.site (op.adds s)).Fits mySite s.refsites

/-- A message that takes away references is not served before an older one of the same client that
adds some. -/
def RefOp.InOrder (s : RefSys) : RefOp → Prop
  | .arrive site i => 0 < (s.client site).sent.getD i 0 →
      ∀ x ∈ (s.client site).sent.take i, 0 ≤ x
  | _ => True

/-- The inode from its first use on. -/
def refSys (mySite : ℕ) : Lts RefSys RefOp where
  init s := s = ⟨clearmap, fun _ => ⟨⟨0, 0⟩, [], 0⟩⟩
  step s op s' := op.Enabled mySite s ∧ op.run mySite s = .ok s'

/-! ### One client -/

/-- No count is negative, and they are 0 together. -/
structure Dcount.Ok (d : Dcount) : Prop where
  rcount : 0 ≤ d.rcount
  vcount : 0 ≤ d.vcount
  zero : d.rcount = 0 ↔ d.vcount = 0

/-- `updatedcount` adds `delta` to the real count, and to the virtual one if the server knows of it,
and takes from the virtual count what is to be subtracted at the server. -/
theorem updatedcount_spec {d : Dcount} (h : d.Ok) {delta : ℤ} {serverinitiated : Bool}
    (hr : 0 ≤ d.rcount + delta) (hs : serverinitiated = true → 0 ≤ delta) :
    ∃ subtract d', updatedcount d delta serverinitiated = .ok (subtract, d') ∧ d'.Ok ∧
      d'.rcount = d.rcount + delta ∧
      d'.vcount = d.vcount + (if serverinitiated then delta else 0) - subtract := by
  obtain ⟨-, hv, -⟩ := h
  have hv' : (if serverinitiated then d.vcount + delta else d.vcount) =
      d.vcount + if serverinitiated then delta else 0 := by
    split_ifs <;> simp
  have hnn : 0 ≤ d.vcount + if serverinitiated then delta else 0 := by
    cases serverinitiated with
    | false => simpa using hv
    | true =>
      have := hs rfl
      simp only [if_true]
      omega
  simp only [updatedcount, hv']
  generalize hw : (d.vcount + if serverinitiated then delta else 0) = w at hnn
  rw [if_neg (by omega)]
  by_cases hr0 : d.rcount + delta = 0
  · rw [if_pos hr0]
    exact ⟨_, _, rfl, ⟨hr, le_refl 0, by simp [hr0]⟩, rfl, by simp⟩
  rw [if_neg hr0]
  by_cases hw0 : w = 0
  · rw [if_pos hw0]
    exact ⟨_, _, rfl, ⟨hr, show (0 : ℤ) ≤ 1 by decide, by simp [hr0]⟩, rfl, by simp [hw0]⟩
  rw [if_neg hw0]
  by_cases hbig : w > checkvcount
  · rw [if_pos hbig]
    exact ⟨_, _, rfl, ⟨hr, hr, Iff.rfl⟩, rfl, by simp⟩
  · rw [if_neg hbig]
    exact ⟨_, _, rfl, ⟨hr, hnn, by simp [hr0, hw0]⟩, rfl, by simp⟩

/-- The balance of a client for which the server counts `count`. -/
structure Client.Ok (c : Client) (count : ℤ) : Prop where
  refcount : c.refcount.Ok
  balance : count = c.refcount.vcount + c.sent.sum + c.granted

/-- The virtual count covers what the messages from some point on still take away. -/
def Client.Covered (c : Client) : Prop :=
  ∀ later, later <:+ c.sent → 0 ≤ c.refcount.vcount + later.sum

variable {c : Client}

theorem Client.Covered.vcount (h : c.Covered) : 0 ≤ c.refcount.vcount := by
  simpa using h [] nil_suffix

theorem Client.Covered.send (h : c.Covered) {d : Dcount} {subtract : ℤ}
    (hv : 0 ≤ d.vcount) (hd : c.refcount.vcount ≤ d.vcount + subtract) :
    ({ c with refcount := d }.sendRefUpdate subtract).Covered := by
  intro later hl
  have hl : later <:+ c.sent ++ [subtract] := hl
  obtain rfl | ⟨later, rfl, hsuf⟩ := suffix_concat_iff.1 hl
  · simpa [sendRefUpdate] using hv
  · have := h later hsuf
    simp only [sendRefUpdate, sum_append, sum_singleton]
    omega

/-- `update_duxref` keeps the balance. -/
theorem Client.Ok.updateDuxref_spec {c : Client} {count : ℤ} (h : c.Ok count) {delta : ℤ}
    {serverinitiated : Bool} (hr : 0 ≤ c.refcount.rcount + delta)
    (hs : serverinitiated = true → 0 ≤ delta) : ∃ c', c.updateDuxref delta serverinitiated = .ok c' ∧
      c'.Ok (count + if serverinitiated then delta else 0) ∧ (c.Covered → c'.Covered) := by
  obtain ⟨subtract, d, hrun, hd, -, hv⟩ := updatedcount_spec h.refcount hr hs
  have hb := h.balance
  refine ⟨_, by rw [Client.updateDuxref, hrun], ?_⟩
  have hle : c.Covered → c.refcount.vcount ≤ d.vcount + subtract := by
    intro _
    cases serverinitiated with
    | false => simp only [hv]; simp
    | true =>
      have := hs rfl
      simp only [hv, if_true]
      omega
  by_cases hz : subtract ≠ 0
  · rw [if_pos hz]
    refine ⟨⟨hd, ?_⟩, fun hcov => hcov.send hd.vcount (hle hcov)⟩
    simp only [Client.sendRefUpdate, sum_append, sum_singleton]
    omega
  · rw [if_neg hz]
    rw [not_not] at hz
    refine ⟨⟨hd, by simp only; omega⟩, fun hcov later hl => ?_⟩
    have := hcov later hl
    have := hle hcov
    simp only
    omega

/-! ### Runs -/

/-- The sitemap is in order and every client is in balance with it. -/
structure RefSys.Ok (mySite : ℕ) (s : RefSys) : Prop where
  refsites : s.refsites.Ok mySite
  client : ∀ site, (s.client site).Ok (s.refsites.count mySite site)

variable {mySite : ℕ} {s : RefSys}

theorem norm_eq_iff {site k : ℕ} (h0 : site ≠ 0) (hmy : site ≠ mySite) :
    norm mySite site = norm mySite k ↔ site = k := by
  unfold norm
  split_ifs <;> omega

/-- One client and its count at the server change. -/
theorem RefSys.Ok.set (h : s.Ok mySite) {site : ℕ} (h0 : site ≠ 0) (hmy : site ≠ mySite)
    {refsites : Sitemap} {value : ℤ} (hu : Updated mySite s.refsites site value refsites)
   (hc : c.Ok (s.refsites.count mySite site + value)) : ({ s with refsites }.set site c).Ok mySite := by
  refine ⟨hu.ok, fun k => ?_⟩
  have hcount : refsites.count mySite k =
      s.refsites.count mySite k + if norm mySite site = norm mySite k then value else 0 :=
    hu.total _
  simp only [RefSys.set, hcount, norm_eq_iff h0 hmy]
  by_cases hk : site = k
  · subst hk
    simpa using hc
  · rw [Function.update_of_ne (Ne.symm hk), if_neg hk, add_zero]
    exact h.client k

theorem RefSys.covered_set (h : ∀ k, (s.client k).Covered) {site : ℕ} {refsites : Sitemap}
   (hc : c.Covered) (k : ℕ) : (({ s with refsites }.set site c).client k).Covered := by
  by_cases hk : k = site
  · subst hk
    simpa [RefSys.set] using hc
  · simpa [RefSys.set, Function.update_of_ne hk] using h k

theorem updated_zero (h : s.refsites.Ok mySite) (site : ℕ) :
    Updated mySite s.refsites site 0 s.refsites :=
  ⟨h, by simp⟩

theorem Client.split_sent {i : ℕ} (hi : i < c.sent.length) : ∃ pre x post,
    c.sent = pre ++ x :: post ∧ c.sent.getD i 0 = x ∧ c.sent.take i = pre ∧
      c.sent.eraseIdx i = pre ++ post := by
  refine ⟨c.sent.take i, c.sent[i], c.sent.drop (i + 1), by simp, by simp [hi], rfl, ?_⟩
  exact eraseIdx_eq_take_drop_succ ..

theorem Client.sum_eraseIdx {i : ℕ} (hi : i < c.sent.length) :
    (c.sent.eraseIdx i).sum = c.sent.sum - c.sent.getD i 0 := by
  obtain ⟨pre, x, post, hsent, hx, -, herase⟩ := split_sent hi
  rw [herase, hx, hsent]
  simp only [sum_append, sum_cons]
  omega

/-- Taking out message `i`, which is not served before an older one that adds references. -/
theorem Client.Covered.erase (h : c.Covered) {i : ℕ} (hi : i < c.sent.length)
    (hord : 0 < c.sent.getD i 0 → ∀ x ∈ c.sent.take i, 0 ≤ x) :
    { c with sent := c.sent.eraseIdx i }.Covered := by
  obtain ⟨pre, x, post, hsent, hx, htake, herase⟩ := split_sent hi
  rw [hx, htake] at hord
  intro later hl
  simp only [herase] at hl ⊢
  obtain ⟨front, hl⟩ := hl
  obtain ⟨mid, rfl, rfl⟩ | ⟨mid, rfl, rfl⟩ := append_eq_append_iff.1 hl
  · -- the part begins before the message
    have hwith := h (mid ++ x :: post) ⟨front, by simp [hsent]⟩
    have hpost := h post ⟨front ++ mid ++ [x], by simp [hsent]⟩
    simp only [sum_append, sum_cons] at hwith hpost ⊢
    by_cases hpos : 0 < x
    · have hmid : 0 ≤ mid.sum := sum_nonneg fun y hy => hord hpos y (by simp [hy])
      omega
    · omega
  · -- the part begins after it
    exact h later ⟨pre ++ x :: mid, by simp [hsent]⟩

/-- A message that is not served before an older one that adds references takes away no more than
the server has. -/
theorem Client.Ok.held {count : ℤ} (h : c.Ok count) (hcov : c.Covered) {i : ℕ}
    (hi : i < c.sent.length) (hord : 0 < c.sent.getD i 0 → ∀ x ∈ c.sent.take i, 0 ≤ x) :
    c.sent.getD i 0 ≤ count := by
  have hrest := hcov.erase hi hord _ (suffix_refl _)
  have hsum := sum_eraseIdx hi
  have := h.balance
  simp only at hrest
  omega

/-- An event that takes no count below 0 succeeds, keeps the balance, and if it is in order the
messages stay covered. -/
theorem RefOp.run_spec (h : s.Ok mySite) {op : RefOp} (hen : op.Enabled mySite s)
    (hfits : op.Fits mySite s) (hheld : 0 ≤ s.refsites.count mySite op.site + op.adds s) :
    ∃ s', op.run mySite s = .ok s' ∧ s'.Ok mySite ∧
      ((∀ k, (s.client k).Covered) → op.InOrder s → ∀ k, (s'.client k).Covered) := by
  obtain ⟨h0, hmy, hen⟩ := hen
  have hc := h.client op.site
  have hupdate := @updatesitecount_spec mySite s.refsites op.site h.refsites (op.adds s) hheld
    hfits.2.1 hfits.2.2
  cases op with
  | grant site =>
    have h0 : site ≠ 0 := h0
    have hmy : site ≠ mySite := hmy
    obtain ⟨v, m', hrun, hu, -⟩ := hupdate
    have hrun : updatesitecount mySite s.refsites site 1 = .ok (v, m') := hrun
    have hc : (s.client site).Ok (s.refsites.count mySite site) := hc
    have hc' : Client.Ok { s.client site with granted := (s.client site).granted + 1 }
        (s.refsites.count mySite site + 1) := by
      refine ⟨hc.refcount, ?_⟩
      have := hc.balance
      push_cast
      omega
    exact ⟨_, by simp only [run, hrun], h.set h0 hmy hu hc', fun hcov _ =>
      RefSys.covered_set hcov (hcov site)⟩
  | reply site =>
    have h0 : site ≠ 0 := h0
    have hmy : site ≠ mySite := hmy
    have hgr : 0 < (s.client site).granted := hen
    have hc : (s.client site).Ok (s.refsites.count mySite site) := hc
    have hc' : Client.Ok { s.client site with granted := (s.client site).granted - 1 }
        (s.refsites.count mySite site - 1) := by
      refine ⟨hc.refcount, ?_⟩
      have := hc.balance
      push_cast [Nat.cast_sub hgr]
      omega
    have hr : 0 ≤ (s.client site).refcount.rcount + 1 := by
      have := hc.refcount.rcount
      omega
    obtain ⟨c', hrun, hok, hcov'⟩ :=
      @Client.Ok.updateDuxref_spec _ _ hc' 1 true hr fun _ => show (0 : ℤ) ≤ 1 by decide
    refine ⟨s.set site c', by simp only [run, hrun],
      h.set h0 hmy (updated_zero h.refsites site) (by simpa using hok),
      fun hcov _ => RefSys.covered_set hcov (hcov' (hcov site))⟩
  | noIno site =>
    have h0 : site ≠ 0 := h0
    have hmy : site ≠ mySite := hmy
    have hgr : 0 < (s.client site).granted := hen
    have hc : (s.client site).Ok (s.refsites.count mySite site) := hc
    have hc' : Client.Ok
        ({ s.client site with granted := (s.client site).granted - 1 }.sendRefUpdate 1)
        (s.refsites.count mySite site + 0) := by
      refine ⟨hc.refcount, ?_⟩
      have := hc.balance
      simp only [Client.sendRefUpdate, sum_append, sum_singleton]
      push_cast [Nat.cast_sub hgr]
      omega
    refine ⟨_, rfl, h.set h0 hmy (updated_zero h.refsites site) hc', fun hcov _ =>
      RefSys.covered_set hcov ?_⟩
    have hcov' : Client.Covered { s.client site with granted := (s.client site).granted - 1 } :=
      hcov site
    exact hcov'.send hcov'.vcount (by simp)
  | ref site delta =>
    have h0 : site ≠ 0 := h0
    have hmy : site ≠ mySite := hmy
    have hc : (s.client site).Ok (s.refsites.count mySite site) := hc
    obtain ⟨c', hrun, hok, hcov'⟩ := @Client.Ok.updateDuxref_spec _ _ hc delta false hen (by simp)
    have hrun : (s.client site).updateDuxref delta false = .ok c' := hrun
    refine ⟨s.set site c', by simp only [run, hrun],
      h.set h0 hmy (updated_zero h.refsites site) (by simpa using hok),
      fun hcov _ => RefSys.covered_set hcov (hcov' (hcov site))⟩
  | arrive site i =>
    have h0 : site ≠ 0 := h0
    have hmy : site ≠ mySite := hmy
    obtain ⟨v, m', hrun, hu, -⟩ := hupdate
    have hi : i < (s.client site).sent.length := hen
    have hc : (s.client site).Ok (s.refsites.count mySite site) := hc
    have hrun : updatesitecount mySite s.refsites site (-(s.client site).sent.getD i 0) =
        .ok (v, m') := hrun
    have hc' : Client.Ok { s.client site with sent := (s.client site).sent.eraseIdx i }
        (s.refsites.count mySite site + -(s.client site).sent.getD i 0) := by
      refine ⟨hc.refcount, ?_⟩
      have := hc.balance
      have := Client.sum_eraseIdx hi
      simp only
      omega
    exact ⟨_, by simp only [run, serveRefUpdate, hrun], h.set h0 hmy hu hc', fun hcov hord =>
      RefSys.covered_set hcov ((hcov site).erase hi hord)⟩

/-- A message that takes away more than the server has makes it panic. -/
theorem RefOp.held_of_run (h : s.Ok mySite) {op : RefOp} (hfits : op.Fits mySite s) {s' : RefSys}
    (hrun : op.run mySite s = .ok s') : 0 ≤ s.refsites.count mySite op.site + op.adds s := by
  have hnn : 0 ≤ s.refsites.count mySite op.site := h.refsites.slots.total_nonneg
  by_contra hneg
  obtain ⟨p, herr⟩ := updatesitecount_error h.refsites (not_le.1 hneg) hfits.1
  cases op with
  | arrive site i =>
    have herr : updatesitecount mySite s.refsites site (-(s.client site).sent.getD i 0) =
        .error p := herr
    simp only [run, serveRefUpdate, herr] at hrun
    cases hrun
  | grant site =>
    simp only [adds] at hneg
    omega
  | reply site | noIno site | ref site delta =>
    simp only [adds] at hneg
    omega

theorem refSys_init_ok (mySite : ℕ) : RefSys.Ok mySite ⟨clearmap, fun _ => ⟨⟨0, 0⟩, [], 0⟩⟩ :=
  ⟨clearmap_ok mySite, fun _ => ⟨⟨le_refl 0, le_refl 0, Iff.rfl⟩, rfl⟩⟩

theorem refSys_reach_ok
    (h : ((refSys mySite).restrict fun s op => op.Fits mySite s).Reach s) : s.Ok mySite := by
  refine h.inv ?_ ?_
  · rintro _ rfl
    exact refSys_init_ok mySite
  · rintro s op s' - hs ⟨hfits, hen, hrun⟩
    obtain ⟨s'', hrun', hok, -⟩ := RefOp.run_spec hs hen hfits (RefOp.held_of_run hs hfits hrun)
    obtain rfl := Except.ok.inj (hrun'.symm.trans hrun)
    exact hok

/-- Every run that serves the messages in order keeps them covered. -/
theorem refSys_reach_covered
    (h : ((refSys mySite).restrict fun s op => op.Fits mySite s ∧ op.InOrder s).Reach s) :
    s.Ok mySite ∧ ∀ k, (s.client k).Covered := by
  refine h.inv (I := fun s => s.Ok mySite ∧ ∀ k, (s.client k).Covered) ?_ ?_
  · rintro _ rfl
    refine ⟨refSys_init_ok mySite, fun k later hl => ?_⟩
    obtain rfl := suffix_nil.1 hl
    exact le_refl 0
  · rintro s op s' - ⟨hs, hcov⟩ ⟨⟨hfits, hord⟩, hen, hrun⟩
    obtain ⟨s'', hrun', hok, hcov'⟩ :=
      RefOp.run_spec hs hen hfits (RefOp.held_of_run hs hfits hrun)
    obtain rfl := Except.ok.inj (hrun'.symm.trans hrun)
    exact ⟨hok, hcov' hcov hord⟩

/-- In every run whose counts fit, the count of a client at the server is its virtual count, and
what its messages on their way take away, and the opens whose replies are on their way.  The real
count is 0 iff the virtual count is, and nothing but the arrival of a message can panic.  If
moreover no message that takes references away was served before an older one of the client that
adds some, no message that arrives so takes away more than the server has, and its arrival does not
panic either. -/
theorem refcount_double_count
    (h : ((refSys mySite).restrict fun s op => op.Fits mySite s).Reach s) :
    (∀ site, getsitecount mySite s.refsites site = (s.client site).refcount.vcount +
      (s.client site).sent.sum + (s.client site).granted) ∧
    (∀ site, (s.client site).refcount.rcount = 0 ↔ (s.client site).refcount.vcount = 0) ∧
    (∀ op : RefOp, op.Enabled mySite s → op.Fits mySite s → (∀ site i, op ≠ .arrive site i) →
      ∃ s', op.run mySite s = .ok s') ∧
    (((refSys mySite).restrict fun s op => op.Fits mySite s ∧ op.InOrder s).Reach s →
      ∀ site i, (RefOp.arrive site i).Enabled mySite s → (RefOp.arrive site i).Fits mySite s →
        (RefOp.arrive site i).InOrder s →
        (s.client site).sent.getD i 0 ≤ getsitecount mySite s.refsites site ∧
        ∃ s', (RefOp.arrive site i).run mySite s = .ok s') := by
  have hok := refSys_reach_ok h
  refine ⟨fun site => ?_, fun site => (hok.client site).refcount.zero, fun op hen hfits hop => ?_,
    fun hord site i hen hfits hin => ?_⟩
  · rw [getsitecount_spec hok.refsites]
    exact (hok.client site).balance
  · have hnn : 0 ≤ s.refsites.count mySite op.site := hok.refsites.slots.total_nonneg
    have hheld : 0 ≤ s.refsites.count mySite op.site + op.adds s := by
      cases op with
      | arrive site i => exact absurd rfl (hop site i)
      | grant site | reply site | noIno site | ref site delta =>
        simp only [RefOp.adds]
        omega
    obtain ⟨s', hrun, -⟩ := RefOp.run_spec hok hen hfits hheld
    exact ⟨s', hrun⟩
  · obtain ⟨-, hcov⟩ := refSys_reach_covered hord
    have hheld := (hok.client site).held (hcov site) hen.2.2 hin
    rw [getsitecount_spec hok.refsites]
    refine ⟨hheld, ?_⟩
    obtain ⟨s', hrun, -⟩ := RefOp.run_spec hok hen hfits (by
      simp only [RefOp.adds, RefOp.site]
      omega)
    exact ⟨s', hrun⟩

/-- An open, its reply, and the message when the reference is given back. -/
theorem refcount_double_count_one : ∃ s,
    ((refSys 1).restrict fun s op => op.Fits 1 s).Reach s ∧ (s.client 2).sent = [1] ∧
      getsitecount 1 s.refsites 2 = 1 := by
  have hfits : ∀ s : RefSys, s.refsites.count 1 2 = 1 → ∀ op : RefOp, op.site = 2 →
      op.adds s = 0 → op.Fits 1 s := by
    intro s hs op hop hadds
    simp only [RefOp.Fits, Op.Fits, Op.adds, hop, hadds, hs]
    exact ⟨by decide, by decide, fun h => absurd h (by decide)⟩
  have h₁ : ((refSys 1).restrict fun s op => op.Fits 1 s).Reach
      (RefSys.set ⟨⟨1, .onesite ⟨2, 1⟩⟩, fun _ => ⟨⟨0, 0⟩, [], 0⟩⟩ 2 ⟨⟨0, 0⟩, [], 1⟩) :=
    .step (l := .grant 2) (.init rfl)
      ⟨⟨by decide, by decide, by decide⟩, ⟨by decide, by decide, trivial⟩, rfl⟩
  have h₂ := h₁.step (l := .reply 2) ⟨hfits _ rfl _ rfl rfl, ⟨by decide, by decide, by decide⟩, rfl⟩
  have h₃ := h₂.step (l := .ref 2 (-1)) ⟨hfits _ rfl _ rfl rfl,
    ⟨by decide, by decide, by decide⟩, rfl⟩
  obtain ⟨hbal, -⟩ := refcount_double_count h₃
  exact ⟨_, h₃, rfl, (hbal 2).trans (by decide)⟩

/-! ### A message that overtakes another -/

/-- Site 2 is the only client with a history. -/
def oneClient (m : Sitemap) (c : Client) : RefSys :=
  ⟨m, Function.update (fun _ => ⟨⟨0, 0⟩, [], 0⟩) 2 c⟩

theorem oneClient_client (m : Sitemap) (c : Client) : (oneClient m c).client 2 = c := by
  simp [oneClient]

theorem oneClient_set (m m' : Sitemap) (c c' : Client) :
    { oneClient m c with refsites := m' }.set 2 c' = oneClient m' c' := by
  simp [oneClient, RefSys.set]

/-- The server counts `n` uses by site 2. -/
def usedBy2 (n : ℤ) : Sitemap := ⟨1, .onesite ⟨2, n⟩⟩

theorem updatesitecount_usedBy2 {n : ℤ} (h0 : 0 < n) (hn : n + 1 < 2 ^ 15) :
    updatesitecount 1 (usedBy2 n) 2 1 = .ok (n + 1, usedBy2 (n + 1)) := by
  have hc : i16 (n + 1) = n + 1 := i16_eq (by omega) hn
  have hat : Sitemap.countAt ⟨1, .onesite ⟨2, n⟩⟩ 0 = n := rfl
  simp only [updatesitecount, usedBy2, getsiteentry_onesite_eq]
  rw [if_neg (by decide), if_pos (.inl rfl)]
  simp only [hat, hc]
  rw [if_neg (by omega), if_neg (by omega)]
  rfl

theorem RefOp.run_grant (s : RefSys) (site : ℕ) : (RefOp.grant site).run 1 s =
    match updatesitecount 1 s.refsites site 1 with
    | .error p => .error (.sitemap p)
    | .ok (_, refsites) => .ok ({ s with refsites }.set site
        { s.client site with granted := (s.client site).granted + 1 }) := rfl

theorem RefOp.run_reply (s : RefSys) (site : ℕ) : (RefOp.reply site).run 1 s =
    match { s.client site with granted := (s.client site).granted - 1 }.updateDuxref 1 true with
    | .error p => .error p
    | .ok c => .ok (s.set site c) := rfl

theorem RefOp.run_ref (s : RefSys) (site : ℕ) (delta : ℤ) : (RefOp.ref site delta).run 1 s =
    match (s.client site).updateDuxref delta false with
    | .error p => .error p
    | .ok c => .ok (s.set site c) := rfl

theorem RefOp.run_arrive (s : RefSys) (site i : ℕ) : (RefOp.arrive site i).run 1 s =
    match serveRefUpdate 1 s.refsites site ((s.client site).sent.getD i 0) with
    | .error p => .error p
    | .ok refsites => .ok ({ s with refsites }.set site
        { s.client site with sent := (s.client site).sent.eraseIdx i }) := rfl

section

variable {m m' : Sitemap} {c c' : Client}

theorem reach_ref {d : ℤ} (h : (refSys 1).Reach (oneClient m c))
    (hr : 0 ≤ c.refcount.rcount + d) (hrun : c.updateDuxref d false = .ok c') :
    (refSys 1).Reach (oneClient m c') := by
  refine h.step (l := .ref 2 d) ⟨⟨show 2 ≠ 0 by decide, show 2 ≠ 1 by decide, ?_⟩, ?_⟩
  · simpa only [oneClient_client] using hr
  · have hset := oneClient_set m m c c'
    simp only [RefOp.run_ref, oneClient_client, hrun]
    exact congrArg Except.ok hset

theorem reach_grant {v : ℤ} (h : (refSys 1).Reach (oneClient m c))
    (hrun : updatesitecount 1 m 2 1 = .ok (v, m')) :
    (refSys 1).Reach (oneClient m' { c with granted := c.granted + 1 }) := by
  refine h.step (l := .grant 2) ⟨⟨by decide, by decide, trivial⟩, ?_⟩
  have hm : (oneClient m c).refsites = m := rfl
  simp only [RefOp.run_grant, oneClient_client, hm, hrun, oneClient_set]

theorem reach_reply (h : (refSys 1).Reach (oneClient m c)) (hg : 0 < c.granted)
    (hrun : { c with granted := c.granted - 1 }.updateDuxref 1 true = .ok c') :
    (refSys 1).Reach (oneClient m c') := by
  refine h.step (l := .reply 2) ⟨⟨by decide, by decide, ?_⟩, ?_⟩
  · simpa only [oneClient_client] using hg
  · have hset := oneClient_set m m c c'
    simp only [RefOp.run_reply, oneClient_client, hrun]
    exact congrArg Except.ok hset

theorem reach_arrive {v : ℤ} {i : ℕ} (h : (refSys 1).Reach (oneClient m c)) (hi : i < c.sent.length)
    (hrun : updatesitecount 1 m 2 (-c.sent.getD i 0) = .ok (v, m')) :
    (refSys 1).Reach (oneClient m' { c with sent := c.sent.eraseIdx i }) := by
  refine h.step (l := .arrive 2 i) ⟨⟨show 2 ≠ 0 by decide, show 2 ≠ 1 by decide, ?_⟩, ?_⟩
  · simpa only [oneClient_client] using hi
  · have hm : (oneClient m c).refsites = m := rfl
    simp only [RefOp.run_arrive, oneClient_client, hm, serveRefUpdate, hrun, oneClient_set]

variable {sent : List ℤ}

theorem reach_quiet {r v : ℤ} (hv : 0 < v ∧ v ≤ checkvcount) {d : ℤ}
    (hr : 0 < r + d) (h : (refSys 1).Reach (oneClient m ⟨⟨r, v⟩, sent, 0⟩)) :
    (refSys 1).Reach (oneClient m ⟨⟨r + d, v⟩, sent, 0⟩) := by
  refine reach_ref h hr.le ?_
  have hquiet : updatedcount ⟨r, v⟩ d false = .ok (0, ⟨r + d, v⟩) := by
    simp only [updatedcount, Bool.false_eq_true, if_false]
    rw [if_neg (by omega), if_neg (by omega), if_neg (by omega), if_neg (by omega)]
  simp only [Client.updateDuxref, hquiet]
  rfl

theorem reach_gains {r v : ℤ} (hv : 0 < v ∧ v ≤ checkvcount) (hr : 0 < r) (k : ℕ)
    (h : (refSys 1).Reach (oneClient m ⟨⟨r, v⟩, sent, 0⟩)) :
    (refSys 1).Reach (oneClient m ⟨⟨r + k, v⟩, sent, 0⟩) := by
  induction k with
  | zero => simpa using h
  | succ k ih =>
    have := reach_quiet (d := 1) hv (by omega) ih
    rwa [Nat.cast_succ, ← add_assoc]

theorem reach_losses {r v : ℤ} (hv : 0 < v ∧ v ≤ checkvcount) (k : ℕ)
    (hr : k < r) (h : (refSys 1).Reach (oneClient m ⟨⟨r, v⟩, sent, 0⟩)) :
    (refSys 1).Reach (oneClient m ⟨⟨r - k, v⟩, sent, 0⟩) := by
  induction k with
  | zero => simpa using h
  | succ k ih =>
    have := reach_quiet (d := -1) hv (by push_cast at hr; omega) (ih (by push_cast at hr; omega))
    rwa [Nat.cast_succ, ← sub_sub]

/-- Opens with their replies. -/
theorem reach_opens (k : ℕ) (hk : k < checkvcount) :
    (refSys 1).Reach (oneClient (usedBy2 (k + 1)) ⟨⟨k + 1, k + 1⟩, [], 0⟩) := by
  induction k with
  | zero =>
    have h₀ : (refSys 1).Reach (oneClient clearmap ⟨⟨0, 0⟩, [], 0⟩) :=
      .init (by simp [refSys, oneClient])
    exact reach_reply (reach_grant h₀ rfl) (by decide) rfl
  | succ k ih =>
    have hk : (k : ℤ) + 1 < 256 := by simpa [checkvcount] using hk
    have hcount := @updatesitecount_usedBy2 (k + 1) (by omega) (by omega)
    have hd : updatedcount ⟨k + 1, k + 1⟩ 1 true = .ok (0, ⟨k + 1 + 1, k + 1 + 1⟩) := by
      simp only [updatedcount, if_true, checkvcount]
      rw [if_neg (by omega), if_neg (by omega), if_neg (by omega), if_neg (by omega)]
    have hopen := reach_reply (reach_grant (ih (by simp only [checkvcount]; omega)) hcount)
      (by simp) (by simp only [Client.updateDuxref, Nat.add_sub_cancel, hd]; rfl)
    push_cast
    exact hopen

end

/-- The balance does not hold while a reply is on its way; a message can overtake one that adds
references and then finds too few of them; and the count at the server may not fit. -/
theorem refcount_overtaken :
    (∃ s, (refSys 1).Reach s ∧
      getsitecount 1 s.refsites 2 ≠ (s.client 2).refcount.vcount + (s.client 2).sent.sum) ∧
    (∃ s, (refSys 1).Reach s ∧ (RefOp.arrive 2 1).Enabled 1 s ∧
      (s.client 2).sent = [-3, 255] ∧ getsitecount 1 s.refsites 2 = 254 ∧
      (RefOp.arrive 2 1).run 1 s = .error (.sitemap .countLtZero)) ∧
    (∃ s, (refSys 1).Reach s ∧ (RefOp.arrive 2 0).Enabled 1 s ∧ (s.client 2).sent = [-32512] ∧
      getsitecount 1 s.refsites 2 = 257 ∧
      (RefOp.arrive 2 0).run 1 s = .error (.sitemap .countLtZero)) := by
  have h₀ : (refSys 1).Reach (oneClient clearmap ⟨⟨0, 0⟩, [], 0⟩) :=
    .init (by simp [refSys, oneClient])
  have hopens : (refSys 1).Reach (oneClient (usedBy2 256) ⟨⟨256, 256⟩, [], 0⟩) :=
    reach_opens 255 (by decide)
  refine ⟨⟨_, reach_grant h₀ rfl, by decide⟩, ?_, ?_⟩
  · -- an open finds the virtual count too small and adds 3
    have hgains : (refSys 1).Reach (oneClient (usedBy2 256) ⟨⟨259, 256⟩, [], 0⟩) :=
      reach_gains (by decide) (by decide) 3 hopens
    have hadd : (refSys 1).Reach (oneClient (usedBy2 257) ⟨⟨260, 260⟩, [-3], 0⟩) :=
      reach_reply (reach_grant hgains rfl) (by decide) rfl
    have h₁ : (refSys 1).Reach (oneClient (usedBy2 257) ⟨⟨259, 259⟩, [-3, 1], 0⟩) :=
      reach_ref (d := -1) hadd (by decide) rfl
    have h₂ : (refSys 1).Reach (oneClient (usedBy2 257) ⟨⟨258, 258⟩, [-3, 1, 1], 0⟩) :=
      reach_ref (d := -1) h₁ (by decide) rfl
    have h₃ : (refSys 1).Reach (oneClient (usedBy2 257) ⟨⟨257, 257⟩, [-3, 1, 1, 1], 0⟩) :=
      reach_ref (d := -1) h₂ (by decide) rfl
    have h₄ : (refSys 1).Reach (oneClient (usedBy2 257) ⟨⟨256, 256⟩, [-3, 1, 1, 1, 1], 0⟩) :=
      reach_ref (d := -1) h₃ (by decide) rfl
    -- the others let go of theirs, and the next open finds the virtual count too large
    have hlosses : (refSys 1).Reach (oneClient (usedBy2 257) ⟨⟨1, 256⟩, [-3, 1, 1, 1, 1], 0⟩) :=
      reach_losses (by decide) 255 (by decide) h₄
    have hsub : (refSys 1).Reach (oneClient (usedBy2 258) ⟨⟨2, 2⟩, [-3, 1, 1, 1, 1, 255], 0⟩) :=
      reach_reply (reach_grant hlosses rfl) (by decide) rfl
    have ha₁ : (refSys 1).Reach (oneClient (usedBy2 257) ⟨⟨2, 2⟩, [-3, 1, 1, 1, 255], 0⟩) :=
      reach_arrive (i := 1) hsub (by decide) rfl
    have ha₂ : (refSys 1).Reach (oneClient (usedBy2 256) ⟨⟨2, 2⟩, [-3, 1, 1, 255], 0⟩) :=
      reach_arrive (i := 1) ha₁ (by decide) rfl
    have ha₃ : (refSys 1).Reach (oneClient (usedBy2 255) ⟨⟨2, 2⟩, [-3, 1, 255], 0⟩) :=
      reach_arrive (i := 1) ha₂ (by decide) rfl
    have ha₄ : (refSys 1).Reach (oneClient (usedBy2 254) ⟨⟨2, 2⟩, [-3, 255], 0⟩) :=
      reach_arrive (i := 1) ha₃ (by decide) rfl
    exact ⟨_, ha₄, ⟨by decide, by decide, by decide⟩, rfl, rfl, rfl⟩
  · have hgains : (refSys 1).Reach (oneClient (usedBy2 256) ⟨⟨32768, 256⟩, [], 0⟩) :=
      reach_gains (by decide) (by decide) 32512 hopens
    have hadd : (refSys 1).Reach (oneClient (usedBy2 257) ⟨⟨32769, 32769⟩, [-32512], 0⟩) :=
      reach_reply (reach_grant hgains rfl) (by decide) rfl
    exact ⟨_, hadd, ⟨by decide, by decide, by decide⟩, rfl, rfl, rfl⟩

end Dux

end Hpux
