import Hpux910.Lib.Census
import Hpux910.Lib.Lts
import Mathlib

/-!
# Multisite requests

A request to several sites (`DM_MULTISITE`, `DM_CLUSTERCAST`) carries a destination list with the
status of every site and two counters: the sites that have not replied, and those that have not
responded at all (`dux/protocol.c`).  Replies, slow-request notices and the cleanup after a crash
update them.

* `DmMultisite`, `MultiEntry` : the destination list, and the using entry with its messages.
* `netRequest`, `recvReply`, `recvSlowRequest`, `cleanUEntry`, `retryRequest` : the routines.
* `multiSys` : one request with its history.
* `MultiOp.Harmless` : the events that the counters survive.
* `multisite_accounts` : in runs of these every site is accounted for.
-/

namespace Hpux

namespace Dux

open List Function

/-- `MAXSITE`. -/
def MAXSITE : ℕ := 256

/-- `DM_CANNOT_DELIVER`. -/
def DM_CANNOT_DELIVER : ℕ := 5

/-- `EOSYS_NORMAL`. -/
def EOSYS_NORMAL : ℕ := 1

/-- The `status` of a site in a destination list. -/
inductive MultiStatus
  /-- `DM_MULTI_NORESP`. -/
  | noresp
  /-- `DM_MULTI_SLOWOP`. -/
  | slowop
  /-- `DM_MULTI_DONE`. -/
  | done
  deriving DecidableEq, Repr

/-- What a reply says about its operation. -/
structure ReplyStuff where
  /-- `dm_rc`, the return code. -/
  rc : ℕ
  /-- `dm_eosys`. -/
  eosys : ℕ
  /-- `dm_acflag`. -/
  acflag : ℕ
  /-- `dm_tflags`. -/
  tflags : ℕ
  deriving DecidableEq, Repr

/-- `struct dm_site`. -/
structure DmSite where
  /-- `site_is_valid`. -/
  siteIsValid : Bool
  /-- `status`. -/
  status : MultiStatus
  /-- `rc`, `eosys`, `acflag` and `tflags`. -/
  stuff : ReplyStuff
  deriving DecidableEq, Repr

/-- `struct dm_multisite`. -/
structure DmMultisite where
  /-- `maxsite`. -/
  maxsite : ℕ
  /-- `dm_sites[]`; entry 0 collects the codes of the others. -/
  dmSites : ℕ → DmSite
  /-- `remain_sites`. -/
  remainSites : ℤ
  /-- `no_response_sites`. -/
  noResponseSites : ℤ
  /-- `next_dest`. -/
  nextDest : ℕ

namespace DmMultisite

/-- Change one entry. -/
def set (l : DmMultisite) (site : ℕ) (p : DmSite) : DmMultisite :=
  { l with dmSites := Function.update l.dmSites site p }

/-- Set the `status` of a site. -/
def setStatus (l : DmMultisite) (site : ℕ) (status : MultiStatus) : DmMultisite :=
  l.set site { l.dmSites site with status }

end DmMultisite

/-- `clusterlist`: the members of the cluster. -/
def clusterlist (member : ℕ → Bool) : DmMultisite where
  maxsite := (List.range' 1 (MAXSITE - 1)).foldl (fun m site => if member site then site else m) 0
  dmSites site := ⟨1 ≤ site ∧ site < MAXSITE ∧ member site, .noresp, ⟨0, 0, 0, 0⟩⟩
  remainSites := 0
  noResponseSites := 0
  nextDest := 0

/-- A using entry with a multisite request, its reply message and its timers. -/
structure MultiEntry where
  /-- The entry holds the request: `U_USED`, and `rid` is its id. -/
  used : Bool
  /-- `U_RETRY_IN_PROGRESS`. -/
  retryInProgress : Bool
  /-- `U_REPLY_IN_PROGRESS`. -/
  replyInProgress : Bool
  /-- `U_REPLY_RCVD`; `call_dm_recv_reply` is to be called again. -/
  replyRcvd : Bool
  /-- `byte_recved`. -/
  byteRecved : ℕ
  /-- The destination list in the buffer of the reply message. -/
  list : DmMultisite
  /-- The header of the reply message. -/
  rep : ReplyStuff
  /-- The request has a data buffer. -/
  bufp : Bool
  /-- `B2_DUXCANTFREE` is set for it. -/
  cantFree : Bool
  /-- `retry_request` is in the callout table. -/
  timer : Bool

/-- A reply packet. -/
structure ReplyPkt where
  /-- `p_byte_no`. -/
  byteNo : ℕ
  /-- The bytes that `dux_copyin` copies. -/
  length : ℕ
  /-- `P_END_OF_MSG`. -/
  endOfMsg : Bool
  /-- The header. -/
  stuff : ReplyStuff
  deriving DecidableEq, Repr

/-! ### `net_request` -/

/-- The locals of the loop of `net_request` over the sites. -/
structure DestScan where
  /-- `dest_list->dm_sites`. -/
  dmSites : ℕ → DmSite
  /-- `dest_count`. -/
  destCount : ℕ
  /-- `first_dest`. -/
  firstDest : Option ℕ

/-- The body of the loop. -/
def DestScan.site (member : ℕ → Bool) (x : DestScan) (site : ℕ) : DestScan :=
  let p := x.dmSites site
  if p.siteIsValid then
    if member site then
      ⟨Function.update x.dmSites site
        { p with status := .noresp, stuff := { p.stuff with rc := DM_CANNOT_DELIVER } },
        x.destCount + 1, x.firstDest.or (some site)⟩
    else ⟨Function.update x.dmSites site { p with siteIsValid := false }, x.destCount, x.firstDest⟩
  else x

/-- The sites before the loop: the caller is taken out, and the codes of site 0 are set. -/
def DmMultisite.prepare (l : DmMultisite) (mySite : ℕ) : ℕ → DmSite :=
  let l1 := l.set mySite { l.dmSites mySite with siteIsValid := false }
  (l1.set 0 { l1.dmSites 0 with stuff := ⟨0, EOSYS_NORMAL, 0, 0⟩ }).dmSites

/-- The part of `net_request` that is about destination lists, with the transmission.  The flag says
that `dm_recv_reply` was called. -/
def netRequest (mySite : ℕ) (member : ℕ → Bool) (l : DmMultisite) (rep : ReplyStuff)
    (bufp : Bool) : MultiEntry × Bool :=
  let x := (List.range' 1 (MAXSITE - 1)).foldl (DestScan.site member) ⟨l.prepare mySite, 0, none⟩
  let e : MultiEntry :=
    { used := true
      retryInProgress := false
      replyInProgress := false
      replyRcvd := false
      byteRecved := 0
      list := { l with
        dmSites := x.dmSites
        remainSites := x.destCount
        noResponseSites := x.destCount
        nextDest := x.firstDest.getD 0 + 1 }
      rep := rep
      bufp := bufp
      cantFree := bufp
      timer := true }
  if x.destCount = 0 then
    -- `protocol_cannot_deliver`
    ({ e with
      used := false
      rep := { rep with rc := 0, eosys := EOSYS_NORMAL, acflag := 0 }
      timer := false }, true)
  else (e, false)

/-! ### The handlers -/

/-- Combine the codes of a reply with those that site 0 has collected. -/
def ReplyStuff.collect (acc r : ReplyStuff) : ReplyStuff where
  rc := if r.rc > acc.rc then r.rc else acc.rc
  eosys := if r.eosys > acc.eosys then r.eosys else acc.eosys
  acflag := acc.acflag ||| r.acflag
  tflags := acc.tflags ||| r.tflags

/-- Record the codes of a reply. -/
def DmMultisite.collect (l : DmMultisite) (site : ℕ) (r : ReplyStuff) : DmMultisite :=
  let l1 := l.set site { l.dmSites site with stuff := r }
  l1.set 0 { l1.dmSites 0 with stuff := (l1.dmSites 0).stuff.collect r }

/-- `free_using_entry`. -/
def MultiEntry.free (e : MultiEntry) : MultiEntry :=
  { e with
    used := false
    retryInProgress := false
    replyInProgress := false
    replyRcvd := false
    byteRecved := 0 }

/-- `call_dm_recv_reply`: whether `dm_recv_reply` is called. -/
def MultiEntry.callDmRecvReply (e : MultiEntry) : MultiEntry × Bool :=
  if e.bufp && e.cantFree then ({ e with replyRcvd := true }, false) else (e.free, true)

/-- The end of `recv_reply` when the last site has replied. -/
def MultiEntry.replyDone (e : MultiEntry) : MultiEntry × Bool :=
  let e := { e with rep := (e.list.dmSites 0).stuff, timer := false }
  if e.replyRcvd then (e, false) else e.callDmRecvReply

/-- `recv_reply` for a packet with the id of the request. -/
def MultiEntry.recvReply (e : MultiEntry) (site : ℕ) (p : ReplyPkt) : MultiEntry × Bool :=
  if !e.used then (e, false)
  else if e.retryInProgress then (e, false)
  else
    let e := { e with replyInProgress := true }
    if p.byteNo = e.byteRecved then
      let e := { e with rep := p.stuff, byteRecved := e.byteRecved + p.length }
      if p.endOfMsg then
        let l := e.list.collect site p.stuff
        if (l.dmSites site).status ≠ .done then
          let l : DmMultisite := { l.setStatus site .done with
            noResponseSites := l.noResponseSites - 1
            remainSites := l.remainSites - 1 }
          let e := { e with list := l, byteRecved := 0 }
          if l.remainSites = 0 then e.replyDone else ({ e with replyInProgress := false }, false)
        else ({ e with list := l, byteRecved := 0, replyInProgress := false }, false)
      else ({ e with replyInProgress := false }, false)
    else ({ e with replyInProgress := false }, false)

/-- `recv_slow_request` for a packet with the id of the request.  The local `stop_retry` is not
set for a site that has sent a notice before; `garbage` is what it holds. -/
def MultiEntry.recvSlowRequest (e : MultiEntry) (site : ℕ) (garbage : Bool) : MultiEntry :=
  if !e.used then e
  else if (e.list.dmSites site).status ≠ .slowop then
    let l := { e.list.setStatus site .slowop with noResponseSites := e.list.noResponseSites - 1 }
    { e with list := l, timer := e.timer && !decide (l.noResponseSites ≤ 0) }
  else { e with timer := e.timer && !garbage }

/-- The part of `clean_u_entry` that records the failure in site 0. -/
def DmMultisite.collectFailure (l : DmMultisite) : DmMultisite :=
  let p := l.dmSites 0
  if p.stuff.rc = 0 then l.set 0 { p with stuff := { p.stuff with rc := DM_CANNOT_DELIVER } } else l

/-- What `clean_u_entry` does to the list when the site that crashed was not done. -/
def DmMultisite.fail (l : DmMultisite) (site : ℕ) : DmMultisite :=
  let p := l.dmSites site
  let l1 := (l.set site
    { p with status := .done, stuff := { p.stuff with rc := DM_CANNOT_DELIVER } }).collectFailure
  { l1 with
    remainSites := l1.remainSites - 1
    noResponseSites := if p.status = .noresp then l1.noResponseSites - 1 else l1.noResponseSites }

/-- `clean_u_entry` for a site that crashed. -/
def MultiEntry.cleanUEntry (e : MultiEntry) (site : ℕ) : MultiEntry × Bool :=
  if !e.used then (e, false)
  else if (e.list.dmSites site).siteIsValid then
    let status := (e.list.dmSites site).status
    if status = .done then (e, false)
    else
      let e := { e with list := e.list.fail site }
      if e.list.remainSites = 0 then
        ({ e with rep := (e.list.dmSites 0).stuff, timer := false }.free, true)
      else
        let stopRetry := status = .noresp ∧ e.list.noResponseSites = 0
        ({ e with timer := e.timer && !decide stopRetry }, false)
  else (e, false)

/-- The loop of `retry_request`: the next site to send to. -/
def DmMultisite.destSite (l : DmMultisite) : ℕ :=
  ((List.range' 1 (MAXSITE - 1)).find? fun site =>
    (l.dmSites site).siteIsValid && decide ((l.dmSites site).status = .noresp)).getD MAXSITE

/-- `retry_request` up to its call of `dux_send`. -/
def MultiEntry.retryRequest (e : MultiEntry) : MultiEntry :=
  let e := { e with timer := false }
  if !e.used then e
  else if e.replyInProgress then { e with timer := true }
  else if e.bufp && e.cantFree then { e with timer := true }
  else if e.list.destSite > e.list.maxsite then e
  else
    { e with
      retryInProgress := true
      list := { e.list with nextDest := e.list.destSite + 1 }
      cantFree := e.bufp }

/-- The end of `dux_send` in `retry_request`. -/
def MultiEntry.retryDone (e : MultiEntry) : MultiEntry :=
  { e with retryInProgress := false, timer := true }

/-! ### One request with its history -/

/-- What became of a site. -/
inductive Outcome
  /-- It replied. -/
  | replied (r : ReplyStuff)
  /-- It crashed. -/
  | failed
  deriving DecidableEq, Repr

/-- Combine the codes of the sites: the highest ones and all the flags; a crash counts when nothing
else has failed before. -/
def Outcome.combine (acc : ReplyStuff) : Outcome → ReplyStuff
  | .replied r => ⟨max acc.rc r.rc, max acc.eosys r.eosys, acc.acflag ||| r.acflag, acc.tflags ||| r.tflags⟩
  | .failed => if acc.rc = 0 then { acc with rc := DM_CANNOT_DELIVER } else acc

/-- The codes of a request by what became of its sites. -/
def combined (l : List (ℕ × Outcome)) : ReplyStuff :=
  l.foldl (fun acc x => x.2.combine acc) ⟨0, EOSYS_NORMAL, 0, 0⟩

/-- The using site during one request, with what has happened to the request. -/
structure MultiRun where
  /-- The using entry. -/
  entry : MultiEntry
  /-- The members of the cluster. -/
  member : ℕ → Bool
  /-- The sites that a reply or a notice came from, or that crashed. -/
  heard : ℕ → Bool
  /-- The sites that replied or crashed, in this order. -/
  outcomes : List (ℕ × Outcome)
  /-- How often `dm_recv_reply` was called. -/
  calls : ℕ

/-- The events. -/
inductive MultiOp
  /-- A reply packet of the site arrives. -/
  | reply (site : ℕ) (p : ReplyPkt)
  /-- A slow-request notice of the site arrives; what the local `stop_retry` happens to hold. -/
  | slow (site : ℕ) (garbage : Bool)
  /-- A site is declared dead. -/
  | declare (site : ℕ)
  /-- The cleanup after a crash gets to the entry. -/
  | cleanup (site : ℕ)
  /-- The retry timer expires. -/
  | retry
  /-- The retransmission was sent. -/
  | retryDone
  /-- The driver is done with the data buffer: `free_dux_bp`. -/
  | freeDuxBp
  /-- `call_dm_recv_reply` is called from the callout table. -/
  | recheck
  deriving DecidableEq, Repr

namespace MultiRun

/-- Remember what became of a site of the list. -/
def settle (s : MultiRun) (site : ℕ) (o : Outcome) : MultiRun :=
  if (s.entry.list.dmSites site).siteIsValid then
    { s with
      heard := Function.update s.heard site true
      outcomes := if site ∈ s.outcomes.map Prod.fst then s.outcomes else s.outcomes ++ [(site, o)] }
  else s

/-- Go on with an entry. -/
def next (s : MultiRun) (x : MultiEntry × Bool) : MultiRun :=
  { s with entry := x.1, calls := if x.2 then s.calls + 1 else s.calls }

/-- One event.  `dux_recv_routines` drops what comes from sites that are no members. -/
def run (s : MultiRun) : MultiOp → MultiRun
  | .reply site p =>
    if s.member site then
      let s' := if s.entry.used && !s.entry.retryInProgress then s.settle site (.replied p.stuff) else s
      s'.next (s.entry.recvReply site p)
    else s
  | .slow site garbage =>
    if s.member site then
      { s with
        entry := s.entry.recvSlowRequest site garbage
        heard := if s.entry.used then Function.update s.heard site true else s.heard }
    else s
  | .declare site => { s with member := Function.update s.member site false }
  | .cleanup site =>
    (if s.entry.used then s.settle site .failed else s).next (s.entry.cleanUEntry site)
  | .retry => { s with entry := s.entry.retryRequest }
  | .retryDone => { s with entry := s.entry.retryDone }
  | .freeDuxBp => { s with entry := { s.entry with cantFree := false } }
  | .recheck => s.next s.entry.callDmRecvReply

/-- When an event can happen.  Replies to multisite requests are quick replies, of one packet, and a
site sends the same reply again and again. -/
def Enabled (s : MultiRun) : MultiOp → Prop
  | .reply site p => p.byteNo = 0 ∧ p.endOfMsg = true ∧
      ∀ r, (site, .replied r) ∈ s.outcomes → p.stuff = r
  | .cleanup site => s.member site = false ∧ s.entry.retryInProgress = false ∧ 1 ≤ site ∧
      site < MAXSITE
  | .retry => s.entry.timer = true
  | .retryDone => s.entry.retryInProgress = true
  | .recheck => s.entry.replyRcvd = true
  | _ => True

/-- The start of a request with the given list. -/
def start (mySite : ℕ) (member : ℕ → Bool) (l : DmMultisite) (rep : ReplyStuff) (bufp : Bool) :
    MultiRun :=
  let x := netRequest mySite member l rep bufp
  ⟨x.1, member, fun _ => false, [], if x.2 then 1 else 0⟩

end MultiRun

/-- One multisite or clustercast request, for a list whose sites are not beyond `maxsite`. -/
def multiSys : Lts MultiRun MultiOp where
  init s := ∃ mySite member l rep bufp, s = .start mySite member l rep bufp ∧ l.maxsite < MAXSITE ∧
    ∀ site < MAXSITE, (l.dmSites site).siteIsValid = true → site ≤ l.maxsite
  step s op s' := s.Enabled op ∧ s' = s.run op

/-- The valid sites of a list. -/
def DmMultisite.valid (l : DmMultisite) : Finset ℕ :=
  (Finset.Ico 1 MAXSITE).filter fun site => (l.dmSites site).siteIsValid = true

/-- The event does no harm: a reply comes from a site of the list that has not sent a slow-request
notice, and, while the request waits for its buffer only, says what is in the reply message; a
notice comes from a site of the list that has not replied, and a repeated one finds `stop_retry`
clear or nothing to stop. -/
def MultiOp.Harmless (s : MultiRun) : MultiOp → Prop
  | .reply site p => s.member site = true → s.entry.used = true → s.entry.retryInProgress = false →
      site ∈ s.entry.list.valid ∧ (s.entry.list.dmSites site).status ≠ .slowop ∧
        (s.entry.replyRcvd = true → p.stuff = s.entry.rep)
  | .slow site garbage => s.member site = true → s.entry.used = true →
      site ∈ s.entry.list.valid ∧ (s.entry.list.dmSites site).status ≠ .done ∧
        ((s.entry.list.dmSites site).status = .slowop → garbage = true → s.entry.timer = true →
          s.entry.list.noResponseSites = 0)
  | _ => True

/-- Every site is accounted for. -/
structure MultiRun.Accounts (s : MultiRun) : Prop where
  /-- `remain_sites` counts the sites that are not done. -/
  remain : s.entry.list.remainSites =
    (s.entry.list.valid.filter fun site => (s.entry.list.dmSites site).status ≠ .done).card
  /-- `no_response_sites` counts the sites that were not heard of. -/
  noResponse : s.entry.list.noResponseSites =
    (s.entry.list.valid.filter fun site => s.heard site = false).card
  /-- The request is sent again while there is one. -/
  retries : s.entry.used = true → s.entry.timer = false → s.entry.retryInProgress = false →
    s.entry.list.noResponseSites = 0
  /-- `dm_recv_reply` is called once, when the entry is freed. -/
  once : s.calls = if s.entry.used then 0 else 1
  /-- The request completes, up to its data buffer, when every site has replied or crashed. -/
  completes : s.entry.used = false ∨ s.entry.replyRcvd = true ↔
    ∀ site ∈ s.entry.list.valid, site ∈ s.outcomes.map Prod.fst
  /-- Its codes are those of all sites. -/
  codes : s.entry.used = false ∨ s.entry.replyRcvd = true →
    s.entry.rep.rc = (combined s.outcomes).rc ∧ s.entry.rep.eosys = (combined s.outcomes).eosys ∧
      s.entry.rep.acflag = (combined s.outcomes).acflag ∧
      (s.outcomes ≠ [] → s.entry.rep.tflags = (combined s.outcomes).tflags)

/-! ### The destination list -/

section

variable {l l' : DmMultisite} {site : ℕ}

theorem mem_valid : site ∈ l.valid ↔
    (1 ≤ site ∧ site < MAXSITE) ∧ (l.dmSites site).siteIsValid = true := by
  rw [DmMultisite.valid, Finset.mem_filter, Finset.mem_Ico]

theorem valid_congr (h : ∀ i, (l'.dmSites i).siteIsValid = (l.dmSites i).siteIsValid) :
    l'.valid = l.valid := by
  ext i
  rw [mem_valid, mem_valid, h]

@[simp] theorem setStatus_siteIsValid (status : MultiStatus) (i : ℕ) :
    ((l.setStatus site status).dmSites i).siteIsValid = (l.dmSites i).siteIsValid := by
  by_cases hi : i = site
  · subst hi
    simp [DmMultisite.setStatus, DmMultisite.set]
  · simp [DmMultisite.setStatus, DmMultisite.set, hi]

@[simp] theorem setStatus_status (status : MultiStatus) (i : ℕ) :
    ((l.setStatus site status).dmSites i).status =
      if i = site then status else (l.dmSites i).status := by
  by_cases hi : i = site
  · subst hi
    simp [DmMultisite.setStatus, DmMultisite.set]
  · simp [DmMultisite.setStatus, DmMultisite.set, hi]

@[simp] theorem setStatus_stuff (status : MultiStatus) (i : ℕ) :
    ((l.setStatus site status).dmSites i).stuff = (l.dmSites i).stuff := by
  by_cases hi : i = site
  · subst hi
    simp [DmMultisite.setStatus, DmMultisite.set]
  · simp [DmMultisite.setStatus, DmMultisite.set, hi]

/-- The codes of some sites change. -/
structure Recoded (l l' : DmMultisite) : Prop where
  siteIsValid : ∀ i, (l'.dmSites i).siteIsValid = (l.dmSites i).siteIsValid
  status : ∀ i, (l'.dmSites i).status = (l.dmSites i).status
  maxsite : l'.maxsite = l.maxsite
  remainSites : l'.remainSites = l.remainSites
  noResponseSites : l'.noResponseSites = l.noResponseSites

theorem Recoded.refl (l : DmMultisite) : Recoded l l := ⟨fun _ => rfl, fun _ => rfl, rfl, rfl, rfl⟩

theorem Recoded.set {r : ReplyStuff} (h : Recoded l l') :
    Recoded l (l'.set site { l'.dmSites site with stuff := r }) := by
  refine ⟨fun i => ?_, fun i => ?_, h.maxsite, h.remainSites, h.noResponseSites⟩
  · rw [← h.siteIsValid]
    by_cases hi : i = site
    · subst hi
      simp [DmMultisite.set]
    · simp [DmMultisite.set, hi]
  · rw [← h.status]
    by_cases hi : i = site
    · subst hi
      simp [DmMultisite.set]
    · simp [DmMultisite.set, hi]

theorem recoded_collect (r : ReplyStuff) : Recoded l (l.collect site r) := (Recoded.refl l).set.set

theorem recoded_collectFailure (l : DmMultisite) : Recoded l l.collectFailure := by
  unfold DmMultisite.collectFailure
  simp only
  split_ifs
  · exact (Recoded.refl l).set
  · exact .refl l

theorem fail_siteIsValid (i : ℕ) :
    ((l.fail site).dmSites i).siteIsValid = (l.dmSites i).siteIsValid := by
  refine ((recoded_collectFailure _).siteIsValid i).trans ?_
  by_cases hi : i = site
  · subst hi
    simp [DmMultisite.set]
  · simp [DmMultisite.set, hi]

theorem fail_status (i : ℕ) : ((l.fail site).dmSites i).status =
    if i = site then .done else (l.dmSites i).status := by
  refine ((recoded_collectFailure _).status i).trans ?_
  by_cases hi : i = site
  · subst hi
    simp [DmMultisite.set]
  · simp [DmMultisite.set, hi]

theorem fail_remainSites : (l.fail site).remainSites = l.remainSites - 1 :=
  congrArg (· - 1) (recoded_collectFailure _).remainSites

theorem fail_noResponseSites : (l.fail site).noResponseSites =
    if (l.dmSites site).status = .noresp then l.noResponseSites - 1 else l.noResponseSites := by
  have h := (recoded_collectFailure (l.set site { l.dmSites site with
    status := .done, stuff := { (l.dmSites site).stuff with rc := DM_CANNOT_DELIVER } })).noResponseSites
  unfold DmMultisite.fail
  simp only [h]
  rfl

theorem collect_stuff (hsite : site ≠ 0) (r : ReplyStuff) :
    ((l.collect site r).dmSites 0).stuff = (l.dmSites 0).stuff.collect r := by
  simp [DmMultisite.collect, DmMultisite.set, update_of_ne (Ne.symm hsite)]

end

/-! ### Combined codes -/

theorem combine_replied (acc r : ReplyStuff) : (Outcome.replied r).combine acc =
    ⟨max acc.rc r.rc, max acc.eosys r.eosys, acc.acflag ||| r.acflag, acc.tflags ||| r.tflags⟩ := rfl

theorem combine_failed (acc : ReplyStuff) :
    Outcome.failed.combine acc = if acc.rc = 0 then { acc with rc := DM_CANNOT_DELIVER } else acc := rfl

theorem fail_stuff {l : DmMultisite} {site : ℕ} (hsite : site ≠ 0) :
    ((l.fail site).dmSites 0).stuff = Outcome.failed.combine (l.dmSites 0).stuff := by
  have hzero : ((l.set site { l.dmSites site with
      status := .done, stuff := { (l.dmSites site).stuff with rc := DM_CANNOT_DELIVER } }).dmSites 0).stuff =
      (l.dmSites 0).stuff := by
    simp [DmMultisite.set, update_of_ne (Ne.symm hsite)]
  unfold DmMultisite.fail DmMultisite.collectFailure
  simp only [hzero, combine_failed]
  split_ifs
  · simp [DmMultisite.set, update_of_ne (Ne.symm hsite)]
  · exact hzero

/-- The codes of a reply are in the combined ones. -/
structure Covers (acc r : ReplyStuff) : Prop where
  rc : r.rc ≤ acc.rc
  eosys : r.eosys ≤ acc.eosys
  acflag : acc.acflag ||| r.acflag = acc.acflag
  tflags : acc.tflags ||| r.tflags = acc.tflags

theorem collect_eq_combine (acc r : ReplyStuff) : acc.collect r = (Outcome.replied r).combine acc := by
  simp only [ReplyStuff.collect, combine_replied, ReplyStuff.mk.injEq, and_true]
  constructor
  · split_ifs <;> omega
  · split_ifs <;> omega

theorem Covers.collect {acc r : ReplyStuff} (h : Covers acc r) : acc.collect r = acc := by
  obtain ⟨rc, eosys, acflag, tflags⟩ := acc
  rw [collect_eq_combine, combine_replied, ReplyStuff.mk.injEq]
  exact ⟨max_eq_left h.rc, max_eq_left h.eosys, h.acflag, h.tflags⟩

theorem covers_combine (acc r : ReplyStuff) : Covers ((Outcome.replied r).combine acc) r :=
  ⟨le_max_right _ _, le_max_right _ _, by rw [combine_replied, Nat.or_assoc, Nat.or_self],
    by rw [combine_replied, Nat.or_assoc, Nat.or_self]⟩

theorem Covers.combine {acc r : ReplyStuff} (h : Covers acc r) (o : Outcome) :
    Covers (o.combine acc) r := by
  cases o with
  | replied r' =>
    refine ⟨h.rc.trans (le_max_left _ _), h.eosys.trans (le_max_left _ _), ?_, ?_⟩
    · rw [combine_replied, Nat.or_assoc, Nat.or_comm r'.acflag, ← Nat.or_assoc, h.acflag]
    · rw [combine_replied, Nat.or_assoc, Nat.or_comm r'.tflags, ← Nat.or_assoc, h.tflags]
  | failed =>
    rw [combine_failed]
    split_ifs with h0
    · have hrc : r.rc = 0 := Nat.le_zero.1 (h0 ▸ h.rc)
      exact ⟨hrc ▸ Nat.zero_le _, h.eosys, h.acflag, h.tflags⟩
    · exact h

theorem combined_append (l : List (ℕ × Outcome)) (site : ℕ) (o : Outcome) :
    combined (l ++ [(site, o)]) = o.combine (combined l) := by
  simp [combined]

theorem covers_combined {l : List (ℕ × Outcome)} {site : ℕ} {r : ReplyStuff}
    (h : (site, .replied r) ∈ l) : Covers (combined l) r := by
  induction l using List.reverseRecOn with
  | nil => cases h
  | append_singleton l x ih =>
    obtain ⟨site', o⟩ := x
    rw [combined_append]
    rcases mem_append.1 h with h | h
    · exact (ih h).combine o
    · rw [mem_singleton, Prod.mk.injEq] at h
      obtain ⟨-, rfl⟩ := h
      exact covers_combine _ _

/-! ### The counters -/

/-- The list says of every valid site what happened to it, and counts right. -/
structure Books (l : DmMultisite) (heard : ℕ → Bool) (outcomes : List (ℕ × Outcome))
    (member : ℕ → Bool) : Prop where
  done : ∀ site ∈ l.valid, (l.dmSites site).status = .done ↔ site ∈ outcomes.map Prod.fst
  heard : ∀ site ∈ l.valid, heard site = false ↔ (l.dmSites site).status = .noresp
  remain : l.remainSites = (l.valid.filter fun site => (l.dmSites site).status ≠ .done).card
  silent : l.noResponseSites = (l.valid.filter fun site => (l.dmSites site).status = .noresp).card
  stuff : (l.dmSites 0).stuff = combined outcomes
  failed : ∀ site, (site, .failed) ∈ outcomes → member site = false

section

variable {l l' : DmMultisite} {heard : ℕ → Bool} {outcomes : List (ℕ × Outcome)} {member : ℕ → Bool}
  {site : ℕ}

theorem Books.remain_pos (h : Books l heard outcomes member) (hsite : site ∈ l.valid)
    (hstatus : (l.dmSites site).status ≠ .done) : 0 < l.remainSites := by
  rw [h.remain]
  exact Int.natCast_pos.2 (Finset.card_pos.2 ⟨site, Finset.mem_filter.2 ⟨hsite, hstatus⟩⟩)

theorem Books.remain_nonneg (h : Books l heard outcomes member) : 0 ≤ l.remainSites := by
  rw [h.remain]
  exact Int.natCast_nonneg _

theorem Books.silent_le (h : Books l heard outcomes member) :
    0 ≤ l.noResponseSites ∧ l.noResponseSites ≤ l.remainSites := by
  rw [h.silent, h.remain]
  refine ⟨Int.natCast_nonneg _, Int.ofNat_le.2 (Finset.card_le_card fun i hi => ?_)⟩
  rw [Finset.mem_filter] at hi ⊢
  exact ⟨hi.1, by rw [hi.2]; nofun⟩

/-- A site that was not done settles. -/
theorem Books.settle (h : Books l heard outcomes member) (hsite : site ∈ l.valid)
    (hstatus : (l.dmSites site).status ≠ .done) {o : Outcome} (ho : o = .failed → member site = false)
    (hvalid : ∀ i, (l'.dmSites i).siteIsValid = (l.dmSites i).siteIsValid)
    (hstat : ∀ i, (l'.dmSites i).status = if i = site then .done else (l.dmSites i).status)
    (hremain : l'.remainSites = l.remainSites - 1) (hsilent : l'.noResponseSites =
      if (l.dmSites site).status = .noresp then l.noResponseSites - 1 else l.noResponseSites)
    (hstuff : (l'.dmSites 0).stuff = o.combine (l.dmSites 0).stuff) :
    Books l' (Function.update heard site true) (outcomes ++ [(site, o)]) member := by
  have hval := valid_congr hvalid
  have hother : ∀ i, i ≠ site → (l'.dmSites i).status = (l.dmSites i).status :=
    fun i hi => by rw [hstat, if_neg hi]
  have hself : (l'.dmSites site).status = .done := by rw [hstat, if_pos rfl]
  refine ⟨fun i hi => ?_, fun i hi => ?_, ?_, ?_, ?_, fun i hi => ?_⟩
  · rw [map_append, mem_append]
    by_cases his : i = site
    · subst his
      simp [hself]
    · rw [hother i his, h.done i (hval ▸ hi)]
      simp [his]
  · by_cases his : i = site
    · subst his
      simp [hself]
    · rw [hother i his, update_of_ne his]
      exact h.heard i (hval ▸ hi)
  · rw [hremain, h.remain, hval]
    have := card_filter_lose (p := fun i => (l.dmSites i).status ≠ .done)
      (q := fun i => (l'.dmSites i).status ≠ .done) hsite hstatus (by simp [hself])
      (fun i _ hi => by simp only [hother i hi])
    omega
  · rw [hsilent, h.silent, hval]
    split_ifs with hno
    · have := card_filter_lose (p := fun i => (l.dmSites i).status = .noresp)
        (q := fun i => (l'.dmSites i).status = .noresp) hsite hno (by simp [hself])
        (fun i _ hi => by simp only [hother i hi])
      omega
    · rw [card_filter_keep (p := fun i => (l.dmSites i).status = .noresp)
        (q := fun i => (l'.dmSites i).status = .noresp)]
      intro i _
      by_cases his : i = site
      · subst his
        simp [hself, hno]
      · rw [hother i his]
  · rw [hstuff, h.stuff, combined_append]
  · rcases mem_append.1 hi with hi | hi
    · exact h.failed i hi
    · rw [mem_singleton, Prod.mk.injEq] at hi
      obtain ⟨rfl, rfl⟩ := hi
      exact ho rfl

/-- A slow-request notice of a site that was not heard of. -/
theorem Books.slow (h : Books l heard outcomes member) (hsite : site ∈ l.valid)
    (hstatus : (l.dmSites site).status = .noresp)
    (hvalid : ∀ i, (l'.dmSites i).siteIsValid = (l.dmSites i).siteIsValid)
    (hstat : ∀ i, (l'.dmSites i).status = if i = site then .slowop else (l.dmSites i).status)
    (hremain : l'.remainSites = l.remainSites) (hsilent : l'.noResponseSites = l.noResponseSites - 1)
    (hstuff : (l'.dmSites 0).stuff = (l.dmSites 0).stuff) :
    Books l' (Function.update heard site true) outcomes member := by
  have hval := valid_congr hvalid
  have hother : ∀ i, i ≠ site → (l'.dmSites i).status = (l.dmSites i).status :=
    fun i hi => by rw [hstat, if_neg hi]
  have hself : (l'.dmSites site).status = .slowop := by rw [hstat, if_pos rfl]
  have hdone : ∀ i, (l'.dmSites i).status = .done ↔ (l.dmSites i).status = .done := by
    intro i
    by_cases his : i = site
    · subst his
      simp [hself, hstatus]
    · rw [hother i his]
  refine ⟨fun i hi => ?_, fun i hi => ?_, ?_, ?_, hstuff.trans h.stuff, h.failed⟩
  · rw [hdone]
    exact h.done i (hval ▸ hi)
  · by_cases his : i = site
    · subst his
      simp [hself]
    · rw [hother i his, update_of_ne his]
      exact h.heard i (hval ▸ hi)
  · simp only [hremain, h.remain, hval, ne_eq, hdone]
  · rw [hsilent, h.silent, hval]
    have := card_filter_lose (p := fun i => (l.dmSites i).status = .noresp)
      (q := fun i => (l'.dmSites i).status = .noresp) hsite hstatus (by simp [hself])
      (fun i _ hi => by simp only [hother i hi])
    omega

/-- A reply that comes again. -/
theorem Books.again (h : Books l heard outcomes member) (hsite : site ≠ 0) {r : ReplyStuff}
    (hr : (site, .replied r) ∈ outcomes) : Books (l.collect site r) heard outcomes member := by
  obtain ⟨hvalid, hstatus, -, hremain, hsilent⟩ := (recoded_collect r : Recoded l (l.collect site r))
  have hval := valid_congr hvalid
  refine ⟨fun i hi => ?_, fun i hi => ?_, ?_, ?_, ?_, h.failed⟩
  · rw [hstatus]
    exact h.done i (hval ▸ hi)
  · rw [hstatus]
    exact h.heard i (hval ▸ hi)
  · simp only [hremain, h.remain, hval, hstatus]
  · simp only [hsilent, h.silent, hval, hstatus]
  · rw [collect_stuff hsite, h.stuff, (covers_combined hr).collect]

end

/-! ### Runs -/

/-- The reply message holds the combined codes. -/
structure MultiRun.Answered (rep : ReplyStuff) (outcomes : List (ℕ × Outcome)) : Prop where
  rc : rep.rc = (combined outcomes).rc
  eosys : rep.eosys = (combined outcomes).eosys
  acflag : rep.acflag = (combined outcomes).acflag
  tflags : outcomes ≠ [] → rep.tflags = (combined outcomes).tflags

/-- The invariant of a request. -/
structure MultiRun.Inv (s : MultiRun) : Prop
    extends Books s.entry.list s.heard s.outcomes s.member where
  unfinished : s.entry.used = true → s.entry.replyRcvd = false → 0 < s.entry.list.remainSites
  finished : s.entry.used = false ∨ s.entry.replyRcvd = true → s.entry.list.remainSites = 0
  rcvd : s.entry.replyRcvd = true → s.entry.used = true
  timer : s.entry.used = true → s.entry.timer = false → s.entry.retryInProgress = false →
    s.entry.list.noResponseSites = 0
  retrying : s.entry.retryInProgress = true → s.entry.used = true ∧ s.entry.replyRcvd = false
  bytes : s.entry.used = true → s.entry.byteRecved = 0
  replying : s.entry.used = true → s.entry.replyInProgress = true → s.entry.replyRcvd = true
  calls : s.calls = if s.entry.used then 0 else 1
  rep : s.entry.used = false ∨ s.entry.replyRcvd = true → Answered s.entry.rep s.outcomes
  maxsite_lt : s.entry.list.maxsite < MAXSITE
  le_maxsite : ∀ site ∈ s.entry.list.valid, site ≤ s.entry.list.maxsite

namespace MultiRun

variable {s : MultiRun} {site : ℕ}

theorem Inv.accounts (h : s.Inv) : s.Accounts where
  remain := h.remain
  noResponse := by
    rw [h.silent, card_filter_keep (p := fun site => s.heard site = false)
      (q := fun site => (s.entry.list.dmSites site).status = .noresp)]
    exact fun site hsite => (h.heard site hsite).symm
  retries := h.timer
  once := h.calls
  completes := by
    have hzero : s.entry.list.remainSites = 0 ↔
        ∀ site ∈ s.entry.list.valid, site ∈ s.outcomes.map Prod.fst := by
      rw [h.remain, Int.natCast_eq_zero, Finset.card_eq_zero, Finset.filter_eq_empty_iff]
      refine forall₂_congr fun site hsite => ?_
      rw [not_not, h.done site hsite]
    rw [← hzero]
    refine ⟨h.finished, fun h0 => ?_⟩
    by_contra hne
    rw [not_or, Bool.not_eq_false, Bool.not_eq_true] at hne
    have := h.unfinished hne.1 hne.2
    omega
  codes hf := ⟨(h.rep hf).rc, (h.rep hf).eosys, (h.rep hf).acflag, (h.rep hf).tflags⟩

/-- The last site has settled: the entry is freed and `dm_recv_reply` called, or that waits for the
data buffer. -/
theorem inv_done {e : MultiEntry} {heard : ℕ → Bool} {outcomes : List (ℕ × Outcome)}
    {member : ℕ → Bool} {calls : ℕ} (hbooks : Books e.list heard outcomes member)
    (hused : e.used = true) (hretry : e.retryInProgress = false) (hbytes : e.byteRecved = 0)
    (hzero : e.list.remainSites = 0) (hcalls : calls = 0) (hrep : Answered e.rep outcomes)
    (hlt : e.list.maxsite < MAXSITE) (hle : ∀ site ∈ e.list.valid, site ≤ e.list.maxsite)
    (hsilent : e.list.noResponseSites = 0) :
    (next ⟨e, member, heard, outcomes, calls⟩ e.callDmRecvReply).Inv := by
  unfold MultiEntry.callDmRecvReply
  by_cases hbuf : (e.bufp && e.cantFree) = true
  · rw [if_pos hbuf]
    exact
      { toBooks := hbooks
        unfinished := fun _ h => by cases h
        finished := fun _ => hzero
        rcvd := fun _ => hused
        timer := fun _ _ _ => hsilent
        retrying := fun h => by simp only [next, hretry, Bool.false_eq_true] at h
        bytes := fun _ => hbytes
        replying := fun _ _ => rfl
        calls := by simp [next, hused, hcalls]
        rep := fun _ => hrep
        maxsite_lt := hlt
        le_maxsite := hle }
  · rw [if_neg hbuf]
    exact
      { toBooks := hbooks
        unfinished := fun h => by cases h
        finished := fun _ => hzero
        rcvd := fun h => by cases h
        timer := fun h => by cases h
        retrying := fun h => by cases h
        bytes := fun h => by cases h
        replying := fun h => by cases h
        calls := by simp [next, MultiEntry.free, hcalls]
        rep := fun _ => hrep
        maxsite_lt := hlt
        le_maxsite := hle }

theorem update_true {f : ℕ → Bool} (h : f site = true) : Function.update f site true = f := by
  rw [← h, update_eq_self]

variable {l : DmMultisite}

theorem Inv.sites (h : s.Inv)
    (hvalid : ∀ i, (l.dmSites i).siteIsValid = (s.entry.list.dmSites i).siteIsValid)
    (hmax : l.maxsite = s.entry.list.maxsite) :
    l.maxsite < MAXSITE ∧ ∀ site ∈ l.valid, site ≤ l.maxsite := by
  rw [hmax, valid_congr hvalid]
  exact ⟨h.maxsite_lt, h.le_maxsite⟩

/-- A reply that is not dropped. -/
theorem Inv.recvReply (h : s.Inv) {p : ReplyPkt} (hused : s.entry.used = true)
    (hretry : s.entry.retryInProgress = false) (hbyte : p.byteNo = 0) (hend : p.endOfMsg = true)
    (hsame : ∀ r, (site, .replied r) ∈ s.outcomes → p.stuff = r) (hmem : s.member site = true)
    (hsite : site ∈ s.entry.list.valid) (hslow : (s.entry.list.dmSites site).status ≠ .slowop)
    (hrcvd : s.entry.replyRcvd = true → p.stuff = s.entry.rep) :
    ((s.settle site (.replied p.stuff)).next (s.entry.recvReply site p)).Inv := by
  obtain ⟨⟨hone, hlt⟩, hval⟩ := mem_valid.1 hsite
  have hne : site ≠ 0 := by omega
  obtain ⟨hcvalid, hcstatus, hcmax, hcremain, hcsilent⟩ :=
    (recoded_collect p.stuff : Recoded s.entry.list (s.entry.list.collect site p.stuff))
  have hcalls : s.calls = 0 := by rw [h.calls, hused]; rfl
  unfold MultiEntry.recvReply settle
  rw [hused, hretry, if_pos hval]
  simp only [Bool.not_true, Bool.false_eq_true, if_false, hbyte, h.bytes hused, if_true, hend,
    hcstatus]
  by_cases hdone : (s.entry.list.dmSites site).status = .done
  · -- the reply has come before
    have hin := (h.done site hsite).1 hdone
    obtain ⟨o, hio⟩ : ∃ o, (site, o) ∈ s.outcomes := by
      obtain ⟨x, hx, hfst⟩ := mem_map.1 hin
      exact ⟨x.2, hfst ▸ hx⟩
    have hro : o = .replied p.stuff := by
      cases o with
      | replied r => rw [hsame r hio]
      | failed =>
        have := h.failed site hio
        rw [hmem] at this
        cases this
    subst hro
    have hbooks := h.toBooks.again hne hio
    have hsites := h.sites hcvalid hcmax
    have hh : s.heard site = true := by
      rw [← Bool.not_eq_false, h.heard site hsite, hdone]
      nofun
    rw [if_pos hin, if_neg (not_not.2 hdone), update_true hh]
    exact
      { toBooks := hbooks
        unfinished := fun _ hr => hcremain.symm ▸ h.unfinished hused hr
        finished := fun hf => hf.elim nofun fun hr => hcremain.trans (h.finished (.inr hr))
        rcvd := fun _ => rfl
        timer := fun _ ht _ => hcsilent.trans (h.timer hused ht hretry)
        retrying := nofun
        bytes := fun _ => rfl
        replying := nofun
        calls := hcalls
        rep := fun hf => hf.elim nofun fun hr => hrcvd hr ▸ h.rep (.inr hr)
        maxsite_lt := hsites.1
        le_maxsite := hsites.2 }
  · have hno : (s.entry.list.dmSites site).status = .noresp := by
      cases hst : (s.entry.list.dmSites site).status with
      | noresp => rfl
      | slowop => exact absurd hst hslow
      | done => exact absurd hst hdone
    have hnot : site ∉ s.outcomes.map Prod.fst := fun hin => hdone ((h.done site hsite).2 hin)
    rw [if_neg hnot, if_pos hdone]
    have hbooks : Books { (s.entry.list.collect site p.stuff).setStatus site .done with
          remainSites := (s.entry.list.collect site p.stuff).remainSites - 1
          noResponseSites := (s.entry.list.collect site p.stuff).noResponseSites - 1 }
        (Function.update s.heard site true) (s.outcomes ++ [(site, Outcome.replied p.stuff)]) s.member := by
      refine h.toBooks.settle hsite hdone (fun h => by cases h) (fun i => ?_) (fun i => ?_) ?_ ?_ ?_
      · exact (setStatus_siteIsValid _ i).trans (hcvalid i)
      · rw [← hcstatus i]
        exact setStatus_status _ i
      · exact congrArg (· - 1) hcremain
      · rw [if_pos hno]
        exact congrArg (· - 1) hcsilent
      · rw [← collect_eq_combine, ← collect_stuff hne]
        exact setStatus_stuff _ 0
    have hsites := h.sites (l := (s.entry.list.collect site p.stuff).setStatus site .done)
      (fun i => (setStatus_siteIsValid _ i).trans (hcvalid i)) hcmax
    have hrcvd' : s.entry.replyRcvd = false := by
      rw [← Bool.not_eq_true]
      intro hr
      have := h.remain_pos hsite hdone
      have := h.finished (.inr hr)
      omega
    by_cases hzero : (s.entry.list.collect site p.stuff).remainSites - 1 = 0
    · rw [if_pos hzero]
      unfold MultiEntry.replyDone
      simp only [hrcvd', Bool.false_eq_true, if_false]
      have hsilent := hbooks.silent_le
      refine inv_done hbooks rfl rfl rfl hzero hcalls ?_ hsites.1 hsites.2 ?_
      · have hstuff := hbooks.stuff
        exact ⟨congrArg _ hstuff, congrArg _ hstuff, congrArg _ hstuff, fun _ => congrArg _ hstuff⟩
      · simp only at hsilent ⊢
        omega
    · rw [if_neg hzero]
      have hpos := hbooks.remain_nonneg
      exact
        { toBooks := hbooks
          unfinished := fun _ _ => lt_of_le_of_ne hpos (Ne.symm hzero)
          finished := fun hf => hf.elim nofun fun hr => by cases hrcvd'.symm.trans hr
          rcvd := fun _ => rfl
          timer := fun _ ht _ => by
            have := h.timer hused ht hretry
            have := hbooks.silent_le
            simp only [hcsilent] at this
            omega
          retrying := nofun
          bytes := fun _ => rfl
          replying := nofun
          calls := hcalls
          rep := fun hf => hf.elim nofun fun hr => by cases hrcvd'.symm.trans hr
          maxsite_lt := hsites.1
          le_maxsite := hsites.2 }

/-- A slow-request notice. -/
theorem Inv.recvSlowRequest (h : s.Inv) {garbage : Bool} (hused : s.entry.used = true)
    (hsite : site ∈ s.entry.list.valid) (hstatus : (s.entry.list.dmSites site).status ≠ .done)
    (hgarbage : (s.entry.list.dmSites site).status = .slowop → garbage = true →
      s.entry.timer = true → s.entry.list.noResponseSites = 0) :
    MultiRun.Inv { s with
      entry := s.entry.recvSlowRequest site garbage
      heard := Function.update s.heard site true } := by
  have hrcvd : s.entry.replyRcvd = false := by
    rw [← Bool.not_eq_true]
    intro hr
    have := h.remain_pos hsite hstatus
    have := h.finished (.inr hr)
    omega
  have hcalls : s.calls = 0 := by rw [h.calls, hused]; rfl
  unfold MultiEntry.recvSlowRequest
  simp only [hused, Bool.not_true, Bool.false_eq_true, if_false]
  by_cases hslow : (s.entry.list.dmSites site).status = .slowop
  · -- the notice has come before
    have hh : s.heard site = true := by
      rw [← Bool.not_eq_false, h.heard site hsite, hslow]
      nofun
    rw [if_neg (not_not.2 hslow), update_true hh]
    exact
      { toBooks := h.toBooks
        unfinished := fun _ hr => h.unfinished hused hr
        finished := fun hf => hf.elim nofun fun hr => h.finished (.inr hr)
        rcvd := fun _ => rfl
        timer := fun _ ht hretry => by
          cases htimer : s.entry.timer with
          | false => exact h.timer hused htimer hretry
          | true =>
            have hg : garbage = true := by simpa [htimer] using ht
            exact hgarbage hslow hg htimer
        retrying := fun hr => ⟨rfl, hrcvd⟩
        bytes := fun _ => h.bytes hused
        replying := fun _ hr => h.replying hused hr
        calls := hcalls
        rep := fun hf => hf.elim nofun fun hr => h.rep (.inr hr)
        maxsite_lt := h.maxsite_lt
        le_maxsite := h.le_maxsite }
  · have hno : (s.entry.list.dmSites site).status = .noresp := by
      cases hst : (s.entry.list.dmSites site).status with
      | noresp => rfl
      | slowop => exact absurd hst hslow
      | done => exact absurd hst hstatus
    rw [if_pos hslow]
    have hbooks : Books { s.entry.list.setStatus site .slowop with
          noResponseSites := s.entry.list.noResponseSites - 1 }
        (Function.update s.heard site true) s.outcomes s.member :=
      h.toBooks.slow hsite hno (fun i => setStatus_siteIsValid _ i) (fun i => setStatus_status _ i)
        rfl rfl (setStatus_stuff _ 0)
    have hsites := h.sites (l := s.entry.list.setStatus site .slowop)
      (fun i => setStatus_siteIsValid _ i) rfl
    exact
      { toBooks := hbooks
        unfinished := fun _ hr => h.unfinished hused hr
        finished := fun hf => hf.elim nofun fun hr => h.finished (.inr hr)
        rcvd := fun _ => rfl
        timer := fun _ ht hretry => by
          have hsilent := hbooks.silent_le.1
          cases htimer : s.entry.timer with
          | false =>
            have := h.timer hused htimer hretry
            simp only at hsilent ⊢
            omega
          | true =>
            have hle : s.entry.list.noResponseSites - 1 ≤ 0 := by simpa [htimer] using ht
            exact le_antisymm hle hsilent
        retrying := fun hr => ⟨rfl, hrcvd⟩
        bytes := fun _ => h.bytes hused
        replying := fun _ hr => h.replying hused hr
        calls := hcalls
        rep := fun hf => hf.elim nofun fun hr => h.rep (.inr hr)
        maxsite_lt := hsites.1
        le_maxsite := hsites.2 }

/-- The cleanup after a crash. -/
theorem Inv.cleanUEntry (h : s.Inv) (hused : s.entry.used = true)
    (hretry : s.entry.retryInProgress = false) (hmem : s.member site = false) (hin : 1 ≤ site ∧ site < MAXSITE) :
    ((s.settle site .failed).next (s.entry.cleanUEntry site)).Inv := by
  have hcalls : s.calls = 0 := by rw [h.calls, hused]; rfl
  unfold MultiEntry.cleanUEntry settle
  simp only [hused, Bool.not_true, Bool.false_eq_true, if_false]
  by_cases hval : (s.entry.list.dmSites site).siteIsValid = true
  · rw [if_pos hval, if_pos hval]
    have hsite : site ∈ s.entry.list.valid := mem_valid.2 ⟨hin, hval⟩
    by_cases hdone : (s.entry.list.dmSites site).status = .done
    · have hmem := (h.done site hsite).1 hdone
      have hh : s.heard site = true := by
        rw [← Bool.not_eq_false, h.heard site hsite, hdone]
        nofun
      rw [if_pos hmem, if_pos hdone, update_true hh]
      exact h
    · have hnot : site ∉ s.outcomes.map Prod.fst := fun hin => hdone ((h.done site hsite).2 hin)
      rw [if_neg hnot, if_neg hdone]
      have hbooks : Books (s.entry.list.fail site) (Function.update s.heard site true)
          (s.outcomes ++ [(site, Outcome.failed)]) s.member :=
        h.toBooks.settle hsite hdone (fun _ => hmem) fail_siteIsValid fail_status fail_remainSites
          fail_noResponseSites (fail_stuff (by omega))
      have hsites := h.sites (l := s.entry.list.fail site) fail_siteIsValid
        (recoded_collectFailure _).maxsite
      have hrcvd : s.entry.replyRcvd = false := by
        rw [← Bool.not_eq_true]
        intro hr
        have := h.remain_pos hsite hdone
        have := h.finished (.inr hr)
        omega
      by_cases hzero : (s.entry.list.fail site).remainSites = 0
      · rw [if_pos hzero]
        have hstuff := hbooks.stuff
        exact
          { toBooks := hbooks
            unfinished := nofun
            finished := fun _ => hzero
            rcvd := nofun
            timer := nofun
            retrying := nofun
            bytes := nofun
            replying := nofun
            calls := by simp [next, MultiEntry.free, hcalls]
            rep := fun _ => ⟨congrArg _ hstuff, congrArg _ hstuff, congrArg _ hstuff,
              fun _ => congrArg _ hstuff⟩
            maxsite_lt := hsites.1
            le_maxsite := hsites.2 }
      · rw [if_neg hzero]
        have hpos := hbooks.remain_nonneg
        exact
          { toBooks := hbooks
            unfinished := fun _ _ => lt_of_le_of_ne hpos (Ne.symm hzero)
            finished := fun hf => hf.elim nofun fun hr => by cases hrcvd.symm.trans hr
            rcvd := fun hr => by cases hrcvd.symm.trans hr
            timer := fun _ ht _ => by
              cases htimer : s.entry.timer with
              | false =>
                have := h.timer hused htimer hretry
                have := hbooks.silent_le.1
                show (s.entry.list.fail site).noResponseSites = 0
                rw [fail_noResponseSites] at this ⊢
                split_ifs at this ⊢ <;> omega
              | true =>
                have hstop : (s.entry.list.dmSites site).status = .noresp ∧
                    (s.entry.list.fail site).noResponseSites = 0 := by
                  simpa [next, htimer] using ht
                exact hstop.2
            retrying := fun hr => by cases hretry.symm.trans hr
            bytes := fun _ => h.bytes hused
            replying := fun _ hr => h.replying hused hr
            calls := hcalls
            rep := fun hf => hf.elim nofun fun hr => by cases hrcvd.symm.trans hr
            maxsite_lt := hsites.1
            le_maxsite := hsites.2 }
  · rw [if_neg hval, if_neg hval]
    exact h

/-- The site that is found was not heard of. -/
theorem destSite_spec (h : l.destSite < MAXSITE) :
    l.destSite ∈ l.valid ∧ (l.dmSites l.destSite).status = .noresp := by
  unfold DmMultisite.destSite at h ⊢
  cases hfind : (List.range' 1 (MAXSITE - 1)).find? fun site =>
      (l.dmSites site).siteIsValid && decide ((l.dmSites site).status = .noresp) with
  | none =>
    rw [hfind] at h
    exact absurd h (lt_irrefl _)
  | some i =>
    have hmem := mem_range'_1.1 (mem_of_find?_eq_some hfind)
    have hok := find?_some hfind
    rw [Bool.and_eq_true, decide_eq_true_eq] at hok
    rw [MAXSITE] at hmem
    exact ⟨mem_valid.2 ⟨⟨hmem.1, by rw [MAXSITE]; simp only [Option.getD_some]; omega⟩, hok.1⟩, hok.2⟩

/-- A site that was not heard of is found when there is one. -/
theorem destSite_lt (hsite : site ∈ l.valid)
    (hstatus : (l.dmSites site).status = .noresp) : l.destSite < MAXSITE := by
  obtain ⟨⟨h1, h2⟩, hval⟩ := mem_valid.1 hsite
  rw [MAXSITE] at h2
  unfold DmMultisite.destSite
  cases hfind : (List.range' 1 (MAXSITE - 1)).find? fun site =>
      (l.dmSites site).siteIsValid && decide ((l.dmSites site).status = .noresp) with
  | none =>
    have := find?_eq_none.1 hfind site (mem_range'_1.2 ⟨h1, by rw [MAXSITE]; omega⟩)
    simp [hval, hstatus] at this
  | some i =>
    have hmem := mem_range'_1.1 (mem_of_find?_eq_some hfind)
    rw [MAXSITE] at hmem ⊢
    simp only [Option.getD_some]
    omega

/-- The retry timer. -/
theorem Inv.retryRequest (h : s.Inv) : MultiRun.Inv { s with entry := s.entry.retryRequest } := by
  unfold MultiEntry.retryRequest
  simp only
  by_cases hused : s.entry.used = true
  · rw [if_neg (by simp [hused])]
    by_cases hreply : s.entry.replyInProgress = true
    · rw [if_pos hreply]
      exact { h with timer := fun _ ht _ => by cases ht }
    rw [if_neg hreply]
    by_cases hbuf : (s.entry.bufp && s.entry.cantFree) = true
    · rw [if_pos hbuf]
      exact { h with timer := fun _ ht _ => by cases ht }
    rw [if_neg hbuf]
    by_cases hdest : s.entry.list.destSite > s.entry.list.maxsite
    · -- nobody is left to send to
      rw [if_pos hdest]
      refine { h with timer := fun _ _ _ => ?_ }
      show s.entry.list.noResponseSites = 0
      rw [h.silent, Int.natCast_eq_zero, Finset.card_eq_zero, Finset.filter_eq_empty_iff]
      intro site hsite hno
      have := h.le_maxsite _ (destSite_spec (destSite_lt hsite hno)).1
      omega
    · rw [if_neg hdest]
      have hrcvd : s.entry.replyRcvd = false := by
        rw [← Bool.not_eq_true]
        intro hr
        have hlt := h.maxsite_lt
        obtain ⟨hsite, hno⟩ := destSite_spec (l := s.entry.list) (by omega)
        have := h.remain_pos hsite (by rw [hno]; nofun)
        have := h.finished (.inr hr)
        omega
      exact { h with
        timer := fun _ _ hr => by cases hr
        retrying := fun _ => ⟨hused, hrcvd⟩ }
  · rw [if_pos (by simpa using hused)]
    exact { h with timer := fun hu => absurd hu hused }

/-- Every harmless event keeps the invariant. -/
theorem Inv.step (h : s.Inv) {op : MultiOp} (hop : op.Harmless s) (hen : s.Enabled op) :
    (s.run op).Inv := by
  cases op with
  | reply site p =>
    unfold MultiRun.run
    simp only
    by_cases hmem : s.member site = true
    · rw [if_pos hmem]
      by_cases hacc : s.entry.used = true ∧ s.entry.retryInProgress = false
      · obtain ⟨hused, hretry⟩ := hacc
        obtain ⟨hsite, hslow, hrcvd⟩ := hop hmem hused hretry
        rw [if_pos (by simp [hused, hretry])]
        exact h.recvReply hused hretry hen.1 hen.2.1 hen.2.2 hmem hsite hslow hrcvd
      · have hdrop : s.entry.recvReply site p = (s.entry, false) := by
          unfold MultiEntry.recvReply
          cases hused : s.entry.used with
          | false => simp
          | true =>
            have hretry : s.entry.retryInProgress = true := by
              rw [← Bool.not_eq_false]
              exact fun hr => hacc ⟨hused, hr⟩
            simp [hretry]
        rw [if_neg (by simpa using hacc), hdrop]
        exact h
    · rw [if_neg hmem]
      exact h
  | slow site garbage =>
    unfold MultiRun.run
    simp only
    by_cases hmem : s.member site = true
    · rw [if_pos hmem]
      by_cases hused : s.entry.used = true
      · obtain ⟨hsite, hdone, hgarbage⟩ := hop hmem hused
        rw [if_pos hused]
        exact h.recvSlowRequest hused hsite hdone hgarbage
      · have hdrop : s.entry.recvSlowRequest site garbage = s.entry := by
          unfold MultiEntry.recvSlowRequest
          rw [if_pos (by simpa using hused)]
        rw [if_neg hused, hdrop]
        exact h
    · rw [if_neg hmem]
      exact h
  | declare site =>
    refine { h with failed := fun i hi => ?_ }
    by_cases his : i = site
    · subst his
      exact update_self ..
    · exact (update_of_ne his ..).trans (h.failed i hi)
  | cleanup site =>
    unfold MultiRun.run
    simp only
    by_cases hused : s.entry.used = true
    · rw [if_pos hused]
      exact h.cleanUEntry hused hen.2.1 hen.1 hen.2.2
    · have hdrop : s.entry.cleanUEntry site = (s.entry, false) := by
        unfold MultiEntry.cleanUEntry
        rw [if_pos (by simpa using hused)]
      rw [if_neg hused, hdrop]
      exact h
  | retry => exact h.retryRequest
  | retryDone =>
    exact { h with
      timer := fun _ ht => by cases ht
      retrying := fun hr => by cases hr }
  | freeDuxBp => exact { h with }
  | recheck =>
    have hused := h.rcvd hen
    have hretry : s.entry.retryInProgress = false := by
      rw [← Bool.not_eq_true]
      intro hr
      have := (h.retrying hr).2
      rw [show s.entry.replyRcvd = true from hen] at this
      cases this
    have hzero := h.finished (.inr hen)
    have hsilent := h.silent_le
    have hcalls : s.calls = 0 := by rw [h.calls, hused]; rfl
    exact inv_done h.toBooks hused hretry (h.bytes hused) hzero hcalls (h.rep (.inr hen))
      h.maxsite_lt h.le_maxsite (by omega)

/-! ### The start -/

/-- The sites of a list when a request starts. -/
def started (sites : ℕ → DmSite) (n : ℕ) : Finset ℕ :=
  (Finset.Ico 1 (n + 1)).filter fun i => (sites i).siteIsValid = true

/-- The body of the loop changes one site. -/
theorem destScan_site (member : ℕ → Bool) (x : DestScan) (i : ℕ) :
    ∃ q : DmSite, (x.site member i).dmSites = Function.update x.dmSites i q ∧
      (q.siteIsValid = true → (x.dmSites i).siteIsValid = true ∧ q.status = .noresp) ∧
      (x.site member i).destCount = x.destCount + if q.siteIsValid then 1 else 0 := by
  unfold DestScan.site
  simp only
  split_ifs with hval hm
  · exact ⟨_, rfl, fun _ => ⟨hval, rfl⟩, by simp [hval]⟩
  · exact ⟨_, rfl, nofun, by simp⟩
  · exact ⟨x.dmSites i, (update_eq_self i x.dmSites).symm, fun h => absurd h hval, by simp [hval]⟩

/-- The loop of `net_request` over the sites `1..n`. -/
theorem destScan_spec (member : ℕ → Bool) (sites : ℕ → DmSite) (n : ℕ) :
    let x := (List.range' 1 n).foldl (DestScan.site member) ⟨sites, 0, none⟩
    (∀ i, i = 0 ∨ n < i → x.dmSites i = sites i) ∧
      (∀ i, (x.dmSites i).siteIsValid = true → (sites i).siteIsValid = true) ∧
      (∀ i, 1 ≤ i → i ≤ n → (x.dmSites i).siteIsValid = true → (x.dmSites i).status = .noresp) ∧
      x.destCount = (started x.dmSites n).card := by
  induction n with
  | zero => exact ⟨fun _ _ => rfl, fun _ h => h, fun i h1 h2 => by omega, rfl⟩
  | succ n ih =>
    obtain ⟨hout, hvalid, hstatus, hcount⟩ := ih
    simp only [range'_concat, foldl_append, foldl_cons, foldl_nil, one_mul]
    generalize (List.range' 1 n).foldl (DestScan.site member) ⟨sites, 0, none⟩ = x at *
    obtain ⟨q, hsites, hq, hc⟩ := destScan_site member x (1 + n)
    have hself : (x.site member (1 + n)).dmSites (1 + n) = q := by rw [hsites, update_self]
    have hother : ∀ i, i ≠ 1 + n → (x.site member (1 + n)).dmSites i = x.dmSites i :=
      fun i hi => by rw [hsites, update_of_ne hi]
    refine ⟨fun i hi => ?_, fun i hi => ?_, fun i h1 h2 hi => ?_, ?_⟩
    · rw [hother i (by omega)]
      exact hout i (by omega)
    · by_cases his : i = 1 + n
      · subst his
        rw [hself] at hi
        exact hvalid _ (hq hi).1
      · rw [hother i his] at hi
        exact hvalid i hi
    · by_cases his : i = 1 + n
      · subst his
        rw [hself] at hi ⊢
        exact (hq hi).2
      · rw [hother i his] at hi ⊢
        exact hstatus i h1 (by omega) hi
    · have hgrow : started (x.site member (1 + n)).dmSites (n + 1) =
          if q.siteIsValid then insert (1 + n) (started x.dmSites n) else started x.dmSites n := by
        ext i
        have hmem : i ∈ started (x.site member (1 + n)).dmSites (n + 1) ↔
            (1 ≤ i ∧ i < n + 1 + 1) ∧ ((x.site member (1 + n)).dmSites i).siteIsValid = true := by
          rw [started, Finset.mem_filter, Finset.mem_Ico]
        have hmem' : i ∈ started x.dmSites n ↔
            (1 ≤ i ∧ i < n + 1) ∧ (x.dmSites i).siteIsValid = true := by
          rw [started, Finset.mem_filter, Finset.mem_Ico]
        rw [hmem]
        by_cases his : i = 1 + n
        · subst his
          rw [hself]
          split_ifs with hqv
          · simp [hqv]
            omega
          · rw [hmem']
            exact ⟨fun h => absurd h.2 hqv, fun h => by omega⟩
        · rw [hother i his]
          split_ifs with hqv
          · rw [Finset.mem_insert, hmem']
            constructor
            · rintro ⟨hi, hv⟩
              exact .inr ⟨by omega, hv⟩
            · rintro (hi | ⟨hi, hv⟩)
              · exact absurd hi his
              · exact ⟨by omega, hv⟩
          · rw [hmem']
            constructor
            · rintro ⟨hi, hv⟩
              exact ⟨by omega, hv⟩
            · rintro ⟨hi, hv⟩
              exact ⟨by omega, hv⟩
      rw [hc, hcount, hgrow]
      split_ifs
      · rw [Finset.card_insert_of_notMem]
        rw [started, Finset.mem_filter, Finset.mem_Ico]
        omega
      · rfl

/-- The last member is the highest one. -/
theorem foldl_last (member : ℕ → Bool) (n : ℕ) :
    let m := (List.range' 1 n).foldl (fun m site => if member site then site else m) 0
    m ≤ n ∧ ∀ site, 1 ≤ site → site ≤ n → member site = true → site ≤ m := by
  induction n with
  | zero => exact ⟨le_rfl, fun site h1 h2 => by omega⟩
  | succ n ih =>
    obtain ⟨hle, hmem⟩ := ih
    simp only [range'_concat, foldl_append, foldl_cons, foldl_nil, one_mul]
    generalize (List.range' 1 n).foldl (fun m site => if member site then site else m) 0 = m at *
    split_ifs with hm
    · exact ⟨by omega, fun site _ _ _ => by omega⟩
    · refine ⟨by omega, fun site h1 h2 hsite => ?_⟩
      by_cases his : site = 1 + n
      · exact absurd (his ▸ hsite) hm
      · exact hmem site h1 (by omega) hsite

theorem clusterlist_maxsite (member : ℕ → Bool) : (clusterlist member).maxsite < MAXSITE ∧
    ∀ site < MAXSITE, ((clusterlist member).dmSites site).siteIsValid = true →
      site ≤ (clusterlist member).maxsite := by
  obtain ⟨hle, hmem⟩ := foldl_last member (MAXSITE - 1)
  unfold clusterlist
  generalize (List.range' 1 (MAXSITE - 1)).foldl _ 0 = m at *
  rw [MAXSITE] at *
  refine ⟨by simp only; omega, fun site hlt hsite => ?_⟩
  obtain ⟨h1, -, h3⟩ := of_decide_eq_true hsite
  exact hmem site h1 (by omega) h3

theorem inv_start {mySite : ℕ} {member : ℕ → Bool} {rep : ReplyStuff} {bufp : Bool}
    (hmax : l.maxsite < MAXSITE)
    (hle : ∀ site < MAXSITE, (l.dmSites site).siteIsValid = true → site ≤ l.maxsite) :
    (MultiRun.start mySite member l rep bufp).Inv := by
  obtain ⟨hout, hvalid, hstatus, hcount⟩ := destScan_spec member (l.prepare mySite) (MAXSITE - 1)
  have hzero : (l.prepare mySite 0).stuff = ⟨0, EOSYS_NORMAL, 0, 0⟩ := by
    simp [DmMultisite.prepare, DmMultisite.set]
  have hprep : ∀ i, (l.prepare mySite i).siteIsValid = true → (l.dmSites i).siteIsValid = true := by
    intro i
    have hfirst : (l.prepare mySite i).siteIsValid =
        ((l.set mySite { l.dmSites mySite with siteIsValid := false }).dmSites i).siteIsValid :=
      (Recoded.refl _).set.siteIsValid i
    rw [hfirst]
    by_cases hi : i = mySite
    · subst hi
      simp [DmMultisite.set]
    · simp [DmMultisite.set, hi]
  unfold MultiRun.start netRequest
  simp only
  generalize (List.range' 1 (MAXSITE - 1)).foldl (DestScan.site member) ⟨l.prepare mySite, 0, none⟩ = x at *
  have hbooks : ∀ next, Books ⟨l.maxsite, x.dmSites, x.destCount, x.destCount, next⟩
      (fun _ => false) [] member := by
    intro next
    have hno : ∀ site ∈ DmMultisite.valid ⟨l.maxsite, x.dmSites, x.destCount, x.destCount, next⟩,
        (x.dmSites site).status = .noresp := by
      intro site hsite
      obtain ⟨⟨h1, h2⟩, hv⟩ := mem_valid.1 hsite
      exact hstatus site h1 (by omega) hv
    refine ⟨fun site hsite => ?_, fun site hsite => ?_, ?_, ?_, ?_, nofun⟩
    · simp [hno site hsite]
    · simp [hno site hsite]
    · rw [Finset.filter_true_of_mem fun site hsite => by rw [hno site hsite]; nofun]
      exact congrArg _ hcount
    · rw [Finset.filter_true_of_mem hno]
      exact congrArg _ hcount
    · show (x.dmSites 0).stuff = _
      rw [hout 0 (.inl rfl), hzero]
      rfl
  have hsites : ∀ next, ∀ site ∈ DmMultisite.valid ⟨l.maxsite, x.dmSites, x.destCount, x.destCount, next⟩,
      site ≤ l.maxsite := by
    intro next site hsite
    obtain ⟨⟨h1, h2⟩, hv⟩ := mem_valid.1 hsite
    exact hle site h2 (hprep site (hvalid site hv))
  by_cases h0 : x.destCount = 0
  · rw [if_pos h0]
    exact
      { toBooks := hbooks _
        unfinished := nofun
        finished := fun _ => congrArg _ h0
        rcvd := nofun
        timer := nofun
        retrying := nofun
        bytes := nofun
        replying := nofun
        calls := rfl
        rep := fun _ => ⟨rfl, rfl, rfl, fun h => absurd rfl h⟩
        maxsite_lt := hmax
        le_maxsite := hsites _ }
  · rw [if_neg h0]
    exact
      { toBooks := hbooks _
        unfinished := fun _ _ => Int.natCast_pos.2 (Nat.pos_of_ne_zero h0)
        finished := fun hf => hf.elim nofun nofun
        rcvd := nofun
        timer := fun _ ht => by cases ht
        retrying := nofun
        bytes := fun _ => rfl
        replying := nofun
        calls := rfl
        rep := fun hf => hf.elim nofun nofun
        maxsite_lt := hmax
        le_maxsite := hsites _ }

end MultiRun

/-- A multisite request accounts for every site, in every run of harmless events. -/
theorem multisite_accounts (s : MultiRun) (h : (multiSys.restrict MultiOp.Harmless).Reach s) :
    s.Accounts := by
  refine MultiRun.Inv.accounts (h.inv ?_ ?_)
  · rintro _ ⟨mySite, member, l, rep, bufp, rfl, hmax, hle⟩
    exact MultiRun.inv_start hmax hle
  · rintro s op _ - hs ⟨hop, hen, rfl⟩
    exact hs.step hop hen

/-- Sites 1 to `n`, and this is site 1. -/
def firstSites (n : ℕ) : MultiRun :=
  .start 1 (fun site => decide (1 ≤ site ∧ site ≤ n)) (clusterlist fun site => decide (1 ≤ site ∧ site ≤ n))
    ⟨0, 0, 0, 0⟩ false

theorem reach_firstSites (C : MultiRun → MultiOp → Prop) (n : ℕ) :
    (multiSys.restrict C).Reach (firstSites n) :=
  .init ⟨1, _, _, _, _, rfl, MultiRun.clusterlist_maxsite _⟩

/-- A reply with return code `rc`. -/
def replyPkt (rc : ℕ) : ReplyPkt := ⟨0, 60, true, ⟨rc, EOSYS_NORMAL, 0, 0⟩⟩

/-- A site sends a notice, another one replies, and the first one crashes. -/
theorem multisite_accounts_two : ∃ s : MultiRun, s.calls = 1 ∧ s.entry.rep.rc = DM_CANNOT_DELIVER ∧
    s.Accounts := by
  have hrun : ∀ {s : MultiRun} {a : MultiOp}, (multiSys.restrict MultiOp.Harmless).Reach s →
      a.Harmless s → s.Enabled a → (multiSys.restrict MultiOp.Harmless).Reach (s.run a) :=
    fun h hop hen => .step h ⟨hop, hen, rfl⟩
  have h₀ := reach_firstSites MultiOp.Harmless 3
  have h₁ := hrun h₀ (a := .slow 2 false) (fun _ _ => ⟨mem_valid.2 (by decide +kernel),
    by decide +kernel, fun _ h => by cases h⟩) trivial
  have h₂ := hrun h₁ (a := .reply 3 (replyPkt 0)) (fun _ _ _ => ⟨mem_valid.2 (by decide +kernel),
    by decide +kernel, fun h => absurd h (by decide +kernel)⟩) ⟨rfl, rfl, fun r hr => by cases hr⟩
  have h₃ := hrun h₂ (a := .declare 2) trivial trivial
  have h₄ := hrun h₃ (a := .cleanup 2) trivial
    ⟨by decide +kernel, by decide +kernel, by decide, by decide⟩
  exact ⟨_, by decide +kernel, by decide +kernel, multisite_accounts _ h₄⟩

/-- A site that replies after its notice is counted twice, and the request is not sent again to one
that was never reached; a site whose notice arrives after its reply is asked for a second reply,
which completes the request without that of another site. -/
theorem multisite_miscounts :
    (∃ s : MultiRun, multiSys.Reach s ∧ s.entry.used = true ∧ s.entry.timer = false ∧
      s.entry.retryInProgress = false ∧ 4 ∈ s.entry.list.valid ∧ s.heard 4 = false) ∧
    ∃ s : MultiRun, multiSys.Reach s ∧ s.calls = 1 ∧ 3 ∈ s.entry.list.valid ∧
      s.outcomes = [(2, .replied ⟨0, EOSYS_NORMAL, 0, 0⟩)] := by
  have hrun : ∀ {s : MultiRun} {a : MultiOp}, multiSys.Reach s → s.Enabled a →
      multiSys.Reach (s.run a) := fun h hen => .step h ⟨hen, rfl⟩
  constructor
  · have h₀ := (reach_firstSites (fun _ _ => True) 4).of_restrict
    have h₁ := hrun h₀ (a := .slow 2 false) trivial
    have h₂ := hrun h₁ (a := .reply 2 (replyPkt 0)) ⟨rfl, rfl, fun r hr => by cases hr⟩
    have h₃ := hrun h₂ (a := .slow 3 false) trivial
    exact ⟨_, h₃, by decide +kernel, by decide +kernel, by decide +kernel,
      mem_valid.2 (by decide +kernel), by decide +kernel⟩
  · have h₀ := (reach_firstSites (fun _ _ => True) 3).of_restrict
    have h₁ := hrun h₀ (a := .reply 2 (replyPkt 0)) ⟨rfl, rfl, fun r hr => by cases hr⟩
    have h₂ := hrun h₁ (a := .slow 2 false) trivial
    have h₃ := hrun h₂ (a := .reply 2 (replyPkt 0)) ⟨rfl, rfl, fun r hr => ?_⟩
    · exact ⟨_, h₃, by decide +kernel, mem_valid.2 (by decide +kernel), by decide +kernel⟩
    · have hsame : ∀ l : List (ℕ × Outcome), l = [(2, .replied (replyPkt 0).stuff)] →
          (2, .replied r) ∈ l → (replyPkt 0).stuff = r := by
        rintro _ rfl hr
        rw [List.mem_singleton, Prod.mk.injEq, Outcome.replied.injEq] at hr
        exact hr.2.symm
      exact hsame _ (by decide +kernel) hr

end Dux

end Hpux
