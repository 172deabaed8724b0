import Hpux910.Dux.Multisite
import Hpux910.Lib.LinkedQueue

/-!
# The protocol window of DUX

A site has at most `dux_window_size` requests under way to each other site; further ones wait in a
queue of `clustab[site]`.  This file models the requesting side of the protocol: `net_request` and
`get_using_array`, `dux_send`, `retry_request`, `recv_reply` with `call_dm_recv_reply`,
`recv_slow_request` and `check_protocol_window`, as they run on the series 700 and 800.

A routine is cut where others can run in its middle: where it sleeps, where it drops the priority
for `dux_send`, and where it copies a packet in.

* `UsingEntry`, `Cct`, `UsingSide` : a `using_array` entry, the window part of a `clustab` entry,
  and the requesting side with the calls in progress, the timers and the network.
* `UsingSide.windowLoop`, `UsingSide.checkProtocolWindow` : the loop of `check_protocol_window` up
  to its next `dux_send`, and the routine.
* `Op`, `Op.Enabled`, `UsingSide.run` : the events.

The fields `ticket`, `done`, `slow` and `arrivals` record history; the code has no such fields and
no routine reads them.
-/

namespace Hpux

namespace Dux

namespace Window

open Function

/-- The flags of a `using_array` entry. -/
structure UFlags where
  /-- `U_USED`. -/
  used : Bool
  /-- `U_REPLY_RCVD`. -/
  replyRcvd : Bool
  /-- `U_RETRY_IN_PROGRESS`. -/
  retryInProgress : Bool
  /-- `U_REPLY_IN_PROGRESS`. -/
  replyInProgress : Bool
  /-- `U_COUNTED`. -/
  counted : Bool
  /-- `U_OUTSIDE_WINDOW`. -/
  outsideWindow : Bool
  deriving DecidableEq

/-- No flag set. -/
def UFlags.zero : UFlags := ⟨false, false, false, false, false, false⟩

/-- What the protocol reads of a request message. -/
structure ReqMsg where
  /-- `dm_dest`: one site, or none for a multisite, cluster, dux or directed cast. -/
  dest : Option ℕ
  /-- `DM_URGENT`. -/
  urgent : Bool
  /-- It carries a buffer (`dm_bufp`). -/
  bufp : Bool
  deriving DecidableEq

/-- The site in whose window the request is counted. -/
def ReqMsg.countedFor (r : ReqMsg) : Option ℕ := if r.urgent then none else r.dest

/-- An entry of `using_array`, with what is read of its request message. -/
structure UsingEntry where
  /-- `flags`. -/
  flags : UFlags
  /-- `byte_recved`. -/
  byteRecved : ℕ
  /-- `rid`. -/
  rid : ℕ
  /-- `req_mbuf`. -/
  req : ReqMsg
  /-- `B2_DUXCANTFREE` of the buffer of the request. -/
  cantFree : Bool
  /-- `req_waiting_next`. -/
  reqWaitingNext : Option ℕ
  /-- When it came to the waiting queue. -/
  ticket : ℕ
  /-- The complete reply has been taken. -/
  done : Bool
  /-- A slow notice has been taken. -/
  slow : Bool

/-- A free entry. -/
def UsingEntry.freed : UsingEntry := ⟨.zero, 0, 0, ⟨none, false, false⟩, false, none, 0, false, false⟩

/-- The window part of a `clustab` entry. -/
structure Cct where
  /-- `req_count`. -/
  reqCount : ℕ
  /-- `req_waiting_Qhead`. -/
  reqWaitingQhead : Option ℕ
  /-- `req_waiting_Qtail`. -/
  reqWaitingQtail : Option ℕ

/-- The caller of a `dux_send` in progress. -/
inductive Sender where
  /-- `net_request`. -/
  | netRequest
  /-- `check_protocol_window(site)`, itself called by the `recv_reply` that completes an entry or
  by `recv_slow_request`. -/
  | checkWindow (site : ℕ) (reply : Option ℕ)
  /-- `retry_request`. -/
  | retry
  deriving DecidableEq

/-- The entry whose `recv_reply` waits for the window check. -/
def Sender.reply? : Sender → Option ℕ
  | .checkWindow _ reply => reply
  | _ => none

/-- What `recv_reply` reads of a packet. -/
structure Packet where
  /-- `p_byte_no`. -/
  byteNo : ℕ
  /-- The number of bytes in it. -/
  length : ℕ
  /-- `P_END_OF_MSG`. -/
  endOfMsg : Bool
  deriving DecidableEq

/-- The requesting side of the protocol on a site. -/
structure UsingSide where
  /-- `dux_window_size`. -/
  windowSize : ℕ
  /-- `using_array_size`. -/
  size : ℕ
  /-- The cluster members. -/
  member : ℕ → Bool
  /-- `dux_rid`. -/
  duxRid : ℕ
  /-- `using_array`. -/
  entries : ℕ → UsingEntry
  /-- `clustab`. -/
  clustab : ℕ → Cct
  /-- The `net_request` calls in `get_using_array`, with their `rid`. -/
  gets : List (ReqMsg × ℕ)
  /-- The `dux_send` calls in progress. -/
  sends : List (ℕ × Sender)
  /-- The `recv_reply` calls that copy a packet in. -/
  recvs : List (ℕ × Packet)
  /-- The pending timeouts of `call_dm_recv_reply`. -/
  waits : List ℕ
  /-- The pending timeouts of `retry_request`. -/
  timers : List ℕ
  /-- The `retry_request` calls whose timeout has expired and that have not begun. -/
  firing : List ℕ
  /-- The requests `(p_req_index, p_rid)` to which the network may still deliver an answer. -/
  air : List (ℕ × ℕ)
  /-- The number of requests that came to a waiting queue. -/
  arrivals : ℕ
  /-- The protocol has panicked. -/
  panicked : Bool

namespace UsingSide

variable (s : UsingSide)

/-- Assignment to an entry of `using_array`. -/
def setEntry (i : ℕ) (e : UsingEntry) : UsingSide := { s with entries := update s.entries i e }

/-- Assignment to an entry of `clustab`. -/
def setCct (site : ℕ) (c : Cct) : UsingSide := { s with clustab := update s.clustab site c }

/-- `free_using_entry`. -/
def freeUsingEntry (i : ℕ) : UsingSide :=
  { s.setEntry i .freed with panicked := s.panicked || (s.entries i).flags.outsideWindow }

/-- `dux_send` of the request of entry `i`, up to its first packet. -/
def duxSend (i : ℕ) (caller : Sender) : UsingSide :=
  let e := s.entries i
  { s.setEntry i { e with cantFree := e.cantFree || e.req.bufp } with
    sends := (i, caller) :: s.sends }

/-- `call_dm_recv_reply`. -/
def callDmRecvReply (i : ℕ) : UsingSide :=
  let e := s.entries i
  if e.req.bufp && e.cantFree then
    { s.setEntry i { e with flags := { e.flags with replyRcvd := true } } with
      waits := i :: s.waits }
  else s.freeUsingEntry i

/-- What the caller of `check_protocol_window` does after it: `recv_reply` completes its entry. -/
def afterCheck : Option ℕ → UsingSide
  | none => s
  | some i => if (s.entries i).flags.replyRcvd then s else s.callDmRecvReply i

/-- Taking entry `i` from the head of the waiting queue of `site`. -/
def takeHead (site i : ℕ) : UsingSide :=
  let e := s.entries i
  let c := s.clustab site
  { (s.setEntry i { e with
        flags := { e.flags with outsideWindow := false, counted := true }
        reqWaitingNext := none }).setCct site
      ⟨(c.reqCount + 1) % 2 ^ 16, e.reqWaitingNext,
        if e.reqWaitingNext = none then none else c.reqWaitingQtail⟩ with
    panicked := s.panicked || !e.flags.used || !e.flags.outsideWindow }

/-- The loop of `check_protocol_window` up to its next `dux_send`, or to the end. -/
def windowLoop (site : ℕ) (reply : Option ℕ) : UsingSide :=
  match (s.clustab site).reqWaitingQhead with
  | some i =>
    if (s.clustab site).reqCount < s.windowSize then
      (s.takeHead site i).duxSend i (.checkWindow site reply)
    else s.afterCheck reply
  | none => s.afterCheck reply

/-- One request less is counted. -/
def giveBack (site : ℕ) : UsingSide :=
  s.setCct site { s.clustab site with reqCount := (s.clustab site).reqCount - 1 }

/-- `check_protocol_window`. -/
def checkProtocolWindow (site : ℕ) (reply : Option ℕ) : UsingSide :=
  if s.member site = true ∧ (s.clustab site).reqCount ≠ 0 then (s.giveBack site).windowLoop site reply
  else s.afterCheck reply

/-- `get_using_array`, without its sleep. -/
def getUsingArray : Option ℕ := (List.range s.size).find? fun i => (s.entries i).flags = .zero

/-- The entry `i` that `get_using_array` found is taken for a request. -/
def fillEntry (i : ℕ) (r : ReqMsg) (rid : ℕ) : UsingSide :=
  s.setEntry i { s.entries i with
    flags := { (s.entries i).flags with used := true }
    byteRecved := 0
    rid := rid
    req := r
    cantFree := false
    done := false
    slow := false }

/-- The tail of the waiting queue of `site`, if there is one, is linked to entry `i`. -/
def linkTail (site i : ℕ) : ℕ → UsingEntry :=
  match (s.clustab site).reqWaitingQhead, (s.clustab site).reqWaitingQtail with
  | some _, some t => update s.entries t { s.entries t with reqWaitingNext := some i }
  | _, _ => s.entries

/-- The window of `site` is full: entry `i` goes to the end of the waiting queue. -/
def waitOutside (site i : ℕ) : UsingSide :=
  let c := s.clustab site
  let e := s.linkTail site i i
  { s with
    entries := update (s.linkTail site i) i
      { e with
        flags := { e.flags with outsideWindow := true }
        reqWaitingNext := none
        ticket := s.arrivals }
    clustab := update s.clustab site ⟨c.reqCount, c.reqWaitingQhead.or (some i), some i⟩
    arrivals := s.arrivals + 1 }

/-- There is room in the window of `site`: the request of entry `i` is counted. -/
def countIn (site i : ℕ) : UsingSide :=
  let e := s.entries i
  (s.setEntry i { e with flags := { e.flags with counted := true } }).setCct site
    { s.clustab site with reqCount := ((s.clustab site).reqCount + 1) % 2 ^ 16 }

/-- The window check of `net_request` for entry `i`. -/
def enterWindow (i : ℕ) : UsingSide :=
  match (s.entries i).req.countedFor with
  | some site =>
    if s.windowSize ≤ (s.clustab site).reqCount then s.waitOutside site i
    else (s.countIn site i).duxSend i .netRequest
  | none => s.duxSend i .netRequest

/-- The destination of a request is up and valid. -/
def deliverable (r : ReqMsg) : Bool :=
  match r.dest with
  | some site => decide (1 ≤ site ∧ site < MAXSITE) && s.member site
  | none => true

/-- `net_request` up to `get_using_array`; a request to a site that is down or invalid fails at
once. -/
def netRequest (r : ReqMsg) : UsingSide :=
  if s.deliverable r then
    { s with
      duxRid := (s.duxRid + 1) % 2 ^ 32
      gets := (r, (s.duxRid + 1) % 2 ^ 32) :: s.gets }
  else s

/-- `net_request` from the entry that `get_using_array` returns to `dux_send`. -/
def gotEntry (r : ReqMsg) (rid : ℕ) : UsingSide :=
  match s.getUsingArray with
  | some i => (({ s with gets := s.gets.erase (r, rid) }).fillEntry i r rid).enterWindow i
  | none => s

/-- The end of a `dux_send`, and its caller up to the next place where others run.  A send that
gives up under interrupt clears `B2_DUXCANTFREE`; the timer is started in any case. -/
def sent (i : ℕ) (caller : Sender) (complete : Bool) : UsingSide :=
  let e := s.entries i
  let e' := if complete then e else { e with cantFree := false }
  let s' :=
    { s with
      entries := update s.entries i e'
      sends := s.sends.erase (i, caller)
      timers := e.rid :: s.timers
      air := if complete then (i, e.rid) :: s.air else s.air }
  match caller with
  | .netRequest => s'
  | .checkWindow site reply => s'.windowLoop site reply
  | .retry => s'.setEntry i { e' with flags := { e.flags with retryInProgress := false } }

/-- `recv_reply` up to the copy of the packet. -/
def recvReply (i rid : ℕ) (pkt : Packet) : UsingSide :=
  let e := s.entries i
  if e.flags = .zero ∨ e.rid ≠ rid then s
  else if e.flags.retryInProgress then s
  else if pkt.byteNo = e.byteRecved then
    { s.setEntry i { e with flags := { e.flags with replyInProgress := true } } with
      recvs := (i, pkt) :: s.recvs }
  else s.setEntry i { e with flags := { e.flags with replyInProgress := false } }

/-- Entry `i` is no longer counted in a window. -/
def uncount (i : ℕ) : UsingSide :=
  let e := s.entries i
  s.setEntry i { e with flags := { e.flags with counted := false } }

/-- An entry leaves the window of its site, which is then checked, or was not in it. -/
def leaveWindow (i : ℕ) (reply : Option ℕ) : UsingSide :=
  let e := s.entries i
  match e.req.dest with
  | some site =>
    if e.flags.counted = true ∧ 0 < site ∧ site < MAXSITE then
      (s.uncount i).checkProtocolWindow site reply
    else s.afterCheck reply
  | none => s.afterCheck reply

/-- `recv_reply` after the copy of the packet; `last` says whether the reply of a request to several
sites is the last one. -/
def replyTaken (i : ℕ) (pkt : Packet) (last : Bool) : UsingSide :=
  let e := s.entries i
  let single := e.req.dest.isSome
  let byteRecved := if pkt.endOfMsg && !single then 0 else e.byteRecved + pkt.length
  let s' := { s with recvs := s.recvs.erase (i, pkt) }
  if pkt.endOfMsg && (single || last) then
    ({ s'.setEntry i { e with byteRecved := byteRecved, done := true } with
      timers := s.timers.erase e.rid }).leaveWindow i (some i)
  else
    s'.setEntry i
      { e with
        flags := { e.flags with replyInProgress := false }
        byteRecved := byteRecved }

/-- `recv_slow_request`; `stop` says whether all sites of a request to several have answered. -/
def recvSlowRequest (i rid : ℕ) (stop : Bool) : UsingSide :=
  let e := s.entries i
  if e.rid = rid ∧ e.flags.used = true ∧ (e.req.dest.isSome || stop) = true then
    ({ s.setEntry i { e with slow := true } with timers := s.timers.erase e.rid }).leaveWindow i none
  else s

/-- The timeout of `retry_request` expires. -/
def fire (rid : ℕ) : UsingSide :=
  { s with
    timers := s.timers.erase rid
    firing := rid :: s.firing }

/-- The entry that `retry_request` finds. -/
def findRid (rid : ℕ) : Option ℕ := (List.range s.size).find? fun i => (s.entries i).rid = rid

/-- `retry_request` up to its `dux_send`; `more` says whether a request to several sites still has
one to be sent to. -/
def retryRequest (rid : ℕ) (more : Bool) : UsingSide :=
  let s' := { s with firing := s.firing.erase rid }
  match s.findRid rid with
  | none => s'
  | some i =>
    let e := s.entries i
    if e.flags = .zero then s'
    else if e.flags.replyInProgress || (e.req.bufp && e.cantFree) then
      { s' with timers := rid :: s.timers }
    else if e.req.dest = none ∧ more = false then s'
    else (s'.setEntry i { e with flags := { e.flags with retryInProgress := true } }).duxSend i .retry

/-- The timeout of `call_dm_recv_reply` expires. -/
def waited (i : ℕ) : UsingSide := ({ s with waits := s.waits.erase i }).callDmRecvReply i

/-- `free_dux_bp`: the driver is done with the buffer of the request of entry `i`. -/
def drained (i : ℕ) : UsingSide := s.setEntry i { s.entries i with cantFree := false }

/-- The network delivers no more answers to a request, until it is sent again. -/
def lost (i rid : ℕ) : UsingSide := { s with air := s.air.filter (· ≠ (i, rid)) }

end UsingSide

/-- The events on the requesting side. -/
inductive Op where
  /-- A process calls `net_request`. -/
  | netRequest (r : ReqMsg)
  /-- A process finds a free entry. -/
  | got (r : ReqMsg) (rid : ℕ)
  /-- A `dux_send` returns. -/
  | sent (i : ℕ) (caller : Sender) (complete : Bool)
  /-- A packet of a reply arrives. -/
  | reply (i rid : ℕ) (pkt : Packet)
  /-- The packet has been copied. -/
  | taken (i : ℕ) (pkt : Packet) (last : Bool)
  /-- A slow notice arrives. -/
  | slow (i rid : ℕ) (stop : Bool)
  /-- The timeout of a `retry_request` expires. -/
  | fire (rid : ℕ)
  /-- A `retry_request` runs. -/
  | retry (rid : ℕ) (more : Bool)
  /-- The timeout of a `call_dm_recv_reply` expires. -/
  | waited (i : ℕ)
  /-- The driver is done with a buffer. -/
  | drained (i : ℕ)
  /-- The network drops the answers to a request. -/
  | lost (i rid : ℕ)

namespace UsingSide

variable (s : UsingSide)

/-- The state after an event. -/
def run : Op → UsingSide
  | .netRequest r => s.netRequest r
  | .got r rid => s.gotEntry r rid
  | .sent i caller complete => s.sent i caller complete
  | .reply i rid pkt => s.recvReply i rid pkt
  | .taken i pkt last => s.replyTaken i pkt last
  | .slow i rid stop => s.recvSlowRequest i rid stop
  | .fire rid => s.fire rid
  | .retry rid more => s.retryRequest rid more
  | .waited i => s.waited i
  | .drained i => s.drained i
  | .lost i rid => s.lost i rid

/-- When an event can happen.  A send gives up only under interrupt; a packet is not taken in while
another one for the same entry is, and none follows the last one of a reply.  A retransmission, once
begun, is over before the completion of its entry that it interrupted goes on. -/
def Enabled : Op → Prop
  | .netRequest _ => True
  | .got r rid => (r, rid) ∈ s.gets ∧ s.getUsingArray ≠ none
  | .sent i caller complete => (i, caller) ∈ s.sends ∧ (complete = false → caller ≠ .netRequest) ∧
      ∀ j, caller.reply? = some j → (j, .retry) ∉ s.sends
  | .reply i rid pkt => (i, rid) ∈ s.air ∧ i ∉ s.recvs.map Prod.fst ∧
      ((s.entries i).rid = rid → (s.entries i).done = true → pkt.byteNo ≠ (s.entries i).byteRecved)
  | .taken i pkt _ => (i, pkt) ∈ s.recvs
  | .slow i rid _ => (i, rid) ∈ s.air
  | .fire rid => rid ∈ s.timers
  | .retry rid _ => rid ∈ s.firing
  | .waited i => i ∈ s.waits ∧ (i, .retry) ∉ s.sends
  | .drained _ => True
  | .lost _ _ => True

/-- A site that has just come up, in a cluster of the given members. -/
def boot (windowSize size : ℕ) (member : ℕ → Bool) : UsingSide where
  windowSize := windowSize
  size := size
  member := member
  duxRid := 0
  entries _ := .freed
  clustab _ := ⟨0, none, none⟩
  gets := []
  sends := []
  recvs := []
  waits := []
  timers := []
  firing := []
  air := []
  arrivals := 0
  panicked := false

end UsingSide

/-- The requesting side of the protocol; the window size is a `u_short`. -/
def windowSys : Lts UsingSide Op where
  init s := ∃ windowSize size member, windowSize < 2 ^ 16 ∧ s = .boot windowSize size member
  step s op s' := s.Enabled op ∧ s' = s.run op

end Window

end Dux

end Hpux
