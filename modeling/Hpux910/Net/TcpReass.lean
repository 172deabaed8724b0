import Hpux910.Lib.Lts
import Hpux910.Lib.Segments
import Hpux910.Lib.Stream
import Hpux910.Net.IpReass

/-!
# Reassembly of TCP segments

Segments that arrive out of order wait on a queue until the stream is complete up to them.  The byte
that the urgent pointer of a segment points at is pulled out of its chain before that, although the
length of the segment still counts it, so each trim of a segment has to know on which side of the cut
that byte was.

* `u32`, `sdiff` : arithmetic on sequence numbers.
* `Seg`, `Tcb` : a segment and the control block.
* `pullLoop` : `tcp_pulloutofband`.
* `Seg.trim`, `reassPrev`, `reassSucc`, `presentLoop` : the parts of `tcp_reass`.
* `trimDup`, `trimWnd`, `urgProcess`, `TcpIn`, `tcpInput` : the parts of `tcp_input` before.
* `TcpAct`, `tcpLts` : arrivals and the other calls of `tcp_reass` as a transition system.
-/

namespace Hpux.Net

/-- What an unsigned field of 32 bits holds after a store. -/
def u32 (x : ℤ) : ℤ := x % 4294967296

/-- The difference of two sequence numbers, as an `int`. -/
def sdiff (a b : ℤ) : ℤ := (a - b).bmod 4294967296

/-- `SEQ_GT` -/
def SeqGt (a b : ℤ) : Prop := 0 < sdiff a b

instance (a b : ℤ) : Decidable (SeqGt a b) := inferInstanceAs (Decidable (_ < _))

def TCPS_SYN_RECEIVED : ℕ := 4

def TCPS_ESTABLISHED : ℕ := 5

def TCPS_TIME_WAIT : ℕ := 11

def SB_MAX : ℤ := 65536

/-- `struct tcpiphdr` with its chain of mbufs; `urg` is `TH_URG` in `ti_flags`.  What `pos` and `hole`
say is not stored: where in the stream the segment begins, and which byte was pulled out of what is
left of it. -/
structure Seg (B : Type) where
  seq : ℤ
  len : ℤ
  urg : Bool
  urp : ℤ
  m : List (Mbuf B)
  pos : ℤ
  hole : Option ℤ
  deriving DecidableEq

/-- `struct tcpcb` with what was appended to `so_rcv`.  What `nxt`, `gone` and `pulled` say is not
stored: where in the stream `rcv_nxt` is, which bytes were missing from the segments appended, and
which bytes were pulled out of any segment. -/
structure Tcb (B : Type) where
  tState : ℕ
  rcvNxt : ℤ
  segs : List (Seg B)
  soRcv : List B
  tIobc : Option B
  nxt : ℤ
  gone : List ℤ
  pulled : List ℤ
  deriving DecidableEq

variable {B : Type}

/-! ### The urgent byte -/

/-- `bcopy(cp+1, cp, m->m_len - cnt - 1)` and `m->m_len--`, with `cp` at byte `cnt`. -/
def Mbuf.closeGap (m : Mbuf B) (cnt : ℤ) : Mbuf B :=
  { m with
    dat := m.dat.take (m.off + cnt.toNat) ++ m.rd (cnt + 1) (m.len - cnt - 1) ++
      m.dat.drop (m.off + (m.len - 1).toNat)
    len := m.len - 1 }

/-- The loop of `tcp_pulloutofband`: `t_iobc` and the chain without that byte. -/
def pullLoop : List (Mbuf B) → ℤ → Except Stop (Option B × List (Mbuf B))
  | [], _ => .error .panic
  | m :: c, cnt =>
    if cnt < m.len then .ok ((m.rd cnt 1).head?, m.closeGap cnt :: c)
    else do
      let (b, c') ← pullLoop c (cnt - m.len)
      return (b, m :: c')

/-! ### The parts of `tcp_reass` -/

/-- The urgent byte is in the first `i` bytes, as the code tests it. -/
def Seg.Oob (q : Seg B) (i : ℤ) : Prop := q.urg ∧ q.urp ≠ 0 ∧ q.urp ≤ q.len ∧ q.urp ≤ i

instance (q : Seg B) (i : ℤ) : Decidable (q.Oob i) := inferInstanceAs (Decidable (_ ∧ _))

/-- A segment without its first `i` bytes, for `0 < i < ti_len`: `j` bytes go from the chain. -/
def Seg.trim (q : Seg B) (i : ℤ) : Seg B :=
  let j := if q.Oob i then i - 1 else i
  { seq := u32 (q.seq + i)
    len := q.len - i
    urg := q.urg && !decide (q.Oob i)
    urp := if q.Oob i then 0 else q.urp
    m := mAdj q.m j
    pos := q.pos + i
    hole := q.hole.filter fun h => q.pos + i ≤ h }

/-- Without what the segment before has; `none` for `drop`. -/
def reassPrev (p : Option (Seg B)) (ti : Seg B) : Option (Seg B) :=
  match p with
  | none => some ti
  | some p =>
    let i := sdiff (p.seq + p.len) ti.seq
    if 0 < i then if ti.len ≤ i then none else some (ti.trim i) else some ti

/-- The following segments without what the new one has. -/
def reassSucc (ti : Seg B) : List (Seg B) → List (Seg B)
  | [] => []
  | q :: qs =>
    let i := sdiff (ti.seq + ti.len) q.seq
    if i ≤ 0 then q :: qs
    else if i < q.len then q.trim i :: qs
    else reassSucc ti qs

/-- The queue with a new segment; `none` when that is dropped. -/
def reassInsert (ti : Seg B) (segs : List (Seg B)) : Option (List (Seg B)) :=
  let before := segs.takeWhile fun q => ¬ SeqGt q.seq ti.seq
  let after := segs.dropWhile fun q => ¬ SeqGt q.seq ti.seq
  (reassPrev before.getLast? ti).map fun ti => before ++ ti :: reassSucc ti after

/-- `rcv_nxt += ti_len` and `sbappend` -/
def Tcb.append (tp : Tcb B) (ti : Seg B) : Tcb B :=
  { tp with
    rcvNxt := u32 (tp.rcvNxt + ti.len)
    soRcv := tp.soRcv ++ bytes ti.m
    nxt := tp.nxt + ti.len
    gone := tp.gone ++ ti.hole.toList }

/-- The loop after `present`, which takes segments off the queue while they are the next ones. -/
def presentLoop (tp : Tcb B) : List (Seg B) → Tcb B
  | [] => { tp with segs := [] }
  | ti :: segs =>
    if ti.seq = tp.rcvNxt then presentLoop (tp.append ti) segs else { tp with segs := ti :: segs }

/-- `tcp_reass(tp, 0)` -/
def present (tp : Tcb B) : Tcb B :=
  if tp.tState < TCPS_SYN_RECEIVED then tp
  else
    match tp.segs with
    | [] => tp
    | ti :: _ =>
      if ti.seq ≠ tp.rcvNxt then tp
      else if tp.tState = TCPS_SYN_RECEIVED ∧ ti.len ≠ 0 then tp
      else presentLoop tp tp.segs

def tcpReass (tp : Tcb B) (ti : Seg B) : Tcb B :=
  match reassInsert ti tp.segs with
  | none => tp
  | some segs => present { tp with segs := segs }

/-- The macro `TCP_REASS`. -/
def TCP_REASS (tp : Tcb B) (ti : Seg B) : Tcb B :=
  if ti.seq = tp.rcvNxt ∧ tp.segs = [] ∧ tp.tState = TCPS_ESTABLISHED then tp.append ti
  else tcpReass tp ti

/-! ### The parts of `tcp_input` -/

/-- A segment without what came before `rcv_nxt`; `none` for `dropafterack`.  `TH_URG` is cleared in
`tiflags` only, but then `ti_urp` is 0. -/
def trimDup (rcvNxt : ℤ) (ti : Seg B) : Option (Seg B) :=
  let todrop := sdiff rcvNxt ti.seq
  if 0 < todrop then
    if ti.len ≤ todrop then none
    else some { ti with
      seq := u32 (ti.seq + todrop)
      len := ti.len - todrop
      urp := if todrop < ti.urp then ti.urp - todrop else 0
      m := mAdj ti.m todrop
      pos := ti.pos + todrop }
  else some ti

/-- A segment without what is after the window; `none` for `dropafterack`. -/
def trimWnd (rcvNxt wnd : ℤ) (ti : Seg B) : Option (Seg B) :=
  let todrop := sdiff (ti.seq + ti.len) (rcvNxt + wnd)
  if 0 < todrop then
    if ti.len ≤ todrop ∧ ¬ (wnd = 0 ∧ ti.seq = rcvNxt) then none
    else some { ti with len := ti.len - todrop, m := mAdj ti.m (-todrop) }
  else some ti

/-- The processing of `TH_URG`; `sbcc` is what is in the receive buffer. -/
def urgProcess (sbcc : ℤ) (tp : Tcb B) (ti : Seg B) : Except Stop (Tcb B × Seg B) :=
  if ti.urg ∧ ti.urp ≠ 0 ∧ tp.tState < TCPS_TIME_WAIT then
    if SB_MAX < ti.urp + sbcc then .ok (tp, { ti with urp := 0 })
    else if ti.urp ≤ ti.len then do
      let (b, m) ← pullLoop ti.m (ti.urp - 1)
      return ({ tp with tIobc := b, pulled := tp.pulled ++ [ti.pos + ti.urp - 1] },
        { ti with m := m, hole := some (ti.pos + ti.urp - 1) })
    else .ok (tp, ti)
  else .ok (tp, ti)

/-- The text of a segment. -/
def dodata (tp : Tcb B) (ti : Seg B) : Tcb B :=
  if ti.len ≠ 0 ∧ tp.tState < TCPS_TIME_WAIT then TCP_REASS tp ti else tp

/-- What arrives: the place in the stream, the chain, `ti_urp` if `TH_URG` is set, and `rcv_wnd` and
`so_rcv.sb_cc` at that time. -/
structure TcpIn (B : Type) where
  pos : ℤ
  m : List (Mbuf B)
  urg : Bool
  urp : ℕ
  wnd : ℕ
  sbcc : ℕ
  deriving DecidableEq

/-- The header of what arrives, where `irs` is the sequence number of the first byte. -/
def TcpIn.seg (irs : ℤ) (x : TcpIn B) : Seg B where
  seq := u32 (irs + x.pos)
  len := short (count x.m)
  urg := x.urg
  urp := x.urp
  m := x.m
  pos := x.pos
  hole := none

/-- `tcp_input` for a segment with text, without `TH_SYN`, `TH_RST` and `TH_FIN`. -/
def tcpInput (irs : ℤ) (tp : Tcb B) (x : TcpIn B) : Except Stop (Tcb B) :=
  match (trimDup tp.rcvNxt (x.seg irs)).bind (trimWnd tp.rcvNxt x.wnd) with
  | none => .ok tp
  | some ti => do
    let (tp, ti) ← urgProcess x.sbcc tp ti
    return dodata tp ti

/-! ### Runs -/

/-- A segment of the stream `D` with a window of the sequence space in common. -/
structure TcpIn.Of (D : ℤ → B) (tp : Tcb B) (x : TcpIn B) : Prop where
  ok : OkChain x.m
  kernel : KernelData x.m
  data : bytes x.m = kept D x.pos (x.pos + count x.m) []
  pos : 0 ≤ x.pos
  near : tp.nxt - 1073741824 ≤ x.pos ∧ x.pos ≤ tp.nxt + 1073741824
  len : count x.m < 65536
  urp : x.urp < 65536
  wnd : x.wnd < 65536

/-- Arrivals, changes of `t_state`, and the call of `tcp_reass` with no segment. -/
inductive TcpAct (B : Type)
  | input (x : TcpIn B)
  | state (t : ℕ)
  | present

/-- The connection that receives the stream `D`. -/
def tcpLts (D : ℤ → B) (irs : ℤ) : Lts (Tcb B) (TcpAct B) where
  init tp := tp.segs = [] ∧ tp.soRcv = [] ∧ tp.tIobc = none ∧ tp.rcvNxt = u32 irs ∧ tp.nxt = 0 ∧
    tp.gone = [] ∧ tp.pulled = []
  step tp a tp' :=
    match a with
    | .input x => x.Of D tp ∧ tcpInput irs tp x = .ok tp'
    | .state t => tp' = { tp with tState := t }
    | .present => tp' = present tp

end Hpux.Net
