import Hpux910.Lib.Lts
import Hpux910.Lib.Segments
import Hpux910.Net.MbufCut
import Mathlib

/-!
# Reassembly of IP fragments

`ip_reass` keeps the fragments of a datagram on a queue in the order of their offsets.  A fragment
is trimmed against the one before it and trims the ones after it; when the fragments follow on one
another up to the last one, the datagram is put together.  The memory of the queues is counted, and
the queue that was updated least recently is dropped when it is too much.

* `short`, `ushort` : the stores into the 16-bit fields `ip_off` and `ip_len`.
* `Frag`, `Ipq`, `St` : a fragment on a queue, a queue, and all queues.
* `trimPrev`, `trimNext`, `insertFrag`, `contiguous`, `catFrags` : the parts of `ip_reass`.
* `ipReass`, `ipFreef`, `ipInput`, `ipSlowtimo`, `ipDrain` : the routines.
* `Act`, `lts` : arrivals, timeouts and drains as a transition system.
-/

namespace Hpux.Net

/-- What a 16-bit signed field holds after a store. -/
def short (x : ℤ) : ℤ := x.bmod 65536

/-- What a 16-bit unsigned field holds after a store. -/
def ushort (x : ℤ) : ℕ := (x % 65536).toNat

def IPFRAGTTL : ℕ := 60

/-- The fields by which `ipintr` looks for a queue. -/
structure IpKey where
  id : ℕ
  src : ℕ
  dst : ℕ
  p : ℕ
  deriving DecidableEq

/-- `struct ipasfrag` with its chain of mbufs; `mem` is `m_quad[1]` of the first mbuf. -/
structure Frag (B : Type) where
  off : ℤ
  len : ℕ
  mff : Bool
  m : List (Mbuf B)
  mem : ℕ
  deriving DecidableEq

/-- `struct ipq`; `mem` is `m_quad[1]` of its mbuf, and `got` are the fragments received so far, as
they came. -/
structure Ipq (B : Type) where
  key : IpKey
  ttl : ℕ
  frags : List (Frag B)
  mem : ℤ
  got : List (Frag B)
  deriving DecidableEq

/-- The queues from `ipq.next` on, and `ipq_msize`. -/
structure St (B : Type) where
  ipq : List (Ipq B)
  msize : ℤ
  deriving DecidableEq

/-- What is handed to the protocol: `ip_len` and the chain. -/
structure Datagram (B : Type) where
  len : ℕ
  m : List (Mbuf B)
  deriving DecidableEq

variable {B : Type}

/-- The end of a fragment. -/
def Frag.hi (f : Frag B) : ℤ := f.off + f.len

/-- `ip_count_mem` -/
def ipCountMem (m : List (Mbuf B)) : ℕ :=
  (m.map fun m => MSIZE + (m.cl.elim 0 Cluster.clsize)).sum

/-! ### The parts of `ip_reass` -/

/-- Without what the fragment before has; `none` when that one has all of it. -/
def trimPrev (p : Option (Frag B)) (f : Frag B) : Option (Frag B) :=
  match p with
  | none => some f
  | some p =>
    let i := p.off + p.len - f.off
    if 0 < i then
      if f.len ≤ i then none
      else some { f with m := mAdj f.m i, off := short (f.off + i), len := ushort (f.len - i) }
    else some f

/-- The following fragments without what the new one has, and `oldcnt`. -/
def trimNext (f : Frag B) : List (Frag B) → List (Frag B) × ℕ
  | [] => ([], 0)
  | q :: qs =>
    if q.off < f.off + f.len then
      let i := f.off + f.len - q.off
      if i < q.len then
        ({ q with len := ushort (q.len - i), off := short (q.off + i), m := mAdj q.m i } :: qs, 0)
      else ((trimNext f qs).1, q.mem + (trimNext f qs).2)
    else (q :: qs, 0)

/-- The fragments before and after a new one. -/
def placeFrag (f : Frag B) (frags : List (Frag B)) : List (Frag B) × List (Frag B) :=
  (frags.takeWhile (fun q => q.off ≤ f.off), frags.dropWhile (fun q => q.off ≤ f.off))

/-- The queue with a new fragment, the memory of the new one and `oldcnt`; `none` for `dropfrag`.
The memory of the new fragment is recorded when `netmemmax` limits it. -/
def insertFrag (netmemmax : ℤ) (f : Frag B) (frags : List (Frag B)) :
    Option (List (Frag B) × ℕ × ℕ) :=
  (trimPrev (placeFrag f frags).1.getLast? f).map fun f' =>
    let mem := if netmemmax ≤ 0 then 0 else ipCountMem f'.m
    let after := trimNext f' (placeFrag f frags).2
    ((placeFrag f frags).1 ++ { f' with mem := mem } :: after.1, mem, after.2)

/-- The check of the offsets: `next` at the end, `none` when there is a gap. -/
def contiguous : ℤ → List (Frag B) → Option ℤ
  | next, [] => some next
  | next, q :: qs => if q.off ≠ next then none else contiguous (next + q.len) qs

/-- `next` when the fragments make up a whole datagram. -/
def complete (frags : List (Frag B)) : Option ℤ :=
  match contiguous 0 frags with
  | none => none
  | some next => if frags.getLast?.elim true Frag.mff then none else some next

/-- The chains are put together, that of the first mbuf included. -/
def catFrags (frags : List (Frag B)) : Except Stop (List (Mbuf B)) :=
  match frags.map Frag.m with
  | (m :: t) :: cs => do
    let r ← mCat [m] t
    cs.foldlM mCat r
  | _ => .error .panic

/-! ### The routines -/

/-- `ip_freef` of the last queue. -/
def freeLast (s : St B) : St B :=
  match s.ipq.getLast? with
  | none => s
  | some q => { ipq := s.ipq.dropLast, msize := s.msize - q.mem }

/-- What follows the insertion, for a queue between two parts of the list: the datagram is put
together, or the memory is counted. -/
def reassTail (netmemmax : ℤ) (before after : List (Ipq B)) (msize : ℤ) (q : Ipq B)
    (newcnt oldcnt : ℤ) : Except Stop (St B × Option (Datagram B)) :=
  match complete q.frags with
  | some next => do
    let m ← catFrags q.frags
    return ({ ipq := before ++ after, msize := msize - q.mem }, some { len := ushort next, m := m })
  | none =>
    if netmemmax ≤ 0 then .ok ({ ipq := before ++ q :: after, msize := msize }, none)
    else
      let s := { ipq := { q with mem := q.mem + (newcnt - oldcnt) } :: (before ++ after)
                 msize := msize + (newcnt - oldcnt) : St B }
      .ok (if netmemmax < s.msize then freeLast s else s, none)

/-- `ip_reass`; `mget` is the answer of `m_get` for a new queue. -/
def ipReass (netmemmax : ℤ) (s : St B) (k : IpKey) (f : Frag B) (mget : Bool) :
    Except Stop (St B × Option (Datagram B)) :=
  match s.ipq.dropWhile (fun q => q.key ≠ k) with
  | [] =>
    if mget then
      let mem := if netmemmax ≤ 0 then 0 else ipCountMem f.m
      let q := { key := k, ttl := IPFRAGTTL, frags := [{ f with mem := mem }], mem := 0,
                 got := [f] : Ipq B }
      reassTail netmemmax [] s.ipq s.msize q (MSIZE + mem) 0
    else .ok (s, none)
  | q :: after =>
    let before := s.ipq.takeWhile (fun q => q.key ≠ k)
    match insertFrag netmemmax f q.frags with
    | none =>
      .ok ({ s with ipq := before ++ { q with got := q.got ++ [f] } :: after }, none)
    | some (frags, mem, oldcnt) =>
      reassTail netmemmax before after s.msize { q with frags := frags, got := q.got ++ [f] }
        mem oldcnt

/-- `ip_freef` of the queue with these fields, if there is one. -/
def ipFreef (s : St B) (k : IpKey) : St B :=
  match s.ipq.dropWhile (fun q => q.key ≠ k) with
  | [] => s
  | q :: after =>
    { ipq := s.ipq.takeWhile (fun q => q.key ≠ k) ++ after, msize := s.msize - q.mem }

/-- What `ipintr` does with a datagram whose `ip_off` is not 0 or `IP_DF`: `off` is `ip_off` after
the shift, `ip_len` is the length of the chain. -/
def ipInput (netmemmax : ℤ) (s : St B) (k : IpKey) (off : ℤ) (mff : Bool) (m : List (Mbuf B))
    (mget : Bool) : Except Stop (St B × Option (Datagram B)) :=
  if mff ∨ off ≠ 0 then
    ipReass netmemmax s k { off := off, len := (count m).toNat, mff := mff, m := m, mem := 0 } mget
  else .ok (ipFreef s k, some { len := (count m).toNat, m := m })

/-- The loop of `ip_slowtimo`: the queues that stay, and `ipq_msize`. -/
def slowtimoLoop : List (Ipq B) → ℤ → List (Ipq B) × ℤ
  | [], msize => ([], msize)
  | q :: l, msize =>
    -- `ipq_ttl` is an unsigned char
    let ttl := (q.ttl + 255) % 256
    if ttl = 0 then slowtimoLoop l (msize - q.mem)
    else ({ q with ttl := ttl } :: (slowtimoLoop l msize).1, (slowtimoLoop l msize).2)

def ipSlowtimo (s : St B) : St B :=
  { ipq := (slowtimoLoop s.ipq s.msize).1, msize := (slowtimoLoop s.ipq s.msize).2 }

/-- The loop of `ip_drain`. -/
def drainLoop : List (Ipq B) → ℤ → ℤ
  | [], msize => msize
  | q :: l, msize => drainLoop l (msize - q.mem)

def ipDrain (s : St B) : St B := { ipq := [], msize := drainLoop s.ipq s.msize }

/-! ### Runs -/

inductive Act (B : Type)
  | input (k : IpKey) (off : ℤ) (mff : Bool) (m : List (Mbuf B)) (mget : Bool)
  | slowtimo
  | drain

/-- What `ipintr` has checked of a datagram: the chain has as many bytes as `ip_len` says, which is
a 16-bit number, and `ip_off` is one, too. -/
structure GoodInput (off : ℤ) (m : List (Mbuf B)) : Prop where
  ok : OkChain m
  kernel : KernelData m
  nonempty : m ≠ []
  len : count m < 65536
  lo : -32768 ≤ off
  hi : off < 32768

def Act.Enabled : Act B → Prop
  | .input _ off _ m _ => GoodInput off m
  | _ => True

/-- One step, with the datagram that it delivers. -/
def St.next (netmemmax : ℤ) (s : St B) : Act B → Except Stop (St B × Option (Datagram B))
  | .input k off mff m mget => ipInput netmemmax s k off mff m mget
  | .slowtimo => .ok (ipSlowtimo s, none)
  | .drain => .ok (ipDrain s, none)

def lts (B : Type) (netmemmax : ℤ) : Lts (St B) (Act B) where
  init s := s.ipq = [] ∧ s.msize = 0
  step s a s' := a.Enabled ∧ ∃ d, s.next netmemmax a = .ok (s', d)

end Hpux.Net
