import Mathlib

/-!
# Chains of mbufs

An mbuf holds a few bytes itself or refers to a cluster.  The utility routines copy, join, trim,
pull up and cut chains; they allocate with `M_DONTWAIT`, so every allocation can fail.

* `Mbuf`, `bytes` : an mbuf with the storage that it refers to; the bytes of a chain.
* `Stop` : how a routine ends without a result.
* `mCopy`, `mCopydata`, `mCat`, `mAdj`, `mPullup`, `mFrag`, `mCopyNfsLoopback` : the routines.
-/

namespace Hpux.Net

def MSIZE : ℕ := 256

/-- `MMAXOFF`, which is `MLEN` too: where the data of a small mbuf end. -/
def MLEN : ℕ := 224

def MCLBYTES : ℕ := 4096

def MPULL_EXTRA : ℕ := 32

def M_COPYALL : ℤ := 1000000000

/-- `m_cltype`; for a cluster of DUX with `m_sid`, the storage in the other address space and
`m_sid_off`. -/
inductive ClType (B : Type)
  | normal | nfs | dux (sid : Option (List B × ℕ)) | streams | ops | ext
  deriving DecidableEq

/-- What the cluster fields of an mbuf say. -/
structure Cluster (B : Type) where
  cltype : ClType B
  clsize : ℕ
  deriving DecidableEq

/-- An mbuf: `dat` is the storage that it refers to, its own `MLEN` bytes or the cluster, and `off`
is `m_off` counted from the start of that storage. -/
structure Mbuf (B : Type) where
  cl : Option (Cluster B)
  dat : List B
  off : ℕ
  len : ℤ
  deriving DecidableEq

variable {B : Type}

/-- `M_HASCL` -/
def Mbuf.hascl (m : Mbuf B) : Bool := m.cl.isSome

/-- The data of a cluster of DUX that are not in kernel space. -/
def Mbuf.sid (m : Mbuf B) : Option (List B × ℕ) :=
  match m.cl with
  | some { cltype := .dux sid, .. } => sid
  | _ => none

/-- Bytes read at `mtod(m) + i`. -/
def Mbuf.rd (m : Mbuf B) (i n : ℤ) : List B := (m.dat.drop (m.off + i.toNat)).take n.toNat

/-- The bytes of an mbuf. -/
def Mbuf.bytes (m : Mbuf B) : List B :=
  match m.sid with
  | none => m.rd 0 m.len
  | some (d, o) => (d.drop o).take m.len.toNat

/-- The bytes of a chain. -/
def bytes (c : List (Mbuf B)) : List B := c.flatMap Mbuf.bytes

/-- An mbuf without data of its own yet gets these bytes at its start. -/
def Mbuf.fill (m : Mbuf B) (bs : List B) : Mbuf B :=
  { m with dat := bs ++ m.dat.drop bs.length, off := 0, len := bs.length }

/-- Bytes are written behind the data of an mbuf. -/
def Mbuf.append (m : Mbuf B) (bs : List B) : Mbuf B :=
  { m with
    dat := m.dat.take (m.off + m.len.toNat) ++ bs ++ m.dat.drop (m.off + m.len.toNat + bs.length)
    len := m.len + bs.length }

/-- A new mbuf that refers to the same cluster. -/
def Mbuf.share (m : Mbuf B) (off len : ℤ) : Mbuf B :=
  { m with off := m.off + off.toNat, len := len }

/-- A routine ends without a result: it finds no memory, or panics. -/
inductive Stop
  | nobufs
  | panic
  deriving DecidableEq

/-! ### Joining and trimming -/

/-- The loop of `m_cat`: the last mbuf of the first chain, and what is left of the second. -/
def catLoop (m : Mbuf B) : List (Mbuf B) → List (Mbuf B)
  | [] => [m]
  | n :: c =>
    if m.hascl ∨ MLEN ≤ m.off ∨ (MLEN : ℤ) < m.off + m.len + n.len then m :: n :: c
    else catLoop (m.append (n.rd 0 n.len)) c

def mCat : List (Mbuf B) → List (Mbuf B) → Except Stop (List (Mbuf B))
  | [], _ => .error .panic
  | [m], n => .ok (catLoop m n)
  | m :: m' :: c, n => do
    let r ← mCat (m' :: c) n
    return m :: r

/-- `m_adj` with `len >= 0`. -/
def adjFront : List (Mbuf B) → ℤ → List (Mbuf B)
  | [], _ => []
  | m :: c, len =>
    if 0 < len then
      if m.len ≤ len then { m with len := 0 } :: adjFront c (len - m.len)
      else { m with len := m.len - len, off := m.off + len.toNat } :: c
    else m :: c

/-- The sum of the lengths. -/
def count (c : List (Mbuf B)) : ℤ := (c.map Mbuf.len).sum

/-- The second scan of `m_adj` with `len < 0`. -/
def adjTail : List (Mbuf B) → ℤ → List (Mbuf B)
  | [], _ => []
  | m :: c, count =>
    if count ≤ m.len then { m with len := count } :: c.map fun m => { m with len := 0 }
    else m :: adjTail c (count - m.len)

def mAdj (c : List (Mbuf B)) (len : ℤ) : List (Mbuf B) :=
  if 0 ≤ len then adjFront c len
  else
    match c.getLast? with
    | none => []
    | some m =>
      if -len ≤ m.len then c.dropLast ++ [{ m with len := m.len - -len }]
      else adjTail c (count c - -len)

/-! ### Allocation -/

/-- The next answer of the allocator; no answer left means that there is no memory. -/
def malloc : List Bool → Except Stop (List Bool)
  | true :: mem => .ok mem
  | _ => .error .nobufs

/-- A new mbuf of `MGET`. -/
def smallMbuf [Inhabited B] : Mbuf B where
  cl := none
  dat := List.replicate MLEN default
  off := 0
  len := 0

/-- `MCLADD(m, p, MCLBYTES, MCLBYTES, MCL_NORMAL)` -/
def normalMbuf [Inhabited B] : Mbuf B where
  cl := some { cltype := .normal, clsize := MCLBYTES }
  dat := List.replicate MCLBYTES default
  off := 0
  len := MCLBYTES

/-! ### Copying -/

/-- `mclcopy_dux` -/
def mclcopyDux [Inhabited B] (m : Mbuf B) (off len : ℤ) (mem : List Bool) :
    Except Stop (Mbuf B × List Bool) := do
  let mem ← malloc mem
  let n := min len (m.len - off)
  -- the length is compared as an unsigned number
  if n < 0 ∨ (MCLBYTES : ℤ) < n then .error .panic
  match m.sid with
  | some (d, o) => return (normalMbuf.fill ((d.drop (o + off.toNat)).take n.toNat), mem)
  | none => return (normalMbuf.fill (m.rd off n), mem)

/-- The skipping of mbufs before `off`, in `m_copy` and `m_copydata`. -/
def skipOff : List (Mbuf B) → ℤ → Except Stop (List (Mbuf B) × ℤ)
  | [], off => if 0 < off then .error .panic else .ok ([], off)
  | m :: c, off =>
    if 0 < off then if off < m.len then .ok (m :: c, off) else skipOff c (off - m.len)
    else .ok (m :: c, off)

/-- The part of a new mbuf of `m_copy` that depends on the mbuf copied. -/
def copyMbuf [Inhabited B] (m : Mbuf B) (off len : ℤ) (mem : List Bool) :
    Except Stop (Mbuf B × List Bool) :=
  let n := min len (m.len - off)
  match m.cl with
  | none => .ok (smallMbuf.fill (m.rd off n), mem)
  | some { cltype := .dux _, .. } => mclcopyDux m off len mem
  | some _ => .ok (m.share off n, mem)

/-- The loop of `m_copy`. -/
def mCopyLoop [Inhabited B] : List (Mbuf B) → ℤ → ℤ → List Bool → Except Stop (List (Mbuf B))
  | [], _, len, _ => if 0 < len ∧ len ≠ M_COPYALL then .error .panic else .ok []
  | m :: c, off, len, mem =>
    if 0 < len then do
      let mem ← malloc mem
      let (n, mem) ← copyMbuf m off len mem
      let r ← mCopyLoop c 0 (if len ≠ M_COPYALL then len - n.len else len) mem
      return n :: r
    else .ok []

def mCopy [Inhabited B] (m : List (Mbuf B)) (off len : ℤ) (mem : List Bool) :
    Except Stop (List (Mbuf B)) :=
  if len = 0 then .ok []
  else if len < 0 ∨ off < 0 then .error .panic
  else do
    let (m, off) ← skipOff m off
    mCopyLoop m off len mem

/-- The loop of `m_copydata`. -/
def copydataLoop : List (Mbuf B) → ℤ → ℤ → Except Stop (List B)
  | [], _, len => if 0 < len then .error .panic else .ok []
  | m :: c, off, len =>
    if 0 < len then do
      let count := min (m.len - off) len
      let r ← copydataLoop c 0 (len - count)
      return m.rd off count ++ r
    else .ok []

/-- The result is what is written at `cp`. -/
def mCopydata (m : List (Mbuf B)) (off len : ℤ) : Except Stop (List B) :=
  if off < 0 ∨ len < 0 then .error .panic
  else do
    let (m, off) ← skipOff m off
    copydataLoop m off len

/-- The rounds of `mbufcopy_nfs`, with the bytes left and the offset. -/
def copyNfsLoop [Inhabited B] (m : Mbuf B) (left : ℕ) (off : ℤ) (mem : List Bool) :
    Except Stop (List (Mbuf B) × List Bool) :=
  if _h : left = 0 then .ok ([], mem)
  else do
    let mem ← malloc mem
    let mem ← if MLEN * 2 < left then malloc mem else .ok mem
    let n := if MLEN * 2 < left then min left MCLBYTES else min left MLEN
    let new := if MLEN * 2 < left then normalMbuf.fill (m.rd off n) else smallMbuf.fill (m.rd off n)
    let (r, mem) ← copyNfsLoop m (left - n) (off + n) mem
    return (new :: r, mem)
termination_by left
decreasing_by
  show left - n < left
  dsimp only [n]
  unfold MLEN MCLBYTES
  split_ifs <;> omega

/-- The result `[]` stands for a null pointer. -/
def mbufcopyNfs [Inhabited B] (m : Mbuf B) (mem : List Bool) :
    Except Stop (List (Mbuf B) × List Bool) :=
  if m.len < 0 then .error .panic else copyNfsLoop m m.len.toNat 0 mem

/-- The copy of a chain in `m_copy_nfs_loopback`; `none` is a null pointer. -/
def copyChainNfs [Inhabited B] : List (Mbuf B) → List Bool →
    Except Stop (Option (List (Mbuf B)) × List Bool)
  | [], mem => .ok (some [], mem)
  | m :: c, mem => do
    let (n, mem) ← mbufcopyNfs m mem
    if n.isEmpty then return (none, mem)
    let (r, mem) ← copyChainNfs c mem
    return (r.map (n ++ ·), mem)

/-- The chains of a train, which `m_act` links, each with its mbufs. -/
def mCopyNfsLoopback [Inhabited B] : List (List (Mbuf B)) → List Bool →
    Except Stop (Option (List (List (Mbuf B))) × List Bool)
  | [], mem => .ok (some [], mem)
  | c :: t, mem => do
    let (n, mem) ← copyChainNfs c mem
    match n with
    | none => return (none, mem)
    | some n =>
      let (r, mem) ← mCopyNfsLoopback t mem
      return (r.map (n :: ·), mem)

/-! ### Pulling up and cutting -/

/-- How `m_pullup` ends: with a null pointer and so many calls of `m_free`, or with a chain. -/
inductive Pulled (B : Type)
  | null (freed : ℕ)
  | chain (c : List (Mbuf B))

/-- The loop of `m_pullup`: the mbuf that is filled, the chain that is left, `len` and the mbufs
freed; `none` when it never ends. -/
def pullupLoop (space : ℤ) (m : Mbuf B) :
    List (Mbuf B) → ℤ → Option (Mbuf B × List (Mbuf B) × ℤ × ℕ)
  | [], len => some (m, [], len, 0)
  | n :: c, len =>
    let count := min (min (space - m.len) (len + MPULL_EXTRA)) n.len
    let m := m.append (n.rd 0 count)
    if n.len - count ≠ 0 then
      -- there is no room in `m` for more
      if 0 < len - count then none
      else some (m, { n with len := n.len - count, off := n.off + count.toNat } :: c, len - count, 0)
    else if 0 < len - count then
      (pullupLoop space m c (len - count)).map fun r => (r.1, r.2.1, r.2.2.1, r.2.2.2 + 1)
    else some (m, c, len - count, 1)

/-- What `m_pullup` does after the loop. -/
def pulled (m : Mbuf B) (c : List (Mbuf B)) (len : ℤ) (freed : ℕ) : Pulled B :=
  if 0 < len then .null (freed + 1 + c.length) else .chain (m :: c)

/-- The data of a small mbuf are moved to its start when they are not aligned or there is no room
for `len` bytes. -/
def realign (wordAligned : ℕ) (n : Mbuf B) (len : ℤ) : Mbuf B :=
  if n.off &&& wordAligned ≠ 0 ∨ (MLEN : ℤ) < n.off + len then
    { n with dat := n.rd 0 n.len ++ n.dat.drop n.len.toNat, off := 0 }
  else n

/-- How `m_frag` ends: with the chain that the argument still refers to, the one returned, and the
residual number, or with `-1` and what the argument refers to. -/
inductive Cut (B : Type)
  | cut (front rest : List (Mbuf B)) (resid : ℤ)
  | error (c : List (Mbuf B))

/-- `wordAligned` is `WORD_ALIGNED`, which depends on the machine. -/
def mPullup [Inhabited B] (wordAligned : ℕ) (c : List (Mbuf B)) (len : ℤ) (mem : List Bool) :
    Option (Pulled B) :=
  match c with
  | [] => none
  | n :: c =>
    if (MLEN : ℤ) < len then some (.null (c.length + 1))
    else if n.hascl then
      match malloc mem with
      | .error _ => some (.null (c.length + 1))
      | .ok _ =>
        (pullupLoop MLEN smallMbuf (n :: c) len).map fun r => pulled r.1 r.2.1 r.2.2.1 r.2.2.2
    else
      let m := realign wordAligned n len
      if c.isEmpty then some (.chain [m])
      else if len - m.len ≤ 0 then some (.chain (m :: c))
      else
        (pullupLoop (MLEN - m.off) m c (len - m.len)).map fun r => pulled r.1 r.2.1 r.2.2.1 r.2.2.2

/-- The copy that `m_frag` makes of the mbuf `p`, whose length it has already changed. -/
def fragMbuf [Inhabited B] (p : Mbuf B) (resid len : ℤ) (mem : List Bool) : Except Stop (Mbuf B) :=
  match p.cl with
  | none => .ok (smallMbuf.fill (p.rd resid len))
  | some { cltype := .dux _, .. } => (mclcopyDux p resid len mem).map Prod.fst
  | some _ => .ok (p.share resid len)

/-- The scan of `m_frag` and what follows it, with the mbufs that it has passed. -/
def fragScan [Inhabited B] (maxresid : ℤ) (mask : ℕ) (mem : List Bool) (before : List (Mbuf B)) :
    List (Mbuf B) → ℤ → Except Stop (Cut B)
  | [], resid => .ok (.cut before [] resid)
  | m :: c, resid =>
    if m.len ≤ resid then fragScan maxresid mask mem (before ++ [m]) c (resid - m.len)
    else if resid = 0 then .ok (.cut before (m :: c) 0)
    else if resid ≤ maxresid ∧ resid.toNat &&& mask = 0 ∧ before ≠ [] then
      .ok (.cut before (m :: c) resid)
    else
      match malloc mem with
      | .error _ => .ok (.error (before ++ m :: c))
      | .ok mem =>
        let p := { m with len := resid }
        match fragMbuf p resid (m.len - resid) mem with
        | .ok n => .ok (.cut (before ++ [p]) (n :: c) 0)
        | .error .nobufs => .ok (.error (before ++ p :: c))
        | .error .panic => .error .panic

def mFrag [Inhabited B] (c : List (Mbuf B)) (residp maxresid : ℤ) (mask : ℕ) (mem : List Bool) :
    Except Stop (Cut B) :=
  if residp = 0 then .ok (.cut c c 0)
  else if residp < 0 ∨ maxresid < 0 ∨ residp ≤ maxresid then .error .panic
  else fragScan maxresid mask mem [] c residp

end Hpux.Net
