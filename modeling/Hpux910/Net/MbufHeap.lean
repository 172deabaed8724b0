import Hpux910.Lib.Lts
import Hpux910.Net.IpReass
import Mathlib

/-!
# Mbufs in memory

Here an mbuf is a piece of memory with an address, because a cluster is shared by all mbufs that refer
to it and counted in the first of them.  That one stays allocated, marked free, until the last of the
others is freed.

* `CType`, `Cell`, `Heap` : the types of clusters, an mbuf in memory, and the memory with the storage
  that clusters hold.
* `Fault` : a routine refuses its arguments, or memory is used or given back wrongly.
* `mtocl` : the macro `MTOCL`.
* `mFree`, `mFreem` : giving back.
* `mget`, `mclget`, `mclgetvar`, `mclgetx`, `mclgetDux`, `mcladd` : mbufs and their clusters.
* `mCopyH`, `mAdjH`, `mPullupH`, `mFragH` : the routines on chains, as far as lengths, offsets and
  clusters go.
* `MAct`, `mbufLts` : all of them in any order.
-/

namespace Hpux.Net

/-- `m_cltype` -/
inductive CType
  | normal | nfs | dux | streams | ops | ext
  deriving DecidableEq

/-- `struct mbuf`: `pos` is the address `mtod(m)` when there is a cluster and `m_off` otherwise, and
`clfun` is `m_clfun`, `m_dux_clfun`, `m_osx_clfun`, `m_ext_clfun` or `m_ops_ops`.  What `base` and `lim`
say is not stored: where the storage of the cluster begins, and where that of the data ends. -/
structure Cell where
  free : Bool
  hascl : Bool
  pos : ℕ
  len : ℤ
  cltype : CType
  clsize : ℕ
  head : ℕ
  refcnt : ℤ
  clfun : Option ℕ
  clarg : ℕ
  base : ℕ
  lim : ℤ
  deriving DecidableEq

/-- Storage of a cluster: allocated memory, or what a function gives back. -/
inductive Storage
  | block (p : ℕ)
  | fn (f arg : ℕ)
  deriving DecidableEq

/-- The mbufs in memory, and the storage that clusters hold.  Which mbufs are the first of a cluster in
use is not stored. -/
structure Heap where
  mem : ℕ → Option Cell
  held : List Storage
  clusters : List ℕ

/-- A routine panics because of its arguments; or an mbuf that is not in memory or marked free is used,
or storage given back that no cluster holds. -/
inductive Fault
  | panic
  | corrupt
  deriving DecidableEq

/-- What `MGET` makes of the memory at an address. -/
def Cell.new : Cell where
  free := false
  hascl := false
  pos := 0
  len := 0
  cltype := .normal
  clsize := 0
  head := 0
  refcnt := 0
  clfun := none
  clarg := 0
  base := 0
  lim := MLEN

namespace Heap

def get (s : Heap) (a : ℕ) : Except Fault Cell :=
  match s.mem a with
  | none => .error .corrupt
  | some c => .ok c

def set (s : Heap) (a : ℕ) (c : Cell) : Heap := { s with mem := Function.update s.mem a (some c) }

/-- `MBUF_FREE` -/
def mbufFree (s : Heap) (a : ℕ) : Except Fault Heap :=
  match s.mem a with
  | none => .error .corrupt
  | some _ => .ok { s with mem := Function.update s.mem a none }

/-- The storage of the cluster of `n` is given back. -/
def giveBack (s : Heap) (n : ℕ) (t : Storage) : Except Fault Heap :=
  if t ∈ s.held then .ok { s with held := s.held.erase t, clusters := s.clusters.erase n }
  else .error .corrupt

/-- `MTOCL`, where `&~ (m_clsize - 1)` is taken in 32 bits. -/
def mtocl (c : Cell) : ℕ := c.pos &&& (4294967296 - c.clsize)

/-- What is done with the storage when the count in `n` gets to 0. -/
def release (s : Heap) (n : ℕ) (c : Cell) : Except Fault Heap :=
  match c.cltype with
  | .normal => s.giveBack n (.block (mtocl c))
  | .streams | .ext =>
    match c.clfun with
    | none => .ok { s with clusters := s.clusters.erase n }
    | some f => s.giveBack n (.fn f c.clarg)
  | .nfs | .ops | .dux =>
    match c.clfun with
    | none => .error .corrupt
    | some f => s.giveBack n (.fn f c.clarg)

/-- The head of a cluster is marked free and kept; for two types `m_off` is set to `MMINOFF`. -/
def zombie (c : Cell) : Cell :=
  match c.cltype with
  | .streams | .nfs => { c with free := true, hascl := false, pos := 0 }
  | _ => { c with free := true }

/-- `m_free` -/
def mFree (s : Heap) (m : ℕ) : Except Fault Heap := do
  let c ← s.get m
  if c.free then .error .corrupt
  else if c.hascl then
    if c.cltype = .dux then do
      let s ← s.release m c
      s.mbufFree m
    else do
      let n := c.head
      let h ← s.get n
      let h := { h with refcnt := h.refcnt - 1 }
      let s := s.set n h
      if h.refcnt = 0 then do
        let s ← s.release n { h with cltype := c.cltype }
        let s ← if n ≠ m then s.mbufFree n else .ok s
        s.mbufFree m
      else if n = m then .ok (s.set m (zombie h))
      else s.mbufFree m
  else s.mbufFree m

/-- `m_freem` -/
def mFreem (s : Heap) : List ℕ → Except Fault Heap
  | [] => .ok s
  | m :: c => do
    let s ← s.mFree m
    s.mFreem c

/-! ### Allocation -/

/-- `MGET`, where the list is what the allocator answers: an answer that is not free memory stands for
none. -/
def mget (s : Heap) : List (Option ℕ) → Option (ℕ × Heap × List (Option ℕ))
  | some a :: ans => if s.mem a = none then some (a, s.set a Cell.new, ans) else none
  | _ => none

/-- `MALLOC` of a cluster: the blocks of a size are aligned to it. -/
def mclalloc (s : Heap) (clsize : ℕ) : List (Option ℕ) → Option (ℕ × List (Option ℕ))
  | some p :: ans =>
    if p % clsize = 0 ∧ p + clsize ≤ 4294967296 ∧ .block p ∉ s.held then some (p, ans) else none
  | _ => none

/-- `MCLADD` -/
def mcladd (c : Cell) (m p : ℕ) (len : ℤ) (clsize : ℕ) (t : CType) : Cell :=
  { c with
    hascl := true
    pos := p
    len := len
    head := m
    refcnt := 1
    cltype := t
    clsize := clsize
    base := p
    lim := p + clsize }

/-- The storage that a cluster holds. -/
def token (c : Cell) : Option Storage :=
  match c.cltype with
  | .normal => some (.block c.base)
  | _ => c.clfun.map fun f => .fn f c.clarg

/-- The mbuf `m` becomes the first one of a cluster. -/
def attach (s : Heap) (m : ℕ) (c : Cell) : Heap :=
  { mem := Function.update s.mem m (some c)
    held := (token c).toList ++ s.held
    clusters := m :: s.clusters }

/-- `MCLALLOCVAR` and `MCLADD`; `MCLGET` is the case of `MCLBYTES`. -/
def mclgetSize (s : Heap) (m : ℕ) (c : Cell) (len : ℤ) (clsize : ℕ) (ans : List (Option ℕ)) :
    Heap × List (Option ℕ) :=
  match s.mclalloc clsize ans with
  | some (p, ans) => (s.attach m (mcladd c m p len clsize .normal), ans)
  | none => (s.set m { c with len := MLEN }, ans)

/-- `MCLGET` -/
def mclget (s : Heap) (m : ℕ) (c : Cell) (ans : List (Option ℕ)) : Heap × List (Option ℕ) :=
  s.mclgetSize m c MCLBYTES MCLBYTES ans

/-- The size that `MCLALLOCVAR` chooses. -/
def clsizeFor (len : ℤ) : ℕ :=
  if (MCLBYTES / 4 : ℕ) < len then if (MCLBYTES / 2 : ℕ) < len then MCLBYTES else MCLBYTES / 2
  else if (MCLBYTES / 8 : ℕ) < len then MCLBYTES / 4 else MCLBYTES / 8

/-- `MCLGETVAR_DONTWAIT` -/
def mclgetvar (s : Heap) (m : ℕ) (c : Cell) (len : ℤ) (ans : List (Option ℕ)) :
    Heap × List (Option ℕ) :=
  s.mclgetSize m c len (clsizeFor len) ans

/-- The rest of `mclgetx` and `mclget_dux`: an mbuf for data that someone else owns.  For `MCL_DUX` the
head and the count are not used. -/
def largebuf (t : CType) (m f arg addr len : ℕ) : Cell :=
  { Cell.new with
    hascl := true
    pos := addr
    len := len
    cltype := t
    clsize := ushort len
    head := m
    refcnt := 1
    clfun := some f
    clarg := arg
    base := addr
    lim := addr + len }

/-! ### Routines on chains -/

/-- The skipping of mbufs before `off`. -/
def skipOffH (s : Heap) : List ℕ → ℤ → Except Fault (List ℕ × ℤ)
  | [], off => if 0 < off then .error .panic else .ok ([], off)
  | m :: c, off =>
    if 0 < off then do
      let mc ← s.get m
      if off < mc.len then return (m :: c, off)
      s.skipOffH c (off - mc.len)
    else .ok (m :: c, off)

/-- `mclcopy_dux`, which returns 1 when there is no memory. -/
def mclcopyDuxH (s : Heap) (mc : Cell) (off len : ℤ) (n : ℕ) (nc : Cell) (ans : List (Option ℕ)) :
    Except Fault (Heap × Bool × List (Option ℕ)) := do
  let (s, ans) := s.mclget n nc ans
  let nc ← s.get n
  if nc.len = MLEN then return (s, true, ans)
  let l := min len (mc.len - off)
  -- the length is compared as an unsigned number
  if l < 0 ∨ (MCLBYTES : ℤ) < l then .error .panic
  return (s.set n { nc with len := l }, false, ans)

/-- What `m_copy` and `m_frag` do to the new mbuf `n` for `l` bytes from `off` on in the mbuf `m`;
`true` when there is no memory. -/
def referTo (s : Heap) (m : ℕ) (off len l : ℤ) (n : ℕ) (ans : List (Option ℕ)) :
    Except Fault (Heap × Bool × List (Option ℕ)) := do
  let mc ← s.get m
  let nc ← s.get n
  let nc := { nc with len := l }
  if mc.hascl then
    let nc := { nc with clsize := mc.clsize, cltype := mc.cltype }
    if mc.cltype ≠ .dux then do
      let s := s.set n { nc with
        hascl := true
        pos := mc.pos + off.toNat
        head := mc.head
        lim := mc.lim }
      let h ← s.get mc.head
      return (s.set mc.head { h with refcnt := h.refcnt + 1 }, false, ans)
    else s.mclcopyDuxH mc off len n nc ans
  else return (s.set n nc, false, ans)

/-- The loop of `m_copy`, with what it has copied so far; `none` is a null pointer. -/
def mCopyLoopH (s : Heap) (top : List ℕ) : List ℕ → ℤ → ℤ → List (Option ℕ) →
    Except Fault (Heap × Option (List ℕ))
  | [], _, len, _ => if 0 < len ∧ len ≠ M_COPYALL then .error .panic else .ok (s, some top)
  | m :: c, off, len, ans =>
    if 0 < len then
      match s.mget ans with
      | none => do
        let s ← s.mFreem top
        return (s, none)
      | some (n, s, ans) => do
        let mc ← s.get m
        let l := min len (mc.len - off)
        let (s, failed, ans) ← s.referTo m off len l n ans
        if failed then do
          let s ← s.mFreem (top ++ [n])
          return (s, none)
        else
          s.mCopyLoopH (top ++ [n]) c 0 (if len ≠ M_COPYALL then len - l else len) ans
    else .ok (s, some top)

/-- `m_copy` -/
def mCopyH (s : Heap) (m : List ℕ) (off len : ℤ) (ans : List (Option ℕ)) :
    Except Fault (Heap × Option (List ℕ)) :=
  if len = 0 then .ok (s, none)
  else if len < 0 ∨ off < 0 then .error .panic
  else do
    let (m, off) ← s.skipOffH m off
    s.mCopyLoopH [] m off len ans

/-- `m_adj` with `len >= 0`. -/
def adjFrontH (s : Heap) : List ℕ → ℤ → Except Fault Heap
  | [], _ => .ok s
  | m :: c, len =>
    if 0 < len then do
      let mc ← s.get m
      if mc.len ≤ len then (s.set m { mc with len := 0 }).adjFrontH c (len - mc.len)
      else return s.set m { mc with len := mc.len - len, pos := mc.pos + len.toNat }
    else .ok s

/-- The sum of the lengths. -/
def countH (s : Heap) : List ℕ → Except Fault ℤ
  | [] => .ok 0
  | m :: c => do
    let mc ← s.get m
    let n ← s.countH c
    return mc.len + n

def zeroH (s : Heap) : List ℕ → Except Fault Heap
  | [] => .ok s
  | m :: c => do
    let mc ← s.get m
    (s.set m { mc with len := 0 }).zeroH c

/-- The second scan of `m_adj` with `len < 0`. -/
def adjTailH (s : Heap) : List ℕ → ℤ → Except Fault Heap
  | [], _ => .ok s
  | m :: c, count => do
    let mc ← s.get m
    if count ≤ mc.len then (s.set m { mc with len := count }).zeroH c
    else s.adjTailH c (count - mc.len)

/-- `m_adj` -/
def mAdjH (s : Heap) (c : List ℕ) (len : ℤ) : Except Fault Heap :=
  if 0 ≤ len then s.adjFrontH c len
  else
    match c.getLast? with
    | none => .ok s
    | some m => do
      let mc ← s.get m
      if -len ≤ mc.len then return s.set m { mc with len := mc.len - -len }
      let count ← s.countH c
      s.adjTailH c (count - -len)

/-- The loop of `m_pullup`: what is left of the chain, and `len`; `none` when it never ends. -/
def pullupLoopH (s : Heap) (space : ℤ) (m : ℕ) :
    List ℕ → ℤ → Except Fault (Option (Heap × List ℕ × ℤ))
  | [], len => .ok (some (s, [], len))
  | n :: c, len => do
    let mc ← s.get m
    let nc ← s.get n
    let count := min (min (space - mc.len) (len + MPULL_EXTRA)) nc.len
    let s := s.set m { mc with len := mc.len + count }
    if nc.len - count ≠ 0 then
      let s := s.set n { nc with len := nc.len - count, pos := nc.pos + count.toNat }
      -- there is no room in `m` for more
      if 0 < len - count then return none else return some (s, n :: c, len - count)
    else do
      let s ← (s.set n { nc with len := nc.len - count }).mFree n
      if 0 < len - count then s.pullupLoopH space m c (len - count)
      else return some (s, c, len - count)

/-- What `m_pullup` does after the loop. -/
def pulledH (m : ℕ) : Option (Heap × List ℕ × ℤ) → Except Fault (Option (Heap × Option (List ℕ)))
  | none => .ok none
  | some (s, n, len) =>
    if 0 < len then do
      let s ← s.mFree m
      let s ← s.mFreem n
      return some (s, none)
    else .ok (some (s, some (m :: n)))

/-- `m_pullup`; the inner `none` is a null pointer, the outer one stands for a loop without end. -/
def mPullupH (s : Heap) (wordAligned : ℕ) (c : List ℕ) (len : ℤ) (ans : List (Option ℕ)) :
    Except Fault (Option (Heap × Option (List ℕ))) :=
  match c with
  | [] => .error .corrupt
  | n :: c =>
    if (MLEN : ℤ) < len then do
      let s ← s.mFreem (n :: c)
      return some (s, none)
    else do
      let nc ← s.get n
      if nc.hascl then
        match s.mget ans with
        | none => do
          let s ← s.mFreem (n :: c)
          return some (s, none)
        | some (m, s, _) => do
          let r ← s.pullupLoopH MLEN m (n :: c) len
          pulledH m r
      else do
        let mc := if nc.pos &&& wordAligned ≠ 0 ∨ (MLEN : ℤ) < nc.pos + len then { nc with pos := 0 }
          else nc
        let s := s.set n mc
        if c.isEmpty then return some (s, some [n])
        else if len - mc.len ≤ 0 then return some (s, some (n :: c))
        else do
          let r ← s.pullupLoopH (MLEN - mc.pos) n c (len - mc.len)
          pulledH n r

/-- How `m_frag` ends: with the two parts of the chain, or with `-1` and the chain. -/
inductive CutH
  | cut (front rest : List ℕ)
  | error (c : List ℕ)
  deriving DecidableEq

/-- The scan of `m_frag` and what follows it, with the mbufs that it has passed. -/
def fragScanH (s : Heap) (maxresid : ℤ) (mask : ℕ) (ans : List (Option ℕ)) (before : List ℕ) :
    List ℕ → ℤ → Except Fault (Heap × CutH)
  | [], _ => .ok (s, .cut before [])
  | m :: c, resid => do
    let mc ← s.get m
    if mc.len ≤ resid then s.fragScanH maxresid mask ans (before ++ [m]) c (resid - mc.len)
    else if resid = 0 then return (s, .cut before (m :: c))
    else if resid ≤ maxresid ∧ resid.toNat &&& mask = 0 ∧ before ≠ [] then
      return (s, .cut before (m :: c))
    else
      match s.mget ans with
      | none => return (s, .error (before ++ m :: c))
      | some (n, s, ans) => do
        let s := s.set m { mc with len := resid }
        let (s, failed, _) ← s.referTo m resid (mc.len - resid) (mc.len - resid) n ans
        if failed then do
          let s ← s.mFree n
          return (s, .error (before ++ m :: c))
        else return (s, .cut (before ++ [m]) (n :: c))

/-- `m_frag`; with `*residp == 0` both results are the chain itself. -/
def mFragH (s : Heap) (c : List ℕ) (residp maxresid : ℤ) (mask : ℕ) (ans : List (Option ℕ)) :
    Except Fault (Heap × CutH) :=
  if residp = 0 then .ok (s, .cut [] c)
  else if residp < 0 ∨ maxresid < 0 ∨ residp ≤ maxresid then .error .panic
  else s.fragScanH maxresid mask ans [] c residp

end Heap

/-! ### Any order of calls -/

/-- The memory, and the chains that its users have. -/
structure MSys where
  heap : Heap
  chains : List (List ℕ)

/-- The calls.  `setLen` is a user that says how much data an mbuf has, `relink` one that puts chains
together or takes them apart. -/
inductive MAct
  | mget (ans : Option ℕ)
  | mclget (m : ℕ) (ans : Option ℕ)
  | mclgetvar (m : ℕ) (len : ℤ) (ans : Option ℕ)
  | mclgetx (ans : Option ℕ) (f arg addr len : ℕ)
  | mclgetDux (ans : Option ℕ) (f arg addr len : ℕ)
  | mcladd (m p : ℕ) (len : ℤ) (clsize : ℕ) (t : CType) (f : Option ℕ) (arg : ℕ)
  | setLen (m : ℕ) (len : ℤ)
  | relink (chains : List (List ℕ))
  | copy (c : List ℕ) (off len : ℤ) (ans : List (Option ℕ))
  | adj (c : List ℕ) (len : ℤ)
  | pullup (c : List ℕ) (len : ℤ) (ans : List (Option ℕ))
  | frag (c : List ℕ) (residp maxresid : ℤ) (mask : ℕ) (ans : List (Option ℕ))
  | free (m : ℕ) (c : List ℕ)

/-- An mbuf of a chain that has no cluster, with `m_off` as `MGET` leaves it. -/
def MSys.Small (s : MSys) (m : ℕ) : Prop :=
  m ∈ s.chains.flatten ∧ ∀ c, s.heap.mem m = some c → c.hascl = false ∧ c.pos = 0

/-- What a user takes care of: chains are its own, a cluster goes to an mbuf that has none and is large
enough, lengths are those of the storage. -/
def MAct.Enabled (s : MSys) : MAct → Prop
  | .mget _ | .mclgetx _ _ _ _ _ | .mclgetDux _ _ _ _ _ => True
  | .mclget m _ => s.Small m
  | .mclgetvar m len _ => s.Small m ∧ 0 ≤ len ∧ len ≤ MCLBYTES
  | .mcladd m _ len clsize t f _ => s.Small m ∧ len ≤ clsize ∧
      (t = .streams ∨ t = .ext ∨ t = .ops ∧ f ≠ none)
  | .setLen m len => m ∈ s.chains.flatten ∧ ∀ c, s.heap.mem m = some c → c.pos + len ≤ c.lim
  | .relink chains => chains.flatten.Perm s.chains.flatten
  | .copy c _ _ _ | .adj c _ | .frag c _ _ _ _ => c ∈ s.chains
  | .pullup c len _ => c ∈ s.chains ∧ c ≠ [] ∧ 0 ≤ len
  | .free m c => m :: c ∈ s.chains

/-- A new mbuf with contents. -/
def MSys.fresh (s : MSys) (ans : Option ℕ) (c : ℕ → Cell → Heap → Heap) : MSys :=
  match s.heap.mget [ans] with
  | none => s
  | some (m, h, _) => { heap := c m Cell.new h, chains := [m] :: s.chains }

/-- The calls on the memory; `none` for a loop without end. -/
def MSys.run (w : ℕ) (s : MSys) : MAct → Except Fault (Option MSys)
  | .mget ans => .ok (some (s.fresh ans fun _ _ h => h))
  | .mclgetx ans f arg addr len =>
    .ok (some (s.fresh ans fun m _ h => h.attach m (Heap.largebuf .nfs m f arg addr len)))
  | .mclgetDux ans f arg addr len =>
    .ok (some (s.fresh ans fun m _ h => h.attach m (Heap.largebuf .dux m f arg addr len)))
  | .mclget m ans => do
    let c ← s.heap.get m
    return some { s with heap := (s.heap.mclget m c [ans]).1 }
  | .mclgetvar m len ans => do
    let c ← s.heap.get m
    return some { s with heap := (s.heap.mclgetvar m c len [ans]).1 }
  | .mcladd m p len clsize t f arg => do
    let c ← s.heap.get m
    return some { s with
      heap := s.heap.attach m { Heap.mcladd c m p len clsize t with clfun := f, clarg := arg } }
  | .setLen m len => do
    let c ← s.heap.get m
    return some { s with heap := s.heap.set m { c with len := len } }
  | .relink chains => .ok (some { s with chains := chains })
  | .copy c off len ans => do
    let (h, r) ← s.heap.mCopyH c off len ans
    return some { heap := h, chains := r.toList ++ s.chains }
  | .adj c len => do
    let h ← s.heap.mAdjH c len
    return some { s with heap := h }
  | .pullup c len ans => do
    let r ← s.heap.mPullupH w c len ans
    return r.map fun r => { heap := r.1, chains := r.2.toList ++ s.chains.erase c }
  | .frag c residp maxresid mask ans => do
    let (h, r) ← s.heap.mFragH c residp maxresid mask ans
    match r with
    | .cut front rest => return some { heap := h, chains := front :: rest :: s.chains.erase c }
    | .error c' => return some { heap := h, chains := c' :: s.chains.erase c }
  | .free m c => do
    let h ← s.heap.mFree m
    return some { heap := h, chains := c :: s.chains.erase (m :: c) }

end Hpux.Net
