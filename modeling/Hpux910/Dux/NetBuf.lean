import Hpux910.Lib.PageMap
import Mathlib

/-!
# Network buffers

`netbuf.c` keeps a reserve of buffers that can be had under interrupt.  A buffer has a range of
virtual pages, and the first `b_bufsize` bytes of it are mapped.  When no buffer on the list is
large enough, `buf_syncgeteblk` takes the first, moves it to a larger range of addresses, and strips
pages from the tails of the others, from the end of the list on.

* `Buf`, `State` : the buffers, the list of the free ones, the page table and the free ranges.
* `pagemove`, `bfget`, `bffree` : what the routines use.
* `brelseToNet`, `duxAdjustVirtsize`, `bufSyncgeteblk` : the routines.
* `Good` : what holds of a free list.
* `Conserves` : what a call should do.
* `Tiles` : the condition under which it does.
-/

namespace Hpux.NetBuf

variable {B P : Type} [DecidableEq B]

def NBPG : ℕ := 4096

def btop (x : ℕ) : ℕ := x / NBPG

/-- The bits of `b_flags` that are used. -/
inductive Flag
  | BUSY | INVAL | NETBUF | DUX_REM_REQ
  deriving DecidableEq

/-- `struct buf` -/
structure Buf where
  /-- `b_un.b_addr` -/
  addr : ℕ
  /-- `b_bufsize`, in bytes -/
  bufsize : ℕ
  /-- `b_virtsize`, in pages -/
  virtsize : ℕ
  flags : Flag → Bool

structure State (B P : Type) where
  buf : B → Buf
  /-- `net_bchain` -/
  chain : List B
  /-- The frame of a virtual page of the kernel. -/
  pte : ℕ → Option P
  /-- The virtual pages that `BUFMAP` has. -/
  vfree : ℕ → Bool
  /-- `dux_mbstat.m_nbfree` -/
  nbfree : ℤ
  /-- `dux_mbstat.m_freepages` -/
  freepages : ℤ
  curDuxReqBufs : ℤ
  curDuxReqBufmem : ℤ
  wantDuxReqBuf : Bool

namespace State

variable (s : State B P)

def setBuf (bp : B) (b : Buf) : State B P := { s with buf := Function.update s.buf bp b }

/-- `pagemove`; `none` is its panic. -/
def pagemove (src dst size : ℕ) : Option (State B P) :=
  if size % NBPG ≠ 0 then none
  else some { s with pte := movePages (size / NBPG) s.pte (src / NBPG) (dst / NBPG) }

/-- `bfget`; `ans` is the range that `rmalloc` finds. -/
def bfget (size : ℕ) (ans : Option ℕ) : Option (ℕ × State B P) :=
  match ans with
  | none => none
  | some p =>
    if size ≠ 0 ∧ p ≠ 0 ∧ ∀ i < size, s.vfree (p + i) = true then
      some (p * NBPG,
        { s with vfree := fun v => if p ≤ v ∧ v < p + size then false else s.vfree v })
    else none

/-- `bffree` -/
def bffree (va size : ℕ) : State B P :=
  { s with vfree := fun v => if btop va ≤ v ∧ v < btop va + size then true else s.vfree v }

/-- `brelse_to_net`; the wakeup of a sleeper is left out.  The result is what it returns. -/
def brelseToNet (bp : B) : State B P × Bool :=
  let b := s.buf bp
  if b.flags .DUX_REM_REQ then
    ({ s.setBuf bp { b with flags := fun f =>
          if f = .NETBUF ∨ f = .DUX_REM_REQ then false else b.flags f } with
        curDuxReqBufs := s.curDuxReqBufs - 1
        curDuxReqBufmem := s.curDuxReqBufmem - b.bufsize
        wantDuxReqBuf := false }, false)
  else
    ({ s with
        nbfree := s.nbfree + 1
        freepages := s.freepages + btop b.bufsize
        chain := if b.bufsize ≤ 0 then s.chain ++ [bp] else bp :: s.chain }, true)

/-- `dux_adjust_virtsize`; the second result is what it returns, and `none` the panic. -/
def duxAdjustVirtsize (bp : B) (size : ℕ) (ans : Option ℕ) : Option (State B P × Bool) :=
  let b := s.buf bp
  let size := btop size
  if b.virtsize < size then
    match s.bfget size ans with
    | none => some (s, true)
    | some (bufMem, s1) =>
      (s1.pagemove b.addr bufMem b.bufsize).map fun s2 =>
        ((s2.bffree b.addr b.virtsize).setBuf bp
          { b with
            addr := bufMem
            virtsize := size }, false)
  else some (s, false)

/-- The loop of `buf_syncgeteblk` along the list of the `dp`, from its end on.  `none` is a panic, or
the head of the list taken for a buffer. -/
def strip (size : ℕ) (bp : B) : List B → State B P → Option (State B P)
  | [], s => if (s.buf bp).bufsize < size then none else some s
  | dp :: l, s =>
    let b := s.buf bp
    let d := s.buf dp
    if b.bufsize < size then
      let take := size - b.bufsize
      let take := if take ≥ d.bufsize then d.bufsize else take
      -- the pages go to the offset `dp->b_bufsize` of `bp`
      (s.pagemove (d.addr + (d.bufsize - take)) (b.addr + d.bufsize) take).bind fun s =>
        strip size bp l
          ((s.setBuf bp { b with bufsize := b.bufsize + take }).setBuf dp
            { d with bufsize := d.bufsize - take })
    else some s

/-- `buf_syncgeteblk(size)`; `none` is a panic. -/
def bufSyncgeteblk (size : ℕ) (ans : Option ℕ) : Option (State B P × Option B) :=
  match s.chain with
  | [] => some (s, none)
  | dp :: _ =>
    let found := s.chain.find? fun b => size ≤ (s.buf b).bufsize
    let totalSize := (s.chain.map fun b => (s.buf b).bufsize).sum
    if found = none ∧ totalSize < size then some (s, none)
    else
      let bp := found.getD dp
      (s.duxAdjustVirtsize bp size ans).bind fun r =>
        let s := r.1
        if (s.buf bp).virtsize < btop size then some (s, none)
        else
          let s := { s with chain := s.chain.erase bp }
          (s.strip size bp s.chain.reverse).map fun s =>
            (s.setBuf bp { s.buf bp with flags := fun f => f ≠ .DUX_REM_REQ }, some bp)

/-! ### What holds of the list, and what a call should do -/

/-- The first page of a buffer. -/
def base (b : B) : ℕ := btop (s.buf b).addr

/-- A buffer has exactly `b_bufsize` bytes of pages mapped, from the start of its range. -/
structure Mapped (b : B) : Prop where
  dvd : NBPG ∣ (s.buf b).bufsize
  addr : NBPG ∣ (s.buf b).addr
  le : btop (s.buf b).bufsize ≤ (s.buf b).virtsize
  mapped : ∀ i < (s.buf b).virtsize, (s.pte (s.base b + i)).isSome ↔ i < btop (s.buf b).bufsize

/-- The frames in the range of a buffer. -/
def frames (b : B) : Multiset P := Hpux.frames s.pte (s.base b) (s.buf b).virtsize

/-- The ranges of two buffers do not overlap. -/
def Apart (b d : B) : Prop :=
  (s.buf b).virtsize = 0 ∨ (s.buf d).virtsize = 0 ∨
    s.base b + (s.buf b).virtsize ≤ s.base d ∨ s.base d + (s.buf d).virtsize ≤ s.base b

/-- A free list of network buffers. -/
structure Good : Prop where
  nodup : s.chain.Nodup
  mapped : ∀ b ∈ s.chain, s.Mapped b
  apart : ∀ b ∈ s.chain, ∀ d ∈ s.chain, b ≠ d → s.Apart b d
  /-- The ranges of the buffers are not free, -/
  taken : ∀ b ∈ s.chain, ∀ i < (s.buf b).virtsize, s.vfree (s.base b + i) = false
  /-- and nothing is mapped in what is. -/
  unmapped : ∀ v, s.vfree v = true → s.pte v = none

/-- A call that returns `NULL` changes nothing; and a buffer that is returned is large enough, the
frames of the buffer and the list are the same, and each buffer is mapped. -/
structure Conserves (s s' : State B P) (size : ℕ) (r : Option B) : Prop where
  null : r = none → s' = s
  unlinked : ∀ bp, r = some bp → bp ∈ s.chain ∧ s'.chain = s.chain.erase bp
  large : ∀ bp, r = some bp → size ≤ (s'.buf bp).bufsize
  frames : ∀ bp, r = some bp →
    ((bp :: s'.chain).map s'.frames).sum = (s.chain.map s.frames).sum
  mapped : ∀ bp, r = some bp → ∀ b ∈ bp :: s'.chain, s'.Mapped b

end State

/-- Where `need` pages go that are taken from buffers of these sizes: from the size of the buffer
that they come from on. -/
def places : ℕ → List ℕ → List ℕ
  | _, [] => []
  | need, z :: l => List.range' z (min need z) ++ places (need - min need z) l

/-- The pages that are stripped go, each once, to the places behind the pages of the first
buffer. -/
def State.Tiles (s : State B P) (size : ℕ) : Prop :=
  match s.chain with
  | [] => True
  | bp :: l =>
    let has := btop (s.buf bp).bufsize
    (places (btop size - has) (l.reverse.map fun d => btop (s.buf d).bufsize)).Perm
      (List.range' has (btop size - has))

instance (s : State B P) (size : ℕ) : Decidable (s.Tiles size) := by
  unfold State.Tiles
  split <;> infer_instance

/-- A buffer is large enough, or all together are not, or no range can be had for the first. -/
def State.NoStrip (s : State B P) (size : ℕ) (ans : Option ℕ) : Prop :=
  (∃ b ∈ s.chain, size ≤ (s.buf b).bufsize) ∨ (s.chain.map fun b => (s.buf b).bufsize).sum < size ∨
      ∃ bp ∈ s.chain.head?, (s.buf bp).virtsize < btop size ∧ s.bfget (btop size) ans = none

end Hpux.NetBuf
