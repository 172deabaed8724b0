import Hpux910.Lib.Lts
import Hpux910.Lib.FreeList
import Mathlib

/-!
# The kernel memory allocator

`kern_mallo.c` and the macros of `malloc.h`.  A request of up to a page is rounded up to a power of
two and served from the free list of its bucket; a page that `kalloc` hands out is cut into elements
of one bucket.  Larger requests get whole pages.  A type of memory can have elements in reserve,
which are on lists of their own.

* `State` : the words of the memory, the heads of the lists, the descriptors of the pages.
* `kmalloc`, `allocReserve`, `kmallocReserve`, `kfree`, `kfreeUnused` : the routines, cut where they
  call `kalloc` or sleep.
* `malloc`, `freeMacro` : the macros `MALLOC` and `FREE`.
* `system` : the calls, in any order.
-/

namespace Hpux

namespace Mallo

/-! ### The data -/

/-- The constants of the machine. -/
structure Config where
  /-- `MINBUCKET` -/
  minbucket : ℕ
  /-- `PGSHIFT` -/
  pgshift : ℕ
  minbucket_le : minbucket ≤ pgshift
  pgshift_lt : pgshift < minbucket + 15
  minbucket_lt : minbucket ≤ 16

/-- `KS_RESERVED`, and the other fields of a type (`struct kmemstats`). -/
structure KmemStats where
  reserved : Bool
  /-- `ks_check` -/
  check : Option ℕ
  /-- `ks_sleep` -/
  sleep : Bool
  /-- `ks_reslimit` -/
  reslimit : ℤ
  /-- `ks_resinuse` -/
  resinuse : ℤ

/-- Ghost: what a page is used for. -/
inductive Kind
  /-- elements of a bucket, or of the reserved bucket -/
  | elems (indx : ℕ) (res : Bool)
  /-- part of the block at `va` -/
  | big (va : ℕ)
  deriving DecidableEq

/-- Ghost: memory that a caller has got. -/
structure Block where
  addr : ℕ
  /-- What was asked for. -/
  size : ℕ
  type : ℕ
  len : ℕ
  deriving DecidableEq

/-- Where a caller is. -/
inductive Call
  | none
  /-- in `kalloc`, called by `kmalloc`; `wait` if without `KALLOC_NOWAIT`; `nowait` is `M_NOWAIT` -/
  | kalloc (size type : ℕ) (nowait : Bool) (wait : Bool)
  /-- asleep in `alloc_reserve` -/
  | sleep (size type : ℕ) (nowait : Bool)
  /-- in `kalloc`, called by `kmalloc_reserve` -/
  | reserve (type size count : ℕ) (func : Option ℕ)
  deriving DecidableEq

structure State where
  /-- The words of the memory. -/
  mem : ℕ → ℕ
  /-- `kb_next` of `bucket` (`false`) and of `reserved_bucket` (`true`) -/
  bucket : Bool → ℕ → ℕ
  /-- `ku_indx` -/
  kuIndx : ℕ → ℕ
  /-- `ku_pagecnt` -/
  kuPagecnt : ℕ → ℕ
  /-- `kmemstats` -/
  stats : ℕ → KmemStats
  totalReserved : ℕ
  /-- `kmemlock` is held. -/
  lock : Bool
  /-- The pages that `kalloc` has handed out. -/
  out : ℕ → Bool
  call : ℕ → Call
  /-- Ghost: what the pages are used for. -/
  page : ℕ → Option Kind
  /-- Ghost: the blocks that are in use. -/
  live : List Block

variable (C : Config)

namespace Config

/-- `NBPG`, `MAXALLOCSAVE` -/
def nbpg : ℕ := 2 ^ C.pgshift

/-- `MINALLOCSIZE` -/
def minallocsize : ℕ := 2 ^ C.minbucket

/-- `MAXBUCKET` -/
def maxbucket : ℕ := C.minbucket + 15

/-- `BUCKETINDX` -/
def bucketindx (size : ℕ) : ℕ :=
  if size ≤ C.minallocsize * 128 then
    if size ≤ C.minallocsize * 8 then
      if size ≤ C.minallocsize * 2 then
        if size ≤ C.minallocsize * 1 then C.minbucket + 0 else C.minbucket + 1
      else if size ≤ C.minallocsize * 4 then C.minbucket + 2 else C.minbucket + 3
    else if size ≤ C.minallocsize * 32 then
      if size ≤ C.minallocsize * 16 then C.minbucket + 4 else C.minbucket + 5
    else if size ≤ C.minallocsize * 64 then C.minbucket + 6 else C.minbucket + 7
  else if size ≤ C.minallocsize * 2048 then
    if size ≤ C.minallocsize * 512 then
      if size ≤ C.minallocsize * 256 then C.minbucket + 8 else C.minbucket + 9
    else if size ≤ C.minallocsize * 1024 then C.minbucket + 10 else C.minbucket + 11
  else if size ≤ C.minallocsize * 8192 then
    if size ≤ C.minallocsize * 4096 then C.minbucket + 12 else C.minbucket + 13
  else if size ≤ C.minallocsize * 16384 then C.minbucket + 14 else C.minbucket + 15

/-- `btorp`, in words of 32 bits -/
def btorp (x : ℕ) : ℕ := (x + (C.nbpg - 1)) % 2 ^ 32 / C.nbpg

/-- `ptob`, in words of 32 bits -/
def ptob (x : ℕ) : ℕ := x * C.nbpg % 2 ^ 32

/-- `allocsize` of `kmalloc` -/
def allocsize (size : ℕ) : ℕ :=
  if C.nbpg < size then C.ptob (C.btorp size) else 2 ^ C.bucketindx size

/-- `npg` of `kmalloc` -/
def npg (size : ℕ) : ℕ := C.btorp (C.allocsize size)

/-- `allocsize * count` of `kmalloc_reserve` -/
def resbytes (size count : ℕ) : ℕ := 2 ^ C.bucketindx size * count % 2 ^ 32

end Config

/-- `RESERVED_POOL` -/
def reservedPool : ℕ := 2 ^ 15

namespace State

variable (s : State)

/-- The places of a free list: the head, and the first word of each element. -/
def cells (res : Bool) (indx : ℕ) : Option ℕ → ℕ
  | none => s.bucket res indx
  | some a => s.mem a

def spinlock : State := { s with lock := true }

def spinunlock : State := { s with lock := false }

def setCall (t : ℕ) (c : Call) : State := { s with call := Function.update s.call t c }

def setStats (type : ℕ) (ks : KmemStats) : State :=
  { s with stats := Function.update s.stats type ks }

def setBucket (res : Bool) (indx a : ℕ) : State :=
  { s with bucket := fun r i => if r = res ∧ i = indx then a else s.bucket r i }

/-- The call returns a block. -/
def give (t : ℕ) (b : Block) : State :=
  { s with
    live := b :: s.live
    call := Function.update s.call t .none }

/-- `kalloc` hands out a run of pages. -/
def handOut (va npg : ℕ) (k : Kind) : State :=
  { s with
    out := fun p => if va / C.nbpg ≤ p ∧ p < va / C.nbpg + npg then true else s.out p
    page := fun p => if va / C.nbpg ≤ p ∧ p < va / C.nbpg + npg then some k else s.page p }

/-- `kdfree` -/
def kdfree (va npg : ℕ) : State :=
  { s with
    out := fun p => if va / C.nbpg ≤ p ∧ p < va / C.nbpg + npg then false else s.out p }

/-- The first element of a list is taken off it. -/
def take (res : Bool) (t size type len : ℕ) : State :=
  let indx := C.bucketindx size
  let va := s.bucket res indx
  (s.setBucket res indx (s.mem va)).give t ⟨va, size, type, len⟩

/-! ### Allocation -/

/-- `kmalloc`, up to the call of `kalloc` if it comes to that. -/
def kmalloc (t size type : ℕ) (nowait : Bool) : State :=
  let s := s.spinlock
  if C.nbpg < size ∨ s.bucket false (C.bucketindx size) = 0 then
    let s := s.spinunlock
    s.setCall t (.kalloc size type nowait (!(nowait || (s.stats type).reserved)))
  else (s.take C false t size type (2 ^ C.bucketindx size)).spinunlock

/-- `MALLOC` -/
def malloc (t size type : ℕ) (nowait : Bool) : State :=
  let s := s.spinlock
  if C.nbpg < size ∨ s.bucket false (C.bucketindx size) = 0 then
    s.spinunlock.kmalloc C t size type nowait
  else (s.take C false t size type (2 ^ C.bucketindx size)).spinunlock

/-- The pages at `va` are cut into elements, which are put before a list. -/
def split (res : Bool) (indx va npg size : ℕ) : State :=
  let n := npg * C.nbpg / size - 1
  { s with
    mem := Function.update (thread s.mem va size n) (va + n * size) (s.bucket res indx)
    bucket := fun r i => if r = res ∧ i = indx then va else s.bucket r i }

/-- `kmalloc` from the pages at `va`.  The test of `npg > MAXPGCNT` is never true: `MAXPGCNT` is
`~(1 << 15)`, which is `0xffff7fff`. -/
def kmallocPages (t va size type : ℕ) : State :=
  let indx := C.bucketindx size
  let allocsize := C.allocsize size
  let npg := C.npg size
  let len := if indx ≤ C.pgshift then 2 ^ indx else npg * C.nbpg
  let s := s.handOut C va npg (if indx ≤ C.pgshift then .elems indx false else .big va)
  let s := { s with
    kuIndx := Function.update s.kuIndx (va / C.nbpg) indx
    kuPagecnt := Function.update s.kuPagecnt (va / C.nbpg) 0 }
  -- `allocsize` is signed
  if allocsize < 2 ^ 31 ∧ C.nbpg < allocsize then
    { s with kuPagecnt := Function.update s.kuPagecnt (va / C.nbpg) (npg % 2 ^ 16) }.give t
      ⟨va, size, type, len⟩
  else ((s.spinlock.split C false indx va npg allocsize).take C false t size type len).spinunlock

/-- `alloc_reserve`, from `retry` on. -/
def allocReserve (t size type : ℕ) (nowait : Bool) : State :=
  let indx := C.bucketindx size
  let ks := s.stats type
  let s := s.spinlock
  if s.bucket true indx = 0 ∨ ks.reslimit < ks.resinuse + 2 ^ indx then
    if nowait then s.spinunlock.setCall t .none
    else (s.spinunlock.setStats type { ks with sleep := true }).setCall t (.sleep size type nowait)
  else
    ((s.take C true t size type (2 ^ indx)).setStats type
      { ks with resinuse := ks.resinuse + 2 ^ indx }).spinunlock

/-- `kalloc` returns in `kmalloc`; `check` is the answer of `ks_check`. -/
def kalloced (t : ℕ) (r : Option ℕ) (check : Bool) (size type : ℕ) (nowait : Bool) : State :=
  match r with
  | some va => s.kmallocPages C t va size type
  | none =>
    let ks := s.stats type
    if !ks.reserved then s.setCall t .none
    else if ks.check.isSome && !check then
      if nowait then s.setCall t .none else s.setCall t (.kalloc size type nowait true)
    else s.allocReserve C t size type nowait

/-! ### Reserves -/

/-- `TOTAL_TYPE` -/
def totalType : ℕ := 15

/-- `TOTAL_RESERVED` -/
def totalReservedMax : ℕ := 30

/-- The reservation would exceed what a type, or the system, may have in reserve. -/
def refused (type size count : ℕ) : Bool :=
  totalReservedMax < s.totalReserved + C.btorp (C.resbytes size count) ||
    totalType < C.btorp (((s.stats type).reslimit + C.resbytes size count).toNat % 2 ^ 32)

/-- `kmalloc_reserve`, up to the call of `kalloc`. -/
def kmallocReserve (t type size count : ℕ) (func : Option ℕ) : State :=
  let s := s.spinlock
  if s.refused C type size count then s
  else s.spinunlock.setCall t (.reserve type size count func)

/-- `kalloc` has returned in `kmalloc_reserve`. -/
def reservePages (t va type size count : ℕ) (func : Option ℕ) : State :=
  let indx := C.bucketindx size
  let npg := C.btorp (C.resbytes size count)
  let inRun := fun p => va / C.nbpg ≤ p ∧ p < va / C.nbpg + npg
  let ks := s.stats type
  let s := { s with
    kuIndx := fun p => if inRun p then indx + reservedPool else s.kuIndx p
    kuPagecnt := fun p => if inRun p then 0 else s.kuPagecnt p
    call := Function.update s.call t .none }
  let s := s.spinlock
  if ks.reserved && func.isSome && ks.check != func then
    -- the pages go back
    { s.spinunlock with
      mem := thread s.mem va (2 ^ indx) (npg * C.nbpg / 2 ^ indx - 1)
      out := fun p => if inRun p then false else s.out p }
  else
    let s := (s.handOut C va npg (.elems indx true)).split C true indx va npg (2 ^ indx)
    { s with
      totalReserved := s.totalReserved + npg
      stats := Function.update s.stats type
        { ks with
          reserved := true
          check := func
          sleep := false
          reslimit := ks.reslimit + C.ptob npg } }.spinunlock

/-! ### Freeing -/

/-- Ghost: the block at `x` is no longer in use. -/
def forget (x : ℕ) : State := { s with live := s.live.filter fun b => b.addr ≠ x }

/-- An element is put on a list. -/
def putBack (res : Bool) (indx x : ℕ) : State :=
  { s with
    mem := Function.update s.mem x (s.bucket res indx)
    bucket := fun r i => if r = res ∧ i = indx then x else s.bucket r i }

/-- `kfree` -/
def kfree (x type : ℕ) : State :=
  let ku := s.kuIndx (x / C.nbpg)
  let reserved : Bool := reservedPool ≤ ku
  let indx := ku % reservedPool
  let s := s.forget x
  if C.pgshift < indx then
    { s.kdfree C x (s.kuPagecnt (x / C.nbpg)) with
      page := fun p => if s.page p = some (.big x) then none else s.page p }
  else
    let ks := s.stats type
    let s := (s.spinlock.putBack reserved indx x).spinunlock
    if reserved then s.setStats type { ks with
      resinuse := ks.resinuse - 2 ^ indx
      sleep := false }
    else s

/-- `FREE` -/
def freeMacro (x type : ℕ) : State :=
  let ku := s.kuIndx (x / C.nbpg)
  if C.pgshift < ku then s.kfree C x type
  else ((s.forget x).spinlock.putBack false ku x).spinunlock

/-- The pass of `kfree_unused` over one bucket: `kfree_sort_list` and `kfree_free_pages`. -/
def reclaim (indx : ℕ) : State :=
  let s := s.spinlock
  if s.bucket false indx ≠ 0 ∧ s.mem (s.bucket false indx) ≠ 0 then
    let next := s.cells false indx
    let count := listCount next (2 ^ 32) none
    let next := if indx < C.bucketindx C.nbpg then sortList next count else next
    let size := 2 ^ indx
    let run := if C.nbpg / size < 1 then 1 else C.nbpg / size
    let r := cutRuns C.nbpg size run count count next none 0
    let inPages := fun p => p * C.nbpg ∈ r.2
    { s with
      mem := fun a => r.1 (some a)
      bucket := fun b i => if b = false ∧ i = indx then r.1 none else s.bucket b i
      out := fun p => if inPages p then false else s.out p
      page := fun p => if inPages p then none else s.page p }.spinunlock
  else s.spinunlock

/-- `kfree_unused` -/
def kfreeUnused : State :=
  (List.range' (C.bucketindx (C.nbpg / 8)) (C.maxbucket + 1 - C.bucketindx (C.nbpg / 8))).foldl
    (fun s indx => s.reclaim C indx) s

end State

/-! ### The calls -/

inductive Event
  | malloc (t size type : ℕ) (nowait : Bool) (inline : Bool)
  /-- `kalloc` returns to `kmalloc`. -/
  | kalloced (t : ℕ) (r : Option ℕ) (check : Bool)
  /-- A caller asleep in `alloc_reserve` tries again. -/
  | retry (t : ℕ)
  | free (x type : ℕ) (inline : Bool)
  | reserve (t type size count : ℕ) (func : Option ℕ)
  /-- `kalloc` returns to `kmalloc_reserve`. -/
  | reserved (t va : ℕ)
  | kfreeUnused
  /-- A caller writes a word of its block. -/
  | write (x y v : ℕ)

/-- What `kalloc` may hand out. -/
def State.Fresh (s : State) (va npg : ℕ) : Prop :=
  va % C.nbpg = 0 ∧ va ≠ 0 ∧ va + npg * C.nbpg ≤ 2 ^ 32 ∧
    ∀ p < npg, s.out (va / C.nbpg + p) = false

namespace State

variable (s : State)

instance (va npg : ℕ) : Decidable (s.Fresh C va npg) := by
  unfold Fresh
  infer_instance

/-- The event can happen. -/
def enabled : Event → Bool
  | .malloc t size _ _ _ => s.call t = .none && !s.lock && size < 2 ^ 32
  | .kalloced t r _ => match s.call t with
    | .kalloc size _ _ wait => match r with
      | some va => !s.lock && s.Fresh C va (C.npg size)
      | none => !s.lock && !wait
    | _ => false
  | .retry t => match s.call t with
    | .sleep _ _ _ => !s.lock
    | _ => false
  | .free x type _ => !s.lock && s.live.any fun b => b.addr = x ∧ b.type = type
  | .reserve t _ size _ _ => s.call t = .none && !s.lock && size ≤ C.nbpg
  | .reserved t va => match s.call t with
    | .reserve _ size count _ => !s.lock && s.Fresh C va (C.btorp (C.resbytes size count))
    | _ => false
  | .kfreeUnused => !s.lock
  | .write x y _ => s.live.any fun b => b.addr = x ∧ x ≤ y ∧ y < x + b.len

/-- What the event does. -/
def next : Event → State
  | .malloc t size type nowait inline =>
    if inline then s.malloc C t size type nowait else s.kmalloc C t size type nowait
  | .kalloced t r check => match s.call t with
    | .kalloc size type nowait _ => s.kalloced C t r check size type nowait
    | _ => s
  | .retry t => match s.call t with
    | .sleep size type nowait => s.allocReserve C t size type nowait
    | _ => s
  | .free x type inline => if inline then s.freeMacro C x type else s.kfree C x type
  | .reserve t type size count func => s.kmallocReserve C t type size count func
  | .reserved t va => match s.call t with
    | .reserve type size count func => s.reservePages C t va type size count func
    | _ => s
  | .kfreeUnused => s.kfreeUnused C
  | .write _ y v => { s with mem := Function.update s.mem y v }

/-- Nothing has been allocated. -/
def boot : State where
  mem _ := 0
  bucket _ _ := 0
  kuIndx _ := 0
  kuPagecnt _ := 0
  stats _ := ⟨false, none, false, 0, 0⟩
  totalReserved := 0
  lock := false
  out _ := false
  call _ := .none
  page _ := none
  live := []

end State

/-- The allocator, with any number of callers. -/
def system : Lts State Event where
  init s := s = .boot
  step s e s' := s.enabled C e ∧ s' = s.next C e

end Mallo

end Hpux
