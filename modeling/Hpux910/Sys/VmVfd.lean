import Hpux910.Lib.KeyTree
import Mathlib

/-!
# The page descriptors of a region

A region has for each of its pages a virtual frame descriptor and a disk block descriptor
(`sys/vm_vfd.c`).  They are stored in chunks of 32.  A region with one chunk holds it itself; with
more, they are the leaves of a B-tree.  Pages whose chunk was never asked for have no entry: the
root of the tree has prototypes for them.

* `Region`, `Broot`, `Slot` : `struct region`, `struct broot` and one range of `struct vfdcw`.
* `defaultVfd`, `defaultDbd`, `fillchunk`, `vfdSetcw` : the prototypes.
* `btSearch`, `btInsert`, `findentry` : the tree.
* `forNode`, `foreachChunk`, `foreachEntry`, `foreachValid` : the walks.
* `growvfd`, `shrinkvfd`, `dupvfds` : changes of size.

The pointers between the nodes of the tree are the structure of a `KeyTree.Node`; its height is
`b_depth - 1`.  A pointer to a chunk, as the cache of the root keeps it, is the key of the chunk:
chunks are never moved or replaced while the tree exists.
-/

namespace Hpux

namespace Vfd

open KeyTree

/-- `CHUNKENT`. -/
def chunkent : ℕ := 32
/-- `MAXVPROTO`. -/
def maxvproto : ℕ := 5
/-- `B_ORD`. -/
def bOrd : ℕ := 29
/-- `B_SIZE`. -/
def bSize : ℕ := bOrd + 1
/-- `UNUSED_IDX`. -/
def unusedIdx : ℕ := 0x7FFFFFFF
/-- `DONTUSE_IDX`. -/
def dontuseIdx : ℕ := 0x7FFFFFFE
instance : NeZero chunkent := ⟨by decide⟩

/-- `DBD_DINVAL`. -/
def dbdDinval : ℕ := 0x0fffffff

/-- `struct vfd`. -/
structure VfdT where
  /-- `pg_v`. -/
  pgV : Bool
  /-- `pg_cw`. -/
  pgCw : Bool
  /-- `pg_lock`. -/
  pgLock : Bool
  /-- `pg_pfnum`. -/
  pgPfnum : ℕ
  deriving DecidableEq, Repr

/-- The values of `dbd_type`. -/
inductive DbdType
  | none | fstore | bstore | dzero | dfill | hole
  deriving DecidableEq, Repr

/-- `dbd_t`. -/
structure Dbd where
  /-- `dbd_type`. -/
  dbdType : DbdType
  /-- `dbd_data`. -/
  dbdData : ℕ
  deriving DecidableEq, Repr

/-- `struct vfddbd`. -/
structure VfdDbd where
  /-- `c_vfd`. -/
  cVfd : VfdT
  /-- `c_dbd`. -/
  cDbd : Dbd
  deriving DecidableEq, Repr

/-- `vfd_cw`. -/
def vfdCw : VfdT := ⟨false, true, false, 0⟩

/-- `vfd_nocw`. -/
def vfdNocw : VfdT := ⟨false, false, false, 0⟩

/-- `CINDEX`. -/
def cindex (x : ℕ) : ℕ := x / chunkent
/-- `COFFSET`. -/
def coffset (x : ℕ) : ℕ := x % chunkent
/-- `CHUNKROUND`. -/
def chunkround (x : ℕ) : ℕ := x / chunkent * chunkent
/-- `REGIDX`. -/
def regidx (x : ℕ) : ℕ := x * chunkent

/-- `chunk_t`. -/
abbrev Chunk := Fin chunkent → VfdDbd

/-- The entry at an offset. -/
def Chunk.at (c : Chunk) (j : ℕ) : VfdDbd := c (Fin.ofNat chunkent j)

/-- Write the entry at an offset. -/
def Chunk.put (c : Chunk) (j : ℕ) (e : VfdDbd) : Chunk :=
  fun i => if i = Fin.ofNat chunkent j then e else c i

/-- Memory that `bzero` has cleared. -/
def Chunk.zero : Chunk := fun _ => ⟨vfdNocw, .none, 0⟩

/-- One range of `struct vfdcw`; the slot is free when `v_start` is -1. -/
structure Slot where
  /-- `v_start[x]`. -/
  vStart : ℤ
  /-- `v_end[x]`. -/
  vEnd : ℤ
  deriving DecidableEq, Repr

/-- `struct broot`. -/
structure Broot where
  /-- `b_root` with `b_depth`. -/
  bRoot : Option (Σ d, Node Chunk d)
  /-- `b_protoidx`. -/
  bProtoidx : ℕ
  /-- `b_proto1`. -/
  bProto1 : Dbd
  /-- `b_proto2`. -/
  bProto2 : Dbd
  /-- `b_vproto`. -/
  bVproto : List Slot
  /-- `b_key_cache`. -/
  bKeyCache : ℕ × ℕ

/-- The fields of `struct region` that this file uses. -/
structure Region where
  /-- `r_pgsz`. -/
  rPgsz : ℕ
  /-- `r_nvalid`. -/
  rNvalid : ℕ
  /-- `r_key`. -/
  rKey : ℕ
  /-- `r_chunk`. -/
  rChunk : Chunk
  /-- `r_root`. -/
  rRoot : Option Broot

/-- How the routines fail. -/
inductive Panic
  /-- `panic("findentry: idx beyond region size")`. -/
  | findentry
  /-- `bt_insert` would link a chunk in an interior node. -/
  | badTree
  deriving DecidableEq, Repr

/-! ### Prototypes -/

/-- The loop of `default_vfd`. -/
def defaultVfdLoop (idx : ℤ) : List Slot → ℤ → VfdT × ℤ
  | [], save => (vfdNocw, save - 1)
  | v :: rest, save =>
    if v.vStart = -1 then defaultVfdLoop idx rest save
    else if v.vStart ≤ idx ∧ idx ≤ v.vEnd then (vfdCw, v.vEnd)
    else defaultVfdLoop idx rest (if v.vStart > idx ∧ v.vStart < save then v.vStart else save)

/-- `default_vfd`: the prototype and `*endidx`. -/
def defaultVfd (br : Broot) (idx : ℕ) : VfdT × ℤ := defaultVfdLoop idx br.bVproto unusedIdx

/-- `default_dbd`. -/
def defaultDbd (br : Broot) (idx : ℕ) : Dbd :=
  if idx ≥ br.bProtoidx then br.bProto2 else br.bProto1

/-- `bt_init`.  `mem` is what `MALLOC` left in the prototypes of the disk block descriptors. -/
def btInit (mem : Dbd) : Broot where
  bRoot := none
  bProtoidx := unusedIdx
  bProto1 := mem
  bProto2 := mem
  bVproto := List.replicate maxvproto ⟨-1, 0⟩
  bKeyCache := (unusedIdx, unusedIdx)

/-- One of the loops of `fillchunk`, over the `n` entries from offset `j` on. -/
def fillLoop (br : Broot) (idx : ℕ) (dbd : Dbd) : ℕ → ℕ → VfdT × ℤ → Chunk → Chunk × VfdT × ℤ
  | 0, _, vfd, chunk => (chunk, vfd)
  | n + 1, j, vfd, chunk =>
    let vfd := if ((idx + j : ℕ) : ℤ) > vfd.2 then defaultVfd br (idx + j) else vfd
    fillLoop br idx dbd n (j + 1) vfd (chunk.put j ⟨vfd.1, dbd⟩)

/-- `fillchunk`. -/
def fillchunk (chunk : Chunk) (br : Broot) (idx : ℕ) : Chunk :=
  let brk := br.bProtoidx
  let ends := idx + chunkent
  let lim := if brk < ends then brk else ends
  let (chunk, vfd) :=
    fillLoop br idx (defaultDbd br idx) (lim - idx) 0 (defaultVfd br idx) chunk
  let x := idx + (lim - idx)
  if x < ends then (fillLoop br idx (defaultDbd br x) (ends - x) (lim - idx) vfd chunk).1
  else chunk

/-! ### The tree -/

/-- `BT_INS_CACHE`. -/
def Broot.insCache (br : Broot) (key : ℕ) : Broot :=
  { br with bKeyCache := (key, br.bKeyCache.1) }

/-- `BT_KILL_CACHE`. -/
def Broot.killCache (br : Broot) : Broot := { br with bKeyCache := (unusedIdx, unusedIdx) }

/-- The search across a leaf: an exact hit, or the key is not in the tree. -/
def leafSearch {α : Type*} (key : ℕ) : List (ℕ × α) → Option α
  | [] => none
  | (val, chunk) :: rest =>
    if val ≥ key then (if val = key then some chunk else none) else leafSearch key rest

/-- The loop of `bt_search` over the levels of the tree. -/
def nodeSearch {α : Type*} (key : ℕ) : ∀ d, Node α d → Option α
  | 0, l => leafSearch key l
  | d + 1, n => (child key n.1 n.2).bind (nodeSearch key d)

/-- `bt_search`, whether it returns a chunk.  Only the first line of the cache is looked at. -/
def btSearch (br : Broot) (key : ℕ) : Bool × Broot :=
  if br.bKeyCache.1 = key then (true, br)
  else match br.bRoot.bind fun t => nodeSearch key t.1 t.2 with
    | some _ => (true, br.insCache key)
    | none => (false, br)

/-- Give the upper half of a node that has become too long to a new node, with its first key. -/
def split {β : Type*} (l : List (ℕ × β)) : List (ℕ × β) × Option (ℕ × List (ℕ × β)) :=
  if l.length ≤ bOrd then (l, none)
  else
    let upper := (l.drop (bSize / 2)).take (bSize / 2)
    (l.take (bSize / 2), upper.head?.map fun e => (e.1, upper))

/-- Write to the chunk of a key in a node. -/
def mapAt {α : Type*} (key : ℕ) (f : α → α) : ∀ d, Node α d → Node α d
  | 0, l => (show List (ℕ × α) from l).map fun e => if e.1 = key then (e.1, f e.2) else e
  | d + 1, n => (n.1.map (mapAt key f d), n.2.map fun e => (e.1, mapAt key f d e.2))

/-- The loop of `bt_ins` on the nodes of the search path, from the bottom up.  The result is `none`
when the search of `bt_insert` ends in a missing child. -/
def nodeInsert {α : Type*} (key : ℕ) (nval : α) :
    ∀ d, Node α d → Option (Node α d × Option (ℕ × Node α d))
  | 0, l => some (split (insertAt key nval l))
  | d + 1, n =>
    (enter key (nodeInsert key nval d) n.1 n.2).map fun (down0, rest, below) =>
      match below with
      | none => ((down0, rest), none)
      | some (key₂, bt₂) =>
        let (rest, sp) := split (insertAt key₂ bt₂ rest)
        -- the new node comes from `balloc`, so its `b_down[0]` is NULL
        ((down0, rest), sp.map fun (key, upper) => (key, (none, upper)))

/-- `bt_insert`. -/
def btInsert (br : Broot) (key : ℕ) (nval : Chunk) : Except Panic Broot :=
  match br.bRoot with
  | none => .ok { br.insCache key with bRoot := some ⟨0, [(key, nval)]⟩ }
  | some ⟨d, bt⟩ =>
    match nodeSearch key d bt with
    | some _ => .ok { br with bRoot := some ⟨d, mapAt key (fun _ => nval) d bt⟩ }
    | none =>
      match nodeInsert key nval d bt with
      | none => .error .badTree
      | some (bt, none) => .ok { br.insCache key with bRoot := some ⟨d, bt⟩ }
      | some (bt, some (key₂, bt₂)) =>
        .ok { br.insCache key with bRoot := some ⟨d + 1, (some bt, [(key₂, bt₂)])⟩ }

/-- `findentry`: make sure that page `i` has an entry. -/
def findentry (rp : Region) (i : ℕ) : Except Panic Region :=
  match rp.rRoot with
  | none => .error .findentry
  | some br =>
    if i ≥ rp.rPgsz then .error .findentry
    else if rp.rKey = cindex i then .ok rp
    else if rp.rKey = unusedIdx then
      .ok { rp with rChunk := fillchunk .zero br (chunkround i), rKey := cindex i }
    else if rp.rKey = dontuseIdx then
      match btSearch br (cindex i) with
      | (true, br) => .ok { rp with rRoot := some br }
      | (false, br) =>
        match btInsert br (cindex i) (fillchunk .zero br (chunkround i)) with
        | .ok br => .ok { rp with rRoot := some br }
        | .error e => .error e
    else
      -- the chunk of the region moves into the tree
      match btInsert br.killCache rp.rKey rp.rChunk with
      | .error e => .error e
      | .ok br =>
        match btInsert br (cindex i) (fillchunk .zero br (chunkround i)) with
        | .ok br => .ok { rp with rRoot := some br, rKey := dontuseIdx, rChunk := .zero }
        | .error e => .error e

/-- `FINDENTRY`, `FINDVFD` and `FINDDBD`. -/
def findEntryMacro (rp : Region) (i : ℕ) : Except Panic Region :=
  match rp.rRoot with
  | none => .error .findentry
  | some br =>
    if br.bKeyCache.1 = cindex i ∨ br.bKeyCache.2 = cindex i then .ok rp else findentry rp i

/-- The chunks of the tree. -/
def Broot.chunks (br : Broot) : List (ℕ × Chunk) := br.bRoot.elim [] fun t => flat t.1 t.2

/-- The chunk that holds the entries of index `key`. -/
def Region.chunkAt (rp : Region) (key : ℕ) : Option Chunk :=
  if rp.rKey = key then some rp.rChunk else rp.rRoot.bind fun br => br.chunks.lookup key

/-- The entry of page `i`, when it has one. -/
def Region.entry (rp : Region) (i : ℕ) : Option VfdDbd :=
  (rp.chunkAt (cindex i)).map fun c => c.at (coffset i)

/-- Write to the chunk of a key. -/
def Region.modifyChunk (rp : Region) (key : ℕ) (f : Chunk → Chunk) : Region :=
  if rp.rKey = key then { rp with rChunk := f rp.rChunk }
  else { rp with rRoot := rp.rRoot.map fun br =>
    { br with bRoot := br.bRoot.map fun t => ⟨t.1, mapAt key f t.1 t.2⟩ } }

/-- Write through the pointers to the entry of page `i`. -/
def Region.modify (rp : Region) (i : ℕ) (f : VfdDbd → VfdDbd) : Region :=
  rp.modifyChunk (cindex i) fun c => c.put (coffset i) (f (c.at (coffset i)))

/-! ### Ranges of copy-on-write -/

/-- `min` of `unsigned int`. -/
def umin (a b : ℤ) : ℤ := if a % 2 ^ 32 < b % 2 ^ 32 then a else b

/-- `max` of `unsigned int`. -/
def umax (a b : ℤ) : ℤ := if a % 2 ^ 32 > b % 2 ^ 32 then a else b

/-- `OVERLAPS(x, y, m, n)`. -/
def Overlaps (x y m n : ℤ) : Prop := n ≥ x - 1 ∧ y ≥ m - 1

instance (x y m n : ℤ) : Decidable (Overlaps x y m n) :=
  inferInstanceAs (Decidable (n ≥ x - 1 ∧ y ≥ m - 1))

/-- Join the range to the first slot that it overlaps. -/
def joinSlot (idx newendidx : ℤ) : List Slot → Option (List Slot)
  | [] => none
  | v :: rest =>
    if v.vStart ≠ -1 ∧ Overlaps v.vStart v.vEnd idx newendidx then
      some (⟨umin v.vStart idx, umax v.vEnd newendidx⟩ :: rest)
    else (joinSlot idx newendidx rest).map (v :: ·)

/-- Put the range in the first free slot. -/
def useSlot (idx newendidx : ℤ) : List Slot → Option (List Slot)
  | [] => none
  | v :: rest =>
    if v.vStart = -1 then some (⟨idx, newendidx⟩ :: rest)
    else (useSlot idx newendidx rest).map (v :: ·)

/-- Whether `vfd_setcw` finds a slot, and what it makes of the slots. -/
def setSlots (idx newendidx : ℤ) (v : List Slot) : Option (List Slot) :=
  (joinSlot idx newendidx v).or (useSlot idx newendidx v)

/-- The last loop of `vfd_setcw`. -/
def setcwLoop : ℕ → ℕ → Region → Except Panic Region
  | 0, _, rp => .ok rp
  | n + 1, x, rp =>
    match findEntryMacro rp x with
    | .error e => .error e
    | .ok rp =>
      setcwLoop n (x + 1) (rp.modify x fun e => { e with cVfd := { e.cVfd with pgCw := true } })

/-- `vfd_setcw`. -/
def vfdSetcw (rp : Region) (idx cnt : ℕ) : Except Panic Region :=
  match rp.rRoot with
  | none => .error .findentry
  | some br =>
    match setSlots idx (idx + cnt - 1) br.bVproto with
    | some v => .ok { rp with rRoot := some { br with bVproto := v } }
    | none => setcwLoop cnt idx rp

/-! ### Walks -/

/-- A function called for a part of a chunk: it gets the index in the region of the first page, the
offset of its entry, the number of entries, and the chunk, and gives its result. -/
abbrev ChunkFn (σ : Type*) := σ → ℕ → ℕ → ℕ → Chunk → ℤ × Chunk × σ

/-- A function called for an entry. -/
abbrev EntryFn (σ : Type*) := σ → ℕ → VfdDbd → ℤ × VfdDbd × σ

section Walk

variable {σ : Type*}

/-- The last index of chunks in the range, -1 when there is none. -/
def endIdx (start cnt : ℕ) : ℤ := ((start + cnt : ℕ) - 1 : ℤ) / chunkent

/-- The part of a chunk that lies in the range: `r_idx`, `c_idx` and `c_cnt`. -/
def part (start cnt key : ℕ) : ℕ × ℕ × ℕ :=
  let rIdx := if start > regidx key then start else regidx key
  let cIdx := if start > regidx key then coffset start else 0
  let remainder := start + cnt - rIdx
  (rIdx, cIdx, if chunkent - cIdx > remainder then remainder else chunkent - cIdx)

/-- The chunk has a part in the range. -/
def InRange (start cnt key : ℕ) : Prop := cindex start ≤ key ∧ (key : ℤ) ≤ endIdx start cnt

instance (start cnt key : ℕ) : Decidable (InRange start cnt key) :=
  inferInstanceAs (Decidable (_ ∧ _))

/-- Call the function for the part of a chunk, when it has one. -/
def callPart (start cnt : ℕ) (fn : ChunkFn σ) (key : ℕ) (c : Chunk) (s : σ) : ℤ × Chunk × σ :=
  if InRange start cnt key then
    fn s (part start cnt key).1 (part start cnt key).2.1 (part start cnt key).2.2 c
  else (0, c, s)

/-- The slots of a leaf in `for_val2`. -/
def forLeaf (start cnt : ℕ) (fn : ChunkFn σ) : List (ℕ × Chunk) → σ → ℤ × List (ℕ × Chunk) × σ
  | [], s => (0, [], s)
  | (key, c) :: rest, s =>
    let (r, c, s) := callPart start cnt fn key c s
    if r ≠ 0 then (1, (key, c) :: rest, s)
    else if (key : ℤ) > endIdx start cnt then (1, (key, c) :: rest, s)
    else
      let (r, rest, s) := forLeaf start cnt fn rest s
      (r, (key, c) :: rest, s)

/-- The slots of an interior node in `for_val2`. -/
def forInterior {β : Type*} (start cnt : ℕ) (visit : β → σ → ℤ × β × σ) :
    List (ℕ × β) → σ → ℤ × List (ℕ × β) × σ
  | [], s => (0, [], s)
  | (key, bt) :: rest, s =>
    let (r, bt, s) := visit bt s
    if r ≠ 0 then (1, (key, bt) :: rest, s)
    else if (key : ℤ) > endIdx start cnt then (1, (key, bt) :: rest, s)
    else
      let (r, rest, s) := forInterior start cnt visit rest s
      (r, (key, bt) :: rest, s)

/-- The child in front of the first key, which is looked at when the range starts before that
key.  A missing child finds nothing: the region's own chunk is no longer used. -/
def forDown0 {β : Type*} (start : ℕ) (visit : β → σ → ℤ × β × σ) (down0 : Option β)
    (rest : List (ℕ × β)) (s : σ) : ℤ × Option β × σ :=
  match rest, down0 with
  | (key, _) :: _, some bt =>
    if cindex start < key then
      let (r, bt, s) := visit bt s
      (r, some bt, s)
    else (0, some bt, s)
  | _, _ => (0, down0, s)

/-- `for_val2` on a node. -/
def forNode (start cnt : ℕ) (fn : ChunkFn σ) : ∀ d, Node Chunk d → σ → ℤ × Node Chunk d × σ
  | 0, l, s => forLeaf start cnt fn l s
  | d + 1, n, s =>
    let (r, down0, s) := forDown0 start (forNode start cnt fn d) n.1 n.2 s
    if r ≠ 0 then (1, (down0, n.2), s)
    else
      let (r, rest, s) := forInterior start cnt (forNode start cnt fn d) n.2 s
      (r, (down0, rest), s)

/-- `for_val2` on the root: its result and what the calls leave. -/
def forVal2 (rp : Region) (br : Broot) (start cnt : ℕ) (fn : ChunkFn σ) (s : σ) :
    ℤ × Region × σ :=
  match br.bRoot with
  | none =>
    if rp.rKey ≠ unusedIdx then
      let (_, c, s) := callPart start cnt fn rp.rKey rp.rChunk s
      (0, { rp with rChunk := c }, s)
    else (0, rp, s)
  | some ⟨d, bt⟩ =>
    let (r, bt, s) := forNode start cnt fn d bt s
    (r, { rp with rRoot := some { br with bRoot := some ⟨d, bt⟩ } }, s)

/-- `foreach_chunk`, which has no result. -/
def foreachChunk (rp : Region) (start cnt : ℕ) (fn : ChunkFn σ) (s : σ) : Region × σ :=
  match rp.rRoot with
  | none => (rp, s)
  | some br => (forVal2 rp br start cnt fn s).2

/-- `for_val3` on `cnt` entries from offset `j` on. -/
def forVal3 (scanAll : Bool) (fn : EntryFn σ) : ℕ → σ → ℕ → ℕ → Chunk → ℤ × Chunk × σ
  | 0, s, _, _, c => (0, c, s)
  | cnt + 1, s, idx, j, c =>
    if scanAll = true ∨ (c.at j).cVfd.pgV = true then
      let (r, e, s) := fn s idx (c.at j)
      if r ≠ 0 then (1, c.put j e, s)
      else forVal3 scanAll fn cnt s (idx + 1) (j + 1) (c.put j e)
    else forVal3 scanAll fn cnt s (idx + 1) (j + 1) c

/-- `foreach_entry`. -/
def foreachEntry (rp : Region) (start cnt : ℕ) (fn : EntryFn σ) (s : σ) : Region × σ :=
  foreachChunk rp start cnt (fun s idx j cnt c => forVal3 true fn cnt s idx j c) s

/-- `foreach_valid`. -/
def foreachValid (rp : Region) (start cnt : ℕ) (fn : EntryFn σ) (s : σ) : Region × σ :=
  if rp.rNvalid = 0 then (rp, s)
  else foreachChunk rp start cnt (fun s idx j cnt c => forVal3 false fn cnt s idx j c) s

end Walk

/-! ### Changes of size -/

/-- `do_filldbd`. -/
def doFilldbd (proto : Dbd) : EntryFn Unit := fun s _ _ => (0, ⟨vfdNocw, proto⟩, s)

/-- The last loop of `growvfd`. -/
def fillDbds (type : DbdType) : ℕ → ℕ → Region → Except Panic Region
  | 0, _, rp => .ok rp
  | n + 1, x, rp =>
    match findEntryMacro rp x with
    | .error e => .error e
    | .ok rp => fillDbds type n (x + 1) (rp.modify x fun e => { e with cDbd := ⟨type, dbdDinval⟩ })

/-- The end of `growvfd` for pages with a prototype. -/
def growProto (rp : Region) (br : Broot) (amount : ℕ) (dbd : Dbd) : ℕ × Region :=
  let rp := { rp with rRoot := some br }
  let (rp, _) := foreachEntry rp rp.rPgsz amount (doFilldbd dbd) ()
  (0, { rp with rPgsz := rp.rPgsz + amount })

/-- `growvfd`.  `swap` is the answer of `grow_vfdpgs`, `mem` what `bt_init` finds in memory. -/
def growvfd (rp : Region) (amount : ℕ) (type : DbdType) (swap : Bool) (mem : Dbd) :
    Except Panic (ℕ × Region) :=
  if amount = 0 then .ok (0, rp)
  else if rp.rPgsz = 0 then
    if swap = false then .ok (1, { rp with rRoot := none, rPgsz := 0 })
    else .ok (0, { rp with
      rRoot := some { btInit mem with bProto1 := ⟨type, dbdDinval⟩ }, rPgsz := amount })
  else match rp.rRoot with
    | none => .error .findentry
    | some br =>
      if swap = false then .ok (1, rp)
      else if (defaultDbd br (rp.rPgsz - 1)).dbdType = type then
        .ok (growProto rp br amount (defaultDbd br (rp.rPgsz - 1)))
      else if br.bProtoidx = unusedIdx then
        .ok (growProto rp
          { br with bProtoidx := rp.rPgsz, bProto2 := ⟨type, dbdDinval⟩ } amount ⟨type, dbdDinval⟩)
      else match fillDbds type amount rp.rPgsz rp with
        | .error e => .error e
        | .ok rp => .ok (0, { rp with rPgsz := rp.rPgsz + amount })

/-- The loop of `shrinkvfd` over the slots. -/
def clipSlot (newendidx : ℤ) (v : Slot) : Slot :=
  if v.vStart = -1 then v
  else if v.vEnd ≤ newendidx then v
  else if v.vStart > newendidx then { v with vStart := -1 }
  else { v with vEnd := newendidx }

/-- `shrinkvfd`. -/
def shrinkvfd (rp : Region) (amount : ℕ) : Region :=
  match rp.rRoot with
  | none => rp
  | some br =>
    let newendidx : ℤ := rp.rPgsz - amount - 1
    if newendidx = -1 then { rp with rRoot := none, rPgsz := 0 }
    else
      { rp with
        rPgsz := rp.rPgsz - amount
        rRoot := some { br.killCache with
          bVproto := br.bVproto.map (clipSlot newendidx)
          bProtoidx := if br.bProtoidx ≠ unusedIdx ∧ (br.bProtoidx : ℤ) > newendidx then unusedIdx
            else br.bProtoidx } }

/-- A region as `allocreg` makes it. -/
def allocreg : Region := ⟨0, 0, unusedIdx, .zero, none⟩

/-- The prototypes that `dupvfds` gives to the copy. -/
def dupProtos (sbr dbr : Broot) (off count : ℕ) : Broot :=
  if off < sbr.bProtoidx ∧ off + count < sbr.bProtoidx then
    { dbr with bProtoidx := unusedIdx, bProto1 := sbr.bProto1 }
  else if off ≥ sbr.bProtoidx then
    { dbr with bProtoidx := unusedIdx, bProto1 := sbr.bProto2 }
  else
    { dbr with bProtoidx := sbr.bProtoidx - off, bProto1 := sbr.bProto1, bProto2 := sbr.bProto2 }

/-- `dupvfds` into a new region: its result and the region. -/
def dupvfds (srp : Region) (off count : ℕ) (swap : Bool) (mem : Dbd) : ℕ × Region :=
  match srp.rRoot with
  | none => (1, allocreg)
  | some sbr =>
    if swap = false then (1, allocreg)
    else (0, { allocreg with rRoot := some (dupProtos sbr (btInit mem) off count), rPgsz := count })

end Vfd

end Hpux
