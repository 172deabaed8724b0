import Hpux910.Lib.Lts
import Mathlib

/-!
# Process ids of the cluster

The root server hands out chunks of `PIDCHUNK` process ids to the sites.  A site takes its pids from
its current chunk, asks for the next chunk when few are left, and returns with the request the chunks
in which it has no process any more.  This file models `dux_getpid.c` on the server and on any number
of other sites, with the messages between them.

A routine is cut where it sleeps: in the allocation of the request, in the special message that
returns chunks when the request is full, and where it waits for the reply.

* `PidServer`, `PidServer.getpidchunk`, `PidServer.returnpidchunk` : `pidtable` and the search in it.
* `PidSite` : the variables of a site; `PidSite.skip`, `PidSite.Releasable`, `PidSite.install` :
  the loops of `dux_getnewpid`, `releasefreepidchunks` and `neednewchunk`.
* `PidCluster`, `PidAct`, `PidCluster.step` : the sites, the messages in flight and the events.

The field `returned` lists the pids that calls returned; the code has no such variable.
-/

namespace Hpux

namespace Dux

open Function

/-- The number of pids allocated at one time to a given site. -/
def PIDCHUNK : ℕ := 50

def MAXPID : ℕ := 30000

/-- The number of chunks in the whole process id space. -/
def NUMPIDCHUNKS : ℕ := (MAXPID + (PIDCHUNK - 1)) / PIDCHUNK

/-- The number of chunks that can be released in a single message. -/
def MAX_CHUNKS_TO_RELEASE : ℕ := 14

/-- A request is sent when there are fewer pids than this left. -/
def CHUNK_PREALLOCATE : ℕ := 5

/-- The last of the pids that only system processes have. -/
def PID_MAXSYS : ℕ := 6

/-- The first pid of a given chunk. -/
def CHUNKTOPID (chunk : ℕ) : ℕ := chunk * PIDCHUNK

/-- The size of a given chunk; as `PIDCHUNK` divides `MAXPID`, also that of the last one. -/
def CHUNKTOSIZE (_chunk : ℕ) : ℕ := PIDCHUNK

/-- The chunk containing a given pid. -/
def PIDTOCHUNK (pid : ℕ) : ℕ := pid / PIDCHUNK

/-! ### The server's table -/

/-- The variables of the pid server. -/
structure PidServer where
  /-- The site holding each chunk; `none` is the 0 of the source, which no site has. -/
  pidtable : ℕ → Option ℕ
  /-- The chunk allocated last, as an index; -1 at first. -/
  lastpidchunkallocated : ℤ

namespace PidServer

/-- `alloc_pidtable`. -/
def boot : PidServer where
  pidtable := fun _ => none
  lastpidchunkallocated := -1

/-- The chunks that a pointer visits which starts after `chunkp` and goes round the table until it has
visited `last`.  Where `last` is -1 it stops at the end of the table. -/
def between (chunkp last : ℤ) : List ℕ :=
  if chunkp ≤ last then
    List.range' (chunkp + 1).toNat (last - chunkp).toNat
  else
    List.range' (chunkp + 1).toNat (NUMPIDCHUNKS - 1 - chunkp).toNat ++ List.range (last + 1).toNat

/-- The chunks that a pointer visits which starts after `last` and goes round the table until it is at
`last` again, where it stops. -/
def round (last : ℤ) : List ℕ :=
  List.range' (last + 1).toNat (NUMPIDCHUNKS - 1 - last).toNat ++ List.range last.toNat

/-- The first loop of `getpidchunk`: a chunk of the site that the search has passed over. -/
def passedOver (t : PidServer) (site : ℕ) (lastnewpid : ℤ) : Option ℕ :=
  if 0 ≤ lastnewpid then
    (between (PIDTOCHUNK lastnewpid.toNat) t.lastpidchunkallocated).find?
      fun chunkp => t.pidtable chunkp = some site
  else none

/-- The second loop: a chunk that is free or the site's. -/
def nextFree (t : PidServer) (site : ℕ) : Option ℕ :=
  (round t.lastpidchunkallocated).find?
    fun chunkp => t.pidtable chunkp = none ∨ t.pidtable chunkp = some site

/-- `getpidchunk`: the first pid of the chunk, its size and the table; `none` if there is no chunk. -/
def getpidchunk (t : PidServer) (site : ℕ) (lastnewpid : ℤ) : Option (ℕ × ℕ × PidServer) :=
  match t.passedOver site lastnewpid with
  | some chunkp => some (CHUNKTOPID chunkp, CHUNKTOSIZE chunkp, t)
  | none => (t.nextFree site).map fun chunkp =>
      (CHUNKTOPID chunkp, CHUNKTOSIZE chunkp,
        { pidtable := update t.pidtable chunkp (some site), lastpidchunkallocated := chunkp })

/-- `returnpidchunk`. -/
def returnpidchunk (t : PidServer) (pid : ℕ) : PidServer :=
  { t with pidtable := update t.pidtable (PIDTOCHUNK pid) none }

/-- The loop of `serve_getpids` over `chunks_to_release`. -/
def release (t : PidServer) (chunks : List ℕ) : PidServer :=
  chunks.foldl returnpidchunk t

/-- The loop of `pid_cleanup`. -/
def cleanup (t : PidServer) (site : ℕ) : PidServer :=
  { t with pidtable := fun p => if t.pidtable p = some site then none else t.pidtable p }

end PidServer

/-! ### The variables of a site -/

/-- An entry of `mypidchunks`. -/
structure PidChunk where
  /-- The first pid in the chunk. -/
  start : ℕ
  /-- `end`: one past the last pid in the chunk; 0 if the entry is empty. -/
  fin : ℕ

/-- Where a process that is in `preallocate_pid_chunk` may sleep. -/
inductive Preallocation
  /-- In `dm_alloc`. -/
  | alloc
  /-- In `releasefreepidchunks` with the entries below `p` to go and `chunks_to_release` so far. -/
  | scan (p : ℕ) (chunksToRelease : List ℕ)
  /-- In the `dm_send` of `fillreleasepidchunk` for entry `p`. -/
  | release (p : ℕ)

/-- The variables of `dux_getpid.c` on one site, and the pids of its processes. -/
structure PidSite where
  availpids : ℕ → ℕ
  /-- The index of the next available pid. -/
  currentavailpid : ℕ
  /-- The index past the last available pid. -/
  lastavailpid : ℕ
  mypidchunks : ℕ → PidChunk
  /-- The first pid of the last chunk allocated to the site; -1 at first. -/
  lastnewpid : ℤ
  pidAllocInitiated : Bool
  pidAllocComplete : Bool
  pidAllocResponsible : Bool
  pidAllocWaiting : Bool
  pidAllocFirst : ℕ
  pidAllocSize : ℕ
  /-- `pid_alloc_error` is set. -/
  pidAllocError : Bool
  /-- The process that is in `preallocate_pid_chunk`, if any. -/
  preallocating : Option Preallocation
  /-- How many processes are back from `preallocate_pid_chunk` and have not gone on yet. -/
  preallocated : ℕ
  /-- The pids of the processes that have them from `dux_getnewpid`. -/
  proc : List ℕ
  /-- The pids of the system processes, which bypass it. -/
  sysproc : List ℕ

namespace PidSite

/-- A site that comes up. -/
def boot : PidSite where
  availpids := fun _ => 0
  currentavailpid := 0
  lastavailpid := 0
  mypidchunks := fun _ => ⟨0, 0⟩
  lastnewpid := -1
  pidAllocInitiated := false
  pidAllocComplete := false
  pidAllocResponsible := false
  pidAllocWaiting := false
  pidAllocFirst := 0
  pidAllocSize := 0
  pidAllocError := false
  preallocating := none
  preallocated := 0
  proc := []
  sysproc := []

/-- The pids in the process table. -/
def pids (s : PidSite) : List ℕ := s.sysproc ++ s.proc

/-- The first of `n` slots from `cur` on that is not 0. -/
def skipZeros (availpids : ℕ → ℕ) : ℕ → ℕ → ℕ
  | 0, cur => cur
  | n + 1, cur => if availpids cur = 0 then skipZeros availpids n (cur + 1) else cur

/-- The first loop of `dux_getnewpid`: skip over any unavailable slots. -/
def skip (s : PidSite) : PidSite :=
  { s with currentavailpid :=
      skipZeros s.availpids (s.lastavailpid - s.currentavailpid) s.currentavailpid }

/-- Entry `p` is in use, is not the last chunk, and no process has a pid of it. -/
def Releasable (s : PidSite) (p : ℕ) : Prop :=
  (s.mypidchunks p).fin ≠ 0 ∧ s.lastnewpid ≠ (s.mypidchunks p).start ∧
    ∀ pid ∈ s.pids, ¬((s.mypidchunks p).start ≤ pid ∧ pid < (s.mypidchunks p).fin)

instance (s : PidSite) (p : ℕ) : Decidable (s.Releasable p) := by
  unfold Releasable
  infer_instance

/-- `p->end=0`. -/
def free (s : PidSite) (p : ℕ) : PidSite :=
  { s with mypidchunks := update s.mypidchunks p { s.mypidchunks p with fin := 0 } }

/-- `releasefreepidchunks(returnpidchunk,0)` for the entries below the first argument. -/
def releasefreepidchunks : ℕ → PidSite → PidServer → PidSite × PidServer
  | 0, s, t => (s, t)
  | p + 1, s, t =>
    if s.Releasable p then
      releasefreepidchunks p (s.free p) (t.returnpidchunk (s.mypidchunks p).start)
    else releasefreepidchunks p s t

/-- The search of `neednewchunk` among the entries below the first argument: the entry that has the
chunk, and the last free entry that the search came to. -/
def lookup (s : PidSite) (firstpid : ℕ) : ℕ → Option ℕ → Option ℕ × Option ℕ
  | 0, avail => (none, avail)
  | p + 1, avail =>
    if (s.mypidchunks p).fin = 0 then s.lookup firstpid p (some p)
    else if (s.mypidchunks p).start = firstpid then (some p, avail)
    else s.lookup firstpid p avail

/-- The end of `neednewchunk`: the slots of `availpids` for the chunk, without the pids in use if the
chunk was `found`. -/
def fill (s : PidSite) (found : Bool) (firstpid size : ℕ) : PidSite :=
  { s with
    lastnewpid := firstpid
    availpids := fun i =>
      if i < size then if found ∧ firstpid + i ∈ s.pids then 0 else firstpid + i
      else s.availpids i
    currentavailpid := if firstpid = 0 then PID_MAXSYS + 1 else 0
    lastavailpid := size }

/-- `neednewchunk` once it has a chunk; `none` is the panic that there is no entry for it. -/
def install (s : PidSite) (nproc firstpid size : ℕ) : Option PidSite :=
  match s.lookup firstpid nproc none with
  | (some _, _) => some (s.fill true firstpid size)
  | (none, some p) =>
    some { s.fill false firstpid size with
      mypidchunks := update s.mypidchunks p ⟨firstpid, firstpid + size⟩ }
  | (none, none) => none

end PidSite

/-! ### The cluster -/

/-- The requests `DM_RELEASEPIDS` and `DM_GETPIDS`. -/
inductive PidRequest
  | releasepids (chunksToRelease : List ℕ)
  | getpids (lastnewpid : ℤ) (chunksToRelease : List ℕ)

/-- The replies to `DM_RELEASEPIDS` and to `DM_GETPIDS`. -/
inductive PidReply
  | released
  | eagain
  | chunk (firstpid size : ℕ)

inductive SiteStatus
  | up
  /-- Has failed; the cleanup is to come. -/
  | failed
  | out
  deriving DecidableEq

/-- A site and the messages between it and the server. -/
structure PidNode where
  status : SiteStatus
  vars : PidSite
  /-- The requests on their way, the oldest first. -/
  toServer : List PidRequest
  /-- The replies on their way, the oldest first. -/
  toClient : List PidReply

/-- A site that is not in the cluster. -/
def PidNode.out : PidNode := ⟨.out, .boot, [], []⟩

/-- The server's table, the sites, and the pids returned so far. -/
structure PidCluster where
  server : PidServer
  node : ℕ → PidNode
  returned : List ℕ

/-- What can happen.  `conflict`: the pid is that of a process group or session.  `enter`: the caller
enters the pid in the process table. -/
inductive PidAct
  /-- `dux_getnewpid`, or its restart. -/
  | fork (i : ℕ) (conflict enter : Bool)
  /-- `dm_alloc` returns. -/
  | allocate (i : ℕ)
  /-- One turn of the loop of `releasefreepidchunks`. -/
  | scan (i : ℕ)
  /-- The `dm_send` at the end of `preallocate_pid_chunk`. -/
  | send (i : ℕ)
  /-- `dux_getnewpid` after `preallocate_pid_chunk`. -/
  | resume (i : ℕ) (conflict enter : Bool)
  /-- The responsible process goes on in `getpreallocatedpidchunk`. -/
  | consume (i : ℕ)
  /-- `serve_getpids` for the oldest request. -/
  | serve (i : ℕ)
  /-- The oldest reply arrives. -/
  | reply (i : ℕ)
  /-- A message to or from a failed site is dropped. -/
  | dropRequest (i : ℕ)
  | dropReply (i : ℕ)
  | exit (i pid : ℕ)
  /-- The system processes come and go. -/
  | system (i : ℕ) (pids : List ℕ)
  | fail (i : ℕ)
  | pidCleanup (i : ℕ)
  | join (i : ℕ)

namespace PidCluster

variable (root : ℕ) (nproc : ℕ → ℕ)

def set (s : PidCluster) (i : ℕ) (n : PidNode) : PidCluster :=
  { s with node := update s.node i n }

/-- The state of site `i` when its variables are `v`. -/
def setVars (s : PidCluster) (i : ℕ) (v : PidSite) : PidCluster :=
  s.set i { s.node i with vars := v }

/-- `neednewchunk` on the server. -/
def neednewchunk (s : PidCluster) (v : PidSite) : Option PidCluster :=
  let r := v.releasefreepidchunks (nproc root) s.server
  match r.2.getpidchunk root r.1.lastnewpid with
  | none => some { s.setVars root r.1 with server := r.2 }
  | some (firstpid, size, t) => (r.1.install (nproc root) firstpid size).map fun v' =>
      { s.setVars root v' with server := t }

/-- `getpreallocatedpidchunk` up to the place where it waits. -/
def getpreallocatedpidchunk (s : PidCluster) (i : ℕ) (v : PidSite) : PidCluster :=
  if v.pidAllocResponsible then s.setVars i { v with pidAllocWaiting := true }
  else s.setVars i { v with pidAllocResponsible := true }

/-- `newpid = *(currentavailpid++)` and what follows. -/
def take (s : PidCluster) (i : ℕ) (conflict enter : Bool) (v : PidSite) : PidCluster :=
  let newpid := v.availpids v.currentavailpid
  let v' := { v with currentavailpid := v.currentavailpid + 1 }
  if conflict then s.setVars i v'
  else { s.setVars i { v' with proc := if enter then newpid :: v.proc else v.proc } with
    returned := newpid :: s.returned }

/-- `dux_getnewpid` from the test for the end of the list on. -/
def getnewpid (s : PidCluster) (i : ℕ) (conflict enter : Bool) (v : PidSite) : Option PidCluster :=
  if v.lastavailpid ≤ v.currentavailpid then
    if i = root then s.neednewchunk root nproc v else some (s.getpreallocatedpidchunk i v)
  else some (s.take i conflict enter v)

/-- `dux_getnewpid`, if need be up to the place where `preallocate_pid_chunk` may sleep first. -/
def fork (s : PidCluster) (i : ℕ) (conflict enter : Bool) : Option PidCluster :=
  let v := (s.node i).vars.skip
  if i ≠ root ∧ v.pidAllocInitiated = false ∧
      v.lastavailpid - v.currentavailpid < CHUNK_PREALLOCATE then
    some (s.setVars i { v with pidAllocInitiated := true, preallocating := some .alloc })
  else s.getnewpid root nproc i conflict enter v

def allocate (s : PidCluster) (i : ℕ) : Option PidCluster :=
  let v := (s.node i).vars
  match v.preallocating with
  | some .alloc => some (s.setVars i { v with preallocating := some (.scan (nproc i) []) })
  | _ => none

/-- One turn of `releasefreepidchunks(fillreleasepidchunk,message)`. -/
def scan (s : PidCluster) (i : ℕ) : Option PidCluster :=
  let n := s.node i
  match n.vars.preallocating with
  | some (.scan (p + 1) chunks) =>
    if n.vars.Releasable p then
      if chunks.length ≥ MAX_CHUNKS_TO_RELEASE then
        some (s.set i { n with
          vars := { n.vars with preallocating := some (.release p) }
          toServer := n.toServer ++ [.releasepids chunks] })
      else
        some (s.setVars i { n.vars.free p with
          preallocating := some (.scan p (chunks ++ [(n.vars.mypidchunks p).start])) })
    else some (s.setVars i { n.vars with preallocating := some (.scan p chunks) })
  | _ => none

def send (s : PidCluster) (i : ℕ) : Option PidCluster :=
  let n := s.node i
  match n.vars.preallocating with
  | some (.scan 0 chunks) =>
    some (s.set i { n with
      vars := { n.vars with preallocating := none, preallocated := n.vars.preallocated + 1 }
      toServer := n.toServer ++ [.getpids n.vars.lastnewpid chunks] })
  | _ => none

/-- The process goes on without another look at the slot that `currentavailpid` points to. -/
def resume (s : PidCluster) (i : ℕ) (conflict enter : Bool) : Option PidCluster :=
  let v := (s.node i).vars
  if 0 < v.preallocated then
    s.getnewpid root nproc i conflict enter { v with preallocated := v.preallocated - 1 }
  else none

/-- The responsible process takes the chunk, clears the flags and returns to `neednewchunk`. -/
def consume (s : PidCluster) (i : ℕ) : Option PidCluster :=
  let v := (s.node i).vars
  if v.pidAllocResponsible ∧ v.pidAllocComplete then
    let v' := { v with
      pidAllocInitiated := false, pidAllocComplete := false
      pidAllocResponsible := false, pidAllocWaiting := false }
    if v.pidAllocError then some (s.setVars i v')
    else (v'.install (nproc i) v.pidAllocFirst v.pidAllocSize).map (s.setVars i)
  else none

/-- `serve_getpids`. -/
def serve (s : PidCluster) (i : ℕ) : Option PidCluster :=
  let n := s.node i
  match n.toServer with
  | [] => none
  | .releasepids chunks :: rest =>
    some { s.set i { n with toServer := rest, toClient := n.toClient ++ [.released] } with
      server := s.server.release chunks }
  | .getpids lastnewpid chunks :: rest =>
    match (s.server.release chunks).getpidchunk i lastnewpid with
    | none =>
      some { s.set i { n with toServer := rest, toClient := n.toClient ++ [.eagain] } with
        server := s.server.release chunks }
    | some (firstpid, size, t) =>
      some { s.set i { n with toServer := rest, toClient := n.toClient ++ [.chunk firstpid size] }
        with server := t }

/-- The reply to the special message lets `fillreleasepidchunk` go on; the other replies are received
by `recv_pid_reply`. -/
def reply (s : PidCluster) (i : ℕ) : Option PidCluster :=
  let n := s.node i
  match n.toClient with
  | [] => none
  | .released :: rest =>
    match n.vars.preallocating with
    | some (.release p) =>
      some (s.set i { n with
        vars := { n.vars.free p with
          preallocating := some (.scan p [(n.vars.mypidchunks p).start]) }
        toClient := rest })
    | _ => none
  | .eagain :: rest =>
    some (s.set i { n with
      vars := { n.vars with pidAllocComplete := true, pidAllocError := true }
      toClient := rest })
  | .chunk firstpid size :: rest =>
    some (s.set i { n with
      vars := { n.vars with
        pidAllocComplete := true, pidAllocError := false
        pidAllocFirst := firstpid, pidAllocSize := size }
      toClient := rest })

/-- When an event can happen, as far as the site is concerned: a failed site does nothing but lose its
processes, and `pid_cleanup` runs when they are gone and its requests have been dealt with. -/
def Enabled (s : PidCluster) : PidAct → Prop
  | .fork i _ _ | .allocate i | .scan i | .send i | .resume i _ _ | .consume i | .reply i =>
    (s.node i).status = .up
  | .serve _ => True
  | .dropRequest i | .dropReply i => (s.node i).status = .failed
  | .exit i _ => (s.node i).status ≠ .out
  | .system i pids => (s.node i).status ≠ .out ∧ ∀ pid ∈ pids, pid ≤ PID_MAXSYS
  | .fail i => i ≠ root ∧ (s.node i).status = .up
  | .pidCleanup i => (s.node i).status = .failed ∧ (s.node i).vars.proc = [] ∧
      (s.node i).toServer = [] ∧ (s.node i).toClient = []
  | .join i => (s.node i).status = .out

/-- The next state; `none` if the routine is not at this place. -/
def next (s : PidCluster) : PidAct → Option PidCluster
  | .fork i conflict enter => s.fork root nproc i conflict enter
  | .allocate i => s.allocate nproc i
  | .scan i => s.scan i
  | .send i => s.send i
  | .resume i conflict enter => s.resume root nproc i conflict enter
  | .consume i => s.consume nproc i
  | .serve i => s.serve i
  | .reply i => s.reply i
  | .dropRequest i => some (s.set i { s.node i with toServer := (s.node i).toServer.tail })
  | .dropReply i => some (s.set i { s.node i with toClient := (s.node i).toClient.tail })
  | .exit i pid =>
    some (s.setVars i { (s.node i).vars with proc := (s.node i).vars.proc.erase pid })
  | .system i pids => some (s.setVars i { (s.node i).vars with sysproc := pids })
  | .fail i => some (s.set i { s.node i with status := .failed })
  | .pidCleanup i => some { s.set i .out with server := s.server.cleanup i }
  | .join i => some (s.set i { s.node i with status := .up })

end PidCluster

/-- The runs of the cluster with the server `root` and process tables of `nproc i` entries. -/
def pidLts (root : ℕ) (nproc : ℕ → ℕ) : Lts PidCluster PidAct where
  init s := s.server = .boot ∧ s.returned = [] ∧ s.node root = { PidNode.out with status := .up } ∧
    ∀ i, i ≠ root → s.node i = .out
  step s a s' := s.Enabled root a ∧ s.next root nproc a = some s'

end Dux

end Hpux
