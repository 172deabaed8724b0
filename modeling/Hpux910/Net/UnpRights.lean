import Hpux910.Lib.Lts
import Mathlib

/-!
# Descriptors in flight

A message on a Unix-domain socket can carry references to open files.  A file counts its references,
and apart those that are in messages; files whose references are all in messages may be unreachable
and are collected.  This file models sending, receiving, closing and the collection.

* `UnpFiles` : the file table, the receive queues, and the rest of the work of a close.
* `prusend`, `receive` : the two ends of a message.
* `markLoop`, `unpGc` : the mark phase.
* `UnpFiles.step` : one piece of `closef`, `soclose`, `unp_detach`, `unp_dispose` or of the sweep.
* `FilesAct`, `filesLts` : the events.

Closing a file can close others, which are on its queue, and can start a collection, so the calls
that have not returned are kept as a stack.  Of a message only the files are kept; how much room a
receive buffer has is told by an event.  A count that is decremented does not wrap, since `closef`
panics below 1, so only increments are reduced to a short.
-/

namespace Hpux.Net

open Function

/-- A short. -/
def toShort (z : ℤ) : ℤ := (z + 32768) % 65536 - 32768

/-- A call that has not returned. -/
inductive UnpTask (n : ℕ) (S : Type)
  | closef (f : Fin n)
  /-- The end of `closef`, after `fo_close`. -/
  | closed (f : Fin n)
  | soclose (x : S)
  /-- `soclose` from `discard` on. -/
  | sofree (x : S)
  /-- `unp_dispose`; the references that are left. -/
  | dispose (l : List (Fin n))
  /-- The second loop of `unp_gc`; the files that are left. -/
  | sweep (l : List (Fin n))
  /-- The inner loop. -/
  | sweepFile (f : Fin n) (l : List (Fin n))

/-- The file table and the Unix-domain sockets. -/
structure UnpFiles (n : ℕ) (S : Type) where
  fcount : Fin n → ℤ
  fmsgcount : Fin n → ℤ
  fmark : Fin n → Bool
  fdefer : Fin n → Bool
  /-- The Unix-domain socket of a file (`f_data`). -/
  sock : Fin n → Option S
  /-- The files in each record of the receive queue. -/
  queue : S → List (List (Fin n))
  /-- `so_pcb` is set. -/
  pcb : S → Bool
  /-- `SS_NOFDREF` -/
  nofdref : S → Bool
  /-- `SOCK_STREAM`; else `SOCK_DGRAM`. -/
  stream : S → Bool
  cantsendmore : S → Bool
  conn : S → Option S
  /-- `sbspace` of the receive buffer. -/
  space : S → ℤ
  unpRights : ℤ
  unpDefer : ℤ
  unpGcing : Bool
  /-- The descriptors of all processes that refer to the file. -/
  desc : Fin n → ℕ
  stack : List (UnpTask n S)

variable {n : ℕ} {S : Type} [DecidableEq S]

namespace UnpFiles

/-! ### Sending and receiving -/

inductive SendError
  | EBADF | EISCONN | ENOTCONN | ENOBUFS | EPIPE
  /-- The error of `unp_connect`. -/
  | connect
  deriving DecidableEq

/-- The second loop of `unp_internalize`. -/
def takeRef (s : UnpFiles n S) (f : Fin n) : UnpFiles n S :=
  { s with
    fcount := update s.fcount f (toShort (s.fcount f + 1))
    fmsgcount := update s.fmsgcount f (toShort (s.fmsgcount f + 1))
    unpRights := s.unpRights + 1 }

/-- A record is put behind the others of a receive queue. -/
def append (s : UnpFiles n S) (x : S) (r : List (Fin n)) : UnpFiles n S :=
  { s with queue := update s.queue x (s.queue x ++ [r]) }

/-- A message: `rights` are the files of the descriptors and `rlen` the length of the mbuf that holds
them; `mem` tells whether mbufs are found for it. -/
structure Message (n : ℕ) where
  rights : List (Fin n)
  rlen : ℕ
  len : ℕ
  mem : Bool

/-- `sizeof (struct sockaddr_un)` -/
def SOCKADDR_UN : ℕ := 94

/-- `sbspace(sb) > 0 && sbappendaddr_un` finds room. -/
def dgramFits (s : UnpFiles n S) (y : S) (m : Message n) : Prop :=
  0 < s.space y ∧ ((SOCKADDR_UN + m.len + m.rlen : ℕ) : ℤ) ≤ s.space y ∧ m.mem = true

instance (s : UnpFiles n S) (y : S) (m : Message n) : Decidable (s.dgramFits y m) :=
  inferInstanceAs (Decidable (_ ∧ _ ∧ _))

/-- `sbappendrights` finds room; `m_copy` of no bytes is a failure. -/
def streamFits (s : UnpFiles n S) (y : S) (m : Message n) : Prop :=
  ((m.len + m.rlen : ℕ) : ℤ) ≤ s.space y ∧ m.rlen ≠ 0 ∧ m.mem = true

instance (s : UnpFiles n S) (y : S) (m : Message n) : Decidable (s.streamFits y m) :=
  inferInstanceAs (Decidable (_ ∧ _ ∧ _))

/-- The rest of a datagram send, to `y`. -/
def sendDgram (s : UnpFiles n S) (y : S) (m : Message n) : UnpFiles n S × Option SendError :=
  if s.dgramFits y m then (s.append y m.rights, none) else (s, some .ENOBUFS)

/-- `PRU_SEND` behind `unp_internalize`.  `nam` is the name given, if there is one, as what
`unp_connect` makes of it.  `hasRights` is false if there is no mbuf of rights. -/
def sendInternalized (s : UnpFiles n S) (x : S) (hasRights : Bool) (m : Message n)
    (nam : Option (Option S)) : Except Trap (UnpFiles n S × Option SendError) :=
  if s.stream x then
    if s.cantsendmore x then .ok (s, some .EPIPE)
    else
      match s.conn x with
      | none => .error .panic
      | some y =>
        if hasRights then
          -- what `sbappendrights` returns is not looked at
          .ok (if s.streamFits y m then s.append y m.rights else s, none)
        else .ok (if s.queue y = [] ∧ m.len ≠ 0 then s.append y [] else s, none)
  else
    match nam, s.conn x with
    | some _, some _ => .ok (s, some .EISCONN)
    | some none, none => .ok (s, some .connect)
    -- `unp_connect`, and `unp_disconnect` at the end
    | some (some y), none => .ok (s.sendDgram y m)
    | none, none => .ok (s, some .ENOTCONN)
    | none, some y => .ok (s.sendDgram y m)

/-- `PRU_SEND`; `fds` are what the descriptors in the mbuf of rights refer to, if there is one. -/
def prusend (s : UnpFiles n S) (x : S) (fds : Option (List (Option (Fin n)) × ℕ)) (len : ℕ)
    (mem : Bool) (nam : Option (Option S)) : Except Trap (UnpFiles n S × Option SendError) :=
  match fds with
  | none => s.sendInternalized x false ⟨[], 0, len, mem⟩ nam
  | some (l, rlen) =>
    if none ∈ l then .ok (s, some .EBADF)
    else
      let fs := l.reduceOption
      (fs.foldl takeRef s).sendInternalized x true ⟨fs, rlen, len, mem⟩ nam

/-- `unp_externalize` for one reference, when there are descriptors. -/
def giveDesc (s : UnpFiles n S) (f : Fin n) : UnpFiles n S :=
  { s with
    fmsgcount := update s.fmsgcount f (s.fmsgcount f - 1)
    unpRights := s.unpRights - 1
    desc := update s.desc f (s.desc f + 1) }

/-- What becomes of the rights that `soreceive` has taken off the queue. -/
inductive Taken
  /-- They are externalized; the answer is that of `ufavail`. -/
  | externalize (avail : Bool)
  /-- The copy of the data to the user failed. -/
  | fault
  /-- The caller has no place for rights, as `soo_rw`. -/
  | noPlace

/-- `soreceive` on the first record; `keep` tells whether data of it stay on the queue. -/
def receive (s : UnpFiles n S) (x : S) (keep : Bool) (how : Taken) : UnpFiles n S :=
  match s.queue x with
  | [] => s
  | r :: q =>
    let s := { s with queue := update s.queue x (if keep then [] :: q else q) }
    match how with
    | .externalize true => r.foldl giveDesc s
    | .externalize false => { s with stack := [.dispose r] }
    | .fault => s
    | .noPlace => s

/-! ### The collection -/

/-- `unp_mark` -/
def unpMark (s : UnpFiles n S) (f : Fin n) : UnpFiles n S :=
  if s.fmark f then s
  else
    { s with
      unpDefer := s.unpDefer + 1
      fmark := update s.fmark f true
      fdefer := update s.fdefer f true }

/-- `unp_scan` of the queue of a file, if it is that of a Unix-domain socket. -/
def scan (s : UnpFiles n S) (f : Fin n) : UnpFiles n S :=
  match s.sock f with
  | none => s
  | some x => (s.queue x).flatten.foldl unpMark s

/-- The inner loop of the mark phase for one file. -/
def visit (s : UnpFiles n S) (f : Fin n) : UnpFiles n S :=
  if s.fcount f = 0 then s
  else if s.fdefer f then
    { s with fdefer := update s.fdefer f false, unpDefer := s.unpDefer - 1 }.scan f
  else if s.fmark f then s
  else if s.fcount f = s.fmsgcount f then s
  else { s with fmark := update s.fmark f true }.scan f

/-- `do ... while (unp_defer)` -/
def markLoop : ℕ → UnpFiles n S → Except Trap (UnpFiles n S)
  | 0, _ => .error .spin
  | fuel + 1, s =>
    let s := (List.finRange n).foldl visit s
    if s.unpDefer = 0 then .ok s else markLoop fuel s

/-- `unp_gc` up to the sweep, which is left to be done. -/
def unpGc (s : UnpFiles n S) : Except Trap (UnpFiles n S) :=
  if s.unpGcing then .ok s
  else
    match markLoop (n + 1) { s with
      unpGcing := true
      unpDefer := 0
      fmark := fun _ => false
      fdefer := fun _ => false } with
    | .error t => .error t
    | .ok s => .ok { s with stack := .sweep (List.finRange n) :: s.stack }

/-! ### Closing -/

/-- `unp_discard` up to the call of `closef`. -/
def unpDiscard (s : UnpFiles n S) (f : Fin n) : UnpFiles n S :=
  { s with
    fmsgcount := update s.fmsgcount f (s.fmsgcount f - 1)
    unpRights := s.unpRights - 1
    stack := .closef f :: s.stack }

/-- The next piece of work; `rest` is below it on the stack. -/
def work (s : UnpFiles n S) (rest : List (UnpTask n S)) :
    UnpTask n S → Except Trap (UnpFiles n S)
  | .closef f =>
    if 1 < s.fcount f then
      .ok { s with fcount := update s.fcount f (s.fcount f - 1), stack := rest }
    else if s.fcount f < 1 then .error .panic
    else
      match s.sock f with
      | none => .ok { s with stack := .closed f :: rest }
      | some x => .ok { s with stack := .soclose x :: .closed f :: rest }
  | .closed f =>
    .ok { s with
      sock := update s.sock f none
      fcount := update s.fcount f 0
      stack := rest }
  | .soclose x =>
    let s' := { s with stack := .sofree x :: rest }
    if s.pcb x then
      let s' := { s' with pcb := update s.pcb x false }
      if s.unpRights ≠ 0 then s'.unpGc else .ok s'
    else .ok s'
  | .sofree x =>
    if s.nofdref x then .error .panic
    else
      .ok { s with
        nofdref := update s.nofdref x true
        queue := update s.queue x []
        stack := .dispose (s.queue x).flatten :: rest }
  | .dispose [] => .ok { s with stack := rest }
  | .dispose (f :: l) => .ok ({ s with stack := .dispose l :: rest }.unpDiscard f)
  | .sweep [] => .ok { s with unpGcing := false, stack := rest }
  | .sweep (f :: l) =>
    if s.fcount f ≠ 0 ∧ s.fcount f = s.fmsgcount f ∧ s.fmark f = false then
      .ok { s with stack := .sweepFile f l :: rest }
    else .ok { s with stack := .sweep l :: rest }
  | .sweepFile f l =>
    if s.fmsgcount f ≠ 0 then .ok ({ s with stack := .sweepFile f l :: rest }.unpDiscard f)
    else .ok { s with stack := .sweep l :: rest }

/-- One piece of work. -/
def step (s : UnpFiles n S) : Except Trap (UnpFiles n S) :=
  match s.stack with
  | [] => .ok s
  | t :: rest => s.work rest t

end UnpFiles

/-! ### Runs -/

/-- What can happen. -/
inductive FilesAct (n : ℕ) (S : Type)
  /-- `falloc`, with a new socket or an accepted one if `x` is given. -/
  | falloc (f : Fin n) (x : Option S)
  /-- Another descriptor for an open file. -/
  | dup (f : Fin n)
  | close (f : Fin n)
  | send (x : S) (fds : Option (List (Option (Fin n)) × ℕ)) (len : ℕ) (mem : Bool)
      (nam : Option (Option S))
  | receive (x : S) (keep : Bool) (how : UnpFiles.Taken)
  /-- The receive side is shut down, or a connection that was never accepted is aborted. -/
  | flush (x : S)
  /-- What else happens to a socket. -/
  | other (x : S) (conn : Option S) (cantsendmore : Bool) (space : ℤ)
  | step

/-- When an event can happen: one call is completed before the next. -/
def FilesAct.Enabled (s : UnpFiles n S) : FilesAct n S → Prop
  | .falloc f x => s.stack = [] ∧ s.fcount f = 0 ∧ ∀ y, x = some y → ∀ g, s.sock g ≠ some y
  | .dup f => s.stack = [] ∧ s.desc f ≠ 0
  | .close f => s.stack = [] ∧ s.desc f ≠ 0
  | .send _ fds _ _ _ => s.stack = [] ∧ ∀ l rlen, fds = some (l, rlen) →
      l.length = rlen / 4 ∧ ∀ f, some f ∈ l → s.desc f ≠ 0
  | .receive _ _ _ => s.stack = []
  | .flush _ => s.stack = []
  | .other _ _ _ _ => s.stack = []
  | .step => s.stack ≠ []

def UnpFiles.next (s : UnpFiles n S) : FilesAct n S → Except Trap (UnpFiles n S)
  | .falloc f x => .ok { s with
      fcount := update s.fcount f 1
      desc := update s.desc f 1
      sock := update s.sock f x
      pcb := fun y => if x = some y then true else s.pcb y
      nofdref := fun y => if x = some y then false else s.nofdref y }
  | .dup f => .ok { s with
      fcount := update s.fcount f (toShort (s.fcount f + 1))
      desc := update s.desc f (s.desc f + 1) }
  | .close f => .ok { s with desc := update s.desc f (s.desc f - 1), stack := [.closef f] }
  | .send x fds len mem nam => (s.prusend x fds len mem nam).map Prod.fst
  | .receive x keep how => .ok (s.receive x keep how)
  | .flush x => .ok { s with
      queue := update s.queue x []
      stack := [.dispose (s.queue x).flatten] }
  | .other x conn cantsendmore space => .ok { s with
      conn := update s.conn x conn
      cantsendmore := update s.cantsendmore x cantsendmore
      space := update s.space x space }
  | .step => s.step

/-- The sequences of events from the state without open files. -/
def filesLts (n : ℕ) (S : Type) [DecidableEq S] :
    Lts (Except Trap (UnpFiles n S)) (FilesAct n S) :=
  .ofCalls (fun s =>
    (∀ f, s.fcount f = 0 ∧ s.fmsgcount f = 0 ∧ s.desc f = 0 ∧ s.sock f = none) ∧
    (∀ y, s.queue y = []) ∧ s.unpRights = 0 ∧ s.unpGcing = false ∧ s.stack = [])
    (fun s a => a.Enabled s) UnpFiles.next

end Hpux.Net
