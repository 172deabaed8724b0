import Hpux910.Lib.LinkedQueue
import Hpux910.Lib.Lts
import Mathlib

/-!
# Connected datagram sockets of the Unix domain

A control block that is connected to another one points to it with `unp_conn`, and the other one
keeps those that point to it on a list from `unp_refs`, linked through `unp_nextref`.  This file
models connecting, disconnecting and closing of datagram sockets by any number of processes.

* `Unp` : the control blocks, the names they are bound to, and the calls that are looking up a name.
* `Unp.connect2`, `Unp.disconnect`, `Unp.detach` : the routines that change the lists.
* `UnpAct`, `unpLts` : the events; a process is switched away in the name lookup and the access check
  of `unp_connect`.

The loops are bounded by the number of places for control blocks; the bound shows as `Trap.spin`.
-/

namespace Hpux.Net

open Function

/-- What a process wants the name of a socket for. -/
inductive UnpCall (U : Type)
  | connect (u : U)
  | sendto (u : U)
  deriving DecidableEq

/-- The socket that is to be connected. -/
def UnpCall.sock {U : Type} : UnpCall U → U
  | connect u => u
  | sendto u => u

variable {U N P : Type} [DecidableEq U] [DecidableEq N] [DecidableEq P]

/-- The datagram sockets: `U` are the places for control blocks, `N` the file names and `P` the
processes. -/
structure Unp (U N P : Type) where
  /-- The place holds a control block (`so_pcb` points to it). -/
  live : U → Bool
  conn : U → Option U
  refs : U → Option U
  nextref : U → Option U
  /-- `unp_vnode`. -/
  vnode : U → Option N
  /-- `v_socket`. -/
  vsocket : N → Option U
  /-- `so_state & SS_ISCONNECTED`. -/
  isconnected : U → Bool
  /-- `so_error`: the other end is gone. -/
  reset : U → Bool
  /-- The calls that are in `lookupname` or `VOP_ACCESS`. -/
  calls : P → Option (UnpCall U)

namespace Unp

/-- `unp_connect2` on datagram sockets. -/
def connect2 (s : Unp U N P) (u u2 : U) : Unp U N P :=
  { s with
    conn := update s.conn u (some u2)
    nextref := update s.nextref u (s.refs u2)
    refs := update s.refs u2 (some u)
    isconnected := update s.isconnected u true }

/-- The loop of `unp_disconnect`: the control block in front of `u`. -/
def findRef (s : Unp U N P) (u : U) : ℕ → Option U → Except Trap U
  | 0, _ => .error .spin
  | _ + 1, none => .error .panic
  | fuel + 1, some r => if s.nextref r = some u then .ok r else s.findRef u fuel (s.nextref r)

variable [Fintype U]

/-- `unp_disconnect`. -/
def disconnect (s : Unp U N P) (u : U) : Except Trap (Unp U N P) :=
  match s.conn u with
  | none => .ok s
  | some u2 =>
    let s := { s with conn := update s.conn u none, isconnected := update s.isconnected u false }
    if s.refs u2 = some u then
      .ok { s with
        refs := update s.refs u2 (s.nextref u)
        nextref := update s.nextref u none }
    else
      match s.findRef u (Fintype.card U + 1) (s.refs u2) with
      | .error t => .error t
      | .ok r =>
        .ok { s with nextref := update (update s.nextref r (s.nextref u)) u none }

/-- `unp_drop`; a datagram socket is on no listening socket's queue. -/
def drop (s : Unp U N P) (u : U) : Except Trap (Unp U N P) :=
  { s with reset := update s.reset u true }.disconnect u

/-- The loop of `unp_detach`. -/
def dropRefs (u : U) : ℕ → Unp U N P → Except Trap (Unp U N P)
  | 0, _ => .error .spin
  | fuel + 1, s =>
    match s.refs u with
    | none => .ok s
    | some r => s.drop r >>= dropRefs u fuel

/-- `unp_detach`. -/
def detach (s : Unp U N P) (u : U) : Except Trap (Unp U N P) := do
  let s := { s with
    vsocket := fun n => if s.vnode u = some n then none else s.vsocket n
    vnode := update s.vnode u none }
  let s ← s.disconnect u
  let s ← dropRefs u (Fintype.card U + 1) s
  return { s with isconnected := update s.isconnected u false, live := update s.live u false }

/-- `unp_attach`: the control block is cleared. -/
def attach (s : Unp U N P) (u : U) : Unp U N P :=
  { s with
    live := update s.live u true
    conn := update s.conn u none
    refs := update s.refs u none
    nextref := update s.nextref u none
    vnode := update s.vnode u none
    isconnected := update s.isconnected u false
    reset := update s.reset u false }

/-- `sodisconnect`. -/
def sodisconnect (s : Unp U N P) (u : U) : Except Trap (Unp U N P) :=
  if s.isconnected u then s.disconnect u else .ok s

/-- `soconnect` up to the name lookup. -/
def connect (s : Unp U N P) (p : P) (u : U) : Except Trap (Unp U N P) := do
  let s ← s.sodisconnect u
  return { s with calls := update s.calls p (some (.connect u)) }

/-- A datagram with a name is sent, up to the name lookup. -/
def sendto (s : Unp U N P) (p : P) (u : U) : Unp U N P :=
  if s.conn u ≠ none then s else { s with calls := update s.calls p (some (.sendto u)) }

/-- The rest of `unp_connect`, and of the datagram send: the name has been found to be that of `n`. -/
def found (s : Unp U N P) (p : P) (n : N) : Except Trap (Unp U N P) := do
  let ended := { s with calls := update s.calls p none }
  match s.calls p, s.vsocket n with
  | some (.connect u), some u2 => return ended.connect2 u u2
  | some (.sendto u), some u2 => (ended.connect2 u u2).disconnect u
  | _, _ => return ended

end Unp

/-- What can happen. -/
inductive UnpAct (U N P : Type)
  | attach (u : U)
  /-- `unp_bind`. -/
  | bind (u : U) (n : N)
  /-- `socketpair`. -/
  | pair (u v : U)
  | connect (p : P) (u : U)
  | sendto (p : P) (u : U)
  | found (p : P) (n : N)
  /-- The name lookup or the access check fails, or the vnode is no datagram socket. -/
  | fail (p : P)
  | disconnect (u : U)
  | drop (u : U)
  | detach (u : U)

/-- When an event can happen.  A process that is in a call has the socket open, so that it is not
closed, and `sosend` admits one sender at a time. -/
def UnpAct.Enabled (s : Unp U N P) : UnpAct U N P → Prop
  | .attach u => s.live u = false
  | .bind u n => s.live u = true ∧ s.vnode u = none ∧ s.vsocket n = none
  | .pair u v => s.live u = false ∧ s.live v = false ∧ u ≠ v
  | .connect p u => s.live u = true ∧ s.calls p = none
  | .sendto p u => s.live u = true ∧ s.calls p = none ∧ ∀ p', s.calls p' ≠ some (.sendto u)
  | .found p _ => s.calls p ≠ none
  | .fail p => s.calls p ≠ none
  | .disconnect u => s.live u = true
  | .drop u => s.live u = true
  | .detach u => s.live u = true ∧ ∀ p c, s.calls p = some c → c.sock ≠ u

variable [Fintype U]

def Unp.next (s : Unp U N P) : UnpAct U N P → Except Trap (Unp U N P)
  | .attach u => .ok (s.attach u)
  | .bind u n => .ok { s with
      vsocket := update s.vsocket n (some u)
      vnode := update s.vnode u (some n) }
  | .pair u v => .ok ((((s.attach u).attach v).connect2 u v).connect2 v u)
  | .connect p u => s.connect p u
  | .sendto p u => .ok (s.sendto p u)
  | .found p n => s.found p n
  | .fail p => .ok { s with calls := update s.calls p none }
  | .disconnect u => s.sodisconnect u
  | .drop u => s.drop u
  | .detach u => s.detach u

/-- The sequences of events from the state without sockets. -/
def unpLts (U N P : Type) [DecidableEq U] [DecidableEq N] [DecidableEq P] [Fintype U] :
    Lts (Except Trap (Unp U N P)) (UnpAct U N P) :=
  .ofCalls (fun s => (∀ u, s.live u = false ∧ s.conn u = none ∧ s.refs u = none) ∧
    (∀ n, s.vsocket n = none) ∧ ∀ p, s.calls p = none) (fun s a => a.Enabled s) Unp.next

end Hpux.Net
