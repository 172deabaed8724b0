import Hpux910.Lib.LinkedQueue
import Hpux910.Lib.Lts
import Hpux910.Net.Mbuf
import Mathlib

/-!
# Socket buffers

A socket buffer is a queue of records: the mbufs of a record are linked through `m_next`, and the
first mbufs of the records through `m_act`.  The buffer counts the bytes and what the mbufs take of
its space.  This file models the routines that add to a buffer and take from it, on a memory of mbufs.

* `SbMbuf` : what an mbuf holds; `SockBuf` : the memory and the buffer.
* `sbcompress` : chains are put behind an mbuf, merged where they fit.
* `sbappend`, `sbappendrecord`, `sbappendaddr`, `sbappendrights` : appending.
* `sbdrop`, `sbdroprecord`, `sbflush` : taking away.

Loops along the links are bounded by the number of places for mbufs; the bound shows as `Trap.spin`.
-/

namespace Hpux.Net

open Function

def MT_SONAME : ℕ := 8

/-- An mbuf without its links: `dat` are the `m_len` bytes at `m_off`.  The data of a small mbuf lie in
it; of a larger `m_off` only that it is larger matters. -/
structure SbMbuf (B : Type) where
  mtype : ℕ
  off : ℕ
  clsize : ℕ
  dat : List B
  fits : off ≤ MLEN → off + dat.length ≤ MLEN

namespace SbMbuf

variable {B : Type}

/-- `m_len` -/
def len (m : SbMbuf B) : ℕ := m.dat.length

/-- What `sballoc` adds to `sb_mbcnt`. -/
def charge (m : SbMbuf B) : ℕ := if MLEN < m.off then MSIZE + m.clsize else MSIZE

/-- The test of `sbcompress`: `m` is small and fits behind `n`. -/
def Merges (n m : SbMbuf B) : Prop :=
  n.off ≤ MLEN ∧ m.off ≤ MLEN ∧ n.off + n.len + m.len ≤ MLEN ∧ n.mtype = m.mtype

instance (n m : SbMbuf B) : Decidable (n.Merges m) :=
  inferInstanceAs (Decidable (_ ∧ _ ∧ _ ∧ _))

/-- `bcopy` of the bytes of `m` behind those of `n`. -/
def append (n m : SbMbuf B) (h : n.Merges m) : SbMbuf B :=
  { n with
    dat := n.dat ++ m.dat
    fits := fun _ => by
      rw [List.length_append, ← Nat.add_assoc]
      exact h.2.2.1 }

/-- The first `k` bytes are cut off. -/
def trim (m : SbMbuf B) (k : ℕ) (h : k < m.len) : SbMbuf B :=
  { m with
    off := m.off + k
    dat := m.dat.drop k
    fits := fun h1 => by
      have h2 := m.fits (Nat.le_of_add_right_le h1)
      unfold len at h
      rw [List.length_drop]
      omega }

/-- An mbuf from `MGET`. -/
def small (mtype : ℕ) (dat : List B) (h : dat.length ≤ MLEN) : SbMbuf B :=
  { mtype := mtype, off := 0, clsize := 0, dat := dat, fits := fun _ => by rwa [Nat.zero_add] }

/-- The mbuf that `m_copy` makes of it. -/
def copy (m : SbMbuf B) : SbMbuf B :=
  if h : m.off ≤ MLEN then
    { m with off := 0, fits := fun _ => by have := m.fits h; omega }
  else m

end SbMbuf

/-- An mbuf. -/
structure SbCell (A B : Type) where
  next : Option A
  act : Option A
  m : SbMbuf B

/-- The memory of mbufs and a socket buffer in it. -/
structure SockBuf (A B : Type) where
  cell : A → SbCell A B
  /-- The mbuf is not `MT_FREE`. -/
  used : A → Bool
  mb : Option A
  cc : ℤ
  mbcnt : ℤ
  hiwat : ℤ
  mbmax : ℤ
  /-- `SB_LOCK` -/
  locked : Bool

namespace SockBuf

variable {A B : Type} [DecidableEq A]

def sbspace (s : SockBuf A B) : ℤ := min (s.hiwat - s.cc) (s.mbmax - s.mbcnt)

def setNext (s : SockBuf A B) (a : A) (v : Option A) : SockBuf A B :=
  { s with cell := update s.cell a { s.cell a with next := v } }

def setAct (s : SockBuf A B) (a : A) (v : Option A) : SockBuf A B :=
  { s with cell := update s.cell a { s.cell a with act := v } }

def setMbuf (s : SockBuf A B) (a : A) (m : SbMbuf B) : SockBuf A B :=
  { s with cell := update s.cell a { s.cell a with m := m } }

omit [DecidableEq A] in
def sballoc (s : SockBuf A B) (a : A) : SockBuf A B :=
  { s with cc := s.cc + (s.cell a).m.len, mbcnt := s.mbcnt + (s.cell a).m.charge }

omit [DecidableEq A] in
def sbfree (s : SockBuf A B) (a : A) : SockBuf A B :=
  { s with cc := s.cc - (s.cell a).m.len, mbcnt := s.mbcnt - (s.cell a).m.charge }

/-- `m_free`: the mbuf behind it. -/
def mFree (s : SockBuf A B) (a : A) : Except Trap (SockBuf A B × Option A) :=
  if s.used a then .ok ({ s with used := update s.used a false }, (s.cell a).next)
  else .error .panic

/-- `MGET` has found the mbuf `a`. -/
def mGet (s : SockBuf A B) (a : A) (m : SbMbuf B) : SockBuf A B :=
  { s with used := update s.used a true, cell := update s.cell a { next := none, act := none, m := m } }

omit [DecidableEq A] in
/-- A loop along links to the last mbuf. -/
def follow (link : A → Option A) : ℕ → A → Except Trap A
  | 0, _ => .error .spin
  | fuel + 1, a =>
    match link a with
    | none => .ok a
    | some b => follow link fuel b

/-! ### Appending -/

/-- `sbcompress` -/
def sbcompress : ℕ → SockBuf A B → Option A → Option A → Except Trap (SockBuf A B)
  | 0, _, _, _ => .error .spin
  | _ + 1, s, none, _ => .ok s
  | fuel + 1, s, some m, n =>
    if (s.cell m).m.len = 0 then do
      let r ← s.mFree m
      sbcompress fuel r.1 r.2 n
    else
      -- nothing merges if the buffer is empty
      match n with
      | none => do
        let s := s.sballoc m
        let s := { s with mb := some m }
        sbcompress fuel (s.setNext m none) (s.cell m).next (some m)
      | some n =>
        if h : (s.cell n).m.Merges (s.cell m).m then do
          let s' := s.setMbuf n ((s.cell n).m.append (s.cell m).m h)
          let r ← { s' with cc := s'.cc + (s.cell m).m.len }.mFree m
          sbcompress fuel r.1 r.2 (some n)
        else do
          let s := (s.sballoc m).setNext n (some m)
          sbcompress fuel (s.setNext m none) (s.cell m).next (some m)

variable [Fintype A]

omit [DecidableEq A] in
/-- The bound of the loops along links. -/
def bound (A : Type) [Fintype A] : ℕ := Fintype.card A + 1

omit [DecidableEq A] in
/-- The last mbuf of the last record. -/
def lastMbuf (s : SockBuf A B) : Except Trap (Option A) :=
  match s.mb with
  | none => .ok none
  | some n => do
    let n ← follow (fun a => (s.cell a).act) (bound A) n
    let n ← follow (fun a => (s.cell a).next) (bound A) n
    return some n

def sbappend (s : SockBuf A B) (m : Option A) : Except Trap (SockBuf A B) :=
  match m with
  | none => .ok s
  | some m => do
    let n ← s.lastMbuf
    sbcompress (bound A) s (some m) n

/-- The mbuf `m` is made the first one of a new record. -/
def enqueue (s : SockBuf A B) (m : A) : Except Trap (SockBuf A B) :=
  match s.mb with
  | none => .ok { s with mb := some m }
  | some n => do
    let n ← follow (fun a => (s.cell a).act) (bound A) n
    return s.setAct n (some m)

def sbappendrecord (s : SockBuf A B) (m0 : Option A) : Except Trap (SockBuf A B) :=
  match m0 with
  | none => .ok s
  | some m0 => do
    let s ← (s.sballoc m0).enqueue m0
    sbcompress (bound A) (s.setNext m0 none) (s.cell m0).next (some m0)

omit [DecidableEq A] in
/-- The bytes of a chain. -/
def chainLen (s : SockBuf A B) : ℕ → Option A → Except Trap ℕ
  | 0, _ => .error .spin
  | _ + 1, none => .ok 0
  | fuel + 1, some m => do
    let l ← s.chainLen fuel (s.cell m).next
    return (s.cell m).m.len + l

/-- `sbappendaddr` (`noMbuf` is -1) and `sbappendaddr_un` (`noMbuf` is 0).  `got` is what `MGET` finds,
and `copied` what `m_copy` finds. -/
def sbappendaddr (noMbuf : ℤ) (s : SockBuf A B) (asa : List B) (hasa : asa.length ≤ MLEN)
    (m0 rights0 got copied : Option A) : Except Trap (SockBuf A B × ℤ) := do
  let l ← s.chainLen (bound A) m0
  let rlen := rights0.elim 0 fun r => (s.cell r).m.len
  if s.sbspace < asa.length + l + rlen then return (s, 0)
  match got with
  | none => return (s, noMbuf)
  | some m =>
    let s := s.mGet m (.small MT_SONAME asa hasa)
    match rights0, decide (rlen ≠ 0), copied with
    | some _, true, none =>
      let r ← s.mFree m
      return (r.1, 0)
    | some r, true, some c =>
      let s := s.mGet c (s.cell r).m.copy
      let s ← (((s.setNext m (some c)).sballoc c).sballoc m).enqueue m
      let s ← sbcompress (bound A) s m0 (some c)
      return (s, 1)
    | _, _, _ =>
      let s ← (s.sballoc m).enqueue m
      let s ← sbcompress (bound A) s m0 (some m)
      return (s, 1)

/-- `sbappendrights`; `m_copy` of no bytes gives no mbuf. -/
def sbappendrights (s : SockBuf A B) (m0 rights copied : Option A) :
    Except Trap (SockBuf A B × ℤ) :=
  match rights with
  | none => .error .panic
  | some r => do
    let l ← s.chainLen (bound A) m0
    if s.sbspace < l + (s.cell r).m.len then return (s, 0)
    match decide ((s.cell r).m.len ≠ 0), copied with
    | true, some c =>
      let s := s.mGet c (s.cell r).m.copy
      let s ← (s.sballoc c).enqueue c
      let s ← sbcompress (bound A) s m0 (some c)
      return (s, 1)
    | _, _ => return (s, 0)

/-! ### Taking away -/

omit [Fintype A] in
/-- The first loop of `sbdrop`. -/
def dropLoop : ℕ → SockBuf A B → Option A → Option A → ℕ →
    Except Trap (SockBuf A B × Option A × Option A)
  | 0, _, _, _, _ => .error .spin
  | fuel + 1, s, m, next, len =>
    if len = 0 then .ok (s, m, next)
    else
      match m, next with
      | none, none => .error .panic
      | none, some a => dropLoop fuel s (some a) (s.cell a).act len
      | some a, next =>
        if h : len < (s.cell a).m.len then
          let s' := s.setMbuf a ((s.cell a).m.trim len h)
          .ok ({ s' with cc := s'.cc - len }, some a, next)
        else do
          let r ← (s.sbfree a).mFree a
          dropLoop fuel r.1 r.2 next (len - (s.cell a).m.len)

omit [Fintype A] in
/-- The second loop: mbufs without data. -/
def dropEmpty : ℕ → SockBuf A B → Option A → Except Trap (SockBuf A B × Option A)
  | 0, _, _ => .error .spin
  | _ + 1, s, none => .ok (s, none)
  | fuel + 1, s, some a =>
    if (s.cell a).m.len = 0 then do
      let r ← (s.sbfree a).mFree a
      dropEmpty fuel r.1 r.2
    else .ok (s, some a)

/-- A negative `len` drops no more than none does. -/
def sbdrop (s : SockBuf A B) (len : ℤ) : Except Trap (SockBuf A B) := do
  let (s, m, next) ← dropLoop (2 * bound A) s s.mb (s.mb.bind fun a => (s.cell a).act) len.toNat
  let (s, m) ← dropEmpty (bound A) s m
  match m with
  | some a => return { s with mb := some a }.setAct a next
  | none => return { s with mb := next }

omit [Fintype A] in
/-- The loop of `sbdroprecord`. -/
def freeRecord : ℕ → SockBuf A B → A → Except Trap (SockBuf A B)
  | 0, _, _ => .error .spin
  | fuel + 1, s, a => do
    let r ← (s.sbfree a).mFree a
    match r.2 with
    | none => return r.1
    | some b => freeRecord fuel r.1 b

def sbdroprecord (s : SockBuf A B) : Except Trap (SockBuf A B) :=
  match s.mb with
  | none => .ok s
  | some m => freeRecord (bound A) { s with mb := (s.cell m).act } m

/-- The loop of `sbflush`. -/
def flushLoop : ℕ → SockBuf A B → Except Trap (SockBuf A B)
  | 0, _ => .error .spin
  | fuel + 1, s => if s.mbcnt = 0 then .ok s else s.sbdrop s.cc >>= flushLoop fuel

def sbflush (s : SockBuf A B) : Except Trap (SockBuf A B) :=
  if s.locked then .error .panic
  else do
    let s ← flushLoop (bound A) s
    if s.cc ≠ 0 ∨ s.mbcnt ≠ 0 ∨ s.mb ≠ none then .error .panic else return s

end SockBuf

end Hpux.Net
