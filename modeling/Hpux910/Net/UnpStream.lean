import Hpux910.Net.SockBufAppend
import Mathlib

/-!
# Back-pressure of Unix domain streams

Data sent on a stream go straight to the receive buffer of the peer.  What lies there is taken off the
limits of the sender's own buffer, and `unp_cc` and `unp_mbcnt` remember how much that was.

* `UnpRcv` : the records in a receive buffer; `sbappend_rcv`, `sbappendrights_rcv` : it is what the
  pointers of `SockBuf` describe.
* `UnpEnd`, `pruSend`, `pruRcvd` : two ends of a stream and the two requests.
* `UnpStream` : runs of the requests, the receivers taking mbufs and bytes off the front in between.
* `Fits` : the rights of a send are not empty and there are space and an mbuf for them.
* `backpressure_kept` : in runs of sends that fit the limits are kept and what was sent arrives, and a
  send is delivered or fails if and only if it fits; `empty_rights_lost` : a send that does not fit.
-/

namespace Hpux.Net

open Function List

def MT_RIGHTS : ℕ := 12

def EPIPE : ℕ := 32

/-- `so_rcv`: the records, and the limits. -/
structure UnpRcv (B : Type) where
  recs : List (List (SbMbuf B))
  hiwat : ℤ
  mbmax : ℤ

namespace UnpRcv

variable {B : Type}

/-- `sb_cc` -/
def cc (r : UnpRcv B) : ℕ := (r.recs.flatten.map SbMbuf.len).sum

/-- `sb_mbcnt` -/
def mbcnt (r : UnpRcv B) : ℕ := (r.recs.flatten.map SbMbuf.charge).sum

def sbspace (r : UnpRcv B) : ℤ := min (r.hiwat - r.cc) (r.mbmax - r.mbcnt)

def sbappend (r : UnpRcv B) (m : List (SbMbuf B)) : UnpRcv B :=
  { r with recs := SbMbuf.appended r.recs m }

/-- `copied` is whether `m_copy` finds an mbuf. -/
def sbappendrights (r : UnpRcv B) (m : List (SbMbuf B)) (rights : SbMbuf B) (copied : Bool) :
    UnpRcv B × ℤ :=
  if r.sbspace < (SbMbuf.bytes m).length + rights.len then (r, 0)
  else if rights.len = 0 ∨ copied = false then (r, 0)
  else ({ r with recs := r.recs ++ [rights.copy.compressed m] }, 1)

/-- The receiver frees the first mbuf. -/
def free (r : UnpRcv B) : UnpRcv B :=
  match r.recs with
  | (_ :: m :: t) :: c => { r with recs := (m :: t) :: c }
  | [_] :: c => { r with recs := c }
  | [] :: c => { r with recs := c }
  | [] => r

/-- The receiver takes the first `k` bytes of the first mbuf. -/
def trim (r : UnpRcv B) (k : ℕ) : UnpRcv B :=
  match r.recs with
  | (n :: t) :: c => if h : k < n.len then { r with recs := (n.trim k h :: t) :: c } else r
  | _ => r

end UnpRcv

/-! ### The receive buffer in the memory of mbufs -/

namespace SockBuf

variable {A B : Type} [DecidableEq A] [Fintype A] {s : SockBuf A B} {q : List (A × List A)} {l : List A}

/-- The records that the links describe. -/
def rcv (s : SockBuf A B) (q : List (A × List A)) : UnpRcv B := ⟨s.recs q, s.hiwat, s.mbmax⟩

omit [DecidableEq A] [Fintype A] in
theorem recs_flatten (s : SockBuf A B) (q : List (A × List A)) :
    (s.recs q).flatten = s.view (mbufs q) := by
  induction q with
  | nil => rfl
  | cons r q ih =>
    have h1 : s.view (mbufs (r :: q)) = s.view (r.1 :: r.2) ++ s.view (mbufs q) := map_append
    rw [h1, ← ih]
    rfl

omit [DecidableEq A] [Fintype A] in
theorem Holds.rcv_counts (hs : s.Holds q) : s.cc = (s.rcv q).cc ∧ s.mbcnt = (s.rcv q).mbcnt := by
  unfold UnpRcv.cc UnpRcv.mbcnt rcv
  rw [hs.counted.1, hs.counted.2, recs_flatten]
  unfold lens charges view
  rw [map_map, map_map, Nat.cast_list_sum, Nat.cast_list_sum, map_map, map_map]
  exact ⟨rfl, rfl⟩

omit [DecidableEq A] [Fintype A] in
theorem rcv_limits {s' : SockBuf A B} (h : s'.limits = s.limits) :
    s'.hiwat = s.hiwat ∧ s'.mbmax = s.mbmax :=
  ⟨congrArg Prod.fst h, congrArg (fun x : ℤ × ℤ × Bool => x.2.1) h⟩

theorem sbappend_rcv (hs : s.Holds q) (hl : s.Chain q l) :
    ∃ s' q', s.sbappend l.head? = .ok s' ∧ s'.Holds q' ∧ s'.rcv q' = (s.rcv q).sbappend (s.view l) := by
  obtain ⟨s', q', h1, h2, h3, h4⟩ := sbappend_spec hs hl
  refine ⟨s', q', h1, h2, ?_⟩
  unfold rcv
  rw [(rcv_limits h3).1, (rcv_limits h3).2, h4]
  rfl

theorem sbappendrights_rcv {r : A} {copied : Option A} (hs : s.Holds q) (hl : s.Chain q l)
    (hcopied : ∀ c, copied = some c → s.used c = false) :
    ∃ s' q' k, s.sbappendrights l.head? (some r) copied = .ok (s', k) ∧ s'.Holds q' ∧
      (s'.rcv q', k) = (s.rcv q).sbappendrights (s.view l) (s.cell r).m copied.isSome := by
  have hspace : (s.rcv q).sbspace = s.sbspace := by
    unfold UnpRcv.sbspace SockBuf.sbspace
    rw [← hs.rcv_counts.1, ← hs.rcv_counts.2]
    rfl
  obtain ⟨s', k, h1, ⟨rfl, h2, q', h3, h4, h5⟩ | ⟨rfl, h2, h3⟩⟩ := sbappendrights_spec hs hl hcopied
  · refine ⟨s', q', 1, h1, h3, ?_⟩
    simp only [NoRights, not_or] at h2
    unfold UnpRcv.sbappendrights
    rw [hspace, if_neg h2.2.1, if_neg (by simp [h2.1, Option.isNone_iff_eq_none, h2.2.2])]
    unfold rcv
    rw [(rcv_limits h4).1, (rcv_limits h4).2, h5]
  · refine ⟨s', q, 0, h1, h3.holds hs, ?_⟩
    have h4 : s'.rcv q = s.rcv q := by
      unfold rcv
      rw [(rcv_limits h3.limits).1, (rcv_limits h3.limits).2, h3.recs]
    unfold UnpRcv.sbappendrights
    rw [hspace, h4]
    rcases h2 with h2 | h2 | h2
    · rw [if_pos (Or.inl h2), ite_self]
    · rw [if_pos h2]
    · have h5 : (s.cell r).m.len = 0 ∨ copied.isSome = false := .inr (by rw [h2]; rfl)
      rw [if_pos h5, ite_self]

end SockBuf

/-! ### The requests -/

/-- One end of a stream: its receive buffer, the limits of its send buffer, what the control block
remembers of the receive buffer, and `SS_CANTSENDMORE`. -/
structure UnpEnd (B : Type) where
  rcv : UnpRcv B
  hiwat : BitVec 32
  mbmax : BitVec 32
  unpcc : BitVec 32
  unpmbcnt : BitVec 32
  cantsendmore : Bool

/-- Two connected sockets. -/
abbrev UnpEnds (B : Type) := Bool → UnpEnd B

namespace UnpEnds

variable {B : Type} (s : UnpEnds B) (i : Bool)

/-- `PRU_SEND` on the socket `i`; `ierr` is what `unp_internalize` returns. -/
def pruSend (ierr : ℕ) (m : List (SbMbuf B)) (rights : Option (SbMbuf B)) (copied : Bool) :
    UnpEnds B × ℕ :=
  if rights.isSome ∧ ierr ≠ 0 then (s, ierr)
  else if (s i).cantsendmore then (s, EPIPE)
  else
    let so2 := s (!i)
    let rcv := match rights with
      | some r => (so2.rcv.sbappendrights m r copied).1
      | none => so2.rcv.sbappend m
    let so := { s i with
      mbmax := (s i).mbmax - (BitVec.ofNat 32 rcv.mbcnt - so2.unpmbcnt)
      hiwat := (s i).hiwat - (BitVec.ofNat 32 rcv.cc - so2.unpcc) }
    let so2 := { so2 with
      rcv := rcv
      unpmbcnt := BitVec.ofNat 32 rcv.mbcnt
      unpcc := BitVec.ofNat 32 rcv.cc }
    (update (update s i so) (!i) so2, 0)

/-- `PRU_RCVD` on the socket `i` -/
def pruRcvd : UnpEnds B :=
  let rcv := (s i).rcv
  let so2 := { s (!i) with
    mbmax := (s (!i)).mbmax + ((s i).unpmbcnt - BitVec.ofNat 32 rcv.mbcnt)
    hiwat := (s (!i)).hiwat + ((s i).unpcc - BitVec.ofNat 32 rcv.cc) }
  let so := { s i with
    unpmbcnt := BitVec.ofNat 32 rcv.mbcnt
    unpcc := BitVec.ofNat 32 rcv.cc }
  update (update s (!i) so2) i so

end UnpEnds

/-! ### What is in a receive buffer -/

namespace SbMbuf

variable {B : Type}

/-- The bytes of the mbufs that hold data. -/
def data (l : List (SbMbuf B)) : List B := bytes (l.filter fun m => m.mtype ≠ MT_RIGHTS)

/-- The rights. -/
def rights (l : List (SbMbuf B)) : List (List B) :=
  (l.filter fun m => m.mtype = MT_RIGHTS).map dat

theorem data_append (l r : List (SbMbuf B)) : data (l ++ r) = data l ++ data r := by
  simp [data, bytes]

theorem rights_append (l r : List (SbMbuf B)) : rights (l ++ r) = rights l ++ rights r := by
  simp [rights]

theorem data_cons (m : SbMbuf B) (l : List (SbMbuf B)) :
    data (m :: l) = (if m.mtype = MT_RIGHTS then [] else m.dat) ++ data l := by
  by_cases h : m.mtype = MT_RIGHTS <;> simp [data, bytes, h]

theorem rights_cons (m : SbMbuf B) (l : List (SbMbuf B)) :
    rights (m :: l) = (if m.mtype = MT_RIGHTS then [m.dat] else []) ++ rights l := by
  by_cases h : m.mtype = MT_RIGHTS <;> simp [rights, h]

variable {l : List (SbMbuf B)}

/-- Compressing a chain of data mbufs. -/
theorem compressed_data (n : SbMbuf B) (h : ∀ m ∈ l, m.mtype ≠ MT_RIGHTS) :
    data (n.compressed l) = data [n] ++ bytes l ∧ rights (n.compressed l) = rights [n] := by
  fun_induction SbMbuf.compressed n l with
  | case1 n => simp [bytes]
  | case2 n m l h1 ih =>
    obtain ⟨h2, h3⟩ := ih fun a ha => h a (mem_cons_of_mem m ha)
    have h4 : m.dat = [] := eq_nil_of_length_eq_zero h1
    refine ⟨?_, h3⟩
    rw [h2]
    simp [bytes, h4]
  | case3 n m l h1 h2 ih =>
    obtain ⟨h3, h4⟩ := ih fun a ha => h a (mem_cons_of_mem m ha)
    have h5 : n.mtype ≠ MT_RIGHTS := h2.2.2.2 ▸ h m mem_cons_self
    rw [h3, h4]
    simp [data, rights, h5, bytes, append]
  | case4 n m l h1 h2 ih =>
    obtain ⟨h3, h4⟩ := ih fun a ha => h a (mem_cons_of_mem m ha)
    have h5 : m.mtype ≠ MT_RIGHTS := h m mem_cons_self
    rw [data_cons, rights_cons, h3, h4]
    by_cases hn : n.mtype = MT_RIGHTS <;> simp [data, rights, hn, h5, bytes]

theorem grown_data (r : List (SbMbuf B)) (hr : r ≠ []) (h : ∀ m ∈ l, m.mtype ≠ MT_RIGHTS) :
    data (grown r l) = data r ++ bytes l ∧ rights (grown r l) = rights r := by
  rcases eq_nil_or_concat r with rfl | ⟨p, n, rfl⟩
  · exact absurd rfl hr
  · obtain ⟨h1, h2⟩ := compressed_data n h
    rw [concat_eq_append, grown_concat, data_append, rights_append, h1, h2, data_append,
      rights_append, append_assoc]
    exact ⟨rfl, rfl⟩

theorem fresh_data (h : ∀ m ∈ l, m.mtype ≠ MT_RIGHTS) :
    data (fresh l).flatten = bytes l ∧ rights (fresh l).flatten = [] := by
  induction l with
  | nil => exact ⟨rfl, rfl⟩
  | cons m l ih =>
    have h1 := fun a ha => h a (mem_cons_of_mem m ha)
    have h2 : bytes (m :: l) = m.dat ++ bytes l := flatMap_cons
    have h3 : m.mtype ≠ MT_RIGHTS := h m mem_cons_self
    unfold fresh
    by_cases hm : m.len = 0
    · rw [if_pos hm, h2, eq_nil_of_length_eq_zero hm, nil_append]
      exact ih h1
    · obtain ⟨h4, h5⟩ := compressed_data m h1
      rw [if_neg hm, h2, flatten_singleton, h4, h5]
      simp [data, rights, h3, bytes]

theorem appended_data {c : List (List (SbMbuf B))} (hc : ∀ r ∈ c, r ≠ [])
    (h : ∀ m ∈ l, m.mtype ≠ MT_RIGHTS) : data (appended c l).flatten = data c.flatten ++ bytes l ∧
      rights (appended c l).flatten = rights c.flatten := by
  rcases eq_nil_or_concat c with rfl | ⟨c, r, rfl⟩
  · exact fresh_data h
  · by_cases hl : l = []
    · subst hl
      rw [appended_nil]
      exact ⟨(append_nil _).symm, rfl⟩
    · obtain ⟨h1, h2⟩ := grown_data r (hc r (by simp)) h
      rw [concat_eq_append, appended_concat c r hl, flatten_append, flatten_singleton,
        data_append, rights_append, h1, h2, flatten_append, flatten_singleton, data_append,
        rights_append, append_assoc]
      exact ⟨rfl, rfl⟩

theorem copy_mtype (m : SbMbuf B) : m.copy.mtype = m.mtype ∧ m.copy.dat = m.dat := by
  unfold copy
  split <;> exact ⟨rfl, rfl⟩

theorem compressed_ne_nil (n : SbMbuf B) (l : List (SbMbuf B)) : n.compressed l ≠ [] := by
  fun_induction SbMbuf.compressed n l with
  | case1 n => exact cons_ne_nil _ _
  | case2 n m l h1 ih => exact ih
  | case3 n m l h1 h2 ih => exact ih
  | case4 n m l h1 h2 ih => exact cons_ne_nil _ _

theorem fresh_ne_nil (l : List (SbMbuf B)) : ∀ r ∈ fresh l, r ≠ [] := by
  induction l with
  | nil => nofun
  | cons m l ih =>
    unfold fresh
    split
    · exact ih
    · intro r hr
      rw [mem_singleton.1 hr]
      exact compressed_ne_nil m l

theorem appended_ne_nil {c : List (List (SbMbuf B))} (hc : ∀ r ∈ c, r ≠ []) (l : List (SbMbuf B)) :
    ∀ r ∈ appended c l, r ≠ [] := by
  rcases eq_nil_or_concat c with rfl | ⟨c, r, rfl⟩
  · exact fresh_ne_nil l
  · by_cases hl : l = []
    · subst hl
      rwa [appended_nil]
    · rw [concat_eq_append, appended_concat c r hl]
      intro x hx
      rcases mem_append.1 hx with hx | hx
      · exact hc x (by simp [hx])
      · rw [mem_singleton.1 hx]
        rcases eq_nil_or_concat r with rfl | ⟨p, n, rfl⟩
        · exact absurd rfl (hc [] (by simp))
        · rw [concat_eq_append, grown_concat]
          exact append_ne_nil_of_right_ne_nil p (compressed_ne_nil n l)

end SbMbuf

/-! ### Runs -/

/-- A state of a run: the two ends, and what has been sent from each, what has been taken out at each, and
the counts of each receive buffer as of the last request that adjusted them. -/
structure UnpStream (B : Type) where
  ends : UnpEnds B
  sent : Bool → List B
  sentRights : Bool → List (List B)
  taken : Bool → List B
  takenRights : Bool → List (List B)
  last : Bool → BitVec 32 × BitVec 32

/-- `take` and `trim` are the receiver's. -/
inductive UnpStreamEvent (B : Type) where
  | send (i : Bool) (ierr : ℕ) (m : List (SbMbuf B)) (rights : Option (SbMbuf B)) (copied : Bool)
  | rcvd (i : Bool)
  | take (i : Bool)
  | trim (i : Bool) (k : ℕ)
  | shutdown (i : Bool)

namespace UnpStream

variable {B : Type} {s : UnpStream B} {i : Bool}

/-- The counts of the receive buffer of `i`. -/
def counts (e : UnpEnds B) (i : Bool) : BitVec 32 × BitVec 32 :=
  (BitVec.ofNat 32 (e i).rcv.cc, BitVec.ofNat 32 (e i).rcv.mbcnt)

/-- The mbufs of a send are of their types; bytes are taken from data only. -/
def Enabled (s : UnpStream B) : UnpStreamEvent B → Prop
  | .send _ _ m rights _ =>
    (∀ a ∈ m, a.mtype ≠ MT_RIGHTS) ∧ ∀ r, rights = some r → r.mtype = MT_RIGHTS
  | .rcvd _ => True
  | .take i => (s.ends i).rcv.recs ≠ []
  | .trim i k => ∃ n t c, (s.ends i).rcv.recs = (n :: t) :: c ∧ k < n.len ∧ n.mtype ≠ MT_RIGHTS
  | .shutdown _ => True

/-- The receive buffer of `i` becomes `r`, and what is no longer in it has been taken. -/
def takeTo (s : UnpStream B) (i : Bool) (r : UnpRcv B) (x : List B) (y : List (List B)) : UnpStream B :=
  { s with
    ends := update s.ends i { s.ends i with rcv := r }
    taken := update s.taken i (s.taken i ++ x)
    takenRights := update s.takenRights i (s.takenRights i ++ y) }

/-- A send that returns 0 counts as one of its bytes and rights. -/
def next (s : UnpStream B) : UnpStreamEvent B → UnpStream B
  | .send i ierr m rights copied =>
    let r := s.ends.pruSend i ierr m rights copied
    if r.2 ≠ 0 then { s with ends := r.1 }
    else { s with
      ends := r.1
      sent := update s.sent i (s.sent i ++ SbMbuf.bytes m)
      sentRights := update s.sentRights i (s.sentRights i ++ rights.toList.map SbMbuf.dat)
      last := update s.last (!i) (counts r.1 (!i)) }
  | .rcvd i =>
    let e := s.ends.pruRcvd i
    { s with ends := e, last := update s.last i (counts e i) }
  | .take i =>
    match (s.ends i).rcv.recs with
    | (n :: _) :: _ =>
      s.takeTo i (s.ends i).rcv.free (SbMbuf.data [n]) (SbMbuf.rights [n])
    | _ => s.takeTo i (s.ends i).rcv.free [] []
  | .trim i k =>
    match (s.ends i).rcv.recs with
    | (n :: _) :: _ => s.takeTo i ((s.ends i).rcv.trim k) (n.dat.take k) []
    | _ => s
  | .shutdown i => { s with ends := update s.ends i { s.ends i with cantsendmore := true } }

/-- Two sockets that have just been connected. -/
def start (e : UnpEnds B) : UnpStream B where
  ends := e
  sent _ := []
  sentRights _ := []
  taken _ := []
  takenRights _ := []
  last _ := (0, 0)

/-- Nothing is in the receive buffers of sockets that are being connected. -/
def Fresh (e : UnpEnds B) : Prop := ∀ i, (e i).rcv.recs = [] ∧ (e i).unpcc = 0 ∧ (e i).unpmbcnt = 0

def lts (e : UnpEnds B) : Lts (UnpStream B) (UnpStreamEvent B) where
  init s := s = start e
  step s l s' := s.Enabled l ∧ s' = s.next l

/-- The rights of a send that gets as far as `sbappendrights` are not empty, and there are space and an
mbuf for them. -/
def Fits (s : UnpStream B) : UnpStreamEvent B → Prop
  | .send i ierr m (some r) copied => ierr = 0 → (s.ends i).cantsendmore = false →
    r.len ≠ 0 ∧ copied = true ∧ ((SbMbuf.bytes m).length + r.len : ℤ) ≤ (s.ends !i).rcv.sbspace
  | _ => True

/-- What the mbufs in the receive buffer of `i` hold. -/
def dataOf (e : UnpEnds B) (i : Bool) : List B := SbMbuf.data (e i).rcv.recs.flatten

def rightsOf (e : UnpEnds B) (i : Bool) : List (List B) := SbMbuf.rights (e i).rcv.recs.flatten

/-- The limits of each send buffer and the counts of the peer's receive buffer as of the last request
add up to what the limits were; the control block remembers these counts; and what was sent has been
taken, or is in the receive buffer, in order. -/
structure Kept (e : UnpEnds B) (s : UnpStream B) : Prop where
  hiwat : ∀ i, (s.ends i).hiwat + (s.last !i).1 = (e i).hiwat
  mbmax : ∀ i, (s.ends i).mbmax + (s.last !i).2 = (e i).mbmax
  remembered : ∀ i, ((s.ends i).unpcc, (s.ends i).unpmbcnt) = s.last i
  data : ∀ i, s.taken (!i) ++ dataOf s.ends (!i) = s.sent i
  rights : ∀ i, s.takenRights (!i) ++ rightsOf s.ends (!i) = s.sentRights i

/-- The send fails, or what it sends is put behind what is in the receive buffer of the peer. -/
def Answered (s : UnpStream B) (i : Bool) (ierr : ℕ) (m : List (SbMbuf B)) (rights : Option (SbMbuf B))
    (copied : Bool) : Prop :=
  let r := s.ends.pruSend i ierr m rights copied
  r.2 ≠ 0 ∨ (dataOf r.1 (!i) = dataOf s.ends (!i) ++ SbMbuf.bytes m ∧
    rightsOf r.1 (!i) = rightsOf s.ends (!i) ++ rights.toList.map SbMbuf.dat)

/-! ### Steps -/

/-- The receive buffer after a send that is not refused. -/
def delivered (r : UnpRcv B) (m : List (SbMbuf B)) (rights : Option (SbMbuf B)) (copied : Bool) :
    UnpRcv B :=
  match rights with
  | some rt => (r.sbappendrights m rt copied).1
  | none => r.sbappend m

variable {e e0 : UnpEnds B} {ierr : ℕ} {m : List (SbMbuf B)} {rights : Option (SbMbuf B)} {copied : Bool}

/-- A send is refused, or adjusts the limits of the sender and what the receiver remembers. -/
theorem pruSend_cases (e : UnpEnds B) (i : Bool) (ierr : ℕ) (m : List (SbMbuf B))
    (rights : Option (SbMbuf B)) (copied : Bool) :
    ((rights.isSome ∧ ierr ≠ 0 ∨ (e i).cantsendmore = true) ∧
      (e.pruSend i ierr m rights copied).1 = e ∧ (e.pruSend i ierr m rights copied).2 ≠ 0) ∨
    ((rights.isSome → ierr = 0) ∧ (e i).cantsendmore = false ∧
      ∃ e', e.pruSend i ierr m rights copied = (e', 0) ∧
        (e' !i).rcv = delivered (e !i).rcv m rights copied ∧ (e' i).rcv = (e i).rcv ∧
        (e' i).hiwat = (e i).hiwat - ((counts e' !i).1 - (e !i).unpcc) ∧
        (e' i).mbmax = (e i).mbmax - ((counts e' !i).2 - (e !i).unpmbcnt) ∧
        (e' !i).hiwat = (e !i).hiwat ∧ (e' !i).mbmax = (e !i).mbmax ∧
        ((e' !i).unpcc, (e' !i).unpmbcnt) = counts e' (!i) ∧
        ((e' i).unpcc, (e' i).unpmbcnt) = ((e i).unpcc, (e i).unpmbcnt)) := by
  unfold UnpEnds.pruSend
  by_cases h1 : rights.isSome ∧ ierr ≠ 0
  · rw [if_pos h1]
    exact .inl ⟨.inl h1, rfl, h1.2⟩
  rw [if_neg h1]
  by_cases h2 : (e i).cantsendmore = true
  · rw [if_pos h2]
    exact .inl ⟨.inr h2, rfl, (by decide : EPIPE ≠ 0)⟩
  rw [if_neg h2]
  refine .inr ⟨fun h3 => by_contra fun h4 => h1 ⟨h3, h4⟩, by simpa using h2, _, rfl, ?_⟩
  have hne : i ≠ !i := by simp
  simp only [counts, update_self, update_of_ne hne]
  exact ⟨rfl, trivial, trivial, trivial, trivial, trivial, trivial, trivial⟩

theorem delivered_data (hr : ∀ r ∈ (e i).rcv.recs, r ≠ []) (hm : ∀ a ∈ m, a.mtype ≠ MT_RIGHTS)
    (hrights : ∀ r, rights = some r → r.mtype = MT_RIGHTS)
    (hfit : ∀ r, rights = some r → r.len ≠ 0 ∧ copied = true ∧
      ((SbMbuf.bytes m).length + r.len : ℤ) ≤ (e i).rcv.sbspace) :
    SbMbuf.data (delivered (e i).rcv m rights copied).recs.flatten = dataOf e i ++ SbMbuf.bytes m ∧
    SbMbuf.rights (delivered (e i).rcv m rights copied).recs.flatten =
      rightsOf e i ++ rights.toList.map SbMbuf.dat := by
  cases rights with
  | none =>
    obtain ⟨h1, h2⟩ := SbMbuf.appended_data hr hm
    exact ⟨h1, h2.trans (append_nil _).symm⟩
  | some r =>
    obtain ⟨h1, h2, h3⟩ := hfit r rfl
    have h4 : ((e i).rcv.sbappendrights m r copied).1.recs =
        (e i).rcv.recs ++ [r.copy.compressed m] := by
      unfold UnpRcv.sbappendrights
      rw [if_neg (by omega), if_neg (by simp [h1, h2])]
    obtain ⟨h5, h6⟩ := SbMbuf.compressed_data r.copy hm
    have h7 : r.copy.mtype = MT_RIGHTS := r.copy_mtype.1.trans (hrights r rfl)
    have h8 : SbMbuf.data [r.copy] = [] := by simp [SbMbuf.data, SbMbuf.bytes, h7]
    have h9 : SbMbuf.rights [r.copy] = [r.dat] := by simp [SbMbuf.rights, h7, r.copy_mtype.2]
    unfold delivered
    dsimp only
    rw [h4, flatten_append, flatten_singleton, SbMbuf.data_append, SbMbuf.rights_append, h5,
      h6, h8, h9]
    exact ⟨rfl, rfl⟩

theorem delivered_ne_nil (hr : ∀ r ∈ (e i).rcv.recs, r ≠ []) :
    ∀ r ∈ (delivered (e i).rcv m rights copied).recs, r ≠ [] := by
  cases rights with
  | none => exact SbMbuf.appended_ne_nil hr m
  | some r =>
    unfold delivered UnpRcv.sbappendrights
    dsimp only
    split
    · exact hr
    · split
      · exact hr
      · intro x hx
        rcases mem_append.1 hx with hx | hx
        · exact hr x hx
        · rw [mem_singleton.1 hx]
          exact SbMbuf.compressed_ne_nil _ _

/-- A send is delivered or fails if and only if it fits. -/
theorem answered_iff (hr : ∀ i, ∀ r ∈ (s.ends i).rcv.recs, r ≠ [])
    (hen : s.Enabled (.send i ierr m rights copied)) :
    s.Answered i ierr m rights copied ↔ s.Fits (.send i ierr m rights copied) := by
  obtain ⟨hm, hrights⟩ := hen
  unfold Answered
  rcases pruSend_cases s.ends i ierr m rights copied with ⟨h1, -, h2⟩ | ⟨h1, h2, e', h3, h4, -⟩
  · refine iff_of_true (.inl h2) ?_
    cases rights with
    | none => trivial
    | some r =>
      intro h3 h4
      rcases h1 with h1 | h1
      · exact absurd h3 h1.2
      · rw [h1] at h4
        cases h4
  · rw [h3]
    unfold dataOf rightsOf
    dsimp only
    rw [h4]
    constructor
    · rintro (h5 | ⟨-, h5⟩)
      · exact absurd rfl h5
      · cases rights with
        | none => trivial
        | some r =>
          -- what is not put into the buffer is not in it
          intro _ _
          by_contra h6
          have h7 : ((s.ends !i).rcv.sbappendrights m r copied).1 = (s.ends !i).rcv := by
            unfold UnpRcv.sbappendrights
            by_cases h8 : (s.ends !i).rcv.sbspace < (SbMbuf.bytes m).length + r.len
            · rw [if_pos h8]
            · rw [if_neg h8]
              by_cases h9 : r.len = 0 ∨ copied = false
              · rw [if_pos h9]
              · rw [not_or, Bool.not_eq_false] at h9
                exact absurd ⟨h9.1, h9.2, by omega⟩ h6
          unfold delivered at h5
          dsimp only at h5
          rw [h7] at h5
          exact absurd (append_right_eq_self.1 h5.symm) (cons_ne_nil _ _)
    · intro h5
      exact .inr (delivered_data (hr !i) hm hrights fun r h6 => by
        subst h6
        exact h5 (h1 rfl) h2)

/-- The invariant of the runs. -/
structure Inv (e0 : UnpEnds B) (s : UnpStream B) : Prop extends Kept e0 s where
  recs : ∀ i, ∀ r ∈ (s.ends i).rcv.recs, r ≠ []

theorem Inv.start (h : Fresh e0) : Inv e0 (start e0) := by
  refine ⟨⟨fun i => ?_, fun i => ?_, fun i => ?_, fun i => ?_, fun i => ?_⟩, fun i r hr => ?_⟩
  · exact BitVec.add_zero _
  · exact BitVec.add_zero _
  · show ((e0 i).unpcc, (e0 i).unpmbcnt) = (0, 0)
    rw [(h i).2.1, (h i).2.2]
  · show [] ++ SbMbuf.data (e0 !i).rcv.recs.flatten = []
    rw [(h !i).1]
    rfl
  · show [] ++ SbMbuf.rights (e0 !i).rcv.recs.flatten = []
    rw [(h !i).1]
    rfl
  · have h1 : (e0 i).rcv.recs = [] := (h i).1
    rw [show (UnpStream.start e0).ends = e0 from rfl, h1] at hr
    cases hr

theorem adjust (h c c' : BitVec 32) : h - (c' - c) + c' = h + c := by
  grind

theorem adjust' (h c c' : BitVec 32) : h + (c - c') + c' = h + c := by
  grind

theorem Inv.send (hs : Inv e0 s) (hen : s.Enabled (.send i ierr m rights copied))
    (hfit : s.Fits (.send i ierr m rights copied)) : Inv e0 (s.next (.send i ierr m rights copied)) := by
  obtain ⟨hm, hrights⟩ := hen
  rcases pruSend_cases s.ends i ierr m rights copied with ⟨-, h1, h2⟩ | ⟨h1, h2, e', h3, h4, h5, h6, h7,
      h8, h9, h10, h11⟩
  · have h3 : s.next (.send i ierr m rights copied) = s := by
      unfold next
      dsimp only
      rw [if_pos h2, h1]
    rwa [h3]
  have hnext : s.next (.send i ierr m rights copied) = { s with
      ends := e'
      sent := update s.sent i (s.sent i ++ SbMbuf.bytes m)
      sentRights := update s.sentRights i (s.sentRights i ++ rights.toList.map SbMbuf.dat)
      last := update s.last (!i) (counts e' (!i)) } := by
    unfold next
    dsimp only
    rw [h3]
    rfl
  have hfit' : ∀ r, rights = some r → r.len ≠ 0 ∧ copied = true ∧
      ((SbMbuf.bytes m).length + r.len : ℤ) ≤ (s.ends !i).rcv.sbspace := fun r h12 => by
    subst h12
    exact hfit (h1 rfl) h2
  obtain ⟨hd, hr⟩ := delivered_data (hs.recs !i) hm hrights hfit'
  have hne : i ≠ !i := by simp
  have hrem := hs.remembered (!i)
  rw [hnext]
  refine ⟨⟨fun j => ?_, fun j => ?_, fun j => ?_, fun j => ?_, fun j => ?_⟩, fun j => ?_⟩
  · show (e' j).hiwat + (update s.last (!i) (counts e' (!i)) (!j)).1 = _
    rcases Bool.eq_or_eq_not j i with rfl | rfl
    · rw [update_self, h6, adjust, ← hs.hiwat j, ← hrem]
    · rw [Bool.not_not, update_of_ne hne, h8, ← hs.hiwat (!i), Bool.not_not]
  · show (e' j).mbmax + (update s.last (!i) (counts e' (!i)) (!j)).2 = _
    rcases Bool.eq_or_eq_not j i with rfl | rfl
    · rw [update_self, h7, adjust, ← hs.mbmax j, ← hrem]
    · rw [Bool.not_not, update_of_ne hne, h9, ← hs.mbmax (!i), Bool.not_not]
  · show ((e' j).unpcc, (e' j).unpmbcnt) = update s.last (!i) (counts e' (!i)) j
    rcases Bool.eq_or_eq_not j i with rfl | rfl
    · rw [update_of_ne hne, h11]
      exact hs.remembered j
    · rw [update_self, h10]
  · show s.taken (!j) ++ SbMbuf.data (e' !j).rcv.recs.flatten = update s.sent i _ j
    rcases Bool.eq_or_eq_not j i with rfl | rfl
    · rw [update_self, h4, hd, ← append_assoc, hs.data]
    · rw [Bool.not_not, update_of_ne (Ne.symm hne), h5, ← hs.data (!i), Bool.not_not]
      rfl
  · show s.takenRights (!j) ++ SbMbuf.rights (e' !j).rcv.recs.flatten = update s.sentRights i _ j
    rcases Bool.eq_or_eq_not j i with rfl | rfl
    · rw [update_self, h4, hr, ← append_assoc, hs.rights]
    · rw [Bool.not_not, update_of_ne (Ne.symm hne), h5, ← hs.rights (!i), Bool.not_not]
      rfl
  · show ∀ r ∈ (e' j).rcv.recs, r ≠ []
    rcases Bool.eq_or_eq_not j i with rfl | rfl
    · rw [h5]
      exact hs.recs j
    · rw [h4]
      exact delivered_ne_nil (hs.recs !i)

theorem Inv.rcvd (hs : Inv e0 s) (i : Bool) : Inv e0 (s.next (.rcvd i)) := by
  have hne : i ≠ !i := by simp
  have hrem := hs.remembered i
  obtain ⟨e', he, h1, h2, h3, h4, h5, h6, h7, h8⟩ : ∃ e', s.ends.pruRcvd i = e' ∧
      (∀ j, (e' j).rcv = (s.ends j).rcv) ∧
      (e' !i).hiwat = (s.ends !i).hiwat + ((s.ends i).unpcc - (counts e' i).1) ∧
      (e' !i).mbmax = (s.ends !i).mbmax + ((s.ends i).unpmbcnt - (counts e' i).2) ∧
      (e' i).hiwat = (s.ends i).hiwat ∧ (e' i).mbmax = (s.ends i).mbmax ∧
      ((e' i).unpcc, (e' i).unpmbcnt) = counts e' i ∧
      (e' !i).unpcc = (s.ends !i).unpcc ∧ (e' !i).unpmbcnt = (s.ends !i).unpmbcnt := by
    refine ⟨_, rfl, fun j => ?_, ?_⟩
    · rcases Bool.eq_or_eq_not j i with rfl | rfl
      · simp only [UnpEnds.pruRcvd, update_self]
      · simp only [UnpEnds.pruRcvd, update_of_ne (Ne.symm hne), update_self]
    · simp only [UnpEnds.pruRcvd, counts, update_self, update_of_ne (Ne.symm hne)]
      exact ⟨trivial, trivial, trivial, trivial, trivial, trivial, trivial⟩
  have hnext : s.next (.rcvd i) = { s with ends := e', last := update s.last i (counts e' i) } := by
    rw [← he]
    rfl
  rw [hnext]
  refine ⟨⟨fun j => ?_, fun j => ?_, fun j => ?_, fun j => ?_, fun j => ?_⟩, fun j => ?_⟩
  · show (e' j).hiwat + (update s.last i (counts e' i) (!j)).1 = _
    rcases Bool.eq_or_eq_not j i with rfl | rfl
    · rw [update_of_ne (Ne.symm hne), h4, hs.hiwat j]
    · rw [Bool.not_not, update_self, h2, adjust', ← hs.hiwat (!i), Bool.not_not, ← hrem]
  · show (e' j).mbmax + (update s.last i (counts e' i) (!j)).2 = _
    rcases Bool.eq_or_eq_not j i with rfl | rfl
    · rw [update_of_ne (Ne.symm hne), h5, hs.mbmax j]
    · rw [Bool.not_not, update_self, h3, adjust', ← hs.mbmax (!i), Bool.not_not, ← hrem]
  · show ((e' j).unpcc, (e' j).unpmbcnt) = update s.last i (counts e' i) j
    rcases Bool.eq_or_eq_not j i with rfl | rfl
    · rw [update_self, h6]
    · rw [update_of_ne (Ne.symm hne), h7, h8]
      exact hs.remembered (!i)
  · show s.taken (!j) ++ SbMbuf.data (e' !j).rcv.recs.flatten = s.sent j
    rw [h1]
    exact hs.data j
  · show s.takenRights (!j) ++ SbMbuf.rights (e' !j).rcv.recs.flatten = s.sentRights j
    rw [h1]
    exact hs.rights j
  · show ∀ r ∈ (e' j).rcv.recs, r ≠ []
    rw [h1]
    exact hs.recs j

/-- What is taken off the front of a receive buffer is what it holds no more. -/
theorem Inv.takeTo {r : UnpRcv B} {x : List B} {y : List (List B)} (hs : Inv e0 s)
    (hd : x ++ SbMbuf.data r.recs.flatten = dataOf s.ends i)
    (hy : y ++ SbMbuf.rights r.recs.flatten = rightsOf s.ends i) (hr : ∀ t ∈ r.recs, t ≠ []) :
    Inv e0 (s.takeTo i r x y) := by
  have hsame : ∀ j, (update s.ends i { s.ends i with rcv := r } j).hiwat = (s.ends j).hiwat ∧
      (update s.ends i { s.ends i with rcv := r } j).mbmax = (s.ends j).mbmax ∧
      (update s.ends i { s.ends i with rcv := r } j).unpcc = (s.ends j).unpcc ∧
      (update s.ends i { s.ends i with rcv := r } j).unpmbcnt = (s.ends j).unpmbcnt := by
    intro j
    by_cases hj : j = i
    · subst hj
      rw [update_self]
      exact ⟨rfl, rfl, rfl, rfl⟩
    · rw [update_of_ne hj]
      exact ⟨rfl, rfl, rfl, rfl⟩
  refine ⟨⟨fun j => ?_, fun j => ?_, fun j => ?_, fun j => ?_, fun j => ?_⟩, fun j => ?_⟩
  · show (update s.ends i _ j).hiwat + _ = _
    rw [(hsame j).1]
    exact hs.hiwat j
  · show (update s.ends i _ j).mbmax + _ = _
    rw [(hsame j).2.1]
    exact hs.mbmax j
  · show ((update s.ends i _ j).unpcc, (update s.ends i _ j).unpmbcnt) = _
    rw [(hsame j).2.2.1, (hsame j).2.2.2]
    exact hs.remembered j
  · show update s.taken i _ (!j) ++ SbMbuf.data (update s.ends i _ (!j)).rcv.recs.flatten = s.sent j
    rw [← hs.data j]
    by_cases hj : (!j) = i
    · subst hj
      rw [update_self, update_self, append_assoc, hd]
    · rw [update_of_ne hj, update_of_ne hj]
      rfl
  · show update s.takenRights i _ (!j) ++ SbMbuf.rights (update s.ends i _ (!j)).rcv.recs.flatten =
      s.sentRights j
    rw [← hs.rights j]
    by_cases hj : (!j) = i
    · subst hj
      rw [update_self, update_self, append_assoc, hy]
    · rw [update_of_ne hj, update_of_ne hj]
      rfl
  · show ∀ t ∈ (update s.ends i _ j).rcv.recs, t ≠ []
    by_cases hj : j = i
    · subst hj
      rw [update_self]
      exact hr
    · rw [update_of_ne hj]
      exact hs.recs j

theorem Inv.take (hs : Inv e0 s) (hen : s.Enabled (.take i)) : Inv e0 (s.next (.take i)) := by
  have hr := hs.recs i
  have hd : dataOf s.ends i = SbMbuf.data (s.ends i).rcv.recs.flatten := rfl
  have hy : rightsOf s.ends i = SbMbuf.rights (s.ends i).rcv.recs.flatten := rfl
  unfold next
  dsimp only
  obtain ⟨n, t, c, hc⟩ : ∃ n t c, (s.ends i).rcv.recs = (n :: t) :: c := by
    cases hc : (s.ends i).rcv.recs with
    | nil => exact absurd hc hen
    | cons t c =>
      cases t with
      | nil => exact absurd rfl (hr [] (by rw [hc]; exact mem_cons_self))
      | cons n t => exact ⟨n, t, c, rfl⟩
  rw [hc] at hr hd hy
  -- the first mbuf is the only one of its record, or is not
  have hfree : (s.ends i).rcv.free.recs.flatten = t ++ c.flatten ∧
      ∀ x ∈ (s.ends i).rcv.free.recs, x ≠ [] := by
    unfold UnpRcv.free
    rw [hc]
    cases t with
    | nil => exact ⟨rfl, fun x hx => hr x (mem_cons_of_mem _ hx)⟩
    | cons n' t =>
      refine ⟨rfl, fun x hx => ?_⟩
      rcases mem_cons.1 hx with rfl | hx
      · exact cons_ne_nil _ _
      · exact hr x (mem_cons_of_mem _ hx)
  rw [hc]
  dsimp only
  have hflat : ((n :: t) :: c).flatten = [n] ++ (t ++ c.flatten) := rfl
  refine hs.takeTo ?_ ?_ hfree.2
  · rw [hfree.1, hd, hflat, SbMbuf.data_append [n]]
  · rw [hfree.1, hy, hflat, SbMbuf.rights_append [n]]

theorem Inv.trim {k : ℕ} (hs : Inv e0 s) (hen : s.Enabled (.trim i k)) : Inv e0 (s.next (.trim i k)) := by
  have hr := hs.recs i
  obtain ⟨n, t, c, hc, hk, hn⟩ := hen
  unfold next
  dsimp only
  have htrim : ((s.ends i).rcv.trim k).recs = (n.trim k hk :: t) :: c := by
    unfold UnpRcv.trim
    rw [hc]
    dsimp only
    rw [dif_pos hk]
  have hflat : ∀ n' : SbMbuf B, ((n' :: t) :: c).flatten = n' :: (t ++ c.flatten) := fun _ => rfl
  have hn' : (n.trim k hk).mtype ≠ MT_RIGHTS := hn
  rw [hc] at hr ⊢
  dsimp only
  refine hs.takeTo ?_ ?_ ?_
  · unfold dataOf
    rw [htrim, hc, hflat, hflat, SbMbuf.data_cons, SbMbuf.data_cons n, if_neg hn', if_neg hn,
      ← append_assoc]
    exact congrArg (· ++ _) (take_append_drop k n.dat)
  · unfold rightsOf
    rw [htrim, hc, hflat, hflat, SbMbuf.rights_cons, SbMbuf.rights_cons n, if_neg hn', if_neg hn]
    rfl
  · rw [htrim]
    intro x hx
    rcases mem_cons.1 hx with rfl | hx
    · exact cons_ne_nil _ _
    · exact hr x (mem_cons_of_mem _ hx)

theorem Inv.shutdown (hs : Inv e0 s) (i : Bool) : Inv e0 (s.next (.shutdown i)) := by
  have hsame : ∀ j, ∃ b, (s.next (.shutdown i)).ends j = { s.ends j with cantsendmore := b } := by
    intro j
    by_cases hj : j = i
    · subst hj
      exact ⟨true, update_self ..⟩
    · exact ⟨(s.ends j).cantsendmore, update_of_ne hj _ _⟩
  refine ⟨⟨fun j => ?_, fun j => ?_, fun j => ?_, fun j => ?_, fun j => ?_⟩, fun j => ?_⟩
  · obtain ⟨b, hb⟩ := hsame j
    rw [hb]
    exact hs.hiwat j
  · obtain ⟨b, hb⟩ := hsame j
    rw [hb]
    exact hs.mbmax j
  · obtain ⟨b, hb⟩ := hsame j
    rw [hb]
    exact hs.remembered j
  · obtain ⟨b, hb⟩ := hsame (!j)
    unfold dataOf
    rw [hb]
    exact hs.data j
  · obtain ⟨b, hb⟩ := hsame (!j)
    unfold rightsOf
    rw [hb]
    exact hs.rights j
  · obtain ⟨b, hb⟩ := hsame j
    rw [hb]
    exact hs.recs j

/-- **Back-pressure of streams.**  In every run all of whose sends fit, the limits and the counts as of
the last request add up to what they were at first, and what was sent has been taken or is in the receive
buffer, in order; and there a send fails or is delivered if and only if it fits. -/
theorem backpressure_kept (h0 : Fresh e0) (h : ((lts e0).restrict Fits).Reach s) :
    Kept e0 s ∧ ∀ i ierr m rights copied, s.Enabled (.send i ierr m rights copied) →
      (s.Answered i ierr m rights copied ↔ s.Fits (.send i ierr m rights copied)) := by
  have hinv : Inv e0 s := by
    refine h.inv (fun s hs => ?_) fun s l s' _ hs hstep => ?_
    · rw [show s = UnpStream.start e0 from hs]
      exact .start h0
    · obtain ⟨hfit, hen, rfl⟩ := hstep
      cases l with
      | send i ierr m rights copied => exact hs.send hen hfit
      | rcvd i => exact hs.rcvd i
      | take i => exact hs.take hen
      | trim i k => exact hs.trim hen
      | shutdown i => exact hs.shutdown i
  exact ⟨hinv.toKept, fun i ierr m rights copied hen => answered_iff hinv.recs hen⟩

/-! ### A stream -/

/-- A data mbuf with one byte. -/
def byte : SbMbuf ℕ := .small 1 [7] (by decide)

/-- Rights of no descriptors. -/
def noRights : SbMbuf ℕ := .small MT_RIGHTS [] (by decide)

/-- Two ends with the same limits. -/
def pair : UnpEnds ℕ := fun _ =>
  { rcv := ⟨[], 4096, 8192⟩, hiwat := 4096, mbmax := 8192, unpcc := 0, unpmbcnt := 0,
    cantsendmore := false }

theorem fresh_pair : Fresh pair := fun _ => ⟨rfl, rfl, rfl⟩

/-- A byte has been sent and is in the receive buffer of the peer. -/
def sentByte : UnpStream ℕ := (start pair).next (.send true 0 [byte] none true)

theorem enabled_byte (s : UnpStream ℕ) : s.Enabled (.send true 0 [byte] none true) :=
  ⟨fun a ha => by rw [mem_singleton.1 ha]; decide, nofun⟩

theorem backpressure_kept_byte : Kept pair sentByte ∧ ∀ i ierr m rights copied,
    sentByte.Enabled (.send i ierr m rights copied) →
      (sentByte.Answered i ierr m rights copied ↔ sentByte.Fits (.send i ierr m rights copied)) :=
  backpressure_kept fresh_pair
    (.step (l := .send true 0 [byte] none true) (.init rfl) ⟨trivial, enabled_byte _, rfl⟩)

/-- A byte sent with empty rights is lost: the send returns 0 and nothing has arrived. -/
theorem empty_rights_lost : ∃ s : UnpStream ℕ, (lts pair).Reach s ∧ ¬Kept pair s ∧
    ((start pair).ends.pruSend true 0 [byte] (some noRights) true).2 = 0 ∧
    ¬(start pair).Answered true 0 [byte] (some noRights) true := by
  have hen : (start pair).Enabled (.send true 0 [byte] (some noRights) true) :=
    ⟨fun a ha => by rw [List.mem_singleton.1 ha]; decide, fun r hr => by
      rw [← Option.some.inj hr]
      rfl⟩
  refine ⟨_, .step (.init rfl) ⟨hen, rfl⟩, fun h => ?_, rfl, ?_⟩
  · have h1 := h.data true
    exact absurd h1 (by decide)
  · rintro (h | ⟨h, -⟩)
    · exact absurd rfl h
    · exact absurd h (by decide)

end UnpStream

end Hpux.Net
