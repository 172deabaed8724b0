import Hpux910.Lib.LinkedQueue
import Hpux910.Sys.KernClock
import Hpux910.Sys.SysVIpc
import Hpux910.Sys.SysVMap
import Mathlib

/-!
# Receiving messages

`msgrcv` of `sys/sysV_msg.c` looks for a message by its type in one pass along the queue, with the best message so
far and its predecessor, and takes it out of the queue.

* `MsgSys` : the message headers, a queue of them, and the free ones.
* `search`, `findmsg`, `msgfree`, `msgrcv` : the code.
* `Qualifies`, `Selected` : which message is to be received.
* `Served` : what a call should do.
* `search_exact`, `search_least` : what the pass finds.
* `msgrcv_served_iff` : when a call does what it should.
-/

namespace Hpux

namespace SysV

open Function Callouts List

/-- `struct msg`, without the link. -/
structure Msg where
  msg_type : ℤ
  msg_ts : UInt16
  msg_spot : ℤ

/-- The message headers `msgh`, with the links of the queue and of the free list, and what `msgrcv` uses of a
`struct msqid_ds`. -/
structure MsgSys where
  /-- The number of headers. -/
  msgtql : ℕ
  msgh : ℕ → Msg
  msg_next : ℕ → Option ℕ
  msgfp : Option ℕ
  msgmap : IpcMap
  /-- The pool of segments of texts. -/
  msg : ℕ → UInt8
  /-- `msginfo.msgssz`, the bytes of a segment. -/
  msgssz : ℕ
  msg_first : Option ℕ
  msg_last : Option ℕ
  msg_qnum : UInt16
  msg_cbytes : UInt16
  msg_lrpid : ℕ
  /-- The bit `MSG_RWAIT` of `msg_perm.mode`. -/
  rwait : Bool
  /-- The bit `MSG_WWAIT`. -/
  wwait : Bool

/-- The arguments of a call, and what the two calls of `copyout` will answer. -/
structure RcvArgs where
  pid : ℕ
  msgsz : ℤ
  msgtyp : ℤ
  /-- `MSG_NOERROR`. -/
  noerror : Bool
  /-- `IPC_NOWAIT`. -/
  nowait : Bool
  /-- `copyout` of the type fails. -/
  typeFault : Bool
  /-- `copyout` of the text fails. -/
  textFault : Bool
  typ_ge : -2 ^ 31 ≤ msgtyp
  typ_lt : msgtyp < 2 ^ 31

/-- How a call ends, or that it sleeps. -/
inductive Rcv
  | delivered (mp : ℕ) (mtype : ℤ) (mtext : List UInt8)
  | failed (e : Errno)
  /-- `ENOMSG`. -/
  | nomsg
  /-- The error of `copyout`. -/
  | fault
  | sleeps

/-- Why a sleeper goes on, with the state it finds: there was a signal, the queue has been removed, or it is to look
again. -/
inductive Woken
  | caught (s : MsgSys)
  | removed (s : MsgSys)
  | again (s : MsgSys)

namespace MsgSys

/-- The loop over the queue, from `mp` with predecessor `pmp`: the message found and its predecessor.  There is no
answer if there are too few turns. -/
def search (s : MsgSys) (msgtyp : ℤ) : ℕ → (pmp mp smp spmp : Option ℕ) → Option (Option ℕ × Option ℕ)
  | 0, _, _, _, _ => none
  | _ + 1, _, none, smp, spmp => some (smp, spmp)
  | turns + 1, pmp, some mp, smp, spmp =>
    if 0 < msgtyp then
      if msgtyp ≠ (s.msgh mp).msg_type then s.search msgtyp turns (some mp) (s.msg_next mp) smp spmp
      else some (some mp, pmp)
    else if (s.msgh mp).msg_type ≤ i32 (-msgtyp) then
      if smp.any fun b => (s.msgh b).msg_type ≤ (s.msgh mp).msg_type then
        s.search msgtyp turns (some mp) (s.msg_next mp) smp spmp
      else s.search msgtyp turns (some mp) (s.msg_next mp) (some mp) pmp
    else s.search msgtyp turns (some mp) (s.msg_next mp) smp spmp

/-- The message to be received and its predecessor; `smp` and `spmp` are as the pass before has left them. -/
def findmsg (s : MsgSys) (msgtyp : ℤ) (smp spmp : Option ℕ) : Option (Option ℕ × Option ℕ) :=
  if msgtyp = 0 then some (s.msg_first, spmp)
  else s.search msgtyp (s.msgtql + 1) none s.msg_first smp spmp

/-- `btoq`, the segments of a text. -/
def btoq (s : MsgSys) (bytes : ℕ) : ℕ := (bytes + s.msgssz - 1) / s.msgssz

/-- `msgfree`. -/
def msgfree (s : MsgSys) (pmp : Option ℕ) (mp : ℕ) : MsgSys :=
  { s with
    msg_first := match pmp with
      | none => s.msg_next mp
      | some _ => s.msg_first
    msg_next := update (match pmp with
      | none => s.msg_next
      | some p => update s.msg_next p (s.msg_next mp)) mp s.msgfp
    msg_last := if s.msg_next mp = none then pmp else s.msg_last
    msg_qnum := s.msg_qnum - 1
    wwait := false
    msgmap := if (s.msgh mp).msg_ts = 0 then s.msgmap
      else ipcmfree s.msgmap (s.btoq (s.msgh mp).msg_ts.toNat) ((s.msgh mp).msg_spot + 1).toNat
    msgfp := some mp }

/-- The bytes of a text. -/
def text (s : MsgSys) (mp sz : ℕ) : List UInt8 :=
  (List.range sz).map fun i => s.msg (s.msgssz * (s.msgh mp).msg_spot.toNat + i)

/-- The transfer byte count; nothing if the text is too long for the caller. -/
def sz (s : MsgSys) (a : RcvArgs) (mp : ℕ) : Option ℕ :=
  if a.msgsz < (s.msgh mp).msg_ts.toNat then if a.noerror then some a.msgsz.toNat else none
  else some (s.msgh mp).msg_ts.toNat

/-- The message `smp` is copied to the caller and taken out of the queue behind `spmp`. -/
def receive (s : MsgSys) (a : RcvArgs) (spmp : Option ℕ) (smp : ℕ) : Rcv × MsgSys :=
  match s.sz a smp with
  | none => (.failed .E2BIG, s)
  | some sz =>
    if a.typeFault then (.fault, s)
    else if sz ≠ 0 ∧ a.textFault then (.fault, s)
    else (.delivered smp (s.msgh smp).msg_type (s.text smp sz),
      { s with msg_cbytes := s.msg_cbytes - (s.msgh smp).msg_ts, msg_lrpid := a.pid }.msgfree spmp smp)

/-- `msgrcv` from the label `findmsg` on, with what happens at each `sleep`. -/
def msgrcvLoop (a : RcvArgs) : (smp spmp : Option ℕ) → MsgSys → List Woken → Option (Rcv × MsgSys)
  | smp, spmp, s, ws =>
    match s.findmsg a.msgtyp smp spmp with
    | none => none
    | some (some smp, spmp) => some (s.receive a spmp smp)
    | some (none, spmp) =>
      if a.nowait then some (.nomsg, s)
      else match ws with
        | [] => some (.sleeps, { s with rwait := true })
        | .caught s' :: _ => some (.failed .EINTR, { s' with rwait := false })
        | .removed s' :: _ => some (.failed .EIDRM, s')
        | .again s' :: ws => msgrcvLoop a none spmp s' ws

/-- `msgrcv` for a caller who may read the queue. -/
def msgrcv (a : RcvArgs) (s : MsgSys) (ws : List Woken) : Option (Rcv × MsgSys) :=
  if a.msgsz < 0 then some (.failed .EINVAL, s) else msgrcvLoop a none none s ws

end MsgSys

/-! ### What is to be received -/

/-- A message of type `t` qualifies for `msgtyp`. -/
def Qualifies (msgtyp t : ℤ) : Prop := msgtyp = 0 ∨ 0 < msgtyp ∧ t = msgtyp ∨ msgtyp < 0 ∧ t ≤ -msgtyp

/-- `mp` is the message to be received of the queue `pre ++ mp :: suf`: none before it qualifies, except those of a
larger type for a negative `msgtyp`, and none behind it is smaller then. -/
structure Selected (s : MsgSys) (msgtyp : ℤ) (pre : List ℕ) (mp : ℕ) (suf : List ℕ) : Prop where
  qualifies : Qualifies msgtyp (s.msgh mp).msg_type
  before : ∀ x ∈ pre, Qualifies msgtyp (s.msgh x).msg_type →
    msgtyp < 0 ∧ (s.msgh mp).msg_type < (s.msgh x).msg_type
  behind : msgtyp < 0 → ∀ x ∈ suf, Qualifies msgtyp (s.msgh x).msg_type →
    (s.msgh mp).msg_type ≤ (s.msgh x).msg_type

namespace MsgSys

/-- The queue is linked, and its messages are headers with types that `msgsnd` accepts. -/
structure Queue (s : MsgSys) (q : List ℕ) : Prop where
  queue : IsQueue s.msg_next s.msg_first s.msg_last q
  header : ∀ mp ∈ q, mp < s.msgtql
  typ_pos : ∀ mp ∈ q, 1 ≤ (s.msgh mp).msg_type
  typ_lt : ∀ mp ∈ q, (s.msgh mp).msg_type < 2 ^ 31

/-- What is right for a selected message: it is copied and leaves the queue, or the queue stays as it is since the
text is too long or cannot be copied. -/
def Received (s : MsgSys) (a : RcvArgs) (pre : List ℕ) (mp : ℕ) (suf : List ℕ) (r : Rcv × MsgSys) : Prop :=
  match s.sz a mp with
  | none => r = (.failed .E2BIG, s)
  | some sz =>
    if a.typeFault ∨ sz ≠ 0 ∧ a.textFault then r = (.fault, s)
    else r.1 = .delivered mp (s.msgh mp).msg_type (s.text mp sz) ∧ r.2.Queue (pre ++ suf)

/-- What a call should do: it receives the selected message; without one it fails or sleeps, and looks again when it
has been woken. -/
def Served (a : RcvArgs) : MsgSys → List Woken → Rcv × MsgSys → Prop
  | s, ws, r => ∀ q, s.Queue q →
    (∀ pre mp suf, q = pre ++ mp :: suf → Selected s a.msgtyp pre mp suf → s.Received a pre mp suf r) ∧
    ((∀ mp ∈ q, ¬ Qualifies a.msgtyp (s.msgh mp).msg_type) →
      if a.nowait then r = (.nomsg, s)
      else match ws with
        | [] => r = (.sleeps, { s with rwait := true })
        | .caught s' :: _ => r = (.failed .EINTR, { s' with rwait := false })
        | .removed s' :: _ => r = (.failed .EIDRM, s')
        | .again s' :: ws => Served a s' ws r)

/-- Every queue that a call looks at is empty, if it goes on from one that is. -/
def Idle (a : RcvArgs) : MsgSys → List Woken → Prop
  | s, ws => s.msg_first = none ∧ (a.nowait = false →
    match ws with
    | .again s' :: ws => Idle a s' ws
    | _ => True)

/-- The queues that a sleeper finds are as they should be. -/
def Linked (ws : List Woken) : Prop := ∀ s, .again s ∈ ws → ∃ q, s.Queue q

/-! ### The pass along the queue -/

variable {s : MsgSys} {q : List ℕ} {msgtyp : ℤ}

/-- For a type greater than 0 the pass ends at the first message of this type. -/
theorem search_exact (hpos : 0 < msgtyp) : ∀ (suf pre : List ℕ) (turns : ℕ),
    Links s.msg_next suf → suf.length < turns →
    (∃ l mp r, suf = l ++ mp :: r ∧ (s.msgh mp).msg_type = msgtyp ∧ (∀ x ∈ l, (s.msgh x).msg_type ≠ msgtyp) ∧
      s.search msgtyp turns pre.getLast? suf.head? none none = some (some mp, (pre ++ l).getLast?)) ∨
    (∀ x ∈ suf, (s.msgh x).msg_type ≠ msgtyp) ∧
      s.search msgtyp turns pre.getLast? suf.head? none none = some (none, none)
  | [], pre, turns, _, hlen => by
    obtain ⟨n, rfl⟩ : ∃ n, turns = n + 1 := ⟨turns - 1, by simp at hlen; omega⟩
    exact .inr ⟨nofun, rfl⟩
  | mp :: suf, pre, turns, hl, hlen => by
    obtain ⟨n, rfl⟩ : ∃ n, turns = n + 1 := ⟨turns - 1, by simp at hlen; omega⟩
    rw [head?_cons, search, if_pos hpos]
    by_cases heq : msgtyp = (s.msgh mp).msg_type
    · rw [if_neg (not_not_intro heq)]
      exact .inl ⟨[], mp, suf, rfl, heq.symm, nofun, by rw [append_nil]⟩
    · rw [if_pos heq, hl.1]
      have ih := search_exact hpos suf (pre ++ [mp]) n hl.2 (by simpa using hlen)
      rw [getLast?_concat] at ih
      rcases ih with ⟨l, b, r, rfl, hb, hne, hs⟩ | ⟨hne, hs⟩
      · refine .inl ⟨mp :: l, b, r, rfl, hb, ?_, by rw [hs, append_assoc, singleton_append]⟩
        exact forall_mem_cons.2 ⟨fun h => heq h.symm, hne⟩
      · exact .inr ⟨forall_mem_cons.2 ⟨fun h => heq h.symm, hne⟩, hs⟩

/-- The first message with the least type up to `bound`: what the best one so far is of the part `pre`. -/
def Best (s : MsgSys) (bound : ℤ) (pre : List ℕ) : Option ℕ → Option ℕ → Prop
  | none, spmp => (∀ x ∈ pre, bound < (s.msgh x).msg_type) ∧ spmp = none
  | some b, spmp => ∃ l r, pre = l ++ b :: r ∧ spmp = l.getLast? ∧ (s.msgh b).msg_type ≤ bound ∧
      (∀ x ∈ l, (s.msgh x).msg_type ≤ bound → (s.msgh b).msg_type < (s.msgh x).msg_type) ∧
      ∀ x ∈ r, (s.msgh x).msg_type ≤ bound → (s.msgh b).msg_type ≤ (s.msgh x).msg_type

variable {mp : ℕ}

/-- A message that is no better is left behind. -/
theorem Best.skip {bound : ℤ} {pre : List ℕ} {smp spmp : Option ℕ} (h : s.Best bound pre smp spmp)
    (hmp : (s.msgh mp).msg_type ≤ bound → ∃ b, smp = some b ∧ (s.msgh b).msg_type ≤ (s.msgh mp).msg_type) :
    s.Best bound (pre ++ [mp]) smp spmp := by
  cases smp with
  | none =>
    refine ⟨?_, h.2⟩
    intro x hx
    rcases mem_append.1 hx with hx | hx
    · exact h.1 x hx
    · rw [mem_singleton] at hx
      subst hx
      by_contra hle
      obtain ⟨b, hb, -⟩ := hmp (Int.not_lt.1 hle)
      cases hb
  | some b =>
    obtain ⟨l, r, rfl, hp, hb, hl, hr⟩ := h
    refine ⟨l, r ++ [mp], by simp, hp, hb, hl, ?_⟩
    intro x hx hle
    rcases mem_append.1 hx with hx | hx
    · exact hr x hx hle
    · rw [mem_singleton] at hx
      subst hx
      obtain ⟨c, hc, hcx⟩ := hmp hle
      obtain rfl := Option.some.inj hc
      exact hcx

/-- A better message is the best one from then on. -/
theorem Best.take {bound : ℤ} {pre : List ℕ} {smp spmp : Option ℕ} (h : s.Best bound pre smp spmp)
    (hle : (s.msgh mp).msg_type ≤ bound) (hlt : ∀ b, smp = some b → (s.msgh mp).msg_type < (s.msgh b).msg_type) :
    s.Best bound (pre ++ [mp]) (some mp) pre.getLast? := by
  refine ⟨pre, [], rfl, rfl, hle, ?_, nofun⟩
  intro x hx hxb
  cases smp with
  | none => exact absurd (h.1 x hx) (Int.not_lt.2 hxb)
  | some b =>
    have hb := hlt b rfl
    obtain ⟨l, r, rfl, -, -, hl, hr⟩ := h
    rcases mem_append.1 hx with hx | hx
    · exact Int.lt_trans hb (hl x hx hxb)
    · rcases mem_cons.1 hx with rfl | hx
      · exact hb
      · exact Int.lt_of_lt_of_le hb (hr x hx hxb)

/-- For a type less than 0 the pass ends with the best message of the queue. -/
theorem search_least {msgtyp : ℤ} (hneg : ¬ 0 < msgtyp) : ∀ (suf pre : List ℕ) (turns : ℕ) (smp spmp : Option ℕ),
    Links s.msg_next suf → suf.length < turns → s.Best (i32 (-msgtyp)) pre smp spmp →
    ∃ smp' spmp', s.search msgtyp turns pre.getLast? suf.head? smp spmp = some (smp', spmp') ∧
      s.Best (i32 (-msgtyp)) (pre ++ suf) smp' spmp'
  | [], pre, turns, smp, spmp, _, hlen, hb => by
    obtain ⟨n, rfl⟩ : ∃ n, turns = n + 1 := ⟨turns - 1, by simp at hlen; omega⟩
    exact ⟨smp, spmp, rfl, by rwa [append_nil]⟩
  | mp :: suf, pre, turns, smp, spmp, hl, hlen, hb => by
    obtain ⟨n, rfl⟩ : ∃ n, turns = n + 1 := ⟨turns - 1, by simp at hlen; omega⟩
    have ih := fun smp spmp => search_least hneg suf (pre ++ [mp]) n smp spmp hl.2 (by simpa using hlen)
    rw [getLast?_concat, ← hl.1, append_assoc, singleton_append] at ih
    rw [head?_cons, search, if_neg hneg]
    split_ifs with hle hbest
    · refine ih smp spmp (hb.skip fun _ => ?_)
      cases smp with
      | none => cases hbest
      | some b => exact ⟨b, rfl, of_decide_eq_true hbest⟩
    · refine ih (some mp) pre.getLast? (hb.take hle ?_)
      rintro b rfl
      by_contra hge
      exact hbest (decide_eq_true (Int.not_lt.1 hge))
    · exact ih smp spmp (hb.skip fun h => absurd h hle)

theorem best_exists (s : MsgSys) (bound : ℤ) (q : List ℕ) : ∃ smp spmp, s.Best bound q smp spmp := by
  induction q using List.reverseRecOn with
  | nil => exact ⟨none, none, nofun, rfl⟩
  | append_singleton q mp ih =>
    obtain ⟨smp, spmp, h⟩ := ih
    by_cases hle : (s.msgh mp).msg_type ≤ bound
    · by_cases hb : ∃ b, smp = some b ∧ (s.msgh b).msg_type ≤ (s.msgh mp).msg_type
      · exact ⟨smp, spmp, h.skip fun _ => hb⟩
      · exact ⟨some mp, _, h.take hle fun b hs => Int.not_le.1 fun hle' => hb ⟨b, hs, hle'⟩⟩
    · exact ⟨smp, spmp, h.skip fun hle' => absurd hle' hle⟩

/-! ### The message that is found -/

theorem qualifies_neg {msgtyp t : ℤ} (h : msgtyp < 0) : Qualifies msgtyp t ↔ t ≤ -msgtyp := by
  unfold Qualifies
  omega

theorem Best.selected (hneg : msgtyp < 0) {b : ℕ} {spmp : Option ℕ}
    (h : s.Best (-msgtyp) q (some b) spmp) :
    ∃ pre suf, q = pre ++ b :: suf ∧ spmp = pre.getLast? ∧ Selected s msgtyp pre b suf := by
  obtain ⟨l, r, rfl, hp, hb, hl, hr⟩ := h
  refine ⟨l, r, rfl, hp, (qualifies_neg hneg).2 hb, fun x hx hq => ?_, fun _ x hx hq => ?_⟩
  · exact ⟨hneg, hl x hx ((qualifies_neg hneg).1 hq)⟩
  · exact hr x hx ((qualifies_neg hneg).1 hq)

/-- Only one message of a queue is to be received. -/
theorem selected_unique {pre pre' suf suf' : List ℕ} {mp mp' : ℕ} (h : Selected s msgtyp pre mp suf)
    (h' : Selected s msgtyp pre' mp' suf') (heq : pre ++ mp :: suf = pre' ++ mp' :: suf') :
    pre = pre' ∧ mp = mp' ∧ suf = suf' := by
  rcases append_eq_append_iff.1 heq with ⟨l, rfl, h1⟩ | ⟨l, rfl, h1⟩
  · cases l with
    | nil =>
      obtain ⟨rfl, rfl⟩ := List.cons.inj h1
      exact ⟨(append_nil _).symm, rfl, rfl⟩
    | cons x l =>
      -- `mp` is before `mp'`
      obtain ⟨rfl, rfl⟩ := List.cons.inj h1
      obtain ⟨hneg, hlt⟩ := h'.before mp (by simp) h.qualifies
      exact absurd (h.behind hneg mp' (by simp) h'.qualifies) (Int.not_le.2 hlt)
  · cases l with
    | nil =>
      obtain ⟨rfl, rfl⟩ := List.cons.inj h1
      exact ⟨append_nil _, rfl, rfl⟩
    | cons x l =>
      obtain ⟨rfl, rfl⟩ := List.cons.inj h1
      obtain ⟨hneg, hlt⟩ := h.before mp' (by simp) h'.qualifies
      exact absurd (h'.behind hneg mp (by simp) h.qualifies) (Int.not_le.2 hlt)

theorem Queue.length_lt (h : s.Queue q) : q.length < s.msgtql + 1 := by
  have hsub : q ⊆ List.range s.msgtql := fun mp hmp => mem_range.2 (h.header mp hmp)
  have hle := (h.queue.nodup.subperm hsub).length_le
  rw [length_range] at hle
  omega

/-- The pass finds the message to be received with its predecessor, or none if none qualifies. -/
theorem findmsg_spec (h : s.Queue q) (hge : -2 ^ 31 < msgtyp) (hlt : msgtyp < 2 ^ 31) :
    (∃ pre mp suf, q = pre ++ mp :: suf ∧ Selected s msgtyp pre mp suf ∧
      s.findmsg msgtyp none none = some (some mp, pre.getLast?)) ∨
    (∀ mp ∈ q, ¬ Qualifies msgtyp (s.msgh mp).msg_type) ∧ s.findmsg msgtyp none none = some (none, none) := by
  unfold findmsg
  rcases Int.lt_trichotomy msgtyp 0 with hneg | rfl | hpos
  · rw [if_neg (by omega), h.queue.head_eq]
    obtain ⟨smp, spmp, hs, hb⟩ := search_least (by omega : ¬ 0 < msgtyp) q [] (s.msgtql + 1) none none
      h.queue.links h.length_lt ⟨nofun, rfl⟩
    rw [getLast?_nil] at hs
    rw [nil_append, i32_eq (by omega) (by omega)] at hb
    cases smp with
    | none =>
      obtain ⟨hnone, rfl⟩ := hb
      exact .inr ⟨fun mp hmp hq => Int.not_le.2 (hnone mp hmp) ((qualifies_neg hneg).1 hq), hs⟩
    | some b =>
      obtain ⟨pre, suf, hq, rfl, hsel⟩ := hb.selected hneg
      exact .inl ⟨pre, b, suf, hq, hsel, hs⟩
  · rw [if_pos rfl, h.queue.head_eq]
    cases q with
    | nil => exact .inr ⟨nofun, rfl⟩
    | cons mp q => exact .inl ⟨[], mp, q, rfl, ⟨.inl rfl, nofun, fun h => absurd h (by decide)⟩, rfl⟩
  · rw [if_neg (by omega), h.queue.head_eq]
    have hqual : ∀ {t : ℤ}, Qualifies msgtyp t ↔ t = msgtyp := by
      intro t
      unfold Qualifies
      omega
    rcases search_exact hpos q [] (s.msgtql + 1) h.queue.links h.length_lt with ⟨l, mp, r, hq, hb, hne, hs⟩ | ⟨hne, hs⟩
    · refine .inl ⟨l, mp, r, hq, ⟨hqual.2 hb, fun x hx hx' => ?_, fun hneg => by omega⟩, hs⟩
      exact absurd (hqual.1 hx') (hne x hx)
    · exact .inr ⟨fun mp hmp hq => hne mp hmp (hqual.1 hq), hs⟩

/-- The negation of the least `long` is itself, and no message is found. -/
theorem findmsg_least (h : s.Queue q) : s.findmsg (-2 ^ 31) none none = some (none, none) := by
  unfold findmsg
  rw [if_neg (by decide), h.queue.head_eq]
  obtain ⟨smp, spmp, hs, hb⟩ := @search_least _ (-2 ^ 31) (by decide) q [] (s.msgtql + 1) none none
    h.queue.links h.length_lt ⟨nofun, rfl⟩
  rw [getLast?_nil] at hs
  cases smp with
  | none =>
    obtain ⟨-, rfl⟩ := hb
    exact hs
  | some b =>
    exfalso
    obtain ⟨l, r, rfl, -, hb, -⟩ := hb
    have hpos := h.typ_pos b (by simp)
    have hwrap : i32 (-(-2 ^ 31)) = -2 ^ 31 := by decide
    omega

/-! ### Taking it out -/

variable {pre suf : List ℕ}

theorem msgfree_queue (h : s.Queue (pre ++ mp :: suf)) :
    (s.msgfree pre.getLast? mp).Queue (pre ++ suf) := by
  have hsub : (pre ++ suf).Sublist (pre ++ mp :: suf) := (sublist_cons_self mp suf).append_left pre
  have hmem : ∀ x ∈ pre ++ suf, x ∈ pre ++ mp :: suf := fun x hx => hsub.subset hx
  have hne : ∀ x ∈ pre ++ suf, x ≠ mp := by
    have hnd := h.queue.nodup
    rw [nodup_append, nodup_cons] at hnd
    obtain ⟨-, ⟨hmp, -⟩, hdis⟩ := hnd
    rintro x hx rfl
    rcases mem_append.1 hx with hx | hx
    · exact hdis x hx x mem_cons_self rfl
    · exact hmp hx
  refine ⟨?_, fun x hx => h.header x (hmem x hx), fun x hx => h.typ_pos x (hmem x hx),
    fun x hx => h.typ_lt x (hmem x hx)⟩
  unfold msgfree
  rcases eq_nil_or_concat pre with rfl | ⟨pre, p, rfl⟩
  · exact (h.queue.pop fun c _ => rfl).congr fun x hx => update_of_ne (hne x hx) _ _
  · rw [concat_eq_append] at hne h ⊢
    rw [getLast?_concat, append_assoc, singleton_append]
    rw [append_assoc, singleton_append] at h hne
    refine (@IsQueue.removeBehind _ _ (update s.msg_next p (s.msg_next mp)) _ _ _ _ _ _ h.queue ?_ (update_self ..)).congr
      fun x hx => update_of_ne (hne x hx) _ _
    intro c hc
    refine update_of_ne ?_ _ _
    rintro rfl
    have hnd := h.queue.nodup
    rw [nodup_append, nodup_cons, nodup_cons] at hnd
    obtain ⟨-, ⟨hp, -, -⟩, hdis⟩ := hnd
    rcases mem_append.1 hc with hc | hc
    · exact hdis c hc c mem_cons_self rfl
    · exact hp (mem_cons_of_mem mp hc)

theorem receive_received (h : s.Queue q) (a : RcvArgs) (hq : q = pre ++ mp :: suf) :
    s.Received a pre mp suf (s.receive a pre.getLast? mp) := by
  subst hq
  unfold Received receive
  cases s.sz a mp with
  | none => rfl
  | some sz =>
    dsimp only
    by_cases h1 : a.typeFault = true
    · rw [if_pos (.inl h1), if_pos h1]
    · rw [if_neg h1]
      by_cases h2 : sz ≠ 0 ∧ a.textFault = true
      · rw [if_pos (.inr h2), if_pos h2]
      · rw [if_neg h2, if_neg (not_or.2 ⟨h1, h2⟩)]
        exact ⟨rfl, msgfree_queue ⟨h.queue, h.header, h.typ_pos, h.typ_lt⟩⟩

/-! ### Calls -/

/-- What a call should do, for a size that is accepted. -/
def Right (a : RcvArgs) (s : MsgSys) (ws : List Woken) : Prop :=
  ∃ r, s.msgrcv a ws = some r ∧ (0 ≤ a.msgsz → Served a s ws r)

theorem Queue.unique {q' : List ℕ} (h : s.Queue q) (h' : s.Queue q') : q = q' := by
  rw [← h.queue.follow_eq (Nat.le_max_left q.length q'.length), h'.queue.follow_eq (Nat.le_max_right _ _)]

variable {a : RcvArgs}

/-- A call that receives the selected message. -/
theorem served_selected (h : s.Queue (pre ++ mp :: suf))
    (hsel : Selected s a.msgtyp pre mp suf) (ws : List Woken) :
    Served a s ws (s.receive a pre.getLast? mp) := by
  unfold Served
  intro q' h'
  obtain rfl := h.unique h'
  refine ⟨fun pre' mp' suf' heq hsel' => ?_, fun hnone => ?_⟩
  · obtain ⟨rfl, rfl, rfl⟩ := selected_unique hsel hsel' heq
    exact receive_received h a rfl
  · exact absurd hsel.qualifies (hnone mp (by simp))

variable {ws : List Woken}

/-- A call that finds no message. -/
theorem served_none (h : s.Queue q) (hnone : ∀ mp ∈ q, ¬ Qualifies a.msgtyp (s.msgh mp).msg_type)
   {r : Rcv × MsgSys} (hr : if a.nowait then r = (.nomsg, s)
      else match ws with
        | [] => r = (.sleeps, { s with rwait := true })
        | .caught s' :: _ => r = (.failed .EINTR, { s' with rwait := false })
        | .removed s' :: _ => r = (.failed .EIDRM, s')
        | .again s' :: ws => Served a s' ws r) : Served a s ws r := by
  unfold Served
  intro q' h'
  obtain rfl := h.unique h'
  refine ⟨fun pre mp suf heq hsel => ?_, fun _ => hr⟩
  exact absurd hsel.qualifies (hnone mp (by simp [heq]))

theorem linked_nil : Linked [] := fun _ hs => absurd hs not_mem_nil

theorem Linked.tail {w : Woken} {ws : List Woken} (h : Linked (w :: ws)) : Linked ws :=
  fun s hs => h s (mem_cons_of_mem w hs)

/-- A call for another type than the least `long` does what it should. -/
theorem msgrcvLoop_served (ha : a.msgtyp ≠ -2 ^ 31) (hws : Linked ws)
    (h : s.Queue q) : ∃ r, s.msgrcvLoop a none none ws = some r ∧ Served a s ws r := by
  have hge : -2 ^ 31 < a.msgtyp := by
    have := a.typ_ge
    omega
  induction ws generalizing s q with
  | nil =>
    unfold msgrcvLoop
    rcases findmsg_spec h hge a.typ_lt with ⟨pre, mp, suf, rfl, hsel, hs⟩ | ⟨hnone, hs⟩
    · rw [hs]
      exact ⟨_, rfl, served_selected h hsel _⟩
    · rw [hs]
      dsimp only
      split_ifs with hnw
      · exact ⟨_, rfl, served_none h hnone (by rw [if_pos hnw])⟩
      · exact ⟨_, rfl, served_none h hnone (by rw [if_neg hnw])⟩
  | cons w ws ih =>
    unfold msgrcvLoop
    rcases findmsg_spec h hge a.typ_lt with ⟨pre, mp, suf, rfl, hsel, hs⟩ | ⟨hnone, hs⟩
    · rw [hs]
      exact ⟨_, rfl, served_selected h hsel _⟩
    · rw [hs]
      dsimp only
      split_ifs with hnw
      · exact ⟨_, rfl, served_none h hnone (by rw [if_pos hnw])⟩
      · cases w with
        | caught s' => exact ⟨_, rfl, served_none h hnone (by rw [if_neg hnw])⟩
        | removed s' => exact ⟨_, rfl, served_none h hnone (by rw [if_neg hnw])⟩
        | again s' =>
          obtain ⟨q', h'⟩ := hws s' mem_cons_self
          obtain ⟨r, hr, hserved⟩ := ih hws.tail h'
          exact ⟨r, hr, served_none h hnone (by rwa [if_neg hnw])⟩

/-- The answers of a call that has not found a message. -/
def Refused : Rcv → Prop
  | .delivered .. | .fault | .failed .E2BIG => False
  | _ => True

/-- A call for the least `long` finds no message, and is right if the queues that it looks at are empty. -/
theorem msgrcvLoop_least (ha : a.msgtyp = -2 ^ 31) (hws : Linked ws)
    (h : s.Queue q) : ∃ r, s.msgrcvLoop a none none ws = some r ∧ Refused r.1 ∧ (Idle a s ws → Served a s ws r) := by
  have hempty : ∀ {s : MsgSys} {q : List ℕ}, s.Queue q → s.msg_first = none →
      ∀ mp ∈ q, ¬ Qualifies a.msgtyp (s.msgh mp).msg_type := by
    intro s q h hfirst
    obtain rfl := h.queue.head_none_iff.1 hfirst
    exact nofun
  induction ws generalizing s q with
  | nil =>
    unfold msgrcvLoop
    rw [ha, findmsg_least h]
    dsimp only
    split_ifs with hnw
    · refine ⟨_, rfl, trivial, fun hi => served_none h (hempty h ?_) (by rw [if_pos hnw])⟩
      unfold Idle at hi
      exact hi.1
    · refine ⟨_, rfl, trivial, fun hi => served_none h (hempty h ?_) (by rw [if_neg hnw])⟩
      unfold Idle at hi
      exact hi.1
  | cons w ws ih =>
    unfold msgrcvLoop
    rw [ha, findmsg_least h]
    dsimp only
    split_ifs with hnw
    · refine ⟨_, rfl, trivial, fun hi => served_none h (hempty h ?_) (by rw [if_pos hnw])⟩
      unfold Idle at hi
      exact hi.1
    · have hfirst : Idle a s (w :: ws) → s.msg_first = none := by
        intro hi
        unfold Idle at hi
        exact hi.1
      cases w with
      | caught s' =>
        exact ⟨_, rfl, trivial, fun hi => served_none h (hempty h (hfirst hi)) (by rw [if_neg hnw])⟩
      | removed s' =>
        exact ⟨_, rfl, trivial, fun hi => served_none h (hempty h (hfirst hi)) (by rw [if_neg hnw])⟩
      | again s' =>
        obtain ⟨q', h'⟩ := hws s' mem_cons_self
        obtain ⟨r, hr, href, hserved⟩ := ih hws.tail h'
        refine ⟨r, hr, href, fun hi => served_none h (hempty h (hfirst hi)) ?_⟩
        rw [if_neg hnw]
        unfold Idle at hi
        exact hserved (hi.2 (by simpa using hnw))

/-- A message of a queue that is not empty qualifies for the least `long`. -/
theorem selected_least (h : s.Queue q) (hq : q ≠ []) :
    ∃ pre mp suf, q = pre ++ mp :: suf ∧ Selected s (-2 ^ 31) pre mp suf := by
  obtain ⟨smp, spmp, hb⟩ := s.best_exists (-(-2 ^ 31)) q
  cases smp with
  | none =>
    obtain ⟨mp, q, rfl⟩ := exists_cons_of_ne_nil hq
    have h1 := hb.1 mp mem_cons_self
    have h2 := h.typ_lt mp mem_cons_self
    omega
  | some b =>
    obtain ⟨pre, suf, hq, -, hsel⟩ := hb.selected (by decide)
    exact ⟨pre, b, suf, hq, hsel⟩

/-- A call that finds no message for the least `long` is wrong unless the queues are empty. -/
theorem idle_of_served (ha : a.msgtyp = -2 ^ 31) (hws : Linked ws) (h : s.Queue q)
    {r : Rcv × MsgSys} (href : Refused r.1) (hr : Served a s ws r) : Idle a s ws := by
  have hstep : ∀ {s : MsgSys} {q : List ℕ} {ws : List Woken}, s.Queue q → Served a s ws r → s.msg_first = none := by
    intro s q ws h hr
    by_contra hfirst
    obtain ⟨pre, mp, suf, hq, hsel⟩ := selected_least h fun hq => hfirst (h.queue.head_none_iff.2 hq)
    unfold Served at hr
    have hrec := (hr q h).1 pre mp suf hq (ha ▸ hsel)
    unfold Received at hrec
    cases hsz : s.sz a mp with
    | none =>
      rw [hsz] at hrec
      rw [hrec] at href
      exact href
    | some sz =>
      rw [hsz] at hrec
      dsimp only at hrec
      split_ifs at hrec
      · rw [hrec] at href
        exact href
      · rw [hrec.1] at href
        exact href
  induction ws generalizing s q with
  | nil =>
    unfold Idle
    exact ⟨hstep h hr, fun _ => trivial⟩
  | cons w ws ih =>
    have hfirst := hstep h hr
    unfold Idle
    refine ⟨hfirst, fun hnw => ?_⟩
    cases w with
    | caught s' => trivial
    | removed s' => trivial
    | again s' =>
      obtain ⟨q', h'⟩ := hws s' mem_cons_self
      refine ih hws.tail h' ?_
      unfold Served at hr
      obtain rfl := h.queue.head_none_iff.1 hfirst
      have hnext := (hr [] h).2 nofun
      rwa [if_neg (by simp [hnw])] at hnext

/-- A call receives the message that its type asks for, fails with `ENOMSG` or sleeps, exactly if its size is not
accepted, its type is not the least `long`, or all queues that it looks at are empty. -/
theorem msgrcv_served_iff (a : RcvArgs) {ws : List Woken} (hws : Linked ws) (h : s.Queue q) :
    Right a s ws ↔ a.msgsz < 0 ∨ a.msgtyp ≠ -2 ^ 31 ∨ Idle a s ws := by
  unfold Right msgrcv
  split_ifs with hsz
  · refine ⟨fun _ => .inl hsz, fun _ => ⟨_, rfl, fun h0 => ?_⟩⟩
    omega
  · by_cases ha : a.msgtyp = -2 ^ 31
    · obtain ⟨r, hr, href, hserved⟩ := msgrcvLoop_least ha hws h
      rw [hr]
      constructor
      · rintro ⟨r', hr', hs⟩
        obtain rfl := Option.some.inj hr'
        exact .inr (.inr (idle_of_served ha hws h href (hs (Int.not_lt.1 hsz))))
      · intro hi
        refine ⟨r, rfl, fun _ => hserved ?_⟩
        exact (hi.resolve_left hsz).resolve_left fun hne => hne ha
    · obtain ⟨r, hr, hserved⟩ := msgrcvLoop_served ha hws h
      exact ⟨fun _ => .inr (.inl ha), fun _ => ⟨r, hr, fun _ => hserved⟩⟩

/-- A queue of one message, of type 1 and without text. -/
def oneMessage : MsgSys where
  msgtql := 1
  msgh _ := ⟨1, 0, -1⟩
  msg_next _ := none
  msgfp := none
  msgmap := ⟨[], 0⟩
  msg _ := 0
  msgssz := 8
  msg_first := some 0
  msg_last := some 0
  msg_qnum := 1
  msg_cbytes := 0
  msg_lrpid := 0
  rwait := false
  wwait := false

/-- A call that does not wait. -/
def ask (msgtyp : ℤ) (typ_ge : -2 ^ 31 ≤ msgtyp) (typ_lt : msgtyp < 2 ^ 31) : RcvArgs where
  pid := 1
  msgsz := 0
  msgtyp := msgtyp
  noerror := false
  nowait := true
  typeFault := false
  textFault := false
  typ_ge := typ_ge
  typ_lt := typ_lt

theorem oneMessage_queue : oneMessage.Queue [0] :=
  ⟨⟨rfl, rfl, ⟨rfl, trivial⟩, by decide⟩, by decide, by decide, by decide⟩

/-- A call for the types up to 7. -/
theorem msgrcv_served_seven : Right (ask (-7) (by decide) (by decide)) oneMessage [] :=
  (msgrcv_served_iff _ linked_nil oneMessage_queue).2 (.inr (.inl (by decide)))

/-- The message is not found by a call for the least `long`, whose absolute value is not less than any type. -/
theorem msgrcv_misses_least : ¬ Right (ask (-2 ^ 31) (by decide) (by decide)) oneMessage [] := by
  rintro ⟨r, hr, hs⟩
  obtain ⟨r', hr', href, -⟩ := msgrcvLoop_least (a := ask (-2 ^ 31) (by decide) (by decide)) rfl
    linked_nil oneMessage_queue
  obtain rfl : r = r' := Option.some.inj (hr.symm.trans hr')
  have hidle := idle_of_served rfl linked_nil oneMessage_queue href (hs (by decide))
  unfold Idle at hidle
  exact absurd hidle.1 (by decide)

end MsgSys

end SysV

end Hpux
