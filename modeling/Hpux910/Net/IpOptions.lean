import Mathlib

/-!
# Options of an IP header

`ip_dooptions` goes through the options of a header, and changes some of them on the way.

* `optStep`, `ipDooptions` : one turn of the loop, and the whole, with every access to an option.
* `Access.Inside` : the access stays within the option area, and what is read or stored within the option.
* `OptOk` : what one turn needs for that.
* `optStep_spec` : one turn; `run_spec` : all of them.
* `ipDooptions_inside_iff` : it comes to an end, and stays inside exactly when all turns have what they need.

Indices count from the start of the header; bytes behind it are what comes next in memory.
-/

namespace Hpux

namespace IpOpt

open Function

/-- `struct in_addr`, or another four bytes. -/
abbrev InAddr := Fin 4 → BitVec 8

def IPOPT_EOL : BitVec 8 := 0

def IPOPT_NOP : BitVec 8 := 1

def IPOPT_RR : BitVec 8 := 7

def IPOPT_TS : BitVec 8 := 68

def IPOPT_LSRR : BitVec 8 := 131

def IPOPT_SSRR : BitVec 8 := 137

def IPOPT_MINOFF : ℕ := 4

def IPOPT_TS_TSONLY : BitVec 8 := 0

def IPOPT_TS_TSANDADDR : BitVec 8 := 1

def IPOPT_TS_PRESPEC : BitVec 8 := 2

/-- `sizeof(struct in_addr)`, and that of a time. -/
def addrSize : ℕ := 4

/-- Where `ip_dst` is in the header. -/
def ipDst : ℕ := 16

/-- What the routines that `ip_dooptions` calls answer while it is at an option: `ifa_ifwithaddr`,
`in_iaonnetof`, `ip_rtaddr` with the address of the interface, the address of `ifptoia`, `iptime`. -/
structure Answers where
  ours : ℕ → InAddr → Bool
  onNet : ℕ → InAddr → Bool
  rtaddr : ℕ → InAddr → Option InAddr
  ifAddr : ℕ → InAddr
  iptime : ℕ → InAddr

/-- An access to a byte of an option, or to some bytes of the option at `cp` of length `optlen`: an address, a
time, or the whole option. -/
inductive Access
  | field (i : ℕ)
  | item (i n cp optlen : ℕ)
  deriving DecidableEq

/-- What `icmp_error` is called with. -/
inductive IcmpErr
  | ICMP_PARAMPROB (code : ℕ)
  | ICMP_UNREACH_SRCFAIL
  | ICMP_UNREACH_HOST
  deriving DecidableEq

/-- `ip_srcrt` and `ip_nhops`. -/
structure SrcRt where
  srcopt : List (BitVec 8)
  last : InAddr
  nhops : ℕ

/-- The loop of `ip_dooptions`. -/
structure OptState where
  mem : ℕ → BitVec 8
  cp : ℕ
  cnt : ℕ
  srcrt : Option SrcRt
  log : List Access

inductive Turn
  | next (s : OptState)
  | done (s : OptState)
  | bad (err : IcmpErr) (s : OptState)

/-- The state, wherever the turn leads to. -/
def Turn.state : Turn → OptState
  | .next s => s
  | .done s => s
  | .bad _ s => s

/-- A difference of two lengths, one of which is a `sizeof`. -/
def usub (n m : ℕ) : ℕ := (n + 2 ^ 32 - m) % 2 ^ 32

def word (mem : ℕ → BitVec 8) (i : ℕ) : InAddr := fun k => mem (i + k)

def setWord (mem : ℕ → BitVec 8) (i : ℕ) (a : InAddr) : ℕ → BitVec 8 := fun j =>
  if h : i ≤ j ∧ j < i + 4 then a ⟨j - i, by omega⟩ else mem j

namespace OptState

variable (a : Answers) (s : OptState)

/-- A byte of the option. -/
def byte (i : ℕ) : ℕ := (s.mem (s.cp + i)).toNat

def touch (acc : Access) : OptState := { s with log := s.log ++ [acc] }

/-- To the next option. -/
def skip (optlen : ℕ) : Turn := .next { s with cp := s.cp + optlen, cnt := s.cnt - optlen }

/-- `bcopy` of four bytes to the option. -/
def store (i optlen : ℕ) (x : InAddr) : OptState :=
  { s.touch (.item (s.cp + i) addrSize s.cp optlen) with mem := setWord s.mem (s.cp + i) x }

/-- `cp[i] += n` -/
def bump (i n : ℕ) : OptState :=
  { s.touch (.field (s.cp + i)) with mem := update s.mem (s.cp + i) (s.mem (s.cp + i) + BitVec.ofNat 8 n) }

/-- `save_rte`, which has room for all of an option. -/
def saveRte (optlen : ℕ) (dst : InAddr) : OptState :=
  { s.touch (.item s.cp optlen s.cp optlen) with
    srcrt := some ⟨(List.range optlen).map fun i => s.mem (s.cp + i), dst, (optlen - 3) / 4 + 1⟩ }

/-- The cases `IPOPT_LSRR` and `IPOPT_SSRR`. -/
def sourceRoute (strict : Bool) (optlen : ℕ) : Turn :=
  let off := s.byte 2
  let s := s.touch (.field (s.cp + 2))
  if off < IPOPT_MINOFF then .bad (.ICMP_PARAMPROB (s.cp + 2)) s
  else if a.ours s.cp (word s.mem ipDst) = false then
    if strict then .bad .ICMP_UNREACH_SRCFAIL s else s.skip optlen
  else
    let off := off - 1
    if off > usub optlen addrSize then (s.saveRte optlen (word s.mem 12)).skip optlen
    else
      let next := word s.mem (s.cp + off)
      let s := s.touch (.item (s.cp + off) addrSize s.cp optlen)
      match a.rtaddr s.cp next with
      | none => .bad .ICMP_UNREACH_SRCFAIL s
      | some ia =>
        if strict ∧ a.onNet s.cp next = false then .bad .ICMP_UNREACH_SRCFAIL s
        else
          let s := { s with mem := setWord s.mem ipDst next }
          ((s.store off optlen ia).bump 2 addrSize).skip optlen

/-- The case `IPOPT_RR`. -/
def recordRoute (optlen : ℕ) : Turn :=
  let off := s.byte 2
  let s := s.touch (.field (s.cp + 2))
  if off < IPOPT_MINOFF then .bad (.ICMP_PARAMPROB (s.cp + 2)) s
  else
    let off := off - 1
    if off > usub optlen addrSize then s.skip optlen
    else
      match a.rtaddr s.cp (word s.mem ipDst) with
      | none => .bad .ICMP_UNREACH_HOST s
      | some ia => ((s.store off optlen ia).bump 2 addrSize).skip optlen

/-- The time is stored. -/
def stamp (optlen : ℕ) : Turn :=
  ((s.store (s.byte 2 - 1) optlen (a.iptime s.cp)).bump 2 addrSize).skip optlen

/-- The case `IPOPT_TS`; the length is read again as `ipt_len`. -/
def timestamp (optlen : ℕ) : Turn :=
  let bad := fun s : OptState => Turn.bad (.ICMP_PARAMPROB s.cp) s
  let len := s.byte 1
  let s := s.touch (.field (s.cp + 1))
  if len < 5 then bad s
  else
    let ptr := s.byte 2
    let s := s.touch (.field (s.cp + 2))
    if ptr < 5 then bad s
    else if ptr - 1 > usub len addrSize then
      -- the overflow counter is the upper half of the byte
      let s := s.bump 3 16
      if s.mem (s.cp + 3) >>> 4 = 0 then bad s else s.skip optlen
    else
      let flg := s.mem (s.cp + 3) &&& 15
      let s := s.touch (.field (s.cp + 3))
      if flg = IPOPT_TS_TSONLY then s.stamp a optlen
      else if flg = IPOPT_TS_TSANDADDR then
        if ptr - 1 + addrSize + addrSize > len then bad s
        else ((s.store (ptr - 1) optlen (a.ifAddr s.cp)).bump 2 addrSize).stamp a optlen
      else if flg = IPOPT_TS_PRESPEC then
        if ptr - 1 + addrSize + addrSize > len then bad s
        else
          let here := a.ours s.cp (word s.mem (s.cp + (ptr - 1)))
          let s := s.touch (.item (s.cp + (ptr - 1)) addrSize s.cp optlen)
          if here = false then s.skip optlen else (s.bump 2 addrSize).stamp a optlen
      else bad s

end OptState

/-- One turn of the loop. -/
def optStep (a : Answers) (s : OptState) : Turn :=
  if s.cnt = 0 then .done s
  else
    let opt := s.mem s.cp
    let s := s.touch (.field s.cp)
    if opt = IPOPT_EOL then .done s
    else if opt = IPOPT_NOP then s.skip 1
    else
      let optlen := s.byte 1
      let s := s.touch (.field (s.cp + 1))
      if optlen = 0 ∨ optlen > s.cnt then .bad (.ICMP_PARAMPROB (s.cp + 1)) s
      else if opt = IPOPT_LSRR then s.sourceRoute a false optlen
      else if opt = IPOPT_SSRR then s.sourceRoute a true optlen
      else if opt = IPOPT_RR then s.recordRoute a optlen
      else if opt = IPOPT_TS then s.timestamp a optlen
      else s.skip optlen

/-- The loop, for so many turns at most. -/
def run (a : Answers) : ℕ → OptState → Option Turn
  | 0, _ => none
  | n + 1, s => match optStep a s with
    | .next s => run a n s
    | t => some t

/-- What is done with a header of `4 * hl` bytes. -/
def start (mem : ℕ → BitVec 8) (hl : ℕ) : OptState := ⟨mem, 20, 4 * hl - 20, none, []⟩

def ipDooptions (a : Answers) (mem : ℕ → BitVec 8) (hl : ℕ) : Option Turn :=
  run a (4 * hl - 19) (start mem hl)

/-! ### Inside -/

/-- In the option area of a header of `hlen` bytes, and within the option. -/
def Access.Inside (hlen : ℕ) : Access → Prop
  | .field i => 20 ≤ i ∧ i < hlen
  | .item i n cp optlen => 20 ≤ i ∧ i + n ≤ hlen ∧ cp ≤ i ∧ i + n ≤ cp + optlen

/-- The length byte of an option is there; and a record or source route option has a byte for its offset, and
room for an address unless it is left before. -/
def OptOk (a : Answers) (s : OptState) : Prop :=
  let opt := s.mem s.cp
  opt = IPOPT_EOL ∨ opt = IPOPT_NOP ∨ 2 ≤ s.cnt ∧
    (0 < s.byte 1 → s.byte 1 ≤ s.cnt →
      (opt = IPOPT_LSRR ∨ opt = IPOPT_SSRR → 3 ≤ s.cnt ∧
        (4 ≤ s.byte 1 ∨ s.byte 2 < 4 ∨ a.ours s.cp (word s.mem ipDst) = false)) ∧
      (opt = IPOPT_RR → 3 ≤ s.cnt ∧ (4 ≤ s.byte 1 ∨ s.byte 2 < 4 ∨
        a.rtaddr s.cp (word s.mem ipDst) = none)))

/-- The loop gets from one option to another. -/
def Comes (a : Answers) : OptState → OptState → Prop := Relation.ReflTransGen fun s s' => optStep a s = .next s'

/-! ### One turn -/

/-- A turn stays inside exactly when `P` holds, and the next one is about an option behind this one. -/
structure Turn.Spec (hlen : ℕ) (s : OptState) (t : Turn) (P : Prop) : Prop where
  log : ∃ accs, t.state.log = s.log ++ accs ∧ ((∀ acc ∈ accs, acc.Inside hlen) ↔ P)
  next : ∀ s', t = .next s' → s'.cp + s'.cnt = s.cp + s.cnt ∧ s.cp < s'.cp ∧ s'.cnt < s.cnt

variable {a : Answers} {s s₁ : OptState} {t : Turn} {hlen optlen : ℕ} {P Q : Prop}

@[simp]
theorem touch_mem (acc : Access) : (s.touch acc).mem = s.mem := rfl

@[simp]
theorem touch_cp (acc : Access) : (s.touch acc).cp = s.cp := rfl

@[simp]
theorem touch_cnt (acc : Access) : (s.touch acc).cnt = s.cnt := rfl

@[simp]
theorem touch_byte (acc : Access) (i : ℕ) : (s.touch acc).byte i = s.byte i := rfl

theorem Turn.Spec.after {acc : Access} (h : t.Spec hlen s₁ P) (hlog : s₁.log = s.log ++ [acc])
    (hcp : s₁.cp = s.cp) (hcnt : s₁.cnt = s.cnt) (hQ : Q ↔ acc.Inside hlen ∧ P) : t.Spec hlen s Q := by
  obtain ⟨accs, h1, h2⟩ := h.log
  refine ⟨⟨acc :: accs, by rw [h1, hlog, List.append_assoc]; rfl, ?_⟩, fun s' hs' => ?_⟩
  · rw [List.forall_mem_cons, h2, hQ]
  · rw [← hcp, ← hcnt]
    exact h.next s' hs'

theorem touch_spec {acc : Access} (h : t.Spec hlen (s.touch acc) P) (hQ : Q ↔ acc.Inside hlen ∧ P) :
    t.Spec hlen s Q := h.after rfl rfl rfl hQ

theorem Turn.Spec.iff (h : t.Spec hlen s P) (hQ : Q ↔ P) : t.Spec hlen s Q :=
  ⟨by obtain ⟨accs, h1, h2⟩ := h.log; exact ⟨accs, h1, h2.trans hQ.symm⟩, h.next⟩

theorem bad_spec (err : IcmpErr) : (Turn.bad err s).Spec hlen s True :=
  ⟨⟨[], by simp [Turn.state], by simp⟩, nofun⟩

theorem done_spec : (Turn.done s).Spec hlen s True := ⟨⟨[], by simp [Turn.state], by simp⟩, nofun⟩

theorem skip_spec (h0 : 0 < optlen) (h1 : optlen ≤ s.cnt) : (s.skip optlen).Spec hlen s True := by
  refine ⟨⟨[], by simp [OptState.skip, Turn.state], by simp⟩, ?_⟩
  rintro _ ⟨⟩
  simp only
  omega

variable {x : InAddr}

@[simp]
theorem setWord_of_lt {mem : ℕ → BitVec 8} {i j : ℕ} (h : j < i) : setWord mem i x j = mem j :=
  dif_neg fun h1 => by omega

theorem usub_le {n m : ℕ} (h : m ≤ n) (hn : n < 2 ^ 32) : usub n m = n - m := by
  unfold usub
  omega

theorem usub_gt {n m : ℕ} (h : n < m) (hm : m ≤ 4) : 255 < usub n m := by
  unfold usub
  omega

theorem byte_lt (s : OptState) (i : ℕ) : s.byte i < 256 := (s.mem (s.cp + i)).isLt

theorem bump_byte {n : ℕ} (h : s.byte 2 + n < 256) : (s.bump 2 n).byte 2 = s.byte 2 + n := by
  unfold OptState.byte OptState.bump at *
  simp only [OptState.touch, update_self, BitVec.toNat_add, BitVec.toNat_ofNat]
  omega

variable {i : ℕ}

theorem store_byte (h : 2 < i) : (s.store i optlen x).byte 2 = s.byte 2 := by
  unfold OptState.byte OptState.store
  simp only [OptState.touch]
  rw [setWord_of_lt (by omega)]

theorem store_bump_spec (hP : P ↔ (Access.item (s.cp + i) 4 s.cp optlen).Inside hlen ∧
    (Access.field (s.cp + 2)).Inside hlen ∧ Q) (h : t.Spec hlen ((s.store i optlen x).bump 2 addrSize) Q) :
    t.Spec hlen s P :=
  (h.after (s := s.store i optlen x) rfl rfl rfl Iff.rfl).after rfl rfl rfl hP

theorem field_inside (hcp : 20 ≤ s.cp) (hlast : s.cp + s.cnt = hlen) :
    (Access.field (s.cp + i)).Inside hlen ↔ i + 1 ≤ s.cnt := by
  unfold Access.Inside
  omega

theorem item_inside (hcp : 20 ≤ s.cp) (hlast : s.cp + s.cnt = hlen) (h1 : optlen ≤ s.cnt)
    (h2 : i + 4 ≤ optlen) : (Access.item (s.cp + i) 4 s.cp optlen).Inside hlen := by
  unfold Access.Inside
  omega

theorem item_outside (h : optlen < i + 4) : ¬(Access.item (s.cp + i) 4 s.cp optlen).Inside hlen := by
  unfold Access.Inside
  omega

theorem store_bump_skip_spec (hcp : 20 ≤ s.cp) (hlast : s.cp + s.cnt = hlen)
    (h0 : 0 < optlen) (h1 : optlen ≤ s.cnt) : (((s.store i optlen x).bump 2 addrSize).skip optlen).Spec hlen s
      ((Access.item (s.cp + i) 4 s.cp optlen).Inside hlen ∧ 3 ≤ s.cnt) := by
  refine store_bump_spec (Q := True) ?_ (skip_spec h0 h1)
  rw [field_inside hcp hlast, and_true]

/-- The case of the source routes, with the values that are tested. -/
theorem sourceRoute_eq (strict : Bool) : s.sourceRoute a strict optlen =
    let s₁ := s.touch (.field (s.cp + 2))
    let next := word s.mem (s.cp + (s.byte 2 - 1))
    let s₂ := s₁.touch (.item (s.cp + (s.byte 2 - 1)) 4 s.cp optlen)
    if s.byte 2 < 4 then .bad (.ICMP_PARAMPROB (s.cp + 2)) s₁
    else if a.ours s.cp (word s.mem ipDst) = false then
      if strict then .bad .ICMP_UNREACH_SRCFAIL s₁ else s₁.skip optlen
    else if usub optlen 4 < s.byte 2 - 1 then (s₁.saveRte optlen (word s.mem 12)).skip optlen
    else match a.rtaddr s.cp next with
      | none => .bad .ICMP_UNREACH_SRCFAIL s₂
      | some ia =>
        if strict ∧ a.onNet s.cp next = false then .bad .ICMP_UNREACH_SRCFAIL s₂
        else ((({ s₂ with mem := setWord s.mem ipDst next } : OptState).store (s.byte 2 - 1) optlen ia).bump 2
          addrSize).skip optlen := rfl

/-- The source routes. -/
theorem sourceRoute_spec {strict : Bool} (hcp : 20 ≤ s.cp) (hlast : s.cp + s.cnt = hlen) (h0 : 0 < optlen)
    (h1 : optlen ≤ s.cnt) (hsmall : optlen < 256) : (s.sourceRoute a strict optlen).Spec hlen s
      (3 ≤ s.cnt ∧ (4 ≤ optlen ∨ s.byte 2 < 4 ∨ a.ours s.cp (word s.mem ipDst) = false)) := by
  have hbyte := byte_lt s 2
  have hfield := field_inside (i := 2) hcp hlast
  rw [sourceRoute_eq]
  simp only
  by_cases hmin : s.byte 2 < 4
  · rw [if_pos hmin]
    exact touch_spec (bad_spec _) (by rw [hfield]; simp [hmin])
  rw [if_neg hmin]
  by_cases hours : a.ours s.cp (word s.mem ipDst) = false
  · rw [if_pos hours]
    have hiff : (3 ≤ s.cnt ∧ (4 ≤ optlen ∨ s.byte 2 < 4 ∨ a.ours s.cp (word s.mem ipDst) = false)) ↔
        (Access.field (s.cp + 2)).Inside hlen ∧ True := by
      rw [hfield]
      simp [hours]
    cases strict
    · exact touch_spec (skip_spec h0 h1) hiff
    · exact touch_spec (bad_spec _) hiff
  rw [if_neg hours]
  by_cases hend : usub optlen 4 < s.byte 2 - 1
  · -- the end of the route; the difference has not wrapped around
    have h4 : 4 ≤ optlen := by
      by_contra h
      have := usub_gt (n := optlen) (m := 4) (by omega) (Nat.le_refl 4)
      omega
    rw [if_pos hend]
    refine ((skip_spec (s := (s.touch (.field (s.cp + 2))).saveRte optlen (word s.mem 12)) h0 h1).after
      (s := s.touch (.field (s.cp + 2))) (Q := True) rfl rfl rfl ?_).after rfl rfl rfl ?_
    · simp only [Access.Inside, touch_cp]
      exact iff_of_true trivial ⟨⟨hcp, by omega, Nat.le_refl _, Nat.le_refl _⟩, trivial⟩
    · rw [hfield]
      simp [h4]
  rw [if_neg hend]
  have hitem : (Access.item (s.cp + (s.byte 2 - 1)) 4 s.cp optlen).Inside hlen ↔ 4 ≤ optlen := by
    by_cases h4 : 4 ≤ optlen
    · have := usub_le h4 (by omega)
      exact iff_of_true (item_inside hcp hlast h1 (by omega)) h4
    · exact iff_of_false (item_outside (by omega)) h4
  have hiff : (3 ≤ s.cnt ∧ (4 ≤ optlen ∨ s.byte 2 < 4 ∨ a.ours s.cp (word s.mem ipDst) = false)) ↔
      (Access.field (s.cp + 2)).Inside hlen ∧ 4 ≤ optlen := by
    rw [hfield]
    simp [hmin, hours]
  have hbad : ∀ err, (Turn.bad err ((s.touch (.field (s.cp + 2))).touch
      (.item (s.cp + (s.byte 2 - 1)) 4 s.cp optlen))).Spec hlen s
        (3 ≤ s.cnt ∧ (4 ≤ optlen ∨ s.byte 2 < 4 ∨ a.ours s.cp (word s.mem ipDst) = false)) := fun err =>
    touch_spec (touch_spec (bad_spec err) (by rw [hitem, and_true])) hiff
  cases a.rtaddr s.cp (word s.mem (s.cp + (s.byte 2 - 1))) with
  | none => exact hbad _
  | some ia =>
    simp only
    split_ifs with hnet
    · exact hbad _
    · obtain ⟨s₃, hs₃⟩ : ∃ s₃ : OptState, s₃ = { (s.touch (.field (s.cp + 2))).touch
          (.item (s.cp + (s.byte 2 - 1)) 4 s.cp optlen) with
        mem := setWord s.mem ipDst (word s.mem (s.cp + (s.byte 2 - 1))) } := ⟨_, rfl⟩
      have hcp₃ : s₃.cp = s.cp := by rw [hs₃]; rfl
      have hcnt₃ : s₃.cnt = s.cnt := by rw [hs₃]; rfl
      have hlog₃ : s₃.log = (s.touch (.field (s.cp + 2))).log ++ [.item (s.cp + (s.byte 2 - 1)) 4 s.cp optlen] := by
        rw [hs₃]
        rfl
      have hlast₃ : s₃.cp + s₃.cnt = hlen := by rw [hcp₃, hcnt₃, hlast]
      have hstore := store_bump_skip_spec (i := s.byte 2 - 1) (x := ia) (hcp₃ ▸ hcp) hlast₃ h0 (hcnt₃ ▸ h1)
      rw [← hs₃]
      refine touch_spec (hstore.after hlog₃ hcp₃ hcnt₃ Iff.rfl) ?_
      rw [hiff, hcp₃, hcnt₃, hitem, hfield]
      exact ⟨fun h => ⟨h.1, h.2, h.2, h.1⟩, fun h => ⟨h.1, h.2.1⟩⟩

theorem recordRoute_eq : s.recordRoute a optlen = let s₁ := s.touch (.field (s.cp + 2))
    if s.byte 2 < 4 then .bad (.ICMP_PARAMPROB (s.cp + 2)) s₁
    else if usub optlen 4 < s.byte 2 - 1 then s₁.skip optlen
    else match a.rtaddr s.cp (word s.mem ipDst) with
      | none => .bad .ICMP_UNREACH_HOST s₁
      | some ia => ((s₁.store (s.byte 2 - 1) optlen ia).bump 2 addrSize).skip optlen := rfl

/-- The recorded route. -/
theorem recordRoute_spec (hcp : 20 ≤ s.cp) (hlast : s.cp + s.cnt = hlen) (h0 : 0 < optlen)
    (h1 : optlen ≤ s.cnt) (hsmall : optlen < 256) : (s.recordRoute a optlen).Spec hlen s
      (3 ≤ s.cnt ∧ (4 ≤ optlen ∨ s.byte 2 < 4 ∨ a.rtaddr s.cp (word s.mem ipDst) = none)) := by
  have hbyte := byte_lt s 2
  have hfield := field_inside (i := 2) hcp hlast
  rw [recordRoute_eq]
  simp only
  by_cases hmin : s.byte 2 < 4
  · rw [if_pos hmin]
    exact touch_spec (bad_spec _) (by rw [hfield]; simp [hmin])
  rw [if_neg hmin]
  by_cases hend : usub optlen 4 < s.byte 2 - 1
  · -- no space remains; the difference has not wrapped around
    have h4 : 4 ≤ optlen := by
      by_contra h
      have := usub_gt (n := optlen) (m := 4) (by omega) (Nat.le_refl 4)
      omega
    rw [if_pos hend]
    exact touch_spec (skip_spec h0 h1) (by rw [hfield]; simp [h4])
  rw [if_neg hend]
  have hitem : (Access.item (s.cp + (s.byte 2 - 1)) 4 s.cp optlen).Inside hlen ↔ 4 ≤ optlen := by
    by_cases h4 : 4 ≤ optlen
    · have := usub_le h4 (by omega)
      exact iff_of_true (item_inside hcp hlast h1 (by omega)) h4
    · exact iff_of_false (item_outside (by omega)) h4
  cases hrt : a.rtaddr s.cp (word s.mem ipDst) with
  | none => exact touch_spec (bad_spec _) (by rw [hfield]; simp)
  | some ia =>
    have hstore := store_bump_skip_spec (s := s.touch (.field (s.cp + 2))) (i := s.byte 2 - 1) (x := ia) hcp
      hlast h0 h1
    refine touch_spec hstore ?_
    rw [touch_cp, touch_cnt, hitem, hfield]
    simp only [hmin, reduceCtorEq, or_false]
    exact ⟨fun h => ⟨h.1, h.2, h.1⟩, fun h => ⟨h.1, h.2.1⟩⟩

theorem Turn.Spec.fine {acc : Access} (h : t.Spec hlen s₁ True) (hlog : s₁.log = s.log ++ [acc])
    (hcp : s₁.cp = s.cp) (hcnt : s₁.cnt = s.cnt) (hin : acc.Inside hlen) : t.Spec hlen s True :=
  h.after hlog hcp hcnt (iff_of_true trivial ⟨hin, trivial⟩)

theorem stamp_spec (hcp : 20 ≤ s.cp) (hlast : s.cp + s.cnt = hlen) (h1 : optlen ≤ s.cnt)
    (h2 : s.byte 2 - 1 + 4 ≤ optlen) (h5 : 5 ≤ optlen) : (s.stamp a optlen).Spec hlen s True := by
  refine (store_bump_skip_spec hcp hlast (by omega) h1).iff ?_
  exact iff_of_true trivial ⟨item_inside hcp hlast h1 h2, by omega⟩

/-- The case of the time stamps, with the values that are tested. -/
theorem timestamp_eq : s.timestamp a optlen = let s₁ := s.touch (.field (s.cp + 1))
    let s₂ := s₁.touch (.field (s.cp + 2))
    let s₃ := s₂.touch (.field (s.cp + 3))
    let bad := fun s' : OptState => Turn.bad (.ICMP_PARAMPROB s.cp) s'
    if s.byte 1 < 5 then bad s₁
    else if s.byte 2 < 5 then bad s₂
    else if usub (s.byte 1) 4 < s.byte 2 - 1 then
      if (s₂.bump 3 16).mem (s.cp + 3) >>> 4 = 0 then bad (s₂.bump 3 16) else (s₂.bump 3 16).skip optlen
    else if s.mem (s.cp + 3) &&& 15 = 0 then s₃.stamp a optlen
    else if s.mem (s.cp + 3) &&& 15 = 1 then
      if s.byte 2 - 1 + 4 + 4 > s.byte 1 then bad s₃
      else ((s₃.store (s.byte 2 - 1) optlen (a.ifAddr s.cp)).bump 2 addrSize).stamp a optlen
    else if s.mem (s.cp + 3) &&& 15 = 2 then
      if s.byte 2 - 1 + 4 + 4 > s.byte 1 then bad s₃
      else
        let s₄ := s₃.touch (.item (s.cp + (s.byte 2 - 1)) 4 s.cp optlen)
        if a.ours s.cp (word s.mem (s.cp + (s.byte 2 - 1))) = false then s₄.skip optlen
        else (s₄.bump 2 addrSize).stamp a optlen
    else bad s₃ := rfl

/-- The time stamps stay inside, when there is a length. -/
theorem timestamp_spec (hcp : 20 ≤ s.cp) (hlast : s.cp + s.cnt = hlen) (hlen1 : s.byte 1 = optlen)
    (h0 : 0 < optlen) (h1 : optlen ≤ s.cnt) : (s.timestamp a optlen).Spec hlen s (2 ≤ s.cnt) := by
  have hsmall : optlen < 256 := hlen1 ▸ byte_lt s 1
  have hfield : ∀ i, i + 1 ≤ s.cnt → (Access.field (s.cp + i)).Inside hlen := fun i =>
    (field_inside hcp hlast).2
  rw [timestamp_eq]
  simp only [hlen1]
  by_cases h5 : optlen < 5
  · rw [if_pos h5]
    exact touch_spec (bad_spec _) (by rw [field_inside hcp hlast, and_true])
  rw [if_neg h5]
  refine Turn.Spec.iff (P := True) ?_ (iff_of_true (by omega) trivial)
  have hs₂ : ∀ t : Turn, t.Spec hlen ((s.touch (.field (s.cp + 1))).touch (.field (s.cp + 2))) True →
      t.Spec hlen s True := fun t ht =>
    (ht.fine (s := s.touch (.field (s.cp + 1))) rfl rfl rfl (hfield 2 (by omega))).fine rfl rfl rfl
      (hfield 1 (by omega))
  by_cases hptr : s.byte 2 < 5
  · rw [if_pos hptr]
    exact hs₂ _ (bad_spec _)
  rw [if_neg hptr]
  have husub := usub_le (n := optlen) (m := 4) (by omega) (by omega)
  by_cases hfull : usub optlen 4 < s.byte 2 - 1
  · -- only the overflow counter changes
    rw [if_pos hfull]
    split_ifs
    · exact hs₂ _ ((bad_spec _).fine rfl rfl rfl (hfield 3 (by omega)))
    · exact hs₂ _ ((skip_spec h0 (by exact h1)).fine rfl rfl rfl (hfield 3 (by omega)))
  rw [if_neg hfull]
  have hroom : s.byte 2 - 1 + 4 ≤ optlen := by omega
  obtain ⟨s₃, hs₃⟩ : ∃ s₃, s₃ = ((s.touch (.field (s.cp + 1))).touch (.field (s.cp + 2))).touch
    (.field (s.cp + 3)) := ⟨_, rfl⟩
  have hcp₃ : s₃.cp = s.cp := by rw [hs₃]; rfl
  have hcnt₃ : s₃.cnt = s.cnt := by rw [hs₃]; rfl
  have hbyte₃ : s₃.byte 2 = s.byte 2 := by rw [hs₃]; rfl
  have hlast₃ : s₃.cp + s₃.cnt = hlen := by rw [hcp₃, hcnt₃, hlast]
  have hdone : ∀ t : Turn, t.Spec hlen s₃ True → t.Spec hlen s True := fun t ht =>
    hs₂ t (ht.fine (by rw [hs₃]; rfl) hcp₃ hcnt₃ (hfield 3 (by omega)))
  have hitem : (Access.item (s.cp + (s.byte 2 - 1)) 4 s.cp optlen).Inside hlen :=
    item_inside hcp hlast h1 hroom
  rw [← hs₃]
  split_ifs with htsonly haddr hbig hspec hbig hours
  · exact hdone _ (stamp_spec (hcp₃ ▸ hcp) hlast₃ (hcnt₃ ▸ h1) (by rw [hbyte₃]; exact hroom) (by omega))
  · exact hdone _ (bad_spec _)
  · -- an address and the time behind it
    have hstored : (s₃.store (s.byte 2 - 1) optlen (a.ifAddr s.cp)).byte 2 = s.byte 2 := by
      rw [store_byte (by omega), hbyte₃]
    have hbumped := bump_byte (s := s₃.store (s.byte 2 - 1) optlen (a.ifAddr s.cp)) (n := addrSize)
      (by rw [hstored, addrSize]; omega)
    refine hdone _ (store_bump_spec (Q := True) (iff_of_true trivial ⟨by rw [hcp₃]; exact hitem, ?_, trivial⟩)
      (stamp_spec (hcp₃ ▸ hcp) hlast₃ (hcnt₃ ▸ h1) ?_ (by omega)))
    · rw [hcp₃]
      exact hfield 2 (by omega)
    · rw [hbumped, hstored, addrSize]
      omega
  · exact hdone _ (bad_spec _)
  · exact hdone _ ((skip_spec h0 (by exact hcnt₃ ▸ h1)).fine rfl rfl rfl hitem)
  · obtain ⟨s₄, hs₄⟩ : ∃ s₄, s₄ = s₃.touch (.item (s.cp + (s.byte 2 - 1)) 4 s.cp optlen) := ⟨_, rfl⟩
    have hcp₄ : s₄.cp = s.cp := by rw [hs₄, touch_cp, hcp₃]
    have hcnt₄ : s₄.cnt = s.cnt := by rw [hs₄, touch_cnt, hcnt₃]
    have hbyte₄ : s₄.byte 2 = s.byte 2 := by rw [hs₄, touch_byte, hbyte₃]
    have hbumped := bump_byte (s := s₄) (n := addrSize) (by rw [hbyte₄, addrSize]; omega)
    rw [← hs₄]
    have hstamp : ((s₄.bump 2 addrSize).stamp a optlen).Spec hlen (s₄.bump 2 addrSize) True := by
      refine stamp_spec (hcp₄ ▸ hcp) (by rw [← hlast, ← hcp₄, ← hcnt₄]; rfl) (hcnt₄ ▸ h1) ?_ (by omega)
      rw [hbumped, hbyte₄, addrSize]
      omega
    refine hdone _ ((hstamp.fine (s := s₄) rfl rfl rfl ?_).fine (by rw [hs₄]; rfl) (by rw [hs₄]; rfl)
      (by rw [hs₄]; rfl) hitem)
    rw [hcp₄]
    exact hfield 2 (by omega)
  · exact hdone _ (bad_spec _)

/-- The loop's body, with the values that are tested. -/
theorem optStep_eq : optStep a s = let s₁ := s.touch (.field s.cp)
    let s₂ := s₁.touch (.field (s.cp + 1))
    if s.cnt = 0 then .done s
    else if s.mem s.cp = IPOPT_EOL then .done s₁
    else if s.mem s.cp = IPOPT_NOP then s₁.skip 1
    else if s.byte 1 = 0 ∨ s.byte 1 > s.cnt then .bad (.ICMP_PARAMPROB (s.cp + 1)) s₂
    else if s.mem s.cp = IPOPT_LSRR then s₂.sourceRoute a false (s.byte 1)
    else if s.mem s.cp = IPOPT_SSRR then s₂.sourceRoute a true (s.byte 1)
    else if s.mem s.cp = IPOPT_RR then s₂.recordRoute a (s.byte 1)
    else if s.mem s.cp = IPOPT_TS then s₂.timestamp a (s.byte 1)
    else s₂.skip (s.byte 1) := rfl

/-- One turn, at an option. -/
theorem optStep_spec (hcp : 20 ≤ s.cp) (hlast : s.cp + s.cnt = hlen) (hcnt : 0 < s.cnt) :
    (optStep a s).Spec hlen s (OptOk a s) := by
  have hfirst : (Access.field s.cp).Inside hlen := by
    unfold Access.Inside
    omega
  have hsecond := field_inside (i := 1) hcp hlast
  have hsmall := byte_lt s 1
  rw [optStep_eq]
  have hne : s.cnt ≠ 0 := by omega
  unfold OptOk
  simp only [hne, if_false]
  by_cases heol : s.mem s.cp = IPOPT_EOL
  · rw [if_pos heol]
    exact touch_spec done_spec (iff_of_true (.inl heol) ⟨hfirst, trivial⟩)
  rw [if_neg heol]
  by_cases hnop : s.mem s.cp = IPOPT_NOP
  · rw [if_pos hnop]
    exact touch_spec (skip_spec (by omega) (by exact hcnt)) (iff_of_true (.inr (.inl hnop)) ⟨hfirst, trivial⟩)
  rw [if_neg hnop]
  simp only [heol, hnop, false_or]
  have hboth : ∀ (t : Turn) P Q, t.Spec hlen ((s.touch (.field s.cp)).touch (.field (s.cp + 1))) P →
      (2 ≤ s.cnt → (Q ↔ P)) → t.Spec hlen s (2 ≤ s.cnt ∧ Q) := by
    intro t P Q h hQ
    refine touch_spec (touch_spec h Iff.rfl) ?_
    rw [hsecond, and_iff_right hfirst]
    exact and_congr_right hQ
  by_cases hbad : s.byte 1 = 0 ∨ s.byte 1 > s.cnt
  · rw [if_pos hbad]
    exact hboth _ _ _ (bad_spec _) fun _ => iff_of_true (fun h0 h1 => by omega) trivial
  rw [if_neg hbad]
  have h0 : 0 < s.byte 1 := by omega
  have h1 : s.byte 1 ≤ s.cnt := by omega
  by_cases hlsrr : s.mem s.cp = IPOPT_LSRR
  · rw [if_pos hlsrr]
    refine hboth _ _ _ (sourceRoute_spec hcp hlast h0 h1 hsmall) fun _ => ?_
    simp [hlsrr, h0, h1, IPOPT_LSRR, IPOPT_RR]
  rw [if_neg hlsrr]
  by_cases hssrr : s.mem s.cp = IPOPT_SSRR
  · rw [if_pos hssrr]
    refine hboth _ _ _ (sourceRoute_spec hcp hlast h0 h1 hsmall) fun _ => ?_
    simp [hssrr, h0, h1, IPOPT_SSRR, IPOPT_RR]
  rw [if_neg hssrr]
  by_cases hrr : s.mem s.cp = IPOPT_RR
  · rw [if_pos hrr]
    refine hboth _ _ _ (recordRoute_spec hcp hlast h0 h1 hsmall) fun _ => ?_
    simp [hrr, h0, h1, IPOPT_LSRR, IPOPT_SSRR, IPOPT_RR]
  rw [if_neg hrr]
  by_cases hts : s.mem s.cp = IPOPT_TS
  · rw [if_pos hts]
    refine hboth _ _ _ (timestamp_spec hcp hlast rfl h0 h1) fun h2 => ?_
    simp [hts, h2, IPOPT_LSRR, IPOPT_SSRR, IPOPT_RR, IPOPT_TS]
  · rw [if_neg hts]
    refine hboth _ _ _ (skip_spec h0 (by exact h1)) fun _ => ?_
    simp [hlsrr, hssrr, hrr]

/-! ### The whole header -/

theorem comes_last {s' : OptState} (ht : ∀ s₁, optStep a s ≠ .next s₁) (h : Comes a s s') : s' = s := by
  rcases Relation.ReflTransGen.cases_head h with h1 | ⟨s₁, h1, -⟩
  · exact h1.symm
  · exact absurd h1 (ht s₁)

/-- All turns: they come to an end, and stay inside exactly when each has what it needs. -/
theorem run_spec {n : ℕ} (hcp : 20 ≤ s.cp) (hlast : s.cp + s.cnt = hlen) (hn : s.cnt < n) :
    ∃ t accs, run a n s = some t ∧ t.state.log = s.log ++ accs ∧
      ((∀ acc ∈ accs, acc.Inside hlen) ↔ ∀ s', Comes a s s' → 0 < s'.cnt → OptOk a s') := by
  induction n generalizing s with
  | zero => omega
  | succ n ih =>
    by_cases hcnt : s.cnt = 0
    · have hstep : optStep a s = .done s := by
        rw [optStep_eq]
        exact if_pos hcnt
      refine ⟨.done s, [], by rw [run, hstep], by simp [Turn.state], iff_of_true (by simp) fun s' h h0 => ?_⟩
      rw [comes_last (fun s₁ h1 => by rw [hstep] at h1; cases h1) h] at h0
      omega
    obtain ⟨⟨accs, h1, h2⟩, h3⟩ := optStep_spec (a := a) hcp hlast (by omega)
    have hstop : (∀ s₁, optStep a s ≠ .next s₁) → (OptOk a s ↔
        ∀ s', Comes a s s' → 0 < s'.cnt → OptOk a s') := by
      intro ht
      constructor
      · intro h s' hs' _
        rwa [comes_last ht hs']
      · intro h
        exact h s .refl (by omega)
    cases hstep : optStep a s with
    | done s₁ =>
      rw [hstep] at h1
      exact ⟨.done s₁, accs, by rw [run, hstep], h1, h2.trans (hstop (by rw [hstep]; nofun))⟩
    | bad err s₁ =>
      rw [hstep] at h1
      exact ⟨.bad err s₁, accs, by rw [run, hstep], h1, h2.trans (hstop (by rw [hstep]; nofun))⟩
    | next s₁ =>
      obtain ⟨h4, h5, h6⟩ := h3 s₁ hstep
      obtain ⟨t, accs', h7, h8, h9⟩ := ih (s := s₁) (by omega) (by omega) (by omega)
      rw [hstep] at h1
      refine ⟨t, accs ++ accs', by rw [run, hstep]; exact h7, ?_, ?_⟩
      · rw [h8, ← List.append_assoc, ← h1]
        rfl
      · rw [List.forall_mem_append, h2, h9]
        constructor
        · rintro ⟨h10, h11⟩ s' hs' h0
          rcases Relation.ReflTransGen.cases_head hs' with rfl | ⟨s₂, h12, h13⟩
          · exact h10
          · rw [hstep] at h12
            cases h12
            exact h11 s' h13 h0
        · intro h
          exact ⟨h s .refl (by omega), fun s' hs' => h s' (.head hstep hs')⟩

/-- `ip_dooptions` comes to an end; and it touches only bytes of the option area, and addresses and times only
within their option, exactly when each option that it comes to has what it needs. -/
theorem ipDooptions_inside_iff (a : Answers) (mem : ℕ → BitVec 8) (hl : ℕ) (hhl : 5 ≤ hl) :
    ∃ t, ipDooptions a mem hl = some t ∧ ((∀ acc ∈ t.state.log, acc.Inside (4 * hl)) ↔
      ∀ s, Comes a (start mem hl) s → 0 < s.cnt → OptOk a s) := by
  have hlast : (start mem hl).cp + (start mem hl).cnt = 4 * hl := by
    simp only [start]
    omega
  obtain ⟨t, accs, h1, h2, h3⟩ := run_spec (a := a) (n := 4 * hl - 19) (Nat.le_refl 20) hlast
    (by simp only [start]; omega)
  refine ⟨t, h1, ?_⟩
  rw [h2]
  exact h3

/-- A header of 24 bytes with the given options, in front of zeros. -/
def header (opts : List (BitVec 8)) : ℕ → BitVec 8 := fun i => if i < 20 then 0 else opts.getD (i - 20) 0

/-- Every address is on a net of ours and has a route. -/
def reachable : Answers where
  ours _ _ := true
  onNet _ _ := true
  rtaddr _ _ := some fun _ => 10
  ifAddr _ := fun _ => 10
  iptime _ := fun _ => 0

/-- A header that ends with a time stamp option with room for one time. -/
theorem ipDooptions_timestamp : ∃ t, ipDooptions reachable (header [68, 8, 5, 0, 0, 0, 0, 0]) 7 = some t ∧
    ((∀ acc ∈ t.state.log, acc.Inside (4 * 7)) ↔
      ∀ s, Comes reachable (start (header [68, 8, 5, 0, 0, 0, 0, 0]) 7) s → 0 < s.cnt → OptOk reachable s) :=
  ipDooptions_inside_iff reachable (header [68, 8, 5, 0, 0, 0, 0, 0]) 7 (by decide)

instance (hlen : ℕ) : (acc : Access) → Decidable (acc.Inside hlen)
  | .field i => inferInstanceAs (Decidable (20 ≤ i ∧ i < hlen))
  | .item i n cp optlen => inferInstanceAs (Decidable (20 ≤ i ∧ i + n ≤ hlen ∧ cp ≤ i ∧ i + n ≤ cp + optlen))

/-- A recorded route option of three bytes, whose pointer is 255; and one that is the last byte of the
header. -/
theorem ipDooptions_outside :
    (∃ t, ipDooptions reachable (header [7, 3, 255, 0]) 6 = some t ∧
      .item 274 4 20 3 ∈ t.state.log ∧ ¬∀ acc ∈ t.state.log, acc.Inside 24) ∧
    ∃ t, ipDooptions reachable (header [1, 1, 1, 7]) 6 = some t ∧
      .field 24 ∈ t.state.log ∧ ¬∀ acc ∈ t.state.log, acc.Inside 24 := by
  refine ⟨⟨_, rfl, ?_, ?_⟩, ⟨_, rfl, ?_, ?_⟩⟩ <;> decide

end IpOpt

end Hpux
