import Hpux910.Net.UnpConn
import Mathlib

/-!
# The lists of connected datagram sockets

A socket is tested for being unconnected before `unp_connect` looks up the name, and put on the
list of its peer after that.  If nobody has connected it meanwhile, all lists stay right; if somebody
has, they do not.

* `Unp.Lists` : the lists of the control blocks.
* `Lists.disconnect`, `Lists.dropRefs`, `Lists.connect2` : what the routines do to them.
* `connect2_wrong` : a second insertion.
* `refs_lists_kept` : the lists in every run whose insertions are of unconnected sockets.
-/

namespace Hpux.Net

open Function List

namespace Unp

variable {U N P : Type} [DecidableEq U] {s s' : Unp U N P} {chain : U → List U} {u u2 v : U}

/-- `chain p` is the list of `p`; it holds the control blocks that point to `p`. -/
structure Lists (s : Unp U N P) (chain : U → List U) : Prop where
  head : ∀ p, s.refs p = (chain p).head?
  links : ∀ p, Links s.nextref (chain p)
  nodup : ∀ p, (chain p).Nodup
  mem : ∀ p u, u ∈ chain p ↔ s.conn u = some p
  live : ∀ u p, s.conn u = some p → s.live u = true ∧ s.live p = true

/-- The lists are right: all control blocks that point to one are on its list, once, and no others. -/
def ListsRight (s : Unp U N P) : Prop :=
  ∃ chain, s.Lists chain

/-- What the routines on the lists do not change. -/
structure Framed (s s' : Unp U N P) : Prop where
  live : s'.live = s.live
  vnode : s'.vnode = s.vnode
  vsocket : s'.vsocket = s.vsocket
  calls : s'.calls = s.calls

omit [DecidableEq U] in
theorem Lists.queue (h : s.Lists chain) (p : U) :
    IsQueue s.nextref (s.refs p) (chain p).getLast? (chain p) :=
  ⟨h.head p, rfl, h.links p, h.nodup p⟩

omit [DecidableEq U] in
theorem Lists.congr (h : s.Lists chain) (h1 : s'.refs = s.refs) (h2 : s'.nextref = s.nextref)
    (h3 : s'.conn = s.conn) (h4 : s'.live = s.live) : s'.Lists chain := by
  obtain ⟨a, b, c, d, e⟩ := h
  refine ⟨?_, ?_, c, ?_, ?_⟩
  · rwa [h1]
  · rwa [h2]
  · rwa [h3]
  · rwa [h3, h4]

/-! ### The routines -/

/-- The loop of `unp_disconnect` finds the control block in front. -/
theorem findRef_spec {A B : List U} {a : U} {fuel : ℕ} (h : Links s.nextref (A ++ a :: u :: B))
    (hn : (A ++ a :: u :: B).Nodup) (hf : A.length < fuel) :
    s.findRef u fuel (A ++ a :: u :: B).head? = .ok a := by
  induction A generalizing fuel with
  | nil =>
    obtain ⟨fuel, rfl⟩ := Nat.exists_eq_succ_of_ne_zero (Nat.ne_zero_of_lt hf)
    exact if_pos h.1
  | cons d A ih =>
    obtain ⟨fuel, rfl⟩ := Nat.exists_eq_succ_of_ne_zero (Nat.ne_zero_of_lt hf)
    have h1 : s.nextref d = (A ++ a :: u :: B).head? := h.1
    have h2 : Links s.nextref (A ++ a :: u :: B) := h.2
    have hn' : (A ++ a :: u :: B).Nodup := (nodup_cons.1 hn).2
    have h3 : (A ++ a :: u :: B).head? ≠ some u := by
      cases A with
      | nil =>
        rintro h4
        obtain rfl := Option.some.inj h4
        exact (nodup_cons.1 hn').1 mem_cons_self
      | cons b A =>
        rintro h4
        obtain rfl := Option.some.inj h4
        exact (nodup_cons.1 hn').1 (by simp)
    have h4 := ih h2 hn' (Nat.lt_of_succ_lt_succ hf)
    rw [← h1] at h3 h4
    exact (if_neg h3).trans h4

/-- The pointers when `u` is taken off the list of `u2`, behind the control blocks `A`. -/
def takeOff (s : Unp U N P) (u u2 : U) (A : List U) : Unp U N P :=
  { s with
    conn := update s.conn u none
    isconnected := update s.isconnected u false
    refs := A.getLast?.elim (update s.refs u2 (s.nextref u)) fun _ => s.refs
    nextref := update (A.getLast?.elim s.nextref fun r => update s.nextref r (s.nextref u)) u none }

theorem Lists.takeOff {A B : List U} (h : s.Lists chain) (hc : chain u2 = A ++ u :: B) :
    (s.takeOff u u2 A).Lists (update chain u2 (A ++ B)) := by
  have hconn : s.conn u = some u2 := (h.mem u2 u).1 (hc ▸ by simp)
  have hq := h.queue u2
  rw [hc] at hq
  have hnd := hq.nodup
  have hu : u ∉ A ++ B := (nodup_cons.1 (nodup_middle.1 hnd)).1
  have hq' := hq.unlink
  have hother : ∀ p, p ≠ u2 → ∀ c ∈ chain p, (s.takeOff u u2 A).nextref c = s.nextref c := by
    intro p hp c hcp
    have h1 := (h.mem p c).1 hcp
    have h2 : c ≠ u := by
      rintro rfl
      exact hp (Option.some.inj (h1.symm.trans hconn))
    refine (update_of_ne h2 _ _).trans ?_
    cases hl : A.getLast? with
    | none => rfl
    | some r =>
      refine update_of_ne ?_ _ _
      rintro rfl
      have h3 : c ∈ chain u2 := by
        rw [hc]
        exact mem_append_left _ (mem_of_getLast? hl)
      exact hp (Option.some.inj (h1.symm.trans ((h.mem u2 c).1 h3)))
  refine ⟨fun p => ?_, fun p => ?_, fun p => ?_, fun p c => ?_, fun c p hcp => ?_⟩
  · by_cases hp : p = u2
    · subst hp
      rw [update_self, ← hq'.head_eq]
      unfold Unp.takeOff
      dsimp only
      cases A.getLast? with
      | none => exact update_self ..
      | some r => rfl
    · rw [update_of_ne hp, ← h.head p]
      unfold Unp.takeOff
      dsimp only
      cases A.getLast? with
      | none => exact update_of_ne hp _ _
      | some r => rfl
  · by_cases hp : p = u2
    · subst hp
      rw [update_self]
      refine hq'.links.congr fun c hcAB => update_of_ne ?_ _ _
      rintro rfl
      exact hu hcAB
    · rw [update_of_ne hp]
      exact (h.links p).congr (hother p hp)
  · by_cases hp : p = u2
    · subst hp
      rw [update_self]
      exact hq'.nodup
    · rw [update_of_ne hp]
      exact h.nodup p
  · have h1 := h.mem p c
    unfold Unp.takeOff
    dsimp only
    by_cases hcu : c = u
    · subst hcu
      rw [update_self]
      refine iff_of_false ?_ nofun
      by_cases hp : p = u2
      · subst hp
        rwa [update_self]
      · rw [update_of_ne hp, h1, hconn]
        exact fun h2 => hp (Option.some.inj h2).symm
    · rw [update_of_ne hcu, ← h1]
      by_cases hp : p = u2
      · subst hp
        rw [update_self, hc]
        simp [hcu]
      · rw [update_of_ne hp]
  · refine h.live c p ?_
    by_cases hcu : c = u
    · subst hcu
      cases (update_self ..).symm.trans hcp
    · exact (update_of_ne hcu _ _).symm.trans hcp

variable [Fintype U]

/-- `unp_disconnect` takes the control block off the list it is on. -/
theorem Lists.disconnect (h : s.Lists chain) :
    ∃ s' chain', s.disconnect u = .ok s' ∧ s'.Lists chain' ∧ s.Framed s' ∧
      s'.conn = update s.conn u none ∧ ∀ p, chain' p = (chain p).erase u := by
  cases hconn : s.conn u with
  | none =>
    refine ⟨s, chain, by simp only [Unp.disconnect, hconn], h, ⟨rfl, rfl, rfl, rfl⟩, ?_, fun p => ?_⟩
    · rw [← hconn, update_eq_self]
    · refine (erase_of_not_mem fun h1 => ?_).symm
      rw [h.mem, hconn] at h1
      cases h1
  | some u2 =>
    obtain ⟨A, B, hc⟩ := append_of_mem ((h.mem u2 u).2 hconn)
    have hq := h.queue u2
    rw [hc] at hq
    have huA : u ∉ A := fun h1 =>
      (nodup_append.1 hq.nodup).2.2 u h1 u mem_cons_self rfl
    refine ⟨s.takeOff u u2 A, update chain u2 (A ++ B), ?_, h.takeOff hc, ⟨rfl, rfl, rfl, rfl⟩, rfl,
      fun p => ?_⟩
    · simp only [Unp.disconnect, hconn]
      rcases eq_nil_or_concat A with rfl | ⟨A, a, rfl⟩
      · have h1 : s.refs u2 = some u := hq.head_eq
        rw [if_pos h1]
        rfl
      · rw [concat_eq_append, append_assoc, singleton_append] at hq
        have h1 : s.refs u2 ≠ some u := by
          intro h2
          rw [hq.head_eq] at h2
          have h3 : (A ++ [a]).head? = some u := by
            rw [← h2]
            cases A <;> rfl
          rw [concat_eq_append] at huA
          exact huA (mem_of_head? h3)
        rw [if_neg h1]
        have h2 : A.length < Fintype.card U + 1 :=
          Nat.lt_succ_of_le (nodup_append.1 hq.nodup).1.length_le_card
        have h3 := findRef_spec (s := { s with
          conn := update s.conn u none
          isconnected := update s.isconnected u false }) hq.links hq.nodup h2
        rw [← hq.head_eq] at h3
        rw [h3, Unp.takeOff, concat_eq_append, getLast?_concat]
        rfl
    · by_cases hp : p = u2
      · subst hp
        rw [update_self, hc, erase_append_right _ huA, erase_cons_head]
      · rw [update_of_ne hp]
        refine (erase_of_not_mem fun h1 => hp ?_).symm
        rw [h.mem, hconn] at h1
        exact (Option.some.inj h1).symm

/-- The loop of `unp_detach` takes every control block off the list. -/
theorem Lists.dropRefs {fuel : ℕ} (h : s.Lists chain) (hf : (chain u).length < fuel) :
    ∃ s' chain', dropRefs u fuel s = .ok s' ∧ s'.Lists chain' ∧ s.Framed s' ∧ chain' u = [] ∧
      ∀ c, s'.conn c = none ∨ s'.conn c = s.conn c := by
  induction fuel generalizing s chain with
  | zero => omega
  | succ fuel ih =>
    have h0 := h.head u
    unfold Unp.dropRefs
    cases hc : chain u with
    | nil =>
      rw [hc] at h0
      rw [h0]
      exact ⟨s, chain, rfl, h, ⟨rfl, rfl, rfl, rfl⟩, hc, fun c => .inr rfl⟩
    | cons r l =>
      rw [hc] at h0 hf
      rw [h0]
      have h1 : Lists { s with reset := update s.reset r true } chain := h.congr rfl rfl rfl rfl
      obtain ⟨s1, chain1, h2, h3, h4, h5, h6⟩ := h1.disconnect (u := r)
      have h7 : chain1 u = l := by rw [h6, hc, erase_cons_head]
      obtain ⟨s2, chain2, h8, h9, h10, h11, h12⟩ := ih h3 (by rw [h7]; simpa using hf)
      refine ⟨s2, chain2, ?_, h9, ⟨?_, ?_, ?_, ?_⟩, h11, fun c => ?_⟩
      · show s.drop r >>= Unp.dropRefs u fuel = _
        unfold Unp.drop
        rw [h2]
        exact h8
      · exact h10.live.trans h4.live
      · exact h10.vnode.trans h4.vnode
      · exact h10.vsocket.trans h4.vsocket
      · exact h10.calls.trans h4.calls
      · rcases h12 c with h13 | h13
        · exact .inl h13
        · rw [h13, h5]
          by_cases hcr : c = r
          · subst hcr
            exact .inl (update_self ..)
          · exact .inr (update_of_ne hcr _ _)

omit [Fintype U] in
/-- An unconnected control block is put in front. -/
theorem Lists.connect2 (h : s.Lists chain) (hu : s.conn u = none) (hlu : s.live u = true)
    (hl2 : s.live u2 = true) : (s.connect2 u u2).Lists (update chain u2 (u :: chain u2)) := by
  have hnot : ∀ p, u ∉ chain p := fun p hp => by
    rw [h.mem, hu] at hp
    cases hp
  have hlinks : ∀ p, Links (update s.nextref u (s.refs u2)) (chain p) := by
    refine fun p => (h.links p).congr fun c hc => update_of_ne ?_ _ _
    rintro rfl
    exact hnot p hc
  refine ⟨fun p => ?_, fun p => ?_, fun p => ?_, fun p c => ?_, fun c p hcp => ?_⟩
  · by_cases hp : p = u2
    · subst hp
      rw [update_self]
      exact update_self ..
    · rw [update_of_ne hp]
      exact (update_of_ne hp _ _).trans (h.head p)
  · by_cases hp : p = u2
    · subst hp
      rw [update_self]
      exact ⟨(update_self ..).trans (h.head p), hlinks p⟩
    · rw [update_of_ne hp]
      exact hlinks p
  · by_cases hp : p = u2
    · subst hp
      rw [update_self]
      exact nodup_cons.2 ⟨hnot p, h.nodup p⟩
    · rw [update_of_ne hp]
      exact h.nodup p
  · have h1 := h.mem p c
    unfold Unp.connect2
    dsimp only
    by_cases hcu : c = u
    · subst hcu
      rw [update_self, Option.some.injEq]
      by_cases hp : p = u2
      · subst hp
        simp
      · rw [update_of_ne hp]
        exact iff_of_false (hnot p) fun h2 => hp h2.symm
    · rw [update_of_ne hcu, ← h1]
      by_cases hp : p = u2
      · subst hp
        rw [update_self]
        exact mem_cons.trans (or_iff_right hcu)
      · rw [update_of_ne hp]
  · by_cases hcu : c = u
    · subst hcu
      cases (update_self ..).symm.trans hcp
      exact ⟨hlu, hl2⟩
    · exact h.live c p ((update_of_ne hcu _ _).symm.trans hcp)

/-! ### Runs -/

variable [DecidableEq N] [DecidableEq P]

/-- The lists are right, and names and calls refer to control blocks that exist. -/
structure Inv (s : Unp U N P) : Prop where
  lists : s.ListsRight
  bound : ∀ n u, s.vsocket n = some u → s.live u = true ∧ s.vnode u = some n
  calls : ∀ p c, s.calls p = some c → s.live c.sock = true

/-- The socket that is connected is still unconnected when its name lookup has come back. -/
def Meets (s : Unp U N P) : UnpAct U N P → Prop
  | .found p n => ∀ c, s.calls p = some c → s.vsocket n ≠ none → s.conn c.sock = none
  | _ => True

omit [DecidableEq U] [Fintype U] [DecidableEq N] [DecidableEq P] in
theorem Inv.framed (h : s.Inv) (hl : s'.ListsRight) (hf : s.Framed s') : s'.Inv := by
  refine ⟨hl, ?_, ?_⟩
  · rw [hf.vsocket, hf.live, hf.vnode]
    exact h.bound
  · rw [hf.calls, hf.live]
    exact h.calls

omit [DecidableEq U] [Fintype U] [DecidableEq N] in
theorem Inv.ended (h : s.Inv) (p : P) : Inv { s with calls := update s.calls p none } := by
  obtain ⟨chain, hc⟩ := h.lists
  refine ⟨⟨chain, hc.congr rfl rfl rfl rfl⟩, h.bound, fun p' c hp => ?_⟩
  by_cases hpp : p' = p
  · subst hpp
    cases (update_self ..).symm.trans hp
  · exact h.calls p' c ((update_of_ne hpp _ _).symm.trans hp)

omit [DecidableEq U] [Fintype U] [DecidableEq N] in
theorem Inv.call (h : s.Inv) (p : P) {c : UnpCall U} (hc : s.live c.sock = true) :
    Inv { s with calls := update s.calls p (some c) } := by
  obtain ⟨chain, hl⟩ := h.lists
  refine ⟨⟨chain, hl.congr rfl rfl rfl rfl⟩, h.bound, fun p' c' hp => ?_⟩
  by_cases hpp : p' = p
  · subst hpp
    cases (update_self ..).symm.trans hp
    exact hc
  · exact h.calls p' c' ((update_of_ne hpp _ _).symm.trans hp)

omit [DecidableEq N] [DecidableEq P] in
theorem Inv.disconnect (h : s.Inv) (u : U) :
    ∃ s', s.disconnect u = .ok s' ∧ s'.Inv ∧ s.Framed s' ∧ s'.conn u = none := by
  obtain ⟨chain, hc⟩ := h.lists
  obtain ⟨s', chain', h1, h2, h3, h4, -⟩ := hc.disconnect (u := u)
  refine ⟨s', h1, h.framed ⟨chain', h2⟩ h3, h3, ?_⟩
  rw [h4]
  exact update_self ..

omit [DecidableEq N] [DecidableEq P] in
theorem Inv.sodisconnect (h : s.Inv) (u : U) :
    ∃ s', s.sodisconnect u = .ok s' ∧ s'.Inv ∧ s.Framed s' := by
  unfold Unp.sodisconnect
  split_ifs
  · obtain ⟨s', h1, h2, h3, -⟩ := h.disconnect u
    exact ⟨s', h1, h2, h3⟩
  · exact ⟨s, rfl, h, rfl, rfl, rfl, rfl⟩

omit [DecidableEq N] [DecidableEq P] in
theorem Inv.drop (h : s.Inv) (u : U) : ∃ s', s.drop u = .ok s' ∧ s'.Inv := by
  obtain ⟨chain, hc⟩ := h.lists
  have h1 : Inv { s with reset := update s.reset u true } :=
    ⟨⟨chain, hc.congr rfl rfl rfl rfl⟩, h.bound, h.calls⟩
  obtain ⟨s', h2, h3, -⟩ := h1.disconnect u
  exact ⟨s', h2, h3⟩

omit [Fintype U] [DecidableEq N] [DecidableEq P] in
theorem Inv.connect2 (h : s.Inv) (hu : s.conn u = none) (hlu : s.live u = true)
    (hl2 : s.live u2 = true) : (s.connect2 u u2).Inv := by
  obtain ⟨chain, hc⟩ := h.lists
  exact ⟨⟨_, hc.connect2 hu hlu hl2⟩, h.bound, h.calls⟩

omit [Fintype U] [DecidableEq N] [DecidableEq P] in
/-- Nothing refers to a place without a control block. -/
theorem Inv.attach (h : s.Inv) (hu : s.live u = false) : (s.attach u).Inv := by
  obtain ⟨chain, hc⟩ := h.lists
  have hto : ∀ c, s.conn c ≠ some u := fun c h1 =>
    Bool.noConfusion (hu.symm.trans (hc.live c u h1).2)
  have hconn : s.conn u = none := by
    rw [Option.eq_none_iff_forall_ne_some]
    exact fun p h1 => Bool.noConfusion (hu.symm.trans (hc.live u p h1).1)
  have hnil : chain u = [] := eq_nil_iff_forall_not_mem.2 fun c h1 =>
    hto c ((hc.mem u c).1 h1)
  have hnot : ∀ p, u ∉ chain p := fun p hp => by
    rw [hc.mem, hconn] at hp
    cases hp
  have hconn' : update s.conn u none = s.conn := by
    rw [← hconn, update_eq_self]
  have hrefs : update s.refs u none = s.refs := by
    have h1 := hc.head u
    rw [hnil] at h1
    rw [show (none : Option U) = s.refs u from h1.symm, update_eq_self]
  have hlive : ∀ v, s.live v = true → update s.live u true v = true := by
    intro v hv
    rw [update_apply]
    split_ifs
    · rfl
    · exact hv
  refine ⟨⟨chain, ?_, fun p => ?_, hc.nodup, ?_, ?_⟩, fun n v hv => ?_, fun p c hp => ?_⟩
  · show ∀ p, update s.refs u none p = _
    rw [hrefs]
    exact hc.head
  · refine (hc.links p).congr fun c hcp => update_of_ne ?_ _ _
    rintro rfl
    exact hnot p hcp
  · show ∀ p c, c ∈ chain p ↔ update s.conn u none c = some p
    rw [hconn']
    exact hc.mem
  · show ∀ c p, update s.conn u none c = some p → _
    rw [hconn']
    exact fun c p hcp => ⟨hlive c (hc.live c p hcp).1, hlive p (hc.live c p hcp).2⟩
  · obtain ⟨h1, h2⟩ := h.bound n v hv
    have h3 : v ≠ u := by
      rintro rfl
      exact Bool.noConfusion (hu.symm.trans h1)
    exact ⟨hlive v h1, (update_of_ne h3 _ _).trans h2⟩
  · exact hlive _ (h.calls p c hp)

omit [DecidableEq P] in
/-- A socket that no call is about is closed. -/
theorem Inv.detach (h : s.Inv) (hu : ∀ p c, s.calls p = some c → c.sock ≠ u) :
    ∃ s', s.detach u = .ok s' ∧ s'.Inv := by
  have h0 : ∀ n v, (if s.vnode u = some n then none else s.vsocket n) = some v →
      s.vsocket n = some v ∧ v ≠ u := by
    intro n v hv
    split_ifs at hv with hn
    refine ⟨hv, ?_⟩
    rintro rfl
    exact hn (h.bound n v hv).2
  have h1 : Inv { s with
      vsocket := fun n => if s.vnode u = some n then none else s.vsocket n
      vnode := update s.vnode u none } := by
    obtain ⟨chain, hc⟩ := h.lists
    refine ⟨⟨chain, hc.congr rfl rfl rfl rfl⟩, fun n v hv => ?_, h.calls⟩
    obtain ⟨h2, h3⟩ := h0 n v hv
    exact ⟨(h.bound n v h2).1, (update_of_ne h3 _ _).trans (h.bound n v h2).2⟩
  obtain ⟨s1, h2, h3, h4, h5⟩ := h1.disconnect u
  obtain ⟨chain, hc⟩ := h3.lists
  obtain ⟨s2, chain2, h6, h7, h8, h9, h10⟩ := hc.dropRefs (u := u)
    (Nat.lt_succ_of_le (hc.nodup u).length_le_card)
  have h11 := h3.framed ⟨chain2, h7⟩ h8
  have hconn : s2.conn u = none := (h10 u).elim id fun h12 => h12.trans h5
  have hto : ∀ c, s2.conn c ≠ some u := fun c h12 => by
    rw [← h7.mem, h9] at h12
    cases h12
  refine ⟨{ s2 with
    isconnected := update s2.isconnected u false, live := update s2.live u false }, ?_, ?_, ?_, ?_⟩
  · unfold Unp.detach
    dsimp only
    rw [h2]
    show (Unp.dropRefs u _ s1 >>= fun s => _) = _
    rw [h6]
    rfl
  · refine ⟨chain2, h7.head, h7.links, h7.nodup, h7.mem, fun c p hcp => ?_⟩
    have h12 : c ≠ u := by
      rintro rfl
      exact Option.noConfusion rfl (heq_of_eq (hconn.symm.trans hcp))
    have h13 : p ≠ u := by
      rintro rfl
      exact hto c hcp
    exact ⟨(update_of_ne h12 _ _).trans (h7.live c p hcp).1,
      (update_of_ne h13 _ _).trans (h7.live c p hcp).2⟩
  · intro n v hv
    have h12 : s2.vsocket = _ := h8.vsocket.trans h4.vsocket
    obtain ⟨-, h13⟩ := h0 n v (by rw [← hv]; exact (congrFun h12 n).symm)
    obtain ⟨h14, h15⟩ := h11.bound n v hv
    exact ⟨(update_of_ne h13 _ _).trans h14, h15⟩
  · intro p c hp
    have h12 : s2.calls = s.calls := h8.calls.trans h4.calls
    exact (update_of_ne (hu p c (by rw [← h12]; exact hp)) _ _).trans (h11.calls p c hp)

omit [DecidableEq N] in
theorem Inv.found (h : s.Inv) {p : P} {n : N} (hm : s.Meets (.found p n)) :
    ∃ s', s.found p n = .ok s' ∧ s'.Inv := by
  have h1 := h.ended p
  unfold Unp.found
  cases hp : s.calls p with
  | none => exact ⟨_, rfl, h1⟩
  | some c =>
    have hl := h.calls p c hp
    cases hn : s.vsocket n with
    | none => cases c <;> exact ⟨_, rfl, h1⟩
    | some v =>
      have hconn := hm c hp (by rw [hn]; exact nofun)
      have h2 := h1.connect2 hconn hl (h.bound n v hn).1
      cases c with
      | connect u => exact ⟨_, rfl, h2⟩
      | sendto u =>
        obtain ⟨s', h3, h4, -⟩ := h2.disconnect u
        exact ⟨s', h3, h4⟩

/-- One event. -/
theorem Inv.next (h : s.Inv) {a : UnpAct U N P} (ha : a.Enabled s) (hm : s.Meets a) :
    ∃ s', s.next a = .ok s' ∧ s'.Inv := by
  cases a with
  | attach u => exact ⟨_, rfl, h.attach ha⟩
  | bind u n =>
    obtain ⟨h1, h2, h3⟩ := ha
    obtain ⟨chain, hc⟩ := h.lists
    refine ⟨_, rfl, ⟨chain, hc.congr rfl rfl rfl rfl⟩, fun m v hv => ?_, h.calls⟩
    by_cases hmn : m = n
    · subst hmn
      cases (update_self ..).symm.trans hv
      exact ⟨h1, update_self ..⟩
    · obtain ⟨h4, h5⟩ := h.bound m v ((update_of_ne hmn _ _).symm.trans hv)
      refine ⟨h4, (update_of_ne ?_ _ _).trans h5⟩
      rintro rfl
      rw [h2] at h5
      cases h5
  | pair u v =>
    obtain ⟨h1, h2, h3⟩ := ha
    have h4 := (h.attach h1).attach (u := v) ((update_of_ne (Ne.symm h3) _ _).trans h2)
    have hlu : ((s.attach u).attach v).live u = true :=
      (update_of_ne h3 _ _).trans (update_self ..)
    have hlv : ((s.attach u).attach v).live v = true := update_self ..
    have hcu : ((s.attach u).attach v).conn u = none :=
      (update_of_ne h3 _ _).trans (update_self ..)
    have hcv : ((s.attach u).attach v).conn v = none := update_self ..
    exact ⟨_, rfl, (h4.connect2 hcu hlu hlv).connect2 ((update_of_ne (Ne.symm h3) _ _).trans hcv)
      hlv hlu⟩
  | connect p u =>
    obtain ⟨s', h1, h2, h3⟩ := h.sodisconnect u
    refine ⟨{ s' with calls := update s'.calls p (some (.connect u)) }, ?_, h2.call p ?_⟩
    · show s.connect p u = _
      rw [Unp.connect, h1]
      rfl
    · rw [h3.live]
      exact ha.1
  | sendto p u =>
    refine ⟨_, rfl, ?_⟩
    unfold Unp.sendto
    split_ifs
    · exact h
    · exact h.call p ha.1
  | found p n => exact h.found hm
  | fail p => exact ⟨_, rfl, h.ended p⟩
  | disconnect u =>
    obtain ⟨s', h1, h2, -⟩ := h.sodisconnect u
    exact ⟨s', h1, h2⟩
  | drop u => exact h.drop u
  | detach u => exact h.detach ha.2

theorem inv_of_reach {x : Except Trap (Unp U N P)}
    (h : ((unpLts U N P).restrict (Lts.Meeting Meets)).Reach x) : ∃ s, x = .ok s ∧ s.Inv := by
  refine h.calls (fun s hs => ?_) fun s a hs ha hm => hs.next ha hm
  obtain ⟨h1, h2, h3⟩ := hs
  refine ⟨⟨fun _ => [], fun p => (h1 p).2.2, fun p => trivial, fun p => nodup_nil,
    fun p u => ?_, fun u p hu => ?_⟩, fun n u hn => ?_, fun p c hp => ?_⟩
  · rw [(h1 u).2.1]
    exact iff_of_false not_mem_nil nofun
  · rw [(h1 u).2.1] at hu
    cases hu
  · rw [h2 n] at hn
    cases hn
  · rw [h3 p] at hp
    cases hp

/-! ### A second insertion -/

omit [Fintype U] [DecidableEq N] [DecidableEq P] [DecidableEq U] in
/-- A control block that the pointers still lead to, but that does not point there any more. -/
theorem Lists.wrong (h : s.Lists chain) (hu : s.conn u = some v) (hrefs : s'.refs v = s.refs v)
    (hnext : ∀ c, c ≠ u → s'.nextref c = s.nextref c) (hconn : s'.conn u ≠ some v) :
    ¬s'.ListsRight := by
  rintro ⟨chain', h'⟩
  obtain ⟨A, B, hc⟩ := append_of_mem ((h.mem v u).2 hu)
  have h1 := h.links v
  have h2 := h.nodup v
  have h3 : (chain' v).head? = (A ++ [u]).head? := by
    rw [← h'.head, hrefs, h.head, hc]
    cases A <;> rfl
  rw [hc] at h1 h2
  have h4 : ∀ c ∈ A, c ≠ u := fun c hcA => (nodup_append.1 h2).2.2 c hcA u mem_cons_self
  obtain ⟨m, h5⟩ := (h'.links v).follow h3 (links_append.1 h1).1 fun c hcA => hnext c (h4 c hcA)
  exact hconn ((h'.mem v u).1 (by rw [h5]; simp))

omit [Fintype U] [DecidableEq N] [DecidableEq P] in
theorem connect2_wrong (h : s.Lists chain) (hu : s.conn u = some v) :
    ¬(s.connect2 u u2).ListsRight := by
  by_cases h2 : u2 = v
  · subst h2
    rintro ⟨chain', h'⟩
    -- from `u` the links lead to the old head of the list, and on to `u` again
    obtain ⟨A, B, hc⟩ := append_of_mem ((h.mem u2 u).2 hu)
    have h1 := h.links u2
    have h3 := h.nodup u2
    have h0 : (s.connect2 u u2).refs u2 = some u := update_self ..
    obtain ⟨r, hr⟩ := head?_eq_some_iff.1 ((h'.head u2).symm.trans h0)
    have h4 := h'.links u2
    have h5 := h'.nodup u2
    rw [hr] at h4 h5
    have h6 : r.head? = (A ++ [u]).head? := by
      rw [← h4.1]
      refine (update_self ..).trans ?_
      rw [h.head, hc]
      cases A <;> rfl
    rw [hc] at h1 h3
    have h7 : ∀ c ∈ A, c ≠ u := fun c hcA =>
      (nodup_append.1 h3).2.2 c hcA u mem_cons_self
    obtain ⟨m, rfl⟩ := h4.2.follow h6 (links_append.1 h1).1 fun c hcA => update_of_ne (h7 c hcA) _ _
    exact (nodup_cons.1 h5).1 (by simp)
  · refine h.wrong hu (update_of_ne (Ne.symm h2) _ _) (fun c hc => update_of_ne hc _ _) ?_
    show update s.conn u (some u2) u ≠ some v
    rw [update_self]
    exact fun h3 => h2 (Option.some.inj h3)

omit [DecidableEq N] [DecidableEq P] in
/-- The connection for one datagram is undone, but the old one is lost. -/
theorem connect2_disconnect_wrong (h : s.Lists chain) (hu : s.conn u = some v) :
    ∃ s', (s.connect2 u u2).disconnect u = .ok s' ∧ ¬s'.ListsRight := by
  have h1 : (s.connect2 u u2).conn u = some u2 := update_self ..
  have h2 : (s.connect2 u u2).refs u2 = some u := update_self ..
  have h3 : (s.connect2 u u2).nextref u = s.refs u2 := update_self ..
  have h4 : ∃ s', (s.connect2 u u2).disconnect u = .ok s' ∧
      s'.refs = update (s.connect2 u u2).refs u2 ((s.connect2 u u2).nextref u) ∧
      s'.nextref = update (s.connect2 u u2).nextref u none ∧
      s'.conn = update (s.connect2 u u2).conn u none := by
    simp only [Unp.disconnect, h1, h2, if_true]
    exact ⟨_, rfl, rfl, rfl, rfl⟩
  obtain ⟨s', h5, h6, h7, h8⟩ := h4
  refine ⟨s', h5, h.wrong hu ?_ (fun c hc => ?_) ?_⟩
  · rw [h6, h3]
    show update (update s.refs u2 (some u)) u2 (s.refs u2) v = s.refs v
    rw [update_idem, update_eq_self]
  · rw [h7]
    exact (update_of_ne hc _ _).trans (update_of_ne hc _ _)
  · rw [h8, update_self]
    exact nofun

omit [DecidableEq N] in
theorem found_wrong (h : s.ListsRight) {p : P} {n : N} (hm : ¬s.Meets (.found p n)) :
    ∃ s', s.found p n = .ok s' ∧ ¬s'.ListsRight := by
  obtain ⟨chain, hc⟩ := h
  have h1 : Lists { s with calls := update s.calls p none } chain := hc.congr rfl rfl rfl rfl
  simp only [Meets, not_forall] at hm
  obtain ⟨c, hp, hn, hconn⟩ := hm
  obtain ⟨v, hv⟩ := Option.ne_none_iff_exists'.1 hn
  obtain ⟨x, hx⟩ := Option.ne_none_iff_exists'.1 hconn
  unfold Unp.found
  cases c with
  | connect u =>
    rw [hp, hv]
    exact ⟨_, rfl, connect2_wrong h1 hx⟩
  | sendto u =>
    rw [hp, hv]
    exact connect2_disconnect_wrong h1 hx

/-- In every run in which a socket is still unconnected when the lookup of its peer comes back, the
lists are right and no routine panics or loops; and an event that does not meet this condition
spoils the lists. -/
theorem refs_lists_kept {x : Except Trap (Unp U N P)}
    (h : ((unpLts U N P).restrict (Lts.Meeting Meets)).Reach x) :
    ∃ s, x = .ok s ∧ s.ListsRight ∧ ∀ a : UnpAct U N P, a.Enabled s →
      ((∃ s', s.next a = .ok s' ∧ s'.ListsRight) ↔ s.Meets a) := by
  obtain ⟨s, rfl, hs⟩ := inv_of_reach h
  refine ⟨s, rfl, hs.lists, fun a ha => ⟨fun ⟨s', h1, h2⟩ => ?_, fun hm => ?_⟩⟩
  · by_contra hm
    cases a with
    | found p n =>
      obtain ⟨s2, h3, h4⟩ := found_wrong hs.lists hm
      cases h1.symm.trans h3
      exact h4 h2
    | _ => exact hm trivial
  · obtain ⟨s', h1, h2⟩ := hs.next ha hm
    exact ⟨s', h1, h2.lists⟩

end Unp

/-! ### Two processes connect one socket -/

namespace UnpPair

open Unp

abbrev State : Type := Unp (Fin 3) (Fin 2) (Fin 2)

abbrev Act : Type := UnpAct (Fin 3) (Fin 2) (Fin 2)

/-- No sockets. -/
def empty : State where
  live := fun _ => false
  conn := fun _ => none
  refs := fun _ => none
  nextref := fun _ => none
  vnode := fun _ => none
  vsocket := fun _ => none
  isconnected := fun _ => false
  reset := fun _ => false
  calls := fun _ => none

local instance neZero_two : NeZero 2 := ⟨by decide⟩

local instance neZero_three : NeZero 3 := ⟨by decide⟩

/-- Sockets 1 and 2 are bound to names, and process 0 looks up the first name for socket 0. -/
def looking : List Act :=
  [.attach 0, .attach 1, .attach 2, .bind 1 0, .bind 2 1, .connect 0 0]

/-- Process 1 looks up the second name for the same socket, and both find their names. -/
def crossing : List Act := looking ++ [UnpAct.connect 1 0, .found 0 0, .found 1 1]

/-- The events of a list one after the other, each of which can happen and does what is asked. -/
def runList (ok : State → Act → Bool) (s : State) : List Act → Option State
  | [] => some s
  | a :: l =>
    match s.next a with
    | .ok s' => if ok s a then runList ok s' l else none
    | .error _ => none

theorem reach_runList {A : Lts (Except Trap State) Act} {ok : State → Act → Bool}
    (hA : ∀ s a, ok s a = true → A.step (.ok s) a (s.next a)) {l : List Act} {s s' : State}
    (h : A.Reach (.ok s)) (hl : runList ok s l = some s') : A.Reach (.ok s') := by
  induction l generalizing s with
  | nil =>
    cases hl
    exact h
  | cons a l ih =>
    simp only [runList] at hl
    cases hn : s.next a with
    | error t =>
      rw [hn] at hl
      cases hl
    | ok s1 =>
      rw [hn] at hl
      dsimp only at hl
      split_ifs at hl with hok
      exact ih (h.step (hn ▸ hA s a hok)) hl

/-- The test of `Enabled` for the events used here. -/
def canDo (s : State) : Act → Bool
  | .attach u => !s.live u
  | .bind u n => s.live u && s.vnode u == none && s.vsocket n == none
  | .connect p u => s.live u && s.calls p == none
  | .found p _ => s.calls p != none
  | _ => false

theorem canDo_enabled {s : State} {a : Act} (h : canDo s a = true) : a.Enabled s := by
  cases a <;> simp_all [canDo, UnpAct.Enabled]

theorem empty_init : (unpLts (Fin 3) (Fin 2) (Fin 2)).init (.ok empty) :=
  ⟨empty, rfl, fun _ => ⟨rfl, rfl, rfl⟩, fun _ => rfl, fun _ => rfl⟩

/-- The test of the condition as well. -/
def meets (s : State) : Act → Bool
  | .found p _ => (s.calls p).all fun c => s.conn c.sock == none
  | _ => true

theorem meets_of {s : State} {a : Act} (h : meets s a = true) : s.Meets a := by
  cases a with
  | found p n =>
    intro c hc _
    simpa [meets, hc] using h
  | _ => trivial

theorem refs_lists_kept_looking : ∃ s : State, s.calls 0 = some (.connect 0) ∧ s.ListsRight ∧
    ((∃ s', s.next (.found 0 0) = .ok s' ∧ s'.ListsRight) ↔ s.Meets (.found 0 0)) := by
  have hrun : ∃ s, runList (fun s a => canDo s a && meets s a) empty looking = some s ∧
      s.calls 0 = some (.connect 0) := ⟨_, rfl, by decide⟩
  obtain ⟨s, h1, h2⟩ := hrun
  have hreach : ((unpLts (Fin 3) (Fin 2) (Fin 2)).restrict (Lts.Meeting Meets)).Reach (.ok s) := by
    refine reach_runList (fun s a h => ?_) (.init empty_init) h1
    obtain ⟨h3, h4⟩ := Bool.and_eq_true_iff.1 h
    refine ⟨fun s' hs => ?_, s, rfl, canDo_enabled h3, rfl⟩
    cases hs
    exact meets_of h4
  obtain ⟨s', hs, h3, h4⟩ := refs_lists_kept hreach
  cases hs
  exact ⟨s, h2, h3, h4 _ (by rw [UnpAct.Enabled, h2]; exact nofun)⟩

/-- Process 0 connects socket 0 to socket 1 and process 1 then connects it to socket 2: it is on both
lists, and closing socket 1 loops for ever. -/
theorem connected_twice : ∃ s : State, (unpLts (Fin 3) (Fin 2) (Fin 2)).Reach (.ok s) ∧
    s.conn 0 = some 2 ∧ s.refs 1 = some 0 ∧ s.refs 2 = some 0 ∧ ¬s.ListsRight ∧
    s.detach 1 = .error .spin := by
  have hrun : ∃ s, runList canDo empty crossing = some s ∧ s.conn 0 = some 2 ∧
      s.refs 1 = some 0 ∧ s.refs 2 = some 0 ∧ s.detach 1 = .error .spin :=
    ⟨_, rfl, by decide, by decide, by decide, rfl⟩
  obtain ⟨s, h1, h2, h3, h4, h5⟩ := hrun
  have hreach := reach_runList (A := unpLts (Fin 3) (Fin 2) (Fin 2))
    (fun s a h => ⟨s, rfl, canDo_enabled h, rfl⟩) (.init empty_init) h1
  refine ⟨s, hreach, h2, h3, h4, ?_, h5⟩
  rintro ⟨chain, hc⟩
  have h6 : 0 ∈ chain 1 := List.mem_of_head? ((hc.head 1).symm.trans h3)
  rw [hc.mem, h2] at h6
  exact absurd h6 (by decide)

end UnpPair

end Hpux.Net
