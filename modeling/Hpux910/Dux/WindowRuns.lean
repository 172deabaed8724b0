import Hpux910.Dux.WindowInv

/-!
# The protocol window keeps its books

What every run of the requesting side keeps, as long as a request does not get a `rid` that
something still knows (`dux_rid` is 32 bits wide, and `0` is also the `rid` of a free entry).

* `UsingSide.WindowOk` : the books of one site's window.
* `Op.Harmless` : the condition on the events.
* `protocol_window` : the books are right in every state of every run of harmless events.
* `protocol_window_rid_zero` : they are not when `dux_rid` wraps.
-/

namespace Hpux

namespace Dux

namespace Window

open Function Pending List

namespace UsingSide

variable (s : UsingSide)

/-- A timer, a retransmission or the first transmission is there for entry `i`, or a packet of its
reply is being taken in. -/
def Tended (i : ℕ) : Prop :=
  s.Armed (s.entries i).rid ∨ (∃ k, (i, k) ∈ s.sends) ∨ ∃ p, (i, p) ∈ s.recvs

variable {s} in
theorem not_tended {i : ℕ} (htimers : s.timers = []) (hfiring : s.firing = []) (hsends : s.sends = [])
    (hrecvs : s.recvs = []) : ¬s.Tended i := by
  rw [Tended, Armed, htimers, hfiring, hsends, hrecvs]
  rintro ((hf | hf) | ⟨_, hf⟩ | ⟨_, hf⟩) <;> cases hf

/-- The books of the window of a site. -/
structure WindowOk (site : ℕ) : Prop where
  /-- `req_count` counts the entries flagged `U_COUNTED`. -/
  count : (s.clustab site).reqCount = (s.countedFor site).card
  /-- It stays in the window. -/
  bound : (s.clustab site).reqCount ≤ s.windowSize
  /-- The waiting queue is a list from head to tail of the entries flagged `U_OUTSIDE_WINDOW`, in
  the order of their arrival, none of them free. -/
  queue : ∃ q, IsQueue (fun i => (s.entries i).reqWaitingNext) (s.clustab site).reqWaitingQhead
    (s.clustab site).reqWaitingQtail q ∧
    (∀ i, i ∈ q ↔ (s.entries i).flags.outsideWindow = true ∧ (s.entries i).req.dest = some site) ∧
    (∀ i ∈ q, i < s.size ∧ (s.entries i).flags.used = true) ∧
    q.Pairwise fun i j => (s.entries i).ticket < (s.entries j).ticket
  /-- Nothing waits while there is room. -/
  room : (s.clustab site).reqCount < s.windowSize → (s.clustab site).reqWaitingQhead = none
  /-- A request that is neither waiting nor complete nor answered by a slow notice is tended. -/
  tended : ∀ i < s.size, (s.entries i).flags.used = true → (s.entries i).req.dest = some site →
    (s.entries i).flags.outsideWindow = false → (s.entries i).done = false →
    (s.entries i).slow = false → s.Tended i

end UsingSide

/-- A request gets a `rid` that nothing knows. -/
def Op.Harmless (s : UsingSide) : Op → Prop
  | .netRequest _ => s.Fresh ((s.duxRid + 1) % 2 ^ 32)
  | _ => True

variable {c : Ctx} {s s' : UsingSide} {i : ℕ}

namespace Inv


theorem wait_end (h : Inv .idle s) (hi : i ∈ s.waits) :
    Inv ⟨none, some i, none⟩ { s with waits := s.waits.erase i } := by
  have hperm : (s.fins none).Perm ({ s with waits := s.waits.erase i }.fins (some i)) :=
    ((perm_cons_erase hi).append_left _).trans perm_middle
  exact h.same
    (fun j =>
      ⟨.of_eq rfl, ⟨rfl, rfl, le_rfl⟩, .of_eq rfl rfl, .of_eq rfl rfl rfl,
        ⟨hperm.mem_iff.2, fun _ hf => hperm.mem_iff.2 (mem_cons_of_mem i hf), Iff.rfl⟩⟩)
    rfl nofun rfl rfl rfl h.quiet h.sendsNodup h.recvsNodup (hperm.nodup_iff.1 h.finsNodup)
    h.armedNodup rfl

theorem not_sending_of_fin {hand : Option ℕ} (h : Inv ⟨none, hand, none⟩ s) (hi : i ∈ s.fins hand)
    (hr : (i, .retry) ∉ s.sends) (k : Sender) : (i, k) ∉ s.sends := by
  intro hk
  by_cases hkr : k = .retry
  · exact hr (hkr ▸ hk)
  · have hdone := ((h.entry i).fin hi).2
    rw [((h.entry i).first k hk hkr).1] at hdone
    cases hdone

theorem uncounted_of_fin {hand : Option ℕ} (h : Inv ⟨none, hand, none⟩ s) (hi : i ∈ s.fins none) :
    (s.entries i).flags.counted = false := by
  by_contra hf
  rw [Bool.not_eq_false] at hf
  exact ((h.entry i).counted hf).2.2 hi

theorem waited (h : Inv .idle s) (hi : i ∈ s.waits) (hr : (i, .retry) ∉ s.sends) :
    Inv .idle (s.waited i) := by
  have hfin : i ∈ s.fins none := mem_append_right _ (mem_append_right _ hi)
  exact (h.wait_end hi).callDmRecvReply (h.not_sending_of_fin hfin hr) (h.uncounted_of_fin hfin)

theorem drained (h : Inv .idle s) (i : ℕ) : Inv .idle (s.drained i) := by
  have hi := h.entry i
  exact h.step_update (i := i) rfl { hi with } (fun j hj => .other (update_of_ne hj _ _) rfl rfl)
    (fun site => (h.site site).update (i := i) rfl ⟨⟨Iff.rfl, fun _ => rfl, fun _ => rfl⟩, Iff.rfl⟩ rfl rfl id rfl) rfl rfl rfl rfl rfl h.quiet
    h.sendsNodup h.recvsNodup h.finsNodup h.armedNodup rfl

theorem lost (h : Inv .idle s) (i rid : ℕ) : Inv .idle (s.lost i rid) :=
  h.same
    (fun _ => ⟨.of_eq rfl, ⟨rfl, rfl, le_rfl⟩, .of_eq rfl rfl,
      ⟨fun _ => id, fun _ _ _ _ => id, fun _ _ hj => mem_of_mem_filter hj⟩, .of_eq rfl rfl rfl⟩) rfl nofun rfl rfl rfl
    (fun x hx => ⟨(h.quiet x hx).1, fun j hj => (h.quiet x hx).2 j (mem_of_mem_filter hj)⟩)
    h.sendsNodup h.recvsNodup h.finsNodup h.armedNodup rfl

variable {rid : ℕ}

theorem fire (h : Inv .idle s) (hrid : rid ∈ s.timers) : Inv .idle (s.fire rid) := by
  have hperm : (s.timers ++ s.firing).Perm (s.timers.erase rid ++ rid :: s.firing) :=
    ((perm_cons_erase hrid).append_right _).trans perm_middle.symm
  have harmed : ∀ r, (s.fire rid).Armed r ↔ s.Armed r := by
    intro r
    rw [UsingSide.Armed, UsingSide.Armed, ← mem_append, ← mem_append]
    exact hperm.mem_iff.symm
  exact h.same
    (fun j =>
      ⟨.of_eq rfl, ⟨rfl, rfl, le_rfl⟩, .of_eq rfl rfl,
        ⟨fun _ => (harmed _).1, fun _ _ _ _ => (harmed _).2, fun _ _ => id⟩, .of_eq rfl rfl rfl⟩)
    rfl (by simp) rfl rfl rfl
    (fun x hx => ⟨fun ha => (h.quiet x hx).1 ((harmed _).1 ha), (h.quiet x hx).2⟩)
    h.sendsNodup h.recvsNodup h.finsNodup (hperm.nodup_iff.1 h.armedNodup) rfl

theorem netRequest (h : Inv .idle s) (r : ReqMsg) (hrid : s.Fresh ((s.duxRid + 1) % 2 ^ 32)) :
    Inv .idle (s.netRequest r) := by
  rw [UsingSide.netRequest]
  split
  · next hdel =>
    obtain ⟨hne, hentries, hgets, htimers, hfiring, hair⟩ := hrid
    have hquiet : s.Quiet ((s.duxRid + 1) % 2 ^ 32) :=
      ⟨fun ha => ha.elim htimers hfiring, fun j hj => hair _ hj rfl⟩
    have hrids : ∀ i, (s.entries i).rid ≠ (s.duxRid + 1) % 2 ^ 32 := by
      intro i
      by_cases hi : i < s.size
      · exact hentries i hi
      · have hfree : (s.entries i).flags.used = false := by
          by_contra hu
          rw [Bool.not_eq_false] at hu
          exact hi ((h.entry i).lt hu)
        rw [((h.entry i).free hfree).2]
        exact hne.symm
    refine ⟨fun i => (h.entry i).same (.other rfl rfl rfl),
      fun site => (h.site site).same (fun _ => .refl site _) rfl rfl id rfl,
      h.ridInj, ?_, ?_, h.sendsNodup, h.recvsNodup, h.finsNodup, h.armedNodup, h.windowLt, h.panicked⟩
    · intro x hx
      rcases mem_cons.1 hx with rfl | hx
      · exact ⟨hne, hrids, hquiet, s.deliverable_of hdel⟩
      · exact h.gets x hx
    · exact nodup_cons h.getsNodup hgets
  · exact h

/-- A free entry is taken for a request. -/
theorem fillEntry (h : Inv .idle s) {r : ReqMsg} (hx : (r, rid) ∈ s.gets)
    (hi : i < s.size) (hfree : (s.entries i).flags = .zero) :
    Inv ⟨none, none, some i⟩ ({ s with gets := s.gets.erase (r, rid) }.fillEntry i r rid) := by
  obtain ⟨hne, hentries, hquiet, hr⟩ := h.gets _ hx
  have hused : (s.entries i).flags.used = false := congrArg UFlags.used hfree
  have hcount : (s.entries i).flags.counted = false := congrArg UFlags.counted hfree
  have hout : (s.entries i).flags.outsideWindow = false := congrArg UFlags.outsideWindow hfree
  have hs : ∀ k, (i, k) ∉ s.sends := fun k hk => by
    rw [((h.entry i).sending k hk).1] at hused
    cases hused
  have hrecv : ∀ p, (i, p) ∉ s.recvs := fun p hp => by
    rw [((h.entry i).recv p hp).1] at hused
    cases hused
  have hfin : i ∉ s.fins none := fun hf => by
    rw [((h.entry i).fin hf).1] at hused
    cases hused
  have hself : ({ s with gets := s.gets.erase (r, rid) }.fillEntry i r rid).entries i = _ :=
    update_self i _ s.entries
  have hother : ∀ {j}, j ≠ i →
      ({ s with gets := s.gets.erase (r, rid) }.fillEntry i r rid).entries j = s.entries j :=
    fun hj => update_of_ne hj _ _
  refine ⟨fun j => ?_, fun site => ?_, fun j k hj hk => ?_, fun x hx' => ?_, nodup_erase _ h.getsNodup,
    h.sendsNodup, h.recvsNodup, h.finsNodup, h.armedNodup, h.windowLt, h.panicked⟩
  · rcases eq_or_ne j i with rfl | hj
    · rw [hself]
      exact
        { free := nofun
          lt := fun _ => hi
          ridNe := fun _ => hne
          dest := fun _ => hr
          counted := fun hf => by
            rw [hcount] at hf
            cases hf
          outside := fun hf => by
            rw [hout] at hf
            cases hf
          sending := fun k hk => absurd hk (hs k)
          first := fun k hk => absurd hk (hs k)
          retrying := fun hk => absurd hk (hs _)
          recv := fun p hp => absurd hp (hrecv p)
          fin := fun hf => absurd hf hfin
          setup := fun _ => ⟨rfl, hout, rfl, hs, hrecv, hquiet⟩
          live := fun hf => absurd rfl hf }
    · exact (h.entry j).same
        { entry := .of_eq (hother hj)
          table := ⟨rfl, rfl, le_rfl⟩
          calls := .of_eq rfl rfl
          timer := .of_eq rfl rfl rfl
          hand := ⟨id, fun _ => id, (setup_iff hj).symm⟩ }
  · refine (h.site site).update (i := i) rfl ?_ rfl rfl nofun rfl
    have hw : ¬(s.entries i).WaitsFor site := fun hw => by
      rw [hw.1] at hout
      cases hout
    exact
      { counted := iff_of_false
          (fun hc => by
            have hc' := hc.1
            rw [hcount] at hc'
            cases hc')
          fun hc => by
            rw [hc.1] at hcount
            cases hcount
        waits := iff_of_false
          (fun hf => by
            have hf' := hf.1
            rw [hout] at hf'
            cases hf')
          hw
        ticket := fun hf => absurd hf hw
        next := fun hf => absurd hf hw }
  · rcases eq_or_ne j i with rfl | hji
    · rcases eq_or_ne k j with rfl | hkj
      · rfl
      · rw [hself, hother hkj] at hk
        exact absurd hk.symm (hentries k)
    · rcases eq_or_ne k i with rfl | hki
      · rw [hself, hother hji] at hk
        exact absurd hk (hentries j)
      · rw [hother hji] at hj
        rw [hother hji, hother hki] at hk
        exact h.ridInj j k hj hk
  · obtain ⟨h₁, h₂, h₃, h₄⟩ := h.gets x (mem_of_mem_erase hx')
    refine ⟨h₁, fun j => ?_, h₃, h₄⟩
    rcases eq_or_ne j i with rfl | hj
    · rw [hself]
      exact (ne_of_mem_erase h.getsNodup hx hx').symm
    · rw [hother hj]
      exact h₂ j

/-- The window check of `net_request`. -/
theorem enterWindow (h : Inv ⟨none, none, some i⟩ s)
    (hcount : (s.entries i).flags.counted = false) : Inv .idle (s.enterWindow i) := by
  rw [UsingSide.enterWindow]
  split
  · next site hdest =>
    have hdest' : (s.entries i).req.dest = some site := by
      rw [ReqMsg.countedFor] at hdest
      split at hdest
      · cases hdest
      · exact hdest
    split
    · next hfull => exact h.waitOutside hdest' hcount hfull
    · next hroom => exact (h.countIn hdest' hcount (not_le.1 hroom)).duxSend nofun rfl nofun
  · exact h.duxSend nofun rfl nofun

theorem gotEntry (h : Inv .idle s) {r : ReqMsg} (hx : (r, rid) ∈ s.gets) :
    Inv .idle (s.gotEntry r rid) := by
  rw [UsingSide.gotEntry]
  split
  · next i hi =>
    rw [UsingSide.getUsingArray] at hi
    have hfree : (s.entries i).flags = .zero := by simpa using find?_some hi
    have hlt : i < s.size := mem_range.1 (mem_of_find?_eq_some hi)
    refine (h.fillEntry hx hlt hfree).enterWindow ?_
    refine (congrArg (fun e : UsingEntry => e.flags.counted) (update_self i _ s.entries)).trans ?_
    exact congrArg UFlags.counted hfree
  · exact h

/-- A `dux_send` of an entry is over. -/
theorem send_end (h : Inv .idle s) {k : Sender} (hk : (i, k) ∈ s.sends) {e : UsingEntry}
    {air : List (ℕ × ℕ)} (he : SameEntry (s.entries i) e False False)
    (hw : ∀ site, SameWindow site (s.entries i) e)
    (hair : ∀ j rid, (j, rid) ∈ air → (j, rid) ∈ s.air ∨ rid = (s.entries i).rid) :
    Inv ⟨none, k.reply?, none⟩
      { s with
        entries := update s.entries i e
        sends := s.sends.erase (i, k)
        timers := (s.entries i).rid :: s.timers
        air := air } := by
  have hi := h.entry i
  obtain ⟨hu, ho, harm, hrecv⟩ := hi.sending k hk
  have hfins := UsingSide.fins_erase hk
  have hnone : ∀ k', (i, k') ∉ s.sends.erase (i, k) := fun k' => not_mem_erase h.sendsNodup hk
  have hquiet : ∀ {rid}, s.Quiet rid → rid ≠ (s.entries i).rid → UsingSide.Quiet
      { s with
        entries := update s.entries i e
        sends := s.sends.erase (i, k)
        timers := (s.entries i).rid :: s.timers
        air := air } rid := by
    rintro rid ⟨hq, hqair⟩ hne
    refine ⟨?_, fun j hj => (hair j rid hj).elim (hqair j) hne⟩
    rintro (hf | hf)
    · exact hq (.inl ((mem_cons.1 hf).resolve_left hne))
    · exact hq (.inr hf)
  have hparked : ∀ {j}, j ∈ (s.sends.erase (i, k)).filterMap (·.2.reply?) ++ s.waits → j ∈ s.fins none :=
    fun hj => hfins.mem_iff.2 (mem_append_right _ hj)
  refine h.step_update (i := i) rfl ?_ (fun j hj => ?_) (fun site => ?_) he.used he.rid rfl rfl rfl
    (fun x hx => hquiet (h.quiet x hx) ((h.gets x hx).2.1 i).symm) (nodup_erase _ h.sendsNodup)
    h.recvsNodup (hfins.nodup_iff.1 h.finsNodup) ?_ rfl
  · exact
      { free := fun hf => by
          rw [he.used, hu] at hf
          cases hf
        lt := fun _ => hi.lt hu
        ridNe := fun _ => by
          rw [he.rid]
          exact hi.ridNe hu
        dest := fun _ => by
          rw [he.req]
          exact hi.dest hu
        counted := fun hc => by
          obtain ⟨h₁, h₂, h₃⟩ := hi.counted (he.counted hc)
          rw [he.outside, he.req]
          exact ⟨h₁, h₂, fun hf => h₃ (hparked hf)⟩
        outside := fun hf => by
          rw [he.outside, ho] at hf
          cases hf
        sending := fun k' hk' => absurd hk' (hnone k')
        first := fun k' hk' => absurd hk' (hnone k')
        retrying := fun hk' => absurd hk' (hnone _)
        recv := fun p hp => absurd hp (hrecv p)
        fin := fun hf => by
          rw [he.used, he.done]
          exact hi.fin (hfins.mem_iff.2 hf)
        setup := nofun
        live := fun _ _ _ _ _ _ => by
          rw [he.rid]
          exact .inl (.inl mem_cons_self) }
  · have hrid := h.rid_ne hu hj
    exact
      { entry := .of_eq (update_of_ne hj _ _)
        table := ⟨rfl, rfl, le_rfl⟩
        calls := ⟨fun _ => mem_erase_other hj, fun _ => id⟩
        timer := ⟨fun _ => Or.imp (fun hf => (mem_cons.1 hf).resolve_left hrid) id,
          fun _ _ _ _ => Or.imp (mem_cons_of_mem _) id,
          fun j' _ hj' => (hair j' _ hj').resolve_right hrid⟩
        hand := ⟨hfins.mem_iff.2, fun _ => hparked, Iff.rfl⟩ }
  · exact (h.site site).update (i := i) rfl (hw site) rfl rfl nofun rfl
  · exact nodup_cons.2 ⟨fun hf => harm (mem_append.1 hf), h.armedNodup⟩

theorem sent (h : Inv .idle s) {k : Sender} {complete : Bool}
    (hen : s.Enabled (.sent i k complete)) : Inv .idle (s.sent i k complete) := by
  obtain ⟨hk, -, hretry⟩ := hen
  have hair : ∀ j rid, (j, rid) ∈ (if complete then (i, (s.entries i).rid) :: s.air else s.air) →
      (j, rid) ∈ s.air ∨ rid = (s.entries i).rid := by
    intro j rid hj
    split at hj
    · exact (mem_cons.1 hj).symm.imp_right fun heq => (Prod.mk.inj heq).2
    · exact .inl hj
  have he : SameEntry (s.entries i)
      (if complete then s.entries i else { s.entries i with cantFree := false }) False False := by
    split
    · exact .of_eq rfl
    · exact ⟨rfl, fun _ => rfl, id, rfl, rfl, rfl, rfl, id, rfl, fun _ => id, fun _ => id⟩
  have hw : ∀ site, SameWindow site (s.entries i)
      (if complete then s.entries i else { s.entries i with cantFree := false }) := by
    intro site
    split
    · exact .refl site _
    · exact ⟨⟨Iff.rfl, fun _ => rfl, fun _ => rfl⟩, Iff.rfl⟩
  have hend := h.send_end hk he hw hair
  cases k with
  | netRequest => exact hend
  | checkWindow site reply =>
    have hfin : ∀ j, reply = some j → j ∈ s.fins none := fun j hj =>
      mem_append_right _ (mem_append_left _ (mem_filterMap.2 ⟨_, hk, hj⟩))
    refine hend.of_room.windowLoop (fun j hj k' hk' => ?_) fun j hj => ?_
    · exact h.not_sending_of_fin (hfin j hj) (hretry j hj) k' (mem_of_mem_erase hk')
    · by_contra hf
      rw [Bool.not_eq_false] at hf
      have hmem := (hend.entry j).counted hf
      rcases eq_or_ne j i with rfl | hji
      · have hd := ((h.entry j).fin (hfin j hj)).2
        rw [((h.entry j).first _ hk nofun).1] at hd
        cases hd
      · have he' : update s.entries i (if complete then s.entries i else
            { s.entries i with cantFree := false }) j = s.entries j := update_of_ne hji _ _
        change (update s.entries i _ j).flags.counted = true at hf
        rw [he', h.uncounted_of_fin (hfin j hj)] at hf
        cases hf
  | retry =>
    have hfinal := h.send_end hk (e := { (if complete then s.entries i else
        { s.entries i with cantFree := false }) with
      flags := { (s.entries i).flags with retryInProgress := false } })
      (by
        have hu := ((h.entry i).sending _ hk).1
        cases complete <;> exact ⟨rfl, fun hf => absurd hf (by rw [hu]; decide), id, rfl, rfl, rfl,
          rfl, id, rfl, nofun, fun _ => id⟩)
      (fun site => by
        cases complete <;> exact ⟨⟨Iff.rfl, fun _ => rfl, fun _ => rfl⟩, Iff.rfl⟩) hair
    rw [UsingSide.sent]
    dsimp only [UsingSide.setEntry]
    rw [update_idem]
    exact hfinal

theorem recvReply (h : Inv .idle s) {pkt : Packet} (hen : s.Enabled (.reply i rid pkt)) :
    Inv .idle (s.recvReply i rid pkt) := by
  obtain ⟨hair, hfst, hlast⟩ := hen
  have hrecv : ∀ p, (i, p) ∉ s.recvs := fun p hp => hfst (mem_map.2 ⟨(i, p), hp, rfl⟩)
  have hi := h.entry i
  rw [UsingSide.recvReply]
  dsimp only
  split
  · exact h
  · next hmatch =>
    obtain ⟨hflags, hrid⟩ := not_or.1 hmatch
    rw [not_not] at hrid
    subst hrid
    have hu : (s.entries i).flags.used = true := by
      by_contra hf
      rw [Bool.not_eq_true] at hf
      exact hflags (hi.free hf).1
    split
    · exact h
    · next hretry =>
      have hs : ∀ k, (i, k) ∉ s.sends := by
        intro k hk
        by_cases hkr : k = .retry
        · exact hretry (hi.retrying (hkr ▸ hk))
        · exact (hi.first k hk hkr).2 i hair
      have hout : (s.entries i).flags.outsideWindow = false := by
        by_contra hf
        rw [Bool.not_eq_false] at hf
        exact (hi.outside hf).2.2.2.1.2 i hair
      split
      · next hbyte =>
        have hd : (s.entries i).done = false := by
          by_contra hf
          rw [Bool.not_eq_false] at hf
          exact hlast rfl hf hbyte
        refine h.step_update (i := i) rfl ?_ (fun j hj => ?_) (fun site => ?_) rfl rfl rfl rfl rfl h.quiet
          h.sendsNodup (nodup_begin h.recvsNodup hrecv) h.finsNodup h.armedNodup rfl
        · exact
            { hi with
              free := fun hf => by
                rw [hu] at hf
                cases hf
              sending := fun k hk => absurd hk (hs k)
              recv := fun _ _ => ⟨hu, hd, hout, rfl⟩
              setup := nofun }
        · exact
            { entry := .of_eq (update_of_ne hj _ _)
              table := ⟨rfl, rfl, le_rfl⟩
              calls := ⟨fun _ => Iff.rfl, fun _ => (mem_cons_other hj).1⟩
              timer := .of_eq rfl rfl rfl
              hand := .of_eq rfl rfl rfl }
        · exact (h.site site).update (i := i) rfl ⟨⟨Iff.rfl, fun _ => rfl, fun _ => rfl⟩, Iff.rfl⟩ rfl rfl id rfl
      · refine h.step_update (i := i) rfl ?_
          (fun j hj => .other (update_of_ne hj _ _) rfl rfl)
          (fun site => (h.site site).update (i := i) rfl ⟨⟨Iff.rfl, fun _ => rfl, fun _ => rfl⟩, Iff.rfl⟩ rfl rfl id rfl) rfl rfl rfl rfl rfl h.quiet
          h.sendsNodup h.recvsNodup h.finsNodup h.armedNodup rfl
        exact
          { hi with
            free := fun hf => by
              rw [hu] at hf
              cases hf
            recv := fun p hp => absurd hp (hrecv p) }

theorem untimeout_same (h : Inv c s) (hu : (s.entries i).flags.used = true) {j : ℕ} (hj : j ≠ i)
    (htimers : s'.timers = s.timers.erase (s.entries i).rid) (hfiring : s'.firing = s.firing)
    (hair : s'.air = s.air) : SameTimer s s' j := by
  have hmem : (s.entries j).rid ∈ s.timers.erase (s.entries i).rid ↔ (s.entries j).rid ∈ s.timers :=
    mem_erase_of_ne (h.rid_ne hu hj)
  have harmed : s'.Armed (s.entries j).rid ↔ s.Armed (s.entries j).rid := by
    rw [UsingSide.Armed, UsingSide.Armed, htimers, hfiring, hmem]
  exact ⟨fun _ => harmed.1, fun _ _ _ _ => harmed.2, fun _ _ hj => hair ▸ hj⟩

theorem replyTaken (h : Inv .idle s) {pkt : Packet} (hp : (i, pkt) ∈ s.recvs) (last : Bool) :
    Inv .idle (s.replyTaken i pkt last) := by
  have hi := h.entry i
  obtain ⟨hu, hd, hout, hprog⟩ := hi.recv pkt hp
  have hs : ∀ k, (i, k) ∉ s.sends := fun k hk => (hi.sending k hk).2.2.2 pkt hp
  have hnone : ∀ p, (i, p) ∉ s.recvs.erase (i, pkt) := fun p => not_mem_erase h.recvsNodup hp
  rw [UsingSide.replyTaken]
  dsimp only
  split
  · have hfin : i ∉ s.fins none := fun hf => by
      rw [(hi.fin hf).2] at hd
      cases hd
    suffices hmark : Inv ⟨none, some i, none⟩
        { { s with recvs := s.recvs.erase (i, pkt) }.setEntry i
            { s.entries i with
              byteRecved := if (pkt.endOfMsg && !(s.entries i).req.dest.isSome) = true then 0
                else (s.entries i).byteRecved + pkt.length
              done := true } with
          timers := s.timers.erase (s.entries i).rid } by
      refine hmark.leaveWindow ?_ fun j hj => ⟨(Option.some.inj hj).symm, hs⟩
      exact (congrArg (fun e : UsingEntry => e.flags.used) (update_self i _ s.entries)).trans hu
    refine h.step_update (i := i) rfl ?_ (fun j hj => ?_)
      (fun site => (h.site site).update (i := i) rfl ⟨⟨Iff.rfl, fun _ => rfl, fun _ => rfl⟩, Iff.rfl⟩ rfl rfl nofun rfl) rfl rfl rfl rfl rfl
      (fun x hx => ⟨fun ha => (h.quiet x hx).1 (ha.imp_left mem_of_mem_erase), (h.quiet x hx).2⟩)
      h.sendsNodup (nodup_erase _ h.recvsNodup) (nodup_cons.2 ⟨hfin, h.finsNodup⟩)
      (h.armedNodup.sublist (erase_sublist.append_right _)) rfl
    · exact
        { hi with
          free := fun hf => by
            rw [hu] at hf
            cases hf
          outside := fun hf => by
            rw [hout] at hf
            cases hf
          sending := fun k hk => absurd hk (hs k)
          first := fun k hk => absurd hk (hs k)
          recv := fun p hp => absurd hp (hnone p)
          fin := fun _ => ⟨hu, rfl⟩
          setup := nofun
          live := fun _ _ _ _ hf => by cases hf }
    · exact
        { entry := .of_eq (update_of_ne hj _ _)
          table := ⟨rfl, rfl, le_rfl⟩
          calls := ⟨fun _ => Iff.rfl, fun _ => mem_of_mem_erase⟩
          timer := h.untimeout_same hu hj rfl rfl rfl
          hand := ⟨fun hf => (mem_cons.1 hf).resolve_left hj, fun _ => id, Iff.rfl⟩ }
  · refine h.step_update (i := i) rfl ?_ (fun j hj => ?_)
      (fun site => (h.site site).update (i := i) rfl ⟨⟨Iff.rfl, fun _ => rfl, fun _ => rfl⟩, Iff.rfl⟩ rfl rfl id rfl) rfl rfl rfl rfl rfl h.quiet
      h.sendsNodup (nodup_erase _ h.recvsNodup) h.finsNodup h.armedNodup rfl
    · exact
        { hi with
          free := fun hf => by
            rw [hu] at hf
            cases hf
          sending := fun k hk => absurd hk (hs k)
          recv := fun p hp => absurd hp (hnone p)
          setup := nofun }
    · exact
        { entry := .of_eq (update_of_ne hj _ _)
          table := ⟨rfl, rfl, le_rfl⟩
          calls := ⟨fun _ => Iff.rfl, fun _ => mem_of_mem_erase⟩
          timer := .of_eq rfl rfl rfl
          hand := .of_eq rfl rfl rfl }

theorem recvSlowRequest (h : Inv .idle s) (i rid : ℕ) (stop : Bool) :
    Inv .idle (s.recvSlowRequest i rid stop) := by
  have hi := h.entry i
  rw [UsingSide.recvSlowRequest]
  dsimp only
  split
  · next hc =>
    obtain ⟨-, hu, -⟩ := hc
    suffices hmark : Inv .idle
        { s.setEntry i { s.entries i with slow := true } with
          timers := s.timers.erase (s.entries i).rid } by
      refine hmark.leaveWindow ?_ nofun
      exact (congrArg (fun e : UsingEntry => e.flags.used) (update_self i _ s.entries)).trans hu
    refine h.step_update (i := i) rfl ?_ (fun j hj => ?_)
      (fun site => (h.site site).update (i := i) rfl ⟨⟨Iff.rfl, fun _ => rfl, fun _ => rfl⟩, Iff.rfl⟩ rfl rfl id rfl) rfl rfl rfl rfl rfl
      (fun x hx => ⟨fun ha => (h.quiet x hx).1 (ha.imp_left mem_of_mem_erase), (h.quiet x hx).2⟩)
      h.sendsNodup h.recvsNodup h.finsNodup
      (h.armedNodup.sublist (erase_sublist.append_right _)) rfl
    · exact
        { hi with
          free := fun hf => by
            rw [hu] at hf
            cases hf
          outside := fun hf => by
            obtain ⟨h₁, h₂, h₃, ⟨h₄, h₅⟩, h₆⟩ := hi.outside hf
            exact ⟨h₁, h₂, h₃, ⟨fun ha => h₄ (ha.imp_left mem_of_mem_erase), h₅⟩, h₆⟩
          sending := fun k hk => by
            obtain ⟨h₁, h₂, h₃, h₄⟩ := hi.sending k hk
            exact ⟨h₁, h₂, fun ha => h₃ (ha.imp_left mem_of_mem_erase), h₄⟩
          setup := nofun
          live := fun _ _ _ _ _ hf => by cases hf }
    · exact
        { entry := .of_eq (update_of_ne hj _ _)
          table := ⟨rfl, rfl, le_rfl⟩
          calls := .of_eq rfl rfl
          timer := h.untimeout_same hu hj rfl rfl rfl
          hand := .of_eq rfl rfl rfl }
  · exact h

/-- A `retry_request` that does nothing. -/
theorem drop_firing (h : Inv .idle s)
    (hne : ∀ j, (s.entries j).flags.used = true → (s.entries j).req.dest ≠ none →
      (s.entries j).rid ≠ rid) : Inv .idle { s with firing := s.firing.erase rid } := by
  refine h.same (fun j => ?_) rfl nofun rfl rfl rfl
    (fun x hx => ⟨fun ha => (h.quiet x hx).1 (ha.imp_right mem_of_mem_erase), (h.quiet x hx).2⟩)
    h.sendsNodup h.recvsNodup h.finsNodup
    (h.armedNodup.sublist (erase_sublist.append_left _)) rfl
  exact
    ⟨.of_eq rfl, ⟨rfl, rfl, le_rfl⟩, .of_eq rfl rfl,
      ⟨fun _ => Or.imp id mem_of_mem_erase,
        fun hu hd _ _ => Or.imp id (mem_erase_of_ne (hne j hu hd)).2, fun _ _ => id⟩,
      .of_eq rfl rfl rfl⟩

/-- A `retry_request` that starts its timer again. -/
theorem rearm (h : Inv .idle s) (hrid : rid ∈ s.firing) :
    Inv .idle { s with firing := s.firing.erase rid, timers := rid :: s.timers } := by
  have hperm : (s.timers ++ s.firing).Perm (rid :: s.timers ++ s.firing.erase rid) :=
    ((perm_cons_erase hrid).append_left _).trans perm_middle
  have harmed : ∀ r, UsingSide.Armed { s with
      firing := s.firing.erase rid, timers := rid :: s.timers } r ↔ s.Armed r := by
    intro r
    rw [UsingSide.Armed, UsingSide.Armed, ← mem_append, ← mem_append]
    exact hperm.mem_iff.symm
  exact h.same
    (fun j =>
      ⟨.of_eq rfl, ⟨rfl, rfl, le_rfl⟩, .of_eq rfl rfl,
        ⟨fun _ => (harmed _).1, fun _ _ _ _ => (harmed _).2, fun _ _ => id⟩, .of_eq rfl rfl rfl⟩)
    rfl (by simp) rfl rfl rfl
    (fun x hx => ⟨fun ha => (h.quiet x hx).1 ((harmed _).1 ha), (h.quiet x hx).2⟩)
    h.sendsNodup h.recvsNodup h.finsNodup (hperm.nodup_iff.1 h.armedNodup) rfl

/-- A `retry_request` sends its request. -/
theorem retry_send (h : Inv .idle s) (hu : (s.entries i).flags.used = true)
    (hrid : (s.entries i).rid ∈ s.firing)
    (hprog : (s.entries i).flags.replyInProgress = false) {e : UsingEntry}
    (he : SameEntry (s.entries i) e False False) (hw : ∀ site, SameWindow site (s.entries i) e)
    (hretry : e.flags.retryInProgress = true) :
    Inv .idle { s with
      entries := update s.entries i e
      sends := (i, .retry) :: s.sends
      firing := s.firing.erase (s.entries i).rid } := by
  have hi := h.entry i
  have harm : s.Armed (s.entries i).rid := .inr hrid
  have hs : ∀ k, (i, k) ∉ s.sends := fun k hk => (hi.sending k hk).2.2.1 harm
  have hout : (s.entries i).flags.outsideWindow = false := by
    by_contra hf
    rw [Bool.not_eq_false] at hf
    exact (hi.outside hf).2.2.2.1.1 harm
  have hrecv : ∀ p, (i, p) ∉ s.recvs := by
    intro p hp
    rw [(hi.recv p hp).2.2.2] at hprog
    cases hprog
  have hdis : ¬((s.entries i).rid ∈ s.timers ∨ (s.entries i).rid ∈ s.firing.erase (s.entries i).rid) := by
    have hnd := h.armedNodup
    rw [nodup_append] at hnd
    rintro (hf | hf)
    · exact hnd.2.2 _ hf _ hrid rfl
    · exact hnd.2.1.not_mem_erase hf
  refine h.step_update (i := i) rfl ?_ (fun j hj => ?_)
    (fun site => (h.site site).update (i := i) rfl (hw site) rfl rfl id rfl) he.used he.rid rfl rfl rfl
    (fun x hx => ⟨fun ha => (h.quiet x hx).1 (ha.imp_right mem_of_mem_erase), (h.quiet x hx).2⟩)
    (nodup_begin h.sendsNodup hs) h.recvsNodup h.finsNodup
    (h.armedNodup.sublist (erase_sublist.append_left _)) rfl
  · exact
      { free := fun hf => by
          rw [he.used, hu] at hf
          cases hf
        lt := fun _ => hi.lt hu
        ridNe := fun _ => by
          rw [he.rid]
          exact hi.ridNe hu
        dest := fun _ => by
          rw [he.req]
          exact hi.dest hu
        counted := fun hc => by
          rw [he.outside, he.req]
          exact hi.counted (he.counted hc)
        outside := fun hf => by
          rw [he.outside, hout] at hf
          cases hf
        sending := fun _ _ => by
          rw [he.used, he.outside, he.rid]
          exact ⟨hu, hout, hdis, hrecv⟩
        first := fun k hk hkr => by
          rcases mem_cons.1 hk with heq | hk
          · exact absurd (Prod.mk.inj heq).2 hkr
          · exact absurd hk (hs k)
        retrying := fun _ => hretry
        recv := fun p hp => absurd hp (hrecv p)
        fin := fun hf => by
          rw [he.used, he.done]
          exact hi.fin hf
        setup := nofun
        live := fun _ _ _ _ _ _ => .inr ⟨.retry, mem_cons_self⟩ }
  · have hrid' := h.rid_ne hu hj
    exact
      { entry := .of_eq (update_of_ne hj _ _)
        table := ⟨rfl, rfl, le_rfl⟩
        calls := ⟨fun _ => mem_cons_other hj, fun _ => id⟩
        timer := ⟨fun _ => Or.imp id mem_of_mem_erase,
          fun _ _ _ _ => Or.imp id (mem_erase_of_ne hrid').2, fun _ _ => id⟩
        hand := .of_eq (congrArg (· ++ s.waits) (filterMap_cons_none rfl)) (congrArg (· ++ s.waits) (filterMap_cons_none rfl)) rfl }

theorem retryRequest (h : Inv .idle s) (hrid : rid ∈ s.firing) (more : Bool) :
    Inv .idle (s.retryRequest rid more) := by
  rw [UsingSide.retryRequest]
  split
  · next hnone =>
    refine h.drop_firing fun j hu _ heq => ?_
    rw [UsingSide.findRid, find?_eq_none] at hnone
    exact hnone j (mem_range.2 ((h.entry j).lt hu)) (decide_eq_true heq)
  · next i hi =>
    rw [UsingSide.findRid] at hi
    have heq : (s.entries i).rid = rid := by simpa using find?_some hi
    subst heq
    dsimp only
    split
    · next hzero =>
      have hfree := ((h.entry i).free (congrArg UFlags.used hzero)).2
      refine h.drop_firing fun j hu _ => ?_
      rw [hfree]
      exact (h.entry j).ridNe hu
    · next hzero =>
      have hu : (s.entries i).flags.used = true := by
        by_contra hf
        rw [Bool.not_eq_true] at hf
        exact hzero ((h.entry i).free hf).1
      split
      · exact h.rearm hrid
      · next hbusy =>
        split
        · next hmulti =>
          refine h.drop_firing fun j huj hd heq => ?_
          obtain rfl := h.ridInj j i huj heq
          exact hd hmulti.1
        · have hprog : (s.entries i).flags.replyInProgress = false := by
            by_contra hf
            rw [Bool.not_eq_false] at hf
            exact hbusy (by rw [hf, Bool.true_or])
          have hsend := h.retry_send hu hrid hprog (e := { s.entries i with
              flags := { (s.entries i).flags with retryInProgress := true }
              cantFree := (s.entries i).cantFree || (s.entries i).req.bufp })
            ⟨rfl, fun hf => absurd hf (by rw [hu]; decide), id, rfl, rfl, rfl, rfl, id, rfl, nofun,
              fun _ => id⟩
            (fun _ => ⟨⟨Iff.rfl, fun _ => rfl, fun _ => rfl⟩, Iff.rfl⟩) rfl
          rw [UsingSide.duxSend]
          dsimp only [UsingSide.setEntry]
          rw [update_self, update_idem]
          exact hsend

theorem boot (windowSize size : ℕ) (member : ℕ → Bool) (hwin : windowSize < 2 ^ 16) :
    Inv .idle (.boot windowSize size member) where
  entry _ :=
    { free := fun _ => ⟨rfl, rfl⟩
      lt := nofun
      ridNe := nofun
      dest := nofun
      counted := nofun
      outside := nofun
      sending := nofun
      first := nofun
      retrying := nofun
      recv := nofun
      fin := nofun
      setup := nofun
      live := nofun }
  site _ :=
    { count := (Finset.card_eq_zero.2 (Finset.filter_eq_empty_iff.2 fun _ _ => nofun)).symm
      bound := Nat.zero_le _
      queue := ⟨[], .nil, fun _ => iff_of_false nofun nofun, List.Pairwise.nil,
        fun hne => absurd rfl hne⟩ }
  ridInj := nofun
  gets := nofun
  getsNodup := nodup_nil
  sendsNodup := nodup_nil
  recvsNodup := nodup_nil
  finsNodup := nodup_nil
  armedNodup := nodup_nil
  windowLt := hwin
  panicked := rfl

/-- What every harmless event keeps. -/
theorem run (h : Inv .idle s) {op : Op} (hop : op.Harmless s) (hen : s.Enabled op) :
    Inv .idle (s.run op) := by
  cases op with
  | netRequest r => exact h.netRequest r hop
  | got r rid => exact h.gotEntry hen.1
  | sent i caller complete => exact h.sent hen
  | reply i rid pkt => exact h.recvReply hen
  | taken i pkt last => exact h.replyTaken hen last
  | slow i rid stop => exact h.recvSlowRequest i rid stop
  | fire rid => exact h.fire hen
  | retry rid more => exact h.retryRequest hen more
  | waited i => exact h.waited hen.1 hen.2
  | drained i => exact h.drained i
  | lost i rid => exact h.lost i rid

theorem windowOk (h : Inv .idle s) (site : ℕ) : s.WindowOk site where
  count := (h.site site).count
  bound := (h.site site).bound
  queue := by
    obtain ⟨q, hq, hmem, hord, -⟩ := (h.site site).queue
    refine ⟨q, hq, hmem, fun i hi => ?_, hord⟩
    have hu := (h.entry i).used_of_outside ((hmem i).1 hi).1
    exact ⟨(h.entry i).lt hu, hu⟩
  room hroom := by
    obtain ⟨q, hq, -, -, hfull⟩ := (h.site site).queue
    refine hq.head_none_iff.2 (by_contra fun hne => ?_)
    obtain hf | ⟨hf, -⟩ := hfull hne
    · exact hroom.ne hf
    · cases hf
  tended i _ hu hdest ho hdone hslow := by
    have hne : (s.entries i).req.dest ≠ none := by
      rw [hdest]
      exact nofun
    exact ((h.entry i).live nofun hu hne ho hdone hslow).imp id .inl

end Inv

/-- In every run in which a request gets a `rid` that nothing knows, the window of every site is
right in every state, and no panic is reached. -/
theorem protocol_window {s : UsingSide} (h : (windowSys.restrict fun s op => op.Harmless s).Reach s) :
    s.panicked = false ∧ ∀ site, s.WindowOk site := by
  have hinv : Inv .idle s := by
    refine h.inv ?_ ?_
    · rintro s ⟨windowSize, size, member, hwin, rfl⟩
      exact .boot windowSize size member hwin
    · rintro s op _ - hs ⟨hop, hen, rfl⟩
      exact hs.run hop hen
  exact ⟨hinv.panicked, hinv.windowOk⟩

/-- A request to site 2. -/
def toSite2 : ReqMsg := ⟨some 2, false, false⟩

/-- A window of one request: the second request waits, and the reply to the first one sends it. -/
theorem protocol_window_opens : ∃ s : UsingSide, (s.entries 0).flags = .zero ∧
    (s.clustab 2).reqCount = 1 ∧ s.sends = [] ∧ (s.entries 1).flags.counted = true ∧
    ∀ site, s.WindowOk site := by
  have hrun : ∀ {s : UsingSide} {a : Op}, (windowSys.restrict fun s op => op.Harmless s).Reach s →
      a.Harmless s → s.Enabled a →
      (windowSys.restrict fun s op => op.Harmless s).Reach (s.run a) :=
    fun h ha hen => .step h ⟨ha, hen, rfl⟩
  have h₀ : (windowSys.restrict fun s op => op.Harmless s).Reach
      (.boot 1 2 fun site => decide (site = 2)) := .init ⟨1, 2, _, by decide, rfl⟩
  have h₁ := hrun h₀ (a := .netRequest toSite2) (show UsingSide.Fresh _ _ by decide +kernel) trivial
  have h₂ := hrun h₁ (a := .got toSite2 1) trivial ⟨by decide +kernel, by decide +kernel⟩
  have h₃ := hrun h₂ (a := .netRequest toSite2) (show UsingSide.Fresh _ _ by decide +kernel) trivial
  have h₄ := hrun h₃ (a := .got toSite2 2) trivial ⟨by decide +kernel, by decide +kernel⟩
  have h₅ := hrun h₄ (a := .sent 0 .netRequest true) trivial ⟨by decide +kernel, nofun, nofun⟩
  have h₆ := hrun h₅ (a := .reply 0 1 ⟨0, 10, true⟩) trivial
    ⟨by decide +kernel, by decide +kernel, fun _ hd => absurd hd (by decide +kernel)⟩
  have h₇ := hrun h₆ (a := .taken 0 ⟨0, 10, true⟩ true) trivial
    (show (_, _) ∈ UsingSide.recvs _ by decide +kernel)
  have h₈ := hrun h₇ (a := .sent 1 (.checkWindow 2 (some 0)) true) trivial
    ⟨by decide +kernel, nofun, fun j hj => Option.some.inj hj ▸ by decide +kernel⟩
  exact ⟨_, by decide +kernel, by decide +kernel, by decide +kernel, by decide +kernel,
    (protocol_window h₈).2⟩

/-! ### A request id that wraps -/

/-- The state between two requests, when the last one had the id `n`. -/
def idleAt (n : ℕ) : UsingSide :=
  { UsingSide.boot 12 2 (fun site => decide (site = 2)) with duxRid := n }

/-- An urgent request to site 2. -/
def urgent : ReqMsg := ⟨some 2, true, false⟩

/-- The entry of an urgent request. -/
def urgentEntry (rid : ℕ) : UsingEntry :=
  ⟨{ UFlags.zero with used := true }, 0, rid, urgent, false, none, 0, false, false⟩

/-- A request is sent and answered. -/
theorem reach_idleAt_succ {n : ℕ} (h : windowSys.Reach (idleAt n)) :
    windowSys.Reach (idleAt ((n + 1) % 2 ^ 32)) := by
  generalize hrid : (n + 1) % 2 ^ 32 = rid
  have hrun : ∀ {s s' : UsingSide} (a : Op), windowSys.Reach s → s.Enabled a → s' = s.run a →
      windowSys.Reach s' := fun a h hen hs' => .step h ⟨hen, hs'⟩
  have h₁ : windowSys.Reach { idleAt rid with gets := [(urgent, rid)] } :=
    hrun (.netRequest urgent) h trivial (by subst hrid; rfl)
  have h₂ : windowSys.Reach { idleAt rid with
      entries := update (fun _ => .freed) 0 (urgentEntry rid)
      sends := [(0, .netRequest)] } := by
    refine hrun (.got urgent rid) h₁ ⟨mem_singleton_self _, Option.ne_none_iff_isSome.2 rfl⟩ ?_
    change _ = { idleAt rid with
      gets := [(urgent, rid)].erase (urgent, rid)
      entries := update (update (fun _ => .freed) 0 (urgentEntry rid)) 0 (urgentEntry rid)
      sends := [(0, .netRequest)] }
    rw [erase_cons_head, update_idem]
    rfl
  have h₃ : windowSys.Reach { idleAt rid with
      entries := update (fun _ => .freed) 0 (urgentEntry rid)
      timers := [rid]
      air := [(0, rid)] } := by
    refine hrun (.sent 0 .netRequest true) h₂ ⟨mem_singleton_self _, nofun, nofun⟩ ?_
    change _ = { idleAt rid with
      entries := update (update (fun _ => .freed) 0 (urgentEntry rid)) 0 (urgentEntry rid)
      timers := [rid]
      air := [(0, rid)] }
    rw [update_idem]
  have h₄ : windowSys.Reach { idleAt rid with
      entries := update (fun _ => .freed) 0
        { urgentEntry rid with flags := ⟨true, false, false, true, false, false⟩ }
      recvs := [(0, ⟨0, 1, true⟩)]
      timers := [rid]
      air := [(0, rid)] } := by
    refine hrun (.reply 0 rid ⟨0, 1, true⟩) h₃ ⟨mem_singleton_self _, nofun, nofun⟩ ?_
    have hmatch : ¬((urgentEntry rid).flags = .zero ∨ (urgentEntry rid).rid ≠ rid) := by
      rintro (hf | hf)
      · cases hf
      · exact hf rfl
    refine ((if_neg hmatch).trans ?_).symm
    change { idleAt rid with
      entries := update (update (fun _ => .freed) 0 (urgentEntry rid)) 0
        { urgentEntry rid with flags := ⟨true, false, false, true, false, false⟩ }
      recvs := [(0, ⟨0, 1, true⟩)]
      timers := [rid]
      air := [(0, rid)] } = _
    rw [update_idem]
  have h₅ : windowSys.Reach { idleAt rid with air := [(0, rid)] } := by
    refine hrun (.taken 0 ⟨0, 1, true⟩ true) h₄ (mem_singleton_self _) ?_
    change _ = { idleAt rid with
      entries := update (update (update (fun _ => .freed) 0
          { urgentEntry rid with flags := ⟨true, false, false, true, false, false⟩ }) 0
          { urgentEntry rid with
            flags := ⟨true, false, false, true, false, false⟩
            byteRecved := 1
            done := true }) 0 .freed
      timers := [rid].erase rid
      air := [(0, rid)] }
    rw [update_idem, update_idem, erase_cons_head, update_eq_self 0 fun _ => UsingEntry.freed]
    rfl
  refine hrun (.lost 0 rid) h₅ trivial ?_
  change _ = { idleAt rid with air := [(0, rid)].filter (· ≠ (0, rid)) }
  rw [filter_cons_of_neg (by simp), filter_nil]
  rfl

theorem reach_idleAt {n : ℕ} (hn : n < 2 ^ 32) : windowSys.Reach (idleAt n) := by
  induction n with
  | zero => exact .init ⟨12, 2, _, by decide, rfl⟩
  | succ n ih =>
    have hsucc := reach_idleAt_succ (ih (Nat.lt_of_succ_lt hn))
    rwa [Nat.mod_eq_of_lt hn] at hsucc

/-- The `rid` of a free entry is 0.  When `dux_rid` wraps and a request gets the `rid` 0, its timer
finds a free entry below its own and is not started again: the request is never sent again. -/
theorem protocol_window_rid_zero : ∃ s : UsingSide, windowSys.Reach s ∧ ¬s.WindowOk 2 := by
  have hrun : ∀ {s : UsingSide} {a : Op}, windowSys.Reach s → s.Enabled a →
      windowSys.Reach (s.run a) := fun h hen => .step h ⟨hen, rfl⟩
  have h₀ : windowSys.Reach (idleAt 4294967294) := reach_idleAt (by decide)
  have h₁ := hrun h₀ (a := .netRequest toSite2) trivial
  have h₂ := hrun h₁ (a := .got toSite2 4294967295) ⟨by decide +kernel, by decide +kernel⟩
  have h₃ := hrun h₂ (a := .netRequest toSite2) trivial
  have h₄ := hrun h₃ (a := .got toSite2 0) ⟨by decide +kernel, by decide +kernel⟩
  have h₅ := hrun h₄ (a := .sent 0 .netRequest true) ⟨by decide +kernel, nofun, nofun⟩
  have h₆ := hrun h₅ (a := .sent 1 .netRequest true) ⟨by decide +kernel, nofun, nofun⟩
  have h₇ := hrun h₆ (a := .reply 0 4294967295 ⟨0, 10, true⟩)
    ⟨by decide +kernel, by decide +kernel, fun _ hd => absurd hd (by decide +kernel)⟩
  have h₈ := hrun h₇ (a := .taken 0 ⟨0, 10, true⟩ true)
    (show (_, _) ∈ UsingSide.recvs _ by decide +kernel)
  have h₉ := hrun h₈ (a := .fire 0) (show _ ∈ UsingSide.timers _ by decide +kernel)
  have h₁₀ := hrun h₉ (a := .retry 0 false) (show _ ∈ UsingSide.firing _ by decide +kernel)
  refine ⟨_, h₁₀, fun hok => ?_⟩
  have htended := hok.tended 1 (by decide +kernel) (by decide +kernel) (by decide +kernel)
    (by decide +kernel) (by decide +kernel) (by decide +kernel)
  exact UsingSide.not_tended (by decide +kernel) (by decide +kernel) (by decide +kernel)
    (by decide +kernel) htended

end Window

end Dux

end Hpux
