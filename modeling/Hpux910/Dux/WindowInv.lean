import Hpux910.Dux.Window
import Hpux910.Lib.Census
import Hpux910.Lib.Pending
import Mathlib

/-!
# The invariant of the protocol window

* `UsingSide.Armed`, `UsingSide.Quiet`, `UsingSide.Fresh` : what is under way for a request id.
* `Inv` : the invariant.  Its parameter says what the routine that runs has in hand: a window that
  it has just opened, an entry that it will complete, an entry that it has not sent yet.
* `Same`, `SameQueue`, `SameWindow` : what the invariants of an entry and of a site are about.
* `Inv.windowLoop`, `Inv.leaveWindow`, `Inv.afterCheck` and the others : what the routines keep.
-/

namespace Hpux

namespace Dux

namespace Window

open Function Pending List

namespace UsingSide

variable (s : UsingSide)

/-- The entries counted in the window of a site. -/
def countedFor (site : ℕ) : Finset ℕ :=
  (Finset.range s.size).filter fun i =>
    (s.entries i).flags.counted = true ∧ (s.entries i).req.dest = some site

/-- A `retry_request` is to come. -/
def Armed (rid : ℕ) : Prop := rid ∈ s.timers ∨ rid ∈ s.firing

/-- Nothing is under way for a request id. -/
def Quiet (rid : ℕ) : Prop := ¬s.Armed rid ∧ ∀ i, (i, rid) ∉ s.air

/-- The request goes to sites that are there. -/
def Deliverable (r : ReqMsg) : Prop :=
  ∀ site, r.dest = some site → 1 ≤ site ∧ site < MAXSITE ∧ s.member site = true

theorem deliverable_of {r : ReqMsg} (h : s.deliverable r = true) : s.Deliverable r := by
  intro site hsite
  rw [deliverable, hsite] at h
  dsimp only at h
  rw [Bool.and_eq_true, decide_eq_true_iff] at h
  exact ⟨h.1.1, h.1.2, h.2⟩

/-- A request id that nothing knows. -/
def Fresh (rid : ℕ) : Prop :=
  rid ≠ 0 ∧ (∀ i < s.size, (s.entries i).rid ≠ rid) ∧ (∀ x ∈ s.gets, x.2 ≠ rid) ∧
    rid ∉ s.timers ∧ rid ∉ s.firing ∧ ∀ x ∈ s.air, x.2 ≠ rid

instance (rid : ℕ) : Decidable (s.Fresh rid) := by
  unfold Fresh
  infer_instance

end UsingSide

/-- What the routine that runs has in hand. -/
structure Ctx where
  /-- It has just opened the window of this site. -/
  room : Option ℕ
  /-- It will complete this entry. -/
  hand : Option ℕ
  /-- It has not sent this entry yet. -/
  setup : Option ℕ

/-- Nothing in hand. -/
def Ctx.idle : Ctx := ⟨none, none, none⟩

/-- The entries that some routine will complete. -/
def UsingSide.fins (s : UsingSide) (hand : Option ℕ) : List ℕ :=
  hand.toList ++ (s.sends.filterMap (·.2.reply?) ++ s.waits)

/-- The invariant of an entry. -/
structure EntryOk (c : Ctx) (s : UsingSide) (i : ℕ) (e : UsingEntry) : Prop where
  free : e.flags.used = false → e.flags = .zero ∧ e.rid = 0
  lt : e.flags.used = true → i < s.size
  ridNe : e.flags.used = true → e.rid ≠ 0
  dest : e.flags.used = true → s.Deliverable e.req
  counted : e.flags.counted = true → e.flags.outsideWindow = false ∧
    e.req.dest ≠ none ∧ i ∉ s.fins none
  outside : e.flags.outsideWindow = true → e.done = false ∧
    e.req.dest ≠ none ∧ (∀ k, (i, k) ∉ s.sends) ∧ s.Quiet e.rid ∧
    e.ticket < s.arrivals
  sending : ∀ k, (i, k) ∈ s.sends → e.flags.used = true ∧
    e.flags.outsideWindow = false ∧ ¬s.Armed e.rid ∧
    ∀ p, (i, p) ∉ s.recvs
  first : ∀ k, (i, k) ∈ s.sends → k ≠ .retry →
    e.done = false ∧ ∀ j, (j, e.rid) ∉ s.air
  retrying : (i, .retry) ∈ s.sends → e.flags.retryInProgress = true
  recv : ∀ p, (i, p) ∈ s.recvs → e.flags.used = true ∧ e.done = false ∧
    e.flags.outsideWindow = false ∧ e.flags.replyInProgress = true
  fin : i ∈ s.fins c.hand → e.flags.used = true ∧ e.done = true
  setup : c.setup = some i → e.flags.used = true ∧
    e.flags.outsideWindow = false ∧ e.done = false ∧
    (∀ k, (i, k) ∉ s.sends) ∧ (∀ p, (i, p) ∉ s.recvs) ∧ s.Quiet e.rid
  live : c.setup ≠ some i → e.flags.used = true → e.req.dest ≠ none →
    e.flags.outsideWindow = false → e.done = false →
    e.slow = false → s.Armed e.rid ∨ ∃ k, (i, k) ∈ s.sends

/-- The invariant of a site. -/
structure SiteOk (c : Ctx) (s : UsingSide) (site : ℕ) : Prop where
  count : (s.clustab site).reqCount = (s.countedFor site).card
  bound : (s.clustab site).reqCount ≤ s.windowSize
  queue : ∃ q, IsQueue (fun i => (s.entries i).reqWaitingNext) (s.clustab site).reqWaitingQhead
    (s.clustab site).reqWaitingQtail q ∧
    (∀ i, i ∈ q ↔ (s.entries i).flags.outsideWindow = true ∧ (s.entries i).req.dest = some site) ∧
    q.Pairwise (fun i j => (s.entries i).ticket < (s.entries j).ticket) ∧
    (q ≠ [] → (s.clustab site).reqCount = s.windowSize ∨
      c.room = some site ∧ (s.clustab site).reqCount + 1 = s.windowSize)

/-- The invariant. -/
structure Inv (c : Ctx) (s : UsingSide) : Prop where
  entry : ∀ i, EntryOk c s i (s.entries i)
  site : ∀ site, SiteOk c s site
  ridInj : ∀ i j, (s.entries i).flags.used = true → (s.entries i).rid = (s.entries j).rid → i = j
  gets : ∀ x ∈ s.gets, x.2 ≠ 0 ∧ (∀ i, (s.entries i).rid ≠ x.2) ∧ s.Quiet x.2 ∧ s.Deliverable x.1
  getsNodup : (s.gets.map Prod.snd).Nodup
  sendsNodup : (s.sends.map Prod.fst).Nodup
  recvsNodup : (s.recvs.map Prod.fst).Nodup
  finsNodup : (s.fins c.hand).Nodup
  armedNodup : (s.timers ++ s.firing).Nodup
  windowLt : s.windowSize < 2 ^ 16
  panicked : s.panicked = false

/-! ### What a step leaves alone -/

/-- An entry changes in nothing that its invariant is about, but that it may leave the window, or get
a slow notice; whether a retransmission or a reply is in progress matters only while it is. -/
structure SameEntry (e e' : UsingEntry) (retrying receiving : Prop) : Prop where
  used : e'.flags.used = e.flags.used
  zero : e.flags.used = false → e'.flags = e.flags
  counted : e'.flags.counted = true → e.flags.counted = true
  outside : e'.flags.outsideWindow = e.flags.outsideWindow
  rid : e'.rid = e.rid
  req : e'.req = e.req
  done : e'.done = e.done
  slow : e.slow = true → e'.slow = true
  ticket : e'.ticket = e.ticket
  retry : retrying → e.flags.retryInProgress = true → e'.flags.retryInProgress = true
  reply : receiving → e.flags.replyInProgress = true → e'.flags.replyInProgress = true

theorem SameEntry.of_eq {e e' : UsingEntry} {retrying receiving : Prop} (h : e' = e) :
    SameEntry e e' retrying receiving := by
  subst h
  exact ⟨rfl, fun _ => rfl, id, rfl, rfl, rfl, rfl, id, rfl, fun _ => id, fun _ => id⟩

/-- The size of the table and the cluster do not change. -/
structure SameTable (s s' : UsingSide) : Prop where
  size : s'.size = s.size
  member : s'.member = s.member
  arrivals : s.arrivals ≤ s'.arrivals

/-- No send and no copy of entry `i` begins, and no send of it ends. -/
structure SameCalls (s s' : UsingSide) (i : ℕ) : Prop where
  sends : ∀ k, (i, k) ∈ s'.sends ↔ (i, k) ∈ s.sends
  recvs : ∀ p, (i, p) ∈ s'.recvs → (i, p) ∈ s.recvs

/-- The timer of entry `i` does not change, unless the entry needs none. -/
structure SameTimer (s s' : UsingSide) (i : ℕ) : Prop where
  disarmed : (s.entries i).flags.used = true → s'.Armed (s.entries i).rid → s.Armed (s.entries i).rid
  armed : (s.entries i).flags.used = true → (s.entries i).req.dest ≠ none →
    (s'.entries i).slow = false → (s.entries i).done = false → s.Armed (s.entries i).rid →
    s'.Armed (s.entries i).rid
  air : ∀ j, (s.entries i).flags.used = true → (j, (s.entries i).rid) ∈ s'.air →
    (j, (s.entries i).rid) ∈ s.air

/-- No routine takes entry `i` in hand. -/
structure SameHand (c c' : Ctx) (s s' : UsingSide) (i : ℕ) : Prop where
  fins : i ∈ s'.fins c'.hand → i ∈ s.fins c.hand
  parked : (s.entries i).flags.counted = true → i ∈ s'.fins none → i ∈ s.fins none
  setup : c'.setup = some i ↔ c.setup = some i

/-- Between `s` and `s'` nothing changes that the invariant of entry `i` is about. -/
structure Same (c c' : Ctx) (s s' : UsingSide) (i : ℕ) : Prop where
  entry : SameEntry (s.entries i) (s'.entries i) ((i, .retry) ∈ s'.sends) (∃ p, (i, p) ∈ s'.recvs)
  table : SameTable s s'
  calls : SameCalls s s' i
  timer : SameTimer s s' i
  hand : SameHand c c' s s' i

variable {c c' : Ctx} {s s' : UsingSide} {i : ℕ}

theorem SameCalls.of_eq (hsends : s'.sends = s.sends) (hrecvs : s'.recvs = s.recvs) :
    SameCalls s s' i where
  sends k := by rw [hsends]
  recvs p hp := hrecvs ▸ hp

theorem SameTimer.of_eq (htimers : s'.timers = s.timers) (hfiring : s'.firing = s.firing)
    (hair : s'.air = s.air) : SameTimer s s' i where
  disarmed _ ha := by rwa [UsingSide.Armed, htimers, hfiring] at ha
  armed _ _ _ _ ha := by rwa [UsingSide.Armed, htimers, hfiring]
  air j _ hj := hair ▸ hj

theorem SameHand.of_eq (hhand : s'.fins c'.hand = s.fins c.hand) (hparked : s'.fins none = s.fins none)
    (hsetup : c'.setup = c.setup) : SameHand c c' s s' i where
  fins hf := hhand ▸ hf
  parked _ hf := hparked ▸ hf
  setup := by rw [hsetup]

/-- All but the entries and the windows. -/
def UsingSide.calls (s : UsingSide) :=
  (s.size, s.member, s.arrivals, s.sends, s.recvs, s.waits, s.timers, s.firing, s.air)

theorem Same.other (hentry : s'.entries i = s.entries i) (hcalls : s'.calls = s.calls)
    (hc : (c'.hand, c'.setup) = (c.hand, c.setup)) : Same c c' s s' i := by
  simp only [UsingSide.calls, Prod.mk.injEq] at hcalls hc
  obtain ⟨h₁, h₂, h₃, h₄, h₅, h₆, h₇, h₈, h₉⟩ := hcalls
  refine ⟨.of_eq hentry, ⟨h₁, h₂, h₃.ge⟩, .of_eq h₄ h₅, .of_eq h₇ h₈ h₉, .of_eq ?_ ?_ hc.2⟩
  · rw [UsingSide.fins, UsingSide.fins, h₄, h₆, hc.1]
  · rw [UsingSide.fins, UsingSide.fins, h₄, h₆]

theorem setup_iff {j : ℕ} (hj : j ≠ i) : (none : Option ℕ) = some j ↔ some i = some j :=
  ⟨nofun, fun heq => absurd (Option.some.inj heq).symm hj⟩

variable {e : UsingEntry}

theorem EntryOk.used_of_outside (h : EntryOk c s i e)
    (ho : e.flags.outsideWindow = true) : e.flags.used = true := by
  by_contra hu
  rw [Bool.not_eq_true] at hu
  rw [(h.free hu).1] at ho
  cases ho

theorem EntryOk.used_of_counted (h : EntryOk c s i e)
    (hc : e.flags.counted = true) : e.flags.used = true := by
  by_contra hu
  rw [Bool.not_eq_true] at hu
  rw [(h.free hu).1] at hc
  cases hc

theorem EntryOk.same (h : EntryOk c s i (s.entries i)) (hs : Same c c' s s' i) :
    EntryOk c' s' i (s'.entries i) where
  free hu := by
    rw [hs.entry.used] at hu
    rw [hs.entry.zero hu, hs.entry.rid]
    exact h.free hu
  lt hu := by
    rw [hs.table.size]
    exact h.lt (hs.entry.used ▸ hu)
  ridNe hu := by
    rw [hs.entry.rid]
    exact h.ridNe (hs.entry.used ▸ hu)
  dest hu := by
    rw [hs.entry.req, UsingSide.Deliverable, hs.table.member]
    exact h.dest (hs.entry.used ▸ hu)
  counted hc := by
    obtain ⟨h₁, h₂, h₃⟩ := h.counted (hs.entry.counted hc)
    rw [hs.entry.outside, hs.entry.req]
    exact ⟨h₁, h₂, fun hi => h₃ (hs.hand.parked (hs.entry.counted hc) hi)⟩
  outside ho := by
    have ho' := hs.entry.outside ▸ ho
    obtain ⟨h₁, h₂, h₃, ⟨h₄, h₅⟩, h₆⟩ := h.outside ho'
    rw [hs.entry.done, hs.entry.req, hs.entry.rid, hs.entry.ticket]
    exact ⟨h₁, h₂, fun k hk => h₃ k ((hs.calls.sends k).1 hk),
      ⟨fun ha => h₄ (hs.timer.disarmed (h.used_of_outside ho') ha), fun j hj => h₅ j (hs.timer.air j (h.used_of_outside ho') hj)⟩,
      h₆.trans_le hs.table.arrivals⟩
  sending k hk := by
    rw [hs.entry.used, hs.entry.outside, hs.entry.rid]
    obtain ⟨h₁, h₂, h₃, h₄⟩ := h.sending k ((hs.calls.sends k).1 hk)
    exact ⟨h₁, h₂, fun ha => h₃ (hs.timer.disarmed h₁ ha), fun p hp => h₄ p (hs.calls.recvs p hp)⟩
  first k hk hr := by
    rw [hs.entry.done, hs.entry.rid]
    obtain ⟨h₁, h₂⟩ := h.first k ((hs.calls.sends k).1 hk) hr
    exact ⟨h₁, fun j hj => h₂ j (hs.timer.air j (h.sending k ((hs.calls.sends k).1 hk)).1 hj)⟩
  retrying hk := hs.entry.retry hk (h.retrying ((hs.calls.sends _).1 hk))
  recv p hp := by
    rw [hs.entry.used, hs.entry.done, hs.entry.outside]
    obtain ⟨h₁, h₂, h₃, h₄⟩ := h.recv p (hs.calls.recvs p hp)
    exact ⟨h₁, h₂, h₃, hs.entry.reply ⟨p, hp⟩ h₄⟩
  fin hi := by
    rw [hs.entry.used, hs.entry.done]
    exact h.fin (hs.hand.fins hi)
  setup hi := by
    obtain ⟨h₁, h₂, h₃, h₄, h₅, h₆, h₇⟩ := h.setup (hs.hand.setup.1 hi)
    rw [hs.entry.used, hs.entry.outside, hs.entry.done, hs.entry.rid]
    exact ⟨h₁, h₂, h₃, fun k hk => h₄ k ((hs.calls.sends k).1 hk), fun p hp => h₅ p (hs.calls.recvs p hp),
      fun ha => h₆ (hs.timer.disarmed h₁ ha), fun j hj => h₇ j (hs.timer.air j h₁ hj)⟩
  live hi hu hd ho hdone hslow := by
    rw [hs.entry.rid]
    rw [hs.entry.used] at hu
    rw [hs.entry.req] at hd
    rw [hs.entry.outside] at ho
    rw [hs.entry.done] at hdone
    have hslow' : (s.entries i).slow = false := by
      by_contra hf
      rw [Bool.not_eq_false] at hf
      rw [hs.entry.slow hf] at hslow
      cases hslow
    obtain hl | ⟨k, hk⟩ := h.live (fun hc => hi (hs.hand.setup.2 hc)) hu hd ho hdone hslow'
    · exact .inl (hs.timer.armed hu hd hslow hdone hl)
    · exact .inr ⟨k, (hs.calls.sends k).2 hk⟩

/-- The entry is counted in the window of a site. -/
def UsingEntry.CountedFor (e : UsingEntry) (site : ℕ) : Prop :=
  e.flags.counted = true ∧ e.req.dest = some site

/-- The entry waits outside the window of a site. -/
def UsingEntry.WaitsFor (e : UsingEntry) (site : ℕ) : Prop :=
  e.flags.outsideWindow = true ∧ e.req.dest = some site

/-- An entry changes in nothing that the waiting queue of a site is about. -/
structure SameQueue (site : ℕ) (e e' : UsingEntry) : Prop where
  waits : e'.WaitsFor site ↔ e.WaitsFor site
  ticket : e.WaitsFor site → e'.ticket = e.ticket
  next : e.WaitsFor site → e'.reqWaitingNext = e.reqWaitingNext

/-- An entry changes in nothing that the invariant of a site is about. -/
structure SameWindow (site : ℕ) (e e' : UsingEntry) : Prop extends SameQueue site e e' where
  counted : e'.CountedFor site ↔ e.CountedFor site

theorem SameQueue.refl (site : ℕ) (e : UsingEntry) : SameQueue site e e :=
  ⟨Iff.rfl, fun _ => rfl, fun _ => rfl⟩

theorem SameWindow.refl (site : ℕ) (e : UsingEntry) : SameWindow site e e :=
  ⟨.refl site e, Iff.rfl⟩

variable {site : ℕ}

theorem SameWindow.of_dest {e e' : UsingEntry} (h : e.req.dest ≠ some site)
    (h' : e'.req.dest ≠ some site) : SameWindow site e e' where
  counted := iff_of_false (fun hc => h' hc.2) fun hc => h hc.2
  waits := iff_of_false (fun hw => h' hw.2) fun hw => h hw.2
  ticket hw := absurd hw.2 h
  next hw := absurd hw.2 h

theorem SiteOk.queue_same (h : SiteOk c s site)
    (hsame : ∀ i, SameQueue site (s.entries i) (s'.entries i))
    (hhead : (s'.clustab site).reqWaitingQhead = (s.clustab site).reqWaitingQhead)
    (htail : (s'.clustab site).reqWaitingQtail = (s.clustab site).reqWaitingQtail) :
    ∃ q, IsQueue (fun i => (s'.entries i).reqWaitingNext) (s'.clustab site).reqWaitingQhead
      (s'.clustab site).reqWaitingQtail q ∧ (∀ i, i ∈ q ↔ (s'.entries i).flags.outsideWindow = true ∧
        (s'.entries i).req.dest = some site) ∧
      q.Pairwise (fun i j => (s'.entries i).ticket < (s'.entries j).ticket) ∧
      (q ≠ [] → (s.clustab site).reqCount = s.windowSize ∨
        c.room = some site ∧ (s.clustab site).reqCount + 1 = s.windowSize) := by
  obtain ⟨q, hq, hmem, hord, hfull⟩ := h.queue
  refine ⟨q, ?_, fun i => (hmem i).trans (hsame i).waits.symm, ?_, hfull⟩
  · rw [hhead, htail]
    exact hq.congr fun i hi => (hsame i).next ((hmem i).1 hi)
  · refine hord.imp_of_mem fun {i j} hi hj hij => ?_
    rwa [(hsame i).ticket ((hmem i).1 hi), (hsame j).ticket ((hmem j).1 hj)]

/-- A site whose `clustab` entry does not change, nor any entry of it in a way that matters. -/
theorem SiteOk.same (h : SiteOk c s site)
    (hsame : ∀ i, SameWindow site (s.entries i) (s'.entries i)) (hsize : s'.size = s.size)
    (hwin : s'.windowSize = s.windowSize) (hroom : c.room = some site → c'.room = some site)
    (hcct : s'.clustab site = s.clustab site) : SiteOk c' s' site where
  count := by
    rw [hcct, h.count, UsingSide.countedFor, UsingSide.countedFor, hsize]
    exact congrArg Finset.card (Finset.filter_congr fun i _ => (hsame i).counted.symm)
  bound := by
    rw [hcct, hwin]
    exact h.bound
  queue := by
    obtain ⟨q, hq, hmem, hord, hfull⟩ := h.queue_same (fun i => (hsame i).toSameQueue)
      (congrArg Cct.reqWaitingQhead hcct) (congrArg Cct.reqWaitingQtail hcct)
    refine ⟨q, hq, hmem, hord, fun hne => ?_⟩
    rw [hcct, hwin]
    exact (hfull hne).imp id fun hr => ⟨hroom hr.1, hr.2⟩

theorem SameQueue.update (hentries : s'.entries = update s.entries i e)
    (he : SameQueue site (s.entries i) e) (j : ℕ) : SameQueue site (s.entries j) (s'.entries j) := by
  revert j
  rw [hentries, forall_update_iff s.entries fun j e => SameQueue site (s.entries j) e]
  exact ⟨he, fun _ _ => .refl site _⟩

theorem SiteOk.update (h : SiteOk c s site)
    (hentries : s'.entries = update s.entries i e) (he : SameWindow site (s.entries i) e)
    (hsize : s'.size = s.size) (hwin : s'.windowSize = s.windowSize)
    (hroom : c.room = some site → c'.room = some site)
    (hcct : s'.clustab site = s.clustab site) : SiteOk c' s' site := by
  refine h.same ?_ hsize hwin hroom hcct
  rw [hentries, forall_update_iff s.entries fun j e => SameWindow site (s.entries j) e]
  exact ⟨he, fun _ _ => .refl site _⟩

namespace Inv

theorem rid_ne (h : Inv c s) (hu : (s.entries i).flags.used = true) {j : ℕ} (hj : j ≠ i) :
    (s.entries j).rid ≠ (s.entries i).rid :=
  fun heq => hj (h.ridInj i j hu heq.symm).symm

/-- A step that takes no entry and frees none. -/
theorem step (h : Inv c s) (hentry : ∀ i, EntryOk c' s' i (s'.entries i))
    (hsite : ∀ site, SiteOk c' s' site)
    (hused : ∀ i, (s'.entries i).flags.used = (s.entries i).flags.used)
    (hrid : ∀ i, (s'.entries i).rid = (s.entries i).rid) (hmember : s'.member = s.member)
    (hwin : s'.windowSize = s.windowSize) (hgets : s'.gets = s.gets)
    (hquiet : ∀ x ∈ s.gets, s'.Quiet x.2) (hsends : (s'.sends.map Prod.fst).Nodup)
    (hrecvs : (s'.recvs.map Prod.fst).Nodup) (hfins : (s'.fins c'.hand).Nodup)
    (harmed : (s'.timers ++ s'.firing).Nodup)
    (hpanic : s'.panicked = s.panicked) : Inv c' s' where
  entry := hentry
  site := hsite
  ridInj i j hu heq := by
    rw [hused] at hu
    rw [hrid, hrid] at heq
    exact h.ridInj i j hu heq
  gets x hx := by
    rw [hgets] at hx
    obtain ⟨h₁, h₂, -, h₄⟩ := h.gets x hx
    refine ⟨h₁, fun i => ?_, hquiet x hx, ?_⟩
    · rw [hrid]
      exact h₂ i
    · rw [UsingSide.Deliverable, hmember]
      exact h₄
  getsNodup := hgets ▸ h.getsNodup
  sendsNodup := hsends
  recvsNodup := hrecvs
  finsNodup := hfins
  armedNodup := harmed
  windowLt := hwin ▸ h.windowLt
  panicked := hpanic.trans h.panicked

end Inv

/-! ### The lists of calls in progress -/

namespace UsingSide

theorem fins_erase {k : Sender} (hk : (i, k) ∈ s.sends) : (s.fins none).Perm
      (k.reply?.toList ++ ((s.sends.erase (i, k)).filterMap (·.2.reply?) ++ s.waits)) := by
  have hperm := (perm_cons_erase hk).filterMap (fun x : ℕ × Sender => x.2.reply?)
  refine (hperm.append_right s.waits).trans ?_
  rw [filterMap_cons]
  cases k.reply? <;> exact List.Perm.refl _

theorem fins_cons (k : Sender) (waits : List ℕ) :
    (((i, k) :: s.sends).filterMap (·.2.reply?) ++ waits).Perm
      (k.reply?.toList ++ (s.sends.filterMap (·.2.reply?) ++ waits)) := by
  rw [filterMap_cons]
  cases k.reply? <;> exact List.Perm.refl _

theorem mem_fins_none {hand : Option ℕ} (h : i ∈ s.fins none) : i ∈ s.fins hand :=
  mem_append_right _ h

end UsingSide

namespace Inv

/-- A step that changes no entry. -/
theorem same (h : Inv c s) (hsame : ∀ i, Same c c' s s' i) (hentries : s'.entries = s.entries)
    (hroom : ∀ site, c.room = some site → c'.room = some site) (hcct : s'.clustab = s.clustab)
    (hwin : s'.windowSize = s.windowSize) (hgets : s'.gets = s.gets)
    (hquiet : ∀ x ∈ s.gets, s'.Quiet x.2) (hsends : (s'.sends.map Prod.fst).Nodup)
    (hrecvs : (s'.recvs.map Prod.fst).Nodup) (hfins : (s'.fins c'.hand).Nodup)
    (harmed : (s'.timers ++ s'.firing).Nodup) (hpanic : s'.panicked = s.panicked) : Inv c' s' := by
  refine h.step (fun i => (h.entry i).same (hsame i)) (fun site => ?_) ?_ ?_ (hsame 0).table.member hwin
    hgets hquiet hsends hrecvs hfins harmed hpanic
  · refine (h.site site).same ?_ (hsame 0).table.size hwin (hroom site) (by rw [hcct])
    rw [hentries]
    exact fun _ => .refl site _
  · rw [hentries]
    exact fun _ => rfl
  · rw [hentries]
    exact fun _ => rfl

/-- A step that changes one entry. -/
theorem step_update {e : UsingEntry} (h : Inv c s) (hentries : s'.entries = update s.entries i e)
    (hentry : EntryOk c' s' i e) (hother : ∀ j, j ≠ i → Same c c' s s' j)
    (hsite : ∀ site, SiteOk c' s' site) (hused : e.flags.used = (s.entries i).flags.used)
    (hrid : e.rid = (s.entries i).rid) (hmember : s'.member = s.member)
    (hwin : s'.windowSize = s.windowSize) (hgets : s'.gets = s.gets)
    (hquiet : ∀ x ∈ s.gets, s'.Quiet x.2) (hsends : (s'.sends.map Prod.fst).Nodup)
    (hrecvs : (s'.recvs.map Prod.fst).Nodup) (hfins : (s'.fins c'.hand).Nodup)
    (harmed : (s'.timers ++ s'.firing).Nodup) (hpanic : s'.panicked = s.panicked) : Inv c' s' := by
  refine h.step (fun j => ?_) hsite ?_ ?_ hmember hwin hgets hquiet hsends hrecvs hfins harmed hpanic
  · rcases eq_or_ne j i with rfl | hj
    · rw [hentries, update_self]
      exact hentry
    · exact (h.entry j).same (hother j hj)
  · rw [hentries, forall_update_iff s.entries fun j e => e.flags.used = (s.entries j).flags.used]
    exact ⟨hused, fun _ _ => rfl⟩
  · rw [hentries, forall_update_iff s.entries fun j e => e.rid = (s.entries j).rid]
    exact ⟨hrid, fun _ _ => rfl⟩

theorem quiet (h : Inv c s) : ∀ x ∈ s.gets, s.Quiet x.2 := fun x hx => (h.gets x hx).2.2.1

/-- The first `dux_send` of a request. -/
theorem duxSend {room hand : Option ℕ} (h : Inv ⟨room, hand, some i⟩ s) {k : Sender}
    (hk : k ≠ .retry) (hhand : k.reply? = hand)
    (hcount : ∀ j, hand = some j → (s.entries j).flags.counted = false) :
    Inv ⟨room, none, none⟩ (s.duxSend i k) := by
  obtain ⟨hu, ho, hd, hs, hr, hq⟩ := (h.entry i).setup rfl
  have hfins : ((s.duxSend i k).fins none).Perm (s.fins hand) := by
    subst hhand
    exact UsingSide.fins_cons k s.waits
  have hparked : ∀ j, (s.entries j).flags.counted = true → j ∈ (s.duxSend i k).fins none →
      j ∈ s.fins none := by
    intro j hc hj
    rcases mem_append.1 (hfins.mem_iff.1 hj) with hj | hj
    · rw [hcount j (Option.mem_toList.1 hj)] at hc
      cases hc
    · exact hj
  have hi := h.entry i
  refine h.step_update (i := i) rfl ?_ (fun j hj => ?_) (fun site => ?_) rfl rfl rfl rfl rfl h.quiet
    (nodup_begin h.sendsNodup hs) h.recvsNodup (hfins.nodup_iff.2 h.finsNodup) h.armedNodup rfl
  · exact
      { hi with
        counted := fun hc => ⟨(hi.counted hc).1, (hi.counted hc).2.1, fun hf =>
          (hi.counted hc).2.2 (hparked i hc hf)⟩
        outside := fun hout => absurd hout (by rw [ho]; decide)
        sending := fun _ _ => ⟨hu, ho, hq.1, hr⟩
        first := fun _ _ _ => ⟨hd, hq.2⟩
        retrying := fun hmem => by
          rcases mem_cons.1 hmem with heq | hmem
          · exact absurd (Prod.mk.inj heq).2.symm hk
          · exact absurd hmem (hs _)
        fin := fun hf => hi.fin (hfins.mem_iff.1 hf)
        setup := nofun
        live := fun _ _ _ _ _ _ => .inr ⟨k, mem_cons_self⟩ }
  · exact
      { entry := .of_eq (update_of_ne hj _ _)
        table := ⟨rfl, rfl, le_rfl⟩
        calls := ⟨fun _ => mem_cons_other hj, fun _ => id⟩
        timer := .of_eq rfl rfl rfl
        hand := ⟨hfins.mem_iff.1, hparked j, setup_iff hj⟩ }
  · exact (h.site site).update (i := i) rfl ⟨⟨Iff.rfl, fun _ => rfl, fun _ => rfl⟩, Iff.rfl⟩ rfl rfl id rfl

/-- Taking the head of the waiting queue into the window that has just opened. -/
theorem takeHead {site : ℕ} {hand : Option ℕ} (h : Inv ⟨some site, hand, none⟩ s)
    (hhead : (s.clustab site).reqWaitingQhead = some i)
    (hroom : (s.clustab site).reqCount < s.windowSize) :
    Inv ⟨none, hand, some i⟩ (s.takeHead site i) := by
  obtain ⟨q, hq, hmem, hord, hfull⟩ := (h.site site).queue
  obtain ⟨r, rfl⟩ := (hhead ▸ hq).eq_cons
  have hwait := (hmem i).1 mem_cons_self
  obtain ⟨hout, hdest⟩ := hwait
  have hi := h.entry i
  obtain ⟨hd, hne, hs, hquiet, -⟩ := hi.outside hout
  have hu := hi.used_of_outside hout
  have hcount : (s.entries i).flags.counted = false := by
    by_contra hc
    rw [Bool.not_eq_false] at hc
    rw [(hi.counted hc).1] at hout
    cases hout
  have hfin : i ∉ s.fins hand := by
    intro hf
    rw [(hi.fin hf).2] at hd
    cases hd
  have hrecv : ∀ p, (i, p) ∉ s.recvs := by
    intro p hp
    rw [(hi.recv p hp).2.2.1] at hout
    cases hout
  have hone : (s.clustab site).reqCount + 1 = s.windowSize := by
    obtain hf | ⟨-, hf⟩ := hfull (cons_ne_nil i r)
    · omega
    · exact hf
  have hmod : ((s.clustab site).reqCount + 1) % 2 ^ 16 = (s.clustab site).reqCount + 1 :=
    Nat.mod_eq_of_lt (by rw [hone]; exact h.windowLt)
  refine h.step_update (i := i) rfl ?_ (fun j hj => ?_) (fun site' => ?_) rfl rfl rfl rfl rfl h.quiet
    h.sendsNodup h.recvsNodup h.finsNodup h.armedNodup ?_
  · exact
      { hi with
        free := fun hf => by
          rw [hu] at hf
          cases hf
        counted := fun _ => ⟨rfl, hne, fun hf => hfin (UsingSide.mem_fins_none hf)⟩
        outside := nofun
        sending := fun k hk => absurd hk (hs k)
        recv := fun p hp => absurd hp (hrecv p)
        setup := fun _ => ⟨hu, rfl, hd, hs, hrecv, hquiet⟩
        live := fun hf => absurd rfl hf }
  · exact
      { entry := .of_eq (update_of_ne hj _ _)
        table := ⟨rfl, rfl, le_rfl⟩
        calls := .of_eq rfl rfl
        timer := .of_eq rfl rfl rfl
        hand := ⟨id, fun _ => id, (setup_iff hj).symm⟩ }
  · rcases eq_or_ne site' site with rfl | hsite
    · have hcct : (s.takeHead site' i).clustab site' = ⟨((s.clustab site').reqCount + 1) % 2 ^ 16,
          (s.entries i).reqWaitingNext, if (s.entries i).reqWaitingNext = none then none
            else (s.clustab site').reqWaitingQtail⟩ := update_self _ _ _
      refine ⟨?_, ?_, r, ?_, fun j => ?_, ?_, fun _ => .inl ?_⟩
      · rw [hcct]
        change ((s.clustab site').reqCount + 1) % 2 ^ 16 = _
        rw [hmod, (h.site site').count]
        refine (card_filter_gain (Finset.mem_range.2 (hi.lt hu)) ?_ ?_ fun j _ hj => ?_).symm
        · rw [hcount]
          exact fun hc => absurd hc.1 (by decide)
        · have he : (s.takeHead site' i).entries i = _ := update_self i _ s.entries
          rw [he]
          exact ⟨rfl, hdest⟩
        · have he : (s.takeHead site' i).entries j = _ := update_of_ne hj _ s.entries
          rw [he]
      · rw [hcct]
        exact (hmod.trans hone).le
      · rw [hcct]
        refine hq.pop fun j hj => ?_
        have hji : j ≠ i := by
          rintro rfl
          exact (nodup_cons.1 hq.nodup).1 hj
        exact congrArg UsingEntry.reqWaitingNext (update_of_ne hji _ s.entries)
      · rcases eq_or_ne j i with rfl | hj
        · have he : (s.takeHead site' j).entries j = _ := update_self j _ s.entries
          rw [he]
          exact iff_of_false (nodup_cons.1 hq.nodup).1 nofun
        · have he : (s.takeHead site' i).entries j = _ := update_of_ne hj _ s.entries
          rw [he, ← hmem j, mem_cons, or_iff_right hj]
      · refine (pairwise_cons.1 hord).2.imp_of_mem fun {j k} hj hk hjk => ?_
        have hji : j ≠ i := by
          rintro rfl
          exact (nodup_cons.1 hq.nodup).1 hj
        have hki : k ≠ i := by
          rintro rfl
          exact (nodup_cons.1 hq.nodup).1 hk
        have hej : (s.takeHead site' i).entries j = _ := update_of_ne hji _ s.entries
        have hek : (s.takeHead site' i).entries k = _ := update_of_ne hki _ s.entries
        rw [hej, hek]
        exact hjk
      · rw [hcct]
        exact hmod.trans hone
    · have hdest' : (s.entries i).req.dest ≠ some site' := by
        rw [hdest]
        exact fun heq => hsite (Option.some.inj heq).symm
      exact (h.site site').update (i := i) rfl (.of_dest hdest' hdest') rfl rfl
        (fun heq => absurd (Option.some.inj heq).symm hsite) (update_of_ne hsite _ _)
  · change (s.panicked || !(s.entries i).flags.used || !(s.entries i).flags.outsideWindow) = _
    rw [h.panicked, hu, hout]
    rfl

theorem not_fin_of_setup {room hand : Option ℕ} (h : Inv ⟨room, hand, some i⟩ s) : i ∉ s.fins hand := by
  intro hf
  have hd := ((h.entry i).fin hf).2
  rw [((h.entry i).setup rfl).2.2.1] at hd
  cases hd

/-- There is room: the request is counted. -/
theorem countIn {site : ℕ} (h : Inv ⟨none, none, some i⟩ s)
    (hdest : (s.entries i).req.dest = some site) (hcount : (s.entries i).flags.counted = false)
    (hroom : (s.clustab site).reqCount < s.windowSize) :
    Inv ⟨none, none, some i⟩ (s.countIn site i) := by
  have hi := h.entry i
  obtain ⟨hu, ho, hd, hs, hr, hq⟩ := hi.setup rfl
  have hmod : ((s.clustab site).reqCount + 1) % 2 ^ 16 = (s.clustab site).reqCount + 1 :=
    Nat.mod_eq_of_lt (by have := h.windowLt; omega)
  refine h.step_update (i := i) rfl ?_ (fun j hj => .other (update_of_ne hj _ _) rfl rfl)
    (fun site' => ?_) rfl rfl rfl rfl rfl h.quiet h.sendsNodup h.recvsNodup h.finsNodup h.armedNodup rfl
  · exact
      { hi with
        free := fun hf => by
          rw [hu] at hf
          cases hf
        counted := fun _ => ⟨ho, by rw [hdest]; exact nofun, h.not_fin_of_setup⟩ }
  · rcases eq_or_ne site' site with rfl | hsite
    · have hcct : (s.countIn site' i).clustab site' = _ := update_self site' _ s.clustab
      obtain ⟨q, hqueue, hmem, hord, hfull⟩ := (h.site site').queue
      have hnil : q = [] := by
        by_contra hne
        obtain hf | ⟨hf, -⟩ := hfull hne
        · omega
        · cases hf
      subst hnil
      refine ⟨?_, ?_, [], ?_, fun j => ?_, List.Pairwise.nil, fun hne => absurd rfl hne⟩
      · rw [hcct]
        change ((s.clustab site').reqCount + 1) % 2 ^ 16 = _
        rw [hmod, (h.site site').count]
        refine (card_filter_gain (Finset.mem_range.2 (hi.lt hu)) ?_ ?_ fun j _ hj => ?_).symm
        · rw [hcount]
          exact fun hc => absurd hc.1 (by decide)
        · have he : (s.countIn site' i).entries i = _ := update_self i _ s.entries
          rw [he]
          exact ⟨rfl, hdest⟩
        · have he : (s.countIn site' i).entries j = _ := update_of_ne hj _ s.entries
          rw [he]
      · rw [hcct]
        exact hmod.trans_le hroom
      · rw [hcct]
        exact hqueue.congr nofun
      · rw [hmem j]
        rcases eq_or_ne j i with rfl | hj
        · have he : (s.countIn site' j).entries j = _ := update_self j _ s.entries
          rw [he]
        · have he : (s.countIn site' i).entries j = _ := update_of_ne hj _ s.entries
          rw [he]
    · have hdest' : (s.entries i).req.dest ≠ some site' := by
        rw [hdest]
        exact fun heq => hsite (Option.some.inj heq).symm
      exact (h.site site').update (i := i) rfl (.of_dest hdest' hdest') rfl rfl nofun
        (update_of_ne hsite _ _)

end Inv

theorem UsingSide.linkTail_eq {q : List ℕ} {next : ℕ → Option ℕ}
    (hq : IsQueue next (s.clustab site).reqWaitingQhead (s.clustab site).reqWaitingQtail q) (j : ℕ) :
    s.linkTail site i j = if (s.clustab site).reqWaitingQtail = some j then
        { s.entries j with reqWaitingNext := some i }
      else s.entries j := by
  rw [UsingSide.linkTail]
  cases q with
  | nil =>
    have hh : (s.clustab site).reqWaitingQhead = none := hq.head_eq
    have ht : (s.clustab site).reqWaitingQtail = none := hq.tail_eq
    rw [hh, ht, if_neg nofun]
  | cons a r =>
    have hh : (s.clustab site).reqWaitingQhead = some a := hq.head_eq
    obtain ⟨t, ht⟩ : ∃ t, (s.clustab site).reqWaitingQtail = some t :=
      ⟨_, hq.tail_eq.trans (getLast?_eq_some_getLast (cons_ne_nil a r))⟩
    rw [hh, ht]
    rcases eq_or_ne j t with rfl | hjt
    · rw [if_pos rfl]
      exact update_self _ _ _
    · rw [if_neg fun heq => hjt (Option.some.inj heq).symm]
      exact update_of_ne hjt _ _

namespace Inv

/-- The window is full: the request waits. -/
theorem waitOutside {site : ℕ} (h : Inv ⟨none, none, some i⟩ s)
    (hdest : (s.entries i).req.dest = some site) (hcount : (s.entries i).flags.counted = false)
    (hfull : s.windowSize ≤ (s.clustab site).reqCount) : Inv .idle (s.waitOutside site i) := by
  have hi := h.entry i
  obtain ⟨hu, ho, hd, hs, hr, hq⟩ := hi.setup rfl
  obtain ⟨q, hqueue, hmem, hord, -⟩ := (h.site site).queue
  have hiq : i ∉ q := by
    intro hf
    rw [((hmem i).1 hf).1] at ho
    cases ho
  have htail : (s.clustab site).reqWaitingQtail ≠ some i := by
    intro hf
    rw [hqueue.tail_eq] at hf
    exact hiq (mem_of_getLast? hf)
  have hself : (s.waitOutside site i).entries i =
      { s.entries i with
        flags := { (s.entries i).flags with outsideWindow := true }
        reqWaitingNext := none
        ticket := s.arrivals } := by
    refine (update_self _ _ _).trans ?_
    rw [UsingSide.linkTail_eq hqueue, if_neg htail]
  have hother : ∀ {j}, j ≠ i → (s.waitOutside site i).entries j =
      if (s.clustab site).reqWaitingQtail = some j then
        { s.entries j with reqWaitingNext := some i }
      else s.entries j :=
    fun hj => (update_of_ne hj _ _).trans (UsingSide.linkTail_eq hqueue _)
  have hsame : ∀ j, j ≠ i → Same ⟨none, none, some i⟩ .idle s (s.waitOutside site i) j := by
    intro j hj
    refine ⟨?_, ⟨rfl, rfl, Nat.le_succ _⟩, .of_eq rfl rfl, .of_eq rfl rfl rfl,
      ⟨id, fun _ => id, setup_iff hj⟩⟩
    rw [hother hj]
    split
    · exact ⟨rfl, fun _ => rfl, id, rfl, rfl, rfl, rfl, id, rfl, fun _ => id, fun _ => id⟩
    · exact .of_eq rfl
  have hwindow : ∀ site' j, j ≠ i → site' ≠ site →
      SameWindow site' (s.entries j) ((s.waitOutside site i).entries j) := by
    intro site' j hj hsite
    rw [hother hj]
    split
    · next htj =>
      rw [hqueue.tail_eq] at htj
      have hjd := ((hmem j).1 (mem_of_getLast? htj)).2
      exact ⟨⟨Iff.rfl, fun _ => rfl, fun hw =>
        absurd (Option.some.inj (hw.2.symm.trans hjd)) hsite⟩, Iff.rfl⟩
    · exact .refl site' _
  refine h.step (fun j => ?_) (fun site' => ?_) (fun j => ?_) (fun j => ?_) rfl rfl rfl h.quiet
    h.sendsNodup h.recvsNodup h.finsNodup h.armedNodup rfl
  · rcases eq_or_ne j i with rfl | hj
    · rw [hself]
      exact
        { hi with
          free := fun hf => by
            rw [hu] at hf
            cases hf
          counted := fun hf => by
            rw [hcount] at hf
            cases hf
          outside := fun _ => ⟨hd, by rw [hdest]; exact nofun, hs, hq, Nat.lt_succ_self _⟩
          sending := fun k hk => absurd hk (hs k)
          recv := fun p hp => absurd hp (hr p)
          setup := nofun
          live := fun _ _ _ hf => by cases hf }
    · exact (h.entry j).same (hsame j hj)
  · rcases eq_or_ne site' site with rfl | hsite
    · have hcct : (s.waitOutside site' i).clustab site' = _ := update_self site' _ s.clustab
      refine ⟨?_, ?_, q ++ [i], ?_, fun j => ?_, ?_, fun _ => .inl ?_⟩
      · rw [hcct]
        change (s.clustab site').reqCount = _
        rw [(h.site site').count]
        refine (card_filter_keep fun j _ => ?_).symm
        rcases eq_or_ne j i with rfl | hj
        · rw [hself]
        · rw [hother hj]
          split <;> rfl
      · rw [hcct]
        exact (h.site site').bound
      · rw [hcct]
        refine hqueue.push hiq (fun j hj htj => ?_) (fun j htj => ?_) ?_
        · have hji : j ≠ i := fun heq => hiq (heq ▸ hj)
          rw [hother hji, if_neg htj]
        · have hji : j ≠ i := fun heq => htail (heq ▸ htj)
          rw [hother hji, if_pos htj]
        · rw [hself]
      · rw [mem_append, mem_singleton]
        rcases eq_or_ne j i with rfl | hj
        · rw [hself]
          exact iff_of_true (.inr rfl) ⟨rfl, hdest⟩
        · rw [or_iff_left hj, hmem j, hother hj]
          split <;> rfl
      · have hticket : ∀ j ∈ q, ((s.waitOutside site' i).entries j).ticket = (s.entries j).ticket := by
          intro j hj
          rw [hother fun heq => hiq (heq ▸ hj)]
          split <;> rfl
        refine pairwise_append.2 ⟨hord.imp_of_mem fun {j k} hj hk hjk => ?_,
          pairwise_singleton _ _, fun j hj k hk => ?_⟩
        · rwa [hticket j hj, hticket k hk]
        · rw [mem_singleton.1 hk, hself, hticket j hj]
          exact ((h.entry j).outside ((hmem j).1 hj).1).2.2.2.2
      · rw [hcct]
        exact (h.site site').bound.antisymm hfull
    · refine (h.site site').same (fun j => ?_) rfl rfl nofun (update_of_ne hsite _ _)
      rcases eq_or_ne j i with rfl | hj
      · rw [hself]
        have hdest' : (s.entries j).req.dest ≠ some site' := by
          rw [hdest]
          exact fun heq => hsite (Option.some.inj heq).symm
        exact .of_dest hdest' hdest'
      · exact hwindow site' j hj hsite
  · rcases eq_or_ne j i with rfl | hj
    · rw [hself]
    · rw [hother hj]
      split <;> rfl
  · rcases eq_or_ne j i with rfl | hj
    · rw [hself]
    · rw [hother hj]
      split <;> rfl

/-- `free_using_entry` of an entry whose reply is complete. -/
theorem freeUsingEntry (h : Inv ⟨none, some i, none⟩ s) (hs : ∀ k, (i, k) ∉ s.sends)
    (hcount : (s.entries i).flags.counted = false) : Inv .idle (s.freeUsingEntry i) := by
  have hi := h.entry i
  obtain ⟨hu, hdone⟩ := hi.fin mem_cons_self
  have hout : (s.entries i).flags.outsideWindow = false := by
    by_contra ho
    rw [Bool.not_eq_false] at ho
    rw [(hi.outside ho).1] at hdone
    cases hdone
  have hself : (s.freeUsingEntry i).entries i = .freed := update_self _ _ _
  have hother : ∀ {j}, j ≠ i → (s.freeUsingEntry i).entries j = s.entries j :=
    fun hj => update_of_ne hj _ _
  have hrid : ∀ j, (s.entries j).rid ≠ 0 → ∀ k, (s.entries j).rid = ((s.freeUsingEntry i).entries k).rid →
      (s.entries j).rid = (s.entries k).rid := by
    intro j hj k hk
    rcases eq_or_ne k i with rfl | hki
    · rw [hself] at hk
      exact absurd hk hj
    · rwa [hother hki] at hk
  refine ⟨fun j => ?_, fun site => ?_, fun j k hj hk => ?_, fun x hx => ?_, h.getsNodup, h.sendsNodup,
    h.recvsNodup, h.finsNodup.of_cons, h.armedNodup, h.windowLt, ?_⟩
  · rcases eq_or_ne j i with rfl | hj
    · rw [hself]
      exact
        { free := fun _ => ⟨rfl, rfl⟩
          lt := nofun
          ridNe := nofun
          dest := nofun
          counted := nofun
          outside := nofun
          sending := fun k hk => absurd hk (hs k)
          first := fun k hk => absurd hk (hs k)
          retrying := fun hk => absurd hk (hs _)
          recv := fun p hp => by
            rw [(hi.recv p hp).2.1] at hdone
            cases hdone
          fin := fun hf => absurd hf (nodup_cons.1 h.finsNodup).1
          setup := nofun
          live := nofun }
    · exact (h.entry j).same
        { entry := .of_eq (hother hj)
          table := ⟨rfl, rfl, le_rfl⟩
          calls := .of_eq rfl rfl
          timer := .of_eq rfl rfl rfl
          hand := ⟨mem_cons_of_mem i, fun _ => id, Iff.rfl⟩ }
  · refine (h.site site).update (i := i) rfl ?_ rfl rfl id rfl
    have hw : ¬(s.entries i).WaitsFor site := fun hw => by
      rw [hw.1] at hout
      cases hout
    exact
      { counted := iff_of_false nofun fun hc => by
          rw [hc.1] at hcount
          cases hcount
        waits := iff_of_false nofun hw
        ticket := fun hf => absurd hf hw
        next := fun hf => absurd hf hw }
  · rcases eq_or_ne j i with rfl | hji
    · rw [hself] at hj
      cases hj
    · rw [hother hji] at hj hk
      exact h.ridInj j k hj (hrid j ((h.entry j).ridNe hj) k hk)
  · obtain ⟨h₁, h₂, h₃, h₄⟩ := h.gets x hx
    refine ⟨h₁, fun j => ?_, h₃, h₄⟩
    rcases eq_or_ne j i with rfl | hj
    · rw [hself]
      exact h₁.symm
    · rw [hother hj]
      exact h₂ j
  · change (s.panicked || (s.entries i).flags.outsideWindow) = false
    rw [h.panicked, hout]
    rfl

/-- `call_dm_recv_reply` of an entry whose reply is complete. -/
theorem callDmRecvReply (h : Inv ⟨none, some i, none⟩ s) (hs : ∀ k, (i, k) ∉ s.sends)
    (hcount : (s.entries i).flags.counted = false) : Inv .idle (s.callDmRecvReply i) := by
  rw [UsingSide.callDmRecvReply]
  dsimp only
  split
  · have hi := h.entry i
    obtain ⟨hu, hdone⟩ := hi.fin mem_cons_self
    have hperm : (s.sends.filterMap (·.2.reply?) ++ i :: s.waits).Perm (s.fins (some i)) :=
      perm_middle
    refine h.step_update (i := i) rfl ?_ (fun j hj => ?_) (fun site => ?_) rfl rfl rfl rfl rfl h.quiet
      h.sendsNodup h.recvsNodup (hperm.nodup_iff.2 h.finsNodup) h.armedNodup rfl
    · exact
        { hi with
          free := fun hf => by
            rw [hu] at hf
            cases hf
          counted := fun hc => by
            rw [hcount] at hc
            cases hc
          fin := fun _ => ⟨hu, hdone⟩ }
    · exact
        { entry := .of_eq (update_of_ne hj _ _)
          table := ⟨rfl, rfl, le_rfl⟩
          calls := .of_eq rfl rfl
          timer := .of_eq rfl rfl rfl
          hand := ⟨hperm.mem_iff.1, fun _ hf =>
            (mem_cons.1 (hperm.mem_iff.1 hf)).resolve_left hj, Iff.rfl⟩ }
    · exact (h.site site).update (i := i) rfl ⟨⟨Iff.rfl, fun _ => rfl, fun _ => rfl⟩, Iff.rfl⟩ rfl rfl id rfl
  · exact h.freeUsingEntry hs hcount

variable {reply : Option ℕ}

/-- What is left to do after the window check. -/
theorem afterCheck (h : Inv ⟨none, reply, none⟩ s) (hs : ∀ i, reply = some i → ∀ k, (i, k) ∉ s.sends)
    (hcount : ∀ i, reply = some i → (s.entries i).flags.counted = false) :
    Inv .idle (s.afterCheck reply) := by
  cases reply with
  | none => exact h
  | some i =>
    rw [UsingSide.afterCheck]
    split
    · exact h.same (fun j => ⟨.of_eq rfl, ⟨rfl, rfl, le_rfl⟩, .of_eq rfl rfl, .of_eq rfl rfl rfl,
        ⟨mem_cons_of_mem i, fun _ => id, Iff.rfl⟩⟩) rfl (fun _ => id) rfl rfl
        rfl h.quiet h.sendsNodup h.recvsNodup h.finsNodup.of_cons h.armedNodup rfl
    · exact h.callDmRecvReply (hs i rfl) (hcount i rfl)

variable {hand : Option ℕ}

theorem of_room {site : ℕ} (h : Inv ⟨none, hand, none⟩ s) : Inv ⟨some site, hand, none⟩ s :=
  h.same (fun _ => .other rfl rfl rfl) rfl nofun rfl rfl rfl h.quiet h.sendsNodup h.recvsNodup h.finsNodup h.armedNodup rfl

/-- The window is closed, or nothing waits. -/
theorem no_room {site : ℕ} (h : Inv ⟨some site, hand, none⟩ s)
    (hroom : (s.clustab site).reqWaitingQhead ≠ none →
      s.windowSize ≤ (s.clustab site).reqCount) : Inv ⟨none, hand, none⟩ s := by
  refine h.step (fun j => (h.entry j).same (.other rfl rfl rfl)) (fun site' => ?_) (fun _ => rfl) (fun _ => rfl) rfl rfl
    rfl h.quiet h.sendsNodup h.recvsNodup h.finsNodup h.armedNodup rfl
  obtain ⟨q, hq, hmem, hord, hfull⟩ := (h.site site').queue
  refine ⟨(h.site site').count, (h.site site').bound, q, hq, hmem, hord, fun hne => ?_⟩
  obtain hf | ⟨hf, hone⟩ := hfull hne
  · exact .inl hf
  · obtain rfl := Option.some.inj hf
    have := hroom fun hnone => hne (hq.head_none_iff.1 hnone)
    omega

/-- The loop of `check_protocol_window`. -/
theorem windowLoop {site : ℕ} (h : Inv ⟨some site, reply, none⟩ s)
    (hs : ∀ i, reply = some i → ∀ k, (i, k) ∉ s.sends)
    (hcount : ∀ i, reply = some i → (s.entries i).flags.counted = false) :
    Inv .idle (s.windowLoop site reply) := by
  rw [UsingSide.windowLoop]
  split
  · next i hhead =>
    split
    · next hroom =>
      refine (h.takeHead hhead hroom).duxSend nofun rfl fun j hj => ?_
      have hji : j ≠ i := by
        rintro rfl
        obtain ⟨q, hq, hmem, -⟩ := (h.site site).queue
        obtain ⟨r, rfl⟩ := (hhead ▸ hq).eq_cons
        have hdone := ((h.entry j).fin (mem_append_left _ (Option.mem_toList.2 hj))).2
        rw [((h.entry j).outside ((hmem j).1 mem_cons_self).1).1] at hdone
        cases hdone
      have he : (s.takeHead site i).entries j = s.entries j := update_of_ne hji _ _
      rw [he]
      exact hcount j hj
    · next hroom => exact (h.no_room fun _ => not_lt.1 hroom).afterCheck hs hcount
  · next hhead => exact (h.no_room fun hne => absurd hhead hne).afterCheck hs hcount

/-- An entry of the window is no longer counted. -/
theorem uncount {site : ℕ} (h : Inv ⟨none, hand, none⟩ s)
    (hcount : (s.entries i).flags.counted = true) (hdest : (s.entries i).req.dest = some site) :
    Inv ⟨some site, hand, none⟩ ((s.uncount i).giveBack site) := by
  have hi := h.entry i
  have hu := hi.used_of_counted hcount
  refine h.step_update (i := i) rfl ?_ (fun j hj => .other (update_of_ne hj _ _) rfl rfl)
    (fun site' => ?_) rfl rfl rfl rfl rfl h.quiet h.sendsNodup h.recvsNodup h.finsNodup h.armedNodup rfl
  · exact
      { hi with
        free := fun hf => by
          rw [hu] at hf
          cases hf
        counted := nofun
        setup := nofun
        live := fun _ => hi.live nofun }
  · rcases eq_or_ne site' site with rfl | hsite
    · have hcct : ((s.uncount i).giveBack site').clustab site' = _ := update_self site' _ s.clustab
      have hsame : ∀ j, SameQueue site' (s.entries j)
          (((s.uncount i).giveBack site').entries j) := .update (i := i) rfl ⟨Iff.rfl, fun _ => rfl, fun _ => rfl⟩
      obtain ⟨q, hq, hmem, hord, hfull⟩ := (h.site site').queue_same hsame
        (congrArg Cct.reqWaitingQhead hcct :) (congrArg Cct.reqWaitingQtail hcct :)
      have hlose : (((s.uncount i).giveBack site').countedFor site').card + 1 =
          (s.countedFor site').card := by
        refine card_filter_lose (Finset.mem_range.2 (hi.lt hu)) ⟨hcount, hdest⟩ ?_ fun j _ hj => ?_
        · have he : ((s.uncount i).giveBack site').entries i = _ := update_self i _ s.entries
          rw [he]
          exact nofun
        · have he : ((s.uncount i).giveBack site').entries j = _ := update_of_ne hj _ s.entries
          rw [he]
      have hcnt := (h.site site').count
      have hbound := (h.site site').bound
      refine ⟨?_, ?_, q, hq, hmem, hord, fun hne => .inr ⟨rfl, ?_⟩⟩
      · rw [hcct]
        change (s.clustab site').reqCount - 1 = _
        omega
      · rw [hcct]
        change (s.clustab site').reqCount - 1 ≤ s.windowSize
        omega
      · rw [hcct]
        change (s.clustab site').reqCount - 1 + 1 = s.windowSize
        obtain hf | ⟨hf, -⟩ := hfull hne
        · omega
        · cases hf
    · have hdest' : (s.entries i).req.dest ≠ some site' := by
        rw [hdest]
        exact fun heq => hsite (Option.some.inj heq).symm
      exact (h.site site').update (i := i) rfl (.of_dest hdest' hdest') rfl rfl nofun
        (update_of_ne hsite _ _)

theorem reqCount_pos {site : ℕ} (h : Inv c s) (hcount : (s.entries i).flags.counted = true)
    (hdest : (s.entries i).req.dest = some site) : (s.clustab site).reqCount ≠ 0 := by
  have hi := h.entry i
  have hmem : i ∈ s.countedFor site := Finset.mem_filter.2
    ⟨Finset.mem_range.2 (hi.lt (hi.used_of_counted hcount)), hcount, hdest⟩
  rw [(h.site site).count]
  exact (Finset.card_pos.2 ⟨i, hmem⟩).ne'

/-- An entry that is complete, or has got a slow notice, leaves the window. -/
theorem leaveWindow (h : Inv ⟨none, reply, none⟩ s) (hu : (s.entries i).flags.used = true)
    (hreply : ∀ j, reply = some j → j = i ∧ ∀ k, (i, k) ∉ s.sends) :
    Inv .idle (s.leaveWindow i reply) := by
  have hi := h.entry i
  have hs : ∀ j, reply = some j → ∀ k, (j, k) ∉ s.sends := fun j hj => by
    obtain ⟨rfl, hjs⟩ := hreply j hj
    exact hjs
  have hrest : (s.entries i).flags.counted = false → Inv .idle (s.afterCheck reply) := fun hcount =>
    h.afterCheck hs fun j hj => by rwa [(hreply j hj).1]
  rw [UsingSide.leaveWindow]
  split
  · next site hdest =>
    obtain ⟨hlow, hhigh, hmember⟩ := hi.dest hu site hdest
    split
    · next hc =>
      have hpos : ((s.uncount i).clustab site).reqCount ≠ 0 := h.reqCount_pos hc.1 hdest
      rw [UsingSide.checkProtocolWindow, if_pos ⟨hmember, hpos⟩]
      refine (h.uncount hc.1 hdest).windowLoop hs fun j hj => ?_
      rw [(hreply j hj).1]
      exact congrArg (fun e : UsingEntry => e.flags.counted) (update_self i _ s.entries)
    · next hc =>
      refine hrest ?_
      by_contra hf
      rw [Bool.not_eq_false] at hf
      exact hc ⟨hf, hlow, hhigh⟩
  · next hdest =>
    refine hrest ?_
    by_contra hf
    rw [Bool.not_eq_false] at hf
    exact (hi.counted hf).2.1 hdest

end Inv

end Window

end Dux

end Hpux
