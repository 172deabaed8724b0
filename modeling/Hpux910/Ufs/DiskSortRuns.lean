import Hpux910.Ufs.DiskSort

/-!
# What the queue of a disk keeps

* `scan_spec` : where the loop of `disksort` finds a place.
* `pushBack_spec`, `insertBp_deque` : the starve counts and the links.
* `disksort_call` : what a call does to any queue.
* `disksort_fair` : the statement for all queues and all runs.
-/

namespace Hpux.DiskSort

open List

variable {B : Type} [DecidableEq B] {s s' : State B} {bp x : B} {q a b : List B}

/-- The links of the queue are those of the list, in both directions. -/
def State.IsList (s : State B) (q : List B) : Prop :=
  IsDeque (fun b => (s.buf b).avForw) (fun b => (s.buf b).avBack) s.head s.tail q

/-! ### The place -/

/-- A place that a buffer may be put to: behind the part `a` of the queue. -/
def State.Fair (s : State B) (bp : B) (q : List B) (p : Place B) : Prop :=
  ∃ a b, q = a ++ b ∧ p.pred = a.getLast? ∧
    (p.pushed = false → ∀ x ∈ b, (s.buf x).hanger = false) ∧
    (p.pushed = true → (s.buf bp).hanger = true ∧
      (∃ b1 h b2, b = b1 ++ h :: b2 ∧ p.seenhanger = some h ∧ ∀ x ∈ b2, (s.buf x).hanger = false) ∧
      ∀ x ∈ b, (s.buf x).hanger = true → (s.buf x).starvecnt < maxstarve)

/-- What the loop knows when it has looked at the part `d` of the queue. -/
structure State.Scanned (s : State B) (bp : B) (c d : List B) (pred seen : Option B) : Prop where
  /-- No hanger has been seen, and no hanger is behind the place, -/
  unseen : seen = none → (∀ x ∈ d, (s.buf x).hanger = false) ∧
    ∃ a b, c ++ d = a ++ b ∧ pred = a.getLast? ∧ ∀ x ∈ b, (s.buf x).hanger = false
  /-- or the last hanger of the queue has been seen, and none that was passed is starving. -/
  seen : ∀ h, seen = some h → (s.buf bp).hanger = true ∧ pred = some h ∧
    (∃ d1 d2, d = d1 ++ h :: d2 ∧ ∀ x ∈ d2, (s.buf x).hanger = false) ∧
    ∀ x ∈ d, (s.buf x).hanger = true → (s.buf x).starvecnt < maxstarve

variable {pred seen : Option B} {c d : List B}

theorem State.Scanned.fair
    (h : s.Scanned bp c d pred seen) : s.Fair bp (c ++ d) ⟨pred, seen, false⟩ := by
  cases hseen : seen with
  | none =>
    obtain ⟨-, a, b, he, hp, hb⟩ := h.unseen hseen
    exact ⟨a, b, he, hp, fun _ => hb, nofun⟩
  | some y =>
    obtain ⟨-, hp, ⟨d1, d2, rfl, hd2⟩, -⟩ := h.seen y hseen
    refine ⟨c ++ d1 ++ [y], d2, by simp, by simp [hp], fun _ => hd2, nofun⟩

theorem State.Scanned.fair_here (h : s.Scanned bp c d pred seen) :
    s.Fair bp (c ++ d) ⟨c.getLast?, seen, seen.isSome⟩ := by
  cases hseen : seen with
  | none => exact ⟨c, d, rfl, rfl, fun _ => (h.unseen hseen).1, nofun⟩
  | some y =>
    obtain ⟨hb, -, ⟨d1, d2, he, hd2⟩, hstarve⟩ := h.seen y hseen
    exact ⟨c, d, rfl, rfl, nofun, fun _ => ⟨hb, ⟨d1, y, d2, he, rfl, hd2⟩, hstarve⟩⟩

theorem State.Scanned.atEnd (qb : Option B) (h : s.Scanned bp c d pred seen) (hc : qb = none → c = []) :
    s.Fair bp (c ++ d) (s.atEnd bp qb pred seen) := by
  unfold State.atEnd
  dsimp only
  split_ifs with h1
  · have hhere := h.fair_here
    rwa [hc h1.1] at hhere ⊢
  · exact h.fair

/-- The loop goes on to the buffer before `y`. -/
theorem State.Scanned.step {y : B} (h : s.Scanned bp (c ++ [y]) d pred seen)
    (hy : (s.buf y).hanger = true → seen ≠ none ∧ (s.buf y).starvecnt < maxstarve) :
    s.Scanned bp c (y :: d) pred seen := by
  refine ⟨fun hs => ?_, fun z hs => ?_⟩
  · obtain ⟨hd, a, b, he, hp, hb⟩ := h.unseen hs
    refine ⟨fun x hx => ?_, a, b, by rw [← he]; simp, hp, hb⟩
    rcases mem_cons.1 hx with rfl | hx
    · exact Bool.eq_false_iff.2 fun hh => (hy hh).1 hs
    · exact hd x hx
  · obtain ⟨hb, hp, ⟨d1, d2, rfl, hd2⟩, hstarve⟩ := h.seen z hs
    refine ⟨hb, hp, ⟨y :: d1, d2, rfl, hd2⟩, fun x hx hh => ?_⟩
    rcases mem_cons.1 hx with rfl | hx
    · exact (hy hh).2
    · exact hstarve x hx hh

/-- The first hanger is seen. -/
theorem State.Scanned.first {y : B} {pred : Option B}
    (h : s.Scanned bp (c ++ [y]) d pred none) (hb : (s.buf bp).hanger = true) :
    s.Fair bp (c ++ [y] ++ d) ⟨some y, some y, false⟩ ∧
      ((s.buf y).starvecnt < maxstarve → s.Scanned bp c (y :: d) (some y) (some y)) := by
  have hd := (h.unseen rfl).1
  refine ⟨⟨c ++ [y], d, rfl, getLast?_concat.symm, fun _ => hd, nofun⟩, fun hlt => ⟨nofun, ?_⟩⟩
  rintro z ⟨⟩
  refine ⟨hb, rfl, ⟨[], d, rfl, hd⟩, fun x hx hh => ?_⟩
  rcases mem_cons.1 hx with rfl | hx
  · exact hlt
  · exact absurd hh (by rw [hd x hx]; decide)

theorem scan_spec (n : ℕ) (cnt : ℤ)
    (hq : s.IsList (c ++ d)) (h : s.Scanned bp c d pred seen) (hn : c.length < n) :
    ∃ p, s.scan bp n cnt c.getLast? pred seen = some p ∧ s.Fair bp (c ++ d) p := by
  induction n generalizing cnt c d pred seen with
  | zero => omega
  | succ n ih =>
    rcases eq_nil_or_concat c with rfl | ⟨c, y, rfl⟩
    · exact ⟨_, rfl, h.atEnd none fun _ => rfl⟩
    rw [concat_eq_append] at *
    rw [getLast?_concat, State.scan]
    have happ : c ++ [y] ++ d = c ++ y :: d := by simp
    have hback : (s.buf y).avBack = c.getLast? := by
      rw [happ] at hq
      exact hq.links_eq.2
    have hlen : c.length < n := by
      rw [length_append, length_singleton] at hn
      omega
    by_cases hcnt : cnt = 0
    · rw [if_pos hcnt]
      exact ⟨_, rfl, h.atEnd (some y) nofun⟩
    rw [if_neg hcnt]
    by_cases hfit : s.fits bp y = true ∧ (seen.isSome = true ∨ (s.buf bp).hanger = false)
    · have hhere := h.fair_here
      rw [getLast?_concat] at hhere
      rw [if_pos hfit]
      exact ⟨_, rfl, hhere⟩
    rw [if_neg hfit]
    -- a place behind `y` is remembered
    have hplace : s.Scanned bp (c ++ [y]) d (if s.fits bp y = true then some y else pred) seen := by
      split_ifs with hf
      · refine ⟨fun hs => ⟨(h.unseen hs).1, c ++ [y], d, rfl, ?_, (h.unseen hs).1⟩, fun z hs => ?_⟩
        · rw [getLast?_concat]
        · exact absurd ⟨hf, .inl (by rw [hs]; rfl)⟩ hfit
      · exact h
    generalize (if s.fits bp y = true then some y else pred) = pred1 at hplace ⊢
    dsimp only
    have hgo : ∀ {pred seen}, s.Scanned bp c (y :: d) pred seen →
        ∃ p, s.scan bp n (cnt - 1) (s.buf y).avBack pred seen = some p ∧
          s.Fair bp (c ++ [y] ++ d) p := fun hs => by
      rw [hback, happ]
      exact ih _ (happ ▸ hq) hs hlen
    by_cases hb : (s.buf bp).hanger = true
    · rw [if_pos hb]
      by_cases hfirst : seen = none ∧ (s.buf y).hanger = true
      · simp only [if_pos hfirst]
        obtain ⟨rfl, hy⟩ := hfirst
        obtain ⟨hfair, hnext⟩ := hplace.first hb
        split_ifs with hst
        · exact ⟨_, rfl, hfair⟩
        · exact hgo (hnext (Int.not_le.1 fun hle => hst ⟨hy, hle⟩))
      · simp only [if_neg hfirst]
        split_ifs with hst
        · exact ⟨_, rfl, hplace.fair⟩
        · exact hgo (hplace.step fun hy => ⟨fun hs => hfirst ⟨hs, hy⟩,
            Int.not_le.1 fun hle => hst ⟨hy, hle⟩⟩)
    · rw [if_neg hb]
      split_ifs with hy
      · exact ⟨_, rfl, hplace.fair⟩
      · exact hgo (hplace.step fun hh => absurd hh hy)

/-! ### The starve counts and the links -/

theorem pushBack_spec (n : ℕ) (hq : s.IsList (a ++ c ++ d)) (hn : c.length < n) :
    ∃ s', pushBack a.getLast? n (a ++ c).getLast? s = .ok s' ∧ s'.head = s.head ∧
      s'.tail = s.tail ∧ s'.diskpos = s.diskpos ∧
      ∀ x, s'.buf x = if x ∈ c ∧ (s.buf x).hanger = true then (s.buf x).starve else s.buf x := by
  induction n generalizing s c d with
  | zero => omega
  | succ n ih =>
    rcases eq_nil_or_concat c with rfl | ⟨c, y, rfl⟩
    · rw [append_nil]
      exact ⟨s, if_pos rfl, rfl, rfl, rfl, by simp⟩
    · rw [concat_eq_append] at *
      have happ : a ++ (c ++ [y]) ++ d = (a ++ c) ++ y :: d := by simp
      rw [happ] at hq
      have hback : (s.buf y).avBack = (a ++ c).getLast? := hq.links_eq.2
      have hnd := hq.forw.nodup
      have hyac : y ∉ a ++ c := fun hy =>
        (nodup_append.1 hnd).2.2 y hy y mem_cons_self rfl
      have hne : (a ++ (c ++ [y])).getLast? ≠ a.getLast? := by
        rw [← append_assoc, getLast?_concat]
        exact fun he => hyac (mem_append_left c (mem_of_getLast? he.symm))
      have hlast : (a ++ (c ++ [y])).getLast? = some y := by
        rw [← append_assoc, getLast?_concat]
      obtain ⟨t, ht⟩ : ∃ t, t = if (s.buf y).hanger then s.setBuf y (s.buf y).starve else s :=
        ⟨_, rfl⟩
      have hcall : pushBack a.getLast? (n + 1) (a ++ (c ++ [y])).getLast? s =
          pushBack a.getLast? n (a ++ c).getLast? t := by
        rw [← hback, ht, hlast]
        exact if_neg (hlast ▸ hne)
      have hbuf : ∀ x, t.buf x = if x = y ∧ (s.buf x).hanger = true then (s.buf x).starve
          else s.buf x := fun x => by
        rw [ht]
        by_cases hh : (s.buf y).hanger = true
        · rw [if_pos hh]
          by_cases hx : x = y
          · subst hx
            simp [State.setBuf, hh]
          · simp [State.setBuf, hx]
        · rw [if_neg hh]
          by_cases hx : x = y
          · subst hx
            simp [hh]
          · simp [hx]
      have hkeep : ∀ x, (t.buf x).avForw = (s.buf x).avForw ∧ (t.buf x).avBack = (s.buf x).avBack ∧
          (t.buf x).hanger = (s.buf x).hanger := fun x => by
        rw [hbuf]
        split_ifs <;> exact ⟨rfl, rfl, rfl⟩
      have hht : t.head = s.head ∧ t.tail = s.tail ∧ t.diskpos = s.diskpos := by
        rw [ht]
        split_ifs <;> exact ⟨rfl, rfl, rfl⟩
      have hqt : t.IsList (a ++ c ++ (y :: d)) := by
        unfold State.IsList
        rw [hht.1, hht.2.1]
        exact hq.congr (fun x _ => (hkeep x).1) fun x _ => (hkeep x).2.1
      obtain ⟨s', hs', h1, h2, h3, h4⟩ := ih hqt (by
        rw [length_append, length_singleton] at hn
        omega)
      refine ⟨s', hcall.trans hs', h1.trans hht.1, h2.trans hht.2.1, h3.trans hht.2.2,
        fun x => ?_⟩
      rw [h4, (hkeep x).2.2, hbuf]
      by_cases hx : x = y
      · subst hx
        have hxc : x ∉ c := fun hc => hyac (mem_append_right a hc)
        simp [hxc]
      · simp [hx]

/-- What `insert_bp` writes; `next` is what follows the place. -/
theorem insertBp_eq {pred next : Option B} (hp : pred ≠ some bp) (hn : next ≠ some bp)
    (hpn : ∀ x, pred = some x → next ≠ some x)
    (hnext : next = pred.elim s.head fun p => (s.buf p).avForw) :
    (s.insertBp pred bp).head = (if pred = none then some bp else s.head) ∧
      (s.insertBp pred bp).tail = (if next = none then some bp else s.tail) ∧
      (s.insertBp pred bp).diskpos = s.diskpos ∧
      ∀ x, (s.insertBp pred bp).buf x = { s.buf x with
        avForw := if x = bp then next else if pred = some x then some bp else (s.buf x).avForw
        avBack := if x = bp then pred else if next = some x then some bp
          else (s.buf x).avBack } := by
  cases pred with
  | none =>
    have hh : s.head = next := hnext.symm
    cases next with
    | none =>
      refine ⟨?_, ?_, ?_, fun x => ?_⟩
      all_goals simp [State.insertBp, State.setBuf, hh]
      by_cases hx : x = bp
      · subst hx
        simp
      · simp [hx]
    | some n =>
      have hnb : n ≠ bp := fun he => hn (by rw [he])
      refine ⟨?_, ?_, ?_, fun x => ?_⟩
      all_goals simp [State.insertBp, State.setBuf, hh, hnb, hnb.symm]
      by_cases hx : x = bp
      · subst hx
        simp
      · by_cases hxn : x = n
        · subst hxn
          simp [hx]
        · simp [hx, hxn, Ne.symm hxn]
  | some p =>
    have hpb : p ≠ bp := fun he => hp (by rw [he])
    have hf : (s.buf p).avForw = next := hnext.symm
    cases next with
    | none =>
      refine ⟨?_, ?_, ?_, fun x => ?_⟩
      all_goals simp [State.insertBp, State.setBuf, hf, hpb, hpb.symm]
      by_cases hx : x = bp
      · subst hx
        simp
      · by_cases hxp : x = p
        · subst hxp
          simp [hx]
        · simp [hx, hxp, Ne.symm hxp]
    | some n =>
      have hnb : n ≠ bp := fun he => hn (by rw [he])
      have hnp : n ≠ p := fun he => hpn p rfl (by rw [he])
      refine ⟨?_, ?_, ?_, fun x => ?_⟩
      all_goals simp [State.insertBp, State.setBuf, hf, hpb, hpb.symm, hnb, hnb.symm, hnp.symm]
      by_cases hx : x = bp
      · subst hx
        simp
      · by_cases hxp : x = p
        · subst hxp
          simp [hx, hnp]
        · by_cases hxn : x = n
          · subst hxn
            simp [hx, hxp, Ne.symm hxp]
          · simp [hx, hxp, Ne.symm hxp, hxn, Ne.symm hxn]

/-- `insert_bp` puts the buffer behind the part `a` of the queue. -/
theorem insertBp_deque (hq : s.IsList (a ++ b)) (hbp : bp ∉ a ++ b) :
    (s.insertBp a.getLast? bp).IsList (a ++ bp :: b) ∧ (s.insertBp a.getLast? bp).diskpos = s.diskpos ∧
      ∀ x, ((s.insertBp a.getLast? bp).buf x).starvecnt = (s.buf x).starvecnt ∧
        ((s.insertBp a.getLast? bp).buf x).hanger = (s.buf x).hanger ∧
        ((s.insertBp a.getLast? bp).buf x).cylin = (s.buf x).cylin := by
  have ha : ∀ x, a.getLast? = some x → x ∈ a := fun x hx => mem_of_getLast? hx
  have hb : ∀ x, b.head? = some x → x ∈ b := fun x hx => mem_of_head? hx
  have hdis : ∀ x, x ∈ a → x ∉ b := fun x hx hx' =>
    (nodup_append.1 hq.forw.nodup).2.2 x hx x hx' rfl
  obtain ⟨hhead, htail, hpos, hbuf⟩ := @insertBp_eq _ _ s bp _ _
    (fun he => hbp (mem_append_left b (ha bp he)))
    (fun he => hbp (mem_append_right a (hb bp he)))
    (fun x hx hx' => hdis x (ha x hx) (hb x hx')) hq.forw.link_eq.symm
  refine ⟨?_, hpos, fun x => ?_⟩
  · unfold State.IsList
    rw [hhead, htail]
    refine hq.insert hbp (fun c hc hl => ?_) (fun c hl => ?_) ?_ (fun c hc hl => ?_)
      (fun c hl => ?_) ?_
    · have hcb : c ≠ bp := fun he => hbp (he ▸ hc)
      rw [hbuf]
      simp only [if_neg hcb, if_neg hl]
    · have hcb : c ≠ bp := fun he => hbp (he ▸ mem_append_left b (ha c hl))
      rw [hbuf]
      simp only [if_neg hcb, if_pos hl]
    · rw [hbuf]
      simp only [if_true]
    · have hcb : c ≠ bp := fun he => hbp (he ▸ hc)
      rw [hbuf]
      simp only [if_neg hcb, if_neg hl]
    · have hcb : c ≠ bp := fun he => hbp (he ▸ mem_append_right a (hb c hl))
      rw [hbuf]
      simp only [if_neg hcb, if_pos hl]
    · rw [hbuf]
      simp only [if_true]
  · rw [hbuf]
    exact ⟨rfl, rfl, rfl⟩

/-! ### A call -/

variable [Fintype B]

/-- What `disksort` does to a queue: the buffer is put in one place, not before a hanger unless it is
one, and then each hanger that it is put before has its count raised, from less than the greatest
number. -/
theorem disksort_call (hq : s.IsList q) (hbp : bp ∉ q) :
    ∃ s' a b, s.disksort bp = .ok s' ∧ q = a ++ b ∧ s'.IsList (a ++ bp :: b) ∧ s'.diskpos = s.diskpos ∧
      (∀ x, (s'.buf x).hanger = (s.buf x).hanger ∧ (s'.buf x).cylin = (s.buf x).cylin) ∧
      (s'.buf bp).starvecnt = 0 ∧ (∀ x ∈ a, (s'.buf x).starvecnt = (s.buf x).starvecnt) ∧
      ∀ x ∈ b, (s.buf x).hanger = true → (s.buf bp).hanger = true ∧ (s.buf x).starvecnt < maxstarve ∧
        (s'.buf x).starvecnt = ((s.buf x).starvecnt + 1).bmod (2 ^ 16) := by
  have hlen : q.length ≤ Fintype.card B := hq.forw.nodup.length_le_card
  have hscan : s.Scanned bp q [] s.tail none :=
    ⟨fun _ => ⟨by simp, q, [], rfl, hq.forw.tail_eq, by simp⟩, nofun⟩
  obtain ⟨p, hp, a, b, rfl, hpred, hno, hpush⟩ : ∃ p, s.scan bp (Fintype.card B + 1)
      (if (s.buf bp).hanger then -1 else maxtravcnt) s.tail s.tail none = some p ∧
      s.Fair bp q p := by
    have h := scan_spec (Fintype.card B + 1)
      (if (s.buf bp).hanger then -1 else maxtravcnt) (by rw [append_nil]; exact hq) hscan (Nat.lt_succ_of_le hlen)
    rwa [← hq.forw.tail_eq, append_nil] at h
  -- the hangers that are pushed back
  obtain ⟨t, ht, htq, hpos, hkeep, hta, htb⟩ : ∃ t,
      (if p.pushed then pushBack p.pred (Fintype.card B + 1) p.seenhanger s else .ok s) = .ok t ∧
      t.IsList (a ++ b) ∧ t.diskpos = s.diskpos ∧
      (∀ x, (t.buf x).hanger = (s.buf x).hanger ∧ (t.buf x).cylin = (s.buf x).cylin) ∧
      (∀ x ∈ a, (t.buf x).starvecnt = (s.buf x).starvecnt) ∧
      ∀ x ∈ b, (s.buf x).hanger = true → (s.buf bp).hanger = true ∧
        (s.buf x).starvecnt < maxstarve ∧
        (t.buf x).starvecnt = ((s.buf x).starvecnt + 1).bmod (2 ^ 16) := by
    cases hpushed : p.pushed with
    | false =>
      exact ⟨s, rfl, hq, rfl, fun _ => ⟨rfl, rfl⟩, fun _ _ => rfl,
        fun x hx hh => absurd hh (by rw [hno hpushed x hx]; decide)⟩
    | true =>
      obtain ⟨hbh, ⟨b1, h, b2, rfl, hseen, hb2⟩, hstarve⟩ := hpush hpushed
      have happ : a ++ (b1 ++ h :: b2) = a ++ (b1 ++ [h]) ++ b2 := by simp
      have hlast : (a ++ (b1 ++ [h])).getLast? = some h := by
        rw [← append_assoc, getLast?_concat]
      obtain ⟨t, ht, h1, h2, h3, h4⟩ := pushBack_spec (Fintype.card B + 1) (happ ▸ hq) (by
        simp only [length_append, length_cons, length_nil] at hlen ⊢
        omega)
      have hkeep : ∀ x, (t.buf x).avForw = (s.buf x).avForw ∧ (t.buf x).avBack = (s.buf x).avBack ∧
          (t.buf x).hanger = (s.buf x).hanger ∧ (t.buf x).cylin = (s.buf x).cylin := fun x => by
        rw [h4]
        split_ifs <;> exact ⟨rfl, rfl, rfl, rfl⟩
      refine ⟨t, ?_, ?_, h3, fun x => (hkeep x).2.2, fun x hx => ?_, fun x hx hh => ?_⟩
      · rw [if_pos rfl, hpred, hseen, ← hlast]
        exact ht
      · unfold State.IsList
        rw [h1, h2]
        exact hq.congr (fun x _ => (hkeep x).1) fun x _ => (hkeep x).2.1
      · have hxb : x ∉ b1 ++ [h] := fun hc => by
          have hd := (nodup_append.1 hq.forw.nodup).2.2 x hx x
          refine hd ?_ rfl
          rw [show b1 ++ h :: b2 = (b1 ++ [h]) ++ b2 by simp]
          exact mem_append_left b2 hc
        rw [h4, if_neg fun hc => hxb hc.1]
      · refine ⟨hbh, hstarve x hx hh, ?_⟩
        have hxc : x ∈ b1 ++ [h] := by
          rw [show b1 ++ h :: b2 = (b1 ++ [h]) ++ b2 by simp] at hx
          rcases mem_append.1 hx with hx | hx
          · exact hx
          · exact absurd hh (by rw [hb2 x hx]; decide)
        rw [h4, if_pos ⟨hxc, hh⟩]
        rfl
  have hbuf : ∀ x, (t.setBuf bp { t.buf bp with starvecnt := 0 }).buf x =
      if x = bp then { t.buf bp with starvecnt := 0 } else t.buf x := fun x =>
    Function.update_apply _ _ _ _
  have hkeep' : ∀ x, ((t.setBuf bp { t.buf bp with starvecnt := 0 }).buf x).avForw =
      (t.buf x).avForw ∧ ((t.setBuf bp { t.buf bp with starvecnt := 0 }).buf x).avBack =
      (t.buf x).avBack ∧ ((t.setBuf bp { t.buf bp with starvecnt := 0 }).buf x).hanger =
      (t.buf x).hanger ∧ ((t.setBuf bp { t.buf bp with starvecnt := 0 }).buf x).cylin =
      (t.buf x).cylin := fun x => by
    rw [hbuf]
    split_ifs with hx
    · rw [hx]
      exact ⟨rfl, rfl, rfl, rfl⟩
    · exact ⟨rfl, rfl, rfl, rfl⟩
  have htq' : (t.setBuf bp { t.buf bp with starvecnt := 0 }).IsList (a ++ b) :=
    htq.congr (fun x _ => (hkeep' x).1) fun x _ => (hkeep' x).2.1
  obtain ⟨hnew, hpos', hsame⟩ := insertBp_deque htq' hbp
  have hne : ∀ x ∈ a ++ b, x ≠ bp := fun x hx he => hbp (he ▸ hx)
  refine ⟨_, a, b, ?_, rfl, hnew, hpos'.trans hpos, fun x => ⟨?_, ?_⟩, ?_, fun x hx => ?_,
    fun x hx hh => ?_⟩
  · unfold State.disksort
    simp only [hp]
    rw [ht, hpred]
    rfl
  · rw [(hsame x).2.1, (hkeep' x).2.2.1, (hkeep x).1]
  · rw [(hsame x).2.2, (hkeep' x).2.2.2, (hkeep x).2]
  · rw [(hsame bp).1, hbuf, if_pos rfl]
  · rw [(hsame x).1, hbuf, if_neg (hne x (mem_append_left b hx)), hta x hx]
  · obtain ⟨h1, h2, h3⟩ := htb x hx hh
    refine ⟨h1, h2, ?_⟩
    rw [(hsame x).1, hbuf, if_neg (hne x (mem_append_right a hx)), h3]

/-! ### Runs -/

/-- The queue is linked, and the starve counts of the hangers on it are how often they have been
overtaken. -/
def Sys.Inv (s : Sys B) : Prop :=
  ∃ q, s.queue.IsList q ∧ ∀ x ∈ q, (s.queue.buf x).hanger = true →
    (s.queue.buf x).starvecnt = s.overtaken x ∧ (s.overtaken x : ℤ) ≤ maxstarve

theorem list_eq (hq : s.IsList q) : s.list = q :=
  hq.forw.follow_eq hq.forw.nodup.length_le_card

theorem listFrom_eq (hq : s.IsList (a ++ bp :: b)) : s.listFrom (s.buf bp).avForw = b := by
  have hf : (s.buf bp).avForw = b.head? := hq.links_eq.1
  have hb : IsQueue (fun x => (s.buf x).avForw) b.head? b.getLast? b :=
    ⟨rfl, rfl, (links_append.1 hq.forw.links).2.2,
      (nodup_cons.1 (nodup_append.1 hq.forw.nodup).2.1).2⟩
  rw [State.listFrom, hf]
  exact hb.follow_eq hb.nodup.length_le_card

/-- The head is taken. -/
theorem removeHead_list (hq : s.IsList q) : (Sys.removeHead s).IsList q.tail ∧
    ∀ x, ((Sys.removeHead s).buf x).hanger = (s.buf x).hanger ∧
      ((Sys.removeHead s).buf x).starvecnt = (s.buf x).starvecnt := by
  unfold Sys.removeHead
  cases hh : s.head with
  | none =>
    have he : q = [] := hq.forw.head_none_iff.1 hh
    subst he
    exact ⟨hq, fun _ => ⟨rfl, rfl⟩⟩
  | some h =>
    obtain ⟨q, rfl⟩ : ∃ r, q = h :: r := head?_eq_some_iff.1 (hq.forw.head_eq.symm.trans hh)
    have hfh : (s.buf h).avForw = q.head? := hq.forw.links.1
    dsimp only
    cases hf : (s.buf h).avForw with
    | none =>
      refine ⟨?_, fun _ => ⟨rfl, rfl⟩⟩
      have hnil : q = [] := head?_eq_none_iff.1 (hfh.symm.trans hf)
      subst hnil
      exact .nil
    | some n =>
      have hn : q.head? = some n := hfh.symm.trans hf
      refine ⟨?_, fun x => ?_⟩
      · have hbuf : ∀ y, (s.setBuf n { s.buf n with avBack := none }).buf y =
            if y = n then { s.buf n with avBack := none } else s.buf y := fun y =>
          Function.update_apply _ _ _ _
        have hpop : IsDeque
            (fun y => ((s.setBuf n { s.buf n with avBack := none }).buf y).avForw)
            (fun y => ((s.setBuf n { s.buf n with avBack := none }).buf y).avBack)
            (s.buf h).avForw (if (s.buf h).avForw = none then none else s.tail) q := by
          refine hq.pop (fun y _ => ?_) (fun y _ hy => ?_) fun y hy => ?_
          · rw [hbuf]
            split_ifs with hyn
            · rw [hyn]
            · rfl
          · have hyn : y ≠ n := fun he => hy (he ▸ hn)
            rw [hbuf, if_neg hyn]
          · obtain rfl : n = y := Option.some.inj (hn.symm.trans hy)
            rw [hbuf, if_pos rfl]
        rw [hf, if_neg (by simp)] at hpop
        exact hpop
      · by_cases hx : x = n
        · subst hx
          simp [State.setBuf, Buf.hanger]
        · simp [State.setBuf, hx]

theorem Sys.Inv.next {s : Sys B} (h : s.Inv) {e : Event B} (he : s.Enabled e) :
    ∃ s', s.next e = .ok s' ∧ s'.Inv := by
  obtain ⟨q, hq, hfair⟩ := h
  cases e with
  | insert bp r w k x c =>
    have hbp : bp ∉ q := by
      have h1 : bp ∉ s.queue.list := he
      rwa [list_eq hq] at h1
    obtain ⟨s1, hs1⟩ : ∃ s1 : State B, s1 = s.queue.setBuf bp { s.queue.buf bp with
        bRead := r
        bWanted := w
        bAsync := k
        wanted := x
        cylin := c } := ⟨_, rfl⟩
    have hold : ∀ y, y ≠ bp → s1.buf y = s.queue.buf y := fun y hy => by
      rw [hs1]
      exact Function.update_of_ne hy _ _
    have hq1 : s1.IsList q := by
      have hne : ∀ y ∈ q, y ≠ bp := fun y hy he => hbp (he ▸ hy)
      have hht : s1.head = s.queue.head ∧ s1.tail = s.queue.tail := by
        rw [hs1]
        exact ⟨rfl, rfl⟩
      unfold State.IsList
      rw [hht.1, hht.2]
      exact hq.congr (fun y hy => by rw [hold y (hne y hy)]) fun y hy => by rw [hold y (hne y hy)]
    obtain ⟨s', a, b, hs', rfl, hq', -, hkeep, hzero, ha, hb⟩ := disksort_call hq1 hbp
    have hnd := hq.forw.nodup
    refine ⟨⟨s', fun y => if y = bp then 0
      else if y ∈ s'.listFrom (s'.buf bp).avForw then s.overtaken y + 1 else s.overtaken y⟩, ?_,
      a ++ bp :: b, hq', fun y hy hh => ?_⟩
    · unfold Sys.next
      dsimp only
      rw [← hs1, hs']
      rfl
    · rw [listFrom_eq hq']
      rw [(hkeep y).1] at hh
      dsimp only
      have hmem : y = bp ∨ y ∈ a ∨ y ∈ b := by
        rcases mem_append.1 hy with hy | hy
        · exact .inr (.inl hy)
        · exact (mem_cons.1 hy).imp id .inr
      rcases hmem with rfl | hy | hy
      · rw [hzero, if_pos rfl]
        exact ⟨rfl, by decide⟩
      · have hne : y ≠ bp := fun he => hbp (he ▸ mem_append_left b hy)
        have hyb : y ∉ b := fun hy' => (nodup_append.1 hnd).2.2 y hy y hy' rfl
        rw [if_neg hne, if_neg hyb, ha y hy, hold y hne]
        rw [hold y hne] at hh
        exact hfair y (mem_append_left b hy) hh
      · have hne : y ≠ bp := fun he => hbp (he ▸ mem_append_right a hy)
        obtain ⟨-, hlt, hinc⟩ := hb y hy hh
        rw [hold y hne] at hh hlt hinc
        obtain ⟨h1, h2⟩ := hfair y (mem_append_right a hy) hh
        rw [if_neg hne, if_pos hy, hinc, h1]
        rw [h1] at hlt
        unfold maxstarve at hlt ⊢
        rw [Int.bmod_eq_of_le (by omega) (by omega)]
        exact ⟨by push_cast; rfl, by push_cast; omega⟩
  | remove =>
    obtain ⟨hq', hkeep⟩ := removeHead_list hq
    refine ⟨_, rfl, q.tail, hq', fun y hy hh => ?_⟩
    have hy' : y ∈ q := mem_of_mem_tail hy
    dsimp only at hh ⊢
    rw [(hkeep y).1] at hh
    rw [(hkeep y).2]
    exact hfair y hy' hh
  | flags bp r w k x =>
    have hbuf : ∀ y, (s.queue.setBuf bp { s.queue.buf bp with
        bRead := r
        bWanted := w
        bAsync := k
        wanted := x }).buf y = if y = bp then { s.queue.buf bp with
          bRead := r
          bWanted := w
          bAsync := k
          wanted := x } else s.queue.buf y := fun y => Function.update_apply _ _ _ _
    refine ⟨_, rfl, q, hq.congr (fun y _ => ?_) (fun y _ => ?_), fun y hy hh => ?_⟩
    · rw [hbuf]
      split_ifs with hyb
      · rw [hyb]
      · rfl
    · rw [hbuf]
      split_ifs with hyb
      · rw [hyb]
      · rfl
    · dsimp only at hh ⊢
      rw [hbuf] at hh ⊢
      split_ifs at hh ⊢ with hyb
      · subst hyb
        have hkeep : _ = (s.queue.buf y).hanger := he
        exact hfair y hy (hkeep ▸ hh)
      · exact hfair y hy hh

/-- `disksort` puts the buffer in one place of the queue, and not before a hanger unless it is one;
and in no run of insertions and removals a hanger is overtaken by more than `maxstarve` buffers that
come later. -/
theorem disksort_fair :
    (∀ (s : State B) (q : List B) (bp : B), s.IsList q → bp ∉ q →
      ∃ s' a b, s.disksort bp = .ok s' ∧ q = a ++ b ∧ s'.IsList (a ++ bp :: b) ∧
        ((s.buf bp).hanger = false → ∀ x ∈ b, (s.buf x).hanger = false)) ∧
    ∀ r, (system (B := B)).Reach r → ∃ s : Sys B, r = .ok s ∧
      ∀ x ∈ s.queue.list, (s.queue.buf x).hanger = true → (s.overtaken x : ℤ) ≤ maxstarve := by
  refine ⟨fun s q bp hq hbp => ?_, fun r hr => ?_⟩
  · obtain ⟨s', a, b, hs', he, hq', -, -, -, -, hb⟩ := disksort_call hq hbp
    refine ⟨s', a, b, hs', he, hq', fun hh x hx => Bool.eq_false_iff.2 fun hx' => ?_⟩
    exact absurd (hb x hx hx').1 (by rw [hh]; decide)
  · have hinit : ∀ s : Sys B, s.queue.head = none ∧ s.queue.tail = none → s.Inv := fun s hs => by
      refine ⟨[], ?_, by simp⟩
      unfold State.IsList
      rw [hs.1, hs.2]
      exact .nil
    obtain ⟨s, rfl, q, hq, hfair⟩ := hr.back hinit fun s e hi he => hi.next he
    refine ⟨s, rfl, fun x hx hh => ?_⟩
    rw [list_eq hq] at hx
    exact (hfair x hx hh).2

local instance neZero_three : NeZero 3 := ⟨by decide⟩

/-- A write that a process waits for, at cylinder 5, before an asynchronous one at cylinder 9. -/
def twoWrites : State (Fin 3) where
  buf
    | 0 => ⟨false, false, false, false, 5, 0, some 1, none⟩
    | 1 => ⟨false, false, true, false, 9, 0, none, some 0⟩
    | 2 => ⟨false, false, true, false, 2, 0, none, none⟩
  head := some 0
  tail := some 1
  diskpos := 1

theorem disksort_fair_twoWrites :
    (∃ s' a b, twoWrites.disksort 2 = .ok s' ∧ [0, 1] = a ++ b ∧ s'.IsList (a ++ 2 :: b) ∧
      ((twoWrites.buf 2).hanger = false → ∀ x ∈ b, (twoWrites.buf x).hanger = false)) ∧
    ∃ s : Sys (Fin 3), (⟨⟨twoWrites.buf, none, none, 0⟩, fun _ => 0⟩ : Sys (Fin 3)).next
      (.insert 0 true false false false 7) = .ok s ∧
      ∀ x ∈ s.queue.list, (s.queue.buf x).hanger = true → (s.overtaken x : ℤ) ≤ maxstarve := by
  refine ⟨disksort_fair.1 twoWrites [0, 1] 2 ?_ (by decide), disksort_fair.2 _ ?_⟩
  · exact ⟨⟨rfl, rfl, ⟨rfl, rfl, trivial⟩, by decide⟩, ⟨rfl, rfl, ⟨rfl, rfl, trivial⟩, by decide⟩⟩
  · exact .step (.init ⟨_, rfl, rfl, rfl⟩) ⟨_, rfl, by decide, rfl⟩

end Hpux.DiskSort
