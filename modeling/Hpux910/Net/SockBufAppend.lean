import Hpux910.Net.SockBufInv

/-!
# Appending to a socket buffer

What the routines that append do to the records.  The mbufs go behind those of the last record or make a
new one, and where there is no room or no mbuf the buffer is as it was.

* `recs`, `content`, `Holds` : the mbufs and the bytes of the records; the buffer is a list of records and
  counted.
* `sbcompress_grows`, `sbcompress_empty`, `Holds.enqueue` : the two ways in which a buffer grows.
* `sbappend_spec`, `sbappendrecord_spec`, `sbappendaddr_spec`, `sbappendrights_spec` : the routines.
-/

namespace Hpux.Net

open Function List

namespace SockBuf

variable {A B : Type} [DecidableEq A] {s s' : SockBuf A B} {a b m n h : A} {fuel : ℕ}
variable {l t : List A} {q : List (A × List A)}

/-- The mbufs of a record. -/
def record (s : SockBuf A B) (r : A × List A) : List (SbMbuf B) := s.view (r.1 :: r.2)

/-- The mbufs of the records. -/
def recs (s : SockBuf A B) (q : List (A × List A)) : List (List (SbMbuf B)) := q.map s.record

/-- The bytes of the records. -/
def content (s : SockBuf A B) (q : List (A × List A)) : List (List B) := (s.recs q).map SbMbuf.bytes

/-- What no routine changes. -/
def limits (s : SockBuf A B) : ℤ × ℤ × Bool := (s.hiwat, s.mbmax, s.locked)

/-- The buffer holds the records `q`, and its counts are theirs. -/
structure Holds (s : SockBuf A B) (q : List (A × List A)) : Prop where
  shape : s.Shape q
  counted : s.Counted (mbufs q)

omit [DecidableEq A] in
theorem record_congr {r : A × List A} (h : ∀ a ∈ r.1 :: r.2, (s'.cell a).m = (s.cell a).m) :
    s'.record r = s.record r :=
  view_congr h

omit [DecidableEq A] in
theorem recs_congr (h : ∀ a ∈ mbufs q, (s'.cell a).m = (s.cell a).m) : s'.recs q = s.recs q :=
  map_congr_left fun r hr => record_congr fun a ha => h a (mem_flatMap.2 ⟨r, hr, ha⟩)

omit [DecidableEq A] in
theorem Holds.congr (hs : s.Holds q) (hc : ∀ a ∈ mbufs q, s'.cell a = s.cell a ∧ s'.used a = s.used a)
    (hmb : s'.mb = s.mb) (hcc : s'.cc = s.cc) (hcnt : s'.mbcnt = s.mbcnt) : s'.Holds q := by
  refine ⟨⟨hs.shape.chained.congr fun a ha => ?_, hmb.trans hs.shape.mb⟩, ?_, ?_⟩
  · obtain ⟨h1, h2⟩ := hc a (by simpa using ha)
    exact ⟨by rw [h1], by rw [h1], h2⟩
  · rw [hcc, hs.counted.1]
    exact (lens_congr fun a ha => by rw [(hc a ha).1]).symm
  · rw [hcnt, hs.counted.2]
    exact (charges_congr fun a ha => by rw [(hc a ha).1]).symm

/-! ### Growing -/

/-- The mbufs of a chain are put behind the last mbuf of the last record: so are their bytes. -/
theorem sbcompress_grows (hs : s.Holds (q ++ [(h, t)])) (hn : (h :: t).getLast? = some n)
    (hl : s.Chain (q ++ [(h, t)]) l) (hf : l.length < fuel) :
    ∃ s' r, sbcompress fuel s l.head? (some n) = .ok s' ∧ s'.Holds (q ++ [(h, t ++ r)]) ∧
      s'.limits = s.limits ∧ s'.recs (q ++ [(h, t ++ r)]) =
        s.recs q ++ [SbMbuf.grown (s.record (h, t)) (s.view l)] := by
  obtain ⟨s', r, h1, h2, h3, h4, h5, h6, h7⟩ := sbcompress_spec hs.shape.chained hs.counted hn hl hf
  refine ⟨s', r, h1, ⟨⟨h2, ?_⟩, h3⟩, by unfold limits; rw [h5.2.1, h5.2.2.1, h5.2.2.2], ?_⟩
  · rw [h4, hs.shape.mb]
    simp
  · obtain ⟨p, hp⟩ : ∃ p, h :: t = p ++ [n] := by
      obtain ⟨p, hp⟩ := getLast?_eq_some_iff.1 hn
      exact ⟨p, hp⟩
    have hnd := hs.shape.chained.nodup
    rw [nil_append, mbufs_append, nodup_append] at hnd
    have hsame : ∀ a, a ∈ mbufs q ∨ a ∈ p → (s'.cell a).m = (s.cell a).m := by
      intro a ha
      have hq : a ∈ mbufs (q ++ [(h, t)]) := by
        rw [mbufs_append, mem_append]
        refine ha.imp id fun h8 => ?_
        simp only [mbufs_cons, mbufs_nil, append_nil, hp, mem_append]
        exact .inl h8
      have hne : a ≠ n := by
        have h9 : n ∈ mbufs [(h, t)] := by simp [hp]
        rintro rfl
        rcases ha with ha | ha
        · exact hnd.2.2 a ha a h9 rfl
        · have h10 := hnd.2.1
          simp only [mbufs_cons, mbufs_nil, append_nil, hp] at h10
          exact (nodup_append.1 h10).2.2 a ha a (mem_singleton_self a) rfl
      rw [(h5.1 a ?_).1]
      simp only [mem_cons, not_or]
      exact ⟨hne, fun h8 => hl.apart a h8 hq⟩
    have h8 : s'.recs q = s.recs q := recs_congr fun a ha => hsame a (.inl ha)
    have h9 : s'.view p = s.view p := view_congr fun a ha => hsame a (.inr ha)
    have h10 : s'.record (h, t ++ r) = SbMbuf.grown (s.record (h, t)) (s.view l) := by
      have h11 : s'.view (h :: (t ++ r)) = s.view p ++ s'.view (n :: r) := by
        rw [← h9, ← cons_append, hp, append_assoc]
        exact map_append
      have h12 : s.view (h :: t) = s.view p ++ [(s.cell n).m] := by
        rw [hp]
        exact map_append
      unfold record
      dsimp only
      rw [h11, h12, h7, SbMbuf.grown_concat]
    rw [recs, map_append, map_singleton, h10]
    exact congrArg (· ++ _) h8

/-- A chain for an empty buffer. -/
theorem sbcompress_empty (hs : s.Holds []) (hl : s.Chain [] l) (hf : l.length < fuel) :
    ∃ s' q', sbcompress fuel s l.head? none = .ok s' ∧ s'.Holds q' ∧ s'.limits = s.limits ∧
      s'.recs q' = SbMbuf.fresh (s.view l) := by
  induction l generalizing s fuel with
  | nil =>
    obtain ⟨fuel, rfl⟩ := Nat.exists_eq_succ_of_ne_zero (Nat.ne_zero_of_lt hf)
    exact ⟨s, [], rfl, hs, rfl, rfl⟩
  | cons m l ih =>
    obtain ⟨fuel, rfl⟩ := Nat.exists_eq_succ_of_ne_zero (Nat.ne_zero_of_lt hf)
    have hf' : l.length < fuel := by simpa using hf
    have hml := (nodup_cons.1 hl.nodup).1
    have hnext : (s.cell m).next = l.head? := hl.links.1
    unfold sbcompress
    simp only [head?_cons]
    by_cases hlen : (s.cell m).m.len = 0
    · rw [if_pos hlen, mFree_spec (hl.used m mem_cons_self), hnext]
      have hl1 : Chain { s with used := update s.used m false } [] l :=
        hl.tail.congr (fun _ _ => rfl)
          (fun a ha => update_of_ne (fun h1 : a = m => hml (h1 ▸ ha)) _ _) hl.tail.apart
      obtain ⟨s', q', h1, h2, hk, h3⟩ :=
        ih (s := { s with used := update s.used m false }) (hs.congr (by simp) rfl rfl rfl) hl1 hf'
      refine ⟨s', q', h1, h2, hk, h3.trans ?_⟩
      simp [view, SbMbuf.fresh, hlen]
    · rw [if_neg hlen]
      generalize hs1 : setNext { s.sballoc m with mb := some m } m none = s1
      have hcell : ∀ a, a ≠ m → s1.cell a = s.cell a := fun a ha => by
        rw [← hs1]
        exact update_of_ne ha _ _
      have hcellm : s1.cell m = { s.cell m with next := none } := by
        rw [← hs1]
        exact update_self ..
      have hused : s1.used = s.used := by rw [← hs1]; rfl
      have hlock : s1.limits = s.limits := by rw [← hs1]; rfl
      have hmb : s1.mb = some m := by rw [← hs1]; rfl
      have hcc : s1.cc = s.cc + (s.cell m).m.len := by rw [← hs1]; rfl
      have hcnt : s1.mbcnt = s.mbcnt + (s.cell m).m.charge := by rw [← hs1]; rfl
      have h0 : s.cc = 0 ∧ s.mbcnt = 0 := hs.counted
      have hact : (s1.cell m).act = none := by
        rw [hcellm]
        exact hl.act m mem_cons_self
      have hs2 : s1.Holds ([] ++ [(m, [])]) := by
        refine ⟨⟨⟨trivial, (by simp), ⟨hact, trivial⟩, fun r hr => ?_, fun r hr a ha => ?_, ?_, ?_⟩, hmb⟩,
          ?_, ?_⟩
        · obtain rfl := mem_singleton.1 hr
          refine ⟨?_, trivial⟩
          dsimp only
          rw [hcellm]
          rfl
        · obtain rfl := mem_singleton.1 hr
          cases ha
        · simp
        · intro a ha
          obtain rfl : a = m := by simpa using ha
          rw [hused]
          exact hl.used a mem_cons_self
        · rw [hcc, h0.1]
          simp [lens, hcellm]
        · rw [hcnt, h0.2]
          simp [charges, hcellm]
      have hlm : ∀ a ∈ l, a ≠ m := fun a ha h1 => hml (h1 ▸ ha)
      have hl1 : s1.Chain ([] ++ [(m, [])]) l :=
        hl.tail.congr (fun a ha => hcell a (hlm a ha)) (fun a _ => congrFun hused a)
          fun a ha => by simpa using hlm a ha
      have hnext1 : (SbCell.next (({ s.sballoc m with mb := some m } : SockBuf A B).cell m)) = l.head? :=
        hnext
      rw [hnext1]
      obtain ⟨s', r, h1, h2, hk, h3⟩ := sbcompress_grows hs2 rfl hl1 hf'
      refine ⟨s', [] ++ [(m, [] ++ r)], h1, h2, hk.trans hlock, h3.trans ?_⟩
      have h6 : s1.view l = s.view l := view_congr fun a ha => by rw [hcell a (hlm a ha)]
      rw [h6]
      simp [recs, record, view, SbMbuf.fresh, SbMbuf.grown, hcellm, hlen]

variable [Fintype A]

omit [DecidableEq A] in
theorem length_lt_bound (hl : l.Nodup) : l.length < bound A :=
  Nat.lt_succ_of_le hl.length_le_card

omit [DecidableEq A] [Fintype A] in
theorem Chained.heads_nodup (hs : s.Chained [] q) : (q.map Prod.fst).Nodup := by
  have h1 : (mbufs q).Nodup := by simpa using hs.nodup
  refine List.Nodup.sublist ?_ h1
  clear h1 hs
  induction q with
  | nil => exact List.Sublist.refl _
  | cons r q ih =>
    rw [map_cons, mbufs_cons, cons_append]
    exact (ih.trans (sublist_append_right r.2 _)).cons_cons r.1

omit [DecidableEq A] in
/-- The loop along `m_act` leads to the last record. -/
theorem lastRecord_spec (hs : s.Chained [] (q ++ [(h, t)])) :
    ∃ a, ((q ++ [(h, t)]).map Prod.fst).head? = some a ∧
      follow (fun a => (s.cell a).act) (bound A) a = .ok h := by
  have h1 := hs.acts
  have h2 := hs.heads_nodup
  obtain ⟨a, p, hp⟩ : ∃ a p, (q ++ [(h, t)]).map Prod.fst = a :: p := by
    cases q with
    | nil => exact ⟨h, [], rfl⟩
    | cons r q => exact ⟨r.1, _, rfl⟩
  have h3 : (a :: p).getLast? = some h := by
    rw [← hp, map_append, map_singleton, getLast?_concat]
  rw [hp] at h1 h2 ⊢
  obtain ⟨b, hb, hb'⟩ := follow_spec h1 (Nat.lt_of_succ_lt (length_lt_bound h2))
  rw [h3] at hb'
  exact ⟨a, rfl, hb.trans (by rw [Option.some.inj hb'])⟩

omit [DecidableEq A] in
theorem lastMbuf_spec (hs : s.Shape (q ++ [(h, t)])) :
    ∃ n, s.lastMbuf = .ok (some n) ∧ (h :: t).getLast? = some n := by
  obtain ⟨a, ha, hf⟩ := lastRecord_spec hs.chained
  have hmem : (h, t) ∈ q ++ [(h, t)] := by simp
  have hnd : (h :: t).Nodup := by
    have h1 := hs.chained.nodup
    rw [nil_append, mbufs_append, nodup_append] at h1
    simpa using h1.2.1
  obtain ⟨n, hn, hn'⟩ := follow_spec (hs.chained.nexts _ hmem)
    (Nat.lt_of_succ_lt (length_lt_bound hnd))
  refine ⟨n, ?_, hn'⟩
  unfold lastMbuf
  rw [hs.mb, ha]
  dsimp only
  rw [hf]
  show (follow (fun a => (s.cell a).next) (bound A) h >>= fun n => pure (some n)) = _
  rw [hn]
  rfl

theorem sbappend_spec (hs : s.Holds q) (hl : s.Chain q l) :
    ∃ s' q', s.sbappend l.head? = .ok s' ∧ s'.Holds q' ∧ s'.limits = s.limits ∧
      s'.recs q' = SbMbuf.appended (s.recs q) (s.view l) := by
  cases l with
  | nil => exact ⟨s, q, rfl, hs, rfl, (SbMbuf.appended_nil _).symm⟩
  | cons m l =>
    rcases eq_nil_or_concat q with rfl | ⟨q, ⟨h, t⟩, rfl⟩
    · have h1 : s.lastMbuf = .ok none := by
        unfold lastMbuf
        rw [show s.mb = none from hs.shape.mb]
      have h2 : s.sbappend (m :: l).head? = sbcompress (bound A) s (some m) none := by
        unfold sbappend
        simp only [head?_cons, h1]
        rfl
      rw [h2]
      exact sbcompress_empty hs hl (length_lt_bound hl.nodup)
    · rw [concat_eq_append] at hs hl ⊢
      obtain ⟨n, h1, hn⟩ := lastMbuf_spec hs.shape
      have h2 : s.sbappend (m :: l).head? = sbcompress (bound A) s (some m) (some n) := by
        unfold sbappend
        simp only [head?_cons, h1]
        rfl
      rw [h2]
      obtain ⟨s', r, h3, h4, hk, h5⟩ := sbcompress_grows hs hn hl (length_lt_bound hl.nodup)
      refine ⟨s', _, h3, h4, hk, ?_⟩
      have h6 : s.recs (q ++ [(h, t)]) = s.recs q ++ [s.record (h, t)] := map_append
      have h7 : s.view (m :: l) ≠ [] := cons_ne_nil _ _
      rw [h5, h6, SbMbuf.appended_concat _ _ h7]

/-! ### New records -/

theorem enqueue_setNext (s : SockBuf A B) (m a : A) (v : Option A) :
    (s.setNext a v).enqueue m = (s.enqueue m).map (·.setNext a v) := by
  have hact : (fun b => ((s.setNext a v).cell b).act) = fun b => (s.cell b).act := by
    funext b
    by_cases hb : b = a
    · subst hb
      simp only [setNext, update_self]
    · simp only [setNext, update_of_ne hb]
  unfold enqueue
  rw [show (s.setNext a v).mb = s.mb from rfl]
  cases s.mb with
  | none => rfl
  | some n =>
    dsimp only
    rw [hact]
    cases follow (fun b => (s.cell b).act) (bound A) n with
    | error e => rfl
    | ok n =>
      have h1 : (s.setNext a v).setAct n (some m) = (s.setAct n (some m)).setNext a v := by
        unfold setNext setAct
        congr 1
        funext b
        by_cases h1 : n = a
        · subst h1
          by_cases hb : b = n
          · subst hb
            simp only [update_self]
          · simp only [update_of_ne hb]
        · by_cases hb : b = a
          · subst hb
            simp only [update_self, update_of_ne (Ne.symm h1)]
          · by_cases hn : b = n
            · subst hn
              simp only [update_self, update_of_ne h1]
            · simp only [update_of_ne hb, update_of_ne hn]
      exact congrArg Except.ok h1

theorem enqueue_next (h : s.enqueue m = .ok s') (a : A) : (s'.cell a).next = (s.cell a).next := by
  unfold enqueue at h
  cases hmb : s.mb with
  | none =>
    rw [hmb] at h
    obtain rfl := Except.ok.inj h
    rfl
  | some n =>
    rw [hmb] at h
    dsimp only at h
    cases hf : follow (fun b => (s.cell b).act) (bound A) n with
    | error e =>
      rw [hf] at h
      cases h
    | ok n =>
      rw [hf] at h
      obtain rfl := Except.ok.inj h
      by_cases hn : a = n
      · subst hn
        simp only [setAct, update_self]
      · simp only [setAct, update_of_ne hn]

omit [Fintype A] in
theorem setNext_m (s : SockBuf A B) (a b : A) (v : Option A) :
    ((s.setNext a v).cell b).m = (s.cell b).m := by
  by_cases hb : b = a
  · subst hb
    simp only [setNext, update_self]
  · simp only [setNext, update_of_ne hb]

/-- A record whose mbufs have been counted is put behind the others. -/
theorem Holds.enqueue {s1 : SockBuf A B} (hs : s.Holds q) (hl : s.Chain q (m :: t))
    (hcell : s1.cell = s.cell) (hused : s1.used = s.used) (hmb : s1.mb = s.mb)
    (hlock : s1.limits = s.limits) (hcc : s1.cc = s.cc + s.lens (m :: t)) (hcnt : s1.mbcnt = s.mbcnt + s.charges (m :: t)) :
    ∃ s', s1.enqueue m = .ok s' ∧ s'.Holds (q ++ [(m, t)]) ∧
      (∀ a, a ∉ mbufs q → s'.cell a = s.cell a) ∧ s'.used = s.used ∧ s'.limits = s.limits ∧
      ∀ a, (s'.cell a).m = (s.cell a).m := by
  -- what `enqueue` does to the links
  obtain ⟨s', h1, hother, hact, hsame, hu', hmb', hcc', hcnt', hk⟩ : ∃ s', s1.enqueue m = .ok s' ∧
      (∀ a, a ∉ mbufs q → s'.cell a = s.cell a) ∧
      (∀ a, (q.map Prod.fst).getLast? = some a → (s'.cell a).act = some m) ∧
      (∀ a, (s'.cell a).next = (s.cell a).next ∧ (s'.cell a).m = (s.cell a).m ∧
        ((q.map Prod.fst).getLast? ≠ some a → (s'.cell a).act = (s.cell a).act)) ∧
      s'.used = s.used ∧ s'.mb = ((q ++ [(m, t)]).map Prod.fst).head? ∧ s'.cc = s1.cc ∧
      s'.mbcnt = s1.mbcnt ∧ s'.limits = s1.limits := by
    rcases eq_nil_or_concat q with rfl | ⟨q, ⟨h, t'⟩, rfl⟩
    · have h0 : s1.mb = none := hmb.trans hs.shape.mb
      refine ⟨{ s1 with mb := some m }, ?_, fun a _ => congrFun hcell a, nofun, fun a => ?_, hused, rfl,
        rfl, rfl, rfl⟩
      · unfold SockBuf.enqueue
        rw [h0]
      · rw [show ({ s1 with mb := some m } : SockBuf A B).cell a = s.cell a from congrFun hcell a]
        exact ⟨rfl, rfl, fun _ => rfl⟩
    · rw [concat_eq_append] at hs ⊢
      obtain ⟨a, ha, hf⟩ := lastRecord_spec hs.shape.chained
      have h0 : s1.mb = some a := hmb.trans (hs.shape.mb.trans ha)
      have hlast : ((q ++ [(h, t')]).map Prod.fst).getLast? = some h := by
        rw [map_append, map_singleton, getLast?_concat]
      have hne : ∀ b, b ≠ h → (s1.setAct h (some m)).cell b = s.cell b := fun b hb => by
        rw [← hcell]
        exact update_of_ne hb _ _
      have heq : (s1.setAct h (some m)).cell h = { s.cell h with act := some m } := by
        rw [← hcell]
        exact update_self ..
      refine ⟨s1.setAct h (some m), ?_, fun b hb => hne b ?_, fun b hb => ?_, fun b => ?_, hused, ?_, rfl,
        rfl, rfl⟩
      · unfold SockBuf.enqueue
        rw [h0]
        dsimp only
        rw [hcell, hf]
        rfl
      · rintro rfl
        exact hb (by simp)
      · obtain rfl := Option.some.inj (hlast.symm.trans hb)
        rw [heq]
      · by_cases hb : b = h
        · subst hb
          rw [heq]
          exact ⟨rfl, rfl, fun h1 => absurd hlast h1⟩
        · rw [hne b hb]
          exact ⟨rfl, rfl, fun _ => rfl⟩
      · show s1.mb = _
        rw [h0, map_append, head?_append, ha]
        rfl
  have hap : ∀ a ∈ m :: t, a ∉ mbufs q := hl.apart
  have hlast : ∀ a, (q.map Prod.fst).getLast? = some a → a ∈ mbufs q := fun a ha => by
    obtain ⟨r, hr, rfl⟩ := mem_map.1 (mem_of_getLast? ha)
    exact mem_flatMap.2 ⟨r, hr, mem_cons_self⟩
  have hall : mbufs (q ++ [(m, t)]) = mbufs q ++ (m :: t) := by simp
  have hch := hs.shape.chained
  have hnd : (mbufs q).Nodup := by simpa using hch.nodup
  refine ⟨s', h1, ⟨⟨⟨trivial, nofun, ?_, fun r hr => ?_, fun r hr a ha => ?_, ?_, fun a ha => ?_⟩, hmb'⟩,
    ?_, ?_⟩, hother, hu', hk.trans hlock, fun a => (hsame a).2.1⟩
  · rw [map_append]
    refine hch.acts.concat hch.heads_nodup (fun c hc hne => (hsame c).2.2 hne) hact ?_
    rw [hother m (hap m mem_cons_self)]
    exact hl.act m mem_cons_self
  · rcases mem_append.1 hr with hr | hr
    · exact (hch.nexts r hr).congr fun a _ => (hsame a).1
    · obtain rfl := mem_singleton.1 hr
      exact hl.links.congr fun a _ => (hsame a).1
  · rcases mem_append.1 hr with hr | hr
    · rw [(hsame a).2.2 ?_]
      · exact hch.noact r hr a ha
      · -- the last record's first mbuf is not one of the others
        intro h2
        obtain ⟨r', hr', rfl⟩ := mem_map.1 (mem_of_getLast? h2)
        obtain ⟨L, R, rfl⟩ := append_of_mem hr
        rw [mbufs_append, mbufs_cons] at hnd
        have h3 := (nodup_append.1 hnd)
        rcases mem_append.1 hr' with h4 | h4
        · exact h3.2.2 r'.1 (mem_flatMap.2 ⟨r', h4, mem_cons_self⟩) r'.1 (by simp [ha]) rfl
        · have h5 := nodup_append.1 h3.2.1
          rcases mem_cons.1 h4 with rfl | h4
          · exact (nodup_cons.1 h5.1).1 ha
          · exact h5.2.2 r'.1 (mem_cons_of_mem _ ha) r'.1
              (mem_flatMap.2 ⟨r', h4, mem_cons_self⟩) rfl
    · obtain rfl := mem_singleton.1 hr
      rw [hother a (hap a (mem_cons_of_mem m ha))]
      exact hl.act a (mem_cons_of_mem m ha)
  · rw [nil_append, hall, nodup_append]
    refine ⟨hnd, hl.nodup, ?_⟩
    rintro a ha _ hb rfl
    exact hap a hb ha
  · rw [nil_append, hall] at ha
    rw [hu']
    rcases mem_append.1 ha with ha | ha
    · exact hch.used a (by simpa using ha)
    · exact hl.used a ha
  · have h2 : s'.lens (mbufs (q ++ [(m, t)])) = s.lens (mbufs (q ++ [(m, t)])) :=
      lens_congr fun a _ => by rw [(hsame a).2.1]
    rw [h2, hall, lens_append, hcc', hcc, hs.counted.1]
  · have h2 : s'.charges (mbufs (q ++ [(m, t)])) = s.charges (mbufs (q ++ [(m, t)])) :=
      charges_congr fun a _ => by rw [(hsame a).2.1]
    rw [h2, hall, charges_append, hcnt', hcnt, hs.counted.2]

/-- A new record, and a chain behind its last mbuf. -/
theorem Holds.newRecord {s1 : SockBuf A B} (hs : s.Holds q) (hr : s.Chain q (m :: t))
    (hl : s.Chain q l) (hlr : ∀ a ∈ l, a ∉ m :: t) (hn : (m :: t).getLast? = some n)
    (hcell : s1.cell = s.cell) (hused : s1.used = s.used) (hmb : s1.mb = s.mb)
    (hlock : s1.limits = s.limits) (hcc : s1.cc = s.cc + s.lens (m :: t)) (hcnt : s1.mbcnt = s.mbcnt + s.charges (m :: t)) :
    ∃ s0 s' q', s1.enqueue m = .ok s0 ∧ sbcompress (bound A) s0 l.head? (some n) = .ok s' ∧
      s'.Holds q' ∧ s'.limits = s.limits ∧
      s'.recs q' = s.recs q ++ [SbMbuf.grown (s.record (m, t)) (s.view l)] := by
  obtain ⟨s0, h1, h2, h3, h4, hk, h5⟩ := hs.enqueue hr hcell hused hmb hlock hcc hcnt
  have hlq : ∀ a ∈ l, a ∉ mbufs (q ++ [(m, t)]) := fun a ha => by
    rw [mbufs_append, mem_append, not_or]
    exact ⟨hl.apart a ha, by simpa using hlr a ha⟩
  have hl0 : s0.Chain (q ++ [(m, t)]) l :=
    hl.congr (fun a ha => h3 a (hl.apart a ha)) (fun a _ => congrFun h4 a) hlq
  obtain ⟨s', r, h6, h7, hk', h8⟩ := sbcompress_grows h2 hn hl0 (length_lt_bound hl.nodup)
  refine ⟨s0, s', _, h1, h6, h7, hk'.trans hk, ?_⟩
  have h9 : s0.recs q = s.recs q := recs_congr fun a _ => h5 a
  have h10 : s0.record (m, t) = s.record (m, t) := record_congr fun a _ => h5 a
  have h11 : s0.view l = s.view l := view_congr fun a _ => h5 a
  rw [h8, h9, h10, h11]

theorem sbappendrecord_spec (hs : s.Holds q) (hl : s.Chain q (m :: l)) :
    ∃ s' q', s.sbappendrecord (some m) = .ok s' ∧ s'.Holds q' ∧ s'.limits = s.limits ∧
      s'.recs q' = s.recs q ++ [(s.cell m).m.compressed (s.view l)] := by
  have hml := (nodup_cons.1 hl.nodup).1
  have hap := hl.apart m mem_cons_self
  have hnext : (s.cell m).next = l.head? := hl.links.1
  -- the link of the first mbuf may as well be cut before the record is queued
  have hcell : ∀ a, a ≠ m → (s.setNext m none).cell a = s.cell a := fun a ha => update_of_ne ha _ _
  have hcellm : (s.setNext m none).cell m = { s.cell m with next := none } := update_self ..
  have hs0 : (s.setNext m none).Holds q := hs.congr
    (fun a ha => ⟨hcell a fun h1 => hap (h1 ▸ ha), rfl⟩) rfl rfl rfl
  have hr : (s.setNext m none).Chain q [m] := by
    refine ⟨⟨?_, trivial⟩, fun a ha => ?_, nodup_singleton m, fun a ha => ?_, fun a ha => ?_⟩
    · dsimp only
      rw [hcellm]
      rfl
    · obtain rfl := mem_singleton.1 ha
      rw [hcellm]
      exact hl.act a mem_cons_self
    · obtain rfl := mem_singleton.1 ha
      exact hl.used a mem_cons_self
    · obtain rfl := mem_singleton.1 ha
      exact hap
  have hlm : ∀ a ∈ l, a ≠ m := fun a ha h7 => hml (h7 ▸ ha)
  have hl0 : (s.setNext m none).Chain q l :=
    hl.tail.congr (fun a ha => hcell a (hlm a ha)) (fun _ _ => rfl) hl.tail.apart
  have hcc : ((s.sballoc m).setNext m none).cc = s.cc + (s.setNext m none).lens [m] := by
    rw [lens_cons, hcellm]
    simp [lens, setNext, sballoc]
  have hcnt : ((s.sballoc m).setNext m none).mbcnt = s.mbcnt + (s.setNext m none).charges [m] := by
    rw [charges_cons, hcellm]
    simp [charges, setNext, sballoc]
  obtain ⟨s1, s', q', h1, h2, h3, hk, h4⟩ := hs0.newRecord hr hl0
    (fun a ha => by simpa using hlm a ha) rfl (by rfl) (by rfl) (by rfl) (by rfl) hcc hcnt
  rw [enqueue_setNext] at h1
  cases h5 : (s.sballoc m).enqueue m with
  | error e =>
    rw [h5] at h1
    cases h1
  | ok s0 =>
    rw [h5] at h1
    obtain rfl := Except.ok.inj h1
    refine ⟨s', q', ?_, h3, hk, ?_⟩
    · unfold sbappendrecord
      dsimp only
      rw [h5]
      show sbcompress (bound A) (s0.setNext m none) (s0.cell m).next (some m) = _
      rw [enqueue_next h5 m]
      exact (congrArg (sbcompress _ _ · _) hnext).trans h2
    · have h6 : (s.setNext m none).recs q = s.recs q := recs_congr fun a _ => setNext_m s m a none
      have h7 : (s.setNext m none).view l = s.view l := view_congr fun a _ => setNext_m s m a none
      rw [h4, h6, h7]
      simp [record, view, SbMbuf.grown, setNext_m]

/-! ### Addresses and rights -/

/-- A buffer with the records `q` is as it was. -/
structure Kept (s s' : SockBuf A B) (q : List (A × List A)) : Prop where
  cells : ∀ a ∈ mbufs q, s'.cell a = s.cell a ∧ s'.used a = s.used a
  mb : s'.mb = s.mb
  cc : s'.cc = s.cc
  mbcnt : s'.mbcnt = s.mbcnt
  limits : s'.limits = s.limits

omit [DecidableEq A] [Fintype A] in
theorem Kept.refl (s : SockBuf A B) (q : List (A × List A)) : s.Kept s q :=
  ⟨fun _ _ => ⟨rfl, rfl⟩, rfl, rfl, rfl, rfl⟩

omit [DecidableEq A] [Fintype A] in
theorem Kept.holds (h : s.Kept s' q) (hs : s.Holds q) : s'.Holds q :=
  hs.congr h.cells h.mb h.cc h.mbcnt

omit [DecidableEq A] [Fintype A] in
theorem Kept.recs (h : s.Kept s' q) : s'.recs q = s.recs q :=
  recs_congr fun a ha => by rw [(h.cells a ha).1]

omit [DecidableEq A] [Fintype A] in
theorem Holds.free (hs : s.Holds q) (hu : s.used m = false) : m ∉ mbufs q := fun h => by
  rw [hs.shape.chained.used m (by simpa using h)] at hu
  cases hu

omit [Fintype A] in
theorem kept_mGet (h : m ∉ mbufs q) (c : SbMbuf B) : s.Kept (s.mGet m c) q :=
  ⟨fun a ha => ⟨update_of_ne (fun h1 : a = m => h (h1 ▸ ha)) _ _,
    update_of_ne (fun h1 : a = m => h (h1 ▸ ha)) _ _⟩, rfl, rfl, rfl, rfl⟩

omit [Fintype A] in
theorem Chain.mGet (hl : s.Chain q l) (h : m ∉ l) (c : SbMbuf B) : (s.mGet m c).Chain q l :=
  hl.congr (fun a ha => update_of_ne (fun h1 : a = m => h (h1 ▸ ha)) _ _)
    (fun a ha => update_of_ne (fun h1 : a = m => h (h1 ▸ ha)) _ _) hl.apart

omit [DecidableEq A] [Fintype A] in
theorem chainLen_spec (hl : Links (fun a => (s.cell a).next) l) (hf : l.length < fuel) :
    s.chainLen fuel l.head? = .ok (SbMbuf.bytes (s.view l)).length := by
  induction l generalizing fuel with
  | nil =>
    obtain ⟨fuel, rfl⟩ := Nat.exists_eq_succ_of_ne_zero (Nat.ne_zero_of_lt hf)
    rfl
  | cons m l ih =>
    obtain ⟨fuel, rfl⟩ := Nat.exists_eq_succ_of_ne_zero (Nat.ne_zero_of_lt hf)
    have hnext : (s.cell m).next = l.head? := hl.1
    show (s.chainLen fuel (s.cell m).next >>= fun k => pure ((s.cell m).m.len + k)) = _
    rw [hnext, ih hl.2 (by simpa using hf)]
    simp [view, SbMbuf.bytes, SbMbuf.len, pure, Except.pure, bind, Except.bind]

omit [Fintype A] in
/-- An mbuf from `MGET` is a chain. -/
theorem chain_mGet (h : m ∉ mbufs q) (c : SbMbuf B) : (s.mGet m c).Chain q [m] := by
  have hcell : (s.mGet m c).cell m = { next := none, act := none, m := c } := update_self ..
  refine ⟨⟨?_, trivial⟩, fun a ha => ?_, nodup_singleton m, fun a ha => ?_, fun a ha => ?_⟩
  · dsimp only
    rw [hcell]
    rfl
  · obtain rfl := mem_singleton.1 ha
    rw [hcell]
  · obtain rfl := mem_singleton.1 ha
    exact update_self ..
  · obtain rfl := mem_singleton.1 ha
    exact h

variable {rights0 got copied : Option A}

/-- The bytes of rights. -/
def rightsBytes (s : SockBuf A B) (rights : Option A) : List B :=
  rights.elim [] fun r => (s.cell r).m.dat

/-- The copy of rights, if they have bytes. -/
def rightsCopy (s : SockBuf A B) (rights : Option A) : List (SbMbuf B) :=
  rights.elim [] fun r => if (s.cell r).m.len = 0 then [] else [(s.cell r).m.copy]

/-- There is not enough space, or not enough mbufs. -/
def NoRoom (s : SockBuf A B) (asa : List B) (l : List A) (rights0 got copied : Option A) : Prop :=
  s.sbspace < asa.length + (SbMbuf.bytes (s.view l)).length + (s.rightsBytes rights0).length ∨
    got = none ∨ (s.rightsBytes rights0 ≠ [] ∧ copied = none)

theorem sbappendaddr_spec {noMbuf : ℤ} {asa : List B} {hasa : asa.length ≤ MLEN} (hno : noMbuf ≠ 1)
    (hs : s.Holds q) (hl : s.Chain q l) (hrights : ∀ r, rights0 = some r → s.used r = true)
    (hgot : ∀ m, got = some m → s.used m = false)
    (hcopied : ∀ c, copied = some c → s.used c = false ∧ got ≠ some c) :
    ∃ s' r, s.sbappendaddr noMbuf asa hasa l.head? rights0 got copied = .ok (s', r) ∧
      ((r = 1 ∧ ∃ q', s'.Holds q' ∧ s'.limits = s.limits ∧ s'.recs q' = s.recs q ++
          [SbMbuf.grown (.small MT_SONAME asa hasa :: s.rightsCopy rights0) (s.view l)]) ∨
        (r ≠ 1 ∧ s.NoRoom asa l rights0 got copied ∧ s.Kept s' q)) := by
  have hlen0 : (rights0.elim 0 fun r => (s.cell r).m.len) = (s.rightsBytes rights0).length := by
    cases rights0 <;> rfl
  unfold sbappendaddr
  rw [chainLen_spec hl.links (length_lt_bound hl.nodup)]
  simp only [bind, Except.bind]
  split_ifs with hspace
  · exact ⟨s, 0, rfl, .inr ⟨by omega, .inl (hlen0 ▸ hspace), .refl s q⟩⟩
  cases got with
  | none => exact ⟨s, noMbuf, rfl, .inr ⟨hno, .inr (.inl rfl), .refl s q⟩⟩
  | some m =>
    have hum := hgot m rfl
    have hmq := hs.free hum
    have hml : m ∉ l := fun h1 => by
      rw [hl.used m h1] at hum
      cases hum
    have hk1 : s.Kept (s.mGet m (.small MT_SONAME asa hasa)) q := kept_mGet hmq _
    have hl1 := hl.mGet hml (.small MT_SONAME asa hasa)
    have hr1 : (s.mGet m (.small MT_SONAME asa hasa)).Chain q [m] := chain_mGet hmq _
    have hcellm : (s.mGet m (.small MT_SONAME asa hasa)).cell m =
        { next := none, act := none, m := .small MT_SONAME asa hasa } := update_self ..
    have hcell1 : ∀ a, a ≠ m → (s.mGet m (.small MT_SONAME asa hasa)).cell a = s.cell a :=
      fun a ha => update_of_ne ha _ _
    have hu1 : (s.mGet m (.small MT_SONAME asa hasa)).used m = true := update_self ..
    have hu1' : ∀ a, a ≠ m → (s.mGet m (.small MT_SONAME asa hasa)).used a = s.used a :=
      fun a ha => update_of_ne ha _ _
    dsimp only
    clear hlen0
    generalize s.mGet m (.small MT_SONAME asa hasa) = s1 at *
    have hv1 : s1.view l = s.view l := view_congr fun a ha => by rw [hcell1 a fun h1 => hml (h1 ▸ ha)]
    have hs1 := hk1.holds hs
    have hc1 := hk1.recs
    -- the rights are none, or empty
    have hplain (h0 : s.rightsCopy rights0 = []) : ∃ s0 s', (s1.sballoc m).enqueue m = .ok s0 ∧
        sbcompress (bound A) s0 l.head? (some m) = .ok s' ∧ ∃ q', s'.Holds q' ∧ s'.limits = s.limits ∧
          s'.recs q' = s.recs q ++
            [SbMbuf.grown (.small MT_SONAME asa hasa :: s.rightsCopy rights0) (s.view l)] := by
      obtain ⟨s0, s', q', h1, h2, h3, hk, h4⟩ := hs1.newRecord hr1 hl1
        (fun a ha h1 => hml (mem_singleton.1 h1 ▸ ha)) rfl
        (by rfl : (s1.sballoc m).cell = s1.cell) (by rfl) (by rfl) (by rfl) (by simp [sballoc, lens])
        (by simp [sballoc, charges])
      refine ⟨s0, s', h1, h2, q', h3, hk.trans hk1.limits, ?_⟩
      rw [h4, hc1, hv1, h0]
      simp [record, view, hcellm]
    cases rights0 with
    | none =>
      obtain ⟨s0, s', h1, h2, h3⟩ := hplain rfl
      refine ⟨s', 1, ?_, .inl ⟨rfl, h3⟩⟩
      simp only [h1, h2]
      rfl
    | some r =>
      by_cases hlen : (s.cell r).m.len = 0
      · obtain ⟨s0, s', h1, h2, h3⟩ := hplain (if_pos hlen)
        refine ⟨s', 1, ?_, .inl ⟨rfl, h3⟩⟩
        simp only [Option.elim_some, hlen, ne_eq, not_true_eq_false, decide_false, h1, h2]
        rfl
      · simp only [Option.elim_some, hlen, ne_eq, not_false_eq_true, decide_true]
        cases copied with
        | none =>
          -- the mbuf of the address is freed
          dsimp only
          rw [mFree_spec hu1]
          have h0 : s.rightsBytes (some r) ≠ [] := fun h1 => hlen (congrArg List.length h1)
          refine ⟨{ s1 with used := update s1.used m false }, 0, rfl,
            .inr ⟨by omega, .inr (.inr ⟨h0, rfl⟩), ?_⟩⟩
          exact ⟨fun a ha => ⟨(hk1.cells a ha).1,
            (update_of_ne (fun h1 : a = m => hmq (h1 ▸ ha)) _ _).trans (hk1.cells a ha).2⟩, hk1.mb,
            hk1.cc, hk1.mbcnt, hk1.limits⟩
        | some c =>
          obtain ⟨huc, hmc⟩ := hcopied c rfl
          replace hmc : m ≠ c := fun h1 => hmc (congrArg some h1)
          have hcq := hs.free huc
          have hcl : c ∉ l := fun h1 => by
            rw [hl.used c h1] at huc
            cases huc
          have hrm : r ≠ m := by
            rintro rfl
            rw [hrights r rfl] at hum
            cases hum
          have huc1 : s1.used c = false := (hu1' c (Ne.symm hmc)).trans huc
          have hcell : ∀ a, a ≠ m → a ≠ c →
              ((s1.mGet c (s1.cell r).m.copy).setNext m (some c)).cell a = s.cell a :=
            fun a h1 h2 => (update_of_ne h1 _ _).trans ((update_of_ne h2 _ _).trans (hcell1 a h1))
          have hcellm2 : ((s1.mGet c (s1.cell r).m.copy).setNext m (some c)).cell m =
              { next := some c, act := none, m := .small MT_SONAME asa hasa } := by
            simp only [setNext, mGet, update_self, update_of_ne hmc, hcellm]
          have hcellc : ((s1.mGet c (s1.cell r).m.copy).setNext m (some c)).cell c =
              { next := none, act := none, m := (s.cell r).m.copy } := by
            simp only [setNext, mGet, update_self, update_of_ne (Ne.symm hmc), hcell1 r hrm]
          have hused : ∀ a, a ≠ c → ((s1.mGet c (s1.cell r).m.copy).setNext m (some c)).used a =
              s1.used a := fun a ha => update_of_ne ha _ _
          have husedc : ((s1.mGet c (s1.cell r).m.copy).setNext m (some c)).used c = true :=
            update_self ..
          have hlim : ((s1.mGet c (s1.cell r).m.copy).setNext m (some c)).mb = s1.mb ∧
              ((s1.mGet c (s1.cell r).m.copy).setNext m (some c)).cc = s1.cc ∧
              ((s1.mGet c (s1.cell r).m.copy).setNext m (some c)).mbcnt = s1.mbcnt ∧
              ((s1.mGet c (s1.cell r).m.copy).setNext m (some c)).limits = s1.limits :=
            ⟨rfl, rfl, rfl, rfl⟩
          dsimp only
          generalize (s1.mGet c (s1.cell r).m.copy).setNext m (some c) = s2 at *
          have hne : ∀ a ∈ mbufs q, a ≠ m ∧ a ≠ c := fun a ha =>
            ⟨fun h1 => hmq (h1 ▸ ha), fun h1 => hcq (h1 ▸ ha)⟩
          have hlne : ∀ a ∈ l, a ≠ m ∧ a ≠ c := fun a ha =>
            ⟨fun h1 => hml (h1 ▸ ha), fun h1 => hcl (h1 ▸ ha)⟩
          have hk2 : s.Kept s2 q := by
            refine ⟨fun a ha => ⟨hcell a (hne a ha).1 (hne a ha).2, ?_⟩, hlim.1.trans hk1.mb,
              hlim.2.1.trans hk1.cc, hlim.2.2.1.trans hk1.mbcnt, hlim.2.2.2.trans hk1.limits⟩
            exact (hused a (hne a ha).2).trans (hk1.cells a ha).2
          have hl2 : s2.Chain q l := by
            refine hl.congr (fun a ha => hcell a (hlne a ha).1 (hlne a ha).2) (fun a ha => ?_) hl.apart
            rw [hused a (hlne a ha).2, hu1' a (hlne a ha).1]
          have hr2 : s2.Chain q (m :: [c]) := by
            refine ⟨⟨?_, ?_, trivial⟩, fun a ha => ?_, by simpa using hmc, fun a ha => ?_, fun a ha => ?_⟩
            · dsimp only
              rw [hcellm2]
              rfl
            · dsimp only
              rw [hcellc]
              rfl
            · rcases mem_pair.1 ha with rfl | rfl
              · rw [hcellm2]
              · rw [hcellc]
            · rcases mem_pair.1 ha with rfl | rfl
              · rw [hused a hmc, hu1]
              · exact husedc
            · rcases mem_pair.1 ha with rfl | rfl
              · exact hmq
              · exact hcq
          obtain ⟨s0, s', q', h1, h2, h3, hk, h4⟩ := (hk2.holds hs).newRecord hr2 hl2
            (fun a ha h1 => (mem_pair.1 h1).elim (hlne a ha).1 (hlne a ha).2)
            (rfl : [m, c].getLast? = some c) (by rfl : ((s2.sballoc c).sballoc m).cell = s2.cell)
            (by rfl) (by rfl) (by rfl)
            (by simp [sballoc, lens]; omega) (by simp [sballoc, charges]; omega)
          refine ⟨s', 1, ?_, .inl ⟨rfl, q', h3, hk.trans hk2.limits, ?_⟩⟩
          · simp only [h1]
            rw [show sbcompress (bound A) s0 l.head? (some c) = .ok s' from h2]
            rfl
          · have hv2 : s2.view l = s.view l :=
              view_congr fun a ha => by rw [hcell a (hlne a ha).1 (hlne a ha).2]
            rw [h4, hk2.recs, hv2]
            simp [record, view, hcellm2, hcellc, rightsCopy, hlen]

/-- The rights are empty, or there is not enough space, or no mbuf. -/
def NoRights (s : SockBuf A B) (l : List A) (r : A) (copied : Option A) : Prop :=
  (s.cell r).m.len = 0 ∨ s.sbspace < (SbMbuf.bytes (s.view l)).length + (s.cell r).m.len ∨ copied = none

theorem sbappendrights_spec {r : A} (hs : s.Holds q) (hl : s.Chain q l)
    (hcopied : ∀ c, copied = some c → s.used c = false) :
    ∃ s' k, s.sbappendrights l.head? (some r) copied = .ok (s', k) ∧
      ((k = 1 ∧ ¬s.NoRights l r copied ∧ ∃ q', s'.Holds q' ∧ s'.limits = s.limits ∧
          s'.recs q' = s.recs q ++ [(s.cell r).m.copy.compressed (s.view l)]) ∨
        (k = 0 ∧ s.NoRights l r copied ∧ s.Kept s' q)) := by
  unfold sbappendrights
  dsimp only
  rw [chainLen_spec hl.links (length_lt_bound hl.nodup)]
  simp only [bind, Except.bind]
  split_ifs with hspace
  · exact ⟨s, 0, rfl, .inr ⟨rfl, .inr (.inl hspace), .refl s q⟩⟩
  by_cases hlen : (s.cell r).m.len = 0
  · simp only [hlen, ne_eq, not_true_eq_false, decide_false]
    exact ⟨s, 0, rfl, .inr ⟨rfl, .inl hlen, .refl s q⟩⟩
  simp only [hlen, ne_eq, not_false_eq_true, decide_true]
  cases copied with
  | none => exact ⟨s, 0, rfl, .inr ⟨rfl, .inr (.inr rfl), .refl s q⟩⟩
  | some c =>
    have huc := hcopied c rfl
    have hcq := hs.free huc
    have hcl : c ∉ l := fun h1 => by
      rw [hl.used c h1] at huc
      cases huc
    have hk1 : s.Kept (s.mGet c (s.cell r).m.copy) q := kept_mGet hcq _
    have hl1 := hl.mGet hcl (s.cell r).m.copy
    have hr1 : (s.mGet c (s.cell r).m.copy).Chain q [c] := chain_mGet hcq _
    have hcellc : (s.mGet c (s.cell r).m.copy).cell c =
        { next := none, act := none, m := (s.cell r).m.copy } := update_self ..
    have hcell : ∀ a, a ≠ c → (s.mGet c (s.cell r).m.copy).cell a = s.cell a :=
      fun a ha => update_of_ne ha _ _
    have hv1 : (s.mGet c (s.cell r).m.copy).view l = s.view l :=
      view_congr fun a ha => by rw [hcell a fun h1 => hcl (h1 ▸ ha)]
    dsimp only
    generalize s.mGet c (s.cell r).m.copy = s1 at *
    obtain ⟨s0, s', q', h1, h2, h3, hk, h4⟩ := (hk1.holds hs).newRecord hr1 hl1
      (fun a ha h1 => hcl (mem_singleton.1 h1 ▸ ha)) (rfl : [c].getLast? = some c)
      (by rfl : (s1.sballoc c).cell = s1.cell) (by rfl) (by rfl) (by rfl) (by simp [sballoc, lens])
      (by simp [sballoc, charges])
    have hroom : ¬s.NoRights l r (some c) := by
      rintro (h5 | h5 | h5)
      · exact hlen h5
      · exact hspace h5
      · cases h5
    refine ⟨s', 1, ?_, .inl ⟨rfl, hroom, q', h3, hk.trans hk1.limits, ?_⟩⟩
    · simp only [h1]
      rw [show sbcompress (bound A) s0 l.head? (some c) = .ok s' from h2]
      rfl
    · rw [h4, hk1.recs, hv1]
      simp [record, view, SbMbuf.grown, hcellc]

end SockBuf

end Hpux.Net
