import Hpux910.Net.SockBufAppend

/-!
# Taking from a socket buffer, and its runs

What the routines that drop do to the bytes of the records, and runs of all routines on a buffer that
starts empty, while the rest of the system does what it likes with the mbufs that are not the buffer's.

* `dropFront` : records without bytes at the front.
* `sbdrop_spec`, `sbdroprecord_spec`, `sbflush_spec` : the routines.
* `sbLts`, `Call`, `Does` : the runs, and what each call is for.
* `sockbuf_kept` : in every state of every run the links and counts are those of a list of records, and
  each call that may be made comes back having done to the bytes what it is for.
-/

namespace Hpux.Net

open Function List

namespace SockBuf

variable {A B : Type} [DecidableEq A] {s s' : SockBuf A B} {a b m n h : A} {fuel len : ℕ}
variable {l t rem : List A} {q : List (A × List A)} {c : List (List B)} {x y : List B}

/-- Bytes behind the last record; of no bytes no record is made. -/
def appendLast : List (List B) → List B → List (List B)
  | [], x => if x.isEmpty then [] else [x]
  | [y], x => [y ++ x]
  | y :: z :: c, x => y :: appendLast (z :: c) x

theorem fresh_bytes (l : List (SbMbuf B)) :
    (SbMbuf.fresh l).map SbMbuf.bytes = appendLast [] (SbMbuf.bytes l) := by
  induction l with
  | nil => rfl
  | cons m l ih =>
    have h1 : SbMbuf.bytes (m :: l) = m.dat ++ SbMbuf.bytes l := flatMap_cons
    unfold SbMbuf.fresh
    by_cases hm : m.len = 0
    · rw [if_pos hm, ih, h1, eq_nil_of_length_eq_zero hm, nil_append]
    · have h2 : m.dat ≠ [] := fun h => hm (by rw [SbMbuf.len, h]; rfl)
      rw [if_neg hm, h1, map_singleton, SbMbuf.compressed_bytes]
      simp [appendLast, h2]

theorem appended_bytes {c : List (List (SbMbuf B))} (hc : ∀ r ∈ c, r ≠ []) (l : List (SbMbuf B)) :
    (SbMbuf.appended c l).map SbMbuf.bytes = appendLast (c.map SbMbuf.bytes) (SbMbuf.bytes l) := by
  induction c with
  | nil => exact fresh_bytes l
  | cons r c ih =>
    cases c with
    | nil =>
      cases l with
      | nil => simp [SbMbuf.appended, appendLast, SbMbuf.bytes]
      | cons m l =>
        have h1 := SbMbuf.grown_bytes (hc r mem_cons_self) (m :: l)
        simp [SbMbuf.appended, appendLast, h1]
    | cons r' c =>
      have h1 := ih fun x hx => hc x (mem_cons_of_mem r hx)
      exact congrArg (SbMbuf.bytes r :: ·) h1

theorem copy_dat (m : SbMbuf B) : m.copy.dat = m.dat := by
  unfold SbMbuf.copy
  split <;> rfl

omit [DecidableEq A] in
theorem rightsCopy_bytes (s : SockBuf A B) (rights : Option A) :
    SbMbuf.bytes (s.rightsCopy rights) = s.rightsBytes rights := by
  cases rights with
  | none => rfl
  | some r =>
    by_cases h : (s.cell r).m.len = 0
    · have h1 : (s.cell r).m.dat = [] := eq_nil_of_length_eq_zero h
      simp [rightsCopy, rightsBytes, h, h1, SbMbuf.bytes]
    · simp [rightsCopy, rightsBytes, h, SbMbuf.bytes, copy_dat]

/-- Records without `len` bytes at the front; a record goes if none of its bytes is left. -/
def dropFront : ℕ → List (List B) → List (List B)
  | _, [] => []
  | len, x :: c =>
    if len < x.length then x.drop len :: c
    else if len = x.length then c
    else dropFront (len - x.length) c

/-- Records, of which the first is not there if it is empty. -/
def joined (x : List B) (c : List (List B)) : List (List B) := if x.isEmpty then c else x :: c

theorem dropFront_zero (x : List B) (c : List (List B)) : dropFront 0 (x :: c) = joined x c := by
  cases x <;> rfl

theorem dropFront_of_lt (h : len < x.length) (c : List (List B)) :
    dropFront len (x :: c) = joined (x.drop len) c := by
  have h1 : x.drop len ≠ [] := fun h1 => Nat.not_le_of_lt h (drop_eq_nil_iff.1 h1)
  rw [dropFront, if_pos h, joined, if_neg (by simpa using h1)]

theorem dropFront_nil (h : len ≠ 0) (c : List (List B)) : dropFront len ([] :: c) = dropFront len c := by
  simp [dropFront, h]

/-- The bytes `y` are dropped first. -/
theorem dropFront_append (h : y.length ≤ len) (x : List B) (c : List (List B)) :
    dropFront len ((y ++ x) :: c) = dropFront (len - y.length) (x :: c) := by
  unfold dropFront
  by_cases h1 : len - y.length < x.length
  · rw [if_pos h1, if_pos (by rw [length_append]; omega), drop_append,
      drop_eq_nil_of_le h, nil_append]
  · rw [if_neg h1, if_neg (by rw [length_append]; omega)]
    by_cases h2 : len - y.length = x.length
    · rw [if_pos h2, if_pos (by rw [length_append]; omega)]
    · rw [if_neg h2, if_neg (by rw [length_append]; omega), length_append]
      congr 1
      omega

theorem dropFront_length_lt (h : c ≠ []) (hl : c.flatten.length = len) :
    (dropFront len c).length < c.length := by
  induction c generalizing len with
  | nil => exact absurd rfl h
  | cons x c ih =>
    unfold dropFront
    rw [flatten_cons, length_append] at hl
    rw [if_neg (by omega)]
    split
    · exact Nat.lt_succ_self _
    · have h1 : c ≠ [] := by
        rintro rfl
        simp at hl
        omega
      have h2 : c.flatten.length = len - x.length := by omega
      exact Nat.lt_succ_of_lt (ih h1 h2)

/-- `c'` are the records `c` without `len` bytes at the front: without whole records, and without bytes of
the next one. -/
def Dropped (len : ℕ) (c c' : List (List B)) : Prop :=
  ∃ p r j, c = p ++ r ∧ p.flatten.length + j = len ∧
    ((j = 0 ∧ c' = r) ∨ ∃ x t, r = x :: t ∧ j < x.length ∧ c' = x.drop j :: t)

theorem dropped_dropFront (h : len ≤ c.flatten.length) : Dropped len c (dropFront len c) := by
  induction c generalizing len with
  | nil => exact ⟨[], [], 0, rfl, (Nat.le_zero.1 h).symm, .inl ⟨rfl, rfl⟩⟩
  | cons x c ih =>
    unfold dropFront
    split_ifs with h1 h2
    · exact ⟨[], x :: c, len, rfl, by simp, .inr ⟨x, c, rfl, h1, rfl⟩⟩
    · exact ⟨[x], c, 0, rfl, by simp [h2], .inl ⟨rfl, rfl⟩⟩
    · rw [flatten_cons, length_append] at h
      have h0 : len - x.length ≤ c.flatten.length := by omega
      obtain ⟨p, r, j, h3, h4, h5⟩ := ih h0
      refine ⟨x :: p, r, j, by rw [h3]; rfl, ?_, h5⟩
      clear h5
      rw [flatten_cons, length_append]
      omega

/-! ### Dropping -/

omit [DecidableEq A] in
theorem Chained.front_record {r : A × List A} (hs : s.Chained [] (r :: q)) :
    s.Chained (r.1 :: r.2) q ∧ (s.cell r.1).act = (q.map Prod.fst).head? := by
  have hmem : ∀ r' ∈ q, r' ∈ r :: q := fun r' h => mem_cons_of_mem r h
  refine ⟨⟨hs.nexts r mem_cons_self, hs.noact r mem_cons_self, hs.acts.2,
    fun r' h => hs.nexts r' (hmem r' h), fun r' h => hs.noact r' (hmem r' h), ?_, ?_⟩, hs.acts.1⟩
  · simpa using hs.nodup
  · simpa using hs.used

/-- The first mbuf is freed. -/
theorem Chained.free (hs : s.Chained (a :: rem) q) (hc : s.Counted (a :: rem ++ mbufs q)) :
    ∃ s1, (s.sbfree a).mFree a = .ok (s1, rem.head?) ∧ s1.Chained rem q ∧
      s1.Counted (rem ++ mbufs q) ∧ (s1.limits = s.limits ∧ s1.mb = s.mb) ∧ s1.cell = s.cell := by
  have hnext : (s.cell a).next = rem.head? := hs.front.1
  have hnd := hs.nodup
  rw [cons_append, nodup_cons] at hnd
  have hu : (s.sbfree a).used a = true := hs.used a (by simp)
  refine ⟨{ s.sbfree a with used := update s.used a false }, ?_, ?_, ⟨?_, ?_⟩, ⟨rfl, rfl⟩, rfl⟩
  · rw [mFree_spec hu]
    exact congrArg (fun o => Except.ok (_, o)) hnext
  · have h1 : s.Chained rem q :=
      ⟨hs.front.2, fun b hb => hs.frontact b (mem_of_mem_tail hb), hs.acts, hs.nexts, hs.noact,
        hnd.2, fun b hb => hs.used b (mem_cons_of_mem a hb)⟩
    exact h1.congr fun b hb => ⟨rfl, rfl, update_of_ne (fun h2 : b = a => hnd.1 (h2 ▸ hb)) _ _⟩
  · have h1 := hc.1
    rw [cons_append, lens_cons] at h1
    show s.cc - (s.cell a).m.len = s.lens (rem ++ mbufs q)
    omega
  · have h1 := hc.2
    rw [cons_append, charges_cons] at h1
    show s.mbcnt - (s.cell a).m.charge = s.charges (rem ++ mbufs q)
    omega

omit [DecidableEq A] in
theorem bytes_view_cons (s : SockBuf A B) (a : A) (l : List A) :
    SbMbuf.bytes (s.view (a :: l)) = (s.cell a).m.dat ++ SbMbuf.bytes (s.view l) :=
  flatMap_cons

omit [DecidableEq A] in
theorem content_cons (s : SockBuf A B) (r : A × List A) (q : List (A × List A)) :
    s.content (r :: q) = SbMbuf.bytes (s.view (r.1 :: r.2)) :: s.content q := rfl

theorem trim_charge {c : SbMbuf B} (h : len < c.len) : (c.trim len h).charge = c.charge := by
  unfold SbMbuf.charge SbMbuf.trim
  by_cases h1 : MLEN < c.off
  · rw [if_pos h1, if_pos (Nat.lt_add_right len h1)]
  · have h2 := c.fits (Nat.le_of_not_lt h1)
    unfold SbMbuf.len at h
    rw [if_neg h1, if_neg (by dsimp only; omega)]

/-- The first bytes of the first mbuf are cut off. -/
theorem Chained.trim (hs : s.Chained (a :: rem) q) (hc : s.Counted (a :: rem ++ mbufs q))
    (hlt : len < (s.cell a).m.len) :
    ∃ s1, s1 = { s.setMbuf a ((s.cell a).m.trim len hlt) with cc := s.cc - len } ∧
      s1.Chained (a :: rem) q ∧ s1.Counted (a :: rem ++ mbufs q) ∧
      SbMbuf.bytes (s1.view (a :: rem)) = (SbMbuf.bytes (s.view (a :: rem))).drop len ∧
      s1.content q = s.content q := by
  have hnd := hs.nodup
  have ha : a ∈ a :: rem ++ mbufs q := mem_append_left _ mem_cons_self
  have hcell : ∀ b, b ≠ a → (s.setMbuf a ((s.cell a).m.trim len hlt)).cell b = s.cell b :=
    fun b hb => update_of_ne hb _ _
  have hcella : (s.setMbuf a ((s.cell a).m.trim len hlt)).cell a =
      { s.cell a with m := (s.cell a).m.trim len hlt } := update_self ..
  have hna : a ∉ rem ++ mbufs q := (nodup_cons.1 hnd).1
  refine ⟨_, rfl, hs.congr fun b _ => ?_, hc.congr ?_ ?_, ?_, ?_⟩
  · dsimp only
    by_cases hb : b = a
    · subst hb
      rw [hcella]
      exact ⟨rfl, rfl, rfl⟩
    · rw [hcell b hb]
      exact ⟨rfl, rfl, rfl⟩
  · have h1 : (s.setMbuf a ((s.cell a).m.trim len hlt)).lens (a :: rem ++ mbufs q) =
        s.lens (a :: rem ++ mbufs q) + _ :=
      lens_change hnd ha fun b hb => by rw [hcell b hb]
    show s.cc - len = s.cc + ((s.setMbuf a ((s.cell a).m.trim len hlt)).lens _ - _)
    rw [h1, hcella]
    simp only [SbMbuf.len, SbMbuf.trim, length_drop] at hlt ⊢
    omega
  · have h1 : (s.setMbuf a ((s.cell a).m.trim len hlt)).charges (a :: rem ++ mbufs q) =
        s.charges (a :: rem ++ mbufs q) + _ :=
      charges_change hnd ha fun b hb => by rw [hcell b hb]
    show s.mbcnt = s.mbcnt + ((s.setMbuf a ((s.cell a).m.trim len hlt)).charges _ - _)
    have h2 : ((s.cell a).m.trim len hlt).charge = (s.cell a).m.charge := trim_charge hlt
    rw [h1, hcella, h2]
    omega
  · have h1 : (s.setMbuf a ((s.cell a).m.trim len hlt)).view rem = s.view rem :=
      view_congr fun b hb => by rw [hcell b fun h2 => hna (h2 ▸ mem_append_left _ hb)]
    show SbMbuf.bytes ((s.setMbuf a ((s.cell a).m.trim len hlt)).view (a :: rem)) = _
    rw [bytes_view_cons, bytes_view_cons, h1, hcella, drop_append_of_le_length (Nat.le_of_lt hlt)]
    rfl
  · refine congrArg (List.map SbMbuf.bytes) (recs_congr fun b hb => ?_)
    · show ((s.setMbuf a ((s.cell a).m.trim len hlt)).cell b).m = _
      rw [hcell b fun h2 => hna (h2 ▸ mem_append_right _ hb)]

/-- The first loop of `sbdrop`. -/
theorem dropLoop_spec (hs : s.Chained rem q) (hc : s.Counted (rem ++ mbufs q))
    (hlen : len ≤ (SbMbuf.bytes (s.view rem)).length + (s.content q).flatten.length)
    (hf : rem.length + (mbufs q).length + q.length < fuel) :
    ∃ s' rem' q', dropLoop fuel s rem.head? (q.map Prod.fst).head? len =
        .ok (s', rem'.head?, (q'.map Prod.fst).head?) ∧ s'.Chained rem' q' ∧
      s'.Counted (rem' ++ mbufs q') ∧ s'.limits = s.limits ∧
      joined (SbMbuf.bytes (s'.view rem')) (s'.content q') =
        dropFront len (SbMbuf.bytes (s.view rem) :: s.content q) := by
  induction fuel generalizing s rem q len with
  | zero => omega
  | succ fuel ih =>
    unfold dropLoop
    by_cases h0 : len = 0
    · subst h0
      exact ⟨s, rem, q, by rw [if_pos rfl], hs, hc, rfl, (dropFront_zero _ _).symm⟩
    rw [if_neg h0]
    cases rem with
    | nil =>
      cases q with
      | nil =>
        simp [content, recs, view, SbMbuf.bytes] at hlen
        exact absurd hlen h0
      | cons r q =>
        -- on to the next record
        obtain ⟨h1, h2⟩ := hs.front_record
        rw [content_cons, flatten_cons, length_append] at hlen
        have h3 : s.Counted ((r.1 :: r.2) ++ mbufs q) := by simpa using hc
        obtain ⟨s', rem', q', h4, h5, h6, h7, h8⟩ := ih h1 h3 (by simpa [view, SbMbuf.bytes] using hlen)
          (by simp at hf ⊢; omega)
        refine ⟨s', rem', q', ?_, h5, h6, h7, ?_⟩
        · simp only [head?_nil, map_cons, head?_cons]
          rw [h2]
          exact h4
        · rw [h8]
          exact (dropFront_nil h0 _).symm
    | cons a rem =>
      simp only [head?_cons]
      rw [bytes_view_cons] at hlen ⊢
      by_cases h1 : len < (s.cell a).m.len
      · rw [dif_pos h1]
        obtain ⟨s1, h0, h2, h3, h4, h5⟩ := hs.trim hc h1
        refine ⟨s1, a :: rem, q, by rw [h0]; rfl, h2, h3, by rw [h0]; rfl, ?_⟩
        rw [h4, h5, bytes_view_cons]
        have h6 : len < ((s.cell a).m.dat ++ SbMbuf.bytes (s.view rem)).length := by
          rw [length_append]
          exact Nat.lt_add_right _ h1
        exact (dropFront_of_lt h6 _).symm
      · rw [dif_neg h1]
        obtain ⟨s1, h2, h3, h4, h5, h6⟩ := hs.free hc
        rw [h2]
        have hv : s1.view rem = s.view rem := view_congr fun b _ => by rw [h6]
        have hcont : s1.content q = s.content q := congrArg (List.map SbMbuf.bytes) (recs_congr fun b _ => by rw [h6])
        have hle : (s.cell a).m.dat.length ≤ len := Nat.le_of_not_lt h1
        rw [length_append] at hlen
        have hlen' : len - (s.cell a).m.len ≤
            (SbMbuf.bytes (s1.view rem)).length + (s1.content q).flatten.length := by
          rw [hv, hcont]
          unfold SbMbuf.len
          omega
        obtain ⟨s', rem', q', h7, h8, h9, h10, h11⟩ := ih h3 h4 hlen' (by simp at hf ⊢; omega)
        refine ⟨s', rem', q', h7, h8, h9, h10.trans h5.1, ?_⟩
        rw [h11, hv, hcont, dropFront_append hle]
        rfl

/-- The second loop. -/
theorem dropEmpty_spec (hs : s.Chained rem q) (hc : s.Counted (rem ++ mbufs q))
    (hf : rem.length < fuel) :
    ∃ s' rem', dropEmpty fuel s rem.head? = .ok (s', rem'.head?) ∧ s'.Chained rem' q ∧
      s'.Counted (rem' ++ mbufs q) ∧ s'.limits = s.limits ∧ s'.content q = s.content q ∧
      SbMbuf.bytes (s'.view rem') = SbMbuf.bytes (s.view rem) ∧
      (rem' = [] ↔ SbMbuf.bytes (s.view rem) = []) := by
  induction rem generalizing s fuel with
  | nil =>
    obtain ⟨fuel, rfl⟩ := Nat.exists_eq_succ_of_ne_zero (Nat.ne_zero_of_lt hf)
    exact ⟨s, [], rfl, hs, hc, rfl, rfl, rfl, by simp [view, SbMbuf.bytes]⟩
  | cons a rem ih =>
    obtain ⟨fuel, rfl⟩ := Nat.exists_eq_succ_of_ne_zero (Nat.ne_zero_of_lt hf)
    unfold dropEmpty
    simp only [head?_cons]
    by_cases h1 : (s.cell a).m.len = 0
    · have h0 : (s.cell a).m.dat = [] := eq_nil_of_length_eq_zero h1
      obtain ⟨s1, h2, h3, h4, h5, h6⟩ := hs.free hc
      rw [if_pos h1, h2]
      have hv : s1.view rem = s.view rem := view_congr fun b _ => by rw [h6]
      have hcont : s1.content q = s.content q := congrArg (List.map SbMbuf.bytes) (recs_congr fun b _ => by rw [h6])
      obtain ⟨s', rem', h7, h8, h9, h10, h11, h12, h13⟩ := ih h3 h4 (by simpa using hf)
      refine ⟨s', rem', h7, h8, h9, h10.trans h5.1, h11.trans hcont, ?_, ?_⟩
      · rw [h12, hv, bytes_view_cons, h0, nil_append]
      · rw [h13, hv, bytes_view_cons, h0, nil_append]
    · rw [if_neg h1]
      refine ⟨s, a :: rem, rfl, hs, hc, rfl, rfl, rfl, ⟨(by simp), fun h2 => ?_⟩⟩
      rw [bytes_view_cons] at h2
      rw [SbMbuf.len, (append_eq_nil_iff.1 h2).1] at h1
      exact absurd rfl h1

/-- What is left of a record is made the first one. -/
theorem Chained.close (hs : s.Chained (a :: rem) q) (hc : s.Counted (a :: rem ++ mbufs q)) :
    ∃ s1, s1 = { s with mb := some a }.setAct a (q.map Prod.fst).head? ∧ s1.Holds ((a, rem) :: q) ∧
      s1.content ((a, rem) :: q) = s.content ((a, rem) :: q) := by
  have hnd := hs.nodup
  have hna : a ∉ rem ++ mbufs q := (nodup_cons.1 hnd).1
  have hcell : ∀ b, b ≠ a →
      (setAct { s with mb := some a } a (q.map Prod.fst).head?).cell b = s.cell b :=
    fun b hb => update_of_ne hb _ _
  have hcella : (setAct { s with mb := some a } a (q.map Prod.fst).head?).cell a =
      { s.cell a with act := (q.map Prod.fst).head? } := update_self ..
  have hsame : ∀ b, ((setAct { s with mb := some a } a (q.map Prod.fst).head?).cell b).next =
        (s.cell b).next ∧
      ((setAct { s with mb := some a } a (q.map Prod.fst).head?).cell b).m = (s.cell b).m := by
    intro b
    by_cases hb : b = a
    · subst hb
      rw [hcella]
      exact ⟨rfl, rfl⟩
    · rw [hcell b hb]
      exact ⟨rfl, rfl⟩
  have hq : ∀ r ∈ q, ∀ b ∈ r.1 :: r.2, b ≠ a := fun r hr b hb h1 =>
    hna (mem_append_right _ (mem_flatMap.2 ⟨r, hr, h1 ▸ hb⟩))
  have hmb : (setAct { s with mb := some a } a (q.map Prod.fst).head?).mb = some a := rfl
  have hcc : (setAct { s with mb := some a } a (q.map Prod.fst).head?).cc = s.cc ∧
    (setAct { s with mb := some a } a (q.map Prod.fst).head?).mbcnt = s.mbcnt ∧
    (setAct { s with mb := some a } a (q.map Prod.fst).head?).used = s.used := ⟨rfl, rfl, rfl⟩
  refine ⟨_, rfl, ?_⟩
  generalize setAct { s with mb := some a } a (q.map Prod.fst).head? = s1 at *
  refine ⟨⟨⟨⟨trivial, nofun, ⟨?_, ?_⟩, fun r hr => ?_, fun r hr b hb => ?_, ?_, fun b hb => ?_⟩, hmb⟩,
    ?_, ?_⟩, congrArg (List.map SbMbuf.bytes) (recs_congr fun b _ => (hsame b).2)⟩
  · dsimp only
    rw [hcella]
  · refine hs.acts.congr fun b hb => ?_
    obtain ⟨r, hr, rfl⟩ := mem_map.1 hb
    rw [hcell _ (hq r hr r.1 mem_cons_self)]
  · rcases mem_cons.1 hr with rfl | hr
    · exact hs.front.congr fun b _ => (hsame b).1
    · exact (hs.nexts r hr).congr fun b _ => (hsame b).1
  · rcases mem_cons.1 hr with rfl | hr
    · rw [hcell b fun h1 => hna (h1 ▸ mem_append_left _ hb)]
      exact hs.frontact b hb
    · rw [hcell b (hq r hr b (mem_cons_of_mem _ hb))]
      exact hs.noact r hr b hb
  · simpa using hnd
  · rw [hcc.2.2]
    exact hs.used b (by simpa using hb)
  · rw [hcc.1, hc.1]
    exact (lens_congr fun b _ => by rw [(hsame b).2]).symm
  · rw [hcc.2.1, hc.2]
    exact (charges_congr fun b _ => by rw [(hsame b).2]).symm

omit [DecidableEq A] in
theorem lens_eq (s : SockBuf A B) (l : List A) : s.lens l = (SbMbuf.bytes (s.view l)).length := by
  induction l with
  | nil => rfl
  | cons a l ih =>
    rw [lens_cons, bytes_view_cons, length_append, ih, Int.natCast_add]
    rfl

omit [DecidableEq A] in
theorem lens_mbufs (s : SockBuf A B) (q : List (A × List A)) :
    s.lens (mbufs q) = (s.content q).flatten.length := by
  induction q with
  | nil => rfl
  | cons r q ih =>
    rw [mbufs_cons, lens_append, content_cons, flatten_cons, length_append, lens_eq, ih]
    rfl

variable [Fintype A]

omit [DecidableEq A] in
theorem Chained.length_lt (hs : s.Chained rem q) :
    rem.length + (mbufs q).length + q.length < 2 * bound A := by
  have h1 := hs.nodup.length_le_card
  have h2 : ∀ p : List (A × List A), p.length ≤ (mbufs p).length := fun p => by
    induction p with
    | nil => exact Nat.le_refl 0
    | cons r p ih =>
      rw [mbufs_cons, length_append, length_cons, length_cons]
      omega
  have h3 := h2 q
  rw [length_append] at h1
  unfold bound
  omega

theorem sbdrop_spec {len : ℤ} (hs : s.Holds q) (hlen : len ≤ s.cc) :
    ∃ s' q', s.sbdrop len = .ok s' ∧ s'.Holds q' ∧ s'.limits = s.limits ∧
      s'.content q' = dropFront len.toNat (s.content q) := by
  -- the first record is taken apart, if there is one
  obtain ⟨rem, q1, hm, hn, hs1, hc1, hcont, hle⟩ : ∃ rem q1, s.mb = rem.head? ∧
      (s.mb.bind fun a => (s.cell a).act) = (q1.map Prod.fst).head? ∧ s.Chained rem q1 ∧
      s.Counted (rem ++ mbufs q1) ∧
      dropFront len.toNat (SbMbuf.bytes (s.view rem) :: s.content q1) =
        dropFront len.toNat (s.content q) ∧
      len.toNat ≤ (SbMbuf.bytes (s.view rem)).length + (s.content q1).flatten.length := by
    have hcc := hs.counted.1
    rw [lens_mbufs] at hcc
    cases q with
    | nil =>
      have h0 : s.mb = none := hs.shape.mb
      have h1 : len.toNat = 0 := by
        simp [content, recs] at hcc
        omega
      refine ⟨[], [], h0, by rw [h0]; rfl, hs.shape.chained, hs.counted, by rw [h1]; rfl, ?_⟩
      omega
    | cons r q =>
      obtain ⟨h1, h2⟩ := hs.shape.chained.front_record
      have h0 : s.mb = some r.1 := hs.shape.mb
      refine ⟨r.1 :: r.2, q, h0, by rw [h0]; exact h2, h1, by simpa using hs.counted, rfl, ?_⟩
      rw [content_cons, flatten_cons, length_append] at hcc
      omega
  obtain ⟨s2, rem2, q2, h1, h2, h3, h4, h5⟩ := dropLoop_spec hs1 hc1 hle hs1.length_lt
  have hb : rem2.length < bound A :=
    length_lt_bound (h2.nodup.sublist (sublist_append_left rem2 _))
  obtain ⟨s3, rem3, h6, h7, h8, h9, h10, h11, h12⟩ := dropEmpty_spec h2 h3 hb
  have hrun : s.sbdrop len = rem3.head?.elim (.ok { s3 with mb := (q2.map Prod.fst).head? })
      fun a => .ok ({ s3 with mb := some a }.setAct a (q2.map Prod.fst).head?) := by
    unfold sbdrop
    rw [hm] at hn
    rw [hm, hn, h1]
    simp only [bind, Except.bind]
    rw [h6]
    cases rem3 <;> rfl
  rw [← hcont, ← h5, hrun]
  cases rem3 with
  | nil =>
    refine ⟨_, q2, rfl, ⟨⟨h7.congr fun _ _ => ⟨rfl, rfl, rfl⟩, rfl⟩, h8⟩, h9.trans h4, ?_⟩
    rw [joined, if_pos (by simpa using h12.1 rfl)]
    exact h10
  | cons a rem3 =>
    obtain ⟨s4, h13, h14, h15⟩ := h7.close h8
    refine ⟨s4, (a, rem3) :: q2, by rw [h13]; rfl, h14, by rw [h13]; exact h9.trans h4, ?_⟩
    have h16 : SbMbuf.bytes (s2.view rem2) ≠ [] := fun h => by simpa using h12.2 h
    rw [h15, content_cons, h10, joined, if_neg (by simpa using h16), h11]

omit [Fintype A] in
/-- The loop of `sbdroprecord`. -/
theorem freeRecord_spec (hs : s.Chained (a :: rem) q) (hc : s.Counted (a :: rem ++ mbufs q))
    (hf : rem.length < fuel) :
    ∃ s', freeRecord fuel s a = .ok s' ∧ s'.Chained [] q ∧ s'.Counted (mbufs q) ∧ s'.mb = s.mb ∧
      s'.limits = s.limits ∧ s'.cell = s.cell := by
  induction rem generalizing s a fuel with
  | nil =>
    obtain ⟨fuel, rfl⟩ := Nat.exists_eq_succ_of_ne_zero (Nat.ne_zero_of_lt hf)
    obtain ⟨s1, h1, h2, h3, h4, h5⟩ := hs.free hc
    refine ⟨s1, ?_, h2, by simpa using h3, h4.2, h4.1, h5⟩
    unfold freeRecord
    rw [h1]
    rfl
  | cons b rem ih =>
    obtain ⟨fuel, rfl⟩ := Nat.exists_eq_succ_of_ne_zero (Nat.ne_zero_of_lt hf)
    obtain ⟨s1, h1, h2, h3, h4, h5⟩ := hs.free hc
    obtain ⟨s', h6, h7, h8, h9, h10, h11⟩ := ih h2 h3 (by simpa using hf)
    refine ⟨s', ?_, h7, h8, h9.trans h4.2, h10.trans h4.1, h11.trans h5⟩
    unfold freeRecord
    rw [h1]
    exact h6

theorem sbdroprecord_spec (hs : s.Holds q) :
    ∃ s' q', s.sbdroprecord = .ok s' ∧ s'.Holds q' ∧ s'.limits = s.limits ∧
      s'.content q' = (s.content q).tail := by
  unfold sbdroprecord
  rw [hs.shape.mb]
  cases q with
  | nil => exact ⟨s, [], rfl, hs, rfl, rfl⟩
  | cons r q =>
    obtain ⟨h1, h2⟩ := hs.shape.chained.front_record
    simp only [map_cons, head?_cons]
    rw [h2]
    have h3 : Chained { s with mb := (q.map Prod.fst).head? } (r.1 :: r.2) q :=
      h1.congr fun _ _ => ⟨rfl, rfl, rfl⟩
    have h4 : Counted { s with mb := (q.map Prod.fst).head? } (r.1 :: r.2 ++ mbufs q) := hs.counted
    have hb : (r.1 :: r.2).length < bound A :=
      length_lt_bound (h1.nodup.sublist (sublist_append_left _ _))
    obtain ⟨s', h5, h6, h7, h8, h9, h10⟩ := freeRecord_spec h3 h4 (Nat.lt_of_succ_lt hb)
    exact ⟨s', q, h5, ⟨⟨h6, h8⟩, h7⟩, h9, congrArg (List.map SbMbuf.bytes) (recs_congr fun b _ => by rw [h10])⟩

omit [DecidableEq A] [Fintype A] in
theorem Holds.charged (hs : s.Holds q) : 0 ≤ s.mbcnt ∧ (s.mbcnt = 0 → q = []) := by
  have h1 : ∀ l : List A, 0 ≤ s.charges l := fun l => by
    induction l with
    | nil => exact Int.le_refl 0
    | cons a l ih =>
      rw [charges_cons]
      omega
  rw [hs.counted.2]
  refine ⟨h1 _, fun h => ?_⟩
  cases q with
  | nil => rfl
  | cons r q =>
    have h2 := h1 (r.2 ++ mbufs q)
    rw [mbufs_cons, cons_append, charges_cons] at h
    have h3 : MSIZE ≤ (s.cell r.1).m.charge := by
      unfold SbMbuf.charge
      split <;> omega
    have h4 : 0 < MSIZE := by decide
    omega

theorem flushLoop_spec (hs : s.Holds q) (hf : q.length < fuel) :
    ∃ s', flushLoop fuel s = .ok s' ∧ s'.Holds [] ∧ s'.limits = s.limits := by
  induction fuel generalizing s q with
  | zero => omega
  | succ fuel ih =>
    unfold flushLoop
    by_cases h0 : s.mbcnt = 0
    · rw [if_pos h0]
      obtain rfl := hs.charged.2 h0
      exact ⟨s, rfl, hs, rfl⟩
    · rw [if_neg h0]
      have hq : s.content q ≠ [] := by
        intro h1
        obtain rfl := map_eq_nil_iff.1 (map_eq_nil_iff.1 h1)
        exact h0 hs.counted.2
      obtain ⟨s1, q1, h1, h2, h3, h4⟩ := sbdrop_spec hs (Int.le_refl s.cc)
      have hcc := hs.counted.1
      rw [lens_mbufs] at hcc
      have h5 : (s.content q).flatten.length = s.cc.toNat := by omega
      have h6 : (s1.content q1).length < (s.content q).length := h4 ▸ dropFront_length_lt hq h5
      unfold content recs at h6
      rw [length_map, length_map, length_map, length_map] at h6
      obtain ⟨s', h7, h8, h9⟩ := ih h2 (by omega)
      refine ⟨s', ?_, h8, h9.trans h3⟩
      rw [h1]
      exact h7

theorem sbflush_spec (hs : s.Holds q) (hl : s.locked = false) :
    ∃ s', s.sbflush = .ok s' ∧ s'.Holds [] ∧ s'.limits = s.limits := by
  have h2 : q.length < bound A := by
    have h3 := length_lt_bound (A := A) hs.shape.chained.heads_nodup
    rwa [length_map] at h3
  obtain ⟨s', h3, h4, h5⟩ := flushLoop_spec hs h2
  refine ⟨s', ?_, h4, h5⟩
  unfold sbflush
  rw [hl, if_neg Bool.false_ne_true, h3]
  have h6 : ¬(s'.cc ≠ 0 ∨ s'.mbcnt ≠ 0 ∨ s'.mb ≠ none) := by
    have h7 : s'.cc = 0 := h4.counted.1
    have h8 : s'.mbcnt = 0 := h4.counted.2
    have h9 : s'.mb = none := h4.shape.mb
    simp [h7, h8, h9]
  simp only [bind, Except.bind]
  rw [if_neg h6]
  rfl

/-! ### Runs -/

omit [DecidableEq A] [Fintype A] in
theorem locked_eq (h : s'.limits = s.limits) : s'.locked = s.locked :=
  congrArg (fun x : ℤ × ℤ × Bool => x.2.2) h

omit [DecidableEq A] [Fintype A] in
/-- The mbufs that the links of the buffer lead to. -/
inductive OnQueue (s : SockBuf A B) : A → Prop where
  | mb {a : A} : s.mb = some a → OnQueue s a
  | next {a b : A} : OnQueue s a → (s.cell a).next = some b → OnQueue s b
  | act {a b : A} : OnQueue s a → (s.cell a).act = some b → OnQueue s b

omit [DecidableEq A] [Fintype A] in
theorem Shape.onQueue (hs : s.Shape q) : ∀ a ∈ mbufs q, s.OnQueue a := by
  have h1 : ∀ a ∈ q.map Prod.fst, s.OnQueue a :=
    hs.chained.acts.forall_mem (fun a ha => .mb (hs.mb.trans ha)) fun _ _ _ h2 h3 => .act h2 h3
  intro a ha
  obtain ⟨r, hr, har⟩ := mem_flatMap.1 ha
  refine (hs.chained.nexts r hr).forall_mem (fun b hb => ?_) (fun _ _ _ h2 h3 => .next h2 h3) a har
  obtain rfl := Option.some.inj hb
  exact h1 r.1 (mem_map_of_mem hr)

/-- A chain that a caller passes: mbufs of its own, linked through `m_next` alone. -/
structure Passed (s : SockBuf A B) (l : List A) : Prop where
  links : Links (fun a => (s.cell a).next) l
  act : ∀ a ∈ l, (s.cell a).act = none
  nodup : l.Nodup
  used : ∀ a ∈ l, s.used a = true
  own : ∀ a ∈ l, ¬s.OnQueue a

omit [DecidableEq A] [Fintype A] in
theorem Passed.chain (h : s.Passed l) (hs : s.Shape q) : s.Chain q l :=
  ⟨h.links, h.act, h.nodup, h.used, fun a ha h1 => h.own a ha (hs.onQueue a h1)⟩

/-- The calls; a chain is named by its mbufs.  `other` is what the rest of the system does. -/
inductive Call (A B : Type) where
  | append (l : List A)
  | appendrecord (l : List A)
  | appendaddr (noMbuf : ℤ) (asa : List B) (hasa : asa.length ≤ MLEN) (l : List A)
      (rights got copied : Option A)
  | appendrights (l : List A) (rights : A) (copied : Option A)
  | drop (len : ℤ)
  | droprecord
  | flush
  | other (t : SockBuf A B)

/-- The value is 1 where the routine has none. -/
def call (s : SockBuf A B) : Call A B → Except Trap (SockBuf A B × ℤ)
  | .append l => s.sbappend l.head? >>= fun s => pure (s, 1)
  | .appendrecord l => s.sbappendrecord l.head? >>= fun s => pure (s, 1)
  | .appendaddr noMbuf asa hasa l rights got copied =>
    s.sbappendaddr noMbuf asa hasa l.head? rights got copied
  | .appendrights l rights copied => s.sbappendrights l.head? (some rights) copied
  | .drop len => s.sbdrop len >>= fun s => pure (s, 1)
  | .droprecord => s.sbdroprecord >>= fun s => pure (s, 1)
  | .flush => s.sbflush >>= fun s => pure (s, 1)
  | .other t => .ok (t, 1)

/-- What callers see to; `MGET` finds free mbufs. -/
def Enabled (s : SockBuf A B) : Call A B → Prop
  | .append l => s.Passed l
  | .appendrecord l => s.Passed l
  | .appendaddr noMbuf _ _ l rights got copied =>
    noMbuf ≠ 1 ∧ s.Passed l ∧ (∀ r, rights = some r → s.used r = true) ∧
      (∀ m, got = some m → s.used m = false) ∧ ∀ c, copied = some c → s.used c = false ∧ got ≠ some c
  | .appendrights l _ copied => s.Passed l ∧ ∀ c, copied = some c → s.used c = false
  | .drop len => len ≤ s.cc
  | .droprecord => True
  | .flush => True
  | .other t => t.mb = s.mb ∧ t.cc = s.cc ∧ t.mbcnt = s.mbcnt ∧ t.locked = s.locked ∧
      ∀ a, s.OnQueue a → t.cell a = s.cell a ∧ t.used a = s.used a

/-- What a call that is carried out does to the bytes of the records. -/
def Does (s : SockBuf A B) (c c' : List (List B)) : Call A B → Prop
  | .append l => c' = appendLast c (SbMbuf.bytes (s.view l))
  | .appendrecord [] => c' = c
  | .appendrecord (m :: l) => c' = c ++ [SbMbuf.bytes (s.view (m :: l))]
  | .appendaddr _ asa _ l rights _ _ =>
    c' = c ++ [asa ++ s.rightsBytes rights ++ SbMbuf.bytes (s.view l)]
  | .appendrights l rights _ => c' = c ++ [s.rightsBytes (some rights) ++ SbMbuf.bytes (s.view l)]
  | .drop len => Dropped len.toNat c c'
  | .droprecord => c' = c.tail
  | .flush => c' = []
  | .other _ => c' = c

/-- The calls that may fail, and when. -/
def Fails (s : SockBuf A B) : Call A B → Prop
  | .appendaddr _ asa _ l rights got copied => s.NoRoom asa l rights got copied
  | .appendrights l rights copied => s.NoRights l rights copied
  | _ => False

/-- A call comes back: it has done what it is for, or failed with the buffer as it was. -/
theorem call_spec (hs : s.Holds q) (hl : s.locked = false) {x : Call A B} (hx : s.Enabled x) :
    ∃ s' k, s.call x = .ok (s', k) ∧ s'.locked = false ∧
      ((k = 1 ∧ ∃ q', s'.Holds q' ∧ s.Does (s.content q) (s'.content q') x) ∨
        (k ≠ 1 ∧ s.Fails x ∧ s.Kept s' q)) := by
  cases x with
  | append l =>
    obtain ⟨s', q', h1, h2, h3, h4⟩ := sbappend_spec hs (hx.chain hs.shape)
    have h5 : ∀ r ∈ s.recs q, r ≠ [] := fun r hr => by
      obtain ⟨r', -, rfl⟩ := mem_map.1 hr
      exact cons_ne_nil _ _
    refine ⟨s', 1, by simp only [call, h1]; rfl, (locked_eq h3).trans hl, .inl ⟨rfl, q', h2, ?_⟩⟩
    show s'.content q' = _
    rw [content, h4, appended_bytes h5]
    rfl
  | appendrecord l =>
    cases l with
    | nil => exact ⟨s, 1, rfl, hl, .inl ⟨rfl, q, hs, rfl⟩⟩
    | cons m l =>
      obtain ⟨s', q', h1, h2, h3, h4⟩ := sbappendrecord_spec hs (hx.chain hs.shape)
      refine ⟨s', 1, ?_, (locked_eq h3).trans hl, .inl ⟨rfl, q', h2, ?_⟩⟩
      · simp only [call, head?_cons, h1]
        rfl
      · show s'.content q' = _
        rw [content, h4, map_append, map_singleton, SbMbuf.compressed_bytes]
        rfl
  | appendaddr noMbuf asa hasa l rights got copied =>
    obtain ⟨h0, h1, h2, h3, h4⟩ := hx
    obtain ⟨s', k, h5, h6⟩ := sbappendaddr_spec h0 hs (h1.chain hs.shape) h2 h3 h4
    rcases h6 with ⟨rfl, q', h6, h7, h8⟩ | ⟨h6, h7, h8⟩
    · refine ⟨s', 1, h5, (locked_eq h7).trans hl, .inl ⟨rfl, q', h6, ?_⟩⟩
      show s'.content q' = _
      have h9 := SbMbuf.grown_bytes (cons_ne_nil (SbMbuf.small MT_SONAME asa hasa)
        (s.rightsCopy rights)) (s.view l)
      have h10 : SbMbuf.bytes (SbMbuf.small MT_SONAME asa hasa :: s.rightsCopy rights) =
          asa ++ s.rightsBytes rights := by
        rw [← rightsCopy_bytes]
        exact flatMap_cons
      rw [content, h8, map_append, map_singleton, h9, h10]
      rfl
    · exact ⟨s', k, h5, (locked_eq h8.limits).trans hl, .inr ⟨h6, h7, h8⟩⟩
  | appendrights l rights copied =>
    obtain ⟨s', k, h5, h6⟩ := sbappendrights_spec hs (hx.1.chain hs.shape) hx.2
    rcases h6 with ⟨rfl, -, q', h6, h7, h8⟩ | ⟨rfl, h7, h8⟩
    · refine ⟨s', 1, h5, (locked_eq h7).trans hl, .inl ⟨rfl, q', h6, ?_⟩⟩
      show s'.content q' = _
      rw [content, h8, map_append, map_singleton, SbMbuf.compressed_bytes, copy_dat]
      rfl
    · exact ⟨s', 0, h5, (locked_eq h8.limits).trans hl, .inr ⟨by omega, h7, h8⟩⟩
  | drop len =>
    obtain ⟨s', q', h1, h2, h3, h4⟩ := sbdrop_spec hs hx
    refine ⟨s', 1, by simp only [call, h1]; rfl, (locked_eq h3).trans hl, .inl ⟨rfl, q', h2, ?_⟩⟩
    have hcc := hs.counted.1
    rw [lens_mbufs] at hcc
    have h5 : len.toNat ≤ (s.content q).flatten.length := by
      have h6 : len ≤ s.cc := hx
      omega
    show Dropped len.toNat _ _
    rw [h4]
    exact dropped_dropFront h5
  | droprecord =>
    obtain ⟨s', q', h1, h2, h3, h4⟩ := sbdroprecord_spec hs
    exact ⟨s', 1, by simp only [call, h1]; rfl, (locked_eq h3).trans hl, .inl ⟨rfl, q', h2, h4⟩⟩
  | flush =>
    obtain ⟨s', h1, h2, h3⟩ := sbflush_spec hs hl
    exact ⟨s', 1, by simp only [call, h1]; rfl, (locked_eq h3).trans hl, .inl ⟨rfl, [], h2, rfl⟩⟩
  | other t =>
    obtain ⟨h1, h2, h3, h4, h5⟩ := hx
    have h6 : ∀ a ∈ mbufs q, t.cell a = s.cell a ∧ t.used a = s.used a := fun a ha =>
      h5 a (hs.shape.onQueue a ha)
    have h7 : t.recs q = s.recs q := recs_congr fun a ha => by rw [(h6 a ha).1]
    exact ⟨t, 1, rfl, h4.trans hl, .inl ⟨rfl, q, hs.congr h6 h1 h2 h3,
      congrArg (List.map SbMbuf.bytes) h7⟩⟩

variable (A B) in
/-- Runs on a buffer that starts empty. -/
def sbLts : Lts (Except Trap (SockBuf A B)) (Call A B) :=
  Lts.ofCalls (fun s => s.mb = none ∧ s.cc = 0 ∧ s.mbcnt = 0 ∧ s.locked = false) Enabled
    fun s x => Prod.fst <$> s.call x

/-- **Accounting and content of a socket buffer.**  In every state of every run the links are those of a
list of records, whose first mbufs alone are linked through `m_act`; `sb_cc` and `sb_mbcnt` are the
lengths and the charges of their mbufs; and each call comes back, having done to the bytes of the records
what it is for, or, where space or mbufs do not suffice, with another value than 1 and the buffer as it
was. -/
theorem sockbuf_kept {z : Except Trap (SockBuf A B)} (h : (sbLts A B).Reach z) :
    ∃ s q, z = .ok s ∧ s.Holds q ∧ ∀ x, s.Enabled x → ∃ s' k, s.call x = .ok (s', k) ∧
      ((k = 1 ∧ ∃ q', s'.Holds q' ∧ s.Does (s.content q) (s'.content q') x) ∨
        (k ≠ 1 ∧ s.Fails x ∧ s.Kept s' q)) := by
  have hinit (s : SockBuf A B) (h0 : s.mb = none ∧ s.cc = 0 ∧ s.mbcnt = 0 ∧ s.locked = false) :
      (∃ q, s.Holds q) ∧ s.locked = false :=
    ⟨⟨[], ⟨⟨trivial, nofun, trivial, nofun, nofun, List.nodup_nil, nofun⟩, h0.1⟩, h0.2.1, h0.2.2.1⟩,
      h0.2.2.2⟩
  have hstep (s : SockBuf A B) (x : Call A B) (hs : (∃ q, s.Holds q) ∧ s.locked = false)
      (hx : s.Enabled x) : ∃ s', Prod.fst <$> s.call x = .ok s' ∧
        (∃ q, s'.Holds q) ∧ s'.locked = false := by
    obtain ⟨⟨q, hq⟩, hl⟩ := hs
    obtain ⟨s', k, h1, h2, h3⟩ := call_spec hq hl hx
    refine ⟨s', by rw [h1]; rfl, ?_, h2⟩
    rcases h3 with ⟨-, q', h3, -⟩ | ⟨-, -, h3⟩
    · exact ⟨q', h3⟩
    · exact ⟨q, h3.holds hq⟩
  obtain ⟨s, rfl, ⟨q, hq⟩, hl⟩ := h.back hinit hstep
  refine ⟨s, q, rfl, hq, fun x hx => ?_⟩
  obtain ⟨s', k, h1, -, h2⟩ := call_spec hq hl hx
  exact ⟨s', k, h1, h2⟩

/-- An empty buffer and one mbuf with two bytes. -/
def sbOne : SockBuf (Fin 1) ℕ where
  cell _ := { next := none, act := none, m := .small 1 [7, 8] (by decide) }
  used _ := true
  mb := none
  cc := 0
  mbcnt := 0
  hiwat := 100
  mbmax := 1000
  locked := false

theorem sockbuf_kept_one : ∃ s q, (Prod.fst <$> sbOne.call (.append [0])) = .ok s ∧ s.Holds q ∧
    ∀ x, s.Enabled x → ∃ s' k, s.call x = .ok (s', k) ∧
      ((k = 1 ∧ ∃ q', s'.Holds q' ∧ s.Does (s.content q) (s'.content q') x) ∨
        (k ≠ 1 ∧ s.Fails x ∧ s.Kept s' q)) := by
  have h0 : ∀ a, ¬sbOne.OnQueue a := fun a h => by
    induction h with
    | mb h => cases h
    | next _ h => cases h
    | act _ h => cases h
  have h1 : sbOne.Enabled (.append [0]) :=
    ⟨⟨rfl, trivial⟩, fun _ _ => rfl, List.nodup_singleton 0, fun _ _ => rfl, fun a _ => h0 a⟩
  have h2 : (sbLts (Fin 1) ℕ).Reach (.ok sbOne) := .init ⟨sbOne, rfl, rfl, rfl, rfl, rfl⟩
  exact sockbuf_kept (.step h2 ⟨sbOne, rfl, h1, rfl⟩)

end SockBuf

end Hpux.Net
