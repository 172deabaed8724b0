import Hpux910.Dux.NetBuf
import Mathlib

/-!
# What the network buffers keep

* `State.strip_some`, `State.Filling.strip` : the loop, for any buffers, and for buffers whose sizes
  fit.
* `State.Good.moved`, `State.duxAdjustVirtsize_spec` : a buffer that is moved to a larger range.
* `State.buf_syncgeteblk_conserves_iff` : when `buf_syncgeteblk` does what it should.
-/

namespace Hpux.NetBuf

open List

variable {B P : Type} [DecidableEq B]

/-! ### The places -/

theorem length_places (need : ℕ) (l : List ℕ) : (places need l).length = min need l.sum := by
  induction l generalizing need with
  | nil => simp [places]
  | cons z l ih =>
    simp only [places, length_append, length_range', ih, sum_cons]
    omega

theorem places_zero (l : List ℕ) : places 0 l = [] := by
  induction l with
  | nil => rfl
  | cons z l ih => simp [places, ih]

/-- Places that are not the right ones leave one of these out. -/
theorem exists_notMem_places {need has : ℕ} {l : List ℕ}
    (h : ¬(places need l).Perm (List.range' has need)) :
    ∃ o, has ≤ o ∧ o < has + need ∧ o ∉ places need l := by
  by_contra hcon
  refine h (List.Perm.symm ?_)
  have hsub : List.range' has need ⊆ places need l := fun o ho => by
    rw [mem_range'_1] at ho
    exact by_contra fun hno => hcon ⟨o, ho.1, ho.2, hno⟩
  have hnd : (List.range' has need).Nodup := nodup_range'
  refine (hnd.subperm hsub).perm_of_length_le ?_
  rw [length_places, length_range']
  exact Nat.min_le_left _ _

/-! ### Page multiples -/

variable {x y : ℕ}

theorem btop_add (hx : NBPG ∣ x) : btop (x + y) = btop x + btop y := by
  unfold btop NBPG at *
  omega

theorem btop_sub (hy : NBPG ∣ y) (h : y ≤ x) : btop (x - y) = btop x - btop y := by
  have hxy := btop_add (x := y) (y := x - y) hy
  rw [Nat.add_sub_cancel' h] at hxy
  omega

theorem btop_min : btop (min x y) = min (btop x) (btop y) := by
  unfold btop NBPG
  omega

theorem btop_le (hx : NBPG ∣ x) : btop x ≤ btop y ↔ x ≤ y := by
  unfold btop NBPG at *
  omega

theorem btop_mul (n : ℕ) : btop (n * NBPG) = n := Nat.mul_div_cancel n (by decide)

/-! ### One turn of the loop -/

namespace State

variable {s s' : State B P} {bp dp b : B} {size take : ℕ} {l : List B}

theorem pagemove_eq {src dst : ℕ} (h : NBPG ∣ size) : s.pagemove src dst size =
    some { s with pte := movePages (btop size) s.pte (btop src) (btop dst) } :=
  if_neg (not_not.2 (Nat.mod_eq_zero_of_dvd h))

/-- What `buf_syncgeteblk` takes from `dp` in one turn of its loop. -/
def takes (s : State B P) (size : ℕ) (bp dp : B) : ℕ :=
  min (size - (s.buf bp).bufsize) (s.buf dp).bufsize

/-- The state after it. -/
def stripOne (s : State B P) (size : ℕ) (bp dp : B) : State B P :=
  let b := s.buf bp
  let d := s.buf dp
  let take := s.takes size bp dp
  (({ s with
      pte := movePages (btop take) s.pte (s.base dp + (btop d.bufsize - btop take))
        (s.base bp + btop d.bufsize) } : State B P).setBuf bp
      { b with bufsize := b.bufsize + take }).setBuf dp { d with bufsize := d.bufsize - take }

/-- The sizes and the addresses are multiples of a page. -/
def Paged (s : State B P) (b : B) : Prop := NBPG ∣ (s.buf b).bufsize ∧ NBPG ∣ (s.buf b).addr

theorem Mapped.paged (h : s.Mapped b) : s.Paged b := ⟨h.dvd, h.addr⟩

theorem takes_dvd (hsize : NBPG ∣ size) (hb : s.Paged bp) (hd : s.Paged dp) :
    NBPG ∣ s.takes size bp dp := by
  unfold takes
  rcases Nat.le_total (size - (s.buf bp).bufsize) (s.buf dp).bufsize with h | h
  · rw [Nat.min_eq_left h]
    exact Nat.dvd_sub hsize hb.1
  · rw [Nat.min_eq_right h]
    exact hd.1

theorem strip_cons (hsize : NBPG ∣ size) (hb : s.Paged bp) (hd : s.Paged dp)
    (hlt : (s.buf bp).bufsize < size) :
    s.strip size bp (dp :: l) = (s.stripOne size bp dp).strip size bp l := by
  have htake : (if size - (s.buf bp).bufsize ≥ (s.buf dp).bufsize then (s.buf dp).bufsize
      else size - (s.buf bp).bufsize) = s.takes size bp dp := by
    unfold takes
    split_ifs <;> omega
  have hle : s.takes size bp dp ≤ (s.buf dp).bufsize := Nat.min_le_right _ _
  have hdvd := takes_dvd hsize hb hd
  rw [strip]
  simp only [if_pos hlt, htake, pagemove_eq hdvd, Option.bind_some]
  rw [btop_add hd.2, btop_sub hdvd hle, btop_add hb.2]
  rfl

theorem btop_takes (hb : s.Paged bp) (hle : (s.buf bp).bufsize ≤ size) : btop (s.takes size bp dp) =
      min (btop size - btop (s.buf bp).bufsize) (btop (s.buf dp).bufsize) := by
  rw [takes, btop_min, btop_sub hb.1 hle]

/-- What one turn changes. -/
theorem stripOne_buf (hne : bp ≠ dp) :
    ((s.stripOne size bp dp).buf bp).bufsize = (s.buf bp).bufsize + s.takes size bp dp ∧
      ((s.stripOne size bp dp).buf dp).bufsize = (s.buf dp).bufsize - s.takes size bp dp ∧
      (∀ b, b ≠ bp → b ≠ dp → (s.stripOne size bp dp).buf b = s.buf b) ∧
      ∀ b, ((s.stripOne size bp dp).buf b).addr = (s.buf b).addr ∧
        ((s.stripOne size bp dp).buf b).virtsize = (s.buf b).virtsize := by
  refine ⟨?_, ?_, fun b h1 h2 => ?_, fun b => ?_⟩
  · simp [stripOne, setBuf, hne]
  · simp [stripOne, setBuf]
  · simp [stripOne, setBuf, h1, h2]
  · by_cases h1 : b = dp
    · subst h1
      simp [stripOne, setBuf]
    · by_cases h2 : b = bp
      · subst h2
        simp [stripOne, setBuf, h1]
      · simp [stripOne, setBuf, h1, h2]

theorem stripOne_base : (s.stripOne size bp dp).base b = s.base b := by
  by_cases h1 : b = dp
  · subst h1
    simp [base, stripOne, setBuf]
  · by_cases h2 : b = bp
    · subst h2
      simp [base, stripOne, setBuf, h1]
    · simp [base, stripOne, setBuf, h1, h2]

theorem stripOne_paged (hsize : NBPG ∣ size) (hne : bp ≠ dp) (hb : s.Paged bp) (hd : s.Paged dp)
    (h : s.Paged b) : (s.stripOne size bp dp).Paged b := by
  obtain ⟨h1, h2, h3, h4⟩ := @stripOne_buf _ _ _ s _ _ size hne
  have hdvd := takes_dvd hsize hb hd
  refine ⟨?_, (h4 b).1 ▸ h.2⟩
  by_cases hbp : b = bp
  · subst hbp
    rw [h1]
    exact Nat.dvd_add hb.1 hdvd
  · by_cases hdp : b = dp
    · subst hdp
      rw [h2]
      exact Nat.dvd_sub hd.1 hdvd
    · rw [h3 b hbp hdp]
      exact h.1

/-- What the loop does with any buffers: it makes the first as large as was asked for, and maps
pages only at the places. -/
structure Stripped (s s' : State B P) (size : ℕ) (bp : B) (l : List B) : Prop where
  chain : s'.chain = s.chain
  vfree : s'.vfree = s.vfree
  addr : ∀ b, (s'.buf b).addr = (s.buf b).addr ∧ (s'.buf b).virtsize = (s.buf b).virtsize
  other : ∀ b, b ≠ bp → b ∉ l → s'.buf b = s.buf b
  bufsize : (s'.buf bp).bufsize = max size (s.buf bp).bufsize
  pte : ∀ v, (s'.pte v).isSome → (s.pte v).isSome ∨
    ∃ o ∈ places (btop size - btop (s.buf bp).bufsize) (l.map fun d => btop (s.buf d).bufsize),
      v = s.base bp + o

theorem strip_some (hsize : NBPG ∣ size) (hnd : (bp :: l).Nodup) (hpaged : ∀ b ∈ bp :: l, s.Paged b)
    (htotal : size ≤ (s.buf bp).bufsize + (l.map fun d => (s.buf d).bufsize).sum) :
    ∃ s', s.strip size bp l = some s' ∧ Stripped s s' size bp l := by
  induction l generalizing s with
  | nil =>
    have hle : ¬(s.buf bp).bufsize < size := by simpa using htotal
    refine ⟨s, if_neg hle, rfl, rfl, fun _ => ⟨rfl, rfl⟩, fun _ _ _ => rfl, by omega,
      fun v hv => .inl hv⟩
  | cons dp l ih =>
    by_cases hlt : (s.buf bp).bufsize < size
    · obtain ⟨hbpl, hnd'⟩ := nodup_cons.1 hnd
      obtain ⟨hdpl, hndl⟩ := nodup_cons.1 hnd'
      have hne : bp ≠ dp := fun he => hbpl (he ▸ mem_cons_self)
      have hbp : bp ∉ l := fun hmem => hbpl (mem_cons_of_mem dp hmem)
      have hb := hpaged bp mem_cons_self
      have hd := hpaged dp (mem_cons_of_mem bp mem_cons_self)
      obtain ⟨h1, h2, h3, h4⟩ := @stripOne_buf _ _ _ s _ _ size hne
      have hl : ∀ d ∈ l, (s.stripOne size bp dp).buf d = s.buf d := fun d hdl =>
        h3 d (fun he => hbp (he ▸ hdl)) (fun he => hdpl (he ▸ hdl))
      have hmap : ∀ f : Buf → ℕ, l.map (fun d => f ((s.stripOne size bp dp).buf d)) =
          l.map fun d => f (s.buf d) := fun f =>
        map_congr_left fun d hdl => by rw [hl d hdl]
      rw [strip_cons hsize hb hd hlt]
      obtain ⟨s', hs', hst⟩ := ih (s := s.stripOne size bp dp)
        (nodup_cons.2 ⟨hbp, hndl⟩)
        (fun b hbl => stripOne_paged hsize hne hb hd (hpaged b (by
          rcases mem_cons.1 hbl with rfl | hbl
          · exact mem_cons_self
          · exact mem_cons_of_mem _ (mem_cons_of_mem _ hbl)))) (by
          rw [hmap fun b => b.bufsize, h1]
          simp only [map_cons, sum_cons] at htotal
          unfold takes
          omega)
      refine ⟨s', hs', hst.chain, hst.vfree, fun b => ?_, fun b hb1 hb2 => ?_, ?_, fun v hv => ?_⟩
      · exact ⟨(hst.addr b).1.trans (h4 b).1, (hst.addr b).2.trans (h4 b).2⟩
      · obtain ⟨hb3, hb4⟩ := not_or.1 (mt mem_cons.2 hb2)
        rw [hst.other b hb1 hb4, h3 b hb1 hb3]
      · rw [hst.bufsize, h1]
        unfold takes
        omega
      · have htakes : btop (s.takes size bp dp) =
            min (btop size - btop (s.buf bp).bufsize) (btop (s.buf dp).bufsize) :=
          btop_takes hb hlt.le
        have hneed : btop size - btop ((s.stripOne size bp dp).buf bp).bufsize =
            btop size - btop (s.buf bp).bufsize - btop (s.takes size bp dp) := by
          rw [h1, btop_add hb.1, Nat.sub_add_eq]
        simp only [map_cons, places, mem_append]
        rw [← htakes, ← hneed]
        rcases hst.pte v hv with hv | ⟨o, ho, hvo⟩
        · rcases movePages_isSome hv with hv | hv
          · refine .inr ⟨v - s.base bp, .inl (mem_range'_1.2 ?_), ?_⟩ <;> omega
          · exact .inl hv
        · rw [stripOne_base] at hvo
          rw [hmap fun b => btop b.bufsize] at ho
          exact .inr ⟨o, .inr ho, hvo⟩
    · refine ⟨s, ?_, rfl, rfl, fun _ => ⟨rfl, rfl⟩, fun _ _ _ => rfl, by omega,
        fun v hv => .inl hv⟩
      rw [strip]
      exact if_neg hlt

/-- A buffer whose header and pages are the same. -/
theorem Mapped.congr (h : s.Mapped b) (hbuf : s'.buf b = s.buf b)
    (hpte : ∀ i < (s.buf b).virtsize, s'.pte (s.base b + i) = s.pte (s.base b + i)) :
    s'.Mapped b ∧ s'.frames b = s.frames b := by
  have hbase : s'.base b = s.base b := by rw [base, base, hbuf]
  refine ⟨⟨by rw [hbuf]; exact h.dvd, by rw [hbuf]; exact h.addr, by rw [hbuf]; exact h.le,
    fun i hi => ?_⟩, ?_⟩
  · rw [hbuf] at hi
    rw [hbase, hbuf, hpte i hi]
    exact h.mapped i hi
  · rw [frames, frames, hbase, hbuf]
    exact frames_congr hpte

/-! ### The loop, when the places are the right ones -/

/-- The buffer that is filled and those that are stripped, before a turn of the loop. -/
structure Filling (s : State B P) (size : ℕ) (bp : B) (l : List B) : Prop where
  nodup : (bp :: l).Nodup
  paged : s.Paged bp
  le : (s.buf bp).bufsize ≤ size
  range : btop size ≤ (s.buf bp).virtsize
  places_nodup : (places (btop size - btop (s.buf bp).bufsize)
    (l.map fun d => btop (s.buf d).bufsize)).Nodup
  places_lt : ∀ o ∈ places (btop size - btop (s.buf bp).bufsize)
    (l.map fun d => btop (s.buf d).bufsize), o < btop size
  /-- All pages are mapped but those that are still to be filled. -/
  mapped : ∀ i < (s.buf bp).virtsize, (s.pte (s.base bp + i)).isSome ↔ i < btop size ∧
    i ∉ places (btop size - btop (s.buf bp).bufsize) (l.map fun d => btop (s.buf d).bufsize)
  stripped : ∀ d ∈ l, s.Mapped d
  apart : ∀ b ∈ bp :: l, ∀ d ∈ bp :: l, b ≠ d → s.Apart b d

theorem Filling.stripOne (h : Filling s size bp (dp :: l)) (hsize : NBPG ∣ size)
    (hgo : (s.buf bp).bufsize < size) : Filling (s.stripOne size bp dp) size bp l ∧
      (s.stripOne size bp dp).Mapped dp ∧
      (s.stripOne size bp dp).frames bp + (s.stripOne size bp dp).frames dp =
        s.frames bp + s.frames dp ∧ ∀ v, (v < s.base bp ∨ s.base bp + (s.buf bp).virtsize ≤ v) →
        (v < s.base dp ∨ s.base dp + (s.buf dp).virtsize ≤ v) →
        (s.stripOne size bp dp).pte v = s.pte v := by
  obtain ⟨hbpl, hnd'⟩ := nodup_cons.1 h.nodup
  obtain ⟨hdpl, hndl⟩ := nodup_cons.1 hnd'
  have hne : bp ≠ dp := fun he => hbpl (he ▸ mem_cons_self)
  have hbp : bp ∉ l := fun hmem => hbpl (mem_cons_of_mem dp hmem)
  have hd := h.stripped dp mem_cons_self
  obtain ⟨h1, h2, h3, h4⟩ := @stripOne_buf _ _ _ s _ _ size hne
  have hl : ∀ d ∈ l, (s.stripOne size bp dp).buf d = s.buf d := fun d hdl =>
    h3 d (fun he => hbp (he ▸ hdl)) (fun he => hdpl (he ▸ hdl))
  have hmap : (l.map fun d => btop ((s.stripOne size bp dp).buf d).bufsize) =
      l.map fun d => btop (s.buf d).bufsize :=
    map_congr_left fun d hdl => by rw [hl d hdl]
  have htakes : btop (s.takes size bp dp) =
      min (btop size - btop (s.buf bp).bufsize) (btop (s.buf dp).bufsize) := btop_takes h.paged h.le
  have hneed : btop size - btop ((s.stripOne size bp dp).buf bp).bufsize =
      btop size - btop (s.buf bp).bufsize - btop (s.takes size bp dp) := by
    rw [h1, btop_add h.paged.1, Nat.sub_add_eq]
  have hpl : places (btop size - btop (s.buf bp).bufsize)
      ((dp :: l).map fun d => btop (s.buf d).bufsize) =
      List.range' (btop (s.buf dp).bufsize) (btop (s.takes size bp dp)) ++
        places (btop size - btop ((s.stripOne size bp dp).buf bp).bufsize)
          (l.map fun d => btop ((s.stripOne size bp dp).buf d).bufsize) := by
    rw [hneed, hmap, htakes]
    rfl
  have hnodup := h.places_nodup
  have hlt := h.places_lt
  have hmapped := h.mapped
  rw [hpl] at hnodup hlt
  simp only [hpl] at hmapped
  have hle : btop (s.takes size bp dp) ≤ btop (s.buf dp).bufsize := by
    rw [htakes]
    exact Nat.min_le_right _ _
  have hle' : btop (s.takes size bp dp) ≤ btop size - btop (s.buf bp).bufsize := by
    rw [htakes]
    exact Nat.min_le_left _ _
  have hneed0 : 0 < btop size - btop (s.buf bp).bufsize := by
    have := mt (btop_le hsize (y := (s.buf bp).bufsize)).1 (Nat.not_le.2 hgo)
    omega
  have hnone : btop (s.takes size bp dp) = 0 → btop (s.buf dp).bufsize = 0 := by
    intro h0
    rw [htakes] at h0
    rcases Nat.min_eq_zero_iff.1 h0 with h0 | h0
    · exact absurd h0 hneed0.ne'
    · exact h0
  clear htakes hneed
  have hdle := hd.le
  have hapart := h.apart bp mem_cons_self dp (mem_cons_of_mem bp mem_cons_self) hne
  unfold Apart at hapart
  -- the pages that are taken find their places within the range
  have hin : btop (s.buf dp).bufsize + btop (s.takes size bp dp) ≤ (s.buf bp).virtsize := by
    by_cases h0 : btop (s.takes size bp dp) = 0
    · rw [h0, hnone h0]
      exact Nat.zero_le _
    · have := hlt (btop (s.buf dp).bufsize + (btop (s.takes size bp dp) - 1))
        (mem_append_left _ (mem_range'_1.2 (by omega)))
      have := h.range
      omega
  clear hneed0 hle' hnone
  have htdvd := takes_dvd hsize h.paged hd.paged
  have hdp : btop ((s.stripOne size bp dp).buf dp).bufsize =
      btop (s.buf dp).bufsize - btop (s.takes size bp dp) := by
    rw [h2, btop_sub htdvd (Nat.min_le_right _ _)]
  -- the page table after the turn
  have hpte : (s.stripOne size bp dp).pte = movePages (btop (s.takes size bp dp)) s.pte
      (s.base dp + (btop (s.buf dp).bufsize - btop (s.takes size bp dp)))
      (s.base bp + btop (s.buf dp).bufsize) := rfl
  have happly : ∀ v, (s.stripOne size bp dp).pte v =
      if s.base bp + btop (s.buf dp).bufsize ≤ v ∧
          v < s.base bp + btop (s.buf dp).bufsize + btop (s.takes size bp dp) then
        s.pte (s.base dp + (btop (s.buf dp).bufsize - btop (s.takes size bp dp)) +
          (v - (s.base bp + btop (s.buf dp).bufsize)))
      else if s.base dp + (btop (s.buf dp).bufsize - btop (s.takes size bp dp)) ≤ v ∧
          v < s.base dp + (btop (s.buf dp).bufsize - btop (s.takes size bp dp)) +
            btop (s.takes size bp dp) then none
      else s.pte v := fun v => movePages_apply (by omega)
  have hout : ∀ v, (v < s.base bp ∨ s.base bp + (s.buf bp).virtsize ≤ v) →
      (v < s.base dp ∨ s.base dp + (s.buf dp).virtsize ≤ v) →
      (s.stripOne size bp dp).pte v = s.pte v := fun v hv1 hv2 => by
    rw [hpte]
    exact movePages_of_notMem (by omega) (by omega)
  refine ⟨⟨nodup_cons.2 ⟨hbp, hndl⟩, stripOne_paged hsize hne h.paged hd.paged h.paged, ?_, ?_,
    (nodup_append.1 hnodup).2.1, fun o ho => hlt o (mem_append_right _ ho), ?_, ?_, ?_⟩,
    ⟨(stripOne_paged hsize hne h.paged hd.paged hd.paged).1, ?_, ?_, ?_⟩, ?_, hout⟩
  · rw [h1]
    unfold takes
    omega
  · rw [(h4 bp).2]
    exact h.range
  · intro i hi
    rw [(h4 bp).2] at hi
    rw [stripOne_base, happly]
    have hmi := hmapped i hi
    rw [mem_append, mem_range'_1, not_or] at hmi
    split_ifs with h5 h6
    · -- a page that has been filled
      have hi1 : i ∈ List.range' (btop (s.buf dp).bufsize) (btop (s.takes size bp dp)) :=
        mem_range'_1.2 (by omega)
      have hsome := (hd.mapped (btop (s.buf dp).bufsize - btop (s.takes size bp dp) +
        (i - btop (s.buf dp).bufsize)) (by omega)).2 (by omega)
      have hidx : s.base dp + (btop (s.buf dp).bufsize - btop (s.takes size bp dp)) +
          (s.base bp + i - (s.base bp + btop (s.buf dp).bufsize)) =
          s.base dp + (btop (s.buf dp).bufsize - btop (s.takes size bp dp) +
            (i - btop (s.buf dp).bufsize)) := by omega
      rw [hidx]
      exact iff_of_true hsome ⟨hlt i (mem_append_left _ hi1),
        fun hi2 => (nodup_append.1 hnodup).2.2 i hi1 i hi2 rfl⟩
    · omega
    · rw [hmi]
      exact and_congr_right fun _ => and_iff_right fun h7 => h5 (by omega)
  · intro d hdl
    refine ((h.stripped d (mem_cons_of_mem dp hdl)).congr (hl d hdl) fun i hi => ?_).1
    have hd1 := h.apart bp mem_cons_self d
      (mem_cons_of_mem bp (mem_cons_of_mem dp hdl)) fun he => hbp (he ▸ hdl)
    have hd2 := h.apart dp (mem_cons_of_mem bp mem_cons_self) d
      (mem_cons_of_mem bp (mem_cons_of_mem dp hdl)) fun he => hdpl (he ▸ hdl)
    unfold Apart at hd1 hd2
    exact hout _ (by omega) (by omega)
  · have hsub : ∀ b ∈ bp :: l, b ∈ bp :: dp :: l := fun b hb => by
      rcases mem_cons.1 hb with rfl | hb
      · exact mem_cons_self
      · exact mem_cons_of_mem _ (mem_cons_of_mem _ hb)
    intro b hb d hd hbd
    unfold Apart
    rw [stripOne_base, stripOne_base, (h4 b).2, (h4 d).2]
    exact h.apart b (hsub b hb) d (hsub d hd) hbd
  · rw [(h4 dp).1]
    exact hd.addr
  · rw [hdp, (h4 dp).2]
    omega
  · intro i hi
    rw [(h4 dp).2] at hi
    rw [stripOne_base, happly, hdp]
    have hmi := hd.mapped i hi
    split_ifs with h5 h6
    · omega
    · exact iff_of_false (by simp) (by omega)
    · rw [hmi]
      omega
  · unfold frames
    rw [stripOne_base, stripOne_base, (h4 bp).2, (h4 dp).2, hpte]
    refine frames_movePages (by omega) (by omega) (by omega) fun i hi => ?_
    have hi1 : btop (s.buf dp).bufsize + i ∈
        List.range' (btop (s.buf dp).bufsize) (btop (s.takes size bp dp)) :=
      mem_range'_1.2 (by omega)
    have hnot := mt (hmapped (btop (s.buf dp).bufsize + i) (by omega)).1
      fun hc => hc.2 (mem_append_left _ hi1)
    rw [Nat.add_assoc]
    simpa using hnot

theorem Filling.done (h : Filling s size bp l) (hge : size ≤ (s.buf bp).bufsize) : s.Mapped bp := by
  have heq : (s.buf bp).bufsize = size := Nat.le_antisymm h.le hge
  refine ⟨h.paged.1, h.paged.2, heq ▸ h.range, fun i hi => ?_⟩
  rw [h.mapped i hi, heq, Nat.sub_self, places_zero]
  simp

/-- The loop fills the buffer, and keeps the frames. -/
theorem Filling.strip (h : Filling s size bp l) (hsize : NBPG ∣ size)
    (htotal : size ≤ (s.buf bp).bufsize + (l.map fun d => (s.buf d).bufsize).sum) :
    ∃ s', s.strip size bp l = some s' ∧ (∀ b ∈ bp :: l, s'.Mapped b) ∧
      ((bp :: l).map s'.frames).sum = ((bp :: l).map s.frames).sum ∧
      ∀ v, (∀ b ∈ bp :: l, v < s.base b ∨ s.base b + (s.buf b).virtsize ≤ v) → s'.pte v = s.pte v := by
  induction l generalizing s with
  | nil =>
    have hge : size ≤ (s.buf bp).bufsize := by simpa using htotal
    refine ⟨s, if_neg (Nat.not_lt.2 hge), fun b hb => ?_, rfl, fun _ _ => rfl⟩
    rw [mem_singleton.1 hb]
    exact h.done hge
  | cons dp l ih =>
    by_cases hgo : (s.buf bp).bufsize < size
    · obtain ⟨hbpl, hnd'⟩ := nodup_cons.1 h.nodup
      obtain ⟨hdpl, hndl⟩ := nodup_cons.1 hnd'
      have hne : bp ≠ dp := fun he => hbpl (he ▸ mem_cons_self)
      have hd := h.stripped dp mem_cons_self
      obtain ⟨h1, h2, h3, h4⟩ := @stripOne_buf _ _ _ s _ _ size hne
      obtain ⟨hfill, hdp, hframes, hout⟩ := h.stripOne hsize hgo
      have hbuf : ∀ d ∈ l, (s.stripOne size bp dp).buf d = s.buf d := fun d hdl =>
        h3 d (fun he => hbpl (he ▸ mem_cons_of_mem dp hdl)) (fun he => hdpl (he ▸ hdl))
      have hbufs : (l.map fun d => ((s.stripOne size bp dp).buf d).bufsize) =
          l.map fun d => (s.buf d).bufsize :=
        map_congr_left fun d hdl => by rw [hbuf d hdl]
      obtain ⟨s', hs', hm, hsum, hpte⟩ := ih hfill (by
        rw [h1, hbufs]
        simp only [map_cons, sum_cons] at htotal
        unfold takes
        omega)
      -- the stripped buffer is not touched again
      have hkeep : s'.Mapped dp ∧ s'.frames dp = (s.stripOne size bp dp).frames dp := by
        obtain ⟨s'', hs'', hst⟩ := strip_some hsize hfill.nodup (fun b hb => by
          rcases mem_cons.1 hb with rfl | hb
          · exact hfill.paged
          · exact (hfill.stripped b hb).paged) (by
          rw [h1, hbufs]
          simp only [map_cons, sum_cons] at htotal
          unfold takes
          omega)
        obtain rfl : s' = s'' := Option.some.inj (hs'.symm.trans hs'')
        refine hdp.congr (hst.other dp hne.symm hdpl) fun i hi => hpte _ fun b hb => ?_
        rw [(h4 dp).2] at hi
        rw [stripOne_base, stripOne_base, (h4 b).2]
        have hbd : b ≠ dp := by
          rintro rfl
          exact (mem_cons.1 hb).elim (fun he => hne he.symm) hdpl
        have hap := h.apart b (by
          rcases mem_cons.1 hb with rfl | hb
          · exact mem_cons_self
          · exact mem_cons_of_mem _ (mem_cons_of_mem _ hb)) dp
          (mem_cons_of_mem bp mem_cons_self) hbd
        unfold Apart at hap
        omega
      have hsame : l.map (s.stripOne size bp dp).frames = l.map s.frames :=
        map_congr_left fun d hdl => by
          refine ((h.stripped d (mem_cons_of_mem dp hdl)).congr (hbuf d hdl)
            fun i hi => hout _ ?_ ?_).2
          · have hap := h.apart bp mem_cons_self d
              (mem_cons_of_mem bp (mem_cons_of_mem dp hdl))
              fun he => hbpl (he ▸ mem_cons_of_mem dp hdl)
            unfold Apart at hap
            omega
          · have hap := h.apart dp (mem_cons_of_mem bp mem_cons_self) d
              (mem_cons_of_mem bp (mem_cons_of_mem dp hdl)) fun he => hdpl (he ▸ hdl)
            unfold Apart at hap
            omega
      refine ⟨s', ?_, fun b hb => ?_, ?_, fun v hv => ?_⟩
      · rw [strip_cons hsize h.paged hd.paged hgo]
        exact hs'
      · rcases mem_cons.1 hb with rfl | hb
        · exact hm b mem_cons_self
        · rcases mem_cons.1 hb with rfl | hb
          · exact hkeep.1
          · exact hm b (mem_cons_of_mem bp hb)
      · simp only [map_cons, sum_cons] at hsum ⊢
        rw [hkeep.2, add_left_comm, hsum, hsame, ← add_assoc, ← add_assoc, ← hframes]
        abel
      · rw [hpte v fun b hb => ?_]
        · exact hout v (hv bp mem_cons_self)
            (hv dp (mem_cons_of_mem bp mem_cons_self))
        · rw [stripOne_base, (h4 b).2]
          refine hv b ?_
          rcases mem_cons.1 hb with rfl | hb
          · exact mem_cons_self
          · exact mem_cons_of_mem _ (mem_cons_of_mem _ hb)
    · refine ⟨s, ?_, fun b hb => ?_, rfl, fun _ _ => rfl⟩
      · rw [State.strip]
        exact if_neg hgo
      · rcases mem_cons.1 hb with rfl | hb
        · exact h.done (Nat.not_lt.1 hgo)
        · exact h.stripped b hb

/-! ### A larger range -/

theorem range_apart {a b m n : ℕ} (h : ∀ i < m, ∀ j < n, a + i ≠ b + j) :
    m = 0 ∨ n = 0 ∨ a + m ≤ b ∨ b + n ≤ a := by
  by_contra hcon
  rcases Nat.le_total a b with hab | hab
  · exact h (b - a) (by omega) 0 (by omega) (by omega)
  · exact h 0 (by omega) (a - b) (by omega) (by omega)

/-- What `dux_adjust_virtsize` does when it finds a range. -/
structure Adjusted (s s1 : State B P) (size : ℕ) (bp : B) : Prop where
  good : s1.Good
  chain : s1.chain = s.chain
  other : ∀ b, b ≠ bp → s1.buf b = s.buf b
  bufsize : (s1.buf bp).bufsize = (s.buf bp).bufsize
  virtsize : (s1.buf bp).virtsize = btop size
  frames : ∀ b ∈ s.chain, s1.frames b = s.frames b

variable {ans : Option ℕ}

theorem bfget_some {n : ℕ} {r : ℕ × State B P} (h : s.bfget n ans = some r) :
    ∃ p, r = (p * NBPG, { s with
      vfree := fun v => if p ≤ v ∧ v < p + n then false else s.vfree v }) ∧
      ∀ i < n, s.vfree (p + i) = true := by
  unfold bfget at h
  cases ans with
  | none => cases h
  | some p =>
    dsimp only at h
    split_ifs at h with hc
    exact ⟨p, (Option.some.inj h).symm, hc.2.2⟩

/-- A buffer with its pages moved to the range of `n` pages at `p`. -/
def moved (s : State B P) (bp : B) (p n : ℕ) : State B P :=
  ({ s with
    pte := movePages (btop (s.buf bp).bufsize) s.pte (s.base bp) p
    vfree := fun v =>
      if s.base bp ≤ v ∧ v < s.base bp + (s.buf bp).virtsize then true
      else if p ≤ v ∧ v < p + n then false
      else s.vfree v } : State B P).setBuf bp
    { s.buf bp with
      addr := p * NBPG
      virtsize := n }

theorem Good.moved {p : ℕ} (h : s.Good) (hbp : bp ∈ s.chain)
    (hlt : (s.buf bp).virtsize < btop size) (hfree : ∀ i < btop size, s.vfree (p + i) = true) :
    Adjusted s (s.moved bp p (btop size)) size bp := by
  have hm := h.mapped bp hbp
  have hle := hm.le
  -- the new range is apart from those of the buffers
  have hapart : ∀ b ∈ s.chain, (s.buf b).virtsize = 0 ∨ btop size = 0 ∨
      s.base b + (s.buf b).virtsize ≤ p ∨ p + btop size ≤ s.base b := fun b hb =>
    range_apart fun i hi j hj he => by
      have h1 := h.taken b hb i hi
      rw [he, hfree j hj] at h1
      cases h1
  have hself := hapart bp hbp
  have hbuf : ∀ b, b ≠ bp → (s.moved bp p (btop size)).buf b = s.buf b := fun b hb =>
    Function.update_of_ne hb _ _
  have hbuf' : (s.moved bp p (btop size)).buf bp =
      { s.buf bp with
        addr := p * NBPG
        virtsize := btop size } := Function.update_self _ _ _
  have hbase : ∀ b, b ≠ bp → (s.moved bp p (btop size)).base b = s.base b := fun b hb => by
    rw [base, base, hbuf b hb]
  have hbase' : (s.moved bp p (btop size)).base bp = p := by
    rw [base, hbuf']
    exact btop_mul p
  have hpte : ∀ v, (s.moved bp p (btop size)).pte v =
      if p ≤ v ∧ v < p + btop (s.buf bp).bufsize then s.pte (s.base bp + (v - p))
      else if s.base bp ≤ v ∧ v < s.base bp + btop (s.buf bp).bufsize then none
      else s.pte v := fun v => movePages_apply (by omega)
  have hvfree : ∀ v, (s.moved bp p (btop size)).vfree v =
      if s.base bp ≤ v ∧ v < s.base bp + (s.buf bp).virtsize then true
      else if p ≤ v ∧ v < p + btop size then false
      else s.vfree v := fun _ => rfl
  have hother : ∀ b ∈ s.chain, b ≠ bp → (s.moved bp p (btop size)).Mapped b ∧
      (s.moved bp p (btop size)).frames b = s.frames b := fun b hb hne =>
    (h.mapped b hb).congr (hbuf b hne) fun i hi => by
      have h1 := hapart b hb
      have h2 := h.apart b hb bp hbp hne
      unfold Apart at h2
      rw [hpte, if_neg (by omega), if_neg (by omega)]
  have hnone : ∀ i, i < btop size → s.pte (p + i) = none := fun i hi => h.unmapped _ (hfree i hi)
  refine ⟨⟨h.nodup, fun b hb => ?_, fun b hb d hd hbd => ?_, fun b hb i hi => ?_, fun v hv => ?_⟩,
    rfl, hbuf, ?_, ?_, fun b hb => ?_⟩
  · by_cases hne : b = bp
    · subst hne
      refine ⟨?_, ?_, ?_, fun i hi => ?_⟩
      · rw [hbuf']
        exact hm.dvd
      · rw [hbuf']
        exact Nat.dvd_mul_left _ _
      · rw [hbuf']
        exact (hle.trans_lt hlt).le
      · rw [hbuf'] at hi ⊢
        dsimp only at hi ⊢
        rw [hbase', hpte]
        split_ifs with h1 h2
        · rw [Nat.add_sub_cancel_left]
          exact hm.mapped i (by omega)
        · omega
        · rw [hnone i hi]
          exact iff_of_false (by simp) (by omega)
    · exact (hother b hb hne).1
  · unfold Apart
    by_cases hne : b = bp
    · subst hne
      have h1 := hapart d hd
      rw [hbase', hbase d hbd.symm, hbuf', hbuf d hbd.symm]
      dsimp only
      omega
    · by_cases hne' : d = bp
      · subst hne'
        have h1 := hapart b hb
        rw [hbase', hbase b hbd, hbuf', hbuf b hbd]
        dsimp only
        omega
      · rw [hbase b hne, hbase d hne', hbuf b hne, hbuf d hne']
        exact h.apart b hb d hd hbd
  · by_cases hne : b = bp
    · subst hne
      rw [hbuf'] at hi
      dsimp only at hi
      rw [hbase', hvfree, if_neg (by omega), if_pos (by omega)]
    · rw [hbuf b hne] at hi
      have h2 := h.apart b hb bp hbp hne
      unfold Apart at h2
      rw [hbase b hne, hvfree, if_neg (by omega), h.taken b hb i hi]
      split_ifs <;> rfl
  · rw [hvfree] at hv
    rw [hpte]
    split_ifs at hv with h1 h2
    · -- the old range has been left
      rw [if_neg (by omega)]
      split_ifs with h3
      · rfl
      · have hi := hm.mapped (v - s.base bp) (by omega)
        rw [Nat.add_sub_cancel' h1.1] at hi
        simpa using mt hi.1 (by omega)
    · rw [if_neg (by omega), if_neg (by omega)]
      exact h.unmapped v hv
  · rw [hbuf']
  · rw [hbuf']
  · by_cases hne : b = bp
    · subst hne
      have hmv : Hpux.frames (movePages (btop (s.buf b).bufsize) s.pte (s.base b + 0) (p + 0)) p
          (btop size) + Hpux.frames (movePages (btop (s.buf b).bufsize) s.pte (s.base b + 0)
            (p + 0)) (s.base b) (s.buf b).virtsize =
          Hpux.frames s.pte p (btop size) + Hpux.frames s.pte (s.base b) (s.buf b).virtsize :=
        frames_movePages (by omega) (by omega) (by omega) fun i hi => hnone i (by omega)
      have hold : Hpux.frames (movePages (btop (s.buf b).bufsize) s.pte (s.base b + 0) (p + 0))
          (s.base b) (s.buf b).virtsize = 0 := frames_eq_zero fun i hi => by
        have h1 := hpte (s.base b + i)
        have h2 := hm.mapped i hi
        rw [if_neg (by omega)] at h1
        refine h1.trans ?_
        split_ifs with h3
        · rfl
        · simpa using mt h2.1 (by omega)
      have hnew : Hpux.frames s.pte p (btop size) = 0 := frames_eq_zero hnone
      rw [hold, hnew, add_zero, zero_add] at hmv
      unfold State.frames
      rw [hbase', hbuf']
      exact hmv
    · exact (hother b hb hne).2

/-- `dux_adjust_virtsize` changes nothing, or moves the buffer to a range of the size. -/
theorem duxAdjustVirtsize_spec (h : s.Good) (hbp : bp ∈ s.chain) (size : ℕ) (ans : Option ℕ) :
    (∃ r, s.duxAdjustVirtsize bp size ans = some (s, r) ∧
        ((s.buf bp).virtsize < btop size → s.bfget (btop size) ans = none)) ∨
      (s.buf bp).virtsize < btop size ∧ s.bfget (btop size) ans ≠ none ∧
      ∃ s1, s.duxAdjustVirtsize bp size ans = some (s1, false) ∧ Adjusted s s1 size bp := by
  have hm := h.mapped bp hbp
  unfold duxAdjustVirtsize
  dsimp only
  split_ifs with hlt
  · cases hget : s.bfget (btop size) ans with
    | none => exact .inl ⟨true, rfl, fun _ => rfl⟩
    | some r =>
      obtain ⟨p, rfl, hfree⟩ := bfget_some hget
      refine .inr ⟨hlt, by simp, s.moved bp p (btop size), ?_, h.moved hbp hlt hfree⟩
      simp only [pagemove_eq hm.dvd, Option.map_some, btop_mul]
      rfl
  · exact .inl ⟨false, rfl, fun h => absurd h hlt⟩

/-! ### The call -/

theorem strip_done (s : State B P) (h : size ≤ (s.buf bp).bufsize) (l : List B) :
    s.strip size bp l = some s := by
  cases l <;> exact if_neg (Nat.not_lt.2 h)

/-- New flags leave the pages alone. -/
theorem mapped_setFlags (s : State B P) (bp b : B) (f : Flag → Bool) :
    ((s.setBuf bp { s.buf bp with flags := f }).Mapped b ↔ s.Mapped b) ∧
      (s.setBuf bp { s.buf bp with flags := f }).frames b = s.frames b ∧
      ((s.setBuf bp { s.buf bp with flags := f }).buf b).bufsize = (s.buf b).bufsize := by
  have hbuf : ((s.setBuf bp { s.buf bp with flags := f }).buf b).bufsize = (s.buf b).bufsize ∧
      ((s.setBuf bp { s.buf bp with flags := f }).buf b).addr = (s.buf b).addr ∧
      ((s.setBuf bp { s.buf bp with flags := f }).buf b).virtsize = (s.buf b).virtsize := by
    by_cases hb : b = bp
    · subst hb
      simp [setBuf]
    · simp [setBuf, hb]
  obtain ⟨h1, h2, h3⟩ := hbuf
  have hbase : (s.setBuf bp { s.buf bp with flags := f }).base b = s.base b := by
    rw [base, base, h2]
  refine ⟨⟨fun h => ⟨h1 ▸ h.dvd, h2 ▸ h.addr, ?_, ?_⟩, fun h => ⟨h1 ▸ h.dvd, h2 ▸ h.addr, ?_, ?_⟩⟩,
    ?_, h1⟩
  · have := h.le
    rwa [h1, h3] at this
  · have := h.mapped
    rwa [hbase, h1, h3] at this
  · rw [h1, h3]
    exact h.le
  · rw [hbase, h1, h3]
    exact h.mapped
  · unfold frames
    rw [hbase, h3]
    rfl

/-- The loop, from the first buffer of the list in a range that is large enough. -/
theorem loop_spec (h : s.Good) (hchain : s.chain = dp :: l) (hsize : NBPG ∣ size)
    (hgo : (s.buf dp).bufsize < size) (hrange : btop size ≤ (s.buf dp).virtsize)
    (htotal : size ≤ (s.chain.map fun b => (s.buf b).bufsize).sum) :
    ∃ s', ({ s with chain := l } : State B P).strip size dp l.reverse = some s' ∧
      s'.chain = l ∧ size ≤ (s'.buf dp).bufsize ∧
      (s.Tiles size → ((dp :: l).map s'.frames).sum = ((dp :: l).map s.frames).sum ∧
        ∀ b ∈ dp :: l, s'.Mapped b) ∧
      (s'.Mapped dp → s.Tiles size) := by
  have hnd : (dp :: l).Nodup := hchain ▸ h.nodup
  have hmem : ∀ b ∈ dp :: l.reverse, b ∈ s.chain := fun b hb => by
    rw [hchain]
    simpa using hb
  have hnd' : (dp :: l.reverse).Nodup := by
    rw [nodup_cons, mem_reverse, nodup_reverse]
    exact nodup_cons.1 hnd
  have htotal' : size ≤ (s.buf dp).bufsize +
      (l.reverse.map fun d => (s.buf d).bufsize).sum := by
    rw [map_reverse, sum_reverse]
    rw [hchain] at htotal
    simpa using htotal
  have hdp := h.mapped dp (hmem dp mem_cons_self)
  have hhas : btop (s.buf dp).bufsize ≤ btop size := (btop_le hdp.dvd).2 hgo.le
  have htiles : s.Tiles size ↔ (places (btop size - btop (s.buf dp).bufsize)
      (l.reverse.map fun d => btop (s.buf d).bufsize)).Perm
        (List.range' (btop (s.buf dp).bufsize) (btop size - btop (s.buf dp).bufsize)) := by
    unfold Tiles
    rw [hchain]
  have hsome : ∃ s', ({ s with chain := l } : State B P).strip size dp l.reverse = some s' ∧
      Stripped { s with chain := l } s' size dp l.reverse :=
    strip_some hsize hnd' (fun b hb => (h.mapped b (hmem b hb)).paged) htotal'
  obtain ⟨s', hs', hst⟩ := hsome
  refine ⟨s', hs', hst.chain, ?_, fun ht => ?_, fun hm => ?_⟩
  · rw [hst.bufsize]
    exact Nat.le_max_left _ _
  · rw [htiles] at ht
    have hfill : Filling ({ s with chain := l } : State B P) size dp l.reverse := by
      refine ⟨hnd', hdp.paged, hgo.le, hrange, ht.nodup_iff.2 nodup_range', fun o ho => ?_,
        fun i hi => ?_, fun d hd => ?_, fun b hb d hd hbd => ?_⟩
      · have := mem_range'_1.1 (ht.mem_iff.1 ho)
        omega
      · have hiff : i ∈ places (btop size - btop (s.buf dp).bufsize)
            (l.reverse.map fun d => btop (s.buf d).bufsize) ↔
              btop (s.buf dp).bufsize ≤ i ∧ i < btop size := by
          rw [ht.mem_iff, mem_range'_1]
          omega
        refine (hdp.mapped i hi).trans ?_
        refine Iff.trans ?_ (and_congr_right fun _ => not_congr hiff.symm)
        omega
      · refine (Mapped.congr (h.mapped d (hmem d (mem_cons_of_mem dp hd))) ?_ ?_).1
        · rfl
        · exact fun _ _ => rfl
      · exact h.apart b (hmem b hb) d (hmem d hd) hbd
    obtain ⟨s'', hs'', hmap, hsum, -⟩ := hfill.strip hsize htotal'
    obtain rfl : s' = s'' := Option.some.inj (hs'.symm.trans hs'')
    refine ⟨?_, fun b hb => hmap b (by simpa using hb)⟩
    simp only [map_cons, sum_cons, map_reverse, sum_reverse] at hsum ⊢
    exact hsum
  · rw [htiles]
    by_contra hno
    obtain ⟨o, ho1, ho2, ho⟩ := exists_notMem_places hno
    have hos : (s'.pte (s'.base dp + o)).isSome := by
      refine (hm.mapped o ?_).2 ?_
      · rw [(hst.addr dp).2]
        exact lt_of_lt_of_le (by omega) hrange
      · rw [hst.bufsize, Nat.max_eq_left hgo.le]
        omega
    have hbase : s'.base dp = s.base dp := by rw [base, base, (hst.addr dp).1]
    rw [hbase] at hos
    rcases hst.pte _ hos with h1 | ⟨o', ho', he⟩
    · have h2 := (hdp.mapped o (by omega)).1 h1
      omega
    · have heq : o = o' := Nat.add_left_cancel he
      exact ho (heq ▸ ho')

/-- `buf_syncgeteblk` from the buffer on that it has chosen. -/
theorem bufSyncgeteblk_eq {s1 : State B P} {r : Bool} (hchain : s.chain = dp :: l)
    (hfound : ¬(s.chain.find? (fun b => size ≤ (s.buf b).bufsize) = none ∧
      (s.chain.map fun b => (s.buf b).bufsize).sum < size))
    (hbp : (s.chain.find? fun b => size ≤ (s.buf b).bufsize).getD dp = bp)
    (hadj : s.duxAdjustVirtsize bp size ans = some (s1, r)) : s.bufSyncgeteblk size ans =
      if (s1.buf bp).virtsize < btop size then some (s1, none)
      else (({ s1 with chain := s1.chain.erase bp } : State B P).strip size bp
        (s1.chain.erase bp).reverse).map fun s =>
          (s.setBuf bp { s.buf bp with flags := fun f => f ≠ .DUX_REM_REQ }, some bp) := by
  unfold bufSyncgeteblk
  split
  next h => exact absurd (hchain.symm.trans h) (cons_ne_nil _ _)
  next dp' l' h =>
    obtain ⟨rfl, rfl⟩ := List.cons.inj (hchain.symm.trans h)
    dsimp only
    rw [if_neg hfound, hbp, hadj]
    rfl

/-- `buf_syncgeteblk` when it goes into its loop. -/
theorem bufSyncgeteblk_loop (h : s.Good) (hchain : s.chain = dp :: l)
    (hsize : NBPG ∣ size) (hstrip : ¬s.NoStrip size ans) :
    ∃ s', s.bufSyncgeteblk size ans = some (s', some dp) ∧ s'.chain = l ∧ size ≤ (s'.buf dp).bufsize ∧
      (s.Tiles size → ((dp :: l).map s'.frames).sum = ((dp :: l).map s.frames).sum ∧
        ∀ b ∈ dp :: l, s'.Mapped b) ∧ (s'.Mapped dp → s.Tiles size) := by
  unfold NoStrip at hstrip
  simp only [not_or, not_exists, not_and, Nat.not_le, Nat.not_lt, hchain, head?_cons,
    Option.mem_def, Option.some.injEq, forall_eq'] at hstrip
  obtain ⟨hsmall, htotal, hvirt⟩ := hstrip
  have hdp : dp ∈ s.chain := hchain ▸ mem_cons_self
  have hfind : s.chain.find? (fun b => size ≤ (s.buf b).bufsize) = none :=
    find?_eq_none.2 fun b hb => by simpa using hsmall b (hchain ▸ hb)
  have hgo : (s.buf dp).bufsize < size := hsmall dp mem_cons_self
  -- the buffer is moved, if need be
  obtain ⟨s1, r, hs1, hgood, hchain1, hsizes, hrange, hframes⟩ : ∃ s1 r,
      s.duxAdjustVirtsize dp size ans = some (s1, r) ∧ s1.Good ∧ s1.chain = s.chain ∧
      (∀ b, (s1.buf b).bufsize = (s.buf b).bufsize) ∧ btop size ≤ (s1.buf dp).virtsize ∧
      ∀ b ∈ s.chain, s1.frames b = s.frames b := by
    rcases duxAdjustVirtsize_spec h hdp size ans with ⟨r, hr, hv⟩ | ⟨-, -, s1, hs1, had⟩
    · exact ⟨s, r, hr, h, rfl, fun _ => rfl, Nat.not_lt.1 fun hlt => hvirt hlt (hv hlt),
        fun _ _ => rfl⟩
    · refine ⟨s1, false, hs1, had.good, had.chain, fun b => ?_, had.virtsize.ge, had.frames⟩
      by_cases hb : b = dp
      · rw [hb, had.bufsize]
      · rw [had.other b hb]
  have hmap : (s1.chain.map fun b => (s1.buf b).bufsize) = s.chain.map fun b => (s.buf b).bufsize := by
    rw [hchain1]
    exact map_congr_left fun b _ => hsizes b
  obtain ⟨s', hs', hc, hlarge, hok, hbad⟩ := loop_spec hgood (hchain1.trans hchain) hsize
    (by rw [hsizes]; exact hgo) hrange (by rw [hmap, hchain]; exact htotal)
  have htiles : s1.Tiles size ↔ s.Tiles size := by
    unfold Tiles
    rw [hchain1, hchain]
    simp only [hsizes]
  have hflags := fun b => mapped_setFlags s' dp b fun f => f ≠ .DUX_REM_REQ
  refine ⟨s'.setBuf dp { s'.buf dp with flags := fun f => f ≠ .DUX_REM_REQ }, ?_, hc, ?_,
    fun ht => ?_, fun hm => htiles.1 (hbad ((hflags dp).1.1 hm))⟩
  · rw [bufSyncgeteblk_eq hchain (fun hc => absurd hc.2 (by rw [hchain]; exact Nat.not_lt.2 htotal))
      (by rw [hfind]; rfl) hs1, if_neg (Nat.not_lt.2 hrange), hchain1, hchain,
      erase_cons_head, hs']
    rfl
  · rw [(hflags dp).2.2]
    exact hlarge
  · obtain ⟨hsum, hm⟩ := hok (htiles.2 ht)
    refine ⟨?_, fun b hb => (hflags b).1.2 (hm b hb)⟩
    have e1 : (dp :: l).map (s'.setBuf dp { s'.buf dp with
        flags := fun f => f ≠ .DUX_REM_REQ }).frames = (dp :: l).map s'.frames :=
      map_congr_left fun b _ => (hflags b).2.1
    have e2 : (dp :: l).map s1.frames = (dp :: l).map s.frames :=
      map_congr_left fun b hb => hframes b (hchain ▸ hb)
    rw [e1, hsum, e2]

/-- `buf_syncgeteblk` when it does not. -/
theorem bufSyncgeteblk_noStrip (h : s.Good) (hstrip : s.NoStrip size ans) :
    ∃ s' r, s.bufSyncgeteblk size ans = some (s', r) ∧ Conserves s s' size r := by
  have hnull : Conserves s s size none :=
    ⟨fun _ => rfl, nofun, nofun, nofun, nofun⟩
  cases hchain : s.chain with
  | nil =>
    refine ⟨s, none, ?_, hnull⟩
    unfold bufSyncgeteblk
    rw [hchain]
  | cons dp l =>
    cases hfind : s.chain.find? (fun b => size ≤ (s.buf b).bufsize) with
    | some bp =>
      -- the buffer that is found has a range for its pages
      have hbp : bp ∈ s.chain := mem_of_find?_eq_some hfind
      have hlarge : size ≤ (s.buf bp).bufsize := by simpa using find?_some hfind
      have hm := h.mapped bp hbp
      have hvirt : ¬(s.buf bp).virtsize < btop size := by
        have h1 := hm.le
        have h2 : btop size ≤ btop (s.buf bp).bufsize := Nat.div_le_div_right hlarge
        omega
      have hadj : s.duxAdjustVirtsize bp size ans = some (s, false) := by
        unfold duxAdjustVirtsize
        exact if_neg hvirt
      have hcall := bufSyncgeteblk_eq hchain (fun hc => absurd hc.1 (by rw [hfind]; simp))
        (by rw [hfind]; rfl) hadj
      have hflags := fun b => mapped_setFlags { s with chain := s.chain.erase bp } bp b
        fun f => f ≠ .DUX_REM_REQ
      rw [if_neg hvirt, strip_done { s with chain := s.chain.erase bp } hlarge] at hcall
      refine ⟨_, _, hcall, nofun, ?_, ?_, ?_, ?_⟩
      · rintro _ ⟨⟩
        exact ⟨hbp, rfl⟩
      · rintro _ ⟨⟩
        rw [(hflags bp).2.2]
        exact hlarge
      · rintro _ ⟨⟩
        have hperm : (bp :: s.chain.erase bp).Perm s.chain := (perm_cons_erase hbp).symm
        rw [← (hperm.map s.frames).sum_eq]
        exact congrArg List.sum (map_congr_left fun b _ => (hflags b).2.1)
      · rintro _ ⟨⟩ b hb
        refine (hflags b).1.2 (Mapped.congr (h.mapped b ?_) ?_ ?_).1
        · rcases mem_cons.1 hb with rfl | hb
          · exact hbp
          · exact mem_of_mem_erase hb
        · rfl
        · exact fun _ _ => rfl
    | none =>
      by_cases htotal : (s.chain.map fun b => (s.buf b).bufsize).sum < size
      · refine ⟨s, none, ?_, hnull⟩
        unfold bufSyncgeteblk
        rw [hchain]
        dsimp only
        rw [← hchain, if_pos ⟨hfind, htotal⟩]
      · have hnone : ¬∃ b ∈ s.chain, size ≤ (s.buf b).bufsize := fun ⟨b, hb, hle⟩ => by
          have := find?_eq_none.1 hfind b hb
          exact this (by simpa using hle)
        obtain ⟨bp, hbp, hv, hget⟩ := (hstrip.resolve_left hnone).resolve_left htotal
        obtain rfl : dp = bp := by simpa [hchain] using hbp
        have hadj : s.duxAdjustVirtsize dp size ans = some (s, true) := by
          unfold duxAdjustVirtsize
          simp only [if_pos hv, hget]
        refine ⟨s, none, ?_, hnull⟩
        rw [bufSyncgeteblk_eq hchain (fun hc => htotal hc.2) (by rw [hfind]; rfl) hadj, if_pos hv]

/-- `buf_syncgeteblk` conserves the pages, and the mapping of the buffers, if and only if it takes no
pages from other buffers or those that it takes go to the right places: to `dp->b_bufsize`, which
should be `bp->b_bufsize`. -/
theorem buf_syncgeteblk_conserves_iff (h : s.Good) (hsize : NBPG ∣ size) (ans : Option ℕ) :
    (∃ s' r, s.bufSyncgeteblk size ans = some (s', r) ∧ Conserves s s' size r) ↔
      s.NoStrip size ans ∨ s.Tiles size := by
  by_cases hstrip : s.NoStrip size ans
  · exact iff_of_true (bufSyncgeteblk_noStrip h hstrip) (.inl hstrip)
  rw [or_iff_right hstrip]
  cases hchain : s.chain with
  | nil =>
    refine iff_of_true ⟨s, none, ?_, fun _ => rfl, nofun, nofun, nofun, nofun⟩ ?_
    · unfold bufSyncgeteblk
      rw [hchain]
    · unfold Tiles
      rw [hchain]
      trivial
  | cons dp l =>
    obtain ⟨s', hs', hc, hlarge, hok, hbad⟩ := bufSyncgeteblk_loop h hchain hsize hstrip
    constructor
    · rintro ⟨s'', r, hs'', hcons⟩
      obtain ⟨rfl, rfl⟩ := Prod.mk.inj (Option.some.inj (hs'.symm.trans hs''))
      exact hbad (hcons.mapped dp rfl dp List.mem_cons_self)
    · intro ht
      obtain ⟨hsum, hm⟩ := hok ht
      refine ⟨s', some dp, hs', nofun, ?_, ?_, ?_, ?_⟩
      · rintro _ ⟨⟩
        rw [hc, hchain, List.erase_cons_head]
        exact ⟨List.mem_cons_self, rfl⟩
      · rintro _ ⟨⟩
        exact hlarge
      · rintro _ ⟨⟩
        rw [hc, hsum, hchain]
      · rintro _ ⟨⟩
        rw [hc]
        exact hm

end State

/-! ### Two calls -/

/-- Two buffers of these numbers of pages, at the virtual pages 1 and 8. -/
def two (m n : ℕ) : State (Fin 2) ℕ where
  buf
    | 0 => ⟨1 * NBPG, m * NBPG, 4, fun _ => false⟩
    | 1 => ⟨8 * NBPG, n * NBPG, 4, fun _ => false⟩
  chain := [0, 1]
  pte v := if 1 ≤ v ∧ v < 1 + m ∨ 8 ≤ v ∧ v < 8 + n then some v else none
  vfree v := 16 ≤ v
  nbfree := 2
  freepages := m + n
  curDuxReqBufs := 0
  curDuxReqBufmem := 0
  wantDuxReqBuf := false

theorem two_good {m n : ℕ} (hm : m ≤ 4) (hn : n ≤ 4) : (two m n).Good := by
  have hpte : ∀ v, ((two m n).pte v).isSome ↔ 1 ≤ v ∧ v < 1 + m ∨ 8 ≤ v ∧ v < 8 + n := fun v => by
    dsimp only [two]
    split_ifs with h <;> simp [h]
  have hb0 : (two m n).base 0 = 1 := btop_mul 1
  have hb1 : (two m n).base 1 = 8 := btop_mul 8
  have hs0 : btop ((two m n).buf 0).bufsize = m := btop_mul m
  have hs1 : btop ((two m n).buf 1).bufsize = n := btop_mul n
  have hv : ∀ b, ((two m n).buf b).virtsize = 4 := Fin.forall_fin_two.2 ⟨rfl, rfl⟩
  have hm0 : (two m n).Mapped 0 := by
    refine ⟨Nat.dvd_mul_left _ _, Nat.dvd_mul_left _ _, hs0.trans_le hm, fun i hi => ?_⟩
    rw [hv] at hi
    rw [hpte, hb0, hs0]
    omega
  have hm1 : (two m n).Mapped 1 := by
    refine ⟨Nat.dvd_mul_left _ _, Nat.dvd_mul_left _ _, hs1.trans_le hn, fun i hi => ?_⟩
    rw [hv] at hi
    rw [hpte, hb1, hs1]
    omega
  refine ⟨by simp [two], fun b _ => ?_, fun b _ d _ hbd => ?_, fun b _ i hi => ?_, fun v hv => ?_⟩
  · exact Fin.forall_fin_two.2 ⟨hm0, hm1⟩ b
  · have hbase : (two m n).base b = 1 ∧ (two m n).base d = 8 ∨
        (two m n).base b = 8 ∧ (two m n).base d = 1 := by
      revert b d
      simp [Fin.forall_fin_two, hb0, hb1]
    unfold State.Apart
    rw [hv, hv]
    omega
  · have hbase : (two m n).base b = 1 ∨ (two m n).base b = 8 :=
      (Fin.forall_fin_two (p := fun b => (two m n).base b = 1 ∨ (two m n).base b = 8)).2
        ⟨.inl hb0, .inr hb1⟩ b
    rw [hv] at hi
    exact decide_eq_false (by omega)
  · have h16 : 16 ≤ v := of_decide_eq_true hv
    simpa using mt (hpte v).1 (by omega)

/-- One page of the second buffer goes behind the one page of the first. -/
theorem buf_syncgeteblk_two : ∃ s' r, (two 1 1).bufSyncgeteblk (2 * NBPG) none = some (s', r) ∧
    State.Conserves (two 1 1) s' (2 * NBPG) r :=
  (State.buf_syncgeteblk_conserves_iff (two_good (by decide) (by decide)) (Nat.dvd_mul_left _ _)
    none).2 (.inr (by decide +kernel))

/-- The two pages of the second buffer go to the offset of two pages of the first, which has one:
its second page is not mapped. -/
theorem buf_syncgeteblk_hole : ∃ s : State (Fin 2) ℕ, s.Good ∧
    ¬∃ s' r, s.bufSyncgeteblk (3 * NBPG) none = some (s', r) ∧ s.Conserves s' (3 * NBPG) r := by
  refine ⟨two 1 2, two_good (by decide) (by decide), ?_⟩
  rintro ⟨s', r, hs', hcons⟩
  have hsmall : ∀ b, ((two 1 2).buf b).bufsize < 3 * NBPG := by decide
  have hstrip : ¬(two 1 2).NoStrip (3 * NBPG) none := by
    rintro (⟨b, -, hb⟩ | hsum | ⟨bp, -, hv, -⟩)
    · exact absurd (hsmall b) (Nat.not_lt.2 hb)
    · exact absurd hsum (by decide)
    · exact absurd hv ((by decide : ∀ b, ¬((two 1 2).buf b).virtsize < btop (3 * NBPG)) bp)
  obtain ⟨s'', hs'', -, -, -, hbad⟩ := State.bufSyncgeteblk_loop
    (two_good (by decide) (by decide)) (rfl : (two 1 2).chain = [0, 1]) (Nat.dvd_mul_left _ _)
    hstrip
  obtain ⟨rfl, rfl⟩ := Prod.mk.inj (Option.some.inj (hs'.symm.trans hs''))
  have ht := hbad (hcons.mapped 0 rfl 0 List.mem_cons_self)
  revert ht
  decide +kernel

end Hpux.NetBuf
