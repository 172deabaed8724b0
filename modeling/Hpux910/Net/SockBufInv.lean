import Hpux910.Net.SockBuf
import Mathlib

/-!
# The records of a socket buffer

A socket buffer is a list of records and a record a list of mbufs.  The routines do to these lists, and
to the bytes in them, what they are for.

* `Chained`, `Shape` : the links are those of a list of records; `Counted` : the counts.
* `compressed` : what `sbcompress` makes of the mbufs; `compressed_bytes`.
* `sbcompress_spec` : a chain is put behind the last mbuf of the last record.
-/

namespace Hpux.Net

open Function List

/-- What `sbcompress` makes of the mbuf `n` and those of a chain. -/
def SbMbuf.compressed {B : Type} (n : SbMbuf B) : List (SbMbuf B) → List (SbMbuf B)
  | [] => [n]
  | m :: l =>
    if m.len = 0 then n.compressed l
    else if h : n.Merges m then (n.append m h).compressed l
    else n :: m.compressed l

/-- The bytes of mbufs. -/
def SbMbuf.bytes {B : Type} (l : List (SbMbuf B)) : List B := l.flatMap SbMbuf.dat

variable {B : Type}

theorem SbMbuf.compressed_bytes (n : SbMbuf B) (l : List (SbMbuf B)) :
    bytes (n.compressed l) = n.dat ++ bytes l := by
  fun_induction SbMbuf.compressed n l with
  | case1 n => simp [bytes]
  | case2 n m l h ih =>
    rw [ih]
    simp [bytes, eq_nil_of_length_eq_zero h]
  | case3 n m l h h1 ih =>
    rw [ih]
    simp [bytes, append]
  | case4 n m l h h1 ih =>
    simp only [bytes, flatMap_cons] at ih ⊢
    rw [ih]

/-- What it makes of the last record and a chain. -/
def SbMbuf.grown {B : Type} : List (SbMbuf B) → List (SbMbuf B) → List (SbMbuf B)
  | [], _ => []
  | [n], l => n.compressed l
  | n :: m :: r, l => n :: grown (m :: r) l

/-- What it makes of an empty buffer and a chain: no record if the chain has no data. -/
def SbMbuf.fresh {B : Type} : List (SbMbuf B) → List (List (SbMbuf B))
  | [] => []
  | m :: l => if m.len = 0 then fresh l else [m.compressed l]

/-- What `sbappend` makes of the records and a chain. -/
def SbMbuf.appended {B : Type} : List (List (SbMbuf B)) → List (SbMbuf B) → List (List (SbMbuf B))
  | [], l => fresh l
  | [r], l => if l.isEmpty then [r] else [grown r l]
  | r :: r' :: c, l => r :: appended (r' :: c) l

theorem SbMbuf.grown_concat (p : List (SbMbuf B)) (n : SbMbuf B) (l : List (SbMbuf B)) :
    grown (p ++ [n]) l = p ++ n.compressed l := by
  induction p with
  | nil => rfl
  | cons m p ih =>
    cases p with
    | nil => rfl
    | cons m' p => exact congrArg (m :: ·) ih

theorem SbMbuf.grown_bytes {r : List (SbMbuf B)} (hr : r ≠ []) (l : List (SbMbuf B)) :
    bytes (grown r l) = bytes r ++ bytes l := by
  rcases eq_nil_or_concat r with rfl | ⟨p, n, rfl⟩
  · exact absurd rfl hr
  · have h := compressed_bytes n l
    rw [concat_eq_append, grown_concat]
    unfold bytes at h ⊢
    rw [flatMap_append, h, flatMap_append, append_assoc]
    simp

theorem SbMbuf.appended_concat (c : List (List (SbMbuf B))) (r : List (SbMbuf B))
    {l : List (SbMbuf B)} (hl : l ≠ []) : appended (c ++ [r]) l = c ++ [grown r l] := by
  induction c with
  | nil => simp [appended, hl]
  | cons x c ih =>
    cases c with
    | nil => simp [appended, hl]
    | cons y c => exact congrArg (x :: ·) ih

theorem SbMbuf.appended_nil (c : List (List (SbMbuf B))) : appended c [] = c := by
  induction c with
  | nil => rfl
  | cons x c ih =>
    cases c with
    | nil => rfl
    | cons y c => exact congrArg (x :: ·) ih

namespace SockBuf

variable {A B : Type} [DecidableEq A] {s s' : SockBuf A B} {a b m n : A} {fuel : ℕ}
variable {l rem : List A} {q : List (A × List A)} {t : List A}

/-- The mbufs of records; a record is its first mbuf and the others. -/
def mbufs (q : List (A × List A)) : List A := q.flatMap fun r => r.1 :: r.2

omit [DecidableEq A] in
@[simp] theorem mbufs_nil : mbufs ([] : List (A × List A)) = [] := rfl

omit [DecidableEq A] in
@[simp] theorem mbufs_cons (r : A × List A) (q : List (A × List A)) :
    mbufs (r :: q) = r.1 :: r.2 ++ mbufs q := flatMap_cons

omit [DecidableEq A] in
@[simp] theorem mbufs_append (q p : List (A × List A)) : mbufs (q ++ p) = mbufs q ++ mbufs p :=
  flatMap_append

/-- The mbufs `rem` are what is left of a record, and the records `q` are behind it. -/
structure Chained (s : SockBuf A B) (rem : List A) (q : List (A × List A)) : Prop where
  front : Links (fun a => (s.cell a).next) rem
  frontact : ∀ a ∈ rem.tail, (s.cell a).act = none
  acts : Links (fun a => (s.cell a).act) (q.map Prod.fst)
  nexts : ∀ r ∈ q, Links (fun a => (s.cell a).next) (r.1 :: r.2)
  noact : ∀ r ∈ q, ∀ a ∈ r.2, (s.cell a).act = none
  nodup : (rem ++ mbufs q).Nodup
  used : ∀ a ∈ rem ++ mbufs q, s.used a = true

/-- The buffer holds the records `q`. -/
structure Shape (s : SockBuf A B) (q : List (A × List A)) : Prop where
  chained : s.Chained [] q
  mb : s.mb = (q.map Prod.fst).head?

/-- The bytes and the charges of mbufs. -/
def lens (s : SockBuf A B) (l : List A) : ℤ := (l.map fun a => ((s.cell a).m.len : ℤ)).sum

def charges (s : SockBuf A B) (l : List A) : ℤ := (l.map fun a => ((s.cell a).m.charge : ℤ)).sum

/-- The counts of the buffer are those of these mbufs. -/
def Counted (s : SockBuf A B) (l : List A) : Prop := s.cc = s.lens l ∧ s.mbcnt = s.charges l

/-- A chain that a caller passes: none of it is in a record of the buffer. -/
structure Chain (s : SockBuf A B) (q : List (A × List A)) (l : List A) : Prop where
  links : Links (fun a => (s.cell a).next) l
  act : ∀ a ∈ l, (s.cell a).act = none
  nodup : l.Nodup
  used : ∀ a ∈ l, s.used a = true
  apart : ∀ a ∈ l, a ∉ mbufs q

/-- The mbufs other than those of `l` are as they were. -/
def Frame (s s' : SockBuf A B) (l : List A) : Prop :=
  (∀ a, a ∉ l → s'.cell a = s.cell a ∧ s'.used a = s.used a) ∧ s'.hiwat = s.hiwat ∧
    s'.mbmax = s.mbmax ∧ s'.locked = s.locked

omit [DecidableEq A] in
theorem Frame.refl (s : SockBuf A B) (l : List A) : s.Frame s l :=
  ⟨fun _ _ => ⟨rfl, rfl⟩, rfl, rfl, rfl⟩

omit [DecidableEq A] in
theorem Chained.congr (h : s.Chained rem q) (hc : ∀ a ∈ rem ++ mbufs q,
    (s'.cell a).next = (s.cell a).next ∧ (s'.cell a).act = (s.cell a).act ∧ s'.used a = s.used a) :
    s'.Chained rem q := by
  have hq : ∀ r ∈ q, ∀ a ∈ r.1 :: r.2, a ∈ rem ++ mbufs q := fun r hr a ha =>
    mem_append_right _ (mem_flatMap.2 ⟨r, hr, ha⟩)
  refine ⟨h.front.congr fun a ha => (hc a (mem_append_left _ ha)).1, fun a ha => ?_,
    h.acts.congr fun a ha => ?_, fun r hr => (h.nexts r hr).congr fun a ha => (hc a (hq r hr a ha)).1,
    fun r hr a ha => ?_, h.nodup, fun a ha => ?_⟩
  · rw [(hc a (mem_append_left _ (mem_of_mem_tail ha))).2.1]
    exact h.frontact a ha
  · obtain ⟨r, hr, rfl⟩ := mem_map.1 ha
    exact (hc r.1 (hq r hr r.1 mem_cons_self)).2.1
  · rw [(hc a (hq r hr a (mem_cons_of_mem _ ha))).2.1]
    exact h.noact r hr a ha
  · rw [(hc a ha).2.2]
    exact h.used a ha

omit [DecidableEq A] in
theorem lens_congr (h : ∀ a ∈ l, (s'.cell a).m.len = (s.cell a).m.len) : s'.lens l = s.lens l := by
  unfold lens
  exact congrArg List.sum (map_congr_left fun a ha => by rw [h a ha])

omit [DecidableEq A] in
theorem charges_congr (h : ∀ a ∈ l, (s'.cell a).m.charge = (s.cell a).m.charge) :
    s'.charges l = s.charges l := by
  unfold charges
  exact congrArg List.sum (map_congr_left fun a ha => by rw [h a ha])

omit [DecidableEq A] in
@[simp] theorem lens_append (s : SockBuf A B) (l r : List A) : s.lens (l ++ r) = s.lens l + s.lens r := by
  simp [lens]

omit [DecidableEq A] in
@[simp] theorem charges_append (s : SockBuf A B) (l r : List A) :
    s.charges (l ++ r) = s.charges l + s.charges r := by
  simp [charges]

omit [DecidableEq A] in
@[simp] theorem lens_cons (s : SockBuf A B) (a : A) (l : List A) :
    s.lens (a :: l) = (s.cell a).m.len + s.lens l := by
  simp [lens]

omit [DecidableEq A] in
@[simp] theorem charges_cons (s : SockBuf A B) (a : A) (l : List A) :
    s.charges (a :: l) = (s.cell a).m.charge + s.charges l := by
  simp [charges]

omit [DecidableEq A] in
/-- Only the mbuf `n` has changed. -/
theorem lens_change (hl : l.Nodup) (hn : n ∈ l)
    (h : ∀ a, a ≠ n → (s'.cell a).m.len = (s.cell a).m.len) :
    s'.lens l = s.lens l + ((s'.cell n).m.len - (s.cell n).m.len) := by
  obtain ⟨L, R, rfl⟩ := append_of_mem hn
  have hnLR := (nodup_cons.1 (nodup_middle.1 hl)).1
  have hL : s'.lens L = s.lens L :=
    lens_congr fun a ha => h a fun h1 => hnLR (h1 ▸ mem_append_left R ha)
  have hR : s'.lens R = s.lens R :=
    lens_congr fun a ha => h a fun h1 => hnLR (h1 ▸ mem_append_right L ha)
  rw [lens_append, lens_append, lens_cons, lens_cons, hL, hR]
  omega

omit [DecidableEq A] in
theorem charges_change (hl : l.Nodup) (hn : n ∈ l)
    (h : ∀ a, a ≠ n → (s'.cell a).m.charge = (s.cell a).m.charge) :
    s'.charges l = s.charges l + ((s'.cell n).m.charge - (s.cell n).m.charge) := by
  obtain ⟨L, R, rfl⟩ := append_of_mem hn
  have hnLR := (nodup_cons.1 (nodup_middle.1 hl)).1
  have hL : s'.charges L = s.charges L :=
    charges_congr fun a ha => h a fun h1 => hnLR (h1 ▸ mem_append_left R ha)
  have hR : s'.charges R = s.charges R :=
    charges_congr fun a ha => h a fun h1 => hnLR (h1 ▸ mem_append_right L ha)
  rw [charges_append, charges_append, charges_cons, charges_cons, hL, hR]
  omega

omit [DecidableEq A] in
theorem follow_spec {link : A → Option A} (h : Links link (a :: l)) (hf : l.length < fuel) :
    ∃ b, follow link fuel a = .ok b ∧ (a :: l).getLast? = some b := by
  induction fuel generalizing a l with
  | zero => omega
  | succ fuel ih =>
    unfold follow
    cases l with
    | nil =>
      rw [show link a = none from h.1]
      exact ⟨a, rfl, rfl⟩
    | cons b l =>
      rw [show link a = some b from h.1, getLast?_cons_cons]
      exact ih h.2 (by simpa using hf)

/-! ### Compressing -/

/-- The mbuf `m` is linked behind the last mbuf `n` of the last record. -/
theorem Chained.link {h : A} (hs : s.Chained [] (q ++ [(h, t)])) (hn : (h :: t).getLast? = some n)
    (hm : m ∉ mbufs (q ++ [(h, t)])) (hu : s.used m = true) (ha : (s.cell m).act = none) :
    ((s.setNext n (some m)).setNext m none).Chained [] (q ++ [(h, t ++ [m])]) := by
  have hcell : ∀ a, a ≠ n → a ≠ m → ((s.setNext n (some m)).setNext m none).cell a = s.cell a :=
    fun a h1 h2 => (update_of_ne h2 _ _).trans (update_of_ne h1 _ _)
  have hact : ∀ a, (((s.setNext n (some m)).setNext m none).cell a).act = (s.cell a).act := by
    intro a
    by_cases h1 : a = m
    · subst h1
      simp only [setNext, update_self]
      by_cases h2 : a = n
      · subst h2
        rw [update_self]
      · rw [update_of_ne h2]
    · by_cases h2 : a = n
      · subst h2
        simp only [setNext, update_of_ne h1, update_self]
      · rw [hcell a h2 h1]
  have hall : mbufs (q ++ [(h, t ++ [m])]) = mbufs (q ++ [(h, t)]) ++ [m] := by simp
  have hnt : n ∈ h :: t := mem_of_getLast? hn
  have hmt : m ∉ h :: t := fun h1 => hm (by simp; right; simpa using h1)
  have hnm : n ≠ m := fun h1 => hmt (h1 ▸ hnt)
  have hnd := hs.nodup
  rw [nil_append, mbufs_append] at hnd
  refine ⟨trivial, nofun, ?_, fun r hr => ?_, fun r hr a har => ?_, ?_, fun a ha1 => ?_⟩
  · have h1 := hs.acts.congr fun a _ => hact a
    simpa using h1
  · rcases mem_append.1 hr with hr | hr
    · refine (hs.nexts r (mem_append_left _ hr)).congr fun a har => ?_
      have h1 : a ∈ mbufs q := mem_flatMap.2 ⟨r, hr, har⟩
      have h2 : a ≠ n := by
        rintro rfl
        exact (nodup_append.1 hnd).2.2 a h1 a (by simpa using hnt) rfl
      have h3 : a ≠ m := by
        rintro rfl
        exact hm (by simp [h1])
      rw [hcell a h2 h3]
    · obtain rfl := mem_singleton.1 hr
      have h1 := hs.nexts (h, t) (by simp)
      refine h1.concat ?_ (fun c hc hne => ?_) (fun c hc => ?_) ?_
      · have h2 := (nodup_append.1 hnd).2.1
        simpa using h2
      · have h2 : c ≠ m := by
          rintro rfl
          exact hmt hc
        rw [hcell c (fun h3 => hne (h3 ▸ hn)) h2]
      · obtain rfl : n = c := Option.some.inj (hn.symm.trans hc)
        simp only [setNext, update_of_ne hnm, update_self]
      · simp only [setNext, update_self]
  · rw [hact]
    rcases mem_append.1 hr with hr | hr
    · exact hs.noact r (mem_append_left _ hr) a har
    · obtain rfl := mem_singleton.1 hr
      rcases mem_append.1 har with har | har
      · exact hs.noact (h, t) (by simp) a har
      · obtain rfl := mem_singleton.1 har
        exact ha
  · rw [nil_append, hall, nodup_append]
    refine ⟨by simpa using hs.nodup, nodup_singleton m, ?_⟩
    rintro a ha1 _ hb rfl
    exact hm (mem_singleton.1 hb ▸ ha1)
  · rw [nil_append, hall] at ha1
    rcases mem_append.1 ha1 with ha1 | ha1
    · exact hs.used a (by simpa using ha1)
    · obtain rfl := mem_singleton.1 ha1
      exact hu

omit [DecidableEq A] in
theorem Chain.congr {p : List (A × List A)} (h : s.Chain q l) (hc : ∀ a ∈ l, s'.cell a = s.cell a)
    (hu : ∀ a ∈ l, s'.used a = s.used a) (hp : ∀ a ∈ l, a ∉ mbufs p) : s'.Chain p l := by
  refine ⟨h.links.congr fun a ha => by rw [hc a ha], fun a ha => ?_, h.nodup, fun a ha => ?_, hp⟩
  · rw [hc a ha]
    exact h.act a ha
  · rw [hu a ha]
    exact h.used a ha

omit [DecidableEq A] in
theorem Chain.tail (h : s.Chain q (m :: l)) : s.Chain q l :=
  ⟨h.links.2, fun a ha => h.act a (mem_cons_of_mem m ha), (nodup_cons.1 h.nodup).2,
    fun a ha => h.used a (mem_cons_of_mem m ha), fun a ha => h.apart a (mem_cons_of_mem m ha)⟩

/-- The contents of mbufs. -/
def view (s : SockBuf A B) (l : List A) : List (SbMbuf B) := l.map fun a => (s.cell a).m

omit [DecidableEq A] in
theorem view_congr (h : ∀ a ∈ l, (s'.cell a).m = (s.cell a).m) : s'.view l = s.view l :=
  map_congr_left h

omit [DecidableEq A] in
theorem Counted.congr {l2 : List A} (h : s.Counted l) (hcc : s'.cc = s.cc + (s'.lens l2 - s.lens l))
    (hmb : s'.mbcnt = s.mbcnt + (s'.charges l2 - s.charges l)) : s'.Counted l2 := by
  obtain ⟨h1, h2⟩ := h
  exact ⟨by omega, by omega⟩

theorem mFree_spec (hu : s.used m = true) :
    s.mFree m = .ok ({ s with used := update s.used m false }, (s.cell m).next) :=
  if_pos hu

/-- The mbufs of a chain are put behind the last mbuf of the last record. -/
theorem sbcompress_spec {h : A} (hs : s.Chained [] (q ++ [(h, t)]))
    (hc : s.Counted (mbufs (q ++ [(h, t)]))) (hn : (h :: t).getLast? = some n)
    (hl : s.Chain (q ++ [(h, t)]) l) (hf : l.length < fuel) :
    ∃ s' r, sbcompress fuel s l.head? (some n) = .ok s' ∧ s'.Chained [] (q ++ [(h, t ++ r)]) ∧
      s'.Counted (mbufs (q ++ [(h, t ++ r)])) ∧ s'.mb = s.mb ∧ s.Frame s' (n :: l) ∧ (∀ a ∈ r, a ∈ l) ∧
      s'.view (n :: r) = ((s.cell n).m).compressed (s.view l) := by
  induction l generalizing s t n fuel with
  | nil =>
    obtain ⟨fuel, rfl⟩ := Nat.exists_eq_succ_of_ne_zero (Nat.ne_zero_of_lt hf)
    refine ⟨s, [], rfl, ?_, ?_, rfl, .refl s _, nofun, rfl⟩
    · simpa using hs
    · simpa using hc
  | cons m l ih =>
    obtain ⟨fuel, rfl⟩ := Nat.exists_eq_succ_of_ne_zero (Nat.ne_zero_of_lt hf)
    have hu := hl.used m mem_cons_self
    have hap := hl.apart m mem_cons_self
    have hml := (nodup_cons.1 hl.nodup).1
    have hf' : l.length < fuel := by simpa using hf
    have hnt : n ∈ h :: t := mem_of_getLast? hn
    have hnq : n ∈ mbufs (q ++ [(h, t)]) := by
      rw [mbufs_append]
      exact mem_append_right _ (by simpa using hnt)
    have hnm : n ≠ m := fun h1 => hap (h1 ▸ hnq)
    have hnext : (s.cell m).next = l.head? := hl.links.1
    unfold sbcompress
    simp only [head?_cons]
    by_cases hlen : (s.cell m).m.len = 0
    · -- an mbuf without data is freed
      rw [if_pos hlen, mFree_spec hu, hnext]
      have hother : ∀ a, a ≠ m → update s.used m false a = s.used a := fun a ha => update_of_ne ha _ _
      have hs1 : Chained { s with used := update s.used m false } [] (q ++ [(h, t)]) :=
        hs.congr fun a ha => ⟨rfl, rfl, hother a fun h1 => hap (h1 ▸ by simpa using ha)⟩
      have hl1 : Chain { s with used := update s.used m false } (q ++ [(h, t)]) l :=
        hl.tail.congr (fun _ _ => rfl) (fun a ha => hother a fun h1 => hml (h1 ▸ ha)) hl.tail.apart
      obtain ⟨s', r, h1, h2, h3, h4, h5, h6, h7⟩ := ih hs1 hc hn hl1 hf'
      refine ⟨s', r, h1, h2, h3, h4, ?_, fun a ha => mem_cons_of_mem m (h6 a ha), ?_⟩
      · refine ⟨fun a ha => ?_, h5.2⟩
        have ha1 : a ∉ n :: l := fun h8 => ha (by
          rcases mem_cons.1 h8 with rfl | h8
          · exact mem_cons_self
          · exact mem_cons_of_mem _ (mem_cons_of_mem _ h8))
        obtain ⟨h8, h9⟩ := h5.1 a ha1
        exact ⟨h8, h9.trans (hother a fun h10 => ha (by simp [h10]))⟩
      · rw [h7]
        simp only [view, map_cons, SbMbuf.compressed, if_pos hlen]
    rw [if_neg hlen]
    by_cases hmg : (s.cell n).m.Merges (s.cell m).m
    · -- its bytes are copied behind those of the last mbuf
      rw [dif_pos hmg]
      rw [mFree_spec (by exact hu)]
      have hcellm : ((s.setMbuf n ((s.cell n).m.append (s.cell m).m hmg)).cell m) = s.cell m :=
        update_of_ne (Ne.symm hnm) _ _
      have hcell : ∀ a, a ≠ n → (s.setMbuf n ((s.cell n).m.append (s.cell m).m hmg)).cell a =
          s.cell a := fun a ha => update_of_ne ha _ _
      have hcelln : ((s.setMbuf n ((s.cell n).m.append (s.cell m).m hmg)).cell n) =
          { s.cell n with m := (s.cell n).m.append (s.cell m).m hmg } := update_self ..
      generalize hs2 : s.setMbuf n ((s.cell n).m.append (s.cell m).m hmg) = s2
      rw [hs2] at hcellm hcell hcelln
      have hused : s2.used = s.used := by rw [← hs2]; rfl
      have hcc2 : s2.cc = s.cc := by rw [← hs2]; rfl
      have hmb2 : s2.mbcnt = s.mbcnt := by rw [← hs2]; rfl
      have hlim : s2.mb = s.mb ∧ s2.hiwat = s.hiwat ∧ s2.mbmax = s.mbmax ∧ s2.locked = s.locked := by
        rw [← hs2]
        exact ⟨rfl, rfl, rfl, rfl⟩
      dsimp only
      rw [hcellm, hnext]
      have hlink : ∀ a, (s2.cell a).next = (s.cell a).next ∧ (s2.cell a).act = (s.cell a).act := by
        intro a
        by_cases ha : a = n
        · subst ha
          rw [hcelln]
          exact ⟨rfl, rfl⟩
        · rw [hcell a ha]
          exact ⟨rfl, rfl⟩
      have hother : ∀ a, a ≠ m → update s2.used m false a = s.used a := fun a ha => by
        rw [update_of_ne ha, hused]
      have hs1 : Chained { s2 with
          cc := s2.cc + (s.cell m).m.len, used := update s2.used m false } [] (q ++ [(h, t)]) :=
        hs.congr fun a ha => ⟨(hlink a).1, (hlink a).2, hother a fun h1 => hap (h1 ▸ by simpa using ha)⟩
      have hln : ∀ a ∈ l, a ≠ n := fun a ha h1 => hl.apart a (mem_cons_of_mem m ha) (h1 ▸ hnq)
      have hl1 : Chain { s2 with
          cc := s2.cc + (s.cell m).m.len, used := update s2.used m false } (q ++ [(h, t)]) l :=
        hl.tail.congr (fun a ha => hcell a (hln a ha)) (fun a ha => hother a fun h1 => hml (h1 ▸ ha))
          hl.tail.apart
      have hnd : (mbufs (q ++ [(h, t)])).Nodup := by simpa using hs.nodup
      have hc1 : Counted { s2 with
          cc := s2.cc + (s.cell m).m.len, used := update s2.used m false } (mbufs (q ++ [(h, t)])) := by
        refine hc.congr ?_ ?_
        · show s2.cc + (s.cell m).m.len = s.cc + (s2.lens _ - s.lens _)
          have h1 : s2.lens (mbufs (q ++ [(h, t)])) = s.lens (mbufs (q ++ [(h, t)])) + _ :=
            lens_change hnd hnq fun a ha => by rw [hcell a ha]
          rw [h1, hcelln, hcc2]
          simp only [SbMbuf.append, SbMbuf.len, length_append]
          push_cast
          omega
        · show s2.mbcnt = s.mbcnt + (s2.charges _ - s.charges _)
          have h1 : s2.charges (mbufs (q ++ [(h, t)])) = s.charges (mbufs (q ++ [(h, t)])) + _ :=
            charges_change hnd hnq fun a ha => by rw [hcell a ha]
          have h2 : (s2.cell n).m.charge = (s.cell n).m.charge := by
            rw [hcelln]
            rfl
          rw [h1, h2, hmb2]
          omega
      obtain ⟨s', r, h1, h2, h3, h4, h5, h6, h7⟩ := ih hs1 hc1 hn hl1 hf'
      refine ⟨s', r, h1, h2, h3, h4.trans hlim.1, ?_, fun a ha => mem_cons_of_mem m (h6 a ha), ?_⟩
      · refine ⟨fun a ha => ?_, h5.2.1.trans hlim.2.1, h5.2.2.1.trans hlim.2.2.1,
          h5.2.2.2.trans hlim.2.2.2⟩
        simp only [mem_cons, not_or] at ha
        obtain ⟨h8, h9⟩ := h5.1 a (by simp [ha])
        exact ⟨h8.trans (hcell a ha.1), h9.trans (hother a ha.2.1)⟩
      · rw [h7]
        simp only [view, map_cons, SbMbuf.compressed, if_neg hlen, dif_pos hmg]
        have h8 : l.map (fun a => (s2.cell a).m) = l.map fun a => (s.cell a).m :=
          map_congr_left fun a ha => by rw [hcell a (hln a ha)]
        rw [h8, hcelln]
    · -- it is linked behind the last mbuf
      rw [dif_neg hmg]
      have hs1 := (hs.link hn hap hu (hl.act m mem_cons_self))
      have hcell : ∀ a, a ≠ n → a ≠ m →
          ((((s.sballoc m).setNext n (some m)).setNext m none).cell a) = s.cell a :=
        fun a h1 h2 => (update_of_ne h2 _ _).trans (update_of_ne h1 _ _)
      have hcont : ∀ a, ((((s.sballoc m).setNext n (some m)).setNext m none).cell a).m =
          (s.cell a).m := by
        intro a
        by_cases h2 : a = m
        · subst h2
          simp only [setNext, update_self, sballoc, update_of_ne (Ne.symm hnm)]
        · by_cases h1 : a = n
          · subst h1
            simp only [setNext, update_self, sballoc, update_of_ne h2]
          · rw [hcell a h1 h2]
      have hnextm : (((s.sballoc m).setNext n (some m)).cell m).next = l.head? := by
        simp only [setNext, update_of_ne (Ne.symm hnm), sballoc]
        exact hnext
      have hs1' : (((s.sballoc m).setNext n (some m)).setNext m none).Chained []
          (q ++ [(h, t ++ [m])]) := hs1.congr fun _ _ => ⟨rfl, rfl, rfl⟩
      rw [hnextm]
      generalize hs2 : ((s.sballoc m).setNext n (some m)).setNext m none = s2
      rw [hs2] at hcell hcont hs1'
      have hcc2 : s2.cc = s.cc + (s.cell m).m.len := by rw [← hs2]; rfl
      have hmb2 : s2.mbcnt = s.mbcnt + (s.cell m).m.charge := by rw [← hs2]; rfl
      have hlim : s2.mb = s.mb ∧ s2.hiwat = s.hiwat ∧ s2.mbmax = s.mbmax ∧ s2.locked = s.locked ∧
          s2.used = s.used := by
        rw [← hs2]
        exact ⟨rfl, rfl, rfl, rfl, rfl⟩
      have hall : mbufs (q ++ [(h, t ++ [m])]) = mbufs (q ++ [(h, t)]) ++ [m] := by simp
      have hc1 : s2.Counted (mbufs (q ++ [(h, t ++ [m])])) := by
        refine hc.congr ?_ ?_
        · have h1 : s2.lens (mbufs (q ++ [(h, t)])) = s.lens (mbufs (q ++ [(h, t)])) :=
            lens_congr fun a _ => by rw [hcont a]
          rw [hall, lens_append, h1, hcc2, lens_cons, hcont]
          simp only [lens, map_nil, sum_nil]
          omega
        · have h1 : s2.charges (mbufs (q ++ [(h, t)])) = s.charges (mbufs (q ++ [(h, t)])) :=
            charges_congr fun a _ => by rw [hcont a]
          rw [hall, charges_append, h1, hmb2, charges_cons, hcont]
          simp only [charges, map_nil, sum_nil]
          omega
      have hlq : ∀ a ∈ l, a ∉ mbufs (q ++ [(h, t ++ [m])]) := by
        intro a ha h1
        rw [hall] at h1
        rcases mem_append.1 h1 with h1 | h1
        · exact hl.apart a (mem_cons_of_mem m ha) h1
        · exact hml (mem_singleton.1 h1 ▸ ha)
      have hln : ∀ a ∈ l, a ≠ n := fun a ha h1 => hl.apart a (mem_cons_of_mem m ha) (h1 ▸ hnq)
      have hl1 : s2.Chain (q ++ [(h, t ++ [m])]) l :=
        hl.tail.congr (fun a ha => hcell a (hln a ha) fun h1 => hml (h1 ▸ ha))
          (fun a _ => congrFun hlim.2.2.2.2 a) hlq
      obtain ⟨s', r, h1, h2, h3, h4, h5, h6, h7⟩ := ih hs1' hc1 (by
        rw [← cons_append, getLast?_concat]) hl1 hf'
      refine ⟨s', m :: r, h1, by simpa using h2, by simpa using h3, h4.trans hlim.1, ?_, ?_, ?_⟩
      · refine ⟨fun a ha => ?_, h5.2.1.trans hlim.2.1, h5.2.2.1.trans hlim.2.2.1,
          h5.2.2.2.trans hlim.2.2.2.1⟩
        simp only [mem_cons, not_or] at ha
        obtain ⟨h8, h9⟩ := h5.1 a (by simp [ha])
        exact ⟨h8.trans (hcell a ha.1 ha.2.1), h9.trans (congrFun hlim.2.2.2.2 a)⟩
      · intro a ha
        rcases mem_cons.1 ha with rfl | ha
        · exact mem_cons_self
        · exact mem_cons_of_mem m (h6 a ha)
      · have h8 : (s'.cell n).m = (s.cell n).m := by
          rw [(h5.1 n fun h9 => ?_).1, hcont]
          rcases mem_cons.1 h9 with h9 | h9
          · exact hnm h9
          · exact hln n h9 rfl
        have h9 : s'.view (n :: m :: r) = (s'.cell n).m :: s'.view (m :: r) := rfl
        rw [h9, h7, h8, hcont]
        simp only [view, map_cons, SbMbuf.compressed, if_neg hlen, dif_neg hmg]
        have h10 : l.map (fun a => (s2.cell a).m) = l.map fun a => (s.cell a).m :=
          map_congr_left fun a _ => hcont a
        rw [h10]

end SockBuf

end Hpux.Net
