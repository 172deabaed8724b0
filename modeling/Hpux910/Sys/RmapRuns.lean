import Hpux910.Lib.Lts
import Hpux910.Sys.SubrRmap

/-!
# Runs of a resource map

The routines of a resource map in any order, from `rminit` on.

* `RmOp.run` : a call.
* `RmOp.Enabled` : the calls that callers may make, which free only what is not free.
* `RmOp.Result` : what a call should return and leave behind.
* `RmOp.Careful` : the calls that do not meet a defect of the code.  `rmfree` returns 0 when it
  joins two segments, since it reads the length behind the slots that it has shifted, and `do_rmget`
  compares the ends of ranges modulo `2 ^ 32`.
* `resource_map_correct` : in every run of careful calls the map is right and every careful call
  returns what it should.
-/

namespace Hpux

namespace Rmap

open List

/-- A call. -/
inductive RmOp
  | malloc (size : ℕ)
  | free (size addr : ℕ)
  | get (size addr : ℕ)
  deriving DecidableEq, Repr

namespace RmOp

/-- The value that the call returns and the new slots. -/
def run : RmOp → List Mapent → Except Fault (ℕ × List Mapent)
  | malloc size => rmalloc size
  | free size addr => rmfree size addr
  | get size addr => rmget size addr

/-- The arguments are machine integers, and a range that is freed is not empty, does not start at
the delimiter's address and is not free. -/
def Enabled (slots : List Mapent) : RmOp → Prop
  | malloc size => size < 2 ^ 32
  | free size addr => 0 < size ∧ 0 < addr ∧ addr + size ≤ 2 ^ 32 ∧
      ∀ x ∈ range size addr, x ∉ units (segs slots)
  | get size addr => size < 2 ^ 32 ∧ addr < 2 ^ 32

/-- The range starts in the segment and fits. -/
def Holds (size addr : ℕ) (e : Mapent) : Prop :=
  e.mAddr ≤ addr ∧ addr < e.mAddr + e.mSize ∧ addr + size ≤ e.mAddr + e.mSize

/-- Taking the range leaves a piece on both sides, and there is no slot for the second one. -/
def NoSlot (limit : ℕ) (slots : List Mapent) (size addr : ℕ) (e : Mapent) : Prop :=
  e.mAddr < addr ∧ addr + size < e.mAddr + e.mSize ∧ limit ≤ (segs slots).length + 1

/-- What the call should do: the value, the free units and when it fails. -/
def Result (limit : ℕ) (slots : List Mapent) (r : ℕ × List Mapent) : RmOp → Prop
  | malloc size =>
    (∀ e ∈ segs slots, e.mSize < size) ∧ r = (0, slots) ∨
    ∃ pre e post, segs slots = pre ++ e :: post ∧ (∀ f ∈ pre, f.mSize < size) ∧ size ≤ e.mSize ∧
      r.1 = e.mAddr ∧ r.1 ≠ 0 ∧ units (segs r.2) = units (segs slots) \ range size e.mAddr
  | get size addr =>
    (∀ e ∈ segs slots, Holds size addr e → NoSlot limit slots size addr e) ∧ r = (0, slots) ∨
    (∃ e ∈ segs slots, Holds size addr e ∧ ¬NoSlot limit slots size addr e) ∧
      r.1 = addr ∧ r.1 ≠ 0 ∧ units (segs r.2) = units (segs slots) \ range size addr
  | free size addr =>
    (∃ l, SegsOk l ∧ units l = units (segs slots) ∪ range size addr ∧
      if l.length < limit then segs r.2 = l
      else ∃ A e B, l = A ++ e :: B ∧ segs r.2 = A ++ B) ∧
    ∀ e ∈ segs r.2, e.mAddr ≤ addr → addr + size ≤ e.mAddr + e.mSize → r.1 = e.mSize

/-- The calls that do not meet a defect.  A freed range is not adjacent to a segment on both sides.
A segment in which `rmget` looks does not end at `2 ^ 32`, the range does not end there or beyond,
and an empty range is at the start of a segment; or `rmget` fails anyhow. -/
def Careful (limit : ℕ) (slots : List Mapent) : RmOp → Prop
  | malloc _ => True
  | free size addr => ¬Fills size addr (segs slots)
  | get size addr => ∀ e ∈ segs slots, e.mAddr ≤ addr → addr < e.mAddr + e.mSize →
      if e.mAddr + e.mSize = 2 ^ 32 then 2 ^ 32 < addr + size ∨ NoSlot limit slots size addr e
      else (addr + size < 2 ^ 32 ∧ (0 < size ∨ e.mAddr = addr)) ∨
        (e.mAddr < addr ∧ limit ≤ (segs slots).length + 1)

end RmOp

/-- A resource map after `rminit`. -/
def rmapSys (m₀ : List Mapent) : Lts (List Mapent) RmOp where
  init m := m = m₀
  step m op m' := op.Enabled m ∧ ∃ v, op.run m = .ok (v, m')

theorem rminit_ok {limit size addr : ℕ} {slots m : List Mapent} (hlen : slots.length = limit)
    (hle : addr + size ≤ 2 ^ 32) (h : rminit size addr slots = .ok m) : MapOk limit m := by
  obtain ⟨a, b, rest, rfl⟩ : ∃ a b rest, slots = a :: b :: rest := by
    match slots with
    | [] => cases h
    | [_] => cases h
    | a :: b :: rest => exact ⟨a, b, rest, rfl⟩
  simp only [length_cons] at hlen
  simp only [rminit] at h
  split_ifs at h with hc
  obtain rfl := Except.ok.inj h
  obtain hz | hpos := Nat.eq_zero_or_pos size
  · obtain rfl := hc.1 hz
    subst hz
    exact mapOk_iff.2 ⟨[], delim :: rest, rfl, segsOk_nil, by simp; omega⟩
  · have haddr : 0 < addr := Nat.pos_of_ne_zero fun h => by omega
    exact mapOk_iff.2 ⟨[⟨size, addr⟩], rest, rfl, segsOk_singleton.2 ⟨hpos, haddr, hle⟩,
      by simp; omega⟩

namespace RmOp

variable {limit : ℕ} {slots : List Mapent}

theorem run_malloc (hm : MapOk limit slots) (size : ℕ) :
    ∃ r, run (malloc size) slots = .ok r ∧ MapOk limit r.2 ∧ Result limit slots r (malloc size) := by
  obtain ⟨l, rest, rfl, hok, hlen⟩ := mapOk_iff.1 hm
  have hsegs := segs_append hok.size_ne rest
  obtain ⟨hall, he⟩ | ⟨pre, e, post, rest', rfl, hpre, hle, hlen', he⟩ := rmalloc_cases hok size rest
  · refine ⟨_, he, hm, .inl ⟨?_, rfl⟩⟩
    rwa [hsegs]
  · have hpos := (hok.2 e (by simp)).addr_pos
    obtain ⟨hm', hu⟩ := @mapOk_take e size e.mAddr pre post rest' limit hok (le_refl _) (by omega)
      (.inr rfl) (by simp only [length_append, length_cons] at hlen; omega)
    refine ⟨_, he, hm', .inr ⟨pre, e, post, hsegs, hpre, hle, rfl, ?_, ?_⟩⟩
    · simp only
      omega
    · rw [hsegs]
      exact hu

/-- A unit is in one segment. -/
theorem eq_of_mem {l : List Mapent} (hok : SegsOk l) {e f : Mapent} (he : e ∈ l) (hf : f ∈ l) {x : ℕ}
    (hxe : e.mAddr ≤ x ∧ x < e.mAddr + e.mSize) (hxf : f.mAddr ≤ x ∧ x < f.mAddr + f.mSize) :
    e = f := by
  obtain ⟨pre, post, rfl⟩ := append_of_mem he
  have hnot := hok.units_split hxe
  obtain hf | hf := mem_append.1 hf
  · exact absurd ⟨f, hf, hxf⟩ hnot.1
  · obtain rfl | hf := mem_cons.1 hf
    · rfl
    · exact absurd ⟨f, hf, hxf⟩ hnot.2

theorem run_get {size addr : ℕ} (hm : MapOk limit slots) (hen : Enabled slots (get size addr))
    (hcare : Careful limit slots (get size addr)) : ∃ r, run (get size addr) slots = .ok r ∧
      MapOk limit r.2 ∧ Result limit slots r (get size addr) := by
  obtain ⟨l, rest, rfl, hok, hlen⟩ := mapOk_iff.1 hm
  have hsegs := segs_append hok.size_ne rest
  have hslot : rest = [] ↔ limit ≤ l.length + 1 := by
    rw [← length_eq_zero_iff]
    omega
  simp only [Careful, NoSlot, hsegs] at hcare
  obtain ⟨hall, hscan⟩ | ⟨pre, e, post, rfl, hhas, hscan⟩ := rmgetScan_cases hok size addr rest
  · -- no segment with the address is found
    refine ⟨(0, l ++ delim :: rest), ?_, hm, .inl ⟨fun e he hholds => ?_, rfl⟩⟩
    · simp only [run, rmget, doRmget, hscan]
    · simp only [NoSlot, hsegs] at he ⊢
      have hle := (hok.2 e he).le
      have hend : e.mAddr + e.mSize = 2 ^ 32 := by
        by_contra hne
        exact hall e he ⟨hholds.1, by rw [u32_eq (by omega)]; exact hholds.2.1⟩
      have := hcare e he hholds.1 hholds.2.1
      rw [if_pos hend] at this
      have := hholds.2.2
      omega
  · have he : e.Ok := hok.2 e (by simp)
    obtain ⟨hend, haddr⟩ := hhas.lt he
    have hc := hcare e (by simp) hhas.1 haddr
    rw [if_neg (by omega), ← hslot] at hc
    have hone : ∀ f ∈ pre ++ e :: post, Holds size addr f → f = e := fun f hf h =>
      eq_of_mem hok hf (by simp) ⟨h.1, h.2.1⟩ ⟨hhas.1, haddr⟩
    obtain ⟨hfail, hrun⟩ | ⟨hfit, hslot', hs, rest', hlen', hrun⟩ :=
      rmget_cases hok hhas hen.1 hc hscan
    · refine ⟨_, hrun, hm, .inl ⟨fun f hf h => ?_, rfl⟩⟩
      rw [hsegs] at hf
      obtain rfl := hone f hf h
      simp only [NoSlot, hsegs, ← hslot]
      exact hfail.resolve_left (not_not_intro h.2.2)
    · obtain ⟨hm', hu⟩ := @mapOk_take e size addr pre post rest' limit hok hhas.1 hfit hs
        (by simp only [length_append, length_cons] at hlen; omega)
      have hpos := he.addr_pos
      have hle := hhas.1
      refine ⟨_, hrun, hm', .inr ⟨⟨e, by rw [hsegs]; simp, ⟨hhas.1, haddr, hfit⟩, ?_⟩, rfl, ?_, ?_⟩⟩
      · simp only [NoSlot, hsegs, ← hslot]
        exact hslot'
      · simp only
        omega
      · rw [hsegs]
        exact hu

theorem run_free {size addr : ℕ} (hlim : 2 ≤ limit) (hm : MapOk limit slots)
    (hen : Enabled slots (free size addr)) (hcare : Careful limit slots (free size addr)) :
    ∃ r, run (free size addr) slots = .ok r ∧ MapOk limit r.2 ∧
      Result limit slots r (free size addr) := by
  obtain ⟨l, rest, rfl, hok, hlen⟩ := mapOk_iff.1 hm
  have hsegs := segs_append hok.size_ne rest
  obtain ⟨hsize, haddr, hhi, hfree⟩ := hen
  rw [hsegs] at hfree
  simp only [Careful, hsegs] at hcare
  obtain ⟨A, n, B, v, m, hrun, hadd, hst, hv⟩ :=
    rmfree_cases rest hok hsize haddr hhi (by omega) hfree
  have hval : ∀ l' : List Mapent, l'.Sublist (A ++ n :: B) → ∀ e ∈ l', e.mAddr ≤ addr →
      addr + size ≤ e.mAddr + e.mSize → v = e.mSize := by
    intro l' hl' e he hlo hhi'
    have hlo' := hadd.lo
    have hhi'' := hadd.hi
    have hen : e = n := @eq_of_mem _ hadd.ok e n (hl'.subset he) (by simp) addr
      ⟨hlo, by omega⟩ ⟨hlo', by omega⟩
    rw [hen]
    exact hv hcare
  rw [hlen] at hst
  obtain ⟨rest', rfl, hlen'⟩ | ⟨C, e, b, rfl, hC, hlen', rfl⟩ := hst
  · have hsegs' := segs_append hadd.ok.size_ne rest'
    refine ⟨_, hrun, mapOk_iff.2 ⟨_, rest', rfl, hadd.ok, hlen'⟩, ⟨A ++ n :: B, hadd.ok, ?_, ?_⟩, ?_⟩
    · rw [hsegs, hadd.units]
    · rw [if_pos (by omega), hsegs']
    · rw [hsegs']
      exact hval _ (List.Sublist.refl _)
  · -- the second to last segment is lost
    have hsub : (C ++ [b]).Sublist (A ++ n :: B) := by
      rw [hC]
      exact List.Sublist.append_left (by simp) C
    have hok' := hadd.ok.sublist hsub
    have hmap : C ++ [b, delim] = (C ++ [b]) ++ delim :: [] := by simp
    have hsegs' := segs_append hok'.size_ne []
    have hClen := congrArg List.length hC
    simp only [length_append, length_cons, length_nil] at hClen hlen'
    refine ⟨_, hrun, mapOk_iff.2 ⟨C ++ [b], [], hmap, hok', ?_⟩, ⟨A ++ n :: B, hadd.ok, ?_, ?_⟩, ?_⟩
    · simp only [length_append, length_cons, length_nil]
      omega
    · rw [hsegs, hadd.units]
    · rw [if_neg (by simp only [length_append, length_cons]; omega)]
      refine ⟨C, e, [b], by simpa using hC, ?_⟩
      simp only [hmap, hsegs']
    · simp only [hmap, hsegs']
      exact hval _ hsub

theorem run_correct (hlim : 2 ≤ limit) (hm : MapOk limit slots) (op : RmOp)
    (hen : op.Enabled slots) (hcare : op.Careful limit slots) :
    ∃ r, op.run slots = .ok r ∧ MapOk limit r.2 ∧ op.Result limit slots r := by
  cases op with
  | malloc size => exact run_malloc hm size
  | free size addr => exact run_free hlim hm hen hcare
  | get size addr => exact run_get hm hen hcare

end RmOp

/-- In every run of careful calls the slots are segments in increasing order, none empty, adjacent
or overlapping, and a delimiter below `m_limit`.  Every careful call then stays below `m_limit`,
finds nothing to panic about, and returns and removes or adds what it should. -/
theorem resource_map_correct {limit size addr : ℕ} {slots m₀ m : List Mapent} (hlim : 2 ≤ limit)
    (hlen : slots.length = limit) (hle : addr + size ≤ 2 ^ 32)
    (hinit : rminit size addr slots = .ok m₀)
    (hm : ((rmapSys m₀).restrict fun m op => op.Careful limit m).Reach m) :
    MapOk limit m ∧ ∀ op : RmOp, op.Enabled m → op.Careful limit m →
      ∃ r, op.run m = .ok r ∧ MapOk limit r.2 ∧ op.Result limit m r := by
  have hok : MapOk limit m := by
    refine hm.inv ?_ ?_
    · rintro _ rfl
      exact rminit_ok hlen hle hinit
    · rintro s op s' - hs ⟨hcare, hen, v, hrun⟩
      obtain ⟨r, hrun', hr, -⟩ := RmOp.run_correct hlim hs op hen hcare
      obtain rfl := Except.ok.inj (hrun'.symm.trans hrun)
      exact hr
  exact ⟨hok, RmOp.run_correct hlim hok⟩

/-- A map of 10 units from 100 on, in five slots. -/
def fresh : List Mapent := [⟨10, 100⟩, delim, delim, delim, delim]

theorem resource_map_correct_split : ∃ r, (RmOp.get 2 104).run fresh = .ok r ∧ MapOk 5 r.2 ∧
    (RmOp.get 2 104).Result 5 fresh r := by
  have hinit : rminit 10 100 (List.replicate 5 delim) = .ok fresh := rfl
  refine (resource_map_correct (by decide) rfl (by decide) hinit (.init rfl)).2 (.get 2 104) ?_ ?_
  · exact ⟨by decide, by decide⟩
  · intro e he _ _
    obtain rfl : e = ⟨10, 100⟩ := by simpa [fresh, segs, delim] using he
    exact .inl ⟨by decide, .inl (by decide)⟩

/-- Two pairs of units are taken and freed again in order.  The second free joins the first pair
with the rest of the map, and returns 0 for a segment of 10 units. -/
theorem rmfree_length_wrong : ∃ m r, (rmapSys fresh).Reach m ∧ (RmOp.free 2 102).Enabled m ∧
    (RmOp.free 2 102).run m = .ok r ∧ r.1 = 0 ∧ segs r.2 = [⟨10, 100⟩] ∧
    ¬(RmOp.free 2 102).Result 5 m r := by
  have h₁ : (rmapSys fresh).Reach [⟨8, 102⟩, delim, delim, delim, delim] :=
    .step (l := .malloc 2) (.init rfl) ⟨show 2 < 2 ^ 32 by decide, 100, rfl⟩
  have h₂ : (rmapSys fresh).Reach [⟨6, 104⟩, delim, delim, delim, delim] :=
    .step (l := .malloc 2) h₁ ⟨show 2 < 2 ^ 32 by decide, 102, rfl⟩
  have h₃ : (rmapSys fresh).Reach [⟨2, 100⟩, ⟨6, 104⟩, delim, delim, delim] := by
    refine .step (l := .free 2 100) h₂ ⟨⟨by decide, by decide, by decide, ?_⟩, 2, rfl⟩
    rintro x ⟨h1, h2⟩
    simp [segs, delim, mem_units_cons]
    omega
  refine ⟨_, (0, [⟨10, 100⟩, delim, delim, delim, delim]), h₃,
    ⟨by decide, by decide, by decide, ?_⟩, by rfl, rfl, rfl, ?_⟩
  · rintro x ⟨h1, h2⟩
    simp [segs, delim, mem_units_cons]
    omega
  · intro h
    exact absurd (h.2 ⟨10, 100⟩ (by simp [segs, delim]) (by decide) (by decide)) (by decide)

end Rmap

end Hpux
