import Hpux910.Cmd.Unpack
import Hpux910.Lib.LevelCode
import Mathlib

/-!
# What unpack makes of any file

* `text` : the text of a packed file, by the format alone.
* `Safe` : a call of `getdict` comes to an end, stays inside the dictionary, and does not report success for a
  text of another length than announced.
* `Ready` : where `decode` can be between two bits.
* `bit_post`, `decodeLoop_post` : one bit; all of them.
* `getdict_safe_iff` : `getdict` is safe exactly for the files that have a level, and whose text is not longer
  than announced by a multiple of `2 ^ 32`.
-/

namespace Hpux

namespace Unpack

open Function List

/-! ### The format -/

/-- The first bits of a byte, the high ones first. -/
def topBits : ℕ → ℕ → List Bool
  | 0, _ => []
  | n + 1, c => c.testBit 7 :: topBits n (c * 2)

/-- The bits of some bytes. -/
def bitsOf (bytes : List UInt8) : List Bool := bytes.flatMap fun c => topBits 8 c.toNat

/-- The number at a byte of a file. -/
def byteAt (file : List UInt8) (k : ℕ) : ℕ := (file.getD k 0).toNat

/-- The length that the header announces. -/
def announced (file : List UInt8) : ℕ :=
  ((byteAt file 2 * 256 + byteAt file 3) * 256 + byteAt file 4) * 256 + byteAt file 5

/-- The header is that of a packed file. -/
structure Packed (file : List UInt8) : Prop where
  length : 7 ≤ file.length
  us : file.getD 0 0 = US
  rs : file.getD 1 0 = RS

/-- The numbers of leaves, as they stand in the file. -/
def levels (file : List UInt8) : List ℕ := ((file.drop 7).take (byteAt file 6)).map UInt8.toNat

/-- The length of the header with the dictionary. -/
def dictsize (file : List UInt8) : ℕ := 7 + byteAt file 6 + (levels file).sum + 1

/-- The dictionary: the last count is two less than the leaves there are. -/
def code (file : List UInt8) : LevelCode UInt8 where
  counts := (levels file).modify ((levels file).length - 1) (· + 2)
  symbols := (file.drop (7 + byteAt file 6)).take ((levels file).sum + 1)

/-- The dictionary is complete, and not too large. -/
structure Complete (file : List UInt8) : Prop extends Packed file where
  maxlev : byteAt file 6 ≤ 24
  sum : (levels file).sum ≤ 255
  dict : dictsize file ≤ file.length

instance (file : List UInt8) : Decidable (Complete file) :=
  decidable_of_iff ((7 ≤ file.length ∧ file.getD 0 0 = US ∧ file.getD 1 0 = RS) ∧ byteAt file 6 ≤ 24 ∧
      (levels file).sum ≤ 255 ∧ dictsize file ≤ file.length)
    ⟨fun ⟨⟨h1, h2, h3⟩, h4, h5, h6⟩ => ⟨⟨h1, h2, h3⟩, h4, h5, h6⟩,
      fun ⟨⟨h1, h2, h3⟩, h4, h5, h6⟩ => ⟨⟨h1, h2, h3⟩, h4, h5, h6⟩⟩

/-- The text of a packed file, if there is one. -/
def text (file : List UInt8) : Option (List UInt8) :=
  if Complete file then (code file).text (bitsOf (file.drop (dictsize file))) else none

/-- The dictionary has no level at all. -/
structure NoLevels (file : List UInt8) : Prop extends Packed file where
  maxlev : byteAt file 6 = 0

/-! ### What is asked of a call -/

/-- A level is one of the dictionary, a character one that the dictionary has defined. -/
def Access.Inside (s : St) : Access → Prop
  | .level l => 1 ≤ l ∧ l ≤ s.maxlev
  | .char p => s.tree 1 ≤ p ∧ p < s.eof

/-- The call has come to an end, all accesses have been inside, and if it succeeds then as many bytes as
announced have been written. -/
structure Safe (file : List UInt8) (r : Ret × St) : Prop where
  ends : r.1 ≠ .running
  inside : ∀ a ∈ r.2.log, a.Inside r.2
  exact : r.1 = .success → r.2.written.length = announced file

/-! ### One bit -/

/-- The dictionary has been loaded. -/
structure Loaded (C : LevelCode UInt8) (s : St) : Prop where
  maxlev : s.maxlev = C.counts.length
  intnodes : ∀ l < C.counts.length, s.intnodes (l + 1) = inner (C.counts.drop (l + 1))
  tree : ∀ l < C.counts.length, s.tree (l + 1) = (C.counts.take l).sum
  eof : s.eof = C.symbols.length
  chars : ∀ (p : ℕ) (h : p < C.symbols.length), s.characters p = C.symbols[p]

/-- Where `decode` can be between two bits: at a node of the code, with what has been written counted. -/
structure Ready (C : LevelCode UInt8) (N : BitVec 32) (behind cur : List ℕ) (v : ℕ) (s : St) : Prop where
  loaded : Loaded C s
  cursor : C.Cursor behind cur v
  lev : s.lev = behind.length + 1
  i : s.i = v
  inside : ∀ a ∈ s.log, a.Inside s
  size : s.origsize + BitVec.ofNat 32 s.written.length = N

/-- What has been decoded, with what is to come. -/
def St.whole (s : St) (t : Option (List UInt8)) : Option (List UInt8) := t.map (s.written ++ s.out ++ ·)

/-- How a call that is to give the text `t` comes to an end. -/
structure Post (io : Io) (N : BitVec 32) (t : Option (List UInt8)) (r : Ret × St) : Prop where
  ends : r.1 ≠ .running
  inside : ∀ a ∈ r.2.log, a.Inside r.2
  exact : r.1 = .success → t = some r.2.written ∧ BitVec.ofNat 32 r.2.written.length = N
  succeeds : (∀ k, io.readOk k) → (∀ k, io.writeOk k) → ∀ u, t = some u → BitVec.ofNat 32 u.length = N →
    r.1 = .success

/-- The input is where it was. -/
def St.SameInput (s s' : St) : Prop :=
  s'.rest = s.rest ∧ s'.inbuff = s.inbuff ∧ s'.inleft = s.inleft ∧ s'.inp = s.inp

variable {C : LevelCode UInt8} {N : BitVec 32} {io : Io} {behind cur : List ℕ} {v : ℕ} {s s' : St}

theorem Ready.level_inside (hC : C.Counted) (h : Ready C N behind cur v s) :
    1 ≤ s.lev ∧ s.lev ≤ s.maxlev := by
  have h1 := h.cursor.cur_ne_nil hC
  have h2 := length_pos_of_ne_nil h1
  rw [h.lev, h.loaded.maxlev, h.cursor.1, length_append]
  omega

theorem inside_append {l : List Access} {a : Access} (h : ∀ a ∈ l, a.Inside s) (ha : a.Inside s) :
    ∀ x ∈ l ++ [a], x.Inside s := by
  intro x hx
  rcases mem_append.1 hx with hx | hx
  · exact h x hx
  · rw [mem_singleton.1 hx]
    exact ha

/-- What a node of the code means to the program. -/
theorem Ready.node (h : Ready C N behind cur v s) {n : ℕ} {deeper : List ℕ} (hcur : cur = n :: deeper) :
    s.intnodes s.lev = inner deeper ∧ s.tree s.lev = behind.sum ∧ s.tree 1 = 0 := by
  have h1 := h.cursor.1
  have h2 : behind.length < C.counts.length := by
    rw [h1, hcur]
    simp
  refine ⟨?_, ?_, ?_⟩
  · rw [h.lev, h.loaded.intnodes _ h2, h1, hcur]
    simp
  · rw [h.lev, h.loaded.tree _ h2, h1]
    simp
  · simpa using h.loaded.tree 0 (by omega)

theorem Loaded.congr (h : Loaded C s) (h1 : s'.maxlev = s.maxlev) (h2 : s'.intnodes = s.intnodes)
    (h3 : s'.tree = s.tree) (h4 : s'.eof = s.eof) (h5 : s'.characters = s.characters) : Loaded C s' :=
  ⟨h1 ▸ h.maxlev, h2 ▸ h.intnodes, h3 ▸ h.tree, h4 ▸ h.eof, h5 ▸ h.chars⟩

theorem endMark_post (hin : ∀ a ∈ s.log, a.Inside s)
    (hsize : s.origsize + BitVec.ofNat 32 s.written.length = N) :
    Post io N (s.whole (some [])) (endMark io s) := by
  unfold endMark St.write
  by_cases hok : io.writeOk s.writes = true
  · rw [if_pos hok]
    have hN : s.origsize - BitVec.ofNat 32 s.out.length + BitVec.ofNat 32 (s.written ++ s.out).length = N := by
      rw [← hsize, length_append, BitVec.ofNat_add]
      bv_omega
    simp only [ne_eq, ite_not]
    by_cases h0 : s.origsize - BitVec.ofNat 32 s.out.length = 0
    · rw [if_pos h0]
      rw [h0] at hN
      exact ⟨nofun, hin, fun _ => ⟨by simp [St.whole], by simpa using hN⟩, fun _ _ _ _ _ => rfl⟩
    · rw [if_neg h0]
      refine ⟨nofun, hin, nofun, fun _ _ u hu hlen => absurd ?_ h0⟩
      obtain rfl : s.written ++ s.out = u := by simpa [St.whole] using hu
      rw [hlen] at hN
      bv_omega
  · rw [if_neg hok]
    exact ⟨nofun, hin, nofun, fun _ h => absurd (h _) hok⟩

theorem putChar_post {q : ℕ} {a : UInt8} (h : Loaded C s) (hq : C.symbols[q]? = some a) (h1 : s.tree 1 = 0)
    (h2 : ∀ x ∈ s.log, x.Inside s) (hsize : s.origsize + BitVec.ofNat 32 s.written.length = N) :
    match putChar io q s with
    | .on s' => s.SameInput s' ∧ Ready C N [] C.counts 0 s' ∧ ∀ t, s'.whole t = s.whole (t.map (a :: ·))
    | .ret r => ∀ t, Post io N t r := by
  obtain ⟨hlt, ha⟩ := List.getElem?_eq_some_iff.1 hq
  have hc : s.characters q = a := by rw [h.chars q hlt, ha]
  have hin : (Access.char q).Inside s := by
    show s.tree 1 ≤ (q : ℤ) ∧ (q : ℤ) < s.eof
    rw [h1, h.eof]
    omega
  have hlog := inside_append h2 hin
  unfold putChar
  simp only [St.touch, hc]
  split_ifs with hb
  · unfold St.write
    by_cases hok : io.writeOk s.writes = true
    · simp only [hok, if_true]
      refine ⟨⟨rfl, rfl, rfl, rfl⟩, ⟨h.congr rfl rfl rfl rfl rfl, .root, rfl, rfl, hlog, ?_⟩, fun t => ?_⟩
      · rw [← hsize, length_append, BitVec.ofNat_add, hb]
        bv_omega
      · simp [St.whole, comp_def]
    · simp only [hok]
      exact fun t => ⟨nofun, hlog, nofun, fun _ h => absurd (h _) hok⟩
  · refine ⟨⟨rfl, rfl, rfl, rfl⟩, ⟨h.congr rfl rfl rfl rfl rfl, .root, rfl, rfl, hlog, hsize⟩, fun t => ?_⟩
    simp [St.whole, comp_def]

/-- One bit goes down a level, or comes to a leaf: the text that is to come stays what it is. -/
theorem bit_post (hC : C.Counted) (hs : C.symbols ≠ []) (b : Bool) (h : Ready C N behind cur v s) :
    match bit io b s with
    | .on s' => s.SameInput s' ∧ ∃ behind' cur' v', Ready C N behind' cur' v' s' ∧
        ∀ bs, s'.whole (C.follow cur' behind'.sum v' bs) = s.whole (C.follow cur behind.sum v (b :: bs))
    | .ret r => ∀ bs, Post io N (s.whole (C.follow cur behind.sum v (b :: bs))) r := by
  obtain ⟨n, deeper, rfl⟩ := exists_cons_of_ne_nil (h.cursor.cur_ne_nil hC)
  obtain ⟨hint, htree, htree1⟩ := h.node rfl
  have hlev : (Access.level s.lev).Inside s := h.level_inside hC
  have hlog1 := inside_append h.inside hlev
  have hlog2 := inside_append hlog1 hlev
  unfold bit
  simp only [St.touch, hint, htree, h.i]
  by_cases hw : 2 * v + b.toNat < inner deeper
  · rw [if_neg (by omega)]
    refine ⟨⟨rfl, rfl, rfl, rfl⟩, behind ++ [n], deeper, 2 * v + b.toNat, ⟨h.loaded.congr rfl rfl rfl rfl rfl,
      h.cursor.down hw, by simp [h.lev], by simp, hlog1, h.size⟩, fun bs => ?_⟩
    simp [St.whole, LevelCode.follow, hw]
  · obtain ⟨q, hq⟩ : ∃ q, q = behind.sum + (2 * v + b.toNat - inner deeper) := ⟨_, rfl⟩
    have hp : (behind.sum : ℤ) + (2 * (v : ℤ) + (b.toNat : ℤ) - (inner deeper : ℤ)) = q := by omega
    have hle := h.cursor.leaf_le hC hs hw
    have heof := h.loaded.eof
    rw [if_pos (by omega), hp]
    by_cases hend : q = C.symbols.length
    · rw [if_pos (by omega)]
      intro bs
      have hf : C.follow (n :: deeper) behind.sum v (b :: bs) = some [] := by
        simp [LevelCode.follow, hw, ← hq, hend]
      rw [hf]
      exact endMark_post (s := { s with
        i := 2 * v + b.toNat, log := s.log ++ [.level s.lev] ++ [.level s.lev] }) hlog2 h.size
    · rw [if_neg (by omega)]
      obtain ⟨a, ha⟩ : ∃ a, C.symbols[q]? = some a := ⟨_, getElem?_eq_getElem (by omega)⟩
      have hf : ∀ bs, C.follow (n :: deeper) behind.sum v (b :: bs)
          = (C.follow C.counts 0 0 bs).map (a :: ·) := fun bs => by
        simp [LevelCode.follow, hw, ← hq, ha]
      have h1 := @putChar_post _ _ io { s with
        i := 2 * v + b.toNat, log := s.log ++ [.level s.lev] ++ [.level s.lev] } _ _
        (h.loaded.congr rfl rfl rfl rfl rfl) ha htree1 hlog2 h.size
      simp only [hf]
      split at h1
      · obtain ⟨hsame, hready, hwhole⟩ := h1
        exact ⟨hsame, [], C.counts, 0, hready, fun bs => hwhole _⟩
      · exact fun bs => h1 _

/-! ### All bits -/

/-- The bits of a byte. -/
theorem bits_post (hC : C.Counted) (hs : C.symbols ≠ []) :
    ∀ (n c : ℕ) {behind cur : List ℕ} {v : ℕ} {s : St}, Ready C N behind cur v s →
    match bits io n c s with
    | .on s' => s.SameInput s' ∧ ∃ behind' cur' v', Ready C N behind' cur' v' s' ∧
        ∀ bs, s'.whole (C.follow cur' behind'.sum v' bs)
          = s.whole (C.follow cur behind.sum v (topBits n c ++ bs))
    | .ret r => ∀ bs, Post io N (s.whole (C.follow cur behind.sum v (topBits n c ++ bs))) r
  | 0, c, behind, cur, v, s, h => ⟨⟨rfl, rfl, rfl, rfl⟩, behind, cur, v, h, fun _ => rfl⟩
  | n + 1, c, behind, cur, v, s, h => by
    have h1 := @bit_post _ _ io _ _ _ _ hC hs (c.testBit 7) h
    unfold bits topBits
    rcases hb : bit io (c.testBit 7) s with s1 | r
    · rw [hb] at h1
      obtain ⟨⟨i1, i2, i3, i4⟩, behind1, cur1, v1, hr1, ht1⟩ := h1
      have h2 := bits_post hC hs n (c * 2) hr1
      show match bits io n (c * 2) s1 with | .on s' => _ | .ret r => _
      rcases hb2 : bits io n (c * 2) s1 with s2 | r
      · rw [hb2] at h2
        obtain ⟨⟨j1, j2, j3, j4⟩, behind2, cur2, v2, hr2, ht2⟩ := h2
        refine ⟨⟨j1.trans i1, j2.trans i2, j3.trans i3, j4.trans i4⟩, behind2, cur2, v2, hr2,
          fun bs => ?_⟩
        rw [ht2, ht1, cons_append]
      · rw [hb2] at h2
        intro bs
        rw [cons_append, ← ht1]
        exact h2 bs
    · rw [hb] at h1
      exact fun bs => h1 _

/-- The input that has not been decoded. -/
def St.pending (s : St) : List UInt8 := (List.range s.inleft.toNat).map (fun k => s.inbuff (s.inp + k)) ++ s.rest

theorem pending_cons (h : 0 < s.inleft) :
    s.pending = s.inbuff s.inp :: St.pending { s with inleft := s.inleft - 1, inp := s.inp + 1 } := by
  obtain ⟨n, hn⟩ : ∃ n : ℕ, s.inleft = n + 1 := ⟨(s.inleft - 1).toNat, by omega⟩
  have h1 : s.inleft.toNat = n + 1 := by omega
  have h2 : (s.inleft - 1).toNat = n := by omega
  unfold St.pending
  simp only [h1, h2, range_succ_eq_map, map_cons, map_map, cons_append, Nat.add_zero]
  congr 3
  funext k
  simp [Nat.add_assoc, Nat.add_comm 1 k]

theorem pending_read (h : s.inleft ≤ 0) (h' : s.read io = some s') :
    St.pending { s' with inp := 0 } = s.pending := by
  unfold St.read at h'
  split_ifs at h'
  obtain rfl := Option.some.inj h'
  have h1 : s.inleft.toNat = 0 := by omega
  unfold St.pending
  simp only [h1, range_zero, map_nil, nil_append, Nat.zero_add, Int.toNat_natCast]
  have h2 : (List.range (s.rest.take BUFSIZ).length).map
      (fun k => (s.rest.take BUFSIZ)[k]?.getD (s.inbuff k)) = s.rest.take BUFSIZ := by
    refine ext_getElem (by simp) fun k hk hk' => ?_
    simp [getElem?_eq_getElem hk']
  rw [h2, take_append_drop]

theorem Ready.input (h : Ready C N behind cur v s) (rest : List UInt8) (reads : ℕ) (inbuff : ℕ → UInt8)
    (inleft : ℤ) (inp : ℕ) : Ready C N behind cur v
      { s with rest := rest, reads := reads, inbuff := inbuff, inleft := inleft, inp := inp } :=
  ⟨h.loaded.congr rfl rfl rfl rfl rfl, h.cursor, h.lev, h.i, h.inside, h.size⟩

theorem Ready.read (h : Ready C N behind cur v s) (h' : s.read io = some s') :
    Ready C N behind cur v { s' with inp := 0 } ∧ ∀ t, St.whole { s' with inp := 0 } t = s.whole t := by
  unfold St.read at h'
  split_ifs at h'
  obtain rfl := Option.some.inj h'
  exact ⟨h.input .., fun _ => rfl⟩

/-- All bits that are left. -/
theorem decodeLoop_post (hC : C.Counted) (hs : C.symbols ≠ []) :
    ∀ (fuel : ℕ) {behind cur : List ℕ} {v : ℕ} {s : St}, Ready C N behind cur v s → s.pending.length < fuel →
    Post io N (s.whole (C.follow cur behind.sum v (bitsOf s.pending))) (decodeLoop io fuel s)
  | 0, _, _, _, _, _, hf => absurd hf (Nat.not_lt_zero _)
  | fuel + 1, behind, cur, v, s, h, hf => by
    -- the buffer is filled when it is empty
    have hfill : (∃ k, io.readOk k = false) ∧ s.read io = none ∧ s.inleft ≤ 0 ∨
        ∃ s1, (if s.inleft ≤ 0 then (s.read io).map fun s => { s with inp := 0 } else some s) = some s1 ∧
          Ready C N behind cur v s1 ∧ s1.pending = s.pending ∧ (∀ t, s1.whole t = s.whole t) ∧
          (s1.inleft ≤ 0 → s1.pending = []) := by
      by_cases hle : s.inleft ≤ 0
      · rw [if_pos hle]
        cases hr : s.read io with
        | none =>
          refine .inl ⟨⟨s.reads, ?_⟩, rfl, hle⟩
          unfold St.read at hr
          split_ifs at hr with hok
          simpa using hok
        | some s' =>
          refine .inr ⟨_, rfl, (h.read hr).1, pending_read hle hr, (h.read hr).2, fun h1 => ?_⟩
          rw [pending_read hle hr]
          unfold St.read at hr
          split_ifs at hr
          obtain rfl := Option.some.inj hr
          have h2 : s.rest = [] := by
            by_contra hne
            have h3 := length_pos_of_ne_nil hne
            simp only [length_take, BUFSIZ] at h1
            omega
          have h3 : s.inleft.toNat = 0 := by omega
          simp [St.pending, h2, h3]
      · rw [if_neg hle]
        exact .inr ⟨s, rfl, h, rfl, fun _ => rfl, fun h1 => absurd h1 hle⟩
    unfold decodeLoop
    rcases hfill with ⟨⟨k, hk⟩, hnone, hle⟩ | ⟨s1, heq, h1, hp, ht, hend⟩
    · rw [if_pos hle, hnone]
      exact ⟨nofun, h.inside, nofun, fun hok => absurd (hok k) (by simp [hk])⟩
    rw [heq, ← hp, ← ht]
    dsimp only
    by_cases hempty : s1.inleft ≤ 0
    · rw [if_pos (by omega), hend hempty]
      refine ⟨nofun, h1.inside, nofun, fun _ _ u hu => ?_⟩
      have h2 : C.follow cur behind.sum v [] = none := by
        cases cur <;> rfl
      simp [bitsOf, St.whole, h2] at hu
    · rw [if_neg (by omega), pending_cons (by omega)]
      have hlen : s1.pending.length ≤ fuel := by
        rw [hp]
        omega
      rw [pending_cons (by omega), length_cons] at hlen
      have h2 := @bits_post _ _ io hC hs 8 (s1.inbuff s1.inp).toNat _ _ _ _
        (h1.input s1.rest s1.reads s1.inbuff (s1.inleft - 1) (s1.inp + 1))
      rw [show bitsOf (s1.inbuff s1.inp :: St.pending { s1 with inleft := s1.inleft - 1, inp := s1.inp + 1 })
        = topBits 8 (s1.inbuff s1.inp).toNat ++
          bitsOf (St.pending { s1 with inleft := s1.inleft - 1, inp := s1.inp + 1 }) from flatMap_cons ..]
      rcases hb : bits io 8 (s1.inbuff s1.inp).toNat
          { s1 with inleft := s1.inleft - 1, inp := s1.inp + 1 } with s2 | r
      · rw [hb] at h2
        obtain ⟨⟨i1, i2, i3, i4⟩, behind2, cur2, v2, hr2, ht2⟩ := h2
        have hp2 : St.pending { s1 with inleft := s1.inleft - 1, inp := s1.inp + 1 } = s2.pending := by
          unfold St.pending
          rw [i1, i2, i3, i4]
        rw [hp2] at hlen ⊢
        have h3 := decodeLoop_post hC hs fuel hr2 (by omega : s2.pending.length < fuel)
        rw [ht2] at h3
        exact h3
      · rw [hb] at h2
        exact h2 _

/-! ### The dictionary -/

/-- Only levels from `i` on are accessed, `n` of them. -/
def LevelsIn (i n : ℕ) (lg : List Access) : Prop := ∀ a ∈ lg, ∃ l, a = .level l ∧ i ≤ l ∧ l < i + n

theorem LevelsIn.cons {i n : ℕ} {lg : List Access} (h : LevelsIn (i + 1) n lg) :
    LevelsIn i (n + 1) (.level i :: lg) := by
  intro a ha
  rcases mem_cons.1 ha with rfl | ha
  · exact ⟨i, rfl, le_rfl, by omega⟩
  · obtain ⟨l, rfl, h1, h2⟩ := h a ha
    exact ⟨l, rfl, by omega, by omega⟩

theorem LevelsIn.twice {i n : ℕ} {lg : List Access} (h : LevelsIn (i + 1) n lg) :
    LevelsIn i (n + 1) ([Access.level i, .level i] ++ lg) := by
  intro a ha
  rcases mem_cons.1 ha with rfl | ha
  · exact ⟨i, rfl, le_rfl, by omega⟩
  · exact h.cons a ha

theorem readCounts_spec : ∀ (n i : ℕ) (s : St), ∃ f lg,
    readCounts n i s = { s with intnodes := f, inp := s.inp + n, log := s.log ++ lg } ∧
      (∀ k < n, f (i + k) = (s.inbuff (s.inp + k)).toNat) ∧ (∀ l < i, f l = s.intnodes l) ∧ LevelsIn i n lg
  | 0, i, s => ⟨s.intnodes, [], by simp [readCounts], nofun, fun _ _ => rfl, nofun⟩
  | n + 1, i, s => by
    obtain ⟨f, lg, h1, h2, h3, h4⟩ := readCounts_spec n (i + 1) ({ s with
      intnodes := update s.intnodes i (s.inbuff s.inp).toNat, inp := s.inp + 1 }.touch (.level i))
    refine ⟨f, .level i :: lg, ?_, fun k hk => ?_, fun l hl => ?_, h4.cons⟩
    · rw [readCounts, h1]
      simp [St.touch, Nat.add_assoc, Nat.add_comm 1]
    · cases k with
      | zero => simpa [St.touch] using h3 i (Nat.lt_succ_self i)
      | succ k =>
        have h5 := h2 k (by omega)
        simpa [St.touch, Nat.add_assoc, Nat.add_comm 1] using h5
    · rw [h3 l (by omega)]
      exact update_of_ne (by omega) ..

theorem readChars_spec : ∀ (c : ℕ) (s : St),
    (∃ g, readChars c s = .on { s with characters := g, eof := s.eof + c, inp := s.inp + c } ∧
      (∀ k < c, g (s.eof + k) = s.inbuff (s.inp + k)) ∧ (∀ p < s.eof, g p = s.characters p) ∧
      (c = 0 ∨ s.eof + c ≤ 255)) ∨
    ∃ s', readChars c s = .ret (.notPacked, s') ∧ s'.log = s.log ∧ s'.maxlev = s.maxlev ∧ 255 < s.eof + c
  | 0, s => .inl ⟨s.characters, by simp [readChars], nofun, fun _ _ => rfl, .inl rfl⟩
  | c + 1, s => by
    unfold readChars
    by_cases hfull : 255 ≤ s.eof
    · rw [if_pos hfull]
      exact .inr ⟨s, rfl, rfl, rfl, by omega⟩
    · rw [if_neg hfull]
      rcases readChars_spec c s.takeChar with ⟨g, h1, h2, h3, h4⟩ | ⟨s', h1, h2, h3, h4⟩
      · refine .inl ⟨g, ?_, fun k hk => ?_, fun p hp => ?_, .inr ?_⟩
        · rw [h1]
          simp [St.takeChar, Nat.add_assoc, Nat.add_comm 1, Int.add_assoc, Int.add_comm 1]
        · cases k with
          | zero => simpa [St.takeChar] using h3 s.eof (by simp [St.takeChar])
          | succ k =>
            have h5 := h2 k (by omega)
            simpa [St.takeChar, Nat.add_assoc, Nat.add_comm 1, Int.add_assoc, Int.add_comm 1] using h5
        · rw [h3 p (by simp only [St.takeChar]; omega)]
          exact update_of_ne (by omega) ..
        · rcases h4 with rfl | h4
          · omega
          · simp only [St.takeChar] at h4
            omega
      · refine .inr ⟨s', h1, h2, h3, ?_⟩
        simp only [St.takeChar] at h4
        omega

theorem readLevels_spec : ∀ (ns : List ℕ) (i : ℕ) (s : St),
    (∀ (k : ℕ) (h : k < ns.length), s.intnodes (i + k) = ns[k]) →
    (∃ tr g lg, readLevels ns.length i s = .on { s with
        tree := tr, characters := g, eof := s.eof + ns.sum, inp := s.inp + ns.sum, log := s.log ++ lg } ∧
      (∀ k < ns.length, tr (i + k) = s.eof + (ns.take k).sum) ∧ (∀ l < i, tr l = s.tree l) ∧
      (∀ k < ns.sum, g (s.eof + k) = s.inbuff (s.inp + k)) ∧ (∀ p < s.eof, g p = s.characters p) ∧
      LevelsIn i ns.length lg ∧ (ns.sum = 0 ∨ s.eof + ns.sum ≤ 255)) ∨
    ∃ s' lg, readLevels ns.length i s = .ret (.notPacked, s') ∧ s'.log = s.log ++ lg ∧
      LevelsIn i ns.length lg ∧ s'.maxlev = s.maxlev ∧ 255 < s.eof + ns.sum
  | [], i, s, _ => .inl ⟨s.tree, s.characters, [], by simp [readLevels], nofun, fun _ _ => rfl, nofun,
      fun _ _ => rfl, nofun, .inl rfl⟩
  | n :: ns, i, s, hns => by
    have hn : s.intnodes i = n := hns 0 (by simp)
    obtain ⟨s1, hs1⟩ : ∃ s1, s1 = ({ s with tree := update s.tree i s.eof }.touch (.level i)).touch (.level i) :=
      ⟨_, rfl⟩
    have hread : readLevels (n :: ns).length i s = match readChars n s1 with
        | .on s => readLevels ns.length (i + 1) s
        | .ret r => .ret r := by
      rw [length_cons, readLevels, hs1]
      simp only [St.touch, hn, Int.toNat_natCast] <;> rfl
    rw [hread]
    rcases readChars_spec n s1 with ⟨g, h1, h2, h3, h4⟩ | ⟨s', h1, h2, h3, h4⟩
    · rw [h1]
      have hlog : s1.log = s.log ++ [Access.level i, .level i] := by rw [hs1]; simp [St.touch]
      have hint : s1.intnodes = s.intnodes := by rw [hs1]; rfl
      have htree : s1.tree = update s.tree i s.eof := by rw [hs1]; rfl
      have heof : s1.eof = s.eof := by rw [hs1]; rfl
      have hin : s1.inp = s.inp ∧ s1.inbuff = s.inbuff ∧ s1.characters = s.characters ∧ s1.maxlev = s.maxlev := by
        rw [hs1]
        exact ⟨rfl, rfl, rfl, rfl⟩
      rcases readLevels_spec ns (i + 1) { s1 with characters := g, eof := s1.eof + n, inp := s1.inp + n }
        (fun k hk => by
          have h5 := hns (k + 1) (by simpa using hk)
          rw [getElem_cons_succ] at h5
          simpa only [hint, Nat.add_assoc, Nat.add_comm 1] using h5) with
        ⟨tr, g', lg, k1, k2, k3, k4, k5, k6, k7⟩ | ⟨s', lg, k1, k2, k3, k4, k5⟩
      · refine .inl ⟨tr, g', [Access.level i, .level i] ++ lg, ?_, fun k hk => ?_, fun l hl => ?_, fun k hk => ?_,
          fun p hp => ?_, ?_, ?_⟩
        · show readLevels ns.length (i + 1) { s1 with characters := g, eof := s1.eof + n, inp := s1.inp + n } = _
          rw [k1, hs1]
          simp [St.touch, Nat.add_assoc, Int.add_assoc]
        · cases k with
          | zero => simpa [htree] using k3 i (Nat.lt_succ_self i)
          | succ k =>
            have h5 := k2 k (by simpa using hk)
            simpa [heof, Nat.add_assoc, Nat.add_comm 1, Int.add_assoc] using h5
        · rw [k3 l (by omega)]
          show s1.tree l = _
          rw [htree]
          exact update_of_ne (by omega) ..
        · rw [sum_cons] at hk
          by_cases hkn : k < n
          · have h5 := k5 (s.eof + k) (by simp only [heof]; omega)
            have h6 := h2 k hkn
            simp only [heof, hin.1, hin.2.1] at h6
            rw [h5]
            exact h6
          · have h5 := k4 (k - n) (by omega)
            simp only [heof, hin.1, hin.2.1] at h5
            rw [show s.eof + (n : ℤ) + ((k - n : ℕ) : ℤ) = s.eof + (k : ℤ) by omega,
              show s.inp + n + (k - n) = s.inp + k by omega] at h5
            exact h5
        · have h5 := k5 p (by simp only [heof]; omega)
          have h6 := h3 p (by omega)
          rw [h5]
          exact h6.trans (by rw [hin.2.2.1])
        · exact k6.twice
        · simp only [heof] at k7 h4
          rw [sum_cons]
          omega
      · refine .inr ⟨s', [Access.level i, .level i] ++ lg, k1, ?_, k3.twice, by rw [k4]; exact hin.2.2.2, ?_⟩
        · rw [k2, hlog, append_assoc]
        · simp only [heof] at k5
          rw [sum_cons]
          omega
    · rw [h1]
      refine .inr ⟨s', [.level i, .level i], rfl, ?_, ?_, ?_, ?_⟩
      · rw [h2, hs1]
        simp [St.touch]
      · exact @LevelsIn.twice _ _ [] nofun
      · rw [h3, hs1]
        rfl
      · rw [hs1] at h4
        simp only [St.touch] at h4
        rw [sum_cons]
        omega

theorem halve_spec (ns : List ℕ) : ∀ (i : ℕ) (s : St), i ≤ ns.length →
    (∀ (l : ℕ) (_ : l < i) (h : l < ns.length), s.intnodes (l + 1) = ns[l]) →
    ∃ f lg, halve i (nodes (ns.drop i)) s = { s with intnodes := f, log := s.log ++ lg } ∧
      (∀ l < i, f (l + 1) = inner (ns.drop (l + 1))) ∧ (∀ l, i < l → f l = s.intnodes l) ∧ LevelsIn 1 i lg
  | 0, s, _, _ => ⟨s.intnodes, [], by simp [halve], nofun, fun _ _ => rfl, nofun⟩
  | i + 1, s, hi, hns => by
    have hn := hns i (Nat.lt_succ_self i) (by omega)
    obtain ⟨f, lg, h1, h2, h3, h4⟩ := halve_spec ns i
      ({ s with intnodes := update s.intnodes (i + 1) (inner (ns.drop (i + 1))) }.touch (.level (i + 1))) (by omega)
      (fun l hl h => by
        rw [← hns l (by omega) h]
        exact update_of_ne (by omega) ..)
    refine ⟨f, .level (i + 1) :: lg, ?_, fun l hl => ?_, fun l hl => ?_, fun a ha => ?_⟩
    · have h5 : (nodes (ns.drop (i + 1)) : ℤ) / 2 = inner (ns.drop (i + 1)) := by
        rw [inner_eq]
        omega
      have h6 : nodes (ns.drop i) = ns[i] + inner (ns.drop (i + 1)) := by
        rw [drop_eq_getElem_cons (by omega)]
        rfl
      rw [halve, hn, h5]
      rw [h6] at h1
      have h7 : ((inner (ns.drop (i + 1)) : ℤ) + (ns[i] : ℤ)) = ((ns[i] + inner (ns.drop (i + 1)) : ℕ) : ℤ) := by
        omega
      rw [h7, h1]
      simp [St.touch]
    · rcases Nat.lt_succ_iff_lt_or_eq.1 hl with hl | rfl
      · exact h2 l hl
      · rw [h3 (l + 1) (by omega)]
        exact update_self ..
    · rw [h3 l (by omega)]
      exact update_of_ne (by omega) ..
    · rcases mem_cons.1 ha with rfl | ha
      · exact ⟨i + 1, rfl, by omega, by omega⟩
      · obtain ⟨l, rfl, h5, h6⟩ := h4 a ha
        exact ⟨l, rfl, h5, by omega⟩

/-! ### The whole of a file -/

theorem sum_modify : ∀ (ns : List ℕ) (i : ℕ), i < ns.length → (ns.modify i (· + 2)).sum = ns.sum + 2
  | n :: ns, 0, _ => by
    simp only [modify_zero_cons, sum_cons]
    omega
  | n :: ns, i + 1, h => by
    rw [modify_succ_cons, sum_cons, sum_cons, sum_modify ns i (by simpa using h)]
    omega

theorem take_modify (ns : List ℕ) {i l : ℕ} (h : l ≤ i) : (ns.modify i (· + 2)).take l = ns.take l := by
  refine ext_getElem? fun k => ?_
  rw [getElem?_take, getElem?_take]
  split_ifs with hk
  · exact getElem?_modify_ne _ _ (by omega)
  · rfl

/-- How the variables stand when the first block of a file has been read. -/
structure Opened (file : List UInt8) (s : St) : Prop where
  inbuff : ∀ k < file.length, k < BUFSIZ → s.inbuff k = file.getD k 0
  short : file.length ≤ 6 → s.inbuff 6 = 25
  inleft : s.inleft = min file.length BUFSIZ
  rest : s.rest = file.drop BUFSIZ
  eof : s.eof = 0
  log : s.log = []
  written : s.written = []

variable {file : List UInt8}

/-- What is still to be decoded, after the header. -/
theorem pending_drop (h1 : ∀ k < file.length, k < BUFSIZ → s.inbuff k = file.getD k 0)
    (h2 : s.inleft + s.inp = min file.length BUFSIZ) (h3 : s.rest = file.drop BUFSIZ) (h4 : 0 ≤ s.inleft) :
    s.pending = file.drop s.inp := by
  have h5 : (List.range s.inleft.toNat).map (fun k => s.inbuff (s.inp + k)) = (file.take BUFSIZ).drop s.inp := by
    refine ext_getElem (by simp; omega) fun k hk _ => ?_
    have hk' : k < s.inleft.toNat := by simpa using hk
    have h6 : s.inp + k < file.length ∧ s.inp + k < BUFSIZ := by omega
    simp only [getElem_map, getElem_range, getElem_drop, getElem_take]
    rw [h1 _ h6.1 h6.2, getD_eq_getElem _ _ h6.1]
  have h6 : s.inp ≤ (file.take BUFSIZ).length := by
    simp
    omega
  rw [St.pending, h5, h3, ← drop_append_of_le_length h6, take_append_drop]

theorem Post.fail {t : Option (List UInt8)} {r : Ret} (h1 : r ≠ .running) (h2 : r ≠ .success) (ht : t = none)
    (hin : ∀ a ∈ s.log, a.Inside s) : Post io N t (r, s) :=
  ⟨h1, hin, fun h => absurd h h2, fun _ _ _ hu => absurd (ht ▸ hu) nofun⟩

theorem text_eq_none (h : ¬ Complete file) : text file = none := if_neg h

theorem levels_eq {m : ℕ} (h1 : ∀ k < file.length, k < BUFSIZ → s.inbuff k = file.getD k 0)
    (hm : byteAt file 6 = m) (hm24 : m ≤ 24) (hlen : 7 + m ≤ file.length) :
    (List.range m).map (fun k => (s.inbuff (7 + k)).toNat) = levels file := by
  unfold levels
  rw [hm]
  refine ext_getElem (by simp; omega) fun k hk _ => ?_
  have hk' : k < m := by simpa using hk
  have h3 : 7 + k < BUFSIZ := by unfold BUFSIZ; omega
  simp only [getElem_map, getElem_range, getElem_take, getElem_drop]
  rw [h1 _ (by omega) h3, getD_eq_getElem _ _ (by omega)]

/-- The dictionary that the levels are followed by. -/
theorem endTree_post {m : ℕ} {ns : List ℕ} (hp : Packed file) (hm : byteAt file 6 = m)
    (hm0 : byteAt file 6 ≠ 0) (hm24 : m ≤ 24) (hnsl : ns.length = m)
    (hlev : 7 + m ≤ file.length → ns = levels file) (hsum : ns.sum ≤ 255)
    (hbuf : ∀ k < file.length, k < BUFSIZ → s.inbuff k = file.getD k 0)
    (hleft : s.inleft = min file.length BUFSIZ) (hrest : s.rest = file.drop BUFSIZ) (hwritten : s.written = [])
    (hsize : s.origsize = N) (hmax : s.maxlev = m) (hinp : s.inp = 7 + m + ns.sum) (heof : s.eof = ns.sum)
    (hint : ∀ (k : ℕ) (h : k < ns.length), s.intnodes (k + 1) = ns[k])
    (htree : ∀ k < ns.length, s.tree (k + 1) = (ns.take k).sum)
    (hchars : ∀ k < ns.sum, s.characters k = s.inbuff (7 + m + k))
    (hlog : ∀ a ∈ s.log, ∃ l, a = Access.level l ∧ 1 ≤ l ∧ l ≤ m) : Post io N (text file) (endTree io s) := by
  have hpos : 0 < m := hm ▸ Nat.pos_of_ne_zero hm0
  have hlast : ∀ l, l < m → l ≤ m - 1 := fun l => Nat.le_sub_one_of_lt
  obtain ⟨s1, hs1⟩ : ∃ s1, s1 = ({ s.takeChar with
      intnodes := update s.intnodes m (s.intnodes m + 2), inleft := s.inleft - (s.inp + 1 : ℕ) }.touch (.level m)) :=
    ⟨_, rfl⟩
  have hend : endTree io s = if s1.inleft < 0 then (.notPacked, s1) else decode io (halve m 0 s1) := by
    rw [hs1]
    unfold endTree
    simp only [St.takeChar, St.touch, hmax]
  have hlog1 : ∀ a ∈ s1.log, ∃ l, a = Access.level l ∧ 1 ≤ l ∧ l ≤ m := by
    intro a ha
    rw [hs1] at ha
    rcases mem_append.1 ha with ha | ha
    · exact hlog a ha
    · exact ⟨m, mem_singleton.1 ha, hpos, le_rfl⟩
  have hleft1 : s1.inleft = min file.length BUFSIZ - (7 + m + ns.sum + 1 : ℕ) := by
    rw [hs1, ← hinp, ← hleft]
    rfl
  clear hleft
  have hmax1 : s1.maxlev = m := by
    rw [hs1]
    exact hmax
  rw [hend]
  by_cases hshort : s1.inleft < 0
  · rw [if_pos hshort]
    refine Post.fail nofun nofun (text_eq_none fun hc => ?_) fun a ha => ?_
    · have h4 := hc.dict
      rw [dictsize, hm] at h4
      rw [← hlev (by omega)] at h4
      unfold BUFSIZ at hleft1
      omega
    · obtain ⟨l, rfl, h5, h6⟩ := hlog1 a ha
      exact ⟨h5, hmax1 ▸ h6⟩
  · rw [if_neg hshort]
    have hlen : 7 + m + ns.sum + 1 ≤ file.length := by
      unfold BUFSIZ at hleft1
      omega
    have hns : ns = levels file := hlev (by omega)
    have hd : dictsize file = 7 + m + ns.sum + 1 := by rw [dictsize, hm, hns]
    have hbuf1 : s1.inbuff = s.inbuff := by rw [hs1]; rfl
    have hinp1 : s1.inp = 7 + m + ns.sum + 1 := by rw [hs1, ← hinp]; rfl
    have hpend : s1.pending = file.drop (dictsize file) := by
      rw [hd, ← hinp1]
      refine pending_drop (hbuf1 ▸ hbuf) ?_ ?_ (by omega)
      · rw [hleft1, hinp1]
        omega
      · rw [hs1]
        exact hrest
    clear hleft1 hshort
    have hc : Complete file := ⟨hp, by omega, by rw [← hns]; exact hsum, by omega⟩
    obtain ⟨C, hC⟩ : ∃ C, C = code file := ⟨_, rfl⟩
    have hcounts : C.counts = ns.modify (m - 1) (· + 2) := by rw [hC, code, ← hns, hnsl]
    have hcl : C.counts.length = m := by rw [hcounts, length_modify, hnsl]
    have hsyms : C.symbols = (file.drop (7 + m)).take (ns.sum + 1) := by rw [hC, code, ← hns, hm]
    have hsl : C.symbols.length = ns.sum + 1 := by
      rw [hsyms, length_take, length_drop]
      omega
    have hcounted : C.Counted := by
      refine ⟨ne_nil_of_length_pos (hcl ▸ hpos), ?_⟩
      rw [hsl, hcounts, sum_modify _ _ ((Nat.sub_lt hpos Nat.one_pos).trans_eq hnsl.symm)]
    have hnodes : ∀ (l : ℕ) (_ : l < m) (h : l < C.counts.length), s1.intnodes (l + 1) = C.counts[l] := by
      intro l hl h
      have h4 := hint l (hnsl ▸ hl)
      simp only [hcounts, getElem_modify]
      rw [hs1]
      show update s.intnodes m (s.intnodes m + 2) (l + 1) = _
      by_cases hlm : m - 1 = l
      · obtain rfl : m = l + 1 := (Nat.sub_eq_iff_eq_add hpos).1 hlm
        rw [if_pos hlm, update_self, h4]
        omega
      · rw [if_neg hlm, update_of_ne fun hc => hlm (by rw [← hc]; rfl), h4]
    obtain ⟨f, lg, h1, h2, -, h3⟩ := halve_spec C.counts m s1 hcl.ge hnodes
    rw [← hcl, drop_length] at h1
    have h1' : halve m 0 s1 = { s1 with intnodes := f, log := s1.log ++ lg } := by
      rw [← hcl]
      exact h1
    have hready : Ready C N [] C.counts 0 { s1 with
        intnodes := f, log := s1.log ++ lg, out := [], lev := 1, i := 0 } := by
      refine ⟨⟨?_, ?_, ?_, ?_, ?_⟩, .root, rfl, rfl, ?_, ?_⟩
      · exact hmax1.trans hcl.symm
      · exact fun l hl => h2 l (hcl ▸ hl)
      · intro l hl
        rw [hcounts, take_modify ns (hlast l (hcl ▸ hl)), ← htree l (hnsl ▸ hcl ▸ hl), hs1]
        rfl
      · show s1.eof = _
        rw [hsl, hs1]
        show s.eof + 1 = _
        omega
      · intro p hp
        show s1.characters p = _
        rw [hs1]
        show update s.characters s.eof (s.inbuff s.inp) p = _
        have h4 : C.symbols[p] = file.getD (7 + m + p) 0 := by
          simp only [hsyms, getElem_take, getElem_drop]
          rw [getD_eq_getElem _ _ (by omega)]
        rw [h4, ← hbuf _ (by omega) (by unfold BUFSIZ; omega)]
        by_cases hpe : p = ns.sum
        · rw [heof, hpe, update_self, hinp]
        · rw [update_of_ne (by omega), hchars p (by omega)]
      · intro a ha
        obtain ⟨l, rfl, h5, h6⟩ : ∃ l, a = Access.level l ∧ 1 ≤ l ∧ l ≤ m := by
          rcases mem_append.1 ha with ha | ha
          · exact hlog1 a ha
          · obtain ⟨l, rfl, h5, h6⟩ := h3 a ha
            exact ⟨l, rfl, h5, by omega⟩
        exact ⟨h5, hmax1 ▸ h6⟩
      · show s1.origsize + BitVec.ofNat 32 s1.written.length = N
        rw [hs1]
        show s.origsize + BitVec.ofNat 32 s.written.length = N
        rw [hwritten, hsize]
        exact BitVec.add_zero N
    have h4 := @decodeLoop_post _ _ io hcounted (fun h => by simp [h] at hsl)
      (s1.inleft.toNat + s1.rest.length + 1) _ _ _ _ hready (by
        show s1.pending.length < _
        unfold St.pending
        simp)
    have h5 : text file = C.follow C.counts 0 0 (bitsOf s1.pending) := by
      rw [text, if_pos hc, hpend, ← hC]
      rfl
    have h6 : ∀ t, St.whole { s1 with intnodes := f, log := s1.log ++ lg, out := [], lev := 1, i := 0 } t = t := by
      intro t
      have h7 : s1.written = [] := by rw [hs1]; exact hwritten
      simp [St.whole, h7]
    rw [h6] at h4
    rw [h1', h5]
    exact h4

theorem getTree_post (h : Opened file s) (hinp : s.inp = 6) (hp : Packed file)
    (hsize : s.origsize = N) (hm0 : byteAt file 6 ≠ 0) : Post io N (text file) (getTree io s) := by
  have hlen := hp.length
  obtain ⟨m, hm⟩ : ∃ m, byteAt file 6 = m := ⟨_, rfl⟩
  have hm' : (s.inbuff s.inp).toNat = m := by
    rw [hinp, h.inbuff 6 (by omega) (by unfold BUFSIZ; omega)]
    exact hm
  unfold getTree
  simp only [hm']
  by_cases hm24 : 24 < m
  · rw [if_pos hm24]
    refine Post.fail nofun nofun (text_eq_none fun hc => ?_) (by rw [h.log]; nofun)
    have := hc.maxlev
    omega
  rw [if_neg hm24]
  obtain ⟨f, lg, h1, h2, -, h3⟩ := readCounts_spec m 1 { s with maxlev := m, inp := s.inp + 1 }
  obtain ⟨ns, hns⟩ : ∃ ns, ns = (List.range m).map (fun k => (s.inbuff (7 + k)).toNat) := ⟨_, rfl⟩
  have hnsl : ns.length = m := by rw [hns]; simp
  have hlev : 7 + m ≤ file.length → ns = levels file := fun h4 => hns.trans (levels_eq h.inbuff hm (by omega) h4)
  have hin1 : ∀ {n : ℕ} {lg : List Access}, LevelsIn 1 n lg → n ≤ m →
      ∀ a ∈ lg, ∃ l, a = .level l ∧ 1 ≤ l ∧ l ≤ m := fun h4 h5 a ha => by
    obtain ⟨l, rfl, h6, h7⟩ := h4 a ha
    exact ⟨l, rfl, h6, by omega⟩
  rw [h1]
  rcases readLevels_spec ns 1 { s with
      maxlev := m, intnodes := f, inp := s.inp + 1 + m, log := s.log ++ lg } (fun k hk => by
    have hk' : k < m := by omega
    have h4 := h2 k hk'
    simp only [hinp] at h4
    simp only [h4, hns, getElem_map, getElem_range]) with
    ⟨tr, g, lg2, k1, k2, -, k4, -, k6, k7⟩ | ⟨s', lg2, k1, k2, k3, k4, k5⟩
  · rw [hnsl] at k1
    simp only [k1]
    have hsum : ns.sum ≤ 255 := by
      rcases k7 with k7 | k7
      · omega
      · rw [h.eof] at k7
        omega
    refine endTree_post hp hm hm0 (by omega) hnsl hlev hsum h.inbuff h.inleft h.rest h.written hsize rfl
      ?_ ?_ ?_ ?_ ?_ ?_
    · show s.inp + 1 + m + ns.sum = _
      omega
    · show s.eof + ns.sum = _
      rw [h.eof]
      omega
    · intro k hk
      have h4 := h2 k (by omega)
      simp only [hinp] at h4
      show f (k + 1) = _
      rw [Nat.add_comm k 1, h4]
      simp only [hns, getElem_map, getElem_range]
    · intro k hk
      have h4 := k2 k hk
      rw [h.eof] at h4
      show tr (k + 1) = _
      rw [Nat.add_comm k 1, h4]
      simp
    · intro k hk
      have h4 := k4 k hk
      rw [h.eof] at h4
      simp only [hinp] at h4
      simpa using h4
    · intro a ha
      show ∃ l, _
      rw [show ({ s with maxlev := m, inp := s.inp + 1 } : St).log = s.log from rfl, h.log] at ha
      rcases mem_append.1 ha with ha | ha
      · exact hin1 h3 le_rfl a ha
      · exact hin1 k6 (by omega) a ha
  · rw [hnsl] at k1
    simp only [k1]
    refine Post.fail nofun nofun (text_eq_none fun hc => ?_) fun a ha => ?_
    · have h4 := hc.dict
      have h5 := hc.sum
      rw [dictsize, hm] at h4
      rw [← hlev (by omega)] at h5
      rw [h.eof] at k5
      omega
    · rw [k2, h.log, nil_append] at ha
      obtain ⟨l, rfl, h5, h6⟩ : ∃ l, a = .level l ∧ 1 ≤ l ∧ l ≤ m := by
        rcases mem_append.1 ha with ha | ha
        · exact hin1 h3 le_rfl a ha
        · exact hin1 k3 (by omega) a ha
      exact ⟨h5, k4 ▸ h6⟩

theorem Opened.of_read (h : (s.fresh file).read io = some s') : Opened file s' := by
  unfold St.read at h
  split_ifs at h
  obtain rfl := Option.some.inj h
  refine ⟨fun k hk hk' => ?_, fun hk => ?_, ?_, rfl, rfl, rfl, rfl⟩
  · show (file.take BUFSIZ)[k]?.getD _ = _
    rw [getElem?_take_of_lt hk', getElem?_eq_getElem hk, getD_eq_getElem _ _ hk]
    rfl
  · show (file.take BUFSIZ)[6]?.getD (update s.inbuff 6 25 6) = 25
    rw [getElem?_eq_none (by simp; omega), update_self]
    rfl
  · show ((file.take BUFSIZ).length : ℤ) = _
    rw [length_take]
    omega

theorem readSize_eq (s : St) : readSize 4 { s with inp := 2, origsize := 0 } = { s with
    inp := 6
    origsize := BitVec.ofNat 32 ((((s.inbuff 2).toNat * 256 + (s.inbuff 3).toNat) * 256
      + (s.inbuff 4).toNat) * 256 + (s.inbuff 5).toNat) } := by
  simp [readSize, BitVec.ofNat_add, BitVec.ofNat_mul]

theorem getTree_short (hm : (s.inbuff s.inp).toNat = 25) (hl : s.log = []) {t : Option (List UInt8)}
    (ht : t = none) : Post io N t (getTree io s) := by
  unfold getTree
  rw [hm, if_pos (by decide : 24 < 25)]
  exact Post.fail nofun nofun ht (by rw [hl]; nofun)

theorem getdict_post (io : Io) (s : St) (h0 : ¬ NoLevels file) :
    Post io (BitVec.ofNat 32 (announced file)) (text file) (getdict io file s) := by
  unfold getdict
  cases hr : (s.fresh file).read io with
  | none =>
    dsimp only
    refine ⟨nofun, nofun, nofun, fun hok => absurd (hok s.reads) ?_⟩
    unfold St.read at hr
    split_ifs at hr with h
    exact h
  | some s1 =>
    have h := Opened.of_read hr
    dsimp only
    have hin : ∀ a ∈ s1.log, a.Inside s1 := by rw [h.log]; nofun
    have hbyte : ∀ k, k < 7 → 7 ≤ file.length → s1.inbuff k = file.getD k 0 := fun k hk hl =>
      h.inbuff k (by omega) (by unfold BUFSIZ; omega)
    split_ifs with hus hold hrs
    · exact Post.fail nofun nofun (text_eq_none fun hc => hus ((hbyte 0 (by omega) hc.length).trans hc.us)) hin
    · refine Post.fail nofun nofun (text_eq_none fun hc => ?_) hin
      have h1 := (hbyte 1 (by omega) hc.length).symm.trans hold
      rw [hc.rs] at h1
      exact absurd h1 (by decide)
    · exact Post.fail nofun nofun (text_eq_none fun hc => hrs ((hbyte 1 (by omega) hc.length).trans hc.rs)) hin
    · rw [readSize_eq]
      by_cases hlen : 7 ≤ file.length
      · have hp : Packed file := ⟨hlen, (hbyte 0 (by omega) hlen).symm.trans (not_not.1 hus),
          (hbyte 1 (by omega) hlen).symm.trans (not_not.1 hrs)⟩
        have hN : (((s1.inbuff 2).toNat * 256 + (s1.inbuff 3).toNat) * 256 + (s1.inbuff 4).toNat) * 256
            + (s1.inbuff 5).toNat = announced file := by
          rw [hbyte 2 (by omega) hlen, hbyte 3 (by omega) hlen, hbyte 4 (by omega) hlen,
            hbyte 5 (by omega) hlen]
          rfl
        rw [hN]
        exact getTree_post ⟨h.inbuff, h.short, h.inleft, h.rest, h.eof, h.log, h.written⟩ rfl hp rfl
          fun hm => h0 ⟨hp, hm⟩
      · have h25 : (s1.inbuff 6).toNat = 25 := by
          rw [h.short (by omega)]
          rfl
        exact getTree_short (s := { s1 with inp := 6, origsize := _ }) h25 h.log
          (text_eq_none fun hc => hlen hc.length)

/-- The state that a piece of the program leaves. -/
def Turn.state : Turn → St
  | .on s => s
  | .ret r => r.2

theorem endMark_log (io : Io) (s : St) : (endMark io s).2.log = s.log := by
  unfold endMark St.write
  by_cases hok : io.writeOk s.writes = true
  · rw [if_pos hok]
    dsimp only
    split_ifs <;> rfl
  · rw [if_neg hok]

theorem putChar_log (io : Io) (p : ℤ) (s : St) : ∀ a ∈ s.log, a ∈ (putChar io p s).state.log := by
  intro a ha
  unfold putChar St.write
  have h1 : a ∈ s.log ++ [Access.char p] := mem_append_left _ ha
  dsimp only [St.touch]
  by_cases hb : (s.out ++ [s.characters p]).length = BUFSIZ
  · rw [if_pos hb]
    by_cases hok : io.writeOk s.writes = true
    · rw [if_pos hok]
      exact h1
    · rw [if_neg hok]
      exact h1
  · rw [if_neg hb]
    exact h1

theorem bit_log (b : Bool) (s : St) : ∀ a ∈ s.log, a ∈ (bit io b s).state.log := by
  intro a ha
  unfold bit
  dsimp only
  split_ifs
  · show a ∈ (endMark io _).2.log
    rw [endMark_log]
    simp [St.touch, ha]
  · exact putChar_log _ _ _ a (by simp [St.touch, ha])
  · simp [Turn.state, St.touch, ha]

theorem bits_log : ∀ (n c : ℕ) (s : St), ∀ a ∈ s.log, a ∈ (bits io n c s).state.log
  | 0, _, _ => fun _ ha => ha
  | n + 1, c, s => fun a ha => by
    have h1 := @bit_log io (c.testBit 7) s a ha
    unfold bits
    split
    · rename_i heq
      rw [heq] at h1
      exact bits_log n _ _ a h1
    · rename_i heq
      rw [heq] at h1
      exact h1

theorem decodeLoop_log : ∀ (fuel : ℕ) (s : St), ∀ a ∈ s.log, a ∈ (decodeLoop io fuel s).2.log
  | 0, _ => fun _ ha => ha
  | fuel + 1, s => fun a ha => by
    unfold decodeLoop
    cases hfill : (if s.inleft ≤ 0 then (s.read io).map fun s => { s with inp := 0 } else some s) with
    | none => exact ha
    | some s1 =>
      have h1 : s1.log = s.log := by
        unfold St.read at hfill
        split_ifs at hfill
        · rw [← Option.some.inj hfill]
        · exact absurd hfill nofun
        · rw [← Option.some.inj hfill]
      dsimp only
      split_ifs
      · exact h1 ▸ ha
      · have h2 := @bits_log io 8 (s1.inbuff s1.inp).toNat
          { s1 with inleft := s1.inleft - 1, inp := s1.inp + 1 } a (h1 ▸ ha)
        split <;> rename_i heq <;> rw [heq] at h2
        · exact decodeLoop_log fuel _ a h2
        · exact h2

/-- Without a level the count of a level that is not there is changed. -/
theorem getdict_noLevels (s : St) (h : NoLevels file) (hok : io.readOk s.reads = true) :
    Access.level 0 ∈ (getdict io file s).2.log := by
  unfold getdict
  cases hr : (s.fresh file).read io with
  | none =>
    unfold St.read at hr
    rw [show (s.fresh file).reads = s.reads from rfl, if_pos hok] at hr
    exact absurd hr nofun
  | some s1 =>
    have ho := Opened.of_read hr
    have hlen := h.length
    have hbyte : ∀ k, k < 7 → s1.inbuff k = file.getD k 0 := fun k hk =>
      ho.inbuff k (by omega) (by unfold BUFSIZ; omega)
    have h1 : s1.inbuff 1 ≠ US := by
      rw [hbyte 1 (by omega), h.rs]
      decide
    have hm : (s1.inbuff 6).toNat = 0 := (congrArg UInt8.toNat (hbyte 6 (by omega))).trans h.maxlev
    dsimp only
    rw [if_neg (not_not.2 ((hbyte 0 (by omega)).trans h.us)), if_neg h1,
      if_neg (not_not.2 ((hbyte 1 (by omega)).trans h.rs)), readSize_eq]
    unfold getTree
    simp only [hm, readCounts, readLevels]
    rw [if_neg (by decide)]
    unfold endTree
    simp only [St.takeChar, St.touch, halve]
    split_ifs
    · simp
    · exact decodeLoop_log _ _ _ (by simp)

theorem announced_lt (file : List UInt8) : announced file < 2 ^ 32 := by
  have h2 := (file.getD 2 0).toNat_lt
  have h3 := (file.getD 3 0).toNat_lt
  have h4 := (file.getD 4 0).toNat_lt
  have h5 := (file.getD 5 0).toNat_lt
  unfold announced byteAt
  omega

/-- A call of `getdict` comes to an end, stays inside the dictionary and reports success only for a text as long
as announced, whatever was unpacked before and whether the reads and writes succeed, exactly if the file has a
level and its text is not longer than announced by a multiple of `2 ^ 32`. -/
theorem getdict_safe_iff (file : List UInt8) (s : St) :
    (∀ io, Safe file (getdict io file s)) ↔
      ¬ NoLevels file ∧ ∀ t, text file = some t → t.length % 2 ^ 32 = announced file →
        t.length = announced file := by
  constructor
  · intro h
    have h0 : ¬ NoLevels file := fun h0 => by
      have h1 := (h ⟨fun _ => true, fun _ => true⟩).inside _ (getdict_noLevels s h0 rfl)
      exact absurd h1.1 (by decide)
    refine ⟨h0, fun t ht hmod => ?_⟩
    have hpost := getdict_post ⟨fun _ => true, fun _ => true⟩ s h0
    have hN : BitVec.ofNat 32 t.length = BitVec.ofNat 32 (announced file) := by
      refine BitVec.eq_of_toNat_eq ?_
      rw [BitVec.toNat_ofNat, BitVec.toNat_ofNat, hmod, Nat.mod_eq_of_lt (announced_lt file)]
    have hsucc := hpost.succeeds (fun _ => rfl) (fun _ => rfl) t ht hN
    rw [← (h _).exact hsucc]
    exact congrArg List.length (Option.some.inj (ht.symm.trans (hpost.exact hsucc).1))
  · rintro ⟨h0, hlen⟩ io
    have hpost := getdict_post io s h0
    refine ⟨hpost.ends, hpost.inside, fun hsucc => ?_⟩
    obtain ⟨ht, hN⟩ := hpost.exact hsucc
    refine hlen _ ht ?_
    have h1 := congrArg BitVec.toNat hN
    rw [BitVec.toNat_ofNat, BitVec.toNat_ofNat, Nat.mod_eq_of_lt (announced_lt file)] at h1
    exact h1

/-- The variables when the program starts, with `characters` at `0x4000`: pointers into it are null. -/
def boot : St where
  rest := []
  written := []
  reads := 0
  writes := 0
  inbuff := fun _ => 0
  inleft := 0
  inp := 0
  out := []
  origsize := 0
  maxlev := 0
  intnodes := fun _ => 0
  tree := fun _ => -0x4000
  characters := fun _ => 0
  eof := 0
  lev := 0
  i := 0
  log := []

/-- A header that announces one byte and no level is taken for that of a packed file: the code of the byte after
it is followed with `intnodes[1]` and `tree[1]`, which the file has not set. -/
theorem getdict_no_levels_null :
    ¬ Safe [0o37, 0o36, 0, 0, 0, 1, 0, 97, 0]
        (getdict ⟨fun _ => true, fun _ => true⟩ [0o37, 0o36, 0, 0, 0, 1, 0, 97, 0] boot) ∧
      Access.char (-0x4000) ∈
        (getdict ⟨fun _ => true, fun _ => true⟩ [0o37, 0o36, 0, 0, 0, 1, 0, 97, 0] boot).2.log := by
  refine ⟨fun h => ?_, by decide +kernel⟩
  have h1 := h.inside (.level 0) (by decide +kernel)
  exact absurd h1.1 (by decide)

end Unpack

end Hpux
