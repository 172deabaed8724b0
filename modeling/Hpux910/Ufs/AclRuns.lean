import Hpux910.Ufs.AclOrder
import Mathlib

/-!
# Evaluation of access control lists

* `Inode.Stores`, `Good` : the optional entries of a file and what holds of them.
* `Inv.next` : every call keeps it.
* `igetAccess_eq_rules` : the evaluation gives the mode that the rules define.
* `reads_back` : the list is read back in order.
* `acl_ordered_and_evaluated` : all of it after any sequence of calls.
-/

namespace Hpux.Acl

open List

variable {ip ip' : Inode} {a b t : Tuple} {l l' acl : List Tuple} {uid gid k n : ℕ} {c : Caller}

/-- The optional entries of a file, in the order of the array. -/
def Inode.Stores (ip : Inode) (l : List Tuple) : Prop :=
  ip.cont = none ∧ l = [] ∨
    ∃ spare k, ip.cont = some ⟨l ++ List.replicate k unused, spare⟩ ∧ l.length + k = nOptTuples

/-- What holds of the optional entries of a file of an owner and a group: they are in order and none
of them is a base entry. -/
structure Good (l : List Tuple) (uid gid : ℕ) : Prop where
  sorted : Sorted l
  valid : ∀ t ∈ l, t.Valid
  optional : ∀ t ∈ l, t.level ≤ 2
  user : ∀ t ∈ l, ¬(t.uid = uid ∧ t.gid = nsGroup)
  group : ∀ t ∈ l, ¬(t.uid = nsUser ∧ t.gid = gid)

/-- The invariant of the calls. -/
structure Inv (ip : Inode) : Prop where
  uid_lt : ip.uid < 65536
  gid_lt : ip.gid < 65536
  good : ∃ l, ip.Stores l ∧ Good l ip.uid ip.gid

theorem Good.nil (uid gid : ℕ) : Good [] uid gid := ⟨.nil, nofun, nofun, nofun, nofun⟩

theorem Inode.Stores.length_le (h : ip.Stores l) : l.length ≤ nOptTuples := by
  obtain ⟨-, rfl⟩ | ⟨spare, k, -, h⟩ := h
  · exact Nat.zero_le _
  · omega

theorem entries_append (hl : ∀ t ∈ l, t.Valid) (k : ℕ) :
    entries (l ++ List.replicate k unused) = l := by
  unfold entries
  rw [takeWhile_append_of_pos]
  · cases k with
    | zero => simp
    | succ k => simp [replicate_succ, unused]
  · intro t ht
    simpa using Valid.ne_unused (hl t ht)

theorem Inode.Stores.tuples (h : ip.Stores l) (hl : ∀ t ∈ l, t.Valid) : ip.tuples = l := by
  unfold Inode.tuples
  obtain ⟨h1, rfl⟩ | ⟨spare, k, h1, -⟩ := h <;> rw [h1]
  · rfl
  · exact entries_append hl k

/-! ### `chown` -/

/-- `check_acl_tuple`: an entry with the new ids goes, and the old base entry comes in. -/
theorem checkAclTuple_spec (hst : ip.Stores l) (hs : Sorted l) (hv : ∀ x ∈ l, x.Valid)
    (huid : uid ≠ aclUnused) (hold : (∃ x ∈ l, x.uid = uid ∧ x.gid = gid) → t.Valid ∧
      ∀ x ∈ l, ¬(x.uid = t.uid ∧ x.gid = t.gid))
    (ht : t = if gid = nsGroup then ⟨ip.uid, nsGroup, getbasetuple ip.mode .user⟩
      else ⟨nsUser, ip.gid, getbasetuple ip.mode .group⟩) :
    (checkAclTuple ip uid gid).1.uid = ip.uid ∧ (checkAclTuple ip uid gid).1.gid = ip.gid ∧
      ∃ l', (checkAclTuple ip uid gid).1.Stores l' ∧ Sorted l' ∧
        ∀ x ∈ l', x ∈ l ∧ ¬(x.uid = uid ∧ x.gid = gid) ∨
          x = t ∧ ∃ y ∈ l, y.uid = uid ∧ y.gid = gid := by
  unfold checkAclTuple
  obtain ⟨hcont, rfl⟩ | ⟨spare, k, hcont, hlen⟩ := hst
  · simp only [hcont]
    exact ⟨trivial, trivial, [], .inl ⟨hcont, rfl⟩, .nil, nofun⟩
  simp only [hcont]
  split
  · rename_i hfind
    refine ⟨rfl, rfl, l, .inr ⟨spare, k, hcont, hlen⟩, hs, fun x hx => .inl ⟨hx, ?_⟩⟩
    have h1 := findIdx?_eq_none_iff.1 hfind x (mem_append_left _ hx)
    simpa using h1
  · rename_i i hfind
    obtain ⟨hi, hmatch, -⟩ := findIdx?_eq_some_iff_getElem.1 hfind
    have hmatch : (l ++ List.replicate k unused)[i].uid = uid ∧
        (l ++ List.replicate k unused)[i].gid = gid := by simpa using hmatch
    -- the match is not an unused entry
    have hil : i < l.length := by
      by_contra hge
      rw [getElem_append_right (by omega)] at hmatch
      rw [getElem_replicate] at hmatch
      exact huid hmatch.1.symm
    rw [getElem_append_left hil] at hmatch
    have hsplit : l = l.take i ++ l[i] :: l.drop (i + 1) := by
      rw [getElem_cons_drop, take_append_drop]
    have herase : (l ++ List.replicate k unused).eraseIdx i =
        l.eraseIdx i ++ List.replicate k unused := eraseIdx_append_of_lt_length hil _
    have hsub : ∀ x ∈ l.eraseIdx i, x ∈ l := fun x hx => mem_of_mem_eraseIdx hx
    have hlen' : (l.eraseIdx i).length + (k + 1) = nOptTuples := by
      rw [length_eraseIdx_of_lt hil]
      omega
    -- no other entry has the new ids
    have hone : ∀ x ∈ l.eraseIdx i, ¬(x.uid = uid ∧ x.gid = gid) := by
      intro x hx hkey
      have hbefore : x.Before l[i] ∨ l[i].Before x := by
        rw [eraseIdx_eq_take_drop_succ] at hx
        rw [hsplit] at hs
        obtain ⟨h1, h2, h3⟩ := pairwise_append.1 hs
        rcases mem_append.1 hx with hx | hx
        · exact .inl (h3 x hx _ (mem_cons_self ..))
        · exact .inr ((pairwise_cons.1 h2).1 x hx)
      unfold Tuple.Before Tuple.level at hbefore
      rw [hkey.1, hkey.2, hmatch.1, hmatch.2] at hbefore
      omega
    obtain ⟨htv, hnew⟩ := hold ⟨l[i], getElem_mem _, hmatch⟩
    have hv' : ∀ x ∈ l.eraseIdx i, x.Valid := fun x hx => hv x (hsub x hx)
    have hs' : Sorted (l.eraseIdx i) := hs.sublist (eraseIdx_sublist l i)
    have harr : (l ++ List.replicate k unused).eraseIdx i ++ [unused] ++ spare =
        l.eraseIdx i ++ (List.replicate (k + 1) unused ++ spare) := by
      rw [herase, replicate_succ']
      simp
    have hroom : (l.eraseIdx i).length + (k + 1) ≤ nAclTuples := by
      rw [hlen']
      decide
    obtain ⟨acl', hins⟩ := insertTuple_ok htv hv' hs' hroom (by omega) spare
      fun x hx => hnew x (hsub x hx)
    obtain ⟨l', rfl, hperm, hsorted, -⟩ :=
      insertTuple_sorted htv hv' hs' hroom spare (by omega) hins
    have hl' : l'.length + k = nOptTuples := by
      rw [hperm.length_eq, length_cons]
      omega
    rw [harr, ← ht, hins]
    refine ⟨rfl, rfl, l', .inr ⟨spare, k, ?_, hl'⟩, hsorted, ?_⟩
    · have hlen2 : (l' ++ List.replicate k unused).length = nOptTuples := by simpa using hl'
      dsimp only
      rw [Nat.add_sub_cancel, ← append_assoc, take_left' hlen2, drop_left' hlen2]
    · intro x hx
      rcases mem_cons.1 (hperm.mem_iff.1 hx) with rfl | hx
      · exact .inr ⟨rfl, l[i], getElem_mem _, hmatch⟩
      · exact .inl ⟨hsub x hx, hone x hx⟩

theorem newId_lt {old : ℕ} (h : ¬(maxUid ≤ n ∧ n ≠ noChange)) (hne : newId old n ≠ old) :
    newId old n = n ∧ n < nsUser := by
  unfold maxUid at h
  unfold newId nsUser at *
  split_ifs at hne ⊢ <;> omega

/-- The user part of `chown1`: the entry of the new owner goes. -/
theorem Good.chownUser (h : Good l ip.uid n) (hst : ip.Stores l) (hc : uid ≠ ip.uid → uid < nsUser ∧
      ((∃ t ∈ l, t.uid = uid ∧ t.gid = nsGroup) → ip.uid < nsUser)) :
    (chownUser ip uid).1.gid = ip.gid ∧ ∃ l', (chownUser ip uid).1.Stores l' ∧ Good l' uid n ∧
      ∀ x ∈ l', x.uid = nsUser → x ∈ l := by
  unfold Acl.chownUser
  split_ifs with hne
  · obtain ⟨hlt, hc⟩ := hc hne
    obtain ⟨-, h2, l', h3, h4, h5⟩ := checkAclTuple_spec
      (t := ⟨ip.uid, nsGroup, getbasetuple ip.mode .user⟩) hst h.sorted h.valid
      (by unfold nsUser at hlt; unfold aclUnused; omega)
      (fun hm => ⟨⟨(hc hm).le, Nat.le_refl _⟩, h.user⟩) (by rw [if_pos rfl])
    refine ⟨h2, l', h3, ⟨h4, ?_, ?_, ?_, ?_⟩, ?_⟩
    all_goals
      intro x hx
      rcases h5 x hx with ⟨hxl, hkey⟩ | ⟨rfl, hm⟩
    · exact h.valid x hxl
    · exact ⟨(hc hm).le, Nat.le_refl _⟩
    · exact h.optional x hxl
    · unfold Tuple.level
      rw [if_pos (hc hm), if_neg (Nat.lt_irrefl _)]
      decide
    · exact hkey
    · exact fun h6 => hne h6.1.symm
    · exact h.group x hxl
    · exact fun h6 => (hc hm).ne h6.1
    · exact fun _ => hxl
    · exact fun h6 => absurd h6 (hc hm).ne
  · obtain rfl := not_not.1 hne
    exact ⟨rfl, l, hst, h, fun x hx _ => hx⟩

/-- The group part. -/
theorem Good.chownGroup (h : Good l n ip.gid) (hst : ip.Stores l) (hc : gid ≠ ip.gid → gid < nsGroup ∧
      ((∃ t ∈ l, t.uid = nsUser ∧ t.gid = gid) → ip.gid < nsGroup)) :
    ∃ l', (chownGroup ip gid).1.Stores l' ∧ Good l' n gid := by
  unfold Acl.chownGroup
  split_ifs with hne
  · obtain ⟨hlt, hc⟩ := hc hne
    obtain ⟨-, -, l', h3, h4, h5⟩ := checkAclTuple_spec
      (t := ⟨nsUser, ip.gid, getbasetuple ip.mode .group⟩) hst h.sorted h.valid
      (by decide) (fun hm => ⟨⟨Nat.le_refl _, (hc hm).le⟩, h.group⟩) (by rw [if_neg hlt.ne])
    refine ⟨l', h3, h4, ?_, ?_, ?_, ?_⟩
    all_goals
      intro x hx
      rcases h5 x hx with ⟨hxl, hkey⟩ | ⟨rfl, hm⟩
    · exact h.valid x hxl
    · exact ⟨Nat.le_refl _, (hc hm).le⟩
    · exact h.optional x hxl
    · unfold Tuple.level
      rw [if_neg (Nat.lt_irrefl _), if_pos (hc hm)]
    · exact h.user x hxl
    · exact fun h6 => (hc hm).ne h6.2
    · exact hkey
    · exact fun h6 => hne h6.2.symm
  · obtain rfl := not_not.1 hne
    exact ⟨l, hst, h⟩

theorem Inv.chown {clear : Bool} (h : Inv ip) (hu : uid < 65536) (hg : gid < 65536)
    (hc : Cond ip (.chown uid gid clear)) : Inv (chown1 ip uid gid clear).1 := by
  obtain ⟨l, hst, hgood⟩ := h.good
  rw [Cond, hst.tuples hgood.valid] at hc
  have hid : ∀ {old new : ℕ}, old < 65536 → new < 65536 → newId old new < 65536 := by
    intro old new h1 h2
    unfold newId
    split_ifs <;> assumption
  unfold chown1
  by_cases hbad : maxUid ≤ uid ∧ uid ≠ noChange ∨ maxUid ≤ gid ∧ gid ≠ noChange
  · rw [if_pos hbad]
    exact h
  rw [if_neg hbad]
  obtain ⟨hbu, hbg⟩ := not_or.1 hbad
  obtain ⟨hgid, l1, hst1, hgood1, hgroups⟩ := @Good.chownUser ip l (newId ip.uid uid) _ hgood hst <| by
    intro hne
    obtain ⟨h1, h2⟩ := newId_lt hbu hne
    rw [h1]
    exact ⟨h2, hc.1⟩
  rw [← hgid] at hgood1
  obtain ⟨l2, hst2, hgood2⟩ := @Good.chownGroup _ l1 (newId ip.gid gid) _ hgood1 hst1 <| by
    rw [hgid]
    intro hne
    obtain ⟨h1, h2⟩ := newId_lt hbg hne
    rw [h1]
    refine ⟨h2, ?_⟩
    rintro ⟨t, ht, h3, h4⟩
    exact hc.2 ⟨t, hgroups t ht h3, h3, h4⟩
  exact ⟨hid h.uid_lt hu, hid h.gid_lt hg, l2, hst2, hgood2⟩

/-! ### `setacl` -/

/-- The entries that `ufs_setacl` has collected so far. -/
structure Scan.Holds (ip : Inode) (sc : Scan) (l : List Tuple) : Prop where
  acl : sc.acl = l ++ List.replicate (nOptTuples - l.length) unused
  length_le : l.length ≤ nOptTuples
  count : sc.nopttuples = l.length
  good : Good l ip.uid ip.gid

theorem Scan.Holds.add {sc sc' : Scan} (h : sc.Holds ip l) (hs : sc.add ip t = .ok sc') :
    ∃ l', sc'.Holds ip l' := by
  have hbase : ∀ ugo, sc.base t ugo = .ok sc' → ∃ l', sc'.Holds ip l' := by
    intro ugo hb
    unfold Scan.base at hb
    split_ifs at hb
    obtain rfl := Except.ok.inj hb
    exact ⟨l, h.acl, h.length_le, h.count, h.good⟩
  unfold Scan.add at hs
  split_ifs at hs with h1 h2 h3 h4
  · exact hbase _ hs
  · exact hbase _ hs
  · exact hbase _ hs
  · split at hs
    · rename_i acl' hins
      obtain rfl := Except.ok.inj hs
      have htv : t.Valid := by
        unfold Tuple.Valid
        unfold maxUid nsUser nsGroup at *
        omega
      rw [h.acl, ← append_nil (List.replicate _ unused)] at hins
      have hle := h.length_le
      obtain ⟨l', rfl, hperm, hsorted, hk⟩ := insertTuple_sorted htv h.good.valid h.good.sorted
        (by omega) [] (by omega) hins
      have hlen : l'.length = l.length + 1 := hperm.length_eq
      refine ⟨l', ?_, by omega, by rw [hlen, ← h.count], hsorted, ?_, ?_, ?_, ?_⟩
      · rw [append_nil, hlen, Nat.sub_sub]
      all_goals
        intro x hx
        rcases mem_cons.1 (hperm.mem_iff.1 hx) with rfl | hx
      · exact htv
      · exact h.good.valid x hx
      · unfold Tuple.level
        unfold maxUid nsUser nsGroup at *
        split_ifs <;> omega
      · exact h.good.optional x hx
      · unfold nsUser nsGroup at *
        omega
      · exact h.good.user x hx
      · exact fun h5 => h3 h5
      · exact h.good.group x hx
    · cases hs

theorem Scan.Holds.run {sc sc' : Scan} {tps : List Tuple} (h : sc.Holds ip l)
    (hs : Scan.run ip sc tps = .ok sc') : ∃ l', sc'.Holds ip l' := by
  induction tps generalizing sc l with
  | nil =>
    obtain rfl := Except.ok.inj hs
    exact ⟨l, h⟩
  | cons tp tps ih =>
    unfold Scan.run at hs
    split at hs
    · rename_i sc1 hadd
      obtain ⟨l1, h1⟩ := h.add hadd
      exact ih h1 hs
    · cases hs

theorem Inv.setacl {tupleset room : Option (List Tuple)} {keep : ℕ} (h : Inv ip) :
    Inv (Acl.setacl ip tupleset keep room).1 := by
  have hnone : ∀ mode, Inv { ip with mode := mode, cont := none } := fun mode =>
    ⟨h.uid_lt, h.gid_lt, [], .inl ⟨rfl, rfl⟩, Good.nil _ _⟩
  unfold Acl.setacl
  split
  · exact hnone ip.mode
  · split
    · exact h
    · rename_i tps sc hrun
      have h0 : Scan.Holds ip ⟨List.replicate nOptTuples unused, 0, fun _ => false, 0⟩ [] :=
        ⟨rfl, Nat.zero_le _, rfl, Good.nil _ _⟩
      obtain ⟨l, hl⟩ := h0.run hrun
      dsimp only
      split_ifs
      · exact hnone _
      · split
        · exact hnone _
        · rename_i spare
          have hle := hl.length_le
          refine ⟨h.uid_lt, h.gid_lt, l, .inr ⟨spare, nOptTuples - l.length, ?_, by omega⟩, hl.good⟩
          dsimp only
          rw [hl.acl, hl.count, take_left' rfl]

theorem Inv.next {act : Act} (h : Inv ip) (hc : Cond ip act) (he : act.Enabled) :
    Inv (ip.next act) := by
  cases act with
  | setacl tupleset keep room => exact h.setacl
  | chown uid gid clear => exact h.chown he.1 he.2 hc
  | chmod mode keep => exact ⟨h.uid_lt, h.gid_lt, [], .inl ⟨rfl, rfl⟩, Good.nil _ _⟩

/-! ### `iget_access` -/

/-- A list in order of specificity from a level on: its first part is that level. -/
theorem span_level {p : Tuple → Bool} (hs : acl.Pairwise (fun a b => a.level ≤ b.level))
    (hp : ∀ x ∈ acl, p x = true ↔ x.level = n) (hn : ∀ x ∈ acl, n ≤ x.level) :
    acl.takeWhile p = acl.filter (fun x => x.level = n) ∧
      acl.dropWhile p = acl.filter (fun x => n < x.level) := by
  induction acl with
  | nil => exact ⟨rfl, rfl⟩
  | cons x acl ih =>
    obtain ⟨hx, hs⟩ := pairwise_cons.1 hs
    obtain ⟨hpx, hp⟩ := forall_mem_cons.1 hp
    obtain ⟨hnx, hn⟩ := forall_mem_cons.1 hn
    obtain ⟨h1, h2⟩ := ih hs hp hn
    by_cases hl : x.level = n
    · have hpt := hpx.2 hl
      rw [takeWhile_cons_of_pos hpt, dropWhile_cons_of_pos hpt, h1, h2]
      simp [hl]
    · have hpf : ¬p x = true := fun h3 => hl (hpx.1 h3)
      rw [takeWhile_cons_of_neg hpf, dropWhile_cons_of_neg hpf]
      constructor
      · refine (filter_eq_nil_iff.2 ?_).symm
        intro y hy
        have : x.level ≤ y.level := (mem_cons.1 hy).elim (fun h3 => by rw [h3]) (hx y)
        simp
        omega
      · refine (filter_eq_self.2 ?_).symm
        intro y hy
        have : x.level ≤ y.level := (mem_cons.1 hy).elim (fun h3 => by rw [h3]) (hx y)
        simp
        omega

/-- The loops over `(u,g)` and `(*,g)` entries find the union of the modes of those that match. -/
theorem collect_eq (p : Tuple → Bool) (found : Bool) (m : ℕ) (xs : List Tuple) :
    collect p (found, m) xs = (found || decide (xs.filter p ≠ []), m ||| union (xs.filter p)) := by
  induction xs generalizing found m with
  | nil => simp [collect, union]
  | cons x xs ih =>
    have h1 : collect p (found, m) (x :: xs) =
        collect p (if p x then (true, m ||| x.mode) else (found, m)) xs := rfl
    rw [h1]
    by_cases hp : p x = true
    · rw [if_pos hp, ih, filter_cons_of_pos hp]
      simp [union, Nat.or_assoc]
    · rw [if_neg hp, ih, filter_cons_of_neg hp]

/-- Two entries of a sorted list have different ids. -/
theorem Sorted.eq_nil_or_single {p : Tuple → Bool} (hs : Sorted l)
    (hp : ∀ a b, a ∈ l → b ∈ l → p a = true → p b = true → ¬a.Before b) :
    l.filter p = [] ∨ ∃ t, l.filter p = [t] := by
  have hf : Sorted (l.filter p) := hs.filter p
  have hmem : ∀ x ∈ l.filter p, x ∈ l ∧ p x = true := fun x hx => mem_filter.1 hx
  rcases hfl : l.filter p with _ | ⟨a, _ | ⟨b, m⟩⟩
  · exact .inl rfl
  · exact .inr ⟨a, rfl⟩
  · rw [hfl] at hf hmem
    obtain ⟨ha, hpa⟩ := hmem a (by simp)
    obtain ⟨hb, hpb⟩ := hmem b (by simp)
    exact absurd ((pairwise_cons.1 hf).1 b (by simp)) (hp a b ha hb hpa hpb)

theorem Tuple.Valid.gid_of_level (h : t.Valid) (hl : t.level = 1) : t.gid = nsGroup := by
  have h1 := h.2
  unfold Tuple.level at hl
  split_ifs at hl <;> omega

theorem filter_unused (hn : n ≤ 2) (k : ℕ) :
    (List.replicate k unused).filter (fun x => decide (x.level = n)) = [] := by
  refine filter_eq_nil_iff.2 fun x hx => ?_
  rw [(mem_replicate.1 hx).2]
  have h3 : unused.level = 3 := rfl
  simp
  omega

/-- The three loops of the evaluation run over the `(u,g)`, the `(u,*)` and the `(*,g)` entries. -/
theorem Good.segments (h : Good l uid gid) (k : ℕ) :
    let isUG := fun t : Tuple => decide (t.uid < nsUser ∧ t.gid < nsGroup)
    let isU := fun t : Tuple => decide (t.gid = nsGroup)
    let isG := fun t : Tuple => decide (t.uid = nsUser)
    let iacl := l ++ List.replicate k unused
    iacl.takeWhile isUG = l.filter (fun x => decide (x.level = 0)) ∧
      (iacl.dropWhile isUG).takeWhile isU = l.filter (fun x => decide (x.level = 1)) ∧
      ((iacl.dropWhile isUG).dropWhile isU).takeWhile isG =
        l.filter (fun x => decide (x.level = 2)) := by
  intro isUG isU isG iacl
  have hmem : ∀ x ∈ iacl, x ∈ l ∨ x = unused := fun x hx =>
    (mem_append.1 hx).imp_right fun h1 => (mem_replicate.1 h1).2
  have hsorted : iacl.Pairwise (fun a b => a.level ≤ b.level) := by
    refine pairwise_append.2 ⟨h.sorted.imp ?_, pairwise_replicate.2 (.inr (Nat.le_refl _)), ?_⟩
    · intro a b hab
      unfold Tuple.Before at hab
      omega
    · intro a ha b hb
      rw [(mem_replicate.1 hb).2]
      exact Nat.le_succ_of_le (h.optional a ha)
  have hfilter : ∀ n, n ≤ 2 → iacl.filter (fun x => decide (x.level = n)) =
      l.filter (fun x => decide (x.level = n)) := by
    intro n hn
    rw [filter_append, filter_unused hn, append_nil]
  have hvalid : ∀ x ∈ iacl, x.Valid ∧ x.level ≤ 2 ∨ x = unused := fun x hx =>
    (hmem x hx).imp_left fun h1 => ⟨h.valid x h1, h.optional x h1⟩
  obtain ⟨h1, h2⟩ := span_level (n := 0) (p := isUG) hsorted
    (by
      intro x _
      simp only [isUG, Tuple.level, decide_eq_true_eq]
      split_ifs <;> simp_all)
    (fun _ _ => Nat.zero_le _)
  obtain ⟨h3, h4⟩ := span_level (n := 1) (p := isU)
    (hsorted.filter (fun x : Tuple => decide (0 < x.level)))
    (by
      intro x hx
      obtain ⟨hx, h0⟩ := mem_filter.1 hx
      have h0 : 0 < x.level := by simpa using h0
      simp only [isU, decide_eq_true_eq]
      rcases hvalid x hx with ⟨⟨h5, h6⟩, h7⟩ | rfl
      · unfold Tuple.level at *
        split_ifs at * <;> omega
      · decide)
    (fun x hx => of_decide_eq_true (mem_filter.1 hx).2)
  obtain ⟨h5, -⟩ := span_level (n := 2) (p := isG)
    ((hsorted.filter (fun x : Tuple => decide (0 < x.level))).filter
      (fun x : Tuple => decide (1 < x.level)))
    (by
      intro x hx
      obtain ⟨hx, h0⟩ := mem_filter.1 hx
      have h0 : 1 < x.level := by simpa using h0
      simp only [isG, decide_eq_true_eq]
      rcases hvalid x (mem_filter.1 hx).1 with ⟨⟨h5, h6⟩, h7⟩ | rfl
      · unfold Tuple.level at *
        split_ifs at * <;> omega
      · decide)
    (fun x hx => of_decide_eq_true (mem_filter.1 hx).2)
  rw [h1, h2, h3, h4, h5]
  refine ⟨hfilter 0 (by omega), ?_, ?_⟩
  · rw [filter_filter, ← hfilter 1 (by omega)]
    refine filter_congr fun x _ => ?_
    rw [Bool.eq_iff_iff]
    simp
    omega
  · rw [filter_filter, filter_filter, ← hfilter 2 (by omega)]
    refine filter_congr fun x _ => ?_
    rw [Bool.eq_iff_iff]
    simp
    omega

theorem Caller.hasGroup_iff : c.hasGroup n = true ↔
    ∃ h ∈ c.gid :: c.groups.takeWhile (· ≠ -1), h = n := by
  unfold Caller.hasGroup
  rw [Bool.or_eq_true, decide_eq_true_eq, any_eq_true, exists_mem_cons_iff]
  refine or_congr eq_comm (exists_congr fun h => and_congr_right fun _ => ?_)
  rw [decide_eq_true_eq, eq_comm]

theorem Caller.hasGroup_eq (h : n = 65534 → -2 ∉ c.gid :: c.groups.takeWhile (· ≠ -1)) :
    c.hasGroup n = decide (c.InGroup n) := by
  rw [Bool.eq_iff_iff, Caller.hasGroup_iff, decide_eq_true_eq]
  constructor
  · rintro ⟨g, hg, rfl⟩
    exact ⟨_, hg, .inl rfl⟩
  · rintro ⟨g, hg, rfl | ⟨rfl, hn⟩⟩
    · exact ⟨_, hg, rfl⟩
    · exact absurd hg (h hn)

theorem Caller.owner_iff (hid : ip.uid < 65536) (h : (ip.uid : ℤ) = c.uid % 65536 → c.Owns ip) :
    (ip.uid : ℤ) = c.uid % 65536 ↔ c.Owns ip := by
  refine ⟨h, ?_⟩
  rintro (h1 | ⟨h1, h2⟩)
  · omega
  · rw [h1, h2]
    rfl

/-- The evaluation gives the mode that the rules define. -/
theorem Inv.igetAccess_eq_rules (h : Inv ip) (hc : c.Plain ip) : igetAccess ip c = rules ip c := by
  obtain ⟨l, hst, hg⟩ := h.good
  obtain ⟨k, harr⟩ : ∃ k, (ip.cont.map Cont.acl).getD [] = l ++ List.replicate k unused := by
    obtain ⟨h1, rfl⟩ | ⟨spare, k, h1, -⟩ := hst <;> rw [h1]
    · exact ⟨0, rfl⟩
    · exact ⟨k, rfl⟩
  obtain ⟨h1, h2, h3⟩ := hg.segments k
  have htuple : ∀ x ∈ l, c.hasGroup x.gid = decide (c.InGroup x.gid) := by
    intro x hx
    refine Caller.hasGroup_eq fun h4 => ?_
    have h5 := (hg.valid x hx).2
    unfold nsGroup at h5
    omega
  have hspecific : (l.filter (fun x => decide (x.level = 0))).filter
      (fun t => decide ((t.uid : ℤ) = c.uid) && c.hasGroup t.gid) =
      l.filter fun t => decide (t.level = 0 ∧ (t.uid : ℤ) = c.uid ∧ c.InGroup t.gid) := by
    rw [filter_filter]
    refine filter_congr fun x hx => ?_
    rw [htuple x hx]
    simp only [Bool.decide_and]
    cases decide (x.level = 0) <;> simp
  have hgroups : (l.filter (fun x => decide (x.level = 2))).filter (fun t => c.hasGroup t.gid) =
      l.filter fun t => decide (t.level = 2 ∧ c.InGroup t.gid) := by
    rw [filter_filter]
    refine filter_congr fun x hx => ?_
    rw [htuple x hx]
    simp only [Bool.decide_and]
    cases decide (x.level = 2) <;> simp
  have husers : (l.filter (fun x => decide (x.level = 1))).filter
      (fun t => decide ((t.uid : ℤ) = c.uid)) =
      l.filter fun t => decide (t.level = 1 ∧ (t.uid : ℤ) = c.uid) := by
    rw [filter_filter]
    refine filter_congr fun x _ => ?_
    simp only [Bool.decide_and]
    cases decide (x.level = 1) <;> simp
  have hfind : (l.filter (fun x => decide (x.level = 1))).find?
      (fun t => decide ((t.uid : ℤ) = c.uid)) =
      (l.filter fun t => decide (t.level = 1 ∧ (t.uid : ℤ) = c.uid)).head? := by
    rw [← husers, head?_filter]
  -- two entries of one user without a group would have the same ids
  have hone := hg.sorted.eq_nil_or_single
    (p := fun t => decide (t.level = 1 ∧ (t.uid : ℤ) = c.uid)) <| by
      intro a b ha hb hpa hpb hab
      simp only [decide_eq_true_eq] at hpa hpb
      have hga := (hg.valid a ha).gid_of_level hpa.1
      have hgb := (hg.valid b hb).gid_of_level hpb.1
      unfold Tuple.Before at hab
      omega
  unfold igetAccess rules
  dsimp only
  rw [harr, h1, h2, h3, collect_eq, hspecific, hst.tuples hg.valid, hfind]
  simp only [Bool.false_or, Nat.zero_or, decide_eq_true_eq]
  by_cases hs : l.filter (fun t => decide (t.level = 0 ∧ (t.uid : ℤ) = c.uid ∧ c.InGroup t.gid)) ≠ []
  · rw [if_pos hs, if_pos hs]
  rw [if_neg hs, if_neg hs]
  by_cases ho : c.Owns ip
  · rw [if_pos ho, if_pos ((Caller.owner_iff h.uid_lt hc.1).2 ho)]
  rw [if_neg ho, if_neg (mt (Caller.owner_iff h.uid_lt hc.1).1 ho)]
  rcases hone with hu | ⟨t, hu⟩
  · rw [hu]
    simp only [head?_nil, ne_eq, not_true_eq_false, if_false]
    rw [Caller.hasGroup_eq hc.2]
    by_cases hgr : c.InGroup ip.gid
    · simp only [hgr, decide_true, if_true]
      rw [collect_eq, hgroups]
      simp
    · simp only [hgr, decide_false, Bool.false_eq_true, if_false]
      rw [collect_eq, hgroups]
      simp
  · rw [hu]
    simp [union]

/-! ### `vno_getacl` -/

/-- An insertion with room and no entry for the same ids. -/
theorem insertTuple_new (ht : t.Valid) (hl : ∀ x ∈ l, Tuple.Valid x) (hs : Sorted l)
    (hn : l.length + (k + 1) = n) (hnew : ∀ x ∈ l, ¬(x.uid = t.uid ∧ x.gid = t.gid)) :
    ∃ l', insertTuple (l ++ List.replicate (k + 1) unused) t n = (l' ++ List.replicate k unused, none) ∧
      l'.Perm (t :: l) ∧ Sorted l' ∧ ∀ x ∈ l', Tuple.Valid x := by
  obtain ⟨acl', h1⟩ := insertTuple_ok ht hl hs hn.le (by omega) [] hnew
  obtain ⟨l', rfl, h2, h3, -⟩ := insertTuple_sorted ht hl hs hn.le [] (by omega) h1
  refine ⟨l', ?_, h2, h3, ?_⟩
  · simpa using h1
  · intro x hx
    rcases mem_cons.1 (h2.mem_iff.1 hx) with rfl | hx
    · exact ht
    · exact hl x hx

/-- The list of a file with an ordinary owner and group is read back in order. -/
theorem Inv.reads_back (h : Inv ip) (hu : ip.uid < nsUser) (hg : ip.gid < nsGroup) : ip.ReadsBack := by
  obtain ⟨l, hst, hgood⟩ := h.good
  have htup := hst.tuples hgood.valid
  intro n hn hn'
  rw [htup] at hn
  have hlen : ∃ k, l.length + (k + 2 + 1) = nAclTuples ∧ nAclTuples - l.length = k + 2 + 1 :=
    ⟨nAclTuples - l.length - 3, by omega, by omega⟩
  obtain ⟨k, hk, hk'⟩ := hlen
  obtain ⟨l1, h1, hp1, hs1, hv1⟩ := insertTuple_new (k := k + 2) (n := nAclTuples)
    (t := ⟨ip.uid, nsGroup, getbasetuple ip.mode .user⟩) ⟨hu.le, Nat.le_refl _⟩ hgood.valid
    hgood.sorted hk hgood.user
  have hl1 : l1.length = l.length + 1 := hp1.length_eq
  obtain ⟨l2, h2, hp2, hs2, hv2⟩ := insertTuple_new (k := k + 1) (n := nAclTuples)
    (t := ⟨nsUser, ip.gid, getbasetuple ip.mode .group⟩) ⟨Nat.le_refl _, hg.le⟩ hv1 hs1 (by omega) <| by
      intro x hx
      rcases mem_cons.1 (hp1.mem_iff.1 hx) with rfl | hx
      · exact fun h3 => hu.ne h3.1
      · exact hgood.group x hx
  have hl2 : l2.length = l1.length + 1 := hp2.length_eq
  obtain ⟨l3, h3, hp3, hs3, -⟩ := insertTuple_new (k := k) (n := nAclTuples)
    (t := ⟨nsUser, nsGroup, getbasetuple ip.mode .other⟩) ⟨Nat.le_refl _, Nat.le_refl _⟩ hv2 hs2
    (by omega) <| by
      intro x hx
      rcases mem_cons.1 (hp2.mem_iff.1 hx) with rfl | hx
      · exact fun h4 => hg.ne h4.2
      rcases mem_cons.1 (hp1.mem_iff.1 hx) with rfl | hx
      · exact fun h4 => hu.ne h4.1
      · rintro ⟨h4, h5⟩
        have h6 := hgood.optional x hx
        unfold Tuple.level at h6
        rw [h4, h5, if_neg (Nat.lt_irrefl _), if_neg (Nat.lt_irrefl _)] at h6
        omega
  have hl3 : l3.length = l2.length + 1 := hp3.length_eq
  refine ⟨l3, hs3, ?_, ?_⟩
  · rw [htup]
    refine hp3.trans (((hp2.trans (hp1.cons _)).cons _).trans ?_)
    have hrev : (ip.base.reverse ++ l).Perm (l ++ ip.base) :=
      ((reverse_perm _).append_right _).trans perm_append_comm
    exact hrev
  · unfold vnoGetacl
    dsimp only
    rw [htup, if_neg (by omega), if_neg (by omega), if_neg (by omega), hk']
    simp only [Inode.base, foldl_cons, foldl_nil]
    rw [h1]
    simp only [h2, h3, Option.or_none]
    rw [hl3, hl2, hl1, show nAclTuples - (l.length + 1 + 1 + 1) = k by omega]

/-! ### Runs -/

/-- After any sequence of `setacl`, `chown` and `chmod` whose calls meet the condition, the optional
entries are in order, every plain caller gets the mode that the rules define, and the list of a file
with an ordinary owner and group is read back as it should be. -/
theorem acl_ordered_and_evaluated : ∀ ip, (lts.restrict Cond).Reach ip →
    ip.Ordered ∧ (∀ c : Caller, c.Plain ip → igetAccess ip c = rules ip c) ∧
      (ip.uid < nsUser → ip.gid < nsGroup → ip.ReadsBack) := by
  intro ip hr
  have h : Inv ip := by
    refine hr.inv ?_ ?_
    · rintro ip ⟨h1, h2, h3⟩
      exact ⟨h1, h2, [], .inl ⟨h3, rfl⟩, Good.nil _ _⟩
    · rintro ip a ip' - hI ⟨hc, he, rfl⟩
      exact hI.next hc he
  obtain ⟨l, hst, hg⟩ := h.good
  have htup := hst.tuples hg.valid
  refine ⟨⟨?_, ?_⟩, fun c hc => h.igetAccess_eq_rules hc, h.reads_back⟩
  · rw [htup]
    exact hg.sorted
  · rw [htup]
    exact hst.length_le

/-- A file of user 5 gets three optional entries and then another owner. -/
def someCalls : List Act :=
  [.setacl (some [⟨7, nsGroup, 4⟩, ⟨nsUser, 30, 2⟩, ⟨8, 30, 1⟩, ⟨5, nsGroup, 6⟩]) 0xffff (some []),
    .chown 7 noChange true]

theorem acl_ordered_and_evaluated_chown : ∃ ip, (lts.restrict Cond).Reach ip ∧
    ip.tuples = [⟨8, 30, 1⟩, ⟨5, nsGroup, 6⟩, ⟨nsUser, 30, 2⟩] ∧ ip.Ordered ∧
      igetAccess ip ⟨9, 40, [30]⟩ = rules ip ⟨9, 40, [30]⟩ ∧ ip.ReadsBack := by
  have hrun : Lts.Follows (fun ip a => Cond ip a ∧ a.Enabled) Inode.next
      ⟨5, 20, 0o100644, none⟩ someCalls := by decide +kernel
  have hreach := Lts.Reach.follows (A := lts.restrict Cond)
    (.init ⟨by decide, by decide, rfl⟩) (fun ip a h => ⟨h.1, h.2, rfl⟩) hrun
  obtain ⟨h1, h2, h3⟩ := acl_ordered_and_evaluated _ hreach
  exact ⟨_, hreach, by decide +kernel, h1, h2 _ ⟨by decide +kernel, by decide +kernel⟩,
    h3 (by decide +kernel) (by decide +kernel)⟩

/-- The list of a file that the user -2 of the network file system owns is not read back: 65534 is
above the mark of an unused entry.  A caller gets the access of the owner when only the low 16 bits
of his id are the owner's. -/
theorem acl_nobody :
    (∃ ip, lts.Reach ip ∧ vnoGetacl ip 3 = .error .E2BIG ∧ ¬ip.ReadsBack) ∧
      ∃ ip c, lts.Reach ip ∧ igetAccess ip c = 7 ∧ rules ip c = 0 := by
  constructor
  · have hread : vnoGetacl ⟨65534, 20, 0o100644, none⟩ 3 = .error .E2BIG := by decide +kernel
    refine ⟨⟨65534, 20, 0o100644, none⟩, .init ⟨by decide, by decide, rfl⟩, hread, fun h => ?_⟩
    obtain ⟨l, -, -, h1⟩ := h 3 (by decide) (by decide)
    rw [hread] at h1
    cases h1
  · exact ⟨⟨5, 20, 0o100700, none⟩, ⟨65541, 30, []⟩, .init ⟨by decide, by decide, rfl⟩,
      by decide +kernel, by decide +kernel⟩

end Hpux.Acl
