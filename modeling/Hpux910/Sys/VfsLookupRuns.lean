import Hpux910.Sys.VfsLookup
import Mathlib

/-!
# Local pathname lookup against its meaning

* `Spells` : the text of a pathname, in its buffer.
* `pnGetcomponent_spec`, `pnSkipslash_spec`, `pnSet_spells`, `pnCombine_spells` : what the routines
  on pathnames do to the text; nothing is written outside a buffer.
* `Only` : the holds that the walk has added.
* `checkforroot_spec`, `mloop_spec`, `next_spec` : the two inner loops end where `Up` and `Down` say,
  and one turn of the outer loop is one turn of `Resolves`.
* `resolves_unique`, `lookuppn_resolves` : a pathname means one thing, and `lookuppn` finds it.
-/

namespace Hpux

namespace Namei

open List Option

/-! ### Texts in buffers -/

/-- A pathname has a text left. -/
structure Spells (pn : Pathname) (p : List UInt8) : Prop where
  buf : pn.pnBuf.length = MAXPATHLEN
  text : p <+: pn.pnBuf.drop pn.pnPath
  len : pn.pnPathlen = p.length
  inside : pn.pnPath + p.length ≤ MAXPATHLEN

variable {pn : Pathname}

theorem Pathname.Ok.spells (h : pn.Ok) : Spells pn pn.text := by
  have hlen : pn.text.length = pn.pnPathlen := by
    have := h.inside
    rw [text, length_take, length_drop, h.buf]
    omega
  exact ⟨h.buf, take_prefix _ _, hlen.symm, hlen ▸ h.inside⟩

theorem cons_prefix_drop {c : UInt8} {p buf : List UInt8} {i : ℕ} :
    c :: p <+: buf.drop i ↔ buf[i]? = some c ∧ p <+: buf.drop (i + 1) := by
  constructor
  · rintro ⟨s, hs⟩
    have h0 : (buf.drop i)[0]? = some c := by rw [← hs]; rfl
    have h1 : (buf.drop i).drop 1 = p ++ s := by rw [← hs]; rfl
    rw [getElem?_drop, Nat.add_zero] at h0
    rw [drop_drop] at h1
    exact ⟨h0, s, h1.symm⟩
  · rintro ⟨hc, s, hs⟩
    obtain ⟨hi, rfl⟩ := List.getElem?_eq_some_iff.1 hc
    exact ⟨s, by rw [List.drop_eq_getElem_cons hi, ← hs]; rfl⟩

theorem first_append_rest (p : List UInt8) : first p ++ rest p = p := takeWhile_append_dropWhile

theorem length_first_add (p : List UInt8) : (first p).length + (rest p).length = p.length := by
  rw [← length_append, first_append_rest]

theorem getcomponentLoop_spec {buf : List UInt8} (p : List UInt8) {cp n : ℕ} {component : List UInt8}
    (hp : p <+: buf.drop cp) (hn : component.length + n = MAXNAMLEN) :
    getcomponentLoop buf p.length cp n component =
      some (if (first p).length ≤ n then
        some (cp + (first p).length, (rest p).length, component ++ first p) else none) := by
  induction p generalizing cp n component with
  | nil =>
    simp [getcomponentLoop, first, rest]
  | cons c p ih =>
    obtain ⟨hc, hp⟩ := cons_prefix_drop.1 hp
    rw [length_cons, getcomponentLoop, hc]
    by_cases hs : c = slash
    · subst hs
      simp [first, rest]
    · have hf : first (c :: p) = c :: first p := by simp [first, hs]
      have hr : rest (c :: p) = rest p := by simp [rest, hs]
      rw [hf, hr]
      cases n with
      | zero => simp [hs]
      | succ n =>
        have hlen : component.length < MAXNAMLEN + 1 := by omega
        simp only [if_neg hs, if_pos hlen]
        rw [ih hp (by rw [length_append, length_singleton]; omega)]
        simp only [length_cons, Nat.add_le_add_iff_right, append_assoc, singleton_append]
        rw [Nat.add_right_comm cp 1, Nat.add_assoc cp]

/-- A component is taken off, unless it is too long. -/
theorem pnGetcomponent_spec {p : List UInt8} (h : Spells pn p) :
    (MAXNAMLEN < (first p).length ∧ pnGetcomponent pn = some none) ∨
      ((first p).length ≤ MAXNAMLEN ∧ ∃ pn', pnGetcomponent pn = some (some (pn', first p)) ∧ Spells pn' (rest p)) := by
  have hloop := @getcomponentLoop_spec pn.pnBuf p pn.pnPath MAXNAMLEN [] h.text rfl
  rw [pnGetcomponent, h.len, hloop]
  by_cases hle : (first p).length ≤ MAXNAMLEN
  · refine .inr ⟨hle, ⟨pn.pnBuf, pn.pnPath + (first p).length, (rest p).length⟩, ?_, h.buf, ?_, rfl, ?_⟩
    · simp only [if_pos hle, nil_append, if_pos (Nat.lt_succ_of_le hle)]
    · obtain ⟨s, hs⟩ := h.text
      refine ⟨s, ?_⟩
      have hdrop : (first p ++ rest p ++ s).drop (first p).length = rest p ++ s := by
        rw [append_assoc, drop_left]
      rw [first_append_rest] at hdrop
      rw [← drop_drop, ← hs, hdrop]
    · have := h.inside
      have := length_first_add p
      simp only
      omega
  · exact .inl ⟨Nat.lt_of_not_le hle, by rw [if_neg hle]⟩

theorem skipslashLoop_spec {buf : List UInt8} (p : List UInt8) {path : ℕ} (hp : p <+: buf.drop path) :
    ∃ path', skipslashLoop buf p.length path = some (path', (strip p).length) ∧ strip p <+: buf.drop path' ∧
      path' + (strip p).length = path + p.length := by
  induction p generalizing path with
  | nil => exact ⟨path, rfl, nil_prefix, rfl⟩
  | cons c p ih =>
    obtain ⟨hc, hp'⟩ := cons_prefix_drop.1 hp
    rw [length_cons, skipslashLoop, hc]
    by_cases hs : c = slash
    · obtain ⟨path', h1, h2, h3⟩ := ih hp'
      have hstrip : strip (c :: p) = strip p := by simp [strip, hs]
      rw [hstrip]
      exact ⟨path', by simp only [if_pos hs, h1], h2, by omega⟩
    · have hstrip : strip (c :: p) = c :: p := by simp [strip, hs]
      rw [hstrip]
      exact ⟨path, by simp only [if_neg hs, length_cons], hp, rfl⟩

theorem pnSkipslash_spec {p : List UInt8} (h : Spells pn p) :
    ∃ pn', pnSkipslash pn = some pn' ∧ Spells pn' (strip p) := by
  obtain ⟨path', h1, h2, h3⟩ := skipslashLoop_spec p h.text
  exact ⟨⟨pn.pnBuf, path', (strip p).length⟩, by rw [pnSkipslash, h.len, h1]; rfl, h.buf, h2, rfl,
    h3.trans_le h.inside⟩

theorem nfsStrncpy_spec (s : List UInt8) {s1 : List UInt8} {i n : ℕ} (hs : ∀ c ∈ s, c ≠ 0) (hn : s.length < n)
    (hi : i + n ≤ s1.length) :
    ∃ s1', nfsStrncpy s1 i s n = some (s1', i + s.length) ∧ s1'.length = s1.length ∧ s1'.take i = s1.take i ∧
      s <+: s1'.drop i := by
  induction s generalizing s1 i n with
  | nil =>
    obtain ⟨n, rfl⟩ : ∃ m, n = m + 1 := ⟨n - 1, by simp only [length_nil] at hn; omega⟩
    refine ⟨s1.set i 0, ?_, length_set, ?_, nil_prefix⟩
    · rw [nfsStrncpy, store, if_pos (by omega)]
      rfl
    · rw [take_set_of_le le_rfl]
  | cons c s ih =>
    obtain ⟨n, rfl⟩ : ∃ m, n = m + 1 := ⟨n - 1, by omega⟩
    rw [length_cons] at hn
    have hset : (s1.set i c).length = s1.length := length_set
    obtain ⟨s1', h1, h2, h3, h4⟩ := @ih (s1.set i c) (i + 1) n (fun d hd => hs d (mem_cons_of_mem _ hd))
      (by omega) (by omega)
    refine ⟨s1', ?_, h2.trans hset, ?_, cons_prefix_drop.2 ⟨?_, h4⟩⟩
    · rw [nfsStrncpy, store, if_pos (by omega), bind_some, if_neg (hs c mem_cons_self), h1,
        length_cons, Nat.add_right_comm, Nat.add_assoc]
    · have := congrArg (List.take i) h3
      rwa [take_take, take_take, Nat.min_eq_left (Nat.le_succ i), take_set_of_le le_rfl] at this
    · have hlt : i < (s1.set i c).length := by omega
      have h5 : (s1'.take (i + 1))[i]? = some c := by
        rw [h3, getElem?_take_of_lt (Nat.lt_succ_self i), getElem?_set_self (by omega)]
      rwa [getElem?_take_of_lt (Nat.lt_succ_self i)] at h5

theorem pnSet_spells {s : List UInt8} (hbuf : pn.pnBuf.length = MAXPATHLEN) (hs : ∀ c ∈ s, c ≠ 0)
    (hlen : s.length < MAXPATHLEN) : ∃ pn', pnSet pn s = some (pn', true) ∧ Spells pn' s ∧ pn'.pnPath = 0 := by
  obtain ⟨s1, h1, h2, -, h4⟩ := @nfsStrncpy_spec s pn.pnBuf 0 MAXPATHLEN hs hlen (by omega)
  rw [Nat.zero_add] at h1
  refine ⟨⟨s1, 0, s.length⟩, by rw [pnSet, h1]; simp [hlen], ⟨h2.trans hbuf, h4, rfl, ?_⟩, rfl⟩
  exact (Nat.zero_add _).trans_le hlen.le

theorem bcopy_spec {src dst : List UInt8} {i j n : ℕ} (hi : i + n ≤ src.length) (hj : j + n ≤ dst.length) :
    ∃ buf, bcopy src i dst j n = some buf ∧ buf.length = dst.length ∧
      buf.take (j + n) = dst.take j ++ (src.drop i).take n := by
  refine ⟨_, if_pos ⟨hi, hj⟩, ?_, ?_⟩
  · simp only [length_append, length_take, length_drop]
    omega
  · refine take_left' ?_
    simp only [length_append, length_take, length_drop]
    omega

/-- The second text is put before the first one, unless they are too long together. -/
theorem pnCombine_spells {pn link : Pathname} {p s : List UInt8} (h : Spells pn p) (hl : Spells link s)
    (h0 : link.pnPath = 0) : (MAXPATHLEN ≤ p.length + s.length ∧ pnCombine pn link = some none) ∨
      (p.length + s.length < MAXPATHLEN ∧ ∃ pn', pnCombine pn link = some (some pn') ∧ Spells pn' (s ++ p)) := by
  rw [pnCombine, h.len, hl.len, h0]
  by_cases hle : p.length + s.length ≥ MAXPATHLEN
  · exact .inl ⟨hle, if_pos hle⟩
  · rw [if_neg hle]
    have hp : (pn.pnBuf.drop pn.pnPath).take p.length = p := prefix_iff_eq_take.1 h.text |>.symm
    have hs : link.pnBuf.take s.length = s := by
      have := prefix_iff_eq_take.1 hl.text
      rw [h0, drop_zero] at this
      exact this.symm
    obtain ⟨symBuf, h1, h2, h3⟩ := @bcopy_spec pn.pnBuf link.pnBuf pn.pnPath s.length p.length
      (h.inside.trans_eq h.buf.symm)
      (by rw [hl.buf]; omega)
    obtain ⟨buf, h4, h5, h6⟩ := @bcopy_spec symBuf pn.pnBuf 0 0 (p.length + s.length)
      (by rw [h2, hl.buf]; omega) (by rw [h.buf]; omega)
    have htext : buf.take (p.length + s.length) = s ++ p := by
      rw [Nat.zero_add, take_zero, nil_append, drop_zero, Nat.add_comm p.length, h3, hs, hp] at h6
      rwa [Nat.add_comm] at h6
    have hlt : p.length + s.length < buf.length := by rw [h5, h.buf]; omega
    refine .inr ⟨by omega, ⟨buf.set (p.length + s.length) 0, 0, p.length + s.length⟩, ?_, ?_, ?_, ?_, ?_⟩
    · rw [h1, bind_some, h4, bind_some, store, if_pos hlt]
      rfl
    · exact length_set.trans (h5.trans h.buf)
    · rw [drop_zero, ← htext, ← take_set_of_le (le_refl (p.length + s.length))]
      exact take_prefix _ _
    · rw [length_append, Nat.add_comm]
    · rw [length_append]
      simp only
      omega

/-! ### Holds -/

section

variable {V : Type} [DecidableEq V] {w : World V} {base : V → ℕ} {k : Holds V} {v u : V} {l : List V}

/-- The holds that have been added are one on each vnode of a list. -/
def Only (base : V → ℕ) (k : Holds V) (l : List V) : Prop := ∀ v, k.vCount v = base v + l.count v

theorem Only.perm {l' : List V} (h : Only base k l) (hp : l.Perm l') : Only base k l' :=
  fun v => (h v).trans (by rw [hp.count_eq])

theorem Only.swap (h : Only base k [v, u]) : Only base k [u, v] := h.perm (List.Perm.swap _ _ _)

theorem Only.tick (h : Only base k l) : Only base k.tick l := h

theorem vnHold_vCount (k : Holds V) (v : V) :
    (vnHold k v).vCount = Function.update k.vCount v (k.vCount v + 1) := rfl

theorem Only.hold (h : Only base k l) (v : V) : Only base (vnHold k v) (v :: l) := by
  intro u
  by_cases huv : u = v
  · subst huv
    rw [vnHold_vCount, Function.update_self, h, count_cons_self, Nat.add_assoc]
  · rw [vnHold_vCount, Function.update_of_ne huv, h, count_cons_of_ne (Ne.symm huv)]

theorem Only.rele (h : Only base k (v :: l)) :
    ∃ k', vnRele k v = some k' ∧ Only base k' l ∧ k'.calls = k.calls := by
  have hv := h v
  rw [count_cons_self] at hv
  refine ⟨_, if_neg (by omega), fun u => ?_, rfl⟩
  show Function.update k.vCount v (k.vCount v - 1) u = _
  by_cases huv : u = v
  · subst huv
    rw [Function.update_self]
    omega
  · rw [Function.update_of_ne huv, h, count_cons_of_ne (Ne.symm huv)]

/-! ### Mounts upward and downward -/

/-- The loop at `checkforroot` ends in the directory that `..` is looked up in. -/
theorem checkforroot_spec {vp cvp : V} (h : Only base k [cvp, vp]) :
    ∃ N b u c k', (∀ n ≥ N, checkforroot w n vp cvp k = some (b, u, c, k')) ∧ Only base k' [c, u] ∧
      Up w vp cvp u c ∧ (b = true ↔ AtRoot w u) ∧ (b = true → c = u) ∧ k'.calls = k.calls := by
  induction hd : w.vVfsp vp using Nat.strong_induction_on generalizing vp cvp k with
  | _ d ih =>
    by_cases hroot : AtRoot w vp
    · obtain ⟨k', h1, h2, h3⟩ := h.rele
      refine ⟨1, true, vp, vp, vnHold k' vp, fun n hn => ?_, h2.hold vp, .root hroot, by simp [hroot], fun _ => rfl, h3⟩
      obtain ⟨n, rfl⟩ := Nat.exists_eq_add_of_le' hn
      rw [checkforroot, if_pos hroot, h1]
      rfl
    · by_cases hv : w.vroot vp = true
      · obtain ⟨k1, h1, h2, h3⟩ := h.rele
        have hlt := w.covered_lt vp hv fun hc => hroot (.inr hc)
        obtain ⟨N, b, u, c, k', h4, h5, h6, h7, h8, h9⟩ := ih _ (hd ▸ hlt)
          ((h2.hold (w.vnodecovered (w.vVfsp vp))).swap) rfl
        refine ⟨N + 1, b, u, c, k', fun n hn => ?_, h5, .covered hroot hv h6, h7, h8, h9.trans h3⟩
        obtain ⟨n, rfl⟩ := Nat.exists_eq_add_of_le' (le_trans (Nat.le_add_left 1 N) hn)
        rw [checkforroot, if_neg hroot, if_pos hv, h1]
        exact h4 n (by omega)
      · refine ⟨1, false, vp, cvp, k, fun n hn => ?_, h, .inside hroot (Bool.eq_false_iff.2 hv), by simp [hroot],
          nofun, rfl⟩
        obtain ⟨n, rfl⟩ := Nat.exists_eq_add_of_le' hn
        rw [checkforroot, if_neg hroot, if_neg hv]

/-- How the loop at `mloop` ends. -/
def ended (error : Option ℕ) (cvp : V) : Except ℕ V := error.elim (.ok cvp) .error

theorem mloop_succ (w : World V) (name : List UInt8) (n : ℕ) (cvp : V) (k : Holds V) :
    mloop w name (n + 1) cvp k = match w.mountedhere k.calls cvp with
      | none => some (none, cvp, k)
      | some vfsp =>
        if w.mlock k.calls vfsp then
          if w.intr k.calls then some (some EINTR, cvp, k.tick) else mloop w name n cvp k.tick
        else match w.vfsRoot k.calls vfsp name with
          | .error error => some (some error, cvp, k.tick)
          | .ok tvp => (vnRele (vnHold k.tick tvp) cvp).bind fun k => mloop w name n tvp k := rfl

/-- The loop at `mloop` ends on top of what is mounted, or with an error. -/
theorem mloop_spec (name : List UInt8) {vp cvp : V} (h : Only base k [cvp, vp]) :
    ∃ N e c k', (∀ n ≥ N, mloop w name n cvp k = some (e, c, k')) ∧ Only base k' [c, vp] ∧
      Down w name k.calls cvp k'.calls (ended e c) := by
  induction hd : w.mounts - w.vVfsp cvp using Nat.strong_induction_on generalizing cvp k with
  | _ d ih =>
    obtain ⟨t', ht', hfree⟩ := w.unlocked k.calls
    -- an inner induction on how long the file system may still be locked
    induction ha : t' - k.calls using Nat.strong_induction_on generalizing k with
    | _ a iha =>
      have hloop := fun n => mloop_succ w name n cvp k
      cases hm : w.mountedhere k.calls cvp with
      | none =>
        refine ⟨1, none, cvp, k, fun n hn => ?_, h, .stop hm⟩
        obtain ⟨n, rfl⟩ := Nat.exists_eq_add_of_le' hn
        rw [hloop, hm]
      | some m =>
        by_cases hlock : w.mlock k.calls m = true
        · by_cases hintr : w.intr k.calls = true
          · refine ⟨1, some EINTR, cvp, k.tick, fun n hn => ?_, h.tick, .intr hm hlock hintr⟩
            obtain ⟨n, rfl⟩ := Nat.exists_eq_add_of_le' hn
            rw [hloop, hm]
            simp only [if_pos hlock, if_pos hintr]
          · have hne : k.calls ≠ t' := by
              rintro heq
              rw [heq, hfree] at hlock
              cases hlock
            have hcalls : k.tick.calls = k.calls + 1 := rfl
            obtain ⟨N, e, c, k', h1, h2, h3⟩ := iha _ (by omega) h.tick (hcalls ▸ by omega) rfl
            refine ⟨N + 1, e, c, k', fun n hn => ?_, h2, .sleep hm hlock (Bool.eq_false_iff.2 hintr) h3⟩
            obtain ⟨n, rfl⟩ := Nat.exists_eq_add_of_le' (le_trans (Nat.le_add_left 1 N) hn)
            rw [hloop, hm]
            simp only [if_pos hlock, if_neg hintr]
            exact h1 n (by omega)
        · have hlock' : w.mlock k.calls m = false := Bool.eq_false_iff.2 hlock
          cases hans : w.vfsRoot k.calls m name with
          | error e =>
            refine ⟨1, some e, cvp, k.tick, fun n hn => ?_, h.tick, .fail hm hlock' hans⟩
            obtain ⟨n, rfl⟩ := Nat.exists_eq_add_of_le' hn
            rw [hloop, hm]
            simp only [if_neg hlock, hans]
          | ok tvp =>
            obtain ⟨k1, h1, h2, h3⟩ := ((h.tick.hold tvp).perm (List.Perm.swap _ _ _)).rele
            have hlt := w.mounted_lt _ _ _ hm
            have hin := w.root_in _ _ _ _ hans
            obtain ⟨N, e, c, k', h4, h5, h6⟩ := ih (w.mounts - w.vVfsp tvp) (by omega) h2 rfl
            rw [h3] at h6
            refine ⟨N + 1, e, c, k', fun n hn => ?_, h5, .cross hm hlock' hans h6⟩
            obtain ⟨n, rfl⟩ := Nat.exists_eq_add_of_le' (le_trans (Nat.le_add_left 1 N) hn)
            rw [hloop, hm]
            simp only [if_neg hlock, hans, h1, bind_some]
            exact h4 n (by omega)

/-! ### The exits -/

/-- At `bad` every hold is given back. -/
theorem bad_spec (pn : Pathname) {vp : V} (cvp : Option V) (error : ℕ) (h : Only base k (cvp.toList ++ [vp])) :
    ∃ k', bad pn vp cvp error k = some ⟨.error error, pn, k'⟩ ∧ Only base k' [] := by
  cases cvp with
  | none =>
    obtain ⟨k', h1, h2, -⟩ := Only.rele h
    exact ⟨k', by simp only [bad, bind_some, h1, map_some], h2⟩
  | some cvp =>
    obtain ⟨k1, h1, h2, -⟩ := Only.rele h
    obtain ⟨k', h3, h4, -⟩ := Only.rele h2
    exact ⟨k', by simp only [bad, h1, bind_some, h3, map_some], h4⟩

/-- What has come of a component. -/
def Took (w : World V) (want : Want) (base : V → ℕ) (p : List UInt8) (l : ℕ) (u : V) (t : ℕ) (hit : Hit V) :
    St V ⊕ Ret V → Prop
  | .inl s => ∃ p', turn w want.followlink p l u t hit = .inr (s.vp, p', s.nlink, s.holds.calls) ∧
      Spells s.pn p' ∧ Only base s.holds [s.vp]
  | .inr r => ∃ o, turn w want.followlink p l u t hit = .inl o ∧ r.result = answer want o ∧
      Only base r.holds (handed r.result)

variable {want : Want} {p component : List UInt8} {pn : Pathname} {l : ℕ} {vp cvp : V} {hit : Hit V}

theorem Took.error {r : Ret V} {t e : ℕ} (hturn : turn w want.followlink p l vp t hit = .inl (.error e))
    (hr : r.result = .error e) (h : Only base r.holds []) : Took w want base p l vp t hit (.inr r) :=
  ⟨_, hturn, hr, by rw [hr]; exact h⟩

theorem skip_spec (want : Want) (hit : Hit V) (hpn : Spells pn (rest p)) (hc : ∀ c ∈ component, c ≠ 0) (hlen : component.length < MAXPATHLEN)
    (h : Only base k [cvp, vp]) (hturn : turn w want.followlink p l vp k.calls hit =
      if strip (rest p) = [] then .inl (.entry vp cvp) else .inr (cvp, strip (rest p), l, k.calls)) :
    ∃ x, skip want component pn vp cvp l k = some x ∧ Took w want base p l vp k.calls hit x := by
  obtain ⟨pn1, h1, h2⟩ := pnSkipslash_spec hpn
  rw [skip, h1, bind_some, h2.len]
  by_cases hend : strip (rest p) = []
  · obtain ⟨pn2, h3, -, -⟩ := pnSet_spells h2.buf hc hlen
    rw [if_pos hend] at hturn
    rw [if_pos (length_eq_zero_iff.2 hend), h3, bind_some]
    have hk1 : ∃ k1, (if want.dirvpp then some k else vnRele k vp) = some k1 ∧
        Only base k1 (cvp :: (if want.dirvpp then some vp else none).toList) := by
      cases want.dirvpp with
      | true => exact ⟨k, rfl, h⟩
      | false =>
        obtain ⟨k1, h4, h5, -⟩ := h.swap.rele
        exact ⟨k1, h4, h5⟩
    obtain ⟨k1, h4, h5⟩ := hk1
    have hk2 : ∃ k2, (if want.compvpp then some k1 else vnRele k1 cvp) = some k2 ∧
        Only base k2 ((if want.dirvpp then some vp else none).toList ++ (if want.compvpp then some cvp else none).toList) := by
      cases want.compvpp with
      | true => exact ⟨k1, rfl, h5.perm (perm_append_singleton _ _).symm⟩
      | false =>
        obtain ⟨k2, h6, h7, -⟩ := h5.rele
        exact ⟨k2, h6, h7.perm (by simp)⟩
    obtain ⟨k2, h6, h7⟩ := hk2
    rw [h4, bind_some, h6]
    exact ⟨_, rfl, _, hturn, rfl, h7⟩
  · obtain ⟨k1, h4, h5, h6⟩ := h.swap.rele
    rw [if_neg hend] at hturn
    rw [if_neg (mt length_eq_zero_iff.1 hend), h4]
    exact ⟨_, rfl, _, h6 ▸ hturn, h2, h5⟩

theorem lookupFailed_spec (want : Want) (error : ℕ) (hpn : Spells pn (rest p)) (hc : ∀ c ∈ component, c ≠ 0)
    (hlen : component.length < MAXPATHLEN) (h : Only base k [vp]) (t : ℕ) :
    ∃ r, lookupFailed want component pn vp error k = some r ∧
      Took w want base p l vp t (.missing error) (.inr r) := by
  obtain ⟨pn1, h1, h2⟩ := pnSkipslash_spec hpn
  rw [lookupFailed, h1, bind_some, h2.len]
  by_cases hend : strip (rest p) = []
  · have hturn : turn w want.followlink p l vp t (.missing error) = .inl (.missing vp error) := if_pos hend
    by_cases hbad : want.dirvpp = false ∨ error = EACCES
    · obtain ⟨k', h3, h4⟩ := bad_spec pn1 none error h
      have hans : answer want (.missing vp error) = .error error := if_pos hbad
      rw [if_pos (.inr hbad), h3]
      exact ⟨_, rfl, _, hturn, hans.symm, h4⟩
    · obtain ⟨pn2, h3, -, -⟩ := pnSet_spells h2.buf hc hlen
      have hans : answer want (.missing vp error) = .ok ⟨some vp, none⟩ := if_neg hbad
      rw [if_neg (not_or.2 ⟨not_not.2 (length_eq_zero_iff.2 hend), hbad⟩), h3]
      exact ⟨_, rfl, _, hturn, hans.symm, h⟩
  · obtain ⟨k', h3, h4⟩ := bad_spec pn1 none error h
    rw [if_pos (.inl (mt length_eq_zero_iff.1 hend)), h3]
    exact ⟨_, rfl, Took.error (if_neg hend) rfl h4⟩

/-- A path that starts with a slash starts at the root. -/
theorem rootcheck_spec {q : List UInt8} (hpn : Spells pn q) (h : Only base k [vp]) :
    ∃ pn' k', rootcheck w pn vp k = some (pn', origin w vp q, k') ∧ Spells pn' (strip q) ∧
      Only base k' [origin w vp q] ∧ k'.calls = k.calls := by
  cases q with
  | nil =>
    have hlen : ¬ pn.pnPathlen > 0 := by rw [hpn.len]; exact Nat.lt_irrefl 0
    exact ⟨pn, k, by rw [rootcheck, if_neg fun hc => hlen hc.1, if_neg fun hc => hlen hc.1]; rfl, hpn, h, rfl⟩
  | cons c q =>
    have hlen : pn.pnPathlen > 0 := by rw [hpn.len]; exact Nat.succ_pos _
    have hget := (cons_prefix_drop.1 hpn.text).1
    by_cases hs : c = slash
    · subst hs
      obtain ⟨k1, h1, h2, h3⟩ := h.rele
      obtain ⟨pn1, h4, h5⟩ := pnSkipslash_spec hpn
      rw [rootcheck, if_pos ⟨hlen, hget⟩, h1, bind_some, h4]
      exact ⟨pn1, _, rfl, h5, h2.hold _, h3⟩
    · have hstrip : strip (c :: q) = c :: q := by simp [strip, hs]
      have horigin : origin w vp (c :: q) = vp := by simp [origin, hs]
      rw [rootcheck, if_neg fun hc => hs (Option.some.inj (hget.symm.trans hc.2)), if_neg fun hc => by
        rw [hget] at hc; cases hc.2]
      rw [hstrip, horigin]
      exact ⟨pn, k, rfl, hpn, h, rfl⟩

theorem linkpath_spec {text : List UInt8} (hlen : text.length ≤ MAXPATHLEN) :
    ∃ link, linkpath text = some link ∧ Spells link text ∧ link.pnPath = 0 := by
  obtain ⟨buf, h1, h2, h3⟩ := @bcopy_spec text (List.replicate MAXPATHLEN 0) 0 0 text.length (by omega)
    (by rw [length_replicate]; omega)
  rw [Nat.zero_add, take_zero, nil_append, drop_zero, take_length] at h3
  refine ⟨⟨buf, 0, text.length⟩, by rw [linkpath, h1]; rfl, ⟨h2.trans length_replicate, ?_, rfl, ?_⟩, rfl⟩
  · rw [drop_zero, ← h3]
    exact take_prefix _ _
  · exact (Nat.zero_add _).trans_le hlen

theorem linkText_spec {link : Pathname} {text : List UInt8} (hl : Spells link text) (h0 : link.pnPath = 0) :
    ∃ link', (if link.pnPathlen = 0 then (pnSet link [dot]).map Prod.fst else some link) = some link' ∧
      Spells link' (linkText text) ∧ link'.pnPath = 0 := by
  by_cases hempty : text = []
  · obtain ⟨link', h1, h2, h3⟩ := pnSet_spells hl.buf (s := [dot]) (by simp [dot]) (by decide)
    rw [hl.len, if_pos (length_eq_zero_iff.2 hempty), h1, linkText, if_pos hempty]
    exact ⟨link', rfl, h2, h3⟩
  · rw [hl.len, if_neg (mt length_eq_zero_iff.1 hempty), linkText, if_neg hempty]
    exact ⟨link, rfl, hl, h0⟩

theorem followLink_spec (hpn : Spells pn (rest p)) (h : Only base k [cvp, vp])
    (hlink : w.vType cvp = .vlnk ∧ (want.followlink = true ∨ rest p ≠ [])) :
    ∃ x, followLink w pn vp cvp l k = some x ∧ Took w want base p l vp k.calls (.reaches cvp) x := by
  rw [followLink]
  by_cases hmax : MAXSYMLINKS ≤ l
  · obtain ⟨k', h1, h2⟩ := bad_spec pn (some cvp) ELOOP h
    rw [if_pos (Nat.lt_succ_of_le hmax), h1]
    exact ⟨_, rfl, Took.error (by rw [turn, if_pos hlink, if_pos hmax]) rfl h2⟩
  · rw [if_neg (by omega)]
    cases hread : w.vopReadlink k.calls cvp with
    | error e =>
      obtain ⟨k', h1, h2⟩ := bad_spec pn (some cvp) e h.tick
      simp only [h1]
      exact ⟨_, rfl, Took.error (by rw [turn, if_pos hlink, if_neg hmax, hread]) rfl h2⟩
    | ok text =>
      obtain ⟨link, h1, h2, h3⟩ := linkpath_spec (w.text_le _ _ _ hread)
      obtain ⟨link', h4, h5, h6⟩ := linkText_spec h2 h3
      simp only [h1, bind_some, h4]
      rcases pnCombine_spells hpn h5 h6 with ⟨hlong, h7⟩ | ⟨hshort, pn', h7, h8⟩
      · obtain ⟨k', h9, h10⟩ := bad_spec pn (some cvp) ENAMETOOLONG h.tick
        rw [h7, bind_some]
        simp only [h9]
        exact ⟨_, rfl, Took.error (by rw [turn, if_pos hlink, if_neg hmax, hread]; exact if_pos hlong) rfl h10⟩
      · obtain ⟨k1, h9, h10, h11⟩ := h.tick.rele
        obtain ⟨pn2, k2, h12, h13, h14, h15⟩ := rootcheck_spec (w := w) h8 h10
        rw [h7, bind_some]
        simp only [h9, bind_some, h12]
        refine ⟨_, rfl, _, ?_, h13, h14⟩
        rw [turn, if_pos hlink, if_neg hmax, hread]
        simp only [if_neg (Nat.not_le.2 hshort), h15, h11]
        rfl

/-! ### One component -/

theorem lookup_spec (want : Want) {d c : V} (hpn : Spells pn (rest p)) (hc : ∀ x ∈ component, x ≠ 0)
    (hlen : component.length < MAXPATHLEN) (hlooked : Looked w component d vp c) (h : Only base k [c, vp]) :
    ∃ N x, (∀ n ≥ N, lookup w want n component pn vp c l k = some x) ∧
      ∃ t' hit, Entry w component d k.calls vp t' hit ∧ Took w want base p l vp t' hit x := by
  cases hans : w.vopLookup k.calls vp component c with
  | error e =>
    obtain ⟨k1, h1, h2, -⟩ := h.tick.rele
    obtain ⟨r, h3, h4⟩ := lookupFailed_spec (l := l) (w := w) want e hpn hc hlen h2 (k.calls + 1)
    refine ⟨0, .inr r, fun n _ => ?_, _, _, .missing hlooked hans, h4⟩
    simp only [lookup, hans, h1, bind_some, h3, map_some]
  | ok tvp =>
    obtain ⟨k1, h1, h2, h3⟩ := ((h.tick.hold tvp).perm (List.Perm.swap _ _ _)).rele
    obtain ⟨N, e, c', k2, h4, h5, h6⟩ := mloop_spec (w := w) component h2
    rw [h3] at h6
    cases e with
    | some e =>
      obtain ⟨k3, h7, h8⟩ := bad_spec pn (some c') e h5
      refine ⟨N, .inr ⟨.error e, pn, k3⟩, fun n hn => ?_, _, _, .fails hlooked hans h6, Took.error rfl rfl h8⟩
      simp only [lookup, hans, h1, bind_some, h4 n hn, h7, map_some]
    | none =>
      have hleft : pn.pnPathlen ≠ 0 ↔ rest p ≠ [] := by rw [hpn.len, Ne, length_eq_zero_iff]
      by_cases hlink : w.vType c' = .vlnk ∧ (want.followlink = true ∨ rest p ≠ [])
      · obtain ⟨x, h7, h8⟩ := followLink_spec (l := l) hpn h5 hlink
        refine ⟨N, x, fun n hn => ?_, _, _, .reaches hlooked hans h6, h8⟩
        simp only [lookup, hans, h1, bind_some, h4 n hn, hleft, if_pos hlink, h7]
      · obtain ⟨x, h7, h8⟩ := skip_spec (w := w) (l := l) want (.reaches c') hpn hc hlen h5 <| by
          rw [turn, if_neg hlink]
        refine ⟨N, x, fun n hn => ?_, _, _, .reaches hlooked hans h6, h8⟩
        simp only [lookup, hans, h1, bind_some, h4 n hn, hleft, if_neg hlink, h7]

theorem length_strip_le (q : List UInt8) : (strip q).length ≤ q.length := length_dropWhile_le _ _

omit [DecidableEq V] in
/-- A turn uses up the path, or one of the links. -/
theorem turn_lt {fl : Bool} {t t' l' : ℕ} {p' : List UInt8} {d' : V} (hname : name p ≠ [])
    (h : turn w fl p l u t hit = .inr (d', p', l', t')) :
    (l' = l ∧ p'.length < p.length) ∨ (l' = l + 1 ∧ l < MAXSYMLINKS) := by
  have hfirst : 0 < (first p).length := by
    refine length_pos_iff.2 fun hc => hname ?_
    rw [name, hc]
    rfl
  have hlt : (strip (rest p)).length < p.length := by
    have := length_strip_le (rest p)
    have := length_first_add p
    omega
  have honward : ∀ {o : Denotes V} {v : V}, (if strip (rest p) = [] then Sum.inl o else
      .inr (v, strip (rest p), l, t)) = .inr (d', p', l', t') → l' = l ∧ p'.length < p.length := by
    intro o v hv
    split_ifs at hv
    cases hv
    exact ⟨rfl, hlt⟩
  cases hit with
  | missing e =>
    rw [turn] at h
    split_ifs at h
  | fails e => cases h
  | stays => exact .inl (honward h)
  | reaches v =>
    rw [turn] at h
    split_ifs at h with h1 h2 h3
    · cases hread : w.vopReadlink t v with
      | error e =>
        rw [hread] at h
        cases h
      | ok text =>
        rw [hread] at h
        simp only at h
        split_ifs at h
        cases h
        exact .inr ⟨rfl, Nat.lt_of_not_le h2⟩
    · cases h
      exact .inl ⟨rfl, hlt⟩

/-- What has come of one turn of the outer loop. -/
def Turned (w : World V) (want : Want) (base : V → ℕ) (p : List UInt8) (s : St V) : St V ⊕ Ret V → Prop
  | .inl s' => ∃ p', Spells s'.pn p' ∧ Only base s'.holds [s'.vp] ∧
      ((s'.nlink = s.nlink ∧ p'.length < p.length) ∨ (s'.nlink = s.nlink + 1 ∧ s.nlink < MAXSYMLINKS)) ∧
      ∀ o, Resolves w want.followlink s'.vp p' s'.nlink s'.holds.calls o →
        Resolves w want.followlink s.vp p s.nlink s.holds.calls o
  | .inr r => ∃ o, Resolves w want.followlink s.vp p s.nlink s.holds.calls o ∧ r.result = answer want o ∧
      Only base r.holds (handed r.result)

variable {s : St V}

theorem Took.turned {x : St V ⊕ Ret V} {t' : ℕ} (hs : Searchable w s.vp)
    (hle : (first p).length ≤ MAXNAMLEN) (hname : name p ≠ [])
    (hentry : Entry w (name p) s.vp s.holds.calls u t' hit) (h : Took w want base p s.nlink u t' hit x) :
    Turned w want base p s x := by
  cases x with
  | inl s' =>
    obtain ⟨p', hturn, hpn, hholds⟩ := h
    exact ⟨p', hpn, hholds, turn_lt hname hturn, fun o ho => .more hs hle hname hentry hturn ho⟩
  | inr r =>
    obtain ⟨o, hturn, hr, hholds⟩ := h
    exact ⟨o, .last hs hle hname hentry hturn, hr, hholds⟩

theorem ne_zero_of_mem_cstr {q : List UInt8} : ∀ c ∈ cstr q, c ≠ 0 := fun c hc => by
  simpa using mem_takeWhile_imp hc

theorem Turned.ret (pn : Pathname) (k : Holds V) {o : Denotes V} {e : Except ℕ (Found V)}
    (hnext : ∀ n, next w want n s = some (.inr ⟨e, pn, k⟩))
    (ho : Resolves w want.followlink s.vp p s.nlink s.holds.calls o) (he : e = answer want o)
    (h : Only base k (handed e)) : ∃ N x, (∀ n ≥ N, next w want n s = some x) ∧ Turned w want base p s x :=
  ⟨0, .inr ⟨e, pn, k⟩, fun n _ => hnext n, o, ho, he, h⟩

/-- The path is at its end: it means the directory itself. -/
theorem next_self (h : Only base s.holds [s.vp]) (hs : Searchable w s.vp) (hpn : Spells pn (rest p))
    (hle : (first p).length ≤ MAXNAMLEN) (hname : name p = []) (hnext : ∀ n, next w want n s =
      if want.dirvpp then (vnRele s.holds s.vp).map fun k => .inr ⟨.error EISDIR, pn, k⟩
      else (pnSet pn [dot]).bind fun pn =>
        (if want.compvpp then some s.holds else vnRele s.holds s.vp).map fun k =>
          .inr ⟨.ok ⟨none, if want.compvpp then some s.vp else none⟩, pn.1, k⟩) :
    ∃ N x, (∀ n ≥ N, next w want n s = some x) ∧ Turned w want base p s x := by
  obtain ⟨k1, h1, h2, -⟩ := h.rele
  by_cases hdir : want.dirvpp = true
  · have hans : answer want (.self s.vp) = .error EISDIR := if_pos hdir
    exact Turned.ret pn k1 (fun n => by rw [hnext, if_pos hdir, h1]; rfl) (.self hs hle hname) hans.symm h2
  · have hans : answer want (.self s.vp) = .ok ⟨none, if want.compvpp then some s.vp else none⟩ := if_neg hdir
    obtain ⟨pn2, h3, -, -⟩ := pnSet_spells hpn.buf (s := [dot]) (by simp [dot]) (by decide)
    by_cases hcomp : want.compvpp = true
    · refine Turned.ret pn2 s.holds (fun n => ?_) (.self hs hle hname) hans.symm ?_
      · rw [hnext, if_neg hdir, h3, bind_some]
        simp only [if_pos hcomp, map_some]
      · rw [if_pos hcomp]
        exact h
    · refine Turned.ret pn2 k1 (fun n => ?_) (.self hs hle hname) hans.symm ?_
      · rw [hnext, if_neg hdir, h3, bind_some]
        simp only [if_neg hcomp, h1, map_some]
      · rw [if_neg hcomp]
        exact h2

theorem next_turn (want : Want) {pn1 : Pathname} {n : ℕ} (hdir : ¬(w.vType s.vp ≠ .vdir ∧ w.vnfs s.vp = false))
    (h1 : pnGetcomponent s.pn = some (some (pn1, first p))) (hname : name p ≠ []) : next w want n s =
      (if isParentDir (name p) then checkforroot w n s.vp s.vp (vnHold s.holds s.vp)
        else some (false, s.vp, s.vp, vnHold s.holds s.vp)).bind fun
      | (true, vp, cvp, k) => skip want (name p) pn1 vp cvp s.nlink k
      | (false, vp, cvp, k) => lookup w want n (name p) pn1 vp cvp s.nlink k := by
  rw [next, if_neg hdir, h1, bind_some]
  exact if_neg hname

/-- One turn of the outer loop. -/
theorem next_spec (want : Want) (hpn : Spells s.pn p) (h : Only base s.holds [s.vp]) :
    ∃ N x, (∀ n ≥ N, next w want n s = some x) ∧ Turned w want base p s x := by
  by_cases hdir : w.vType s.vp ≠ .vdir ∧ w.vnfs s.vp = false
  · obtain ⟨k', h1, h2⟩ := bad_spec s.pn none ENOTDIR h
    have hns : ¬ Searchable w s.vp := fun hc => hc.elim hdir.1 fun hn => by rw [hdir.2] at hn; cases hn
    exact Turned.ret s.pn k' (fun n => by rw [next, if_pos hdir, h1]; rfl) (.notDir hns) rfl h2
  · have hs : Searchable w s.vp := by
      by_cases hv : w.vType s.vp = .vdir
      · exact .inl hv
      · exact .inr (by simpa [hv] using hdir)
    rcases pnGetcomponent_spec hpn with ⟨hlong, h1⟩ | ⟨hle, pn1, h1, h2⟩
    · obtain ⟨k', h3, h4⟩ := bad_spec s.pn none ENAMETOOLONG h
      refine Turned.ret s.pn k' (fun n => ?_) (.tooLong hs hlong) rfl h4
      rw [next, if_neg hdir, h1, bind_some]
      simp only [h3, map_some]
      rfl
    · by_cases hname : name p = []
      · refine next_self h hs h2 hle hname fun n => ?_
        rw [next, if_neg hdir, h1, bind_some]
        exact if_pos hname
      · have hc : ∀ x ∈ name p, x ≠ 0 := ne_zero_of_mem_cstr
        have hlen : (name p).length < MAXPATHLEN := by
          have : (name p).length ≤ (first p).length := (takeWhile_sublist _).length_le
          unfold MAXNAMLEN at hle
          unfold MAXPATHLEN
          omega
        have hnext := fun n => next_turn (n := n) want hdir h1 hname
        by_cases hpar : isParentDir (name p) = true
        · obtain ⟨N, b, u, c, k1, h3, h4, h5, h6, h7, h8⟩ := checkforroot_spec (w := w) (h.hold s.vp)
          rw [show (vnHold s.holds s.vp).calls = s.holds.calls from rfl] at h8
          cases b with
          | true =>
            obtain rfl := h7 rfl
            obtain ⟨x, h9, h10⟩ := skip_spec (w := w) (l := s.nlink) want .stays h2 hc hlen h4 rfl
            refine ⟨N, x, fun n hn => ?_, h10.turned hs hle hname (h8 ▸ .stays hpar h5 (h6.1 rfl))⟩
            rw [hnext, if_pos hpar, h3 n hn]
            exact h9
          | false =>
            have hlooked : Looked w (name p) s.vp u c := by
              rw [Looked, if_pos hpar]
              exact ⟨h5, fun hr => by cases h6.2 hr⟩
            obtain ⟨N', x, h9, t', hit, h10, h11⟩ := lookup_spec (l := s.nlink) want h2 hc hlen hlooked h4
            refine ⟨max N N', x, fun n hn => ?_, h11.turned hs hle hname (h8 ▸ h10)⟩
            rw [hnext, if_pos hpar, h3 n (by omega)]
            exact h9 n (by omega)
        · have hlooked : Looked w (name p) s.vp s.vp s.vp := by
            rw [Looked, if_neg hpar]
            exact ⟨rfl, rfl⟩
          obtain ⟨N', x, h9, t', hit, h10, h11⟩ :=
            lookup_spec (l := s.nlink) want h2 hc hlen hlooked (h.hold s.vp)
          refine ⟨N', x, fun n hn => ?_, h11.turned hs hle hname h10⟩
          rw [hnext, if_neg hpar]
          exact h9 n hn

/-! ### The whole walk -/

theorem locallookuppn_spec (want : Want) (hpn : Spells s.pn p) (h : Only base s.holds [s.vp]) :
    ∃ N r o, (∀ n ≥ N, locallookuppn w want n s = some r) ∧
      Resolves w want.followlink s.vp p s.nlink s.holds.calls o ∧ r.result = answer want o ∧
      Only base r.holds (handed r.result) := by
  -- the links that may still be followed, and for the same number of them the length of the path
  induction hd : MAXSYMLINKS - s.nlink using Nat.strong_induction_on generalizing s p with
  | _ d ihd =>
    induction hq : p.length using Nat.strong_induction_on generalizing s p with
    | _ q ihq =>
      have hloop : ∀ n, locallookuppn w want (n + 1) s = (next w want n s).bind fun
          | .inl s => locallookuppn w want n s
          | .inr r => some r := fun n => rfl
      obtain ⟨N, x, h1, h2⟩ := next_spec (w := w) want hpn h
      cases x with
      | inr r =>
        obtain ⟨o, h3, h4, h5⟩ := h2
        refine ⟨N + 1, r, o, fun n hn => ?_, h3, h4, h5⟩
        obtain ⟨n, rfl⟩ := Nat.exists_eq_add_of_le' (le_trans (Nat.le_add_left 1 N) hn)
        rw [hloop, h1 n (by omega)]
        rfl
      | inl s' =>
        obtain ⟨p', h3, h4, h5, h6⟩ := h2
        have hrun : ∃ N' r o, (∀ n ≥ N', locallookuppn w want n s' = some r) ∧
            Resolves w want.followlink s'.vp p' s'.nlink s'.holds.calls o ∧ r.result = answer want o ∧
            Only base r.holds (handed r.result) := by
          rcases h5 with ⟨hl, hlt⟩ | ⟨hl, hlt⟩
          · exact ihq p'.length (hq ▸ hlt) h3 h4 (by rw [hl, hd]) rfl
          · exact ihd (MAXSYMLINKS - s'.nlink) (by omega) h3 h4 rfl
        obtain ⟨N', r, o, h7, h8, h9, h10⟩ := hrun
        refine ⟨max N N' + 1, r, o, fun n hn => ?_, h6 o h8, h9, h10⟩
        obtain ⟨n, rfl⟩ := Nat.exists_eq_add_of_le' (le_trans (Nat.le_add_left 1 _) hn)
        rw [hloop, h1 n (by omega)]
        exact h7 n (by omega)

/-! ### One meaning -/

omit [DecidableEq V] in
theorem Up.unique {v c u₁ c₁ u₂ c₂ : V} (h₁ : Up w v c u₁ c₁) (h₂ : Up w v c u₂ c₂) : u₁ = u₂ ∧ c₁ = c₂ := by
  induction h₁ with
  | root hr =>
    cases h₂ with
    | root => exact ⟨rfl, rfl⟩
    | inside hn => exact absurd hr hn
    | covered hn => exact absurd hr hn
  | inside hn hv =>
    cases h₂ with
    | root hr => exact absurd hr hn
    | inside => exact ⟨rfl, rfl⟩
    | covered _ hv' => rw [hv] at hv'; cases hv'
  | covered hn hv _ ih =>
    cases h₂ with
    | root hr => exact absurd hr hn
    | inside _ hv' => rw [hv] at hv'; cases hv'
    | covered _ _ h => exact ih h

variable {name : List UInt8}

omit [DecidableEq V] in
theorem Down.unique {t t₁ t₂ : ℕ} {v : V} {r₁ r₂ : Except ℕ V} (h₁ : Down w name t v t₁ r₁)
    (h₂ : Down w name t v t₂ r₂) : t₁ = t₂ ∧ r₁ = r₂ := by
  induction h₁ with
  | stop hm => cases h₂ <;> simp_all
  | sleep hm hl hi _ ih =>
    cases h₂ with
    | sleep _ _ _ h => exact ih h
    | _ => simp_all
  | intr hm hl hi => cases h₂ <;> simp_all
  | fail hm hl he => cases h₂ <;> simp_all
  | cross hm hl he _ ih =>
    cases h₂ with
    | cross hm' _ he' h =>
      obtain rfl := Option.some.inj (hm.symm.trans hm')
      obtain rfl := Except.ok.inj (he.symm.trans he')
      exact ih h
    | _ => simp_all

omit [DecidableEq V] in
theorem Looked.unique {d u₁ c₁ u₂ c₂ : V} (h₁ : Looked w name d u₁ c₁)
    (h₂ : Looked w name d u₂ c₂) : u₁ = u₂ ∧ c₁ = c₂ := by
  by_cases hpar : isParentDir name = true
  · rw [Looked, if_pos hpar] at h₁ h₂
    exact h₁.1.unique h₂.1
  · rw [Looked, if_neg hpar] at h₁ h₂
    exact ⟨h₁.1.trans h₂.1.symm, h₁.2.trans h₂.2.symm⟩

omit [DecidableEq V] in
theorem Looked.not_stays {d u₁ c₁ u₂ c₂ : V} (h₁ : Looked w name d u₁ c₁)
    (hpar : isParentDir name = true) (h₂ : Up w d d u₂ c₂) : ¬ AtRoot w u₂ := by
  rw [Looked, if_pos hpar] at h₁
  exact (h₁.1.unique h₂).1 ▸ h₁.2

omit [DecidableEq V] in
theorem Entry.unique {d u₁ u₂ : V} {t t₁ t₂ : ℕ} {hit₁ hit₂ : Hit V}
    (h₁ : Entry w name d t u₁ t₁ hit₁) (h₂ : Entry w name d t u₂ t₂ hit₂) :
    u₁ = u₂ ∧ t₁ = t₂ ∧ hit₁ = hit₂ := by
  cases h₁ with
  | stays hpar hup hroot =>
    cases h₂ with
    | stays _ hup' => exact ⟨(hup.unique hup').1, rfl, rfl⟩
    | missing hl => exact absurd hroot (hl.not_stays hpar hup)
    | fails hl => exact absurd hroot (hl.not_stays hpar hup)
    | reaches hl => exact absurd hroot (hl.not_stays hpar hup)
  | missing hl he =>
    cases h₂ with
    | stays hpar hup hroot => exact absurd hroot (hl.not_stays hpar hup)
    | missing hl' he' =>
      obtain ⟨rfl, rfl⟩ := hl.unique hl'
      obtain rfl := Except.error.inj (he.symm.trans he')
      exact ⟨rfl, rfl, rfl⟩
    | fails hl' he' =>
      obtain ⟨rfl, rfl⟩ := hl.unique hl'
      cases he.symm.trans he'
    | reaches hl' he' =>
      obtain ⟨rfl, rfl⟩ := hl.unique hl'
      cases he.symm.trans he'
  | fails hl he hd =>
    cases h₂ with
    | stays hpar hup hroot => exact absurd hroot (hl.not_stays hpar hup)
    | missing hl' he' =>
      obtain ⟨rfl, rfl⟩ := hl.unique hl'
      cases he.symm.trans he'
    | fails hl' he' hd' =>
      obtain ⟨rfl, rfl⟩ := hl.unique hl'
      obtain rfl := Except.ok.inj (he.symm.trans he')
      obtain ⟨rfl, he⟩ := hd.unique hd'
      exact ⟨rfl, rfl, congrArg Hit.fails (Except.error.inj he)⟩
    | reaches hl' he' hd' =>
      obtain ⟨rfl, rfl⟩ := hl.unique hl'
      obtain rfl := Except.ok.inj (he.symm.trans he')
      cases (hd.unique hd').2
  | reaches hl he hd =>
    cases h₂ with
    | stays hpar hup hroot => exact absurd hroot (hl.not_stays hpar hup)
    | missing hl' he' =>
      obtain ⟨rfl, rfl⟩ := hl.unique hl'
      cases he.symm.trans he'
    | fails hl' he' hd' =>
      obtain ⟨rfl, rfl⟩ := hl.unique hl'
      obtain rfl := Except.ok.inj (he.symm.trans he')
      cases (hd.unique hd').2
    | reaches hl' he' hd' =>
      obtain ⟨rfl, rfl⟩ := hl.unique hl'
      obtain rfl := Except.ok.inj (he.symm.trans he')
      obtain ⟨rfl, he⟩ := hd.unique hd'
      exact ⟨rfl, rfl, congrArg Hit.reaches (Except.ok.inj he)⟩

omit [DecidableEq V] in
/-- A pathname means one thing. -/
theorem Resolves.unique {fl : Bool} {d : V} {t : ℕ} {o₁ o₂ : Denotes V} (h₁ : Resolves w fl d p l t o₁)
    (h₂ : Resolves w fl d p l t o₂) : o₁ = o₂ := by
  induction h₁ with
  | notDir hs =>
    cases h₂ with
    | notDir => rfl
    | tooLong hs' => exact absurd hs' hs
    | self hs' => exact absurd hs' hs
    | last hs' => exact absurd hs' hs
    | more hs' => exact absurd hs' hs
  | tooLong hs hlong =>
    cases h₂ with
    | notDir hs' => exact absurd hs hs'
    | tooLong => rfl
    | self _ hle => exact absurd hlong (Nat.not_lt.2 hle)
    | last _ hle => exact absurd hlong (Nat.not_lt.2 hle)
    | more _ hle => exact absurd hlong (Nat.not_lt.2 hle)
  | self hs hle hname =>
    cases h₂ with
    | notDir hs' => exact absurd hs hs'
    | tooLong _ hlong => exact absurd hlong (Nat.not_lt.2 hle)
    | self => rfl
    | last _ _ hname' => exact absurd hname hname'
    | more _ _ hname' => exact absurd hname hname'
  | last hs hle hname he ht =>
    cases h₂ with
    | notDir hs' => exact absurd hs hs'
    | tooLong _ hlong => exact absurd hlong (Nat.not_lt.2 hle)
    | self _ _ hname' => exact absurd hname' hname
    | last _ _ _ he' ht' =>
      obtain ⟨rfl, rfl, rfl⟩ := he.unique he'
      exact Sum.inl.inj (ht.symm.trans ht')
    | more _ _ _ he' ht' =>
      obtain ⟨rfl, rfl, rfl⟩ := he.unique he'
      cases ht.symm.trans ht'
  | more hs hle hname he ht _ ih =>
    cases h₂ with
    | notDir hs' => exact absurd hs hs'
    | tooLong _ hlong => exact absurd hlong (Nat.not_lt.2 hle)
    | self _ _ hname' => exact absurd hname' hname
    | last _ _ _ he' ht' =>
      obtain ⟨rfl, rfl, rfl⟩ := he.unique he'
      cases ht.symm.trans ht'
    | more _ _ _ he' ht' ho =>
      obtain ⟨rfl, rfl, rfl⟩ := he.unique he'
      cases Sum.inr.inj (ht.symm.trans ht')
      exact ih ho

/-- `lookuppn` comes to an end, with what the pathname means from the root or from the current
directory, and without a byte written outside a buffer; and then it holds what it hands back, once,
and nothing else. -/
theorem lookuppn_resolves (w : World V) (want : Want) (pnp : Pathname) (hpn : pnp.Ok) (cdir : V)
    (vCount : V → ℕ) :
    ∃ r o, (∃ N, ∀ n ≥ N, lookuppn w want n pnp cdir vCount = some r) ∧
      (∀ o', Resolves w want.followlink (origin w cdir pnp.text) (strip pnp.text) 0 0 o' ↔ o' = o) ∧
      r.result = answer want o ∧ ∀ v, r.holds.vCount v = vCount v + (handed r.result).count v := by
  have h0 : Only vCount (vnHold ⟨vCount, 0⟩ cdir) [cdir] :=
    Only.hold (fun v => (Nat.add_zero _).symm) cdir
  obtain ⟨pn', k', h1, h2, h3, h4⟩ := rootcheck_spec (w := w) hpn.spells h0
  obtain ⟨N, r, o, h5, h6, h7, h8⟩ := locallookuppn_spec (w := w) want
    (s := ⟨pn', origin w cdir pnp.text, 0, k'⟩) h2 h3
  simp only [h4] at h6
  refine ⟨r, o, ⟨N, fun n hn => ?_⟩, fun o' => ⟨fun ho => ho.unique h6, fun ho => ho ▸ h6⟩, h7, h8⟩
  rw [lookuppn, h1]
  exact h5 n hn

end

/-- A file system with the root 2 is mounted on the directory 1 of the first one, which is `a` in the
root 0; 3 is the link `l` to `..` in it. -/
def twoMounts : World ℕ where
  vType v := if v = 3 then .vlnk else .vdir
  vnfs _ := false
  vroot v := v = 0 || v = 2
  vVfsp v := v - 1
  vnodecovered _ := 1
  rootdir := 0
  rdir := none
  mountedhere _ v := if v = 1 then some 1 else none
  mlock _ _ := false
  intr _ := false
  vopLookup _ d name _ :=
    if d = 0 ∧ name = [97] then .ok 1
    else if d = 2 ∧ name = [108] then .ok 3
    else if d = 1 ∧ name = [dot, dot] then .ok 0
    else .error 2
  vfsRoot _ m _ := .ok (m + 1)
  vopReadlink _ _ := .ok [dot, dot]
  mounts := 2
  covered_lt v := by
    intro hv h0
    have : v = 2 := by simpa [h0] using hv
    simp [this]
  mounted_lt t v m h := by
    split_ifs at h with hv
    cases h
    simp [hv]
  root_in t m name v h := by
    cases h
    rfl
  text_le _ _ _ h := by
    cases h
    decide
  unlocked t := ⟨t, le_rfl, fun _ => rfl⟩

/-- `/a/l` leads into the second file system, and by its link out again, to the root. -/
theorem lookuppn_resolves_mounted : ∃ r, (∃ N, ∀ n ≥ N, lookuppn twoMounts ⟨true, true, true⟩ n
    ⟨[slash, 97, slash, 108] ++ List.replicate 1020 0, 0, 4⟩ 0 (fun _ => 1) = some r) ∧
    r.result = .ok ⟨some 1, some 0⟩ ∧ ∀ v, r.holds.vCount v = 1 + [1, 0].count v := by
  have hok : Pathname.Ok ⟨[slash, 97, slash, 108] ++ List.replicate 1020 0, 0, 4⟩ :=
    ⟨by rw [List.length_append, List.length_replicate]; rfl, by decide, by decide⟩
  obtain ⟨r, o, h1, h2, h3, h4⟩ := lookuppn_resolves twoMounts ⟨true, true, true⟩ _ hok 0 fun _ => 1
  have hup : Up twoMounts 2 2 1 2 := .covered (by decide) rfl (.inside (by decide) rfl)
  have ho : Resolves twoMounts true 0 [97, slash, 108] 0 0 (.entry 1 0) := by
    refine .more (.inl rfl) (by decide) (by decide)
      (.reaches (u := 0) (c := 0) ⟨rfl, rfl⟩ rfl (.cross rfl rfl rfl (.stop rfl))) rfl ?_
    refine .more (.inl rfl) (by decide) (by decide)
      (.reaches (u := 2) (c := 2) ⟨rfl, rfl⟩ rfl (.stop rfl)) rfl ?_
    exact .last (.inl rfl) (by decide) (by decide)
      (.reaches (u := 1) (c := 2) ⟨hup, by decide⟩ rfl (.stop rfl)) rfl
  obtain rfl := (h2 _).1 ho
  rw [h3] at h4
  exact ⟨r, h1, h3, h4⟩

end Namei

end Hpux
