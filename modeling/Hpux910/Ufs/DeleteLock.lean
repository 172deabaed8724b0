import Hpux910.Ufs.InsertLock

/-!
# `delete_lock` and `unlock`

* `Deleted` : what `delete_lock` does to the entries of the calling owner.
* `deleteLock_spec`, `unlock_spec` : the two routines on an ordered list.
-/

namespace Hpux

namespace Lockf

open List

/-- What `delete_lock` does to the own entries `M`. -/
structure Deleted (r : Req) (M M' : List Lock) (p p' : Pool) : Prop where
  own : ∀ e ∈ M', e.owner = r.u.owner
  ok : spans.Ok M'
  low : ∀ e' ∈ M', ∃ e ∈ M, e.llStart ≤ e'.llStart
  look : (p'.uError = p.uError ∧ ∀ b, spans.look M' b =
      if r.lb ≤ b ∧ b < r.ub then none else spans.look M b) ∨
    (p'.uError ≠ none ∧ M' = M ∧ ∃ e ∈ M, e.llStart < r.lb ∧ r.ub < e.llEnd)
  src : ∀ e' ∈ M', e'.iwant = false ∨ e' ∈ M
  edits : Edits r (M, p) (M', p')

section Delete

variable {r : Req} {e : Lock} {M M' : List Lock} {p p' : Pool}

/-- Replace the entry by what `K` keeps of it and go on. -/
theorem Deleted.cons (K : List Lock) {p₁ : Pool}
    (hok : spans.Ok (e :: M)) (hKown : ∀ f ∈ K, f.owner = r.u.owner)
    (hK : spans.Ok K) (hKlow : ∀ f ∈ K, e.llStart ≤ f.llStart ∧ f.llEnd ≤ e.llEnd)
    (hKlook : ∀ b, spans.look K b =
      if e.llStart ≤ b ∧ b < e.llEnd ∧ ¬(r.lb ≤ b ∧ b < r.ub) then some e.llType else none)
    (hKsrc : ∀ f ∈ K, f.iwant = false ∨ f = e)
    (herr : p₁.uError = p.uError) (hed : Edits r (e :: M, p) (K ++ M, p₁))
    (hsep : K = [e] ∨ r.lb < e.llEnd) (h : Deleted r M M' p₁ p') :
    Deleted r (e :: M) (K ++ M') p p' := by
  have hlow : ∀ f ∈ M', e.llEnd ≤ f.llStart := by
    intro f hf
    obtain ⟨g, hg, hgf⟩ := h.low f hf
    exact le_trans (hok.le_of_mem hg) hgf
  refine ⟨?_, ⟨?_, ?_⟩, ?_, ?_, ?_, hed.trans (h.edits.prepend K)⟩
  · intro f hf
    exact (mem_append.1 hf).elim (hKown f) (h.own f)
  · intro f hf
    exact (mem_append.1 hf).elim (hK.1 f) (h.ok.1 f)
  · refine pairwise_append.2 ⟨hK.2, h.ok.2, fun f hf g hg => ?_⟩
    exact le_trans (hKlow f hf).2 (hlow g hg)
  · intro f hf
    rcases mem_append.1 hf with hf | hf
    · exact ⟨e, by simp, (hKlow f hf).1⟩
    · obtain ⟨g, hg, hgf⟩ := h.low f hf
      exact ⟨g, by simp [hg], hgf⟩
  · rcases h.look with ⟨herr', hl⟩ | ⟨hne, rfl, g, hg, hgl, hgu⟩
    · refine .inl ⟨herr'.trans herr, fun b => ?_⟩
      rw [Spans.look_append, hKlook, hl, look_cons]
      by_cases hr : r.lb ≤ b ∧ b < r.ub
      · rw [if_neg (by omega), if_pos hr, if_pos hr]; rfl
      · rw [if_neg hr, if_neg hr]
        by_cases hb : e.llStart ≤ b ∧ b < e.llEnd
        · rw [if_pos ⟨hb.1, hb.2, hr⟩, if_pos hb]; rfl
        · rw [if_neg (by omega), if_neg hb]; rfl
    · -- an own entry around the whole range: then nothing before it was touched
      have hge : e.llEnd ≤ g.llStart := hok.le_of_mem hg
      obtain rfl := hsep.resolve_right (by omega)
      exact .inr ⟨hne, rfl, g, by simp [hg], hgl, hgu⟩
  · intro f hf
    rcases mem_append.1 hf with hf | hf
    · exact (hKsrc f hf).imp id fun h => by simp [h]
    · exact (h.src f hf).imp id fun h => by simp [h]

theorem deleteScan_skip {A l l' : List Lock} {ret : Bool} (hA : ∀ f ∈ A, f.owner ≠ r.u.owner)
    (h : deleteScan r l p = (l', p', ret)) : deleteScan r (A ++ l) p = (A ++ l', p', ret) := by
  induction A with
  | nil => exact h
  | cons e A ih =>
    have he : isMyLock r.u e = false := isMyLock_eq_false_iff.2 (hA e (by simp))
    have ih := ih fun f hf => hA f (by simp [hf])
    simp only [cons_append, deleteScan, if_pos he, ih]

/-- What the loop of `delete_lock` does to a row of own entries followed by entries of others. -/
theorem deleteScan_own (hlt : r.lb < r.ub) {B : List Lock} (hB : ∀ f ∈ B, f.owner ≠ r.u.owner)
    {M : List Lock} (hown : ∀ f ∈ M, f.owner = r.u.owner) (hok : spans.Ok M) (p : Pool) :
    ∃ M' p' ret, deleteScan r (M ++ B) p = (M' ++ B, p', ret) ∧ Deleted r M M' p p' := by
  induction M generalizing p with
  | nil =>
    refine ⟨[], p, false, ?_, by simp, by simp, by simp, .inl ⟨rfl, by simp⟩, by simp, .refl⟩
    simpa using deleteScan_skip (l := []) (r := r) (p := p) hB rfl
  | cons e M ih =>
    have he : e.llStart < e.llEnd := hok.head_lt
    have hmy : e.owner = r.u.owner := hown e (by simp)
    have ih := ih (fun f hf => hown f (by simp [hf])) hok.tail
    rw [cons_append, deleteScan, if_neg (by simp [isMyLock_iff.2 hmy])]
    by_cases hout : e.llStart ≥ r.ub ∨ r.lb ≥ e.llEnd
    · rw [if_pos hout]
      obtain ⟨M', p', ret, heq, h⟩ := ih p
      refine ⟨e :: M', p', ret, by simp [heq], ?_⟩
      refine Deleted.cons [e] hok (by simpa using hmy) ⟨by simpa using he, by simp⟩ (by simp)
        (fun b => ?_) (by simp) rfl .refl (.inl rfl) h
      simp only [look_cons, Spans.look_nil]
      split_ifs <;> first | rfl | omega
    · rw [if_neg hout, findLockRange]
      rcases le_or_gt r.lb e.llStart with hlb | hlb
      · have hreg : e.region r.lb = .before ∨ e.region r.lb = .start := by
          rcases hlb.lt_or_eq with h | h
          · exact .inl (region_before h)
          · exact .inr (region_start h)
        rcases lt_or_ge r.ub e.llEnd with hub | hub
        · -- the end of the entry stays
          obtain ⟨M', p', ret, heq, h⟩ := ih (p.notify { e with llStart := r.ub }).2
          refine ⟨(p.notify { e with llStart := r.ub }).1 :: M', p', ret, ?_, ?_⟩
          · rw [region_middle (by omega) hub]
            rcases hreg with hreg | hreg <;> simp [hreg, checkLockSleep, heq]
          · refine Deleted.cons [_] hok (by simpa [Pool.notify_fst] using hmy)
              ⟨by simpa [Pool.notify_fst] using hub, by simp⟩
              (by simp [Pool.notify_fst]; omega) (fun b => ?_) (by simp [Pool.notify_fst]) (by simp)
              ((Edits.change_head hmy r.ub e.llEnd e.llType M).trans
                (Edits.wake_head (e := { e with llStart := r.ub }) hmy M))
              (.inr (by omega)) h
            simp only [look_cons, Spans.look_nil, Pool.notify_fst]
            split_ifs <;> first | rfl | omega
        · -- the entry goes
          have hreg' : e.region r.ub = .atEnd ∨ e.region r.ub = .after := by
            rcases hub.lt_or_eq with h | h
            · exact .inr (region_after he h)
            · exact .inl (region_atEnd he h.symm)
          obtain ⟨M', p', ret, heq, h⟩ := ih (p.lockfree e)
          have hdel : Deleted r (e :: M) ([] ++ M') p p' := by
            refine Deleted.cons [] hok (by simp) (by simp) (by simp) (fun b => ?_) (by simp)
              (by simp) (Edits.free_head hmy M) (.inr (by omega)) h
            rw [if_neg (by omega)]; rfl
          by_cases hnil : M ++ B = []
          · rw [hnil, deleteScan] at heq
            obtain ⟨hM', rfl, rfl⟩ := Prod.mk.inj heq |>.imp id Prod.mk.inj
            refine ⟨M', p.lockfree e, true, ?_, hdel⟩
            rcases hreg with hreg | hreg <;> rcases hreg' with hreg' | hreg' <;>
              simp [hreg, hreg', hnil, ← hM']
          · refine ⟨M', p', ret, ?_, hdel⟩
            rcases hreg with hreg | hreg <;> rcases hreg' with hreg' | hreg' <;>
              simp [hreg, hreg', hnil, heq]
      · rw [region_middle hlb (by omega)]
        rcases lt_or_ge r.ub e.llEnd with hub | hub
        · -- both ends stay
          rw [region_middle (by omega) hub]
          rcases lockadd_cases r p with ⟨err, hadd⟩ | ⟨a, fs, hfree⟩
          · refine ⟨e :: M, { p with uError := some err, uPrelock := some e.addr }, true,
              by simp [hadd], hown, hok, fun f hf => ⟨f, hf, le_rfl⟩,
              .inr ⟨by simp, rfl, e, by simp, hlb, hub⟩, fun f hf => .inr hf,
              .single (.error _ p _ _)⟩
          · obtain ⟨M', p', ret, heq, h⟩ :=
              ih (Pool.notify { p with free := fs } { e with llEnd := r.lb }).2
            refine ⟨(Pool.notify { p with free := fs } { e with llEnd := r.lb }).1 ::
              freshLock r a r.ub e.llEnd e.llType :: M', p', ret, ?_, ?_⟩
            · simp [lockadd_cons hfree, checkLockSleep, heq]
            · refine Deleted.cons [_, freshLock r a r.ub e.llEnd e.llType] hok ?_ ?_ ?_
                (fun b => ?_) ?_ ?_ ?_ (.inr (by omega)) h
              · simp [Pool.notify_fst, freshLock, hmy]
              · refine Spans.ok_cons.2 ⟨hlb, ?_, Spans.ok_cons.2 ⟨hub, by simp, by simp⟩⟩
                simpa [Pool.notify_fst, freshLock] using hlt.le
              · simp [Pool.notify_fst, freshLock]; omega
              · simp only [look_cons, Spans.look_nil, Pool.notify_fst, freshLock]
                split_ifs <;> first | rfl | omega
              · simp [Pool.notify_fst, freshLock]
              · simp
              · have h1 := Edits.change_head (p := p) hmy e.llStart r.lb e.llType M
                have h2 := Edits.link_head (r := r) hfree r.ub e.llEnd e.llType M
                have h3 := Edits.wake_head (p := { p with free := fs })
                  (e := { e with llEnd := r.lb }) hmy (freshLock r a r.ub e.llEnd e.llType :: M)
                exact h1.trans ((h2.cons _).trans h3)
        · -- the start of the entry stays
          have hreg' : e.region r.ub = .atEnd ∨ e.region r.ub = .after := by
            rcases hub.lt_or_eq with h | h
            · exact .inr (region_after he h)
            · exact .inl (region_atEnd he h.symm)
          obtain ⟨M', p', ret, heq, h⟩ := ih (p.notify { e with llEnd := r.lb }).2
          refine ⟨(p.notify { e with llEnd := r.lb }).1 :: M', p', ret, ?_, ?_⟩
          · rcases hreg' with hreg' | hreg' <;> simp [hreg', checkLockSleep, heq]
          · refine Deleted.cons [_] hok (by simpa [Pool.notify_fst] using hmy)
              ⟨by simpa [Pool.notify_fst] using hlb, by simp⟩
              (by simp [Pool.notify_fst]; omega) (fun b => ?_) (by simp [Pool.notify_fst]) (by simp)
              ((Edits.change_head hmy e.llStart r.lb e.llType M).trans
                (Edits.wake_head (e := { e with llEnd := r.lb }) hmy M))
              (.inr (by omega)) h
            simp only [look_cons, Spans.look_nil, Pool.notify_fst]
            split_ifs <;> first | rfl | omega

/-- The loop of `delete_lock` edits the own entries as `Deleted` says and nothing else. -/
theorem deleteScan_spec (hlt : r.lb < r.ub) {l : List Lock} (hok : ListOk l) (p : Pool) :
    ∃ A M M' B p' ret, l = A ++ M ++ B ∧ (∀ f ∈ A ++ B, f.owner ≠ r.u.owner) ∧
      (∀ f ∈ M, f.owner = r.u.owner) ∧ deleteScan r l p = (A ++ M' ++ B, p', ret) ∧
      Deleted r M M' p p' ∧ ListOk (A ++ M' ++ B) := by
  obtain ⟨A, M, B, rfl, hA, hM, hB, hMok, -, hrep⟩ := hok.split Spans.ok_nil r.u.owner
  obtain ⟨M', p', ret, heq, h⟩ := deleteScan_own hlt hB hM hMok p
  have hscan : deleteScan r (A ++ M ++ B) p = (A ++ M' ++ B, p', ret) := by
    rw [append_assoc, append_assoc]
    exact deleteScan_skip hA heq
  refine ⟨A, M, M', B, p', ret, rfl, fun f hf => ?_, hM, hscan, h, hrep M' h.own h.ok⟩
  exact (mem_append.1 hf).elim (hA f) (hB f)

theorem deleteLock_spec (hlt : r.lb < r.ub) {l : List Lock} (hok : ListOk l) (p : Pool) :
    ∃ A M M' B p' p'', l = A ++ M ++ B ∧ (∀ f ∈ A ++ B, f.owner ≠ r.u.owner) ∧
      (∀ f ∈ M, f.owner = r.u.owner) ∧ deleteLock r l p = (A ++ M' ++ B, p'') ∧
      Deleted r M M' p p' ∧ (p'' = p' ∨ p'' = p'.note .checksync) ∧ ListOk (A ++ M' ++ B) := by
  obtain ⟨A, M, M', B, p', ret, hl, hAB, hM, hscan, h, hok'⟩ := deleteScan_spec hlt hok p
  refine ⟨A, M, M', B, p', _, hl, hAB, hM, by rw [deleteLock, hscan], h, ?_, hok'⟩
  split_ifs
  · exact .inr rfl
  · exact .inl rfl

/-- `unlock` drops exactly the own entries. -/
theorem unlock_spec (u : U) (l : List Lock) (p : Pool) :
    (unlock u l p).1 = l.filter (fun e => e.owner ≠ u.owner) ∧ (unlock u l p).2.uError = p.uError ∧
      ∀ r : Req, r.u = u → Edits r (l, p) (unlock u l p) := by
  induction l generalizing p with
  | nil => exact ⟨rfl, rfl, fun _ _ => .refl⟩
  | cons e l ih =>
    by_cases he : e.owner = u.owner
    · obtain ⟨hl, herr, hed⟩ := ih (p.lockfree e)
      rw [unlock, if_pos (isMyLock_iff.2 he)]
      refine ⟨by simp [hl, he], by simp [herr], fun r hr => ?_⟩
      exact (Edits.free_head (by rw [hr]; exact he) l).trans (hed r hr)
    · obtain ⟨hl, herr, hed⟩ := ih p
      rw [unlock, if_neg (by simp [isMyLock_eq_false_iff.2 he])]
      exact ⟨by simp [hl, he], herr, fun r hr => (hed r hr).cons e⟩

theorem ListOk.filter {l : List Lock} (hok : ListOk l) (o : Owner) :
    ListOk (l.filter fun e => e.owner ≠ o) := by
  obtain ⟨A, M, B, rfl, hA, hM, hB, -, -, hrep⟩ := hok.split Spans.ok_nil o
  have hfil : ∀ L : List Lock, (∀ f ∈ L, f.owner ≠ o) → L.filter (fun e => e.owner ≠ o) = L :=
    fun L h => filter_eq_self.2 fun f hf => by simpa using h f hf
  have hM' : M.filter (fun e => e.owner ≠ o) = [] :=
    filter_eq_nil_iff.2 fun f hf => by simpa using hM f hf
  rw [filter_append, filter_append, hfil A hA, hfil B hB, hM']
  exact hrep [] (by simp) (by simp)

end Delete

end Lockf

end Hpux
