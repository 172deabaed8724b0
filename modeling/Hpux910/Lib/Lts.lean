import Mathlib

/-!
# Transition systems

Every concurrent or long-running part of the kernel is given as a transition system: a set of
initial states and a labelled step relation.  The correctness statements are about the states that
runs reach, so this file packages the two inductions they all use.

* `Lts.Reach s` : some run from an initial state ends in `s`.
* `Lts.Reach.inv` : a predicate that holds initially and is kept by every step holds in every
  reachable state.
* `Lts.restrict C` : the runs whose steps all meet the condition `C`, used to state exactly when a
  defective routine is harmless.
* `Lts.Follows`, `Lts.Reach.follows` : a run given by the list of its labels, where a function says
  what each step does.
* `Lts.ofCalls`, `Lts.Meeting`, `Lts.Reach.calls` : runs of calls that may not come back.
* `Lts.Reach.simulate` : if every step of one system is a finite run of another, reachability
  carries over.
-/

namespace Hpux

/-- A call does not come back: it panics, or a loop of it does not end. -/
inductive Trap
  | panic
  | spin
  deriving DecidableEq

/-- A transition system with states `S` and labels `L`. -/
structure Lts (S : Type*) (L : Type*) where
  /-- The initial states. -/
  init : S → Prop
  /-- `step s l s'` : performing `l` in `s` can lead to `s'`. -/
  step : S → L → S → Prop

namespace Lts

variable {S L : Type*} (A : Lts S L)

/-- The states that end some run. -/
inductive Reach : S → Prop
  | init {s : S} (h : A.init s) : Reach s
  | step {s s' : S} {l : L} (h : Reach s) (hs : A.step s l s') : Reach s'

/-- The steps that satisfy `C`, a condition on the state before the step and its label. -/
def restrict (C : S → L → Prop) : Lts S L where
  init := A.init
  step s l s' := C s l ∧ A.step s l s'

variable {A}

/-- A predicate that holds initially and is kept by every step from a reachable state holds in
every reachable state. -/
theorem Reach.inv {I : S → Prop} {s : S} (h : A.Reach s) (h0 : ∀ s, A.init s → I s)
    (hstep : ∀ s l s', A.Reach s → I s → A.step s l s' → I s') : I s := by
  induction h with
  | init h => exact h0 _ h
  | step h hs ih => exact hstep _ _ _ h ih hs

theorem Reach.of_restrict {C : S → L → Prop} {s : S} (h : (A.restrict C).Reach s) : A.Reach s := by
  induction h with
  | init h => exact .init h
  | step _ hs ih => exact .step ih hs.2

/-- If the initial states of `B` are reachable in `A` and every step of `B` from a state reachable
in `A` ends in a state reachable in `A`, every state reachable in `B` is reachable in `A`. -/
theorem Reach.simulate {M : Type*} {B : Lts S M} {s : S} (h : B.Reach s)
    (h0 : ∀ s, B.init s → A.Reach s)
    (hstep : ∀ s l s', A.Reach s → B.step s l s' → A.Reach s') : A.Reach s :=
  h.inv h0 fun _ _ _ _ ih hs => hstep _ _ _ ih hs

/-- Each step of the list may be taken when its turn comes. -/
def Follows (enabled : S → L → Prop) (next : S → L → S) : S → List L → Prop
  | _, [] => True
  | s, l :: ls => enabled s l ∧ Follows enabled next (next s l) ls

instance Follows.decidable {enabled : S → L → Prop} {next : S → L → S}
    [∀ s l, Decidable (enabled s l)] : ∀ s ls, Decidable (Follows enabled next s ls)
  | _, [] => inferInstanceAs (Decidable True)
  | s, l :: ls =>
    have : Decidable (Follows enabled next (next s l) ls) := Follows.decidable (next s l) ls
    inferInstanceAs (Decidable (enabled s l ∧ Follows enabled next (next s l) ls))

/-- A run given by its labels ends in a reachable state. -/
theorem Reach.follows {enabled : S → L → Prop} {next : S → L → S} {s : S} {ls : List L}
    (h : A.Reach s) (hstep : ∀ s l, enabled s l → A.step s l (next s l))
    (hls : Follows enabled next s ls) : A.Reach (ls.foldl next s) := by
  induction ls generalizing s with
  | nil => exact h
  | cons l ls ih => exact ih (.step h (hstep s l hls.1)) hls.2

/-! ### Calls -/

/-- A system whose steps are calls; one that does not come back ends the run. -/
def ofCalls (init : S → Prop) (enabled : S → L → Prop) (call : S → L → Except Trap S) :
    Lts (Except Trap S) L where
  init x := ∃ s, x = .ok s ∧ init s
  step x l x' := ∃ s, x = .ok s ∧ enabled s l ∧ x' = call s l

/-- A condition on calls. -/
def Meeting (C : S → L → Prop) (x : Except Trap S) (l : L) : Prop := ∀ s, x = .ok s → C s l

/-- If calls that meet a condition keep an invariant when they come back, it holds in every state. -/
theorem Reach.kept {init I : S → Prop} {enabled C : S → L → Prop} {call : S → L → Except Trap S}
    {x : Except Trap S} {s : S} (h : ((ofCalls init enabled call).restrict (Meeting C)).Reach x)
    (hx : x = .ok s) (h0 : ∀ s, init s → I s)
    (hstep : ∀ s l s', I s → enabled s l → C s l → call s l = .ok s' → I s') : I s := by
  refine h.inv (I := fun x => ∀ s, x = .ok s → I s) (fun x hx => ?_) (fun x l x' _ ih h1 => ?_) s hx
  · obtain ⟨s, rfl, hs⟩ := hx
    rintro _ ⟨⟩
    exact h0 s hs
  · obtain ⟨h2, s, rfl, h3, rfl⟩ := h1
    exact fun s' hs' => hstep s l s' (ih s rfl) h3 (h2 s rfl) hs'

/-- If calls come back and keep an invariant, no run ends early. -/
theorem Reach.back {init I : S → Prop} {enabled : S → L → Prop} {call : S → L → Except Trap S}
    {x : Except Trap S} (h : (ofCalls init enabled call).Reach x) (h0 : ∀ s, init s → I s)
    (hstep : ∀ s l, I s → enabled s l → ∃ s', call s l = .ok s' ∧ I s') : ∃ s, x = .ok s ∧ I s := by
  refine h.inv (I := fun x => ∃ s, x = .ok s ∧ I s) (fun x hx => ?_) fun x l x' _ ih h1 => ?_
  · obtain ⟨s, rfl, hs⟩ := hx
    exact ⟨s, rfl, h0 s hs⟩
  · obtain ⟨s, rfl, h3, rfl⟩ := h1
    obtain ⟨s', h4, h5⟩ := ih
    cases h4
    exact hstep s l h5 h3

/-- If calls that meet a condition come back and keep an invariant, no run of them ends early. -/
theorem Reach.calls {init I : S → Prop} {enabled C : S → L → Prop} {call : S → L → Except Trap S}
    {x : Except Trap S} (h : ((ofCalls init enabled call).restrict (Meeting C)).Reach x)
    (h0 : ∀ s, init s → I s)
    (hstep : ∀ s l, I s → enabled s l → C s l → ∃ s', call s l = .ok s' ∧ I s') :
    ∃ s, x = .ok s ∧ I s := by
  refine h.inv (I := fun x => ∃ s, x = .ok s ∧ I s) (fun x hx => ?_) fun x l x' _ ih h1 => ?_
  · obtain ⟨s, rfl, hs⟩ := hx
    exact ⟨s, rfl, h0 s hs⟩
  · obtain ⟨h2, s, rfl, h3, rfl⟩ := h1
    obtain ⟨s', h4, h5⟩ := ih
    cases h4
    exact hstep s l h5 h3 (h2 s rfl)

end Lts

end Hpux
