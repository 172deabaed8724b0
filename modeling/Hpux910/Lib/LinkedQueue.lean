import Mathlib

/-!
# Queues linked through their nodes

A kernel queue is a head pointer, a tail pointer and a link in every node.  `IsQueue` says that the
three describe a given list of nodes; the lemmas say what the pointer updates of a queue do to that
list.

* `Links` : the links of the nodes of a list lead along the list and end in no node.
* `LinksTo`, `Links.splice`, `Links.insert` : parts of a list, nodes taken out of its middle and put
  into it; `Links.follow`, `Links.forall_mem` : where links lead.
* `IsQueue` : the head and the tail pointer and the links are those of a list.
* `IsQueue.push`, `IsQueue.pop` : linking a node behind the tail, and taking the head.
* `IsQueue.link_eq`, `IsQueue.unlink` : the place that points to a node, and taking the node out there.
* `IsQueue.insert`, `follow` : putting a node between two others, and the nodes along the links.
* `IsDeque` : a queue whose nodes also point back.
* `IsQueue.congr` : only the links of its own nodes matter to a queue.
-/

namespace Hpux

open List

variable {ι : Type*}

/-- The links of the nodes of a list lead along the list and end in no node. -/
def Links (next : ι → Option ι) : List ι → Prop
  | [] => True
  | a :: q => next a = q.head? ∧ Links next q

variable {next next' : ι → Option ι} {head tail : Option ι} {q : List ι} {a b : ι}

theorem Links.congr (h : Links next q) (heq : ∀ a ∈ q, next' a = next a) : Links next' q := by
  induction q with
  | nil => trivial
  | cons a q ih =>
    refine ⟨?_, ih h.2 fun c hc => heq c (mem_cons_of_mem a hc)⟩
    rw [heq a mem_cons_self]
    exact h.1

/-- What holds of the head and is handed on along the links holds of every node. -/
theorem Links.forall_mem {P : ι → Prop} (h : Links next q) (h0 : ∀ a, q.head? = some a → P a)
    (hstep : ∀ a ∈ q, ∀ b, P a → next a = some b → P b) : ∀ a ∈ q, P a := by
  induction q with
  | nil => nofun
  | cons a q ih =>
    have ha : P a := h0 a rfl
    intro c hc
    rcases mem_cons.1 hc with rfl | hc
    · exact ha
    · refine ih h.2 (fun b hb => hstep a mem_cons_self b ha (h.1.trans hb)) (fun b hb => ?_) c hc
      exact hstep b (mem_cons_of_mem a hb)

/-- The links of the nodes of a list lead along the list, and the last one to `e`. -/
def LinksTo (next : ι → Option ι) (e : Option ι) : List ι → Prop
  | [] => True
  | a :: q => next a = q.head?.or e ∧ LinksTo next e q

theorem links_append {r : List ι} : Links next (q ++ r) ↔ LinksTo next r.head? q ∧ Links next r := by
  induction q with
  | nil => simp [LinksTo]
  | cons a q ih => simp only [cons_append, Links, LinksTo, ih, head?_append, and_assoc]

theorem LinksTo.last {e : Option ι} (h : LinksTo next e q) (ha : q.getLast? = some a) : next a = e := by
  induction q with
  | nil => cases ha
  | cons b q ih =>
    cases q with
    | nil =>
      obtain rfl := Option.some.inj ha
      exact h.1
    | cons c q => exact ih h.2 (by rwa [getLast?_cons_cons] at ha)

/-- The last node is made to point elsewhere. -/
theorem LinksTo.retarget {e e' : Option ι} (h : LinksTo next e q) (hq : q.Nodup)
    (hsame : ∀ c ∈ q, q.getLast? ≠ some c → next' c = next c)
    (hlast : ∀ c, q.getLast? = some c → next' c = e') : LinksTo next' e' q := by
  induction q with
  | nil => trivial
  | cons a q ih =>
    obtain ⟨ha, hq'⟩ := nodup_cons.1 hq
    cases q with
    | nil => exact ⟨hlast a rfl, trivial⟩
    | cons c q =>
      have hne : (a :: c :: q).getLast? ≠ some a := by
        rw [getLast?_cons_cons]
        exact fun hl => ha (mem_of_getLast? hl)
      refine ⟨?_, ih h.2 hq' (fun d hd hl => ?_) fun d hd => ?_⟩
      · rw [hsame a mem_cons_self hne]
        exact h.1
      · exact hsame d (mem_cons_of_mem a hd) (by rwa [getLast?_cons_cons])
      · exact hlast d (by rwa [getLast?_cons_cons])

/-- The nodes `m` are taken out: the node before them points to the node behind them. -/
theorem Links.splice {m r : List ι} (h : Links next (q ++ (m ++ r))) (hq : q.Nodup)
    (hsame : ∀ c ∈ q, q.getLast? ≠ some c → next' c = next c)
    (hlast : ∀ c, q.getLast? = some c → next' c = r.head?) (hr : ∀ c ∈ r, next' c = next c) :
    Links next' (q ++ r) := by
  obtain ⟨hq', hmr⟩ := links_append.1 h
  exact links_append.2 ⟨hq'.retarget hq hsame hlast, (links_append.1 hmr).2.congr hr⟩

/-- A node is put between two parts of the list. -/
theorem Links.insert {r : List ι} (h : Links next (q ++ r)) (hq : q.Nodup)
    (hsame : ∀ c ∈ q, q.getLast? ≠ some c → next' c = next c)
    (hlast : ∀ c, q.getLast? = some c → next' c = some b) (hb : next' b = r.head?)
    (hr : ∀ c ∈ r, next' c = next c) : Links next' (q ++ b :: r) := by
  obtain ⟨hq', hr'⟩ := links_append.1 h
  exact links_append.2 ⟨hq'.retarget hq hsame hlast, hb, hr'.congr hr⟩

/-- A node behind the last one. -/
theorem Links.concat (h : Links next q) (hq : q.Nodup)
    (hsame : ∀ c ∈ q, q.getLast? ≠ some c → next' c = next c)
    (hlast : ∀ c, q.getLast? = some c → next' c = some b) (hb : next' b = none) :
    Links next' (q ++ [b]) := by
  rw [← append_nil q] at h
  exact h.insert hq hsame hlast hb nofun

/-- Links that lead along `q` to the node `b` lead there from the head of any list with these links. -/
theorem Links.follow {r : List ι} (h : Links next' r) (hhead : r.head? = (q ++ [b]).head?)
    (hq : LinksTo next (some b) q) (heq : ∀ c ∈ q, next' c = next c) : ∃ m, r = q ++ b :: m := by
  induction q generalizing r with
  | nil => exact head?_eq_some_iff.1 hhead
  | cons a q ih =>
    obtain ⟨r, rfl⟩ := head?_eq_some_iff.1 (hhead : r.head? = some a)
    have h1 : r.head? = (q ++ [b]).head? := by
      rw [← h.1, heq a mem_cons_self, hq.1]
      cases q <;> rfl
    obtain ⟨m, rfl⟩ := ih h.2 h1 hq.2 fun c hc => heq c (mem_cons_of_mem a hc)
    exact ⟨m, rfl⟩

/-- The nodes along the links, `n` at most. -/
def follow (next : ι → Option ι) : ℕ → Option ι → List ι
  | n + 1, some a => a :: follow next n (next a)
  | _, _ => []

/-- The head pointer, the tail pointer and the links are those of the list `q` of nodes. -/
structure IsQueue (next : ι → Option ι) (head tail : Option ι) (q : List ι) : Prop where
  head_eq : head = q.head?
  tail_eq : tail = q.getLast?
  links : Links next q
  nodup : q.Nodup

namespace IsQueue

theorem nil : IsQueue next none none [] := ⟨rfl, rfl, trivial, nodup_nil⟩

/-- Only the links of its own nodes matter to a queue. -/
theorem congr (h : IsQueue next head tail q) (heq : ∀ a ∈ q, next' a = next a) :
    IsQueue next' head tail q :=
  { h with links := h.links.congr heq }

theorem eq_cons (h : IsQueue next (some a) tail q) : ∃ r, q = a :: r :=
  head?_eq_some_iff.1 h.head_eq.symm

theorem head_none_iff (h : IsQueue next head tail q) : head = none ↔ q = [] := by
  rw [h.head_eq, head?_eq_none_iff]

/-- Linking a node behind the tail: the old tail, if there is one, points to the new node. -/
theorem push (h : IsQueue next head tail q) (hb : b ∉ q)
    (hsame : ∀ c ∈ q, tail ≠ some c → next' c = next c)
    (hlast : ∀ c, tail = some c → next' c = some b) (hnext : next' b = none) :
    IsQueue next' (head.or (some b)) (some b) (q ++ [b]) where
  head_eq := by
    rw [h.head_eq]
    cases q with
    | nil => rfl
    | cons c q => rfl
  tail_eq := by rw [getLast?_concat]
  links := h.links.concat h.nodup (fun c hc hl => hsame c hc (h.tail_eq ▸ hl))
    (fun c hc => hlast c (h.tail_eq ▸ hc)) hnext
  nodup := by
    rw [nodup_append]
    refine ⟨h.nodup, by simp, ?_⟩
    rintro c hc d hd rfl
    rw [mem_singleton] at hd
    exact hb (hd ▸ hc)

/-- Taking the head: the head pointer becomes its link, and the tail pointer is cleared with the
last node. -/
theorem pop (h : IsQueue next head tail (a :: q)) (hsame : ∀ c ∈ q, next' c = next c) :
    IsQueue next' (next a) (if next a = none then none else tail) q where
  head_eq := h.links.1
  tail_eq := by
    rw [h.links.1, h.tail_eq]
    cases q with
    | nil => rfl
    | cons c q => rw [head?_cons, if_neg (by simp), getLast?_cons_cons]
  links := h.links.2.congr hsame
  nodup := (nodup_cons.1 h.nodup).2

/-- Taking a node out behind another one: `p` gets its link, and becomes the tail if it was the
last. -/
theorem removeBehind {p : ι} {r : List ι} (h : IsQueue next head tail (q ++ p :: a :: r))
    (hsame : ∀ c ∈ q ++ r, next' c = next c) (hp : next' p = next a) :
    IsQueue next' head (if next a = none then some p else tail) (q ++ p :: r) := by
  obtain ⟨hq, hpa⟩ := links_append.1 h.links
  have hnext : next a = r.head? := hpa.2.1
  refine ⟨?_, ?_, ?_, ?_⟩
  · rw [h.head_eq]
    cases q <;> rfl
  · rw [hnext, h.tail_eq]
    cases r with
    | nil => simp
    | cons c r => simp
  · refine links_append.2 ⟨?_, hp.trans hnext, ?_⟩
    · refine hq.retarget (nodup_append.1 h.nodup).1 (fun c hc _ => ?_) fun c hc => ?_
      · exact hsame c (mem_append_left r hc)
      · rw [hsame c (mem_append_left r (mem_of_getLast? hc)), hq.last hc]
        rfl
    · exact hpa.2.2.congr fun c hc => hsame c (mem_append_right q hc)
  · have hsub : (q ++ p :: r).Sublist (q ++ p :: a :: r) :=
      (((List.Sublist.refl r).cons a).cons_cons p).append_left q
    exact h.nodup.sublist hsub

/-- The place behind the part `q` of the queue points to the rest. -/
theorem link_eq {r : List ι} (h : IsQueue next head tail (q ++ r)) :
    (q.getLast?.elim head next) = r.head? := by
  cases hq : q.getLast? with
  | none =>
    obtain rfl := getLast?_eq_none_iff.1 hq
    exact h.head_eq
  | some c => exact (links_append.1 h.links).1.last hq

/-- Taking a node out where it is pointed to: that place gets its link, and the node before it becomes
the tail if it was the tail. -/
theorem unlink [DecidableEq ι] {r : List ι} (h : IsQueue next head tail (q ++ a :: r)) :
    IsQueue (q.getLast?.elim next fun c => Function.update next c (next a))
      (q.getLast?.elim (next a) fun _ => head) (if tail = some a then q.getLast? else tail)
      (q ++ r) := by
  have htail : tail = some a ↔ next a = none := by
    have h1 : next a = r.head? := (links_append.1 h.links).2.1
    rw [h.tail_eq, h1]
    cases r with
    | nil => simp
    | cons c r =>
      simp only [head?_cons, getLast?_append, getLast?_cons_cons]
      refine iff_of_false (fun h2 => ?_) nofun
      have h3 : a ∈ c :: r := by
        cases h4 : (c :: r).getLast? with
        | none => simp at h4
        | some d =>
          rw [h4] at h2
          obtain rfl := Option.some.inj h2
          exact mem_of_getLast? h4
      exact (nodup_cons.1 (nodup_append.1 h.nodup).2.1).1 h3
  rcases eq_nil_or_concat q with rfl | ⟨q, p, rfl⟩
  · have h1 := h.pop (fun c _ => rfl)
    simpa only [htail, getLast?_nil, Option.elim_none, nil_append] using h1
  · rw [concat_eq_append, append_assoc, singleton_append] at h
    have hsame : ∀ c ∈ q ++ r, Function.update next p (next a) c = next c := by
      refine fun c hc => Function.update_of_ne ?_ _ _
      rintro rfl
      rcases mem_append.1 hc with hc | hc
      · have h2 := (nodup_append.1 h.nodup).2.2
        exact h2 c hc c mem_cons_self rfl
      · have h2 := (nodup_cons.1 (nodup_append.1 h.nodup).2.1).1
        exact h2 (mem_cons_of_mem a hc)
    have h1 := h.removeBehind hsame (Function.update_self ..)
    simpa only [htail, concat_eq_append, getLast?_concat, append_assoc,
      singleton_append, Option.elim_some] using h1

/-- Putting a node between two parts of the queue: the last node of the first part, or the head
pointer, points to it. -/
theorem insert {r : List ι} (h : IsQueue next head tail (q ++ r)) (hb : b ∉ q ++ r)
    (hsame : ∀ c ∈ q ++ r, q.getLast? ≠ some c → next' c = next c)
    (hlast : ∀ c, q.getLast? = some c → next' c = some b) (hnext : next' b = r.head?) :
    IsQueue next' (if q.getLast? = none then some b else head)
      (if r.head? = none then some b else tail) (q ++ b :: r) := by
  obtain ⟨hq, hr, hqr⟩ := nodup_append.1 h.nodup
  refine ⟨?_, ?_, ?_, ?_⟩
  · cases q with
    | nil => rfl
    | cons a q =>
      rw [if_neg (by simp), h.head_eq]
      rfl
  · cases r with
    | nil => simp
    | cons a r =>
      rw [if_neg (by simp), h.tail_eq]
      simp
  · refine h.links.insert hq (fun c hc => hsame c (mem_append_left r hc)) hlast hnext
      fun c hc => hsame c (mem_append_right q hc) fun hl => ?_
    exact hqr c (mem_of_getLast? hl) c hc rfl
  · have hperm : (q ++ b :: r).Perm (b :: (q ++ r)) := perm_middle
    exact hperm.nodup_iff.2 (nodup_cons.2 ⟨hb, h.nodup⟩)

/-- The nodes that are found along the links. -/
theorem follow_eq (h : IsQueue next head tail q) {n : ℕ} (hn : q.length ≤ n) :
    follow next n head = q := by
  obtain ⟨rfl, -, hl, -⟩ := h
  induction q generalizing n with
  | nil => cases n <;> rfl
  | cons a q ih =>
    obtain _ | n := n
    · simp at hn
    · rw [head?_cons, follow, hl.1, ih (by simpa using hn) hl.2]

end IsQueue

/-! ### Links in both directions -/

/-- A queue whose nodes also point back. -/
structure IsDeque (forw back : ι → Option ι) (head tail : Option ι) (q : List ι) : Prop where
  forw : IsQueue forw head tail q
  back : IsQueue back tail head q.reverse

namespace IsDeque

variable {forw back forw' back' : ι → Option ι} {r : List ι}

theorem nil : IsDeque forw back none none [] := ⟨.nil, .nil⟩

theorem congr (h : IsDeque forw back head tail q) (hf : ∀ a ∈ q, forw' a = forw a)
    (hb : ∀ a ∈ q, back' a = back a) : IsDeque forw' back' head tail q :=
  ⟨h.forw.congr hf, h.back.congr fun a ha => hb a (mem_reverse.1 ha)⟩

/-- The neighbours of a node. -/
theorem links_eq (h : IsDeque forw back head tail (q ++ a :: r)) :
    forw a = r.head? ∧ back a = q.getLast? := by
  have hf := (links_append.1 h.forw.links).2.1
  have hb := h.back.links
  rw [reverse_append, reverse_cons, append_assoc, singleton_append] at hb
  exact ⟨hf, (links_append.1 hb).2.1.trans head?_reverse⟩

/-- Putting a node between two parts of the queue. -/
theorem insert (h : IsDeque forw back head tail (q ++ r)) (hb : b ∉ q ++ r)
    (hf : ∀ c ∈ q ++ r, q.getLast? ≠ some c → forw' c = forw c)
    (hf' : ∀ c, q.getLast? = some c → forw' c = some b) (hfb : forw' b = r.head?)
    (hk : ∀ c ∈ q ++ r, r.head? ≠ some c → back' c = back c)
    (hk' : ∀ c, r.head? = some c → back' c = some b) (hkb : back' b = q.getLast?) :
    IsDeque forw' back' (if q.getLast? = none then some b else head)
      (if r.head? = none then some b else tail) (q ++ b :: r) := by
  refine ⟨h.forw.insert hb hf hf' hfb, ?_⟩
  have hback := h.back
  rw [reverse_append] at hback
  have hnew := hback.insert (b := b) (by simpa [or_comm] using hb)
    (fun c hc hl => hk c (by simpa [or_comm] using hc) (by rwa [getLast?_reverse] at hl))
    (fun c hl => hk' c (by rwa [getLast?_reverse] at hl)) (hkb.trans head?_reverse.symm)
  rw [getLast?_reverse, head?_reverse] at hnew
  rw [reverse_append, reverse_cons, append_assoc, singleton_append]
  exact hnew

/-- Taking the head. -/
theorem pop (h : IsDeque forw back head tail (a :: q)) (hf : ∀ c ∈ q, forw' c = forw c)
    (hk : ∀ c ∈ q, q.head? ≠ some c → back' c = back c) (hk' : ∀ c, q.head? = some c → back' c = none) :
    IsDeque forw' back' (forw a) (if forw a = none then none else tail) q := by
  refine ⟨h.forw.pop hf, ?_⟩
  cases q with
  | nil =>
    rw [h.forw.links.1]
    exact .nil
  | cons p q =>
    have hfa : forw a = some p := h.forw.links.1
    have hback := h.back
    rw [reverse_cons, reverse_cons, append_assoc, singleton_append] at hback
    have hnone : back a = none := (links_append.1 hback.links).2.2.1
    have hsame : ∀ c ∈ q.reverse ++ [], back' c = back c := fun c hc => by
      rw [append_nil, mem_reverse] at hc
      refine hk c (mem_cons_of_mem p hc) ?_
      rintro ⟨⟩
      exact (nodup_cons.1 (nodup_cons.1 h.forw.nodup).2).1 hc
    have hnew := hback.removeBehind hsame ((hk' p rfl).trans hnone.symm)
    rw [hnone, if_pos rfl] at hnew
    rw [hfa, if_neg (by simp), reverse_cons]
    exact hnew

end IsDeque

end Hpux
