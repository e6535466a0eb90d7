/-
**Histories of shared objects.**

Callers share an object, and each call of one of them takes a number of steps between its invocation
and its response, which the steps of others come in between of.  What can be seen from outside is
the history, the invocations and the responses in the order in which they happen.

The atomic object is the one to compare with: there a call takes effect at once, at some point
between its invocation and its response.  An object is linearizable when its histories are histories
of the atomic object.

Main definitions:

* `Histories.Event`, `Histories.Trace` — histories, and the runs that leave them;
* `Histories.Atomic`, `Histories.atomicStep` — **the atomic object**;
* `Histories.Follows` — the atomic object goes along with a step of another one.

Main results:

* `Histories.Follows.trace` — **an object that it always goes along with is linearizable**;
* `Histories.Sequential.of_trace` — the calls of the atomic object have an effect one after the
  other.
-/

import Mathlib.Logic.Function.Basic

set_option relaxedAutoImplicit false
set_option autoImplicit false

namespace Histories

/-! ### Runs and histories -/

/-- What can be seen from outside. -/
inductive Event (ι Call Answer : Type*)
  | invoke (i : ι) (c : Call)
  | respond (i : ι) (a : Answer)
  deriving DecidableEq

/-- A run whose steps all meet a condition, with the history that it leaves. -/
inductive Trace {σ α E : Type*} (Step : σ → α → σ → Prop) (C : σ → α → Prop)
    (event : α → Option E) (s : σ) : List E → σ → Prop
  | refl : Trace Step C event s [] s
  | tail {es : List E} {t u : σ} (a : α) : Trace Step C event s es t → C t a → Step t a u →
      Trace Step C event s (es ++ (event a).toList) u

namespace Trace

variable {σ α E : Type*} {Step : σ → α → σ → Prop} {C : σ → α → Prop} {event : α → Option E}

/-- **The invariant rule.** -/
theorem invariant {I : σ → Prop} (hstep : ∀ s a t, I s → C s a → Step s a t → I t) {s t : σ}
    {es : List E} (h : Trace Step C event s es t) (hs : I s) : I t := by
  induction h with
  | refl => exact hs
  | tail a _ hc hst ih => exact hstep _ a _ ih hc hst

theorem append {s t u : σ} {es es' : List E} (h : Trace Step C event s es t)
    (h' : Trace Step C event t es' u) : Trace Step C event s (es ++ es') u := by
  induction h' with
  | refl => simpa using h
  | tail a _ hc hst ih =>
      rw [← List.append_assoc]
      exact .tail a ih hc hst

/-- A single step. -/
theorem single {s t : σ} (a : α) (hc : C s a) (hst : Step s a t) :
    Trace Step C event s (event a).toList t := .tail a .refl hc hst

end Trace

/-! ### The atomic object -/

/-- Where a call is. -/
inductive Status (Call Answer : Type*)
  | idle
  | called (c : Call)
  | answered (a : Answer)

/-- The atomic object, with the calls that are under way. -/
structure Atomic (ι Call Answer S : Type*) where
  store : S
  status : ι → Status Call Answer

/-- The steps of a call. -/
inductive AtomicAct (ι Call Answer : Type*)
  | invoke (i : ι) (c : Call)
  | effect (i : ι)
  | respond (i : ι) (a : Answer)

/-- What is seen of a step. -/
def AtomicAct.event {ι Call Answer : Type*} : AtomicAct ι Call Answer →
    Option (Event ι Call Answer)
  | .invoke i c => some (.invoke i c)
  | .effect _ => none
  | .respond i a => some (.respond i a)

section Atomic

variable {ι Call Answer S : Type*} [DecidableEq ι]

/-- A step of the atomic object, by what a call does. -/
def atomicStep (spec : S → Call → Answer → S → Prop) (s : Atomic ι Call Answer S) :
    AtomicAct ι Call Answer → Atomic ι Call Answer S → Prop
  | .invoke i c, t =>
      s.status i = .idle ∧ t = ⟨s.store, Function.update s.status i (.called c)⟩
  | .effect i, t => ∃ c a store, s.status i = .called c ∧ spec s.store c a store ∧
      t = ⟨store, Function.update s.status i (.answered a)⟩
  | .respond i a, t =>
      s.status i = .answered a ∧ t = ⟨s.store, Function.update s.status i .idle⟩

/-- The runs of the atomic object. -/
abbrev AtomicTrace (spec : S → Call → Answer → S → Prop) (s : Atomic ι Call Answer S)
    (es : List (Event ι Call Answer)) (t : Atomic ι Call Answer S) : Prop :=
  Trace (atomicStep spec) (fun _ _ => True) AtomicAct.event s es t

/-- A call that has been answered, where one call has gone on. -/
theorem answered_of_update {status : ι → Status Call Answer} {i j : ι} {x : Status Call Answer}
    {a : Answer} (h : Function.update status i x j = .answered a) :
    j = i ∧ x = .answered a ∨ status j = .answered a := by
  by_cases hj : j = i
  · subst hj
    exact Or.inl ⟨rfl, by simpa using h⟩
  · rw [Function.update_of_ne hj] at h
    exact Or.inr h

/-- The calls have an effect one after the other. -/
inductive Sequential (spec : S → Call → Answer → S → Prop) (s : S) : List (Call × Answer) → S → Prop
  | nil : Sequential spec s [] s
  | snoc {cs : List (Call × Answer)} {t u : S} {c : Call} {a : Answer} :
      Sequential spec s cs t → spec t c a u → Sequential spec s (cs ++ [(c, a)]) u

/-- **The atomic object is sequential**: what is stored has been made by calls one after the other,
and each response that a history shows is one of theirs. -/
theorem Sequential.of_trace {spec : S → Call → Answer → S → Prop} {s t : Atomic ι Call Answer S}
    {es : List (Event ι Call Answer)} (h : AtomicTrace spec s es t)
    (hidle : ∀ i, s.status i = .idle) : ∃ cs, Sequential spec s.store cs t.store ∧
      (∀ i a, t.status i = .answered a → ∃ c, (c, a) ∈ cs) ∧
      ∀ i a, Event.respond i a ∈ es → ∃ c, (c, a) ∈ cs := by
  induction h with
  | refl => exact ⟨[], .nil, fun i a hi => (by rw [hidle] at hi; cases hi), fun i a hi => by cases hi⟩
  | @tail es t u act h _ hst ih =>
      obtain ⟨cs, hcs, hans, hresp⟩ := ih
      cases act with
      | invoke i c =>
          obtain ⟨-, rfl⟩ := hst
          refine ⟨cs, hcs, ?_, ?_⟩
          · intro j a hj
            rcases answered_of_update hj with ⟨-, hx⟩ | hj
            · cases hx
            · exact hans j a hj
          · intro j a hj
            exact hresp j a (by simpa [AtomicAct.event] using hj)
      | effect i =>
          obtain ⟨c, b, store, -, hspec, rfl⟩ := hst
          refine ⟨cs ++ [(c, b)], hcs.snoc hspec, ?_, ?_⟩
          · intro j a hj
            rcases answered_of_update hj with ⟨-, hx⟩ | hj
            · cases hx
              exact ⟨c, by simp⟩
            · obtain ⟨d, hd⟩ := hans j a hj
              exact ⟨d, List.mem_append_left _ hd⟩
          · intro j a hj
            obtain ⟨d, hd⟩ := hresp j a (by simpa [AtomicAct.event] using hj)
            exact ⟨d, List.mem_append_left _ hd⟩
      | respond i b =>
          obtain ⟨hi, rfl⟩ := hst
          refine ⟨cs, hcs, ?_, ?_⟩
          · intro j a hj
            rcases answered_of_update hj with ⟨-, hx⟩ | hj
            · cases hx
            · exact hans j a hj
          · intro j a hj
            rcases List.mem_append.1 hj with hj | hj
            · exact hresp j a hj
            · cases List.mem_singleton.1 hj
              exact hans i b hi

/-! ### Linearizability -/

variable {σ α : Type*} {Step : σ → α → σ → Prop} {C : σ → α → Prop}
  {event : α → Option (Event ι Call Answer)}

/-- **The atomic object goes along**: a step of an object that is related to it leaves a history
that some steps of it leave as well, and keeps the relation. -/
def Follows (Step : σ → α → σ → Prop) (C : σ → α → Prop) (event : α → Option (Event ι Call Answer))
    (spec : S → Call → Answer → S → Prop) (Rel : σ → Atomic ι Call Answer S → Prop) : Prop :=
  ∀ s a t u, Rel s u → C s a → Step s a t →
    ∃ v, AtomicTrace spec u (event a).toList v ∧ Rel t v

/-- **An object that the atomic one goes along with is linearizable.** -/
theorem Follows.trace {spec : S → Call → Answer → S → Prop}
    {Rel : σ → Atomic ι Call Answer S → Prop} (hf : Follows Step C event spec Rel) {s t : σ}
    {es : List (Event ι Call Answer)} (h : Trace Step C event s es t) {u : Atomic ι Call Answer S}
    (hr : Rel s u) : ∃ v, AtomicTrace spec u es v ∧ Rel t v := by
  induction h with
  | refl => exact ⟨u, .refl, hr⟩
  | tail a _ hc hst ih =>
      obtain ⟨v, hv, hr'⟩ := ih
      obtain ⟨w, hw, hr''⟩ := hf _ a _ v hr' hc hst
      exact ⟨w, hv.append hw, hr''⟩

end Atomic

end Histories
