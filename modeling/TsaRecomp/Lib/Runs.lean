/-
**Runs of a labelled transition system under a condition on the steps taken.**

A system is a step relation `Step s a t` between states, labelled by actions.  A run is a sequence
of steps; a run *under* a condition `C` takes the action `a` in the state `s` only where `C s a`
holds.  The unconditional runs are those under the condition that always holds.

Main definitions:

* `Runs.RunsTo Step C s t` — a run from `s` to `t` under `C`;
* `Runs.Reach Step Init C t` — a run to `t` from an initial state under `C`.

Main results:

* `Runs.RunsTo.invariant`, `Runs.Reach.invariant` — **the invariant rules**: what holds at the
  start and is kept by every step of a run under `C` holds in every state the run reaches;
* `Runs.Reach.invariant_of` — the same for an invariant that rests on another one;
* `Runs.RunsTo.mono` — weakening the condition;
* `Runs.RunsTo.simulate` — **the simulation rule**: where every step is matched by a step of another
  system between the images of its ends, so is every run.
-/

import Mathlib.Logic.Basic

set_option relaxedAutoImplicit false
set_option autoImplicit false

namespace Runs

variable {σ α : Type*} {Step : σ → α → σ → Prop} {Init : σ → Prop} {C D : σ → α → Prop}

/-- A run from `s` to `t`, each step of which meets the condition `C`. -/
inductive RunsTo (Step : σ → α → σ → Prop) (C : σ → α → Prop) (s : σ) : σ → Prop
  | refl : RunsTo Step C s s
  | tail {t u : σ} (a : α) : RunsTo Step C s t → C t a → Step t a u → RunsTo Step C s u

/-- A state that a run under `C` reaches from an initial state. -/
def Reach (Step : σ → α → σ → Prop) (Init : σ → Prop) (C : σ → α → Prop) (t : σ) : Prop :=
  ∃ s, Init s ∧ RunsTo Step C s t

namespace RunsTo

theorem single {s t : σ} {a : α} (hc : C s a) (h : Step s a t) : RunsTo Step C s t :=
  tail a refl hc h

theorem trans {s t u : σ} (h : RunsTo Step C s t) (h' : RunsTo Step C t u) :
    RunsTo Step C s u := by
  induction h' with
  | refl => exact h
  | tail a _ hc hs ih => exact tail a ih hc hs

theorem mono {s t : σ} (hCD : ∀ s a, C s a → D s a) (h : RunsTo Step C s t) :
    RunsTo Step D s t := by
  induction h with
  | refl => exact refl
  | tail a _ hc hs ih => exact tail a ih (hCD _ _ hc) hs

/-- **The invariant rule for runs.** -/
theorem invariant {I : σ → Prop} (hstep : ∀ s a t, I s → C s a → Step s a t → I t) {s t : σ}
    (h : RunsTo Step C s t) (hs : I s) : I t := by
  induction h with
  | refl => exact hs
  | tail a _ hc hst ih => exact hstep _ a _ ih hc hst

/-- **The simulation rule**, for an abstraction function and steps that start in states with an
invariant. -/
theorem simulate {τ β : Type*} {Step' : τ → β → τ → Prop} {C' : τ → β → Prop} (f : σ → τ)
    {I : σ → Prop} (hstep : ∀ s a t, I s → C s a → Step s a t → I t)
    (hsim : ∀ s a t, I s → C s a → Step s a t → ∃ b, C' (f s) b ∧ Step' (f s) b (f t)) {s t : σ}
    (h : RunsTo Step C s t) (hs : I s) : RunsTo Step' C' (f s) (f t) := by
  have key : I t ∧ RunsTo Step' C' (f s) (f t) := by
    induction h with
    | refl => exact ⟨hs, refl⟩
    | tail a _ hc hst ih =>
        obtain ⟨b, hb, hst'⟩ := hsim _ a _ ih.1 hc hst
        exact ⟨hstep _ a _ ih.1 hc hst, tail b ih.2 hb hst'⟩
  exact key.2

end RunsTo

namespace Reach

theorem init {s : σ} (h : Init s) : Reach Step Init C s := ⟨s, h, RunsTo.refl⟩

theorem step {s t : σ} (h : Reach Step Init C s) (a : α) (hc : C s a) (hs : Step s a t) :
    Reach Step Init C t := by
  obtain ⟨s₀, h₀, hr⟩ := h
  exact ⟨s₀, h₀, hr.tail a hc hs⟩

theorem runsTo {s t : σ} (h : Reach Step Init C s) (hr : RunsTo Step C s t) :
    Reach Step Init C t := by
  obtain ⟨s₀, h₀, hr₀⟩ := h
  exact ⟨s₀, h₀, hr₀.trans hr⟩

/-- **The invariant rule.** -/
theorem invariant {I : σ → Prop} (hinit : ∀ s, Init s → I s)
    (hstep : ∀ s a t, I s → C s a → Step s a t → I t) {t : σ} (h : Reach Step Init C t) :
    I t := by
  obtain ⟨s₀, h₀, hr⟩ := h
  exact hr.invariant hstep (hinit s₀ h₀)

/-- The invariant rule for an invariant `I` whose steps rest on an invariant `J` that is already
known to hold of every reachable state. -/
theorem invariant_of {I J : σ → Prop} (hJ : ∀ s, Reach Step Init C s → J s)
    (hinit : ∀ s, Init s → I s)
    (hstep : ∀ s a t, J s → J t → I s → C s a → Step s a t → I t) {t : σ}
    (h : Reach Step Init C t) : I t := by
  obtain ⟨s₀, h₀, hr⟩ := h
  have key : J t ∧ I t := by
    induction hr with
    | refl => exact ⟨hJ _ (init h₀), hinit _ h₀⟩
    | @tail t u a hr hc hs ih =>
        have hu : J u := hJ _ ⟨s₀, h₀, hr.tail a hc hs⟩
        exact ⟨hu, hstep _ a _ ih.1 hu ih.2 hc hs⟩
  exact key.2

end Reach

end Runs
