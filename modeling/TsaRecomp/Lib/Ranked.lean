/-
**Progress by a rank.**

Some steps of a system move it on, and others wait.  Where no step raises a rank, a step that moves
on lowers it, and one of them can be taken as long as the rank is not zero, the system comes to rank
zero: it can always be led there, and it gets there in every run that moves on often enough.

Main definitions:

* `Runs.MovesTo Step C Moves s n t` — a run from `s` to `t` under `C`, with `n` steps that move on;
* `Runs.Ranked` — what a rank has to meet.

Main results:

* `Runs.Ranked.add_le` — a run has no more steps that move on than the rank allows;
* `Runs.Ranked.ends` — there is a run to rank zero.
-/

import Mathlib.Order.Basic
import Mathlib.Tactic.NormNum
import TsaRecomp.Lib.Runs

set_option relaxedAutoImplicit false
set_option autoImplicit false

namespace Runs

variable {σ α : Type*} {Step : σ → α → σ → Prop} {C Moves : σ → α → Prop}

/-- A run under `C`, with the number of its steps that move on. -/
inductive MovesTo (Step : σ → α → σ → Prop) (C Moves : σ → α → Prop) (s : σ) : ℕ → σ → Prop
  | refl : MovesTo Step C Moves s 0 s
  | wait {n : ℕ} {t u : σ} (a : α) : MovesTo Step C Moves s n t → C t a → ¬ Moves t a →
      Step t a u → MovesTo Step C Moves s n u
  | move {n : ℕ} {t u : σ} (a : α) : MovesTo Step C Moves s n t → C t a → Moves t a →
      Step t a u → MovesTo Step C Moves s (n + 1) u

namespace MovesTo

variable {s t : σ} {n : ℕ}

theorem runsTo (h : MovesTo Step C Moves s n t) : RunsTo Step C s t := by
  induction h with
  | refl => exact .refl
  | wait a _ hc _ hst ih => exact ih.tail a hc hst
  | move a _ hc _ hst ih => exact ih.tail a hc hst

end MovesTo

/-- **A rank** of the states with the invariant `I`. -/
structure Ranked (Step : σ → α → σ → Prop) (C Moves : σ → α → Prop) (I : σ → Prop) (rank : σ → ℕ) :
    Prop where
  keeps : ∀ s a t, I s → C s a → Step s a t → I t
  /-- No step raises the rank. -/
  le : ∀ s a t, I s → C s a → Step s a t → rank t ≤ rank s
  /-- A step that moves on lowers it. -/
  lt : ∀ s a t, I s → C s a → Moves s a → Step s a t → rank t < rank s
  /-- There is such a step as long as the rank is not zero. -/
  enabled : ∀ s, I s → rank s ≠ 0 → ∃ a t, C s a ∧ Moves s a ∧ Step s a t

namespace Ranked

variable {I : σ → Prop} {rank : σ → ℕ} {s t : σ} {n : ℕ}

/-- **The bound**: the steps of a run that move on are paid by the rank. -/
theorem add_le (h : Ranked Step C Moves I rank) (hs : I s) (hr : MovesTo Step C Moves s n t) :
    rank t + n ≤ rank s := by
  induction hr with
  | refl => exact le_rfl
  | wait a hr hc _ hst ih =>
      have hI := hr.runsTo.invariant h.keeps hs
      exact (Nat.add_le_add_right (h.le _ a _ hI hc hst) _).trans ih
  | move a hr hc hm hst ih =>
      have hI := hr.runsTo.invariant h.keeps hs
      have hlt := h.lt _ a _ hI hc hm hst
      omega

/-- **A run to rank zero.** -/
theorem ends (h : Ranked Step C Moves I rank) (hs : I s) :
    ∃ t, RunsTo Step C s t ∧ I t ∧ rank t = 0 := by
  induction hn : rank s using Nat.strong_induction_on generalizing s with
  | _ n ih =>
      by_cases h0 : rank s = 0
      · exact ⟨s, .refl, hs, h0⟩
      · obtain ⟨a, t, hc, hm, hst⟩ := h.enabled s hs h0
        obtain ⟨u, hr, hu, hu0⟩ := ih (rank t) (hn ▸ h.lt s a t hs hc hm hst)
          (h.keeps s a t hs hc hst) rfl
        exact ⟨u, (RunsTo.single hc hst).trans hr, hu, hu0⟩

end Ranked

end Runs
