/-
**Two threads, and one after the other.**

Two threads share a state, and take turns in any order.  Where a step of the second thread and a
step of the first behind it can always be taken in the other order, every run of the two is a run of
the first and then a run of the second, with the same end.

Main definitions:

* `Movers.Step` — a step of one of the two threads;
* `Movers.Swaps` — a step of the first thread can be taken before one of the second.

Main results:

* `Movers.run_symm` — the threads change places;
* `Movers.run_left`, `Movers.run_right` — a thread by itself;
* `Movers.Swaps.before_run` — a step of the second thread moves behind a run of the first;
* `Movers.Swaps.serial` — **the threads run one after the other**.
-/

import Mathlib.Logic.Relation

set_option relaxedAutoImplicit false
set_option autoImplicit false

namespace Movers

open Relation (ReflTransGen)

/-- **The run rule**: what every step keeps is kept by a run. -/
theorem invariant_run {σ : Type*} {step : σ → σ → Prop} {I : σ → Prop}
    (hstep : ∀ x y, I x → step x y → I y) {x y : σ} (h : ReflTransGen step x y) (hx : I x) :
    I y := by
  induction h with
  | refl => exact hx
  | tail _ hst ih => exact hstep _ _ ih hst

variable {A B S : Type*}

/-- A step of one of the two threads, each with its own part of the state and the shared one. -/
inductive Step (stepA : A × S → A × S → Prop) (stepB : B × S → B × S → Prop) :
    A × B × S → A × B × S → Prop
  | left {a a' : A} {s s' : S} (b : B) : stepA (a, s) (a', s') → Step stepA stepB (a, b, s)
      (a', b, s')
  | right {b b' : B} {s s' : S} (a : A) : stepB (b, s) (b', s') → Step stepA stepB (a, b, s)
      (a, b', s')

/-- **The steps swap**, in the states with an invariant. -/
def Swaps (stepA : A × S → A × S → Prop) (stepB : B × S → B × S → Prop) (I : A × B × S → Prop) :
    Prop :=
  ∀ {a b s b' s₁ a' s₂}, I (a, b, s) → stepB (b, s) (b', s₁) → stepA (a, s₁) (a', s₂) →
    ∃ s₁', stepA (a, s) (a', s₁') ∧ stepB (b, s₁') (b', s₂)

variable {stepA : A × S → A × S → Prop} {stepB : B × S → B × S → Prop} {I : A × B × S → Prop}

/-- It does not matter which of the threads comes first. -/
theorem run_symm {a a' : A} {b b' : B} {s s' : S}
    (h : ReflTransGen (Step stepA stepB) (a, b, s) (a', b', s')) :
    ReflTransGen (Step stepB stepA) (b, a, s) (b', a', s') := by
  refine h.lift (fun x : A × B × S => (x.2.1, x.1, x.2.2)) ?_
  intro x y hst
  cases hst with
  | left b ha => exact .right b ha
  | right a hb => exact .left a hb

/-- A thread by itself, while the other one waits. -/
theorem run_left {a a' : A} {s s' : S} (b : B) (h : ReflTransGen stepA (a, s) (a', s')) :
    ReflTransGen (Step stepA stepB) (a, b, s) (a', b, s') :=
  h.lift (fun x : A × S => (x.1, b, x.2)) fun _ _ hst => .left b hst

theorem run_right {b b' : B} {s s' : S} (a : A) (h : ReflTransGen stepB (b, s) (b', s')) :
    ReflTransGen (Step stepA stepB) (a, b, s) (a, b', s') :=
  h.lift (fun x : B × S => (a, x.1, x.2)) fun _ _ hst => .right a hst

/-- A step of the second thread moves behind a run of the first. -/
theorem Swaps.before_run (h : Swaps stepA stepB I)
    (hI : ∀ x y, I x → Step stepA stepB x y → I y) {a a' : A} {b b' : B} {s s₁ t : S}
    (hb : stepB (b, s) (b', s₁)) (ha : ReflTransGen stepA (a, s₁) (a', t)) (hs : I (a, b, s)) :
    ∃ t', ReflTransGen stepA (a, s) (a', t') ∧ stepB (b, t') (b', t) := by
  generalize hx : (a, s₁) = x at ha
  induction ha using ReflTransGen.head_induction_on generalizing a s s₁ with
  | refl =>
      obtain ⟨rfl, rfl⟩ := Prod.mk.inj hx
      exact ⟨s, .refl, hb⟩
  | @head x y hstep hrest ih =>
      subst hx
      obtain ⟨a₁, u⟩ := y
      obtain ⟨u', hu, hb'⟩ := h hs hb hstep
      obtain ⟨t', ht', hbt⟩ := ih hb' (hI _ _ hs (.left b hu)) rfl
      exact ⟨t', .head hu ht', hbt⟩

/-- **The threads run one after the other.** -/
theorem Swaps.serial (h : Swaps stepA stepB I) (hI : ∀ x y, I x → Step stepA stepB x y → I y)
    {a a' : A} {b b' : B} {s s' : S}
    (hr : ReflTransGen (Step stepA stepB) (a, b, s) (a', b', s')) (hs : I (a, b, s)) :
    ∃ t, ReflTransGen stepA (a, s) (a', t) ∧ ReflTransGen stepB (b, t) (b', s') := by
  generalize hx : (a, b, s) = x at hr
  induction hr using ReflTransGen.head_induction_on generalizing a b s with
  | refl =>
      obtain ⟨rfl, hbs⟩ := Prod.mk.inj hx
      obtain ⟨rfl, rfl⟩ := Prod.mk.inj hbs
      exact ⟨s, .refl, .refl⟩
  | @head x y hstep hrest ih =>
      subst hx
      cases hstep with
      | left b ha =>
          obtain ⟨t, hta, htb⟩ := ih (hI _ _ hs (.left b ha)) rfl
          exact ⟨t, .head ha hta, htb⟩
      | right a hb =>
          obtain ⟨t, hta, htb⟩ := ih (hI _ _ hs (.right a hb)) rfl
          obtain ⟨t', ht', hbt⟩ := h.before_run hI hb hta hs
          exact ⟨t', ht', .head hbt htb⟩

end Movers
