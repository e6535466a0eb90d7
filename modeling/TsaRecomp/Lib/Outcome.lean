/-
**Calls that return a value or stop.**

A fallible call is an `Except ε α`.  `Settles E P x` says that the call `x` either returns a value
that satisfies `P` or stops with an error that satisfies `E`: a Hoare triple with a postcondition
for each way out.  The rules below compose such facts along the structure of a `do` block.

Main definitions:

* `Outcome.Settles E P x`.

Main results:

* `Outcome.Settles.bind` — the sequence rule;
* `Outcome.Settles.and_of` — a stronger postcondition;
* `Outcome.Settles.of_ok`, `Outcome.Settles.of_error` — reading the two ways out back.
-/

import Mathlib.Logic.Basic

set_option relaxedAutoImplicit false
set_option autoImplicit false

namespace Outcome

variable {ε α β : Type} {E : ε → Prop} {P : α → Prop} {Q : β → Prop}

/-- The call returns a value that satisfies `P`, or stops with an error that satisfies `E`. -/
def Settles (E : ε → Prop) (P : α → Prop) : Except ε α → Prop
  | .ok a => P a
  | .error e => E e

namespace Settles

@[simp] theorem ok_iff {a : α} : Settles E P (.ok a) ↔ P a := Iff.rfl

@[simp] theorem error_iff {e : ε} : Settles E P (.error e) ↔ E e := Iff.rfl

/-- **The sequence rule.** -/
theorem bind {x : Except ε α} {f : α → Except ε β} (hx : Settles E P x)
    (hf : ∀ a, P a → Settles E Q (f a)) : Settles E Q (x >>= f) := by
  cases x with
  | error e => exact hx
  | ok a => exact hf a hx

/-- What a call returns is what it returns. -/
theorem self (x : Except ε α) : Settles (fun _ => True) (fun a => x = .ok a) x := by
  cases x with
  | error e => exact trivial
  | ok a => exact rfl

/-- What a call returns satisfies its postcondition. -/
theorem of_ok {x : Except ε α} {a : α} (h : Settles E P x) (hx : x = .ok a) : P a := by
  rw [hx] at h
  exact h

/-- What a call stops with satisfies its error condition. -/
theorem of_error {x : Except ε α} {e : ε} (h : Settles E P x) (hx : x = .error e) : E e := by
  rw [hx] at h
  exact h

/-- A stronger postcondition from a second fact about the values that are returned. -/
theorem and_of {P' : α → Prop} {x : Except ε α} (h : Settles E P x)
    (hP : ∀ a, x = .ok a → P' a) : Settles E (fun a => P a ∧ P' a) x := by
  cases x with
  | error e => exact h
  | ok a => exact ⟨h, hP a rfl⟩

end Settles

end Outcome
