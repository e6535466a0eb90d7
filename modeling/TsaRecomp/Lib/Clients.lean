/-
**Clients of a component, and what they can tell.**

A component answers calls and changes its state.  A client makes calls, and picks the next one by
the answers it has seen; nothing else of the component is open to it.  When each call has the same
answer on two components whose states are related, and leaves them related, then no client can tell
one component from the other.

Main definitions:

* `Clients.Client`, `Clients.play` — a client, and a number of rounds with a component;
* `Clients.Keeps` — a client that keeps to the calls a component allows;
* `Clients.Simulates` — one call, on two components;
* `Clients.script` — the client of a list of calls.

Main results:

* `Clients.Simulates.play` — **no client can tell the components**;
* `Clients.Keeps.invariant`, `Clients.Keeps.answers` — what every allowed call keeps, and what
  every answer to one is like.
-/

import Mathlib.Data.Nat.Notation

set_option relaxedAutoImplicit false
set_option autoImplicit false

namespace Clients

variable {Call Answer S T : Type*}

/-- A client: the next call by the answers so far, the latest first. -/
abbrev Client (Call Answer : Type*) := List Answer → Option Call

/-- Some rounds of a client with a component. -/
def play (step : S → Call → Answer × S) (c : Client Call Answer) :
    ℕ → List Answer × S → List Answer × S
  | 0, x => x
  | n + 1, (seen, s) =>
      match c seen with
      | none => (seen, s)
      | some call => play step c n ((step s call).1 :: seen, (step s call).2)

/-- The client makes only calls that are allowed. -/
def Keeps (step : S → Call → Answer × S) (allowed : S → Call → Prop) (c : Client Call Answer) :
    ℕ → List Answer × S → Prop
  | 0, _ => True
  | n + 1, (seen, s) =>
      match c seen with
      | none => True
      | some call => allowed s call ∧
          Keeps step allowed c n ((step s call).1 :: seen, (step s call).2)

/-- **One call on two components**: the answers are the same, and the states stay related. -/
structure Simulates (step : S → Call → Answer × S) (step' : T → Call → Answer × T)
    (Rel : S → T → Prop) (allowed : T → Call → Prop) : Prop where
  answer : ∀ s t call, Rel s t → allowed t call → (step s call).1 = (step' t call).1
  next : ∀ s t call, Rel s t → allowed t call → Rel (step s call).2 (step' t call).2

variable {step : S → Call → Answer × S} {step' : T → Call → Answer × T} {Rel : S → T → Prop}
  {allowed : T → Call → Prop} {c : Client Call Answer} {n : ℕ} {seen : List Answer} {s : S} {t : T}

/-- **No client can tell the components**: it sees the same answers. -/
theorem Simulates.play (h : Simulates step step' Rel allowed) (hr : Rel s t)
    (hk : Keeps step' allowed c n (seen, t)) :
    (play step c n (seen, s)).1 = (play step' c n (seen, t)).1 ∧
      Rel (play step c n (seen, s)).2 (play step' c n (seen, t)).2 := by
  induction n generalizing seen s t with
  | zero => exact ⟨rfl, hr⟩
  | succ n ih =>
      unfold Keeps at hk
      unfold Clients.play
      cases hc : c seen with
      | none => exact ⟨rfl, hr⟩
      | some call =>
          simp only [hc] at hk ⊢
          rw [h.answer s t call hr hk.1]
          exact ih (h.next s t call hr hk.1) hk.2

/-- **What every allowed call keeps**, a client keeps. -/
theorem Keeps.invariant {I : T → Prop} (hstep : ∀ t call, I t → allowed t call → I (step' t call).2)
    (hk : Keeps step' allowed c n (seen, t)) (hi : I t) :
    I (Clients.play step' c n (seen, t)).2 := by
  induction n generalizing seen t with
  | zero => exact hi
  | succ n ih =>
      unfold Keeps at hk
      unfold Clients.play
      cases hc : c seen with
      | none => exact hi
      | some call =>
          simp only [hc] at hk ⊢
          exact ih hk.2 (hstep t call hi hk.1)

/-- **What every answer to an allowed call is like**, all that a client sees is like. -/
theorem Keeps.answers {P : Answer → Prop} {I : T → Prop}
    (hanswer : ∀ t call, I t → allowed t call → P (step' t call).1)
    (hstep : ∀ t call, I t → allowed t call → I (step' t call).2)
    (hk : Keeps step' allowed c n (seen, t)) (hi : I t) (hseen : ∀ a ∈ seen, P a) :
    ∀ a ∈ (Clients.play step' c n (seen, t)).1, P a := by
  induction n generalizing seen t with
  | zero => exact hseen
  | succ n ih =>
      unfold Keeps at hk
      unfold Clients.play
      cases hc : c seen with
      | none => exact hseen
      | some call =>
          simp only [hc] at hk ⊢
          refine ih hk.2 (hstep t call hi hk.1) ?_
          intro a ha
          rcases List.mem_cons.1 ha with rfl | hmem
          · exact hanswer t call hi hk.1
          · exact hseen a hmem

/-- The client that makes the calls of a list, one after the other. -/
def script (calls : List Call) : Client Call Answer := fun seen => calls[seen.length]?

end Clients
