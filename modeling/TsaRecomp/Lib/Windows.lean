/-
**Windows of a buffer.**

A buffer is written to in loops, and passed on as a pointer and a length.  What such a window holds
is a list; the loops that fill the buffer are known by the windows that they leave.

Main definitions:

* `Windows.window` — the elements from a place on, as many as are asked for;
* `Windows.fill` — the loop that writes to the places of a window, one after the other.

Main results:

* `Windows.window_add` — a window in two parts;
* `Windows.window_fill`, `Windows.window_fill_before` — the windows behind the loop.
-/

import Mathlib.Logic.Function.Basic
import Mathlib.Tactic

set_option relaxedAutoImplicit false
set_option autoImplicit false

namespace Windows

variable {α : Type*}

/-- The `n` elements from a place on. -/
def window (b : ℕ → α) : ℕ → ℕ → List α
  | _, 0 => []
  | start, n + 1 => b start :: window b (start + 1) n

/-- The loop `for (i = 0; i < n; i++) b[start + i] = f(i)`. -/
def fill (b : ℕ → α) (start : ℕ) (f : ℕ → α) : ℕ → ℕ → α
  | 0 => b
  | n + 1 => Function.update (fill b start f n) (start + n) (f n)

variable {b b' f : ℕ → α} {start start' m n i : ℕ}

@[simp] theorem length_window : (window b start n).length = n := by
  induction n generalizing start with
  | zero => rfl
  | succ n ih => simp [window, ih]

/-- **A window in two parts.** -/
theorem window_add : window b start (m + n) = window b start m ++ window b (start + m) n := by
  induction m generalizing start with
  | zero => simp [window]
  | succ m ih =>
      rw [Nat.add_right_comm, window, window, ih, List.cons_append, Nat.add_assoc, Nat.add_comm 1]

/-- Windows with the same elements. -/
theorem window_congr (h : ∀ i < n, b (start + i) = b' (start' + i)) :
    window b start n = window b' start' n := by
  induction n generalizing start start' with
  | zero => rfl
  | succ n ih =>
      have hfirst := h 0 (Nat.succ_pos n)
      have hrest : window b (start + 1) n = window b' (start' + 1) n := by
        refine ih fun i hi => ?_
        have hnext := h (i + 1) (Nat.succ_lt_succ hi)
        rwa [Nat.add_comm i, ← Nat.add_assoc, ← Nat.add_assoc] at hnext
      rw [window, window, hrest]
      exact congrArg (· :: _) hfirst

theorem window_const (a : α) : window (fun _ => a) start n = List.replicate n a := by
  induction n generalizing start with
  | zero => rfl
  | succ n ih => rw [window, ih, List.replicate_succ]

/-- The places in front of the window are left alone. -/
theorem fill_of_lt (h : i < start) : fill b start f n i = b i := by
  induction n with
  | zero => rfl
  | succ n ih => rw [fill, Function.update_of_ne (by omega), ih]

theorem fill_apply (h : i < n) : fill b start f n (start + i) = f i := by
  induction n with
  | zero => omega
  | succ n ih =>
      rw [fill]
      rcases Nat.lt_succ_iff_lt_or_eq.1 h with hi | rfl
      · rw [Function.update_of_ne (by omega), ih hi]
      · rw [Function.update_self]

/-- **What the loop has written.** -/
theorem window_fill : window (fill b start f n) start n = window f 0 n :=
  window_congr fun i hi => by rw [fill_apply hi, Nat.zero_add]

/-- A window in front of the places that are written to. -/
theorem window_fill_before (h : start' + m ≤ start) :
    window (fill b start f n) start' m = window b start' m :=
  window_congr fun i hi => fill_of_lt (by omega)

end Windows
