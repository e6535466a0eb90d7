/-
**Lempel and Ziv's tokens, and the ring that they refer to.**

A text is given by tokens, each of them an element or a copy of what stands some distance before the
end.  A copy may run into itself: what it reads is what it has just written.  In front of the
beginning the text is blank.

A decoder need not keep the whole text: a ring of the last `N` elements is enough, as long as no
distance is longer.  There a copy is given by a place in the ring.

Main definitions:

* `LempelZiv.Token`, `LempelZiv.expand` — tokens, and **the text that they are for**;
* `LempelZiv.Ring` — a ring holds the last elements of a text;
* `LempelZiv.offsetOf`, `LempelZiv.distanceOf` — distances and places.

Main results:

* `LempelZiv.Ring.push` — writing to the ring;
* `LempelZiv.take_copyBack` — a copy that is cut short;
* `LempelZiv.offsetOf_distanceOf`, `LempelZiv.distanceOf_offsetOf`.
-/

import Mathlib.Data.List.Basic
import Mathlib.Tactic

set_option relaxedAutoImplicit false
set_option autoImplicit false

namespace LempelZiv

/-! ### Tokens -/

/-- An element, or a copy of a number of elements from a distance before the end. -/
inductive Token (α : Type*)
  | literal (a : α)
  | copy (distance length : ℕ)
  deriving DecidableEq, Repr

variable {α : Type*} (blank : α)

/-- The element at a distance before the end of a text. -/
def back (out : List α) (d : ℕ) : α := out.reverse.getD (d - 1) blank

/-- `n` elements are copied, one after the other. -/
def copyBack (d : ℕ) : ℕ → List α → List α
  | 0, out => out
  | n + 1, out => copyBack d n (out ++ [back blank out d])

/-- The text behind a token. -/
def Token.apply (out : List α) : Token α → List α
  | .literal a => out ++ [a]
  | .copy d n => copyBack blank d n out

/-- **The text behind a list of tokens.** -/
def expand (out : List α) (ts : List (Token α)) : List α := ts.foldl (Token.apply blank) out

/-- The number of elements that a token adds. -/
def Token.size : Token α → ℕ
  | .literal _ => 1
  | .copy _ n => n

section Text

variable {blank}

theorem back_concat_one (out : List α) (a : α) : back blank (out ++ [a]) 1 = a := by simp [back]

theorem back_concat_succ (out : List α) (a : α) {d : ℕ} (hd : 1 ≤ d) :
    back blank (out ++ [a]) (d + 1) = back blank out d := by
  obtain ⟨d, rfl⟩ := Nat.exists_eq_add_of_le' hd
  simp [back]

@[simp] theorem length_copyBack (d : ℕ) : ∀ (n : ℕ) (out : List α),
    (copyBack blank d n out).length = out.length + n := by
  intro n
  induction n with
  | zero => intro out; rfl
  | succ n ih =>
      intro out
      rw [copyBack, ih, List.length_append, List.length_singleton]
      omega

@[simp] theorem length_apply (out : List α) (t : Token α) :
    (t.apply blank out).length = out.length + t.size := by
  cases t with
  | literal a => simp [Token.apply, Token.size]
  | copy d n => simp [Token.apply, Token.size]

theorem prefix_copyBack (d : ℕ) : ∀ (n : ℕ) (out : List α), out <+: copyBack blank d n out := by
  intro n
  induction n with
  | zero => intro out; exact List.prefix_rfl
  | succ n ih => intro out; exact (List.prefix_append out _).trans (ih _)

theorem prefix_apply (out : List α) (t : Token α) : out <+: t.apply blank out := by
  cases t with
  | literal a => exact List.prefix_append out [a]
  | copy d n => exact prefix_copyBack d n out

theorem prefix_expand (ts : List (Token α)) : ∀ out : List α, out <+: expand blank out ts := by
  induction ts with
  | nil => intro out; exact List.prefix_rfl
  | cons t ts ih => intro out; exact (prefix_apply out t).trans (ih _)

@[simp] theorem expand_cons (out : List α) (t : Token α) (ts : List (Token α)) :
    expand blank out (t :: ts) = expand blank (t.apply blank out) ts := rfl

/-- **A copy that is cut short** is the beginning of the copy. -/
theorem take_copyBack (d : ℕ) {k n : ℕ} (h : k ≤ n) (out : List α) :
    (copyBack blank d n out).take (out.length + k) = copyBack blank d k out := by
  induction k generalizing n out with
  | zero =>
      rw [Nat.add_zero]
      exact (List.prefix_iff_eq_take.1 (prefix_copyBack d n out)).symm
  | succ k ih =>
      obtain ⟨n, rfl⟩ := Nat.exists_eq_add_of_le' (Nat.lt_of_lt_of_le (Nat.succ_pos k) h)
      have htake := ih (Nat.le_of_succ_le_succ h) (out ++ [back blank out d])
      rw [List.length_append, List.length_singleton] at htake
      rw [copyBack, copyBack, ← htake]
      congr 1
      omega

/-- What has been written stays. -/
theorem take_expand (ts : List (Token α)) {m : ℕ} {out : List α} (h : m ≤ out.length) :
    (expand blank out ts).take m = out.take m := by
  have hpre : out <+: expand blank out ts := prefix_expand ts out
  obtain ⟨more, hmore⟩ := hpre
  rw [← hmore, List.take_append_of_le_length h]

/-- What has been cut off does not matter for the beginning of the text. -/
theorem take_expand_take (ts : List (Token α)) (m : ℕ) (out : List α) :
    (expand blank (out.take m) ts).take m = (expand blank out ts).take m := by
  rcases Nat.le_total out.length m with hle | hle
  · rw [List.take_of_length_le hle]
  · rw [take_expand ts hle, take_expand ts (by simpa using hle), List.take_take, min_self]

end Text

/-! ### Places in a ring -/

/-- The place of the element at a distance, where the next one is written to `pos`. -/
def offsetOf (N pos d : ℕ) : ℕ := (pos + (N - d)) % N

/-- The distance of a place. -/
def distanceOf (N pos o : ℕ) : ℕ := N - (o + N - pos % N) % N

section Places

variable {N pos d o : ℕ}

theorem distanceOf_pos (hN : 0 < N) : 1 ≤ distanceOf N pos o := by
  have hlt := Nat.mod_lt (o + N - pos % N) hN
  unfold distanceOf
  omega

theorem distanceOf_le : distanceOf N pos o ≤ N := Nat.sub_le _ _

theorem offsetOf_lt (hN : 0 < N) : offsetOf N pos d < N := Nat.mod_lt _ hN

theorem distanceOf_mod : distanceOf N (pos % N) o = distanceOf N pos o := by
  rw [distanceOf, Nat.mod_mod, distanceOf]

theorem offsetOf_distanceOf (hN : 0 < N) (ho : o < N) :
    offsetOf N pos (distanceOf N pos o) = o := by
  have hpos := Nat.mod_lt pos hN
  have hlt := Nat.mod_lt (o + N - pos % N) hN
  have hle : N - distanceOf N pos o = (o + N - pos % N) % N := by
    unfold distanceOf
    omega
  rw [offsetOf, hle, Nat.add_mod_mod, ← Nat.mod_add_mod,
    show pos % N + (o + N - pos % N) = o + N by omega, Nat.add_mod_right, Nat.mod_eq_of_lt ho]

theorem distanceOf_offsetOf (hd : 1 ≤ d) (hdN : d ≤ N) :
    distanceOf N pos (offsetOf N pos d) = d := by
  have hN : 0 < N := by omega
  have hpos := Nat.mod_lt pos hN
  have hplace : offsetOf N pos d = (pos % N + (N - d)) % N := by rw [offsetOf, Nat.mod_add_mod]
  unfold distanceOf
  rw [hplace]
  -- the place is behind the one that is written to, or it has gone round
  rcases lt_or_ge (pos % N + (N - d)) N with hlt | hge
  · rw [Nat.mod_eq_of_lt hlt, show pos % N + (N - d) + N - pos % N = N - d + N by omega,
      Nat.add_mod_right, Nat.mod_eq_of_lt (by omega)]
    omega
  · rw [Nat.mod_eq_sub_mod hge, Nat.mod_eq_of_lt (show pos % N + (N - d) - N < N by omega),
      show pos % N + (N - d) - N + N - pos % N = N - d by omega, Nat.mod_eq_of_lt (by omega)]
    omega

/-- The place that is written to is the one of the longest distance. -/
theorem offsetOf_self : offsetOf N pos N = pos % N := by rw [offsetOf, Nat.sub_self, Nat.add_zero]

/-- A step of the place that is written to. -/
theorem offsetOf_succ : offsetOf N (pos + 1) d = (offsetOf N pos d + 1) % N := by
  rw [offsetOf, offsetOf, Nat.mod_add_mod, Nat.add_right_comm]

end Places

/-! ### The ring -/

/-- **The ring holds the last elements** of a text, the next of which is written to its place
`start + out.length`. -/
def Ring (N start : ℕ) (ring : ℕ → α) (out : List α) : Prop :=
  ∀ d, 1 ≤ d → d ≤ N → ring (offsetOf N (start + out.length) d) = back blank out d

namespace Ring

variable {blank} {N start : ℕ} {ring ring' : ℕ → α} {out : List α}

theorem empty (h : ∀ i < N, ring i = blank) : Ring blank N start ring [] := by
  intro d hd hdN
  rw [h _ (offsetOf_lt (by omega))]
  simp [back]

/-- **Writing** the next element. -/
theorem push (h : Ring blank N start ring out) {a : α}
    (hself : ring' ((start + out.length) % N) = a)
    (hother : ∀ i < N, i ≠ (start + out.length) % N → ring' i = ring i) :
    Ring blank N start ring' (out ++ [a]) := by
  intro d hd hdN
  have hN : 0 < N := by omega
  rw [List.length_append, List.length_singleton, ← Nat.add_assoc]
  obtain ⟨d, rfl⟩ := Nat.exists_eq_add_of_le' hd
  rcases Nat.eq_zero_or_pos d with rfl | hd
  · have hplace : offsetOf N (start + out.length + 1) (0 + 1) = (start + out.length) % N := by
      rw [offsetOf, show start + out.length + 1 + (N - (0 + 1)) = start + out.length + N by omega,
        Nat.add_mod_right]
    rw [hplace, hself, Nat.zero_add, back_concat_one]
  · have hplace : offsetOf N (start + out.length + 1) (d + 1) =
        offsetOf N (start + out.length) d := by
      rw [offsetOf, offsetOf]
      congr 1
      omega
    -- another place than the one that is written to
    have hne : offsetOf N (start + out.length) d ≠ (start + out.length) % N := by
      rw [← offsetOf_self]
      intro he
      have hdist := congrArg (distanceOf N (start + out.length)) he
      rw [distanceOf_offsetOf hd (by omega), distanceOf_offsetOf hN le_rfl] at hdist
      omega
    rw [hplace, hother _ (offsetOf_lt hN) hne, h d hd (by omega), back_concat_succ out a hd]

end Ring

end LempelZiv
