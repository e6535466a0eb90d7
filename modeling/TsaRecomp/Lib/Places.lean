/-
**Places that are written to in turn.**

A loop goes through a list of places of a state, and changes what it finds at each of them.  As long
as the places have nothing in common, the order does not matter, and a place is changed by its own
round only.

Main definitions:

* `Places.Access` — how the places of a state are read and written;
* `Places.Access.Apart` — places that have nothing in common;
* `Places.Access.modifyAll` — the loop.

Main results:

* `Places.Access.Apart.read_modifyAll` — **every place is changed once**;
* `Places.Access.observe_modifyAll` — and nothing else is.
-/

import Mathlib.Data.List.Nodup

set_option relaxedAutoImplicit false
set_option autoImplicit false

namespace Places

/-- How the places of a state are read and written. -/
structure Access (S P V : Type*) where
  read : P → S → V
  write : P → V → S → S

namespace Access

variable {S P V α : Type*} {a : Access S P V} {places : List P} {p : P} {s : S}

/-- **Places that have nothing in common**: what is written shows at its place, and not at the
others. -/
structure Apart (a : Access S P V) (places : List P) : Prop where
  nodup : places.Nodup
  self : ∀ p ∈ places, ∀ v s, a.read p (a.write p v s) = v
  other : ∀ p ∈ places, ∀ q ∈ places, p ≠ q → ∀ v s, a.read q (a.write p v s) = a.read q s

/-- The loop over the places. -/
def modifyAll (a : Access S P V) (f : V → V) : List P → S → S
  | [], s => s
  | p :: places, s => modifyAll a f places (a.write p (f (a.read p s)) s)

theorem Apart.tail (h : a.Apart (p :: places)) : a.Apart places where
  nodup := (List.nodup_cons.1 h.nodup).2
  self q hq := h.self q (List.mem_cons_of_mem p hq)
  other q hq r hr := h.other q (List.mem_cons_of_mem p hq) r (List.mem_cons_of_mem p hr)

/-- **What no write changes**, the loop does not change. -/
theorem observe_modifyAll (observe : S → α) (f : V → V)
    (h : ∀ p ∈ places, ∀ v s, observe (a.write p v s) = observe s) :
    observe (a.modifyAll f places s) = observe s := by
  induction places generalizing s with
  | nil => rfl
  | cons p places ih =>
      rw [modifyAll, ih fun q hq => h q (List.mem_cons_of_mem p hq)]
      exact h p List.mem_cons_self _ _

/-- The loop over some of the places leaves the others alone. -/
theorem Apart.read_modifyAll_of_notMem (h : a.Apart places) (f : V → V) {some : List P}
    (hsub : some ⊆ places) (hp : p ∈ places) (hnot : p ∉ some) :
    a.read p (a.modifyAll f some s) = a.read p s := by
  refine observe_modifyAll (a.read p) f fun q hq v s => ?_
  refine h.other q (hsub hq) p hp ?_ v s
  rintro rfl
  exact hnot hq

/-- **Every place is changed once.** -/
theorem Apart.read_modifyAll (h : a.Apart places) (f : V → V) (hp : p ∈ places) :
    a.read p (a.modifyAll f places s) = f (a.read p s) := by
  induction places generalizing s with
  | nil => cases hp
  | cons q places ih =>
      rw [modifyAll]
      rcases List.mem_cons.1 hp with rfl | hmem
      · -- its own round, and the ones behind
        rw [h.read_modifyAll_of_notMem f (List.subset_cons_self p places) hp
          (List.nodup_cons.1 h.nodup).1]
        exact h.self p hp _ _
      · rw [ih h.tail hmem, h.other q List.mem_cons_self p hp]
        rintro rfl
        exact (List.nodup_cons.1 h.nodup).1 hmem

end Access

end Places
