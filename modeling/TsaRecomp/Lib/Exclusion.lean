/-
**Mutual exclusion by a busy flag.**

A section of code is guarded by a flag: a thread that finds the flag clear sets it and is inside,
and clears it when it leaves.  Where finding and setting are one step, at most one thread is inside,
and the flag says whether one is.

Main definitions:

* `Exclusion.Guarded` — the flag says whether a thread is inside, and no two are.

Main results:

* `Exclusion.Guarded.enter`, `Exclusion.Guarded.leave`, `Exclusion.Guarded.stay` — the three ways
  for a thread to move.
-/

import Mathlib.Tactic

set_option relaxedAutoImplicit false
set_option autoImplicit false

namespace Exclusion

variable {T : Type*}

/-- **Guarded**: the flag is set when a thread is inside, and there is at most one. -/
structure Guarded (Inside : T → Prop) (busy : Prop) : Prop where
  busy_iff : busy ↔ ∃ t, Inside t
  unique : ∀ t t', Inside t → Inside t' → t = t'

namespace Guarded

variable {Inside Inside' : T → Prop} {busy busy' : Prop} {t : T}

theorem empty (h : ∀ t, ¬ Inside t) (hbusy : ¬ busy) : Guarded Inside busy :=
  ⟨⟨fun hb => absurd hb hbusy, fun ⟨t, ht⟩ => absurd ht (h t)⟩, fun t _ ht _ => absurd ht (h t)⟩

/-- A thread finds the flag clear, and sets it. -/
theorem enter (h : Guarded Inside busy) (hfree : ¬ busy) (hself : Inside' t)
    (hother : ∀ u, u ≠ t → (Inside' u ↔ Inside u)) (hbusy : busy') : Guarded Inside' busy' := by
  -- nobody else is inside
  have halone : ∀ u, Inside' u → u = t := by
    intro u hu
    by_contra hne
    exact hfree (h.busy_iff.2 ⟨u, (hother u hne).1 hu⟩)
  refine ⟨⟨fun _ => ⟨t, hself⟩, fun _ => hbusy⟩, fun u v hu hv => ?_⟩
  rw [halone u hu, halone v hv]

/-- The thread that is inside leaves, and clears the flag. -/
theorem leave (h : Guarded Inside busy) (hin : Inside t) (hself : ¬ Inside' t)
    (hother : ∀ u, u ≠ t → (Inside' u ↔ Inside u)) (hbusy : ¬ busy') : Guarded Inside' busy' := by
  refine empty (fun u hu => ?_) hbusy
  by_cases hut : u = t
  · exact hself (hut ▸ hu)
  · exact hut (h.unique u t ((hother u hut).1 hu) hin)

/-- A thread moves on the side that it is on. -/
theorem stay (h : Guarded Inside busy) (hself : Inside' t ↔ Inside t)
    (hother : ∀ u, u ≠ t → (Inside' u ↔ Inside u)) (hbusy : busy' ↔ busy) :
    Guarded Inside' busy' := by
  have hiff : ∀ u, Inside' u ↔ Inside u := by
    intro u
    by_cases hut : u = t
    · rw [hut, hself]
    · exact hother u hut
  refine ⟨?_, fun u v hu hv => h.unique u v ((hiff u).1 hu) ((hiff v).1 hv)⟩
  rw [hbusy, h.busy_iff, exists_congr hiff]

end Guarded

end Exclusion
