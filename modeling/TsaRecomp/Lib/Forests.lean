/-
**Forests, as a parent relation.**

`r y x` says that `x` is the parent of `y`.  On finitely many nodes such a relation without cycles
is well-founded, which is the induction from the children to the parents.  Where some edges are
taken out of a relation, a path either survives or runs through the end of an edge that is missing.

Main results:

* `Forests.wellFounded_of_acyclic` — the induction from the children to the parents;
* `Forests.not_transGen_self_of_lt` — an order that every edge climbs leaves no cycles;
* `Forests.reflTransGen_or_of_cut` — a path survives, or has been cut.
-/

import Mathlib.Data.Set.Finite.Basic
import Mathlib.Order.WellFoundedSet
import Mathlib.Tactic

set_option relaxedAutoImplicit false
set_option autoImplicit false

namespace Forests

open Relation

variable {α : Type*} {r r' : α → α → Prop}

/-- A relation without cycles among finitely many nodes is well-founded. -/
theorem wellFounded_of_acyclic {s : Set α} (hs : s.Finite)
    (hmem : ∀ a b, r a b → a ∈ s ∧ b ∈ s) (hr : ∀ a, ¬ TransGen r a a) : WellFounded r := by
  have : IsStrictOrder α (TransGen r) :=
    { irrefl := hr, trans := fun _ _ _ => TransGen.trans }
  have hwf := Set.wellFoundedOn_iff.1 (hs.wellFoundedOn (r := TransGen r))
  refine Subrelation.wf ?_ hwf
  intro a b hab
  exact ⟨.single hab, hmem a b hab⟩

/-- Where every edge climbs, no path comes back. -/
theorem not_transGen_self_of_lt {β : Type*} [Preorder β] {f : α → β}
    (h : ∀ a b, r a b → f b < f a) (a : α) : ¬ TransGen r a a := by
  have hlt : ∀ {b}, TransGen r a b → f b < f a := by
    intro b hab
    induction hab with
    | single hab => exact h _ _ hab
    | tail _ hbc ih => exact (h _ _ hbc).trans ih
  exact fun haa => lt_irrefl _ (hlt haa)

/-- **Cutting edges**: what lies below a node still does, or lies below the end of an edge that is
missing, where `D` is. -/
theorem reflTransGen_or_of_cut {D : α → Prop}
    (hcut : ∀ a b, r a b → r' a b ∨ ∀ y, ReflTransGen r y a → D y) {x y : α}
    (h : ReflTransGen r y x) : ReflTransGen r' y x ∨ D y := by
  induction h with
  | refl => exact Or.inl .refl
  | @tail a b hya hab ih =>
      rcases ih with ih | hD
      · rcases hcut a b hab with hab' | hD
        · exact Or.inl (ih.tail hab')
        · exact Or.inr (hD y hya)
      · exact Or.inr hD

end Forests
