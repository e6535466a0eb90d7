/-
**Ownership of blocks.**

A program that allocates and frees blocks by hand keeps each allocated block in one place, and knows
from the place when to free it.  The places and what they hold, against the list of the allocated
blocks: as long as the two are balanced, nothing is leaked, and what a place gives up can be freed.

Main definitions:

* `Ownership.Balanced` — every allocated block is held, in one place, and nothing else is;
* `Ownership.Backed` — the same, where blocks may have been leaked;
* `Ownership.Freed` — blocks that have been freed one after the other, each of them once.

Main results:

* `Ownership.Balanced.put`, `Ownership.Balanced.drop` — a fresh block is put into an empty place,
  and the block of a place is freed; `Ownership.Backed.put`, `Ownership.Backed.drop` as well;
* `Ownership.Freed.cons` — the step of a loop that frees.
-/

import Mathlib.Data.List.Nodup
import Mathlib.Tactic

set_option relaxedAutoImplicit false
set_option autoImplicit false

namespace Ownership

variable {P B : Type*}

/-- **Balanced**: what the places hold are the allocated blocks, each in one place. -/
structure Balanced (held : P → Option B) (blocks : List B) : Prop where
  nodup : blocks.Nodup
  mem_iff : ∀ {b}, b ∈ blocks ↔ ∃ p, held p = some b
  unique : ∀ {p q b}, held p = some b → held q = some b → p = q

/-- The places behind a change to one of them. -/
structure Changed (held held' : P → Option B) (p : P) (b : Option B) : Prop where
  self : held' p = b
  other : ∀ q, q ≠ p → held' q = held q

namespace Balanced

variable {held held' : P → Option B} {blocks : List B} {p : P} {b : B}

theorem empty : Balanced (fun _ : P => (none : Option B)) [] where
  nodup := List.nodup_nil
  mem_iff := by simp
  unique := by simp

theorem congr (h : Balanced held blocks) (he : ∀ p, held' p = held p) : Balanced held' blocks := by
  obtain rfl : held' = held := funext he
  exact h

/-- A fresh block is put into an empty place. -/
theorem put (h : Balanced held blocks) (hp : held p = none) (hb : b ∉ blocks)
    (hc : Changed held held' p (some b)) : Balanced held' (b :: blocks) := by
  have hfresh : ∀ q, held q ≠ some b := fun q hq => hb (h.mem_iff.2 ⟨q, hq⟩)
  refine ⟨List.nodup_cons.2 ⟨hb, h.nodup⟩, ?_, ?_⟩
  · intro c
    rw [List.mem_cons, h.mem_iff]
    constructor
    · rintro (rfl | ⟨q, hq⟩)
      · exact ⟨p, hc.self⟩
      · have hne : q ≠ p := by
          rintro rfl
          simp [hp] at hq
        exact ⟨q, (hc.other q hne).trans hq⟩
    · rintro ⟨q, hq⟩
      by_cases hqp : q = p
      · subst hqp
        exact Or.inl (Option.some.inj (hq.symm.trans hc.self))
      · exact Or.inr ⟨q, (hc.other q hqp).symm.trans hq⟩
  · intro q r c hq hr
    by_cases hqp : q = p <;> by_cases hrp : r = p
    · rw [hqp, hrp]
    · subst hqp
      rw [← Option.some.inj (hc.self.symm.trans hq), hc.other r hrp] at hr
      exact absurd hr (hfresh r)
    · subst hrp
      rw [← Option.some.inj (hc.self.symm.trans hr), hc.other q hqp] at hq
      exact absurd hq (hfresh q)
    · rw [hc.other q hqp] at hq
      rw [hc.other r hrp] at hr
      exact h.unique hq hr

variable [DecidableEq B]

/-- The block of a place is freed, and the place is empty. -/
theorem drop (h : Balanced held blocks) (hp : held p = some b) (hc : Changed held held' p none) :
    Balanced held' (blocks.filter fun c => c ≠ b) := by
  have hheld : ∀ {q c}, held' q = some c ↔ held q = some c ∧ q ≠ p := by
    intro q c
    by_cases hqp : q = p
    · simp [hqp, hc.self]
    · simp [hqp, hc.other q hqp]
  refine ⟨h.nodup.filter _, ?_, ?_⟩
  · intro c
    rw [List.mem_filter, h.mem_iff, decide_eq_true_eq]
    constructor
    · rintro ⟨⟨q, hq⟩, hne⟩
      refine ⟨q, hheld.2 ⟨hq, ?_⟩⟩
      rintro rfl
      exact hne (Option.some.inj (hq.symm.trans hp))
    · rintro ⟨q, hq⟩
      obtain ⟨hq, hqp⟩ := hheld.1 hq
      refine ⟨⟨q, hq⟩, ?_⟩
      rintro rfl
      exact hqp (h.unique hq hp)
  · intro q r c hq hr
    exact h.unique (hheld.1 hq).1 (hheld.1 hr).1

end Balanced

/-- **Backed**: what the places hold is allocated, each block in one place.  There may be allocated
blocks that no place holds. -/
structure Backed (held : P → Option B) (blocks : List B) : Prop where
  mem : ∀ {p b}, held p = some b → b ∈ blocks
  unique : ∀ {p q b}, held p = some b → held q = some b → p = q

namespace Backed

variable {held held' : P → Option B} {blocks : List B} {p : P} {b : B}

/-- Places that hold less. -/
theorem mono (h : Backed held blocks) (hle : ∀ {p b}, held' p = some b → held p = some b) :
    Backed held' blocks :=
  ⟨fun hp => h.mem (hle hp), fun hp hq => h.unique (hle hp) (hle hq)⟩

/-- A fresh block is put into a place. -/
theorem put (h : Backed held blocks) (hb : b ∉ blocks) (hc : Changed held held' p (some b)) :
    Backed held' (b :: blocks) := by
  have hcase : ∀ {q c}, held' q = some c → q = p ∧ c = b ∨ q ≠ p ∧ held q = some c := by
    intro q c hq
    by_cases hqp : q = p
    · subst hqp
      exact Or.inl ⟨rfl, Option.some.inj (hq.symm.trans hc.self)⟩
    · exact Or.inr ⟨hqp, (hc.other q hqp).symm.trans hq⟩
  refine ⟨?_, ?_⟩
  · intro q c hq
    rcases hcase hq with ⟨-, rfl⟩ | ⟨-, hq⟩
    · exact List.mem_cons_self
    · exact List.mem_cons_of_mem _ (h.mem hq)
  · intro q r c hq hr
    rcases hcase hq with ⟨rfl, rfl⟩ | ⟨-, hq⟩
    · rcases hcase hr with ⟨rfl, -⟩ | ⟨-, hr⟩
      · rfl
      · exact absurd (h.mem hr) hb
    · rcases hcase hr with ⟨rfl, rfl⟩ | ⟨-, hr⟩
      · exact absurd (h.mem hq) hb
      · exact h.unique hq hr

/-- The block of a place is freed, and the place is empty. -/
theorem drop [DecidableEq B] (h : Backed held blocks) (hp : held p = some b)
    (hc : Changed held held' p none) : Backed held' (blocks.filter fun c => c ≠ b) := by
  have hheld : ∀ {q c}, held' q = some c → q ≠ p ∧ held q = some c := by
    intro q c hq
    have hqp : q ≠ p := by
      rintro rfl
      simp [hc.self] at hq
    exact ⟨hqp, (hc.other q hqp).symm.trans hq⟩
  refine ⟨fun {q c} hq => ?_, fun hq hr => h.unique (hheld hq).2 (hheld hr).2⟩
  obtain ⟨hqp, hq⟩ := hheld hq
  refine List.mem_filter.2 ⟨h.mem hq, decide_eq_true ?_⟩
  rintro rfl
  exact hqp (h.unique hq hp)

end Backed

/-- **Blocks that have been freed**, the last one first: each of them was allocated, and has been
freed once. -/
structure Freed (blocks frees blocks' : List B) : Prop where
  nodup : frees.Nodup
  allocated : ∀ b ∈ frees, b ∈ blocks
  rest : ∀ b, b ∈ blocks' ↔ b ∈ blocks ∧ b ∉ frees

namespace Freed

variable {blocks blocks' frees : List B}

theorem nil : Freed blocks [] blocks := ⟨List.nodup_nil, by simp, by simp⟩

/-- A first block is freed, and others behind it. -/
theorem cons [DecidableEq B] {b : B} (hb : b ∈ blocks)
    (h : Freed (blocks.filter fun c => c ≠ b) frees blocks') :
    Freed blocks (frees ++ [b]) blocks' := by
  have hmem : ∀ {c}, c ∈ (blocks.filter fun c => c ≠ b) ↔ c ∈ blocks ∧ c ≠ b := by simp
  refine ⟨?_, ?_, ?_⟩
  · refine List.nodup_append.2 ⟨h.nodup, List.nodup_singleton b, ?_⟩
    intro c hc d hd
    rw [List.mem_singleton.1 hd]
    exact (hmem.1 (h.allocated c hc)).2
  · intro c hc
    rcases List.mem_append.1 hc with hc | hc
    · exact (hmem.1 (h.allocated c hc)).1
    · rw [List.mem_singleton.1 hc]
      exact hb
  · intro c
    rw [h.rest, hmem, List.mem_append, List.mem_singleton, not_or]
    tauto

end Freed

end Ownership
