/-
**The order of a list.**

In a list without repetitions the elements are ordered by their places.  The order is transitive
and irreflexive, it is kept when elements are inserted or others are removed, and what follows an
element is its successor or follows its successor.

Main definitions:

* `ListOrder.Precedes` — one element stands somewhere in front of another.

Main results:

* `ListOrder.Precedes.trans`, `ListOrder.Precedes.ne` — it is a strict order;
* `ListOrder.Precedes.mono`, `ListOrder.Precedes.erase` — **it is kept by insertions and removals**;
* `ListOrder.Precedes.successor` — **it is the order generated by the successors**.
-/

import Mathlib.Data.List.Basic
import Mathlib.Data.List.Nodup
import Mathlib.Tactic

set_option relaxedAutoImplicit false
set_option autoImplicit false

namespace ListOrder

variable {α : Type*} {l l' : List α} {a b c : α}

/-- `a` stands in front of `b`. -/
def Precedes (l : List α) (a b : α) : Prop := [a, b].Sublist l

theorem precedes_iff : Precedes l a b ↔ ∃ l₁ l₂, l = l₁ ++ a :: l₂ ∧ b ∈ l₂ := by
  constructor
  · intro h
    obtain ⟨r₁, r₂, rfl, ha, hb⟩ := List.cons_sublist_iff.1 h
    obtain ⟨l₁, l₂, rfl⟩ := List.append_of_mem ha
    exact ⟨l₁, l₂ ++ r₂, by simp, List.mem_append_right _ (List.singleton_sublist.1 hb)⟩
  · rintro ⟨l₁, l₂, rfl, hb⟩
    exact ((List.singleton_sublist.2 hb).cons_cons a).trans (List.sublist_append_right l₁ _)

@[simp] theorem precedes_cons {x : α} :
    Precedes (x :: l) a b ↔ a = x ∧ b ∈ l ∨ Precedes l a b := by
  rw [Precedes, List.sublist_cons_iff]
  constructor
  · rintro (h | ⟨r, hr, hs⟩)
    · exact Or.inr h
    · obtain ⟨rfl, rfl⟩ := List.cons.inj hr
      exact Or.inl ⟨rfl, List.singleton_sublist.1 hs⟩
  · rintro (⟨rfl, hb⟩ | h)
    · exact Or.inr ⟨[b], rfl, List.singleton_sublist.2 hb⟩
    · exact Or.inl h

namespace Precedes

theorem right_mem (h : Precedes l a b) : b ∈ l := h.subset (by simp)

/-- Nothing stands behind the last element. -/
theorem left_mem_of_concat {z : α} (h : Precedes (l ++ [z]) a b) : a ∈ l := by
  obtain ⟨l₁, l₂, he, h₁, h₂⟩ := List.sublist_append_iff.1 h
  cases l₁ with
  | nil =>
      have hlen := h₂.length_le
      rw [← List.nil_append l₂, ← he] at hlen
      simp at hlen
  | cons x l₁ =>
      obtain ⟨rfl, -⟩ := List.cons.inj he
      exact h₁.subset (by simp)

theorem ne (h : Precedes l a b) (hl : l.Nodup) : a ≠ b := by
  rintro rfl
  exact absurd (hl.sublist h) (by simp)

theorem trans (h : Precedes l a b) (h' : Precedes l b c) (hl : l.Nodup) : Precedes l a c := by
  induction l with
  | nil => cases h
  | cons x l ih =>
      obtain ⟨hx, hl⟩ := List.nodup_cons.1 hl
      rw [precedes_cons] at h h' ⊢
      rcases h with ⟨rfl, hb⟩ | h
      · rcases h' with ⟨rfl, -⟩ | h'
        · exact absurd hb hx
        · exact Or.inl ⟨rfl, h'.right_mem⟩
      · rcases h' with ⟨rfl, -⟩ | h'
        · exact absurd h.right_mem hx
        · exact Or.inr (ih h h' hl)

/-- Insertions keep the order. -/
theorem mono (h : Precedes l a b) (hs : l.Sublist l') : Precedes l' a b := List.Sublist.trans h hs

/-- The removal of another element keeps the order. -/
theorem erase [DecidableEq α] {x : α} (h : Precedes l a b) (ha : a ≠ x) (hb : b ≠ x) :
    Precedes (l.erase x) a b := by
  have he : [a, b].erase x = [a, b] := List.erase_of_not_mem (by simp [ha.symm, hb.symm])
  have hs := List.Sublist.erase x h
  rwa [he] at hs

/-- **What follows an element** is its successor, or follows its successor. -/
theorem successor {l₁ l₂ : List α} {y : α} (h : Precedes (l₁ ++ a :: y :: l₂) a c)
    (hl : (l₁ ++ a :: y :: l₂).Nodup) : c = y ∨ Precedes (l₁ ++ a :: y :: l₂) y c := by
  have hsplit : l₁ ++ a :: y :: l₂ = (l₁ ++ [a]) ++ y :: l₂ := by simp
  have hc : c ∈ y :: l₂ := by
    obtain ⟨r₁, r₂, he, hb⟩ := precedes_iff.1 h
    have ha := List.nodup_middle.1 hl
    have ha' := List.nodup_middle.1 (he ▸ hl)
    rw [List.nodup_cons, List.mem_append, not_or] at ha ha'
    obtain ⟨-, -, he⟩ :=
      (List.append_cons_inj_of_notMem ha.1.1 ha.1.2).1 he
    rwa [he]
  rcases List.mem_cons.1 hc with rfl | hc
  · exact Or.inl rfl
  · exact Or.inr (precedes_iff.2 ⟨l₁ ++ [a], l₂, hsplit, hc⟩)

end Precedes

end ListOrder
