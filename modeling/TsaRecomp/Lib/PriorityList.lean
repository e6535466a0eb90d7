/-
**Stable priority queues kept as sorted lists.**

A queue sorted by non-increasing priority, in which elements of equal priority stand in the order
of their arrival, is determined by the list of arrivals.  Inserting behind the last element whose
priority is at least the new one keeps that shape, and so does removing an element.

Main definitions:

* `PriorityList.insertByPriority` — insertion behind every leading element of no smaller priority;
* `PriorityList.StableQueue` — the queue is sorted and stable with respect to a list of arrivals.

Main results:

* `PriorityList.StableQueue.insert`, `PriorityList.StableQueue.remove` — **the two operations keep
  a queue stable**, and act on the arrivals by appending and erasing;
* `PriorityList.StableQueue.perm`, `PriorityList.StableQueue.unique` — the queue holds exactly the
  arrivals, and is determined by them.
-/

import Mathlib.Data.List.Basic
import Mathlib.Data.List.Nodup
import Mathlib.Data.List.Perm.Basic
import Mathlib.Order.Defs.LinearOrder
import Mathlib.Tactic

set_option relaxedAutoImplicit false
set_option autoImplicit false

namespace PriorityList

variable {α β : Type*} [LinearOrder β] {prio : α → β}

/-- Insertion of `x` behind every leading element whose priority is at least that of `x`. -/
def insertByPriority (prio : α → β) (x : α) (l : List α) : List α :=
  l.takeWhile (fun y => prio x ≤ prio y) ++ x :: l.dropWhile (fun y => prio x ≤ prio y)

theorem insertByPriority_perm (x : α) (l : List α) :
    (insertByPriority prio x l).Perm (x :: l) := by
  have h : l = l.takeWhile (fun y => prio x ≤ prio y) ++ l.dropWhile (fun y => prio x ≤ prio y) :=
    (List.takeWhile_append_dropWhile ..).symm
  refine List.perm_middle.trans ?_
  rw [← h]

@[simp] theorem mem_insertByPriority {x y : α} {l : List α} :
    y ∈ insertByPriority prio x l ↔ y = x ∨ y ∈ l := by
  rw [(insertByPriority_perm x l).mem_iff, List.mem_cons]

theorem sublist_insertByPriority (x : α) (l : List α) :
    l.Sublist (insertByPriority prio x l) := by
  have h : l = l.takeWhile (fun y => prio x ≤ prio y) ++ l.dropWhile (fun y => prio x ≤ prio y) :=
    (List.takeWhile_append_dropWhile ..).symm
  conv_lhs => rw [h]
  exact List.Sublist.append_left (List.sublist_cons_self x _) _

/-- The queue `l` is sorted by non-increasing priority, and the elements of each priority stand in
the order of their arrival. -/
structure StableQueue (prio : α → β) (arrivals l : List α) : Prop where
  /-- Priorities do not increase along the queue. -/
  sorted : l.Pairwise fun a b => prio b ≤ prio a
  /-- The elements of one priority are in the order of their arrival. -/
  classes : ∀ k, l.filter (fun a => prio a = k) = arrivals.filter (fun a => prio a = k)

namespace StableQueue

variable {arrivals l : List α}

theorem nil (prio : α → β) : StableQueue prio [] [] := ⟨List.Pairwise.nil, fun _ => rfl⟩

/-- The queue holds exactly the arrivals. -/
theorem mem_iff (h : StableQueue prio arrivals l) (x : α) : x ∈ l ↔ x ∈ arrivals := by
  have key : ∀ l : List α, x ∈ l ↔ x ∈ l.filter (fun a => prio a = prio x) := by
    intro l
    simp
  rw [key l, h.classes, ← key]

/-- The queue is a rearrangement of the arrivals. -/
theorem perm [DecidableEq α] (h : StableQueue prio arrivals l) : l.Perm arrivals := by
  refine List.perm_iff_count.2 ?_
  intro x
  have key : ∀ l : List α, l.count x = (l.filter (fun a => prio a = prio x)).count x := by
    intro l
    rw [List.count_filter (by simp)]
  rw [key l, h.classes, ← key]

/-- The queue only depends on the priorities of its own elements. -/
theorem congr {prio' : α → β} (h : StableQueue prio arrivals l)
    (hp : ∀ x ∈ l, prio' x = prio x) : StableQueue prio' arrivals l := by
  refine ⟨h.sorted.imp_of_mem fun {a b} ha hb hab => ?_, ?_⟩
  · rw [hp a ha, hp b hb]
    exact hab
  · intro k
    have hl : l.filter (fun a => prio' a = k) = l.filter (fun a => prio a = k) :=
      List.filter_congr fun x hx => by rw [hp x hx]
    have ha : arrivals.filter (fun a => prio' a = k) = arrivals.filter (fun a => prio a = k) :=
      List.filter_congr fun x hx => by rw [hp x ((h.mem_iff x).2 hx)]
    rw [hl, ha, h.classes]

/-- **The arrivals determine the queue.** -/
theorem unique {l' : List α} (h : StableQueue prio arrivals l) (h' : StableQueue prio arrivals l') :
    l = l' := by
  have key : ∀ l l' : List α, l.Pairwise (fun a b => prio b ≤ prio a) →
      l'.Pairwise (fun a b => prio b ≤ prio a) →
      (∀ k, l.filter (fun a => prio a = k) = l'.filter (fun a => prio a = k)) → l = l' := by
    have hmem : ∀ l l' : List α, (∀ k, l.filter (fun a => prio a = k) =
        l'.filter (fun a => prio a = k)) → ∀ x ∈ l, x ∈ l' := by
      intro l l' he x hx
      have hx' : x ∈ l.filter (fun a => prio a = prio x) := by simpa using hx
      rw [he] at hx'
      exact List.mem_of_mem_filter hx'
    intro l
    induction l with
    | nil =>
        intro l' _ _ he
        cases l' with
        | nil => rfl
        | cons y l' => exact absurd (hmem _ _ (fun k => (he k).symm) y (by simp)) (by simp)
    | cons x l ih =>
        intro l' hl hl' he
        cases l' with
        | nil => exact absurd (hmem _ _ he x (by simp)) (by simp)
        | cons y l' =>
            obtain ⟨hx, htail⟩ := List.pairwise_cons.1 hl
            obtain ⟨hy, htail'⟩ := List.pairwise_cons.1 hl'
            -- each head is the first of the other list's highest priority
            have hxy : prio x = prio y := by
              have h₁ : prio x ≤ prio y := by
                rcases List.mem_cons.1 (hmem _ _ he x (by simp)) with rfl | h
                · exact le_rfl
                · exact hy x h
              have h₂ : prio y ≤ prio x := by
                rcases List.mem_cons.1 (hmem _ _ (fun k => (he k).symm) y (by simp)) with rfl | h
                · exact le_rfl
                · exact hx y h
              exact le_antisymm h₁ h₂
            have hhead := he (prio x)
            rw [List.filter_cons_of_pos (by simp), List.filter_cons_of_pos (by simp [hxy])] at hhead
            obtain ⟨rfl, -⟩ := List.cons.inj hhead
            rw [ih l' htail htail']
            intro k
            have hk := he k
            by_cases hxk : prio x = k
            · rw [List.filter_cons_of_pos (by simpa using hxk),
                List.filter_cons_of_pos (by simpa using hxk)] at hk
              exact (List.cons.inj hk).2
            · rwa [List.filter_cons_of_neg (by simpa using hxk),
                List.filter_cons_of_neg (by simpa using hxk)] at hk
  exact key l l' h.sorted h'.sorted fun k => (h.classes k).trans (h'.classes k).symm

/-- Everything behind the insertion point has a smaller priority than the new element. -/
theorem lt_of_mem_dropWhile (h : l.Pairwise fun a b => prio b ≤ prio a) {x y : α}
    (hy : y ∈ l.dropWhile (fun y => prio x ≤ prio y)) : prio y < prio x := by
  induction l with
  | nil => simp at hy
  | cons a l ih =>
      obtain ⟨ha, hl⟩ := List.pairwise_cons.1 h
      by_cases hax : prio x ≤ prio a
      · rw [List.dropWhile_cons_of_pos (by simpa using hax)] at hy
        exact ih hl hy
      · rw [List.dropWhile_cons_of_neg (by simpa using hax)] at hy
        rcases List.mem_cons.1 hy with rfl | hy
        · exact lt_of_not_ge hax
        · exact lt_of_le_of_lt (ha y hy) (lt_of_not_ge hax)

/-- **Insertion keeps the queue stable**, with the new element as the last arrival. -/
theorem insert (h : StableQueue prio arrivals l) (x : α) :
    StableQueue prio (arrivals ++ [x]) (insertByPriority prio x l) := by
  have hsplit :
      l.takeWhile (fun y => prio x ≤ prio y) ++ l.dropWhile (fun y => prio x ≤ prio y) = l :=
    List.takeWhile_append_dropWhile ..
  have hge : ∀ y ∈ l.takeWhile (fun y => prio x ≤ prio y), prio x ≤ prio y := fun y hy => by
    simpa using List.all_eq_true.1 List.all_takeWhile y hy
  have hlt : ∀ y ∈ l.dropWhile (fun y => prio x ≤ prio y), prio y < prio x := fun y hy =>
    lt_of_mem_dropWhile h.sorted hy
  have hsorted := h.sorted
  rw [← hsplit, List.pairwise_append] at hsorted
  obtain ⟨ht, hd, htd⟩ := hsorted
  refine ⟨?_, ?_⟩
  · rw [insertByPriority, List.pairwise_append]
    refine ⟨ht, List.pairwise_cons.2 ⟨fun y hy => (hlt y hy).le, hd⟩, ?_⟩
    intro a ha b hb
    rcases List.mem_cons.1 hb with rfl | hb
    · exact hge a ha
    · exact htd a ha b hb
  · intro k
    rw [insertByPriority, List.filter_append, List.filter_append, ← h.classes]
    conv_rhs => rw [← hsplit, List.filter_append]
    by_cases hk : prio x = k
    · -- nothing behind the insertion point shares the priority of the new element
      have hnil : (l.dropWhile (fun y => prio x ≤ prio y)).filter (fun a => prio a = k) = [] := by
        rw [List.filter_eq_nil_iff]
        intro y hy
        simpa [← hk] using (hlt y hy).ne
      rw [List.filter_cons_of_pos (by simpa using hk), hnil, List.append_nil,
        List.filter_cons_of_pos (by simpa using hk), List.filter_nil]
    · simp [hk]

/-- **Removal keeps the queue stable**, and erases the element from the arrivals. -/
theorem remove [DecidableEq α] {l₁ l₂ : List α} {x : α}
    (h : StableQueue prio arrivals (l₁ ++ x :: l₂)) (hnd : arrivals.Nodup) :
    StableQueue prio (arrivals.erase x) (l₁ ++ l₂) := by
  have hsub : (l₁ ++ l₂).Sublist (l₁ ++ x :: l₂) :=
    List.Sublist.append_left (List.sublist_cons_self x l₂) l₁
  have hnd' : (l₁ ++ x :: l₂).Nodup := h.perm.nodup_iff.2 hnd
  have hx : x ∉ l₁ := fun hm => (List.nodup_append.1 hnd').2.2 x hm x (by simp) rfl
  have herase : (l₁ ++ x :: l₂).erase x = l₁ ++ l₂ := by
    rw [List.erase_append_right _ hx, List.erase_cons_head]
  refine ⟨h.sorted.sublist hsub, ?_⟩
  intro k
  rw [← herase, hnd'.erase_eq_filter, hnd.erase_eq_filter, List.filter_filter, List.filter_filter]
  have hcomm : ∀ l : List α, l.filter (fun a => decide (prio a = k) && (a != x)) =
      (l.filter (fun a => prio a = k)).filter (fun a => a != x) := by
    intro l
    rw [List.filter_filter]
    refine List.filter_congr ?_
    intro a _
    rw [Bool.and_comm]
  rw [hcomm, hcomm, h.classes]

end StableQueue

end PriorityList
