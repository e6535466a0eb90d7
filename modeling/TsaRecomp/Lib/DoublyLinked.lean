/-
**Null-terminated doubly linked lists, as a predicate on two link functions.**

An intrusive list is a pair of link functions `fwd` and `bwd` on an arbitrary type of nodes with a
distinguished null node `z`, and a head pointer.  Nothing else is assumed of the nodes: the links
of a node that is not on the list are arbitrary, which is what lets several lists share the same
two functions and lets stale links survive outside of them.

Main definitions:

* `DoublyLinked.Linked` — the links along a segment, between a predecessor and a successor;
* `DoublyLinked.DList` — a head pointer, a null-terminated segment without repetitions.

Main results:

* `DoublyLinked.linked_append` — a segment is linked exactly when its two halves are;
* `DoublyLinked.DList.insert` — splicing a new node in, by the four writes that do it;
* `DoublyLinked.DList.remove` — splicing a node out, by the two writes that do it;
* `DoublyLinked.DList.fwd_mem`, `DoublyLinked.DList.bwd_mem` — a link followed from a node of the
  list is null or ends on the list, and the opposite link leads back.
-/

import Mathlib.Data.List.Basic
import Mathlib.Data.List.Nodup
import Mathlib.Tactic

set_option relaxedAutoImplicit false
set_option autoImplicit false

namespace DoublyLinked

variable {α : Type*}

/-! ### Segments -/

/-- The links along the segment `l`, which follows the node `prev` and is followed by `post`. -/
def Linked (fwd bwd : α → α) (prev post : α) : List α → Prop
  | [] => True
  | x :: l => bwd x = prev ∧ fwd x = l.headD post ∧ Linked fwd bwd x post l

@[simp] theorem linked_nil (fwd bwd : α → α) (prev post : α) :
    Linked fwd bwd prev post [] := trivial

theorem linked_cons (fwd bwd : α → α) (prev post x : α) (l : List α) :
    Linked fwd bwd prev post (x :: l) ↔
      bwd x = prev ∧ fwd x = l.headD post ∧ Linked fwd bwd x post l := Iff.rfl

/-- The links of a segment are the links of its two halves, the seam included. -/
theorem linked_append (fwd bwd : α → α) (prev post : α) (l₁ l₂ : List α) :
    Linked fwd bwd prev post (l₁ ++ l₂) ↔
      Linked fwd bwd prev (l₂.headD post) l₁ ∧ Linked fwd bwd (l₁.getLastD prev) post l₂ := by
  induction l₁ generalizing prev with
  | nil => simp
  | cons x l₁ ih =>
      have hhead : (l₁ ++ l₂).headD post = l₁.headD (l₂.headD post) := by
        cases l₁ <;> simp
      have hlast : (x :: l₁).getLastD prev = l₁.getLastD x := List.getLastD_cons ..
      rw [List.cons_append, linked_cons, linked_cons, ih, hhead, hlast]
      tauto

/-- A segment only depends on the links of its own nodes. -/
theorem Linked.congr {fwd bwd fwd' bwd' : α → α} {prev post : α} {l : List α}
    (h : Linked fwd bwd prev post l) (hf : ∀ x ∈ l, fwd' x = fwd x)
    (hb : ∀ x ∈ l, bwd' x = bwd x) : Linked fwd' bwd' prev post l := by
  induction l generalizing prev with
  | nil => trivial
  | cons x l ih =>
      obtain ⟨hbx, hfx, hl⟩ := h
      refine ⟨?_, ?_, ?_⟩
      · rw [hb x (by simp), hbx]
      · rw [hf x (by simp), hfx]
      · exact ih hl (fun y hy => hf y (by simp [hy])) (fun y hy => hb y (by simp [hy]))

/-- Redirecting the link into a segment: only the first node sees its predecessor. -/
theorem Linked.change_prev [DecidableEq α] {fwd bwd fwd' bwd' : α → α}
    {prev prev' post : α} {l : List α}
    (h : Linked fwd bwd prev post l) (hnd : l.Nodup) (hf : ∀ x ∈ l, fwd' x = fwd x)
    (hb : ∀ x ∈ l, bwd' x = if l.head? = some x then prev' else bwd x) :
    Linked fwd' bwd' prev' post l := by
  cases l with
  | nil => trivial
  | cons x l =>
      obtain ⟨hbx, hfx, hl⟩ := h
      have hx : x ∉ l := (List.nodup_cons.1 hnd).1
      refine ⟨by simpa using hb x (by simp), by rw [hf x (by simp), hfx], ?_⟩
      refine hl.congr (fun y hy => hf y (by simp [hy])) ?_
      intro y hy
      have hne : x ≠ y := fun e => hx (e ▸ hy)
      simpa [hne] using hb y (by simp [hy])

/-- Redirecting the link out of a segment: only the last node sees its successor. -/
theorem Linked.change_post [DecidableEq α] {fwd bwd fwd' bwd' : α → α}
    {prev post post' : α} {l : List α}
    (h : Linked fwd bwd prev post l) (hnd : l.Nodup) (hb : ∀ x ∈ l, bwd' x = bwd x)
    (hf : ∀ x ∈ l, fwd' x = if l.getLast? = some x then post' else fwd x) :
    Linked fwd' bwd' prev post' l := by
  induction l generalizing prev with
  | nil => trivial
  | cons x l ih =>
      obtain ⟨hbx, hfx, hl⟩ := h
      have hx : x ∉ l := (List.nodup_cons.1 hnd).1
      have hrest : Linked fwd' bwd' x post' l := by
        refine ih hl (List.nodup_cons.1 hnd).2 (fun y hy => hb y (by simp [hy])) ?_
        intro y hy
        have := hf y (by simp [hy])
        cases l with
        | nil => simp at hy
        | cons a l => simpa using this
      refine ⟨by rw [hb x (by simp), hbx], ?_, hrest⟩
      cases l with
      | nil => simpa using hf x (by simp)
      | cons a l =>
          have hne : (a :: l).getLast? ≠ some x := fun e => hx (List.mem_of_getLast? e)
          have hxf := hf x (by simp)
          rw [List.getLast?_cons_cons, if_neg hne] at hxf
          rw [hxf, hfx]
          rfl

/-! ### Null-terminated lists -/

/-- `l` is the doubly linked list that starts at `head`: null-terminated at both ends, without
repetitions, and not containing the null node. -/
structure DList (z : α) (fwd bwd : α → α) (head : α) (l : List α) : Prop where
  /-- The head pointer names the first node, or is null. -/
  head_eq : head = l.headD z
  /-- The links agree with the order of the nodes, in both directions. -/
  linked : Linked fwd bwd z z l
  /-- No node is on the list twice. -/
  nodup : l.Nodup
  /-- The null node is not on the list. -/
  null_notMem : z ∉ l

namespace DList

variable {z head : α} {fwd bwd : α → α} {l : List α}

theorem nil (z : α) (fwd bwd : α → α) : DList z fwd bwd z [] :=
  ⟨rfl, trivial, List.nodup_nil, by simp⟩

theorem ne_null (h : DList z fwd bwd head l) {x : α} (hx : x ∈ l) : x ≠ z :=
  fun e => h.null_notMem (e ▸ hx)

/-- The list only depends on the links of its own nodes. -/
theorem congr (h : DList z fwd bwd head l) {fwd' bwd' : α → α}
    (hf : ∀ x ∈ l, fwd' x = fwd x) (hb : ∀ x ∈ l, bwd' x = bwd x) : DList z fwd' bwd' head l :=
  ⟨h.head_eq, h.linked.congr hf hb, h.nodup, h.null_notMem⟩

/-- A non-null head is on the list, and nothing precedes it. -/
theorem head_mem (h : DList z fwd bwd head l) (hz : head ≠ z) : head ∈ l ∧ bwd head = z := by
  cases l with
  | nil => exact absurd h.head_eq (by simpa using hz)
  | cons x l =>
      have hx : head = x := by simpa using h.head_eq
      exact ⟨by simp [hx], by rw [hx]; exact h.linked.1⟩

theorem head_eq_null_iff (h : DList z fwd bwd head l) : head = z ↔ l = [] := by
  cases l with
  | nil => simpa using h.head_eq
  | cons x l =>
      have hx : head = x := by simpa using h.head_eq
      simpa [hx] using h.ne_null (x := x) (by simp)

/-- The links around a node: what precedes it and what follows it. -/
theorem around (h : DList z fwd bwd head l) {l₁ l₂ : List α} {x : α} (hl : l = l₁ ++ x :: l₂) :
    bwd x = l₁.getLastD z ∧ fwd x = l₂.headD z := by
  have hlinked := h.linked
  rw [hl, linked_append] at hlinked
  exact ⟨hlinked.2.1, hlinked.2.2.1⟩

/-- A forward link from a node of the list is null, or ends at a node whose backward link leads
back. -/
theorem fwd_mem (h : DList z fwd bwd head l) {x : α} (hx : x ∈ l) (hz : fwd x ≠ z) :
    fwd x ∈ l ∧ bwd (fwd x) = x := by
  obtain ⟨l₁, l₂, rfl⟩ := List.append_of_mem hx
  cases l₂ with
  | nil => exact absurd (h.around rfl).2 (by simpa using hz)
  | cons y l₂ =>
      have hy : fwd x = y := by simpa using (h.around rfl).2
      have hsplit : l₁ ++ x :: y :: l₂ = (l₁ ++ [x]) ++ y :: l₂ := by simp
      have hb := (h.around hsplit).1
      exact ⟨by simp [hy], by rw [hy, hb]; simp⟩

/-- A backward link from a node of the list is null, or ends at a node whose forward link leads
back. -/
theorem bwd_mem (h : DList z fwd bwd head l) {x : α} (hx : x ∈ l) (hz : bwd x ≠ z) :
    bwd x ∈ l ∧ fwd (bwd x) = x := by
  obtain ⟨l₁, l₂, rfl⟩ := List.append_of_mem hx
  rcases List.eq_nil_or_concat l₁ with rfl | ⟨l₁, y, rfl⟩
  · exact absurd (h.around rfl).1 (by simpa using hz)
  · have hy : bwd x = y := by simpa using (h.around rfl).1
    have hsplit : l₁.concat y ++ x :: l₂ = l₁ ++ y :: x :: l₂ := by simp
    have hf := (h.around hsplit).2
    exact ⟨by simp [hy], by rw [hy, hf]; simp⟩

/-- The only node without a predecessor is the head. -/
theorem eq_head_of_bwd (h : DList z fwd bwd head l) {x : α} (hx : x ∈ l) (hb : bwd x = z) :
    x = head := by
  obtain ⟨l₁, l₂, rfl⟩ := List.append_of_mem hx
  rcases List.eq_nil_or_concat l₁ with rfl | ⟨l₁, y, rfl⟩
  · simpa using h.head_eq.symm
  · have hy : bwd x = y := by simpa using (h.around rfl).1
    exact absurd (hy.symm.trans hb) (h.ne_null (by simp))

/-! ### Splicing -/

section Splice

variable [DecidableEq α] {fwd' bwd' : α → α} {head' : α} {l₁ l₂ : List α} {x : α}

/-- **Splicing a node in.**  The new node points to its two neighbours, and each neighbour that
exists points to it. -/
theorem insert (h : DList z fwd bwd head (l₁ ++ l₂)) (hx : x ∉ l₁ ++ l₂) (hz : x ≠ z)
    (hfx : fwd' x = l₂.headD z) (hbx : bwd' x = l₁.getLastD z)
    (hf : ∀ y ∈ l₁ ++ l₂, fwd' y = if y = l₁.getLastD z then x else fwd y)
    (hb : ∀ y ∈ l₁ ++ l₂, bwd' y = if y = l₂.headD z then x else bwd y)
    (hhead : head' = if l₁ = [] then x else head) :
    DList z fwd' bwd' head' (l₁ ++ x :: l₂) := by
  have hnd := List.nodup_append.1 h.nodup
  have hlinked := (linked_append _ _ _ _ _ _).1 h.linked
  have hlast : ∀ y ∈ l₁, (y = l₁.getLastD z ↔ l₁.getLast? = some y) := by
    intro y hy
    obtain ⟨a, ha⟩ := List.getLast?_isSome.2 (List.ne_nil_of_mem hy) |> Option.isSome_iff_exists.1
    simp [List.getLastD_eq_getLast?, ha, eq_comm]
  have hfirst : ∀ y ∈ l₂, (y = l₂.headD z ↔ l₂.head? = some y) := by
    intro y hy
    cases l₂ with
    | nil => simp at hy
    | cons a l₂ => simp [eq_comm]
  -- a node of one half is not the seam node of the other half
  have hne₂ : ∀ y ∈ l₂, y ≠ l₁.getLastD z := by
    intro y hy e
    rcases List.eq_nil_or_concat l₁ with rfl | ⟨l, a, rfl⟩
    · exact h.ne_null (List.mem_append_right _ hy) (by simpa using e)
    · exact hnd.2.2 a (by simp) y hy (by simpa using e.symm)
  have hne₁ : ∀ y ∈ l₁, y ≠ l₂.headD z := by
    intro y hy e
    cases l₂ with
    | nil => exact h.ne_null (List.mem_append_left _ hy) (by simpa using e)
    | cons a l₂ => exact hnd.2.2 y hy a (by simp) (by simpa using e)
  refine ⟨?_, ?_, ?_, ?_⟩
  · rw [hhead]
    cases l₁ with
    | nil => simp
    | cons a l => simpa using h.head_eq
  · rw [linked_append, linked_cons]
    refine ⟨?_, hbx, hfx, ?_⟩
    · refine hlinked.1.change_post hnd.1 ?_ ?_
      · intro y hy
        rw [hb y (List.mem_append_left _ hy), if_neg (hne₁ y hy)]
      · intro y hy
        rw [hf y (List.mem_append_left _ hy)]
        simp only [hlast y hy, List.headD_cons]
    · refine hlinked.2.change_prev hnd.2.1 ?_ ?_
      · intro y hy
        rw [hf y (List.mem_append_right _ hy), if_neg (hne₂ y hy)]
      · intro y hy
        rw [hb y (List.mem_append_right _ hy)]
        simp only [hfirst y hy]
  · have : (l₁ ++ x :: l₂).Perm (x :: (l₁ ++ l₂)) := List.perm_middle
    exact this.nodup_iff.2 (List.nodup_cons.2 ⟨hx, h.nodup⟩)
  · intro hm
    rcases List.mem_append.1 hm with hm | hm
    · exact h.null_notMem (List.mem_append_left _ hm)
    · rcases List.mem_cons.1 hm with hm | hm
      · exact hz hm.symm
      · exact h.null_notMem (List.mem_append_right _ hm)

/-- **Splicing a node out.**  Each neighbour that exists is pointed at the other one, and the head
moves when the removed node had no predecessor. -/
theorem remove (h : DList z fwd bwd head (l₁ ++ x :: l₂))
    (hf : ∀ y ∈ l₁ ++ l₂, fwd' y = if y = bwd x then fwd x else fwd y)
    (hb : ∀ y ∈ l₁ ++ l₂, bwd' y = if y = fwd x then bwd x else bwd y)
    (hhead : head' = if bwd x = z then fwd x else head) :
    DList z fwd' bwd' head' (l₁ ++ l₂) := by
  have hperm : (l₁ ++ x :: l₂).Perm (x :: (l₁ ++ l₂)) := List.perm_middle
  have hnd' : (l₁ ++ l₂).Nodup := (List.nodup_cons.1 (hperm.nodup_iff.1 h.nodup)).2
  have hnull : z ∉ l₁ ++ l₂ := fun hm => h.null_notMem (hperm.mem_iff.2 (by simp [hm]))
  have hnd := List.nodup_append.1 hnd'
  obtain ⟨hbx, hfx⟩ := h.around rfl
  have hlinked := (linked_append _ _ _ _ _ _).1 h.linked
  have hmem : ∀ y ∈ l₁ ++ l₂, y ≠ z := fun y hy e => hnull (e ▸ hy)
  have hlast : ∀ y ∈ l₁, (y = bwd x ↔ l₁.getLast? = some y) := by
    intro y hy
    obtain ⟨a, ha⟩ := List.getLast?_isSome.2 (List.ne_nil_of_mem hy) |> Option.isSome_iff_exists.1
    simp [hbx, List.getLastD_eq_getLast?, ha, eq_comm]
  have hfirst : ∀ y ∈ l₂, (y = fwd x ↔ l₂.head? = some y) := by
    intro y hy
    cases l₂ with
    | nil => simp at hy
    | cons a l₂ => simp [hfx, eq_comm]
  have hne₂ : ∀ y ∈ l₂, y ≠ bwd x := by
    intro y hy e
    rw [hbx] at e
    rcases List.eq_nil_or_concat l₁ with rfl | ⟨l, a, rfl⟩
    · exact hmem y (List.mem_append_right _ hy) (by simpa using e)
    · exact hnd.2.2 a (by simp) y hy (by simpa using e.symm)
  have hne₁ : ∀ y ∈ l₁, y ≠ fwd x := by
    intro y hy e
    rw [hfx] at e
    cases l₂ with
    | nil => exact hmem y (List.mem_append_left _ hy) (by simpa using e)
    | cons a l₂ => exact hnd.2.2 y hy a (by simp) (by simpa using e)
  refine ⟨?_, ?_, hnd', hnull⟩
  · rw [hhead, hbx]
    cases l₁ with
    | nil => simp [hfx]
    | cons a l =>
        have hhd : head = a := by simpa using h.head_eq
        have hz : (a :: l).getLastD z ≠ z := by
          refine hmem _ (List.mem_append_left _ ?_)
          rw [List.getLastD_eq_getLast?, List.getLast?_eq_some_getLast (by simp)]
          exact List.getLast_mem _
        rw [if_neg hz, hhd]
        rfl
  · rw [linked_append]
    constructor
    · refine hlinked.1.change_post hnd.1 ?_ ?_
      · intro y hy
        rw [hb y (List.mem_append_left _ hy), if_neg (hne₁ y hy)]
      · intro y hy
        rw [hf y (List.mem_append_left _ hy), hfx]
        simp only [hlast y hy]
    · refine hlinked.2.2.2.change_prev hnd.2.1 ?_ ?_
      · intro y hy
        rw [hf y (List.mem_append_right _ hy), if_neg (hne₂ y hy)]
      · intro y hy
        rw [hb y (List.mem_append_right _ hy), hbx]
        simp only [hfirst y hy]

end Splice

end DList

end DoublyLinked
