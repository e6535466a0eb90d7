/-
**Tables of handles.**

What a table of handles is for: `create` puts an element into the table and answers with a handle
that it has never answered with before; the handle leads to the element until it is destroyed, and
to nothing afterwards.  The table is described by the elements that its handles lead to, and by the
handles it has ever issued.

Main definitions:

* `Handles.Table`, `Handles.Act`, `Handles.Step` — a table, its two operations, and their effect.

Main results:

* `Handles.live_of_runsTo` — a handle leads to its element as long as it is not destroyed;
* `Handles.dead_of_runsTo` — a destroyed handle never leads to an element again.
-/

import Mathlib.Data.List.Basic
import TsaRecomp.Lib.Runs

set_option relaxedAutoImplicit false
set_option autoImplicit false

namespace Handles

variable {H E : Type*} [DecidableEq H]

/-- A table of handles, with the handles it has issued. -/
structure Table (H E : Type*) where
  live : H → Option E
  issued : List H

/-- The operations, with the handle that a `create` answers with. -/
inductive Act (H E : Type*)
  | create (h : H) (e : E)
  | destroy (h : H)

/-- The effect of an operation. -/
def Step (s : Table H E) : Act H E → Table H E → Prop
  | .create h e, t => h ∉ s.issued ∧ t.issued = h :: s.issued ∧
      ∀ k, t.live k = if k = h then some e else s.live k
  | .destroy h, t => t.issued = s.issued ∧ ∀ k, t.live k = if k = h then none else s.live k

variable {s t : Table H E} {h : H}

/-- A step does to an issued handle nothing but destroy it. -/
theorem Step.live_of_issued {a : Act H E} (hst : Step s a t) (hh : h ∈ s.issued) :
    h ∈ t.issued ∧ (t.live h = s.live h ∨ a = .destroy h ∧ t.live h = none) := by
  cases a with
  | create k e =>
      obtain ⟨hk, hi, hl⟩ := hst
      refine ⟨hi ▸ List.mem_cons_of_mem _ hh, Or.inl ?_⟩
      rw [hl, if_neg fun he : h = k => hk (he ▸ hh)]
  | destroy k =>
      obtain ⟨hi, hl⟩ := hst
      refine ⟨hi ▸ hh, ?_⟩
      rw [hl]
      split_ifs with e
      · exact Or.inr ⟨by rw [e], rfl⟩
      · exact Or.inl rfl

/-- **A handle leads to its element** as long as it is not destroyed. -/
theorem live_of_runsTo {e : E} (hr : Runs.RunsTo Step (fun _ a => a ≠ .destroy h) s t)
    (hh : h ∈ s.issued) (hl : s.live h = some e) : t.live h = some e := by
  have key : h ∈ t.issued ∧ t.live h = some e := by
    refine hr.invariant (I := fun s => h ∈ s.issued ∧ s.live h = some e) ?_ ⟨hh, hl⟩
    intro s a t hs ha hst
    obtain ⟨ht, he | ⟨hd, -⟩⟩ := hst.live_of_issued hs.1
    · exact ⟨ht, he.trans hs.2⟩
    · exact absurd hd ha
  exact key.2

/-- **A destroyed handle leads to nothing** ever after. -/
theorem dead_of_runsTo {C : Table H E → Act H E → Prop} (hr : Runs.RunsTo Step C s t)
    (hh : h ∈ s.issued) (hl : s.live h = none) : t.live h = none := by
  have key : h ∈ t.issued ∧ t.live h = none := by
    refine hr.invariant (I := fun s => h ∈ s.issued ∧ s.live h = none) ?_ ⟨hh, hl⟩
    intro s a t hs _ hst
    obtain ⟨ht, he | ⟨-, h0⟩⟩ := hst.live_of_issued hs.1
    · exact ⟨ht, he.trans hs.2⟩
    · exact ⟨ht, h0⟩
  exact key.2

end Handles
