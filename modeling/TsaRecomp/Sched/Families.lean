/-
**The child lists.**

The processes with the same `relative` are one doubly linked list, but the parent's `oldest_child`
is the head of that list or null: `KillChildProcess` clears it while the killed children stay linked
until they end.  A child that is linked while the field is null starts a second list, and the first
of the older children that ends overwrites the head of it.  This module settles which links keep
every child on the list of its parent.

Main definitions:

* `Sched.Family`, `Sched.Families` — the children of a parent as one list, and **the invariant**;
* `Sched.Attached` — the parent heads the list of all its children;
* `Sched.LosesChildren` — the links and terminations that break the lists;
* `Sched.Disturbs` — the kills, unlinks and terminations after which a child need not be kept.

Main results:

* `Sched.Families.unlinkChildProcess`, `Sched.Families.linkUnlinked` — splicing out and in;
* `Sched.KinCase.familyInv`, `Sched.KinCase.childInv` — the step lemmas;
* `Sched.child_kept_of_reachable` — **no child is lost**, when every link is to a parent that heads
  the list of all its children;
* `Sched.child_lost_by_killedSibling` — a child that is lost.
-/

import TsaRecomp.Lib.DoublyLinked
import TsaRecomp.Sched.KinSteps
import TsaRecomp.Sched.Modes

set_option relaxedAutoImplicit false
set_option autoImplicit false

namespace Sched

open DoublyLinked (DList)

/-! ### The lists -/

/-- The live children of `p` are the list `l`, newest first, and `oldest_child` is its head or
null. -/
structure Family (m : Memory) (p : Ptr) (l : List Ptr) : Prop where
  mem_iff : ∀ k, k ∈ l ↔ k ∈ m.live ∧ m.relative k = p
  list : DList 0 m.parentOldestChild m.newProcess (l.headD 0) l
  oldest : p ∈ m.live → m.oldestChild p = l.headD 0 ∨ m.oldestChild p = 0

/-- **The invariant** of the child lists. -/
structure Families (m : Memory) : Prop where
  null_notMem : 0 ∉ m.live
  family : ∀ p, p ≠ 0 → ∃ l, Family m p l

/-- The parent heads the list of all its children. -/
def Attached (m : Memory) (p : Ptr) : Prop :=
  m.oldestChild p ≠ 0 ∨ ∀ k ∈ m.live, m.relative k ≠ p

namespace Family

variable {m : Memory} {p : Ptr} {l : List Ptr}

theorem eq_nil (h : Family m p l) (hn : ∀ k ∈ m.live, m.relative k ≠ p) : l = [] :=
  List.eq_nil_iff_forall_not_mem.2 fun k hk => hn k ((h.mem_iff k).1 hk).1 ((h.mem_iff k).1 hk).2

theorem attached_iff (h : Family m p l) (hp : p ∈ m.live) :
    Attached m p ↔ m.oldestChild p = l.headD 0 := by
  constructor
  · rintro (h0 | hn)
    · exact (h.oldest hp).resolve_right h0
    · rw [h.eq_nil hn]
      simpa [h.eq_nil hn] using h.oldest hp
  · intro he
    by_cases h0 : m.oldestChild p = 0
    · refine Or.inr ?_
      intro k hk hr
      have hl := h.list.head_eq_null_iff.1 (he.symm.trans h0)
      simpa [hl] using (h.mem_iff k).2 ⟨hk, hr⟩
    · exact Or.inl h0

/-- A change that leaves the links of the children alone, and that of the parent but for clearing
it. -/
theorem congr (h : Family m p l) {m' : Memory}
    (hmem : ∀ k, k ∈ m'.live ∧ m'.relative k = p ↔ k ∈ m.live ∧ m.relative k = p)
    (hpoc : ∀ k ∈ l, m'.parentOldestChild k = m.parentOldestChild k)
    (hnew : ∀ k ∈ l, m'.newProcess k = m.newProcess k)
    (hold : p ∈ m'.live → p ∈ m.live ∧ m'.oldestChild p = m.oldestChild p ∨ m'.oldestChild p = 0) :
    Family m' p l := by
  refine ⟨fun k => (h.mem_iff k).trans (hmem k).symm, h.list.congr hpoc hnew, ?_⟩
  intro hp
  rcases hold hp with ⟨hp', he⟩ | h0
  · rw [he]
    exact h.oldest hp'
  · exact Or.inr h0

end Family

namespace Families

variable {m m' : Memory}

/-- The local invariant of the links. -/
theorem kinLinks (h : Families m) : KinLinks m := by
  refine ⟨h.null_notMem, ?_, ?_, ?_⟩
  · intro c hc hr ho
    obtain ⟨l, hl⟩ := h.family _ hr
    obtain ⟨hm, hb⟩ := hl.list.fwd_mem ((hl.mem_iff c).2 ⟨hc, rfl⟩) ho
    exact ⟨((hl.mem_iff _).1 hm).1, ((hl.mem_iff _).1 hm).2, hb⟩
  · intro c hc hr hn
    obtain ⟨l, hl⟩ := h.family _ hr
    obtain ⟨hm, hf⟩ := hl.list.bwd_mem ((hl.mem_iff c).2 ⟨hc, rfl⟩) hn
    exact ⟨((hl.mem_iff _).1 hm).1, ((hl.mem_iff _).1 hm).2, hf⟩
  · intro p hp ho
    obtain ⟨l, hl⟩ := h.family p fun e => h.null_notMem (e ▸ hp)
    have he := (hl.oldest hp).resolve_right ho
    obtain ⟨hm, hb⟩ := hl.list.head_mem (he ▸ ho)
    rw [he]
    exact ⟨((hl.mem_iff _).1 hm).1, ((hl.mem_iff _).1 hm).2, hb⟩

theorem sameKin (h : Families m) (hs : SameKin m m') : Families m' := by
  refine ⟨hs.live ▸ h.null_notMem, ?_⟩
  intro p hp
  obtain ⟨l, hl⟩ := h.family p hp
  have hll : ∀ k ∈ l, k ∈ m.live := fun k hk => ((hl.mem_iff k).1 hk).1
  refine ⟨l, hl.congr ?_ (fun k hk => hs.parentOldestChild (hll k hk))
    (fun k hk => hs.newProcess (hll k hk)) ?_⟩
  · intro k
    rw [hs.live]
    exact and_congr_right fun hk => by rw [hs.relative hk]
  · intro hpl
    rw [hs.live] at hpl
    exact Or.inl ⟨hpl, hs.oldestChild hpl⟩

theorem killed {q : Ptr} (h : Families m) (hk : Killed m q m') : Families m' := by
  refine ⟨hk.live ▸ h.null_notMem, ?_⟩
  intro p hp
  obtain ⟨l, hl⟩ := h.family p hp
  refine ⟨l, hl.congr (fun k => by rw [hk.live, hk.relative]) (fun k _ => hk.parentOldestChild k)
    (fun k _ => hk.newProcess k) ?_⟩
  intro hpl
  rw [hk.live] at hpl
  exact (hk.oldestChild p).imp (fun he => ⟨hpl, he⟩) And.left

/-- The list of the parent, with the child between `l₁` and `l₂`. -/
theorem unlinkChildProcess_parent {c : Ptr} (hc : c ∈ m.live) (hr : m.relative c ≠ 0)
    {l : List Ptr} (hl : Family m (m.relative c) l) :
    Family (Sched.unlinkChildProcess m c) (m.relative c) (l.erase c) ∧
      (m.newProcess c = 0 →
        (Sched.unlinkChildProcess m c).oldestChild (m.relative c) = (l.erase c).headD 0) := by
  have hrel := relative_unlinkChildProcess m c
  have hpoc := fun y => parentOldestChild_unlinkChildProcess y hr
  have hnew := fun y => newProcess_unlinkChildProcess y hr
  have hold := oldestChild_unlinkChildProcess (m.relative c) hr
  have hlive := live_unlinkChildProcess m c
  generalize Sched.unlinkChildProcess m c = m' at *
  obtain ⟨l₁, l₂, rfl⟩ := List.append_of_mem ((hl.mem_iff c).2 ⟨hc, rfl⟩)
  have hnd : c ∉ l₁ ++ l₂ := (List.nodup_middle.1 hl.list.nodup |> List.nodup_cons.1).1
  rw [List.erase_append_right _ fun hm => hnd (List.mem_append_left _ hm), List.erase_cons_head]
  have hnull : ∀ y ∈ l₁ ++ l₂, y ≠ 0 := fun y hy =>
    hl.list.ne_null (by rw [List.mem_append] at hy ⊢; exact hy.imp id (List.mem_cons_of_mem _))
  have hlist : DList 0 m'.parentOldestChild m'.newProcess
      (if m.newProcess c = 0 then m.parentOldestChild c else (l₁ ++ c :: l₂).headD 0)
      (l₁ ++ l₂) := by
    refine hl.list.remove ?_ ?_ rfl
    · intro y hy
      rw [hpoc]
      refine if_congr (and_iff_right_of_imp ?_) rfl rfl
      intro e
      exact e ▸ hnull y hy
    · intro y hy
      rw [hnew]
      refine if_congr (and_iff_right_of_imp ?_) rfl rfl
      intro e
      exact e ▸ hnull y hy
  have hhead := hlist.head_eq
  refine ⟨⟨?_, hhead ▸ hlist, ?_⟩, ?_⟩
  · intro k
    rw [hlive, hrel]
    have := hl.mem_iff k
    by_cases hkc : k = c
    · subst hkc
      simpa [hnd] using fun _ => hr.symm
    · rw [if_neg hkc, ← this]
      simp [hkc]
  · intro hpl
    rw [hold, ← hhead]
    split_ifs with h₁ h₂ h₂
    · exact Or.inl rfl
    · exact absurd h₁.1 h₂
    · exact absurd ⟨h₂, rfl⟩ h₁
    · exact hl.oldest (hlive ▸ hpl)
  · intro hn
    rw [hold, if_pos ⟨hn, rfl⟩, ← hhead, if_pos hn]

/-- Another list: the siblings that are written to are not on it. -/
theorem unlinkChildProcess_other (h : Families m) {c : Ptr} (hc : c ∈ m.live)
    (hr : m.relative c ≠ 0) {p : Ptr} (hp : p ≠ 0) (hpc : p ≠ m.relative c) {l : List Ptr}
    (hl : Family m p l) : Family (Sched.unlinkChildProcess m c) p l := by
  have hrel := relative_unlinkChildProcess m c
  have hold := oldestChild_unlinkChildProcess p hr
  have hlive := live_unlinkChildProcess m c
  have hkin := h.kinLinks
  refine hl.congr ?_ ?_ ?_ ?_
  · intro k
    rw [hlive, hrel]
    split_ifs with hkc
    · rw [hkc]
      exact iff_of_false (fun e => hp e.2.symm) fun e => hpc e.2.symm
    · rfl
  · intro k hk
    rw [parentOldestChild_unlinkChildProcess k hr, if_neg]
    rintro ⟨hn, rfl⟩
    exact hpc (((hl.mem_iff _).1 hk).2.symm.trans (hkin.newer c hc hr hn).2.1)
  · intro k hk
    rw [newProcess_unlinkChildProcess k hr, if_neg]
    rintro ⟨ho, rfl⟩
    exact hpc (((hl.mem_iff _).1 hk).2.symm.trans (hkin.older c hc hr ho).2.1)
  · intro hpl
    rw [hold, if_neg fun e => hpc e.2]
    exact Or.inl ⟨hlive ▸ hpl, rfl⟩

/-- **Splicing a child out** of the list of its parent, which heads the rest of the list when the
newest child has been spliced out. -/
theorem unlinkChildProcess_family (h : Families m) {c : Ptr} (hc : c ∈ m.live)
    (hr : m.relative c ≠ 0) {p : Ptr} (hp : p ≠ 0) {l : List Ptr} (hl : Family m p l) :
    Family (Sched.unlinkChildProcess m c) p (l.erase c) ∧
      (p = m.relative c → m.newProcess c = 0 →
        (Sched.unlinkChildProcess m c).oldestChild p = (l.erase c).headD 0) := by
  by_cases hpc : p = m.relative c
  · subst hpc
    obtain ⟨hfamily, hoc⟩ := unlinkChildProcess_parent hc hr hl
    exact ⟨hfamily, fun _ => hoc⟩
  · rw [List.erase_of_not_mem fun hm => hpc ((hl.mem_iff c).1 hm).2.symm]
    exact ⟨h.unlinkChildProcess_other hc hr hp hpc hl, fun e => absurd e hpc⟩

theorem unlinkChildProcess (h : Families m) {c : Ptr} (hc : c ∈ m.live) :
    Families (unlinkChildProcess m c) := by
  by_cases hr : m.relative c = 0
  · rwa [unlinkChildProcess_of_null hr]
  refine ⟨live_unlinkChildProcess m c ▸ h.null_notMem, ?_⟩
  intro p hp
  obtain ⟨l, hl⟩ := h.family p hp
  exact ⟨_, (h.unlinkChildProcess_family hc hr hp hl).1⟩

/-- **Splicing a child in**, in front of the list that its parent heads. -/
theorem linkUnlinked (h : Families m) {root child : Ptr} (hroot : root ∈ m.live)
    (hc : child ∈ m.live) (hcr : m.relative child = 0) (ha : Attached m root) :
    Families (linkUnlinked m root child) := by
  have hrel := fun y => relative_linkUnlinked m y root child
  have hnew := fun y => newProcess_linkUnlinked m y root child
  have hpoc := fun y => parentOldestChild_linkUnlinked m y root child
  have hold := fun y => oldestChild_linkUnlinked m y root child
  have hlive := live_linkUnlinked m root child
  have hkin := h.kinLinks
  have hroot0 : root ≠ 0 := fun e => h.null_notMem (e ▸ hroot)
  have hchild0 : child ≠ 0 := fun e => h.null_notMem (e ▸ hc)
  generalize Sched.linkUnlinked m root child = m' at *
  refine ⟨hlive ▸ h.null_notMem, ?_⟩
  intro p hp
  obtain ⟨l, hl⟩ := h.family p hp
  have hcl : child ∉ l := fun hm => hp (((hl.mem_iff child).1 hm).2.symm.trans hcr)
  have hne : ∀ k ∈ l, k ≠ child := fun k hk e => hcl (e ▸ hk)
  by_cases hpr : p = root
  · -- the list of the new parent, which heads it
    subst hpr
    have hhead := (hl.attached_iff hroot).1 ha
    have hlist : DList 0 m'.parentOldestChild m'.newProcess child ([] ++ child :: l) := by
      refine DList.insert (show DList 0 _ _ _ ([] ++ l) from hl.list) hcl hchild0 ?_ ?_ ?_ ?_ rfl
      · rw [hpoc, if_pos rfl, hhead]
      · rw [hnew, if_pos rfl]
        rfl
      · intro y hy
        rw [hpoc, if_neg (hne y hy)]
        exact (if_neg (hl.list.ne_null hy)).symm
      · intro y hy
        rw [hnew, if_neg (hne y hy), hhead]
        refine if_congr (and_iff_right_of_imp ?_) rfl rfl
        intro e
        exact e ▸ hl.list.ne_null hy
    refine ⟨child :: l, ?_, hlist, fun _ => Or.inl ?_⟩
    · intro k
      rw [List.mem_cons, hl.mem_iff, hlive, hrel]
      by_cases hkc : k = child
      · simp [hkc, hc]
      · simp [hkc]
    · rw [hold, if_pos rfl]
      rfl
  · -- another list: the newest child of `root` is not on it
    refine ⟨l, hl.congr ?_ ?_ ?_ ?_⟩
    · intro k
      rw [hlive, hrel]
      split_ifs with hkc
      · rw [hkc, hcr]
        exact iff_of_false (fun e => hpr e.2.symm) fun e => hp e.2.symm
      · rfl
    · intro k hk
      rw [hpoc, if_neg (hne k hk)]
    · intro k hk
      rw [hnew, if_neg (hne k hk), if_neg]
      rintro ⟨ho, rfl⟩
      exact hpr (((hl.mem_iff _).1 hk).2.symm.trans (hkin.oldest root hroot ho).2.1)
    · intro hpl
      rw [hold, if_neg hpr]
      exact Or.inl ⟨hlive ▸ hpl, rfl⟩

/-- A new process has no links, and no other process has one to it. -/
theorem created {b : Block} {func : ProcessFunc} {priority stackSize : ℕ} (h : Families m)
    (hcr : Created b func priority stackSize m m') (hf : b.fresh m) : Families m' := by
  have hkin : ∀ k ∈ m.live, (m'.record k).kin = (m.record k).kin := fun k hk =>
    hcr.kin fun e => hf.2.1 (e ▸ hk)
  refine ⟨?_, fun p hp => ?_⟩
  · rw [hcr.live]
    intro h0
    rcases List.mem_cons.1 h0 with h0 | h0
    · exact hf.1 h0.symm
    · exact h.null_notMem h0
  obtain ⟨l, hl⟩ := h.family p hp
  have hll : ∀ k ∈ l, k ∈ m.live := fun k hk => ((hl.mem_iff k).1 hk).1
  refine ⟨l, hl.congr ?_ (fun k hk => congrArg Kin.parentOldestChild (hkin k (hll k hk)))
    (fun k hk => congrArg Kin.newProcess (hkin k (hll k hk))) ?_⟩
  · intro k
    rw [hcr.live, List.mem_cons]
    constructor
    · rintro ⟨rfl | hk, hr⟩
      · exact absurd (hcr.relative_self.symm.trans hr).symm hp
      · exact ⟨hk, (congrArg Kin.relative (hkin k hk)).symm.trans hr⟩
    · rintro ⟨hk, hr⟩
      exact ⟨Or.inr hk, (congrArg Kin.relative (hkin k hk)).trans hr⟩
  · intro hpl
    rw [hcr.live] at hpl
    rcases List.mem_cons.1 hpl with rfl | hpl
    · exact Or.inr hcr.oldestChild_self
    · exact Or.inl ⟨hpl, congrArg Kin.oldestChild (hkin p hpl)⟩

/-- Taking a process without a parent off the live ones. -/
theorem free {cur : Ptr} (h : Families m) (hrec : m'.record = m.record)
    (hlive : ∀ p, p ∈ m'.live ↔ p ∈ m.live ∧ p ≠ cur) (hcur : m.relative cur = 0) :
    Families m' := by
  refine ⟨fun h0 => h.null_notMem ((hlive 0).1 h0).1, ?_⟩
  intro p hp
  obtain ⟨l, hl⟩ := h.family p hp
  refine ⟨l, hl.congr ?_ ?_ ?_ ?_⟩
  · intro k
    rw [hlive, Memory.relative, hrec]
    constructor
    · rintro ⟨⟨hk, -⟩, hr⟩
      exact ⟨hk, hr⟩
    · rintro ⟨hk, hr⟩
      refine ⟨⟨hk, ?_⟩, hr⟩
      rintro rfl
      exact hp (hr.symm.trans hcur)
  · intro k _
    rw [Memory.parentOldestChild, hrec]
  · intro k _
    rw [Memory.newProcess, hrec]
  · intro hpl
    exact Or.inl ⟨((hlive p).1 hpl).1, by rw [Memory.oldestChild, hrec]⟩

end Families

/-! ### The calls -/

/-- `LinkChildProcess(root, child)` keeps every child: `root` heads the list of its children, but
for `child` itself. -/
def LinkOk (m : Memory) (root child : Ptr) : Prop :=
  m.oldestChild root ≠ 0 ∨ (∀ k ∈ m.live, k ≠ child → m.relative k ≠ root) ∨
    m.relative child = root ∧ m.newProcess child = 0

/-- The parent and the child that a call links. -/
def Api.links : Api → Option (Ptr × Ptr)
  | .createChildProcess b _ _ _ root => some (root, b.process)
  | .linkChildProcess root child => some (root, child)
  | _ => none

/-- What a call needs that links a child. -/
def Api.linkOk (m : Memory) : Api → Prop
  | .createChildProcess _ _ _ _ root => Attached m root
  | .linkChildProcess root child => LinkOk m root child
  | _ => True

namespace Families

variable {m m' : Memory}

/-- Behind `UnlinkChildProcess(child)`, the new parent heads the list of its children. -/
theorem attached_unlinkChildProcess (h : Families m) {root child : Ptr} (hroot : root ∈ m.live)
    (hc : child ∈ m.live) (hok : LinkOk m root child) :
    Attached (Sched.unlinkChildProcess m child) root := by
  have hroot0 : root ≠ 0 := fun e => h.null_notMem (e ▸ hroot)
  by_cases hr : m.relative child = 0
  · rw [unlinkChildProcess_of_null hr]
    rcases hok with h0 | hn | ⟨he, -⟩
    · exact Or.inl h0
    · refine Or.inr fun k hk hkr => hn k hk ?_ hkr
      rintro rfl
      exact hroot0 (hkr.symm.trans hr)
    · exact absurd (he.symm.trans hr) hroot0
  by_cases hhead : root = m.relative child ∧ m.newProcess child = 0
  · -- `child` is the newest child of `root` itself
    obtain ⟨l, hl⟩ := h.family root hroot0
    obtain ⟨hl', he⟩ := h.unlinkChildProcess_family hc hr hroot0 hl
    refine (hl'.attached_iff ?_).2 (he hhead.1 hhead.2)
    rwa [live_unlinkChildProcess]
  · rcases hok with h0 | hn | ⟨he, hnew⟩
    · refine Or.inl ?_
      rwa [oldestChild_unlinkChildProcess root hr, if_neg fun e => hhead ⟨e.2, e.1⟩]
    · refine Or.inr ?_
      intro k hk hkr
      rw [live_unlinkChildProcess] at hk
      rw [relative_unlinkChildProcess] at hkr
      split_ifs at hkr with hkc
      · exact hroot0 hkr.symm
      · exact hn k hk hkc hkr
    · exact absurd ⟨he.symm, hnew⟩ hhead

theorem linkChildProcess (h : Families m) {root child : Ptr} (hroot : root ∈ m.live)
    (hc : child ∈ m.live) (hok : LinkOk m root child) :
    Families (linkChildProcess m root child) := by
  have hl := live_unlinkChildProcess m child
  rw [linkChildProcess_eq]
  refine (h.unlinkChildProcess hc).linkUnlinked (hl ▸ hroot) (hl ▸ hc) ?_
    (h.attached_unlinkChildProcess hroot hc hok)
  rw [relative_unlinkChildProcess, if_pos rfl]

end Families

/-- A parent that heads the list of its children does so behind the creation of a process. -/
theorem Attached.created {m m' : Memory} {b : Block} {func : ProcessFunc} {priority stackSize : ℕ}
    {root : Ptr} (h : Attached m root) (hroot : root ∈ m.live) (hroot0 : root ≠ 0)
    (hcr : Created b func priority stackSize m m') (hf : b.fresh m) : Attached m' root := by
  refine h.imp ?_ ?_
  · intro h0
    rwa [show m'.oldestChild root = m.oldestChild root from
      congrArg Kin.oldestChild (hcr.kin fun e => hf.2.1 (e ▸ hroot))]
  · intro hn k hk hkr
    rw [hcr.live] at hk
    rcases List.mem_cons.1 hk with rfl | hk
    · exact hroot0 (hkr.symm.trans hcr.relative_self)
    · exact hn k hk ((congrArg Kin.relative (hcr.kin fun e => hf.2.1 (e ▸ hk))).symm.trans hkr)

theorem Attached.linkOk {m : Memory} {root : Ptr} (h : Attached m root) (child : Ptr) :
    LinkOk m root child :=
  h.imp id fun hn => Or.inl fun k hk _ => hn k hk

theorem families_invariant : KinInvariant (fun _ => True) (fun _ => True) Families where
  links _ h := h.kinLinks
  sameKin _ _ h := h.sameKin
  killed _ _ _ h _ _ hk := h.killed hk
  unlink _ _ h hc _ := h.unlinkChildProcess hc

/-- The memory between the two halves of `CreateChildProcess`. -/
theorem Families.createChildProcess {fuel : ℕ} {m m' : Memory} {b : Block} {func : ProcessFunc}
    {priority stackSize : ℕ} {root : Ptr} (h : Families m) (hf : b.fresh m) (hroot : root ∈ m.live)
    (ha : Attached m root)
    (hr : Sched.createChildProcess fuel m b func priority stackSize root = .ok m') :
    ∃ m₁, Created b func priority stackSize m m₁ ∧ Families m₁ ∧ b.process ∈ m₁.live ∧
      root ∈ m₁.live ∧ LinkOk m₁ root b.process ∧
      m' = Sched.linkChildProcess m₁ root b.process := by
  rw [Sched.createChildProcess] at hr
  obtain ⟨m₁, h₁, h₂⟩ := bind_eq_ok.1 hr
  cases h₂
  have hcr := createProcess_created h₁
  have hroot0 : root ≠ 0 := fun e => h.null_notMem (e ▸ hroot)
  refine ⟨m₁, hcr, h.created hcr hf, ?_, ?_, (ha.created hroot hroot0 hcr hf).linkOk _, rfl⟩
  · rw [hcr.live]
    exact List.mem_cons_self
  · rw [hcr.live]
    exact List.mem_cons_of_mem _ hroot

/-- **The calls keep the child lists**, when they link to parents that head theirs. -/
theorem Families.api {fuel : ℕ} {m m' : Memory} {a : Api} (hm : MemInv m) (h : Families m)
    (hv : a.valid m) (hok : a.linkOk m) (hr : a.run fuel m = .ok m') : Families m' := by
  cases a with
  | createProcess => exact h.created (createProcess_created hr) hv
  | createChildProcess =>
      obtain ⟨m₁, -, hm₁, hb, hroot, hl, rfl⟩ := h.createChildProcess hv.1 hv.2 hok hr
      exact hm₁.linkChildProcess hroot hb hl
  | linkChildProcess root child =>
      cases hr
      exact h.linkChildProcess hv.1 hv.2 hok
  | _ => exact families_invariant.api hm h hv rfl nofun (fun _ _ => trivial) (fun _ _ => trivial) hr

/-! ### A child -/

/-- `c` is a child of `p`, and `p` heads its children. -/
structure ChildOf (m : Memory) (p c : Ptr) : Prop where
  parent_live : p ∈ m.live
  live : c ∈ m.live
  relative : m.relative c = p
  oldestChild : m.oldestChild p ≠ 0

namespace ChildOf

variable {m m' : Memory} {p c : Ptr}

/-- The child is on the list that the parent heads. -/
theorem family (h : ChildOf m p c) (hf : Families m) :
    ∃ l, Family m p l ∧ m.oldestChild p = l.headD 0 ∧ c ∈ l := by
  obtain ⟨l, hl⟩ := hf.family p fun e => hf.null_notMem (e ▸ h.parent_live)
  exact ⟨l, hl, (hl.oldest h.parent_live).resolve_right h.oldestChild,
    (hl.mem_iff c).2 ⟨h.live, h.relative⟩⟩

theorem sameKin (h : ChildOf m p c) (hs : SameKin m m') : ChildOf m' p c :=
  ⟨hs.live ▸ h.parent_live, hs.live ▸ h.live, (hs.relative h.live).trans h.relative,
    (hs.oldestChild h.parent_live).trans_ne h.oldestChild⟩

/-- Killing the children of a process that is neither the parent nor an ancestor. -/
theorem killed {q : Ptr} (h : ChildOf m p c) (hq : ¬ Ancestor m p q) (hk : Killed m q m') :
    ChildOf m' p c := by
  refine ⟨hk.live ▸ h.parent_live, hk.live ▸ h.live, (hk.relative c).trans h.relative, ?_⟩
  rcases hk.oldestChild p with he | ⟨-, ha⟩
  · exact he.trans_ne h.oldestChild
  · exact absurd ha hq

/-- Unlinking another process: when it is the newest sibling, the next one heads the list. -/
theorem unlinkChildProcess {x : Ptr} (h : ChildOf m p c) (hf : Families m) (hx : x ∈ m.live)
    (hxc : x ≠ c) : ChildOf (unlinkChildProcess m x) p c := by
  have hlive := live_unlinkChildProcess m x
  refine ⟨hlive ▸ h.parent_live, hlive ▸ h.live, ?_, ?_⟩
  · rw [relative_unlinkChildProcess, if_neg hxc.symm]
    exact h.relative
  by_cases hr : m.relative x = 0
  · rw [unlinkChildProcess_of_null hr]
    exact h.oldestChild
  rw [oldestChild_unlinkChildProcess p hr]
  split_ifs with hhead
  · obtain ⟨l, hl, he, hcl⟩ := h.family hf
    have hxl := (hl.mem_iff x).2 ⟨hx, hhead.2.symm⟩
    have hxh := hl.list.eq_head_of_bwd hxl hhead.1
    cases l with
    | nil => cases hcl
    | cons y l =>
        obtain rfl : x = y := hxh
        have hcl' := (List.mem_cons.1 hcl).resolve_left hxc.symm
        rw [hl.list.linked.2.1]
        cases l with
        | nil => cases hcl'
        | cons z l => exact hl.list.ne_null (by simp)
  · exact h.oldestChild

/-- Linking another process. -/
theorem linkChildProcess {root child : Ptr} (h : ChildOf m p c) (hf : Families m)
    (hc : child ∈ m.live) (hcc : child ≠ c) : ChildOf (linkChildProcess m root child) p c := by
  have hu := h.unlinkChildProcess hf hc hcc
  refine ⟨?_, ?_, ?_, ?_⟩
  · rw [linkChildProcess_eq, live_linkUnlinked]
    exact hu.parent_live
  · rw [linkChildProcess_eq, live_linkUnlinked]
    exact hu.live
  · rw [linkChildProcess_eq, relative_linkUnlinked, if_neg hcc.symm]
    exact hu.relative
  · rw [linkChildProcess_eq, oldestChild_linkUnlinked]
    split_ifs
    · exact fun e => hf.null_notMem (e ▸ hc)
    · exact hu.oldestChild

theorem created {b : Block} {func : ProcessFunc} {priority stackSize : ℕ} (h : ChildOf m p c)
    (hcr : Created b func priority stackSize m m') (hf : b.fresh m) : ChildOf m' p c := by
  have hkin : ∀ k ∈ m.live, (m'.record k).kin = (m.record k).kin := fun k hk =>
    hcr.kin fun e => hf.2.1 (e ▸ hk)
  refine ⟨?_, ?_, (congrArg Kin.relative (hkin c h.live)).trans h.relative,
    (congrArg Kin.oldestChild (hkin p h.parent_live)).trans_ne h.oldestChild⟩
  · rw [hcr.live]
    exact List.mem_cons_of_mem _ h.parent_live
  · rw [hcr.live]
    exact List.mem_cons_of_mem _ h.live

/-- What `LinkChildProcess` makes of the two processes. -/
theorem of_linkChildProcess {root child : Ptr} (h0 : 0 ∉ m.live) (hroot : root ∈ m.live)
    (hc : child ∈ m.live) : ChildOf (Sched.linkChildProcess m root child) root child := by
  have hl := live_unlinkChildProcess m child
  refine ⟨?_, ?_, ?_, ?_⟩
  · rwa [linkChildProcess_eq, live_linkUnlinked, hl]
  · rwa [linkChildProcess_eq, live_linkUnlinked, hl]
  · rw [linkChildProcess_eq, relative_linkUnlinked, if_pos rfl]
  · rw [linkChildProcess_eq, oldestChild_linkUnlinked, if_pos rfl]
    exact fun e => h0 (e ▸ hc)

/-- The calls that kill neither the child, nor its parent, nor the children of an ancestor, and
that neither unlink nor link the child, keep it. -/
theorem invariant (m₀ : Memory) (p c : Ptr) :
    KinInvariant (fun q => ¬ Ancestor m₀ p q) (fun q => q ≠ c)
      (fun m => Families m ∧ ChildOf m p c ∧ ∀ q, Ancestor m p q → Ancestor m₀ p q) where
  links _ h := h.1.kinLinks
  sameKin _ _ h hs := ⟨h.1.sameKin hs, h.2.1.sameKin hs, fun q hq => h.2.2 q (hs.ancestor hq)⟩
  killed _ _ _ h _ hq hk := ⟨h.1.killed hk, h.2.1.killed (fun ha => hq (h.2.2 _ ha)) hk,
    fun q ha => h.2.2 q (hk.ancestor_iff.1 ha)⟩
  unlink _ _ h hx hxc := ⟨h.1.unlinkChildProcess hx, h.2.1.unlinkChildProcess h.1 hx hxc,
    fun q ha => h.2.2 q (ancestor_of_unlinkChildProcess ha)⟩

end ChildOf

/-- The calls that may take the child `c` off the list of its parent `p`: it is unlinked, killed or
linked, or the children of `p` or of an ancestor are killed. -/
def Api.disturbs (m : Memory) (p c : Ptr) (a : Api) : Prop :=
  a.unlinks m c ∨ (∃ root, a.links = some (root, c)) ∨ ∃ q, a.kills m q ∧ Ancestor m p q

theorem ChildOf.api {fuel : ℕ} {m m' : Memory} {p c : Ptr} {a : Api} (h : ChildOf m p c)
    (hm : MemInv m) (hf : Families m) (hv : a.valid m) (hok : a.linkOk m)
    (hd : ¬ a.disturbs m p c) (hr : a.run fuel m = .ok m') : ChildOf m' p c := by
  cases a with
  | createProcess => exact h.created (createProcess_created hr) hv
  | createChildProcess b _ _ _ root =>
      obtain ⟨m₁, hcr, hm₁, hb, -, -, rfl⟩ := hf.createChildProcess hv.1 hv.2 hok hr
      exact (h.created hcr hv.1).linkChildProcess hm₁ hb fun e => hv.1.2.1 (e ▸ h.live)
  | linkChildProcess root child =>
      cases hr
      exact h.linkChildProcess hf hv.2 fun e => hd (Or.inr (Or.inl ⟨root, by rw [← e]; rfl⟩))
  | _ =>
      refine ((ChildOf.invariant m p c).api hm ⟨hf, h, fun _ => id⟩ hv rfl nofun
        (fun q hq ha => hd (Or.inr (Or.inr ⟨q, hq, ha⟩))) (fun q hq e => hd (Or.inl (e ▸ hq)))
        hr).2.1

/-! ### The steps -/

/-- The step breaks a child list: it links a child to a parent that does not head the list of its
children, or it ends a process that its own destructor has linked to a parent again. -/
def LosesChildren (s : Sys) (a : Act) : Prop :=
  (∃ b, a = .api b ∧ ¬ b.linkOk s.mem) ∨
    ∃ p, s.ending a = some p ∧ a = .returnFrom ∧ s.inDestructor = true ∧ s.mem.relative p ≠ 0

/-- The step unlinks, links, kills or ends the child `c`, or it kills or ends its parent `p`, or an
ancestor of `p`, or their children. -/
def Disturbs (p c : Ptr) (s : Sys) : Act → Prop
  | .api b => b.disturbs s.mem p c
  | .endProcess | .returnFrom => s.mem.currentProcess = c ∨ Ancestor s.mem p s.mem.currentProcess
  | _ => False

/-- The child lists are in order, and a process that has yielded its termination is on none. -/
structure FamilyInv (s : Sys) : Prop where
  families : Families s.mem
  terminating : ∀ cur, s.control.terminating = some cur → s.mem.relative cur = 0

/-- **The step lemma** of the child lists. -/
theorem KinCase.familyInv {s t : Sys} {a : Act} (hs : SysInv s) (h : FamilyInv s)
    (ha : ¬ LosesChildren s a) (hst : KinCase s a t) : FamilyInv t := by
  cases hst with
  | same hm hc =>
      refine ⟨h.families.sameKin hm, ?_⟩
      intro cur hcur
      rw [hc] at hcur
      exact (hm.relative (hs.terminating_live hcur)).trans (h.terminating cur hcur)
  | @api b fuel ha' hv hm hc hc' =>
      refine ⟨h.families.api hs.mem hv ?_ hm, ?_⟩
      · by_contra hok
        exact ha (Or.inl ⟨b, ha', hok⟩)
      · intro cur hcur
        rw [hc'] at hcur
        cases hcur
  | destruct hr ha' hm hc =>
      refine ⟨families_invariant.endProcessLeaves h.families (hs.running_live hr) trivial trivial
        hm, ?_⟩
      intro cur hcur
      rw [hc] at hcur
      cases hcur
  | @terminate time cur next m hr ha' he hm hsame hc =>
      have hcl := hs.running_live hr
      refine ⟨(families_invariant.endProcessLeaves h.families hcl trivial trivial hm).sameKin hsame,
        ?_⟩
      intro cur' hcur
      obtain rfl : cur = cur' := Option.some.inj (hc.symm.trans hcur)
      -- `EndProcess` has unlinked the process from its parent
      obtain ⟨m₁, hk, rfl⟩ := hm.steps h.families.kinLinks hcl
      have hlive : (unlinkChildProcess m₁ cur).live = s.mem.live :=
        (live_unlinkChildProcess m₁ cur).trans hk.live
      rw [hsame.relative (hlive ▸ hcl), relative_unlinkChildProcess, if_pos rfl]
  | @destructed time cur next hr ha' hd he hsame hc =>
      refine ⟨h.families.sameKin hsame, ?_⟩
      intro cur' hcur
      obtain rfl : cur = cur' := Option.some.inj (hc.symm.trans hcur)
      rw [hsame.relative (hs.running_live hr)]
      -- the destructor has not linked it again
      by_contra h0
      exact ha (Or.inr ⟨cur, he, ha', hd, h0⟩)
  | @free cur hc hc' hcur hrec hlive hstale =>
      refine ⟨h.families.free hrec hlive (h.terminating cur hc), ?_⟩
      intro cur' hcur'
      rw [hc'] at hcur'
      cases hcur'

/-- `c` is a child of `p`, and neither of the two has yielded its termination. -/
structure ChildInv (p c : Ptr) (s : Sys) : Prop where
  child : ChildOf s.mem p c
  terminating : ∀ cur, s.control.terminating = some cur → cur ≠ c ∧ cur ≠ p

/-- **The step lemma** of a child that is not disturbed. -/
theorem KinCase.childInv {s t : Sys} {a : Act} {p c : Ptr} (hs : SysInv s) (hf : FamilyInv s)
    (h : ChildInv p c s) (ha : ¬ LosesChildren s a) (hd : ¬ Disturbs p c s a)
    (hst : KinCase s a t) : ChildInv p c t := by
  -- the process that runs `EndProcess` is neither the child nor its parent nor an ancestor
  have hend : ∀ {time cur next}, s.control = .running time cur next →
      a = .endProcess ∨ a = .returnFrom → cur ≠ c ∧ ¬ Ancestor s.mem p cur := by
    intro time cur next hr hact
    have hplace := hs.place
    rw [hr] at hplace
    rw [← hplace.1]
    rcases hact with rfl | rfl <;> exact not_or.1 hd
  have hkeeps : ∀ {time cur next m}, s.control = .running time cur next →
      a = .endProcess ∨ a = .returnFrom → EndProcessLeaves s.mem cur m → ChildOf m p c := by
    intro time cur next m hr hact hm
    obtain ⟨hc, hp⟩ := hend hr hact
    exact ((ChildOf.invariant s.mem p c).endProcessLeaves ⟨hf.families, h.child, fun _ => id⟩
      (hs.running_live hr) hp hc hm).2.1
  have hother : ∀ {time cur next}, s.control = .running time cur next →
      a = .endProcess ∨ a = .returnFrom → t.control.terminating = some cur →
      ∀ cur', t.control.terminating = some cur' → cur' ≠ c ∧ cur' ≠ p := by
    intro time cur next hr hact hc cur' hcur
    obtain rfl : cur = cur' := Option.some.inj (hc.symm.trans hcur)
    obtain ⟨hcc, hp⟩ := hend hr hact
    exact ⟨hcc, fun e => hp (e ▸ .refl)⟩
  cases hst with
  | same hm hc => exact ⟨h.child.sameKin hm, hc ▸ h.terminating⟩
  | @api b fuel ha' hv hm hc hc' =>
      subst ha'
      refine ⟨h.child.api hs.mem hf.families hv ?_ hd hm, ?_⟩
      · by_contra hok
        exact ha (Or.inl ⟨b, rfl, hok⟩)
      · intro cur hcur
        rw [hc'] at hcur
        cases hcur
  | destruct hr ha' hm hc =>
      refine ⟨hkeeps hr ha' hm, ?_⟩
      intro cur hcur
      rw [hc] at hcur
      cases hcur
  | terminate hr ha' he hm hsame hc =>
      exact ⟨(hkeeps hr ha' hm).sameKin hsame, hother hr ha' hc⟩
  | destructed hr ha' hd' he hsame hc =>
      exact ⟨h.child.sameKin hsame, hother hr (Or.inr ha') hc⟩
  | @free cur hc hc' hcur hrec hlive hstale =>
      obtain ⟨hcc, hcp⟩ := h.terminating cur hc
      refine ⟨⟨(hlive p).2 ⟨h.child.parent_live, hcp.symm⟩, (hlive c).2 ⟨h.child.live, hcc.symm⟩,
        ?_, ?_⟩, ?_⟩
      · rw [Memory.relative, hrec]
        exact h.child.relative
      · rw [Memory.oldestChild, hrec]
        exact h.child.oldestChild
      · intro cur' hcur'
        rw [hc'] at hcur'
        cases hcur'

/-! ### The runs -/

/-- `c` is on the list from `oldest_child` of `p` along `parent_oldest_child`, exactly once, and
`new_process` is the inverse link. -/
def OnChildList (m : Memory) (p c : Ptr) : Prop :=
  ∃ l, DList 0 m.parentOldestChild m.newProcess (m.oldestChild p) l ∧ l.count c = 1

/-- What `KillChildProcess` leaves alone: the links between siblings, and the modes of the
killed. -/
theorem killChildLoop_keeps {fuel : ℕ} {m m' : Memory} {c : Ptr} :
    (killChildProcess fuel m c = .ok m' ∨ killChildLoop fuel m c = .ok m') →
    (∀ y, m'.parentOldestChild y = m.parentOldestChild y) ∧
      (∀ y, m'.newProcess y = m.newProcess y) ∧
      ∀ y, (m.record y).execMode = .dead → (m'.record y).execMode = .dead := by
  have key := killChild_rel (R := fun m m' =>
      (∀ y, m'.parentOldestChild y = m.parentOldestChild y) ∧
      (∀ y, m'.newProcess y = m.newProcess y) ∧
      ∀ y, (m.record y).execMode = .dead → (m'.record y).execMode = .dead)
    (fun _ => ⟨fun _ => rfl, fun _ => rfl, fun _ => id⟩)
    (fun _ _ _ h h' => ⟨fun y => (h'.1 y).trans (h.1 y), fun y => (h'.2.1 y).trans (h.2.1 y),
      fun y hy => h'.2.2 y (h.2.2 y hy)⟩) (fun m m' hw => ?_) fuel
  · rintro (h | h)
    · exact key.1 m c m' h
    · exact key.2 m c m' h
  · -- the three writes that `KillChildProcess` is made of
    cases hw with
    | follow p => exact ⟨fun _ => rfl, fun _ => rfl, fun _ => id⟩
    | kill p =>
        unfold setKillStatusProcessExport wakeupProcess Memory.parentOldestChild Memory.newProcess
        refine ⟨?_, ?_, ?_⟩
        · intro y
          split_ifs <;> simp
        · intro y
          split_ifs <;> simp
        · intro y hy
          split_ifs <;> simp [hy]
    | clear p =>
        refine ⟨fun y => ?_, fun y => ?_, fun y hy => ?_⟩ <;>
          simp [Memory.parentOldestChild, Memory.newProcess]
        exact hy

/-- The loop of `KillChildProcess` kills every child of the list it walks. -/
theorem killChildLoop_dead {l : List Ptr} : ∀ {fuel : ℕ} {m m' : Memory} {prev : Ptr},
    DoublyLinked.Linked m.parentOldestChild m.newProcess prev 0 l → 0 ∉ l →
    killChildLoop fuel m (l.headD 0) = .ok m' → ∀ k ∈ l, (m'.record k).execMode = .dead := by
  induction l with
  | nil => exact fun _ _ _ k hk => by cases hk
  | cons c l ih =>
      intro fuel m m' prev hlinked h0 h
      have hc0 : c ≠ 0 := fun e => h0 (by simp [e])
      cases fuel with
      | zero => cases h
      | succ fuel =>
          rw [List.headD_cons, killChildLoop, if_neg hc0] at h
          obtain ⟨m₁, h₁, h₂⟩ := bind_eq_ok.1 h
          -- the processes below the child
          have hbelow : (∀ y, m₁.parentOldestChild y = m.parentOldestChild y) ∧
              ∀ y, m₁.newProcess y = m.newProcess y := by
            split at h₁
            · have hk := killChildLoop_keeps (Or.inl h₁)
              exact ⟨hk.1, hk.2.1⟩
            · cases h₁
              exact ⟨fun _ => rfl, fun _ => rfl⟩
          -- the child itself
          have hkill := kin_setKillStatusProcessExport m₁ c
          have hpoc : ∀ y, (setKillStatusProcessExport m₁ c).1.parentOldestChild y =
              m.parentOldestChild y := fun y =>
            (congrArg Kin.parentOldestChild (hkill y)).trans (hbelow.1 y)
          have hnew : ∀ y, (setKillStatusProcessExport m₁ c).1.newProcess y = m.newProcess y :=
            fun y => (congrArg Kin.newProcess (hkill y)).trans (hbelow.2 y)
          -- the older children
          obtain ⟨-, hfc, hl⟩ := hlinked
          have hnext : ((setKillStatusProcessExport m₁ c).1.record c).parentOldestChild =
              l.headD 0 := (hpoc c).trans hfc
          dsimp only at h₂
          rw [hnext] at h₂
          intro k hk
          rcases List.mem_cons.1 hk with rfl | hk
          · exact (killChildLoop_keeps (Or.inr h₂)).2.2 _
              ((mode_setKillStatusProcessExport m₁ k k).trans (if_pos rfl))
          · exact ih (hl.congr (fun x _ => hpoc x) fun x _ => hnew x)
              (fun hm => h0 (List.mem_cons_of_mem _ hm)) h₂ k hk

/-- `KillChildProcess` kills a child on the list. -/
theorem OnChildList.killed {m m' : Memory} {p c : Ptr} (h : OnChildList m p c) {fuel : ℕ}
    (hr : killChildProcess fuel m p = .ok m') : (m'.record c).execMode = .dead := by
  obtain ⟨l, hl, hc⟩ := h
  have hcl : c ∈ l := List.count_pos_iff.1 (by rw [hc]; exact Nat.one_pos)
  cases fuel with
  | zero => cases hr
  | succ fuel =>
      rw [killChildProcess] at hr
      obtain ⟨m₁, h₁, h₂⟩ := bind_eq_ok.1 hr
      cases h₂
      have hhead : (m.record p).oldestChild = l.headD 0 := hl.head_eq
      rw [hhead] at h₁
      have := killChildLoop_dead hl.linked hl.null_notMem h₁ c hcl
      simpa using this

theorem ChildOf.onChildList {m : Memory} {p c : Ptr} (h : ChildOf m p c) (hf : Families m) :
    OnChildList m p c := by
  obtain ⟨l, hl, he, hc⟩ := h.family hf
  refine ⟨l, ?_, List.count_eq_one_of_mem hl.list.nodup hc⟩
  rw [he]
  exact hl.list

theorem ReachableUnder.familyInv {s : Sys} (h : ReachableUnder (fun s a => ¬ LosesChildren s a) s) :
    FamilyInv s := by
  refine h.invariant ?_ fun s a t hs hi ha hst => (hst.kin hs).familyInv hs hi ha
  intro s hs
  obtain ⟨record, rfl⟩ := hs
  refine ⟨⟨by simp [start], fun p _ => ⟨[], by simp [start], .nil .., by simp [start]⟩⟩,
    fun cur hcur => by cases hcur⟩

/-- The call that links a child makes it one. -/
theorem Families.childOf_of_links {fuel : ℕ} {m m' : Memory} {p c : Ptr} {b : Api}
    (h : Families m) (hv : b.valid m) (hok : b.linkOk m) (hl : b.links = some (p, c))
    (hr : b.run fuel m = .ok m') : ChildOf m' p c := by
  cases b with
  | createChildProcess =>
      cases hl
      obtain ⟨m₁, -, hm₁, hb, hroot, -, rfl⟩ := h.createChildProcess hv.1 hv.2 hok hr
      exact .of_linkChildProcess hm₁.null_notMem hroot hb
  | linkChildProcess =>
      cases hl
      cases hr
      exact .of_linkChildProcess h.null_notMem hv.1 hv.2
  | _ => cases hl

/-- **No child is lost**, in every run in which every child is linked to a parent that heads the
list of all its children, and no process is linked to a parent when its destructor returns: from the
step that links `c` to `p` on, as long as no step disturbs it, `c` is on the list of `p`, where
`WatchChildProcess` and `KillProcess` find it. -/
theorem child_kept_of_reachable {s₀ s₁ s₂ : Sys} {p c : Ptr} {b : Api}
    (h₀ : ReachableUnder (fun s a => ¬ LosesChildren s a) s₀) (hl : b.links = some (p, c))
    (hb : ¬ LosesChildren s₀ (.api b)) (h₁ : Step s₀ (.api b) s₁)
    (h₂ : RunsTo (fun s a => ¬ LosesChildren s a ∧ ¬ Disturbs p c s a) s₁ s₂) :
    OnChildList s₂.mem p c ∧ s₂.mem.oldestChild p ≠ 0 ∧
      ∀ fuel m, killChildProcess fuel s₂.mem p = .ok m → (m.record c).execMode = .dead := by
  have hreach := h₀.step (.api b) hb h₁
  have hchild : ChildInv p c s₁ := by
    cases step_cases h₀.sysInv h₁ with
    | api hc hv hm =>
        refine ⟨h₀.familyInv.families.childOf_of_links hv ?_ hl hm, ?_⟩
        · by_contra hok
          exact hb (Or.inl ⟨b, rfl, hok⟩)
        · intro cur hcur
          rw [Sys.mayCall_terminating hc] at hcur
          cases hcur
    | destruct _ ha => rcases ha.act with ha | ha <;> cases ha
    | terminate _ ha => rcases ha.act with ha | ha <;> cases ha
  have hinv : ReachableUnder (fun s a => ¬ LosesChildren s a) s₂ ∧ ChildInv p c s₂ := by
    refine h₂.invariant (I := fun s => ReachableUnder (fun s a => ¬ LosesChildren s a) s ∧
      ChildInv p c s) ?_ ⟨hreach, hchild⟩
    intro s a t hs ha hst
    exact ⟨hs.1.step a ha.1 hst, ((step_cases hs.1.sysInv hst).kin hs.1.sysInv).childInv
      hs.1.sysInv hs.1.familyInv hs.2 ha.1 ha.2⟩
  have hlist := hinv.2.child.onChildList hinv.1.familyInv.families
  exact ⟨hlist, hinv.2.child.oldestChild, fun _ _ => hlist.killed⟩

/-- A process without a parent has no ancestor but itself. -/
theorem Ancestor.eq_of_null {m : Memory} {p q : Ptr} (h : Ancestor m p q) (hp : m.relative p = 0) :
    q = p := by
  rcases Relation.ReflTransGen.cases_head h with rfl | ⟨x, ⟨-, hr, hx⟩, -⟩
  · rfl
  · exact absurd (hr.symm.trans hp) hx

/-- A parent with a child of a higher priority. -/
def oneChild : List Act :=
  [.api (.createProcess ⟨0x80001000, 0x80001010, 0x80001100⟩ (.game 1) 5 0),
    .api (.createChildProcess ⟨0x80002000, 0x80002010, 0x80002100⟩ (.game 2) 9 0 0x80001010)]

/-- The same, when the parent has killed the child. -/
def killedChild : List Act := oneChild ++ [.api (.killChildProcess 0x80001010)]

/-- The creation of a second child. -/
def secondChild : Act :=
  .api (.createChildProcess ⟨0x80003000, 0x80003010, 0x80003100⟩ (.game 2) 3 0 0x80001010)

/-- The end of the first child. -/
def firstEnds : List Act := [.callProcess 1, .tick, .endProcess]

/-- A step of `firstEnds`: the running process is neither the parent nor the second child. -/
def endsAnother (s : Sys) (a : Act) : Bool :=
  match a with
  | .callProcess _ | .tick => true
  | .endProcess => s.mem.currentProcess ≠ 0x80003010 ∧ s.mem.currentProcess ≠ 0x80001010 ∧
      s.mem.relative 0x80001010 = 0
  | _ => false

theorem not_disturbs_of_endsAnother {s : Sys} {a : Act} (h : endsAnother s a = true) :
    ¬ Disturbs 0x80001010 0x80003010 s a := by
  cases a with
  | callProcess => exact id
  | tick => exact id
  | endProcess =>
      simp only [endsAnother, decide_eq_true_eq] at h
      rintro (hc | ha)
      · exact h.1 hc
      · exact h.2.1 (ha.eq_of_null h.2.2)
  | _ => cases h

theorem not_losesChildren_of_endsAnother {s : Sys} {a : Act} (h : endsAnother s a = true) :
    ¬ LosesChildren s a := by
  rintro (⟨b, rfl, -⟩ | ⟨-, -, rfl, -⟩) <;> cases h

/-- A step of `oneChild`: a parent has no child yet. -/
def createsFirst (s : Sys) : Act → Bool
  | .api (.createProcess _ _ _ _) => true
  | .api (.createChildProcess _ _ _ _ root) =>
      s.mem.live.all fun k => decide (s.mem.relative k ≠ root)
  | _ => false

theorem not_losesChildren_of_createsFirst {s : Sys} {a : Act} (h : createsFirst s a = true) :
    ¬ LosesChildren s a := by
  rintro (⟨b, rfl, hb⟩ | ⟨-, -, rfl, -⟩)
  · cases b with
    | createProcess => exact hb trivial
    | createChildProcess => exact hb (Or.inr (by simpa [createsFirst] using h))
    | _ => cases h
  · cases h

theorem child_kept_of_reachable_secondChild :
    (stateAfter (oneChild ++ [secondChild] ++ firstEnds)).mem.relative 0x80003010 = 0x80001010 ∧
      OnChildList (stateAfter (oneChild ++ [secondChild] ++ firstEnds)).mem
        0x80001010 0x80003010 := by
  have h₀ : ReachableUnder (fun s a => ¬ LosesChildren s a) (stateAfter oneChild) := by
    exact reachableUnder_stateAfter createsFirst (fun _ _ => not_losesChildren_of_createsFirst)
      (by decide +kernel)
  have hb : ¬ LosesChildren (stateAfter oneChild) secondChild := by
    rintro (⟨b, e, hb⟩ | ⟨-, -, e, -⟩)
    · cases e
      exact hb (Or.inl (by decide +kernel))
    · cases e
  have h₂ : RunsTo (fun s a => ¬ LosesChildren s a ∧ ¬ Disturbs 0x80001010 0x80003010 s a)
      (stateAfter (oneChild ++ [secondChild]))
      (stateAfter (oneChild ++ [secondChild] ++ firstEnds)) :=
    runsTo_stateAfter endsAnother
      (fun _ _ h => ⟨not_losesChildren_of_endsAnother h, not_disturbs_of_endsAnother h⟩)
      (by decide +kernel) (by decide +kernel)
  exact ⟨by decide +kernel,
    (child_kept_of_reachable h₀ rfl hb (step_stateAfter (by decide +kernel)) h₂).1⟩

/-- The first child is killed before the second one is created, and ends after. -/
theorem child_lost_by_killedSibling :
    Reachable (stateAfter killedChild) ∧
      Step (stateAfter killedChild) secondChild (stateAfter (killedChild ++ [secondChild])) ∧
      RunsTo (fun s a => ¬ Disturbs 0x80001010 0x80003010 s a)
        (stateAfter (killedChild ++ [secondChild]))
        (stateAfter (killedChild ++ [secondChild] ++ firstEnds)) ∧
      ¬ OnChildList (stateAfter (killedChild ++ [secondChild] ++ firstEnds)).mem
        0x80001010 0x80003010 := by
  refine ⟨reachable_stateAfter _, step_stateAfter (by decide +kernel),
    runsTo_stateAfter endsAnother (fun _ _ => not_disturbs_of_endsAnother) (by decide +kernel)
      (by decide +kernel), ?_⟩
  rintro ⟨l, hl, hc⟩
  have hnil : l = [] := hl.head_eq_null_iff.1 (by decide +kernel)
  rw [hnil] at hc
  cases hc

end Sched
