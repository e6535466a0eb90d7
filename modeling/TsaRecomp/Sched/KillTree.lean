/-
**Killing a subtree.**

`KillProcess` clears the child lists of everything below a process while its recursion unwinds, and
takes the process itself off the list of its parent.  `KillPrioProcess` does so for each process in
a range of priorities, in the order of the run list, and so meets children that it has killed before
and whose links to their parents are still in place.  What carries both through is that a parent
either heads the list of all its children or has nothing but killed processes below it.

Main definitions:

* `Sched.Children`, `Sched.Forest` — the child lists of a state in which they are complete;
* `Sched.Descendant` — the descendants of a process;
* `Sched.Covered` — **the invariant**: a list is complete, or everything below is marked;
* `Sched.Sweeps` — the effect of killing a set of processes.

Main results:

* `Sched.killChildProcess_ends` — `KillChildProcess` returns, and has marked what is below;
* `Sched.killProcess_subtree` — **`KillProcess` kills exactly the subtree**;
* `Sched.killPrioProcess_closure` — **`KillPrioProcess` kills the downward closure**.
-/

import TsaRecomp.Lib.Forests
import TsaRecomp.Sched.Families

set_option relaxedAutoImplicit false
set_option autoImplicit false

namespace Sched

open DoublyLinked (DList Linked)
open Relation (TransGen ReflTransGen)

/-! ### Forests -/

/-- `l` is the list of the children of `p`, newest first: those with `relative` on `p`, from
`oldest_child` along `parent_oldest_child`, with `new_process` leading back. -/
structure Children (m : Memory) (p : Ptr) (l : List Ptr) : Prop where
  mem_iff : ∀ k, k ∈ l ↔ k ∈ m.live ∧ m.relative k = p
  list : DList 0 m.parentOldestChild m.newProcess (m.oldestChild p) l

/-- `q` is a descendant of `p`. -/
def Descendant (m : Memory) : Ptr → Ptr → Prop := TransGen m.IsParent

/-- **The child links form a forest.** -/
structure Forest (m : Memory) : Prop where
  null_notMem : 0 ∉ m.live
  /-- A parent is allocated. -/
  parent_live : ∀ c ∈ m.live, m.relative c ≠ 0 → m.relative c ∈ m.live
  /-- Every process heads the list of its children. -/
  children : ∀ p ∈ m.live, ∃ l, Children m p l
  /-- No process is a descendant of its own. -/
  acyclic : ∀ p, ¬ Descendant m p p

variable {m m' m'' : Memory} {p q c : Ptr} {l : List Ptr}

theorem Children.family (h : Children m p l) : Family m p l :=
  ⟨h.mem_iff, h.list.head_eq ▸ h.list, fun _ => Or.inl h.list.head_eq⟩

theorem Family.children (h : Family m p l) (hp : p ∈ m.live) (ha : Attached m p) :
    Children m p l := by
  refine ⟨h.mem_iff, ?_⟩
  rw [(h.attached_iff hp).1 ha]
  exact h.list

theorem Children.attached (h : Children m p l) (hp : p ∈ m.live) : Attached m p :=
  (h.family.attached_iff hp).2 h.list.head_eq

theorem descendant_iff : Descendant m q p ↔ ∃ k, m.IsParent k p ∧ Ancestor m q k := by
  rw [Descendant, Relation.TransGen.tail'_iff]
  exact exists_congr fun k => and_comm

theorem ancestor_iff : Ancestor m q p ↔ Descendant m q p ∨ q = p := by
  rw [Ancestor, Relation.reflTransGen_iff_eq_or_transGen, Descendant, or_comm, eq_comm]

/-- A descendant is a descendant of a child on the list. -/
theorem Family.descendant_iff (h : Family m p l) (hp : p ≠ 0) :
    Descendant m q p ↔ ∃ k ∈ l, Ancestor m q k := by
  rw [Sched.descendant_iff]
  refine exists_congr fun k => and_congr_left fun _ => ?_
  rw [h.mem_iff]
  exact ⟨fun hk => ⟨hk.1, hk.2.1⟩, fun hk => ⟨hk.1, hk.2, hp⟩⟩

namespace Forest

theorem attached (h : Forest m) (hp : p ∈ m.live) : Attached m p := by
  obtain ⟨l, hl⟩ := h.children p hp
  exact hl.attached hp

theorem families (h : Forest m) : Families m := by
  refine ⟨h.null_notMem, fun p hp => ?_⟩
  by_cases hpl : p ∈ m.live
  · obtain ⟨l, hl⟩ := h.children p hpl
    exact ⟨l, hl.family⟩
  · -- nothing that is not allocated has children
    refine ⟨[], ?_, .nil .., fun hp' => absurd hp' hpl⟩
    intro k
    refine iff_of_false (by simp) ?_
    rintro ⟨hk, rfl⟩
    exact hpl (h.parent_live k hk hp)

/-- The induction from the children to the parents. -/
theorem wellFounded (h : Forest m) : WellFounded m.IsParent := by
  refine Forests.wellFounded_of_acyclic (List.finite_toSet m.live) ?_ h.acyclic
  intro a b hab
  obtain ⟨ha, rfl, hb⟩ := hab
  exact ⟨ha, h.parent_live a ha hb⟩

end Forest

theorem Families.forest (h : Families m) (ha : ∀ p ∈ m.live, Attached m p)
    (hparent : ∀ c ∈ m.live, m.relative c ≠ 0 → m.relative c ∈ m.live)
    (hacyclic : ∀ p, ¬ Descendant m p p) : Forest m := by
  refine ⟨h.null_notMem, hparent, fun p hp => ?_, hacyclic⟩
  obtain ⟨l, hl⟩ := h.family p fun e => h.null_notMem (e ▸ hp)
  exact ⟨l, hl.children hp (ha p hp)⟩

/-! ### Marks -/

/-- A mark of the killed processes. -/
structure KillMark (D : Process → Prop) : Prop where
  of : ∀ r, r.execMode = .dead → r.oldestChild = 0 → D r
  mono : ∀ r r', D r → (r.execMode = .dead → r'.execMode = .dead) →
    (r'.oldestChild = r.oldestChild ∨ r'.oldestChild = 0) → D r'

/-- `exec_mode` is `EXEC_PROCESS_DEAD`. -/
def Process.isDead (r : Process) : Prop := r.execMode = .dead

/-- The same, and there is no child. -/
def Process.isCleared (r : Process) : Prop := r.execMode = .dead ∧ r.oldestChild = 0

theorem isDead_killMark : KillMark Process.isDead :=
  ⟨fun _ h _ => h, fun _ _ h hd _ => hd h⟩

theorem isCleared_killMark : KillMark Process.isCleared := by
  refine ⟨fun _ h h0 => ⟨h, h0⟩, fun r r' h hd ho => ⟨hd h.1, ?_⟩⟩
  rcases ho with ho | ho
  · exact ho.trans h.2
  · exact ho

/-- **The invariant**: a process heads the list of all its children, or everything below it is
marked. -/
def Covered (D : Process → Prop) (m : Memory) : Prop :=
  ∀ p ∈ m.live, Attached m p ∨ ∀ y, Descendant m y p → D (m.record y)

/-- The effect of killing the processes in `K`: they are marked, and the others keep their modes.  A
list that is cleared has nothing but `K` below it. -/
structure Sweeps (D : Process → Prop) (K : Ptr → Prop) (m m' : Memory) : Prop where
  marked : ∀ y, K y → D (m'.record y)
  kept : ∀ y, D (m.record y) → D (m'.record y)
  execMode : ∀ y, ¬ K y → (m'.record y).execMode = (m.record y).execMode
  sleepTime : ∀ y, ¬ K y → (m'.record y).sleepTime = (m.record y).sleepTime
  oldestChild : ∀ y, m'.oldestChild y = m.oldestChild y ∨
    m'.oldestChild y = 0 ∧ ∀ z, Descendant m z y → K z

variable {D : Process → Prop} {K K' : Ptr → Prop}

theorem Killed.descendant_iff {x y : Ptr} (h : Killed m q m') :
    Descendant m' x y ↔ Descendant m x y := by
  have : m'.IsParent = m.IsParent := by
    funext x y
    rw [Memory.IsParent, Memory.IsParent, h.relative, h.live]
  rw [Descendant, Descendant, this]

namespace Sweeps

theorem refl (D : Process → Prop) (m : Memory) : Sweeps D (fun _ => False) m m :=
  ⟨fun _ => False.elim, fun _ => id, fun _ _ => rfl, fun _ _ => rfl, fun _ => Or.inl rfl⟩

theorem congr (h : Sweeps D K m m') (hK : ∀ y, K y ↔ K' y) : Sweeps D K' m m' := by
  obtain rfl : K = K' := funext fun y => propext (hK y)
  exact h

theorem trans (h : Sweeps D K m m') (h' : Sweeps D K' m' m'')
    (hdesc : ∀ x y, Descendant m' x y ↔ Descendant m x y) :
    Sweeps D (fun y => K y ∨ K' y) m m'' := by
  refine ⟨?_, fun y hy => h'.kept y (h.kept y hy), ?_, ?_, ?_⟩
  · rintro y (hy | hy)
    · exact h'.kept y (h.marked y hy)
    · exact h'.marked y hy
  · intro y hy
    exact (h'.execMode y fun hk => hy (Or.inr hk)).trans (h.execMode y fun hk => hy (Or.inl hk))
  · intro y hy
    exact (h'.sleepTime y fun hk => hy (Or.inr hk)).trans (h.sleepTime y fun hk => hy (Or.inl hk))
  · intro y
    rcases h'.oldestChild y with he | ⟨h0, hz⟩
    · rw [he]
      exact (h.oldestChild y).imp id fun ⟨h0, hz⟩ => ⟨h0, fun z hzy => Or.inl (hz z hzy)⟩
    · exact Or.inr ⟨h0, fun z hzy => Or.inr (hz z ((hdesc z y).2 hzy))⟩

end Sweeps

/-- Killing keeps the invariant. -/
theorem Covered.sweeps (h : Covered D m) (hk : Killed m q m') (hs : Sweeps D K m m') :
    Covered D m' := by
  intro p hp
  rw [hk.live] at hp
  have hswept : (∀ y, Descendant m y p → D (m'.record y)) →
      ∀ y, Descendant m' y p → D (m'.record y) :=
    fun hD y hy => hD y (hk.descendant_iff.1 hy)
  rcases h p hp with ha | hD
  · rcases hs.oldestChild p with he | ⟨-, hK⟩
    · refine Or.inl (ha.imp (fun h0 => he ▸ h0) fun hn k hkl => ?_)
      rw [hk.live] at hkl
      rw [hk.relative]
      exact hn k hkl
    · exact Or.inr (hswept fun y hy => hs.marked y (hK y hy))
  · exact Or.inr (hswept fun y hy => hs.kept y (hD y hy))

theorem Forest.covered (h : Forest m) (D : Process → Prop) : Covered D m :=
  fun _ hp => Or.inl (h.attached hp)

/-! ### `KillChildProcess` -/

/-- Killing a process without children. -/
theorem sweeps_setKillStatusProcessExport (hD : KillMark D) (m : Memory) (hp : m.oldestChild p = 0) :
    Sweeps D (· = p) m (setKillStatusProcessExport m p).1 := by
  have hkin := fun y => congrArg Kin.oldestChild (kin_setKillStatusProcessExport m p y)
  have hmode : ∀ y, ((setKillStatusProcessExport m p).1.record y).execMode =
      if y = p then .dead else (m.record y).execMode := mode_setKillStatusProcessExport m p
  refine ⟨?_, ?_, fun y hy => ?_, fun y hy => sleepTime_setKillStatusProcessExport m hy,
    fun y => Or.inl (hkin y)⟩
  · rintro y rfl
    exact hD.of _ ((hmode y).trans (if_pos rfl)) ((hkin y).trans hp)
  · refine fun y hy => hD.mono _ _ hy (fun hd => ?_) (Or.inl (hkin y))
    rw [hmode]
    split_ifs
    · rfl
    · exact hd
  · exact (hmode y).trans (if_neg hy)

/-- Clearing the list of a process whose descendants are killed. -/
theorem Sweeps.setOldestChild (hD : KillMark D) (h : Sweeps D (Descendant m · q) m m') :
    Sweeps D (Descendant m · q) m (m'.setOldestChild q 0) := by
  have hold : ∀ y, ((m'.setOldestChild q 0).record y).oldestChild = m'.oldestChild y ∨
      ((m'.setOldestChild q 0).record y).oldestChild = 0 := by
    intro y
    by_cases hy : y = q
    · exact Or.inr (by simp [hy])
    · exact Or.inl (by simp [hy, Memory.oldestChild])
  have hmode : ∀ y, ((m'.setOldestChild q 0).record y).execMode = (m'.record y).execMode := by
    intro y
    simp
  have hkeep : ∀ y, D (m'.record y) → D ((m'.setOldestChild q 0).record y) := fun y hy =>
    hD.mono _ _ hy (fun hd => (hmode y).trans hd) (hold y)
  refine ⟨fun y hy => hkeep y (h.marked y hy), fun y hy => hkeep y (h.kept y hy),
    fun y hy => (hmode y).trans (h.execMode y hy), fun y hy => ?_, fun y => ?_⟩
  · rw [← h.sleepTime y hy]
    simp
  · by_cases hy : y = q
    · subst hy
      exact Or.inr ⟨by simp [Memory.oldestChild], fun z hz => hz⟩
    · have he : (m'.setOldestChild q 0).oldestChild y = m'.oldestChild y := by
        simp [hy, Memory.oldestChild]
      rw [he]
      exact h.oldestChild y

/-- **`KillChildProcess(q)` returns**, and has marked what is below `q`. -/
def KillsBelow (D : Process → Prop) (m : Memory) (q : Ptr) : Prop :=
  ∃ n m', (∀ fuel, n ≤ fuel → killChildProcess fuel m q = .ok m') ∧ Killed m q m' ∧
    m'.oldestChild q = 0 ∧ Sweeps D (Descendant m · q) m m'

/-- The call for the children of a child, which is only made when it has some. -/
theorem Covered.killsBelow {c : Ptr} (hcov : Covered D m) (hc : c ∈ m.live)
    (h : m.oldestChild c ≠ 0 → KillsBelow D m c) :
    ∃ n m₁, (∀ fuel, n ≤ fuel →
        (if (m.record c).oldestChild ≠ 0 then killChildProcess fuel m c else .ok m) = .ok m₁) ∧
      Killed m c m₁ ∧ m₁.oldestChild c = 0 ∧ Sweeps D (Descendant m · c) m m₁ := by
  by_cases hoc : m.oldestChild c = 0
  · refine ⟨0, m, fun _ _ => if_neg fun h => h hoc, .refl m c, hoc, ?_⟩
    refine ⟨fun y hy => ?_, fun _ => id, fun _ _ => rfl, fun _ _ => rfl, fun _ => Or.inl rfl⟩
    rcases hcov c hc with (h0 | hn) | hswept
    · exact absurd hoc h0
    · obtain ⟨k, hk, -⟩ := descendant_iff.1 hy
      exact absurd hk.2.1 (hn k hk.1)
    · exact hswept y hy
  · obtain ⟨n, m₁, h₁, hrest⟩ := h hoc
    exact ⟨n, m₁, fun fuel hfuel => (if_pos hoc).trans (h₁ fuel hfuel), hrest⟩

/-- The loop over the children of `q`, from those in `l` on. -/
theorem killChildLoop_ends (hD : KillMark D) {m₀ : Memory} (hq : q ≠ 0)
    (ih : ∀ c, m₀.IsParent c q → ∀ m, m.IsParent = m₀.IsParent → Families m → Covered D m →
      KillsBelow D m c) :
    ∀ {l : List Ptr} {m : Memory} {prev : Ptr}, m.IsParent = m₀.IsParent → Families m →
      Covered D m → Linked m.parentOldestChild m.newProcess prev 0 l →
      (∀ k ∈ l, k ∈ m.live ∧ m.relative k = q) →
      ∃ n m', (∀ fuel, n ≤ fuel → killChildLoop fuel m (l.headD 0) = .ok m') ∧ Killed m q m' ∧
        Sweeps D (fun y => ∃ k ∈ l, Ancestor m y k) m m' := by
  intro l
  induction l with
  | nil =>
      intro m _ _ _ _ _ _
      refine ⟨1, m, ?_, .refl m q, (Sweeps.refl D m).congr (by simp)⟩
      intro fuel hfuel
      obtain ⟨fuel, rfl⟩ := Nat.exists_eq_add_of_le' hfuel
      rfl
  | cons c l ihl =>
      intro m prev hpar hf hcov hlinked hmem
      obtain ⟨hcl, hcq⟩ := hmem c List.mem_cons_self
      have hc0 : c ≠ 0 := fun e => hf.null_notMem (e ▸ hcl)
      have hparent : m.IsParent c q := ⟨hcl, hcq, hq⟩
      -- the processes below the child
      obtain ⟨n₁, m₁, h₁, hk₁, ho₁, hs₁⟩ :=
        hcov.killsBelow hcl fun _ => ih c (hpar ▸ hparent) m hpar hf hcov
      -- the child itself
      have hk₂ := hk₁.trans (setKillStatusProcessExport_killed m₁ c c)
      have hs₂ := hs₁.trans (sweeps_setKillStatusProcessExport hD m₁ ho₁)
        fun _ _ => hk₁.descendant_iff
      have hpoc₂ := hk₂.parentOldestChild
      generalize hm₂ : (setKillStatusProcessExport m₁ c).1 = m₂ at *
      -- the older children
      obtain ⟨-, hfc, hl⟩ := hlinked
      have hpar₂ : m₂.IsParent = m₀.IsParent := by
        rw [← hpar]
        funext x y
        rw [Memory.IsParent, Memory.IsParent, hk₂.relative, hk₂.live]
      obtain ⟨n₂, m', h₃, hk₃, hs₃⟩ := ihl hpar₂ (hf.killed hk₂) (hcov.sweeps hk₂ hs₂)
        (hl.congr (fun x _ => hpoc₂ x) fun x _ => hk₂.newProcess x) (fun k hk => by
          rw [hk₂.live, hk₂.relative]
          exact hmem k (List.mem_cons_of_mem _ hk))
      refine ⟨max n₁ n₂ + 1, m', ?_, (hk₂.of_child hparent).trans hk₃, ?_⟩
      · intro fuel hfuel
        obtain ⟨k, rfl⟩ : ∃ k, fuel = k + 1 := ⟨fuel - 1, by omega⟩
        have hfollow : m.follow c = m := by simp [Memory.follow, hcl]
        rw [List.headD_cons, killChildLoop, if_neg hc0, hfollow]
        refine bind_eq_ok.2 ⟨m₁, h₁ k (by omega), ?_⟩
        have hnext : (m₂.record c).parentOldestChild = l.headD 0 := (hpoc₂ c).trans hfc
        rw [hm₂]
        dsimp only
        rw [hnext]
        exact h₃ k (by omega)
      · refine (hs₂.trans hs₃ fun _ _ => hk₂.descendant_iff).congr fun y => ?_
        simp only [List.mem_cons, exists_eq_or_imp, hk₂.ancestor_iff, ← ancestor_iff]

/-- Whatever is covered can be killed. -/
theorem killChildProcess_ends (hD : KillMark D) {m₀ : Memory} (hwf : WellFounded m₀.IsParent) :
    ∀ q m, m.IsParent = m₀.IsParent → Families m → Covered D m → q ∈ m.live →
      KillsBelow D m q := by
  intro q
  induction q using hwf.induction with
  | _ q ih =>
      intro m hpar hf hcov hq
      have hq0 : q ≠ 0 := fun e => hf.null_notMem (e ▸ hq)
      -- the loop, from the newest child or from null
      obtain ⟨n, m₁, h₁, hk₁, hs₁⟩ : ∃ n m₁, (∀ fuel, n ≤ fuel →
          killChildLoop fuel m (m.oldestChild q) = .ok m₁) ∧ Killed m q m₁ ∧
          Sweeps D (Descendant m · q) m m₁ := by
        obtain ⟨l, hl⟩ := hf.family q hq0
        by_cases ha : Attached m q
        · obtain ⟨n, m₁, h₁, hk₁, hs₁⟩ := killChildLoop_ends hD hq0
            (fun c hc m hpar hf hcov => ih c hc m hpar hf hcov (by
              rw [← hpar] at hc
              exact hc.1)) hpar hf hcov hl.list.linked fun k hk => (hl.mem_iff k).1 hk
          rw [← (hl.attached_iff hq).1 ha] at h₁
          exact ⟨n, m₁, h₁, hk₁, hs₁.congr fun y => (hl.descendant_iff hq0).symm⟩
        · have h0 : m.oldestChild q = 0 := by
            by_contra h0
            exact ha (Or.inl h0)
          refine ⟨1, m, fun fuel hfuel => ?_, .refl m q, fun y hy => ?_, fun _ => id,
            fun _ _ => rfl, fun _ _ => rfl, fun _ => Or.inl rfl⟩
          · obtain ⟨k, rfl⟩ : ∃ k, fuel = k + 1 := ⟨fuel - 1, by omega⟩
            rw [killChildLoop, if_pos h0]
          · exact (hcov q hq).resolve_left ha y hy
      have hend : ∀ fuel, n + 1 ≤ fuel →
          killChildProcess fuel m q = .ok (m₁.setOldestChild q 0) := by
        intro fuel hfuel
        obtain ⟨k, rfl⟩ : ∃ k, fuel = k + 1 := ⟨fuel - 1, by omega⟩
        rw [killChildProcess]
        exact bind_eq_ok.2 ⟨m₁, h₁ k (by omega), rfl⟩
      refine ⟨n + 1, _, hend, ?_, by simp [Memory.oldestChild], hs₁.setOldestChild hD⟩
      exact (killChild_killed (n + 1)).1 m q _ hf.kinLinks hq (hend _ le_rfl)

/-! ### `KillProcess` -/

/-- The effect of `KillProcess(p)` in a forest. -/
structure KillsSubtree (m : Memory) (p : Ptr) (m' : Memory) : Prop where
  /-- `p` and its descendants are dead, and have no children. -/
  killed : ∀ q, Ancestor m q p → (m'.record q).execMode = .dead ∧ m'.oldestChild q = 0
  /-- `p` is off the list of its parent, and its siblings are in the same order. -/
  relative : m'.relative p = 0
  siblings : m.relative p ≠ 0 → ∃ l₁ l₂, Children m (m.relative p) (l₁ ++ p :: l₂) ∧
    Children m' (m.relative p) (l₁ ++ l₂)
  /-- The other processes keep their modes ... -/
  execMode : ∀ q, ¬ Ancestor m q p → (m'.record q).execMode = (m.record q).execMode
  sleepTime : ∀ q, ¬ Ancestor m q p → (m'.record q).sleepTime = (m.record q).sleepTime
  /-- ... and their children in the same order, but for `p`. -/
  children : ∀ q ∈ m.live, ¬ Ancestor m q p → ∀ l, Children m q l → Children m' q (l.erase p)

/-- Unlinking a process takes it off the list of its parent, and leaves the other lists alone. -/
theorem Children.unlink (hf : Families m) (h : Children m q l) (hq : q ∈ m.live) (hc : c ∈ m.live) :
    Children (unlinkChildProcess m c) q (l.erase c) := by
  have hq0 : q ≠ 0 := fun e => hf.null_notMem (e ▸ hq)
  by_cases hr : m.relative c = 0
  · have hcl : c ∉ l := fun hm => hq0 (((h.mem_iff c).1 hm).2.symm.trans hr)
    rwa [unlinkChildProcess_of_null hr, List.erase_of_not_mem hcl]
  · have ha := (h.attached hq).linkOk c
    refine (hf.unlinkChildProcess_family hc hr hq0 h.family).1.children ?_
      (hf.attached_unlinkChildProcess hq hc ha)
    rwa [live_unlinkChildProcess]

/-- A change of the modes leaves the lists alone. -/
theorem Children.of_kin (h : Children m p l) (hlive : m'.live = m.live)
    (hk : ∀ y, (m'.record y).kin = (m.record y).kin) : Children m' p l := by
  refine ⟨fun k => ?_, ?_⟩
  · rw [h.mem_iff, hlive, show m'.relative k = m.relative k from congrArg Kin.relative (hk k)]
  · rw [show m'.oldestChild p = m.oldestChild p from congrArg Kin.oldestChild (hk p)]
    exact h.list.congr (fun k _ => congrArg Kin.parentOldestChild (hk k))
      fun k _ => congrArg Kin.newProcess (hk k)

/-- A killing that does not clear the list of `p` leaves it alone. -/
theorem Children.killed (h : Children m p l) (hk : Killed m q m')
    (hp : ¬ Ancestor m p q) : Children m' p l := by
  refine ⟨fun k => ?_, ?_⟩
  · rw [h.mem_iff, hk.live, hk.relative]
  · rw [(hk.oldestChild p).resolve_right fun he => hp he.2]
    exact h.list.congr (fun k _ => hk.parentOldestChild k) fun k _ => hk.newProcess k

/-- `KillProcess` writes one mode behind `KillChildProcess`. -/
theorem execMode_killUnlinked (m : Memory) (p q : Ptr) :
    ((setKillStatusProcessExport (unlinkChildProcess m p) p).1.record q).execMode =
      if q = p then .dead else (m.record q).execMode :=
  (mode_setKillStatusProcessExport _ p q).trans (by rw [mode_unlinkChildProcess])

/-- Only the parent of a process can lose its oldest child when the process is unlinked. -/
theorem oldestChild_unlinkChildProcess_of_ne (h : m.relative c ≠ 0 → q ≠ m.relative c) :
    (unlinkChildProcess m c).oldestChild q = m.oldestChild q := by
  by_cases hr : m.relative c = 0
  · rw [unlinkChildProcess_of_null hr]
  · rw [oldestChild_unlinkChildProcess q hr, if_neg fun e => h hr e.2]

/-- `KillProcess` in a state that is covered. -/
theorem killProcess_ends (hD : KillMark D) {m₀ : Memory} (hwf : WellFounded m₀.IsParent)
    (hpar : m.IsParent = m₀.IsParent) (hf : Families m) (hcov : Covered D m) (hp : p ∈ m.live) :
    ∃ n m₁, (∀ fuel, n ≤ fuel → killProcess fuel m p =
        .ok (setKillStatusProcessExport (unlinkChildProcess m₁ p) p).1) ∧ Killed m p m₁ ∧
      m₁.oldestChild p = 0 ∧ Sweeps D (Descendant m · p) m m₁ := by
  obtain ⟨n, m₁, h, hrest⟩ := killChildProcess_ends hD hwf p m hpar hf hcov hp
  refine ⟨n, m₁, fun fuel hfuel => ?_, hrest⟩
  rw [killProcess]
  exact bind_eq_ok.2 ⟨m₁, h fuel hfuel, rfl⟩

/-- **`KillProcess` kills exactly the subtree.** -/
theorem killProcess_subtree (hf : Forest m) (hp : p ∈ m.live) :
    ∃ n m', (∀ fuel, n ≤ fuel → killProcess fuel m p = .ok m') ∧ KillsSubtree m p m' := by
  obtain ⟨n, m₁, hend, hk, ho, hs⟩ := killProcess_ends isCleared_killMark hf.wellFounded rfl
    hf.families (hf.covered _) hp
  refine ⟨n, _, hend, ?_⟩
  have hmode := execMode_killUnlinked m₁ p
  have hkin := kin_setKillStatusProcessExport (unlinkChildProcess m₁ p) p
  have hlive := (setKillStatusProcessExport_sameKin (unlinkChildProcess m₁ p) p).live
  have hsleep := fun q (hq : q ≠ p) =>
    sleepTime_setKillStatusProcessExport (unlinkChildProcess m₁ p) hq
  generalize (setKillStatusProcessExport (unlinkChildProcess m₁ p) p).1 = m' at *
  -- the parent of `p` is not below `p`
  have hparent : m.relative p ≠ 0 → ¬ Ancestor m (m.relative p) p := fun h0 hq =>
    hf.acyclic p (.head' ⟨hp, rfl, h0⟩ hq)
  have hchildren : ∀ q ∈ m.live, ¬ Ancestor m q p → ∀ l, Children m q l →
      Children m' q (l.erase p) := by
    intro q hq hqp l hl
    have hl₁ := (hl.killed hk hqp).unlink (hf.families.killed hk) (hk.live ▸ hq) (hk.live ▸ hp)
    exact hl₁.of_kin hlive hkin
  refine ⟨fun q hq => ⟨?_, ?_⟩, ?_, fun h0 => ?_, fun q hq => ?_, fun q hq => ?_, hchildren⟩
  · rw [hmode]
    split_ifs with he
    · rfl
    · exact (hs.marked q ((ancestor_iff.1 hq).resolve_right he)).1
  · have hne : m₁.relative p ≠ 0 → q ≠ m₁.relative p := by
      rw [hk.relative]
      rintro h0 rfl
      exact hparent h0 hq
    refine (congrArg Kin.oldestChild (hkin q)).trans
      ((oldestChild_unlinkChildProcess_of_ne hne).trans ?_)
    rcases ancestor_iff.1 hq with hq | rfl
    · exact (hs.marked q hq).2
    · exact ho
  · refine (congrArg Kin.relative (hkin p)).trans ?_
    exact (relative_unlinkChildProcess m₁ p p).trans (if_pos rfl)
  · have hparent_live := hf.parent_live p hp h0
    obtain ⟨l, hl⟩ := hf.children _ hparent_live
    obtain ⟨l₁, l₂, rfl⟩ := List.append_of_mem ((hl.mem_iff p).2 ⟨hp, rfl⟩)
    have hnd : p ∉ l₁ := fun hm =>
      (List.nodup_middle.1 hl.list.nodup |> List.nodup_cons.1).1 (List.mem_append_left _ hm)
    refine ⟨l₁, l₂, hl, ?_⟩
    simpa [List.erase_append_right _ hnd] using hchildren _ hparent_live (hparent h0) _ hl
  · have hqp : q ≠ p := fun e => hq (ancestor_iff.2 (Or.inr e))
    rw [hmode, if_neg hqp]
    exact hs.execMode q fun hd => hq (ancestor_iff.2 (Or.inl hd))
  · have hqp : q ≠ p := fun e => hq (ancestor_iff.2 (Or.inr e))
    rw [hsleep q hqp, sleepTime_unlinkChildProcess]
    exact hs.sleepTime q fun hd => hq (ancestor_iff.2 (Or.inl hd))

/-- A third generation. -/
def grandchild : List Act :=
  oneChild ++
    [.api (.createChildProcess ⟨0x80003000, 0x80003010, 0x80003100⟩ (.game 3) 7 0 0x80002010)]

theorem grandchild_forest : Forest (stateAfter grandchild).mem := by
  have h : ReachableUnder (fun s a => ¬ LosesChildren s a) (stateAfter grandchild) :=
    reachableUnder_stateAfter createsFirst (fun _ _ => not_losesChildren_of_createsFirst)
      (by decide +kernel)
  refine h.familyInv.families.forest ?_ (by decide +kernel) ?_
  · unfold Attached
    decide +kernel
  · -- a child lies behind its parent
    have hlt : ∀ c ∈ (stateAfter grandchild).mem.live, (stateAfter grandchild).mem.relative c ≠ 0 →
        (stateAfter grandchild).mem.relative c < c := by decide +kernel
    refine Forests.not_transGen_self_of_lt (f := fun q : Ptr => q) ?_
    rintro a b ⟨ha, rfl, hb⟩
    exact hlt a ha hb

theorem killProcess_subtree_grandchild :
    (stateAfter grandchild).mem.relative 0x80002010 = 0x80001010 ∧
      ∃ n m', (∀ fuel, n ≤ fuel → killProcess fuel (stateAfter grandchild).mem 0x80002010 = .ok m') ∧
        KillsSubtree (stateAfter grandchild).mem 0x80002010 m' :=
  ⟨by decide +kernel, killProcess_subtree grandchild_forest (by decide +kernel)⟩

/-! ### `KillPrioProcess` -/

/-- **The rule for a loop over the run list that returns**: where every round returns for all bounds
from some on and leaves the run list alone, so does the loop. -/
theorem forEachProcess_ends {body : ℕ → Memory → Ptr → Except Stop Memory}
    {I : List Ptr → Memory → Prop} (hl : RunList m l) (hI : I [] m)
    (hbody : ∀ l₁ p l₂ m₁, l = l₁ ++ p :: l₂ → SameCore m m₁ → I l₁ m₁ →
      ∃ n m₂, (∀ fuel, n ≤ fuel → body fuel m₁ p = .ok m₂) ∧ SameCore m₁ m₂ ∧ I (l₁ ++ [p]) m₂) :
    ∃ n m', (∀ fuel, n ≤ fuel → forEachProcess (body fuel) fuel m m.topProcess = .ok m') ∧
      SameCore m m' ∧ I l m' := by
  have key : ∀ (l₂ l₁ : List Ptr) (m₁ : Memory), l = l₁ ++ l₂ → SameCore m m₁ → I l₁ m₁ →
      ∃ n m', (∀ fuel rounds, n ≤ fuel → n ≤ rounds →
        forEachProcess (body fuel) rounds m₁ (l₂.headD 0) = .ok m') ∧ SameCore m m' ∧ I l m' := by
    intro l₂
    induction l₂ with
    | nil =>
        intro l₁ m₁ hll hs hI₁
        rw [List.append_nil] at hll
        refine ⟨1, m₁, fun fuel rounds _ hrounds => ?_, hs, hll ▸ hI₁⟩
        obtain ⟨k, rfl⟩ : ∃ k, rounds = k + 1 := ⟨rounds - 1, by omega⟩
        rfl
    | cons p l₂ ih =>
        intro l₁ m₁ hll hs hI₁
        obtain ⟨n₁, m₂, hb, hs₂, hI₂⟩ := hbody l₁ p l₂ m₁ hll hs hI₁
        obtain ⟨n₂, m', hrest, hend⟩ := ih (l₁ ++ [p]) m₂ (by simpa using hll) (hs.trans hs₂) hI₂
        have hp0 : p ≠ 0 := hl.ne_null (hll ▸ by simp)
        have hnext : (m₂.record p).next = l₂.headD 0 := by
          rw [(hs.trans hs₂).next]
          exact (hl.around hll).2
        refine ⟨max n₁ n₂ + 1, m', fun fuel rounds hfuel hrounds => ?_, hend⟩
        obtain ⟨k, rfl⟩ : ∃ k, rounds = k + 1 := ⟨rounds - 1, by omega⟩
        rw [List.headD_cons, forEachProcess, if_neg hp0]
        refine bind_eq_ok.2 ⟨m₂, hb fuel (by omega), ?_⟩
        rw [hnext]
        exact hrest fuel k (by omega) (by omega)
  obtain ⟨n, m', h, hend⟩ := key l [] m rfl (.refl m) hI
  refine ⟨n, m', fun fuel hfuel => ?_, hend⟩
  rw [hl.head_eq]
  exact h fuel fuel hfuel hfuel

/-- Unlinking a process adds no descendants. -/
theorem descendant_of_unlinkChildProcess {x y : Ptr} (h : Descendant (unlinkChildProcess m c) x y) :
    Descendant m x y := by
  refine Relation.TransGen.mono ?_ x y h
  intro a b hab
  obtain ⟨ha, hr, hb⟩ := hab
  rw [live_unlinkChildProcess] at ha
  rw [relative_unlinkChildProcess] at hr
  split_ifs at hr
  · exact absurd hr.symm hb
  · exact ⟨ha, hr, hb⟩

/-- Unlinking a process keeps the invariant. -/
theorem Covered.unlink (hf : Families m) (h : Covered Process.isDead m) (hc : c ∈ m.live) :
    Covered Process.isDead (unlinkChildProcess m c) := by
  intro p hp
  rw [live_unlinkChildProcess] at hp
  rcases h p hp with ha | hD
  · exact Or.inl (hf.attached_unlinkChildProcess hp hc (ha.linkOk c))
  · refine Or.inr fun y hy => ?_
    exact (mode_unlinkChildProcess m c y).trans (hD y (descendant_of_unlinkChildProcess hy))

/-- The dead behind `KillProcess`: those that were dead, and the process with its descendants. -/
theorem Sweeps.isDead_killUnlinked {m₁ : Memory} {r : Ptr}
    (hs : Sweeps Process.isDead (Descendant m · r) m m₁) (q : Ptr) :
    ((setKillStatusProcessExport (unlinkChildProcess m₁ r) r).1.record q).isDead ↔
      (m.record q).isDead ∨ Ancestor m q r := by
  rw [Process.isDead, execMode_killUnlinked, ancestor_iff]
  by_cases hqr : q = r
  · simp [hqr]
  · rw [if_neg hqr, or_iff_left hqr]
    constructor
    · intro hd
      by_cases hq : Descendant m q r
      · exact Or.inr hq
      · exact Or.inl ((hs.execMode q hq).symm.trans hd)
    · rintro (hd | hq)
      · exact hs.kept q hd
      · exact hs.marked q hq

/-- Between two rounds of `KillPrioProcess`: the processes of the list `done` that are to be killed
have been. -/
structure Killing (m₀ : Memory) (T : Ptr → Prop) (done : List Ptr) (m : Memory) : Prop where
  families : Families m
  covered : Covered Process.isDead m
  live : m.live = m₀.live
  /-- A process that has lost its parent has been killed with its descendants. -/
  relative : ∀ q, m.relative q = m₀.relative q ∨
    m.relative q = 0 ∧ ∀ y, Ancestor m₀ y q → (m.record y).isDead
  dead_iff : ∀ q, (m.record q).isDead ↔
    (m₀.record q).isDead ∨ ∃ r ∈ done, T r ∧ Ancestor m₀ q r

namespace Killing

variable {m₀ : Memory} {T : Ptr → Prop} {done : List Ptr} {r : Ptr}

theorem start (hf : Forest m₀) : Killing m₀ T [] m₀ :=
  ⟨hf.families, hf.covered _, rfl, fun _ => Or.inl rfl, fun _ => by simp⟩

/-- No parent has been given to a process. -/
theorem isParent (h : Killing m₀ T done m) {a b : Ptr} (hab : m.IsParent a b) :
    m₀.IsParent a b := by
  obtain ⟨ha, hr, hb⟩ := hab
  refine ⟨h.live ▸ ha, ?_, hb⟩
  rcases h.relative a with he | ⟨h0, -⟩
  · exact he.symm.trans hr
  · exact absurd (hr.symm.trans h0) hb

/-- A former descendant is one still, or dead. -/
theorem ancestor_or_dead (h : Killing m₀ T done m) {x y : Ptr} (hyx : Ancestor m₀ y x) :
    Ancestor m y x ∨ (m.record y).isDead := by
  have hcut : ∀ a b, m₀.IsParent a b → m.IsParent a b ∨
      ∀ y, Ancestor m₀ y a → (m.record y).isDead := by
    rintro a b ⟨ha, hr, hb⟩
    rcases h.relative a with he | ⟨-, hD⟩
    · exact Or.inl ⟨h.live.symm ▸ ha, he.trans hr, hb⟩
    · exact Or.inr hD
  exact Forests.reflTransGen_or_of_cut hcut hyx

/-- A process that is not to be killed. -/
theorem skip (h : Killing m₀ T done m) (hr : ¬ T r) : Killing m₀ T (done ++ [r]) m := by
  refine ⟨h.families, h.covered, h.live, h.relative, fun q => (h.dead_iff q).trans ?_⟩
  refine or_congr_right (exists_congr fun x => ?_)
  rw [List.mem_append, List.mem_singleton]
  constructor
  · rintro ⟨hx, hT⟩
    exact ⟨Or.inl hx, hT⟩
  · rintro ⟨hx | rfl, hT⟩
    · exact ⟨hx, hT⟩
    · exact absurd hT.1 hr

/-- **A round of `KillPrioProcess`.** -/
theorem kill (hwf : WellFounded m₀.IsParent) (h : Killing m₀ T done m) (hr : r ∈ m.live)
    (hT : T r) :
    ∃ n m', (∀ fuel, n ≤ fuel → killProcess fuel m r = .ok m') ∧ Killing m₀ T (done ++ [r]) m' := by
  have hwf' : WellFounded m.IsParent := Subrelation.wf (fun {_ _} => h.isParent) hwf
  obtain ⟨n, m₁, hend, hk, ho, hs⟩ := killProcess_ends isDead_killMark hwf' rfl h.families h.covered
    hr
  refine ⟨n, _, hend, ?_⟩
  have hf₁ := h.families.killed hk
  have hr₁ : r ∈ m₁.live := hk.live ▸ hr
  have hsame := setKillStatusProcessExport_killed (unlinkChildProcess m₁ r) r r
  -- `r` has no children left
  have ho₂ : (unlinkChildProcess m₁ r).oldestChild r = 0 := by
    refine (oldestChild_unlinkChildProcess_of_ne ?_).trans ho
    rw [hk.relative]
    exact fun h0 he => hwf'.irrefl.irrefl r ⟨hr, he.symm, he ▸ h0⟩
  have hcov := (((h.covered.sweeps hk hs).unlink hf₁ hr₁).sweeps hsame
    (sweeps_setKillStatusProcessExport isDead_killMark _ ho₂))
  have hdead := hs.isDead_killUnlinked
  generalize (setKillStatusProcessExport (unlinkChildProcess m₁ r) r).1 = m' at *
  have hbelow : ∀ y, Ancestor m₀ y r → (m'.record y).isDead := fun y hy =>
    (hdead y).2 (h.ancestor_or_dead hy).symm
  refine ⟨(hf₁.unlinkChildProcess hr₁).killed hsame, hcov, ?_, fun q => ?_, fun q => ?_⟩
  · rw [hsame.live, live_unlinkChildProcess, hk.live, h.live]
  · rw [hsame.relative, relative_unlinkChildProcess, hk.relative]
    by_cases hqr : q = r
    · subst hqr
      exact Or.inr ⟨if_pos rfl, hbelow⟩
    · rw [if_neg hqr]
      exact (h.relative q).imp id fun ⟨h0, hD⟩ => ⟨h0, fun y hy => (hdead y).2 (Or.inl (hD y hy))⟩
  · rw [hdead, h.dead_iff]
    constructor
    · rintro ((hd | ⟨x, hx, hxT, hq⟩) | hq)
      · exact Or.inl hd
      · exact Or.inr ⟨x, List.mem_append_left _ hx, hxT, hq⟩
      · refine Or.inr ⟨r, by simp, hT, ?_⟩
        exact Relation.ReflTransGen.mono (fun _ _ => h.isParent) q r hq
    · rintro (hd | ⟨x, hx, hxT, hq⟩)
      · exact Or.inl (Or.inl hd)
      · rcases List.mem_append.1 hx with hx | hx
        · exact Or.inl (Or.inr ⟨x, hx, hxT, hq⟩)
        · rw [List.mem_singleton] at hx
          subst hx
          rw [← h.dead_iff, ← hdead]
          exact hbelow q hq

end Killing

/-- **`KillPrioProcess` kills the downward closure** of the processes in the range, in whatever
order the run list has them. -/
theorem killPrioProcess_closure (hl : RunList m l) (hlive : ∀ p ∈ l, p ∈ m.live) (hf : Forest m)
    (lo hi : ℕ) :
    ∃ n m', (∀ fuel, n ≤ fuel → killPrioProcess fuel m lo hi = .ok m') ∧ RunList m' l ∧
      ∀ q, (m'.record q).execMode = .dead ↔
        (m.record q).execMode = .dead ∨ ∃ r ∈ l, inPriority m lo hi r ∧ Ancestor m q r := by
  have hround : ∀ l₁ p l₂ m₁, l = l₁ ++ p :: l₂ → SameCore m m₁ →
      Killing m (inPriority m lo hi) l₁ m₁ →
      ∃ n m₂, (∀ fuel, n ≤ fuel →
        (if inPriority m₁ lo hi p then killProcess fuel m₁ p else .ok m₁) = .ok m₂) ∧
        SameCore m₁ m₂ ∧ Killing m (inPriority m lo hi) (l₁ ++ [p]) m₂ := by
    intro l₁ p l₂ m₁ hll hs hI
    have hp : p ∈ m₁.live := hs.live ▸ hlive p (hll ▸ by simp)
    have hprio : inPriority m₁ lo hi p ↔ inPriority m lo hi p := by
      rw [inPriority, inPriority, hs.priority]
    by_cases hT : inPriority m lo hi p
    · obtain ⟨n, m₂, hend, hI₂⟩ := hI.kill hf.wellFounded hp hT
      refine ⟨n, m₂, fun fuel hfuel => ?_, killProcess_sameCore (hend n le_rfl), hI₂⟩
      rw [if_pos (hprio.2 hT)]
      exact hend fuel hfuel
    · exact ⟨0, m₁, fun _ _ => if_neg fun h => hT (hprio.1 h), .refl m₁, hI.skip hT⟩
  obtain ⟨n, m', hend, hs, hm'⟩ := forEachProcess_ends hl (.start hf) hround
  refine ⟨n, m', hend, ?_, hm'.dead_iff⟩
  rw [RunList, hs.topProcess]
  exact hl.congr (fun p _ => hs.next p) fun p _ => hs.youngestChild p

theorem killPrioProcess_closure_grandchild :
    ∃ l, (∃ r ∈ l, inPriority (stateAfter grandchild).mem 6 9 r) ∧
      ∃ n m', (∀ fuel, n ≤ fuel → killPrioProcess fuel (stateAfter grandchild).mem 6 9 = .ok m') ∧
        RunList m' l ∧ ∀ q, (m'.record q).execMode = .dead ↔
          ((stateAfter grandchild).mem.record q).execMode = .dead ∨
            ∃ r ∈ l, inPriority (stateAfter grandchild).mem 6 9 r ∧
              Ancestor (stateAfter grandchild).mem q r := by
  have hinv := (reachable_stateAfter grandchild).sysInv.mem
  obtain ⟨l, hl⟩ := hinv.run
  refine ⟨l, ⟨0x80002010, (hl.mem_iff _).2 (by decide +kernel), by decide +kernel⟩, ?_⟩
  exact killPrioProcess_closure hl.list
    (fun p hp => hinv.procs_live p ((hl.mem_iff p).1 hp)) grandchild_forest 6 9

end Sched
