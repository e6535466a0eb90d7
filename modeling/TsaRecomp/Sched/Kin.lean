/-
**The links between parents and children.**

A parent holds its newest child in `oldest_child`; a child holds its parent in `relative`, the next
older child in `parent_oldest_child` and the next newer one in `new_process`.  This module says what
`UnlinkChildProcess`, `LinkChildProcess` and `CreateProcess` do to these four fields, and that they
keep a local invariant.

Main definitions:

* `Sched.Process.kin`, `Sched.SameKin` — the four fields, and the writes that leave them alone;
* `Sched.KinLinks` — **the local invariant**.

Main results:

* `Sched.relative_unlinkChildProcess` and its siblings — the fields behind `UnlinkChildProcess`;
* `Sched.relative_linkUnlinked` and its siblings — the fields behind `LinkChildProcess`;
* `Sched.KinLinks.unlinkChildProcess`, `Sched.KinLinks.linkChildProcess`, `Sched.KinLinks.created`.
-/

import TsaRecomp.Sched.Reachable

set_option relaxedAutoImplicit false
set_option autoImplicit false

namespace Sched

/-! ### The four fields -/

/-- The fields that link parents and children. -/
structure Kin where
  relative : Ptr
  oldestChild : Ptr
  parentOldestChild : Ptr
  newProcess : Ptr

/-- The links of a record. -/
def Process.kin (r : Process) : Kin where
  relative := r.relative
  oldestChild := r.oldestChild
  parentOldestChild := r.parentOldestChild
  newProcess := r.newProcess

namespace Memory

abbrev relative (m : Memory) (p : Ptr) : Ptr := (m.record p).relative
abbrev oldestChild (m : Memory) (p : Ptr) : Ptr := (m.record p).oldestChild
abbrev parentOldestChild (m : Memory) (p : Ptr) : Ptr := (m.record p).parentOldestChild
abbrev newProcess (m : Memory) (p : Ptr) : Ptr := (m.record p).newProcess

end Memory

/-- Two memories with the same links between the processes that are live. -/
structure SameKin (m m' : Memory) : Prop where
  kin : ∀ p ∈ m.live, (m'.record p).kin = (m.record p).kin
  live : m'.live = m.live
  staleAccess : m'.staleAccess = m.staleAccess

namespace SameKin

variable {m m' m'' : Memory}

theorem refl (m : Memory) : SameKin m m := ⟨fun _ _ => rfl, rfl, rfl⟩

theorem trans (h : SameKin m m') (h' : SameKin m' m'') : SameKin m m'' :=
  ⟨fun p hp => (h'.kin p (h.live ▸ hp)).trans (h.kin p hp), h'.live.trans h.live,
    h'.staleAccess.trans h.staleAccess⟩

theorem relative (h : SameKin m m') {p : Ptr} (hp : p ∈ m.live) : m'.relative p = m.relative p :=
  congrArg Kin.relative (h.kin p hp)

theorem oldestChild (h : SameKin m m') {p : Ptr} (hp : p ∈ m.live) :
    m'.oldestChild p = m.oldestChild p := congrArg Kin.oldestChild (h.kin p hp)

theorem parentOldestChild (h : SameKin m m') {p : Ptr} (hp : p ∈ m.live) :
    m'.parentOldestChild p = m.parentOldestChild p := congrArg Kin.parentOldestChild (h.kin p hp)

theorem newProcess (h : SameKin m m') {p : Ptr} (hp : p ∈ m.live) :
    m'.newProcess p = m.newProcess p := congrArg Kin.newProcess (h.kin p hp)

/-- A write to other fields of a record. -/
theorem modify (m : Memory) (p : Ptr) {f : Process → Process} (hf : ∀ r, (f r).kin = r.kin) :
    SameKin m (m.modify p f) := by
  refine ⟨?_, rfl, rfl⟩
  intro q _
  rw [Memory.record_modify]
  split
  · exact hf _
  · rfl

theorem setExecMode (m : Memory) (p : Ptr) (v : ExecMode) : SameKin m (m.setExecMode p v) :=
  modify m p fun _ => rfl

theorem setSleepTime (m : Memory) (p : Ptr) (v : ℤ) : SameKin m (m.setSleepTime p v) :=
  modify m p fun _ => rfl

theorem setDestructor (m : Memory) (p : Ptr) (v : Option ProcessFunc) :
    SameKin m (m.setDestructor p v) := modify m p fun _ => rfl

end SameKin

theorem wakeupProcess_sameKin (m : Memory) (p : Ptr) : SameKin m (wakeupProcess m p) := by
  unfold wakeupProcess
  split_ifs
  · exact .setSleepTime m p _
  · exact .setExecMode m p _
  · exact .setExecMode m p _
  · exact .refl m

theorem setKillStatusProcessExport_sameKin (m : Memory) (p : Ptr) :
    SameKin m (setKillStatusProcessExport m p).1 := by
  unfold setKillStatusProcessExport
  split_ifs
  · exact (wakeupProcess_sameKin m p).trans (.setExecMode _ p _)
  · exact .refl m

theorem sleepProcessP_sameKin (m : Memory) (p : Ptr) (time : ℤ) :
    SameKin m (sleepProcessP m p time) := by
  unfold sleepProcessP
  split_ifs
  · exact .setExecMode m p _
  · exact (SameKin.setExecMode m p _).trans (.setSleepTime _ p _)
  · exact .refl m

theorem sleepTick_sameKin (m : Memory) (p : Ptr) (time : ℤ) : SameKin m (sleepTick m p time) := by
  unfold sleepTick
  dsimp only
  split_ifs
  · exact (SameKin.setSleepTime m p _).trans <| (SameKin.setSleepTime _ p 0).trans <|
      .setExecMode _ p _
  · exact .setSleepTime m p _
  · exact .refl m

theorem sleepCurrent_sameKin (m : Memory) (p : Ptr) (time : ℤ) :
    SameKin m (sleepCurrent m p time) := by
  unfold sleepCurrent
  split_ifs
  · exact (SameKin.setExecMode m p _).trans (.setSleepTime _ p _)
  · exact .refl m

theorem Skips.sameKin {m m' : Memory} {time : ℤ} {cur : Ptr} (h : Skips m time cur m') :
    SameKin m m' := by
  cases h with
  | paused => exact .refl m
  | sleeping => exact sleepTick_sameKin m cur time
  | watching => exact .refl m

theorem Readies.sameKin {m m' : Memory} {r r' : ProcessRuntime} {cur : Ptr} {evs : List Event}
    (h : Readies m r cur m' r' evs) : SameKin m m' := by
  cases h with
  | default => exact .refl m
  | childless => exact .setExecMode m cur _
  | dead => exact .modify m cur fun _ => rfl

theorem terminated_sameKin (m : Memory) (p : Ptr) : SameKin m (terminated m p) := by
  refine ⟨?_, MemInv.live_terminated m p,
    (unlinkProcessExport_sameButLinks m p).staleAccess⟩
  intro q _
  rw [MemInv.record_terminated]
  rfl

/-! ### `UnlinkChildProcess` and `LinkChildProcess` -/

section Fields

variable (m : Memory) (c y : Ptr)

theorem relative_unlinkOlder : (unlinkOlder m c).relative y = m.relative y := by
  unfold unlinkOlder
  split_ifs <;> simp [Memory.relative]

theorem oldestChild_unlinkOlder : (unlinkOlder m c).oldestChild y = m.oldestChild y := by
  unfold unlinkOlder
  split_ifs <;> simp [Memory.oldestChild]

theorem parentOldestChild_unlinkOlder :
    (unlinkOlder m c).parentOldestChild y = m.parentOldestChild y := by
  unfold unlinkOlder
  split_ifs <;> simp [Memory.parentOldestChild]

theorem newProcess_unlinkOlder : (unlinkOlder m c).newProcess y =
    if m.parentOldestChild c ≠ 0 ∧ y = m.parentOldestChild c then m.newProcess c
    else m.newProcess y := by
  unfold unlinkOlder Memory.newProcess Memory.parentOldestChild
  by_cases h : (m.record c).parentOldestChild = 0 <;> simp [h]

theorem relative_unlinkNewer : (unlinkNewer m c).relative y = m.relative y := by
  unfold unlinkNewer
  split_ifs <;> simp [Memory.relative]

theorem newProcess_unlinkNewer : (unlinkNewer m c).newProcess y = m.newProcess y := by
  unfold unlinkNewer
  split_ifs <;> simp [Memory.newProcess]

theorem parentOldestChild_unlinkNewer : (unlinkNewer m c).parentOldestChild y =
    if m.newProcess c ≠ 0 ∧ y = m.newProcess c then m.parentOldestChild c
    else m.parentOldestChild y := by
  unfold unlinkNewer Memory.newProcess Memory.parentOldestChild
  by_cases h : (m.record c).newProcess = 0 <;> simp [h]

theorem oldestChild_unlinkNewer : (unlinkNewer m c).oldestChild y =
    if m.newProcess c = 0 ∧ y = m.relative c then m.parentOldestChild c
    else m.oldestChild y := by
  unfold unlinkNewer Memory.newProcess Memory.oldestChild
  by_cases h : (m.record c).newProcess = 0 <;> simp [h]

/-- `UnlinkChildProcess` does nothing to a process without a parent. -/
theorem unlinkChildProcess_of_null {m : Memory} {c : Ptr} (hc : m.relative c = 0) :
    unlinkChildProcess m c = m := by
  rw [unlinkChildProcess, if_neg (not_not.2 hc)]

theorem relative_unlinkChildProcess :
    (unlinkChildProcess m c).relative y = if y = c then 0 else m.relative y := by
  by_cases hc : m.relative c = 0
  · rw [unlinkChildProcess_of_null hc]
    split_ifs with hy
    · rw [hy, hc]
    · rfl
  · rw [unlinkChildProcess, if_pos hc, ← relative_unlinkOlder m c y,
      ← relative_unlinkNewer (unlinkOlder m c) c y]
    simp [Memory.relative]

variable {m c}

theorem oldestChild_unlinkChildProcess (hc : m.relative c ≠ 0) :
    (unlinkChildProcess m c).oldestChild y =
      if m.newProcess c = 0 ∧ y = m.relative c then m.parentOldestChild c
      else m.oldestChild y := by
  have h := oldestChild_unlinkNewer (unlinkOlder m c) c y
  have hn : (unlinkOlder m c).newProcess c = m.newProcess c := by
    rw [newProcess_unlinkOlder]
    split_ifs with h <;> rfl
  rw [relative_unlinkOlder, oldestChild_unlinkOlder, parentOldestChild_unlinkOlder, hn] at h
  rw [unlinkChildProcess, if_pos hc, ← h]
  simp [Memory.oldestChild]

theorem parentOldestChild_unlinkChildProcess (hc : m.relative c ≠ 0) :
    (unlinkChildProcess m c).parentOldestChild y =
      if m.newProcess c ≠ 0 ∧ y = m.newProcess c then m.parentOldestChild c
      else m.parentOldestChild y := by
  have h := parentOldestChild_unlinkNewer (unlinkOlder m c) c y
  have hn : (unlinkOlder m c).newProcess c = m.newProcess c := by
    rw [newProcess_unlinkOlder]
    split_ifs with h <;> rfl
  rw [parentOldestChild_unlinkOlder, parentOldestChild_unlinkOlder, hn] at h
  rw [unlinkChildProcess, if_pos hc, ← h]
  simp [Memory.parentOldestChild]

theorem newProcess_unlinkChildProcess (hc : m.relative c ≠ 0) :
    (unlinkChildProcess m c).newProcess y =
      if m.parentOldestChild c ≠ 0 ∧ y = m.parentOldestChild c then m.newProcess c
      else m.newProcess y := by
  rw [unlinkChildProcess, if_pos hc, ← newProcess_unlinkOlder m c y,
    ← newProcess_unlinkNewer (unlinkOlder m c) c y]
  simp [Memory.newProcess]

variable (m c)

theorem live_unlinkChildProcess : (unlinkChildProcess m c).live = m.live :=
  (unlinkChildProcess_sameCore m c).live

/-- `LinkChildProcess`, behind the call of `UnlinkChildProcess`. -/
def linkUnlinked (m : Memory) (root child : Ptr) : Memory :=
  let m := linkHead m root child
  let m := m.setParentOldestChild child (m.record root).oldestChild
  let m := m.setNewProcess child 0
  let m := m.setOldestChild root child
  m.setRelative child root

theorem linkChildProcess_eq (root child : Ptr) :
    linkChildProcess m root child = linkUnlinked (unlinkChildProcess m child) root child := rfl

variable (root child : Ptr)

theorem relative_linkUnlinked : (linkUnlinked m root child).relative y =
    if y = child then root else m.relative y := by
  unfold linkUnlinked linkHead Memory.relative
  by_cases h : (m.record root).oldestChild = 0 <;> simp [h]

theorem oldestChild_linkUnlinked : (linkUnlinked m root child).oldestChild y =
    if y = root then child else m.oldestChild y := by
  unfold linkUnlinked linkHead Memory.oldestChild
  by_cases h : (m.record root).oldestChild = 0 <;> simp [h]

theorem parentOldestChild_linkUnlinked : (linkUnlinked m root child).parentOldestChild y =
    if y = child then m.oldestChild root else m.parentOldestChild y := by
  unfold linkUnlinked linkHead Memory.oldestChild Memory.parentOldestChild
  by_cases h : (m.record root).oldestChild = 0 <;> simp [h]

theorem newProcess_linkUnlinked : (linkUnlinked m root child).newProcess y =
    if y = child then 0
    else if m.oldestChild root ≠ 0 ∧ y = m.oldestChild root then child
    else m.newProcess y := by
  unfold linkUnlinked linkHead Memory.oldestChild Memory.newProcess
  by_cases h : (m.record root).oldestChild = 0 <;> by_cases h' : y = child <;> simp [h, h']

theorem live_linkUnlinked : (linkUnlinked m root child).live = m.live := by
  unfold linkUnlinked linkHead
  split_ifs <;> rfl

end Fields

/-! The records that are written to by following a link. -/

section Stale

variable {m : Memory} {c root child : Ptr}

theorem staleAccess_unlinkOlder
    (h : m.parentOldestChild c ≠ 0 → m.parentOldestChild c ∈ m.live) :
    (unlinkOlder m c).staleAccess = m.staleAccess := by
  unfold unlinkOlder
  split_ifs with hc
  · simpa using fun hn => absurd (h hc) hn
  · rfl

theorem staleAccess_unlinkNewer (h : m.newProcess c ≠ 0 → m.newProcess c ∈ m.live)
    (hr : m.relative c ∈ m.live) : (unlinkNewer m c).staleAccess = m.staleAccess := by
  unfold unlinkNewer
  split_ifs with hc
  · simpa using fun hn => absurd (h hc) hn
  · simpa using fun hn => absurd hr hn

theorem staleAccess_unlinkChildProcess (hr : m.relative c ≠ 0 → m.relative c ∈ m.live)
    (ho : m.relative c ≠ 0 → m.parentOldestChild c ≠ 0 → m.parentOldestChild c ∈ m.live)
    (hn : m.relative c ≠ 0 → m.newProcess c ≠ 0 → m.newProcess c ∈ m.live) :
    (unlinkChildProcess m c).staleAccess = m.staleAccess := by
  by_cases hc : m.relative c = 0
  · rw [unlinkChildProcess_of_null hc]
  · have hlive : (unlinkOlder m c).live = m.live := (unlinkOlder_sameCore m c).live
    have hnew : (unlinkOlder m c).newProcess c = m.newProcess c := by
      rw [newProcess_unlinkOlder]
      split_ifs with h <;> rfl
    rw [unlinkChildProcess, if_pos hc, ← staleAccess_unlinkOlder (ho hc)]
    refine staleAccess_unlinkNewer ?_ ?_
    · rw [hnew, hlive]
      exact hn hc
    · rw [relative_unlinkOlder, hlive]
      exact hr hc

theorem staleAccess_linkUnlinked (h : m.oldestChild root ≠ 0 → m.oldestChild root ∈ m.live) :
    (linkUnlinked m root child).staleAccess = m.staleAccess := by
  unfold linkUnlinked linkHead
  split_ifs with hc
  · simpa using fun hn => absurd (h hc) hn
  · rfl

end Stale

/-! ### The local invariant -/

/-- **The local invariant** of the links: the siblings of a child point back at it and have its
parent, and the child in `oldest_child` is a child without a newer sibling. -/
structure KinLinks (m : Memory) : Prop where
  null_notMem : 0 ∉ m.live
  older : ∀ c ∈ m.live, m.relative c ≠ 0 → m.parentOldestChild c ≠ 0 →
    m.parentOldestChild c ∈ m.live ∧ m.relative (m.parentOldestChild c) = m.relative c ∧
      m.newProcess (m.parentOldestChild c) = c
  newer : ∀ c ∈ m.live, m.relative c ≠ 0 → m.newProcess c ≠ 0 →
    m.newProcess c ∈ m.live ∧ m.relative (m.newProcess c) = m.relative c ∧
      m.parentOldestChild (m.newProcess c) = c
  oldest : ∀ p ∈ m.live, m.oldestChild p ≠ 0 →
    m.oldestChild p ∈ m.live ∧ m.relative (m.oldestChild p) = p ∧
      m.newProcess (m.oldestChild p) = 0

namespace KinLinks

variable {m m' : Memory}

theorem sameKin (h : KinLinks m) (hs : SameKin m m') : KinLinks m' := by
  have hr := fun p (hp : p ∈ m.live) => hs.relative hp
  have ho := fun p (hp : p ∈ m.live) => hs.oldestChild hp
  have hp := fun p (hp : p ∈ m.live) => hs.parentOldestChild hp
  have hn := fun p (hp : p ∈ m.live) => hs.newProcess hp
  obtain ⟨h0, hold, hnew, holdest⟩ := h
  have hlive := hs.live
  constructor <;> grind

/-- **`UnlinkChildProcess` keeps the links.** -/
theorem unlinkChildProcess (h : KinLinks m) {c : Ptr} (hc : c ∈ m.live) :
    KinLinks (unlinkChildProcess m c) := by
  by_cases hr : m.relative c = 0
  · rwa [unlinkChildProcess_of_null hr]
  have hrel := relative_unlinkChildProcess m c
  have hnew := fun y => newProcess_unlinkChildProcess y hr
  have hpoc := fun y => parentOldestChild_unlinkChildProcess y hr
  have hold := fun y => oldestChild_unlinkChildProcess y hr
  have hlive := live_unlinkChildProcess m c
  obtain ⟨h0, holder, hnewer, holdest⟩ := h
  have hnewc := hnewer c hc hr
  have holdc := holder c hc hr
  generalize Sched.unlinkChildProcess m c = m' at *
  rw [← hlive] at h0
  refine ⟨h0, ?_, ?_, ?_⟩
  · intro x hx hrx hpx
    rw [hlive] at hx ⊢
    have hxo := holder x hx
    have hxc : x ≠ c := fun e => hrx (by rw [hrel, if_pos e])
    rw [hrel, if_neg hxc] at hrx
    rw [hpoc] at hpx ⊢
    split_ifs at hpx ⊢ with hxn
    · -- the newer sibling of `c` is given the older one
      rw [hrel, hrel, hnew]
      grind
    · rw [hrel, hrel, hnew]
      grind
  · intro x hx hrx hnx
    rw [hlive] at hx ⊢
    have hxn := hnewer x hx
    have hxc : x ≠ c := fun e => hrx (by rw [hrel, if_pos e])
    rw [hrel, if_neg hxc] at hrx
    rw [hnew] at hnx ⊢
    split_ifs at hnx ⊢ with hxp
    · -- the older sibling of `c` is given the newer one
      rw [hrel, hrel, hpoc]
      grind
    · rw [hrel, hrel, hpoc]
      grind
  · intro p hp hop
    rw [hlive] at hp ⊢
    have hpo := holdest p hp
    rw [hold] at hop ⊢
    split_ifs at hop ⊢ with hpc
    · -- the parent of `c` is given the older sibling
      rw [hrel, hnew]
      grind
    · rw [hrel, hnew]
      grind

/-- Linking a process without a parent keeps the links. -/
theorem linkUnlinked (h : KinLinks m) {root child : Ptr} (hroot : root ∈ m.live)
    (hc : child ∈ m.live) (hcr : m.relative child = 0) : KinLinks (linkUnlinked m root child) := by
  have hrel := fun y => relative_linkUnlinked m y root child
  have hnew := fun y => newProcess_linkUnlinked m y root child
  have hpoc := fun y => parentOldestChild_linkUnlinked m y root child
  have hold := fun y => oldestChild_linkUnlinked m y root child
  have hlive := live_linkUnlinked m root child
  obtain ⟨h0, holder, hnewer, holdest⟩ := h
  have hrootc := holdest root hroot
  have hroot0 : root ≠ 0 := fun e => h0 (e ▸ hroot)
  have hchild0 : child ≠ 0 := fun e => h0 (e ▸ hc)
  generalize Sched.linkUnlinked m root child = m' at *
  rw [← hlive] at h0
  refine ⟨h0, ?_, ?_, ?_⟩
  · intro x hx hrx hpx
    rw [hlive] at hx ⊢
    have hxo := holder x hx
    rw [hpoc] at hpx ⊢
    split_ifs at hpx ⊢ with hxc
    · -- the newest child of `root` becomes the older sibling of `child`
      rw [hrel, hrel, hnew]
      grind
    · rw [hrel, if_neg hxc] at hrx
      rw [hrel, hrel, hnew]
      grind
  · intro x hx hrx hnx
    rw [hlive] at hx ⊢
    have hxn := hnewer x hx
    rw [hnew] at hnx ⊢
    split_ifs at hnx ⊢ with hxc hxo
    · exact absurd rfl hnx
    · -- `child` becomes the newer sibling of the newest child of `root`
      rw [hrel, hrel, hpoc]
      grind
    · rw [hrel, if_neg hxc] at hrx
      rw [hrel, hrel, hpoc]
      grind
  · intro p hp hop
    rw [hlive] at hp ⊢
    have hpo := holdest p hp
    rw [hold] at hop ⊢
    split_ifs at hop ⊢ with hpr
    · rw [hrel, hnew]
      grind
    · rw [hrel, hnew]
      grind

/-- **`LinkChildProcess` keeps the links.** -/
theorem linkChildProcess (h : KinLinks m) {root child : Ptr} (hroot : root ∈ m.live)
    (hc : child ∈ m.live) : KinLinks (linkChildProcess m root child) := by
  have hl := live_unlinkChildProcess m child
  refine (h.unlinkChildProcess hc).linkUnlinked (hl ▸ hroot) (hl ▸ hc) ?_
  rw [relative_unlinkChildProcess, if_pos rfl]

end KinLinks

/-! ### Creation -/

section Creation

variable {m m' : Memory} {b : Block} {func : ProcessFunc} {priority stackSize : ℕ}

theorem Created.kin (h : Created b func priority stackSize m m') {p : Ptr} (hp : p ≠ b.process) :
    (m'.record p).kin = (m.record p).kin := by
  rw [h.other p hp]
  rfl

theorem Created.relative_self (h : Created b func priority stackSize m m') :
    m'.relative b.process = 0 := by
  rw [Memory.relative, h.self]

theorem Created.oldestChild_self (h : Created b func priority stackSize m m') :
    m'.oldestChild b.process = 0 := by
  rw [Memory.oldestChild, h.self]

/-- A new process has no links, and no other process has one to it. -/
theorem KinLinks.created (hk : KinLinks m) (h : Created b func priority stackSize m m')
    (hf : b.fresh m) : KinLinks m' := by
  have hkin : ∀ p ∈ m.live, (m'.record p).kin = (m.record p).kin := fun p hp =>
    h.kin fun e => hf.2.1 (e ▸ hp)
  have hrel : ∀ p ∈ m.live, m'.relative p = m.relative p := fun p hp =>
    congrArg Kin.relative (hkin p hp)
  have hpoc : ∀ p ∈ m.live, m'.parentOldestChild p = m.parentOldestChild p := fun p hp =>
    congrArg Kin.parentOldestChild (hkin p hp)
  have hnew : ∀ p ∈ m.live, m'.newProcess p = m.newProcess p := fun p hp =>
    congrArg Kin.newProcess (hkin p hp)
  have hold : ∀ p ∈ m.live, m'.oldestChild p = m.oldestChild p := fun p hp =>
    congrArg Kin.oldestChild (hkin p hp)
  have hself := h.relative_self
  have hself' := h.oldestChild_self
  refine ⟨?_, ?_, ?_, ?_⟩
  · rw [h.live]
    intro h0
    rcases List.mem_cons.1 h0 with h0 | h0
    · exact hf.1 h0.symm
    · exact hk.null_notMem h0
  · intro c hc hr ho
    rw [h.live] at hc ⊢
    rcases List.mem_cons.1 hc with rfl | hc
    · exact absurd hself hr
    · rw [hrel c hc] at hr ⊢
      rw [hpoc c hc] at ho ⊢
      obtain ⟨hl, hr', hn'⟩ := hk.older c hc hr ho
      exact ⟨List.mem_cons_of_mem _ hl, (hrel _ hl).trans hr', (hnew _ hl).trans hn'⟩
  · intro c hc hr hn
    rw [h.live] at hc ⊢
    rcases List.mem_cons.1 hc with rfl | hc
    · exact absurd hself hr
    · rw [hrel c hc] at hr ⊢
      rw [hnew c hc] at hn ⊢
      obtain ⟨hl, hr', ho'⟩ := hk.newer c hc hr hn
      exact ⟨List.mem_cons_of_mem _ hl, (hrel _ hl).trans hr', (hpoc _ hl).trans ho'⟩
  · intro p hp ho
    rw [h.live] at hp ⊢
    rcases List.mem_cons.1 hp with rfl | hp
    · exact absurd hself' ho
    · rw [hold p hp] at ho ⊢
      obtain ⟨hl, hr', hn'⟩ := hk.oldest p hp ho
      exact ⟨List.mem_cons_of_mem _ hl, (hrel _ hl).trans hr', (hnew _ hl).trans hn'⟩

end Creation

end Sched
