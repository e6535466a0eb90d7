/-
**What the calls leave alone.**

The functions of `process.c` write three separate groups of fields: the links, priorities and
coroutine data of the run list, which only creation and termination touch; the links of the child
lists; and the modes with their timers.  This module separates the first group, the *core*, and
proves that every call but the creating ones keeps it, so that what rests on the core alone need
not look at the other calls.

Main definitions:

* `Sched.Core`, `Sched.Process.core`, `Sched.SameCore` — the core of a record, and two memories
  that agree on it and on the globals.

Main results:

* `Sched.bind_eq_ok`, `Sched.forEachProcess_induct` — composing calls that may stop, and the
  invariant rule for loops over the run list;
* `Sched.killChild_rel` — the invariant rule for `KillChildProcess`;
* `Sched.Api.run_sameCore` — **only creation touches the core**.
-/

import TsaRecomp.Sched.ProcessC

set_option relaxedAutoImplicit false
set_option autoImplicit false

namespace Sched

/-! ### Calls that may stop -/

/-- A sequence of two calls returns when both do. -/
theorem bind_eq_ok {α β : Type} {x : Except Stop α} {f : α → Except Stop β} {b : β} :
    (x >>= f) = .ok b ↔ ∃ a, x = .ok a ∧ f a = .ok b := by
  cases x with
  | error e => simp [bind, Except.bind]
  | ok a => simp [bind, Except.bind]

/-- **The invariant rule for a loop over the run list.**  The invariant `I` relates memory to the
process the loop has reached. -/
theorem forEachProcess_induct {body : Memory → Ptr → Except Stop Memory}
    {I : Memory → Ptr → Prop}
    (hbody : ∀ m p m', I m p → p ≠ 0 → body m p = .ok m' → I m' (m'.record p).next) :
    ∀ {fuel : ℕ} {m m' : Memory} {p : Ptr}, I m p → forEachProcess body fuel m p = .ok m' →
      I m' 0 := by
  intro fuel
  induction fuel with
  | zero =>
      intro m m' p _ h
      cases h
  | succ fuel ih =>
      intro m m' p hI h
      rw [forEachProcess] at h
      split at h
      · next hp =>
          cases h
          rwa [hp] at hI
      · next hp =>
          obtain ⟨m₁, h₁, h₂⟩ := bind_eq_ok.1 h
          exact ih (hbody m p m₁ hI hp h₁) h₂

/-- A relation that every round of a loop over the run list respects holds between its ends. -/
theorem forEachProcess_rel {body : Memory → Ptr → Except Stop Memory}
    {R : Memory → Memory → Prop} (hrefl : ∀ m, R m m) (htrans : ∀ a b c, R a b → R b c → R a c)
    (hbody : ∀ m p m', body m p = .ok m' → R m m') {fuel : ℕ} {m m' : Memory} {p : Ptr}
    (h : forEachProcess body fuel m p = .ok m') : R m m' :=
  forEachProcess_induct (I := fun m₁ _ => R m m₁)
    (fun m₁ p m₂ hI _ hb => htrans _ _ _ hI (hbody m₁ p m₂ hb)) (hrefl m) h

/-- The writes of `KillChildProcess`: it follows a link to a child, kills a child, or clears the
list of a parent whose children it has killed. -/
inductive KillWrite (m : Memory) : Memory → Prop
  | follow (p : Ptr) : KillWrite m (m.follow p)
  | kill (p : Ptr) : KillWrite m (setKillStatusProcessExport m p).1
  | clear (p : Ptr) : KillWrite m (m.setOldestChild p 0)

/-- A relation that the writes of `KillChildProcess` respect holds between its ends. -/
theorem killChild_rel {R : Memory → Memory → Prop} (hrefl : ∀ m, R m m)
    (htrans : ∀ a b c, R a b → R b c → R a c) (hwrite : ∀ m m', KillWrite m m' → R m m') :
    ∀ fuel : ℕ,
      (∀ m p m', killChildProcess fuel m p = .ok m' → R m m') ∧
      (∀ m p m', killChildLoop fuel m p = .ok m' → R m m') := by
  intro fuel
  induction fuel with
  | zero =>
      constructor
      · intro m p m' h
        rw [killChildProcess] at h
        cases h
      · intro m p m' h
        rw [killChildLoop] at h
        cases h
  | succ fuel ih =>
      obtain ⟨ihp, ihl⟩ := ih
      constructor
      · intro m p m' h
        rw [killChildProcess] at h
        obtain ⟨m₁, h₁, h₂⟩ := bind_eq_ok.1 h
        cases h₂
        exact htrans _ _ _ (ihl _ _ _ h₁) (hwrite _ _ (.clear p))
      · intro m p m' h
        rw [killChildLoop] at h
        split at h
        · cases h
          exact hrefl m
        · obtain ⟨m₁, h₁, h₂⟩ := bind_eq_ok.1 h
          have hfollow : R m (m.follow p) := hwrite _ _ (.follow p)
          have hrec : R (m.follow p) m₁ := by
            split at h₁
            · exact ihp _ _ _ h₁
            · cases h₁
              exact hrefl _
          have hkill : R m₁ (setKillStatusProcessExport m₁ p).1 := hwrite _ _ (.kill p)
          exact htrans _ _ _ hfollow (htrans _ _ _ hrec (htrans _ _ _ hkill (ihl _ _ _ h₂)))

/-! ### The core -/

/-- The fields only creation and termination write. -/
structure Core where
  next : Ptr
  youngestChild : Ptr
  heap : Ptr
  priority : ℕ
  prcJumpSp : Ptr
  prcJumpFunc : ProcessFunc

/-- The core of a record. -/
def Process.core (r : Process) : Core where
  next := r.next
  youngestChild := r.youngestChild
  heap := r.heap
  priority := r.priority
  prcJumpSp := r.prcJumpSp
  prcJumpFunc := r.prcJumpFunc

/-- Two memories with the same cores, the same globals and the same bookkeeping. -/
structure SameCore (m m' : Memory) : Prop where
  core : ∀ p, (m'.record p).core = (m.record p).core
  topProcess : m'.topProcess = m.topProcess
  currentProcess : m'.currentProcess = m.currentProcess
  processCount : m'.processCount = m.processCount
  pendingHeapFree : m'.pendingHeapFree = m.pendingHeapFree
  procs : m'.procs = m.procs
  live : m'.live = m.live

namespace SameCore

variable {m m' m'' : Memory}

theorem refl (m : Memory) : SameCore m m := ⟨fun _ => rfl, rfl, rfl, rfl, rfl, rfl, rfl⟩

theorem trans (h : SameCore m m') (h' : SameCore m' m'') : SameCore m m'' :=
  ⟨fun p => (h'.core p).trans (h.core p), h'.topProcess.trans h.topProcess,
    h'.currentProcess.trans h.currentProcess, h'.processCount.trans h.processCount,
    h'.pendingHeapFree.trans h.pendingHeapFree, h'.procs.trans h.procs, h'.live.trans h.live⟩

theorem next (h : SameCore m m') (p : Ptr) : (m'.record p).next = (m.record p).next :=
  congrArg Core.next (h.core p)

theorem youngestChild (h : SameCore m m') (p : Ptr) :
    (m'.record p).youngestChild = (m.record p).youngestChild :=
  congrArg Core.youngestChild (h.core p)

theorem heap (h : SameCore m m') (p : Ptr) : (m'.record p).heap = (m.record p).heap :=
  congrArg Core.heap (h.core p)

theorem priority (h : SameCore m m') (p : Ptr) : (m'.record p).priority = (m.record p).priority :=
  congrArg Core.priority (h.core p)

theorem prcJumpSp (h : SameCore m m') (p : Ptr) :
    (m'.record p).prcJumpSp = (m.record p).prcJumpSp :=
  congrArg Core.prcJumpSp (h.core p)

theorem prcJumpFunc (h : SameCore m m') (p : Ptr) :
    (m'.record p).prcJumpFunc = (m.record p).prcJumpFunc :=
  congrArg Core.prcJumpFunc (h.core p)

/-- A write to other fields of a record. -/
theorem modify (m : Memory) (p : Ptr) {f : Process → Process} (hf : ∀ r, (f r).core = r.core) :
    SameCore m (m.modify p f) := by
  refine ⟨?_, rfl, rfl, rfl, rfl, rfl, rfl⟩
  intro q
  rw [Memory.record_modify]
  split
  · exact hf _
  · rfl

theorem follow (m : Memory) (p : Ptr) : SameCore m (m.follow p) :=
  ⟨fun _ => rfl, rfl, rfl, rfl, rfl, rfl, rfl⟩

theorem setOldestChild (m : Memory) (p v : Ptr) : SameCore m (m.setOldestChild p v) :=
  modify m p fun _ => rfl

theorem setRelative (m : Memory) (p v : Ptr) : SameCore m (m.setRelative p v) :=
  modify m p fun _ => rfl

theorem setParentOldestChild (m : Memory) (p v : Ptr) :
    SameCore m (m.setParentOldestChild p v) := modify m p fun _ => rfl

theorem setNewProcess (m : Memory) (p v : Ptr) : SameCore m (m.setNewProcess p v) :=
  modify m p fun _ => rfl

theorem setExecMode (m : Memory) (p : Ptr) (v : ExecMode) : SameCore m (m.setExecMode p v) :=
  modify m p fun _ => rfl

theorem setSleepTime (m : Memory) (p : Ptr) (v : ℤ) : SameCore m (m.setSleepTime p v) :=
  modify m p fun _ => rfl

theorem setDestructor (m : Memory) (p : Ptr) (v : Option ProcessFunc) :
    SameCore m (m.setDestructor p v) := modify m p fun _ => rfl

end SameCore

/-! ### The calls keep the core -/

theorem wakeupProcess_sameCore (m : Memory) (p : Ptr) : SameCore m (wakeupProcess m p) := by
  unfold wakeupProcess
  split_ifs
  · exact .setSleepTime m p _
  · exact .setExecMode m p _
  · exact .setExecMode m p _
  · exact .refl m

theorem setKillStatusProcessExport_sameCore (m : Memory) (p : Ptr) :
    SameCore m (setKillStatusProcessExport m p).1 := by
  unfold setKillStatusProcessExport
  split_ifs
  · exact (wakeupProcess_sameCore m p).trans (.setExecMode _ p _)
  · exact .refl m

theorem sleepProcessP_sameCore (m : Memory) (p : Ptr) (time : ℤ) :
    SameCore m (sleepProcessP m p time) := by
  unfold sleepProcessP
  split_ifs
  · exact .setExecMode m p _
  · exact (SameCore.setExecMode m p _).trans (.setSleepTime _ p _)
  · exact .refl m

theorem unlinkOlder_sameCore (m : Memory) (p : Ptr) : SameCore m (unlinkOlder m p) := by
  unfold unlinkOlder
  split_ifs
  · exact (SameCore.follow m _).trans (.setNewProcess _ _ _)
  · exact .refl m

theorem unlinkNewer_sameCore (m : Memory) (p : Ptr) : SameCore m (unlinkNewer m p) := by
  unfold unlinkNewer
  split_ifs
  · exact (SameCore.follow m _).trans (.setParentOldestChild _ _ _)
  · exact (SameCore.follow m _).trans (.setOldestChild _ _ _)

theorem unlinkChildProcess_sameCore (m : Memory) (p : Ptr) :
    SameCore m (unlinkChildProcess m p) := by
  unfold unlinkChildProcess
  split_ifs
  · exact (unlinkOlder_sameCore m p).trans <| (unlinkNewer_sameCore _ p).trans <|
      .setRelative _ p 0
  · exact .refl m

theorem linkHead_sameCore (m : Memory) (root child : Ptr) :
    SameCore m (linkHead m root child) := by
  unfold linkHead
  split_ifs
  · exact (SameCore.follow m _).trans (.setNewProcess _ _ _)
  · exact .refl m

theorem linkChildProcess_sameCore (m : Memory) (root child : Ptr) :
    SameCore m (linkChildProcess m root child) := by
  unfold linkChildProcess
  exact (unlinkChildProcess_sameCore m child).trans <| (linkHead_sameCore _ root child).trans <|
    (SameCore.setParentOldestChild _ child _).trans <| (SameCore.setNewProcess _ child _).trans <|
    (SameCore.setOldestChild _ root _).trans <| .setRelative _ child _

theorem killChildProcess_sameCore {fuel : ℕ} {m m' : Memory} {p : Ptr}
    (h : killChildProcess fuel m p = .ok m') : SameCore m m' := by
  refine (killChild_rel (R := SameCore) .refl (fun _ _ _ => .trans) ?_ fuel).1 m p m' h
  intro m m' hw
  cases hw with
  | follow p => exact .follow m p
  | kill p => exact setKillStatusProcessExport_sameCore m p
  | clear p => exact .setOldestChild m p 0

theorem killProcess_sameCore {fuel : ℕ} {m m' : Memory} {p : Ptr}
    (h : killProcess fuel m p = .ok m') : SameCore m m' := by
  rw [killProcess] at h
  obtain ⟨m₁, h₁, h₂⟩ := bind_eq_ok.1 h
  cases h₂
  exact (killChildProcess_sameCore h₁).trans <| (unlinkChildProcess_sameCore m₁ p).trans <|
    setKillStatusProcessExport_sameCore _ p

/-- A loop over the run list that only acts on a range of priorities keeps the core when its body
does. -/
theorem forEachProcess_sameCore (body : Memory → Ptr → Except Stop Memory) {lo hi fuel : ℕ}
    {m m' : Memory} {p : Ptr} (hbody : ∀ m p m', body m p = .ok m' → SameCore m m')
    (h : forEachProcess (fun m p => if inPriority m lo hi p then body m p else .ok m) fuel m p =
      .ok m') : SameCore m m' := by
  refine forEachProcess_rel (R := SameCore) .refl (fun _ _ _ => .trans) ?_ h
  intro m p m' hb
  split at hb
  · exact hbody m p m' hb
  · cases hb
    exact .refl m

/-- A call that makes a new process. -/
def Api.creates : Api → Bool
  | .createProcess _ _ _ _ => true
  | .createChildProcess _ _ _ _ _ => true
  | _ => false

/-- **Only creation touches the core.** -/
theorem Api.run_sameCore {fuel : ℕ} {m m' : Memory} {a : Api} (ha : a.creates = false)
    (h : a.run fuel m = .ok m') : SameCore m m' := by
  cases a with
  | createProcess => cases ha
  | createChildProcess => cases ha
  | linkChildProcess root child =>
      cases h
      exact linkChildProcess_sameCore m root child
  | unlinkChildProcess p =>
      cases h
      exact unlinkChildProcess_sameCore m p
  | killChildProcess p => exact killChildProcess_sameCore h
  | killProcess p => exact killProcess_sameCore h
  | killPrioProcess lo hi =>
      exact forEachProcess_sameCore (Sched.killProcess fuel) (fun _ _ _ => killProcess_sameCore) h
  | sleepProcessP p time =>
      cases h
      exact sleepProcessP_sameCore m p time
  | sleepPrioProcess lo hi time =>
      refine forEachProcess_sameCore (fun m p => .ok (Sched.sleepProcessP m p time)) ?_ h
      intro m p m' hb
      cases hb
      exact sleepProcessP_sameCore m p time
  | wakeupProcess p =>
      cases h
      exact wakeupProcess_sameCore m p
  | wakeupPrioProcess lo hi =>
      refine forEachProcess_sameCore (fun m p => .ok (Sched.wakeupProcess m p)) ?_ h
      intro m p m' hb
      cases hb
      exact wakeupProcess_sameCore m p

end Sched
