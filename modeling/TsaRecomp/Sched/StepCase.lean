/-
**What a step can do.**

A step of the system goes through the host, whose functions are full of checks.  Under the
invariant every one of them is decided, so the cases of a step are few and their results can be
written down: this module gives them once (`StepCase`), and proves that every step is one of them
and that no step ends in a fatal error of the host, or in one of the `errstop`s that follow a
yield.

Main definitions:

* `Sched.Skips`, `Sched.Readies` — the visits of `CallProcess` that leave a process waiting, and
  those that run it;
* `Sched.EndProcessLeaves` — the memory in which `EndProcess` calls `TerminateProcess_Export`;
* `Sched.StepCase` — **the cases of a step**.

Main results:

* `Sched.step_settles` — under the invariant a step is one of the cases, or an `errstop`, or a loop
  that does not end, or not available;
* `Sched.step_cases` — the same for a step that is made.
-/

import TsaRecomp.Lib.Outcome
import TsaRecomp.Sched.Invariant

set_option relaxedAutoImplicit false
set_option autoImplicit false

namespace Sched

open Outcome

/-! ### The host at a switch -/

namespace ProcessRuntime

variable (r : ProcessRuntime) (key : Ptr)

/-- The host behind the first resume of a process. -/
def started (func : ProcessFunc) (sp : Ptr) : ProcessRuntime :=
  { r with nextCoroutine := r.nextCoroutine + 1 }.enter key (r.startedSlot key func sp .endProcess)

/-- The host behind a later resume. -/
def resumed (slot : ProcessSlot) (coro : Coroutine) (frames : List Frame) : ProcessRuntime :=
  r.enter key { slot with
    state := .running
    coro := some { coro with state := .running, frames := frames } }

/-- The host while the running coroutine is in other frames. -/
def reframed (slot : ProcessSlot) (coro : Coroutine) (frames : List Frame) : ProcessRuntime :=
  r.setSlot key (some { slot with coro := some { coro with frames := frames } })

/-- The host behind a yield. -/
def yielded (slot : ProcessSlot) (coro : Coroutine) (frames : List Frame) (reason : ℤ) :
    ProcessRuntime :=
  r.leave key { slot with
    state := if reason = yieldTerminate then .dead else .suspended
    coro := some { coro with state := .suspended, frames := frames } } reason

end ProcessRuntime

section Running

variable {r : ProcessRuntime} {key : Ptr} {slot : ProcessSlot} {coro : Coroutine}

theorem runningFrames_eq (hm : r.mcoRunning = some key) (hs : r.slots key = some slot)
    (hco : slot.coro = some coro) : r.runningFrames = coro.frames := by
  simp [ProcessRuntime.runningFrames, hm, hs, hco]

theorem setRunningFrames_eq {frames : List Frame} (hm : r.mcoRunning = some key)
    (hs : r.slots key = some slot) (hco : slot.coro = some coro) :
    r.setRunningFrames frames = r.reframed key slot coro frames := by
  simp [ProcessRuntime.setRunningFrames, ProcessRuntime.reframed, hm, hs, hco]

theorem runningId_enter (r : ProcessRuntime) (key : Ptr) (slot : ProcessSlot)
    (hco : slot.coro = some coro) : (r.enter key slot).runningId = some coro.id := by
  simp [ProcessRuntime.runningId, ProcessRuntime.enter, hco]

end Running

/-! ### The cases -/

/-- The visits of `CallProcess(time)` that leave the process waiting, with the memory they leave. -/
inductive Skips (m : Memory) (time : ℤ) (cur : Ptr) : Memory → Prop
  | paused (h : (m.record cur).execMode = .unk4) : Skips m time cur m
  | sleeping (h : (m.record cur).execMode = .sleeping) : Skips m time cur (sleepTick m cur time)
  | watching (h : (m.record cur).execMode = .watch) (hc : (m.record cur).oldestChild ≠ 0) :
      Skips m time cur m

/-- The visits that run the process, with memory, host and history as they are at `run_process:`. -/
inductive Readies (m : Memory) (r : ProcessRuntime) (cur : Ptr) :
    Memory → ProcessRuntime → List Event → Prop
  | default (h : (m.record cur).execMode = .default) : Readies m r cur m r []
  | childless (h : (m.record cur).execMode = .watch) (hc : (m.record cur).oldestChild = 0) :
      Readies m r cur (m.setExecMode cur .default) r []
  | dead (h : (m.record cur).execMode = .dead) :
      Readies m r cur (m.setPrcJumpFunc cur .endProcess) (r.setSlot cur none)
        [.coroutineDestroyed cur]

/-- What `EndProcess` leaves when it calls `TerminateProcess_Export`. -/
def EndProcessLeaves (m : Memory) (process : Ptr) (m' : Memory) : Prop :=
  ∃ fuel m₁, killChildProcess fuel m process = .ok m₁ ∧ m' = unlinkChildProcess m₁ process

/-- The running process calls `EndProcess`, or `process_coro_entry` does for it. -/
def CallsEndProcess (a : Act) (coro : Coroutine) : Prop :=
  a = .endProcess ∨ a = .returnFrom ∧ ∃ f frames, coro.frames = .entry f :: frames

theorem CallsEndProcess.act {a : Act} {coro : Coroutine} (h : CallsEndProcess a coro) :
    a = .endProcess ∨ a = .returnFrom := h.imp id And.left

/-- The place of a running process: where control is, its slot and its coroutine. -/
structure InCoroutine (s : Sys) (time : ℤ) (cur next : Ptr) (slot : ProcessSlot)
    (coro : Coroutine) : Prop where
  control : s.control = .running time cur next
  current : s.mem.currentProcess = cur
  running : s.host.mcoRunning = some cur
  slot_eq : s.host.slots cur = some slot
  coro_eq : slot.coro = some coro
  slotState : RunningSlot s.mem cur slot

/-- The history of a return from the frame a coroutine was suspended in. -/
def Frame.returns : Frame → List Event
  | .watchChildProcess process => [.watchReturned process]
  | _ => []

/-- **The cases of a step.** -/
inductive StepCase (s : Sys) : Act → Sys → Prop
  | initProcess (hc : s.control = .outside) :
      StepCase s .initProcess { s with mem := initProcess s.mem, host := s.host.cleared }
  | callProcess (time : ℤ) (hc : s.control = .outside) :
      StepCase s (.callProcess time) { s with
        mem := { s.mem with currentProcess := s.mem.topProcess }
        control := .loop time
        log := .called time :: s.log }
  | finish (time : ℤ) (hc : s.control = .loop time) (h0 : s.mem.currentProcess = 0) :
      StepCase s .tick { s with control := .outside }
  | skip {time : ℤ} {cur : Ptr} {m : Memory} (hc : s.control = .loop time)
      (hcur : s.mem.currentProcess = cur) (hp : cur ∈ s.mem.procs) (hm : Skips s.mem time cur m) :
      StepCase s .tick { s with mem := advance m cur, log := .visited cur :: s.log }
  | start {time : ℤ} {cur : Ptr} {m : Memory} {r : ProcessRuntime} {evs : List Event}
      (hc : s.control = .loop time) (hcur : s.mem.currentProcess = cur) (hp : cur ∈ s.mem.procs)
      (hr : Readies s.mem s.host cur m r evs) (hs : r.slots cur = none) :
      StepCase s .tick { s with
        mem := { m with pendingHeapFree := 0 }
        host := r.started cur (m.record cur).prcJumpFunc (m.record cur).prcJumpSp
        control := .running time cur (m.record cur).next
        log := .resumed cur (some r.nextCoroutine) :: evs ++ .visited cur :: s.log }
  | resume {time : ℤ} {cur : Ptr} {m : Memory} {slot : ProcessSlot} {coro : Coroutine}
      {frame : Frame} {frames : List Frame} (hc : s.control = .loop time)
      (hcur : s.mem.currentProcess = cur) (hp : cur ∈ s.mem.procs)
      (hr : Readies s.mem s.host cur m s.host []) (hs : s.host.slots cur = some slot)
      (hco : slot.coro = some coro) (hf : coro.frames = frame :: frames) (hw : frame.waits cur) :
      StepCase s .tick { s with
        mem := { m with pendingHeapFree := 0 }
        host := s.host.resumed cur slot coro frames
        control := .running time cur (m.record cur).next
        log := frame.returns ++ .resumed cur (some coro.id) :: .visited cur :: s.log }
  | yieldedNormal {time : ℤ} {cur next : Ptr} (hc : s.control = .yielded time cur next yieldNormal)
      (hp : cur ∈ s.mem.procs) :
      StepCase s .tick { s with mem := advance s.mem cur, control := .loop time }
  | yieldedTerminate {time : ℤ} {cur next : Ptr}
      (hc : s.control = .yielded time cur next yieldTerminate) (hp : cur ∉ s.mem.procs)
      (hl : cur ∈ s.mem.live) (hheap : s.mem.pendingHeapFree = (s.mem.record cur).heap) :
      StepCase s .tick { s with
        mem := { freeHeap s.mem s.mem.pendingHeapFree with
          pendingHeapFree := 0
          currentProcess := next }
        host := s.host.setSlot cur none
        control := .loop time
        log := .heapFreed s.mem.pendingHeapFree :: .coroutineDestroyed cur :: s.log }
  | api {a : Api} {fuel : ℕ} {m : Memory} (hc : s.mayCall) (hv : a.valid s.mem)
      (hm : a.run fuel s.mem = .ok m) :
      StepCase s (.api a) { s with mem := m, log := a.events ++ s.log }
  | setProcessDestruct {time : ℤ} {cur next : Ptr} {slot : ProcessSlot} {coro : Coroutine}
      (f : Option ProcessFunc) (hr : InCoroutine s time cur next slot coro) :
      StepCase s (.setProcessDestruct f) { s with mem := s.mem.setDestructor cur f }
  | sleepProcess {time : ℤ} {cur next : Ptr} {slot : ProcessSlot} {coro : Coroutine} (t : ℤ)
      (hr : InCoroutine s time cur next slot coro) :
      StepCase s (.sleepProcess t) { s with
        mem := sleepCurrent s.mem cur t
        host := s.host.yielded cur slot coro (.sleepProcess cur :: coro.frames) yieldNormal
        control := .yielded time cur next yieldNormal }
  | watchChildProcess {time : ℤ} {cur next : Ptr} {slot : ProcessSlot} {coro : Coroutine}
      (hr : InCoroutine s time cur next slot coro) (hch : (s.mem.record cur).oldestChild ≠ 0) :
      StepCase s .watchChildProcess { s with
        mem := s.mem.setExecMode cur .watch
        host := s.host.yielded cur slot coro (.watchChildProcess cur :: coro.frames) yieldNormal
        control := .yielded time cur next yieldNormal }
  | watchNoChild {time : ℤ} {cur next : Ptr} {slot : ProcessSlot} {coro : Coroutine}
      (hr : InCoroutine s time cur next slot coro) (hch : (s.mem.record cur).oldestChild = 0) :
      StepCase s .watchChildProcess { s with log := .watchReturned cur :: s.log }
  | destruct {a : Act} {time : ℤ} {cur next : Ptr} {slot : ProcessSlot} {coro : Coroutine}
      {m : Memory} {f : ProcessFunc} (hr : InCoroutine s time cur next slot coro)
      (ha : CallsEndProcess a coro) (hm : EndProcessLeaves s.mem cur m)
      (hd : (m.record cur).destructor = some f) :
      StepCase s a { s with
        mem := m
        host := s.host.reframed cur slot coro (.destructor cur f :: coro.frames)
        log := .destructorStarted cur :: s.log }
  | terminate {a : Act} {time : ℤ} {cur next : Ptr} {slot : ProcessSlot} {coro : Coroutine}
      {m : Memory} (hr : InCoroutine s time cur next slot coro)
      (ha : CallsEndProcess a coro) (hm : EndProcessLeaves s.mem cur m)
      (hd : (m.record cur).destructor = none) :
      StepCase s a { s with
        mem := terminated m cur
        host := s.host.yielded cur slot coro (.terminateProcess cur :: coro.frames) yieldTerminate
        control := .yielded time cur next yieldTerminate
        log := .terminated cur :: s.log }
  | destructed {time : ℤ} {cur next : Ptr} {slot : ProcessSlot} {coro : Coroutine}
      {f : ProcessFunc} {frames : List Frame} (hr : InCoroutine s time cur next slot coro)
      (hf : coro.frames = .destructor cur f :: frames) :
      StepCase s .returnFrom { s with
        mem := terminated s.mem cur
        host := s.host.yielded cur slot coro (.terminateProcess cur :: frames) yieldTerminate
        control := .yielded time cur next yieldTerminate
        log := .terminated cur :: s.log }
  | scribble {p : Ptr} (r : Process) (hp : p ∉ s.mem.live) :
      StepCase s (.scribble p r) { s with mem := s.mem.modify p fun _ => r }
  | overwriteGuards (p : Ptr) (stackGuard heapGuard : ℕ) :
      StepCase s (.overwriteGuards p stackGuard heapGuard) { s with
        mem := s.mem.modify p fun r => { r with stackGuard := stackGuard, heapGuard := heapGuard } }

/-! ### Errors -/

/-- Neither a fatal error of the host nor one of the two `errstop`s behind a yield. -/
def Stop.proper : Stop → Prop
  | .fatal _ => False
  | .errstop format => format ≠ "Process : terminate without pending heap\n" ∧
      format ≠ "Process : unknown yield reason %d\n"
  | _ => True

theorem validateProcessState_settles (m : Memory) (process : Ptr) :
    Settles Stop.proper (fun _ => True) (validateProcessState m process) := by
  unfold validateProcessState
  dsimp only
  split_ifs <;> simp [Stop.proper]

theorem linkWalk_settles (m : Memory) (process : Ptr) : ∀ (fuel : ℕ) (src : Ptr),
    Settles Stop.proper (fun _ => True) (linkWalk m process fuel src) := by
  intro fuel
  induction fuel with
  | zero =>
      intro src
      trivial
  | succ fuel ih =>
      intro src
      rw [linkWalk]
      split
      · exact ih _
      · trivial

theorem createProcess_settles (fuel : ℕ) (m : Memory) (b : Block) (func : ProcessFunc)
    (priority stackSize : ℕ) :
    Settles Stop.proper (fun _ => True) (createProcess fuel m b func priority stackSize) := by
  unfold createProcess linkProcessExport
  split
  · simp [Stop.proper]
  · refine Settles.bind (P := fun _ => True) ?_ fun _ _ => trivial
    dsimp only
    split
    · exact (linkWalk_settles _ _ _ _).bind fun _ _ => trivial
    · trivial

theorem killChild_settles : ∀ (fuel : ℕ),
    (∀ m p, Settles Stop.proper (fun _ => True) (killChildProcess fuel m p)) ∧
    (∀ m p, Settles Stop.proper (fun _ => True) (killChildLoop fuel m p)) := by
  intro fuel
  induction fuel with
  | zero => exact ⟨fun m p => trivial, fun m p => trivial⟩
  | succ fuel ih =>
      refine ⟨?_, ?_⟩
      · intro m p
        rw [killChildProcess]
        exact (ih.2 _ _).bind fun _ _ => trivial
      · intro m p
        rw [killChildLoop]
        split
        · trivial
        · refine Settles.bind (P := fun _ => True) ?_ fun m _ => ih.2 _ _
          split
          · exact ih.1 _ _
          · trivial

theorem killProcess_settles (fuel : ℕ) (m : Memory) (p : Ptr) :
    Settles Stop.proper (fun _ => True) (killProcess fuel m p) :=
  ((killChild_settles fuel).1 m p).bind fun _ _ => trivial

theorem forEachProcess_settles {body : Memory → Ptr → Except Stop Memory}
    (hbody : ∀ m p, Settles Stop.proper (fun _ => True) (body m p)) : ∀ (fuel : ℕ) m p,
      Settles Stop.proper (fun _ => True) (forEachProcess body fuel m p) := by
  intro fuel
  induction fuel with
  | zero =>
      intro m p
      trivial
  | succ fuel ih =>
      intro m p
      rw [forEachProcess]
      split
      · trivial
      · exact (hbody m p).bind fun _ _ => ih _ _

/-- A call does not reach the host. -/
theorem Api.run_settles (fuel : ℕ) (m : Memory) (a : Api) :
    Settles Stop.proper (fun _ => True) (a.run fuel m) := by
  cases a with
  | createProcess b func priority stackSize => exact createProcess_settles ..
  | createChildProcess b func priority stackSize root =>
      exact (createProcess_settles ..).bind fun _ _ => trivial
  | killChildProcess p => exact (killChild_settles fuel).1 m p
  | killProcess p => exact killProcess_settles fuel m p
  | killPrioProcess lo hi =>
      refine forEachProcess_settles ?_ _ _ _
      intro m p
      split
      · exact killProcess_settles fuel m p
      · trivial
  | sleepPrioProcess lo hi time =>
      refine forEachProcess_settles ?_ _ _ _
      intro m p
      split <;> trivial
  | wakeupPrioProcess lo hi =>
      refine forEachProcess_settles ?_ _ _ _
      intro m p
      split <;> trivial
  | _ => trivial

/-! ### The visits -/

/-- What is known at the head of the loop of `CallProcess`, of a process that is visited. -/
structure AtVisit (s : Sys) (time : ℤ) (cur : Ptr) : Prop where
  control : s.control = .loop time
  current : s.mem.currentProcess = cur
  mem : cur ∈ s.mem.procs
  ne_null : cur ≠ 0
  initialized : s.host.initialized = true
  idle : Idle s.host
  slots : AllSuspended s.mem s.host

/-- **`run_process:`** starts a coroutine, or resumes the one that waits. -/
theorem runProcess_settles {s : Sys} {time : ℤ} {cur : Ptr} {m : Memory} {r : ProcessRuntime}
    {evs : List Event} (hv : AtVisit s time cur) (hr : Readies s.mem s.host cur m r evs) :
    Settles Stop.proper (StepCase s .tick)
      (runProcess { s with mem := m, host := r, log := evs ++ .visited cur :: s.log } time
        cur) := by
  obtain ⟨hc, hcur, hp, h0, hi, ⟨hcs, hmr⟩, hall⟩ := hv
  have hi' : r.initialized = true := by cases hr <;> exact hi
  have hcs' : r.currentSlot = none := by cases hr <;> exact hcs
  unfold runProcess
  dsimp only
  cases hs : r.slots cur with
  | none =>
      rw [ProcessRuntime.switchIn_fresh hi' hcs' h0 hs]
      have hid := runningId_enter { r with nextCoroutine := r.nextCoroutine + 1 } cur
        (r.startedSlot cur (m.record cur).prcJumpFunc (m.record cur).prcJumpSp .endProcess) rfl
      simp only [bind, Except.bind, hid]
      exact .start hc hcur hp hr hs
  | some slot =>
      -- a slot that waits is not that of a killed process, whose slot has just been destroyed
      obtain ⟨rfl, rfl, hjump, hsp⟩ : r = s.host ∧ evs = [] ∧
          (m.record cur).prcJumpFunc = (s.mem.record cur).prcJumpFunc ∧
          (m.record cur).prcJumpSp = (s.mem.record cur).prcJumpSp := by
        cases hr with
        | default => exact ⟨rfl, rfl, rfl, rfl⟩
        | childless => exact ⟨rfl, rfl, by simp, by simp⟩
        | dead => simp at hs
      obtain ⟨-, hslot, hstate, coro, frame, frames, hco, hst, hfr, hw, -, -⟩ := hall cur slot hs
      rw [ProcessRuntime.switchIn_suspended hi hcs h0 hs (by simp [hstate])
        (hslot.entryFunc.trans hjump.symm) hslot.endFunc (hslot.initialSp.trans hsp.symm) hco hst
        hfr (by rcases hw with rfl | rfl <;> simp)]
      have hcase := StepCase.resume hc hcur hp hr hs hco hfr hw
      have hid := runningId_enter s.host cur
        ({ slot with
          state := .running
          coro := some { coro with state := .running, frames := frames } }) rfl
      simp only [bind, Except.bind, hid]
      rcases hw with rfl | rfl
      · exact (validateProcessState_settles _ cur).bind fun _ _ => hcase
      · exact (validateProcessState_settles _ cur).bind fun _ _ => hcase

theorem currentProcess_sleepTick (m : Memory) (p : Ptr) (time : ℤ) :
    (sleepTick m p time).currentProcess = m.currentProcess := by
  unfold sleepTick
  dsimp only
  split_ifs <;> rfl

/-- **A round of `CallProcess`**, up to the switch into the process. -/
theorem visit_settles {s : Sys} {time : ℤ} (h : SysInv s) (hc : s.control = .loop time) :
    Settles Stop.proper (StepCase s .tick) (visit s time) := by
  have hplace := h.place
  rw [hc] at hplace
  obtain ⟨hcur, hidle, hall⟩ := hplace
  unfold visit
  dsimp only
  by_cases h0 : s.mem.currentProcess = 0
  · rw [if_pos h0]
    exact .finish time hc h0
  · rw [if_neg h0]
    have hp := hcur.resolve_left h0
    have hv : AtVisit s time s.mem.currentProcess := ⟨hc, rfl, hp, h0, h.initialized, hidle, hall⟩
    cases hmode : (s.mem.record s.mem.currentProcess).execMode with
    | unk4 => exact .skip hc rfl hp (.paused hmode)
    | sleeping =>
        dsimp only
        rw [currentProcess_sleepTick]
        exact .skip hc rfl hp (.sleeping hmode)
    | watch =>
        dsimp only
        by_cases hch : (s.mem.record s.mem.currentProcess).oldestChild = 0
        · rw [if_neg (not_not.2 hch)]
          exact runProcess_settles hv (.childless hmode hch)
        · rw [if_pos hch]
          exact .skip hc rfl hp (.watching hmode hch)
    | dead =>
        dsimp only
        rw [ProcessRuntime.recompProcessDestroy_eq h0 hidle.1]
        exact runProcess_settles hv (.dead hmode)
    | default => exact runProcess_settles hv (.default hmode)

/-- What is known behind the yield of a terminated process. -/
theorem SysInv.atTerminate {s : Sys} {time : ℤ} {cur next : Ptr} (h : SysInv s)
    (hc : s.control = .yielded time cur next yieldTerminate) :
    cur ∉ s.mem.procs ∧ cur ∈ s.mem.live ∧ s.mem.pendingHeapFree = (s.mem.record cur).heap ∧
      NextOk s.mem cur next ∧ Idle s.host := by
  have hplace := h.place
  rw [hc] at hplace
  obtain ⟨-, hnext, hidle, ⟨hr, -⟩ | ⟨-, hp, hl, hheap, -⟩⟩ := hplace
  · cases hr
  · exact ⟨hp, hl, hheap, hnext, hidle⟩

/-- **The end of a terminated process.** -/
theorem handleYield_terminate {s : Sys} {time : ℤ} {cur next : Ptr} (h : SysInv s)
    (hc : s.control = .yielded time cur next yieldTerminate) :
    handleYield s time cur next yieldTerminate = .ok { s with
      mem := { freeHeap s.mem s.mem.pendingHeapFree with
        pendingHeapFree := 0
        currentProcess := next }
      host := s.host.setSlot cur none
      control := .loop time
      log := .heapFreed s.mem.pendingHeapFree :: .coroutineDestroyed cur :: s.log } := by
  obtain ⟨-, hl, hheap, -, hidle⟩ := h.atTerminate hc
  have hpend : s.mem.pendingHeapFree ≠ 0 := hheap ▸ h.mem.heap_ne cur hl
  rw [handleYield, if_pos rfl,
    ProcessRuntime.recompProcessDestroy_eq (h.mem.ne_null hl) hidle.1]
  simp only [bind, Except.bind, if_pos hpend]

/-- **The end of a round.** -/
theorem handleYield_settles {s : Sys} {time : ℤ} {cur next : Ptr} {reason : ℤ} (h : SysInv s)
    (hc : s.control = .yielded time cur next reason) :
    Settles Stop.proper (StepCase s .tick) (handleYield s time cur next reason) := by
  have hplace := h.place
  rw [hc] at hplace
  obtain ⟨-, -, -, ⟨rfl, hp, -⟩ | ⟨rfl, hp, hl, hheap, -⟩⟩ := hplace
  · rw [handleYield, if_neg (by decide), if_pos (Or.inl rfl)]
    exact (validateProcessState_settles _ cur).bind fun _ _ => .yieldedNormal hc hp
  · rw [handleYield_terminate h hc]
    exact .yieldedTerminate hc hp hl hheap

/-! ### The running process -/

theorem SysInv.running_mem {s : Sys} {time : ℤ} {cur next : Ptr} (h : SysInv s)
    (hc : s.control = .running time cur next) : cur ∈ s.mem.procs := by
  have hplace := h.place
  rw [hc] at hplace
  exact hplace.2.1

theorem SysInv.inCoroutine {s : Sys} {time : ℤ} {cur next : Ptr} (h : SysInv s)
    (hc : s.control = .running time cur next) :
    ∃ slot coro, InCoroutine s time cur next slot coro ∧ s.host.currentSlot = some cur := by
  have hplace := h.place
  rw [hc] at hplace
  obtain ⟨hcur, -, -, hcs, hmr, ⟨slot, hs, hrun⟩, -⟩ := hplace
  obtain ⟨coro, hco, -⟩ := hrun.coro
  exact ⟨slot, coro, ⟨hc, hcur, hmr, hs, hco, hrun⟩, hcs⟩

theorem Sys.running_of_inFunction {s : Sys} (h : s.inFunction = true) :
    ∃ time cur next, s.control = .running time cur next := by
  unfold Sys.inFunction at h
  split at h
  · next hc _ => exact ⟨_, _, _, hc⟩
  · next hc _ => exact ⟨_, _, _, hc⟩
  · cases h

theorem Sys.inFunction_of_userCode {s : Sys} (h : s.userCode = true) : s.inFunction = true := by
  unfold Sys.userCode at h
  unfold Sys.inFunction
  split at h
  · rfl
  · rfl
  · cases h

/-- **A yield of the running process.** -/
theorem yieldToScheduler_settles {s : Sys} {time : ℤ} {cur next : Ptr} (slot : ProcessSlot)
    {coro : Coroutine} {reason : ℤ} {frame : Frame} {P : Sys → Prop}
    (hc : s.control = .running time cur next) (hcs : s.host.currentSlot = some cur)
    (hmr : s.host.mcoRunning = some cur) (hs : s.host.slots cur = some slot)
    (hco : slot.coro = some coro) (hst : coro.state = .running)
    (hk : isKnownYieldReason reason = true)
    (hP : P { s with
      host := s.host.yielded cur slot coro (frame :: coro.frames) reason
      control := .yielded time cur next reason }) :
    Settles Stop.proper P (yieldToScheduler s reason frame) := by
  unfold yieldToScheduler
  refine Settles.bind (P := fun _ => True) ?_ ?_
  · split
    · exact validateProcessState_settles _ _
    · trivial
  · intro _ _
    rw [ProcessRuntime.switchOut_running hcs hmr hs hco hst hk]
    simp only [bind, Except.bind, hc]
    exact hP

theorem InCoroutine.state {s : Sys} {time : ℤ} {cur next : Ptr} {slot : ProcessSlot}
    {coro : Coroutine} (hr : InCoroutine s time cur next slot coro) : coro.state = .running := by
  obtain ⟨coro', hco', hst, -⟩ := hr.slotState.coro
  obtain rfl : coro' = coro := Option.some.inj (hco'.symm.trans hr.coro_eq)
  exact hst

theorem InCoroutine.frames_eq {s : Sys} {time : ℤ} {cur next : Ptr} {slot : ProcessSlot}
    {coro : Coroutine} (hr : InCoroutine s time cur next slot coro) :
    s.host.runningFrames = coro.frames :=
  runningFrames_eq hr.running hr.slot_eq hr.coro_eq

/-- The end of `TerminateProcess_Export`, with the running coroutine in the frames `frames`. -/
theorem terminateTail_settles {s : Sys} {time : ℤ} {cur next : Ptr} {slot : ProcessSlot}
    {coro : Coroutine} (m : Memory) (frames : List Frame) {P : Sys → Prop}
    (hr : InCoroutine s time cur next slot coro) (hcs : s.host.currentSlot = some cur)
    (hP : P { s with
      mem := terminated m cur
      host := s.host.yielded cur slot coro (.terminateProcess cur :: frames) yieldTerminate
      control := .yielded time cur next yieldTerminate
      log := .terminated cur :: s.log }) :
    Settles Stop.proper P
      (terminateTail { s with mem := m, host := s.host.reframed cur slot coro frames } cur) := by
  refine yieldToScheduler_settles { slot with coro := some { coro with frames := frames } }
    hr.control hcs hr.running (by simp [ProcessRuntime.reframed]) rfl hr.state (by decide) ?_
  simpa only [ProcessRuntime.reframed, ProcessRuntime.yielded, ProcessRuntime.leave_setSlot]
    using hP

/-- **`EndProcess`** -/
theorem endProcess_settles {s : Sys} {time : ℤ} {cur next : Ptr} {slot : ProcessSlot}
    {coro : Coroutine} {fuel : ℕ} {a : Act} (hr : InCoroutine s time cur next slot coro)
    (hcs : s.host.currentSlot = some cur) (ha : CallsEndProcess a coro) :
    Settles Stop.proper (StepCase s a) (endProcess fuel s) := by
  unfold endProcess
  dsimp only
  rw [hr.current]
  refine (((killChild_settles fuel).1 s.mem cur).and_of fun _ h => h).bind ?_
  intro m₁ hm₁
  have hm : EndProcessLeaves s.mem cur (unlinkChildProcess m₁ cur) := ⟨fuel, m₁, hm₁.2, rfl⟩
  unfold terminateProcessExport
  dsimp only
  split
  · next f hd =>
      rw [setRunningFrames_eq hr.running hr.slot_eq hr.coro_eq, hr.frames_eq]
      exact .destruct hr ha hm hd
  · next hd =>
      have hself : s.host.reframed cur slot coro coro.frames = s.host := by
        refine ProcessRuntime.setSlot_eq_self ?_
        rw [hr.slot_eq, ← hr.coro_eq]
      have := terminateTail_settles (unlinkChildProcess m₁ cur) coro.frames hr hcs
        (StepCase.terminate hr ha hm hd)
      rwa [hself] at this

/-! ### The step -/

/-- **Under the invariant a step is one of the cases**, or stops, but not in the host. -/
theorem step_settles {s : Sys} (h : SysInv s) (fuel : ℕ) (a : Act) :
    Settles Stop.proper (StepCase s a) (step fuel s a) := by
  cases a with
  | initProcess =>
      rw [step]
      split
      · next hc =>
          have hplace := h.place
          rw [hc] at hplace
          rw [ProcessRuntime.reset_eq hplace.2.1.1]
          exact .initProcess hc
      · trivial
  | callProcess time =>
      rw [step]
      split
      · next hc => exact .callProcess time hc
      · trivial
  | tick =>
      rw [step]
      split
      · next time hc => exact visit_settles h hc
      · next time cur next reason hc => exact handleYield_settles h hc
      · trivial
  | api a =>
      rw [step]
      split
      · next hv =>
          refine ((Api.run_settles fuel s.mem a).and_of fun _ h => h).bind ?_
          intro m hm
          exact .api hv.1 hv.2 hm.2
      · trivial
  | setProcessDestruct f =>
      rw [step]
      split
      · next hu =>
          obtain ⟨time, cur, next, hc⟩ := Sys.running_of_inFunction (Sys.inFunction_of_userCode hu)
          obtain ⟨slot, coro, hr, -⟩ := h.inCoroutine hc
          have := StepCase.setProcessDestruct f hr
          rwa [← hr.current] at this
      · trivial
  | sleepProcess t =>
      rw [step]
      split
      · next hu =>
          obtain ⟨time, cur, next, hc⟩ := Sys.running_of_inFunction (Sys.inFunction_of_userCode hu)
          obtain ⟨slot, coro, hr, hcs⟩ := h.inCoroutine hc
          unfold sleepProcess
          dsimp only
          rw [hr.current]
          exact yieldToScheduler_settles slot hc hcs hr.running hr.slot_eq hr.coro_eq hr.state
            (by decide) (.sleepProcess t hr)
      · trivial
  | watchChildProcess =>
      rw [step]
      split
      · next hu =>
          obtain ⟨time, cur, next, hc⟩ := Sys.running_of_inFunction (Sys.inFunction_of_userCode hu)
          obtain ⟨slot, coro, hr, hcs⟩ := h.inCoroutine hc
          unfold watchChildProcess
          dsimp only
          rw [hr.current]
          split
          · next hch =>
              exact yieldToScheduler_settles slot hc hcs hr.running hr.slot_eq hr.coro_eq hr.state
                (by decide) (.watchChildProcess hr hch)
          · next hch => exact .watchNoChild hr (not_not.1 hch)
      · trivial
  | endProcess =>
      rw [step]
      split
      · next hu =>
          obtain ⟨time, cur, next, hc⟩ := Sys.running_of_inFunction hu
          obtain ⟨slot, coro, hr, hcs⟩ := h.inCoroutine hc
          exact endProcess_settles hr hcs (Or.inl rfl)
      · trivial
  | returnFrom =>
      rw [step]
      split
      · next hu =>
          obtain ⟨time, cur, next, hc⟩ := Sys.running_of_inFunction (Sys.inFunction_of_userCode hu)
          obtain ⟨slot, coro, hr, hcs⟩ := h.inCoroutine hc
          unfold returnFrom
          rw [hr.frames_eq]
          split
          · next f frames hf => exact endProcess_settles hr hcs (Or.inr ⟨rfl, f, frames, hf⟩)
          · next process f frames hf =>
              -- a destructor frame is that of the running process
              obtain ⟨coro', hco', -, -, hcode⟩ := hr.slotState.coro
              obtain rfl : coro' = coro := Option.some.inj (hco'.symm.trans hr.coro_eq)
              obtain rfl : process = cur := by
                rcases hcode (.destructor process f) (by simp [hf]) with ⟨g, hg⟩ | ⟨g, hg⟩
                · cases hg
                · cases hg
                  rfl
              rw [setRunningFrames_eq hr.running hr.slot_eq hr.coro_eq]
              exact terminateTail_settles _ _ hr hcs (.destructed hr hf)
          · trivial
      · trivial
  | scribble p r =>
      rw [step]
      split
      · trivial
      · next hp => exact .scribble r hp
  | overwriteGuards p stackGuard heapGuard => exact .overwriteGuards p stackGuard heapGuard

/-- **A step is one of the cases.** -/
theorem step_cases {s t : Sys} {a : Act} (h : SysInv s) (hs : Step s a t) : StepCase s a t := by
  obtain ⟨fuel, hs⟩ := hs
  exact (step_settles h fuel a).of_ok hs

end Sched
