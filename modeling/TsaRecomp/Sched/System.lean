/-
**The scheduler as a transition system.**

`CallProcess` walks the run list and resumes the coroutines of the processes that are due; a
resumed process runs until it yields or ends.  The system state is the memory of the scheduler,
the host runtime, and the place control is at: outside of `CallProcess`, at the head of its loop,
inside a resumed coroutine, or just behind the return of `recomp_process_resume`.

What the code of the game does is not modelled: at any point outside of `CallProcess`, and at any
point of a process's own code or of a destructor, any call may be made.  Memory that is not
allocated may change at any time, and so may the two guard words a stack overflow damages.

Main definitions:

* `Sched.Sys`, `Sched.Control`, `Sched.Event` — states, places of control, and the history a run
  leaves;
* `Sched.visit`, `Sched.runProcess`, `Sched.handleYield` — the body of `CallProcess`'s loop;
* `Sched.terminateProcessExport`, `Sched.endProcess`, `Sched.sleepProcess`,
  `Sched.watchChildProcess` — the functions that switch coroutines;
* `Sched.Act`, `Sched.step` — the actions and their effect; `Sched.Reachable` — the states of the
  runs that start with `InitProcess`.
-/

import TsaRecomp.Lib.Runs
import TsaRecomp.Sched.ProcessC
import TsaRecomp.Sched.Runtime

set_option relaxedAutoImplicit false
set_option autoImplicit false

namespace Sched

/-! ### States -/

/-- Where control is. -/
inductive Control
  /-- Not in `CallProcess`. -/
  | outside
  /-- At the head of the `while (1)` loop of `CallProcess(time)`. -/
  | loop (time : ℤ)
  /-- In the coroutine that `CallProcess(time)` has resumed. -/
  | running (time : ℤ) (curProcLocal nextProc : Ptr)
  /-- Behind the return of `recomp_process_resume`. -/
  | yielded (time : ℤ) (curProcLocal nextProc : Ptr) (yieldReason : ℤ)
  deriving DecidableEq, Repr

/-- What a run leaves in its history. -/
inductive Event
  | created (process heap : Ptr)
  | called (time : ℤ)
  | visited (process : Ptr)
  | resumed (process : Ptr) (coroutine : Option ℕ)
  | watchReturned (process : Ptr)
  | destructorStarted (process : Ptr)
  | terminated (process : Ptr)
  | coroutineDestroyed (process : Ptr)
  | heapFreed (heap : Ptr)
  deriving DecidableEq, Repr

/-- A state of the system.  The history is newest first. -/
structure Sys where
  mem : Memory
  host : ProcessRuntime
  control : Control
  log : List Event

/-- The running coroutine is in the code of the game: in its entry function or in a destructor. -/
def Sys.userCode (s : Sys) : Bool :=
  match s.control, s.host.runningFrames with
  | .running _ _ _, .entry f :: _ => f ≠ .endProcess
  | .running _ _ _, .destructor _ f :: _ => f ≠ .endProcess
  | _, _ => false

/-- Calls can be made: by the code outside of the scheduler, or by a process. -/
def Sys.mayCall (s : Sys) : Bool := s.control = .outside || s.userCode

/-! ### Switching coroutines -/

/-- `yield_to_scheduler`, up to the return of `recomp_process_resume` in `CallProcess`.  The frame
is the function that yields. -/
def yieldToScheduler (s : Sys) (reason : ℤ) (frame : Frame) : Except Stop Sys := do
  let process := s.mem.currentProcess
  (if reason ≠ yieldTerminate then validateProcessState s.mem process else .ok ())
  let (host, yieldReason) ← s.host.switchOut reason frame
  match s.control with
  | .running time cur next =>
      .ok { s with host := host, control := .yielded time cur next yieldReason }
  | _ => .error .disabled

/-- The memory `TerminateProcess_Export` leaves: the process is off the run list, and its heap is
pending.  The heap is read before the process is unlinked. -/
def terminated (m : Memory) (process : Ptr) : Memory :=
  let heapToFree := (m.record process).heap
  let m' := unlinkProcessExport m process
  { m' with
    processCount := u16Dec m'.processCount
    procs := m'.procs.erase process
    pendingHeapFree := heapToFree }

/-- `TerminateProcess_Export`, from the return of the destructor. -/
def terminateTail (s : Sys) (process : Ptr) : Except Stop Sys :=
  yieldToScheduler
    { s with mem := terminated s.mem process, log := .terminated process :: s.log }
    yieldTerminate (.terminateProcess process)

/-- `TerminateProcess_Export`.  The destructor is a call in the running coroutine. -/
def terminateProcessExport (s : Sys) (process : Ptr) : Except Stop Sys :=
  match (s.mem.record process).destructor with
  | some f =>
      .ok { s with
        host := s.host.setRunningFrames (.destructor process f :: s.host.runningFrames)
        log := .destructorStarted process :: s.log }
  | none => terminateTail s process

/-- `EndProcess` -/
def endProcess (fuel : ℕ) (s : Sys) : Except Stop Sys := do
  let process := s.mem.currentProcess
  let m ← killChildProcess fuel s.mem process
  let m := unlinkChildProcess m process
  terminateProcessExport { s with mem := m } process

/-- The memory `SleepProcess` leaves. -/
def sleepCurrent (m : Memory) (process : Ptr) (time : ℤ) : Memory :=
  if time ≠ 0 ∧ (m.record process).execMode ≠ .dead then
    (m.setExecMode process .sleeping).setSleepTime process time
  else m

/-- `SleepProcess`; `SleepVProcess` is `SleepProcess(0)`. -/
def sleepProcess (s : Sys) (time : ℤ) : Except Stop Sys :=
  let process := s.mem.currentProcess
  yieldToScheduler { s with mem := sleepCurrent s.mem process time } yieldNormal
    (.sleepProcess process)

/-- `WatchChildProcess` -/
def watchChildProcess (s : Sys) : Except Stop Sys :=
  let process := s.mem.currentProcess
  if (s.mem.record process).oldestChild ≠ 0 then
    yieldToScheduler { s with mem := s.mem.setExecMode process .watch } yieldNormal
      (.watchChildProcess process)
  else .ok { s with log := .watchReturned process :: s.log }

/-- A function of the game returns: the entry function, behind which `process_coro_entry` calls
`EndProcess`, or a destructor. -/
def returnFrom (fuel : ℕ) (s : Sys) : Except Stop Sys :=
  match s.host.runningFrames with
  | .entry _ :: _ => endProcess fuel s
  | .destructor process _ :: frames =>
      terminateTail { s with host := s.host.setRunningFrames frames } process
  | _ => .error .disabled

/-! ### `CallProcess` -/

/-- `free`: the records kept in the freed heap are not allocated any more. -/
def freeHeap (m : Memory) (heap : Ptr) : Memory :=
  { m with live := m.live.filter fun q => (m.record q).heap ≠ heap }

/-- `current_process = process->next` -/
def advance (m : Memory) (process : Ptr) : Memory :=
  { m with currentProcess := (m.record process).next }

/-- `run_process:`, up to the code of the process.  When the process is resumed in a call that had
yielded, the call returns to the code of the game. -/
def runProcess (s : Sys) (time : ℤ) (cur : Ptr) : Except Stop Sys := do
  let nextProc := (s.mem.record cur).next
  let m := { s.mem with pendingHeapFree := 0 }
  let (host, frame) ←
    s.host.switchIn cur (m.record cur).prcJumpFunc (m.record cur).prcJumpSp .endProcess
  let s := { s with
    mem := m
    host := host
    control := .running time cur nextProc
    log := .resumed cur host.runningId :: s.log }
  match frame with
  | some (.sleepProcess process) => do
      validateProcessState m process
      .ok s
  | some (.watchChildProcess process) => do
      validateProcessState m process
      .ok { s with log := .watchReturned process :: s.log }
  | _ => .ok s

/-- The sleeping case of the switch: `sleep_time` counts down while it is positive. -/
def sleepTick (m : Memory) (process : Ptr) (time : ℤ) : Memory :=
  if 0 < (m.record process).sleepTime then
    let m := m.setSleepTime process (s32 ((m.record process).sleepTime - time))
    if (m.record process).sleepTime ≤ 0 then
      (m.setSleepTime process 0).setExecMode process .default
    else m
  else m

/-- One round of the loop of `CallProcess`, up to the switch into the process. -/
def visit (s : Sys) (time : ℤ) : Except Stop Sys :=
  let cur := s.mem.currentProcess
  if cur = 0 then .ok { s with control := .outside }
  else
    let s := { s with log := .visited cur :: s.log }
    match (s.mem.record cur).execMode with
    | .unk4 => .ok { s with mem := advance s.mem s.mem.currentProcess }
    | .sleeping =>
        let m := sleepTick s.mem cur time
        .ok { s with mem := advance m m.currentProcess }
    | .watch =>
        if (s.mem.record cur).oldestChild ≠ 0 then
          .ok { s with mem := advance s.mem s.mem.currentProcess }
        else runProcess { s with mem := s.mem.setExecMode cur .default } time cur
    -- the coroutine is dropped, and `EndProcess` is run in a new one
    | .dead => do
        let host ← s.host.recompProcessDestroy cur
        runProcess { s with
          mem := s.mem.setPrcJumpFunc cur .endProcess
          host := host
          log := .coroutineDestroyed cur :: s.log } time cur
    | .default => runProcess s time cur

/-- The round's end, behind the return of `recomp_process_resume`.  No function of `process.c`
yields with `YIELD_STACKCHECK`; `CheckProcessStackBroken` reads nothing but the stack pointer. -/
def handleYield (s : Sys) (time : ℤ) (cur nextProc : Ptr) (yieldReason : ℤ) : Except Stop Sys :=
  if yieldReason = yieldTerminate then do
    -- `cur` is off the run list already: its `next` is not read again
    let host ← s.host.recompProcessDestroy cur
    if s.mem.pendingHeapFree ≠ 0 then
      .ok { s with
        mem := { freeHeap s.mem s.mem.pendingHeapFree with
          pendingHeapFree := 0
          currentProcess := nextProc }
        host := host
        control := .loop time
        log := .heapFreed s.mem.pendingHeapFree :: .coroutineDestroyed cur :: s.log }
    else .error (.errstop "Process : terminate without pending heap\n")
  else if yieldReason = yieldNormal ∨ yieldReason = yieldStackcheck then do
    validateProcessState s.mem cur
    .ok { s with mem := advance s.mem cur, control := .loop time }
  else .error (.errstop "Process : unknown yield reason %d\n")

/-! ### Actions -/

/-- What can happen next. -/
inductive Act
  | initProcess
  | callProcess (time : ℤ)
  /-- The scheduler goes on. -/
  | tick
  /-- A call that does not switch coroutines. -/
  | api (a : Api)
  | setProcessDestruct (f : Option ProcessFunc)
  | sleepProcess (time : ℤ)
  | watchChildProcess
  | endProcess
  /-- The running function of the game returns. -/
  | returnFrom
  /-- Memory that is not allocated to a process changes. -/
  | scribble (p : Ptr) (r : Process)
  /-- The guard words in the heap of a process change. -/
  | overwriteGuards (p : Ptr) (stackGuard heapGuard : ℕ)
  deriving DecidableEq, Repr

/-- What a call leaves in the history. -/
def Api.events : Api → List Event
  | .createProcess b _ _ _ => [.created b.process b.heap]
  | .createChildProcess b _ _ _ _ => [.created b.process b.heap]
  | _ => []

/-- The running coroutine is in a function, of the game or `EndProcess` itself, that can go on. -/
def Sys.inFunction (s : Sys) : Bool :=
  match s.control, s.host.runningFrames with
  | .running _ _ _, .entry _ :: _ => true
  | .running _ _ _, .destructor _ _ :: _ => true
  | _, _ => false

/-- The effect of an action. -/
def step (fuel : ℕ) (s : Sys) : Act → Except Stop Sys
  | .initProcess =>
      if s.control = .outside then do
        let host ← s.host.reset
        .ok { s with mem := initProcess s.mem, host := host }
      else .error .disabled
  | .callProcess time =>
      if s.control = .outside then
        .ok { s with
          mem := { s.mem with currentProcess := s.mem.topProcess }
          control := .loop time
          log := .called time :: s.log }
      else .error .disabled
  | .tick =>
      match s.control with
      | .loop time => visit s time
      | .yielded time cur nextProc yieldReason => handleYield s time cur nextProc yieldReason
      | _ => .error .disabled
  | .api a =>
      if s.mayCall ∧ a.valid s.mem then do
        let m ← a.run fuel s.mem
        .ok { s with mem := m, log := a.events ++ s.log }
      else .error .disabled
  | .setProcessDestruct f =>
      if s.userCode then .ok { s with mem := s.mem.setDestructor s.mem.currentProcess f }
      else .error .disabled
  | .sleepProcess time => if s.userCode then sleepProcess s time else .error .disabled
  | .watchChildProcess => if s.userCode then watchChildProcess s else .error .disabled
  | .endProcess => if s.inFunction then endProcess fuel s else .error .disabled
  | .returnFrom => if s.userCode then returnFrom fuel s else .error .disabled
  | .scribble p r =>
      if p ∈ s.mem.live then .error .disabled
      else .ok { s with mem := s.mem.modify p fun _ => r }
  | .overwriteGuards p stackGuard heapGuard =>
      .ok { s with mem := s.mem.modify p fun r =>
        { r with stackGuard := stackGuard, heapGuard := heapGuard } }

/-! ### Runs -/

/-- The state `InitProcess` leaves when it is called first: nothing is known of memory. -/
def start (record : Ptr → Process) : Sys where
  mem :=
    { record := record
      topProcess := 0
      currentProcess := 0
      processCount := 0
      pendingHeapFree := 0
      procs := []
      live := []
      staleAccess := false }
  host := { ProcessRuntime.boot with initialized := true }
  control := .outside
  log := []

/-- One step of the system, within any number of rounds of its loops. -/
def Step (s : Sys) (a : Act) (t : Sys) : Prop := ∃ fuel, step fuel s a = .ok t

/-- The states right behind the first `InitProcess`. -/
def Init (s : Sys) : Prop := ∃ record, s = start record

/-- A run from `s` to `t` whose steps all meet the condition `C`. -/
abbrev RunsTo (C : Sys → Act → Prop) (s t : Sys) : Prop := Runs.RunsTo Step C s t

/-- A state reached by a run whose steps all meet the condition `C`. -/
abbrev ReachableUnder (C : Sys → Act → Prop) (s : Sys) : Prop := Runs.Reach Step Init C s

/-- A reachable state. -/
abbrev Reachable (s : Sys) : Prop := ReachableUnder (fun _ _ => True) s

/-- Running a list of actions, each within the given number of rounds. -/
def runActs (fuel : ℕ) : Sys → List Act → Except Stop Sys
  | s, [] => .ok s
  | s, a :: as => do
      let t ← step fuel s a
      runActs fuel t as

end Sched
