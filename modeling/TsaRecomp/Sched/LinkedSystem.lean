/-
**The scheduler never sees the coroutine library fail.**

The calls that a run of the scheduler makes of the host are written down step by step, and all of
them go through on the runtime that is linked with the coroutine library, wherever the allocator
places the coroutines.  In every state that is reached, the slots of the host hold exactly the
coroutines that are allocated, so that none is leaked and none is freed twice; and at most one
coroutine is active, the one of the current slot.

Main definitions:

* `Sched.hostCalls` — the calls that a step makes of the host;
* `Sched.HostRun` — a run, with the calls that it has made.

Main results:

* `Sched.StepCase.leads` — **the calls of a step** go through;
* `Sched.linked_of_hostRun` — **the calls of a run** go through.
-/

import TsaRecomp.Sched.KinSteps
import TsaRecomp.Sched.LinkedRuns

set_option relaxedAutoImplicit false
set_option autoImplicit false

namespace Sched

open Coro (View)

/-! ### The calls of a step -/

/-- The calls of one round of the loop of `CallProcess`. -/
def visitCalls (m : Memory) : List HostCall :=
  let cur := m.currentProcess
  let resume := fun func => HostCall.resume cur func (m.record cur).prcJumpSp .endProcess
  if cur = 0 then []
  else
    match (m.record cur).execMode with
    | .unk4 => []
    | .sleeping => []
    | .watch =>
        if (m.record cur).oldestChild ≠ 0 then [] else [resume (m.record cur).prcJumpFunc]
    | .dead => [.destroy cur, resume .endProcess]
    | .default => [resume (m.record cur).prcJumpFunc]

/-- The calls of `TerminateProcess_Export`. -/
def terminateCalls (s : Sys) (process : Ptr) : List HostCall :=
  match (s.mem.record process).destructor with
  | some f => [.frames (.destructor process f :: s.host.runningFrames)]
  | none => [.yield yieldTerminate (.terminateProcess process)]

/-- The calls that a step makes of the host. -/
def hostCalls (s : Sys) : Act → List HostCall
  | .initProcess => [.reset]
  | .tick =>
      match s.control with
      | .loop _ => visitCalls s.mem
      | .yielded _ cur _ reason => if reason = yieldTerminate then [.destroy cur] else []
      | _ => []
  | .sleepProcess _ => [.yield yieldNormal (.sleepProcess s.mem.currentProcess)]
  | .watchChildProcess =>
      if (s.mem.record s.mem.currentProcess).oldestChild ≠ 0 then
        [.yield yieldNormal (.watchChildProcess s.mem.currentProcess)]
      else []
  | .endProcess => terminateCalls s s.mem.currentProcess
  | .returnFrom =>
      match s.host.runningFrames with
      | .entry _ :: _ => terminateCalls s s.mem.currentProcess
      | .destructor process _ :: frames =>
          [.frames frames, .yield yieldTerminate (.terminateProcess process)]
      | _ => []
  | _ => []

/-- **The calls lead** from one state of the runtime to another, and go through on each runtime that
is linked to the first. -/
structure Leads (r : ProcessRuntime) (cs : List HostCall) (r' : ProcessRuntime) : Prop where
  calls : r.calls cs = .ok r'
  goes : ∀ l v, Links r l v → GoesThrough (fun l' => ∃ v', Links r' l' v') cs l

namespace Leads

variable {r r' r'' : ProcessRuntime} {key : Ptr} {slot : ProcessSlot} {coro : Coroutine}

theorem nil (r : ProcessRuntime) : Leads r [] r := ⟨rfl, fun _ v h => ⟨v, h⟩⟩

theorem append {cs cs' : List HostCall} (h : Leads r cs r') (h' : Leads r' cs' r'') :
    Leads r (cs ++ cs') r'' where
  calls := by rw [ProcessRuntime.calls_append h.calls, h'.calls]
  goes l v hl := by
    refine ((h.goes l v hl).mono ?_).append
    rintro l' ⟨v', hl'⟩
    exact h'.goes l' v' hl'

/-- A call that goes through on both. -/
theorem single {c : HostCall} (hr : r.call c = .ok r')
    (hl : ∀ l v env, Links r l v → Env.Proper env l → ∃ l' v', l.call env c = .ok l' ∧
      Links r' l' v') : Leads r [c] r' where
  calls := by simp only [ProcessRuntime.calls, hr, bind, Except.bind]
  goes l v h env hp := by
    obtain ⟨l', v', hc, h'⟩ := hl l v env h hp
    exact ⟨l', hc, v', h'⟩

theorem reset (hc : r.currentSlot = none) : Leads r [.reset] r.cleared :=
  single (ProcessRuntime.reset_eq hc) fun _ _ _ h _ => h.reset hc

theorem destroy (hc : r.currentSlot = none) (hk : key ≠ 0) :
    Leads r [.destroy key] (r.setSlot key none) :=
  single (ProcessRuntime.recompProcessDestroy_eq hk hc) fun _ _ _ h _ => h.destroy hc hk

theorem started (hi : r.initialized = true) (hc : r.currentSlot = none) (hk : key ≠ 0)
    (hs : r.slots key = none) (func : ProcessFunc) (sp : Ptr) :
    Leads r [.resume key func sp .endProcess] (r.started key func sp) := by
  refine single ?_ fun _ _ _ h hp => h.started hi hc hk hs hp func sp
  rw [ProcessRuntime.call, ProcessRuntime.switchIn_fresh hi hc hk hs]
  rfl

theorem resumed {frame : Frame} {frames : List Frame} (hi : r.initialized = true)
    (hc : r.currentSlot = none) (hk : key ≠ 0) (hs : r.slots key = some slot)
    (hd : slot.state ≠ .dead) (hco : slot.coro = some coro) (hst : coro.state = .suspended)
    (hfr : coro.frames = frame :: frames) (hw : ∀ p, frame ≠ .terminateProcess p) :
    Leads r [.resume key slot.entryFunc slot.initialSp slot.endFunc]
      (r.resumed key slot coro frames) := by
  refine single ?_ fun _ _ env h _ => h.resumed hi hc hk hs hd hco hfr hw env
  rw [ProcessRuntime.call,
    ProcessRuntime.switchIn_suspended hi hc hk hs hd rfl rfl rfl hco hst hfr hw]
  rfl

theorem yielded {reason : ℤ} (hc : r.currentSlot = some key) (hm : r.mcoRunning = some key)
    (hs : r.slots key = some slot) (hco : slot.coro = some coro) (hst : coro.state = .running)
    (hr : isKnownYieldReason reason = true) (frame : Frame) :
    Leads r [.yield reason frame] (r.yielded key slot coro (frame :: coro.frames) reason) := by
  refine single ?_ fun _ _ _ h hp => h.yielded hc hs hco hp hr frame
  rw [ProcessRuntime.call, ProcessRuntime.switchOut_running hc hm hs hco hst hr]
  rfl

theorem reframed (hm : r.mcoRunning = some key) (hs : r.slots key = some slot)
    (hco : slot.coro = some coro) (frames : List Frame) :
    Leads r [.frames frames] (r.reframed key slot coro frames) := by
  refine single ?_ fun _ _ env h _ => h.reframed hm hs hco frames env
  rw [ProcessRuntime.call, setRunningFrames_eq hm hs hco]

end Leads

/-! ### Steps -/

section Steps

variable {s : Sys} {time : ℤ} {cur next : Ptr} {slot : ProcessSlot} {coro : Coroutine}

/-- The running coroutine yields. -/
theorem InCoroutine.leads_yielded (hr : InCoroutine s time cur next slot coro)
    (hc : s.host.currentSlot = some cur) {reason : ℤ} (hk : isKnownYieldReason reason = true)
    (frame : Frame) : Leads s.host [.yield reason frame]
      (s.host.yielded cur slot coro (frame :: coro.frames) reason) :=
  .yielded hc hr.running hr.slot_eq hr.coro_eq hr.state hk frame

/-- The slot of the running process is the current one. -/
theorem InCoroutine.currentSlot (hr : InCoroutine s time cur next slot coro) (h : SysInv s) :
    s.host.currentSlot = some cur := by
  have hp := h.place
  rw [hr.control] at hp
  exact hp.2.2.2.1

/-- The calls of a visit that runs the process, up to the one that resumes it. -/
theorem Readies.leads {m m' : Memory} {r r' : ProcessRuntime} {evs : List Event}
    (h : Readies m r cur m' r' evs) (hcur : m.currentProcess = cur) (h0 : cur ≠ 0)
    (hc : r.currentSlot = none) :
    ∃ cs, Leads r cs r' ∧ r'.currentSlot = none ∧ visitCalls m =
      cs ++ [.resume cur (m'.record cur).prcJumpFunc (m'.record cur).prcJumpSp .endProcess] := by
  cases h with
  | default he => exact ⟨[], .nil r, hc, by simp [visitCalls, hcur, h0, he]⟩
  | childless he hch => exact ⟨[], .nil r, hc, by simp [visitCalls, hcur, h0, he, hch]⟩
  | dead he => exact ⟨[.destroy cur], .destroy hc h0, hc, by simp [visitCalls, hcur, h0, he]⟩

theorem Skips.visitCalls {m m' : Memory} (h : Skips m time cur m')
    (hcur : m.currentProcess = cur) : visitCalls m = [] := by
  cases h with
  | paused he => simp [Sched.visitCalls, hcur, he]
  | sleeping he => simp [Sched.visitCalls, hcur, he]
  | watching he hch => simp [Sched.visitCalls, hcur, he, hch]

end Steps

/-- **The calls of a step** lead to the runtime behind it. -/
theorem StepCase.leads {s t : Sys} {a : Act} (h : SysInv s) (hst : StepCase s a t) :
    Leads s.host (hostCalls s a) t.host := by
  have hplace := h.place
  cases hst with
  | initProcess hc =>
      rw [hc] at hplace
      exact .reset hplace.2.1.1
  | callProcess time hc => exact .nil _
  | finish time hc h0 =>
      simp only [hostCalls, hc, visitCalls, h0, if_true]
      exact .nil _
  | skip hc hcur hp hm =>
      simp only [hostCalls, hc, hm.visitCalls hcur]
      exact .nil _
  | start hc hcur hp hr hs =>
      obtain ⟨-, hidle, -⟩ := h.atLoop hc
      have h0 := h.mem.ne_null (h.mem.procs_live _ hp)
      obtain ⟨cs, hcs, hc', hv⟩ := hr.leads hcur h0 hidle.1
      simp only [hostCalls, hc, hv]
      exact hcs.append (.started (hr.initialized.trans h.initialized) hc' h0 hs _ _)
  | @resume time cur m slot coro frame frames hc hcur hp hr hs hco hf hw =>
      obtain ⟨-, hidle, hall⟩ := h.atLoop hc
      have h0 := h.mem.ne_null (h.mem.procs_live _ hp)
      obtain ⟨cs, hcs, hc', hv⟩ := hr.leads hcur h0 hidle.1
      obtain ⟨-, hslot, hsus, coro', -, -, hco', hst, -⟩ := hall _ _ hs
      obtain rfl : coro' = coro := Option.some.inj (hco'.symm.trans hco)
      have hne : ∀ p, frame ≠ .terminateProcess p := by
        rintro p rfl
        simp [Frame.waits] at hw
      simp only [hostCalls, hc, hv, hr.jump]
      rw [← hslot.entryFunc, ← hslot.initialSp, ← hslot.endFunc]
      exact hcs.append (.resumed h.initialized hc' h0 hs (by simp [hsus]) hco hst hf hne)
  | yieldedNormal hc hp =>
      simp only [hostCalls, hc]
      exact .nil _
  | yieldedTerminate hc hp hl hheap =>
      rw [hc] at hplace
      simp only [hostCalls, hc, if_true]
      exact .destroy hplace.2.2.1.1 (h.mem.ne_null hl)
  | api hc hv hm => exact .nil _
  | setProcessDestruct f hr => exact .nil _
  | sleepProcess t hr =>
      simp only [hostCalls, hr.current]
      exact hr.leads_yielded (hr.currentSlot h) rfl _
  | watchChildProcess hr hch =>
      simp only [hostCalls, hr.current, hch, ne_eq, not_false_iff, if_true]
      exact hr.leads_yielded (hr.currentSlot h) rfl _
  | watchNoChild hr hch =>
      simp only [hostCalls, hr.current, hch, ne_eq, not_true, if_false]
      exact .nil _
  | @destruct a time cur next slot coro m f hr ha hm hd =>
      rw [hm.destructor] at hd
      have hcalls : hostCalls s a = [.frames (.destructor cur f :: coro.frames)] := by
        rcases ha with rfl | ⟨rfl, g, frames, hfr⟩
        · simp only [hostCalls, terminateCalls, hr.current, hd, hr.frames_eq]
        · simp only [hostCalls, terminateCalls, hr.current, hd, hr.frames_eq, hfr]
      rw [hcalls]
      exact .reframed hr.running hr.slot_eq hr.coro_eq _
  | @terminate a time cur next slot coro m hr ha hm hd =>
      rw [hm.destructor] at hd
      have hcalls : hostCalls s a = [.yield yieldTerminate (.terminateProcess cur)] := by
        rcases ha with rfl | ⟨rfl, g, frames, hfr⟩
        · simp only [hostCalls, terminateCalls, hr.current, hd]
        · simp only [hostCalls, terminateCalls, hr.current, hd, hr.frames_eq, hfr]
      rw [hcalls]
      exact hr.leads_yielded (hr.currentSlot h) rfl _
  | @destructed time cur next slot coro f frames hr hf =>
      simp only [hostCalls, hr.frames_eq, hf]
      -- the destructor returns first, and its caller yields
      have h₁ := Leads.reframed hr.running hr.slot_eq hr.coro_eq frames
      have h₂ := @Leads.yielded (s.host.reframed cur slot coro frames) cur
        { slot with coro := some { coro with frames := frames } } { coro with frames := frames }
        yieldTerminate (hr.currentSlot h) hr.running (by simp [ProcessRuntime.reframed]) rfl
        hr.state rfl (.terminateProcess cur)
      simp only [ProcessRuntime.reframed, ProcessRuntime.yielded,
        ProcessRuntime.leave_setSlot] at h₁ h₂ ⊢
      exact h₁.append h₂
  | scribble r hp => exact .nil _
  | overwriteGuards p stackGuard heapGuard => exact .nil _

/-! ### Runs -/

/-- **A run**, with the calls that it has made of the host. -/
inductive HostRun : Sys → List HostCall → Prop
  | start (record : Ptr → Process) : HostRun (start record) [.reset]
  | step {s t : Sys} {cs : List HostCall} {a : Act} (h : HostRun s cs) (hs : Step s a t) :
      HostRun t (cs ++ hostCalls s a)

theorem HostRun.reachable {s : Sys} {cs : List HostCall} (h : HostRun s cs) : Reachable s := by
  induction h with
  | start record => exact Runs.Reach.init ⟨record, rfl⟩
  | step _ hs ih => exact ih.step _ trivial hs

/-- Before the first call both runtimes are empty. -/
theorem links_boot : Links ProcessRuntime.boot LinkedRuntime.boot View.empty where
  represents := Coro.represents_boot
  keys := List.nodup_nil
  coros := List.nodup_nil
  none_iff key := by simp [ProcessRuntime.boot, LinkedRuntime.boot]
  slot e he := by cases he
  owned co hc := absurd rfl hc
  idle _ := rfl
  runs key hk := by cases hk
  currentSlot := rfl
  agree := rfl
  currentRdram := rfl
  yieldReason := rfl
  resumeValue := rfl
  initialized := rfl

/-- **The calls of a run lead** to its runtime. -/
theorem HostRun.leads {s : Sys} {cs : List HostCall} (h : HostRun s cs) :
    Leads ProcessRuntime.boot cs s.host := by
  induction h with
  | start record => exact Leads.reset rfl
  | step hr hs ih =>
      have hinv := hr.reachable.sysInv
      exact ih.append (StepCase.leads hinv (step_cases hinv hs))

/-- **The scheduler never sees the coroutine library fail**: all calls of a run go through on the
runtime that is linked with it, wherever the allocator places the coroutines.  Behind them the slots
hold exactly the coroutines that are allocated, and only the one of the current slot is active. -/
theorem linked_of_hostRun {s : Sys} {cs : List HostCall} (h : HostRun s cs) :
    ProcessRuntime.boot.calls cs = .ok s.host ∧
      GoesThrough (fun l => ∃ v, Links s.host l v) cs LinkedRuntime.boot :=
  ⟨h.leads.calls, h.leads.goes _ _ links_boot⟩

/-- The calls of a list of actions, each within the given number of rounds. -/
def actsCalls (fuel : ℕ) : Sys → List Act → List HostCall
  | _, [] => []
  | s, a :: as =>
      match step fuel s a with
      | .ok t => hostCalls s a ++ actsCalls fuel t as
      | .error _ => []

theorem HostRun.runActs {fuel : ℕ} {t : Sys} {acts : List Act} : ∀ {s : Sys} {cs : List HostCall},
    HostRun s cs → runActs fuel s acts = .ok t → HostRun t (cs ++ actsCalls fuel s acts) := by
  induction acts with
  | nil =>
      intro s cs h hr
      cases hr
      simpa [actsCalls] using h
  | cons a acts ih =>
      intro s cs h hr
      obtain ⟨u, hu, hr⟩ := bind_eq_ok.1 hr
      have := ih (h.step ⟨fuel, hu⟩) hr
      rwa [List.append_assoc, show hostCalls s a ++ actsCalls fuel u acts =
        actsCalls fuel s (a :: acts) by simp [actsCalls, hu]] at this

theorem hostRun_stateAfter {acts : List Act}
    (h : (runActs 100 (start fun _ => Process.zero) acts).toBool = true) :
    HostRun (stateAfter acts) (.reset :: actsCalls 100 (start fun _ => Process.zero) acts) := by
  unfold stateAfter
  cases hr : runActs 100 (start fun _ => Process.zero) acts with
  | error e => rw [hr] at h; cases h
  | ok t => exact (HostRun.start _).runActs hr

/-- A process is created and resumed, sleeps, and is resumed again. -/
def wokenSleeper : List Act :=
  [.api (.createProcess ⟨0x80001000, 0x80001010, 0x80001100⟩ (.game 1) 5 0), .callProcess 1, .tick,
    .sleepProcess 1, .tick, .tick, .callProcess 1, .tick, .tick, .callProcess 1, .tick]

theorem linked_of_hostRun_sleeper :
    (stateAfter wokenSleeper).control = .running 1 0x80001010 0 ∧
      GoesThrough (fun l => ∃ v, Links (stateAfter wokenSleeper).host l v)
        [.reset, .resume 0x80001010 (.game 1) 0x800020f8 .endProcess,
          .yield yieldNormal (.sleepProcess 0x80001010),
          .resume 0x80001010 (.game 1) 0x800020f8 .endProcess] LinkedRuntime.boot := by
  have hcalls : actsCalls 100 (start fun _ => Process.zero) wokenSleeper =
      [.resume 0x80001010 (.game 1) 0x800020f8 .endProcess,
        .yield yieldNormal (.sleepProcess 0x80001010),
        .resume 0x80001010 (.game 1) 0x800020f8 .endProcess] := by decide +kernel
  refine ⟨by decide +kernel, ?_⟩
  rw [← hcalls]
  exact (linked_of_hostRun (hostRun_stateAfter (by decide +kernel))).2

end Sched
