/-
**The destructors.**

`TerminateProcess_Export` calls the destructor of a process as a function of the running coroutine:
the destructor can yield, and the process stays on the run list until it has returned.  A round of
the process in `EXEC_PROCESS_DEAD` drops the coroutine with the destructor that is suspended in it,
and starts `EndProcess`, which calls the destructor from its beginning.

Main definitions:

* `Sched.destructorStarts` — how often the destructor of a process has been started;
* `Sched.ProcessRuntime.inDestructor` — the coroutine of a process is inside its destructor;
* `Sched.Restarts` — **the round that starts a destructor again**;
* `Sched.DestructorPhase` — the way of a process to its end.

Main results:

* `Sched.StepCase.destructorMove` — what a step does on that way;
* `Sched.DestructorPhase.step` — the step lemma;
* `Sched.destructor_once_of_reachable` — **a destructor is started once**.
-/

import TsaRecomp.Sched.KinSteps
import TsaRecomp.Sched.Timers

set_option relaxedAutoImplicit false
set_option autoImplicit false

namespace Sched

/-! ### Starts of a destructor -/

/-- How often the destructor of `p` has been started since `p` was created last. -/
def destructorStarts (p : Ptr) : List Event → ℕ
  | [] => 0
  | .created q _ :: log => if q = p then 0 else destructorStarts p log
  | .destructorStarted q :: log =>
      if q = p then destructorStarts p log + 1 else destructorStarts p log
  | _ :: log => destructorStarts p log

/-- The innermost function of the game in a list of frames is a destructor. -/
def framesInDestructor : List Frame → Bool
  | .destructor _ _ :: _ => true
  | .sleepProcess _ :: frames => framesInDestructor frames
  | .watchChildProcess _ :: frames => framesInDestructor frames
  | _ => false

theorem framesInDestructor_wait {p : Ptr} {frame : Frame} (h : frame.waits p)
    (frames : List Frame) : framesInDestructor (frame :: frames) = framesInDestructor frames := by
  rcases h with rfl | rfl <;> rfl

namespace ProcessRuntime

/-- The coroutine of `p` is inside its destructor. -/
def inDestructor (r : ProcessRuntime) (p : Ptr) : Bool :=
  ((r.slots p).bind ProcessSlot.coro).any fun coro => framesInDestructor coro.frames

theorem Owns.inDestructor {r : ProcessRuntime} {p : Ptr} {slot : ProcessSlot} {coro : Coroutine}
    (h : r.Owns p slot coro) : r.inDestructor p = framesInDestructor coro.frames := by
  rw [ProcessRuntime.inDestructor, h.slot_eq, Option.bind_some, h.coro_eq, Option.any_some]

theorem inDestructor_of_none {r : ProcessRuntime} {p : Ptr} (h : r.slots p = none) :
    r.inDestructor p = false := by
  rw [inDestructor, h, Option.bind_none, Option.any_none]

theorem inDestructor_congr {r r' : ProcessRuntime} {p : Ptr} (h : r'.slots p = r.slots p) :
    r'.inDestructor p = r.inDestructor p := by
  rw [inDestructor, inDestructor, h]

/-- A coroutine is in the same place of the code in front of a yield and behind it. -/
theorem inDestructor_of_frames {r r' : ProcessRuntime} {p cur : Ptr} {slot slot' : ProcessSlot}
    {coro coro' : Coroutine} (h : r.Owns cur slot coro)
    (hs : ∀ q, r'.slots q = if q = cur then some slot' else r.slots q)
    (hco : slot'.coro = some coro')
    (hf : framesInDestructor coro'.frames = framesInDestructor coro.frames) :
    r'.inDestructor p = r.inDestructor p := by
  by_cases hp : p = cur
  · subst hp
    have h' : r'.Owns p slot' coro' := ⟨(hs p).trans (if_pos rfl), hco⟩
    rw [h.inDestructor, h'.inDestructor, hf]
  · exact inDestructor_congr ((hs p).trans (if_neg hp))

end ProcessRuntime

/-! ### The way to the end -/

/-- **The round that starts a destructor again**: `p` is in `EXEC_PROCESS_DEAD`, its coroutine is
suspended inside its destructor, and the destructor is still set. -/
def Restarts (p : Ptr) (s : Sys) (a : Act) : Prop :=
  Visits p s a ∧ s.mem.mode p = .dead ∧ s.host.inDestructor p = true ∧
    (s.mem.record p).destructor ≠ none

/-- The destructor of `p` calls `EndProcess`. -/
def EndsInDestructor (p : Ptr) (s : Sys) (a : Act) : Prop :=
  a = .endProcess ∧ s.control.runs = some p ∧ s.host.inDestructor p = true

/-- `p` runs `EndProcess` itself, outside of a destructor, and has none. -/
structure EndsBare (p : Ptr) (s : Sys) : Prop where
  runs : s.control.runs = some p
  outside : s.host.inDestructor p = false
  noUserCode : s.userCode = false
  noDestructor : (s.mem.record p).destructor = none

/-- **What a step does on the way of `p` to its end.** -/
inductive DestructorMove (p : Ptr) (s : Sys) (a : Act) (t : Sys) : Prop
  | creates (hp : p ∉ s.mem.live) (h0 : destructorStarts p t.log = 0) (hh : t.host = s.host)
  | starts (hr : s.control.runs = some p) (hp : p ∈ s.mem.procs)
      (ha : a = .endProcess ∨ s.host.inDestructor p = false)
      (hd : (s.mem.record p).destructor ≠ none)
      (hs : destructorStarts p t.log = destructorStarts p s.log + 1)
      (hin : t.host.inDestructor p = true)
  | drops (hv : Visits p s a) (hp : p ∈ s.mem.procs) (hd : s.mem.mode p = .dead)
      (hdes : (t.mem.record p).destructor = (s.mem.record p).destructor)
      (hr : t.control.runs = some p) (hu : t.userCode = false)
      (hin : t.host.inDestructor p = false)
      (hs : destructorStarts p t.log = destructorStarts p s.log)
  | leaves (hp : p ∉ t.mem.procs) (hs : destructorStarts p t.log = destructorStarts p s.log)
  | stays (hp : p ∈ t.mem.procs → p ∈ s.mem.procs)
      (hin : t.host.inDestructor p = s.host.inDestructor p)
      (hs : destructorStarts p t.log = destructorStarts p s.log)

theorem SysInv.mem_of_runs {s : Sys} {p : Ptr} (h : SysInv s) (hr : s.control.runs = some p) :
    p ∈ s.mem.procs := by
  cases hc : s.control with
  | running time cur next =>
      rw [hc] at hr
      obtain rfl := Option.some.inj hr
      exact h.running_mem hc
  | _ =>
      rw [hc] at hr
      cases hr

/-- The slot of a process is freed with its heap. -/
theorem SysInv.slots_eq_none {s : Sys} {p : Ptr} (h : SysInv s) (hp : p ∉ s.mem.live) :
    s.host.slots p = none := by
  cases hs : s.host.slots p with
  | none => rfl
  | some slot => exact absurd (h.slot_live hs) hp

/-- The call of a function of the process API. -/
theorem destructorMove_api {s : Sys} {b : Api} {fuel : ℕ} {m : Memory} (p : Ptr)
    (hv : b.valid s.mem) (hm : b.run fuel s.mem = .ok m) :
    DestructorMove p s (.api b) { s with mem := m, log := b.events ++ s.log } := by
  cases hb : b.creates with
  | true =>
      obtain ⟨blk, func, priority, stackSize, m₁, hf, hevs, hc, he⟩ := Api.run_creates hb hv hm
      have hprocs : m.procs = s.mem.procs ++ [blk.process] := by
        rw [← (createProcess_created hc).procs]
        rcases he with rfl | ⟨root, -, rfl⟩
        · rfl
        · exact (linkChildProcess_sameCore m₁ root blk.process).procs
      by_cases hp : blk.process = p
      · refine .creates (hp ▸ hf.2.1) ?_ rfl
        show destructorStarts p (b.events ++ s.log) = 0
        rw [hevs, List.singleton_append, destructorStarts, if_pos hp]
      · refine .stays ?_ rfl ?_
        · intro hpt
          have hpt : p ∈ m.procs := hpt
          rw [hprocs] at hpt
          rcases List.mem_append.1 hpt with hpt | hpt
          · exact hpt
          · exact absurd (List.mem_singleton.1 hpt).symm hp
        · show destructorStarts p (b.events ++ s.log) = _
          rw [hevs, List.singleton_append, destructorStarts, if_neg hp]
  | false =>
      refine .stays (fun hp => (Api.run_sameCore hb hm).procs ▸ hp) rfl ?_
      cases b with
      | createProcess | createChildProcess => cases hb
      | _ => rfl

/-- The process that ends leaves the run list, and the others are as they were. -/
theorem destructorMove_terminated {s : Sys} {a : Act} {m : Memory} {cur : Ptr}
    {host : ProcessRuntime} {control : Control} (p : Ptr) (hm : MemInv m)
    (hprocs : m.procs = s.mem.procs) (hs : ∀ q, q ≠ cur → host.slots q = s.host.slots q) :
    DestructorMove p s a ⟨terminated m cur, host, control, .terminated cur :: s.log⟩ := by
  by_cases hp : p = cur
  · exact .leaves (hp ▸ hm.notMem_procs_terminated cur) rfl
  · refine .stays ?_ (ProcessRuntime.inDestructor_congr (hs p hp)) rfl
    intro hpt
    rw [← hprocs]
    exact List.mem_of_mem_erase (MemInv.procs_terminated m cur ▸ hpt)

/-- **The inversion of a step**, for the way of `p` to its end. -/
theorem StepCase.destructorMove {s t : Sys} {a : Act} (p : Ptr) (h : SysInv s)
    (hst : StepCase s a t) : DestructorMove p s a t := by
  cases hst with
  | initProcess => exact .leaves List.not_mem_nil rfl
  | callProcess | finish | yieldedNormal | setProcessDestruct | watchNoChild | scribble
  | overwriteGuards => exact .stays id rfl rfl
  | skip hc hcur hp hm => exact .stays (fun hp => hm.sameCore.procs ▸ hp) rfl rfl
  | @start time cur m r evs hc hcur hp hr hs =>
      have hlog : destructorStarts p (evs ++ .visited cur :: s.log) = destructorStarts p s.log := by
        cases hr <;> rfl
      by_cases hpc : p = cur
      · subst hpc
        have hin : ∀ func sp, (r.started p func sp).inDestructor p = false :=
          fun func sp => (ProcessRuntime.Owns.inDestructor ⟨if_pos rfl, rfl⟩).trans rfl
        cases hr with
        | default | childless =>
            refine .stays id ?_ hlog
            rw [ProcessRuntime.inDestructor_of_none hs]
            exact hin _ _
        | dead hm =>
            refine .drops ⟨rfl, ⟨time, hc⟩, hcur⟩ hp hm (by simp) rfl ?_ (hin _ _) hlog
            simp [Sys.userCode, ProcessRuntime.runningFrames, ProcessRuntime.started,
              ProcessRuntime.enter, ProcessRuntime.startedSlot]
      · exact .stays (fun hp => hr.procs ▸ hp)
          (ProcessRuntime.inDestructor_congr (hr.slots_started hpc _ _)) hlog
  | @resume time cur m slot coro frame frames hc hcur hp hr hs hco hf hw =>
      refine .stays (fun hp => hr.procs ▸ hp) ?_ ?_
      · refine ProcessRuntime.inDestructor_of_frames ⟨hs, hco⟩ (fun _ => rfl) rfl ?_
        rw [hf, framesInDestructor_wait hw]
      · rcases hw with rfl | rfl <;> rfl
  | @yieldedTerminate time cur next hc hp hl hheap =>
      by_cases hpc : p = cur
      · exact .leaves (hpc ▸ hp) rfl
      · exact .stays id (ProcessRuntime.inDestructor_congr (by simp [hpc])) rfl
  | api hc hv hm => exact destructorMove_api p hv hm
  | sleepProcess time hr =>
      refine .stays (fun hp => (sleepCurrent_sameCore s.mem _ time).procs ▸ hp) ?_ rfl
      exact ProcessRuntime.inDestructor_of_frames hr.owns (fun _ => rfl) rfl rfl
  | watchChildProcess hr =>
      exact .stays id (ProcessRuntime.inDestructor_of_frames hr.owns (fun _ => rfl) rfl rfl) rfl
  | @destruct a time cur next slot coro m f hr ha hm hd =>
      by_cases hpc : p = cur
      · subst hpc
        refine .starts hr.runs (h.mem_of_runs hr.runs) ?_ ?_ (if_pos rfl) ?_
        · refine ha.imp id ?_
          rintro ⟨-, g, frames, hf⟩
          rw [hr.owns.inDestructor, hf]
          rfl
        · rw [← hm.destructor p, hd]
          exact Option.some_ne_none f
        · exact (ProcessRuntime.Owns.inDestructor ⟨if_pos rfl, rfl⟩).trans rfl
      · refine .stays (fun hp => hm.sameCore.procs ▸ hp) (ProcessRuntime.inDestructor_congr ?_)
          (if_neg (Ne.symm hpc))
        simp [ProcessRuntime.reframed, hpc]
  | terminate hr ha hm hd =>
      refine destructorMove_terminated p (h.mem.sameCore hm.sameCore) hm.sameCore.procs ?_
      intro q hq
      simp [ProcessRuntime.yielded, hq]
  | destructed hr hf =>
      refine destructorMove_terminated p h.mem rfl ?_
      intro q hq
      simp [ProcessRuntime.yielded, hq]

/-! ### The law -/

/-- **Where a process is** on the way to its end. -/
inductive DestructorPhase (p : Ptr) (s : Sys) : Prop
  | before (hs : destructorStarts p s.log = 0) (hin : s.host.inDestructor p = false)
  | inside (hs : destructorStarts p s.log = 1) (hin : s.host.inDestructor p = true)
  /-- The destructor has been dropped, after it had taken itself off the process. -/
  | bare (hs : destructorStarts p s.log = 1) (hb : EndsBare p s)
  | ended (hs : destructorStarts p s.log ≤ 1) (hp : p ∉ s.mem.procs)

theorem DestructorPhase.le {p : Ptr} {s : Sys} (h : DestructorPhase p s) :
    destructorStarts p s.log ≤ 1 := by
  cases h with
  | before hs => exact hs.le.trans zero_le_one
  | inside hs | bare hs => exact hs.le
  | ended hs => exact hs

/-- What can happen while a process runs `EndProcess` itself. -/
theorem Step.of_noUserCode {s t : Sys} {a : Act} (hst : Step s a t) (hr : s.control.runs ≠ none)
    (hu : s.userCode = false) :
    a = .endProcess ∨ (∃ q r, a = .scribble q r) ∨ ∃ q x y, a = .overwriteGuards q x y := by
  obtain ⟨fuel, h⟩ := hst
  cases hc : s.control with
  | running time cur next =>
      cases a with
      | endProcess => exact Or.inl rfl
      | scribble q r => exact Or.inr (Or.inl ⟨q, r, rfl⟩)
      | overwriteGuards q x y => exact Or.inr (Or.inr ⟨q, x, y, rfl⟩)
      | _ => simp [step, Sys.mayCall, hc, hu] at h
  | _ =>
      rw [hc] at hr
      exact absurd rfl hr

theorem EndsBare.step {s t : Sys} {a : Act} {p : Ptr} (hb : EndsBare p s) (h : SysInv s)
    (hst : Step s a t) : p ∉ t.mem.procs ∨ EndsBare p t := by
  have hp := h.mem_of_runs hb.runs
  have hact := hst.of_noUserCode (by rw [hb.runs]; exact nofun) hb.noUserCode
  have hcase := step_cases h hst
  cases hcase with
  | destruct hr ha hm hd =>
      rw [hr.eq_of_runs hb.runs, hm.destructor p, hb.noDestructor] at hd
      cases hd
  | terminate hr ha hm hd =>
      obtain rfl := hr.eq_of_runs hb.runs
      exact Or.inl ((h.mem.sameCore hm.sameCore).notMem_procs_terminated _)
  | @scribble q r hq =>
      have hne : p ≠ q := fun e => hq (e ▸ h.mem.procs_live p hp)
      exact Or.inr ⟨hb.runs, hb.outside, hb.noUserCode, by simpa [hne] using hb.noDestructor⟩
  | overwriteGuards =>
      exact Or.inr ⟨hb.runs, hb.outside, hb.noUserCode, by simpa using hb.noDestructor⟩
  | _ => simp at hact

/-- **The step lemma** of the way to the end. -/
theorem DestructorPhase.step {s t : Sys} {a : Act} {p : Ptr} (hph : DestructorPhase p s)
    (h : SysInv s) (hst : Step s a t) (hr : ¬ Restarts p s a) (he : ¬ EndsInDestructor p s a) :
    DestructorPhase p t := by
  have hmove := (step_cases h hst).destructorMove p h
  have hcreates : p ∉ s.mem.live → destructorStarts p t.log = 0 → t.host = s.host →
      DestructorPhase p t := by
    intro hp h0 hh
    refine .before h0 ?_
    rw [hh]
    exact ProcessRuntime.inDestructor_of_none (h.slots_eq_none hp)
  cases hph with
  | before hs hin =>
      cases hmove with
      | creates hp h0 hh => exact hcreates hp h0 hh
      | starts _ _ _ _ hs' hin' => exact .inside (by rw [hs', hs]) hin'
      | drops _ _ _ _ _ _ hin' hs' => exact .before (hs'.trans hs) hin'
      | leaves hp hs' => exact .ended (hs'.trans hs ▸ zero_le_one) hp
      | stays _ hin' hs' => exact .before (hs'.trans hs) (hin'.trans hin)
  | inside hs hin =>
      cases hmove with
      | creates hp h0 hh => exact hcreates hp h0 hh
      | starts hrun _ ha =>
          rcases ha with ha | ha
          · exact absurd ⟨ha, hrun, hin⟩ he
          · exact absurd (ha.symm.trans hin) nofun
      | drops hv _ hd hdes hrun hu hout hs' =>
          -- the round of a process that has been killed: only a destructor that is not set any more
          -- is dropped without being started again
          have hnone : (s.mem.record p).destructor = none :=
            by_contra fun hne => hr ⟨hv, hd, hin, hne⟩
          exact .bare (hs'.trans hs) ⟨hrun, hout, hu, hdes.trans hnone⟩
      | leaves hp hs' => exact .ended (hs'.trans hs).le hp
      | stays _ hin' hs' => exact .inside (hs'.trans hs) (hin'.trans hin)
  | bare hs hb =>
      cases hmove with
      | creates hp h0 hh => exact hcreates hp h0 hh
      | starts _ _ _ hd => exact absurd hb.noDestructor hd
      | drops hv =>
          obtain ⟨-, ⟨time, hc⟩, -⟩ := hv
          have hrun := hb.runs
          rw [hc] at hrun
          cases hrun
      | leaves hp hs' => exact .ended (hs'.trans hs).le hp
      | stays _ _ hs' =>
          rcases hb.step h hst with hp | hb'
          · exact .ended (hs'.trans hs).le hp
          · exact .bare (hs'.trans hs) hb'
  | ended hs hp =>
      cases hmove with
      | creates hl h0 hh => exact hcreates hl h0 hh
      | starts _ hp' | drops _ hp' => exact absurd hp' hp
      | leaves hp' hs' => exact .ended (hs'.le.trans hs) hp'
      | stays hp' _ hs' => exact .ended (hs'.le.trans hs) fun hpt => hp (hp' hpt)

/-- A process that ends with a destructor ends inside it. -/
theorem StepCase.terminated_inDestructor {s t : Sys} {a : Act} {p : Ptr} (hst : StepCase s a t)
    (he : .terminated p ∈ newEvents s t)
    (hd : (s.mem.record p).destructor ≠ none ∨ s.host.inDestructor p = true) :
    s.control.runs = some p ∧ s.host.inDestructor p = true ∧
      destructorStarts p t.log = destructorStarts p s.log := by
  obtain ⟨hrun, hact⟩ := hst.events he
  cases hst with
  | @destruct a time cur next slot coro m f hr ha hm hd' =>
      have key : ∀ {u : Sys}, u.log = [.destructorStarted cur] ++ s.log →
          .terminated p ∉ newEvents s u := by
        intro u hlog
        simp [newEvents_eq hlog]
      exact absurd he (key rfl)
  | terminate hr ha hm hd' =>
      rw [hr.eq_of_runs hrun, hm.destructor p] at hd'
      exact ⟨hrun, hd.resolve_left (not_not.2 hd'), rfl⟩
  | destructed hr hf =>
      obtain rfl := hr.eq_of_runs hrun
      refine ⟨hrun, ?_, rfl⟩
      rw [hr.owns.inDestructor, hf]
      rfl
  | _ => simp at hact

/-- **A destructor runs once.** -/
structure DestructorOnce (p : Ptr) (s : Sys) : Prop where
  /-- The destructor has been started at most once since the process was created. -/
  at_most_once : destructorStarts p s.log ≤ 1
  /-- When the process ends with a destructor, or in one that it has taken off, the destructor has
  been started once. -/
  exactly_once : ∀ a t, Step s a t → .terminated p ∈ newEvents s t →
    (s.mem.record p).destructor ≠ none ∨ s.host.inDestructor p = true →
    destructorStarts p t.log = 1

theorem DestructorPhase.destructorOnce {s : Sys} {p : Ptr} (hph : DestructorPhase p s)
    (h : SysInv s) : DestructorOnce p s := by
  refine ⟨hph.le, ?_⟩
  intro a t hst he hd
  obtain ⟨hrun, hin, hs'⟩ := (step_cases h hst).terminated_inDestructor he hd
  rw [hs']
  cases hph with
  | before _ hout => exact absurd (hout.symm.trans hin) nofun
  | inside hs => exact hs
  | bare _ hb => exact absurd (hb.outside.symm.trans hin) nofun
  | ended _ hp => exact absurd (h.mem_of_runs hrun) hp

/-- **A destructor is started once** in every run that does not start it again: whether the process
ends itself, returns or is killed, and wherever its destructor yields. -/
theorem destructor_once_of_reachable {s : Sys} {p : Ptr}
    (h : ReachableUnder (fun s a => ¬ Restarts p s a ∧ ¬ EndsInDestructor p s a) s) :
    DestructorOnce p s := by
  have key : SysInv s ∧ DestructorPhase p s := by
    refine Runs.Reach.invariant (I := fun s => SysInv s ∧ DestructorPhase p s) ?_ ?_ h
    · rintro s ⟨record, rfl⟩
      exact ⟨Init.sysInv ⟨record, rfl⟩, .before rfl rfl⟩
    · rintro s a t ⟨hs, hph⟩ ⟨hr, he⟩ hst
      exact ⟨(step_cases hs hst).sysInv hs, hph.step hs hst hr he⟩
  exact key.2.destructorOnce key.1

/-- An action that neither starts the destructor of `p` again nor is its call of `EndProcess`. -/
def startsOnce (p : Ptr) (s : Sys) (a : Act) : Bool :=
  !s.host.inDestructor p || a ≠ .endProcess && (a ≠ .tick || s.mem.mode p ≠ .dead)

theorem not_restarts_of_startsOnce {p : Ptr} {s : Sys} {a : Act} (h : startsOnce p s a = true) :
    ¬ Restarts p s a ∧ ¬ EndsInDestructor p s a := by
  constructor
  · rintro ⟨⟨rfl, -⟩, hd, hin, -⟩
    simp [startsOnce, hd, hin] at h
  · rintro ⟨rfl, -, hin⟩
    simp [startsOnce, hin] at h

/-- A process that ends itself, and whose destructor yields; in the next call the destructor kills
the process it belongs to. -/
def yieldsInDestructor : List Act :=
  [.api (.createProcess ⟨0x80001000, 0x80001010, 0x80001100⟩ (.game 1) 5 0), .callProcess 1, .tick,
    .setProcessDestruct (some (.game 7)), .endProcess, .sleepProcess 0, .tick, .tick]
def killedInDestructor : List Act :=
  yieldsInDestructor ++ [.callProcess 1, .tick, .api (.killProcess 0x80001010)]

theorem destructor_once_of_reachable_killed :
    destructorStarts 0x80001010 (stateAfter (killedInDestructor ++ [.returnFrom])).log = 1 := by
  have h := destructor_once_of_reachable (p := 0x80001010) (reachableUnder_stateAfter
    (startsOnce 0x80001010) (fun _ _ => not_restarts_of_startsOnce)
    (by decide +kernel : passes _ _ killedInDestructor = true))
  exact h.exactly_once .returnFrom _ (step_stateAfter (by decide +kernel)) (by decide +kernel)
    (Or.inl (by decide +kernel))

/-- The process is killed by another one while its destructor is suspended. -/
def killedFromOutside : List Act :=
  yieldsInDestructor ++ [.api (.killProcess 0x80001010), .callProcess 1, .tick, .endProcess]

/-- The destructor is started twice. -/
theorem destructor_starts_again :
    ReachableUnder (fun s a => ¬ EndsInDestructor 0x80001010 s a) (stateAfter killedFromOutside) ∧
      destructorStarts 0x80001010 (stateAfter killedFromOutside).log = 2 := by
  refine ⟨?_, by decide +kernel⟩
  refine reachableUnder_stateAfter
    (fun s a => !s.host.inDestructor 0x80001010 || a ≠ .endProcess) ?_ (by decide +kernel)
  rintro s a h ⟨rfl, -, hin⟩
  simp [hin] at h

end Sched
