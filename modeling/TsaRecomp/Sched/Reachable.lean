/-
**The scheduler and the host in every reachable state.**

The invariant of the system survives every step.  What follows from it in every reachable state:
the run list is the stable priority queue of the created and not terminated processes, and the
records of the host agree with those of the scheduler, so that none of the host's checks fails.

Main results:

* `Sched.StepCase.sysInv` — the step lemma; `Sched.ReachableUnder.sysInv` — the run lemma;
* `Sched.runList_of_reachable` — **the run list**, in every reachable state;
* `Sched.host_of_reachable` — **scheduler and host agree**, in every reachable state.
-/

import TsaRecomp.Sched.StepCase

set_option relaxedAutoImplicit false
set_option autoImplicit false

namespace Sched

/-! ### Memory across the steps of the scheduler -/

namespace MemInv

variable {m m' : Memory}

/-- The invariant does not look at the current process and the pending heap. -/
theorem globals (h : MemInv m) (hrec : m'.record = m.record)
    (htop : m'.topProcess = m.topProcess) (hprocs : m'.procs = m.procs)
    (hcount : m'.processCount = m.processCount) (hlive : m'.live = m.live) : MemInv m' :=
  h.congr (fun p _ => by rw [hrec]) htop hprocs hcount hlive

theorem initProcess (h : MemInv m) : MemInv (initProcess m) :=
  ⟨⟨[], .nil rfl rfl rfl⟩, h.null_notMem, fun p hp => by simp [Sched.initProcess] at hp,
    h.heap_ne, h.heap_inj⟩

/-- The entry function of a killed process is not part of the invariant of memory. -/
theorem setPrcJumpFunc (h : MemInv m) (p : Ptr) (f : ProcessFunc) :
    MemInv (m.setPrcJumpFunc p f) := by
  obtain ⟨l, hl⟩ := h.run
  have hnext : ∀ q, ((m.setPrcJumpFunc p f).record q).next = (m.record q).next := fun q => by
    simp
  have hyoung : ∀ q, ((m.setPrcJumpFunc p f).record q).youngestChild =
      (m.record q).youngestChild := fun q => by simp
  have hprio : ∀ q, (m.setPrcJumpFunc p f).priority q = m.priority q := fun q => by
    simp [Memory.priority]
  have hheap : ∀ q, ((m.setPrcJumpFunc p f).record q).heap = (m.record q).heap := fun q => by
    simp
  refine ⟨⟨l, hl.list.congr (fun q _ => hnext q) (fun q _ => hyoung q),
    hl.queue.congr fun q _ => hprio q, hl.procs_nodup, hl.count⟩, h.null_notMem, h.procs_live,
    ?_, ?_⟩
  · intro q hq
    rw [hheap]
    exact h.heap_ne q hq
  · intro q hq q' hq' he
    rw [hheap, hheap] at he
    exact h.heap_inj q hq q' hq' he

theorem record_terminated (m : Memory) (p q : Ptr) : (terminated m p).record q =
    { m.record q with
      next := ((terminated m p).record q).next
      youngestChild := ((terminated m p).record q).youngestChild } :=
  (unlinkProcessExport_sameButLinks m p).record q

theorem heap_terminated (m : Memory) (p q : Ptr) :
    ((terminated m p).record q).heap = (m.record q).heap := by
  rw [record_terminated]

theorem live_terminated (m : Memory) (p : Ptr) : (terminated m p).live = m.live :=
  (unlinkProcessExport_sameButLinks m p).live

theorem procs_terminated (m : Memory) (p : Ptr) : (terminated m p).procs = m.procs.erase p :=
  congrArg (List.erase · p) (unlinkProcessExport_sameButLinks m p).procs

/-- **Termination** takes the process off the run list. -/
theorem terminated (h : MemInv m) {p : Ptr} (hp : p ∈ m.procs) : MemInv (terminated m p) := by
  obtain ⟨l, hl⟩ := h.run
  have hs := unlinkProcessExport_sameButLinks m p
  refine ⟨⟨l.erase p, ?_⟩, ?_, ?_, ?_, ?_⟩
  · exact hl.unlinkProcess ((hl.mem_iff p).2 hp) (fun q => rfl) rfl (procs_terminated m p)
      (congrArg u16Dec hs.processCount)
  · rw [live_terminated]
    exact h.null_notMem
  · rw [live_terminated, procs_terminated]
    exact fun q hq => h.procs_live q (List.mem_of_mem_erase hq)
  · rw [live_terminated]
    intro q hq
    rw [heap_terminated]
    exact h.heap_ne q hq
  · rw [live_terminated]
    intro q hq q' hq'
    rw [heap_terminated, heap_terminated]
    exact h.heap_inj q hq q' hq'

/-- A terminated process is not on the run list. -/
theorem notMem_procs_terminated (h : MemInv m) (p : Ptr) : p ∉ (Sched.terminated m p).procs := by
  obtain ⟨l, hl⟩ := h.run
  rw [procs_terminated]
  exact fun hp => (hl.procs_nodup.mem_erase_iff.1 hp).1 rfl

/-- **The release of the heap** of a process that is off the run list. -/
theorem freeHeap (h : MemInv m) {p : Ptr} (hl : p ∈ m.live) (hp : p ∉ m.procs) :
    MemInv (freeHeap m (m.record p).heap) := by
  refine ⟨h.run.imp fun l hl => hl.congr (fun _ _ => rfl) rfl rfl rfl, ?_, ?_, ?_, ?_⟩
  · exact fun h0 => h.null_notMem (List.mem_of_mem_filter h0)
  · intro q hq
    refine List.mem_filter.2 ⟨h.procs_live q hq, ?_⟩
    have : (m.record q).heap ≠ (m.record p).heap := fun e =>
      hp (h.heap_inj q (h.procs_live q hq) p hl e ▸ hq)
    simpa using this
  · exact fun q hq => h.heap_ne q (List.mem_of_mem_filter hq)
  · exact fun q hq q' hq' =>
      h.heap_inj q (List.mem_of_mem_filter hq) q' (List.mem_of_mem_filter hq')

end MemInv

theorem sleepTick_sameCore (m : Memory) (p : Ptr) (time : ℤ) :
    SameCore m (sleepTick m p time) := by
  unfold sleepTick
  dsimp only
  split_ifs
  · exact (SameCore.setSleepTime m p _).trans <| (SameCore.setSleepTime _ p 0).trans <|
      .setExecMode _ p _
  · exact .setSleepTime m p _
  · exact .refl m

theorem sleepCurrent_sameCore (m : Memory) (p : Ptr) (time : ℤ) :
    SameCore m (sleepCurrent m p time) := by
  unfold sleepCurrent
  split_ifs
  · exact (SameCore.setExecMode m p _).trans (.setSleepTime _ p _)
  · exact .refl m

theorem Skips.sameCore {m m' : Memory} {time : ℤ} {cur : Ptr} (h : Skips m time cur m') :
    SameCore m m' := by
  cases h with
  | paused => exact .refl m
  | sleeping => exact sleepTick_sameCore m cur time
  | watching => exact .refl m

theorem EndProcessLeaves.sameCore {m m' : Memory} {p : Ptr} (h : EndProcessLeaves m p m') :
    SameCore m m' := by
  obtain ⟨fuel, m₁, hk, rfl⟩ := h
  exact (killChildProcess_sameCore hk).trans (unlinkChildProcess_sameCore m₁ p)

/-! ### Slots across the steps of the scheduler -/

/-- A slot that waits looks at nothing in the record but the jump buffer. -/
theorem Suspended.congr {m m' : Memory} {key : Ptr} {slot : ProcessSlot}
    (h : Suspended m key slot) (hf : (m'.record key).prcJumpFunc = (m.record key).prcJumpFunc)
    (hsp : (m'.record key).prcJumpSp = (m.record key).prcJumpSp) : Suspended m' key slot :=
  ⟨⟨h.slotOf.processKey, h.slotOf.entryFunc.trans hf.symm, h.slotOf.endFunc,
    h.slotOf.initialSp.trans hsp.symm⟩, h.state, h.coro⟩

theorem AllSuspended.globals {m m' : Memory} {r r' : ProcessRuntime} (h : AllSuspended m r)
    (hrec : m'.record = m.record) (hprocs : m'.procs = m.procs) (hr : r'.slots = r.slots) :
    AllSuspended m' r' := by
  intro key slot hs
  rw [hr] at hs
  obtain ⟨hp, hsus⟩ := h key slot hs
  rw [hprocs]
  exact ⟨hp, hsus.congr (by rw [hrec]) (by rw [hrec])⟩

/-- The slots of the other processes, while `cur` is worked on. -/
theorem AllSuspended.others {m : Memory} {r : ProcessRuntime} (h : AllSuspended m r) (cur : Ptr) :
    OthersSuspended m r cur := fun key slot _ => h key slot

theorem OthersSuspended.congr {m m' : Memory} {r r' : ProcessRuntime} {cur : Ptr}
    (h : OthersSuspended m r cur) (hr : ∀ key, key ≠ cur → r'.slots key = r.slots key)
    (hprocs : ∀ key, key ≠ cur → key ∈ m.procs → key ∈ m'.procs)
    (hf : ∀ key, key ≠ cur → (m'.record key).prcJumpFunc = (m.record key).prcJumpFunc)
    (hsp : ∀ key, key ≠ cur → (m'.record key).prcJumpSp = (m.record key).prcJumpSp) :
    OthersSuspended m' r' cur := by
  intro key slot hne hs
  rw [hr key hne] at hs
  obtain ⟨hp, hsus⟩ := h key slot hne hs
  exact ⟨hprocs key hne hp, hsus.congr (hf key hne) (hsp key hne)⟩

/-- With the slot of `cur`, all slots wait. -/
theorem OthersSuspended.all {m : Memory} {r : ProcessRuntime} (cur : Ptr)
    (h : OthersSuspended m r cur)
    (hcur : ∀ slot, r.slots cur = some slot → cur ∈ m.procs ∧ Suspended m cur slot) :
    AllSuspended m r := by
  intro key slot hs
  by_cases hk : key = cur
  · subst hk
    exact hcur slot hs
  · exact h key slot hk hs

/-- The slot of a process that yields in `SleepProcess` or `WatchChildProcess`. -/
theorem InCoroutine.suspended {s : Sys} {m' : Memory} {time : ℤ} {cur next : Ptr}
    {slot : ProcessSlot} {coro : Coroutine} {frame : Frame}
    (hr : InCoroutine s time cur next slot coro) (hs : SameCore s.mem m') (hw : frame.waits cur) :
    Suspended m' cur { slot with
      state := .suspended
      coro := some { coro with state := .suspended, frames := frame :: coro.frames } } := by
  obtain ⟨coro', hco', -, hne, hcode⟩ := hr.slotState.coro
  obtain rfl : coro' = coro := Option.some.inj (hco'.symm.trans hr.coro_eq)
  have hslot := hr.slotState.slotOf
  refine ⟨⟨hslot.processKey, ?_, hslot.endFunc, ?_⟩, rfl, _, frame, coro'.frames, rfl, rfl, rfl, hw,
    hne, hcode⟩
  · rw [hs.prcJumpFunc]
    exact hslot.entryFunc
  · rw [hs.prcJumpSp]
    exact hslot.initialSp

/-! ### The end of a process -/

/-- The place behind the yield of a terminated process. -/
def Control.terminating : Control → Option Ptr
  | .yielded _ cur _ reason => if reason = yieldTerminate then some cur else none
  | _ => none

theorem Sys.mayCall_terminating {s : Sys} (h : s.mayCall = true) :
    s.control.terminating = none := by
  unfold Sys.mayCall Sys.userCode at h
  split at h
  · next hc _ => rw [hc]; rfl
  · next hc _ => rw [hc]; rfl
  · have hc : s.control = .outside := by simpa using h
    rw [hc]
    rfl

/-! ### The step lemma -/

theorem SysInv.atLoop {s : Sys} {time : ℤ} (h : SysInv s) (hc : s.control = .loop time) :
    (s.mem.currentProcess = 0 ∨ s.mem.currentProcess ∈ s.mem.procs) ∧ Idle s.host ∧
      AllSuspended s.mem s.host := by
  have hplace := h.place
  rwa [hc] at hplace

/-- What is left of a visit, before the switch. -/
theorem Readies.memInv {m m' : Memory} {r r' : ProcessRuntime} {cur : Ptr} {evs : List Event}
    (h : Readies m r cur m' r' evs) (hm : MemInv m) : MemInv m' := by
  cases h with
  | default => exact hm
  | childless => exact hm.sameCore (.setExecMode m cur _)
  | dead => exact hm.setPrcJumpFunc cur _

theorem Readies.procs {m m' : Memory} {r r' : ProcessRuntime} {cur : Ptr} {evs : List Event}
    (h : Readies m r cur m' r' evs) : m'.procs = m.procs := by cases h <;> rfl

theorem Readies.currentProcess {m m' : Memory} {r r' : ProcessRuntime} {cur : Ptr}
    {evs : List Event} (h : Readies m r cur m' r' evs) : m'.currentProcess = m.currentProcess := by
  cases h <;> rfl

theorem Readies.initialized {m m' : Memory} {r r' : ProcessRuntime} {cur : Ptr}
    {evs : List Event} (h : Readies m r cur m' r' evs) : r'.initialized = r.initialized := by
  cases h <;> rfl

/-- A visit that resumes a coroutine leaves the jump buffer as it is. -/
theorem Readies.jump {m m' : Memory} {r r' : ProcessRuntime} {cur : Ptr}
    (h : Readies m r cur m' r' []) : (m'.record cur).prcJumpFunc = (m.record cur).prcJumpFunc ∧
      (m'.record cur).prcJumpSp = (m.record cur).prcJumpSp := by
  cases h <;> simp

theorem Readies.record_of_ne {m m' : Memory} {r r' : ProcessRuntime} {cur p : Ptr}
    {evs : List Event} (h : Readies m r cur m' r' evs) (hp : p ≠ cur) :
    m'.record p = m.record p := by
  cases h <;> simp [hp]

theorem Readies.slots_of_ne {m m' : Memory} {r r' : ProcessRuntime} {cur p : Ptr}
    {evs : List Event} (h : Readies m r cur m' r' evs) (hp : p ≠ cur) :
    r'.slots p = r.slots p := by
  cases h <;> simp [hp]

/-- The slots of the others when a process is started. -/
theorem Readies.slots_started {m m' : Memory} {r r' : ProcessRuntime} {cur p : Ptr}
    {evs : List Event} (h : Readies m r cur m' r' evs) (hp : p ≠ cur) (func : ProcessFunc)
    (sp : Ptr) : (r'.started cur func sp).slots p = r.slots p := by
  simp [ProcessRuntime.started, hp, h.slots_of_ne hp]

/-- A visit that runs a process changes nothing for the others. -/
theorem Readies.others {m m' : Memory} {r r' : ProcessRuntime} {cur : Ptr} {evs : List Event}
    (h : Readies m r cur m' r' evs) (ha : AllSuspended m r) : OthersSuspended m' r' cur := by
  refine (ha.others cur).congr ?_ (fun key _ => h.procs ▸ id) ?_ ?_
  · intro key hk
    cases h <;> simp [hk]
  · intro key hk
    cases h <;> simp [hk]
  · intro key hk
    cases h <;> simp [hk]

/-- The processes but `cur` across a switch into the coroutine of `cur`. -/
theorem atPlace_running {m : Memory} {r : ProcessRuntime} {time : ℤ} {cur : Ptr}
    {slot : ProcessSlot} (hm : MemInv m) (hcur : m.currentProcess = cur) (hp : cur ∈ m.procs)
    (ho : OthersSuspended m r cur) (hs : RunningSlot m cur slot) :
    AtPlace { m with pendingHeapFree := 0 } (r.enter cur slot)
      (.running time cur (m.record cur).next) := by
  refine ⟨hcur, hp, hm.next_mem hp, rfl, rfl, ⟨slot, by simp, ?_⟩, ?_⟩
  · exact ⟨⟨hs.slotOf.processKey, hs.slotOf.entryFunc, hs.slotOf.endFunc, hs.slotOf.initialSp⟩,
      hs.state, hs.coro⟩
  · exact ho.congr (fun key hk => by simp [hk]) (fun _ _ => id) (fun _ _ => rfl) (fun _ _ => rfl)

/-- The place control is at behind a yield in `SleepProcess` or `WatchChildProcess`. -/
theorem InCoroutine.atPlace_yielded {s : Sys} {m' : Memory} {time : ℤ} {cur next : Ptr}
    {slot : ProcessSlot} {coro : Coroutine} {frame : Frame} (h : SysInv s)
    (hr : InCoroutine s time cur next slot coro) (hs : SameCore s.mem m') (hw : frame.waits cur) :
    AtPlace m' (s.host.yielded cur slot coro (frame :: coro.frames) yieldNormal)
      (.yielded time cur next yieldNormal) := by
  have hplace := h.place
  rw [hr.control] at hplace
  obtain ⟨hcur, hp, hnext, -, -, -, ho⟩ := hplace
  have hp' : cur ∈ m'.procs := hs.procs ▸ hp
  refine ⟨hs.currentProcess.trans hcur, hnext.grows (.of_sameCore hs), ⟨rfl, rfl⟩,
    Or.inl ⟨rfl, hp', ?_⟩⟩
  refine OthersSuspended.all cur ?_ fun slot' hs' => ⟨hp', ?_⟩
  · exact ho.congr (fun key hk => by simp [ProcessRuntime.yielded, hk]) (fun _ _ => hs.procs ▸ id)
      (fun key _ => hs.prcJumpFunc key) (fun key _ => hs.prcJumpSp key)
  · obtain rfl := Option.some.inj ((if_pos rfl).symm.trans hs')
    exact hr.suspended hs hw

/-- The place control is at behind the yield of a terminated process. -/
theorem InCoroutine.atPlace_terminated {s : Sys} {m : Memory} {time : ℤ} {cur next : Ptr}
    {slot : ProcessSlot} {coro : Coroutine} {frames : List Frame} (h : SysInv s)
    (hr : InCoroutine s time cur next slot coro) (hs : SameCore s.mem m) :
    AtPlace (terminated m cur) (s.host.yielded cur slot coro frames yieldTerminate)
      (.yielded time cur next yieldTerminate) := by
  have hplace := h.place
  rw [hr.control] at hplace
  obtain ⟨hcur, hp, hnext, -, -, -, ho⟩ := hplace
  have hm := h.mem.sameCore hs
  refine ⟨?_, ?_, ⟨rfl, rfl⟩, Or.inr ⟨rfl, hm.notMem_procs_terminated cur, ?_, ?_, ?_⟩⟩
  · exact ((unlinkProcessExport_sameButLinks m cur).currentProcess.trans
      hs.currentProcess).trans hcur
  · refine hnext.imp id fun hn => ⟨?_, hn.2⟩
    rw [MemInv.procs_terminated, hs.procs]
    exact (List.mem_erase_of_ne hn.2).2 hn.1
  · rw [MemInv.live_terminated, hs.live]
    exact h.mem.procs_live cur hp
  · rw [MemInv.heap_terminated]
    rfl
  · refine ho.congr (fun key hk => by simp [ProcessRuntime.yielded, hk]) ?_ ?_ ?_
    · intro key hk hp
      rw [MemInv.procs_terminated, hs.procs]
      exact (List.mem_erase_of_ne hk).2 hp
    · intro key _
      rw [MemInv.record_terminated]
      exact hs.prcJumpFunc key
    · intro key _
      rw [MemInv.record_terminated]
      exact hs.prcJumpSp key

/-- **The step lemma**: every step keeps the invariant. -/
theorem StepCase.sysInv {s t : Sys} {a : Act} (h : SysInv s) (hst : StepCase s a t) :
    SysInv t := by
  have hplace := h.place
  cases hst with
  | initProcess hc =>
      refine ⟨h.mem.initProcess, rfl, ?_⟩
      rw [hc] at hplace ⊢
      exact ⟨rfl, ⟨rfl, hplace.2.1.2⟩, fun key slot hs => by cases hs⟩
  | callProcess time hc =>
      rw [hc] at hplace
      exact ⟨h.mem.globals rfl rfl rfl rfl rfl, h.initialized, h.mem.topProcess_mem, hplace.2.1,
        hplace.2.2.globals rfl rfl rfl⟩
  | finish time hc h0 =>
      obtain ⟨-, hidle, hall⟩ := h.atLoop hc
      exact ⟨h.mem, h.initialized, h0, hidle, hall⟩
  | skip hc hcur hp hm =>
      obtain ⟨-, hidle, hall⟩ := h.atLoop hc
      have hmem := h.mem.sameCore hm.sameCore
      refine ⟨hmem.globals rfl rfl rfl rfl rfl, h.initialized, ?_⟩
      rw [hc]
      refine ⟨?_, hidle, ?_⟩
      · exact (hmem.next_mem (hm.sameCore.procs ▸ hp)).imp id And.left
      · exact (hall.grows h.mem (.of_sameCore hm.sameCore)).globals rfl rfl rfl
  | start hc hcur hp hr hs =>
      obtain ⟨-, -, hall⟩ := h.atLoop hc
      have hm := hr.memInv h.mem
      refine ⟨hm.globals rfl rfl rfl rfl rfl, hr.initialized.trans h.initialized, ?_⟩
      refine atPlace_running hm (hr.currentProcess.trans hcur) (hr.procs ▸ hp) (hr.others hall) ?_
      exact ⟨⟨rfl, rfl, rfl, rfl⟩, rfl, _, rfl, rfl, by simp, by simp [Frame.isCode]⟩
  | @resume time cur m slot coro frame frames hc hcur hp hr hs hco hf hw =>
      obtain ⟨-, -, hall⟩ := h.atLoop hc
      have hm := hr.memInv h.mem
      refine ⟨hm.globals rfl rfl rfl rfl rfl, h.initialized, ?_⟩
      refine atPlace_running hm (hr.currentProcess.trans hcur) (hr.procs ▸ hp) (hr.others hall) ?_
      -- the frame that yielded is popped: what is left is code of the game
      obtain ⟨-, hslot, -, coro', frame', frames', hco', -, hf', -, hne, hcode⟩ := hall _ _ hs
      obtain rfl : coro' = coro := Option.some.inj (hco'.symm.trans hco)
      obtain ⟨rfl, rfl⟩ := List.cons.inj (hf'.symm.trans hf)
      exact ⟨⟨hslot.processKey, hslot.entryFunc.trans hr.jump.1.symm, hslot.endFunc,
        hslot.initialSp.trans hr.jump.2.symm⟩, rfl, _, rfl, rfl, hne, hcode⟩
  | yieldedNormal hc hp =>
      rw [hc] at hplace
      obtain ⟨-, -, hidle, ⟨-, -, hall⟩ | ⟨-, hp', -⟩⟩ := hplace
      · refine ⟨h.mem.globals rfl rfl rfl rfl rfl, h.initialized, ?_, hidle,
          hall.globals rfl rfl rfl⟩
        exact (h.mem.next_mem hp).imp id And.left
      · exact absurd hp hp'
  | @yieldedTerminate time cur next hc hp hl hheap =>
      rw [hc] at hplace
      obtain ⟨-, hnext, hidle, ⟨-, hp', -⟩ | ⟨-, -, -, -, ho⟩⟩ := hplace
      · exact absurd hp' hp
      · -- the pending heap is the one of the process, which is off the run list
        have hm : MemInv (freeHeap s.mem s.mem.pendingHeapFree) := by
          rw [hheap]
          exact h.mem.freeHeap hl hp
        refine ⟨hm.globals rfl rfl rfl rfl rfl, h.initialized, hnext.imp id And.left,
          ⟨hidle.1, hidle.2⟩, ?_⟩
        refine OthersSuspended.all cur ?_ ?_
        · exact ho.congr (fun key hk => by simp [hk]) (fun _ _ => id) (fun _ _ => rfl)
            (fun _ _ => rfl)
        · intro slot hs
          simp at hs
  | api hc hv hm =>
      exact ⟨Api.run_memInv h.mem hv hm, h.initialized, h.place.grows h.mem (Api.run_grows hv hm)⟩
  | setProcessDestruct f hr =>
      have hs := SameCore.setDestructor s.mem s.mem.currentProcess f
      rw [hr.current] at hs
      exact ⟨h.mem.sameCore hs, h.initialized, h.place.grows h.mem (.of_sameCore hs)⟩
  | sleepProcess t hr =>
      have hs := sleepCurrent_sameCore s.mem s.mem.currentProcess t
      rw [hr.current] at hs
      exact ⟨h.mem.sameCore hs, h.initialized, hr.atPlace_yielded h hs (Or.inl rfl)⟩
  | watchChildProcess hr hch =>
      have hs := SameCore.setExecMode s.mem s.mem.currentProcess .watch
      rw [hr.current] at hs
      exact ⟨h.mem.sameCore hs, h.initialized, hr.atPlace_yielded h hs (Or.inr rfl)⟩
  | watchNoChild hr hch => exact ⟨h.mem, h.initialized, h.place⟩
  | @destruct a time cur next slot coro m f hr ha hm hd =>
      refine ⟨h.mem.sameCore hm.sameCore, h.initialized, ?_⟩
      -- the destructor is pushed on the coroutine of the process
      have hplace' := h.place.grows h.mem (.of_sameCore hm.sameCore)
      rw [hr.control] at hplace' ⊢
      obtain ⟨hcur, hp, hnext, hcs, hmr, ⟨slot', hs', hrun⟩, ho⟩ := hplace'
      obtain rfl : slot' = slot := Option.some.inj (hs'.symm.trans hr.slot_eq)
      obtain ⟨coro', hco', hst, hne, hcode⟩ := hrun.coro
      obtain rfl : coro' = coro := Option.some.inj (hco'.symm.trans hr.coro_eq)
      refine ⟨hcur, hp, hnext, hcs, hmr, ⟨_, if_pos rfl, ?_⟩, ?_⟩
      · refine ⟨⟨hrun.slotOf.processKey, hrun.slotOf.entryFunc, hrun.slotOf.endFunc,
          hrun.slotOf.initialSp⟩, hrun.state, _, rfl, hst, by simp, ?_⟩
        intro frame hframe
        rcases List.mem_cons.1 hframe with rfl | hframe
        · exact Or.inr ⟨f, rfl⟩
        · exact hcode frame hframe
      · exact ho.congr (fun key hk => by simp [ProcessRuntime.reframed, hk]) (fun _ _ => id)
          (fun _ _ => rfl) (fun _ _ => rfl)
  | terminate hr ha hm hd =>
      have hp := h.place
      rw [hr.control] at hp
      exact ⟨(h.mem.sameCore hm.sameCore).terminated (hm.sameCore.procs ▸ hp.2.1), h.initialized,
        hr.atPlace_terminated h hm.sameCore⟩
  | destructed hr hf =>
      have hp := h.place
      rw [hr.control] at hp
      exact ⟨h.mem.terminated hp.2.1, h.initialized, hr.atPlace_terminated h (.refl _)⟩
  | @scribble p r hp =>
      -- the records of the live processes are not written to
      have hrec : ∀ q ∈ s.mem.live, (s.mem.modify p fun _ => r).record q = s.mem.record q :=
        fun q hq => by
          rw [Memory.record_modify, if_neg (fun e : q = p => hp (e ▸ hq))]
      refine ⟨h.mem.congr (fun q hq => by rw [hrec q hq]) rfl rfl rfl rfl, h.initialized, ?_⟩
      refine h.place.grows h.mem ⟨rfl, rfl, fun _ => id, fun _ => id, fun _ _ => id, ?_, ?_, ?_⟩ <;>
        intro q hq <;> rw [hrec q hq]
  | overwriteGuards p stackGuard heapGuard =>
      have hs : SameCore s.mem (s.mem.modify p fun r =>
          { r with stackGuard := stackGuard, heapGuard := heapGuard }) := .modify _ p fun _ => rfl
      exact ⟨h.mem.sameCore hs, h.initialized, h.place.grows h.mem (.of_sameCore hs)⟩

/-! ### The run lemma -/

theorem Init.sysInv {s : Sys} (h : Init s) : SysInv s := by
  obtain ⟨record, rfl⟩ := h
  refine ⟨⟨⟨[], .nil rfl rfl rfl⟩, ?_, ?_, ?_, ?_⟩, rfl, rfl, ⟨rfl, rfl⟩, ?_⟩
  · simp [start]
  · simp [start]
  · simp [start]
  · simp [start]
  · intro key slot hs
    cases hs

/-- **The run lemma**: the invariant holds in every reachable state. -/
theorem ReachableUnder.sysInv {C : Sys → Act → Prop} {s : Sys} (h : ReachableUnder C s) :
    SysInv s :=
  Runs.Reach.invariant (I := SysInv) (fun _ => Init.sysInv)
    (fun _ _ _ hs _ hst => (step_cases hs hst).sysInv hs) h

/-- An invariant of the runs under `C`: it holds at the start, and each case of a step under `C`
keeps it where the invariant of the system holds. -/
theorem ReachableUnder.invariant {C : Sys → Act → Prop} {I : Sys → Prop} {s : Sys}
    (h : ReachableUnder C s) (hinit : ∀ s, Init s → I s)
    (hstep : ∀ s a t, SysInv s → I s → C s a → StepCase s a t → I t) : I s :=
  Runs.Reach.invariant_of (J := SysInv) (fun _ => ReachableUnder.sysInv) hinit
    (fun s a t hs _ hi hc hst => hstep s a t hs hi hc (step_cases hs hst)) h

/-! ### Runs to look at -/

/-- The state behind a list of actions from a memory of zeros, each of them within 100 rounds; the
start when one of them is not available. -/
def stateAfter (acts : List Act) : Sys :=
  match runActs 100 (start fun _ => Process.zero) acts with
  | .ok t => t
  | .error _ => start fun _ => Process.zero

theorem runActs_runsTo {fuel : ℕ} {t : Sys} : ∀ {acts : List Act} {s : Sys},
    runActs fuel s acts = .ok t → RunsTo (fun _ _ => True) s t := by
  intro acts
  induction acts with
  | nil =>
      intro s h
      cases h
      exact .refl
  | cons a acts ih =>
      intro s h
      obtain ⟨u, hu, h⟩ := bind_eq_ok.1 h
      exact (Runs.RunsTo.single trivial ⟨fuel, hu⟩).trans (ih h)

theorem reachable_stateAfter (acts : List Act) : Reachable (stateAfter acts) := by
  refine ⟨start fun _ => Process.zero, ⟨_, rfl⟩, ?_⟩
  unfold stateAfter
  split
  · next h => exact runActs_runsTo h
  · exact .refl

theorem runActs_append {fuel : ℕ} {acts' : List Act} : ∀ {acts : List Act} {s : Sys},
    runActs fuel s (acts ++ acts') = runActs fuel s acts >>= fun t => runActs fuel t acts' := by
  intro acts
  induction acts with
  | nil => exact fun {s} => rfl
  | cons b acts ih =>
      intro s
      cases hs : step fuel s b with
      | error e => simp [runActs, hs, bind, Except.bind]
      | ok t =>
          simp only [List.cons_append, runActs, hs, bind, Except.bind]
          exact ih

/-- The last action of a run that is available all along is a step. -/
theorem step_stateAfter {acts : List Act} {a : Act}
    (h : (runActs 100 (start fun _ => Process.zero) (acts ++ [a])).toBool = true) :
    Step (stateAfter acts) a (stateAfter (acts ++ [a])) := by
  refine ⟨100, ?_⟩
  unfold stateAfter
  rw [runActs_append] at h ⊢
  cases hs : runActs 100 (start fun _ => Process.zero) acts with
  | error e => simp [hs, bind, Except.bind, Except.toBool] at h
  | ok t =>
      cases ht : step 100 t a with
      | error e => simp [hs, ht, runActs, bind, Except.bind, Except.toBool] at h
      | ok u => simp [ht, runActs, bind, Except.bind]

/-- Every action of a run is available and passes a test. -/
def passes (test : Sys → Act → Bool) : Sys → List Act → Bool
  | _, [] => true
  | s, a :: acts => test s a && match step 100 s a with
      | .ok t => passes test t acts
      | .error _ => false

theorem passes_runsTo {test : Sys → Act → Bool} {C : Sys → Act → Prop}
    (hC : ∀ s a, test s a = true → C s a) : ∀ {acts : List Act} {s : Sys},
      passes test s acts = true → ∃ t, runActs 100 s acts = .ok t ∧ RunsTo C s t := by
  intro acts
  induction acts with
  | nil => exact fun {s} _ => ⟨s, rfl, .refl⟩
  | cons a acts ih =>
      intro s h
      rw [passes, Bool.and_eq_true] at h
      obtain ⟨ha, h⟩ := h
      cases hs : step 100 s a with
      | error e => simp [hs] at h
      | ok u =>
          rw [hs] at h
          obtain ⟨t, ht, hr⟩ := ih h
          refine ⟨t, ?_, (Runs.RunsTo.single (hC s a ha) ⟨100, hs⟩).trans hr⟩
          simp [runActs, hs, bind, Except.bind, ht]

/-- A run whose actions pass a test for a condition is a run under the condition. -/
theorem reachableUnder_stateAfter (test : Sys → Act → Bool) {C : Sys → Act → Prop}
    (hC : ∀ s a, test s a = true → C s a) {acts : List Act}
    (h : passes test (start fun _ => Process.zero) acts = true) :
    ReachableUnder C (stateAfter acts) := by
  obtain ⟨t, ht, hr⟩ := passes_runsTo hC h
  refine ⟨start fun _ => Process.zero, ⟨_, rfl⟩, ?_⟩
  unfold stateAfter
  rw [ht]
  exact hr

/-- The same behind a run that is available all along. -/
theorem runsTo_stateAfter (test : Sys → Act → Bool) {C : Sys → Act → Prop}
    (hC : ∀ s a, test s a = true → C s a) {acts acts' : List Act}
    (h : (runActs 100 (start fun _ => Process.zero) acts).toBool = true)
    (h' : passes test (stateAfter acts) acts' = true) :
    RunsTo C (stateAfter acts) (stateAfter (acts ++ acts')) := by
  obtain ⟨t, ht, hr⟩ := passes_runsTo hC h'
  have hlast : stateAfter (acts ++ acts') = t := by
    unfold stateAfter at ht ⊢
    rw [runActs_append]
    cases hs : runActs 100 (start fun _ => Process.zero) acts with
    | error e => simp [hs, Except.toBool] at h
    | ok u =>
        rw [hs] at ht
        simp only [bind, Except.bind, ht]
  rwa [hlast]

/-! ### The run list -/

/-- The run list is in order: a doubly linked list along `next` and `youngest_child`, null at both
ends, that holds the created and not terminated processes once each, by non-increasing priority
and in the order of creation within a priority, and whose length is counted modulo `2 ^ 16`. -/
def RunListInOrder (m : Memory) : Prop :=
  ∃ l : List Ptr,
    DoublyLinked.DList 0 (fun p => (m.record p).next) (fun p => (m.record p).youngestChild)
      m.topProcess l ∧
    l.Nodup ∧ (∀ p, p ∈ l ↔ p ∈ m.procs) ∧
    l.Pairwise (fun p q => (m.record q).priority ≤ (m.record p).priority) ∧
    (∀ n, l.filter (fun p => (m.record p).priority = n) =
      m.procs.filter fun p => (m.record p).priority = n) ∧
    m.processCount = l.length % 2 ^ 16

/-- **The run list is in order in every reachable state.** -/
theorem runList_of_reachable {s : Sys} (h : Reachable s) : RunListInOrder s.mem := by
  obtain ⟨l, hl⟩ := h.sysInv.mem.run
  exact ⟨l, hl.list, hl.list.nodup, hl.mem_iff, hl.queue.sorted, hl.queue.classes, hl.count⟩

/-- Three processes of two priorities; the second one runs. -/
def threeProcesses : Sys := stateAfter
  [.api (.createProcess ⟨0x80001000, 0x80001010, 0x80001100⟩ (.game 1) 5 0),
    .api (.createProcess ⟨0x80002000, 0x80002010, 0x80002100⟩ (.game 2) 9 0),
    .api (.createProcess ⟨0x80003000, 0x80003010, 0x80003100⟩ (.game 3) 5 0),
    .callProcess 1, .tick]

theorem runList_of_reachable_three :
    threeProcesses.mem.procs = [0x80001010, 0x80002010, 0x80003010] ∧
      threeProcesses.mem.topProcess = 0x80002010 ∧ RunListInOrder threeProcesses.mem :=
  ⟨by decide +kernel, by decide +kernel, runList_of_reachable (reachable_stateAfter _)⟩

/-! ### Scheduler and host -/

/-- Scheduler and host agree. -/
structure HostAgrees (s : Sys) : Prop where
  /-- No step ends in a fatal error of the host. -/
  no_fatal : ∀ fuel a format, step fuel s a ≠ .error (.fatal format)
  /-- At the head of the loop of `CallProcess` no slot is current, and every slot waits and belongs
  to a process of the run list, with the jump buffer of that process. -/
  at_visit : ∀ time, s.control = .loop time → s.host.currentSlot = none ∧
    ∀ key slot, s.host.slots key = some slot →
      slot.state = .suspended ∧ key ∈ s.mem.procs ∧ slot.processKey = key ∧
      slot.entryFunc = (s.mem.record key).prcJumpFunc ∧
      slot.initialSp = (s.mem.record key).prcJumpSp ∧ slot.endFunc = .endProcess
  /-- While a process runs, its slot is the current one. -/
  while_running : ∀ time cur next, s.control = .running time cur next →
    s.host.currentSlot = some s.mem.currentProcess ∧
    ∃ slot, s.host.slots s.mem.currentProcess = some slot ∧
      slot.processKey = s.mem.currentProcess

/-- **Scheduler and host agree in every reachable state.** -/
theorem host_of_reachable {s : Sys} (h : Reachable s) : HostAgrees s := by
  have hinv := h.sysInv
  refine ⟨?_, ?_, ?_⟩
  · intro fuel a format he
    exact (step_settles hinv fuel a).of_error he
  · intro time hc
    obtain ⟨-, hidle, hall⟩ := hinv.atLoop hc
    refine ⟨hidle.1, ?_⟩
    intro key slot hs
    obtain ⟨hp, hsus⟩ := hall key slot hs
    exact ⟨hsus.state, hp, hsus.slotOf.processKey, hsus.slotOf.entryFunc, hsus.slotOf.initialSp,
      hsus.slotOf.endFunc⟩
  · intro time cur next hc
    obtain ⟨slot, coro, hr, hcs⟩ := hinv.inCoroutine hc
    rw [hr.current]
    exact ⟨hcs, slot, hr.slot_eq, hr.slotState.slotOf.processKey⟩

/-- One process that sleeps in its coroutine; the scheduler is at the head of its loop. -/
def oneSleeper : Sys := stateAfter
  [.api (.createProcess ⟨0x80001000, 0x80001010, 0x80001100⟩ (.game 1) 5 0), .callProcess 1,
    .tick, .sleepProcess 3, .tick]

theorem host_of_reachable_sleeper :
    oneSleeper.control = .loop 1 ∧ (oneSleeper.host.slots 0x80001010).isSome = true ∧
      HostAgrees oneSleeper :=
  ⟨by decide +kernel, by decide +kernel, host_of_reachable (reachable_stateAfter _)⟩

end Sched
