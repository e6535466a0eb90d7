/-
**The heaps of terminated processes.**

The heap of a process travels from `TerminateProcess_Export` to `CallProcess` through the global
`g_pending_heap_free`, across the switch out of the coroutine that lives in it.  This module reads
the history of a run as a grammar: what a termination leaves is `terminated`, then
`coroutineDestroyed`, then `heapFreed`, of the same process and of the heap it was created with,
with nothing in between, and no heap is freed in any other way.

Main definitions:

* `Sched.heapsOf` — the heaps a history leaves allocated, with their processes;
* `Sched.Released` — the histories whose terminations are complete;
* `Sched.HeapsReleased` — **what holds of the heaps in a state**.

Main results:

* `Sched.StepCase.heapInv` — the step lemma;
* `Sched.heaps_of_reachable` — **each heap is released once, and last**, in every reachable state.
-/

import TsaRecomp.Sched.Reachable

set_option relaxedAutoImplicit false
set_option autoImplicit false

namespace Sched

/-! ### Histories -/

/-- The heaps that have been allocated and not freed, each with the process created in it. -/
def heapsOf : List Event → List (Ptr × Ptr)
  | [] => []
  | .created p h :: log => (p, h) :: heapsOf log
  | .heapFreed h :: log => (heapsOf log).filter fun x => x.2 ≠ h
  | _ :: log => heapsOf log

/-- An event that belongs to the end of a process. -/
def Event.endsProcess : Event → Bool
  | .terminated _ => true
  | .heapFreed _ => true
  | _ => false

/-- A history, newest first, in which each end of a process is complete: the termination, then the
destruction of its coroutine, then the release of the heap it was created with. -/
inductive Released : List Event → Prop
  | nil : Released []
  | other {e : Event} {log : List Event} (h : Released log) (he : e.endsProcess = false) :
      Released (e :: log)
  | release {p h : Ptr} {log : List Event} (hl : Released log) (hp : (p, h) ∈ heapsOf log) :
      Released (.heapFreed h :: .coroutineDestroyed p :: .terminated p :: log)

theorem Released.append {evs log : List Event} (h : Released log)
    (he : ∀ e ∈ evs, e.endsProcess = false) : Released (evs ++ log) := by
  induction evs with
  | nil => exact h
  | cons e evs ih =>
      exact .other (ih fun e' he' => he e' (List.mem_cons_of_mem _ he')) (he e (by simp))

/-! ### The invariant -/

/-- The allocated processes with their heaps. -/
def Memory.heaps (m : Memory) : List (Ptr × Ptr) := m.live.map fun p => (p, (m.record p).heap)

theorem Memory.mem_heaps {m : Memory} {p h : Ptr} :
    (p, h) ∈ m.heaps ↔ p ∈ m.live ∧ h = (m.record p).heap := by
  simp only [Memory.heaps, List.mem_map, Prod.mk.injEq]
  exact ⟨fun ⟨q, hq, hp, hh⟩ => hp ▸ ⟨hq, hh.symm⟩, fun ⟨hp, hh⟩ => ⟨p, hp, rfl, hh.symm⟩⟩

theorem Memory.heaps_congr {m m' : Memory} (hl : m'.live = m.live)
    (hh : ∀ p ∈ m.live, (m'.record p).heap = (m.record p).heap) : m'.heaps = m.heaps := by
  unfold Memory.heaps
  rw [hl]
  exact List.map_congr_left fun p hp => by rw [hh p hp]

/-- The history agrees with memory, and it is complete but for the process that has just yielded
its termination. -/
structure HeapInv (s : Sys) : Prop where
  heaps : heapsOf s.log = s.mem.heaps
  steady : s.control.terminating = none → Released s.log
  terminating : ∀ cur, s.control.terminating = some cur →
    ∃ log, s.log = .terminated cur :: log ∧ Released log

/-- A step that ends no process and keeps the allocated heaps. -/
theorem HeapInv.of_steady {s t : Sys} (h : HeapInv s) (evs : List Event)
    (hlog : t.log = evs ++ s.log) (hc : s.control.terminating = none)
    (hc' : t.control.terminating = none)
    (hevs : ∀ e ∈ evs, e.endsProcess = false) (hheaps : heapsOf (evs ++ s.log) = t.mem.heaps) :
    HeapInv t := by
  refine ⟨by rw [hlog, hheaps], ?_, ?_⟩
  · intro _
    rw [hlog]
    exact (h.steady hc).append hevs
  · intro cur hcur
    rw [hc'] at hcur
    cases hcur

/-- A step that leaves no history. -/
theorem HeapInv.silent {s t : Sys} (h : HeapInv s) (hlog : t.log = s.log)
    (hc : t.control.terminating = s.control.terminating) (hheaps : t.mem.heaps = s.mem.heaps) :
    HeapInv t := by
  refine ⟨by rw [hlog, hheaps, h.heaps], ?_, ?_⟩
  · intro hn
    rw [hlog]
    exact h.steady (hc ▸ hn)
  · intro cur hcur
    rw [hlog]
    exact h.terminating cur (hc ▸ hcur)

/-- A step that terminates a process: no heap is released before its yield. -/
theorem HeapInv.terminated {s t : Sys} (h : HeapInv s) {cur : Ptr}
    (hlog : t.log = .terminated cur :: s.log) (hc : s.control.terminating = none)
    (hc' : t.control.terminating = some cur) (hheaps : t.mem.heaps = s.mem.heaps) :
    HeapInv t := by
  refine ⟨by rw [hlog, hheaps]; exact h.heaps, ?_, ?_⟩
  · intro hn
    rw [hc'] at hn
    cases hn
  · intro cur' hcur
    rw [hc'] at hcur
    cases hcur
    exact ⟨s.log, hlog, h.steady hc⟩

/-- The release: the termination is the last event, and its heap is one of the allocated ones. -/
theorem HeapInv.released {s t : Sys} (h : HeapInv s) {cur : Ptr}
    (hlog : t.log = .heapFreed s.mem.pendingHeapFree :: .coroutineDestroyed cur :: s.log)
    (hc : s.control.terminating = some cur) (hc' : t.control.terminating = none)
    (hl : cur ∈ s.mem.live) (hheap : s.mem.pendingHeapFree = (s.mem.record cur).heap)
    (hheaps : t.mem.heaps = s.mem.heaps.filter fun x => x.2 ≠ s.mem.pendingHeapFree) :
    HeapInv t := by
  obtain ⟨log, hterm, hrel⟩ := h.terminating cur hc
  have hlog' : heapsOf log = s.mem.heaps := by
    have := h.heaps
    rwa [hterm] at this
  refine ⟨?_, ?_, ?_⟩
  · rw [hlog, hheaps, ← h.heaps]
    rfl
  · intro _
    rw [hlog, hterm]
    exact .release hrel (hlog' ▸ Memory.mem_heaps.2 ⟨hl, hheap⟩)
  · intro cur' hcur
    rw [hc'] at hcur
    cases hcur

theorem Memory.heaps_sameCore {m m' : Memory} (hs : SameCore m m') : m'.heaps = m.heaps :=
  Memory.heaps_congr hs.live fun p _ => hs.heap p

theorem heaps_terminated (m : Memory) (p : Ptr) : (terminated m p).heaps = m.heaps :=
  Memory.heaps_congr (MemInv.live_terminated m p) fun q _ => MemInv.heap_terminated m p q

/-- A call allocates the heap its event names. -/
theorem Api.heapsOf_events {fuel : ℕ} {m m' : Memory} {a : Api} {log : List Event}
    (hv : a.valid m) (hr : a.run fuel m = .ok m') (hlog : heapsOf log = m.heaps) :
    heapsOf (a.events ++ log) = m'.heaps := by
  cases ha : a.creates with
  | false =>
      have hevs : a.events = [] := by
        cases a <;> first | rfl | cases ha
      rw [hevs, List.nil_append, hlog, Memory.heaps_sameCore (Api.run_sameCore ha hr)]
  | true =>
      obtain ⟨b, func, priority, stackSize, m₁, hf, hevs, hc, he⟩ := Api.run_creates ha hv hr
      have hcr := createProcess_created hc
      have hm₁ : m₁.heaps = (b.process, b.heap) :: m.heaps := by
        unfold Memory.heaps
        rw [hcr.live, List.map_cons]
        congr 1
        · rw [hcr.self]
          rfl
        · exact List.map_congr_left fun p hp => by rw [(hcr.grows hf.2.1).heap p hp]
      have hm' : m'.heaps = m₁.heaps := by
        rcases he with rfl | ⟨root, -, rfl⟩
        · rfl
        · exact Memory.heaps_sameCore (linkChildProcess_sameCore m₁ root b.process)
      rw [hevs, hm', hm₁, ← hlog]
      rfl

theorem Api.events_endsProcess (a : Api) : ∀ e ∈ a.events, e.endsProcess = false := by
  cases a <;> simp [Api.events, Event.endsProcess]

theorem Readies.heaps {m m' : Memory} {r r' : ProcessRuntime} {cur : Ptr} {evs : List Event}
    (h : Readies m r cur m' r' evs) : m'.heaps = m.heaps := by
  cases h with
  | default => rfl
  | childless => exact Memory.heaps_sameCore (.setExecMode m cur _)
  | dead => exact Memory.heaps_congr rfl fun p _ => by simp

/-- **The step lemma**: every step keeps the history in order. -/
theorem StepCase.heapInv {s t : Sys} {a : Act} (h : HeapInv s) (hst : StepCase s a t) :
    HeapInv t := by
  cases hst with
  | initProcess hc => exact h.silent rfl rfl rfl
  | callProcess time hc =>
      exact h.of_steady [.called time] rfl (by rw [hc]; rfl) rfl
        (by simp [Event.endsProcess]) h.heaps
  | finish time hc h0 => exact h.silent rfl (by rw [hc]; rfl) rfl
  | @skip time cur m hc hcur hp hm =>
      refine h.of_steady [.visited cur] rfl (by rw [hc]; rfl) (by rw [hc]; rfl)
        (by simp [Event.endsProcess]) ?_
      exact h.heaps.trans (Memory.heaps_sameCore hm.sameCore).symm
  | @start time cur m r evs hc hcur hp hr hsl =>
      refine h.of_steady (.resumed cur (some r.nextCoroutine) :: evs ++ [.visited cur])
        (by simp) (by rw [hc]; rfl) rfl ?_ ?_
      · cases hr <;> simp [Event.endsProcess]
      · have : heapsOf (.resumed cur (some r.nextCoroutine) :: evs ++ [.visited cur] ++ s.log) =
            heapsOf s.log := by cases hr <;> rfl
        exact this.trans (h.heaps.trans hr.heaps.symm)
  | @resume time cur m slot coro frame frames hc hcur hp hr hsl hco hf hw =>
      refine h.of_steady (frame.returns ++ [.resumed cur (some coro.id), .visited cur])
        (by simp) (by rw [hc]; rfl) rfl ?_ ?_
      · rcases hw with rfl | rfl <;> simp [Event.endsProcess, Frame.returns]
      · have : heapsOf (frame.returns ++ [.resumed cur (some coro.id), .visited cur] ++ s.log) =
            heapsOf s.log := by rcases hw with rfl | rfl <;> rfl
        exact this.trans (h.heaps.trans hr.heaps.symm)
  | yieldedNormal hc hp => exact h.silent rfl (by rw [hc]; rfl) rfl
  | @yieldedTerminate time cur next hc hp hl hheap =>
      refine h.released rfl (by rw [hc]; rfl) rfl hl hheap ?_
      unfold Memory.heaps freeHeap
      rw [List.filter_map]
      rfl
  | @api a fuel m hc hv hm =>
      exact h.of_steady _ rfl (Sys.mayCall_terminating hc) (Sys.mayCall_terminating hc)
        (Api.events_endsProcess a) (Api.heapsOf_events hv hm h.heaps)
  | setProcessDestruct f hr => exact h.silent rfl rfl (Memory.heaps_sameCore (.setDestructor ..))
  | sleepProcess t hr =>
      exact h.silent rfl (by rw [hr.control]; rfl)
        (Memory.heaps_sameCore (sleepCurrent_sameCore ..))
  | watchChildProcess hr hch =>
      exact h.silent rfl (by rw [hr.control]; rfl) (Memory.heaps_sameCore (.setExecMode ..))
  | @watchNoChild time cur next slot coro hr hch =>
      exact h.of_steady [.watchReturned cur] rfl (by rw [hr.control]; rfl)
        (by rw [hr.control]; rfl) (by simp [Event.endsProcess]) h.heaps
  | @destruct a time cur next slot coro m f hr ha hm hd =>
      exact h.of_steady [.destructorStarted cur] rfl (by rw [hr.control]; rfl)
        (by rw [hr.control]; rfl) (by simp [Event.endsProcess])
        (h.heaps.trans (Memory.heaps_sameCore hm.sameCore).symm)
  | @terminate a time cur next slot coro m hr ha hm hd =>
      exact h.terminated rfl (by rw [hr.control]; rfl) rfl
        ((heaps_terminated m cur).trans (Memory.heaps_sameCore hm.sameCore))
  | @destructed time cur next slot coro f frames hr hf =>
      exact h.terminated rfl (by rw [hr.control]; rfl) rfl (heaps_terminated s.mem cur)
  | @scribble p r hp =>
      refine h.silent rfl rfl (Memory.heaps_congr rfl ?_)
      intro q hq
      rw [Memory.record_modify, if_neg (fun e : q = p => hp (e ▸ hq))]
  | overwriteGuards p stackGuard heapGuard =>
      exact h.silent rfl rfl (Memory.heaps_congr rfl fun q _ => by
        rw [Memory.record_modify]
        split <;> rfl)

/-- **The run lemma**: the history is in order in every reachable state. -/
theorem ReachableUnder.heapInv {C : Sys → Act → Prop} {s : Sys} (h : ReachableUnder C s) :
    HeapInv s := by
  refine h.invariant ?_ fun s a t _ hi _ hst => hst.heapInv hi
  intro s hs
  obtain ⟨record, rfl⟩ := hs
  refine ⟨rfl, fun _ => .nil, ?_⟩
  intro cur hcur
  cases hcur

/-! ### The release -/

/-- What holds of the heaps in a state. -/
structure HeapsReleased (s : Sys) : Prop where
  /-- Every termination in the history is followed by the destruction of the coroutine and the
  release of the heap, at once; and no heap is released otherwise. -/
  history : s.control.terminating = none → Released s.log
  /-- The termination that has just been yielded is the last event. -/
  pending : ∀ time cur next, s.control = .yielded time cur next yieldTerminate →
    ∃ log, s.log = .terminated cur :: log ∧ Released log
  /-- The heaps that the history leaves allocated are those of the processes that are live. -/
  heaps : ∀ p h, (p, h) ∈ heapsOf s.log ↔ p ∈ s.mem.live ∧ h = (s.mem.record p).heap
  /-- No two of them are the same. -/
  heaps_inj : ∀ p q h, (p, h) ∈ heapsOf s.log → (q, h) ∈ heapsOf s.log → p = q
  /-- A process that has yielded its termination is off the run list, and the next step of
  `CallProcess` destroys its coroutine and releases its heap. -/
  release : ∀ time cur next, s.control = .yielded time cur next yieldTerminate →
    cur ∉ s.mem.procs ∧ ∀ fuel, ∃ t h, step fuel s .tick = .ok t ∧ (cur, h) ∈ heapsOf s.log ∧
      t.log = .heapFreed h :: .coroutineDestroyed cur :: s.log ∧ t.host.slots cur = none ∧
      cur ∉ t.mem.live ∧ t.mem.currentProcess = next ∧ next ≠ cur
  /-- The processes of the run list are live. -/
  procs_live : ∀ p ∈ s.mem.procs, p ∈ s.mem.live
  /-- At the head of the loop `current_process` is null or on the run list. -/
  current : ∀ time, s.control = .loop time →
    s.mem.currentProcess = 0 ∨ s.mem.currentProcess ∈ s.mem.procs
  /-- So is `next_proc` while it is kept. -/
  next : ∀ time cur next, (s.control = .running time cur next ∨
    ∃ reason, s.control = .yielded time cur next reason) → next = 0 ∨ next ∈ s.mem.procs
  no_errstop : ∀ fuel a,
    step fuel s a ≠ .error (.errstop "Process : terminate without pending heap\n")

theorem SysInv.nextOk {s : Sys} {time : ℤ} {cur next : Ptr} (h : SysInv s)
    (hc : s.control = .running time cur next ∨
      ∃ reason, s.control = .yielded time cur next reason) :
    NextOk s.mem cur next := by
  have hplace := h.place
  rcases hc with hc | ⟨reason, hc⟩
  · rw [hc] at hplace
    exact hplace.2.2.1
  · rw [hc] at hplace
    exact hplace.2.1

/-- **Each heap is released once, and last**, in every reachable state. -/
theorem heaps_of_reachable {s : Sys} (h : Reachable s) : HeapsReleased s := by
  have hinv := h.sysInv
  have hheap := h.heapInv
  have hheaps : ∀ p h, (p, h) ∈ heapsOf s.log ↔ p ∈ s.mem.live ∧ h = (s.mem.record p).heap :=
    fun p h => by rw [hheap.heaps, Memory.mem_heaps]
  refine ⟨hheap.steady, fun time cur next hc => hheap.terminating cur (by rw [hc]; rfl), hheaps,
    ?_, ?_, hinv.mem.procs_live,
    fun time hc => (hinv.atLoop hc).1, fun time cur next hc => (hinv.nextOk hc).imp id And.left, ?_⟩
  · intro p q h hp hq
    obtain ⟨hp, hph⟩ := (hheaps p h).1 hp
    obtain ⟨hq, hqh⟩ := (hheaps q h).1 hq
    exact hinv.mem.heap_inj p hp q hq (hph.symm.trans hqh)
  · intro time cur next hc
    obtain ⟨hp, hl, hpend, hnext, -⟩ := hinv.atTerminate hc
    have hstep : ∀ fuel, step fuel s .tick = handleYield s time cur next yieldTerminate := by
      intro fuel
      rw [step, hc]
    refine ⟨hp, fun fuel => ⟨_, _, (hstep fuel).trans (handleYield_terminate hinv hc),
      (hheaps cur _).2 ⟨hl, hpend⟩, rfl, by simp, ?_, rfl, ?_⟩⟩
    · -- the record of the process was in the heap
      intro hl'
      have := (List.mem_filter.1 hl').2
      simp [hpend] at this
    · rcases hnext with rfl | hnext
      · exact (hinv.mem.ne_null hl).symm
      · exact hnext.2
  · intro fuel a he
    exact ((step_settles hinv fuel a).of_error he).1 rfl

/-- A process whose destructor has slept, and that has been resumed and has returned: its
termination has just been yielded. -/
def destructorSlept : Sys := stateAfter
  [.api (.createProcess ⟨0x80001000, 0x80001010, 0x80001100⟩ (.game 1) 5 0), .callProcess 1, .tick,
    .setProcessDestruct (some (.game 2)), .returnFrom, .sleepProcess 0, .tick, .tick,
    .callProcess 1, .tick, .returnFrom]

theorem heaps_of_reachable_destructor :
    destructorSlept.control = .yielded 1 0x80001010 0 yieldTerminate ∧
      heapsOf destructorSlept.log = [(0x80001010, 0x80001000)] ∧ HeapsReleased destructorSlept :=
  ⟨by decide +kernel, by decide +kernel, heaps_of_reachable (reachable_stateAfter _)⟩

end Sched
