/-
**The order of the rounds in a tick.**

`CallProcess` walks the run list while the processes it visits insert others into it, take
themselves out of it and release their memory.  This module follows the cursor of the walk, which
is `current_process` between two rounds and the saved `next_proc` while a process runs.

The walk never goes back: behind the round of a process there come only processes of no higher
priority, and not the process itself.  But it may go too far.  A process that yields is followed by
its successor of that moment, while a process that ends is followed by the successor it had when it
was resumed; what it has linked right behind itself in between is left out.

Main definitions:

* `Sched.Before`, `Sched.Behind` — the order of the run list, in the list and along the links;
* `Sched.CallMove` — **what a step does in a call of `CallProcess`**;
* `Sched.SameCall` — the runs inside of one call;
* `Sched.VisitedInCall`, `Sched.TickOrder` — the two laws.

Main results:

* `Sched.Before.next` — what follows a process is its successor, or follows its successor;
* `Sched.StepCase.callMove`, `Sched.StepCase.cursor` — the step lemmas;
* `Sched.visits_behind_iff` — **a process behind the cursor is visited, unless a process ends that
  has linked one right behind itself**;
* `Sched.tick_order_of_reachable` — **the rounds of a tick are in order**.
-/

import TsaRecomp.Lib.ListOrder
import TsaRecomp.Sched.Killed

set_option relaxedAutoImplicit false
set_option autoImplicit false

namespace Sched

open PriorityList ListOrder

/-! ### The order of the run list -/

/-- `a` stands in front of `b` in the run list, behind whose last process there is the null link. -/
def Before (m : Memory) (a b : Ptr) : Prop := ∃ l, RunInv m l ∧ Precedes (l ++ [0]) a b

/-- `q` is reached from `p` along the links of the run list. -/
def Behind (m : Memory) (p q : Ptr) : Prop :=
  Relation.TransGen (fun a b => b = (m.record a).next ∧ b ≠ 0) p q

section Lists

variable {m m' : Memory} {l l' : List Ptr}

theorem RunInv.null_notMem (hl : RunInv m l) : 0 ∉ l := hl.list.null_notMem

theorem RunInv.nodup_null (hl : RunInv m l) : (l ++ [0]).Nodup :=
  List.nodup_append.2 ⟨hl.list.nodup, by simp, fun a ha b hb e =>
    hl.null_notMem (by rwa [e, List.mem_singleton.1 hb] at ha)⟩

/-- The processes and their priorities determine the run list. -/
theorem RunInv.unique (hl : RunInv m l) (hl' : RunInv m' l') (hp : m'.procs = m.procs)
    (hprio : ∀ p ∈ m.procs, m'.priority p = m.priority p) : l' = l := by
  have hq : StableQueue m'.priority m.procs l :=
    hl.queue.congr fun p h => hprio p ((hl.mem_iff p).1 h)
  rw [← hp] at hq
  exact hl'.queue.unique hq

namespace Before

variable {a b c : Ptr}

theorem left_mem (h : Before m a b) : a ∈ m.procs := by
  obtain ⟨l, hl, hp⟩ := h
  exact (hl.mem_iff a).1 hp.left_mem_of_concat

theorem right_mem (h : Before m a b) : b = 0 ∨ b ∈ m.procs := by
  obtain ⟨l, hl, hp⟩ := h
  rcases List.mem_append.1 hp.right_mem with hb | hb
  · exact Or.inr ((hl.mem_iff b).1 hb)
  · exact Or.inl (List.mem_singleton.1 hb)

theorem ne (h : Before m a b) : a ≠ b := by
  obtain ⟨l, hl, hp⟩ := h
  exact hp.ne hl.nodup_null

theorem trans (h : Before m a b) (h' : Before m b c) : Before m a c := by
  obtain ⟨l, hl, hp⟩ := h
  obtain ⟨l', hl', hp'⟩ := h'
  rw [hl.unique hl' rfl fun _ _ => rfl] at hp'
  exact ⟨l, hl, hp.trans hp' hl.nodup_null⟩

/-- Priorities do not increase along the run list. -/
theorem priority_le (h : Before m a b) (hb : b ≠ 0) : m.priority b ≤ m.priority a := by
  obtain ⟨l, hl, hp⟩ := h
  obtain ⟨l₁, l₂, he, h₁, h₂⟩ := List.sublist_append_iff.1 hp
  have hl₂ : l₂ = [] := by
    rcases List.sublist_singleton.1 h₂ with h₂ | h₂
    · exact h₂
    · have hlast := congrArg List.getLast? he
      simp [h₂] at hlast
      exact absurd hlast hb
  rw [hl₂, List.append_nil] at he
  exact List.pairwise_iff_forall_sublist.1 hl.queue.sorted (he ▸ h₁)

/-- **What follows a process** is its successor, or follows its successor. -/
theorem next (h : Before m a b) : b = (m.record a).next ∨ Before m (m.record a).next b := by
  obtain ⟨l, hl, hp⟩ := h
  obtain ⟨l₁, l₂, rfl⟩ := List.append_of_mem hp.left_mem_of_concat
  have hnext := (hl.list.around rfl).2
  rw [hnext]
  have hnd := hl.nodup_null
  cases l₂ with
  | nil =>
      simp only [List.append_assoc, List.cons_append, List.nil_append] at hp hnd
      exact (hp.successor hnd).imp id fun h => ⟨_, hl, by simpa using h⟩
  | cons y l₂ =>
      simp only [List.append_assoc, List.cons_append] at hp hnd
      exact (hp.successor hnd).imp id fun h => ⟨_, hl, by simpa using h⟩

end Before

/-- A process stands in front of its successor. -/
theorem MemInv.before_next {a : Ptr} (h : MemInv m) (ha : a ∈ m.procs) :
    Before m a (m.record a).next := by
  obtain ⟨l, hl⟩ := h.run
  obtain ⟨l₁, l₂, rfl⟩ := List.append_of_mem ((hl.mem_iff a).2 ha)
  refine ⟨_, hl, precedes_iff.2 ⟨l₁, l₂ ++ [0], by simp, ?_⟩⟩
  rw [(hl.list.around rfl).2]
  cases l₂ <;> simp

/-- From a process of the run list the links lead along the run list. -/
theorem MemInv.before_of_links {a q : Ptr} (h : MemInv m) (ha : a ∈ m.procs) (ha0 : a ≠ 0)
    (hq : Relation.ReflTransGen (fun a b => b = (m.record a).next ∧ b ≠ 0) a q) :
    q ≠ 0 ∧ (q = a ∨ Before m a q) := by
  induction hq with
  | refl => exact ⟨ha0, Or.inl rfl⟩
  | @tail b c hab hbc ih =>
      obtain ⟨rfl, hc⟩ := hbc
      obtain ⟨hb0, rfl | ih⟩ := ih
      · exact ⟨hc, Or.inr (h.before_next ha)⟩
      · exact ⟨hc, Or.inr (ih.trans (h.before_next (ih.right_mem.resolve_left hb0)))⟩

/-! ### The order across the changes of the run list -/

namespace Before

variable {a b p : Ptr}

/-- The order only depends on the processes and their priorities. -/
theorem of_same (h : Before m a b) (hm : MemInv m') (hp : m'.procs = m.procs)
    (hprio : ∀ p ∈ m.procs, m'.priority p = m.priority p) : Before m' a b := by
  obtain ⟨l, hl, hab⟩ := h
  obtain ⟨l', hl'⟩ := hm.run
  rw [← hl.unique hl' hp hprio] at hab
  exact ⟨l', hl', hab⟩

/-- **A new process** leaves the order of the others as it is. -/
theorem of_created (h : Before m a b) (hm : MemInv m') (hp : m'.procs = m.procs ++ [p])
    (hprio : ∀ p ∈ m.procs, m'.priority p = m.priority p) : Before m' a b := by
  obtain ⟨l, hl, hab⟩ := h
  obtain ⟨l', hl'⟩ := hm.run
  have hq : StableQueue m'.priority m.procs l :=
    hl.queue.congr fun p h => hprio p ((hl.mem_iff p).1 h)
  have hq' := hq.insert p
  rw [← hp] at hq'
  refine ⟨l', hl', hab.mono ?_⟩
  rw [hl'.queue.unique hq']
  exact (sublist_insertByPriority p l).append (List.Sublist.refl _)

/-- **A process that ends** leaves the order of the others as it is. -/
theorem of_ended (h : Before m a b) (hm : MemInv m') (hpm : p ∈ m.procs)
    (hp : m'.procs = m.procs.erase p)
    (hprio : ∀ p ∈ m.procs, m'.priority p = m.priority p) (ha : a ≠ p) (hb : b ≠ p) :
    Before m' a b := by
  obtain ⟨l, hl, hab⟩ := h
  obtain ⟨l', hl'⟩ := hm.run
  have hq : StableQueue m'.priority m.procs l :=
    hl.queue.congr fun p h => hprio p ((hl.mem_iff p).1 h)
  have hpl := (hl.mem_iff p).2 hpm
  obtain ⟨l₁, l₂, rfl⟩ := List.append_of_mem hpl
  have hq' := hq.remove hl.procs_nodup
  rw [← hp] at hq'
  have hnot : p ∉ l₁ := fun h => (List.nodup_append.1 hl.list.nodup).2.2 p h p (by simp) rfl
  have herase : (l₁ ++ p :: l₂ ++ [0]).erase p = l' ++ [0] := by
    rw [hl'.queue.unique hq', List.erase_append_left _ hpl, List.erase_append_right _ hnot,
      List.erase_cons_head]
  exact ⟨l', hl', herase ▸ hab.erase ha hb⟩

end Before

end Lists

/-! ### What a step does -/

theorem Api.run_priority {fuel : ℕ} {m m' : Memory} {a : Api} {p : Ptr} (hv : a.valid m)
    (h : a.run fuel m = .ok m') (hp : p ∈ m.live) : m'.priority p = m.priority p := by
  cases ha : a.creates with
  | false => exact (Api.run_sameCore ha h).priority p
  | true =>
      obtain ⟨b, func, priority, stackSize, m₁, hf, -, hc, he⟩ := Api.run_creates ha hv h
      have h₁ : m₁.priority p = m.priority p := by
        rw [Memory.priority, (createProcess_created hc).other p fun e => hf.2.1 (e ▸ hp)]
      rcases he with rfl | ⟨root, -, rfl⟩
      · exact h₁
      · exact ((linkChildProcess_sameCore m₁ root b.process).priority p).trans h₁

theorem Readies.priority {m m' : Memory} {r r' : ProcessRuntime} {cur : Ptr} {evs : List Event}
    (h : Readies m r cur m' r' evs) (p : Ptr) : m'.priority p = m.priority p := by
  cases h <;> simp [Memory.priority]

theorem Readies.next {m m' : Memory} {r r' : ProcessRuntime} {cur : Ptr} {evs : List Event}
    (h : Readies m r cur m' r' evs) (p : Ptr) : (m'.record p).next = (m.record p).next := by
  cases h <;> simp

/-- The priority of an allocated process is that of its creation. -/
theorem StepCase.priority {s t : Sys} {a : Act} {p : Ptr} (hst : StepCase s a t)
    (hp : p ∈ s.mem.live) : t.mem.priority p = s.mem.priority p := by
  cases hst with
  | initProcess | callProcess | finish | yieldedNormal | yieldedTerminate | watchNoChild => rfl
  | skip hc hcur hpr hm => exact hm.sameCore.priority p
  | start hc hcur hpr hr | resume hc hcur hpr hr => exact hr.priority p
  | api hc hv hm => exact Api.run_priority hv hm hp
  | sleepProcess t hr => exact (sleepCurrent_sameCore s.mem _ t).priority p
  | setProcessDestruct | watchChildProcess | overwriteGuards => simp [Memory.priority]
  | destruct hr ha hm => exact hm.sameCore.priority p
  | terminate hr ha hm =>
      rw [Memory.priority, MemInv.record_terminated]
      exact hm.sameCore.priority p
  | destructed hr => rw [Memory.priority, MemInv.record_terminated]
  | @scribble q r hq =>
      have hne : p ≠ q := fun e => hq (e ▸ hp)
      simp [Memory.priority, hne]

/-- **What a step does in a call of `CallProcess`**: to the cursor, and to the run list. -/
inductive CallMove (s t : Sys) : Prop
  | works (hc : t.control = s.control) (hcur : t.mem.currentProcess = s.mem.currentProcess)
      (hp : t.mem.procs = s.mem.procs)
      (hnext : ∀ p, s.control.terminating = some p →
        (t.mem.record p).next = (s.mem.record p).next)
  | creates {p heap : Ptr} (hc : t.control = s.control)
      (hcur : t.mem.currentProcess = s.mem.currentProcess)
      (hp : t.mem.procs = s.mem.procs ++ [p]) (he : .created p heap ∈ newEvents s t)
      (hend : s.control.terminating = none)
  | skips {time : ℤ} {cur : Ptr} (hc : s.control = .loop time) (hcur : s.mem.currentProcess = cur)
      (hmem : cur ∈ s.mem.procs) (he : .visited cur ∈ newEvents s t) (hc' : t.control = .loop time)
      (hcur' : t.mem.currentProcess = (s.mem.record cur).next) (hp : t.mem.procs = s.mem.procs)
  | enters {time : ℤ} {cur : Ptr} (hc : s.control = .loop time)
      (hcur : s.mem.currentProcess = cur) (hmem : cur ∈ s.mem.procs)
      (he : .visited cur ∈ newEvents s t)
      (hc' : t.control = .running time cur (s.mem.record cur).next)
      (hp : t.mem.procs = s.mem.procs)
  | yields {time : ℤ} {cur next : Ptr} (hc : s.control = .running time cur next)
      (hc' : t.control = .yielded time cur next yieldNormal) (hp : t.mem.procs = s.mem.procs)
  | ends {time : ℤ} {cur next : Ptr} (hc : s.control = .running time cur next)
      (hmem : cur ∈ s.mem.procs) (hc' : t.control = .yielded time cur next yieldTerminate)
      (hp : t.mem.procs = s.mem.procs.erase cur)
      (hnext : (t.mem.record cur).next = (s.mem.record cur).next)
  | continues {time : ℤ} {cur next : Ptr} (hc : s.control = .yielded time cur next yieldNormal)
      (hmem : cur ∈ s.mem.procs) (hc' : t.control = .loop time)
      (hcur' : t.mem.currentProcess = (s.mem.record cur).next) (hp : t.mem.procs = s.mem.procs)
  | frees {time : ℤ} {cur next : Ptr} (hc : s.control = .yielded time cur next yieldTerminate)
      (hc' : t.control = .loop time) (hcur' : t.mem.currentProcess = next)
      (hp : t.mem.procs = s.mem.procs)
  | finishes {time : ℤ} (hc : s.control = .loop time) (hcur : s.mem.currentProcess = 0)
      (hc' : t.control = .outside) (hp : t.mem.procs = s.mem.procs)

/-- The successor of a process that ends is kept in its record. -/
theorem SysInv.next_terminated {s : Sys} {m : Memory} {p : Ptr} (h : SysInv s)
    (hs : SameCore s.mem m) (hp : p ∈ s.mem.procs) :
    ((terminated m p).record p).next = (s.mem.record p).next := by
  have hnext := (h.mem.sameCore hs).next_mem (hs.procs.symm ▸ hp)
  have hne : (m.record p).next ≠ p := by
    rcases hnext with h0 | h0
    · rw [h0]
      exact (h.mem.ne_null (h.mem.procs_live p hp)).symm
    · exact h0.2
  have hlink := (unlinkProcessExport_links hne p).1
  show ((unlinkProcessExport m p).record p).next = _
  rw [hlink, ← hs.next p]
  exact ite_self _

/-- **A step in a call of `CallProcess`** moves the cursor, or the run list, in one of these
ways. -/
theorem StepCase.callMove {s t : Sys} {a : Act} (h : SysInv s) (hst : StepCase s a t)
    (ho : s.control ≠ .outside) : CallMove s t := by
  cases hst with
  | initProcess hc => exact absurd hc ho
  | callProcess time hc => exact absurd hc ho
  | finish time hc h0 => exact .finishes hc h0 rfl rfl
  | @skip time cur m hc hcur hp hm =>
      exact .skips hc hcur hp (mem_newEvents [.visited cur] rfl (by simp)) hc
        (hm.sameCore.next cur) hm.sameCore.procs
  | @start time cur m r evs hc hcur hp hr hs =>
      exact .enters hc hcur hp
        (mem_newEvents (.resumed cur (some r.nextCoroutine) :: evs ++ [.visited cur]) (by simp)
          (by simp)) (by rw [hr.next]) hr.procs
  | @resume time cur m slot coro frame frames hc hcur hp hr hs hco hf hw =>
      exact .enters hc hcur hp
        (mem_newEvents (frame.returns ++ [.resumed cur (some coro.id), .visited cur]) (by simp)
          (by simp)) (by rw [hr.next]) hr.procs
  | yieldedNormal hc hp => exact .continues hc hp rfl rfl rfl
  | yieldedTerminate hc hp hl hheap => exact .frees hc rfl rfl rfl
  | @api a fuel m hc hv hm =>
      have hend := Sys.mayCall_terminating hc
      cases ha : a.creates with
      | false =>
          have hs := Api.run_sameCore ha hm
          refine .works rfl hs.currentProcess hs.procs ?_
          intro p hp
          rw [hend] at hp
          cases hp
      | true =>
          obtain ⟨b, func, priority, stackSize, m₁, hf, hevs, hc₁, he⟩ := Api.run_creates ha hv hm
          have hcr := createProcess_created hc₁
          have hm₁ : m.currentProcess = m₁.currentProcess ∧ m.procs = m₁.procs := by
            rcases he with rfl | ⟨root, -, rfl⟩
            · exact ⟨rfl, rfl⟩
            · have hs := linkChildProcess_sameCore m₁ root b.process
              exact ⟨hs.currentProcess, hs.procs⟩
          have he : .created b.process b.heap ∈ a.events := by simp [hevs]
          exact .creates rfl (hm₁.1.trans hcr.currentProcess) (hm₁.2.trans hcr.procs)
            (mem_newEvents a.events rfl he) hend
  | setProcessDestruct f hr =>
      refine .works rfl rfl rfl ?_
      intro p hp
      simp
  | sleepProcess t hr =>
      exact .yields hr.control rfl (sleepCurrent_sameCore s.mem _ t).procs
  | watchChildProcess hr hch => exact .yields hr.control rfl rfl
  | watchNoChild hr hch => exact .works rfl rfl rfl fun _ _ => rfl
  | destruct hr ha hm hd =>
      exact .works rfl hm.sameCore.currentProcess hm.sameCore.procs fun p _ => hm.sameCore.next p
  | terminate hr ha hm hd =>
      exact .ends hr.control (h.running_mem hr.control) rfl
        ((MemInv.procs_terminated _ _).trans (by rw [hm.sameCore.procs]))
        (h.next_terminated hm.sameCore (h.running_mem hr.control))
  | destructed hr hf =>
      exact .ends hr.control (h.running_mem hr.control) rfl (MemInv.procs_terminated _ _)
        (h.next_terminated (.refl _) (h.running_mem hr.control))
  | @scribble q r hq =>
      refine .works rfl rfl rfl ?_
      intro p hp
      -- a process that has just ended is still allocated
      obtain ⟨time, next, hc⟩ := Control.eq_yielded_of_terminating hp
      have hne : p ≠ q := fun e => hq (e ▸ (h.atTerminate hc).2.1)
      simp [hne]
  | overwriteGuards q stackGuard heapGuard =>
      refine .works rfl rfl rfl ?_
      intro p hp
      simp

/-- **The order of the run list across a step**, but for the process that ends. -/
theorem Before.step {s t : Sys} {a : Act} {x y : Ptr} (hxy : Before s.mem x y) (h : SysInv s)
    (hst : StepCase s a t) (ho : s.control ≠ .outside)
    (hne : ∀ z, s.control.runs = some z → t.control.terminating = some z → x ≠ z ∧ y ≠ z) :
    Before t.mem x y := by
  have hm := (hst.sysInv h).mem
  have hprio : ∀ p ∈ s.mem.procs, t.mem.priority p = s.mem.priority p := fun p hp =>
    hst.priority (h.mem.procs_live p hp)
  cases hst.callMove h ho with
  | works _ _ hp | skips _ _ _ _ _ _ hp | enters _ _ _ _ _ hp | yields _ _ hp
  | continues _ _ _ _ hp | frees _ _ _ hp | finishes _ _ _ hp => exact hxy.of_same hm hp hprio
  | creates _ _ hp => exact hxy.of_created hm hp hprio
  | @ends time cur next hc hmem hc' hp =>
      obtain ⟨hx, hy⟩ := hne cur (by rw [hc]; rfl) (by rw [hc']; rfl)
      exact hxy.of_ended hm hmem hp hprio hx hy

/-! ### The cursor -/

/-- The saved successor of the process that runs stands behind it, and so does the successor of
that moment; behind the end of the process the one does not stand in front of the other. -/
def CursorAt (m : Memory) : Control → Prop
  | .running _ cur next => Before m cur next
  | .yielded _ cur next reason =>
      if reason = yieldTerminate then
        next = (m.record cur).next ∨ Before m (m.record cur).next next
      else Before m cur next
  | _ => True

/-- The cursor of the walk: the process that is visited, or the saved successor of one that has
ended. -/
def Control.cursor (m : Memory) : Control → Ptr
  | .outside => 0
  | .loop _ => m.currentProcess
  | .running _ cur _ => cur
  | .yielded _ cur next reason => if reason = yieldTerminate then next else cur

/-- `p` is in front of the cursor: its round is over. -/
def Passed (p : Ptr) (s : Sys) : Prop := Before s.mem p (s.control.cursor s.mem)

/-- The cursor has come to the priority `n`. -/
def Below (n : ℕ) (s : Sys) : Prop :=
  s.control.cursor s.mem = 0 ∨ s.mem.priority (s.control.cursor s.mem) ≤ n

/-- The round of `q` is still to come. -/
def Awaits (q : Ptr) (m : Memory) : Control → Prop
  | .loop _ => q = m.currentProcess ∨ Before m m.currentProcess q
  | .running _ _ next => q = next ∨ Before m next q
  | .yielded _ cur next reason =>
      if reason = yieldTerminate then q = next ∨ Before m next q else Before m cur q
  | .outside => False

section Yields

variable {m : Memory} {time : ℤ} {cur next q : Ptr}

theorem yieldNormal_ne_terminate : yieldNormal ≠ yieldTerminate := by decide

@[simp] theorem cursorAt_normal : CursorAt m (.yielded time cur next yieldNormal) ↔
    Before m cur next := by rw [CursorAt, if_neg yieldNormal_ne_terminate]

@[simp] theorem cursorAt_terminate : CursorAt m (.yielded time cur next yieldTerminate) ↔
    next = (m.record cur).next ∨ Before m (m.record cur).next next := by
  rw [CursorAt, if_pos rfl]

@[simp] theorem cursor_normal : (Control.yielded time cur next yieldNormal).cursor m = cur := by
  rw [Control.cursor, if_neg yieldNormal_ne_terminate]

@[simp] theorem cursor_terminate :
    (Control.yielded time cur next yieldTerminate).cursor m = next := by
  rw [Control.cursor, if_pos rfl]

@[simp] theorem awaits_normal : Awaits q m (.yielded time cur next yieldNormal) ↔
    Before m cur q := by rw [Awaits, if_neg yieldNormal_ne_terminate]

@[simp] theorem awaits_terminate : Awaits q m (.yielded time cur next yieldTerminate) ↔
    q = next ∨ Before m next q := by rw [Awaits, if_pos rfl]

end Yields

/-- Outside of `CallProcess` a step stays there, or begins a call. -/
theorem StepCase.from_outside {s t : Sys} {a : Act} (hst : StepCase s a t)
    (ho : s.control = .outside) : t.control = .outside ∨ ∃ time, t.control = .loop time := by
  cases hst with
  | initProcess | api | scribble | overwriteGuards => exact Or.inl ho
  | callProcess time => exact Or.inr ⟨time, rfl⟩
  | finish time hc | skip hc | start hc | resume hc | yieldedNormal hc | yieldedTerminate hc =>
      rw [ho] at hc
      cases hc
  | setProcessDestruct f hr | sleepProcess t hr | watchChildProcess hr | watchNoChild hr
  | destruct hr | terminate hr | destructed hr =>
      have hc := hr.control
      rw [ho] at hc
      cases hc

/-- A place at which a process has ended is none at which one runs. -/
theorem Control.not_runs_and_terminating {c : Control} {p : Ptr} (hr : c.runs = some p) :
    c.terminating ≠ some p := by
  cases c with
  | running => exact nofun
  | _ => cases hr

/-- The order of the run list across a step that ends no process. -/
theorem Before.step_of_control {s t : Sys} {a : Act} {x y : Ptr} (hxy : Before s.mem x y)
    (h : SysInv s) (hst : StepCase s a t) (ho : s.control ≠ .outside)
    (hc : t.control.terminating = none ∨ t.control = s.control) : Before t.mem x y := by
  refine hxy.step h hst ho ?_
  intro z hr ht
  rcases hc with hc | hc
  · rw [hc] at ht
    cases ht
  · rw [hc] at ht
    exact absurd ht (Control.not_runs_and_terminating hr)

section Mono

variable {m m' : Memory} {c : Control} {q : Ptr}

theorem CursorAt.mono (h : CursorAt m c) (hk : ∀ x y, Before m x y → Before m' x y)
    (hn : ∀ p, c.terminating = some p → (m'.record p).next = (m.record p).next) :
    CursorAt m' c := by
  cases c with
  | outside | loop time => trivial
  | running time cur next => exact hk cur next h
  | yielded time cur next reason =>
      by_cases hr : reason = yieldTerminate
      · subst hr
        rw [cursorAt_terminate] at h ⊢
        rw [hn cur rfl]
        exact h.imp id (hk _ _)
      · rw [CursorAt, if_neg hr] at h ⊢
        exact hk cur next h

theorem Awaits.mono (h : Awaits q m c) (hk : ∀ x y, Before m x y → Before m' x y)
    (hcur : m'.currentProcess = m.currentProcess) : Awaits q m' c := by
  cases c with
  | outside => exact h
  | loop time =>
      rw [Awaits, hcur]
      exact h.imp id (hk _ _)
  | running time cur next => exact h.imp id (hk _ _)
  | yielded time cur next reason =>
      unfold Awaits at h ⊢
      dsimp only at h ⊢
      split_ifs at h ⊢
      · exact h.imp id (hk _ _)
      · exact hk _ _ h

end Mono

/-- The order of the run list across a step of a process that runs, but for the process. -/
theorem Before.step_of_running {s t : Sys} {a : Act} {time : ℤ} {cur next x y : Ptr}
    (hxy : Before s.mem x y) (h : SysInv s) (hst : StepCase s a t)
    (hc : s.control = .running time cur next) (hx : x ≠ cur) (hy : y ≠ cur) :
    Before t.mem x y := by
  refine hxy.step h hst (by rw [hc]; exact nofun) ?_
  intro z hr _
  rw [hc] at hr
  obtain rfl := Option.some.inj hr
  exact ⟨hx, hy⟩

/-- **The step lemma**: the saved successor stays behind the process that runs. -/
theorem StepCase.cursorAt {s t : Sys} {a : Act} (h : SysInv s) (hst : StepCase s a t)
    (hi : CursorAt s.mem s.control) : CursorAt t.mem t.control := by
  by_cases ho : s.control = .outside
  · rcases hst.from_outside ho with ht | ⟨time, ht⟩ <;> rw [ht] <;> trivial
  have hkeep : t.control.terminating = none ∨ t.control = s.control → ∀ x y,
      Before s.mem x y → Before t.mem x y := fun hc x y hxy => hxy.step_of_control h hst ho hc
  cases hst.callMove h ho with
  | skips _ _ _ _ hc' | continues _ _ hc' | frees _ hc' | finishes _ _ hc' =>
      rw [hc']
      trivial
  | works hc hcur hp hnext =>
      rw [hc]
      exact hi.mono (hkeep (Or.inr hc)) hnext
  | creates hc hcur hp he hend =>
      rw [hc]
      refine hi.mono (hkeep (Or.inr hc)) ?_
      intro p hp
      rw [hend] at hp
      cases hp
  | enters hc hcur hmem he hc' hp =>
      rw [hc']
      exact hkeep (Or.inl (by rw [hc']; rfl)) _ _ (h.mem.before_next hmem)
  | yields hc hc' hp =>
      rw [hc] at hi
      rw [hc', cursorAt_normal]
      exact hkeep (Or.inl (by rw [hc']; rfl)) _ _ hi
  | @ends time cur next hc hmem hc' hp hnext =>
      rw [hc] at hi
      rw [hc', cursorAt_terminate, hnext]
      -- both stand behind the process that is taken out
      exact hi.next.imp id fun hn =>
        hn.step_of_running h hst hc (h.mem.before_next hmem).ne.symm (Before.ne hi).symm

/-- **The run lemma.** -/
theorem ReachableUnder.cursorAt {C : Sys → Act → Prop} {s : Sys} (h : ReachableUnder C s) :
    CursorAt s.mem s.control := by
  refine h.invariant (I := fun s => CursorAt s.mem s.control) ?_
    fun s a t hs hi _ hst => hst.cursorAt hs hi
  rintro s ⟨record, rfl⟩
  trivial

/-- The cursor is a process of the run list, or behind its end. -/
theorem SysInv.cursor_mem {s : Sys} (h : SysInv s) :
    s.control.cursor s.mem = 0 ∨ s.control.cursor s.mem ∈ s.mem.procs := by
  have hplace := h.place
  generalize s.control = c at hplace ⊢
  cases c with
  | outside => exact Or.inl rfl
  | loop time => exact hplace.1
  | running time cur next => exact Or.inr hplace.2.1
  | yielded time cur next reason =>
      obtain ⟨-, hnext, -, ⟨rfl, hp, -⟩ | ⟨rfl, -⟩⟩ := hplace
      · rw [cursor_normal]
        exact Or.inr hp
      · rw [cursor_terminate]
        exact hnext.imp id And.left

/-- The cursor has left a process that has ended. -/
theorem SysInv.cursor_ne {s : Sys} {p : Ptr} (h : SysInv s)
    (ht : s.control.terminating = some p) : s.control.cursor s.mem ≠ p := by
  obtain ⟨time, next, hc⟩ := Control.eq_yielded_of_terminating ht
  obtain ⟨-, hl, -, hnext, -⟩ := h.atTerminate hc
  rw [hc, cursor_terminate]
  rcases hnext with rfl | hnext
  · exact (h.mem.ne_null hl).symm
  · exact hnext.2

/-- **The step lemma**: the cursor does not go back. -/
theorem StepCase.cursor {s t : Sys} {a : Act} (h : SysInv s) (hst : StepCase s a t)
    (hi : CursorAt s.mem s.control) (ho : s.control ≠ .outside) :
    t.control.cursor t.mem = s.control.cursor s.mem ∨
      Before s.mem (s.control.cursor s.mem) (t.control.cursor t.mem) := by
  cases hst.callMove h ho with
  | works hc hcur | creates hc hcur =>
      left
      rw [hc]
      cases s.control <;> simp [Control.cursor, hcur]
  | skips hc hcur hmem he hc' hcur' =>
      right
      rw [hc, hc', Control.cursor, Control.cursor, hcur, hcur']
      exact h.mem.before_next hmem
  | enters hc hcur hmem he hc' =>
      left
      rw [hc, hc', Control.cursor, Control.cursor, hcur]
  | yields hc hc' =>
      left
      rw [hc, hc', cursor_normal, Control.cursor]
  | ends hc hmem hc' =>
      right
      rw [hc] at hi
      rw [hc, hc', cursor_terminate]
      exact hi
  | continues hc hmem hc' hcur' =>
      right
      rw [hc, hc', cursor_normal, Control.cursor, hcur']
      exact h.mem.before_next hmem
  | frees hc hc' hcur' =>
      left
      rw [hc, hc', cursor_terminate, Control.cursor, hcur']
  | finishes hc hcur hc' =>
      left
      rw [hc, hc', Control.cursor, Control.cursor, hcur]

/-- **The step lemma**: the walk does not go back to a process it has passed. -/
theorem StepCase.passed {s t : Sys} {a : Act} {p : Ptr} (h : SysInv s) (hst : StepCase s a t)
    (hi : CursorAt s.mem s.control) (hp : Passed p s) (ho : s.control ≠ .outside) :
    Passed p t := by
  have hp' : Before s.mem p (t.control.cursor t.mem) := by
    rcases hst.cursor h hi ho with he | hb
    · rw [he]
      exact hp
    · exact Before.trans hp hb
  refine hp'.step h hst ho ?_
  intro z hr ht
  refine ⟨?_, (hst.sysInv h).cursor_ne ht⟩
  have hz : s.control.cursor s.mem = z := by
    cases hc : s.control with
    | running time cur next =>
        rw [hc] at hr
        exact Option.some.inj hr
    | _ =>
        rw [hc] at hr
        cases hr
  exact hz ▸ Before.ne hp

/-- **The step lemma**: the priority of the cursor does not grow. -/
theorem StepCase.below {s t : Sys} {a : Act} {n : ℕ} (h : SysInv s) (hst : StepCase s a t)
    (hi : CursorAt s.mem s.control) (hn : Below n s) (ho : s.control ≠ .outside) : Below n t := by
  have hprio : ∀ p ∈ s.mem.procs, t.mem.priority p = s.mem.priority p := fun p hp =>
    hst.priority (h.mem.procs_live p hp)
  by_cases h0 : t.control.cursor t.mem = 0
  · exact Or.inl h0
  right
  rcases hst.cursor h hi ho with he | hb
  · rw [he] at h0 ⊢
    rw [hprio _ (h.cursor_mem.resolve_left h0)]
    exact hn.resolve_left h0
  · have hne : s.control.cursor s.mem ≠ 0 := h.mem.ne_null (h.mem.procs_live _ hb.left_mem)
    rw [hprio _ (hb.right_mem.resolve_left h0)]
    exact (hb.priority_le h0).trans (hn.resolve_left hne)

/-- **The step lemma**: a process whose round is to come is visited, or its round is still to
come. -/
theorem StepCase.awaits {s t : Sys} {a : Act} {q : Ptr} (h : SysInv s) (hst : StepCase s a t)
    (hi : CursorAt s.mem s.control) (hq : Awaits q s.mem s.control) (h0 : q ≠ 0)
    (ho : s.control ≠ .outside) :
    .visited q ∈ newEvents s t ∨ Awaits q t.mem t.control := by
  have hkeep : t.control.terminating = none ∨ t.control = s.control → ∀ x y,
      Before s.mem x y → Before t.mem x y := fun hc x y hxy => hxy.step_of_control h hst ho hc
  cases hst.callMove h ho with
  | works hc hcur | creates hc hcur =>
      rw [hc]
      exact Or.inr (hq.mono (hkeep (Or.inr hc)) hcur)
  | skips hc hcur hmem he hc' hcur' hps =>
      rw [hc, Awaits, hcur] at hq
      rw [hc', Awaits, hcur']
      rcases hq with rfl | hq
      · exact Or.inl he
      · exact Or.inr (hq.next.imp id (hkeep (Or.inl (by rw [hc']; rfl)) _ _))
  | enters hc hcur hmem he hc' hps =>
      rw [hc, Awaits, hcur] at hq
      rw [hc']
      rcases hq with rfl | hq
      · exact Or.inl he
      · exact Or.inr (hq.next.imp id (hkeep (Or.inl (by rw [hc']; rfl)) _ _))
  | @yields time cur next hc hc' hps =>
      rw [hc] at hq hi
      rw [hc', awaits_normal]
      refine Or.inr (hkeep (Or.inl (by rw [hc']; rfl)) _ _ ?_)
      rcases hq with rfl | hq
      · exact hi
      · exact hi.trans hq
  | @ends time cur next hc hmem hc' hps hnext =>
      rw [hc] at hq hi
      rw [hc', awaits_terminate]
      exact Or.inr (hq.imp id fun hq =>
        hq.step_of_running h hst hc (Before.ne hi).symm (Before.trans hi hq).ne.symm)
  | continues hc hmem hc' hcur' hps =>
      rw [hc, awaits_normal] at hq
      rw [hc', Awaits, hcur']
      exact Or.inr (hq.next.imp id (hkeep (Or.inl (by rw [hc']; rfl)) _ _))
  | frees hc hc' hcur' hps =>
      rw [hc, awaits_terminate] at hq
      rw [hc', Awaits, hcur']
      exact Or.inr (hq.imp id (hkeep (Or.inl (by rw [hc']; rfl)) _ _))
  | finishes hc hcur hc' hps =>
      rw [hc, Awaits, hcur] at hq
      rcases hq with rfl | hq
      · exact absurd rfl h0
      · -- nothing stands behind the end
        exact absurd rfl (h.mem.ne_null (h.mem.procs_live 0 hq.left_mem))

/-! ### The runs in a call -/

/-- A run in one call of `CallProcess`, up to its return at most. -/
abbrev SameCall (s t : Sys) : Prop := RunsTo (fun s _ => s.control ≠ .outside) s t

theorem newEvents_self (s : Sys) : newEvents s s = [] := newEvents_eq rfl

/-- **The invariant rule for the runs in a call**, with the history since its start. -/
theorem SameCall.invariant {s t : Sys} {I : List Event → Sys → Prop} (h : Reachable s)
    (hr : SameCall s t) (hI : I [] s)
    (hstep : ∀ evs u a v, SysInv u → CursorAt u.mem u.control → u.control ≠ .outside → I evs u →
      StepCase u a v → I (newEvents u v ++ evs) v) : I (newEvents s t) t := by
  have key : Reachable t ∧ ∃ evs, t.log = evs ++ s.log ∧ I evs t := by
    refine Runs.RunsTo.invariant
      (I := fun t => Reachable t ∧ ∃ evs, t.log = evs ++ s.log ∧ I evs t) ?_ hr ⟨h, [], rfl, hI⟩
    rintro u a v ⟨hu, evs, hlog, hIu⟩ ho hst
    have hcase := step_cases hu.sysInv hst
    obtain ⟨evs', hlog', -⟩ := hcase.tells
    have hI' := hstep evs u a v hu.sysInv hu.cursorAt ho hIu hcase
    rw [newEvents_eq hlog'] at hI'
    exact ⟨hu.step a trivial hst, evs' ++ evs, by rw [hlog', hlog, List.append_assoc], hI'⟩
  obtain ⟨-, evs, hlog, hIt⟩ := key
  rwa [newEvents_eq hlog]

/-- A visit is made at the cursor, of a process. -/
theorem StepCase.visited {s t : Sys} {a : Act} {q : Ptr} (hst : StepCase s a t)
    (he : .visited q ∈ newEvents s t) : s.control.cursor s.mem = q ∧ s.control ≠ .outside := by
  obtain ⟨evs, hlog, htell⟩ := hst.tells
  rw [newEvents_eq hlog] at he
  obtain ⟨⟨-, ⟨time, hc⟩, hcur⟩, -⟩ := htell.visited q he
  rw [hc]
  exact ⟨hcur, nofun⟩

/-- **The run lemma**: a process that is passed is not visited. -/
theorem SameCall.passed {s t : Sys} {p : Ptr} (h : Reachable s) (hr : SameCall s t)
    (hp : Passed p s) : .visited p ∉ newEvents s t ∧ Passed p t := by
  refine SameCall.invariant (I := fun evs t => .visited p ∉ evs ∧ Passed p t) h hr
    ⟨by simp, hp⟩ ?_
  intro evs u a v hu hi ho hI hst
  refine ⟨?_, hst.passed hu hi hI.2 ho⟩
  intro he
  rcases List.mem_append.1 he with he | he
  · exact hI.2.ne (hst.visited he).1.symm
  · exact hI.1 he

/-- **The run lemma**: a process whose round is to come is visited, or its round is still to
come. -/
theorem SameCall.awaits {s t : Sys} {q : Ptr} (h : Reachable s) (hr : SameCall s t) (h0 : q ≠ 0)
    (hq : Awaits q s.mem s.control) :
    .visited q ∈ newEvents s t ∨ Awaits q t.mem t.control := by
  refine SameCall.invariant (I := fun evs t => .visited q ∈ evs ∨ Awaits q t.mem t.control) h hr
    (Or.inr hq) ?_
  intro evs u a v hu hi ho hI hst
  rcases hI with hI | hI
  · exact Or.inl (List.mem_append_right _ hI)
  · exact (hst.awaits hu hi hI h0 ho).imp (List.mem_append_left _) id

/-! ### The processes behind the one that yields -/

/-- `q` is visited in the call that is going on. -/
structure VisitedInCall (s : Sys) (q : Ptr) : Prop where
  /-- When the call returns, its round has been. -/
  returned : ∀ t, SameCall s t → t.control = .outside → .visited q ∈ newEvents s t
  /-- Until then its round has been, or is to come. -/
  meanwhile : ∀ t, SameCall s t → .visited q ∈ newEvents s t ∨ Awaits q t.mem t.control

/-- What is linked behind the position of a process that yields has its round to come, where the
walk goes on with the successor of the process. -/
theorem SysInv.awaits_of_behind {s : Sys} {time : ℤ} {cur next q : Ptr} {reason : ℤ}
    (h : SysInv s) (hc : s.control = .yielded time cur next reason)
    (hn : reason = yieldTerminate → (s.mem.record cur).next = next)
    (hq : Behind s.mem cur q) : q ≠ 0 ∧ Awaits q s.mem s.control := by
  have hplace := h.place
  obtain ⟨b, ⟨rfl, hb0⟩, hbq⟩ := Relation.TransGen.head'_iff.1 hq
  rw [hc] at hplace ⊢
  obtain ⟨-, hnext, -, ⟨rfl, hp, -⟩ | ⟨rfl, -⟩⟩ := hplace
  · have hb := (h.mem.next_mem hp).resolve_left hb0
    obtain ⟨h0, hq⟩ := h.mem.before_of_links hb.1 hb0 hbq
    rw [awaits_normal]
    have hcur := h.mem.before_next hp
    rcases hq with rfl | hq
    · exact ⟨h0, hcur⟩
    · exact ⟨h0, hcur.trans hq⟩
  · obtain rfl := hn rfl
    rw [awaits_terminate]
    exact h.mem.before_of_links (hnext.resolve_left hb0).1 hb0 hbq

/-- **A process behind the one that yields is visited, unless that one ends, and has linked a
process right behind itself since it was resumed.**  Then that process is left out. -/
theorem visits_behind_iff {s : Sys} {time : ℤ} {cur next : Ptr} {reason : ℤ} (h : Reachable s)
    (hc : s.control = .yielded time cur next reason) :
    ((∀ q, Behind s.mem cur q → VisitedInCall s q) ↔
      (reason = yieldTerminate → (s.mem.record cur).next = next)) ∧
    (¬ (reason = yieldTerminate → (s.mem.record cur).next = next) →
      ∃ q, Behind s.mem cur q ∧ ∀ t, SameCall s t → .visited q ∉ newEvents s t) := by
  -- where the saved successor is not the successor, the successor has been passed
  have hskip : ¬ (reason = yieldTerminate → (s.mem.record cur).next = next) →
      Behind s.mem cur (s.mem.record cur).next ∧ Passed (s.mem.record cur).next s ∧
        s.control.cursor s.mem = next ∧ reason = yieldTerminate := by
    intro hn
    obtain ⟨rfl, hne⟩ := Classical.not_imp.1 hn
    have hi := h.cursorAt
    rw [hc, cursorAt_terminate] at hi
    have hb := hi.resolve_left (Ne.symm hne)
    have hcursor : s.control.cursor s.mem = next := by rw [hc, cursor_terminate]
    have h0 := h.sysInv.mem.ne_null (h.sysInv.mem.procs_live _ hb.left_mem)
    exact ⟨.single ⟨rfl, h0⟩, by rw [Passed, hcursor]; exact hb, hcursor, rfl⟩
  refine ⟨⟨?_, ?_⟩, ?_⟩
  · intro hall
    by_contra hn
    obtain ⟨hb, hp, hcursor, rfl⟩ := hskip hn
    rcases (hall _ hb).meanwhile s .refl with he | ha
    · rw [newEvents_self] at he
      cases he
    · rw [Passed, hcursor] at hp
      rw [hc, awaits_terminate] at ha
      rcases ha with he | ha
      · exact hp.ne he
      · exact (hp.trans ha).ne rfl
  · intro hn q hq
    obtain ⟨h0, ha⟩ := h.sysInv.awaits_of_behind hc hn hq
    refine ⟨?_, fun t hr => hr.awaits h h0 ha⟩
    intro t hr ht
    rcases hr.awaits h h0 ha with he | ha
    · exact he
    · rw [ht] at ha
      exact ha.elim
  · intro hn
    obtain ⟨hb, hp, -, -⟩ := hskip hn
    exact ⟨_, hb, fun t hr => (hr.passed h hp).1⟩

/-- An action within a call. -/
def inCall (s : Sys) (_ : Act) : Bool := s.control ≠ .outside

theorem ne_outside_of_inCall {s : Sys} {a : Act} (h : inCall s a = true) :
    s.control ≠ .outside := by simpa [inCall] using h

/-- A process that creates another of a lower priority, behind itself. -/
def creator : List Act :=
  [.api (.createProcess ⟨0x80001000, 0x80001010, 0x80001100⟩ (.game 1) 5 0), .callProcess 1, .tick,
    .api (.createProcess ⟨0x80002000, 0x80002010, 0x80002100⟩ (.game 2) 3 0)]

theorem visits_behind_iff_creator :
    (∀ q, Behind (stateAfter (creator ++ [.sleepProcess 0])).mem 0x80001010 q →
      VisitedInCall (stateAfter (creator ++ [.sleepProcess 0])) q) ∧
    Behind (stateAfter (creator ++ [.sleepProcess 0])).mem 0x80001010 0x80002010 := by
  have hc : (stateAfter (creator ++ [.sleepProcess 0])).control =
      .yielded 1 0x80001010 0 yieldNormal := by decide +kernel
  refine ⟨(visits_behind_iff (reachable_stateAfter _) hc).1.2 ?_, ?_⟩
  · exact fun e => absurd e yieldNormal_ne_terminate
  · exact .single ⟨by decide +kernel, by decide +kernel⟩

/-- When the creator returns, the process that it has created is not visited. -/
theorem visits_behind_missed :
    Reachable (stateAfter (creator ++ [.returnFrom])) ∧
      (stateAfter (creator ++ [.returnFrom])).control =
        .yielded 1 0x80001010 0 yieldTerminate ∧
      Behind (stateAfter (creator ++ [.returnFrom])).mem 0x80001010 0x80002010 ∧
      ∃ t, SameCall (stateAfter (creator ++ [.returnFrom])) t ∧ t.control = .outside ∧
        .visited 0x80002010 ∉ newEvents (stateAfter (creator ++ [.returnFrom])) t := by
  refine ⟨reachable_stateAfter _, by decide +kernel,
    .single ⟨by decide +kernel, by decide +kernel⟩,
    stateAfter ((creator ++ [.returnFrom]) ++ [.tick, .tick]), ?_, by decide +kernel,
    by decide +kernel⟩
  exact runsTo_stateAfter inCall (fun _ _ => ne_outside_of_inCall) (by decide +kernel)
    (by decide +kernel)

/-! ### The order of the visits -/

/-- The saved successor of the process that runs, or that has just yielded. -/
def Control.nextProc : Control → Option Ptr
  | .running _ _ next => some next
  | .yielded _ _ next _ => some next
  | _ => none

/-- The process that has been resumed. -/
def Control.resumed : Control → Option Ptr
  | .running _ cur _ => some cur
  | .yielded _ cur _ reason => if reason = yieldTerminate then none else some cur
  | _ => none

/-- The round of `p` has begun. -/
inductive Begun (p : Ptr) (s : Sys) : Prop
  | passed (h : Passed p s)
  | resumed (h : s.control.resumed = some p)
  | ended (h : p ∉ s.mem.procs)

/-- **The step lemma**: a round that has begun is not begun again, by the same process. -/
theorem StepCase.begun {s t : Sys} {a : Act} {p : Ptr} (h : SysInv s) (hst : StepCase s a t)
    (hi : CursorAt s.mem s.control) (hp : Begun p s) (ho : s.control ≠ .outside) :
    (∃ heap, .created p heap ∈ newEvents s t) ∨ Begun p t := by
  cases hp with
  | passed hp => exact Or.inr (.passed (hst.passed h hi hp ho))
  | ended hp =>
      cases hst.callMove h ho with
      | works _ _ hps | skips _ _ _ _ _ _ hps | enters _ _ _ _ _ hps | yields _ _ hps
      | continues _ _ _ _ hps | frees _ _ _ hps | finishes _ _ _ hps =>
          exact Or.inr (.ended (hps ▸ hp))
      | ends _ _ _ hps =>
          exact Or.inr (.ended fun hp' => hp (List.mem_of_mem_erase (hps ▸ hp')))
      | @creates q heap _ _ hps he =>
          by_cases hq : p = q
          · exact Or.inl ⟨heap, hq ▸ he⟩
          · exact Or.inr (.ended (by simp [hps, hp, hq]))
  | resumed hp =>
      cases hst.callMove h ho with
      | works hc | creates hc => exact Or.inr (.resumed (hc ▸ hp))
      | skips hc | enters hc | finishes hc =>
          rw [hc] at hp
          cases hp
      | yields hc hc' =>
          refine Or.inr (.resumed ?_)
          rw [hc] at hp
          rw [hc', Control.resumed, if_neg yieldNormal_ne_terminate]
          exact hp
      | ends hc hmem hc' hps =>
          rw [hc] at hp
          obtain rfl := Option.some.inj hp
          obtain ⟨l, hl⟩ := h.mem.run
          refine Or.inr (.ended ?_)
          rw [hps]
          exact fun hp' => (hl.procs_nodup.mem_erase_iff.1 hp').1 rfl
      | continues hc hmem hc' hcur' hps =>
          rw [hc, Control.resumed, if_neg yieldNormal_ne_terminate] at hp
          obtain rfl := Option.some.inj hp
          refine Or.inr (.passed ?_)
          rw [Passed, hc', Control.cursor, hcur']
          exact (h.mem.before_next hmem).step_of_control h hst ho (Or.inl (by rw [hc']; rfl))
      | frees hc hc' =>
          rw [hc, Control.resumed, if_pos rfl] at hp
          cases hp

/-- A visit begins the round. -/
theorem StepCase.begins {s t : Sys} {a : Act} {p : Ptr} (h : SysInv s) (hst : StepCase s a t)
    (he : .visited p ∈ newEvents s t) : Begun p t := by
  obtain ⟨evs, hlog, htell⟩ := hst.tells
  rw [newEvents_eq hlog] at he
  obtain ⟨⟨rfl, ⟨time, hc⟩, hcur⟩, hp⟩ := htell.visited p he
  have ho : s.control ≠ .outside := by
    rw [hc]
    exact nofun
  have hstep := hst
  rcases hst.visit_of_mem h hc hcur hp with ⟨m, hm, rfl⟩ | ⟨m, r, evs, next, -, ht, -⟩
  · have hb := (h.mem.before_next hp).step_of_control h hstep ho (Or.inl (by rw [hc]; rfl))
    rw [← hm.sameCore.next] at hb
    exact .passed (by rw [Passed, hc, Control.cursor]; exact hb)
  · exact .resumed (by rw [ht]; rfl)

/-- The visits of a call are in order, and its cursor is allocated. -/
structure TickOrder (s : Sys) : Prop where
  /-- Behind the visit of `p` come visits of no higher priority; and none of `p`, but of a process
  that has been created at its address meanwhile. -/
  visits : ∀ a t p, Step s a t → .visited p ∈ newEvents s t → ∀ u, SameCall t u → ∀ b v q,
    Step u b v → .visited q ∈ newEvents u v → u.mem.priority q ≤ s.mem.priority p ∧
      ((∀ heap, .created p heap ∉ newEvents t u) → q ≠ p)
  /-- `current_process` is an allocated process, or null. -/
  current : s.mem.currentProcess = 0 ∨ s.mem.currentProcess ∈ s.mem.live
  /-- So is the saved successor of the process that runs. -/
  next : ∀ next, s.control.nextProc = some next → next = 0 ∨ next ∈ s.mem.live

theorem SysInv.currentProcess_live {s : Sys} (h : SysInv s) :
    s.mem.currentProcess = 0 ∨ s.mem.currentProcess ∈ s.mem.live := by
  have hplace := h.place
  cases hc : s.control with
  | outside =>
      rw [hc] at hplace
      exact Or.inl hplace.1
  | loop time => exact (h.atLoop hc).1.imp id (h.mem.procs_live _)
  | running time cur next =>
      rw [hc] at hplace
      exact Or.inr (h.mem.procs_live _ (hplace.1.symm ▸ hplace.2.1))
  | yielded time cur next reason =>
      rw [hc] at hplace
      obtain ⟨hcur, -, -, ⟨-, hp, -⟩ | ⟨-, -, hl, -⟩⟩ := hplace
      · exact Or.inr (h.mem.procs_live _ (hcur.symm ▸ hp))
      · exact Or.inr (hcur.symm ▸ hl)

theorem SysInv.nextProc_live {s : Sys} (h : SysInv s) {next : Ptr}
    (hn : s.control.nextProc = some next) : next = 0 ∨ next ∈ s.mem.live := by
  have hplace := h.place
  have hnext : ∃ cur, NextOk s.mem cur next := by
    cases hc : s.control with
    | running time cur next' =>
        rw [hc] at hplace hn
        obtain rfl := Option.some.inj hn
        exact ⟨cur, hplace.2.2.1⟩
    | yielded time cur next' reason =>
        rw [hc] at hplace hn
        obtain rfl := Option.some.inj hn
        exact ⟨cur, hplace.2.1⟩
    | _ =>
        rw [hc] at hn
        cases hn
  obtain ⟨cur, hnext⟩ := hnext
  exact hnext.imp id fun hn => h.mem.procs_live _ hn.1

/-- **The rounds of a tick are in order**, whatever the processes do. -/
theorem tick_order_of_reachable {s : Sys} (h : Reachable s) : TickOrder s := by
  refine ⟨?_, ?_, ?_⟩
  · intro a t p hst he u hr b v q hst' he'
    have ht : Reachable t := h.step a trivial hst
    have hu : Reachable u := ht.runsTo (hr.mono fun _ _ _ => trivial)
    have hcase := step_cases h.sysInv hst
    obtain ⟨hcur, ho⟩ := hcase.visited he
    have hI : Below (s.mem.priority p) u ∧
        ((∃ heap, .created p heap ∈ newEvents t u) ∨ Begun p u) := by
      refine SameCall.invariant (I := fun evs u => Below (s.mem.priority p) u ∧
        ((∃ heap, .created p heap ∈ evs) ∨ Begun p u)) ht hr ⟨?_, ?_⟩ ?_
      · exact hcase.below h.sysInv h.cursorAt (Or.inr (by rw [hcur])) ho
      · exact Or.inr (hcase.begins h.sysInv he)
      · rintro evs w c x hw hi ho ⟨hb, hI⟩ hst
        refine ⟨hst.below hw hi hb ho, ?_⟩
        rcases hI with ⟨heap, hI⟩ | hI
        · exact Or.inl ⟨heap, List.mem_append_right _ hI⟩
        · exact (hst.begun hw hi hI ho).imp
            (fun ⟨heap, hc⟩ => ⟨heap, List.mem_append_left _ hc⟩) id
    have hcase' := step_cases hu.sysInv hst'
    obtain ⟨evs, hlog, htell⟩ := hcase'.tells
    rw [newEvents_eq hlog] at he'
    obtain ⟨⟨-, ⟨time, hc⟩, hq⟩, hmem⟩ := htell.visited q he'
    have hcursor : u.control.cursor u.mem = q := by
      rw [hc]
      exact hq
    refine ⟨?_, ?_⟩
    · have h0 := hu.sysInv.mem.ne_null (hu.sysInv.mem.procs_live q hmem)
      have hb := hI.1
      rw [Below, hcursor] at hb
      exact hb.resolve_left h0
    · rintro hnew rfl
      rcases hI.2 with ⟨heap, hc⟩ | hp | hp | hp
      · exact hnew heap hc
      · rw [Passed, hcursor] at hp
        exact hp.ne rfl
      · rw [hc] at hp
        cases hp
      · exact hp hmem
  · exact h.sysInv.currentProcess_live
  · exact fun next hn => h.sysInv.nextProc_live hn

/-- Two processes, in a call; the first has yielded; the second has been visited. -/
def twoRounds : List Act :=
  [.api (.createProcess ⟨0x80001000, 0x80001010, 0x80001100⟩ (.game 1) 5 0),
    .api (.createProcess ⟨0x80002000, 0x80002010, 0x80002100⟩ (.game 2) 3 0), .callProcess 1]
def twoRoundsFirst : List Act := twoRounds ++ [.tick]
def twoRoundsNext : List Act := twoRoundsFirst ++ [.sleepProcess 0, .tick]

theorem tick_order_of_reachable_twoRounds :
    (stateAfter twoRoundsNext).mem.priority 0x80002010 ≤
        (stateAfter twoRounds).mem.priority 0x80001010 ∧
      TickOrder (stateAfter twoRoundsNext) := by
  have hr : SameCall (stateAfter twoRoundsFirst) (stateAfter twoRoundsNext) :=
    runsTo_stateAfter inCall (fun _ _ => ne_outside_of_inCall) (by decide +kernel)
      (by decide +kernel)
  have hvisits := (tick_order_of_reachable (reachable_stateAfter twoRounds)).visits .tick
    (stateAfter twoRoundsFirst) 0x80001010 (step_stateAfter (by decide +kernel))
    (by decide +kernel) (stateAfter twoRoundsNext) hr .tick
    (stateAfter (twoRoundsNext ++ [.tick])) 0x80002010 (step_stateAfter (by decide +kernel))
    (by decide +kernel)
  exact ⟨hvisits.1, tick_order_of_reachable (reachable_stateAfter twoRoundsNext)⟩

end Sched
