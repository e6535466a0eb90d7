/-
**The invariant that ties the scheduler to the coroutine runtime.**

The scheduler and the host keep two records of the same processes: the run list with its modes on
one side, the slots with their coroutines on the other.  The invariant says how they agree at each
place control can be at: a slot belongs to a process of the run list, its coroutine waits in one of
the two functions that yield, and its entry function and stack are those of the process record;
while a process runs, its slot is the current one and every other slot waits.

Main definitions:

* `Sched.MemInv` — the run list, and heaps that are allocated and pairwise different;
* `Sched.Suspended`, `Sched.RunningSlot` — the slot of a process that waits, and of the one that
  runs;
* `Sched.AtPlace`, `Sched.SysInv` — **the invariant**;
* `Sched.Grows` — memory changes that keep it wherever control is.

Main results:

* `Sched.AtPlace.grows` — the invariant across a call;
* `Sched.Api.run_memInv`, `Sched.Api.run_grows` — the calls keep it.
-/

import TsaRecomp.Sched.RunList
import TsaRecomp.Sched.System

set_option relaxedAutoImplicit false
set_option autoImplicit false

namespace Sched

/-! ### Memory -/

/-- The run list is in order, and the heaps of the allocated processes are pairwise different. -/
structure MemInv (m : Memory) : Prop where
  run : ∃ l, RunInv m l
  null_notMem : 0 ∉ m.live
  procs_live : ∀ p ∈ m.procs, p ∈ m.live
  heap_ne : ∀ p ∈ m.live, (m.record p).heap ≠ 0
  heap_inj : ∀ p ∈ m.live, ∀ q ∈ m.live, (m.record p).heap = (m.record q).heap → p = q

namespace MemInv

variable {m m' : Memory}

theorem ne_null (h : MemInv m) {p : Ptr} (hp : p ∈ m.live) : p ≠ 0 :=
  fun e => h.null_notMem (e ▸ hp)

/-- A process of the run list is followed by a process of the run list, or by none. -/
theorem next_mem (h : MemInv m) {p : Ptr} (hp : p ∈ m.procs) :
    (m.record p).next = 0 ∨ (m.record p).next ∈ m.procs ∧ (m.record p).next ≠ p := by
  obtain ⟨l, hl⟩ := h.run
  by_cases h0 : (m.record p).next = 0
  · exact Or.inl h0
  · have hpl := (hl.mem_iff p).2 hp
    refine Or.inr ⟨(hl.mem_iff _).1 (hl.list.fwd_mem hpl h0).1, ?_⟩
    intro e
    obtain ⟨l₁, l₂, rfl⟩ := List.append_of_mem hpl
    have hnext := (hl.list.around rfl).2
    have hnd := (List.nodup_append.1 hl.list.nodup).2.1
    cases l₂ with
    | nil => exact h0 (by simpa using hnext)
    | cons a l₂ =>
        have ha : (m.record p).next = a := by simpa using hnext
        exact (List.nodup_cons.1 hnd).1 (by simp [← ha, e])

theorem topProcess_mem (h : MemInv m) : m.topProcess = 0 ∨ m.topProcess ∈ m.procs := by
  obtain ⟨l, hl⟩ := h.run
  by_cases h0 : m.topProcess = 0
  · exact Or.inl h0
  · exact Or.inr ((hl.mem_iff _).1 (hl.list.head_mem h0).1)

theorem sameCore (h : MemInv m) (hs : SameCore m m') : MemInv m' := by
  obtain ⟨l, hl⟩ := h.run
  refine ⟨⟨l, hl.sameCore hs⟩, ?_, ?_, ?_, ?_⟩
  · rw [hs.live]
    exact h.null_notMem
  · rw [hs.live, hs.procs]
    exact h.procs_live
  · intro p hp
    rw [hs.live] at hp
    rw [hs.heap]
    exact h.heap_ne p hp
  · intro p hp q hq
    rw [hs.live] at hp hq
    rw [hs.heap, hs.heap]
    exact h.heap_inj p hp q hq

/-- The invariant only looks at the records that are allocated. -/
theorem congr (h : MemInv m) (hrec : ∀ p ∈ m.live, (m'.record p).core = (m.record p).core)
    (htop : m'.topProcess = m.topProcess) (hprocs : m'.procs = m.procs)
    (hcount : m'.processCount = m.processCount) (hlive : m'.live = m.live) : MemInv m' := by
  obtain ⟨l, hl⟩ := h.run
  have hheap : ∀ p ∈ m.live, (m'.record p).heap = (m.record p).heap := fun p hp =>
    congrArg Core.heap (hrec p hp)
  refine ⟨⟨l, hl.congr (fun p hp => hrec p (h.procs_live p ((hl.mem_iff p).1 hp))) htop hprocs
    hcount⟩, ?_, ?_, ?_, ?_⟩
  · rw [hlive]
    exact h.null_notMem
  · rw [hlive, hprocs]
    exact h.procs_live
  · intro p hp
    rw [hlive] at hp
    rw [hheap p hp]
    exact h.heap_ne p hp
  · intro p hp q hq
    rw [hlive] at hp hq
    rw [hheap p hp, hheap q hq]
    exact h.heap_inj p hp q hq

end MemInv

/-- **The invariant rule for a loop over the run list** that leaves the run list alone: the body is
only applied to the processes of the run list. -/
theorem forEachProcess_procs {body : Memory → Ptr → Except Stop Memory} {I : Memory → Prop}
    {fuel : ℕ} {m m' : Memory} (hm : MemInv m) (hI : I m)
    (hcore : ∀ m p m', body m p = .ok m' → SameCore m m')
    (hbody : ∀ m₁ p m₂, SameCore m m₁ → p ∈ m.procs → I m₁ → body m₁ p = .ok m₂ → I m₂)
    (h : forEachProcess body fuel m m.topProcess = .ok m') : I m' := by
  have key := forEachProcess_induct
    (I := fun m₁ p => SameCore m m₁ ∧ I m₁ ∧ (p = 0 ∨ p ∈ m.procs)) ?_
    ⟨.refl m, hI, hm.topProcess_mem⟩ h
  · exact key.2.1
  · rintro m₁ p m₂ ⟨hs, hI₁, hp⟩ h0 hb
    have hp := hp.resolve_left h0
    have hs₂ := hs.trans (hcore m₁ p m₂ hb)
    refine ⟨hs₂, hbody m₁ p m₂ hs hp hI₁ hb, ?_⟩
    rw [hs₂.next]
    exact (hm.next_mem hp).imp id And.left

/-- **The coverage rule for a loop over the run list** that leaves the run list alone: what the body
does at `p`, and what no other round undoes, is done at the end. -/
theorem forEachProcess_covers {body : Memory → Ptr → Except Stop Memory} {K J : Memory → Prop}
    {fuel : ℕ} {m m' : Memory} {p : Ptr} (hm : MemInv m) (hp : p ∈ m.procs) (hK : K m)
    (hcore : ∀ m p m', body m p = .ok m' → SameCore m m')
    (hbefore : ∀ m₁ q m₂, q ≠ p → K m₁ → body m₁ q = .ok m₂ → K m₂)
    (hat : ∀ m₁ m₂, SameCore m m₁ → K m₁ → body m₁ p = .ok m₂ → J m₂)
    (hafter : ∀ m₁ q m₂, q ≠ p → J m₁ → body m₁ q = .ok m₂ → J m₂)
    (h : forEachProcess body fuel m m.topProcess = .ok m') : J m' := by
  obtain ⟨l, hl⟩ := hm.run
  have key := forEachProcess_induct (I := fun m₁ q => SameCore m m₁ ∧ ∃ l₁ l₂, l = l₁ ++ l₂ ∧
    q = l₂.headD 0 ∧ (p ∈ l₂ ∧ K m₁ ∨ p ∉ l₂ ∧ J m₁)) ?_
    ⟨.refl m, [], l, rfl, hl.list.head_eq, Or.inl ⟨(hl.mem_iff p).2 hp, hK⟩⟩ h
  · -- behind the last process, `p` has been passed
    obtain ⟨-, l₁, l₂, rfl, h0, hcase⟩ := key
    cases l₂ with
    | nil => simpa using hcase
    | cons b l₂ => exact absurd h0.symm (hl.list.ne_null (by simp))
  · rintro m₁ q m₂ ⟨hs, l₁, l₂, rfl, hq, hcase⟩ h0 hb
    cases l₂ with
    | nil => exact absurd hq h0
    | cons b l₂ =>
        obtain rfl : q = b := by simpa using hq
        have hs₂ := hs.trans (hcore m₁ q m₂ hb)
        refine ⟨hs₂, l₁ ++ [q], l₂, by simp, ?_, ?_⟩
        · rw [hs₂.next]
          exact (hl.list.around rfl).2
        · have hnd := (List.nodup_append.1 hl.list.nodup).2.1
          by_cases hqp : q = p
          · subst hqp
            refine Or.inr ⟨(List.nodup_cons.1 hnd).1, ?_⟩
            rcases hcase with ⟨-, hK₁⟩ | ⟨hn, -⟩
            · exact hat m₁ m₂ hs hK₁ hb
            · simp at hn
          · rcases hcase with ⟨hp₂, hK₁⟩ | ⟨hn, hJ⟩
            · refine Or.inl ⟨?_, hbefore m₁ q m₂ hqp hK₁ hb⟩
              rcases List.mem_cons.1 hp₂ with e | hp₂
              · exact absurd e.symm hqp
              · exact hp₂
            · exact Or.inr ⟨fun hp₂ => hn (List.mem_cons_of_mem _ hp₂), hafter m₁ q m₂ hqp hJ hb⟩

/-! ### Slots -/

/-- A frame a coroutine waits in. -/
def Frame.waits (key : Ptr) (frame : Frame) : Prop :=
  frame = .sleepProcess key ∨ frame = .watchChildProcess key

/-- A frame of the code of the game: an entry function, or a destructor of the process. -/
def Frame.isCode (key : Ptr) (frame : Frame) : Prop :=
  (∃ f, frame = .entry f) ∨ ∃ f, frame = .destructor key f

/-- What a slot takes from the record of its process. -/
structure SlotOf (m : Memory) (key : Ptr) (slot : ProcessSlot) : Prop where
  processKey : slot.processKey = key
  entryFunc : slot.entryFunc = (m.record key).prcJumpFunc
  endFunc : slot.endFunc = .endProcess
  initialSp : slot.initialSp = (m.record key).prcJumpSp

/-- The slot of a process that waits. -/
structure Suspended (m : Memory) (key : Ptr) (slot : ProcessSlot) : Prop where
  slotOf : SlotOf m key slot
  state : slot.state = .suspended
  coro : ∃ coro frame frames, slot.coro = some coro ∧ coro.state = .suspended ∧
    coro.frames = frame :: frames ∧ frame.waits key ∧ frames ≠ [] ∧ ∀ f ∈ frames, f.isCode key

/-- The slot of the process that runs. -/
structure RunningSlot (m : Memory) (key : Ptr) (slot : ProcessSlot) : Prop where
  slotOf : SlotOf m key slot
  state : slot.state = .running
  coro : ∃ coro, slot.coro = some coro ∧ coro.state = .running ∧ coro.frames ≠ [] ∧
    ∀ f ∈ coro.frames, f.isCode key

/-- Every slot but that of `cur` belongs to a process of the run list that waits. -/
def OthersSuspended (m : Memory) (r : ProcessRuntime) (cur : Ptr) : Prop :=
  ∀ key slot, key ≠ cur → r.slots key = some slot → key ∈ m.procs ∧ Suspended m key slot

/-- Every slot belongs to a process of the run list that waits. -/
def AllSuspended (m : Memory) (r : ProcessRuntime) : Prop :=
  ∀ key slot, r.slots key = some slot → key ∈ m.procs ∧ Suspended m key slot

/-- No coroutine runs. -/
def Idle (r : ProcessRuntime) : Prop := r.currentSlot = none ∧ r.mcoRunning = none

/-- The saved successor of a process is another process of the run list, or none. -/
def NextOk (m : Memory) (cur next : Ptr) : Prop := next = 0 ∨ next ∈ m.procs ∧ next ≠ cur

/-! ### The invariant -/

/-- What holds of the scheduler and the host where control is. -/
def AtPlace (m : Memory) (r : ProcessRuntime) : Control → Prop
  | .outside => m.currentProcess = 0 ∧ Idle r ∧ AllSuspended m r
  | .loop _ =>
      (m.currentProcess = 0 ∨ m.currentProcess ∈ m.procs) ∧ Idle r ∧ AllSuspended m r
  | .running _ cur next =>
      m.currentProcess = cur ∧ cur ∈ m.procs ∧ NextOk m cur next ∧
        r.currentSlot = some cur ∧ r.mcoRunning = some cur ∧
        (∃ slot, r.slots cur = some slot ∧ RunningSlot m cur slot) ∧ OthersSuspended m r cur
  | .yielded _ cur next reason =>
      m.currentProcess = cur ∧ NextOk m cur next ∧ Idle r ∧
        (reason = yieldNormal ∧ cur ∈ m.procs ∧ AllSuspended m r ∨
          reason = yieldTerminate ∧ cur ∉ m.procs ∧ cur ∈ m.live ∧
            m.pendingHeapFree = (m.record cur).heap ∧ OthersSuspended m r cur)

/-- **The invariant of the system.** -/
structure SysInv (s : Sys) : Prop where
  mem : MemInv s.mem
  initialized : s.host.initialized = true
  place : AtPlace s.mem s.host s.control

/-! ### Calls -/

/-- A change of memory that takes no process off the run list and rewrites no core data of an
allocated one. -/
structure Grows (m m' : Memory) : Prop where
  currentProcess : m'.currentProcess = m.currentProcess
  pendingHeapFree : m'.pendingHeapFree = m.pendingHeapFree
  procs : ∀ p ∈ m.procs, p ∈ m'.procs
  live : ∀ p ∈ m.live, p ∈ m'.live
  old : ∀ p ∈ m.live, p ∈ m'.procs → p ∈ m.procs
  heap : ∀ p ∈ m.live, (m'.record p).heap = (m.record p).heap
  prcJumpSp : ∀ p ∈ m.live, (m'.record p).prcJumpSp = (m.record p).prcJumpSp
  prcJumpFunc : ∀ p ∈ m.live, (m'.record p).prcJumpFunc = (m.record p).prcJumpFunc

theorem Grows.of_sameCore {m m' : Memory} (h : SameCore m m') : Grows m m' where
  currentProcess := h.currentProcess
  pendingHeapFree := h.pendingHeapFree
  procs _ hp := h.procs ▸ hp
  live _ hp := h.live ▸ hp
  old _ _ hp := h.procs ▸ hp
  heap _ _ := h.heap _
  prcJumpSp _ _ := h.prcJumpSp _
  prcJumpFunc _ _ := h.prcJumpFunc _

theorem Grows.trans {m m' m'' : Memory} (h : Grows m m') (h' : Grows m' m'') : Grows m m'' where
  currentProcess := h'.currentProcess.trans h.currentProcess
  pendingHeapFree := h'.pendingHeapFree.trans h.pendingHeapFree
  procs p hp := h'.procs p (h.procs p hp)
  live p hp := h'.live p (h.live p hp)
  old p hp hp' := h.old p hp (h'.old p (h.live p hp) hp')
  heap p hp := (h'.heap p (h.live p hp)).trans (h.heap p hp)
  prcJumpSp p hp := (h'.prcJumpSp p (h.live p hp)).trans (h.prcJumpSp p hp)
  prcJumpFunc p hp := (h'.prcJumpFunc p (h.live p hp)).trans (h.prcJumpFunc p hp)

section Grow

variable {m m' : Memory} {r : ProcessRuntime}

theorem SlotOf.grows {key : Ptr} {slot : ProcessSlot} (h : SlotOf m key slot) (hg : Grows m m')
    (hk : key ∈ m.live) : SlotOf m' key slot where
  processKey := h.processKey
  entryFunc := by rw [hg.prcJumpFunc key hk, h.entryFunc]
  endFunc := h.endFunc
  initialSp := by rw [hg.prcJumpSp key hk, h.initialSp]

theorem OthersSuspended.grows {cur : Ptr} (h : OthersSuspended m r cur) (hm : MemInv m)
    (hg : Grows m m') : OthersSuspended m' r cur := by
  intro key slot hne hs
  obtain ⟨hp, hsus⟩ := h key slot hne hs
  exact ⟨hg.procs key hp, hsus.slotOf.grows hg (hm.procs_live key hp), hsus.state, hsus.coro⟩

theorem AllSuspended.grows (h : AllSuspended m r) (hm : MemInv m) (hg : Grows m m') :
    AllSuspended m' r := by
  intro key slot hs
  obtain ⟨hp, hsus⟩ := h key slot hs
  exact ⟨hg.procs key hp, hsus.slotOf.grows hg (hm.procs_live key hp), hsus.state, hsus.coro⟩

theorem NextOk.grows {cur next : Ptr} (h : NextOk m cur next) (hg : Grows m m') :
    NextOk m' cur next := h.imp id fun h => ⟨hg.procs _ h.1, h.2⟩

/-- **The invariant survives every change of memory that grows it.** -/
theorem AtPlace.grows {c : Control} (h : AtPlace m r c) (hm : MemInv m) (hg : Grows m m') :
    AtPlace m' r c := by
  cases c with
  | outside => exact ⟨hg.currentProcess.trans h.1, h.2.1, h.2.2.grows hm hg⟩
  | loop time =>
      refine ⟨?_, h.2.1, h.2.2.grows hm hg⟩
      rw [hg.currentProcess]
      exact h.1.imp id (hg.procs _)
  | running time cur next =>
      obtain ⟨hcur, hp, hn, hcs, hmr, ⟨slot, hs, hrun⟩, ho⟩ := h
      exact ⟨hg.currentProcess.trans hcur, hg.procs _ hp, hn.grows hg, hcs, hmr,
        ⟨slot, hs, hrun.slotOf.grows hg (hm.procs_live _ hp), hrun.state, hrun.coro⟩,
        ho.grows hm hg⟩
  | yielded time cur next reason =>
      obtain ⟨hcur, hn, hi, hr⟩ := h
      refine ⟨hg.currentProcess.trans hcur, hn.grows hg, hi, ?_⟩
      rcases hr with ⟨hr, hp, ha⟩ | ⟨hr, hp, hl, hpend, ho⟩
      · exact Or.inl ⟨hr, hg.procs _ hp, ha.grows hm hg⟩
      · refine Or.inr ⟨hr, fun hp' => hp (hg.old _ hl hp'), hg.live _ hl, ?_, ho.grows hm hg⟩
        rw [hg.pendingHeapFree, hg.heap _ hl, hpend]

end Grow

/-! ### Creation -/

section Creation

variable {fuel : ℕ} {m m' : Memory} {b : Block} {func : ProcessFunc} {priority stackSize : ℕ}

theorem Created.grows (h : Created b func priority stackSize m m') (hb : b.process ∉ m.live) :
    Grows m m' := by
  have hne : ∀ p ∈ m.live, p ≠ b.process := fun p hp e => hb (e ▸ hp)
  refine ⟨h.currentProcess, h.pendingHeapFree, ?_, ?_, ?_, ?_, ?_, ?_⟩
  · intro p hp
    rw [h.procs]
    exact List.mem_append_left _ hp
  · intro p hp
    rw [h.live]
    exact List.mem_cons_of_mem _ hp
  · intro p hp hp'
    rw [h.procs] at hp'
    rcases List.mem_append.1 hp' with hp' | hp'
    · exact hp'
    · exact absurd (List.mem_singleton.1 hp') (hne p hp)
  all_goals
    intro p hp
    rw [h.other p (hne p hp)]

theorem Created.memInv (h : Created b func priority stackSize m m') (hm : MemInv m)
    (hf : b.fresh m) (hc : createProcess fuel m b func priority stackSize = .ok m') :
    MemInv m' := by
  obtain ⟨l, hl⟩ := hm.run
  obtain ⟨h0, hb, hheap⟩ := hf
  have hself : (m'.record b.process).heap = b.heap := by
    rw [h.self]
    rfl
  have hother : ∀ p ∈ m.live, (m'.record p).heap = (m.record p).heap := (h.grows hb).heap
  have hbl : b.process ∉ l := fun hm' => hb (hm.procs_live _ ((hl.mem_iff _).1 hm'))
  refine ⟨⟨_, hl.createProcess hbl h0 hc⟩, ?_, ?_, ?_, ?_⟩
  · rw [h.live]
    intro h0'
    rcases List.mem_cons.1 h0' with h0' | h0'
    · exact h0 h0'.symm
    · exact hm.null_notMem h0'
  · rw [h.live, h.procs]
    intro p hp
    rcases List.mem_append.1 hp with hp | hp
    · exact List.mem_cons_of_mem _ (hm.procs_live p hp)
    · simp [List.mem_singleton.1 hp]
  · rw [h.live]
    intro p hp
    rcases List.mem_cons.1 hp with rfl | hp
    · rw [hself]
      exact h.heap_ne
    · rw [hother p hp]
      exact hm.heap_ne p hp
  · rw [h.live]
    intro p hp q hq he
    rcases List.mem_cons.1 hp with rfl | hp <;> rcases List.mem_cons.1 hq with rfl | hq
    · rfl
    · rw [hself, hother q hq] at he
      exact absurd he.symm (hheap q hq)
    · rw [hself, hother p hp] at he
      exact absurd he (hheap p hp)
    · rw [hother p hp, hother q hq] at he
      exact hm.heap_inj p hp q hq he

end Creation

/-- A call that creates a process creates it first. -/
theorem Api.run_creates {fuel : ℕ} {m m' : Memory} {a : Api} (ha : a.creates = true)
    (hv : a.valid m) (h : a.run fuel m = .ok m') :
    ∃ b func priority stackSize m₁, b.fresh m ∧ a.events = [.created b.process b.heap] ∧
      Sched.createProcess fuel m b func priority stackSize = .ok m₁ ∧
      (m' = m₁ ∨ ∃ root ∈ m.live, m' = Sched.linkChildProcess m₁ root b.process) := by
  cases a with
  | createProcess b func priority stackSize =>
      exact ⟨b, func, priority, stackSize, m', hv, rfl, h, Or.inl rfl⟩
  | createChildProcess b func priority stackSize root =>
      obtain ⟨m₁, h₁, h₂⟩ := bind_eq_ok.1 h
      cases h₂
      exact ⟨b, func, priority, stackSize, m₁, hv.1, rfl, h₁, Or.inr ⟨root, hv.2, rfl⟩⟩
  | _ => cases ha

theorem Api.run_grows {fuel : ℕ} {m m' : Memory} {a : Api} (hv : a.valid m)
    (h : a.run fuel m = .ok m') : Grows m m' := by
  cases ha : a.creates with
  | false => exact .of_sameCore (Api.run_sameCore ha h)
  | true =>
      obtain ⟨b, func, priority, stackSize, m₁, hf, -, hc, he⟩ := Api.run_creates ha hv h
      have hg := (createProcess_created hc).grows hf.2.1
      rcases he with rfl | ⟨root, -, rfl⟩
      · exact hg
      · exact hg.trans (.of_sameCore (linkChildProcess_sameCore m₁ root b.process))

theorem Api.run_memInv {fuel : ℕ} {m m' : Memory} {a : Api} (hm : MemInv m) (hv : a.valid m)
    (h : a.run fuel m = .ok m') : MemInv m' := by
  cases ha : a.creates with
  | false => exact hm.sameCore (Api.run_sameCore ha h)
  | true =>
      obtain ⟨b, func, priority, stackSize, m₁, hf, -, hc, he⟩ := Api.run_creates ha hv h
      have hm₁ := (createProcess_created hc).memInv hm hf hc
      rcases he with rfl | ⟨root, -, rfl⟩
      · exact hm₁
      · exact hm₁.sameCore (linkChildProcess_sameCore m₁ root b.process)

end Sched
