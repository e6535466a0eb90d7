/-
**How long a call of `CallProcess` takes.**

The walk along the run list does not go back, but the processes that it visits may link others in
front of its end.  Each round is paid by a process that is left behind the cursor, and only a new
process adds one.  So a call returns, after two steps a process at most, when every process that is
resumed hands control back; and the scheduler itself does not stop, but for a process whose record
or stack is broken.

Main definitions:

* `Sched.ToCome`, `Sched.Sys.left` — the processes that are left behind the cursor;
* `Sched.Sys.rounds` — the steps of the scheduler that they account for;
* `Sched.Scheduling` — control is in `CallProcess` itself.

Main results:

* `Sched.StepCase.rounds` — the step lemma;
* `Sched.SysInv.exists_tick` — the scheduler goes on;
* `Sched.call_ends` — **a call of `CallProcess` returns**.
-/

import Mathlib.Data.Set.Card
import TsaRecomp.Lib.Ranked
import TsaRecomp.Sched.Ticks

set_option relaxedAutoImplicit false
set_option autoImplicit false

namespace Sched

open ListOrder Outcome PriorityList

/-! ### The processes that are left -/

/-- `q` stands behind the cursor, or at it before its round. -/
def ToCome (q : Ptr) (m : Memory) : Control → Prop
  | .outside => False
  | .loop _ => q = m.currentProcess ∨ Before m m.currentProcess q
  | .running _ cur _ => Before m cur q
  | .yielded _ cur next reason =>
      if reason = yieldTerminate then q = next ∨ Before m next q else Before m cur q

/-- The processes that are left. -/
def Sys.left (s : Sys) : Set Ptr := {q | q ∈ s.mem.procs ∧ ToCome q s.mem s.control}

/-- The steps of the scheduler in the round that is going on. -/
def Control.steps : Control → ℕ
  | .outside => 0
  | .loop _ => 1
  | .running _ _ _ | .yielded _ _ _ _ => 2

/-- The steps of the scheduler that are left, if no process is created. -/
noncomputable def Sys.rounds (s : Sys) : ℕ := 2 * s.left.ncard + s.control.steps

/-- Control is in `CallProcess` itself. -/
def Scheduling : Control → Prop
  | .loop _ | .yielded _ _ _ _ => True
  | _ => False

/-- A process is created. -/
def Event.creates : Event → Bool
  | .created _ _ => true
  | _ => false

/-- The processes that are created in a history. -/
def creations (evs : List Event) : ℕ := evs.countP Event.creates

section Yields

variable {m : Memory} {time : ℤ} {cur next q : Ptr}

@[simp] theorem toCome_normal : ToCome q m (.yielded time cur next yieldNormal) ↔
    Before m cur q := by rw [ToCome, if_neg yieldNormal_ne_terminate]

@[simp] theorem toCome_terminate : ToCome q m (.yielded time cur next yieldTerminate) ↔
    q = next ∨ Before m next q := by rw [ToCome, if_pos rfl]

end Yields

theorem Sys.finite_left (s : Sys) : s.left.Finite :=
  s.mem.procs.finite_toSet.subset fun _ hq => hq.1

theorem Sys.left_ncard_le (s : Sys) : s.left.ncard ≤ s.mem.procs.length := by
  have hsub : s.left ⊆ (s.mem.procs.toFinset : Set Ptr) := by
    intro q hq
    simpa using hq.1
  calc s.left.ncard ≤ (s.mem.procs.toFinset : Set Ptr).ncard :=
        Set.ncard_le_ncard hsub (Finset.finite_toSet _)
    _ = s.mem.procs.toFinset.card := Set.ncard_coe_finset _
    _ ≤ s.mem.procs.length := List.toFinset_card_le _

theorem Sys.rounds_le (s : Sys) : s.rounds ≤ 2 * s.mem.procs.length + 2 := by
  have hleft := s.left_ncard_le
  have hsteps : s.control.steps ≤ 2 := by cases s.control <;> simp [Control.steps]
  unfold Sys.rounds
  omega

/-! ### The order of the run list, backwards across a step -/

section Backwards

variable {m m' : Memory} {a b p : Ptr}

/-- What stands in front of another process when a third one is gone did so before. -/
theorem Before.of_erased (h : Before m' a b) (hm : MemInv m) (hpm : p ∈ m.procs)
    (hp : m'.procs = m.procs.erase p) (hprio : ∀ p ∈ m.procs, m'.priority p = m.priority p) :
    Before m a b := by
  obtain ⟨l', hl', hab⟩ := h
  obtain ⟨l, hl⟩ := hm.run
  have hq : StableQueue m'.priority m.procs l :=
    hl.queue.congr fun p h => hprio p ((hl.mem_iff p).1 h)
  obtain ⟨l₁, l₂, rfl⟩ := List.append_of_mem ((hl.mem_iff p).2 hpm)
  have hq' := hq.remove hl.procs_nodup
  rw [← hp] at hq'
  refine ⟨_, hl, hab.mono ?_⟩
  rw [hl'.queue.unique hq']
  exact ((List.Sublist.refl l₁).append (List.sublist_cons_self p l₂)).append (.refl _)

/-- What stands in front of another process behind the creation of a third one did so before. -/
theorem Before.of_new (h : Before m' a b) (hm : MemInv m) (hnot : p ∉ m.procs)
    (hp : m'.procs = m.procs ++ [p]) (hprio : ∀ p ∈ m.procs, m'.priority p = m.priority p)
    (ha : a ≠ p) (hb : b ≠ p) : Before m a b := by
  obtain ⟨l', hl', hab⟩ := h
  obtain ⟨l, hl⟩ := hm.run
  have hq : StableQueue m'.priority m.procs l :=
    hl.queue.congr fun p h => hprio p ((hl.mem_iff p).1 h)
  have hq' := hq.insert p
  rw [← hp] at hq'
  have hpl : p ∉ l := fun h => hnot ((hl.mem_iff p).1 h)
  have herase : (l' ++ [0]).erase p = l ++ [0] := by
    rw [hl'.queue.unique hq', List.erase_append_left _ (mem_insertByPriority.2 (Or.inl rfl)),
      insertByPriority,
      List.erase_append_right _ fun h => hpl ((List.takeWhile_sublist _).subset h),
      List.erase_cons_head, List.takeWhile_append_dropWhile]
  exact ⟨l, hl, herase ▸ hab.erase ha hb⟩

end Backwards

/-! ### A step -/

/-- The scheduler itself moves control, or the cursor. -/
theorem StepCase.tick_moves {s t : Sys} (h : SysInv s) (hst : StepCase s .tick t) :
    Scheduling s.control ∧
      (t.control = s.control → t.mem.currentProcess ≠ s.mem.currentProcess) := by
  cases hst with
  | finish time hc h0 => exact ⟨by rw [hc]; trivial, fun he => by simp [hc] at he⟩
  | @skip time cur m hc hcur hp hm =>
      refine ⟨by rw [hc]; trivial, fun _ he => ?_⟩
      change (m.record cur).next = s.mem.currentProcess at he
      rw [hm.sameCore.next, hcur] at he
      exact (h.mem.before_next hp).ne he.symm
  | start hc => exact ⟨by rw [hc]; trivial, fun he => by simp [hc] at he⟩
  | resume hc => exact ⟨by rw [hc]; trivial, fun he => by simp [hc] at he⟩
  | yieldedNormal hc => exact ⟨by rw [hc]; trivial, fun he => by simp [hc] at he⟩
  | yieldedTerminate hc => exact ⟨by rw [hc]; trivial, fun he => by simp [hc] at he⟩
  | destruct hr ha => simp [CallsEndProcess] at ha
  | terminate hr ha => simp [CallsEndProcess] at ha

theorem ToCome.mono {m m' : Memory} {c : Control} {q : Ptr} (h : ToCome q m c)
    (hk : ∀ x, Before m x q → Before m' x q) (hcur : m'.currentProcess = m.currentProcess) :
    ToCome q m' c := by
  cases c with
  | outside => exact h
  | loop time =>
      rw [ToCome, hcur]
      exact h.imp id (hk _)
  | running time cur next => exact hk _ h
  | yielded time cur next reason =>
      unfold ToCome at h ⊢
      dsimp only at h ⊢
      split_ifs at h ⊢
      · exact h.imp id (hk _)
      · exact hk _ h

section Subset

variable {s t : Sys} {k : ℕ}

theorem rounds_of_subset (hsub : t.left ⊆ s.left) (hk : t.control.steps + k ≤ s.control.steps) :
    t.rounds + k ≤ s.rounds := by
  have hcard := Set.ncard_le_ncard hsub s.finite_left
  unfold Sys.rounds
  omega

/-- A round is paid by a process that is left no more. -/
theorem rounds_of_left {cur : Ptr} (hsub : t.left ⊆ s.left) (hin : cur ∈ s.left)
    (hout : cur ∉ t.left) (hk : t.control.steps + k ≤ s.control.steps + 2) :
    t.rounds + k ≤ s.rounds := by
  have hcard := Set.ncard_lt_ncard ⟨hsub, fun hle => hout (hle hin)⟩ s.finite_left
  unfold Sys.rounds
  omega

/-- Only one process is added. -/
theorem rounds_of_insert {p : Ptr} (hsub : t.left ⊆ insert p s.left)
    (hk : t.control.steps = s.control.steps) : t.rounds ≤ s.rounds + 2 := by
  have hcard := Set.ncard_le_ncard hsub (s.finite_left.insert p)
  have hinsert := Set.ncard_insert_le p s.left
  unfold Sys.rounds
  omega

end Subset

/-- The process that is left and is visited. -/
theorem SysInv.cur_left {s : Sys} {time : ℤ} {cur : Ptr} (hc : s.control = .loop time)
    (hcur : s.mem.currentProcess = cur) (hp : cur ∈ s.mem.procs) : cur ∈ s.left := by
  refine ⟨hp, ?_⟩
  rw [hc]
  exact Or.inl hcur.symm

/-- What is left behind the creation of a process was left before, but for that process. -/
theorem SysInv.toCome_of_new {s t : Sys} {p q : Ptr} (h : SysInv s) (ht : SysInv t)
    (hp : t.mem.procs = s.mem.procs ++ [p])
    (hprio : ∀ p ∈ s.mem.procs, t.mem.priority p = s.mem.priority p)
    (hc : t.control = s.control) (hcur : t.mem.currentProcess = s.mem.currentProcess)
    (hq : q ≠ p) (hcome : ToCome q t.mem t.control) : ToCome q s.mem s.control := by
  obtain ⟨l, hl⟩ := ht.mem.run
  have hnodup := hl.procs_nodup
  rw [hp] at hnodup
  have hnot : p ∉ s.mem.procs := fun h => (List.nodup_append.1 hnodup).2.2 p h p (by simp) rfl
  have hp0 : p ≠ 0 := ht.mem.ne_null (ht.mem.procs_live p (by simp [hp]))
  -- the cursor is none of the new process
  have hback {x : Ptr} (hx : x = 0 ∨ x ∈ s.mem.procs) (hxq : Before t.mem x q) :
      Before s.mem x q := by
    refine hxq.of_new h.mem hnot hp hprio ?_ hq
    rcases hx with rfl | hx
    · exact hp0.symm
    · exact fun he => hnot (he ▸ hx)
  have hplace := h.place
  rw [hc] at hcome
  generalize s.control = c at hplace hcome ⊢
  cases c with
  | outside => exact hcome
  | loop time =>
      rw [ToCome, hcur] at hcome
      exact hcome.imp id (hback hplace.1)
  | running time cur next => exact hback (Or.inr hplace.2.1) hcome
  | yielded time cur next reason =>
      obtain ⟨-, hnext, -, ⟨rfl, hcurs, -⟩ | ⟨rfl, -⟩⟩ := hplace
      · rw [toCome_normal] at hcome ⊢
        exact hback (Or.inr hcurs) hcome
      · rw [toCome_terminate] at hcome ⊢
        exact hcome.imp id (hback (hnext.imp id And.left))

/-- **The step lemma**: a step of the scheduler is paid by a process that is left, and only a new
process adds to what is left. -/
theorem StepCase.rounds {s t : Sys} {a : Act} (h : SysInv s) (hst : StepCase s a t)
    (hi : CursorAt s.mem s.control) (ho : s.control ≠ .outside) :
    t.rounds + (if a = .tick then 1 else 0) ≤ s.rounds + 2 * creations (newEvents s t) := by
  have ht := hst.sysInv h
  have hprio : ∀ p ∈ s.mem.procs, t.mem.priority p = s.mem.priority p := fun p hp =>
    hst.priority (h.mem.procs_live p hp)
  -- while the run list stays, so does its order
  have hback (hp : t.mem.procs = s.mem.procs) (x y : Ptr) (hxy : Before t.mem x y) :
      Before s.mem x y := hxy.of_same h.mem hp.symm fun p hpm => (hprio p (hp ▸ hpm)).symm
  have hle : (if a = .tick then 1 else 0) ≤ 1 := by split_ifs <;> simp
  have htick (hne : ¬ (Scheduling s.control ∧
      (t.control = s.control → t.mem.currentProcess ≠ s.mem.currentProcess))) :
      (if a = .tick then 1 else 0) = 0 := by
    refine if_neg fun ha => hne ?_
    subst ha
    exact hst.tick_moves h
  cases hst.callMove h ho with
  | works hc hcur hp hnext =>
      have hk := htick fun hne => hne.2 hc hcur
      refine (rounds_of_subset (fun q hq => ?_) (by simp [hc, hk])).trans (Nat.le_add_right _ _)
      exact ⟨hp ▸ hq.1, hc ▸ hq.2.mono (fun x => hback hp x q) hcur.symm⟩
  | @creates p heap hc hcur hp he hend =>
      have hk := htick fun hne => hne.2 hc hcur
      have hone : 1 ≤ creations (newEvents s t) := List.countP_pos_iff.2 ⟨_, he, rfl⟩
      have hround : t.rounds ≤ s.rounds + 2 := by
        refine rounds_of_insert (p := p) (fun q hq => ?_) (by rw [hc])
        by_cases hqp : q = p
        · exact Or.inl hqp
        · refine Or.inr ⟨?_, ?_⟩
          · have hq := hq.1
            simpa [hp, hqp] using hq
          · exact h.toCome_of_new ht hp hprio hc hcur hqp hq.2
      omega
  | skips hc hcur hmem he hc' hcur' hp =>
      have hnext := h.mem.before_next hmem
      refine (rounds_of_left (fun q hq => ⟨hp ▸ hq.1, ?_⟩) (SysInv.cur_left hc hcur hmem) ?_
        ?_).trans (Nat.le_add_right _ _)
      · have hq := hq.2
        rw [hc', ToCome, hcur'] at hq
        rw [hc, ToCome, hcur]
        rcases hq with rfl | hq
        · exact Or.inr hnext
        · exact Or.inr (hnext.trans (hback hp _ _ hq))
      · rintro ⟨-, hq⟩
        rw [hc', ToCome, hcur'] at hq
        rcases hq with hq | hq
        · exact hnext.ne hq
        · exact (hnext.trans (hback hp _ _ hq)).ne rfl
      · rw [hc, hc', Control.steps]
        omega
  | enters hc hcur hmem he hc' hp =>
      refine (rounds_of_left (fun q hq => ⟨hp ▸ hq.1, ?_⟩) (SysInv.cur_left hc hcur hmem) ?_
        ?_).trans (Nat.le_add_right _ _)
      · have hq := hq.2
        rw [hc', ToCome] at hq
        rw [hc, ToCome, hcur]
        exact Or.inr (hback hp _ _ hq)
      · rintro ⟨-, hq⟩
        rw [hc', ToCome] at hq
        exact hq.ne rfl
      · rw [hc, hc', Control.steps, Control.steps]
        omega
  | yields hc hc' hp =>
      have hk := htick fun hne => by simp [hc, Scheduling] at hne
      refine (rounds_of_subset (fun q hq => ⟨hp ▸ hq.1, ?_⟩) ?_).trans (Nat.le_add_right _ _)
      · have hq := hq.2
        rw [hc', toCome_normal] at hq
        rw [hc, ToCome]
        exact hback hp _ _ hq
      · rw [hc, hc', hk, Control.steps, Control.steps]
  | ends hc hmem hc' hp hnext =>
      have hk := htick fun hne => by simp [hc, Scheduling] at hne
      rw [hc] at hi
      refine (rounds_of_subset (fun q hq => ⟨List.mem_of_mem_erase (hp ▸ hq.1), ?_⟩) ?_).trans
        (Nat.le_add_right _ _)
      · have hq := hq.2
        rw [hc', toCome_terminate] at hq
        rw [hc, ToCome]
        rcases hq with rfl | hq
        · exact hi
        · exact Before.trans hi (hq.of_erased h.mem hmem hp hprio)
      · rw [hc, hc', hk, Control.steps, Control.steps]
  | continues hc hmem hc' hcur' hp =>
      have hnext := h.mem.before_next hmem
      refine (rounds_of_subset (fun q hq => ⟨hp ▸ hq.1, ?_⟩) ?_).trans (Nat.le_add_right _ _)
      · have hq := hq.2
        rw [hc', ToCome, hcur'] at hq
        rw [hc, toCome_normal]
        rcases hq with rfl | hq
        · exact hnext
        · exact hnext.trans (hback hp _ _ hq)
      · rw [hc, hc', Control.steps, Control.steps]
        omega
  | frees hc hc' hcur' hp =>
      refine (rounds_of_subset (fun q hq => ⟨hp ▸ hq.1, ?_⟩) ?_).trans (Nat.le_add_right _ _)
      · have hq := hq.2
        rw [hc', ToCome, hcur'] at hq
        rw [hc, toCome_terminate]
        exact hq.imp id (hback hp _ _)
      · rw [hc, hc', Control.steps, Control.steps]
        omega
  | finishes hc hcur hc' hp =>
      refine (rounds_of_subset (fun q hq => ?_) ?_).trans (Nat.le_add_right _ _)
      · have hq := hq.2
        rw [hc'] at hq
        exact hq.elim
      · rw [hc, hc', Control.steps, Control.steps]
        omega

/-! ### The scheduler goes on -/

/-- The check looks at none of the fields that a round writes. -/
theorem validateProcessState_modify (m : Memory) (p q : Ptr) {f : Process → Process}
    (hf : ∀ r, (f r).heap = r.heap ∧ (f r).baseSp = r.baseSp ∧ (f r).prcJumpSp = r.prcJumpSp ∧
      (f r).stackGuard = r.stackGuard ∧ (f r).heapGuard = r.heapGuard) :
    validateProcessState (m.modify q f) p = validateProcessState m p := by
  unfold validateProcessState
  by_cases hp : p = q
  · obtain ⟨hheap, hbase, hsp, hstack, hguard⟩ := hf (m.record p)
    simp only [Memory.record_modify, if_pos hp, hheap, hbase, hsp, hstack, hguard]
  · simp only [Memory.record_modify, if_neg hp]

theorem Readies.validateProcessState {m m' : Memory} {r r' : ProcessRuntime} {cur : Ptr}
    {evs : List Event} (h : Readies m r cur m' r' evs) (p : Ptr) :
    validateProcessState m' p = validateProcessState m p := by
  cases h with
  | default => rfl
  | childless => exact validateProcessState_modify m p cur fun _ => ⟨rfl, rfl, rfl, rfl, rfl⟩
  | dead => exact validateProcessState_modify m p cur fun _ => ⟨rfl, rfl, rfl, rfl, rfl⟩

/-- **`run_process:`** resumes a process whose record and stack are not broken. -/
theorem runProcess_ok {s : Sys} {time : ℤ} {cur : Ptr} {m : Memory} {r : ProcessRuntime}
    {evs : List Event} (hv : AtVisit s time cur) (hr : Readies s.mem s.host cur m r evs)
    (hok : validateProcessState s.mem cur = .ok ()) :
    ∃ t, runProcess { s with mem := m, host := r, log := evs ++ .visited cur :: s.log } time
      cur = .ok t := by
  obtain ⟨hc, hcur, hp, h0, hi, ⟨hcs, hmr⟩, hall⟩ := hv
  have hi' : r.initialized = true := by cases hr <;> exact hi
  have hcs' : r.currentSlot = none := by cases hr <;> exact hcs
  have hok' : validateProcessState { m with pendingHeapFree := 0 } cur = .ok () :=
    (hr.validateProcessState cur).trans hok
  unfold runProcess
  dsimp only
  cases hs : r.slots cur with
  | none =>
      rw [ProcessRuntime.switchIn_fresh hi' hcs' h0 hs]
      exact ⟨_, rfl⟩
  | some slot =>
      obtain ⟨rfl, hjump, hsp⟩ : r = s.host ∧
          (m.record cur).prcJumpFunc = (s.mem.record cur).prcJumpFunc ∧
          (m.record cur).prcJumpSp = (s.mem.record cur).prcJumpSp := by
        cases hr with
        | default => exact ⟨rfl, rfl, rfl⟩
        | childless => exact ⟨rfl, by simp, by simp⟩
        | dead => simp at hs
      obtain ⟨-, hslot, hstate, coro, frame, frames, hco, hst, hfr, hw, -, -⟩ := hall cur slot hs
      rw [ProcessRuntime.switchIn_suspended hi hcs h0 hs (by simp [hstate])
        (hslot.entryFunc.trans hjump.symm) hslot.endFunc (hslot.initialSp.trans hsp.symm) hco hst
        hfr (by rcases hw with rfl | rfl <;> simp)]
      rcases hw with rfl | rfl
      · simp only [bind, Except.bind, hok']
        exact ⟨_, rfl⟩
      · simp only [bind, Except.bind, hok']
        exact ⟨_, rfl⟩

/-- **The scheduler goes on**, but for a process whose record or stack is broken. -/
theorem SysInv.exists_tick {s : Sys} (h : SysInv s) (hs : Scheduling s.control)
    (hok : s.mem.currentProcess = 0 ∨
      validateProcessState s.mem s.mem.currentProcess = .ok ()) : ∃ t, Step s .tick t := by
  have hplace := h.place
  cases hc : s.control with
  | outside => rw [hc] at hs; exact hs.elim
  | running time cur next => rw [hc] at hs; exact hs.elim
  | loop time =>
      rw [hc] at hplace
      obtain ⟨hcur, hidle, hall⟩ := hplace
      suffices ∃ t, visit s time = .ok t by
        obtain ⟨t, ht⟩ := this
        exact ⟨t, 0, by rw [step, hc]; exact ht⟩
      unfold visit
      dsimp only
      by_cases h0 : s.mem.currentProcess = 0
      · exact ⟨_, if_pos h0⟩
      · rw [if_neg h0]
        have hp := hcur.resolve_left h0
        have hv : AtVisit s time s.mem.currentProcess :=
          ⟨hc, rfl, hp, h0, h.initialized, hidle, hall⟩
        have hok := hok.resolve_left h0
        cases hmode : (s.mem.record s.mem.currentProcess).execMode with
        | unk4 => exact ⟨_, rfl⟩
        | sleeping => exact ⟨_, rfl⟩
        | watch =>
            dsimp only
            by_cases hch : (s.mem.record s.mem.currentProcess).oldestChild = 0
            · rw [if_neg (not_not.2 hch)]
              exact runProcess_ok hv (.childless hmode hch) hok
            · exact ⟨_, if_pos hch⟩
        | dead =>
            dsimp only
            rw [ProcessRuntime.recompProcessDestroy_eq h0 hidle.1]
            exact runProcess_ok hv (.dead hmode) hok
        | default => exact runProcess_ok hv (.default hmode) hok
  | yielded time cur next reason =>
      rw [hc] at hplace
      suffices ∃ t, handleYield s time cur next reason = .ok t by
        obtain ⟨t, ht⟩ := this
        exact ⟨t, 0, by rw [step, hc]; exact ht⟩
      obtain ⟨hcur, -, -, ⟨rfl, hp, -⟩ | ⟨rfl, -⟩⟩ := hplace
      · have hok := hok.resolve_left (hcur ▸ h.mem.ne_null (h.mem.procs_live cur hp))
        rw [hcur] at hok
        rw [handleYield, if_neg (by decide), if_pos (Or.inl rfl), hok]
        exact ⟨_, rfl⟩
      · exact ⟨_, handleYield_terminate h hc⟩

/-! ### The calls -/

/-- The runs in a call of `CallProcess`, with the number of the steps of the scheduler. -/
abbrev CallTo (s : Sys) (n : ℕ) (u : Sys) : Prop :=
  Runs.MovesTo Step (fun s _ => s.control ≠ .outside) (fun _ a => a = .tick) s n u

/-- **The run lemma.** -/
theorem CallTo.rounds {s u : Sys} {n : ℕ} (h : Reachable s) (hr : CallTo s n u) :
    u.rounds + n ≤ s.rounds + 2 * creations (newEvents s u) := by
  -- what a step adds to the history, and takes of the rounds
  have hnext {n k : ℕ} {t u : Sys} {a : Act} (ho : t.control ≠ .outside) (hst : Step t a u)
      (hk : k ≤ if a = .tick then 1 else 0) (ih : Reachable t ∧ ∃ evs, t.log = evs ++ s.log ∧
        t.rounds + n ≤ s.rounds + 2 * creations evs) :
      Reachable u ∧ ∃ evs, u.log = evs ++ s.log ∧
        u.rounds + (n + k) ≤ s.rounds + 2 * creations evs := by
    obtain ⟨ht, evs, hlog, hle⟩ := ih
    have hcase := step_cases ht.sysInv hst
    obtain ⟨evs', hlog', -⟩ := hcase.tells
    have hround := hcase.rounds ht.sysInv ht.cursorAt ho
    rw [newEvents_eq hlog'] at hround
    refine ⟨ht.step a trivial hst, evs' ++ evs, by rw [hlog', hlog, List.append_assoc], ?_⟩
    rw [creations, List.countP_append]
    unfold creations at hle hround
    omega
  have key : Reachable u ∧ ∃ evs, u.log = evs ++ s.log ∧
      u.rounds + n ≤ s.rounds + 2 * creations evs := by
    induction hr with
    | refl => exact ⟨h, [], rfl, by simp [creations]⟩
    | wait a _ ho _ hst ih => exact hnext ho hst (Nat.zero_le _) ih
    | move a _ ho hm hst ih => exact hnext ho hst (if_pos hm).ge ih
  obtain ⟨-, evs, hlog, hle⟩ := key
  rwa [newEvents_eq hlog]

/-- **A call of `CallProcess` returns**, when the processes that it resumes hand control back: in
every run the scheduler itself makes two steps at most for each process that there is or that is
created meanwhile, and the ones around them; and it goes on as long as the record and the stack of
the process at hand are not broken. -/
theorem call_ends {s : Sys} (h : Reachable s) :
    (∀ n u, CallTo s n u →
      n ≤ 2 * (s.mem.procs.length + creations (newEvents s u)) + 2) ∧
    (Scheduling s.control →
      (s.mem.currentProcess = 0 ∨ validateProcessState s.mem s.mem.currentProcess = .ok ()) →
      ∃ t, Step s .tick t) := by
  refine ⟨fun n u hr => ?_, h.sysInv.exists_tick⟩
  have hrounds := hr.rounds h
  have hle := s.rounds_le
  omega

/-- A call that finds two processes. -/
theorem call_ends_twoRounds :
    (∀ n u, CallTo (stateAfter twoRounds) n u →
      n ≤ 2 * (2 + creations (newEvents (stateAfter twoRounds) u)) + 2) ∧
    ∃ t, Step (stateAfter twoRounds) .tick t := by
  have hlength : (stateAfter twoRounds).mem.procs.length = 2 := by decide +kernel
  have hcontrol : (stateAfter twoRounds).control = .loop 1 := by decide +kernel
  obtain ⟨hbound, htick⟩ := call_ends (reachable_stateAfter twoRounds)
  rw [hlength] at hbound
  refine ⟨hbound, htick ?_ (Or.inr ?_)⟩
  · rw [hcontrol]
    trivial
  · decide +kernel

end Sched
