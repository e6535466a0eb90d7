/-
**The timers.**

A process that sleeps has its remaining time in `sleep_time`, which `CallProcess` counts down in the
round of the process, once in every call.  The round in which it runs out only sets the mode: the
process is resumed in the call behind.  A process is paused by a mode of its own, and waking it
makes up the mode it had from what it finds in `sleep_time`.

Main definitions:

* `Sched.Targets` — the operations on a process;
* `Sched.callTimes` — the calls of `CallProcess` in a history;
* `Sched.SleepsFor`, `Sched.SleepPhase` — **the law of a sleep**, and its invariant;
* `Sched.Api.pauses`, `Sched.Restorable` — pausing, and the modes that waking gives back.

Main results:

* `Sched.Step.untouched` — what is not an operation on a process leaves its mode and timer alone;
* `Sched.SleepPhase.step`, `Sched.sleep_exact` — **a sleep lasts exactly as long as asked**;
* `Sched.pause_transparent_iff` — **when a pause is transparent**.
-/

import TsaRecomp.Sched.Ticks

set_option relaxedAutoImplicit false
set_option autoImplicit false

namespace Sched

/-! ### Mode and timer -/

/-- Mode and timer of `p` are the same. -/
structure SameTimer (p : Ptr) (m m' : Memory) : Prop where
  mode : m'.mode p = m.mode p
  sleepTime : (m'.record p).sleepTime = (m.record p).sleepTime

/-- `p` is killed, or mode and timer of `p` are the same. -/
def Spares (p : Ptr) (m m' : Memory) : Prop := m'.mode p = .dead ∨ SameTimer p m m'

section Timer

variable {p q : Ptr} {m m' m'' : Memory}

theorem SameTimer.refl (p : Ptr) (m : Memory) : SameTimer p m m := ⟨rfl, rfl⟩

theorem SameTimer.trans (h : SameTimer p m m') (h' : SameTimer p m' m'') : SameTimer p m m'' :=
  ⟨h'.mode.trans h.mode, h'.sleepTime.trans h.sleepTime⟩

theorem SameTimer.of_record (h : m'.record p = m.record p) : SameTimer p m m' :=
  ⟨congrArg Process.execMode h, congrArg Process.sleepTime h⟩

theorem Spares.trans (h : Spares p m m') (h' : Spares p m' m'') : Spares p m m'' := by
  rcases h' with hd | hs'
  · exact Or.inl hd
  · rcases h with hd | hs
    · exact Or.inl (hs'.mode.trans hd)
    · exact Or.inr (hs.trans hs')

theorem sameTimer_unlinkChildProcess (m : Memory) (p q : Ptr) :
    SameTimer p m (unlinkChildProcess m q) :=
  ⟨mode_unlinkChildProcess m q p, sleepTime_unlinkChildProcess m q p⟩

theorem sameTimer_linkChildProcess (m : Memory) (p root child : Ptr) :
    SameTimer p m (linkChildProcess m root child) := by
  refine (sameTimer_unlinkChildProcess m p child).trans ?_
  unfold linkChildProcess linkHead
  refine ⟨?_, ?_⟩ <;> dsimp only <;> split_ifs <;> simp [Memory.mode]

theorem setKillStatusProcessExport_spares (m : Memory) (p q : Ptr) :
    Spares p m (setKillStatusProcessExport m q).1 := by
  by_cases hp : p = q
  · subst hp
    exact Or.inl ((mode_setKillStatusProcessExport m p p).trans (if_pos rfl))
  · exact Or.inr ⟨(mode_setKillStatusProcessExport m q p).trans (if_neg hp),
      sleepTime_setKillStatusProcessExport m hp⟩

theorem killChildProcess_spares {fuel : ℕ} (h : killChildProcess fuel m q = .ok m') :
    Spares p m m' := by
  refine (killChild_rel (R := Spares p) (fun m => Or.inr (.refl p m))
    (fun _ _ _ h h' => h.trans h') ?_ fuel).1 m q m' h
  intro m m' hw
  cases hw with
  | follow => exact Or.inr ⟨rfl, rfl⟩
  | kill q => exact setKillStatusProcessExport_spares m p q
  | clear q => exact Or.inr ⟨by simp [Memory.mode], by simp⟩

theorem killProcess_spares {fuel : ℕ} (h : killProcess fuel m q = .ok m') : Spares p m m' := by
  rw [killProcess] at h
  obtain ⟨m₁, h₁, h₂⟩ := bind_eq_ok.1 h
  cases h₂
  exact (killChildProcess_spares h₁).trans
    (.trans (Or.inr (sameTimer_unlinkChildProcess m₁ p q)) (setKillStatusProcessExport_spares _ p q))

theorem EndProcessLeaves.spares (h : EndProcessLeaves m q m') : Spares p m m' := by
  obtain ⟨fuel, m₁, h₁, rfl⟩ := h
  exact (killChildProcess_spares h₁).trans (Or.inr (sameTimer_unlinkChildProcess m₁ p q))

theorem sleepProcessP_sameTimer (m : Memory) (time : ℤ) (hp : p ≠ q) :
    SameTimer p m (sleepProcessP m q time) := by
  refine .of_record ?_
  unfold sleepProcessP
  split_ifs <;> simp [hp]

theorem sameTimer_terminated (m : Memory) (p q : Ptr) : SameTimer p m (terminated m q) := by
  refine ⟨mode_terminated m q p, ?_⟩
  rw [MemInv.record_terminated]

end Timer

/-! ### Operations on a process -/

/-- A call that puts `p` to sleep or wakes it. -/
def Api.setsTimer (m : Memory) : Api → Ptr → Prop
  | .sleepProcessP process _, p => process = p
  | .sleepPrioProcess lo hi _, p => inPriority m lo hi p
  | .wakeupProcess process, p => process = p
  | .wakeupPrioProcess lo hi, p => inPriority m lo hi p
  | _, _ => False

/-- **An operation on `p`**: it puts `p` to sleep, wakes or kills it, is made by `p` itself, or is
`InitProcess`, which forgets every process. -/
def Targets (p : Ptr) (s : Sys) : Act → Prop
  | .initProcess => True
  | .api a => a.setsTimer s.mem p ∨ ∃ t, Step s (.api a) t ∧ t.mem.mode p = .dead
  | .sleepProcess time => s.mem.currentProcess = p ∧ time ≠ 0
  | .watchChildProcess => s.mem.currentProcess = p
  | .endProcess => s.mem.currentProcess = p ∨ ∃ t, Step s .endProcess t ∧ t.mem.mode p = .dead
  | .returnFrom => s.mem.currentProcess = p ∨ ∃ t, Step s .returnFrom t ∧ t.mem.mode p = .dead
  | _ => False

/-- A loop over a range of priorities that `p` is not in. -/
theorem forEachProcess_sameTimer {f : Memory → Ptr → Memory} {fuel lo hi : ℕ} {m m' : Memory}
    {p : Ptr} (hm : MemInv m) (hp : ¬ inPriority m lo hi p) (hcore : ∀ m q, SameCore m (f m q))
    (hf : ∀ m q, p ≠ q → SameTimer p m (f m q))
    (h : forEachProcess (fun m q => if inPriority m lo hi q then .ok (f m q) else .ok m) fuel m
      m.topProcess = .ok m') : SameTimer p m m' := by
  refine forEachProcess_procs (I := fun m₁ => SameTimer p m m₁) hm (.refl p m) ?_ ?_ h
  · intro m₁ q m₂ hb
    split at hb
    · cases hb
      exact hcore m₁ q
    · cases hb
      exact .refl m₁
  · intro m₁ q m₂ hs _ hI hb
    split at hb
    · next hq =>
        cases hb
        refine hI.trans (hf m₁ q ?_)
        rintro rfl
        exact hp ⟨hs.priority p ▸ hq.1, hs.priority p ▸ hq.2⟩
    · cases hb
      exact hI

/-- **The calls** kill a process, or leave it alone. -/
theorem Api.run_spares {fuel : ℕ} {m m' : Memory} {a : Api} {p : Ptr} (hm : MemInv m)
    (hv : a.valid m) (hp : p ∈ m.live) (ha : ¬ a.setsTimer m p) (h : a.run fuel m = .ok m') :
    Spares p m m' := by
  have hcreated : ∀ {b : Block} {func : ProcessFunc} {priority stackSize : ℕ} {m₁ : Memory},
      b.fresh m → Sched.createProcess fuel m b func priority stackSize = .ok m₁ →
      SameTimer p m m₁ := by
    intro b func priority stackSize m₁ hf hc
    have hother := (createProcess_created hc).other p fun e => hf.2.1 (e ▸ hp)
    exact ⟨(congrArg Process.execMode hother).trans rfl,
      (congrArg Process.sleepTime hother).trans rfl⟩
  cases a with
  | createProcess => exact Or.inr (hcreated hv h)
  | createChildProcess =>
      obtain ⟨m₁, h₁, h₂⟩ := bind_eq_ok.1 h
      cases h₂
      exact Or.inr ((hcreated hv.1 h₁).trans (sameTimer_linkChildProcess m₁ p _ _))
  | linkChildProcess =>
      cases h
      exact Or.inr (sameTimer_linkChildProcess m p _ _)
  | unlinkChildProcess =>
      cases h
      exact Or.inr (sameTimer_unlinkChildProcess m p _)
  | killChildProcess => exact killChildProcess_spares h
  | killProcess => exact killProcess_spares h
  | killPrioProcess =>
      refine forEachProcess_rel (R := Spares p) (fun m => Or.inr (.refl p m))
        (fun _ _ _ h h' => h.trans h') ?_ h
      intro m₁ q m₂ hb
      split at hb
      · exact killProcess_spares hb
      · cases hb
        exact Or.inr (.refl p m₁)
  | sleepProcessP process time =>
      cases h
      exact Or.inr (sleepProcessP_sameTimer m time fun e => ha e.symm)
  | sleepPrioProcess lo hi time =>
      exact Or.inr (forEachProcess_sameTimer hm ha (fun m q => sleepProcessP_sameCore m q time)
        (fun m q hq => sleepProcessP_sameTimer m time hq) h)
  | wakeupProcess process =>
      cases h
      exact Or.inr (.of_record (record_wakeupProcess_of_ne m fun e => ha e.symm))
  | wakeupPrioProcess lo hi =>
      exact Or.inr (forEachProcess_sameTimer hm ha wakeupProcess_sameCore
        (fun m q hq => .of_record (record_wakeupProcess_of_ne m hq)) h)

/-- **A step that is neither a visit of `p` nor an operation on it** leaves it alone. -/
theorem Step.untouched {s t : Sys} {a : Act} {p : Ptr} (h : SysInv s) (hst : Step s a t)
    (hp : p ∈ s.mem.procs) (ha : ¬ Targets p s a) (hv : ¬ Visits p s a) :
    p ∈ t.mem.procs ∧ SameTimer p s.mem t.mem := by
  have hlive := h.mem.procs_live p hp
  -- what `EndProcess` leaves of a process that is not killed
  have hend : ∀ {cur : Ptr} {m : Memory}, a = .endProcess ∨ a = .returnFrom →
      s.mem.currentProcess = cur → EndProcessLeaves s.mem cur m →
      t.mem.mode p = m.mode p → cur ≠ p ∧ SameTimer p s.mem m := by
    intro cur m hact hcur hm hmode
    have hnot : cur ≠ p ∧ t.mem.mode p ≠ .dead := by
      rcases hact with rfl | rfl
      · exact ⟨fun e => ha (Or.inl (hcur.trans e)), fun e => ha (Or.inr ⟨t, hst, e⟩)⟩
      · exact ⟨fun e => ha (Or.inl (hcur.trans e)), fun e => ha (Or.inr ⟨t, hst, e⟩)⟩
    exact ⟨hnot.1, hm.spares.resolve_left (hmode ▸ hnot.2)⟩
  have hcase := step_cases h hst
  cases hcase with
  | initProcess => exact absurd trivial ha
  | callProcess | finish | yieldedNormal | yieldedTerminate | watchNoChild => exact ⟨hp, rfl, rfl⟩
  | @skip time cur m hc hcur hpr hm =>
      have hne : p ≠ cur := fun e => hv ⟨rfl, ⟨time, hc⟩, hcur.trans e.symm⟩
      refine ⟨hm.sameCore.procs ▸ hp, ?_⟩
      cases hm with
      | paused | watching => exact ⟨rfl, rfl⟩
      | sleeping =>
          refine .of_record ?_
          show (sleepTick s.mem cur time).record p = _
          unfold sleepTick
          dsimp only
          split_ifs <;> simp [hne]
  | @start time cur m r evs hc hcur hpr hr =>
      have hne : p ≠ cur := fun e => hv ⟨rfl, ⟨time, hc⟩, hcur.trans e.symm⟩
      exact ⟨hr.procs ▸ hp, .of_record (hr.record_of_ne hne)⟩
  | @resume time cur m slot coro frame frames hc hcur hpr hr =>
      have hne : p ≠ cur := fun e => hv ⟨rfl, ⟨time, hc⟩, hcur.trans e.symm⟩
      exact ⟨hr.procs ▸ hp, .of_record (hr.record_of_ne hne)⟩
  | @api b fuel m hc hvalid hm =>
      refine ⟨(Api.run_grows hvalid hm).procs p hp, ?_⟩
      exact (Api.run_spares h.mem hvalid hlive (fun e => ha (Or.inl e)) hm).resolve_left
        fun e => ha (Or.inr ⟨_, hst, e⟩)
  | setProcessDestruct => exact ⟨hp, by simp [Memory.mode], by simp⟩
  | @sleepProcess time cur next slot coro t hr =>
      refine ⟨(sleepCurrent_sameCore s.mem cur t).procs ▸ hp, ?_⟩
      show SameTimer p s.mem (sleepCurrent s.mem cur t)
      unfold sleepCurrent
      split_ifs with ht
      · have hne : p ≠ cur := fun e => ha ⟨hr.current.trans e.symm, ht.1⟩
        exact .of_record (by simp [hne])
      · exact .refl ..
  | @watchChildProcess time cur next slot coro hr hch =>
      have hne : p ≠ cur := fun e => ha (hr.current.trans e.symm)
      exact ⟨hp, .of_record (by simp [hne])⟩
  | @destruct a time cur next slot coro m f hr hact hm hd =>
      exact ⟨hm.sameCore.procs ▸ hp, (hend hact.act hr.current hm rfl).2⟩
  | @terminate a time cur next slot coro m hr hact hm hd =>
      obtain ⟨hne, hs⟩ := hend hact.act hr.current hm (mode_terminated m cur p)
      refine ⟨?_, hs.trans (sameTimer_terminated m p cur)⟩
      show p ∈ (terminated m cur).procs
      rw [MemInv.procs_terminated, hm.sameCore.procs]
      exact (List.mem_erase_of_ne hne.symm).2 hp
  | @destructed time cur next slot coro f frames hr hf =>
      have hne : p ≠ cur := fun e => ha (Or.inl (hr.current.trans e.symm))
      refine ⟨?_, sameTimer_terminated s.mem p cur⟩
      show p ∈ (terminated s.mem cur).procs
      rw [MemInv.procs_terminated]
      exact (List.mem_erase_of_ne hne).2 hp
  | @scribble q r hq =>
      have hne : p ≠ q := fun e => hq (e ▸ hlive)
      exact ⟨hp, .of_record (by simp [hne])⟩
  | overwriteGuards => exact ⟨hp, by simp [Memory.mode], by simp⟩


/-! ### The history of the calls -/

/-- The time of a call of `CallProcess`. -/
def Event.callTime : Event → Option ℤ
  | .called time => some time
  | _ => none

/-- The times of the calls of `CallProcess`, latest first. -/
def callTimes (evs : List Event) : List ℤ := evs.filterMap Event.callTime

@[simp] theorem callTimes_append (evs evs' : List Event) :
    callTimes (evs ++ evs') = callTimes evs ++ callTimes evs' := List.filterMap_append

/-- The time of the call that is going on. -/
def Control.callTime : Control → Option ℤ
  | .outside => none
  | .loop time => some time
  | .running time _ _ => some time
  | .yielded time _ _ _ => some time

theorem Control.callTime_eq_none {c : Control} : c.callTime = none ↔ c = .outside := by
  cases c <;> simp [Control.callTime]

/-- Without its last, what has been passed to the calls is not more. -/
theorem sum_tail_le {ts : List ℤ} (h : ∀ x ∈ ts, 0 < x) : ts.tail.sum ≤ ts.sum := by
  cases ts with
  | nil => exact le_rfl
  | cons x ts =>
      have hx := h x List.mem_cons_self
      rw [List.tail_cons, List.sum_cons]
      omega

/-- A step begins a call, or none is begun and the one going on is the same or returns. -/
theorem StepCase.callTimes {s t : Sys} {a : Act} (hst : StepCase s a t) :
    (∃ time, a = .callProcess time ∧ s.control = .outside ∧ t.control = .loop time ∧
      t.mem.currentProcess = s.mem.topProcess ∧ t.mem.topProcess = s.mem.topProcess ∧
      Sched.callTimes (newEvents s t) = [time]) ∨
    Sched.callTimes (newEvents s t) = [] ∧
      (t.control = .outside ∨ t.control.callTime = s.control.callTime) := by
  have hnil : (∀ time, a ≠ .callProcess time) → Sched.callTimes (newEvents s t) = [] := by
    intro ha
    refine List.filterMap_eq_nil_iff.2 fun e he => ?_
    have hof := hst.events he
    cases e with
    | called time => exact absurd hof (ha time)
    | _ => rfl
  cases hst with
  | callProcess time hc =>
      refine Or.inl ⟨time, rfl, hc, rfl, rfl, rfl, ?_⟩
      unfold newEvents
      simp [Sched.callTimes, Event.callTime]
  | initProcess | setProcessDestruct | scribble | overwriteGuards | skip | api | watchNoChild =>
      exact Or.inr ⟨hnil nofun, Or.inr rfl⟩
  | finish => exact Or.inr ⟨hnil nofun, Or.inl rfl⟩
  | yieldedNormal hc | start hc | resume hc | yieldedTerminate hc =>
      exact Or.inr ⟨hnil nofun, Or.inr (by rw [hc]; rfl)⟩
  | sleepProcess _ hr | watchChildProcess hr | destructed hr =>
      exact Or.inr ⟨hnil nofun, Or.inr (by rw [hr.control]; rfl)⟩
  | destruct hr ha =>
      refine Or.inr ⟨hnil ?_, Or.inr rfl⟩
      rintro time rfl
      rcases ha.act with ha | ha <;> cases ha
  | terminate hr ha =>
      refine Or.inr ⟨hnil ?_, Or.inr (by rw [hr.control]; rfl)⟩
      rintro time rfl
      rcases ha.act with ha | ha <;> cases ha

/-! ### The law of a sleep -/

/-- The time that has been passed to the calls between `s` and `t`, and to those before the last. -/
def elapsed (s t : Sys) : ℤ := (callTimes (newEvents s t)).sum
def elapsedBefore (s t : Sys) : ℤ := (callTimes (newEvents s t)).tail.sum

/-- No operation on `p`, and calls of `CallProcess` with a positive `s32`. -/
def LetsSleep (p : Ptr) (s : Sys) (a : Act) : Prop :=
  ¬ Targets p s a ∧ ∀ time, a = .callProcess time → 0 < time ∧ time < 2 ^ 31

/-- **`p` sleeps for `T`** from `s` on, in `t`. -/
structure SleepsFor (p : Ptr) (T : ℤ) (s t : Sys) : Prop where
  /-- It is not resumed before, nor in the call in which the time runs out. -/
  notResumed : elapsedBefore s t < T → ∀ i, .resumed p i ∉ newEvents s t
  /-- Between the calls its timer holds the rest of the time. -/
  sleeping : t.control = .outside → elapsed s t < T →
    t.mem.mode p = .sleeping ∧ (t.mem.record p).sleepTime = T - elapsed s t
  /-- Behind the call in which the time runs out it is ready. -/
  ready : t.control = .outside → elapsedBefore s t < T → T ≤ elapsed s t →
    t.mem.mode p = .default ∧ (t.mem.record p).sleepTime = 0
  /-- The call behind that one resumes its coroutine. -/
  resumed : t.control = .outside → T ≤ elapsedBefore s t →
    .resumed p (s.host.coroutineOf p) ∈ newEvents s t
  /-- In its round the subtraction stays in the range of an `s32`. -/
  noOverflow : elapsedBefore s t < T → ∀ time, t.control = .loop time →
    t.mem.currentProcess = p → t.mem.mode p = .sleeping ∧
      -2 ^ 31 ≤ (t.mem.record p).sleepTime - time ∧ (t.mem.record p).sleepTime - time < 2 ^ 31

/-- The mode and the timer of `p` when `n` of the time `T` have passed. -/
def Slept (p : Ptr) (T n : ℤ) (m : Memory) : Prop :=
  m.mode p = (if n < T then .sleeping else .default) ∧
    (m.record p).sleepTime = if n < T then T - n else 0

theorem Slept.of_sameTimer {p : Ptr} {T n : ℤ} {m m' : Memory} (h : Slept p T n m)
    (hs : SameTimer p m m') : Slept p T n m' := ⟨hs.mode.trans h.1, hs.sleepTime.trans h.2⟩

/-- `p` waits in the slot `slot`. -/
structure Asleep (p : Ptr) (slot : ProcessSlot) (evs : List Event) (s : Sys) : Prop where
  mem : p ∈ s.mem.procs
  stopped : s.control.runs ≠ some p
  slot_eq : s.host.slots p = some slot
  notResumed : ∀ i, .resumed p i ∉ evs

/-- **The invariant of a sleep**, with the history since its start. -/
inductive SleepPhase (p : Ptr) (T : ℤ) (slot : ProcessSlot) (i : ℕ) (evs : List Event) (s : Sys) :
    Prop
  /-- Between the calls, and in a call behind the round of `p`. -/
  | rests (h : Asleep p slot evs s) (hplace : s.control = .outside ∨ Begun p s)
      (hm : Slept p T (callTimes evs).sum s.mem) (hlt : (callTimes evs).tail.sum < T)
  /-- In a call in front of the round of `p`. -/
  | awaits {time : ℤ} {rest : List ℤ} (h : Asleep p slot evs s)
      (hplace : Awaits p s.mem s.control) (hc : s.control.callTime = some time)
      (ht : time < 2 ^ 31) (hts : callTimes evs = time :: rest) (hm : Slept p T rest.sum s.mem)
  /-- Behind the sleep. -/
  | resumed (he : .resumed p (some i) ∈ evs) (hle : T ≤ (callTimes evs).tail.sum)

section Phases

variable {p : Ptr} {T : ℤ} {slot : ProcessSlot} {coro : Coroutine} {evs : List Event} {s t : Sys}
  {a : Act}

/-- A process whose round has begun is not visited. -/
theorem Begun.not_visits (h : Begun p s) (hp : p ∈ s.mem.procs) : ¬ Visits p s a := by
  rintro ⟨-, ⟨time, hc⟩, hcur⟩
  cases h with
  | passed h =>
      rw [Passed, hc, Control.cursor, hcur] at h
      exact h.ne rfl
  | resumed h =>
      rw [hc] at h
      cases h
  | ended h => exact h hp

/-- What is not a visit leaves a process asleep. -/
theorem Asleep.step (h : Asleep p slot evs s) (hs : SysInv s) (hst : Step s a t)
    (ha : ¬ Targets p s a) (hv : ¬ Visits p s a) :
    Asleep p slot (newEvents s t ++ evs) t ∧ SameTimer p s.mem t.mem := by
  have hcase := step_cases hs hst
  obtain ⟨hp, hsame⟩ := hst.untouched hs h.mem ha hv
  have hterm : s.control.terminating ≠ some p := by
    intro e
    obtain ⟨time, next, hc⟩ := Control.eq_yielded_of_terminating e
    exact (hs.atTerminate hc).1 h.mem
  refine ⟨⟨hp, (hcase.runs hv h.stopped hterm).1, ?_, ?_⟩, hsame⟩
  · rw [hcase.slots_of_other (fun e => ha (e ▸ trivial)) hv h.stopped hterm]
    exact h.slot_eq
  · intro i he
    rcases List.mem_append.1 he with he | he
    · exact hv (hcase.events he)
    · exact h.notResumed i he

/-- **The round of a process that sleeps**: its timer is counted down. -/
theorem Slept.countDown {time n : ℤ} {m : Memory} (h : Slept p T n m) (hn : 0 ≤ n) (hlt : n < T)
    (hT : T < 2 ^ 31) (h0 : 0 < time) (ht : time < 2 ^ 31) :
    Slept p T (time + n) (sleepTick m p time) := by
  rw [Slept, if_pos hlt, if_pos hlt] at h
  have hs32 : s32 (T - n - time) = T - n - time := by
    rw [s32]
    refine Int.bmod_eq_of_le ?_ ?_ <;> norm_num <;> omega
  unfold sleepTick
  dsimp only
  rw [h.2, if_pos (by omega), hs32]
  by_cases hend : time + n < T
  · rw [Slept, if_pos hend, if_pos hend]
    simp only [Memory.setSleepTime, Memory.record_modify, if_true,
      if_neg (by omega : ¬ T - n - time ≤ 0)]
    refine ⟨?_, by omega⟩
    simpa [Memory.mode] using h.1
  · rw [Slept, if_neg hend, if_neg hend]
    simp only [Memory.setSleepTime, Memory.record_modify, if_true,
      if_pos (by omega : T - n - time ≤ 0)]
    exact ⟨by simp [Memory.mode], by simp⟩

/-- The round of a process whose time has not run out. -/
theorem Asleep.visit_sleeping {time n : ℤ} (h : Asleep p slot evs s) (hs : SysInv s)
    (hst : StepCase s .tick t) (hc : s.control = .loop time) (hcur : s.mem.currentProcess = p)
    (hm : Slept p T n s.mem) (hn : 0 ≤ n) (hlt : n < T) (hT : T < 2 ^ 31) (h0 : 0 < time)
    (ht : time < 2 ^ 31) :
    Asleep p slot (newEvents s t ++ evs) t ∧ Begun p t ∧ Slept p T (time + n) t.mem := by
  have hmode : s.mem.mode p = .sleeping := hm.1.trans (if_pos hlt)
  rcases hst.visit_of_mem hs hc hcur h.mem with ⟨m, hsk, ht'⟩ | ⟨m, r, evs', next, hr, -⟩
  · cases hsk with
    | paused hm' | watching hm' => simp [Memory.mode, hm'] at hmode
    | sleeping =>
        have hnew : newEvents s t = [.visited p] := newEvents_eq (by rw [ht']; rfl)
        refine ⟨⟨?_, ?_, ?_, ?_⟩, hst.begins hs (by rw [hnew]; simp), ?_⟩
        · rw [ht']
          exact (sleepTick_sameCore s.mem p time).procs ▸ h.mem
        · rw [ht', hc]
          exact nofun
        · rw [ht']
          exact h.slot_eq
        · rw [hnew]
          simpa using h.notResumed
        · rw [ht']
          exact hm.countDown hn hlt hT h0 ht
  · cases hr <;> simp_all [Memory.mode]

/-- The round of a process whose time has run out. -/
theorem Asleep.visit_ready {time n : ℤ} (h : Asleep p slot evs s) (hs : SysInv s)
    (hst : StepCase s .tick t) (hc : s.control = .loop time) (hcur : s.mem.currentProcess = p)
    (hco : slot.coro = some coro) (hm : Slept p T n s.mem) (hle : T ≤ n) :
    .resumed p (some coro.id) ∈ newEvents s t := by
  have hmode : (s.mem.record p).execMode = .default := hm.1.trans (if_neg (by omega))
  rcases hst.visit_of_mem hs hc hcur h.mem with ⟨m, hsk, -⟩ | ⟨m, r, evs', next, hr, -, hslot⟩
  · cases hsk with
    | paused hm' | watching hm' | sleeping hm' =>
        rw [hmode] at hm'
        cases hm'
  · rcases hslot with hnone | ⟨slot', coro', hs', hco', he⟩
    · cases hr with
      | default => cases hnone.symm.trans h.slot_eq
      | childless hm' | dead hm' =>
          rw [hmode] at hm'
          cases hm'
    · obtain rfl := Option.some.inj (h.slot_eq.symm.trans hs')
      obtain rfl := Option.some.inj (hco.symm.trans hco')
      exact he

/-- A call begins at the head of the run list. -/
theorem MemInv.top_or_before {m : Memory} (h : MemInv m) (hp : p ∈ m.procs) :
    p = m.topProcess ∨ Before m m.topProcess p := by
  obtain ⟨l, hl⟩ := h.run
  have hpl := (hl.mem_iff p).2 hp
  cases l with
  | nil => cases hpl
  | cons top l =>
      have htop : m.topProcess = top := hl.list.head_eq
      rw [htop]
      rcases List.mem_cons.1 hpl with rfl | hpl
      · exact Or.inl rfl
      · exact Or.inr ⟨_, hl,
          ListOrder.precedes_iff.2 ⟨[], l ++ [0], rfl, List.mem_append_left _ hpl⟩⟩

/-- The round of `p`: its timer is counted down, or it is resumed. -/
theorem Asleep.visit {time : ℤ} {rest : List ℤ} (h : Asleep p slot evs s) (hs : SysInv s)
    (hst : StepCase s .tick t) (hc : s.control = .loop time) (hcur : s.mem.currentProcess = p)
    (hco : slot.coro = some coro) (hT : T < 2 ^ 31) (ht : time < 2 ^ 31)
    (hts : callTimes (newEvents s t ++ evs) = time :: rest) (hpos : ∀ x ∈ time :: rest, 0 < x)
    (hm : Slept p T rest.sum s.mem) : SleepPhase p T slot coro.id (newEvents s t ++ evs) t := by
  have h0 : 0 < time := hpos time List.mem_cons_self
  have hrest : 0 ≤ rest.sum := List.sum_nonneg fun x hx => (hpos x (List.mem_cons_of_mem _ hx)).le
  by_cases hlt : rest.sum < T
  · obtain ⟨h', hb, hm'⟩ := h.visit_sleeping hs hst hc hcur hm hrest hlt hT h0 ht
    refine .rests h' (Or.inr hb) ?_ ?_
    · rwa [hts, List.sum_cons]
    · rwa [hts, List.tail_cons]
  · refine .resumed (List.mem_append_left _ ?_) ?_
    · exact h.visit_ready hs hst hc hcur hco hm (not_lt.1 hlt)
    · rw [hts, List.tail_cons]
      exact not_lt.1 hlt

/-- A step behind the round of `p`, or between the calls. -/
theorem Asleep.step_rests {i : ℕ} (h : Asleep p slot evs s) (hs : SysInv s)
    (hi : CursorAt s.mem s.control) (hst : Step s a t) (ha : LetsSleep p s a)
    (hplace : s.control = .outside ∨ Begun p s) (hm : Slept p T (callTimes evs).sum s.mem)
    (hlt : (callTimes evs).tail.sum < T) : SleepPhase p T slot i (newEvents s t ++ evs) t := by
  have hcase := step_cases hs hst
  have hv : ¬ Visits p s a := by
    rcases hplace with ho | hb
    · rintro ⟨-, ⟨time, hc⟩, -⟩
      rw [ho] at hc
      cases hc
    · exact hb.not_visits h.mem
  obtain ⟨h', hsame⟩ := h.step hs hst ha.1 hv
  rcases hcase.callTimes with ⟨time, rfl, ho, hc, hcur, htop, htimes⟩ | ⟨htimes, hctrl⟩
  · -- the next call: it begins at the head of the run list
    have hts : callTimes (newEvents s t ++ evs) = time :: callTimes evs := by
      rw [callTimes_append, htimes]
      rfl
    refine .awaits h' ?_ (by rw [hc]; rfl) (ha.2 time rfl).2 hts (hm.of_sameTimer hsame)
    rw [hc, Awaits, hcur, ← htop]
    exact (hcase.sysInv hs).mem.top_or_before h'.mem
  · have hts : callTimes (newEvents s t ++ evs) = callTimes evs := by
      rw [callTimes_append, htimes, List.nil_append]
    refine .rests h' ?_ (by rw [hts]; exact hm.of_sameTimer hsame) (by rw [hts]; exact hlt)
    by_cases ho : s.control = .outside
    · refine Or.inl (hctrl.elim id fun hc => Control.callTime_eq_none.1 ?_)
      rw [hc, Control.callTime_eq_none.2 ho]
    · rcases hcase.begun hs hi (hplace.resolve_left ho) ho with ⟨heap, he⟩ | hb
      · exact absurd (hs.mem.procs_live p h.mem) (hcase.created_fresh he)
      · exact Or.inr hb

/-- A step in a call, up to the round of `p`. -/
theorem Asleep.step_awaits {time : ℤ} {rest : List ℤ} (h : Asleep p slot evs s) (hs : SysInv s)
    (hi : CursorAt s.mem s.control) (hst : Step s a t) (ha : LetsSleep p s a)
    (hco : slot.coro = some coro) (hT : T < 2 ^ 31) (hpos : ∀ x ∈ callTimes evs, 0 < x)
    (hplace : Awaits p s.mem s.control) (hc : s.control.callTime = some time) (ht : time < 2 ^ 31)
    (hts : callTimes evs = time :: rest) (hm : Slept p T rest.sum s.mem) :
    SleepPhase p T slot coro.id (newEvents s t ++ evs) t := by
  have hcase := step_cases hs hst
  have ho : s.control ≠ .outside := fun e => by
    cases (Control.callTime_eq_none.2 e).symm.trans hc
  rcases hcase.callTimes with ⟨-, -, e, -⟩ | ⟨htimes, hctrl⟩
  · exact absurd e ho
  have hts' : callTimes (newEvents s t ++ evs) = time :: rest := by
    rw [callTimes_append, htimes, List.nil_append, hts]
  by_cases hv : Visits p s a
  · obtain ⟨rfl, ⟨time', hc'⟩, hcur⟩ := hv
    obtain rfl : time' = time := by
      rw [hc'] at hc
      exact Option.some.inj hc
    exact h.visit hs hcase hc' hcur hco hT ht hts' (hts ▸ hpos) hm
  · obtain ⟨h', hsame⟩ := h.step hs hst ha.1 hv
    have hp0 : p ≠ 0 := hs.mem.ne_null (hs.mem.procs_live p h.mem)
    rcases hcase.awaits hs hi hplace hp0 ho with he | hq
    · exact absurd (hcase.events he) hv
    · refine .awaits h' hq ?_ ht hts' (hm.of_sameTimer hsame)
      rcases hctrl with hc' | hc'
      · rw [hc'] at hq
        exact hq.elim
      · exact hc'.trans hc

/-- **The step lemma** of a sleep. -/
theorem SleepPhase.step (hs : SysInv s) (hi : CursorAt s.mem s.control) (hst : Step s a t)
    (ha : LetsSleep p s a) (hco : slot.coro = some coro) (hT : T < 2 ^ 31)
    (hpos : ∀ time ∈ callTimes evs, 0 < time) (hI : SleepPhase p T slot coro.id evs s) :
    SleepPhase p T slot coro.id (newEvents s t ++ evs) t := by
  cases hI with
  | resumed he hle =>
      refine .resumed (List.mem_append_right _ he) ?_
      rw [callTimes_append]
      rcases (step_cases hs hst).callTimes with ⟨time, -, -, -, -, -, htimes⟩ | ⟨htimes, -⟩
      · -- a further call
        rw [htimes, List.cons_append, List.tail_cons, List.nil_append]
        exact hle.trans (sum_tail_le hpos)
      · rwa [htimes, List.nil_append]
  | rests h hplace hm hlt => exact h.step_rests hs hi hst ha hplace hm hlt
  | awaits h hplace hc ht hts hm =>
      exact h.step_awaits hs hi hst ha hco hT hpos hplace hc ht hts hm

/-- What the invariant says of a state. -/
theorem SleepPhase.sleepsFor (hco : slot.coro = some coro)
    (hslot : s.host.slots p = some slot) (hT0 : 0 < T) (hT : T < 2 ^ 31)
    (hpos : ∀ time ∈ callTimes (newEvents s t), 0 < time)
    (hI : SleepPhase p T slot coro.id (newEvents s t) t) : SleepsFor p T s t := by
  have hid : s.host.coroutineOf p = some coro.id :=
    ProcessRuntime.coroutineOf_eq_some.2 ⟨slot, coro, ⟨hslot, hco⟩, rfl⟩
  cases hI with
  | rests h hplace hm hlt =>
      refine ⟨fun _ => h.notResumed, fun _ hn => ?_, fun _ _ hn => ?_, fun _ hn => ?_, ?_⟩
      · rwa [Slept, ← elapsed, if_pos hn, if_pos hn] at hm
      · rwa [Slept, ← elapsed, if_neg (not_lt.2 hn), if_neg (not_lt.2 hn)] at hm
      · exact absurd hlt (not_lt.2 hn)
      · intro _ time hc hcur
        rcases hplace with ho | hb
        · rw [ho] at hc
          cases hc
        · exact absurd ⟨rfl, ⟨time, hc⟩, hcur⟩ (hb.not_visits (a := .tick) h.mem)
  | @awaits time rest h hplace hc ht hts hm =>
      have ho : t.control ≠ .outside := fun e => by
        cases (Control.callTime_eq_none.2 e).symm.trans hc
      refine ⟨fun _ => h.notResumed, fun e => absurd e ho, fun e => absurd e ho,
        fun e => absurd e ho, ?_⟩
      intro hlt time' hc' hcur
      obtain rfl : time' = time := by
        rw [hc'] at hc
        exact Option.some.inj hc
      rw [elapsedBefore, hts, List.tail_cons] at hlt
      have h0 : 0 < time' := hpos time' (by simp [hts])
      have hrest : 0 ≤ rest.sum :=
        List.sum_nonneg fun x hx => (hpos x (by simp [hts, hx])).le
      rw [Slept, if_pos hlt, if_pos hlt] at hm
      refine ⟨hm.1, ?_, ?_⟩
      · rw [hm.2]
        omega
      · rw [hm.2]
        omega
  | resumed he hle =>
      have hnot : ¬ elapsedBefore s t < T := not_lt.2 hle
      refine ⟨fun hlt => absurd hlt hnot, fun _ hn => ?_, fun _ hlt => absurd hlt hnot,
        fun _ _ => ?_, fun hlt => absurd hlt hnot⟩
      · -- the time has run out before the last call
        exact absurd (hle.trans (sum_tail_le hpos)) (not_le.2 hn)
      · rw [hid]
        exact he

end Phases

/-- **A sleep lasts exactly as long as asked**: in every run that goes on behind `SleepProcess(T)`
without an operation on the process. -/
theorem sleep_exact {s s₁ s₂ : Sys} {p : Ptr} {T : ℤ} (h : Reachable s)
    (hp : s.control.runs = some p) (hd : s.mem.mode p ≠ .dead) (hT0 : 0 < T) (hT : T < 2 ^ 31)
    (h₁ : Step s (.sleepProcess T) s₁) (h₂ : RunsTo (LetsSleep p) s₁ s₂) :
    SleepsFor p T s₁ s₂ := by
  have hs := h.sysInv
  have hreach : Reachable s₁ := h.step _ trivial h₁
  -- the call of `SleepProcess`
  obtain ⟨slot, coro, hslot, hco, hstart⟩ : ∃ slot coro, s₁.host.slots p = some slot ∧
      slot.coro = some coro ∧ SleepPhase p T slot coro.id [] s₁ := by
    cases step_cases hs h₁ with
    | @sleepProcess time cur next slot coro t hr =>
        obtain rfl := hr.eq_of_runs hp
        refine ⟨_, _, if_pos rfl, rfl, .rests ⟨?_, nofun, if_pos rfl, by simp⟩ (Or.inr (.resumed ?_))
          ?_ hT0⟩
        · exact (sleepCurrent_sameCore s.mem cur T).procs ▸ hs.running_mem hr.control
        · rw [Control.resumed, if_neg yieldNormal_ne_terminate]
        · have hmem : sleepCurrent s.mem cur T =
              (s.mem.setExecMode cur .sleeping).setSleepTime cur T :=
            if_pos ⟨hT0.ne', hd⟩
          show Slept cur T 0 (sleepCurrent s.mem cur T)
          rw [hmem, Slept, if_pos hT0, if_pos hT0]
          exact ⟨by simp [Memory.mode], by simp⟩
    | destruct hr ha | terminate hr ha => rcases ha.act with ha | ha <;> cases ha
  -- the run behind it
  have key : Reachable s₂ ∧ ∃ evs, s₂.log = evs ++ s₁.log ∧
      (∀ time ∈ callTimes evs, 0 < time) ∧ SleepPhase p T slot coro.id evs s₂ := by
    refine h₂.invariant (I := fun t => Reachable t ∧ ∃ evs, t.log = evs ++ s₁.log ∧
      (∀ time ∈ callTimes evs, 0 < time) ∧ SleepPhase p T slot coro.id evs t) ?_
      ⟨hreach, [], rfl, by simp [callTimes], hstart⟩
    rintro u a v ⟨hu, evs, hlog, hpos, hI⟩ ha hst
    have hcase := step_cases hu.sysInv hst
    obtain ⟨evs', hlog', -⟩ := hcase.tells
    have hI' := hI.step hu.sysInv hu.cursorAt hst ha hco hT hpos
    have htimes := hcase.callTimes
    rw [newEvents_eq hlog'] at hI' htimes
    refine ⟨hu.step a trivial hst, evs' ++ evs, by rw [hlog', hlog, List.append_assoc], ?_, hI'⟩
    intro time ht
    rw [callTimes_append] at ht
    rcases List.mem_append.1 ht with ht | ht
    · rcases htimes with ⟨time', rfl, -, -, -, -, htimes⟩ | ⟨htimes, -⟩
      · rw [htimes, List.mem_singleton] at ht
        exact ht ▸ (ha.2 time' rfl).1
      · rw [htimes] at ht
        cases ht
    · exact hpos time ht
  obtain ⟨-, evs, hlog, hpos, hI⟩ := key
  rw [← newEvents_eq hlog] at hpos hI
  exact hI.sleepsFor hco hslot hT0 hT hpos

/-- A process that runs, the call in which it has put itself to sleep for five units of time, two
calls of three units, and the call in which it is resumed. -/
def sleeper : List Act :=
  [.api (.createProcess ⟨0x80001000, 0x80001010, 0x80001100⟩ (.game 1) 5 0), .callProcess 1, .tick]
def sleeperAsleep : List Act := sleeper ++ [.sleepProcess 5]
def sleeperCalls : List Act :=
  [.tick, .tick, .callProcess 3, .tick, .tick, .callProcess 3, .tick, .tick, .callProcess 3, .tick,
    .sleepProcess 0, .tick, .tick]

/-- An action of `sleeperCalls`. -/
def callsOnly (_ : Sys) : Act → Bool
  | .callProcess time => 0 < time && time < 2 ^ 31
  | .tick => true
  | .sleepProcess time => time = 0
  | _ => false

theorem letsSleep_of_callsOnly {p : Ptr} {s : Sys} {a : Act} (h : callsOnly s a = true) :
    LetsSleep p s a := by
  cases a with
  | callProcess time =>
      refine ⟨id, fun time' e => ?_⟩
      cases e
      simpa [callsOnly] using h
  | tick => exact ⟨id, nofun⟩
  | sleepProcess time => exact ⟨fun ht => ht.2 (by simpa [callsOnly] using h), nofun⟩
  | _ => cases h

theorem sleep_exact_sleeper :
    SleepsFor 0x80001010 5 (stateAfter sleeperAsleep) (stateAfter (sleeperAsleep ++ sleeperCalls)) ∧
      5 ≤ elapsedBefore (stateAfter sleeperAsleep) (stateAfter (sleeperAsleep ++ sleeperCalls)) := by
  refine ⟨?_, by decide +kernel⟩
  exact sleep_exact (reachable_stateAfter sleeper) (by decide +kernel) (by decide +kernel)
    (by decide) (by decide) (step_stateAfter (by decide +kernel))
    (runsTo_stateAfter callsOnly (fun _ _ => letsSleep_of_callsOnly) (by decide +kernel)
      (by decide +kernel))


/-! ### A pause -/

/-- A call that pauses `p`. -/
def Api.pauses (m : Memory) : Api → Ptr → Prop
  | .sleepProcessP process time, p => process = p ∧ time = -1
  | .sleepPrioProcess lo hi time, p => inPriority m lo hi p ∧ time = -1
  | _, _ => False

/-- `p` is paused, with the timer `x`. -/
def Paused (p : Ptr) (x : ℤ) (m : Memory) : Prop :=
  m.mode p = .unk4 ∧ (m.record p).sleepTime = x

/-- The modes that waking makes up from the timer: of a process that is ready without a timer, or
asleep with one. -/
def Restorable (p : Ptr) (m : Memory) : Prop :=
  m.mode p = .default ∧ (m.record p).sleepTime = 0 ∨
    m.mode p = .sleeping ∧ (m.record p).sleepTime ≠ 0

section Pause

variable {p : Ptr} {x : ℤ} {m m' : Memory}

theorem sleepProcessP_paused (h : m.mode p ≠ .dead) :
    Paused p (m.record p).sleepTime (sleepProcessP m p (-1)) := by
  rw [sleepProcessP, if_pos ⟨by decide, h⟩, if_pos rfl]
  exact ⟨by simp [Memory.mode], by simp⟩

theorem Api.pauses_paused {fuel : ℕ} {a : Api} (hm : MemInv m) (hp : p ∈ m.procs)
    (hd : m.mode p ≠ .dead) (ha : a.pauses m p) (h : a.run fuel m = .ok m') :
    Paused p (m.record p).sleepTime m' := by
  cases a with
  | sleepProcessP process time =>
      obtain ⟨rfl, rfl⟩ := ha
      cases h
      exact sleepProcessP_paused hd
  | sleepPrioProcess lo hi time =>
      obtain ⟨hr, rfl⟩ := ha
      refine forEachProcess_covers (K := SameTimer p m) (J := Paused p (m.record p).sleepTime) hm hp
        (.refl p m) ?_ ?_ ?_ ?_ h
      · intro m₁ q m₂ hb
        split at hb
        · cases hb
          exact sleepProcessP_sameCore m₁ q (-1)
        · cases hb
          exact .refl m₁
      · intro m₁ q m₂ hq hK hb
        split at hb
        · cases hb
          exact hK.trans (sleepProcessP_sameTimer m₁ (-1) hq.symm)
        · cases hb
          exact hK
      · intro m₁ m₂ hs hK hb
        have hr₁ : inPriority m₁ lo hi p := ⟨hs.priority p ▸ hr.1, hs.priority p ▸ hr.2⟩
        rw [if_pos hr₁] at hb
        cases hb
        rw [← hK.sleepTime]
        exact sleepProcessP_paused (hK.mode ▸ hd)
      · intro m₁ q m₂ hq hJ hb
        split at hb
        · cases hb
          have hs := sleepProcessP_sameTimer m₁ (-1) hq.symm
          exact ⟨hs.mode.trans hJ.1, hs.sleepTime.trans hJ.2⟩
        · cases hb
          exact hJ
  | _ => exact ha.elim

/-- **The step lemma** of a pause: the rounds of a paused process leave it alone too. -/
theorem Paused.step {s t : Sys} {a : Act} (hs : SysInv s) (hst : Step s a t)
    (ha : ¬ Targets p s a) (hp : p ∈ s.mem.procs) (h : Paused p x s.mem) :
    p ∈ t.mem.procs ∧ Paused p x t.mem := by
  by_cases hv : Visits p s a
  · obtain ⟨rfl, ⟨time, hc⟩, hcur⟩ := hv
    have hmode : (s.mem.record p).execMode = .unk4 := h.1
    rcases (step_cases hs hst).visit_of_mem hs hc hcur hp with
      ⟨m, hsk, rfl⟩ | ⟨m, r, evs, next, hr, -⟩
    · cases hsk with
      | paused => exact ⟨hp, h⟩
      | sleeping hm | watching hm =>
          rw [hmode] at hm
          cases hm
    · cases hr with
      | default hm | childless hm | dead hm =>
          rw [hmode] at hm
          cases hm
  · obtain ⟨hp', hs'⟩ := hst.untouched hs hp ha hv
    exact ⟨hp', hs'.mode.trans h.1, hs'.sleepTime.trans h.2⟩

/-- What waking makes of a paused process. -/
theorem Paused.wakeup (h : Paused p x m) :
    (wakeupProcess m p).mode p = (if x ≠ 0 then .sleeping else .default) ∧
      ((wakeupProcess m p).record p).sleepTime = x := by
  obtain ⟨hmode, rfl⟩ := h
  have hmode' : (m.record p).execMode = .unk4 := hmode
  unfold wakeupProcess Memory.mode
  rw [hmode', if_neg nofun, if_pos rfl]
  split_ifs <;> simp

end Pause

/-- What a call leaves. -/
theorem Step.api {s t : Sys} {b : Api} (hst : Step s (.api b) t) :
    b.valid s.mem ∧ ∃ fuel, b.run fuel s.mem = .ok t.mem := by
  obtain ⟨fuel, h⟩ := hst
  rw [step] at h
  split at h
  · next hv =>
      obtain ⟨m, hm, ht⟩ := bind_eq_ok.1 h
      cases ht
      exact ⟨hv.2, fuel, hm⟩
  · cases h

/-- **A pause is transparent** exactly for a process that is ready without a timer, or asleep with
one.  A process that waits for its children is woken ready, or asleep when it has a timer. -/
theorem pause_transparent_iff {s s₁ s₂ s₃ : Sys} {a : Api} {p : Ptr} (h : Reachable s)
    (hp : p ∈ s.mem.procs) (hd : s.mem.mode p ≠ .dead) (ha : a.pauses s.mem p)
    (h₁ : Step s (.api a) s₁)
    (h₂ : RunsTo (fun s a => ¬ Targets p s a) s₁ s₂)
    (h₃ : Step s₂ (.api (.wakeupProcess p)) s₃) :
    (s₃.mem.mode p = s.mem.mode p ∧ (s₃.mem.record p).sleepTime = (s.mem.record p).sleepTime) ↔
      Restorable p s.mem := by
  obtain ⟨-, fuel, hm₁⟩ := h₁.api
  have hpause : p ∈ s₁.mem.procs ∧ Paused p (s.mem.record p).sleepTime s₁.mem :=
    ⟨(Api.run_grows h₁.api.1 hm₁).procs p hp, Api.pauses_paused h.sysInv.mem hp hd ha hm₁⟩
  -- the ticks
  have key : Reachable s₂ ∧ p ∈ s₂.mem.procs ∧ Paused p (s.mem.record p).sleepTime s₂.mem := by
    refine h₂.invariant (I := fun t => Reachable t ∧ p ∈ t.mem.procs ∧
      Paused p (s.mem.record p).sleepTime t.mem) ?_ ⟨h.step _ trivial h₁, hpause⟩
    rintro u b v ⟨hu, hpu, hI⟩ hb hst
    exact ⟨hu.step b trivial hst, hI.step hu.sysInv hst hb hpu⟩
  -- the wakeup
  obtain ⟨-, fuel₃, hm₃⟩ := h₃.api
  obtain ⟨hmode, htime⟩ := key.2.2.wakeup
  rw [← Except.ok.inj hm₃, hmode, htime, eq_self, and_true]
  unfold Restorable
  by_cases hx : (s.mem.record p).sleepTime = 0
  · rw [if_neg (not_not.2 hx)]
    simp [hx, eq_comm]
  · rw [if_pos hx]
    simp [hx, eq_comm]

/-- A pause of a process that sleeps, a call of `CallProcess`, and the wakeup. -/
def fiveTicksPaused : List Act := fiveTicks ++ [.api (.sleepProcessP 0x80001010 (-1))]
def fiveTicksCall : List Act := fiveTicksPaused ++ [.callProcess 1, .tick, .tick]
def fiveTicksResumed : List Act := fiveTicksCall ++ [.api (.wakeupProcess 0x80001010)]

theorem not_targets_of_callsOnly {p : Ptr} {s : Sys} {a : Act} (h : callsOnly s a = true) :
    ¬ Targets p s a := (letsSleep_of_callsOnly h).1

theorem pause_transparent_iff_fiveTicks :
    (stateAfter fiveTicksResumed).mem.mode 0x80001010 =
        (stateAfter fiveTicks).mem.mode 0x80001010 ∧
      ((stateAfter fiveTicksResumed).mem.record 0x80001010).sleepTime =
        ((stateAfter fiveTicks).mem.record 0x80001010).sleepTime := by
  have h₁ : Step (stateAfter fiveTicks) (.api (.sleepProcessP 0x80001010 (-1)))
      (stateAfter fiveTicksPaused) := step_stateAfter (by decide +kernel)
  have h₂ : RunsTo (fun s a => ¬ Targets 0x80001010 s a) (stateAfter fiveTicksPaused)
      (stateAfter fiveTicksCall) :=
    runsTo_stateAfter callsOnly (fun _ _ => not_targets_of_callsOnly) (by decide +kernel)
      (by decide +kernel)
  have h₃ : Step (stateAfter fiveTicksCall) (.api (.wakeupProcess 0x80001010))
      (stateAfter fiveTicksResumed) := step_stateAfter (by decide +kernel)
  exact (pause_transparent_iff (a := .sleepProcessP 0x80001010 (-1))
    (reachable_stateAfter fiveTicks) (by decide +kernel) (by decide +kernel) ⟨rfl, rfl⟩ h₁ h₂ h₃).2
    (Or.inr ⟨by decide +kernel, by decide +kernel⟩)

/-- A process that waits for its child, the same pause, a call in which the child runs, and the
wakeup. -/
def waitingParent : List Act :=
  [.api (.createProcess ⟨0x80001000, 0x80001010, 0x80001100⟩ (.game 1) 5 0), .callProcess 1, .tick,
    .api (.createChildProcess ⟨0x80002000, 0x80002010, 0x80002100⟩ (.game 2) 4 0 0x80001010),
    .watchChildProcess, .tick, .tick, .sleepProcess 0, .tick, .tick]
def waitingPaused : List Act := waitingParent ++ [.api (.sleepProcessP 0x80001010 (-1))]
def waitingCall : List Act :=
  waitingPaused ++ [.callProcess 1, .tick, .tick, .sleepProcess 0, .tick, .tick]
def waitingResumed : List Act := waitingCall ++ [.api (.wakeupProcess 0x80001010)]

/-- The wait is lost: the process is ready although it has a child. -/
theorem pause_loses_watch :
    Reachable (stateAfter waitingParent) ∧ 0x80001010 ∈ (stateAfter waitingParent).mem.procs ∧
      (stateAfter waitingParent).mem.mode 0x80001010 = .watch ∧
      Step (stateAfter waitingParent) (.api (.sleepProcessP 0x80001010 (-1)))
        (stateAfter waitingPaused) ∧
      RunsTo (fun s a => ¬ Targets 0x80001010 s a) (stateAfter waitingPaused)
        (stateAfter waitingCall) ∧
      Step (stateAfter waitingCall) (.api (.wakeupProcess 0x80001010))
        (stateAfter waitingResumed) ∧
      (stateAfter waitingResumed).mem.mode 0x80001010 = .default ∧
      ((stateAfter waitingResumed).mem.record 0x80001010).oldestChild = 0x80002010 := by
  refine ⟨reachable_stateAfter _, by decide +kernel, by decide +kernel,
    step_stateAfter (by decide +kernel), ?_, step_stateAfter (by decide +kernel), by decide +kernel,
    by decide +kernel⟩
  exact runsTo_stateAfter callsOnly (fun _ _ => not_targets_of_callsOnly) (by decide +kernel)
    (by decide +kernel)

end Sched
