/-
**The modes of the processes.**

`exec_mode` is written by a dozen functions, each with its own guard.  What a write may do to a
mode is a relation between the mode before and the mode after; this module follows such a relation
through every call and every step, once, for any relation that is reflexive and transitive and
allows the writes the functions make.

Three laws about modes are then settled.  A killed process stays killed, unless it waits for its
children: `WatchChildProcess` alone does not look whether the process it puts to waiting has been
killed.  A call of `WatchChildProcess` returns to a process without children, unless the process
was put to sleep meanwhile: `SleepProcessP` and `SleepPrioProcess` overwrite the mode that the wait
consists in.  And `WakeupProcess` never wakes a sleeping process: it clears the timer, and
`CallProcess` only wakes a process whose timer runs out.

Main definitions:

* `Sched.ModeRel` — two memories whose modes are related;
* `Sched.WatchesDead`, `Sched.SleepsWatcher` — the calls that break the first two laws.

Main results:

* `Sched.StepCase.keepsDead`, `Sched.kill_kept_of_reachable` — **a kill is lost exactly in
  `WatchChildProcess`**;
* `Sched.StepCase.watchInv`, `Sched.watch_returns_childless` — **the wait for the children**;
* `Sched.wakeup_never_wakes` — **a sleeping process is not woken**.
-/

import TsaRecomp.Sched.Reachable

set_option relaxedAutoImplicit false
set_option autoImplicit false

namespace Sched

/-! ### Modes across the calls -/

/-- The mode of a process. -/
abbrev Memory.mode (m : Memory) (p : Ptr) : ExecMode := (m.record p).execMode

/-- The mode of every process is related to its mode before. -/
def ModeRel (R : ExecMode → ExecMode → Prop) (m m' : Memory) : Prop :=
  ∀ p, R (m.mode p) (m'.mode p)

/-- A relation between modes that composes, and allows a kill. -/
structure ModeOrder (R : ExecMode → ExecMode → Prop) : Prop where
  refl : ∀ x, R x x
  trans : ∀ x y z, R x y → R y z → R x z
  kill : ∀ x, R x .dead
  wakeSleep : R .unk4 .sleeping
  wake : R .unk4 .default

section Order

variable {R : ExecMode → ExecMode → Prop} {m m' m'' : Memory}

theorem ModeRel.of_eq (hR : ModeOrder R) (h : ∀ p, m'.mode p = m.mode p) : ModeRel R m m' :=
  fun p => by
    rw [h p]
    exact hR.refl _

theorem ModeRel.trans (hR : ModeOrder R) (h : ModeRel R m m') (h' : ModeRel R m' m'') :
    ModeRel R m m'' := fun p => hR.trans _ _ _ (h p) (h' p)

theorem ModeRel.setExecMode (hR : ModeOrder R) (m : Memory) {p : Ptr} {v : ExecMode}
    (h : R (m.mode p) v) : ModeRel R m (m.setExecMode p v) := by
  intro q
  by_cases hq : q = p
  · subst hq
    simpa [Memory.mode] using h
  · simpa [Memory.mode, hq] using hR.refl _

/-! The links of the child lists. -/

theorem mode_unlinkOlder (m : Memory) (p q : Ptr) : (unlinkOlder m p).mode q = m.mode q := by
  unfold unlinkOlder
  split_ifs <;> simp [Memory.mode]

theorem mode_unlinkNewer (m : Memory) (p q : Ptr) : (unlinkNewer m p).mode q = m.mode q := by
  unfold unlinkNewer
  split_ifs <;> simp [Memory.mode]

theorem mode_unlinkChildProcess (m : Memory) (p q : Ptr) :
    (unlinkChildProcess m p).mode q = m.mode q := by
  unfold unlinkChildProcess
  split_ifs
  · rw [← mode_unlinkOlder m p q, ← mode_unlinkNewer (unlinkOlder m p) p q]
    simp [Memory.mode]
  · rfl

theorem sleepTime_unlinkChildProcess (m : Memory) (p q : Ptr) :
    ((unlinkChildProcess m p).record q).sleepTime = (m.record q).sleepTime := by
  unfold unlinkChildProcess unlinkNewer unlinkOlder
  split_ifs <;> simp

theorem mode_linkHead (m : Memory) (root child q : Ptr) :
    (linkHead m root child).mode q = m.mode q := by
  unfold linkHead
  split_ifs <;> simp [Memory.mode]

theorem mode_linkChildProcess (m : Memory) (root child q : Ptr) :
    (linkChildProcess m root child).mode q = m.mode q := by
  rw [← mode_unlinkChildProcess m child q,
    ← mode_linkHead (unlinkChildProcess m child) root child q]
  simp [linkChildProcess, Memory.mode]

/-! The calls that write modes. -/

theorem wakeupProcess_modes (hR : ModeOrder R) (m : Memory) (p : Ptr) :
    ModeRel R m (wakeupProcess m p) := by
  unfold wakeupProcess
  split_ifs with h h'
  · exact .of_eq hR fun q => by simp [Memory.mode]
  · exact .setExecMode hR m (by rw [Memory.mode, h']; exact hR.wakeSleep)
  · exact .setExecMode hR m (by rw [Memory.mode, h']; exact hR.wake)
  · exact .of_eq hR fun _ => rfl

theorem setKillStatusProcessExport_modes (hR : ModeOrder R) (m : Memory) (p : Ptr) :
    ModeRel R m (setKillStatusProcessExport m p).1 := by
  unfold setKillStatusProcessExport
  split_ifs
  · exact (wakeupProcess_modes hR m p).trans hR (.setExecMode hR _ (hR.kill _))
  · exact .of_eq hR fun _ => rfl

/-- A kill sets one mode, whatever it was. -/
theorem mode_setKillStatusProcessExport (m : Memory) (p q : Ptr) :
    (setKillStatusProcessExport m p).1.mode q = if q = p then .dead else m.mode q := by
  unfold setKillStatusProcessExport wakeupProcess Memory.mode
  split_ifs <;> simp_all

theorem sleepTime_setKillStatusProcessExport (m : Memory) {p q : Ptr} (hq : q ≠ p) :
    ((setKillStatusProcessExport m p).1.record q).sleepTime = (m.record q).sleepTime := by
  unfold setKillStatusProcessExport wakeupProcess
  split_ifs <;> simp [hq]

theorem killChildProcess_modes (hR : ModeOrder R) {fuel : ℕ} {p : Ptr}
    (h : killChildProcess fuel m p = .ok m') : ModeRel R m m' := by
  refine (killChild_rel (R := ModeRel R) (fun m => .of_eq hR fun _ => rfl)
    (fun _ _ _ h h' => h.trans hR h') ?_ fuel).1 m p m' h
  intro m m' hw
  cases hw with
  | follow p => exact .of_eq hR fun _ => rfl
  | kill p => exact setKillStatusProcessExport_modes hR m p
  | clear p => exact .of_eq hR fun q => by simp [Memory.mode]

theorem killProcess_modes (hR : ModeOrder R) {fuel : ℕ} {p : Ptr}
    (h : killProcess fuel m p = .ok m') : ModeRel R m m' := by
  rw [killProcess] at h
  obtain ⟨m₁, h₁, h₂⟩ := bind_eq_ok.1 h
  cases h₂
  refine (killChildProcess_modes hR h₁).trans hR
    (.trans hR ?_ (setKillStatusProcessExport_modes hR _ p))
  exact .of_eq hR (mode_unlinkChildProcess m₁ p)

theorem EndProcessLeaves.modes (hR : ModeOrder R) {p : Ptr} (h : EndProcessLeaves m p m') :
    ModeRel R m m' := by
  obtain ⟨fuel, m₁, hk, rfl⟩ := h
  exact (killChildProcess_modes hR hk).trans hR (.of_eq hR (mode_unlinkChildProcess m₁ p))

/-- Putting a process to sleep, where its mode allows it. -/
theorem sleepProcessP_modes (hR : ModeOrder R) (m : Memory) (p : Ptr) (time : ℤ)
    (h : time ≠ 0 → m.mode p ≠ .dead → R (m.mode p) .sleeping ∧ R (m.mode p) .unk4) :
    ModeRel R m (sleepProcessP m p time) := by
  unfold sleepProcessP
  split_ifs with hc ht
  · exact .setExecMode hR m (h hc.1 hc.2).2
  · refine ModeRel.trans hR (.setExecMode hR m (h hc.1 hc.2).1) ?_
    exact .of_eq hR fun q => by simp [Memory.mode]
  · exact .of_eq hR fun _ => rfl

/-- `SleepProcessP` writes one mode. -/
theorem mode_sleepProcessP_of_ne (m : Memory) {p q : Ptr} (time : ℤ) (hq : q ≠ p) :
    (sleepProcessP m p time).mode q = m.mode q := by
  unfold sleepProcessP
  split_ifs <;> simp [Memory.mode, hq]

/-- **Putting a range of priorities to sleep**, where the modes of the range allow it. -/
theorem sleepPrioProcess_modes (hR : ModeOrder R) {fuel : ℕ} {lo hi : ℕ} {time : ℤ}
    {P : ExecMode → Prop} (hP : ∀ x, P x → x ≠ .dead → R x .sleeping ∧ R x .unk4)
    (hsl : P .sleeping) (hpa : P .unk4) (hinv : MemInv m)
    (hm : time ≠ 0 → ∀ q ∈ m.procs, inPriority m lo hi q → P (m.mode q))
    (h : sleepPrioProcess fuel m lo hi time = .ok m') : ModeRel R m m' := by
  refine (forEachProcess_procs (I := fun m₁ => ModeRel R m m₁ ∧
    (time ≠ 0 → ∀ q ∈ m.procs, inPriority m lo hi q → P (m₁.mode q))) hinv
    ⟨.of_eq hR fun _ => rfl, hm⟩ ?_ ?_ h).1
  · intro m₁ q m₂ hb
    split at hb
    · cases hb
      exact sleepProcessP_sameCore m₁ q time
    · cases hb
      exact .refl m₁
  · rintro m₁ q m₂ hs hq ⟨hrel, hcov⟩ hb
    split at hb
    · next hq₁ =>
        cases hb
        have hq₀ : inPriority m lo hi q := ⟨hs.priority q ▸ hq₁.1, hs.priority q ▸ hq₁.2⟩
        refine ⟨hrel.trans hR (sleepProcessP_modes hR m₁ q time fun ht hd =>
          hP _ (hcov ht q hq hq₀) hd), ?_⟩
        intro ht q' hq' hr
        by_cases he : q' = q
        · subst he
          unfold sleepProcessP
          split_ifs
          · simpa [Memory.mode] using hpa
          · simpa [Memory.mode] using hsl
          · exact hcov ht q' hq' hr
        · rw [mode_sleepProcessP_of_ne m₁ time he]
          exact hcov ht q' hq' hr
    · cases hb
      exact ⟨hrel, hcov⟩

end Order

/-- A process that a call would put to sleep. -/
def Api.sleeps (m : Memory) : Api → Ptr → Prop
  | .sleepProcessP process time, p => p = process ∧ time ≠ 0
  | .sleepPrioProcess lo hi time, p => p ∈ m.procs ∧ inPriority m lo hi p ∧ time ≠ 0
  | _, _ => False

/-- **The modes across a call that creates no process.** -/
theorem Api.run_modes {R : ExecMode → ExecMode → Prop} (hR : ModeOrder R) {P : ExecMode → Prop}
    (hP : ∀ x, P x → x ≠ .dead → R x .sleeping ∧ R x .unk4) (hsl : P .sleeping) (hpa : P .unk4)
    {fuel : ℕ} {m m' : Memory} {a : Api} (hm : MemInv m) (ha : a.creates = false)
    (hs : ∀ p, a.sleeps m p → P (m.mode p)) (h : a.run fuel m = .ok m') : ModeRel R m m' := by
  cases a with
  | createProcess => cases ha
  | createChildProcess => cases ha
  | linkChildProcess root child =>
      cases h
      exact .of_eq hR (mode_linkChildProcess m root child)
  | unlinkChildProcess p =>
      cases h
      exact .of_eq hR (mode_unlinkChildProcess m p)
  | killChildProcess p => exact killChildProcess_modes hR h
  | killProcess p => exact killProcess_modes hR h
  | killPrioProcess lo hi =>
      refine forEachProcess_rel (R := ModeRel R) (fun m => .of_eq hR fun _ => rfl)
        (fun _ _ _ h h' => h.trans hR h') ?_ h
      intro m p m' hb
      split at hb
      · exact killProcess_modes hR hb
      · cases hb
        exact .of_eq hR fun _ => rfl
  | sleepProcessP p time =>
      cases h
      exact sleepProcessP_modes hR m p time fun ht hd => hP _ (hs p ⟨rfl, ht⟩) hd
  | sleepPrioProcess lo hi time =>
      exact sleepPrioProcess_modes hR hP hsl hpa hm (fun ht q hq hr => hs q ⟨hq, hr, ht⟩) h
  | wakeupProcess p =>
      cases h
      exact wakeupProcess_modes hR m p
  | wakeupPrioProcess lo hi =>
      refine forEachProcess_rel (R := ModeRel R) (fun m => .of_eq hR fun _ => rfl)
        (fun _ _ _ h h' => h.trans hR h') ?_ h
      intro m p m' hb
      split at hb
      · cases hb
        exact wakeupProcess_modes hR m p
      · cases hb
        exact .of_eq hR fun _ => rfl

/-- Creation leaves the modes of the allocated processes alone. -/
theorem mode_createProcess {fuel : ℕ} {m m' : Memory} {b : Block} {func : ProcessFunc}
    {priority stackSize : ℕ} (h : createProcess fuel m b func priority stackSize = .ok m') {p : Ptr}
    (hp : p ≠ b.process) : m'.mode p = m.mode p := by
  rw [Memory.mode, (createProcess_created h).other p hp]

/-- **The modes across a call**, of the processes that were allocated before. -/
theorem Api.run_modes_live {R : ExecMode → ExecMode → Prop} (hR : ModeOrder R)
    {P : ExecMode → Prop} (hP : ∀ x, P x → x ≠ .dead → R x .sleeping ∧ R x .unk4)
    (hsl : P .sleeping) (hpa : P .unk4) {fuel : ℕ} {m m' : Memory} {a : Api} (hm : MemInv m)
    (hv : a.valid m)
    (hs : ∀ p, a.sleeps m p → P (m.mode p)) (h : a.run fuel m = .ok m') {p : Ptr}
    (hp : p ∈ m.live) : R (m.mode p) (m'.mode p) := by
  cases ha : a.creates with
  | false => exact Api.run_modes hR hP hsl hpa hm ha hs h p
  | true =>
      obtain ⟨b, func, priority, stackSize, m₁, hf, -, hc, he⟩ := Api.run_creates ha hv h
      have h₁ : m₁.mode p = m.mode p := mode_createProcess hc fun e => hf.2.1 (e ▸ hp)
      rcases he with rfl | ⟨root, -, rfl⟩
      · rw [h₁]
        exact hR.refl _
      · rw [mode_linkChildProcess, h₁]
        exact hR.refl _

/-! ### A kill -/

/-- The order of modes in which a process that is killed stays killed. -/
theorem deadOrder : ModeOrder fun x y => x = .dead → y = .dead where
  refl _ := id
  trans _ _ _ h h' := h' ∘ h
  kill _ _ := rfl
  wakeSleep h := by cases h
  wake h := by cases h

/-- A call of `WatchChildProcess` by a process that has been killed and has a child. -/
def WatchesDead (s : Sys) (a : Act) : Prop :=
  a = .watchChildProcess ∧ s.mem.mode s.mem.currentProcess = .dead ∧
    (s.mem.record s.mem.currentProcess).oldestChild ≠ 0

theorem mode_terminated (m : Memory) (p q : Ptr) : (terminated m p).mode q = m.mode q := by
  rw [Memory.mode, MemInv.record_terminated]

/-- Only the timer of a process that sleeps counts down. -/
theorem Skips.mode {m m' : Memory} {time : ℤ} {cur p : Ptr} (h : Skips m time cur m')
    (hp : m.mode p ≠ .sleeping) : m'.mode p = m.mode p := by
  cases h with
  | paused => rfl
  | watching => rfl
  | sleeping hs =>
      have hne : p ≠ cur := fun e => hp (e ▸ hs)
      unfold sleepTick
      dsimp only
      split_ifs <;> simp [Memory.mode, hne]

/-- A visit that runs a process leaves its mode alone, unless it has waited for its children. -/
theorem Readies.mode {m m' : Memory} {r r' : ProcessRuntime} {cur p : Ptr} {evs : List Event}
    (h : Readies m r cur m' r' evs) (hp : p = cur → m.mode p ≠ .watch) : m'.mode p = m.mode p := by
  cases h with
  | default => rfl
  | childless hw hc =>
      have hne : p ≠ cur := fun e => hp e (e ▸ hw)
      simp [Memory.mode, hne]
  | dead => simp [Memory.mode]

theorem mode_sleepCurrent {m : Memory} {p q : Ptr} {time : ℤ} (h : q = p → m.mode q = .dead) :
    (sleepCurrent m p time).mode q = m.mode q := by
  unfold sleepCurrent
  split_ifs with hc
  · have hne : q ≠ p := fun e => hc.2 (e ▸ h e)
    simp [Memory.mode, hne]
  · rfl

/-- **The step lemma**: a killed process stays killed, but for a `WatchChildProcess` of its own. -/
theorem StepCase.keepsDead {s t : Sys} {a : Act} {p : Ptr} (hs : SysInv s) (hst : StepCase s a t)
    (ha : WatchesDead s a → p ≠ s.mem.currentProcess) (hp : p ∈ s.mem.live)
    (hd : s.mem.mode p = .dead) : t.mem.mode p = .dead := by
  cases hst with
  | initProcess | callProcess | finish | yieldedNormal | yieldedTerminate | watchNoChild => exact hd
  | skip hc hcur hpr hm =>
      exact (hm.mode (p := p) (by simp [hd])).trans hd
  | start hc hcur hpr hr hsl => exact (hr.mode (p := p) fun _ => by simp [hd]).trans hd
  | resume hc hcur hpr hr hsl hco hf hw => exact (hr.mode (p := p) fun _ => by simp [hd]).trans hd
  | api hc hv hm =>
      exact Api.run_modes_live deadOrder (P := fun _ => True)
        (fun x _ hx => ⟨fun h => absurd h hx, fun h => absurd h hx⟩) trivial trivial hs.mem hv
        (fun _ _ => trivial) hm hp hd
  | setProcessDestruct f hr => simpa [Memory.mode] using hd
  | sleepProcess t hr => exact (mode_sleepCurrent fun _ => hd).trans hd
  | @watchChildProcess time cur next slot coro hr hch =>
      have hne : p ≠ cur := by
        rintro rfl
        exact ha ⟨rfl, by rw [hr.current]; exact hd, by rw [hr.current]; exact hch⟩ hr.current.symm
      simpa [Memory.mode, hne] using hd
  | destruct hr ha' hm hd' => exact hm.modes deadOrder p hd
  | terminate hr ha' hm hd' => exact (mode_terminated _ _ p).trans (hm.modes deadOrder p hd)
  | destructed hr hf => exact (mode_terminated _ _ p).trans hd
  | @scribble q r hq =>
      have hne : p ≠ q := fun e => hq (e ▸ hp)
      simpa [Memory.mode, hne] using hd
  | overwriteGuards q stackGuard heapGuard => simpa [Memory.mode] using hd

/-- When a kill is kept. -/
structure KillKept (s : Sys) : Prop where
  /-- A step leaves every process killed that has been killed, exactly if it is not a call of
  `WatchChildProcess` by a killed process with a child. -/
  step : ∀ a t, Step s a t →
    ((∀ p ∈ s.mem.live, s.mem.mode p = .dead → p ∈ t.mem.live → t.mem.mode p = .dead) ↔
      ¬ WatchesDead s a)
  /-- In a run without such calls a process stays killed as long as it is live. -/
  run : ∀ p t, s.mem.mode p = .dead →
    RunsTo (fun s a => p ∈ s.mem.live ∧ ¬ WatchesDead s a) s t → t.mem.mode p = .dead

/-- **A kill is lost exactly in `WatchChildProcess`.** -/
theorem kill_kept_of_reachable {s : Sys} (h : Reachable s) : KillKept s := by
  refine ⟨fun a t hst => ⟨?_, ?_⟩, ?_⟩
  · -- the process that waits has been killed, and is not killed any more
    intro hall hw
    obtain ⟨rfl, hd, hch⟩ := hw
    have hinv := h.sysInv
    cases step_cases hinv hst with
    | @watchChildProcess time cur next slot coro hr hch' =>
        have hl := hinv.mem.procs_live cur (hinv.running_mem hr.control)
        have := hall cur hl (hr.current ▸ hd) hl
        simp [Memory.mode] at this
    | watchNoChild hr hch' => exact hch (hr.current.symm ▸ hch')
    | destruct hr ha | terminate hr ha => rcases ha.act with ha | ha <;> cases ha
  · intro hw p hp hd _
    exact (step_cases h.sysInv hst).keepsDead h.sysInv (fun h => absurd h hw) hp hd
  · intro p t hd hr
    have hrun : Reachable t ∧ t.mem.mode p = .dead := by
      refine hr.invariant (I := fun t => Reachable t ∧ t.mem.mode p = .dead) ?_ ⟨h, hd⟩
      intro u a v hu hC hst
      have hinv := hu.1.sysInv
      exact ⟨hu.1.step a trivial hst,
        (step_cases hinv hst).keepsDead hinv (fun h => absurd h hC.2) hC.1 hu.2⟩
    exact hrun.2

/-- A process that has killed itself and made a child since. -/
def killedSelf : List Act :=
  [.api (.createProcess ⟨0x80001000, 0x80001010, 0x80001100⟩ (.game 1) 5 0), .callProcess 1, .tick,
    .api (.killProcess 0x80001010),
    .api (.createChildProcess ⟨0x80002000, 0x80002010, 0x80002100⟩ (.game 2) 5 0 0x80001010)]

theorem kill_kept_of_reachable_killedSelf :
    (stateAfter killedSelf).mem.mode 0x80001010 = .dead ∧ KillKept (stateAfter killedSelf) :=
  ⟨by decide +kernel, kill_kept_of_reachable (reachable_stateAfter killedSelf)⟩

/-- It waits for its child, and is not killed any more. -/
theorem kill_lost_by_watchChildProcess :
    Reachable (stateAfter killedSelf) ∧ 0x80001010 ∈ (stateAfter killedSelf).mem.live ∧
      (stateAfter killedSelf).mem.mode 0x80001010 = .dead ∧
      ∃ t, Step (stateAfter killedSelf) .watchChildProcess t ∧ 0x80001010 ∈ t.mem.live ∧
        t.mem.mode 0x80001010 = .watch :=
  ⟨reachable_stateAfter killedSelf, by decide +kernel, by decide +kernel, _,
    step_stateAfter (by decide +kernel), by decide +kernel, by decide +kernel⟩

/-! ### The wait for the children -/

/-- The modes of a process that is in `WatchChildProcess`. -/
def ExecMode.waits (x : ExecMode) : Prop := x = .watch ∨ x = .dead

/-- The order of modes in which a process that waits for its children goes on waiting, or is
killed. -/
theorem waitOrder : ModeOrder fun x y => x.waits → y.waits where
  refl _ := id
  trans _ _ _ h h' := h' ∘ h
  kill _ _ := Or.inr rfl
  wakeSleep h := by rcases h with h | h <;> cases h
  wake h := by rcases h with h | h <;> cases h

/-- A call that puts a process to sleep that waits for its children. -/
def SleepsWatcher (s : Sys) (a : Act) : Prop :=
  ∃ api p, a = .api api ∧ api.sleeps s.mem p ∧ s.mem.mode p = .watch

/-- A coroutine suspended in `WatchChildProcess` belongs to a process that waits for its children,
or has been killed. -/
def WatchInv (s : Sys) : Prop :=
  ∀ p slot coro frames, s.host.slots p = some slot → slot.coro = some coro →
    coro.frames = .watchChildProcess p :: frames → (s.mem.mode p).waits

theorem SysInv.slot_live {s : Sys} {p : Ptr} {slot : ProcessSlot} (h : SysInv s)
    (hs : s.host.slots p = some slot) : p ∈ s.mem.live := by
  have hplace := h.place
  have hothers : ∀ cur, OthersSuspended s.mem s.host cur → cur ∈ s.mem.live →
      p ∈ s.mem.live := by
    intro cur ho hcur
    by_cases hp : p = cur
    · exact hp ▸ hcur
    · exact h.mem.procs_live p (ho p slot hp hs).1
  cases hc : s.control with
  | outside =>
      rw [hc] at hplace
      exact h.mem.procs_live p (hplace.2.2 p slot hs).1
  | loop time => exact h.mem.procs_live p ((h.atLoop hc).2.2 p slot hs).1
  | running time cur next =>
      rw [hc] at hplace
      exact hothers cur hplace.2.2.2.2.2.2 (h.mem.procs_live cur hplace.2.1)
  | yielded time cur next reason =>
      rw [hc] at hplace
      rcases hplace.2.2.2 with ⟨-, -, hall⟩ | ⟨-, -, hl, -, ho⟩
      · exact h.mem.procs_live p (hall p slot hs).1
      · exact hothers cur ho hl

/-- A step that leaves a process in `WatchChildProcess` where it is, and waiting. -/
theorem WatchInv.of_kept {s t : Sys} (h : WatchInv s)
    (hk : ∀ p slot coro frames, t.host.slots p = some slot → slot.coro = some coro →
      coro.frames = .watchChildProcess p :: frames →
        s.host.slots p = some slot ∧ ((s.mem.mode p).waits → (t.mem.mode p).waits)) :
    WatchInv t := by
  intro p slot coro frames hs hco hf
  obtain ⟨hs', hw⟩ := hk p slot coro frames hs hco hf
  exact hw (h p slot coro frames hs' hco hf)

/-- A step that leaves the slots alone. -/
theorem WatchInv.of_modes {s t : Sys} (h : WatchInv s) (hsl : t.host.slots = s.host.slots)
    (hk : ∀ p slot, s.host.slots p = some slot → (s.mem.mode p).waits → (t.mem.mode p).waits) :
    WatchInv t := by
  refine h.of_kept ?_
  intro p slot coro frames hs _ _
  rw [hsl] at hs
  exact ⟨hs, hk p slot hs⟩

/-- A step that works on the coroutine of `cur`, which it leaves in other frames. -/
theorem WatchInv.of_others {s t : Sys} (h : WatchInv s) (cur : Ptr)
    (hsl : ∀ p, p ≠ cur → t.host.slots p = s.host.slots p)
    (hcur : ∀ slot coro frames, t.host.slots cur = some slot → slot.coro = some coro →
      coro.frames ≠ .watchChildProcess cur :: frames)
    (hk : ∀ p, p ≠ cur → (s.mem.mode p).waits → (t.mem.mode p).waits) : WatchInv t := by
  refine h.of_kept ?_
  intro p slot coro frames hs hco hf
  by_cases hp : p = cur
  · subst hp
    exact absurd hf (hcur slot coro frames hs hco)
  · rw [hsl p hp] at hs
    exact ⟨hs, hk p hp⟩

/-- The code of a process is not `WatchChildProcess`. -/
theorem code_ne_watch {cur : Ptr} {fs frames : List Frame} (h : ∀ f ∈ fs, f.isCode cur) :
    fs ≠ .watchChildProcess cur :: frames := by
  rintro rfl
  rcases h (.watchChildProcess cur) (by simp) with ⟨f, hf⟩ | ⟨f, hf⟩ <;> cases hf

/-- **The step lemma**: a process in `WatchChildProcess` waits, or has been killed. -/
theorem StepCase.watchInv {s t : Sys} {a : Act} (hs : SysInv s) (h : WatchInv s)
    (ha : ¬ SleepsWatcher s a) (hst : StepCase s a t) : WatchInv t := by
  cases hst with
  | initProcess hc =>
      intro p slot coro frames hsl
      cases hsl
  | callProcess time hc => exact h.of_modes rfl fun _ _ _ => id
  | finish time hc h0 => exact h.of_modes rfl fun _ _ _ => id
  | skip hc hcur hp hm =>
      refine h.of_modes rfl ?_
      intro p slot _ hw
      -- a visit only changes the mode of a process that sleeps
      have hne : s.mem.mode p ≠ .sleeping := by rcases hw with hw | hw <;> simp [hw]
      exact (hm.mode hne).symm ▸ hw
  | @start time cur m r evs hc hcur hp hr hsl =>
      refine h.of_others cur ?_ ?_ ?_
      · intro p hp
        have : r.slots p = s.host.slots p := by cases hr <;> simp [hp]
        simpa [ProcessRuntime.started, hp] using this
      · intro slot coro frames hs' hco
        obtain rfl := Option.some.inj ((if_pos rfl).symm.trans hs')
        obtain rfl := Option.some.inj hco
        simp
      · intro p hp hw
        exact (hr.mode fun e => absurd e hp).symm ▸ hw
  | @resume time cur m slot coro frame frames hc hcur hp hr hsl hco hf hw =>
      refine h.of_others cur ?_ ?_ ?_
      · intro p hp
        simp [ProcessRuntime.resumed, hp]
      · intro slot' coro' frames' hs' hco'
        obtain rfl := Option.some.inj ((if_pos rfl).symm.trans hs')
        obtain rfl := Option.some.inj hco'
        -- the frame of `WatchChildProcess` is the one that has just been left
        obtain ⟨-, -, hall⟩ := hs.atLoop hc
        obtain ⟨-, -, -, coro', frame', fs, hco', -, hf', -, -, hcode⟩ := hall cur slot hsl
        obtain rfl : coro' = coro := Option.some.inj (hco'.symm.trans hco)
        obtain ⟨rfl, rfl⟩ := List.cons.inj (hf'.symm.trans hf)
        exact code_ne_watch hcode
      · intro p hp hw
        exact (hr.mode fun e => absurd e hp).symm ▸ hw
  | yieldedNormal hc hp => exact h.of_modes rfl fun _ _ _ => id
  | @yieldedTerminate time cur next hc hp hl hheap =>
      refine h.of_others cur (fun p hp => by simp [hp]) ?_
        fun p _ => id
      intro slot coro frames hs'
      simp at hs'
  | @api a fuel m hc hv hm =>
      refine h.of_modes rfl ?_
      intro p slot hsl hw
      -- a call takes no process out of its wait: it only puts others to sleep
      have hP : ∀ x : ExecMode, x ≠ .watch → x ≠ .dead →
          (x.waits → ExecMode.sleeping.waits) ∧ (x.waits → ExecMode.unk4.waits) := fun x h₁ h₂ =>
        ⟨fun hx => absurd hx (by simp [ExecMode.waits, h₁, h₂]),
          fun hx => absurd hx (by simp [ExecMode.waits, h₁, h₂])⟩
      exact Api.run_modes_live waitOrder hP (by simp) (by simp) hs.mem hv
        (fun q hq hmode => ha ⟨a, q, rfl, hq, hmode⟩) hm (hs.slot_live hsl) hw
  | setProcessDestruct f hr =>
      exact h.of_modes rfl fun p _ _ hw => by simpa [Memory.mode] using hw
  | @sleepProcess time cur next slot coro t hr =>
      refine h.of_others cur (fun p hp => by simp [ProcessRuntime.yielded, hp]) ?_ ?_
      · intro slot' coro' frames hs' hco'
        obtain rfl := Option.some.inj ((if_pos rfl).symm.trans hs')
        obtain rfl := Option.some.inj hco'
        simp
      · intro p hp hw
        exact (mode_sleepCurrent fun e => absurd e hp).symm ▸ hw
  | @watchChildProcess time cur next slot coro hr hch =>
      -- the process that begins to wait, and the others
      intro p slot' coro' frames hs' hco' hf'
      by_cases hp : p = cur
      · subst hp
        exact Or.inl (by simp [Memory.mode])
      · have hs'' : s.host.slots p = some slot' := by
          simpa [ProcessRuntime.yielded, hp] using hs'
        simpa [Memory.mode, hp] using h p slot' coro' frames hs'' hco' hf'
  | watchNoChild hr hch => exact h.of_modes rfl fun _ _ _ => id
  | @destruct a time cur next slot coro m f hr ha' hm hd =>
      refine h.of_others cur (fun p hp => by simp [ProcessRuntime.reframed, hp])
        ?_ fun p _ => hm.modes waitOrder p
      intro slot' coro' frames hs' hco'
      obtain rfl := Option.some.inj ((if_pos rfl).symm.trans hs')
      obtain rfl := Option.some.inj hco'
      simp
  | @terminate a time cur next slot coro m hr ha' hm hd =>
      refine h.of_others cur (fun p hp => by simp [ProcessRuntime.yielded, hp]) ?_ ?_
      · intro slot' coro' frames hs' hco'
        obtain rfl := Option.some.inj ((if_pos rfl).symm.trans hs')
        obtain rfl := Option.some.inj hco'
        simp
      · intro p _ hw
        exact (mode_terminated m cur p).symm ▸ hm.modes waitOrder p hw
  | @destructed time cur next slot coro f frames hr hf =>
      refine h.of_others cur (fun p hp => by simp [ProcessRuntime.yielded, hp]) ?_ ?_
      · intro slot' coro' frames' hs' hco'
        obtain rfl := Option.some.inj ((if_pos rfl).symm.trans hs')
        obtain rfl := Option.some.inj hco'
        simp
      · intro p _ hw
        exact (mode_terminated s.mem cur p).symm ▸ hw
  | @scribble q r hq =>
      refine h.of_modes rfl ?_
      intro p slot hsl hw
      have hne : p ≠ q := fun e => hq (e ▸ hs.slot_live hsl)
      simpa [Memory.mode, hne] using hw
  | overwriteGuards q stackGuard heapGuard =>
      exact h.of_modes rfl fun p _ _ hw => by simpa [Memory.mode] using hw

/-- What a step adds to the history. -/
def newEvents (s t : Sys) : List Event := t.log.take (t.log.length - s.log.length)

theorem newEvents_eq {s t : Sys} {evs : List Event} (h : t.log = evs ++ s.log) :
    newEvents s t = evs := by
  simp [newEvents, h]

theorem mem_newEvents {s t : Sys} {e : Event} (evs : List Event) (h : t.log = evs ++ s.log)
    (he : e ∈ evs) : e ∈ newEvents s t := by
  rwa [newEvents_eq h]

/-- The scheduler only resumes a process that waits for its children when it has none. -/
theorem Readies.oldestChild {m m' : Memory} {r r' : ProcessRuntime} {cur : Ptr}
    (h : Readies m r cur m' r' []) (hw : (m.mode cur).waits) :
    (m'.record cur).oldestChild = 0 := by
  cases h with
  | default hd => rcases hw with hw | hw <;> rw [Memory.mode, hd] at hw <;> cases hw
  | childless _ hc => simpa using hc

/-- A step in which `WatchChildProcess` returns leaves a process without children. -/
theorem StepCase.watch_returns {s t : Sys} {a : Act} {p : Ptr} (h : WatchInv s)
    (hst : StepCase s a t) (he : .watchReturned p ∈ newEvents s t) :
    (t.mem.record p).oldestChild = 0 := by
  have key : ∀ evs : List Event, t.log = evs ++ s.log → .watchReturned p ∈ evs :=
    fun evs hlog => by rwa [newEvents_eq hlog] at he
  cases hst with
  | initProcess | finish | yieldedNormal | setProcessDestruct | sleepProcess | watchChildProcess
  | scribble | overwriteGuards => simpa using key [] rfl
  | callProcess time => simpa using key [.called time] rfl
  | @skip time cur m => simpa using key [.visited cur] rfl
  | @start time cur m r evs hc hcur hpr hr hsl =>
      have := key (.resumed cur (some r.nextCoroutine) :: evs ++ [.visited cur]) (by simp)
      cases hr <;> simp at this
  | @resume time cur m slot coro frame frames hc hcur hpr hr hsl hco hf hw =>
      have := key (frame.returns ++ [.resumed cur (some coro.id), .visited cur]) (by simp)
      -- a call returns where its process is resumed: of `SleepProcess` or of `WatchChildProcess`
      rcases hw with rfl | rfl
      · simp [Frame.returns] at this
      · obtain rfl : p = cur := by simpa [Frame.returns] using this
        exact hr.oldestChild (h p slot coro frames hsl hco hf)
  | @yieldedTerminate time cur =>
      simpa using key [.heapFreed s.mem.pendingHeapFree, .coroutineDestroyed cur] rfl
  | @api a =>
      have := key a.events rfl
      cases a <;> simp [Api.events] at this
  | @watchNoChild time cur next slot coro hr hch =>
      obtain rfl : p = cur := by simpa using key [.watchReturned cur] rfl
      exact hch
  | @destruct a time cur => simpa using key [.destructorStarted cur] rfl
  | @terminate a time cur => simpa using key [.terminated cur] rfl
  | @destructed time cur => simpa using key [.terminated cur] rfl

/-- **A call of `WatchChildProcess` returns to a process without children**, in every run that puts
no process to sleep while it waits for its children. -/
theorem watch_returns_childless {s t : Sys} {a : Act} {p : Ptr}
    (h : ReachableUnder (fun s a => ¬ SleepsWatcher s a) s) (hst : Step s a t)
    (he : .watchReturned p ∈ newEvents s t) : (t.mem.record p).oldestChild = 0 := by
  have hinv : WatchInv s := by
    refine h.invariant ?_ fun s a t hs hi ha hst => hst.watchInv hs hi ha
    intro s hs
    obtain ⟨record, rfl⟩ := hs
    intro p slot coro frames hs
    cases hs
  exact (step_cases h.sysInv hst).watch_returns hinv he

/-- A process that waits for its child, up to the visit in which it is resumed. -/
def watchedChild : List Act :=
  [.api (.createProcess ⟨0x80001000, 0x80001010, 0x80001100⟩ (.game 1) 5 0), .callProcess 1, .tick,
    .api (.createChildProcess ⟨0x80002000, 0x80002010, 0x80002100⟩ (.game 2) 4 0 0x80001010),
    .watchChildProcess, .tick, .tick, .returnFrom, .tick, .tick, .callProcess 1]

/-- An action that puts no process to sleep. -/
def sleepsNobody (_ : Sys) : Act → Bool
  | .api (.sleepProcessP _ _) => false
  | .api (.sleepPrioProcess _ _ _) => false
  | _ => true

theorem not_sleepsWatcher_of_sleepsNobody {s : Sys} {a : Act} (h : sleepsNobody s a = true) :
    ¬ SleepsWatcher s a := by
  rintro ⟨api, p, rfl, hp, -⟩
  cases api with
  | sleepProcessP => cases h
  | sleepPrioProcess => cases h
  | _ => exact hp

theorem watch_returns_childless_watchedChild :
    .watchReturned 0x80001010 ∈ newEvents (stateAfter watchedChild)
        (stateAfter (watchedChild ++ [.tick])) ∧
      ((stateAfter (watchedChild ++ [.tick])).mem.record 0x80001010).oldestChild = 0 := by
  have he : .watchReturned 0x80001010 ∈ newEvents (stateAfter watchedChild)
      (stateAfter (watchedChild ++ [.tick])) := by decide +kernel
  refine ⟨he, watch_returns_childless ?_ (step_stateAfter (by decide +kernel)) he⟩
  exact reachableUnder_stateAfter sleepsNobody (fun _ _ => not_sleepsWatcher_of_sleepsNobody)
    (by decide +kernel)

/-- A process that waits for its child, and that the child puts to sleep for one tick. -/
def sleptWatcher : List Act :=
  [.api (.createProcess ⟨0x80001000, 0x80001010, 0x80001100⟩ (.game 1) 5 0), .callProcess 1, .tick,
    .api (.createChildProcess ⟨0x80002000, 0x80002010, 0x80002100⟩ (.game 2) 4 0 0x80001010),
    .watchChildProcess, .tick, .tick, .api (.sleepProcessP 0x80001010 1), .sleepProcess 0, .tick,
    .tick, .callProcess 1, .tick, .tick, .sleepProcess 0, .tick, .tick, .callProcess 1]

/-- The call of `WatchChildProcess` returns although the child has not ended. -/
theorem watch_returns_early :
    Reachable (stateAfter sleptWatcher) ∧ ∃ t, Step (stateAfter sleptWatcher) .tick t ∧
      .watchReturned 0x80001010 ∈ newEvents (stateAfter sleptWatcher) t ∧
      t.mem.mode 0x80001010 ≠ .dead ∧ (t.mem.record 0x80001010).oldestChild = 0x80002010 ∧
      0x80002010 ∈ t.mem.procs :=
  ⟨reachable_stateAfter sleptWatcher, _, step_stateAfter (by decide +kernel), by decide +kernel,
    by decide +kernel, by decide +kernel, by decide +kernel⟩

/-! ### The wakeup of a sleeping process -/

/-- A process that a call would wake. -/
def Api.wakes (m : Memory) : Api → Ptr → Prop
  | .wakeupProcess process, p => p = process
  | .wakeupPrioProcess lo hi, p => p ∈ m.procs ∧ inPriority m lo hi p
  | _, _ => False

/-- A process sleeps, and its timer has been cleared. -/
def SleepsUntimed (m : Memory) (p : Ptr) : Prop :=
  m.mode p = .sleeping ∧ (m.record p).sleepTime = 0

theorem wakeupProcess_untimed {m : Memory} {p : Ptr} (h : m.mode p = .sleeping) :
    SleepsUntimed (wakeupProcess m p) p := by
  rw [wakeupProcess, if_pos h]
  constructor
  · simpa [Memory.mode] using h
  · simp

theorem record_wakeupProcess_of_ne (m : Memory) {p q : Ptr} (hq : q ≠ p) :
    (wakeupProcess m p).record q = m.record q := by
  unfold wakeupProcess
  split_ifs <;> simp [hq]

/-- What waking does to a sleeping process: it clears the timer. -/
theorem Api.wakes_untimed {fuel : ℕ} {m m' : Memory} {a : Api} {p : Ptr} (hm : MemInv m)
    (ha : a.wakes m p) (hs : m.mode p = .sleeping) (h : a.run fuel m = .ok m') :
    SleepsUntimed m' p := by
  cases a with
  | wakeupProcess q =>
      cases h
      obtain rfl : p = q := ha
      exact wakeupProcess_untimed hs
  | wakeupPrioProcess lo hi =>
      obtain ⟨hp, hr⟩ := ha
      refine forEachProcess_covers (K := fun m => m.mode p = .sleeping)
        (J := fun m => SleepsUntimed m p) hm hp hs ?_ ?_ ?_ ?_ h
      · intro m₁ q m₂ hb
        split at hb
        · cases hb
          exact wakeupProcess_sameCore m₁ q
        · cases hb
          exact .refl m₁
      · intro m₁ q m₂ hq hK hb
        split at hb
        · cases hb
          rwa [Memory.mode, record_wakeupProcess_of_ne m₁ hq.symm]
        · cases hb
          exact hK
      · intro m₁ m₂ hsame hK hb
        have hr₁ : inPriority m₁ lo hi p := ⟨hsame.priority p ▸ hr.1, hsame.priority p ▸ hr.2⟩
        rw [if_pos hr₁] at hb
        cases hb
        exact wakeupProcess_untimed hK
      · intro m₁ q m₂ hq hJ hb
        split at hb
        · cases hb
          rwa [SleepsUntimed, Memory.mode, record_wakeupProcess_of_ne m₁ hq.symm]
        · cases hb
          exact hJ
  | _ => exact absurd ha not_false

/-- **The round of a process**: `CallProcess` ends at the end of the run list, leaves the process
waiting, or runs it in a new coroutine or in the one that waits. -/
theorem StepCase.visit {s t : Sys} {time : ℤ} {p : Ptr} (hst : StepCase s .tick t)
    (hc : s.control = .loop time) (hcur : s.mem.currentProcess = p) :
    p = 0 ∧ t = { s with control := .outside } ∨
    (∃ m, p ∈ s.mem.procs ∧ Skips s.mem time p m ∧
      t = { s with mem := advance m p, log := .visited p :: s.log }) ∨
    ∃ m r evs next, Readies s.mem s.host p m r evs ∧ t.control = .running time p next ∧
      (r.slots p = none ∨ ∃ slot coro evs', s.host.slots p = some slot ∧ slot.coro = some coro ∧
        t.log = evs' ++ .resumed p (some coro.id) :: .visited p :: s.log) := by
  cases hst with
  | finish _ _ h0 => exact Or.inl ⟨hcur.symm.trans h0, rfl⟩
  | @skip time' cur m hc' hcur' hp hm =>
      obtain rfl : cur = p := hcur'.symm.trans hcur
      obtain rfl : time' = time := Control.loop.inj (hc'.symm.trans hc)
      exact Or.inr (Or.inl ⟨m, hp, hm, rfl⟩)
  | @start time' cur m r evs hc' hcur' hp hr hs =>
      obtain rfl : cur = p := hcur'.symm.trans hcur
      obtain rfl : time' = time := Control.loop.inj (hc'.symm.trans hc)
      exact Or.inr (Or.inr ⟨m, r, evs, _, hr, rfl, Or.inl hs⟩)
  | @resume time' cur m slot coro frame frames hc' hcur' hp hr hs hco hf hw =>
      obtain rfl : cur = p := hcur'.symm.trans hcur
      obtain rfl : time' = time := Control.loop.inj (hc'.symm.trans hc)
      exact Or.inr (Or.inr ⟨m, _, [], _, hr, rfl, Or.inr ⟨slot, coro, _, hs, hco, rfl⟩⟩)
  | yieldedNormal hc' | yieldedTerminate hc' =>
      rw [hc] at hc'
      cases hc'
  | destruct hr | terminate hr =>
      have hc' := hr.control
      rw [hc] at hc'
      cases hc'

/-- The round of a process of the run list. -/
theorem StepCase.visit_of_mem {s t : Sys} {time : ℤ} {p : Ptr} (h : SysInv s)
    (hst : StepCase s .tick t) (hc : s.control = .loop time) (hcur : s.mem.currentProcess = p)
    (hp : p ∈ s.mem.procs) :
    (∃ m, Skips s.mem time p m ∧
      t = { s with mem := advance m p, log := .visited p :: s.log }) ∨
    ∃ m r evs next, Readies s.mem s.host p m r evs ∧ t.control = .running time p next ∧
      (r.slots p = none ∨ ∃ slot coro, s.host.slots p = some slot ∧ slot.coro = some coro ∧
        .resumed p (some coro.id) ∈ newEvents s t) := by
  rcases hst.visit hc hcur with ⟨h0, -⟩ | ⟨m, -, hm⟩ | ⟨m, r, evs, next, hr, ht, hs⟩
  · exact absurd h0 (h.mem.ne_null (h.mem.procs_live p hp))
  · exact Or.inl ⟨m, hm⟩
  · refine Or.inr ⟨m, r, evs, next, hr, ht, hs.imp id ?_⟩
    rintro ⟨slot, coro, evs', hslot, hco, hlog⟩
    exact ⟨slot, coro, hslot, hco,
      mem_newEvents (evs' ++ [.resumed p (some coro.id), .visited p]) (by simp [hlog]) (by simp)⟩

/-- The visit of a process that sleeps without a timer leaves it asleep. -/
theorem StepCase.visit_untimed {s t : Sys} {time : ℤ} {p : Ptr} (hst : StepCase s .tick t)
    (hc : s.control = .loop time) (hcur : s.mem.currentProcess = p) (h : SleepsUntimed s.mem p) :
    SleepsUntimed t.mem p := by
  have hmode : (s.mem.record p).execMode = .sleeping := h.1
  rcases hst.visit hc hcur with ⟨-, rfl⟩ | ⟨m, -, hm, rfl⟩ | ⟨m, r, evs, next, hr, -⟩
  · exact h
  · cases hm with
    | paused hm | watching hm =>
        rw [hmode] at hm
        cases hm
    | sleeping =>
        -- the timer only counts down while it is positive
        rw [sleepTick, if_neg (by simp [h.2])]
        exact h
  · cases hr with
    | default hm | childless hm | dead hm =>
        rw [hmode] at hm
        cases hm

/-- A step that neither writes the mode nor the timer of `p`. -/
def LeavesAlone (p : Ptr) (s : Sys) (a : Act) : Prop :=
  ∀ t, Step s a t →
    t.mem.mode p = s.mem.mode p ∧ (t.mem.record p).sleepTime = (s.mem.record p).sleepTime

/-- **`WakeupProcess` never wakes a sleeping process.**  Whatever the timer of the process was, and
however the run goes on without touching the process, the visit that follows leaves it asleep. -/
theorem wakeup_never_wakes {s s₁ s₂ s₃ : Sys} {a : Api} {p : Ptr} {time : ℤ} (h : Reachable s)
    (hs : s.mem.mode p = .sleeping) (ha : a.wakes s.mem p) (h₁ : Step s (.api a) s₁)
    (h₂ : RunsTo (LeavesAlone p) s₁ s₂) (hc : s₂.control = .loop time)
    (hcur : s₂.mem.currentProcess = p) (h₃ : Step s₂ .tick s₃) :
    s₃.mem.mode p = .sleeping ∧ s₃.mem.mode p ≠ .default := by
  have hwoken : SleepsUntimed s₁.mem p := by
    cases step_cases h.sysInv h₁ with
    | api hmay hv hm => exact Api.wakes_untimed h.sysInv.mem ha hs hm
    | destruct hr ha' | terminate hr ha' => rcases ha'.act with ha' | ha' <;> cases ha'
  have hkept : SleepsUntimed s₂.mem p := by
    refine h₂.invariant (I := fun s => SleepsUntimed s.mem p) ?_ hwoken
    intro u b v hu hb hst
    obtain ⟨hmode, htime⟩ := hb v hst
    exact ⟨hmode.trans hu.1, htime.trans hu.2⟩
  have hreach : Reachable s₂ :=
    (h.step (.api a) trivial h₁).runsTo (h₂.mono fun _ _ _ => trivial)
  have hvisit := (step_cases hreach.sysInv h₃).visit_untimed hc hcur hkept
  exact ⟨hvisit.1, by simp [hvisit.1]⟩

theorem leavesAlone_callProcess (p : Ptr) (s : Sys) (time : ℤ) :
    LeavesAlone p s (.callProcess time) := by
  rintro t ⟨fuel, hst⟩
  rw [step] at hst
  split at hst
  · cases hst
    exact ⟨rfl, rfl⟩
  · cases hst

/-- A process that sleeps for five ticks. -/
def fiveTicks : List Act :=
  [.api (.createProcess ⟨0x80001000, 0x80001010, 0x80001100⟩ (.game 1) 5 0), .callProcess 1, .tick,
    .sleepProcess 5, .tick, .tick]

/-- The same, when it has been woken, and when it is visited next. -/
def fiveTicksWoken : List Act := fiveTicks ++ [.api (.wakeupProcess 0x80001010)]
def fiveTicksVisit : List Act := fiveTicksWoken ++ [.callProcess 1]

theorem wakeup_never_wakes_fiveTicks :
    (stateAfter (fiveTicksVisit ++ [.tick])).mem.mode 0x80001010 = .sleeping ∧
      (stateAfter (fiveTicksVisit ++ [.tick])).mem.mode 0x80001010 ≠ .default := by
  have h₁ : Step (stateAfter fiveTicks) (.api (.wakeupProcess 0x80001010))
      (stateAfter fiveTicksWoken) := step_stateAfter (by decide +kernel)
  have h₂ : Step (stateAfter fiveTicksWoken) (.callProcess 1) (stateAfter fiveTicksVisit) :=
    step_stateAfter (by decide +kernel)
  have hc : (stateAfter fiveTicksVisit).control = .loop 1 := by decide +kernel
  exact wakeup_never_wakes (a := .wakeupProcess 0x80001010) (reachable_stateAfter fiveTicks)
    (by decide +kernel) rfl h₁
    (.single (leavesAlone_callProcess _ _ 1) h₂) hc (by decide +kernel)
    (step_stateAfter (by decide +kernel))

/-- A process that sleeps for five ticks and is woken sleeps on when it is visited. -/
theorem woken_process_sleeps :
    Reachable (stateAfter fiveTicks) ∧ 0x80001010 ∈ (stateAfter fiveTicks).mem.live ∧
      (stateAfter fiveTicks).mem.mode 0x80001010 = .sleeping ∧
      ∃ s₁ s₂ s₃, Step (stateAfter fiveTicks) (.api (.wakeupProcess 0x80001010)) s₁ ∧
        Step s₁ (.callProcess 1) s₂ ∧ s₂.control = .loop 1 ∧
        s₂.mem.currentProcess = 0x80001010 ∧ Step s₂ .tick s₃ ∧
        s₃.mem.mode 0x80001010 ≠ .default :=
  ⟨reachable_stateAfter fiveTicks, by decide +kernel, by decide +kernel,
    stateAfter fiveTicksWoken, stateAfter fiveTicksVisit, _, step_stateAfter (by decide +kernel),
    step_stateAfter (by decide +kernel), by decide +kernel, by decide +kernel,
    step_stateAfter (by decide +kernel), by decide +kernel⟩

end Sched
