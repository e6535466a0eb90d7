/-
**The coroutine runtime on top of the coroutine library.**

`Sched.Runtime` takes coroutines for what they are to the scheduler.  Here `process_api.cpp` is
linked with the coroutine library itself: a slot holds the address of a coroutine, and creating,
resuming, yielding and destroying go through the functions of the library, whose results are
checked where the source checks them.  The results of `mco_destroy` are dropped, as the destructor
of a slot drops them.

The addresses of new coroutines come from the allocator, and those of local variables from the
stack of the code that executes; both are arguments.

Main definitions:

* `Sched.LinkedSlot`, `Sched.LinkedRuntime` — the state of the host with the library;
* `Sched.LinkedRuntime.reset`, `.destroy`, `.create`, `.resumeEnter`, `.coroutineEnter`,
  `.recompProcessYield`, `.resumeExit` — the functions of `process_api.cpp`;
* `Sched.HostCall` — the calls of the scheduler, with their effect on both runtimes.
-/

import TsaRecomp.Coro.Activations
import TsaRecomp.Sched.Runtime

set_option relaxedAutoImplicit false
set_option autoImplicit false

namespace Sched

/-! ### Slots -/

/-- `ProcessSlot`, with the pointer to its coroutine. -/
structure LinkedSlot where
  state : ProcessState
  processKey : Ptr
  entryFunc : ProcessFunc
  endFunc : ProcessFunc
  initialSp : Ptr
  coro : Option Coro.Addr
  deriving DecidableEq, Repr

/-- `ProcessRuntime` and the coroutine library.  The slots stand in the order in which the map is
gone through; the frames are those on the native stacks. -/
structure LinkedRuntime where
  slots : List (Ptr × LinkedSlot)
  currentSlot : Option Ptr
  currentRdram : Bool
  yieldReason : ℤ
  resumeValue : ℤ
  initialized : Bool
  mco : Coro.Machine
  frames : Coro.Addr → List Frame

/-- Why the host cannot go on: a fatal error of its own, or a fault of the library. -/
inductive Halt
  | fatal (format : String)
  | fault (f : Coro.Fault)
  deriving DecidableEq, Repr

/-- What the environment provides: the place of a new coroutine, and that of a local variable. -/
structure Env where
  mem : Coro.Addr
  dummy : Coro.Addr
  deriving DecidableEq, Repr

namespace LinkedRuntime

/-- The runtime before `recomp_process_init`. -/
def boot : LinkedRuntime where
  slots := []
  currentSlot := none
  currentRdram := false
  yieldReason := 0
  resumeValue := 0
  initialized := false
  mco := Coro.Machine.boot
  frames := fun _ => []

/-- `ProcessRuntime::find` -/
def find (l : LinkedRuntime) (key : Ptr) : Option LinkedSlot :=
  (l.slots.find? fun e => e.1 = key).map Prod.snd

/-- A slot is written to. -/
def modify (l : LinkedRuntime) (key : Ptr) (f : LinkedSlot → LinkedSlot) : LinkedRuntime :=
  { l with slots := l.slots.map fun e => if e.1 = key then (e.1, f e.2) else e }

/-- A call into the library. -/
def lib {α : Type} (x : Except Coro.Fault α) : Except Halt α := x.mapError Halt.fault

/-! ### The functions of the host -/

/-- `~ProcessSlot`, which is `destroy_coro`: the result of `mco_destroy` is not looked at. -/
def destroyCoro (l : LinkedRuntime) (slot : LinkedSlot) : Except Halt LinkedRuntime :=
  match slot.coro with
  | none => .ok l
  | some co => do
      let (_, m) ← lib (l.mco.mcoDestroy (some co))
      .ok { l with mco := m }

/-- `slots.clear()` -/
def destroyAll : List (Ptr × LinkedSlot) → LinkedRuntime → Except Halt LinkedRuntime
  | [], l => .ok l
  | e :: slots, l => do
      let l ← l.destroyCoro e.2
      destroyAll slots l

/-- `ProcessRuntime::reset` -/
def reset (l : LinkedRuntime) : Except Halt LinkedRuntime :=
  match l.currentSlot with
  | some _ => .error (.fatal "reset while process 0x%08X is running")
  | none => do
      let l ← destroyAll l.slots l
      .ok { l with
        slots := []
        currentSlot := none
        currentRdram := false
        yieldReason := 0
        resumeValue := 0
        initialized := true }

/-- `ProcessRuntime::destroy` -/
def destroy (l : LinkedRuntime) (processKey : Ptr) : Except Halt LinkedRuntime :=
  match l.find processKey with
  | none => .ok l
  | some slot =>
      if l.currentSlot = some processKey then
        .error (.fatal "attempted to destroy running process 0x%08X")
      else do
        let l ← l.destroyCoro slot
        .ok { l with slots := l.slots.filter fun e => e.1 ≠ processKey }

/-- `recomp_process_destroy` -/
def recompProcessDestroy (l : LinkedRuntime) (processKey : Ptr) : Except Halt LinkedRuntime :=
  if processKey = 0 then .ok l else l.destroy processKey

/-- `MIN_NATIVE_STACK` -/
def minNativeStack : Coro.Size := 0x80000

/-- The address of `process_coro_entry`. -/
def processCoroEntry : Coro.Addr := 1

/-- `ProcessRuntime::create` -/
def create (l : LinkedRuntime) (env : Env) (processKey : Ptr) (entryFunc : ProcessFunc)
    (initialSp : Ptr) (endFunc : ProcessFunc) : Except Halt LinkedRuntime :=
  if processKey = 0 then .error (.fatal "refusing to create a process slot for key 0")
  else
    let desc := Coro.mcoDescInit (some processCoroEntry) minNativeStack
    match l.mco.mcoCreate true (some desc) (some env.mem) with
    | (res, co, m) =>
        if res ≠ .success then .error (.fatal "failed to create coroutine for process 0x%08X: %s")
        else
          let slot : LinkedSlot :=
            { state := .created
              processKey := processKey
              entryFunc := entryFunc
              endFunc := endFunc
              initialSp := initialSp
              coro := co }
          match l.find processKey with
          | some _ => .error (.fatal "duplicate process slot for key 0x%08X")
          | none => .ok { l with
              slots := (processKey, slot) :: l.slots
              mco := m
              frames := fun a => if some a = co then [] else l.frames a }

/-- The slot `recomp_process_resume` works on: the one it finds, or a new one. -/
def resumeSlot (l : LinkedRuntime) (env : Env) (processKey : Ptr) (entryFunc : ProcessFunc)
    (initialSp : Ptr) (endFunc : ProcessFunc) : Except Halt LinkedRuntime :=
  match l.find processKey with
  | none => l.create env processKey entryFunc initialSp endFunc
  | some slot =>
      if slot.state = .dead then .error (.fatal "resume requested for dead process 0x%08X")
      else if slot.entryFunc ≠ entryFunc ∨ slot.endFunc ≠ endFunc ∨ slot.initialSp ≠ initialSp then
        .error (.fatal "resume metadata changed for process 0x%08X")
      else .ok l

/-- `recomp_process_resume` with the slot it works on, up to the switch made by `mco_resume`. -/
def resumeCoro (l : LinkedRuntime) (processKey : Ptr) : Except Halt LinkedRuntime :=
  match (l.find processKey).bind LinkedSlot.coro with
  | none => .error (.fatal "process 0x%08X has no coroutine")
  | some co => do
      let status ← lib (l.mco.mcoStatus (some co))
      if status = .dead then .error (.fatal "resume requested for dead coroutine 0x%08X") else
      let l := { l with
        currentSlot := some processKey
        currentRdram := true
        resumeValue := 1
        yieldReason := 0 }
      let (res, m) ← lib (l.mco.mcoResume (some co))
      if res ≠ .success then .error (.fatal "mco_resume failed for process 0x%08X: %s") else
      .ok { l with mco := m }

/-- `recomp_process_resume`, up to the switch made by `mco_resume`. -/
def resumeEnter (l : LinkedRuntime) (env : Env) (processKey : Ptr) (entryFunc : ProcessFunc)
    (initialSp : Ptr) (endFunc : ProcessFunc) : Except Halt LinkedRuntime := do
  if !l.initialized then .error (.fatal "resume before process runtime initialization") else
  if l.currentSlot.isSome then
    .error (.fatal "nested resume while process 0x%08X is running") else
  if processKey = 0 then .error (.fatal "resume requested for process key 0") else
  let l ← l.resumeSlot env processKey entryFunc initialSp endFunc
  l.resumeCoro processKey

/-- What the code that has been switched to does first: `process_coro_entry` up to the call of the
entry function in a new coroutine, the end of `recomp_process_yield` in one that had yielded. -/
def coroutineEnter (l : LinkedRuntime) : Except Halt LinkedRuntime :=
  match l.mco.executing with
  | none => .error (.fatal "process_coro_entry called without a current slot")
  | some co =>
      match l.currentSlot with
      | none => .error (.fatal "process_coro_entry called without a current slot")
      | some key =>
          match l.frames co with
          | [] =>
              if !l.currentRdram then
                .error (.fatal "process_coro_entry called without RDRAM for process 0x%08X")
              else
                .ok { l.modify key fun slot => { slot with state := .running } with
                  frames := fun a =>
                    if a = co then ((l.find key).map fun slot => .entry slot.entryFunc).toList
                    else l.frames a }
          | .terminateProcess _ :: _ => .error (.fatal "terminated process 0x%08X was resumed")
          | _ :: frames =>
              .ok { l.modify key fun slot => { slot with state := .running } with
                frames := fun a => if a = co then frames else l.frames a }

/-- `yield_running_coro`, up to the switch; the frame is the call that yields. -/
def yieldRunningCoro (l : LinkedRuntime) (env : Env) (frame : Frame) :
    Except Halt LinkedRuntime :=
  match l.mco.mcoRunning with
  | none => .error (.fatal "yield requested without a running coroutine")
  | some running => do
      let (res, m) ← lib (l.mco.mcoYield (some running) env.dummy)
      if res ≠ .success then .error (.fatal "mco_yield failed: %s") else
      -- the frames are those of the code that executes
      .ok { l with
        mco := m
        frames := fun a =>
          if l.mco.executing = some a then frame :: l.frames a else l.frames a }

/-- `recomp_process_yield`, up to the switch made by `mco_yield`. -/
def recompProcessYield (l : LinkedRuntime) (env : Env) (reason : ℤ) (frame : Frame) :
    Except Halt LinkedRuntime :=
  if !isKnownYieldReason reason then .error (.fatal "invalid yield reason %d")
  else
    match l.currentSlot with
    | none => .error (.fatal "yield called with no current process")
    | some key =>
        let l := l.modify key fun slot => { slot with
          state := if reason = yieldTerminate then .dead else .suspended }
        let l := { l with yieldReason := reason }
        l.yieldRunningCoro env frame

/-- `recomp_process_resume`, from the return of `mco_resume`: the code outside of all coroutines
goes on. -/
def resumeExit (l : LinkedRuntime) : Except Halt LinkedRuntime :=
  if l.mco.executing ≠ none then .error (.fault .noContext) else
  let l := { l with currentSlot := none, currentRdram := false }
  if !isKnownYieldReason l.yieldReason then
    .error (.fatal "process 0x%08X returned invalid yield reason %d")
  else .ok l

/-- `recomp_process_get_count` -/
def recompProcessGetCount (l : LinkedRuntime) : ℕ := l.slots.length

/-- `recomp_process_get_current_key` -/
def recompProcessGetCurrentKey (l : LinkedRuntime) : Ptr :=
  match l.currentSlot.bind l.find with
  | none => 0
  | some slot => slot.processKey

end LinkedRuntime

/-! ### The calls of the scheduler -/

/-- What the scheduler and the code of the game ask of the host. -/
inductive HostCall
  | reset
  | destroy (processKey : Ptr)
  | resume (processKey : Ptr) (entryFunc : ProcessFunc) (initialSp : Ptr) (endFunc : ProcessFunc)
  | yield (reason : ℤ) (frame : Frame)
  /-- Calls and returns in the running coroutine, without the host. -/
  | frames (frames : List Frame)
  deriving DecidableEq, Repr

/-- A call on the runtime as the scheduler sees it. -/
def ProcessRuntime.call (r : ProcessRuntime) : HostCall → Except Stop ProcessRuntime
  | .reset => r.reset
  | .destroy key => r.recompProcessDestroy key
  | .resume key entryFunc initialSp endFunc =>
      (r.switchIn key entryFunc initialSp endFunc).map Prod.fst
  | .yield reason frame => (r.switchOut reason frame).map Prod.fst
  | .frames frames => .ok (r.setRunningFrames frames)

/-- A call on the runtime with the library. -/
def LinkedRuntime.call (l : LinkedRuntime) (env : Env) : HostCall → Except Halt LinkedRuntime
  | .reset => l.reset
  | .destroy key => l.recompProcessDestroy key
  | .resume key entryFunc initialSp endFunc => do
      let l ← l.resumeEnter env key entryFunc initialSp endFunc
      l.coroutineEnter
  | .yield reason frame => do
      let l ← l.recompProcessYield env reason frame
      l.resumeExit
  | .frames frames => .ok { l with
      frames := fun a => if l.mco.executing = some a then frames else l.frames a }

/-- A number of calls on the runtime as the scheduler sees it. -/
def ProcessRuntime.calls (r : ProcessRuntime) : List HostCall → Except Stop ProcessRuntime
  | [] => .ok r
  | c :: cs => do
      let r ← r.call c
      r.calls cs

/-- **A proper environment**: the place of a new coroutine is free, and a local variable lies on the
stack of the code that executes. -/
structure Env.Proper (env : Env) (l : LinkedRuntime) : Prop where
  free : l.mco.coros env.mem = none
  onStack : ∀ co c, l.mco.executing = some co → l.mco.coros co = some c →
    c.stackBase ≤ env.dummy ∧ env.dummy ≤ c.stackBase + c.stackSize

/-- **The calls go through** on the runtime with the library, whatever proper environment each of
them is made in, and `P` holds behind them. -/
def GoesThrough (P : LinkedRuntime → Prop) : List HostCall → LinkedRuntime → Prop
  | [], l => P l
  | c :: cs, l => ∀ env, Env.Proper env l → ∃ l', l.call env c = .ok l' ∧ GoesThrough P cs l'

theorem GoesThrough.append {P : LinkedRuntime → Prop} {cs cs' : List HostCall} {l : LinkedRuntime}
    (h : GoesThrough (GoesThrough P cs') cs l) : GoesThrough P (cs ++ cs') l := by
  induction cs generalizing l with
  | nil => exact h
  | cons c cs ih =>
      intro env hp
      obtain ⟨l', hc, hrest⟩ := h env hp
      exact ⟨l', hc, ih hrest⟩

theorem GoesThrough.mono {P Q : LinkedRuntime → Prop} (hPQ : ∀ l, P l → Q l) {cs : List HostCall}
    {l : LinkedRuntime} (h : GoesThrough P cs l) : GoesThrough Q cs l := by
  induction cs generalizing l with
  | nil => exact hPQ l h
  | cons c cs ih =>
      intro env hp
      obtain ⟨l', hc, hrest⟩ := h env hp
      exact ⟨l', hc, ih hrest⟩

theorem ProcessRuntime.calls_append {r r' : ProcessRuntime} {cs cs' : List HostCall}
    (h : r.calls cs = .ok r') : r.calls (cs ++ cs') = r'.calls cs' := by
  induction cs generalizing r with
  | nil =>
      rw [calls, Except.ok.injEq] at h
      rw [h, List.nil_append]
  | cons c cs ih =>
      simp only [calls, List.cons_append, bind, Except.bind] at h ⊢
      cases hc : r.call c with
      | error e => rw [hc] at h; cases h
      | ok r₁ =>
          rw [hc] at h
          exact ih h

end Sched
