/-
**The coroutine runtime of the host.**

`src/game/process_api.cpp` keeps one slot per process, keyed by the address of its record, and
runs the code of the process in a coroutine owned by the slot.  This module is that file, function
by function; a function that switches coroutines is cut at the switch.  `recomp_process_resume` is
`resumeEnter` up to and including the switch into the coroutine, `coroutineEnter` for what the
coroutine does first, and `resumeExit` for what follows the switch back.  `recomp_process_yield` is
`recompProcessYield` up to the switch and part of `coroutineEnter` after it.

A coroutine is represented by the functions it is suspended in (`Frame`).  Its identity is a number
that is never used twice, so that a destroyed coroutine can be told apart from its successor.  The
lookup of a function, and the creation of a coroutine, are taken to succeed.

Main definitions:

* `Sched.Coroutine`, `Sched.ProcessSlot`, `Sched.ProcessRuntime` — the state of the host;
* `Sched.ProcessRuntime.reset`, `.destroy`, `.create`, `.resumeEnter`, `.coroutineEnter`,
  `.resumeExit`, `.recompProcessYield` — its functions.
-/

import TsaRecomp.Sched.Memory

set_option relaxedAutoImplicit false
set_option autoImplicit false

namespace Sched

/-! ### Yield reasons -/

def yieldNormal : ℤ := 1
def yieldStackcheck : ℤ := 2
def yieldTerminate : ℤ := 3

/-- `is_known_yield_reason` -/
def isKnownYieldReason (reason : ℤ) : Bool :=
  reason = yieldNormal || reason = yieldStackcheck || reason = yieldTerminate

/-! ### Coroutines and slots -/

/-- A function call that has not returned, innermost first in a coroutine's list of frames. -/
inductive Frame
  /-- The function the coroutine was started with. -/
  | entry (func : ProcessFunc)
  /-- The destructor of `process`, called by `TerminateProcess_Export`. -/
  | destructor (process : Ptr) (func : ProcessFunc)
  /-- `yield_to_scheduler(YIELD_NORMAL)` called by `SleepProcess`. -/
  | sleepProcess (process : Ptr)
  /-- `yield_to_scheduler(YIELD_NORMAL)` called by `WatchChildProcess`. -/
  | watchChildProcess (process : Ptr)
  /-- `yield_to_scheduler(YIELD_TERMINATE)` called by `TerminateProcess_Export`. -/
  | terminateProcess (process : Ptr)
  deriving DecidableEq, Repr

/-- `mco_state`, without the state of a coroutine that resumed another one. -/
inductive CoroutineState
  | dead
  | running
  | suspended
  deriving DecidableEq, Repr

/-- `mco_coro` -/
structure Coroutine where
  id : ℕ
  state : CoroutineState
  /-- Empty until the coroutine is first resumed. -/
  frames : List Frame
  deriving DecidableEq, Repr

/-- `ProcessState` -/
inductive ProcessState
  | created
  | running
  | suspended
  | dead
  deriving DecidableEq, Repr

/-- `ProcessSlot` -/
structure ProcessSlot where
  state : ProcessState
  processKey : Ptr
  entryFunc : ProcessFunc
  endFunc : ProcessFunc
  initialSp : Ptr
  coro : Option Coroutine
  deriving DecidableEq, Repr

/-- `ProcessRuntime`, with the state of the coroutine library.  A slot is named by its key. -/
structure ProcessRuntime where
  slots : Ptr → Option ProcessSlot
  currentSlot : Option Ptr
  /-- `current_rdram` is not null. -/
  currentRdram : Bool
  yieldReason : ℤ
  resumeValue : ℤ
  initialized : Bool
  /-- The slot whose coroutine `mco_running` answers. -/
  mcoRunning : Option Ptr
  /-- The identity of the next coroutine. -/
  nextCoroutine : ℕ

namespace ProcessRuntime

/-- The runtime before `recomp_process_init`. -/
def boot : ProcessRuntime where
  slots := fun _ => none
  currentSlot := none
  currentRdram := false
  yieldReason := 0
  resumeValue := 0
  initialized := false
  mcoRunning := none
  nextCoroutine := 0

def setSlot (r : ProcessRuntime) (key : Ptr) (slot : Option ProcessSlot) : ProcessRuntime :=
  { r with slots := fun k => if k = key then slot else r.slots k }

@[simp] theorem slots_setSlot (r : ProcessRuntime) (key k : Ptr) (slot : Option ProcessSlot) :
    (r.setSlot key slot).slots k = if k = key then slot else r.slots k := rfl

/-! ### The functions of the host -/

/-- `ProcessRuntime::reset`, called by `recomp_process_init`. -/
def reset (r : ProcessRuntime) : Except Stop ProcessRuntime :=
  match r.currentSlot with
  | some _ => .error (.fatal "reset while process 0x%08X is running")
  | none => .ok { r with
      slots := fun _ => none
      currentSlot := none
      currentRdram := false
      yieldReason := 0
      resumeValue := 0
      initialized := true }

/-- `ProcessRuntime::destroy` -/
def destroy (r : ProcessRuntime) (processKey : Ptr) : Except Stop ProcessRuntime :=
  match r.slots processKey with
  | none => .ok r
  | some _ =>
      if r.currentSlot = some processKey then
        .error (.fatal "attempted to destroy running process 0x%08X")
      else .ok (r.setSlot processKey none)

/-- `recomp_process_destroy` -/
def recompProcessDestroy (r : ProcessRuntime) (processKey : Ptr) : Except Stop ProcessRuntime :=
  if processKey = 0 then .ok r else r.destroy processKey

/-- `ProcessRuntime::create` -/
def create (r : ProcessRuntime) (processKey : Ptr) (entryFunc : ProcessFunc) (initialSp : Ptr)
    (endFunc : ProcessFunc) : Except Stop (ProcessRuntime × ProcessSlot) :=
  if processKey = 0 then .error (.fatal "refusing to create a process slot for key 0")
  else
    let slot : ProcessSlot :=
      { state := .created
        processKey := processKey
        entryFunc := entryFunc
        endFunc := endFunc
        initialSp := initialSp
        coro := some { id := r.nextCoroutine, state := .suspended, frames := [] } }
    match r.slots processKey with
    | some _ => .error (.fatal "duplicate process slot for key 0x%08X")
    | none => .ok ({ r.setSlot processKey (some slot) with
        nextCoroutine := r.nextCoroutine + 1 }, slot)

/-- The slot `recomp_process_resume` works on: the one it finds, or a new one. -/
def resumeSlot (r : ProcessRuntime) (processKey : Ptr) (entryFunc : ProcessFunc) (initialSp : Ptr)
    (endFunc : ProcessFunc) : Except Stop (ProcessRuntime × ProcessSlot) :=
  match r.slots processKey with
  | none => r.create processKey entryFunc initialSp endFunc
  | some slot =>
      if slot.state = .dead then .error (.fatal "resume requested for dead process 0x%08X")
      else if slot.entryFunc ≠ entryFunc ∨ slot.endFunc ≠ endFunc ∨ slot.initialSp ≠ initialSp then
        .error (.fatal "resume metadata changed for process 0x%08X")
      else .ok (r, slot)

/-- `recomp_process_resume`, up to the switch made by `mco_resume`. -/
def resumeEnter (r : ProcessRuntime) (processKey : Ptr) (entryFunc : ProcessFunc)
    (initialSp : Ptr) (endFunc : ProcessFunc) : Except Stop ProcessRuntime := do
  if !r.initialized then .error (.fatal "resume before process runtime initialization") else
  if r.currentSlot.isSome then
    .error (.fatal "nested resume while process 0x%08X is running") else
  if processKey = 0 then .error (.fatal "resume requested for process key 0") else
  let (r, slot) ← r.resumeSlot processKey entryFunc initialSp endFunc
  match slot.coro with
  | none => .error (.fatal "process 0x%08X has no coroutine")
  | some coro =>
      if coro.state = .dead then .error (.fatal "resume requested for dead coroutine 0x%08X")
      else if coro.state ≠ .suspended then
        .error (.fatal "mco_resume failed for process 0x%08X: %s")
      else
        .ok { r.setSlot processKey
                (some { slot with coro := some { coro with state := .running } }) with
              currentSlot := some processKey
              currentRdram := true
              resumeValue := 1
              yieldReason := 0
              mcoRunning := some processKey }

/-- What the coroutine that has been switched to does first: `process_coro_entry` up to the call
of the entry function when it is new, the end of `recomp_process_yield` when it had yielded.  The
answer holds the frame the coroutine was suspended in, if any. -/
def coroutineEnter (r : ProcessRuntime) : Except Stop (ProcessRuntime × Option Frame) :=
  match r.currentSlot with
  | none => .error (.fatal "process_coro_entry called without a current slot")
  | some key =>
      match r.slots key with
      | none => .error (.fatal "process_coro_entry called without a current slot")
      | some slot =>
          match slot.coro with
          | none => .error (.fatal "process 0x%08X has no coroutine")
          | some coro =>
              match coro.frames with
              | [] =>
                  if !r.currentRdram then
                    .error (.fatal "process_coro_entry called without RDRAM for process 0x%08X")
                  else
                    .ok (r.setSlot key (some { slot with
                      state := .running
                      coro := some { coro with frames := [.entry slot.entryFunc] } }), none)
              | .terminateProcess _ :: _ =>
                  .error (.fatal "terminated process 0x%08X was resumed")
              | frame :: frames =>
                  .ok (r.setSlot key (some { slot with
                    state := .running
                    coro := some { coro with frames := frames } }), some frame)

/-- `recomp_process_yield`, up to the switch made by `mco_yield`.  The frame is the call that
yields. -/
def recompProcessYield (r : ProcessRuntime) (reason : ℤ) (frame : Frame) :
    Except Stop ProcessRuntime :=
  if !isKnownYieldReason reason then .error (.fatal "invalid yield reason %d")
  else
    match r.currentSlot with
    | none => .error (.fatal "yield called with no current process")
    | some key =>
        let r := r.setSlot key ((r.slots key).map fun slot => { slot with
          state := if reason = yieldTerminate then .dead else .suspended })
        let r := { r with yieldReason := reason }
        match r.mcoRunning with
        | none => .error (.fatal "yield requested without a running coroutine")
        | some running =>
            match (r.slots running).bind ProcessSlot.coro with
            | none => .error (.fatal "mco_yield failed: %s")
            | some coro =>
                if coro.state ≠ .running then .error (.fatal "mco_yield failed: %s")
                else .ok { r.setSlot running ((r.slots running).map fun slot => { slot with
                    coro := some { coro with
                      state := .suspended
                      frames := frame :: coro.frames } }) with
                  mcoRunning := none }

/-- `recomp_process_resume`, from the return of `mco_resume`: the yield reason. -/
def resumeExit (r : ProcessRuntime) : Except Stop (ProcessRuntime × ℤ) :=
  let r := { r with currentSlot := none, currentRdram := false }
  if !isKnownYieldReason r.yieldReason then
    .error (.fatal "process 0x%08X returned invalid yield reason %d")
  else .ok (r, r.yieldReason)

/-- The switch into a coroutine: `recomp_process_resume` up to the code of the process. -/
def switchIn (r : ProcessRuntime) (processKey : Ptr) (entryFunc : ProcessFunc) (initialSp : Ptr)
    (endFunc : ProcessFunc) : Except Stop (ProcessRuntime × Option Frame) := do
  let r ← r.resumeEnter processKey entryFunc initialSp endFunc
  r.coroutineEnter

/-- The switch back: `recomp_process_yield` up to the return of `recomp_process_resume`. -/
def switchOut (r : ProcessRuntime) (reason : ℤ) (frame : Frame) :
    Except Stop (ProcessRuntime × ℤ) := do
  let r ← r.recompProcessYield reason frame
  r.resumeExit

/-! ### The running coroutine -/

/-- The frames of the coroutine that is running. -/
def runningFrames (r : ProcessRuntime) : List Frame :=
  match r.mcoRunning with
  | none => []
  | some key => (((r.slots key).bind ProcessSlot.coro).map Coroutine.frames).getD []

/-- The identity of the coroutine that is running. -/
def runningId (r : ProcessRuntime) : Option ℕ :=
  r.mcoRunning.bind fun key => ((r.slots key).bind ProcessSlot.coro).map Coroutine.id

/-- A call or a return in the running coroutine. -/
def setRunningFrames (r : ProcessRuntime) (frames : List Frame) : ProcessRuntime :=
  match r.mcoRunning with
  | none => r
  | some key => r.setSlot key ((r.slots key).map fun slot => { slot with
      coro := slot.coro.map fun coro => { coro with frames := frames } })

/-! ### The switches, when nothing goes wrong -/

/-- The runtime right behind a switch into the coroutine of `key`. -/
def enter (r : ProcessRuntime) (key : Ptr) (slot : ProcessSlot) : ProcessRuntime :=
  { r.setSlot key (some slot) with
    currentSlot := some key
    currentRdram := true
    resumeValue := 1
    yieldReason := 0
    mcoRunning := some key }

/-- The runtime right behind a switch out of the coroutine of `key`. -/
def leave (r : ProcessRuntime) (key : Ptr) (slot : ProcessSlot) (reason : ℤ) : ProcessRuntime :=
  { r.setSlot key (some slot) with
    currentSlot := none
    currentRdram := false
    yieldReason := reason
    mcoRunning := none }

/-- The runtime behind `reset`. -/
def cleared (r : ProcessRuntime) : ProcessRuntime :=
  { r with
    slots := fun _ => none
    currentSlot := none
    currentRdram := false
    yieldReason := 0
    resumeValue := 0
    initialized := true }

@[simp] theorem slots_enter (r : ProcessRuntime) (key k : Ptr) (slot : ProcessSlot) :
    (r.enter key slot).slots k = if k = key then some slot else r.slots k := rfl

@[simp] theorem slots_leave (r : ProcessRuntime) (key k : Ptr) (slot : ProcessSlot)
    (reason : ℤ) : (r.leave key slot reason).slots k =
      if k = key then some slot else r.slots k := rfl

@[simp] theorem setSlot_setSlot (r : ProcessRuntime) (key : Ptr) (a b : Option ProcessSlot) :
    (r.setSlot key a).setSlot key b = r.setSlot key b := by
  unfold setSlot
  congr 1
  funext k
  by_cases hk : k = key <;> simp [hk]

theorem setSlot_eq_self {r : ProcessRuntime} {key : Ptr} {slot : Option ProcessSlot}
    (h : r.slots key = slot) : r.setSlot key slot = r := by
  unfold setSlot
  congr 1
  funext k
  by_cases hk : k = key <;> simp [hk, h]

@[simp] theorem leave_setSlot (r : ProcessRuntime) (key : Ptr) (a : Option ProcessSlot)
    (slot : ProcessSlot) (reason : ℤ) :
    (r.setSlot key a).leave key slot reason = r.leave key slot reason := by
  unfold leave
  rw [setSlot_setSlot]

section Switches

variable {r : ProcessRuntime} {key : Ptr}

theorem reset_eq (hc : r.currentSlot = none) : r.reset = .ok r.cleared := by
  rw [reset, hc]
  rfl

/-- Destroying a coroutine that is not running leaves no slot. -/
theorem recompProcessDestroy_eq (hk : key ≠ 0) (hc : r.currentSlot = none) :
    r.recompProcessDestroy key = .ok (r.setSlot key none) := by
  rw [recompProcessDestroy, if_neg hk, destroy]
  cases hs : r.slots key with
  | none => rw [setSlot_eq_self hs]
  | some slot => simp [hc]

/-- The slot a process is first resumed in. -/
def startedSlot (r : ProcessRuntime) (key : Ptr) (entryFunc : ProcessFunc) (initialSp : Ptr)
    (endFunc : ProcessFunc) : ProcessSlot :=
  { state := .running
    processKey := key
    entryFunc := entryFunc
    endFunc := endFunc
    initialSp := initialSp
    coro := some { id := r.nextCoroutine, state := .running, frames := [.entry entryFunc] } }

/-- **The first resume** starts the entry function in a new coroutine. -/
theorem switchIn_fresh {entryFunc endFunc : ProcessFunc} {initialSp : Ptr}
    (hi : r.initialized = true) (hc : r.currentSlot = none) (hk : key ≠ 0)
    (hs : r.slots key = none) :
    r.switchIn key entryFunc initialSp endFunc =
      .ok ({ r with nextCoroutine := r.nextCoroutine + 1 }.enter key
        (r.startedSlot key entryFunc initialSp endFunc), none) := by
  simp only [switchIn, resumeEnter, hi, hc, hk, resumeSlot, hs, create, coroutineEnter, bind,
    Except.bind, enter, startedSlot, setSlot, if_true, Bool.not_true, Bool.false_eq_true, if_false,
    Option.isSome_none, reduceCtorEq, ne_eq, not_true]
  congr 2
  congr 1
  funext k
  by_cases h : k = key <;> simp [h]

/-- **A later resume** returns to the frame below the one the coroutine was suspended in. -/
theorem switchIn_suspended {entryFunc endFunc : ProcessFunc} {initialSp : Ptr} {slot : ProcessSlot}
    {coro : Coroutine} {frame : Frame} {frames : List Frame} (hi : r.initialized = true)
    (hc : r.currentSlot = none) (hk : key ≠ 0) (hs : r.slots key = some slot)
    (hd : slot.state ≠ .dead) (he : slot.entryFunc = entryFunc) (hf : slot.endFunc = endFunc)
    (hsp : slot.initialSp = initialSp) (hco : slot.coro = some coro)
    (hst : coro.state = .suspended) (hfr : coro.frames = frame :: frames)
    (hw : ∀ p, frame ≠ .terminateProcess p) :
    r.switchIn key entryFunc initialSp endFunc =
      .ok (r.enter key { slot with
        state := .running
        coro := some { coro with state := .running, frames := frames } }, some frame) := by
  cases frame with
  | terminateProcess p => exact absurd rfl (hw p)
  | _ =>
      simp only [switchIn, resumeEnter, hi, hc, hk, resumeSlot, hs, hd, he, hf, hsp, hco, hst, hfr,
        coroutineEnter, bind, Except.bind, enter, setSlot, if_true, Bool.not_true,
        Bool.false_eq_true, if_false, Option.isSome_none, reduceCtorEq, ne_eq,
        not_true, or_self]
      congr 2
      congr 1
      funext k
      by_cases h : k = key <;> simp [h]

/-- **A yield** of the running coroutine suspends it in the frame that yields. -/
theorem switchOut_running {reason : ℤ} {frame : Frame} {slot : ProcessSlot} {coro : Coroutine}
    (hc : r.currentSlot = some key) (hm : r.mcoRunning = some key) (hs : r.slots key = some slot)
    (hco : slot.coro = some coro) (hst : coro.state = .running)
    (hr : isKnownYieldReason reason = true) :
    r.switchOut reason frame =
      .ok (r.leave key { slot with
        state := if reason = yieldTerminate then .dead else .suspended
        coro := some { coro with state := .suspended, frames := frame :: coro.frames } } reason,
        reason) := by
  simp only [switchOut, recompProcessYield, hr, hc, hm, hs, hco, hst, setSlot, Option.map_some,
    if_true, Option.bind_some, bind, Except.bind, resumeExit, leave, Bool.not_true,
    Bool.false_eq_true, if_false, ne_eq, not_true]
  congr 2
  congr 1
  funext k
  by_cases h : k = key <;> simp [h]

end Switches

end ProcessRuntime

end Sched
