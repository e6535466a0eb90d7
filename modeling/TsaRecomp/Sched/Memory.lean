/-
**The memory of the process scheduler.**

The scheduler of `patches/src/process.c` keeps every process in a `Process` record at the start of
the process's own heap, and links the records by raw pointers: a run list ordered by priority, and
a child list per parent.  This module models that memory: a record for every address, the four
globals, and two pieces of bookkeeping that the program does not store but that its correctness is
about, namely which records are allocated and which processes are created and not terminated.

A record is readable and writable whether or not it is allocated, as the machine has it.  A link
followed to a record whose heap has been freed is remembered in `Memory.staleAccess`.

Main definitions:

* `Sched.Process`, `Sched.ExecMode`, `Sched.ProcessFunc` — the record and its parts;
* `Sched.Memory` — the records, the globals and the bookkeeping;
* `Sched.Memory.modify` and the field setters, `Sched.Memory.follow`;
* `Sched.Stop` — how a call fails to return: an `errstop`, a fatal error of the host, a loop
  that does not end, a call that is not available.
-/

import Mathlib.Data.List.Basic
import Mathlib.Tactic

set_option relaxedAutoImplicit false
set_option autoImplicit false

namespace Sched

/-! ### Records -/

/-- A MIPS address.  `NULL` is zero. -/
abbrev Ptr := ℕ

/-- The `EXEC_PROCESS_*` values of `exec_mode`. -/
inductive ExecMode
  | default
  | sleeping
  | watch
  | dead
  /-- `EXEC_PROCESS_UNK4`, a paused process. -/
  | unk4
  deriving DecidableEq, Repr

/-- A code address.  Only `EndProcess` is told apart from the functions of the game. -/
inductive ProcessFunc
  | endProcess
  | game (vram : ℕ)
  deriving DecidableEq, Repr

/-- `struct Process`, with the two words of its heap that `validate_process_state` reads.  The
fields that only error texts print (`stat`, `func`) and the saved registers are left out. -/
structure Process where
  next : Ptr
  youngestChild : Ptr
  oldestChild : Ptr
  relative : Ptr
  parentOldestChild : Ptr
  newProcess : Ptr
  heap : Ptr
  execMode : ExecMode
  priority : ℕ
  sleepTime : ℤ
  baseSp : Ptr
  /-- `prc_jump.sp` -/
  prcJumpSp : Ptr
  /-- `prc_jump.func` -/
  prcJumpFunc : ProcessFunc
  /-- `NULL` is `none`. -/
  destructor : Option ProcessFunc
  /-- `((u32*)base_sp)[0]` -/
  stackGuard : ℕ
  /-- `((u8*)heap)[4]` -/
  heapGuard : ℕ
  deriving DecidableEq, Repr

/-- The contents of memory nothing has been stored in. -/
def Process.zero : Process where
  next := 0
  youngestChild := 0
  oldestChild := 0
  relative := 0
  parentOldestChild := 0
  newProcess := 0
  heap := 0
  execMode := .default
  priority := 0
  sleepTime := 0
  baseSp := 0
  prcJumpSp := 0
  prcJumpFunc := .game 0
  destructor := none
  stackGuard := 0
  heapGuard := 0

/-! ### The scheduler's memory -/

/-- The records, the globals of `process.c`, and the bookkeeping. -/
structure Memory where
  /-- The record at an address. -/
  record : Ptr → Process
  topProcess : Ptr
  currentProcess : Ptr
  /-- A `u16`. -/
  processCount : ℕ
  /-- `g_pending_heap_free` -/
  pendingHeapFree : Ptr
  /-- The processes created since `InitProcess` and not terminated, in the order of creation. -/
  procs : List Ptr
  /-- The processes whose heap is allocated. -/
  live : List Ptr
  /-- A link has been followed to a process whose heap has been freed. -/
  staleAccess : Bool

namespace Memory

/-- Rewriting the record at `p`. -/
def modify (m : Memory) (p : Ptr) (f : Process → Process) : Memory :=
  { m with record := fun q => if q = p then f (m.record q) else m.record q }

/-- Following a link of a record to `p`. -/
def follow (m : Memory) (p : Ptr) : Memory :=
  { m with staleAccess := m.staleAccess || !decide (p ∈ m.live) }

def setNext (m : Memory) (p v : Ptr) : Memory := m.modify p fun r => { r with next := v }

def setYoungestChild (m : Memory) (p v : Ptr) : Memory :=
  m.modify p fun r => { r with youngestChild := v }

def setOldestChild (m : Memory) (p v : Ptr) : Memory :=
  m.modify p fun r => { r with oldestChild := v }

def setRelative (m : Memory) (p v : Ptr) : Memory := m.modify p fun r => { r with relative := v }

def setParentOldestChild (m : Memory) (p v : Ptr) : Memory :=
  m.modify p fun r => { r with parentOldestChild := v }

def setNewProcess (m : Memory) (p v : Ptr) : Memory :=
  m.modify p fun r => { r with newProcess := v }

def setExecMode (m : Memory) (p : Ptr) (v : ExecMode) : Memory :=
  m.modify p fun r => { r with execMode := v }

def setSleepTime (m : Memory) (p : Ptr) (v : ℤ) : Memory :=
  m.modify p fun r => { r with sleepTime := v }

def setPrcJumpFunc (m : Memory) (p : Ptr) (v : ProcessFunc) : Memory :=
  m.modify p fun r => { r with prcJumpFunc := v }

def setDestructor (m : Memory) (p : Ptr) (v : Option ProcessFunc) : Memory :=
  m.modify p fun r => { r with destructor := v }

/-! ### Reading a record back -/

attribute [simp] setNext setYoungestChild setOldestChild setRelative setParentOldestChild
  setNewProcess setExecMode setSleepTime setPrcJumpFunc setDestructor

section Globals

variable (m : Memory) (p q : Ptr) (f : Process → Process)

@[simp] theorem record_modify :
    (m.modify p f).record q = if q = p then f (m.record q) else m.record q := rfl

@[simp] theorem topProcess_modify : (m.modify p f).topProcess = m.topProcess := rfl
@[simp] theorem currentProcess_modify : (m.modify p f).currentProcess = m.currentProcess := rfl
@[simp] theorem processCount_modify : (m.modify p f).processCount = m.processCount := rfl
@[simp] theorem pendingHeapFree_modify : (m.modify p f).pendingHeapFree = m.pendingHeapFree := rfl
@[simp] theorem procs_modify : (m.modify p f).procs = m.procs := rfl
@[simp] theorem live_modify : (m.modify p f).live = m.live := rfl
@[simp] theorem staleAccess_modify : (m.modify p f).staleAccess = m.staleAccess := rfl

@[simp] theorem record_follow : (m.follow p).record = m.record := rfl
@[simp] theorem topProcess_follow : (m.follow p).topProcess = m.topProcess := rfl
@[simp] theorem currentProcess_follow : (m.follow p).currentProcess = m.currentProcess := rfl
@[simp] theorem processCount_follow : (m.follow p).processCount = m.processCount := rfl
@[simp] theorem pendingHeapFree_follow : (m.follow p).pendingHeapFree = m.pendingHeapFree := rfl
@[simp] theorem procs_follow : (m.follow p).procs = m.procs := rfl
@[simp] theorem live_follow : (m.follow p).live = m.live := rfl

end Globals

/-- Following a link to an allocated record leaves no trace. -/
@[simp] theorem staleAccess_follow (m : Memory) (p : Ptr) :
    (m.follow p).staleAccess = (m.staleAccess || !decide (p ∈ m.live)) := rfl

end Memory

/-! The fields of a conditional record. -/

section Fields

variable (c : Prop) [Decidable c] (a b : Process)

@[simp] theorem Process.next_ite : (if c then a else b).next = if c then a.next else b.next :=
  apply_ite Process.next c a b
@[simp] theorem Process.youngestChild_ite :
    (if c then a else b).youngestChild = if c then a.youngestChild else b.youngestChild :=
  apply_ite Process.youngestChild c a b
@[simp] theorem Process.oldestChild_ite :
    (if c then a else b).oldestChild = if c then a.oldestChild else b.oldestChild :=
  apply_ite Process.oldestChild c a b
@[simp] theorem Process.relative_ite :
    (if c then a else b).relative = if c then a.relative else b.relative :=
  apply_ite Process.relative c a b
@[simp] theorem Process.parentOldestChild_ite : (if c then a else b).parentOldestChild =
    if c then a.parentOldestChild else b.parentOldestChild :=
  apply_ite Process.parentOldestChild c a b
@[simp] theorem Process.newProcess_ite :
    (if c then a else b).newProcess = if c then a.newProcess else b.newProcess :=
  apply_ite Process.newProcess c a b
@[simp] theorem Process.heap_ite : (if c then a else b).heap = if c then a.heap else b.heap :=
  apply_ite Process.heap c a b
@[simp] theorem Process.execMode_ite :
    (if c then a else b).execMode = if c then a.execMode else b.execMode :=
  apply_ite Process.execMode c a b
@[simp] theorem Process.priority_ite :
    (if c then a else b).priority = if c then a.priority else b.priority :=
  apply_ite Process.priority c a b
@[simp] theorem Process.sleepTime_ite :
    (if c then a else b).sleepTime = if c then a.sleepTime else b.sleepTime :=
  apply_ite Process.sleepTime c a b
@[simp] theorem Process.prcJumpSp_ite :
    (if c then a else b).prcJumpSp = if c then a.prcJumpSp else b.prcJumpSp :=
  apply_ite Process.prcJumpSp c a b
@[simp] theorem Process.prcJumpFunc_ite :
    (if c then a else b).prcJumpFunc = if c then a.prcJumpFunc else b.prcJumpFunc :=
  apply_ite Process.prcJumpFunc c a b
@[simp] theorem Process.destructor_ite :
    (if c then a else b).destructor = if c then a.destructor else b.destructor :=
  apply_ite Process.destructor c a b

end Fields

/-! ### Calls that do not return -/

/-- How a call fails to return a state. -/
inductive Stop
  /-- A loop or a recursion has not ended within the given number of rounds. -/
  | diverges
  /-- `errstop`, with the format text of the call. -/
  | errstop (format : String)
  /-- `process_fatal` of the host, with the format text of the call. -/
  | fatal (format : String)
  /-- The action is not available in this state: not an outcome of the program. -/
  | disabled
  deriving DecidableEq, Repr

end Sched
