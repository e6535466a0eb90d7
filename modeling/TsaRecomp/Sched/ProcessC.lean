/-
**The functions of `process.c` that act on the process records.**

Each definition is the function of `patches/src/process.c` of the same name, as a transformation
of `Sched.Memory`; the functions that switch coroutines are in `TsaRecomp.Sched.System`.  Every
loop and recursion takes the number of rounds it may use and stops with `Stop.diverges` when they
run out, since on damaged links the loops of the source do not end.

The memory allocator is not part of the repository: a call that allocates takes the block the
allocator answers with as an argument (`Sched.Block`).

Main definitions:

* `Sched.linkProcessExport`, `Sched.unlinkProcessExport` — the run list;
* `Sched.createProcess`, `Sched.createChildProcess`;
* `Sched.linkChildProcess`, `Sched.unlinkChildProcess`, `Sched.killChildProcess` — the child lists;
* `Sched.killProcess`, `Sched.killPrioProcess`, `Sched.sleepProcessP`, `Sched.sleepPrioProcess`,
  `Sched.wakeupProcess`, `Sched.wakeupPrioProcess` — the modes;
* `Sched.Api`, `Sched.Api.run` — the calls that return without switching coroutines.
-/

import TsaRecomp.Sched.Memory

set_option relaxedAutoImplicit false
set_option autoImplicit false

namespace Sched

/-! ### Integers and guards -/

/-- The value of an `s32`. -/
def s32 (x : ℤ) : ℤ := Int.bmod x (2 ^ 32)

/-- The value of a `u16`. -/
def u16 (n : ℕ) : ℕ := n % 2 ^ 16

/-- Decrementing a `u16`. -/
def u16Dec (n : ℕ) : ℕ := if n = 0 then 2 ^ 16 - 1 else n - 1

/-- The value of a `u32`. -/
def u32 (n : ℕ) : ℕ := n % 2 ^ 32

/-- The word `CreateProcess` puts at the bottom of a stack. -/
def stackMagic : ℕ := 0xDBDB7272

/-- The byte `InitMemory` puts into a heap header. -/
def heapMagic : ℕ := 0xA5

/-- `validate_process_state`: the two `errstop`s, or a return. -/
def validateProcessState (m : Memory) (process : Ptr) : Except Stop Unit :=
  let r := m.record process
  if r.heap &&& 0x80000000 = 0 ∨ r.baseSp &&& 0x80000000 = 0 ∨
      (process + 0x34) &&& 0x80000000 = 0 then
    .error (.errstop "Process : Structure broken : P 0x%08x F 0x%08x ST 0x%08x HP 0x%08x JP 0x%08x\n")
  else if r.prcJumpSp ≤ r.baseSp ∨ r.stackGuard ≠ stackMagic ∨ r.heapGuard ≠ heapMagic then
    .error (.errstop "Process : Heap or stack broken : P 0x%08x F 0x%08x ST 0x%08x SP 0x%08x HP 0x%08x SMG 0x%08x HMG 0x%02x\n")
  else .ok ()

/-! ### The run list -/

/-- The `while` loop of `LinkProcess_Export`. -/
def linkWalk (m : Memory) (process : Ptr) : ℕ → Ptr → Except Stop Ptr
  | 0, _ => .error .diverges
  | fuel + 1, srcProcess =>
      if (m.record srcProcess).next ≠ 0 ∧
          (m.record process).priority ≤ (m.record (m.record srcProcess).next).priority then
        linkWalk m process fuel (m.record srcProcess).next
      else .ok srcProcess

/-- `LinkProcess_Export`, the insertion behind `srcProcess`. -/
def linkBehind (m : Memory) (process srcProcess : Ptr) : Memory :=
  let m := m.setNext process (m.record srcProcess).next
  let m := m.setYoungestChild process srcProcess
  let m := m.setNext srcProcess process
  if (m.record process).next ≠ 0 then m.setYoungestChild (m.record process).next process else m

/-- `LinkProcess_Export`, the insertion in front of the list. -/
def linkFirst (m : Memory) (process srcProcess : Ptr) : Memory :=
  let m := m.setNext process m.topProcess
  let m := m.setYoungestChild process 0
  let m := { m with topProcess := process }
  if srcProcess ≠ 0 then m.setYoungestChild srcProcess process else m

/-- `LinkProcess_Export(&top_process, process)`. -/
def linkProcessExport (fuel : ℕ) (m : Memory) (process : Ptr) : Except Stop Memory :=
  let srcProcess := m.topProcess
  if srcProcess ≠ 0 ∧ (m.record process).priority ≤ (m.record srcProcess).priority then do
    -- behind the processes of its own priority
    let srcProcess ← linkWalk m process fuel srcProcess
    .ok (((linkBehind m process srcProcess).setOldestChild process 0).setRelative process 0)
  else .ok (((linkFirst m process srcProcess).setOldestChild process 0).setRelative process 0)

/-- `UnlinkProcess_Export` -/
def unlinkProcessExport (m : Memory) (process : Ptr) : Memory :=
  let m :=
    if (m.record process).next ≠ 0 then
      m.setYoungestChild (m.record process).next (m.record process).youngestChild
    else m
  if (m.record process).youngestChild ≠ 0 then
    m.setNext (m.record process).youngestChild (m.record process).next
  else { m with topProcess := (m.record process).next }

/-- `InitProcess`, but for the call to the host.  Every process made so far is forgotten. -/
def initProcess (m : Memory) : Memory :=
  { m with
    pendingHeapFree := 0
    processCount := 0
    topProcess := 0
    currentProcess := 0
    procs := [] }

/-- What the allocator answers to `CreateProcess`: the heap, and the record and the stack that
`AllocMemory` finds in it. -/
structure Block where
  heap : Ptr
  process : Ptr
  baseSp : Ptr
  deriving DecidableEq, Repr

/-- The stack size `CreateProcess` uses. -/
def processStackSize (stackSize : ℕ) : ℕ :=
  if stackSize = 0 then 0x1000 else if stackSize < 0x2000 then 0x2000 else stackSize

/-- The writes of `CreateProcess` into the new record.  It leaves the links to the siblings as it
finds them. -/
def initRecord (b : Block) (func : ProcessFunc) (priority stackSize : ℕ) (r : Process) : Process :=
  { r with
    heap := b.heap
    execMode := .default
    priority := priority
    sleepTime := 0
    baseSp := b.baseSp
    stackGuard := stackMagic
    heapGuard := heapMagic
    prcJumpFunc := func
    prcJumpSp := u32 (b.baseSp + processStackSize stackSize - 8)
    destructor := none }

/-- `CreateProcess`.  The result of the call is `b.process`. -/
def createProcess (fuel : ℕ) (m : Memory) (b : Block) (func : ProcessFunc)
    (priority stackSize : ℕ) : Except Stop Memory := do
  if b.heap = 0 then .error (.errstop "process : create malloc error\n") else
  let m := m.modify b.process (initRecord b func priority stackSize)
  let m ← linkProcessExport fuel m b.process
  let m := m.setOldestChild b.process 0
  let m := m.setRelative b.process 0
  .ok { m with
    processCount := u16 (m.processCount + 1)
    procs := m.procs ++ [b.process]
    live := b.process :: m.live }

/-! ### Modes -/

/-- `WakeupProcess` -/
def wakeupProcess (m : Memory) (process : Ptr) : Memory :=
  if (m.record process).execMode = .sleeping then m.setSleepTime process 0
  else if (m.record process).execMode = .unk4 then
    -- a process that was paused in its sleep sleeps on
    if (m.record process).sleepTime ≠ 0 then m.setExecMode process .sleeping
    else m.setExecMode process .default
  else m

/-- `SetKillStatusProcess_Export` -/
def setKillStatusProcessExport (m : Memory) (process : Ptr) : Memory × ℤ :=
  if (m.record process).execMode ≠ .dead then
    ((wakeupProcess m process).setExecMode process .dead, 0)
  else (m, -1)

/-- `SleepProcessP` -/
def sleepProcessP (m : Memory) (process : Ptr) (time : ℤ) : Memory :=
  if time ≠ 0 ∧ (m.record process).execMode ≠ .dead then
    -- a pause: `sleep_time` is left as it is
    if time = -1 then m.setExecMode process .unk4
    else (m.setExecMode process .sleeping).setSleepTime process time
  else m

/-- A loop over the run list: `for (process = top_process; process; process = process->next)`. -/
def forEachProcess (body : Memory → Ptr → Except Stop Memory) :
    ℕ → Memory → Ptr → Except Stop Memory
  | 0, _, _ => .error .diverges
  | fuel + 1, m, process =>
      if process = 0 then .ok m
      else do
        let m ← body m process
        forEachProcess body fuel m (m.record process).next

/-- The test of the loops that act on a range of priorities. -/
def inPriority (m : Memory) (lo hi : ℕ) (process : Ptr) : Prop :=
  lo ≤ (m.record process).priority ∧ (m.record process).priority ≤ hi

instance (m : Memory) (lo hi : ℕ) (process : Ptr) : Decidable (inPriority m lo hi process) :=
  inferInstanceAs (Decidable (_ ∧ _))

/-- `SleepPrioProcess`: the body of its loop is that of `SleepProcessP`. -/
def sleepPrioProcess (fuel : ℕ) (m : Memory) (priorityMin priorityMax : ℕ) (time : ℤ) :
    Except Stop Memory :=
  forEachProcess (fun m process =>
    if inPriority m priorityMin priorityMax process then .ok (sleepProcessP m process time)
    else .ok m) fuel m m.topProcess

/-- `WakeupPrioProcess` -/
def wakeupPrioProcess (fuel : ℕ) (m : Memory) (priorityMin priorityMax : ℕ) :
    Except Stop Memory :=
  forEachProcess (fun m process =>
    if inPriority m priorityMin priorityMax process then .ok (wakeupProcess m process)
    else .ok m) fuel m m.topProcess

/-! ### Child lists -/

/-- `UnlinkChildProcess`, the first test: the older sibling is given the newer one. -/
def unlinkOlder (m : Memory) (process : Ptr) : Memory :=
  if (m.record process).parentOldestChild ≠ 0 then
    (m.follow (m.record process).parentOldestChild).setNewProcess
      (m.record process).parentOldestChild (m.record process).newProcess
  else m

/-- `UnlinkChildProcess`, the second test: the newer sibling, or the parent, is given the older
one. -/
def unlinkNewer (m : Memory) (process : Ptr) : Memory :=
  if (m.record process).newProcess ≠ 0 then
    (m.follow (m.record process).newProcess).setParentOldestChild
      (m.record process).newProcess (m.record process).parentOldestChild
  else
    -- `process` is the newest child
    (m.follow (m.record process).relative).setOldestChild
      (m.record process).relative (m.record process).parentOldestChild

/-- `UnlinkChildProcess` -/
def unlinkChildProcess (m : Memory) (process : Ptr) : Memory :=
  if (m.record process).relative ≠ 0 then
    (unlinkNewer (unlinkOlder m process) process).setRelative process 0
  else m

/-- `LinkChildProcess`, the test: the newest child of `root` is given a newer sibling. -/
def linkHead (m : Memory) (root child : Ptr) : Memory :=
  if (m.record root).oldestChild ≠ 0 then
    (m.follow (m.record root).oldestChild).setNewProcess (m.record root).oldestChild child
  else m

/-- `LinkChildProcess` -/
def linkChildProcess (m : Memory) (root child : Ptr) : Memory :=
  let m := linkHead (unlinkChildProcess m child) root child
  let m := m.setParentOldestChild child (m.record root).oldestChild
  let m := m.setNewProcess child 0
  let m := m.setOldestChild root child
  m.setRelative child root

mutual

/-- `KillChildProcess` -/
def killChildProcess : ℕ → Memory → Ptr → Except Stop Memory
  | 0, _, _ => .error .diverges
  | fuel + 1, m, process => do
      let m ← killChildLoop fuel m (m.record process).oldestChild
      .ok (m.setOldestChild process 0)

/-- The `for` loop of `KillChildProcess`, from the child it has reached. -/
def killChildLoop : ℕ → Memory → Ptr → Except Stop Memory
  | 0, _, _ => .error .diverges
  | fuel + 1, m, childProcess =>
      if childProcess = 0 then .ok m
      else do
        let m := m.follow childProcess
        -- the family of the child first
        let m ← (if (m.record childProcess).oldestChild ≠ 0 then
            killChildProcess fuel m childProcess
          else .ok m)
        let m := (setKillStatusProcessExport m childProcess).1
        killChildLoop fuel m (m.record childProcess).parentOldestChild

end

/-- `KillProcess` -/
def killProcess (fuel : ℕ) (m : Memory) (process : Ptr) : Except Stop Memory := do
  let m ← killChildProcess fuel m process
  let m := unlinkChildProcess m process
  .ok (setKillStatusProcessExport m process).1

/-- `KillPrioProcess`: the body of its loop is that of `KillProcess`. -/
def killPrioProcess (fuel : ℕ) (m : Memory) (arg0 arg1 : ℕ) : Except Stop Memory :=
  forEachProcess (fun m process =>
    if inPriority m arg0 arg1 process then killProcess fuel m process else .ok m)
    fuel m m.topProcess

/-- `CreateChildProcess` -/
def createChildProcess (fuel : ℕ) (m : Memory) (b : Block) (func : ProcessFunc)
    (priority stackSize : ℕ) (root : Ptr) : Except Stop Memory := do
  let m ← createProcess fuel m b func priority stackSize
  .ok (linkChildProcess m root b.process)

/-! ### Calls -/

/-- The calls that return to their caller without switching coroutines. -/
inductive Api
  | createProcess (b : Block) (func : ProcessFunc) (priority stackSize : ℕ)
  | createChildProcess (b : Block) (func : ProcessFunc) (priority stackSize : ℕ) (root : Ptr)
  | linkChildProcess (root child : Ptr)
  | unlinkChildProcess (process : Ptr)
  | killChildProcess (process : Ptr)
  | killProcess (process : Ptr)
  | killPrioProcess (arg0 arg1 : ℕ)
  | sleepProcessP (process : Ptr) (time : ℤ)
  | sleepPrioProcess (priorityMin priorityMax : ℕ) (time : ℤ)
  | wakeupProcess (process : Ptr)
  | wakeupPrioProcess (priorityMin priorityMax : ℕ)
  deriving DecidableEq, Repr

/-- The effect of a call. -/
def Api.run (fuel : ℕ) (m : Memory) : Api → Except Stop Memory
  | .createProcess b func priority stackSize => Sched.createProcess fuel m b func priority stackSize
  | .createChildProcess b func priority stackSize root =>
      Sched.createChildProcess fuel m b func priority stackSize root
  | .linkChildProcess root child => .ok (Sched.linkChildProcess m root child)
  | .unlinkChildProcess process => .ok (Sched.unlinkChildProcess m process)
  | .killChildProcess process => Sched.killChildProcess fuel m process
  | .killProcess process => Sched.killProcess fuel m process
  | .killPrioProcess arg0 arg1 => Sched.killPrioProcess fuel m arg0 arg1
  | .sleepProcessP process time => .ok (Sched.sleepProcessP m process time)
  | .sleepPrioProcess priorityMin priorityMax time =>
      Sched.sleepPrioProcess fuel m priorityMin priorityMax time
  | .wakeupProcess process => .ok (Sched.wakeupProcess m process)
  | .wakeupPrioProcess priorityMin priorityMax =>
      Sched.wakeupPrioProcess fuel m priorityMin priorityMax

/-- A block the allocator may answer with: disjoint from everything allocated.  A null heap is an
answer too, the one for want of memory. -/
def Block.fresh (b : Block) (m : Memory) : Prop :=
  b.process ≠ 0 ∧ b.process ∉ m.live ∧ ∀ q ∈ m.live, (m.record q).heap ≠ b.heap

instance (b : Block) (m : Memory) : Decidable (b.fresh m) :=
  inferInstanceAs (Decidable (_ ∧ _ ∧ _))

/-- A call may be made with pointers to allocated processes only, and the allocator answers with
fresh blocks. -/
def Api.valid (m : Memory) : Api → Prop
  | .createProcess b _ _ _ => b.fresh m
  | .createChildProcess b _ _ _ root => b.fresh m ∧ root ∈ m.live
  | .linkChildProcess root child => root ∈ m.live ∧ child ∈ m.live
  | .unlinkChildProcess process => process ∈ m.live
  | .killChildProcess process => process ∈ m.live
  | .killProcess process => process ∈ m.live
  | .killPrioProcess _ _ => True
  | .sleepProcessP process _ => process ∈ m.live
  | .sleepPrioProcess _ _ _ => True
  | .wakeupProcess process => process ∈ m.live
  | .wakeupPrioProcess _ _ => True

instance (m : Memory) : (a : Api) → Decidable (a.valid m)
  | .createProcess b _ _ _ => inferInstanceAs (Decidable (b.fresh m))
  | .createChildProcess b _ _ _ root => inferInstanceAs (Decidable (b.fresh m ∧ root ∈ m.live))
  | .linkChildProcess root child => inferInstanceAs (Decidable (root ∈ m.live ∧ child ∈ m.live))
  | .unlinkChildProcess process => inferInstanceAs (Decidable (process ∈ m.live))
  | .killChildProcess process => inferInstanceAs (Decidable (process ∈ m.live))
  | .killProcess process => inferInstanceAs (Decidable (process ∈ m.live))
  | .killPrioProcess _ _ => inferInstanceAs (Decidable True)
  | .sleepProcessP process _ => inferInstanceAs (Decidable (process ∈ m.live))
  | .sleepPrioProcess _ _ _ => inferInstanceAs (Decidable True)
  | .wakeupProcess process => inferInstanceAs (Decidable (process ∈ m.live))
  | .wakeupPrioProcess _ _ => inferInstanceAs (Decidable True)

end Sched
