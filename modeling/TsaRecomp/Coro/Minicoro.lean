/-
**The coroutine library.**

`src/game/minicoro.h` switches between coroutines of one thread.  A coroutine keeps the one that
resumed it in `prev_co`, and the thread the one that runs in `mco_current_co`.  The switches
themselves save the code that executes in one context and go on with the code in another: a
coroutine has a context for its own code and one for the code that resumed it.  What executes is
part of the state here, apart from what the library believes to run.

The functions fault where an assertion fails, where a pointer leads to a coroutine that is not
allocated, and where a context has never been saved.  The allocator answers with the place of a new
coroutine; the addresses of local variables are arguments.  Sizes are those of a 64-bit host.

A coroutine is kept here as its parts, which share one block in the source.  `mco_create` does not
check that they fit the block: with a `storage_size` that is raised behind `mco_desc_init` they do
not, and then a push writes outside of it.  So a description is to be used where its parts have a
`Layout`.

Main definitions:

* `Coro.State`, `Coro.Result`, `Coro.Coroutine`, `Coro.Desc` — the data of the library;
* `Coro.Machine` — the coroutines of a thread, and what executes;
* `Coro.Layout` — the block of a coroutine;
* `Coro.Machine.mcoCreate`, `.mcoDestroy`, `.mcoResume`, `.mcoYield`, `.mcoMain` and the others —
  its functions.

Main results:

* `Coro.layout_mcoDescInit`, `Coro.validateDesc_mcoDescInit` — **every description fits its block**,
  and passes the check of the library.
-/

import TsaRecomp.Lib.BigEndian

set_option relaxedAutoImplicit false
set_option autoImplicit false

namespace Coro

/-! ### States and results -/

/-- `mco_state` -/
inductive State
  | dead
  | normal
  | running
  | suspended
  deriving DecidableEq, Repr

/-- `mco_result` -/
inductive Result
  | success
  | genericError
  | invalidPointer
  | invalidCoroutine
  | notSuspended
  | notRunning
  | makeContextError
  | switchContextError
  | notEnoughSpace
  | outOfMemory
  | invalidArguments
  | invalidOperation
  | stackOverflow
  deriving DecidableEq, Repr

/-- `size_t` -/
abbrev Size := BitVec 64

abbrev Byte := BitVec 8

/-- The address of a coroutine. -/
abbrev Addr := Size

/-- The code of a coroutine, or the code outside of all of them. -/
abbrev Code := Option Addr

/-- `mco_coro`, with the two contexts of `_mco_context`. -/
structure Coroutine where
  state : State
  prevCo : Option Addr
  /-- The code in `context->ctx`. -/
  ctx : Code
  /-- The code in `context->back_ctx`, once it has been saved. -/
  backCtx : Option Code
  func : Option Addr
  userData : Size
  coroSize : Size
  /-- `dealloc_cb` is not null. -/
  deallocCb : Bool
  stackBase : Addr
  stackSize : Size
  storage : ℕ → Byte
  bytesStored : Size
  storageSize : Size
  magicNumber : Size

/-- `mco_desc`; of the callbacks it only counts whether they are set. -/
structure Desc where
  func : Option Addr
  userData : Size
  allocCb : Bool
  deallocCb : Bool
  storageSize : Size
  coroSize : Size
  stackSize : Size
  deriving DecidableEq, Repr

/-- Why a function cannot go on. -/
inductive Fault
  | assertionFailed
  | dangling
  | noContext
  deriving DecidableEq, Repr

/-! ### Descriptions -/

def magicNumber : Size := 0x7E3CB1A9
def minStackSize : Size := 32768
def defaultStackSize : Size := 56 * 1024
def defaultStorageSize : Size := 1024

/-- `sizeof(mco_coro)` -/
def sizeofCoro : Size := 136

/-- `sizeof(_mco_context)` -/
def sizeofContext : Size := 128

/-- `_mco_align_forward` -/
def alignForward (addr align : Size) : Size := (addr + (align - 1)) &&& ~~~(align - 1)

/-- `_mco_init_desc_sizes` -/
def initDescSizes (desc : Desc) (stackSize : Size) : Desc :=
  { desc with
    coroSize := alignForward sizeofCoro 16 + alignForward sizeofContext 16 +
      alignForward desc.storageSize 16 + stackSize + 16
    stackSize := stackSize }

/-- `mco_desc_init` -/
def mcoDescInit (func : Option Addr) (stackSize : Size) : Desc :=
  let stackSize :=
    if stackSize ≠ 0 then (if stackSize < minStackSize then minStackSize else stackSize)
    else defaultStackSize
  let stackSize := alignForward stackSize 16
  initDescSizes
    { func := func
      userData := 0
      allocCb := true
      deallocCb := true
      storageSize := defaultStorageSize
      coroSize := 0
      stackSize := 0 } stackSize

/-- `_mco_validate_desc` -/
def validateDesc (desc : Desc) : Result :=
  if desc.func = none then .invalidArguments
  else if desc.stackSize < minStackSize then .invalidArguments
  else if desc.coroSize < sizeofCoro then .invalidArguments
  else .success

/-- The address of the context in the block of a coroutine. -/
def contextAddr (co : Addr) : Addr := alignForward (co + sizeofCoro) 16

def storageAddr (co : Addr) : Addr := alignForward (contextAddr co + sizeofContext) 16

def stackAddr (co : Addr) (desc : Desc) : Addr :=
  alignForward (storageAddr co + desc.storageSize) 16

/-! ### The block of a coroutine -/

/-- To align an address is to round it up. -/
theorem toNat_alignForward (addr : Size) (h : addr.toNat + 15 < 2 ^ 64) :
    (alignForward addr 16).toNat = (addr.toNat + 15) / 16 * 16 := by
  have hsum : (addr + (16 - 1)).toNat = addr.toNat + 15 := by
    rw [BitVec.toNat_add]
    exact Nat.mod_eq_of_lt h
  have hmask : ((addr + (16 - 1)) &&& (16 - 1)).toNat = (addr.toNat + 15) % 16 := by
    rw [BitVec.toNat_and, hsum]
    exact Nat.and_two_pow_sub_one_eq_mod _ 4
  have hle : (addr + (16 - 1)) &&& (16 - 1) ≤ addr + (16 - 1) := by
    rw [BitVec.le_def, hmask, hsum]
    exact Nat.mod_le _ _
  rw [alignForward, BigEndian.and_not, BitVec.toNat_sub_of_le hle, hmask, hsum]
  omega

/-- **The parts of a coroutine** lie in its block, one behind the other: the structure itself, the
context, the storage and the stack. -/
structure Layout (co : Addr) (desc : Desc) : Prop where
  context : co.toNat + sizeofCoro.toNat ≤ (contextAddr co).toNat
  storage : (contextAddr co).toNat + sizeofContext.toNat ≤ (storageAddr co).toNat
  stack : (storageAddr co).toNat + desc.storageSize.toNat ≤ (stackAddr co desc).toNat
  fits : (stackAddr co desc).toNat + desc.stackSize.toNat ≤ co.toNat + desc.coroSize.toNat
  aligned : (stackAddr co desc).toNat % 16 = 0
  enough : minStackSize ≤ desc.stackSize

/-- The size of the stack that a description asks for. -/
theorem toNat_stackSize (func : Option Addr) {stackSize : Size} (hs : stackSize.toNat < 2 ^ 62) :
    (mcoDescInit func stackSize).stackSize.toNat = (
      if stackSize = 0 then 57344
      else if stackSize.toNat < 32768 then 32768
      else (stackSize.toNat + 15) / 16 * 16) := by
  unfold mcoDescInit initDescSizes
  dsimp only
  by_cases h0 : stackSize = 0
  · rw [if_neg (by simpa using h0), if_pos h0]
    rfl
  · rw [if_pos h0, if_neg h0]
    by_cases hlt : stackSize < minStackSize
    · have hlt' : stackSize.toNat < 32768 := BitVec.lt_def.1 hlt
      rw [if_pos hlt, if_pos hlt']
      rfl
    · have hlt' : ¬ stackSize.toNat < 32768 := fun hc => hlt (BitVec.lt_def.2 hc)
      rw [if_neg hlt, if_neg hlt']
      exact toNat_alignForward _ (by omega)

/-- The sizes that a description asks for. -/
theorem sizes_mcoDescInit (func : Option Addr) {stackSize : Size} (hs : stackSize.toNat < 2 ^ 62) :
    32768 ≤ (mcoDescInit func stackSize).stackSize.toNat ∧
      (mcoDescInit func stackSize).coroSize.toNat =
        1312 + (mcoDescInit func stackSize).stackSize.toNat := by
  have hge : 32768 ≤ (mcoDescInit func stackSize).stackSize.toNat ∧
      (mcoDescInit func stackSize).stackSize.toNat < 2 ^ 62 + 32 := by
    rw [toNat_stackSize func hs]
    split_ifs <;> omega
  refine ⟨hge.1, ?_⟩
  have hparts : alignForward sizeofCoro 16 + alignForward sizeofContext 16 +
      alignForward defaultStorageSize 16 = 1296 := by decide
  change (alignForward sizeofCoro 16 + alignForward sizeofContext 16 +
    alignForward defaultStorageSize 16 + (mcoDescInit func stackSize).stackSize + 16).toNat = _
  rw [hparts, BitVec.toNat_add, BitVec.toNat_add]
  change ((1296 + (mcoDescInit func stackSize).stackSize.toNat) % 2 ^ 64 + 16) % 2 ^ 64 = _
  omega

/-- **Every description of the library fits its block**, wherever the allocator puts it. -/
theorem layout_mcoDescInit (func : Option Addr) {stackSize : Size} (hs : stackSize.toNat < 2 ^ 62)
    {co : Addr} (hco : co.toNat + (mcoDescInit func stackSize).coroSize.toNat < 2 ^ 64) :
    Layout co (mcoDescInit func stackSize) := by
  obtain ⟨hge, hsize⟩ := sizes_mcoDescInit func hs
  have hstorage : (mcoDescInit func stackSize).storageSize = defaultStorageSize := rfl
  generalize mcoDescInit func stackSize = desc at *
  have hctx : (contextAddr co).toNat = (co.toNat + 151) / 16 * 16 := by
    have hadd : (co + sizeofCoro).toNat = co.toNat + 136 := by
      rw [BitVec.toNat_add]
      change (co.toNat + 136) % 2 ^ 64 = _
      omega
    rw [contextAddr, toNat_alignForward _ (by omega), hadd]
  have hsto : (storageAddr co).toNat = (contextAddr co).toNat + 128 := by
    have hadd : (contextAddr co + sizeofContext).toNat = (contextAddr co).toNat + 128 := by
      rw [BitVec.toNat_add]
      change ((contextAddr co).toNat + 128) % 2 ^ 64 = _
      omega
    rw [storageAddr, toNat_alignForward _ (by omega), hadd]
    omega
  have hstk : (stackAddr co desc).toNat = (storageAddr co).toNat + 1024 := by
    have hadd : (storageAddr co + desc.storageSize).toNat = (storageAddr co).toNat + 1024 := by
      rw [hstorage, BitVec.toNat_add]
      change ((storageAddr co).toNat + 1024) % 2 ^ 64 = _
      omega
    rw [stackAddr, toNat_alignForward _ (by omega), hadd]
    omega
  have hc : sizeofCoro.toNat = 136 := rfl
  have hx : sizeofContext.toNat = 128 := rfl
  have hst : desc.storageSize.toNat = 1024 := by rw [hstorage]; rfl
  exact {
    context := by omega
    storage := by omega
    stack := by omega
    fits := by omega
    aligned := by omega
    enough := BitVec.le_def.2 hge }

/-- And it passes the library's own check. -/
theorem validateDesc_mcoDescInit {func : Option Addr} (hf : func ≠ none) {stackSize : Size}
    (hs : stackSize.toNat < 2 ^ 62) : validateDesc (mcoDescInit func stackSize) = .success := by
  obtain ⟨hge, hsize⟩ := sizes_mcoDescInit func hs
  have hfunc : (mcoDescInit func stackSize).func = func := rfl
  unfold validateDesc
  rw [hfunc, if_neg hf, if_neg, if_neg]
  · rw [BitVec.lt_def, hsize]
    change ¬ _ < 136
    omega
  · rw [BitVec.lt_def]
    change ¬ _ < 32768
    omega

/-! ### The coroutines of a thread -/

/-- The coroutines that are allocated, `mco_current_co`, and the code that executes. -/
structure Machine where
  coros : Addr → Option Coroutine
  current : Option Addr
  executing : Code

namespace Machine

/-- Before any coroutine is created. -/
def boot : Machine := ⟨fun _ => none, none, none⟩

def set (m : Machine) (co : Addr) (c : Option Coroutine) : Machine :=
  { m with coros := fun a => if a = co then c else m.coros a }

@[simp] theorem coros_set (m : Machine) (co a : Addr) (c : Option Coroutine) :
    (m.set co c).coros a = if a = co then c else m.coros a := rfl

@[simp] theorem current_set (m : Machine) (co : Addr) (c : Option Coroutine) :
    (m.set co c).current = m.current := rfl

@[simp] theorem executing_set (m : Machine) (co : Addr) (c : Option Coroutine) :
    (m.set co c).executing = m.executing := rfl

/-- What a pointer leads to. -/
def deref (m : Machine) (co : Addr) : Except Fault Coroutine :=
  match m.coros co with
  | none => .error .dangling
  | some c => .ok c

theorem deref_eq {m : Machine} {co : Addr} {c : Coroutine} (h : m.coros co = some c) :
    m.deref co = .ok c := by
  rw [deref, h]

/-! ### Switches -/

/-- `_mco_prepare_jumpin` -/
def prepareJumpin (m : Machine) (co : Addr) : Except Fault Machine := do
  let prevCo := m.current
  let c ← m.deref co
  if c.prevCo ≠ none then .error .assertionFailed else
  let m := m.set co (some { c with prevCo := prevCo })
  match prevCo with
  | none => .ok { m with current := some co }
  | some p => do
      let pc ← m.deref p
      if pc.state ≠ .running then .error .assertionFailed else
      .ok { m.set p (some { pc with state := .normal }) with current := some co }

/-- `_mco_prepare_jumpout` -/
def prepareJumpout (m : Machine) (co : Addr) : Except Fault Machine := do
  let c ← m.deref co
  let prevCo := c.prevCo
  let m := m.set co (some { c with prevCo := none })
  match prevCo with
  | none => .ok { m with current := none }
  | some p => do
      let pc ← m.deref p
      .ok { m.set p (some { pc with state := .running }) with current := some p }

/-- `_mco_jumpin`: the code that executes is saved in `back_ctx`, and that in `ctx` goes on. -/
def jumpin (m : Machine) (co : Addr) : Except Fault Machine := do
  let m ← m.prepareJumpin co
  let c ← m.deref co
  .ok { m.set co (some { c with backCtx := some m.executing }) with executing := c.ctx }

/-- `_mco_jumpout`: the code that executes is saved in `ctx`, and that in `back_ctx` goes on. -/
def jumpout (m : Machine) (co : Addr) : Except Fault Machine := do
  let m ← m.prepareJumpout co
  let c ← m.deref co
  match c.backCtx with
  | none => .error .noContext
  | some back => .ok { m.set co (some { c with ctx := m.executing }) with executing := back }

/-- `_mco_main`, behind the return of the function of the coroutine. -/
def mcoMain (m : Machine) (co : Addr) : Except Fault Machine := do
  let c ← m.deref co
  (m.set co (some { c with state := .dead })).jumpout co

/-! ### The functions of the library -/

/-- A coroutine as `mco_init` leaves it, with the context of `_mco_create_context`. -/
def newCoroutine (co : Addr) (desc : Desc) : Coroutine where
  state := .suspended
  prevCo := none
  ctx := some co
  backCtx := none
  func := desc.func
  userData := desc.userData
  coroSize := desc.coroSize
  deallocCb := desc.deallocCb
  stackBase := Coro.stackAddr co desc
  stackSize := desc.stackSize
  storage := fun _ => 0
  bytesStored := 0
  storageSize := desc.storageSize
  magicNumber := magicNumber

/-- `mco_init` in a block that has been allocated, and is freed again if it fails.  Of `coro_size`
it is only checked that it has room for the structure. -/
def mcoInit (m : Machine) (co : Addr) (desc : Desc) : Result × Machine :=
  match validateDesc desc with
  | .success => (.success, m.set co (some (newCoroutine co desc)))
  | res => (res, m)

/-- `mco_create(out_co, desc)`, with the answer of the allocator, and what it leaves in
`*out_co`. -/
def mcoCreate (m : Machine) (outCo : Bool) (desc : Option Desc) (mem : Option Addr) :
    Result × Option Addr × Machine :=
  if !outCo then (.invalidPointer, none, m) else
  match desc with
  | none => (.invalidArguments, none, m)
  | some desc =>
      if !desc.allocCb || !desc.deallocCb then (.invalidArguments, none, m)
      else
        match mem with
        | none => (.outOfMemory, none, m)
        | some co =>
            match m.mcoInit co desc with
            | (.success, m) => (.success, some co, m)
            | (res, m) => (res, none, m)

/-- `mco_uninit` -/
def mcoUninit (m : Machine) (co : Option Addr) : Except Fault (Result × Machine) := do
  match co with
  | none => .ok (.invalidCoroutine, m)
  | some co => do
      let c ← m.deref co
      if ¬ (c.state = .suspended ∨ c.state = .dead) then .ok (.invalidOperation, m)
      else .ok (.success, m.set co (some { c with state := .dead }))

/-- `mco_destroy` -/
def mcoDestroy (m : Machine) (co : Option Addr) : Except Fault (Result × Machine) := do
  match co with
  | none => .ok (.invalidCoroutine, m)
  | some co => do
      let (res, m) ← m.mcoUninit (some co)
      if res ≠ .success then .ok (res, m) else
      let c ← m.deref co
      if !c.deallocCb then .ok (.invalidPointer, m)
      else .ok (.success, m.set co none)

/-- `mco_resume`, up to the switch; it returns with the same result when control comes back. -/
def mcoResume (m : Machine) (co : Option Addr) : Except Fault (Result × Machine) := do
  match co with
  | none => .ok (.invalidCoroutine, m)
  | some co => do
      let c ← m.deref co
      if c.state ≠ .suspended then .ok (.notSuspended, m) else
      let m ← (m.set co (some { c with state := .running })).jumpin co
      .ok (.success, m)

/-- `mco_yield`, up to the switch; `dummy` is the address of its local variable. -/
def mcoYield (m : Machine) (co : Option Addr) (dummy : Addr) :
    Except Fault (Result × Machine) := do
  match co with
  | none => .ok (.invalidCoroutine, m)
  | some co => do
      let c ← m.deref co
      let stackMin := c.stackBase
      let stackMax := stackMin + c.stackSize
      if c.magicNumber ≠ Coro.magicNumber ∨ dummy < stackMin ∨ stackMax < dummy then
        .ok (.stackOverflow, m) else
      if c.state ≠ .running then .ok (.notRunning, m) else
      let m ← (m.set co (some { c with state := .suspended })).jumpout co
      .ok (.success, m)

/-- `mco_status` -/
def mcoStatus (m : Machine) (co : Option Addr) : Except Fault State :=
  match co with
  | none => .ok .dead
  | some co => (m.deref co).map Coroutine.state

/-- `mco_running` -/
def mcoRunning (m : Machine) : Option Addr := m.current

/-- `mco_get_user_data` -/
def mcoGetUserData (m : Machine) (co : Option Addr) : Except Fault Size :=
  match co with
  | none => .ok 0
  | some co => (m.deref co).map Coroutine.userData

/-! ### The storage -/

/-- `memcpy(&co->storage[offset], src, len)` -/
def copyIn (storage : ℕ → Byte) (offset : ℕ) (src : List Byte) (len : ℕ) : ℕ → Byte :=
  fun i => if offset ≤ i ∧ i < offset + len then src.getD (i - offset) 0 else storage i

/-- `memcpy(dest, &co->storage[offset], len)` -/
def copyOut (storage : ℕ → Byte) (offset len : ℕ) : List Byte :=
  (List.range len).map fun i => storage (offset + i)

/-- `mco_push` -/
def mcoPush (m : Machine) (co : Option Addr) (src : Option (List Byte)) (len : Size) :
    Except Fault (Result × Machine) := do
  match co with
  | none => .ok (.invalidCoroutine, m)
  | some co => do
      if ¬ len > 0 then .ok (.success, m) else
      let c ← m.deref co
      let bytesStored := c.bytesStored + len
      if bytesStored > c.storageSize then .ok (.notEnoughSpace, m) else
      match src with
      | none => .ok (.invalidPointer, m)
      | some src => .ok (.success, m.set co (some { c with
          storage := copyIn c.storage c.bytesStored.toNat src len.toNat
          bytesStored := bytesStored }))

/-- `mco_pop`, with the bytes it copies to `dest` if that is not null. -/
def mcoPop (m : Machine) (co : Option Addr) (dest : Bool) (len : Size) :
    Except Fault (Result × List Byte × Machine) := do
  match co with
  | none => .ok (.invalidCoroutine, [], m)
  | some co => do
      if ¬ len > 0 then .ok (.success, [], m) else
      let c ← m.deref co
      if len > c.bytesStored then .ok (.notEnoughSpace, [], m) else
      let bytesStored := c.bytesStored - len
      let copied := if dest then copyOut c.storage bytesStored.toNat len.toNat else []
      .ok (.success, copied, m.set co (some { c with bytesStored := bytesStored }))

/-- `mco_peek` -/
def mcoPeek (m : Machine) (co : Option Addr) (dest : Bool) (len : Size) :
    Except Fault (Result × List Byte) := do
  match co with
  | none => .ok (.invalidCoroutine, [])
  | some co => do
      if ¬ len > 0 then .ok (.success, []) else
      let c ← m.deref co
      if len > c.bytesStored then .ok (.notEnoughSpace, []) else
      if !dest then .ok (.invalidPointer, [])
      else .ok (.success, copyOut c.storage (c.bytesStored - len).toNat len.toNat)

/-- `mco_get_bytes_stored` -/
def mcoGetBytesStored (m : Machine) (co : Option Addr) : Except Fault Size :=
  match co with
  | none => .ok 0
  | some co => (m.deref co).map Coroutine.bytesStored

/-- `mco_get_storage_size` -/
def mcoGetStorageSize (m : Machine) (co : Option Addr) : Except Fault Size :=
  match co with
  | none => .ok 0
  | some co => (m.deref co).map Coroutine.storageSize

end Machine

end Coro
