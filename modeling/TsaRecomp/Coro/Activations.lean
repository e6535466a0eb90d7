/-
**Coroutines as a stack of activations.**

To its callers the coroutine library is a stack: the coroutine at its top runs, the ones below have
each resumed the one above and wait for it, and all the others are suspended or have finished.  To
resume a coroutine puts it on top, to yield or to finish takes it off.  Every coroutine also holds a
stack of bytes.

This module states that view, and shows that no program can tell the library from it: whatever calls
the coroutines make of each other, as long as they name coroutines that are allocated and describe
them with parts that fit their blocks, the library answers as the stack does, none of its assertions
fails, the code that executes is that of the coroutine it believes to run, and the storages and
stacks stay inside of the blocks.

Main definitions:

* `Coro.Cell`, `Coro.View` — the stack of activations, and what a coroutine holds;
* `Coro.Call`, `Coro.Answer`, `Coro.Machine.call`, `Coro.View.call` — calls, on both;
* `Coro.Call.Allowed` — calls that name allocated coroutines, and descriptions that fit;
* `Coro.Cell.InBlock` — a storage and a stack, inside of their block;
* `Coro.Represents` — the library in a state that a stack of activations represents.

Main results:

* `Coro.simulates` — each call on the library does what it does to the stack;
* `Coro.View.InBlocks.call` — each call leaves the coroutines inside of their blocks;
* `Coro.play_eq` — **no program can tell them apart**.
-/

import TsaRecomp.Coro.Minicoro
import TsaRecomp.Lib.Clients
import Mathlib.Data.List.GetD
import Mathlib.Data.List.Nodup
import Mathlib.Tactic

set_option relaxedAutoImplicit false
set_option autoImplicit false

namespace Coro

/-! ### The view of the callers -/

/-- What the callers know of a coroutine. -/
structure Cell where
  finished : Bool
  /-- The bytes in its storage, the oldest first. -/
  content : List Byte
  capacity : Size
  userData : Size
  coroSize : Size
  stackBase : Addr
  stackSize : Size
  deriving DecidableEq, Repr

/-- The coroutines that have been resumed and have not yielded since, the running one first, and
what is known of all of them. -/
structure View where
  active : List Addr
  cells : Addr → Option Cell

/-- The state of a coroutine, by its place on the stack. -/
def stateOf (active : List Addr) (co : Addr) (cell : Cell) : State :=
  if active.head? = some co then .running
  else if co ∈ active then .normal
  else if cell.finished then .dead
  else .suspended

/-- What is known of a new coroutine. -/
def newCell (co : Addr) (desc : Desc) : Cell where
  finished := false
  content := []
  capacity := desc.storageSize
  userData := desc.userData
  coroSize := desc.coroSize
  stackBase := stackAddr co desc
  stackSize := desc.stackSize

/-- A call of the library by the code that executes, or the end of the function of a coroutine. -/
inductive Call
  | create (outCo : Bool) (desc : Option Desc) (mem : Option Addr)
  | uninit (co : Option Addr)
  | destroy (co : Option Addr)
  | resume (co : Option Addr)
  | yield (co : Option Addr) (dummy : Addr)
  | finish
  | status (co : Option Addr)
  | running
  | userData (co : Option Addr)
  | push (co : Option Addr) (src : Option (List Byte)) (len : Size)
  | pop (co : Option Addr) (dest : Bool) (len : Size)
  | peek (co : Option Addr) (dest : Bool) (len : Size)
  | bytesStored (co : Option Addr)
  | storageSize (co : Option Addr)
  deriving DecidableEq, Repr

/-- What a call answers. -/
inductive Answer
  | fault (f : Fault)
  | result (res : Result)
  | created (res : Result) (co : Option Addr)
  | copied (res : Result) (bytes : List Byte)
  | state (s : State)
  | coroutine (co : Option Addr)
  | size (n : Size)
  | switched
  deriving DecidableEq, Repr

namespace Machine

/-- A call that answers and may change the machine. -/
def settle {α : Type} (m : Machine) (answer : α → Answer × Machine) (r : Except Fault α) :
    Answer × Machine :=
  match r with
  | .error f => (.fault f, m)
  | .ok a => answer a

/-- A call on the library. -/
def call (m : Machine) : Call → Answer × Machine
  | .create outCo desc mem =>
      let r := m.mcoCreate outCo desc mem
      (.created r.1 r.2.1, r.2.2)
  | .uninit co => m.settle (fun r => (.result r.1, r.2)) (m.mcoUninit co)
  | .destroy co => m.settle (fun r => (.result r.1, r.2)) (m.mcoDestroy co)
  | .resume co => m.settle (fun r => (.result r.1, r.2)) (m.mcoResume co)
  | .yield co dummy => m.settle (fun r => (.result r.1, r.2)) (m.mcoYield co dummy)
  | .finish =>
      match m.executing with
      | none => (.switched, m)
      | some co => m.settle (fun m => (.switched, m)) (m.mcoMain co)
  | .status co => m.settle (fun s => (.state s, m)) (m.mcoStatus co)
  | .running => (.coroutine m.mcoRunning, m)
  | .userData co => m.settle (fun n => (.size n, m)) (m.mcoGetUserData co)
  | .push co src len => m.settle (fun r => (.result r.1, r.2)) (m.mcoPush co src len)
  | .pop co dest len => m.settle (fun r => (.copied r.1 r.2.1, r.2.2)) (m.mcoPop co dest len)
  | .peek co dest len => m.settle (fun r => (.copied r.1 r.2, m)) (m.mcoPeek co dest len)
  | .bytesStored co => m.settle (fun n => (.size n, m)) (m.mcoGetBytesStored co)
  | .storageSize co => m.settle (fun n => (.size n, m)) (m.mcoGetStorageSize co)

end Machine

namespace View

/-- Before any coroutine is created. -/
def empty : View := ⟨[], fun _ => none⟩

def set (v : View) (co : Addr) (cell : Option Cell) : View :=
  { v with cells := fun a => if a = co then cell else v.cells a }

@[simp] theorem cells_set (v : View) (co a : Addr) (cell : Option Cell) :
    (v.set co cell).cells a = if a = co then cell else v.cells a := rfl

@[simp] theorem active_set (v : View) (co : Addr) (cell : Option Cell) :
    (v.set co cell).active = v.active := rfl

/-- The view behind a switch out of a coroutine. -/
def pop (v : View) (co : Addr) (cell : Cell) (rest : List Addr) : View where
  active := rest
  cells a := if a = co then some cell else v.cells a

@[simp] theorem active_pop (v : View) (co : Addr) (cell : Cell) (rest : List Addr) :
    (v.pop co cell rest).active = rest := rfl

@[simp] theorem cells_pop (v : View) (co a : Addr) (cell : Cell) (rest : List Addr) :
    (v.pop co cell rest).cells a = if a = co then some cell else v.cells a := rfl

/-- A call with a coroutine, which has no effect without one. -/
def withCell (v : View) (co : Option Addr) (null : Answer)
    (body : Addr → Cell → Answer × View) : Answer × View :=
  match co with
  | none => (null, v)
  | some co =>
      match v.cells co with
      | none => (.fault .dangling, v)
      | some cell => body co cell

/-- A call on the stack of activations. -/
def call (v : View) : Call → Answer × View
  | .create outCo desc mem =>
      if outCo = false then (.created .invalidPointer none, v)
      else
        match desc, mem with
        | none, _ => (.created .invalidArguments none, v)
        | some desc, mem =>
            if desc.allocCb = false ∨ desc.deallocCb = false then
              (.created .invalidArguments none, v)
            else
              match mem with
              | none => (.created .outOfMemory none, v)
              | some co =>
                  if validateDesc desc = .success then
                    (.created .success (some co), v.set co (some (newCell co desc)))
                  else (.created .invalidArguments none, v)
  | .uninit co => v.withCell co (.result .invalidCoroutine) fun co cell =>
      if co ∈ v.active then (.result .invalidOperation, v)
      else (.result .success, v.set co (some { cell with finished := true }))
  | .destroy co => v.withCell co (.result .invalidCoroutine) fun co _ =>
      if co ∈ v.active then (.result .invalidOperation, v)
      else (.result .success, v.set co none)
  | .resume co => v.withCell co (.result .invalidCoroutine) fun co cell =>
      if stateOf v.active co cell = .suspended then
        (.result .success, { v with active := co :: v.active })
      else (.result .notSuspended, v)
  | .yield co dummy => v.withCell co (.result .invalidCoroutine) fun co cell =>
      if dummy < cell.stackBase ∨ cell.stackBase + cell.stackSize < dummy then
        (.result .stackOverflow, v)
      else if v.active.head? = some co then
        (.result .success, v.pop co cell v.active.tail)
      else (.result .notRunning, v)
  | .finish =>
      match v.active with
      | [] => (.switched, v)
      | co :: rest => v.withCell (some co) .switched fun co cell =>
          (.switched, v.pop co { cell with finished := true } rest)
  | .status co => v.withCell co (.state .dead) fun co cell => (.state (stateOf v.active co cell), v)
  | .running => (.coroutine v.active.head?, v)
  | .userData co => v.withCell co (.size 0) fun _ cell => (.size cell.userData, v)
  | .push co src len => v.withCell co (.result .invalidCoroutine) fun co cell =>
      if len = 0 then (.result .success, v)
      else if cell.capacity.toNat < cell.content.length + len.toNat then
        (.result .notEnoughSpace, v)
      else
        match src with
        | none => (.result .invalidPointer, v)
        | some src =>
            (.result .success, v.set co (some { cell with content := cell.content ++ src }))
  | .pop co dest len => v.withCell co (.copied .invalidCoroutine []) fun co cell =>
      if cell.content.length < len.toNat then (.copied .notEnoughSpace [], v)
      else
        let kept := cell.content.length - len.toNat
        (.copied .success (if dest then cell.content.drop kept else []),
          v.set co (some { cell with content := cell.content.take kept }))
  | .peek co dest len => v.withCell co (.copied .invalidCoroutine []) fun _ cell =>
      if len = 0 then (.copied .success [], v)
      else if cell.content.length < len.toNat then (.copied .notEnoughSpace [], v)
      else if dest = false then (.copied .invalidPointer [], v)
      else (.copied .success (cell.content.drop (cell.content.length - len.toNat)), v)
  | .bytesStored co => v.withCell co (.size 0) fun _ cell =>
      (.size (BitVec.ofNat 64 cell.content.length), v)
  | .storageSize co => v.withCell co (.size 0) fun _ cell => (.size cell.capacity, v)

end View

/-- **The calls that are allowed** name coroutines that are allocated; the allocator answers with a
new place, where the parts of a coroutine fit the size of its block, and buffers and storages are
smaller than half of memory. -/
def Call.Allowed (v : View) : Call → Prop
  | .create _ desc mem =>
      (∀ co, mem = some co → v.cells co = none) ∧
        ∀ d, desc = some d → d.storageSize.toNat < 2 ^ 63 ∧
          ∀ co, mem = some co → validateDesc d = .success → Layout co d
  | .push co src len => (∀ a, co = some a → v.cells a ≠ none) ∧
      len.toNat < 2 ^ 63 ∧ ∀ bytes, src = some bytes → bytes.length = len.toNat
  | .uninit co | .destroy co | .resume co | .yield co _ | .status co | .userData co | .pop co _ _
  | .peek co _ _ | .bytesStored co | .storageSize co => ∀ a, co = some a → v.cells a ≠ none
  | .finish | .running => True

/-! ### The library in such a state -/

/-- The chain of `prev_co` through the stack, and the contexts that lead back along it. -/
def Linked (m : Machine) : List Addr → Prop
  | [] => True
  | co :: rest =>
      (∃ c, m.coros co = some c ∧ c.prevCo = rest.head? ∧ c.backCtx = some rest.head?) ∧
        Linked m rest

/-- **A coroutine is inside of its block**: its storage ends in front of its stack, and that in
front of the end of the block. -/
structure Cell.InBlock (co : Addr) (cell : Cell) : Prop where
  storage : (storageAddr co).toNat + cell.capacity.toNat ≤ cell.stackBase.toNat
  stack : cell.stackBase.toNat + cell.stackSize.toNat ≤ co.toNat + cell.coroSize.toNat

/-- All coroutines are inside of their blocks. -/
def View.InBlocks (v : View) : Prop := ∀ co cell, v.cells co = some cell → cell.InBlock co

/-- A coroutine and what its callers know of it. -/
structure Holds (active : List Addr) (co : Addr) (c : Coroutine) (cell : Cell) : Prop where
  state : c.state = stateOf active co cell
  ctx : c.ctx = some co
  idle : co ∉ active → c.prevCo = none
  unfinished : co ∈ active → cell.finished = false
  dealloc : c.deallocCb = true
  magic : c.magicNumber = magicNumber
  userData : c.userData = cell.userData
  coroSize : c.coroSize = cell.coroSize
  stackBase : c.stackBase = cell.stackBase
  stackSize : c.stackSize = cell.stackSize
  stored : c.bytesStored.toNat = cell.content.length
  bytes : ∀ i (h : i < cell.content.length), c.storage i = cell.content[i]
  storageSize : c.storageSize = cell.capacity
  capacity : cell.content.length ≤ cell.capacity.toNat ∧ cell.capacity.toNat < 2 ^ 63

/-- **The library is in a state that a stack of activations represents.** -/
structure Represents (m : Machine) (v : View) : Prop where
  nodup : v.active.Nodup
  linked : Linked m v.active
  current : m.current = v.active.head?
  executing : m.executing = v.active.head?
  holds : ∀ co c, m.coros co = some c → ∃ cell, v.cells co = some cell ∧ Holds v.active co c cell
  allocated : ∀ co cell, v.cells co = some cell → ∃ c, m.coros co = some c

theorem represents_boot : Represents Machine.boot View.empty where
  nodup := List.nodup_nil
  linked := trivial
  current := rfl
  executing := rfl
  holds co c h := by cases h
  allocated co cell h := by cases h

/-! ### Places on the stack -/

variable {m m' : Machine} {v v' : View} {co p : Addr} {c : Coroutine} {cell : Cell}
  {active rest : List Addr}

@[simp] theorem stateOf_head : stateOf (co :: rest) co cell = .running := by simp [stateOf]

/-- A coroutine that is not on the stack. -/
theorem stateOf_of_notMem (h : co ∉ active) :
    stateOf active co cell = if cell.finished then .dead else .suspended := by
  have hhead : active.head? ≠ some co := fun hc => h (List.mem_of_mem_head? (Option.mem_def.2 hc))
  rw [stateOf, if_neg hhead, if_neg h]

theorem stateOf_eq_running : stateOf active co cell = .running ↔ active.head? = some co := by
  unfold stateOf
  split_ifs <;> simp_all

theorem stateOf_eq_suspended :
    stateOf active co cell = .suspended ↔ co ∉ active ∧ cell.finished = false := by
  constructor
  · intro h
    unfold stateOf at h
    split_ifs at h with h₁ h₂ h₃
    exact ⟨h₂, by simpa using h₃⟩
  · rintro ⟨h, hf⟩
    rw [stateOf_of_notMem h, hf]
    rfl

/-- To be suspended or dead is not to be on the stack. -/
theorem stateOf_idle : stateOf active co cell = .suspended ∨ stateOf active co cell = .dead ↔
    co ∉ active := by
  constructor
  · rintro h hm
    unfold stateOf at h
    split_ifs at h <;> simp_all
  · intro h
    rw [stateOf_of_notMem h]
    cases cell.finished <;> simp

/-- A coroutine below the top waits. -/
theorem stateOf_cons_of_mem (hne : co ≠ p) (h : co ∈ active) :
    stateOf (p :: active) co cell = .normal := by
  rw [stateOf, if_neg (by simpa using fun he => hne he.symm), if_pos (List.mem_cons_of_mem p h)]

/-- A coroutine that is not on the stack is not touched by what is put on top of it. -/
theorem stateOf_cons_of_ne (hne : co ≠ p) (h : active.head? ≠ some co) :
    stateOf (p :: active) co cell = stateOf active co cell := by
  unfold stateOf
  rw [if_neg (by simpa using fun he => hne he.symm), if_neg h]
  simp [hne]

/-! ### Lookups -/

theorem Represents.lookup (h : Represents m v) (hc : v.cells co = some cell) :
    ∃ c, m.coros co = some c ∧ Holds v.active co c cell := by
  obtain ⟨c, hm⟩ := h.allocated co cell hc
  obtain ⟨cell', hc', hh⟩ := h.holds co c hm
  rw [hc] at hc'
  cases hc'
  exact ⟨c, hm, hh⟩

/-- **The chain is not broken** where its links are not. -/
theorem Linked.congr (h : Linked m active)
    (hcongr : ∀ a ∈ active, ∀ c, m.coros a = some c →
      ∃ c', m'.coros a = some c' ∧ c'.prevCo = c.prevCo ∧ c'.backCtx = c.backCtx) :
    Linked m' active := by
  induction active with
  | nil => trivial
  | cons a rest ih =>
      obtain ⟨⟨c, hc, hp, hb⟩, hrest⟩ := h
      obtain ⟨c', hc', hp', hb'⟩ := hcongr a List.mem_cons_self c hc
      exact ⟨⟨c', hc', hp'.trans hp, hb'.trans hb⟩,
        ih hrest fun b hb => hcongr b (List.mem_cons_of_mem a hb)⟩

/-- **A coroutine changes without a switch**: the links of the chain are left alone. -/
theorem Represents.update (h : Represents m v) {c' : Coroutine} {cell' : Cell}
    (hm : m.coros co = some c) (hh : Holds v.active co c' cell') (hp : c'.prevCo = c.prevCo)
    (hb : c'.backCtx = c.backCtx) :
    Represents (m.set co (some c')) (v.set co (some cell')) where
  nodup := h.nodup
  linked := by
    refine h.linked.congr ?_
    intro a _ d hd
    by_cases ha : a = co
    · subst ha
      rw [hm] at hd
      cases hd
      exact ⟨c', by simp, hp, hb⟩
    · exact ⟨d, by simpa [ha] using hd, rfl, rfl⟩
  current := h.current
  executing := h.executing
  holds a d hd := by
    by_cases ha : a = co
    · subst ha
      simp only [Machine.coros_set, if_true, Option.some.injEq] at hd
      subst hd
      exact ⟨cell', by simp, hh⟩
    · simp only [Machine.coros_set, ha, if_false] at hd
      obtain ⟨cell, hc, hold⟩ := h.holds a d hd
      exact ⟨cell, by simpa [ha] using hc, hold⟩
  allocated a cell hc := by
    by_cases ha : a = co
    · exact ⟨c', by simp [ha]⟩
    · simp only [View.cells_set, ha, if_false] at hc
      obtain ⟨d, hd⟩ := h.allocated a cell hc
      exact ⟨d, by simpa [ha] using hd⟩

/-! ### Switches -/

/-- A coroutine right behind the switch into it. -/
def switchedIn (c : Coroutine) (active : List Addr) : Coroutine :=
  { c with
    state := .running
    prevCo := active.head?
    backCtx := some active.head? }

/-- A coroutine right behind the switch out of it. -/
def switchedOut (c : Coroutine) (co : Addr) (state : State) : Coroutine :=
  { c with
    state := state
    prevCo := none
    ctx := some co }

/-- The machine behind a switch: `co` has changed, and so has the state of the coroutine that it
switches from or to, if any. -/
def Machine.switch (m : Machine) (co : Addr) (c : Coroutine) (other : Option Addr) (state : State)
    (code : Code) : Machine where
  coros a :=
    if a = co then some c
    else if other = some a then (m.coros a).map fun d => { d with state := state }
    else m.coros a
  current := code
  executing := code

theorem Represents.mem_allocated (h : Represents m v) (hp : p ∈ v.active) :
    ∃ d, m.coros p = some d := by
  have hl := h.linked
  revert hp
  generalize v.active = l at hl
  induction l with
  | nil => intro hp; cases hp
  | cons a rest ih =>
      intro hp
      rcases List.mem_cons.1 hp with rfl | hmem
      · obtain ⟨d, hd, -⟩ := hl.1
        exact ⟨d, hd⟩
      · exact ih hl.2 hmem

/-- **The switch into a coroutine**: its assertions hold. -/
theorem Represents.jumpin (h : Represents m v) (hc : co ∉ v.active) (hctx : c.ctx = some co)
    (hp : c.prevCo = none) :
    (m.set co (some { c with state := .running })).jumpin co =
      .ok (m.switch co (switchedIn c v.active) v.active.head? .normal (some co)) := by
  unfold Machine.jumpin Machine.prepareJumpin
  cases hv : v.active with
  | nil =>
      have hcur : m.current = none := by rw [h.current, hv]; rfl
      have hex : m.executing = none := by rw [h.executing, hv]; rfl
      simp only [Machine.deref, hp, hcur, hex, hctx, Machine.switch, switchedIn, Machine.set,
        bind, Except.bind, if_true, ne_eq, not_true, if_false, List.head?_nil, reduceCtorEq]
      congr 2
      funext a
      by_cases ha : a = co <;> simp [ha]
  | cons p rest =>
      have hmem : p ∈ v.active := by rw [hv]; exact List.mem_cons_self
      have hne : p ≠ co := by rintro rfl; exact hc hmem
      obtain ⟨d, hd⟩ := h.mem_allocated hmem
      obtain ⟨cell, -, hh⟩ := h.holds p d hd
      have hst : d.state = .running := by
        rw [hh.state, hv, stateOf_head]
      have hcur : m.current = some p := by rw [h.current, hv]; rfl
      have hex : m.executing = some p := by rw [h.executing, hv]; rfl
      simp only [Machine.deref, hp, hcur, hex, hctx, hd, hst, hne, hne.symm, Machine.switch,
        switchedIn, Machine.set, bind, Except.bind, if_true, ne_eq, not_true, if_false,
        List.head?_cons]
      congr 2
      funext a
      by_cases ha : a = co
      · simp [ha]
      · by_cases hap : a = p
        · subst hap
          simp [ha, hd]
        · simp [ha, hap, Ne.symm hap]

/-- **The switch out of a coroutine** leads back to the code that resumed it. -/
theorem Represents.jumpout (h : Represents m v) (hm : m.coros co = some c)
    (hv : v.active = co :: rest) (state : State) :
    (m.set co (some { c with state := state })).jumpout co =
      .ok (m.switch co (switchedOut c co state) rest.head? .running rest.head?) := by
  have hlink := h.linked
  rw [hv] at hlink
  obtain ⟨⟨c', hc', hprev, hback⟩, -⟩ := hlink
  rw [hm] at hc'
  cases hc'
  have hex : m.executing = some co := by rw [h.executing, hv]; rfl
  have hnd := h.nodup
  rw [hv] at hnd
  unfold Machine.jumpout Machine.prepareJumpout
  cases rest with
  | nil =>
      simp only [List.head?_nil] at hprev hback
      simp only [Machine.deref, hprev, hback, hex, Machine.switch, switchedOut, Machine.set,
        bind, Except.bind, if_true, List.head?_nil, reduceCtorEq, if_false]
      congr 2
      funext a
      by_cases ha : a = co <;> simp [ha]
  | cons p rest =>
      have hmem : p ∈ v.active := by rw [hv]; simp
      have hne : p ≠ co := by
        rintro rfl
        exact (List.nodup_cons.1 hnd).1 List.mem_cons_self
      obtain ⟨d, hd⟩ := h.mem_allocated hmem
      simp only [List.head?_cons] at hprev hback
      simp only [Machine.deref, hprev, hback, hex, hd, hne, hne.symm, Machine.switch, switchedOut,
        Machine.set, bind, Except.bind, if_true, List.head?_cons, if_false]
      congr 2
      funext a
      by_cases ha : a = co
      · simp [ha]
      · by_cases hap : a = p
        · subst hap
          simp [ha, hd]
        · simp [ha, hap, Ne.symm hap]

@[simp] theorem coros_switch (m : Machine) (co a : Addr) (c : Coroutine) (other : Option Addr)
    (state : State) (code : Code) : (m.switch co c other state code).coros a =
      if a = co then some c
      else if other = some a then (m.coros a).map fun d => { d with state := state }
      else m.coros a := rfl

/-- What a switch leaves of another coroutine. -/
theorem coros_switch_of_ne {a : Addr} {d : Coroutine} {other : Option Addr} {state : State}
    {code : Code} (hne : a ≠ co) (hd : m.coros a = some d) :
    (m.switch co c other state code).coros a =
      some (if other = some a then { d with state := state } else d) := by
  rw [coros_switch, if_neg hne, hd]
  split_ifs <;> rfl

/-- The chain of the other coroutines is not broken by a switch. -/
theorem Linked.switch {other : Option Addr} {state : State} {code : Code} (h : Linked m active)
    (hc : co ∉ active) : Linked (m.switch co c other state code) active := by
  refine h.congr ?_
  intro a ha d hd
  have hne : a ≠ co := by rintro rfl; exact hc ha
  refine ⟨_, coros_switch_of_ne hne hd, ?_, ?_⟩
  · split_ifs <;> rfl
  · split_ifs <;> rfl

/-- **Behind the switch into a coroutine** it is on top of the stack. -/
theorem Represents.pushed (h : Represents m v) (hcell : v.cells co = some cell)
    (hh : Holds v.active co c cell) (hc : co ∉ v.active) (hf : cell.finished = false) :
    Represents (m.switch co (switchedIn c v.active) v.active.head? .normal (some co))
      { v with active := co :: v.active } where
  nodup := List.nodup_cons.2 ⟨hc, h.nodup⟩
  linked := ⟨⟨_, by rw [coros_switch, if_pos rfl], rfl, rfl⟩, h.linked.switch hc⟩
  current := rfl
  executing := rfl
  holds a d hd := by
    by_cases ha : a = co
    · subst ha
      rw [coros_switch, if_pos rfl, Option.some.injEq] at hd
      subst hd
      exact ⟨cell, hcell, { hh with
        state := stateOf_head.symm
        idle := fun hn => absurd List.mem_cons_self hn
        unfinished := fun _ => hf }⟩
    · cases hd₀ : m.coros a with
      | none =>
          rw [coros_switch, if_neg ha, hd₀] at hd
          simp at hd
      | some d₀ =>
          rw [coros_switch_of_ne ha hd₀, Option.some.injEq] at hd
          obtain ⟨cell', hcell', hh'⟩ := h.holds a d₀ hd₀
          refine ⟨cell', hcell', ?_⟩
          have hidle : a ∉ co :: v.active → a ∉ v.active := fun hn hm =>
            hn (List.mem_cons_of_mem co hm)
          have hunf : a ∈ co :: v.active → cell'.finished = false := fun hm =>
            hh'.unfinished ((List.mem_cons.1 hm).resolve_left ha)
          by_cases hhead : v.active.head? = some a
          · rw [if_pos hhead] at hd
            subst hd
            have hmem := List.mem_of_mem_head? (Option.mem_def.2 hhead)
            exact { hh' with
              state := (stateOf_cons_of_mem ha hmem).symm
              idle := fun hn => hh'.idle (hidle hn)
              unfinished := hunf }
          · rw [if_neg hhead] at hd
            subst hd
            exact { hh' with
              state := hh'.state.trans (stateOf_cons_of_ne ha hhead).symm
              idle := fun hn => hh'.idle (hidle hn)
              unfinished := hunf }
  allocated a cell' hcell' := by
    by_cases ha : a = co
    · exact ⟨_, by rw [coros_switch, if_pos ha]⟩
    · obtain ⟨d, hd⟩ := h.allocated a cell' hcell'
      exact ⟨_, coros_switch_of_ne ha hd⟩

/-- The state of a coroutine that another one has left on top of the stack. -/
theorem stateOf_rest {a : Addr} (hne : a ≠ co) :
    stateOf rest a cell =
      if rest.head? = some a then .running else stateOf (co :: rest) a cell := by
  split_ifs with h
  · exact stateOf_eq_running.2 h
  · rw [stateOf_cons_of_ne hne h]

/-- **Behind the switch out of a coroutine** the one below it is on top of the stack. -/
theorem Represents.popped (h : Represents m v) (hcell : v.cells co = some cell)
    (hh : Holds v.active co c cell) (hv : v.active = co :: rest) (finished : Bool) :
    Represents
      (m.switch co (switchedOut c co (if finished then .dead else .suspended)) rest.head? .running
        rest.head?)
      (v.pop co { cell with finished := finished } rest) := by
  have hnd := h.nodup
  have hlink := h.linked
  rw [hv] at hnd hlink
  have hnot : co ∉ rest := (List.nodup_cons.1 hnd).1
  exact {
    nodup := (List.nodup_cons.1 hnd).2
    linked := hlink.2.switch hnot
    current := rfl
    executing := rfl
    holds := by
      intro a d hd
      by_cases ha : a = co
      · subst ha
        rw [coros_switch, if_pos rfl, Option.some.injEq] at hd
        subst hd
        refine ⟨{ cell with finished := finished }, by simp, ?_⟩
        exact { hh with
          state := by
            rw [View.active_pop, stateOf_of_notMem hnot]
            rfl
          ctx := rfl
          idle := fun _ => rfl
          unfinished := fun hn => absurd hn hnot }
      · cases hd₀ : m.coros a with
        | none =>
            rw [coros_switch, if_neg ha, hd₀] at hd
            simp at hd
        | some d₀ =>
            rw [coros_switch_of_ne ha hd₀, Option.some.injEq] at hd
            obtain ⟨cell', hcell', hh'⟩ := h.holds a d₀ hd₀
            rw [hv] at hh'
            have hidle : a ∉ rest → a ∉ co :: rest := fun hn hm =>
              hn ((List.mem_cons.1 hm).resolve_left ha)
            refine ⟨cell', by rw [View.cells_pop, if_neg ha]; exact hcell', ?_⟩
            have hst := @stateOf_rest co cell' rest a ha
            by_cases hhead : rest.head? = some a
            · rw [if_pos hhead] at hd hst
              subst hd
              exact { hh' with
                state := hst.symm
                idle := fun hn => hh'.idle (hidle hn)
                unfinished := fun hm => hh'.unfinished (List.mem_cons_of_mem co hm) }
            · rw [if_neg hhead] at hd hst
              subst hd
              exact { hh' with
                state := hh'.state.trans hst.symm
                idle := fun hn => hh'.idle (hidle hn)
                unfinished := fun hm => hh'.unfinished (List.mem_cons_of_mem co hm) }
    allocated := by
      intro a cell' hcell'
      by_cases ha : a = co
      · exact ⟨_, by rw [coros_switch, if_pos ha]⟩
      · rw [View.cells_pop, if_neg ha] at hcell'
        obtain ⟨d, hd⟩ := h.allocated a cell' hcell'
        exact ⟨_, coros_switch_of_ne ha hd⟩ }

/-! ### Creation and destruction -/

/-- A coroutine that is not on the stack can be replaced. -/
theorem Represents.set_some (h : Represents m v) (hc : co ∉ v.active)
    (hh : Holds v.active co c cell) :
    Represents (m.set co (some c)) (v.set co (some cell)) where
  nodup := h.nodup
  linked := by
    refine h.linked.congr ?_
    intro a ha d hd
    have hne : a ≠ co := by rintro rfl; exact hc ha
    exact ⟨d, by simpa [hne] using hd, rfl, rfl⟩
  current := h.current
  executing := h.executing
  holds a d hd := by
    by_cases ha : a = co
    · subst ha
      simp only [Machine.coros_set, if_true, Option.some.injEq] at hd
      subst hd
      exact ⟨cell, by simp, hh⟩
    · simp only [Machine.coros_set, ha, if_false] at hd
      obtain ⟨cell', hc', hold⟩ := h.holds a d hd
      exact ⟨cell', by simpa [ha] using hc', hold⟩
  allocated a cell' hc' := by
    by_cases ha : a = co
    · exact ⟨c, by simp [ha]⟩
    · simp only [View.cells_set, ha, if_false] at hc'
      obtain ⟨d, hd⟩ := h.allocated a cell' hc'
      exact ⟨d, by simpa [ha] using hd⟩

/-- And it can be freed. -/
theorem Represents.set_none (h : Represents m v) (hc : co ∉ v.active) :
    Represents (m.set co none) (v.set co none) where
  nodup := h.nodup
  linked := by
    refine h.linked.congr ?_
    intro a ha d hd
    have hne : a ≠ co := by rintro rfl; exact hc ha
    exact ⟨d, by simpa [hne] using hd, rfl, rfl⟩
  current := h.current
  executing := h.executing
  holds a d hd := by
    by_cases ha : a = co
    · simp [ha] at hd
    · simp only [Machine.coros_set, ha, if_false] at hd
      obtain ⟨cell', hc', hold⟩ := h.holds a d hd
      exact ⟨cell', by simpa [ha] using hc', hold⟩
  allocated a cell' hc' := by
    by_cases ha : a = co
    · simp [ha] at hc'
    · simp only [View.cells_set, ha, if_false] at hc'
      obtain ⟨d, hd⟩ := h.allocated a cell' hc'
      exact ⟨d, by simpa [ha] using hd⟩

/-- A place that is not allocated is not on the stack. -/
theorem Represents.notMem_of_none (h : Represents m v) (hc : v.cells co = none) :
    co ∉ v.active := by
  intro hm
  obtain ⟨d, hd⟩ := h.mem_allocated hm
  obtain ⟨cell, hcell, -⟩ := h.holds co d hd
  rw [hc] at hcell
  cases hcell

/-! ### Bytes -/

theorem getElem?_copyOut (storage : ℕ → Byte) (offset len i : ℕ) :
    (Machine.copyOut storage offset len)[i]? =
      if i < len then some (storage (offset + i)) else none := by
  unfold Machine.copyOut
  split_ifs with h
  · simp [h]
  · simp [h]

/-- What is copied out of a storage is the end of its content. -/
theorem Holds.copyOut (h : Holds active co c cell) {len : ℕ} (hl : len ≤ cell.content.length) :
    Machine.copyOut c.storage (cell.content.length - len) len =
      cell.content.drop (cell.content.length - len) := by
  refine List.ext_getElem? ?_
  intro i
  rw [getElem?_copyOut, List.getElem?_drop]
  split_ifs with hi
  · rw [List.getElem?_eq_getElem (by omega), h.bytes _ (by omega)]
  · rw [List.getElem?_eq_none (by omega)]

/-- What is copied into a storage goes behind its content. -/
theorem Holds.copyIn (h : Holds active co c cell) {src : List Byte} {i : ℕ}
    (hi : i < (cell.content ++ src).length) :
    Machine.copyIn c.storage cell.content.length src src.length i = (cell.content ++ src)[i] := by
  rw [List.length_append] at hi
  unfold Machine.copyIn
  by_cases hlt : i < cell.content.length
  · rw [if_neg (by omega), List.getElem_append_left hlt]
    exact h.bytes i hlt
  · rw [if_pos ⟨by omega, by omega⟩, List.getElem_append_right (by omega),
      List.getD_eq_getElem _ _ (by omega)]

theorem Holds.bytesStored_eq (h : Holds active co c cell) :
    c.bytesStored = BitVec.ofNat 64 cell.content.length := by
  rw [← h.stored, BitVec.ofNat_toNat, BitVec.setWidth_eq]

/-- Bytes behind the content fit, or there is no space. -/
theorem Holds.push_fits (h : Holds active co c cell) {len : Size} (hlen : len.toNat < 2 ^ 63) :
    (c.bytesStored + len).toNat = cell.content.length + len.toNat ∧
      (c.storageSize < c.bytesStored + len ↔
        cell.capacity.toNat < cell.content.length + len.toNat) := by
  have hcap := h.capacity
  have hsum : (c.bytesStored + len).toNat = cell.content.length + len.toNat := by
    rw [BitVec.toNat_add, h.stored]
    omega
  refine ⟨hsum, ?_⟩
  rw [BitVec.lt_def, hsum, h.storageSize]

/-! ### What the functions do -/

theorem Machine.set_set (m : Machine) (co : Addr) (c c' : Option Coroutine) :
    (m.set co c).set co c' = m.set co c' := by
  unfold Machine.set
  congr 1
  funext a
  by_cases ha : a = co <;> simp [ha]

theorem Represents.mcoUninit_eq (h : Represents m v) (hm : m.coros co = some c) :
    m.mcoUninit (some co) = .ok (if co ∈ v.active then (.invalidOperation, m)
      else (.success, m.set co (some { c with state := .dead }))) := by
  obtain ⟨cell, -, hh⟩ := h.holds co c hm
  simp only [Machine.mcoUninit, Machine.deref_eq hm, bind, Except.bind, hh.state, stateOf_idle,
    not_not]
  split_ifs <;> rfl

/-- **A coroutine is destroyed** unless it is on the stack. -/
theorem Represents.mcoDestroy_eq (h : Represents m v) (hm : m.coros co = some c) :
    m.mcoDestroy (some co) = .ok (if co ∈ v.active then (.invalidOperation, m)
      else (.success, m.set co none)) := by
  obtain ⟨cell, -, hh⟩ := h.holds co c hm
  simp only [Machine.mcoDestroy, h.mcoUninit_eq hm, bind, Except.bind]
  by_cases hc : co ∈ v.active
  · simp [hc]
  · have hd : (m.set co (some { c with state := .dead })).deref co =
        .ok { c with state := .dead } := Machine.deref_eq (by simp)
    simp only [hc, if_false, ne_eq, not_true, hd]
    rw [hh.dealloc, Machine.set_set]
    rfl

/-- **A coroutine is resumed** if it is suspended. -/
theorem Represents.mcoResume_eq (h : Represents m v) (hm : m.coros co = some c)
    (hcell : v.cells co = some cell) :
    m.mcoResume (some co) = .ok (if stateOf v.active co cell = .suspended then
        (.success, m.switch co (switchedIn c v.active) v.active.head? .normal (some co))
      else (.notSuspended, m)) := by
  obtain ⟨cell', hcell', hh⟩ := h.holds co c hm
  rw [hcell] at hcell'
  cases hcell'
  simp only [Machine.mcoResume, Machine.deref_eq hm, bind, Except.bind, hh.state]
  by_cases hs : stateOf v.active co cell = .suspended
  · have hc := (stateOf_eq_suspended.1 hs).1
    simp only [hs, ne_eq, not_true, if_false, if_true, h.jumpin hc hh.ctx (hh.idle hc)]
  · simp only [hs, ne_eq, not_false_iff, if_true, if_false]

/-- **A coroutine yields** if it is on top of the stack. -/
theorem Represents.mcoYield_eq (h : Represents m v) (hm : m.coros co = some c)
    (hcell : v.cells co = some cell) (dummy : Addr) :
    m.mcoYield (some co) dummy = .ok (
      if dummy < cell.stackBase ∨ cell.stackBase + cell.stackSize < dummy then (.stackOverflow, m)
      else if v.active.head? = some co then
        (.success, m.switch co (switchedOut c co .suspended) v.active.tail.head? .running
          v.active.tail.head?)
      else (.notRunning, m)) := by
  obtain ⟨cell', hcell', hh⟩ := h.holds co c hm
  rw [hcell] at hcell'
  cases hcell'
  have hover : (c.magicNumber ≠ magicNumber ∨ dummy < c.stackBase ∨
      c.stackBase + c.stackSize < dummy) ↔
        dummy < cell.stackBase ∨ cell.stackBase + cell.stackSize < dummy := by
    rw [hh.magic, hh.stackBase, hh.stackSize]
    simp
  have hrun : ¬ c.state ≠ .running ↔ v.active.head? = some co := by
    rw [not_not, hh.state, stateOf_eq_running]
  simp only [Machine.mcoYield, Machine.deref_eq hm, bind, Except.bind]
  by_cases ho : dummy < cell.stackBase ∨ cell.stackBase + cell.stackSize < dummy
  · rw [if_pos (hover.2 ho), if_pos ho]
  · rw [if_neg fun hc => ho (hover.1 hc), if_neg ho]
    by_cases hr : v.active.head? = some co
    · obtain ⟨rest, hv⟩ : ∃ rest, v.active = co :: rest := List.head?_eq_some_iff.1 hr
      rw [if_neg (hrun.2 hr), if_pos hr, h.jumpout hm hv, hv]
      rfl
    · rw [if_pos (not_not.1 fun hc => hr (hrun.1 hc)), if_neg hr]

/-- **A coroutine finishes** on top of the stack. -/
theorem Represents.mcoMain_eq (h : Represents m v) (hm : m.coros co = some c)
    (hv : v.active = co :: rest) : m.mcoMain co = .ok
      (m.switch co (switchedOut c co .dead) rest.head? .running rest.head?) := by
  simp only [Machine.mcoMain, Machine.deref_eq hm, bind, Except.bind, h.jumpout hm hv]

/-! ### Calls -/

/-- A call does to the library what it does to the stack. -/
def Agrees (m : Machine) (v : View) (x : Call) : Prop :=
  (m.call x).1 = (v.call x).1 ∧ Represents (m.call x).2 (v.call x).2

theorem Agrees.of_eq {x : Call} {a : Answer} (hm : m.call x = (a, m')) (hv : v.call x = (a, v'))
    (h : Represents m' v') : Agrees m v x := by
  rw [Agrees, hm, hv]
  exact ⟨rfl, h⟩

/-- What an allowed pointer leads to, on both sides. -/
theorem Represents.found (h : Represents m v) (hc : v.cells co ≠ none) :
    ∃ c cell, m.coros co = some c ∧ v.cells co = some cell ∧ Holds v.active co c cell := by
  obtain ⟨cell, hcell⟩ := Option.ne_none_iff_exists'.1 hc
  obtain ⟨c, hm, hh⟩ := h.lookup hcell
  exact ⟨c, cell, hm, hcell, hh⟩

/-- The new coroutine. -/
theorem holds_created {d : Desc} (hc : co ∉ active) (hd : d.deallocCb = true)
    (hs : d.storageSize.toNat < 2 ^ 63) :
    Holds active co (Machine.newCoroutine co d) (newCell co d) where
  state := by
    rw [stateOf_of_notMem hc]
    rfl
  ctx := rfl
  idle _ := rfl
  unfinished _ := rfl
  dealloc := hd
  magic := rfl
  userData := rfl
  coroSize := rfl
  stackBase := rfl
  stackSize := rfl
  stored := rfl
  bytes i h := absurd h (Nat.not_lt_zero i)
  storageSize := rfl
  capacity := ⟨Nat.zero_le _, hs⟩

/-- **A coroutine is created** where the description passes the checks. -/
theorem mcoCreate_eq (m : Machine) (co : Addr) {d : Desc} (ha : d.allocCb = true)
    (hd : d.deallocCb = true) (hval : validateDesc d = .success) :
    m.mcoCreate true (some d) (some co) =
      (.success, some co, m.set co (some (Machine.newCoroutine co d))) := by
  simp [Machine.mcoCreate, Machine.mcoInit, ha, hd, hval]

theorem validateDesc_cases (d : Desc) :
    validateDesc d = .success ∨ validateDesc d = .invalidArguments := by
  unfold validateDesc
  split_ifs <;> simp

theorem agrees_create (h : Represents m v) {outCo : Bool} {desc : Option Desc}
    {mem : Option Addr} (ha : (Call.create outCo desc mem).Allowed v) :
    Agrees m v (.create outCo desc mem) := by
  obtain ⟨hnew, hsize⟩ := ha
  cases outCo with
  | false => exact .of_eq rfl rfl h
  | true =>
      cases desc with
      | none => exact .of_eq rfl rfl h
      | some d =>
          by_cases hcb : d.allocCb = true ∧ d.deallocCb = true
          · cases mem with
            | none =>
                refine @Agrees.of_eq m m v v _ (.created .outOfMemory none) ?_ ?_ h
                · simp [Machine.call, Machine.mcoCreate, hcb]
                · simp [View.call, hcb]
            | some co =>
                have hc := h.notMem_of_none (hnew co rfl)
                rcases validateDesc_cases d with hval | hval
                · refine @Agrees.of_eq m _ v _ _ (.created .success (some co)) ?_ ?_
                    (h.set_some hc (holds_created hc hcb.2 (hsize d rfl).1))
                  · rw [Machine.call, mcoCreate_eq m co hcb.1 hcb.2 hval]
                  · simp [View.call, hcb, hval]
                · refine @Agrees.of_eq m m v v _ (.created .invalidArguments none) ?_ ?_ h
                  · simp [Machine.call, Machine.mcoCreate, Machine.mcoInit, hcb, hval]
                  · simp [View.call, hcb, hval]
          · have hbad : d.allocCb = false ∨ d.deallocCb = false := by
              cases ha : d.allocCb <;> cases hb : d.deallocCb <;> simp_all
            refine @Agrees.of_eq m m v v _ (.created .invalidArguments none) ?_ ?_ h
            · simp [Machine.call, Machine.mcoCreate, hbad]
            · simp [View.call, hbad]

theorem agrees_uninit (h : Represents m v) {co : Option Addr}
    (ha : (Call.uninit co).Allowed v) : Agrees m v (.uninit co) := by
  cases co with
  | none => exact .of_eq rfl rfl h
  | some co =>
      obtain ⟨c, cell, hm, hcell, hh⟩ := h.found (ha co rfl)
      have hcall := h.mcoUninit_eq hm
      by_cases hc : co ∈ v.active
      · rw [if_pos hc] at hcall
        exact .of_eq (by rw [Machine.call, hcall]; rfl)
          (by simp [View.call, View.withCell, hcell, hc]) h
      · rw [if_neg hc] at hcall
        have hh' : Holds v.active co { c with state := .dead } { cell with finished := true } :=
          { hh with
            state := by rw [stateOf_of_notMem hc]; rfl
            unfinished := fun hm => absurd hm hc }
        exact .of_eq (by rw [Machine.call, hcall]; rfl)
          (by simp only [View.call, View.withCell, hcell, hc, if_false]) (h.set_some hc hh')

theorem agrees_destroy (h : Represents m v) {co : Option Addr}
    (ha : (Call.destroy co).Allowed v) : Agrees m v (.destroy co) := by
  cases co with
  | none => exact .of_eq rfl rfl h
  | some co =>
      obtain ⟨c, cell, hm, hcell, hh⟩ := h.found (ha co rfl)
      have hcall := h.mcoDestroy_eq hm
      by_cases hc : co ∈ v.active
      · rw [if_pos hc] at hcall
        exact .of_eq (by rw [Machine.call, hcall]; rfl)
          (by simp [View.call, View.withCell, hcell, hc]) h
      · rw [if_neg hc] at hcall
        exact .of_eq (by rw [Machine.call, hcall]; rfl)
          (by simp only [View.call, View.withCell, hcell, hc, if_false]) (h.set_none hc)

theorem agrees_resume (h : Represents m v) {co : Option Addr}
    (ha : (Call.resume co).Allowed v) : Agrees m v (.resume co) := by
  cases co with
  | none => exact .of_eq rfl rfl h
  | some co =>
      obtain ⟨c, cell, hm, hcell, hh⟩ := h.found (ha co rfl)
      have hcall := h.mcoResume_eq hm hcell
      by_cases hs : stateOf v.active co cell = .suspended
      · rw [if_pos hs] at hcall
        obtain ⟨hc, hf⟩ := stateOf_eq_suspended.1 hs
        exact .of_eq (by rw [Machine.call, hcall]; rfl)
          (by simp only [View.call, View.withCell, hcell, hs, if_true])
          (h.pushed hcell hh hc hf)
      · rw [if_neg hs] at hcall
        exact .of_eq (by rw [Machine.call, hcall]; rfl)
          (by simp only [View.call, View.withCell, hcell, hs, if_false]) h

theorem agrees_yield (h : Represents m v) {co : Option Addr} {dummy : Addr}
    (ha : (Call.yield co dummy).Allowed v) : Agrees m v (.yield co dummy) := by
  cases co with
  | none => exact .of_eq rfl rfl h
  | some co =>
      obtain ⟨c, cell, hm, hcell, hh⟩ := h.found (ha co rfl)
      have hcall := h.mcoYield_eq hm hcell dummy
      by_cases ho : dummy < cell.stackBase ∨ cell.stackBase + cell.stackSize < dummy
      · rw [if_pos ho] at hcall
        exact .of_eq (by rw [Machine.call, hcall]; rfl)
          (by simp only [View.call, View.withCell, hcell, ho, if_true]) h
      · rw [if_neg ho] at hcall
        by_cases hr : v.active.head? = some co
        · rw [if_pos hr] at hcall
          obtain ⟨rest, hv⟩ : ∃ rest, v.active = co :: rest := List.head?_eq_some_iff.1 hr
          have hf : cell.finished = false := hh.unfinished (by rw [hv]; exact List.mem_cons_self)
          have hpop := h.popped hcell hh hv false
          have hcell' : { cell with finished := false } = cell := by
            cases cell
            cases hf
            rfl
          rw [hcell'] at hpop
          rw [hv] at hcall
          exact .of_eq (by rw [Machine.call, hcall]; rfl)
            (by simp only [View.call, View.withCell, hcell, ho, hv, List.head?_cons, if_true,
              if_false, List.tail_cons]) hpop
        · rw [if_neg hr] at hcall
          exact .of_eq (by rw [Machine.call, hcall]; rfl)
            (by simp only [View.call, View.withCell, hcell, ho, hr, if_false]) h

theorem agrees_finish (h : Represents m v) : Agrees m v .finish := by
  cases hv : v.active with
  | nil =>
      have hex : m.executing = none := by rw [h.executing, hv]; rfl
      exact .of_eq (by rw [Machine.call, hex]) (by rw [View.call, hv]) h
  | cons co rest =>
      have hex : m.executing = some co := by rw [h.executing, hv]; rfl
      obtain ⟨c, hm⟩ := h.mem_allocated (show co ∈ v.active by rw [hv]; exact List.mem_cons_self)
      obtain ⟨cell, hcell, hh⟩ := h.holds co c hm
      refine @Agrees.of_eq m _ v _ _ .switched ?_ ?_ (h.popped hcell hh hv true)
      · rw [Machine.call, hex]
        simp only [h.mcoMain_eq hm hv, Machine.settle]
        rfl
      · rw [View.call, hv]
        simp only [View.withCell, hcell]

/-- A call that only looks at a coroutine. -/
theorem agrees_look {x : Option Addr → Call} {α : Type} {f : Option Addr → Except Fault α}
    {answer : α → Answer} {null : Answer} {look : Addr → Cell → Answer}
    (hcall : ∀ co, m.call (x co) = m.settle (fun a => (answer a, m)) (f co))
    (hview : ∀ co, v.call (x co) = v.withCell co null fun co cell => (look co cell, v))
    (hnull : (f none).map answer = .ok null) (h : Represents m v) {co : Option Addr}
    (hlook : ∀ a c cell, co = some a → m.coros a = some c → v.cells a = some cell →
      Holds v.active a c cell → (f (some a)).map answer = .ok (look a cell))
    (ha : ∀ a, co = some a → v.cells a ≠ none) : Agrees m v (x co) := by
  cases co with
  | none =>
      refine @Agrees.of_eq m m v v _ null ?_ (by rw [hview, View.withCell]) h
      rw [hcall]
      cases hf : f none with
      | error e => rw [hf] at hnull; cases hnull
      | ok a =>
          rw [hf, Except.map, Except.ok.injEq] at hnull
          rw [Machine.settle, hnull]
  | some a =>
      obtain ⟨c, cell, hm, hcell, hh⟩ := h.found (ha a rfl)
      have hl := hlook a c cell rfl hm hcell hh
      refine @Agrees.of_eq m m v v _ (look a cell) ?_ (by simp only [hview, View.withCell, hcell]) h
      rw [hcall]
      cases hf : f (some a) with
      | error e => rw [hf] at hl; cases hl
      | ok b =>
          rw [hf, Except.map, Except.ok.injEq] at hl
          rw [Machine.settle, hl]

theorem agrees_status (h : Represents m v) {co : Option Addr}
    (ha : (Call.status co).Allowed v) : Agrees m v (.status co) := by
  refine agrees_look (fun _ => rfl) (fun _ => rfl) rfl h ?_ ha
  intro a c cell _ hm hcell hh
  simp [Machine.mcoStatus, Machine.deref_eq hm, Except.map, hh.state]

theorem agrees_userData (h : Represents m v) {co : Option Addr}
    (ha : (Call.userData co).Allowed v) : Agrees m v (.userData co) := by
  refine agrees_look (fun _ => rfl) (fun _ => rfl) rfl h ?_ ha
  intro a c cell _ hm hcell hh
  simp [Machine.mcoGetUserData, Machine.deref_eq hm, Except.map, hh.userData]

theorem agrees_bytesStored (h : Represents m v) {co : Option Addr}
    (ha : (Call.bytesStored co).Allowed v) : Agrees m v (.bytesStored co) := by
  refine agrees_look (fun _ => rfl) (fun _ => rfl) rfl h ?_ ha
  intro a c cell _ hm hcell hh
  simp [Machine.mcoGetBytesStored, Machine.deref_eq hm, Except.map, hh.bytesStored_eq]

theorem agrees_storageSize (h : Represents m v) {co : Option Addr}
    (ha : (Call.storageSize co).Allowed v) : Agrees m v (.storageSize co) := by
  refine agrees_look (fun _ => rfl) (fun _ => rfl) rfl h ?_ ha
  intro a c cell _ hm hcell hh
  simp [Machine.mcoGetStorageSize, Machine.deref_eq hm, Except.map, hh.storageSize]

/-- A positive size. -/
theorem size_pos (len : Size) : len > 0 ↔ len ≠ 0#64 := BitVec.pos_iff_ne_zero len

theorem Holds.no_bytes (h : Holds active co c cell) {len : Size} :
    len > c.bytesStored ↔ cell.content.length < len.toNat := by
  rw [gt_iff_lt, BitVec.lt_def, h.stored]

/-- Where the last bytes of the content start. -/
theorem Holds.kept (h : Holds active co c cell) {len : Size}
    (hl : len.toNat ≤ cell.content.length) :
    (c.bytesStored - len).toNat = cell.content.length - len.toNat := by
  rw [BitVec.toNat_sub_of_le (BitVec.le_def.2 (by rwa [h.stored])), h.stored]

theorem agrees_peek (h : Represents m v) {co : Option Addr} {dest : Bool} {len : Size}
    (ha : (Call.peek co dest len).Allowed v) : Agrees m v (.peek co dest len) := by
  refine @agrees_look m v (fun co => .peek co dest len) _ (fun co => m.mcoPeek co dest len)
    (fun r => .copied r.1 r.2) (.copied .invalidCoroutine []) (fun _ cell =>
      if len = 0 then .copied .success []
      else if cell.content.length < len.toNat then .copied .notEnoughSpace []
      else if dest = false then .copied .invalidPointer []
      else .copied .success (cell.content.drop (cell.content.length - len.toNat)))
    (fun _ => rfl) ?_ rfl h co ?_ ha
  · intro co
    simp only [View.call]
    congr 1
    funext _ cell
    split_ifs <;> rfl
  · intro a c cell _ hm hcell hh
    simp only [Machine.mcoPeek, Machine.deref_eq hm, bind, Except.bind, size_pos, not_not,
      hh.no_bytes]
    by_cases h0 : len = 0#64
    · simp [h0, Except.map]
    · by_cases hn : cell.content.length < len.toNat
      · simp [h0, hn, Except.map]
      · have hl : len.toNat ≤ cell.content.length := by omega
        cases dest with
        | false => simp [h0, hn, Except.map]
        | true => simp [h0, hn, Except.map, hh.kept hl, hh.copyOut hl]

theorem agrees_push (h : Represents m v) {co : Option Addr} {src : Option (List Byte)} {len : Size}
    (ha : (Call.push co src len).Allowed v) : Agrees m v (.push co src len) := by
  obtain ⟨hco, hlen, hsrc⟩ := ha
  cases co with
  | none => exact .of_eq rfl rfl h
  | some co =>
      obtain ⟨c, cell, hm, hcell, hh⟩ := h.found (hco co rfl)
      obtain ⟨hsum, hfits⟩ := hh.push_fits hlen
      by_cases h0 : len = 0#64
      · refine @Agrees.of_eq m m v v _ (.result .success) ?_ ?_ h
        · simp [Machine.call, Machine.mcoPush, h0, Machine.settle]
        · simp [View.call, View.withCell, hcell, h0]
      · by_cases hn : cell.capacity.toNat < cell.content.length + len.toNat
        · refine @Agrees.of_eq m m v v _ (.result .notEnoughSpace) ?_ ?_ h
          · simp [Machine.call, Machine.mcoPush, h0, Machine.settle, Machine.deref_eq hm, bind,
              Except.bind, hfits.2 hn]
          · simp [View.call, View.withCell, hcell, h0, hn]
        · have hn' : ¬ c.bytesStored + len > c.storageSize := fun hc => hn (hfits.1 hc)
          cases src with
          | none =>
              refine @Agrees.of_eq m m v v _ (.result .invalidPointer) ?_ ?_ h
              · simp [Machine.call, Machine.mcoPush, h0, Machine.settle, Machine.deref_eq hm,
                  bind, Except.bind, hn']
              · simp [View.call, View.withCell, hcell, h0, hn]
          | some src =>
              have hl := hsrc src rfl
              have hcap := hh.capacity
              have hh' : Holds v.active co
                  { c with
                    storage := Machine.copyIn c.storage c.bytesStored.toNat src len.toNat
                    bytesStored := c.bytesStored + len }
                  { cell with content := cell.content ++ src } :=
                { hh with
                  stored := by rw [hsum, List.length_append, hl]
                  bytes := by
                    intro i hi
                    change Machine.copyIn c.storage c.bytesStored.toNat src len.toNat i = _
                    rw [hh.stored, ← hl]
                    exact hh.copyIn hi
                  capacity := by
                    refine ⟨?_, hcap.2⟩
                    rw [List.length_append, hl]
                    exact Nat.le_of_not_lt hn }
              refine @Agrees.of_eq m _ v _ _ (.result .success) ?_ ?_ (h.update hm hh' rfl rfl)
              · simp [Machine.call, Machine.mcoPush, h0, Machine.settle, Machine.deref_eq hm,
                  bind, Except.bind, hn']
              · simp [View.call, View.withCell, hcell, h0, hn]

theorem View.set_self (hcell : v.cells co = some cell) : v.set co (some cell) = v := by
  unfold View.set
  congr 1
  funext a
  by_cases ha : a = co
  · rw [if_pos ha, ha, hcell]
  · rw [if_neg ha]

theorem agrees_pop (h : Represents m v) {co : Option Addr} {dest : Bool} {len : Size}
    (ha : (Call.pop co dest len).Allowed v) : Agrees m v (.pop co dest len) := by
  cases co with
  | none => exact .of_eq rfl rfl h
  | some co =>
      obtain ⟨c, cell, hm, hcell, hh⟩ := h.found (ha co rfl)
      by_cases h0 : len = 0#64
      · subst h0
        refine @Agrees.of_eq m m v v _ (.copied .success []) ?_ ?_ h
        · simp [Machine.call, Machine.mcoPop, Machine.settle]
        · simp [View.call, View.withCell, hcell, View.set_self hcell]
      · by_cases hn : cell.content.length < len.toNat
        · refine @Agrees.of_eq m m v v _ (.copied .notEnoughSpace []) ?_ ?_ h
          · simp [Machine.call, Machine.mcoPop, h0, Machine.settle, Machine.deref_eq hm, bind,
              Except.bind, hh.no_bytes.2 hn]
          · simp [View.call, View.withCell, hcell, hn]
        · have hl : len.toNat ≤ cell.content.length := by omega
          have hn' : ¬ len > c.bytesStored := fun hc => hn (hh.no_bytes.1 hc)
          have hcap := hh.capacity
          have hh' : Holds v.active co { c with bytesStored := c.bytesStored - len }
              { cell with content := cell.content.take (cell.content.length - len.toNat) } :=
            { hh with
              stored := by
                rw [hh.kept hl, List.length_take]
                omega
              bytes := by
                intro i hi
                rw [List.getElem_take]
                exact hh.bytes i _
              capacity := by
                exact ⟨le_trans (List.length_take_le' _ _) hcap.1, hcap.2⟩ }
          refine @Agrees.of_eq m _ v _ _
            (.copied .success
              (if dest then cell.content.drop (cell.content.length - len.toNat) else [])) ?_ ?_
            (h.update hm hh' rfl rfl)
          · cases dest <;> simp [Machine.call, Machine.mcoPop, h0, Machine.settle,
              Machine.deref_eq hm, bind, Except.bind, hn', hh.kept hl, hh.copyOut hl]
          · simp [View.call, View.withCell, hcell, hn]

/-- **Each call** on the library does what it does to the stack. -/
theorem agrees (h : Represents m v) {x : Call} (ha : x.Allowed v) : Agrees m v x := by
  cases x with
  | create outCo desc mem => exact agrees_create h ha
  | uninit co => exact agrees_uninit h ha
  | destroy co => exact agrees_destroy h ha
  | resume co => exact agrees_resume h ha
  | yield co dummy => exact agrees_yield h ha
  | finish => exact agrees_finish h
  | status co => exact agrees_status h ha
  | running => exact .of_eq rfl (by rw [Machine.mcoRunning, h.current]; rfl) h
  | userData co => exact agrees_userData h ha
  | push co src len => exact agrees_push h ha
  | pop co dest len => exact agrees_pop h ha
  | peek co dest len => exact agrees_peek h ha
  | bytesStored co => exact agrees_bytesStored h ha
  | storageSize co => exact agrees_storageSize h ha

theorem simulates : Clients.Simulates Machine.call View.call Represents
    fun v x => x.Allowed v where
  answer _ _ _ hr ha := (agrees hr ha).1
  next _ _ _ hr ha := (agrees hr ha).2

/-! ### Programs -/

/-- A program of coroutines: the next call of the code that executes, by the answers so far. -/
abbrev Program := Clients.Client Call Answer

theorem withCell_ne_fault {co : Option Addr} {null : Answer} {body : Addr → Cell → Answer × View}
    {f : Fault} (hco : ∀ a, co = some a → v.cells a ≠ none) (hnull : null ≠ .fault f)
    (hbody : ∀ a cell, (body a cell).1 ≠ .fault f) : (v.withCell co null body).1 ≠ .fault f := by
  unfold View.withCell
  cases co with
  | none => exact hnull
  | some a =>
      obtain ⟨cell, hcell⟩ := Option.ne_none_iff_exists'.1 (hco a rfl)
      simp only [hcell]
      exact hbody a cell

/-- The stack faults on no allowed call. -/
theorem call_ne_fault {x : Call} (h : Represents m v) (ha : x.Allowed v) (f : Fault) :
    (v.call x).1 ≠ .fault f := by
  cases x with
  | create outCo desc mem =>
      simp only [View.call]
      split_ifs
      · simp
      · cases desc with
        | none => simp
        | some d =>
            dsimp only
            cases mem with
            | none => split_ifs <;> simp
            | some co => split_ifs <;> simp
  | finish =>
      simp only [View.call]
      cases hv : v.active with
      | nil => simp
      | cons co rest =>
          have hco : co ∈ v.active := by rw [hv]; exact List.mem_cons_self
          obtain ⟨c, hm⟩ := h.mem_allocated hco
          obtain ⟨cell, hcell, -⟩ := h.holds co c hm
          refine withCell_ne_fault ?_ (by simp) fun _ _ => by simp
          rintro a ⟨⟩
          rw [hcell]
          simp
  | running => simp [View.call]
  | push co src len =>
      refine withCell_ne_fault ha.1 (by simp) fun _ _ => ?_
      split_ifs
      · simp
      · simp
      · cases src <;> simp
  | uninit co | destroy co | resume co | yield co dummy | pop co dest len | peek co dest len =>
      refine withCell_ne_fault ha (by simp) fun _ _ => ?_
      split_ifs <;> simp
  | status co | userData co | bytesStored co | storageSize co =>
      exact withCell_ne_fault ha (by simp) fun _ _ => by simp

/-! ### The blocks -/

namespace View.InBlocks

theorem set (h : v.InBlocks) (hb : cell.InBlock co) : (v.set co (some cell)).InBlocks := by
  intro a cell' ha
  rw [cells_set] at ha
  split_ifs at ha with heq
  · obtain rfl := Option.some.inj ha
    exact heq ▸ hb
  · exact h a cell' ha

theorem set_none (h : v.InBlocks) : (v.set co none).InBlocks := by
  intro a cell ha
  rw [cells_set] at ha
  split_ifs at ha
  exact h a cell ha

theorem pop (h : v.InBlocks) (hb : cell.InBlock co) (rest : List Addr) :
    (v.pop co cell rest).InBlocks := fun a cell' ha => h.set hb a cell' ha

theorem withCell (h : v.InBlocks) {co : Option Addr} {null : Answer}
    {body : Addr → Cell → Answer × View}
    (hbody : ∀ a cell, cell.InBlock a → (body a cell).2.InBlocks) :
    (v.withCell co null body).2.InBlocks := by
  unfold View.withCell
  cases co with
  | none => exact h
  | some a =>
      dsimp only
      cases hcell : v.cells a with
      | none => exact h
      | some cell => exact hbody a cell (h a cell hcell)

/-- **Each call** leaves the coroutines inside of their blocks: no size changes behind the
creation. -/
theorem call (h : v.InBlocks) {x : Call} (ha : x.Allowed v) : (v.call x).2.InBlocks := by
  cases x with
  | create outCo desc mem =>
      simp only [View.call]
      split_ifs
      · exact h
      · cases desc with
        | none => exact h
        | some d =>
            cases mem with
            | none =>
                dsimp only
                split_ifs
                · exact h
                · exact h
            | some co =>
                dsimp only
                split_ifs with hcb hval
                · exact h
                · have hl := (ha.2 d rfl).2 co rfl hval
                  exact h.set ⟨hl.stack, hl.fits⟩
                · exact h
  | finish =>
      simp only [View.call]
      cases v.active with
      | nil => exact h
      | cons co rest =>
          refine h.withCell fun a cell hb => ?_
          have hb' : Cell.InBlock a { cell with finished := true } := ⟨hb.storage, hb.stack⟩
          exact h.pop hb' rest
  | running => exact h
  | resume co =>
      refine h.withCell fun a cell hb => ?_
      split_ifs
      · exact h
      · exact h
  | destroy co =>
      refine h.withCell fun a cell hb => ?_
      split_ifs
      · exact h
      · exact h.set_none
  | uninit co =>
      refine h.withCell fun a cell hb => ?_
      split_ifs
      · exact h
      · exact h.set ⟨hb.storage, hb.stack⟩
  | yield co dummy =>
      refine h.withCell fun a cell hb => ?_
      split_ifs
      · exact h
      · exact h.pop hb _
      · exact h
  | push co src len =>
      refine h.withCell fun a cell hb => ?_
      split_ifs
      · exact h
      · exact h
      · cases src with
        | none => exact h
        | some bytes => exact h.set ⟨hb.storage, hb.stack⟩
  | pop co dest len =>
      refine h.withCell fun a cell hb => ?_
      split_ifs
      · exact h
      · exact h.set ⟨hb.storage, hb.stack⟩
      · exact h.set ⟨hb.storage, hb.stack⟩
  | peek co dest len =>
      refine h.withCell fun a cell hb => ?_
      split_ifs <;> exact h
  | status co | userData co | bytesStored co | storageSize co => exact h.withCell fun _ _ _ => h

end View.InBlocks

/-- **No program can tell the library from a stack of activations**: it sees the same answers, and
no fault among them; the coroutine that the library believes to run is the one that executes, and
every coroutine is inside of its block. -/
theorem play_eq (p : Program) (n : ℕ)
    (h : Clients.Keeps View.call (fun v x => x.Allowed v) p n ([], View.empty)) :
    (Clients.play Machine.call p n ([], Machine.boot)).1 =
        (Clients.play View.call p n ([], View.empty)).1 ∧
      (∀ f, .fault f ∉ (Clients.play Machine.call p n ([], Machine.boot)).1) ∧
      (Clients.play Machine.call p n ([], Machine.boot)).2.mcoRunning =
        (Clients.play Machine.call p n ([], Machine.boot)).2.executing ∧
      Represents (Clients.play Machine.call p n ([], Machine.boot)).2
        (Clients.play View.call p n ([], View.empty)).2 ∧
      (Clients.play View.call p n ([], View.empty)).2.InBlocks := by
  obtain ⟨hseen, hrep⟩ := simulates.play represents_boot h
  have hblocks := h.invariant (fun _ _ hi ha => View.InBlocks.call hi ha)
    (fun co cell hc => by cases hc)
  refine ⟨hseen, ?_, hrep.current.trans hrep.executing.symm, hrep, hblocks⟩
  intro f hf
  rw [hseen] at hf
  have hall := h.answers (P := fun a => a ≠ .fault f) (I := fun v => ∃ m, Represents m v)
    (fun v x hi ha => hi.elim fun m hm => call_ne_fault hm ha f)
    (fun v x hi ha => hi.elim fun m hm => ⟨_, (agrees hm ha).2⟩) ⟨_, represents_boot⟩
    (fun a ha => by cases ha)
  exact hall _ hf rfl

/-- A coroutine is created and resumed, hands over two bytes, yields, and is destroyed. -/
def oneCoroutine : Program :=
  Clients.script
    [.create true (some (mcoDescInit (some 0x400000) 0x80000)) (some 0x10000),
      .resume (some 0x10000), .running, .push (some 0x10000) (some [1, 2]) 2,
      .destroy (some 0x10000), .yield (some 0x10000) 0x20000, .pop (some 0x10000) true 2,
      .destroy (some 0x10000)]

theorem play_eq_oneCoroutine :
    (Clients.play Machine.call oneCoroutine 8 ([], Machine.boot)).1 =
      (Clients.play View.call oneCoroutine 8 ([], View.empty)).1 := by
  refine (play_eq oneCoroutine 8 ?_).1
  refine ⟨⟨fun co _ => rfl, ?_⟩, ?_, trivial, ⟨?_, by decide, ?_⟩, ?_, ?_, ?_, ?_, trivial⟩
  · rintro d ⟨⟩
    refine ⟨by decide, ?_⟩
    rintro co ⟨⟩ -
    exact layout_mcoDescInit _ (by decide) (by decide)
  · rintro a ⟨⟩
    decide
  · rintro a ⟨⟩
    decide
  · rintro bytes ⟨⟩
    decide
  all_goals
    rintro a ⟨⟩
    decide

end Coro
