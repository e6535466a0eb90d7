/-
**The layout of the extension data of an object.**

One block holds all extension data of an object.  Nothing computes the layout of the block as a
whole: an offset is given out with each extension, from one total for the generic extensions and
from one for each subtype; the block is sized when the object is created, by two of the totals; and
the generic data and the data of the subtype are put together at the lookup.  When the extensions
have been registered before, these add up.

The lookup goes through the handle of the object, and `recomp_create_object_data` can answer with a
handle that does not lead to its object: all extensions of such an object are null.  An extension
has the index of its entry as its handle, unless there are more entries than indices.

Main definitions:

* `Data.ObjectMemory` — the contexts and the heap, with the functions of
  `src/game/recomp_extension_api.cpp`;
* `Data.ObjectLayout.Step`, `Data.ObjectLayout.Proper` — the calls, with the extensions first, sums
  of sizes below 2³², and an allocator that answers with fresh blocks;
* `Data.ObjectLayout.Fits` — the calls that answer with a handle that leads to what it is for;
* `Data.ObjectLayout.Layout` — **the layout of an object**;
* `Data.ObjectLayout.LayoutOk`, `Data.ObjectLayout.CallOk` — in a state, and over a call.

Main results:

* `Data.ObjectLayout.Spaced.effect` — what a registration preserves of the offsets and the totals;
* `Data.ObjectLayout.Lives.layout` — the offsets and the totals make the layout;
* `Data.ObjectLayout.TypeInv.register`, `create`, `destroy` and `clear` — what each call keeps;
* `Data.ObjectLayout.Inv.step` — the step lemma;
* `Data.ObjectLayout.layout_of_reachable` — **extension data never overlap**, in the runs of calls
  that fit;
* `Data.ObjectLayout.object_without_data` — and not in all of them.
-/

import TsaRecomp.Data.HandlesLive
import TsaRecomp.Data.ObjectData
import TsaRecomp.Data.Rdram

set_option relaxedAutoImplicit false
set_option autoImplicit false

namespace Data

/-! ### The functions -/

/-- `clear_all_object_data`, on the context of the type. -/
def ExtensionContext.clearAllObjectData (c : ExtensionContext) : ExtensionContext :=
  { c with extensionData := .empty, spawnCount := 0, allocCount := 0, freeCount := 0 }

/-- `data_ptr`, for a pointer that the allocator answers with. -/
def guestAddr (mem : ℕ) : BitVec 32 := (addrOf mem).setWidth 32

/-- The contexts, and the heap. -/
structure ObjectMemory where
  extensions : Extensions
  heap : Heap

namespace ObjectMemory

variable (s : ObjectMemory)

/-- `recomp_create_object_data`, where `recomp::alloc` answers with `mem`. -/
def createObjectData (typeIndex subtypeIndex mem : ℕ) : Option (ℕ × ObjectMemory) := do
  let c ← s.extensions.typeContexts[typeIndex]?
  let dataPtr := guestAddr mem
  let (key, extensions) ← s.extensions.createObjectData typeIndex subtypeIndex dataPtr.toNat
  let allocSize := c.allocSize subtypeIndex
  let heap := s.heap.alloc allocSize mem
  let rdram := zeroLoop (dataPtr.signExtend 64) allocSize 0 heap.rdram
  some (key, {
    extensions
    heap := if allocSize ≠ 0 then { heap with rdram } else s.heap })

/-- `recomp_destroy_object_data` -/
def destroyObjectData (typeIndex objectHandle : ℕ) : Option ObjectMemory := do
  let extensions ← s.extensions.destroyObjectData typeIndex objectHandle
  some {
    extensions
    heap := match (s.extensions.objects typeIndex).getImpl objectHandle with
      | some data =>
          if data.value.dataAddr ≠ 0 then s.heap.free (toPtr (BitVec.ofNat 32 data.value.dataAddr))
          else s.heap
      | none => s.heap }

/-- `recomp_clear_all_object_data` -/
def clearAllObjectData (typeIndex : ℕ) : Option ObjectMemory := do
  let c ← s.extensions.typeContexts[typeIndex]?
  some { s with extensions := { s.extensions with
    typeContexts := s.extensions.typeContexts.set typeIndex c.clearAllObjectData } }

variable {s}

theorem createObjectData_eq_some {t : ObjectMemory} {typeIndex subtypeIndex mem h : ℕ} :
    s.createObjectData typeIndex subtypeIndex mem = some (h, t) ↔
      ∃ c, s.extensions.typeContexts[typeIndex]? = some c ∧
        h = (c.createObject subtypeIndex (guestAddr mem).toNat).1 ∧
        t = {
          extensions := ⟨s.extensions.typeContexts.set typeIndex
            (c.createObject subtypeIndex (guestAddr mem).toNat).2, false⟩
          heap := if c.allocSize subtypeIndex ≠ 0 then
              { s.heap.alloc (c.allocSize subtypeIndex) mem with
                rdram := zeroLoop ((guestAddr mem).signExtend 64) (c.allocSize subtypeIndex) 0
                  s.heap.rdram }
            else s.heap } := by
  unfold createObjectData Extensions.createObjectData
  cases hc : s.extensions.typeContexts[typeIndex]? with
  | none => simp
  | some c => simp [eq_comm, Heap.alloc]

theorem destroyObjectData_eq_some {t : ObjectMemory} {typeIndex objectHandle : ℕ}
    (h : s.destroyObjectData typeIndex objectHandle = some t) :
    s.extensions.destroyObjectData typeIndex objectHandle = some t.extensions := by
  unfold destroyObjectData at h
  cases hd : s.extensions.destroyObjectData typeIndex objectHandle with
  | none => simp [hd] at h
  | some u =>
      rw [hd] at h
      obtain rfl := Option.some.inj h
      rfl

/-- The heap behind a `destroy`. -/
theorem heap_destroyObjectData {t : ObjectMemory} {typeIndex objectHandle : ℕ}
    (h : s.destroyObjectData typeIndex objectHandle = some t) :
    t.heap = match (s.extensions.objects typeIndex).getImpl objectHandle with
      | some data =>
          if data.value.dataAddr ≠ 0 then s.heap.free (toPtr (BitVec.ofNat 32 data.value.dataAddr))
          else s.heap
      | none => s.heap := by
  unfold destroyObjectData at h
  cases hd : s.extensions.destroyObjectData typeIndex objectHandle with
  | none => simp [hd] at h
  | some u =>
      rw [hd] at h
      obtain rfl := Option.some.inj h
      rfl

/-- Nothing is freed where nothing is allocated. -/
theorem exists_destroyObjectData {typeIndex : ℕ} {c : ExtensionContext}
    (hc : s.extensions.typeContexts[typeIndex]? = some c) (objectHandle : ℕ)
    (hblocks : s.heap.blocks = []) : ∃ t, s.destroyObjectData typeIndex objectHandle = some t ∧
      t.extensions.typeContexts[typeIndex]? = some (c.destroyObject objectHandle) ∧
        t.heap.blocks = [] := by
  have hself := Extensions.getElem?_set_self hc (c.destroyObject objectHandle)
  have hd := Extensions.destroyObjectData_eq_some.2 ⟨c, hc, @rfl _ { s.extensions with
    typeContexts := s.extensions.typeContexts.set typeIndex (c.destroyObject objectHandle) }⟩
  unfold destroyObjectData
  rw [hd]
  refine ⟨_, rfl, hself, ?_⟩
  dsimp only
  split
  · split_ifs
    · simp [Heap.free, hblocks]
    · exact hblocks
  · exact hblocks

theorem clearAllObjectData_eq_some {t : ObjectMemory} {typeIndex : ℕ} :
    s.clearAllObjectData typeIndex = some t ↔
      ∃ c, s.extensions.typeContexts[typeIndex]? = some c ∧
        t = { s with extensions := { s.extensions with
          typeContexts := s.extensions.typeContexts.set typeIndex c.clearAllObjectData } } := by
  unfold clearAllObjectData
  cases hc : s.extensions.typeContexts[typeIndex]? with
  | none => simp
  | some c => simp [eq_comm]

end ObjectMemory

namespace ObjectLayout

/-! ### Runs -/

/-- An extension, as it has been registered. -/
structure Registered where
  handle : ℕ
  /-- The subtype, unless the extension is generic. -/
  subtypeIndex : Option ℕ
  size : ℕ
  deriving DecidableEq, Repr

/-- An object, with the block that has been allocated for it: without one, `base` is null. -/
structure Object where
  subtypeIndex : ℕ
  handle : ℕ
  base : ℕ
  size : ℕ
  deriving DecidableEq, Repr

/-- The object that a context makes, where `recomp::alloc` answers with `mem`. -/
def Object.of (c : ExtensionContext) (subtypeIndex mem handle : ℕ) : Object where
  subtypeIndex := subtypeIndex
  handle := handle
  base := c.dataPtr subtypeIndex (guestAddr mem).toNat
  size := c.allocSize subtypeIndex

/-- What has been done to a type: its extensions in the order of their registration, the objects
that there are, and the ones that have been destroyed. -/
structure Record where
  registered : List Registered
  objects : List Object
  destroyed : List Object
  deriving DecidableEq, Repr

structure Trace where
  memory : ObjectMemory
  record : ℕ → Record

/-- The state behind `init_extended_object_data`. -/
structure Init (s : Trace) : Prop where
  extensions : ∃ numTypes, s.memory.extensions = .initExtendedObjectData numTypes
  blocks : s.memory.heap.blocks = []
  record : ∀ typeIndex, s.record typeIndex = ⟨[], [], []⟩

/-- A call on a type. -/
inductive Call
  | register (subtypeIndex size : ℕ)
  | registerGeneric (size : ℕ)
  | create (subtypeIndex mem : ℕ)
  | destroy (objectHandle : ℕ)
  | clear
  deriving DecidableEq, Repr

/-- A handle is the handle of an object, whatever its tag. -/
def Object.Has (o : Object) (objectHandle : ℕ) : Prop :=
  Key.toIndex objectHandle = Key.toIndex o.handle ∧
    Key.toVersion objectHandle = Key.toVersion o.handle

instance (o : Object) (objectHandle : ℕ) : Decidable (o.Has objectHandle) :=
  inferInstanceAs (Decidable (_ ∧ _))

namespace Record

variable (r : Record)

/-- An extension is registered. -/
def extend (handle : ℕ) (subtypeIndex : Option ℕ) (size : ℕ) : Record :=
  { r with registered := r.registered ++ [⟨handle, subtypeIndex, size⟩] }

def create (o : Object) : Record := { r with objects := o :: r.objects }

def destroy (objectHandle : ℕ) : Record :=
  { r with
    objects := r.objects.filter fun o => ¬ o.Has objectHandle
    destroyed := r.objects.filter (fun o => o.Has objectHandle) ++ r.destroyed }

def clear : Record := { r with objects := [], destroyed := [] }

/-- The sizes of the extensions, with the one of the dummy extension. -/
def sizes : List ℕ := 0 :: r.registered.map Registered.size

end Record

/-- The state behind a call. -/
def Trace.next (s : Trace) (typeIndex : ℕ) (memory : ObjectMemory) (record : Record) : Trace where
  memory := memory
  record := Function.update s.record typeIndex record

/-- A call that returns. -/
def Step (s : Trace) : ℕ × Call → Trace → Prop
  | (typeIndex, .register subtypeIndex size), t => ∃ h u,
      s.memory.extensions.registerObjectExtension typeIndex subtypeIndex size = some (h, u) ∧
        t = s.next typeIndex { s.memory with extensions := u }
          ((s.record typeIndex).extend h (some subtypeIndex) size)
  | (typeIndex, .registerGeneric size), t => ∃ h u,
      s.memory.extensions.registerObjectExtensionGeneric typeIndex size = some (h, u) ∧
        t = s.next typeIndex { s.memory with extensions := u }
          ((s.record typeIndex).extend h none size)
  | (typeIndex, .create subtypeIndex mem), t => ∃ c h u,
      s.memory.extensions.typeContexts[typeIndex]? = some c ∧
      s.memory.createObjectData typeIndex subtypeIndex mem = some (h, u) ∧
        t = s.next typeIndex u ((s.record typeIndex).create (.of c subtypeIndex mem h))
  | (typeIndex, .destroy objectHandle), t => ∃ u,
      s.memory.destroyObjectData typeIndex objectHandle = some u ∧
        t = s.next typeIndex u ((s.record typeIndex).destroy objectHandle)
  | (typeIndex, .clear), t => ∃ u,
      s.memory.clearAllObjectData typeIndex = some u ∧
        t = s.next typeIndex u (s.record typeIndex).clear

/-- Every extension is registered before the first object is created, the sums of the sizes are
below 2³², and the allocator answers with fresh blocks. -/
def Call.Proper (s : ObjectMemory) (c : ExtensionContext) : Call → Prop
  | .register subtypeIndex size =>
      c.genericDataSize + c.subtypeSize subtypeIndex + ceil16 size < 2 ^ 32
  | .registerGeneric size => s.extensions.canRegister = true ∧
      ∀ subtypeIndex, c.genericDataSize + c.subtypeSize subtypeIndex + ceil16 size < 2 ^ 32
  | .create subtypeIndex mem =>
      c.allocSize subtypeIndex ≠ 0 → s.heap.Fresh (c.allocSize subtypeIndex) mem
  | .destroy _ | .clear => True

/-- The handle that the call answers with leads to what it is for: it has the index of the
extension, or the index and the version of the slot of the object. -/
def Call.Fits (c : ExtensionContext) : Call → Prop
  | .register _ _ | .registerGeneric _ => c.extensions.length < 2 ^ 32
  | .create _ _ => c.extensionData.EmplaceOk
  | .destroy _ | .clear => True

/-- A call is proper on the context of its type. -/
def Proper (s : Trace) (a : ℕ × Call) : Prop :=
  ∀ c ∈ s.memory.extensions.typeContexts[a.1]?, a.2.Proper s.memory c

/-- The handle of a call fits. -/
def Fits (s : Trace) (a : ℕ × Call) : Prop :=
  ∀ c ∈ s.memory.extensions.typeContexts[a.1]?, a.2.Fits c

/-- The states of the proper runs in which the handles fit. -/
abbrev Reachable (s : Trace) : Prop := Runs.Reach Step Init (fun s a => Proper s a ∧ Fits s a) s

/-! ### What the functions are for -/

/-- An extension that an object of a subtype has: a generic one, or one of the subtype. -/
def Registered.Serves (r : Registered) (subtypeIndex : ℕ) : Prop :=
  r.subtypeIndex = none ∨ r.subtypeIndex = some subtypeIndex

/-- `recomp_get_object_data` for an object and its subtype. -/
def Trace.get (s : Trace) (typeIndex : ℕ) (o : Object) (extensionHandle : ℕ) : Option ℕ :=
  s.memory.extensions.getObjectData typeIndex o.subtypeIndex o.handle extensionHandle

/-- **The layout of an object.** -/
structure Layout (s : Trace) (typeIndex : ℕ) (o : Object) : Prop where
  /-- The data of its extensions lie in the block of the object, at multiples of 16. -/
  inside : ∀ r ∈ (s.record typeIndex).registered, r.Serves o.subtypeIndex → ∃ offset,
    s.get typeIndex o r.handle = some (u32 (o.base + offset)) ∧ 16 ∣ offset ∧
      offset + ceil16 r.size ≤ o.size
  /-- They do not overlap. -/
  apart : ∀ r ∈ (s.record typeIndex).registered, ∀ r' ∈ (s.record typeIndex).registered,
    r.Serves o.subtypeIndex → r'.Serves o.subtypeIndex → r.handle ≠ r'.handle →
      ∀ addr addr', s.get typeIndex o r.handle = some addr →
        s.get typeIndex o r'.handle = some addr' →
          addr + ceil16 r.size ≤ addr' ∨ addr' + ceil16 r'.size ≤ addr
  /-- The handle 0 has no data. -/
  zero : s.get typeIndex o 0 = some 0
  /-- A handle that has not been registered, or for another subtype, has no data. -/
  other : ∀ extensionHandle, (∀ r ∈ (s.record typeIndex).registered,
      r.handle = extensionHandle → ¬ r.Serves o.subtypeIndex) →
    s.get typeIndex o extensionHandle = some 0

/-- **Extension data never overlap.** -/
structure LayoutOk (s : Trace) : Prop where
  objects : ∀ typeIndex, ∀ o ∈ (s.record typeIndex).objects, Layout s typeIndex o
  destroyed : ∀ typeIndex, ∀ o ∈ (s.record typeIndex).destroyed, ∀ extensionHandle,
    s.get typeIndex o extensionHandle = some 0

/-- A new object: its block has been allocated for it, and the data of its extensions are zero. -/
structure Created (s : Trace) (typeIndex mem : ℕ) (o : Object) (t : Trace) : Prop where
  objects : (t.record typeIndex).objects = o :: (s.record typeIndex).objects
  block : o.size ≠ 0 → o.base = (guestAddr mem).toNat ∧
    t.memory.heap.blocks = ⟨mem, o.size⟩ :: s.memory.heap.blocks
  zero : ∀ r ∈ (t.record typeIndex).registered, r.Serves o.subtypeIndex →
    ∀ addr, t.get typeIndex o r.handle = some addr → ∀ k < ceil16 r.size,
      t.memory.heap.rdram.readB (BitVec.ofNat 64 k) ((BitVec.ofNat 32 addr).signExtend 64) = 0

/-- What a call has to do for that. -/
structure CallOk (s : Trace) (a : ℕ × Call) (t : Trace) : Prop where
  created : ∀ typeIndex subtypeIndex mem, a = (typeIndex, .create subtypeIndex mem) →
    ∃ o, o.subtypeIndex = subtypeIndex ∧ Created s typeIndex mem o t
  after : LayoutOk t

/-! ### The offsets and the totals -/

open ObjectData (ContextInv Effect Live)

theorem dvd_ceil16 (size : ℕ) : 16 ∣ ceil16 size := Dvd.intro_left _ rfl

/-- **The three accumulators**: an extension begins behind the older ones of its subtype, and
everything is a multiple of 16. -/
structure Spaced (c : ExtensionContext) (sizes : List ℕ) : Prop where
  ordered : ∀ (e e' : ℕ) (x x' : ExtensionInfo) (size : ℕ), e < e' → c.extensions[e]? = some x →
    c.extensions[e']? = some x' → sizes[e]? = some size → x.subtypeIndex = x'.subtypeIndex →
      x.dataOffset + ceil16 size ≤ x'.dataOffset
  offset : ∀ x ∈ c.extensions, 16 ∣ x.dataOffset
  generic : 16 ∣ c.genericDataSize
  subtype : ∀ subtypeIndex, 16 ∣ c.subtypeSize subtypeIndex

namespace Spaced

variable {c c' : ExtensionContext} {a : ObjectData.Call} {sizes added : List ℕ} {canRegister : Bool}

theorem init : Spaced .init [0] where
  ordered e e' x x' size hlt _ he' := by
    have hlen := (List.getElem?_eq_some_iff.1 he').1
    simp only [ExtensionContext.init, List.length_singleton] at hlen
    omega
  offset x hx := by
    obtain rfl := List.mem_singleton.1 hx
    exact dvd_zero 16
  generic := dvd_zero 16
  subtype _ := dvd_zero 16

/-- An extension is registered at the total of its subtype. -/
theorem registered (h : Spaced c sizes) (hi : ContextInv c sizes) {x : ExtensionInfo} {size : ℕ}
    (hextensions : c'.extensions = c.extensions ++ [x])
    (hx : x.dataOffset = if x.subtypeIndex = kGenericSubtype then c.genericDataSize
      else c.subtypeSize x.subtypeIndex)
    (hgeneric : 16 ∣ c'.genericDataSize) (hsubtype : ∀ i, 16 ∣ c'.subtypeSize i) :
    Spaced c' (sizes ++ [size]) := by
  have hlen := hi.length_sizes
  refine ⟨?_, ?_, hgeneric, hsubtype⟩
  · intro e e' y y' z hlt he he' hz hsub
    rw [hextensions] at he he'
    have hlt' := (List.getElem?_eq_some_iff.1 he').1
    simp only [List.length_append, List.length_singleton] at hlt'
    rw [List.getElem?_append_left (by omega)] at he hz
    rcases Nat.lt_or_ge e' c.extensions.length with hold | hnew
    · rw [List.getElem?_append_left hold] at he'
      exact h.ordered e e' y y' z hlt he he' hz hsub
    · -- the new extension begins where the older ones end
      obtain rfl : e' = c.extensions.length := by omega
      rw [List.getElem?_concat_length] at he'
      obtain rfl := Option.some.inj he'
      rw [hx, ← hsub]
      exact hi.fits e y z he hz
  · intro y hy
    rw [hextensions] at hy
    rcases List.mem_append.1 hy with hy | hy
    · exact h.offset y hy
    · obtain rfl := List.mem_singleton.1 hy
      rw [hx]
      split_ifs
      · exact h.generic
      · exact h.subtype _

/-- An object is created or destroyed. -/
theorem congr (h : Spaced c sizes) (hextensions : c'.extensions = c.extensions)
    (hgeneric : c'.genericDataSize = c.genericDataSize) (hsizes : c'.dataSizes = c.dataSizes) :
    Spaced c' sizes := by
  refine ⟨?_, ?_, hgeneric ▸ h.generic, fun i => ?_⟩
  · rw [hextensions]
    exact h.ordered
  · rw [hextensions]
    exact h.offset
  · rw [ExtensionContext.subtypeSize, hsizes]
    exact h.subtype i

/-- **A call** keeps the offsets and the totals in order. -/
theorem effect (he : Effect canRegister c a c' added) (h : Spaced c sizes) (hi : ContextInv c sizes)
    (hp : a.Proper c) : Spaced c' (sizes ++ added) := by
  cases he with
  | @register subtypeIndex dataOffset size _ ho =>
      have htotal : c.genericDataSize + c.subtypeSize subtypeIndex + ceil16 size < 2 ^ 32 := hp
      have hsub := @ExtensionContext.subtypeSize_register c _ _ size ho (by omega)
      refine h.registered hi rfl ?_ h.generic ?_
      · dsimp only
        rw [if_neg (hi.subtypeIndex_lt ho).ne, ExtensionContext.dataOffset_eq ho]
      · intro i
        rw [hsub]
        split_ifs
        · exact Nat.dvd_add (h.subtype _) (dvd_ceil16 size)
        · exact h.subtype i
  | registerGeneric size =>
      have htotal : c.genericDataSize + c.subtypeSize 0 + ceil16 size < 2 ^ 32 := hp 0
      refine h.registered hi rfl ?_ ?_ h.subtype
      · rw [if_pos rfl]
      · rw [ExtensionContext.genericDataSize_addGeneric (by omega)]
        exact Nat.dvd_add h.generic (dvd_ceil16 size)
  | create =>
      rw [List.append_nil]
      exact h.congr rfl rfl rfl
  | destroy objectHandle =>
      rw [List.append_nil]
      obtain ⟨hextensions, hgeneric, hsizes⟩ := ObjectData.destroyObject_fields c objectHandle
      exact h.congr hextensions hgeneric hsizes
  | get =>
      rw [List.append_nil]
      exact h

end Spaced

/-- Where the data of an extension begin in the block of an object. -/
def blockOffset (c : ExtensionContext) (x : ExtensionInfo) : ℕ :=
  if x.subtypeIndex = kGenericSubtype then x.dataOffset else u32 (x.dataOffset + c.genericDataSize)

section Offsets

variable {c : ExtensionContext} {sizes : List ℕ} {e e' size size' subtypeIndex : ℕ}
  {x x' : ExtensionInfo}

/-- The data of a subtype are behind the generic data. -/
theorem blockOffset_of_ne (hi : ContextInv c sizes) (hx : c.extensions[e]? = some x)
    (hs : sizes[e]? = some size) (hne : x.subtypeIndex ≠ kGenericSubtype) :
    blockOffset c x = c.genericDataSize + x.dataOffset := by
  have hfits := hi.fits e x size hx hs
  have htotal := hi.total x.subtypeIndex
  rw [if_neg hne] at hfits
  rw [blockOffset, if_neg hne, u32_of_lt (by omega), Nat.add_comm]

theorem dvd_blockOffset (h : Spaced c sizes) (hi : ContextInv c sizes)
    (hx : c.extensions[e]? = some x) (hs : sizes[e]? = some size) : 16 ∣ blockOffset c x := by
  have hoffset := h.offset x (List.mem_of_getElem? hx)
  by_cases hg : x.subtypeIndex = kGenericSubtype
  · rwa [blockOffset, if_pos hg]
  · rw [blockOffset_of_ne hi hx hs hg]
    exact Nat.dvd_add h.generic hoffset

/-- The data end inside the block. -/
theorem blockOffset_le (hi : ContextInv c sizes) (hx : c.extensions[e]? = some x)
    (hs : sizes[e]? = some size)
    (hsub : x.subtypeIndex = kGenericSubtype ∨ x.subtypeIndex = subtypeIndex) :
    blockOffset c x + ceil16 size ≤ c.allocSize subtypeIndex := by
  rw [ExtensionContext.allocSize_eq (hi.total subtypeIndex)]
  exact hi.offset_le hx hs hsub

/-- **Two extensions of an object** are apart: in the order in which they have been registered, or
the generic one first. -/
theorem blockOffset_apart (h : Spaced c sizes) (hi : ContextInv c sizes)
    (hx : c.extensions[e]? = some x) (hx' : c.extensions[e']? = some x')
    (hs : sizes[e]? = some size) (hs' : sizes[e']? = some size')
    (hsub : x.subtypeIndex = kGenericSubtype ∨ x.subtypeIndex = subtypeIndex)
    (hsub' : x'.subtypeIndex = kGenericSubtype ∨ x'.subtypeIndex = subtypeIndex) (hlt : e < e') :
    blockOffset c x + ceil16 size ≤ blockOffset c x' ∨
      blockOffset c x' + ceil16 size' ≤ blockOffset c x := by
  have hfits := hi.fits e x size hx hs
  have hfits' := hi.fits e' x' size' hx' hs'
  have hordered := h.ordered e e' x x' size hlt hx hx' hs
  by_cases hg : x.subtypeIndex = kGenericSubtype <;> by_cases hg' : x'.subtypeIndex = kGenericSubtype
  · left
    rw [blockOffset, if_pos hg, blockOffset, if_pos hg']
    exact hordered (hg.trans hg'.symm)
  · left
    rw [if_pos hg] at hfits
    rw [blockOffset_of_ne hi hx' hs' hg', blockOffset, if_pos hg]
    omega
  · right
    rw [if_pos hg'] at hfits'
    rw [blockOffset_of_ne hi hx hs hg, blockOffset, if_pos hg']
    omega
  · left
    have hle := hordered ((hsub.resolve_left hg).trans (hsub'.resolve_left hg').symm)
    rw [blockOffset_of_ne hi hx hs hg, blockOffset_of_ne hi hx' hs' hg']
    omega

end Offsets

/-! ### An object in its context -/

/-- The record of the extensions of a context. -/
structure Recorded (c : ExtensionContext) (r : Record) : Prop where
  extension : ∀ reg ∈ r.registered, reg.handle ≠ 0 ∧ reg.subtypeIndex ≠ some kGenericSubtype ∧
    ∃ x, c.extensions[reg.handle]? = some x ∧ r.sizes[reg.handle]? = some reg.size ∧
      x.subtypeIndex = reg.subtypeIndex.getD kGenericSubtype
  registered : ∀ e x, e ≠ 0 → c.extensions[e]? = some x → ∃ reg ∈ r.registered, reg.handle = e

/-- An object that is there: its handle leads to its block. -/
structure Lives (c : ExtensionContext) (o : Object) : Prop where
  data : ∃ data, c.extensionData.resolve o.handle = some data ∧ data.dataAddr = o.base
  size : o.size = c.allocSize o.subtypeIndex
  null : o.size = 0 → o.base = 0
  block : o.size ≠ 0 → 2 ^ 31 ≤ o.base ∧ o.base + o.size ≤ 2 ^ 32

theorem Registered.serves_iff {reg : Registered} {x : ExtensionInfo} {subtypeIndex : ℕ}
    (hne : reg.subtypeIndex ≠ some kGenericSubtype)
    (hx : x.subtypeIndex = reg.subtypeIndex.getD kGenericSubtype) :
    reg.Serves subtypeIndex ↔
      x.subtypeIndex = kGenericSubtype ∨ x.subtypeIndex = subtypeIndex := by
  unfold Serves
  rw [hx]
  cases hsub : reg.subtypeIndex with
  | none => simp
  | some i =>
      rw [hsub] at hne
      simpa using fun h => absurd h (fun e => hne (congrArg some e))

section Object

variable {c : ExtensionContext} {r : Record} {o : Object} {e : ℕ} {x : ExtensionInfo}

/-- The address of the data of an extension. -/
theorem Lives.objectAddress (h : Lives c o) (hi : ContextInv c r.sizes) (h0 : e ≠ 0)
    (hx : c.extensions[e]? = some x)
    (hsub : x.subtypeIndex = kGenericSubtype ∨ x.subtypeIndex = o.subtypeIndex) :
    c.objectAddress o.subtypeIndex o.handle e = u32 (o.base + blockOffset c x) :=
  Live.objectAddress ⟨h.data, rfl, rfl⟩ hi.slots h0 hx hsub

/-- What is apart in the block is apart in memory.  Without a size, the end of the block may be the
address 2³², which is null. -/
theorem Lives.apart (h : Lives c o) {offset size offset' size' : ℕ}
    (hend : offset + size ≤ o.size) (hend' : offset' + size' ≤ o.size)
    (hapart : offset + size ≤ offset' ∨ offset' + size' ≤ offset) :
    u32 (o.base + offset) + size ≤ u32 (o.base + offset') ∨
      u32 (o.base + offset') + size' ≤ u32 (o.base + offset) := by
  have hblock := h.block
  have hnull := h.null
  unfold u32
  by_cases h0 : o.size = 0
  · left
    omega
  · obtain ⟨hlo, hhi⟩ := hblock h0
    omega

end Object

/-- **The layout**, by the offsets and the totals. -/
theorem Lives.layout {s : Trace} {typeIndex : ℕ} {c : ExtensionContext} {o : Object}
    (hc : s.memory.extensions.typeContexts[typeIndex]? = some c)
    (hi : ContextInv c (s.record typeIndex).sizes) (hsp : Spaced c (s.record typeIndex).sizes)
    (hr : Recorded c (s.record typeIndex)) (h : Lives c o) : Layout s typeIndex o := by
  have hget : ∀ e, s.get typeIndex o e = some (c.objectAddress o.subtypeIndex o.handle e) := by
    intro e
    rw [Trace.get, Extensions.getObjectData, hc]
    rfl
  refine ⟨?_, ?_, ?_, ?_⟩
  · intro reg hreg hserves
    obtain ⟨h0, hne, x, hx, hs, hsub⟩ := hr.extension reg hreg
    have hx' := (Registered.serves_iff hne hsub).1 hserves
    refine ⟨blockOffset c x, ?_, dvd_blockOffset hsp hi hx hs, ?_⟩
    · rw [hget, h.objectAddress hi h0 hx hx']
    · rw [h.size]
      exact blockOffset_le hi hx hs hx'
  · intro reg hreg reg' hreg' hserves hserves' hne addr addr' haddr haddr'
    obtain ⟨h0, hgen, x, hx, hs, hsub⟩ := hr.extension reg hreg
    obtain ⟨h0', hgen', x', hx', hs', hsub'⟩ := hr.extension reg' hreg'
    have hin := (Registered.serves_iff hgen hsub).1 hserves
    have hin' := (Registered.serves_iff hgen' hsub').1 hserves'
    rw [hget, Option.some_inj, h.objectAddress hi h0 hx hin] at haddr
    rw [hget, Option.some_inj, h.objectAddress hi h0' hx' hin'] at haddr'
    rw [← haddr, ← haddr']
    refine h.apart (h.size ▸ blockOffset_le hi hx hs hin) (h.size ▸ blockOffset_le hi hx' hs' hin')
      ?_
    rcases Nat.lt_or_gt_of_ne hne with hlt | hgt
    · exact blockOffset_apart hsp hi hx hx' hs hs' hin hin' hlt
    · exact (blockOffset_apart hsp hi hx' hx hs' hs hin' hin hgt).symm
  · rw [hget]
    rfl
  · intro e hother
    rw [hget, Option.some_inj]
    by_contra hne
    obtain ⟨h0, -, x, hx, hsub⟩ := ObjectData.getImpl_of_objectAddress hne
    obtain ⟨reg, hreg, rfl⟩ := hr.registered e x h0 hx
    obtain ⟨-, hgen, x', hx', -, hsub'⟩ := hr.extension reg hreg
    obtain rfl := Option.some.inj (hx.symm.trans hx')
    exact hother reg hreg rfl ((Registered.serves_iff hgen hsub').2 hsub)

/-! ### The invariant -/

/-- What a call does to the context of its type, and to the record. -/
inductive Change (canRegister : Bool) (c : ExtensionContext) (r : Record) :
    Call → ExtensionContext → Record → Prop
  | register {subtypeIndex dataOffset : ℕ} (size : ℕ) : canRegister = true →
      (c.resized subtypeIndex)[subtypeIndex]? = some dataOffset →
      Change canRegister c r (.register subtypeIndex size)
        (c.addExtension subtypeIndex dataOffset size)
        (r.extend (u32 c.extensions.length) (some subtypeIndex) size)
  | registerGeneric (size : ℕ) :
      Change canRegister c r (.registerGeneric size) (c.addGeneric size)
        (r.extend (u32 c.extensions.length) none size)
  | create (subtypeIndex mem : ℕ) :
      Change canRegister c r (.create subtypeIndex mem)
        (c.createObject subtypeIndex (guestAddr mem).toNat).2
        (r.create (.of c subtypeIndex mem (c.createObject subtypeIndex (guestAddr mem).toNat).1))
  | destroy (objectHandle : ℕ) :
      Change canRegister c r (.destroy objectHandle) (c.destroyObject objectHandle)
        (r.destroy objectHandle)
  | clear : Change canRegister c r .clear c.clearAllObjectData r.clear

/-- What a step does. -/
structure Step.Spec (s : Trace) (typeIndex : ℕ) (a : Call) (t : Trace) (c c' : ExtensionContext) :
    Prop where
  context : s.memory.extensions.typeContexts[typeIndex]? = some c
  change : Change s.memory.extensions.canRegister c (s.record typeIndex) a c' (t.record typeIndex)
  typeContexts : ∀ i, t.memory.extensions.typeContexts[i]? =
    if i = typeIndex then some c' else s.memory.extensions.typeContexts[i]?
  record : ∀ i, i ≠ typeIndex → t.record i = s.record i
  canRegister : t.memory.extensions.canRegister = true →
    s.memory.extensions.canRegister = true ∧ ∀ subtypeIndex mem, a ≠ .create subtypeIndex mem

theorem Trace.record_next (s : Trace) (typeIndex : ℕ) (memory : ObjectMemory) (record : Record) :
    (s.next typeIndex memory record).record typeIndex = record := Function.update_self _ _ _

theorem Trace.record_next_ne (s : Trace) {typeIndex : ℕ} (memory : ObjectMemory) (record : Record)
    (i : ℕ) (hi : i ≠ typeIndex) : (s.next typeIndex memory record).record i = s.record i :=
  Function.update_of_ne hi _ _

/-- **What a call can do.** -/
theorem Step.spec {s t : Trace} {typeIndex : ℕ} {a : Call} (h : Step s (typeIndex, a) t) :
    ∃ c c', Step.Spec s typeIndex a t c c' := by
  cases a with
  | register subtypeIndex size =>
      obtain ⟨h, u, hu, rfl⟩ := h
      obtain ⟨c, dataOffset, hc, hr, ho, rfl, rfl⟩ :=
        Extensions.registerObjectExtension_eq_some.1 hu
      refine ⟨c, _, hc, ?_, Extensions.getElem?_set hc _, s.record_next_ne _ _,
        fun h => ⟨h, nofun⟩⟩
      rw [s.record_next]
      exact .register size hr ho
  | registerGeneric size =>
      obtain ⟨h, u, hu, rfl⟩ := h
      obtain ⟨c, hc, rfl, rfl⟩ := Extensions.registerObjectExtensionGeneric_eq_some.1 hu
      refine ⟨c, _, hc, ?_, Extensions.getElem?_set hc _, s.record_next_ne _ _,
        fun h => ⟨h, nofun⟩⟩
      rw [s.record_next]
      exact .registerGeneric size
  | create subtypeIndex mem =>
      obtain ⟨c, h, u, hc, hu, rfl⟩ := h
      obtain ⟨d, hd, rfl, rfl⟩ := ObjectMemory.createObjectData_eq_some.1 hu
      obtain rfl := Option.some.inj (hc.symm.trans hd)
      refine ⟨c, _, hc, ?_, Extensions.getElem?_set hc _, s.record_next_ne _ _, nofun⟩
      rw [s.record_next]
      exact .create subtypeIndex mem
  | destroy objectHandle =>
      obtain ⟨u, hu, rfl⟩ := h
      obtain ⟨c, hc, hext⟩ :=
        Extensions.destroyObjectData_eq_some.1 (ObjectMemory.destroyObjectData_eq_some hu)
      refine ⟨c, c.destroyObject objectHandle, hc, ?_, ?_, s.record_next_ne _ _, ?_⟩
      · rw [s.record_next]
        exact .destroy objectHandle
      · dsimp only [Trace.next]
        rw [hext]
        exact Extensions.getElem?_set hc _
      · dsimp only [Trace.next]
        rw [hext]
        exact fun h => ⟨h, nofun⟩
  | clear =>
      obtain ⟨u, hu, rfl⟩ := h
      obtain ⟨c, hc, rfl⟩ := ObjectMemory.clearAllObjectData_eq_some.1 hu
      refine ⟨c, _, hc, ?_, Extensions.getElem?_set hc _, s.record_next_ne _ _,
        fun h => ⟨h, nofun⟩⟩
      rw [s.record_next]
      exact .clear

/-- **The invariant** of a type. -/
structure TypeInv (canRegister : Bool) (c : ExtensionContext) (r : Record) : Prop where
  context : ContextInv c r.sizes
  spaced : Spaced c r.sizes
  recorded : Recorded c r
  objects : ∀ o ∈ r.objects, Lives c o
  destroyed : ∀ o ∈ r.destroyed, c.extensionData.Passed o.handle
  /-- There are no objects before registration is closed. -/
  closed : canRegister = true → r.objects = []

theorem Record.sizes_extend (r : Record) (handle : ℕ) (subtypeIndex : Option ℕ) (size : ℕ) :
    (r.extend handle subtypeIndex size).sizes = r.sizes ++ [size] := by
  simp [sizes, extend]

/-- An extension is recorded. -/
theorem Recorded.extend {c c' : ExtensionContext} {r : Record} (h : Recorded c r)
    (hi : ContextInv c r.sizes) (hlen : c.extensions.length < 2 ^ 32) {x : ExtensionInfo}
    {subtypeIndex : Option ℕ} {size : ℕ} (hextensions : c'.extensions = c.extensions ++ [x])
    (hx : x.subtypeIndex = subtypeIndex.getD kGenericSubtype)
    (hne : subtypeIndex ≠ some kGenericSubtype) :
    Recorded c' (r.extend (u32 c.extensions.length) subtypeIndex size) := by
  have hsizes := hi.length_sizes
  rw [u32_of_lt hlen]
  refine ⟨?_, ?_⟩
  · intro reg hreg
    rw [Record.sizes_extend, hextensions]
    rcases List.mem_append.1 hreg with hreg | hreg
    · obtain ⟨h0, hgen, y, hy, hs, hsub⟩ := h.extension reg hreg
      have hlt := (List.getElem?_eq_some_iff.1 hy).1
      refine ⟨h0, hgen, y, ?_, ?_, hsub⟩
      · rw [List.getElem?_append_left hlt, hy]
      · rw [List.getElem?_append_left (by omega), hs]
    · obtain rfl := List.mem_singleton.1 hreg
      refine ⟨?_, hne, x, List.getElem?_concat_length, ?_, hx⟩
      · -- the dummy extension has the index 0
        rw [Record.sizes, List.length_cons] at hsizes
        dsimp only
        omega
      · dsimp only
        rw [← hsizes, List.getElem?_concat_length]
  · intro e y h0 hy
    rw [hextensions] at hy
    have hlt := (List.getElem?_eq_some_iff.1 hy).1
    rw [List.length_append, List.length_singleton] at hlt
    rcases Nat.lt_succ_iff_lt_or_eq.1 hlt with hold | rfl
    · rw [List.getElem?_append_left hold] at hy
      obtain ⟨reg, hreg, he⟩ := h.registered e y h0 hy
      exact ⟨reg, List.mem_append_left _ hreg, he⟩
    · exact ⟨_, List.mem_append_right _ (List.mem_singleton_self _), rfl⟩

/-- A call on objects leaves the extensions alone. -/
theorem Recorded.congr {c c' : ExtensionContext} {r r' : Record} (h : Recorded c r)
    (hextensions : c'.extensions = c.extensions) (hr : r'.registered = r.registered) :
    Recorded c' r' := by
  have hsizes : r'.sizes = r.sizes := by rw [Record.sizes, hr, Record.sizes]
  refine ⟨?_, ?_⟩
  · rw [hr, hextensions, hsizes]
    exact h.extension
  · rw [hr, hextensions]
    exact h.registered

/-- An object that keeps its slot stays alive. -/
theorem Lives.congr {c c' : ExtensionContext} {o : Object} (h : Lives c o)
    (hresolve : ∀ data, c.extensionData.resolve o.handle = some data →
      c'.extensionData.resolve o.handle = some data)
    (hgeneric : c'.genericDataSize = c.genericDataSize) (hsizes : c'.dataSizes = c.dataSizes) :
    Lives c' o := by
  obtain ⟨data, hdata, hbase⟩ := h.data
  refine ⟨⟨data, hresolve data hdata, hbase⟩, ?_, h.null, h.block⟩
  rw [h.size, ExtensionContext.allocSize, ExtensionContext.allocSize, hgeneric, hsizes]

/-- The address of a block. -/
theorem guestAddr_toNat {mem : ℕ} (h : mem < 2 ^ 31) : (guestAddr mem).toNat = 2 ^ 31 + mem := by
  rw [guestAddr, BitVec.toNat_setWidth, addrOf, BitVec.toNat_add, BitVec.toNat_ofNat,
    show kRdramBase.toNat = 0xFFFFFFFF80000000 from rfl]
  omega

/-- An object that has just been created. -/
theorem Lives.create {c : ExtensionContext} {s : ObjectMemory} {subtypeIndex mem : ℕ}
    (hslots : SlotMap.SlotInv c.extensionData) (hp : (Call.create subtypeIndex mem).Proper s c)
    (hok : c.extensionData.EmplaceOk) :
    Lives (c.createObject subtypeIndex (guestAddr mem).toNat).2
      (.of c subtypeIndex mem (c.createObject subtypeIndex (guestAddr mem).toNat).1) := by
  refine ⟨⟨_, SlotMap.Issued.resolve_emplace hslots hok _, rfl⟩, rfl, ?_, ?_⟩
  · intro h0
    exact if_neg (not_not.2 h0)
  · intro h0
    have hfresh := hp h0
    have hbase := guestAddr_toNat hfresh.lt
    have hbound := hfresh.bound
    dsimp only [Object.of] at h0 ⊢
    rw [ExtensionContext.dataPtr, if_pos h0, hbase]
    omega

namespace TypeInv

variable {s : ObjectMemory} {c c' : ExtensionContext} {r : Record} {canRegister canRegister' : Bool}

/-- An extension is registered, before there are objects. -/
theorem register (h : TypeInv canRegister c r) (hobjects : r.objects = [])
    (hlen : c.extensions.length < 2 ^ 32) {a : ObjectData.Call} {size : ℕ}
    (he : Effect true c a c' [size]) (hp : a.Proper c) {x : ExtensionInfo}
    {subtypeIndex : Option ℕ} (hextensions : c'.extensions = c.extensions ++ [x])
    (hx : x.subtypeIndex = subtypeIndex.getD kGenericSubtype)
    (hne : subtypeIndex ≠ some kGenericSubtype) (hdata : c'.extensionData = c.extensionData) :
    TypeInv canRegister' c' (r.extend (u32 c.extensions.length) subtypeIndex size) := by
  refine ⟨?_, ?_, h.recorded.extend h.context hlen hextensions hx hne, ?_, ?_, fun _ => hobjects⟩
  · rw [Record.sizes_extend]
    exact he.contextInv h.context hp
  · rw [Record.sizes_extend]
    exact h.spaced.effect he h.context hp
  · intro o ho
    rw [Record.extend, hobjects] at ho
    cases ho
  · rw [hdata]
    exact h.destroyed

/-- An object is created. -/
theorem create (h : TypeInv canRegister c r) {subtypeIndex mem : ℕ}
    (hp : (Call.create subtypeIndex mem).Proper s c) (hok : c.extensionData.EmplaceOk) :
    TypeInv false (c.createObject subtypeIndex (guestAddr mem).toNat).2
      (r.create (.of c subtypeIndex mem (c.createObject subtypeIndex (guestAddr mem).toNat).1)) := by
  have hslots := h.context.slots
  refine ⟨?_, h.spaced.congr rfl rfl rfl, h.recorded.congr rfl rfl, ?_, ?_, nofun⟩
  · obtain ⟨-, -, -, hslots'⟩ := hslots.emplace (c.newObject subtypeIndex (guestAddr mem).toNat)
    exact h.context.of_slots hslots' rfl rfl rfl
  · intro o ho
    rcases List.mem_cons.1 ho with rfl | ho
    · exact .create hslots hp hok
    · exact (h.objects o ho).congr (fun _ => hslots.resolve_emplace _) rfl rfl
  · exact fun o ho => hslots.passed_emplace _ (h.destroyed o ho)

/-- The object of a handle is destroyed. -/
theorem destroy (h : TypeInv canRegister c r) (objectHandle : ℕ) :
    TypeInv canRegister (c.destroyObject objectHandle) (r.destroy objectHandle) := by
  have hslots := h.context.slots
  obtain ⟨hextensions, hgeneric, hsizes⟩ := ObjectData.destroyObject_fields c objectHandle
  have hdata := c.extensionData_destroyObject objectHandle
  refine ⟨?_, h.spaced.congr hextensions hgeneric hsizes, h.recorded.congr hextensions rfl,
    ?_, ?_, fun hcan => ?_⟩
  · exact h.context.of_slots (hdata ▸ (hslots.erase objectHandle).1) hextensions hgeneric hsizes
  · intro o ho
    obtain ⟨ho, hhas⟩ := List.mem_filter.1 ho
    refine (h.objects o ho).congr (fun data hres => ?_) hgeneric hsizes
    rw [hdata]
    exact hslots.resolve_erase hres (of_decide_eq_true hhas)
  · intro o ho
    rw [hdata]
    rcases List.mem_append.1 ho with ho | ho
    · -- the object that the handle leads to
      obtain ⟨ho, hhas⟩ := List.mem_filter.1 ho
      obtain ⟨data, hres, -⟩ := (h.objects o ho).data
      obtain ⟨hi, hv⟩ : o.Has objectHandle := of_decide_eq_true hhas
      exact hslots.passed_of_erase hres hi hv
    · exact hslots.passed_erase _ (h.destroyed o ho)
  · rw [Record.destroy, h.closed hcan]
    rfl

theorem clear (h : TypeInv canRegister c r) : TypeInv canRegister c.clearAllObjectData r.clear :=
  ⟨h.context.of_slots .empty rfl rfl rfl, h.spaced.congr rfl rfl rfl, h.recorded.congr rfl rfl,
    nofun, nofun, fun _ => rfl⟩

/-- A type without objects stays one when registration is closed. -/
theorem mono (h : TypeInv canRegister c r) (hcan : canRegister' = true → canRegister = true) :
    TypeInv canRegister' c r :=
  { h with closed := fun hc => h.closed (hcan hc) }

end TypeInv

/-- **A proper call** whose handle fits keeps the invariant of the type. -/
theorem Change.inv {s : ObjectMemory} {c c' : ExtensionContext} {r r' : Record} {a : Call}
    {canRegister : Bool} (h : Change s.extensions.canRegister c r a c' r')
    (hinv : TypeInv s.extensions.canRegister c r) (hp : a.Proper s c) (hf : a.Fits c)
    (hcan : canRegister = true → s.extensions.canRegister = true ∧
      ∀ subtypeIndex mem, a ≠ .create subtypeIndex mem) : TypeInv canRegister c' r' := by
  cases h with
  | @register subtypeIndex dataOffset size hr ho =>
      exact hinv.register (hinv.closed hr) hf (.register size rfl ho) hp rfl rfl
        (fun heq => (hinv.context.subtypeIndex_lt ho).ne (Option.some.inj heq)) rfl
  | registerGeneric size =>
      exact hinv.register (hinv.closed hp.1) hf (.registerGeneric size) hp.2 rfl rfl nofun rfl
  | create subtypeIndex mem =>
      exact (hinv.create hp hf).mono fun hc => absurd rfl ((hcan hc).2 subtypeIndex mem)
  | destroy objectHandle => exact (hinv.destroy objectHandle).mono fun hc => (hcan hc).1
  | clear => exact hinv.clear.mono fun hc => (hcan hc).1

/-- **The invariant.** -/
structure Inv (s : Trace) : Prop where
  types : ∀ i c, s.memory.extensions.typeContexts[i]? = some c →
    TypeInv s.memory.extensions.canRegister c (s.record i)
  outside : ∀ i, s.memory.extensions.typeContexts[i]? = none → s.record i = ⟨[], [], []⟩

namespace Inv

variable {s t : Trace}

theorem init (h : Init s) : Inv s := by
  obtain ⟨numTypes, hs⟩ := h.extensions
  refine ⟨fun i c hc => ?_, fun i _ => h.record i⟩
  rw [hs] at hc
  obtain rfl := List.eq_of_mem_replicate (List.mem_of_getElem? hc)
  rw [h.record]
  refine ⟨.init, .init, ⟨nofun, ?_⟩, nofun, nofun, fun _ => rfl⟩
  intro e x h0 hx
  have hlt := (List.getElem?_eq_some_iff.1 hx).1
  rw [show ExtensionContext.init.extensions.length = 1 from rfl] at hlt
  omega

/-- **The step lemma.** -/
theorem step (h : Inv s) {a : ℕ × Call} (hp : Proper s a) (hf : Fits s a) (hst : Step s a t) :
    Inv t := by
  obtain ⟨typeIndex, a⟩ := a
  obtain ⟨c, c', hspec⟩ := hst.spec
  have hc := hspec.context
  have hinv := hspec.change.inv (h.types typeIndex c hc) (hp c hc) (hf c hc) hspec.canRegister
  refine ⟨fun i d hd => ?_, fun i hd => ?_⟩
  · rw [hspec.typeContexts] at hd
    split_ifs at hd with hi
    · obtain rfl := Option.some.inj hd
      rw [hi]
      exact hinv
    · rw [hspec.record i hi]
      exact (h.types i d hd).mono fun hcan => (hspec.canRegister hcan).1
  · rw [hspec.typeContexts] at hd
    split_ifs at hd with hi
    rw [hspec.record i hi]
    exact h.outside i hd

/-- The invariant makes the layouts. -/
theorem layoutOk (h : Inv s) : LayoutOk s := by
  refine ⟨fun typeIndex o ho => ?_, fun typeIndex o ho e => ?_⟩
  · cases hc : s.memory.extensions.typeContexts[typeIndex]? with
    | none =>
        rw [h.outside typeIndex hc] at ho
        cases ho
    | some c =>
        have hinv := h.types typeIndex c hc
        exact (hinv.objects o ho).layout hc hinv.context hinv.spaced hinv.recorded
  · cases hc : s.memory.extensions.typeContexts[typeIndex]? with
    | none =>
        rw [h.outside typeIndex hc] at ho
        cases ho
    | some c =>
        have hinv := h.types typeIndex c hc
        have hnone := hinv.context.slots.getImpl_of_passed (hinv.destroyed o ho)
        rw [Trace.get, Extensions.getObjectData, hc]
        refine congrArg some ?_
        by_contra hne
        exact (ObjectData.getImpl_of_objectAddress hne).2.1 hnone

end Inv

/-- **The run lemma.** -/
theorem Reachable.inv {s : Trace} (h : Reachable s) : Inv s :=
  Runs.Reach.invariant (fun _ => .init) (fun _ _ _ hs ha => hs.step ha.1 ha.2) h

/-! ### A new object -/

/-- The place of a byte of an extension. -/
theorem place_of_byte {mem offset k : ℕ} (h : mem + offset < 2 ^ 31) :
    (BitVec.ofNat 32 (2 ^ 31 + mem + offset)).signExtend 64 + BitVec.ofNat 64 k =
      (guestAddr mem).signExtend 64 + (0 + BitVec.ofNat 64 (offset + k)) := by
  have haddr : BitVec.ofNat 32 (2 ^ 31 + mem + offset) = (addrOf (mem + offset)).setWidth 32 := by
    refine BitVec.eq_of_toNat_eq ?_
    rw [← guestAddr, guestAddr_toNat h, BitVec.toNat_ofNat]
    omega
  rw [haddr, signExtend_addrOf h, guestAddr, signExtend_addrOf (by omega), addrOf, addrOf,
    BitVec.ofNat_add, BitVec.ofNat_add, zero_add]
  ac_rfl

/-- **A new object** has its block, and its data are zero. -/
theorem created {s t : Trace} {typeIndex subtypeIndex mem : ℕ} (h : Inv s)
    (hp : Proper s (typeIndex, .create subtypeIndex mem))
    (hf : Fits s (typeIndex, .create subtypeIndex mem))
    (hst : Step s (typeIndex, .create subtypeIndex mem) t) :
    ∃ o, o.subtypeIndex = subtypeIndex ∧ Created s typeIndex mem o t := by
  have hlayout := (h.step hp hf hst).layoutOk.objects typeIndex
  obtain ⟨c, key, u, hc, hu, rfl⟩ := hst
  obtain ⟨d, hd, rfl, rfl⟩ := ObjectMemory.createObjectData_eq_some.1 hu
  obtain rfl := Option.some.inj (hc.symm.trans hd)
  have hproper : c.allocSize subtypeIndex ≠ 0 →
    s.memory.heap.Fresh (c.allocSize subtypeIndex) mem := hp c hc
  rw [Trace.record_next] at hlayout
  refine ⟨.of c subtypeIndex mem (c.createObject subtypeIndex (guestAddr mem).toNat).1, rfl,
    ?_, ?_, ?_⟩
  · exact congrArg Record.objects (s.record_next typeIndex _ _)
  · intro h0
    refine ⟨if_pos h0, ?_⟩
    exact congrArg Heap.blocks (if_pos h0)
  · intro reg hreg hserves addr haddr k hk
    obtain ⟨offset, hget, -, hend⟩ := (hlayout _ List.mem_cons_self).inside reg hreg hserves
    obtain rfl := Option.some.inj (hget.symm.trans haddr)
    dsimp only [Object.of] at hend
    have h0 : c.allocSize subtypeIndex ≠ 0 := by omega
    have hfresh := hproper h0
    have hbound := hfresh.bound
    dsimp only [Trace.next, Object.of]
    rw [ExtensionContext.dataPtr, if_pos h0, if_pos h0, guestAddr_toNat hfresh.lt,
      u32_of_lt (by omega), readB_zeroLoop, if_pos]
    exact ⟨offset + k, by omega, place_of_byte (by omega)⟩

/-- **Extension data never overlap** in the runs in which every new extension has the index of its
entry, and every new object a handle that has the index and the version of its slot. -/
theorem layout_of_reachable {s : Trace} (h : Reachable s) :
    LayoutOk s ∧ ∀ a t, Proper s a → Fits s a → Step s a t → CallOk s a t := by
  refine ⟨h.inv.layoutOk, fun a t hp hf hst => ⟨?_, (h.inv.step hp hf hst).layoutOk⟩⟩
  rintro typeIndex subtypeIndex mem rfl
  exact created h.inv hp hf hst

/-! ### An object without data -/

/-- The contexts of a program with one type. -/
def noObjects : Trace :=
  ⟨⟨.initExtendedObjectData 1, ⟨fun _ => 0, [], []⟩⟩, fun _ => ⟨[], [], []⟩⟩

/-- The type has an extension of 16 bytes, for the objects of the subtype 1. -/
def oneExtension : Trace :=
  noObjects.next 0
    { noObjects.memory with extensions :=
        ((noObjects.memory.extensions.registerObjectExtension 0 1 16).getD
          (0, noObjects.memory.extensions)).2 }
    ((noObjects.record 0).extend 1 (some 1) 16)

/-- An object of the subtype 1. -/
def oneObject : Trace :=
  oneExtension.next 0
    ((oneExtension.memory.createObjectData 0 1 0x1000).getD (0, oneExtension.memory)).2
    ((oneExtension.record 0).create ⟨1, 0x00100000, 0x80001000, 16⟩)

theorem noObjects_init : Init noObjects := ⟨⟨1, rfl⟩, rfl, fun _ => rfl⟩

theorem step_oneExtension : Step noObjects (0, .register 1 16) oneExtension := ⟨1, _, rfl, rfl⟩

theorem proper_oneExtension : Proper noObjects (0, .register 1 16) := by
  intro c hc
  obtain rfl := Option.some.inj hc
  change 0 + 0 + ceil16 16 < 2 ^ 32
  decide

theorem layout_of_reachable_oneObject : LayoutOk oneObject ∧
    oneObject.get 0 ⟨1, 0x00100000, 0x80001000, 16⟩ 1 = some 0x80001000 := by
  have hstep : Step oneExtension (0, .create 1 0x1000) oneObject := ⟨_, 0x00100000, _, rfl, rfl, rfl⟩
  have hproper : Proper oneExtension (0, .create 1 0x1000) := by
    intro c hc _
    obtain rfl := Option.some.inj hc
    exact ⟨by decide, by decide, nofun, nofun⟩
  have hfits : Fits noObjects (0, .register 1 16) := by
    intro c hc
    obtain rfl := Option.some.inj hc
    change 1 < 2 ^ 32
    decide
  have hfits' : Fits oneExtension (0, .create 1 0x1000) := by
    intro c hc
    obtain rfl := Option.some.inj hc
    exact Nat.zero_le _
  have hr : Reachable oneExtension :=
    (Runs.Reach.init noObjects_init).step _ ⟨proper_oneExtension, hfits⟩ step_oneExtension
  exact ⟨(layout_of_reachable (hr.step _ ⟨hproper, hfits'⟩ hstep)).1, rfl⟩

/-- The object of the handle of a `destroy` is there. -/
def DestroysLive (s : Trace) : ℕ × Call → Prop
  | (typeIndex, .destroy objectHandle) =>
      ∃ o ∈ (s.record typeIndex).objects, o.handle = objectHandle
  | _ => True

/-- The type behind such calls, whose objects of the subtype 0 have no block. -/
structure Primed (s : Trace) (c : ExtensionContext) : Prop where
  reach : Runs.Reach Step Init (fun s a => Proper s a ∧ DestroysLive s a) s
  context : s.memory.extensions.typeContexts[0]? = some c
  generic : c.genericDataSize = 0
  dataSizes : c.dataSizes = [0, 16]
  registered : (s.record 0).registered = [⟨1, some 1, 16⟩]
  blocks : s.memory.heap.blocks = []

namespace Primed

theorem oneExtension : ∃ s c, Primed s c ∧ c.extensionData = .empty := by
  refine ⟨ObjectLayout.oneExtension, _, ⟨?_, rfl, rfl, rfl, rfl, rfl⟩, rfl⟩
  exact (Runs.Reach.init noObjects_init).step _ ⟨proper_oneExtension, trivial⟩ step_oneExtension

variable {s : Trace} {c : ExtensionContext}

/-- The step of a `create`. -/
theorem create (h : Primed s c) {subtypeIndex mem : ℕ}
    (hp : Proper s (0, .create subtypeIndex mem)) : ∃ t,
      Runs.Reach Step Init (fun s a => Proper s a ∧ DestroysLive s a) t ∧
      t.memory.extensions.typeContexts[0]? =
        some (c.createObject subtypeIndex (guestAddr mem).toNat).2 ∧
      t.record 0 = (s.record 0).create
        (.of c subtypeIndex mem (c.createObject subtypeIndex (guestAddr mem).toNat).1) ∧
      (c.allocSize subtypeIndex = 0 → t.memory.heap.blocks = []) := by
  have hself := Extensions.getElem?_set_self h.context
    (c.createObject subtypeIndex (guestAddr mem).toNat).2
  refine ⟨_, h.reach.step _ ⟨hp, trivial⟩ ⟨c, _, _, h.context,
    ObjectMemory.createObjectData_eq_some.2 ⟨c, h.context, rfl, rfl⟩, rfl⟩, hself,
    s.record_next 0 _ _, fun h0 => ?_⟩
  dsimp only [Trace.next]
  rw [if_neg (not_not.2 h0)]
  exact h.blocks

theorem allocSize (h : Primed s c) : c.allocSize 0 = 0 ∧ c.allocSize 1 = 16 := by
  unfold ExtensionContext.allocSize
  rw [h.dataSizes, h.generic]
  exact ⟨rfl, rfl⟩

/-- An object of the subtype 0 is created and destroyed at once. -/
theorem turns : Turns fun m => ∃ s c, Primed s c ∧ c.extensionData = m := by
  rintro m ⟨s, c, h, rfl⟩ - -
  have hproper : Proper s (0, .create 0 0) := by
    intro d hd h0
    obtain rfl := Option.some.inj (h.context.symm.trans hd)
    exact absurd h.allocSize.1 h0
  obtain ⟨t, ht, htc, htr, htb⟩ := h.create hproper
  obtain ⟨u, hu, huc, hub⟩ := ObjectMemory.exists_destroyObjectData htc
    (c.createObject 0 (guestAddr 0).toNat).1 (htb h.allocSize.1)
  have hlive : DestroysLive t (0, .destroy (c.createObject 0 (guestAddr 0).toNat).1) := by
    refine ⟨.of c 0 0 (c.createObject 0 (guestAddr 0).toNat).1, ?_, rfl⟩
    rw [htr]
    exact List.mem_cons_self
  have hproper' : Proper t (0, .destroy (c.createObject 0 (guestAddr 0).toNat).1) :=
    fun _ _ => trivial
  obtain ⟨hextensions, hgeneric, hsizes⟩ := ObjectData.destroyObject_fields
    (c.createObject 0 (guestAddr 0).toNat).2 (c.createObject 0 (guestAddr 0).toNat).1
  refine ⟨c.newObject 0 (guestAddr 0).toNat, _, _,
    ⟨ht.step _ ⟨hproper', hlive⟩ ⟨u, hu, rfl⟩, huc, hgeneric.trans h.generic,
      hsizes.trans h.dataSizes, ?_, hub⟩, ExtensionContext.extensionData_destroyObject _ _⟩
  rw [Trace.record_next, htr]
  exact h.registered

end Primed

/-- **An object without data**: behind 65 · 1023 pairs of a `create` and the `destroy` of its
object, the handle of an object does not lead to it. -/
theorem object_without_data : ¬ ∀ s,
    Runs.Reach Step Init (fun s a => Proper s a ∧ DestroysLive s a) s → LayoutOk s := by
  intro hall
  obtain ⟨s₀, c₀, h₀, he⟩ := Primed.oneExtension
  obtain ⟨m, hm⟩ := Waits.exists_version Primed.turns
    ⟨⟨s₀, c₀, h₀, he⟩, .empty, rfl, rfl⟩ Key.kMaxVersion (by decide) le_rfl
  obtain ⟨s, c, h, rfl⟩ := hm.kind
  have hproper : Proper s (0, .create 1 0x1000) := by
    intro d hd _
    obtain rfl := Option.some.inj (h.context.symm.trans hd)
    rw [h.allocSize.2]
    exact ⟨by decide, by decide, by simp [h.blocks], by simp [h.blocks]⟩
  obtain ⟨t, ht, htc, htr, -⟩ := h.create hproper
  obtain ⟨hkey, hnone⟩ := hm.getImpl_emplace (c.newObject 1 (guestAddr 0x1000).toNat)
  have hlayout := (hall t ht).objects 0 (.of c 1 0x1000 0)
    (by rw [htr, ← hkey]; exact List.mem_cons_self)
  -- the extension has no address
  have hnull : t.get 0 (.of c 1 0x1000 0) 1 = some 0 := by
    rw [Trace.get, Extensions.getObjectData, htc]
    refine congrArg some ?_
    by_contra hne
    exact (ObjectData.getImpl_of_objectAddress hne).2.1 hnone
  obtain ⟨offset, hget, -, hend⟩ := hlayout.inside ⟨1, some 1, 16⟩
    (by rw [htr]; exact h.registered ▸ List.mem_singleton_self _) (Or.inr rfl)
  have hbase : (guestAddr 0x1000).toNat = 2 ^ 31 + 0x1000 := guestAddr_toNat (by decide)
  have hzero := Option.some.inj (hget.symm.trans hnull)
  have halloc := h.allocSize.2
  dsimp only [Object.of] at hend hzero
  rw [ExtensionContext.dataPtr, if_pos (by omega), hbase, u32] at hzero
  rw [halloc] at hend
  omega

end ObjectLayout

end Data
