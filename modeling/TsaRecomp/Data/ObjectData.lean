/-
**The addresses of extension data.**

The address of an extension is computed at each lookup, the block of an object is sized when the
object is created.  The two agree as long as the totals of the type do not change while it has
objects: `recomp_register_object_extension` sees to that itself, since it is closed by the first
object; `recomp_register_object_extension_generic` does not, and moves the data of the subtypes.

Main definitions:

* `Data.ObjectData.Call`, `Data.ObjectData.Step` — the calls, and their effect on the contexts;
* `Data.ObjectData.Proper` — sums of sizes below 2³², and an allocator that answers with blocks;
* `Data.ObjectData.Timely` — no late generic extension, and no handle that is in use already;
* `Data.ObjectData.ContextInv` — the invariant of a context;
* `Data.ObjectData.AddressStable` — **addresses are stable**, and inside the block.

Main results:

* `Data.ObjectData.Effect.contextInv`, `Data.ObjectData.Effect.live` — what a call preserves;
* `Data.ObjectData.addresses_stable` — addresses are stable in the timely runs;
* `Data.ObjectData.address_moves` — and not in all of them.
-/

import TsaRecomp.Data.Extension

set_option relaxedAutoImplicit false
set_option autoImplicit false

namespace Data

/-! ### Sizes -/

/-- A size, rounded up to a multiple of 16. -/
def ceil16 (size : ℕ) : ℕ := (size + 15) / 16 * 16

theorem and_u32Not_15 {n : ℕ} (h : n < 2 ^ 32) : n &&& Key.u32Not 15 = n / 16 * 16 := by
  have hmask : Key.u32Not 15 = (2 ^ 28 - 1) <<< 4 := rfl
  have hshift : n &&& (2 ^ 28 - 1) <<< 4 = (n >>> 4 &&& (2 ^ 28 - 1)) <<< 4 := by
    refine Nat.eq_of_testBit_eq ?_
    intro i
    rw [Nat.testBit_and, Nat.testBit_shiftLeft, Nat.testBit_shiftLeft, Nat.testBit_and,
      Nat.testBit_shiftRight]
    by_cases hi : 4 ≤ i
    · rw [show 4 + (i - 4) = i by omega]
      simp [hi]
    · simp [hi]
  rw [hmask, hshift, Nat.and_two_pow_sub_one_eq_mod, Nat.shiftLeft_eq, Nat.shiftRight_eq_div_pow]
  omega

/-- `round_up_16` rounds up, unless it overflows. -/
theorem roundUp16_eq {size : ℕ} (h : ceil16 size < 2 ^ 32) : roundUp16 size = ceil16 size := by
  unfold ceil16 at h ⊢
  unfold roundUp16 u32
  rw [Nat.mod_eq_of_lt (by omega), and_u32Not_15 (by omega)]

theorem u32_of_lt {n : ℕ} (h : n < 2 ^ 32) : u32 n = n := Nat.mod_eq_of_lt h

namespace ExtensionContext

variable {c : ExtensionContext} {subtypeIndex : ℕ}

/-- The size of the data of a subtype. -/
def subtypeSize (c : ExtensionContext) (subtypeIndex : ℕ) : ℕ := c.dataSizes.getD subtypeIndex 0

/-- Where `data_sizes` is long enough for the subtype afterwards, its new entries are zero. -/
theorem getD_resized {dataOffset : ℕ}
    (h : (c.resized subtypeIndex)[subtypeIndex]? = some dataOffset) (i : ℕ) :
    (c.resized subtypeIndex).getD i 0 = c.subtypeSize i := by
  unfold resized subtypeSize at *
  split_ifs at h ⊢ with hlen
  · obtain ⟨hlt, -⟩ := List.getElem?_eq_some_iff.1 h
    have hle : u32 (subtypeIndex + 1) ≤ subtypeIndex + 1 := Nat.mod_le _ _
    simp only [List.rightpad, List.length_append, List.length_take, List.length_replicate] at hlt
    rw [List.take_of_length_le (by omega), List.rightpad, List.getD_eq_getElem?_getD,
      List.getD_eq_getElem?_getD]
    rcases Nat.lt_or_ge i c.dataSizes.length with hi | hi
    · rw [List.getElem?_append_left hi]
    · rw [List.getElem?_append_right hi, List.getElem?_eq_none hi, List.getElem?_replicate]
      split_ifs <;> rfl
  · rfl

/-- There is no entry for the subtype of the generic extensions. -/
theorem length_resized (subtypeIndex : ℕ) (h : c.dataSizes.length ≤ kGenericSubtype) :
    (c.resized subtypeIndex).length ≤ kGenericSubtype := by
  unfold resized
  split_ifs with hlen
  · have hlt : u32 (subtypeIndex + 1) < 2 ^ 32 := Nat.mod_lt _ (by decide)
    simp only [List.rightpad, List.length_append, List.length_take, List.length_replicate]
    unfold kGenericSubtype at h ⊢
    omega
  · exact h

theorem dataOffset_eq {dataOffset : ℕ}
    (h : (c.resized subtypeIndex)[subtypeIndex]? = some dataOffset) :
    dataOffset = c.subtypeSize subtypeIndex := by
  rw [← getD_resized h, List.getD_eq_getElem?_getD, h]
  rfl

theorem subtypeSize_addExtension {dataOffset : ℕ}
    (h : (c.resized subtypeIndex)[subtypeIndex]? = some dataOffset) (size i : ℕ) :
    (c.addExtension subtypeIndex dataOffset size).subtypeSize i =
      if i = subtypeIndex then u32 (dataOffset + roundUp16 size) else c.subtypeSize i := by
  obtain ⟨hlt, -⟩ := List.getElem?_eq_some_iff.1 h
  rw [← getD_resized h i]
  unfold addExtension subtypeSize
  dsimp only
  rw [List.getD_eq_getElem?_getD, List.getElem?_set, List.getD_eq_getElem?_getD]
  by_cases hi : i = subtypeIndex
  · rw [if_pos hi, if_pos hi.symm, if_pos hlt]
    rfl
  · rw [if_neg hi, if_neg (Ne.symm hi)]

/-- The totals of the subtypes behind a registration. -/
theorem subtypeSize_register {dataOffset size : ℕ}
    (ho : (c.resized subtypeIndex)[subtypeIndex]? = some dataOffset)
    (h : c.subtypeSize subtypeIndex + ceil16 size < 2 ^ 32) (i : ℕ) :
    (c.addExtension subtypeIndex dataOffset size).subtypeSize i =
      if i = subtypeIndex then c.subtypeSize subtypeIndex + ceil16 size else c.subtypeSize i := by
  rw [subtypeSize_addExtension ho, roundUp16_eq (by omega), dataOffset_eq ho, u32_of_lt h]

/-- The total of the generic extensions behind a registration. -/
theorem genericDataSize_addGeneric {size : ℕ} (h : c.genericDataSize + ceil16 size < 2 ^ 32) :
    (c.addGeneric size).genericDataSize = c.genericDataSize + ceil16 size := by
  unfold addGeneric
  dsimp only
  rw [roundUp16_eq (by omega), u32_of_lt h]

theorem allocSize_eq (h : c.genericDataSize + c.subtypeSize subtypeIndex < 2 ^ 32) :
    c.allocSize subtypeIndex = c.genericDataSize + c.subtypeSize subtypeIndex := by
  unfold subtypeSize at h ⊢
  unfold allocSize
  rw [List.getD_eq_getElem?_getD] at h ⊢
  split
  · next size hs =>
      rw [hs] at h ⊢
      exact u32_of_lt h
  · next hs =>
      rw [hs]
      rfl

end ExtensionContext

namespace ObjectData

/-! ### The calls -/

/-- A call on a type.  A `create` comes with the address that the allocator answers with. -/
inductive Call
  | register (subtypeIndex size : ℕ)
  | registerGeneric (size : ℕ)
  | create (subtypeIndex data : ℕ)
  | destroy (objectHandle : ℕ)
  | get (subtypeIndex objectHandle extensionHandle : ℕ)

/-- The contexts, with the sizes that the extensions of each type were registered with, in the order
of `extensions`. -/
structure Trace where
  state : Extensions
  sizes : ℕ → List ℕ

/-- The contexts behind `init_extended_object_data`; the dummy extensions have no size. -/
def Trace.init (numTypes : ℕ) : Trace where
  state := .initExtendedObjectData numTypes
  sizes _ := [0]

/-- A registration is recorded. -/
def Trace.registered (s : Trace) (typeIndex size : ℕ) (state : Extensions) : Trace where
  state := state
  sizes := Function.update s.sizes typeIndex (s.sizes typeIndex ++ [size])

/-- A successful call. -/
def Step (s : Trace) : ℕ × Call → Trace → Prop
  | (typeIndex, .register subtypeIndex size), t => ∃ h u,
      s.state.registerObjectExtension typeIndex subtypeIndex size = some (h, u) ∧
        t = s.registered typeIndex size u
  | (typeIndex, .registerGeneric size), t => ∃ h u,
      s.state.registerObjectExtensionGeneric typeIndex size = some (h, u) ∧
        t = s.registered typeIndex size u
  | (typeIndex, .create subtypeIndex data), t => ∃ h u,
      s.state.createObjectData typeIndex subtypeIndex data = some (h, u) ∧ t = { s with state := u }
  | (typeIndex, .destroy objectHandle), t => ∃ u,
      s.state.destroyObjectData typeIndex objectHandle = some u ∧ t = { s with state := u }
  | (typeIndex, .get subtypeIndex objectHandle extensionHandle), t => ∃ r,
      s.state.getObjectData typeIndex subtypeIndex objectHandle extensionHandle = some r ∧ t = s

/-- What a call does to the context of its type, and the sizes that it adds to the record. -/
inductive Effect (canRegister : Bool) (c : ExtensionContext) :
    Call → ExtensionContext → List ℕ → Prop
  | register {subtypeIndex dataOffset : ℕ} (size : ℕ) : canRegister = true →
      (c.resized subtypeIndex)[subtypeIndex]? = some dataOffset →
      Effect canRegister c (.register subtypeIndex size)
        (c.addExtension subtypeIndex dataOffset size) [size]
  | registerGeneric (size : ℕ) :
      Effect canRegister c (.registerGeneric size) (c.addGeneric size) [size]
  | create (subtypeIndex data : ℕ) :
      Effect canRegister c (.create subtypeIndex data) (c.createObject subtypeIndex data).2 []
  | destroy (objectHandle : ℕ) :
      Effect canRegister c (.destroy objectHandle) (c.destroyObject objectHandle) []
  | get (subtypeIndex objectHandle extensionHandle : ℕ) :
      Effect canRegister c (.get subtypeIndex objectHandle extensionHandle) c []

/-- What a step does to the contexts. -/
structure Step.Spec (s : Trace) (typeIndex : ℕ) (a : Call) (t : Trace) (c c' : ExtensionContext)
    (sizes : List ℕ) : Prop where
  context : s.state.typeContexts[typeIndex]? = some c
  effect : Effect s.state.canRegister c a c' sizes
  typeContexts : ∀ i, t.state.typeContexts[i]? =
    if i = typeIndex then some c' else s.state.typeContexts[i]?
  sizes : ∀ i, t.sizes i = if i = typeIndex then s.sizes i ++ sizes else s.sizes i
  canRegister : s.state.canRegister = false → t.state.canRegister = false

theorem Trace.registered_sizes (s : Trace) (typeIndex size : ℕ) (state : Extensions) (i : ℕ) :
    (s.registered typeIndex size state).sizes i =
      if i = typeIndex then s.sizes i ++ [size] else s.sizes i := by
  unfold registered
  dsimp only
  rw [Function.update_apply]
  split_ifs with hi
  · rw [hi]
  · rfl

/-- **What a call can do.** -/
theorem Step.spec {s t : Trace} {typeIndex : ℕ} {a : Call} (h : Step s (typeIndex, a) t) :
    ∃ c c' sizes, Step.Spec s typeIndex a t c c' sizes := by
  have hsame : ∀ i, s.sizes i = if i = typeIndex then s.sizes i ++ [] else s.sizes i := by simp
  cases a with
  | register subtypeIndex size =>
      obtain ⟨h, u, hu, rfl⟩ := h
      obtain ⟨c, dataOffset, hc, hr, ho, -, rfl⟩ := Extensions.registerObjectExtension_eq_some.1 hu
      exact ⟨c, _, _, hc, .register size hr ho, Extensions.getElem?_set hc _,
        s.registered_sizes typeIndex size _, id⟩
  | registerGeneric size =>
      obtain ⟨h, u, hu, rfl⟩ := h
      obtain ⟨c, hc, -, rfl⟩ := Extensions.registerObjectExtensionGeneric_eq_some.1 hu
      exact ⟨c, _, _, hc, .registerGeneric size, Extensions.getElem?_set hc _,
        s.registered_sizes typeIndex size _, id⟩
  | create subtypeIndex data =>
      obtain ⟨h, u, hu, rfl⟩ := h
      obtain ⟨c, hc, -, rfl⟩ := Extensions.createObjectData_eq_some.1 hu
      exact ⟨c, _, _, hc, .create subtypeIndex data, Extensions.getElem?_set hc _, hsame,
        fun _ => rfl⟩
  | destroy objectHandle =>
      obtain ⟨u, hu, rfl⟩ := h
      obtain ⟨c, hc, rfl⟩ := Extensions.destroyObjectData_eq_some.1 hu
      exact ⟨c, _, _, hc, .destroy objectHandle, Extensions.getElem?_set hc _, hsame, id⟩
  | get subtypeIndex objectHandle extensionHandle =>
      obtain ⟨r, hr, rfl⟩ := h
      cases hc : t.state.typeContexts[typeIndex]? with
      | none => simp [Extensions.getObjectData, hc] at hr
      | some c =>
          refine ⟨c, c, [], hc, .get _ _ _, ?_, hsame, id⟩
          intro i
          split_ifs with hi
          · rw [hi, hc]
          · rfl

/-! ### The conditions -/

/-- Sums of sizes are below 2³², and the allocator answers with the address of a block that ends
below 2³². -/
def Call.Proper (c : ExtensionContext) : Call → Prop
  | .register subtypeIndex size =>
      c.genericDataSize + c.subtypeSize subtypeIndex + ceil16 size < 2 ^ 32
  | .registerGeneric size =>
      ∀ subtypeIndex, c.genericDataSize + c.subtypeSize subtypeIndex + ceil16 size < 2 ^ 32
  | .create subtypeIndex data => c.allocSize subtypeIndex ≠ 0 →
      data ≠ 0 ∧ data + c.allocSize subtypeIndex ≤ 2 ^ 32
  | .destroy _ => True
  | .get _ _ _ => True

/-- No generic extension with a size is registered while a handle leads to an object of the type,
and no slot is appended under a key that leads to an object. -/
def Call.Timely (c : ExtensionContext) : Call → Prop
  | .register _ _ => True
  | .registerGeneric size => size = 0 ∨ ∀ k, c.extensionData.resolve k = none
  | .create _ _ => c.extensionData.freeIndices.length ≤ kMinFreeIndices →
      c.extensionData.getImpl (Key.make Key.kMinVersion c.extensionData.numSlots) = none
  | .destroy _ => True
  | .get _ _ _ => True

/-- A call is proper on the context of its type. -/
def Proper (s : Trace) (a : ℕ × Call) : Prop :=
  ∀ c ∈ s.state.typeContexts[a.1]?, a.2.Proper c

/-- A call is timely on the context of its type. -/
def Timely (s : Trace) (a : ℕ × Call) : Prop :=
  ∀ c ∈ s.state.typeContexts[a.1]?, a.2.Timely c

/-- A call destroys the object of a handle: a tag makes no difference. -/
def Call.Destroys (objectHandle : ℕ) : Call → Prop
  | .destroy k => Key.toIndex k = Key.toIndex objectHandle ∧
      Key.toVersion k = Key.toVersion objectHandle
  | _ => False

/-- The calls behind `init_extended_object_data`. -/
def Reachable (C : Trace → ℕ × Call → Prop) (s : Trace) : Prop :=
  Runs.Reach Step (fun s => ∃ numTypes, s = .init numTypes) C s

/-- Calls that do not destroy the object of a handle. -/
def Keeps (C : Trace → ℕ × Call → Prop) (typeIndex objectHandle : ℕ) : Trace → Trace → Prop :=
  Runs.RunsTo Step fun s a => C s a ∧ ¬ (a.1 = typeIndex ∧ a.2.Destroys objectHandle)

/-- An object, from the state in which it is created to a later one in which it is alive. -/
structure Alive (C : Trace → ℕ × Call → Prop) (typeIndex subtypeIndex data objectHandle : ℕ)
    (s t : Trace) : Prop where
  reachable : Reachable C s
  proper : C s (typeIndex, .create subtypeIndex data)
  created : ∃ u, s.state.createObjectData typeIndex subtypeIndex data = some (objectHandle, u) ∧
    Keeps C typeIndex objectHandle { s with state := u } t

/-- **The address of an extension is stable** under a condition: `recomp_get_object_data` answers
with it in the state `t`, for an object that has been created in the state `s`. -/
structure AddressStable (C : Trace → ℕ × Call → Prop)
    (typeIndex subtypeIndex data objectHandle extensionHandle r : ℕ) (s t : Trace) : Prop where
  /-- The address is the same until the object is destroyed. -/
  same : ∀ t', Keeps C typeIndex objectHandle t t' →
    t'.state.getObjectData typeIndex subtypeIndex objectHandle extensionHandle = some r
  /-- The data, with its size rounded up, lies inside the block of the object. -/
  inside : ∃ c size, s.state.typeContexts[typeIndex]? = some c ∧
    (t.sizes typeIndex)[extensionHandle]? = some size ∧ c.dataPtr subtypeIndex data ≤ r ∧
    r + ceil16 size ≤ c.dataPtr subtypeIndex data + c.allocSize subtypeIndex

/-! ### The invariant of a context -/

/-- **The invariant** of a context: every extension lies inside the data of its subtype, or inside
the generic data. -/
structure ContextInv (c : ExtensionContext) (sizes : List ℕ) : Prop where
  slots : SlotMap.SlotInv c.extensionData
  length_sizes : sizes.length = c.extensions.length
  length_dataSizes : c.dataSizes.length ≤ kGenericSubtype
  fits : ∀ (e : ℕ) (extension : ExtensionInfo) (size : ℕ), c.extensions[e]? = some extension →
    sizes[e]? = some size → extension.dataOffset + ceil16 size ≤
      if extension.subtypeIndex = kGenericSubtype then c.genericDataSize
      else c.subtypeSize extension.subtypeIndex
  total : ∀ subtypeIndex, c.genericDataSize + c.subtypeSize subtypeIndex < 2 ^ 32

namespace ContextInv

variable {c c' : ExtensionContext} {sizes : List ℕ}

theorem init : ContextInv .init [0] where
  slots := .empty
  length_sizes := rfl
  length_dataSizes := Nat.zero_le _
  fits e extension size he hs := by
    cases e with
    | zero =>
        obtain rfl : (⟨0, 0⟩ : ExtensionInfo) = extension := Option.some.inj he
        obtain rfl : 0 = size := Option.some.inj hs
        exact Nat.zero_le _
    | succ e => simp at hs
  total subtypeIndex := by
    rw [show ExtensionContext.init.subtypeSize subtypeIndex = 0 from rfl]
    decide

/-- A subtype with a total is not the one of the generic extensions. -/
theorem subtypeIndex_lt (h : ContextInv c sizes) {subtypeIndex dataOffset : ℕ}
    (ho : (c.resized subtypeIndex)[subtypeIndex]? = some dataOffset) :
    subtypeIndex < kGenericSubtype :=
  (List.getElem?_eq_some_iff.1 ho).1.trans_le
    (ExtensionContext.length_resized subtypeIndex h.length_dataSizes)

/-- An extension is registered. -/
theorem registered (h : ContextInv c sizes) {extension : ExtensionInfo} {size : ℕ}
    (hdata : c'.extensionData = c.extensionData)
    (hextensions : c'.extensions = c.extensions ++ [extension])
    (hlength : c'.dataSizes.length ≤ kGenericSubtype)
    (hgeneric : c.genericDataSize ≤ c'.genericDataSize)
    (hsubtype : ∀ i, c.subtypeSize i ≤ c'.subtypeSize i)
    (hfits : extension.dataOffset + ceil16 size ≤
      if extension.subtypeIndex = kGenericSubtype then c'.genericDataSize
      else c'.subtypeSize extension.subtypeIndex)
    (htotal : ∀ i, c'.genericDataSize + c'.subtypeSize i < 2 ^ 32) :
    ContextInv c' (sizes ++ [size]) := by
  refine ⟨hdata ▸ h.slots, by simp [hextensions, h.length_sizes], hlength, ?_, htotal⟩
  intro e x z he hz
  have hlen := h.length_sizes
  rw [hextensions] at he
  rcases Nat.lt_trichotomy e c.extensions.length with hlt | rfl | hgt
  · -- an older extension
    rw [List.getElem?_append_left hlt] at he
    rw [List.getElem?_append_left (hlen ▸ hlt)] at hz
    refine (h.fits e x z he hz).trans ?_
    split_ifs
    · exact hgeneric
    · exact hsubtype _
  · -- the new one
    rw [List.getElem?_concat_length] at he
    rw [← hlen, List.getElem?_concat_length] at hz
    obtain rfl := Option.some.inj he
    obtain rfl := Option.some.inj hz
    exact hfits
  · rw [List.getElem?_eq_none (by simp; omega)] at he
    cases he

/-- An object is created or destroyed. -/
theorem of_slots (h : ContextInv c sizes) (hslots : SlotMap.SlotInv c'.extensionData)
    (hextensions : c'.extensions = c.extensions)
    (hgeneric : c'.genericDataSize = c.genericDataSize) (hsizes : c'.dataSizes = c.dataSizes) :
    ContextInv c' sizes := by
  have hsubtype : ∀ i, c'.subtypeSize i = c.subtypeSize i := fun i => by
    rw [ExtensionContext.subtypeSize, hsizes]
    rfl
  refine ⟨hslots, hextensions ▸ h.length_sizes, hsizes ▸ h.length_dataSizes, ?_, ?_⟩
  · intro e x z he hz
    rw [hgeneric, hsubtype]
    exact h.fits e x z (hextensions ▸ he) hz
  · intro i
    rw [hgeneric, hsubtype]
    exact h.total i

end ContextInv

theorem destroyObject_fields (c : ExtensionContext) (objectHandle : ℕ) :
    (c.destroyObject objectHandle).extensions = c.extensions ∧
      (c.destroyObject objectHandle).genericDataSize = c.genericDataSize ∧
      (c.destroyObject objectHandle).dataSizes = c.dataSizes := by
  unfold ExtensionContext.destroyObject
  split <;> exact ⟨rfl, rfl, rfl⟩

namespace Effect

variable {canRegister : Bool} {c c' : ExtensionContext} {a : Call} {sizes added : List ℕ}

/-- **A proper call** keeps the invariant of the context. -/
theorem contextInv (he : Effect canRegister c a c' added) (h : ContextInv c sizes)
    (hp : a.Proper c) : ContextInv c' (sizes ++ added) := by
  cases he with
  | @register subtypeIndex dataOffset size _ ho =>
      have htotal : c.genericDataSize + c.subtypeSize subtypeIndex + ceil16 size < 2 ^ 32 := hp
      have hoff := ExtensionContext.dataOffset_eq ho
      have hsub := @ExtensionContext.subtypeSize_register c _ _ size ho (by omega)
      have hlen := ExtensionContext.length_resized subtypeIndex h.length_dataSizes
      refine h.registered rfl rfl (by simpa [ExtensionContext.addExtension] using hlen) le_rfl
        ?_ ?_ ?_
      · -- the data of the subtype only grows
        intro i
        rw [hsub]
        split_ifs with hi
        · rw [hi]
          exact Nat.le_add_right _ _
        · exact le_rfl
      · dsimp only
        rw [if_neg (h.subtypeIndex_lt ho).ne, hsub, if_pos rfl, hoff]
      · intro i
        rw [hsub]
        split_ifs
        · exact (Nat.add_assoc _ _ _).symm.trans_lt htotal
        · exact h.total i
  | registerGeneric size =>
      have htotal : ∀ i, c.genericDataSize + c.subtypeSize i + ceil16 size < 2 ^ 32 := hp
      have hgeneric := @ExtensionContext.genericDataSize_addGeneric c size
        (by have := htotal 0; omega)
      refine h.registered rfl rfl h.length_dataSizes (hgeneric ▸ Nat.le_add_right _ _)
        (fun i => le_rfl) ?_ ?_
      · rw [if_pos rfl, hgeneric]
      · intro i
        rw [hgeneric]
        have := htotal i
        change c.genericDataSize + ceil16 size + c.subtypeSize i < 2 ^ 32
        omega
  | create subtypeIndex data =>
      rw [List.append_nil]
      obtain ⟨-, -, -, hslots⟩ := h.slots.emplace (c.newObject subtypeIndex data)
      exact h.of_slots hslots rfl rfl rfl
  | destroy objectHandle =>
      rw [List.append_nil]
      obtain ⟨hextensions, hgeneric, hsizes⟩ := destroyObject_fields c objectHandle
      refine h.of_slots ?_ hextensions hgeneric hsizes
      rw [c.extensionData_destroyObject]
      exact (h.slots.erase objectHandle).1
  | get =>
      rw [List.append_nil]
      exact h

/-- Extensions are never taken back. -/
theorem extensions (he : Effect canRegister c a c' added) : c.extensions <+: c'.extensions := by
  cases he with
  | register => exact List.prefix_append _ _
  | registerGeneric => exact List.prefix_append _ _
  | create => exact List.prefix_rfl
  | destroy objectHandle => rw [(destroyObject_fields c objectHandle).1]
  | get => exact List.prefix_rfl

end Effect

/-! ### A live object -/

/-- An object of a subtype that lives at `base`, in a context with `generic` bytes of generic data
and `specific` bytes of data for the subtype. -/
structure Live (subtypeIndex objectHandle base generic specific : ℕ) (c : ExtensionContext) :
    Prop where
  data : ∃ data, c.extensionData.resolve objectHandle = some data ∧ data.dataAddr = base
  generic : c.genericDataSize = generic
  specific : c.subtypeSize subtypeIndex = specific

section Address

variable {c : ExtensionContext} {subtypeIndex objectHandle extensionHandle : ℕ}

/-- What `recomp_get_object_data` needs to answer with an address. -/
theorem getImpl_of_objectAddress
    (hr : c.objectAddress subtypeIndex objectHandle extensionHandle ≠ 0) :
    extensionHandle ≠ 0 ∧ c.extensionData.getImpl objectHandle ≠ none ∧
      ∃ extension, c.extensions[extensionHandle]? = some extension ∧
        (extension.subtypeIndex = kGenericSubtype ∨ extension.subtypeIndex = subtypeIndex) := by
  unfold ExtensionContext.objectAddress at hr
  split at hr
  · exact absurd rfl hr
  · next h0 =>
      split at hr
      · exact absurd rfl hr
      · next extension he =>
          split at hr
          · exact absurd rfl hr
          · next hsub =>
              split at hr
              · exact absurd rfl hr
              · next data hd =>
                  refine ⟨h0, by simp [hd], extension, he, ?_⟩
                  by_contra hc
                  exact hsub (not_or.1 hc)

/-- The address of the data of an extension in a live object. -/
theorem Live.objectAddress {base generic specific : ℕ}
    (hl : Live subtypeIndex objectHandle base generic specific c)
    (hslots : SlotMap.SlotInv c.extensionData) {extension : ExtensionInfo}
    (h0 : extensionHandle ≠ 0) (he : c.extensions[extensionHandle]? = some extension)
    (hsub : extension.subtypeIndex = kGenericSubtype ∨ extension.subtypeIndex = subtypeIndex) :
    c.objectAddress subtypeIndex objectHandle extensionHandle =
      u32 (base + if extension.subtypeIndex = kGenericSubtype then extension.dataOffset
        else u32 (extension.dataOffset + generic)) := by
  obtain ⟨data, hdata, rfl⟩ := hl.data
  obtain ⟨slot, hs, rfl⟩ := hslots.getImpl_of_resolve hdata
  have hcheck : ¬ (extension.subtypeIndex ≠ kGenericSubtype ∧
      extension.subtypeIndex ≠ subtypeIndex) := fun hc => hsub.elim hc.1 hc.2
  unfold ExtensionContext.objectAddress
  rw [if_neg h0, he]
  dsimp only
  rw [if_neg hcheck, hs, hl.generic]

end Address

/-- A late call, that is timely and does not destroy the object, keeps it. -/
theorem Effect.live {c c' : ExtensionContext} {a : Call} {sizes added : List ℕ}
    {subtypeIndex objectHandle base generic specific : ℕ} (he : Effect false c a c' added)
    (h : ContextInv c sizes) (ht : a.Timely c) (hd : ¬ a.Destroys objectHandle)
    (hl : Live subtypeIndex objectHandle base generic specific c) :
    Live subtypeIndex objectHandle base generic specific c' := by
  obtain ⟨⟨data, hdata, hbase⟩, hgeneric, hspecific⟩ := hl
  cases he with
  | register _ hr => cases hr
  | registerGeneric size =>
      -- no size, or no object
      rcases ht with rfl | hnone
      · refine ⟨⟨data, hdata, hbase⟩, ?_, hspecific⟩
        have htotal := h.total 0
        rw [← hgeneric]
        exact u32_of_lt (show c.genericDataSize + 0 < 2 ^ 32 by omega)
      · rw [hnone] at hdata
        cases hdata
  | create =>
      exact ⟨⟨data, h.slots.resolve_emplace _ hdata, hbase⟩, hgeneric, hspecific⟩
  | destroy k =>
      obtain ⟨-, hg, hs⟩ := destroyObject_fields c k
      refine ⟨⟨data, ?_, hbase⟩, hg.trans hgeneric, ?_⟩
      · rw [c.extensionData_destroyObject]
        exact h.slots.resolve_erase hdata hd
      · rw [← hspecific, ExtensionContext.subtypeSize, hs]
        rfl
  | get => exact ⟨⟨data, hdata, hbase⟩, hgeneric, hspecific⟩

/-- A handle that leads to nothing is never issued again. -/
theorem Effect.passed {canRegister : Bool} {c c' : ExtensionContext} {a : Call}
    {sizes added : List ℕ} {objectHandle : ℕ} (he : Effect canRegister c a c' added)
    (h : ContextInv c sizes) (hp : c.extensionData.Passed objectHandle) :
    c'.extensionData.Passed objectHandle := by
  cases he with
  | register => exact hp
  | registerGeneric => exact hp
  | create => exact h.slots.passed_emplace _ hp
  | destroy k =>
      rw [c.extensionData_destroyObject]
      exact h.slots.passed_erase k hp
  | get => exact hp

/-! ### Runs -/

/-- Every context has its invariant. -/
def ContextsInv (s : Trace) : Prop :=
  ∀ i c, s.state.typeContexts[i]? = some c → ContextInv c (s.sizes i)

/-- **A proper call** keeps the invariants of the contexts. -/
theorem ContextsInv.step {s t : Trace} {a : ℕ × Call} (h : ContextsInv s) (hp : Proper s a)
    (hst : Step s a t) : ContextsInv t := by
  obtain ⟨typeIndex, a⟩ := a
  obtain ⟨c, c', added, hc, he, hctx, hsizes, -⟩ := hst.spec
  intro i d hd
  rw [hctx] at hd
  rw [hsizes]
  split_ifs at hd ⊢ with hi
  · obtain rfl := Option.some.inj hd
    rw [hi]
    exact he.contextInv (h typeIndex c hc) (hp c hc)
  · exact h i d hd

theorem Reachable.contextsInv {C : Trace → ℕ × Call → Prop} (hC : ∀ s a, C s a → Proper s a)
    {s : Trace} (h : Reachable C s) : ContextsInv s := by
  refine Runs.Reach.invariant ?_ (fun s a t hs ha => hs.step (hC s a ha)) h
  intro s hs i c hc
  obtain ⟨numTypes, rfl⟩ := hs
  obtain rfl := List.eq_of_mem_replicate (List.mem_of_getElem? hc)
  exact .init

/-- What holds of the context of a type, once registration is closed. -/
structure Kept (typeIndex : ℕ) (P : ExtensionContext → Prop) (s : Trace) : Prop where
  contexts : ContextsInv s
  canRegister : s.state.canRegister = false
  context : ∃ c, s.state.typeContexts[typeIndex]? = some c ∧ P c

/-- **What every call keeps** of the context of a type, every run keeps. -/
theorem Kept.of_keeps {typeIndex objectHandle : ℕ} {P : ExtensionContext → Prop}
    {C : Trace → ℕ × Call → Prop} (hC : ∀ s a, C s a → Proper s a)
    (hP : ∀ s c sizes a c' added, C s (typeIndex, a) → s.state.typeContexts[typeIndex]? = some c →
      ContextInv c sizes → ¬ a.Destroys objectHandle → Effect false c a c' added → P c → P c')
    {s t : Trace} (hr : Keeps C typeIndex objectHandle s t) (h : Kept typeIndex P s) :
    Kept typeIndex P t := by
  refine hr.invariant ?_ h
  intro s a t hs ha hst
  obtain ⟨i, a⟩ := a
  obtain ⟨c, c', added, hc, he, hctx, -, hclosed⟩ := hst.spec
  obtain ⟨d, hd, hPd⟩ := hs.context
  refine ⟨hs.contexts.step (hC _ _ ha.1) hst, hclosed hs.canRegister, ?_⟩
  rw [hctx]
  split_ifs with hi
  · subst hi
    obtain rfl := Option.some.inj (hd.symm.trans hc)
    rw [hs.canRegister] at he
    exact ⟨c', rfl, hP s d _ a c' added ha.1 hd (hs.contexts _ d hd) (fun h => ha.2 ⟨rfl, h⟩) he
      hPd⟩
  · exact ⟨d, hd, hPd⟩

theorem Kept.getObjectData {typeIndex subtypeIndex objectHandle extensionHandle r : ℕ}
    {P : ExtensionContext → Prop} {s : Trace} (h : Kept typeIndex P s) :
    s.state.getObjectData typeIndex subtypeIndex objectHandle extensionHandle = some r ↔
      ∃ c, s.state.typeContexts[typeIndex]? = some c ∧ P c ∧
        c.objectAddress subtypeIndex objectHandle extensionHandle = r := by
  obtain ⟨c, hc, hP⟩ := h.context
  simp [Extensions.getObjectData, hc, hP]

/-- The calls of a run in which addresses are stable. -/
def ProperTimely (s : Trace) (a : ℕ × Call) : Prop := Proper s a ∧ Timely s a

/-- **A created object** lives where it was put, under the handle that it was given: or the handle
leads to nothing. -/
theorem Alive.live_or_passed {typeIndex subtypeIndex data objectHandle : ℕ} {s t : Trace}
    (h : Alive ProperTimely typeIndex subtypeIndex data objectHandle s t) :
    ∃ c, s.state.typeContexts[typeIndex]? = some c ∧ ContextInv c (s.sizes typeIndex) ∧
      (Call.create subtypeIndex data).Proper c ∧
      (Kept typeIndex (Live subtypeIndex objectHandle (c.dataPtr subtypeIndex data)
          c.genericDataSize (c.subtypeSize subtypeIndex)) t ∨
        Kept typeIndex (fun c => c.extensionData.Passed objectHandle) t) := by
  obtain ⟨u, hu, hr⟩ := h.created
  have hinv := h.reachable.contextsInv fun _ _ h => h.1
  have hst : Step s (typeIndex, .create subtypeIndex data) { s with state := u } :=
    ⟨objectHandle, u, hu, rfl⟩
  have hinv' := hinv.step h.proper.1 hst
  obtain ⟨c, hc, rfl, rfl⟩ := Extensions.createObjectData_eq_some.1 hu
  have hself := Extensions.getElem?_set_self hc (c.createObject subtypeIndex data).2
  refine ⟨c, hc, hinv _ c hc, h.proper.1 c hc, ?_⟩
  rcases (hinv _ c hc).slots.resolve_or_passed (c.newObject subtypeIndex data)
    (h.proper.2 c hc) with hlive | hpassed
  · refine Or.inl (Kept.of_keeps (fun _ _ h => h.1) ?_ hr
      ⟨hinv', rfl, _, hself, ⟨⟨_, hlive, rfl⟩, rfl, rfl⟩⟩)
    intro s c _ a _ _ ha hc hi hd he hl
    exact he.live hi (ha.2 c hc) hd hl
  · refine Or.inr (Kept.of_keeps (fun _ _ h => h.1) ?_ hr
      ⟨hinv', rfl, _, hself, hpassed⟩)
    intro _ _ _ _ _ _ _ _ hi _ he hl
    exact he.passed hi hl

/-- The handle of an object that has an address is the handle of a live object. -/
theorem Alive.live {typeIndex subtypeIndex data objectHandle extensionHandle r : ℕ} {s t : Trace}
    (h : Alive ProperTimely typeIndex subtypeIndex data objectHandle s t)
    (hget : t.state.getObjectData typeIndex subtypeIndex objectHandle extensionHandle = some r)
    (hr : r ≠ 0) :
    ∃ c, s.state.typeContexts[typeIndex]? = some c ∧ ContextInv c (s.sizes typeIndex) ∧
      (Call.create subtypeIndex data).Proper c ∧
      Kept typeIndex (Live subtypeIndex objectHandle (c.dataPtr subtypeIndex data)
        c.genericDataSize (c.subtypeSize subtypeIndex)) t := by
  obtain ⟨c, hc, hi, hp, hlive | hpassed⟩ := h.live_or_passed
  · exact ⟨c, hc, hi, hp, hlive⟩
  · obtain ⟨d, hd, hdp, rfl⟩ := hpassed.getObjectData.1 hget
    obtain ⟨-, hnone, -⟩ := getImpl_of_objectAddress hr
    exact absurd ((hpassed.contexts _ d hd).slots.getImpl_of_passed hdp) hnone

/-- What ends inside the size of a block lies inside the block, unless its address is null. -/
theorem inside_block {c : ExtensionContext} {subtypeIndex data offset size : ℕ}
    (hend : offset + size ≤ c.allocSize subtypeIndex)
    (hp : (Call.create subtypeIndex data).Proper c)
    (hr : u32 (c.dataPtr subtypeIndex data + offset) ≠ 0) :
    c.dataPtr subtypeIndex data ≤ u32 (c.dataPtr subtypeIndex data + offset) ∧
      u32 (c.dataPtr subtypeIndex data + offset) + size ≤
        c.dataPtr subtypeIndex data + c.allocSize subtypeIndex := by
  have hproper : c.allocSize subtypeIndex ≠ 0 →
    data ≠ 0 ∧ data + c.allocSize subtypeIndex ≤ 2 ^ 32 := hp
  unfold ExtensionContext.dataPtr u32 at *
  split_ifs at hr ⊢ with h0
  · obtain ⟨-, hle⟩ := hproper h0
    omega
  · -- no block: every offset is zero, and the address is null
    omega

/-- The data of an extension ends inside the data of the object. -/
theorem ContextInv.offset_le {c : ExtensionContext} {sizes : List ℕ} (h : ContextInv c sizes)
    {extension : ExtensionInfo} {extensionHandle size subtypeIndex : ℕ}
    (he : c.extensions[extensionHandle]? = some extension)
    (hsize : sizes[extensionHandle]? = some size)
    (hsub : extension.subtypeIndex = kGenericSubtype ∨ extension.subtypeIndex = subtypeIndex) :
    (if extension.subtypeIndex = kGenericSubtype then extension.dataOffset
        else u32 (extension.dataOffset + c.genericDataSize)) + ceil16 size ≤
      c.genericDataSize + c.subtypeSize subtypeIndex := by
  have hfits := h.fits _ _ _ he hsize
  have htotal := h.total subtypeIndex
  split_ifs at hfits ⊢ with hg
  · omega
  · rw [hsub.resolve_left hg] at hfits
    rw [u32_of_lt (by omega)]
    omega

namespace Kept

variable {typeIndex subtypeIndex objectHandle extensionHandle base generic specific r : ℕ}
  {t t' : Trace}

/-- The address of a live object is the same at a later lookup. -/
theorem same (h : Kept typeIndex (Live subtypeIndex objectHandle base generic specific) t)
    (hget : t.state.getObjectData typeIndex subtypeIndex objectHandle extensionHandle = some r)
    (hr : r ≠ 0) (hkeeps : Keeps ProperTimely typeIndex objectHandle t t') :
    t'.state.getObjectData typeIndex subtypeIndex objectHandle extensionHandle = some r := by
  obtain ⟨d, hd, hlive, rfl⟩ := h.getObjectData.1 hget
  obtain ⟨h0, -, extension, he, hsub⟩ := getImpl_of_objectAddress hr
  -- the object stays where it is, and the extension is not taken back
  have hkept := Kept.of_keeps (P := fun c =>
      Live subtypeIndex objectHandle base generic specific c ∧ d.extensions <+: c.extensions)
    (fun _ _ h => h.1) (fun s c _ a _ _ ha hc hi hd he hl =>
      ⟨he.live hi (ha.2 c hc) hd hl.1, hl.2.trans he.extensions⟩)
    hkeeps ⟨h.contexts, h.canRegister, d, hd, hlive, List.prefix_rfl⟩
  obtain ⟨d', hd', hlive', l, hl⟩ := hkept.context
  have he' : d'.extensions[extensionHandle]? = some extension := by
    rw [← hl, List.getElem?_append_left (List.getElem?_eq_some_iff.1 he).1, he]
  refine hkept.getObjectData.2 ⟨d', hd', ⟨hlive', l, hl⟩, ?_⟩
  rw [hlive.objectAddress (h.contexts _ d hd).slots h0 he hsub,
    hlive'.objectAddress (hkept.contexts _ d' hd').slots h0 he' hsub]

/-- The data of an extension lies inside the block of a live object. -/
theorem inside {c : ExtensionContext} {sizes : List ℕ} {data : ℕ}
    (h : Kept typeIndex (Live subtypeIndex objectHandle (c.dataPtr subtypeIndex data)
      c.genericDataSize (c.subtypeSize subtypeIndex)) t)
    (hi : ContextInv c sizes) (hp : (Call.create subtypeIndex data).Proper c)
    (hget : t.state.getObjectData typeIndex subtypeIndex objectHandle extensionHandle = some r)
    (hr : r ≠ 0) :
    ∃ size, (t.sizes typeIndex)[extensionHandle]? = some size ∧ c.dataPtr subtypeIndex data ≤ r ∧
      r + ceil16 size ≤ c.dataPtr subtypeIndex data + c.allocSize subtypeIndex := by
  obtain ⟨d, hd, hlive, rfl⟩ := h.getObjectData.1 hget
  obtain ⟨h0, -, extension, he, hsub⟩ := getImpl_of_objectAddress hr
  have hinv := h.contexts _ d hd
  have hlt : extensionHandle < (t.sizes typeIndex).length := by
    rw [hinv.length_sizes]
    exact (List.getElem?_eq_some_iff.1 he).1
  have hsize := List.getElem?_eq_getElem hlt
  have hend := hinv.offset_le he hsize hsub
  -- the block has been sized by the totals of the present
  rw [hlive.generic, hlive.specific, ← ExtensionContext.allocSize_eq (hi.total _)] at hend
  rw [hlive.objectAddress hinv.slots h0 he hsub] at hr ⊢
  exact ⟨_, hsize, inside_block hend hp hr⟩

end Kept

/-- **Addresses are stable** in every run in which no generic extension with a size is registered
while a handle leads to an object of the type, and no slot is appended under a key in use. -/
theorem addresses_stable {typeIndex subtypeIndex data objectHandle extensionHandle r : ℕ}
    {s t : Trace} (ha : Alive ProperTimely typeIndex subtypeIndex data objectHandle s t)
    (hget : t.state.getObjectData typeIndex subtypeIndex objectHandle extensionHandle = some r)
    (hr : r ≠ 0) :
    AddressStable ProperTimely typeIndex subtypeIndex data objectHandle extensionHandle r s t := by
  obtain ⟨c, hc, hi, hp, hkept⟩ := ha.live hget hr
  obtain ⟨size, hsize, hinside⟩ := hkept.inside hi hp hget hr
  exact ⟨fun t' => hkept.same hget hr, c, size, hc, hsize, hinside⟩

/-! ### A late generic extension -/

/-- A type with an extension of 5 bytes for the objects of the subtype 0. -/
def oneExtension : Trace := (Trace.init 1).registered 0 5
  ((Extensions.registerObjectExtension (.initExtendedObjectData 1) 0 0 5).getD
    (0, .initExtendedObjectData 1)).2

/-- The contexts behind the creation of an object of the subtype 0. -/
def Trace.withObject (s : Trace) (data : ℕ) : Trace :=
  { s with state := ((s.state.createObjectData 0 0 data).getD (0, s.state)).2 }

theorem oneExtension_step : Step (.init 1) (0, .register 0 5) oneExtension := ⟨1, _, rfl, rfl⟩

theorem properTimely_oneExtension : ProperTimely (.init 1) (0, .register 0 5) := by
  refine ⟨?_, fun _ _ => trivial⟩
  intro c hc
  obtain rfl := Option.some.inj hc
  change 0 + 0 + ceil16 5 < 2 ^ 32
  decide

theorem properTimely_withObject : ProperTimely oneExtension (0, .create 0 0x80001000) := by
  constructor <;>
  · intro c hc
    obtain rfl := Option.some.inj hc
    intro _
    decide

theorem oneExtension_alive {C : Trace → ℕ × Call → Prop} (hC : ∀ s a, ProperTimely s a → C s a) :
    Alive C 0 0 0x80001000 0x00100000 oneExtension (oneExtension.withObject 0x80001000) where
  reachable :=
    (Runs.Reach.init ⟨1, rfl⟩).step _ (hC _ _ properTimely_oneExtension) oneExtension_step
  proper := hC _ _ properTimely_withObject
  created := ⟨_, rfl, .refl⟩

/-- The address behind the creation of a second object. -/
theorem addresses_stable_secondObject :
    ((oneExtension.withObject 0x80001000).withObject 0x80002000).state.getObjectData 0 0
      0x00100000 1 = some 0x80001000 := by
  have hsecond : Step (oneExtension.withObject 0x80001000) (0, .create 0 0x80002000)
      ((oneExtension.withObject 0x80001000).withObject 0x80002000) := ⟨0x00100001, _, rfl, rfl⟩
  have hok : ProperTimely (oneExtension.withObject 0x80001000) (0, .create 0 0x80002000) := by
    constructor <;>
    · intro c hc
      obtain rfl := Option.some.inj hc
      intro _
      decide
  exact (addresses_stable (oneExtension_alive fun _ _ h => h) rfl (by decide)).same _
    (.single ⟨hok, fun hd => hd.2⟩ hsecond)

/-- **An address that moves**: a generic extension of 16 bytes is registered behind the creation of
the object. -/
theorem address_moves : ∃ s t : Trace, Alive Proper 0 0 0x80001000 0x00100000 s t ∧
    t.state.getObjectData 0 0 0x00100000 1 = some 0x80001000 ∧
      ¬ AddressStable Proper 0 0 0x80001000 0x00100000 1 0x80001000 s t := by
  refine ⟨_, _, oneExtension_alive fun _ _ h => h.1, rfl, ?_⟩
  intro h
  have hlate : Step (oneExtension.withObject 0x80001000) (0, .registerGeneric 16) _ :=
    ⟨2, _, rfl, rfl⟩
  have hproper : Proper (oneExtension.withObject 0x80001000) (0, .registerGeneric 16) := by
    intro c hc
    obtain rfl := Option.some.inj hc
    intro subtypeIndex
    cases subtypeIndex with
    | zero => decide
    | succ i =>
        change 0 + 0 + ceil16 16 < 2 ^ 32
        decide
  have hsame := h.same _ (.single ⟨hproper, fun hd => hd.2⟩ hlate)
  exact absurd hsame (by decide)

end ObjectData

end Data
