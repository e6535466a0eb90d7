/-
**The extension data of objects.**

`src/game/recomp_extension_api.cpp` lets mods attach data to the objects of a type.  A mod registers
an extension, for every object of the type or for those of one subtype, and gets a handle for it;
when an object is created, one block is allocated for all of its extensions, the generic ones first;
the address of an extension is computed at each lookup, from the offset that was given out with the
handle and from the total size of the generic extensions at that moment.

Sizes, offsets and addresses are `u32`.  The allocator is not part of the repository: the address
that it answers with is an argument of `createObjectData`.

Main definitions:

* `Data.ExtensionContext`, `Data.Extensions` — the context of a type, and all of them;
* `Data.Extensions.registerObjectExtension`, `Data.Extensions.registerObjectExtensionGeneric`,
  `Data.Extensions.createObjectData`, `Data.Extensions.destroyObjectData`,
  `Data.Extensions.getObjectData` — the calls;
* `Data.objectData` — the handle table of a type.
-/

import TsaRecomp.Data.HandleTable

set_option relaxedAutoImplicit false
set_option autoImplicit false

namespace Data

/-! ### The contexts -/

/-- `ExtensionInfo` -/
structure ExtensionInfo where
  subtypeIndex : ℕ
  dataOffset : ℕ
  deriving DecidableEq, Repr

/-- The `subtype_index` of a generic extension. -/
def kGenericSubtype : ℕ := 0xffffffff

/-- `ExtensionData` -/
structure ExtensionData where
  objectSpawnIndex : ℕ
  dataAddr : ℕ
  deriving DecidableEq, Repr

/-- `ExtensionContext` -/
structure ExtensionContext where
  dataSizes : List ℕ
  genericDataSize : ℕ
  extensions : List ExtensionInfo
  extensionData : SlotMap ExtensionData
  spawnCount : ℕ
  allocCount : ℕ
  freeCount : ℕ
  deriving DecidableEq, Repr

/-- The context of a type, with the dummy extension that takes the handle 0. -/
def ExtensionContext.init : ExtensionContext where
  dataSizes := []
  genericDataSize := 0
  extensions := [⟨0, 0⟩]
  extensionData := .empty
  spawnCount := 0
  allocCount := 0
  freeCount := 0

/-- The globals of the file. -/
structure Extensions where
  typeContexts : List ExtensionContext
  canRegister : Bool
  deriving DecidableEq, Repr

/-- The value of a `u32`. -/
def u32 (n : ℕ) : ℕ := n % 2 ^ 32

/-- `round_up_16` -/
def roundUp16 (value : ℕ) : ℕ := u32 (value + 15) &&& Key.u32Not 15

namespace ExtensionContext

variable (c : ExtensionContext)

/-- `data_sizes.resize(subtype_index + 1)`, where it is called. -/
def resized (subtypeIndex : ℕ) : List ℕ :=
  if c.dataSizes.length ≤ subtypeIndex then
    (c.dataSizes.take (u32 (subtypeIndex + 1))).rightpad (u32 (subtypeIndex + 1)) 0
  else c.dataSizes

/-- `alloc_size`, in `recomp_create_object_data`. -/
def allocSize (subtypeIndex : ℕ) : ℕ :=
  match c.dataSizes[subtypeIndex]? with
  | some subtypeDataSize => u32 (c.genericDataSize + subtypeDataSize)
  | none => c.genericDataSize

/-- `data_ptr`, in `recomp_create_object_data`, where `data` is what the allocator answers with. -/
def dataPtr (subtypeIndex data : ℕ) : ℕ := if c.allocSize subtypeIndex ≠ 0 then data else 0

/-- The context behind `recomp_register_object_extension`. -/
def addExtension (subtypeIndex dataOffset size : ℕ) : ExtensionContext :=
  { c with
    dataSizes := (c.resized subtypeIndex).set subtypeIndex (u32 (dataOffset + roundUp16 size))
    extensions := c.extensions ++ [⟨subtypeIndex, dataOffset⟩] }

/-- The context behind `recomp_register_object_extension_generic`. -/
def addGeneric (size : ℕ) : ExtensionContext :=
  { c with
    genericDataSize := u32 (c.genericDataSize + roundUp16 size)
    extensions := c.extensions ++ [⟨kGenericSubtype, c.genericDataSize⟩] }

/-- The object that `recomp_create_object_data` puts into the slot map. -/
def newObject (subtypeIndex data : ℕ) : ExtensionData where
  objectSpawnIndex := c.spawnCount
  dataAddr := c.dataPtr subtypeIndex data

/-- The handle, and the context behind `recomp_create_object_data`. -/
def createObject (subtypeIndex data : ℕ) : ℕ × ExtensionContext :=
  let (key, extensionData) := c.extensionData.emplace (c.newObject subtypeIndex data)
  (key, { c with
    allocCount := if c.allocSize subtypeIndex ≠ 0 then c.allocCount + 1 else c.allocCount
    spawnCount := u32 (c.spawnCount + 1)
    extensionData })

/-- The context behind `recomp_destroy_object_data`. -/
def destroyObject (objectHandle : ℕ) : ExtensionContext :=
  match c.extensionData.getImpl objectHandle with
  | some data =>
      { c with
        freeCount := if data.value.dataAddr ≠ 0 then c.freeCount + 1 else c.freeCount
        extensionData := c.extensionData.erase objectHandle }
  | none => c

/-- The address that `recomp_get_object_data` answers with. -/
def objectAddress (subtypeIndex objectHandle extensionHandle : ℕ) : ℕ :=
  if extensionHandle = 0 then 0
  else match c.extensions[extensionHandle]? with
    | none => 0
    | some extension =>
        if extension.subtypeIndex ≠ kGenericSubtype ∧ extension.subtypeIndex ≠ subtypeIndex then 0
        else match c.extensionData.getImpl objectHandle with
          | none => 0
          | some data =>
              -- the data of a subtype is behind the generic data
              let offset :=
                if extension.subtypeIndex = kGenericSubtype then extension.dataOffset
                else u32 (extension.dataOffset + c.genericDataSize)
              u32 (data.value.dataAddr + offset)

end ExtensionContext

/-! ### The calls -/

namespace Extensions

/-- `init_extended_object_data` -/
def initExtendedObjectData (numTypes : ℕ) : Extensions where
  typeContexts := List.replicate numTypes .init
  canRegister := true

variable (s : Extensions)

/-- `recomp_register_object_extension`: the handle, unless registration is closed, or `data_sizes`
is left too short for the subtype. -/
def registerObjectExtension (typeIndex subtypeIndex size : ℕ) : Option (ℕ × Extensions) := do
  let c ← s.typeContexts[typeIndex]?
  guard s.canRegister
  let dataOffset ← (c.resized subtypeIndex)[subtypeIndex]?
  some (u32 c.extensions.length, { s with
    typeContexts := s.typeContexts.set typeIndex (c.addExtension subtypeIndex dataOffset size) })

/-- `recomp_register_object_extension_generic` -/
def registerObjectExtensionGeneric (typeIndex size : ℕ) : Option (ℕ × Extensions) := do
  let c ← s.typeContexts[typeIndex]?
  some (u32 c.extensions.length, { s with
    typeContexts := s.typeContexts.set typeIndex (c.addGeneric size) })

/-- `recomp_create_object_data` -/
def createObjectData (typeIndex subtypeIndex data : ℕ) : Option (ℕ × Extensions) := do
  let c ← s.typeContexts[typeIndex]?
  let (key, c') := c.createObject subtypeIndex data
  some (key, { typeContexts := s.typeContexts.set typeIndex c', canRegister := false })

/-- `recomp_destroy_object_data` -/
def destroyObjectData (typeIndex objectHandle : ℕ) : Option Extensions := do
  let c ← s.typeContexts[typeIndex]?
  some { s with typeContexts := s.typeContexts.set typeIndex (c.destroyObject objectHandle) }

/-- `recomp_get_object_data` -/
def getObjectData (typeIndex subtypeIndex objectHandle extensionHandle : ℕ) : Option ℕ := do
  let c ← s.typeContexts[typeIndex]?
  some (c.objectAddress subtypeIndex objectHandle extensionHandle)

/-- The slot map of a type. -/
def objects (typeIndex : ℕ) : SlotMap ExtensionData :=
  (s.typeContexts[typeIndex]?).elim .empty ExtensionContext.extensionData

end Extensions

/-! ### The handle table of a type -/

theorem ExtensionContext.extensionData_destroyObject (c : ExtensionContext) (objectHandle : ℕ) :
    (c.destroyObject objectHandle).extensionData = c.extensionData.erase objectHandle := by
  unfold destroyObject
  cases hg : c.extensionData.getImpl objectHandle with
  | some data => rfl
  | none =>
      refine (SlotMap.SlotInv.erase_notFound fun slot hs => Or.inr ?_).symm
      intro hv
      simp [SlotMap.getImpl, hs, hv] at hg

theorem Extensions.registerObjectExtension_eq_some {s t : Extensions}
    {typeIndex subtypeIndex size h : ℕ} :
    s.registerObjectExtension typeIndex subtypeIndex size = some (h, t) ↔
      ∃ c dataOffset, s.typeContexts[typeIndex]? = some c ∧ s.canRegister = true ∧
        (c.resized subtypeIndex)[subtypeIndex]? = some dataOffset ∧ h = u32 c.extensions.length ∧
        t = { s with typeContexts :=
          s.typeContexts.set typeIndex (c.addExtension subtypeIndex dataOffset size) } := by
  unfold registerObjectExtension
  cases hc : s.typeContexts[typeIndex]? with
  | none => simp
  | some c =>
      cases hr : s.canRegister <;> cases ho : (c.resized subtypeIndex)[subtypeIndex]? <;>
        simp [ho, eq_comm]

theorem Extensions.registerObjectExtensionGeneric_eq_some {s t : Extensions}
    {typeIndex size h : ℕ} :
    s.registerObjectExtensionGeneric typeIndex size = some (h, t) ↔
      ∃ c, s.typeContexts[typeIndex]? = some c ∧ h = u32 c.extensions.length ∧
        t = { s with typeContexts := s.typeContexts.set typeIndex (c.addGeneric size) } := by
  unfold registerObjectExtensionGeneric
  cases hc : s.typeContexts[typeIndex]? with
  | none => simp
  | some c => simp [eq_comm]

theorem Extensions.createObjectData_eq_some {s t : Extensions} {typeIndex subtypeIndex data h : ℕ} :
    s.createObjectData typeIndex subtypeIndex data = some (h, t) ↔
      ∃ c, s.typeContexts[typeIndex]? = some c ∧ h = (c.createObject subtypeIndex data).1 ∧
        t = ⟨s.typeContexts.set typeIndex (c.createObject subtypeIndex data).2, false⟩ := by
  unfold createObjectData
  cases hc : s.typeContexts[typeIndex]? with
  | none => simp
  | some c => simp [eq_comm]

theorem Extensions.destroyObjectData_eq_some {s t : Extensions} {typeIndex h : ℕ} :
    s.destroyObjectData typeIndex h = some t ↔
      ∃ c, s.typeContexts[typeIndex]? = some c ∧
        t = { s with typeContexts := s.typeContexts.set typeIndex (c.destroyObject h) } := by
  unfold destroyObjectData
  cases hc : s.typeContexts[typeIndex]? with
  | none => simp
  | some c => simp [eq_comm]

theorem Extensions.getElem?_set {s : Extensions} {typeIndex : ℕ} {c : ExtensionContext}
    (hc : s.typeContexts[typeIndex]? = some c) (c' : ExtensionContext) (i : ℕ) :
    (s.typeContexts.set typeIndex c')[i]? =
      if i = typeIndex then some c' else s.typeContexts[i]? := by
  obtain ⟨hlt, -⟩ := List.getElem?_eq_some_iff.1 hc
  rw [List.getElem?_set]
  by_cases hi : typeIndex = i
  · rw [if_pos hi, if_pos hi.symm, if_pos (hi ▸ hlt)]
  · rw [if_neg hi, if_neg (Ne.symm hi)]

theorem Extensions.getElem?_set_self {s : Extensions} {typeIndex : ℕ} {c : ExtensionContext}
    (hc : s.typeContexts[typeIndex]? = some c) (c' : ExtensionContext) :
    (s.typeContexts.set typeIndex c')[typeIndex]? = some c' := by
  rw [getElem?_set hc, if_pos rfl]

/-- The table behind `recomp_create_object_data` and `recomp_destroy_object_data`. -/
def objectData (typeIndex : ℕ) : HandleTable where
  State := Extensions
  Elem := ExtensionData
  -- the subtype, and the address that the allocator answers with
  Arg := ℕ × ℕ
  initial s := s.objects typeIndex = .empty
  create s a := s.createObjectData typeIndex a.1 a.2
  elem s a := (s.typeContexts[typeIndex]?).elim ⟨0, 0⟩ fun c => c.newObject a.1 a.2
  destroy s h := s.destroyObjectData typeIndex h
  get s h := (s.objects typeIndex).getImpl h
  map s := s.objects typeIndex
  map_initial _ h := h
  map_create s a h t hcreate := by
    obtain ⟨c, hc, rfl, rfl⟩ := Extensions.createObjectData_eq_some.1 hcreate
    simp only [Extensions.objects, Extensions.getElem?_set hc, hc, if_true, Option.elim_some]
    rfl
  map_destroy s h t hd := by
    obtain ⟨c, hc, rfl⟩ := Extensions.destroyObjectData_eq_some.1 hd
    simp only [Extensions.objects, Extensions.getElem?_set hc, hc, if_true, Option.elim_some]
    exact c.extensionData_destroyObject h
  get_eq _ _ := rfl

end Data
