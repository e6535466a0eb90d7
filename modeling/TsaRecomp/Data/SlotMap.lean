/-
**The slot map with 32-bit keys.**

`slot_map32` of `lib/SlotMap/slot_map.h` keeps its elements in pages of 4096 slots that never move.
A key names a slot by its index and one of the lives of that slot by its version: `erase` raises the
version of the slot, so that the keys handed out before stop matching, and puts the slot on a free
list; `emplace` takes the slot at the front of the free list when more than 64 wait there, and
appends a new slot otherwise.

The assertions of the header are not part of the model, as in a build without them.

Main definitions:

* `Data.Key.make`, `Data.Key.toIndex`, `Data.Key.toVersion` — `slot_map_key32`;
* `Data.SlotMap`, `Data.Page`, `Data.Slot` — the map;
* `Data.SlotMap.emplace`, `Data.SlotMap.eraseImpl`, `Data.SlotMap.getImpl`, `Data.SlotMap.hasKey`.

Main results:

* `Data.Key.toIndex_make`, `Data.Key.toVersion_make`, `Data.Key.clearTagAndUpdateVersion_eq` — the
  fields of a key;
* `Data.SlotMap.slotAt_modifySlot`, `Data.SlotMap.slotAt_appendElement` — a slot behind the two
  writes to the pages.
-/

import Mathlib.Data.List.Basic
import Mathlib.Data.Nat.Bitwise
import Mathlib.Tactic

set_option relaxedAutoImplicit false
set_option autoImplicit false

namespace Data

/-! ### Keys -/

/-! A `slot_map_key32` is its raw value, a `u32`: 2 bits of tag, 10 of version, 20 of index. -/

namespace Key

def kInvalidVersion : ℕ := 0
def kMinVersion : ℕ := 1
def kMaxVersion : ℕ := 0x400
def kMaxIndex : ℕ := 0x000fffff

def kIndexMask : ℕ := 0x000fffff
def kVersionMask : ℕ := 0x3ff00000
def kVersionShift : ℕ := 20
def kHandleTagMask : ℕ := 0xc0000000

/-- The complement of a `u32`. -/
def u32Not (x : ℕ) : ℕ := 0xffffffff ^^^ x

/-- `make` -/
def make (version index : ℕ) : ℕ :=
  ((version <<< kVersionShift) &&& kVersionMask) ||| (index &&& kIndexMask)

/-- `clearTagAndUpdateVersion` -/
def clearTagAndUpdateVersion (key : ℕ) (version : ℕ) : ℕ :=
  ((key &&& u32Not kVersionMask) ||| ((version <<< kVersionShift) &&& kVersionMask)) &&&
    u32Not kHandleTagMask

/-- `toIndex` -/
def toIndex (key : ℕ) : ℕ := key &&& kIndexMask

/-- `toVersion` -/
def toVersion (key : ℕ) : ℕ := (key &&& kVersionMask) >>> kVersionShift

/-- `increaseVersion` -/
def increaseVersion (version : ℕ) : ℕ := version + 1

/-! The fields of a key in arithmetic. -/

theorem toIndex_eq (key : ℕ) : toIndex key = key % 2 ^ 20 :=
  Nat.and_two_pow_sub_one_eq_mod key 20

theorem toVersion_eq (key : ℕ) : toVersion key = key / 2 ^ 20 % 2 ^ 10 := by
  rw [toVersion, Nat.shiftRight_and_distrib, Nat.shiftRight_eq_div_pow]
  exact Nat.and_two_pow_sub_one_eq_mod _ 10

/-- The version field of a key. -/
theorem version_field (version : ℕ) :
    (version <<< kVersionShift) &&& kVersionMask = (version % 2 ^ 10) <<< 20 := by
  have hmask : kVersionMask = (2 ^ 10 - 1) <<< 20 := rfl
  rw [hmask, kVersionShift, ← Nat.shiftLeft_and_distrib, Nat.and_two_pow_sub_one_eq_mod]

theorem make_eq (version index : ℕ) :
    make version index = version % 2 ^ 10 * 2 ^ 20 + index % 2 ^ 20 := by
  rw [make, version_field, show index &&& kIndexMask = index % 2 ^ 20 from toIndex_eq index,
    ← Nat.shiftLeft_add_eq_or_of_lt (Nat.mod_lt _ (by decide)), Nat.shiftLeft_eq]

@[simp] theorem toIndex_make (version index : ℕ) :
    toIndex (make version index) = index % 2 ^ 20 := by
  rw [toIndex_eq, make_eq]
  omega

@[simp] theorem toVersion_make (version index : ℕ) :
    toVersion (make version index) = version % 2 ^ 10 := by
  rw [toVersion_eq, make_eq]
  omega

theorem make_lt (version index : ℕ) : make version index < 2 ^ 30 := by
  rw [make_eq]
  omega

/-- A key without a tag is made of its two fields. -/
theorem make_toVersion_toIndex {key : ℕ} (h : key < 2 ^ 30) :
    make (toVersion key) (toIndex key) = key := by
  rw [make_eq, toVersion_eq, toIndex_eq]
  omega

/-- A key without its tag, from the fields of the key. -/
theorem mod_eq_make (key : ℕ) : key % 2 ^ 30 = make (toVersion key) (toIndex key) := by
  rw [make_eq, toVersion_eq, toIndex_eq]
  omega

/-- `clearTagAndUpdateVersion` keeps the index of the key and nothing else. -/
theorem clearTagAndUpdateVersion_eq (key : ℕ) (version : ℕ) :
    clearTagAndUpdateVersion key version = make version (toIndex key) := by
  have hindex : key &&& u32Not kVersionMask &&& u32Not kHandleTagMask = key &&& kIndexMask := by
    rw [Nat.and_assoc]
    rfl
  have hversion : (version <<< kVersionShift) &&& kVersionMask &&& u32Not kHandleTagMask =
      (version <<< kVersionShift) &&& kVersionMask := by
    rw [Nat.and_assoc]
    rfl
  have hidem : toIndex key &&& kIndexMask = key &&& kIndexMask := by
    rw [toIndex, Nat.and_assoc, Nat.and_self]
  rw [clearTagAndUpdateVersion, Nat.and_or_distrib_right, hindex, hversion, make, hidem,
    Nat.or_comm]

end Key

/-! ### The map -/

def kPageSize : ℕ := 4096
def kMinFreeIndices : ℕ := 64

/-- A slot: its `Meta`, and the element in its storage.  An erased element stays there until the
slot is used again. -/
structure Slot (T : Type) where
  version : ℕ
  tombstone : Bool
  inactive : Bool
  value : T
  deriving DecidableEq, Repr

/-- The element that lives in a slot. -/
def Slot.element? {T : Type} (s : Slot T) : Option T := if s.tombstone then none else some s.value

/-- A page, with its used slots: `numUsedElements` is their number. -/
structure Page (T : Type) where
  /-- The memory of the page is allocated. -/
  rawMemory : Bool
  slots : List (Slot T)
  numInactiveSlots : ℕ
  deriving DecidableEq, Repr

/-- `Page::allocate` -/
def Page.allocate (T : Type) : Page T where
  rawMemory := true
  slots := []
  numInactiveSlots := 0

/-- `slot_map32` -/
structure SlotMap (T : Type) where
  pages : List (Page T)
  freeIndices : List ℕ
  numItems : ℕ
  maxValidIndex : ℕ
  deriving DecidableEq, Repr

/-- What `eraseImpl` tells its caller. -/
inductive EraseResult
  | notFound
  | erasedAndIndexRecycled
  | erasedAndPageDeactivated
  deriving DecidableEq, Repr

namespace SlotMap

variable {T : Type}

/-- The constructor; `reset` leaves the same. -/
def empty : SlotMap T where
  pages := []
  freeIndices := []
  numItems := 0
  maxValidIndex := 0

/-- `getMetaByAddr(getAddrFromIndex(index))` and `getValueByAddr`. -/
def slotAt (m : SlotMap T) (index : ℕ) : Option (Slot T) :=
  (m.pages[index / kPageSize]?).bind fun page => page.slots[index % kPageSize]?

/-- `isActivePage(getAddrFromIndex(index))` -/
def isActivePage (m : SlotMap T) (index : ℕ) : Bool :=
  (m.pages[index / kPageSize]?).any Page.rawMemory

/-- The slot a key leads to, whatever its version: the tests that `getImpl`, `has_key` and
`eraseImpl` start with. -/
def validSlot (m : SlotMap T) (k : ℕ) : Option (Slot T) :=
  if m.maxValidIndex < Key.toIndex k then none
  else if m.isActivePage (Key.toIndex k) then m.slotAt (Key.toIndex k)
  else none

/-- `getImpl`: the slot whose storage the pointer leads to. -/
def getImpl (m : SlotMap T) (k : ℕ) : Option (Slot T) :=
  (m.validSlot k).filter fun slot => slot.version = Key.toVersion k

/-- `has_key` -/
def hasKey (m : SlotMap T) (k : ℕ) : Bool :=
  (m.validSlot k).any fun slot => slot.version = Key.toVersion k

/-- Writing to a slot. -/
def modifySlot (m : SlotMap T) (index : ℕ) (f : Slot T → Slot T) : SlotMap T :=
  { m with
    pages := m.pages.modify (index / kPageSize) fun page =>
      { page with slots := page.slots.modify (index % kPageSize) f } }

/-- `appendElement`, with the construction of the element behind it. -/
def appendElement (m : SlotMap T) (value : T) : SlotMap T × ℕ :=
  let pages :=
    if (m.pages.getLast?).all fun page => page.slots.length = kPageSize then
      m.pages ++ [Page.allocate T]
    else m.pages
  let elementIndex := (pages.getLast?).elim 0 fun page => page.slots.length
  let slot : Slot T := { version := Key.kMinVersion, tombstone := false, inactive := false, value }
  ({ m with
    pages := pages.modify (pages.length - 1) fun page =>
      { page with slots := page.slots ++ [slot] } },
    (pages.length - 1) * kPageSize + elementIndex)

/-- `emplace` -/
def emplace (m : SlotMap T) (value : T) : ℕ × SlotMap T :=
  -- the slot that has waited longest
  if kMinFreeIndices < m.freeIndices.length then
    let k := m.freeIndices.headD 0
    let m := { m with freeIndices := m.freeIndices.tail }
    let m := m.modifySlot (Key.toIndex k) fun slot => { slot with tombstone := false, value }
    (k, { m with numItems := m.numItems + 1 })
  else
    let (m, index) := m.appendElement value
    let m := { m with maxValidIndex := max m.maxValidIndex index, numItems := m.numItems + 1 }
    (Key.make Key.kMinVersion index, m)

/-- `eraseImpl`, the end of a slot whose versions are used up. -/
def deactivate (m : SlotMap T) (index : ℕ) : EraseResult × SlotMap T :=
  let m := m.modifySlot index fun slot => { slot with inactive := true, tombstone := true }
  let m := { m with
    numItems := m.numItems - 1
    pages := m.pages.modify (index / kPageSize) fun page =>
      { page with numInactiveSlots := page.numInactiveSlots + 1 } }
  if (m.pages[index / kPageSize]?).any fun page => page.numInactiveSlots = kPageSize then
    (.erasedAndPageDeactivated, { m with
      pages := m.pages.modify (index / kPageSize) fun page => { page with rawMemory := false } })
  else (.erasedAndIndexRecycled, m)

/-- `eraseImpl<VERSION_CHECK>` -/
def eraseImpl (versionCheck : Bool) (m : SlotMap T) (k : ℕ) : EraseResult × SlotMap T :=
  match m.validSlot k with
  | none => (.notFound, m)
  | some slot =>
      if slot.tombstone then (.notFound, m)
      else if versionCheck ∧ (slot.version ≠ Key.toVersion k ∨ slot.version = Key.kInvalidVersion ∨
          Key.toVersion k = Key.kInvalidVersion) then (.notFound, m)
      -- the versions of the slot are used up
      else if slot.version = Key.kMaxVersion then m.deactivate (Key.toIndex k)
      else
        let slotVersion := Key.increaseVersion slot.version
        let m := m.modifySlot (Key.toIndex k) fun slot =>
          { slot with version := slotVersion, tombstone := true }
        (.erasedAndIndexRecycled, { m with
          numItems := m.numItems - 1
          freeIndices := m.freeIndices ++ [Key.clearTagAndUpdateVersion k slotVersion] })

/-- `erase` -/
def erase (m : SlotMap T) (k : ℕ) : SlotMap T := (m.eraseImpl true k).2

/-! ### The pages -/

/-- The number of slots. -/
def numSlots (m : SlotMap T) : ℕ :=
  (m.pages.getLast?).elim 0 fun page => (m.pages.length - 1) * kPageSize + page.slots.length

/-- The pages are filled one after the other. -/
structure Filled (m : SlotMap T) : Prop where
  full : ∀ i page, m.pages[i]? = some page → i + 1 < m.pages.length →
    page.slots.length = kPageSize
  le : ∀ page ∈ m.pages.getLast?, page.slots.length ≤ kPageSize

@[simp] theorem slotAt_empty (index : ℕ) : (empty : SlotMap T).slotAt index = none := rfl

theorem slotAt_modifySlot (m : SlotMap T) (index i : ℕ) (f : Slot T → Slot T) :
    (m.modifySlot index f).slotAt i = if i = index then (m.slotAt i).map f else m.slotAt i := by
  unfold modifySlot slotAt
  simp only [List.getElem?_modify, Option.map_eq_map]
  by_cases hp : index / kPageSize = i / kPageSize
  · have hiff : index % kPageSize = i % kPageSize ↔ i = index := by
      unfold kPageSize at hp ⊢
      omega
    cases m.pages[i / kPageSize]? with
    | none => simp
    | some page =>
        simp only [if_pos hp, Option.map_some, Option.bind_some, List.getElem?_modify,
          Option.map_eq_map, hiff]
        split_ifs <;> simp
  · rw [if_neg fun e : i = index => hp (by rw [e])]
    simp [hp]

/-- A new slot. -/
def newSlot (value : T) : Slot T where
  version := Key.kMinVersion
  tombstone := false
  inactive := false
  value := value

theorem modify_last {α : Type} (l : List α) (x : α) (f : α → α) :
    (l ++ [x]).modify l.length f = l ++ [f x] := by
  induction l with
  | nil => rfl
  | cons y l ih => simpa using ih

/-- `appendElement` when every page is full. -/
theorem appendElement_full {m : SlotMap T} (value : T)
    (h : ∀ page ∈ m.pages.getLast?, page.slots.length = kPageSize) :
    m.appendElement value = ({ m with
      pages := m.pages ++ [{ Page.allocate T with slots := [newSlot value] }] },
      m.pages.length * kPageSize) := by
  have hall :
      ((m.pages.getLast?).all fun page => decide (page.slots.length = kPageSize)) = true := by
    cases hl : m.pages.getLast? with
    | none => rfl
    | some page => simpa using h page hl
  unfold appendElement
  rw [if_pos hall]
  simp [modify_last, Page.allocate, newSlot]

/-- `appendElement` when there is room on the last page. -/
theorem appendElement_room {m : SlotMap T} (value : T) {pages : List (Page T)} {page : Page T}
    (hp : m.pages = pages ++ [page]) (h : page.slots.length ≠ kPageSize) :
    m.appendElement value = ({ m with
      pages := pages ++ [{ page with slots := page.slots ++ [newSlot value] }] },
      pages.length * kPageSize + page.slots.length) := by
  have hall :
      ¬ ((m.pages.getLast?).all fun page => decide (page.slots.length = kPageSize)) = true := by
    simp [hp, h]
  unfold appendElement
  rw [if_neg hall, hp]
  simp [modify_last, newSlot]

/-- The two ways the pages grow. -/
theorem appendElement_pages (value : T) (m : SlotMap T) :
    (∃ pages page, m.pages = pages ++ [page] ∧ page.slots.length ≠ kPageSize ∧
      (m.appendElement value).1 = { m with
        pages := pages ++ [{ page with slots := page.slots ++ [newSlot value] }] }) ∨
    ((∀ page ∈ m.pages.getLast?, page.slots.length = kPageSize) ∧
      (m.appendElement value).1 = { m with
        pages := m.pages ++ [{ Page.allocate T with slots := [newSlot value] }] }) := by
  by_cases hroom : ∃ pages page, m.pages = pages ++ [page] ∧ page.slots.length ≠ kPageSize
  · obtain ⟨pages, page, hp, hroom⟩ := hroom
    exact Or.inl ⟨pages, page, hp, hroom, by rw [appendElement_room value hp hroom]⟩
  · have hfull : ∀ page ∈ m.pages.getLast?, page.slots.length = kPageSize := by
      intro page hpage
      obtain ⟨pages, hp⟩ := List.getLast?_eq_some_iff.1 hpage
      by_contra hne
      exact hroom ⟨pages, page, hp, hne⟩
    exact Or.inr ⟨hfull, by rw [appendElement_full value hfull]⟩

/-- The slots of the last page, and of the pages before it. -/
theorem slotAt_concat {m : SlotMap T} {pages : List (Page T)} {page : Page T}
    (hp : m.pages = pages ++ [page]) (i : ℕ) :
    m.slotAt i = if i / kPageSize = pages.length then page.slots[i % kPageSize]?
      else (pages[i / kPageSize]?).bind fun page => page.slots[i % kPageSize]? := by
  unfold slotAt
  rw [hp]
  rcases Nat.lt_trichotomy (i / kPageSize) pages.length with hlt | heq | hgt
  · rw [List.getElem?_append_left hlt, if_neg hlt.ne]
  · rw [heq, List.getElem?_concat_length, if_pos rfl, Option.bind_some]
  · rw [List.getElem?_eq_none (by simp; omega), List.getElem?_eq_none hgt.le, if_neg hgt.ne']

namespace Filled

variable {m : SlotMap T}

theorem empty : Filled (SlotMap.empty : SlotMap T) :=
  ⟨fun _ _ h => by simp [SlotMap.empty] at h, fun _ h => by simp [SlotMap.empty] at h⟩

/-- The used slots are those below `numSlots`. -/
theorem slotAt_eq_none_iff (h : Filled m) (i : ℕ) : m.slotAt i = none ↔ m.numSlots ≤ i := by
  obtain ⟨hfull, hle⟩ := h
  rcases List.eq_nil_or_concat m.pages with hp | ⟨pages, page, hp⟩
  · simp [slotAt, numSlots, hp]
  · rw [List.concat_eq_append] at hp
    have hn : m.numSlots = pages.length * kPageSize + page.slots.length := by simp [numSlots, hp]
    rw [hn, slotAt_concat hp]
    rw [hp] at hfull hle
    have hlast : page.slots.length ≤ kPageSize := hle page (by simp)
    unfold kPageSize at hlast hfull ⊢
    split_ifs with hpage
    · rw [List.getElem?_eq_none_iff]
      constructor <;> intro _ <;> omega
    · rcases Nat.lt_or_gt_of_ne hpage with hlt | hgt
      · -- a page that is not the last one is full
        have hq := List.getElem?_eq_getElem hlt
        have hfq := hfull (i / 4096) _ (by rw [List.getElem?_append_left hlt, hq]) (by simpa)
        rw [hq, Option.bind_some, List.getElem?_eq_none_iff, hfq]
        constructor <;> intro _ <;> omega
      · rw [List.getElem?_eq_none hgt.le, Option.bind_none]
        exact iff_of_true rfl (by omega)

theorem lt_of_slotAt (h : Filled m) {i : ℕ} {slot : Slot T} (hs : m.slotAt i = some slot) :
    i < m.numSlots := by
  by_contra hi
  rw [(h.slotAt_eq_none_iff i).2 (not_lt.1 hi)] at hs
  cases hs

theorem exists_slotAt (h : Filled m) {i : ℕ} (hi : i < m.numSlots) :
    ∃ slot, m.slotAt i = some slot :=
  Option.ne_none_iff_exists'.1 fun e => absurd ((h.slotAt_eq_none_iff i).1 e) (not_le.2 hi)

/-- The index of a new slot is the number of slots. -/
theorem appendElement_index (h : Filled m) (value : T) :
    (m.appendElement value).2 = m.numSlots := by
  obtain ⟨hfull, hle⟩ := h
  rcases List.eq_nil_or_concat m.pages with hp | ⟨pages, page, hp⟩
  · rw [appendElement_full value (by simp [hp])]
    simp [numSlots, hp]
  · rw [List.concat_eq_append] at hp
    by_cases hroom : page.slots.length = kPageSize
    · rw [appendElement_full value (by simpa [hp] using hroom)]
      simp only [numSlots, hp, List.getLast?_concat, Option.elim_some, hroom, List.length_append,
        List.length_singleton, Nat.add_sub_cancel]
      ring
    · rw [appendElement_room value hp hroom]
      simp [numSlots, hp]

end Filled

/-- A slot behind `appendElement`. -/
theorem slotAt_appendElement {m : SlotMap T} (h : Filled m) (value : T) (i : ℕ) :
    (m.appendElement value).1.slotAt i =
      if i = m.numSlots then some (newSlot value) else m.slotAt i := by
  rw [← h.appendElement_index value]
  rcases appendElement_pages value m with ⟨pages, page, hp, hroom, he⟩ | ⟨hfull, he⟩
  · -- the last page gets one more slot
    have hlast : page.slots.length ≤ kPageSize := h.le page (by simp [hp])
    rw [he, appendElement_room value hp hroom, slotAt_concat rfl, slotAt_concat hp]
    unfold kPageSize at *
    split_ifs with hpage hi hi
    · rw [show i % 4096 = page.slots.length by omega, List.getElem?_concat_length]
    · rcases Nat.lt_or_ge (i % 4096) page.slots.length with hlt | hge
      · rw [List.getElem?_append_left hlt]
      · rw [List.getElem?_eq_none (by simp; omega), List.getElem?_eq_none hge]
    · omega
    · rfl
  · -- a new page, with the slot at its start
    have hnone := h.slotAt_eq_none_iff i
    rw [← h.appendElement_index value, appendElement_full value hfull] at hnone
    rw [he, appendElement_full value hfull, slotAt_concat rfl]
    unfold kPageSize at *
    dsimp only at hnone ⊢
    split_ifs with hpage hi hi
    · rw [show i % 4096 = 0 by omega]
      rfl
    · rw [hnone.2 (by omega), List.getElem?_eq_none (by simp; omega)]
    · omega
    · rfl

end SlotMap

end Data
