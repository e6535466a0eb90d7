/-
**The accounts of object data.**

A type counts the blocks that it allocates for its objects and the blocks that it frees, keeps the
address of each block in the slot map, and numbers its objects from the last clear on.  The
counters, the slot map and the heap change in different places: an object without data has no block
and is not counted, `recomp_destroy_object_data` with a handle that has been used up does nothing,
and `recomp_clear_all_object_data` forgets objects whose blocks are still allocated.

The handles here are those that the type has answered with since its last clear; they need not be
destroyed only once, nor lead to the object that they have been given out for.

Main definitions:

* `Data.Extensions.getObjectSpawnIndex` — `recomp_get_object_spawn_index`;
* `Data.ObjectAccounts.Step`, `Data.ObjectAccounts.Proper` — the calls on all types;
* `Data.ObjectAccounts.Balance` — the account of a type;
* `Data.ObjectAccounts.Accounted` — **the accounts are right**.

Main results:

* `Data.SlotMap.elements_perm` — an element more;
* `Data.ObjectAccounts.TypeInv.create`, `destroy` and `clear` — what each call keeps of a type;
* `Data.ObjectAccounts.Inv.step` — the step lemma;
* `Data.ObjectAccounts.accounted_of_reachable` — **in every run the accounts are right**.
-/

import TsaRecomp.Lib.Ownership
import TsaRecomp.Data.Drain
import TsaRecomp.Data.ObjectLayout

set_option relaxedAutoImplicit false
set_option autoImplicit false

namespace Data

/-- `recomp_get_object_spawn_index` -/
def Extensions.getObjectSpawnIndex (s : Extensions) (typeIndex objectHandle : ℕ) : Option ℕ := do
  let c ← s.typeContexts[typeIndex]?
  some (match c.extensionData.getImpl objectHandle with
    | none => 0xFFFFFFFF
    | some data => data.value.objectSpawnIndex)

/-! ### The elements of a slot map -/

namespace SlotMap

variable {T : Type} {m m' : SlotMap T}

theorem Filled.elementAt_eq_none (h : Filled m) {i : ℕ} (hi : m.numSlots ≤ i) :
    m.elementAt i = none := by
  rw [elementAt, (h.slotAt_eq_none_iff i).2 hi, Option.bind_none]

/-- The elements do not depend on the number of slots that are looked at. -/
theorem Filled.elements_eq (h : Filled m) {n : ℕ} (hn : m.numSlots ≤ n) :
    m.elements = (List.range n).filterMap m.elementAt := by
  obtain ⟨k, rfl⟩ := Nat.exists_eq_add_of_le hn
  have hnil : ((List.range k).map (m.numSlots + ·)).filterMap m.elementAt = [] := by
    refine List.filterMap_eq_nil_iff.2 fun i hi => ?_
    obtain ⟨j, -, rfl⟩ := List.mem_map.1 hi
    exact h.elementAt_eq_none (Nat.le_add_right _ _)
  rw [List.range_add, List.filterMap_append, hnil, List.append_nil]
  rfl

theorem Filled.mem_elements (h : Filled m) {d : T} :
    d ∈ m.elements ↔ ∃ i, m.elementAt i = some d := by
  constructor
  · intro hd
    obtain ⟨i, -, hi⟩ := List.mem_filterMap.1 hd
    exact ⟨i, hi⟩
  · rintro ⟨i, hi⟩
    refine List.mem_filterMap.2 ⟨i, List.mem_range.2 ?_, hi⟩
    by_contra hlt
    rw [h.elementAt_eq_none (not_lt.1 hlt)] at hi
    cases hi

/-- **An element more.** -/
theorem elements_perm (h : Filled m) (h' : Filled m') {index : ℕ} {d : T}
    (hnone : m.elementAt index = none)
    (hat : ∀ i, m'.elementAt i = if i = index then some d else m.elementAt i) :
    m'.elements.Perm (d :: m.elements) := by
  obtain ⟨n, hn⟩ : ∃ n, n = max (index + 1) (max m.numSlots m'.numSlots) := ⟨_, rfl⟩
  rw [h.elements_eq (n := n) (by omega), h'.elements_eq (n := n) (by omega)]
  have hmem : index ∈ List.range n := List.mem_range.2 (by omega)
  have hperm := List.perm_cons_erase hmem
  have hrest : ((List.range n).erase index).filterMap m'.elementAt =
      ((List.range n).erase index).filterMap m.elementAt := by
    refine List.filterMap_congr fun i hi => ?_
    rw [hat, if_neg ((List.Nodup.mem_erase_iff List.nodup_range).1 hi).1]
  refine (hperm.filterMap m'.elementAt).trans ?_
  rw [List.filterMap_cons_some (by rw [hat, if_pos rfl] : m'.elementAt index = some d), hrest]
  refine List.Perm.cons d ?_
  have hold := (hperm.filterMap m.elementAt).symm
  rwa [List.filterMap_cons_none hnone] at hold

end SlotMap

/-! ### The blocks of a type -/

/-- The block that an entry owns. -/
def ExtensionData.block? (data : ExtensionData) : Option ℕ :=
  if data.dataAddr ≠ 0 then some (toPtr (BitVec.ofNat 32 data.dataAddr)) else none

/-- The block of a live entry. -/
def ExtensionContext.blockAt (c : ExtensionContext) (index : ℕ) : Option ℕ :=
  (c.extensionData.elementAt index).bind ExtensionData.block?

/-- The number of live entries with an address. -/
def ExtensionContext.numOwned (c : ExtensionContext) : ℕ :=
  c.extensionData.elements.countP fun data => data.dataAddr ≠ 0

/-- The blocks of the live entries. -/
def ExtensionContext.blocks (c : ExtensionContext) : List ℕ :=
  c.extensionData.elements.filterMap ExtensionData.block?

/-- An entry more, which owns a block or not. -/
theorem ExtensionContext.numOwned_eq {c c' : ExtensionContext} {data : ExtensionData}
    (h : c'.extensionData.elements.Perm (data :: c.extensionData.elements)) :
    c'.numOwned = c.numOwned + if data.dataAddr ≠ 0 then 1 else 0 := by
  rw [numOwned, h.countP_eq, List.countP_cons, numOwned]
  simp only [decide_eq_true_eq]

/-- A handle without an object is destroyed. -/
theorem ExtensionContext.destroyObject_of_none {c : ExtensionContext} {objectHandle : ℕ}
    (h : c.extensionData.getImpl objectHandle = none) : c.destroyObject objectHandle = c := by
  unfold destroyObject
  rw [h]

/-- An object is destroyed. -/
theorem ExtensionContext.destroyObject_of_some {c : ExtensionContext} {objectHandle : ℕ}
    {slot : Slot ExtensionData} (h : c.extensionData.getImpl objectHandle = some slot) :
    c.destroyObject objectHandle =
      { c with
        freeCount := if slot.value.dataAddr ≠ 0 then c.freeCount + 1 else c.freeCount
        extensionData := c.extensionData.erase objectHandle } := by
  unfold destroyObject
  rw [h]

namespace ObjectAccounts

open ObjectLayout (Call)

/-! ### Runs -/

/-- What a type has answered with and has made since its last clear, the oldest object first. -/
structure Account where
  issued : List ℕ
  created : List ExtensionData

/-- The account behind a call on a context. -/
def Account.next (account : Account) (c : ExtensionContext) : Call → Account
  | .create subtypeIndex mem =>
      { issued := (c.createObject subtypeIndex (guestAddr mem).toNat).1 :: account.issued
        created := account.created ++ [c.newObject subtypeIndex (guestAddr mem).toNat] }
  | .clear => ⟨[], []⟩
  | .register _ _ | .registerGeneric _ | .destroy _ => account

/-- The state, with the accounts. -/
structure Trace where
  objects : ObjectLayout.Trace
  account : ℕ → Account

namespace Trace

variable (s : Trace)

def contexts : List ExtensionContext := s.objects.memory.extensions.typeContexts

def heap : Heap := s.objects.memory.heap

end Trace

/-- The state behind `init_extended_object_data`, with any heap. -/
structure Init (s : Trace) : Prop where
  extensions : ∃ numTypes, s.objects.memory.extensions = .initExtendedObjectData numTypes
  account : ∀ typeIndex, s.account typeIndex = ⟨[], []⟩

/-- A call that returns. -/
def Step (s : Trace) (a : ℕ × Call) (t : Trace) : Prop :=
  ObjectLayout.Step s.objects a t.objects ∧ ∃ c, s.contexts[a.1]? = some c ∧
    t.account = Function.update s.account a.1 ((s.account a.1).next c a.2)

/-- An allocator that answers with fresh blocks, where it is called, and handles that the type has
answered with since its last clear. -/
def ProperOn (heap : Heap) (c : ExtensionContext) (account : Account) : Call → Prop
  | .create subtypeIndex mem =>
      c.allocSize subtypeIndex ≠ 0 → heap.Fresh (c.allocSize subtypeIndex) mem
  | .destroy objectHandle => objectHandle ∈ account.issued
  | .register _ _ | .registerGeneric _ | .clear => True

def Proper (s : Trace) (a : ℕ × Call) : Prop :=
  ∀ c, s.contexts[a.1]? = some c → ProperOn s.heap c (s.account a.1) a.2

/-- The states of all proper runs. -/
abbrev Reachable (s : Trace) : Prop := Runs.Reach Step Init Proper s

/-! ### What is expected -/

/-- **The account of a type.** -/
structure Balance (c : ExtensionContext) (heap : Heap) (account : Account) : Prop where
  /-- What has been allocated and not freed. -/
  counts : (c.allocCount : ℤ) - c.freeCount = c.numOwned
  /-- The addresses are those of distinct blocks, and these are allocated. -/
  nodup : c.blocks.Nodup
  allocated : ∀ b ∈ c.blocks, b ∈ heap.starts
  /-- The assertion of `clear_all_object_data`. -/
  assertion : c.allocCount = c.freeCount ↔ ∀ data ∈ c.extensionData.elements, data.dataAddr = 0
  /-- The live objects in the order of their creation have increasing spawn indices. -/
  order : account.created.length ≤ 2 ^ 32 → ∃ alive : List ExtensionData,
    alive.Sublist account.created ∧ alive.Perm c.extensionData.elements ∧
      (alive.map ExtensionData.objectSpawnIndex).Pairwise (· < ·)

/-- What a call frees had been allocated, is freed once, and is not allocated behind it. -/
def FreesOnce (heap heap' : Heap) : Prop :=
  ∃ frees, heap'.freed = frees ++ heap.freed ∧ frees.Nodup ∧
    ∀ b ∈ frees, b ∈ heap.starts ∧ b ∉ heap'.starts

/-- The call allocates a block. -/
def Allocates (s : Trace) (b : ℕ) (a : ℕ × Call) : Prop :=
  ∃ c subtypeIndex, s.contexts[a.1]? = some c ∧ a.2 = .create subtypeIndex b ∧
    c.allocSize subtypeIndex ≠ 0

/-- **The accounts are right.** -/
structure Accounted (s : Trace) : Prop where
  types : ∀ typeIndex c, s.contexts[typeIndex]? = some c →
    Balance c s.heap (s.account typeIndex)
  frees : ∀ a t, Proper s a → Step s a t → FreesOnce s.heap t.heap
  /-- A block that is not allocated is not freed before it is allocated again. -/
  again : ∀ b, b ∉ s.heap.starts → ∀ t,
    Runs.RunsTo Step (fun s a => Proper s a ∧ ¬ Allocates s b a) s t →
      t.heap.freed.count b = s.heap.freed.count b
  /-- A handle leads to the spawn index of a live object, or to no object. -/
  spawnIndex : ∀ typeIndex c, s.contexts[typeIndex]? = some c →
    ∀ objectHandle ∈ (s.account typeIndex).issued, ∃ n,
      s.objects.memory.extensions.getObjectSpawnIndex typeIndex objectHandle = some n ∧
        (n = 0xFFFFFFFF ∨ ∃ data ∈ c.extensionData.elements, data.objectSpawnIndex = n)

/-! ### The invariant of a type -/

/-- **The invariant** of a type. -/
structure TypeInv (c : ExtensionContext) (account : Account) : Prop where
  handed : c.extensionData.Handed account.issued
  counts : c.allocCount = c.freeCount + c.numOwned
  spawnCount : c.spawnCount = u32 account.created.length
  /-- The spawn indices are the numbers of the objects. -/
  number : ∀ i data, account.created[i]? = some data → data.objectSpawnIndex = u32 i
  /-- The live objects, in the order of their creation. -/
  alive : ∃ alive : List ExtensionData,
    alive.Sublist account.created ∧ alive.Perm c.extensionData.elements

namespace TypeInv

variable {c c' : ExtensionContext} {account : Account}

theorem init : TypeInv .init ⟨[], []⟩ :=
  ⟨.empty, rfl, rfl, fun i data h => by simp at h, [], .slnil, .nil⟩

/-- A registration leaves the objects alone. -/
theorem congr (h : TypeInv c account) (hdata : c'.extensionData = c.extensionData)
    (halloc : c'.allocCount = c.allocCount) (hfree : c'.freeCount = c.freeCount)
    (hspawn : c'.spawnCount = c.spawnCount) : TypeInv c' account := by
  refine ⟨hdata ▸ h.handed, ?_, hspawn ▸ h.spawnCount, h.number, hdata ▸ h.alive⟩
  rw [halloc, hfree, h.counts, ExtensionContext.numOwned, ExtensionContext.numOwned, hdata]

/-- The address of a new object. -/
theorem dataAddr_newObject {heap : Heap} {subtypeIndex mem : ℕ}
    (hp : c.allocSize subtypeIndex ≠ 0 → heap.Fresh (c.allocSize subtypeIndex) mem) :
    (c.newObject subtypeIndex (guestAddr mem).toNat).dataAddr ≠ 0 ↔
      c.allocSize subtypeIndex ≠ 0 := by
  unfold ExtensionContext.newObject ExtensionContext.dataPtr
  dsimp only
  split_ifs with h0
  · rw [ObjectLayout.guestAddr_toNat (hp h0).lt]
    exact iff_of_true (by omega) h0
  · exact iff_of_false (fun h => h rfl) h0

/-- An object is created. -/
theorem create (h : TypeInv c account) {heap : Heap} {subtypeIndex mem : ℕ}
    (hp : c.allocSize subtypeIndex ≠ 0 → heap.Fresh (c.allocSize subtypeIndex) mem) :
    TypeInv (c.createObject subtypeIndex (guestAddr mem).toNat).2
      (account.next c (.create subtypeIndex mem)) := by
  obtain ⟨data, hd⟩ : ∃ data, data = c.newObject subtypeIndex (guestAddr mem).toNat := ⟨_, rfl⟩
  have haddr := dataAddr_newObject hp
  obtain ⟨index, hnone, hat⟩ := h.handed.elementAt_emplace data
  have hhanded := h.handed.emplace data
  have hperm := SlotMap.elements_perm h.handed.slots.filled hhanded.slots.filled hnone hat
  rw [← hd] at haddr
  have hdata : (c.createObject subtypeIndex (guestAddr mem).toNat).2.extensionData =
      (c.extensionData.emplace data).2 := by rw [hd]; rfl
  refine ⟨?_, ?_, ?_, ?_, ?_⟩
  · rw [hd] at hhanded
    exact hhanded
  · rw [ExtensionContext.numOwned_eq (hdata ▸ hperm)]
    have hcounts := h.counts
    unfold ExtensionContext.createObject
    dsimp only
    by_cases h0 : c.allocSize subtypeIndex ≠ 0
    · rw [if_pos h0, if_pos (haddr.2 h0), hcounts]
      ring
    · rw [if_neg h0, if_neg (mt haddr.1 h0), hcounts]
      ring
  · unfold Account.next ExtensionContext.createObject
    dsimp only
    rw [h.spawnCount, List.length_append, List.length_singleton]
    unfold u32
    omega
  · intro i data' hi
    change (account.created ++ [_])[i]? = some data' at hi
    rcases Nat.lt_trichotomy i account.created.length with hlt | rfl | hgt
    · rw [List.getElem?_append_left hlt] at hi
      exact h.number i data' hi
    · rw [List.getElem?_concat_length] at hi
      obtain rfl := Option.some.inj hi
      exact h.spawnCount
    · rw [List.getElem?_eq_none (by simp; omega)] at hi
      cases hi
  · obtain ⟨alive, hsub, halive⟩ := h.alive
    refine ⟨alive ++ [data], ?_, ?_⟩
    · rw [hd]
      exact hsub.append (List.Sublist.refl _)
    · rw [hdata]
      exact (List.perm_append_singleton _ _).trans ((halive.cons data).trans hperm.symm)

/-- The object of a handle is destroyed, or nothing is done. -/
theorem destroy (h : TypeInv c account) {objectHandle : ℕ} (hk : objectHandle ∈ account.issued) :
    TypeInv (c.destroyObject objectHandle) account := by
  cases hg : c.extensionData.getImpl objectHandle with
  | none =>
      rw [ExtensionContext.destroyObject_of_none hg]
      exact h
  | some slot =>
      have hhanded := h.handed.erase objectHandle
      have hself := h.handed.elementAt hk hg
      have herase := h.handed.elementAt_erase hk hg
      have hperm : c.extensionData.elements.Perm
          (slot.value :: (c.extensionData.erase objectHandle).elements) := by
        refine SlotMap.elements_perm hhanded.slots.filled h.handed.slots.filled
          ((herase _).trans (if_pos rfl)) fun i => ?_
        rw [herase]
        split_ifs with hi
        · rw [hi, hself]
        · rfl
      have heq := ExtensionContext.destroyObject_of_some hg
      have howned : c.numOwned = (c.destroyObject objectHandle).numOwned +
          if slot.value.dataAddr ≠ 0 then 1 else 0 := by
        refine ExtensionContext.numOwned_eq ?_
        rw [heq]
        exact hperm
      have hfree : (c.destroyObject objectHandle).freeCount =
          c.freeCount + if slot.value.dataAddr ≠ 0 then 1 else 0 := by
        rw [heq]
        dsimp only
        split_ifs
        · rfl
        · rfl
      have halloc : (c.destroyObject objectHandle).allocCount = c.allocCount := by rw [heq]
      have hcounts : (c.destroyObject objectHandle).allocCount =
          (c.destroyObject objectHandle).freeCount + (c.destroyObject objectHandle).numOwned := by
        rw [halloc, hfree, h.counts, howned]
        ring
      rw [heq] at hcounts ⊢
      refine ⟨hhanded, hcounts, h.spawnCount, h.number, ?_⟩
      obtain ⟨alive, hsub, halive⟩ := h.alive
      refine ⟨alive.erase slot.value, List.erase_sublist.trans hsub, ?_⟩
      have hrest := (halive.trans hperm).erase slot.value
      rwa [List.erase_cons_head] at hrest

/-- All objects are forgotten. -/
theorem clear : TypeInv c.clearAllObjectData (account.next c .clear) :=
  ⟨.empty, rfl, rfl, fun i data h => by simp [Account.next] at h, [], .slnil, .nil⟩

end TypeInv

/-! ### What a call does -/

/-- What a call does to the context of its type, and to the heap. -/
inductive Change (c : ExtensionContext) (heap : Heap) : Call → ExtensionContext → Heap → Prop
  | register (subtypeIndex dataOffset size : ℕ) :
      Change c heap (.register subtypeIndex size) (c.addExtension subtypeIndex dataOffset size) heap
  | registerGeneric (size : ℕ) : Change c heap (.registerGeneric size) (c.addGeneric size) heap
  | create (subtypeIndex mem : ℕ) (rdram : Rdram) :
      Change c heap (.create subtypeIndex mem)
        (c.createObject subtypeIndex (guestAddr mem).toNat).2
        (if c.allocSize subtypeIndex ≠ 0 then
          { heap.alloc (c.allocSize subtypeIndex) mem with rdram } else heap)
  | destroy (objectHandle : ℕ) :
      Change c heap (.destroy objectHandle) (c.destroyObject objectHandle)
        (match c.extensionData.getImpl objectHandle with
          | some data =>
              if data.value.dataAddr ≠ 0 then
                heap.free (toPtr (BitVec.ofNat 32 data.value.dataAddr))
              else heap
          | none => heap)
  | clear : Change c heap .clear c.clearAllObjectData heap

/-- What a step does. -/
structure Step.Spec (s : Trace) (typeIndex : ℕ) (a : Call) (t : Trace) (c c' : ExtensionContext) :
    Prop where
  context : s.contexts[typeIndex]? = some c
  change : Change c s.heap a c' t.heap
  contexts : ∀ i, t.contexts[i]? = if i = typeIndex then some c' else s.contexts[i]?
  account : t.account = Function.update s.account typeIndex ((s.account typeIndex).next c a)

/-- **What a call can do.** -/
theorem Step.spec {s t : Trace} {typeIndex : ℕ} {a : Call} (h : Step s (typeIndex, a) t) :
    ∃ c c', Step.Spec s typeIndex a t c c' := by
  obtain ⟨hst, c, hc, haccount⟩ := h
  obtain ⟨d, c', hspec⟩ := hst.spec
  obtain rfl := Option.some.inj (hc.symm.trans hspec.context)
  refine ⟨c, c', hc, ?_, hspec.typeContexts, haccount⟩
  have hchange := hspec.change
  generalize t.objects.record typeIndex = r at hchange
  cases hchange with
  | @register subtypeIndex dataOffset size _ _ =>
      obtain ⟨key, u, -, hu⟩ := hst
      rw [Trace.heap, Trace.heap, hu]
      exact .register _ _ _
  | registerGeneric size =>
      obtain ⟨key, u, -, hu⟩ := hst
      rw [Trace.heap, Trace.heap, hu]
      exact .registerGeneric _
  | create subtypeIndex mem =>
      obtain ⟨_, key, u, _, hu, ht⟩ := hst
      obtain ⟨e, he, -, rfl⟩ := ObjectMemory.createObjectData_eq_some.1 hu
      obtain rfl := Option.some.inj (hc.symm.trans he)
      rw [Trace.heap, Trace.heap, ht]
      exact .create _ _ _
  | destroy objectHandle =>
      obtain ⟨u, hu, ht⟩ := hst
      have hobjects : s.objects.memory.extensions.objects typeIndex = c.extensionData := by
        unfold Extensions.objects
        rw [show s.objects.memory.extensions.typeContexts[typeIndex]? = some c from hc]
        rfl
      have hheap := ObjectMemory.heap_destroyObjectData hu
      rw [hobjects] at hheap
      rw [Trace.heap, Trace.heap, ht]
      dsimp only [ObjectLayout.Trace.next]
      rw [hheap]
      exact .destroy _
  | clear =>
      obtain ⟨u, hu, ht⟩ := hst
      obtain ⟨e, -, rfl⟩ := ObjectMemory.clearAllObjectData_eq_some.1 hu
      rw [Trace.heap, Trace.heap, ht]
      exact .clear

/-- **A call keeps the invariant of its type.** -/
theorem Change.typeInv {c c' : ExtensionContext} {heap heap' : Heap} {a : Call} {account : Account}
    (h : Change c heap a c' heap') (hinv : TypeInv c account) (hp : ProperOn heap c account a) :
    TypeInv c' (account.next c a) := by
  cases h with
  | register subtypeIndex dataOffset size => exact hinv.congr rfl rfl rfl rfl
  | registerGeneric size => exact hinv.congr rfl rfl rfl rfl
  | create subtypeIndex mem rdram => exact hinv.create hp
  | destroy objectHandle => exact hinv.destroy hp
  | clear => exact .clear

/-! ### The blocks -/

/-- How a call moves the blocks: it keeps them, or forgets some; it puts a fresh one into an entry;
or it frees the one of an entry. -/
inductive Moved (c : ExtensionContext) (heap : Heap) (a : Call) (c' : ExtensionContext)
    (heap' : Heap) : Prop
  | kept : heap'.starts = heap.starts → heap'.freed = heap.freed →
      (∀ i b, c'.blockAt i = some b → c.blockAt i = some b) → Moved c heap a c' heap'
  | put {subtypeIndex mem : ℕ} (index : ℕ) : a = .create subtypeIndex mem →
      c.allocSize subtypeIndex ≠ 0 → mem ∉ heap.starts → heap'.starts = mem :: heap.starts →
      heap'.freed = heap.freed →
      (∀ i, c'.blockAt i = if i = index then some mem else c.blockAt i) → Moved c heap a c' heap'
  | drop {b index : ℕ} : c.blockAt index = some b →
      heap'.starts = (heap.starts.filter fun start => start ≠ b) → heap'.freed = b :: heap.freed →
      (∀ i, c'.blockAt i = if i = index then none else c.blockAt i) → Moved c heap a c' heap'

theorem block?_newObject {c : ExtensionContext} {subtypeIndex mem : ℕ}
    (h0 : c.allocSize subtypeIndex ≠ 0) (hlt : mem < 2 ^ 31) :
    (c.newObject subtypeIndex (guestAddr mem).toNat).block? = some mem := by
  have haddr : (c.newObject subtypeIndex (guestAddr mem).toNat).dataAddr =
      (guestAddr mem).toNat := if_pos h0
  have hne : (guestAddr mem).toNat ≠ 0 := by
    rw [ObjectLayout.guestAddr_toNat hlt]
    omega
  rw [ExtensionData.block?, haddr, if_pos hne, BitVec.ofNat_toNat, BitVec.setWidth_eq, guestAddr,
    toPtr_addrOf hlt]

/-- An object is created. -/
theorem moved_create {c : ExtensionContext} {heap : Heap} {account : Account}
    (hinv : TypeInv c account) {subtypeIndex mem : ℕ}
    (hp : c.allocSize subtypeIndex ≠ 0 → heap.Fresh (c.allocSize subtypeIndex) mem)
    (rdram : Rdram) :
    Moved c heap (.create subtypeIndex mem) (c.createObject subtypeIndex (guestAddr mem).toNat).2
      (if c.allocSize subtypeIndex ≠ 0 then
        { heap.alloc (c.allocSize subtypeIndex) mem with rdram } else heap) := by
  obtain ⟨index, hnone, hat⟩ := hinv.handed.elementAt_emplace
    (c.newObject subtypeIndex (guestAddr mem).toNat)
  have hblock : ∀ i, (c.createObject subtypeIndex (guestAddr mem).toNat).2.blockAt i =
      if i = index then (c.newObject subtypeIndex (guestAddr mem).toNat).block?
        else c.blockAt i := by
    intro i
    refine (congrArg (fun e => e.bind ExtensionData.block?) (hat i)).trans ?_
    split_ifs
    · rfl
    · rfl
  by_cases h0 : c.allocSize subtypeIndex ≠ 0
  · have hfresh : heap.Fresh (c.allocSize subtypeIndex) mem := hp h0
    rw [if_pos h0]
    refine .put index rfl h0 hfresh.notMem_starts rfl rfl fun i => ?_
    rw [hblock, block?_newObject h0 hfresh.lt]
  · rw [if_neg h0]
    refine .kept rfl rfl fun i b hb => ?_
    have haddr : (c.newObject subtypeIndex (guestAddr mem).toNat).dataAddr = 0 := if_neg h0
    rw [hblock, ExtensionData.block?, haddr] at hb
    split_ifs at hb
    · exact absurd rfl ‹_›
    · exact hb

/-- The object of a handle is destroyed. -/
theorem moved_destroy {c : ExtensionContext} {heap : Heap} {account : Account}
    (hinv : TypeInv c account) {objectHandle : ℕ} (hk : objectHandle ∈ account.issued)
    {slot : Slot ExtensionData} (hg : c.extensionData.getImpl objectHandle = some slot) :
    Moved c heap (.destroy objectHandle) (c.destroyObject objectHandle)
      (if slot.value.dataAddr ≠ 0 then heap.free (toPtr (BitVec.ofNat 32 slot.value.dataAddr))
        else heap) := by
  have hblock : ∀ i, (c.destroyObject objectHandle).blockAt i =
      if i = Key.toIndex objectHandle then none else c.blockAt i := by
    intro i
    rw [ExtensionContext.blockAt, c.extensionData_destroyObject, hinv.handed.elementAt_erase hk hg]
    split_ifs
    · rfl
    · rfl
  have hhere : c.blockAt (Key.toIndex objectHandle) = slot.value.block? := by
    rw [ExtensionContext.blockAt, hinv.handed.elementAt hk hg]
    rfl
  by_cases h0 : slot.value.dataAddr ≠ 0
  · rw [if_pos h0]
    rw [ExtensionData.block?, if_pos h0] at hhere
    exact .drop hhere (Heap.starts_free _ _) (Heap.freed_free _ _) hblock
  · rw [if_neg h0]
    refine .kept rfl rfl fun i b hb => ?_
    rw [hblock] at hb
    split_ifs at hb
    exact hb

/-- **How a call moves the blocks.** -/
theorem Change.moved {c c' : ExtensionContext} {heap heap' : Heap} {a : Call} {account : Account}
    (h : Change c heap a c' heap') (hinv : TypeInv c account) (hp : ProperOn heap c account a) :
    Moved c heap a c' heap' := by
  cases h with
  | register subtypeIndex dataOffset size => exact .kept rfl rfl fun _ _ hb => hb
  | registerGeneric size => exact .kept rfl rfl fun _ _ hb => hb
  | clear => exact .kept rfl rfl fun _ _ hb => by cases hb
  | create subtypeIndex mem rdram => exact moved_create hinv hp rdram
  | destroy objectHandle =>
      cases hg : c.extensionData.getImpl objectHandle with
      | none =>
          rw [ExtensionContext.destroyObject_of_none hg]
          exact .kept rfl rfl fun _ _ hb => hb
      | some slot => exact moved_destroy hinv hp hg

/-- What a call frees. -/
theorem Moved.freesOnce {c c' : ExtensionContext} {heap heap' : Heap} {a : Call}
    (h : Moved c heap a c' heap') (hmem : ∀ {i b}, c.blockAt i = some b → b ∈ heap.starts) :
    FreesOnce heap heap' := by
  cases h with
  | kept _ hfreed _ => exact ⟨[], hfreed, List.nodup_nil, by simp⟩
  | put _ _ _ _ _ hfreed _ => exact ⟨[], hfreed, List.nodup_nil, by simp⟩
  | @drop b index hb hstarts hfreed _ =>
      refine ⟨[b], hfreed, List.nodup_singleton b, fun b' hb' => ?_⟩
      obtain rfl := List.mem_singleton.1 hb'
      rw [hstarts]
      exact ⟨hmem hb, by simp⟩

/-- The blocks of all types. -/
def Trace.held (s : Trace) (p : ℕ × ℕ) : Option ℕ :=
  (s.contexts[p.1]?).bind fun c => c.blockAt p.2

theorem Trace.held_of_blockAt {s : Trace} {typeIndex index b : ℕ} {c : ExtensionContext}
    (hc : s.contexts[typeIndex]? = some c) (hb : c.blockAt index = some b) :
    s.held (typeIndex, index) = some b := by
  rw [held, hc]
  exact hb

/-- **The invariant.** -/
structure Inv (s : Trace) : Prop where
  types : ∀ i c, s.contexts[i]? = some c → TypeInv c (s.account i)
  backed : Ownership.Backed s.held s.heap.starts

namespace Inv

variable {s t : Trace}

theorem init (h : Init s) : Inv s := by
  obtain ⟨numTypes, hs⟩ := h.extensions
  have hinit : ∀ (i : ℕ) c, s.contexts[i]? = some c → c = ExtensionContext.init := by
    intro i c hc
    rw [Trace.contexts, hs] at hc
    exact List.eq_of_mem_replicate (List.mem_of_getElem? hc)
  have hnone : ∀ p, s.held p = none := by
    intro p
    unfold Trace.held
    cases hc : s.contexts[p.1]? with
    | none => rfl
    | some c =>
        rw [hinit _ c hc]
        rfl
  refine ⟨fun i c hc => ?_, ⟨fun hp => ?_, fun hp _ => ?_⟩⟩
  · rw [hinit i c hc, h.account]
    exact .init
  · rw [hnone] at hp
    cases hp
  · rw [hnone] at hp
    cases hp

/-- The blocks behind a step. -/
theorem backed_step (h : Inv s) {typeIndex : ℕ} {a : Call} {c c' : ExtensionContext}
    (hspec : Step.Spec s typeIndex a t c c') (hm : Moved c s.heap a c' t.heap) :
    Ownership.Backed t.held t.heap.starts := by
  have hold : ∀ i, s.held (typeIndex, i) = c.blockAt i := by
    intro i
    rw [Trace.held, hspec.context]
    rfl
  have hnew : ∀ i, t.held (typeIndex, i) = c'.blockAt i := by
    intro i
    rw [Trace.held, hspec.contexts, if_pos rfl]
    rfl
  have hother : ∀ p : ℕ × ℕ, p.1 ≠ typeIndex → t.held p = s.held p := by
    intro p hp
    rw [Trace.held, hspec.contexts, if_neg hp]
    rfl
  -- an entry that is not the one that changes
  have hrest : ∀ {index : ℕ} {b : Option ℕ},
      (∀ i, c'.blockAt i = if i = index then b else c.blockAt i) →
        Ownership.Changed s.held t.held (typeIndex, index) b := by
    intro index b hat
    refine ⟨by rw [hnew, hat, if_pos rfl], fun p hp => ?_⟩
    obtain ⟨i, j⟩ := p
    by_cases hi : i = typeIndex
    · subst hi
      rw [hnew, hat, hold, if_neg fun hj => hp (by rw [hj])]
    · exact hother (i, j) hi
  cases hm with
  | kept hstarts _ hle =>
      rw [hstarts]
      refine h.backed.mono fun {p b} hb => ?_
      obtain ⟨i, j⟩ := p
      by_cases hi : i = typeIndex
      · subst hi
        rw [hnew] at hb
        rw [hold]
        exact hle j b hb
      · rwa [hother (i, j) hi] at hb
  | put index _ _ hfresh hstarts _ hat =>
      rw [hstarts]
      exact h.backed.put hfresh (hrest hat)
  | @drop b index hb hstarts _ hat =>
      rw [hstarts]
      exact h.backed.drop (Trace.held_of_blockAt hspec.context hb) (hrest hat)

/-- **The step lemma.** -/
theorem step (h : Inv s) {a : ℕ × Call} (hp : Proper s a) (hst : Step s a t) :
    Inv t ∧ FreesOnce s.heap t.heap := by
  obtain ⟨typeIndex, a⟩ := a
  obtain ⟨c, c', hspec⟩ := hst.spec
  have hc := hspec.context
  have hinv := h.types typeIndex c hc
  have hproper := hp c hc
  have hm := hspec.change.moved hinv hproper
  refine ⟨⟨fun i d hd => ?_, h.backed_step hspec hm⟩,
    hm.freesOnce fun hb => h.backed.mem (Trace.held_of_blockAt hc hb)⟩
  rw [hspec.contexts] at hd
  rw [hspec.account]
  split_ifs at hd with hi
  · obtain rfl := Option.some.inj hd
    subst hi
    rw [Function.update_self]
    exact hspec.change.typeInv hinv hproper
  · rw [Function.update_of_ne hi]
    exact h.types i d hd

/-- A step that does not allocate a block. -/
theorem notMem_step (h : Inv s) {a : ℕ × Call} (hp : Proper s a) (hst : Step s a t) {b : ℕ}
    (hb : b ∉ s.heap.starts) (hne : ¬ Allocates s b a) : b ∉ t.heap.starts := by
  obtain ⟨typeIndex, a⟩ := a
  obtain ⟨c, c', hspec⟩ := hst.spec
  have hc := hspec.context
  cases hspec.change.moved (h.types typeIndex c hc) (hp c hc) with
  | kept hstarts _ _ =>
      rw [hstarts]
      exact hb
  | put index ha h0 _ hstarts _ _ =>
      subst ha
      rw [hstarts]
      rintro hmem
      rcases List.mem_cons.1 hmem with rfl | hmem
      · exact hne ⟨c, _, hc, rfl, h0⟩
      · exact hb hmem
  | drop _ hstarts _ _ =>
      rw [hstarts]
      exact fun hmem => hb (List.mem_filter.1 hmem).1

end Inv

/-- **The run lemma.** -/
theorem Reachable.inv {s : Trace} (h : Reachable s) : Inv s :=
  Runs.Reach.invariant (fun _ => .init) (fun _ _ _ hs hp hst => (hs.step hp hst).1) h

/-! ### The accounts -/

/-- The spawn indices of the first 2³² objects. -/
theorem TypeInv.pairwise {c : ExtensionContext} {account : Account} (h : TypeInv c account)
    (hlen : account.created.length ≤ 2 ^ 32) :
    (account.created.map ExtensionData.objectSpawnIndex).Pairwise (· < ·) := by
  have heq : account.created.map ExtensionData.objectSpawnIndex =
      List.range account.created.length := by
    refine List.ext_getElem (by simp) fun i hi _ => ?_
    rw [List.length_map] at hi
    rw [List.getElem_map, List.getElem_range,
      h.number i _ (List.getElem?_eq_getElem hi), u32_of_lt (by omega)]
  rw [heq]
  exact List.pairwise_lt_range

/-- **The account of a type is right.** -/
theorem Inv.balance {s : Trace} (h : Inv s) {typeIndex : ℕ} {c : ExtensionContext}
    (hc : s.contexts[typeIndex]? = some c) : Balance c s.heap (s.account typeIndex) := by
  have hinv := h.types typeIndex c hc
  have hblocks : c.blocks = (List.range c.extensionData.numSlots).filterMap c.blockAt := by
    rw [ExtensionContext.blocks, SlotMap.elements, List.filterMap_filterMap]
    rfl
  refine ⟨?_, ?_, fun b hb => ?_, ?_, fun hlen => ?_⟩
  · rw [hinv.counts]
    push_cast
    ring
  · rw [hblocks]
    refine List.Nodup.filterMap (fun i j b hi hj => ?_) List.nodup_range
    have hsame := h.backed.unique (Trace.held_of_blockAt hc hi) (Trace.held_of_blockAt hc hj)
    exact (Prod.mk.inj hsame).2
  · rw [hblocks] at hb
    obtain ⟨i, -, hi⟩ := List.mem_filterMap.1 hb
    exact h.backed.mem (Trace.held_of_blockAt hc hi)
  · have hzero : c.allocCount = c.freeCount ↔ c.numOwned = 0 := by
      rw [hinv.counts]
      omega
    rw [hzero, ExtensionContext.numOwned, List.countP_eq_zero]
    simp
  · obtain ⟨alive, hsub, hperm⟩ := hinv.alive
    exact ⟨alive, hsub, hperm, (hinv.pairwise hlen).sublist (hsub.map _)⟩

/-- **In every run the accounts are right.** -/
theorem accounted_of_reachable {s : Trace} (h : Reachable s) : Accounted s where
  types _ _ hc := h.inv.balance hc
  frees _ _ hp hst := (h.inv.step hp hst).2
  again b hb t hr := by
    have hall : Inv t ∧ b ∉ t.heap.starts ∧ t.heap.freed.count b = s.heap.freed.count b := by
      refine hr.invariant (I := fun t => Inv t ∧ b ∉ t.heap.starts ∧
        t.heap.freed.count b = s.heap.freed.count b) ?_ ⟨h.inv, hb, rfl⟩
      rintro u a v ⟨hu, hbu, hcount⟩ ⟨hp, hne⟩ hst
      obtain ⟨hv, frees, hfreed, -, hfrees⟩ := hu.step hp hst
      refine ⟨hv, hu.notMem_step hp hst hbu hne, ?_⟩
      have hnot : frees.count b = 0 :=
        List.count_eq_zero.2 fun hmem => hbu (hfrees b hmem).1
      rw [hfreed, List.count_append, hnot, zero_add, hcount]
    exact hall.2.2
  spawnIndex typeIndex c hc objectHandle hk := by
    have hinv := h.inv.types typeIndex c hc
    unfold Extensions.getObjectSpawnIndex
    rw [show s.objects.memory.extensions.typeContexts[typeIndex]? = some c from hc]
    refine ⟨_, rfl, ?_⟩
    cases hg : c.extensionData.getImpl objectHandle with
    | none => exact Or.inl rfl
    | some slot =>
        refine Or.inr ⟨slot.value, ?_, rfl⟩
        exact hinv.handed.slots.filled.mem_elements.2 ⟨_, hinv.handed.elementAt hk hg⟩

/-- The accounts of a program with one type. -/
def noObjects : Trace := ⟨ObjectLayout.noObjects, fun _ => ⟨[], []⟩⟩

/-- An extension of 16 bytes. -/
def oneExtension : Trace :=
  ⟨ObjectLayout.oneExtension, Function.update noObjects.account 0 (noObjects.account 0)⟩

/-- An object with a block. -/
def oneObject : Trace :=
  ⟨ObjectLayout.oneObject,
    Function.update oneExtension.account 0 ⟨[0x00100000], [⟨0, 0x80001000⟩]⟩⟩

theorem accounted_of_reachable_oneObject : Accounted oneObject ∧
    oneObject.heap.starts = [0x1000] ∧
      oneObject.objects.memory.extensions.getObjectSpawnIndex 0 0x00100000 = some 0 := by
  have hr : Reachable noObjects := .init ⟨⟨1, rfl⟩, fun _ => rfl⟩
  have hstep : Step noObjects (0, .register 1 16) oneExtension :=
    ⟨ObjectLayout.step_oneExtension, _, rfl, rfl⟩
  have hstep' : Step oneExtension (0, .create 1 0x1000) oneObject :=
    ⟨⟨_, 0x00100000, _, rfl, rfl, rfl⟩, _, rfl, rfl⟩
  have hproper : Proper oneExtension (0, .create 1 0x1000) := by
    intro c hc _
    obtain rfl := Option.some.inj hc
    exact ⟨by decide, by decide, fun _ hb => absurd hb List.not_mem_nil,
      fun _ hb => absurd hb List.not_mem_nil⟩
  have hr' : Reachable oneExtension := hr.step (0, .register 1 16) (fun _ _ => trivial) hstep
  exact ⟨accounted_of_reachable (hr'.step _ hproper hstep'), rfl, rfl⟩

end ObjectAccounts

end Data
