/-
**The memory hashmaps.**

A memory hashmap gives its keys blocks of one size: `recomputil_u32_memory_hashmap_create` allocates
the block of a key, `recomputil_u32_memory_hashmap_erase` frees it, and
`recomputil_destroy_u32_memory_hashmap` frees all that are left.  A block is known from its map
only, by its address under the key.

The lookup, the allocation, the insertion and the end of an entry are separate steps of four
functions.  Together they keep the account balanced: what is allocated is what the maps hold.

Main definitions:

* `Data.LockedMap` — a map behind a mutex;
* `Data.MemoryHashmaps`, with the functions of `src/game/recomp_data_api.cpp`;
* `Data.MemoryHashmaps.Step`, `Data.MemoryHashmaps.Proper` — the calls, with handles that have been
  taken from a `create`, and an allocator that answers with fresh blocks;
* `Data.MemoryHashmaps.OwnsBlocks` — **the blocks belong to the maps**.

Main results:

* `Data.MemoryHashmaps.drainLoop_spec` — the loop that frees the blocks of a map;
* `Data.MemoryHashmaps.Inv.step` — the step lemma;
* `Data.MemoryHashmaps.owns_blocks_of_reachable` — **in every run the blocks belong to the maps**.
-/

import Mathlib.Data.Finmap
import TsaRecomp.Lib.Ownership
import TsaRecomp.Data.HandleTable
import TsaRecomp.Data.Handed
import TsaRecomp.Data.Rdram

set_option relaxedAutoImplicit false
set_option autoImplicit false

namespace Data

/-! ### `LockedMap` -/

/-- `LockedMap`.  Every method holds the mutex from its start to its end. -/
structure LockedMap (KeyType ValueType : Type) where
  map : Finmap fun _ : KeyType => ValueType

namespace LockedMap

variable {KeyType ValueType : Type} [DecidableEq KeyType] (m : LockedMap KeyType ValueType)

/-- The map as it is constructed. -/
def empty : LockedMap KeyType ValueType := ⟨∅⟩

/-- `get`: the value, when it answers true. -/
def get (key : KeyType) : Option ValueType := m.map.lookup key

/-- `insert` -/
def insert (key : KeyType) (val : ValueType) : Bool × LockedMap KeyType ValueType :=
  (!decide (key ∈ m.map), ⟨m.map.insert key val⟩)

/-- `erase` -/
def erase (key : KeyType) : Bool × LockedMap KeyType ValueType :=
  (decide (key ∈ m.map), ⟨m.map.erase key⟩)

/-- `erase_first`, where `begin()` is at the entry of the given key: the order of the entries is up
to the map. -/
def eraseFirst (first : KeyType) : Option ValueType × LockedMap KeyType ValueType :=
  match m.map.lookup first with
  | none => (none, m)
  | some value => (some value, ⟨m.map.erase first⟩)

/-- `contains` -/
def contains (key : KeyType) : Bool := decide (key ∈ m.map)

/-- `size` -/
def size : ℕ := m.map.keys.card

/-! The entries behind the methods. -/

variable {m}

@[simp] theorem get_empty (key : KeyType) :
    (empty : LockedMap KeyType ValueType).get key = none := Finmap.lookup_empty key

theorem get_insert (key : KeyType) (val : ValueType) (k : KeyType) :
    (m.insert key val).2.get k = if k = key then some val else m.get k := by
  unfold get insert
  split_ifs with hk
  · rw [hk, Finmap.lookup_insert]
  · exact Finmap.lookup_insert_of_ne _ hk

theorem get_erase (key k : KeyType) :
    (m.erase key).2.get k = if k = key then none else m.get k := by
  unfold get erase
  split_ifs with hk
  · rw [hk, Finmap.lookup_erase]
  · exact Finmap.lookup_erase_ne hk

theorem mem_map {k : KeyType} : k ∈ m.map ↔ ∃ value, m.get k = some value := Finmap.mem_iff

/-- What is at a key at all is at one of the others, or at the key that is erased. -/
theorem exists_get_iff_erase {α : Type} {key : KeyType} {value : ValueType}
    (h : m.get key = some value) (f : ValueType → α) (b : α) :
    (∃ k, (m.get k).map f = some b) ↔
      (∃ k, ((m.erase key).2.get k).map f = some b) ∨ b = f value := by
  constructor
  · rintro ⟨k, hk⟩
    by_cases hkk : k = key
    · rw [hkk, h] at hk
      exact Or.inr (Option.some.inj hk).symm
    · exact Or.inl ⟨k, by rw [get_erase, if_neg hkk, hk]⟩
  · rintro (⟨k, hk⟩ | rfl)
    · rw [get_erase] at hk
      split_ifs at hk with hkk
      · cases hk
      · exact ⟨k, hk⟩
    · exact ⟨key, by rw [h]; rfl⟩

theorem eraseFirst_eq {first : KeyType} {value : ValueType} (h : m.get first = some value) :
    m.eraseFirst first = (some value, (m.erase first).2) := by
  unfold get at h
  unfold eraseFirst erase
  rw [h]

end LockedMap

/-! ### The functions -/

/-- `U32MemoryMap`: the map of the blocks, and their size. -/
structure U32MemoryMap where
  first : LockedMap (BitVec 32) (BitVec 32)
  second : BitVec 32

namespace LockedSlotmap

/-- A write through a pointer that `get` has answered with. -/
def update {ValueType : Type} (s : LockedSlotmap ValueType) (key : ℕ) (f : ValueType → ValueType) :
    LockedSlotmap ValueType := { s with map := s.map.modifyValue key f }

end LockedSlotmap

/-- `u32_memory_hashmaps`, and the heap. -/
structure MemoryHashmaps where
  hashmaps : LockedSlotmap U32MemoryMap
  heap : Heap

namespace MemoryHashmaps

variable (s : MemoryHashmaps)

/-! A call has no result where the program ends, after the message `handle is invalid` or in a write
through a null pointer. -/

/-- `recomputil_create_u32_memory_hashmap` -/
def createU32MemoryHashmap (elementSize : BitVec 32) : Option (ℕ × MemoryHashmaps) :=
  let (mapkey, hashmaps) := s.hashmaps.create ⟨.empty, 0⟩
  match hashmaps.get mapkey with
  | none => none
  | some _ =>
      some (mapkey, { s with
        hashmaps := hashmaps.update mapkey fun map => { map with second := elementSize } })

/-- The `while` loop of `recomputil_destroy_u32_memory_hashmap`, where the entries come in the given
order. -/
def drainLoop : List (BitVec 32) → LockedMap (BitVec 32) (BitVec 32) → Heap →
    Option (LockedMap (BitVec 32) (BitVec 32) × Heap)
  | [], first, heap => if first.size = 0 then some (first, heap) else none
  | key :: order, first, heap =>
      match first.eraseFirst key with
      | (none, _) => none
      | (some curMem, first) => drainLoop order first (heap.free (toPtr curMem))

/-- `recomputil_destroy_u32_memory_hashmap` -/
def destroyU32MemoryHashmap (order : List (BitVec 32)) (mapkey : ℕ) : Option MemoryHashmaps :=
  match s.hashmaps.get mapkey with
  | none => none
  | some slot =>
      match drainLoop order slot.value.first s.heap with
      | none => none
      | some (first, heap) =>
          let hashmaps := s.hashmaps.update mapkey fun map => { map with first }
          some ⟨(hashmaps.erase mapkey).2, heap⟩

/-- `recomputil_u32_memory_hashmap_contains` -/
def u32MemoryHashmapContains (mapkey : ℕ) (key : BitVec 32) : Option Bool :=
  match s.hashmaps.get mapkey with
  | none => none
  | some slot => some (slot.value.first.contains key)

/-- `recomputil_u32_memory_hashmap_create`, where `recomp::alloc` answers with `mem`. -/
def u32MemoryHashmapCreate (mapkey : ℕ) (key : BitVec 32) (mem : ℕ) :
    Option (Bool × MemoryHashmaps) :=
  match s.hashmaps.get mapkey with
  | none => none
  | some slot =>
      match slot.value.first.get key with
      | some _ => some (false, s)
      | none =>
          let heap := s.heap.alloc slot.value.second.toNat mem
          let addr := addrOf mem
          let heap := { heap with
            rdram := zeroLoop addr slot.value.second.toNat 0 heap.rdram }
          let ret := addr.setWidth 32
          some (true, {
            hashmaps := s.hashmaps.update mapkey fun map =>
              { map with first := (map.first.insert key ret).2 }
            heap })

/-- `recomputil_u32_memory_hashmap_get` -/
def u32MemoryHashmapGet (mapkey : ℕ) (key : BitVec 32) : Option (BitVec 32) :=
  match s.hashmaps.get mapkey with
  | none => none
  | some slot => some ((slot.value.first.get key).getD 0)

/-- `recomputil_u32_memory_hashmap_erase` -/
def u32MemoryHashmapErase (mapkey : ℕ) (key : BitVec 32) : Option (Bool × MemoryHashmaps) :=
  match s.hashmaps.get mapkey with
  | none => none
  | some slot =>
      let heap :=
        match slot.value.first.get key with
        | some addr => s.heap.free (toPtr addr)
        | none => s.heap
      let (erased, first) := slot.value.first.erase key
      some (erased, { hashmaps := s.hashmaps.update mapkey fun map => { map with first }, heap })

/-- `recomputil_u32_memory_hashmap_size` -/
def u32MemoryHashmapSize (mapkey : ℕ) : Option (BitVec 32) :=
  match s.hashmaps.get mapkey with
  | none => none
  | some slot => some (BitVec.ofNat 32 slot.value.first.size)

/-! ### Runs -/

/-- The state, with the handles that have been answered with. -/
structure Trace where
  state : MemoryHashmaps
  issued : List ℕ

/-- No map has been created. -/
structure Init (s : Trace) : Prop where
  hashmaps : s.state.hashmaps.map = .empty
  blocks : s.state.heap.blocks = []
  freed : s.state.heap.freed = []
  issued : s.issued = []

inductive Call
  | createMap (elementSize : BitVec 32)
  | destroyMap (order : List (BitVec 32)) (mapkey : ℕ)
  | contains (mapkey : ℕ) (key : BitVec 32)
  | create (mapkey : ℕ) (key : BitVec 32) (mem : ℕ)
  | get (mapkey : ℕ) (key : BitVec 32)
  | erase (mapkey : ℕ) (key : BitVec 32)
  | size (mapkey : ℕ)
  deriving DecidableEq, Repr

/-- A call that returns. -/
def Step (s : Trace) : Call → Trace → Prop
  | .createMap elementSize, t => ∃ mapkey u,
      s.state.createU32MemoryHashmap elementSize = some (mapkey, u) ∧ t = ⟨u, mapkey :: s.issued⟩
  | .destroyMap order mapkey, t => ∃ u,
      s.state.destroyU32MemoryHashmap order mapkey = some u ∧ t = ⟨u, s.issued⟩
  | .contains mapkey key, t => ∃ r, s.state.u32MemoryHashmapContains mapkey key = some r ∧ t = s
  | .create mapkey key mem, t => ∃ r u,
      s.state.u32MemoryHashmapCreate mapkey key mem = some (r, u) ∧ t = ⟨u, s.issued⟩
  | .get mapkey key, t => ∃ r, s.state.u32MemoryHashmapGet mapkey key = some r ∧ t = s
  | .erase mapkey key, t => ∃ r u,
      s.state.u32MemoryHashmapErase mapkey key = some (r, u) ∧ t = ⟨u, s.issued⟩
  | .size mapkey, t => ∃ r, s.state.u32MemoryHashmapSize mapkey = some r ∧ t = s

/-- The handle that a call is given. -/
def Call.mapkey? : Call → Option ℕ
  | .createMap _ => none
  | .destroyMap _ mapkey | .contains mapkey _ | .create mapkey _ _ | .get mapkey _ | .erase mapkey _
  | .size mapkey => some mapkey

/-- A handle that has been taken from a `create`, and an allocator that answers with a fresh block,
where it is called. -/
structure Proper (s : Trace) (a : Call) : Prop where
  handle : ∀ mapkey ∈ a.mapkey?, mapkey ∈ s.issued
  fresh : ∀ mapkey key mem, a = .create mapkey key mem →
    ∀ slot ∈ s.state.hashmaps.get mapkey, slot.value.first.get key = none →
      s.state.heap.Fresh slot.value.second.toNat mem

/-- The states of all proper runs. -/
abbrev Reachable (s : Trace) : Prop := Runs.Reach Step Init Proper s

/-! ### What the maps hold -/

/-- The block that is stored in the map of a slot under a key. -/
def held (s : MemoryHashmaps) (p : ℕ × BitVec 32) : Option ℕ :=
  (s.hashmaps.map.elementAt p.1).bind fun map => (map.first.get p.2).map toPtr

/-- **The invariant** -/
structure Inv (s : Trace) : Prop where
  handed : s.state.hashmaps.map.Handed s.issued
  balanced : Ownership.Balanced s.state.held s.state.heap.starts

/-- What a call does to the heap: the blocks that it frees, each of them once. -/
def FreesOnce (heap heap' : Heap) (frees : List ℕ) : Prop :=
  heap'.freed = frees ++ heap.freed ∧ frees.Nodup ∧ ∀ b ∈ frees, b ∈ heap.starts

theorem FreesOnce.of_eq {heap heap' : Heap} (h : heap'.freed = heap.freed) :
    FreesOnce heap heap' [] :=
  ⟨h, List.nodup_nil, by simp⟩

/-! ### The loop that frees the blocks of a map -/

/-- The loop goes on behind a key that the map has. -/
theorem drainLoop_cons {key : BitVec 32} {order : List (BitVec 32)}
    {first first' : LockedMap (BitVec 32) (BitVec 32)} {heap heap' : Heap}
    (h : drainLoop (key :: order) first heap = some (first', heap')) :
    ∃ value, first.get key = some value ∧
      drainLoop order (first.erase key).2 (heap.free (toPtr value)) = some (first', heap') := by
  rw [drainLoop] at h
  cases hg : first.get key with
  | none =>
      have he : first.eraseFirst key = (none, first) := by
        unfold LockedMap.eraseFirst
        rw [show first.map.lookup key = none from hg]
      rw [he] at h
      cases h
  | some value =>
      rw [LockedMap.eraseFirst_eq hg] at h
      exact ⟨value, rfl, h⟩

/-- The blocks of all maps, where those of the map at an index are the given ones. -/
def heldWith (index : ℕ) (other : ℕ × BitVec 32 → Option ℕ)
    (first : LockedMap (BitVec 32) (BitVec 32)) (p : ℕ × BitVec 32) : Option ℕ :=
  if p.1 = index then (first.get p.2).map toPtr else other p

theorem heldWith_erase (index : ℕ) (other : ℕ × BitVec 32 → Option ℕ)
    (first : LockedMap (BitVec 32) (BitVec 32)) (key : BitVec 32) :
    Ownership.Changed (heldWith index other first) (heldWith index other (first.erase key).2)
      (index, key) none := by
  refine ⟨by simp [heldWith, LockedMap.get_erase], ?_⟩
  rintro ⟨i, k⟩ hne
  by_cases hi : i = index
  · have hk : k ≠ key := fun hk => hne (by rw [hi, hk])
    simp [heldWith, hi, LockedMap.get_erase, hk]
  · simp [heldWith, hi]

/-- **The loop**: with the blocks of the map it frees what is held in the places of the map, and
leaves the other places alone. -/
theorem drainLoop_spec {index : ℕ} {other : ℕ × BitVec 32 → Option ℕ} :
    ∀ {order : List (BitVec 32)} {first first' : LockedMap (BitVec 32) (BitVec 32)}
      {heap heap' : Heap}, drainLoop order first heap = some (first', heap') →
        Ownership.Balanced (heldWith index other first) heap.starts →
        Ownership.Balanced (fun p => if p.1 = index then none else other p) heap'.starts ∧
          (∀ key, first'.get key = none) ∧
          ∃ frees, heap'.freed = frees ++ heap.freed ∧
            Ownership.Freed heap.starts frees heap'.starts ∧
            ∀ b, b ∈ frees ↔ ∃ key, (first.get key).map toPtr = some b := by
  intro order
  induction order with
  | nil =>
      intro first first' heap heap' h hb
      rw [drainLoop] at h
      split_ifs at h with hsize
      obtain ⟨rfl, rfl⟩ := Prod.mk.inj (Option.some.inj h)
      have hnone : ∀ key, first.get key = none := by
        intro key
        refine Finmap.lookup_eq_none.2 fun hmem => ?_
        have hcard := Finset.card_eq_zero.1 hsize
        exact Finset.notMem_empty key (hcard ▸ Finmap.mem_keys.2 hmem)
      refine ⟨hb.congr fun p => ?_, hnone, [], rfl, .nil, by simp [hnone]⟩
      rw [heldWith, hnone]
      rfl
  | cons key order ih =>
      intro first first' heap heap' h hb
      obtain ⟨value, hg, h⟩ := drainLoop_cons h
      have hplace : heldWith index other first (index, key) = some (toPtr value) := by
        simp [heldWith, hg]
      have hdrop := hb.drop hplace (heldWith_erase index other first key)
      rw [← Heap.starts_free] at hdrop
      obtain ⟨hb', hnone, frees, hfreed, hfrees, hmem⟩ := ih h hdrop
      refine ⟨hb', hnone, frees ++ [toPtr value], ?_, ?_, fun b => ?_⟩
      · rw [hfreed, Heap.freed_free, List.append_assoc]
        rfl
      · rw [Heap.starts_free] at hfrees
        exact .cons (hb.mem_iff.2 ⟨_, hplace⟩) hfrees
      · rw [List.mem_append, List.mem_singleton, hmem, LockedMap.exists_get_iff_erase hg]

/-- The loop ends when the order lists the keys of the map. -/
theorem drainLoop_total : ∀ {order : List (BitVec 32)} {first : LockedMap (BitVec 32) (BitVec 32)}
    {heap : Heap}, order.Nodup → (∀ key, key ∈ order ↔ key ∈ first.map) →
      ∃ r, drainLoop order first heap = some r := by
  intro order
  induction order with
  | nil =>
      intro first heap _ hkeys
      have hsize : first.size = 0 := by
        refine Finset.card_eq_zero.2 (Finset.eq_empty_iff_forall_notMem.2 fun key hk => ?_)
        exact List.not_mem_nil ((hkeys key).2 (Finmap.mem_keys.1 hk))
      exact ⟨_, by rw [drainLoop, if_pos hsize]⟩
  | cons key order ih =>
      intro first heap hnodup hkeys
      obtain ⟨value, hg⟩ := LockedMap.mem_map.1 ((hkeys key).1 List.mem_cons_self)
      rw [drainLoop, LockedMap.eraseFirst_eq hg]
      refine ih (List.nodup_cons.1 hnodup).2 fun k => ?_
      have hmem := hkeys k
      rw [List.mem_cons] at hmem
      rw [show (k ∈ (first.erase key).2.map ↔ k ≠ key ∧ k ∈ first.map) from Finmap.mem_erase]
      constructor
      · intro hk
        exact ⟨fun e => (List.nodup_cons.1 hnodup).1 (e ▸ hk), hmem.1 (Or.inr hk)⟩
      · rintro ⟨hne, hk⟩
        exact (hmem.2 hk).resolve_left hne

/-! ### The calls -/

/-- The state behind a `create` of a key without a block. -/
def created (s : MemoryHashmaps) (mapkey : ℕ) (elementSize key : BitVec 32) (mem : ℕ) :
    MemoryHashmaps where
  hashmaps := s.hashmaps.update mapkey fun map =>
    { map with first := (map.first.insert key ((addrOf mem).setWidth 32)).2 }
  heap := { s.heap.alloc elementSize.toNat mem with
    rdram := zeroLoop (addrOf mem) elementSize.toNat 0 s.heap.rdram }

/-- The state behind an `erase`. -/
def erased (s : MemoryHashmaps) (mapkey : ℕ) (first : LockedMap (BitVec 32) (BitVec 32))
    (key : BitVec 32) : MemoryHashmaps where
  hashmaps := s.hashmaps.update mapkey fun map => { map with first := (first.erase key).2 }
  heap :=
    match first.get key with
    | some addr => s.heap.free (toPtr addr)
    | none => s.heap

section Calls

variable {s : MemoryHashmaps} {mapkey : ℕ} {slot : Slot U32MemoryMap}

/-- **What a `create` can do.** -/
theorem u32MemoryHashmapCreate_eq (hg : s.hashmaps.get mapkey = some slot) (key : BitVec 32)
    (mem : ℕ) : s.u32MemoryHashmapCreate mapkey key mem =
      if (slot.value.first.get key).isSome then some (false, s)
      else some (true, s.created mapkey slot.value.second key mem) := by
  unfold u32MemoryHashmapCreate
  rw [hg]
  cases hv : slot.value.first.get key <;> simp only [hv] <;> rfl

/-- **What an `erase` can do.** -/
theorem u32MemoryHashmapErase_eq (hg : s.hashmaps.get mapkey = some slot) (key : BitVec 32) :
    s.u32MemoryHashmapErase mapkey key =
      some ((slot.value.first.erase key).1, s.erased mapkey slot.value.first key) := by
  unfold u32MemoryHashmapErase
  rw [hg]
  rfl

end Calls

namespace Inv

variable {s : Trace} {mapkey : ℕ} {slot : Slot U32MemoryMap}

/-- The places of the map of an accepted handle. -/
theorem held_self (h : Inv s) (hk : mapkey ∈ s.issued)
    (hg : s.state.hashmaps.get mapkey = some slot) (key : BitVec 32) :
    s.state.held (Key.toIndex mapkey, key) = (slot.value.first.get key).map toPtr := by
  rw [held, h.handed.elementAt hk hg, Option.bind_some]

/-- The places behind a write through an accepted handle. -/
theorem held_update (h : Inv s) (hk : mapkey ∈ s.issued)
    (hg : s.state.hashmaps.get mapkey = some slot) (f : U32MemoryMap → U32MemoryMap)
    (heap : Heap) (p : ℕ × BitVec 32) :
    held ⟨s.state.hashmaps.update mapkey f, heap⟩ p =
      if p.1 = Key.toIndex mapkey then ((f slot.value).first.get p.2).map toPtr
      else s.state.held p := by
  unfold held LockedSlotmap.update
  dsimp only
  rw [h.handed.elementAt_write hk hg]
  split_ifs
  · rfl
  · rfl

theorem handed_update (h : Inv s) (hk : mapkey ∈ s.issued)
    (hg : s.state.hashmaps.get mapkey = some slot) (f : U32MemoryMap → U32MemoryMap) :
    (s.state.hashmaps.update mapkey f).map.Handed s.issued := by
  obtain ⟨hs, -, ht⟩ := h.handed.alive hk hg
  exact h.handed.write f hs ht

/-- A map that has just been created. -/
theorem emplaced (h : Inv s) :
    Inv ⟨⟨(s.state.hashmaps.create ⟨.empty, 0⟩).2, s.state.heap⟩,
        (s.state.hashmaps.create ⟨.empty, 0⟩).1 :: s.issued⟩ ∧
      ∀ p, held ⟨(s.state.hashmaps.create ⟨.empty, 0⟩).2, s.state.heap⟩ p = s.state.held p := by
  obtain ⟨index, hnone, hat⟩ := h.handed.elementAt_emplace (⟨.empty, 0⟩ : U32MemoryMap)
  -- the new map has no entries
  have hheld : ∀ p, held ⟨(s.state.hashmaps.create ⟨.empty, 0⟩).2, s.state.heap⟩ p =
      s.state.held p := by
    intro p
    unfold held
    rw [show (s.state.hashmaps.create ⟨.empty, 0⟩).2.map.elementAt p.1 = _ from hat p.1]
    split_ifs with hi
    · rw [hi, hnone]
      simp
    · rfl
  exact ⟨⟨h.handed.emplace _, h.balanced.congr hheld⟩, hheld⟩

/-- `recomputil_create_u32_memory_hashmap` -/
theorem createMap (h : Inv s) {elementSize : BitVec 32} {u : MemoryHashmaps}
    (hc : s.state.createU32MemoryHashmap elementSize = some (mapkey, u)) :
    Inv ⟨u, mapkey :: s.issued⟩ ∧ u.heap = s.state.heap := by
  unfold createU32MemoryHashmap at hc
  obtain ⟨hinv, hheld⟩ := h.emplaced
  dsimp only at hc
  split at hc
  · cases hc
  · next slot hg =>
      obtain ⟨rfl, rfl⟩ := Prod.mk.inj (Option.some.inj hc)
      refine ⟨⟨hinv.handed_update List.mem_cons_self hg _, hinv.balanced.congr fun p => ?_⟩, rfl⟩
      dsimp only
      rw [hinv.held_update List.mem_cons_self hg]
      split_ifs with hi
      · exact (hi ▸ hinv.held_self List.mem_cons_self hg p.2).symm
      · rfl

/-- `recomputil_u32_memory_hashmap_create` of a key without a block. -/
theorem create (h : Inv s) (hk : mapkey ∈ s.issued)
    (hg : s.state.hashmaps.get mapkey = some slot) {key : BitVec 32} {mem : ℕ}
    (hnone : slot.value.first.get key = none)
    (hf : s.state.heap.Fresh slot.value.second.toNat mem) :
    Inv ⟨s.state.created mapkey slot.value.second key mem, s.issued⟩ := by
  refine ⟨h.handed_update hk hg _, ?_⟩
  refine h.balanced.put (p := (Key.toIndex mapkey, key)) ?_ hf.notMem_starts ⟨?_, ?_⟩
  · rw [h.held_self hk hg, hnone]
    rfl
  · dsimp only [created]
    rw [h.held_update hk hg, if_pos rfl, LockedMap.get_insert, if_pos rfl, Option.map_some,
      toPtr_addrOf hf.lt]
  · rintro ⟨i, k⟩ hne
    dsimp only [created]
    rw [h.held_update hk hg]
    split_ifs with hi
    · dsimp only at hi ⊢
      have hkk : k ≠ key := fun e => hne (by rw [hi, e])
      rw [LockedMap.get_insert, if_neg hkk, hi, h.held_self hk hg]
    · rfl

/-- `recomputil_u32_memory_hashmap_erase` -/
theorem erase (h : Inv s) (hk : mapkey ∈ s.issued)
    (hg : s.state.hashmaps.get mapkey = some slot) (key : BitVec 32) :
    Inv ⟨s.state.erased mapkey slot.value.first key, s.issued⟩ ∧
      FreesOnce s.state.heap (s.state.erased mapkey slot.value.first key).heap
        ((slot.value.first.get key).map toPtr).toList := by
  have hheld : ∀ p, (s.state.erased mapkey slot.value.first key).held p =
      if p = (Key.toIndex mapkey, key) then none else s.state.held p := by
    rintro ⟨i, k⟩
    unfold erased
    rw [h.held_update hk hg, LockedMap.get_erase]
    by_cases hi : i = Key.toIndex mapkey
    · by_cases hkk : k = key
      · simp [hi, hkk]
      · simp [hi, hkk, h.held_self hk hg]
    · simp [hi]
  have hhanded := h.handed_update hk hg fun map =>
    { map with first := (slot.value.first.erase key).2 }
  cases hv : slot.value.first.get key with
  | none =>
      have hheap : (s.state.erased mapkey slot.value.first key).heap = s.state.heap := by
        unfold erased
        rw [hv]
      refine ⟨⟨hhanded, ?_⟩, .of_eq (by rw [hheap])⟩
      dsimp only
      rw [hheap]
      refine h.balanced.congr fun p => ?_
      rw [hheld]
      split_ifs with hp
      · rw [hp, h.held_self hk hg, hv]
        rfl
      · rfl
  | some value =>
      have hheap : (s.state.erased mapkey slot.value.first key).heap =
          s.state.heap.free (toPtr value) := by
        unfold erased
        rw [hv]
      have hplace : s.state.held (Key.toIndex mapkey, key) = some (toPtr value) := by
        rw [h.held_self hk hg, hv]
        rfl
      refine ⟨⟨hhanded, ?_⟩, ?_⟩
      · dsimp only
        rw [hheap, Heap.starts_free]
        exact h.balanced.drop hplace ⟨by rw [hheld, if_pos rfl], fun q hq => by
          rw [hheld, if_neg hq]⟩
      · rw [hheap]
        refine ⟨rfl, List.nodup_singleton _, ?_⟩
        intro b hb
        rw [List.mem_singleton.1 hb]
        exact h.balanced.mem_iff.2 ⟨_, hplace⟩

/-- `recomputil_destroy_u32_memory_hashmap` -/
theorem destroyMap (h : Inv s) (hk : mapkey ∈ s.issued)
    (hg : s.state.hashmaps.get mapkey = some slot) {order : List (BitVec 32)}
    {u : MemoryHashmaps} (hd : s.state.destroyU32MemoryHashmap order mapkey = some u) :
    Inv ⟨u, s.issued⟩ ∧ ∃ frees, FreesOnce s.state.heap u.heap frees ∧
      ∀ b, b ∈ frees ↔ ∃ key, s.state.held (Key.toIndex mapkey, key) = some b := by
  unfold destroyU32MemoryHashmap at hd
  rw [hg] at hd
  dsimp only at hd
  split at hd
  · cases hd
  · next first heap hdrain =>
      obtain rfl := Option.some.inj hd
      have hstart : Ownership.Balanced
          (heldWith (Key.toIndex mapkey) s.state.held slot.value.first) s.state.heap.starts := by
        refine h.balanced.congr fun p => ?_
        rw [heldWith]
        split_ifs with hi
        · exact (hi ▸ h.held_self hk hg p.2).symm
        · rfl
      obtain ⟨hbalanced, -, frees, hfreed, hfrees, hmem⟩ := drainLoop_spec hdrain hstart
      have hhanded := h.handed_update hk hg fun map => { map with first }
      have hget : (s.state.hashmaps.update mapkey fun map => { map with first }).get mapkey =
          some { slot with value := { slot.value with first } } :=
        h.handed.getImpl_write_self hk (fun map => { map with first }) hg
      refine ⟨⟨?_, ?_⟩, frees, ⟨hfreed, hfrees.nodup, hfrees.allocated⟩, fun b => ?_⟩
      · rw [LockedSlotmap.map_erase]
        exact hhanded.erase mapkey
      · refine hbalanced.congr fun p => ?_
        unfold held
        dsimp only
        rw [LockedSlotmap.map_erase, hhanded.elementAt_erase hk hget]
        split_ifs with hi
        · rfl
        · rw [show (s.state.hashmaps.update mapkey _).map.elementAt p.1 = _ from
            h.handed.elementAt_write hk hg _ p.1, if_neg hi]
      · simp only [hmem, h.held_self hk hg]

end Inv

/-! ### Runs -/

/-- A map is found where a call returns. -/
theorem exists_slot {s t : Trace} {a : Call} (hst : Step s a t) :
    ∀ mapkey ∈ a.mapkey?, ∃ slot, s.state.hashmaps.get mapkey = some slot := by
  intro mapkey hm
  have key : s.state.hashmaps.get mapkey ≠ none := by
    intro hnone
    cases a with
    | createMap => cases hm
    | destroyMap order k =>
        obtain rfl := Option.some.inj hm
        obtain ⟨u, hu, -⟩ := hst
        simp [destroyU32MemoryHashmap, hnone] at hu
    | contains k key =>
        obtain rfl := Option.some.inj hm
        obtain ⟨r, hr, -⟩ := hst
        simp [u32MemoryHashmapContains, hnone] at hr
    | create k key mem =>
        obtain rfl := Option.some.inj hm
        obtain ⟨r, u, hu, -⟩ := hst
        simp [u32MemoryHashmapCreate, hnone] at hu
    | get k key =>
        obtain rfl := Option.some.inj hm
        obtain ⟨r, hr, -⟩ := hst
        simp [u32MemoryHashmapGet, hnone] at hr
    | erase k key =>
        obtain rfl := Option.some.inj hm
        obtain ⟨r, u, hu, -⟩ := hst
        simp [u32MemoryHashmapErase, hnone] at hu
    | size k =>
        obtain rfl := Option.some.inj hm
        obtain ⟨r, hr, -⟩ := hst
        simp [u32MemoryHashmapSize, hnone] at hr
  exact Option.ne_none_iff_exists'.1 key

/-- **The step lemma**: a proper call keeps the invariant, and frees what is allocated, once. -/
theorem Inv.step {s t : Trace} {a : Call} (h : Inv s) (hp : Proper s a) (hst : Step s a t) :
    Inv t ∧ ∃ frees, FreesOnce s.state.heap t.state.heap frees := by
  have hslot := exists_slot hst
  cases a with
  | createMap elementSize =>
      obtain ⟨mapkey, u, hu, rfl⟩ := hst
      obtain ⟨hinv, hheap⟩ := h.createMap hu
      exact ⟨hinv, [], .of_eq (by rw [hheap])⟩
  | destroyMap order mapkey =>
      obtain ⟨slot, hg⟩ := hslot mapkey rfl
      obtain ⟨u, hu, rfl⟩ := hst
      obtain ⟨hinv, frees, hfrees, -⟩ := h.destroyMap (hp.handle mapkey rfl) hg hu
      exact ⟨hinv, frees, hfrees⟩
  | create mapkey key mem =>
      obtain ⟨slot, hg⟩ := hslot mapkey rfl
      obtain ⟨r, u, hu, rfl⟩ := hst
      rw [u32MemoryHashmapCreate_eq hg] at hu
      split_ifs at hu with hv
      · obtain ⟨-, rfl⟩ := Prod.mk.inj (Option.some.inj hu)
        exact ⟨h, [], .of_eq rfl⟩
      · obtain ⟨-, rfl⟩ := Prod.mk.inj (Option.some.inj hu)
        have hnone := Option.not_isSome_iff_eq_none.1 hv
        exact ⟨h.create (hp.handle mapkey rfl) hg hnone (hp.fresh mapkey key mem rfl slot hg hnone),
          [], .of_eq rfl⟩
  | erase mapkey key =>
      obtain ⟨slot, hg⟩ := hslot mapkey rfl
      obtain ⟨r, u, hu, rfl⟩ := hst
      rw [u32MemoryHashmapErase_eq hg] at hu
      obtain ⟨-, rfl⟩ := Prod.mk.inj (Option.some.inj hu)
      obtain ⟨hinv, hfrees⟩ := h.erase (hp.handle mapkey rfl) hg key
      exact ⟨hinv, _, hfrees⟩
  | contains mapkey key =>
      obtain ⟨-, -, rfl⟩ := hst
      exact ⟨h, [], .of_eq rfl⟩
  | get mapkey key =>
      obtain ⟨-, -, rfl⟩ := hst
      exact ⟨h, [], .of_eq rfl⟩
  | size mapkey =>
      obtain ⟨-, -, rfl⟩ := hst
      exact ⟨h, [], .of_eq rfl⟩

/-- **The run lemma.** -/
theorem Reachable.inv {s : Trace} (h : Reachable s) : Inv s := by
  refine Runs.Reach.invariant (I := Inv) ?_ (fun s a t hs hp hst => (hs.step hp hst).1) h
  intro s hs
  have hheld : ∀ p, s.state.held p = none := by
    intro p
    simp [held, SlotMap.elementAt, hs.hashmaps]
  have hstarts : s.state.heap.starts = [] := by rw [Heap.starts, hs.blocks]; rfl
  refine ⟨?_, ?_⟩
  · rw [hs.hashmaps, hs.issued]
    exact .empty
  · rw [hstarts]
    exact Ownership.Balanced.empty.congr hheld

/-! ### A block that stays -/

/-- The block of a key, as its map answers with it. -/
def Stored (s : Trace) (mapkey : ℕ) (key addr : BitVec 32) : Prop :=
  mapkey ∈ s.issued ∧ ∃ slot, s.state.hashmaps.get mapkey = some slot ∧
    slot.value.first.get key = some addr

/-- A write to the map of a handle, that leaves the entry alone. -/
theorem Stored.update {s : Trace} {mapkey : ℕ} {key addr : BitVec 32} (h : Inv s)
    (hs : Stored s mapkey key addr) {k : ℕ} {slot : Slot U32MemoryMap} (hk : k ∈ s.issued)
    (hg : s.state.hashmaps.get k = some slot) {f : U32MemoryMap → U32MemoryMap} {heap : Heap}
    (hf : k = mapkey → slot.value.first.get key = some addr →
      (f slot.value).first.get key = some addr) :
    Stored ⟨⟨s.state.hashmaps.update k f, heap⟩, s.issued⟩ mapkey key addr := by
  obtain ⟨hm, slot', hg', hv⟩ := hs
  refine ⟨hm, _, h.handed.getImpl_write hk hm f hg hg', ?_⟩
  split_ifs with hmk
  · subst hmk
    obtain rfl := Option.some.inj (hg.symm.trans hg')
    exact hf rfl hv
  · exact hv

/-- `recomputil_create_u32_memory_hashmap` -/
theorem Stored.createMap {s : Trace} {mapkey : ℕ} {key addr : BitVec 32} (h : Inv s)
    (hs : Stored s mapkey key addr) {elementSize : BitVec 32} {k : ℕ} {u : MemoryHashmaps}
    (hu : s.state.createU32MemoryHashmap elementSize = some (k, u)) :
    Stored ⟨u, k :: s.issued⟩ mapkey key addr := by
  obtain ⟨hinv, -⟩ := h.emplaced
  obtain ⟨hm, slot, hg, hv⟩ := hs
  have hs' : Stored ⟨⟨(s.state.hashmaps.create ⟨.empty, 0⟩).2, s.state.heap⟩,
      (s.state.hashmaps.create ⟨.empty, 0⟩).1 :: s.issued⟩ mapkey key addr :=
    ⟨List.mem_cons_of_mem _ hm, slot, h.handed.getImpl_emplace _ hm hg, hv⟩
  unfold createU32MemoryHashmap at hu
  dsimp only at hu
  split at hu
  · cases hu
  · next slot' hg' =>
      obtain ⟨rfl, rfl⟩ := Prod.mk.inj (Option.some.inj hu)
      exact hs'.update hinv List.mem_cons_self hg' fun _ hv' => hv'

/-- `recomputil_destroy_u32_memory_hashmap`, of another map. -/
theorem Stored.destroyMap {s : Trace} {mapkey : ℕ} {key addr : BitVec 32} (h : Inv s)
    (hs : Stored s mapkey key addr) {order : List (BitVec 32)} {k : ℕ} {u : MemoryHashmaps}
    {slot : Slot U32MemoryMap} (hk : k ∈ s.issued) (hg : s.state.hashmaps.get k = some slot)
    (hne : mapkey ≠ k) (hu : s.state.destroyU32MemoryHashmap order k = some u) :
    Stored ⟨u, s.issued⟩ mapkey key addr := by
  unfold destroyU32MemoryHashmap at hu
  rw [hg] at hu
  dsimp only at hu
  split at hu
  · cases hu
  · next first heap hdrain =>
      obtain rfl := Option.some.inj hu
      have hhanded := h.handed_update hk hg fun map => { map with first }
      have hs' : Stored ⟨⟨s.state.hashmaps.update k fun map => { map with first }, heap⟩,
          s.issued⟩ mapkey key addr := hs.update h hk hg fun e => absurd e.symm hne
      obtain ⟨hm, slot', hg', hv⟩ := hs'
      have hgk := h.handed.getImpl_write_self hk (fun map => { map with first }) hg
      refine ⟨hm, slot', ?_, hv⟩
      rw [LockedSlotmap.get, LockedSlotmap.map_erase]
      exact hhanded.getImpl_erase hk hm hgk hg' hne

/-- The call ends the entry of a key. -/
def Call.Ends (mapkey : ℕ) (key : BitVec 32) (a : Call) : Prop :=
  a = .erase mapkey key ∨ ∃ order, a = .destroyMap order mapkey

/-- Every other call keeps the entry. -/
theorem Stored.step {s t : Trace} {mapkey : ℕ} {key addr : BitVec 32} (h : Inv s)
    (hs : Stored s mapkey key addr) {a : Call} (hp : Proper s a) (hst : Step s a t)
    (hkeep : ¬ a.Ends mapkey key) : Stored t mapkey key addr := by
  have hslot := exists_slot hst
  cases a with
  | createMap elementSize =>
      obtain ⟨k, u, hu, rfl⟩ := hst
      exact hs.createMap h hu
  | destroyMap order k =>
      obtain ⟨slot, hg⟩ := hslot k rfl
      have hne : mapkey ≠ k := by
        rintro rfl
        exact hkeep (Or.inr ⟨order, rfl⟩)
      obtain ⟨u, hu, rfl⟩ := hst
      exact hs.destroyMap h (hp.handle k rfl) hg hne hu
  | create k key' mem =>
      obtain ⟨slot, hg⟩ := hslot k rfl
      obtain ⟨r, u, hu, rfl⟩ := hst
      rw [u32MemoryHashmapCreate_eq hg] at hu
      split_ifs at hu with hv
      · obtain ⟨-, rfl⟩ := Prod.mk.inj (Option.some.inj hu)
        exact hs
      · obtain ⟨-, rfl⟩ := Prod.mk.inj (Option.some.inj hu)
        refine hs.update h (hp.handle k rfl) hg fun _ hval => ?_
        dsimp only
        rw [LockedMap.get_insert]
        split_ifs with hkk
        · rw [← hkk, hval] at hv
          exact absurd rfl hv
        · exact hval
  | erase k key' =>
      obtain ⟨slot, hg⟩ := hslot k rfl
      obtain ⟨r, u, hu, rfl⟩ := hst
      rw [u32MemoryHashmapErase_eq hg] at hu
      obtain ⟨-, rfl⟩ := Prod.mk.inj (Option.some.inj hu)
      refine hs.update h (hp.handle k rfl) hg fun hkm hval => ?_
      dsimp only
      rw [LockedMap.get_erase]
      split_ifs with hkk
      · exact absurd (Or.inl (by rw [hkm, hkk])) hkeep
      · exact hval
  | contains k key' =>
      obtain ⟨-, -, rfl⟩ := hst
      exact hs
  | get k key' =>
      obtain ⟨-, -, rfl⟩ := hst
      exact hs
  | size k =>
      obtain ⟨-, -, rfl⟩ := hst
      exact hs

/-- Every run of such calls keeps it. -/
theorem Stored.run {s t : Trace} {mapkey : ℕ} {key addr : BitVec 32} (h : Inv s)
    (hs : Stored s mapkey key addr)
    (hr : Runs.RunsTo Step (fun s a => Proper s a ∧ ¬ a.Ends mapkey key) s t) :
    Stored t mapkey key addr := by
  have hkey : Inv t ∧ Stored t mapkey key addr := by
    refine hr.invariant (I := fun t => Inv t ∧ Stored t mapkey key addr) ?_ ⟨h, hs⟩
    intro s a t hs ha hst
    exact ⟨(hs.1.step ha.1 hst).1, hs.2.step hs.1 ha.1 hst ha.2⟩
  exact hkey.2

/-! ### The result -/

/-- **The blocks belong to the maps.** -/
structure OwnsBlocks (s : Trace) : Prop where
  /-- What is allocated is what the maps hold, each block in one map and under one key. -/
  balanced : Ownership.Balanced s.state.held s.state.heap.starts
  /-- What a call frees is allocated, and freed once. -/
  frees : ∀ a t, Proper s a → Step s a t → ∃ frees, FreesOnce s.state.heap t.state.heap frees
  /-- The destruction of a map ends, in whatever order the entries come. -/
  destroy_ends : ∀ mapkey slot order, s.state.hashmaps.get mapkey = some slot → order.Nodup →
    (∀ key, key ∈ order ↔ key ∈ slot.value.first.map) →
    ∃ u, s.state.destroyU32MemoryHashmap order mapkey = some u
  /-- It frees the blocks of the map, each of them once. -/
  destroyed : ∀ mapkey ∈ s.issued, ∀ order u,
    s.state.destroyU32MemoryHashmap order mapkey = some u →
      ∃ frees, FreesOnce s.state.heap u.heap frees ∧
        ∀ b, b ∈ frees ↔ ∃ key, s.state.held (Key.toIndex mapkey, key) = some b
  /-- The block of a key stays, and no other one is allocated for the key. -/
  kept : ∀ mapkey key mem u t, Proper s (.create mapkey key mem) →
    s.state.u32MemoryHashmapCreate mapkey key mem = some (true, u) →
    Runs.RunsTo Step (fun s a => Proper s a ∧ ¬ a.Ends mapkey key) ⟨u, s.issued⟩ t →
      t.state.u32MemoryHashmapGet mapkey key = some ((addrOf mem).setWidth 32) ∧
        ∀ mem', t.state.u32MemoryHashmapCreate mapkey key mem' = some (false, t.state)

/-- **In every run the blocks belong to the maps.** -/
theorem owns_blocks_of_reachable {s : Trace} (h : Reachable s) : OwnsBlocks s where
  balanced := h.inv.balanced
  frees a t hp hst := (h.inv.step hp hst).2
  destroy_ends mapkey slot order hg hnodup hkeys := by
    obtain ⟨⟨first, heap⟩, hr⟩ :=
      @drainLoop_total order slot.value.first s.state.heap hnodup hkeys
    unfold destroyU32MemoryHashmap
    rw [hg]
    dsimp only
    rw [hr]
    exact ⟨_, rfl⟩
  destroyed mapkey hm order u hu := by
    have hst : Step s (.destroyMap order mapkey) ⟨u, s.issued⟩ := ⟨u, hu, rfl⟩
    obtain ⟨slot, hg⟩ := exists_slot hst mapkey rfl
    exact (h.inv.destroyMap hm hg hu).2
  kept mapkey key mem u t hp hc hr := by
    have hst : Step s (.create mapkey key mem) ⟨u, s.issued⟩ := ⟨true, u, hc, rfl⟩
    obtain ⟨slot, hg⟩ := exists_slot hst mapkey rfl
    have hm := hp.handle mapkey rfl
    rw [u32MemoryHashmapCreate_eq hg] at hc
    split_ifs at hc with hv
    · cases (Prod.mk.inj (Option.some.inj hc)).1
    · obtain ⟨-, rfl⟩ := Prod.mk.inj (Option.some.inj hc)
      have hstored : Stored ⟨s.state.created mapkey slot.value.second key mem, s.issued⟩ mapkey key
          ((addrOf mem).setWidth 32) := by
        refine ⟨hm, _, h.inv.handed.getImpl_write_self hm _ hg, ?_⟩
        dsimp only
        rw [LockedMap.get_insert, if_pos rfl]
      obtain ⟨-, slot', hg', hv'⟩ := hstored.run (h.inv.step hp hst).1 hr
      refine ⟨?_, fun mem' => ?_⟩
      · unfold u32MemoryHashmapGet
        rw [hg']
        dsimp only
        rw [hv']
        rfl
      · rw [u32MemoryHashmapCreate_eq hg', hv']
        rfl

/-- A program without maps. -/
def noMaps : Trace := ⟨⟨⟨.empty⟩, ⟨fun _ => 0, [], []⟩⟩, []⟩

/-- A map of blocks of 8 bytes. -/
def oneMap : Trace :=
  ⟨((noMaps.state.createU32MemoryHashmap 8).getD (0, noMaps.state)).2, [0x100000]⟩

/-- The block of a key. -/
def oneBlock : Trace :=
  ⟨((oneMap.state.u32MemoryHashmapCreate 0x100000 5 0x1000).getD (false, oneMap.state)).2,
    [0x100000]⟩

theorem owns_blocks_of_reachable_oneBlock :
    OwnsBlocks oneBlock ∧ oneBlock.state.heap.starts = [0x1000] := by
  have hr : Reachable noMaps := .init ⟨rfl, rfl, rfl, rfl⟩
  have hmap : Proper noMaps (.createMap 8) :=
    ⟨fun _ => nofun, fun _ _ _ => nofun⟩
  have hblock : Proper oneMap (.create 0x100000 5 0x1000) := by
    refine ⟨fun mapkey hm => ?_, fun mapkey key mem he slot hs _ => ?_⟩
    · obtain rfl := Option.some.inj hm
      exact List.mem_cons_self
    · cases he
      obtain rfl := Option.some.inj hs
      exact ⟨by decide, by decide, fun _ => nofun, fun _ => nofun⟩
  exact ⟨owns_blocks_of_reachable ((hr.step _ hmap ⟨0x100000, _, rfl, rfl⟩).step _ hblock
    ⟨true, _, rfl, rfl⟩), rfl⟩

end MemoryHashmaps

end Data
