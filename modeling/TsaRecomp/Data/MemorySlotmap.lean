/-
**The memory slotmaps.**

A memory slotmap is meant to be to its keys what a memory hashmap is:
`recomputil_memory_slotmap_create` makes a key with a block of the size that the map has been
created with.  It does not get there.  The map never learns of the size, since
`recomputil_create_memory_slotmap` does not read its argument; and the address of the block is
written with `MEM_W` to where the value of the new key, the null pointer, points to, so that the
value stays null.  `recomputil_memory_slotmap_erase` then takes the address of the value for the
address of the block.

So the functions do what they are for as long as nobody creates a key.

Main definitions:

* `Data.MemorySlotmaps`, with the functions of `src/game/recomp_data_api.cpp`;
* `Data.MemorySlotmaps.Stores`, `Data.MemorySlotmaps.CallOk` — **what is allocated is stored**, in a
  state and over a call.

Main results:

* `Data.MemorySlotmaps.Inv.step` — the step lemma, for runs in which no key is created;
* `Data.MemorySlotmaps.not_stores_of_create` — the value of a new key is not the address of its
  block;
* `Data.MemorySlotmaps.stores_of_reachable` — **in these runs, and only in these**, what is
  allocated is stored.
-/

import TsaRecomp.Data.DeadKeys
import TsaRecomp.Data.MemoryHashmap

set_option relaxedAutoImplicit false
set_option autoImplicit false

namespace Data

/-! ### The functions -/

/-- `MemorySlotmap`: the slot map of the addresses, and the size of the blocks. -/
structure MemorySlotmap where
  first : LockedSlotmap (BitVec 32)
  second : BitVec 32

/-- `memory_slotmaps`, and the heap. -/
structure MemorySlotmaps where
  slotmaps : LockedSlotmap MemorySlotmap
  heap : Heap

namespace MemorySlotmaps

variable (s : MemorySlotmaps)

/-! A call has no result where the program ends, after a message or in an access through a null
pointer of the host. -/

/-- `recomputil_create_memory_slotmap`, which does not look at its argument. -/
def createMemorySlotmap (_elementSize : BitVec 32) : ℕ × MemorySlotmaps :=
  let (mapkey, slotmaps) := s.slotmaps.create ⟨⟨.empty⟩, 0⟩
  (mapkey, { s with slotmaps })

/-- The `while` loop of `recomputil_destroy_memory_slotmap`. -/
def drainLoop : ℕ → LockedSlotmap (BitVec 32) → Heap → Option (LockedSlotmap (BitVec 32) × Heap)
  | 0, _, _ => none
  | fuel + 1, first, heap =>
      match first.eraseFirst with
      | (none, first) => some (first, heap)
      | (some curMem, first) => drainLoop fuel first (heap.free (toPtr curMem))

/-- `recomputil_destroy_memory_slotmap` -/
def destroyMemorySlotmap (fuel mapkey : ℕ) : Option MemorySlotmaps :=
  match s.slotmaps.get mapkey with
  | none => none
  | some slot =>
      match drainLoop fuel slot.value.first s.heap with
      | none => none
      | some (first, heap) =>
          let slotmaps := s.slotmaps.update mapkey fun map => { map with first }
          some ⟨(slotmaps.erase mapkey).2, heap⟩

/-- `recomputil_memory_slotmap_contains` -/
def memorySlotmapContains (mapkey key : ℕ) : Option Bool :=
  match s.slotmaps.get mapkey with
  | none => none
  | some slot => some (slot.value.first.get key).isSome

/-- `recomputil_memory_slotmap_create`, where `recomp::alloc` answers with `mem`. -/
def memorySlotmapCreate (mapkey mem : ℕ) : Option (ℕ × MemorySlotmaps) :=
  match s.slotmaps.get mapkey with
  | none => none
  | some slot =>
      let (key, first) := slot.value.first.create 0
      let heap := s.heap.alloc slot.value.second.toNat mem
      let addr := addrOf mem
      let rdram := zeroLoop addr slot.value.second.toNat 0 heap.rdram
      match first.get key with
      | none => none
      | some value =>
          -- the address goes to where the value points to
          let rdram := rdram.writeW 0 (value.value.signExtend 64) (addr.setWidth 32)
          some (key, {
            slotmaps := s.slotmaps.update mapkey fun map => { map with first }
            heap := { heap with rdram } })

/-- The word of a result, written to memory. -/
def withWord (valOut word : BitVec 32) : MemorySlotmaps :=
  { s with heap := { s.heap with rdram := s.heap.rdram.writeW 0 (valOut.signExtend 64) word } }

/-- `recomputil_memory_slotmap_get` -/
def memorySlotmapGet (mapkey key : ℕ) (valOut : BitVec 32) : Option MemorySlotmaps :=
  match s.slotmaps.get mapkey with
  | none => none
  | some slot =>
      match slot.value.first.get key with
      | none => none
      | some value => some (s.withWord valOut value.value)

/-- `recomputil_memory_slotmap_erase`, where the storage of the value, if there is one, is at the
host address `storage`. -/
def memorySlotmapErase (mapkey key : ℕ) (storage : BitVec 64) : Option (Bool × MemorySlotmaps) :=
  match s.slotmaps.get mapkey with
  | none => none
  | some slot =>
      let heap :=
        if (slot.value.first.get key).isSome then s.heap.free (storage - kRdramBase).toNat
        else s.heap
      let (erased, first) := slot.value.first.erase key
      some (erased, { slotmaps := s.slotmaps.update mapkey fun map => { map with first }, heap })

/-- `recomputil_memory_slotmap_size` -/
def memorySlotmapSize (mapkey : ℕ) : Option (BitVec 32) :=
  match s.slotmaps.get mapkey with
  | none => none
  | some slot => some (BitVec.ofNat 32 slot.value.first.size)

/-! ### Runs -/

/-- A key that is in use, with the block that has been allocated for it. -/
structure Given where
  mapkey : ℕ
  key : ℕ
  mem : ℕ
  deriving DecidableEq, Repr

/-- The state, with the handles that have been answered with, the sizes that the maps have been
created with, and the keys that are in use. -/
structure Trace where
  state : MemorySlotmaps
  issued : List ℕ
  sizes : List (ℕ × BitVec 32)
  given : List Given

/-- No map has been created. -/
structure Init (s : Trace) : Prop where
  slotmaps : s.state.slotmaps.map = .empty
  blocks : s.state.heap.blocks = []
  freed : s.state.heap.freed = []
  issued : s.issued = []
  given : s.given = []

inductive Call
  | createMap (elementSize : BitVec 32)
  | destroyMap (fuel mapkey : ℕ)
  | contains (mapkey key : ℕ)
  | create (mapkey mem : ℕ)
  | get (mapkey key : ℕ) (valOut : BitVec 32)
  | erase (mapkey key : ℕ) (storage : BitVec 64)
  | size (mapkey : ℕ)
  deriving DecidableEq, Repr

/-- A call that returns. -/
def Step (s : Trace) : Call → Trace → Prop
  | .createMap elementSize, t => ∃ mapkey u,
      s.state.createMemorySlotmap elementSize = (mapkey, u) ∧
        t = ⟨u, mapkey :: s.issued, (mapkey, elementSize) :: s.sizes, s.given⟩
  | .destroyMap fuel mapkey, t => ∃ u,
      s.state.destroyMemorySlotmap fuel mapkey = some u ∧
        t = { s with state := u, given := s.given.filter fun e => e.mapkey ≠ mapkey }
  | .contains mapkey key, t => ∃ r, s.state.memorySlotmapContains mapkey key = some r ∧ t = s
  | .create mapkey mem, t => ∃ key u,
      s.state.memorySlotmapCreate mapkey mem = some (key, u) ∧
        t = { s with state := u, given := ⟨mapkey, key, mem⟩ :: s.given }
  | .get mapkey key valOut, t => ∃ u,
      s.state.memorySlotmapGet mapkey key valOut = some u ∧ t = { s with state := u }
  | .erase mapkey key storage, t => ∃ r u,
      s.state.memorySlotmapErase mapkey key storage = some (r, u) ∧
        t = { s with
          state := u
          given := if r then s.given.filter fun e => ¬ (e.mapkey = mapkey ∧ e.key = key)
            else s.given }
  | .size mapkey, t => ∃ r, s.state.memorySlotmapSize mapkey = some r ∧ t = s

/-- The handle that a call is given. -/
def Call.mapkey? : Call → Option ℕ
  | .createMap _ => none
  | .destroyMap _ mapkey | .contains mapkey _ | .create mapkey _ | .get mapkey _ _
  | .erase mapkey _ _ | .size mapkey => some mapkey

/-- A handle that has been taken from a `create`, and an allocator that answers with a fresh
block. -/
structure Proper (s : Trace) (a : Call) : Prop where
  handle : ∀ mapkey ∈ a.mapkey?, mapkey ∈ s.issued
  fresh : ∀ mapkey mem, a = .create mapkey mem → ∀ slot ∈ s.state.slotmaps.get mapkey,
    s.state.heap.Fresh slot.value.second.toNat mem

/-- A key is created. -/
def Call.Creates (a : Call) : Prop := ∃ mapkey mem, a = .create mapkey mem

/-- The states of the proper runs in which no key is created. -/
abbrev Reachable (s : Trace) : Prop :=
  Runs.Reach Step Init (fun s a => Proper s a ∧ ¬ a.Creates) s

/-! ### What the functions are for -/

/-- **What is allocated is stored**: the keys in use lead to their blocks, and these are the blocks
that are allocated. -/
structure Stores (s : Trace) : Prop where
  got : ∀ e ∈ s.given, ∀ valOut, s.state.memorySlotmapGet e.mapkey e.key valOut =
    some (s.state.withWord valOut ((addrOf e.mem).setWidth 32))
  allocated : s.state.heap.starts.Perm (s.given.map Given.mem)

/-- What a call has to do for that. -/
structure CallOk (s : Trace) (a : Call) (t : Trace) : Prop where
  /-- A new block has the size that the map has been created with; it is zero, and no other byte is
  changed. -/
  create : ∀ mapkey mem elementSize, a = .create mapkey mem → (mapkey, elementSize) ∈ s.sizes →
    t.state.heap.blocks = ⟨mem, elementSize.toNat⟩ :: s.state.heap.blocks ∧
      ∀ offset reg, t.state.heap.rdram.readB offset reg =
        if ∃ k < elementSize.toNat, reg + offset = addrOf mem + BitVec.ofNat 64 k then 0
        else s.state.heap.rdram.readB offset reg
  /-- The block of a key that is erased is freed. -/
  erase : ∀ mapkey key storage, a = .erase mapkey key storage →
    ∀ e ∈ s.given, e.mapkey = mapkey → e.key = key →
      t.state.heap.freed = e.mem :: s.state.heap.freed
  /-- The blocks of a map that is destroyed are freed, each of them once. -/
  destroy : ∀ fuel mapkey, a = .destroyMap fuel mapkey → ∃ frees,
    t.state.heap.freed = frees ++ s.state.heap.freed ∧
      frees.Perm ((s.given.filter fun e => e.mapkey = mapkey).map Given.mem)
  after : Stores t

/-! ### Runs in which no key is created -/

/-- **The invariant**: every map is empty, and nothing is allocated. -/
structure Inv (s : Trace) : Prop where
  handed : s.state.slotmaps.map.Handed s.issued
  empty : ∀ i slot, s.state.slotmaps.map.slotAt i = some slot → slot.value.first = ⟨.empty⟩
  given : s.given = []
  blocks : s.state.heap.blocks = []

/-- Nothing is found in an empty map. -/
theorem get_empty (key : ℕ) : (⟨.empty⟩ : LockedSlotmap (BitVec 32)).get key = none := by
  simp [LockedSlotmap.get, SlotMap.getImpl, SlotMap.validSlot, SlotMap.isActivePage,
    SlotMap.empty]

theorem erase_empty (key : ℕ) :
    (⟨.empty⟩ : LockedSlotmap (BitVec 32)).erase key = (false, ⟨.empty⟩) := by
  rw [SlotmapTrace.erase_eq, get_empty]
  rfl

theorem drainLoop_empty {fuel : ℕ} {heap heap' : Heap} {first : LockedSlotmap (BitVec 32)}
    (h : drainLoop fuel ⟨.empty⟩ heap = some (first, heap')) :
    first = ⟨.empty⟩ ∧ heap' = heap := by
  cases fuel with
  | zero => cases h
  | succ fuel =>
      obtain ⟨rfl, rfl⟩ := Prod.mk.inj (Option.some.inj h)
      exact ⟨rfl, rfl⟩

namespace Inv

variable {s : Trace} {mapkey : ℕ} {slot : Slot MemorySlotmap}

theorem first_eq (h : Inv s) (hk : mapkey ∈ s.issued)
    (hg : s.state.slotmaps.get mapkey = some slot) : slot.value.first = ⟨.empty⟩ :=
  h.empty _ slot (h.handed.alive hk hg).1

/-- Without blocks and keys, everything is stored. -/
theorem stores (h : Inv s) : Stores s := by
  refine ⟨fun e he => ?_, ?_⟩
  · rw [h.given] at he
    cases he
  · rw [h.given, Heap.starts, h.blocks]
    exact List.Perm.refl _

/-- The map of a handle is written to, and stays empty. -/
theorem update (h : Inv s) (hk : mapkey ∈ s.issued)
    (hg : s.state.slotmaps.get mapkey = some slot) {f : MemorySlotmap → MemorySlotmap}
    (hf : (f slot.value).first = ⟨.empty⟩) {t : Trace}
    (hmap : t.state.slotmaps = s.state.slotmaps.update mapkey f)
    (hissued : t.issued = s.issued) (hgiven : t.given = [])
    (hblocks : t.state.heap.blocks = []) : Inv t := by
  obtain ⟨hs, -, ht⟩ := h.handed.alive hk hg
  refine ⟨?_, ?_, hgiven, hblocks⟩
  · rw [hmap, hissued]
    exact h.handed.write f hs ht
  · intro i slot' hs'
    have hat : (s.state.slotmaps.update mapkey f).map.slotAt i =
        if i = Key.toIndex mapkey then some { slot with value := f slot.value }
        else s.state.slotmaps.map.slotAt i := SlotMap.slotAt_of_write rfl hs i
    rw [hmap, hat] at hs'
    split_ifs at hs' with hi
    · obtain rfl := Option.some.inj hs'
      exact hf
    · exact h.empty i slot' hs'

/-- A map that has just been created is empty. -/
theorem emplaced (h : Inv s) {i : ℕ} {slot' : Slot MemorySlotmap}
    (hs : (s.state.slotmaps.map.emplace ⟨⟨.empty⟩, 0⟩).2.slotAt i = some slot') :
    slot'.value.first = ⟨.empty⟩ := by
  obtain ⟨index, version, hem, -⟩ := h.handed.slots.emplace (⟨⟨.empty⟩, 0⟩ : MemorySlotmap)
  rw [hem.slotAt] at hs
  split_ifs at hs with hi
  · obtain rfl := Option.some.inj hs
    rfl
  · exact h.empty i slot' hs

/-- The maps that are left behind `erase` are empty. -/
theorem erased (h : Inv s) {i : ℕ} {slot' : Slot MemorySlotmap}
    (hs : (s.state.slotmaps.map.erase mapkey).slotAt i = some slot') :
    slot'.value.first = ⟨.empty⟩ := by
  obtain ⟨-, ⟨slot₀, her⟩ | ⟨he, -⟩⟩ := h.handed.slots.erase mapkey
  · rw [her.slotAt] at hs
    split_ifs at hs with hi
    · obtain rfl := Option.some.inj hs
      exact h.empty _ slot₀ her.found
    · exact h.empty i slot' hs
  · rw [he] at hs
    exact h.empty i slot' hs

/-- `recomputil_destroy_memory_slotmap` -/
theorem destroyMap (h : Inv s) (hk : mapkey ∈ s.issued) {fuel : ℕ} {u : MemorySlotmaps}
    (hu : s.state.destroyMemorySlotmap fuel mapkey = some u) :
    Inv { s with state := u, given := s.given.filter fun e => e.mapkey ≠ mapkey } ∧
      u.heap = s.state.heap := by
  unfold destroyMemorySlotmap at hu
  split at hu
  · cases hu
  · next slot hg =>
      split at hu
      · cases hu
      · next first heap hdrain =>
          obtain rfl := Option.some.inj hu
          rw [h.first_eq hk hg] at hdrain
          obtain ⟨hf, rfl⟩ := drainLoop_empty hdrain
          have hinv : Inv { s with
              state := ⟨s.state.slotmaps.update mapkey fun map => { map with first },
                s.state.heap⟩ } :=
            h.update hk hg hf rfl rfl h.given h.blocks
          refine ⟨⟨?_, fun i slot' hs' => ?_, by simp [h.given], h.blocks⟩, rfl⟩
          · dsimp only
            rw [LockedSlotmap.map_erase]
            exact hinv.handed.erase mapkey
          · dsimp only at hs'
            rw [LockedSlotmap.map_erase] at hs'
            exact hinv.erased hs'

/-- **The step lemma**: a proper call that creates no key keeps the invariant and the heap. -/
theorem step (h : Inv s) {a : Call} {t : Trace} (hp : Proper s a) (hc : ¬ a.Creates)
    (hst : Step s a t) : Inv t ∧ t.state.heap.freed = s.state.heap.freed := by
  cases a with
  | createMap elementSize =>
      obtain ⟨k, u, hu, rfl⟩ := hst
      obtain ⟨rfl, rfl⟩ := Prod.mk.inj hu
      exact ⟨⟨h.handed.emplace _, fun i slot => h.emplaced, h.given, h.blocks⟩, rfl⟩
  | destroyMap fuel k =>
      obtain ⟨u, hu, rfl⟩ := hst
      obtain ⟨hinv, hheap⟩ := h.destroyMap (hp.handle k rfl) hu
      exact ⟨hinv, by rw [hheap]⟩
  | create k mem => exact absurd ⟨k, mem, rfl⟩ hc
  | contains k key =>
      obtain ⟨-, -, rfl⟩ := hst
      exact ⟨h, rfl⟩
  | get k key valOut =>
      obtain ⟨u, hu, rfl⟩ := hst
      unfold memorySlotmapGet at hu
      split at hu
      · cases hu
      · next slot hg =>
          rw [h.first_eq (hp.handle k rfl) hg, get_empty] at hu
          cases hu
  | erase k key storage =>
      obtain ⟨r, u, hu, rfl⟩ := hst
      unfold memorySlotmapErase at hu
      split at hu
      · cases hu
      · next slot hg =>
          have hk := hp.handle k rfl
          rw [h.first_eq hk hg, get_empty, erase_empty] at hu
          obtain ⟨rfl, rfl⟩ := Prod.mk.inj (Option.some.inj hu)
          exact ⟨h.update hk hg rfl rfl rfl h.given h.blocks, rfl⟩
  | size k =>
      obtain ⟨-, -, rfl⟩ := hst
      exact ⟨h, rfl⟩

/-- Such a call does what it has to do. -/
theorem callOk (h : Inv s) {a : Call} {t : Trace} (hp : Proper s a) (hc : ¬ a.Creates)
    (hst : Step s a t) : CallOk s a t := by
  obtain ⟨hinv, hfreed⟩ := h.step hp hc hst
  refine ⟨?_, ?_, ?_, hinv.stores⟩
  · rintro k mem - rfl
    exact absurd ⟨k, mem, rfl⟩ hc
  · intro k key storage _ e he
    rw [h.given] at he
    cases he
  · intro fuel k _
    exact ⟨[], hfreed, by simp [h.given]⟩

end Inv

/-- **The run lemma.** -/
theorem Reachable.inv {s : Trace} (h : Reachable s) : Inv s := by
  refine Runs.Reach.invariant (I := Inv) ?_ (fun s a t hs ha hst => (hs.step ha.1 ha.2 hst).1) h
  intro s hs
  refine ⟨?_, ?_, hs.given, hs.blocks⟩
  · rw [hs.slotmaps, hs.issued]
    exact .empty
  · intro i slot hslot
    simp [hs.slotmaps] at hslot

/-! ### A key that is created -/

/-- The two words that are written to one place are equal. -/
theorem writeW_inj {rdram : Rdram} {offset reg : BitVec 64} {v w : BitVec 32}
    (h : rdram.writeW offset reg v = rdram.writeW offset reg w) :
    v.extractLsb' 24 8 = w.extractLsb' 24 8 := by
  have hbyte := congrFun h (memW offset reg + 3)
  have hsub : memW offset reg + 3 - memW offset reg = 3 := by
    rw [BitVec.add_comm, BitVec.add_sub_cancel]
  have hlt : (3 : BitVec 64) < 4 := by decide
  unfold Rdram.writeW at hbyte
  simp only [hsub, if_pos hlt] at hbyte
  exact hbyte

/-- The address of a block has its high byte. -/
theorem high_byte {mem : ℕ} (h : mem < 2 ^ 31) :
    ((addrOf mem).setWidth 32).extractLsb' 24 8 ≠ 0 := by
  intro hzero
  have hn := congrArg BitVec.toNat hzero
  rw [BitVec.extractLsb'_toNat, BitVec.toNat_setWidth, addrOf, BitVec.toNat_add, BitVec.toNat_ofNat,
    show kRdramBase.toNat = 0xFFFFFFFF80000000 from rfl, Nat.shiftRight_eq_div_pow] at hn
  simp at hn
  omega

theorem memorySlotmapGet_eq {s : MemorySlotmaps} {mapkey key : ℕ} {valOut : BitVec 32}
    {slot : Slot MemorySlotmap} {value : Slot (BitVec 32)}
    (hg : s.slotmaps.get mapkey = some slot) (hv : slot.value.first.get key = some value) :
    s.memorySlotmapGet mapkey key valOut = some (s.withWord valOut value.value) := by
  unfold memorySlotmapGet
  rw [hg]
  dsimp only
  rw [hv]

/-- The value of a new key is null. -/
theorem value_of_create {key : ℕ} {first : LockedSlotmap (BitVec 32)} {value : Slot (BitVec 32)}
    (hc : (⟨.empty⟩ : LockedSlotmap (BitVec 32)).create 0 = (key, first))
    (hv : first.get key = some value) : value.value = 0 := by
  have hhanded := SlotMap.Handed.empty.emplace (0 : BitVec 32)
  obtain ⟨index, -, hat⟩ := SlotMap.Handed.empty.elementAt_emplace (0 : BitVec 32)
  obtain ⟨hkey, hfirst⟩ := Prod.mk.inj hc
  rw [← hkey, ← hfirst] at hv
  have hvalue := hhanded.elementAt List.mem_cons_self hv
  rw [hat] at hvalue
  split_ifs at hvalue with hi
  · exact (Option.some.inj hvalue).symm
  · simp [SlotMap.elementAt] at hvalue

/-- **The value of a new key** is not the address of its block. -/
theorem not_stores_of_create {s t : Trace} {mapkey mem : ℕ} (h : Inv s)
    (hp : Proper s (.create mapkey mem)) (hst : Step s (.create mapkey mem) t) : ¬ Stores t := by
  intro hstores
  obtain ⟨key, u, hu, rfl⟩ := hst
  have hk := hp.handle mapkey rfl
  unfold memorySlotmapCreate at hu
  split at hu
  · cases hu
  · next slot hg =>
      have hmem : mem < 2 ^ 31 := (hp.fresh mapkey mem rfl slot hg).lt
      rw [h.first_eq hk hg] at hu
      generalize hc : (⟨.empty⟩ : LockedSlotmap (BitVec 32)).create 0 = r at hu
      obtain ⟨newKey, first⟩ := r
      dsimp only at hu
      split at hu
      · cases hu
      · next value hvalue =>
          obtain ⟨rfl, rfl⟩ := Prod.mk.inj (Option.some.inj hu)
          have hslot : (s.state.slotmaps.update mapkey fun map => { map with first }).get mapkey =
              some { slot with value := { slot.value with first } } :=
            h.handed.getImpl_write_self hk (fun map => { map with first }) hg
          have hgot := hstores.got ⟨mapkey, newKey, mem⟩ List.mem_cons_self 0
          rw [memorySlotmapGet_eq hslot hvalue, value_of_create hc hvalue] at hgot
          have hrdram := congrArg (fun s => s.heap.rdram) (Option.some.inj hgot)
          exact high_byte hmem (writeW_inj hrdram).symm

/-- **In the runs in which no key is created**, and only in these, what is allocated is stored. -/
theorem stores_of_reachable {s : Trace} (h : Reachable s) :
    Stores s ∧ ∀ a t, Proper s a → Step s a t → (CallOk s a t ↔ ¬ a.Creates) := by
  refine ⟨h.inv.stores, fun a t hp hst => ⟨?_, fun hc => h.inv.callOk hp hc hst⟩⟩
  rintro hok ⟨mapkey, mem, rfl⟩
  exact not_stores_of_create h.inv hp hst hok.after

/-- A program without maps. -/
def noMaps : Trace := ⟨⟨⟨.empty⟩, ⟨fun _ => 0, [], []⟩⟩, [], [], []⟩

/-- A map of blocks of 8 bytes. -/
def oneMap : Trace :=
  ⟨(noMaps.state.createMemorySlotmap 8).2, [0x100000], [(0x100000, 8)], []⟩

/-- A key of the map. -/
def oneKey : Trace :=
  { oneMap with
    state := ((oneMap.state.memorySlotmapCreate 0x100000 0x1000).getD (0, oneMap.state)).2
    given := [⟨0x100000, 0x100000, 0x1000⟩] }

theorem noMaps_init : Init noMaps := ⟨rfl, rfl, rfl, rfl, rfl⟩

theorem proper_createMap : Proper noMaps (.createMap 8) := ⟨fun _ => nofun, fun _ _ => nofun⟩

theorem step_createMap : Step noMaps (.createMap 8) oneMap := ⟨0x100000, _, rfl, rfl⟩

theorem reachable_oneMap : Reachable oneMap :=
  (Runs.Reach.init noMaps_init).step _ ⟨proper_createMap, fun ⟨_, _, he⟩ => nomatch he⟩
    step_createMap

theorem stores_of_reachable_oneMap :
    Stores oneMap ∧ ∀ a t, Proper oneMap a → Step oneMap a t → (CallOk oneMap a t ↔ ¬ a.Creates) :=
  stores_of_reachable reachable_oneMap

theorem key_without_block : ¬ ∀ s a t, Runs.Reach Step Init Proper s → Proper s a → Step s a t →
    CallOk s a t := by
  intro h
  have hkey : Proper oneMap (.create 0x100000 0x1000) := by
    refine ⟨fun mapkey hm => ?_, fun mapkey mem he slot hs => ?_⟩
    · obtain rfl := Option.some.inj hm
      exact List.mem_cons_self
    · cases he
      exact ⟨by decide, by obtain rfl := Option.some.inj hs; decide, fun _ => nofun,
        fun _ => nofun⟩
  have hst : Step oneMap (.create 0x100000 0x1000) oneKey := ⟨0x100000, _, rfl, rfl⟩
  have hrun := (Runs.Reach.init noMaps_init).step _ proper_createMap step_createMap
  exact not_stores_of_create reachable_oneMap.inv hkey hst (h _ _ _ hrun hkey hst).after

end MemorySlotmaps

end Data
