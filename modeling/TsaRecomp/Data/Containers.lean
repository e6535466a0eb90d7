/-
**The value hashmaps and the hashsets, shared by any number of callers.**

A value hashmap and a hashset are behind a handle.  Each function looks the handle up, which takes
the mutex of the table, and then calls one method of the object that the pointer leads to, which
takes the mutex of the object; in between it holds none.  Mods run on any number of threads.

A pointer stays good as long as nobody destroys the object: elements never move, however many are
created.  So when an object is only destroyed while no other caller is at work on it, each call
takes effect at once, as on a store of finite maps and sets in which nothing is shared.

Main definitions:

* `Data.LockedSet` — a set behind a mutex;
* `Data.ContainerApi`, `Data.valueHashmaps`, `Data.hashsets` — the two families of functions;
* `Data.Containers`, with the functions of `src/game/recomp_data_api.cpp`;
* `Data.ContainerApi.Shared`, `Data.ContainerApi.step` — a table, and the callers that share it;
* `Data.ContainerApi.Spec` — the store.

Main results:

* `Data.ContainerApi.alone` — a call by itself does what the function does;
* `Data.ContainerApi.follows` — the step lemma;
* `Data.ContainerApi.linearizable` — **the containers are linearizable**, and no pointer dangles.
-/

import TsaRecomp.Lib.Histories
import TsaRecomp.Data.U32Slotmap

set_option relaxedAutoImplicit false
set_option autoImplicit false

namespace Data

/-! ### `LockedSet` -/

/-- `LockedSet`.  Every method holds the mutex from its start to its end. -/
structure LockedSet (KeyType : Type) where
  set : Finset KeyType

namespace LockedSet

variable {KeyType : Type} [DecidableEq KeyType] (s : LockedSet KeyType)

/-- The set as it is constructed. -/
def empty : LockedSet KeyType := ⟨∅⟩

/-- `contains` -/
def contains (key : KeyType) : Bool := decide (key ∈ s.set)

/-- `insert` -/
def insert (key : KeyType) : Bool × LockedSet KeyType :=
  (!decide (key ∈ s.set), ⟨Insert.insert key s.set⟩)

/-- `erase` -/
def erase (key : KeyType) : Bool × LockedSet KeyType :=
  (decide (key ∈ s.set), ⟨s.set.erase key⟩)

/-- `size` -/
def size : ℕ := s.set.card

end LockedSet

/-! ### Families of functions -/

/-- A family of functions on objects behind handles: the objects, and what the functions do with the
one that they are given. -/
structure ContainerApi where
  Obj : Type
  /-- What is called, with its arguments. -/
  Op : Type
  Res : Type
  /-- The object as it is constructed. -/
  init : Obj
  method : Op → Obj → Res × Obj

/-- A function on the object behind a handle. -/
def ContainerApi.on (A : ContainerApi) (table : LockedSlotmap A.Obj) (handle : ℕ) (op : A.Op) :
    Except Stop (A.Res × LockedSlotmap A.Obj) :=
  match table.get handle with
  | none => .error .handleIsInvalid
  | some slot =>
      let (res, obj) := A.method op slot.value
      .ok (res, table.update handle fun _ => obj)

/-- The methods of `U32ValueMap` that are called. -/
inductive MapOp
  | contains (key : BitVec 32)
  | insert (key value : BitVec 32)
  | get (key : BitVec 32)
  | erase (key : BitVec 32)
  | size
  deriving DecidableEq, Repr

/-- What they answer. -/
inductive MapRes
  | bool (b : Bool)
  | got (value : Option (BitVec 32))
  | size (n : ℕ)
  deriving DecidableEq, Repr

/-- `u32_value_hashmaps` -/
def valueHashmaps : ContainerApi where
  Obj := LockedMap (BitVec 32) (BitVec 32)
  Op := MapOp
  Res := MapRes
  init := .empty
  method
    | .contains key, map => (.bool (map.contains key), map)
    | .insert key value, map => (.bool (map.insert key value).1, (map.insert key value).2)
    | .get key, map => (.got (map.get key), map)
    | .erase key, map => (.bool (map.erase key).1, (map.erase key).2)
    | .size, map => (.size map.size, map)

/-- The methods of `U32HashSet` that are called. -/
inductive SetOp
  | contains (key : BitVec 32)
  | insert (key : BitVec 32)
  | erase (key : BitVec 32)
  | size
  deriving DecidableEq, Repr

/-- What they answer. -/
inductive SetRes
  | bool (b : Bool)
  | size (n : ℕ)
  deriving DecidableEq, Repr

/-- `u32_hashsets` -/
def hashsets : ContainerApi where
  Obj := LockedSet (BitVec 32)
  Op := SetOp
  Res := SetRes
  init := .empty
  method
    | .contains key, set => (.bool (set.contains key), set)
    | .insert key, set => (.bool (set.insert key).1, (set.insert key).2)
    | .erase key, set => (.bool (set.erase key).1, (set.erase key).2)
    | .size, set => (.size set.size, set)

/-! ### The functions -/

/-- `u32_value_hashmaps`, `u32_hashsets`, and the memory of the game. -/
structure Containers where
  hashmaps : LockedSlotmap (LockedMap (BitVec 32) (BitVec 32))
  hashsets : LockedSlotmap (LockedSet (BitVec 32))
  rdram : Rdram

/-- `_return` of a result -/
def MapRes.register : MapRes → BitVec 32
  | .bool b => if b then 1 else 0
  | .got value => if value.isSome then 1 else 0
  | .size n => BitVec.ofNat 32 n

/-- `_return` of a result -/
def SetRes.register : SetRes → BitVec 32
  | .bool b => if b then 1 else 0
  | .size n => BitVec.ofNat 32 n

namespace Containers

variable (s : Containers)

/-- `recomputil_create_u32_value_hashmap` -/
def createU32ValueHashmap : ℕ × Containers :=
  let (mapkey, hashmaps) := s.hashmaps.create .empty
  (mapkey, { s with hashmaps })

/-- `recomputil_destroy_u32_value_hashmap` -/
def destroyU32ValueHashmap (mapkey : ℕ) : Except Stop Containers :=
  let (erased, hashmaps) := s.hashmaps.erase mapkey
  if erased then .ok { s with hashmaps } else .error .handleIsInvalid

/-- A function on a value hashmap. -/
def onHashmap (mapkey : ℕ) (op : MapOp) : Except Stop (MapRes × Containers) := do
  let (res, hashmaps) ← valueHashmaps.on s.hashmaps mapkey op
  return (res, { s with hashmaps })

/-- `recomputil_u32_value_hashmap_contains` -/
def u32ValueHashmapContains (mapkey : ℕ) (key : BitVec 32) :
    Except Stop (BitVec 32 × Containers) := do
  let (res, s) ← s.onHashmap mapkey (.contains key)
  return (res.register, s)

/-- `recomputil_u32_value_hashmap_insert` -/
def u32ValueHashmapInsert (mapkey : ℕ) (key value : BitVec 32) :
    Except Stop (BitVec 32 × Containers) := do
  let (res, s) ← s.onHashmap mapkey (.insert key value)
  return (res.register, s)

/-- `recomputil_u32_value_hashmap_get` -/
def u32ValueHashmapGet (mapkey : ℕ) (key valOut : BitVec 32) :
    Except Stop (BitVec 32 × Containers) := do
  let (res, s) ← s.onHashmap mapkey (.get key)
  match res with
  | .got (some ret) =>
      return (1, { s with rdram := s.rdram.writeW 0 (valOut.signExtend 64) ret })
  | _ => return (0, s)

/-- `recomputil_u32_value_hashmap_erase` -/
def u32ValueHashmapErase (mapkey : ℕ) (key : BitVec 32) :
    Except Stop (BitVec 32 × Containers) := do
  let (res, s) ← s.onHashmap mapkey (.erase key)
  return (res.register, s)

/-- `recomputil_u32_value_hashmap_size` -/
def u32ValueHashmapSize (mapkey : ℕ) : Except Stop (BitVec 32 × Containers) := do
  let (res, s) ← s.onHashmap mapkey .size
  return (res.register, s)

/-- `recomputil_create_u32_hashset` -/
def createU32Hashset : ℕ × Containers :=
  let (setkey, hashsets) := s.hashsets.create .empty
  (setkey, { s with hashsets })

/-- `recomputil_destroy_u32_hashset` -/
def destroyU32Hashset (setkey : ℕ) : Except Stop Containers :=
  let (erased, hashsets) := s.hashsets.erase setkey
  if erased then .ok { s with hashsets } else .error .handleIsInvalid

/-- A function on a hashset. -/
def onHashset (setkey : ℕ) (op : SetOp) : Except Stop (BitVec 32 × Containers) := do
  let (res, hashsets) ← Data.hashsets.on s.hashsets setkey op
  return (SetRes.register res, { s with hashsets })

/-- `recomputil_u32_hashset_contains` -/
def u32HashsetContains (setkey : ℕ) (key : BitVec 32) : Except Stop (BitVec 32 × Containers) :=
  s.onHashset setkey (.contains key)

/-- `recomputil_u32_hashset_insert` -/
def u32HashsetInsert (setkey : ℕ) (key : BitVec 32) : Except Stop (BitVec 32 × Containers) :=
  s.onHashset setkey (.insert key)

/-- `recomputil_u32_hashset_erase` -/
def u32HashsetErase (setkey : ℕ) (key : BitVec 32) : Except Stop (BitVec 32 × Containers) :=
  s.onHashset setkey (.erase key)

/-- `recomputil_u32_hashset_size` -/
def u32HashsetSize (setkey : ℕ) : Except Stop (BitVec 32 × Containers) :=
  s.onHashset setkey .size

end Containers

/-! ### Keys of a slot map -/

namespace SlotMap

variable {T : Type} {m : SlotMap T} {k : ℕ}

/-- The slot that a pointer leads to. -/
theorem slotAt_of_getImpl {slot : Slot T} (h : m.getImpl k = some slot) :
    m.slotAt (Key.toIndex k) = some slot := by
  have hv := (Option.filter_eq_some_iff.1 h).1
  unfold validSlot at hv
  split_ifs at hv
  exact hv

theorem hasKey_eq_isSome : m.hasKey k = (m.getImpl k).isSome := by
  unfold hasKey getImpl
  cases m.validSlot k with
  | none => rfl
  | some slot => by_cases hv : slot.version = Key.toVersion k <;> simp [Option.filter, hv]

namespace Issued

variable {issued : List ℕ}

/-- A handle that has been issued leads to nothing, or to the object of a slot. -/
theorem getImpl (h : Issued m issued) (hk : k ∈ issued) :
    m.getImpl k = none ∧ m.resolve k = none ∨
      ∃ slot, m.getImpl k = some slot ∧ m.slotAt (Key.toIndex k) = some slot ∧
        slot.tombstone = false ∧ slot.version = Key.toVersion k ∧
        m.resolve k = some slot.value := by
  cases hg : m.getImpl k with
  | none => exact Or.inl ⟨rfl, by rw [resolve, hg]; rfl⟩
  | some slot =>
      obtain ⟨-, slot', hs', -, ht⟩ := h.handle k hk
      have hs := slotAt_of_getImpl hg
      obtain rfl := Option.some.inj (hs.symm.trans hs')
      have hv : slot.version = Key.toVersion k := by
        simpa using (Option.filter_eq_some_iff.1 hg).2
      have htomb : slot.tombstone = false := by
        by_contra hc
        exact absurd hv (ht (Bool.not_eq_false _ ▸ hc)).ne'
      exact Or.inr ⟨slot, rfl, hs, htomb, hv, h.slots.resolve_eq_some.2 ⟨slot, hs, hv, htomb, rfl⟩⟩

/-- **A write to an object** changes what its handle leads to, and nothing else. -/
theorem write (h : Issued m issued) (hk : k ∈ issued) {slot : Slot T}
    (hs : m.slotAt (Key.toIndex k) = some slot) (ht : slot.tombstone = false)
    (hv : slot.version = Key.toVersion k) (e : T) :
    (∀ k' ∈ issued, (m.modifyValue k fun _ => e).resolve k' =
        if k' = k then some e else m.resolve k') ∧
      Issued (m.modifyValue k fun _ => e) issued := by
  have hat : ∀ i, (m.modifyValue k fun _ => e).slotAt i =
      if i = Key.toIndex k then some { slot with value := e } else m.slotAt i :=
    slotAt_of_write rfl hs
  have hinv : SlotInv (m.modifyValue k fun _ => e) := by
    refine h.slots.of_modifySlot rfl hs rfl (h.slots.version _ slot hs) (fun k' hk' => ?_)
      h.slots.nodup
    refine Or.inl ⟨hk', fun he => h.slots.notMem_freeIndices hs ht ?_⟩
    exact he ▸ List.mem_map_of_mem hk'
  refine ⟨?_, hinv, ?_, ?_⟩
  · intro k' hk'
    obtain ⟨hlt', slot', hs', -⟩ := h.handle k' hk'
    have hself := hat (Key.toIndex k')
    by_cases hi : Key.toIndex k' = Key.toIndex k
    · obtain rfl := Option.some.inj ((hi ▸ hs').symm.trans hs)
      rw [if_pos hi] at hself
      rw [resolve_of_slotAt hinv hself, resolve_of_slotAt h.slots hs']
      by_cases hkk : k' = k
      · rw [if_pos hkk, if_pos ⟨hkk ▸ hv, ht⟩]
      · have hne : slot'.version ≠ Key.toVersion k' := fun he => hkk (by
          rw [← Key.make_toVersion_toIndex hlt',
            ← Key.make_toVersion_toIndex (h.handle k hk).1, hi, ← he, hv])
        rw [if_neg hkk, if_neg fun hc => hne hc.1, if_neg fun hc => hne hc.1]
    · rw [if_neg hi, hs'] at hself
      rw [if_neg fun he => hi (by rw [he]), resolve_of_slotAt hinv hself,
        resolve_of_slotAt h.slots hs']
  · intro k' hk'
    obtain ⟨hlt', slot', hs', hle, hend⟩ := h.handle k' hk'
    refine ⟨hlt', ?_⟩
    rw [hat]
    by_cases hi : Key.toIndex k' = Key.toIndex k
    · obtain rfl := Option.some.inj ((hi ▸ hs').symm.trans hs)
      exact ⟨_, if_pos hi, hle, hend⟩
    · exact ⟨slot', by rw [if_neg hi, hs'], hle, hend⟩
  · intro i hi
    have hn : (m.modifyValue k fun _ => e).numSlots = m.numSlots := numSlots_of_write rfl
    exact h.first i (hn ▸ hi)

end Issued

end SlotMap

/-! ### Callers that share a table -/

namespace ContainerApi

open Histories (Event Trace Status Atomic AtomicAct AtomicTrace Sequential Follows)

/-- A call of one of the functions. -/
inductive Call (A : ContainerApi)
  | create
  | destroy (handle : ℕ)
  | on (handle : ℕ) (op : A.Op)

/-- What a function answers, or the message `handle is invalid`. -/
inductive Answer (A : ContainerApi)
  | handle (h : ℕ)
  | destroyed
  | invalid
  | result (res : A.Res)

/-- Where a caller is. -/
inductive Phase (A : ContainerApi)
  | idle
  | called (c : A.Call)
  /-- The handle has been looked up; the pointer is to the storage of a slot. -/
  | pointing (ptr handle : ℕ) (op : A.Op)
  | answered (a : A.Answer)

/-- A table that callers share, with the handles that it has answered with. -/
structure Shared (A : ContainerApi) (ι : Type) where
  table : LockedSlotmap A.Obj
  issued : List ℕ
  phase : ι → A.Phase

/-- A step of one of the callers. -/
inductive Act (A : ContainerApi) (ι : Type)
  | invoke (i : ι) (c : A.Call)
  /-- The mutex of the table is taken. -/
  | table (i : ι)
  /-- The mutex of the object is taken. -/
  | method (i : ι)
  | respond (i : ι) (a : A.Answer)

variable {A : ContainerApi} {ι : Type} [DecidableEq ι]

/-- What is seen of a step. -/
def Act.event : A.Act ι → Option (Event ι A.Call A.Answer)
  | .invoke i c => some (.invoke i c)
  | .table _ => none
  | .method _ => none
  | .respond i a => some (.respond i a)

/-- The caller goes on. -/
def Shared.goOn (s : A.Shared ι) (i : ι) (x : A.Phase) : A.Shared ι :=
  { s with phase := Function.update s.phase i x }

/-- The method of the table that a call starts with. -/
def Shared.takeTable (s : A.Shared ι) (i : ι) : A.Call → A.Shared ι
  | .create =>
      let (handle, table) := s.table.create A.init
      { s with table, issued := handle :: s.issued }.goOn i (.answered (.handle handle))
  | .destroy handle =>
      let (erased, table) := s.table.erase handle
      { s with table }.goOn i (.answered (if erased then .destroyed else .invalid))
  | .on handle op =>
      match s.table.get handle with
      | none => s.goOn i (.answered .invalid)
      | some _ => s.goOn i (.pointing (Key.toIndex handle) handle op)

/-- The method of the object in the storage of a slot. -/
def Shared.takeObject (s : A.Shared ι) (i : ι) (ptr : ℕ) (op : A.Op) (slot : Slot A.Obj) :
    A.Shared ι :=
  let (res, obj) := A.method op slot.value
  let table := { s.table with map := s.table.map.modifySlot ptr fun slot =>
    { slot with value := obj } }
  { s with table }.goOn i (.answered (.result res))

/-- A step. -/
def Step (s : A.Shared ι) : A.Act ι → A.Shared ι → Prop
  | .invoke i c, t => s.phase i = .idle ∧ t = s.goOn i (.called c)
  | .table i, t => ∃ c, s.phase i = .called c ∧ t = s.takeTable i c
  | .method i, t => ∃ ptr handle op slot, s.phase i = .pointing ptr handle op ∧
      s.table.map.slotAt ptr = some slot ∧ t = s.takeObject i ptr op slot
  | .respond i a, t => s.phase i = .answered a ∧ t = s.goOn i .idle

/-- The handle of a call. -/
def Call.handle? : A.Call → Option ℕ
  | .create => none
  | .destroy handle => some handle
  | .on handle _ => some handle

/-- **A proper step**: handles come from a `create`, an object is destroyed while no other caller is
at work on it, and there is a key for a new object. -/
def Proper (s : A.Shared ι) : A.Act ι → Prop
  | .invoke _ c => ∀ h ∈ c.handle?, h ∈ s.issued
  | .table i =>
      (s.phase i = .called .create → s.table.map.EmplaceOk) ∧
        ∀ h, s.phase i = .called (.destroy h) → ∀ j ptr op, s.phase j ≠ .pointing ptr h op
  | _ => True

/-- Nothing has been created, and nothing is called. -/
def start (A : ContainerApi) (ι : Type) : A.Shared ι where
  table := ⟨.empty⟩
  issued := []
  phase := fun _ => .idle

/-- **A call by itself** does what the function does. -/
theorem alone (s : A.Shared ι) (i : ι) (handle : ℕ) (op : A.Op) (hi : s.phase i = .idle) :
    ∃ (a : A.Answer) (t : A.Shared ι), Trace Step (fun _ _ => True) Act.event s
        [.invoke i (.on handle op), .respond i a] t ∧
      (match A.on s.table handle op with
        | .ok (res, table) => a = .result res ∧ t.table = table
        | .error _ => a = .invalid ∧ t.table = s.table) := by
  let s₁ := s.goOn i (.called (.on handle op))
  have hcall : Step s (.invoke i (.on handle op)) s₁ := ⟨hi, rfl⟩
  have htable : Step s₁ (.table i) (s₁.takeTable i (.on handle op)) :=
    ⟨.on handle op, by simp [s₁, Shared.goOn], rfl⟩
  have h₁ : Trace Step (fun _ _ => True) Act.event s [.invoke i (.on handle op)] s₁ :=
    .single _ trivial hcall
  have h₂ := h₁.tail _ trivial htable
  cases hg : s.table.get handle with
  | none =>
      have htake : s₁.takeTable i (.on handle op) = s₁.goOn i (.answered .invalid) := by
        simp [Shared.takeTable, s₁, Shared.goOn, hg]
      rw [htake] at h₂
      have hresp : Step (s₁.goOn i (.answered .invalid)) (.respond i .invalid)
          ((s₁.goOn i (.answered .invalid)).goOn i .idle) := ⟨by simp [Shared.goOn], rfl⟩
      refine ⟨.invalid, _, h₂.tail _ trivial hresp, ?_⟩
      simp [ContainerApi.on, hg, Shared.goOn, s₁]
  | some slot =>
      let s₂ := s₁.goOn i (.pointing (Key.toIndex handle) handle op)
      let s₃ := s₂.takeObject i (Key.toIndex handle) op slot
      have htake : s₁.takeTable i (.on handle op) = s₂ := by
        simp [Shared.takeTable, s₁, s₂, Shared.goOn, hg]
      rw [htake] at h₂
      have hobj : Step s₂ (.method i) s₃ := ⟨Key.toIndex handle, handle, op, slot,
        by simp [s₂, Shared.goOn], SlotMap.slotAt_of_getImpl hg, rfl⟩
      have hresp : Step s₃ (.respond i (.result (A.method op slot.value).1)) (s₃.goOn i .idle) :=
        ⟨by simp [s₃, Shared.goOn, Shared.takeObject], rfl⟩
      refine ⟨_, _, (h₂.tail _ trivial hobj).tail _ trivial hresp, ?_⟩
      simp [ContainerApi.on, hg, Shared.goOn, Shared.takeObject, LockedSlotmap.update,
        SlotMap.modifyValue, s₁, s₂, s₃]

/-! ### The store -/

/-- **What a call does to the store**, in which nothing is shared. -/
def Spec (t : Handles.Table ℕ A.Obj) (c : A.Call) (a : A.Answer) (t' : Handles.Table ℕ A.Obj) :
    Prop :=
  match c with
  | .create => ∃ h, a = .handle h ∧ Handles.Step t (.create h A.init) t'
  | .destroy h =>
      match t.live h with
      | none => a = .invalid ∧ t' = t
      | some _ => a = .destroyed ∧ Handles.Step t (.destroy h) t'
  | .on h op =>
      match t.live h with
      | none => a = .invalid ∧ t' = t
      | some obj => a = .result (A.method op obj).1 ∧
          t' = { t with live := Function.update t.live h (some (A.method op obj).2) }

/-- Where a call is, as it is seen from outside. -/
def Phase.status : A.Phase → Status A.Call A.Answer
  | .idle => .idle
  | .called c => .called c
  | .pointing _ handle op => .called (.on handle op)
  | .answered a => .answered a

/-- The objects that the handles lead to. -/
def Shared.store (s : A.Shared ι) : Handles.Table ℕ A.Obj where
  live h := if h ∈ s.issued then s.table.map.resolve h else none
  issued := s.issued

/-- The atomic object in the same state. -/
def Shared.atomic (s : A.Shared ι) : Atomic ι A.Call A.Answer (Handles.Table ℕ A.Obj) where
  store := s.store
  status i := (s.phase i).status

/-- **The invariant**: every pointer leads to the object of its handle. -/
structure Inv (s : A.Shared ι) : Prop where
  issued : s.table.map.Issued s.issued
  called : ∀ i c, s.phase i = .called c → ∀ h ∈ c.handle?, h ∈ s.issued
  pointing : ∀ i ptr h op, s.phase i = .pointing ptr h op →
    ptr = Key.toIndex h ∧ h ∈ s.issued ∧ s.table.map.resolve h ≠ none

omit [DecidableEq ι] in
theorem inv_start : Inv (start A ι) where
  issued := .empty
  called i c h := by cases h
  pointing i ptr h op hp := by cases hp

/-! ### Steps -/

section Steps

variable {s : A.Shared ι} {i : ι}

/-- What is seen of the callers when one of them goes on. -/
theorem status_goOn (s : A.Shared ι) (i : ι) (x : A.Phase) :
    (fun j => ((s.goOn i x).phase j).status) =
      Function.update (fun j => (s.phase j).status) i x.status := by
  funext j
  by_cases hj : j = i
  · subst hj
    simp [Shared.goOn]
  · simp [Shared.goOn, Function.update_of_ne hj]

/-- The caller that goes on, and another one. -/
theorem phase_goOn {x y : A.Phase} {j : ι} (h : (s.goOn i x).phase j = y) :
    j = i ∧ x = y ∨ s.phase j = y := by
  by_cases hj : j = i
  · subst hj
    exact Or.inl ⟨rfl, by simpa [Shared.goOn] using h⟩
  · exact Or.inr (by simpa [Shared.goOn, Function.update_of_ne hj] using h)

/-- **One caller goes on**, to a phase that the table is ready for. -/
theorem Inv.goOn {x : A.Phase} (h : Inv s) (hc : ∀ c, x = .called c → ∀ h ∈ c.handle?, h ∈ s.issued)
    (hp : ∀ ptr h op, x = .pointing ptr h op →
      ptr = Key.toIndex h ∧ h ∈ s.issued ∧ s.table.map.resolve h ≠ none) : Inv (s.goOn i x) where
  issued := h.issued
  called j c hj := by
    rcases phase_goOn hj with ⟨-, hx⟩ | hj
    · exact hc c hx
    · exact h.called j c hj
  pointing j ptr k op hj := by
    rcases phase_goOn hj with ⟨-, hx⟩ | hj
    · exact hp ptr k op hx
    · exact h.pointing j ptr k op hj

/-- The call has been answered, or is over. -/
theorem Inv.goOn_answered (h : Inv s) {x : A.Phase} (hx : x = .idle ∨ ∃ a, x = .answered a) :
    Inv (s.goOn i x) := by
  refine h.goOn ?_ ?_
  · rintro c rfl
    rcases hx with hx | ⟨a, hx⟩ <;> cases hx
  · rintro ptr k op rfl
    rcases hx with hx | ⟨a, hx⟩ <;> cases hx

omit [DecidableEq ι] in
/-- **A step of the table** that the callers are ready for. -/
theorem Inv.table (h : Inv s) {table : LockedSlotmap A.Obj} {issued : List ℕ}
    (hi : table.map.Issued issued) (hsub : ∀ k ∈ s.issued, k ∈ issued)
    (hp : ∀ j ptr k op, s.phase j = .pointing ptr k op → s.table.map.resolve k ≠ none →
      table.map.resolve k ≠ none) : Inv { s with table, issued } where
  issued := hi
  called j c hj k hk := hsub k (h.called j c hj k hk)
  pointing j ptr k op hj := by
    obtain ⟨hptr, hk, hr⟩ := h.pointing j ptr k op hj
    exact ⟨hptr, hsub k hk, hp j ptr k op hj hr⟩

/-- What a call does at once. -/
theorem atomicStep_effect {c : A.Call} {a : A.Answer} {table : LockedSlotmap A.Obj}
    {issued : List ℕ} (hs : (s.phase i).status = .called c)
    (hspec : Spec s.store c a (Shared.store ({ s with table, issued } : A.Shared ι))) :
    AtomicTrace Spec s.atomic []
      (Shared.atomic (({ s with table, issued } : A.Shared ι).goOn i (.answered a))) := by
  refine Trace.single (AtomicAct.effect i) trivial ⟨c, a, _, hs, hspec, ?_⟩
  unfold Shared.atomic
  rw [status_goOn]
  rfl

/-- `create` -/
theorem follows_create (h : Inv s) (hi : s.phase i = .called .create)
    (hok : s.table.map.EmplaceOk) :
    AtomicTrace Spec s.atomic [] (s.takeTable i .create).atomic ∧ Inv (s.takeTable i .create) := by
  obtain ⟨hnew, hself, hother, hissued⟩ := h.issued.emplace hok A.init
  have htake : s.takeTable i .create =
      { s with
        table := { s.table with map := (s.table.map.emplace A.init).2 }
        issued := (s.table.map.emplace A.init).1 :: s.issued }.goOn i
          (.answered (.handle (s.table.map.emplace A.init).1)) := rfl
  rw [htake]
  generalize s.table.map.emplace A.init = r at *
  refine ⟨atomicStep_effect (c := .create) (by rw [hi]; rfl) ⟨_, rfl, hnew, rfl, ?_⟩, ?_⟩
  · intro k
    simp only [Shared.store, List.mem_cons]
    by_cases hk : k = r.1
    · rw [if_pos (Or.inl hk), if_pos hk, hk]
      exact hself
    · simp only [hk, false_or, if_false]
      split_ifs with hmem
      · exact hother k hmem
      · rfl
  · refine Inv.goOn_answered (h.table hissued (fun k hk => List.mem_cons_of_mem _ hk) ?_)
      (Or.inr ⟨_, rfl⟩)
    intro j ptr k op hj hr
    rw [hother k (h.pointing j ptr k op hj).2.1]
    exact hr

/-- `erase` of a handle -/
theorem follows_destroy {k : ℕ} (h : Inv s) (hi : s.phase i = .called (.destroy k))
    (hfree : ∀ j ptr op, s.phase j ≠ .pointing ptr k op) :
    AtomicTrace Spec s.atomic [] (s.takeTable i (.destroy k)).atomic ∧
      Inv (s.takeTable i (.destroy k)) := by
  have hk := h.called i _ hi k rfl
  have hlive : s.store.live k = s.table.map.resolve k := if_pos hk
  have hstatus : (s.phase i).status = .called (.destroy k) := by rw [hi]; rfl
  rcases h.issued.getImpl hk with ⟨hnone, hr⟩ | ⟨slot, hsome, -, -, -, hr⟩
  · have herase : s.table.erase k = (false, s.table) := by
      simp [LockedSlotmap.erase, SlotMap.hasKey_eq_isSome, hnone]
    have htake : s.takeTable i (.destroy k) = s.goOn i (.answered .invalid) := by
      simp [Shared.takeTable, herase]
    rw [htake]
    refine ⟨atomicStep_effect hstatus ?_, h.goOn_answered (Or.inr ⟨_, rfl⟩)⟩
    simp only [Spec, hlive, hr]
    exact ⟨trivial, trivial⟩
  · obtain ⟨hother, hissued⟩ := h.issued.erase (Or.inl (h.issued.handle k hk).1)
    have herase : s.table.erase k = (true, { s.table with map := s.table.map.erase k }) := by
      simp [LockedSlotmap.erase, SlotMap.hasKey_eq_isSome, hsome]
    have htake : s.takeTable i (.destroy k) =
        { s with table := { s.table with map := s.table.map.erase k } }.goOn i
          (.answered .destroyed) := by
      simp [Shared.takeTable, herase]
    rw [htake]
    refine ⟨atomicStep_effect hstatus ?_, ?_⟩
    · simp only [Spec, hlive, hr]
      refine ⟨trivial, rfl, ?_⟩
      intro k'
      simp only [Shared.store]
      by_cases hk' : k' ∈ s.issued
      · rw [if_pos hk', if_pos hk']
        exact hother k' hk'
      · simp [hk']
    · refine Inv.goOn_answered (h.table hissued (fun _ => id) ?_) (Or.inr ⟨_, rfl⟩)
      intro j ptr k' op hj hr'
      have hne : k' ≠ k := by
        rintro rfl
        exact hfree j ptr op hj
      rw [hother k' (h.pointing j ptr k' op hj).2.1, if_neg hne]
      exact hr'

/-- `get` of a handle: when it answers with a pointer, the call has no effect yet. -/
theorem follows_lookup {k : ℕ} {op : A.Op} (h : Inv s) (hi : s.phase i = .called (.on k op)) :
    AtomicTrace Spec s.atomic [] (s.takeTable i (.on k op)).atomic ∧
      Inv (s.takeTable i (.on k op)) := by
  have hk := h.called i _ hi k rfl
  have hstatus : (s.phase i).status = .called (.on k op) := by rw [hi]; rfl
  rcases h.issued.getImpl hk with ⟨hnone, hr⟩ | ⟨slot, hsome, -, -, -, hr⟩
  · have htake : s.takeTable i (.on k op) = s.goOn i (.answered .invalid) := by
      simp [Shared.takeTable, LockedSlotmap.get, hnone]
    rw [htake]
    refine ⟨atomicStep_effect hstatus ?_, h.goOn_answered (Or.inr ⟨_, rfl⟩)⟩
    simp only [Spec, show s.store.live k = _ from if_pos hk, hr]
    exact ⟨trivial, trivial⟩
  · have htake : s.takeTable i (.on k op) = s.goOn i (.pointing (Key.toIndex k) k op) := by
      simp [Shared.takeTable, LockedSlotmap.get, hsome]
    rw [htake]
    refine ⟨?_, h.goOn (fun c hc => by cases hc) ?_⟩
    · have heq : (s.goOn i (.pointing (Key.toIndex k) k op)).atomic = s.atomic := by
        unfold Shared.atomic
        rw [status_goOn, Function.update_eq_self_iff.2 hstatus.symm]
        rfl
      rw [heq]
      exact .refl
    · rintro ptr k' op' ⟨⟩
      exact ⟨rfl, hk, by rw [hr]; simp⟩

/-- **The method of the object**: here the call takes effect. -/
theorem follows_method {ptr k : ℕ} {op : A.Op} {slot : Slot A.Obj} (h : Inv s)
    (hi : s.phase i = .pointing ptr k op) (hs : s.table.map.slotAt ptr = some slot) :
    AtomicTrace Spec s.atomic [] (s.takeObject i ptr op slot).atomic ∧
      Inv (s.takeObject i ptr op slot) := by
  obtain ⟨rfl, hk, hne⟩ := h.pointing i ptr k op hi
  have hstatus : (s.phase i).status = .called (.on k op) := by rw [hi]; rfl
  rcases h.issued.getImpl hk with ⟨-, hr⟩ | ⟨slot', -, hs', ht, hv, hr⟩
  · exact absurd hr hne
  · obtain rfl := Option.some.inj (hs'.symm.trans hs)
    obtain ⟨hother, hissued⟩ := h.issued.write hk hs ht hv (A.method op slot'.value).2
    refine ⟨atomicStep_effect hstatus ?_, ?_⟩
    · simp only [Spec, show s.store.live k = _ from if_pos hk, hr]
      refine ⟨trivial, ?_⟩
      unfold Shared.store
      congr 1
      funext k'
      by_cases hk' : k' ∈ s.issued
      · simp only [if_pos hk', Function.update_apply]
        exact hother k' hk'
      · have hkk : k' ≠ k := by
          rintro rfl
          exact hk' hk
        simp [hk', hkk]
    · refine Inv.goOn_answered (h.table hissued (fun _ => id) ?_) (Or.inr ⟨_, rfl⟩)
      intro j ptr k' op' hj hr'
      change (s.table.map.modifyValue k fun _ => (A.method op slot'.value).2).resolve k' ≠ none
      rw [hother k' (h.pointing j ptr k' op' hj).2.1]
      split_ifs
      · simp
      · exact hr'

/-- **The step lemma**: the atomic object goes along. -/
theorem follows : Follows (Step (A := A) (ι := ι)) Proper Act.event Spec
    fun s u => Inv s ∧ u = s.atomic := by
  rintro s a t u ⟨h, rfl⟩ hc hst
  cases a with
  | invoke i c =>
      obtain ⟨hi, rfl⟩ := hst
      refine ⟨_, Trace.single (AtomicAct.invoke i c) trivial ⟨?_, rfl⟩, h.goOn ?_ ?_, ?_⟩
      · change (s.phase i).status = _
        rw [hi]
        rfl
      · rintro _ ⟨⟩
        exact hc
      · rintro ptr k op ⟨⟩
      · unfold Shared.atomic
        rw [status_goOn]
        rfl
  | table i =>
      obtain ⟨c, hi, rfl⟩ := hst
      cases c with
      | create =>
          obtain ⟨ht, hinv⟩ := follows_create h hi (hc.1 hi)
          exact ⟨_, ht, hinv, rfl⟩
      | destroy k =>
          obtain ⟨ht, hinv⟩ := follows_destroy h hi (hc.2 k hi)
          exact ⟨_, ht, hinv, rfl⟩
      | on k op =>
          obtain ⟨ht, hinv⟩ := follows_lookup h hi
          exact ⟨_, ht, hinv, rfl⟩
  | method i =>
      obtain ⟨ptr, k, op, slot, hi, hs, rfl⟩ := hst
      obtain ⟨ht, hinv⟩ := follows_method h hi hs
      exact ⟨_, ht, hinv, rfl⟩
  | respond i a =>
      obtain ⟨hi, rfl⟩ := hst
      refine ⟨_, Trace.single (AtomicAct.respond i a) trivial ⟨?_, rfl⟩,
        h.goOn_answered (Or.inl rfl), ?_⟩
      · change (s.phase i).status = _
        rw [hi]
        rfl
      · unfold Shared.atomic
        rw [status_goOn]
        rfl

end Steps

/-! ### The result -/

/-- **The containers are linearizable**: what any number of callers see of each other is what they
see of a store in which every call takes effect at once, one after the other; and a pointer that one
of them holds leads to the object of its handle, whatever the others do. -/
theorem linearizable {es : List (Event ι A.Call A.Answer)} {t : A.Shared ι}
    (h : Trace Step Proper Act.event (start A ι) es t) :
    (∃ u, AtomicTrace Spec (start A ι).atomic es u ∧ u.store = t.store) ∧
      (∃ cs, Sequential Spec (start A ι).store cs t.store ∧
        ∀ i a, .respond i a ∈ es → ∃ c, (c, a) ∈ cs) ∧
      ∀ i ptr handle op, t.phase i = .pointing ptr handle op →
        ∃ slot, t.table.map.slotAt ptr = some slot ∧ slot.tombstone = false ∧
          t.store.live handle = some slot.value := by
  obtain ⟨u, hu, hinv, rfl⟩ := follows.trace h ⟨inv_start, rfl⟩
  obtain ⟨cs, hcs, -, hresp⟩ := Sequential.of_trace hu fun _ => rfl
  refine ⟨⟨_, hu, rfl⟩, ⟨cs, hcs, hresp⟩, ?_⟩
  intro i ptr k op hi
  obtain ⟨rfl, hk, hne⟩ := hinv.pointing i ptr k op hi
  rcases hinv.issued.getImpl hk with ⟨-, hr⟩ | ⟨slot, -, hs, ht, -, hr⟩
  · exact absurd hr hne
  · exact ⟨slot, hs, ht, (if_pos hk).trans hr⟩

omit [DecidableEq ι] in
/-- The test of a step of the table, by the call that takes it. -/
theorem proper_table {s : A.Shared ι} {i : ι} {c : A.Call} (hi : s.phase i = .called c)
    (hc : c = .create → s.table.map.EmplaceOk)
    (hd : ∀ h, c = .destroy h → ∀ j ptr op, s.phase j ≠ .pointing ptr h op) :
    Proper s (.table i) := by
  refine ⟨fun hcreate => hc ?_, fun h hdestroy => hd h ?_⟩
  · exact Phase.called.inj (hi.symm.trans hcreate)
  · exact Phase.called.inj (hi.symm.trans hdestroy)

/-- Two callers insert under one key of one map: the second one finds the key there. -/
theorem linearizable_twoInserts : ∃ u : Atomic Bool valueHashmaps.Call valueHashmaps.Answer
    (Handles.Table ℕ valueHashmaps.Obj), AtomicTrace Spec (start valueHashmaps Bool).atomic
      [.invoke true .create, .respond true (.handle 0x100000),
        .invoke true (.on 0x100000 (MapOp.insert 5 7)),
        .invoke false (.on 0x100000 (MapOp.insert 5 9)),
        .respond false (.result (MapRes.bool true)), .respond true (.result (MapRes.bool false))]
      u := by
  -- the map is created
  have h₀ : Trace Step Proper Act.event (start valueHashmaps Bool) [] (start valueHashmaps Bool) :=
    .refl
  have h₁ := h₀.tail (.invoke true .create) (by rintro h ⟨⟩)
    (show Step (start valueHashmaps Bool) (.invoke true .create) _ from ⟨rfl, rfl⟩)
  have h₂ := h₁.tail (.table true)
    (proper_table rfl (fun _ => by unfold SlotMap.EmplaceOk; decide) (by rintro h ⟨⟩))
    (show Step _ (.table true) _ from ⟨.create, rfl, rfl⟩)
  have h₃ := h₂.tail (.respond true (.handle 0x100000)) (show Proper _ (.respond _ _) from trivial)
    (show Step _ (.respond true _) _ from ⟨rfl, rfl⟩)
  -- both callers look it up
  have h₄ := h₃.tail (.invoke true (.on 0x100000 (MapOp.insert 5 7)))
    (show Proper (A := valueHashmaps) _ (.invoke true (.on 0x100000 _)) from by rintro h ⟨⟩; decide)
    (show Step (A := valueHashmaps) _ (.invoke true (.on 0x100000 (MapOp.insert 5 7))) _ from
      ⟨rfl, rfl⟩)
  have h₅ := h₄.tail (.invoke false (.on 0x100000 (MapOp.insert 5 9)))
    (show Proper (A := valueHashmaps) _ (.invoke false (.on 0x100000 _)) from by rintro h ⟨⟩; decide)
    (show Step (A := valueHashmaps) _ (.invoke false (.on 0x100000 (MapOp.insert 5 9))) _ from
      ⟨rfl, rfl⟩)
  have h₆ := h₅.tail (.table false) (proper_table rfl (by rintro ⟨⟩) (by rintro h ⟨⟩))
    (show Step _ (.table false) _ from ⟨.on 0x100000 (MapOp.insert 5 9), rfl, rfl⟩)
  have h₇ := h₆.tail (.table true) (proper_table rfl (by rintro ⟨⟩) (by rintro h ⟨⟩))
    (show Step _ (.table true) _ from ⟨.on 0x100000 (MapOp.insert 5 7), rfl, rfl⟩)
  -- the second one is served first
  have h₈ := h₇.tail (.method false) (show Proper _ (.method _) from trivial)
    (show Step _ (.method false) _ from ⟨0, 0x100000, _, _, rfl, rfl, rfl⟩)
  have h₉ := h₈.tail (.respond false (.result (MapRes.bool true)))
    (show Proper _ (.respond _ _) from trivial)
    (show Step _ (.respond false _) _ from ⟨rfl, rfl⟩)
  have h₁₀ := h₉.tail (.method true) (show Proper _ (.method _) from trivial)
    (show Step _ (.method true) _ from ⟨0, 0x100000, _, _, rfl, rfl, rfl⟩)
  have h₁₁ := h₁₀.tail (.respond true (.result (MapRes.bool false)))
    (show Proper _ (.respond _ _) from trivial)
    (show Step _ (.respond true _) _ from ⟨rfl, rfl⟩)
  obtain ⟨⟨u, hu, -⟩, -⟩ := linearizable h₁₁
  exact ⟨u, hu⟩

end ContainerApi

end Data
