/-
**Two callers of a memory hashmap.**

`LockedMap` holds its mutex for the length of a method, and the allocator for the length of a call;
`recomputil_u32_memory_hashmap_create` and `recomputil_u32_memory_hashmap_erase` are sequences of
such steps, with no lock around them.  Between the lookup of one caller and what it does about the
answer, the other caller can take any number of steps.

Here two calls on a live map take their steps in any order.  Callers with different keys do not
notice each other: a `create` only needs an `erase` before it if it is given the block that the
`erase` has freed.  For one key it depends on what there is to do.

Main definitions:

* `Data.HashmapCallers.Shared` — the map, the blocks, and what has been freed;
* `Data.HashmapCallers.act`, `Data.HashmapCallers.Step` — the steps of the two functions;
* `Data.HashmapCallers.Atomic` — **two calls are atomic**: as one after the other, in either order;
* `Data.HashmapCallers.Compatible`, `Data.HashmapCallers.Served` — the pairs of calls that are, and
  the blocks that they need.

Main results:

* `Data.HashmapCallers.alone_create_iff`, `Data.HashmapCallers.alone_erase_iff` — a call by itself;
* `Data.HashmapCallers.swaps_of_ne` — **callers with different keys swap their steps**;
* `Data.HashmapCallers.CreateErase.step` — the invariant of a `create` and an `erase` of one key;
* `Data.HashmapCallers.CreateCreate.step` — the invariant of two `create`s with too few blocks;
* `Data.HashmapCallers.atomic_iff` — two calls are atomic if they are compatible, and only then.
-/

import TsaRecomp.Lib.Movers
import TsaRecomp.Data.MemoryHashmap

set_option relaxedAutoImplicit false
set_option autoImplicit false

namespace Data

namespace HashmapCallers

open Relation (ReflTransGen)

/-! ### The state that the callers share -/

/-- The map, the blocks that are allocated, and the pointers that have been freed. -/
@[ext]
structure Shared where
  first : LockedMap (BitVec 32) (BitVec 32)
  blocks : Finset Block
  freed : Multiset ℕ

/-- The state behind a live map. -/
def Shared.of (first : LockedMap (BitVec 32) (BitVec 32)) (heap : Heap) : Shared where
  first := first
  blocks := heap.blocks.toFinset
  freed := heap.freed

namespace Shared

variable (s : Shared)

/-- What the map has under a key. -/
def get (key : BitVec 32) : Option (BitVec 32) := s.first.get key

/-- A pointer to an allocated block. -/
def Allocated (p : ℕ) : Prop := ∃ b ∈ s.blocks, b.start = p

/-- A pointer that the map has under one of its keys. -/
def Held (p : ℕ) : Prop := ∃ key addr, s.get key = some addr ∧ toPtr addr = p

/-- **A fresh block**, as `Data.Heap.Fresh`. -/
structure Fresh (size mem : ℕ) : Prop where
  lt : mem < 2 ^ 31
  bound : mem + size ≤ 2 ^ 31
  start_ne : ∀ b ∈ s.blocks, b.start ≠ mem
  disjoint : ∀ b ∈ s.blocks, b.start + b.size ≤ mem ∨ mem + size ≤ b.start

/-- **The map owns its blocks**: each is allocated, and under one key. -/
structure Owns : Prop where
  allocated : ∀ key addr, s.get key = some addr → s.Allocated (toPtr addr)
  unique : ∀ key key' addr addr', s.get key = some addr → s.get key' = some addr' →
    toPtr addr = toPtr addr' → key = key'

end Shared

/-- What a step does to the shared state. -/
inductive Effect
  | nothing
  | insert (ret : BitVec 32)
  | remove
  | alloc (mem : ℕ)
  | free (mem : ℕ)

/-- The effect of a step of a caller with a key, where the blocks have the given size. -/
def Shared.apply (s : Shared) (size : ℕ) (key : BitVec 32) : Effect → Shared
  | .nothing => s
  | .insert ret => { s with first := (s.first.insert key ret).2 }
  | .remove => { s with first := (s.first.erase key).2 }
  | .alloc mem => { s with blocks := insert ⟨mem, size⟩ s.blocks }
  | .free mem =>
      { s with
        blocks := s.blocks.filter fun b => b.start ≠ mem
        freed := mem ::ₘ s.freed }

/-! ### The callers -/

/-- The function that is called. -/
inductive Kind
  | create
  | erase
  deriving DecidableEq, Repr

/-- What a caller does next, with the local variables that it needs for it. -/
inductive Point
  /-- `u32_memory_hashmaps.get(mapkey, &map)` -/
  | createLookup
  /-- `map->first.get(key, dummy)` -/
  | createGet
  /-- `recomp::alloc(rdram, map->second)` -/
  | createAlloc
  /-- `map->first.insert(key, ret)` -/
  | createInsert (ret : BitVec 32)
  /-- `u32_memory_hashmaps.get(mapkey, &map)` -/
  | eraseLookup
  /-- `map->first.get(key, addr)` -/
  | eraseGet
  /-- `recomp::free(rdram, mem)` -/
  | eraseFree (addr : BitVec 32)
  /-- `map->first.erase(key)` -/
  | eraseRemove
  | returned (ret : Bool)
  deriving DecidableEq, Repr

/-- The start of a function. -/
def Kind.start : Kind → Point
  | .create => .createLookup
  | .erase => .eraseLookup

/-- **A step**: what it does and where it leads, for what the map has under the key, and the answer
of the allocator. -/
def act (point : Point) (value : Option (BitVec 32)) (mem : ℕ) : Effect × Point :=
  match point with
  | .createLookup => (.nothing, .createGet)
  | .createGet => (.nothing, if value.isSome then .returned false else .createAlloc)
  | .createAlloc => (.alloc mem, .createInsert ((addrOf mem).setWidth 32))
  | .createInsert ret => (.insert ret, .returned true)
  | .eraseLookup => (.nothing, .eraseGet)
  | .eraseGet => (.nothing, value.elim .eraseRemove .eraseFree)
  | .eraseFree addr => (.free (toPtr addr), .eraseRemove)
  | .eraseRemove => (.remove, .returned value.isSome)
  | .returned ret => (.nothing, .returned ret)

/-- A step of a caller with a key.  The allocator answers with a fresh block. -/
def Step (size : ℕ) (key : BitVec 32) (x y : Point × Shared) : Prop :=
  ∃ mem, (x.1 = .createAlloc → x.2.Fresh size mem) ∧
    y = ((act x.1 (x.2.get key) mem).2, x.2.apply size key (act x.1 (x.2.get key) mem).1)

/-- A call: the function and the key. -/
structure Op where
  kind : Kind
  key : BitVec 32
  deriving DecidableEq, Repr

/-- A call by itself, from its start to its return. -/
def Alone (size : ℕ) (op : Op) (s : Shared) (r : Bool) (t : Shared) : Prop :=
  ReflTransGen (Step size op.key) (op.kind.start, s) (.returned r, t)

/-- Two calls that take their steps in any order, up to their returns. -/
def Together (size : ℕ) (op op' : Op) (s : Shared) (r r' : Bool) (t : Shared) : Prop :=
  ReflTransGen (Movers.Step (Step size op.key) (Step size op'.key))
    (op.kind.start, op'.kind.start, s) (.returned r, .returned r', t)

/-- Two calls one after the other. -/
def Sequential (size : ℕ) (op op' : Op) (s : Shared) (r r' : Bool) (t : Shared) : Prop :=
  ∃ u, Alone size op s r u ∧ Alone size op' u r' t

/-! ### What is expected -/

/-- **Two calls are atomic.** -/
structure Atomic (size : ℕ) (op op' : Op) (s : Shared) : Prop where
  /-- The answers and the state are those of the two calls one after the other. -/
  sequential : ∀ r r' t, Together size op op' s r r' t →
    Sequential size op op' s r r' t ∨ Sequential size op' op s r' r t
  /-- Of two `create`s of one key, one at most answers 1. -/
  once : ∀ key, op = ⟨.create, key⟩ → op' = ⟨.create, key⟩ → ∀ r r' t,
    Together size op op' s r r' t → ¬ (r = true ∧ r' = true)
  /-- No block is leaked: those that are in the map are allocated and freed with their entries. -/
  leak : ∀ r r' t, Together size op op' s r r' t →
    ∀ p, t.Allocated p ∧ ¬ t.Held p ↔ s.Allocated p ∧ ¬ s.Held p
  /-- No block is freed twice. -/
  freed : ∀ r r' t, Together size op op' s r r' t →
    ∃ frees : Multiset ℕ, t.freed = frees + s.freed ∧ frees.Nodup

/-- **The calls that are**: with different keys, or with one key and nothing to do for the second of
them: two `create`s of a key that the map has, two `erase`s of one that it does not have, and a
`create` and an `erase` of one that it has. -/
def Compatible (s : Shared) (op op' : Op) : Prop :=
  op.key = op'.key →
    if op.kind = .erase ∧ op'.kind = .erase then s.get op.key = none else s.get op.key ≠ none

instance (s : Shared) (op op' : Op) : Decidable (Compatible s op op') :=
  inferInstanceAs (Decidable (_ → _))

/-- Two blocks of one size have nothing in common. -/
def Separate (size mem mem' : ℕ) : Prop :=
  mem ≠ mem' ∧ (mem + size ≤ mem' ∨ mem' + size ≤ mem)

/-- The allocator has room for two more blocks. -/
def Room (size : ℕ) (s : Shared) : Prop :=
  ∃ mem mem', s.Fresh size mem ∧ s.Fresh size mem' ∧ Separate size mem mem'

/-- **The allocator has the blocks** that the calls ask for: one for each `create`. -/
def Served (size : ℕ) (s : Shared) (op op' : Op) : Prop :=
  if op.kind = .create ∧ op'.kind = .create then Room size s
  else op.kind = .create ∨ op'.kind = .create → ∃ mem, s.Fresh size mem

/-! ### Steps -/

/-- A step, from its components. -/
theorem step_iff {size : ℕ} {key : BitVec 32} {p p' : Point} {s s' : Shared} :
    Step size key (p, s) (p', s') ↔ ∃ mem, (p = .createAlloc → s.Fresh size mem) ∧
      p' = (act p (s.get key) mem).2 ∧ s' = s.apply size key (act p (s.get key) mem).1 := by
  unfold Step
  simp only [Prod.mk.injEq]

/-- A step that is not an allocation. -/
theorem step_of_act {size : ℕ} {key : BitVec 32} {p p' : Point} {s s' : Shared}
    (hp : p ≠ .createAlloc) (hp' : p' = (act p (s.get key) 0).2)
    (hs : s' = s.apply size key (act p (s.get key) 0).1) : Step size key (p, s) (p', s') :=
  step_iff.2 ⟨0, fun h => absurd h hp, hp', hs⟩

theorem LockedMap.ext_get {first first' : LockedMap (BitVec 32) (BitVec 32)}
    (h : ∀ k, first.get k = first'.get k) : first = first' := by
  obtain ⟨map⟩ := first
  obtain ⟨map'⟩ := first'
  exact congrArg LockedMap.mk (Finmap.ext_lookup h)

namespace Shared

variable {s s' : Shared} {size mem mem' : ℕ} {key key' : BitVec 32}

@[simp] theorem apply_nothing : s.apply size key .nothing = s := rfl

@[simp] theorem get_apply_alloc : (s.apply size key (.alloc mem)).get key' = s.get key' := rfl

@[simp] theorem get_apply_free : (s.apply size key (.free mem)).get key' = s.get key' := rfl

@[simp] theorem get_apply_insert (ret : BitVec 32) : (s.apply size key (.insert ret)).get key' =
    if key' = key then some ret else s.get key' := LockedMap.get_insert key ret key'

@[simp] theorem get_apply_remove : (s.apply size key .remove).get key' =
    if key' = key then none else s.get key' := LockedMap.get_erase key key'

/-- The step of another caller leaves the entry of a key alone. -/
theorem get_apply_of_ne (h : key ≠ key') (e : Effect) :
    (s.apply size key' e).get key = s.get key := by
  cases e with
  | nothing => rfl
  | insert ret => rw [get_apply_insert, if_neg h]
  | remove => rw [get_apply_remove, if_neg h]
  | alloc mem => rfl
  | free mem => rfl

/-- An `erase` without an entry changes nothing. -/
theorem apply_remove_of_none (h : s.get key = none) : s.apply size key .remove = s := by
  have hfirst : (s.first.erase key).2 = s.first := by
    refine LockedMap.ext_get fun k => ?_
    rw [LockedMap.get_erase]
    split_ifs with hk
    · rw [hk]
      exact h.symm
    · rfl
  unfold apply
  rw [hfirst]

/-- **Steps of callers with different keys** are taken in either order, but for the allocation of
the block that has just been freed. -/
theorem apply_comm (hne : key ≠ key') {e e' : Effect}
    (h : ∀ p, e = .alloc p → e' ≠ .free p) (h' : ∀ p, e' = .alloc p → e ≠ .free p) :
    (s.apply size key e).apply size key' e' = (s.apply size key' e').apply size key e := by
  have hfirst : ((s.apply size key e).apply size key' e').first =
      ((s.apply size key' e').apply size key e).first := by
    refine LockedMap.ext_get fun k => ?_
    change ((s.apply size key e).apply size key' e').get k =
      ((s.apply size key' e').apply size key e).get k
    by_cases hk : k = key
    · subst hk
      rw [get_apply_of_ne hne]
      cases e <;> simp [get_apply_of_ne hne]
    · rw [get_apply_of_ne (s := s.apply size key' e') hk]
      cases e' <;> simp [get_apply_of_ne hk]
  have hblocks : ((s.apply size key e).apply size key' e').blocks =
      ((s.apply size key' e').apply size key e).blocks := by
    cases e <;> cases e' <;> try rfl
    · next mem mem' => exact Finset.insert_comm _ _ _
    · next mem mem' =>
        have hmem : mem ≠ mem' := fun hm => h mem rfl (hm ▸ rfl)
        simp [apply, Finset.filter_insert, hmem]
    · next mem mem' =>
        have hmem : mem' ≠ mem := fun hm => h' mem' rfl (hm ▸ rfl)
        simp [apply, Finset.filter_insert, hmem]
    · exact Finset.filter_comm _ _ _
  have hfreed : ((s.apply size key e).apply size key' e').freed =
      ((s.apply size key' e').apply size key e).freed := by
    cases e <;> cases e' <;> try rfl
    · exact Multiset.cons_swap _ _ _
  exact Shared.ext hfirst hblocks hfreed

/-! Fresh blocks. -/

theorem Fresh.of_subset (h : s.Fresh size mem) (hb : s'.blocks ⊆ s.blocks) : s'.Fresh size mem :=
  ⟨h.lt, h.bound, fun b hm => h.start_ne b (hb hm), fun b hm => h.disjoint b (hb hm)⟩

/-- Behind another allocation. -/
theorem fresh_alloc : (s.apply size key (.alloc mem)).Fresh size mem' ↔
    s.Fresh size mem' ∧ Separate size mem mem' := by
  constructor
  · intro h
    exact ⟨h.of_subset (Finset.subset_insert _ _),
      h.start_ne _ (Finset.mem_insert_self _ _), h.disjoint _ (Finset.mem_insert_self _ _)⟩
  · rintro ⟨h, hne, hdisjoint⟩
    refine ⟨h.lt, h.bound, ?_, ?_⟩
    · intro b hb
      rcases Finset.mem_insert.1 hb with rfl | hb
      · exact hne
      · exact h.start_ne b hb
    · intro b hb
      rcases Finset.mem_insert.1 hb with rfl | hb
      · exact hdisjoint
      · exact h.disjoint b hb

theorem Fresh.not_allocated (h : s.Fresh size mem) : ¬ s.Allocated mem :=
  fun ⟨b, hb, hp⟩ => h.start_ne b hb hp

/-! Allocated blocks. -/

theorem Allocated.mono {p : ℕ} (h : s.Allocated p) (hb : s.blocks ⊆ s'.blocks) : s'.Allocated p :=
  let ⟨b, hm, hp⟩ := h
  ⟨b, hb hm, hp⟩

theorem allocated_alloc {p : ℕ} :
    (s.apply size key (.alloc mem)).Allocated p ↔ p = mem ∨ s.Allocated p := by
  simp [Allocated, apply, eq_comm]

theorem allocated_free {p : ℕ} :
    (s.apply size key (.free mem)).Allocated p ↔ s.Allocated p ∧ p ≠ mem := by
  constructor
  · rintro ⟨b, hb, rfl⟩
    obtain ⟨hb, hne⟩ := Finset.mem_filter.1 hb
    exact ⟨⟨b, hb, rfl⟩, hne⟩
  · rintro ⟨⟨b, hb, rfl⟩, hne⟩
    exact ⟨b, Finset.mem_filter.2 ⟨hb, hne⟩, rfl⟩

end Shared

/-! ### A call by itself -/

/-- The state behind a `create` that has been given a block. -/
def Shared.created (s : Shared) (size : ℕ) (key : BitVec 32) (mem : ℕ) : Shared :=
  (s.apply size key (.alloc mem)).apply size key (.insert ((addrOf mem).setWidth 32))

/-- The state behind an `erase`. -/
def Shared.erased (s : Shared) (size : ℕ) (key : BitVec 32) : Shared :=
  match s.get key with
  | some addr => (s.apply size key (.free (toPtr addr))).apply size key .remove
  | none => s

theorem Shared.erased_of_none {s : Shared} {size : ℕ} {key : BitVec 32} (h : s.get key = none) :
    s.erased size key = s := by
  rw [erased, h]

theorem Shared.erased_of_some {s : Shared} {size : ℕ} {key addr : BitVec 32}
    (h : s.get key = some addr) : s.erased size key =
      (s.apply size key (.free (toPtr addr))).apply size key .remove := by
  rw [erased, h]

section Alone

variable {size mem : ℕ} {key addr : BitVec 32} {s t : Shared} {r : Bool}

/-! The two halves of a call: up to its check, and behind it. -/

theorem create_check (h : s.get key = none) :
    ReflTransGen (Step size key) (.createLookup, s) (.createAlloc, s) := by
  have hlookup : Step size key (.createLookup, s) (.createGet, s) := step_of_act (by simp) rfl rfl
  have hget : Step size key (.createGet, s) (.createAlloc, s) :=
    step_of_act (by simp) (by simp [act, h]) rfl
  exact .head hlookup (.single hget)

theorem create_rest (hf : t.Fresh size mem) :
    ReflTransGen (Step size key) (.createAlloc, t) (.returned true, t.created size key mem) := by
  have halloc : Step size key (.createAlloc, t)
      (.createInsert ((addrOf mem).setWidth 32), t.apply size key (.alloc mem)) :=
    step_iff.2 ⟨mem, fun _ => hf, rfl, rfl⟩
  exact .head halloc (.single (step_of_act (by simp) rfl rfl))

theorem erase_check : ReflTransGen (Step size key) (.eraseLookup, s)
    ((s.get key).elim .eraseRemove .eraseFree, s) := by
  have hlookup : Step size key (.eraseLookup, s) (.eraseGet, s) := step_of_act (by simp) rfl rfl
  have hget : Step size key (.eraseGet, s) ((s.get key).elim .eraseRemove .eraseFree, s) :=
    step_of_act (by simp) rfl rfl
  exact .head hlookup (.single hget)

theorem erase_remove : Step size key (.eraseRemove, t)
    (.returned (t.get key).isSome, t.apply size key .remove) := step_of_act (by simp) rfl rfl

theorem erase_rest : ReflTransGen (Step size key) (.eraseFree addr, t)
    (.returned (t.get key).isSome,
      (t.apply size key (.free (toPtr addr))).apply size key .remove) := by
  have hfree : Step size key (.eraseFree addr, t)
      (.eraseRemove, t.apply size key (.free (toPtr addr))) := step_of_act (by simp) rfl rfl
  exact .head hfree (.single erase_remove)

/-- How far a `create` has come, from a state. -/
def CreateRun (size : ℕ) (key : BitVec 32) (s : Shared) : Point × Shared → Prop
  | (.createLookup, t) | (.createGet, t) => t = s
  | (.createAlloc, t) => t = s ∧ s.get key = none
  | (.createInsert ret, t) => s.get key = none ∧ ∃ mem, s.Fresh size mem ∧
      ret = (addrOf mem).setWidth 32 ∧ t = s.apply size key (.alloc mem)
  | (.returned false, t) => s.get key ≠ none ∧ t = s
  | (.returned true, t) => s.get key = none ∧ ∃ mem, s.Fresh size mem ∧ t = s.created size key mem
  | _ => False

theorem CreateRun.step {x y : Point × Shared} (h : CreateRun size key s x)
    (hst : Step size key x y) : CreateRun size key s y := by
  obtain ⟨p, u⟩ := x
  obtain ⟨mem, hfresh, rfl⟩ := hst
  cases p with
  | createLookup => exact h
  | createGet =>
      obtain rfl : u = s := h
      cases hg : u.get key with
      | none => simp [act, CreateRun, hg]
      | some addr => simp [act, CreateRun, hg]
  | createAlloc =>
      obtain ⟨rfl, hnone⟩ := h
      exact ⟨hnone, mem, hfresh rfl, rfl, rfl⟩
  | createInsert ret =>
      obtain ⟨hnone, mem, hf, rfl, rfl⟩ := h
      exact ⟨hnone, mem, hf, rfl⟩
  | returned r =>
      cases r with
      | false => exact h
      | true => exact h
  | eraseLookup => exact h.elim
  | eraseGet => exact h.elim
  | eraseFree addr => exact h.elim
  | eraseRemove => exact h.elim

/-- **A `create` by itself.** -/
theorem alone_create_iff : Alone size ⟨.create, key⟩ s r t ↔
    CreateRun size key s (.returned r, t) := by
  constructor
  · intro h
    exact Movers.invariant_run (I := CreateRun size key s) (fun _ _ => CreateRun.step) h rfl
  · intro h
    cases r with
    | false =>
        obtain ⟨hsome, rfl⟩ := h
        have hlookup : Step size key (.createLookup, t) (.createGet, t) :=
          step_of_act (by simp) rfl rfl
        have hget : Step size key (.createGet, t) (.returned false, t) :=
          step_of_act (by simp) (by simp [act, Option.isSome_iff_ne_none.2 hsome]) rfl
        exact .head hlookup (.single hget)
    | true =>
        obtain ⟨hnone, mem, hf, rfl⟩ := h
        exact (create_check hnone).trans (create_rest hf)

/-- How far an `erase` has come, from a state. -/
def EraseRun (size : ℕ) (key : BitVec 32) (s : Shared) : Point × Shared → Prop
  | (.eraseLookup, t) | (.eraseGet, t) => t = s
  | (.eraseFree addr, t) => t = s ∧ s.get key = some addr
  | (.eraseRemove, t) =>
      match s.get key with
      | some addr => t = s.apply size key (.free (toPtr addr))
      | none => t = s
  | (.returned r, t) => r = (s.get key).isSome ∧ t = s.erased size key
  | _ => False

theorem EraseRun.step {x y : Point × Shared} (h : EraseRun size key s x)
    (hst : Step size key x y) : EraseRun size key s y := by
  obtain ⟨p, u⟩ := x
  obtain ⟨mem, hfresh, rfl⟩ := hst
  cases p with
  | eraseLookup => exact h
  | eraseGet =>
      obtain rfl : u = s := h
      cases hg : u.get key with
      | none => simp [act, EraseRun, hg]
      | some addr => simp [act, EraseRun, hg]
  | eraseFree addr =>
      obtain ⟨rfl, hsome⟩ := h
      simp [act, EraseRun, hsome]
  | eraseRemove =>
      cases hg : s.get key with
      | none =>
          simp only [EraseRun, hg] at h
          subst h
          simp [act, EraseRun, Shared.erased, hg, Shared.apply_remove_of_none hg]
      | some addr =>
          simp only [EraseRun, hg] at h
          subst h
          simp [act, EraseRun, Shared.erased, hg]
  | returned r => exact h
  | createLookup => exact h.elim
  | createGet => exact h.elim
  | createAlloc => exact h.elim
  | createInsert ret => exact h.elim

/-- **An `erase` by itself.** -/
theorem alone_erase_iff : Alone size ⟨.erase, key⟩ s r t ↔
    r = (s.get key).isSome ∧ t = s.erased size key := by
  constructor
  · intro h
    exact Movers.invariant_run (I := EraseRun size key s) (fun _ _ => EraseRun.step) h rfl
  · rintro ⟨rfl, rfl⟩
    have hcheck := @erase_check size key s
    cases hg : s.get key with
    | none =>
        have hremove := @erase_remove size key s
        rw [hg, Shared.apply_remove_of_none hg] at hremove
        rw [hg] at hcheck
        rw [Shared.erased_of_none hg]
        exact hcheck.tail hremove
    | some addr =>
        have hrest := @erase_rest size key addr s
        rw [hg] at hcheck hrest
        rw [Shared.erased_of_some hg]
        exact hcheck.trans hrest

end Alone

/-! ### Callers with different keys -/

/-- The point belongs to a function. -/
def Kind.Has : Kind → Point → Prop
  | .create, .createLookup | .create, .createGet | .create, .createAlloc
  | .create, .createInsert _ | .create, .returned _ => True
  | .erase, .eraseLookup | .erase, .eraseGet | .erase, .eraseFree _ | .erase, .eraseRemove
  | .erase, .returned _ => True
  | _, _ => False

section Kinds

variable {kind : Kind} {size mem : ℕ} {key : BitVec 32} {p : Point} {value : Option (BitVec 32)}

theorem Kind.has_start (kind : Kind) : kind.Has kind.start := by
  cases kind <;> trivial

theorem Kind.Has.act (h : kind.Has p) : kind.Has (act p value mem).2 := by
  cases kind <;> cases p <;> cases value <;> trivial

/-- Only an `erase` frees. -/
theorem Kind.Has.eq_erase (h : kind.Has p) {q : ℕ}
    (he : (HashmapCallers.act p value mem).1 = .free q) :
    kind = .erase ∧ ∃ addr, p = .eraseFree addr ∧ q = toPtr addr := by
  cases p <;> simp [HashmapCallers.act] at he
  · next addr => cases kind with
    | create => exact h.elim
    | erase => exact ⟨rfl, addr, rfl, he.symm⟩

/-- Only a `create` allocates. -/
theorem Kind.Has.eq_create (h : kind.Has p) {q : ℕ}
    (he : (HashmapCallers.act p value mem).1 = .alloc q) :
    kind = .create ∧ p = .createAlloc ∧ q = mem := by
  cases p <;> simp [HashmapCallers.act] at he
  · cases kind with
    | create => exact ⟨rfl, rfl, he.symm⟩
    | erase => exact h.elim

end Kinds

/-- The block that an `erase` is going to free. -/
def Pending (key : BitVec 32) (s : Shared) : Point → Option (BitVec 32)
  | .eraseLookup | .eraseGet => s.get key
  | .eraseFree addr => some addr
  | _ => none

/-- The points of two calls, where the block of an `erase` stays allocated while a `create` runs. -/
structure Apart (kind kind' : Kind) (key : BitVec 32) (x : Point × Point × Shared) : Prop where
  left : kind.Has x.1
  right : kind'.Has x.2.1
  pending : kind' = .create → ∀ addr, Pending key x.2.2 x.1 = some addr →
    x.2.2.Allocated (toPtr addr)

section Different

variable {size : ℕ} {kind kind' : Kind} {key key' : BitVec 32}

/-- What is pending behind a step was pending before it, and the step has changed nothing. -/
theorem pending_act {s : Shared} {p : Point} {mem : ℕ} {addr : BitVec 32}
    (h : Pending key (s.apply size key (act p (s.get key) mem).1) (act p (s.get key) mem).2 =
      some addr) :
    (act p (s.get key) mem).1 = .nothing ∧ Pending key s p = some addr := by
  cases p with
  | eraseLookup => exact ⟨rfl, h⟩
  | eraseGet =>
      refine ⟨rfl, ?_⟩
      dsimp only [act] at h
      cases hg : s.get key with
      | none => simp [hg, Pending] at h
      | some addr' =>
          simp only [hg, Option.elim_some, Pending] at h
          exact hg.trans h
  | createGet =>
      dsimp only [act] at h
      split_ifs at h <;> cases h
  | createLookup => cases h
  | createAlloc => cases h
  | createInsert ret => cases h
  | eraseFree addr => cases h
  | eraseRemove => cases h
  | returned r => cases h

/-- The step of another caller leaves alone what is pending. -/
theorem pending_apply_of_ne {s : Shared} (hne : key ≠ key') (e : Effect) (p : Point) :
    Pending key (s.apply size key' e) p = Pending key s p := by
  cases p with
  | eraseLookup => exact Shared.get_apply_of_ne hne e
  | eraseGet => exact Shared.get_apply_of_ne hne e
  | createLookup => rfl
  | createGet => rfl
  | createAlloc => rfl
  | createInsert ret => rfl
  | eraseFree addr => rfl
  | eraseRemove => rfl
  | returned r => rfl

theorem Apart.step (hne : key ≠ key') {x y : Point × Point × Shared}
    (h : Apart kind kind' key x) (hst : Movers.Step (Step size key) (Step size key') x y) :
    Apart kind kind' key y := by
  cases hst with
  | @left a a' s s' b ha =>
      obtain ⟨mem, -, rfl, rfl⟩ := step_iff.1 ha
      refine ⟨h.left.act, h.right, fun hk addr hp => ?_⟩
      obtain ⟨hnothing, hp⟩ := pending_act hp
      rw [hnothing]
      exact h.pending hk addr hp
  | @right b b' s s' a hb =>
      obtain ⟨mem, -, rfl, rfl⟩ := step_iff.1 hb
      refine ⟨h.left, h.right.act, fun hk addr hp => ?_⟩
      rw [pending_apply_of_ne hne] at hp
      have halloc := h.pending hk addr hp
      -- a `create` does not free
      cases he : (act b (s.get key') mem).1 with
      | nothing => exact halloc
      | insert ret => exact halloc
      | remove => exact halloc
      | alloc mem' => exact halloc.mono (Finset.subset_insert _ _)
      | free mem' =>
          have hcontra := (h.right.eq_erase he).1
          rw [hk] at hcontra
          cases hcontra

/-- **Callers with different keys swap their steps**, but for a `create` and an `erase` behind
it. -/
theorem swaps_of_ne (hne : key ≠ key') (hkind : ¬ (kind = .create ∧ kind' = .erase)) :
    Movers.Swaps (Step size key) (Step size key') (Apart kind kind' key) := by
  intro a b s b' s₁ a' s₂ h hb ha
  obtain ⟨mem', hfresh', rfl, rfl⟩ := step_iff.1 hb
  obtain ⟨mem, hfresh, rfl, rfl⟩ := step_iff.1 ha
  rw [Shared.get_apply_of_ne hne] at *
  set e := (act a (s.get key) mem).1 with he
  set e' := (act b (s.get key') mem').1 with he'
  -- the first caller is given the same block
  have hfirst : a = .createAlloc → s.Fresh size mem := by
    intro hcreate
    refine (hfresh hcreate).of_subset ?_
    cases hcase : e' with
    | free p =>
        subst hcreate
        have halloc : (act .createAlloc (s.get key) mem).1 = .alloc mem := rfl
        exact absurd ⟨(h.left.eq_create halloc).1, (h.right.eq_erase hcase).1⟩ hkind
    | nothing => exact subset_rfl
    | insert ret => exact subset_rfl
    | remove => exact subset_rfl
    | alloc p => exact Finset.subset_insert _ _
  -- and the second one
  have hsecond : b = .createAlloc → (s.apply size key e).Fresh size mem' := by
    intro hcreate
    have hf := hfresh' hcreate
    subst hcreate
    cases hcase : e with
    | alloc p =>
        obtain ⟨-, hcreate, rfl⟩ := h.left.eq_create hcase
        have hsep := (Shared.fresh_alloc.1 (hfresh hcreate)).2
        exact Shared.fresh_alloc.2 ⟨hf, hsep.1.symm, hsep.2.symm⟩
    | nothing => exact hf
    | insert ret => exact hf.of_subset subset_rfl
    | remove => exact hf.of_subset subset_rfl
    | free p => exact hf.of_subset (Finset.filter_subset _ _)
  refine ⟨s.apply size key e, step_iff.2 ⟨mem, hfirst, rfl, rfl⟩,
    step_iff.2 ⟨mem', hsecond, ?_, ?_⟩⟩
  · rw [Shared.get_apply_of_ne hne.symm]
  · rw [Shared.get_apply_of_ne hne.symm]
    refine (Shared.apply_comm hne.symm ?_ ?_)
    · intro p hp hfree
      obtain ⟨hk', hcreate, rfl⟩ := h.right.eq_create hp
      obtain ⟨-, addr, rfl, rfl⟩ := h.left.eq_erase hfree
      exact (hfresh' hcreate).not_allocated (h.pending hk' addr rfl)
    · intro p hp hfree
      exact hkind ⟨(h.left.eq_create hp).1, (h.right.eq_erase hfree).1⟩

end Different

/-! ### Callers with the same key -/

/-- A call with nothing left to do but to return. -/
def Idle (key : BitVec 32) : Point × Shared → Prop
  | (.createLookup, s) | (.createGet, s) => s.get key ≠ none
  | (.eraseLookup, s) | (.eraseGet, s) | (.eraseRemove, s) => s.get key = none
  | (.returned _, _) => True
  | _ => False

section Same

variable {size : ℕ} {key key' : BitVec 32}

theorem Idle.step {p p' : Point} {s s' : Shared} (h : Idle key (p, s))
    (hst : Step size key (p, s) (p', s')) : s' = s ∧ Idle key (p', s) := by
  obtain ⟨mem, -, rfl, rfl⟩ := step_iff.1 hst
  cases p with
  | createLookup => exact ⟨rfl, h⟩
  | createGet =>
      have hsome : (s.get key).isSome := Option.isSome_iff_ne_none.2 h
      simp [act, hsome, Idle]
  | eraseLookup => exact ⟨rfl, h⟩
  | eraseGet =>
      have hnone : s.get key = none := h
      simp [act, hnone, Idle]
  | eraseRemove => exact ⟨Shared.apply_remove_of_none h, trivial⟩
  | returned r => exact ⟨rfl, trivial⟩
  | createAlloc => exact h.elim
  | createInsert ret => exact h.elim
  | eraseFree addr => exact h.elim

/-- Steps that change nothing can be taken in either order. -/
theorem swaps_of_idle : Movers.Swaps (Step size key) (Step size key')
    fun x => Idle key (x.1, x.2.2) ∧ Idle key' (x.2.1, x.2.2) := by
  rintro a b s b' s₁ a' s₂ ⟨hia, hib⟩ hb ha
  obtain ⟨rfl, -⟩ := hib.step hb
  obtain ⟨rfl, -⟩ := hia.step ha
  exact ⟨s₂, ha, hb⟩

theorem idle_step {x y : Point × Point × Shared}
    (h : Idle key (x.1, x.2.2) ∧ Idle key' (x.2.1, x.2.2))
    (hst : Movers.Step (Step size key) (Step size key') x y) :
    Idle key (y.1, y.2.2) ∧ Idle key' (y.2.1, y.2.2) := by
  cases hst with
  | left b ha =>
      obtain ⟨rfl, hi⟩ := h.1.step ha
      exact ⟨hi, h.2⟩
  | right a hb =>
      obtain ⟨rfl, hi⟩ := h.2.step hb
      exact ⟨h.1, hi⟩

/-- **A `create` and an `erase` of a key that the map has**, from a state: either the `create` has
not seen the end of the entry, or it runs behind the `erase`. -/
inductive CreateErase (size : ℕ) (key : BitVec 32) (s : Shared) : Point × Point × Shared → Prop
  | before {pc pe : Point} {t : Shared} : pc = .createLookup ∨ pc = .createGet →
      (∀ r, pe ≠ .returned r) → EraseRun size key s (pe, t) → CreateErase size key s (pc, pe, t)
  | denied {pe : Point} {t : Shared} : EraseRun size key s (pe, t) →
      CreateErase size key s (.returned false, pe, t)
  | behind {pc : Point} {r : Bool} {t u : Shared} : EraseRun size key s (.returned r, t) →
      CreateRun size key t (pc, u) → CreateErase size key s (pc, .returned r, u)

/-- The entry is there until the `erase` returns. -/
theorem EraseRun.get_eq {s t : Shared} {pe : Point} (h : EraseRun size key s (pe, t))
    (hpe : ∀ r, pe ≠ .returned r) : t.get key = s.get key := by
  cases pe with
  | eraseLookup => rw [show t = s from h]
  | eraseGet => rw [show t = s from h]
  | eraseFree addr => rw [h.1]
  | eraseRemove =>
      cases hg : s.get key with
      | none =>
          simp only [EraseRun, hg] at h
          rw [h, hg]
      | some addr =>
          simp only [EraseRun, hg] at h
          rw [h, Shared.get_apply_free, hg]
  | returned r => exact absurd rfl (hpe r)
  | createLookup => exact h.elim
  | createGet => exact h.elim
  | createAlloc => exact h.elim
  | createInsert ret => exact h.elim

theorem CreateErase.step {s : Shared} (hs : s.get key ≠ none) {x y : Point × Point × Shared}
    (h : CreateErase size key s x)
    (hst : Movers.Step (Step size key) (Step size key) x y) : CreateErase size key s y := by
  cases h with
  | @before pc pe t hpc hpe hrun =>
      cases hst with
      | left b ha =>
          obtain ⟨mem, -, rfl, rfl⟩ := step_iff.1 ha
          rcases hpc with rfl | rfl
          · exact .before (.inr rfl) hpe hrun
          · have hsome : (t.get key).isSome := by
              rw [hrun.get_eq hpe]
              exact Option.isSome_iff_ne_none.2 hs
            simp only [act, hsome, if_true]
            exact .denied hrun
      | @right b pe' t t' a hb =>
          have hrun' := hrun.step hb
          by_cases hret : ∃ r, pe' = .returned r
          · obtain ⟨r, rfl⟩ := hret
            refine .behind hrun' ?_
            rcases hpc with rfl | rfl <;> rfl
          · exact .before hpc (fun r hr => hret ⟨r, hr⟩) hrun'
  | denied hrun =>
      cases hst with
      | left b ha =>
          obtain ⟨mem, -, rfl, rfl⟩ := step_iff.1 ha
          exact .denied hrun
      | right a hb => exact .denied (hrun.step hb)
  | behind hrun hrun' =>
      cases hst with
      | left b ha => exact .behind hrun (hrun'.step ha)
      | right a hb =>
          obtain ⟨mem, -, rfl, rfl⟩ := step_iff.1 hb
          exact .behind hrun hrun'

/-- **A `create` and an `erase` of a key that the map has** are as one after the other. -/
theorem sequential_createErase {s t : Shared} {r r' : Bool} (hs : s.get key ≠ none)
    (h : Together size ⟨.create, key⟩ ⟨.erase, key⟩ s r r' t) :
    Sequential size ⟨.create, key⟩ ⟨.erase, key⟩ s r r' t ∨
      Sequential size ⟨.erase, key⟩ ⟨.create, key⟩ s r' r t := by
  have hstart : CreateErase size key s (.createLookup, .eraseLookup, s) :=
    .before (.inl rfl) (by simp) rfl
  have hrun := Movers.invariant_run (fun _ _ hx hst => CreateErase.step hs hx hst) h hstart
  cases hrun with
  | before hpc _ _ => rcases hpc with hpc | hpc <;> cases hpc
  | denied hrun => exact .inl ⟨s, alone_create_iff.2 ⟨hs, rfl⟩, alone_erase_iff.2 hrun⟩
  | behind hrun hrun' => exact .inr ⟨_, alone_erase_iff.2 hrun, alone_create_iff.2 hrun'⟩

/-! Calls that the allocator has no block for. -/

/-- A `create` without a block. -/
def Waiting (p : Point) : Prop := p = .createLookup ∨ p = .createGet ∨ p = .createAlloc

/-- **Two `create`s of a key that the map does not have**, from a state without room for two more
blocks: one of them runs while the other one waits for its block, or is denied. -/
inductive CreateCreate (size : ℕ) (key : BitVec 32) (s : Shared) : Point × Point × Shared → Prop
  | left {p p' : Point} {t : Shared} : CreateRun size key s (p, t) → Waiting p' →
      CreateCreate size key s (p, p', t)
  | right {p p' : Point} {t : Shared} : CreateRun size key s (p', t) → Waiting p →
      CreateCreate size key s (p, p', t)
  | leftDone {t : Shared} : CreateRun size key s (.returned true, t) →
      CreateCreate size key s (.returned true, .returned false, t)
  | rightDone {t : Shared} : CreateRun size key s (.returned true, t) →
      CreateCreate size key s (.returned false, .returned true, t)

theorem CreateCreate.symm {s t : Shared} {p p' : Point}
    (h : CreateCreate size key s (p, p', t)) : CreateCreate size key s (p', p, t) := by
  cases h with
  | left hrun hwait => exact .right hrun hwait
  | right hrun hwait => exact .left hrun hwait
  | leftDone hrun => exact .rightDone hrun
  | rightDone hrun => exact .leftDone hrun

/-- Only a `create` that has returned lets the other one see the key. -/
theorem CreateRun.returned_of_isSome {s t : Shared} {p : Point} (hnone : s.get key = none)
    (h : CreateRun size key s (p, t)) (hsome : (t.get key).isSome) : p = .returned true := by
  cases p with
  | returned r =>
      cases r with
      | true => rfl
      | false => exact absurd hnone h.1
  | createInsert ret =>
      obtain ⟨-, mem, -, -, rfl⟩ := h
      rw [Shared.get_apply_alloc, hnone] at hsome
      cases hsome
  | createLookup =>
      rw [show t = s from h, hnone] at hsome
      cases hsome
  | createGet =>
      rw [show t = s from h, hnone] at hsome
      cases hsome
  | createAlloc =>
      rw [h.1, hnone] at hsome
      cases hsome
  | eraseLookup => exact h.elim
  | eraseGet => exact h.elim
  | eraseFree addr => exact h.elim
  | eraseRemove => exact h.elim

/-- Without room there is no block behind the one of the other `create`. -/
theorem CreateRun.waiting_of_fresh {s t : Shared} {p : Point} {mem : ℕ} (hnone : s.get key = none)
    (hroom : ¬ Room size s) (h : CreateRun size key s (p, t)) (hf : t.Fresh size mem) :
    Waiting p ∧ t = s := by
  have hcontra : ∀ {mem'}, s.Fresh size mem' → ¬ (s.apply size key (.alloc mem')).Fresh size mem :=
    fun hf' hfresh =>
      let ⟨hf, hsep⟩ := Shared.fresh_alloc.1 hfresh
      hroom ⟨_, mem, hf', hf, hsep⟩
  cases p with
  | createLookup => exact ⟨.inl rfl, h⟩
  | createGet => exact ⟨.inr (.inl rfl), h⟩
  | createAlloc => exact ⟨.inr (.inr rfl), h.1⟩
  | createInsert ret =>
      obtain ⟨-, mem', hf', -, rfl⟩ := h
      exact absurd hf (hcontra hf')
  | returned r =>
      cases r with
      | true =>
          obtain ⟨-, mem', hf', rfl⟩ := h
          have hfresh : (s.apply size key (.alloc mem')).Fresh size mem := hf.of_subset subset_rfl
          exact absurd hfresh (hcontra hf')
      | false => exact absurd hnone h.1
  | eraseLookup => exact h.elim
  | eraseGet => exact h.elim
  | eraseFree addr => exact h.elim
  | eraseRemove => exact h.elim

theorem CreateCreate.step_left {s t t' : Shared} {p p' q : Point} (hnone : s.get key = none)
    (hroom : ¬ Room size s) (h : CreateCreate size key s (p, q, t))
    (hst : Step size key (p, t) (p', t')) : CreateCreate size key s (p', q, t') := by
  cases h with
  | left hrun hwait => exact .left (hrun.step hst) hwait
  | leftDone hrun =>
      obtain ⟨mem, -, rfl, rfl⟩ := step_iff.1 hst
      exact .leftDone hrun
  | rightDone hrun =>
      obtain ⟨mem, -, rfl, rfl⟩ := step_iff.1 hst
      exact .rightDone hrun
  | right hrun hwait =>
      obtain ⟨mem, hfresh, rfl, rfl⟩ := step_iff.1 hst
      rcases hwait with rfl | rfl | rfl
      · exact .right hrun (.inr (.inl rfl))
      · -- it sees the key of the other one, or waits for a block
        cases hg : t.get key with
        | none => exact .right hrun (.inr (.inr (by simp [act])))
        | some addr =>
            obtain rfl := hrun.returned_of_isSome hnone (by simp [hg])
            exact .rightDone hrun
      · -- it is given the block that is left
        obtain ⟨hwait, rfl⟩ := hrun.waiting_of_fresh hnone hroom (hfresh rfl)
        exact .left ⟨hnone, mem, hfresh rfl, rfl, rfl⟩ hwait

theorem CreateCreate.step {s : Shared} (hnone : s.get key = none) (hroom : ¬ Room size s)
    {x y : Point × Point × Shared} (h : CreateCreate size key s x)
    (hst : Movers.Step (Step size key) (Step size key) x y) : CreateCreate size key s y := by
  cases hst with
  | left b ha => exact h.step_left hnone hroom ha
  | right a hb => exact (h.symm.step_left hnone hroom hb).symm

/-- **Two `create`s without room for two blocks** are as one after the other. -/
theorem sequential_createCreate {s t : Shared} {r r' : Bool} (hnone : s.get key = none)
    (hroom : ¬ Room size s) (h : Together size ⟨.create, key⟩ ⟨.create, key⟩ s r r' t) :
    Sequential size ⟨.create, key⟩ ⟨.create, key⟩ s r r' t ∨
      Sequential size ⟨.create, key⟩ ⟨.create, key⟩ s r' r t := by
  have hstart : CreateCreate size key s (.createLookup, .createLookup, s) := .left rfl (.inl rfl)
  have hrun := Movers.invariant_run (fun _ _ hx hst => CreateCreate.step hnone hroom hx hst) h
    hstart
  have hdone : ∀ {t}, CreateRun size key s (.returned true, t) →
      Sequential size ⟨.create, key⟩ ⟨.create, key⟩ s true false t := by
    intro t hrun
    refine ⟨t, alone_create_iff.2 hrun, alone_create_iff.2 ⟨?_, rfl⟩⟩
    obtain ⟨-, mem, -, rfl⟩ := hrun
    rw [Shared.created, Shared.get_apply_insert, if_pos rfl]
    simp
  cases hrun with
  | left _ hwait => rcases hwait with hwait | hwait | hwait <;> cases hwait
  | right _ hwait => rcases hwait with hwait | hwait | hwait <;> cases hwait
  | leftDone hrun => exact .inl (hdone hrun)
  | rightDone hrun => exact .inr (hdone hrun)

/-- **A `create` without a block** does not return, if nobody else inserts the key. -/
theorem not_together_createErase {s t : Shared} {r r' : Bool} (hnone : s.get key = none)
    (hf : ∀ mem, ¬ s.Fresh size mem) : ¬ Together size ⟨.create, key⟩ ⟨.erase, key⟩ s r r' t := by
  intro h
  have hstep : ∀ x y : Point × Point × Shared,
      (Waiting x.1 ∧ Idle key (x.2.1, s) ∧ x.2.2 = s) →
        Movers.Step (Step size key) (Step size key) x y →
          Waiting y.1 ∧ Idle key (y.2.1, s) ∧ y.2.2 = s := by
    rintro _ _ ⟨hwait, hidle, rfl⟩ hst
    cases hst with
    | left b ha =>
        obtain ⟨mem, hfresh, rfl, rfl⟩ := step_iff.1 ha
        rcases hwait with rfl | rfl | rfl
        · exact ⟨.inr (.inl rfl), hidle, rfl⟩
        · exact ⟨.inr (.inr (by simp [act, hnone])), hidle, rfl⟩
        · exact absurd (hfresh rfl) (hf mem)
    | right a hb =>
        obtain ⟨rfl, hidle⟩ := hidle.step hb
        exact ⟨hwait, hidle, rfl⟩
  obtain ⟨hwait, -⟩ := Movers.invariant_run hstep h ⟨.inl rfl, hnone, rfl⟩
  rcases hwait with hwait | hwait | hwait <;> cases hwait

end Same

/-! ### What a call keeps -/

/-- **What a call keeps**: the map owns its blocks, no block is lost, and what is freed had been
allocated. -/
structure Kept (s t : Shared) : Prop where
  owns : t.Owns
  unheld : ∀ p, t.Allocated p ∧ ¬ t.Held p ↔ s.Allocated p ∧ ¬ s.Held p
  freed : ∃ frees : Multiset ℕ, t.freed = frees + s.freed ∧ frees.Nodup ∧
    ∀ p ∈ frees, s.Allocated p ∧ ¬ t.Allocated p

section Keeps

variable {size mem : ℕ} {key addr : BitVec 32} {s t u : Shared} {p : ℕ}

theorem Kept.refl (h : s.Owns) : Kept s s :=
  ⟨h, fun _ => Iff.rfl, 0, (zero_add _).symm, Multiset.nodup_zero, by simp⟩

theorem get_created (k : BitVec 32) : (s.created size key mem).get k =
    if k = key then some ((addrOf mem).setWidth 32) else s.get k := by
  rw [Shared.created, Shared.get_apply_insert, Shared.get_apply_alloc]

theorem held_created (hnone : s.get key = none) (hf : s.Fresh size mem) :
    (s.created size key mem).Held p ↔ p = mem ∨ s.Held p := by
  constructor
  · rintro ⟨k, addr, hk, rfl⟩
    rw [get_created] at hk
    split_ifs at hk with hkk
    · obtain rfl := Option.some.inj hk
      exact Or.inl (toPtr_addrOf hf.lt)
    · exact Or.inr ⟨k, addr, hk, rfl⟩
  · rintro (rfl | ⟨k, addr, hk, rfl⟩)
    · exact ⟨key, _, by rw [get_created, if_pos rfl], toPtr_addrOf hf.lt⟩
    · have hne : k ≠ key := by
        rintro rfl
        rw [hnone] at hk
        cases hk
      exact ⟨k, addr, by rw [get_created, if_neg hne, hk], rfl⟩

/-- A `create` that has been given a block. -/
theorem Kept.created (h : s.Owns) (hnone : s.get key = none) (hf : s.Fresh size mem) :
    Kept s (s.created size key mem) := by
  have halloc : ∀ q, (s.created size key mem).Allocated q ↔ q = mem ∨ s.Allocated q :=
    fun q => @Shared.allocated_alloc s size mem key q
  have hheld : ∀ k addr, s.get k = some addr → toPtr addr ≠ mem := by
    rintro k addr hk rfl
    exact hf.not_allocated (h.allocated k addr hk)
  refine ⟨⟨?_, ?_⟩, ?_, 0, (zero_add _).symm, Multiset.nodup_zero, by simp⟩
  · intro k addr hk
    rw [get_created] at hk
    split_ifs at hk
    · obtain rfl := Option.some.inj hk
      exact (halloc _).2 (Or.inl (toPtr_addrOf hf.lt))
    · exact (halloc _).2 (Or.inr (h.allocated k addr hk))
  · intro k k' addr addr' hk hk' heq
    rw [get_created] at hk hk'
    split_ifs at hk hk' with hkk hkk' hkk'
    · rw [hkk, hkk']
    · obtain rfl := Option.some.inj hk
      exact absurd (heq.symm.trans (toPtr_addrOf hf.lt)) (hheld k' addr' hk')
    · obtain rfl := Option.some.inj hk'
      exact absurd (heq.trans (toPtr_addrOf hf.lt)) (hheld k addr hk)
    · exact h.unique k k' addr addr' hk hk' heq
  · intro q
    rw [halloc, held_created hnone hf, not_or]
    constructor
    · rintro ⟨hq, hne, hnot⟩
      exact ⟨hq.resolve_left hne, hnot⟩
    · rintro ⟨hq, hnot⟩
      refine ⟨Or.inr hq, ?_, hnot⟩
      rintro rfl
      exact hf.not_allocated hq

/-- An `erase` of a key that the map has. -/
theorem Kept.erased (h : s.Owns) (hsome : s.get key = some addr) :
    Kept s (s.erased size key) := by
  have heq := @Shared.erased_of_some s size key addr hsome
  have hget : ∀ k, (s.erased size key).get k = if k = key then none else s.get k := by
    intro k
    rw [heq, Shared.get_apply_remove, Shared.get_apply_free]
  have halloc : ∀ q, (s.erased size key).Allocated q ↔ s.Allocated q ∧ q ≠ toPtr addr := by
    intro q
    rw [heq]
    exact @Shared.allocated_free s size (toPtr addr) key q
  have hother : ∀ k addr', k ≠ key → s.get k = some addr' → toPtr addr' ≠ toPtr addr :=
    fun k addr' hne hk hptr => hne (h.unique k key addr' addr hk hsome hptr)
  refine ⟨⟨?_, ?_⟩, ?_, {toPtr addr}, ?_, Multiset.nodup_singleton _, ?_⟩
  · intro k addr' hk
    rw [hget] at hk
    split_ifs at hk with hkk
    exact (halloc _).2 ⟨h.allocated k addr' hk, hother k addr' hkk hk⟩
  · intro k k' addr₁ addr₂ hk hk' hptr
    rw [hget] at hk hk'
    split_ifs at hk hk'
    exact h.unique k k' addr₁ addr₂ hk hk' hptr
  · intro q
    have hheld : (s.erased size key).Held q ↔ s.Held q ∧ q ≠ toPtr addr := by
      constructor
      · rintro ⟨k, addr', hk, rfl⟩
        rw [hget] at hk
        split_ifs at hk with hkk
        exact ⟨⟨k, addr', hk, rfl⟩, hother k addr' hkk hk⟩
      · rintro ⟨⟨k, addr', hk, rfl⟩, hne⟩
        refine ⟨k, addr', ?_, rfl⟩
        rw [hget, if_neg, hk]
        rintro rfl
        exact hne (congrArg toPtr (Option.some.inj (hk.symm.trans hsome)))
    rw [halloc, hheld]
    constructor
    · rintro ⟨⟨hq, hne⟩, hnot⟩
      exact ⟨hq, fun hh => hnot ⟨hh, hne⟩⟩
    · rintro ⟨hq, hnot⟩
      refine ⟨⟨hq, ?_⟩, fun hh => hnot hh.1⟩
      rintro rfl
      exact hnot ⟨key, addr, hsome, rfl⟩
  · rw [heq]
    exact (Multiset.singleton_add _ _).symm
  · intro q hq
    obtain rfl := Multiset.mem_singleton.1 hq
    exact ⟨h.allocated key addr hsome, fun hq' => ((halloc _).1 hq').2 rfl⟩

/-- **A call by itself** keeps the blocks. -/
theorem Kept.of_alone {op : Op} {r : Bool} (h : s.Owns) (ha : Alone size op s r t) : Kept s t := by
  obtain ⟨kind, key⟩ := op
  cases kind with
  | create =>
      have hrun := alone_create_iff.1 ha
      cases r with
      | false =>
          obtain ⟨-, rfl⟩ := hrun
          exact .refl h
      | true =>
          obtain ⟨hnone, mem, hf, rfl⟩ := hrun
          exact .created h hnone hf
  | erase =>
      obtain ⟨-, rfl⟩ := alone_erase_iff.1 ha
      cases hg : s.get key with
      | none =>
          rw [Shared.erased_of_none hg]
          exact .refl h
      | some addr => exact .erased h hg

/-- Calls one after the other. -/
theorem Kept.trans (h : Kept s t) (h' : Kept t u) :
    (∀ p, u.Allocated p ∧ ¬ u.Held p ↔ s.Allocated p ∧ ¬ s.Held p) ∧
      ∃ frees : Multiset ℕ, u.freed = frees + s.freed ∧ frees.Nodup := by
  refine ⟨fun p => (h'.unheld p).trans (h.unheld p), ?_⟩
  obtain ⟨frees, hfreed, hnodup, hfrees⟩ := h.freed
  obtain ⟨frees', hfreed', hnodup', hfrees'⟩ := h'.freed
  refine ⟨frees' + frees, ?_, Multiset.nodup_add.2 ⟨hnodup', hnodup, ?_⟩⟩
  · rw [hfreed', hfreed, add_assoc]
  · exact Multiset.disjoint_left.2 fun hp' hp => (hfrees _ hp).2 (hfrees' _ hp').1

/-- **What follows from the order of two calls.** -/
theorem Atomic.of_sequential {op op' : Op} (h : s.Owns)
    (hseq : ∀ r r' t, Together size op op' s r r' t →
      Sequential size op op' s r r' t ∨ Sequential size op' op s r' r t) :
    Atomic size op op' s := by
  have hkept : ∀ r r' t, Together size op op' s r r' t →
      (∀ p, t.Allocated p ∧ ¬ t.Held p ↔ s.Allocated p ∧ ¬ s.Held p) ∧
        ∃ frees : Multiset ℕ, t.freed = frees + s.freed ∧ frees.Nodup := by
    intro r r' t ht
    rcases hseq r r' t ht with ⟨u, hfirst, hsecond⟩ | ⟨u, hfirst, hsecond⟩
    · have hk := Kept.of_alone h hfirst
      exact hk.trans (.of_alone hk.owns hsecond)
    · have hk := Kept.of_alone h hfirst
      exact hk.trans (.of_alone hk.owns hsecond)
  -- behind a `create` that answers 1 there is no other one
  have honce : ∀ {key : BitVec 32} {t : Shared}, ¬ Sequential size ⟨.create, key⟩ ⟨.create, key⟩ s
      true true t := by
    rintro key t ⟨u, hfirst, hsecond⟩
    obtain ⟨-, mem, -, rfl⟩ := alone_create_iff.1 hfirst
    obtain ⟨hnone, -⟩ := alone_create_iff.1 hsecond
    rw [get_created, if_pos rfl] at hnone
    cases hnone
  refine ⟨hseq, ?_, fun r r' t ht => (hkept r r' t ht).1, fun r r' t ht => (hkept r r' t ht).2⟩
  rintro key rfl rfl r r' t ht ⟨rfl, rfl⟩
  rcases hseq _ _ _ ht with hs | hs
  · exact honce hs
  · exact honce hs

end Keeps

/-! ### Two calls -/

section Calls

variable {size : ℕ} {s t u : Shared} {op op' : Op} {r r' : Bool}

theorem Together.symm (h : Together size op op' s r r' t) : Together size op' op s r' r t :=
  Movers.run_symm h

theorem Atomic.symm (h : Atomic size op op' s) : Atomic size op' op s where
  sequential r r' t ht := (h.sequential r' r t ht.symm).symm
  once key hop hop' r r' t ht hboth := h.once key hop' hop r' r t ht.symm hboth.symm
  leak r r' t ht := h.leak r' r t ht.symm
  freed r r' t ht := h.freed r' r t ht.symm

theorem sequential_of_ne (hne : op.key ≠ op'.key) (h : s.Owns)
    (hkind : ¬ (op.kind = .create ∧ op'.kind = .erase)) (ht : Together size op op' s r r' t) :
    Sequential size op op' s r r' t := by
  refine Movers.Swaps.serial (swaps_of_ne hne hkind) (fun _ _ => Apart.step hne) ht
    ⟨op.kind.has_start, op'.kind.has_start, fun _ addr hp => ?_⟩
  cases hk : op.kind with
  | create =>
      rw [hk] at hp
      cases hp
  | erase =>
      rw [hk] at hp
      exact h.allocated op.key addr hp

theorem sequential_of_idle (hidle : Idle op.key (op.kind.start, s))
    (hidle' : Idle op'.key (op'.kind.start, s)) (ht : Together size op op' s r r' t) :
    Sequential size op op' s r r' t :=
  Movers.Swaps.serial swaps_of_idle (fun _ _ => idle_step) ht ⟨hidle, hidle'⟩

/-- **Compatible calls are atomic.** -/
theorem atomic_of_compatible (h : s.Owns) (hc : Compatible s op op') : Atomic size op op' s := by
  refine .of_sequential h fun r r' t ht => ?_
  by_cases hne : op.key = op'.key
  · have hcase := hc hne
    obtain ⟨kind, key⟩ := op
    obtain ⟨kind', key'⟩ := op'
    obtain rfl : key = key' := hne
    cases kind <;> cases kind'
    · exact .inl (sequential_of_idle hcase hcase ht)
    · exact sequential_createErase hcase ht
    · exact (sequential_createErase hcase ht.symm).symm
    · exact .inl (sequential_of_idle hcase hcase ht)
  · by_cases hkind : op.kind = .create ∧ op'.kind = .erase
    · refine .inr (sequential_of_ne (Ne.symm hne) h ?_ ht.symm)
      rw [hkind.1, hkind.2]
      simp
    · exact .inl (sequential_of_ne hne h hkind ht)

/-- A caller looks the key up, the other one runs, and the first goes on with what it has seen. -/
theorem together_of_check {p : Point}
    (hcheck : ReflTransGen (Step size op.key) (op.kind.start, s) (p, s))
    (hother : Alone size op' s r' u)
    (hrest : ReflTransGen (Step size op.key) (p, u) (.returned r, t)) :
    Together size op op' s r r' t :=
  ((Movers.run_left _ hcheck).trans (Movers.run_right _ hother)).trans (Movers.run_left _ hrest)

section Races

variable {key : BitVec 32}

/-- **Two `create`s of a key that the map does not have** both answer 1. -/
theorem together_create (hnone : s.get key = none) (hroom : Room size s) :
    ∃ t, Together size ⟨.create, key⟩ ⟨.create, key⟩ s true true t := by
  obtain ⟨mem, mem', hf, hf', hsep⟩ := hroom
  have hother : Alone size ⟨.create, key⟩ s true (s.created size key mem) :=
    alone_create_iff.2 ⟨hnone, mem, hf, rfl⟩
  -- the block is fresh behind the other `create`
  have hfresh : (s.created size key mem).Fresh size mem' :=
    ((@Shared.fresh_alloc s size mem mem' key).2 ⟨hf', hsep⟩).of_subset subset_rfl
  exact ⟨_, together_of_check (create_check hnone) hother (create_rest hfresh)⟩

/-- **Two `erase`s of a key that the map has** free its block twice. -/
theorem together_erase {addr : BitVec 32} (hsome : s.get key = some addr) :
    ∃ t, Together size ⟨.erase, key⟩ ⟨.erase, key⟩ s false true t ∧
      t.freed = toPtr addr ::ₘ toPtr addr ::ₘ s.freed := by
  have hcheck := @erase_check size key s
  have hother : Alone size ⟨.erase, key⟩ s true (s.erased size key) :=
    alone_erase_iff.2 ⟨by rw [hsome]; rfl, rfl⟩
  -- the second `free` is behind the other `erase`
  have hrest := @erase_rest size key addr (s.erased size key)
  have hgone : (s.erased size key).get key = none := by
    rw [Shared.erased_of_some hsome, Shared.get_apply_remove, if_pos rfl]
  rw [hgone] at hrest
  rw [hsome] at hcheck
  refine ⟨_, together_of_check hcheck hother hrest, ?_⟩
  rw [Shared.erased_of_some hsome]
  rfl

/-- **An `erase` and a `create` of a key that the map does not have**: the block is lost. -/
theorem together_erase_create (h : s.Owns) (hnone : s.get key = none) {mem : ℕ}
    (hf : s.Fresh size mem) :
    ∃ t, Together size ⟨.erase, key⟩ ⟨.create, key⟩ s true true t ∧
      (t.Allocated mem ∧ ¬ t.Held mem) ∧ ¬ s.Allocated mem := by
  have hcheck := @erase_check size key s
  rw [hnone] at hcheck
  have hother : Alone size ⟨.create, key⟩ s true (s.created size key mem) :=
    alone_create_iff.2 ⟨hnone, mem, hf, rfl⟩
  have hremove := @erase_remove size key (s.created size key mem)
  rw [get_created, if_pos rfl] at hremove
  refine ⟨_, together_of_check hcheck hother (.single hremove),
    ⟨(@Shared.allocated_alloc s size mem key mem).2 (Or.inl rfl), ?_⟩, hf.not_allocated⟩
  rintro ⟨k, addr, hk, hptr⟩
  rw [Shared.get_apply_remove, get_created] at hk
  split_ifs at hk
  exact hf.not_allocated (hptr ▸ h.allocated k addr hk)

end Races

/-- **Atomic calls are compatible**, where the allocator has the blocks. -/
theorem compatible_of_atomic (h : s.Owns) (hserved : Served size s op op')
    (ha : Atomic size op op' s) : Compatible s op op' := by
  have hmixed : ∀ {key : BitVec 32}, (∃ mem, s.Fresh size mem) →
      Atomic size ⟨.erase, key⟩ ⟨.create, key⟩ s → s.get key ≠ none := by
    rintro key ⟨mem, hf⟩ ha hnone
    obtain ⟨t, ht, hleak, hnot⟩ := together_erase_create h hnone hf
    exact hnot ((ha.leak _ _ t ht mem).1 hleak).1
  obtain ⟨kind, key⟩ := op
  obtain ⟨kind', key'⟩ := op'
  intro hkey
  obtain rfl : key = key' := hkey
  cases kind <;> cases kind'
  · intro hnone
    obtain ⟨t, ht⟩ := together_create hnone hserved
    exact ha.once key rfl rfl _ _ t ht ⟨rfl, rfl⟩
  · exact hmixed (hserved (.inl rfl)) ha.symm
  · exact hmixed (hserved (.inr rfl)) ha
  · change s.get key = none
    by_contra hsome
    obtain ⟨addr, haddr⟩ := Option.ne_none_iff_exists'.1 hsome
    obtain ⟨t, ht, hfreed⟩ := @together_erase size s key addr haddr
    obtain ⟨frees, heq, hnodup⟩ := ha.freed _ _ t ht
    have hcons : frees = toPtr addr ::ₘ toPtr addr ::ₘ 0 := by
      refine add_right_cancel (heq.symm.trans (hfreed.trans ?_))
      rw [Multiset.cons_add, Multiset.cons_add, zero_add]
    rw [hcons] at hnodup
    exact (Multiset.nodup_cons.1 hnodup).1 (Multiset.mem_cons_self _ _)

/-- **Calls that are not served are atomic**: the one without a block does not return. -/
theorem atomic_of_not_served (h : s.Owns) (hserved : ¬ Served size s op op')
    (hc : ¬ Compatible s op op') : Atomic size op op' s := by
  refine .of_sequential h fun r r' t ht => ?_
  obtain ⟨kind, key⟩ := op
  obtain ⟨kind', key'⟩ := op'
  obtain ⟨hkey, hcase⟩ := Classical.not_imp.1 hc
  obtain rfl : key = key' := hkey
  cases kind <;> cases kind'
  · exact sequential_createCreate (not_not.1 hcase) hserved ht
  · refine absurd ht (not_together_createErase (not_not.1 hcase) fun mem hf => ?_)
    exact hserved fun _ => ⟨mem, hf⟩
  · refine absurd ht.symm (not_together_createErase (not_not.1 hcase) fun mem hf => ?_)
    exact hserved fun _ => ⟨mem, hf⟩
  · refine absurd (fun hany => ?_) hserved
    rcases hany with hany | hany <;> cases hany

/-- **Two calls are atomic** if they are compatible, or the allocator does not have the blocks. -/
theorem atomic_iff_compatible (h : s.Owns) :
    Atomic size op op' s ↔ (Served size s op op' → Compatible s op op') := by
  constructor
  · exact fun ha hserved => compatible_of_atomic h hserved ha
  · intro himp
    by_cases hc : Compatible s op op'
    · exact atomic_of_compatible h hc
    · exact atomic_of_not_served h (fun hserved => hc (himp hserved)) hc

end Calls

/-! ### The maps of the program -/

section Program

open MemoryHashmaps (Trace Inv Reachable)

variable {s : Trace} {mapkey : ℕ} {slot : Slot U32MemoryMap}

theorem Shared.allocated_of {first : LockedMap (BitVec 32) (BitVec 32)} {heap : Heap} {p : ℕ} :
    (Shared.of first heap).Allocated p ↔ p ∈ heap.starts := by
  unfold Allocated Shared.of Heap.starts
  simp only [List.mem_toFinset, List.mem_map]

/-- A map owns its blocks. -/
theorem owns_of_inv (h : Inv s) (hk : mapkey ∈ s.issued)
    (hg : s.state.hashmaps.get mapkey = some slot) :
    (Shared.of slot.value.first s.state.heap).Owns := by
  have hheld : ∀ key addr, slot.value.first.get key = some addr →
      s.state.held (Key.toIndex mapkey, key) = some (toPtr addr) := by
    intro key addr hv
    rw [h.held_self hk hg, hv]
    rfl
  refine ⟨fun key addr hv => ?_, fun key key' addr addr' hv hv' heq => ?_⟩
  · exact Shared.allocated_of.2 (h.balanced.mem_iff.2 ⟨_, hheld key addr hv⟩)
  · have hheld' := hheld key' addr' hv'
    rw [← heq] at hheld'
    exact (Prod.mk.inj (h.balanced.unique (hheld key addr hv) hheld')).2

/-- **`recomputil_u32_memory_hashmap_create`** is a `create` by itself. -/
theorem alone_u32MemoryHashmapCreate (h : Inv s) (hk : mapkey ∈ s.issued)
    (hg : s.state.hashmaps.get mapkey = some slot) {key : BitVec 32} {mem : ℕ} {r : Bool}
    {u : MemoryHashmaps}
    (hf : slot.value.first.get key = none → s.state.heap.Fresh slot.value.second.toNat mem)
    (hc : s.state.u32MemoryHashmapCreate mapkey key mem = some (r, u)) :
    ∃ slot', u.hashmaps.get mapkey = some slot' ∧
      Alone slot.value.second.toNat ⟨.create, key⟩ (Shared.of slot.value.first s.state.heap) r
        (Shared.of slot'.value.first u.heap) := by
  rw [MemoryHashmaps.u32MemoryHashmapCreate_eq hg] at hc
  cases hv : slot.value.first.get key with
  | some addr =>
      rw [hv] at hc
      obtain ⟨rfl, rfl⟩ := Prod.mk.inj (Option.some.inj hc)
      refine ⟨slot, hg, alone_create_iff.2 ⟨?_, rfl⟩⟩
      rw [show (Shared.of slot.value.first s.state.heap).get key = _ from hv]
      simp
  | none =>
      rw [hv] at hc
      obtain ⟨rfl, rfl⟩ := Prod.mk.inj (Option.some.inj hc)
      refine ⟨_, h.handed.getImpl_write_self hk _ hg, alone_create_iff.2 ⟨hv, mem, ?_, ?_⟩⟩
      · have hfresh := hf hv
        exact ⟨hfresh.lt, hfresh.bound, fun b hb => hfresh.start_ne b (List.mem_toFinset.1 hb),
          fun b hb => hfresh.disjoint b (List.mem_toFinset.1 hb)⟩
      · refine Shared.ext rfl ?_ rfl
        exact List.toFinset_cons

/-- **`recomputil_u32_memory_hashmap_erase`** is an `erase` by itself. -/
theorem alone_u32MemoryHashmapErase (h : Inv s) (hk : mapkey ∈ s.issued)
    (hg : s.state.hashmaps.get mapkey = some slot) {key : BitVec 32} {r : Bool}
    {u : MemoryHashmaps} (hc : s.state.u32MemoryHashmapErase mapkey key = some (r, u)) :
    ∃ slot', u.hashmaps.get mapkey = some slot' ∧
      Alone slot.value.second.toNat ⟨.erase, key⟩ (Shared.of slot.value.first s.state.heap) r
        (Shared.of slot'.value.first u.heap) := by
  rw [MemoryHashmaps.u32MemoryHashmapErase_eq hg] at hc
  obtain ⟨rfl, rfl⟩ := Prod.mk.inj (Option.some.inj hc)
  refine ⟨_, h.handed.getImpl_write_self hk _ hg, alone_erase_iff.2 ⟨?_, ?_⟩⟩
  · have hmem : key ∈ slot.value.first.map ↔ (slot.value.first.get key).isSome := by
      rw [LockedMap.mem_map, Option.isSome_iff_exists]
    rw [Bool.eq_iff_iff]
    exact decide_eq_true_iff.trans hmem
  · cases hv : slot.value.first.get key with
    | none =>
        have hget : (Shared.of slot.value.first s.state.heap).get key = none := hv
        rw [Shared.erased, hget]
        refine Eq.trans ?_ (@Shared.apply_remove_of_none _ slot.value.second.toNat _ hget)
        simp only [MemoryHashmaps.erased, hv]
        rfl
    | some addr =>
        have hget : (Shared.of slot.value.first s.state.heap).get key = some addr := hv
        rw [Shared.erased, hget]
        simp only [MemoryHashmaps.erased, hv]
        refine Shared.ext rfl ?_ rfl
        refine (List.toFinset_filter s.state.heap.blocks _).trans ?_
        simp only [decide_eq_true_eq]
        rfl

/-- **Two calls on a live map are atomic** if they are compatible, and only then, where the
allocator has the blocks that they ask for. -/
theorem atomic_iff (h : Reachable s) (hk : mapkey ∈ s.issued)
    (hg : s.state.hashmaps.get mapkey = some slot) (op op' : Op) :
    Atomic slot.value.second.toNat op op' (Shared.of slot.value.first s.state.heap) ↔
      (Served slot.value.second.toNat (Shared.of slot.value.first s.state.heap) op op' →
        Compatible (Shared.of slot.value.first s.state.heap) op op') :=
  atomic_iff_compatible (owns_of_inv h.inv hk hg)

theorem reachable_oneMap : Reachable MemoryHashmaps.oneMap :=
  (Runs.Reach.init (s := MemoryHashmaps.noMaps) ⟨rfl, rfl, rfl, rfl⟩).step (.createMap 8)
    ⟨by simp [MemoryHashmaps.Call.mapkey?], by simp⟩ ⟨0x100000, _, rfl, rfl⟩

/-- Two `create`s of a key in a map without entries. -/
theorem not_atomic_oneMap : Reachable MemoryHashmaps.oneMap ∧
    ∃ slot, MemoryHashmaps.oneMap.state.hashmaps.get 0x100000 = some slot ∧
      (∃ t, Together 8 ⟨.create, 5⟩ ⟨.create, 5⟩
        (Shared.of slot.value.first MemoryHashmaps.oneMap.state.heap) true true t) ∧
      ¬ Atomic slot.value.second.toNat ⟨.create, 5⟩ ⟨.create, 5⟩
        (Shared.of slot.value.first MemoryHashmaps.oneMap.state.heap) := by
  refine ⟨reachable_oneMap, _, rfl, ?_⟩
  have hfresh : ∀ mem, mem + 8 ≤ 2 ^ 31 →
      (Shared.of .empty MemoryHashmaps.oneMap.state.heap).Fresh 8 mem := fun mem hbound =>
    ⟨by omega, hbound, fun b hb => absurd hb (Finset.notMem_empty b),
      fun b hb => absurd hb (Finset.notMem_empty b)⟩
  have hroom : Room 8 (Shared.of .empty MemoryHashmaps.oneMap.state.heap) :=
    ⟨0x1000, 0x2000, hfresh _ (by decide), hfresh _ (by decide), by decide, by decide⟩
  have hnone : (Shared.of .empty MemoryHashmaps.oneMap.state.heap).get 5 = none :=
    LockedMap.get_empty 5
  obtain ⟨t, ht⟩ := together_create hnone hroom
  exact ⟨⟨t, ht⟩, fun ha => ha.once 5 rfl rfl _ _ t ht ⟨rfl, rfl⟩⟩

theorem reachable_oneBlock : Reachable MemoryHashmaps.oneBlock := by
  refine reachable_oneMap.step (.create 0x100000 5 0x1000) ⟨?_, ?_⟩ ⟨true, _, rfl, rfl⟩
  · rintro _ ⟨rfl⟩
    exact List.mem_cons_self
  · intro mapkey key mem he slot hs _
    cases he
    obtain rfl := Option.some.inj hs
    exact ⟨by decide, by decide, fun _ hb => absurd hb List.not_mem_nil,
      fun _ hb => absurd hb List.not_mem_nil⟩

theorem atomic_iff_oneBlock :
    ∃ slot, MemoryHashmaps.oneBlock.state.hashmaps.get 0x100000 = some slot ∧
      Atomic slot.value.second.toNat ⟨.create, 5⟩ ⟨.erase, 5⟩
        (Shared.of slot.value.first MemoryHashmaps.oneBlock.state.heap) :=
  ⟨_, rfl, (atomic_iff reachable_oneBlock List.mem_cons_self rfl _ _).2 fun _ _ hnone =>
    by cases hnone⟩

end Program

end HashmapCallers

end Data
