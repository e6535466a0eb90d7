/-
**The u32 slotmaps.**

A u32 slotmap gives its keys one word each.  The functions on a key are written to answer zero for a
key that is not in the map.  But `_return` only sets the register that the result is read from, and
the functions go on behind it: for a key that leads to nothing, `recomputil_u32_slotmap_get` and
`recomputil_u32_slotmap_set` go on to access the word through a null pointer, and
`recomputil_u32_slotmap_erase` goes on to answer one.

So they do what they are for when the key leads to its word, and never otherwise.

Main definitions:

* `Data.U32Slotmaps`, with the functions of `src/game/recomp_data_api.cpp`;
* `Data.U32Slotmaps.OpsOk` — **what the functions on a key are for**.

Main results:

* `Data.U32Slotmaps.Inv.call` — the step lemma;
* `Data.U32Slotmaps.ops_ok_iff_identifies` — in every reachable state, the functions do it for the
  keys that lead to their element, and for no others.
-/

import TsaRecomp.Lib.Outcome
import TsaRecomp.Data.DeadKeys
import TsaRecomp.Data.MemoryHashmap

set_option relaxedAutoImplicit false
set_option autoImplicit false

namespace Data

/-! ### The functions -/

/-- Where the program ends: in the message `handle is invalid`, or in an access through a null
pointer of the host. -/
inductive Stop
  | handleIsInvalid
  | nullPointer
  deriving DecidableEq, Repr

/-- `u32_slotmaps`, and the memory of the game. -/
structure U32Slotmaps where
  slotmaps : LockedSlotmap (LockedSlotmap (BitVec 32))
  rdram : Rdram

namespace U32Slotmaps

variable (s : U32Slotmaps)

/-- `u32_slotmaps.get`, with the message when it answers false. -/
def getMap (mapkey : ℕ) : Except Stop (LockedSlotmap (BitVec 32)) :=
  match s.slotmaps.get mapkey with
  | none => .error .handleIsInvalid
  | some slot => .ok slot.value

/-- The state with another map behind the pointer that `u32_slotmaps.get` has answered with. -/
def withMap (mapkey : ℕ) (map : LockedSlotmap (BitVec 32)) : U32Slotmaps :=
  { s with slotmaps := s.slotmaps.update mapkey fun _ => map }

/-- `recomputil_create_u32_slotmap` -/
def createU32Slotmap : ℕ × U32Slotmaps :=
  let (mapkey, slotmaps) := s.slotmaps.create ⟨.empty⟩
  (mapkey, { s with slotmaps })

/-- `recomputil_destroy_u32_slotmap` -/
def destroyU32Slotmap (mapkey : ℕ) : Except Stop U32Slotmaps :=
  let (erased, slotmaps) := s.slotmaps.erase mapkey
  if erased then .ok { s with slotmaps } else .error .handleIsInvalid

/-- `recomputil_u32_slotmap_contains` -/
def u32SlotmapContains (mapkey key : ℕ) : Except Stop Bool := do
  let map ← s.getMap mapkey
  return (map.get key).isSome

/-- `recomputil_u32_slotmap_create` -/
def u32SlotmapCreate (mapkey : ℕ) : Except Stop (ℕ × U32Slotmaps) := do
  let map ← s.getMap mapkey
  let (key, map) := map.create 0
  return (key, s.withMap mapkey map)

/-- `recomputil_u32_slotmap_get` -/
def u32SlotmapGet (mapkey key : ℕ) (valOut : BitVec 32) :
    Except Stop (BitVec 32 × U32Slotmaps) := do
  let map ← s.getMap mapkey
  match map.get key with
  -- `_return(ctx, 0)` does not end the function
  | none => throw .nullPointer
  | some ret =>
      return (1, { s with rdram := s.rdram.writeW 0 (valOut.signExtend 64) ret.value })

/-- `recomputil_u32_slotmap_set` -/
def u32SlotmapSet (mapkey key : ℕ) (value : BitVec 32) : Except Stop (BitVec 32 × U32Slotmaps) := do
  let map ← s.getMap mapkey
  match map.get key with
  -- nor here
  | none => throw .nullPointer
  | some _ => return (1, s.withMap mapkey (map.update key fun _ => value))

/-- `recomputil_u32_slotmap_erase` -/
def u32SlotmapErase (mapkey key : ℕ) : Except Stop (BitVec 32 × U32Slotmaps) := do
  let map ← s.getMap mapkey
  let (_, map) := map.erase key
  -- the answer zero, for a key that is not erased, is overwritten
  return (1, s.withMap mapkey map)

/-- `recomputil_u32_slotmap_size` -/
def u32SlotmapSize (mapkey : ℕ) : Except Stop (BitVec 32) := do
  let map ← s.getMap mapkey
  return BitVec.ofNat 32 map.size

/-! ### Runs -/

/-- A call, with any arguments, or anything that the game does to its memory. -/
inductive Call
  | createMap
  | destroyMap (mapkey : ℕ)
  | contains (mapkey key : ℕ)
  | create (mapkey : ℕ)
  | get (mapkey key : ℕ) (valOut : BitVec 32)
  | set (mapkey key : ℕ) (value : BitVec 32)
  | erase (mapkey key : ℕ)
  | size (mapkey : ℕ)
  | game (rdram : Rdram)

/-- The state behind a call, when the program goes on. -/
def call : Call → Except Stop U32Slotmaps
  | .createMap => return s.createU32Slotmap.2
  | .destroyMap mapkey => s.destroyU32Slotmap mapkey
  | .contains mapkey key => do
      let _ ← s.u32SlotmapContains mapkey key
      return s
  | .create mapkey => return (← s.u32SlotmapCreate mapkey).2
  | .get mapkey key valOut => return (← s.u32SlotmapGet mapkey key valOut).2
  | .set mapkey key value => return (← s.u32SlotmapSet mapkey key value).2
  | .erase mapkey key => return (← s.u32SlotmapErase mapkey key).2
  | .size mapkey => do
      let _ ← s.u32SlotmapSize mapkey
      return s
  | .game rdram => return { s with rdram }

/-- No map has been created. -/
def Init : Prop := s.slotmaps.map = .empty

/-- The states of all runs. -/
abbrev Reachable (s : U32Slotmaps) : Prop :=
  Runs.Reach (fun s a t => s.call a = .ok t) Init (fun _ _ => True) s

/-! ### What the functions are for -/

/-- **What the functions on a key are for**, where the handle leads to the given map. -/
structure OpsOk (s : U32Slotmaps) (mapkey : ℕ) (map : LockedSlotmap (BitVec 32)) (key : ℕ) :
    Prop where
  /-- `get` writes the value of the key to the memory. -/
  get : ∀ index slot, map.map.Holds key index slot → ∀ valOut, s.u32SlotmapGet mapkey key valOut =
    .ok (1, { s with rdram := s.rdram.writeW 0 (valOut.signExtend 64) slot.value })
  /-- `set` replaces this value and nothing else. -/
  set : ∀ index slot, map.map.Holds key index slot → ∀ value, ∃ map',
    s.u32SlotmapSet mapkey key value = .ok (1, s.withMap mapkey map') ∧ map'.size = map.size ∧
      ∀ i, map'.map.slotAt i = if i = index then some { slot with value } else map.map.slotAt i
  /-- `erase` removes the key and no other. -/
  erase : ∀ index slot, map.map.Holds key index slot → ∃ map' slot',
    s.u32SlotmapErase mapkey key = .ok (1, s.withMap mapkey map') ∧ map'.size + 1 = map.size ∧
      ¬ map'.map.Live key ∧ slot'.tombstone = true ∧
      ∀ i, map'.map.slotAt i = if i = index then some slot' else map.map.slotAt i
  /-- For a key that is not in use they answer zero and do nothing. -/
  dead : ¬ map.map.Live key → (∀ valOut, s.u32SlotmapGet mapkey key valOut = .ok (0, s)) ∧
    (∀ value, s.u32SlotmapSet mapkey key value = .ok (0, s)) ∧
    s.u32SlotmapErase mapkey key = .ok (0, s)

/-! ### The invariant -/

open Outcome (Settles)

/-- **The invariant**: the maps are well-formed. -/
structure Inv (s : U32Slotmaps) : Prop where
  slotmaps : s.slotmaps.map.MapInv
  map : ∀ i slot, s.slotmaps.map.slotAt i = some slot → slot.tombstone = false →
    slot.value.map.MapInv

namespace Inv

variable {s} {mapkey : ℕ} {map : LockedSlotmap (BitVec 32)}

/-- The pointer leads to a slot, which may be free. -/
theorem of_getMap (h : Inv s) (hg : s.getMap mapkey = .ok map) : ∃ slot,
    s.slotmaps.map.slotAt (Key.toIndex mapkey) = some slot ∧ slot.value = map := by
  unfold getMap at hg
  split at hg
  · cases hg
  · next slot hslot =>
      obtain rfl := Except.ok.inj hg
      exact ⟨slot, (h.slotmaps.of_getImpl hslot).1, rfl⟩

/-- The slots when one map is replaced: the other maps stay. -/
theorem slotAt_withMap (h : Inv s) (hg : s.getMap mapkey = .ok map)
    (map' : LockedSlotmap (BitVec 32)) : ∃ slot,
      (s.slotmaps.map.slotAt (Key.toIndex mapkey) = some slot ∧ slot.value = map) ∧
        ∀ i, (s.withMap mapkey map').slotmaps.map.slotAt i =
          if i = Key.toIndex mapkey then some { slot with value := map' }
          else s.slotmaps.map.slotAt i := by
  obtain ⟨slot, hs, hv⟩ := h.of_getMap hg
  exact ⟨slot, ⟨hs, hv⟩, SlotMap.slotAt_of_write rfl hs⟩

theorem withMap (h : Inv s) (hg : s.getMap mapkey = .ok map) {map' : LockedSlotmap (BitVec 32)}
    (hm : map.map.MapInv → map'.map.MapInv) : Inv (s.withMap mapkey map') := by
  obtain ⟨slot, ⟨hs, rfl⟩, hat⟩ := h.slotAt_withMap hg map'
  refine ⟨h.slotmaps.write_value hs map', ?_⟩
  intro i slot' hs' ht'
  rw [hat] at hs'
  split_ifs at hs' with hi
  · obtain rfl := Option.some.inj hs'
    exact hm (h.map _ slot hs ht')
  · exact h.map i slot' hs' ht'

/-- `recomputil_create_u32_slotmap` -/
theorem createMap (h : Inv s) : Inv s.createU32Slotmap.2 := by
  obtain ⟨index, version, hem, -, hinv⟩ :=
    h.slotmaps.emplace (⟨.empty⟩ : LockedSlotmap (BitVec 32))
  refine ⟨hinv, ?_⟩
  intro i slot hs ht
  rw [show s.createU32Slotmap.2.slotmaps.map.slotAt i = _ from hem.slotAt i] at hs
  split_ifs at hs with hi
  · obtain rfl := Option.some.inj hs
    exact .empty
  · exact h.map i slot hs ht

/-- `recomputil_destroy_u32_slotmap` -/
theorem destroyMap (h : Inv s) (mapkey : ℕ) :
    Inv { s with slotmaps := (s.slotmaps.erase mapkey).2 } := by
  have hmap := LockedSlotmap.map_erase s.slotmaps mapkey
  obtain ⟨hinv, hcase⟩ := h.slotmaps.eraseImpl true mapkey
  refine ⟨hmap ▸ hinv, ?_⟩
  intro i slot hs htomb
  dsimp only at hs
  rw [hmap] at hs
  obtain ⟨slot₀, slot₁, hrem, -⟩ | ⟨he, -⟩ := hcase
  · rw [show (s.slotmaps.map.erase mapkey).slotAt i = _ from hrem.slotAt i] at hs
    split_ifs at hs with hi
    · obtain rfl := Option.some.inj hs
      exact absurd (htomb.symm.trans hrem.tombstone) (by decide)
    · exact h.map i slot hs htomb
  · rw [show s.slotmaps.map.erase mapkey = _ from he] at hs
    exact h.map i slot hs htomb

/-- `recomputil_u32_slotmap_create` -/
theorem create (h : Inv s) (mapkey : ℕ) :
    Settles (fun _ => True) (fun r => Inv r.2) (s.u32SlotmapCreate mapkey) := by
  refine .bind (.self _) fun map hg => ?_
  exact h.withMap hg fun hm => (hm.emplace 0).choose_spec.choose_spec.2.2

/-- `recomputil_u32_slotmap_get` -/
theorem get (h : Inv s) (mapkey key : ℕ) (valOut : BitVec 32) :
    Settles (fun _ => True) (fun r => Inv r.2) (s.u32SlotmapGet mapkey key valOut) := by
  refine .bind (.self _) fun map hg => ?_
  cases map.get key with
  | none => exact trivial
  | some slot => exact ⟨h.slotmaps, h.map⟩

/-- `recomputil_u32_slotmap_set` -/
theorem set (h : Inv s) (mapkey key : ℕ) (value : BitVec 32) :
    Settles (fun _ => True) (fun r => Inv r.2) (s.u32SlotmapSet mapkey key value) := by
  refine .bind (.self _) fun map hg => ?_
  cases hkey : map.get key with
  | none => exact trivial
  | some slot => exact h.withMap hg fun hm => hm.write_value (hm.of_getImpl hkey).1 value

/-- `recomputil_u32_slotmap_erase` -/
theorem erase (h : Inv s) (mapkey key : ℕ) :
    Settles (fun _ => True) (fun r => Inv r.2) (s.u32SlotmapErase mapkey key) := by
  refine .bind (.self _) fun map hg => ?_
  have herase : map.map.MapInv → (map.erase key).2.map.MapInv := fun hm => by
    rw [LockedSlotmap.map_erase]
    exact hm.erase key
  exact h.withMap hg herase

/-- **The step lemma.** -/
theorem call (h : Inv s) (a : Call) : Settles (fun _ => True) Inv (s.call a) := by
  cases a with
  | createMap => exact h.createMap
  | destroyMap mapkey =>
      unfold U32Slotmaps.call destroyU32Slotmap
      dsimp only
      split_ifs
      · exact h.destroyMap mapkey
      · exact trivial
  | contains mapkey key => exact .bind (.self _) fun _ _ => h
  | create mapkey => exact .bind (h.create mapkey) fun _ hr => hr
  | get mapkey key valOut => exact .bind (h.get mapkey key valOut) fun _ hr => hr
  | set mapkey key value => exact .bind (h.set mapkey key value) fun _ hr => hr
  | erase mapkey key => exact .bind (h.erase mapkey key) fun _ hr => hr
  | size mapkey => exact .bind (.self _) fun _ _ => h
  | game rdram => exact ⟨h.slotmaps, h.map⟩

end Inv

/-- **The run lemma.** -/
theorem Reachable.inv {s : U32Slotmaps} (h : Reachable s) : Inv s := by
  refine Runs.Reach.invariant (I := Inv) ?_ (fun s a t hs _ hst => (hs.call a).of_ok hst) h
  intro s hs
  refine ⟨hs ▸ .empty, fun i slot hi => ?_⟩
  rw [hs] at hi
  simp at hi

/-! ### The result -/

section Result

variable {s : U32Slotmaps} {mapkey key : ℕ} {map : LockedSlotmap (BitVec 32)}

/-- A handle that leads to its map. -/
theorem getMap_of_leadsTo (h : Inv s) {outer : Slot (LockedSlotmap (BitVec 32))}
    (hv : s.slotmaps.map.LeadsTo mapkey outer) : s.getMap mapkey = .ok outer.value := by
  unfold getMap
  rw [show s.slotmaps.get mapkey = _ from hv.getImpl h.slotmaps]

/-- `get` of a key that the map finds no slot for. -/
theorem get_of_none (hg : s.getMap mapkey = .ok map) (hnone : map.get key = none)
    (valOut : BitVec 32) : s.u32SlotmapGet mapkey key valOut = .error .nullPointer := by
  unfold u32SlotmapGet
  simp only [hg, bind, Except.bind, hnone]
  rfl

/-- `get` of a key that the map finds a slot for. -/
theorem get_of_some (hg : s.getMap mapkey = .ok map) {slot : Slot (BitVec 32)}
    (hkey : map.get key = some slot) (valOut : BitVec 32) : s.u32SlotmapGet mapkey key valOut =
      .ok (1, { s with rdram := s.rdram.writeW 0 (valOut.signExtend 64) slot.value }) := by
  unfold u32SlotmapGet
  simp only [hg, bind, Except.bind, hkey]
  rfl

/-- `set` of such a key. -/
theorem set_of_some (hg : s.getMap mapkey = .ok map) {slot : Slot (BitVec 32)}
    (hkey : map.get key = some slot) (value : BitVec 32) : s.u32SlotmapSet mapkey key value =
      .ok (1, s.withMap mapkey (map.update key fun _ => value)) := by
  unfold u32SlotmapSet
  simp only [hg, bind, Except.bind, hkey]
  rfl

/-- `erase` of any key. -/
theorem erase_eq (hg : s.getMap mapkey = .ok map) (key : ℕ) :
    s.u32SlotmapErase mapkey key = .ok (1, s.withMap mapkey (map.erase key).2) := by
  unfold u32SlotmapErase
  rw [hg]
  rfl

/-- The map is read back from the state. -/
theorem withMap_inj (h : Inv s) (hg : s.getMap mapkey = .ok map)
    {map₁ map₂ : LockedSlotmap (BitVec 32)} (he : s.withMap mapkey map₁ = s.withMap mapkey map₂) :
    map₁ = map₂ := by
  obtain ⟨slot, ⟨hs, -⟩, hat₁⟩ := h.slotAt_withMap hg map₁
  obtain ⟨slot₂, -, hat₂⟩ := h.slotAt_withMap hg map₂
  have h₁ := hat₁ (Key.toIndex mapkey)
  have h₂ := hat₂ (Key.toIndex mapkey)
  rw [if_pos rfl] at h₁ h₂
  rw [he, h₂] at h₁
  exact (congrArg Slot.value (Option.some.inj h₁)).symm

/-- When `erase` is up to its purpose, the elements with the key are where the key leads to. -/
theorem OpsOk.index_eq (hok : OpsOk s mapkey map key) (h : Inv s) (hm : map.map.MapInv)
    (hg : s.getMap mapkey = .ok map) {index : ℕ} {slot : Slot (BitVec 32)}
    (hholds : map.map.Holds key index slot) : index = Key.toIndex key := by
  obtain ⟨map', slot', hcall, -, -, ht, hat⟩ := hok.erase index slot hholds
  rw [erase_eq hg] at hcall
  obtain rfl := withMap_inj h hg (Prod.mk.inj (Except.ok.inj hcall)).2
  by_contra hne
  have hsame : (map.erase key).2.map.slotAt index = some slot := by
    rw [LockedSlotmap.map_erase, SlotMap.erase]
    obtain ⟨-, ⟨slot₁, slot₂, hrem, -⟩ | ⟨he, -⟩⟩ := hm.eraseImpl true key
    · rw [hrem.slotAt, if_neg hne, hholds.slotAt]
    · rw [he, hholds.slotAt]
  rw [hat, if_pos rfl] at hsame
  obtain rfl := Option.some.inj hsame
  exact absurd (ht.symm.trans hholds.alive) (by decide)

/-- Functions that are up to their purpose belong to a key that leads to its element. -/
theorem OpsOk.identifies (hok : OpsOk s mapkey map key) (h : Inv s) (hm : map.map.MapInv)
    (hg : s.getMap mapkey = .ok map) : map.map.Identifies key := by
  refine ⟨?_, fun index slot hholds => hok.index_eq h hm hg hholds⟩
  cases hkey : map.get key with
  | none =>
      have hstop := get_of_none hg hkey 0
      by_cases hlive : map.map.Live key
      · obtain ⟨index, slot, hholds⟩ := hlive
        have := hstop.symm.trans (hok.get index slot hholds 0)
        cases this
      · have := hstop.symm.trans ((hok.dead hlive).1 0)
        cases this
  | some slot =>
      obtain ⟨hs, hversion⟩ := hm.of_getImpl hkey
      by_cases hlive : map.map.Live key
      · obtain ⟨index, slot₁, hholds⟩ := hlive
        obtain rfl := hok.index_eq h hm hg hholds
        obtain rfl := Option.some.inj (hs.symm.trans hholds.slotAt)
        exact ⟨slot, hs, hholds.alive, hversion⟩
      · -- the slot is free, and waits under the version of the key
        have hcall := (get_of_some hg hkey 0).symm.trans ((hok.dead hlive).1 0)
        have hone : (1 : BitVec 32) = 0 := (Prod.mk.inj (Except.ok.inj hcall)).1
        exact absurd hone (by decide)

/-- The functions on a key that leads to its element do what they are for. -/
theorem opsOk_of_identifies (hm : map.map.MapInv) (hg : s.getMap mapkey = .ok map)
    (hkeyOk : map.map.Identifies key) : OpsOk s mapkey map key := by
  obtain ⟨⟨slot, hleads⟩, honly⟩ := hkeyOk
  have hkey : map.get key = some slot := hleads.getImpl hm
  have hself : ∀ {index : ℕ} {slot₁ : Slot (BitVec 32)}, map.map.Holds key index slot₁ →
      index = Key.toIndex key ∧ slot₁ = slot := by
    intro index slot₁ hholds
    obtain rfl := honly index slot₁ hholds
    exact ⟨rfl, Option.some.inj (hholds.slotAt.symm.trans hleads.slotAt)⟩
  refine ⟨?_, ?_, ?_, fun hdead => absurd ⟨_, slot, hleads.holds⟩ hdead⟩
  · intro index slot₁ hholds valOut
    obtain ⟨-, rfl⟩ := hself hholds
    exact get_of_some hg hkey valOut
  · intro index slot₁ hholds value
    obtain ⟨rfl, rfl⟩ := hself hholds
    exact ⟨_, set_of_some hg hkey value, rfl, SlotMap.slotAt_of_write rfl hleads.slotAt⟩
  · intro index slot₁ hholds
    obtain ⟨rfl, rfl⟩ := hself hholds
    obtain ⟨slot', hrem, hsize⟩ := hm.removed hleads.slotAt hleads.alive hleads.version_eq
    have hmap := LockedSlotmap.map_erase map key
    have hat : ∀ i, (map.erase key).2.map.slotAt i =
        if i = Key.toIndex key then some slot' else map.map.slotAt i := hmap ▸ hrem.slotAt
    refine ⟨_, slot', erase_eq hg key, ?_, ?_, hrem.tombstone, hat⟩
    · rw [LockedSlotmap.size, hmap]
      exact hsize
    · rintro ⟨i, slot₂, hholds₂⟩
      have hs₂ := (hat i).symm.trans hholds₂.slotAt
      split_ifs at hs₂ with hi
      · obtain rfl := Option.some.inj hs₂
        exact absurd (hrem.tombstone.symm.trans hholds₂.alive) (by decide)
      · exact hi (honly i slot₂ ⟨hs₂, hholds₂.alive, hholds₂.key_eq⟩)

/-- **The functions on a key do what they are for when the key leads to its element, and never
otherwise.** -/
theorem ops_ok_iff_identifies (h : Reachable s) {outer : Slot (LockedSlotmap (BitVec 32))}
    (hv : s.slotmaps.map.LeadsTo mapkey outer) (key : ℕ) :
    OpsOk s mapkey outer.value key ↔ outer.value.map.Identifies key := by
  have hinv := h.inv
  have hg := getMap_of_leadsTo hinv hv
  have hm := hinv.map _ outer hv.slotAt hv.alive
  exact ⟨fun hok => hok.identifies hinv hm hg, opsOk_of_identifies hm hg⟩

end Result

/-- A map with one key. -/
def oneWord : SlotMap (BitVec 32) := (SlotMap.empty.emplace 0).2

theorem mapInv_oneWord : oneWord.MapInv :=
  (SlotMap.MapInv.empty.emplace 0).choose_spec.choose_spec.2.2

/-- The memory is zero, and there is one map. -/
def oneKey : U32Slotmaps := ⟨⟨(SlotMap.empty.emplace ⟨oneWord⟩).2⟩, fun _ => 0⟩

/-- The key has been erased. -/
def noKey : U32Slotmaps := oneKey.withMap 0x100000 ⟨oneWord.erase 0x100000⟩

theorem reachable_oneKey : Reachable oneKey := by
  have h₀ : Reachable ⟨⟨.empty⟩, fun _ => 0⟩ := .init rfl
  exact (h₀.step .createMap trivial rfl).step (.create 0x100000) trivial rfl

/-- A key that leads to its element. -/
theorem ops_ok_iff_identifies_oneKey : OpsOk oneKey 0x100000 ⟨oneWord⟩ 0x100000 := by
  have hleads : oneKey.slotmaps.map.LeadsTo 0x100000 ⟨1, false, false, ⟨oneWord⟩⟩ :=
    ⟨rfl, rfl, rfl⟩
  refine (ops_ok_iff_identifies reachable_oneKey hleads 0x100000).2 ⟨⟨_, rfl, rfl, rfl⟩, ?_⟩
  intro index slot hholds
  exact Nat.lt_one_iff.1 (mapInv_oneWord.filled.lt_of_slotAt hholds.slotAt)

/-- The key is erased, and read: the program ends in an access through a null pointer. -/
theorem get_erased_key :
    ¬ ∀ s : U32Slotmaps, Reachable s → ∀ mapkey outer, s.slotmaps.map.LeadsTo mapkey outer →
      ∀ key < 2 ^ 32, OpsOk s mapkey outer.value key := by
  intro h
  have hr : Reachable noKey := reachable_oneKey.step (.erase 0x100000 0x100000) trivial rfl
  have hleads : noKey.slotmaps.map.LeadsTo 0x100000
      ⟨1, false, false, ⟨oneWord.erase 0x100000⟩⟩ := ⟨rfl, rfl, rfl⟩
  have hok := h noKey hr 0x100000 _ hleads 0x100000 (by decide)
  have hdead : ¬ (oneWord.erase 0x100000).Live 0x100000 := by
    rintro ⟨index, slot, hs, ht, -⟩
    obtain rfl : index = 0 :=
      Nat.lt_one_iff.1 ((mapInv_oneWord.erase 0x100000).filled.lt_of_slotAt hs)
    obtain rfl := Option.some.inj hs
    cases ht
  have hstop : noKey.u32SlotmapGet 0x100000 0x100000 0 = .error .nullPointer := rfl
  cases hstop.symm.trans ((hok.dead hdead).1 0)

end U32Slotmaps

end Data
