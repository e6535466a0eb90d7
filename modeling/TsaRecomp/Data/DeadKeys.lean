/-
**The keys that a table rejects.**

`LockedSlotmap` rejects a key when `get` of the slot map finds no slot of the version in the key.
That is not the whole of what makes a key dead: `erase` raises the version of the slot at once, so
that a freed slot waits under the version of its next life, and the key of a life that has not begun
is accepted.  `get` asserts that the slot is not a tombstone, and neither `get` nor `has_key` test
it; `erase` of such a key answers true and erases nothing.

The other way round, a key that is in use is rejected when the slot with its index does not have its
version: the version field of a key has no room for the version 0x400, and the index field has none
for indices from 2^20 on.

Main definitions:

* `Data.SlotMap.Holds`, `Data.SlotMap.LeadsTo`, `Data.SlotMap.Identifies` — the elements with a key,
  and the keys that lead to their element;
* `Data.LockedSlotmap.eraseFirst`, `Data.LockedSlotmap.clear`, `Data.LockedSlotmap.size` — the other
  methods;
* `Data.SlotmapTrace` — a `LockedSlotmap` with the keys it has handed out;
* `Data.SlotmapTrace.Live` — a key that is in use;
* `Data.SlotmapTrace.Exact` — **the check is exact** for a key;
* `Data.SlotmapTrace.KeyOk` — the keys for which it is.

Main results:

* `Data.SlotmapTrace.exact_iff_keyOk` — in every reachable state, the check is exact for these keys
  and for no others.
-/

import TsaRecomp.Data.HandleTable
import TsaRecomp.Data.SlotMapClear

set_option relaxedAutoImplicit false
set_option autoImplicit false

namespace Data

/-! ### Keys and their slots -/

namespace SlotMap

variable {T : Type} {m : SlotMap T} {key : ℕ} {slot : Slot T}

/-- The slot at an index holds an element with this key.  Keys are compared on their version and
their index. -/
structure Holds (m : SlotMap T) (key index : ℕ) (slot : Slot T) : Prop where
  slotAt : m.slotAt index = some slot
  alive : slot.tombstone = false
  key_eq : key % 2 ^ 30 = Key.make slot.version index

/-- A key that is in use. -/
def Live (m : SlotMap T) (key : ℕ) : Prop := ∃ index slot, m.Holds key index slot

/-- The slot with the index of the key holds an element, and has the version of the key. -/
structure LeadsTo (m : SlotMap T) (key : ℕ) (slot : Slot T) : Prop where
  slotAt : m.slotAt (Key.toIndex key) = some slot
  alive : slot.tombstone = false
  version_eq : slot.version = Key.toVersion key

/-- **The key leads to its element**, and to the only one. -/
structure Identifies (m : SlotMap T) (key : ℕ) : Prop where
  leads : ∃ slot, m.LeadsTo key slot
  only : ∀ index slot, m.Holds key index slot → index = Key.toIndex key

theorem LeadsTo.holds (h : m.LeadsTo key slot) : m.Holds key (Key.toIndex key) slot :=
  ⟨h.slotAt, h.alive, by rw [h.version_eq, Key.mod_eq_make]⟩

theorem LeadsTo.getImpl (h : m.LeadsTo key slot) (hm : m.MapInv) : m.getImpl key = some slot :=
  hm.getImpl_of_match h.slotAt h.version_eq

/-- The slot that the pointer leads to has the index and the version of the key. -/
theorem MapInv.of_getImpl (hm : m.MapInv) (hg : m.getImpl key = some slot) :
    m.slotAt (Key.toIndex key) = some slot ∧ slot.version = Key.toVersion key := by
  rw [hm.getImpl_eq, Option.filter_eq_some_iff] at hg
  exact ⟨hg.1, by simpa using hg.2⟩

end SlotMap

/-! ### The other methods -/

namespace LockedSlotmap

variable {ValueType : Type}

/-- `clear` -/
def clear (s : LockedSlotmap ValueType) : LockedSlotmap ValueType := { s with map := s.map.clear }

/-- `erase_first`, with the value that it moves to `out` when it answers true. -/
def eraseFirst (s : LockedSlotmap ValueType) : Option ValueType × LockedSlotmap ValueType :=
  let index := s.map.itemsBegin
  if index = s.map.itemsEnd then (none, s)
  else
    match s.map.slotAt index with
    -- the iterator does not stop at such an index
    | none => (none, s)
    | some slot =>
        (some slot.value, { s with map := s.map.erase (Key.make slot.version index) })

/-- `size` -/
def size (s : LockedSlotmap ValueType) : ℕ := s.map.numItems

/-- A write through the pointer that `get` answers with. -/
def store (s : LockedSlotmap ValueType) (key : ℕ) (value : ValueType) : LockedSlotmap ValueType :=
  if (s.get key).isSome then
    { s with map := s.map.modifySlot (Key.toIndex key) fun slot => { slot with value } }
  else s

end LockedSlotmap

/-! ### Runs -/

/-- A `LockedSlotmap`, with the keys that it has handed out, newest first. -/
structure SlotmapTrace (ValueType : Type) where
  state : LockedSlotmap ValueType
  issued : List ℕ

namespace SlotmapTrace

variable {ValueType : Type}

/-- A call of a method, with any key, or a write to a value. -/
inductive Act (ValueType : Type)
  | create (value : ValueType)
  | erase (key : ℕ)
  | eraseFirst
  | clear
  | store (key : ℕ) (value : ValueType)
  deriving DecidableEq, Repr

def next (s : SlotmapTrace ValueType) : Act ValueType → SlotmapTrace ValueType
  | .create value => ⟨(s.state.create value).2, (s.state.create value).1 :: s.issued⟩
  | .erase key => ⟨(s.state.erase key).2, s.issued⟩
  | .eraseFirst => ⟨s.state.eraseFirst.2, s.issued⟩
  | .clear => ⟨s.state.clear, s.issued⟩
  | .store key value => ⟨s.state.store key value, s.issued⟩

/-- A `LockedSlotmap` as it is constructed. -/
def init : SlotmapTrace ValueType := ⟨⟨.empty⟩, []⟩

/-- The states of all runs. -/
abbrev Reachable (s : SlotmapTrace ValueType) : Prop :=
  Runs.Reach (fun s a t => t = s.next a) (fun s => s = init) (fun _ _ => True) s

theorem Reachable.init : Reachable (init : SlotmapTrace ValueType) := Runs.Reach.init rfl

theorem Reachable.next {s : SlotmapTrace ValueType} (h : Reachable s) (a : Act ValueType) :
    Reachable (s.next a) := Runs.Reach.step h a trivial rfl

/-- **A key that is in use**: it has been handed out, for an element that is there.  Keys are
compared on their version and their index. -/
def Live (s : SlotmapTrace ValueType) (key : ℕ) : Prop :=
  key % 2 ^ 30 ∈ s.issued ∧ ∃ index slot, s.state.map.slotAt index = some slot ∧
    slot.tombstone = false ∧ key % 2 ^ 30 = Key.make slot.version index

/-- **The check is exact** for a key: it is rejected when it is dead, and its element is erased when
it is alive. -/
structure Exact (s : SlotmapTrace ValueType) (key : ℕ) : Prop where
  dead : ¬ s.Live key → s.state.get key = none ∧ s.state.erase key = (false, s.state)
  live : s.Live key →
    (s.state.erase key).1 = true ∧ (s.state.erase key).2.size + 1 = s.state.size

/-- The slot with the index of the key does not wait freed under the version of the key; and if the
key is in use, the slot has this version. -/
structure KeyOk (s : SlotmapTrace ValueType) (key : ℕ) : Prop where
  dead : ∀ slot ∈ s.state.map.slotAt (Key.toIndex key),
    slot.version = Key.toVersion key → slot.tombstone = false
  live : s.Live key → ∃ slot ∈ s.state.map.slotAt (Key.toIndex key),
    slot.version = Key.toVersion key

/-! ### The invariant -/

/-- The elements of `m'` are elements of `m`, in the same lives of the same slots. -/
def Outlived (m m' : SlotMap ValueType) : Prop :=
  ∀ i slot', m'.slotAt i = some slot' → slot'.tombstone = false →
    ∃ slot, m.slotAt i = some slot ∧ slot.tombstone = false ∧ slot.version = slot'.version

theorem Outlived.refl (m : SlotMap ValueType) : Outlived m m :=
  fun _ slot hs ht => ⟨slot, hs, ht, rfl⟩

theorem Outlived.trans {m m' m'' : SlotMap ValueType} (h : Outlived m m') (h' : Outlived m' m'') :
    Outlived m m'' := by
  intro i slot'' hs'' ht''
  obtain ⟨slot', hs', ht', hv'⟩ := h' i slot'' hs'' ht''
  obtain ⟨slot, hs, ht, hv⟩ := h i slot' hs' ht'
  exact ⟨slot, hs, ht, hv.trans hv'⟩

theorem Outlived.eraseImpl {m : SlotMap ValueType} (h : m.MapInv) (check : Bool) (k : ℕ) :
    Outlived m (m.eraseImpl check k).2 := by
  obtain ⟨-, ⟨slot, slot', hrem, -⟩ | ⟨he, -⟩⟩ := h.eraseImpl check k
  · intro i s hs ht
    rw [hrem.slotAt] at hs
    split_ifs at hs with hi
    · obtain rfl := Option.some.inj hs
      exact absurd (ht.symm.trans hrem.tombstone) (by decide)
    · exact ⟨s, hs, ht, rfl⟩
  · rw [he]
    exact .refl m

theorem Outlived.clear {m : SlotMap ValueType} (h : m.MapInv) : Outlived m m.clear := by
  have key : m.clear.MapInv ∧ Outlived m m.clear :=
    SlotMap.clear_rule (P := fun m' => m'.MapInv ∧ Outlived m m')
      (fun m' k hm => ⟨(hm.1.eraseImpl false k).1, hm.2.trans (.eraseImpl hm.1 false k)⟩)
      ⟨h, .refl m⟩
  exact key.2

/-- The map is well-formed, and the keys of its elements have been handed out. -/
structure Inv (s : SlotmapTrace ValueType) : Prop where
  map : s.state.map.MapInv
  issued : ∀ i slot, s.state.map.slotAt i = some slot → slot.tombstone = false →
    Key.make slot.version i ∈ s.issued

namespace Inv

variable {s : SlotmapTrace ValueType}

/-- A method that creates nothing. -/
theorem of_outlived (h : Inv s) {state : LockedSlotmap ValueType} (hm : state.map.MapInv)
    (ho : Outlived s.state.map state.map) : Inv ⟨state, s.issued⟩ := by
  refine ⟨hm, ?_⟩
  intro i slot' hs' ht'
  obtain ⟨slot, hs, ht, hv⟩ := ho i slot' hs' ht'
  rw [← hv]
  exact h.issued i slot hs ht

theorem erase (h : Inv s) (key : ℕ) : Inv (s.next (.erase key)) := by
  refine h.of_outlived ?_ ?_ <;> rw [LockedSlotmap.map_erase]
  · exact h.map.erase key
  · exact .eraseImpl h.map true key

theorem create (h : Inv s) (value : ValueType) : Inv (s.next (.create value)) := by
  obtain ⟨index, version, hem, -, hinv⟩ := h.map.emplace value
  refine ⟨hinv, ?_⟩
  intro i slot hs ht
  have hat := hem.slotAt i
  rw [show (s.next (.create value)).state.map.slotAt i = (s.state.map.emplace value).2.slotAt i
    from rfl, hat] at hs
  split_ifs at hs with hi
  · obtain rfl := Option.some.inj hs
    exact List.mem_cons.2 (Or.inl (by rw [hi]; exact hem.key.symm))
  · exact List.mem_cons_of_mem _ (h.issued i slot hs ht)

theorem eraseFirst (h : Inv s) : Inv (s.next .eraseFirst) := by
  refine h.of_outlived ?_ ?_ <;> unfold LockedSlotmap.eraseFirst <;> dsimp only <;>
    split_ifs
  · exact h.map
  · split
    · exact h.map
    · exact h.map.erase _
  · exact .refl _
  · split
    · exact .refl _
    · exact .eraseImpl h.map true _

/-- A pointer leads to a slot. -/
theorem exists_slotAt (h : Inv s) {key : ℕ} (hget : (s.state.get key).isSome = true) :
    ∃ slot, s.state.map.slotAt (Key.toIndex key) = some slot := by
  obtain ⟨slot, hslot⟩ := Option.isSome_iff_exists.1 hget
  rw [LockedSlotmap.get, h.map.getImpl_eq] at hslot
  exact ⟨slot, (Option.filter_eq_some_iff.1 hslot).1⟩

theorem store (h : Inv s) (key : ℕ) (value : ValueType) : Inv (s.next (.store key value)) := by
  refine h.of_outlived ?_ ?_ <;> unfold LockedSlotmap.store <;> split_ifs with hget
  · obtain ⟨slot, hslot⟩ := h.exists_slotAt hget
    exact h.map.write_value hslot value
  · exact h.map
  · obtain ⟨slot, hslot⟩ := h.exists_slotAt hget
    intro i s' hs' ht'
    have hat := SlotMap.slotAt_of_write (f := fun s => { s with value := value }) rfl hslot i
    rw [show SlotMap.slotAt _ i = _ from hat] at hs'
    split_ifs at hs' with hi
    · obtain rfl := Option.some.inj hs'
      exact ⟨slot, hi ▸ hslot, ht', rfl⟩
    · exact ⟨s', hs', ht', rfl⟩
  · exact .refl _

/-- **The step lemma.** -/
theorem next (h : Inv s) (a : Act ValueType) : Inv (s.next a) := by
  cases a with
  | create value => exact h.create value
  | erase key => exact h.erase key
  | eraseFirst => exact h.eraseFirst
  | clear => exact h.of_outlived h.map.clear (.clear h.map)
  | store key value => exact h.store key value

end Inv

/-- **The run lemma.** -/
theorem Reachable.inv {s : SlotmapTrace ValueType} (h : Reachable s) : Inv s := by
  refine Runs.Reach.invariant (I := Inv) ?_ ?_ h
  · rintro s rfl
    exact ⟨.empty, fun i slot hs => by simp [SlotmapTrace.init] at hs⟩
  · rintro s a t hs - rfl
    exact hs.next a

/-! ### The check -/

section Check

variable {s : SlotmapTrace ValueType} {key : ℕ}

/-- A key that leads to an element is in use. -/
theorem Inv.live (h : Inv s) {slot : Slot ValueType}
    (hs : s.state.map.slotAt (Key.toIndex key) = some slot)
    (hv : slot.version = Key.toVersion key) (ht : slot.tombstone = false) : s.Live key := by
  have hkey : key % 2 ^ 30 = Key.make slot.version (Key.toIndex key) := by rw [hv, Key.mod_eq_make]
  refine ⟨?_, Key.toIndex key, slot, hs, ht, hkey⟩
  rw [hkey]
  exact h.issued _ slot hs ht

/-- `erase` asks `get` first. -/
theorem erase_eq (state : LockedSlotmap ValueType) (key : ℕ) : state.erase key =
    if (state.get key).isSome then (true, { state with map := state.map.erase key })
    else (false, state) := by
  rw [LockedSlotmap.erase, SlotMap.MapInv.hasKey_eq, LockedSlotmap.get]
  cases (state.map.getImpl key).isSome <;> rfl

/-- **The check is exact for these keys and for no others.** -/
theorem exact_iff_keyOk (h : Reachable s) (key : ℕ) : s.Exact key ↔ s.KeyOk key := by
  have hinv := h.inv
  by_cases hmatch : ∃ slot, s.state.map.slotAt (Key.toIndex key) = some slot ∧
      slot.version = Key.toVersion key
  · obtain ⟨slot, hs, hv⟩ := hmatch
    have hget : s.state.get key = some slot := hinv.map.getImpl_of_match hs hv
    have herase : s.state.erase key = (true, { s.state with map := s.state.map.erase key }) := by
      rw [erase_eq, hget]
      rfl
    by_cases ht : slot.tombstone = true
    · -- the key is for the next life of the slot
      refine iff_of_false ?_ fun hok => absurd (ht.symm.trans (hok.dead slot hs hv)) (by decide)
      intro hexact
      by_cases hlive : s.Live key
      · have hsize := (hexact.live hlive).2
        have hsame : s.state.map.erase key = s.state.map :=
          SlotMap.MapInv.eraseImpl_notFound fun slot' hv' => by
            obtain rfl := Option.some.inj
              (hs.symm.trans (SlotMap.MapInv.slotAt_of_validSlot hv'))
            exact Or.inl ht
        rw [herase, hsame] at hsize
        exact absurd hsize (Nat.succ_ne_self _)
      · rw [(hexact.dead hlive).1] at hget
        cases hget
    · rw [Bool.not_eq_true] at ht
      have hlive := hinv.live hs hv ht
      refine iff_of_true ⟨fun hdead => absurd hlive hdead, fun _ => ?_⟩ ⟨?_, fun _ => ⟨slot, hs, hv⟩⟩
      · obtain ⟨-, -, hsize⟩ := hinv.map.removed hs ht hv
        rw [herase]
        exact ⟨rfl, hsize⟩
      · intro slot' hs' _
        obtain rfl := Option.some.inj (hs.symm.trans hs')
        exact ht
  · have hnone : ∀ slot ∈ s.state.map.slotAt (Key.toIndex key),
        slot.version ≠ Key.toVersion key := fun slot hs hv => hmatch ⟨slot, hs, hv⟩
    have hget : s.state.get key = none := hinv.map.getImpl_of_noMatch hnone
    have herase : s.state.erase key = (false, s.state) := by
      rw [erase_eq, hget]
      rfl
    constructor
    · intro hexact
      refine ⟨fun slot hs hv => absurd hv (hnone slot hs), fun hlive => ?_⟩
      have := (hexact.live hlive).1
      rw [herase] at this
      cases this
    · intro hok
      refine ⟨fun _ => ⟨hget, herase⟩, fun hlive => ?_⟩
      obtain ⟨slot, hs, hv⟩ := hok.live hlive
      exact absurd hv (hnone slot hs)

end Check

/-- A key of a slot that holds an element. -/
theorem exact_iff_keyOk_first :
    ((init.next (.create 5)).Exact 0x100000 ↔ (init.next (.create 5)).KeyOk 0x100000) ∧
      (init.next (.create 5)).Live 0x100000 := by
  have hr : Reachable (init.next (.create 5)) := Reachable.init.next _
  exact ⟨exact_iff_keyOk hr 0x100000, by decide, 0, ⟨1, false, false, 5⟩, rfl, rfl, by decide⟩

/-- The key of the next life of a freed slot: `get` answers with the erased element, and `erase`
answers true. -/
theorem dead_key_accepted :
    ¬ ∀ s : SlotmapTrace ℕ, Reachable s → ∀ key < 2 ^ 32, s.Exact key := by
  intro h
  have hr : Reachable ((init.next (.create 5)).next (.erase 0x100000)) :=
    (Reachable.init.next _).next _
  have hexact := h _ hr 0x200000 (by decide)
  have hdead : ¬ ((init.next (.create 5)).next (.erase 0x100000)).Live 0x200000 := by
    rintro ⟨hmem, -⟩
    exact absurd hmem (by decide)
  exact absurd (hexact.dead hdead).1 (by decide)

end SlotmapTrace

end Data
