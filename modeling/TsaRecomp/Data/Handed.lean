/-
**Handles that are taken from `create`.**

The test that a table makes on a handle lets one kind of dead handle pass, the handle of a life that
has not begun.  A caller that only uses handles which the table has answered with never has one of
these: an accepted handle leads to an object.  This holds in every run of `create` and `destroy`,
also when the versions of a slot are used up and when there are more slots than indices: there a new
handle may lead to nothing, or to another object.

Main definitions:

* `Data.SlotMap.Handed` — **the invariant**: a slot map, and the handles it has answered with.

Main results:

* `Data.SlotMap.Handed.emplace`, `Data.SlotMap.Handed.erase`, `Data.SlotMap.Handed.write` — it is
  kept;
* `Data.SlotMap.Handed.alive` — an accepted handle leads to an object;
* `Data.SlotMap.Handed.unique` — accepted handles to one slot are equal.
-/

import TsaRecomp.Data.SlotMapInv

set_option relaxedAutoImplicit false
set_option autoImplicit false

namespace Data

namespace SlotMap

variable {T : Type}

/-- The element of a slot. -/
def elementAt (m : SlotMap T) (index : ℕ) : Option T := (m.slotAt index).bind Slot.element?

/-- A write to the value of the slot that a key leads to. -/
def modifyValue (m : SlotMap T) (k : ℕ) (f : T → T) : SlotMap T :=
  m.modifySlot (Key.toIndex k) fun slot => { slot with value := f slot.value }

/-- **The invariant** of a slot map and the handles that it has answered with: each of them is for
the present life of a slot, or for one that is over. -/
structure Handed (m : SlotMap T) (issued : List ℕ) : Prop where
  slots : SlotInv m
  handle : ∀ h ∈ issued, h < 2 ^ 30 ∧ ∃ slot, m.slotAt (Key.toIndex h) = some slot ∧
    Key.toVersion h ≤ slot.version ∧ (slot.tombstone = true → Key.toVersion h < slot.version)
  /-- The first life of a free slot is over. -/
  reused : ∀ i slot, m.slotAt i = some slot → slot.tombstone = true →
    Key.kMinVersion < slot.version

namespace Handed

variable {m m' : SlotMap T} {issued : List ℕ}

theorem empty : Handed (SlotMap.empty : SlotMap T) [] :=
  ⟨.empty, fun _ h => (List.not_mem_nil h).elim, fun i slot h => by simp at h⟩

/-- A slot that lives on, or ends its life, keeps the handles to it. -/
theorem kept (h : Handed m issued) {k : ℕ} (hk : k ∈ issued) {slot' : Slot T}
    (hs' : m'.slotAt (Key.toIndex k) = some slot')
    (hmono : ∀ slot, m.slotAt (Key.toIndex k) = some slot → slot.version ≤ slot'.version ∧
      (slot'.tombstone = true → slot.tombstone = true ∨ slot.version < slot'.version)) :
    k < 2 ^ 30 ∧ ∃ slot, m'.slotAt (Key.toIndex k) = some slot ∧
      Key.toVersion k ≤ slot.version ∧ (slot.tombstone = true → Key.toVersion k < slot.version) := by
  obtain ⟨hlt, slot, hs, hle, ht⟩ := h.handle k hk
  obtain ⟨hv, hend⟩ := hmono slot hs
  refine ⟨hlt, slot', hs', hle.trans hv, fun ht' => ?_⟩
  rcases hend ht' with htomb | hlt'
  · exact (ht htomb).trans_le hv
  · exact hle.trans_lt hlt'

/-- **`emplace`** -/
theorem emplace (h : Handed m issued) (value : T) :
    Handed (m.emplace value).2 ((m.emplace value).1 :: issued) := by
  obtain ⟨index, version, hem, hinv⟩ := h.slots.emplace value
  generalize m.emplace value = r at *
  obtain ⟨k, m'⟩ := r
  dsimp only at *
  have hself : m'.slotAt index = some ⟨version, false, false, value⟩ := by
    rw [hem.slotAt, if_pos rfl]
  have hkey : k = Key.make version index := hem.key
  refine ⟨hinv, ?_, ?_⟩
  · intro k' hk'
    rcases List.mem_cons.1 hk' with rfl | hk'
    · refine ⟨hkey ▸ Key.make_lt _ _, ?_⟩
      rw [hkey, Key.toIndex_make, Key.toVersion_make]
      by_cases hfits : index % 2 ^ 20 = index
      · rw [hfits]
        exact ⟨_, hself, Nat.mod_le _ _, fun ht => by cases ht⟩
      · -- a slot behind the last index: the handle is for a slot before it
        rcases hem.index_eq with ⟨-, hi, -, -⟩ | ⟨-, hi, hv, -⟩
        · refine absurd ?_ hfits
          rw [hi, Key.toIndex_eq, Nat.mod_mod]
        · obtain ⟨slot, hs⟩ := h.slots.filled.exists_slotAt (i := index % 2 ^ 20) (by omega)
          have hmin := (h.slots.version _ slot hs).1
          have hfirst : version % 2 ^ 10 = Key.kMinVersion := by rw [hv]; rfl
          refine ⟨slot, ?_, ?_, ?_⟩
          · rw [hem.slotAt, if_neg hfits, hs]
          · rw [hfirst]
            exact hmin
          · intro ht
            rw [hfirst]
            exact h.reused _ slot hs ht
    · obtain ⟨-, slot, hs, -⟩ := h.handle k' hk'
      obtain ⟨slot', hs', hle, hsame⟩ := hem.slot h.slots.filled hs
      refine h.kept hk' hs' fun s hs₀ => ?_
      obtain rfl := Option.some.inj (hs.symm.trans hs₀)
      refine ⟨hle, fun ht' => ?_⟩
      by_cases ht : slot.tombstone = true
      · exact Or.inl ht
      · obtain rfl := hsame (Bool.not_eq_true _ ▸ ht)
        exact Or.inl ht'
  · intro i slot hs ht
    rw [hem.slotAt] at hs
    split_ifs at hs with hi
    · obtain rfl := Option.some.inj hs
      cases ht
    · exact h.reused i slot hs ht

/-- **`erase`** -/
theorem erase (h : Handed m issued) (k : ℕ) : Handed (m.erase k) issued := by
  obtain ⟨hinv, ⟨slot, her⟩ | ⟨he, -⟩⟩ := h.slots.erase k
  · refine ⟨hinv, ?_, ?_⟩
    · intro k' hk'
      obtain ⟨-, s, hs, -⟩ := h.handle k' hk'
      obtain ⟨s', hs', hle, hsame⟩ := her.slot hs
      refine h.kept hk' hs' fun s₀ hs₀ => ?_
      obtain rfl := Option.some.inj (hs.symm.trans hs₀)
      refine ⟨hle, fun ht' => ?_⟩
      by_cases hi : Key.toIndex k' = Key.toIndex k
      · -- the slot that is erased has a new version
        rw [her.slotAt, if_pos hi] at hs'
        obtain rfl := Option.some.inj hs'
        obtain rfl := Option.some.inj ((hi ▸ hs).symm.trans her.found)
        exact Or.inr (Nat.lt_succ_self _)
      · obtain rfl := hsame hi
        exact Or.inl ht'
    · intro i s hs ht
      rw [her.slotAt] at hs
      split_ifs at hs with hi
      · obtain rfl := Option.some.inj hs
        exact Nat.lt_succ_of_le (h.slots.version _ _ her.found).1
      · exact h.reused i s hs ht
  · rw [he]
    exact h

/-- **An accepted handle leads to an object.** -/
theorem alive (h : Handed m issued) {k : ℕ} (hk : k ∈ issued) {slot : Slot T}
    (hg : m.getImpl k = some slot) : m.slotAt (Key.toIndex k) = some slot ∧
      slot.version = Key.toVersion k ∧ slot.tombstone = false := by
  rw [h.slots.getImpl_eq, Option.filter_eq_some_iff] at hg
  have hv : slot.version = Key.toVersion k := by simpa using hg.2
  refine ⟨hg.1, hv, ?_⟩
  obtain ⟨-, s, hs, -, ht⟩ := h.handle k hk
  obtain rfl := Option.some.inj (hs.symm.trans hg.1)
  by_contra htomb
  exact absurd hv (ht (Bool.not_eq_false _ ▸ htomb)).ne'

/-- **Accepted handles to one slot are equal.** -/
theorem unique (h : Handed m issued) {k k' : ℕ} (hk : k ∈ issued) (hk' : k' ∈ issued)
    {slot slot' : Slot T} (hg : m.getImpl k = some slot) (hg' : m.getImpl k' = some slot')
    (hi : Key.toIndex k = Key.toIndex k') : k = k' := by
  obtain ⟨hs, hv, -⟩ := h.alive hk hg
  obtain ⟨hs', hv', -⟩ := h.alive hk' hg'
  obtain rfl := Option.some.inj ((hi ▸ hs).symm.trans hs')
  rw [← Key.make_toVersion_toIndex (h.handle k hk).1,
    ← Key.make_toVersion_toIndex (h.handle k' hk').1, hi, ← hv, ← hv']

/-- A write to a value keeps everything else. -/
theorem write (h : Handed m issued) {k : ℕ} {slot : Slot T} (f : T → T)
    (hs : m.slotAt (Key.toIndex k) = some slot) (ht : slot.tombstone = false) :
    Handed (m.modifyValue k f) issued := by
  have hat : ∀ i, (m.modifyValue k f).slotAt i =
      if i = Key.toIndex k then some { slot with value := f slot.value } else m.slotAt i :=
    slotAt_of_write rfl hs
  have hkeep : ∀ i s', (m.modifyValue k f).slotAt i = some s' → ∃ s, m.slotAt i = some s ∧
      s.version = s'.version ∧ s.tombstone = s'.tombstone := by
    intro i s' hs'
    rw [hat] at hs'
    split_ifs at hs' with hi
    · obtain rfl := Option.some.inj hs'
      exact ⟨slot, hi ▸ hs, rfl, rfl⟩
    · exact ⟨s', hs', rfl, rfl⟩
  refine ⟨?_, ?_, ?_⟩
  · refine h.slots.of_modifySlot rfl hs rfl (h.slots.version _ slot hs) (fun k' hk' => ?_)
      h.slots.nodup
    refine Or.inl ⟨hk', fun e => h.slots.notMem_freeIndices hs ht ?_⟩
    exact e ▸ List.mem_map_of_mem hk'
  · intro k' hk'
    obtain ⟨-, s, hs₁, -⟩ := h.handle k' hk'
    have hsome : ∃ s', (m.modifyValue k f).slotAt (Key.toIndex k') = some s' := by
      rw [hat]
      split_ifs
      · exact ⟨_, rfl⟩
      · exact ⟨s, hs₁⟩
    obtain ⟨s', hs'⟩ := hsome
    obtain ⟨s₀, hs₀, hv, htomb⟩ := hkeep _ s' hs'
    refine h.kept hk' hs' fun s₁ hs₁ => ?_
    obtain rfl := Option.some.inj (hs₀.symm.trans hs₁)
    exact ⟨hv.le, fun ht' => Or.inl (htomb.trans ht')⟩
  · intro i s' hs' ht'
    obtain ⟨s, hs₀, hv, htomb⟩ := hkeep i s' hs'
    rw [← hv]
    exact h.reused i s hs₀ (htomb.trans ht')

/-! ### Accepted handles -/

theorem getImpl_of_slotAt (h : SlotInv m) {k : ℕ} {slot : Slot T}
    (hs : m.slotAt (Key.toIndex k) = some slot) (hv : slot.version = Key.toVersion k) :
    m.getImpl k = some slot := by
  rw [h.getImpl_eq, hs, Option.filter_some, if_pos (by simpa using hv)]

/-- An accepted handle is accepted behind `emplace`. -/
theorem getImpl_emplace (h : Handed m issued) (value : T) {k : ℕ} (hk : k ∈ issued) {slot : Slot T}
    (hg : m.getImpl k = some slot) : (m.emplace value).2.getImpl k = some slot := by
  obtain ⟨hs, hv, ht⟩ := h.alive hk hg
  obtain ⟨index, version, hem, hinv⟩ := h.slots.emplace value
  obtain ⟨slot', hs', -, hsame⟩ := hem.slot h.slots.filled hs
  obtain rfl := hsame ht
  exact getImpl_of_slotAt hinv hs' hv

/-- An accepted handle is accepted behind a write, and leads to the new value of its slot. -/
theorem getImpl_write (h : Handed m issued) {k k' : ℕ} (hk : k ∈ issued) (hk' : k' ∈ issued)
    {slot slot' : Slot T} (f : T → T) (hg : m.getImpl k = some slot)
    (hg' : m.getImpl k' = some slot') : (m.modifyValue k f).getImpl k' =
      some (if k' = k then { slot' with value := f slot'.value } else slot') := by
  obtain ⟨hs, -, ht⟩ := h.alive hk hg
  obtain ⟨hs', hv', -⟩ := h.alive hk' hg'
  have hat : (m.modifyValue k f).slotAt (Key.toIndex k') = if Key.toIndex k' = Key.toIndex k
      then some { slot with value := f slot.value } else m.slotAt (Key.toIndex k') :=
    slotAt_of_write rfl hs (Key.toIndex k')
  refine getImpl_of_slotAt (h.write f hs ht).slots ?_ ?_
  · rw [hat]
    by_cases hi : Key.toIndex k' = Key.toIndex k
    · obtain rfl := h.unique hk' hk hg' hg hi
      obtain rfl := Option.some.inj (hg.symm.trans hg')
      rw [if_pos rfl, if_pos rfl]
    · rw [if_neg hi, if_neg fun e => hi (by rw [e]), hs']
  · split_ifs
    · exact hv'
    · exact hv'

/-- The handle to the slot that is written to leads to the new value. -/
theorem getImpl_write_self (h : Handed m issued) {k : ℕ} (hk : k ∈ issued) {slot : Slot T}
    (f : T → T) (hg : m.getImpl k = some slot) :
    (m.modifyValue k f).getImpl k = some { slot with value := f slot.value } := by
  rw [h.getImpl_write hk hk f hg hg, if_pos rfl]

/-- Another accepted handle is accepted behind `erase`. -/
theorem getImpl_erase (h : Handed m issued) {k k' : ℕ} (hk : k ∈ issued) (hk' : k' ∈ issued)
    {slot slot' : Slot T} (hg : m.getImpl k = some slot) (hg' : m.getImpl k' = some slot')
    (hne : k' ≠ k) : (m.erase k).getImpl k' = some slot' := by
  obtain ⟨hs', hv', -⟩ := h.alive hk' hg'
  obtain ⟨hinv, ⟨slot₀, her⟩ | ⟨he, -⟩⟩ := h.slots.erase k
  · refine getImpl_of_slotAt hinv ?_ hv'
    rw [her.slotAt, if_neg fun hi => hne (h.unique hk' hk hg' hg hi), hs']
  · rw [he]
    exact hg'

/-! ### The elements -/

/-- The element of an accepted handle. -/
theorem elementAt (h : Handed m issued) {k : ℕ} (hk : k ∈ issued) {slot : Slot T}
    (hg : m.getImpl k = some slot) : m.elementAt (Key.toIndex k) = some slot.value := by
  obtain ⟨hs, -, ht⟩ := h.alive hk hg
  simp [SlotMap.elementAt, hs, Slot.element?, ht]

/-- `emplace` puts the element into an empty slot. -/
theorem elementAt_emplace (h : Handed m issued) (value : T) :
    ∃ index, m.elementAt index = none ∧ ∀ i, (m.emplace value).2.elementAt i =
      if i = index then some value else m.elementAt i := by
  obtain ⟨index, version, hem, -⟩ := h.slots.emplace value
  refine ⟨index, ?_, fun i => ?_⟩
  · rcases hem.index_eq with ⟨-, -, ⟨slot, hs, ht, -⟩, -⟩ | ⟨-, hi, -, -⟩
    · simp [SlotMap.elementAt, hs, Slot.element?, ht]
    · rw [SlotMap.elementAt, (h.slots.filled.slotAt_eq_none_iff index).2 hi.ge, Option.bind_none]
  · rw [SlotMap.elementAt, hem.slotAt]
    split_ifs
    · rfl
    · rfl

/-- `erase` with an accepted handle takes its element. -/
theorem elementAt_erase (h : Handed m issued) {k : ℕ} (hk : k ∈ issued) {slot : Slot T}
    (hg : m.getImpl k = some slot) (i : ℕ) :
    (m.erase k).elementAt i = if i = Key.toIndex k then none else m.elementAt i := by
  obtain ⟨hs, hv, ht⟩ := h.alive hk hg
  obtain ⟨-, ⟨slot₀, her⟩ | ⟨-, hnone⟩⟩ := h.slots.erase k
  · rw [SlotMap.elementAt, her.slotAt]
    split_ifs
    · rfl
    · rfl
  · rw [hg, Option.bind_some, Slot.element?, ht] at hnone
    cases hnone

/-- A write through an accepted handle changes its element. -/
theorem elementAt_write (h : Handed m issued) {k : ℕ} (hk : k ∈ issued) {slot : Slot T}
    (hg : m.getImpl k = some slot) (f : T → T) (i : ℕ) :
    (m.modifyValue k f).elementAt i =
      if i = Key.toIndex k then some (f slot.value) else m.elementAt i := by
  obtain ⟨hs, -, ht⟩ := h.alive hk hg
  have hat : (m.modifyValue k f).slotAt i =
      if i = Key.toIndex k then some { slot with value := f slot.value } else m.slotAt i :=
    slotAt_of_write rfl hs i
  rw [SlotMap.elementAt, hat]
  split_ifs
  · simp [Slot.element?, ht]
  · rfl

end Handed

end SlotMap

end Data
