/-
**The invariant of the slot map.**

A freed slot waits on the free list under the key of its next life, once; a key of the free list
never leads to a living element.  `erase` finds the version of the slot in the key, so it never
meets the version at which a slot would have to be given up: a slot whose version has reached 0x400
is unknown to every key, since a key keeps ten bits of the version.

Main definitions:

* `Data.SlotMap.SlotInv` — **the invariant**;
* `Data.SlotMap.Emplaced`, `Data.SlotMap.Erased` — what `emplace` and `erase` do to the slots.

Main results:

* `Data.SlotMap.SlotInv.emplace`, `Data.SlotMap.SlotInv.erase` — the two operations: their effect,
  and that they keep the invariant.
-/

import TsaRecomp.Data.SlotMap

set_option relaxedAutoImplicit false
set_option autoImplicit false

namespace Data

namespace SlotMap

variable {T : Type}

/-! ### What depends on the slots only -/

section Slots

variable {m m' : SlotMap T}

theorem slotAt_of_slots (h : m'.pages.map Page.slots = m.pages.map Page.slots) (i : ℕ) :
    m'.slotAt i = m.slotAt i := by
  have key : ∀ m : SlotMap T, m.slotAt i =
      ((m.pages.map Page.slots)[i / kPageSize]?).bind fun slots => slots[i % kPageSize]? := by
    intro m
    simp [slotAt, Option.bind_map]
  rw [key, key, h]

theorem numSlots_of_slots (h : m'.pages.map Page.slots = m.pages.map Page.slots) :
    m'.numSlots = m.numSlots := by
  have key : ∀ m : SlotMap T, m.numSlots = ((m.pages.map Page.slots).getLast?).elim 0 fun slots =>
      ((m.pages.map Page.slots).length - 1) * kPageSize + slots.length := by
    intro m
    cases hl : m.pages.getLast? <;> simp [numSlots, hl]
  rw [key, key, h]

theorem Filled.of_slots (hf : Filled m) (h : m'.pages.map Page.slots = m.pages.map Page.slots) :
    Filled m' := by
  have hlen : m'.pages.length = m.pages.length := by simpa using congrArg List.length h
  have hget : ∀ (i : ℕ) (page : Page T), m'.pages[i]? = some page →
      ∃ q : Page T, m.pages[i]? = some q ∧ q.slots = page.slots := by
    intro i page hp
    have := congrArg (fun l => l[i]?) h
    simp only [List.getElem?_map, hp, Option.map_some] at this
    exact Option.map_eq_some_iff.1 this.symm
  refine ⟨?_, ?_⟩
  · intro i page hp hi
    obtain ⟨q, hq, he⟩ := hget i page hp
    rw [← he]
    exact hf.full i q hq (hlen ▸ hi)
  · intro page hp
    rw [List.getLast?_eq_getElem?, hlen] at hp
    obtain ⟨q, hq, he⟩ := hget _ page hp
    rw [← he]
    exact hf.le q (by rw [List.getLast?_eq_getElem?]; exact hq)

end Slots

/-! ### Writing to a slot -/

section Modify

variable (m : SlotMap T) (index : ℕ) (f : Slot T → Slot T)

theorem length_getElem?_modifySlot (i : ℕ) :
    ((m.modifySlot index f).pages[i]?).map (fun page => page.slots.length) =
      (m.pages[i]?).map fun page => page.slots.length := by
  unfold modifySlot
  simp only [List.getElem?_modify]
  cases m.pages[i]? with
  | none => rfl
  | some page =>
      simp only [Option.map_eq_map, Option.map_some]
      split_ifs <;> simp

theorem getLast?_modifySlot : ((m.modifySlot index f).pages.getLast?).map
    (fun page => page.slots.length) = (m.pages.getLast?).map fun page => page.slots.length := by
  rw [List.getLast?_eq_getElem?, List.getLast?_eq_getElem?]
  have hlen : (m.modifySlot index f).pages.length = m.pages.length := by simp [modifySlot]
  rw [hlen]
  exact length_getElem?_modifySlot m index f _

theorem numSlots_modifySlot : (m.modifySlot index f).numSlots = m.numSlots := by
  have hlast := getLast?_modifySlot m index f
  have hlen : (m.modifySlot index f).pages.length = m.pages.length := by simp [modifySlot]
  unfold numSlots
  rw [hlen]
  cases h : (m.modifySlot index f).pages.getLast? <;> cases h' : m.pages.getLast? <;>
    simp [h, h'] at hlast ⊢
  exact hlast

variable {m}

theorem Filled.modifySlot (h : Filled m) : Filled (m.modifySlot index f) := by
  have hlen : (m.modifySlot index f).pages.length = m.pages.length := by simp [SlotMap.modifySlot]
  refine ⟨?_, ?_⟩
  · intro i page hp hi
    have := length_getElem?_modifySlot m index f i
    rw [hp, Option.map_some] at this
    obtain ⟨q, hq, he⟩ := Option.map_eq_some_iff.1 this.symm
    rw [← he]
    exact h.full i q hq (hlen ▸ hi)
  · intro page hp
    have := getLast?_modifySlot m index f
    rw [hp, Option.map_some] at this
    obtain ⟨q, hq, he⟩ := Option.map_eq_some_iff.1 this.symm
    rw [← he]
    exact h.le q hq

variable {m' : SlotMap T} {index f} {slot : Slot T}

/-- The slots behind a write to one of them. -/
theorem slotAt_of_write
    (hp : m'.pages.map Page.slots = (m.modifySlot index f).pages.map Page.slots)
    (hs : m.slotAt index = some slot) (i : ℕ) :
    m'.slotAt i = if i = index then some (f slot) else m.slotAt i := by
  rw [slotAt_of_slots hp, slotAt_modifySlot]
  split_ifs with hi
  · rw [hi, hs]
    rfl
  · rfl

theorem numSlots_of_write
    (hp : m'.pages.map Page.slots = (m.modifySlot index f).pages.map Page.slots) :
    m'.numSlots = m.numSlots :=
  (numSlots_of_slots hp).trans (numSlots_modifySlot m index f)

end Modify

/-! ### Appending a slot -/

section Append

variable {m : SlotMap T} (value : T)

theorem Filled.appendElement (h : Filled m) : Filled (m.appendElement value).1 := by
  rcases appendElement_pages value m with ⟨pages, page, hp, hroom, he⟩ | ⟨hfull, he⟩
  · have hle := h.le page (by simp [hp])
    rw [he]
    refine ⟨?_, ?_⟩
    · intro i q hq hi
      have hi' : i < pages.length := by simpa using hi
      dsimp only at hq
      rw [List.getElem?_append_left hi'] at hq
      refine h.full i q ?_ (by simp [hp, hi'])
      rw [hp, List.getElem?_append_left hi', hq]
    · intro q hq
      obtain rfl : _ = q := by simpa using hq
      simp only [List.length_append, List.length_singleton]
      omega
  · rw [he]
    refine ⟨?_, ?_⟩
    · intro i q hq hi
      have hi' : i < m.pages.length := by simpa using hi
      dsimp only at hq
      rw [List.getElem?_append_left hi'] at hq
      rcases Nat.lt_or_ge (i + 1) m.pages.length with hlt | hge
      · exact h.full i q hq hlt
      · refine hfull q ?_
        rw [List.getLast?_eq_getElem?, show m.pages.length - 1 = i by omega, hq]
        exact rfl
    · intro q hq
      obtain rfl : _ = q := by simpa using hq
      simp [kPageSize]

theorem numSlots_appendElement (h : Filled m) :
    (m.appendElement value).1.numSlots = m.numSlots + 1 := by
  have hslot := slotAt_appendElement h value
  have hnone := (h.appendElement value).slotAt_eq_none_iff
  have hnone' := h.slotAt_eq_none_iff
  -- the slot behind the last one is free, and the last one is the new one
  refine le_antisymm ((hnone _).1 ?_) ?_
  · rw [hslot, if_neg (by omega), hnone']
    omega
  · by_contra hlt
    have := (hnone m.numSlots).2 (by omega)
    rw [hslot, if_pos rfl] at this
    cases this

theorem rawMemory_appendElement (h : ∀ page ∈ m.pages, page.rawMemory = true) :
    ∀ page ∈ (m.appendElement value).1.pages, page.rawMemory = true := by
  rcases appendElement_pages value m with ⟨pages, page, hp, -, he⟩ | ⟨-, he⟩
  · rw [he]
    intro q hq
    rcases List.mem_append.1 hq with hq | hq
    · exact h q (by rw [hp]; exact List.mem_append_left _ hq)
    · rw [List.mem_singleton.1 hq]
      exact h page (by simp [hp])
  · rw [he]
    intro q hq
    rcases List.mem_append.1 hq with hq | hq
    · exact h q hq
    · rw [List.mem_singleton.1 hq]
      rfl

end Append

/-! ### The invariant -/

/-- **The invariant** of a slot map that elements are put into and erased from. -/
structure SlotInv (m : SlotMap T) : Prop where
  filled : Filled m
  allocated : ∀ page ∈ m.pages, page.rawMemory = true
  maxValidIndex : m.maxValidIndex = m.numSlots - 1
  /-- The versions of a slot; none has been given up. -/
  version : ∀ i slot, m.slotAt i = some slot →
    Key.kMinVersion ≤ slot.version ∧ slot.version ≤ Key.kMaxVersion ∧ slot.inactive = false
  /-- A key that waits is the key of the next life of a free slot. -/
  free : ∀ k ∈ m.freeIndices, ∃ slot, m.slotAt (Key.toIndex k) = some slot ∧
    slot.tombstone = true ∧ k = Key.make slot.version (Key.toIndex k)
  nodup : (m.freeIndices.map Key.toIndex).Nodup

/-- What `emplace` does to the slots: the element begins a life of a free slot, or of a new one. -/
structure Emplaced (m : SlotMap T) (value : T) (k : ℕ) (m' : SlotMap T) (index version : ℕ) :
    Prop where
  key : k = Key.make version index
  slotAt : ∀ i, m'.slotAt i =
    if i = index then some ⟨version, false, false, value⟩ else m.slotAt i
  freeIndices : m'.freeIndices =
    if kMinFreeIndices < m.freeIndices.length then m.freeIndices.tail else m.freeIndices
  /-- The slot that is used. -/
  index_eq : kMinFreeIndices < m.freeIndices.length ∧ index = Key.toIndex (m.freeIndices.headD 0) ∧
      (∃ slot, m.slotAt index = some slot ∧ slot.tombstone = true ∧ slot.version = version) ∧
      m'.numSlots = m.numSlots ∨
    m.freeIndices.length ≤ kMinFreeIndices ∧ index = m.numSlots ∧ version = Key.kMinVersion ∧
      m'.numSlots = m.numSlots + 1

/-- What `erase` does to the slots when it finds an element. -/
structure Erased (m : SlotMap T) (k : ℕ) (slot : Slot T) (m' : SlotMap T) : Prop where
  found : m.slotAt (Key.toIndex k) = some slot
  alive : slot.tombstone = false
  version_eq : slot.version = Key.toVersion k
  slotAt : ∀ i, m'.slotAt i = if i = Key.toIndex k then
    some { slot with version := slot.version + 1, tombstone := true } else m.slotAt i
  freeIndices : m'.freeIndices = m.freeIndices ++ [Key.make (slot.version + 1) (Key.toIndex k)]
  numSlots : m'.numSlots = m.numSlots

/-- `emplace` leaves the elements alone. -/
theorem Emplaced.slot {m m' : SlotMap T} {value : T} {k index version : ℕ}
    (hem : Emplaced m value k m' index version) (hf : Filled m) {i : ℕ} {slot : Slot T}
    (hs : m.slotAt i = some slot) : ∃ slot', m'.slotAt i = some slot' ∧
      slot.version ≤ slot'.version ∧ (slot.tombstone = false → slot' = slot) := by
  rw [hem.slotAt]
  split_ifs with hi
  · rcases hem.index_eq with ⟨-, -, ⟨s, hs', ht, hv⟩, -⟩ | ⟨-, hn, -, -⟩
    · obtain rfl := Option.some.inj ((hi ▸ hs).symm.trans hs')
      exact ⟨_, rfl, hv.le, fun hf => by simp [ht] at hf⟩
    · exact absurd (hf.lt_of_slotAt hs) (by omega)
  · exact ⟨slot, hs, le_rfl, fun _ => rfl⟩

/-- `erase` leaves the other slots alone. -/
theorem Erased.slot {m m' : SlotMap T} {k : ℕ} {slot₀ : Slot T} (her : Erased m k slot₀ m') {i : ℕ}
    {slot : Slot T} (hs : m.slotAt i = some slot) : ∃ slot', m'.slotAt i = some slot' ∧
      slot.version ≤ slot'.version ∧ (i ≠ Key.toIndex k → slot' = slot) := by
  rw [her.slotAt]
  split_ifs with hi
  · obtain rfl := Option.some.inj ((hi ▸ hs).symm.trans her.found)
    exact ⟨_, rfl, Nat.le_succ _, fun hne => absurd hi hne⟩
  · exact ⟨slot, hs, le_rfl, fun _ => rfl⟩

namespace SlotInv

variable {m : SlotMap T}

theorem empty : SlotInv (SlotMap.empty : SlotMap T) where
  filled := .empty
  allocated := by simp [SlotMap.empty]
  maxValidIndex := rfl
  version := by simp
  free := by simp [SlotMap.empty]
  nodup := by simp [SlotMap.empty]

/-- The tests on a key find every slot. -/
theorem validSlot_eq (h : SlotInv m) (k : ℕ) : m.validSlot k = m.slotAt (Key.toIndex k) := by
  unfold validSlot
  cases hs : m.slotAt (Key.toIndex k) with
  | none =>
      split_ifs <;> rfl
  | some slot =>
      have hlt := h.filled.lt_of_slotAt hs
      have hmax := h.maxValidIndex
      rw [if_neg (by omega)]
      obtain ⟨page, hp, -⟩ := Option.bind_eq_some_iff.1 hs
      have hraw := h.allocated page (List.mem_of_getElem? hp)
      rw [isActivePage, hp, Option.any_some, if_pos hraw]

theorem getImpl_eq (h : SlotInv m) (k : ℕ) : m.getImpl k =
    (m.slotAt (Key.toIndex k)).filter fun slot => slot.version = Key.toVersion k := by
  rw [getImpl, h.validSlot_eq]

section Write

variable {m' : SlotMap T} {index : ℕ} {f : Slot T → Slot T} {slot : Slot T}

/-- A write to one slot keeps the invariant, when the keys that wait for the slot are right. -/
theorem of_modifySlot (h : SlotInv m) (hp : m'.pages = (m.modifySlot index f).pages)
    (hs : m.slotAt index = some slot) (hmax : m'.maxValidIndex = m.maxValidIndex)
    (hversion : Key.kMinVersion ≤ (f slot).version ∧ (f slot).version ≤ Key.kMaxVersion ∧
      (f slot).inactive = false)
    (hfree : ∀ k ∈ m'.freeIndices, k ∈ m.freeIndices ∧ Key.toIndex k ≠ index ∨
      Key.toIndex k = index ∧ (f slot).tombstone = true ∧ k = Key.make (f slot).version index)
    (hnodup : (m'.freeIndices.map Key.toIndex).Nodup) : SlotInv m' := by
  have hslots := congrArg (List.map Page.slots) hp
  have hat := slotAt_of_write hslots hs
  refine ⟨(h.filled.modifySlot index f).of_slots hslots, ?_, ?_, ?_, ?_, hnodup⟩
  · intro page hpage
    rw [hp] at hpage
    obtain ⟨i, hi⟩ := List.mem_iff_getElem?.1 hpage
    unfold modifySlot at hi
    simp only [List.getElem?_modify, Option.map_eq_map] at hi
    obtain ⟨q, hq, rfl⟩ := Option.map_eq_some_iff.1 hi
    have := h.allocated q (List.mem_of_getElem? hq)
    split_ifs <;> exact this
  · rw [hmax, h.maxValidIndex, numSlots_of_write hslots]
  · intro i s hi
    rw [hat] at hi
    split_ifs at hi with hii
    · obtain rfl := Option.some.inj hi
      exact hversion
    · exact h.version i s hi
  · -- a key of another slot, or the key of the slot that is written to
    intro k hk
    rcases hfree k hk with ⟨hk, hne⟩ | ⟨he, ht, hk⟩
    · obtain ⟨s, hs, hsk⟩ := h.free k hk
      exact ⟨s, by rw [hat, if_neg hne, hs], hsk⟩
    · exact ⟨f slot, by rw [hat, if_pos he], ht, by rw [he]; exact hk⟩

end Write

/-- `emplace` with the slot at the front of the free list. -/
theorem emplace_reuse {k : ℕ} {rest : List ℕ} (value : T) (hk : m.freeIndices = k :: rest)
    (hfree : kMinFreeIndices < m.freeIndices.length) :
    (m.emplace value).1 = k ∧ (m.emplace value).2.freeIndices = rest ∧
      (m.emplace value).2.maxValidIndex = m.maxValidIndex ∧
      (m.emplace value).2.pages = (m.modifySlot (Key.toIndex k) fun slot =>
        { slot with tombstone := false, value := value }).pages := by
  unfold SlotMap.emplace
  rw [if_pos hfree, hk]
  exact ⟨rfl, rfl, rfl, rfl⟩

/-- `emplace` with a new slot. -/
theorem emplace_append (value : T) (hfree : ¬ kMinFreeIndices < m.freeIndices.length) :
    (m.emplace value).1 = Key.make Key.kMinVersion (m.appendElement value).2 ∧
      (m.emplace value).2.freeIndices = m.freeIndices ∧
      (m.emplace value).2.maxValidIndex = max m.maxValidIndex (m.appendElement value).2 ∧
      (m.emplace value).2.pages = (m.appendElement value).1.pages := by
  unfold SlotMap.emplace
  rw [if_neg hfree]
  exact ⟨rfl, rfl, rfl, rfl⟩

/-- The life that an element begins in the slot at the front of the free list. -/
theorem emplaced_reuse {k : ℕ} {rest : List ℕ} {slot : Slot T} (value : T)
    (hk : m.freeIndices = k :: rest) (hfree : kMinFreeIndices < m.freeIndices.length)
    (hs : m.slotAt (Key.toIndex k) = some slot) (htomb : slot.tombstone = true)
    (hactive : slot.inactive = false) (hkv : k = Key.make slot.version (Key.toIndex k)) :
    Emplaced m value (m.emplace value).1 (m.emplace value).2 (Key.toIndex k) slot.version := by
  obtain ⟨hkey, hrest, -, hp⟩ := emplace_reuse value hk hfree
  have hslots := congrArg (List.map Page.slots) hp
  refine ⟨hkey.trans hkv, fun i => ?_, ?_, Or.inl ⟨hfree, by rw [hk]; rfl,
    ⟨slot, hs, htomb, rfl⟩, numSlots_of_write hslots⟩⟩
  · rw [slotAt_of_write hslots hs, hactive]
  · rw [if_pos hfree, hrest, hk, List.tail_cons]

/-- The life that an element begins in a new slot. -/
theorem emplaced_append (h : Filled m) (value : T)
    (hfree : ¬ kMinFreeIndices < m.freeIndices.length) :
    Emplaced m value (m.emplace value).1 (m.emplace value).2 m.numSlots Key.kMinVersion := by
  obtain ⟨hkey, hrest, -, hp⟩ := emplace_append value hfree
  have hslots := congrArg (List.map Page.slots) hp
  refine ⟨?_, fun i => ?_, by rw [if_neg hfree, hrest], Or.inr ⟨not_lt.1 hfree, rfl, rfl, ?_⟩⟩
  · rw [hkey, h.appendElement_index]
  · exact (slotAt_of_slots hslots i).trans (slotAt_appendElement h value i)
  · exact (numSlots_of_slots hslots).trans (numSlots_appendElement value h)

/-- **`emplace`** -/
theorem emplace (h : SlotInv m) (value : T) :
    ∃ index version, Emplaced m value (m.emplace value).1 (m.emplace value).2 index version ∧
      SlotInv (m.emplace value).2 := by
  by_cases hfree : kMinFreeIndices < m.freeIndices.length
  · -- the slot at the front of the free list
    obtain ⟨k, rest, hk⟩ := List.exists_cons_of_ne_nil
      (List.ne_nil_of_length_pos (by omega : 0 < m.freeIndices.length))
    obtain ⟨-, hrest, hmax, hp⟩ := emplace_reuse value hk hfree
    obtain ⟨slot, hslot, htomb, hkv⟩ := h.free k (by rw [hk]; exact List.mem_cons_self)
    have hinv := h.version _ slot hslot
    have hnd := h.nodup
    rw [hk, List.map_cons, List.nodup_cons] at hnd
    refine ⟨_, _, emplaced_reuse value hk hfree hslot htomb hinv.2.2 hkv,
      h.of_modifySlot hp hslot hmax hinv (fun k' hk' => Or.inl ⟨?_, ?_⟩) (hrest ▸ hnd.2)⟩
    · rw [hk]
      exact List.mem_cons_of_mem _ (hrest ▸ hk')
    · exact fun e => hnd.1 (e ▸ List.mem_map_of_mem (hrest ▸ hk'))
  · -- a new slot
    obtain ⟨-, hrest, hmax, hp⟩ := emplace_append value hfree
    have hem := emplaced_append h.filled value hfree
    have hnum := (numSlots_of_slots (congrArg (List.map Page.slots) hp)).trans
      (numSlots_appendElement value h.filled)
    have hlast := h.maxValidIndex
    rw [h.filled.appendElement_index] at hmax
    refine ⟨_, _, hem, (h.filled.appendElement value).of_slots (congrArg _ hp), ?_, ?_, ?_, ?_, ?_⟩
    · rw [hp]
      exact rawMemory_appendElement value h.allocated
    · rw [hmax, hnum]
      omega
    · intro i s hi
      rw [hem.slotAt] at hi
      split_ifs at hi with hii
      · obtain rfl := Option.some.inj hi
        exact ⟨le_rfl, show Key.kMinVersion ≤ Key.kMaxVersion by decide, rfl⟩
      · exact h.version i s hi
    · intro k hk
      rw [hrest] at hk
      obtain ⟨s, hs, hsk⟩ := h.free k hk
      refine ⟨s, ?_, hsk⟩
      rw [hem.slotAt, if_neg (h.filled.lt_of_slotAt hs).ne, hs]
    · rw [hrest]
      exact h.nodup

/-- A freed slot does not hold an element. -/
theorem notMem_freeIndices (h : SlotInv m) {i : ℕ} {slot : Slot T} (hs : m.slotAt i = some slot)
    (ht : slot.tombstone = false) : i ∉ m.freeIndices.map Key.toIndex := by
  intro hi
  obtain ⟨k, hk, rfl⟩ := List.mem_map.1 hi
  obtain ⟨s, hs', ht', -⟩ := h.free k hk
  obtain rfl : slot = s := Option.some.inj (hs.symm.trans hs')
  exact absurd (ht.symm.trans ht') (by decide)

/-- `erase` when the key matches the version of a slot that holds an element. -/
theorem erase_found {k : ℕ} {slot : Slot T} (hv : m.validSlot k = some slot)
    (ht : slot.tombstone = false) (hk : slot.version = Key.toVersion k)
    (h0 : slot.version ≠ Key.kInvalidVersion) (hmax : slot.version ≠ Key.kMaxVersion) :
    (m.erase k).freeIndices =
        m.freeIndices ++ [Key.clearTagAndUpdateVersion k (Key.increaseVersion slot.version)] ∧
      (m.erase k).maxValidIndex = m.maxValidIndex ∧
      (m.erase k).pages = (m.modifySlot (Key.toIndex k) fun s =>
        { s with version := Key.increaseVersion slot.version, tombstone := true }).pages := by
  have hcheck : ¬ (true = true ∧ (slot.version ≠ Key.toVersion k ∨
      slot.version = Key.kInvalidVersion ∨ Key.toVersion k = Key.kInvalidVersion)) := by
    rintro ⟨-, h | h | h⟩
    · exact h hk
    · exact h0 h
    · exact h0 (hk.trans h)
  unfold SlotMap.erase eraseImpl
  rw [hv]
  dsimp only
  rw [if_neg (by simp [ht]), if_neg hcheck, if_neg hmax]
  exact ⟨rfl, rfl, rfl⟩

/-- `erase` when the key does not match a slot that holds an element. -/
theorem erase_notFound {k : ℕ} (h : ∀ slot, m.validSlot k = some slot →
    slot.tombstone = true ∨ slot.version ≠ Key.toVersion k) : m.erase k = m := by
  unfold SlotMap.erase eraseImpl
  split
  · rfl
  · next slot hv =>
      rcases h slot hv with ht | hk
      · rw [if_pos ht]
      · split_ifs with ht hc
        · rfl
        · rfl
        · exact absurd ⟨rfl, Or.inl hk⟩ hc
        · exact absurd ⟨rfl, Or.inl hk⟩ hc

/-- **`erase`** ends the life of the slot that the key leads to, or does nothing when the key does
not lead to an element. -/
theorem erase (h : SlotInv m) (k : ℕ) : SlotInv (m.erase k) ∧
    ((∃ slot, Erased m k slot (m.erase k)) ∨
      m.erase k = m ∧ (m.getImpl k).bind Slot.element? = none) := by
  by_cases hfound : ∃ slot, m.slotAt (Key.toIndex k) = some slot ∧ slot.tombstone = false ∧
      slot.version = Key.toVersion k
  · obtain ⟨slot, hs, ht, hk⟩ := hfound
    obtain ⟨hmin, hmax, hactive⟩ := h.version _ slot hs
    -- the version comes from a key, so it is not the last one
    have hlt : slot.version < Key.kMaxVersion := by
      rw [hk, Key.toVersion_eq]
      exact Nat.mod_lt _ (by decide)
    obtain ⟨hfree, hlast, hp⟩ := erase_found ((h.validSlot_eq k).trans hs) ht hk
      (Nat.pos_iff_ne_zero.1 hmin) hlt.ne
    rw [Key.clearTagAndUpdateVersion_eq] at hfree
    have hindex : Key.toIndex (Key.make (Key.increaseVersion slot.version) (Key.toIndex k)) =
        Key.toIndex k := by
      rw [Key.toIndex_make, Key.toIndex_eq, Nat.mod_mod]
    have hwait := h.notMem_freeIndices hs ht
    have hslots := congrArg (List.map Page.slots) hp
    refine ⟨h.of_modifySlot hp hs hlast ⟨Nat.le_succ_of_le hmin, hlt, hactive⟩
      ?_ ?_, Or.inl ⟨slot, hs, ht, hk, slotAt_of_write hslots hs, hfree,
        numSlots_of_write hslots⟩⟩
    · intro k' hk'
      rw [hfree] at hk'
      rcases List.mem_append.1 hk' with hk' | hk'
      · exact Or.inl ⟨hk', fun e => hwait (e ▸ List.mem_map_of_mem hk')⟩
      · rw [List.mem_singleton.1 hk']
        exact Or.inr ⟨hindex, rfl, rfl⟩
    · rw [hfree, List.map_append, List.map_singleton, hindex]
      exact List.nodup_append.2 ⟨h.nodup, List.nodup_singleton _, fun i hi j hj e => hwait
        (List.mem_singleton.1 hj ▸ e ▸ hi)⟩
  · have hnone : ∀ slot, m.slotAt (Key.toIndex k) = some slot →
        slot.tombstone = true ∨ slot.version ≠ Key.toVersion k := by
      intro slot hs
      by_contra hc
      rw [not_or, not_not, Bool.not_eq_true] at hc
      exact hfound ⟨slot, hs, hc⟩
    have he := erase_notFound fun slot hv => hnone slot ((h.validSlot_eq k).symm.trans hv)
    refine ⟨he.symm ▸ h, Or.inr ⟨he, ?_⟩⟩
    rw [h.getImpl_eq]
    cases hs : m.slotAt (Key.toIndex k) with
    | none => rfl
    | some slot =>
        rcases hnone slot hs with ht | hk
        · by_cases hv : slot.version = Key.toVersion k <;>
            simp [Option.filter, hv, Slot.element?, ht]
        · simp [Option.filter, hk]

end SlotInv

end SlotMap

end Data
