/-
**The slot map in any run.**

`erase` never meets a slot whose versions are used up.  `clear` does: it erases what every slot
holds, whatever its version, and a slot of the version 0x400 is given up for good.  When every slot
of a page has been given up, the memory of the page is released.  This module has `clear` and the
iterator, and an invariant that they keep too; `Data.SlotMap.SlotInv` is about the runs without
them.

Main definitions:

* `Data.SlotMap.clear`, `Data.SlotMap.itemsBegin` — the rest of the operations;
* `Data.SlotMap.MapInv` — **the invariant** of any run;
* `Data.SlotMap.Removed` — what `eraseImpl` does to the slots.

Main results:

* `Data.SlotMap.MapInv.eraseImpl`, `Data.SlotMap.MapInv.emplace`, `Data.SlotMap.MapInv.clear` — the
  operations keep the invariant.
-/

import Mathlib.Data.Finset.Card
import TsaRecomp.Data.SlotMapInv

set_option relaxedAutoImplicit false
set_option autoImplicit false

namespace Data

namespace SlotMap

variable {T : Type}

/-! ### The iterator and `clear` -/

/-- `isTombstone` -/
def isTombstone (m : SlotMap T) (index : ℕ) : Bool :=
  if m.isActivePage index then (m.slotAt index).all Slot.tombstone else true

/-- The `while` loop of `begin`, with the indices that are left. -/
def beginLoop (m : SlotMap T) : ℕ → ℕ → ℕ
  | 0, index => index
  | n + 1, index => if m.isTombstone index then m.beginLoop n (index + 1) else index

/-- `items().end()` -/
def itemsEnd (m : SlotMap T) : ℕ := m.maxValidIndex + 1

/-- `items().begin()` -/
def itemsBegin (m : SlotMap T) : ℕ :=
  if m.pages.isEmpty then m.itemsEnd else m.beginLoop (m.maxValidIndex + 1) 0

/-- The loop of `clear` over a page, with the slots that are left. -/
def clearPage (page : ℕ) : ℕ → ℕ → SlotMap T → SlotMap T
  | 0, _, m => m
  | n + 1, elementIndex, m =>
      -- the version does not matter here
      match m.eraseImpl false (Key.make Key.kMinVersion (page * kPageSize + elementIndex)) with
      | (.erasedAndPageDeactivated, m) => m
      | (_, m) => clearPage page n (elementIndex + 1) m

/-- A round of `clear`. -/
def clearRound (m : SlotMap T) (pageIndex : ℕ) : SlotMap T :=
  (m.pages[pageIndex]?).elim m fun page =>
    if page.rawMemory then clearPage pageIndex page.slots.length 0 m else m

/-- `clear` -/
def clear (m : SlotMap T) : SlotMap T := (List.range m.pages.length).foldl clearRound m

/-- What `eraseImpl` keeps is kept by `clear`. -/
theorem clear_rule {P : SlotMap T → Prop} (hstep : ∀ m k, P m → P (m.eraseImpl false k).2)
    {m : SlotMap T} (h : P m) : P m.clear := by
  have hpage : ∀ (page : ℕ) {n e : ℕ} {m : SlotMap T}, P m → P (clearPage page n e m) := by
    intro page n
    induction n with
    | zero => exact fun h => h
    | succ n ih =>
        intro e m h
        have hnext := hstep m (Key.make Key.kMinVersion (page * kPageSize + e)) h
        rw [clearPage]
        split
        · next heq =>
            rw [heq] at hnext
            exact hnext
        · next heq =>
            rw [heq] at hnext
            exact ih hnext
  have hrounds : ∀ (l : List ℕ) (m : SlotMap T), P m → P (l.foldl clearRound m) := by
    intro l
    induction l with
    | nil => exact fun m h => h
    | cons i l ih =>
        intro m h
        refine ih _ ?_
        unfold clearRound
        cases m.pages[i]? with
        | none => exact h
        | some page =>
            rw [Option.elim_some]
            split_ifs
            · exact hpage i h
            · exact h
  exact hrounds _ m h

/-! ### Counting -/

section Count

variable {α : Type} {p : α → Bool} {f : α → α}

theorem countP_modify_of_eq {l : List α} {i : ℕ} (h : ∀ x, l[i]? = some x → p (f x) = p x) :
    (l.modify i f).countP p = l.countP p := by
  induction l generalizing i with
  | nil => simp
  | cons y l ih =>
      cases i with
      | zero => simp [List.countP_cons, h y rfl]
      | succ i => simp [List.countP_cons, ih fun x hx => h x (by simpa using hx)]

theorem countP_modify_succ {l : List α} {i : ℕ} {x : α} (hx : l[i]? = some x) (hp : p x = false)
    (hf : p (f x) = true) : (l.modify i f).countP p = l.countP p + 1 := by
  induction l generalizing i with
  | nil => simp at hx
  | cons y l ih =>
      cases i with
      | zero =>
          obtain rfl : y = x := by simpa using hx
          simp [hp, hf]
      | succ i =>
          have := ih (i := i) (by simpa using hx)
          simp [List.countP_cons, this]
          omega

end Count

section Slots

variable {m : SlotMap T}

/-- No page has more slots than it has room for. -/
theorem Filled.length_le (h : Filled m) {page : Page T} (hp : page ∈ m.pages) :
    page.slots.length ≤ kPageSize := by
  obtain ⟨i, hi⟩ := List.mem_iff_getElem?.1 hp
  rcases Nat.lt_or_ge (i + 1) m.pages.length with hlt | hge
  · exact (h.full i page hi hlt).le
  · have hlen := (List.getElem?_eq_some_iff.1 hi).1
    refine h.le page ?_
    rw [List.getLast?_eq_getElem?, show m.pages.length - 1 = i by omega, hi]
    exact rfl

end Slots

/-- The slots that hold an element. -/
def living (m : SlotMap T) : Finset ℕ :=
  (Finset.range m.numSlots).filter fun i => (m.slotAt i).any fun slot => !slot.tombstone

theorem Filled.mem_living {m : SlotMap T} (h : Filled m) {i : ℕ} :
    i ∈ m.living ↔ ∃ slot, m.slotAt i = some slot ∧ slot.tombstone = false := by
  rw [living, Finset.mem_filter, Finset.mem_range]
  cases hs : m.slotAt i with
  | none => simp
  | some slot => simp [h.lt_of_slotAt hs]

/-! ### The invariant -/

/-- The slots of a page that have been given up are counted, and a page whose memory has been
released has no others. -/
structure PageInv (page : Page T) : Prop where
  numInactiveSlots : page.numInactiveSlots = page.slots.countP Slot.inactive
  released : page.rawMemory = false → page.numInactiveSlots = kPageSize

/-- **The invariant** of a slot map in any run. -/
structure MapInv (m : SlotMap T) : Prop where
  filled : Filled m
  page : ∀ page ∈ m.pages, PageInv page
  maxValidIndex : m.maxValidIndex = m.numSlots - 1
  version : ∀ i slot, m.slotAt i = some slot →
    Key.kMinVersion ≤ slot.version ∧ slot.version ≤ Key.kMaxVersion
  /-- A slot is given up when its versions are used up. -/
  inactive : ∀ i slot, m.slotAt i = some slot → slot.inactive = true →
    slot.tombstone = true ∧ slot.version = Key.kMaxVersion
  /-- A key that waits is the key of the next life of a free slot. -/
  free : ∀ k ∈ m.freeIndices, ∃ slot, m.slotAt (Key.toIndex k) = some slot ∧
    slot.tombstone = true ∧ slot.inactive = false ∧ k = Key.make slot.version (Key.toIndex k)
  nodup : (m.freeIndices.map Key.toIndex).Nodup
  numItems : m.numItems = m.living.card

/-- What `eraseImpl` does to the slots when it finds an element. -/
structure Removed (m : SlotMap T) (index : ℕ) (slot slot' : Slot T) (m' : SlotMap T) : Prop where
  found : m.slotAt index = some slot
  alive : slot.tombstone = false
  tombstone : slot'.tombstone = true
  slotAt : ∀ i, m'.slotAt i = if i = index then some slot' else m.slotAt i
  numSlots : m'.numSlots = m.numSlots
  numItems : m'.numItems = m.numItems - 1
  /-- The slot waits for its next life, or is given up. -/
  next : slot.version < Key.kMaxVersion ∧ slot'.version = slot.version + 1 ∧
      slot'.inactive = false ∧ m'.freeIndices = m.freeIndices ++ [Key.make slot'.version index] ∨
    slot.version = Key.kMaxVersion ∧ slot'.version = slot.version ∧ slot'.inactive = true ∧
      m'.freeIndices = m.freeIndices

namespace MapInv

variable {m m' : SlotMap T}

theorem empty : MapInv (SlotMap.empty : SlotMap T) where
  filled := .empty
  page := by simp [SlotMap.empty]
  maxValidIndex := rfl
  version := by simp
  inactive := by simp
  free := by simp [SlotMap.empty]
  nodup := by simp [SlotMap.empty]
  numItems := rfl

/-- The page of a slot that has not been given up has its memory. -/
theorem rawMemory (h : MapInv m) {page : Page T} (hp : page ∈ m.pages) {i : ℕ} {slot : Slot T}
    (hs : page.slots[i]? = some slot) (ha : slot.inactive = false) : page.rawMemory = true := by
  by_contra hraw
  -- otherwise every slot of the page has been given up
  have hall : page.slots.countP Slot.inactive = page.slots.length := by
    refine le_antisymm List.countP_le_length ?_
    rw [← (h.page page hp).numInactiveSlots,
      (h.page page hp).released (Bool.not_eq_true _ ▸ hraw)]
    exact h.filled.length_le hp
  have := List.countP_eq_length.1 hall slot (List.mem_of_getElem? hs)
  exact absurd (ha.symm.trans this) (by decide)

theorem isActivePage (h : MapInv m) {i : ℕ} {slot : Slot T} (hs : m.slotAt i = some slot)
    (ha : slot.inactive = false) : m.isActivePage i = true := by
  obtain ⟨page, hp, hslot⟩ := Option.bind_eq_some_iff.1 hs
  rw [SlotMap.isActivePage, hp, Option.any_some, h.rawMemory (List.mem_of_getElem? hp) hslot ha]

theorem slotAt_of_validSlot {k : ℕ} {slot : Slot T} (hs : m.validSlot k = some slot) :
    m.slotAt (Key.toIndex k) = some slot := by
  unfold validSlot at hs
  split_ifs at hs
  exact hs

/-- The tests on a key find a slot that has not been given up. -/
theorem validSlot (h : MapInv m) {k : ℕ} {slot : Slot T}
    (hs : m.slotAt (Key.toIndex k) = some slot) (ha : slot.inactive = false) :
    m.validSlot k = some slot := by
  have hlt := h.filled.lt_of_slotAt hs
  have hmax := h.maxValidIndex
  rw [SlotMap.validSlot, if_neg (by omega), if_pos (h.isActivePage hs ha), hs]

/-- A slot whose version is in a key has not been given up. -/
theorem inactive_of_version (h : MapInv m) {i k : ℕ} {slot : Slot T} (hs : m.slotAt i = some slot)
    (hv : slot.version = Key.toVersion k) : slot.inactive = false := by
  by_contra ha
  have hmax := (h.inactive _ _ hs (Bool.not_eq_false _ ▸ ha)).2
  have hlt : Key.toVersion k < 2 ^ 10 := by
    rw [Key.toVersion_eq]
    exact Nat.mod_lt _ (by decide)
  unfold Key.kMaxVersion at hmax
  omega

theorem getImpl_eq (h : MapInv m) (k : ℕ) : m.getImpl k =
    (m.slotAt (Key.toIndex k)).filter fun slot => slot.version = Key.toVersion k := by
  rw [getImpl]
  cases hs : m.validSlot k with
  | some slot => rw [slotAt_of_validSlot hs]
  | none =>
      rw [Option.filter_none]
      cases hat : m.slotAt (Key.toIndex k) with
      | none => rfl
      | some slot =>
          by_cases hv : slot.version = Key.toVersion k
          · rw [h.validSlot hat (h.inactive_of_version hat hv)] at hs
            cases hs
          · simp [Option.filter, hv]

/-- `getImpl` of a slot with the version of the key. -/
theorem getImpl_of_match (h : MapInv m) {k : ℕ} {slot : Slot T}
    (hs : m.slotAt (Key.toIndex k) = some slot) (hv : slot.version = Key.toVersion k) :
    m.getImpl k = some slot := by
  rw [h.getImpl_eq, hs, Option.filter_some, if_pos (by simpa using hv)]

/-- `getImpl` when no slot has the index and the version of the key. -/
theorem getImpl_of_noMatch (h : MapInv m) {k : ℕ}
    (hnone : ∀ slot ∈ m.slotAt (Key.toIndex k), slot.version ≠ Key.toVersion k) :
    m.getImpl k = none := by
  rw [h.getImpl_eq]
  cases hs : m.slotAt (Key.toIndex k) with
  | none => rfl
  | some slot => simp [Option.filter, hnone slot hs]

/-- `has_key` asks for less than `get`, and answers the same. -/
theorem hasKey_eq (m : SlotMap T) (k : ℕ) : m.hasKey k = (m.getImpl k).isSome := by
  rw [hasKey, getImpl]
  cases m.validSlot k with
  | none => rfl
  | some slot => by_cases hv : slot.version = Key.toVersion k <;> simp [Option.filter, hv]

section Write

variable {index : ℕ} {f : Slot T → Slot T} {slot : Slot T}

/-- The elements behind a write to a slot. -/
theorem living_of_write (h : MapInv m)
    (hp : m'.pages.map Page.slots = (m.modifySlot index f).pages.map Page.slots)
    (hs : m.slotAt index = some slot) :
    m'.living = if (f slot).tombstone then m.living.erase index else insert index m.living := by
  have hfilled : Filled m' := (h.filled.modifySlot index f).of_slots hp
  have hmem : ∀ i, i ∈ m'.living ↔
      (i = index ∧ (f slot).tombstone = false) ∨ (i ≠ index ∧ i ∈ m.living) := by
    intro i
    rw [hfilled.mem_living, h.filled.mem_living, slotAt_of_write hp hs]
    by_cases hi : i = index <;> simp [hi]
  ext i
  rw [hmem]
  by_cases ht : (f slot).tombstone = true
  · simp [ht]
  · by_cases hi : i = index <;> simp [ht, hi]

/-- A write to one slot keeps the invariant, when the pages count and the keys that wait for the
slot are right. -/
theorem of_write (h : MapInv m)
    (hp : m'.pages.map Page.slots = (m.modifySlot index f).pages.map Page.slots)
    (hs : m.slotAt index = some slot) (hpage : ∀ page ∈ m'.pages, PageInv page)
    (hmax : m'.maxValidIndex = m.maxValidIndex)
    (hversion : Key.kMinVersion ≤ (f slot).version ∧ (f slot).version ≤ Key.kMaxVersion)
    (hinactive : (f slot).inactive = true →
      (f slot).tombstone = true ∧ (f slot).version = Key.kMaxVersion)
    (hfree : ∀ k ∈ m'.freeIndices, k ∈ m.freeIndices ∧ Key.toIndex k ≠ index ∨
      Key.toIndex k = index ∧ (f slot).tombstone = true ∧ (f slot).inactive = false ∧
        k = Key.make (f slot).version index)
    (hnodup : (m'.freeIndices.map Key.toIndex).Nodup)
    (hnum : m'.numItems =
      (if (f slot).tombstone then m.living.erase index else insert index m.living).card) :
    MapInv m' := by
  have hat := slotAt_of_write hp hs
  refine ⟨(h.filled.modifySlot index f).of_slots hp, hpage, ?_, ?_, ?_, ?_, hnodup, ?_⟩
  · rw [hmax, h.maxValidIndex, numSlots_of_write hp]
  · intro i s hi
    rw [hat] at hi
    split_ifs at hi with hii
    · obtain rfl := Option.some.inj hi
      exact hversion
    · exact h.version i s hi
  · intro i s hi
    rw [hat] at hi
    split_ifs at hi with hii
    · obtain rfl := Option.some.inj hi
      exact hinactive
    · exact h.inactive i s hi
  · -- a key of another slot, or the key of the slot that is written to
    intro k hk
    rcases hfree k hk with ⟨hk, hne⟩ | ⟨he, ht, ha, hk⟩
    · obtain ⟨s, hs, hsk⟩ := h.free k hk
      exact ⟨s, by rw [hat, if_neg hne, hs], hsk⟩
    · exact ⟨f slot, by rw [hat, if_pos he], ht, ha, by rw [he]; exact hk⟩
  · rw [hnum, h.living_of_write hp hs]

end Write

/-! ### The pages behind a write -/

/-- A change to the page of a slot. -/
theorem page_modify (h : MapInv m) {index : ℕ} {slot : Slot T} {f : Page T → Page T}
    (hs : m.slotAt index = some slot)
    (hf : ∀ page ∈ m.pages, PageInv page → page.slots[index % kPageSize]? = some slot →
      PageInv (f page)) :
    ∀ page ∈ m.pages.modify (index / kPageSize) f, PageInv page := by
  obtain ⟨page₀, hp₀, hslot⟩ := Option.bind_eq_some_iff.1 hs
  intro page hpage
  obtain ⟨i, hi⟩ := List.mem_iff_getElem?.1 hpage
  rw [List.getElem?_modify] at hi
  obtain ⟨q, hq, rfl⟩ := Option.map_eq_some_iff.1 hi
  have hmem := List.mem_of_getElem? hq
  split_ifs with hpi
  · obtain rfl : q = page₀ := Option.some.inj (hq.symm.trans (hpi ▸ hp₀))
    exact hf q hmem (h.page q hmem) hslot
  · exact h.page q hmem

/-- A write that leaves alone whether the slot has been given up. -/
theorem page_modifySlot (h : MapInv m) {index : ℕ} {slot : Slot T} {f : Slot T → Slot T}
    (hs : m.slotAt index = some slot) (hf : (f slot).inactive = slot.inactive) :
    ∀ page ∈ (m.modifySlot index f).pages, PageInv page := by
  refine h.page_modify hs ?_
  intro page _ hpage hslot
  refine ⟨?_, hpage.released⟩
  refine hpage.numInactiveSlots.trans (countP_modify_of_eq fun x hx => ?_).symm
  obtain rfl : slot = x := Option.some.inj (hslot.symm.trans hx)
  exact hf

/-- The page of a slot that is given up. -/
def deactivatePage (index : ℕ) (page : Page T) : Page T where
  rawMemory := if page.numInactiveSlots + 1 = kPageSize then false else page.rawMemory
  slots := page.slots.modify (index % kPageSize) fun slot =>
    { slot with inactive := true, tombstone := true }
  numInactiveSlots := page.numInactiveSlots + 1

/-- `eraseImpl`, the end of a slot whose versions are used up. -/
theorem deactivate_eq {m : SlotMap T} {index : ℕ} {page : Page T}
    (hp : m.pages[index / kPageSize]? = some page) :
    (m.deactivate index).2 = { m with
      numItems := m.numItems - 1
      pages := m.pages.modify (index / kPageSize) (deactivatePage index) } := by
  have hcongr : ∀ f g : Page T → Page T, f page = g page →
      m.pages.modify (index / kPageSize) f = m.pages.modify (index / kPageSize) g := by
    intro f g hfg
    refine List.ext_getElem? fun i => ?_
    rw [List.getElem?_modify, List.getElem?_modify]
    by_cases hi : index / kPageSize = i
    · simp [← hi, hp, hfg]
    · simp [hi]
  unfold SlotMap.deactivate modifySlot
  simp only [List.modify_modify_eq, List.getElem?_modify, hp]
  by_cases hfull : page.numInactiveSlots + 1 = kPageSize
  · simp only [Option.map_eq_map, Option.map_some, if_true, Option.any_some, Function.comp_apply,
      hfull, decide_true]
    exact congrArg (SlotMap.mk · _ _ _) (hcongr _ _ (by simp [deactivatePage, hfull]))
  · simp only [Option.map_eq_map, Option.map_some, if_true, Option.any_some, Function.comp_apply,
      hfull, decide_false, if_false, Bool.false_eq_true]
    exact congrArg (SlotMap.mk · _ _ _) (hcongr _ _ (by simp [deactivatePage, hfull]))

/-! ### The operations -/

/-- `eraseImpl` when it finds an element. -/
theorem eraseImpl_eq {check : Bool} {k : ℕ} {slot : Slot T} (hv : m.validSlot k = some slot)
    (ht : slot.tombstone = false)
    (hk : check = true → slot.version = Key.toVersion k ∧ slot.version ≠ Key.kInvalidVersion) :
    (m.eraseImpl check k).2 =
      if slot.version = Key.kMaxVersion then (m.deactivate (Key.toIndex k)).2
      else { m.modifySlot (Key.toIndex k) fun s =>
          { s with version := Key.increaseVersion slot.version, tombstone := true } with
        numItems := m.numItems - 1
        freeIndices :=
          m.freeIndices ++ [Key.clearTagAndUpdateVersion k (Key.increaseVersion slot.version)] } := by
  have hcheck : ¬ (check = true ∧ (slot.version ≠ Key.toVersion k ∨
      slot.version = Key.kInvalidVersion ∨ Key.toVersion k = Key.kInvalidVersion)) := by
    rintro ⟨hc, h | h | h⟩
    · exact h (hk hc).1
    · exact (hk hc).2 h
    · exact (hk hc).2 ((hk hc).1.trans h)
  unfold SlotMap.eraseImpl
  rw [hv]
  dsimp only
  rw [if_neg (by simp [ht]), if_neg hcheck]
  split_ifs <;> rfl

/-- `eraseImpl` when it finds nothing. -/
theorem eraseImpl_notFound {check : Bool} {k : ℕ} (h : ∀ slot, m.validSlot k = some slot →
    slot.tombstone = true ∨ check = true ∧ slot.version ≠ Key.toVersion k) :
    (m.eraseImpl check k).2 = m := by
  unfold SlotMap.eraseImpl
  split
  · rfl
  · next slot hv =>
      rcases h slot hv with ht | ⟨hc, hk⟩
      · rw [if_pos ht]
      · by_cases ht : slot.tombstone = true
        · rw [if_pos ht]
        · rw [if_neg ht, if_pos ⟨hc, Or.inl hk⟩]

/-- A freed slot does not hold an element. -/
theorem notMem_freeIndices (h : MapInv m) {i : ℕ} {slot : Slot T} (hs : m.slotAt i = some slot)
    (ht : slot.tombstone = false) : i ∉ m.freeIndices.map Key.toIndex := by
  intro hi
  obtain ⟨k, hk, rfl⟩ := List.mem_map.1 hi
  obtain ⟨s, hs', ht', -⟩ := h.free k hk
  obtain rfl : slot = s := Option.some.inj (hs.symm.trans hs')
  exact absurd (ht.symm.trans ht') (by decide)

/-- The end of an element whose slot waits for its next life. -/
theorem removed_recycle (h : MapInv m) {k : ℕ} {slot : Slot T}
    (hs : m.slotAt (Key.toIndex k) = some slot) (ht : slot.tombstone = false)
    (hlt : slot.version < Key.kMaxVersion) (hp : m'.pages = (m.modifySlot (Key.toIndex k) fun s =>
        { s with version := slot.version + 1, tombstone := true }).pages)
    (hmax : m'.maxValidIndex = m.maxValidIndex) (hnum : m'.numItems = m.numItems - 1)
    (hfree : m'.freeIndices = m.freeIndices ++ [Key.make (slot.version + 1) (Key.toIndex k)]) :
    Removed m (Key.toIndex k) slot { slot with version := slot.version + 1, tombstone := true } m' ∧
      MapInv m' := by
  have hslots := congrArg (List.map Page.slots) hp
  have hactive : slot.inactive = false := by
    by_contra ha
    exact absurd (ht.symm.trans (h.inactive _ _ hs (Bool.not_eq_false _ ▸ ha)).1) (by decide)
  have hindex : Key.toIndex (Key.make (slot.version + 1) (Key.toIndex k)) = Key.toIndex k := by
    rw [Key.toIndex_make, Key.toIndex_eq, Nat.mod_mod]
  have hwait := h.notMem_freeIndices hs ht
  refine ⟨⟨hs, ht, rfl, slotAt_of_write hslots hs, numSlots_of_write hslots, hnum,
    Or.inl ⟨hlt, rfl, hactive, hfree⟩⟩, h.of_write hslots hs ?_ hmax
    ⟨Nat.le_succ_of_le (h.version _ _ hs).1, hlt⟩ ?_ ?_ ?_ ?_⟩
  · rw [hp]
    exact h.page_modifySlot hs rfl
  · intro ha
    exact absurd (hactive.symm.trans ha) (by decide)
  · intro k' hk'
    rw [hfree] at hk'
    rcases List.mem_append.1 hk' with hk' | hk'
    · exact Or.inl ⟨hk', fun e => hwait (e ▸ List.mem_map_of_mem hk')⟩
    · rw [List.mem_singleton.1 hk']
      exact Or.inr ⟨hindex, rfl, hactive, rfl⟩
  · rw [hfree, List.map_append, List.map_singleton, hindex]
    exact List.nodup_append.2 ⟨h.nodup, List.nodup_singleton _, fun i hi j hj e => hwait
      (List.mem_singleton.1 hj ▸ e ▸ hi)⟩
  · rw [if_pos rfl, Finset.card_erase_of_mem (h.filled.mem_living.2 ⟨slot, hs, ht⟩), hnum,
      h.numItems]

/-- The end of an element whose slot is given up. -/
theorem removed_deactivate (h : MapInv m) {k : ℕ} {slot : Slot T}
    (hs : m.slotAt (Key.toIndex k) = some slot) (ht : slot.tombstone = false)
    (hv : slot.version = Key.kMaxVersion) :
    Removed m (Key.toIndex k) slot { slot with inactive := true, tombstone := true }
        (m.deactivate (Key.toIndex k)).2 ∧
      MapInv (m.deactivate (Key.toIndex k)).2 := by
  obtain ⟨page, hp, -⟩ := Option.bind_eq_some_iff.1 hs
  have heq := deactivate_eq hp
  generalize (m.deactivate (Key.toIndex k)).2 = m' at heq ⊢
  have hpages : m'.pages = m.pages.modify (Key.toIndex k / kPageSize)
      (deactivatePage (Key.toIndex k)) := by rw [heq]
  have hnum : m'.numItems = m.numItems - 1 := by rw [heq]
  have hmax : m'.maxValidIndex = m.maxValidIndex := by rw [heq]
  have hfree : m'.freeIndices = m.freeIndices := by rw [heq]
  have hactive : slot.inactive = false := by
    by_contra ha
    exact absurd (ht.symm.trans (h.inactive _ _ hs (Bool.not_eq_false _ ▸ ha)).1) (by decide)
  have hslots : m'.pages.map Page.slots = (m.modifySlot (Key.toIndex k) fun slot =>
      { slot with inactive := true, tombstone := true }).pages.map Page.slots := by
    rw [hpages]
    refine List.ext_getElem? fun i => ?_
    simp only [modifySlot, List.getElem?_map, List.getElem?_modify]
    cases m.pages[i]? with
    | none => rfl
    | some page =>
        simp only [Option.map_eq_map, Option.map_some]
        split_ifs <;> rfl
  refine ⟨⟨hs, ht, rfl, slotAt_of_write hslots hs, numSlots_of_write hslots, hnum,
    Or.inr ⟨hv, rfl, rfl, hfree⟩⟩, h.of_write hslots hs ?_ hmax
    ⟨(h.version _ slot hs).1, (h.version _ slot hs).2⟩ (fun _ => ⟨rfl, hv⟩) ?_ (hfree ▸ h.nodup) ?_⟩
  · rw [hpages]
    refine h.page_modify hs ?_
    intro page hmem hpage hslot
    refine ⟨?_, ?_⟩
    · rw [deactivatePage, hpage.numInactiveSlots]
      exact (countP_modify_succ hslot hactive rfl).symm
    · intro hraw
      by_contra hne
      have hold : (deactivatePage (Key.toIndex k) page).rawMemory = page.rawMemory := if_neg hne
      rw [hold, h.rawMemory hmem hslot hactive] at hraw
      cases hraw
  · intro k' hk'
    rw [hfree] at hk'
    refine Or.inl ⟨hk', fun e => ?_⟩
    exact h.notMem_freeIndices hs ht (e ▸ List.mem_map_of_mem hk')
  · rw [if_pos rfl, Finset.card_erase_of_mem (h.filled.mem_living.2 ⟨slot, hs, ht⟩), hnum,
      h.numItems]

/-- **`eraseImpl`** ends the life of the slot that the key leads to, or does nothing when the key
does not lead to an element. -/
theorem eraseImpl (h : MapInv m) (check : Bool) (k : ℕ) : MapInv (m.eraseImpl check k).2 ∧
    ((∃ slot slot', Removed m (Key.toIndex k) slot slot' (m.eraseImpl check k).2 ∧
        (check = true → slot.version = Key.toVersion k)) ∨
      (m.eraseImpl check k).2 = m ∧ ∀ slot, m.slotAt (Key.toIndex k) = some slot →
        slot.tombstone = true ∨ check = true ∧ slot.version ≠ Key.toVersion k) := by
  by_cases hfound : ∃ slot, m.slotAt (Key.toIndex k) = some slot ∧ slot.tombstone = false ∧
      (check = true → slot.version = Key.toVersion k)
  · obtain ⟨slot, hs, ht, hk⟩ := hfound
    have hmin := (h.version _ slot hs).1
    have hmax := (h.version _ slot hs).2
    have hactive : slot.inactive = false := by
      by_contra ha
      exact absurd (ht.symm.trans (h.inactive _ _ hs (Bool.not_eq_false _ ▸ ha)).1) (by decide)
    have heq := eraseImpl_eq (h.validSlot hs hactive) ht
      fun hc => ⟨hk hc, (Nat.pos_iff_ne_zero.1 hmin : slot.version ≠ 0)⟩
    by_cases hv : slot.version = Key.kMaxVersion
    · rw [if_pos hv] at heq
      obtain ⟨hrem, hinv⟩ := h.removed_deactivate hs ht hv
      rw [heq]
      exact ⟨hinv, Or.inl ⟨slot, _, hrem, hk⟩⟩
    · rw [if_neg hv, Key.clearTagAndUpdateVersion_eq] at heq
      have hp := congrArg SlotMap.pages heq
      have hlast := congrArg SlotMap.maxValidIndex heq
      have hnum := congrArg SlotMap.numItems heq
      have hfree := congrArg SlotMap.freeIndices heq
      obtain ⟨hrem, hinv⟩ :=
        h.removed_recycle hs ht (lt_of_le_of_ne hmax hv) hp hlast hnum hfree
      exact ⟨hinv, Or.inl ⟨slot, _, hrem, hk⟩⟩
  · have hnone : ∀ slot, m.slotAt (Key.toIndex k) = some slot →
        slot.tombstone = true ∨ check = true ∧ slot.version ≠ Key.toVersion k := by
      intro slot hs
      by_contra hc
      rw [not_or, Bool.not_eq_true, not_and, not_not] at hc
      exact hfound ⟨slot, hs, hc.1, hc.2⟩
    have he : (m.eraseImpl check k).2 = m :=
      eraseImpl_notFound fun slot hv => hnone slot (slotAt_of_validSlot hv)
    exact ⟨he.symm ▸ h, Or.inr ⟨he, hnone⟩⟩

theorem erase (h : MapInv m) (k : ℕ) : MapInv (m.erase k) := (h.eraseImpl true k).1

/-- A slot that holds an element is counted. -/
theorem numItems_pos (h : MapInv m) {i : ℕ} {slot : Slot T} (hs : m.slotAt i = some slot)
    (ht : slot.tombstone = false) : 0 < m.numItems := by
  rw [h.numItems]
  exact Finset.card_pos.2 ⟨i, h.filled.mem_living.2 ⟨slot, hs, ht⟩⟩

/-- `erase` of a key with the version of its slot. -/
theorem removed (h : MapInv m) {k : ℕ} {slot : Slot T}
    (hs : m.slotAt (Key.toIndex k) = some slot) (ht : slot.tombstone = false)
    (hv : slot.version = Key.toVersion k) : ∃ slot',
      Removed m (Key.toIndex k) slot slot' (m.erase k) ∧
        (m.erase k).numItems + 1 = m.numItems := by
  have hpos := h.numItems_pos hs ht
  obtain ⟨-, ⟨slot₀, slot', hrem, -⟩ | ⟨-, hnone⟩⟩ := h.eraseImpl true k
  · obtain rfl := Option.some.inj (hs.symm.trans hrem.found)
    have hnum : (m.erase k).numItems = m.numItems - 1 := hrem.numItems
    exact ⟨slot', hrem, by omega⟩
  · rcases hnone slot hs with ht' | ⟨-, hne⟩
    · exact absurd (ht.symm.trans ht') (by decide)
    · exact absurd hv hne

/-- **`clear`** -/
theorem clear (h : MapInv m) : MapInv m.clear :=
  clear_rule (fun _ k hm => (hm.eraseImpl false k).1) h

/-- The pages behind `appendElement`. -/
theorem page_appendElement (h : MapInv m) (value : T) :
    ∀ page ∈ (m.appendElement value).1.pages, PageInv page := by
  have hnew : (newSlot value).inactive = false := rfl
  rcases appendElement_pages value m with ⟨pages, page, hp, -, he⟩ | ⟨-, he⟩
  · rw [he]
    intro q hq
    rcases List.mem_append.1 hq with hq | hq
    · exact h.page q (by rw [hp]; exact List.mem_append_left _ hq)
    · have hpage := h.page page (by simp [hp])
      rw [List.mem_singleton.1 hq]
      refine ⟨?_, hpage.released⟩
      simp [hpage.numInactiveSlots, hnew]
  · rw [he]
    intro q hq
    rcases List.mem_append.1 hq with hq | hq
    · exact h.page q hq
    · rw [List.mem_singleton.1 hq]
      exact ⟨by simp [Page.allocate, hnew], fun hraw => by cases hraw⟩

/-- The slot at the front of the free list. -/
theorem emplace_reused (h : MapInv m) (value : T) (hfree : kMinFreeIndices < m.freeIndices.length)
    (hnum : (m.emplace value).2.numItems = m.numItems + 1) : ∃ index version,
    Emplaced m value (m.emplace value).1 (m.emplace value).2 index version ∧
      MapInv (m.emplace value).2 := by
  obtain ⟨k, rest, hk⟩ := List.exists_cons_of_ne_nil
    (List.ne_nil_of_length_pos (by omega : 0 < m.freeIndices.length))
  obtain ⟨-, hrest, hmax, hp⟩ := SlotInv.emplace_reuse value hk hfree
  obtain ⟨slot, hslot, htomb, hactive, hkv⟩ := h.free k (by rw [hk]; exact List.mem_cons_self)
  have hslots := congrArg (List.map Page.slots) hp
  have hnd := h.nodup
  rw [hk, List.map_cons, List.nodup_cons] at hnd
  refine ⟨_, _, SlotInv.emplaced_reuse value hk hfree hslot htomb hactive hkv,
    h.of_write hslots hslot ?_ hmax (h.version _ slot hslot) ?_
      (fun k' hk' => Or.inl ⟨?_, ?_⟩) (hrest ▸ hnd.2) ?_⟩
  · rw [hp]
    exact h.page_modifySlot hslot rfl
  · exact fun ha => absurd (hactive.symm.trans ha) (by decide)
  · rw [hk]
    exact List.mem_cons_of_mem _ (hrest ▸ hk')
  · exact fun e => hnd.1 (e ▸ List.mem_map_of_mem (hrest ▸ hk'))
  · have hnot : Key.toIndex k ∉ m.living := by
      rw [h.filled.mem_living]
      rintro ⟨s, hs, ht⟩
      obtain rfl := Option.some.inj (hslot.symm.trans hs)
      exact absurd (htomb.symm.trans ht) (by decide)
    rw [if_neg (by simp), Finset.card_insert_of_notMem hnot, hnum, h.numItems]

/-- A new slot. -/
theorem emplace_appended (h : MapInv m) (value : T)
    (hfree : ¬ kMinFreeIndices < m.freeIndices.length)
    (hnum : (m.emplace value).2.numItems = m.numItems + 1) : ∃ index version,
    Emplaced m value (m.emplace value).1 (m.emplace value).2 index version ∧
      MapInv (m.emplace value).2 := by
  obtain ⟨-, hrest, hmax, hp⟩ := SlotInv.emplace_append value hfree
  have hem := SlotInv.emplaced_append h.filled value hfree
  have hfilled : Filled (m.emplace value).2 :=
    (h.filled.appendElement value).of_slots (congrArg _ hp)
  have hslots := (numSlots_of_slots (congrArg (List.map Page.slots) hp)).trans
    (numSlots_appendElement value h.filled)
  have hlast := h.maxValidIndex
  rw [h.filled.appendElement_index] at hmax
  refine ⟨_, _, hem, hfilled, ?_, ?_, ?_, ?_, ?_, ?_, ?_⟩
  · rw [hp]
    exact h.page_appendElement value
  · rw [hmax, hslots]
    omega
  · intro i s hi
    rw [hem.slotAt] at hi
    split_ifs at hi with hii
    · obtain rfl := Option.some.inj hi
      exact ⟨le_rfl, show Key.kMinVersion ≤ Key.kMaxVersion by decide⟩
    · exact h.version i s hi
  · intro i s hi ha
    rw [hem.slotAt] at hi
    split_ifs at hi with hii
    · obtain rfl := Option.some.inj hi
      cases ha
    · exact h.inactive i s hi ha
  · intro k hk
    rw [hrest] at hk
    obtain ⟨s, hs, hsk⟩ := h.free k hk
    refine ⟨s, ?_, hsk⟩
    rw [hem.slotAt, if_neg (h.filled.lt_of_slotAt hs).ne, hs]
  · rw [hrest]
    exact h.nodup
  · have hliving : (m.emplace value).2.living = insert m.numSlots m.living := by
      ext i
      rw [hfilled.mem_living, Finset.mem_insert, h.filled.mem_living, hem.slotAt]
      by_cases hi : i = m.numSlots <;> simp [hi]
    have hnot : m.numSlots ∉ m.living := by simp [living]
    rw [hliving, Finset.card_insert_of_notMem hnot, hnum, h.numItems]

/-- **`emplace`** -/
theorem emplace (h : MapInv m) (value : T) :
    ∃ index version, Emplaced m value (m.emplace value).1 (m.emplace value).2 index version ∧
      (m.emplace value).2.numItems = m.numItems + 1 ∧ MapInv (m.emplace value).2 := by
  have hnum : (m.emplace value).2.numItems = m.numItems + 1 := by
    unfold SlotMap.emplace
    split_ifs
    · rfl
    · unfold appendElement
      rfl
  by_cases hfree : kMinFreeIndices < m.freeIndices.length
  · obtain ⟨index, version, hem, hinv⟩ := h.emplace_reused value hfree hnum
    exact ⟨index, version, hem, hnum, hinv⟩
  · obtain ⟨index, version, hem, hinv⟩ := h.emplace_appended value hfree hnum
    exact ⟨index, version, hem, hnum, hinv⟩

/-- A write to the value of a slot. -/
theorem write_value (h : MapInv m) {index : ℕ} {slot : Slot T} (hs : m.slotAt index = some slot)
    (value : T) : MapInv (m.modifySlot index fun slot => { slot with value := value }) := by
  refine h.of_write rfl hs (h.page_modifySlot hs rfl) rfl (h.version _ slot hs)
    (h.inactive _ slot hs) ?_ h.nodup ?_
  · intro k hk
    by_cases hi : Key.toIndex k = index
    · obtain ⟨s, hs', ht, ha, hkey⟩ := h.free k hk
      obtain rfl := Option.some.inj ((hi ▸ hs').symm.trans hs)
      exact Or.inr ⟨hi, ht, ha, hi ▸ hkey⟩
    · exact Or.inl ⟨hk, hi⟩
  · have hmem : index ∈ m.living ↔ slot.tombstone = false := by
      rw [h.filled.mem_living, hs]
      simp
    rw [show (m.modifySlot index _).numItems = m.numItems from rfl, h.numItems]
    by_cases ht : slot.tombstone = true
    · have hnot : index ∉ m.living := fun hi => absurd (ht.symm.trans (hmem.1 hi)) (by decide)
      rw [if_pos ht, Finset.erase_eq_of_notMem hnot]
    · rw [if_neg ht, Finset.insert_eq_of_mem (hmem.2 (Bool.not_eq_true _ ▸ ht))]

end MapInv

end SlotMap

end Data
