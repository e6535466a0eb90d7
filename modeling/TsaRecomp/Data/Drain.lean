/-
**Draining a slot map.**

`LockedSlotmap::erase_first` makes a key of the slot that its iterator stops at and erases by this
key, without a look at what `erase` does.  When the version of the slot, or its index, does not fit
into a key, then the key does not lead back to the slot, and nothing is erased: the loop
`while (erase_first(x))` meets the same element again and again.
`recomputil_destroy_memory_slotmap` runs such a loop, and frees what it meets.

Main definitions:

* `Data.LockedSlotmap.drainLoop` — the loop, with any body;
* `Data.SlotMap.elements` — the elements of a slot map, in the order of their slots;
* `Data.LockedSlotmap.Drains`, `Data.MemorySlotmaps.Destroys` — **the loop ends behind all
  elements**;
* `Data.SlotMap.Erasable` — the slots that hold an element fit into their keys.

Main results:

* `Data.LockedSlotmap.eraseFirst_some` — the call for the first element;
* `Data.LockedSlotmap.drains_of_erasable`, `Data.LockedSlotmap.erasable_of_drains` — the loop ends
  for these slot maps and for no others;
* `Data.drains_iff_erasable` — **so it is in every run**, for the loop and for the function.
-/

import TsaRecomp.Data.HandlesLive
import TsaRecomp.Data.MemorySlotmap

set_option relaxedAutoImplicit false
set_option autoImplicit false

namespace Data

/-! ### The elements of a slot map -/

namespace SlotMap

variable {T : Type} {m : SlotMap T}

/-- The elements, in the order of their slots. -/
def elements (m : SlotMap T) : List T := (List.range m.numSlots).filterMap m.elementAt

/-- The slots that hold an element fit into their keys. -/
def Erasable (m : SlotMap T) : Prop := ∀ i slot, m.slotAt i = some slot → slot.tombstone = false →
  slot.version < Key.kMaxVersion ∧ i ≤ Key.kMaxIndex

theorem elementAt_of_dead {i : ℕ} (h : ∀ slot, m.slotAt i = some slot → slot.tombstone = true) :
    m.elementAt i = none := by
  unfold elementAt
  cases hs : m.slotAt i with
  | none => rfl
  | some slot => rw [Option.bind_some, Slot.element?, if_pos (h slot hs)]

theorem elementAt_of_alive {i : ℕ} {slot : Slot T} (hs : m.slotAt i = some slot)
    (ht : slot.tombstone = false) : m.elementAt i = some slot.value := by
  rw [elementAt, hs, Option.bind_some, Slot.element?, ht]
  rfl

/-- The first element of a list of them. -/
theorem filterMap_range_cons {f f' : ℕ → Option T} {i n : ℕ} {a : T} (hi : i < n)
    (ha : f i = some a) (hbefore : ∀ j < i, f j = none)
    (hf : ∀ j, f' j = if j = i then none else f j) :
    (List.range n).filterMap f = a :: (List.range n).filterMap f' := by
  have hnil : ∀ g : ℕ → Option T, (∀ j < i, g j = none) → (List.range i).filterMap g = [] :=
    fun g hg => List.filterMap_eq_nil_iff.2 fun j hj => hg j (List.mem_range.1 hj)
  induction n, Nat.succ_le_iff.2 hi using Nat.le_induction with
  | base =>
      have hf' : ∀ j < i, f' j = none := fun j hj => by rw [hf, if_neg hj.ne, hbefore j hj]
      rw [List.range_succ, List.filterMap_append, List.filterMap_append, hnil f hbefore,
        hnil f' hf']
      simp [ha, hf]
  | succ n hle ih =>
      have hsame : f' n = f n := by rw [hf, if_neg (by omega)]
      rw [List.range_succ, List.filterMap_append, List.filterMap_append, ih (by omega),
        List.filterMap_cons, List.filterMap_cons, hsame]
      rfl

/-- The key of an element in a slot that fits into it. -/
theorem Holds.leadsTo {key i : ℕ} {slot : Slot T} (h : m.Holds key i slot) (he : m.Erasable) :
    m.LeadsTo key slot ∧ Key.toIndex key = i := by
  obtain ⟨hv, hi⟩ := he i slot h.slotAt h.alive
  have hkey := h.key_eq
  rw [Key.make_eq] at hkey
  unfold Key.kMaxVersion at hv
  unfold Key.kMaxIndex at hi
  have hindex : Key.toIndex key = i := by
    rw [Key.toIndex_eq]
    omega
  refine ⟨⟨hindex.symm ▸ h.slotAt, h.alive, ?_⟩, hindex⟩
  rw [Key.toVersion_eq]
  omega

/-- The elements that are left fit into their keys too. -/
theorem Erasable.removed {m' : SlotMap T} {i : ℕ} {slot slot' : Slot T} (he : m.Erasable)
    (hrem : Removed m i slot slot' m') : m'.Erasable := by
  intro j slot₁ hs ht
  rw [hrem.slotAt] at hs
  split_ifs at hs with hj
  · obtain rfl := Option.some.inj hs
    exact absurd (ht.symm.trans hrem.tombstone) (by decide)
  · exact he j slot₁ hs ht

/-! ### The iterator -/

/-- The loop of `begin` stops at the first index without a tombstone. -/
theorem beginLoop_spec (m : SlotMap T) (n index : ℕ) :
    m.beginLoop n index ≤ index + n ∧
      (∀ i, index ≤ i → i < m.beginLoop n index → m.isTombstone i = true) ∧
      (m.beginLoop n index < index + n → m.isTombstone (m.beginLoop n index) = false) := by
  induction n generalizing index with
  | zero => exact ⟨le_rfl, fun i hi hlt => absurd hlt (not_lt.2 hi), fun h => absurd h (lt_irrefl _)⟩
  | succ n ih =>
      rw [beginLoop]
      by_cases ht : m.isTombstone index = true
      · rw [if_pos ht]
        obtain ⟨hle, hbefore, hstop⟩ := ih (index + 1)
        refine ⟨by omega, fun i hi hlt => ?_, fun h => hstop (by omega)⟩
        rcases hi.eq_or_lt with rfl | hgt
        · exact ht
        · exact hbefore i hgt hlt
      · rw [if_neg ht]
        exact ⟨Nat.le_add_right _ _, fun i hi hlt => absurd hlt (not_lt.2 hi),
          fun _ => Bool.not_eq_true _ ▸ ht⟩

namespace MapInv

variable {i : ℕ} {slot : Slot T}

/-- A slot without an element has a tombstone. -/
theorem isTombstone_of_dead (m : SlotMap T)
    (h : ∀ slot, m.slotAt i = some slot → slot.tombstone = true) : m.isTombstone i = true := by
  unfold isTombstone
  split_ifs
  · rw [Option.all_eq_true]
    exact h
  · rfl

theorem isTombstone_of_alive (h : MapInv m) (hs : m.slotAt i = some slot)
    (ht : slot.tombstone = false) : m.isTombstone i = false := by
  have hactive : slot.inactive = false := by
    by_contra ha
    exact absurd (ht.symm.trans (h.inactive _ _ hs (Bool.not_eq_false _ ▸ ha)).1) (by decide)
  rw [isTombstone, if_pos (h.isActivePage hs hactive), hs, Option.all_some, ht]

/-- The iterator begins at the first element. -/
theorem itemsBegin_eq (h : MapInv m) (hs : m.slotAt i = some slot) (ht : slot.tombstone = false)
    (hbefore : ∀ j < i, ∀ slot, m.slotAt j = some slot → slot.tombstone = true) :
    m.itemsBegin = i ∧ i < m.itemsEnd := by
  have hlt := h.filled.lt_of_slotAt hs
  have hmax := h.maxValidIndex
  have hend : i < m.itemsEnd := by
    unfold itemsEnd
    omega
  have hpages : m.pages.isEmpty = false := by
    obtain ⟨page, hp, -⟩ := Option.bind_eq_some_iff.1 hs
    rw [List.isEmpty_eq_false_iff]
    rintro he
    simp [he] at hp
  have hself := h.isTombstone_of_alive hs ht
  obtain ⟨-, hskip, hstop⟩ := beginLoop_spec m (m.maxValidIndex + 1) 0
  refine ⟨?_, hend⟩
  rw [itemsBegin, hpages, if_neg Bool.false_ne_true]
  rcases Nat.lt_trichotomy (m.beginLoop (m.maxValidIndex + 1) 0) i with hl | he | hg
  · have hdead := isTombstone_of_dead m (hbefore _ hl)
    rw [hstop (by unfold itemsEnd at hend; omega)] at hdead
    cases hdead
  · exact he
  · rw [hskip i (Nat.zero_le i) hg] at hself
    cases hself

/-- Without elements, the iterator begins at the end. -/
theorem itemsBegin_eq_itemsEnd (m : SlotMap T)
    (hnone : ∀ i slot, m.slotAt i = some slot → slot.tombstone = true) :
    m.itemsBegin = m.itemsEnd := by
  rw [itemsBegin]
  split_ifs
  · rfl
  · obtain ⟨hle, -, hstop⟩ := beginLoop_spec m (m.maxValidIndex + 1) 0
    by_contra hne
    unfold itemsEnd at hne
    have := hstop (by omega)
    rw [isTombstone_of_dead m (hnone _)] at this
    cases this

/-- The slot map behind the end of its first element. -/
theorem elements_eq_cons (h : MapInv m) {m' : SlotMap T} {slot' : Slot T}
    (hrem : Removed m i slot slot' m')
    (hbefore : ∀ j < i, ∀ slot, m.slotAt j = some slot → slot.tombstone = true) :
    m.elements = slot.value :: m'.elements := by
  unfold elements
  rw [hrem.numSlots]
  refine filterMap_range_cons (h.filled.lt_of_slotAt hrem.found)
    (elementAt_of_alive hrem.found hrem.alive) (fun j hj => elementAt_of_dead (hbefore j hj)) ?_
  intro j
  unfold elementAt
  rw [hrem.slotAt]
  split_ifs
  · rw [Option.bind_some, Slot.element?, if_pos hrem.tombstone]
  · rfl

/-- What is in a slot that does not fit into a key is never erased by one. -/
theorem slotAt_erase_of_misfit (h : MapInv m) (hs : m.slotAt i = some slot)
    (hbad : slot.version = Key.kMaxVersion ∨ Key.kMaxIndex < i) (k : ℕ) :
    (m.erase k).slotAt i = some slot := by
  obtain ⟨-, ⟨slot₁, slot', hrem, hv⟩ | ⟨he, -⟩⟩ := h.eraseImpl true k
  · have hne : i ≠ Key.toIndex k := by
      rintro rfl
      obtain rfl := Option.some.inj (hs.symm.trans hrem.found)
      have hversion := hv rfl
      rw [Key.toVersion_eq] at hversion
      rw [Key.toIndex_eq] at hbad
      unfold Key.kMaxVersion Key.kMaxIndex at hbad
      omega
    rw [SlotMap.erase, hrem.slotAt, if_neg hne, hs]
  · rw [SlotMap.erase, he, hs]

end MapInv

end SlotMap

/-! ### The loop -/

namespace LockedSlotmap

open SlotMap

variable {ValueType σ : Type}

/-- `while (erase_first(x))`, with its body and a bound on the rounds. -/
def drainLoop (body : ValueType → σ → σ) :
    ℕ → LockedSlotmap ValueType → σ → Option (LockedSlotmap ValueType × σ)
  | 0, _, _ => none
  | fuel + 1, s, x =>
      match s.eraseFirst with
      | (none, s) => some (s, x)
      | (some out, s) => drainLoop body fuel s (body out x)

/-- **The loop ends behind all elements**: it has one round for each of them, in the order of their
slots, and leaves a slot map that is empty and rejects the keys of them. -/
structure Drains (s : LockedSlotmap ValueType) : Prop where
  length : s.map.elements.length = s.size
  loop : ∃ t : LockedSlotmap ValueType, t.size = 0 ∧
    (∀ {σ : Type} (body : ValueType → σ → σ) (x : σ) (fuel : ℕ), drainLoop body fuel s x =
      if s.size < fuel then some (t, s.map.elements.foldl (fun x out => body out x) x)
      else none) ∧
    ∀ key, s.map.Live key → t.get key = none ∧ t.erase key = (false, t)

variable {s : LockedSlotmap ValueType} {i : ℕ} {slot : Slot ValueType}

/-- `erase_first` without elements. -/
theorem eraseFirst_none (hnone : ∀ i slot, s.map.slotAt i = some slot → slot.tombstone = true) :
    s.eraseFirst = (none, s) := by
  unfold eraseFirst
  rw [if_pos (MapInv.itemsBegin_eq_itemsEnd s.map hnone)]

/-- **`erase_first` at the first element**: it is erased by the key that is made of its slot. -/
theorem eraseFirst_some (h : s.map.MapInv) (hs : s.map.slotAt i = some slot)
    (ht : slot.tombstone = false)
    (hbefore : ∀ j < i, ∀ slot, s.map.slotAt j = some slot → slot.tombstone = true) :
    s.eraseFirst = (some slot.value, ⟨s.map.erase (Key.make slot.version i)⟩) := by
  obtain ⟨hbegin, hlt⟩ := h.itemsBegin_eq hs ht hbefore
  unfold eraseFirst
  rw [hbegin, if_neg hlt.ne, hs]

/-- The first element, if there is one. -/
theorem exists_first (s : LockedSlotmap ValueType) :
    (∀ i slot, s.map.slotAt i = some slot → slot.tombstone = true) ∨
      ∃ i slot, s.map.slotAt i = some slot ∧ slot.tombstone = false ∧
        ∀ j < i, ∀ slot, s.map.slotAt j = some slot → slot.tombstone = true := by
  classical
  by_cases hex : ∃ i slot, s.map.slotAt i = some slot ∧ slot.tombstone = false
  · obtain ⟨slot, hs, ht⟩ := Nat.find_spec hex
    refine Or.inr ⟨Nat.find hex, slot, hs, ht, fun j hj slot hs => ?_⟩
    by_contra hne
    exact Nat.find_min hex hj ⟨slot, hs, Bool.not_eq_true _ ▸ hne⟩
  · refine Or.inl fun i slot hs => ?_
    by_contra hne
    exact hex ⟨i, slot, hs, Bool.not_eq_true _ ▸ hne⟩

/-- Without elements, nothing is counted. -/
theorem size_eq_zero (h : s.map.MapInv)
    (hnone : ∀ i slot, s.map.slotAt i = some slot → slot.tombstone = true) : s.size = 0 := by
  rw [size, h.numItems, Finset.card_eq_zero, Finset.eq_empty_iff_forall_notMem]
  intro i hi
  obtain ⟨slot, hs, ht⟩ := h.filled.mem_living.1 hi
  exact absurd (ht.symm.trans (hnone i slot hs)) (by decide)

/-- The elements of `m` have ended, and nothing else has happened. -/
structure Swept (m m' : SlotMap ValueType) : Prop where
  dead : ∀ i slot, m.slotAt i = some slot → slot.tombstone = true → m'.slotAt i = some slot
  ended : ∀ i slot, m.slotAt i = some slot → slot.tombstone = false →
    ∃ slot', m'.slotAt i = some slot' ∧ slot'.version = slot.version + 1

/-- The first element that fits into its key is erased by it. -/
theorem removed_first (h : s.map.MapInv) (he : s.map.Erasable)
    (hs : s.map.slotAt i = some slot) (ht : slot.tombstone = false) : ∃ slot',
      Removed s.map i slot slot' (s.map.erase (Key.make slot.version i)) ∧
        slot'.version = slot.version + 1 ∧
        (s.map.erase (Key.make slot.version i)).numItems + 1 = s.map.numItems := by
  have hholds : s.map.Holds (Key.make slot.version i) i slot :=
    ⟨hs, ht, Nat.mod_eq_of_lt (Key.make_lt _ _)⟩
  obtain ⟨hleads, hindex⟩ := hholds.leadsTo he
  obtain ⟨slot', hrem, hnum⟩ := h.removed hleads.slotAt ht hleads.version_eq
  rw [hindex] at hrem
  refine ⟨slot', hrem, ?_, hnum⟩
  rcases hrem.next with ⟨-, hv', -⟩ | ⟨hmax, -⟩
  · exact hv'
  · exact absurd hmax (he i slot hs ht).1.ne

theorem Swept.refl {m : SlotMap ValueType}
    (hnone : ∀ i slot, m.slotAt i = some slot → slot.tombstone = true) : Swept m m :=
  ⟨fun _ _ hs _ => hs, fun i slot hs ht => absurd (ht.symm.trans (hnone i slot hs)) (by decide)⟩

/-- An element ends before the others. -/
theorem Swept.removed {m m' m'' : SlotMap ValueType} {slot' : Slot ValueType}
    (hrem : Removed m i slot slot' m') (hv : slot'.version = slot.version + 1)
    (hsw : Swept m' m'') : Swept m m'' := by
  have hat := hrem.slotAt
  constructor
  · intro j slot₁ hs ht
    have hne : j ≠ i := by
      rintro rfl
      obtain rfl := Option.some.inj (hs.symm.trans hrem.found)
      exact absurd (ht.symm.trans hrem.alive) (by decide)
    exact hsw.dead j slot₁ (by rw [hat, if_neg hne, hs]) ht
  · intro j slot₁ hs ht
    by_cases hj : j = i
    · subst hj
      obtain rfl := Option.some.inj (hs.symm.trans hrem.found)
      exact ⟨slot', hsw.dead j slot' (by rw [hat, if_pos rfl]) hrem.tombstone, hv⟩
    · exact hsw.ended j slot₁ (by rw [hat, if_neg hj, hs]) ht

/-- What the loop does to `s`: it ends in `t`. -/
structure DrainsTo (s t : LockedSlotmap ValueType) : Prop where
  map : t.map.MapInv
  size : t.size = 0
  swept : Swept s.map t.map
  length : s.map.elements.length = s.size
  loop : ∀ {σ : Type} (body : ValueType → σ → σ) (x : σ) (fuel : ℕ), drainLoop body fuel s x =
    if s.size < fuel then some (t, s.map.elements.foldl (fun x out => body out x) x) else none

theorem DrainsTo.none (h : s.map.MapInv)
    (hnone : ∀ i slot, s.map.slotAt i = some slot → slot.tombstone = true) : DrainsTo s s := by
  have hsize := size_eq_zero h hnone
  have hnil : s.map.elements = [] :=
    List.filterMap_eq_nil_iff.2 fun i _ => elementAt_of_dead (hnone i)
  refine ⟨h, hsize, .refl hnone, by rw [hnil, hsize]; rfl, ?_⟩
  intro σ body x fuel
  rw [hsize, hnil]
  cases fuel with
  | zero => rfl
  | succ fuel =>
      rw [drainLoop, eraseFirst_none hnone]
      rfl

/-- A round of the loop. -/
theorem DrainsTo.first (h : s.map.MapInv) (he : s.map.Erasable) {t : LockedSlotmap ValueType}
    (hs : s.map.slotAt i = some slot) (ht : slot.tombstone = false)
    (hbefore : ∀ j < i, ∀ slot, s.map.slotAt j = some slot → slot.tombstone = true)
    (hrest : DrainsTo ⟨s.map.erase (Key.make slot.version i)⟩ t) : DrainsTo s t := by
  obtain ⟨slot', hrem, hv', hnum⟩ := removed_first h he hs ht
  have hcons := h.elements_eq_cons hrem hbefore
  have hsize : s.size = (s.map.erase (Key.make slot.version i)).numItems + 1 := hnum.symm
  refine ⟨hrest.map, hrest.size, .removed hrem hv' hrest.swept, ?_, ?_⟩
  · rw [hcons, List.length_cons, hsize]
    exact congrArg (· + 1) hrest.length
  · intro σ body x fuel
    cases fuel with
    | zero => rfl
    | succ fuel =>
        rw [drainLoop, eraseFirst_some h hs ht hbefore]
        dsimp only
        rw [hrest.loop, hcons, hsize, List.foldl_cons]
        simp only [Nat.add_lt_add_iff_right]
        rfl

/-- **The loop over the elements**, by their number. -/
theorem exists_drainsTo (h : s.map.MapInv) (he : s.map.Erasable) :
    ∃ t : LockedSlotmap ValueType, DrainsTo s t := by
  induction hn : s.size generalizing s with
  | zero =>
      rcases s.exists_first with hnone | ⟨i, slot, hs, ht, -⟩
      · exact ⟨s, .none h hnone⟩
      · exact absurd hn (h.numItems_pos hs ht).ne'
  | succ n ih =>
      rcases s.exists_first with hnone | ⟨i, slot, hs, ht, hbefore⟩
      · rw [size_eq_zero h hnone] at hn
        cases hn
      · obtain ⟨slot', hrem, -, hnum⟩ := removed_first h he hs ht
        have hsize : (⟨s.map.erase (Key.make slot.version i)⟩ : LockedSlotmap ValueType).size = n :=
          Nat.succ_injective (hnum.trans hn)
        obtain ⟨t, hrest⟩ := ih (h.erase _) (he.removed hrem) hsize
        exact ⟨t, .first h he hs ht hbefore hrest⟩

/-- A loop over slots that fit into their keys. -/
theorem drains_of_erasable (h : s.map.MapInv) (he : s.map.Erasable) : Drains s := by
  obtain ⟨t, ht⟩ := exists_drainsTo h he
  refine ⟨ht.length, t, ht.size, ht.loop, ?_⟩
  rintro key ⟨i, slot, hholds⟩
  obtain ⟨hleads, hindex⟩ := hholds.leadsTo he
  obtain ⟨slot', hs', hv'⟩ := ht.swept.ended i slot hholds.slotAt hholds.alive
  have hget : t.get key = none := by
    refine ht.map.getImpl_of_noMatch ?_
    rw [hindex, hs']
    rintro _ ⟨⟩
    rw [hv', ← hleads.version_eq]
    exact Nat.succ_ne_self _
  refine ⟨hget, ?_⟩
  rw [SlotmapTrace.erase_eq, hget]
  rfl

/-- An element that does not fit into its key. -/
structure Stuck (s : LockedSlotmap ValueType) : Prop where
  map : s.map.MapInv
  misfit : ∃ i slot, s.map.slotAt i = some slot ∧ slot.tombstone = false ∧
    (slot.version = Key.kMaxVersion ∨ Key.kMaxIndex < i)

/-- It stays, and the loop never ends. -/
theorem Stuck.drainLoop (h : Stuck s) (body : ValueType → σ → σ) (x : σ) (fuel : ℕ) :
    drainLoop body fuel s x = none := by
  induction fuel generalizing s x with
  | zero => rfl
  | succ fuel ih =>
      obtain ⟨i, slot, hs, ht, hbad⟩ := h.misfit
      rcases s.exists_first with hnone | ⟨i₁, slot₁, hs₁, ht₁, hbefore⟩
      · exact absurd (ht.symm.trans (hnone i slot hs)) (by decide)
      · rw [LockedSlotmap.drainLoop, eraseFirst_some h.map hs₁ ht₁ hbefore]
        exact ih ⟨h.map.erase _, i, slot, h.map.slotAt_erase_of_misfit hs hbad _, ht, hbad⟩ _

theorem erasable_or_stuck (h : s.map.MapInv) : s.map.Erasable ∨ Stuck s := by
  by_cases he : s.map.Erasable
  · exact Or.inl he
  · refine Or.inr ⟨h, ?_⟩
    unfold Erasable at he
    push Not at he
    obtain ⟨i, slot, hs, ht, hbad⟩ := he
    refine ⟨i, slot, hs, ht, ?_⟩
    by_cases hv : slot.version < Key.kMaxVersion
    · exact Or.inr (hbad hv)
    · exact Or.inl (le_antisymm (h.version i slot hs).2 (not_lt.1 hv))

/-- The loop ends for no others. -/
theorem erasable_of_drains (h : s.map.MapInv) (hd : Drains s) : s.map.Erasable := by
  refine (erasable_or_stuck h).resolve_right fun hstuck => ?_
  obtain ⟨-, t, -, hloop, -⟩ := hd
  have hends := hloop (fun _ x => x) () (s.size + 1)
  rw [hstuck.drainLoop, if_pos (Nat.lt_succ_self _)] at hends
  cases hends

end LockedSlotmap

/-! ### The memory slotmaps -/

namespace MemorySlotmaps

variable {s : MemorySlotmaps} {mapkey : ℕ} {slot : Slot MemorySlotmap}

/-- The loop of `recomputil_destroy_memory_slotmap` is such a loop. -/
theorem drainLoop_eq (fuel : ℕ) (first : LockedSlotmap (BitVec 32)) (heap : Heap) :
    drainLoop fuel first heap =
      first.drainLoop (fun curMem heap => heap.free (toPtr curMem)) fuel heap := by
  induction fuel generalizing first heap with
  | zero => rfl
  | succ fuel ih =>
      rw [drainLoop, LockedSlotmap.drainLoop]
      rcases first.eraseFirst with ⟨_ | curMem, first⟩
      · rfl
      · exact ih _ _

theorem freed_foldl (values : List (BitVec 32)) (heap : Heap) :
    (values.foldl (fun heap curMem => heap.free (toPtr curMem)) heap).freed =
      (values.map toPtr).reverse ++ heap.freed := by
  induction values generalizing heap with
  | nil => rfl
  | cons curMem values ih =>
      rw [List.foldl_cons, ih, Heap.freed_free, List.map_cons, List.reverse_cons, List.append_assoc]
      rfl

/-- **`recomputil_destroy_memory_slotmap` ends**, when it has freed what each element leads to. -/
def Destroys (s : MemorySlotmaps) (mapkey : ℕ) (slot : Slot MemorySlotmap) : Prop :=
  ∃ u : MemorySlotmaps, (∀ fuel, s.destroyMemorySlotmap fuel mapkey =
      if slot.value.first.size < fuel then some u else none) ∧
    u.heap.freed = (slot.value.first.map.elements.map toPtr).reverse ++ s.heap.freed

theorem destroys_iff_erasable (hg : s.slotmaps.get mapkey = some slot)
    (h : slot.value.first.map.MapInv) :
    s.Destroys mapkey slot ↔ slot.value.first.map.Erasable := by
  have hcall : ∀ fuel, s.destroyMemorySlotmap fuel mapkey =
      (slot.value.first.drainLoop (fun curMem heap => heap.free (toPtr curMem)) fuel s.heap).map
        fun r => ⟨((s.slotmaps.update mapkey fun map => { map with first := r.1 }).erase mapkey).2,
          r.2⟩ := by
    intro fuel
    unfold destroyMemorySlotmap
    rw [hg]
    dsimp only
    rw [drainLoop_eq]
    cases slot.value.first.drainLoop (fun curMem heap => heap.free (toPtr curMem)) fuel s.heap with
    | none => rfl
    | some r => rfl
  constructor
  · rintro ⟨u, hends, -⟩
    refine (LockedSlotmap.erasable_or_stuck h).resolve_right fun hstuck => ?_
    have hend := hends (slot.value.first.size + 1)
    rw [hcall, hstuck.drainLoop, if_pos (Nat.lt_succ_self _)] at hend
    cases hend
  · intro he
    obtain ⟨t, ht⟩ := LockedSlotmap.exists_drainsTo h he
    refine ⟨⟨((s.slotmaps.update mapkey fun map => { map with first := t }).erase mapkey).2,
      slot.value.first.map.elements.foldl (fun heap curMem => heap.free (toPtr curMem)) s.heap⟩,
      fun fuel => ?_, freed_foldl _ _⟩
    rw [hcall, ht.loop]
    split_ifs <;> rfl

end MemorySlotmaps

/-! ### The result -/

/-- **A loop over a slot map ends when every element fits into its key, and otherwise never does**;
and so does the end of a memory slotmap. -/
theorem drains_iff_erasable {ValueType : Type} {s : SlotmapTrace ValueType} (h : s.Reachable) :
    (s.state.Drains ↔ s.state.map.Erasable) ∧
    ∀ {s : SlotmapTrace (BitVec 32)}, s.Reachable →
      ∀ {u : MemorySlotmaps} {mapkey : ℕ} {slot : Slot MemorySlotmap},
        u.slotmaps.get mapkey = some slot → slot.value.first = s.state →
          (u.Destroys mapkey slot ↔ s.state.map.Erasable) := by
  refine ⟨?_, fun hr u mapkey slot hg hfirst => ?_⟩
  · have hm := h.inv.map
    exact ⟨LockedSlotmap.erasable_of_drains hm, LockedSlotmap.drains_of_erasable hm⟩
  · have hm := hr.inv.map
    rw [← hfirst] at hm ⊢
    exact MemorySlotmaps.destroys_iff_erasable hg hm

/-- A slot map with one element, and the end of an empty memory slotmap. -/
theorem drains_iff_erasable_first :
    (SlotmapTrace.init.next (.create 5)).state.Drains ∧
      MemorySlotmaps.Destroys ⟨⟨(SlotMap.empty.emplace ⟨⟨.empty⟩, 0⟩).2⟩, ⟨fun _ => 0, [], []⟩⟩
        0x100000 ⟨1, false, false, ⟨⟨.empty⟩, 0⟩⟩ := by
  have hr : SlotmapTrace.Reachable (SlotmapTrace.init.next (.create 5)) :=
    SlotmapTrace.Reachable.init.next _
  have hone : (SlotmapTrace.init.next (.create 5)).state.map.Erasable := by
    intro i slot hs _
    obtain rfl : i = 0 := Nat.lt_one_iff.1 (hr.inv.map.filled.lt_of_slotAt hs)
    obtain rfl := Option.some.inj hs
    exact ⟨by decide, by decide⟩
  have hnone : (SlotMap.empty : SlotMap (BitVec 32)).Erasable := fun i slot hs => by simp at hs
  exact ⟨(drains_iff_erasable hr).1.2 hone,
    ((drains_iff_erasable hr).2 SlotmapTrace.Reachable.init rfl rfl).2 hnone⟩

/-- The slot maps that runs lead to are closed under turns. -/
theorem turns_reachable : Turns fun m => ∃ s : SlotmapTrace ℕ, s.Reachable ∧ s.state.map = m := by
  rintro m ⟨s, hr, rfl⟩ - -
  refine ⟨7, _, (hr.next (.create 7)).next (.erase (s.state.create 7).1), ?_⟩
  exact LockedSlotmap.map_erase _ _

/-- **The loop that never ends**: behind 65 · 1023 pairs of a `create` and an `erase` of its key, an
element is created. -/
theorem drain_never_ends : ¬ ∀ s : SlotmapTrace ℕ, s.Reachable → s.state.Drains := by
  intro h
  obtain ⟨m, ⟨s, hr, rfl⟩, hinv, hnum, hfree⟩ :=
    Waits.exists_version (m := SlotMap.empty) turns_reachable
      ⟨⟨_, SlotmapTrace.Reachable.init, rfl⟩, .empty, rfl, rfl⟩ Key.kMaxVersion (by decide) le_rfl
  have hr' := hr.next (.create 7)
  have he := LockedSlotmap.erasable_of_drains hr'.inv.map (h _ hr')
  obtain ⟨index, version, hem, -⟩ := hinv.emplace 7
  obtain ⟨-, hi, ⟨slot, hs, -, rfl⟩, -⟩ | ⟨hle, -⟩ := hem.index_eq
  · -- the key at the front of the free list is made of the version 0x400
    have hhead : s.state.map.freeIndices.headD 0 = Key.make Key.kMaxVersion 0 := by
      rw [hfree]
      rfl
    have hmem : Key.make Key.kMaxVersion 0 ∈ s.state.map.freeIndices := by
      rw [hfree]
      exact List.mem_map_of_mem (List.mem_range.2 (by decide))
    obtain ⟨slot', hs', -, hkey⟩ := hinv.free _ hmem
    rw [hhead] at hi
    obtain rfl := Option.some.inj (hs.symm.trans (hi ▸ hs'))
    have hfits := (he index _ ((hem.slotAt index).trans (if_pos rfl)) rfl).1
    have hmin := (hinv.version index slot hs).1
    have hversion := congrArg Key.toVersion hkey
    rw [Key.toVersion_make, Key.toVersion_make] at hversion
    unfold Key.kMaxVersion Key.kMinVersion at *
    dsimp only at hfits
    omega
  · rw [hfree] at hle
    exact absurd hle (by decide)

end Data
