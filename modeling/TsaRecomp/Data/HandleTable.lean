/-
**The handle tables.**

The program gives its mods handles to objects in two ways: the `LockedSlotmap`s behind
`recomputil_create_*` and `recomputil_destroy_*`, and the slot map of each object type behind
`recomp_create_object_data` and `recomp_destroy_object_data`.  Both keep their objects in a slot map
and put the key into the handle.  This module says what the two have in common, and settles when a
table lives up to what it is for: a handle leads to its object as long as the object lives, and no
other object is ever given the same handle.

A key has ten bits for the version, and 0x400 is a version: the object that is put into a slot of
this version gets a handle that does not lead to it.  And a key has twenty bits for the index, which
nothing keeps the indices to.

Main definitions:

* `Data.HandleTable` — a table of handles that is kept in a slot map;
* `Data.HandleTable.Trace` — a state of the table, with the handles it has issued;
* `Data.SlotMap.EmplaceOk`, `Data.HandleTable.Ok` — the operations that a table is up to;
* `Data.HandleTable.HandlesLive` — **handles live as long as their objects**;
* `Data.LockedSlotmap`, `Data.lockedSlotmap` — the first of the two tables.

Main results:

* `Data.HandleTable.Trace.refines` — a step of a table is a step of an abstract table of handles;
* `Data.HandleTable.Reachable.handlesLive` — every table lives up to its purpose under
  `Data.HandleTable.Ok`.
-/

import TsaRecomp.Lib.Handles
import TsaRecomp.Data.SlotMapInv

set_option relaxedAutoImplicit false
set_option autoImplicit false

namespace Data

/-! ### Keys and their elements -/

namespace SlotMap

variable {T : Type}

/-- The element that a key leads to. -/
def resolve (m : SlotMap T) (k : ℕ) : Option T := (m.getImpl k).bind Slot.element?

/-- `emplace` answers with a new key that leads to the element: the slot that it uses again has not
reached the version 0x400, or the index of the new slot fits into a key. -/
def EmplaceOk (m : SlotMap T) : Prop :=
  if kMinFreeIndices < m.freeIndices.length then
    ∀ slot ∈ m.slotAt (Key.toIndex (m.freeIndices.headD 0)), slot.version < Key.kMaxVersion
  else m.numSlots ≤ Key.kMaxIndex

theorem SlotInv.resolve_eq_some {m : SlotMap T} (h : SlotInv m) {k : ℕ} {e : T} :
    m.resolve k = some e ↔ ∃ slot, m.slotAt (Key.toIndex k) = some slot ∧
      slot.version = Key.toVersion k ∧ slot.tombstone = false ∧ slot.value = e := by
  rw [resolve, h.getImpl_eq]
  cases hs : m.slotAt (Key.toIndex k) with
  | none => simp
  | some slot =>
      by_cases hv : slot.version = Key.toVersion k <;> by_cases ht : slot.tombstone = true <;>
        simp [Option.filter, Slot.element?, hv, ht]

/-- The life of the slot that a key is for is over, or has never been one. -/
def Passed (m : SlotMap T) (k : ℕ) : Prop :=
  ∃ slot, m.slotAt (Key.toIndex k) = some slot ∧ Key.toVersion k < slot.version

namespace SlotInv

variable {m : SlotMap T} {k : ℕ} {e : T}

theorem getImpl_of_passed (h : SlotInv m) (hp : m.Passed k) : m.getImpl k = none := by
  obtain ⟨slot, hs, hlt⟩ := hp
  rw [h.getImpl_eq, hs, Option.filter_some, if_neg]
  simpa using hlt.ne'

theorem getImpl_of_resolve (h : SlotInv m) (he : m.resolve k = some e) :
    ∃ slot, m.getImpl k = some slot ∧ slot.value = e := by
  obtain ⟨slot, hs, hv, -, hval⟩ := h.resolve_eq_some.1 he
  refine ⟨slot, ?_, hval⟩
  rw [h.getImpl_eq, hs, Option.filter_some, if_pos (by simpa using hv)]

theorem passed_emplace (h : SlotInv m) (value : T) (hp : m.Passed k) :
    (m.emplace value).2.Passed k := by
  obtain ⟨slot, hs, hlt⟩ := hp
  obtain ⟨index, version, hem, -⟩ := h.emplace value
  obtain ⟨slot', hs', hle, -⟩ := hem.slot h.filled hs
  exact ⟨slot', hs', hlt.trans_le hle⟩

theorem passed_erase (h : SlotInv m) (k' : ℕ) (hp : m.Passed k) : (m.erase k').Passed k := by
  obtain ⟨slot, hs, hlt⟩ := hp
  obtain ⟨-, ⟨slot₀, her⟩ | ⟨he, -⟩⟩ := h.erase k'
  · obtain ⟨slot', hs', hle, -⟩ := her.slot hs
    exact ⟨slot', hs', hlt.trans_le hle⟩
  · rw [he]
    exact ⟨slot, hs, hlt⟩

/-- A handle that an object is destroyed with. -/
theorem passed_of_erase (h : SlotInv m) {k' : ℕ} (he : m.resolve k = some e)
    (hi : Key.toIndex k' = Key.toIndex k) (hv : Key.toVersion k' = Key.toVersion k) :
    (m.erase k').Passed k := by
  obtain ⟨slot, hs, hversion, ht, -⟩ := h.resolve_eq_some.1 he
  obtain ⟨-, ⟨slot₀, her⟩ | ⟨-, hnone⟩⟩ := h.erase k'
  · refine ⟨_, (her.slotAt _).trans (if_pos hi.symm), ?_⟩
    rw [her.version_eq, hv]
    exact Nat.lt_succ_self _
  · have hlive : m.resolve k' = some slot.value :=
      h.resolve_eq_some.2 ⟨slot, hi ▸ hs, hversion.trans hv.symm, ht, rfl⟩
    exact absurd (hlive.symm.trans hnone) (Option.some_ne_none _)

theorem resolve_emplace (h : SlotInv m) (value : T) (he : m.resolve k = some e) :
    (m.emplace value).2.resolve k = some e := by
  obtain ⟨slot, hs, hv, ht, hval⟩ := h.resolve_eq_some.1 he
  obtain ⟨index, version, hem, hinv⟩ := h.emplace value
  obtain ⟨slot', hs', -, hsame⟩ := hem.slot h.filled hs
  obtain rfl := hsame ht
  exact hinv.resolve_eq_some.2 ⟨_, hs', hv, ht, hval⟩

theorem resolve_erase (h : SlotInv m) {k' : ℕ} (he : m.resolve k = some e)
    (hne : ¬ (Key.toIndex k' = Key.toIndex k ∧ Key.toVersion k' = Key.toVersion k)) :
    (m.erase k').resolve k = some e := by
  obtain ⟨slot, hs, hv, ht, hval⟩ := h.resolve_eq_some.1 he
  obtain ⟨hinv, ⟨slot₀, her⟩ | ⟨heq, -⟩⟩ := h.erase k'
  · have hindex : Key.toIndex k ≠ Key.toIndex k' := by
      intro hi
      obtain rfl := Option.some.inj ((hi ▸ hs).symm.trans her.found)
      exact hne ⟨hi.symm, her.version_eq.symm.trans hv⟩
    obtain ⟨slot', hs', -, hsame⟩ := her.slot hs
    obtain rfl := hsame hindex
    exact hinv.resolve_eq_some.2 ⟨_, hs', hv, ht, hval⟩
  · rw [heq]
    exact he

/-- The handle that `emplace` answers with leads to the new element, or never to any: unless it
appends a slot under a key that is in use. -/
theorem resolve_or_passed (h : SlotInv m) (value : T)
    (hfirst : m.freeIndices.length ≤ kMinFreeIndices →
      m.getImpl (Key.make Key.kMinVersion m.numSlots) = none) :
    (m.emplace value).2.resolve (m.emplace value).1 = some value ∨
      (m.emplace value).2.Passed (m.emplace value).1 := by
  obtain ⟨index, version, hem, hinv⟩ := h.emplace value
  have hself := hem.slotAt index
  rw [if_pos rfl] at hself
  obtain ⟨hmin, hmax, -⟩ := hinv.version _ _ hself
  rw [hinv.resolve_eq_some, Passed, hem.key, Key.toIndex_make, Key.toVersion_make]
  rcases hem.index_eq with ⟨hfree, hi, -, -⟩ | ⟨hfree, hi, hv, -⟩
  · have hlt : index % 2 ^ 20 = index := by rw [hi, Key.toIndex_eq, Nat.mod_mod]
    rw [hlt, hself]
    unfold Key.kMinVersion Key.kMaxVersion at *
    rcases Nat.lt_or_ge version (2 ^ 10) with hlt | hge
    · exact Or.inl ⟨_, rfl, (Nat.mod_eq_of_lt hlt).symm, rfl, rfl⟩
    · refine Or.inr ⟨_, rfl, ?_⟩
      dsimp only at hmax hmin ⊢
      omega
  · by_cases hlt : index % 2 ^ 20 = index
    · rw [hlt, hself, hv]
      exact Or.inl ⟨_, rfl, rfl, rfl, rfl⟩
    · -- the slot that the key leads to has had its first life
      right
      obtain ⟨slot, hs⟩ := h.filled.exists_slotAt (i := index % 2 ^ 20) (by omega)
      have hnone := hfirst hfree
      rw [h.getImpl_eq, Key.toIndex_make, Key.toVersion_make, ← hi, hs, Option.filter_some] at hnone
      have hne : slot.version ≠ Key.kMinVersion % 2 ^ 10 := by
        intro heq
        simp [heq] at hnone
      obtain ⟨slot', hs', hle, -⟩ := hem.slot h.filled hs
      obtain ⟨hmin', -, -⟩ := h.version _ _ hs
      refine ⟨slot', hs', ?_⟩
      rw [hv]
      unfold Key.kMinVersion at *
      omega

end SlotInv

/-- The handles that a slot map has answered with: each is the key of one life of a slot, of the
present one or of one that is over. -/
structure Issued (m : SlotMap T) (issued : List ℕ) : Prop where
  slots : SlotInv m
  handle : ∀ h ∈ issued, h < 2 ^ 30 ∧ ∃ slot, m.slotAt (Key.toIndex h) = some slot ∧
    Key.toVersion h ≤ slot.version ∧ (slot.tombstone = true → Key.toVersion h < slot.version)
  /-- Every slot has had a first life. -/
  first : ∀ i < m.numSlots, Key.make Key.kMinVersion i ∈ issued

namespace Issued

variable {m m' : SlotMap T} {issued : List ℕ} {value : T} {k index version : ℕ}

theorem empty : Issued (SlotMap.empty : SlotMap T) [] :=
  ⟨.empty, fun _ h => (List.not_mem_nil h).elim, fun _ h => (Nat.not_lt_zero _ h).elim⟩

/-- A handle leads to the element of the slot in the life that it is the key of. -/
theorem resolve_of_slotAt (hi : SlotInv m) {h : ℕ} {slot : Slot T}
    (hs : m.slotAt (Key.toIndex h) = some slot) :
    m.resolve h = if slot.version = Key.toVersion h ∧ slot.tombstone = false then some slot.value
      else none := by
  split_ifs with hc
  · exact hi.resolve_eq_some.2 ⟨slot, hs, hc.1, hc.2, rfl⟩
  · refine Option.eq_none_iff_forall_ne_some.2 ?_
    intro e he
    obtain ⟨s, hs', hv, ht, -⟩ := hi.resolve_eq_some.1 he
    obtain rfl : slot = s := Option.some.inj (hs.symm.trans hs')
    exact hc ⟨hv, ht⟩

/-- The life of the slot that begins fits into a key. -/
theorem fits (hem : Emplaced m value k m' index version) (hok : EmplaceOk m) :
    Key.toVersion k = version ∧ Key.toIndex k = index := by
  have key : version < 2 ^ 10 ∧ index < 2 ^ 20 := by
    unfold EmplaceOk at hok
    rcases hem.index_eq with ⟨hfree, hi, ⟨slot, hs, -, hv⟩, -⟩ | ⟨hfree, hi, hv, -⟩
    · rw [if_pos hfree, ← hi] at hok
      refine ⟨hv ▸ hok slot hs, ?_⟩
      rw [hi, Key.toIndex_eq]
      exact Nat.mod_lt _ (by decide)
    · rw [if_neg (not_lt.2 hfree)] at hok
      refine ⟨by rw [hv]; decide, ?_⟩
      rw [hi]
      exact Nat.lt_succ_of_le hok
  rw [hem.key, Key.toVersion_make, Key.toIndex_make]
  exact ⟨Nat.mod_eq_of_lt key.1, Nat.mod_eq_of_lt key.2⟩

/-- The handle that `emplace` answers with leads to the element. -/
theorem resolve_emplace (hs : SlotInv m) (hok : EmplaceOk m) (value : T) :
    (m.emplace value).2.resolve (m.emplace value).1 = some value := by
  obtain ⟨index, version, hem, hinv⟩ := hs.emplace value
  obtain ⟨hversion, hindex⟩ := fits hem hok
  have hself := hem.slotAt index
  rw [if_pos rfl, ← hindex] at hself
  exact hinv.resolve_eq_some.2 ⟨_, hself, hversion.symm, rfl, rfl⟩

/-- The handles issued before are keys of earlier lives of the slot. -/
theorem earlier (h : Issued m issued) (hem : Emplaced m value k m' index version) {k' : ℕ}
    (hk' : k' ∈ issued) (he : Key.toIndex k' = index) : Key.toVersion k' < version := by
  obtain ⟨-, slot, hs, -, ht⟩ := h.handle k' hk'
  rcases hem.index_eq with ⟨-, -, ⟨slot', hs', ht', hv⟩, -⟩ | ⟨-, hi, -, -⟩
  · obtain rfl := Option.some.inj ((he ▸ hs).symm.trans hs')
    exact hv ▸ ht ht'
  · rw [he, hi] at hs
    exact absurd (h.slots.filled.lt_of_slotAt hs) (lt_irrefl _)

/-- A handle whose slot is left alone, or begins another life. -/
theorem kept (h : Issued m issued) (hi : SlotInv m') {k' : ℕ} (hk' : k' ∈ issued)
    (hslot : ∀ slot, m.slotAt (Key.toIndex k') = some slot →
      ∃ slot', m'.slotAt (Key.toIndex k') = some slot' ∧ slot.version ≤ slot'.version ∧
        (slot.tombstone = false → slot' = slot)) :
    m'.resolve k' = m.resolve k' ∧
      ∃ slot, m'.slotAt (Key.toIndex k') = some slot ∧ Key.toVersion k' ≤ slot.version ∧
        (slot.tombstone = true → Key.toVersion k' < slot.version) := by
  obtain ⟨-, slot, hs, hle, ht⟩ := h.handle k' hk'
  obtain ⟨slot', hs', hmono, hsame⟩ := hslot slot hs
  rw [resolve_of_slotAt hi hs', resolve_of_slotAt h.slots hs]
  cases htomb : slot.tombstone with
  | false =>
      obtain rfl := hsame htomb
      rw [htomb]
      exact ⟨rfl, slot', hs', hle, ht⟩
  | true =>
      -- the life that the handle is for was over before
      have hlt := (ht htomb).trans_le hmono
      rw [if_neg fun hc => hlt.ne hc.1.symm, if_neg fun hc => by simp at hc]
      exact ⟨rfl, slot', hs', hlt.le, fun _ => hlt⟩

/-- **`emplace`** answers with a new handle that leads to the element, and leaves the handles issued
before alone. -/
theorem emplace (h : Issued m issued) (hok : EmplaceOk m) (value : T) :
    (m.emplace value).1 ∉ issued ∧
      (m.emplace value).2.resolve (m.emplace value).1 = some value ∧
      (∀ k ∈ issued, (m.emplace value).2.resolve k = m.resolve k) ∧
      Issued (m.emplace value).2 ((m.emplace value).1 :: issued) := by
  obtain ⟨index, version, hem, hinv⟩ := h.slots.emplace value
  generalize m.emplace value = r at *
  obtain ⟨k, m'⟩ := r
  dsimp only at *
  obtain ⟨hversion, hindex⟩ := fits hem hok
  have hself : m'.slotAt (Key.toIndex k) = some ⟨version, false, false, value⟩ := by
    rw [hem.slotAt, if_pos hindex]
  have hkept := fun k' (hk' : k' ∈ issued) =>
    h.kept hinv hk' fun slot hs => hem.slot h.slots.filled hs
  refine ⟨?_, ?_, fun k' hk' => (hkept k' hk').1, hinv, ?_, ?_⟩
  · intro hk
    exact (h.earlier hem hk hindex).ne hversion
  · rw [resolve_of_slotAt hinv hself, if_pos ⟨hversion.symm, rfl⟩]
  · intro k' hk'
    rcases List.mem_cons.1 hk' with rfl | hk'
    · exact ⟨hem.key ▸ Key.make_lt _ _, _, hself, hversion.le, fun ht => by cases ht⟩
    · exact ⟨(h.handle k' hk').1, (hkept k' hk').2⟩
  · intro i hi
    rcases hem.index_eq with ⟨-, -, -, hn⟩ | ⟨-, hi', hv, hn⟩
    · exact List.mem_cons_of_mem _ (h.first i (hn ▸ hi))
    · rcases Nat.lt_succ_iff_lt_or_eq.1 (hn ▸ hi) with hlt | rfl
      · exact List.mem_cons_of_mem _ (h.first i hlt)
      · rw [hem.key, hv, hi']
        exact List.mem_cons_self

/-- Where `emplace` is not up to it, the handle is an old one or does not lead to the element. -/
theorem emplaceOk (h : Issued m issued) (value : T) (hk : (m.emplace value).1 ∉ issued)
    (he : (m.emplace value).2.resolve (m.emplace value).1 = some value) : EmplaceOk m := by
  obtain ⟨index, version, hem, hinv⟩ := h.slots.emplace value
  generalize m.emplace value = r at *
  obtain ⟨k, m'⟩ := r
  dsimp only at *
  obtain ⟨slot, hs, hv, -, -⟩ := hinv.resolve_eq_some.1 he
  unfold EmplaceOk
  rcases hem.index_eq with ⟨hfree, hi, ⟨slot', hs', -, hv'⟩, -⟩ | ⟨hfree, hi, hv', -⟩
  · rw [if_pos hfree, ← hi]
    intro s hs''
    obtain rfl := Option.some.inj (hs'.symm.trans hs'')
    -- the version in the handle is the one of the slot
    have hindex : Key.toIndex k = index := by
      rw [hem.key, Key.toIndex_make, hi, Key.toIndex_eq, Nat.mod_mod]
    rw [hem.slotAt, if_pos hindex] at hs
    obtain rfl := Option.some.inj hs
    rw [hv', show version = _ from hv, Key.toVersion_eq]
    exact Nat.mod_lt _ (by decide)
  · rw [if_neg (not_lt.2 hfree)]
    by_contra hlt
    -- the handle is the one of the first life of another slot
    refine hk ?_
    have hkey : k = Key.make Key.kMinVersion (m.numSlots % 2 ^ 20) := by
      rw [hem.key, hv', hi, Key.make_eq, Key.make_eq, Nat.mod_mod]
    rw [hkey]
    refine h.first _ (lt_of_lt_of_le (Nat.mod_lt _ (by decide)) ?_)
    exact not_le.1 hlt

/-- **`erase`** ends the life of the element that the handle leads to, and leaves the other handles
alone. -/
theorem erase (h : Issued m issued) {k : ℕ} (hok : k < 2 ^ 30 ∨ m.resolve k = none) :
    (∀ k' ∈ issued, (m.erase k).resolve k' = if k' = k then none else m.resolve k') ∧
      Issued (m.erase k) issued := by
  obtain ⟨hinv, ⟨slot, her⟩ | ⟨he, hnone⟩⟩ := h.slots.erase k
  · generalize m.erase k = m' at *
    have hlead : m.resolve k ≠ none := by
      rw [resolve_of_slotAt h.slots her.found, if_pos ⟨her.version_eq, her.alive⟩]
      exact Option.some_ne_none _
    have hlt := hok.resolve_right hlead
    have hkept := fun k' (hk' : k' ∈ issued) (hne : Key.toIndex k' ≠ Key.toIndex k) =>
      h.kept hinv hk' fun slot' hs => (her.slot hs).imp fun _ h => ⟨h.1, h.2.1, fun _ => h.2.2 hne⟩
    refine ⟨?_, hinv, ?_, fun i hi => h.first i (her.numSlots ▸ hi)⟩
    · intro k' hk'
      by_cases hindex : Key.toIndex k' = Key.toIndex k
      · -- the slot that is erased: of its handles, only `k` has its version
        obtain ⟨hlt', slot', hs', -, -⟩ := h.handle k' hk'
        obtain rfl := Option.some.inj ((hindex ▸ hs').symm.trans her.found)
        have hself := her.slotAt (Key.toIndex k')
        rw [if_pos hindex] at hself
        rw [resolve_of_slotAt hinv hself, if_neg fun hc => by simp at hc]
        split_ifs with hkk
        · rfl
        · rw [resolve_of_slotAt h.slots hs', if_neg]
          rintro ⟨hv, -⟩
          refine hkk ?_
          rw [← Key.make_toVersion_toIndex hlt', ← Key.make_toVersion_toIndex hlt, hindex, ← hv,
            her.version_eq]
      · rw [if_neg fun e : k' = k => hindex (by rw [e])]
        exact (hkept k' hk' hindex).1
    · intro k' hk'
      obtain ⟨hlt', slot', hs', hle, -⟩ := h.handle k' hk'
      refine ⟨hlt', ?_⟩
      by_cases hindex : Key.toIndex k' = Key.toIndex k
      · obtain rfl := Option.some.inj ((hindex ▸ hs').symm.trans her.found)
        have hself := her.slotAt (Key.toIndex k')
        rw [if_pos hindex] at hself
        exact ⟨_, hself, Nat.le_succ_of_le hle, fun _ => Nat.lt_succ_of_le hle⟩
      · exact (hkept k' hk' hindex).2
  · rw [he]
    refine ⟨?_, h⟩
    intro k' _
    split_ifs with hkk
    · rw [hkk]
      exact hnone
    · rfl

end Issued

end SlotMap

/-! ### Tables -/

/-- A table of handles that is kept in a slot map. -/
structure HandleTable where
  State : Type
  /-- The objects. -/
  Elem : Type
  /-- What a `create` is given. -/
  Arg : Type
  initial : State → Prop
  create : State → Arg → Option (ℕ × State)
  /-- The object that a `create` constructs. -/
  elem : State → Arg → Elem
  destroy : State → ℕ → Option State
  get : State → ℕ → Option (Slot Elem)
  map : State → SlotMap Elem
  map_initial : ∀ s, initial s → map s = .empty
  map_create : ∀ s a h t, create s a = some (h, t) → (map s).emplace (elem s a) = (h, map t)
  map_destroy : ∀ s h t, destroy s h = some t → map t = (map s).erase h
  get_eq : ∀ s h, get s h = (map s).getImpl h

namespace HandleTable

variable (T : HandleTable)

/-- The object that a handle leads to. -/
def resolve (s : T.State) (h : ℕ) : Option T.Elem := (T.get s h).bind Slot.element?

theorem resolve_eq (s : T.State) (h : ℕ) : T.resolve s h = (T.map s).resolve h := by
  rw [resolve, T.get_eq, SlotMap.resolve]

/-- A state of the table, with the handles it has issued, newest first. -/
structure Trace where
  state : T.State
  issued : List ℕ

/-- What can happen to a table. -/
inductive Act
  | create (a : T.Arg)
  | destroy (h : ℕ)

/-- A `create` or a `destroy`. -/
def Step (s : T.Trace) : T.Act → T.Trace → Prop
  | .create a, t => ∃ h u, T.create s.state a = some (h, u) ∧ t = ⟨u, h :: s.issued⟩
  | .destroy h, t => ∃ u, T.destroy s.state h = some u ∧ t = ⟨u, s.issued⟩

/-- A table that nothing has been put into. -/
def Init (s : T.Trace) : Prop := T.initial s.state ∧ s.issued = []

/-- What a table is up to: a `create` while the slots last, and a `destroy` with a handle that has
no tag, unless it leads to nothing. -/
def Ok (s : T.Trace) : T.Act → Prop
  | .create _ => (T.map s.state).EmplaceOk
  | .destroy h => h < 2 ^ 30 ∨ T.resolve s.state h = none

/-- A state of the table that it is up to reaching. -/
def Reachable (s : T.Trace) : Prop := Runs.Reach T.Step T.Init T.Ok s

/-- The abstract table: the objects that the issued handles lead to. -/
def Trace.table {T : HandleTable} (s : T.Trace) : Handles.Table ℕ T.Elem where
  live h := if h ∈ s.issued then T.resolve s.state h else none
  issued := s.issued

/-- The abstract operation. -/
def Act.abs {T : HandleTable} (s t : T.Trace) : T.Act → Handles.Act ℕ T.Elem
  | .create a => .create (t.issued.headD 0) (T.elem s.state a)
  | .destroy h => .destroy h

variable {T}

/-- **The refinement**: a step of the table that it is up to is a step of the abstract table. -/
theorem Trace.refines {s t : T.Trace} {a : T.Act} (h : (T.map s.state).Issued s.issued)
    (hok : T.Ok s a) (hst : T.Step s a t) :
    Handles.Step s.table (a.abs s t) t.table ∧ (T.map t.state).Issued t.issued := by
  cases a with
  | create a =>
      obtain ⟨k, u, hc, rfl⟩ := hst
      have hmap := T.map_create _ _ _ _ hc
      obtain ⟨hnew, hself, hother, hi⟩ := h.emplace hok (T.elem s.state a)
      rw [hmap] at hnew hself hother hi
      refine ⟨⟨hnew, rfl, ?_⟩, hi⟩
      intro k'
      simp only [Trace.table, List.mem_cons, T.resolve_eq, List.headD_cons]
      by_cases hk : k' = k
      · rw [if_pos (Or.inl hk), if_pos hk, hk]
        exact hself
      · simp only [hk, false_or, if_false]
        split_ifs with hk'
        · exact hother k' hk'
        · rfl
  | destroy k =>
      obtain ⟨u, hd, rfl⟩ := hst
      have hmap := T.map_destroy _ _ _ hd
      obtain ⟨hother, hi⟩ := h.erase (hok.imp id fun hn => (T.resolve_eq _ _).symm.trans hn)
      rw [← hmap] at hother hi
      refine ⟨⟨rfl, ?_⟩, hi⟩
      intro k'
      simp only [Trace.table, T.resolve_eq]
      by_cases hk' : k' ∈ s.issued
      · rw [if_pos hk', if_pos hk']
        exact hother k' hk'
      · simp [hk']

theorem Reachable.issued {s : T.Trace} (h : T.Reachable s) :
    (T.map s.state).Issued s.issued := by
  refine Runs.Reach.invariant (I := fun s => (T.map s.state).Issued s.issued) ?_
    (fun s a t hs hok hst => (Trace.refines hs hok hst).2) h
  intro s hs
  rw [T.map_initial _ hs.1, hs.2]
  exact .empty

/-- **Handles live as long as their objects**, from a state on, in the runs that a table is up
to. -/
structure HandlesLive (s : T.Trace) : Prop where
  /-- The handle that a `create` answers with is a new one and leads to the new object, exactly when
  the table is up to the `create`. -/
  created : ∀ a h u, T.create s.state a = some (h, u) →
    (h ∉ s.issued ∧ T.resolve u h = some (T.elem s.state a) ↔ T.Ok s (.create a))
  /-- It leads to the object until it is destroyed. -/
  kept : ∀ a h u t, T.create s.state a = some (h, u) → T.Ok s (.create a) →
    Runs.RunsTo T.Step (fun s b => T.Ok s b ∧ b ≠ .destroy h) ⟨u, h :: s.issued⟩ t →
    T.resolve t.state h = some (T.elem s.state a)
  /-- It leads to nothing ever after. -/
  gone : ∀ h u t, h ∈ s.issued → T.Ok s (.destroy h) → T.destroy s.state h = some u →
    Runs.RunsTo T.Step T.Ok ⟨u, s.issued⟩ t → T.resolve t.state h = none

/-- A run of the table is a run of the abstract table. -/
theorem Trace.simulates {s t : T.Trace} {C : T.Trace → T.Act → Prop}
    {D : Handles.Table ℕ T.Elem → Handles.Act ℕ T.Elem → Prop}
    (hC : ∀ s a t, C s a → T.Ok s a ∧ D s.table (a.abs s t))
    (h : (T.map s.state).Issued s.issued) (hr : Runs.RunsTo T.Step C s t) :
    Runs.RunsTo Handles.Step D s.table t.table ∧ (T.map t.state).Issued t.issued := by
  have hstep : ∀ s a t, (T.map s.state).Issued s.issued → C s a → T.Step s a t →
      (T.map t.state).Issued t.issued := fun s a t hs hc hst => (refines hs (hC s a t hc).1 hst).2
  refine ⟨hr.simulate Trace.table hstep ?_ h, hr.invariant hstep h⟩
  intro s a t hs hc hst
  exact ⟨a.abs s t, (hC s a t hc).2, (refines hs (hC s a t hc).1 hst).1⟩

/-- **Every table** lives up to its purpose in the runs that it is up to. -/
theorem Reachable.handlesLive {s : T.Trace} (hs : T.Reachable s) : HandlesLive s where
  created a h u hc := by
    have hmap := T.map_create _ _ _ _ hc
    rw [T.resolve_eq]
    constructor
    · rintro ⟨hnew, he⟩
      refine hs.issued.emplaceOk (T.elem s.state a) ?_ ?_
      · rwa [hmap]
      · rwa [hmap]
    · intro hok
      obtain ⟨hnew, hself, -, -⟩ := hs.issued.emplace hok (T.elem s.state a)
      rw [hmap] at hnew hself
      exact ⟨hnew, hself⟩
  kept a h u t hc hok hr := by
    have hst : T.Step s (.create a) ⟨u, h :: s.issued⟩ := ⟨h, u, hc, rfl⟩
    obtain ⟨⟨-, -, hlive⟩, hi⟩ := Trace.refines hs.issued hok hst
    have hkeep : ∀ (s : T.Trace) b t, b ≠ .destroy h → Act.abs s t b ≠ .destroy h := by
      intro s b t hb
      cases b with
      | create => exact nofun
      | destroy k => exact fun e => hb (by rw [Handles.Act.destroy.inj e])
    obtain ⟨hrun, -⟩ := Trace.simulates (D := fun _ b => b ≠ .destroy h)
      (fun s b t hb => ⟨hb.1, hkeep s b t hb.2⟩) hi hr
    have hself := hlive h
    simp only [List.headD_cons, if_true] at hself
    have hend := Handles.live_of_runsTo hrun List.mem_cons_self hself
    simp only [Trace.table] at hend
    split_ifs at hend
    exact hend
  gone h u t hh hok hd hr := by
    have hst : T.Step s (.destroy h) ⟨u, s.issued⟩ := ⟨u, hd, rfl⟩
    obtain ⟨⟨-, hlive⟩, hi⟩ := Trace.refines hs.issued hok hst
    obtain ⟨hrun, -⟩ := Trace.simulates (D := fun _ _ => True) (fun _ _ _ hb => ⟨hb, trivial⟩)
      hi hr
    have hself := hlive h
    rw [if_pos rfl] at hself
    have hmem : h ∈ t.issued := by
      refine hr.invariant (I := fun t => h ∈ t.issued) ?_ hh
      intro s a t hs _ hst
      cases a with
      | create =>
          obtain ⟨k, u, -, rfl⟩ := hst
          exact List.mem_cons_of_mem _ hs
      | destroy =>
          obtain ⟨u, -, rfl⟩ := hst
          exact hs
    have hend := Handles.dead_of_runsTo hrun hh hself
    simp only [Trace.table, if_pos hmem] at hend
    exact hend

end HandleTable

/-! ### `LockedSlotmap` -/

/-- `LockedSlotmap`.  Every method holds the mutex from its start to its end. -/
structure LockedSlotmap (ValueType : Type) where
  map : SlotMap ValueType

namespace LockedSlotmap

variable {ValueType : Type}

/-- `get`: what the pointer leads to, or null. -/
def get (s : LockedSlotmap ValueType) (key : ℕ) : Option (Slot ValueType) := s.map.getImpl key

/-- `create`, with the value that is constructed. -/
def create (s : LockedSlotmap ValueType) (value : ValueType) : ℕ × LockedSlotmap ValueType :=
  let (key, map) := s.map.emplace value
  (key, { s with map })

/-- `erase` -/
def erase (s : LockedSlotmap ValueType) (key : ℕ) : Bool × LockedSlotmap ValueType :=
  if !s.map.hasKey key then (false, s)
  else (true, { s with map := s.map.erase key })

/-- Without the test, `erase` would not find the key either. -/
theorem map_erase (s : LockedSlotmap ValueType) (key : ℕ) :
    (s.erase key).2.map = s.map.erase key := by
  unfold erase
  split_ifs with hk
  · refine (SlotMap.SlotInv.erase_notFound fun slot hs => Or.inr ?_).symm
    intro hv
    simp [SlotMap.hasKey, hs, hv] at hk
  · rfl

end LockedSlotmap

/-- The table behind a pair of `recomputil_create_*` and `recomputil_destroy_*`. -/
def lockedSlotmap (ValueType : Type) : HandleTable where
  State := LockedSlotmap ValueType
  Elem := ValueType
  Arg := ValueType
  initial s := s.map = .empty
  create s value := some (s.create value)
  elem _ value := value
  destroy s key := some (s.erase key).2
  get s key := s.get key
  map s := s.map
  map_initial _ h := h
  map_create s a h t hc := by
    obtain ⟨rfl, rfl⟩ := Prod.mk.inj (Option.some.inj hc)
    rfl
  map_destroy s h t hd := by
    obtain rfl := Option.some.inj hd
    exact s.map_erase h
  get_eq _ _ := rfl

end Data
