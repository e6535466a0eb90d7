/-
**Handles live as long as their objects, while the versions last.**

Both handle tables of the program live up to their purpose in the runs that they are up to.  The
runs that they are not up to exist, and one live object at a time is enough: 65 slots are used in
turn, and after 65 · 1023 pairs of a `create` and a `destroy` every slot that waits has reached the
version 0x400.  The key of this version has no version, and does not lead to the slot.

Main definitions:

* `Data.DestroysLive` — the operations of a mod that destroys its own live objects only;
* `Data.Rested` — a table without objects that such mods make;
* `Data.Waits`, `Data.Turns` — the same, for a kind of tables that is closed under turns.

Main results:

* `Data.handles_live` — **handles live as long as their objects**, in both tables;
* `Data.Waits.exists_version` — the slots that wait can have reached any version;
* `Data.handle_dead_at_birth` — a handle that does not lead to the object it is issued for.
-/

import TsaRecomp.Data.Extension

set_option relaxedAutoImplicit false
set_option autoImplicit false

namespace Data

/-- The handle tables of the program. -/
inductive ProgramTable : HandleTable → Prop
  | lockedSlotmap (ValueType : Type) : ProgramTable (lockedSlotmap ValueType)
  | objectData (typeIndex : ℕ) : ProgramTable (objectData typeIndex)

/-- **Handles live as long as their objects** in the `LockedSlotmap`s and in the object data of each
type, in every run in which no slot is used a 1024th time, no slot is made whose index does not fit
into a handle, and no live handle is destroyed under a tag. -/
theorem handles_live {T : HandleTable} (hT : ProgramTable T) {s : T.Trace} (hs : T.Reachable s) :
    HandleTable.HandlesLive s := by
  cases hT with
  | lockedSlotmap => exact hs.handlesLive
  | objectData => exact hs.handlesLive

/-- The first handle of a table. -/
theorem handles_live_first :
    (lockedSlotmap ℕ).resolve (LockedSlotmap.create ⟨.empty⟩ (7 : ℕ)).2 0x00100000 =
      some (7 : ℕ) :=
  (handles_live (s := ⟨⟨.empty⟩, []⟩) (.lockedSlotmap ℕ) (.init ⟨rfl, rfl⟩)).kept (7 : ℕ)
    0x00100000 _ ⟨_, [0x00100000]⟩ rfl (Nat.zero_le _) .refl

/-! ### A slot that has been used up -/

open SlotMap

variable {T : Type}

/-- What a mod does that destroys nothing but its own live objects. -/
def DestroysLive (s : (lockedSlotmap T).Trace) : (lockedSlotmap T).Act → Prop
  | .create _ => True
  | .destroy h => h ∈ s.issued ∧ (lockedSlotmap T).resolve s.state h ≠ none

/-- The tables that such mods make. -/
def Made (m : SlotMap T) : Prop :=
  ∃ s : (lockedSlotmap T).Trace, s.state.map = m ∧
    Runs.Reach (lockedSlotmap T).Step (lockedSlotmap T).Init DestroysLive s

/-- A table without objects that such mods make, with the keys that wait. -/
structure Rested (n : ℕ) (free : List ℕ) (m : SlotMap T) : Prop where
  made : Made m
  inv : SlotInv m
  numSlots : m.numSlots = n
  freeIndices : m.freeIndices = free

/-- A table of a kind, with the keys that wait. -/
structure Waits (P : SlotMap T → Prop) (n : ℕ) (free : List ℕ) (m : SlotMap T) : Prop where
  kind : P m
  inv : SlotInv m
  numSlots : m.numSlots = n
  freeIndices : m.freeIndices = free

/-- A kind of tables that is closed under a **turn**: an object is created and destroyed at once. -/
def Turns (P : SlotMap T → Prop) : Prop :=
  ∀ m, P m → SlotInv m → EmplaceOk m → ∃ value, P ((m.emplace value).2.erase (m.emplace value).1)

namespace Waits

variable {P : SlotMap T → Prop} {m : SlotMap T} {n : ℕ} {free : List ℕ}

/-- A turn: the key of the next life of the slot goes to the end of the free list. -/
theorem turn (hP : Turns P) (h : Waits P n free m) (hok : EmplaceOk m) :
    ∃ (m' : SlotMap T) (value : T) (index version : ℕ),
      Emplaced m value (m.emplace value).1 (m.emplace value).2 index version ∧
        Waits P (m.emplace value).2.numSlots
          ((m.emplace value).2.freeIndices ++ [Key.make (version + 1) index]) m' := by
  obtain ⟨value, hkind⟩ := hP m h.kind h.inv hok
  obtain ⟨index, version, hem, hinv⟩ := h.inv.emplace value
  obtain ⟨hversion, hindex⟩ := Issued.fits hem hok
  have hlive := Issued.resolve_emplace h.inv hok value
  obtain ⟨hinv', ⟨slot, her⟩ | ⟨-, hnone⟩⟩ := hinv.erase (m.emplace value).1
  · refine ⟨_, value, index, version, hem, hkind, hinv', her.numSlots, ?_⟩
    rw [her.freeIndices, her.version_eq, hversion, hindex]
  · exact absurd (hlive.symm.trans hnone) (Option.some_ne_none value)

/-- A turn while at most 64 slots wait uses a new slot. -/
theorem grow (hP : Turns P) (h : Waits P n free m) (hfree : free.length ≤ kMinFreeIndices)
    (hn : n ≤ Key.kMaxIndex) : ∃ m' : SlotMap T, Waits P (n + 1) (free ++ [Key.make 2 n]) m' := by
  have hnot : ¬ kMinFreeIndices < m.freeIndices.length := by
    rw [h.freeIndices]
    exact not_lt.2 hfree
  obtain ⟨m', value, index, version, hem, hm'⟩ := h.turn hP
    (by rw [EmplaceOk, if_neg hnot, h.numSlots]; exact hn)
  obtain ⟨hlt, -⟩ | ⟨-, hi, hv, hnum⟩ := hem.index_eq
  · exact absurd hlt hnot
  · rw [hnum, hem.freeIndices, if_neg hnot, hi, hv, h.freeIndices, h.numSlots] at hm'
    exact ⟨m', hm'⟩

/-- A turn while more than 64 slots wait uses the slot at the front. -/
theorem reuse (hP : Turns P) {version index : ℕ} (h : Waits P n (Key.make version index :: free) m)
    (hfree : kMinFreeIndices ≤ free.length) (hv : Key.kMinVersion ≤ version)
    (hv' : version < Key.kMaxVersion) (hi : index ≤ Key.kMaxIndex) :
    ∃ m' : SlotMap T, Waits P n (free ++ [Key.make (version + 1) index]) m' := by
  have hlt : kMinFreeIndices < m.freeIndices.length := by
    rw [h.freeIndices]
    exact Nat.lt_succ_of_le hfree
  have hhead : m.freeIndices.headD 0 = Key.make version index := by
    rw [h.freeIndices]
    rfl
  have hindex : Key.toIndex (Key.make version index) = index := by
    rw [Key.toIndex_make]
    exact Nat.mod_eq_of_lt (Nat.lt_succ_of_le hi)
  -- the key at the front has the version of its slot
  have hslot : ∀ slot, m.slotAt index = some slot → slot.version = version := by
    intro slot hs
    obtain ⟨s, hs', -, hkey⟩ := h.inv.free (Key.make version index)
      (by rw [h.freeIndices]; exact List.mem_cons_self)
    rw [hindex] at hs' hkey
    obtain rfl := Option.some.inj (hs'.symm.trans hs)
    obtain ⟨hmin, hmax, -⟩ := h.inv.version _ _ hs
    have := congrArg Key.toVersion hkey
    rw [Key.toVersion_make, Key.toVersion_make] at this
    unfold Key.kMinVersion Key.kMaxVersion at *
    omega
  obtain ⟨m', value, i, v, hem, hm'⟩ := h.turn hP (by
    rw [EmplaceOk, if_pos hlt, hhead, hindex]
    intro slot hs
    rw [hslot slot hs]
    exact hv')
  obtain ⟨-, rfl, ⟨slot, hs, -, rfl⟩, hnum⟩ | ⟨hle, -⟩ := hem.index_eq
  · rw [hhead, hindex] at hs hm'
    rw [hnum, hem.freeIndices, if_pos hlt, h.freeIndices, h.numSlots, hslot slot hs] at hm'
    exact ⟨m', hm'⟩
  · exact absurd hlt (not_lt.2 hle)

/-- Every slot that waits is used once. -/
theorem round (hP : Turns P) {version : ℕ} (hv : Key.kMinVersion ≤ version)
    (hv' : version < Key.kMaxVersion) (indices : List ℕ) (hi : ∀ i ∈ indices, i ≤ Key.kMaxIndex)
    (rest : List ℕ) (hlen : kMinFreeIndices < indices.length + rest.length)
    (h : Waits P n (indices.map (Key.make version) ++ rest) m) :
    ∃ m' : SlotMap T, Waits P n (rest ++ indices.map (Key.make (version + 1))) m' := by
  induction indices generalizing m rest with
  | nil => exact ⟨m, by simpa using h⟩
  | cons index indices ih =>
      obtain ⟨m', hm'⟩ := h.reuse hP (by simp at hlen ⊢; omega) hv hv'
        (hi index List.mem_cons_self)
      obtain ⟨m'', hm''⟩ := ih (fun i h => hi i (List.mem_cons_of_mem _ h)) (rest ++ [_])
        (by simp at hlen ⊢; omega) (by simpa using hm')
      exact ⟨m'', by simpa using hm''⟩

/-- The first turns make 65 slots. -/
theorem exists_first (hP : Turns P) (h : Waits P 0 [] m) (n : ℕ) (hn : n ≤ kMinFreeIndices + 1) :
    ∃ m : SlotMap T, Waits P n ((List.range n).map (Key.make 2)) m := by
  induction n with
  | zero => exact ⟨_, h⟩
  | succ n ih =>
      obtain ⟨m, hm⟩ := ih (Nat.le_of_succ_le hn)
      rw [List.range_succ, List.map_append]
      exact hm.grow hP (by simpa using hn) ((Nat.le_of_succ_le hn).trans (by decide))

/-- **65 slots that wait for a life of any number** that a slot can have. -/
theorem exists_version (hP : Turns P) (h : Waits P 0 [] m) (version : ℕ) (hv : 2 ≤ version)
    (hv' : version ≤ Key.kMaxVersion) :
    ∃ m : SlotMap T, Waits P 65 ((List.range 65).map (Key.make version)) m := by
  induction version, hv using Nat.le_induction with
  | base => exact exists_first hP h 65 le_rfl
  | succ version hmin ih =>
      obtain ⟨m, hm⟩ := ih (Nat.le_of_succ_le hv')
      refine round (n := 65) hP (Nat.le_of_succ_le hmin) hv' (List.range 65) ?_ []
        (by decide) (by simpa using hm)
      intro i hi
      exact (List.mem_range.1 hi).le.trans (by decide)

/-- The handle for a slot that has been used up leads to nothing. -/
theorem getImpl_emplace (h : Waits P 65 ((List.range 65).map (Key.make Key.kMaxVersion)) m)
    (value : T) : (m.emplace value).1 = 0 ∧ (m.emplace value).2.getImpl 0 = none := by
  have hlt : kMinFreeIndices < m.freeIndices.length := by
    rw [h.freeIndices]
    decide
  have hhead : m.freeIndices.headD 0 = 0 := by
    rw [h.freeIndices]
    rfl
  obtain ⟨index, version, hem, hinv⟩ := h.inv.emplace value
  obtain ⟨-, rfl, ⟨slot, hs, -, rfl⟩, -⟩ | ⟨hle, -⟩ := hem.index_eq
  · rw [hhead] at hem hs
    refine ⟨by rw [SlotMap.emplace, if_pos hlt, hhead], ?_⟩
    have hself := hem.slotAt (Key.toIndex 0)
    rw [if_pos rfl] at hself
    have hmin := (h.inv.version _ slot hs).1
    rw [hinv.getImpl_eq, hself, Option.filter_some, if_neg]
    rw [decide_eq_true_eq]
    exact fun hv => absurd hmin (by rw [show slot.version = 0 from hv]; decide)
  · exact absurd hlt (not_lt.2 hle)

end Waits

namespace Rested

variable {m : SlotMap T} {n : ℕ} {free : List ℕ}

theorem of_waits (h : Waits Made n free m) : Rested n free m :=
  ⟨h.kind, h.inv, h.numSlots, h.freeIndices⟩

theorem waits (h : Rested n free m) : Waits Made n free m :=
  ⟨h.made, h.inv, h.numSlots, h.freeIndices⟩

theorem empty : Rested 0 [] (SlotMap.empty : SlotMap T) :=
  ⟨⟨⟨⟨.empty⟩, []⟩, rfl, .init ⟨rfl, rfl⟩⟩, .empty, rfl, rfl⟩

/-- Such mods can make a turn. -/
theorem turns (value : T) : Turns (Made : SlotMap T → Prop) := by
  rintro m ⟨s, rfl, hr⟩ hinv hok
  have hcreate := hr.step (.create value) trivial ⟨_, _, rfl, rfl⟩
  refine ⟨value, _, ?_, hcreate.step (.destroy _) ⟨List.mem_cons_self, ?_⟩ ⟨_, rfl, rfl⟩⟩
  · exact LockedSlotmap.map_erase _ _
  · rw [HandleTable.resolve_eq]
    exact fun e => Option.some_ne_none value ((Issued.resolve_emplace hinv hok value).symm.trans e)

/-- **65 slots that wait for a life of any number** that a slot can have. -/
theorem exists_version (value : T) (version : ℕ) (hv : 2 ≤ version)
    (hv' : version ≤ Key.kMaxVersion) :
    ∃ m : SlotMap T, Rested 65 ((List.range 65).map (Key.make version)) m := by
  obtain ⟨m, hm⟩ := empty.waits.exists_version (turns value) version hv hv'
  exact ⟨m, of_waits hm⟩

end Rested

/-- **A handle that does not lead to its object**: it is issued by a `create` behind 65 · 1023 pairs
of a `create` and the `destroy` of its object. -/
theorem handle_dead_at_birth : ∃ s : (lockedSlotmap ℕ).Trace,
    Runs.Reach (lockedSlotmap ℕ).Step (lockedSlotmap ℕ).Init DestroysLive s ∧
      (s.state.create 7).1 = 0 ∧ (lockedSlotmap ℕ).resolve (s.state.create 7).2 0 = none := by
  obtain ⟨m, ⟨s, rfl, hr⟩, hinv, hnum, hfree⟩ :=
    Rested.exists_version (7 : ℕ) Key.kMaxVersion (by decide) le_rfl
  obtain ⟨hkey, hnone⟩ := Waits.getImpl_emplace (P := Made) ⟨⟨s, rfl, hr⟩, hinv, hnum, hfree⟩ 7
  refine ⟨s, hr, hkey, (HandleTable.resolve_eq (lockedSlotmap ℕ) _ _).trans ?_⟩
  change ((s.state.map.emplace 7).2.getImpl 0).bind Slot.element? = none
  rw [hnone, Option.bind_none]

end Data
