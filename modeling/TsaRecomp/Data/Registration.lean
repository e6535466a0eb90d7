/-
**Registering the extensions of a type.**

`recomp_register_object_extension` takes a subtype and a size from a mod, any two `u32`.  It makes
`data_sizes` long enough for the subtype, rounds the size up to a multiple of 16, adds it to the
total of the subtype, and answers with the number of the extension.  Each of these is an addition of
32-bit numbers, and none is checked; and the subtype 0xFFFFFFFF, for which there is no room, is the
one by which `recomp_get_object_data` knows a generic extension.

Main definitions:

* `Data.Registrations.Request`, `Data.Registrations.registerAll` — the calls on a type;
* `Data.Registrations.Safe` — **registration is safe**: inside the bounds, without overflow, and
  with a handle that is for one subtype only;
* `Data.Registrations.Admissible` — the sequences of calls for which it is.

Main results:

* `Data.Registrations.Behind.register` — the step lemma: a call that fits, and the state behind it;
* `Data.Registrations.honoured_iff` — which subtype a handle is honoured for;
* `Data.Registrations.safe_iff_admissible` — registration is safe for these sequences and for no
  others.
-/

import TsaRecomp.Data.ObjectLayout

set_option relaxedAutoImplicit false
set_option autoImplicit false

namespace Data

namespace Registrations

open ObjectLayout (Trace Step)

/-! ### The calls -/

/-- The arguments of `recomp_register_object_extension`: two `u32`. -/
structure Request where
  subtypeIndex : ℕ
  size : ℕ
  subtypeIndex_lt : subtypeIndex < 2 ^ 32
  size_lt : size < 2 ^ 32

/-- The calls on a type one after the other: nothing, when one of them does not return. -/
def registerAll (typeIndex : ℕ) : List Request → Extensions → Option Extensions
  | [], s => some s
  | a :: calls, s => do
      let (_, t) ← s.registerObjectExtension typeIndex a.subtypeIndex a.size
      registerAll typeIndex calls t

theorem registerAll_concat (typeIndex : ℕ) (calls : List Request) (a : Request) (s : Extensions) :
    registerAll typeIndex (calls ++ [a]) s = (registerAll typeIndex calls s).bind fun t =>
      (t.registerObjectExtension typeIndex a.subtypeIndex a.size).map Prod.snd := by
  induction calls generalizing s with
  | nil =>
      cases hu : s.registerObjectExtension typeIndex a.subtypeIndex a.size <;>
        simp [registerAll, hu]
  | cons b calls ih =>
      rw [List.cons_append, registerAll, registerAll]
      cases hu : s.registerObjectExtension typeIndex b.subtypeIndex b.size with
      | none => rfl
      | some r => exact ih r.2

/-- The sum of the sizes for a subtype, each of them as `f` has it. -/
def sumFor (f : ℕ → ℕ) (subtypeIndex : ℕ) (calls : List Request) : ℕ :=
  ((calls.filter fun a => a.subtypeIndex = subtypeIndex).map fun a => f a.size).sum

theorem sumFor_append (f : ℕ → ℕ) (i : ℕ) (calls calls' : List Request) :
    sumFor f i (calls ++ calls') = sumFor f i calls + sumFor f i calls' := by
  simp [sumFor, List.filter_append]

theorem sumFor_concat (f : ℕ → ℕ) (i : ℕ) (calls : List Request) (a : Request) :
    sumFor f i (calls ++ [a]) = sumFor f i calls + if i = a.subtypeIndex then f a.size else 0 := by
  rw [sumFor_append]
  by_cases hi : i = a.subtypeIndex
  · simp [sumFor, hi]
  · simp [sumFor, hi, Ne.symm hi]

theorem sumFor_le_sumFor {f g : ℕ → ℕ} (h : ∀ n, f n ≤ g n) (i : ℕ) (calls : List Request) :
    sumFor f i calls ≤ sumFor g i calls := by
  unfold sumFor
  exact List.sum_le_sum fun a _ => h a.size

theorem le_ceil16 (size : ℕ) : size ≤ ceil16 size := by
  unfold ceil16
  omega

/-! ### What the function is for -/

/-- The three additions of a call, none of which may overflow. -/
structure NoWrap (c : ExtensionContext) (a : Request) : Prop where
  /-- `subtype_index + 1`, where `data_sizes` is resized. -/
  next : c.dataSizes.length ≤ a.subtypeIndex → a.subtypeIndex + 1 < 2 ^ 32
  /-- `value + 15`, in `round_up_16`. -/
  round : a.size + 15 < 2 ^ 32
  /-- `data_sizes[subtype_index] += …` -/
  total : ∀ dataOffset, (c.resized a.subtypeIndex)[a.subtypeIndex]? = some dataOffset →
    dataOffset + roundUp16 a.size < 2 ^ 32

/-- From a state on, whatever is called, a handle leads to data for one subtype only. -/
def HonouredFor (s : Extensions) (typeIndex extensionHandle subtypeIndex : ℕ) : Prop :=
  ∀ heap record t, Runs.RunsTo Step (fun _ _ => True) ⟨⟨s, heap⟩, record⟩ t →
    ∀ subtypeIndex' objectHandle r, t.memory.extensions.getObjectData typeIndex subtypeIndex'
      objectHandle extensionHandle = some r → r ≠ 0 → subtypeIndex' = subtypeIndex

/-- A call that is safe. -/
structure CallSafe (typeIndex : ℕ) (s : Extensions) (a : Request) : Prop where
  /-- `data_sizes` is long enough for the subtype. -/
  inBounds : ∃ h t, s.registerObjectExtension typeIndex a.subtypeIndex a.size = some (h, t)
  noWrap : ∀ c ∈ s.typeContexts[typeIndex]?, NoWrap c a
  honoured : ∀ h t, s.registerObjectExtension typeIndex a.subtypeIndex a.size = some (h, t) →
    HonouredFor t typeIndex h a.subtypeIndex

/-- **Registration is safe** for the calls on a type, from `init_extended_object_data` on. -/
structure Safe (numTypes : ℕ) (typeIndex : Fin numTypes) (calls : List Request) : Prop where
  call : ∀ before a after s, calls = before ++ a :: after →
    registerAll typeIndex before (.initExtendedObjectData numTypes) = some s →
      CallSafe typeIndex s a
  /-- The total of a subtype has room for everything that has been requested for it. -/
  total : ∀ s, registerAll typeIndex calls (.initExtendedObjectData numTypes) = some s →
    ∀ c ∈ s.typeContexts[typeIndex.1]?, ∀ i, sumFor id i calls ≤ c.subtypeSize i

/-- **The calls for which it is**: none for the subtype of the generic extensions, totals below 2³²,
and the handle of a call is not the one of another subtype.  Handles are the numbers of the calls,
and there are as many of them as 32-bit numbers. -/
structure Admissible (calls : List Request) : Prop where
  subtype : ∀ a ∈ calls, a.subtypeIndex ≠ kGenericSubtype
  total : ∀ i, sumFor ceil16 i calls < 2 ^ 32
  handle : ∀ (i j : ℕ) (a b : Request), calls[i]? = some a → calls[j]? = some b →
    u32 (i + 1) = j + 1 → b.subtypeIndex = a.subtypeIndex

/-! ### The context behind the calls -/

/-- The context of the type behind calls that have not overflown, with no object yet. -/
structure ContextBehind (calls : List Request) (c : ExtensionContext) : Prop where
  generic : c.genericDataSize = 0
  extensionData : c.extensionData = .empty
  length : c.dataSizes.length ≤ kGenericSubtype
  total : ∀ i, c.subtypeSize i = sumFor ceil16 i calls
  /-- The dummy extension, and one for each call. -/
  extensions : c.extensions.map ExtensionInfo.subtypeIndex =
    0 :: calls.map Request.subtypeIndex

/-- The state behind the calls. -/
structure Behind (typeIndex : ℕ) (calls : List Request) (s : Extensions) : Prop where
  canRegister : s.canRegister = true
  context : ∃ c, s.typeContexts[typeIndex]? = some c ∧ ContextBehind calls c

/-- There is room for a further call. -/
def Fits (calls : List Request) (a : Request) : Prop :=
  a.subtypeIndex ≠ kGenericSubtype ∧ sumFor ceil16 a.subtypeIndex calls + ceil16 a.size < 2 ^ 32

/-- `data_sizes` is long enough for every subtype but one. -/
theorem exists_dataOffset {c : ExtensionContext} {subtypeIndex : ℕ}
    (hlt : subtypeIndex < kGenericSubtype) :
    ∃ dataOffset, (c.resized subtypeIndex)[subtypeIndex]? = some dataOffset := by
  have hlen : subtypeIndex < (c.resized subtypeIndex).length := by
    unfold ExtensionContext.resized
    split_ifs with hle
    · have hnext : u32 (subtypeIndex + 1) = subtypeIndex + 1 := by
        refine u32_of_lt ?_
        unfold kGenericSubtype at hlt
        omega
      rw [hnext]
      simp only [List.rightpad, List.length_append, List.length_replicate]
      omega
    · omega
  exact ⟨_, List.getElem?_eq_getElem hlen⟩

namespace ContextBehind

variable {calls : List Request} {c : ExtensionContext} {a : Request}

theorem init : ContextBehind [] .init where
  generic := rfl
  extensionData := rfl
  length := Nat.zero_le _
  total _ := rfl
  extensions := rfl

theorem length_extensions (h : ContextBehind calls c) :
    c.extensions.length = calls.length + 1 := by
  have hlen := congrArg List.length h.extensions
  simpa using hlen

/-- The number of an extension is the number of its call, counted from 1. -/
theorem subtypeIndex_of_getElem? (h : ContextBehind calls c) {j : ℕ} {b : Request}
    (hb : calls[j]? = some b) :
    ∃ x, c.extensions[j + 1]? = some x ∧ x.subtypeIndex = b.subtypeIndex := by
  have hmap := congrArg (fun l => l[j + 1]?) h.extensions
  simp only [List.getElem?_map, List.getElem?_cons_succ, hb, Option.map_some] at hmap
  exact Option.map_eq_some_iff.1 hmap

/-- A call that fits does not overflow. -/
theorem noWrap (h : ContextBehind calls c) (hf : Fits calls a) : NoWrap c a := by
  obtain ⟨hne, htotal⟩ := hf
  have hround : ceil16 a.size < 2 ^ 32 := by omega
  refine ⟨fun _ => ?_, ?_, fun dataOffset ho => ?_⟩
  · have hlt := a.subtypeIndex_lt
    unfold kGenericSubtype at hne
    omega
  · unfold ceil16 at hround
    omega
  · rw [ExtensionContext.dataOffset_eq ho, h.total, roundUp16_eq hround]
    exact htotal

/-- A call that returns without overflow fits. -/
theorem fits (h : ContextBehind calls c) (hn : NoWrap c a) {dataOffset : ℕ}
    (ho : (c.resized a.subtypeIndex)[a.subtypeIndex]? = some dataOffset) : Fits calls a := by
  constructor
  · intro heq
    have hnext := hn.next (heq ▸ h.length)
    rw [heq] at hnext
    exact absurd hnext (by decide)
  · have hround : ceil16 a.size < 2 ^ 32 := by
      have hsum := hn.round
      unfold ceil16
      omega
    have htotal := hn.total dataOffset ho
    rwa [roundUp16_eq hround, ExtensionContext.dataOffset_eq ho, h.total] at htotal

/-- The context behind a call that fits. -/
theorem addExtension (h : ContextBehind calls c) (hf : Fits calls a) {dataOffset : ℕ}
    (ho : (c.resized a.subtypeIndex)[a.subtypeIndex]? = some dataOffset) :
    ContextBehind (calls ++ [a]) (c.addExtension a.subtypeIndex dataOffset a.size) := by
  have htotal : c.subtypeSize a.subtypeIndex + ceil16 a.size < 2 ^ 32 := by
    rw [h.total]
    exact hf.2
  refine ⟨h.generic, h.extensionData, ?_, fun i => ?_, ?_⟩
  · have hlen := ExtensionContext.length_resized a.subtypeIndex h.length
    simpa [ExtensionContext.addExtension] using hlen
  · rw [ExtensionContext.subtypeSize_register ho htotal, sumFor_concat, h.total, h.total]
    split_ifs with hi
    · rw [hi]
    · rfl
  · simp [ExtensionContext.addExtension, h.extensions]

end ContextBehind

namespace Behind

variable {typeIndex : ℕ} {calls : List Request} {s : Extensions} {a : Request}

/-- **The step lemma**: a call that fits answers with its number. -/
theorem register (h : Behind typeIndex calls s) (hf : Fits calls a) :
    ∃ t, s.registerObjectExtension typeIndex a.subtypeIndex a.size =
        some (u32 (calls.length + 1), t) ∧ Behind typeIndex (calls ++ [a]) t := by
  obtain ⟨c, hc, hb⟩ := h.context
  have hlt : a.subtypeIndex < kGenericSubtype := by
    have hne := hf.1
    have hlt := a.subtypeIndex_lt
    unfold kGenericSubtype at hne ⊢
    omega
  obtain ⟨dataOffset, ho⟩ := exists_dataOffset (c := c) hlt
  refine ⟨_, Extensions.registerObjectExtension_eq_some.2
    ⟨c, dataOffset, hc, h.canRegister, ho, by rw [hb.length_extensions], rfl⟩, h.canRegister, ?_⟩
  exact ⟨_, Extensions.getElem?_set_self hc _, hb.addExtension hf ho⟩

/-- A safe call fits. -/
theorem fits (h : Behind typeIndex calls s) (hsafe : CallSafe typeIndex s a) : Fits calls a := by
  obtain ⟨c, hc, hb⟩ := h.context
  obtain ⟨k, t, ht⟩ := hsafe.inBounds
  obtain ⟨d, dataOffset, hd, -, ho, -, -⟩ := Extensions.registerObjectExtension_eq_some.1 ht
  obtain rfl := Option.some.inj (hc.symm.trans hd)
  exact hb.fits (hsafe.noWrap c hc) ho

end Behind

/-- **The run lemma**: calls that fit, one after the other. -/
theorem exists_behind {numTypes : ℕ} (typeIndex : Fin numTypes) {calls : List Request}
    (hf : ∀ before a after, calls = before ++ a :: after → Fits before a) :
    ∃ s, registerAll typeIndex calls (.initExtendedObjectData numTypes) = some s ∧
      Behind typeIndex calls s := by
  induction calls using List.reverseRecOn with
  | nil =>
      refine ⟨_, rfl, rfl, .init, ?_, .init⟩
      simp [Extensions.initExtendedObjectData]
  | append_singleton calls a ih =>
      obtain ⟨s, hs, hb⟩ := ih fun before b after h => hf before b (after ++ [a]) (by simp [h])
      obtain ⟨t, ht, hb'⟩ := hb.register (hf calls a [] rfl)
      refine ⟨t, ?_, hb'⟩
      rw [registerAll_concat, hs, Option.bind_some, ht]
      rfl

/-- The calls before one of them. -/
theorem exists_behind_before {numTypes : ℕ} (typeIndex : Fin numTypes)
    {calls before after : List Request} {a : Request}
    (hf : ∀ before a after, calls = before ++ a :: after → Fits before a)
    (hcalls : calls = before ++ a :: after) :
    ∃ s, registerAll typeIndex before (.initExtendedObjectData numTypes) = some s ∧
      Behind typeIndex before s := by
  refine exists_behind typeIndex fun before' b after' hbefore => ?_
  refine hf before' b (after' ++ a :: after) ?_
  rw [hcalls, hbefore, List.append_assoc, List.cons_append]

/-! ### The subtype that a handle is for -/

/-- Extensions are never taken back. -/
theorem extensions_of_change {canRegister : Bool} {c c' : ExtensionContext}
    {r r' : ObjectLayout.Record} {a : ObjectLayout.Call}
    (h : ObjectLayout.Change canRegister c r a c' r') : c.extensions <+: c'.extensions := by
  cases h with
  | register => exact List.prefix_append _ _
  | registerGeneric => exact List.prefix_append _ _
  | create => exact List.prefix_rfl
  | destroy objectHandle => rw [(ObjectData.destroyObject_fields c objectHandle).1]
  | clear => exact List.prefix_rfl

theorem extensions_of_runsTo {s t : Trace} {typeIndex : ℕ} {c : ExtensionContext}
    (hr : Runs.RunsTo Step (fun _ _ => True) s t)
    (hc : s.memory.extensions.typeContexts[typeIndex]? = some c) :
    ∃ c', t.memory.extensions.typeContexts[typeIndex]? = some c' ∧
      c.extensions <+: c'.extensions := by
  refine @Runs.RunsTo.invariant _ _ _ _ (fun t => ∃ c',
    t.memory.extensions.typeContexts[typeIndex]? = some c' ∧ c.extensions <+: c'.extensions)
    ?_ _ _ hr ⟨c, hc, List.prefix_rfl⟩
  rintro s ⟨i, a⟩ t ⟨d, hd, hprefix⟩ - hst
  obtain ⟨e, e', hspec⟩ := hst.spec
  rw [hspec.typeContexts]
  split_ifs with hi
  · subst hi
    obtain rfl := Option.some.inj (hd.symm.trans hspec.context)
    exact ⟨e', rfl, hprefix.trans (extensions_of_change hspec.change)⟩
  · exact ⟨d, hd, hprefix⟩

/-- Two blocks, one of which gives an address other than null. -/
theorem exists_block (n : ℕ) : ∃ mem, mem < 2 ^ 31 ∧ u32 (2 ^ 31 + mem + n) ≠ 0 := by
  by_cases h : u32 (2 ^ 31 + 0x1000 + n) = 0
  · refine ⟨0x2000, by decide, ?_⟩
    unfold u32 at h ⊢
    omega
  · exact ⟨0x1000, by decide, h⟩

/-- The address of an extension of an object that has just been created. -/
theorem objectAddress_createObject {c : ExtensionContext} {x : ExtensionInfo} {h i data : ℕ}
    (h0 : h ≠ 0) (hx : c.extensions[h]? = some x) (hi : c.allocSize i ≠ 0)
    (hempty : c.extensionData = .empty) :
    (c.createObject i data).2.objectAddress x.subtypeIndex (c.createObject i data).1 h =
      u32 (data + if x.subtypeIndex = kGenericSubtype then x.dataOffset
        else u32 (x.dataOffset + c.genericDataSize)) := by
  have hslots : SlotMap.SlotInv c.extensionData := hempty ▸ .empty
  have hok : c.extensionData.EmplaceOk := by
    rw [hempty]
    exact Nat.zero_le _
  have hresolve := SlotMap.Issued.resolve_emplace hslots hok (c.newObject i data)
  obtain ⟨-, -, -, hslots'⟩ := hslots.emplace (c.newObject i data)
  have hlive : ObjectData.Live x.subtypeIndex (c.createObject i data).1 data c.genericDataSize
      (c.subtypeSize x.subtypeIndex) (c.createObject i data).2 :=
    ⟨⟨_, hresolve, if_pos hi⟩, rfl, rfl⟩
  exact hlive.objectAddress hslots' h0 hx (Or.inr rfl)

theorem exists_createObjectData {s : ObjectMemory} {typeIndex : ℕ} {c : ExtensionContext}
    (hc : s.extensions.typeContexts[typeIndex]? = some c) (subtypeIndex mem : ℕ) :
    ∃ t, s.createObjectData typeIndex subtypeIndex mem =
        some ((c.createObject subtypeIndex (guestAddr mem).toNat).1, t) ∧
      t.extensions.typeContexts[typeIndex]? =
        some (c.createObject subtypeIndex (guestAddr mem).toNat).2 :=
  ⟨_, ObjectMemory.createObjectData_eq_some.2 ⟨c, hc, rfl, rfl⟩, Extensions.getElem?_set_self hc _⟩

/-- A generic extension of 16 bytes is registered late, and an object is created. -/
theorem exists_object {s : Extensions} {typeIndex : ℕ} {c : ExtensionContext}
    (hc : s.typeContexts[typeIndex]? = some c) (subtypeIndex mem : ℕ) :
    ∃ heap record t, Runs.RunsTo Step (fun _ _ => True) ⟨⟨s, heap⟩, record⟩ t ∧
      t.memory.extensions.typeContexts[typeIndex]? =
        some ((c.addGeneric 16).createObject subtypeIndex (guestAddr mem).toNat).2 := by
  have hc' := Extensions.getElem?_set_self hc (c.addGeneric 16)
  obtain ⟨u, hu, hcu⟩ := @exists_createObjectData
    ⟨{ s with typeContexts := s.typeContexts.set typeIndex (c.addGeneric 16) },
      ⟨fun _ => 0, [], []⟩⟩ _ _ hc' subtypeIndex mem
  have hlate : Step ⟨⟨s, ⟨fun _ => 0, [], []⟩⟩, fun _ => ⟨[], [], []⟩⟩
      (typeIndex, .registerGeneric 16) _ :=
    ⟨_, _, Extensions.registerObjectExtensionGeneric_eq_some.2 ⟨c, hc, rfl, rfl⟩, rfl⟩
  exact ⟨_, _, _, (Runs.RunsTo.single trivial hlate).tail (typeIndex, .create subtypeIndex mem)
    trivial ⟨_, _, u, hc', hu, rfl⟩, hcu⟩

/-- **An object that has data for every extension.** -/
theorem Behind.exists_getObjectData {typeIndex : ℕ} {calls : List Request} {s : Extensions}
    (h : Behind typeIndex calls s) {j : ℕ} {b : Request} (hj : calls[j]? = some b) :
    ∃ heap record t objectHandle r, Runs.RunsTo Step (fun _ _ => True) ⟨⟨s, heap⟩, record⟩ t ∧
      t.memory.extensions.getObjectData typeIndex b.subtypeIndex objectHandle (j + 1) = some r ∧
        r ≠ 0 := by
  obtain ⟨c, hc, hb⟩ := h.context
  obtain ⟨x, hx, hsub⟩ := hb.subtypeIndex_of_getElem? hj
  have hx' : (c.addGeneric 16).extensions[j + 1]? = some x :=
    (List.getElem?_append_left (List.getElem?_eq_some_iff.1 hx).1).trans hx
  -- there is no total for the subtype of the object
  have halloc : (c.addGeneric 16).allocSize kGenericSubtype ≠ 0 := by
    have hnone : (c.addGeneric 16).dataSizes[kGenericSubtype]? = none :=
      List.getElem?_eq_none hb.length
    unfold ExtensionContext.allocSize
    rw [hnone, ExtensionContext.genericDataSize_addGeneric (by rw [hb.generic]; decide), hb.generic]
    decide
  obtain ⟨mem, hmem, hne⟩ := exists_block (if x.subtypeIndex = kGenericSubtype then x.dataOffset
    else u32 (x.dataOffset + (c.addGeneric 16).genericDataSize))
  obtain ⟨heap, record, t, hr, hct⟩ := exists_object hc kGenericSubtype mem
  refine ⟨heap, record, t, ((c.addGeneric 16).createObject kGenericSubtype
    (guestAddr mem).toNat).1, _, hr, ?_, hne⟩
  rw [Extensions.getObjectData, hct, ← hsub]
  refine congrArg some ?_
  rw [objectAddress_createObject (Nat.succ_ne_zero j) hx' halloc hb.extensionData,
    ObjectLayout.guestAddr_toNat hmem]

/-- **The subtype that a handle is honoured for** is the one of the call with this number. -/
theorem honoured_iff {typeIndex : ℕ} {calls : List Request} {s : Extensions}
    (h : Behind typeIndex calls s) (hsub : ∀ b ∈ calls, b.subtypeIndex ≠ kGenericSubtype)
    {extensionHandle subtypeIndex : ℕ} (hle : extensionHandle ≤ calls.length) :
    HonouredFor s typeIndex extensionHandle subtypeIndex ↔
      ∀ (j : ℕ) (b : Request), calls[j]? = some b → extensionHandle = j + 1 →
        b.subtypeIndex = subtypeIndex := by
  constructor
  · rintro hh j b hj rfl
    obtain ⟨heap, record, t, objectHandle, r, hr, hget, hne⟩ := h.exists_getObjectData hj
    exact hh heap record t hr _ _ _ hget hne
  · intro hall heap record t hr i objectHandle r hget hne
    obtain ⟨c, hc, hb⟩ := h.context
    obtain ⟨c', hc', l, hl⟩ := extensions_of_runsTo hr hc
    rw [Extensions.getObjectData, hc'] at hget
    obtain rfl := Option.some.inj hget
    obtain ⟨h0, -, x, hx, hx'⟩ := ObjectData.getImpl_of_objectAddress hne
    -- the extension is the one of a call
    obtain ⟨j, rfl⟩ := Nat.exists_eq_succ_of_ne_zero h0
    obtain ⟨b, hj⟩ : ∃ b, calls[j]? = some b := ⟨_, List.getElem?_eq_getElem hle⟩
    obtain ⟨y, hy, hysub⟩ := hb.subtypeIndex_of_getElem? hj
    rw [← hl, List.getElem?_append_left (List.getElem?_eq_some_iff.1 hy).1, hy] at hx
    obtain rfl := Option.some.inj hx
    rw [hysub] at hx'
    exact (hx'.resolve_left (hsub b (List.mem_of_getElem? hj))).symm.trans (hall j b hj rfl)

/-! ### The sequences of calls for which registration is safe -/

variable {numTypes : ℕ} {typeIndex : Fin numTypes} {calls : List Request}

/-- Calls that fit have totals below 2³², and the other way round. -/
theorem fits_iff : (∀ before a after, calls = before ++ a :: after → Fits before a) ↔
    (∀ a ∈ calls, a.subtypeIndex ≠ kGenericSubtype) ∧ ∀ i, sumFor ceil16 i calls < 2 ^ 32 := by
  constructor
  · intro hf
    refine ⟨fun a ha => ?_, fun i => ?_⟩
    · obtain ⟨before, after, h⟩ := List.append_of_mem ha
      exact (hf before a after h).1
    · induction calls using List.reverseRecOn with
      | nil => exact Nat.two_pow_pos 32
      | append_singleton calls a ih =>
          rw [sumFor_concat]
          split_ifs with hi
          · exact hi ▸ (hf calls a [] rfl).2
          · exact ih fun before b after h => hf before b (after ++ [a]) (by simp [h])
  · rintro ⟨hsub, htotal⟩ before a after rfl
    refine ⟨hsub a (by simp), ?_⟩
    have hle := htotal a.subtypeIndex
    rw [List.append_cons, sumFor_append, sumFor_concat, if_pos rfl] at hle
    omega

/-- Safe calls fit: those before a call bring about the state that it is safe in. -/
theorem Safe.fits (h : Safe numTypes typeIndex calls) {before after : List Request} {a : Request}
    (hcalls : calls = before ++ a :: after) : Fits before a := by
  obtain ⟨s, hs, hb⟩ := @exists_behind _ typeIndex before fun before' b after' hbefore =>
    h.fits (show calls = before' ++ b :: (after' ++ a :: after) by simp [hcalls, hbefore])
  exact hb.fits (h.call before a after s hcalls hs)
termination_by before.length
decreasing_by
  rw [hbefore, List.length_append, List.length_cons]
  omega

/-- **A call that fits** is safe if its handle is not the one of another subtype. -/
theorem Behind.callSafe_iff {typeIndex : ℕ} {s : Extensions} {a : Request}
    (h : Behind typeIndex calls s) (hf : Fits calls a)
    (hsub : ∀ b ∈ calls, b.subtypeIndex ≠ kGenericSubtype) :
    CallSafe typeIndex s a ↔ ∀ (j : ℕ) (b : Request), (calls ++ [a])[j]? = some b →
      u32 (calls.length + 1) = j + 1 → b.subtypeIndex = a.subtypeIndex := by
  obtain ⟨t, ht, hb⟩ := h.register hf
  have hsub' : ∀ b ∈ calls ++ [a], b.subtypeIndex ≠ kGenericSubtype := by
    intro b hmem
    rcases List.mem_append.1 hmem with hmem | hmem
    · exact hsub b hmem
    · exact List.mem_singleton.1 hmem ▸ hf.1
  have hle : u32 (calls.length + 1) ≤ (calls ++ [a]).length := by
    rw [List.length_append, List.length_singleton]
    exact Nat.mod_le _ _
  rw [← honoured_iff hb hsub' hle]
  constructor
  · intro hsafe
    exact hsafe.honoured _ t ht
  · intro hh
    refine ⟨⟨_, t, ht⟩, ?_, ?_⟩
    · intro c hc
      obtain ⟨d, hd, hcd⟩ := h.context
      obtain rfl := Option.some.inj (hd.symm.trans hc)
      exact hcd.noWrap hf
    · intro k u hu
      obtain ⟨rfl, rfl⟩ := Prod.mk.inj (Option.some.inj (ht.symm.trans hu))
      exact hh

theorem Safe.admissible (h : Safe numTypes typeIndex calls) : Admissible calls := by
  have hf : ∀ before a after, calls = before ++ a :: after → Fits before a :=
    fun before a after => h.fits
  obtain ⟨hsub, htotal⟩ := fits_iff.1 hf
  refine ⟨hsub, htotal, fun i j a b hi hj hu => ?_⟩
  obtain ⟨hlt, rfl⟩ := List.getElem?_eq_some_iff.1 hi
  have hsplit : calls = calls.take i ++ calls[i] :: calls.drop (i + 1) := by
    rw [List.getElem_cons_drop, List.take_append_drop]
  obtain ⟨s, hs, hb⟩ := exists_behind_before typeIndex hf hsplit
  have hlen : (calls.take i).length = i := List.length_take_of_le hlt.le
  have hsafe := (hb.callSafe_iff (hf _ _ _ hsplit) fun b hb => hsub b (List.mem_of_mem_take hb)).1
    (h.call _ _ _ s hsplit hs)
  refine hsafe j b ?_ (hlen.symm ▸ hu)
  -- the call with this handle is not a later one
  have hle : j + 1 ≤ i + 1 := hu ▸ Nat.mod_le _ _
  rw [List.take_append_getElem hlt, List.getElem?_take_of_lt (by omega), hj]

theorem Admissible.safe (h : Admissible calls) : Safe numTypes typeIndex calls := by
  have hf := fits_iff.2 ⟨h.subtype, h.total⟩
  refine ⟨?_, ?_⟩
  · rintro before a after s rfl hs
    obtain ⟨t, ht, hb⟩ := exists_behind_before typeIndex hf rfl
    obtain rfl := Option.some.inj (hs.symm.trans ht)
    refine (hb.callSafe_iff (hf before a after rfl)
      fun b hmem => h.subtype b (List.mem_append_left _ hmem)).2 fun j b hj hu => ?_
    refine h.handle before.length j a b (by simp) ?_ hu
    rw [List.append_cons, List.getElem?_append_left (List.getElem?_eq_some_iff.1 hj).1, hj]
  · intro s hs c hc i
    obtain ⟨t, ht, hb⟩ := exists_behind typeIndex hf
    obtain rfl := Option.some.inj (hs.symm.trans ht)
    obtain ⟨d, hd, hcd⟩ := hb.context
    obtain rfl := Option.some.inj (hd.symm.trans hc)
    rw [hcd.total]
    exact sumFor_le_sumFor le_ceil16 i calls

/-- **Registration is safe** for these sequences of calls, and for no others. -/
theorem safe_iff_admissible (numTypes : ℕ) (typeIndex : Fin numTypes) (calls : List Request) :
    Safe numTypes typeIndex calls ↔ Admissible calls :=
  ⟨Safe.admissible, Admissible.safe⟩

/-- **An unsafe call**: an extension for the objects of the subtype 0xFFFFFFFF. -/
theorem unsafe_subtype : ¬ Safe 1 0 [⟨0xffffffff, 16, by decide, by decide⟩] :=
  fun h => h.admissible.subtype _ (List.mem_singleton_self _) rfl

/-! A size for which there is no multiple of 16, and two sizes whose sum overflows. -/

example : roundUp16 0xfffffff1 = 0 := by decide

example : u32 (roundUp16 0x80000000 + roundUp16 0x80000000) = 0 := by decide

end Registrations

end Data
