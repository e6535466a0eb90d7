/-
**Loaded modules are linear in memory.**

A module is loaded in two steps: it gets a run of slots of the page table, and each slot that stands
for a mapping gets an entry of the translation buffer.  Unloading it frees both.  The mapping step
is the reference implementation that `patches/src/module_impl.c` keeps next to the allocation; that
the indices it takes from the buffer are free is all that is asked of them, and unloading, which is
code of the game, is asked to free what belongs to the module.

Whatever has been loaded and unloaded before, the entries of a loaded module cover its range without
gaps, and each of them is linear.  Since no entry of another module holds an address of the range,
the translation of the whole range is linear too.

Main definitions:

* `Modules.slotMapping`, `Modules.moduleMapTLBImpl` — the mapping of the slots of a module;
* `Modules.ModuleState`, `Modules.ModuleAct`, `Modules.ModuleStep` — the page table, the buffer and
  the loaded modules, and what happens to them;
* `Modules.Extent`, `Modules.ModuleInv` — the slots and the entries of a module, and the invariant;
* `Modules.LoadedLinear` — **what holds of the loaded modules**.

Main results:

* `Modules.moduleMapTLBLoop_spec` — the entries that a mapping writes;
* `Modules.ModuleStep.moduleInv` — the step lemma;
* `Modules.loaded_linear_of_reachable` — **a loaded module is linear in memory**.
-/

import TsaRecomp.Lib.Runs
import TsaRecomp.Modules.Pages
import TsaRecomp.Modules.Tlb

set_option relaxedAutoImplicit false
set_option autoImplicit false

namespace Modules

/-! ### The mapping -/

/-- The page mask with which `moduleMapTLB_impl` maps a slot, and the distance of the odd page from
the even one. -/
def slotMapping (slot : UnkStruct800CA668) : Option (BitVec 32 × BitVec 32) :=
  if slot.pageCount = 4 then some (0x6000, 0x4000)
  else if slot.pageCount = 1 then some (0, 0x1000)
  else none

/-- The entry that is written for a slot. -/
def slotEntry (slot : UnkStruct800CA668) : Option TLBEntry :=
  (slotMapping slot).map fun x => mappedEntry x.1 slot.vaddr slot.paddr (slot.paddr + x.2)

/-- `D_800AD1F0`: the module of each index of the buffer. -/
abbrev Owners := Fin 32 → BitVec 32

/-- The `for` loop of `moduleMapTLB_impl`, over the slots that are left.  Each mapping takes the
next of the given indices, which must be free. -/
def moduleMapTLBLoop (t : PageTable) (id : BitVec 32) :
    List (Fin 64) → List (Fin 32) → TLBTable → Owners → Option (TLBTable × Owners)
  | [], _, tlb, owner => some (tlb, owner)
  | k :: slots, indices, tlb, owner =>
      if (t k).moduleId = id then
        match slotMapping (t k) with
        | none => moduleMapTLBLoop t id slots indices tlb owner
        | some (pm, distance) =>
            match indices with
            | [] => none
            | index :: indices =>
                if owner index = noModule then
                  moduleMapTLBLoop t id slots indices
                    (osMapTLB tlb index pm (t k).vaddr (t k).paddr ((t k).paddr + distance))
                    (fun i => if i = index then id else owner i)
                else none
      else moduleMapTLBLoop t id slots indices tlb owner

/-- `moduleMapTLB_impl`, with the indices that it takes. -/
def moduleMapTLBImpl (t : PageTable) (id : BitVec 32) (indices : List (Fin 32)) (tlb : TLBTable)
    (owner : Owners) : Option (TLBTable × Owners) :=
  moduleMapTLBLoop t id (List.finRange 64) indices tlb owner

/-- Where an entry behind a mapping comes from. -/
inductive EntryFrom (t : PageTable) (id : BitVec 32) (slots : List (Fin 64)) (tlb : TLBTable)
    (owner : Owners) (tlb' : TLBTable) (owner' : Owners) (i : Fin 32) : Prop
  | kept (howner : owner' i = owner i) (hentry : tlb' i = tlb i)
  | mapped {k : Fin 64} (hfree : owner i = noModule) (howner : owner' i = id) (hk : k ∈ slots)
      (hid : (t k).moduleId = id) (hentry : slotEntry (t k) = some (tlb' i))

theorem EntryFrom.cons {t : PageTable} {id : BitVec 32} {slots : List (Fin 64)}
    {tlb tlb' : TLBTable} {owner owner' : Owners} {i : Fin 32} (k : Fin 64)
    (h : EntryFrom t id slots tlb owner tlb' owner' i) :
    EntryFrom t id (k :: slots) tlb owner tlb' owner' i := by
  cases h with
  | kept ho he => exact .kept ho he
  | mapped hf ho hk hid he => exact .mapped hf ho (List.mem_cons_of_mem _ hk) hid he

/-- The index that the first slot has taken, behind the mappings of the others: it is not taken
again. -/
theorem EntryFrom.taken_self {t : PageTable} {id : BitVec 32} {slots : List (Fin 64)}
    {tlb tlb' : TLBTable} {owner owner' : Owners} {index : Fin 32} (hid : id ≠ noModule)
    (h : EntryFrom t id slots tlb (fun i => if i = index then id else owner i) tlb' owner' index) :
    owner' index = id ∧ tlb' index = tlb index := by
  cases h with
  | kept ho he => exact ⟨ho.trans (if_pos rfl), he⟩
  | mapped hf => exact absurd ((if_pos rfl).symm.trans hf) hid

/-- The entries behind the mapping of the first slot and those of the others. -/
theorem EntryFrom.taken {t : PageTable} {id pm odd : BitVec 32} {k : Fin 64}
    {slots : List (Fin 64)} {tlb tlb' : TLBTable} {owner owner' : Owners} {index i : Fin 32}
    (hid : id ≠ noModule) (hfree : owner index = noModule) (hk : (t k).moduleId = id)
    (hentry : slotEntry (t k) = some (mappedEntry pm (t k).vaddr (t k).paddr odd))
    (h : EntryFrom t id slots (osMapTLB tlb index pm (t k).vaddr (t k).paddr odd)
      (fun i => if i = index then id else owner i) tlb' owner' i) :
    EntryFrom t id (k :: slots) tlb owner tlb' owner' i := by
  by_cases hi : i = index
  · subst hi
    obtain ⟨ho, he⟩ := h.taken_self hid
    exact .mapped hfree ho List.mem_cons_self hk (by rw [hentry, he, osMapTLB, if_pos rfl])
  · cases h with
    | kept ho he => exact .kept (ho.trans (if_neg hi)) (he.trans (if_neg hi))
    | mapped hf ho hk' hid' he =>
        exact .mapped ((if_neg hi).symm.trans hf) ho (List.mem_cons_of_mem _ hk') hid' he

/-- **The entries that a mapping writes**: one for each slot of the module that stands for a
mapping, at indices that were free. -/
theorem moduleMapTLBLoop_spec {t : PageTable} {id : BitVec 32} (hid : id ≠ noModule) :
    ∀ {slots : List (Fin 64)} {indices : List (Fin 32)} {tlb tlb' : TLBTable}
      {owner owner' : Owners},
      moduleMapTLBLoop t id slots indices tlb owner = some (tlb', owner') →
        (∀ i, EntryFrom t id slots tlb owner tlb' owner' i) ∧
        ∀ k ∈ slots, (t k).moduleId = id → ∀ e, slotEntry (t k) = some e →
          ∃ i, owner' i = id ∧ tlb' i = e := by
  intro slots
  induction slots with
  | nil =>
      intro indices tlb tlb' owner owner' h
      obtain ⟨rfl, rfl⟩ := Prod.mk.inj (Option.some.inj h)
      exact ⟨fun i => .kept rfl rfl, fun k hk => by cases hk⟩
  | cons k slots ih =>
      intro indices tlb tlb' owner owner' h
      rw [moduleMapTLBLoop] at h
      by_cases hk : (t k).moduleId = id
      · rw [if_pos hk] at h
        cases hm : slotMapping (t k) with
        | none =>
            simp only [hm] at h
            obtain ⟨hfrom, hall⟩ := ih h
            refine ⟨fun i => (hfrom i).cons k, ?_⟩
            intro k' hk' hid' e he
            rcases List.mem_cons.1 hk' with rfl | hk'
            · rw [slotEntry, hm] at he
              cases he
            · exact hall k' hk' hid' e he
        | some x =>
            obtain ⟨pm, distance⟩ := x
            simp only [hm] at h
            cases indices with
            | nil => cases h
            | cons index indices =>
                dsimp only at h
                split at h
                · next hfree =>
                    obtain ⟨hfrom, hall⟩ := ih h
                    have hentry : slotEntry (t k) = some (mappedEntry pm (t k).vaddr (t k).paddr
                        ((t k).paddr + distance)) := by rw [slotEntry, hm, Option.map_some]
                    refine ⟨fun i => (hfrom i).taken hid hfree hk hentry, ?_⟩
                    intro k' hk' hid' e he
                    rcases List.mem_cons.1 hk' with rfl | hk'
                    · obtain ⟨ho, hindex⟩ := (hfrom index).taken_self hid
                      rw [hentry] at he
                      refine ⟨index, ho, hindex.trans ?_⟩
                      rw [osMapTLB, if_pos rfl]
                      exact Option.some.inj he
                    · exact hall k' hk' hid' e he
                · cases h
      · rw [if_neg hk] at h
        obtain ⟨hfrom, hall⟩ := ih h
        refine ⟨fun i => (hfrom i).cons k, ?_⟩
        intro k' hk' hid' e he
        rcases List.mem_cons.1 hk' with rfl | hk'
        · exact absurd hid' hk
        · exact hall k' hk' hid' e he

/-! ### The modules -/

/-- A module that has been loaded. -/
structure LoadedModule where
  id : BitVec 32
  count : ℕ
  vaddr : BitVec 32
  deriving DecidableEq, Repr

/-- The page table, the translation buffer, the modules of its indices, and the loaded modules. -/
structure ModuleState where
  table : PageTable
  tlb : TLBTable
  owner : Owners
  loaded : List LoadedModule

/-- No module is loaded: every slot is free, and the buffer is as the program starts with it. -/
structure ModuleInit (s : ModuleState) : Prop where
  table : ∀ k, (s.table k).moduleId = noModule
  tlb : ∀ i, s.tlb i = .zero
  owner : ∀ i, s.owner i = noModule
  loaded : s.loaded = []

inductive ModuleAct
  | load (count : ℕ) (vaddr id : BitVec 32) (indices : List (Fin 32))
  | unload (id : BitVec 32)
  deriving DecidableEq, Repr

/-- The entries of a module are unmapped. -/
def unmapOwned (id : BitVec 32) (owner : Owners) (tlb : TLBTable) : TLBTable :=
  (List.finRange 32).foldl (fun t i => if owner i = id then osUnmapTLB t i else t) tlb

/-- **What happens to the modules**: one is loaded under an identifier that no loaded module has, or
one is unloaded. -/
inductive ModuleStep (s : ModuleState) : ModuleAct → ModuleState → Prop
  | load {count : ℕ} {vaddr id : BitVec 32} {indices : List (Fin 32)} {table : PageTable}
      {tlb : TLBTable} {owner : Owners} (hc : 0 < count) (hid : id ≠ noModule)
      (hfresh : ∀ m ∈ s.loaded, m.id ≠ id)
      (hpages : modulegetpagesImpl 65 s.table count vaddr id = .ok (table, none))
      (htlb : moduleMapTLBImpl table id indices s.tlb s.owner = some (tlb, owner)) :
      ModuleStep s (.load count vaddr id indices)
        { table := table
          tlb := tlb
          owner := owner
          loaded := ⟨id, count, vaddr⟩ :: s.loaded }
  | unload {id : BitVec 32} {table : PageTable} (hid : id ≠ noModule)
      (hset : ∀ k, (s.table k).moduleId = id → (table k).moduleId = noModule)
      (hkeep : ∀ k, (s.table k).moduleId ≠ id → table k = s.table k) :
      ModuleStep s (.unload id)
        { table := table
          tlb := unmapOwned id s.owner s.tlb
          owner := fun i => if s.owner i = id then noModule else s.owner i
          loaded := s.loaded.filter fun m => m.id ≠ id }

/-- The states of the runs of loads and unloads. -/
abbrev ModuleReachable (s : ModuleState) : Prop :=
  Runs.Reach ModuleStep ModuleInit (fun _ _ => True) s

theorem unmapOwned_apply (id : BitVec 32) (owner : Owners) (tlb : TLBTable) (i : Fin 32) :
    unmapOwned id owner tlb i = if owner i = id then .zero else tlb i := by
  have key : ∀ (l : List (Fin 32)) (tlb : TLBTable),
      l.foldl (fun t i => if owner i = id then osUnmapTLB t i else t) tlb i =
        if i ∈ l ∧ owner i = id then .zero else tlb i := by
    intro l
    induction l with
    | nil =>
        intro tlb
        simp
    | cons j l ih =>
        intro tlb
        rw [List.foldl_cons, ih]
        by_cases hl : i ∈ l ∧ owner i = id
        · rw [if_pos hl, if_pos ⟨List.mem_cons_of_mem _ hl.1, hl.2⟩]
        · rw [if_neg hl]
          by_cases hij : i = j
          · subst hij
            by_cases ho : owner i = id
            · rw [if_pos ho, if_pos ⟨List.mem_cons_self .., ho⟩]
              exact if_pos rfl
            · rw [if_neg ho, if_neg fun h => ho h.2]
          · have hcons : ¬ (i ∈ j :: l ∧ owner i = id) := fun h =>
              hl ⟨(List.mem_cons.1 h.1).resolve_left hij, h.2⟩
            rw [if_neg hcons]
            split
            · exact if_neg hij
            · rfl
  rw [unmapOwned, key]
  simp

/-! ### The invariant -/

/-- The entry `e` maps `2 * size` bytes of the module, from the offset `d` on. -/
structure EntryOf (m : LoadedModule) (start : ℕ) (e : TLBEntry) (d size : ℕ) : Prop where
  vaddr : e.vaddr = m.vaddr + BitVec.ofNat 32 d
  pagesize : e.pagesize = BitVec.ofNat 32 size
  evenpaddr : e.evenpaddr = BitVec.ofNat 32 (0x250000 + start * 0x2000 + d)
  oddpaddr : e.oddpaddr = BitVec.ofNat 32 (0x250000 + start * 0x2000 + d + size)
  bound : d + 2 * size ≤ m.count * 0x2000

/-- The slots of a module, and its entries, which cover its range. -/
structure Extent (s : ModuleState) (m : LoadedModule) (start : ℕ) : Prop where
  count_pos : 0 < m.count
  bound : start + m.count ≤ 64
  slots : ∀ k : Fin 64, (s.table k).moduleId = m.id ↔ start ≤ k ∧ k < start + m.count
  entries : ∀ i, s.owner i = m.id → ∃ d size, EntryOf m start (s.tlb i) d size
  covered : ∀ o, o < m.count * 0x2000 → ∃ i d size,
    s.owner i = m.id ∧ EntryOf m start (s.tlb i) d size ∧ d ≤ o ∧ o ≤ d + 2 * size

/-- **The invariant**: slots and entries belong to loaded modules, each to one, or are free. -/
structure ModuleInv (s : ModuleState) : Prop where
  nodup : (s.loaded.map LoadedModule.id).Nodup
  id_ne : ∀ m ∈ s.loaded, m.id ≠ noModule
  extent : ∀ m ∈ s.loaded, ∃ start, Extent s m start
  slot : ∀ k, (s.table k).moduleId ≠ noModule → ∃ m ∈ s.loaded, (s.table k).moduleId = m.id
  free : ∀ i, s.owner i = noModule → s.tlb i = .zero
  owned : ∀ i, s.owner i ≠ noModule → ∃ m ∈ s.loaded, s.owner i = m.id

/-- A change that leaves the slots and the entries of a module alone keeps its extent. -/
theorem Extent.frame {s s' : ModuleState} {m : LoadedModule} {start : ℕ} (h : Extent s m start)
    (hslots : ∀ k, (s'.table k).moduleId = m.id ↔ (s.table k).moduleId = m.id)
    (howner : ∀ i, s'.owner i = m.id ↔ s.owner i = m.id)
    (htlb : ∀ i, s.owner i = m.id → s'.tlb i = s.tlb i) : Extent s' m start := by
  refine ⟨h.count_pos, h.bound, fun k => (hslots k).trans (h.slots k), ?_, ?_⟩
  · intro i hi
    have hi := (howner i).1 hi
    rw [htlb i hi]
    exact h.entries i hi
  · intro o ho
    obtain ⟨i, d, size, hi, hentry, hd⟩ := h.covered o ho
    refine ⟨i, d, size, (howner i).2 hi, ?_, hd⟩
    rw [htlb i hi]
    exact hentry

/-! ### The entries of the slots -/

section Slots

variable {m : LoadedModule} {start : ℕ} {k : Fin 64}

/-- The physical address of a slot lies in the memory of the modules. -/
theorem paddr_eq (k : Fin 64) :
    ((0x80250000 + BitVec.ofInt 32 (k * 0x2000)) &&& 0x7FFFFFFF : BitVec 32) =
      BitVec.ofNat 32 (0x250000 + k * 0x2000) := by
  revert k
  decide

/-- The entry of a slot that stands for a mapping of pages of the given size. -/
theorem entryOf_mapped {pm : BitVec 32} {r size : ℕ} (hk : (k : ℕ) = start + r)
    (hsize : pageSizeOf pm = BitVec.ofNat 32 size) (hb : r * 0x2000 + 2 * size ≤ m.count * 0x2000) :
    EntryOf m start
      (mappedEntry pm (pageAt m.count start m.vaddr m.id k).vaddr
        (pageAt m.count start m.vaddr m.id k).paddr
        ((pageAt m.count start m.vaddr m.id k).paddr + BitVec.ofNat 32 size))
      (r * 0x2000) size := by
  have hr : ((k : ℕ) : ℤ) - start = (r : ℤ) := by omega
  have hpaddr : (pageAt m.count start m.vaddr m.id k).paddr =
      BitVec.ofNat 32 (0x250000 + start * 0x2000 + r * 0x2000) := by
    rw [pageAt, paddr_eq, hk]
    exact congrArg (BitVec.ofNat 32) (by omega)
  refine ⟨?_, hsize, hpaddr, ?_, hb⟩
  · show m.vaddr + BitVec.ofInt 32 (((k : ℕ) - (start : ℤ)) * 0x2000) = _
    rw [hr, show ((r : ℤ) * 0x2000) = ((r * 0x2000 : ℕ) : ℤ) by push_cast; ring,
      BitVec.ofInt_natCast]
  · show (pageAt m.count start m.vaddr m.id k).paddr + BitVec.ofNat 32 size = _
    rw [hpaddr, ← BitVec.ofNat_add]

/-- **A slot of a module**: the first of a group, another of a group, or a single one. -/
theorem slotEntry_pageAt {r : ℕ} (hk : (k : ℕ) = start + r) (hr : r < m.count) :
    (∃ e, slotEntry (pageAt m.count start m.vaddr m.id k) = some e ∧
      ∃ size, EntryOf m start e (r * 0x2000) size ∧
        2 * size = (if r < m.count / 4 * 4 then 0x8000 else 0x2000)) ∨
    slotEntry (pageAt m.count start m.vaddr m.id k) = none ∧ r < m.count / 4 * 4 ∧ r % 4 ≠ 0 := by
  have hdiff : ((k : ℕ) : ℤ) - start = (r : ℤ) := by omega
  have hpage : (pageAt m.count start m.vaddr m.id k).pageCount =
      if r < m.count / 4 * 4 then if r % 4 = 0 then 4 else 0 else 1 := by
    rw [pageAt, hdiff]
    refine if_congr (by omega) (if_congr (by omega) rfl rfl) rfl
  unfold slotEntry slotMapping
  rw [hpage]
  by_cases hg : r < m.count / 4 * 4
  · by_cases h4 : r % 4 = 0
    · left
      have hb : r * 0x2000 + 2 * 0x4000 ≤ m.count * 0x2000 := by omega
      rw [if_pos hg, if_pos h4, if_pos rfl, if_pos hg]
      exact ⟨_, rfl, _, entryOf_mapped hk rfl hb, rfl⟩
    · right
      rw [if_pos hg, if_neg h4]
      exact ⟨rfl, hg, h4⟩
  · left
    have hb : r * 0x2000 + 2 * 0x1000 ≤ m.count * 0x2000 := by omega
    rw [if_neg hg, if_neg (by norm_num), if_pos rfl, if_neg hg]
    exact ⟨_, rfl, _, entryOf_mapped hk rfl hb, rfl⟩

/-- The offsets that are mapped by the slot `r` of a module. -/
theorem slot_covers (hb : start + m.count ≤ 64) {o r : ℕ} (hr : r < m.count)
    (hle : r * 0x2000 ≤ o)
    (hg : r < m.count / 4 * 4 → r % 4 = 0 ∧ o ≤ r * 0x2000 + 0x8000)
    (hs : ¬ r < m.count / 4 * 4 → o ≤ r * 0x2000 + 0x2000) :
    ∃ k : Fin 64, start ≤ k ∧ k < start + m.count ∧
      ∃ e, slotEntry (pageAt m.count start m.vaddr m.id k) = some e ∧
        ∃ d size, EntryOf m start e d size ∧ d ≤ o ∧ o ≤ d + 2 * size := by
  obtain ⟨k, hk⟩ : ∃ k : Fin 64, (k : ℕ) = start + r := ⟨⟨start + r, by omega⟩, rfl⟩
  refine ⟨k, by omega, by omega, ?_⟩
  rcases slotEntry_pageAt hk hr with ⟨e, he, size, hentry, hsize⟩ | ⟨-, hlt, hne⟩
  · refine ⟨e, he, _, size, hentry, hle, ?_⟩
    rw [hsize]
    split
    · next h => exact (hg h).2
    · next h => exact hs h
  · exact absurd (hg hlt).1 hne

/-- **The slots of a module leave no gap.** -/
theorem slots_cover (hb : start + m.count ≤ 64) {o : ℕ} (ho : o < m.count * 0x2000) :
    ∃ k : Fin 64, start ≤ k ∧ k < start + m.count ∧
      ∃ e, slotEntry (pageAt m.count start m.vaddr m.id k) = some e ∧
        ∃ d size, EntryOf m start e d size ∧ d ≤ o ∧ o ≤ d + 2 * size := by
  -- the slot of the offset, or the first slot of its group
  by_cases hgroup : o / 0x2000 < m.count / 4 * 4
  · have hr : o / 0x2000 / 4 * 4 < m.count / 4 * 4 := by omega
    exact slot_covers hb (by omega) (by omega) (fun _ => ⟨by omega, by omega⟩)
      (fun h => absurd hr h)
  · exact slot_covers hb (by omega) (by omega) (fun h => absurd h hgroup) (fun _ => by omega)

end Slots

/-! ### The step lemma -/

/-- The slots behind an allocation. -/
theorem allocated_apply {t : PageTable} {count start : ℕ} {vaddr id : BitVec 32} (k : Fin 64) :
    allocated t count start vaddr id k =
      if start ≤ (k : ℕ) ∧ (k : ℕ) < start + count then pageAt count start vaddr id k else t k :=
  if_congr (by omega) rfl rfl

section Load

variable {s : ModuleState} {count start : ℕ} {vaddr id : BitVec 32} {tlb : TLBTable}
  {owner : Owners}

/-- The state behind a load. -/
def loadedState (s : ModuleState) (count start : ℕ) (vaddr id : BitVec 32) (tlb : TLBTable)
    (owner : Owners) : ModuleState where
  table := allocated s.table count start vaddr id
  tlb := tlb
  owner := owner
  loaded := ⟨id, count, vaddr⟩ :: s.loaded

/-- The slots of the new module are those of its run. -/
theorem ModuleInv.new_slots (h : ModuleInv s) (hid : id ≠ noModule)
    (hfresh : ∀ m ∈ s.loaded, m.id ≠ id) (k : Fin 64) :
    (allocated s.table count start vaddr id k).moduleId = id ↔
      start ≤ (k : ℕ) ∧ (k : ℕ) < start + count := by
  rw [allocated_apply]
  split
  · next hk => exact ⟨fun _ => hk, fun _ => rfl⟩
  · next hk =>
      refine ⟨fun he => ?_, fun h => absurd h hk⟩
      obtain ⟨m, hm, hme⟩ := h.slot k (he.trans_ne hid)
      exact absurd (hme.symm.trans he) (hfresh m hm)

/-- The extent of the new module. -/
theorem ModuleInv.new_extent (h : ModuleInv s) (hc : 0 < count) (hid : id ≠ noModule)
    (hfresh : ∀ m ∈ s.loaded, m.id ≠ id) (hb : start + count ≤ 64)
    (hfrom : ∀ i, EntryFrom (allocated s.table count start vaddr id) id (List.finRange 64) s.tlb
      s.owner tlb owner i)
    (hall : ∀ k : Fin 64, (allocated s.table count start vaddr id k).moduleId = id →
      ∀ e, slotEntry (allocated s.table count start vaddr id k) = some e →
        ∃ i, owner i = id ∧ tlb i = e) :
    Extent (loadedState s count start vaddr id tlb owner) ⟨id, count, vaddr⟩ start := by
  have hslots : ∀ k : Fin 64, (allocated s.table count start vaddr id k).moduleId = id ↔
      start ≤ (k : ℕ) ∧ (k : ℕ) < start + count := h.new_slots hid hfresh
  refine ⟨hc, hb, hslots, ?_, ?_⟩
  · intro i hi
    cases hfrom i with
    | kept ho he =>
        obtain ⟨m, hm, hme⟩ := h.owned i (fun h0 => hid (hi.symm.trans (ho.trans h0)))
        exact absurd (hme.symm.trans (ho.symm.trans hi)) (hfresh m hm)
    | @mapped k hf ho hk hkid he =>
        obtain ⟨h₁, h₂⟩ := (hslots k).1 hkid
        rw [allocated_apply, if_pos ⟨h₁, h₂⟩] at he
        have hr : (k : ℕ) = start + (k - start) := by omega
        rcases slotEntry_pageAt (m := ⟨id, count, vaddr⟩) hr (show k - start < count by omega) with
          ⟨e, he', size, hentry, -⟩ | ⟨hnone, -⟩
        · obtain rfl := Option.some.inj (he'.symm.trans he)
          exact ⟨_, size, hentry⟩
        · cases hnone.symm.trans he
  · intro o ho
    obtain ⟨k, h₁, h₂, e, he, d, size, hentry, hd, hd'⟩ :=
      slots_cover (m := ⟨id, count, vaddr⟩) hb ho
    have hk : allocated s.table count start vaddr id k = pageAt count start vaddr id k := by
      rw [allocated_apply, if_pos ⟨h₁, h₂⟩]
    obtain ⟨i, hi, hie⟩ := hall k ((hslots k).2 ⟨h₁, h₂⟩) e (by rw [hk]; exact he)
    refine ⟨i, d, size, hi, ?_, hd, hd'⟩
    show EntryOf _ start (tlb i) d size
    rw [hie]
    exact hentry

/-- The extents of the other modules. -/
theorem Extent.loaded {m : LoadedModule} {start' : ℕ} (h : Extent s m start')
    (hm0 : m.id ≠ noModule) (hne : m.id ≠ id)
    (hfree : ∀ k : Fin 64, start ≤ k → k < start + count → (s.table k).moduleId = noModule)
    (hfrom : ∀ i, EntryFrom (allocated s.table count start vaddr id) id (List.finRange 64) s.tlb
      s.owner tlb owner i) :
    Extent (loadedState s count start vaddr id tlb owner) m start' := by
  have hkeep : ∀ i, owner i = m.id ∨ s.owner i = m.id → owner i = s.owner i ∧ tlb i = s.tlb i := by
    intro i hi
    cases hfrom i with
    | kept ho he => exact ⟨ho, he⟩
    | mapped hf ho =>
        rcases hi with hi | hi
        · exact absurd (hi.symm.trans ho) hne
        · exact absurd (hi.symm.trans hf) hm0
  refine h.frame (fun k => ?_) (fun i => ?_) fun i hi => (hkeep i (Or.inr hi)).2
  · show (allocated s.table count start vaddr id k).moduleId = m.id ↔ _
    rw [allocated_apply]
    split
    · next hk =>
        have h₁ : (pageAt count start vaddr id k).moduleId = id := rfl
        rw [h₁, hfree k hk.1 hk.2]
        exact ⟨fun e => absurd e.symm hne, fun e => absurd e.symm hm0⟩
    · rfl
  · show owner i = m.id ↔ s.owner i = m.id
    constructor
    · intro hi
      rw [← (hkeep i (Or.inl hi)).1, hi]
    · intro hi
      rw [(hkeep i (Or.inr hi)).1, hi]

end Load

/-- What has been allocated was a run that fits. -/
theorem allocated_of_ok {t table : PageTable} {count : ℕ} {vaddr id : BitVec 32} (hc : 0 < count)
    (hpages : modulegetpagesImpl 65 t count vaddr id = .ok (table, none)) :
    ∃ start : ℕ, Fits t count start ∧ table = allocated t count start vaddr id := by
  by_cases hex : ∃ start, Fits t count start
  · obtain ⟨start, hfit, -, hr⟩ := modulegetpagesImpl_of_fits vaddr id le_rfl (by omega) hex
    obtain ⟨start, rfl⟩ := Int.eq_ofNat_of_zero_le hfit.nonneg
    rw [hpages] at hr
    exact ⟨start, hfit, (Prod.mk.inj (Except.ok.inj hr)).1⟩
  · have hr := modulegetpagesImpl_of_full vaddr id le_rfl (by omega) (not_exists.1 hex)
    rw [hpages] at hr
    cases (Prod.mk.inj (Except.ok.inj hr)).2

/-- **A load keeps the invariant.** -/
theorem ModuleInv.load {s : ModuleState} (h : ModuleInv s) {count : ℕ} {vaddr id : BitVec 32}
    {indices : List (Fin 32)} {table : PageTable} {tlb : TLBTable} {owner : Owners}
    (hc : 0 < count) (hid : id ≠ noModule) (hfresh : ∀ m ∈ s.loaded, m.id ≠ id)
    (hpages : modulegetpagesImpl 65 s.table count vaddr id = .ok (table, none))
    (htlb : moduleMapTLBImpl table id indices s.tlb s.owner = some (tlb, owner)) :
    ModuleInv
      { table := table, tlb := tlb, owner := owner, loaded := ⟨id, count, vaddr⟩ :: s.loaded } := by
  obtain ⟨start, hfit, rfl⟩ := allocated_of_ok hc hpages
  obtain ⟨hfrom, hall⟩ := moduleMapTLBLoop_spec hid htlb
  have hb : start + count ≤ 64 := by
    have := hfit.bound
    omega
  refine ⟨?_, ?_, ?_, ?_, ?_, ?_⟩
  · rw [List.map_cons, List.nodup_cons]
    refine ⟨?_, h.nodup⟩
    intro hm
    obtain ⟨m, hm, he⟩ := List.mem_map.1 hm
    exact hfresh m hm he
  · intro m hm
    rcases List.mem_cons.1 hm with rfl | hm
    · exact hid
    · exact h.id_ne m hm
  · intro m hm
    rcases List.mem_cons.1 hm with rfl | hm
    · exact ⟨start, h.new_extent hc hid hfresh hb hfrom fun k => hall k (List.mem_finRange k)⟩
    · obtain ⟨start', hext⟩ := h.extent m hm
      exact ⟨start', hext.loaded (h.id_ne m hm) (hfresh m hm)
        (fun k h₁ h₂ => hfit.free k (by omega) (by omega)) hfrom⟩
  · intro k hk
    by_cases hrun : start ≤ (k : ℕ) ∧ (k : ℕ) < start + count
    · exact ⟨_, List.mem_cons_self .., (h.new_slots hid hfresh k).2 hrun⟩
    · have hold : allocated s.table count start vaddr id k = s.table k := by
        rw [allocated_apply, if_neg hrun]
      obtain ⟨m, hm, he⟩ := h.slot k (hold ▸ hk)
      exact ⟨m, List.mem_cons_of_mem _ hm, (congrArg _ hold).trans he⟩
  · intro i hi
    cases hfrom i with
    | kept ho he => exact he.trans (h.free i (ho.symm.trans hi))
    | mapped hf ho => exact absurd (ho.symm.trans hi) hid
  · intro i hi
    cases hfrom i with
    | kept ho he =>
        obtain ⟨m, hm, hme⟩ := h.owned i (fun h0 => hi (ho.trans h0))
        exact ⟨m, List.mem_cons_of_mem _ hm, ho.trans hme⟩
    | mapped hf ho => exact ⟨_, List.mem_cons_self .., ho⟩

/-- **An unload keeps the invariant.** -/
theorem ModuleInv.unload {s : ModuleState} (h : ModuleInv s) {id : BitVec 32} {table : PageTable}
    (hset : ∀ k, (s.table k).moduleId = id → (table k).moduleId = noModule)
    (hkeep : ∀ k, (s.table k).moduleId ≠ id → table k = s.table k) :
    ModuleInv
      { table := table
        tlb := unmapOwned id s.owner s.tlb
        owner := fun i => if s.owner i = id then noModule else s.owner i
        loaded := s.loaded.filter fun m => m.id ≠ id } := by
  have hmem : ∀ {m}, m ∈ s.loaded.filter (fun m => m.id ≠ id) ↔ m ∈ s.loaded ∧ m.id ≠ id := by
    intro m
    simp
  refine ⟨?_, ?_, ?_, ?_, ?_, ?_⟩
  · exact h.nodup.sublist (List.Sublist.map _ List.filter_sublist)
  · exact fun m hm => h.id_ne m (hmem.1 hm).1
  · intro m hm
    obtain ⟨hm, hne⟩ := hmem.1 hm
    obtain ⟨start, hext⟩ := h.extent m hm
    refine ⟨start, hext.frame (fun k => ?_) (fun i => ?_) fun i hi => ?_⟩
    · by_cases hk : (s.table k).moduleId = id
      · show (table k).moduleId = m.id ↔ _
        rw [hset k hk, hk]
        exact ⟨fun e => absurd e.symm (h.id_ne m hm), fun e => absurd e.symm hne⟩
      · show (table k).moduleId = m.id ↔ _
        rw [hkeep k hk]
    · show (if s.owner i = id then noModule else s.owner i) = m.id ↔ _
      split
      · next ho =>
          rw [ho]
          exact ⟨fun e => absurd e.symm (h.id_ne m hm), fun e => absurd e.symm hne⟩
      · rfl
    · show unmapOwned id s.owner s.tlb i = _
      rw [unmapOwned_apply, if_neg (by rw [hi]; exact hne)]
  · intro k hk
    by_cases hkid : (s.table k).moduleId = id
    · exact absurd (hset k hkid) hk
    · have hold := hkeep k hkid
      obtain ⟨m, hm, he⟩ := h.slot k (by rw [← hold]; exact hk)
      exact ⟨m, hmem.2 ⟨hm, he ▸ hkid⟩, (congrArg _ hold).trans he⟩
  · intro i hi
    show unmapOwned id s.owner s.tlb i = _
    rw [unmapOwned_apply]
    split
    · rfl
    · next ho => exact h.free i ((if_neg ho).symm.trans hi)
  · intro i hi
    by_cases ho : s.owner i = id
    · exact absurd (if_pos ho) hi
    · have howner : (if s.owner i = id then noModule else s.owner i) = s.owner i := if_neg ho
      obtain ⟨m, hm, he⟩ := h.owned i (by rw [← howner]; exact hi)
      exact ⟨m, hmem.2 ⟨hm, he ▸ ho⟩, howner.trans he⟩

/-- **The step lemma.** -/
theorem ModuleStep.moduleInv {s t : ModuleState} {a : ModuleAct} (h : ModuleInv s)
    (hst : ModuleStep s a t) : ModuleInv t := by
  cases hst with
  | load hc hid hfresh hpages htlb => exact h.load hc hid hfresh hpages htlb
  | unload hid hset hkeep => exact h.unload hset hkeep

/-- **The run lemma.** -/
theorem ModuleReachable.moduleInv {s : ModuleState} (h : ModuleReachable s) : ModuleInv s := by
  refine Runs.Reach.invariant (I := ModuleInv) ?_ (fun s a t hs _ hst => hst.moduleInv hs) h
  intro s hs
  refine ⟨?_, ?_, ?_, fun k hk => absurd (hs.table k) hk, fun i _ => hs.tlb i,
    fun i hi => absurd (hs.owner i) hi⟩
  · simp [hs.loaded]
  · simp [hs.loaded]
  · simp [hs.loaded]

/-! ### The translation of a module -/

/-- The closed range of a module lies in the mapped segment, above the null address. -/
structure LoadedModule.InKuseg (m : LoadedModule) : Prop where
  pos : 0 < m.vaddr.toNat
  lt : m.vaddr.toNat + m.count * 0x2000 < 0x80000000

/-- The closed ranges of two modules have no address in common. -/
def LoadedModule.Apart (m m' : LoadedModule) : Prop :=
  m.vaddr.toNat + m.count * 0x2000 < m'.vaddr.toNat ∨
    m'.vaddr.toNat + m'.count * 0x2000 < m.vaddr.toNat

/-- The memory of a module. -/
def LoadedModule.physicalRange (m : LoadedModule) (start : ℕ) : Set ℕ :=
  Set.Ico (0x80250000 + start * 0x2000) (0x80250000 + start * 0x2000 + m.count * 0x2000)

/-- The first slot of a module. -/
structure FirstSlot (t : PageTable) (id : BitVec 32) (start : ℕ) : Prop where
  lt : start < 64
  own : ∀ k : Fin 64, (k : ℕ) = start → (t k).moduleId = id
  first : ∀ k : Fin 64, (k : ℕ) < start → (t k).moduleId ≠ id

theorem Extent.firstSlot {s : ModuleState} {m : LoadedModule} {start : ℕ} (h : Extent s m start) :
    FirstSlot s.table m.id start := by
  have hc := h.count_pos
  have hb := h.bound
  refine ⟨by omega, ?_, ?_⟩
  · intro k hk
    exact (h.slots k).2 ⟨by omega, by omega⟩
  · intro k hk he
    have := ((h.slots k).1 he).1
    omega

/-- The entry of a module is linear where the range of the module is. -/
theorem EntryOf.linear {m : LoadedModule} {start d size : ℕ} {e : TLBEntry}
    (h : EntryOf m start e d size) (hk : m.InKuseg) (hb : start + m.count ≤ 64) :
    Linear e (m.vaddr.toNat + d) (0x250000 + start * 0x2000 + d) size := by
  have hlt := hk.lt
  have hbound := h.bound
  refine ⟨?_, ?_, ?_, ?_, by omega, by omega⟩
  · rw [h.vaddr, BitVec.toNat_add, BitVec.toNat_ofNat]
    omega
  · rw [h.pagesize, BitVec.toNat_ofNat]
    omega
  · rw [h.evenpaddr, BitVec.toNat_ofNat]
    omega
  · rw [h.oddpaddr, BitVec.toNat_ofNat]
    omega

/-- An address of the range of a module. -/
theorem setWidth_address {a : ℕ} (h : a < 0x80000000) :
    ((BitVec.ofNat 64 a).setWidth 32).toNat = a := by
  rw [BitVec.toNat_setWidth, BitVec.toNat_ofNat]
  omega

/-- An entry of a module covers addresses of its closed range only. -/
theorem EntryOf.mem_range {m : LoadedModule} {start d size : ℕ} {e : TLBEntry}
    (h : EntryOf m start e d size) (hk : m.InKuseg) (hb : start + m.count ≤ 64) {a : BitVec 32}
    (ha : e.covers a = true) :
    m.vaddr.toNat ≤ a.toNat ∧ a.toNat ≤ m.vaddr.toNat + m.count * 0x2000 := by
  obtain ⟨h₁, h₂⟩ := ((h.linear hk hb).covers_iff a).1 ha
  have hbound := h.bound
  omega

/-- **The owner of an entry**: an entry that covers an address of a module belongs to it. -/
theorem ModuleInv.owner_of_covers {s : ModuleState} (h : ModuleInv s)
    (hk : ∀ m ∈ s.loaded, m.InKuseg) (hd : s.loaded.Pairwise LoadedModule.Apart) {m : LoadedModule}
    (hm : m ∈ s.loaded) {a : BitVec 32} (h₁ : m.vaddr.toNat ≤ a.toNat)
    (h₂ : a.toNat ≤ m.vaddr.toNat + m.count * 0x2000) {j : Fin 32}
    (hj : (s.tlb j).covers a = true) : s.owner j = m.id := by
  by_cases hfree : s.owner j = noModule
  · rw [h.free j hfree] at hj
    have hzero : a.toNat = 0 := congrArg BitVec.toNat (TLBEntry.eq_zero_of_covers hj)
    have hpos := (hk m hm).pos
    omega
  · obtain ⟨m', hm', howner⟩ := h.owned j hfree
    obtain ⟨start', hext'⟩ := h.extent m' hm'
    obtain ⟨d, size, hentry⟩ := hext'.entries j howner
    obtain ⟨h₁', h₂'⟩ := hentry.mem_range (hk m' hm') hext'.bound hj
    have hsymm : Std.Symm LoadedModule.Apart := ⟨fun _ _ => Or.symm⟩
    by_contra hne
    have hmm : m ≠ m' := by
      rintro rfl
      exact hne howner
    rcases hd.forall hm hm' hmm with hlt | hlt <;> omega

/-- **The translation of an address of a module.** -/
theorem ModuleInv.tlbLookup {s : ModuleState} (h : ModuleInv s)
    (hk : ∀ m ∈ s.loaded, m.InKuseg) (hd : s.loaded.Pairwise LoadedModule.Apart) {m : LoadedModule}
    (hm : m ∈ s.loaded) {start : ℕ} (hext : Extent s m start) {o : ℕ} (ho : o < m.count * 0x2000) :
    tlbLookup s.tlb (BitVec.ofNat 64 (m.vaddr.toNat + o)) =
      (BitVec.ofNat 32 (0x80250000 + start * 0x2000 + o)).signExtend 64 := by
  have hkm := hk m hm
  have hlt : m.vaddr.toNat + o < 0x80000000 := by
    have := hkm.lt
    omega
  have hwidth := setWidth_address hlt
  obtain ⟨i, d, size, howner, hentry, hd₁, hd₂⟩ := hext.covered o ho
  have hcovers : (s.tlb i).covers ((BitVec.ofNat 64 (m.vaddr.toNat + o)).setWidth 32) = true := by
    rw [(hentry.linear hkm hext.bound).covers_iff, hwidth]
    omega
  have haddr : (BitVec.ofNat 64 (m.vaddr.toNat + o)).toNat < 0x80000000 := by
    rw [BitVec.toNat_ofNat]
    omega
  obtain ⟨j, hj, hlookup⟩ := tlbLookup_of_covers haddr hcovers
  -- the entry that is found is one of the module, maybe not the one at hand
  have hjowner : s.owner j = m.id :=
    h.owner_of_covers hk hd hm (by omega) (by omega) hj
  obtain ⟨d', size', hentry'⟩ := hext.entries j hjowner
  have hlin := hentry'.linear hkm hext.bound
  obtain ⟨h₁, h₂⟩ := (hlin.covers_iff _).1 hj
  rw [hlookup, hlin.translate h₁ h₂, hwidth]
  refine congrArg (fun n => (BitVec.ofNat 32 n).signExtend 64) ?_
  rw [hwidth] at h₁
  omega

/-! ### The result -/

/-- **What holds of the loaded modules**: each is linear in memory, from its first slot on, and no
two of them share memory. -/
structure LoadedLinear (s : ModuleState) : Prop where
  linear : ∀ m ∈ s.loaded, ∃ start, FirstSlot s.table m.id start ∧ ∀ o < m.count * 0x2000,
    tlbLookup s.tlb (BitVec.ofNat 64 (m.vaddr.toNat + o)) =
        tlbLookup s.tlb (BitVec.ofNat 64 m.vaddr.toNat) + BitVec.ofNat 64 o ∧
      tlbLookup s.tlb (BitVec.ofNat 64 (m.vaddr.toNat + o)) =
        (BitVec.ofNat 32 (0x80250000 + start * 0x2000 + o)).signExtend 64
  disjoint : ∀ m ∈ s.loaded, ∀ m' ∈ s.loaded, m ≠ m' → ∀ start start',
    FirstSlot s.table m.id start → FirstSlot s.table m'.id start' →
      ∀ a ∈ m.physicalRange start, a ∉ m'.physicalRange start'

/-- There is one first slot. -/
theorem FirstSlot.unique {t : PageTable} {id : BitVec 32} {start start' : ℕ}
    (h : FirstSlot t id start) (h' : FirstSlot t id start') : start = start' := by
  by_contra hne
  rcases Nat.lt_or_gt_of_ne hne with hlt | hlt
  · exact h'.first ⟨start, h.lt⟩ hlt (h.own ⟨start, h.lt⟩ rfl)
  · exact h.first ⟨start', h'.lt⟩ hlt (h'.own ⟨start', h'.lt⟩ rfl)

/-- An address of the memory, as the host sees it. -/
theorem signExtend_add {b o : ℕ} (hb : 0x80000000 ≤ b) (ho : b + o < 0x100000000) :
    (BitVec.ofNat 32 (b + o)).signExtend 64 =
      (BitVec.ofNat 32 b).signExtend 64 + BitVec.ofNat 64 o := by
  have key : ∀ {n : ℕ}, 0x80000000 ≤ n → n < 0x100000000 →
      ((BitVec.ofNat 32 n).signExtend 64).toNat = 0xFFFFFFFF00000000 + n := by
    intro n h₁ h₂
    have hmsb : (BitVec.ofNat 32 n).msb = true := by
      rw [BitVec.msb_eq_decide, BitVec.toNat_ofNat, decide_eq_true_eq]
      omega
    rw [BitVec.toNat_signExtend, hmsb, BitVec.toNat_setWidth, BitVec.toNat_ofNat]
    norm_num
    omega
  refine BitVec.eq_of_toNat_eq ?_
  rw [BitVec.toNat_add, key (by omega) ho, key hb (by omega), BitVec.toNat_ofNat]
  omega

/-- The slots of two modules are apart. -/
theorem Extent.apart {s : ModuleState} {m m' : LoadedModule} {start start' : ℕ}
    (h : Extent s m start) (h' : Extent s m' start') (hne : m.id ≠ m'.id) :
    start + m.count ≤ start' ∨ start' + m'.count ≤ start := by
  have hc := h.count_pos
  have hc' := h'.count_pos
  have hb := h.bound
  have hb' := h'.bound
  by_contra hmeet
  -- the later one of the two first slots would belong to both modules
  have hslot := h.slots ⟨max start start', by omega⟩
  have hslot' := h'.slots ⟨max start start', by omega⟩
  have he : m.id = m'.id :=
    (hslot.2 ⟨by simp, by simp; omega⟩).symm.trans (hslot'.2 ⟨by simp, by simp; omega⟩)
  exact hne he

/-- **A loaded module is linear in memory**, whatever has been loaded and unloaded before. -/
theorem loaded_linear_of_reachable {s : ModuleState} (h : ModuleReachable s)
    (hk : ∀ m ∈ s.loaded, m.InKuseg) (hd : s.loaded.Pairwise LoadedModule.Apart) :
    LoadedLinear s := by
  have hinv := h.moduleInv
  refine ⟨?_, ?_⟩
  · intro m hm
    obtain ⟨start, hext⟩ := hinv.extent m hm
    have hpos : 0 < m.count * 0x2000 := by
      have := hext.count_pos
      omega
    have hbound : start * 0x2000 + m.count * 0x2000 ≤ 64 * 0x2000 := by
      have := hext.bound
      omega
    refine ⟨start, hext.firstSlot, fun o ho => ?_⟩
    have haddr := hinv.tlbLookup hk hd hm hext ho
    have hbase := hinv.tlbLookup hk hd hm hext hpos
    rw [Nat.add_zero, Nat.add_zero] at hbase
    refine ⟨?_, haddr⟩
    rw [haddr, hbase]
    exact signExtend_add (by omega) (by omega)
  · intro m hm m' hm' hne start start' hfirst hfirst'
    obtain ⟨first, hext⟩ := hinv.extent m hm
    obtain ⟨first', hext'⟩ := hinv.extent m' hm'
    obtain rfl := hfirst.unique hext.firstSlot
    obtain rfl := hfirst'.unique hext'.firstSlot
    have hid : m.id ≠ m'.id := fun he =>
      hne (List.inj_on_of_nodup_map hinv.nodup hm hm' he)
    rintro a ⟨ha₁, ha₂⟩ ⟨hb₁, hb₂⟩
    rcases hext.apart hext' hid with hlt | hlt <;> omega

/-- No module is loaded. -/
def noModules : ModuleState where
  table := freeTable
  tlb := fun _ => .zero
  owner := fun _ => noModule
  loaded := []

/-- A module of five pages, and a module of one page behind it. -/
def twoModules : ModuleState where
  table := allocated (allocated freeTable 5 0 0x10000 7) 1 5 0x20000 8
  tlb :=
    osMapTLB
      (osMapTLB (osMapTLB noModules.tlb 0 0x6000 0x10000 0x250000 0x254000) 1 0 0x18000 0x258000
        0x259000)
      2 0 0x20000 0x25A000 0x25B000
  owner := fun i => if i = 2 then 8 else if i = 1 then 7 else if i = 0 then 7 else noModule
  loaded := [⟨8, 1, 0x20000⟩, ⟨7, 5, 0x10000⟩]

/-- The first of the two runs of slots. -/
theorem modulegetpagesImpl_five :
    modulegetpagesImpl 65 freeTable (5 : ℕ) 0x10000 7 =
      .ok (allocated freeTable 5 0 0x10000 7, none) := by
  have hfit : Fits freeTable 5 0 :=
    ⟨le_rfl, by norm_num, fun _ => dvd_zero 4, fun _ _ _ => rfl⟩
  obtain ⟨start, hstart, hmin, hr⟩ :=
    modulegetpagesImpl_of_fits (0x10000) 7 le_rfl (by norm_num) ⟨0, hfit⟩
  obtain rfl : start = 0 := le_antisymm (hmin 0 hfit) hstart.nonneg
  exact hr

/-- The slots behind it. -/
theorem modulegetpagesImpl_one :
    modulegetpagesImpl 65 (allocated freeTable 5 0 0x10000 7) (1 : ℕ) 0x20000 8 =
      .ok (twoModules.table, none) := by
  have hfit : Fits (allocated freeTable 5 0 0x10000 7) 1 5 := by
    refine ⟨by norm_num, by norm_num, by norm_num, ?_⟩
    intro k h₁ h₂
    obtain rfl : k = 5 := Fin.ext (by simp; omega)
    rfl
  obtain ⟨start, hstart, hmin, hr⟩ :=
    modulegetpagesImpl_of_fits (0x20000) 8 le_rfl (by norm_num) ⟨5, hfit⟩
  have hle := hmin 5 hfit
  have h0 := hstart.nonneg
  rcases lt_or_eq_of_le hle with hlt | rfl
  · have hfree := hstart.free ⟨start.toNat, by omega⟩ (by simp) (by simp; omega)
    have hslot : allocated freeTable 5 0 0x10000 7 ⟨start.toNat, by omega⟩ =
        pageAt 5 0 0x10000 7 ⟨start.toNat, by omega⟩ := if_pos (by simp; omega)
    exact absurd ((congrArg _ hslot).symm.trans hfree)
      (show (7 : BitVec 32) ≠ noModule by decide)
  · exact hr

theorem twoModules_reachable : ModuleReachable twoModules := by
  have hinit : ModuleInit noModules := ⟨fun _ => rfl, fun _ => rfl, fun _ => rfl, rfl⟩
  have hfive : ModuleStep noModules (.load 5 0x10000 7 [0, 1]) _ :=
    .load (by norm_num) (by decide) (fun m hm => by cases hm) modulegetpagesImpl_five rfl
  refine ((Runs.Reach.init hinit).step _ trivial hfive).step (.load 1 0x20000 8 [2]) trivial ?_
  refine .load (by norm_num) (by decide) ?_ modulegetpagesImpl_one rfl
  intro m hm
  obtain rfl := List.mem_singleton.1 hm
  decide

/-- The two modules satisfy the assumptions. -/
theorem loaded_linear_of_reachable_twoModules : LoadedLinear twoModules :=
  loaded_linear_of_reachable twoModules_reachable
    (by
      intro m hm
      rcases List.mem_cons.1 hm with rfl | hm
      · exact ⟨by decide, by decide⟩
      · obtain rfl := List.mem_singleton.1 hm
        exact ⟨by decide, by decide⟩)
    (List.pairwise_pair.2 (Or.inr (by decide)))

end Modules
