/-
**The modules in memory, over whole runs.**

A module gets its pages and its mapping, and then its text is put where its address leads to.  Here
the page table, the translation buffer, the files and the memory are one system, in which modules
are loaded, filled and unloaded in any order, and other code writes elsewhere.

The places of two modules have nothing in common, and a module is filled within its own; what the
functions use themselves, their variables and the blocks of `malloc`, is apart from all of them.  So
each text stays as it was put there, whatever is done to the other modules, and is found at the
addresses of its module.

The tables of the pages and of the mappings, `D_800CA668` and `D_800AD1F0`, are kept beside the
memory: nothing else is written where they are.

Main definitions:

* `Modules.Loader`, `Modules.LoaderStep` — the system, and what happens in it;
* `Modules.DecodeEnv.ApartFromModules` — what is asked of `malloc`;
* `Modules.LoaderInv` — the invariant;
* `Modules.Shows` — **a text at the addresses of its module**;
* `Modules.LoaderSafe` — what holds of texts and of the next one.

Main results:

* `Modules.LoaderStep.loaderInv` — the step lemma;
* `Modules.loaderSafe_of_reachable` — **every text is in place**, in every reachable state.
-/

import TsaRecomp.Modules.Loaded
import TsaRecomp.Modules.Packed

set_option relaxedAutoImplicit false
set_option autoImplicit false

namespace Modules

open BigEndian (ofBytes)
open Data (Rdram)
open Guest (byteAddr guest)
open LempelZiv (Token)
open Rebasing (gRelocTable valueAddr)

/-! ### The system -/

/-- A module with a text in its place. -/
structure Placed where
  module : LoadedModule
  text : List (BitVec 8)
  info : Rebasing.RelocInfo

/-- The modules, the files and the memory, and the texts that have been put in place. -/
structure Loader where
  modules : ModuleState
  files : FexecState
  placed : List Placed

inductive LoaderAct
  | module (a : ModuleAct)
  | fill (m : LoadedModule) (id : ℕ) (ts : List (Token (BitVec 8)))
  | other

/-- No module is loaded. -/
structure LoaderInit (s : Loader) : Prop where
  modules : ModuleInit s.modules
  tlb : s.files.gTLBTable = s.modules.tlb
  placed : s.placed = []

/-- A new module has a range of its own in the mapped segment, and what a module is filled with is
the packed text of a record that fits. -/
def LoaderProper (env : DecodeEnv) (g : Game) (s : Loader) : LoaderAct → Prop
  | .module (.load count vaddr id _) =>
      (LoadedModule.mk id count vaddr).InKuseg ∧
        ∀ m ∈ s.modules.loaded, (LoadedModule.mk id count vaddr).Apart m
  | .fill m id ts => (textOf ts).length ≤ m.count * 0x2000 ∧
      ∃ records r, EvinfoOf g s.files id records ∧ firstRecord records id = some r ∧
        PackedModule env g s.files id r ts
  | _ => True

/-- The address of a slot, in the unmapped segment. -/
def slotAddr (start : ℕ) : BitVec 32 := BitVec.ofNat 32 (0x80250000 + start * 0x2000)

/-- **`malloc` answers with blocks** that are apart from the slots, and from the variables. -/
def DecodeEnv.ApartFromModules (env : DecodeEnv) : Prop :=
  ∀ rdram, PlaceApart (env.block rdram) (slotAddr 0) (64 * 0x2000)

/-- The extent of a module that stays. -/
theorem ModuleStep.extent {s t : ModuleState} {a : ModuleAct} (h : ModuleInv s)
    (hst : ModuleStep s a t) {m : LoadedModule} (hm : m ∈ s.loaded) (hm' : m ∈ t.loaded)
    {start : ℕ} (hext : Extent s m start) : Extent t m start := by
  cases hst with
  | load hc hid hfresh hpages htlb =>
      obtain ⟨start', hfit, rfl⟩ := allocated_of_ok hc hpages
      obtain ⟨hfrom, -⟩ := moduleMapTLBLoop_spec hid htlb
      exact hext.loaded (h.id_ne m hm) (hfresh m hm)
        (fun k h₁ h₂ => hfit.free k (by omega) (by omega)) hfrom
  | @unload id table hid hset hkeep =>
      have hne : m.id ≠ id := by simpa using (List.mem_filter.1 hm').2
      have hne' : id ≠ m.id := hne.symm
      have hfree : noModule ≠ m.id := (h.id_ne m hm).symm
      refine hext.frame (fun k => ?_) (fun i => ?_) fun i hi => ?_
      · change (table k).moduleId = m.id ↔ _
        by_cases hk : (s.table k).moduleId = id
        · rw [hset k hk, hk]
          exact iff_of_false hfree hne'
        · rw [hkeep k hk]
      · change (if s.owner i = id then noModule else s.owner i) = m.id ↔ _
        split
        · next ho =>
            rw [ho]
            exact iff_of_false hfree hne'
        · rfl
      · change unmapOwned id s.owner s.tlb i = _
        rw [unmapOwned_apply, if_neg (by rw [hi]; exact hne)]

section Places

variable {s : ModuleState} {m m' : LoadedModule} {start start' : ℕ}

/-- A byte behind the address of a slot. -/
theorem byteAddr_slotAddr (start k : ℕ) : byteAddr (slotAddr start) k =
    (BitVec.ofNat 32 (0x80250000 + start * 0x2000 + k)).signExtend 64 := by
  rw [byteAddr, slotAddr, ← BitVec.ofNat_add]

theorem toNat_slotAddr (h : start ≤ 64) : (slotAddr start).toNat = 0x80250000 + start * 0x2000 := by
  rw [slotAddr, BitVec.toNat_ofNat]
  omega

/-- **The translation of an address of a module** is behind its first slot. -/
theorem ModuleInv.tlbLookup_eq (h : ModuleInv s) (hk : ∀ m ∈ s.loaded, m.InKuseg)
    (hd : s.loaded.Pairwise LoadedModule.Apart) (hm : m ∈ s.loaded) (hext : Extent s m start)
    {k : ℕ} (hlt : k < m.count * 0x2000) :
    Modules.tlbLookup s.tlb (BitVec.ofNat 64 (m.vaddr.toNat + k)) =
      byteAddr (slotAddr start) k := by
  rw [h.tlbLookup hk hd hm hext hlt, byteAddr_slotAddr]

/-- The address that `fexecLoadAddress` fills. -/
theorem ModuleInv.recompGetTlbLookup_eq (h : ModuleInv s) (hk : ∀ m ∈ s.loaded, m.InKuseg)
    (hd : s.loaded.Pairwise LoadedModule.Apart) (hm : m ∈ s.loaded) (hext : Extent s m start) :
    recompGetTlbLookup s.tlb m.vaddr = slotAddr start := by
  have hpos : 0 < m.count * 0x2000 := by
    have := hext.count_pos
    omega
  have hlt : m.vaddr.toNat < 0x80000000 := by
    have := (hk m hm).lt
    omega
  have haddr : m.vaddr.signExtend 64 = BitVec.ofNat 64 (m.vaddr.toNat + 0) := by
    refine BitVec.eq_of_toNat_eq ?_
    rw [BitVec.toNat_signExtend, BitVec.msb_eq_decide, BitVec.toNat_setWidth, BitVec.toNat_ofNat]
    simp only [decide_eq_true_eq]
    rw [if_neg (by omega)]
    omega
  rw [recompGetTlbLookup, haddr, h.tlbLookup_eq hk hd hm hext hpos, byteAddr,
    Guest.setWidth_signExtend]
  exact BitVec.add_zero _

/-- The places of two modules have nothing in common. -/
theorem Extent.byteAddr_ne (h : Extent s m start) (h' : Extent s m' start') (hne : m.id ≠ m'.id)
    {k k' : ℕ} (hk : k < m.count * 0x2000) (hk' : k' < m'.count * 0x2000) :
    byteAddr (slotAddr start) k ≠ byteAddr (slotAddr start') k' := by
  have hb := h.bound
  have hb' := h'.bound
  have hapart := h.apart h' hne
  rw [byteAddr_slotAddr, byteAddr_slotAddr, Ne, Guest.signExtend_inj, ← BitVec.toNat_inj,
    BitVec.toNat_ofNat, BitVec.toNat_ofNat]
  omega

variable {env : DecodeEnv}

/-- The place of a module is apart from the blocks. -/
theorem Extent.placeApart (h : Extent s m start) (henv : env.ApartFromModules) (rdram : Rdram) :
    PlaceApart (env.block rdram) (slotAddr start) (m.count * 0x2000) := by
  obtain ⟨hring, hplace⟩ := henv rdram
  have hb := h.bound
  refine ⟨hring, fun k hk => ?_⟩
  have hslot : byteAddr (slotAddr start) k = byteAddr (slotAddr 0) (start * 0x2000 + k) := by
    rw [byteAddr_slotAddr, byteAddr_slotAddr,
      show 0x80250000 + 0 * 0x2000 + (start * 0x2000 + k) =
        0x80250000 + start * 0x2000 + k by omega]
  rw [hslot]
  exact hplace (start * 0x2000 + k) (by omega)

/-- The functions do not use the place of a module for themselves. -/
theorem Extent.not_loaderOwn (h : Extent s m start) (henv : env.ApartFromModules) {k : ℕ}
    (hk : k < m.count * 0x2000) : ¬ LoaderOwn env (byteAddr (slotAddr start) k) := by
  have hb := h.bound
  have haddr := @toNat_slotAddr start (by omega)
  rintro (hv | ⟨rdram, hown⟩)
  · exact not_fexecVars (by omega) (by omega) hv
  · exact (h.placeApart henv rdram).place k hk hown

end Places

/-! ### The invariant -/

/-- A text in the place of its module. -/
structure InPlace (s : Loader) (f : Placed) (start : ℕ) : Prop where
  extent : Extent s.modules f.module start
  room : Room f.text f.info (slotAddr start)
  image : Image f.text f.info (slotAddr start) s.files.rdram

/-- **The invariant.** -/
structure LoaderInv (s : Loader) : Prop where
  modules : ModuleInv s.modules
  kuseg : ∀ m ∈ s.modules.loaded, m.InKuseg
  apart : s.modules.loaded.Pairwise LoadedModule.Apart
  tlb : s.files.gTLBTable = s.modules.tlb
  loaded : ∀ f ∈ s.placed, f.module ∈ s.modules.loaded
  fits : ∀ f ∈ s.placed, f.text.length ≤ f.module.count * 0x2000
  inPlace : ∀ f ∈ s.placed, ∃ start, InPlace s f start

namespace LoaderInv

variable {env : DecodeEnv} {g : Game} {s : Loader}

theorem init (h : LoaderInit s) : LoaderInv s where
  modules := ModuleReachable.moduleInv (.init h.modules)
  kuseg m hm := by
    rw [h.modules.loaded] at hm
    cases hm
  apart := by
    rw [h.modules.loaded]
    exact .nil
  tlb := h.tlb
  loaded f hf := by
    rw [h.placed] at hf
    cases hf
  fits f hf := by
    rw [h.placed] at hf
    cases hf
  inPlace f hf := by
    rw [h.placed] at hf
    cases hf

/-- **Loading and unloading** leave the texts of the modules that stay where they are. -/
theorem module (h : LoaderInv s) {a : ModuleAct} {modules : ModuleState}
    (hc : LoaderProper env g s (.module a)) (hst : ModuleStep s.modules a modules) :
    LoaderInv
      { modules := modules
        files := { s.files with gTLBTable := modules.tlb }
        placed := s.placed.filter fun f => f.module ∈ modules.loaded } := by
  have hranges : (∀ m ∈ modules.loaded, m.InKuseg) ∧
      modules.loaded.Pairwise LoadedModule.Apart := by
    cases hst with
    | load =>
        refine ⟨fun m hm => ?_, List.pairwise_cons.2 ⟨hc.2, h.apart⟩⟩
        rcases List.mem_cons.1 hm with rfl | hm
        · exact hc.1
        · exact h.kuseg m hm
    | unload =>
        exact ⟨fun m hm => h.kuseg m (List.mem_filter.1 hm).1, h.apart.filter _⟩
  refine ⟨hst.moduleInv h.modules, hranges.1, hranges.2, rfl, fun f hf => ?_, fun f hf => ?_,
    fun f hf => ?_⟩
  · simpa using (List.mem_filter.1 hf).2
  · exact h.fits f (List.mem_filter.1 hf).1
  · obtain ⟨hf, hstays⟩ := List.mem_filter.1 hf
    obtain ⟨start, hin⟩ := h.inPlace f hf
    exact ⟨start, hst.extent h.modules (h.loaded f hf) (by simpa using hstays) hin.extent,
      hin.room, hin.image⟩

/-- Two modules are told apart by their identifiers. -/
theorem id_ne (h : LoaderInv s) {m m' : LoadedModule} (hm : m ∈ s.modules.loaded)
    (hm' : m' ∈ s.modules.loaded) (hne : m ≠ m') : m.id ≠ m'.id :=
  fun he => hne (List.inj_on_of_nodup_map h.modules.nodup hm hm' he)

/-- **What filling does**: the text is in the place of the module, and nothing else has changed. -/
theorem fill_spec (h : LoaderInv s) (henv : env.ApartFromModules) {m : LoadedModule} {id : ℕ}
    {ts : List (Token (BitVec 8))} (hc : LoaderProper env g s (.fill m id ts))
    (hm : m ∈ s.modules.loaded) {start : ℕ} (hext : Extent s.modules m start) :
    let files := (fexecLoadAddress g s.files id m.vaddr).1
    (fexecLoadAddress g s.files id m.vaddr).2 = .ok (slotAddr start) ∧
      files.gTLBTable = s.files.gTLBTable ∧
      Room (textOf ts) (gRelocTable g id) (slotAddr start) ∧
      Image (textOf ts) (gRelocTable g id) (slotAddr start) files.rdram ∧
      Beside (LoaderOwn env) (textOf ts).length (slotAddr start) s.files.rdram files.rdram := by
  obtain ⟨hfits, records, r, hev, hr, hp⟩ := hc
  have hb := hext.bound
  have haddr := @toNat_slotAddr start (by omega)
  have hload : recompGetTlbLookup s.files.gTLBTable m.vaddr = slotAddr start := by
    rw [h.tlb, h.modules.recompGetTlbLookup_eq h.kuseg h.apart hm hext]
  -- an address of a module is not the one that it stands for
  have ht : ¬ TlbFails s.files.gTLBTable m.vaddr := by
    rintro ⟨hlt, he⟩
    rw [hload] at he
    rw [← he, BitVec.lt_def, haddr] at hlt
    change _ < 0x80000000 at hlt
    omega
  have hroom : Room (textOf ts) (gRelocTable g id) (slotAddr start) := by
    refine ⟨hp.listing, ?_, ?_⟩
    · unfold Rebasing.Holds
      omega
    · omega
  have hapart : ∀ rdram, PlaceApart (env.block rdram) (slotAddr start) (textOf ts).length :=
    fun rdram => ⟨(hext.placeApart henv rdram).ring,
      fun k hk => (hext.placeApart henv rdram).place k (by omega)⟩
  have hown : ∀ k < (textOf ts).length, ¬ FexecVars (byteAddr (slotAddr start) k) :=
    fun k hk hv => hext.not_loaderOwn henv (by omega) (Or.inl hv)
  obtain ⟨hok, himage, hbeside⟩ := installs_packed hev hr hp ht (hload ▸ hroom.holds)
    (hload ▸ hroom.aligned) (hload ▸ hown) (hload ▸ hapart)
  obtain ⟨-, -, htlb⟩ := rdram_of_found hev hr ht
  rw [hload] at hok himage hbeside
  exact ⟨hok, htlb, hroom, himage, hbeside⟩

/-- **Filling** keeps the invariant: the texts of the other modules are left alone. -/
theorem fill (h : LoaderInv s) (henv : env.ApartFromModules) {m : LoadedModule} {id : ℕ}
    {ts : List (Token (BitVec 8))} (hc : LoaderProper env g s (.fill m id ts))
    (hm : m ∈ s.modules.loaded) :
    LoaderInv
      { s with
        files := (fexecLoadAddress g s.files id m.vaddr).1
        placed := ⟨m, textOf ts, gRelocTable g id⟩ :: s.placed.filter fun f => f.module ≠ m } := by
  obtain ⟨start, hext⟩ := h.modules.extent m hm
  obtain ⟨-, htlb, hroom, himage, hbeside⟩ := h.fill_spec henv hc hm hext
  have hfits := hc.1
  refine ⟨h.modules, h.kuseg, h.apart, htlb.trans h.tlb, fun f hf => ?_, fun f hf => ?_,
    fun f hf => ?_⟩
  · rcases List.mem_cons.1 hf with rfl | hf
    · exact hm
    · exact h.loaded f (List.mem_filter.1 hf).1
  · rcases List.mem_cons.1 hf with rfl | hf
    · exact hfits
    · exact h.fits f (List.mem_filter.1 hf).1
  · rcases List.mem_cons.1 hf with rfl | hf
    · exact ⟨start, hext, hroom, himage⟩
    · obtain ⟨hf, hne⟩ := List.mem_filter.1 hf
      obtain ⟨start', hin⟩ := h.inPlace f hf
      have hlen := h.fits f hf
      have hid := h.id_ne (h.loaded f hf) hm (by simpa using hne)
      refine ⟨start', hin.extent, hin.room, hin.image.congr hin.room fun k hk => hbeside _ ?_ ?_⟩
      · exact hin.extent.not_loaderOwn henv (by omega)
      · intro k' hk'
        exact hin.extent.byteAddr_ne hext hid (by omega) (by omega)

/-- **Other code** leaves the texts alone. -/
theorem other (h : LoaderInv s) {files : FexecState} (htlb : files.gTLBTable = s.modules.tlb)
    (hkeep : ∀ f ∈ s.placed, ∀ k < f.text.length,
      let a := tlbLookup s.modules.tlb (BitVec.ofNat 64 (f.module.vaddr.toNat + k))
      guest files.rdram a = guest s.files.rdram a) : LoaderInv { s with files := files } := by
  refine ⟨h.modules, h.kuseg, h.apart, htlb, h.loaded, h.fits, fun f hf => ?_⟩
  obtain ⟨start, hin⟩ := h.inPlace f hf
  have hlen := h.fits f hf
  refine ⟨start, hin.extent, hin.room, hin.image.congr hin.room fun k hk => ?_⟩
  have hbyte := hkeep f hf k hk
  dsimp only at hbyte
  rwa [h.modules.tlbLookup_eq h.kuseg h.apart (h.loaded f hf) hin.extent (by omega)] at hbyte

end LoaderInv

end Modules
