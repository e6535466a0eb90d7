/-
**A packed module, from its file to its place.**

A file with a module has its size, another number, and the stream of its bytes.  `fexecLoadAddress`
finds the file, unpacks the stream to the place that the address of the module stands for, and
rebases what is there.  With the `decode` of the source for the one of the game, what comes of it is
known byte by byte, as long as the place is apart from the memory that the functions use themselves.

Main definitions:

* `Modules.packed` — the file of a module;
* `Modules.Image` — **a text in memory**, with a distance added to the listed words;
* `Modules.LoaderOwn` — the memory that the functions use themselves.

Main results:

* `Modules.image_of_added` — unpacking and rebasing, one behind the other;
* `Modules.added_of_entry` — what the relocations of a module do, with or without an entry;
* `Modules.rdram_of_found` — what `fexecLoadAddress` does to the memory;
* `Modules.installs_packed` — **a packed module is loaded**.
-/

import Mathlib.Data.List.GetD
import TsaRecomp.Guest.Accesses
import TsaRecomp.Modules.Decode
import TsaRecomp.Modules.Rebasing

set_option relaxedAutoImplicit false
set_option autoImplicit false

namespace Modules

open BigEndian (load misalignment ofBytes)
open Data (Rdram memW)
open Guest (Gpr InBytes byteAddr guest)
open LempelZiv
open Rebasing (Added Holds InWords Listing gRelocTable valueAddr)

/-! ### The file -/

/-- The bytes of a number, the highest one first. -/
def wordBytes (v : BitVec 32) : List (BitVec 8) :=
  [v.extractLsb' 24 8, v.extractLsb' 16 8, v.extractLsb' 8 8, v.extractLsb' 0 8]

/-- **The file of a module**: its size, what the size query adds to it, and its stream. -/
def packed (more : BitVec 32) (ts : List (Token (BitVec 8))) : List (BitVec 8) :=
  wordBytes (BitVec.ofNat 32 (textOf ts).length) ++ (wordBytes more ++ encode ts)

theorem wordAt_packed (more : BitVec 32) (ts : List (Token (BitVec 8))) (rest : List (BitVec 8)) :
    wordAt (packed more ts ++ rest) 0 = BitVec.ofNat 32 (textOf ts).length :=
  Data.append_extractLsb' _

theorem drop_packed (more : BitVec 32) (ts : List (Token (BitVec 8))) (rest : List (BitVec 8)) :
    (packed more ts ++ rest).drop 8 = encode ts ++ rest := rfl

/-! ### What is in memory -/

/-- A text with listed words has room at an address. -/
structure Room (text : List (BitVec 8)) (info : Rebasing.RelocInfo) (loadAddr : BitVec 32) :
    Prop where
  listing : Listing info text.length
  holds : Holds text.length loadAddr
  aligned : 4 ∣ loadAddr.toNat

/-- **A text in memory**, each of the listed words with the distance from the address that it was
linked at. -/
structure Image (text : List (BitVec 8)) (info : Rebasing.RelocInfo) (loadAddr : BitVec 32)
    (rdram : Rdram) : Prop where
  word : ∀ o ∈ info.listed, rdram.readW 0 (valueAddr loadAddr o) =
    ofBytes (fun k => text.getD (o.toNat + k) 0) 4 + (loadAddr - info.originalVaddr)
  byte : ∀ k < text.length, (∀ o ∈ info.listed, ¬ (o.toNat ≤ k ∧ k < o.toNat + 4)) →
    guest rdram (byteAddr loadAddr k) = text.getD k 0

/-- Nothing has changed but the memory that is used, and `n` bytes at an address. -/
def Beside (own : Gpr → Prop) (n : ℕ) (loadAddr : BitVec 32) (rdram rdram' : Rdram) : Prop :=
  ∀ a, ¬ own a → (∀ k < n, a ≠ byteAddr loadAddr k) → guest rdram' a = guest rdram a

section Places

variable {loadAddr o : BitVec 32} {n : ℕ}

/-- The words of a module are aligned. -/
theorem misalignment_valueAddr (ha : 4 ∣ loadAddr.toNat) (ho : 4 ∣ o.toNat) :
    misalignment 4 (valueAddr loadAddr o) = 0 := by
  rw [misalignment, Rebasing.toNat_valueAddr]
  split_ifs <;> omega

/-- The bytes of a word, and its address. -/
theorem valueAddr_add (hn : Holds n loadAddr) (ho : o.toNat + 4 ≤ n) {k : ℕ} (hk : k < 4) :
    byteAddr loadAddr (o.toNat + k) = valueAddr loadAddr o + BitVec.ofNat 64 k := by
  unfold Holds at hn
  change valueAddr loadAddr (BitVec.ofNat 32 (o.toNat + k)) = _
  refine BitVec.eq_of_toNat_eq ?_
  rw [Rebasing.toNat_valueAddr, BitVec.toNat_add, Rebasing.toNat_valueAddr, BitVec.toNat_ofNat,
    BitVec.toNat_ofNat]
  split_ifs <;> omega

/-- The words that a byte belongs to. -/
theorem inWords_iff (ha : 4 ∣ loadAddr.toNat) {offsets : List (BitVec 32)}
    (ho : ∀ o ∈ offsets, 4 ∣ o.toNat) (a : BitVec 64) :
    InWords loadAddr offsets ((a ^^^ 3) - Data.kRdramBase) ↔
      ∃ o ∈ offsets, (a - valueAddr loadAddr o).toNat < 4 := by
  have hword : ∀ o ∈ offsets, ((a ^^^ 3) - Data.kRdramBase - memW 0 (valueAddr loadAddr o) < 4 ↔
      (a - valueAddr loadAddr o).toNat < 4) := by
    intro o hmem
    rw [← Guest.xor_three_sub (misalignment_valueAddr ha (ho o hmem)), BitVec.lt_def]
    have hsub : (a ^^^ 3) - Data.kRdramBase - memW 0 (valueAddr loadAddr o) =
        (a ^^^ 3) - valueAddr loadAddr o := by
      unfold memW
      ring
    rw [hsub]
    rfl
  constructor
  · rintro ⟨o, hmem, hlt⟩
    exact ⟨o, hmem, (hword o hmem).1 hlt⟩
  · rintro ⟨o, hmem, hlt⟩
    exact ⟨o, hmem, (hword o hmem).2 hlt⟩

end Places

section Image

variable {text : List (BitVec 8)} {info : Rebasing.RelocInfo} {loadAddr : BitVec 32}
  {rdram image rdram' : Rdram}

/-- A listed word, byte by byte. -/
theorem Room.readW (h : Room text info loadAddr) {o : BitVec 32} (hmem : o ∈ info.listed) :
    rdram.readW 0 (valueAddr loadAddr o) =
      ofBytes (fun k => guest rdram (byteAddr loadAddr (o.toNat + k))) 4 := by
  have hzero : valueAddr loadAddr o + 0 = valueAddr loadAddr o := BitVec.add_zero _
  have haligned : misalignment 4 (valueAddr loadAddr o + 0) = 0 := by
    rw [hzero]
    exact misalignment_valueAddr h.aligned (h.listing.aligned o hmem)
  rw [Guest.readW_eq haligned, hzero]
  refine BigEndian.ofBytes_congr fun k hk => ?_
  rw [valueAddr_add h.holds (h.listing.inside o hmem) hk]

/-- An image depends on its bytes only. -/
theorem Image.congr (h : Image text info loadAddr rdram) (hr : Room text info loadAddr)
    (hsame : ∀ k < text.length,
      guest rdram' (byteAddr loadAddr k) = guest rdram (byteAddr loadAddr k)) :
    Image text info loadAddr rdram' where
  word o hmem := by
    have hle := hr.listing.inside o hmem
    rw [← h.word o hmem, hr.readW hmem, hr.readW hmem]
    exact BigEndian.ofBytes_congr fun k hk => hsame _ (by omega)
  byte k hk hout := (hsame k hk).trans (h.byte k hk hout)

/-- **Unpacking and rebasing**, one behind the other. -/
theorem image_of_added {own : Gpr → Prop} (hunpacks : Unpacks own rdram image loadAddr text)
    (hadded : Added loadAddr (loadAddr - info.originalVaddr) info.listed image rdram')
    (hr : Room text info loadAddr) :
    Image text info loadAddr rdram' ∧ Beside own text.length loadAddr rdram rdram' := by
  have himage : ∀ k < text.length,
      guest image (byteAddr loadAddr k) = text.getD k 0 := by
    intro k hk
    rw [List.getD_eq_getElem _ _ hk]
    exact hunpacks.bytes k hk
  -- a byte that belongs to none of the words
  have hother : ∀ a, (∀ o ∈ info.listed, ¬ (a - valueAddr loadAddr o).toNat < 4) →
      guest rdram' a = guest image a := by
    intro a hout
    rw [Guest.guest_apply, Guest.guest_apply]
    refine hadded.other _ fun h => ?_
    obtain ⟨o, hmem, hlt⟩ := (inWords_iff hr.aligned hr.listing.aligned a).1 h
    exact hout o hmem hlt
  refine ⟨⟨fun o hmem => ?_, fun k hk hout => ?_⟩, fun a ha hout => ?_⟩
  · have hle := hr.listing.inside o hmem
    rw [hadded.word o hmem, hr.readW hmem]
    congr 1
    exact BigEndian.ofBytes_congr fun k hk => himage _ (by omega)
  · rw [hother _ fun o hmem hlt => hout o hmem ?_, himage k hk]
    have hle := hr.listing.inside o hmem
    have hn := hr.holds
    unfold Holds at hn
    change (valueAddr loadAddr (BitVec.ofNat 32 k) - valueAddr loadAddr o).toNat < 4 at hlt
    rw [BitVec.toNat_sub, Rebasing.toNat_valueAddr, Rebasing.toNat_valueAddr,
      BitVec.toNat_ofNat] at hlt
    split_ifs at hlt <;> omega
  · rw [hother a fun o hmem hlt => ?_, hunpacks.frame a ha hout]
    have hle := hr.listing.inside o hmem
    refine hout (o.toNat + (a - valueAddr loadAddr o).toNat) (by omega) ?_
    rw [valueAddr_add hr.holds hle hlt, BitVec.ofNat_toNat, BitVec.setWidth_eq]
    ring

end Image

/-! ### The memory that is used -/

/-- The bytes of the variables of `fexecLoadAddress`. -/
def FexecVars (x : Gpr) : Prop :=
  InBytes d800A0134Addr 4 x ∨ ∃ k < 0x202, x = byteAddr d800F0250Addr k

/-- **The memory that the functions use themselves**: the variables, and the blocks of `malloc`. -/
def LoaderOwn (env : DecodeEnv) (x : Gpr) : Prop :=
  FexecVars x ∨ ∃ rdram, DecodeOwn (env.block rdram) x

/-- `D_800A0134` is not in the evinfo. -/
theorem byteAddr_d800F0250_ne {x : Gpr} (hx : InBytes d800A0134Addr 4 x) {k : ℕ} (hk : k < 0x202) :
    x ≠ byteAddr d800F0250Addr k := by
  rintro rfl
  have h₀ : d800A0134Addr.toNat = 0xFFFFFFFF800A0134 := rfl
  have h₁ : d800F0250Addr.toNat = 0x800F0250 := rfl
  unfold InBytes at hx
  rw [BitVec.toNat_sub, Guest.toNat_byteAddr (by omega) (by omega), h₀, h₁] at hx
  omega

/-- The variables lie below the modules. -/
theorem not_fexecVars {addr : BitVec 32} {k : ℕ} (h : 0x800F0452 ≤ addr.toNat)
    (h' : addr.toNat + k < 2 ^ 32) : ¬ FexecVars (byteAddr addr k) := by
  have h₀ : d800A0134Addr.toNat = 0xFFFFFFFF800A0134 := rfl
  have h₁ : d800F0250Addr.toNat = 0x800F0250 := rfl
  rintro (hx | ⟨j, hj, he⟩)
  · unfold InBytes at hx
    rw [BitVec.toNat_sub, Guest.toNat_byteAddr (by omega) h', h₀] at hx
    omega
  · have hnat := congrArg BitVec.toNat he
    rw [Guest.toNat_byteAddr (by omega) h', Guest.toNat_byteAddr (by omega) (by omega), h₁] at hnat
    omega

/-! ### Loading -/

section Loading

variable {env : DecodeEnv} {g : Game} {s : FexecState} {id : ℕ} {func : BitVec 32}
  {records : List EvRecord} {r : EvRecord} {x : Gpr}

theorem FexecState.guest_changeBlock (s : FexecState) (block : BitVec 32) (hx : ¬ FexecVars x) :
    guest (s.changeBlock block).rdram x = guest s.rdram x := by
  unfold changeBlock
  split_ifs
  · exact Guest.guest_writeW_of_notMem rfl block fun hv => hx (Or.inl hv)
  · rfl

@[simp] theorem FexecState.gTLBTable_changeBlock (s : FexecState) (block : BitVec 32) :
    (s.changeBlock block).gTLBTable = s.gTLBTable := by
  unfold changeBlock
  split_ifs
  · rfl
  · rfl

@[simp] theorem FexecState.rdram_log (s : FexecState) (call : GameCall) :
    (s.log call).rdram = s.rdram := rfl

/-- The search changes the variables only. -/
theorem EvinfoOf.guest_searching (h : EvinfoOf g s id records) (hx : ¬ FexecVars x) :
    guest (s.searching g id).rdram x = guest s.rdram x := by
  have hread : guest (s.searching g id).rdram x =
      guest ((s.changeBlock (s.blockOf id)).log (.fopenGame 0)).rdram x :=
    Guest.guest_storeBytes_of_ne fun k hk he => hx (Or.inr ⟨k, hk.trans h.size, he⟩)
  rw [hread, FexecState.rdram_log, s.guest_changeBlock _ hx]

/-- The block stays open behind the search. -/
theorem EvinfoOf.d800A0134_searching (h : EvinfoOf g s id records) :
    (s.searching g id).d800A0134 = s.blockOf id := by
  have hopen : ((s.changeBlock (s.blockOf id)).log (.fopenGame 0)).d800A0134 = s.blockOf id := by
    rw [FexecState.d800A0134_log, FexecState.d800A0134_changeBlock]
  rw [← hopen]
  exact Guest.readW_congr rfl fun x hx => Guest.guest_storeBytes_of_ne fun k hk =>
    byteAddr_d800F0250_ne hx (hk.trans h.size)

/-- **What `fexecLoadAddress` does to the memory**, when a record is found: it unpacks and rebases,
and beside that it changes the variables.  The translation buffer stays as it is. -/
theorem rdram_of_found (h : EvinfoOf g s id records) (hr : firstRecord records id = some r)
    (ht : ¬ TlbFails s.gTLBTable func) :
    let bytes := (g.file (s.blockOf id) r.file.toNat).2
    let loadAddr := recompGetTlbLookup s.gTLBTable func
    (fexecLoadAddress g s id func).2 = .ok loadAddr ∧
      (∀ x, ¬ FexecVars x → guest (fexecLoadAddress g s id func).1.rdram x =
        guest (overlayApplyRelocations g (id % 256) loadAddr
          (g.decode (bytes.drop 8) loadAddr (wordAt bytes 0) (s.searching g id).rdram)) x) ∧
      (fexecLoadAddress g s id func).1.gTLBTable = s.gTLBTable := by
  have hspec := searchEvinfo_spec h
  rw [hr] at hspec
  obtain ⟨i, hsearch⟩ := hspec
  have htlb : ((s.searching g id).log (.fopenGame r.file.toNat)).gTLBTable = s.gTLBTable := by
    rw [FexecState.gTLBTable_log, FexecState.gTLBTable_searching]
  have hblock : ((s.searching g id).log (.fopenGame r.file.toNat)).d800A0134 = s.blockOf id := by
    rw [FexecState.d800A0134_log, h.d800A0134_searching]
  have hoverlays : ∀ (vram? : Option (BitVec 32)) (loadAddr size : BitVec 32),
      let u := vram?.elim ((s.searching g id).log (.fopenGame r.file.toNat)) fun vram =>
        ((s.searching g id).log (.fopenGame r.file.toNat)).log
          (.recompLoadOverlays vram loadAddr size)
      u.rdram = (s.searching g id).rdram ∧ u.gTLBTable = s.gTLBTable := by
    intro vram? loadAddr size
    cases vram? with
    | none => simp
    | some vram => simp
  unfold fexecLoadAddress
  rw [hsearch]
  dsimp only
  rw [htlb, hblock, if_neg ht]
  dsimp only
  refine ⟨rfl, fun x hx => ?_, ?_⟩
  · rw [FexecState.rdram_log, FexecState.guest_changeBlock _ _ hx, FexecState.rdram_log,
      (hoverlays _ _ _).1]
  · rw [FexecState.gTLBTable_log, FexecState.gTLBTable_changeBlock, FexecState.gTLBTable_log]
    exact (hoverlays _ _ _).2

/-- **The relocations of a module**, whether the table has an entry for it or not. -/
theorem added_of_entry {n : ℕ} (hl : Listing (gRelocTable g id) n) (hc : id ≠ 0x0F ∧ id ≠ 0x20)
    (loadAddr : BitVec 32) (rdram : Rdram) :
    Added loadAddr (loadAddr - (gRelocTable g id).originalVaddr) (gRelocTable g id).listed rdram
      (overlayApplyRelocations g id loadAddr rdram) := by
  rcases Nat.lt_or_ge id relocTableSize with hlt | hge
  · obtain ⟨rdram', happly, hadded⟩ := Rebasing.added_of_counted hlt hl
      ((Rebasing.counted_gRelocs g id).2 hc) loadAddr rdram
    rwa [Rebasing.overlayApplyRelocations_of_some g happly]
  · have hin : ∀ e ∈ gRelocsEntries, e.1 < relocTableSize := by decide
    have hnone : (gRelocTable g id).listed = [] := by
      rcases Rebasing.gRelocs_cases id with hmem | ⟨hzero, -⟩
      · exact absurd (hin _ hmem) (not_lt.2 hge)
      · rw [gRelocTable, hzero]
        rfl
    rw [hnone, overlayApplyRelocations, if_pos hge]
    exact ⟨fun o ho => (List.not_mem_nil ho).elim, fun _ _ => rfl⟩

/-- **A packed module**: the file of a record, with a stream that is unpacked by the `decode` of the
source, and words to rebase inside the text.  The entry of the table is the one of the id, and its
count is the length of its list. -/
structure PackedModule (env : DecodeEnv) (g : Game) (s : FexecState) (id : ℕ) (r : EvRecord)
    (ts : List (Token (BitVec 8))) : Prop where
  decode : g.decode = decode env
  file : ∃ more rest, (g.file (s.blockOf id) r.file.toNat).2 = packed more ts ++ rest
  fits : ∀ t ∈ ts, Decode.Fits t
  size : (textOf ts).length < 2 ^ 31
  entry : id < 256 ∨ relocEntry (id % 256) = none
  counted : id ≠ 0x0F ∧ id ≠ 0x20
  listing : Listing (gRelocTable g id) (textOf ts).length

/-- **A packed module is loaded**: its text is at the place that its address stands for, and the
rest of memory is as it was, but for what the functions use themselves. -/
theorem installs_packed {ts : List (Token (BitVec 8))} (h : EvinfoOf g s id records)
    (hr : firstRecord records id = some r) (hp : PackedModule env g s id r ts)
    (ht : ¬ TlbFails s.gTLBTable func)
    (hn : Holds (textOf ts).length (recompGetTlbLookup s.gTLBTable func))
    (ha : 4 ∣ (recompGetTlbLookup s.gTLBTable func).toNat)
    (hown : ∀ k < (textOf ts).length,
      ¬ FexecVars (byteAddr (recompGetTlbLookup s.gTLBTable func) k))
    (hapart : ∀ rdram,
      PlaceApart (env.block rdram) (recompGetTlbLookup s.gTLBTable func) (textOf ts).length) :
    let loadAddr := recompGetTlbLookup s.gTLBTable func
    (fexecLoadAddress g s id func).2 = .ok loadAddr ∧
      Image (textOf ts) (gRelocTable g id) loadAddr (fexecLoadAddress g s id func).1.rdram ∧
      Beside (LoaderOwn env) (textOf ts).length loadAddr s.rdram
        (fexecLoadAddress g s id func).1.rdram := by
  obtain ⟨more, rest, hfile⟩ := hp.file
  obtain ⟨hok, hrdram, -⟩ := rdram_of_found h hr ht
  generalize recompGetTlbLookup s.gTLBTable func = loadAddr at hn ha hown hapart hok hrdram ⊢
  refine ⟨hok, ?_⟩
  have hlt : (textOf ts).length < 2 ^ 31 := hp.size
  have hsize : (BitVec.ofNat 32 (textOf ts).length).toInt = (textOf ts).length := by
    rw [BitVec.toInt_eq_toNat_of_lt, BitVec.toNat_ofNat, Nat.mod_eq_of_lt (by omega)]
    rw [BitVec.toNat_ofNat, Nat.mod_eq_of_lt (by omega)]
    omega
  have hunpacks := decode_encode hp.fits rest hsize.le
    (by rw [hsize, Int.toNat_natCast]; exact hapart (s.searching g id).rdram)
  rw [hsize, Int.toNat_natCast, List.take_length] at hunpacks
  rw [hfile, wordAt_packed, drop_packed, hp.decode,
    overlayApplyRelocations_congr g ((relocEntry_mod_iff id).2 hp.entry)] at hrdram
  have hadded := added_of_entry hp.listing hp.counted loadAddr (Modules.decode env
    (encode ts ++ rest) loadAddr (BitVec.ofNat 32 (textOf ts).length) (s.searching g id).rdram)
  have hroom : Room (textOf ts) (gRelocTable g id) loadAddr := ⟨hp.listing, hn, ha⟩
  obtain ⟨himage, hbeside⟩ := image_of_added hunpacks hadded hroom
  refine ⟨himage.congr hroom fun k hk => hrdram _ (hown k hk), fun x hx hout => ?_⟩
  have hvars : ¬ FexecVars x := fun hv => hx (Or.inl hv)
  rw [hrdram x hvars, hbeside x (fun hv => hx (Or.inr ⟨_, hv⟩)) hout, h.guest_searching hvars]

end Loading

end Modules
