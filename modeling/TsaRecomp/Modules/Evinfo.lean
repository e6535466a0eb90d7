/-
**The files of the modules.**

A module is found in two tables.  `D_800EF250` has the block of each module id, and the first file
of a block, the evinfo, has the file number of each id in the block: a count, and then records of
three bytes, the id and the number.  The program reads the evinfo as an array of rows of three
bytes, so that the id of a record is in the last two bytes of a row and its number in the first byte
of the next.  `fexecLoadAddress` and `fexecGetFileSize` search it with the same loop.

Behind the search, `fexecLoadAddress` also needs the id for the relocations.  It takes it from the
row that it has found, and there only the low byte of it.

The tables and `D_800A0134`, the number of the block that is open, are in the memory of the game, at
the addresses that their names give.

Main definitions:

* `Modules.fexecLoadAddress`, `Modules.fexecGetFileSize`, `Modules.overlayApplyRelocations` — the
  functions;
* `Modules.EvRecord`, `Modules.encodeEvinfo` — the contents of an evinfo;
* `Modules.LookupOk` — **lookup, size query and relocation agree**.

Main results:

* `Modules.searchLoop_spec` — the loop finds the first record of the id;
* `Modules.overlayApplyRelocations_congr` — the relocations depend on the entry of the table only;
* `Modules.lookup_ok_iff` — the functions agree where there is no record, and else, if the address
  is mapped, for the ids below 256 and for those whose low byte has no relocations.
-/

import TsaRecomp.Guest.Blocks
import TsaRecomp.Modules.Tlb

set_option relaxedAutoImplicit false
set_option autoImplicit false

namespace Modules

open Data (Rdram)
open Guest (byteAddr storeBytes)

/-! ### The relocations -/

/-- The sections with a list of offsets in `relocs.h`. -/
inductive Overlay
  | actorMain | itemMain | collMain | mobjMain | blastFlame | blastIce | blastWind | blastGround
  | blastElec | blastLight | blastDark | enemyWorld1 | enemyWorld2 | enemyWorld3 | enemyWorld4
  | enemyWorld5 | enemyWorld6 | enemyWorld7 | enemyWorld8 | enemyBattle | bossDemon | bossDevil
  | bossAngel | menuCard | menuTitle | menuFile | menuBattle | menuCustom | menuStage | demoStory
  | demoGuide | stageWorld1 | stageWorld2 | stageWorld3 | stageWorld4 | stageWorld5 | stageWorld6
  | stageWorld7 | stageWorld8
  deriving DecidableEq, Repr

/-- `RelocInfo` -/
structure RelocInfo where
  offsets : Option Overlay
  count : ℕ
  originalVaddr : BitVec 32
  deriving DecidableEq, Repr

/-- `RELOC_TABLE_SIZE` -/
def relocTableSize : ℕ := 142

/-- The entries of `g_relocs` that are not zero. -/
def gRelocsEntries : List (ℕ × RelocInfo) :=
  [(0x0A, ⟨some .actorMain, 2179, 0x40000000⟩), (0x0B, ⟨some .itemMain, 123, 0x41000000⟩),
   (0x0E, ⟨some .collMain, 50, 0x44000000⟩), (0x0F, ⟨some .mobjMain, 1595, 0x45000000⟩),
   (0x40, ⟨some .blastFlame, 41, 0x42000000⟩), (0x41, ⟨some .blastIce, 41, 0x42000000⟩),
   (0x42, ⟨some .blastWind, 41, 0x42000000⟩), (0x43, ⟨some .blastGround, 46, 0x42000000⟩),
   (0x44, ⟨some .blastElec, 52, 0x42000000⟩), (0x45, ⟨some .blastLight, 41, 0x42000000⟩),
   (0x46, ⟨some .blastDark, 41, 0x42000000⟩), (0x50, ⟨some .enemyWorld1, 455, 0x43000000⟩),
   (0x51, ⟨some .enemyWorld2, 446, 0x43000000⟩), (0x52, ⟨some .enemyWorld3, 455, 0x43000000⟩),
   (0x53, ⟨some .enemyWorld4, 382, 0x43000000⟩), (0x54, ⟨some .enemyWorld5, 360, 0x43000000⟩),
   (0x55, ⟨some .enemyWorld6, 431, 0x43000000⟩), (0x56, ⟨some .enemyWorld7, 411, 0x43000000⟩),
   (0x57, ⟨some .enemyWorld8, 480, 0x43000000⟩), (0x58, ⟨some .enemyBattle, 392, 0x43000000⟩),
   (0x60, ⟨some .bossDemon, 18, 0x43000000⟩), (0x61, ⟨some .bossDevil, 28, 0x43000000⟩),
   (0x62, ⟨some .bossAngel, 23, 0x43000000⟩), (0x19, ⟨some .menuCard, 17, 0x60000000⟩),
   (0x1A, ⟨some .menuTitle, 35, 0x60000000⟩), (0x1B, ⟨some .menuFile, 22, 0x60000000⟩),
   (0x1C, ⟨some .menuBattle, 56, 0x60000000⟩), (0x1F, ⟨some .menuCustom, 32, 0x60000000⟩),
   (0x1D, ⟨some .menuStage, 88, 0x60000000⟩), (0x20, ⟨some .demoStory, 59, 0x60000000⟩),
   (0x2B, ⟨some .demoGuide, 5, 0x60000000⟩), (0x22, ⟨some .stageWorld1, 28, 0x60000000⟩),
   (0x23, ⟨some .stageWorld2, 45, 0x60000000⟩), (0x24, ⟨some .stageWorld3, 54, 0x60000000⟩),
   (0x25, ⟨some .stageWorld4, 71, 0x60000000⟩), (0x26, ⟨some .stageWorld5, 37, 0x60000000⟩),
   (0x27, ⟨some .stageWorld6, 69, 0x60000000⟩), (0x28, ⟨some .stageWorld7, 31, 0x60000000⟩),
   (0x29, ⟨some .stageWorld8, 108, 0x60000000⟩)]

/-- `g_relocs[fileId]` -/
def gRelocs (fileId : ℕ) : RelocInfo := (gRelocsEntries.lookup fileId).getD ⟨none, 0, 0⟩

/-- What is not modelled: the files of the game, by the address of their block and their number, its
`decode`, and the lists of offsets. -/
structure Game where
  /-- `unk4` of the stream, and its bytes. -/
  file : BitVec 32 → ℕ → BitVec 32 × List (BitVec 8)
  decode : List (BitVec 8) → BitVec 32 → BitVec 32 → Rdram → Rdram
  offset : Overlay → ℕ → BitVec 32

/-- The loop of `overlay_apply_relocations`, with the rounds that are left. -/
def relocLoop (g : Game) (overlay : Overlay) (loadAddr delta : BitVec 32) : ℕ → ℕ → Rdram → Rdram
  | 0, _, rdram => rdram
  | n + 1, i, rdram =>
      let valueAddr := (loadAddr + g.offset overlay i).signExtend 64
      let value := rdram.readW 0 valueAddr
      relocLoop g overlay loadAddr delta n (i + 1) (rdram.writeW 0 valueAddr (value + delta))

/-- `overlay_apply_relocations` -/
def overlayApplyRelocations (g : Game) (fileId : ℕ) (loadAddr : BitVec 32) (rdram : Rdram) :
    Rdram :=
  if relocTableSize ≤ fileId then rdram
  else
    let info := gRelocs fileId
    match info.offsets with
    | none => rdram
    | some overlay =>
        if info.count = 0 then rdram
        else
          let delta := loadAddr - info.originalVaddr
          if delta = 0 then rdram
          else relocLoop g overlay loadAddr delta info.count 0 rdram

/-- The relocations of a module: the entry of the table, if there is one and it is not empty. -/
def relocEntry (fileId : ℕ) : Option RelocInfo :=
  let info := gRelocs fileId
  if relocTableSize ≤ fileId ∨ info.offsets = none ∨ info.count = 0 then none else some info

/-- What is done depends on the entry only. -/
theorem overlayApplyRelocations_congr (g : Game) {fileId fileId' : ℕ}
    (h : relocEntry fileId = relocEntry fileId') (loadAddr : BitVec 32) (rdram : Rdram) :
    overlayApplyRelocations g fileId loadAddr rdram =
      overlayApplyRelocations g fileId' loadAddr rdram := by
  have key : ∀ n, overlayApplyRelocations g n loadAddr rdram =
      (relocEntry n).elim rdram fun info => info.offsets.elim rdram fun overlay =>
        if loadAddr - info.originalVaddr = 0 then rdram
        else relocLoop g overlay loadAddr (loadAddr - info.originalVaddr) info.count 0 rdram := by
    intro n
    unfold overlayApplyRelocations relocEntry
    dsimp only
    by_cases hsize : relocTableSize ≤ n
    · simp [hsize]
    · cases ho : (gRelocs n).offsets with
      | none => simp [hsize]
      | some overlay =>
          by_cases hc : (gRelocs n).count = 0
          · simp [hc]
          · simp [hsize, hc, ho]
  rw [key, key, h]

/-! ### The functions -/

/-- The overlays that `fexecLoadAddress` tells the host of: `unk4` of the stream, and the address
that the overlay was linked at. -/
def overlayRoms : List (BitVec 32 × BitVec 32) :=
  [(0x10800C, 0x1000010), (0x12800C, 0x10201E0), (0x13800C, 0x10273D0), (0x14800C, 0x102E100),
   (0x16801E, 0x1040E10), (0x169E50, 0x1044470), (0x16C2FA, 0x1048430), (0x16EB1E, 0x104C8E0),
   (0x17150C, 0x1050FF0), (0x173D0A, 0x1055450), (0x176344, 0x1059700), (0x188024, 0x105DE50),
   (0x18E7F8, 0x10685D0), (0x195020, 0x1072EF0), (0x19B6DA, 0x107D500), (0x1A1946, 0x1087490),
   (0x1A7EBC, 0x1091710), (0x1AE4CC, 0x109BBF0), (0x1B49AE, 0x10A5E80), (0x1BB4E2, 0x10B0AF0),
   (0x1E8012, 0x10BA3A0), (0x1EEFFC, 0x10C4B90), (0x1F6EAA, 0x10D0330), (0x22801C, 0x10DC340),
   (0x229D0E, 0x10DFA80), (0x22C92E, 0x10E4440), (0x22E668, 0x10E77A0), (0x236118, 0x10F37E0),
   (0x239668, 0x10F8F10), (0x248010, 0x10FF850), (0x24C094, 0x1107250), (0x258022, 0x1108F70),
   (0x25A13E, 0x110D180), (0x25D006, 0x1112E30), (0x2608A6, 0x11198D0), (0x263C62, 0x1120E00),
   (0x265A32, 0x1124A30), (0x269008, 0x112B010), (0x26BF18, 0x1130B60)]

/-- What is called with an effect outside of the model. -/
inductive GameCall
  | finitGame (block : BitVec 32)
  | fopenGame (number : ℕ)
  | recompLoadOverlays (vram loadAddr size : BitVec 32)
  | overlayApplyRelocations (fileId : ℕ) (loadAddr : BitVec 32)
  | run (loadAddr : BitVec 32)
  deriving DecidableEq, Repr

/-- The messages of `errstop`. -/
inductive ErrStop
  /-- `too long file size : evinfo : block %d` -/
  | tooLongFileSize (block : BitVec 8)
  /-- `Can not find evfile number : %d` -/
  | canNotFindEvfile (id : ℕ)
  /-- `fexecLoadAddress : TLB lookup failed for overlay address 0x%08x` -/
  | tlbLookupFailed (func : BitVec 32)
  deriving DecidableEq, Repr

/-- `&D_800A0134` -/
def d800A0134Addr : BitVec 64 := 0xFFFFFFFF800A0134

/-- `&D_800EF250` -/
def d800EF250Addr : BitVec 32 := 0x800EF250

/-- `&D_800F0250` -/
def d800F0250Addr : BitVec 32 := 0x800F0250

/-- The memory, and the calls so far. -/
structure FexecState where
  gTLBTable : TLBTable
  rdram : Rdram
  calls : List GameCall

namespace FexecState

variable (s : FexecState)

/-- `D_800A0134` -/
def d800A0134 : BitVec 32 := s.rdram.readW 0 d800A0134Addr

/-- `D_800EF250[id][j]` -/
def d800EF250 (id j : ℕ) : BitVec 8 := s.rdram.readB 0 (byteAddr d800EF250Addr (2 * id + j))

/-- `D_800F0250[i][j]` -/
def row (i j : ℕ) : BitVec 8 := s.rdram.readB 0 (byteAddr d800F0250Addr (3 * i + j))

def log (call : GameCall) : FexecState := { s with calls := s.calls ++ [call] }

/-- The block of the files, and `finit_game` when it changes. -/
def changeBlock (block : BitVec 32) : FexecState :=
  if block ≠ s.d800A0134 then
    { s with rdram := s.rdram.writeW 0 d800A0134Addr block }.log (.finitGame block)
  else s

/-- `fread_game((void*)&D_800F0250, 1, i, stream)` -/
def readEvinfo (bytes : List (BitVec 8)) : FexecState :=
  { s with rdram := storeBytes d800F0250Addr bytes s.rdram }

/-- `(D_800EF250[id][0] << 0x11) + (D_800EF250[id][1] << 0xB)` -/
def blockOf (id : ℕ) : BitVec 32 :=
  ((s.d800EF250 id 0).setWidth 32 <<< 0x11) + ((s.d800EF250 id 1).setWidth 32 <<< 0xB)

end FexecState

/-- `fread_game((u8*)&i, 4, 1, stream)`, at a position. -/
def wordAt (bytes : List (BitVec 8)) (pos : ℕ) : BitVec 32 :=
  let byte (k : ℕ) : BitVec 8 := (bytes[pos + k]?).getD 0
  byte 0 ++ byte 1 ++ byte 2 ++ byte 3

/-- The variables of the search. -/
structure Search where
  i : ℕ
  evfileFound : ℕ
  fileId : ℕ
  deriving DecidableEq, Repr

/-- The `for` loop of the search, with the rounds that are left. -/
def searchLoop (s : FexecState) (id : ℕ) : ℕ → Search → Search
  | 0, r => r
  | n + 1, r =>
      let evfileFound := ((s.row r.i 1).toNat <<< 8) + (s.row r.i 2).toNat
      if evfileFound = id then
        { r with evfileFound := (s.row (r.i + 1) 0).toNat, fileId := (s.row r.i 2).toNat }
      else searchLoop s id n { r with i := r.i + 1, evfileFound }

/-- The two functions up to the end of the search. -/
def searchEvinfo (g : Game) (s : FexecState) (id : ℕ) : FexecState × Except ErrStop Search :=
  let s := s.changeBlock (s.blockOf id)
  let s := s.log (.fopenGame 0)
  let bytes := (g.file s.d800A0134 0).2
  if 0x202 ≤ bytes.length then (s, .error (.tooLongFileSize (s.d800EF250 id 0)))
  else
    let s := s.readEvinfo bytes
    let n := (s.row 0 0).toNat
    let r := searchLoop s id n ⟨0, 0, 0⟩
    if n ≤ r.i then (s, .error (.canNotFindEvfile id)) else (s, .ok r)

/-- `fexecGetFileSize` -/
def fexecGetFileSize (g : Game) (s : FexecState) (id : ℕ) :
    FexecState × Except ErrStop (BitVec 32) :=
  match searchEvinfo g s id with
  | (s, .error e) => (s, .error e)
  | (s, .ok r) =>
      let s := s.log (.fopenGame r.evfileFound)
      let bytes := (g.file s.d800A0134 r.evfileFound).2
      (s.changeBlock 0x2A0000, .ok (wordAt bytes 0 + wordAt bytes 4))

/-- `recomp_get_tlb_lookup` -/
def recompGetTlbLookup (t : TLBTable) (addr : BitVec 32) : BitVec 32 :=
  (tlbLookup t (addr.signExtend 64)).setWidth 32

/-- The address of a module is not mapped. -/
def TlbFails (t : TLBTable) (func : BitVec 32) : Prop :=
  func < 0x80000000 ∧ recompGetTlbLookup t func = func

instance (t : TLBTable) (func : BitVec 32) : Decidable (TlbFails t func) :=
  inferInstanceAs (Decidable (_ ∧ _))

/-- `fexecLoadAddress`, which answers with what the module at the address answers with. -/
def fexecLoadAddress (g : Game) (s : FexecState) (id : ℕ) (func : BitVec 32) :
    FexecState × Except ErrStop (BitVec 32) :=
  match searchEvinfo g s id with
  | (s, .error e) => (s, .error e)
  | (s, .ok r) =>
      let s := s.log (.fopenGame r.evfileFound)
      let (unk4, bytes) := g.file s.d800A0134 r.evfileFound
      let loadAddr := recompGetTlbLookup s.gTLBTable func
      if TlbFails s.gTLBTable func then (s, .error (.tlbLookupFailed func))
      else
        let i := wordAt bytes 0
        let s := (overlayRoms.lookup unk4).elim s fun vram =>
          s.log (.recompLoadOverlays vram loadAddr i)
        let rdram := g.decode (bytes.drop 8) loadAddr i s.rdram
        let rdram := overlayApplyRelocations g r.fileId loadAddr rdram
        let s := { s with rdram }.log (.overlayApplyRelocations r.fileId loadAddr)
        let s := s.changeBlock 0x2A0000
        (s.log (.run loadAddr), .ok loadAddr)

/-! ### The evinfo -/

/-- A record of an evinfo. -/
structure EvRecord where
  id : BitVec 16
  file : BitVec 8
  deriving DecidableEq, Repr

namespace EvRecord

/-- `id_hi, id_lo, file` -/
def bytes (r : EvRecord) : List (BitVec 8) :=
  [(r.id >>> 8).setWidth 8, r.id.setWidth 8, r.file]

/-- The two bytes of the id make the id, and the second is its low byte. -/
theorem id_bytes (r : EvRecord) :
    (((r.id >>> 8).setWidth 8).toNat <<< 8) + (r.id.setWidth 8).toNat = r.id.toNat ∧
      (r.id.setWidth 8).toNat = r.id.toNat % 256 := by
  have hlt : r.id.toNat < 65536 := r.id.isLt
  have hlo : (r.id.setWidth 8).toNat = r.id.toNat % 256 := BitVec.toNat_setWidth ..
  have hhi : ((r.id >>> 8).setWidth 8).toNat = r.id.toNat / 256 := by
    rw [BitVec.toNat_setWidth, BitVec.toNat_ushiftRight, Nat.shiftRight_eq_div_pow]
    omega
  rw [hhi, hlo, Nat.shiftLeft_eq]
  omega

end EvRecord

/-- An evinfo: the number of the records, and the records. -/
def encodeEvinfo (records : List EvRecord) : List (BitVec 8) :=
  BitVec.ofNat 8 records.length :: records.flatMap EvRecord.bytes

/-- The first record of an id. -/
def firstRecord (records : List EvRecord) (id : ℕ) : Option EvRecord :=
  records.find? fun r => r.id.toNat = id

/-- The bytes of the records, three for each. -/
theorem getElem?_flatMap_bytes {records : List EvRecord} {i : ℕ} {r : EvRecord}
    (h : records[i]? = some r) (j : ℕ) (hj : j < 3) :
    (records.flatMap EvRecord.bytes)[3 * i + j]? = r.bytes[j]? := by
  induction records generalizing i with
  | nil => simp at h
  | cons r₀ records ih =>
      have hlen : r₀.bytes.length = 3 := rfl
      rw [List.flatMap_cons]
      cases i with
      | zero =>
          obtain rfl := Option.some.inj h
          rw [List.getElem?_append_left (by omega), Nat.mul_zero, Nat.zero_add]
      | succ i =>
          rw [List.getElem?_append_right (by omega), hlen,
            show 3 * (i + 1) + j - 3 = 3 * i + j by omega]
          exact ih h

/-- The rows of the array that a record is in. -/
structure RowsOf (s : FexecState) (i : ℕ) (r : EvRecord) : Prop where
  hi : s.row i 1 = (r.id >>> 8).setWidth 8
  lo : s.row i 2 = r.id.setWidth 8
  file : s.row (i + 1) 0 = r.file

/-- **An evinfo in the array**: the key of a record is in one row, and its value in the next. -/
theorem rowsOf_readEvinfo {s : FexecState} {records : List EvRecord} {rest : List (BitVec 8)}
    (hlen : (encodeEvinfo records ++ rest).length ≤ 2 ^ 32) {i : ℕ} {r : EvRecord}
    (h : records[i]? = some r) : RowsOf (s.readEvinfo (encodeEvinfo records ++ rest)) i r := by
  have hbyte : ∀ j, (hj : j < 3) → ∀ b, r.bytes[j]? = some b →
      (s.readEvinfo (encodeEvinfo records ++ rest)).rdram.readB 0
        (byteAddr d800F0250Addr (3 * i + (j + 1))) = b := by
    intro j hj b hb
    have hat := (getElem?_flatMap_bytes h j hj).trans hb
    have hin := (List.getElem?_eq_some_iff.1 hat).1
    have hbytes : (encodeEvinfo records ++ rest)[3 * i + (j + 1)]? = some b := by
      rw [encodeEvinfo, List.cons_append, show 3 * i + (j + 1) = (3 * i + j) + 1 by omega,
        List.getElem?_cons_succ, List.getElem?_append_left hin, hat]
    obtain ⟨hlt, hget⟩ := List.getElem?_eq_some_iff.1 hbytes
    exact (Guest.guest_storeBytes hlen hlt).trans hget
  refine ⟨hbyte 0 (by decide) _ rfl, hbyte 1 (by decide) _ rfl, ?_⟩
  exact hbyte 2 (by decide) _ rfl

/-- **The loop finds the first record of the id**, from any row on. -/
theorem searchLoop_spec {s : FexecState} {id : ℕ} {records : List EvRecord} {r₀ : Search}
    (hrows : ∀ k r, records[k]? = some r → RowsOf s (r₀.i + k) r) :
    match firstRecord records id with
    | some r => (searchLoop s id records.length r₀).i < r₀.i + records.length ∧
        (searchLoop s id records.length r₀).evfileFound = r.file.toNat ∧
        (searchLoop s id records.length r₀).fileId = id % 256
    | none => (searchLoop s id records.length r₀).i = r₀.i + records.length := by
  induction records generalizing r₀ with
  | nil => rfl
  | cons r records ih =>
      obtain ⟨hhi, hlo, hfile⟩ := hrows 0 r rfl
      obtain ⟨hid, hlow⟩ := r.id_bytes
      rw [Nat.add_zero] at hhi hlo hfile
      rw [List.length_cons, searchLoop, hhi, hlo, hid, firstRecord, List.find?_cons]
      by_cases hr : r.id.toNat = id
      · simp [hr, hlow, hfile]
      · simp only [hr, decide_false, if_false]
        have hnext : ∀ k r, records[k]? = some r → RowsOf s (r₀.i + 1 + k) r := fun k r hk => by
          simpa [Nat.add_assoc, Nat.add_comm 1 k] using hrows (k + 1) r hk
        have hrest := @ih { r₀ with i := r₀.i + 1, evfileFound := r.id.toNat } hnext
        simpa [firstRecord, Nat.add_assoc, Nat.add_comm 1] using hrest

/-! ### The search -/

section Search

variable {g : Game} {s : FexecState} {id : ℕ} {records : List EvRecord} {rest : List (BitVec 8)}

/-- The state in which the functions search: the block of the module is open, and its evinfo is
read. -/
def FexecState.searching (s : FexecState) (g : Game) (id : ℕ) : FexecState :=
  ((s.changeBlock (s.blockOf id)).log (.fopenGame 0)).readEvinfo (g.file (s.blockOf id) 0).2

@[simp] theorem FexecState.d800A0134_changeBlock (s : FexecState) (block : BitVec 32) :
    (s.changeBlock block).d800A0134 = block := by
  unfold changeBlock
  split_ifs with h
  · exact Rdram.readW_writeW
  · exact (not_not.1 h).symm

@[simp] theorem FexecState.calls_log (s : FexecState) (call : GameCall) :
    (s.log call).calls = s.calls ++ [call] := rfl

@[simp] theorem FexecState.d800A0134_log (s : FexecState) (call : GameCall) :
    (s.log call).d800A0134 = s.d800A0134 := rfl

/-- The evinfo of the block of a module, when it is not too long. -/
structure EvinfoOf (g : Game) (s : FexecState) (id : ℕ) (records : List EvRecord) : Prop where
  length : records.length < 256
  file : ∃ rest, (g.file (s.blockOf id) 0).2 = encodeEvinfo records ++ rest
  size : (g.file (s.blockOf id) 0).2.length < 0x202

/-- **The search.** -/
theorem searchEvinfo_spec (h : EvinfoOf g s id records) :
    match firstRecord records id with
    | some r => ∃ i, searchEvinfo g s id =
        (s.searching g id, .ok ⟨i, r.file.toNat, id % 256⟩)
    | none => searchEvinfo g s id = (s.searching g id, .error (.canNotFindEvfile id)) := by
  obtain ⟨rest, hfile⟩ := h.file
  have hlen : (encodeEvinfo records ++ rest).length ≤ 2 ^ 32 := by
    rw [← hfile]
    exact le_trans h.size.le (by norm_num)
  have hcount : ((s.searching g id).row 0 0).toNat = records.length := by
    have hfirst : (s.searching g id).row 0 0 = BitVec.ofNat 8 records.length := by
      unfold FexecState.searching FexecState.row FexecState.readEvinfo
      rw [hfile]
      exact Guest.guest_storeBytes hlen (Nat.zero_lt_succ _)
    rw [hfirst, BitVec.toNat_ofNat, Nat.mod_eq_of_lt h.length]
  have hrows : ∀ k r, records[k]? = some r → RowsOf (s.searching g id) (0 + k) r := by
    intro k r hk
    unfold FexecState.searching
    rw [hfile, Nat.zero_add]
    exact rowsOf_readEvinfo hlen hk
  have hblock : ((s.changeBlock (s.blockOf id)).log (.fopenGame 0)).d800A0134 = s.blockOf id := by
    rw [FexecState.d800A0134_log, FexecState.d800A0134_changeBlock]
  have hsearch : searchEvinfo g s id =
      if records.length ≤ (searchLoop (s.searching g id) id records.length ⟨0, 0, 0⟩).i then
        (s.searching g id, .error (.canNotFindEvfile id))
      else (s.searching g id, .ok (searchLoop (s.searching g id) id records.length ⟨0, 0, 0⟩)) := by
    have hsearching : ((s.changeBlock (s.blockOf id)).log (.fopenGame 0)).readEvinfo
        (g.file (s.blockOf id) 0).2 = s.searching g id := rfl
    unfold searchEvinfo
    dsimp only
    rw [hblock, if_neg (not_le.2 h.size), hsearching, hcount]
  have hspec := @searchLoop_spec (s.searching g id) id records ⟨0, 0, 0⟩ hrows
  rw [hsearch]
  generalize searchLoop (s.searching g id) id records.length ⟨0, 0, 0⟩ = r at hspec
  cases hfirst : firstRecord records id with
  | none =>
      rw [hfirst] at hspec
      dsimp only at hspec ⊢
      rw [if_pos (by omega)]
  | some record =>
      rw [hfirst] at hspec
      obtain ⟨hi, hfound, hlow⟩ := hspec
      dsimp only at hi
      refine ⟨r.i, ?_⟩
      rw [if_neg (by omega), ← hfound, ← hlow]

end Search

/-! ### The result -/

/-- The calls that lead from `s` to `t`. -/
def FexecState.newCalls (s t : FexecState) : List GameCall := t.calls.drop s.calls.length

/-- The file that a call opens. -/
def GameCall.opened : GameCall → Option ℕ
  | .fopenGame number => some number
  | _ => none

/-- The module id whose relocations a call makes. -/
def GameCall.relocated : GameCall → Option ℕ
  | .overlayApplyRelocations fileId _ => some fileId
  | _ => none

/-- **Lookup, size query and relocation agree** for an id. -/
structure LookupOk (g : Game) (s : FexecState) (id : ℕ) (func : BitVec 32)
    (records : List EvRecord) : Prop where
  /-- Behind the evinfo, both functions open the file of the first record of the id. -/
  load : ∀ r, firstRecord records id = some r →
    (s.newCalls (fexecLoadAddress g s id func).1).filterMap GameCall.opened = [0, r.file.toNat]
  size : ∀ r, firstRecord records id = some r →
    (s.newCalls (fexecGetFileSize g s id).1).filterMap GameCall.opened = [0, r.file.toNat]
  /-- They stop at the search when there is no such record, and only then. -/
  loadStops : (fexecLoadAddress g s id func).2 = .error (.canNotFindEvfile id) ↔
    firstRecord records id = none
  sizeStops : (fexecGetFileSize g s id).2 = .error (.canNotFindEvfile id) ↔
    firstRecord records id = none
  /-- They stop nowhere else. -/
  loadStop : ∀ e, (fexecLoadAddress g s id func).2 = .error e → firstRecord records id = none
  sizeStop : ∀ e, (fexecGetFileSize g s id).2 = .error e → firstRecord records id = none
  /-- The relocations are those of the id. -/
  relocation : ∀ n ∈ (s.newCalls (fexecLoadAddress g s id func).1).filterMap GameCall.relocated,
    relocEntry n = relocEntry id

section Result

variable {g : Game} {s : FexecState} {id : ℕ} {func : BitVec 32} {records : List EvRecord}
  {r : EvRecord}

/-- `finit_game`, when the block changes. -/
def FexecState.blockCalls (s : FexecState) (block : BitVec 32) : List GameCall :=
  if block ≠ s.d800A0134 then [.finitGame block] else []

theorem FexecState.calls_changeBlock (s : FexecState) (block : BitVec 32) :
    (s.changeBlock block).calls = s.calls ++ s.blockCalls block := by
  unfold changeBlock blockCalls
  split_ifs
  · rfl
  · exact (List.append_nil _).symm

@[simp] theorem FexecState.opened_blockCalls (s : FexecState) (block : BitVec 32) :
    (s.blockCalls block).filterMap GameCall.opened = [] := by
  unfold blockCalls
  split_ifs <;> rfl

@[simp] theorem FexecState.relocated_blockCalls (s : FexecState) (block : BitVec 32) :
    (s.blockCalls block).filterMap GameCall.relocated = [] := by
  unfold blockCalls
  split_ifs <;> rfl

theorem FexecState.calls_searching (s : FexecState) (g : Game) (id : ℕ) :
    (s.searching g id).calls = s.calls ++ (s.blockCalls (s.blockOf id) ++ [.fopenGame 0]) := by
  rw [← List.append_assoc, ← s.calls_changeBlock]
  rfl

/-- The size query, when a record is found. -/
theorem getFileSize_of_found (h : EvinfoOf g s id records) (hr : firstRecord records id = some r) :
    ∃ size, (fexecGetFileSize g s id).2 = .ok size ∧
      (s.newCalls (fexecGetFileSize g s id).1).filterMap GameCall.opened = [0, r.file.toNat] := by
  have hspec := searchEvinfo_spec h
  rw [hr] at hspec
  obtain ⟨i, hsearch⟩ := hspec
  unfold fexecGetFileSize
  rw [hsearch]
  refine ⟨_, rfl, ?_⟩
  dsimp only
  rw [FexecState.newCalls, FexecState.calls_changeBlock, FexecState.log, s.calls_searching]
  simp [List.filterMap_append, GameCall.opened]

/-- Both functions, when no record is found. -/
theorem stops_of_none (h : EvinfoOf g s id records) (hr : firstRecord records id = none) :
    (fexecGetFileSize g s id).2 = .error (.canNotFindEvfile id) ∧
      fexecLoadAddress g s id func = (s.searching g id, .error (.canNotFindEvfile id)) := by
  have hspec := searchEvinfo_spec h
  rw [hr] at hspec
  unfold fexecGetFileSize fexecLoadAddress
  rw [hspec]
  exact ⟨rfl, rfl⟩

@[simp] theorem FexecState.gTLBTable_searching (s : FexecState) (g : Game) (id : ℕ) :
    (s.searching g id).gTLBTable = s.gTLBTable := by
  unfold searching readEvinfo log changeBlock
  split_ifs <;> rfl

@[simp] theorem FexecState.gTLBTable_log (s : FexecState) (call : GameCall) :
    (s.log call).gTLBTable = s.gTLBTable := rfl

/-- Telling the host of an overlay opens nothing and relocates nothing. -/
theorem FexecState.calls_loadOverlays (s : FexecState) (vram? : Option (BitVec 32))
    (loadAddr size : BitVec 32) : ∃ calls,
      (vram?.elim s fun vram => s.log (.recompLoadOverlays vram loadAddr size)).calls =
        s.calls ++ calls ∧
      calls.filterMap GameCall.opened = [] ∧ calls.filterMap GameCall.relocated = [] := by
  cases vram? with
  | none => exact ⟨[], (List.append_nil _).symm, rfl, rfl⟩
  | some vram => exact ⟨[_], rfl, rfl, rfl⟩

/-- Loading, when a record is found. -/
theorem loadAddress_of_found (h : EvinfoOf g s id records)
    (hr : firstRecord records id = some r) :
    (s.newCalls (fexecLoadAddress g s id func).1).filterMap GameCall.opened =
        [0, r.file.toNat] ∧
      if TlbFails s.gTLBTable func then
        (s.newCalls (fexecLoadAddress g s id func).1).filterMap GameCall.relocated = [] ∧
          (fexecLoadAddress g s id func).2 = .error (.tlbLookupFailed func)
      else
        (s.newCalls (fexecLoadAddress g s id func).1).filterMap GameCall.relocated = [id % 256] ∧
          ∃ loadAddr, (fexecLoadAddress g s id func).2 = .ok loadAddr := by
  have hspec := searchEvinfo_spec h
  rw [hr] at hspec
  obtain ⟨i, hsearch⟩ := hspec
  have htlb : ((s.searching g id).log (.fopenGame r.file.toNat)).gTLBTable = s.gTLBTable := by
    rw [FexecState.gTLBTable_log, FexecState.gTLBTable_searching]
  unfold fexecLoadAddress
  rw [hsearch]
  dsimp only
  rw [htlb]
  by_cases ht : TlbFails s.gTLBTable func
  · rw [if_pos ht, if_pos ht]
    dsimp only
    rw [FexecState.newCalls, FexecState.log, s.calls_searching]
    simp [List.filterMap_append, GameCall.opened, GameCall.relocated]
  · rw [if_neg ht, if_neg ht]
    obtain ⟨calls, hcalls, hopened, hrelocated⟩ :=
      ((s.searching g id).log (.fopenGame r.file.toNat)).calls_loadOverlays
        (overlayRoms.lookup
          (g.file ((s.searching g id).log (.fopenGame r.file.toNat)).d800A0134 r.file.toNat).1)
        (recompGetTlbLookup s.gTLBTable func)
        (wordAt (g.file ((s.searching g id).log (.fopenGame r.file.toNat)).d800A0134
          r.file.toNat).2 0)
    dsimp only
    generalize Option.elim _ _ _ = u at hcalls ⊢
    simp only [FexecState.newCalls, FexecState.calls_log, FexecState.calls_changeBlock, hcalls,
      s.calls_searching, List.append_assoc, List.drop_left, List.filterMap_append, hopened,
      hrelocated, FexecState.opened_blockCalls, FexecState.relocated_blockCalls]
    exact ⟨rfl, rfl, _, rfl⟩

/-- An id of more than one byte has no relocations of its own. -/
theorem relocEntry_eq_none (h : 256 ≤ id) : relocEntry id = none :=
  if_pos (Or.inl (le_trans (by decide) h))

/-- The entry of the low byte of an id is the entry of the id. -/
theorem relocEntry_mod_iff (id : ℕ) :
    relocEntry (id % 256) = relocEntry id ↔ id < 256 ∨ relocEntry (id % 256) = none := by
  rcases Nat.lt_or_ge id 256 with hlt | hge
  · rw [Nat.mod_eq_of_lt hlt]
    exact iff_of_true rfl (Or.inl hlt)
  · rw [relocEntry_eq_none hge]
    exact ⟨Or.inr, fun h => h.resolve_left (not_lt.2 hge)⟩

/-- Without a record of the id both functions stop, and nothing is relocated. -/
theorem lookupOk_of_none (h : EvinfoOf g s id records) (func : BitVec 32)
    (hr : firstRecord records id = none) : LookupOk g s id func records := by
  obtain ⟨hsize, hload⟩ := @stops_of_none g s id func records h hr
  have hno : ∀ r, firstRecord records id ≠ some r := fun r h =>
    Option.some_ne_none r (h.symm.trans hr)
  refine ⟨fun r h => absurd h (hno r), fun r h => absurd h (hno r), ?_, ?_, fun _ _ => hr,
    fun _ _ => hr, ?_⟩
  · rw [hload]
    exact iff_of_true rfl hr
  · exact iff_of_true hsize hr
  · rw [hload, FexecState.newCalls, s.calls_searching, List.drop_left, List.filterMap_append,
      FexecState.relocated_blockCalls]
    exact nofun

/-- With a record of the id, the lookup of the address has to go through, and the relocations must
not be those of another id. -/
theorem lookupOk_iff_of_found (h : EvinfoOf g s id records) (func : BitVec 32)
    (hr : firstRecord records id = some r) : LookupOk g s id func records ↔
      ¬ TlbFails s.gTLBTable func ∧
        ∀ n ∈ (s.newCalls (fexecLoadAddress g s id func).1).filterMap GameCall.relocated,
          relocEntry n = relocEntry id := by
  obtain ⟨size, hsize, hsizeOpens⟩ := getFileSize_of_found h hr
  obtain ⟨hopens, hrest⟩ := @loadAddress_of_found g s id func records r h hr
  have hsome : firstRecord records id ≠ none := by
    rw [hr]
    exact Option.some_ne_none r
  have hself : ∀ r', firstRecord records id = some r' → r' = r :=
    fun r' h => Option.some.inj (h.symm.trans hr)
  have hsizeOk : ∀ e, (fexecGetFileSize g s id).2 ≠ .error e := by
    intro e he
    rw [hsize] at he
    cases he
  -- the lookup of the address is all that can stop behind the search
  have hstop : ∀ e, (fexecLoadAddress g s id func).2 = .error e → TlbFails s.gTLBTable func := by
    intro e he
    split_ifs at hrest with ht
    · exact ht
    · obtain ⟨-, loadAddr, hok⟩ := hrest
      cases hok.symm.trans he
  constructor
  · intro hok
    refine ⟨fun ht => hsome ?_, hok.relocation⟩
    rw [if_pos ht] at hrest
    exact hok.loadStop _ hrest.2
  · rintro ⟨ht, hreloc⟩
    refine ⟨fun r' h => hself r' h ▸ hopens, fun r' h => hself r' h ▸ hsizeOpens,
      iff_of_false (fun he => ht (hstop _ he)) hsome, iff_of_false (hsizeOk _) hsome,
      fun e he => absurd (hstop e he) ht, fun e he => absurd he (hsizeOk e), hreloc⟩

/-- **Lookup, size query and relocation agree** where there is no record of the id; and where there
is one, if the lookup of the address goes through, for the ids of one byte and for those whose low
byte has no relocations, and for no others. -/
theorem lookup_ok_iff (h : EvinfoOf g s id records) (func : BitVec 32) :
    LookupOk g s id func records ↔ firstRecord records id = none ∨
      ¬ TlbFails s.gTLBTable func ∧ (id < 256 ∨ relocEntry (id % 256) = none) := by
  cases hr : firstRecord records id with
  | none => exact iff_of_true (lookupOk_of_none h func hr) (Or.inl rfl)
  | some r =>
      rw [lookupOk_iff_of_found h func hr]
      obtain ⟨-, hrest⟩ := @loadAddress_of_found g s id func records r h hr
      by_cases ht : TlbFails s.gTLBTable func
      · simp [ht]
      · rw [if_neg ht] at hrest
        rw [hrest.1, ← relocEntry_mod_iff]
        simp [ht]

end Result

/-- A game whose evinfos have one record, for file 3. -/
def oneRecord (id : BitVec 16) : Game where
  file _ number := (0, if number = 0 then encodeEvinfo [⟨id, 3⟩] else [])
  decode _ _ _ rdram := rdram
  offset _ _ := 0

/-- A state before any call. -/
def noCalls : FexecState where
  gTLBTable _ := .zero
  rdram _ := 0
  calls := []

theorem evinfoOf_oneRecord (id : BitVec 16) (n : ℕ) :
    EvinfoOf (oneRecord id) noCalls n [⟨id, 3⟩] :=
  ⟨by simp, ⟨[], (List.append_nil _).symm⟩, by simp [oneRecord, encodeEvinfo, EvRecord.bytes]⟩

/-- The id 10, of the actors. -/
theorem lookup_ok_iff_actorMain :
    LookupOk (oneRecord 0x0A) noCalls 0x0A 0x80100000 [⟨0x0A, 3⟩] :=
  (lookup_ok_iff (evinfoOf_oneRecord 0x0A 0x0A) 0x80100000).2
    (Or.inr ⟨by decide, Or.inl (by decide)⟩)

/-- The module 0x10A is relocated with the offsets of the actors. -/
theorem low_byte_relocated : ¬ ∀ (g : Game) (s : FexecState) (id : ℕ) (records : List EvRecord),
    EvinfoOf g s id records → id < 0x800 → ∀ func, LookupOk g s id func records := by
  intro h
  have hok := h _ _ 0x10A _ (evinfoOf_oneRecord 0x10A 0x10A) (by decide) 0x80100000
  obtain ⟨-, hrest⟩ := @loadAddress_of_found _ _ _ 0x80100000 _ _ (evinfoOf_oneRecord 0x10A 0x10A)
    rfl
  rw [if_neg (by decide)] at hrest
  have hentry := hok.relocation 0x0A (by rw [hrest.1]; decide)
  exact absurd hentry (by decide)

end Modules
