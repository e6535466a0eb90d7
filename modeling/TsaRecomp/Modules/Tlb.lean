/-
**The translation of addresses.**

The recompiled program keeps the 32 entries of the translation buffer of the machine in a table of
its own: `src/game/tlb.cpp` writes it, and `_tlb_lookup` of `include/tlb.h` reads it for every
access to memory.  An address of the unmapped segment is left as it is; any other one is translated
by the first entry whose range holds it, both ends included.

An entry stands for a pair of pages.  Where the odd page follows the even one in memory, the whole
range of the entry is translated linearly, its end included.

Main definitions:

* `Modules.TLBEntry`, `Modules.TLBTable` — the table;
* `Modules.osMapTLB`, `Modules.osUnmapTLB`, `Modules.tlbLookup` — the functions;
* `Modules.Linear` — an entry whose odd page follows its even page.

Main results:

* `Modules.tlbLookup_of_covers` — an address that some entry covers is translated by an entry that
  covers it;
* `Modules.Linear.translate` — **an entry of two consecutive pages is linear**.
-/

import Mathlib.Data.BitVec
import Mathlib.Data.List.FinRange
import Mathlib.Tactic

set_option relaxedAutoImplicit false
set_option autoImplicit false

namespace Modules

/-! ### The table -/

/-- `struct TLBEntry` -/
structure TLBEntry where
  pm : BitVec 32
  pagesize : BitVec 32
  vaddr : BitVec 32
  evenpaddr : BitVec 32
  oddpaddr : BitVec 32
  deriving DecidableEq, Repr

/-- An entry that has been cleared, or never written. -/
def TLBEntry.zero : TLBEntry := ⟨0, 0, 0, 0, 0⟩

/-- `gTLBTable` -/
abbrev TLBTable := Fin 32 → TLBEntry

/-! ### The functions -/

/-- The `switch` of `osMapTLB_recomp`, from the page mask to the size of a page. -/
def pageSizeOf (pm : BitVec 32) : BitVec 32 :=
  if pm = 0x0000000 then 4096
  else if pm = 0x0006000 then 16384
  else if pm = 0x001E000 then 65536
  else if pm = 0x007E000 then 262144
  else if pm = 0x01FE000 then 1048576
  else if pm = 0x07FE000 then 4194304
  else if pm = 0x1FFE000 then 16777216
  else 4096

/-- The entry that `osMapTLB_recomp` writes.  The `asid` is only looked at for a warning. -/
def mappedEntry (pm vaddr evenpaddr oddpaddr : BitVec 32) : TLBEntry where
  pm := pm
  pagesize := pageSizeOf pm
  vaddr := vaddr
  evenpaddr := evenpaddr
  oddpaddr := oddpaddr

/-- `osMapTLB_recomp` -/
def osMapTLB (t : TLBTable) (index : Fin 32) (pm vaddr evenpaddr oddpaddr : BitVec 32) : TLBTable :=
  fun i => if i = index then mappedEntry pm vaddr evenpaddr oddpaddr else t i

/-- `osUnmapTLB_recomp` -/
def osUnmapTLB (t : TLBTable) (index : Fin 32) : TLBTable :=
  fun i => if i = index then .zero else t i

namespace TLBEntry

/-- `tlb_count`: how many of the two pages are mapped. -/
def tlbCount (e : TLBEntry) : ℕ :=
  (if e.evenpaddr ≠ -1 then 1 else 0) + (if e.oddpaddr ≠ -1 then 1 else 0)

/-- `fullsize` -/
def fullsize (e : TLBEntry) : BitVec 32 :=
  if e.tlbCount = 2 then e.pagesize + e.pagesize else e.pagesize

/-- The test of `_tlb_lookup`: the entry is not empty, and the address is in its range. -/
def covers (e : TLBEntry) (addr32 : BitVec 32) : Bool :=
  e.tlbCount ≠ 0 && (e.vaddr ≤ addr32 && addr32 ≤ e.vaddr + e.fullsize)

/-- The translation of `_tlb_lookup`: behind the first page of the range the later page in memory
is taken, and the earlier one before. -/
def translate (e : TLBEntry) (addr32 : BitVec 32) : BitVec 64 :=
  let offset := addr32 - e.vaddr
  let newAddr :=
    if e.pagesize < offset then
      (if e.evenpaddr < e.oddpaddr then e.oddpaddr else e.evenpaddr) + (offset - e.pagesize)
    else (if e.oddpaddr < e.evenpaddr then e.oddpaddr else e.evenpaddr) + offset
  (newAddr + 0x80000000).signExtend 64

end TLBEntry

/-- `_tlb_lookup` -/
def tlbLookup (t : TLBTable) (effAddr : BitVec 64) : BitVec 64 :=
  if (effAddr &&& 0x00000000FF000000) >>> 24 = 0x80 then effAddr
  else
    match (List.finRange 32).find? fun i => (t i).covers (effAddr.setWidth 32) with
    | some i => (t i).translate (effAddr.setWidth 32)
    | none => effAddr

/-! ### The lookup -/

/-- An address below the unmapped segment is looked up. -/
theorem fastPath_ne {a : BitVec 64} (h : a.toNat < 0x80000000) :
    (a &&& 0x00000000FF000000) >>> 24 ≠ 0x80 := by
  intro he
  have hn := congrArg BitVec.toNat he
  rw [BitVec.toNat_ushiftRight, BitVec.toNat_and, Nat.shiftRight_and_distrib] at hn
  have hle : a.toNat >>> 24 &&& (0x00000000FF000000 : BitVec 64).toNat >>> 24 ≤ a.toNat >>> 24 :=
    Nat.and_le_left
  rw [hn, Nat.shiftRight_eq_div_pow] at hle
  have : (0x80 : BitVec 64).toNat = 128 := rfl
  omega

/-- **An address that some entry covers** is translated by an entry that covers it. -/
theorem tlbLookup_of_covers {t : TLBTable} {a : BitVec 64} {i : Fin 32}
    (ha : a.toNat < 0x80000000) (hi : (t i).covers (a.setWidth 32) = true) :
    ∃ j, (t j).covers (a.setWidth 32) = true ∧
      tlbLookup t a = (t j).translate (a.setWidth 32) := by
  rw [tlbLookup, if_neg (fastPath_ne ha)]
  cases hf : (List.finRange 32).find? fun i => (t i).covers (a.setWidth 32) with
  | none => exact absurd hi (List.find?_eq_none.1 hf i (List.mem_finRange i))
  | some j =>
      have hj := List.find?_some hf
      exact ⟨j, hj, rfl⟩

/-- An empty entry covers nothing but the null address. -/
theorem TLBEntry.eq_zero_of_covers {a : BitVec 32} (h : TLBEntry.zero.covers a = true) : a = 0 := by
  have hle : a ≤ 0 := by
    simp only [TLBEntry.covers, Bool.and_eq_true, decide_eq_true_eq] at h
    exact h.2.2
  simpa using hle

/-- An entry whose odd page follows its even page: it maps `2 * size` bytes from `v` on to the
memory from `p` on. -/
structure Linear (e : TLBEntry) (v p size : ℕ) : Prop where
  vaddr : e.vaddr.toNat = v
  pagesize : e.pagesize.toNat = size
  evenpaddr : e.evenpaddr.toNat = p
  oddpaddr : e.oddpaddr.toNat = p + size
  vaddr_lt : v + 2 * size < 2 ^ 31
  paddr_lt : p + 2 * size < 2 ^ 31

namespace Linear

variable {e : TLBEntry} {v p size : ℕ}

/-- Both pages are mapped. -/
theorem tlbCount (h : Linear e v p size) : e.tlbCount = 2 := by
  have hp := h.paddr_lt
  have hne : ∀ {a : BitVec 32}, a.toNat < 2 ^ 31 → a ≠ -1 := by
    rintro a ha rfl
    exact absurd ha (by decide)
  have heven : e.evenpaddr ≠ -1 := hne (by rw [h.evenpaddr]; omega)
  have hodd : e.oddpaddr ≠ -1 := hne (by rw [h.oddpaddr]; omega)
  rw [TLBEntry.tlbCount, if_pos heven, if_pos hodd]

theorem fullsize (h : Linear e v p size) : e.fullsize.toNat = 2 * size := by
  have hv := h.vaddr_lt
  rw [TLBEntry.fullsize, if_pos h.tlbCount, BitVec.toNat_add, h.pagesize]
  omega

/-- The range of the entry, its end included. -/
theorem covers_iff (h : Linear e v p size) (a : BitVec 32) :
    e.covers a = true ↔ v ≤ a.toNat ∧ a.toNat ≤ v + 2 * size := by
  have hv := h.vaddr_lt
  have hcount : e.tlbCount ≠ 0 := by
    rw [h.tlbCount]
    exact two_ne_zero
  have hend : (e.vaddr + e.fullsize).toNat = v + 2 * size := by
    rw [BitVec.toNat_add, h.vaddr, h.fullsize]
    omega
  rw [TLBEntry.covers, Bool.and_eq_true, Bool.and_eq_true, decide_eq_true_eq, decide_eq_true_eq,
    decide_eq_true_eq, BitVec.le_def, BitVec.le_def, h.vaddr, hend]
  exact ⟨And.right, fun h => ⟨hcount, h⟩⟩

/-- **An entry of two consecutive pages is linear** on its range, the end included. -/
theorem translate (h : Linear e v p size) {a : BitVec 32} (h₁ : v ≤ a.toNat)
    (h₂ : a.toNat ≤ v + 2 * size) :
    e.translate a = (BitVec.ofNat 32 (0x80000000 + p + (a.toNat - v))).signExtend 64 := by
  have hv := h.vaddr_lt
  have hp := h.paddr_lt
  have hoffset : (a - e.vaddr).toNat = a.toNat - v := by
    rw [BitVec.toNat_sub, h.vaddr]
    omega
  unfold TLBEntry.translate
  dsimp only
  refine congrArg (BitVec.signExtend 64) (BitVec.eq_of_toNat_eq ?_)
  rw [BitVec.toNat_ofNat]
  by_cases hlate : e.pagesize < a - e.vaddr
  · -- the odd page
    have hlt := hlate
    rw [BitVec.lt_def, h.pagesize, hoffset] at hlt
    have hodd : e.evenpaddr < e.oddpaddr := by
      rw [BitVec.lt_def, h.evenpaddr, h.oddpaddr]
      omega
    rw [if_pos hlate, if_pos hodd, BitVec.toNat_add, BitVec.toNat_add, BitVec.toNat_sub, hoffset,
      h.pagesize, h.oddpaddr]
    have hbase : (0x80000000 : BitVec 32).toNat = 0x80000000 := rfl
    omega
  · -- the even page, with the first byte of the odd one
    have hle := hlate
    rw [BitVec.lt_def, h.pagesize, hoffset] at hle
    have heven : ¬ e.oddpaddr < e.evenpaddr := by
      rw [BitVec.lt_def, h.evenpaddr, h.oddpaddr]
      omega
    rw [if_neg hlate, if_neg heven, BitVec.toNat_add, BitVec.toNat_add, hoffset, h.evenpaddr]
    have hbase : (0x80000000 : BitVec 32).toNat = 0x80000000 := rfl
    omega

end Linear

end Modules
