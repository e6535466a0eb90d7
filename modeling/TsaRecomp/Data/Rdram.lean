/-
**The memory of the game, and its heap.**

The program sees the memory of the game as host memory behind `rdram`.  A guest address is the sign
extension of 32 bits; the bytes of each word are in host order, so that the macro for bytes flips
the last two bits of an address.

The heap in this memory, `recomp::alloc` and `recomp::free`, is not part of the repository.  Here it
is the list of the blocks that are allocated, and a log of what has been passed to `free`; the place
of a new block is up to the allocator.

Main definitions:

* `Data.Rdram` — the memory, with `Data.Rdram.readB`, `Data.Rdram.writeB`, `Data.Rdram.readW`,
  `Data.Rdram.writeW`;
* `Data.zeroLoop` — the loop with which blocks are zeroed;
* `Data.Heap`, `Data.Heap.Fresh` — the heap, and the place of a new block;
* `Data.addrOf`, `Data.toPtr` — addresses of host pointers, and back.

Main results:

* `Data.Rdram.readW_writeW` — a word is read as it was written;
* `Data.readB_zeroLoop` — the loop zeroes its bytes and no other;
* `Data.toPtr_addrOf` — an address leads back to its pointer.
-/

import Mathlib.Data.BitVec
import Mathlib.Data.List.Nodup
import Mathlib.Tactic

set_option relaxedAutoImplicit false
set_option autoImplicit false

namespace Data

/-! ### The memory -/

/-- The bytes of the host memory, by their distance from `rdram`. -/
abbrev Rdram := BitVec 64 → BitVec 8

/-- The guest address of the first byte of `rdram`. -/
def kRdramBase : BitVec 64 := 0xFFFFFFFF80000000

/-- The byte that `MEM_B` accesses. -/
def memB (offset reg : BitVec 64) : BitVec 64 := ((reg + offset) ^^^ 3) - kRdramBase

/-- The first of the four bytes that `MEM_W` accesses. -/
def memW (offset reg : BitVec 64) : BitVec 64 := reg + offset - kRdramBase

namespace Rdram

variable (rdram : Rdram)

/-- `MEM_B(offset, reg)` -/
def readB (offset reg : BitVec 64) : BitVec 8 := rdram (memB offset reg)

/-- `MEM_B(offset, reg) = value` -/
def writeB (offset reg : BitVec 64) (value : BitVec 8) : Rdram :=
  fun i => if i = memB offset reg then value else rdram i

/-- `MEM_W(offset, reg)` -/
def readW (offset reg : BitVec 64) : BitVec 32 :=
  let byte (k : BitVec 64) : BitVec 8 := rdram (memW offset reg + k)
  byte 3 ++ byte 2 ++ byte 1 ++ byte 0

/-- `MEM_W(offset, reg) = value`, on a host that stores the low byte first. -/
def writeW (offset reg : BitVec 64) (value : BitVec 32) : Rdram :=
  fun i =>
    let byte := i - memW offset reg
    if byte < 4 then value.extractLsb' (8 * byte.toNat) 8 else rdram i

end Rdram

/-! ### Words -/

/-- A word is made of its bytes. -/
theorem append_extractLsb' (v : BitVec 32) : v.extractLsb' 24 8 ++ v.extractLsb' 16 8 ++
    v.extractLsb' 8 8 ++ v.extractLsb' 0 8 = v := by
  refine BitVec.eq_of_getLsbD_eq ?_
  intro i hi
  simp only [BitVec.getLsbD_append, BitVec.getLsbD_extractLsb']
  rcases Nat.lt_or_ge i 8 with h0 | h0
  · simp [h0]
  · rcases Nat.lt_or_ge i 16 with h1 | h1
    · simp [show ¬ i < 8 by omega, show i - 8 < 8 by omega, show 8 + (i - 8) = i by omega]
    · rcases Nat.lt_or_ge i 24 with h2 | h2
      · simp [show ¬ i < 8 by omega, show ¬ i - 8 < 8 by omega, show i - 8 - 8 < 8 by omega,
          show 16 + (i - 8 - 8) = i by omega]
      · simp [show ¬ i < 8 by omega, show ¬ i - 8 < 8 by omega, show ¬ i - 8 - 8 < 8 by omega,
          show i - 8 - 8 - 8 < 8 by omega, show 24 + (i - 8 - 8 - 8) = i by omega]

/-- A word is read as it was written. -/
theorem Rdram.readW_writeW {rdram : Rdram} {offset reg : BitVec 64} {v : BitVec 32} :
    (rdram.writeW offset reg v).readW offset reg = v := by
  have hbyte : ∀ k : BitVec 64, k < 4 → rdram.writeW offset reg v (memW offset reg + k) =
      v.extractLsb' (8 * k.toNat) 8 := by
    intro k hk
    have hsub : memW offset reg + k - memW offset reg = k := by
      rw [BitVec.add_comm, BitVec.add_sub_cancel]
    unfold Rdram.writeW
    dsimp only
    rw [hsub, if_pos hk]
  unfold Rdram.readW
  dsimp only
  rw [hbyte 3 (by decide), hbyte 2 (by decide), hbyte 1 (by decide), hbyte 0 (by decide)]
  exact append_extractLsb' v

/-! ### Bytes -/

/-- `for (size_t i = 0; i < size; i++) { MEM_B(i, addr) = 0; }`, with the rounds that are left. -/
def zeroLoop (addr : BitVec 64) : ℕ → BitVec 64 → Rdram → Rdram
  | 0, _, rdram => rdram
  | n + 1, i, rdram => zeroLoop addr n (i + 1) (rdram.writeB i addr 0)

/-- Two addresses lead to one byte only if they are equal. -/
theorem memB_inj {o r o' r' : BitVec 64} : memB o r = memB o' r' ↔ r + o = r' + o' := by
  unfold memB
  constructor
  · intro h
    have hxor : (r + o) ^^^ 3 = (r' + o') ^^^ 3 := by
      have := congrArg (· + kRdramBase) h
      simpa only [BitVec.sub_add_cancel] using this
    have := congrArg (· ^^^ (3 : BitVec 64)) hxor
    simpa only [BitVec.xor_assoc, BitVec.xor_self, BitVec.xor_zero] using this
  · intro h
    rw [h]

/-- **The loop zeroes its bytes and no other.** -/
theorem readB_zeroLoop (addr : BitVec 64) (offset reg : BitVec 64) :
    ∀ {n : ℕ} {i : BitVec 64} {rdram : Rdram},
      (zeroLoop addr n i rdram).readB offset reg =
        if ∃ k < n, reg + offset = addr + (i + BitVec.ofNat 64 k) then 0
        else rdram.readB offset reg := by
  intro n
  induction n with
  | zero =>
      intro i rdram
      simp [zeroLoop]
  | succ n ih =>
      intro i rdram
      rw [zeroLoop, ih]
      by_cases hlater : ∃ k < n, reg + offset = addr + (i + 1 + BitVec.ofNat 64 k)
      · obtain ⟨k, hk, he⟩ := hlater
        have hsucc : i + 1 + BitVec.ofNat 64 k = i + BitVec.ofNat 64 (k + 1) := by
          rw [BitVec.ofNat_add, BitVec.add_assoc]
          congr 1
          exact BitVec.add_comm _ _
        rw [if_pos ⟨k, hk, he⟩, if_pos ⟨k + 1, by omega, hsucc ▸ he⟩]
      · rw [if_neg hlater]
        have hiff : (∃ k < n + 1, reg + offset = addr + (i + BitVec.ofNat 64 k)) ↔
            reg + offset = addr + i := by
          constructor
          · rintro ⟨k, hk, he⟩
            cases k with
            | zero => simpa using he
            | succ k =>
                refine absurd ⟨k, by omega, ?_⟩ hlater
                rw [he, BitVec.ofNat_add, BitVec.add_assoc]
                congr 2
                exact BitVec.add_comm _ _
          · intro he
            exact ⟨0, by omega, by simpa using he⟩
        simp only [hiff, Rdram.readB, Rdram.writeB, memB_inj]

/-! ### Pointers -/

/-- `reinterpret_cast<uint8_t*>(mem) - rdram + 0xFFFFFFFF80000000ULL` -/
def addrOf (mem : ℕ) : BitVec 64 := BitVec.ofNat 64 mem + kRdramBase

/-- `TO_PTR(void, var)` for a guest address, by its distance from `rdram`. -/
def toPtr (var : BitVec 32) : ℕ := (var.signExtend 64 - kRdramBase).toNat

/-- The low half of an address in the memory is the address, with its sign. -/
theorem signExtend_addrOf {mem : ℕ} (h : mem < 2 ^ 31) :
    ((addrOf mem).setWidth 32).signExtend 64 = addrOf mem := by
  have hlow : (addrOf mem).setWidth 32 = BitVec.ofNat 32 (mem + 0x80000000) := by
    refine BitVec.eq_of_toNat_eq ?_
    rw [BitVec.toNat_setWidth, addrOf, BitVec.toNat_add, BitVec.toNat_ofNat, BitVec.toNat_ofNat,
      show kRdramBase.toNat = 0xFFFFFFFF80000000 from rfl]
    omega
  have hmsb : (BitVec.ofNat 32 (mem + 0x80000000)).msb = true := by
    rw [BitVec.msb_eq_decide, BitVec.toNat_ofNat, decide_eq_true_eq]
    omega
  refine BitVec.eq_of_toNat_eq ?_
  rw [hlow, BitVec.toNat_signExtend, hmsb, BitVec.toNat_setWidth, BitVec.toNat_ofNat, addrOf,
    BitVec.toNat_add, BitVec.toNat_ofNat, show kRdramBase.toNat = 0xFFFFFFFF80000000 from rfl]
  norm_num
  omega

/-- **An address leads back to its pointer.** -/
theorem toPtr_addrOf {mem : ℕ} (h : mem < 2 ^ 31) : toPtr ((addrOf mem).setWidth 32) = mem := by
  rw [toPtr, signExtend_addrOf h, addrOf, BitVec.add_sub_cancel, BitVec.toNat_ofNat]
  omega

/-! ### The heap -/

/-- An allocated block, by the distance of its first byte from `rdram`. -/
structure Block where
  start : ℕ
  size : ℕ
  deriving DecidableEq, Repr

/-- The memory, the blocks that are allocated, and what has been passed to `recomp::free`, the last
pointer first. -/
structure Heap where
  rdram : Rdram
  blocks : List Block
  freed : List ℕ

namespace Heap

/-- `recomp::alloc`, which answers with `mem`. -/
def alloc (h : Heap) (size mem : ℕ) : Heap := { h with blocks := ⟨mem, size⟩ :: h.blocks }

/-- `recomp::free` -/
def free (h : Heap) (mem : ℕ) : Heap :=
  { h with
    blocks := h.blocks.filter fun b => b.start ≠ mem
    freed := mem :: h.freed }

/-- The pointers to the blocks. -/
def starts (h : Heap) : List ℕ := h.blocks.map Block.start

/-- **A fresh block**: it lies in the memory, apart from the blocks that are allocated. -/
structure Fresh (h : Heap) (size mem : ℕ) : Prop where
  lt : mem < 2 ^ 31
  bound : mem + size ≤ 2 ^ 31
  start_ne : ∀ b ∈ h.blocks, b.start ≠ mem
  disjoint : ∀ b ∈ h.blocks, b.start + b.size ≤ mem ∨ mem + size ≤ b.start

@[simp] theorem starts_alloc (h : Heap) (size mem : ℕ) :
    (h.alloc size mem).starts = mem :: h.starts := rfl

@[simp] theorem starts_free (h : Heap) (mem : ℕ) :
    (h.free mem).starts = h.starts.filter fun start => start ≠ mem := by
  rw [starts, free, starts, List.filter_map]
  rfl

@[simp] theorem freed_free (h : Heap) (mem : ℕ) : (h.free mem).freed = mem :: h.freed := rfl

theorem Fresh.notMem_starts {h : Heap} {size mem : ℕ} (hf : h.Fresh size mem) :
    mem ∉ h.starts := by
  intro hm
  obtain ⟨b, hb, rfl⟩ := List.mem_map.1 hm
  exact hf.start_ne b hb rfl

end Heap

end Data
