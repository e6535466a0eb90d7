/-
**Recompiled code sees a memory of the console.**

The memory of the console is a memory of bytes with the highest byte of a number first.  Read byte
by byte, the host memory is one, and every access that is aligned as its instruction wants it does
there what the instruction does.

Main definitions:

* `Guest.guest`, `Guest.host` — the memory of the console in a host memory, and back.

Main results:

* `Guest.host_guest`, `Guest.guest_host` — the two are the same memory;
* `Guest.readW_eq`, `Guest.guest_writeW` and their kin — **each access is the one of the console**.
-/

import TsaRecomp.Guest.Macros
import TsaRecomp.Lib.BigEndian

set_option relaxedAutoImplicit false
set_option autoImplicit false

namespace Guest

open Data (Rdram memB memW kRdramBase)
open BigEndian (ofBytes byte load store misalignment aligned)

/-! ### The memory of the console -/

/-- The memory of the console, as `MEM_B` shows it. -/
def guest (rdram : Rdram) : Gpr → BitVec 8 := fun a => rdram.readB 0 a

/-- The host memory that holds a memory of the console. -/
def host (mem : Gpr → BitVec 8) : Rdram := fun i => mem ((i + kRdramBase) ^^^ 3)

variable {rdram : Rdram} {offset reg a x : Gpr} {k : ℕ}

theorem guest_apply (rdram : Rdram) (a : Gpr) : guest rdram a = rdram ((a ^^^ 3) - kRdramBase) := by
  change rdram (((a + 0#64) ^^^ 3) - kRdramBase) = _
  rw [BitVec.add_zero]

theorem xor_xor (a b : Gpr) : a ^^^ b ^^^ b = a := by
  rw [BitVec.xor_assoc, BitVec.xor_self, BitVec.xor_zero]

/-- **Nothing is lost** on the way to the console. -/
theorem host_guest (rdram : Rdram) : host (guest rdram) = rdram := by
  funext i
  rw [host, guest_apply, xor_xor, BitVec.add_sub_cancel]

theorem guest_host (mem : Gpr → BitVec 8) : guest (host mem) = mem := by
  funext a
  rw [guest_apply, host, BitVec.sub_add_cancel, xor_xor]

/-! ### Flipped addresses -/

theorem toNat_xor_three (a : Gpr) : (a ^^^ 3).toNat = 4 * (a.toNat / 4) + (3 - a.toNat % 4) := by
  have hlt : a.toNat % 4 < 4 := Nat.mod_lt _ (by decide)
  have hdiv : (a.toNat ^^^ 3) / 2 ^ 2 = a.toNat / 4 := by
    rw [Nat.xor_div_two_pow]
    exact Nat.xor_zero _
  have hmod : (a.toNat ^^^ 3) % 2 ^ 2 = 3 - a.toNat % 4 := by
    rw [Nat.xor_mod_two_pow]
    change (a.toNat % 4) ^^^ 3 = _
    interval_cases a.toNat % 4 <;> rfl
  change a.toNat ^^^ 3 = _
  omega

theorem toNat_xor_two (h : a.toNat % 2 = 0) :
    (a ^^^ 2).toNat = 4 * (a.toNat / 4) + (2 - a.toNat % 4) := by
  have hlt : a.toNat % 4 < 4 := Nat.mod_lt _ (by decide)
  have hdiv : (a.toNat ^^^ 2) / 2 ^ 2 = a.toNat / 4 := by
    rw [Nat.xor_div_two_pow]
    exact Nat.xor_zero _
  have hmod : (a.toNat ^^^ 2) % 2 ^ 2 = 2 - a.toNat % 4 := by
    rw [Nat.xor_mod_two_pow]
    change (a.toNat % 4) ^^^ 2 = _
    obtain h0 | h2 : a.toNat % 4 = 0 ∨ a.toNat % 4 = 2 := by omega
    · rw [h0]
      rfl
    · rw [h2]
      rfl
  change a.toNat ^^^ 2 = _
  omega

/-- The bytes of an aligned word stand the other way round. -/
theorem add_xor_three (h : misalignment 4 a = 0) (hk : k < 4) :
    (a + BitVec.ofNat 64 k) ^^^ 3 = a + BitVec.ofNat 64 (3 - k) := by
  have hlt := a.isLt
  unfold misalignment at h
  refine BitVec.eq_of_toNat_eq ?_
  rw [toNat_xor_three, BitVec.toNat_add, BitVec.toNat_add, BitVec.toNat_ofNat, BitVec.toNat_ofNat]
  omega

/-- So do those of an aligned half, once the half is flipped. -/
theorem add_xor_two (h : misalignment 2 a = 0) (hk : k < 2) :
    (a + BitVec.ofNat 64 k) ^^^ 3 = (a ^^^ 2) + BitVec.ofNat 64 (1 - k) := by
  have hlt := a.isLt
  unfold misalignment at h
  refine BitVec.eq_of_toNat_eq ?_
  rw [toNat_xor_three, BitVec.toNat_add, BitVec.toNat_add, toNat_xor_two h, BitVec.toNat_ofNat,
    BitVec.toNat_ofNat]
  omega

theorem xor_three_sub (h : misalignment 4 a = 0) :
    ((x ^^^ 3) - a).toNat < 4 ↔ (x - a).toNat < 4 := by
  have hlt := a.isLt
  have hlt' := x.isLt
  unfold misalignment at h
  rw [BitVec.toNat_sub, BitVec.toNat_sub, toNat_xor_three]
  omega

theorem xor_three_sub_eq (h : misalignment 4 a = 0) (hx : (x - a).toNat < 4) :
    ((x ^^^ 3) - a).toNat = 3 - (x - a).toNat := by
  have hlt := a.isLt
  have hlt' := x.isLt
  unfold misalignment at h
  rw [BitVec.toNat_sub] at hx
  rw [BitVec.toNat_sub, BitVec.toNat_sub, toNat_xor_three]
  omega

theorem xor_two_sub (h : misalignment 2 a = 0) :
    ((x ^^^ 3) - (a ^^^ 2)).toNat < 2 ↔ (x - a).toNat < 2 := by
  have hlt := a.isLt
  have hlt' := x.isLt
  unfold misalignment at h
  rw [BitVec.toNat_sub, BitVec.toNat_sub, toNat_xor_three, toNat_xor_two h]
  omega

theorem xor_two_sub_eq (h : misalignment 2 a = 0) (hx : (x - a).toNat < 2) :
    ((x ^^^ 3) - (a ^^^ 2)).toNat = 1 - (x - a).toNat := by
  have hlt := a.isLt
  have hlt' := x.isLt
  unfold misalignment at h
  rw [BitVec.toNat_sub] at hx
  rw [BitVec.toNat_sub, BitVec.toNat_sub, toNat_xor_three, toNat_xor_two h]
  omega

/-! ### Words and halves -/

/-- A byte of the console, by its place in the host memory. -/
theorem host_apply (rdram : Rdram) (i : Gpr) :
    rdram i = guest rdram ((i + kRdramBase) ^^^ 3) := by
  rw [guest_apply, xor_xor, BitVec.add_sub_cancel]

/-- The bytes of a word are those of the console, the last one first. -/
theorem rdram_word (h : misalignment 4 a = 0) (hk : k < 4) :
    rdram (a - kRdramBase + BitVec.ofNat 64 k) =
      guest rdram (a + BitVec.ofNat 64 (3 - k)) := by
  rw [host_apply rdram, show a - kRdramBase + BitVec.ofNat 64 k + kRdramBase = a + BitVec.ofNat 64 k
    by ring, add_xor_three h hk]

theorem rdram_half (h : misalignment 2 a = 0) (hk : k < 2) :
    rdram ((a ^^^ 2) - kRdramBase + BitVec.ofNat 64 k) =
      guest rdram (a + BitVec.ofNat 64 (1 - k)) := by
  have hflip : (a ^^^ 2) + BitVec.ofNat 64 k = (a + BitVec.ofNat 64 (1 - k)) ^^^ 3 := by
    rw [add_xor_two h (by omega), show 1 - (1 - k) = k by omega]
  rw [host_apply rdram, show (a ^^^ 2) - kRdramBase + BitVec.ofNat 64 k + kRdramBase =
    (a ^^^ 2) + BitVec.ofNat 64 k by ring, hflip, xor_xor]

/-- **A word is loaded** as on the console. -/
theorem readW_eq (h : misalignment 4 (reg + offset) = 0) :
    rdram.readW offset reg = load 4 (guest rdram) (reg + offset) := by
  have hbyte : ∀ k < 4, rdram (memW offset reg + BitVec.ofNat 64 k) =
      guest rdram (reg + offset + BitVec.ofNat 64 (3 - k)) := fun k hk => rdram_word h hk
  change rdram (memW offset reg + BitVec.ofNat 64 3) ++ rdram (memW offset reg + BitVec.ofNat 64 2)
    ++ rdram (memW offset reg + BitVec.ofNat 64 1) ++ rdram (memW offset reg + BitVec.ofNat 64 0) =
      load 4 (guest rdram) (reg + offset)
  rw [hbyte 3 (by decide), hbyte 2 (by decide), hbyte 1 (by decide), hbyte 0 (by decide)]
  simp only [load, BigEndian.ofBytes_succ _ 3, BigEndian.ofBytes_succ _ 2,
    BigEndian.ofBytes_succ _ 1, BigEndian.ofBytes_one]

/-- **A half is loaded** as on the console. -/
theorem readH_eq (h : misalignment 2 (reg + offset) = 0) :
    readH rdram offset reg = load 2 (guest rdram) (reg + offset) := by
  have hbyte : ∀ k < 2, rdram (memH offset reg + BitVec.ofNat 64 k) =
      guest rdram (reg + offset + BitVec.ofNat 64 (1 - k)) := fun k hk => rdram_half h hk
  change rdram (memH offset reg + BitVec.ofNat 64 1) ++ rdram (memH offset reg) =
    load 2 (guest rdram) (reg + offset)
  have h0 := hbyte 0 (by decide)
  rw [BitVec.add_zero] at h0
  rw [hbyte 1 (by decide), h0]
  simp only [load, BigEndian.ofBytes_succ _ 1, BigEndian.ofBytes_one]

/-- **A byte is loaded** as on the console. -/
theorem readB_eq : rdram.readB offset reg = load 1 (guest rdram) (reg + offset) := by
  have hb : rdram.readB offset reg = guest rdram (reg + offset) := by
    rw [guest_apply]
    rfl
  rw [hb, load, BigEndian.ofBytes_one, BitVec.add_zero]

/-- **A word is stored** as on the console. -/
theorem guest_writeW (h : misalignment 4 (reg + offset) = 0) (v : BitVec 32) :
    guest (rdram.writeW offset reg v) = store 4 (guest rdram) (reg + offset) v := by
  funext x
  have hsub : (x ^^^ 3) - kRdramBase - memW offset reg = (x ^^^ 3) - (reg + offset) := by
    unfold memW
    ring
  rw [guest_apply]
  unfold Rdram.writeW store
  dsimp only
  rw [hsub]
  by_cases hx : (x - (reg + offset)).toNat < 4
  · have heq := xor_three_sub_eq h hx
    rw [if_pos (BitVec.lt_def.2 ((xor_three_sub h).2 hx)), if_pos hx, heq]
    rfl
  · rw [if_neg fun hc => hx ((xor_three_sub h).1 (BitVec.lt_def.1 hc)), if_neg hx, guest_apply]

/-- **A half is stored** as on the console. -/
theorem guest_writeH (h : misalignment 2 (reg + offset) = 0) (v : BitVec 16) :
    guest (writeH rdram offset reg v) = store 2 (guest rdram) (reg + offset) v := by
  funext x
  have hsub : (x ^^^ 3) - kRdramBase - memH offset reg = (x ^^^ 3) - ((reg + offset) ^^^ 2) := by
    unfold memH
    ring
  rw [guest_apply]
  unfold writeH store
  dsimp only
  rw [hsub]
  by_cases hx : (x - (reg + offset)).toNat < 2
  · have heq := xor_two_sub_eq h hx
    rw [if_pos (BitVec.lt_def.2 ((xor_two_sub h).2 hx)), if_pos hx, heq]
    rfl
  · rw [if_neg fun hc => hx ((xor_two_sub h).1 (BitVec.lt_def.1 hc)), if_neg hx, guest_apply]

/-- **A byte is stored** as on the console. -/
theorem guest_writeB (v : BitVec 8) :
    guest (rdram.writeB offset reg v) = store 1 (guest rdram) (reg + offset) v := by
  funext x
  have hplace : (x ^^^ 3) - kRdramBase = memB offset reg ↔ (x - (reg + offset)).toNat < 1 := by
    have hmemB : (x ^^^ 3) - kRdramBase = memB 0 x := by
      change _ = ((x + 0#64) ^^^ 3) - kRdramBase
      rw [BitVec.add_zero]
    rw [hmemB, Data.memB_inj]
    change x + 0#64 = _ ↔ _
    rw [BitVec.add_zero]
    constructor
    · rintro rfl
      rw [BitVec.sub_self]
      decide
    · intro hlt
      have hzero : x - (reg + offset) = 0#64 := BitVec.eq_of_toNat_eq (by simpa using hlt)
      have hsum := BitVec.sub_add_cancel x (reg + offset)
      rw [hzero, BitVec.zero_add] at hsum
      exact hsum.symm
  rw [guest_apply]
  unfold Rdram.writeB store
  by_cases hx : (x - (reg + offset)).toNat < 1
  · rw [if_pos (hplace.2 hx), if_pos hx, show (x - (reg + offset)).toNat = 0 by omega]
    simp [byte]
  · rw [if_neg fun hc => hx (hplace.1 hc), if_neg hx, guest_apply]

/-! ### Doublewords -/

theorem misalignment_add_four (h : misalignment 4 a = 0) : misalignment 4 (a + 4#64) = 0 := by
  have hlt := a.isLt
  unfold misalignment at h ⊢
  rw [BitVec.toNat_add]
  change (a.toNat + 4) % 2 ^ 64 % 4 = 0
  omega

/-- The halves of a doubleword make it. -/
theorem halves_append (v : BitVec 64) : (v >>> 32).setWidth 32 ++ v.setWidth 32 = v := by
  refine BitVec.eq_of_getLsbD_eq ?_
  intro i hi
  rw [BitVec.getLsbD_append]
  split_ifs with h
  · simp [h]
  · simp [show i - 32 < 32 by omega, show 32 + (i - 32) = i by omega]

/-- Two words are put together to a doubleword. -/
theorem or_shiftLeft_append (hi lo : BitVec 32) :
    lo.setWidth 64 <<< 0 ||| hi.setWidth 64 <<< 32 = hi ++ lo := by
  refine BitVec.eq_of_getLsbD_eq ?_
  intro i h
  rw [BitVec.getLsbD_append]
  split_ifs with hlow
  · simp [hlow, show i < 64 by omega]
  · simp [hlow, BitVec.getLsbD_of_ge lo i (by omega), show i < 64 by omega]

/-- **A doubleword is loaded** as on the console. -/
theorem loadDoubleword_eq (h : misalignment 4 (reg + offset) = 0) :
    loadDoubleword rdram reg offset = load 8 (guest rdram) (reg + offset) := by
  have hlo : rdram.readW reg (offset + 4#64) = load 4 (guest rdram) (reg + offset + 4#64) := by
    have hsum : offset + 4#64 + reg = reg + offset + 4#64 := by ring
    rw [readW_eq (by rw [hsum]; exact misalignment_add_four h), hsum]
  have hhi : rdram.readW reg (offset + 0#64) = load 4 (guest rdram) (reg + offset) := by
    rw [BitVec.add_zero, readW_eq (by rwa [BitVec.add_comm]), BitVec.add_comm]
  unfold loadDoubleword
  change (rdram.readW reg (offset + 4#64)).setWidth 64 <<< 0 |||
    (rdram.readW reg (offset + 0#64)).setWidth 64 <<< 32 = _
  rw [hlo, hhi, or_shiftLeft_append]
  exact (BigEndian.load_add 4).symm

/-- Two words are stored as a doubleword. -/
theorem guest_writeW_writeW {reg' offset' : Gpr} (h : misalignment 4 a = 0)
    (hlo : reg + offset = a + 4#64) (hhi : reg' + offset' = a) (v : BitVec 64) :
    guest ((rdram.writeW offset reg (v.setWidth 32)).writeW offset' reg'
      ((v >>> 32).setWidth 32)) = store 8 (guest rdram) a v := by
  rw [guest_writeW (by rwa [hhi]), guest_writeW (by rw [hlo]; exact misalignment_add_four h),
    hlo, hhi]
  have hstore := @BigEndian.store_store 4 64 (guest rdram) a 4 ((v >>> 32).setWidth 32)
    (v.setWidth 32)
  refine hstore.trans ?_
  congr 1
  exact halves_append v

/-- **A doubleword is stored** as on the console. -/
theorem guest_sd (h : misalignment 4 (reg + offset) = 0) (v : Gpr) :
    guest (sd rdram v offset reg) = store 8 (guest rdram) (reg + offset) v := by
  unfold sd
  rw [BitVec.ushiftRight_zero]
  refine guest_writeW_writeW h ?_ ?_ v
  · exact (BitVec.add_assoc _ _ _).symm
  · change reg + (offset + 0#64) = _
    rw [BitVec.add_zero]

theorem guest_writeHalves (h : misalignment 4 a = 0) (v : BitVec 64) :
    guest (writeHalves rdram a v) = store 8 (guest rdram) a v := by
  refine guest_writeW_writeW h ?_ ?_ v
  · change a + 4#64 + 0#64 = _
    rw [BitVec.add_zero]
  · change a + 0#64 + 0#64 = _
    rw [BitVec.add_zero, BitVec.add_zero]

/-! ### Parts of words -/

theorem and_three (a : Gpr) : (a &&& 3#64).toNat = misalignment 4 a :=
  Nat.and_two_pow_sub_one_eq_mod a.toNat 2

theorem and_seven (a : Gpr) : (a &&& 7#64).toNat = misalignment 8 a :=
  Nat.and_two_pow_sub_one_eq_mod a.toNat 3

theorem and_not_three (a : Gpr) : a &&& ~~~3#64 = aligned 4 a := by
  rw [BigEndian.and_not, aligned, ← and_three, BitVec.ofNat_toNat, BitVec.setWidth_eq]

theorem and_not_seven (a : Gpr) : a &&& ~~~7#64 = aligned 8 a := by
  rw [BigEndian.and_not, aligned, ← and_seven, BitVec.ofNat_toNat, BitVec.setWidth_eq]

/-- By how much a part of `n` bytes is moved. -/
theorem toNat_shift {n : ℕ} (hn : n ≤ 8) {m : Gpr} (hm : m.toNat = misalignment n a)
    (hlt : misalignment n a < n) : (m * 8#64).toNat = 8 * misalignment n a ∧
      (BitVec.ofNat 64 (8 * (n - 1)) - m * 8#64).toNat = 8 * (n - 1 - misalignment n a) := by
  have hmul : (m * 8#64).toNat = 8 * misalignment n a := by
    rw [BitVec.toNat_mul, hm]
    change misalignment n a * 8 % 2 ^ 64 = _
    omega
  refine ⟨hmul, ?_⟩
  rw [BitVec.toNat_sub, hmul, BitVec.toNat_ofNat]
  omega

@[simp] theorem shift_three (a : Gpr) : ((a &&& 3#64) * 8).toNat = 8 * misalignment 4 a :=
  (toNat_shift (by decide) (and_three a) (BigEndian.misalignment_lt (by decide) a)).1

@[simp] theorem shift_sub_three (a : Gpr) :
    (24 - (a &&& 3#64) * 8).toNat = 8 * (4 - 1 - misalignment 4 a) :=
  (toNat_shift (by decide) (and_three a) (BigEndian.misalignment_lt (by decide) a)).2

@[simp] theorem shift_seven (a : Gpr) : ((a &&& 7#64) * 8).toNat = 8 * misalignment 8 a :=
  (toNat_shift (by decide) (and_seven a) (BigEndian.misalignment_lt (by decide) a)).1

@[simp] theorem shift_sub_seven (a : Gpr) :
    (56 - (a &&& 7#64) * 8).toNat = 8 * (8 - 1 - misalignment 8 a) :=
  (toNat_shift (by decide) (and_seven a) (BigEndian.misalignment_lt (by decide) a)).2

/-- A word that was put into a register with its sign is still there. -/
theorem setWidth_signExtend (v : BitVec 32) : (v.signExtend 64).setWidth 32 = v := by
  refine BitVec.eq_of_getLsbD_eq ?_
  intro i hi
  rw [BitVec.getLsbD_setWidth, BitVec.getLsbD_signExtend]
  simp [hi, show i < 64 by omega]

/-- The low word of what is put together in a register. -/
theorem setWidth_merge (v : Gpr) (mask l : BitVec 32) :
    (v &&& mask.setWidth 64 ||| l.setWidth 64).setWidth 32 = v.setWidth 32 &&& mask ||| l := by
  rw [BitVec.setWidth_or, BitVec.setWidth_and, BitVec.setWidth_setWidth_of_le _ (by decide),
    BitVec.setWidth_setWidth_of_le _ (by decide), BitVec.setWidth_eq, BitVec.setWidth_eq]

theorem readW_aligned (rdram : Rdram) (a : Gpr) :
    rdram.readW 0 (aligned 4 a) = load 4 (guest rdram) (aligned 4 a) := by
  have hzero : aligned 4 a + 0 = aligned 4 a := BitVec.add_zero _
  rw [readW_eq (by rw [hzero, BigEndian.misalignment_aligned]), hzero]

theorem guest_writeW_aligned (rdram : Rdram) (a : Gpr) (v : BitVec 32) :
    guest (rdram.writeW 0 (aligned 4 a) v) = store 4 (guest rdram) (aligned 4 a) v := by
  have hzero : aligned 4 a + 0 = aligned 4 a := BitVec.add_zero _
  rw [guest_writeW (by rw [hzero, BigEndian.misalignment_aligned]), hzero]

/-- The start of a doubleword is the start of a word. -/
theorem misalignment_aligned_eight (a : Gpr) : misalignment 4 (aligned 8 a) = 0 := by
  have h := @BigEndian.misalignment_aligned 8 64 a
  unfold misalignment at h ⊢
  omega

theorem loadDoubleword_aligned (rdram : Rdram) (a : Gpr) :
    loadDoubleword rdram 0 (aligned 8 a) = load 8 (guest rdram) (aligned 8 a) := by
  have hzero : 0 + aligned 8 a = aligned 8 a := BitVec.zero_add _
  rw [loadDoubleword_eq (by rw [hzero, misalignment_aligned_eight]), hzero]

/-- **The left part of a word is loaded** as on the console. -/
theorem doLwl_eq (v : Gpr) : doLwl rdram v offset reg =
    (BigEndian.loadLeft 4 (guest rdram) (v.setWidth 32) (offset + reg)).signExtend 64 := by
  unfold doLwl
  dsimp only
  rw [setWidth_merge, and_not_three, readW_aligned, ← BigEndian.loadLeft_eq]
  simp only [BitVec.shiftLeft_eq', shift_three]
  rfl

/-- **The right part of a word is loaded** as on the console. -/
theorem doLwr_eq (v : Gpr) : doLwr rdram v offset reg =
    (BigEndian.loadRight 4 (guest rdram) (v.setWidth 32) (offset + reg)).signExtend 64 := by
  unfold doLwr
  dsimp only
  rw [setWidth_merge, and_not_three, readW_aligned, ← BigEndian.loadRight_eq]
  simp only [BitVec.ushiftRight_eq', shift_sub_three]
  rfl

/-- **The left part of a word is stored** as on the console. -/
theorem guest_doSwl (v : Gpr) : guest (doSwl rdram offset reg v) =
    BigEndian.storeLeft 4 (guest rdram) (offset + reg) (v.setWidth 32) := by
  unfold doSwl
  dsimp only
  rw [and_not_three, guest_writeW_aligned, readW_aligned,
    ← BigEndian.storeLeft_eq (by decide) (by decide)]
  simp only [BitVec.ushiftRight_eq', shift_three]
  rfl

/-- **The right part of a word is stored** as on the console. -/
theorem guest_doSwr (v : Gpr) : guest (doSwr rdram offset reg v) =
    BigEndian.storeRight 4 (guest rdram) (offset + reg) (v.setWidth 32) := by
  unfold doSwr
  dsimp only
  rw [and_not_three, guest_writeW_aligned, readW_aligned,
    ← BigEndian.storeRight_eq (by decide) (by decide)]
  simp only [BitVec.shiftLeft_eq', shift_sub_three]
  rfl

/-! ### Parts of doublewords -/

/-- **The left part of a doubleword is loaded** as on the console. -/
theorem doLdl_eq (v : Gpr) : doLdl rdram v offset reg =
    BigEndian.loadLeft 8 (guest rdram) v (offset + reg) := by
  unfold doLdl
  dsimp only
  rw [and_not_seven, loadDoubleword_aligned, ← BigEndian.loadLeft_eq]
  simp only [BitVec.shiftLeft_eq', shift_seven]
  rfl

/-- **The right part of a doubleword is loaded** as on the console. -/
theorem doLdr_eq (v : Gpr) : doLdr rdram v offset reg =
    BigEndian.loadRight 8 (guest rdram) v (offset + reg) := by
  unfold doLdr
  dsimp only
  rw [and_not_seven, loadDoubleword_aligned, ← BigEndian.loadRight_eq]
  simp only [BitVec.ushiftRight_eq', shift_sub_seven]
  rfl

/-- **The left part of a doubleword is stored** as on the console. -/
theorem guest_doSdl (v : Gpr) : guest (doSdl rdram offset reg v) =
    BigEndian.storeLeft 8 (guest rdram) (offset + reg) v := by
  unfold doSdl
  dsimp only
  rw [and_not_seven, guest_writeHalves (misalignment_aligned_eight _), loadDoubleword_aligned,
    ← BigEndian.storeLeft_eq (by decide) (by decide)]
  simp only [BitVec.ushiftRight_eq', shift_seven]
  rfl

/-- **The right part of a doubleword is stored** as on the console. -/
theorem guest_doSdr (v : Gpr) : guest (doSdr rdram offset reg v) =
    BigEndian.storeRight 8 (guest rdram) (offset + reg) v := by
  unfold doSdr
  dsimp only
  rw [and_not_seven, guest_writeHalves (misalignment_aligned_eight _), loadDoubleword_aligned,
    ← BigEndian.storeRight_eq (by decide) (by decide)]
  simp only [BitVec.shiftLeft_eq', shift_sub_seven]
  rfl

end Guest
