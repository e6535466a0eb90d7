/-
**Blocks of bytes, and the variables beside them.**

A pointer has 32 bits, and the address of a byte behind it is their sum with its sign.  Code that
fills a block byte by byte also reads and writes variables of its own, at fixed addresses.  Here is
what such code needs: a block after it has been filled, and variables that are not affected by what
is written elsewhere.

Main definitions:

* `Guest.byteAddr`, `Guest.storeBytes` — a byte behind a pointer, and bytes one behind the other;
* `Guest.InBytes` — the bytes of a variable.

Main results:

* `Guest.guest_storeBytes`, `Guest.guest_storeBytes_of_ne` — a block that has been filled;
* `Guest.readW_congr`, `Guest.readH_congr` — a variable whose bytes are left alone;
* `Guest.guest_writeW_of_notMem`, `Guest.guest_writeH_of_notMem` — what a variable leaves alone.
-/

import TsaRecomp.Guest.Accesses

set_option relaxedAutoImplicit false
set_option autoImplicit false

namespace Guest

open BigEndian (load store misalignment)
open Data (Rdram)

/-! ### Addresses -/

/-- Addresses are told apart by their low half. -/
theorem signExtend_inj {a b : BitVec 32} : a.signExtend 64 = b.signExtend 64 ↔ a = b := by
  refine ⟨fun h => ?_, fun h => h ▸ rfl⟩
  rw [← setWidth_signExtend a, h, setWidth_signExtend]

theorem toNat_signExtend (v : BitVec 32) :
    (v.signExtend 64).toNat = v.toNat + if 2 ^ 31 ≤ v.toNat then 2 ^ 64 - 2 ^ 32 else 0 := by
  have hlt := v.isLt
  rw [BitVec.toNat_signExtend, BitVec.msb_eq_decide, BitVec.toNat_setWidth]
  simp only [decide_eq_true_eq]
  rw [Nat.mod_eq_of_lt (by omega : v.toNat < 2 ^ 64)]

/-- The address of a byte behind a pointer. -/
def byteAddr (addr : BitVec 32) (k : ℕ) : Gpr := (addr + BitVec.ofNat 32 k).signExtend 64

/-- The bytes of a block are told apart by their places. -/
theorem byteAddr_inj {addr : BitVec 32} {j k : ℕ} (hj : j < 2 ^ 32) (hk : k < 2 ^ 32) :
    byteAddr addr j = byteAddr addr k ↔ j = k := by
  unfold byteAddr
  rw [signExtend_inj, BitVec.add_right_inj, ← BitVec.toNat_inj, BitVec.toNat_ofNat,
    BitVec.toNat_ofNat, Nat.mod_eq_of_lt hj, Nat.mod_eq_of_lt hk]

/-- The addresses in the upper half: there the memory of the game is. -/
theorem toNat_byteAddr {addr : BitVec 32} {k : ℕ} (h : 2 ^ 31 ≤ addr.toNat)
    (h' : addr.toNat + k < 2 ^ 32) :
    (byteAddr addr k).toNat = addr.toNat + k + (2 ^ 64 - 2 ^ 32) := by
  rw [byteAddr, toNat_signExtend, BitVec.toNat_add, BitVec.toNat_ofNat]
  split_ifs <;> omega

/-! ### Blocks -/

/-- Bytes are stored one behind the other. -/
def storeBytes (addr : BitVec 32) : List (BitVec 8) → Rdram → Rdram
  | [], rdram => rdram
  | b :: bytes, rdram => storeBytes (addr + 1) bytes (rdram.writeB 0 (addr.signExtend 64) b)

section Blocks

variable {addr : BitVec 32} {rdram : Rdram} {a x : Gpr} {bytes : List (BitVec 8)} {k : ℕ}

theorem guest_writeB_apply (rdram : Rdram) (a x : Gpr) (v : BitVec 8) :
    guest (rdram.writeB 0 a v) x = if x = a then v else guest rdram x := by
  have hzero : ∀ y : Gpr, y + 0 = y := fun y => BitVec.add_zero y
  unfold guest Rdram.readB Rdram.writeB
  simp only [Data.memB_inj, hzero]

theorem storeBytes_concat (bytes : List (BitVec 8)) (b : BitVec 8) : ∀ (addr : BitVec 32) rdram,
    storeBytes addr (bytes ++ [b]) rdram =
      (storeBytes addr bytes rdram).writeB 0 (byteAddr addr bytes.length) b := by
  induction bytes with
  | nil => intro addr rdram; simp [storeBytes, byteAddr]
  | cons c bytes ih =>
      intro addr rdram
      unfold byteAddr at ih ⊢
      rw [List.cons_append, storeBytes, ih, storeBytes, List.length_cons, BitVec.ofNat_add,
        BitVec.add_assoc, BitVec.add_comm 1]
      rfl

/-- **A block that has been filled** leaves the other bytes alone. -/
theorem guest_storeBytes_of_ne (h : ∀ k < bytes.length, x ≠ byteAddr addr k) :
    guest (storeBytes addr bytes rdram) x = guest rdram x := by
  induction bytes using List.reverseRecOn with
  | nil => rfl
  | append_singleton bytes b ih =>
      rw [List.length_append, List.length_singleton] at h
      rw [storeBytes_concat, guest_writeB_apply, if_neg (h bytes.length (Nat.lt_succ_self _))]
      exact ih fun k hk => h k (by omega)

/-- **A block that has been filled** holds its bytes. -/
theorem guest_storeBytes (hlen : bytes.length ≤ 2 ^ 32) (hk : k < bytes.length) :
    guest (storeBytes addr bytes rdram) (byteAddr addr k) = bytes.get ⟨k, hk⟩ := by
  induction bytes using List.reverseRecOn with
  | nil => exact absurd hk (Nat.not_lt_zero k)
  | append_singleton bytes b ih =>
      rw [List.length_append, List.length_singleton] at hlen
      have hk' : k < bytes.length + 1 := by simpa using hk
      rw [storeBytes_concat, guest_writeB_apply]
      rcases Nat.lt_succ_iff_lt_or_eq.1 hk' with hlt | rfl
      · rw [if_neg fun he => hlt.ne ((byteAddr_inj (by omega) (by omega)).1 he), ih (by omega) hlt]
        simp [hlt]
      · simp

end Blocks

/-! ### Variables -/

/-- The bytes of a variable with `n` bytes. -/
def InBytes (a : Gpr) (n : ℕ) (x : Gpr) : Prop := (x - a).toNat < n

section Variables

variable {rdram rdram' : Rdram} {a x : Gpr}

theorem inBytes_add (a : Gpr) {n k : ℕ} (hk : k < n) (hn : n ≤ 2 ^ 64) :
    InBytes a n (a + BitVec.ofNat 64 k) := by
  unfold InBytes
  rwa [BigEndian.toNat_add_ofNat_sub a (by omega)]

theorem readW_zero (h : misalignment 4 a = 0) : rdram.readW 0 a = load 4 (guest rdram) a := by
  have hzero : a + 0 = a := BitVec.add_zero _
  rw [readW_eq (by rwa [hzero]), hzero]

theorem readH_zero (h : misalignment 2 a = 0) : readH rdram 0 a = load 2 (guest rdram) a := by
  have hzero : a + 0 = a := BitVec.add_zero _
  rw [readH_eq (by rwa [hzero]), hzero]

/-- A word depends on its bytes only. -/
theorem readW_congr (h : misalignment 4 a = 0)
    (hsame : ∀ x, InBytes a 4 x → guest rdram' x = guest rdram x) :
    rdram'.readW 0 a = rdram.readW 0 a := by
  rw [readW_zero h, readW_zero h]
  exact BigEndian.ofBytes_congr fun k hk => hsame _ (inBytes_add a hk (by decide))

/-- So does a half. -/
theorem readH_congr (h : misalignment 2 a = 0)
    (hsame : ∀ x, InBytes a 2 x → guest rdram' x = guest rdram x) :
    readH rdram' 0 a = readH rdram 0 a := by
  rw [readH_zero h, readH_zero h]
  exact BigEndian.ofBytes_congr fun k hk => hsame _ (inBytes_add a hk (by decide))

theorem readH_writeH (h : misalignment 2 a = 0) (v : BitVec 16) :
    readH (writeH rdram 0 a v) 0 a = v := by
  have hzero : a + 0 = a := BitVec.add_zero _
  rw [readH_zero h, guest_writeH (by rwa [hzero]), hzero]
  exact @BigEndian.load_store 2 64 (guest rdram) a (by decide) v

/-- **A word that is written** leaves the other bytes alone. -/
theorem guest_writeW_of_notMem (h : misalignment 4 a = 0) (v : BitVec 32) (hx : ¬ InBytes a 4 x) :
    guest (rdram.writeW 0 a v) x = guest rdram x := by
  have hzero : a + 0 = a := BitVec.add_zero _
  rw [guest_writeW (by rwa [hzero]), hzero]
  exact if_neg hx

/-- So does a half. -/
theorem guest_writeH_of_notMem (h : misalignment 2 a = 0) (v : BitVec 16) (hx : ¬ InBytes a 2 x) :
    guest (writeH rdram 0 a v) x = guest rdram x := by
  have hzero : a + 0 = a := BitVec.add_zero _
  rw [guest_writeH (by rwa [hzero]), hzero]
  exact if_neg hx

end Variables

end Guest
