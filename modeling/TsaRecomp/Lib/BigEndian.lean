/-
**Memories of bytes, the highest byte first.**

A memory gives a byte for every address.  A number of `n` bytes stands in it with its highest byte
at the lowest address.  Besides the plain accesses there are those of the two halves of a number
that lies across the border of two aligned ones: the left half reaches from an address to the end of
its aligned number, the right half from the start of an aligned number to an address.

Main definitions:

* `BigEndian.ofBytes`, `BigEndian.byte` — a number from its bytes, and its bytes;
* `BigEndian.load`, `BigEndian.store` — the plain accesses;
* `BigEndian.loadLeft`, `BigEndian.loadRight`, `BigEndian.storeLeft`, `BigEndian.storeRight` — the
  accesses of the halves.

Main results:

* `BigEndian.load_store` — a number is loaded as it was stored;
* `BigEndian.loadRight_loadLeft`, `BigEndian.loadLeft_loadRight` — **both halves make the number**;
* `BigEndian.storeRight_storeLeft`, `BigEndian.storeLeft_storeRight` — **both halves are stored**.
-/

import Mathlib.Data.BitVec
import Mathlib.Tactic

set_option relaxedAutoImplicit false
set_option autoImplicit false

namespace BigEndian

/-! ### Numbers and their bytes -/

/-- The number with `n` bytes, the first one highest. -/
def ofBytes (f : ℕ → BitVec 8) : (n : ℕ) → BitVec (8 * n)
  | 0 => 0#0
  | n + 1 => (ofBytes f n ++ f n : BitVec (8 * n + 8))

/-- Byte `k` of a number with `n` bytes, counted from the highest. -/
def byte (n : ℕ) (v : BitVec (8 * n)) (k : ℕ) : BitVec 8 := v.extractLsb' (8 * (n - 1 - k)) 8

variable {f g : ℕ → BitVec 8} {n k : ℕ}

/-- A bit of a number is a bit of one of its bytes. -/
theorem getLsbD_ofBytes {i : ℕ} (hi : i < 8 * n) :
    (ofBytes f n).getLsbD i = (f (n - 1 - i / 8)).getLsbD (i % 8) := by
  induction n generalizing i with
  | zero => omega
  | succ n ih =>
      have hstep : (ofBytes f (n + 1)).getLsbD i =
          if i < 8 then (f n).getLsbD i else (ofBytes f n).getLsbD (i - 8) :=
        BitVec.getLsbD_append
      rw [hstep]
      split_ifs with h8
      · rw [show n + 1 - 1 - i / 8 = n by omega, show i % 8 = i by omega]
      · rw [ih (by omega), show n - 1 - (i - 8) / 8 = n + 1 - 1 - i / 8 by omega,
          show (i - 8) % 8 = i % 8 by omega]

theorem getLsbD_byte (v : BitVec (8 * n)) {i : ℕ} (hi : i < 8) :
    (byte n v k).getLsbD i = v.getLsbD (8 * (n - 1 - k) + i) := by
  simp [byte, hi]

/-- The bytes of a number are those it was made of. -/
@[simp] theorem byte_ofBytes (hk : k < n) : byte n (ofBytes f n) k = f k := by
  refine BitVec.eq_of_getLsbD_eq ?_
  intro i hi
  rw [getLsbD_byte _ hi, getLsbD_ofBytes (by omega)]
  congr 2 <;> omega

/-- A number is made of its bytes. -/
@[simp] theorem ofBytes_byte (v : BitVec (8 * n)) : ofBytes (byte n v) n = v := by
  refine BitVec.eq_of_getLsbD_eq ?_
  intro i hi
  rw [getLsbD_ofBytes hi, getLsbD_byte _ (by omega)]
  congr 1
  omega

/-- The number with one byte. -/
theorem ofBytes_one (f : ℕ → BitVec 8) : ofBytes f 1 = f 0 := by
  refine BitVec.eq_of_getLsbD_eq ?_
  intro i hi
  rw [getLsbD_ofBytes hi, show 1 - 1 - i / 8 = 0 by omega, Nat.mod_eq_of_lt hi]

theorem ofBytes_succ (f : ℕ → BitVec 8) (n : ℕ) :
    ofBytes f (n + 1) = (ofBytes f n ++ f n : BitVec (8 * n + 8)) := rfl

theorem ofBytes_congr (h : ∀ k < n, f k = g k) : ofBytes f n = ofBytes g n := by
  induction n with
  | zero => rfl
  | succ n ih =>
      change (ofBytes f n ++ f n : BitVec (8 * n + 8)) = ofBytes g n ++ g n
      rw [ih fun k hk => h k (by omega), h n (by omega)]

/-- **Numbers are equal if their bytes are.** -/
theorem eq_of_byte_eq {v v' : BitVec (8 * n)} (h : ∀ k < n, byte n v k = byte n v' k) :
    v = v' := by
  rw [← ofBytes_byte v, ← ofBytes_byte v']
  exact ofBytes_congr h

/-! ### The plain accesses -/

variable {w : ℕ} {mem : BitVec w → BitVec 8} {a : BitVec w}

/-- The number at an address. -/
def load (n : ℕ) (mem : BitVec w → BitVec 8) (a : BitVec w) : BitVec (8 * n) :=
  ofBytes (fun k => mem (a + BitVec.ofNat w k)) n

/-- The memory with a number at an address. -/
def store (n : ℕ) (mem : BitVec w → BitVec 8) (a : BitVec w) (v : BitVec (8 * n)) :
    BitVec w → BitVec 8 :=
  fun x => if (x - a).toNat < n then byte n v (x - a).toNat else mem x

@[simp] theorem byte_load (hk : k < n) :
    byte n (load n mem a) k = mem (a + BitVec.ofNat w k) := byte_ofBytes hk

/-- The distance of a byte of a number from its first byte. -/
theorem toNat_add_ofNat_sub (a : BitVec w) (hk : k < 2 ^ w) :
    (a + BitVec.ofNat w k - a).toNat = k := by
  rw [BitVec.add_comm, BitVec.add_sub_cancel, BitVec.toNat_ofNat, Nat.mod_eq_of_lt hk]

/-- **A number is loaded as it was stored.** -/
theorem load_store (hn : n ≤ 2 ^ w) (v : BitVec (8 * n)) : load n (store n mem a v) a = v := by
  refine eq_of_byte_eq ?_
  intro k hk
  rw [byte_load hk, store, toNat_add_ofNat_sub a (by omega), if_pos hk]

/-! ### The accesses of the halves -/

/-- The distance of an address from the aligned one below. -/
def misalignment (n : ℕ) (a : BitVec w) : ℕ := a.toNat % n

theorem misalignment_lt (h0 : 0 < n) (a : BitVec w) : misalignment n a < n := Nat.mod_lt _ h0

/-- The left half of a number at `a`: the bytes up to the end of the aligned number. -/
def loadLeft (n : ℕ) (mem : BitVec w → BitVec 8) (v : BitVec (8 * n)) (a : BitVec w) :
    BitVec (8 * n) :=
  ofBytes (fun k =>
    if k < n - misalignment n a then mem (a + BitVec.ofNat w k) else byte n v k) n

/-- The right half of a number whose last byte is at `a`: the bytes from the start of the aligned
number. -/
def loadRight (n : ℕ) (mem : BitVec w → BitVec 8) (v : BitVec (8 * n)) (a : BitVec w) :
    BitVec (8 * n) :=
  ofBytes (fun k =>
    if k < n - 1 - misalignment n a then byte n v k
    else mem (a - BitVec.ofNat w (n - 1 - k))) n

/-- The left half of a number is stored. -/
def storeLeft (n : ℕ) (mem : BitVec w → BitVec 8) (a : BitVec w) (v : BitVec (8 * n)) :
    BitVec w → BitVec 8 :=
  fun x => if (x - a).toNat < n - misalignment n a then byte n v (x - a).toNat else mem x

/-- The right half of a number is stored. -/
def storeRight (n : ℕ) (mem : BitVec w → BitVec 8) (a : BitVec w) (v : BitVec (8 * n)) :
    BitVec w → BitVec 8 :=
  fun x =>
    if (a - x).toNat ≤ misalignment n a then byte n v (n - 1 - (a - x).toNat) else mem x

/-- The misalignment of the last byte of a number. -/
theorem misalignment_last (hn : n ∣ 2 ^ w) (h0 : 0 < n) :
    misalignment n (a + BitVec.ofNat w (n - 1)) =
      if misalignment n a = 0 then n - 1 else misalignment n a - 1 := by
  have hle : n ≤ 2 ^ w := Nat.le_of_dvd (Nat.two_pow_pos w) hn
  have hlt : a.toNat % n < n := Nat.mod_lt _ h0
  unfold misalignment
  rw [BitVec.toNat_add, BitVec.toNat_ofNat, Nat.mod_eq_of_lt (show n - 1 < 2 ^ w by omega),
    Nat.mod_mod_of_dvd _ hn, Nat.add_mod, Nat.mod_eq_of_lt (show n - 1 < n by omega)]
  split_ifs with hm
  · rw [hm, Nat.zero_add, Nat.mod_eq_of_lt (by omega)]
  · rw [show a.toNat % n + (n - 1) = a.toNat % n - 1 + n by omega, Nat.add_mod_right,
      Nat.mod_eq_of_lt (by omega)]

/-- A byte of a number, from its last byte. -/
theorem last_sub (hk : k < n) : a + BitVec.ofNat w (n - 1) - BitVec.ofNat w (n - 1 - k) =
    a + BitVec.ofNat w k := by
  rw [show n - 1 = (n - 1 - k) + k by omega, BitVec.ofNat_add,
    show n - 1 - k + k - k = n - 1 - k by omega]
  ring

/-- **Both halves make the number**, whatever the register held. -/
theorem loadRight_loadLeft (hn : n ∣ 2 ^ w) (v : BitVec (8 * n)) :
    loadRight n mem (loadLeft n mem v a) (a + BitVec.ofNat w (n - 1)) = load n mem a := by
  refine ofBytes_congr ?_
  intro k hk
  rw [misalignment_last hn (by omega)]
  split_ifs with hm h h
  · omega
  · rw [last_sub hk]
  · rw [loadLeft, byte_ofBytes hk, if_pos (by omega)]
  · rw [last_sub hk]

/-- **In the other order**, too. -/
theorem loadLeft_loadRight (hn : n ∣ 2 ^ w) (v : BitVec (8 * n)) :
    loadLeft n mem (loadRight n mem v (a + BitVec.ofNat w (n - 1))) a = load n mem a := by
  refine ofBytes_congr ?_
  intro k hk
  split_ifs with h
  · rfl
  · rw [loadRight, byte_ofBytes hk, misalignment_last hn (by omega), if_neg, last_sub hk]
    have hlt := misalignment_lt (show 0 < n by omega) a
    split_ifs <;> omega

/-- An address, from the last byte of a number and from its first one. -/
theorem last_sub_toNat (hn : n ≤ 2 ^ w) {x : BitVec w} {m : ℕ} (hm : m < n) :
    (a + BitVec.ofNat w (n - 1) - x).toNat ≤ m ↔
      n - 1 - m ≤ (x - a).toNat ∧ (x - a).toNat < n := by
  obtain ⟨d, rfl⟩ : ∃ d, x = a + d := ⟨x - a, by ring⟩
  have hleft : a + BitVec.ofNat w (n - 1) - (a + d) = BitVec.ofNat w (n - 1) - d := by ring
  have hright : a + d - a = d := by ring
  have hd := d.isLt
  rw [hleft, hright, BitVec.toNat_sub, BitVec.toNat_ofNat,
    Nat.mod_eq_of_lt (show n - 1 < 2 ^ w by omega)]
  rcases Nat.lt_or_ge d.toNat n with hlt | hge
  · rw [show 2 ^ w - d.toNat + (n - 1) = n - 1 - d.toNat + 2 ^ w by omega, Nat.add_mod_right,
      Nat.mod_eq_of_lt (by omega)]
    omega
  · rw [Nat.mod_eq_of_lt (by omega)]
    omega

theorem last_sub_toNat_eq (hn : n ≤ 2 ^ w) {x : BitVec w} (hx : (x - a).toNat < n) :
    n - 1 - (a + BitVec.ofNat w (n - 1) - x).toNat = (x - a).toNat := by
  have h := (last_sub_toNat hn (x := x) (m := n - 1 - (x - a).toNat) (a := a) (by omega)).2
    ⟨by omega, hx⟩
  have h' := (last_sub_toNat hn (x := x) (m := (a + BitVec.ofNat w (n - 1) - x).toNat) (a := a)
    (by omega)).1 le_rfl
  omega

/-- The right half of a number, by its first byte. -/
theorem storeRight_apply (hn : n ∣ 2 ^ w) (h0 : 0 < n) (v : BitVec (8 * n)) (x : BitVec w) :
    storeRight n mem (a + BitVec.ofNat w (n - 1)) v x =
      if (if misalignment n a = 0 then 0 else n - misalignment n a) ≤ (x - a).toNat ∧
          (x - a).toNat < n then byte n v (x - a).toNat
      else mem x := by
  have hle : n ≤ 2 ^ w := Nat.le_of_dvd (Nat.two_pow_pos w) hn
  have hlt := misalignment_lt h0 a
  have hm := misalignment_lt h0 (a + BitVec.ofNat w (n - 1))
  have hbound : n - 1 - misalignment n (a + BitVec.ofNat w (n - 1)) =
      if misalignment n a = 0 then 0 else n - misalignment n a := by
    rw [misalignment_last hn h0]
    split_ifs <;> omega
  unfold storeRight
  simp only [last_sub_toNat hle hm, hbound]
  split_ifs with h₁ h₂ h₂
  · rw [last_sub_toNat_eq hle h₂.2]
  · rfl
  · rw [last_sub_toNat_eq hle h₂.2]
  · rfl

/-- **Both halves are stored.** -/
theorem storeRight_storeLeft (hn : n ∣ 2 ^ w) (h0 : 0 < n) (v : BitVec (8 * n)) :
    storeRight n (storeLeft n mem a v) (a + BitVec.ofNat w (n - 1)) v = store n mem a v := by
  funext x
  have hlt := misalignment_lt h0 a
  rw [storeRight_apply hn h0]
  unfold store storeLeft
  split_ifs <;> first | rfl | omega

/-- **In the other order**, too. -/
theorem storeLeft_storeRight (hn : n ∣ 2 ^ w) (h0 : 0 < n) (v : BitVec (8 * n)) :
    storeLeft n (storeRight n mem (a + BitVec.ofNat w (n - 1)) v) a v = store n mem a v := by
  funext x
  have hlt := misalignment_lt h0 a
  unfold storeLeft
  rw [storeRight_apply hn h0]
  unfold store
  split_ifs <;> first | rfl | omega

/-! ### By masks and shifts -/

/-- A number moved down behind the highest bytes of another one. -/
theorem or_ushiftRight (v u : BitVec (8 * n)) (m : ℕ) :
    v &&& ~~~(BitVec.allOnes (8 * n) >>> (8 * m)) ||| u >>> (8 * m) =
      ofBytes (fun k => if k < m then byte n v k else byte n u (k - m)) n := by
  refine BitVec.eq_of_getLsbD_eq ?_
  intro i hi
  rw [getLsbD_ofBytes hi, BitVec.getLsbD_or, BitVec.getLsbD_and, BitVec.getLsbD_not,
    BitVec.getLsbD_ushiftRight, BitVec.getLsbD_ushiftRight, BitVec.getLsbD_allOnes]
  split_ifs with h
  · rw [getLsbD_byte _ (by omega), BitVec.getLsbD_of_ge u _ (by omega),
      show 8 * (n - 1 - (n - 1 - i / 8)) + i % 8 = i by omega]
    simp [hi, show ¬ 8 * m + i < 8 * n by omega]
  · rw [getLsbD_byte _ (by omega),
      show 8 * (n - 1 - (n - 1 - i / 8 - m)) + i % 8 = 8 * m + i by omega]
    simp [hi, show 8 * m + i < 8 * n by omega]

/-- A number moved up before the lowest bytes of another one. -/
theorem or_shiftLeft (v u : BitVec (8 * n)) (m : ℕ) :
    v &&& ~~~(BitVec.allOnes (8 * n) <<< (8 * m)) ||| u <<< (8 * m) =
      ofBytes (fun k => if k < n - m then byte n u (k + m) else byte n v k) n := by
  refine BitVec.eq_of_getLsbD_eq ?_
  intro i hi
  rw [getLsbD_ofBytes hi, BitVec.getLsbD_or, BitVec.getLsbD_and, BitVec.getLsbD_not,
    BitVec.getLsbD_shiftLeft, BitVec.getLsbD_shiftLeft, BitVec.getLsbD_allOnes]
  split_ifs with h
  · rw [getLsbD_byte _ (by omega),
      show 8 * (n - 1 - (n - 1 - i / 8 + m)) + i % 8 = i - 8 * m by omega]
    simp [hi, show ¬ i < 8 * m by omega, show i - 8 * m < 8 * n by omega]
  · rw [getLsbD_byte _ (by omega),
      show 8 * (n - 1 - (n - 1 - i / 8)) + i % 8 = i by omega]
    simp [hi, show i < 8 * m by omega]

/-- What a mask leaves of a number, and what it takes away. -/
theorem and_not (a m : BitVec w) : a &&& ~~~m = a - (a &&& m) := by
  have hzero : (a &&& ~~~m) &&& (a &&& m) = 0#w := by
    refine BitVec.eq_of_getLsbD_eq ?_
    intro i _
    simp
    tauto
  have hsum : (a &&& ~~~m) + (a &&& m) = a := by
    rw [BitVec.add_eq_or_of_and_eq_zero _ _ hzero]
    refine BitVec.eq_of_getLsbD_eq ?_
    intro i hi
    rw [BitVec.getLsbD_or, BitVec.getLsbD_and, BitVec.getLsbD_and, BitVec.getLsbD_not]
    cases a.getLsbD i <;> cases m.getLsbD i <;> simp [hi]
  exact eq_sub_of_add_eq hsum

/-- The start of the aligned number around an address. -/
def aligned (n : ℕ) (a : BitVec w) : BitVec w := a - BitVec.ofNat w (misalignment n a)

/-- The start of an aligned number is aligned. -/
theorem misalignment_aligned (a : BitVec w) : misalignment n (aligned n a) = 0 := by
  have hle : a.toNat % n ≤ a.toNat := Nat.mod_le _ _
  have hlt := a.isLt
  have hm : (BitVec.ofNat w (a.toNat % n)).toNat = a.toNat % n := by
    rw [BitVec.toNat_ofNat, Nat.mod_eq_of_lt (by omega)]
  unfold aligned misalignment
  rw [BitVec.toNat_sub_of_le (BitVec.le_def.2 (by rwa [hm])), hm]
  exact Nat.sub_mod_eq_zero_of_mod_eq (Nat.mod_mod _ _).symm

theorem aligned_add_misalignment (a : BitVec w) :
    aligned n a + BitVec.ofNat w (misalignment n a) = a := BitVec.sub_add_cancel _ _

/-- The left half of a number, from the aligned number and the register. -/
theorem loadLeft_eq (v : BitVec (8 * n)) :
    v &&& ~~~(BitVec.allOnes (8 * n) <<< (8 * misalignment n a)) |||
      load n mem (aligned n a) <<< (8 * misalignment n a) = loadLeft n mem v a := by
  rw [or_shiftLeft]
  refine ofBytes_congr ?_
  intro k hk
  split_ifs with h
  · rw [byte_load (by omega), BitVec.ofNat_add, BitVec.add_comm (BitVec.ofNat w k),
      ← BitVec.add_assoc, aligned_add_misalignment]
  · rfl

/-- The right half of a number, from the aligned number and the register. -/
theorem loadRight_eq (v : BitVec (8 * n)) :
    v &&& ~~~(BitVec.allOnes (8 * n) >>> (8 * (n - 1 - misalignment n a))) |||
      load n mem (aligned n a) >>> (8 * (n - 1 - misalignment n a)) = loadRight n mem v a := by
  rw [or_ushiftRight]
  refine ofBytes_congr ?_
  intro k hk
  have hlt := misalignment_lt (show 0 < n by omega) a
  split_ifs with h
  · rfl
  · rw [byte_load (by omega)]
    congr 1
    have hsum : BitVec.ofNat w (misalignment n a) =
        BitVec.ofNat w (k - (n - 1 - misalignment n a)) + BitVec.ofNat w (n - 1 - k) := by
      rw [← BitVec.ofNat_add]
      congr 1
      omega
    unfold aligned
    rw [hsum]
    ring

/-- An address, by its distance from the start of the aligned number. -/
theorem exists_aligned_add (x : BitVec w) : ∃ d, x = aligned n a + d ∧
    x - a = d - BitVec.ofNat w (misalignment n a) ∧
    a - x = BitVec.ofNat w (misalignment n a) - d := by
  refine ⟨x - aligned n a, by ring, ?_, ?_⟩
  · unfold aligned
    ring
  · unfold aligned
    ring

/-- The left half of a number is stored with the aligned number. -/
theorem storeLeft_eq (hn : n ≤ 2 ^ w) (h0 : 0 < n) (v : BitVec (8 * n)) :
    store n mem (aligned n a)
      (load n mem (aligned n a) &&& ~~~(BitVec.allOnes (8 * n) >>> (8 * misalignment n a)) |||
        v >>> (8 * misalignment n a)) = storeLeft n mem a v := by
  funext x
  obtain ⟨d, rfl, hleft, -⟩ := @exists_aligned_add n w a x
  have hlt := misalignment_lt h0 a
  have hd : aligned n a + d - aligned n a = d := by ring
  have hm : (BitVec.ofNat w (misalignment n a)).toNat = misalignment n a := by
    rw [BitVec.toNat_ofNat, Nat.mod_eq_of_lt (by omega)]
  rw [or_ushiftRight]
  unfold store storeLeft
  rw [hleft, hd]
  rcases Nat.lt_or_ge d.toNat (misalignment n a) with hbelow | hbelow
  · have hfar : (d - BitVec.ofNat w (misalignment n a)).toNat =
        2 ^ w - (misalignment n a - d.toNat) := by
      rw [BitVec.toNat_sub_of_lt (BitVec.lt_def.2 (by rwa [hm])), hm]
    rw [if_pos (by omega), byte_ofBytes (by omega), if_pos hbelow, byte_load (by omega),
      if_neg (by omega), BitVec.ofNat_toNat, BitVec.setWidth_eq]
  · have hnear : (d - BitVec.ofNat w (misalignment n a)).toNat =
        d.toNat - misalignment n a := by
      rw [BitVec.toNat_sub_of_le (BitVec.le_def.2 (by rwa [hm])), hm]
    rw [hnear]
    split_ifs with h₁ h₂ h₂
    · rw [byte_ofBytes h₁, if_neg (by omega)]
    · omega
    · omega
    · rfl

/-- The right half of a number is stored with the aligned number. -/
theorem storeRight_eq (hn : n ≤ 2 ^ w) (h0 : 0 < n) (v : BitVec (8 * n)) :
    store n mem (aligned n a)
      (load n mem (aligned n a) &&&
          ~~~(BitVec.allOnes (8 * n) <<< (8 * (n - 1 - misalignment n a))) |||
        v <<< (8 * (n - 1 - misalignment n a))) = storeRight n mem a v := by
  funext x
  obtain ⟨d, rfl, -, hright⟩ := @exists_aligned_add n w a x
  have hlt := misalignment_lt h0 a
  have hd : aligned n a + d - aligned n a = d := by ring
  have hm : (BitVec.ofNat w (misalignment n a)).toNat = misalignment n a := by
    rw [BitVec.toNat_ofNat, Nat.mod_eq_of_lt (by omega)]
  rw [or_shiftLeft]
  unfold store storeRight
  rw [hright, hd]
  rcases Nat.lt_or_ge (misalignment n a) d.toNat with habove | habove
  · have hfar : (BitVec.ofNat w (misalignment n a) - d).toNat =
        2 ^ w - (d.toNat - misalignment n a) := by
      rw [BitVec.toNat_sub_of_lt (BitVec.lt_def.2 (by rwa [hm])), hm]
    have hdlt := d.isLt
    rw [if_neg (show ¬ (BitVec.ofNat w (misalignment n a) - d).toNat ≤ misalignment n a by omega)]
    split_ifs with h
    · rw [byte_ofBytes h, if_neg (by omega), byte_load h, BitVec.ofNat_toNat, BitVec.setWidth_eq]
    · rfl
  · have hnear : (BitVec.ofNat w (misalignment n a) - d).toNat =
        misalignment n a - d.toNat := by
      rw [BitVec.toNat_sub_of_le (BitVec.le_def.2 (by rwa [hm])), hm]
    rw [hnear, if_pos (by omega), byte_ofBytes (by omega), if_pos (by omega), if_pos (by omega)]
    congr 1
    omega

/-! ### A number in two parts -/

/-- The bytes of a number in two parts. -/
theorem byte_append {m : ℕ} (u : BitVec (8 * n)) (v : BitVec (8 * m)) (hk : k < n + m) :
    byte (n + m) ((u ++ v).cast (by omega)) k =
      if k < n then byte n u k else byte m v (k - n) := by
  refine BitVec.eq_of_getLsbD_eq ?_
  intro i hi
  rw [getLsbD_byte _ hi, BitVec.getLsbD_cast, BitVec.getLsbD_append]
  split_ifs with h₁ h₂ h₂
  · omega
  · rw [getLsbD_byte _ hi, show 8 * (n + m - 1 - k) + i = 8 * (m - 1 - (k - n)) + i by omega]
  · rw [getLsbD_byte _ hi, show 8 * (n + m - 1 - k) + i - 8 * m = 8 * (n - 1 - k) + i by omega]
  · omega

/-- A number is loaded in two parts. -/
theorem load_add (m : ℕ) : load (n + m) mem a =
    (load n mem a ++ load m mem (a + BitVec.ofNat w n)).cast (by omega) := by
  refine eq_of_byte_eq ?_
  intro k hk
  rw [byte_load hk, byte_append _ _ hk]
  split_ifs with h
  · rw [byte_load h]
  · rw [byte_load (by omega), BitVec.add_assoc, ← BitVec.ofNat_add,
      show n + (k - n) = k by omega]

/-- A number is stored in two parts. -/
theorem store_store {m : ℕ} (u : BitVec (8 * n)) (v : BitVec (8 * m)) :
    store n (store m mem (a + BitVec.ofNat w n) v) a u =
      store (n + m) mem a ((u ++ v).cast (by omega)) := by
  funext x
  obtain ⟨d, rfl⟩ : ∃ d, x = a + d := ⟨x - a, by ring⟩
  have hd : a + d - a = d := by ring
  have hd' : a + d - (a + BitVec.ofNat w n) = d - BitVec.ofNat w n := by ring
  unfold store
  rw [hd, hd']
  rcases Nat.lt_or_ge d.toNat n with hlt | hge
  · rw [if_pos hlt, if_pos (by omega), byte_append _ _ (by omega), if_pos hlt]
  · have hlast := d.isLt
    have hn' : (BitVec.ofNat w n).toNat = n := by
      rw [BitVec.toNat_ofNat, Nat.mod_eq_of_lt (by omega)]
    have hsub : (d - BitVec.ofNat w n).toNat = d.toNat - n := by
      rw [BitVec.toNat_sub_of_le (BitVec.le_def.2 (by rwa [hn'])), hn']
    rw [if_neg (by omega), hsub]
    split_ifs with h₁ h₂ h₂
    · rw [byte_append _ _ h₂, if_neg (by omega)]
    · omega
    · omega
    · rfl

end BigEndian
