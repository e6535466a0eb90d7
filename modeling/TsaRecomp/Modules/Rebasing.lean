/-
**Rebasing an overlay.**

An overlay is linked at an address in KUSEG and loaded at another one.  `relocs.h` lists the words
of its image that hold addresses, and `overlay_apply_relocations` adds the distance of the two to
each of them.  The words are changed in place one after the other, by as many rounds as the entry of
the table says.

The number of rounds is written next to the list by hand; for two of the entries it is larger than
the list is long, and the loop goes on behind the end of the list.

Main definitions:

* `Modules.Rebasing.overlayApplyRelocations` — the function, with its table;
* `Modules.Rebasing.image` — the bytes of an image at an address;
* `Modules.Rebasing.Rebases` — **rebasing is exact, and composes**;
* `Modules.Rebasing.RelocInfo.Counted` — the entries that have as many rounds as offsets.

Main results:

* `Modules.Rebasing.relocLoop_eq` — the loop changes places that have nothing in common;
* `Modules.Rebasing.added_of_counted` — **what the function does** to the words and to the others;
* `Modules.Rebasing.rebases_iff` — rebasing is exact for these entries and for no others;
* `Modules.Rebasing.counted_gRelocs` — all entries of the table but two.
-/

import TsaRecomp.Lib.Places
import TsaRecomp.Modules.Evinfo

set_option relaxedAutoImplicit false
set_option autoImplicit false

namespace Modules

namespace Rebasing

open Data (Rdram memW kRdramBase)

/-! ### The function -/

/-- `RelocInfo`, with the list that `offsets` leads to. -/
structure RelocInfo where
  offsets : Option (List (BitVec 32))
  count : BitVec 16
  originalVaddr : BitVec 32

namespace RelocInfo

variable (info : RelocInfo)

/-- The offsets of the entry. -/
def listed : List (BitVec 32) := info.offsets.getD []

/-- The rounds of `for (int i = 0; i < info->count; i++)`: `count` is an `s16`. -/
def rounds : ℕ := info.count.toInt.toNat

end RelocInfo

/-- The word at an offset from the load address. -/
def valueAddr (loadAddr offset : BitVec 32) : BitVec 64 := (loadAddr + offset).signExtend 64

/-- The loop, with the rounds that are left: nothing, behind the end of the list. -/
def relocLoop (offsets : List (BitVec 32)) (loadAddr delta : BitVec 32) :
    ℕ → ℕ → Rdram → Option Rdram
  | 0, _, rdram => some rdram
  | n + 1, i, rdram => do
      let offset ← offsets[i]?
      let value := rdram.readW 0 (valueAddr loadAddr offset)
      relocLoop offsets loadAddr delta n (i + 1)
        (rdram.writeW 0 (valueAddr loadAddr offset) (value + delta))

/-- `overlay_apply_relocations`, with `g_relocs`. -/
def overlayApplyRelocations (table : ℕ → RelocInfo) (fileId : ℕ) (loadAddr : BitVec 32)
    (rdram : Rdram) : Option Rdram :=
  if relocTableSize ≤ fileId then some rdram
  else
    let info := table fileId
    match info.offsets with
    | none => some rdram
    | some offsets =>
        if info.count = 0 then some rdram
        else
          let delta := loadAddr - info.originalVaddr
          if delta = 0 then some rdram
          else relocLoop offsets loadAddr delta info.rounds 0 rdram

/-- The table with another original address for a file. -/
def withOriginal (table : ℕ → RelocInfo) (fileId : ℕ) (vaddr : BitVec 32) : ℕ → RelocInfo :=
  Function.update table fileId { table fileId with originalVaddr := vaddr }

/-! ### The table -/

/-- The lengths of the lists in `relocs.h`. -/
def numOffsets : Overlay → ℕ
  | .actorMain => 2179 | .itemMain => 123 | .collMain => 50 | .mobjMain => 1592
  | .blastFlame => 41 | .blastIce => 41 | .blastWind => 41 | .blastGround => 46
  | .blastElec => 52 | .blastLight => 41 | .blastDark => 41 | .enemyWorld1 => 455
  | .enemyWorld2 => 446 | .enemyWorld3 => 455 | .enemyWorld4 => 382 | .enemyWorld5 => 360
  | .enemyWorld6 => 431 | .enemyWorld7 => 411 | .enemyWorld8 => 480 | .enemyBattle => 392
  | .bossDemon => 18 | .bossDevil => 28 | .bossAngel => 23 | .menuCard => 17 | .menuTitle => 35
  | .menuFile => 22 | .menuBattle => 56 | .menuCustom => 32 | .menuStage => 88 | .demoStory => 41
  | .demoGuide => 5 | .stageWorld1 => 28 | .stageWorld2 => 45 | .stageWorld3 => 54
  | .stageWorld4 => 71 | .stageWorld5 => 37 | .stageWorld6 => 69 | .stageWorld7 => 31
  | .stageWorld8 => 108

/-- The list of an overlay. -/
def offsetsOf (g : Game) (overlay : Overlay) : List (BitVec 32) :=
  (List.range (numOffsets overlay)).map (g.offset overlay)

/-- `g_relocs` -/
def gRelocTable (g : Game) (fileId : ℕ) : RelocInfo where
  offsets := (gRelocs fileId).offsets.map (offsetsOf g)
  count := BitVec.ofNat 16 (gRelocs fileId).count
  originalVaddr := (gRelocs fileId).originalVaddr

/-- `s_relocs_ovl_demo_story` -/
def demoStoryOffsets : List (BitVec 32) :=
  [0x72D4, 0x72DC, 0x72E4, 0x72EC, 0x72F4, 0x72FC, 0x7304, 0x730C, 0x7314, 0x731C, 0x7324, 0x732C,
   0x7334, 0x733C, 0x7344, 0x734C, 0x7354, 0x735C, 0x7364, 0x736C, 0x7374, 0x737C, 0x7384, 0x738C,
   0x7394, 0x76AC, 0x76B4, 0x76BC, 0x76C4, 0x76D8, 0x76EC, 0x7930, 0x7934, 0x7938, 0x793C, 0x7940,
   0x7948, 0x794C, 0x7950, 0x7954, 0x7958]

/-! ### What the function is for -/

/-- A byte of the image at an address, in the order of the host. -/
def image (rdram : Rdram) (loadAddr : BitVec 32) (k : ℕ) : BitVec 8 :=
  rdram (memW (BitVec.ofNat 64 k) (loadAddr.signExtend 64))

/-- Two images of `n` bytes are the same. -/
def SameImage (n : ℕ) (rdram : Rdram) (loadAddr : BitVec 32) (rdram' : Rdram)
    (loadAddr' : BitVec 32) : Prop :=
  ∀ k < n, image rdram loadAddr k = image rdram' loadAddr' k

/-- `n` bytes at an address, all of them in the same half of the address space. -/
def Holds (n : ℕ) (loadAddr : BitVec 32) : Prop := loadAddr.toNat % 2 ^ 31 + n ≤ 2 ^ 31

/-- Distinct words, that an image of `n` bytes contains. -/
structure Listing (info : RelocInfo) (n : ℕ) : Prop where
  size : n ≤ 2 ^ 31
  nodup : info.listed.Nodup
  aligned : ∀ offset ∈ info.listed, 4 ∣ offset.toNat
  inside : ∀ offset ∈ info.listed, offset.toNat + 4 ≤ n

/-- A byte belongs to one of the words. -/
def InWords (loadAddr : BitVec 32) (offsets : List (BitVec 32)) (i : BitVec 64) : Prop :=
  ∃ offset ∈ offsets, i - memW 0 (valueAddr loadAddr offset) < 4

/-- `delta` is added to each of the words, and no other byte is changed. -/
structure Added (loadAddr delta : BitVec 32) (offsets : List (BitVec 32)) (rdram rdram' : Rdram) :
    Prop where
  word : ∀ offset ∈ offsets, rdram'.readW 0 (valueAddr loadAddr offset) =
    rdram.readW 0 (valueAddr loadAddr offset) + delta
  other : ∀ i, ¬ InWords loadAddr offsets i → rdram' i = rdram i

/-- **Rebasing is exact, and composes**, for a file and for images of `n` bytes. -/
structure Rebases (table : ℕ → RelocInfo) (fileId n : ℕ) : Prop where
  /-- The distance is added to each listed word, and no other byte is changed. -/
  exact : ∀ loadAddr, Holds n loadAddr → ∀ rdram, ∃ rdram',
    overlayApplyRelocations table fileId loadAddr rdram = some rdram' ∧
      Added loadAddr (loadAddr - (table fileId).originalVaddr) (table fileId).listed rdram rdram'
  /-- A pointer into the overlay leads to the same place of the overlay. -/
  pointer : ∀ loadAddr, Holds n loadAddr → ∀ rdram rdram',
    overlayApplyRelocations table fileId loadAddr rdram = some rdram' →
      ∀ offset ∈ (table fileId).listed, ∀ target,
        rdram.readW 0 (valueAddr loadAddr offset) = (table fileId).originalVaddr + target →
          rdram'.readW 0 (valueAddr loadAddr offset) = loadAddr + target
  /-- A second address, by way of the first or directly. -/
  compose : ∀ loadAddr loadAddr', Holds n loadAddr → Holds n loadAddr' → ∀ rdram rdram₁ rdram₂
      direct, overlayApplyRelocations table fileId loadAddr rdram = some rdram₁ →
    SameImage n rdram₂ loadAddr' rdram₁ loadAddr → SameImage n direct loadAddr' rdram loadAddr →
      ∃ rdram₂' direct', overlayApplyRelocations (withOriginal table fileId loadAddr) fileId
          loadAddr' rdram₂ = some rdram₂' ∧
        overlayApplyRelocations table fileId loadAddr' direct = some direct' ∧
          SameImage n rdram₂' loadAddr' direct' loadAddr'
  /-- And back to the original address. -/
  back : ∀ loadAddr, Holds n loadAddr → Holds n (table fileId).originalVaddr →
    ∀ rdram rdram₁ rdram₂, overlayApplyRelocations table fileId loadAddr rdram = some rdram₁ →
      SameImage n rdram₂ (table fileId).originalVaddr rdram₁ loadAddr →
        ∃ rdram₂', overlayApplyRelocations (withOriginal table fileId loadAddr) fileId
            (table fileId).originalVaddr rdram₂ = some rdram₂' ∧
          SameImage n rdram₂' (table fileId).originalVaddr rdram loadAddr

/-- **The entry is counted**: there is a round for each of its offsets. -/
def RelocInfo.Counted (info : RelocInfo) : Prop :=
  info.offsets = none ∨ info.rounds = info.listed.length

/-! ### Words -/

section Words

variable {rdram rdram' : Rdram} {offset reg reg' : BitVec 64} {v : BitVec 32}

theorem append_eq_append {m n : ℕ} {a a' : BitVec m} {b b' : BitVec n} :
    a ++ b = a' ++ b' ↔ a = a' ∧ b = b' := by
  constructor
  · intro h
    have hb : b = b' := by
      have hlow := congrArg (BitVec.setWidth n) h
      simpa [BitVec.setWidth_append] using hlow
    subst hb
    exact ⟨(BitVec.append_left_inj b).1 h, rfl⟩
  · rintro ⟨rfl, rfl⟩
    rfl

/-- Words are the same if their bytes are, and the other way round. -/
theorem bytes_eq_iff {f g : ℕ → BitVec 8} :
    f 3 ++ f 2 ++ f 1 ++ f 0 = g 3 ++ g 2 ++ g 1 ++ g 0 ↔ ∀ k < 4, f k = g k := by
  rw [append_eq_append, append_eq_append, append_eq_append]
  constructor
  · rintro ⟨⟨⟨h3, h2⟩, h1⟩, h0⟩ k hk
    interval_cases k
    · exact h0
    · exact h1
    · exact h2
    · exact h3
  · intro h
    exact ⟨⟨⟨h 3 (by decide), h 2 (by decide)⟩, h 1 (by decide)⟩, h 0 (by decide)⟩

/-- The words of two memories. -/
theorem readW_eq_iff : rdram'.readW 0 reg' = rdram.readW 0 reg ↔ ∀ k < 4,
    rdram' (memW 0 reg' + BitVec.ofNat 64 k) = rdram (memW 0 reg + BitVec.ofNat 64 k) :=
  @bytes_eq_iff (fun k => rdram' (memW 0 reg' + BitVec.ofNat 64 k)) fun k =>
    rdram (memW 0 reg + BitVec.ofNat 64 k)

/-- The other bytes are left alone. -/
theorem writeW_other {i : BitVec 64} (h : ¬ i - memW offset reg < 4) :
    rdram.writeW offset reg v i = rdram i := if_neg h

end Words

theorem toNat_valueAddr (loadAddr offset : BitVec 32) : (valueAddr loadAddr offset).toNat =
    (loadAddr.toNat + offset.toNat) % 2 ^ 32 +
      if 2 ^ 31 ≤ (loadAddr.toNat + offset.toNat) % 2 ^ 32 then 2 ^ 64 - 2 ^ 32 else 0 := by
  rw [valueAddr, Guest.toNat_signExtend, BitVec.toNat_add]

/-- Two listed words have no byte in common. -/
theorem words_apart {loadAddr offset offset' : BitVec 32} (hne : offset ≠ offset')
    (h : 4 ∣ offset.toNat) (h' : 4 ∣ offset'.toNat) {k : ℕ} (hk : k < 4) :
    ¬ memW 0 (valueAddr loadAddr offset') + BitVec.ofNat 64 k - memW 0 (valueAddr loadAddr offset) <
      4 := by
  have hne' : offset.toNat ≠ offset'.toNat := fun e => hne (BitVec.eq_of_toNat_eq e)
  have hlt := offset.isLt
  have hlt' := offset'.isLt
  have hsub : memW 0 (valueAddr loadAddr offset') + BitVec.ofNat 64 k -
      memW 0 (valueAddr loadAddr offset) =
        valueAddr loadAddr offset' + BitVec.ofNat 64 k - valueAddr loadAddr offset := by
    unfold memW
    ring
  rw [hsub, BitVec.lt_def, BitVec.toNat_sub, BitVec.toNat_add, toNat_valueAddr, toNat_valueAddr,
    BitVec.toNat_ofNat, show (4 : BitVec 64).toNat = 4 from rfl]
  split_ifs <;> omega

/-! ### Images -/

/-- The place of a byte of a word in the image. -/
theorem memW_valueAddr {loadAddr offset : BitVec 32} {n k : ℕ} (hn : Holds n loadAddr)
    (ho : offset.toNat + 4 ≤ n) : memW 0 (valueAddr loadAddr offset) + BitVec.ofNat 64 k =
      memW (BitVec.ofNat 64 (offset.toNat + k)) (loadAddr.signExtend 64) := by
  have haddr : valueAddr loadAddr offset =
      loadAddr.signExtend 64 + BitVec.ofNat 64 offset.toNat := by
    unfold Holds at hn
    refine BitVec.eq_of_toNat_eq ?_
    rw [toNat_valueAddr, BitVec.toNat_add, BitVec.toNat_signExtend, BitVec.msb_eq_decide,
      BitVec.toNat_setWidth, BitVec.toNat_ofNat]
    simp only [decide_eq_true_eq]
    have hlt := loadAddr.isLt
    split_ifs <;> omega
  unfold memW
  rw [haddr, BitVec.ofNat_add]
  ring

theorem image_add {rdram : Rdram} {loadAddr offset : BitVec 32} {n k : ℕ} (hn : Holds n loadAddr)
    (ho : offset.toNat + 4 ≤ n) : image rdram loadAddr (offset.toNat + k) =
      rdram (memW 0 (valueAddr loadAddr offset) + BitVec.ofNat 64 k) := by
  rw [memW_valueAddr hn ho]
  rfl

/-- The word at an offset of an image. -/
def word (img : ℕ → BitVec 8) (offset : BitVec 32) : BitVec 32 :=
  img (offset.toNat + 3) ++ img (offset.toNat + 2) ++ img (offset.toNat + 1) ++ img offset.toNat

theorem readW_eq_word {rdram : Rdram} {loadAddr offset : BitVec 32} {n : ℕ}
    (hn : Holds n loadAddr) (ho : offset.toNat + 4 ≤ n) :
    rdram.readW 0 (valueAddr loadAddr offset) = word (image rdram loadAddr) offset := by
  have hfirst := @image_add rdram loadAddr offset n 0 hn ho
  rw [Nat.add_zero] at hfirst
  unfold word
  rw [image_add hn ho, image_add hn ho, image_add hn ho, hfirst]
  rfl

/-- **An image is shifted**: `delta` is added to its words, and its other bytes are the same. -/
structure Shifted (n : ℕ) (offsets : List (BitVec 32)) (delta : BitVec 32)
    (img img' : ℕ → BitVec 8) : Prop where
  word : ∀ offset ∈ offsets, word img' offset = word img offset + delta
  other : ∀ k < n, (∀ offset ∈ offsets, ¬ (offset.toNat ≤ k ∧ k < offset.toNat + 4)) →
    img' k = img k

namespace Shifted

variable {n : ℕ} {offsets : List (BitVec 32)} {delta delta' : BitVec 32}
  {img img' img₁ img₂ : ℕ → BitVec 8}

theorem refl (img : ℕ → BitVec 8) : Shifted n offsets 0 img img :=
  ⟨fun _ _ => (BitVec.add_zero _).symm, fun _ _ _ => rfl⟩

/-- **Shifts add up.** -/
theorem trans (h : Shifted n offsets delta img img') (h' : Shifted n offsets delta' img' img₁) :
    Shifted n offsets (delta + delta') img img₁ where
  word offset ho := by rw [h'.word offset ho, h.word offset ho, BitVec.add_assoc]
  other k hk hout := (h'.other k hk hout).trans (h.other k hk hout)

/-- A shift leaves nothing open. -/
theorem unique (h₁ : Shifted n offsets delta img img₁) (h₂ : Shifted n offsets delta img img₂) :
    ∀ k < n, img₁ k = img₂ k := by
  intro k hk
  by_cases hin : ∃ offset ∈ offsets, offset.toNat ≤ k ∧ k < offset.toNat + 4
  · obtain ⟨offset, ho, hle, hlt⟩ := hin
    have hword := (h₁.word offset ho).trans (h₂.word offset ho).symm
    obtain ⟨j, rfl⟩ := Nat.exists_eq_add_of_le hle
    exact (@bytes_eq_iff (fun j => img₁ (offset.toNat + j)) fun j => img₂ (offset.toNat + j)).1
      hword j (by omega)
  · have hout : ∀ offset ∈ offsets, ¬ (offset.toNat ≤ k ∧ k < offset.toNat + 4) :=
      fun offset ho hk => hin ⟨offset, ho, hk⟩
    rw [h₁.other k hk hout, h₂.other k hk hout]

/-- Only the bytes of the image matter. -/
theorem congr (h : Shifted n offsets delta img img') (hin : ∀ o ∈ offsets, o.toNat + 4 ≤ n)
    (himg : ∀ k < n, img₁ k = img k) (himg' : ∀ k < n, img₂ k = img' k) :
    Shifted n offsets delta img₁ img₂ := by
  have hword : ∀ {a b : ℕ → BitVec 8}, (∀ k < n, a k = b k) → ∀ o ∈ offsets,
      Rebasing.word a o = Rebasing.word b o := by
    intro a b hab o ho
    have hle := hin o ho
    unfold Rebasing.word
    rw [hab _ (by omega), hab _ (by omega), hab _ (by omega), hab _ (by omega)]
  refine ⟨fun o ho => ?_, fun k hk hout => ?_⟩
  · rw [hword himg' o ho, hword himg o ho, h.word o ho]
  · rw [himg' k hk, himg k hk, h.other k hk hout]

end Shifted

/-- What is done to the memory is a shift of the image. -/
theorem Added.shifted {loadAddr delta : BitVec 32} {offsets : List (BitVec 32)} {n : ℕ}
    {rdram rdram' : Rdram} (h : Added loadAddr delta offsets rdram rdram') (hn : Holds n loadAddr)
    (hin : ∀ o ∈ offsets, o.toNat + 4 ≤ n) :
    Shifted n offsets delta (image rdram loadAddr) (image rdram' loadAddr) := by
  refine ⟨fun o ho => ?_, fun k hk hout => h.other _ ?_⟩
  · rw [← readW_eq_word hn (hin o ho), ← readW_eq_word hn (hin o ho), h.word o ho]
  · rintro ⟨o, ho, hlt⟩
    have hle := hin o ho
    refine hout o ho ?_
    have hplace := memW_valueAddr (k := 0) hn hle
    have hsub : memW (BitVec.ofNat 64 k) (loadAddr.signExtend 64) -
        memW 0 (valueAddr loadAddr o) = BitVec.ofNat 64 k - BitVec.ofNat 64 o.toNat := by
      rw [BitVec.add_zero, Nat.add_zero] at hplace
      rw [hplace]
      unfold memW
      ring
    unfold Holds at hn
    rw [hsub, BitVec.lt_def, BitVec.toNat_sub, BitVec.toNat_ofNat, BitVec.toNat_ofNat,
      show (4 : BitVec 64).toNat = 4 from rfl] at hlt
    omega

/-! ### The loop -/

/-- The words at the offsets from a load address. -/
def words (loadAddr : BitVec 32) : Places.Access Rdram (BitVec 32) (BitVec 32) where
  read offset rdram := rdram.readW 0 (valueAddr loadAddr offset)
  write offset value rdram := rdram.writeW 0 (valueAddr loadAddr offset) value

/-- Listed words have nothing in common. -/
theorem apart_words (loadAddr : BitVec 32) {offsets : List (BitVec 32)} (hnd : offsets.Nodup)
    (ha : ∀ offset ∈ offsets, 4 ∣ offset.toNat) : (words loadAddr).Apart offsets where
  nodup := hnd
  self _ _ _ _ := Rdram.readW_writeW
  other p hp q hq hne v rdram := by
    refine readW_eq_iff.2 fun k hk => writeW_other ?_
    exact words_apart hne (ha p hp) (ha q hq) hk

/-- **The loop** changes as many of the words as it has rounds. -/
theorem relocLoop_eq (offsets : List (BitVec 32)) (loadAddr delta : BitVec 32) {n i : ℕ}
    (rdram : Rdram) : relocLoop offsets loadAddr delta n i rdram =
      if n ≤ (offsets.drop i).length then
        some ((words loadAddr).modifyAll (· + delta) ((offsets.drop i).take n) rdram)
      else none := by
  induction n generalizing i rdram with
  | zero => rw [relocLoop, if_pos (Nat.zero_le _), List.take_zero, Places.Access.modifyAll]
  | succ n ih =>
      rw [relocLoop]
      rcases Nat.lt_or_ge i offsets.length with hi | hi
      · rw [List.getElem?_eq_getElem hi, List.drop_eq_getElem_cons hi, List.take_succ_cons,
          List.length_cons]
        simp only [Nat.succ_le_succ_iff]
        exact ih _
      · rw [List.getElem?_eq_none hi, List.drop_eq_nil_of_le hi]
        simp

section Function

variable {table : ℕ → RelocInfo} {fileId : ℕ} {loadAddr : BitVec 32} {rdram rdram' : Rdram}

/-- **What the function does**: nothing, or a round for each of the first offsets. -/
theorem overlayApplyRelocations_eq (hf : fileId < relocTableSize) :
    overlayApplyRelocations table fileId loadAddr rdram =
      if loadAddr = (table fileId).originalVaddr ∨ (table fileId).offsets = none then some rdram
      else if (table fileId).rounds ≤ (table fileId).listed.length then
        some ((words loadAddr).modifyAll (· + (loadAddr - (table fileId).originalVaddr))
          ((table fileId).listed.take (table fileId).rounds) rdram)
      else none := by
  unfold overlayApplyRelocations RelocInfo.listed
  rw [if_neg (by omega)]
  dsimp only
  cases ho : (table fileId).offsets with
  | none => simp
  | some offsets =>
      have hdelta : loadAddr - (table fileId).originalVaddr = 0 ↔
          loadAddr = (table fileId).originalVaddr := by
        rw [sub_eq_zero]
      by_cases h0 : (table fileId).count = 0
      · have hrounds : (table fileId).rounds = 0 := by
          rw [RelocInfo.rounds, h0]
          rfl
        simp [h0, hrounds, Places.Access.modifyAll]
      · simp only [h0, if_false, hdelta, reduceCtorEq, or_false]
        split_ifs with heq hle
        · rfl
        · rw [relocLoop_eq, List.drop_zero]
          exact if_pos hle
        · rw [relocLoop_eq, List.drop_zero]
          exact if_neg hle

/-- **A counted entry**: the distance is added to each listed word. -/
theorem added_of_counted (hf : fileId < relocTableSize) {n : ℕ} (hl : Listing (table fileId) n)
    (hc : (table fileId).Counted) (loadAddr : BitVec 32) (rdram : Rdram) : ∃ rdram',
    overlayApplyRelocations table fileId loadAddr rdram = some rdram' ∧
      Added loadAddr (loadAddr - (table fileId).originalVaddr) (table fileId).listed rdram
        rdram' := by
  rw [overlayApplyRelocations_eq hf]
  split_ifs with hexit hle
  · refine ⟨rdram, rfl, fun offset ho => ?_, fun _ _ => rfl⟩
    rcases hexit with heq | hnone
    · rw [heq, sub_self, add_zero]
    · rw [RelocInfo.listed, hnone] at ho
      cases ho
  · have hall : (table fileId).listed.take (table fileId).rounds = (table fileId).listed := by
      rw [hc.resolve_left fun h => hexit (Or.inr h), List.take_length]
    rw [hall]
    refine ⟨_, rfl, fun offset ho => ?_, fun i hi => ?_⟩
    · exact (apart_words loadAddr hl.nodup hl.aligned).read_modifyAll _ ho
    · refine Places.Access.observe_modifyAll (fun r : Rdram => r i) _ fun p hp v r => ?_
      exact writeW_other fun hlt => hi ⟨p, hp, hlt⟩
  · exact absurd (hc.resolve_left fun h => hexit (Or.inr h)).le hle

/-- **An entry that is not counted**: the words are not all changed, or the list comes to an end. -/
theorem counted_of_added (hf : fileId < relocTableSize) {n : ℕ} (hl : Listing (table fileId) n)
    (hne : loadAddr ≠ (table fileId).originalVaddr)
    (happly : overlayApplyRelocations table fileId loadAddr rdram = some rdram')
    (hadded : Added loadAddr (loadAddr - (table fileId).originalVaddr) (table fileId).listed rdram
      rdram') : (table fileId).Counted := by
  rw [overlayApplyRelocations_eq hf] at happly
  split_ifs at happly with hexit hle
  · exact Or.inl (hexit.resolve_left hne)
  · right
    by_contra hlen
    have hlt : (table fileId).rounds < (table fileId).listed.length := lt_of_le_of_ne hle hlen
    obtain rfl := Option.some.inj happly
    -- the first word without a round
    have hmem := List.getElem_mem hlt
    have hnot : (table fileId).listed[(table fileId).rounds] ∉
        (table fileId).listed.take (table fileId).rounds := by
      have hnd := hl.nodup
      rw [← List.take_append_drop (table fileId).rounds (table fileId).listed,
        List.drop_eq_getElem_cons hlt] at hnd
      exact fun hp => (List.nodup_append.1 hnd).2.2 _ hp _ List.mem_cons_self rfl
    have hsame := (apart_words loadAddr hl.nodup hl.aligned).read_modifyAll_of_notMem
      (s := rdram) (· + (loadAddr - (table fileId).originalVaddr)) (List.take_subset _ _) hmem hnot
    have hword := hsame.symm.trans (hadded.word _ hmem)
    exact hne (sub_eq_zero.1 (left_eq_add.1 hword))

end Function

/-! ### Rebasing -/

section Rebase

variable {table : ℕ → RelocInfo} {fileId n : ℕ} {vaddr : BitVec 32}

theorem withOriginal_self : withOriginal table fileId vaddr fileId =
    { table fileId with originalVaddr := vaddr } := Function.update_self _ _ _

theorem listed_withOriginal : (withOriginal table fileId vaddr fileId).listed =
    (table fileId).listed := by
  rw [withOriginal_self]
  rfl

/-- The image behind the function. -/
theorem shifted_of_counted (hf : fileId < relocTableSize) (hl : Listing (table fileId) n)
    (hc : (table fileId).Counted) {loadAddr : BitVec 32} (hn : Holds n loadAddr)
    {rdram rdram' : Rdram}
    (h : overlayApplyRelocations table fileId loadAddr rdram = some rdram') :
    Shifted n (table fileId).listed (loadAddr - (table fileId).originalVaddr)
      (image rdram loadAddr) (image rdram' loadAddr) := by
  obtain ⟨r, hr, hadded⟩ := added_of_counted hf hl hc loadAddr rdram
  obtain rfl := Option.some.inj (h.symm.trans hr)
  exact hadded.shifted hn hl.inside

/-- A second run, with the address of the first as the original one. -/
theorem shifted_again (hf : fileId < relocTableSize) (hl : Listing (table fileId) n)
    (hc : (table fileId).Counted) {loadAddr loadAddr' : BitVec 32} (hn : Holds n loadAddr)
    (hn' : Holds n loadAddr') {rdram rdram₁ rdram₂ : Rdram}
    (h : overlayApplyRelocations table fileId loadAddr rdram = some rdram₁)
    (hsame : SameImage n rdram₂ loadAddr' rdram₁ loadAddr) : ∃ rdram₂',
      overlayApplyRelocations (withOriginal table fileId loadAddr) fileId loadAddr' rdram₂ =
        some rdram₂' ∧
      Shifted n (table fileId).listed (loadAddr' - (table fileId).originalVaddr)
        (image rdram loadAddr) (image rdram₂' loadAddr') := by
  have hself := @withOriginal_self table fileId loadAddr
  have hl' : Listing (withOriginal table fileId loadAddr fileId) n := by
    rw [hself]
    exact ⟨hl.size, hl.nodup, hl.aligned, hl.inside⟩
  have hc' : (withOriginal table fileId loadAddr fileId).Counted := by
    rw [hself]
    exact hc
  obtain ⟨rdram₂', h₂, -⟩ := added_of_counted hf hl' hc' loadAddr' rdram₂
  refine ⟨rdram₂', h₂, ?_⟩
  have hfirst := shifted_of_counted hf hl hc hn h
  have hsecond := shifted_of_counted hf hl' hc' hn' h₂
  rw [listed_withOriginal, hself] at hsecond
  have hsum := hfirst.trans (hsecond.congr hl.inside (fun k hk => (hsame k hk).symm) fun _ _ => rfl)
  have hdistance : loadAddr - (table fileId).originalVaddr + (loadAddr' - loadAddr) =
      loadAddr' - (table fileId).originalVaddr := by
    ring
  rwa [hdistance] at hsum

/-- **A counted entry** rebases. -/
theorem Rebases.of_counted (hf : fileId < relocTableSize) (hl : Listing (table fileId) n)
    (hc : (table fileId).Counted) : Rebases table fileId n where
  exact loadAddr _ rdram := added_of_counted hf hl hc loadAddr rdram
  pointer loadAddr _ rdram rdram' h offset ho target hptr := by
    obtain ⟨r, hr, hadded⟩ := added_of_counted hf hl hc loadAddr rdram
    obtain rfl := Option.some.inj (h.symm.trans hr)
    rw [hadded.word offset ho, hptr]
    ring
  compose loadAddr loadAddr' hn hn' rdram rdram₁ rdram₂ direct h hsame hdirect := by
    obtain ⟨rdram₂', h₂, hshift⟩ := shifted_again hf hl hc hn hn' h hsame
    obtain ⟨direct', h', -⟩ := added_of_counted hf hl hc loadAddr' direct
    refine ⟨rdram₂', direct', h₂, h', hshift.unique ?_⟩
    exact (shifted_of_counted hf hl hc hn' h').congr hl.inside (fun k hk => (hdirect k hk).symm)
      fun _ _ => rfl
  back loadAddr hn hn' rdram rdram₁ rdram₂ h hsame := by
    obtain ⟨rdram₂', h₂, hshift⟩ := shifted_again hf hl hc hn hn' h hsame
    rw [sub_self] at hshift
    exact ⟨rdram₂', h₂, hshift.unique (.refl _)⟩

/-- An address that an image fits at, other than a given one. -/
theorem exists_holds (hn : n ≤ 2 ^ 31) (vaddr : BitVec 32) :
    ∃ loadAddr, Holds n loadAddr ∧ loadAddr ≠ vaddr := by
  have hlow : Holds n 0 := by simpa [Holds] using hn
  have hhigh : Holds n 0x80000000 := by simpa [Holds] using hn
  by_cases h : vaddr = 0
  · refine ⟨0x80000000, hhigh, ?_⟩
    rw [h]
    decide
  · exact ⟨0, hlow, Ne.symm h⟩

end Rebase

/-- **Rebasing is exact, and composes**, for the entries that are counted and for no others. -/
theorem rebases_iff {table : ℕ → RelocInfo} {fileId n : ℕ} (hf : fileId < relocTableSize)
    (hl : Listing (table fileId) n) : Rebases table fileId n ↔ (table fileId).Counted := by
  constructor
  · intro h
    obtain ⟨loadAddr, hn, hne⟩ := exists_holds hl.size (table fileId).originalVaddr
    obtain ⟨rdram', happly, hadded⟩ := h.exact loadAddr hn fun _ => 0
    exact counted_of_added hf hl hne happly hadded
  · exact .of_counted hf hl

/-- `g_relocs[0x2B]`: the entry of `s_relocs_ovl_demo_guide`. -/
def demoGuide : RelocInfo :=
  ⟨some [0x1CE8, 0x1CEC, 0x1CF0, 0x1CF4, 0x1CF8], 5, 0x60000000⟩

theorem rebases_iff_demoGuide : Rebases (fun _ => demoGuide) 0x2B 0x1D00 := by
  refine (rebases_iff (by decide) ⟨by decide, by decide, ?_, ?_⟩).2 (Or.inr rfl)
  · simp [RelocInfo.listed, demoGuide]
  · simp [RelocInfo.listed, demoGuide]

/-- `g_relocs[0x20]`: 59 rounds for a list of 41 offsets. -/
def demoStory : RelocInfo := ⟨some demoStoryOffsets, 59, 0x60000000⟩

/-- **A list that comes to an end.** -/
theorem not_rebases_demoStory :
    Listing demoStory 0x7960 ∧ ¬ Rebases (fun _ => demoStory) 0x20 0x7960 := by
  have hl : Listing demoStory 0x7960 := by
    refine ⟨by decide, by decide, ?_, ?_⟩
    · simp [RelocInfo.listed, demoStory, demoStoryOffsets]
    · simp [RelocInfo.listed, demoStory, demoStoryOffsets]
  refine ⟨hl, fun h => ?_⟩
  obtain ⟨rdram', happly, -⟩ := h.exact 0x80200000 (by unfold Holds; decide) fun _ => 0
  rw [overlayApplyRelocations_eq (by decide), if_neg (by decide), if_neg (by decide)] at happly
  cases happly

/-! ### The entries of the table -/

/-- The entries of the table, and the zero entries. -/
theorem gRelocs_cases (fileId : ℕ) : (fileId, gRelocs fileId) ∈ gRelocsEntries ∨
    gRelocs fileId = ⟨none, 0, 0⟩ ∧ ∀ e ∈ gRelocsEntries, e.1 ≠ fileId := by
  unfold gRelocs
  cases hl : gRelocsEntries.lookup fileId with
  | none =>
      refine Or.inr ⟨rfl, fun e he heq => ?_⟩
      have hne := List.lookup_eq_none_iff.1 hl e he
      simp [heq] at hne
  | some info =>
      obtain ⟨l, l', happ, -⟩ := List.lookup_eq_some_iff.1 hl
      left
      rw [happ]
      simp

/-- The counts, and the lengths of the lists. -/
theorem counts : ∀ e ∈ gRelocsEntries, e.2.count < 2 ^ 15 ∧ e.2.offsets ≠ none ∧
    (e.2.offsets.map numOffsets = some e.2.count ↔ e.1 ≠ 0x0F ∧ e.1 ≠ 0x20) := by
  decide

theorem count_lt (fileId : ℕ) : (gRelocs fileId).count < 2 ^ 15 := by
  rcases gRelocs_cases fileId with hmem | ⟨hzero, -⟩
  · exact (counts _ hmem).1
  · rw [hzero]
    decide

theorem rounds_gRelocTable (g : Game) (fileId : ℕ) :
    (gRelocTable g fileId).rounds = (gRelocs fileId).count := by
  have hlt := count_lt fileId
  have hnat : (BitVec.ofNat 16 (gRelocs fileId).count).toNat = (gRelocs fileId).count := by
    rw [BitVec.toNat_ofNat, Nat.mod_eq_of_lt (by omega)]
  unfold RelocInfo.rounds gRelocTable
  dsimp only
  rw [BitVec.toInt_eq_toNat_of_lt (by omega), hnat, Int.toNat_natCast]

/-- **The entries of the table that are counted**: all but those of `.ovl_mobj_main` and
`.ovl_demo_story`. -/
theorem counted_gRelocs (g : Game) (fileId : ℕ) :
    (gRelocTable g fileId).Counted ↔ fileId ≠ 0x0F ∧ fileId ≠ 0x20 := by
  unfold RelocInfo.Counted
  rw [rounds_gRelocTable]
  rcases gRelocs_cases fileId with hmem | ⟨hzero, hnone⟩
  · obtain ⟨-, hsome, hcounted⟩ := counts _ hmem
    rw [← hcounted]
    unfold RelocInfo.listed gRelocTable
    cases ho : (gRelocs fileId).offsets with
    | none => exact absurd ho hsome
    | some overlay => simp [offsetsOf, eq_comm]
  · have h0 := hnone (0x0F, ⟨some .mobjMain, 1595, 0x45000000⟩) (by decide)
    have h1 := hnone (0x20, ⟨some .demoStory, 59, 0x60000000⟩) (by decide)
    simp [gRelocTable, hzero, h0.symm, h1.symm]

/-- The loop of the program, where the list does not come to an end. -/
theorem relocLoop_of_some (g : Game) (overlay : Overlay) (loadAddr delta : BitVec 32) {n i : ℕ}
    {rdram rdram' : Rdram}
    (h : relocLoop (offsetsOf g overlay) loadAddr delta n i rdram = some rdram') :
    Modules.relocLoop g overlay loadAddr delta n i rdram = rdram' := by
  induction n generalizing i rdram with
  | zero => exact Option.some.inj h
  | succ n ih =>
      rw [relocLoop] at h
      cases ho : (offsetsOf g overlay)[i]? with
      | none => simp [ho] at h
      | some offset =>
          have hoffset : g.offset overlay i = offset := by
            obtain ⟨hi, hoff⟩ := List.getElem?_eq_some_iff.1 ho
            rw [← hoff]
            simp [offsetsOf]
          rw [ho] at h
          subst hoffset
          exact ih h

/-- **The function of the program**, where the list does not come to an end. -/
theorem overlayApplyRelocations_of_some (g : Game) {fileId : ℕ} {loadAddr : BitVec 32}
    {rdram rdram' : Rdram}
    (h : overlayApplyRelocations (gRelocTable g) fileId loadAddr rdram = some rdram') :
    Modules.overlayApplyRelocations g fileId loadAddr rdram = rdram' := by
  have hlt := count_lt fileId
  have hrounds := rounds_gRelocTable g fileId
  have hcount : BitVec.ofNat 16 (gRelocs fileId).count = 0 ↔ (gRelocs fileId).count = 0 := by
    rw [← BitVec.toNat_inj, BitVec.toNat_ofNat]
    simp only [BitVec.ofNat_eq_ofNat, BitVec.toNat_ofNat]
    omega
  unfold overlayApplyRelocations at h
  unfold Modules.overlayApplyRelocations
  dsimp only at h ⊢
  rw [hrounds] at h
  unfold gRelocTable at h
  cases ho : (gRelocs fileId).offsets with
  | none =>
      simp only [ho, Option.map_none, ite_self, Option.some.injEq] at h ⊢
      exact h
  | some overlay =>
      simp only [ho, Option.map_some, hcount] at h ⊢
      split_ifs at h ⊢
      · exact Option.some.inj h
      · exact Option.some.inj h
      · exact Option.some.inj h
      · exact relocLoop_of_some g overlay loadAddr _ h

end Rebasing

end Modules
