/-
**How recompiled code accesses the memory of the game.**

The instructions of the console that load from memory or store to it have become macros and inline
functions over `rdram`.  The bytes of each aligned word are in host order there: words are accessed
as they are, and for halves and bytes the address is flipped within the word.

Main definitions:

* `Guest.Rdram.readH`, `Guest.Rdram.writeH` — the accesses to halves of words, beside those of
  `Data.Rdram` to bytes and words;
* `Guest.sd`, `Guest.loadDoubleword` — doublewords;
* `Guest.doLwl`, `Guest.doLwr`, `Guest.doSwl`, `Guest.doSwr` — the parts of a word that is not
  aligned, and `Guest.doLdl`, `Guest.doLdr`, `Guest.doSdl`, `Guest.doSdr` of a doubleword.
-/

import TsaRecomp.Data.Rdram

set_option relaxedAutoImplicit false
set_option autoImplicit false

namespace Guest

open Data (Rdram memB memW kRdramBase)

/-- `typedef uint64_t gpr` -/
abbrev Gpr := BitVec 64

/-! ### Halves and doublewords -/

/-- The first of the two bytes that `MEM_H` accesses. -/
def memH (offset reg : Gpr) : Gpr := ((reg + offset) ^^^ 2) - kRdramBase

variable (rdram : Rdram)

/-- `MEM_H(offset, reg)` -/
def readH (offset reg : Gpr) : BitVec 16 :=
  rdram (memH offset reg + 1) ++ rdram (memH offset reg)

/-- `MEM_H(offset, reg) = value`, on a host that stores the low byte first. -/
def writeH (offset reg : Gpr) (value : BitVec 16) : Rdram :=
  fun i =>
    let byte := i - memH offset reg
    if byte < 2 then value.extractLsb' (8 * byte.toNat) 8 else rdram i

/-- `SD(val, offset, reg)` -/
def sd (val offset reg : Gpr) : Rdram :=
  let rdram := rdram.writeW (offset + 4) reg ((val >>> 0).setWidth 32)
  rdram.writeW (offset + 0) reg ((val >>> 32).setWidth 32)

def loadDoubleword (reg offset : Gpr) : BitVec 64 :=
  let lo : BitVec 64 := (rdram.readW reg (offset + 4)).setWidth 64
  let hi : BitVec 64 := (rdram.readW reg (offset + 0)).setWidth 64
  lo <<< 0 ||| hi <<< 32

/-- `LD(offset, reg)` -/
def ld (offset reg : Gpr) : BitVec 64 := loadDoubleword rdram offset reg

/-! ### Parts of words -/

def doLwl (initialValue offset reg : Gpr) : Gpr :=
  let address := offset + reg
  let wordAddress := address &&& ~~~3#64
  let loadedValue := rdram.readW 0 wordAddress
  let misalignment := address &&& 3#64
  let maskedValue :=
    initialValue &&& (~~~(0xFFFFFFFF#32 <<< (misalignment * 8))).setWidth 64
  let loadedValue := loadedValue <<< (misalignment * 8)
  ((maskedValue ||| loadedValue.setWidth 64).setWidth 32).signExtend 64

def doLwr (initialValue offset reg : Gpr) : Gpr :=
  let address := offset + reg
  let wordAddress := address &&& ~~~3#64
  let loadedValue := rdram.readW 0 wordAddress
  let misalignment := address &&& 3#64
  let maskedValue :=
    initialValue &&& (~~~(0xFFFFFFFF#32 >>> (24 - misalignment * 8))).setWidth 64
  let loadedValue := loadedValue >>> (24 - misalignment * 8)
  ((maskedValue ||| loadedValue.setWidth 64).setWidth 32).signExtend 64

def doSwl (offset reg val : Gpr) : Rdram :=
  let address := offset + reg
  let wordAddress := address &&& ~~~3#64
  let initialValue := rdram.readW 0 wordAddress
  let misalignment := address &&& 3#64
  let maskedInitialValue := initialValue &&& ~~~(0xFFFFFFFF#32 >>> (misalignment * 8))
  let shiftedInputValue := val.setWidth 32 >>> (misalignment * 8)
  rdram.writeW 0 wordAddress (maskedInitialValue ||| shiftedInputValue)

def doSwr (offset reg val : Gpr) : Rdram :=
  let address := offset + reg
  let wordAddress := address &&& ~~~3#64
  let initialValue := rdram.readW 0 wordAddress
  let misalignment := address &&& 3#64
  let maskedInitialValue := initialValue &&& ~~~(0xFFFFFFFF#32 <<< (24 - misalignment * 8))
  let shiftedInputValue := val.setWidth 32 <<< (24 - misalignment * 8)
  rdram.writeW 0 wordAddress (maskedInitialValue ||| shiftedInputValue)

/-! ### Parts of doublewords -/

def doLdl (initialValue offset reg : Gpr) : Gpr :=
  let address := offset + reg
  let dwordAddress := address &&& ~~~7#64
  let loadedValue := loadDoubleword rdram 0 dwordAddress
  let misalignment := address &&& 7#64
  let maskedValue := initialValue &&& ~~~(0xFFFFFFFFFFFFFFFF#64 <<< (misalignment * 8))
  let loadedValue := loadedValue <<< (misalignment * 8)
  maskedValue ||| loadedValue

def doLdr (initialValue offset reg : Gpr) : Gpr :=
  let address := offset + reg
  let dwordAddress := address &&& ~~~7#64
  let loadedValue := loadDoubleword rdram 0 dwordAddress
  let misalignment := address &&& 7#64
  let maskedValue := initialValue &&& ~~~(0xFFFFFFFFFFFFFFFF#64 >>> (56 - misalignment * 8))
  let loadedValue := loadedValue >>> (56 - misalignment * 8)
  maskedValue ||| loadedValue

/-- The two halves of `ret` are stored, the low one first. -/
def writeHalves (dwordAddress : Gpr) (ret : BitVec 64) : Rdram :=
  let lo : BitVec 32 := ret.setWidth 32
  let hi : BitVec 32 := (ret >>> 32).setWidth 32
  let rdram := rdram.writeW 0 (dwordAddress + 4) lo
  rdram.writeW 0 (dwordAddress + 0) hi

def doSdl (offset reg val : Gpr) : Rdram :=
  let address := offset + reg
  let dwordAddress := address &&& ~~~7#64
  let initialValue := loadDoubleword rdram 0 dwordAddress
  let misalignment := address &&& 7#64
  let maskedInitialValue :=
    initialValue &&& ~~~(0xFFFFFFFFFFFFFFFF#64 >>> (misalignment * 8))
  let shiftedInputValue := val >>> (misalignment * 8)
  writeHalves rdram dwordAddress (maskedInitialValue ||| shiftedInputValue)

def doSdr (offset reg val : Gpr) : Rdram :=
  let address := offset + reg
  let dwordAddress := address &&& ~~~7#64
  let initialValue := loadDoubleword rdram 0 dwordAddress
  let misalignment := address &&& 7#64
  let maskedInitialValue :=
    initialValue &&& ~~~(0xFFFFFFFFFFFFFFFF#64 <<< (56 - misalignment * 8))
  let shiftedInputValue := val <<< (56 - misalignment * 8)
  writeHalves rdram dwordAddress (maskedInitialValue ||| shiftedInputValue)

end Guest
