/-
**The compressed modules.**

`decode` of `patches/src/required_patches.c` unpacks a module into memory.  The stream has groups of
eight tokens, each group behind a byte with one bit for each of them: an element, or two bytes with
a place in a ring of the last 1024 bytes and a length.  The flags are kept in the low byte of a
register whose high byte is set, and shifted out with it, so that a bit of the high byte tells when
the next group begins.

The size of the module ends the loop, and cuts the last copy short.  Nothing else is checked: at the
end of the stream `fgetc_game`, which is not in the repository, answers with some number.

The ring is a block from `malloc`.  The block, its address in `D_800A0140`, the place that is
written to next in `D_800A0144`, and `D_8008E760`, which is set while the function runs, are in the
memory of the game, as the place of the module is: the function works where these are apart.

The function is disabled in the source (`#if 0`), where the one of the game is called.  The stack,
and what `malloc`, `free` and `fgetc_game` do to memory of their own, are left out.

Main definitions:

* `Modules.Decode`, `Modules.Decode.round`, `Modules.decode` — the function;
* `Modules.DecodeOwn`, `Modules.PlaceApart` — the memory that it uses itself, and a place apart;
* `Modules.encode` — **the streams** of lists of tokens;
* `Modules.Unpacks` — what is in memory behind it.

Main results:

* `Modules.wrote_start` — what is in memory when the loop begins;
* `Modules.Decode.Wrote.round` — the step lemma: a round appends a token, or what there is room for;
* `Modules.Decode.token_spec` — a round reads the next token of a stream;
* `Modules.unpacks_decode` — **every stream** is unpacked into the given place, and no further;
* `Modules.decode_encode` — **the round trip**.
-/

import TsaRecomp.Guest.Blocks
import TsaRecomp.Lib.LempelZiv

set_option relaxedAutoImplicit false
set_option autoImplicit false

namespace Modules

open BigEndian (misalignment)
open Data (Rdram)
open Guest (Gpr InBytes byteAddr guest readH storeBytes writeH)
open LempelZiv

/-! ### The function -/

/-- `fgetc_game`, with what it answers at the end of the stream. -/
def fgetcGame (eof : BitVec 32) : List (BitVec 8) → BitVec 32 × List (BitVec 8)
  | [] => (eof, [])
  | c :: stream => (c.setWidth 32, stream)

/-- `hmemset` -/
def hmemset (addr : BitVec 32) (value : BitVec 8) (n : ℕ) (rdram : Rdram) : Rdram :=
  storeBytes addr (List.replicate n value) rdram

/-- What `decode` calls: what `fgetc_game` answers at the end of a stream, and the block that
`malloc` answers with. -/
structure DecodeEnv where
  eof : BitVec 32
  malloc : Rdram → BitVec 32

/-- `&D_8008E760` -/
def d8008E760Addr : BitVec 64 := 0xFFFFFFFF8008E760

/-- `&D_800A0140` -/
def d800A0140Addr : BitVec 64 := 0xFFFFFFFF800A0140

/-- `&D_800A0144` -/
def d800A0144Addr : BitVec 64 := 0xFFFFFFFF800A0144

/-- `D_800A0140` -/
def d800A0140 (rdram : Rdram) : BitVec 32 := rdram.readW 0 d800A0140Addr

/-- `D_800A0144` -/
def d800A0144 (rdram : Rdram) : BitVec 16 := readH rdram 0 d800A0144Addr

/-- The local variables of `decode`, the stream, and the memory. -/
structure Decode where
  stream : List (BitVec 8)
  varS5 : BitVec 16
  arg1 : BitVec 32
  arg2 : BitVec 32
  rdram : Rdram

namespace Decode

variable (s : Decode)

/-- `D_800A0140[k]` -/
def ring (k : ℕ) : BitVec 8 := s.rdram.readB 0 (byteAddr (d800A0140 s.rdram) k)

/-- `D_800A0140[D_800A0144] = *arg1++ = value`, and the step of `D_800A0144`. -/
def put (value : BitVec 8) : Decode :=
  let rdram := s.rdram.writeB 0 (s.arg1.signExtend 64) value
  let rdram := rdram.writeB 0 (byteAddr (d800A0140 rdram) (d800A0144 rdram).toNat) value
  let rdram := writeH rdram 0 d800A0144Addr (d800A0144 rdram + 1)
  let rdram := writeH rdram 0 d800A0144Addr (d800A0144 rdram &&& 0x3FF)
  { s with arg1 := s.arg1 + 1, rdram }

/-- The `for` loop, with the rounds that are left. -/
def copyLoop (tempS4 : BitVec 32) : ℕ → BitVec 32 → Decode → Decode
  | 0, _, s => s
  | n + 1, i, s => copyLoop tempS4 n (i + 1) (s.put (s.ring ((tempS4 + i) &&& 0x3FF).toNat))

/-- The flags of the next token. -/
def nextFlag (eof : BitVec 32) : Decode :=
  let s : Decode := { s with varS5 := s.varS5 >>> 1 }
  if (s.varS5 &&& 0x100) = 0 then
    let (c, stream) := fgetcGame eof s.stream
    { s with varS5 := c.setWidth 16 ||| 0xFF00, stream }
  else s

/-- The body of the `while` loop. -/
def round (eof : BitVec 32) : Decode :=
  let s := s.nextFlag eof
  if s.varS5 &&& 1 ≠ 0 then
    let (c, stream) := fgetcGame eof s.stream
    let s := { s with stream }.put (c.setWidth 8)
    { s with arg2 := s.arg2 - 1 }
  else
    let (tempS4, stream) := fgetcGame eof s.stream
    let (tempV03, stream) := fgetcGame eof stream
    let tempS4 := tempS4 ||| ((tempV03 &&& ~~~0x3F) * 4)
    let tempA0 := (tempV03 &&& 0x3F) + 3
    let tempA0 := if s.arg2.slt tempA0 then s.arg2 else tempA0
    let s := copyLoop tempS4 tempA0.toNat 0 { s with stream }
    { s with arg2 := s.arg2 - tempA0 }

/-- The `while` loop, with the rounds that are left. -/
def loop (eof : BitVec 32) : ℕ → Decode → Decode
  | 0, s => s
  | n + 1, s => if 0 < s.arg2.toInt then loop eof n (s.round eof) else s

/-- Up to the `while` loop. -/
def start (env : DecodeEnv) (stream : List (BitVec 8)) (arg1 arg2 : BitVec 32) (rdram : Rdram) :
    Decode :=
  let rdram := rdram.writeW 0 d8008E760Addr 1
  let rdram := rdram.writeW 0 d800A0140Addr (env.malloc rdram)
  let rdram := writeH rdram 0 d800A0144Addr 0x3BE
  let rdram := hmemset (d800A0140 rdram) 0 0x400 rdram
  { stream, varS5 := 0, arg1, arg2, rdram }

end Decode

/-- `decode`.  Every round makes `arg2` smaller. -/
def decode (env : DecodeEnv) (stream : List (BitVec 8)) (arg1 arg2 : BitVec 32) (rdram : Rdram) :
    Rdram :=
  let s := Decode.loop env.eof arg2.toInt.toNat (Decode.start env stream arg1 arg2 rdram)
  s.rdram.writeW 0 d8008E760Addr 0

/-! ### What is in memory -/

/-- The block that `malloc` answers with when `decode` asks. -/
def DecodeEnv.block (env : DecodeEnv) (rdram : Rdram) : BitVec 32 :=
  env.malloc (rdram.writeW 0 d8008E760Addr 1)

/-- The bytes of the variables of `decode`. -/
def DecodeVars (x : Gpr) : Prop :=
  InBytes d8008E760Addr 4 x ∨ InBytes d800A0140Addr 4 x ∨ InBytes d800A0144Addr 2 x

/-- The memory that `decode` uses for itself: its variables, and the block with the ring. -/
def DecodeOwn (block : BitVec 32) (x : Gpr) : Prop :=
  DecodeVars x ∨ ∃ k < 0x400, x = byteAddr block k

/-- **A place for `n` bytes**, apart from the memory that `decode` uses; and `malloc` has answered
with a block apart from the variables. -/
structure PlaceApart (block addr : BitVec 32) (n : ℕ) : Prop where
  ring : ∀ k < 0x400, ¬ DecodeVars (byteAddr block k)
  place : ∀ k < n, ¬ DecodeOwn block (byteAddr addr k)

/-- **A text in memory**: its bytes from an address on, and nothing else has changed but the memory
that is used. -/
structure Unpacks (own : Gpr → Prop) (rdram rdram' : Rdram) (addr : BitVec 32)
    (text : List (BitVec 8)) : Prop where
  bytes : ∀ k, (hk : k < text.length) → guest rdram' (byteAddr addr k) = text.get ⟨k, hk⟩
  frame : ∀ x, ¬ own x → (∀ k < text.length, x ≠ byteAddr addr k) → guest rdram' x = guest rdram x

/-! ### The variables and the ring -/

section Ring

variable {addr : BitVec 32} {value : BitVec 8} {n : ℕ} {rdram : Rdram}

theorem guest_hmemset (hn : n ≤ 2 ^ 32) {k : ℕ} (hk : k < n) :
    guest (hmemset addr value n rdram) (byteAddr addr k) = value := by
  have hlen : (List.replicate n value).length = n := List.length_replicate
  rw [hmemset, Guest.guest_storeBytes (by rwa [hlen]) (by rwa [hlen])]
  exact List.getElem_replicate _

theorem guest_hmemset_of_ne {x : Gpr} (hx : ∀ k < n, x ≠ byteAddr addr k) :
    guest (hmemset addr value n rdram) x = guest rdram x := by
  have hlen : (List.replicate n value).length = n := List.length_replicate
  exact Guest.guest_storeBytes_of_ne fun k hk => hx k (hlen ▸ hk)

end Ring

/-- The variables lie below. -/
theorem not_decodeVars {addr : BitVec 32} {k : ℕ} (h : 0x800A0146 ≤ addr.toNat)
    (h' : addr.toNat + k < 2 ^ 32) : ¬ DecodeVars (byteAddr addr k) := by
  have h₀ : d8008E760Addr.toNat = 0xFFFFFFFF8008E760 := rfl
  have h₁ : d800A0140Addr.toNat = 0xFFFFFFFF800A0140 := rfl
  have h₂ : d800A0144Addr.toNat = 0xFFFFFFFF800A0144 := rfl
  unfold DecodeVars InBytes
  rw [BitVec.toNat_sub, BitVec.toNat_sub, BitVec.toNat_sub, h₀, h₁, h₂,
    Guest.toNat_byteAddr (by omega) h']
  omega

/-- A place and a block behind the variables, apart from each other. -/
theorem PlaceApart.of_apart {block addr : BitVec 32} {n : ℕ} (hb : 0x800A0146 ≤ block.toNat)
    (hb' : block.toNat + 0x400 ≤ 2 ^ 32) (ha : 0x800A0146 ≤ addr.toNat)
    (ha' : addr.toNat + n ≤ 2 ^ 32)
    (h : block.toNat + 0x400 ≤ addr.toNat ∨ addr.toNat + n ≤ block.toNat) :
    PlaceApart block addr n where
  ring k hk := not_decodeVars hb (by omega)
  place k hk := by
    rintro (hv | ⟨j, hj, he⟩)
    · exact not_decodeVars ha (by omega) hv
    · have hnat := congrArg BitVec.toNat he
      rw [Guest.toNat_byteAddr (by omega) (by omega), Guest.toNat_byteAddr (by omega) (by omega)]
        at hnat
      omega

theorem misalignment_vars : misalignment 4 d8008E760Addr = 0 ∧ misalignment 4 d800A0140Addr = 0 ∧
    misalignment 2 d800A0144Addr = 0 := ⟨rfl, rfl, rfl⟩

/-- The variables have no bytes in common. -/
theorem vars_apart {x : Gpr} : (InBytes d800A0140Addr 4 x → ¬ InBytes d8008E760Addr 4 x) ∧
    (InBytes d800A0144Addr 2 x → ¬ InBytes d8008E760Addr 4 x) ∧
    (InBytes d800A0140Addr 4 x → ¬ InBytes d800A0144Addr 2 x) := by
  have hlt := x.isLt
  have h₀ : d8008E760Addr.toNat = 0xFFFFFFFF8008E760 := rfl
  have h₁ : d800A0140Addr.toNat = 0xFFFFFFFF800A0140 := rfl
  have h₂ : d800A0144Addr.toNat = 0xFFFFFFFF800A0144 := rfl
  unfold InBytes
  rw [BitVec.toNat_sub, BitVec.toNat_sub, BitVec.toNat_sub, h₀, h₁, h₂]
  omega

section Variables

variable {rdram rdram' : Rdram}

theorem d800A0140_congr (h : ∀ x, InBytes d800A0140Addr 4 x → guest rdram' x = guest rdram x) :
    d800A0140 rdram' = d800A0140 rdram := Guest.readW_congr misalignment_vars.2.1 h

theorem d800A0144_congr (h : ∀ x, InBytes d800A0144Addr 2 x → guest rdram' x = guest rdram x) :
    d800A0144 rdram' = d800A0144 rdram := Guest.readH_congr misalignment_vars.2.2 h

/-- A byte that is written elsewhere. -/
theorem vars_writeB {a : Gpr} (ha : ¬ DecodeVars a) (rdram : Rdram) (value : BitVec 8) :
    d800A0140 (rdram.writeB 0 a value) = d800A0140 rdram ∧
      d800A0144 (rdram.writeB 0 a value) = d800A0144 rdram := by
  refine ⟨d800A0140_congr fun x hx => ?_, d800A0144_congr fun x hx => ?_⟩
  · rw [Guest.guest_writeB_apply, if_neg]
    rintro rfl
    exact ha (Or.inr (Or.inl hx))
  · rw [Guest.guest_writeB_apply, if_neg]
    rintro rfl
    exact ha (Or.inr (Or.inr hx))

/-- `D_800A0144` is written. -/
theorem vars_writeH (rdram : Rdram) (value : BitVec 16) :
    d800A0140 (writeH rdram 0 d800A0144Addr value) = d800A0140 rdram ∧
      d800A0144 (writeH rdram 0 d800A0144Addr value) = value := by
  refine ⟨d800A0140_congr fun x hx => ?_, Guest.readH_writeH misalignment_vars.2.2 value⟩
  exact Guest.guest_writeH_of_notMem misalignment_vars.2.2 value (vars_apart.2.2 hx)

end Variables

/-! ### A round -/

namespace Decode

variable {addr block : BitVec 32} {rdram₀ : Rdram} {total : ℕ} {out : List (BitVec 8)} {s : Decode}
  {eof : BitVec 32}

/-- **What has been written**: a text, to its place in memory and to the ring. -/
structure Wrote (addr block : BitVec 32) (rdram₀ : Rdram) (out : List (BitVec 8)) (s : Decode) :
    Prop where
  rdram : ∀ x, ¬ DecodeOwn block x → guest s.rdram x = guest (storeBytes addr out rdram₀) x
  arg1 : s.arg1 = addr + BitVec.ofNat 32 out.length
  pointer : d800A0140 s.rdram = block
  place : (d800A0144 s.rdram).toNat = (0x3BE + out.length) % 0x400
  ring : Ring 0 0x400 0x3BE s.ring out

/-- A number below 1024 from the low bits. -/
theorem toNat_and_3FF {w : ℕ} (x : BitVec w) (hw : 10 < w) :
    (x &&& 0x3FF).toNat = x.toNat % 0x400 := by
  have hmask : ((0x3FF : BitVec w)).toNat = 2 ^ 10 - 1 := by
    refine (BitVec.toNat_ofNat _ _).trans (Nat.mod_eq_of_lt ?_)
    exact lt_of_lt_of_le (by norm_num) (Nat.pow_le_pow_right (by norm_num) hw.le)
  rw [BitVec.toNat_and, hmask, Nat.and_two_pow_sub_one_eq_mod]

/-- **What `put` does to memory**, where it does not write over the variables. -/
theorem put_spec (harg : ¬ DecodeVars (s.arg1.signExtend 64))
    (hring : ¬ DecodeVars (byteAddr (d800A0140 s.rdram) (d800A0144 s.rdram).toNat))
    (value : BitVec 8) :
    d800A0140 (s.put value).rdram = d800A0140 s.rdram ∧
      d800A0144 (s.put value).rdram = (d800A0144 s.rdram + 1) &&& 0x3FF ∧
      ∀ x, ¬ InBytes d800A0144Addr 2 x → guest (s.put value).rdram x =
        if x = byteAddr (d800A0140 s.rdram) (d800A0144 s.rdram).toNat then value
        else if x = s.arg1.signExtend 64 then value else guest s.rdram x := by
  -- the byte, and the byte in the ring
  have hfirst := vars_writeB harg s.rdram value
  set rdram₁ := s.rdram.writeB 0 (s.arg1.signExtend 64) value with hr₁
  have hsecond := vars_writeB hring rdram₁ value
  set rdram₂ := rdram₁.writeB 0 (byteAddr (d800A0140 s.rdram) (d800A0144 s.rdram).toNat) value
    with hr₂
  -- the step of the place
  have hnext := vars_writeH rdram₂ (d800A0144 s.rdram + 1)
  have hmask := vars_writeH (writeH rdram₂ 0 d800A0144Addr (d800A0144 s.rdram + 1))
    ((d800A0144 s.rdram + 1) &&& 0x3FF)
  have hput : (s.put value).rdram = writeH (writeH rdram₂ 0 d800A0144Addr (d800A0144 s.rdram + 1))
      0 d800A0144Addr ((d800A0144 s.rdram + 1) &&& 0x3FF) := by
    unfold Decode.put
    dsimp only
    rw [← hr₁, hfirst.1, hfirst.2, ← hr₂, hsecond.2, hfirst.2, hnext.2]
  refine ⟨?_, ?_, fun x hx => ?_⟩
  · rw [hput, hmask.1, hnext.1, hsecond.1, hfirst.1]
  · rw [hput, hmask.2]
  · rw [hput, Guest.guest_writeH_of_notMem misalignment_vars.2.2 _ hx,
      Guest.guest_writeH_of_notMem misalignment_vars.2.2 _ hx, hr₂, Guest.guest_writeB_apply, hr₁,
      Guest.guest_writeB_apply]

/-- **One byte more**, where there is room for it. -/
theorem Wrote.put (h : Wrote addr block rdram₀ out s) (ha : PlaceApart block addr total)
    (hroom : out.length < total) (value : BitVec 8) :
    Wrote addr block rdram₀ (out ++ [value]) (s.put value) := by
  have hplace : (d800A0144 s.rdram).toNat < 0x400 := by
    rw [h.place]
    exact Nat.mod_lt _ (by norm_num)
  have hown := ha.place _ hroom
  have harg : s.arg1.signExtend 64 = byteAddr addr out.length := by rw [h.arg1, byteAddr]
  obtain ⟨hpointer, hnext, hmem⟩ := put_spec (s := s) (fun hv => hown (Or.inl (harg ▸ hv)))
    (h.pointer ▸ ha.ring _ hplace) value
  rw [h.pointer] at hpointer hmem
  rw [harg] at hmem
  refine ⟨fun x hx => ?_, ?_, hpointer, ?_, ?_⟩
  · have hne : x ≠ byteAddr block (d800A0144 s.rdram).toNat :=
      fun he => hx (Or.inr ⟨_, hplace, he⟩)
    rw [hmem x fun hv => hx (Or.inl (Or.inr (Or.inr hv))), if_neg hne, Guest.storeBytes_concat,
      Guest.guest_writeB_apply, h.rdram x hx]
  · rw [List.length_append, List.length_singleton, BitVec.ofNat_add, ← BitVec.add_assoc, ← h.arg1]
    rfl
  · rw [hnext, toNat_and_3FF _ (by norm_num), BitVec.toNat_add, h.place,
      List.length_append, List.length_singleton, show (1 : BitVec 16).toNat = 1 from rfl]
    omega
  · have hat : ∀ k < 0x400, (s.put value).ring k =
        if k = (d800A0144 s.rdram).toNat then value else s.ring k := by
      intro k hk
      have hne : byteAddr block k ≠ byteAddr addr out.length :=
        fun he => hown (Or.inr ⟨k, hk, he.symm⟩)
      change guest (s.put value).rdram (byteAddr (d800A0140 (s.put value).rdram) k) = _
      rw [hpointer, hmem _ fun hv => ha.ring k hk (Or.inr (Or.inr hv)), if_neg hne]
      simp only [Guest.byteAddr_inj (show k < 2 ^ 32 by omega)
        (show (d800A0144 s.rdram).toNat < 2 ^ 32 by omega)]
      rw [Decode.ring, h.pointer]
      rfl
    refine h.ring.push ?_ fun k hk hne => ?_
    · rw [← h.place, hat _ hplace, if_pos rfl]
    · rw [hat k hk, if_neg (by rwa [h.place])]

@[simp] theorem arg2_put (value : BitVec 8) : (s.put value).arg2 = s.arg2 := rfl

/-- The loop leaves everything else as it is. -/
theorem frame_copyLoop (tempS4 : BitVec 32) : ∀ (n : ℕ) (i : BitVec 32) (s : Decode),
    (copyLoop tempS4 n i s).arg2 = s.arg2 ∧ (copyLoop tempS4 n i s).varS5 = s.varS5 ∧
      (copyLoop tempS4 n i s).stream = s.stream := by
  intro n
  induction n with
  | zero => intro i s; exact ⟨rfl, rfl, rfl⟩
  | succ n ih => intro i s; exact ih _ _

/-- **The loop copies**, where it begins at the place of a distance. -/
theorem Wrote.copyLoop (ha : PlaceApart block addr total) {tempS4 : BitVec 32} {d : ℕ}
    (hd : 1 ≤ d) (hd' : d ≤ 0x400) :
    ∀ {n : ℕ} {i : BitVec 32} {out : List (BitVec 8)} {s : Decode},
      Wrote addr block rdram₀ out s → out.length + n ≤ total →
      ((tempS4 + i) &&& 0x3FF).toNat = offsetOf 0x400 (0x3BE + out.length) d →
      Wrote addr block rdram₀ (copyBack 0 d n out) (copyLoop tempS4 n i s) := by
  intro n
  induction n with
  | zero => intro i out s h _ _; exact h
  | succ n ih =>
      intro i out s h hroom hplace
      have hvalue : s.ring ((tempS4 + i) &&& 0x3FF).toNat = back 0 out d := by
        rw [hplace, h.ring d hd hd']
      have hput := h.put ha (by omega) (back 0 out d)
      rw [← hvalue] at hput
      have hrest := ih (i := i + 1) hput (by simp; omega) ?_
      · rw [Decode.copyLoop, copyBack, hvalue]
        rwa [hvalue] at hrest
      · rw [List.length_append, List.length_singleton, ← Nat.add_assoc, offsetOf_succ, ← hplace,
          toNat_and_3FF _ (by norm_num), toNat_and_3FF _ (by norm_num), ← BitVec.add_assoc,
          BitVec.toNat_add (tempS4 + i), show (1 : BitVec 32).toNat = 1 from rfl]
        omega

/-- The token that the next round reads, and the stream behind it. -/
def token (eof : BitVec 32) (s : Decode) : Token (BitVec 8) × List (BitVec 8) :=
  let s := s.nextFlag eof
  let (c, stream) := fgetcGame eof s.stream
  if s.varS5 &&& 1 ≠ 0 then (.literal (c.setWidth 8), stream)
  else
    let (tempV03, stream) := fgetcGame eof stream
    let o := (c ||| ((tempV03 &&& ~~~0x3F) * 4)) &&& 0x3FF
    (.copy (distanceOf 0x400 (d800A0144 s.rdram).toNat o.toNat) ((tempV03 &&& 0x3F) + 3).toNat,
      stream)

/-- What a token is made of, whatever the stream has: a distance in the ring, and 3 to 66 bytes. -/
def Fits : Token (BitVec 8) → Prop
  | .literal _ => True
  | .copy d n => 1 ≤ d ∧ d ≤ 0x400 ∧ 3 ≤ n ∧ n ≤ 66

instance : (t : Token (BitVec 8)) → Decidable (Fits t)
  | .literal _ => .isTrue trivial
  | .copy _ _ => inferInstanceAs (Decidable (_ ∧ _))

theorem toNat_length (x : BitVec 32) : ((x &&& 0x3F) + 3).toNat = x.toNat % 64 + 3 := by
  rw [BitVec.toNat_add, BitVec.toNat_and, show (0x3F : BitVec 32).toNat = 2 ^ 6 - 1 from rfl,
    Nat.and_two_pow_sub_one_eq_mod, show (3 : BitVec 32).toNat = 3 from rfl]
  omega

theorem fits_token : Fits (s.token eof).1 := by
  unfold token
  dsimp only
  split_ifs with hflag
  · trivial
  · refine ⟨distanceOf_pos (by norm_num), distanceOf_le, ?_⟩
    rw [toNat_length]
    omega

theorem Wrote.nextFlag (h : Wrote addr block rdram₀ out s) :
    Wrote addr block rdram₀ out (s.nextFlag eof) := by
  unfold Decode.nextFlag
  dsimp only
  split_ifs with hnext
  · exact ⟨h.rdram, h.arg1, h.pointer, h.place, h.ring⟩
  · exact ⟨h.rdram, h.arg1, h.pointer, h.place, h.ring⟩

@[simp] theorem arg2_nextFlag : (s.nextFlag eof).arg2 = s.arg2 := by
  unfold Decode.nextFlag
  dsimp only
  split_ifs with hnext
  · rfl
  · rfl

/-- The number of bytes of a copy that there is room for. -/
theorem toNat_room (arg2 tempA0 : BitVec 32) (h : arg2.toNat < 2 ^ 31)
    (h' : tempA0.toNat < 2 ^ 31) :
    (if arg2.slt tempA0 then arg2 else tempA0).toNat = min arg2.toNat tempA0.toNat := by
  rw [BitVec.slt_eq_decide, BitVec.toInt_eq_toNat_of_lt (by omega),
    BitVec.toInt_eq_toNat_of_lt (by omega)]
  by_cases hlt : arg2.toNat < tempA0.toNat
  · rw [if_pos (by simpa using hlt)]
    omega
  · rw [if_neg (by simpa using hlt)]
    omega

/-- A copy is cut where there is no more room. -/
theorem take_copyBack_room {d n left : ℕ} (h : left + out.length = total) :
    (copyBack 0 d n out).take total = copyBack 0 d (min left n) out := by
  rcases le_total left n with hle | hle
  · rw [min_eq_left hle, ← take_copyBack d hle out]
    congr 1
    omega
  · rw [min_eq_right hle]
    exact List.take_of_length_le (by rw [length_copyBack]; omega)

variable (eof) in
/-- **A round** writes the bytes of the token that it reads, or what there is room for. -/
theorem Wrote.round (ha : PlaceApart block addr total) (h : Wrote addr block rdram₀ out s)
    (hleft : s.arg2.toNat + out.length = total) (htotal : total < 2 ^ 31)
    (hpos : 0 < s.arg2.toNat) :
    Wrote addr block rdram₀ (((s.token eof).1.apply 0 out).take total) (s.round eof) ∧
      (s.round eof).arg2.toNat + (((s.token eof).1.apply 0 out).take total).length = total ∧
      (s.round eof).stream = (s.token eof).2 ∧
      (s.round eof).varS5 = (s.nextFlag eof).varS5 := by
  have hflags : Wrote addr block rdram₀ out (s.nextFlag eof) := h.nextFlag
  unfold Decode.round token
  dsimp only
  generalize hs₁ : s.nextFlag eof = s₁ at hflags ⊢
  have harg2 : s₁.arg2 = s.arg2 := by rw [← hs₁, arg2_nextFlag]
  obtain ⟨c, stream⟩ := fgetcGame eof s₁.stream
  by_cases hflag : s₁.varS5 &&& 1 ≠ 0
  · simp only [if_pos hflag]
    have hone : ((out ++ [c.setWidth 8]).take total) = out ++ [c.setWidth 8] :=
      List.take_of_length_le (by simp; omega)
    have hput : Wrote addr block rdram₀ out { s₁ with stream } :=
      ⟨hflags.rdram, hflags.arg1, hflags.pointer, hflags.place, hflags.ring⟩
    have hput := hput.put ha (by omega) (c.setWidth 8)
    rw [Token.apply, hone]
    refine ⟨⟨hput.rdram, hput.arg1, hput.pointer, hput.place, hput.ring⟩, ?_, rfl, rfl⟩
    rw [arg2_put, harg2, BitVec.toNat_sub_of_le, List.length_append, List.length_singleton]
    · change s.arg2.toNat - 1 + _ = _
      omega
    · change 1 ≤ s.arg2.toNat
      omega
  · simp only [if_neg hflag]
    obtain ⟨tempV03, stream⟩ := fgetcGame eof stream
    dsimp only
    generalize hs₂ : ({ s₁ with stream } : Decode) = s₂
    have hwrote : Wrote addr block rdram₀ out s₂ := by
      rw [← hs₂]
      exact ⟨hflags.rdram, hflags.arg1, hflags.pointer, hflags.place, hflags.ring⟩
    generalize htempS4 : c ||| ((tempV03 &&& ~~~0x3F) * 4) = tempS4
    have hlen := toNat_length tempV03
    generalize (tempV03 &&& 0x3F) + 3 = tempA0 at hlen ⊢
    have hroom := toNat_room s₁.arg2 tempA0 (by rw [harg2]; omega) (by omega)
    generalize (if s₁.arg2.slt tempA0 then s₁.arg2 else tempA0) = room at hroom ⊢
    have ho : (tempS4 &&& 0x3FF).toNat < 0x400 := by
      rw [toNat_and_3FF _ (by norm_num)]
      exact Nat.mod_lt _ (by norm_num)
    have hstart : ((tempS4 + 0) &&& 0x3FF).toNat = offsetOf 0x400 (0x3BE + out.length)
        (distanceOf 0x400 (0x3BE + out.length) (tempS4 &&& 0x3FF).toNat) := by
      rw [offsetOf_distanceOf (by norm_num) ho, show tempS4 + 0 = tempS4 from BitVec.add_zero _]
    have hcopy := hwrote.copyLoop ha (distanceOf_pos (by norm_num)) distanceOf_le
      (n := room.toNat) (by rw [harg2] at hroom; omega) hstart
    obtain ⟨hframe, hv, hstream⟩ := frame_copyLoop tempS4 room.toNat 0 s₂
    rw [hflags.place, distanceOf_mod, Token.apply, take_copyBack_room hleft, ← harg2, ← hroom]
    refine ⟨⟨hcopy.rdram, hcopy.arg1, hcopy.pointer, hcopy.place, hcopy.ring⟩, ?_, ?_, ?_⟩
    · have hle : room ≤ s₁.arg2 := by
        rw [BitVec.le_def]
        omega
      change ((Decode.copyLoop tempS4 room.toNat 0 s₂).arg2 - room).toNat + _ = _
      rw [hframe, ← hs₂, length_copyBack, BitVec.toNat_sub_of_le hle]
      rw [harg2] at hroom ⊢
      omega
    · exact hstream.trans (congrArg Decode.stream hs₂).symm
    · exact hv.trans (congrArg Decode.varS5 hs₂).symm

theorem size_pos {t : Token (BitVec 8)} (h : Fits t) : 0 < t.size := by
  cases t with
  | literal b => exact Nat.one_pos
  | copy d n => exact Nat.lt_of_lt_of_le (by norm_num) h.2.2.1

/-! ### The loop -/

/-- The loop ends where nothing is left. -/
theorem loop_of_eq_zero (h : s.arg2.toNat = 0) (n : ℕ) : loop eof n s = s := by
  cases n with
  | zero => rfl
  | succ n =>
      rw [loop, if_neg]
      rw [BitVec.toInt_eq_toNat_of_lt (by omega), h]
      exact lt_irrefl 0

theorem loop_of_pos (h : 0 < s.arg2.toNat) (h' : s.arg2.toNat < 2 ^ 31) (n : ℕ) :
    loop eof (n + 1) s = loop eof n (s.round eof) := by
  rw [loop, if_pos]
  rw [BitVec.toInt_eq_toNat_of_lt (by omega)]
  exact Int.ofNat_lt.2 h

/-- Where nothing is left, no token adds to what has been written. -/
theorem Wrote.done (h : Wrote addr block rdram₀ out s) (hleft : s.arg2.toNat + out.length = total)
    (hzero : s.arg2.toNat = 0) (n : ℕ) (ts : List (Token (BitVec 8))) :
    Wrote addr block rdram₀ ((expand 0 out ts).take total) (Decode.loop eof n s) := by
  rwa [loop_of_eq_zero hzero, take_expand ts (by omega), List.take_of_length_le (by omega)]

variable (eof) in
/-- **The loop** writes the text of the tokens that it reads, as far as there is room. -/
theorem Wrote.loop (ha : PlaceApart block addr total) (htotal : total < 2 ^ 31) :
    ∀ {n : ℕ} {out : List (BitVec 8)} {s : Decode}, Wrote addr block rdram₀ out s →
      s.arg2.toNat + out.length = total → s.arg2.toNat ≤ n →
      ∃ ts, (∀ t ∈ ts, Fits t) ∧ total ≤ (expand 0 out ts).length ∧
        Wrote addr block rdram₀ ((expand 0 out ts).take total) (loop eof n s) := by
  -- nothing is left: there is no token
  have hdone : ∀ {n : ℕ} {out : List (BitVec 8)} {s : Decode}, Wrote addr block rdram₀ out s →
      s.arg2.toNat + out.length = total → s.arg2.toNat = 0 →
      ∃ ts, (∀ t ∈ ts, Fits t) ∧ total ≤ (expand 0 out ts).length ∧
        Wrote addr block rdram₀ ((expand 0 out ts).take total) (Decode.loop eof n s) := by
    intro n out s h hleft hzero
    have hlen : total ≤ (expand 0 out []).length := show total ≤ out.length by omega
    exact ⟨[], by simp, hlen, h.done hleft hzero n []⟩
  intro n
  induction n with
  | zero => intro out s h hleft hn; exact hdone h hleft (by omega)
  | succ n ih =>
      intro out s h hleft hn
      rcases Nat.eq_zero_or_pos s.arg2.toNat with hzero | hpos
      · exact hdone h hleft hzero
      · have hround := h.round eof ha hleft htotal hpos
        have hfits : Fits (s.token eof).1 := fits_token
        have hsize := size_pos hfits
        generalize (s.token eof).1 = t at hround hfits hsize
        obtain ⟨hwrote, hleft', -, -⟩ := hround
        have hlen : ((t.apply 0 out).take total).length = min total (out.length + t.size) := by
          simp
        obtain ⟨ts, hall, hlong, hloop⟩ := ih hwrote hleft' (by omega)
        have hcut : (expand 0 ((t.apply 0 out).take total) ts).take total =
            (expand 0 (t.apply 0 out) ts).take total := take_expand_take ts total (t.apply 0 out)
        refine ⟨t :: ts, ?_, ?_, ?_⟩
        · intro u hu
          rcases List.mem_cons.1 hu with rfl | hu
          · exact hfits
          · exact hall u hu
        · have := congrArg List.length hcut
          simp only [List.length_take] at this
          rw [expand_cons]
          omega
        · rw [loop_of_pos hpos (by omega), expand_cons, ← hcut]
          exact hloop

end Decode

/-- The text of a list of tokens. -/
def textOf (ts : List (Token (BitVec 8))) : List (BitVec 8) := expand 0 [] ts

/-- **Up to the loop**: the ring is blank, and nothing else has changed but the variables. -/
theorem wrote_start (env : DecodeEnv) (stream : List (BitVec 8)) {addr arg2 : BitVec 32}
    {rdram : Rdram} {n : ℕ} (ha : PlaceApart (env.block rdram) addr n) :
    Decode.Wrote addr (env.block rdram) rdram [] (.start env stream addr arg2 rdram) := by
  obtain ⟨h₀, h₁, h₂⟩ := misalignment_vars
  set rdram₁ := (rdram.writeW 0 d8008E760Addr 1).writeW 0 d800A0140Addr (env.block rdram) with hr₁
  -- the variables, before the ring is made blank
  have hvars := vars_writeH rdram₁ 0x3BE
  have hblock : d800A0140 rdram₁ = env.block rdram := Rdram.readW_writeW
  rw [hblock] at hvars
  have hrdram : (Decode.start env stream addr arg2 rdram).rdram =
      hmemset (env.block rdram) 0 0x400 (writeH rdram₁ 0 d800A0144Addr 0x3BE) := by
    unfold Decode.start
    dsimp only
    rw [← hvars.1]
    rfl
  have hother : ∀ x, (∀ k < 0x400, x ≠ byteAddr (env.block rdram) k) →
      guest (Decode.start env stream addr arg2 rdram).rdram x =
        guest (writeH rdram₁ 0 d800A0144Addr 0x3BE) x := by
    intro x hx
    rw [hrdram]
    exact guest_hmemset_of_ne hx
  have hkept : ∀ x, DecodeVars x → guest (Decode.start env stream addr arg2 rdram).rdram x =
      guest (writeH rdram₁ 0 d800A0144Addr 0x3BE) x :=
    fun x hx => hother x fun k hk he => ha.ring k hk (he ▸ hx)
  have hpointer : d800A0140 (Decode.start env stream addr arg2 rdram).rdram = env.block rdram :=
    (d800A0140_congr fun x hx => hkept x (Or.inr (Or.inl hx))).trans hvars.1
  refine ⟨fun x hx => ?_, (BitVec.add_zero addr).symm, hpointer, ?_, Ring.empty fun k hk => ?_⟩
  · rw [hother x fun k hk he => hx (Or.inr ⟨k, hk, he⟩),
      Guest.guest_writeH_of_notMem h₂ _ fun hv => hx (Or.inl (Or.inr (Or.inr hv))), hr₁,
      Guest.guest_writeW_of_notMem h₁ _ fun hv => hx (Or.inl (Or.inr (Or.inl hv))),
      Guest.guest_writeW_of_notMem h₀ _ fun hv => hx (Or.inl (Or.inl hv))]
    rfl
  · rw [d800A0144_congr fun x hx => hkept x (Or.inr (Or.inr hx)), hvars.2]
    rfl
  · change guest (Decode.start env stream addr arg2 rdram).rdram
      (byteAddr (d800A0140 (Decode.start env stream addr arg2 rdram).rdram) k) = 0
    rw [hpointer, hrdram, guest_hmemset (by norm_num) hk]

theorem toNat_toInt_of_pos {x : BitVec 32} (h : 0 < x.toInt) :
    x.toInt.toNat = x.toNat ∧ x.toNat < 2 ^ 31 := by
  have hmsb : 2 * x.toNat < 2 ^ 32 := by
    by_contra hge
    rw [BitVec.toInt_eq_toNat_cond, if_neg hge] at h
    have := x.isLt
    omega
  rw [BitVec.toInt_eq_toNat_of_lt hmsb, Int.toNat_natCast]
  omega

/-- The end of `decode`. -/
theorem Decode.Wrote.unpacks {addr block : BitVec 32} {rdram₀ : Rdram} {text : List (BitVec 8)}
    {s : Decode} (h : Decode.Wrote addr block rdram₀ text s)
    (ha : PlaceApart block addr text.length) (hlen : text.length ≤ 2 ^ 32) :
    Unpacks (DecodeOwn block) rdram₀ (s.rdram.writeW 0 d8008E760Addr 0) addr text := by
  have hlast : ∀ x, ¬ DecodeOwn block x →
      guest (s.rdram.writeW 0 d8008E760Addr 0) x = guest (storeBytes addr text rdram₀) x := by
    intro x hx
    rw [Guest.guest_writeW_of_notMem misalignment_vars.1 _ fun hv => hx (Or.inl (Or.inl hv)),
      h.rdram x hx]
  refine ⟨fun k hk => ?_, fun x hx hout => ?_⟩
  · rw [hlast _ (ha.place k hk), Guest.guest_storeBytes hlen hk]
  · rw [hlast x hx, Guest.guest_storeBytes_of_ne hout]

/-- Where the size is not positive, there is no round. -/
theorem loop_of_nonpos {eof arg2 : BitVec 32} (h : arg2.toInt ≤ 0) (s : Decode) :
    Decode.loop eof arg2.toInt.toNat s = s := by
  rw [Int.toNat_of_nonpos h, Decode.loop]

section Unpack

variable {env : DecodeEnv} {arg1 arg2 : BitVec 32} {rdram : Rdram}

theorem length_take_le (arg2 : BitVec 32) (text : List (BitVec 8)) :
    (text.take arg2.toInt.toNat).length ≤ 2 ^ 32 := by
  have hlt := arg2.toInt_lt
  rw [List.length_take]
  omega

end Unpack

/-- A memory of zeros. -/
def blankRdram : Rdram := fun _ => 0

/-- A block behind the memory that modules are loaded to. -/
def heapEnv : DecodeEnv := ⟨-1, fun _ => 0x80300000⟩

theorem placeApart_heapEnv {n : ℕ} (hn : n ≤ 0xB0000) (rdram : Rdram) :
    PlaceApart (heapEnv.block rdram) 0x80250000 n := by
  have hblock : (heapEnv.block rdram).toNat = 0x80300000 := rfl
  have haddr : (0x80250000 : BitVec 32).toNat = 0x80250000 := rfl
  exact .of_apart (by omega) (by omega) (by omega) (by omega) (Or.inr (by omega))

/-- The flag of a token. -/
def isLiteral : Token (BitVec 8) → Bool
  | .literal _ => true
  | .copy _ _ => false

/-- The byte in front of a group: a bit for each of the next eight tokens. -/
def flagsByte (ts : List (Token (BitVec 8))) : BitVec 8 :=
  (BitVec.ofBoolListLE (ts.map isLiteral)).setWidth 8

/-- The bytes of a token, where the next byte goes to `pos`. -/
def tokenBytes (pos : ℕ) : Token (BitVec 8) → List (BitVec 8)
  | .literal b => [b]
  | .copy d n =>
      let o := offsetOf 0x400 pos d
      [BitVec.ofNat 8 o, BitVec.ofNat 8 (o / 256 * 64 + (n - 3))]

/-- The stream of a list of tokens, where a number of them belong to the group before. -/
def encodeFrom : ℕ → ℕ → List (Token (BitVec 8)) → List (BitVec 8)
  | _, _, [] => []
  | 0, pos, t :: ts => flagsByte (t :: ts) :: (tokenBytes pos t ++ encodeFrom 7 (pos + t.size) ts)
  | k + 1, pos, t :: ts => tokenBytes pos t ++ encodeFrom k (pos + t.size) ts

/-- **The stream of a list of tokens.** -/
def encode (ts : List (Token (BitVec 8))) : List (BitVec 8) := encodeFrom 0 0x3BE ts

namespace Decode

variable {addr block : BitVec 32} {rdram₀ : Rdram} {total : ℕ} {out : List (BitVec 8)} {s : Decode}
  {eof : BitVec 32}

theorem getLsbD_flagsByte (ts : List (Token (BitVec 8))) {i : ℕ} (hi : i < 8) :
    (flagsByte ts).getLsbD i = (ts.map isLiteral).getD i false := by
  rw [flagsByte, BitVec.getLsbD_setWidth, BitVec.getLsbD_ofBoolListLE, decide_eq_true hi,
    Bool.true_and]

/-- A bit of a register. -/
theorem and_bit_eq_zero (x : BitVec 16) (i : ℕ) (hi : i < 16) :
    x &&& BitVec.twoPow 16 i = 0 ↔ x.getLsbD i = false := by
  rw [BitVec.and_twoPow]
  cases hx : x.getLsbD i with
  | false => simp
  | true =>
      have hne : BitVec.twoPow 16 i ≠ 0 := by
        intro h
        have := congrArg (BitVec.getLsbD · i) h
        simp [hi] at this
      exact iff_of_false hne (by simp)

/-- **The register of the flags**, with a number of tokens of the group left: their flags, and the
bits that tell of them. -/
structure FlagsLeft (k : ℕ) (v : BitVec 16) (ts : List (Token (BitVec 8))) : Prop where
  flags : ∀ i < k, v.getLsbD (i + 1) = (ts.map isLiteral).getD i false
  more : ∀ i < k, v.getLsbD (i + 9) = true
  last : v.getLsbD (k + 9) = false

/-- The tokens that are left of a group behind one of them, the first of a new group among them. -/
def leftAfter : ℕ → ℕ
  | 0 => 7
  | k + 1 => k

@[simp] theorem leftAfter_zero : leftAfter 0 = 7 := rfl
@[simp] theorem leftAfter_succ (k : ℕ) : leftAfter (k + 1) = k := rfl

/-- The register behind a byte of flags. -/
theorem getLsbD_loaded (c : BitVec 8) (i : ℕ) :
    ((c.setWidth 32).setWidth 16 ||| 0xFF00).getLsbD i =
      (c.getLsbD i || decide (8 ≤ i ∧ i < 16)) := by
  have hhigh : (0xFF00 : BitVec 16).getLsbD i = decide (8 ≤ i ∧ i < 16) := by
    rcases Nat.lt_or_ge i 16 with hi | hi
    · interval_cases i <;> rfl
    · rw [BitVec.getLsbD_of_ge _ _ hi, eq_comm, decide_eq_false_iff_not]
      omega
  rw [BitVec.getLsbD_or, hhigh, BitVec.getLsbD_setWidth, BitVec.getLsbD_setWidth]
  rcases Nat.lt_or_ge i 8 with hi | hi
  · simp [show i < 16 by omega, show i < 32 by omega]
  · simp [BitVec.getLsbD_of_ge c i hi]

variable (eof) in
/-- **The flags of the next token**: shifted out of the register, or read with the next byte. -/
theorem nextFlag_spec {k pos : ℕ} {t : Token (BitVec 8)} {ts : List (Token (BitVec 8))}
    {rest : List (BitVec 8)} (h : FlagsLeft k s.varS5 (t :: ts))
    (hs : s.stream = encodeFrom k pos (t :: ts) ++ rest) :
    (s.nextFlag eof).stream =
        tokenBytes pos t ++ (encodeFrom (leftAfter k) (pos + t.size) ts ++ rest) ∧
      ((s.nextFlag eof).varS5 &&& 1 ≠ 0 ↔ isLiteral t) ∧
      FlagsLeft (leftAfter k) (s.nextFlag eof).varS5 ts ∧
      (s.nextFlag eof).rdram = s.rdram := by
  have hbit : ∀ x : BitVec 16, x &&& 1 ≠ 0 ↔ x.getLsbD 0 = true := by
    intro x
    rw [Ne, show (1 : BitVec 16) = BitVec.twoPow 16 0 from rfl, and_bit_eq_zero x 0 (by norm_num),
      Bool.not_eq_false]
  have hnext : (s.varS5 >>> 1) &&& 0x100 = 0 ↔ k = 0 := by
    rw [show (0x100 : BitVec 16) = BitVec.twoPow 16 8 from rfl,
      and_bit_eq_zero _ 8 (by norm_num), BitVec.getLsbD_ushiftRight]
    cases k with
    | zero => exact iff_of_true h.last rfl
    | succ k => simpa using h.more 0 (Nat.succ_pos k)
  cases k with
  | zero =>
      rw [encodeFrom, List.cons_append, List.append_assoc] at hs
      have hflag : s.nextFlag eof = { s with
          varS5 := ((flagsByte (t :: ts)).setWidth 32).setWidth 16 ||| 0xFF00
          stream := tokenBytes pos t ++ (encodeFrom 7 (pos + t.size) ts ++ rest) } := by
        unfold nextFlag
        dsimp only
        rw [if_pos (hnext.2 rfl), hs]
        rfl
      rw [hflag, leftAfter_zero]
      refine ⟨rfl, ?_, ⟨fun i hi => ?_, fun i hi => ?_, ?_⟩, rfl⟩
      · rw [hbit, getLsbD_loaded, getLsbD_flagsByte _ (by norm_num)]
        simp
      · rw [getLsbD_loaded, getLsbD_flagsByte _ (by omega)]
        simp [show ¬ 8 ≤ i + 1 by omega]
      · rw [getLsbD_loaded, decide_eq_true (by omega), Bool.or_true]
      · exact BitVec.getLsbD_of_ge _ _ le_rfl
  | succ k =>
      have hflag : s.nextFlag eof = { s with varS5 := s.varS5 >>> 1 } := by
        unfold nextFlag
        dsimp only
        rw [if_neg (hnext.not.2 (Nat.succ_ne_zero k))]
      rw [hflag, leftAfter_succ]
      refine ⟨?_, ?_, ⟨fun i hi => ?_, fun i hi => ?_, ?_⟩, rfl⟩
      · rw [← List.append_assoc]
        exact hs
      · rw [hbit, BitVec.getLsbD_ushiftRight]
        rw [h.flags 0 (Nat.succ_pos k)]
        rfl
      · rw [BitVec.getLsbD_ushiftRight, Nat.add_comm 1]
        exact h.flags (i + 1) (Nat.succ_lt_succ hi)
      · rw [BitVec.getLsbD_ushiftRight, show 1 + (i + 9) = i + 1 + 9 by omega]
        exact h.more (i + 1) (Nat.succ_lt_succ hi)
      · rw [BitVec.getLsbD_ushiftRight, show 1 + (k + 9) = k + 1 + 9 by omega]
        exact h.last

/-- The high bits of the second byte of a copy. -/
theorem toNat_high : ∀ c : BitVec 8,
    ((c.setWidth 32 &&& ~~~0x3F) * 4).toNat = c.toNat / 64 * 256 := by decide +kernel

/-- **The bytes of a copy** give its place and its length. -/
theorem place_length_of_bytes {o n : ℕ} (ho : o < 0x400) (hn : 3 ≤ n) (hn' : n ≤ 66) :
    (((BitVec.ofNat 8 o).setWidth 32 |||
        (((BitVec.ofNat 8 (o / 256 * 64 + (n - 3))).setWidth 32 &&& ~~~0x3F) * 4)) &&&
          (0x3FF : BitVec 32)).toNat = o ∧
      (((BitVec.ofNat 8 (o / 256 * 64 + (n - 3))).setWidth 32 &&& 0x3F) + 3).toNat = n := by
  have hbyte : (BitVec.ofNat 8 (o / 256 * 64 + (n - 3))).toNat = o / 256 * 64 + (n - 3) := by
    rw [BitVec.toNat_ofNat]
    exact Nat.mod_eq_of_lt (by omega)
  constructor
  · have hlow : ((BitVec.ofNat 8 o).setWidth 32).toNat = o % 256 := by
      rw [BitVec.toNat_setWidth, BitVec.toNat_ofNat]
      omega
    have hhigh : (o / 256 * 64 + (n - 3)) / 64 * 256 = 2 ^ 8 * (o / 256) := by omega
    have hor : 2 ^ 8 * (o / 256) + o % 256 = o := by omega
    rw [Nat.two_pow_add_eq_or_of_lt (by omega)] at hor
    rw [toNat_and_3FF _ (by norm_num), BitVec.toNat_or, toNat_high, hbyte, hlow, hhigh,
      Nat.or_comm, hor, Nat.mod_eq_of_lt ho]
  · rw [toNat_length, BitVec.toNat_setWidth, hbyte]
    omega

variable (eof) in
/-- **A round reads the next token** of a stream. -/
theorem token_spec {k : ℕ} {t : Token (BitVec 8)} {ts : List (Token (BitVec 8))}
    {rest : List (BitVec 8)} (h : FlagsLeft k s.varS5 (t :: ts)) (ht : Fits t)
    (hplace : (d800A0144 s.rdram).toNat = (0x3BE + out.length) % 0x400)
    (hs : s.stream = encodeFrom k (0x3BE + out.length) (t :: ts) ++ rest) :
    s.token eof =
      (t, encodeFrom (leftAfter k) (0x3BE + (out.length + t.size)) ts ++ rest) := by
  obtain ⟨hstream, hflag, -, hrdram⟩ := nextFlag_spec eof h hs
  unfold token
  dsimp only
  rw [hstream, hrdram, hplace]
  cases t with
  | literal b =>
      have hf := hflag.2 rfl
      simp only [tokenBytes, List.cons_append, List.nil_append, fgetcGame, if_pos hf, Token.size]
      rw [Nat.add_assoc, BitVec.setWidth_setWidth_of_le _ (by norm_num), BitVec.setWidth_eq]
  | copy d n =>
      have hf : ¬ (s.nextFlag eof).varS5 &&& 1 ≠ 0 := hflag.not.2 (by simp [isLiteral])
      obtain ⟨hd, hd', hn, hn'⟩ := ht
      have ho : offsetOf 0x400 (0x3BE + out.length) d < 0x400 := Nat.mod_lt _ (by norm_num)
      obtain ⟨hplace, hlength⟩ := place_length_of_bytes ho hn hn'
      simp only [tokenBytes, List.cons_append, List.nil_append, fgetcGame, if_neg hf, Token.size]
      rw [hplace, hlength, Nat.add_assoc, distanceOf_mod, distanceOf_offsetOf hd hd']

variable (eof) in
/-- **The loop unpacks a stream.** -/
theorem Wrote.loop_encodeFrom {rest : List (BitVec 8)} (ha : PlaceApart block addr total)
    (htotal : total < 2 ^ 31) :
    ∀ {ts : List (Token (BitVec 8))} {k n : ℕ} {out : List (BitVec 8)} {s : Decode},
      Wrote addr block rdram₀ out s → s.arg2.toNat + out.length = total → s.arg2.toNat ≤ n →
      FlagsLeft k s.varS5 ts → (∀ t ∈ ts, Fits t) →
      s.stream = encodeFrom k (0x3BE + out.length) ts ++ rest →
      total ≤ (expand 0 out ts).length →
      Wrote addr block rdram₀ ((expand 0 out ts).take total) (Decode.loop eof n s) := by
  intro ts
  induction ts with
  | nil =>
      intro k n out s h hleft _ _ _ _ hlong
      have hlen : total ≤ out.length := hlong
      exact h.done hleft (by omega) n []
  | cons t ts ih =>
      intro k n out s h hleft hn hflags hall hs hlong
      rcases Nat.eq_zero_or_pos s.arg2.toNat with hzero | hpos
      · exact h.done hleft hzero n (t :: ts)
      · obtain ⟨n, rfl⟩ := Nat.exists_eq_add_of_le' (Nat.lt_of_lt_of_le hpos hn)
        have ht := hall t List.mem_cons_self
        have hsize := size_pos ht
        have htoken := token_spec eof hflags ht h.place hs
        obtain ⟨-, -, hflags', -⟩ := nextFlag_spec eof hflags hs
        obtain ⟨hwrote, hleft', hstream, hv⟩ := h.round eof ha hleft htotal hpos
        rw [htoken] at hwrote hleft' hstream
        rw [loop_of_pos hpos (by omega), expand_cons]
        rw [expand_cons] at hlong
        -- the token fits, or it is the last one
        rcases le_or_gt (t.apply 0 out).length total with hfits | hcut
        · rw [List.take_of_length_le hfits] at hwrote hleft'
          rw [length_apply] at hleft'
          refine ih hwrote (by rwa [length_apply]) (by omega) (hv ▸ hflags')
            (fun u hu => hall u (List.mem_cons_of_mem _ hu)) ?_ hlong
          rw [hstream, length_apply]
        · rw [List.length_take, min_eq_left hcut.le] at hleft'
          rw [loop_of_eq_zero (by omega), take_expand ts hcut.le]
          exact hwrote

end Decode

section RoundTrip

variable {env : DecodeEnv} {ts : List (Token (BitVec 8))} {arg1 arg2 : BitVec 32} {rdram : Rdram}

/-- **The round trip**: what the stream of some tokens is unpacked to is their text, as far as it is
asked for.  What is behind the stream does not matter. -/
theorem decode_encode (hts : ∀ t ∈ ts, Decode.Fits t) (rest : List (BitVec 8))
    (hlong : arg2.toInt ≤ (textOf ts).length)
    (ha : PlaceApart (env.block rdram) arg1 arg2.toInt.toNat) :
    Unpacks (DecodeOwn (env.block rdram)) rdram
      (decode env (encode ts ++ rest) arg1 arg2 rdram) arg1
      ((textOf ts).take arg2.toInt.toNat) := by
  have hstart := @wrote_start env (encode ts ++ rest) arg1 arg2 rdram _ ha
  have hlen : ((textOf ts).take arg2.toInt.toNat).length = arg2.toInt.toNat := by
    rw [List.length_take]
    omega
  refine Decode.Wrote.unpacks ?_ (hlen.symm ▸ ha) (length_take_le arg2 _)
  rcases le_or_gt arg2.toInt 0 with hle | hpos
  · rw [loop_of_nonpos hle, Int.toNat_of_nonpos hle]
    exact hstart
  · obtain ⟨hnat, hlt⟩ := toNat_toInt_of_pos hpos
    have hflags : Decode.FlagsLeft 0 0 ts :=
      ⟨fun i hi => absurd hi (Nat.not_lt_zero i), fun i hi => absurd hi (Nat.not_lt_zero i),
        BitVec.getLsbD_zero⟩
    have hshort : arg2.toNat ≤ (textOf ts).length := by omega
    have hwrote := hstart.loop_encodeFrom env.eof (hnat ▸ ha) hlt (n := arg2.toInt.toNat) rfl
      hnat.ge hflags hts rfl hshort
    rwa [← hnat] at hwrote

end RoundTrip

/-- A byte, and four copies of it. -/
theorem decode_encode_run : Unpacks (DecodeOwn (heapEnv.block blankRdram)) blankRdram
    (decode heapEnv (encode [.literal 0x41, .copy 1 4] ++ [0xFF]) 0x80250000 5 blankRdram)
    0x80250000 ((textOf [.literal 0x41, .copy 1 4]).take (5 : BitVec 32).toInt.toNat) :=
  decode_encode (by decide) _ (by decide) (placeApart_heapEnv (by decide) blankRdram)

end Modules
