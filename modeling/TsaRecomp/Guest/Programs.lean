/-
**Recompiled programs behave as on the console.**

A recompiled program sees memory through the macros only.  Here it is any client of the memory: it
picks its next access by what it has loaded so far.  As long as the accesses it makes are aligned as
their instructions want it, it loads on the host what it would have loaded on the console, and
leaves behind the memory that it would have left there.

Words and doublewords that are not aligned are accessed in two parts.  The two parts together do
what one access would do, in either order, and whatever the register held before.

Main definitions:

* `Guest.Access`, `Guest.Access.Aligned` — the accesses;
* `Guest.Access.onHost`, `Guest.Access.onConsole` — what they do on the host and on the console;
* `Guest.RoundTrip` — storing and loading in two parts.

Main results:

* `Guest.play_onHost` — **no program can tell the host from the console**;
* `Guest.roundTrip_parts` — **unaligned accesses**, in two parts.
-/

import TsaRecomp.Guest.Accesses
import TsaRecomp.Lib.Clients

set_option relaxedAutoImplicit false
set_option autoImplicit false

namespace Guest

open Data (Rdram)
open BigEndian (load store misalignment loadLeft loadRight storeLeft storeRight)

/-! ### Accesses -/

/-- The accesses to memory, those that store last. -/
inductive Access
  | memB (offset reg : Gpr)
  | memBU (offset reg : Gpr)
  | memH (offset reg : Gpr)
  | memHU (offset reg : Gpr)
  | memW (offset reg : Gpr)
  | memWU (offset reg : Gpr)
  | ld (offset reg : Gpr)
  | lwl (initialValue offset reg : Gpr)
  | lwr (initialValue offset reg : Gpr)
  | ldl (initialValue offset reg : Gpr)
  | ldr (initialValue offset reg : Gpr)
  | setB (offset reg val : Gpr)
  | setH (offset reg val : Gpr)
  | setW (offset reg val : Gpr)
  | sd (offset reg val : Gpr)
  | swl (offset reg val : Gpr)
  | swr (offset reg val : Gpr)
  | sdl (offset reg val : Gpr)
  | sdr (offset reg val : Gpr)
  deriving DecidableEq, Repr

namespace Access

/-- What an access does to `rdram`, and what it puts into a register. -/
def onHost (rdram : Rdram) : Access → Option Gpr × Rdram
  | memB offset reg => (some ((rdram.readB offset reg).signExtend 64), rdram)
  | memBU offset reg => (some ((rdram.readB offset reg).setWidth 64), rdram)
  | memH offset reg => (some ((readH rdram offset reg).signExtend 64), rdram)
  | memHU offset reg => (some ((readH rdram offset reg).setWidth 64), rdram)
  | memW offset reg => (some ((rdram.readW offset reg).signExtend 64), rdram)
  | memWU offset reg => (some ((rdram.readW offset reg).setWidth 64), rdram)
  | ld offset reg => (some (Guest.ld rdram offset reg), rdram)
  | lwl initialValue offset reg => (some (doLwl rdram initialValue offset reg), rdram)
  | lwr initialValue offset reg => (some (doLwr rdram initialValue offset reg), rdram)
  | ldl initialValue offset reg => (some (doLdl rdram initialValue offset reg), rdram)
  | ldr initialValue offset reg => (some (doLdr rdram initialValue offset reg), rdram)
  | setB offset reg val => (none, rdram.writeB offset reg (val.setWidth 8))
  | setH offset reg val => (none, writeH rdram offset reg (val.setWidth 16))
  | setW offset reg val => (none, rdram.writeW offset reg (val.setWidth 32))
  | sd offset reg val => (none, Guest.sd rdram val offset reg)
  | swl offset reg val => (none, doSwl rdram offset reg val)
  | swr offset reg val => (none, doSwr rdram offset reg val)
  | sdl offset reg val => (none, doSdl rdram offset reg val)
  | sdr offset reg val => (none, doSdr rdram offset reg val)

/-- What the instruction does on the console, where the highest byte of a number comes first. -/
def onConsole (mem : Gpr → BitVec 8) : Access → Option Gpr × (Gpr → BitVec 8)
  | memB offset reg => (some (BitVec.signExtend 64 (load 1 mem (reg + offset))), mem)
  | memBU offset reg => (some (BitVec.setWidth 64 (load 1 mem (reg + offset))), mem)
  | memH offset reg => (some (BitVec.signExtend 64 (load 2 mem (reg + offset))), mem)
  | memHU offset reg => (some (BitVec.setWidth 64 (load 2 mem (reg + offset))), mem)
  | memW offset reg => (some (BitVec.signExtend 64 (load 4 mem (reg + offset))), mem)
  | memWU offset reg => (some (BitVec.setWidth 64 (load 4 mem (reg + offset))), mem)
  | ld offset reg => (some (load 8 mem (reg + offset)), mem)
  | lwl initialValue offset reg =>
      (some (BitVec.signExtend 64 (loadLeft 4 mem (initialValue.setWidth 32) (reg + offset))), mem)
  | lwr initialValue offset reg =>
      (some (BitVec.signExtend 64 (loadRight 4 mem (initialValue.setWidth 32) (reg + offset))), mem)
  | ldl initialValue offset reg => (some (loadLeft 8 mem initialValue (reg + offset)), mem)
  | ldr initialValue offset reg => (some (loadRight 8 mem initialValue (reg + offset)), mem)
  | setB offset reg val => (none, store 1 mem (reg + offset) (val.setWidth 8))
  | setH offset reg val => (none, store 2 mem (reg + offset) (val.setWidth 16))
  | setW offset reg val => (none, store 4 mem (reg + offset) (val.setWidth 32))
  | sd offset reg val => (none, store 8 mem (reg + offset) val)
  | swl offset reg val => (none, storeLeft 4 mem (reg + offset) (val.setWidth 32))
  | swr offset reg val => (none, storeRight 4 mem (reg + offset) (val.setWidth 32))
  | sdl offset reg val => (none, storeLeft 8 mem (reg + offset) val)
  | sdr offset reg val => (none, storeRight 8 mem (reg + offset) val)

/-- The alignment that an access needs: doublewords are accessed by words. -/
def Aligned : Access → Prop
  | memH offset reg | memHU offset reg | setH offset reg _ => misalignment 2 (reg + offset) = 0
  | memW offset reg | memWU offset reg | setW offset reg _ | ld offset reg | sd offset reg _ =>
      misalignment 4 (reg + offset) = 0
  | memB _ _ | memBU _ _ | setB _ _ _ => True
  | lwl _ _ _ | lwr _ _ _ | ldl _ _ _ | ldr _ _ _ => True
  | swl _ _ _ | swr _ _ _ | sdl _ _ _ | sdr _ _ _ => True

instance : DecidablePred Aligned := fun x => by
  cases x <;> (unfold Aligned; infer_instance)

/-- **One access**, on the host and on the console. -/
theorem onHost_eq {x : Access} (rdram : Rdram) (h : x.Aligned) :
    (x.onHost rdram).1 = (x.onConsole (guest rdram)).1 ∧
      guest (x.onHost rdram).2 = (x.onConsole (guest rdram)).2 := by
  cases x with
  | memB offset reg | memBU offset reg =>
      refine ⟨?_, rfl⟩
      simp only [onHost, onConsole, readB_eq]
  | memH offset reg | memHU offset reg =>
      refine ⟨?_, rfl⟩
      simp only [onHost, onConsole, readH_eq h]
  | memW offset reg | memWU offset reg =>
      refine ⟨?_, rfl⟩
      simp only [onHost, onConsole, readW_eq h]
  | ld offset reg =>
      have h' : misalignment 4 (offset + reg) = 0 := by rwa [BitVec.add_comm]
      refine ⟨?_, rfl⟩
      simp only [onHost, onConsole, Guest.ld, loadDoubleword_eq h', BitVec.add_comm offset reg]
  | lwl initialValue offset reg =>
      refine ⟨?_, rfl⟩
      simp only [onHost, onConsole, doLwl_eq, BitVec.add_comm offset reg]
  | lwr initialValue offset reg =>
      refine ⟨?_, rfl⟩
      simp only [onHost, onConsole, doLwr_eq, BitVec.add_comm offset reg]
  | ldl initialValue offset reg =>
      refine ⟨?_, rfl⟩
      simp only [onHost, onConsole, doLdl_eq, BitVec.add_comm offset reg]
  | ldr initialValue offset reg =>
      refine ⟨?_, rfl⟩
      simp only [onHost, onConsole, doLdr_eq, BitVec.add_comm offset reg]
  | setB offset reg val => exact ⟨rfl, guest_writeB _⟩
  | setH offset reg val => exact ⟨rfl, guest_writeH h _⟩
  | setW offset reg val => exact ⟨rfl, guest_writeW h _⟩
  | sd offset reg val => exact ⟨rfl, guest_sd h _⟩
  | swl offset reg val =>
      refine ⟨rfl, (guest_doSwl val).trans ?_⟩
      rw [BitVec.add_comm]
      rfl
  | swr offset reg val =>
      refine ⟨rfl, (guest_doSwr val).trans ?_⟩
      rw [BitVec.add_comm]
      rfl
  | sdl offset reg val =>
      refine ⟨rfl, (guest_doSdl val).trans ?_⟩
      rw [BitVec.add_comm]
      rfl
  | sdr offset reg val =>
      refine ⟨rfl, (guest_doSdr val).trans ?_⟩
      rw [BitVec.add_comm]
      rfl

end Access

/-! ### Programs -/

/-- A program: its next access, by what it has loaded so far. -/
abbrev Program := Clients.Client Access (Option Gpr)

theorem simulates : Clients.Simulates Access.onHost Access.onConsole
    (fun rdram mem => guest rdram = mem) fun _ x => x.Aligned where
  answer rdram _ _ hr h := hr ▸ (Access.onHost_eq rdram h).1
  next rdram _ _ hr h := hr ▸ (Access.onHost_eq rdram h).2

/-- **No program can tell the host from the console**: whatever it has loaded so far, it goes on to
load the same, and to leave the same memory behind. -/
theorem play_onHost (p : Program) (rdram : Rdram) (n : ℕ) (loaded : List (Option Gpr))
    (h : Clients.Keeps Access.onConsole (fun _ x => x.Aligned) p n (loaded, guest rdram)) :
    (Clients.play Access.onHost p n (loaded, rdram)).1 =
        (Clients.play Access.onConsole p n (loaded, guest rdram)).1 ∧
      (Clients.play Access.onHost p n (loaded, rdram)).2 =
        host (Clients.play Access.onConsole p n (loaded, guest rdram)).2 := by
  have hplay := simulates.play (rfl : guest rdram = guest rdram) h
  refine ⟨hplay.1, ?_⟩
  rw [← hplay.2, host_guest]

/-- A program that stores two words, and loads the word across their border in two parts. -/
def acrossBorder : Program
  | [] => some (.setW 0 0xFFFFFFFF80000000 0x00112233)
  | [_] => some (.setW 4 0xFFFFFFFF80000000 0x44556677)
  | [_, _] => some (.lwl 0 2 0xFFFFFFFF80000000)
  | [initial, _, _] => some (.lwr (initial.getD 0) 5 0xFFFFFFFF80000000)
  | _ => none

/-- Such a program loads the same word on both. -/
theorem play_onHost_acrossBorder :
    (Clients.play Access.onHost acrossBorder 4 ([], fun _ => 0)).1 =
      (Clients.play Access.onConsole acrossBorder 4 ([], guest fun _ => 0)).1 :=
  (play_onHost acrossBorder (fun _ => 0) 4 []
    ⟨by decide, by decide, trivial, trivial, trivial⟩).1

/-! ### Accesses in two parts -/

/-- **What is stored in two parts** of `n` bytes at an address is loaded in two parts. -/
structure RoundTrip (n : ℕ) (a : Gpr) (loadL loadR : Rdram → Gpr → Gpr)
    (storeL storeR : Rdram → Rdram) (value : Gpr) : Prop where
  /-- The order of the parts makes no difference to the memory. -/
  order : ∀ rdram, storeL (storeR rdram) = storeR (storeL rdram)
  /-- The value is loaded, whatever the register holds. -/
  loaded : ∀ rdram initialValue, let stored := storeR (storeL rdram)
    loadR stored (loadL stored initialValue) = value
  /-- And it is with the right part first. -/
  loaded_right : ∀ rdram initialValue, let stored := storeR (storeL rdram)
    loadL stored (loadR stored initialValue) = value
  /-- The other bytes of the console are left alone. -/
  others : ∀ rdram x, n ≤ (x - a).toNat → guest (storeR (storeL rdram)) x = guest rdram x

variable (rdram : Rdram) (offset reg v : Gpr)

theorem guest_injective : Function.Injective guest :=
  Function.LeftInverse.injective host_guest

theorem four_dvd : 4 ∣ 2 ^ 64 := ⟨2 ^ 62, rfl⟩

theorem eight_dvd : 8 ∣ 2 ^ 64 := ⟨2 ^ 61, rfl⟩

/-- The last byte of an access at an address. -/
theorem add_last (k : ℕ) : offset + BitVec.ofNat 64 k + reg = offset + reg + BitVec.ofNat 64 k := by
  ring

/-- **A word is loaded in two parts**, in either order. -/
theorem load_parts_word : doLwr rdram (doLwl rdram v offset reg) (offset + 3) reg =
      BitVec.signExtend 64 (load 4 (guest rdram) (offset + reg)) ∧
    doLwl rdram (doLwr rdram v (offset + 3) reg) offset reg =
      BitVec.signExtend 64 (load 4 (guest rdram) (offset + reg)) := by
  have hlast : offset + 3 + reg = offset + reg + BitVec.ofNat 64 (4 - 1) := add_last offset reg 3
  refine ⟨?_, ?_⟩
  · rw [doLwr_eq, doLwl_eq, setWidth_signExtend, hlast, BigEndian.loadRight_loadLeft four_dvd]
  · rw [doLwl_eq, doLwr_eq, setWidth_signExtend, hlast, BigEndian.loadLeft_loadRight four_dvd]

/-- **A word is stored in two parts**, in either order. -/
theorem store_parts_word : guest (doSwr (doSwl rdram offset reg v) (offset + 3) reg v) =
      store 4 (guest rdram) (offset + reg) (v.setWidth 32) ∧
    guest (doSwl (doSwr rdram (offset + 3) reg v) offset reg v) =
      store 4 (guest rdram) (offset + reg) (v.setWidth 32) := by
  have hlast : offset + 3 + reg = offset + reg + BitVec.ofNat 64 (4 - 1) := add_last offset reg 3
  refine ⟨?_, ?_⟩
  · rw [guest_doSwr, guest_doSwl, hlast, BigEndian.storeRight_storeLeft four_dvd (by decide)]
  · rw [guest_doSwl, guest_doSwr, hlast, BigEndian.storeLeft_storeRight four_dvd (by decide)]

/-- **A doubleword is loaded in two parts**, in either order. -/
theorem load_parts_doubleword : doLdr rdram (doLdl rdram v offset reg) (offset + 7) reg =
      load 8 (guest rdram) (offset + reg) ∧
    doLdl rdram (doLdr rdram v (offset + 7) reg) offset reg =
      load 8 (guest rdram) (offset + reg) := by
  have hlast : offset + 7 + reg = offset + reg + BitVec.ofNat 64 (8 - 1) := add_last offset reg 7
  refine ⟨?_, ?_⟩
  · rw [doLdr_eq, doLdl_eq, hlast, BigEndian.loadRight_loadLeft eight_dvd]
  · rw [doLdl_eq, doLdr_eq, hlast, BigEndian.loadLeft_loadRight eight_dvd]

/-- **A doubleword is stored in two parts**, in either order. -/
theorem store_parts_doubleword : guest (doSdr (doSdl rdram offset reg v) (offset + 7) reg v) =
      store 8 (guest rdram) (offset + reg) v ∧
    guest (doSdl (doSdr rdram (offset + 7) reg v) offset reg v) =
      store 8 (guest rdram) (offset + reg) v := by
  have hlast : offset + 7 + reg = offset + reg + BitVec.ofNat 64 (8 - 1) := add_last offset reg 7
  refine ⟨?_, ?_⟩
  · rw [guest_doSdr, guest_doSdl, hlast, BigEndian.storeRight_storeLeft eight_dvd (by decide)]
  · rw [guest_doSdl, guest_doSdr, hlast, BigEndian.storeLeft_storeRight eight_dvd (by decide)]

/-- **Unaligned accesses**: a word or a doubleword that is stored in two parts is loaded in two
parts, at any address. -/
theorem roundTrip_parts :
    RoundTrip 4 (offset + reg) (fun m i => doLwl m i offset reg)
        (fun m i => doLwr m i (offset + 3) reg) (fun m => doSwl m offset reg v)
        (fun m => doSwr m (offset + 3) reg v) (BitVec.signExtend 64 (v.setWidth 32)) ∧
      RoundTrip 8 (offset + reg) (fun m i => doLdl m i offset reg)
        (fun m i => doLdr m i (offset + 7) reg) (fun m => doSdl m offset reg v)
        (fun m => doSdr m (offset + 7) reg v) v := by
  have hword (rdram : Rdram) := store_parts_word rdram offset reg v
  have hdouble (rdram : Rdram) := store_parts_doubleword rdram offset reg v
  refine ⟨⟨?_, ?_, ?_, ?_⟩, ⟨?_, ?_, ?_, ?_⟩⟩
  · intro rdram
    exact guest_injective ((hword rdram).2.trans (hword rdram).1.symm)
  · intro rdram initialValue stored
    rw [(load_parts_word stored offset reg initialValue).1, (hword rdram).1,
      BigEndian.load_store (by decide)]
  · intro rdram initialValue stored
    rw [(load_parts_word stored offset reg initialValue).2, (hword rdram).1,
      BigEndian.load_store (by decide)]
  · intro rdram x hx
    rw [(hword rdram).1]
    exact if_neg (by omega)
  · intro rdram
    exact guest_injective ((hdouble rdram).2.trans (hdouble rdram).1.symm)
  · intro rdram initialValue stored
    rw [(load_parts_doubleword stored offset reg initialValue).1, (hdouble rdram).1,
      BigEndian.load_store (by decide)]
  · intro rdram initialValue stored
    rw [(load_parts_doubleword stored offset reg initialValue).2, (hdouble rdram).1,
      BigEndian.load_store (by decide)]
  · intro rdram x hx
    rw [(hdouble rdram).1]
    exact if_neg (by omega)

end Guest
