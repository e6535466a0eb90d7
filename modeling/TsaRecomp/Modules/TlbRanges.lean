/-
**The ranges and the pages of the entries.**

`_tlb_lookup` finds an entry by a test that includes both ends of its range, and takes a cleared
entry for one of two mapped pages of no size at the null address.  Of the two pages of the entry it
takes the earlier one in memory for the first page of the range, its end included, and the later
one behind.  The machine takes the even page for the first half of a range that does not include
its end, and the odd page for the second half.  This module settles where the two agree.

Main definitions:

* `Modules.osUnmapTLBAll`, `Modules.TLBTrace` — the table behind any calls, with the entries that
  are mapped;
* `Modules.TLBEntry.InRange`, `Modules.TLBEntry.EndsAt` — the half-open range of an entry, and its
  end;
* `Modules.RangesExact` — the lookup uses no entry that does not hold the address;
* `Modules.TLBEntry.physical` — the translation of the machine;
* `Modules.TLBEntry.InOrder`, `Modules.TranslatesAs` — **where the lookup is that of the machine**.

Main results:

* `Modules.TLBTrace.Reachable.written` — the entries of a table that calls have written;
* `Modules.TLBEntry.covers_iff` — the test of the lookup, in terms of the range and its end;
* `Modules.ranges_exact_iff` — **the ranges are exact** but where an entry ends at the address;
* `Modules.TLBEntry.translate_iff_inOrder` — the page that is taken in an entry;
* `Modules.lookup_physical_iff` — **the pages are those of the machine** but where they are not in
  order.
-/

import TsaRecomp.Lib.Runs
import TsaRecomp.Modules.Tlb

set_option relaxedAutoImplicit false
set_option autoImplicit false

namespace Modules

/-! ### The tables of the program -/

/-- `osUnmapTLBAll_recomp` -/
def osUnmapTLBAll (t : TLBTable) : TLBTable := (List.finRange 32).foldl osUnmapTLB t

theorem foldl_osUnmapTLB_apply (l : List (Fin 32)) (t : TLBTable) (i : Fin 32) :
    l.foldl osUnmapTLB t i = if i ∈ l then .zero else t i := by
  induction l generalizing t with
  | nil => simp
  | cons j l ih =>
      rw [List.foldl_cons, ih, osUnmapTLB]
      by_cases hi : i = j <;> simp [hi]

@[simp] theorem osUnmapTLBAll_apply (t : TLBTable) (i : Fin 32) : osUnmapTLBAll t i = .zero := by
  rw [osUnmapTLBAll, foldl_osUnmapTLB_apply, if_pos (List.mem_finRange i)]

/-- The table, and the entries that are mapped. -/
structure TLBTrace where
  table : TLBTable
  mapped : Fin 32 → Bool

/-- A call that writes the table. -/
inductive TLBAct
  | map (index : Fin 32) (pm vaddr evenpaddr oddpaddr : BitVec 32)
  | unmap (index : Fin 32)
  | unmapAll

namespace TLBTrace

/-- The table behind a call. -/
def next (s : TLBTrace) : TLBAct → TLBTrace
  | .map index pm vaddr evenpaddr oddpaddr =>
      ⟨osMapTLB s.table index pm vaddr evenpaddr oddpaddr,
        fun i => if i = index then true else s.mapped i⟩
  | .unmap index => ⟨osUnmapTLB s.table index, fun i => if i = index then false else s.mapped i⟩
  | .unmapAll => ⟨osUnmapTLBAll s.table, fun _ => false⟩

/-- The table that nothing has been written to. -/
def start : TLBTrace := ⟨fun _ => .zero, fun _ => false⟩

def Step (s : TLBTrace) (a : TLBAct) (t : TLBTrace) : Prop := t = s.next a

def Init (s : TLBTrace) : Prop := s = start

/-- A table that a sequence of calls leaves. -/
abbrev Reachable (s : TLBTrace) : Prop := Runs.Reach Step Init (fun _ _ => True) s

/-- **The invariant**: an entry is mapped as `osMapTLB` writes it, or cleared. -/
def Written (s : TLBTrace) : Prop :=
  ∀ i, s.mapped i = true ∧ (∃ pm vaddr evenpaddr oddpaddr,
      s.table i = mappedEntry pm vaddr evenpaddr oddpaddr) ∨
    s.mapped i = false ∧ s.table i = .zero

/-- **The step lemma.** -/
theorem Written.step {s t : TLBTrace} {a : TLBAct} (h : Written s) (hst : Step s a t) :
    Written t := by
  intro i
  cases a with
  | map index pm vaddr evenpaddr oddpaddr =>
      subst hst
      by_cases hi : i = index
      · exact Or.inl ⟨by simp [next, hi], pm, vaddr, evenpaddr, oddpaddr,
          by simp [next, osMapTLB, hi]⟩
      · simpa [next, osMapTLB, hi] using h i
  | unmap index =>
      subst hst
      by_cases hi : i = index
      · exact Or.inr ⟨by simp [next, hi], by simp [next, osUnmapTLB, hi]⟩
      · simpa [next, osUnmapTLB, hi] using h i
  | unmapAll =>
      subst hst
      exact Or.inr ⟨rfl, osUnmapTLBAll_apply s.table i⟩

/-- **The run lemma.** -/
theorem Reachable.written {s : TLBTrace} (h : Reachable s) : Written s := by
  refine Runs.Reach.invariant (I := Written) ?_ (fun s a t hs _ hst => hs.step hst) h
  rintro s rfl i
  exact Or.inr ⟨rfl, rfl⟩

end TLBTrace

/-! ### The range of an entry -/

/-- The size of a page. -/
theorem pageSizeOf_bounds (pm : BitVec 32) :
    0 < (pageSizeOf pm).toNat ∧ (pageSizeOf pm).toNat ≤ 2 ^ 24 := by
  unfold pageSizeOf
  split_ifs <;> decide

namespace TLBEntry

/-- The bytes that an entry maps. -/
def size (e : TLBEntry) : ℕ := e.tlbCount * e.pagesize.toNat

/-- The address is in the half-open range of the mapped pages. -/
def InRange (e : TLBEntry) (a : BitVec 32) : Prop :=
  e.vaddr.toNat ≤ a.toNat ∧ a.toNat < e.vaddr.toNat + e.size

/-- The range of the entry ends at the address.  That of a cleared entry ends at the null
address. -/
def EndsAt (e : TLBEntry) (a : BitVec 32) : Prop :=
  e.tlbCount ≠ 0 ∧ e.vaddr.toNat + e.size = a.toNat

instance (e : TLBEntry) (a : BitVec 32) : Decidable (e.InRange a) :=
  inferInstanceAs (Decidable (_ ∧ _))

instance (e : TLBEntry) (a : BitVec 32) : Decidable (e.EndsAt a) :=
  inferInstanceAs (Decidable (_ ∧ _))

theorem tlbCount_le (e : TLBEntry) : e.tlbCount ≤ 2 := by
  unfold tlbCount
  split_ifs <;> omega

theorem not_inRange_zero (a : BitVec 32) : ¬ zero.InRange a := by
  rintro ⟨-, h⟩
  have hsize : zero.vaddr.toNat + zero.size = 0 := rfl
  omega

theorem not_inRange_of_endsAt {e : TLBEntry} {a : BitVec 32} (h : e.EndsAt a) : ¬ e.InRange a :=
  fun hr => absurd h.2 hr.2.ne'

section Covers

variable {e : TLBEntry} (hsize : e.pagesize.toNat ≤ 2 ^ 24)

include hsize

theorem toNat_fullsize (hcount : e.tlbCount ≠ 0) : e.fullsize.toNat = e.size := by
  have hle := e.tlbCount_le
  unfold fullsize size
  split_ifs with h
  · rw [h, BitVec.toNat_add]
    omega
  · rw [show e.tlbCount = 1 by omega, one_mul]

/-- **The test of the lookup** accepts the range and its end, when these do not run over the end of
the address space. -/
theorem covers_iff {a : BitVec 32} : e.covers a = true ↔
    e.vaddr.toNat + e.size < 2 ^ 32 ∧ (e.InRange a ∨ e.EndsAt a) := by
  have ha := a.isLt
  rw [covers, Bool.and_eq_true, Bool.and_eq_true, decide_eq_true_eq, decide_eq_true_eq,
    decide_eq_true_eq, BitVec.le_def, BitVec.le_def]
  by_cases hcount : e.tlbCount = 0
  · have h0 : e.size = 0 := by rw [size, hcount, zero_mul]
    refine iff_of_false (fun h => h.1 hcount) ?_
    rintro ⟨-, h | h⟩
    · have := h.1
      have := h.2
      omega
    · exact h.1 hcount
  · have hfull := toNat_fullsize hsize hcount
    have hle : e.size ≤ 2 ^ 25 := by
      have := Nat.mul_le_mul e.tlbCount_le hsize
      exact this
    have hv := e.vaddr.isLt
    rw [BitVec.toNat_add, hfull]
    simp only [InRange, EndsAt, hcount, ne_eq, not_false_eq_true, true_and]
    omega

end Covers

end TLBEntry

theorem TLBTrace.Written.pagesize_le {s : TLBTrace} (h : s.Written) (i : Fin 32) :
    (s.table i).pagesize.toNat ≤ 2 ^ 24 := by
  rcases h i with ⟨-, pm, vaddr, evenpaddr, oddpaddr, he⟩ | ⟨-, he⟩
  · rw [he]
    exact (pageSizeOf_bounds pm).2
  · rw [he]
    decide

theorem TLBTrace.Written.mapped {s : TLBTrace} (h : s.Written) {i : Fin 32} {a : BitVec 32}
    (ha : (s.table i).InRange a) : s.mapped i = true := by
  rcases h i with ⟨hm, -⟩ | ⟨-, he⟩
  · exact hm
  · rw [he] at ha
    exact absurd ha (TLBEntry.not_inRange_zero a)

/-! ### The entry that is used -/

/-- The entry that `_tlb_lookup` returns from. -/
def usedEntry (t : TLBTable) (effAddr : BitVec 64) : Option (Fin 32) :=
  if (effAddr &&& 0x00000000FF000000) >>> 24 = 0x80 then none
  else (List.finRange 32).find? fun i => (t i).covers (effAddr.setWidth 32)

theorem tlbLookup_eq (t : TLBTable) (a : BitVec 64) :
    tlbLookup t a = (usedEntry t a).elim a fun i => (t i).translate (a.setWidth 32) := by
  unfold tlbLookup usedEntry
  split
  · rfl
  · cases (List.finRange 32).find? fun i => (t i).covers (a.setWidth 32) <;> rfl

/-- The first entry that the test of the lookup accepts. -/
def FirstCovering (t : TLBTable) (a : BitVec 32) (i : Fin 32) : Prop :=
  (t i).covers a = true ∧ ∀ j < i, (t j).covers a = false

theorem usedEntry_eq_some_iff {t : TLBTable} {a : BitVec 64} {i : Fin 32}
    (ha : (a &&& 0x00000000FF000000) >>> 24 ≠ 0x80) :
    usedEntry t a = some i ↔ FirstCovering t (a.setWidth 32) i := by
  rw [usedEntry, if_neg ha, ← Fin.find?_eq_find?_finRange, Fin.find?_eq_some_iff]
  rfl

theorem usedEntry_eq_none_iff {t : TLBTable} {a : BitVec 64}
    (ha : (a &&& 0x00000000FF000000) >>> 24 ≠ 0x80) :
    usedEntry t a = none ↔ ∀ i, (t i).covers (a.setWidth 32) = false := by
  rw [usedEntry, if_neg ha, List.find?_eq_none]
  simp

/-- **The ranges are exact** at an address. -/
structure RangesExact (s : TLBTrace) (a : BitVec 64) : Prop where
  /-- An entry that is used is mapped, and holds the address. -/
  only : ∀ i, usedEntry s.table a = some i →
    s.mapped i = true ∧ (s.table i).InRange (a.setWidth 32)
  /-- An address that no mapped entry holds is left as it is. -/
  unchanged : (∀ i, s.mapped i = true → ¬ (s.table i).InRange (a.setWidth 32)) →
    tlbLookup s.table a = a
  /-- No entry is used that ends at the address. -/
  last : ∀ i, usedEntry s.table a = some i → ¬ (s.table i).EndsAt (a.setWidth 32)

theorem RangesExact.of_only {s : TLBTrace} {a : BitVec 64}
    (h : ∀ i, usedEntry s.table a = some i → (s.table i).InRange (a.setWidth 32))
    (hs : s.Written) : RangesExact s a := by
  refine ⟨fun i hi => ⟨hs.mapped (h i hi), h i hi⟩, fun hnone => ?_, fun i hi he => ?_⟩
  · rw [tlbLookup_eq]
    cases hu : usedEntry s.table a with
    | none => rfl
    | some i => exact absurd (h i hu) (hnone i (hs.mapped (h i hu)))
  · exact TLBEntry.not_inRange_of_endsAt he (h i hi)

/-- **The ranges are exact** if and only if every entry that ends at the address stands behind one
that holds it. -/
theorem ranges_exact_iff {s : TLBTrace} (h : s.Reachable) {a : BitVec 64}
    (ha : (a &&& 0x00000000FF000000) >>> 24 ≠ 0x80) :
    RangesExact s a ↔ ∀ i, (s.table i).EndsAt (a.setWidth 32) →
      ∃ j < i, (s.table j).covers (a.setWidth 32) = true ∧
        (s.table j).InRange (a.setWidth 32) := by
  have hw := h.written
  have hcovers := fun i => TLBEntry.covers_iff (hw.pagesize_le i) (a := a.setWidth 32)
  constructor
  · intro hexact i hi
    -- the entry is accepted, so that one is used that is not behind it
    have hlt : (s.table i).vaddr.toNat + (s.table i).size < 2 ^ 32 := by
      rw [hi.2]
      exact (a.setWidth 32).isLt
    have hc := (hcovers i).2 ⟨hlt, Or.inr hi⟩
    cases hu : usedEntry s.table a with
    | none =>
        rw [(usedEntry_eq_none_iff ha).1 hu i] at hc
        cases hc
    | some j =>
        obtain ⟨hj, hfirst⟩ := (usedEntry_eq_some_iff ha).1 hu
        have hr := (hexact.only j hu).2
        refine ⟨j, lt_of_le_of_ne ?_ ?_, hj, hr⟩
        · by_contra hji
          rw [hfirst i (not_le.1 hji)] at hc
          cases hc
        · rintro rfl
          exact TLBEntry.not_inRange_of_endsAt hi hr
  · intro hends
    refine .of_only (fun i hu => ?_) hw
    obtain ⟨hi, hfirst⟩ := (usedEntry_eq_some_iff ha).1 hu
    rcases ((hcovers i).1 hi).2 with hr | he
    · exact hr
    · obtain ⟨j, hj, hc, -⟩ := hends i he
      rw [hfirst j hj] at hc
      cases hc

/-- One entry of two pages, and an address in the second. -/
def oneEntry : TLBTrace :=
  TLBTrace.start.next (.map ⟨0, by decide⟩ 0 0x10000000 0x250000 0x251000)

theorem oneEntry_reachable : oneEntry.Reachable :=
  Runs.Reach.step (Runs.Reach.init rfl) (TLBAct.map 0 0 0x10000000 0x250000 0x251000) trivial rfl

theorem ranges_exact_iff_oneEntry : RangesExact oneEntry 0x10001010 := by
  have hends : ∀ i, ¬ (oneEntry.table i).EndsAt ((0x10001010 : BitVec 64).setWidth 32) := by
    decide
  exact (ranges_exact_iff oneEntry_reachable (by decide)).2 fun i hi => absurd hi (hends i)

/-- The null address is translated by an entry that has never been written. -/
theorem null_translated : ¬ ∀ s : TLBTrace, s.Reachable → ∀ a : BitVec 64,
    (a &&& 0x00000000FF000000) >>> 24 ≠ 0x80 → RangesExact s a := by
  intro h
  have hexact := h TLBTrace.start (Runs.Reach.init rfl) 0 (by decide)
  have hunchanged := hexact.unchanged fun i hi => by cases hi
  exact absurd hunchanged (by decide)

/-! ### The page of an entry -/

namespace TLBEntry

/-- The address is in the range of the two pages, whether they are mapped or not. -/
def InPages (e : TLBEntry) (a : BitVec 32) : Prop :=
  e.vaddr.toNat ≤ a.toNat ∧ a.toNat < e.vaddr.toNat + 2 * e.pagesize.toNat

instance (e : TLBEntry) (a : BitVec 32) : Decidable (e.InPages a) :=
  inferInstanceAs (Decidable (_ ∧ _))

/-- The translation of the machine, in the range of the two pages: the first half is in the even
page, and the second half in the odd one, when they are mapped. -/
def physical (e : TLBEntry) (a : BitVec 32) : Option (BitVec 32) :=
  if a.toNat < e.vaddr.toNat + e.pagesize.toNat then
    if e.evenpaddr ≠ -1 then some (e.evenpaddr + (a - e.vaddr)) else none
  else if e.oddpaddr ≠ -1 then some (e.oddpaddr + (a - e.vaddr - e.pagesize)) else none

/-- The even page is not above the odd one, and at the first byte of the odd page it ends where
the odd one begins. -/
def InOrder (e : TLBEntry) (a : BitVec 32) : Prop :=
  e.evenpaddr ≤ e.oddpaddr ∧
    (a.toNat = e.vaddr.toNat + e.pagesize.toNat → e.oddpaddr = e.evenpaddr + e.pagesize)

/-- The end of the later one of the two pages in memory. -/
def lastEnd (e : TLBEntry) : BitVec 32 :=
  (if e.evenpaddr < e.oddpaddr then e.oddpaddr else e.evenpaddr) + e.pagesize

/-- The address in memory that `_tlb_lookup` adds the base of the unmapped segment to. -/
theorem translate_eq (e : TLBEntry) (a : BitVec 32) : e.translate a =
    ((if e.pagesize < a - e.vaddr then
        (if e.evenpaddr < e.oddpaddr then e.oddpaddr else e.evenpaddr) + (a - e.vaddr - e.pagesize)
      else (if e.oddpaddr < e.evenpaddr then e.oddpaddr else e.evenpaddr) + (a - e.vaddr)) +
        0x80000000).signExtend 64 := rfl

/-- Two addresses in memory give the same address in the unmapped segment if they are the same. -/
theorem signExtend_base_inj {p q : BitVec 32} :
    (p + 0x80000000).signExtend 64 = (q + 0x80000000).signExtend 64 ↔ p = q := by
  constructor
  · intro h
    have hint := congrArg BitVec.toInt h
    rw [BitVec.toInt_signExtend_of_le (by decide), BitVec.toInt_signExtend_of_le (by decide)] at hint
    exact (BitVec.add_left_inj _).1 (BitVec.eq_of_toInt_eq hint)
  · rintro rfl
    rfl

/-- **The page that is taken** in an entry is that of the machine if and only if the pages are in
order. -/
theorem translate_iff_inOrder {e : TLBEntry} {a p : BitVec 32} (hsize : 0 < e.pagesize.toNat)
    (ha : e.InPages a) (hp : e.physical a = some p) :
    e.translate a = (p + 0x80000000).signExtend 64 ↔ e.InOrder a := by
  rw [translate_eq, signExtend_base_inj, InOrder]
  obtain ⟨h₁, -⟩ := ha
  have hoffset : (a - e.vaddr).toNat = a.toNat - e.vaddr.toNat := by
    have := a.isLt
    rw [BitVec.toNat_sub]
    omega
  have hlate : e.pagesize < a - e.vaddr ↔ e.pagesize.toNat < a.toNat - e.vaddr.toNat := by
    rw [BitVec.lt_def, hoffset]
  have horder : e.evenpaddr ≤ e.oddpaddr ↔ ¬ e.oddpaddr < e.evenpaddr := BitVec.not_lt.symm
  unfold physical at hp
  by_cases hfirst : a.toNat < e.vaddr.toNat + e.pagesize.toNat
  · -- the even page
    rw [if_pos hfirst, Option.ite_none_right_eq_some] at hp
    rw [if_neg (by rw [hlate]; omega), ← Option.some.inj hp.2, BitVec.add_left_inj, horder]
    constructor
    · intro he
      refine ⟨fun hlt => ?_, fun hb => absurd hb hfirst.ne⟩
      rw [if_pos hlt] at he
      exact absurd he (BitVec.ne_of_lt hlt)
    · rintro ⟨hlt, -⟩
      rw [if_neg hlt]
  · rw [if_neg hfirst, Option.ite_none_right_eq_some] at hp
    by_cases hlast : a.toNat = e.vaddr.toNat + e.pagesize.toNat
    · -- the first byte of the odd page
      have hpage : a - e.vaddr = e.pagesize := by
        refine BitVec.eq_of_toNat_eq ?_
        rw [hoffset]
        omega
      rw [if_neg (by rw [hlate]; omega), ← Option.some.inj hp.2, hpage, BitVec.sub_self,
        BitVec.add_zero, horder]
      constructor
      · intro he
        have hlt : ¬ e.oddpaddr < e.evenpaddr := by
          intro hlt
          rw [if_pos hlt] at he
          have h0 := congrArg BitVec.toNat (BitVec.add_right_eq_self.1 he)
          exact absurd h0 hsize.ne'
        rw [if_neg hlt] at he
        exact ⟨hlt, fun _ => he.symm⟩
      · rintro ⟨hlt, he⟩
        rw [if_neg hlt, he hlast]
    · -- the rest of the odd page
      rw [if_pos (by rw [hlate]; omega), ← Option.some.inj hp.2, BitVec.add_left_inj, horder]
      constructor
      · intro he
        refine ⟨fun hlt => ?_, fun hb => absurd hb hlast⟩
        rw [if_neg (by rw [BitVec.not_lt]; exact BitVec.le_of_lt hlt)] at he
        exact absurd he.symm (BitVec.ne_of_lt hlt)
      · rintro ⟨hlt, -⟩
        split_ifs with h
        · rfl
        · exact BitVec.le_antisymm (BitVec.not_lt.1 hlt) (BitVec.not_lt.1 h)

/-- At the end of the range of the two pages it is the end of the later page. -/
theorem translate_of_end {e : TLBEntry} {a : BitVec 32} (hsize : 0 < e.pagesize.toNat)
    (ha : e.vaddr.toNat + 2 * e.pagesize.toNat = a.toNat) :
    e.translate a = (e.lastEnd + 0x80000000).signExtend 64 := by
  have hoffset : (a - e.vaddr).toNat = 2 * e.pagesize.toNat := by
    have := a.isLt
    rw [BitVec.toNat_sub]
    omega
  have hlate : e.pagesize < a - e.vaddr := by
    rw [BitVec.lt_def, hoffset]
    omega
  have hpage : a - e.vaddr - e.pagesize = e.pagesize := by
    refine BitVec.eq_of_toNat_eq ?_
    rw [BitVec.toNat_sub, hoffset]
    have := e.pagesize.isLt
    omega
  rw [translate_eq, signExtend_base_inj, if_pos hlate, hpage, lastEnd]

end TLBEntry

/-- An entry that the test accepts without holding the address ends at it. -/
theorem TLBTrace.Written.translate_other {s : TLBTrace} (h : s.Written) {a : BitVec 32}
    {j : Fin 32} (hc : (s.table j).covers a = true)
    (hj : s.mapped j = true → ¬ (s.table j).InPages a) :
    (s.table j).translate a = ((s.table j).lastEnd + 0x80000000).signExtend 64 := by
  have hle := h.pagesize_le j
  obtain ⟨-, hcase⟩ := (TLBEntry.covers_iff hle).1 hc
  rcases h j with ⟨hm, pm, vaddr, evenpaddr, oddpaddr, he⟩ | ⟨-, he⟩
  · have hpos : 0 < (s.table j).pagesize.toNat := by
      rw [he]
      exact (pageSizeOf_bounds pm).1
    have hout := hj hm
    have hsize : (s.table j).size ≤ 2 * (s.table j).pagesize.toNat :=
      Nat.mul_le_mul_right _ (s.table j).tlbCount_le
    refine TLBEntry.translate_of_end hpos ?_
    rw [TLBEntry.InPages] at hout
    rcases hcase with hr | hend
    · have h₁ := hr.1
      have h₂ := hr.2
      omega
    · have h₂ := hend.2
      omega
  · rw [he] at hcase ⊢
    have h0 := (hcase.resolve_left (TLBEntry.not_inRange_zero a)).2
    obtain rfl : a = 0 := BitVec.eq_of_toNat_eq h0.symm
    decide

/-- **Where the lookup is that of the machine**, for an address that entry `i` maps to `p`. -/
inductive TranslatesAs (t : TLBTable) (a : BitVec 64) (i : Fin 32) (p : BitVec 32) : Prop
  /-- No other entry comes before, and the pages are in order. -/
  | own (hi : FirstCovering t (a.setWidth 32) i) (ho : (t i).InOrder (a.setWidth 32))
  /-- Another entry comes before, which ends at the address and, in memory, at `p`. -/
  | other {j : Fin 32} (hj : FirstCovering t (a.setWidth 32) j) (hne : j ≠ i)
      (he : (t j).lastEnd = p)
  /-- No entry is accepted, and the address is that of `p` already. -/
  | none (hn : ∀ j, (t j).covers (a.setWidth 32) = false)
      (he : a = (p + 0x80000000).signExtend 64)

/-- **The pages are those of the machine** if and only if they are in order, in the entry that the
test of the lookup accepts first. -/
theorem lookup_physical_iff {s : TLBTrace} (h : s.Reachable) {a : BitVec 64}
    (ha : (a &&& 0x00000000FF000000) >>> 24 ≠ 0x80) {i : Fin 32} (hm : s.mapped i = true)
    (hi : (s.table i).InPages (a.setWidth 32))
    (hone : ∀ j, s.mapped j = true → (s.table j).InPages (a.setWidth 32) → j = i) {p : BitVec 32}
    (hp : (s.table i).physical (a.setWidth 32) = some p) :
    tlbLookup s.table a = (p + 0x80000000).signExtend 64 ↔ TranslatesAs s.table a i p := by
  have hw := h.written
  have hsize : 0 < (s.table i).pagesize.toNat := by
    rcases hw i with ⟨-, pm, vaddr, evenpaddr, oddpaddr, he⟩ | ⟨hn, -⟩
    · rw [he]
      exact (pageSizeOf_bounds pm).1
    · rw [hm] at hn
      cases hn
  have hother : ∀ j, j ≠ i → (s.table j).covers (a.setWidth 32) = true →
      (s.table j).translate (a.setWidth 32) =
        ((s.table j).lastEnd + 0x80000000).signExtend 64 := fun j hne hc =>
    hw.translate_other hc fun hmj hin => hne (hone j hmj hin)
  rw [tlbLookup_eq]
  constructor
  · intro hlookup
    cases hu : usedEntry s.table a with
    | none =>
        rw [hu] at hlookup
        exact .none ((usedEntry_eq_none_iff ha).1 hu) hlookup
    | some j =>
        have hj := (usedEntry_eq_some_iff ha).1 hu
        rw [hu, Option.elim_some] at hlookup
        by_cases hji : j = i
        · subst hji
          exact .own hj ((TLBEntry.translate_iff_inOrder hsize hi hp).1 hlookup)
        · rw [hother j hji hj.1, TLBEntry.signExtend_base_inj] at hlookup
          exact .other hj hji hlookup
  · intro ht
    cases ht with
    | own hfirst ho =>
        rw [(usedEntry_eq_some_iff ha).2 hfirst, Option.elim_some]
        exact (TLBEntry.translate_iff_inOrder hsize hi hp).2 ho
    | @other j hj hne he =>
        rw [(usedEntry_eq_some_iff ha).2 hj, Option.elim_some, hother j hne hj.1, he]
    | none hn he =>
        rw [(usedEntry_eq_none_iff ha).2 hn, Option.elim_none]
        exact he

theorem lookup_physical_iff_oneEntry : tlbLookup oneEntry.table 0x10001010 =
    ((0x251010 : BitVec 32) + 0x80000000).signExtend 64 := by
  have hone : ∀ j, oneEntry.mapped j = true → j = 0 := by decide
  refine (lookup_physical_iff oneEntry_reachable (by decide) (i := 0) (by decide) (by decide)
    (fun j hj _ => hone j hj) (p := 0x251010) (by decide)).2 ?_
  exact .own (by unfold FirstCovering; decide) (by unfold TLBEntry.InOrder; decide)

/-- An entry whose odd page is below its even page. -/
def swappedEntry : TLBTrace :=
  TLBTrace.start.next (.map ⟨0, by decide⟩ 0 0x10000000 0x251000 0x250000)

/-- The first page of such an entry is taken for the second. -/
theorem pages_swapped : ¬ ∀ s : TLBTrace, s.Reachable → ∀ (a : BitVec 64) (i : Fin 32)
    (p : BitVec 32), (a &&& 0x00000000FF000000) >>> 24 ≠ 0x80 → s.mapped i = true →
      (s.table i).InPages (a.setWidth 32) →
      (∀ j, s.mapped j = true → (s.table j).InPages (a.setWidth 32) → j = i) →
      (s.table i).physical (a.setWidth 32) = some p →
      tlbLookup s.table a = (p + 0x80000000).signExtend 64 := by
  intro h
  have hr : swappedEntry.Reachable :=
    Runs.Reach.step (Runs.Reach.init rfl) (TLBAct.map 0 0 0x10000000 0x251000 0x250000) trivial rfl
  have hone : ∀ j, swappedEntry.mapped j = true → j = 0 := by decide
  have hlookup := h swappedEntry hr 0x10000010 0 0x251010 (by decide) (by decide) (by decide)
    (fun j hj _ => hone j hj) (by decide)
  exact absurd hlookup (by decide)

end Modules
