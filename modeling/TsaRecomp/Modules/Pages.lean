/-
**The page table of the modules.**

`patches/src/module_impl.c` keeps the memory that modules are loaded into as a table of 64 slots of
8 KiB each.  `modulegetpages_impl` looks for a run of free slots, in steps of four slots when it is
going to map 32 KiB at once, and fills the run: groups of four slots, of which the first stands for
the mapping of all four, and single slots for the rest.

Addresses and identifiers are words of 32 bits, counts and indices are integers.  An access to a
slot outside of the table is a fault, and so is a loop that goes on for more than the given number
of rounds; the functions below come to neither.

Main definitions:

* `Modules.UnkStruct800CA668`, `Modules.PageTable` — the slots and the table;
* `Modules.modulePagePaddr`, `Modules.modulePagesAreFree`, `Modules.moduleFindContiguousPages`,
  `Modules.modulegetpagesImpl` — the functions of the file;
* `Modules.Fits`, `Modules.allocated` — a run of slots that the search accepts, and the table in
  which it is filled.

Main results:

* `Modules.findLoop_spec` — the search ends at the first run that fits;
* `Modules.fourLoop_filled`, `Modules.oneLoop_filled` — the two loops fill the run;
* `Modules.modulegetpages_exact` — **the allocation is exact**.
-/

import Mathlib.Data.BitVec
import Mathlib.Tactic

set_option relaxedAutoImplicit false
set_option autoImplicit false

namespace Modules

/-! ### The table -/

/-- `MODULE_PAGE_COUNT` -/
def modulePageCount : ℤ := 0x40

/-- `MODULE_PAGE_SIZE` -/
def modulePageSize : ℤ := 0x2000

/-- `MODULE_PAGE_BASE` -/
def modulePageBase : BitVec 32 := 0x80250000

/-- `struct UnkStruct800CA668` -/
structure UnkStruct800CA668 where
  moduleId : BitVec 32
  /-- 4 for the first slot of a mapping of 32 KiB, 0 for the other three, 1 for a mapping of
  8 KiB. -/
  pageCount : ℤ
  vaddr : BitVec 32
  paddr : BitVec 32
  deriving DecidableEq, Repr

/-- `D_800CA668` -/
abbrev PageTable := Fin 64 → UnkStruct800CA668

/-- The `module_id` of a free slot. -/
def noModule : BitVec 32 := -1

/-- What the functions below do not come to. -/
inductive Fault
  | outOfBounds (index : ℤ)
  | diverges
  deriving DecidableEq, Repr

namespace PageTable

def read (t : PageTable) (i : ℤ) : Except Fault UnkStruct800CA668 :=
  if h : 0 ≤ i ∧ i < 64 then .ok (t ⟨i.toNat, by omega⟩) else .error (.outOfBounds i)

def write (t : PageTable) (i : ℤ) (slot : UnkStruct800CA668) : Except Fault PageTable :=
  if 0 ≤ i ∧ i < 64 then .ok (fun k => if (k : ℤ) = i then slot else t k)
  else .error (.outOfBounds i)

end PageTable

/-! ### The functions of the file -/

/-- `module_page_paddr` -/
def modulePagePaddr (index : ℤ) : BitVec 32 :=
  (modulePageBase + BitVec.ofInt 32 index <<< 13) &&& 0x7FFFFFFF

/-- The `for` loop of `module_pages_are_free`, with the rounds that are left. -/
def pagesFreeLoop (t : PageTable) (start : ℤ) : ℕ → ℤ → Except Fault Bool
  | 0, _ => .ok true
  | n + 1, i => do
      let slot ← t.read (start + i)
      if slot.moduleId ≠ noModule then .ok false else pagesFreeLoop t start n (i + 1)

/-- `module_pages_are_free` -/
def modulePagesAreFree (t : PageTable) (start count : ℤ) : Except Fault Bool :=
  if start < 0 ∨ modulePageCount < start + count then .ok false
  else pagesFreeLoop t start count.toNat 0

/-- The `for` loop of `module_find_contiguous_pages`. -/
def findLoop (t : PageTable) (count step : ℤ) : ℕ → ℤ → Except Fault ℤ
  | 0, _ => .error .diverges
  | fuel + 1, start =>
      if start + count ≤ modulePageCount then do
        if ← modulePagesAreFree t start count then .ok start
        else findLoop t count step fuel (start + step)
      else .ok (-1)

/-- The `step` of `module_find_contiguous_pages`. -/
def searchStep (count : ℤ) : ℤ := if 4 ≤ count then 4 else 1

/-- `module_find_contiguous_pages` -/
def moduleFindContiguousPages (fuel : ℕ) (t : PageTable) (count : ℤ) : Except Fault ℤ :=
  findLoop t count (searchStep count) fuel 0

/-- The locals of `modulegetpages_impl` behind the search, with the table. -/
structure MapState where
  table : PageTable
  remaining : ℤ
  tableIndex : ℤ
  curVaddr : BitVec 32

/-- The `for` loop that fills a group of four slots, with the rounds that are left. -/
def groupLoop (moduleId : BitVec 32) (tableIndex : ℤ) (curVaddr : BitVec 32) :
    ℕ → ℤ → PageTable → Except Fault PageTable
  | 0, _, t => .ok t
  | n + 1, j, t => do
      let t ← t.write (tableIndex + j)
        { moduleId := moduleId
          pageCount := if j = 0 then 4 else 0
          vaddr := curVaddr + BitVec.ofInt 32 (j * modulePageSize)
          paddr := modulePagePaddr (tableIndex + j) }
      groupLoop moduleId tableIndex curVaddr n (j + 1) t

/-- `while (remaining >= 4)` -/
def fourLoop (moduleId : BitVec 32) : ℕ → MapState → Except Fault MapState
  | 0, _ => .error .diverges
  | fuel + 1, s =>
      if 4 ≤ s.remaining then do
        let t ← groupLoop moduleId s.tableIndex s.curVaddr 4 0 s.table
        fourLoop moduleId fuel
          { table := t
            tableIndex := s.tableIndex + 4
            curVaddr := s.curVaddr + 0x8000
            remaining := s.remaining - 4 }
      else .ok s

/-- `while (remaining > 0)` -/
def oneLoop (moduleId : BitVec 32) : ℕ → MapState → Except Fault MapState
  | 0, _ => .error .diverges
  | fuel + 1, s =>
      if 0 < s.remaining then do
        let t ← s.table.write s.tableIndex
          { moduleId := moduleId
            pageCount := 1
            vaddr := s.curVaddr
            paddr := modulePagePaddr s.tableIndex }
        oneLoop moduleId fuel
          { table := t
            tableIndex := s.tableIndex + 1
            curVaddr := s.curVaddr + 0x2000
            remaining := s.remaining - 1 }
      else .ok s

/-- `modulegetpages_impl`, with the text of the `errstop` it ends in. -/
def modulegetpagesImpl (fuel : ℕ) (t : PageTable) (pageCount : ℤ) (vaddr moduleId : BitVec 32) :
    Except Fault (PageTable × Option String) :=
  if pageCount = 0 then .ok (t, none)
  else do
    let start ← moduleFindContiguousPages fuel t pageCount
    if start = -1 then .ok (t, some "module : no free pages\n")
    else do
      let s ← fourLoop moduleId fuel ⟨t, pageCount, start, vaddr⟩
      let s ← oneLoop moduleId fuel s
      .ok (s.table, none)

/-! ### What the functions are for -/

/-- `count` slots from `start` on are free. -/
def Free (t : PageTable) (start count : ℤ) : Prop :=
  ∀ k : Fin 64, start ≤ k → k < start + count → (t k).moduleId = noModule

/-- A run of `count` free slots in the table, that begins where a group of four may begin if it
holds one. -/
structure Fits (t : PageTable) (count start : ℤ) : Prop where
  nonneg : 0 ≤ start
  bound : start + count ≤ 64
  aligned : 4 ≤ count → 4 ∣ start
  free : Free t start count

/-- The slot `k` of a module with `count` slots from `start` on. -/
def pageAt (count start : ℤ) (vaddr moduleId : BitVec 32) (k : Fin 64) : UnkStruct800CA668 where
  moduleId := moduleId
  pageCount := if k - start < count / 4 * 4 then if (k - start) % 4 = 0 then 4 else 0 else 1
  vaddr := vaddr + BitVec.ofInt 32 ((k - start) * 0x2000)
  paddr := (0x80250000 + BitVec.ofInt 32 (k * 0x2000)) &&& 0x7FFFFFFF

/-- The table in which the first `filled` slots of a module have been filled. -/
def filled (t : PageTable) (count start : ℤ) (vaddr moduleId : BitVec 32) (n : ℤ) : PageTable :=
  fun k => if start ≤ k ∧ k < start + n then pageAt count start vaddr moduleId k else t k

/-- The table in which a module has got `count` slots from `start` on. -/
def allocated (t : PageTable) (count start : ℤ) (vaddr moduleId : BitVec 32) : PageTable :=
  filled t count start vaddr moduleId count

/-! ### The search -/

theorem PageTable.read_fin (t : PageTable) (k : Fin 64) : t.read k = .ok (t k) := by
  have h : 0 ≤ (k : ℤ) ∧ (k : ℤ) < 64 := by omega
  simp [PageTable.read]

/-- The loop of `module_pages_are_free` inside of the table. -/
theorem pagesFreeLoop_spec {t : PageTable} {start : ℤ} (h0 : 0 ≤ start) : ∀ {n : ℕ} {i : ℤ},
    0 ≤ i → start + i + n ≤ 64 →
      ∃ b, pagesFreeLoop t start n i = .ok b ∧ (b = true ↔ Free t (start + i) n) := by
  intro n
  induction n with
  | zero =>
      intro i hi hn
      refine ⟨true, rfl, ?_⟩
      simp only [true_iff]
      intro k hk hk'
      omega
  | succ n ih =>
      intro i hi hn
      have hk : ∃ k : Fin 64, (k : ℤ) = start + i := ⟨⟨(start + i).toNat, by omega⟩, by simp; omega⟩
      obtain ⟨k, hk⟩ := hk
      have hread : t.read (start + i) = .ok (t k) := by rw [← hk, t.read_fin]
      rw [pagesFreeLoop]
      simp only [hread, bind, Except.bind]
      by_cases hid : (t k).moduleId = noModule
      · rw [if_neg (not_not.2 hid)]
        obtain ⟨b, hb, hiff⟩ := ih (i := i + 1) (by omega) (by push_cast at hn ⊢; omega)
        refine ⟨b, hb, hiff.trans ⟨?_, ?_⟩⟩
        · intro hfree k' h₁ h₂
          by_cases he : k' = k
          · rw [he, hid]
          · have hne : (k' : ℤ) ≠ k := by omega
            exact hfree k' (by omega) (by push_cast at h₂; omega)
        · intro hfree k' h₁ h₂
          exact hfree k' (by omega) (by push_cast; omega)
      · rw [if_pos hid]
        refine ⟨false, rfl, ?_⟩
        simp only [Bool.false_eq_true, false_iff]
        intro hfree
        exact hid (hfree k (by omega) (by push_cast; omega))

/-- `module_pages_are_free` decides whether a run is free, and in the table. -/
theorem modulePagesAreFree_spec (t : PageTable) (start count : ℤ) (h0 : 0 ≤ start)
    (hb : start + count ≤ 64) :
    ∃ b, modulePagesAreFree t start count = .ok b ∧ (b = true ↔ Free t start count) := by
  rw [modulePagesAreFree, if_neg (by simp only [modulePageCount]; omega)]
  by_cases hc : 0 ≤ count
  · obtain ⟨b, hb, hiff⟩ :=
      pagesFreeLoop_spec (t := t) h0 (n := count.toNat) (i := 0) le_rfl (by omega)
    refine ⟨b, hb, hiff.trans ?_⟩
    rw [add_zero, Int.toNat_of_nonneg hc]
  · rw [Int.toNat_of_nonpos (by omega)]
    refine ⟨true, rfl, ?_⟩
    simp only [true_iff]
    intro k h₁ h₂
    omega

/-- A run that the search looks at, and accepts. -/
structure Candidate (t : PageTable) (count step start : ℤ) : Prop where
  nonneg : 0 ≤ start
  bound : start + count ≤ 64
  step_dvd : step ∣ start
  free : Free t start count

/-- **The search** ends at the first run that it accepts, or behind the last one. -/
theorem findLoop_spec {t : PageTable} {count step : ℤ} (hstep : 0 < step) :
    ∀ {fuel : ℕ} {start : ℤ}, 0 ≤ start → step ∣ start → 65 - start - count < fuel → 0 < fuel →
      ∃ r, findLoop t count step fuel start = .ok r ∧
        (r = -1 ∧ (∀ s, Candidate t count step s → s < start) ∨
          Candidate t count step r ∧ start ≤ r ∧
            ∀ s, Candidate t count step s → start ≤ s → r ≤ s) := by
  intro fuel
  induction fuel with
  | zero =>
      intro start _ _ _ h
      exact absurd h (lt_irrefl 0)
  | succ fuel ih =>
      intro start h0 hd hf _
      rw [findLoop]
      by_cases hb : start + count ≤ modulePageCount
      · rw [if_pos hb]
        obtain ⟨b, hfree, hiff⟩ := modulePagesAreFree_spec t start count h0 hb
        simp only [hfree, bind, Except.bind]
        by_cases hbt : b = true
        · rw [if_pos hbt]
          exact ⟨start, rfl, Or.inr ⟨⟨h0, hb, hd, hiff.1 hbt⟩, le_rfl, fun _ _ h => h⟩⟩
        · rw [if_neg hbt]
          -- the next run starts a step further on, and no run that is accepted starts in between
          have hnext : ∀ s, Candidate t count step s → start ≤ s → start + step ≤ s := by
            intro s hs hle
            have hne : s ≠ start := fun e => hbt (hiff.2 (e ▸ hs.free))
            have hdiff : step ∣ s - start := (Int.dvd_sub hs.step_dvd hd)
            have := Int.le_of_dvd (by omega) hdiff
            omega
          have hb' : start + count ≤ 64 := hb
          obtain ⟨r, hr, hcase⟩ := @ih (start + step) (by omega)
            ((Int.dvd_add_right hd).2 (dvd_refl step)) (by push_cast at hf; omega) (by omega)
          refine ⟨r, hr, hcase.imp ?_ ?_⟩
          · rintro ⟨rfl, hall⟩
            refine ⟨rfl, fun s hs => ?_⟩
            by_contra hle
            have := hnext s hs (by omega)
            have := hall s hs
            omega
          · rintro ⟨hc, hle, hmin⟩
            exact ⟨hc, by omega, fun s hs h => hmin s hs (hnext s hs h)⟩
      · rw [if_neg hb]
        refine ⟨-1, rfl, Or.inl ⟨rfl, fun s hs => ?_⟩⟩
        have := hs.bound
        simp only [modulePageCount] at hb
        omega

theorem candidate_searchStep {t : PageTable} {count start : ℤ} :
    Candidate t count (searchStep count) start ↔ Fits t count start := by
  unfold searchStep
  constructor
  · rintro ⟨h0, hb, hd, hf⟩
    refine ⟨h0, hb, fun h => ?_, hf⟩
    rwa [if_pos h] at hd
  · rintro ⟨h0, hb, hd, hf⟩
    refine ⟨h0, hb, ?_, hf⟩
    split
    · next h => exact hd h
    · exact one_dvd _

/-- `module_find_contiguous_pages` finds the first run that fits. -/
theorem moduleFindContiguousPages_spec {t : PageTable} {count : ℤ} {fuel : ℕ} (hc : 0 < count)
    (hf : 65 ≤ fuel) :
    ∃ r, moduleFindContiguousPages fuel t count = .ok r ∧
      (r = -1 ∧ (∀ s, ¬ Fits t count s) ∨ Fits t count r ∧ ∀ s, Fits t count s → r ≤ s) := by
  have hstep : 0 < searchStep count := by
    unfold searchStep
    split <;> omega
  obtain ⟨r, hr, hcase⟩ := @findLoop_spec t count _ hstep fuel 0 le_rfl (dvd_zero _) (by omega)
    (by omega)
  simp only [candidate_searchStep] at hcase
  refine ⟨r, hr, hcase.imp ?_ ?_⟩
  · rintro ⟨rfl, hall⟩
    refine ⟨rfl, fun s hs => ?_⟩
    have := hall s hs
    have := hs.nonneg
    omega
  · rintro ⟨hfit, -, hmin⟩
    exact ⟨hfit, fun s hs => hmin s hs hs.nonneg⟩

/-- A search for no slots ends at once. -/
theorem moduleFindContiguousPages_nonpos {t : PageTable} {count : ℤ} {fuel : ℕ} (hc : count ≤ 0)
    (hf : 0 < fuel) : moduleFindContiguousPages fuel t count = .ok 0 := by
  obtain ⟨fuel, rfl⟩ := Nat.exists_eq_add_of_lt hf
  have h : (0 : ℤ) + count ≤ modulePageCount := by
    simp only [modulePageCount]
    omega
  have hfree : modulePagesAreFree t 0 count = .ok true := by
    rw [modulePagesAreFree, if_neg (by omega), Int.toNat_of_nonpos hc]
    rfl
  rw [moduleFindContiguousPages, zero_add, findLoop, if_pos h]
  simp only [hfree, bind, Except.bind]
  rfl

/-! ### The filling -/

/-- The address of a slot is that of its index. -/
theorem modulePagePaddr_eq (k : Fin 64) :
    modulePagePaddr k = (0x80250000 + BitVec.ofInt 32 (k * 0x2000)) &&& 0x7FFFFFFF := by
  revert k
  decide

theorem PageTable.write_of_mem {t : PageTable} {i : ℤ} {slot : UnkStruct800CA668} (h0 : 0 ≤ i)
    (h : i < 64) : t.write i slot = .ok fun k => if (k : ℤ) = i then slot else t k :=
  if_pos ⟨h0, h⟩

section Filling

variable {t : PageTable} {count start : ℤ} {vaddr moduleId : BitVec 32}

/-- One more slot is filled. -/
theorem filled_succ {n : ℤ} (hn : 0 ≤ n) {slot : UnkStruct800CA668}
    (hslot : ∀ k : Fin 64, (k : ℤ) = start + n → slot = pageAt count start vaddr moduleId k) :
    (fun k : Fin 64 => if (k : ℤ) = start + n then slot
      else filled t count start vaddr moduleId n k) =
      filled t count start vaddr moduleId (n + 1) := by
  funext k
  unfold filled
  by_cases hk : (k : ℤ) = start + n
  · rw [if_pos hk, if_pos (by omega), hslot k hk]
  · rw [if_neg hk]
    exact if_congr (by omega) rfl rfl

/-- A group of four slots is filled. -/
theorem groupLoop_filled {n : ℤ} {curVaddr : BitVec 32} (h0 : 0 ≤ start) (hn : 0 ≤ n)
    (hb : start + n + 4 ≤ 64) (hd : 4 ∣ n) (hfour : n + 4 ≤ count)
    (hv : curVaddr = vaddr + BitVec.ofInt 32 (n * 0x2000)) : ∀ {m : ℕ} {j : ℤ}, 0 ≤ j →
      j + m = 4 → groupLoop moduleId (start + n) curVaddr m j
        (filled t count start vaddr moduleId (n + j)) =
          .ok (filled t count start vaddr moduleId (n + 4)) := by
  intro m
  induction m with
  | zero =>
      intro j _ hj
      rw [show j = 4 by simpa using hj]
      rfl
  | succ m ih =>
      intro j hj hjm
      have hlt : j < 4 := by push_cast at hjm; omega
      rw [groupLoop, PageTable.write_of_mem (by omega) (by omega)]
      simp only [bind, Except.bind]
      rw [add_assoc start n j, filled_succ (by omega), add_assoc n j 1]
      · exact ih (by omega) (by push_cast at hjm; omega)
      · intro k hk
        have hcount : n + 4 ≤ count / 4 * 4 := by omega
        have hzero : j = 0 ↔ ((k : ℤ) - start) % 4 = 0 := by omega
        unfold pageAt
        have hgroup : (k : ℤ) - start < count / 4 * 4 := by omega
        rw [if_pos hgroup, hv, ← hk, modulePagePaddr_eq, add_assoc, ← BitVec.ofInt_add]
        congr 1
        · exact if_congr hzero rfl rfl
        · congr 2
          simp only [modulePageSize]
          omega

/-- The state in which the first `n` slots of a module have been filled. -/
structure Filled (t : PageTable) (count start : ℤ) (vaddr moduleId : BitVec 32) (n : ℤ)
    (s : MapState) : Prop where
  table : s.table = filled t count start vaddr moduleId n
  remaining : s.remaining = count - n
  tableIndex : s.tableIndex = start + n
  curVaddr : s.curVaddr = vaddr + BitVec.ofInt 32 (n * 0x2000)

theorem Filled.zero : Filled t count start vaddr moduleId 0 ⟨t, count, start, vaddr⟩ := by
  refine ⟨?_, ?_, ?_, ?_⟩
  · funext k
    exact (if_neg (by omega)).symm
  · exact (sub_zero count).symm
  · exact (add_zero start).symm
  · simp

/-- **The first loop** fills the groups of four. -/
theorem fourLoop_filled (h0 : 0 ≤ start) (hb : start + count ≤ 64) :
    ∀ {fuel : ℕ} {n : ℤ} {s : MapState}, 0 ≤ n → n ≤ count → 4 ∣ n → count - n < fuel →
      Filled t count start vaddr moduleId n s → ∃ s', fourLoop moduleId fuel s = .ok s' ∧
        Filled t count start vaddr moduleId (count / 4 * 4) s' := by
  intro fuel
  induction fuel with
  | zero =>
      intro n s _ hn _ hf _
      push_cast at hf
      omega
  | succ fuel ih =>
      intro n s h0n hn hd hf hs
      rw [fourLoop]
      by_cases hr : 4 ≤ s.remaining
      · rw [if_pos hr]
        rw [hs.remaining] at hr
        have hgroup : groupLoop moduleId (start + n) s.curVaddr 4 0
            (filled t count start vaddr moduleId (n + 0)) =
              .ok (filled t count start vaddr moduleId (n + 4)) :=
          groupLoop_filled h0 h0n (by omega) hd (by omega) hs.curVaddr le_rfl (by norm_num)
        rw [add_zero, ← hs.table, ← hs.tableIndex] at hgroup
        simp only [hgroup, bind, Except.bind]
        refine ih (n := n + 4) (by omega) (by omega) ((Int.dvd_add_right hd).2 (dvd_refl 4))
          (by push_cast at hf; omega) ⟨rfl, ?_, ?_, ?_⟩
        · show s.remaining - 4 = _
          rw [hs.remaining]
          omega
        · show s.tableIndex + 4 = _
          rw [hs.tableIndex, add_assoc]
        · show s.curVaddr + 0x8000 = _
          rw [hs.curVaddr, add_mul, BitVec.ofInt_add, add_assoc]
          rfl
      · rw [if_neg hr]
        rw [hs.remaining] at hr
        have hn' : n = count / 4 * 4 := by omega
        exact ⟨s, rfl, hn' ▸ hs⟩

/-- **The second loop** fills the rest, slot by slot. -/
theorem oneLoop_filled (h0 : 0 ≤ start) (hb : start + count ≤ 64) :
    ∀ {fuel : ℕ} {n : ℤ} {s : MapState}, 0 ≤ n → n ≤ count → count / 4 * 4 ≤ n →
      count - n < fuel → Filled t count start vaddr moduleId n s →
        ∃ s', oneLoop moduleId fuel s = .ok s' ∧ Filled t count start vaddr moduleId count s' := by
  intro fuel
  induction fuel with
  | zero =>
      intro n s _ hn _ hf _
      push_cast at hf
      omega
  | succ fuel ih =>
      intro n s h0n hn hfour hf hs
      rw [oneLoop]
      by_cases hr : 0 < s.remaining
      · rw [if_pos hr]
        rw [hs.remaining] at hr
        rw [PageTable.write_of_mem (by rw [hs.tableIndex]; omega) (by rw [hs.tableIndex]; omega)]
        simp only [bind, Except.bind]
        refine ih (n := n + 1) (by omega) (by omega) (by omega) (by push_cast at hf; omega)
          ⟨?_, ?_, ?_, ?_⟩
        · rw [hs.table, hs.tableIndex]
          refine filled_succ h0n ?_
          intro k hk
          unfold pageAt
          rw [if_neg (by omega), hs.curVaddr, ← hk, modulePagePaddr_eq]
          congr 3
          omega
        · show s.remaining - 1 = _
          rw [hs.remaining]
          omega
        · show s.tableIndex + 1 = _
          rw [hs.tableIndex, add_assoc]
        · show s.curVaddr + 0x2000 = _
          rw [hs.curVaddr, add_mul, BitVec.ofInt_add, add_assoc]
          rfl
      · rw [if_neg hr]
        rw [hs.remaining] at hr
        have hn' : n = count := by omega
        exact ⟨s, rfl, hn' ▸ hs⟩

end Filling

/-! ### The allocation -/

/-- What `modulegetpages_impl` does with a request. -/
structure PagesExact (t : PageTable) (pageCount : ℤ) (vaddr moduleId : BitVec 32)
    (result : Except Fault (PageTable × Option String)) : Prop where
  /-- A request that some run fits gets the first one of them. -/
  fits : 0 < pageCount → (∃ start, Fits t pageCount start) →
    ∃ start, Fits t pageCount start ∧ (∀ s, Fits t pageCount s → start ≤ s) ∧
      result = .ok (allocated t pageCount start vaddr moduleId, none) ∧
      ∀ k : Fin 64, start ≤ k → k < start + pageCount →
        (allocated t pageCount start vaddr moduleId k).pageCount = 4 →
          (allocated t pageCount start vaddr moduleId k).paddr.toNat % 0x8000 = 0
  /-- A request that no run fits ends in an `errstop`, with the table as it was. -/
  full : 0 < pageCount → (∀ start, ¬ Fits t pageCount start) →
    result = .ok (t, some "module : no free pages\n")
  /-- A request for no slots changes nothing. -/
  none : pageCount ≤ 0 → result = .ok (t, none)

/-- The first slot of a group of four is aligned to the group. -/
theorem paddr_aligned {t : PageTable} {count start : ℤ} {vaddr moduleId : BitVec 32}
    (hf : Fits t count start) {k : Fin 64} (h₁ : start ≤ k) (h₂ : k < start + count)
    (hp : (allocated t count start vaddr moduleId k).pageCount = 4) :
    (allocated t count start vaddr moduleId k).paddr.toNat % 0x8000 = 0 := by
  have hk : allocated t count start vaddr moduleId k = pageAt count start vaddr moduleId k :=
    if_pos ⟨h₁, h₂⟩
  rw [hk] at hp ⊢
  have hk4 : (k : ℕ) % 4 = 0 := by
    unfold pageAt at hp
    dsimp only at hp
    split_ifs at hp with hg hz
    · have := hf.aligned (by omega)
      omega
    · cases hp
    · cases hp
  have key : ∀ k : Fin 64, (k : ℕ) % 4 = 0 →
      ((0x80250000 + BitVec.ofInt 32 (k * 0x2000)) &&& 0x7FFFFFFF : BitVec 32).toNat % 0x8000 =
        0 := by
    decide
  exact key k hk4

section Results

variable {t : PageTable} {pageCount : ℤ} {fuel : ℕ}

/-- A request that some run fits gets the first one of them. -/
theorem modulegetpagesImpl_of_fits (vaddr moduleId : BitVec 32) (hf : 65 ≤ fuel)
    (hc : 0 < pageCount) (hex : ∃ start, Fits t pageCount start) :
    ∃ start, Fits t pageCount start ∧ (∀ s, Fits t pageCount s → start ≤ s) ∧
      modulegetpagesImpl fuel t pageCount vaddr moduleId =
        .ok (allocated t pageCount start vaddr moduleId, none) := by
  obtain ⟨start, hstart⟩ := hex
  obtain ⟨r, hr, ⟨-, hall⟩ | ⟨hfit, hmin⟩⟩ := moduleFindContiguousPages_spec (t := t) hc hf
  · exact absurd hstart (hall start)
  · refine ⟨r, hfit, hmin, ?_⟩
    have hb := hfit.bound
    have h0 := hfit.nonneg
    have hzero : Filled t pageCount r vaddr moduleId 0 ⟨t, pageCount, r, vaddr⟩ := .zero
    have hfuel : pageCount < fuel := by omega
    obtain ⟨s, hs, hfour⟩ := fourLoop_filled h0 hb le_rfl hc.le (dvd_zero 4)
      ((sub_zero pageCount).symm ▸ hfuel) hzero
    obtain ⟨s', hs', hone⟩ := @oneLoop_filled _ _ _ _ _ h0 hb fuel _ _ (by omega) (by omega)
      le_rfl (by omega) hfour
    rw [modulegetpagesImpl, if_neg (by omega)]
    simp only [hr, hs, hs', bind, Except.bind]
    rw [if_neg (by omega), hone.table]
    rfl

/-- A request that no run fits ends in an `errstop`. -/
theorem modulegetpagesImpl_of_full (vaddr moduleId : BitVec 32) (hf : 65 ≤ fuel)
    (hc : 0 < pageCount) (hnone : ∀ start, ¬ Fits t pageCount start) :
    modulegetpagesImpl fuel t pageCount vaddr moduleId =
      .ok (t, some "module : no free pages\n") := by
  obtain ⟨r, hr, ⟨rfl, -⟩ | ⟨hfit, -⟩⟩ := moduleFindContiguousPages_spec (t := t) hc hf
  · rw [modulegetpagesImpl, if_neg (by omega)]
    simp only [hr, bind, Except.bind]
    rfl
  · exact absurd hfit (hnone r)

/-- A request for no slots changes nothing. -/
theorem modulegetpagesImpl_of_nonpos (vaddr moduleId : BitVec 32) (hf : 65 ≤ fuel)
    (hc : pageCount ≤ 0) :
    modulegetpagesImpl fuel t pageCount vaddr moduleId = .ok (t, none) := by
  rw [modulegetpagesImpl]
  by_cases h0 : pageCount = 0
  · rw [if_pos h0]
  · -- a negative count is answered with the first slot, and no loop is entered
    obtain ⟨fuel, rfl⟩ := Nat.exists_eq_add_of_lt (show 0 < fuel by omega)
    rw [if_neg h0]
    simp only [moduleFindContiguousPages_nonpos (t := t) hc (show 0 < 0 + fuel + 1 by omega),
      bind, Except.bind]
    rw [if_neg (by norm_num), fourLoop, if_neg (show ¬ 4 ≤ pageCount by omega)]
    simp only [oneLoop]
    rw [if_neg (show ¬ 0 < pageCount by omega)]

end Results

/-- **The allocation is exact.** -/
theorem modulegetpages_exact (t : PageTable) (pageCount : ℤ) (vaddr moduleId : BitVec 32)
    {fuel : ℕ} (hf : 65 ≤ fuel) :
    PagesExact t pageCount vaddr moduleId
      (modulegetpagesImpl fuel t pageCount vaddr moduleId) := by
  refine ⟨?_, modulegetpagesImpl_of_full vaddr moduleId hf,
    modulegetpagesImpl_of_nonpos vaddr moduleId hf⟩
  intro hc hex
  obtain ⟨start, hfit, hmin, hr⟩ := modulegetpagesImpl_of_fits vaddr moduleId hf hc hex
  exact ⟨start, hfit, hmin, hr, fun k h₁ h₂ => paddr_aligned hfit h₁ h₂⟩

/-- The table in which every slot is free. -/
def freeTable : PageTable := fun _ => ⟨noModule, 0, 0, 0⟩

theorem modulegetpages_exact_five :
    PagesExact freeTable 5 0x10000 7 (modulegetpagesImpl 65 freeTable 5 0x10000 7) ∧
      Fits freeTable 5 0 :=
  ⟨modulegetpages_exact freeTable 5 0x10000 7 le_rfl,
    ⟨le_rfl, by norm_num, fun _ => dvd_zero 4, fun _ _ _ => rfl⟩⟩

end Modules
