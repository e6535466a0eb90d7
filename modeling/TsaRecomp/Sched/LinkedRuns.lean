/-
**The scheduler never sees the coroutine library fail.**

In every reachable state of the scheduler, the calls that it has made of the host go through on the
runtime that is linked with the coroutine library.  No call of the library fails, none of its
assertions does, and what the slots hold are exactly the coroutines that are allocated: the results
of `mco_destroy` that are dropped are all successes.  At most one coroutine is active, the one of
the current slot, so that no coroutine ever resumes another one.

Main definitions:

* `Sched.SlotLinks`, `Sched.Links` — the runtime as the scheduler sees it, and the one with the
  library.

Main results:

* `Sched.Links.reset`, `.destroy`, `.started`, `.resumed`, `.yielded`, `.reframed` — each call goes
  through;
* `Sched.linked_of_reachable` — **all calls of a run do**.
-/

import TsaRecomp.Sched.Linked
import TsaRecomp.Sched.Reachable

set_option relaxedAutoImplicit false
set_option autoImplicit false

namespace Sched

open Coro (Represents View Cell stateOf)

/-! ### Slots -/

/-- A slot as the scheduler sees it, and the one with the library. -/
structure SlotLinks (l : LinkedRuntime) (v : View) (running : Prop) (slot : ProcessSlot)
    (ls : LinkedSlot) : Prop where
  state : ls.state = slot.state
  processKey : ls.processKey = slot.processKey
  entryFunc : ls.entryFunc = slot.entryFunc
  endFunc : ls.endFunc = slot.endFunc
  initialSp : ls.initialSp = slot.initialSp
  coro : ∃ c co cell, slot.coro = some c ∧ ls.coro = some co ∧ v.cells co = some cell ∧
    cell.finished = false ∧ l.frames co = c.frames ∧
    (running ∧ v.active = [co] ∧ c.state = .running ∨
      ¬ running ∧ co ∉ v.active ∧ c.state = .suspended)

/-- **The two runtimes**: their slots are the same, and the coroutines that are allocated are those
of the slots. -/
structure Links (r : ProcessRuntime) (l : LinkedRuntime) (v : View) : Prop where
  represents : Represents l.mco v
  keys : (l.slots.map Prod.fst).Nodup
  coros : (l.slots.map fun e => e.2.coro).Nodup
  none_iff : ∀ key, r.slots key = none ↔ ∀ e ∈ l.slots, e.1 ≠ key
  slot : ∀ e ∈ l.slots, ∃ slot, r.slots e.1 = some slot ∧
    SlotLinks l v (r.mcoRunning = some e.1) slot e.2
  owned : ∀ co, v.cells co ≠ none → ∃ e ∈ l.slots, e.2.coro = some co
  idle : r.mcoRunning = none → v.active = []
  runs : ∀ key, r.mcoRunning = some key → r.slots key ≠ none
  currentSlot : l.currentSlot = r.currentSlot
  agree : r.mcoRunning = r.currentSlot
  currentRdram : l.currentRdram = r.currentRdram
  yieldReason : l.yieldReason = r.yieldReason
  resumeValue : l.resumeValue = r.resumeValue
  initialized : l.initialized = r.initialized

namespace LinkedRuntime

variable {l : LinkedRuntime} {key : Ptr} {ls : LinkedSlot} {e : Ptr × LinkedSlot}

/-- What a key finds. -/
theorem find_eq_some (h : (l.slots.map Prod.fst).Nodup) :
    l.find key = some ls ↔ (key, ls) ∈ l.slots := by
  unfold find
  generalize l.slots = slots at h
  induction slots with
  | nil => simp
  | cons e slots ih =>
      rw [List.map_cons, List.nodup_cons] at h
      by_cases he : e.1 = key
      · subst he
        simp only [List.find?_cons, decide_true, Option.map_some, List.mem_cons,
          Option.some.injEq]
        constructor
        · rintro rfl
          exact Or.inl rfl
        · rintro (he | hmem)
          · rw [← he]
          · exact absurd (List.mem_map_of_mem (f := Prod.fst) hmem) h.1
      · simp only [List.find?_cons, he, decide_false, List.mem_cons, ih h.2]
        constructor
        · exact Or.inr
        · rintro (rfl | hmem)
          · exact absurd rfl he
          · exact hmem

theorem find_eq_none : l.find key = none ↔ ∀ e ∈ l.slots, e.1 ≠ key := by
  simp [find, List.find?_eq_none]

theorem mem_modify {f : LinkedSlot → LinkedSlot} : e ∈ (l.modify key f).slots ↔
    ∃ e₀ ∈ l.slots, e = if e₀.1 = key then (e₀.1, f e₀.2) else e₀ := by
  simp [modify, eq_comm]

theorem keys_modify {f : LinkedSlot → LinkedSlot} :
    (l.modify key f).slots.map Prod.fst = l.slots.map Prod.fst := by
  simp only [modify, List.map_map]
  refine List.map_congr_left ?_
  intro e _
  by_cases h : e.1 = key <;> simp [h]

theorem coros_modify {f : LinkedSlot → LinkedSlot} (hf : ∀ ls, (f ls).coro = ls.coro) :
    (l.modify key f).slots.map (fun e => e.2.coro) = l.slots.map fun e => e.2.coro := by
  simp only [modify, List.map_map]
  refine List.map_congr_left ?_
  intro e _
  by_cases h : e.1 = key <;> simp [h, hf]

end LinkedRuntime

namespace Links

variable {r : ProcessRuntime} {l : LinkedRuntime} {v : View} {key : Ptr} {slot : ProcessSlot}
  {ls : LinkedSlot}

/-- The slot that a key finds, on both sides. -/
theorem found (h : Links r l v) (hs : r.slots key = some slot) :
    ∃ ls, l.find key = some ls ∧ (key, ls) ∈ l.slots ∧
      SlotLinks l v (r.mcoRunning = some key) slot ls := by
  have hex : ¬ ∀ e ∈ l.slots, e.1 ≠ key := fun hc => by
    rw [(h.none_iff key).2 hc] at hs
    cases hs
  simp only [not_forall, not_not] at hex
  obtain ⟨e, he, rfl⟩ := hex
  obtain ⟨slot', hs', hl⟩ := h.slot e he
  rw [hs] at hs'
  cases hs'
  exact ⟨e.2, (LinkedRuntime.find_eq_some h.keys).2 he, he, hl⟩

theorem find_none (h : Links r l v) (hs : r.slots key = none) : l.find key = none :=
  LinkedRuntime.find_eq_none.2 ((h.none_iff key).1 hs)

/-- The slots have different coroutines. -/
theorem coro_inj (h : Links r l v) {e e' : Ptr × LinkedSlot} (he : e ∈ l.slots)
    (he' : e' ∈ l.slots) (hc : e.2.coro = e'.2.coro) : e = e' :=
  List.inj_on_of_nodup_map h.coros he he' hc

/-! ### Destruction -/

end Links

namespace LinkedRuntime

variable {l : LinkedRuntime} {v : View} {ls : LinkedSlot} {co : Coro.Addr}

/-- **The coroutine of a slot is destroyed** unless it is active. -/
theorem destroyCoro_eq (h : Represents l.mco v) (hco : ls.coro = some co)
    (hc : v.cells co ≠ none) (hn : co ∉ v.active) :
    l.destroyCoro ls = .ok { l with mco := l.mco.set co none } := by
  obtain ⟨c, cell, hm, -, -⟩ := h.found hc
  simp only [destroyCoro, hco, lib, h.mcoDestroy_eq hm, hn, if_false, Except.mapError, bind,
    Except.bind]

/-- **All coroutines are destroyed** when none is active. -/
theorem destroyAll_eq {slots : List (Ptr × LinkedSlot)} (h : Represents l.mco v)
    (ha : v.active = []) (hnd : (slots.map fun e => e.2.coro).Nodup)
    (hall : ∀ e ∈ slots, ∃ co, e.2.coro = some co ∧ v.cells co ≠ none) :
    ∃ m' v', destroyAll slots l = .ok { l with mco := m' } ∧ Represents m' v' ∧
      v'.active = [] ∧ ∀ co, v'.cells co ≠ none → v.cells co ≠ none ∧
        ∀ e ∈ slots, e.2.coro ≠ some co := by
  induction slots generalizing l v with
  | nil => exact ⟨l.mco, v, rfl, h, ha, fun co hc => ⟨hc, fun e he => by cases he⟩⟩
  | cons e slots ih =>
      rw [List.map_cons, List.nodup_cons] at hnd
      obtain ⟨co, hco, hc⟩ := hall e List.mem_cons_self
      have hn : co ∉ v.active := by simp [ha]
      have hrest : ∀ e' ∈ slots, e'.2.coro ≠ some co := by
        intro e' he' hc'
        refine hnd.1 ?_
        rw [hco, ← hc']
        exact List.mem_map_of_mem (f := fun e : Ptr × LinkedSlot => e.2.coro) he'
      obtain ⟨m', v', hd, hrep, hact, hcells⟩ := @ih { l with mco := l.mco.set co none }
        (v.set co none) (h.set_none hn) ha hnd.2 (by
          intro e' he'
          obtain ⟨co', hco', hc'⟩ := hall e' (List.mem_cons_of_mem e he')
          have hne : co' ≠ co := by
            rintro rfl
            exact hrest e' he' hco'
          exact ⟨co', hco', by simpa [hne] using hc'⟩)
      refine ⟨m', v', ?_, hrep, hact, ?_⟩
      · simp only [destroyAll, destroyCoro_eq h hco hc hn, bind, Except.bind]
        exact hd
      · intro co' hc'
        obtain ⟨hset, hnot⟩ := hcells co' hc'
        have hne : co' ≠ co := by
          rintro rfl
          simp at hset
        refine ⟨by simpa [hne] using hset, ?_⟩
        intro e' he' hco'
        rcases List.mem_cons.1 he' with rfl | hmem
        · rw [hco, Option.some.injEq] at hco'
          exact hne hco'.symm
        · exact hnot e' hmem hco'

end LinkedRuntime

namespace Links

variable {r : ProcessRuntime} {l : LinkedRuntime} {v : View} {key : Ptr} {slot : ProcessSlot}
  {ls : LinkedSlot}

/-- The coroutine of each slot is allocated. -/
theorem allocated (h : Links r l v) {e : Ptr × LinkedSlot} (he : e ∈ l.slots) :
    ∃ co, e.2.coro = some co ∧ v.cells co ≠ none := by
  obtain ⟨slot, -, hl⟩ := h.slot e he
  obtain ⟨c, co, cell, -, hco, hcell, -⟩ := hl.coro
  exact ⟨co, hco, by rw [hcell]; simp⟩

/-- **`recomp_process_init` goes through** while no coroutine is active. -/
theorem reset (h : Links r l v) (hc : r.currentSlot = none) :
    ∃ l' v', l.reset = .ok l' ∧ Links r.cleared l' v' := by
  have hm : r.mcoRunning = none := h.agree.trans hc
  obtain ⟨m', v', hd, hrep, hact, hcells⟩ := LinkedRuntime.destroyAll_eq h.represents (h.idle hm)
    h.coros fun e he => h.allocated he
  refine ⟨{ l with
    slots := []
    currentSlot := none
    currentRdram := false
    yieldReason := 0
    resumeValue := 0
    initialized := true
    mco := m' }, v', ?_, ?_⟩
  · simp only [LinkedRuntime.reset, h.currentSlot.trans hc, hd, bind, Except.bind]
  · exact {
      represents := hrep
      keys := List.nodup_nil
      coros := List.nodup_nil
      none_iff := fun key => by simp [ProcessRuntime.cleared]
      slot := fun e he => by cases he
      owned := fun co hc => by
        obtain ⟨hold, hnot⟩ := hcells co hc
        obtain ⟨e, he, hco⟩ := h.owned co hold
        exact absurd hco (hnot e he)
      idle := fun _ => hact
      runs := fun key hk => by
        rw [ProcessRuntime.cleared, hm] at hk
        cases hk
      currentSlot := rfl
      agree := hm
      currentRdram := rfl
      yieldReason := rfl
      resumeValue := rfl
      initialized := rfl }

/-- **`recomp_process_destroy` goes through** while no coroutine is active. -/
theorem destroy (h : Links r l v) (hc : r.currentSlot = none) (hk : key ≠ 0) :
    ∃ l' v', l.recompProcessDestroy key = .ok l' ∧ Links (r.setSlot key none) l' v' := by
  have hm : r.mcoRunning = none := h.agree.trans hc
  cases hs : r.slots key with
  | none =>
      refine ⟨l, v, ?_, ?_⟩
      · rw [LinkedRuntime.recompProcessDestroy, if_neg hk, LinkedRuntime.destroy, h.find_none hs]
      · rw [ProcessRuntime.setSlot_eq_self hs]
        exact h
  | some slot =>
      obtain ⟨ls, hfind, hmem, hl⟩ := h.found hs
      obtain ⟨co, hco, hcell⟩ := h.allocated hmem
      have hn : co ∉ v.active := by rw [h.idle hm]; simp
      refine ⟨{ l with
        mco := l.mco.set co none
        slots := l.slots.filter fun e => e.1 ≠ key }, v.set co none, ?_, ?_⟩
      · simp only [LinkedRuntime.recompProcessDestroy, hk, if_false, LinkedRuntime.destroy, hfind,
          h.currentSlot.trans hc, reduceCtorEq,
          LinkedRuntime.destroyCoro_eq h.represents hco hcell hn, bind, Except.bind]
      · have hsub : ∀ e ∈ l.slots.filter (fun e => e.1 ≠ key), e ∈ l.slots ∧ e.1 ≠ key := by
          intro e he
          simpa using List.mem_filter.1 he
        have hne : ∀ e ∈ l.slots, e.1 ≠ key → e.2.coro ≠ some co := by
          intro e he hek hc'
          have := h.coro_inj he hmem (hc'.trans hco.symm)
          exact hek (congrArg Prod.fst this)
        exact {
          represents := h.represents.set_none hn
          keys := h.keys.sublist (List.filter_sublist.map _)
          coros := h.coros.sublist (List.filter_sublist.map _)
          none_iff := by
            intro k
            by_cases hkk : k = key
            · subst hkk
              simp
            · simp only [ProcessRuntime.slots_setSlot, hkk, if_false, h.none_iff]
              constructor
              · intro hall e he
                exact hall e (hsub e he).1
              · intro hall e he hek
                refine hall e (List.mem_filter.2 ⟨he, ?_⟩) hek
                simpa using fun he' => hkk (hek.symm.trans he')
          slot := by
            intro e he
            obtain ⟨hold, hek⟩ := hsub e he
            obtain ⟨slot', hs', hl'⟩ := h.slot e hold
            refine ⟨slot', by simpa [hek] using hs', ?_⟩
            obtain ⟨c, co', cell, hcc, hco', hcell', hrest⟩ := hl'.coro
            have hco'ne : co' ≠ co := by
              rintro rfl
              exact hne e hold hek hco'
            exact { hl' with
              coro := ⟨c, co', cell, hcc, hco', by simpa [hco'ne] using hcell', hrest⟩ }
          owned := by
            intro co' hc'
            have hco'ne : co' ≠ co := by
              rintro rfl
              simp at hc'
            obtain ⟨e, he, hco'⟩ := h.owned co' (by simpa [hco'ne] using hc')
            refine ⟨e, List.mem_filter.2 ⟨he, ?_⟩, hco'⟩
            have hek : e.1 ≠ key := by
              intro hek
              have : e = (key, ls) := by
                have h₁ := (LinkedRuntime.find_eq_some h.keys).2 (show (key, e.2) ∈ l.slots by
                  rw [← hek]; exact he)
                rw [hfind, Option.some.injEq] at h₁
                rw [h₁, ← hek]
              rw [this] at hco'
              exact hco'ne (Option.some.inj (hco'.symm.trans hco))
            simpa using hek
          idle := h.idle
          runs := fun k hk' => by
            rw [ProcessRuntime.setSlot, hm] at hk'
            cases hk'
          currentSlot := h.currentSlot
          agree := h.agree
          currentRdram := h.currentRdram
          yieldReason := h.yieldReason
          resumeValue := h.resumeValue
          initialized := h.initialized }

/-! ### Creation -/

/-- The slot of a new process, as `create` leaves it. -/
def createdSlot (r : ProcessRuntime) (key : Ptr) (entryFunc : ProcessFunc) (initialSp : Ptr)
    (endFunc : ProcessFunc) : ProcessSlot :=
  { state := .created
    processKey := key
    entryFunc := entryFunc
    endFunc := endFunc
    initialSp := initialSp
    coro := some { id := r.nextCoroutine, state := .suspended, frames := [] } }

/-- The description of the coroutine of a process passes the checks of the library. -/
theorem validateDesc_process : Coro.validateDesc
    (Coro.mcoDescInit (some LinkedRuntime.processCoroEntry) LinkedRuntime.minNativeStack) =
      .success :=
  Coro.validateDesc_mcoDescInit (by simp) (by decide)

/-- **A slot is created** at the place that the allocator answers with. -/
theorem create (h : Links r l v) (hc : r.currentSlot = none) (hk : key ≠ 0)
    (hs : r.slots key = none) {env : Env} (hp : env.Proper l) (entryFunc : ProcessFunc)
    (initialSp : Ptr) (endFunc : ProcessFunc) :
    ∃ l' v', l.create env key entryFunc initialSp endFunc = .ok l' ∧
      Links { r.setSlot key (some (createdSlot r key entryFunc initialSp endFunc)) with
        nextCoroutine := r.nextCoroutine + 1 } l' v' := by
  have hm : r.mcoRunning = none := h.agree.trans hc
  have hact := h.idle hm
  let d := Coro.mcoDescInit (some LinkedRuntime.processCoroEntry) LinkedRuntime.minNativeStack
  have hfree : v.cells env.mem = none := by
    cases hcell : v.cells env.mem with
    | none => rfl
    | some cell =>
        obtain ⟨c, hc'⟩ := h.represents.allocated env.mem cell hcell
        rw [hp.free] at hc'
        cases hc'
  have hnot : env.mem ∉ v.active := by simp [hact]
  have hnew : ∀ e ∈ l.slots, e.2.coro ≠ some env.mem := by
    intro e he hco
    obtain ⟨co, hco', hcell⟩ := h.allocated he
    rw [hco, Option.some.injEq] at hco'
    exact hcell (hco' ▸ hfree)
  have hkeys := (h.none_iff key).1 hs
  let ls : LinkedSlot :=
    { state := .created
      processKey := key
      entryFunc := entryFunc
      endFunc := endFunc
      initialSp := initialSp
      coro := some env.mem }
  refine ⟨{ l with
    slots := (key, ls) :: l.slots
    mco := l.mco.set env.mem (some (Coro.Machine.newCoroutine env.mem d))
    frames := fun a => if some a = some env.mem then [] else l.frames a },
    v.set env.mem (some (Coro.newCell env.mem d)), ?_, ?_⟩
  · have hcreate : l.mco.mcoCreate true (some (Coro.mcoDescInit
        (some LinkedRuntime.processCoroEntry) LinkedRuntime.minNativeStack)) (some env.mem) =
          (.success, some env.mem, l.mco.set env.mem (some (Coro.Machine.newCoroutine env.mem d))) :=
      Coro.mcoCreate_eq l.mco env.mem rfl rfl validateDesc_process
    simp only [LinkedRuntime.create, hk, if_false, hcreate, h.find_none hs, ne_eq, not_true, ls]
  · exact {
      represents := h.represents.set_some hnot (Coro.holds_created hnot rfl (by decide))
      keys := by
        rw [List.map_cons, List.nodup_cons]
        refine ⟨?_, h.keys⟩
        intro hmem
        obtain ⟨e, he, hek⟩ := List.mem_map.1 hmem
        exact hkeys e he hek
      coros := by
        rw [List.map_cons, List.nodup_cons]
        refine ⟨?_, h.coros⟩
        intro hmem
        obtain ⟨e, he, hco⟩ := List.mem_map.1 hmem
        exact hnew e he hco
      none_iff := by
        intro k
        by_cases hkk : k = key
        · subst hkk
          simp [ls]
        · simp only [ProcessRuntime.slots_setSlot, hkk, if_false, h.none_iff]
          simp [Ne.symm hkk]
      slot := by
        intro e he
        rcases List.mem_cons.1 he with rfl | hmem
        · refine ⟨_, if_pos rfl, ⟨rfl, rfl, rfl, rfl, rfl, ?_⟩⟩
          refine ⟨_, env.mem, Coro.newCell env.mem d, rfl, rfl, by simp, rfl, by simp, Or.inr ?_⟩
          exact ⟨by simp [ProcessRuntime.setSlot, hm], hnot, rfl⟩
        · obtain ⟨slot', hs', hl'⟩ := h.slot e hmem
          refine ⟨slot', by simpa [hkeys e hmem] using hs', ?_⟩
          obtain ⟨c, co, cell, hcc, hco, hcell, hfin, hfr, hrun⟩ := hl'.coro
          have hne : co ≠ env.mem := by
            rintro rfl
            exact hnew e hmem hco
          exact { hl' with
            coro := ⟨c, co, cell, hcc, hco, by simpa [hne] using hcell, hfin, by simpa [hne] using hfr,
              hrun⟩ }
      owned := by
        intro co hcell
        by_cases hco : co = env.mem
        · exact ⟨(key, ls), List.mem_cons_self, by rw [hco]⟩
        · obtain ⟨e, he, hco'⟩ := h.owned co (by simpa [hco] using hcell)
          exact ⟨e, List.mem_cons_of_mem _ he, hco'⟩
      idle := fun _ => hact
      runs := fun k hk' => by
        rw [ProcessRuntime.setSlot, hm] at hk'
        cases hk'
      currentSlot := h.currentSlot
      agree := h.agree
      currentRdram := h.currentRdram
      yieldReason := h.yieldReason
      resumeValue := h.resumeValue
      initialized := h.initialized }

/-! ### One slot -/

/-- **Only the slot of `key` changes**, with its coroutine. -/
theorem rebuild (h : Links r l v) (hs : r.slots key = some slot) (hmem : (key, ls) ∈ l.slots)
    {co : Coro.Addr} (hlco : ls.coro = some co) (hcur : ∀ k, r.mcoRunning = some k → k = key)
    {r' : ProcessRuntime} {l' : LinkedRuntime} {v' : View} {slot' : ProcessSlot}
    {f : LinkedSlot → LinkedSlot} (hf : ∀ ls, (f ls).coro = ls.coro)
    (hslots : l'.slots = (l.modify key f).slots) (hr : r'.slots = (r.setSlot key (some slot')).slots)
    (hframes : ∀ a, a ≠ co → l'.frames a = l.frames a) (hcells : ∀ a, v'.cells a = v.cells a)
    (hrep : Represents l'.mco v') (hact : ∀ a, a ≠ co → a ∉ v'.active)
    (hcur' : ∀ k, r'.mcoRunning = some k → k = key) (hidle : r'.mcoRunning = none → v'.active = [])
    (hslot : SlotLinks l' v' (r'.mcoRunning = some key) slot' (f ls))
    (hfields : l'.currentSlot = r'.currentSlot ∧ r'.mcoRunning = r'.currentSlot ∧
      l'.currentRdram = r'.currentRdram ∧ l'.yieldReason = r'.yieldReason ∧
      l'.resumeValue = r'.resumeValue ∧ l'.initialized = r'.initialized) :
    Links r' l' v' where
  represents := hrep
  keys := by
    rw [hslots, LinkedRuntime.keys_modify]
    exact h.keys
  coros := by
    rw [hslots, LinkedRuntime.coros_modify hf]
    exact h.coros
  none_iff k := by
    rw [hr, hslots, ProcessRuntime.slots_setSlot]
    by_cases hk : k = key
    · subst hk
      rw [if_pos rfl]
      constructor
      · intro hc
        cases hc
      · intro hall
        exact absurd (by simp) (hall _ (LinkedRuntime.mem_modify.2 ⟨_, hmem, rfl⟩))
    · rw [if_neg hk, h.none_iff]
      constructor
      · intro hall e he
        obtain ⟨e₀, he₀, rfl⟩ := LinkedRuntime.mem_modify.1 he
        split_ifs
        · exact hall e₀ he₀
        · exact hall e₀ he₀
      · intro hall e he
        have := hall _ (LinkedRuntime.mem_modify.2 ⟨e, he, rfl⟩)
        split_ifs at this
        · exact this
        · exact this
  slot e he := by
    rw [hslots] at he
    obtain ⟨e₀, he₀, rfl⟩ := LinkedRuntime.mem_modify.1 he
    by_cases hek : e₀.1 = key
    · have heq : e₀.2 = ls := by
        have hfind := (LinkedRuntime.find_eq_some h.keys).2 hmem
        rw [(LinkedRuntime.find_eq_some h.keys).2 (show (key, e₀.2) ∈ l.slots by
          rw [← hek]; exact he₀)] at hfind
        exact Option.some.inj hfind
      rw [if_pos hek, hr]
      simp only [ProcessRuntime.slots_setSlot, hek, if_true, heq]
      exact ⟨slot', rfl, hslot⟩
    · rw [if_neg hek, hr]
      obtain ⟨slot₀, hs₀, hl₀⟩ := h.slot e₀ he₀
      refine ⟨slot₀, by rw [ProcessRuntime.slots_setSlot, if_neg hek]; exact hs₀, ?_⟩
      obtain ⟨c, co₀, cell, hcc, hco₀, hcell, hfin, hfr, hrun⟩ := hl₀.coro
      have hne : co₀ ≠ co := by
        rintro rfl
        exact hek (congrArg Prod.fst (h.coro_inj he₀ hmem (hco₀.trans hlco.symm)))
      have hnot : ¬ r.mcoRunning = some e₀.1 := fun hc => hek (hcur e₀.1 hc)
      have hsus := (hrun.resolve_left fun hc => hnot hc.1).2.2
      exact { hl₀ with
        coro := ⟨c, co₀, cell, hcc, hco₀, by rw [hcells, hcell], hfin,
          by rw [hframes co₀ hne, hfr],
          Or.inr ⟨fun hc => hek (hcur' e₀.1 hc), hact co₀ hne, hsus⟩⟩ }
  owned co' hcell' := by
    obtain ⟨e, he, hco'⟩ := h.owned co' (by rwa [← hcells])
    rw [hslots]
    refine ⟨_, LinkedRuntime.mem_modify.2 ⟨e, he, rfl⟩, ?_⟩
    split_ifs
    · rw [hf]
      exact hco'
    · exact hco'
  idle := hidle
  runs k hk := by
    rw [hcur' k hk, hr]
    simp
  currentSlot := hfields.1
  agree := hfields.2.1
  currentRdram := hfields.2.2.1
  yieldReason := hfields.2.2.2.1
  resumeValue := hfields.2.2.2.2.1
  initialized := hfields.2.2.2.2.2

/-! ### Resuming -/

/-- **The coroutine of a slot is resumed**: a new one starts its entry function, another one goes on
behind the call that yielded. -/
theorem enter (h : Links r l v) (hc : r.currentSlot = none) (hs : r.slots key = some slot)
    {coro : Coroutine} {frames : List Frame} (hco : slot.coro = some coro)
    (hfr : coro.frames = [] ∧ frames = [.entry slot.entryFunc] ∨
      ∃ frame, coro.frames = frame :: frames ∧ ∀ p, frame ≠ .terminateProcess p) :
    ∃ l' v', (do let l ← l.resumeCoro key; l.coroutineEnter) = .ok l' ∧
      Links (r.enter key { slot with
        state := .running
        coro := some { coro with state := .running, frames := frames } }) l' v' := by
  have hm : r.mcoRunning = none := h.agree.trans hc
  have hact := h.idle hm
  obtain ⟨ls, hfind, hmem, hl⟩ := h.found hs
  obtain ⟨c, co, cell, hcc, hlco, hcell, hfin, hfrl, -⟩ := hl.coro
  obtain rfl : c = coro := Option.some.inj (hcc.symm.trans hco)
  obtain ⟨mc, hmc, hh⟩ := h.represents.lookup hcell
  have hnot : co ∉ v.active := by simp [hact]
  have hsus : stateOf v.active co cell = .suspended := Coro.stateOf_eq_suspended.2 ⟨hnot, hfin⟩
  have hres := h.represents.mcoResume_eq hmc hcell
  rw [if_pos hsus] at hres
  have hrep := h.represents.pushed hcell hh hnot hfin
  rw [hact] at hres hrep
  let l₁ : LinkedRuntime := { l with
    currentSlot := some key
    currentRdram := true
    resumeValue := 1
    yieldReason := 0
    mco := l.mco.switch co (Coro.switchedIn mc []) none .normal (some co) }
  have hl₁ : l.resumeCoro key = .ok l₁ := by
    have hstate : mc.state = .suspended := hh.state.trans hsus
    simp only [LinkedRuntime.resumeCoro, hfind, Option.bind_some, hlco, LinkedRuntime.lib,
      Coro.Machine.mcoStatus, Coro.Machine.deref_eq hmc, Except.map, hstate, Except.mapError, bind,
      Except.bind, reduceCtorEq, if_false, hres, ne_eq, not_true, List.head?_nil, l₁]
  have henter : l₁.coroutineEnter = .ok { l₁.modify key fun slot => { slot with state := .running }
      with frames := fun a => if a = co then frames else l.frames a } := by
    have hex : l₁.mco.executing = some co := rfl
    have hcur : l₁.currentSlot = some key := rfl
    have hframes : l₁.frames co = c.frames := hfrl
    have hfind₁ : l₁.find key = some ls := hfind
    rcases hfr with ⟨hnil, rfl⟩ | ⟨frame, hcons, hnt⟩
    · simp only [LinkedRuntime.coroutineEnter, hex, hcur, hframes, hnil, hfind₁, Option.map_some,
        Option.toList_some, hl.entryFunc]
      rfl
    · cases frame with
      | terminateProcess p => exact absurd rfl (hnt p)
      | _ =>
          simp only [LinkedRuntime.coroutineEnter, hex, hcur, hframes, hcons]
          rfl
  refine ⟨{ l₁.modify key fun slot => { slot with state := .running }
      with frames := fun a => if a = co then frames else l.frames a },
    { v with active := [co] }, ?_, ?_⟩
  · simp only [hl₁, bind, Except.bind]
    exact henter
  · refine h.rebuild (f := fun slot => { slot with state := .running }) hs hmem hlco
      (fun k hk => by rw [hm] at hk; cases hk) (fun _ => rfl) rfl rfl
      (fun a ha => if_neg ha) (fun _ => rfl) hrep (fun a ha => by simpa using ha)
      (fun k hk => (Option.some.inj hk).symm) (fun hk => by cases hk) ?_
      ⟨rfl, rfl, rfl, rfl, rfl, h.initialized⟩
    exact ⟨rfl, hl.processKey, hl.entryFunc, hl.endFunc, hl.initialSp, _, co, cell, rfl, hlco, hcell,
      hfin, if_pos rfl, Or.inl ⟨rfl, rfl, rfl⟩⟩

/-! ### Yielding -/

/-- **The running coroutine yields**, from a local variable on its own stack. -/
theorem yielded (h : Links r l v) (hc : r.currentSlot = some key) (hs : r.slots key = some slot)
    {coro : Coroutine} (hco : slot.coro = some coro) {env : Env} (hp : env.Proper l) {reason : ℤ}
    (hr : isKnownYieldReason reason = true) (frame : Frame) :
    ∃ l' v', l.call env (.yield reason frame) = .ok l' ∧
      Links (r.yielded key slot coro (frame :: coro.frames) reason) l' v' := by
  have hm : r.mcoRunning = some key := h.agree.trans hc
  obtain ⟨ls, -, hmem, hl⟩ := h.found hs
  obtain ⟨c, co, cell, hcc, hlco, hcell, hfin, hfrl, hrun⟩ := hl.coro
  obtain rfl : c = coro := Option.some.inj (hcc.symm.trans hco)
  obtain ⟨-, hact, -⟩ := hrun.resolve_right fun hn => hn.1 hm
  obtain ⟨mc, hmc, hh⟩ := h.represents.lookup hcell
  have hex : l.mco.executing = some co := by rw [h.represents.executing, hact]; rfl
  have hcurrent : l.mco.mcoRunning = some co := h.represents.current.trans (by rw [hact]; rfl)
  have hstack := hp.onStack co mc hex hmc
  rw [hh.stackBase, hh.stackSize] at hstack
  have hyield := h.represents.mcoYield_eq hmc hcell env.dummy
  rw [if_neg (by rintro (hlt | hlt)
                 · exact absurd hstack.1 (BitVec.not_le.2 hlt)
                 · exact absurd hstack.2 (BitVec.not_le.2 hlt)), if_pos (by rw [hact]; rfl),
    hact] at hyield
  have hrep := h.represents.popped hcell hh hact false
  let st : ProcessState := if reason = yieldTerminate then .dead else .suspended
  let m' := l.mco.switch co (Coro.switchedOut mc co .suspended) none .running none
  have hyield' : l.mco.mcoYield (some co) env.dummy = .ok (.success, m') := hyield
  refine ⟨{ l.modify key fun slot => { slot with state := st } with
    currentSlot := none
    currentRdram := false
    yieldReason := reason
    mco := m'
    frames := fun a => if l.mco.executing = some a then frame :: l.frames a else l.frames a },
    v.pop co { cell with finished := false } [], ?_, ?_⟩
  · have hm' : m'.executing = none := rfl
    simp only [LinkedRuntime.call, LinkedRuntime.recompProcessYield, hr, h.currentSlot.trans hc,
      LinkedRuntime.yieldRunningCoro, LinkedRuntime.modify, hcurrent, LinkedRuntime.lib, hyield',
      Except.mapError, bind, Except.bind, LinkedRuntime.resumeExit, hm', Bool.not_true,
      Bool.false_eq_true, if_false, ne_eq, not_true]
    rfl
  · have hkey : ∀ k, r.mcoRunning = some k → k = key := fun k hk =>
      (Option.some.inj (hm.symm.trans hk)).symm
    refine h.rebuild (f := fun slot => { slot with state := st }) hs hmem hlco hkey (fun _ => rfl)
      rfl rfl ?_ ?_ hrep (fun a _ => by simp) (fun k hk => by cases hk) (fun _ => rfl) ?_
      ⟨rfl, rfl, rfl, rfl, h.resumeValue, h.initialized⟩
    · intro a ha
      exact if_neg fun he => ha (Option.some.inj (hex.symm.trans he)).symm
    · intro a
      rw [View.cells_pop]
      split_ifs with ha
      · rw [ha, hcell, ← hfin]
      · rfl
    · refine ⟨rfl, hl.processKey, hl.entryFunc, hl.endFunc, hl.initialSp, _, co, _, rfl, hlco,
        if_pos rfl, rfl, ?_, Or.inr ⟨(fun hk => by cases hk), List.not_mem_nil, rfl⟩⟩
      change (if l.mco.executing = some co then frame :: l.frames co else l.frames co) = _
      rw [if_pos hex, hfrl]

/-! ### The calls -/

/-- **The first resume** of a process creates its coroutine. -/
theorem started (h : Links r l v) (hi : r.initialized = true) (hc : r.currentSlot = none)
    (hk : key ≠ 0) (hs : r.slots key = none) {env : Env} (hp : env.Proper l) (func : ProcessFunc)
    (sp : Ptr) : ∃ l' v', l.call env (.resume key func sp .endProcess) = .ok l' ∧
      Links (r.started key func sp) l' v' := by
  obtain ⟨l₁, v₁, hcreate, h₁⟩ := h.create hc hk hs hp func sp .endProcess
  obtain ⟨l', v', henter, h'⟩ := h₁.enter hc (if_pos rfl) rfl (Or.inl ⟨rfl, rfl⟩)
  refine ⟨l', v', ?_, ?_⟩
  · simp only [LinkedRuntime.call, LinkedRuntime.resumeEnter, h.initialized.trans hi,
      h.currentSlot.trans hc, hk, LinkedRuntime.resumeSlot, h.find_none hs, hcreate,
      Bool.not_true, Bool.false_eq_true, if_false, Option.isSome_none, bind, Except.bind]
    exact henter
  · have heq : r.started key func sp = ({ r.setSlot key (some (createdSlot r key func sp
        .endProcess)) with nextCoroutine := r.nextCoroutine + 1 } : ProcessRuntime).enter key
        (r.startedSlot key func sp .endProcess) := by
      simp only [ProcessRuntime.started, ProcessRuntime.enter, ProcessRuntime.setSlot]
      congr 1
      funext k
      by_cases hk' : k = key <;> simp [hk']
    rw [heq]
    exact h'

/-- **A later resume** of a process resumes its coroutine. -/
theorem resumed (h : Links r l v) (hi : r.initialized = true) (hc : r.currentSlot = none)
    (hk : key ≠ 0) (hs : r.slots key = some slot) (hd : slot.state ≠ .dead) {coro : Coroutine}
    (hco : slot.coro = some coro) {frame : Frame} {frames : List Frame}
    (hfr : coro.frames = frame :: frames) (hw : ∀ p, frame ≠ .terminateProcess p) (env : Env) :
    ∃ l' v', l.call env (.resume key slot.entryFunc slot.initialSp slot.endFunc) = .ok l' ∧
      Links (r.resumed key slot coro frames) l' v' := by
  obtain ⟨l', v', henter, h'⟩ := h.enter hc hs hco (Or.inr ⟨frame, hfr, hw⟩)
  obtain ⟨ls, hfind, -, hl⟩ := h.found hs
  refine ⟨l', v', ?_, h'⟩
  simp only [LinkedRuntime.call, LinkedRuntime.resumeEnter, h.initialized.trans hi,
    h.currentSlot.trans hc, hk, LinkedRuntime.resumeSlot, hfind, hl.state, hd, hl.entryFunc,
    hl.endFunc, hl.initialSp, ne_eq, not_true, or_self, Bool.not_true, Bool.false_eq_true,
    if_false, Option.isSome_none, bind, Except.bind]
  exact henter

/-- **A call or a return** in the running coroutine does not reach the library. -/
theorem reframed (h : Links r l v) (hm : r.mcoRunning = some key) (hs : r.slots key = some slot)
    {coro : Coroutine} (hco : slot.coro = some coro) (frames : List Frame) (env : Env) :
    ∃ l' v', l.call env (.frames frames) = .ok l' ∧
      Links (r.reframed key slot coro frames) l' v' := by
  obtain ⟨ls, -, hmem, hl⟩ := h.found hs
  obtain ⟨c, co, cell, hcc, hlco, hcell, hfin, hfrl, hrun⟩ := hl.coro
  obtain rfl : c = coro := Option.some.inj (hcc.symm.trans hco)
  obtain ⟨-, hact, hst⟩ := hrun.resolve_right fun hn => hn.1 hm
  have hex : l.mco.executing = some co := by rw [h.represents.executing, hact]; rfl
  have hkey : ∀ k, r.mcoRunning = some k → k = key := fun k hk =>
    (Option.some.inj (hm.symm.trans hk)).symm
  refine ⟨_, v, rfl, ?_⟩
  refine h.rebuild (f := id) hs hmem hlco hkey (fun _ => rfl) ?_ rfl ?_ (fun _ => rfl)
    h.represents (fun a ha => by rw [hact]; simpa using ha) hkey
    (fun hn => by cases hm.symm.trans hn) ?_
    ⟨h.currentSlot, h.agree, h.currentRdram, h.yieldReason, h.resumeValue, h.initialized⟩
  · simp [LinkedRuntime.modify]
  · intro a ha
    exact if_neg fun he => ha (Option.some.inj (hex.symm.trans he)).symm
  · exact { hl with
      coro := ⟨_, co, cell, rfl, hlco, hcell, hfin, if_pos hex, Or.inl ⟨hm, hact, hst⟩⟩ }

end Links

end Sched
