/-
**A killed process does not go on.**

The scheduler kills a process by its mode alone: the coroutine in which the code of the process is
suspended is left as it is until the process is visited.  The visit drops the coroutine and runs
`EndProcess` in a new one.  Since the identity of a coroutine is never used twice, this is a
statement about identities: once a process that does not run has been killed, its coroutine is
resumed by no step of any run; and as long as the process lives, it only runs in coroutines that
were started with `EndProcess`.

Main definitions:

* `Sched.ProcessRuntime.Owns`, `Sched.ProcessRuntime.coroutineOf` — the coroutine of a process;
* `Sched.ProcessRuntime.Moves` — what a step can do to the coroutines;
* `Sched.Doomed` — a process that has been killed and does not run;
* `Sched.KilledStops` — **what becomes of it**.

Main results:

* `Sched.StepCase.moves`, `Sched.ReachableUnder.coroInv` — coroutines are told apart by their
  identities;
* `Sched.StepCase.doomed` — a killed process waits for its visit;
* `Sched.killed_stops_of_reachable` — **a killed process does not go on**.
-/

import TsaRecomp.Sched.Modes

set_option relaxedAutoImplicit false
set_option autoImplicit false

namespace Sched

/-! ### Coroutines -/

namespace ProcessRuntime

/-- The slot of a process, with its coroutine. -/
structure Owns (r : ProcessRuntime) (p : Ptr) (slot : ProcessSlot) (coro : Coroutine) : Prop where
  slot_eq : r.slots p = some slot
  coro_eq : slot.coro = some coro

/-- The identity of the coroutine of a process. -/
def coroutineOf (r : ProcessRuntime) (p : Ptr) : Option ℕ :=
  ((r.slots p).bind ProcessSlot.coro).map Coroutine.id

theorem coroutineOf_eq_some {r : ProcessRuntime} {p : Ptr} {i : ℕ} :
    r.coroutineOf p = some i ↔ ∃ slot coro, r.Owns p slot coro ∧ coro.id = i := by
  unfold coroutineOf
  constructor
  · intro h
    obtain ⟨coro, hc, rfl⟩ := Option.map_eq_some_iff.1 h
    obtain ⟨slot, hs, hco⟩ := Option.bind_eq_some_iff.1 hc
    exact ⟨slot, coro, ⟨hs, hco⟩, rfl⟩
  · rintro ⟨slot, coro, ⟨hs, hco⟩, rfl⟩
    rw [hs, Option.bind_some, hco, Option.map_some]

/-- Where the coroutine that `p` has behind a step comes from: `p` had it before, or it is the one
that has been started for `cur`. -/
inductive Comes (r : ProcessRuntime) (cur p : Ptr) (slot : ProcessSlot) (coro : Coroutine)
    (next : ℕ) : Prop
  | kept {slot₀ : ProcessSlot} {coro₀ : Coroutine} (h : r.Owns p slot₀ coro₀)
      (hid : coro.id = coro₀.id) (hentry : slot.entryFunc = slot₀.entryFunc)
      (hframes : ∀ f, .entry f ∈ coro.frames → .entry f ∈ coro₀.frames)
  | started (hp : p = cur) (hid : coro.id = r.nextCoroutine) (hnext : r.nextCoroutine < next)
      (hframes : coro.frames = [.entry slot.entryFunc])

/-- What a step can do to the coroutines. -/
structure Moves (r : ProcessRuntime) (cur : Ptr) (r' : ProcessRuntime) : Prop where
  next_le : r.nextCoroutine ≤ r'.nextCoroutine
  comes : ∀ p slot coro, r'.Owns p slot coro → r.Comes cur p slot coro r'.nextCoroutine

/-- Coroutines have identities of their own, and run the entry function of their slot. -/
structure CoroInv (r : ProcessRuntime) : Prop where
  lt : ∀ p slot coro, r.Owns p slot coro → coro.id < r.nextCoroutine
  inj : ∀ p q slot slot' coro coro', r.Owns p slot coro → r.Owns q slot' coro' →
    coro.id = coro'.id → p = q
  entry : ∀ p slot coro f, r.Owns p slot coro → .entry f ∈ coro.frames → f = slot.entryFunc

/-- A coroutine that has been destroyed. -/
structure Gone (r : ProcessRuntime) (i : ℕ) : Prop where
  lt : i < r.nextCoroutine
  none : ∀ p, r.coroutineOf p ≠ some i

section Moves

variable {r r' : ProcessRuntime} {cur : Ptr}

theorem Comes.same {p : Ptr} {slot : ProcessSlot} {coro : Coroutine} {next : ℕ}
    (h : r.Owns p slot coro) : r.Comes cur p slot coro next := .kept h rfl rfl fun _ => id

/-- A step that leaves every slot alone, or empties it. -/
theorem Moves.of_slots (hn : r'.nextCoroutine = r.nextCoroutine)
    (hs : ∀ p slot, r'.slots p = some slot → r.slots p = some slot) : Moves r cur r' :=
  ⟨hn.ge, fun p slot _ h => .same ⟨hs p slot h.slot_eq, h.coro_eq⟩⟩

/-- A step that works on the slot of `cur`. -/
theorem Moves.of_others (hn : r.nextCoroutine ≤ r'.nextCoroutine)
    (hs : ∀ p, p ≠ cur → r'.slots p = r.slots p)
    (hcur : ∀ slot coro, r'.Owns cur slot coro → r.Comes cur cur slot coro r'.nextCoroutine) :
    Moves r cur r' := by
  refine ⟨hn, ?_⟩
  intro p slot coro h
  by_cases hp : p = cur
  · subst hp
    exact hcur slot coro h
  · exact .same ⟨(hs p hp).symm.trans h.slot_eq, h.coro_eq⟩

/-- A step that leaves the coroutine of `cur` in other frames. -/
theorem Moves.of_frames {slot slot' : ProcessSlot} {coro coro' : Coroutine}
    (h : r.Owns cur slot coro) (hn : r'.nextCoroutine = r.nextCoroutine)
    (hs : ∀ p, r'.slots p = if p = cur then some slot' else r.slots p)
    (hco : slot'.coro = some coro') (hid : coro'.id = coro.id)
    (hentry : slot'.entryFunc = slot.entryFunc)
    (hframes : ∀ f, .entry f ∈ coro'.frames → .entry f ∈ coro.frames) : Moves r cur r' := by
  refine .of_others hn.ge (fun p hp => by rw [hs, if_neg hp]) ?_
  intro slot₁ coro₁ h₁
  have hs₁ := h₁.slot_eq
  rw [hs, if_pos rfl] at hs₁
  obtain rfl := Option.some.inj hs₁
  obtain rfl := Option.some.inj (hco.symm.trans h₁.coro_eq)
  exact .kept h hid hentry hframes

/-- **Identities stay apart.** -/
theorem Moves.coroInv (h : Moves r cur r') (hr : CoroInv r) : CoroInv r' := by
  refine ⟨?_, ?_, ?_⟩
  · intro p slot coro ho
    cases h.comes p slot coro ho with
    | kept h₀ hid => exact hid ▸ (hr.lt _ _ _ h₀).trans_le h.next_le
    | started _ hid hnext => exact hid ▸ hnext
  · intro p q slot slot' coro coro' ho ho' he
    cases h.comes p slot coro ho with
    | kept h₀ hid =>
        have hlt := hr.lt _ _ _ h₀
        cases h.comes q slot' coro' ho' with
        | kept h₀' hid' => exact hr.inj _ _ _ _ _ _ h₀ h₀' (hid.symm.trans (he.trans hid'))
        | started _ hid' => omega
    | started hp hid =>
        cases h.comes q slot' coro' ho' with
        | kept h₀' hid' =>
            have hlt := hr.lt _ _ _ h₀'
            omega
        | started hq => exact hp.trans hq.symm
  · intro p slot coro f ho hf
    cases h.comes p slot coro ho with
    | kept h₀ _ hentry hframes => exact hentry ▸ hr.entry _ _ _ f h₀ (hframes f hf)
    | started _ _ _ hframes =>
        rw [hframes] at hf
        exact Frame.entry.inj (List.mem_singleton.1 hf)

/-- A coroutine that `p` alone had, and does not have any more, is gone. -/
theorem Moves.gone_of_lost (h : Moves r cur r') {p : Ptr} {i : ℕ} (hlt : i < r.nextCoroutine)
    (hp : ∀ q, r.coroutineOf q = some i → q = p) (hlost : r'.coroutineOf p ≠ some i) :
    Gone r' i := by
  refine ⟨hlt.trans_le h.next_le, ?_⟩
  intro q hq
  obtain ⟨slot, coro, ho, rfl⟩ := coroutineOf_eq_some.1 hq
  cases h.comes q slot coro ho with
  | kept h₀ hid =>
      obtain rfl := hp q (coroutineOf_eq_some.2 ⟨_, _, h₀, hid.symm⟩)
      exact hlost hq
  | started _ hid => omega

/-- A destroyed coroutine is gone for good. -/
theorem Moves.gone (h : Moves r cur r') {i : ℕ} (hi : Gone r i) : Gone r' i :=
  h.gone_of_lost (p := cur) hi.lt (fun q hq => absurd hq (hi.none q)) <| by
    intro hq
    obtain ⟨slot, coro, ho, rfl⟩ := coroutineOf_eq_some.1 hq
    have hlt := hi.lt
    cases h.comes cur slot coro ho with
    | kept h₀ hid => exact hi.none cur (coroutineOf_eq_some.2 ⟨_, _, h₀, hid.symm⟩)
    | started _ hid => omega

end Moves

end ProcessRuntime

open ProcessRuntime

theorem InCoroutine.owns {s : Sys} {time : ℤ} {cur next : Ptr} {slot : ProcessSlot}
    {coro : Coroutine} (h : InCoroutine s time cur next slot coro) : s.host.Owns cur slot coro :=
  ⟨h.slot_eq, h.coro_eq⟩

/-- **What a step does to the coroutines.** -/
theorem StepCase.moves {s t : Sys} {a : Act} (hst : StepCase s a t) :
    ∃ cur, Moves s.host cur t.host := by
  cases hst with
  | initProcess => exact ⟨0, .of_slots rfl fun _ _ h => by cases h⟩
  | callProcess | finish | skip | yieldedNormal | api | setProcessDestruct | watchNoChild
  | scribble | overwriteGuards => exact ⟨0, .of_slots rfl fun _ _ => id⟩
  | @start time cur m r evs hc hcur hp hr hs =>
      have hn : r.nextCoroutine = s.host.nextCoroutine := by cases hr <;> rfl
      refine ⟨cur, .of_others (hn ▸ Nat.le_succ _) ?_ ?_⟩
      · intro p hp
        exact hr.slots_started hp _ _
      · intro slot coro h
        obtain rfl := Option.some.inj ((if_pos rfl).symm.trans h.slot_eq)
        obtain rfl := Option.some.inj h.coro_eq
        exact .started rfl hn (hn ▸ Nat.lt_succ_self _) rfl
  | @resume time cur m slot coro frame frames hc hcur hp hr hs hco hf hw =>
      refine ⟨cur, .of_frames ⟨hs, hco⟩ rfl (fun _ => rfl) rfl rfl rfl ?_⟩
      intro f h
      rw [hf]
      exact List.mem_cons_of_mem _ h
  | @yieldedTerminate time cur next hc hp hl hheap =>
      refine ⟨cur, .of_slots rfl ?_⟩
      intro p slot h
      rw [slots_setSlot] at h
      split_ifs at h
      exact h
  | sleepProcess _ hr | watchChildProcess hr | destruct hr | terminate hr =>
      exact ⟨_, .of_frames hr.owns rfl (fun _ => rfl) rfl rfl rfl fun f h => by simpa using h⟩
  | @destructed time cur next slot coro f frames hr hf =>
      refine ⟨_, .of_frames hr.owns rfl (fun _ => rfl) rfl rfl rfl ?_⟩
      intro f h
      rw [hf]
      simpa using h

/-- **The run lemma**: coroutines are told apart by their identities. -/
theorem ReachableUnder.coroInv {C : Sys → Act → Prop} {s : Sys} (h : ReachableUnder C s) :
    CoroInv s.host := by
  refine h.invariant (I := fun s => CoroInv s.host) ?_ ?_
  · rintro s ⟨record, rfl⟩
    refine ⟨?_, ?_, ?_⟩
    · intro p slot coro h
      cases h.slot_eq
    · intro p q slot slot' coro coro' h
      cases h.slot_eq
    · intro p slot coro f h
      cases h.slot_eq
  · intro s a t _ hi _ hst
    obtain ⟨cur, hm⟩ := hst.moves
    exact hm.coroInv hi

/-! ### The history -/

/-- `CallProcess` begins the round of `p`. -/
def Visits (p : Ptr) (s : Sys) (a : Act) : Prop :=
  a = .tick ∧ (∃ time, s.control = .loop time) ∧ s.mem.currentProcess = p

/-- What a step tells of the rounds of `CallProcess`. -/
structure Tells (s : Sys) (a : Act) (evs : List Event) : Prop where
  visited : ∀ q, .visited q ∈ evs → Visits q s a ∧ q ∈ s.mem.procs
  resumed : ∀ q i, .resumed q (some i) ∈ evs →
    i = s.host.nextCoroutine ∨ s.host.coroutineOf q = some i ∧ s.mem.mode q ≠ .dead

theorem Tells.of_others {s : Sys} {a : Act} {evs : List Event}
    (h : ∀ e ∈ evs, (∀ q, e ≠ .visited q) ∧ ∀ q i, e ≠ .resumed q i) : Tells s a evs :=
  ⟨fun q hq => absurd rfl ((h _ hq).1 q), fun q i hq => absurd rfl ((h _ hq).2 q (some i))⟩

/-- The round of a killed process does not resume its coroutine. -/
theorem Readies.mode_ne_dead {m m' : Memory} {r r' : ProcessRuntime} {cur : Ptr}
    (h : Readies m r cur m' r' []) : m.mode cur ≠ .dead := by
  cases h with
  | default h => simp [Memory.mode, h]
  | childless h => simp [Memory.mode, h]

theorem Readies.live {m m' : Memory} {r r' : ProcessRuntime} {cur : Ptr} {evs : List Event}
    (h : Readies m r cur m' r' evs) : m'.live = m.live := by cases h <;> rfl

/-- **What a step leaves in the history.** -/
theorem StepCase.tells {s t : Sys} {a : Act} (hst : StepCase s a t) :
    ∃ evs, t.log = evs ++ s.log ∧ Tells s a evs := by
  cases hst with
  | initProcess | finish | yieldedNormal | setProcessDestruct | sleepProcess | watchChildProcess
  | scribble | overwriteGuards => exact ⟨[], rfl, .of_others (by simp)⟩
  | callProcess time => exact ⟨[.called time], rfl, .of_others (by simp)⟩
  | @skip time cur m hc hcur hp =>
      refine ⟨[.visited cur], rfl, ?_, by simp⟩
      intro q hq
      obtain rfl : q = cur := by simpa using hq
      exact ⟨⟨rfl, ⟨time, hc⟩, hcur⟩, hp⟩
  | @start time cur m r evs hc hcur hp hr hs =>
      refine ⟨.resumed cur (some r.nextCoroutine) :: evs ++ [.visited cur], by simp, ?_, ?_⟩
      · intro q hq
        obtain rfl : q = cur := by cases hr <;> simpa using hq
        exact ⟨⟨rfl, ⟨time, hc⟩, hcur⟩, hp⟩
      · intro q i hq
        have hi : i = r.nextCoroutine := by
          cases hr <;> exact (by simpa using hq : q = cur ∧ i = _).2
        exact Or.inl (hi.trans (by cases hr <;> rfl))
  | @resume time cur m slot coro frame frames hc hcur hp hr hs hco hf hw =>
      have hmem : ∀ e ∈ frame.returns ++ [.resumed cur (some coro.id), .visited cur],
          e = .watchReturned cur ∨ e = .resumed cur (some coro.id) ∨ e = .visited cur := by
        rcases hw with rfl | rfl <;> simp [Frame.returns]
      refine ⟨frame.returns ++ [.resumed cur (some coro.id), .visited cur], by simp, ?_, ?_⟩
      · intro q hq
        obtain rfl : q = cur := by simpa using hmem _ hq
        exact ⟨⟨rfl, ⟨time, hc⟩, hcur⟩, hp⟩
      · intro q i hq
        obtain ⟨rfl, rfl⟩ : q = cur ∧ i = coro.id := by simpa using hmem _ hq
        refine Or.inr ⟨coroutineOf_eq_some.2 ⟨slot, coro, ⟨hs, hco⟩, rfl⟩, ?_⟩
        exact hr.mode_ne_dead
  | @yieldedTerminate time cur =>
      exact ⟨[.heapFreed s.mem.pendingHeapFree, .coroutineDestroyed cur], rfl,
        .of_others (by simp)⟩
  | @api a => exact ⟨a.events, rfl, .of_others (by cases a <;> simp [Api.events])⟩
  | @watchNoChild time cur => exact ⟨[.watchReturned cur], rfl, .of_others (by simp)⟩
  | @destruct a time cur => exact ⟨[.destructorStarted cur], rfl, .of_others (by simp)⟩
  | @terminate a time cur | @destructed time cur =>
      exact ⟨[.terminated cur], rfl, .of_others (by simp)⟩

/-- The process that runs. -/
def Control.runs : Control → Option Ptr
  | .running _ cur _ => some cur
  | _ => none

theorem InCoroutine.runs {s : Sys} {time : ℤ} {cur next : Ptr} {slot : ProcessSlot}
    {coro : Coroutine} (h : InCoroutine s time cur next slot coro) :
    s.control.runs = some cur := by
  rw [h.control]
  rfl

theorem InCoroutine.eq_of_runs {s : Sys} {time : ℤ} {p cur next : Ptr} {slot : ProcessSlot}
    {coro : Coroutine} (h : InCoroutine s time cur next slot coro)
    (hp : s.control.runs = some p) : cur = p := Option.some.inj (h.runs.symm.trans hp)

/-- What an event of the history says of the step that has left it. -/
def Event.Of (s : Sys) (a : Act) : Event → Prop
  | .created _ _ => ∃ b, a = .api b
  | .called time => a = .callProcess time
  | .visited p | .resumed p _ => Visits p s a
  | .watchReturned p => a = .watchChildProcess ∨ Visits p s a
  | .destructorStarted p | .terminated p =>
      s.control.runs = some p ∧ (a = .endProcess ∨ a = .returnFrom)
  | .coroutineDestroyed _ | .heapFreed _ => a = .tick

/-- **The events of a step.** -/
theorem StepCase.events {s t : Sys} {a : Act} (hst : StepCase s a t) {e : Event}
    (he : e ∈ newEvents s t) : e.Of s a := by
  have key : ∀ evs : List Event, t.log = evs ++ s.log → e ∈ evs :=
    fun evs hlog => by rwa [newEvents_eq hlog] at he
  cases hst with
  | initProcess | finish | yieldedNormal | setProcessDestruct | sleepProcess | watchChildProcess
  | scribble | overwriteGuards => cases key [] rfl
  | callProcess time =>
      obtain rfl := List.mem_singleton.1 (key [.called time] rfl)
      rfl
  | @skip time cur m hc hcur =>
      obtain rfl := List.mem_singleton.1 (key [.visited cur] rfl)
      exact ⟨rfl, ⟨time, hc⟩, hcur⟩
  | @start time cur m r evs hc hcur hp hr =>
      have hv : Visits cur s .tick := ⟨rfl, ⟨time, hc⟩, hcur⟩
      have := key (.resumed cur (some r.nextCoroutine) :: evs ++ [.visited cur]) (by simp)
      cases hr with
      | default | childless =>
          rcases List.mem_cons.1 this with rfl | this
          · exact hv
          · obtain rfl := List.mem_singleton.1 this
            exact hv
      | dead =>
          rcases List.mem_cons.1 this with rfl | this
          · exact hv
          · rcases List.mem_cons.1 this with rfl | this
            · rfl
            · obtain rfl := List.mem_singleton.1 this
              exact hv
  | @resume time cur m slot coro frame frames hc hcur hp hr hs hco hf hw =>
      have hv : Visits cur s .tick := ⟨rfl, ⟨time, hc⟩, hcur⟩
      have hmem : e = .watchReturned cur ∨ e = .resumed cur (some coro.id) ∨ e = .visited cur := by
        have := key (frame.returns ++ [.resumed cur (some coro.id), .visited cur]) (by simp)
        rcases hw with rfl | rfl
        · exact Or.inr (by simpa [Frame.returns] using this)
        · simpa [Frame.returns] using this
      rcases hmem with rfl | rfl | rfl
      · exact Or.inr hv
      · exact hv
      · exact hv
  | @yieldedTerminate time cur =>
      have := key [.heapFreed s.mem.pendingHeapFree, .coroutineDestroyed cur] rfl
      rcases List.mem_cons.1 this with rfl | this
      · rfl
      · obtain rfl := List.mem_singleton.1 this
        rfl
  | @api b =>
      have := key b.events rfl
      cases b with
      | createProcess | createChildProcess =>
          obtain rfl := List.mem_singleton.1 this
          exact ⟨_, rfl⟩
      | _ => cases this
  | @watchNoChild time cur =>
      obtain rfl := List.mem_singleton.1 (key [.watchReturned cur] rfl)
      exact Or.inl rfl
  | @destruct a time cur next slot coro m f hr ha =>
      obtain rfl := List.mem_singleton.1 (key [.destructorStarted cur] rfl)
      exact ⟨hr.runs, ha.act⟩
  | @terminate a time cur next slot coro m hr ha =>
      obtain rfl := List.mem_singleton.1 (key [.terminated cur] rfl)
      exact ⟨hr.runs, ha.act⟩
  | @destructed time cur next slot coro f frames hr =>
      obtain rfl := List.mem_singleton.1 (key [.terminated cur] rfl)
      exact ⟨hr.runs, Or.inr rfl⟩

/-- A process that is created was not allocated. -/
theorem StepCase.created_fresh {s t : Sys} {a : Act} {p heap : Ptr} (hst : StepCase s a t)
    (he : .created p heap ∈ newEvents s t) : p ∉ s.mem.live := by
  obtain ⟨b, rfl⟩ := hst.events he
  cases hst with
  | @api _ fuel m hc hv hm =>
      have hmem : .created p heap ∈ b.events := by rwa [newEvents_eq rfl] at he
      cases hb : b.creates with
      | true =>
          obtain ⟨blk, -, -, -, -, hf, hevs, -⟩ := Api.run_creates hb hv hm
          rw [hevs, List.mem_singleton] at hmem
          cases hmem
          exact hf.2.1
      | false =>
          cases b with
          | createProcess | createChildProcess => cases hb
          | _ => cases hmem
  | destruct hr ha | terminate hr ha => rcases ha.act with ha | ha <;> cases ha

/-! ### A killed process -/

theorem Control.eq_yielded_of_terminating {c : Control} {p : Ptr} (h : c.terminating = some p) :
    ∃ time next, c = .yielded time p next yieldTerminate := by
  cases c with
  | yielded time cur next reason =>
      rw [terminating] at h
      split_ifs at h with hr
      exact ⟨time, next, by rw [hr, Option.some.inj h]⟩
  | _ => cases h

/-- A process that has been killed, neither runs nor has just ended. -/
structure Doomed (s : Sys) (p : Ptr) : Prop where
  live : p ∈ s.mem.live
  dead : s.mem.mode p = .dead
  stopped : s.control.runs ≠ some p
  stays : s.control.terminating ≠ some p

/-- A process only begins to run in its round, and only ends when it runs. -/
theorem StepCase.runs {s t : Sys} {a : Act} {p : Ptr} (hst : StepCase s a t)
    (hv : ¬ Visits p s a) (hr : s.control.runs ≠ some p) (ht : s.control.terminating ≠ some p) :
    t.control.runs ≠ some p ∧ t.control.terminating ≠ some p := by
  cases hst with
  | initProcess | api | setProcessDestruct | watchNoChild | destruct | scribble
  | overwriteGuards => exact ⟨hr, ht⟩
  | skip hc => exact ⟨hr, ht⟩
  | callProcess | finish | yieldedNormal | yieldedTerminate => exact ⟨nofun, nofun⟩
  | @start time cur m r evs hc hcur | @resume time cur m slot coro frame frames hc hcur =>
      refine ⟨?_, nofun⟩
      intro e
      obtain rfl : cur = p := Option.some.inj e
      exact hv ⟨rfl, ⟨time, hc⟩, hcur⟩
  | sleepProcess | watchChildProcess =>
      refine ⟨nofun, ?_⟩
      rw [Control.terminating, if_neg (by decide)]
      exact nofun
  | terminate hr' | destructed hr' =>
      refine ⟨nofun, ?_⟩
      intro e
      rw [hr'.control] at hr
      exact hr e

/-- A step works on the slot of the process that runs, is visited, or has ended. -/
theorem StepCase.slots_of_other {s t : Sys} {a : Act} {p : Ptr} (hst : StepCase s a t)
    (ha : a ≠ .initProcess) (hv : ¬ Visits p s a) (hr : s.control.runs ≠ some p)
    (ht : s.control.terminating ≠ some p) : t.host.slots p = s.host.slots p := by
  have hrun : ∀ {time cur next slot coro}, InCoroutine s time cur next slot coro → p ≠ cur :=
    fun hin e => hr (e ▸ hin.runs)
  cases hst with
  | initProcess => exact absurd rfl ha
  | callProcess | finish | skip | yieldedNormal | api | setProcessDestruct | watchNoChild | scribble
  | overwriteGuards => rfl
  | @start time cur m r evs hc hcur hp hr =>
      have hne : p ≠ cur := fun e => hv ⟨rfl, ⟨time, hc⟩, hcur.trans e.symm⟩
      exact hr.slots_started hne _ _
  | @resume time cur m slot coro frame frames hc hcur =>
      have hne : p ≠ cur := fun e => hv ⟨rfl, ⟨time, hc⟩, hcur.trans e.symm⟩
      simp [ProcessRuntime.resumed, hne]
  | @yieldedTerminate time cur next hc =>
      have hne : p ≠ cur := by
        rintro rfl
        exact ht (by rw [hc]; rfl)
      simp [hne]
  | sleepProcess _ hr | watchChildProcess hr | terminate hr | destructed hr =>
      simp [ProcessRuntime.yielded, hrun hr]
  | destruct hr => simp [ProcessRuntime.reframed, hrun hr]

/-- The heap of a process is only freed behind its termination. -/
theorem StepCase.live {s t : Sys} {a : Act} {p : Ptr} (h : SysInv s) (hst : StepCase s a t)
    (hp : p ∈ s.mem.live) (ht : s.control.terminating ≠ some p) : p ∈ t.mem.live := by
  cases hst with
  | initProcess | callProcess | finish | yieldedNormal | setProcessDestruct | watchChildProcess
  | watchNoChild | scribble | overwriteGuards => exact hp
  | skip hc hcur hpr hm => exact hm.sameCore.live ▸ hp
  | start hc hcur hpr hr | resume hc hcur hpr hr => exact hr.live ▸ hp
  | @yieldedTerminate time cur next hc hpr hl hheap =>
      refine List.mem_filter.2 ⟨hp, ?_⟩
      have hne : p ≠ cur := by
        rintro rfl
        exact ht (by rw [hc]; rfl)
      simpa [hheap] using fun e => hne (h.mem.heap_inj p hp cur hl e)
  | api hc hv hm => exact (Api.run_grows hv hm).live p hp
  | sleepProcess t hr => exact (sleepCurrent_sameCore s.mem _ t).live ▸ hp
  | destruct hr ha hm => exact hm.sameCore.live ▸ hp
  | terminate hr ha hm =>
      rw [MemInv.live_terminated, hm.sameCore.live]
      exact hp
  | destructed hr =>
      rw [MemInv.live_terminated]
      exact hp

/-- `WatchChildProcess` is called by the process that runs. -/
theorem StepCase.watchChildProcess_runs {s t : Sys} {a : Act} (hst : StepCase s a t)
    (ha : a = .watchChildProcess) : s.control.runs = some s.mem.currentProcess := by
  cases hst with
  | watchChildProcess hr | watchNoChild hr | destruct hr | terminate hr =>
      rw [hr.control, hr.current]
      rfl
  | _ => cases ha

/-- **The step lemma**: a killed process waits for its round. -/
theorem StepCase.doomed {s t : Sys} {a : Act} {p : Ptr} (h : SysInv s) (hst : StepCase s a t)
    (hk : Doomed s p) (hv : ¬ Visits p s a) : Doomed t p := by
  obtain ⟨hr, ht⟩ := hst.runs hv hk.stopped hk.stays
  refine ⟨hst.live h hk.live hk.stays, hst.keepsDead h ?_ hk.live hk.dead, hr, ht⟩
  intro hw e
  subst e
  exact hk.stopped (hst.watchChildProcess_runs hw.1)

/-- **The round of a killed process**: its coroutine is dropped, and `EndProcess` is started. -/
theorem Doomed.visit {s : Sys} {p : Ptr} {time : ℤ} (hk : Doomed s p) (h : SysInv s)
    (hc : s.control = .loop time) (hcur : s.mem.currentProcess = p) (fuel : ℕ) :
    step fuel s .tick = .ok { s with
      mem := { s.mem.setPrcJumpFunc p .endProcess with pendingHeapFree := 0 }
      host := (s.host.setSlot p none).started p .endProcess (s.mem.record p).prcJumpSp
      control := .running time p (s.mem.record p).next
      log := .resumed p (some s.host.nextCoroutine) :: .coroutineDestroyed p :: .visited p ::
        s.log } := by
  have h0 : p ≠ 0 := h.mem.ne_null hk.live
  obtain ⟨-, hidle, -⟩ := h.atLoop hc
  have hd : (s.mem.record p).execMode = .dead := hk.dead
  have hs : (s.host.setSlot p none).slots p = none := by simp
  have hid := runningId_enter { s.host.setSlot p none with
      nextCoroutine := (s.host.setSlot p none).nextCoroutine + 1 } p
    ((s.host.setSlot p none).startedSlot p .endProcess (s.mem.record p).prcJumpSp .endProcess) rfl
  simp only [step, hc, Sched.visit, hcur, if_neg h0, hd, recompProcessDestroy_eq h0 hidle.1, bind,
    Except.bind, runProcess, Memory.setPrcJumpFunc, Memory.record_modify, if_true]
  rw [switchIn_fresh (r := s.host.setSlot p none) h.initialized hidle.1 h0 hs]
  simp only [hid]
  rfl

/-- The coroutine of a killed process, up to the round of the process and behind it. -/
inductive Dropped (p : Ptr) (i : ℕ) (s : Sys) : Prop
  | waits (hk : Doomed s p) (hi : s.host.coroutineOf p = some i)
  | gone (h : Gone s.host i)

/-- The coroutine of a killed process behind its round. -/
theorem coroutineOf_started (r : ProcessRuntime) (p : Ptr) (func : ProcessFunc) (sp : Ptr) :
    (r.started p func sp).coroutineOf p = some r.nextCoroutine := by
  simp [coroutineOf, started, startedSlot]

/-- **The step lemma**: the coroutine of a killed process waits with the process, and is gone with
its round. -/
theorem Dropped.step {s t : Sys} {a : Act} {p : Ptr} {i : ℕ} (hd : Dropped p i s) (h : SysInv s)
    (hr : CoroInv s.host) (hst : Step s a t) : Dropped p i t := by
  have hcase := step_cases h hst
  obtain ⟨cur, hm⟩ := hcase.moves
  cases hd with
  | gone hi => exact .gone (hm.gone hi)
  | waits hk hi =>
      obtain ⟨slot, coro, ho, rfl⟩ := coroutineOf_eq_some.1 hi
      have hlt := hr.lt _ _ _ ho
      have hp : ∀ q, s.host.coroutineOf q = some coro.id → q = p := by
        intro q hq
        obtain ⟨slot', coro', ho', he⟩ := coroutineOf_eq_some.1 hq
        exact hr.inj _ _ _ _ _ _ ho' ho he
      by_cases hv : Visits p s a
      · -- the round starts a coroutine with another identity
        obtain ⟨rfl, ⟨time, hc⟩, hcur⟩ := hv
        obtain ⟨fuel, hst⟩ := hst
        rw [hk.visit h hc hcur fuel] at hst
        cases hst
        refine .gone (hm.gone_of_lost hlt hp ?_)
        rw [coroutineOf_started]
        exact fun e => hlt.ne' (Option.some.inj e)
      · by_cases hi' : t.host.coroutineOf p = some coro.id
        · exact .waits (hcase.doomed h hk hv) hi'
        · exact .gone (hm.gone_of_lost hlt hp hi')

/-- A coroutine that is dropped with its process is resumed by no step. -/
theorem Dropped.not_resumed {s t : Sys} {a : Act} {p : Ptr} {i : ℕ} (hd : Dropped p i s)
    (h : SysInv s) (hr : CoroInv s.host) (hst : Step s a t) (q : Ptr) :
    .resumed q (some i) ∉ newEvents s t := by
  obtain ⟨evs, hlog, htell⟩ := (step_cases h hst).tells
  rw [newEvents_eq hlog]
  intro he
  cases hd with
  | gone hi =>
      rcases htell.resumed q i he with e | ⟨hq, -⟩
      · exact hi.lt.ne e
      · exact hi.none q hq
  | waits hk hi =>
      obtain ⟨slot, coro, ho, rfl⟩ := coroutineOf_eq_some.1 hi
      rcases htell.resumed q _ he with e | ⟨hq, hmode⟩
      · exact (hr.lt _ _ _ ho).ne e
      · obtain ⟨slot', coro', ho', he⟩ := coroutineOf_eq_some.1 hq
        obtain rfl := hr.inj _ _ _ _ _ _ ho' ho he
        exact hmode hk.dead

/-! ### `EndProcess` -/

/-- A process that has been killed, or that only runs `EndProcess` since. -/
def EndsOnly (p : Ptr) (s : Sys) : Prop :=
  Doomed s p ∨ p ∈ s.mem.live ∧ (s.mem.record p).prcJumpFunc = .endProcess

theorem Readies.prcJumpFunc {m m' : Memory} {r r' : ProcessRuntime} {cur p : Ptr}
    {evs : List Event} (h : Readies m r cur m' r' evs)
    (hf : (m.record p).prcJumpFunc = .endProcess) :
    (m'.record p).prcJumpFunc = .endProcess := by
  cases h with
  | default => exact hf
  | childless => simpa using hf
  | dead => simp [hf]

/-- **The step lemma**: a process that is started with `EndProcess` is not started with any other
function again. -/
theorem StepCase.prcJumpFunc {s t : Sys} {a : Act} {p : Ptr} (hst : StepCase s a t)
    (hp : p ∈ s.mem.live) (hf : (s.mem.record p).prcJumpFunc = .endProcess) :
    (t.mem.record p).prcJumpFunc = .endProcess := by
  cases hst with
  | initProcess | callProcess | finish | yieldedNormal | yieldedTerminate | watchNoChild => exact hf
  | skip hc hcur hpr hm => exact (hm.sameCore.prcJumpFunc p).trans hf
  | start hc hcur hpr hr | resume hc hcur hpr hr => exact hr.prcJumpFunc hf
  | api hc hv hm => exact ((Api.run_grows hv hm).prcJumpFunc p hp).trans hf
  | sleepProcess t hr => exact ((sleepCurrent_sameCore s.mem _ t).prcJumpFunc p).trans hf
  | setProcessDestruct | watchChildProcess | overwriteGuards => simpa using hf
  | destruct hr ha hm => exact (hm.sameCore.prcJumpFunc p).trans hf
  | terminate hr ha hm =>
      rw [MemInv.record_terminated]
      exact (hm.sameCore.prcJumpFunc p).trans hf
  | destructed hr =>
      rw [MemInv.record_terminated]
      exact hf
  | @scribble q r hq =>
      have hne : p ≠ q := fun e => hq (e ▸ hp)
      simpa [hne] using hf

theorem EndsOnly.step {s t : Sys} {a : Act} {p : Ptr} (hd : EndsOnly p s) (h : SysInv s)
    (hl : p ∈ t.mem.live) (hst : Step s a t) : EndsOnly p t := by
  have hcase := step_cases h hst
  rcases hd with hk | ⟨hp, hf⟩
  · by_cases hv : Visits p s a
    · obtain ⟨rfl, ⟨time, hc⟩, hcur⟩ := hv
      obtain ⟨fuel, hst⟩ := hst
      rw [hk.visit h hc hcur fuel] at hst
      cases hst
      exact Or.inr ⟨hl, by simp⟩
    · exact Or.inl (hcase.doomed h hk hv)
  · exact Or.inr ⟨hl, hcase.prcJumpFunc hp hf⟩

/-- The running coroutine of a process was started with the function of its record. -/
theorem entry_of_running {s : Sys} {time : ℤ} {p next : Ptr} {f : ProcessFunc} (h : SysInv s)
    (hr : CoroInv s.host) (hc : s.control = .running time p next)
    (hf : .entry f ∈ s.host.runningFrames) : f = (s.mem.record p).prcJumpFunc := by
  obtain ⟨slot, coro, hin, -⟩ := h.inCoroutine hc
  rw [hin.frames_eq] at hf
  rw [hr.entry p slot coro f hin.owns hf, hin.slotState.slotOf.entryFunc]

/-! ### The law -/

/-- What becomes of a killed process. -/
structure KilledStops (s : Sys) (p : Ptr) : Prop where
  /-- No step of any run resumes the coroutine the process was in. -/
  never_resumed : ∀ i, s.host.coroutineOf p = some i → ∀ t, RunsTo (fun _ _ => True) s t →
    ∀ a u, Step t a u → ∀ q, .resumed q (some i) ∉ newEvents t u
  /-- The next round of the process drops that coroutine, and runs `EndProcess` in a new one. -/
  visited : ∀ t time, RunsTo (fun u a => ¬ Visits p u a) s t → t.control = .loop time →
    t.mem.currentProcess = p → ∀ fuel, ∃ u next, step fuel t .tick = .ok u ∧
      newEvents t u = [.resumed p (some t.host.nextCoroutine), .coroutineDestroyed p, .visited p] ∧
      u.control = .running time p next ∧ u.host.runningFrames = [.entry .endProcess] ∧
      ∀ i, s.host.coroutineOf p = some i → ∀ q, u.host.coroutineOf q ≠ some i
  /-- As long as the process lives, the code it runs was started with `EndProcess`. -/
  entry : ∀ t time next, RunsTo (fun u _ => p ∈ u.mem.live) s t → p ∈ t.mem.live →
    t.control = .running time p next → ∀ f, .entry f ∈ t.host.runningFrames → f = .endProcess

/-- **A killed process does not go on.**  The process may have been killed before its first round,
in any mode, by itself or by another process, anywhere in the run list. -/
theorem killed_stops_of_reachable {s : Sys} {p : Ptr} (h : Reachable s) (hp : p ∈ s.mem.procs)
    (hd : s.mem.mode p = .dead) (hr : s.control.runs ≠ some p) : KilledStops s p := by
  have hk : Doomed s p := by
    refine ⟨h.sysInv.mem.procs_live p hp, hd, hr, ?_⟩
    intro ht
    obtain ⟨time, next, hc⟩ := Control.eq_yielded_of_terminating ht
    exact (h.sysInv.atTerminate hc).1 hp
  refine ⟨?_, ?_, ?_⟩
  · intro i hi t hrun a u hst q
    have hreach : Reachable t ∧ Dropped p i t := by
      refine hrun.invariant (I := fun t => Reachable t ∧ Dropped p i t) ?_ ⟨h, .waits hk hi⟩
      intro v b w hv _ hst
      exact ⟨hv.1.step b trivial hst, hv.2.step hv.1.sysInv hv.1.coroInv hst⟩
    exact hreach.2.not_resumed hreach.1.sysInv hreach.1.coroInv hst q
  · intro t time hrun hc hcur fuel
    have hreach : Reachable t ∧ Doomed t p ∧
        ∀ i, s.host.coroutineOf p = some i → Dropped p i t := by
      refine hrun.invariant (I := fun t => Reachable t ∧ Doomed t p ∧
        ∀ i, s.host.coroutineOf p = some i → Dropped p i t) ?_ ⟨h, hk, fun i => .waits hk⟩
      intro v b w hv hC hst
      exact ⟨hv.1.step b trivial hst,
        (step_cases hv.1.sysInv hst).doomed hv.1.sysInv hv.2.1 hC,
        fun i hi => (hv.2.2 i hi).step hv.1.sysInv hv.1.coroInv hst⟩
    obtain ⟨ht, hkt, hdt⟩ := hreach
    have hstep := hkt.visit ht.sysInv hc hcur fuel
    refine ⟨_, _, hstep, newEvents_eq rfl, rfl, ?_, ?_⟩
    · simp [runningFrames, started, ProcessRuntime.enter, startedSlot]
    · intro i hi q hq
      -- the coroutine would wait with a process that runs
      have hst : Step t .tick _ := ⟨fuel, hstep⟩
      cases (hdt i hi).step ht.sysInv ht.coroInv hst with
      | gone hgone => exact hgone.none q hq
      | waits hk' => exact hk'.stopped rfl
  · intro t time next hrun hl hc f hf
    have hreach : Reachable t ∧ (p ∈ t.mem.live → EndsOnly p t) := by
      refine hrun.invariant (I := fun t => Reachable t ∧ (p ∈ t.mem.live → EndsOnly p t)) ?_
        ⟨h, fun _ => Or.inl hk⟩
      intro v b w hv hC hst
      exact ⟨hv.1.step b trivial hst, fun hl => (hv.2 hC).step hv.1.sysInv hl hst⟩
    rcases hreach.2 hl with hkt | ⟨-, hjump⟩
    · exact absurd (by rw [hc]; rfl) hkt.stopped
    · rw [entry_of_running hreach.1.sysInv hreach.1.coroInv hc hf, hjump]

/-- Two processes, of which the first kills the second and yields. -/
def killedInTick : List Act :=
  [.api (.createProcess ⟨0x80001000, 0x80001010, 0x80001100⟩ (.game 1) 5 0),
    .api (.createProcess ⟨0x80002000, 0x80002010, 0x80002100⟩ (.game 2) 4 0), .callProcess 1,
    .tick, .sleepProcess 0, .tick, .tick, .sleepProcess 0, .tick, .tick, .callProcess 1, .tick,
    .api (.killProcess 0x80002010), .sleepProcess 0, .tick]

theorem killed_stops_of_reachable_killedInTick :
    0x80002010 ∈ (stateAfter killedInTick).mem.procs ∧
      (stateAfter killedInTick).host.coroutineOf 0x80002010 = some 1 ∧
      (stateAfter killedInTick).mem.currentProcess = 0x80002010 ∧
      KilledStops (stateAfter killedInTick) 0x80002010 := by
  have hp : 0x80002010 ∈ (stateAfter killedInTick).mem.procs := by decide +kernel
  refine ⟨hp, by decide +kernel, by decide +kernel, ?_⟩
  exact killed_stops_of_reachable (reachable_stateAfter killedInTick) hp (by decide +kernel)
    (by decide +kernel)

end Sched
