/-
**DMA transfers.**

`patches/src/required_patches.c` starts transfers between memory and the cartridge.  `dmaRead` and
`dmaWrite` wait for the end of their transfer, and let one of them at a time do so, by the flag
`D_80097D48`; the other functions start a transfer and return, or wait for one that has been started
before.  All of them share the message queue `D_80097D68`, which has room for one message, and the
message block `D_80097D50`, so that a message does not tell which transfer has ended.

The threads, and the PI manager that carries out the transfers, take turns in any order: a thread
runs from the return of one call of the operating system to the next call.

Main definitions:

* `Dma.State`, `Dma.State.next` — the threads in their calls, the flag, the queue, and the requests;
* `Dma.Pc.Inside` — between setting and clearing the flag;
* `Dma.Returns`, `Dma.OwnDone` — a `dmaRead` or `dmaWrite` returns, and only behind its transfer;
* `Dma.State.Quiet` — no transfer is under way, and no message waits.

Main results:

* `Dma.Step.effect` — what an action can do;
* `Dma.Inv.step` — the step lemma;
* `Dma.Awaited.step` — what every step preserves of a request that is started in a quiet state;
* `Dma.own_done_iff_quiet` — **one at a time**, and it returns behind its own transfer if it starts
  it in a quiet state, and only then;
* `Dma.returns_early` — otherwise it can return before.
-/

import Mathlib.Logic.Function.Basic
import Mathlib.Tactic
import TsaRecomp.Lib.Exclusion
import TsaRecomp.Lib.Runs

set_option relaxedAutoImplicit false
set_option autoImplicit false

namespace Dma

/-! ### The functions -/

/-- What `osPiStartDma` is given. -/
structure Request where
  direction : BitVec 32
  devAddr : BitVec 32
  vAddr : BitVec 32
  size : BitVec 32
  deriving DecidableEq, Repr

/-- The functions that start a transfer. -/
inductive Transfer
  | dmaRead (vAddr size devAddr : BitVec 32)
  | dmaWrite (arg0 arg1 arg2 : BitVec 32)
  | dmaReadNonBlock (arg0 arg1 arg2 : BitVec 32)
  | dmaWriteNonBlock (arg0 arg1 arg2 : BitVec 32)
  | dmaStart (arg0 arg1 arg2 arg3 : BitVec 32)
  deriving DecidableEq, Repr

namespace Transfer

def request : Transfer → Request
  | dmaRead vAddr size devAddr => ⟨0, devAddr, vAddr, size⟩
  | dmaWrite arg0 arg1 arg2 => ⟨1, arg0, arg2, arg1⟩
  | dmaReadNonBlock arg0 arg1 arg2 => ⟨0, arg2, arg0, arg1⟩
  | dmaWriteNonBlock arg0 arg1 arg2 => ⟨1, arg0, arg2, arg1⟩
  | dmaStart arg0 arg1 arg2 arg3 => ⟨arg3, arg2, arg0, arg1⟩

/-- The functions that take the flag and wait. -/
def blocking : Transfer → Bool
  | dmaRead _ _ _ | dmaWrite _ _ _ => true
  | _ => false

/-- `dmaRead` invalidates the caches behind `osWritebackDCache`. -/
def invalidates : Transfer → Bool
  | dmaRead _ _ _ => true
  | _ => false

end Transfer

inductive Func
  | transfer (f : Transfer)
  | dmaWaitBlock
  | dmaCheckTrans
  deriving DecidableEq, Repr

/-- The call of the operating system that a thread is in. -/
inductive Pc
  /-- In none of the functions. -/
  | out
  | osYieldThread (f : Transfer)
  | osWritebackDCache (f : Transfer)
  | osInvalDCache (f : Transfer)
  | osInvalICache (f : Transfer)
  | osPiStartDma (f : Transfer)
  /-- `osRecvMesg` in `dmaRead` or `dmaWrite`, behind the request with a number. -/
  | osRecvMesg (own : ℕ)
  /-- `osRecvMesg` in `dmaWaitBlock`. -/
  | waitBlock
  /-- `osRecvMesg` in `dmaCheckTrans`, which does not block. -/
  | checkTrans
  deriving DecidableEq, Repr

variable {T : Type} [DecidableEq T]

/-- The threads `T` and the PI manager. -/
structure State (T : Type) where
  /-- `D_80097D48` -/
  busy : ℤ
  pc : T → Pc
  /-- There is a message in `D_80097D68`. -/
  queue : Bool
  /-- The requests in the order in which they have been started. -/
  started : List Request
  /-- The number of requests that have been completed: the PI manager keeps the order. -/
  completed : ℕ
  /-- Messages of completed requests that are yet to be posted. -/
  posts : ℕ

namespace State

variable (s : State T)

def goto (t : T) (pc : Pc) : State T := { s with pc := Function.update s.pc t pc }

/-- The test of the flag, at the start of a function and in the loop around `osYieldThread`. -/
def enter (t : T) (f : Transfer) : State T :=
  if f.blocking then
    if s.busy ≠ 0 then s.goto t (.osYieldThread f)
    else { s with busy := 1 }.goto t (.osWritebackDCache f)
  else s.goto t (.osPiStartDma f)

/-- The request is handed to the PI manager. -/
def start (t : T) (f : Transfer) : State T :=
  { s with started := s.started ++ [f.request] }.goto t
    (if f.blocking then .osRecvMesg s.started.length else .out)

end State

/-- A thread calls a function, or its call of the operating system returns; the PI manager completes
the next request, and posts a message, or cannot since the queue is full. -/
inductive Act (T : Type)
  | call (t : T) (f : Func)
  | run (t : T)
  | complete
  | post
  | drop
  deriving DecidableEq, Repr

/-- The state behind an action. -/
def State.next (s : State T) : Act T → Option (State T)
  | .call t f =>
      if s.pc t = .out then
        match f with
        | .transfer f => some (s.enter t f)
        | .dmaWaitBlock => some (s.goto t .waitBlock)
        | .dmaCheckTrans => some (s.goto t .checkTrans)
      else none
  | .run t =>
      match s.pc t with
      | .out => none
      | .osYieldThread f => some (s.enter t f)
      | .osWritebackDCache f =>
          some (s.goto t (if f.invalidates then .osInvalDCache f else .osPiStartDma f))
      | .osInvalDCache f => some (s.goto t (.osInvalICache f))
      | .osInvalICache f => some (s.goto t (.osPiStartDma f))
      | .osPiStartDma f => some (s.start t f)
      | .osRecvMesg _ =>
          if s.queue then some ({ s with queue := false, busy := 0 }.goto t .out) else none
      | .waitBlock => if s.queue then some ({ s with queue := false }.goto t .out) else none
      | .checkTrans => some ({ s with queue := false }.goto t .out)
  | .complete =>
      if s.completed < s.started.length then
        some { s with completed := s.completed + 1, posts := s.posts + 1 }
      else none
  | .post =>
      if s.posts ≠ 0 ∧ s.queue = false then some { s with posts := s.posts - 1, queue := true }
      else none
  | .drop =>
      if s.posts ≠ 0 ∧ s.queue = true then some { s with posts := s.posts - 1 } else none

/-! ### Runs -/

/-- The state behind `dmaInit`. -/
structure Init (s : State T) : Prop where
  busy : s.busy = 0
  pc : ∀ t, s.pc t = .out
  queue : s.queue = false
  started : s.started = []
  completed : s.completed = 0
  posts : s.posts = 0

def Step (s : State T) (a : Act T) (u : State T) : Prop := s.next a = some u

/-- The states of all runs. -/
abbrev Reachable (s : State T) : Prop := Runs.Reach Step Init (fun _ _ => True) s

/-- A thread is between setting and clearing `D_80097D48`. -/
def Pc.Inside : Pc → Prop
  | .osWritebackDCache f | .osInvalDCache f | .osInvalICache f | .osPiStartDma f =>
      f.blocking = true
  | .osRecvMesg _ => True
  | _ => False

/-- The `dmaRead` or `dmaWrite` that has started a request returns. -/
structure Returns (s : State T) (t : T) (own : ℕ) (u : State T) : Prop where
  pc : s.pc t = .osRecvMesg own
  step : Step s (.run t) u

/-- It returns only when its request has been completed, in all that can come. -/
def OwnDone (s : State T) (t : T) (own : ℕ) : Prop :=
  ∀ u, Runs.RunsTo Step (fun _ _ => True) s u → ∀ v, Returns u t own v → own < u.completed

/-- Every request that has been started has been completed, and no message of one waits. -/
structure State.Quiet (s : State T) : Prop where
  completed : s.completed = s.started.length
  posts : s.posts = 0
  queue : s.queue = false

/-! ### One at a time -/

namespace State

variable {s : State T} {t u : T}

@[simp] theorem pc_goto_self (pc : Pc) : (s.goto t pc).pc t = pc := Function.update_self _ _ _

theorem pc_goto_ne (pc : Pc) (h : u ≠ t) : (s.goto t pc).pc u = s.pc u :=
  Function.update_of_ne h _ _

end State

/-- What an action can do. -/
inductive Effect (s : State T) : State T → Prop
  /-- A thread goes to another call, on the same side of the flag. -/
  | goto {t : T} {pc : Pc} : (pc.Inside ↔ (s.pc t).Inside) → Effect s (s.goto t pc)
  /-- A thread finds the flag clear, and sets it. -/
  | set {t : T} {f : Transfer} : f.blocking = true → s.busy = 0 →
      Effect s ({ s with busy := 1 }.goto t (.osWritebackDCache f))
  | start {t : T} {f : Transfer} : s.pc t = .osPiStartDma f → Effect s (s.start t f)
  /-- A thread without the flag takes a message, if there is one. -/
  | receive {t : T} : ¬ (s.pc t).Inside → Effect s ({ s with queue := false }.goto t .out)
  /-- A thread takes a message, and clears the flag. -/
  | clear {t : T} : (s.pc t).Inside →
      Effect s ({ s with queue := false, busy := 0 }.goto t .out)
  | complete : s.completed < s.started.length →
      Effect s { s with completed := s.completed + 1, posts := s.posts + 1 }
  | post : s.posts ≠ 0 → Effect s { s with posts := s.posts - 1, queue := true }
  | drop : Effect s { s with posts := s.posts - 1 }

section Effect

variable {s u : State T} {t : T}

/-- The test of the flag. -/
theorem Effect.enter (f : Transfer) (ht : ¬ (s.pc t).Inside) : Effect s (s.enter t f) := by
  unfold State.enter
  split_ifs with hf hbusy
  · exact .goto (by simpa [Pc.Inside] using ht)
  · exact .set hf (not_not.1 hbusy)
  · exact .goto (by simpa [Pc.Inside, hf] using ht)

/-- A thread runs from one call of the operating system to the next. -/
theorem Effect.run (hst : Step s (.run t) u) : Effect s u := by
  unfold Step State.next at hst
  dsimp only at hst
  cases ht : s.pc t with
  | out => simp [ht] at hst
  | osYieldThread f =>
      simp only [ht, Option.some_inj] at hst
      exact hst ▸ .enter f (by simp [ht, Pc.Inside])
  | osWritebackDCache f =>
      simp only [ht, Option.some_inj] at hst
      refine hst ▸ .goto ?_
      rw [ht]
      split_ifs
      · rfl
      · rfl
  | osInvalDCache f =>
      simp only [ht, Option.some_inj] at hst
      exact hst ▸ .goto (by rw [ht]; rfl)
  | osInvalICache f =>
      simp only [ht, Option.some_inj] at hst
      exact hst ▸ .goto (by rw [ht]; rfl)
  | osPiStartDma f =>
      simp only [ht, Option.some_inj] at hst
      exact hst ▸ .start ht
  | osRecvMesg own =>
      simp only [ht, Option.ite_none_right_eq_some, Option.some_inj] at hst
      exact hst.2 ▸ .clear (by simp [ht, Pc.Inside])
  | waitBlock =>
      simp only [ht, Option.ite_none_right_eq_some, Option.some_inj] at hst
      exact hst.2 ▸ .receive (by simp [ht, Pc.Inside])
  | checkTrans =>
      simp only [ht, Option.some_inj] at hst
      exact hst ▸ .receive (by simp [ht, Pc.Inside])

/-- **Every action** has one of the effects. -/
theorem Step.effect {a : Act T} (hst : Step s a u) : Effect s u := by
  cases a with
  | call t f =>
      simp only [Step, State.next, Option.ite_none_right_eq_some] at hst
      obtain ⟨ht, hst⟩ := hst
      cases f with
      | transfer f => exact Option.some.inj hst ▸ .enter f (by simp [ht, Pc.Inside])
      | dmaWaitBlock => exact Option.some.inj hst ▸ .goto (by rw [ht]; rfl)
      | dmaCheckTrans => exact Option.some.inj hst ▸ .goto (by rw [ht]; rfl)
  | run t => exact .run hst
  | complete =>
      simp only [Step, State.next, Option.ite_none_right_eq_some, Option.some_inj] at hst
      exact hst.2 ▸ .complete hst.1
  | post =>
      simp only [Step, State.next, Option.ite_none_right_eq_some, Option.some_inj] at hst
      exact hst.2 ▸ .post hst.1.1
  | drop =>
      simp only [Step, State.next, Option.ite_none_right_eq_some, Option.some_inj] at hst
      exact hst.2 ▸ .drop

end Effect

/-- **The invariant**: the flag guards what is between setting and clearing it, and requests are
completed behind their start. -/
structure Inv (s : State T) : Prop where
  guarded : Exclusion.Guarded (fun t => (s.pc t).Inside) (s.busy ≠ 0)
  completed : s.completed ≤ s.started.length

namespace Inv

variable {s u : State T} {t : T}

omit [DecidableEq T] in
theorem init (h : Init s) : Inv s := by
  refine ⟨.empty (fun t => ?_) (not_not.2 h.busy), ?_⟩
  · rw [h.pc]
    exact id
  · rw [h.completed]
    exact Nat.zero_le _

/-- A thread stays on its side of the flag. -/
theorem stay (h : Inv s) {pc : Pc} (hpc : pc.Inside ↔ (s.pc t).Inside) (hu : u.pc = (s.goto t pc).pc)
    (hbusy : u.busy = s.busy) (hcompleted : u.completed ≤ u.started.length) : Inv u := by
  refine ⟨h.guarded.stay (t := t) ?_ (fun v hv => ?_) (by rw [hbusy]), hcompleted⟩
  · rw [hu, State.pc_goto_self, hpc]
  · rw [hu, State.pc_goto_ne _ hv]

/-- **The step lemma.** -/
theorem step (h : Inv s) {a : Act T} (hst : Step s a u) : Inv u := by
  have hle := h.completed
  cases hst.effect with
  | goto hpc => exact h.stay hpc rfl rfl hle
  | @set t f hf hbusy =>
      refine ⟨h.guarded.enter (t := t) (not_not.2 hbusy) ?_ (fun v hv => ?_) one_ne_zero, hle⟩
      · rw [State.pc_goto_self]
        exact hf
      · rw [State.pc_goto_ne _ hv]
  | @start t f ht =>
      refine h.stay ?_ rfl rfl ?_
      · rw [ht]
        cases hf : f.blocking <;> simp [Pc.Inside, hf]
      · change s.completed ≤ (s.started ++ [f.request]).length
        rw [List.length_append]
        omega
  | @receive t ht => exact h.stay (by simpa [Pc.Inside] using ht) rfl rfl hle
  | @clear t ht =>
      refine ⟨h.guarded.leave ht ?_ (fun v hv => ?_) (not_not.2 rfl), hle⟩
      · rw [State.pc_goto_self]
        exact id
      · rw [State.pc_goto_ne _ hv]
  | complete hlt => exact ⟨h.guarded, hlt⟩
  | post => exact ⟨h.guarded, hle⟩
  | drop => exact ⟨h.guarded, hle⟩

end Inv

/-- **The run lemma.** -/
theorem Reachable.inv {s : State T} (h : Reachable s) : Inv s :=
  Runs.Reach.invariant (fun _ => .init) (fun _ _ _ hs _ => hs.step) h

/-! ### Its own transfer -/

/-- A request has been completed, or it is the next one and there is no message before. -/
def Awaited (own : ℕ) (s : State T) : Prop :=
  own < s.completed ∨ (s.completed = own ∧ s.posts = 0 ∧ s.queue = false)

namespace Awaited

variable {s u : State T} {own : ℕ}

/-- **No step** brings a message of an earlier request. -/
theorem step (h : Awaited own s) {a : Act T} (hst : Step s a u) : Awaited own u := by
  rcases h with hlt | ⟨heq, hposts, hqueue⟩
  · -- requests stay completed
    left
    cases hst.effect with
    | complete => exact Nat.lt_succ_of_lt hlt
    | _ => exact hlt
  · cases hst.effect with
    | goto => exact Or.inr ⟨heq, hposts, hqueue⟩
    | set => exact Or.inr ⟨heq, hposts, hqueue⟩
    | start => exact Or.inr ⟨heq, hposts, hqueue⟩
    | receive => exact Or.inr ⟨heq, hposts, rfl⟩
    | clear => exact Or.inr ⟨heq, hposts, rfl⟩
    | complete => exact Or.inl (heq ▸ Nat.lt_succ_self _)
    | post hp => exact absurd hposts hp
    | drop => exact Or.inr ⟨heq, by simp [hposts], hqueue⟩

theorem ownDone (h : Awaited own s) (t : T) : OwnDone s t own := by
  intro u hr v hv
  have hu : Awaited own u := hr.invariant (fun _ _ _ hs _ => hs.step) h
  rcases hu with hlt | ⟨-, -, hqueue⟩
  · exact hlt
  · -- without a message nobody returns
    have hst := hv.step
    simp [Step, State.next, hv.pc, hqueue] at hst

end Awaited

theorem OwnDone.step {s u : State T} {t : T} {own : ℕ} (h : OwnDone s t own) {a : Act T}
    (hst : Step s a u) : OwnDone u t own :=
  fun v hr => h v ((Runs.RunsTo.single trivial hst).trans hr)

section Early

variable {s : State T} {t : T} {own : ℕ}

/-- A message that waits is taken for the one of the own request. -/
theorem not_ownDone_of_queue (ht : s.pc t = .osRecvMesg own) (hqueue : s.queue = true)
    (hle : s.completed ≤ own) : ¬ OwnDone s t own := by
  intro h
  have hlt := h s .refl _ ⟨ht, by rw [Step, State.next, ht]; exact if_pos hqueue⟩
  omega

/-- So is a message that is yet to be posted. -/
theorem not_ownDone_of_posts (ht : s.pc t = .osRecvMesg own) (hposts : s.posts ≠ 0)
    (hle : s.completed ≤ own) : ¬ OwnDone s t own := by
  intro h
  cases hqueue : s.queue with
  | true => exact not_ownDone_of_queue ht hqueue hle h
  | false =>
      have hst : Step s .post { s with posts := s.posts - 1, queue := true } :=
        if_pos ⟨hposts, hqueue⟩
      exact not_ownDone_of_queue (s := { s with posts := s.posts - 1, queue := true }) ht rfl hle
        (h.step hst)

/-- And the message of an earlier request that is under way. -/
theorem not_ownDone_of_outstanding (ht : s.pc t = .osRecvMesg own) (hlt : s.completed < own)
    (hown : own < s.started.length) : ¬ OwnDone s t own := by
  intro h
  have hst : Step s .complete { s with completed := s.completed + 1, posts := s.posts + 1 } :=
    if_pos (hlt.trans hown)
  exact not_ownDone_of_posts (s := { s with completed := s.completed + 1, posts := s.posts + 1 })
    ht (Nat.succ_ne_zero _) hlt (h.step hst)

end Early

/-- **One at a time**, in every run; and a `dmaRead` or `dmaWrite` returns behind its own transfer
if all earlier ones are over when it starts it, and their messages gone, and only then. -/
theorem own_done_iff_quiet {s : State T} (h : Reachable s) :
    (∀ t u, (s.pc t).Inside → (s.pc u).Inside → t = u) ∧
      ∀ t f u, s.pc t = .osPiStartDma f → f.blocking = true → Step s (.run t) u →
        (OwnDone u t s.started.length ↔ s.Quiet) := by
  refine ⟨h.inv.guarded.unique, fun t f u ht hf hst => ?_⟩
  have hle := h.inv.completed
  obtain rfl : s.start t f = u := by
    rw [Step, State.next, ht] at hst
    exact Option.some.inj hst
  have hpc : (s.start t f).pc t = .osRecvMesg s.started.length := by
    rw [State.start, if_pos hf, State.pc_goto_self]
  constructor
  · intro hdone
    have hlength : (s.start t f).started.length = s.started.length + 1 := by
      change (s.started ++ [f.request]).length = _
      rw [List.length_append, List.length_singleton]
    refine ⟨?_, ?_, ?_⟩
    · by_contra hne
      exact not_ownDone_of_outstanding hpc (lt_of_le_of_ne hle hne)
        (hlength ▸ Nat.lt_succ_self _) hdone
    · by_contra hposts
      exact not_ownDone_of_posts hpc hposts hle hdone
    · by_contra hqueue
      exact not_ownDone_of_queue hpc (Bool.not_eq_false _ ▸ hqueue) hle hdone
  · intro hq
    exact Awaited.ownDone (s := s.start t f) (Or.inr ⟨hq.completed, hq.posts, hq.queue⟩) t

/-! ### A transfer that is not over -/

/-- A list of actions is a run. -/
theorem Reachable.foldlM {s u : State T} (h : Reachable s) {acts : List (Act T)}
    (hu : acts.foldlM State.next s = some u) : Reachable u := by
  induction acts generalizing s with
  | nil => exact Option.some.inj hu ▸ h
  | cons a acts ih =>
      rw [List.foldlM_cons] at hu
      obtain ⟨v, hv, hu⟩ := Option.bind_eq_some_iff.1 hu
      exact ih (Runs.Reach.step h a trivial hv) hu

/-- The threads, behind `dmaInit`. -/
def idle : State T := ⟨0, fun _ => .out, false, [], 0, 0⟩

theorem idle_init {T : Type} : Init (idle : State T) := ⟨rfl, fun _ => rfl, rfl, rfl, rfl, rfl⟩

/-- The state behind a list of actions. -/
def behind (acts : List (Act T)) : State T := (acts.foldlM State.next idle).getD idle

theorem reachable_behind {acts : List (Act T)} (h : (acts.foldlM State.next idle).isSome) :
    Reachable (behind acts) := by
  obtain ⟨u, hu⟩ := Option.isSome_iff_exists.1 h
  rw [behind, hu]
  exact Reachable.foldlM (.init idle_init) hu

/-- A thread calls `dmaRead`, and another one `dmaWrite`, which finds the flag set and goes round
the loop while the first one gets to `osPiStartDma`. -/
def readBesideWrite : List (Act Bool) :=
  [.call false (.transfer (.dmaRead 0x80200000 0x400 0x1000)),
    .call true (.transfer (.dmaWrite 0x2000 0x80 0x80300000)),
    .run false, .run true, .run false, .run true, .run false]

theorem own_done_iff_quiet_read :
    (behind readBesideWrite).pc true = .osYieldThread (.dmaWrite 0x2000 0x80 0x80300000) ∧
      ∃ u, Step (behind readBesideWrite) (.run false) u ∧ OwnDone u false 0 := by
  have hr : Reachable (behind readBesideWrite) := reachable_behind rfl
  have hquiet : (behind readBesideWrite).Quiet := ⟨rfl, rfl, rfl⟩
  exact ⟨rfl, _, rfl,
    ((own_done_iff_quiet hr).2 false (.dmaRead 0x80200000 0x400 0x1000) _ rfl rfl rfl).2 hquiet⟩

/-- A thread calls `dmaRead`, up to `osPiStartDma`. -/
def readActs : List (Act Unit) :=
  [.call () (.transfer (.dmaRead 0x80200000 0x400 0x1000)), .run (), .run (), .run ()]

/-- `dmaReadNonBlock`, and then `dmaRead` up to the message for the first transfer. -/
def earlyActs : List (Act Unit) :=
  [.call () (.transfer (.dmaReadNonBlock 0x80100000 0x400 0)), .run ()] ++ readActs ++
    [.run (), .complete, .post]

/-- **A `dmaRead` that returns before its transfer is over.** -/
theorem returns_early : ¬ ∀ s : State Unit, Reachable s → ∀ t own u, Returns s t own u →
    own < s.completed := by
  intro h
  have hr : Reachable (behind earlyActs) := reachable_behind rfl
  have hlt := h _ hr () 1 _ ⟨rfl, rfl⟩
  exact absurd hlt (by decide)

end Dma
