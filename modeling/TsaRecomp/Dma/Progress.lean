/-
**Threads that wait for their transfers.**

Where all threads start their transfers by `dmaRead` and `dmaWrite`, the flag `D_80097D48` is
enough: there is never more than one request under way, its message finds the queue empty, and the
thread that started it receives it.  A thread that waits for the flag goes round the loop around
`osYieldThread` in the meantime.  Every other step brings a call nearer to its end.

Main definitions:

* `Dma.Blocking` — only `dmaRead` and `dmaWrite` are called;
* `Dma.Waits` — a round of the loop around `osYieldThread`;
* `Dma.Single` — **at most one request is under way**, the one that a thread waits for;
* `Dma.State.work` — the steps that are left, but for rounds of the loop;
* `Dma.Served` — every call has returned, and its transfer has been carried out once.

Main results:

* `Dma.Move` — what an action can do in such a run;
* `Dma.Single.step`, `Dma.Accounts.step` — the step lemmas;
* `Dma.ranked` — the work that is left is a rank;
* `Dma.blocking_served` — **no deadlock, and no lost transfer**.
-/

import TsaRecomp.Dma.Transfers
import TsaRecomp.Lib.Histories
import TsaRecomp.Lib.Ranked

set_option relaxedAutoImplicit false
set_option autoImplicit false

namespace Dma

open Histories Runs

variable {T : Type} [DecidableEq T]

/-! ### Runs -/

/-- Threads call `dmaRead` and `dmaWrite` only. -/
def Blocking (_ : State T) : Act T → Prop
  | .call _ f => ∃ g, f = .transfer g ∧ g.blocking = true
  | _ => True

/-- No thread calls a function. -/
def Continues (_ : State T) : Act T → Prop
  | .call _ _ => False
  | _ => True

/-- The transfer that a thread asks for by an action. -/
def Act.asks : Act T → Option Transfer
  | .call _ (.transfer f) => some f
  | _ => none

/-- A round of the loop around `osYieldThread`, which finds the flag set. -/
def Waits (s : State T) (a : Act T) : Prop :=
  ∃ t f, a = .run t ∧ s.pc t = .osYieldThread f ∧ s.busy ≠ 0

/-- The transfer of a thread that has not been started yet. -/
def Pc.pending : Pc → Option Transfer
  | .osYieldThread f | .osWritebackDCache f | .osInvalDCache f | .osInvalICache f |
    .osPiStartDma f => some f
  | _ => none

/-- The steps that a thread makes until it returns, and those of the PI manager for it. -/
def Pc.steps : Pc → ℕ
  | .osYieldThread _ => 8
  | .osWritebackDCache _ => 7
  | .osInvalDCache _ => 6
  | .osInvalICache _ => 5
  | .osPiStartDma _ => 4
  | .osRecvMesg _ => 1
  | _ => 0

/-- A thread in one of the calls of `dmaRead` or `dmaWrite`, or in none. -/
def Pc.Blocks : Pc → Prop
  | .out | .osRecvMesg _ => True
  | .osYieldThread f | .osWritebackDCache f | .osInvalDCache f | .osInvalICache f |
    .osPiStartDma f => f.blocking = true
  | _ => False

/-- **What an action can do** while all threads block. -/
inductive Move (s : State T) : Act T → State T → Prop
  | call {t : T} {f : Transfer} : s.pc t = .out → f.blocking = true →
      Move s (.call t (.transfer f)) (s.enter t f)
  | again {t : T} {f : Transfer} : s.pc t = .osYieldThread f → Move s (.run t) (s.enter t f)
  /-- A thread goes on to the next call before the start of its transfer. -/
  | next {t : T} {f : Transfer} {pc : Pc} : (s.pc t).Inside → pc.Inside →
      (s.pc t).pending = some f → pc.pending = some f → pc.Blocks → pc.steps < (s.pc t).steps →
      Move s (.run t) (s.goto t pc)
  | start {t : T} {f : Transfer} : s.pc t = .osPiStartDma f → f.blocking = true →
      Move s (.run t) (s.start t f)
  | receive {t : T} {own : ℕ} : s.pc t = .osRecvMesg own → s.queue = true →
      Move s (.run t) ({ s with queue := false, busy := 0 }.goto t .out)
  | complete : s.completed < s.started.length →
      Move s .complete { s with completed := s.completed + 1, posts := s.posts + 1 }
  | post : s.posts ≠ 0 → s.queue = false →
      Move s .post { s with posts := s.posts - 1, queue := true }
  | drop : s.posts ≠ 0 → s.queue = true → Move s .drop { s with posts := s.posts - 1 }

/-- **One request at a time**: a thread that waits for a message waits for the one of the last
request, which is on its way; where no thread does, nothing is. -/
structure Single (s : State T) : Prop extends Inv s where
  blocks : ∀ t, (s.pc t).Blocks
  quiet : (∀ t own, s.pc t ≠ .osRecvMesg own) → s.Quiet
  awaited : ∀ t own, s.pc t = .osRecvMesg own → own + 1 = s.started.length ∧
    (s.started.length - s.completed) + s.posts + s.queue.toNat = 1

section Move

variable {s u : State T} {a : Act T}

theorem Step.move (hs : ∀ t, (s.pc t).Blocks) (hc : Blocking s a) (hst : Step s a u) :
    Move s a u := by
  unfold Step State.next at hst
  cases a with
  | call t f =>
      obtain ⟨g, rfl, hg⟩ := hc
      simp only [Option.ite_none_right_eq_some, Option.some_inj] at hst
      exact hst.2 ▸ .call hst.1 hg
  | run t =>
      have ht := hs t
      dsimp only at hst
      cases hpc : s.pc t with
      | out => simp [hpc] at hst
      | osYieldThread f =>
          simp only [hpc, Option.some_inj] at hst
          exact hst ▸ .again hpc
      | osWritebackDCache f =>
          have hf : f.blocking = true := by simpa [hpc, Pc.Blocks] using ht
          simp only [hpc, Option.some_inj] at hst
          rw [← hst]
          split_ifs
          · exact .next (f := f) (by simpa [hpc, Pc.Inside]) hf (by rw [hpc]; rfl) rfl hf
              (by simp [hpc, Pc.steps])
          · exact .next (f := f) (by simpa [hpc, Pc.Inside]) hf (by rw [hpc]; rfl) rfl hf
              (by simp [hpc, Pc.steps])
      | osInvalDCache f =>
          have hf : f.blocking = true := by simpa [hpc, Pc.Blocks] using ht
          simp only [hpc, Option.some_inj] at hst
          exact hst ▸ .next (f := f) (by simpa [hpc, Pc.Inside]) hf (by rw [hpc]; rfl) rfl hf
            (by simp [hpc, Pc.steps])
      | osInvalICache f =>
          have hf : f.blocking = true := by simpa [hpc, Pc.Blocks] using ht
          simp only [hpc, Option.some_inj] at hst
          exact hst ▸ .next (f := f) (by simpa [hpc, Pc.Inside]) hf (by rw [hpc]; rfl) rfl hf
            (by simp [hpc, Pc.steps])
      | osPiStartDma f =>
          simp only [hpc, Option.some_inj] at hst
          exact hst ▸ .start hpc (by simpa [hpc, Pc.Blocks] using ht)
      | osRecvMesg own =>
          simp only [hpc, Option.ite_none_right_eq_some, Option.some_inj] at hst
          exact hst.2 ▸ .receive hpc hst.1
      | waitBlock => simp [hpc, Pc.Blocks] at ht
      | checkTrans => simp [hpc, Pc.Blocks] at ht
  | complete =>
      simp only [Option.ite_none_right_eq_some, Option.some_inj] at hst
      exact hst.2 ▸ .complete hst.1
  | post =>
      simp only [Option.ite_none_right_eq_some, Option.some_inj] at hst
      exact hst.2 ▸ .post hst.1.1 hst.1.2
  | drop =>
      simp only [Option.ite_none_right_eq_some, Option.some_inj] at hst
      exact hst.2 ▸ .drop hst.1.1 hst.1.2

end Move

/-! ### One request at a time -/

namespace Single

variable {s u : State T} {t : T}

omit [DecidableEq T] in
theorem init (h : Init s) : Single s where
  toInv := .init h
  blocks t := by rw [h.pc]; trivial
  quiet _ := ⟨by rw [h.completed, h.started]; rfl, h.posts, h.queue⟩
  awaited t own ht := by simp [h.pc] at ht

omit [DecidableEq T] in
/-- While a thread is between setting the flag and starting its transfer, nothing is under way. -/
theorem quiet_of_pending (h : Single s) {f : Transfer} (hin : (s.pc t).Inside)
    (hf : (s.pc t).pending = some f) : s.Quiet := by
  refine h.quiet fun v own hv => ?_
  -- the thread that waits would be the same one
  obtain rfl : v = t := h.guarded.unique v t (by rw [hv]; trivial) hin
  simp [hv, Pc.pending] at hf

omit [DecidableEq T] in
/-- Where something is under way, a thread waits for it. -/
theorem exists_waiting (h : Single s) (hq : ¬ s.Quiet) : ∃ t own, s.pc t = .osRecvMesg own := by
  by_contra hno
  simp only [not_exists] at hno
  exact hq (h.quiet hno)

omit [DecidableEq T] in
/-- A message finds room in the queue. -/
theorem room (h : Single s) (hposts : s.posts ≠ 0) (hqueue : s.queue = true) : False := by
  obtain ⟨t, own, ht⟩ := h.exists_waiting fun hq => hposts hq.posts
  obtain ⟨-, hone⟩ := h.awaited t own ht
  rw [hqueue, Bool.toNat_true] at hone
  omega

/-- A thread that does not wait for a message goes to a call that does not. -/
theorem goto (h : Single s) (hu : Inv u) {pc : Pc} (hpc : u.pc = (s.goto t pc).pc)
    (hold : ∀ own, s.pc t ≠ .osRecvMesg own) (hnew : ∀ own, pc ≠ .osRecvMesg own)
    (hblocks : pc.Blocks) (hstarted : u.started = s.started)
    (hcompleted : u.completed = s.completed) (hposts : u.posts = s.posts)
    (hqueue : u.queue = s.queue) : Single u := by
  have hwaiting (v : T) (own : ℕ) : u.pc v = .osRecvMesg own ↔ s.pc v = .osRecvMesg own := by
    rw [hpc]
    by_cases hv : v = t
    · subst hv
      rw [State.pc_goto_self]
      exact ⟨fun he => absurd he (hnew own), fun he => absurd he (hold own)⟩
    · rw [State.pc_goto_ne _ hv]
  refine ⟨hu, fun v => ?_, fun hno => ?_, fun v own hv => ?_⟩
  · rw [hpc]
    by_cases hv : v = t
    · subst hv
      rw [State.pc_goto_self]
      exact hblocks
    · rw [State.pc_goto_ne _ hv]
      exact h.blocks v
  · have hq := h.quiet fun v own => (hwaiting v own).not.1 (hno v own)
    exact ⟨by rw [hcompleted, hstarted, hq.completed], hposts.trans hq.posts, hqueue.trans hq.queue⟩
  · rw [hstarted, hcompleted, hposts, hqueue]
    exact h.awaited v own ((hwaiting v own).1 hv)

/-- The test of the flag. -/
theorem enter (h : Single s) {f : Transfer} (hf : f.blocking = true) (hu : Inv (s.enter t f))
    (ht : ∀ own, s.pc t ≠ .osRecvMesg own) : Single (s.enter t f) := by
  unfold State.enter at hu ⊢
  rw [if_pos hf] at hu ⊢
  split_ifs at hu ⊢ with hbusy
  · exact h.goto hu rfl ht (by simp) hf rfl rfl rfl rfl
  · exact h.goto hu rfl ht (by simp) hf rfl rfl rfl rfl

/-- **The step lemma.** -/
theorem step (h : Single s) {a : Act T} (hc : Blocking s a) (hst : Step s a u) : Single u := by
  have hu := h.toInv.step hst
  have hle := h.completed
  cases hst.move h.blocks hc with
  | call ht hf => exact h.enter hf hu (by simp [ht])
  | @again t f ht => exact h.enter (by simpa [ht, Pc.Blocks] using h.blocks t) hu (by simp [ht])
  | @next t f pc hin hin' hf hf' hblocks _ =>
      refine h.goto hu rfl (fun own ht => ?_) (fun own hpc => ?_) hblocks rfl rfl rfl rfl
      · simp [ht, Pc.pending] at hf
      · simp [hpc, Pc.pending] at hf'
  | @start t f ht hf =>
      have hin : (s.pc t).Inside := by simpa [ht, Pc.Inside] using hf
      have hq := h.quiet_of_pending (f := f) hin (by rw [ht]; rfl)
      have hpc : (s.start t f).pc t = .osRecvMesg s.started.length := by
        simp [State.start, hf]
      have hne {v : T} (hv : v ≠ t) : (s.start t f).pc v = s.pc v := State.pc_goto_ne _ hv
      refine ⟨hu, fun v => ?_, fun hno => absurd hpc (hno t _), fun v own hv => ?_⟩
      · by_cases hv : v = t
        · rw [hv, hpc]
          trivial
        · rw [hne hv]
          exact h.blocks v
      · -- only this thread is inside
        obtain rfl : v = t := hu.guarded.unique v t (by rw [hv]; trivial) (by rw [hpc]; trivial)
        obtain rfl : s.started.length = own := by simpa [hpc] using hv
        have hlength : (s.start v f).started.length = s.started.length + 1 := by
          simp [State.start, State.goto]
        refine ⟨hlength.symm, ?_⟩
        rw [hlength]
        change s.started.length + 1 - s.completed + s.posts + s.queue.toNat = 1
        rw [hq.completed, hq.posts, hq.queue]
        simp
  | @receive t own ht hqueue =>
      obtain ⟨-, hsum⟩ := h.awaited t own ht
      rw [hqueue, Bool.toNat_true] at hsum
      have hno (v : T) (own' : ℕ) :
          (({ s with queue := false, busy := 0 } : State T).goto t .out).pc v ≠
            .osRecvMesg own' := by
        by_cases hv : v = t
        · simp [hv]
        · rw [State.pc_goto_ne _ hv]
          intro hpc
          exact hv (h.guarded.unique v t (by rw [hpc]; trivial)
            (by rw [ht]; trivial))
      refine ⟨hu, fun v => ?_, fun _ => ⟨?_, ?_, rfl⟩, fun v own' hv => absurd hv (hno v own')⟩
      · by_cases hv : v = t
        · rw [hv, State.pc_goto_self]
          trivial
        · rw [State.pc_goto_ne _ hv]
          exact h.blocks v
      · change s.completed = s.started.length
        omega
      · change s.posts = 0
        omega
  | complete hlt =>
      obtain ⟨t, own, ht⟩ := h.exists_waiting fun hq => hlt.ne hq.completed
      refine ⟨hu, h.blocks, fun hno => absurd ht (hno t own), fun v own' hv => ?_⟩
      obtain ⟨hown, hsum⟩ := h.awaited v own' hv
      refine ⟨hown, ?_⟩
      change s.started.length - (s.completed + 1) + (s.posts + 1) + s.queue.toNat = 1
      omega
  | post hposts hqueue =>
      obtain ⟨t, own, ht⟩ := h.exists_waiting fun hq => hposts hq.posts
      refine ⟨hu, h.blocks, fun hno => absurd ht (hno t own), fun v own' hv => ?_⟩
      obtain ⟨hown, hsum⟩ := h.awaited v own' hv
      refine ⟨hown, ?_⟩
      rw [hqueue, Bool.toNat_false] at hsum
      change s.started.length - s.completed + (s.posts - 1) + true.toNat = 1
      rw [Bool.toNat_true]
      omega
  | drop hposts hqueue => exact (h.room hposts hqueue).elim

end Single

/-! ### The transfers that are asked for -/

/-- What is still to be started for a thread. -/
def Pc.owed (pc : Pc) : Multiset Request := pc.pending.elim 0 fun f => {f.request}

/-- A sum over the threads, behind a step of one of them. -/
theorem State.sum_goto [Fintype T] {M : Type*} [AddCommMonoid M] (g : Pc → M) (s : State T) (t : T)
    (pc : Pc) : ∑ v, g ((s.goto t pc).pc v) + g (s.pc t) = ∑ v, g (s.pc v) + g pc := by
  have hupdate : (fun v => g ((s.goto t pc).pc v)) =
      Function.update (fun v => g (s.pc v)) t (g pc) :=
    funext fun v => Function.apply_update (fun _ => g) s.pc t pc v
  rw [hupdate, Finset.sum_update_of_mem (Finset.mem_univ t), ← Finset.add_sum_erase _ _
    (Finset.mem_univ t), Finset.sdiff_singleton_eq_erase]
  abel

/-- **Every transfer that has been asked for** has been started, or a thread is about to. -/
def Accounts [Fintype T] (s : State T) (calls : List Transfer) : Prop :=
  ((calls.map Transfer.request : List Request) : Multiset Request) =
    (s.started : Multiset Request) + ∑ t, (s.pc t).owed

namespace Accounts

variable [Fintype T] {s u : State T} {calls : List Transfer}

/-- A thread goes to another call, and nothing is started. -/
theorem goto (h : Accounts s calls) {t : T} {pc : Pc} (asked : Option Transfer)
    (hpc : u.pc = (s.goto t pc).pc) (hstarted : u.started = s.started)
    (howed : pc.owed = (s.pc t).owed + asked.elim 0 fun f => {f.request}) :
    Accounts u (calls ++ asked.toList) := by
  have hsum := State.sum_goto Pc.owed s t pc
  rw [howed, add_comm _ (Option.elim _ _ _), ← add_assoc, add_left_inj] at hsum
  have hasked : ((asked.toList.map Transfer.request : List Request) : Multiset Request) =
      asked.elim 0 fun f => {f.request} := by cases asked <;> rfl
  rw [Accounts, List.map_append, ← Multiset.coe_add, hasked, hstarted, hpc, hsum, h, add_assoc]

/-- The test of the flag. -/
theorem enter (h : Accounts s calls) {t : T} {f : Transfer} (hf : f.blocking = true)
    (asked : Option Transfer)
    (howed : {f.request} = (s.pc t).owed + asked.elim 0 fun f => {f.request}) :
    Accounts (s.enter t f) (calls ++ asked.toList) := by
  unfold State.enter
  rw [if_pos hf]
  split_ifs
  · exact h.goto asked rfl rfl howed
  · exact h.goto asked rfl rfl howed

/-- **The step lemma.** -/
theorem step (h : Accounts s calls) (hs : Single s) {a : Act T} (hc : Blocking s a)
    (hst : Step s a u) : Accounts u (calls ++ a.asks.toList) := by
  cases hst.move hs.blocks hc with
  | @call t f ht hf => exact h.enter hf (some f) (by simp [ht, Pc.owed, Pc.pending])
  | @again t f ht =>
      exact h.enter (by simpa [ht, Pc.Blocks] using hs.blocks t) none
        (by simp [ht, Pc.owed, Pc.pending])
  | next _ _ hf hf' => exact h.goto none rfl rfl (by simp [Pc.owed, hf, hf'])
  | @start t f ht hf =>
      have hsum := State.sum_goto Pc.owed s t (.osRecvMesg s.started.length)
      have hold : (s.pc t).owed = {f.request} := by rw [ht]; rfl
      have hnew : (Pc.osRecvMesg s.started.length).owed = 0 := rfl
      rw [hold, hnew, add_zero] at hsum
      have hpc : (s.start t f).pc = (s.goto t (.osRecvMesg s.started.length)).pc := by
        simp [State.start, hf, State.goto]
      have hstarted : (s.start t f).started = s.started ++ [f.request] := rfl
      change Accounts _ (calls ++ [])
      rw [List.append_nil, Accounts, hpc, hstarted, h, ← hsum, ← Multiset.coe_add,
        Multiset.coe_singleton]
      abel
  | receive ht _ =>
      exact h.goto none rfl rfl (by rw [ht]; rfl)
  | complete => exact (List.append_nil calls).symm ▸ h
  | post => exact (List.append_nil calls).symm ▸ h
  | drop => exact (List.append_nil calls).symm ▸ h

end Accounts

/-! ### The work that is left -/

section Work

variable [Fintype T] {s u : State T} {a : Act T}

/-- The steps that are left, but for rounds of the loop around `osYieldThread`. -/
def State.work (s : State T) : ℕ :=
  ∑ t, (s.pc t).steps + 2 * (s.started.length - s.completed) + s.posts

omit [Fintype T] in
/-- A round of the loop leaves everything as it is. -/
theorem eq_of_waits (hs : Single s) (hw : Waits s a) (hst : Step s a u) : u = s := by
  obtain ⟨t, f, rfl, ht, hbusy⟩ := hw
  have hf : f.blocking = true := by simpa [ht, Pc.Blocks] using hs.blocks t
  simp only [Step, State.next, ht, State.enter, hf, hbusy, ne_eq, not_false_eq_true, if_true,
    Option.some_inj] at hst
  rw [← hst, State.goto, ← ht, Function.update_eq_self]

/-- **Every other step** does some of the work. -/
theorem work_lt (hs : Single s) (hc : Continues s a) (hw : ¬ Waits s a) (hst : Step s a u) :
    u.work < s.work := by
  have hblocking : Blocking s a := by
    cases a with
    | call => exact hc.elim
    | _ => trivial
  have hle := hs.completed
  cases hst.move hs.blocks hblocking with
  | call => exact hc.elim
  | @again t f ht =>
      have hf : f.blocking = true := by simpa [ht, Pc.Blocks] using hs.blocks t
      have hbusy : s.busy = 0 := by
        by_contra hbusy
        exact hw ⟨t, f, rfl, ht, hbusy⟩
      have hsum := State.sum_goto Pc.steps s t (.osWritebackDCache f)
      have hold : (s.pc t).steps = 8 := by rw [ht]; rfl
      have hnew : (Pc.osWritebackDCache f).steps = 7 := rfl
      simp only [State.enter, hf, hbusy, ne_eq, not_true_eq_false, if_true, if_false, State.work]
      change ∑ v, ((s.goto t (.osWritebackDCache f)).pc v).steps +
        2 * (s.started.length - s.completed) + s.posts < _
      omega
  | @next t f pc _ _ _ _ _ hlt =>
      have hsum := State.sum_goto Pc.steps s t pc
      change ∑ v, ((s.goto t pc).pc v).steps + 2 * (s.started.length - s.completed) + s.posts < _
      unfold State.work
      omega
  | @start t f ht hf =>
      have hsum := State.sum_goto Pc.steps s t (.osRecvMesg s.started.length)
      have hold : (s.pc t).steps = 4 := by rw [ht]; rfl
      have hnew : (Pc.osRecvMesg s.started.length).steps = 1 := rfl
      have hpc : (s.start t f).pc = (s.goto t (.osRecvMesg s.started.length)).pc := by
        simp [State.start, hf, State.goto]
      have hlength : (s.start t f).started.length = s.started.length + 1 := by
        simp [State.start, State.goto]
      unfold State.work
      rw [hpc, hlength]
      change _ + 2 * (s.started.length + 1 - s.completed) + s.posts < _
      omega
  | @receive t own ht _ =>
      have hsum := State.sum_goto Pc.steps s t .out
      have hold : (s.pc t).steps = 1 := by rw [ht]; rfl
      have hnew : Pc.out.steps = 0 := rfl
      change ∑ v, ((s.goto t .out).pc v).steps + 2 * (s.started.length - s.completed) + s.posts < _
      unfold State.work
      omega
  | complete hlt =>
      change ∑ v, (s.pc v).steps + 2 * (s.started.length - (s.completed + 1)) + (s.posts + 1) < _
      unfold State.work
      omega
  | post hposts _ =>
      change ∑ v, (s.pc v).steps + 2 * (s.started.length - s.completed) + (s.posts - 1) < _
      unfold State.work
      omega
  | drop hposts _ =>
      change ∑ v, (s.pc v).steps + 2 * (s.started.length - s.completed) + (s.posts - 1) < _
      unfold State.work
      omega

/-- **Nobody is stuck**: as long as there is work left, some of it can be done. -/
theorem exists_work (hs : Single s) (hwork : s.work ≠ 0) :
    ∃ a u, Continues s a ∧ ¬ Waits s a ∧ Step s a u := by
  have hle := hs.completed
  by_cases hq : s.Quiet
  · -- a thread has work left, and nothing is under way
    have hsum : ∑ t, (s.pc t).steps ≠ 0 := by
      intro h0
      refine hwork ?_
      rw [State.work, h0, hq.completed, hq.posts]
      simp
    obtain ⟨t, -, ht⟩ := Finset.exists_ne_zero_of_sum_ne_zero hsum
    by_cases hbusy : s.busy = 0
    · have hnot : ¬ Waits s (.run t) := by
        rintro ⟨_, _, _, _, hb⟩
        exact hb hbusy
      have hin : ¬ (s.pc t).Inside := fun hin => hs.guarded.busy_iff.2 ⟨t, hin⟩ hbusy
      have hblocks := hs.blocks t
      cases hpc : s.pc t with
      | osYieldThread f => exact ⟨.run t, _, trivial, hnot, by rw [Step, State.next, hpc]⟩
      | _ => simp_all [Pc.steps, Pc.Inside, Pc.Blocks]
    · obtain ⟨v, hv⟩ := hs.guarded.busy_iff.1 hbusy
      have hnot : ¬ Waits s (.run v) := by
        rintro ⟨_, f, ⟨⟩, hpc, -⟩
        simp [hpc, Pc.Inside] at hv
      cases hpc : s.pc v with
      | osRecvMesg own =>
          obtain ⟨-, hone⟩ := hs.awaited v own hpc
          simp [hq.completed, hq.posts, hq.queue] at hone
      | osWritebackDCache f => exact ⟨.run v, _, trivial, hnot, by rw [Step, State.next, hpc]⟩
      | osInvalDCache f => exact ⟨.run v, _, trivial, hnot, by rw [Step, State.next, hpc]⟩
      | osInvalICache f => exact ⟨.run v, _, trivial, hnot, by rw [Step, State.next, hpc]⟩
      | osPiStartDma f => exact ⟨.run v, _, trivial, hnot, by rw [Step, State.next, hpc]⟩
      | _ => simp [hpc, Pc.Inside] at hv
  · -- the request that is under way moves on
    obtain ⟨t, own, ht⟩ := hs.exists_waiting hq
    obtain ⟨-, hone⟩ := hs.awaited t own ht
    cases hqueue : s.queue with
    | true =>
        have hnot : ¬ Waits s (.run t) := by
          rintro ⟨_, f, ⟨⟩, hpc, -⟩
          simp [ht] at hpc
        exact ⟨.run t, _, trivial, hnot, by rw [Step, State.next, ht]; exact if_pos hqueue⟩
    | false =>
        rw [hqueue, Bool.toNat_false] at hone
        by_cases hposts : s.posts = 0
        · refine ⟨.complete, _, trivial, ?_, if_pos (by omega)⟩
          rintro ⟨_, _, h, _⟩
          cases h
        · refine ⟨.post, _, trivial, ?_, if_pos ⟨hposts, hqueue⟩⟩
          rintro ⟨_, _, h, _⟩
          cases h

/-- A step that is no round of the loop. -/
def Advances (s : State T) (a : Act T) : Prop := ¬ Waits s a

/-- **The work that is left is a rank.** -/
theorem ranked : Ranked (Step (T := T)) Continues Advances Single State.work where
  keeps s a u hs hc hst := by
    refine hs.step ?_ hst
    cases a with
    | call => exact hc.elim
    | _ => trivial
  le s a u hs hc hst := by
    by_cases hw : Waits s a
    · rw [eq_of_waits hs hw hst]
    · exact (work_lt hs hc hw hst).le
  lt _ _ _ hs hc hw hst := work_lt hs hc hw hst
  enabled _ hs hwork := exists_work hs hwork

end Work

/-! ### Every call is served -/

/-- **All calls have returned**, and of their transfers each has been carried out once. -/
structure Served (calls : List Transfer) (s : State T) : Prop where
  out : ∀ t, s.pc t = .out
  quiet : s.Quiet
  started : s.started.Perm (calls.map Transfer.request)

section Served

variable [Fintype T] {s u : State T} {calls : List Transfer}

omit [DecidableEq T] in
/-- Where no work is left, all calls have been served. -/
theorem served_of_work (hs : Single s) (ha : Accounts s calls) (hwork : s.work = 0) :
    Served calls s := by
  have hsteps : ∑ t, (s.pc t).steps = 0 := by
    unfold State.work at hwork
    omega
  have hout (t : T) : s.pc t = .out := by
    have ht := Finset.sum_eq_zero_iff.1 hsteps t (Finset.mem_univ t)
    have hblocks := hs.blocks t
    cases hpc : s.pc t <;> simp_all [Pc.steps, Pc.Blocks]
  refine ⟨hout, hs.quiet fun t own ht => by simp [hout t] at ht, ?_⟩
  have howed : ∑ t, (s.pc t).owed = 0 :=
    Finset.sum_eq_zero fun t _ => by rw [hout t]; rfl
  rw [Accounts, howed, add_zero] at ha
  exact (Multiset.coe_eq_coe.1 ha).symm

/-- A run without new calls asks for nothing. -/
theorem Accounts.runsTo (ha : Accounts s calls) (hs : Single s) (hr : RunsTo Step Continues s u) :
    Accounts u calls := by
  have key : Single u ∧ Accounts u calls :=
    hr.invariant (I := fun v => Single v ∧ Accounts v calls) (fun v a w hv hc hst => by
      have hblocking : Blocking v a := by
        cases a with
        | call => exact hc.elim
        | _ => trivial
      have hasks : a.asks = none := by
        cases a with
        | call => exact hc.elim
        | _ => rfl
      have hw := hv.2.step hv.1 hblocking hst
      rw [hasks, Option.toList_none, List.append_nil] at hw
      exact ⟨hv.1.step hblocking hst, hw⟩) ⟨hs, ha⟩
  exact key.2

/-- **No deadlock, and no lost transfer**, where all threads start their transfers by `dmaRead` and
`dmaWrite`: a call returns behind its own transfer, and no message is dropped.  From every state of
a run all calls can be completed, and they are, once the threads and the PI manager have made as
many steps as there is work left, however many rounds of the loop come in between. -/
theorem blocking_served {s₀ : State T} (h₀ : Init s₀)
    (h : Trace Step Blocking Act.asks s₀ calls s) :
    (∀ t own u, Returns s t own u → own < u.completed) ∧ (∀ u, ¬ Step s .drop u) ∧
      (∃ u, RunsTo Step Continues s u ∧ Served calls u) ∧
      ∀ n u, MovesTo Step Continues Advances s n u → n ≤ s.work ∧
        (Served calls u ∨ ∃ a v, Continues u a ∧ Advances u a ∧ Step u a v) := by
  have hs : Single s := h.invariant (fun _ _ _ hs hc hst => hs.step hc hst) (.init h₀)
  have ha : Accounts s calls := by
    clear hs
    induction h with
    | refl =>
        have howed : ∑ t, (s₀.pc t).owed = 0 :=
          Finset.sum_eq_zero fun t _ => by rw [h₀.pc]; rfl
        rw [Accounts, howed, h₀.started]
        rfl
    | tail a hr hc hst ih =>
        exact ih.step (hr.invariant (fun _ _ _ hs hc hst => hs.step hc hst) (.init h₀)) hc hst
  refine ⟨fun t own u hret => ?_, fun u hst => ?_, ?_, fun n u hr => ?_⟩
  · obtain ⟨hown, hone⟩ := hs.awaited t own hret.pc
    have hst := hret.step
    simp only [Step, State.next, hret.pc, Option.ite_none_right_eq_some, Option.some_inj] at hst
    obtain ⟨hqueue, rfl⟩ := hst
    rw [hqueue, Bool.toNat_true] at hone
    change own < s.completed
    omega
  · cases hst.move hs.blocks (show Blocking s .drop from trivial) with
    | drop hposts hqueue => exact hs.room hposts hqueue
  · obtain ⟨u, hr, hu, hwork⟩ := ranked.ends hs
    exact ⟨u, hr, served_of_work hu (ha.runsTo hs hr) hwork⟩
  · have hle := ranked.add_le hs hr
    refine ⟨by omega, ?_⟩
    have hu : Single u := hr.runsTo.invariant ranked.keeps hs
    by_cases hwork : u.work = 0
    · exact Or.inl (served_of_work hu (ha.runsTo hs hr.runsTo) hwork)
    · exact Or.inr (ranked.enabled u hu hwork)

end Served

/-- Two threads, behind `dmaInit`. -/
def idleTwo : State Bool := ⟨0, fun _ => .out, false, [], 0, 0⟩

/-- One of them has got the flag, and the other one goes round the loop. -/
theorem blocking_served_two :
    let read : Transfer := .dmaRead 0x80200000 0x400 0x1000
    let write : Transfer := .dmaWrite 0x400 0x80 0x80300000
    let s := ((idleTwo.enter false read).enter true write).enter true write
    s.pc true = .osYieldThread write ∧ ∃ u, RunsTo Step Continues s u ∧ Served [read, write] u := by
  intro read write s
  have h₀ : Trace Step Blocking Act.asks idleTwo [] idleTwo := .refl
  have hcall (v : State Bool) (t : Bool) {f : Transfer} (hf : f.blocking = true) :
      Blocking v (.call t (.transfer f)) := ⟨f, rfl, hf⟩
  have hrun (v : State Bool) (t : Bool) : Blocking v (.run t) := trivial
  have h₁ := h₀.tail _ (hcall _ false (f := read) rfl) rfl
  have h₂ := h₁.tail _ (hcall _ true (f := write) rfl) rfl
  have h₃ := h₂.tail _ (hrun _ true) rfl
  exact ⟨rfl, (blocking_served ⟨rfl, fun _ => rfl, rfl, rfl, rfl, rfl⟩ h₃).2.2.1⟩

end Dma
