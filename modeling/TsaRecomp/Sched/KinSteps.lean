/-
**The links across the calls and the steps.**

`KillChildProcess` follows the links below a process and clears the lists it has passed.  It leaves
the other three fields alone: a killed child still has its parent in `relative`, and unlinks itself
from there when it ends.  This module describes that effect, follows an invariant of the links
through every call that neither creates nor links a process, and sorts the steps of the system by
what they do to the links.

Main definitions:

* `Sched.Ancestor`, `Sched.Killed` — the effect of `KillChildProcess`;
* `Sched.KinInvariant` — a property of the links that the functions keep;
* `Sched.Sys.ending` — the process that a step takes off the run list;
* `Sched.KinCase` — **the steps, by what they do to the links**.

Main results:

* `Sched.killChild_killed` — `KillChildProcess` clears the lists of the processes below;
* `Sched.KinInvariant.api` — the calls;
* `Sched.StepCase.kin` — the steps.
-/

import TsaRecomp.Sched.Kin

set_option relaxedAutoImplicit false
set_option autoImplicit false

namespace Sched

/-! ### `KillChildProcess` -/

/-- `q` is the parent of the live process `p`. -/
def Memory.IsParent (m : Memory) (p q : Ptr) : Prop := p ∈ m.live ∧ m.relative p = q ∧ q ≠ 0

/-- `q` is `p` or an ancestor of `p`. -/
def Ancestor (m : Memory) : Ptr → Ptr → Prop := Relation.ReflTransGen m.IsParent

/-- What `KillChildProcess(q)` may do to the links: it clears the `oldest_child` of `q` and of
processes below `q`. -/
structure Killed (m : Memory) (q : Ptr) (m' : Memory) : Prop where
  relative : ∀ y, m'.relative y = m.relative y
  parentOldestChild : ∀ y, m'.parentOldestChild y = m.parentOldestChild y
  newProcess : ∀ y, m'.newProcess y = m.newProcess y
  oldestChild : ∀ y, m'.oldestChild y = m.oldestChild y ∨ m'.oldestChild y = 0 ∧ Ancestor m y q
  live : m'.live = m.live
  staleAccess : m'.staleAccess = m.staleAccess

namespace Killed

variable {m m' m'' : Memory} {q c : Ptr}

theorem refl (m : Memory) (q : Ptr) : Killed m q m :=
  ⟨fun _ => rfl, fun _ => rfl, fun _ => rfl, fun _ => Or.inl rfl, rfl, rfl⟩

/-- The effect on a child is an effect on the parent. -/
theorem of_child (h : Killed m c m') (hc : m.IsParent c q) : Killed m q m' := by
  refine ⟨h.relative, h.parentOldestChild, h.newProcess, ?_, h.live, h.staleAccess⟩
  intro y
  exact (h.oldestChild y).imp id fun ⟨h0, ha⟩ => ⟨h0, ha.tail hc⟩

theorem ancestor_iff (h : Killed m q m') {x y : Ptr} : Ancestor m' x y ↔ Ancestor m x y := by
  have : m'.IsParent = m.IsParent := by
    funext x y
    rw [Memory.IsParent, Memory.IsParent, h.relative, h.live]
  rw [Ancestor, Ancestor, this]

theorem trans (h : Killed m q m') (h' : Killed m' q m'') : Killed m q m'' := by
  refine ⟨fun y => (h'.relative y).trans (h.relative y),
    fun y => (h'.parentOldestChild y).trans (h.parentOldestChild y),
    fun y => (h'.newProcess y).trans (h.newProcess y), ?_, h'.live.trans h.live,
    h'.staleAccess.trans h.staleAccess⟩
  intro y
  rcases h'.oldestChild y with hy | ⟨hy, ha⟩
  · rw [hy]
    exact h.oldestChild y
  · exact Or.inr ⟨hy, h.ancestor_iff.1 ha⟩

/-- A change of the modes only. -/
theorem of_sameKin (hs : SameKin m m') (hr : ∀ y, (m'.record y).kin = (m.record y).kin) :
    Killed m q m' :=
  ⟨fun y => congrArg Kin.relative (hr y), fun y => congrArg Kin.parentOldestChild (hr y),
    fun y => congrArg Kin.newProcess (hr y), fun y => Or.inl (congrArg Kin.oldestChild (hr y)),
    hs.live, hs.staleAccess⟩

theorem kinLinks (h : Killed m q m') (hk : KinLinks m) : KinLinks m' := by
  refine ⟨h.live ▸ hk.null_notMem, ?_, ?_, ?_⟩
  · intro c hc hr ho
    rw [h.live] at hc ⊢
    rw [h.relative] at hr
    rw [h.parentOldestChild] at ho
    rw [h.relative, h.relative, h.parentOldestChild, h.newProcess]
    exact hk.older c hc hr ho
  · intro c hc hr hn
    rw [h.live] at hc ⊢
    rw [h.relative] at hr
    rw [h.newProcess] at hn
    rw [h.relative, h.relative, h.parentOldestChild, h.newProcess]
    exact hk.newer c hc hr hn
  · intro p hp ho
    rw [h.live] at hp ⊢
    rcases h.oldestChild p with he | ⟨h0, -⟩
    · rw [he] at ho ⊢
      rw [h.relative, h.newProcess]
      exact hk.oldest p hp ho
    · exact absurd h0 ho

end Killed

theorem kin_setKillStatusProcessExport (m : Memory) (p y : Ptr) :
    ((setKillStatusProcessExport m p).1.record y).kin = (m.record y).kin := by
  unfold setKillStatusProcessExport wakeupProcess
  split_ifs <;> simp [Process.kin]

theorem setKillStatusProcessExport_killed (m : Memory) (p q : Ptr) :
    Killed m q (setKillStatusProcessExport m p).1 :=
  .of_sameKin (setKillStatusProcessExport_sameKin m p) (kin_setKillStatusProcessExport m p)

/-- **`KillChildProcess` clears nothing but the lists of the processes below**, and the links it
follows lead to live processes. -/
theorem killChild_killed : ∀ fuel : ℕ,
    (∀ m q m', KinLinks m → q ∈ m.live → killChildProcess fuel m q = .ok m' → Killed m q m') ∧
    (∀ m c q m', KinLinks m → q ≠ 0 → (c ≠ 0 → c ∈ m.live ∧ m.relative c = q) →
      killChildLoop fuel m c = .ok m' → Killed m q m') := by
  intro fuel
  induction fuel with
  | zero =>
      constructor
      · intro m q m' _ _ h
        rw [killChildProcess] at h
        cases h
      · intro m c q m' _ _ _ h
        rw [killChildLoop] at h
        cases h
  | succ fuel ih =>
      obtain ⟨ihp, ihl⟩ := ih
      constructor
      · intro m q m' hk hq h
        rw [killChildProcess] at h
        obtain ⟨m₁, h₁, h₂⟩ := bind_eq_ok.1 h
        cases h₂
        have hq0 : q ≠ 0 := fun e => hk.null_notMem (e ▸ hq)
        have hloop := ihl m _ q m₁ hk hq0
          (fun h0 => ⟨(hk.oldest q hq h0).1, (hk.oldest q hq h0).2.1⟩) h₁
        refine hloop.trans ⟨fun y => by simp [Memory.relative],
          fun y => by simp [Memory.parentOldestChild], fun y => by simp [Memory.newProcess],
          ?_, rfl, rfl⟩
        intro y
        by_cases hy : y = q
        · subst hy
          exact Or.inr ⟨by simp [Memory.oldestChild], .refl⟩
        · exact Or.inl (by simp [Memory.oldestChild, hy])
      · intro m c q m' hk hq0 hc h
        rw [killChildLoop] at h
        split at h
        · cases h
          exact .refl m q
        · next hc0 =>
            obtain ⟨hcl, hcq⟩ := hc hc0
            obtain ⟨m₁, h₁, h₂⟩ := bind_eq_ok.1 h
            have hfollow : m.follow c = m := by
              simp [Memory.follow, hcl]
            rw [hfollow] at h₁
            -- the processes below the child
            have hrec : Killed m q m₁ := by
              split at h₁
              · exact (ihp m c m₁ hk hcl h₁).of_child ⟨hcl, hcq, hq0⟩
              · cases h₁
                exact .refl m q
            -- the child itself
            have hkill := hrec.trans (setKillStatusProcessExport_killed m₁ c q)
            -- the older children
            refine hkill.trans (ihl _ _ q m' (hkill.kinLinks hk) hq0 ?_ h₂)
            intro hn
            have hpoc := hkill.parentOldestChild c
            rw [Memory.parentOldestChild, Memory.parentOldestChild] at hpoc
            rw [hpoc] at hn ⊢
            obtain ⟨hl, hr, -⟩ := hk.older c hcl (hcq ▸ hq0) hn
            rw [hkill.live, hkill.relative]
            exact ⟨hl, hr.trans hcq⟩

/-! ### The calls -/

/-- A change that leaves the links alone leaves the ancestors alone. -/
theorem SameKin.ancestor {m m' : Memory} (hs : SameKin m m') {x y : Ptr}
    (h : Ancestor m' x y) : Ancestor m x y := by
  refine Relation.ReflTransGen.mono ?_ x y h
  intro a b hab
  have ha : a ∈ m.live := hs.live ▸ hab.1
  exact ⟨ha, (hs.relative ha).symm.trans hab.2.1, hab.2.2⟩

/-- Unlinking a process leaves no new ancestors. -/
theorem ancestor_of_unlinkChildProcess {m : Memory} {c x y : Ptr}
    (h : Ancestor (unlinkChildProcess m c) x y) : Ancestor m x y := by
  refine Relation.ReflTransGen.mono ?_ x y h
  intro a b hab
  obtain ⟨ha, hr, hb⟩ := hab
  rw [live_unlinkChildProcess] at ha
  rw [relative_unlinkChildProcess] at hr
  split_ifs at hr
  · exact absurd hr.symm hb
  · exact ⟨ha, hr, hb⟩

/-- `KillProcess` clears the lists below the process, unlinks it and writes its mode. -/
theorem killProcess_steps {fuel : ℕ} {m m' : Memory} {q : Ptr} (hk : KinLinks m) (hq : q ∈ m.live)
    (h : killProcess fuel m q = .ok m') :
    ∃ m₁, Killed m q m₁ ∧ SameKin (unlinkChildProcess m₁ q) m' := by
  rw [killProcess] at h
  obtain ⟨m₁, h₁, h₂⟩ := bind_eq_ok.1 h
  cases h₂
  exact ⟨m₁, (killChild_killed fuel).1 m q m₁ hk hq h₁, setKillStatusProcessExport_sameKin _ q⟩

theorem EndProcessLeaves.steps {m m' : Memory} {q : Ptr} (h : EndProcessLeaves m q m')
    (hk : KinLinks m) (hq : q ∈ m.live) :
    ∃ m₁, Killed m q m₁ ∧ m' = unlinkChildProcess m₁ q := by
  obtain ⟨fuel, m₁, h₁, rfl⟩ := h
  exact ⟨m₁, (killChild_killed fuel).1 m q m₁ hk hq h₁, rfl⟩

/-- A process whose children a call kills. -/
def Api.kills (m : Memory) : Api → Ptr → Prop
  | .killChildProcess process, q => q = process
  | .killProcess process, q => q = process
  | .killPrioProcess lo hi, q => q ∈ m.procs ∧ inPriority m lo hi q
  | _, _ => False

/-- A process that a call unlinks from its parent. -/
def Api.unlinks (m : Memory) : Api → Ptr → Prop
  | .unlinkChildProcess process, q => q = process
  | .killProcess process, q => q = process
  | .killPrioProcess lo hi, q => q ∈ m.procs ∧ inPriority m lo hi q
  | _, _ => False

/-- A property of memory that survives killing the children of the processes in `Q` and unlinking
the processes in `U`. -/
structure KinInvariant (Q U : Ptr → Prop) (I : Memory → Prop) : Prop where
  links : ∀ m, I m → KinLinks m
  sameKin : ∀ m m', I m → SameKin m m' → I m'
  killed : ∀ m q m', I m → q ∈ m.live → Q q → Killed m q m' → I m'
  unlink : ∀ m c, I m → c ∈ m.live → U c → I (unlinkChildProcess m c)

namespace KinInvariant

variable {Q U : Ptr → Prop} {I : Memory → Prop} {m m' : Memory}

theorem killProcess (hI : KinInvariant Q U I) (h : I m) {fuel : ℕ} {q : Ptr} (hq : q ∈ m.live)
    (hQ : Q q) (hU : U q) (hr : killProcess fuel m q = .ok m') : I m' := by
  obtain ⟨m₁, hk, hs⟩ := killProcess_steps (hI.links m h) hq hr
  exact hI.sameKin _ _ (hI.unlink _ q (hI.killed _ _ _ h hq hQ hk) (hk.live ▸ hq) hU) hs

theorem endProcessLeaves (hI : KinInvariant Q U I) (h : I m) {q : Ptr} (hq : q ∈ m.live)
    (hQ : Q q) (hU : U q) (hr : EndProcessLeaves m q m') : I m' := by
  obtain ⟨m₁, hk, rfl⟩ := hr.steps (hI.links m h) hq
  exact hI.unlink _ q (hI.killed _ _ _ h hq hQ hk) (hk.live ▸ hq) hU

/-- **The calls that neither create nor link a process** keep it. -/
theorem api (hI : KinInvariant Q U I) (hm : MemInv m) (h : I m) {fuel : ℕ} {a : Api}
    (hv : a.valid m) (hc : a.creates = false) (hl : ∀ root child, a ≠ .linkChildProcess root child)
    (hQ : ∀ q, a.kills m q → Q q) (hU : ∀ q, a.unlinks m q → U q)
    (hr : a.run fuel m = .ok m') : I m' := by
  cases a with
  | createProcess => cases hc
  | createChildProcess => cases hc
  | linkChildProcess root child => exact absurd rfl (hl root child)
  | unlinkChildProcess p =>
      cases hr
      exact hI.unlink m p h hv (hU p rfl)
  | killChildProcess p =>
      exact hI.killed m p m' h hv (hQ p rfl)
        ((killChild_killed fuel).1 m p m' (hI.links m h) hv hr)
  | killProcess p => exact hI.killProcess h hv (hQ p rfl) (hU p rfl) hr
  | killPrioProcess lo hi =>
      refine forEachProcess_procs (I := I) hm h ?_ ?_ hr
      · intro m₁ q m₂ hb
        split at hb
        · exact killProcess_sameCore hb
        · cases hb
          exact .refl m₁
      · intro m₁ q m₂ hs hq h₁ hb
        split at hb
        · next hp =>
            have hp' : q ∈ m.procs ∧ inPriority m lo hi q :=
              ⟨hq, hs.priority q ▸ hp.1, hs.priority q ▸ hp.2⟩
            exact hI.killProcess h₁ (hs.live ▸ hm.procs_live q hq) (hQ q hp') (hU q hp') hb
        · cases hb
          exact h₁
  | sleepProcessP p time =>
      cases hr
      exact hI.sameKin _ _ h (sleepProcessP_sameKin m p time)
  | sleepPrioProcess lo hi time =>
      refine forEachProcess_induct (I := fun m _ => I m) ?_ h hr
      intro m₁ q m₂ hi _ hb
      split at hb
      · cases hb
        exact hI.sameKin _ _ hi (sleepProcessP_sameKin m₁ q time)
      · cases hb
        exact hi
  | wakeupProcess p =>
      cases hr
      exact hI.sameKin _ _ h (wakeupProcess_sameKin m p)
  | wakeupPrioProcess lo hi =>
      refine forEachProcess_induct (I := fun m _ => I m) ?_ h hr
      intro m₁ q m₂ hi _ hb
      split at hb
      · cases hb
        exact hI.sameKin _ _ hi (wakeupProcess_sameKin m₁ q)
      · cases hb
        exact hi

end KinInvariant

/-! ### The steps -/

theorem destructor_unlinkChildProcess (m : Memory) (p q : Ptr) :
    ((unlinkChildProcess m p).record q).destructor = (m.record q).destructor := by
  unfold unlinkChildProcess unlinkNewer unlinkOlder
  split_ifs <;> simp

/-- `EndProcess` finds the destructor that has been set. -/
theorem EndProcessLeaves.destructor {m m' : Memory} {p : Ptr} (h : EndProcessLeaves m p m')
    (q : Ptr) : (m'.record q).destructor = (m.record q).destructor := by
  obtain ⟨fuel, m₁, hk, rfl⟩ := h
  rw [destructor_unlinkChildProcess]
  refine (killChild_rel (R := fun m m' => (m'.record q).destructor = (m.record q).destructor)
    (fun _ => rfl) (fun _ _ _ h h' => h'.trans h) ?_ fuel).1 m p m₁ hk
  intro m m' hw
  cases hw with
  | follow p => rfl
  | kill p =>
      unfold setKillStatusProcessExport wakeupProcess
      split_ifs <;> simp
  | clear p => simp

/-- The running coroutine is in a destructor. -/
def Sys.inDestructor (s : Sys) : Bool :=
  match s.host.runningFrames with
  | .destructor _ _ :: _ => true
  | _ => false

/-- The process that a step takes off the run list: the running process, when `EndProcess` finds no
destructor, or when the destructor returns. -/
def Sys.ending (s : Sys) (a : Act) : Option Ptr :=
  match s.control with
  | .running _ cur _ =>
      if a = .returnFrom ∧ s.inDestructor = true then some cur
      else if (a = .endProcess ∨ a = .returnFrom) ∧ (s.mem.record cur).destructor = none then
        some cur
      else none
  | _ => none

/-- What a step does to the links. -/
inductive KinCase (s : Sys) (a : Act) (t : Sys) : Prop
  /-- Nothing. -/
  | same (hm : SameKin s.mem t.mem) (hc : t.control.terminating = s.control.terminating)
  | api {b : Api} {fuel : ℕ} (ha : a = .api b) (hv : b.valid s.mem)
      (hm : b.run fuel s.mem = .ok t.mem) (hc : s.control.terminating = none)
      (hc' : t.control.terminating = none)
  /-- `EndProcess`, up to the destructor. -/
  | destruct {time : ℤ} {cur next : Ptr} (hr : s.control = .running time cur next)
      (ha : a = .endProcess ∨ a = .returnFrom) (hm : EndProcessLeaves s.mem cur t.mem)
      (hc : t.control.terminating = none)
  /-- `EndProcess`, up to the yield. -/
  | terminate {time : ℤ} {cur next : Ptr} {m : Memory} (hr : s.control = .running time cur next)
      (ha : a = .endProcess ∨ a = .returnFrom) (he : s.ending a = some cur)
      (hm : EndProcessLeaves s.mem cur m) (hs : SameKin m t.mem)
      (hc : t.control.terminating = some cur)
  /-- The destructor returns. -/
  | destructed {time : ℤ} {cur next : Ptr} (hr : s.control = .running time cur next)
      (ha : a = .returnFrom) (hd : s.inDestructor = true) (he : s.ending a = some cur)
      (hs : SameKin s.mem t.mem) (hc : t.control.terminating = some cur)
  /-- The heap of the terminated process is freed. -/
  | free {cur : Ptr} (hc : s.control.terminating = some cur) (hc' : t.control.terminating = none)
      (hcur : cur ∈ s.mem.live) (hrec : t.mem.record = s.mem.record)
      (hlive : ∀ p, p ∈ t.mem.live ↔ p ∈ s.mem.live ∧ p ≠ cur)
      (hstale : t.mem.staleAccess = s.mem.staleAccess)

theorem InCoroutine.ending {s : Sys} {a : Act} {time : ℤ} {cur next : Ptr} {slot : ProcessSlot}
    {coro : Coroutine} (hr : InCoroutine s time cur next slot coro) (ha : CallsEndProcess a coro)
    (hd : (s.mem.record cur).destructor = none) : s.ending a = some cur := by
  unfold Sys.ending
  rw [hr.control]
  dsimp only
  split_ifs with h₁ h₂
  · rfl
  · rfl
  · exact absurd ⟨ha.act, hd⟩ h₂

theorem MemInv.mem_live_freeHeap {m : Memory} (h : MemInv m) {cur : Ptr} (hc : cur ∈ m.live)
    (hheap : m.pendingHeapFree = (m.record cur).heap) (p : Ptr) :
    p ∈ (Sched.freeHeap m m.pendingHeapFree).live ↔ p ∈ m.live ∧ p ≠ cur := by
  show p ∈ m.live.filter _ ↔ _
  rw [List.mem_filter, hheap]
  refine and_congr_right ?_
  intro hp
  rw [decide_eq_true_eq]
  exact ⟨fun hne e => hne (e ▸ rfl), fun hne e => hne (h.heap_inj p hp cur hc e)⟩

/-- **The steps, by what they do to the links.** -/
theorem StepCase.kin {s t : Sys} {a : Act} (hs : SysInv s) (hst : StepCase s a t) :
    KinCase s a t := by
  cases hst with
  | initProcess => exact .same ⟨fun _ _ => rfl, rfl, rfl⟩ rfl
  | callProcess time hc => exact .same ⟨fun _ _ => rfl, rfl, rfl⟩ (by rw [hc]; rfl)
  | finish time hc => exact .same (.refl _) (by rw [hc]; rfl)
  | skip hc hcur hp hm =>
      exact .same (hm.sameKin.trans ⟨fun _ _ => rfl, rfl, rfl⟩) rfl
  | start hc hcur hp hr hsl =>
      exact .same (hr.sameKin.trans ⟨fun _ _ => rfl, rfl, rfl⟩) (by rw [hc]; rfl)
  | resume hc hcur hp hr =>
      exact .same (hr.sameKin.trans ⟨fun _ _ => rfl, rfl, rfl⟩) (by rw [hc]; rfl)
  | yieldedNormal hc => exact .same ⟨fun _ _ => rfl, rfl, rfl⟩ (by rw [hc]; rfl)
  | yieldedTerminate hc hp hl hheap =>
      exact .free (by rw [hc]; rfl) rfl hl rfl (hs.mem.mem_live_freeHeap hl hheap) rfl
  | api hc hv hm =>
      have hn := Sys.mayCall_terminating hc
      exact .api rfl hv hm hn hn
  | setProcessDestruct f hr => exact .same (.setDestructor _ _ f) rfl
  | sleepProcess t hr => exact .same (sleepCurrent_sameKin _ _ _) (by rw [hr.control]; rfl)
  | watchChildProcess hr => exact .same (.setExecMode _ _ _) (by rw [hr.control]; rfl)
  | watchNoChild => exact .same (.refl _) rfl
  | destruct hr ha hm hd => exact .destruct hr.control ha.act hm (by rw [hr.control]; rfl)
  | terminate hr ha hm hd =>
      exact .terminate hr.control ha.act (hr.ending ha (hm.destructor _ ▸ hd)) hm
        (terminated_sameKin _ _) rfl
  | @destructed time cur next slot coro f frames hr hf =>
      have hd : s.inDestructor = true := by rw [Sys.inDestructor, hr.frames_eq, hf]
      refine .destructed hr.control rfl hd ?_ (terminated_sameKin _ _) rfl
      rw [Sys.ending, hr.control]
      exact if_pos ⟨rfl, hd⟩
  | @scribble p r hp =>
      refine .same ⟨?_, rfl, rfl⟩ rfl
      intro q hq
      rw [Memory.record_modify, if_neg (fun e : q = p => hp (e ▸ hq))]
  | overwriteGuards p stackGuard heapGuard =>
      refine .same ⟨?_, rfl, rfl⟩ rfl
      intro q _
      rw [Memory.record_modify]
      split <;> rfl

theorem SysInv.terminating_live {s : Sys} {cur : Ptr} (h : SysInv s)
    (hc : s.control.terminating = some cur) : cur ∈ s.mem.live := by
  unfold Control.terminating at hc
  split at hc
  · next time cur' next reason hctl =>
      split at hc
      · next hr =>
          cases hc
          subst hr
          exact (h.atTerminate hctl).2.1
      · cases hc
  · cases hc

theorem SysInv.running_live {s : Sys} {time : ℤ} {cur next : Ptr} (h : SysInv s)
    (hc : s.control = .running time cur next) : cur ∈ s.mem.live :=
  h.mem.procs_live cur (h.running_mem hc)

end Sched
