/-
**Links to freed processes.**

`KillChildProcess` clears the parent's side of the links only, and the heap of a process is freed
when it ends, in an order that the priorities decide.  So a killed child may outlive the record that
its `relative` leads to.  This module settles when no link ever leads to a freed process: when no
process ends before its children.

Main definitions:

* `Sched.KinSound` — no link leads to a freed process, and none has been followed;
* `Sched.LeavesKin` — the terminations that leave a link to the process behind.

Main results:

* `Sched.KinSound.api`, `Sched.KinCase.kinInv` — the calls and the steps;
* `Sched.kin_live_of_reachable` — **no link leads to a freed process**, when no process ends before
  its children.
-/

import TsaRecomp.Sched.KinSteps

set_option relaxedAutoImplicit false
set_option autoImplicit false

namespace Sched

/-! ### The calls -/

/-- No link leads to a process that is not live: neither to a parent, nor has one been followed. -/
structure KinSound (m : Memory) : Prop where
  links : KinLinks m
  parent : ∀ c ∈ m.live, m.relative c ≠ 0 → m.relative c ∈ m.live
  staleAccess : m.staleAccess = false

namespace KinSound

variable {m m' : Memory}

theorem sameKin (h : KinSound m) (hs : SameKin m m') : KinSound m' := by
  refine ⟨h.links.sameKin hs, ?_, hs.staleAccess.trans h.staleAccess⟩
  intro c hc hr
  rw [hs.live] at hc ⊢
  rw [hs.relative hc] at hr ⊢
  exact h.parent c hc hr

theorem unlinkChildProcess (h : KinSound m) {c : Ptr} (hc : c ∈ m.live) :
    KinSound (unlinkChildProcess m c) := by
  refine ⟨h.links.unlinkChildProcess hc, ?_, ?_⟩
  · intro x hx hrx
    rw [live_unlinkChildProcess] at hx ⊢
    rw [relative_unlinkChildProcess] at hrx ⊢
    split_ifs at hrx ⊢ with hxc
    · exact absurd rfl hrx
    · exact h.parent x hx hrx
  · rw [staleAccess_unlinkChildProcess (h.parent c hc) (fun hr ho => (h.links.older c hc hr ho).1)
      fun hr hn => (h.links.newer c hc hr hn).1]
    exact h.staleAccess

theorem linkChildProcess (h : KinSound m) {root child : Ptr} (hroot : root ∈ m.live)
    (hc : child ∈ m.live) : KinSound (linkChildProcess m root child) := by
  have hu := h.unlinkChildProcess hc
  have hlive := live_unlinkChildProcess m child
  refine ⟨h.links.linkChildProcess hroot hc, ?_, ?_⟩
  · intro x hx hrx
    rw [linkChildProcess_eq, live_linkUnlinked] at hx
    rw [linkChildProcess_eq, relative_linkUnlinked] at hrx ⊢
    rw [live_linkUnlinked]
    split_ifs at hrx ⊢ with hxc
    · rwa [hlive]
    · exact hu.parent x hx hrx
  · rw [linkChildProcess_eq,
      staleAccess_linkUnlinked fun ho => (hu.links.oldest root (hlive ▸ hroot) ho).1]
    exact hu.staleAccess

end KinSound

section Creation

variable {m m' : Memory} {b : Block} {func : ProcessFunc} {priority stackSize : ℕ}

theorem KinSound.created (hk : KinSound m) (h : Created b func priority stackSize m m')
    (hf : b.fresh m) : KinSound m' := by
  refine ⟨hk.links.created h hf, ?_, h.staleAccess.trans hk.staleAccess⟩
  intro c hc hr
  rw [h.live] at hc ⊢
  rcases List.mem_cons.1 hc with rfl | hc
  · exact absurd h.relative_self hr
  · have hrel : m'.relative c = m.relative c :=
      congrArg Kin.relative (h.kin fun e => hf.2.1 (e ▸ hc))
    rw [hrel] at hr ⊢
    exact List.mem_cons_of_mem _ (hk.parent c hc hr)

end Creation

theorem Killed.kinSound {m m' : Memory} {q : Ptr} (h : Killed m q m') (hk : KinSound m) :
    KinSound m' := by
  refine ⟨h.kinLinks hk.links, ?_, h.staleAccess.trans hk.staleAccess⟩
  intro c hc hr
  rw [h.live] at hc ⊢
  rw [h.relative] at hr ⊢
  exact hk.parent c hc hr

theorem kinSound_invariant : KinInvariant (fun _ => True) (fun _ => True) KinSound where
  links _ h := h.links
  sameKin _ _ h := h.sameKin
  killed _ _ _ h _ _ hk := hk.kinSound h
  unlink _ _ h hc _ := h.unlinkChildProcess hc

theorem KinSound.api {fuel : ℕ} {m m' : Memory} {a : Api} (hm : MemInv m) (h : KinSound m)
    (hv : a.valid m) (hr : a.run fuel m = .ok m') : KinSound m' := by
  cases hc : a.creates with
  | true =>
      obtain ⟨b, func, priority, stackSize, m₁, hf, -, hcr, he⟩ := Api.run_creates hc hv hr
      have hcreated := createProcess_created hcr
      have h₁ := h.created hcreated hf
      rcases he with rfl | ⟨root, hroot, rfl⟩
      · exact h₁
      · refine h₁.linkChildProcess ?_ ?_
        · rw [hcreated.live]
          exact List.mem_cons_of_mem _ hroot
        · rw [hcreated.live]
          exact List.mem_cons_self
  | false =>
      by_cases hl : ∃ root child, a = .linkChildProcess root child
      · obtain ⟨root, child, rfl⟩ := hl
        cases hr
        exact h.linkChildProcess hv.1 hv.2
      · exact kinSound_invariant.api hm h hv hc (fun root child e => hl ⟨root, child, e⟩)
          (fun _ _ => trivial) (fun _ _ => trivial) hr

/-! ### The steps -/

/-- The step takes a process off the run list that a link still leads to: another process has it as
its parent, or its own destructor has linked it to a parent again. -/
def LeavesKin (s : Sys) (a : Act) : Prop :=
  ∃ p, s.ending a = some p ∧
    ((∃ c ∈ s.mem.live, c ≠ p ∧ s.mem.relative c = p) ∨
      a = .returnFrom ∧ s.inDestructor = true ∧ s.mem.relative p ≠ 0)

/-- The links are sound, and none leads to a process that has just yielded its termination. -/
structure KinInv (s : Sys) : Prop where
  sound : KinSound s.mem
  terminating : ∀ cur, s.control.terminating = some cur →
    s.mem.relative cur = 0 ∧ ∀ c ∈ s.mem.live, s.mem.relative c ≠ cur

/-- Taking a process without links off the live ones keeps the links. -/
theorem KinLinks.free {m m' : Memory} {cur : Ptr} (h : KinLinks m) (hrec : m'.record = m.record)
    (hlive : ∀ p, p ∈ m'.live ↔ p ∈ m.live ∧ p ≠ cur) (hcur : m.relative cur = 0) :
    KinLinks m' := by
  have hne : ∀ x y, m.relative x = y → y ≠ 0 → x ≠ cur := by
    rintro x y hx hy rfl
    exact hy (hx.symm.trans hcur)
  refine ⟨fun h0 => h.null_notMem ((hlive 0).1 h0).1, ?_, ?_, ?_⟩
  · intro c hc hr ho
    simp only [Memory.relative, Memory.parentOldestChild, Memory.newProcess, hrec] at hr ho ⊢
    obtain ⟨hl, hr', hn'⟩ := h.older c ((hlive c).1 hc).1 hr ho
    exact ⟨(hlive _).2 ⟨hl, hne _ _ hr' hr⟩, hr', hn'⟩
  · intro c hc hr hn
    simp only [Memory.relative, Memory.parentOldestChild, Memory.newProcess, hrec] at hr hn ⊢
    obtain ⟨hl, hr', ho'⟩ := h.newer c ((hlive c).1 hc).1 hr hn
    exact ⟨(hlive _).2 ⟨hl, hne _ _ hr' hr⟩, hr', ho'⟩
  · intro p hp ho
    simp only [Memory.relative, Memory.oldestChild, Memory.newProcess, hrec] at ho ⊢
    have hpl := ((hlive p).1 hp).1
    obtain ⟨hl, hr', hn'⟩ := h.oldest p hpl ho
    exact ⟨(hlive _).2 ⟨hl, hne _ p hr' fun e => h.null_notMem (e ▸ hpl)⟩, hr', hn'⟩

/-- **The step lemma**: a step that leaves no link to an ended process keeps the links sound. -/
theorem KinCase.kinInv {s t : Sys} {a : Act} (hs : SysInv s) (h : KinInv s)
    (ha : ¬ LeavesKin s a) (hst : KinCase s a t) : KinInv t := by
  cases hst with
  | same hm hc =>
      refine ⟨h.sound.sameKin hm, ?_⟩
      intro cur hcur
      rw [hc] at hcur
      obtain ⟨h0, hall⟩ := h.terminating cur hcur
      refine ⟨(hm.relative (hs.terminating_live hcur)).trans h0, ?_⟩
      intro c hcl
      rw [hm.live] at hcl
      rw [hm.relative hcl]
      exact hall c hcl
  | api ha' hv hm hc hc' =>
      refine ⟨h.sound.api hs.mem hv hm, ?_⟩
      intro cur hcur
      rw [hc'] at hcur
      cases hcur
  | destruct hr ha' hm hc =>
      refine ⟨kinSound_invariant.endProcessLeaves h.sound (hs.running_live hr) trivial trivial hm,
        ?_⟩
      intro cur hcur
      rw [hc] at hcur
      cases hcur
  | @terminate time cur next m hr ha' he hm hsame hc =>
      have hcl := hs.running_live hr
      have hsound := kinSound_invariant.endProcessLeaves h.sound hcl trivial trivial hm
      refine ⟨hsound.sameKin hsame, ?_⟩
      intro cur' hcur
      obtain rfl : cur = cur' := Option.some.inj (hc.symm.trans hcur)
      -- the children have been killed, and the process unlinked: what is left is a link from a
      -- child
      obtain ⟨m₁, hk, rfl⟩ := hm.steps h.sound.links hcl
      have hlive : (unlinkChildProcess m₁ cur).live = s.mem.live :=
        (live_unlinkChildProcess m₁ cur).trans hk.live
      refine ⟨?_, ?_⟩
      · rw [hsame.relative (hlive ▸ hcl), relative_unlinkChildProcess, if_pos rfl]
      · intro c hc'
        rw [hsame.live, hlive] at hc'
        rw [hsame.relative (hlive ▸ hc'), relative_unlinkChildProcess, hk.relative]
        split_ifs with hcc
        · exact fun e => h.sound.links.null_notMem (e ▸ hcl)
        · exact fun e => ha ⟨cur, he, Or.inl ⟨c, hc', hcc, e⟩⟩
  | @destructed time cur next hr ha' hd he hsame hc =>
      have hcl := hs.running_live hr
      refine ⟨h.sound.sameKin hsame, ?_⟩
      intro cur' hcur
      obtain rfl : cur = cur' := Option.some.inj (hc.symm.trans hcur)
      -- `EndProcess` ran before the destructor: its own link may have been set since
      have h0 : s.mem.relative cur = 0 := by
        by_contra h0
        exact ha ⟨cur, he, Or.inr ⟨ha', hd, h0⟩⟩
      refine ⟨(hsame.relative hcl).trans h0, ?_⟩
      intro c hc'
      rw [hsame.live] at hc'
      rw [hsame.relative hc']
      intro e
      by_cases hcc : c = cur
      · subst hcc
        exact h.sound.links.null_notMem (h0.symm.trans e ▸ hcl)
      · exact ha ⟨cur, he, Or.inl ⟨c, hc', hcc, e⟩⟩
  | @free cur hc hc' hcur hrec hlive hstale =>
      obtain ⟨h0, hall⟩ := h.terminating cur hc
      refine ⟨⟨h.sound.links.free hrec hlive h0, ?_,
        hstale.trans h.sound.staleAccess⟩, ?_⟩
      · intro c hcl hr
        simp only [Memory.relative, hrec] at hr ⊢
        have hcl' := ((hlive c).1 hcl).1
        exact (hlive _).2 ⟨h.sound.parent c hcl' hr, hall c hcl'⟩
      · intro cur' hcur'
        rw [hc'] at hcur'
        cases hcur'

/-! ### The runs -/

/-- **No link leads to a freed process**, in every run in which no process ends while a link leads
to it: no link to one has been followed, and the parent of a live process is live. -/
theorem kin_live_of_reachable {s : Sys} (h : ReachableUnder (fun s a => ¬ LeavesKin s a) s) :
    s.mem.staleAccess = false ∧
      ∀ c ∈ s.mem.live, s.mem.relative c ≠ 0 → s.mem.relative c ∈ s.mem.live := by
  have hinv : KinInv s := by
    refine h.invariant ?_ fun s a t hs hi ha hst => (hst.kin hs).kinInv hs hi ha
    intro s hs
    obtain ⟨record, rfl⟩ := hs
    refine ⟨⟨⟨?_, ?_, ?_, ?_⟩, ?_, rfl⟩, fun cur hcur => by cases hcur⟩ <;> simp [start]
  exact ⟨hinv.sound.staleAccess, hinv.sound.parent⟩

/-- A parent whose child ends first; the heap of the child has just been freed. -/
def childFirst : List Act :=
  [.api (.createProcess ⟨0x80001000, 0x80001010, 0x80001100⟩ (.game 1) 5 0),
    .api (.createChildProcess ⟨0x80002000, 0x80002010, 0x80002100⟩ (.game 2) 9 0 0x80001010),
    .api (.createChildProcess ⟨0x80003000, 0x80003010, 0x80003100⟩ (.game 2) 4 0 0x80001010),
    .callProcess 1, .tick, .endProcess, .tick]

/-- Nothing leads to the process that ends, and it is not linked to a parent again. -/
def endsUnlinked (s : Sys) (a : Act) : Bool :=
  (s.ending a).all fun p => decide (s.mem.relative p = 0 ∨ s.inDestructor = false) &&
    s.mem.live.all fun c => decide (c ≠ p → s.mem.relative c ≠ p)

theorem not_leavesKin_of_endsUnlinked {s : Sys} {a : Act} (h : endsUnlinked s a = true) :
    ¬ LeavesKin s a := by
  rintro ⟨p, he, hp⟩
  rw [endsUnlinked, he] at h
  simp only [Option.all_some, Bool.and_eq_true, decide_eq_true_eq, List.all_eq_true] at h
  rcases hp with ⟨c, hc, hne, hr⟩ | ⟨-, hd, h0⟩
  · exact h.2 c hc hne hr
  · rcases h.1 with h | h
    · exact h0 h
    · simp [hd] at h

theorem kin_live_of_reachable_childFirst :
    (stateAfter childFirst).mem.live = [0x80003010, 0x80001010] ∧
      (stateAfter childFirst).mem.relative 0x80003010 = 0x80001010 ∧
      (stateAfter childFirst).mem.staleAccess = false ∧
      ∀ c ∈ (stateAfter childFirst).mem.live, (stateAfter childFirst).mem.relative c ≠ 0 →
        (stateAfter childFirst).mem.relative c ∈ (stateAfter childFirst).mem.live := by
  refine ⟨by decide +kernel, by decide +kernel, kin_live_of_reachable ?_⟩
  exact reachableUnder_stateAfter endsUnlinked (fun _ _ => not_leavesKin_of_endsUnlinked)
    (by decide +kernel)

/-- A parent that ends before its child; its heap has just been freed. -/
def parentFirst : List Act :=
  [.api (.createProcess ⟨0x80001000, 0x80001010, 0x80001100⟩ (.game 1) 9 0),
    .api (.createChildProcess ⟨0x80002000, 0x80002010, 0x80002100⟩ (.game 2) 5 0 0x80001010),
    .callProcess 1, .tick, .endProcess, .tick]

/-- The killed child still has its parent in `relative`, and when it ends it writes to it. -/
theorem kin_freed_of_parentFirst :
    Reachable (stateAfter parentFirst) ∧ 0x80002010 ∈ (stateAfter parentFirst).mem.live ∧
      (stateAfter parentFirst).mem.relative 0x80002010 = 0x80001010 ∧
      0x80001010 ∉ (stateAfter parentFirst).mem.live ∧
      Reachable (stateAfter (parentFirst ++ [.tick, .endProcess])) ∧
      (stateAfter (parentFirst ++ [.tick, .endProcess])).mem.staleAccess = true :=
  ⟨reachable_stateAfter _, by decide +kernel, by decide +kernel, by decide +kernel,
    reachable_stateAfter _, by decide +kernel⟩

end Sched
