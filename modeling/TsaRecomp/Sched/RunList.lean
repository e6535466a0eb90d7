/-
**The run list.**

`LinkProcess_Export` walks the run list to the last process whose priority is at least that of the
new one and splices the new process in behind it; `UnlinkProcess_Export` splices a process out.
This module proves that the two are the insertion and the removal of a stable priority queue, kept
as a doubly linked list along `next` and `youngest_child`.

Main definitions:

* `Sched.RunList` — the doubly linked list that starts at `top_process`;
* `Sched.Created` — what `CreateProcess` does to every record and every global;
* `Sched.RunInv` — **the invariant of the run list**: linked both ways, sorted, stable with
  respect to the order of creation, and counted.

Main results:

* `Sched.linkWalk_eq` — where the walk of `LinkProcess_Export` stops;
* `Sched.createProcess_created`, `Sched.RunInv.createProcess` — creation;
* `Sched.RunInv.unlinkProcess` — termination;
* `Sched.RunInv.sameCore` — everything else.
-/

import TsaRecomp.Lib.DoublyLinked
import TsaRecomp.Lib.PriorityList
import TsaRecomp.Sched.Frames

set_option relaxedAutoImplicit false
set_option autoImplicit false

namespace Sched

open DoublyLinked PriorityList

/-! ### The list and its invariant -/

/-- The run list: the processes from `top_process` along `next`, with `youngest_child` leading
back. -/
abbrev RunList (m : Memory) (l : List Ptr) : Prop :=
  DList 0 (fun p => (m.record p).next) (fun p => (m.record p).youngestChild) m.topProcess l

/-- The priority of a process. -/
abbrev Memory.priority (m : Memory) (p : Ptr) : ℕ := (m.record p).priority

/-- **The invariant of the run list** `l`. -/
structure RunInv (m : Memory) (l : List Ptr) : Prop where
  /-- The links along `next` and `youngest_child` are those of `l`. -/
  list : RunList m l
  /-- It holds the created and not yet terminated processes by priority, and by the order of
  creation within a priority. -/
  queue : StableQueue m.priority m.procs l
  /-- No process is created twice. -/
  procs_nodup : m.procs.Nodup
  /-- `process_count` is its length. -/
  count : m.processCount = u16 l.length

/-- What does not touch the core keeps the invariant. -/
theorem RunInv.sameCore {m m' : Memory} {l : List Ptr} (h : RunInv m l) (hs : SameCore m m') :
    RunInv m' l := by
  refine ⟨?_, ?_, by rw [hs.procs]; exact h.procs_nodup, by rw [hs.processCount]; exact h.count⟩
  · unfold RunList
    rw [hs.topProcess]
    exact h.list.congr (fun p _ => hs.next p) (fun p _ => hs.youngestChild p)
  · rw [hs.procs]
    exact h.queue.congr fun p _ => hs.priority p

/-- The invariant only looks at the records on the list. -/
theorem RunInv.congr {m m' : Memory} {l : List Ptr} (h : RunInv m l)
    (hrec : ∀ p ∈ l, (m'.record p).core = (m.record p).core) (htop : m'.topProcess = m.topProcess)
    (hprocs : m'.procs = m.procs) (hcount : m'.processCount = m.processCount) : RunInv m' l := by
  refine ⟨?_, ?_, by rw [hprocs]; exact h.procs_nodup, by rw [hcount]; exact h.count⟩
  · unfold RunList
    rw [htop]
    exact h.list.congr (fun p hp => congrArg Core.next (hrec p hp))
      (fun p hp => congrArg Core.youngestChild (hrec p hp))
  · rw [hprocs]
    exact h.queue.congr fun p hp => congrArg Core.priority (hrec p hp)

theorem RunInv.mem_iff {m : Memory} {l : List Ptr} (h : RunInv m l) (p : Ptr) :
    p ∈ l ↔ p ∈ m.procs := h.queue.mem_iff p

/-- An empty run list. -/
theorem RunInv.nil {m : Memory} (htop : m.topProcess = 0) (hprocs : m.procs = [])
    (hcount : m.processCount = 0) : RunInv m [] := by
  refine ⟨?_, ?_, by rw [hprocs]; exact List.nodup_nil, by rw [hcount]; rfl⟩
  · unfold RunList
    rw [htop]
    exact DList.nil 0 _ _
  · rw [hprocs]
    exact StableQueue.nil _

/-! ### Insertion -/

/-- The walk of `LinkProcess_Export` stops at the last process of the leading stretch of no smaller
priority. -/
theorem linkWalk_eq {m : Memory} {process : Ptr} :
    ∀ {fuel : ℕ} {l₁ l₂ : List Ptr} {src src' : Ptr}, RunList m (l₁ ++ src :: l₂) →
      linkWalk m process fuel src = .ok src' →
      src' = (l₂.takeWhile fun q => m.priority process ≤ m.priority q).getLastD src := by
  intro fuel
  induction fuel with
  | zero =>
      intro l₁ l₂ src src' _ h
      cases h
  | succ fuel ih =>
      intro l₁ l₂ src src' hl h
      have hnext := (hl.around rfl).2
      rw [linkWalk] at h
      cases l₂ with
      | nil =>
          have h0 : (m.record src).next = 0 := by simpa using hnext
          rw [if_neg (by simp [h0])] at h
          cases h
          rfl
      | cons b l₂ =>
          have hb : (m.record src).next = b := by simpa using hnext
          have hb0 : b ≠ 0 := hl.ne_null (by simp)
          rw [hb] at h
          by_cases hp : m.priority process ≤ m.priority b
          · rw [if_pos ⟨hb0, hp⟩] at h
            have hl' : RunList m ((l₁ ++ [src]) ++ b :: l₂) := by simpa using hl
            rw [ih hl' h, List.takeWhile_cons_of_pos (by simpa using hp), List.getLastD_cons]
          · rw [if_neg (by simp only [not_and]; exact fun _ => hp)] at h
            cases h
            rw [List.takeWhile_cons_of_neg (by simpa using hp)]
            rfl

/-- Two memories that differ in the links of the run list alone. -/
structure SameButLinks (m m' : Memory) : Prop where
  record : ∀ q, m'.record q = { m.record q with
    next := (m'.record q).next
    youngestChild := (m'.record q).youngestChild }
  currentProcess : m'.currentProcess = m.currentProcess
  processCount : m'.processCount = m.processCount
  pendingHeapFree : m'.pendingHeapFree = m.pendingHeapFree
  procs : m'.procs = m.procs
  live : m'.live = m.live
  staleAccess : m'.staleAccess = m.staleAccess

theorem linkBehind_sameButLinks (m : Memory) (process src : Ptr) :
    SameButLinks m (linkBehind m process src) := by
  unfold linkBehind
  dsimp only
  constructor
  · intro q
    split_ifs <;> simp only [Memory.setNext, Memory.setYoungestChild, Memory.record_modify] <;>
      split_ifs <;> rfl
  all_goals split_ifs <;> rfl

theorem linkFirst_sameButLinks (m : Memory) (process src : Ptr) :
    SameButLinks m (linkFirst m process src) := by
  unfold linkFirst
  dsimp only
  constructor
  · intro q
    split_ifs <;> simp only [Memory.setNext, Memory.setYoungestChild, Memory.record_modify] <;>
      split_ifs <;> rfl
  all_goals split_ifs <;> rfl

theorem unlinkProcessExport_sameButLinks (m : Memory) (process : Ptr) :
    SameButLinks m (unlinkProcessExport m process) := by
  unfold unlinkProcessExport
  dsimp only
  constructor
  · intro q
    split_ifs <;> simp only [Memory.setNext, Memory.setYoungestChild, Memory.record_modify] <;>
      split_ifs <;> rfl
  all_goals split_ifs <;> rfl

theorem next_linkBehind (m : Memory) {process src : Ptr} (hne : src ≠ process) (q : Ptr) :
    ((linkBehind m process src).record q).next =
      if q = src then process else if q = process then (m.record src).next
      else (m.record q).next := by
  unfold linkBehind
  dsimp only
  split_ifs <;> simp_all

theorem youngestChild_linkBehind (m : Memory) {process src : Ptr} (hne : src ≠ process) (q : Ptr) :
    ((linkBehind m process src).record q).youngestChild =
      if (m.record src).next ≠ 0 ∧ q = (m.record src).next then process
      else if q = process then src else (m.record q).youngestChild := by
  have hn : ((((m.setNext process (m.record src).next).setYoungestChild process src).setNext
      src process).record process).next = (m.record src).next := by
    simp [hne.symm]
  unfold linkBehind
  dsimp only
  rw [hn]
  by_cases h0 : (m.record src).next = 0
  · simp [h0]
  · simp [h0]

theorem next_linkFirst (m : Memory) (process src q : Ptr) :
    ((linkFirst m process src).record q).next =
      if q = process then m.topProcess else (m.record q).next := by
  unfold linkFirst
  dsimp only
  split_ifs <;> simp_all

theorem youngestChild_linkFirst (m : Memory) (process src q : Ptr) :
    ((linkFirst m process src).record q).youngestChild =
      if src ≠ 0 ∧ q = src then process else if q = process then 0
      else (m.record q).youngestChild := by
  unfold linkFirst
  dsimp only
  split_ifs <;> simp_all

theorem topProcess_linkBehind (m : Memory) (process src : Ptr) :
    (linkBehind m process src).topProcess = m.topProcess := by
  unfold linkBehind
  dsimp only
  split_ifs <;> rfl

theorem topProcess_linkFirst (m : Memory) (process src : Ptr) :
    (linkFirst m process src).topProcess = process := by
  unfold linkFirst
  dsimp only
  split_ifs <;> rfl

/-- The memory `LinkProcess_Export` leaves, before it clears the child links of the new process. -/
def linked (m : Memory) (process src : Ptr) : Memory :=
  if m.topProcess ≠ 0 ∧ m.priority process ≤ m.priority m.topProcess then linkBehind m process src
  else linkFirst m process m.topProcess

theorem linked_sameButLinks (m : Memory) (process src : Ptr) :
    SameButLinks m (linked m process src) := by
  unfold linked
  split
  · exact linkBehind_sameButLinks m process src
  · exact linkFirst_sameButLinks m process m.topProcess

/-- `LinkProcess_Export` splices the new process in, and clears its child links. -/
theorem linkProcessExport_eq {fuel : ℕ} {m m' : Memory} {process : Ptr}
    (h : linkProcessExport fuel m process = .ok m') :
    ∃ src, m' = ((linked m process src).setOldestChild process 0).setRelative process 0 ∧
      (m.topProcess ≠ 0 ∧ m.priority process ≤ m.priority m.topProcess →
        linkWalk m process fuel m.topProcess = .ok src) := by
  unfold linkProcessExport at h
  dsimp only at h
  split at h
  · next hc =>
      obtain ⟨src, hw, h⟩ := bind_eq_ok.1 h
      cases h
      exact ⟨src, by rw [linked, if_pos hc], fun _ => hw⟩
  · next hc =>
      cases h
      exact ⟨0, by rw [linked, if_neg hc], fun hc' => absurd hc' hc⟩

/-- **`LinkProcess_Export` is the insertion of the priority queue.** -/
theorem linked_runList {fuel : ℕ} {m : Memory} {process src : Ptr} {l : List Ptr}
    (hl : RunList m l) (hp : process ∉ l) (h0 : process ≠ 0)
    (hw : m.topProcess ≠ 0 ∧ m.priority process ≤ m.priority m.topProcess →
      linkWalk m process fuel m.topProcess = .ok src) :
    RunList (linked m process src) (insertByPriority m.priority process l) := by
  have hsplit : l.takeWhile (fun q => m.priority process ≤ m.priority q) ++
      l.dropWhile (fun q => m.priority process ≤ m.priority q) = l :=
    List.takeWhile_append_dropWhile ..
  by_cases hc : m.topProcess ≠ 0 ∧ m.priority process ≤ m.priority m.topProcess
  · -- the new process goes behind `src`, the last of the leading stretch
    obtain ⟨a, l, rfl⟩ : ∃ a l', l = a :: l' := by
      cases l with
      | nil => exact absurd ((hl.head_eq_null_iff).2 rfl) hc.1
      | cons a l => exact ⟨a, l, rfl⟩
    have htop : m.topProcess = a := by simpa using hl.head_eq
    have hpa : m.priority process ≤ m.priority a := htop ▸ hc.2
    have hsrc :
        src = ((a :: l).takeWhile fun q => m.priority process ≤ m.priority q).getLastD 0 := by
      have hw' := hw hc
      rw [htop] at hw'
      have hsrc := linkWalk_eq (show RunList m ([] ++ a :: l) from hl) hw'
      rw [hsrc, List.takeWhile_cons_of_pos (by simpa using hpa), List.getLastD_cons]
    have hmem : src ∈ (a :: l).takeWhile fun q => m.priority process ≤ m.priority q := by
      rw [hsrc, List.takeWhile_cons_of_pos (by simpa using hpa), List.getLastD_eq_getLast?,
        List.getLast?_eq_some_getLast (by simp)]
      exact List.getLast_mem _
    have hmem' : src ∈ a :: l := by
      rw [← hsplit]
      exact List.mem_append_left _ hmem
    have hne : src ≠ process := fun e => hp (e ▸ hmem')
    have hnext : (m.record src).next =
        ((a :: l).dropWhile fun q => m.priority process ≤ m.priority q).headD 0 := by
      obtain ⟨l₁, hl₁⟩ : ∃ l₁, (a :: l).takeWhile (fun q => m.priority process ≤ m.priority q) =
          l₁ ++ [src] := by
        rcases List.eq_nil_or_concat
          ((a :: l).takeWhile fun q => m.priority process ≤ m.priority q) with h | ⟨l₁, b, h⟩
        · rw [h] at hmem
          simp at hmem
        · refine ⟨l₁, ?_⟩
          rw [h] at hsrc ⊢
          simpa using hsrc.symm
      have hal : a :: l = l₁ ++ src ::
          (a :: l).dropWhile fun q => m.priority process ≤ m.priority q := by
        conv_lhs => rw [← hsplit, hl₁]
        simp
      exact (hl.around hal).2
    have hl' := hl
    rw [← hsplit] at hl'
    have hp' : process ∉ (a :: l).takeWhile (fun q => m.priority process ≤ m.priority q) ++
        (a :: l).dropWhile (fun q => m.priority process ≤ m.priority q) := by rwa [hsplit]
    rw [linked, if_pos hc, insertByPriority]
    refine hl'.insert hp' h0 ?_ ?_ ?_ ?_ ?_
    · rw [next_linkBehind m hne, if_neg hne.symm, if_pos rfl, hnext]
    · have hpn : ¬ ((m.record src).next ≠ 0 ∧ process = (m.record src).next) := by
        rintro ⟨hn0, e⟩
        exact hp (e ▸ (hl.fwd_mem hmem' hn0).1)
      rw [youngestChild_linkBehind m hne, if_neg hpn, if_pos rfl, hsrc]
    · intro y hy
      have hy' : y ≠ process := fun e => hp' (e ▸ hy)
      rw [next_linkBehind m hne, if_neg hy', ← hsrc]
    · intro y hy
      have hy' : y ≠ process := fun e => hp' (e ▸ hy)
      have hy0 : y = (m.record src).next → (m.record src).next ≠ 0 := fun e => e ▸ hl'.ne_null hy
      rw [youngestChild_linkBehind m hne, if_neg hy', ← hnext]
      exact if_congr ⟨And.right, fun e => ⟨hy0 e, e⟩⟩ rfl rfl
    · rw [topProcess_linkBehind, if_neg (by simp [List.takeWhile_cons_of_pos, hpa])]
  · -- the new process goes first
    have hnil : l.takeWhile (fun q => m.priority process ≤ m.priority q) = [] := by
      cases l with
      | nil => rfl
      | cons a l =>
          have htop : m.topProcess = a := by simpa using hl.head_eq
          have ha0 : a ≠ 0 := hl.ne_null (by simp)
          refine List.takeWhile_cons_of_neg ?_
          have : ¬ m.priority process ≤ m.priority a := by
            intro hle
            exact hc ⟨by rwa [htop], by rwa [htop]⟩
          simpa using this
    have hall : l.dropWhile (fun q => m.priority process ≤ m.priority q) = l := by
      rw [hnil] at hsplit
      simpa using hsplit
    rw [linked, if_neg hc, insertByPriority, hnil, hall]
    refine DList.insert (show DList 0 _ _ _ ([] ++ l) from hl) hp h0 ?_ ?_ ?_ ?_ ?_
    · rw [next_linkFirst, if_pos rfl, hl.head_eq]
    · have hpt : ¬ (m.topProcess ≠ 0 ∧ process = m.topProcess) := by
        rintro ⟨ht, e⟩
        exact hp (e ▸ (hl.head_mem ht).1)
      rw [youngestChild_linkFirst, if_neg hpt, if_pos rfl]
      rfl
    · intro y hy
      have hy' : y ≠ process := fun e => hp (e ▸ hy)
      have hy0 : y ≠ [].getLastD 0 := hl.ne_null hy
      rw [next_linkFirst, if_neg hy', if_neg hy0]
    · intro y hy
      have hy' : y ≠ process := fun e => hp (e ▸ hy)
      have hy0 : y = m.topProcess → m.topProcess ≠ 0 := fun e => e ▸ hl.ne_null hy
      rw [youngestChild_linkFirst, if_neg hy', ← hl.head_eq]
      exact if_congr ⟨And.right, fun e => ⟨hy0 e, e⟩⟩ rfl rfl
    · rw [topProcess_linkFirst, if_pos rfl]

/-! ### Creation -/

/-- What `CreateProcess` does to the records and the globals. -/
structure Created (b : Block) (func : ProcessFunc) (priority stackSize : ℕ) (m m' : Memory) :
    Prop where
  heap_ne : b.heap ≠ 0
  self : m'.record b.process =
    { initRecord b func priority stackSize (m.record b.process) with
      next := (m'.record b.process).next
      youngestChild := (m'.record b.process).youngestChild
      oldestChild := 0
      relative := 0 }
  other : ∀ q, q ≠ b.process → m'.record q =
    { m.record q with
      next := (m'.record q).next
      youngestChild := (m'.record q).youngestChild }
  currentProcess : m'.currentProcess = m.currentProcess
  pendingHeapFree : m'.pendingHeapFree = m.pendingHeapFree
  processCount : m'.processCount = u16 (m.processCount + 1)
  procs : m'.procs = m.procs ++ [b.process]
  live : m'.live = b.process :: m.live
  staleAccess : m'.staleAccess = m.staleAccess

section Creation

variable {fuel : ℕ} {m m' : Memory} {b : Block} {func : ProcessFunc} {priority stackSize : ℕ}

/-- The steps of `CreateProcess`: the record is filled in and linked, its child links are cleared,
and the process is counted. -/
theorem createProcess_eq (h : createProcess fuel m b func priority stackSize = .ok m') :
    b.heap ≠ 0 ∧ ∃ m₁ m₂,
      linkProcessExport fuel (m.modify b.process (initRecord b func priority stackSize))
        b.process = .ok m₁ ∧
      m₂ = (m₁.setOldestChild b.process 0).setRelative b.process 0 ∧
      m' = { m₂ with
        processCount := u16 (m₂.processCount + 1)
        procs := m₂.procs ++ [b.process]
        live := b.process :: m₂.live } := by
  unfold createProcess at h
  split at h
  · cases h
  · next hb =>
      obtain ⟨m₁, h₁, h₂⟩ := bind_eq_ok.1 h
      cases h₂
      exact ⟨hb, m₁, _, h₁, rfl, rfl⟩

theorem createProcess_created (h : createProcess fuel m b func priority stackSize = .ok m') :
    Created b func priority stackSize m m' := by
  obtain ⟨hb, m₁, m₂, h₁, rfl, rfl⟩ := createProcess_eq h
  obtain ⟨src, rfl, -⟩ := linkProcessExport_eq h₁
  have hs := linked_sameButLinks (m.modify b.process (initRecord b func priority stackSize))
    b.process src
  generalize linked (m.modify b.process (initRecord b func priority stackSize))
    b.process src = m₂ at hs
  refine ⟨hb, ?_, ?_, hs.currentProcess, hs.pendingHeapFree, ?_, ?_, ?_, hs.staleAccess⟩
  · have hr := hs.record b.process
    rw [Memory.record_modify, if_pos rfl] at hr
    have hr' := congrArg (fun r : Process => { r with oldestChild := 0, relative := 0 }) hr
    simpa using hr'
  · intro q hq
    have hr := hs.record q
    rw [Memory.record_modify, if_neg hq] at hr
    simpa [hq] using hr
  · exact congrArg (fun n => u16 (n + 1)) hs.processCount
  · exact congrArg (· ++ [b.process]) hs.procs
  · exact congrArg (b.process :: ·) hs.live

/-- **Creation keeps the invariant of the run list.** -/
theorem RunInv.createProcess {l : List Ptr} (hl : RunInv m l) (hb : b.process ∉ l)
    (h0 : b.process ≠ 0) (h : createProcess fuel m b func priority stackSize = .ok m') :
    RunInv m' (insertByPriority m'.priority b.process l) := by
  obtain ⟨-, m₁, m₃, h₁, hm₃, rfl⟩ := createProcess_eq h
  obtain ⟨src, rfl, hw⟩ := linkProcessExport_eq h₁
  -- the record is filled in before it is linked
  have hl₀ : RunInv (m.modify b.process (initRecord b func priority stackSize)) l := by
    refine hl.congr ?_ rfl rfl rfl
    intro p hp
    rw [Memory.record_modify, if_neg (fun e : p = b.process => hb (e ▸ hp))]
  have hlist := linked_runList hl₀.list hb h0 hw
  have hs := linked_sameButLinks (m.modify b.process (initRecord b func priority stackSize))
    b.process src
  generalize m.modify b.process (initRecord b func priority stackSize) = m₁ at *
  generalize linked m₁ b.process src = m₂ at *
  have hsame : SameCore m₂ m₃ := by
    rw [hm₃]
    exact (SameCore.setOldestChild _ _ _).trans <| (SameCore.setRelative _ _ _).trans <|
      (SameCore.setOldestChild _ _ _).trans <| SameCore.setRelative _ _ _
  have hprio : m₃.priority = m₁.priority := funext fun q => by
    rw [Memory.priority, hsame.priority, hs.record q]
  have hprocs : m₃.procs = m₁.procs := hsame.procs.trans hs.procs
  have hcount : m₃.processCount = m₁.processCount := hsame.processCount.trans hs.processCount
  have hfresh : b.process ∉ m₁.procs := fun hm => hb ((hl₀.mem_iff _).2 hm)
  have hlen : (insertByPriority m₁.priority b.process l).length = l.length + 1 :=
    (insertByPriority_perm b.process l).length_eq
  show RunInv _ (insertByPriority m₃.priority b.process l)
  rw [hprio]
  constructor
  · show DList 0 (fun p => (m₃.record p).next) (fun p => (m₃.record p).youngestChild)
      m₃.topProcess _
    rw [hsame.topProcess]
    exact hlist.congr (fun p _ => hsame.next p) (fun p _ => hsame.youngestChild p)
  · show StableQueue m₃.priority (m₃.procs ++ [b.process]) _
    rw [hprio, hprocs]
    exact hl₀.queue.insert b.process
  · show (m₃.procs ++ [b.process]).Nodup
    rw [hprocs]
    exact List.nodup_append.2 ⟨hl₀.procs_nodup, by simp, by
      intro a ha c hc
      rw [List.mem_singleton.1 hc]
      exact fun e => hfresh (e ▸ ha)⟩
  · show u16 (m₃.processCount + 1) = _
    rw [hlen, hcount, hl₀.count]
    simp [u16]

end Creation

/-! ### Removal -/

/-- The links `UnlinkProcess_Export` leaves, when a process is not its own neighbour. -/
theorem unlinkProcessExport_links {m : Memory} {process : Ptr}
    (hself : (m.record process).next ≠ process) (q : Ptr) :
    ((unlinkProcessExport m process).record q).next =
      (if (m.record process).youngestChild ≠ 0 ∧ q = (m.record process).youngestChild then
        (m.record process).next else (m.record q).next) ∧
    ((unlinkProcessExport m process).record q).youngestChild =
      (if (m.record process).next ≠ 0 ∧ q = (m.record process).next then
        (m.record process).youngestChild else (m.record q).youngestChild) ∧
    (unlinkProcessExport m process).topProcess =
      (if (m.record process).youngestChild = 0 then (m.record process).next
        else m.topProcess) := by
  unfold unlinkProcessExport
  by_cases hn : (m.record process).next = 0 <;>
    by_cases hy : (m.record process).youngestChild = 0 <;>
      simp [hn, hy, hself.symm]

/-- **`UnlinkProcess_Export` is the removal of the priority queue.** -/
theorem unlinkProcess_runList {m : Memory} {l₁ l₂ : List Ptr} {process : Ptr}
    (hl : RunList m (l₁ ++ process :: l₂)) :
    RunList (unlinkProcessExport m process) (l₁ ++ l₂) := by
  have hperm : (l₁ ++ process :: l₂).Perm (process :: (l₁ ++ l₂)) := List.perm_middle
  have hnd := List.nodup_cons.1 (hperm.nodup_iff.1 hl.nodup)
  have hne : ∀ y ∈ l₁ ++ l₂, y ≠ 0 := fun y hy =>
    hl.ne_null (hperm.mem_iff.2 (by simp [hy]))
  have hself : (m.record process).next ≠ process := by
    intro e
    have hf := (hl.around rfl).2
    cases l₂ with
    | nil => exact hl.ne_null (x := process) (by simp) (e.symm.trans (by simpa using hf))
    | cons a l₂ =>
        have ha : (m.record process).next = a := by simpa using hf
        exact hnd.1 (by simp [← ha, e])
  have hlinks := unlinkProcessExport_links hself
  refine hl.remove ?_ ?_ (hlinks 0).2.2
  · intro y hy
    rw [(hlinks y).1]
    exact if_congr ⟨And.right, fun e => ⟨e ▸ hne y hy, e⟩⟩ rfl rfl
  · intro y hy
    rw [(hlinks y).2.1]
    exact if_congr ⟨And.right, fun e => ⟨e ▸ hne y hy, e⟩⟩ rfl rfl

/-- **Termination keeps the invariant of the run list**: the unlinking, and the count. -/
theorem RunInv.unlinkProcess {m m' : Memory} {l : List Ptr} {process : Ptr} (hl : RunInv m l)
    (hp : process ∈ l) (hcore : ∀ q, (m'.record q).core =
      ((unlinkProcessExport m process).record q).core)
    (htop : m'.topProcess = (unlinkProcessExport m process).topProcess)
    (hprocs : m'.procs = m.procs.erase process)
    (hcount : m'.processCount = u16Dec m.processCount) :
    RunInv m' (l.erase process) := by
  obtain ⟨l₁, l₂, rfl⟩ := List.append_of_mem hp
  have hnot : process ∉ l₁ := fun hm =>
    (List.nodup_append.1 hl.list.nodup).2.2 process hm process (by simp) rfl
  have herase : (l₁ ++ process :: l₂).erase process = l₁ ++ l₂ := by
    rw [List.erase_append_right _ hnot, List.erase_cons_head]
  have hs := unlinkProcessExport_sameButLinks m process
  rw [herase]
  constructor
  · unfold RunList
    rw [htop]
    exact (unlinkProcess_runList hl.list).congr (fun q _ => congrArg Core.next (hcore q))
      (fun q _ => congrArg Core.youngestChild (hcore q))
  · rw [hprocs]
    refine (hl.queue.remove hl.procs_nodup).congr ?_
    intro q _
    have hq := congrArg Process.priority (hs.record q)
    exact (congrArg Core.priority (hcore q)).trans hq
  · rw [hprocs]
    exact hl.procs_nodup.erase process
  · rw [hcount, hl.count]
    simp only [u16, u16Dec, List.length_append, List.length_cons]
    split <;> omega

end Sched
