import Marimba.Proc.Steps

/-!
# Every process is in its place

What the scheduler's queues are for: a live process runs, or is in exactly one queue. `Placement`
states it of the pointers alone, through what a traversal of each queue finds.

**It does not hold of every run.** `PROC_create_process` links the new process into the ready queue
with interrupts enabled, unlike every other insertion into it. An interrupt handler that moves a
process to the ready queue between the load of the tail pointer and the write of it makes one of the
two insertions overwrite the other: `woken_process_is_lost` is such a run. `processes_placed` says
that this race is all there is to avoid.
-/

namespace Marimba

open Links

namespace Sched

/-- The node is in none of the queues. -/
def InNoQueue (ready : List ProcNode) (waits : ℕ → List ProcNode) (x : ProcNode) : Prop :=
  x ∉ ready ∧ ∀ q, x ∉ waits q

/-- The node is in exactly one of the queues, exactly once. -/
def InOneQueue (ready : List ProcNode) (waits : ℕ → List ProcNode) (x : ProcNode) : Prop :=
  (ready.count x = 1 ∧ ∀ q, x ∉ waits q) ∨
    ∃ q, (waits q).count x = 1 ∧ x ∉ ready ∧ ∀ q', q' ≠ q → x ∉ waits q'

/-- `PROC_create_process` has allocated the process and not linked it in yet. -/
def Creating (s : Sched) (p : ℕ) : Prop := ∃ prev k, s.pc = .insert p prev k

/-- **Placement.** Traversing the queues finds these nodes, the main process is not among them, and
every live process runs and is in no queue, or is in exactly one of them; then it runs only in the
window of `PROC_block_on`. A process that is still being created is in no queue yet. -/
structure Placement (s : Sched) (ready : List ProcNode) (waits : ℕ → List ProcNode) : Prop where
  readyQueue : IsQueue s.links .ready ready
  waitQueues : ∀ q, IsQueue s.links (.wait q) (waits q)
  main_notMem : InNoQueue ready waits .main
  placed : ∀ p ∈ s.live,
    (s.currProc = .proc p ∨ s.Creating p) ∧ InNoQueue ready waits (.proc p) ∨
    InOneQueue ready waits (.proc p) ∧
      (s.currProc = .proc p → s.pc = .blocking ∧ s.sleepCurr = true)

/-- `process_exit` is not interrupted once it has freed the struct. -/
def AtomicExit (s : Sched) : SchedEvent → Prop
  | .interrupt _ => s.pc ≠ .exitFreed ∧ s.pc ≠ .exitNull
  | _ => True

instance (s : Sched) : DecidablePred s.AtomicExit
  | .interrupt _ => inferInstanceAs (Decidable (_ ∧ _))
  | .irqDisable | .irqEnable | .createBegin _ | .createStep | .yield | .blockOn .. | .runCheck
  | .exitFree | .exitClear => .isTrue trivial

instance (s : Sched) : DecidablePred s.NoRace
  | .interrupt ws =>
    inferInstanceAs (Decidable (s.Inserting → ∀ w ∈ ws, LL.empty s.links (.wait w.queue) = true))
  | .irqDisable | .irqEnable | .createBegin _ | .createStep | .yield | .blockOn .. | .runCheck
  | .exitFree | .exitClear => .isTrue trivial

variable {s s' : Sched} {ready : List ℕ} {waits : ℕ → List ℕ} {place : ℕ → Place} {p : ℕ}

theorem AtomicExit.sparesExit {e : SchedEvent} (h : s.AtomicExit e) : s.SparesExit e := by
  cases e with
  | interrupt ws => exact h.2
  | _ => trivial

/-- The loose processes are the running one, outside of the window of `PROC_block_on`, and the one
being created. -/
theorem Inv.placed_of_loose (h : Inv s ready waits place) (hp : place p = .loose) :
    s.currProc = .proc p ∨ s.Creating p := by
  have hl := (h.loose p).1 hp
  rw [Loose] at hl
  split at hl
  · exact Or.inl hl
  · next hpc =>
    rcases hl with hl | rfl
    · exact Or.inl hl
    · exact Or.inr ⟨_, _, hpc⟩
  · exact Or.inl hl
  · exact hl.elim

/-- A process in a queue runs only in the window of `PROC_block_on`. -/
theorem Inv.blocking_of_notLoose (h : Inv s ready waits place) (hfree : place p ≠ .free)
    (hp : place p ≠ .loose) (hcurr : s.currProc = .proc p) :
    s.pc = .blocking ∧ s.sleepCurr = true := by
  have hcontrol := h.control
  have hloose := (h.loose p).not.1 hp
  cases hpc : s.pc with
  | user => exact absurd (by simpa only [Loose, hpc] using hcurr) hloose
  | insert new prev k =>
    exact absurd (by simp only [Loose, hpc]; exact Or.inl hcurr) hloose
  | linked new => exact absurd (by simpa only [Loose, hpc] using hcurr) hloose
  | blocking =>
    simp only [Control, hpc] at hcontrol
    exact ⟨rfl, hcontrol.2.1⟩
  | running =>
    simp only [Control, hpc] at hcontrol
    rw [hcontrol.2.2] at hcurr
    cases hcurr
  | exitFreed =>
    simp only [Control, hpc] at hcontrol
    obtain ⟨-, r, hr, hn⟩ := hcontrol
    obtain rfl := ProcNode.proc.inj (hr.symm.trans hcurr)
    exact absurd ((h.free r).2 hn) hfree
  | exitNull =>
    simp only [Control, hpc] at hcontrol
    rw [hcontrol] at hcurr
    cases hcurr

/-- **Nothing lost, everything placed.** -/
theorem Inv.placement (h : Inv s ready waits place) (hin : Intact s ready place) :
    Placement s (nodes ready) fun q ↦ nodes (waits q) := by
  refine ⟨h.shape.readyQueue, fun q ↦ (h.shape.waitQueues q).1, ⟨by simp, by simp⟩, fun p hp ↦ ?_⟩
  have hfree : place p ≠ .free := fun hf ↦ (h.free p).1 hf hp
  have hready : place p ≠ .ready → ProcNode.proc p ∉ nodes ready := fun hn hm ↦
    h.shape.notMem_ready hn (mem_nodes.1 hm)
  have hwaits : ∀ q, place p ≠ .wait q → ProcNode.proc p ∉ nodes (waits q) := fun q hn hm ↦
    hn ((h.shape.mem_waits q p).1 (mem_nodes.1 hm))
  cases hplace : place p with
  | free => exact absurd hplace hfree
  | lost => exact absurd hplace (hin.notLost p)
  | loose =>
    exact Or.inl ⟨h.placed_of_loose hplace, hready (by simp [hplace]), fun q ↦
      hwaits q (by simp [hplace])⟩
  | ready =>
    refine Or.inr ⟨Or.inl ⟨?_, fun q ↦ hwaits q (by simp [hplace])⟩,
      h.blocking_of_notLoose hfree (by simp [hplace])⟩
    exact List.count_eq_one_of_mem (nodes_nodup.2 h.shape.nodup_ready)
      (mem_nodes.2 ((h.shape.mem_ready p).2 hplace))
  | wait q =>
    refine Or.inr ⟨Or.inr ⟨q, ?_, hready (by simp [hplace]), fun q' hq' ↦
      hwaits q' (by simp [hplace, Ne.symm hq'])⟩, h.blocking_of_notLoose hfree (by simp [hplace])⟩
    exact List.count_eq_one_of_mem (nodes_nodup.2 (h.shape.nodup_waits q))
      (mem_nodes.2 ((h.shape.mem_waits q p).2 hplace))

/-- The invariant of the runs without the race. -/
theorem inv_intact_of_run {events : List SchedEvent} {out : List IsrReport}
    (halong : Along step (fun s e ↦ s.AtomicExit e ∧ s.NoRace e) boot events)
    (hrun : runTrace step boot events = some (out, s)) :
    ∃ ready waits place, Inv s ready waits place ∧ Intact s ready place := by
  refine invariant_of_along (I := fun s ↦ ∃ ready waits place, Inv s ready waits place ∧
    Intact s ready place) (fun s e r s' ⟨ready, waits, place, hinv, hin⟩ he hstep ↦ ?_)
    ⟨_, _, _, inv_boot, intact_boot⟩ halong hrun
  obtain ⟨ready', waits', place', hinv', hint, -⟩ := inv_step hinv he.1.sparesExit hstep
  exact ⟨ready', waits', place', hinv', (hint he.2 hin).1⟩

end Sched

open Sched

/-- **Placement in every run without the race**: as long as no handler moves a process to the ready
queue while `PROC_create_process` links one in, every process is in its place in every state
reached, and the main process is picked only when the ready queue is empty. -/
theorem processes_placed {events : List SchedEvent} {out : List IsrReport} {s : Sched}
    (halong : Along step (fun s e ↦ s.AtomicExit e ∧ s.NoRace e) boot events)
    (hrun : runTrace step boot events = some (out, s)) :
    (∃ ready waits, Placement s ready waits) ∧
      ∀ e r s', s.AtomicExit e → s.step e = some (r, s') → r.selected = some .main →
        IsQueue s'.links .ready [] := by
  obtain ⟨ready, waits, place, hinv, hin⟩ := inv_intact_of_run halong hrun
  refine ⟨⟨_, _, hinv.placement hin⟩, fun e r s' he hstep hmain ↦ ?_⟩
  obtain ⟨ready', waits', place', hinv', -, -, hnil⟩ := inv_step hinv he.sparesExit hstep
  have hqueue := hinv'.shape.readyQueue
  rwa [hnil hmain] at hqueue

/-- The main process creates a process, which blocks. -/
def createAndBlock : List SchedEvent :=
  [.createBegin 1, .createStep, .createStep, .createStep, .createStep, .runCheck, .yield,
    .irqDisable, .blockOn 0 true, .yield]

/-- An interrupt that wakes the process before the next one is created. -/
theorem processes_placed_wake_then_create :
    ∃ out s, runTrace step boot (createAndBlock ++ [.interrupt [.unblockHead 0], .createBegin 2,
        .createStep, .createStep, .createStep, .createStep]) = some (out, s) ∧
      (∃ ready waits, Placement s ready waits) ∧
        ∀ e r s', s.AtomicExit e → s.step e = some (r, s') → r.selected = some .main →
          IsQueue s'.links .ready [] := by
  have hsome : (runTrace step boot (createAndBlock ++ [.interrupt [.unblockHead 0],
      .createBegin 2, .createStep, .createStep, .createStep, .createStep])).isSome := by
    decide +kernel
  obtain ⟨⟨out, s⟩, hrun⟩ := Option.isSome_iff_exists.1 hsome
  exact ⟨out, s, hrun, processes_placed (by decide +kernel) hrun⟩

/-- The same interrupt, inside the insertion of the next process. -/
def wakeInsideCreate : List SchedEvent :=
  createAndBlock ++ [.createBegin 2, .createStep, .interrupt [.unblockHead 0], .createStep,
    .createStep, .createStep]

/-- **The woken process is lost**: it is live, does not run, and is in no queue. -/
theorem woken_process_is_lost :
    ∃ out s, runTrace step boot wakeInsideCreate = some (out, s) ∧
      Along step AtomicExit boot wakeInsideCreate ∧ ¬∃ ready waits, Placement s ready waits := by
  have hfinal : (runTrace step boot wakeInsideCreate).map
      (fun r ↦ (r.2.currProc, r.2.pc, r.2.live, r.2.links.next (r.2.links.prev (.proc 1)))) =
        some (.main, .user, [2, 1], .proc 2) := by
    decide +kernel
  obtain ⟨⟨out, s⟩, hrun, hs⟩ := Option.map_eq_some_iff.1 hfinal
  simp only [Prod.mk.injEq] at hs
  obtain ⟨hcurr, hpc, hlive, hnext⟩ := hs
  -- a process in a queue is the successor of its predecessor
  have hnot : ∀ {h xs}, IsQueue s.links h xs → ProcNode.proc 1 ∉ xs := by
    intro h xs hq hm
    rw [hq.1.next_prev_of_mem hm] at hnext
    cases hnext
  refine ⟨out, s, hrun, by decide +kernel, ?_⟩
  rintro ⟨ready, waits, hplaced⟩
  rcases hplaced.placed 1 (by simp [hlive]) with ⟨hor, -⟩ | ⟨hone, -⟩
  · rcases hor with he | ⟨prev, k, he⟩
    · rw [hcurr] at he
      cases he
    · rw [hpc] at he
      cases he
  · rcases hone with ⟨hcount, -⟩ | ⟨q, hcount, -⟩
    · exact hnot hplaced.readyQueue (List.count_pos_iff.1 (by omega))
    · exact hnot (hplaced.waitQueues q) (List.count_pos_iff.1 (by omega))

end Marimba
