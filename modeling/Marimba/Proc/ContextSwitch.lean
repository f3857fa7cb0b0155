import Marimba.Proc.Placement

/-!
# Contexts of live processes only

`IRQ_generic_isr` compares `curr_proc` with `next_proc` at the end of every trap, whatever its
source, and switches contexts when they differ. The two agree at almost every point where an
interrupt can come in, so that only a rescheduling makes them differ.

**The exception is `process_exit`**: it frees the struct of the running process, then clears
`curr_proc`, and only then traps to reschedule, with interrupts enabled throughout. Between the last
two `next_proc` still points at the freed struct, and an interrupt loads it
(`interrupt_loads_freed_context`). `contexts_of_live_processes` says that this window is all there
is to avoid; in particular the race of `PROC_create_process` with a wake-up, which loses processes,
never makes a trap touch the context of a freed one.
-/

namespace Marimba

open Links Sched

namespace Sched

instance (s : Sched) : DecidablePred s.SparesExit
  | .interrupt _ => inferInstanceAs (Decidable (¬_))
  | .irqDisable | .irqEnable | .createBegin _ | .createStep | .yield | .blockOn .. | .runCheck
  | .exitFree | .exitClear => .isTrue trivial

/-- The invariant of the runs that spare the window of `process_exit`. -/
theorem inv_of_run {events : List SchedEvent} {out : List IsrReport} {s : Sched}
    (halong : Along step SparesExit boot events)
    (hrun : runTrace step boot events = some (out, s)) :
    ∃ ready waits place, Inv s ready waits place := by
  refine invariant_of_along (I := fun s ↦ ∃ ready waits place, Inv s ready waits place)
    (fun s e r s' ⟨ready, waits, place, hinv⟩ he hstep ↦ ?_) ⟨_, _, _, inv_boot⟩ halong hrun
  obtain ⟨ready', waits', place', hinv', -⟩ := inv_step hinv he hstep
  exact ⟨ready', waits', place', hinv'⟩

end Sched

/-- **Traps only touch contexts of live processes** in every run in which no interrupt comes in
after `process_exit` has cleared `curr_proc` and before it is rescheduled: a context is saved into a
live process, and the loaded one is that of a live process which `PROC_reschedule` selected in the
same trap. -/
theorem contexts_of_live_processes {events : List SchedEvent} {out : List IsrReport} {s : Sched}
    (halong : Along step SparesExit boot events)
    (hrun : runTrace step boot events = some (out, s)) {e : SchedEvent} {r : IsrReport} {s' : Sched}
    (he : s.SparesExit e) (hstep : s.step e = some (r, s')) : ReportOk s s' r := by
  obtain ⟨ready, waits, place, hinv⟩ := inv_of_run halong hrun
  obtain ⟨-, -, -, -, -, hreport, -⟩ := inv_step hinv he hstep
  exact hreport

/-- A process is created, runs, and exits up to where it has cleared `curr_proc`. -/
def createAndExit : List SchedEvent :=
  [.createBegin 1, .createStep, .createStep, .createStep, .createStep, .runCheck, .yield, .exitFree,
    .interrupt [], .exitClear]

/-- The exit is completed by the rescheduling: it loads the main process. -/
theorem contexts_of_live_processes_exit :
    ∃ out s r s', runTrace step boot createAndExit = some (out, s) ∧ s.step .yield = some (r, s') ∧
      r.loaded = some .main ∧ ReportOk s s' r := by
  have hsome : ((runTrace step boot createAndExit).bind fun t ↦
      (t.2.step .yield).map fun u ↦ u.1.loaded) = some (some .main) := by
    decide +kernel
  obtain ⟨⟨out, s⟩, hrun, hs⟩ := Option.bind_eq_some_iff.1 hsome
  obtain ⟨⟨r, s'⟩, hstep, hloaded⟩ := Option.map_eq_some_iff.1 hs
  exact ⟨out, s, r, s', hrun, hstep, hloaded,
    contexts_of_live_processes (e := .yield) (by decide +kernel) hrun trivial hstep⟩

/-- **An interrupt in the window loads a freed context**: that of the process that has just
exited. -/
theorem interrupt_loads_freed_context :
    ∃ out s r s', runTrace step boot createAndExit = some (out, s) ∧ s.irqSemaphore = 0 ∧
      s.step (.interrupt []) = some (r, s') ∧ r.loaded = some (.proc 1) ∧ r.selected = none ∧
      ¬ReportOk s s' r := by
  have hfinal : ((runTrace step boot createAndExit).bind fun t ↦
      (t.2.step (.interrupt [])).map fun u ↦
        (t.2.irqSemaphore, u.1.loaded, u.1.selected, u.2.live)) =
        some (0, some (.proc 1), none, []) := by
    decide +kernel
  obtain ⟨⟨out, s⟩, hrun, hs⟩ := Option.bind_eq_some_iff.1 hfinal
  obtain ⟨⟨r, s'⟩, hstep, heq⟩ := Option.map_eq_some_iff.1 hs
  simp only [Prod.mk.injEq] at heq
  obtain ⟨hirq, hloaded, hselected, hlive⟩ := heq
  refine ⟨out, s, r, s', hrun, hirq, hstep, hloaded, hselected, fun hok ↦ ?_⟩
  rcases (hok.loaded _ hloaded).1 with he | ⟨p, hp, -⟩
  · cases he
  · rw [hlive] at hp
    cases hp

end Marimba
