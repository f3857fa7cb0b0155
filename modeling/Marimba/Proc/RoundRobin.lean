import Marimba.Proc.Placement

/-!
# Processes are dispatched in the order in which they became ready

The ready queue is filled from five places: creation, the `yield` of the running process, the two
wake-ups, and a wake-up of a process that has not even yielded yet in `PROC_block_on`. All of them
append, and `PROC_reschedule` takes the first process off. So a process that stands behind `k`
others is dispatched after exactly these, in their order (`dispatched_in_order`).

The queue law behind it is that of one step (`Sched.inv_step`): the ready queue before a step is a
prefix of what the step dispatches followed by the ready queue after it. `prefix_of_run` chains it
along a run.

**The race of `PROC_create_process` with a wake-up breaks the order as well**: the woken process is
first in the queue, and the new one is dispatched in its place (`woken_process_is_overtaken`).
-/

namespace Marimba

open Links

namespace Sched

variable {s t : Sched} {ready : List ℕ} {waits : ℕ → List ℕ} {place : ℕ → Place}

/-- The processes the traps of a run dispatch from the ready queue. -/
def dispatches (out : List IsrReport) : List ProcNode := nodes (out.flatMap dispatched)

/-- A process stands in the ready queue behind `ahead`: in the state itself or, when the next event
is a `yield`, between the two halves of its `PROC_reschedule`, after the running process is put back
and before the first one is taken off. -/
def StandsBehind (s : Sched) (events : List SchedEvent) (ahead : List ProcNode) (x : ProcNode) :
    Prop :=
  ∃ behind, IsQueue s.links .ready (ahead ++ x :: behind) ∨
    events.head? = some .yield ∧ IsQueue s.requeue.links .ready (ahead ++ x :: behind)

/-- **The queue law of a run**: its dispatches take the ready queue off from the front. -/
theorem prefix_of_run {events : List SchedEvent} {out : List IsrReport}
    (hinv : Inv s ready waits place) (hin : Intact s ready place)
    (halong : Along step (fun s e ↦ s.AtomicExit e ∧ s.NoRace e) s events)
    (hrun : runTrace step s events = some (out, t)) :
    ∃ ready', ready <+: out.flatMap dispatched ++ ready' := by
  induction events generalizing s ready waits place out with
  | nil =>
    cases hrun
    exact ⟨ready, List.prefix_refl ready⟩
  | cons e events ih =>
    obtain ⟨r, s₁, out₁, hstep, hrest, rfl⟩ := runTrace_cons_eq_some hrun
    obtain ⟨he, hnext⟩ := halong
    obtain ⟨ready₁, waits₁, place₁, hinv₁, hint₁, -⟩ := inv_step hinv he.1.sparesExit hstep
    obtain ⟨hin₁, hpre⟩ := hint₁ he.2 hin
    obtain ⟨ready', hpre'⟩ := ih hinv₁ hin₁ (hnext r s₁ hstep) hrest
    refine ⟨ready', hpre.trans ?_⟩
    rw [List.flatMap_cons, List.append_assoc]
    exact (List.prefix_append_right_inj _).2 hpre'

/-- The same from the middle of the first rescheduling on. -/
theorem prefix_of_run_yield {events : List SchedEvent} {out : List IsrReport}
    (hinv : Inv s ready waits place) (hin : Intact s ready place)
    (halong : Along step (fun s e ↦ s.AtomicExit e ∧ s.NoRace e) s (.yield :: events))
    (hrun : runTrace step s (.yield :: events) = some (out, t)) :
    IsQueue s.requeue.links .ready (nodes (s.requeued ready)) ∧
      ∃ ready', s.requeued ready <+: out.flatMap dispatched ++ ready' := by
  obtain ⟨r, s₁, out₁, hstep, hrest, rfl⟩ := runTrace_cons_eq_some hrun
  obtain ⟨hy, htrap⟩ := canYield_of_step hstep
  obtain ⟨rfl, rfl⟩ : s.yieldTrap.1 = r ∧ s.yieldTrap.2 = s₁ := by rw [htrap]; exact ⟨rfl, rfl⟩
  obtain ⟨ready₁, place₁, hinv₁, hint₁, -⟩ := hinv.yieldTrap hy
  obtain ⟨hin₁, rfl, hcurr⟩ := hint₁ hin
  obtain ⟨ready', hpre⟩ := prefix_of_run hinv₁ hin₁ (halong.2 _ _ hstep) hrest
  obtain ⟨r₁, p₁, hsettled, hlost⟩ := hinv.requeue hy
  obtain ⟨rfl, -⟩ := hlost hin
  refine ⟨hsettled.shape.readyQueue, ready', ?_⟩
  rw [List.flatMap_cons, List.append_assoc]
  nth_rewrite 1 [← dispatched_yieldTrap hcurr]
  exact (List.prefix_append_right_inj _).2 hpre

/-- **Who joins the ready queue stands behind all that are waiting in it**: those of them that the
same step has not dispatched are ahead of it. -/
theorem waiting_ahead {e : SchedEvent} {r : IsrReport} (hinv : Inv s ready waits place)
    (hin : Intact s ready place) (he : s.AtomicExit e ∧ s.NoRace e) (hstep : s.step e = some (r, t))
    {waiting ahead behind : List ProcNode} {x : ProcNode} (hwait : IsQueue s.links .ready waiting)
    (hx : x ∉ waiting) (hq : IsQueue t.links .ready (ahead ++ x :: behind)) :
    waiting <+: dispatches [r] ++ ahead := by
  obtain ⟨ready', waits', place', hinv', hint, -⟩ := inv_step hinv he.1.sparesExit hstep
  obtain ⟨-, hpre⟩ := hint he.2 hin
  have hfront : waiting <+: (dispatches [r] ++ ahead ++ [x]) ++ behind := by
    have hmap := hpre.map ProcNode.proc
    rw [List.map_append] at hmap
    have hwaiting : ready.map .proc = waiting := hinv.shape.readyQueue.unique hwait
    have hqueue : ready'.map .proc = ahead ++ x :: behind := hinv'.shape.readyQueue.unique hq
    rw [hwaiting, hqueue] at hmap
    simpa [dispatches, nodes] using hmap
  rcases List.prefix_or_prefix_of_prefix hfront (List.prefix_append _ behind) with h | h
  · rcases List.prefix_concat_iff.1 h with rfl | h
    · exact absurd (by simp) hx
    · exact h
  · exact absurd (h.subset (by simp)) hx

end Sched

open Sched

/-- **Round robin.** In every state reached without the race: a process that joins the ready queue
stands behind all that are waiting in it, and a process that stands behind `ahead` is dispatched
after these, in their order. As far as the run gets, its next dispatches are `ahead` and then the
process; nothing else comes in between. -/
theorem dispatched_in_order {events : List SchedEvent} {out : List IsrReport} {s : Sched}
    (halong : Along step (fun s e ↦ s.AtomicExit e ∧ s.NoRace e) boot events)
    (hrun : runTrace step boot events = some (out, s)) :
    (∀ {e r t waiting ahead x behind}, s.AtomicExit e ∧ s.NoRace e → s.step e = some (r, t) →
      IsQueue s.links .ready waiting → x ∉ waiting → IsQueue t.links .ready (ahead ++ x :: behind) →
        waiting <+: dispatches [r] ++ ahead) ∧
    ∀ {later out' t ahead x}, Along step (fun s e ↦ s.AtomicExit e ∧ s.NoRace e) s later →
      runTrace step s later = some (out', t) → StandsBehind s later ahead x →
        dispatches out' <+: ahead ++ [x] ∨ ahead ++ [x] <+: dispatches out' := by
  obtain ⟨ready, waits, place, hinv, hin⟩ := inv_intact_of_run halong hrun
  refine ⟨fun he hstep hwait hx hq ↦ waiting_ahead hinv hin he hstep hwait hx hq, ?_⟩
  intro later out' t ahead x halong' hrun' hx
  -- both lists are at the front of the queue with everything that is appended later
  have hboth : ∀ {queue ready' : List ℕ} {behind : List ProcNode},
      nodes queue = ahead ++ x :: behind → queue <+: out'.flatMap dispatched ++ ready' →
      dispatches out' <+: ahead ++ [x] ∨ ahead ++ [x] <+: dispatches out' := by
    intro queue ready' behind hqueue hpre
    have hfront : ahead ++ [x] <+: nodes (out'.flatMap dispatched ++ ready') := by
      refine List.IsPrefix.trans ?_ (hpre.map ProcNode.proc)
      refine ⟨behind, ?_⟩
      rw [List.append_assoc]
      exact hqueue.symm
    refine List.prefix_or_prefix_of_prefix ?_ hfront
    exact (List.prefix_append _ ready').map ProcNode.proc
  obtain ⟨behind, hq | ⟨hhead, hq⟩⟩ := hx
  · obtain ⟨ready', hpre⟩ := prefix_of_run hinv hin halong' hrun'
    exact hboth (hinv.shape.readyQueue.unique hq) hpre
  · rcases later with - | ⟨e, later⟩
    · cases hhead
    · obtain rfl := Option.some.inj hhead
      obtain ⟨hqueue, ready', hpre⟩ := prefix_of_run_yield hinv hin halong' hrun'
      exact hboth (hqueue.unique hq) hpre

/-- Three processes are created, and the first one runs. -/
def threeProcesses : List SchedEvent :=
  [.createBegin 1, .createStep, .createStep, .createStep, .createStep,
    .createBegin 2, .createStep, .createStep, .createStep, .createStep,
    .createBegin 3, .createStep, .createStep, .createStep, .createStep, .runCheck, .yield]

/-- The running process yields behind two others, and both are dispatched before it. -/
theorem dispatched_in_order_threeProcesses :
    ∃ out s out' t, runTrace step boot threeProcesses = some (out, s) ∧
      StandsBehind s [.yield, .yield, .yield] [.proc 2, .proc 3] (.proc 1) ∧
      runTrace step s [.yield, .yield, .yield] = some (out', t) ∧
      ([.proc 2, .proc 3] ++ [.proc 1] <+: dispatches out') := by
  have hfirst : (runTrace step boot threeProcesses).isSome := by decide +kernel
  obtain ⟨⟨out, s⟩, hrun⟩ := Option.isSome_iff_exists.1 hfirst
  have hnext : (runTrace step boot threeProcesses).all (fun r ↦
      decide (IsQueue r.2.requeue.links .ready [.proc 2, .proc 3, .proc 1]) &&
        decide (Along step (fun s e ↦ s.AtomicExit e ∧ s.NoRace e) r.2 [.yield, .yield, .yield]) &&
        ((runTrace step r.2 [.yield, .yield, .yield]).any fun r' ↦
          (dispatches r'.1).length == 3)) = true := by decide +kernel
  rw [hrun, Option.all_some, Bool.and_eq_true, Bool.and_eq_true] at hnext
  obtain ⟨⟨hq, halong⟩, hany⟩ := hnext
  obtain ⟨⟨out', t⟩, hrun', hlen⟩ := (Option.any_eq_true _ _).1 hany
  have hbehind : StandsBehind s [.yield, .yield, .yield] [.proc 2, .proc 3] (.proc 1) :=
    ⟨[], Or.inr ⟨rfl, of_decide_eq_true hq⟩⟩
  refine ⟨out, s, out', t, hrun, hbehind, hrun', ?_⟩
  rcases (dispatched_in_order (by decide +kernel) hrun).2 (of_decide_eq_true halong) hrun' hbehind
    with h | h
  · exact (h.eq_of_length (beq_iff_eq.1 hlen)).symm ▸ List.prefix_refl _
  · exact h

/-- A process is woken inside the creation of the next one, with no other process ready. -/
def wakeThenDispatch : List SchedEvent :=
  createAndBlock ++ [.createBegin 2, .createStep, .interrupt [.unblockHead 0]]

/-- **The woken process is overtaken**: it is first in the ready queue, and the new process, which
joined later, is dispatched next. -/
theorem woken_process_is_overtaken :
    ∃ out s out' t, runTrace step boot wakeThenDispatch = some (out, s) ∧
      Along step AtomicExit boot wakeThenDispatch ∧
      StandsBehind s [.createStep, .createStep, .createStep, .runCheck, .yield] [] (.proc 1) ∧
      runTrace step s [.createStep, .createStep, .createStep, .runCheck, .yield] = some (out', t) ∧
      Along step AtomicExit s [.createStep, .createStep, .createStep, .runCheck, .yield] ∧
      dispatches out' = [.proc 2] := by
  have hfirst : (runTrace step boot wakeThenDispatch).isSome := by decide +kernel
  obtain ⟨⟨out, s⟩, hrun⟩ := Option.isSome_iff_exists.1 hfirst
  have hnext : (runTrace step boot wakeThenDispatch).all (fun r ↦
      decide (IsQueue r.2.links .ready [.proc 1]) &&
        decide (Along step AtomicExit r.2
          [.createStep, .createStep, .createStep, .runCheck, .yield]) &&
        ((runTrace step r.2 [.createStep, .createStep, .createStep, .runCheck, .yield]).any fun r' ↦
          dispatches r'.1 == [.proc 2])) = true := by decide +kernel
  rw [hrun, Option.all_some, Bool.and_eq_true, Bool.and_eq_true] at hnext
  obtain ⟨⟨hq, halong⟩, hany⟩ := hnext
  obtain ⟨⟨out', t⟩, hrun', hdisp⟩ := (Option.any_eq_true _ _).1 hany
  exact ⟨out, s, out', t, hrun, by decide +kernel, ⟨[], Or.inl (of_decide_eq_true hq)⟩, hrun',
    of_decide_eq_true halong, beq_iff_eq.1 hdisp⟩

end Marimba
