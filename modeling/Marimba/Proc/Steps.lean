import Marimba.Proc.Invariant

/-!
# Every step keeps the invariant

One lemma for each kind of step of the scheduler, and `Sched.inv_step` that puts them together. It
says four things of a step from a state with the invariant, as long as no interrupt comes in between
`curr_proc = NULL` and the rescheduling of `process_exit`:

* the invariant holds afterwards;
* nothing is lost by a step that does not race with an insertion;
* **the contexts that the step saved into or loaded are those of live processes**, and the loaded
  one is that selected by `PROC_reschedule` in the same trap;
* the main process is selected only when the ready queue is empty.

A rescheduling is cut in two: `requeue` puts the running process back and leaves a `Settled` state,
in which no process is loose, and `pick` makes the next one loose.
-/

namespace Marimba

open Links

namespace Sched

variable {s s' : Sched} {ready : List ℕ} {waits : ℕ → List ℕ} {place : ℕ → Place} {p q : ℕ}

/-- The main process, or a process whose struct is allocated. -/
def IsLive (s : Sched) (x : ProcNode) : Prop := x = .main ∨ ∃ p ∈ s.live, x = .proc p

/-- What must hold of a trap: contexts are saved into and loaded from live processes, and the loaded
one was selected by `PROC_reschedule` in this trap. -/
structure ReportOk (s s' : Sched) (r : IsrReport) : Prop where
  saved : ∀ x, r.saved = some x → s.IsLive x
  loaded : ∀ x, r.loaded = some x → s'.IsLive x ∧ r.selected = some x

theorem reportOk_of_none (selected : Option ProcNode) : ReportOk s s' ⟨none, none, selected⟩ :=
  ⟨fun _ h ↦ Option.noConfusion rfl (heq_of_eq h), fun _ h ↦ Option.noConfusion rfl (heq_of_eq h)⟩

/-! ### Rescheduling -/

/-- The state in which the selected process runs. -/
def resume (s : Sched) : Sched := { s with currProc := s.nextProc, pc := .user }

/-- Between the two halves of a rescheduling: no process is loose. -/
structure Settled (s : Sched) (ready : List ℕ) (waits : ℕ → List ℕ) (place : ℕ → Place) :
    Prop where
  shape : QueueShape s.links ready waits place
  nodup : s.live.Nodup
  free : ∀ p, place p = .free ↔ p ∉ s.live
  notLoose : ∀ p, place p ≠ .loose
  atEnd : AtEnd ready place (s.links.prev .ready)

/-- The running context may trap to yield here. -/
def CanYield (s : Sched) : Prop :=
  match s.pc with
  | .user => s.currProc ≠ .main
  | .blocking | .running | .exitNull => True
  | _ => False

theorem requeue_eq_self (h : s.currProc = .null ∨ s.sleepCurr = true) : s.requeue = s := by
  refine if_neg fun ⟨hn, hs⟩ ↦ ?_
  rcases h with h | h
  · exact hn h
  · rw [hs] at h
    cases h

/-- The ready queue with the running process put back, unless it is queued already or gone. -/
def requeued (s : Sched) (ready : List ℕ) : List ℕ :=
  match s.pc, s.currProc with
  | .user, .proc p => ready ++ [p]
  | _, _ => ready

/-- The running process goes to the end of the ready queue, unless it is queued already or gone. -/
theorem Inv.requeue (h : Inv s ready waits place) (hy : s.CanYield) :
    ∃ ready' place', Settled s.requeue ready' waits place' ∧
      (Intact s ready place → ready' = s.requeued ready ∧ ∀ p, place' p ≠ .lost) := by
  have hcontrol := h.control
  have hloose := h.loose
  have htail := h.tail
  cases hpc : s.pc with
  | user =>
    simp only [CanYield, Control, Loose, TailOk, hpc] at hy hcontrol hloose htail
    obtain ⟨p, hp, hsleep⟩ := hcontrol.2.resolve_left hy
    have hplace : place p = .loose := (hloose p).2 hp
    have heq : s.requeue = s.setLinks (LL.enqueue s.links .ready (.proc p)) := by
      rw [Sched.requeue, if_pos ⟨by rw [hp]; simp, hsleep⟩, procQueueEnqueue, hp]
    obtain ⟨ready', place', hshape, hlinked⟩ :=
      h.shape.enqueueReady hplace (h.shape.anchored_of_atEnd htail)
    refine ⟨ready', place', ?_, fun hin ↦ ?_⟩
    · rw [heq]
      refine ⟨hshape, h.nodup, fun x ↦ ?_, fun x hx ↦ ?_, ?_⟩
      · rw [hlinked.free_iff (by simp [hplace])]
        exact h.free x
      · obtain ⟨hne, hx⟩ := hlinked.loose_iff.1 hx
        have hx' := (hloose x).1 hx
        rw [hp] at hx'
        cases hx'
        exact hne rfl
      · show AtEnd ready' place' ((LL.enqueue s.links .ready (.proc p)).prev .ready)
        rw [LL.enqueue_prev_head]
        exact hlinked.atEnd
    · simp only [requeued, hpc, hp]
      exact hlinked.intact hin.notLost (h.tail_eq_of_intact (by simp [Inserting, hpc]) hin)
  | insert new prev k => simp only [CanYield, hpc] at hy
  | linked new => simp only [CanYield, hpc] at hy
  | exitFreed => simp only [CanYield, hpc] at hy
  | blocking | running | exitNull =>
    simp only [Control, Loose, TailOk, hpc] at hcontrol hloose htail
    refine ⟨ready, place, ?_, fun hin ↦ ⟨by simp only [requeued, hpc], hin.notLost⟩⟩
    rw [requeue_eq_self (by simp [hcontrol])]
    exact ⟨h.shape, h.nodup, h.free, fun p hp ↦ (hloose p).1 hp, htail⟩

theorem pick_nil (hq : IsQueue s.links .ready []) :
    s.pick = { s with nextProc := .main, sleepCurr := true } := by
  rw [pick, LL.dequeue_nil hq]

theorem pick_cons {rs : List ℕ} (hq : IsQueue s.links .ready (nodes (p :: rs))) :
    s.pick = { s with
      links := LL.del .null s.links (.proc p), nextProc := .proc p, sleepCurr := false } := by
  rw [pick, LL.dequeue_cons hq]

/-- **The selected process is live and runs next**, and it is the main process only when the ready
queue is empty. -/
theorem Settled.pick (h : Settled s ready waits place) :
    ∃ place', Inv s.pick.resume ready.tail waits place' ∧
      ((∀ p, place p ≠ .lost) → Intact s.pick.resume ready.tail place') ∧
      s.pick.resume.IsLive s.pick.nextProc ∧ s.pick.nextProc = (nodes ready).headD .main := by
  rcases ready with - | ⟨p, rs⟩
  · rw [pick_nil h.shape.readyQueue]
    refine ⟨place, ⟨h.shape, h.nodup, h.free, fun x ↦ ?_, ⟨rfl, Or.inl rfl⟩, h.atEnd, trivial⟩,
      fun hnl ↦ ⟨hnl, fun _ _ _ hpc ↦ ?_⟩, Or.inl rfl, rfl⟩
    · exact iff_of_false (h.notLoose x) (by simp [Loose, resume])
    · cases hpc
  · have hplace : place p = .ready := (h.shape.mem_ready p).1 List.mem_cons_self
    have hlive : p ∈ s.live := by
      by_contra hn
      rw [← h.free, hplace] at hn
      cases hn
    rw [pick_cons h.shape.readyQueue]
    refine ⟨Function.update place p .loose, ⟨h.shape.dequeueReady, h.nodup, fun x ↦ ?_,
      fun x ↦ ?_, ⟨rfl, Or.inr ⟨p, rfl, rfl⟩⟩, ?_, trivial⟩,
      fun hnl ↦ ⟨fun x ↦ ?_, fun _ _ _ hpc ↦ ?_⟩, Or.inr ⟨p, hlive, rfl⟩, rfl⟩
    · rcases eq_or_ne x p with rfl | hx
      · rw [Function.update_self]
        exact iff_of_false (by simp) fun hn ↦ hn hlive
      · rw [Function.update_of_ne hx]
        exact h.free x
    · show _ ↔ ProcNode.proc p = .proc x
      rcases eq_or_ne x p with rfl | hx
      · simp
      · rw [Function.update_of_ne hx, ProcNode.proc.injEq]
        exact iff_of_false (h.notLoose x) hx.symm
    · show AtEnd rs _ ((LL.del .null s.links (.proc p)).prev .ready)
      rw [LL.del_prev_head h.shape.readyQueue]
      rcases rs with - | ⟨r, rs⟩
      · exact Or.inl (if_pos rfl)
      · rw [if_neg (by simp)]
        rcases h.atEnd with hend | ⟨x, hx, hlost⟩
        · left
          rw [hend]
          simp only [List.map_cons, List.getLastD_cons]
        · refine Or.inr ⟨x, hx, ?_⟩
          rw [Function.update_of_ne]
          · exact hlost
          · rintro rfl
            rw [hplace] at hlost
            cases hlost
    · rcases eq_or_ne x p with rfl | hx
      · simp
      · rw [Function.update_of_ne hx]
        exact hnl x
    · cases hpc

theorem requeue_currProc (s : Sched) : s.requeue.currProc = s.currProc := by
  rw [requeue]
  split <;> rfl

theorem requeue_live (s : Sched) : s.requeue.live = s.live := by
  rw [requeue]
  split <;> rfl

theorem pick_currProc (s : Sched) : s.pick.currProc = s.currProc := by
  rw [pick]
  split <;> rfl

theorem requeue_irqSemaphore (s : Sched) : s.requeue.irqSemaphore = s.irqSemaphore := by
  rw [requeue]
  split <;> rfl

theorem pick_irqSemaphore (s : Sched) : s.pick.irqSemaphore = s.irqSemaphore := by
  rw [pick]
  split <;> rfl

theorem pick_live (s : Sched) : s.pick.live = s.live := by
  rw [pick]
  split <;> rfl

theorem requeue_irqDisable (s : Sched) : s.irqDisable.requeue = s.requeue.irqDisable := by
  obtain ⟨l, curr, next, sleep, irq, live, pc⟩ := s
  by_cases h : curr ≠ .null ∧ sleep = false
  · rw [requeue, requeue, if_pos (by exact h), if_pos (by exact h)]
    rfl
  · rw [requeue, requeue, if_neg (by exact h), if_neg (by exact h)]

theorem pick_irqDisable (s : Sched) : s.irqDisable.pick = s.pick.irqDisable := by
  obtain ⟨l, curr, next, sleep, irq, live, pc⟩ := s
  simp only [pick, irqDisable]
  split <;> rfl

/-- The end of a `yield` trap: whether the contexts are switched or not, the selected process runs
next. -/
theorem isrSwitch_reschedule (t : Sched) (selected : Option ProcNode) :
    let r := isrSwitch (if t.currProc = t.nextProc then t.irqEnable else t) selected
    r.1 = ⟨if t.currProc = t.nextProc ∨ t.currProc = .null then none else some t.currProc,
        if t.currProc = t.nextProc then none else some t.nextProc, selected⟩ ∧
      { r.2 with pc := .user } = t.resume.irqEnable := by
  obtain ⟨l, curr, next, sleep, irq, live, pc⟩ := t
  rcases eq_or_ne curr next with rfl | hne
  · simp [isrSwitch, irqEnable, resume]
  · simp [isrSwitch, irqEnable, resume, hne]

/-- What the `yield` trap does: put the running process back, pick the next one, and run it. -/
theorem yieldTrap_eq (s : Sched) :
    s.yieldTrap =
      (⟨if s.currProc = s.requeue.pick.nextProc ∨ s.currProc = .null then none
          else some s.currProc,
        if s.currProc = s.requeue.pick.nextProc then none else some s.requeue.pick.nextProc,
        some s.requeue.pick.nextProc⟩,
      s.requeue.pick.irqDisable.resume.irqEnable) := by
  have hcurr : s.requeue.pick.irqDisable.currProc = s.currProc :=
    (pick_currProc _).trans (requeue_currProc s)
  have hnext : s.reschedule.nextProc = s.requeue.pick.irqDisable.nextProc := by
    rw [reschedule, requeue_irqDisable, pick_irqDisable]
    split <;> rfl
  have hswitch := isrSwitch_reschedule s.requeue.pick.irqDisable (some s.reschedule.nextProc)
  rw [hcurr] at hswitch
  have hres : s.reschedule =
      if s.currProc = s.requeue.pick.irqDisable.nextProc then s.requeue.pick.irqDisable.irqEnable
      else s.requeue.pick.irqDisable := by
    rw [reschedule, requeue_irqDisable, pick_irqDisable]
    simp only [hcurr]
  rw [yieldTrap]
  refine Prod.ext ?_ ?_
  · rw [hres] at hswitch ⊢
    exact hswitch.1.trans (by rw [← hres, hnext]; rfl)
  · rw [hres] at hswitch ⊢
    exact hswitch.2

theorem yieldTrap_irqSemaphore (hsem : s.irqSemaphore = 0) :
    s.yieldTrap.2.irqSemaphore = 0 := by
  rw [yieldTrap_eq]
  show (s.requeue.pick.irqSemaphore + 1) % 2 ^ 32 - 1 = 0
  rw [pick_irqSemaphore, requeue_irqSemaphore, hsem]
  rfl

theorem yieldTrap_live (s : Sched) : s.yieldTrap.2.live = s.live := by
  rw [yieldTrap_eq]
  exact (pick_live _).trans (requeue_live _)

/-- A context is saved into the running process, and only when that does not go on running. -/
theorem yieldTrap_saved (s : Sched) :
    s.yieldTrap.1.saved = if s.currProc = s.yieldTrap.2.currProc ∨ s.currProc = .null then none
      else some s.currProc := by
  rw [yieldTrap_eq]
  rfl

/-- The process that runs next is loaded, unless it was running. -/
theorem yieldTrap_loaded (s : Sched) :
    s.yieldTrap.1.loaded = if s.currProc = s.yieldTrap.2.currProc then none
      else some s.yieldTrap.2.currProc := by
  rw [yieldTrap_eq]
  rfl

/-- A running context that may yield belongs to a live process, unless that has just exited. -/
theorem Inv.isLive_currProc (h : Inv s ready waits place) (hy : s.CanYield)
    (hne : s.currProc ≠ .null) : s.IsLive s.currProc := by
  have hcontrol := h.control
  cases hpc : s.pc with
  | user =>
    simp only [Control, hpc] at hcontrol
    rcases hcontrol.2 with hm | ⟨p, hp, -⟩
    · exact Or.inl hm
    · refine Or.inr ⟨p, ?_, hp⟩
      by_contra hn
      rw [← h.free, (h.loose p).2 (by simpa only [Loose, hpc] using hp)] at hn
      cases hn
  | blocking =>
    simp only [Control, hpc] at hcontrol
    obtain ⟨-, -, p, hp, he⟩ := hcontrol
    exact Or.inr ⟨p, hp, he⟩
  | running =>
    simp only [Control, hpc] at hcontrol
    exact Or.inl hcontrol.2.2
  | exitNull =>
    simp only [Control, hpc] at hcontrol
    exact absurd hcontrol hne
  | insert new prev k => simp only [CanYield, hpc] at hy
  | linked new => simp only [CanYield, hpc] at hy
  | exitFreed => simp only [CanYield, hpc] at hy

/-- **The `yield` trap.** -/
theorem Inv.yieldTrap (h : Inv s ready waits place) (hy : s.CanYield) :
    ∃ ready' place', Inv s.yieldTrap.2 ready' waits place' ∧
      (Intact s ready place → Intact s.yieldTrap.2 ready' place' ∧
        ready' = (s.requeued ready).tail ∧
        s.yieldTrap.2.currProc = (nodes (s.requeued ready)).headD .main) ∧
      ReportOk s s.yieldTrap.2 s.yieldTrap.1 ∧
      (s.yieldTrap.1.selected = some .main → ready' = []) := by
  obtain ⟨r₁, p₁, hsettled, hlost⟩ := h.requeue hy
  obtain ⟨place', hinv, hint, hlive, hhead⟩ := hsettled.pick
  rw [yieldTrap_eq]
  refine ⟨r₁.tail, place', hinv.setIrq _, fun hin ↦ ?_, ⟨fun x hx ↦ ?_, fun x hx ↦ ?_⟩,
    fun hsel ↦ ?_⟩
  · obtain ⟨rfl, hnl⟩ := hlost hin
    exact ⟨⟨(hint hnl).notLost, (hint hnl).loaded⟩, rfl, hhead⟩
  · by_cases hc : s.currProc = s.requeue.pick.nextProc ∨ s.currProc = .null
    · rw [if_pos hc] at hx
      cases hx
    · rw [if_neg hc] at hx
      obtain rfl := Option.some.inj hx
      exact h.isLive_currProc hy fun hn ↦ hc (Or.inr hn)
  · by_cases hc : s.currProc = s.requeue.pick.nextProc
    · rw [if_pos hc] at hx
      cases hx
    · rw [if_neg hc] at hx
      obtain rfl := Option.some.inj hx
      exact ⟨hlive, rfl⟩
  · have hmain := hhead.symm.trans (Option.some.inj hsel)
    rcases r₁ with - | ⟨p, rs⟩
    · rfl
    · cases hmain

/-! ### Creation -/

/-- The new process is loose, and the tail pointer is loaded. -/
theorem Inv.createBegin {new : ℕ} (h : Inv s ready waits place) (hpc : s.pc = .user)
    (hnew : new ∉ s.live) :
    ∃ place', Inv (s.createBegin new) ready waits place' ∧
      (Intact s ready place → Intact (s.createBegin new) ready place') := by
  have hfree : place new = .free := (h.free new).2 hnew
  have hcontrol := h.control
  have hloose := h.loose
  have htail := h.tail
  simp only [Control, Loose, TailOk, hpc] at hcontrol hloose htail
  have hcurr : s.currProc ≠ .proc new := fun he ↦ by
    rw [← hloose, hfree] at he
    cases he
  have hshape : QueueShape s.links ready waits (Function.update place new .loose) :=
    h.shape.update_place (by simp [hfree]) (by simp)
  have hother : ∀ x, x ≠ new → Function.update place new Place.loose x = place x := fun x hx ↦
    Function.update_of_ne hx ..
  have hne : ∀ x, (∀ p, x = ProcNode.proc p → Function.update place new .loose p = .ready ∨
      ∃ q, Function.update place new .loose p = .wait q) → x ≠ .proc new := by
    rintro x hx rfl
    have hnot := hx new rfl
    simp at hnot
  have hend : AtEnd ready (Function.update place new .loose) (s.links.prev .ready) := by
    rcases htail with he | ⟨p, he, hp⟩
    · exact Or.inl he
    · refine Or.inr ⟨p, he, ?_⟩
      rw [hother p fun hpn ↦ ?_]
      · exact hp
      · rw [hpn, hfree] at hp
        cases hp
  have hkeep : (s.createBegin new).links.prev .ready = s.links.prev .ready :=
    setPrev_prev_of_ne (by simp)
  refine ⟨Function.update place new .loose,
    ⟨?_, ?_, fun x ↦ ?_, fun x ↦ ?_, ⟨hcurr, hcontrol⟩, ?_, ?_⟩,
    fun hin ↦ ⟨fun x ↦ ?_, fun new' prev k hpc' ↦ ?_⟩⟩
  · refine hshape.congr (fun x hx ↦ ?_) fun x hx _ ↦ ?_
    · exact setNext_next_of_ne (hne x hx)
    · exact setPrev_prev_of_ne (hne x hx)
  · exact List.nodup_cons.2 ⟨hnew, h.nodup⟩
  · show _ ↔ x ∉ new :: s.live
    rcases eq_or_ne x new with rfl | hx
    · simp
    · rw [hother x hx, h.free, List.mem_cons, not_or]
      exact ⟨fun hn ↦ ⟨hx, hn⟩, fun hn ↦ hn.2⟩
  · show _ ↔ s.currProc = .proc x ∨ x = new
    rcases eq_or_ne x new with rfl | hx
    · simp
    · rw [hother x hx, hloose, or_iff_left hx]
  · show AtEnd ready _ _
    rw [hkeep]
    exact hend
  · exact ⟨hshape.anchored_of_atEnd hend, fun hk ↦ absurd rfl hk, fun hk ↦ by cases hk⟩
  · rcases eq_or_ne x new with rfl | hx
    · simp
    · rw [hother x hx]
      exact hin.notLost x
  · cases hpc'
    exact h.tail_eq_of_intact (by simp [Inserting, hpc]) hin

/-- The writes of the insertion. The third one links the process in, behind the loaded node. -/
theorem Inv.insertStep {new : ℕ} {prev : ProcNode} {k : InsertPc} (h : Inv s ready waits place)
    (hpc : s.pc = .insert new prev k) :
    ∃ ready' place', Inv (s.insertStep new prev k) ready' waits place' ∧
      (Intact s ready place → Intact (s.insertStep new prev k) ready' place' ∧
        ready' = if k = .prevSet then ready ++ [new] else ready) := by
  have hcontrol := h.control
  have hloose := h.loose
  have htail := h.tail
  have hins := h.insertion
  simp only [Control, Loose, TailOk, InsertOk, hpc] at hcontrol hloose htail hins
  have hnew : place new = .loose := (hloose new).2 (Or.inr rfl)
  have hne : ∀ x, (∀ p, x = ProcNode.proc p → place p = .ready ∨ ∃ q, place p = .wait q) →
      x ≠ .proc new := by
    rintro x hx rfl
    have hnot := hx new rfl
    simp [hnew] at hnot
  have hprevNe : prev ≠ .proc new := hins.1.ne_proc (by simp [hnew])
  cases k with
  | loaded =>
    refine ⟨ready, place, ⟨?_, h.nodup, h.free, hloose, hcontrol, htail, ?_⟩, fun hin ↦
      ⟨⟨hin.notLost, fun _ _ _ hpc' ↦ ?_⟩, rfl⟩⟩
    · exact h.shape.congr (fun x hx ↦ setNext_next_of_ne (hne x hx)) fun x _ _ ↦ rfl
    · exact ⟨hins.1, fun _ ↦ setNext_next_self, fun hk ↦ by cases hk⟩
    · cases hpc'
      exact hin.loaded _ _ _ hpc
  | nextSet =>
    have hkeep : (s.links.setPrev (.proc new) prev).prev .ready = s.links.prev .ready :=
      setPrev_prev_of_ne (by simp)
    refine ⟨ready, place, ⟨?_, h.nodup, h.free, hloose, hcontrol, ?_, ?_⟩, fun hin ↦
      ⟨⟨hin.notLost, fun _ _ _ hpc' ↦ ?_⟩, rfl⟩⟩
    · exact h.shape.congr (fun x _ ↦ rfl) fun x hx _ ↦ setPrev_prev_of_ne (hne x hx)
    · show AtEnd ready place ((s.links.setPrev (.proc new) prev).prev .ready)
      rw [hkeep]
      exact htail
    · exact ⟨hins.1, fun _ ↦ hins.2.1 (by simp), fun _ ↦ setPrev_prev_self⟩
    · cases hpc'
      exact hin.loaded _ _ _ hpc
  | prevSet =>
    obtain ⟨ready', place', hshape, hlinked⟩ :
        ∃ ready' place', QueueShape (s.links.setNext prev (.proc new)) ready' waits place' ∧
          QueueShape.Linked ready ready' place place' prev new :=
      h.shape.exists_linked hnew hins.1 (fun x _ hx ↦ setNext_next_of_ne hx) (fun x _ _ ↦ rfl)
        setNext_next_self (hins.2.2 rfl)
        ((setNext_next_of_ne hprevNe.symm).trans (hins.2.1 (by simp)))
    have hanch := h.shape.anchored_of_atEnd htail
    refine ⟨ready', place', ⟨hshape, h.nodup, fun x ↦ ?_, fun x ↦ ?_, hcontrol, ?_,
      hlinked.atEnd⟩, fun hin ↦ ?_⟩
    · rw [hlinked.free_iff (by simp [hnew])]
      exact h.free x
    · show _ ↔ s.currProc = .proc x
      rw [hlinked.loose_iff, hloose]
      refine ⟨fun hx ↦ hx.2.resolve_right hx.1, fun he ↦ ⟨?_, Or.inl he⟩⟩
      rintro rfl
      exact hcontrol.1 he
    · exact ⟨hlinked.anchored hnew hanch, hanch.ne_proc (by simp [hnew])⟩
    · obtain ⟨happ, hnl⟩ := hlinked.intact hin.notLost (hin.loaded _ _ _ hpc)
      exact ⟨⟨hnl, fun _ _ _ hpc' ↦ by cases hpc'⟩, happ⟩

/-- The last write makes the new process the tail. -/
theorem Inv.insertEnd {new : ℕ} (h : Inv s ready waits place) (hpc : s.pc = .linked new) :
    Inv (s.insertEnd new) ready waits place ∧
      (Intact s ready place → Intact (s.insertEnd new) ready place) := by
  have hcontrol := h.control
  have hloose := h.loose
  have hins := h.insertion
  simp only [Control, Loose, InsertOk, hpc] at hcontrol hloose hins
  refine ⟨⟨?_, h.nodup, h.free, hloose, hcontrol.2, ?_, trivial⟩, fun hin ↦
    ⟨hin.notLost, fun _ _ _ hpc' ↦ ?_⟩⟩
  · exact h.shape.congr (fun x _ ↦ rfl) fun x _ hx ↦ setPrev_prev_of_ne hx
  · show AtEnd ready place ((s.links.setPrev .ready (.proc new)).prev .ready)
    rw [setPrev_prev_self]
    exact hins
  · cases hpc'

/-! ### Blocking, the loop of the main process, and exit -/

/-- No process is loose once the running process, the only one, has got another place. -/
theorem not_loose_update {a : Place} (hloose : ∀ x, place x = .loose ↔ s.currProc = .proc x)
    (hp : s.currProc = .proc p) (ha : a ≠ .loose) (x : ℕ) :
    Function.update place p a x ≠ .loose := by
  rcases eq_or_ne x p with rfl | hx
  · rwa [Function.update_self]
  · rw [Function.update_of_ne hx, Ne, hloose, hp]
    rintro ⟨⟩
    exact hx rfl

/-- The running process goes to the end of the wait queue. -/
theorem Inv.blockOn (h : Inv s ready waits place) (hpc : s.pc = .user)
    (hp : s.currProc = .proc p) (q : ℕ) (enableInts : Bool) :
    ∃ place', Inv (s.blockOn q enableInts) ready (Function.update waits q (waits q ++ [p])) place' ∧
      (Intact s ready place → Intact (s.blockOn q enableInts) ready place') := by
  have hcontrol := h.control
  have hloose := h.loose
  have htail := h.tail
  simp only [Control, Loose, TailOk, hpc] at hcontrol hloose htail
  have hplace : place p = .loose := (hloose p).2 hp
  have hlive : p ∈ s.live := by
    by_contra hn
    rw [← h.free, hplace] at hn
    cases hn
  have hother : ∀ x, x ≠ p → Function.update place p (.wait q) x = place x := fun x hx ↦
    Function.update_of_ne hx ..
  -- the tail pointer of the ready queue is not that of a wait queue
  have hkeep : (LL.enqueue s.links (.wait q) (.proc p)).prev .ready = s.links.prev .ready :=
    LL.llAdd_prev_of_ne (by simp) (by simp)
  have hinv : Inv { s.procQueueEnqueue (.wait q) s.currProc with
      sleepCurr := true, pc := .blocking } ready (Function.update waits q (waits q ++ [p]))
      (Function.update place p (.wait q)) := by
    refine ⟨?_, h.nodup, fun x ↦ ?_, fun x ↦ ?_, ⟨hcontrol.1, rfl, p, hlive, hp⟩, ?_, trivial⟩
    · show QueueShape (LL.enqueue s.links (.wait q) s.currProc) _ _ _
      rw [hp]
      exact h.shape.enqueueWait hplace q
    · rcases eq_or_ne x p with rfl | hx
      · rw [Function.update_self]
        exact iff_of_false (by simp) fun hn ↦ hn hlive
      · rw [hother x hx]
        exact h.free x
    · exact iff_of_false (not_loose_update hloose hp (by simp) x) id
    · show AtEnd ready _ ((LL.enqueue s.links (.wait q) s.currProc).prev .ready)
      rw [hp, hkeep]
      exact htail.update (by simp [hplace])
  have hint : Intact s ready place → ∀ x, Function.update place p (.wait q) x ≠ .lost := by
    intro hin x
    rcases eq_or_ne x p with rfl | hx
    · simp
    · rw [hother x hx]
      exact hin.notLost x
  refine ⟨Function.update place p (.wait q), ?_, fun hin ↦ ⟨hint hin, fun _ _ _ hpc' ↦ ?_⟩⟩
  · rw [Sched.blockOn]
    split
    · exact hinv.setIrq _
    · exact hinv
  · rw [Sched.blockOn] at hpc'
    split at hpc' <;> cases hpc'

/-- The main process goes on, or is about to yield. -/
theorem Inv.runCheck (h : Inv s ready waits place) (hpc : s.pc = .user)
    (hm : s.currProc = .main) :
    Inv s.runCheck ready waits place ∧ (Intact s ready place → Intact s.runCheck ready place) := by
  have hcontrol := h.control
  have hloose := h.loose
  have htail := h.tail
  simp only [Control, Loose, TailOk, hpc] at hcontrol hloose htail
  rw [Sched.runCheck]
  split
  · exact ⟨h.setIrq _, fun hin ↦ ⟨hin.notLost, hin.loaded⟩⟩
  · refine ⟨⟨h.shape, h.nodup, h.free, fun x ↦ ?_, ⟨hcontrol.1, rfl, hm⟩, htail, trivial⟩,
      fun hin ↦ ⟨hin.notLost, fun _ _ _ hpc' ↦ ?_⟩⟩
    · refine iff_of_false (fun hl ↦ ?_) id
      rw [hloose, hm] at hl
      cases hl
    · cases hpc'

/-- The struct of the running process is freed. -/
theorem Inv.exitFree (h : Inv s ready waits place) (hpc : s.pc = .user)
    (hp : s.currProc = .proc p) :
    ∃ place', Inv { s with live := s.live.erase p, pc := .exitFreed } ready waits place' ∧
      (Intact s ready place →
        Intact { s with live := s.live.erase p, pc := .exitFreed } ready place') := by
  have hcontrol := h.control
  have hloose := h.loose
  have htail := h.tail
  simp only [Control, Loose, TailOk, hpc] at hcontrol hloose htail
  have hplace : place p = .loose := (hloose p).2 hp
  have hother : ∀ x, x ≠ p → Function.update place p Place.free x = place x := fun x hx ↦
    Function.update_of_ne hx ..
  refine ⟨Function.update place p .free, ⟨?_, h.nodup.erase p, fun x ↦ ?_, fun x ↦ ?_,
    ⟨hcontrol.1, p, hp, h.nodup.not_mem_erase⟩, ?_, trivial⟩,
    fun hin ↦ ⟨fun x ↦ ?_, fun _ _ _ hpc' ↦ ?_⟩⟩
  · exact h.shape.update_place (by simp [hplace]) (by simp)
  · show _ ↔ x ∉ s.live.erase p
    rcases eq_or_ne x p with rfl | hx
    · rw [Function.update_self]
      exact iff_of_true rfl h.nodup.not_mem_erase
    · rw [hother x hx, h.free, List.mem_erase_of_ne hx]
  · exact iff_of_false (not_loose_update hloose hp (by simp) x) id
  · exact htail.update (by simp [hplace])
  · rcases eq_or_ne x p with rfl | hx
    · simp
    · rw [hother x hx]
      exact hin.notLost x
  · cases hpc'

/-- `curr_proc` is cleared. -/
theorem Inv.exitClear (h : Inv s ready waits place) (hpc : s.pc = .exitFreed) :
    Inv { s with currProc := .null, pc := .exitNull } ready waits place ∧
      (Intact s ready place →
        Intact { s with currProc := .null, pc := .exitNull } ready place) := by
  have hloose := h.loose
  have htail := h.tail
  simp only [Loose, TailOk, hpc] at hloose htail
  exact ⟨⟨h.shape, h.nodup, h.free, hloose, rfl, htail, trivial⟩, fun hin ↦
    ⟨hin.notLost, fun _ _ _ hpc' ↦ by cases hpc'⟩⟩

/-! ### Interrupts -/

/-- Outside of the window of `process_exit` the two processes agree, so that an interrupt does not
switch contexts. -/
theorem Inv.nextProc_eq_currProc (h : Inv s ready waits place) (hpc : s.pc ≠ .exitNull) :
    s.nextProc = s.currProc := by
  have hcontrol := h.control
  rw [Control] at hcontrol
  split at hcontrol
  · exact hcontrol.1
  · exact hcontrol.2.1
  · exact hcontrol.2.1
  · exact hcontrol.1
  · exact hcontrol.1
  · exact hcontrol.1
  · next he => exact absurd he hpc

/-- A hardware interrupt is the wake-ups of its handler. -/
theorem Inv.hardwareInterrupt_eq {ws : List Wake} {t : Sched} (h : Inv s ready waits place)
    (hpc : s.pc ≠ .exitNull)
    (ht : Sched.wakeAll { s with irqSemaphore := (s.irqSemaphore + 1) % 2 ^ 32 } ws = some t)
    (htouch : Touched { s with irqSemaphore := (s.irqSemaphore + 1) % 2 ^ 32 } t) :
    s.hardwareInterrupt ws =
      some (.quiet, { t with irqSemaphore := (t.irqSemaphore + (2 ^ 32 - 1)) % 2 ^ 32 }) := by
  have hagree : t.currProc = t.nextProc := by
    rw [htouch.currProc_eq, htouch.nextProc_eq]
    exact (h.nextProc_eq_currProc hpc).symm
  have hswitch : t.isrSwitch none = (.quiet, t) := if_pos hagree
  rw [Sched.hardwareInterrupt, ht, Option.map_some, hswitch]

/-- **A hardware interrupt** changes pointers only, and loses nothing outside of an insertion or
when its wake-ups find empty queues. -/
theorem Inv.hardwareInterrupt {r : IsrReport} {ws : List Wake} (h : Inv s ready waits place)
    (hpc : s.pc ≠ .exitNull) (hstep : s.hardwareInterrupt ws = some (r, s')) :
    r = .quiet ∧ ∃ ready' waits' place', Inv s' ready' waits' place' ∧
      ((s.Inserting → ∀ w ∈ ws, LL.empty s.links (.wait w.queue) = true) →
        Intact s ready place → Intact s' ready' place' ∧ ready <+: ready') := by
  have h₀ := h.setIrq ((s.irqSemaphore + 1) % 2 ^ 32)
  obtain ⟨t, ht, htouch, hquiet, ready', place', hinv, hint⟩ := h₀.wakeAll ws
  rw [h.hardwareInterrupt_eq hpc ht htouch] at hstep
  obtain ⟨rfl, rfl⟩ := Prod.mk.inj (Option.some.inj hstep)
  refine ⟨rfl, ?_⟩
  by_cases he : ∀ w ∈ ws, LL.empty s.links (.wait w.queue) = true
  · -- no queue has a process to wake: the pointers are the same
    have hsame : { t with irqSemaphore := (t.irqSemaphore + (2 ^ 32 - 1)) % 2 ^ 32 } =
        { s with irqSemaphore := (t.irqSemaphore + (2 ^ 32 - 1)) % 2 ^ 32 } := by
      have hl := hquiet he
      rw [Touched] at htouch
      rw [htouch]
      simp only [hl]
    rw [hsame]
    exact ⟨ready, waits, place, h.setIrq _, fun _ hin ↦
      ⟨⟨hin.notLost, hin.loaded⟩, List.prefix_refl ready⟩⟩
  · refine ⟨ready', _, place', hinv.setIrq _, fun hrace hin ↦ ?_⟩
    obtain ⟨rfl, hkept⟩ := hint (fun hni ↦ he (hrace hni)) ⟨hin.notLost, hin.loaded⟩
    exact ⟨⟨hkept.notLost, hkept.loaded⟩, List.prefix_append ..⟩

/-- A wake-up lowers the counter again. -/
theorem wake_irqSemaphore {w : Wake} (hlt : s.irqSemaphore + 1 < 2 ^ 32)
    (hwake : s.wake w = some s') : s'.irqSemaphore = s.irqSemaphore := by
  have hback : (s.irqSemaphore + 1) % 2 ^ 32 - 1 = s.irqSemaphore := by
    rw [Nat.mod_eq_of_lt hlt, Nat.add_sub_cancel]
  cases w with
  | unblockHead q =>
    obtain rfl := Option.some.inj hwake
    rw [unblockHead]
    split
    · rfl
    · exact hback
  | unblockAll q =>
    obtain ⟨l, -, rfl⟩ := Option.map_eq_some_iff.1 hwake
    exact hback

theorem wakeAll_irqSemaphore {ws : List Wake} (hlt : s.irqSemaphore + 1 < 2 ^ 32)
    (hwake : s.wakeAll ws = some s') : s'.irqSemaphore = s.irqSemaphore := by
  induction ws generalizing s with
  | nil =>
    obtain rfl := Option.some.inj hwake
    rfl
  | cons w ws ih =>
    obtain ⟨t, ht, hrest⟩ := Option.bind_eq_some_iff.1 hwake
    have hone := wake_irqSemaphore hlt ht
    rw [ih (by rwa [hone]) hrest, hone]

/-- An interrupt that does not switch contexts changes pointers only. -/
theorem Inv.hardwareInterrupt_touched {r : IsrReport} {ws : List Wake} (h : Inv s ready waits place)
    (hpc : s.pc ≠ .exitNull) (hsem : s.irqSemaphore = 0)
    (hstep : s.hardwareInterrupt ws = some (r, s')) :
    s'.currProc = s.currProc ∧ s'.live = s.live ∧ s'.pc = s.pc ∧ s'.irqSemaphore = 0 := by
  obtain ⟨t, ht, htouch, -⟩ := (h.setIrq ((s.irqSemaphore + 1) % 2 ^ 32)).wakeAll ws
  have hraised : (s.irqSemaphore + 1) % 2 ^ 32 = 1 := by omega
  have hone : t.irqSemaphore = (s.irqSemaphore + 1) % 2 ^ 32 :=
    wakeAll_irqSemaphore (show (s.irqSemaphore + 1) % 2 ^ 32 + 1 < 2 ^ 32 by omega) ht
  rw [h.hardwareInterrupt_eq hpc ht htouch] at hstep
  obtain ⟨-, rfl⟩ := Prod.mk.inj (Option.some.inj hstep)
  refine ⟨htouch.currProc_eq, ?_, htouch.pc_eq, ?_⟩
  · show t.live = s.live
    rw [htouch]
  · show (t.irqSemaphore + (2 ^ 32 - 1)) % 2 ^ 32 = 0
    omega

/-! ### All steps -/

/-- No interrupt comes in after `process_exit` has cleared `curr_proc` and before the
rescheduling. -/
def SparesExit (s : Sched) : SchedEvent → Prop
  | .interrupt _ => s.pc ≠ .exitNull
  | _ => True

/-- No interrupt handler moves a process to the ready queue while `PROC_create_process` is linking
one in. -/
def NoRace (s : Sched) : SchedEvent → Prop
  | .interrupt ws => s.Inserting → ∀ w ∈ ws, LL.empty s.links (.wait w.queue) = true
  | _ => True

/-- The process a trap dispatches from the ready queue. -/
def dispatched (r : IsrReport) : List ℕ :=
  match r.selected with
  | some (.proc p) => [p]
  | _ => []

/-- A `yield` dispatches the first ready process, after the running one is put back. -/
theorem dispatched_yieldTrap
    (hcurr : s.yieldTrap.2.currProc = (nodes (s.requeued ready)).headD .main) :
    dispatched s.yieldTrap.1 ++ (s.requeued ready).tail = s.requeued ready := by
  have hsel : s.yieldTrap.1.selected = some ((nodes (s.requeued ready)).headD .main) := by
    rw [← hcurr, yieldTrap_eq]
    rfl
  rw [dispatched, hsel]
  cases s.requeued ready <;> rfl

theorem canYield_of_step {r : IsrReport} (hstep : s.step .yield = some (r, s')) :
    s.CanYield ∧ s.yieldTrap = (r, s') := by
  simp only [step, CanYield] at hstep ⊢
  split at hstep <;> simp_all

theorem prefix_requeued (s : Sched) (ready : List ℕ) : ready <+: s.requeued ready := by
  rw [requeued]
  split
  · exact List.prefix_append ..
  · exact List.prefix_refl ready

/-- **Every step keeps the invariant.** Without the race the ready queue is a queue: what leaves it
leaves at the front, and the rest stays in order. -/
theorem inv_step {e : SchedEvent} {r : IsrReport} (h : Inv s ready waits place)
    (hspare : s.SparesExit e) (hstep : s.step e = some (r, s')) :
    ∃ ready' waits' place', Inv s' ready' waits' place' ∧
      (s.NoRace e → Intact s ready place →
        Intact s' ready' place' ∧ ready <+: dispatched r ++ ready') ∧ ReportOk s s' r ∧
      (r.selected = some .main → ready' = []) := by
  cases e with
  | irqDisable =>
    obtain ⟨-, heq⟩ := Option.ite_none_right_eq_some.1 hstep
    cases heq
    exact ⟨ready, waits, place, h.setIrq _, fun _ hin ↦
      ⟨⟨hin.notLost, hin.loaded⟩, List.prefix_refl ready⟩, reportOk_of_none _,
      fun hs ↦ by cases hs⟩
  | irqEnable =>
    obtain ⟨-, heq⟩ := Option.ite_none_right_eq_some.1 hstep
    cases heq
    exact ⟨ready, waits, place, h.setIrq _, fun _ hin ↦
      ⟨⟨hin.notLost, hin.loaded⟩, List.prefix_refl ready⟩, reportOk_of_none _,
      fun hs ↦ by cases hs⟩
  | createBegin new =>
    obtain ⟨⟨hpc, hnew⟩, heq⟩ := Option.ite_none_right_eq_some.1 hstep
    cases heq
    obtain ⟨place', hinv, hint⟩ := h.createBegin hpc hnew
    exact ⟨ready, waits, place', hinv, fun _ hin ↦ ⟨hint hin, List.prefix_refl ready⟩,
      reportOk_of_none _, fun hs ↦ by cases hs⟩
  | createStep =>
    simp only [step] at hstep
    split at hstep
    · next new prev k hpc =>
      cases hstep
      obtain ⟨ready', place', hinv, hint⟩ := h.insertStep hpc
      refine ⟨ready', waits, place', hinv, fun _ hin ↦ ⟨(hint hin).1, ?_⟩, reportOk_of_none _,
        fun hs ↦ by cases hs⟩
      rw [(hint hin).2]
      split
      · exact List.prefix_append ..
      · exact List.prefix_refl ready
    · next new hpc =>
      cases hstep
      obtain ⟨hinv, hint⟩ := h.insertEnd hpc
      exact ⟨ready, waits, place, hinv, fun _ hin ↦ ⟨hint hin, List.prefix_refl ready⟩,
        reportOk_of_none _, fun hs ↦ by cases hs⟩
    · cases hstep
  | yield =>
    have hy := canYield_of_step hstep
    obtain ⟨ready', place', hinv, hint, hreport, hmain⟩ := h.yieldTrap hy.1
    obtain ⟨rfl, rfl⟩ : s.yieldTrap.1 = r ∧ s.yieldTrap.2 = s' := by rw [hy.2]; exact ⟨rfl, rfl⟩
    refine ⟨ready', waits, place', hinv, fun _ hin ↦ ⟨(hint hin).1, ?_⟩, hreport, hmain⟩
    obtain ⟨-, rfl, hcurr⟩ := hint hin
    rw [dispatched_yieldTrap hcurr]
    exact prefix_requeued s ready
  | blockOn q enableInts =>
    obtain ⟨⟨hpc, hm, -⟩, heq⟩ := Option.ite_none_right_eq_some.1 hstep
    cases heq
    have hcontrol := h.control
    simp only [Control, hpc] at hcontrol
    obtain ⟨p, hp, -⟩ := hcontrol.2.resolve_left hm
    obtain ⟨place', hinv, hint⟩ := h.blockOn hpc hp q enableInts
    exact ⟨ready, _, place', hinv, fun _ hin ↦ ⟨hint hin, List.prefix_refl ready⟩,
      reportOk_of_none _, fun hs ↦ by cases hs⟩
  | runCheck =>
    obtain ⟨⟨hpc, hm⟩, heq⟩ := Option.ite_none_right_eq_some.1 hstep
    cases heq
    obtain ⟨hinv, hint⟩ := h.runCheck hpc hm
    exact ⟨ready, waits, place, hinv, fun _ hin ↦ ⟨hint hin, List.prefix_refl ready⟩,
      reportOk_of_none _, fun hs ↦ by cases hs⟩
  | exitFree =>
    simp only [step] at hstep
    split at hstep
    · next p hpc hp =>
      cases hstep
      obtain ⟨place', hinv, hint⟩ := h.exitFree hpc hp
      exact ⟨ready, waits, place', hinv, fun _ hin ↦ ⟨hint hin, List.prefix_refl ready⟩,
        reportOk_of_none _, fun hs ↦ by cases hs⟩
    · cases hstep
  | exitClear =>
    obtain ⟨hpc, heq⟩ := Option.ite_none_right_eq_some.1 hstep
    cases heq
    obtain ⟨hinv, hint⟩ := h.exitClear hpc
    exact ⟨ready, waits, place, hinv, fun _ hin ↦ ⟨hint hin, List.prefix_refl ready⟩,
      reportOk_of_none _, fun hs ↦ by cases hs⟩
  | interrupt ws =>
    obtain ⟨-, heq⟩ := Option.ite_none_right_eq_some.1 hstep
    obtain ⟨rfl, ready', waits', place', hinv, hint⟩ := h.hardwareInterrupt hspare heq
    exact ⟨ready', waits', place', hinv, hint, reportOk_of_none _, fun hs ↦ by cases hs⟩

end Sched

end Marimba
