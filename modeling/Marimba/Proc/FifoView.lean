import Marimba.Proc.Steps

/-!
# The scheduler as FIFO queues

What the scheduler is for, without pointers: a process runs (or the main process does), the others
are in a ready queue and in wait queues, and all of these are served in order. `SchedView` is that
abstract scheduler, with one function for each operation, and `Sched.Views` ties a state of the
pointer-level scheduler to it. **The pointer level refines it**: `Views.yield`, `Views.blockOn`,
`Views.interrupt`, `Views.createProcess` and `Views.runCheck` say that each operation of `proc.c`
does to the pointers what the abstract one does to the lists.

This is the interface for the drivers: a driver blocks processes on a wait queue and wakes them from
its interrupt handler, and need not know about `sleep_curr` or the splicing of lists. The operations
here are those that run without a race; creation is one step.
-/

namespace Marimba

open Links

/-- Whether the running context is between calls, in `PROC_block_on` before its `yield`, or in the
loop of `PROC_run` before its `yield`. -/
inductive SchedMode where
  | user
  | blocking
  | running
  deriving DecidableEq, Repr

/-- The program point of a mode. -/
def SchedMode.pc : SchedMode → Pc
  | .user => .user
  | .blocking => .blocking
  | .running => .running

/-- The abstract scheduler; the main process runs when `curr` is `none`. -/
structure SchedView where
  curr : Option ℕ
  ready : List ℕ
  waits : ℕ → List ℕ
  mode : SchedMode

namespace SchedView

/-- At boot the main process runs and all queues are empty. -/
def boot : SchedView := ⟨none, [], fun _ ↦ [], .user⟩

/-- The pointer to the running process. -/
def node (v : SchedView) : ProcNode := v.curr.elim .main .proc

/-- The ready queue when the running process is put back, unless it is queued already. -/
def requeued (v : SchedView) : List ℕ :=
  match v.mode, v.curr with
  | .user, some p => v.ready ++ [p]
  | _, _ => v.ready

/-- The first ready process runs, the main process when there is none. -/
def yield (v : SchedView) : SchedView :=
  ⟨v.requeued.head?, v.requeued.tail, v.waits, .user⟩

/-- The running process goes to the end of a wait queue. -/
def blockOn (v : SchedView) (p q : ℕ) : SchedView :=
  ⟨v.curr, v.ready, Function.update v.waits q (v.waits q ++ [p]), .blocking⟩

/-- The first process of a wait queue goes to the end of the ready queue. -/
def unblockHead (v : SchedView) (q : ℕ) : SchedView :=
  match v.waits q with
  | [] => v
  | p :: rs => ⟨v.curr, v.ready ++ [p], Function.update v.waits q rs, v.mode⟩

/-- The processes the wake-ups of a handler find go to the end of the ready queue. -/
def interrupt (v : SchedView) (ws : List Wake) : SchedView :=
  ⟨v.curr, v.ready ++ wokenAll ws v.waits, leaveAll ws v.waits, v.mode⟩

/-- A new process goes to the end of the ready queue. -/
def create (v : SchedView) (p : ℕ) : SchedView := ⟨v.curr, v.ready ++ [p], v.waits, v.mode⟩

/-- The main process yields when there is something to run. -/
def runCheck (v : SchedView) : SchedView :=
  if v.ready = [] then v else ⟨v.curr, v.ready, v.waits, .running⟩

/-- A process runs between calls. -/
def Runs (v : SchedView) (p : ℕ) : Prop := v.mode = .user ∧ v.curr = some p

theorem node_eq_proc {v : SchedView} {p : ℕ} : v.node = .proc p ↔ v.curr = some p := by
  rcases hc : v.curr with - | r <;> simp [node, hc]

theorem node_eq_main {v : SchedView} : v.node = .main ↔ v.curr = none := by
  rcases hc : v.curr with - | r <;> simp [node, hc]

theorem interrupt_unblockHead (v : SchedView) (q : ℕ) :
    v.interrupt [.unblockHead q] = v.unblockHead q := by
  rw [unblockHead]
  rcases hq : v.waits q with - | ⟨p, rs⟩
  · have hsame : Function.update v.waits q [] = v.waits := by rw [← hq, Function.update_eq_self]
    simp [interrupt, wokenAll, leaveAll, Wake.woken, Wake.left, Wake.leave, Wake.queue, hq, hsame]
  · simp [interrupt, wokenAll, leaveAll, Wake.woken, Wake.left, Wake.leave, Wake.queue, hq]

/-- `PROC_unblock_all` empties its queue. -/
theorem interrupt_unblockAll (v : SchedView) (q : ℕ) :
    v.interrupt [.unblockAll q] =
      ⟨v.curr, v.ready ++ v.waits q, Function.update v.waits q [], v.mode⟩ := by
  simp [interrupt, wokenAll, leaveAll, Wake.woken, Wake.left, Wake.leave, Wake.queue]

end SchedView

namespace Sched

variable {s : Sched} {v : SchedView} {p q : ℕ}

/-- The pointers spell out the abstract state, nothing is lost, and interrupts are enabled. -/
def Views (s : Sched) (v : SchedView) : Prop :=
  ∃ place, Inv s v.ready v.waits place ∧ Intact s v.ready place ∧ s.currProc = v.node ∧
    s.pc = v.mode.pc ∧ s.irqSemaphore = 0

theorem views_boot : boot.Views .boot := ⟨_, inv_boot, intact_boot, rfl, rfl, rfl⟩

/-- The process that runs between calls of the scheduler, if it is not the main process. -/
def running (s : Sched) : Option ℕ :=
  match s.pc, s.currProc with
  | .user, .proc p => some p
  | _, _ => none

/-- The running context may yield: a process that a driver has not called the scheduler for, or a
call of the scheduler that is about to. -/
def mayYield (s : Sched) (outside : ℕ → Bool) : Bool :=
  match s.pc, s.currProc with
  | .user, .proc p => outside p
  | .blocking, _ | .running, _ => true
  | _, _ => false

namespace Views

/-! ### Reading the state -/

theorem currProc_eq (h : s.Views v) : s.currProc = v.node := by
  obtain ⟨-, -, -, hcurr, -⟩ := h
  exact hcurr

theorem pc_eq (h : s.Views v) : s.pc = v.mode.pc := by
  obtain ⟨-, -, -, -, hpc, -⟩ := h
  exact hpc

theorem irqSemaphore_eq (h : s.Views v) : s.irqSemaphore = 0 := by
  obtain ⟨-, -, -, -, -, hirq⟩ := h
  exact hirq

theorem pc_eq_user_iff (h : s.Views v) : s.pc = .user ↔ v.mode = .user := by
  rw [h.pc_eq]
  cases v.mode <;> simp [SchedMode.pc]

theorem running_eq_some_iff (h : s.Views v) : s.running = some p ↔ v.Runs p := by
  rw [running, SchedView.Runs, h.currProc_eq, h.pc_eq, SchedView.node]
  obtain ⟨c, r, w, m⟩ := v
  cases m <;> cases c <;> simp [SchedMode.pc]

theorem mayYield_iff (h : s.Views v) {outside : ℕ → Bool} :
    s.mayYield outside = true ↔ (∃ p, v.Runs p ∧ outside p = true) ∨ v.mode ≠ .user := by
  simp only [mayYield, SchedView.Runs, h.currProc_eq, h.pc_eq, SchedView.node]
  obtain ⟨c, r, w, m⟩ := v
  cases m <;> cases c <;> simp [SchedMode.pc]

theorem canYield (h : s.Views v) {outside : ℕ → Bool} (hy : s.mayYield outside = true) :
    s.CanYield := by
  rw [CanYield, h.pc_eq]
  rcases h.mayYield_iff.1 hy with ⟨p, hr, -⟩ | hm
  · rw [hr.1]
    show s.currProc ≠ .main
    rw [h.currProc_eq, SchedView.node_eq_proc.2 hr.2]
    simp
  · cases hmode : v.mode with
    | user => exact absurd hmode hm
    | blocking => trivial
    | running => trivial

/-- The process that runs between calls is in no queue. -/
theorem exists_loose (h : s.Views v) (hr : v.Runs p) :
    ∃ place, Inv s v.ready v.waits place ∧ place p = .loose := by
  obtain ⟨place, hinv, -, hcurr, hpc, -⟩ := h
  refine ⟨place, hinv, (hinv.loose p).2 ?_⟩
  rw [Loose, hpc, hr.1]
  exact hcurr.trans (SchedView.node_eq_proc.2 hr.2)

theorem notMem_waits (h : s.Views v) (hr : v.Runs p) : p ∉ v.waits q := by
  obtain ⟨place, hinv, hloose⟩ := h.exists_loose hr
  exact hinv.shape.notMem_waits (by simp [hloose]) q

theorem ne_of_mem_ready (h : s.Views v) (hr : v.Runs p) (hq : q ∈ v.ready) : q ≠ p := by
  obtain ⟨place, hinv, hloose⟩ := h.exists_loose hr
  rintro rfl
  rw [hinv.shape.mem_ready, hloose] at hq
  cases hq

/-- A process in a wait queue is not in the ready queue. -/
theorem notMem_ready (h : s.Views v) (hp : p ∈ v.waits q) : p ∉ v.ready := by
  obtain ⟨place, hinv, -⟩ := h
  exact hinv.shape.notMem_ready (by simp [(hinv.shape.mem_waits q p).1 hp])

/-- A wait queue is spelled out by the pointers. -/
theorem isQueue_wait (h : s.Views v) (q : ℕ) :
    IsQueue s.links (.wait q) ((v.waits q).map .proc) := by
  obtain ⟨place, hinv, -⟩ := h
  exact (hinv.shape.waitQueues q).1

/-- So is the ready queue. -/
theorem isQueue_ready (h : s.Views v) : IsQueue s.links .ready (v.ready.map .proc) := by
  obtain ⟨place, hinv, -⟩ := h
  exact hinv.shape.readyQueue

/-- The first process of a wait queue is what `LL_head` finds there. -/
theorem head_wait (h : s.Views v) {rs : List ℕ} (hq : v.waits q = p :: rs) :
    LL.head s.links (.wait q) = some (.proc p) := by
  obtain ⟨place, hinv, -⟩ := h
  have hring := (hinv.shape.waitQueues q).1
  rw [hq] at hring
  have hne : ¬LL.empty s.links (.wait q) = true := fun he ↦ by
    rw [LL.empty_iff hring] at he
    cases he
  rw [LL.head, if_neg hne, hring.1.1]

/-! ### The operations -/

/-- `IRQ_disable` and `IRQ_enable` around code that does not block. -/
theorem irqDisable_irqEnable (h : s.Views v) : s.irqDisable.irqEnable.Views v := by
  obtain ⟨place, hinv, hin, hcurr, hpc, hirq⟩ := h
  refine ⟨place, hinv.setIrq _, ⟨hin.notLost, hin.loaded⟩, hcurr, hpc, ?_⟩
  show (s.irqSemaphore + 1) % 2 ^ 32 - 1 = 0
  rw [hirq]
  rfl

/-- **The `yield` trap** runs the first ready process. -/
theorem yield (h : s.Views v) (hy : s.CanYield) : s.yieldTrap.2.Views v.yield := by
  obtain ⟨place, hinv, hin, hcurr, hpc, hirq⟩ := h
  obtain ⟨ready', place', hinv', hint, -⟩ := hinv.yieldTrap hy
  obtain ⟨hin', rfl, hcurr'⟩ := hint hin
  have hreq : s.requeued v.ready = v.requeued := by
    rw [Sched.requeued, SchedView.requeued, hpc, hcurr]
    obtain ⟨c, r, w, m⟩ := v
    cases m <;> cases c <;> rfl
  rw [hreq] at hinv' hin' hcurr'
  refine ⟨place', hinv', hin', ?_, ?_, ?_⟩
  · rw [hcurr', SchedView.node, SchedView.yield]
    cases v.requeued <;> rfl
  · rw [yieldTrap_eq]
    rfl
  · rw [yieldTrap_eq]
    show (s.requeue.pick.irqSemaphore + 1) % 2 ^ 32 - 1 = 0
    have hkeep : s.requeue.pick.irqSemaphore = 0 := by
      rw [← hirq, pick, requeue]
      split <;> split <;> rfl
    rw [hkeep]
    rfl

/-- **`PROC_block_on`**, called with interrupts disabled. -/
theorem blockOn (h : s.Views v) (hr : v.Runs p) (q : ℕ) :
    (s.irqDisable.blockOn q true).Views (v.blockOn p q) := by
  obtain ⟨place, hinv, hin, hcurr, hpc, hirq⟩ := h
  have hp : s.currProc = .proc p := hcurr.trans (SchedView.node_eq_proc.2 hr.2)
  have huser : s.pc = .user := by rw [hpc, hr.1]; rfl
  obtain ⟨place', hinv', hint⟩ := (hinv.setIrq ((s.irqSemaphore + 1) % 2 ^ 32)).blockOn
    huser hp q true
  refine ⟨place', hinv', hint ⟨hin.notLost, hin.loaded⟩, hcurr, rfl, ?_⟩
  show (s.irqSemaphore + 1) % 2 ^ 32 - 1 = 0
  rw [hirq]
  rfl

/-- **A hardware interrupt** whose handler makes these wake-ups: they run to their end, no context
is switched, and interrupts are enabled after it. -/
theorem interrupt (h : s.Views v) (ws : List Wake) :
    ∃ s', s.hardwareInterrupt ws = some (.quiet, s') ∧ s'.live = s.live ∧
      s'.Views (v.interrupt ws) := by
  obtain ⟨place, hinv, hin, hcurr, hpc, hirq⟩ := h
  obtain ⟨t, ht, htouch, -, ready', place', hinv', hint⟩ :=
    (hinv.setIrq ((s.irqSemaphore + 1) % 2 ^ 32)).wakeAll ws
  have hni : ¬s.Inserting := by
    rw [Inserting, hpc]
    cases v.mode <;> simp [SchedMode.pc]
  obtain ⟨rfl, hin'⟩ := hint hni ⟨hin.notLost, hin.loaded⟩
  have hne : s.pc ≠ .exitNull := by
    rw [hpc]
    cases v.mode <;> simp [SchedMode.pc]
  have hlt : (s.irqSemaphore + 1) % 2 ^ 32 + 1 < 2 ^ 32 := by
    rw [hirq]
    decide
  have hsem : t.irqSemaphore = 1 := by
    rw [wakeAll_irqSemaphore hlt ht]
    show (s.irqSemaphore + 1) % 2 ^ 32 = 1
    rw [hirq]
    rfl
  refine ⟨{ t with irqSemaphore := (t.irqSemaphore + (2 ^ 32 - 1)) % 2 ^ 32 }, ?_, ?_, place',
    hinv'.setIrq _, ⟨hin'.notLost, hin'.loaded⟩, ?_, ?_, ?_⟩
  · exact hinv.hardwareInterrupt_eq hne ht htouch
  · show t.live = s.live
    rw [htouch]
  · exact htouch.currProc_eq.trans hcurr
  · exact htouch.pc_eq.trans hpc
  · show (t.irqSemaphore + (2 ^ 32 - 1)) % 2 ^ 32 = 0
    rw [hsem]
    rfl

/-- **`PROC_unblock_head`** in an interrupt handler. -/
theorem unblockHead (h : s.Views v) (q : ℕ) :
    ∃ s', s.hardwareInterrupt [.unblockHead q] = some (.quiet, s') ∧
      s'.Views (v.unblockHead q) := by
  obtain ⟨s', hs', -, hviews⟩ := h.interrupt [.unblockHead q]
  rw [SchedView.interrupt_unblockHead] at hviews
  exact ⟨s', hs', hviews⟩

/-- **The loop of `PROC_run`.** -/
theorem runCheck (h : s.Views v) (hm : v.mode = .user) (hc : v.curr = none) :
    s.runCheck.Views v.runCheck := by
  obtain ⟨place, hinv, hin, hcurr, hpc, hirq⟩ := h
  have huser : s.pc = .user := by rw [hpc, hm]; rfl
  obtain ⟨hinv', hint⟩ := hinv.runCheck huser (hcurr.trans (SchedView.node_eq_main.2 hc))
  have hempty : LL.empty s.irqDisable.links .ready = true ↔ v.ready = [] := by
    show LL.empty s.links .ready = true ↔ _
    rw [LL.empty_iff hinv.shape.readyQueue, List.map_eq_nil_iff]
  have hzero : (s.irqSemaphore + 1) % 2 ^ 32 - 1 = 0 := by
    rw [hirq]
    rfl
  rw [SchedView.runCheck]
  by_cases he : v.ready = []
  · have hself : s.runCheck = s.irqDisable.irqEnable := if_pos (hempty.2 he)
    rw [if_pos he, hself]
    exact ⟨place, hinv.setIrq _, ⟨hin.notLost, hin.loaded⟩, hcurr, hpc, hzero⟩
  · have hself : s.runCheck =
        { s.irqDisable with sleepCurr := true, pc := .running }.irqEnable :=
      if_neg fun h' ↦ he (hempty.1 h')
    rw [if_neg he]
    refine ⟨place, hinv', hint hin, ?_, ?_, ?_⟩ <;> rw [hself]
    · exact hcurr
    · rfl
    · exact hzero

end Views

/-- `PROC_create_process` without an interrupt inside of the insertion. -/
def createProcess (s : Sched) (new : ℕ) : Sched :=
  let prev := s.links.prev .ready
  ((((s.createBegin new).insertStep new prev .loaded).insertStep new prev .nextSet).insertStep
    new prev .prevSet).insertEnd new

/-- **`PROC_create_process`** appends the new process to the ready queue. -/
theorem Views.createProcess (h : s.Views v) (hm : v.mode = .user) (hnew : p ∉ s.live) :
    (s.createProcess p).Views (v.create p) := by
  obtain ⟨place, hinv, hin, hcurr, hpc, hirq⟩ := h
  have huser : s.pc = .user := by rw [hpc, hm]; rfl
  obtain ⟨p₁, h₁, i₁⟩ := hinv.createBegin huser hnew
  obtain ⟨r₂, p₂, h₂, i₂⟩ := h₁.insertStep rfl
  obtain ⟨j₂, rfl⟩ := i₂ (i₁ hin)
  obtain ⟨r₃, p₃, h₃, i₃⟩ := h₂.insertStep rfl
  obtain ⟨j₃, rfl⟩ := i₃ j₂
  obtain ⟨r₄, p₄, h₄, i₄⟩ := h₃.insertStep rfl
  obtain ⟨j₄, rfl⟩ := i₄ j₃
  obtain ⟨h₅, i₅⟩ := h₄.insertEnd rfl
  refine ⟨p₄, h₅, i₅ j₄, hcurr, ?_, hirq⟩
  show Pc.user = v.mode.pc
  rw [hm]
  rfl

end Sched

end Marimba
