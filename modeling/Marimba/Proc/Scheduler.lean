import Marimba.LinkedList
import Marimba.Foundations.Transition
import Marimba.Foundations.Word

/-!
# The process scheduler (`proc.c`) under interrupts

Processes are switched cooperatively: a process runs until it yields, blocks on a wait queue or
exits, and `IRQ_generic_isr` switches contexts at the end of a trap when `curr_proc` and `next_proc`
differ. Hardware interrupts come at any point where `irq_semaphore` is `0`; their handlers move
processes from a wait queue to the ready queue.

**What is one step.** The running context is at a program point `Pc`, and only the points at which
an interrupt can come in with an effect are told apart: between calls, inside the insertion of
`PROC_create_process` into the ready queue (which is not protected by `IRQ_disable`, so each of its
writes is a step of its own), in `PROC_block_on` and in `PROC_run` after interrupts are enabled and
before the trap, and in `process_exit` after the struct is freed and after `curr_proc` is cleared.
Code that runs with interrupts disabled is one step, and so is a whole interrupt.

A context that is switched away from resumes between calls: a process after its `yield`, and the
main process in the loop of `PROC_run`.

**What is left out**: the saved registers (a report says which process they are saved into or loaded
from), the debugging list `proc_state.procs`, and the stacks, which `Marimba.Memory` models. A
`PROC_create_process` whose allocations fail does not touch the scheduler.
-/

namespace Marimba

open Links

/-! ### State -/

/-- The headers of `struct Process` and `struct ProcessQueue`, by the object they are embedded in,
and the null pointer. Processes and wait queues are given by their address. -/
inductive ProcNode where
  | null
  | ready
  | wait (q : ℕ)
  | main
  | proc (p : ℕ)
  deriving DecidableEq, Repr

/-- How far `ll_add` has come before the new node is linked in: the tail pointer is loaded, then
`new->next` and `new->prev` are written. -/
inductive InsertPc where
  | loaded
  | nextSet
  | prevSet
  deriving DecidableEq, Repr

/-- Where the running context is. -/
inductive Pc where
  /-- Between calls of the scheduler. -/
  | user
  /-- In `PROC_create_process`, linking `new` in behind `prev`. -/
  | insert (new : ℕ) (prev : ProcNode) (k : InsertPc)
  /-- There, after `prev->next = new`: only the tail pointer is still to be written. -/
  | linked (new : ℕ)
  /-- In `PROC_block_on`, before its `yield`. -/
  | blocking
  /-- In the loop of `PROC_run`, before its `yield`. -/
  | running
  /-- In `process_exit`, after `kfree`. -/
  | exitFreed
  /-- In `process_exit`, after `curr_proc = NULL`. -/
  | exitNull
  deriving DecidableEq, Repr

/-- The scheduler's variables, the allocated process structs and the running context. -/
structure Sched where
  links : Links ProcNode
  currProc : ProcNode
  nextProc : ProcNode
  sleepCurr : Bool
  irqSemaphore : ℕ
  live : List ℕ
  pc : Pc

/-- A wake-up by an interrupt handler: `PROC_unblock_head` or `PROC_unblock_all`. -/
inductive Wake where
  | unblockHead (q : ℕ)
  | unblockAll (q : ℕ)
  deriving DecidableEq, Repr

/-- The queue a wake-up is about. -/
def Wake.queue : Wake → ℕ
  | .unblockHead q => q
  | .unblockAll q => q

/-- What can happen next. -/
inductive SchedEvent where
  /-- The running context calls `IRQ_disable` or `IRQ_enable`. -/
  | irqDisable
  | irqEnable
  /-- `PROC_create_process` has allocated `new` and enters the insertion. -/
  | createBegin (new : ℕ)
  /-- The next write of the insertion. -/
  | createStep
  /-- The `yield` trap: of a process between calls, or the one a call was about to make. -/
  | yield
  /-- `PROC_block_on`, up to its `yield`. -/
  | blockOn (q : ℕ) (enableInts : Bool)
  /-- The condition of the loop of `PROC_run`. -/
  | runCheck
  /-- `process_exit`, up to and with `kfree`. -/
  | exitFree
  /-- `process_exit`: `curr_proc = NULL`. -/
  | exitClear
  /-- A hardware interrupt whose handler makes these wake-ups. -/
  | interrupt (wakes : List Wake)
  deriving DecidableEq, Repr

/-- What one trap did to the contexts: the process it saved into, the process it loaded, and the one
`PROC_reschedule` selected in it. -/
structure IsrReport where
  saved : Option ProcNode
  loaded : Option ProcNode
  selected : Option ProcNode
  deriving DecidableEq, Repr

namespace IsrReport

/-- Nothing was saved, loaded or selected. -/
def quiet : IsrReport := ⟨none, none, none⟩

end IsrReport

namespace Sched

/-! ### Interrupt nesting -/

/-- `IRQ_disable`. -/
def irqDisable (s : Sched) : Sched := { s with irqSemaphore := (s.irqSemaphore + 1) % 2 ^ 32 }

/-- `IRQ_enable`. -/
def irqEnable (s : Sched) : Sched := { s with irqSemaphore := s.irqSemaphore - 1 }

/-! ### The functions of `proc.c` -/

/-- The same state with other pointers. -/
def setLinks (s : Sched) (l : Links ProcNode) : Sched := { s with links := l }

/-- `proc_queue_enqueue`. -/
def procQueueEnqueue (s : Sched) (queue proc : ProcNode) : Sched :=
  s.setLinks (LL.enqueue s.links queue proc)

/-- The body shared by the wake-ups: the first process of the wait queue goes to the end of the
ready queue. -/
def moveHead (l : Links ProcNode) (q : ℕ) : Links ProcNode :=
  match LL.dequeue .null l (.wait q) with
  | (none, l) => l
  | (some proc, l) => LL.enqueue l .ready proc

/-- `PROC_unblock_head`. -/
def unblockHead (s : Sched) (q : ℕ) : Sched :=
  if LL.empty s.links (.wait q) then s
  else (s.irqDisable.setLinks (moveHead s.links q)).irqEnable

/-- The loop of `PROC_unblock_all`; `none` when it has not ended after that many iterations. -/
def unblockAllLoop (q : ℕ) : ℕ → Links ProcNode → Option (Links ProcNode)
  | 0, _ => none
  | n + 1, l =>
    if LL.empty l (.wait q) then some l else unblockAllLoop q n (moveHead l q)

/-- `PROC_unblock_all`. There are at most as many processes in the queue as there are structs
(`unblockAll_isSome`). -/
def unblockAll (s : Sched) (q : ℕ) : Option Sched :=
  (unblockAllLoop q (s.live.length + 1) s.links).map fun l ↦ (s.irqDisable.setLinks l).irqEnable

/-- A wake-up. -/
def wake (s : Sched) : Wake → Option Sched
  | .unblockHead q => some (s.unblockHead q)
  | .unblockAll q => s.unblockAll q

/-- The wake-ups of a handler, one after the other. -/
def wakeAll : Sched → List Wake → Option Sched
  | s, [] => some s
  | s, w :: ws => (s.wake w).bind fun s' ↦ wakeAll s' ws

/-- The first half of `PROC_reschedule`: the running process is queued unless it sleeps or is
gone. -/
def requeue (s : Sched) : Sched :=
  if s.currProc ≠ .null ∧ s.sleepCurr = false then s.procQueueEnqueue .ready s.currProc else s

/-- The second half of `PROC_reschedule`: the next process is taken off the ready queue. -/
def pick (s : Sched) : Sched :=
  match LL.dequeue .null s.links .ready with
  | (none, _) => { s with nextProc := .main, sleepCurr := true }
  | (some proc, l) => { s with links := l, nextProc := proc, sleepCurr := false }

/-- `PROC_reschedule`. -/
def reschedule (s : Sched) : Sched :=
  let s' := s.irqDisable.requeue.pick
  if s'.currProc = s'.nextProc then s'.irqEnable else s'

/-! ### `IRQ_generic_isr` -/

/-- The end of `IRQ_generic_isr`: switch contexts when the two processes differ. The loaded context
resumes between calls. -/
def isrSwitch (s : Sched) (selected : Option ProcNode) : IsrReport × Sched :=
  if s.currProc = s.nextProc then (⟨none, none, selected⟩, s)
  else
    (⟨if s.currProc = .null then none else some s.currProc, some s.nextProc, selected⟩,
      { s with currProc := s.nextProc, pc := .user }.irqEnable)

/-- The system call trap with the handler `PROC_yield`. -/
def yieldTrap (s : Sched) : IsrReport × Sched :=
  let s' := s.reschedule
  let r := s'.isrSwitch (some s'.nextProc)
  (r.1, { r.2 with pc := .user })

/-- A hardware interrupt: `irq_semaphore` is raised around the handler and the switch. -/
def hardwareInterrupt (s : Sched) (wakes : List Wake) : Option (IsrReport × Sched) :=
  (wakeAll { s with irqSemaphore := (s.irqSemaphore + 1) % 2 ^ 32 } wakes).map fun s' ↦
    let r := s'.isrSwitch none
    (r.1, { r.2 with irqSemaphore := (r.2.irqSemaphore + (2 ^ 32 - 1)) % 2 ^ 32 })

/-! ### Steps -/

/-- `PROC_create_process` up to the insertion: the struct is allocated and cleared, and
`LL_add_prev` has read the tail pointer of the ready queue. -/
def createBegin (s : Sched) (new : ℕ) : Sched :=
  { s with
    links := (s.links.setNext (.proc new) .null).setPrev (.proc new) .null
    live := new :: s.live
    pc := .insert new (s.links.prev .ready) .loaded }

/-- The first three writes of `ll_add`. -/
def insertStep (s : Sched) (new : ℕ) (prev : ProcNode) : InsertPc → Sched
  | .loaded =>
    { s with links := s.links.setNext (.proc new) .ready, pc := .insert new prev .nextSet }
  | .nextSet =>
    { s with links := s.links.setPrev (.proc new) prev, pc := .insert new prev .prevSet }
  | .prevSet =>
    { s with links := s.links.setNext prev (.proc new), pc := .linked new }

/-- The last write of `ll_add`. -/
def insertEnd (s : Sched) (new : ℕ) : Sched :=
  { s with links := s.links.setPrev .ready (.proc new), pc := .user }

/-- `PROC_block_on` up to its `yield`. -/
def blockOn (s : Sched) (q : ℕ) (enableInts : Bool) : Sched :=
  let s' := { s.procQueueEnqueue (.wait q) s.currProc with sleepCurr := true, pc := .blocking }
  if enableInts then s'.irqEnable else s'

/-- One pass of the loop of `PROC_run`, from its `IRQ_disable` to its `yield` or to the end. -/
def runCheck (s : Sched) : Sched :=
  let s' := s.irqDisable
  if LL.empty s'.links .ready then s'.irqEnable
  else { s' with sleepCurr := true, pc := .running }.irqEnable

/-- One step; `none` where the event cannot happen. The guards are the calling conventions: only
processes other than the main one yield, block and exit, `PROC_block_on` is called with interrupts
disabled, as both of its callers do, and `PROC_run` is the main process's. -/
def step (s : Sched) : SchedEvent → Option (IsrReport × Sched)
  | .irqDisable => if s.pc = .user then some (.quiet, s.irqDisable) else none
  | .irqEnable => if s.pc = .user then some (.quiet, s.irqEnable) else none
  | .createBegin new =>
    if s.pc = .user ∧ new ∉ s.live then some (.quiet, s.createBegin new) else none
  | .createStep =>
    match s.pc with
    | .insert new prev k => some (.quiet, s.insertStep new prev k)
    | .linked new => some (.quiet, s.insertEnd new)
    | _ => none
  | .yield =>
    match s.pc with
    | .user => if s.currProc = .main then none else some s.yieldTrap
    | .blocking | .running | .exitNull => some s.yieldTrap
    | _ => none
  | .blockOn q enableInts =>
    if s.pc = .user ∧ s.currProc ≠ .main ∧ s.irqSemaphore ≠ 0 then
      some (.quiet, s.blockOn q enableInts)
    else none
  | .runCheck =>
    if s.pc = .user ∧ s.currProc = .main then some (.quiet, s.runCheck) else none
  | .exitFree =>
    match s.pc, s.currProc with
    | .user, .proc p => some (.quiet, { s with live := s.live.erase p, pc := .exitFreed })
    | _, _ => none
  | .exitClear =>
    if s.pc = .exitFreed then some (.quiet, { s with currProc := .null, pc := .exitNull }) else none
  | .interrupt wakes => if s.irqSemaphore = 0 then s.hardwareInterrupt wakes else none

/-- The state at boot: the main process runs, and all queues are empty. -/
def boot : Sched where
  links := ⟨id, id⟩
  currProc := .main
  nextProc := .main
  sleepCurr := false
  irqSemaphore := 0
  live := []
  pc := .user

end Sched

end Marimba
