import Marimba.Proc.FifoView
import Marimba.Foundations.Buffers

/-!
# The PS/2 keyboard driver (`drivers/keyboard/ps2.c`)

The keyboard interrupt puts a character into a cyclic buffer that all open files share, and wakes
all processes blocked on the keyboard. Each open file has a cursor of its own, a `struct PS2User`;
`ps2_read` blocks until the cursor is not at the end of the buffer and then copies what is there.

**What is one step.** `ps2_open` and `ps2_read` run with interrupts disabled, except where
`ps2_read` blocks: `PROC_block_on` enables interrupts before its `yield`, and after the wake-up they
stay enabled until `ps2_read` disables them again. So a step of `ps2_read` goes from an
`IRQ_disable` to the blocking or to the return. The keyboard interrupt comes in between any two
steps; its event carries what `ps2_read_char` returns, `0` when it has no character.

The characters produced, the number of them at each `ps2_open` and the results of the reads are kept
beside the state. Left out are the initialisation of the controller with `num_open`, which decides
when it is made, and a `ps2_open` whose allocation fails.
-/

namespace Marimba

open CyclicBuffer

namespace Ps2

/-- `PS2_BUFF_SIZE`. -/
abbrev ps2BuffSize : ℕ := 128

/-- `BUFF_POS` of an `unsigned long`: the comparison with `-1` is one with the largest value. -/
def buffPos (pos : ℕ) : ℕ := (if pos = 2 ^ 64 - 1 then ps2BuffSize - 1 else pos) % ps2BuffSize

/-- The cyclic buffer of `struct PS2Device`. -/
structure Ps2Device where
  data : ℕ → UInt8
  pos : ℕ

namespace Ps2Device

/-- `producer_add`. -/
def producerAdd (dev : Ps2Device) (c : UInt8) : Ps2Device :=
  ⟨Function.update dev.data dev.pos c, buffPos (dev.pos + 1)⟩

/-- `consumer_has_bytes`, of the cursor of a file. -/
def consumerHasBytes (dev : Ps2Device) (pos : ℕ) : Bool := !(pos == dev.pos)

/-- `consumer_read_next`: the character and the next cursor. -/
def consumerReadNext (dev : Ps2Device) (pos : ℕ) : UInt8 × ℕ := (dev.data pos, buffPos (pos + 1))

/-- The copying loop of `ps2_read`: the characters copied and the cursor after them. -/
def copy (dev : Ps2Device) : ℕ → ℕ → List UInt8 × ℕ
  | 0, pos => ([], pos)
  | len + 1, pos =>
    if dev.consumerHasBytes pos then
      let next := dev.consumerReadNext pos
      let rest := dev.copy len next.2
      (next.1 :: rest.1, rest.2)
    else ([], pos)

end Ps2Device

/-- Where a process is. -/
inductive Ps2Pc where
  /-- Not in `ps2_read`. -/
  | user
  /-- In `ps2_read`: blocked, or woken and before the next `IRQ_disable`. -/
  | waiting (file len : ℕ)
  deriving DecidableEq, Repr

/-- A read that has returned: the file, the length asked for and the characters returned. -/
structure Read where
  file : ℕ
  len : ℕ
  bytes : List UInt8
  deriving DecidableEq, Repr

/-- The wait queue `ps2_dev.blocked_procs`. -/
abbrev blockedProcs : ℕ := 0

/-- The scheduler, the driver with the cursors of the open files, and the history: the characters
produced, how many there were when each file was opened, and the reads. -/
structure System where
  sched : Sched
  dev : Ps2Device
  files : List ℕ
  userPos : ℕ → ℕ
  pcs : ℕ → Ps2Pc
  produced : List UInt8
  openedAt : ℕ → ℕ
  reads : List Read

/-- What can happen next in the system. -/
inductive Ps2Event where
  /-- A process is created. -/
  | create (p : ℕ)
  /-- The running context opens a file. -/
  | open (file : ℕ)
  /-- The running process calls `ps2_read`. -/
  | read (file len : ℕ)
  /-- The running process goes on in `ps2_read` after a wake-up. -/
  | resume
  /-- The running context yields. -/
  | yield
  /-- The main process checks whether there is something to run. -/
  | runCheck
  /-- The keyboard interrupt, with the result of `ps2_read_char`. -/
  | key (c : UInt8)
  deriving DecidableEq, Repr

namespace System

/-- All characters returned to a file. -/
def got (s : System) (file : ℕ) : List UInt8 :=
  (s.reads.filter fun r ↦ r.file = file).flatMap Read.bytes

/-- The number of characters produced since a file was opened and not returned to it. -/
def unread (s : System) (file : ℕ) : ℕ :=
  s.produced.length - (s.openedAt file + (s.got file).length)

/-- Every open file has room in the buffer for its unread characters. -/
def Bounded (s : System) : Prop := ∀ file ∈ s.files, s.unread file < ps2BuffSize

instance (s : System) : Decidable s.Bounded := inferInstanceAs (Decidable (∀ _ ∈ _, _))

/-- `ps2_open`. -/
def openFile (s : System) (file : ℕ) : System :=
  { s with
    files := file :: s.files
    userPos := Function.update s.userPos file s.dev.pos
    openedAt := Function.update s.openedAt file s.produced.length }

/-- `ps2_read` from an `IRQ_disable` on: it blocks when there is no character, and else copies what
there is and returns. -/
def readStep (s : System) (p file len : ℕ) : System :=
  if s.dev.consumerHasBytes (s.userPos file) then
    let r := s.dev.copy len (s.userPos file)
    { s with
      sched := s.sched.irqDisable.irqEnable
      userPos := Function.update s.userPos file r.2
      pcs := Function.update s.pcs p .user
      reads := s.reads ++ [⟨file, len, r.1⟩] }
  else
    { s with
      sched := s.sched.irqDisable.blockOn blockedProcs true
      pcs := Function.update s.pcs p (.waiting file len) }

/-- `ps2_isr` under `IRQ_generic_isr`. -/
def isr (s : System) (c : UInt8) : Option System :=
  if c = 0 then (s.sched.hardwareInterrupt []).map fun r ↦ { s with sched := r.2 }
  else (s.sched.hardwareInterrupt [.unblockAll blockedProcs]).map fun r ↦
    { s with sched := r.2, dev := s.dev.producerAdd c, produced := s.produced ++ [c] }

/-- The running context is outside of `ps2_read`. -/
def outside (s : System) : Bool :=
  match s.sched.running with
  | some p => s.pcs p = .user
  | none => true

/-- One step; `none` where the event cannot happen. -/
def step (s : System) : Ps2Event → Option (Unit × System)
  | .create p =>
    if s.sched.pc = .user ∧ s.outside = true ∧ p ∉ s.sched.live then
      some ((), { s with sched := s.sched.createProcess p })
    else none
  | .open file =>
    if s.sched.pc = .user ∧ s.outside = true ∧ file ∉ s.files then some ((), s.openFile file)
    else none
  | .read file len =>
    match s.sched.running with
    | some p =>
      if s.pcs p = .user ∧ file ∈ s.files then some ((), s.readStep p file len) else none
    | none => none
  | .resume =>
    match s.sched.running with
    | some p =>
      match s.pcs p with
      | .waiting file len => some ((), s.readStep p file len)
      | .user => none
    | none => none
  | .yield =>
    if s.sched.mayYield fun p ↦ s.pcs p = .user then
      some ((), { s with sched := s.sched.yieldTrap.2 })
    else none
  | .runCheck =>
    if s.sched.pc = .user ∧ s.sched.currProc = .main then
      some ((), { s with sched := s.sched.runCheck })
    else none
  | .key c => if s.sched.irqSemaphore = 0 then (s.isr c).map fun s' ↦ ((), s') else none

/-- The system at boot: no process, no open file, an empty buffer. -/
def boot : System where
  sched := .boot
  dev := ⟨fun _ ↦ 0, 0⟩
  files := []
  userPos := fun _ ↦ 0
  pcs := fun _ ↦ .user
  produced := []
  openedAt := fun _ ↦ 0
  reads := []

end System

end Ps2

end Marimba
