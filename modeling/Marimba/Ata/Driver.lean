import Marimba.Proc.FifoView
import Mathlib.Data.Nat.Bitwise

/-!
# The ATA disk driver (`drivers/disk/ata.c`)

`ata_read_block` serves any number of processes with one device that takes one command at a time. A
caller queues its request, blocks, and is woken by the completion interrupt of its own command; it
then reads the sector from the data port and issues the command for the next request in the queue.
So the command of a request is issued by its own process only when the queue was empty, and by the
process before it otherwise.

**The device** is what the driver assumes of the hardware. Its LBA registers are two deep: a write
pushes the old value back, and a `READ PIO EXT` command latches the 48-bit address from both levels.
A command is completed some time later; the device then raises its interrupt, with DRQ set and no
error, and delivers the words of the sector on the data port. The driver must not issue a command
while one is outstanding, and the device model does not rule that out: its commands queue up.

**The system** is the scheduler of `Marimba.Proc` with the driver and the device. Processes run
cooperatively and may be created at any time; between calls they only yield. The driver's code after
the wake-up runs with interrupts enabled, and each of its accesses to the device or to the request
queue is a step of its own. The history of the calls, of the wake-ups and of the results is kept
beside the state.
-/

namespace Marimba

open Links

namespace Ata

/-! ### The device -/

/-- The registers `ata_write_lba` writes. -/
inductive Reg where
  | sectCnt
  | lbaLow
  | lbaMid
  | lbaHigh
  deriving DecidableEq, Repr

/-- `outb` of a byte to a register. -/
structure Out where
  reg : Reg
  value : ℕ
  deriving DecidableEq, Repr

/-- `ATA_BLOCK_SIZE / 2`, the number of words of a sector. -/
abbrev sectorWords : ℕ := 256

/-- The device. `regs` holds the value written last to each register and the one before it,
`pending` the sectors of the commands that are not completed yet, `transfer` the sector on the data
port with the number of its words already read, and `irq` whether its interrupt is raised. -/
structure Device where
  regs : Reg → ℕ × ℕ
  pending : List ℕ
  transfer : Option (ℕ × ℕ)
  irq : Bool

namespace Device

/-- A byte written to a register pushes the old one back. -/
def outb (d : Device) (o : Out) : Device :=
  { d with regs := Function.update d.regs o.reg (o.value, (d.regs o.reg).1) }

/-- Several writes, in order. -/
def outbs (d : Device) (outs : List Out) : Device := outs.foldl outb d

/-- The 48-bit address in the registers. -/
def latched (d : Device) : ℕ :=
  (d.regs .lbaLow).1 + (d.regs .lbaMid).1 * 2 ^ 8 + (d.regs .lbaHigh).1 * 2 ^ 16 +
    (d.regs .lbaLow).2 * 2 ^ 24 + (d.regs .lbaMid).2 * 2 ^ 32 + (d.regs .lbaHigh).2 * 2 ^ 40

/-- The command `READ PIO EXT`. -/
def readPioExt (d : Device) : Device := { d with pending := d.pending ++ [d.latched] }

/-- The status bit DRQ. -/
def drq (d : Device) : Bool := d.transfer.isSome

/-- The device completes its oldest command: the sector is on the data port, and the interrupt is
raised. -/
def complete (d : Device) : Device :=
  match d.pending with
  | [] => d
  | lba :: rest => { d with pending := rest, transfer := some (lba, 0), irq := true }

/-- `inw` of the data port. DRQ goes away with the last word; without it the bus floats. -/
def inw (disk : ℕ → ℕ → ℕ) (d : Device) : ℕ × Device :=
  match d.transfer with
  | none => (0xffff, d)
  | some (lba, i) =>
    (disk lba i, { d with transfer := if i + 1 = sectorWords then none else some (lba, i + 1) })

/-- The number of commands that are not finished: not completed, or still on the data port. -/
def outstanding (d : Device) : ℕ := d.pending.length + d.transfer.toList.length

end Device

/-! ### The driver -/

/-- `ata_write_lba`, as the bytes it writes. -/
def writeLba (lba sectorcount : ℕ) : List Out :=
  [⟨.sectCnt, (sectorcount >>> 8) &&& 0xff⟩,
   ⟨.lbaLow, (lba >>> 24) &&& 0xff⟩,
   ⟨.lbaMid, (lba >>> 32) &&& 0xff⟩,
   ⟨.lbaHigh, (lba >>> 40) &&& 0xff⟩,
   ⟨.sectCnt, sectorcount &&& 0xff⟩,
   ⟨.lbaLow, (lba >>> 0) &&& 0xff⟩,
   ⟨.lbaMid, (lba >>> 8) &&& 0xff⟩,
   ⟨.lbaHigh, (lba >>> 16) &&& 0xff⟩]

/-- The headers of the request queue: its head and the request on the stack of each process. -/
inductive ReqNode where
  | null
  | requests
  | req (p : ℕ)
  deriving DecidableEq, Repr

/-- Where a process is in `ata_read_block`. -/
inductive AtaPc where
  /-- Not in it. -/
  | user
  /-- In `PROC_block_on`, or about to check DRQ after it. -/
  | blocked
  /-- Before `LL_dequeue(&ata->requests)`. -/
  | dequeuing
  /-- In `ata_wait_data_ready`. -/
  | waiting
  /-- In the loop of `ata_read`, with the words read so far. -/
  | reading (buff : List ℕ)
  /-- Before `LL_head(&ata->requests)`. -/
  | starting (buff : List ℕ)
  /-- Writing the address of the next request and its command. -/
  | issuing (outs : List Out) (buff : List ℕ)
  deriving DecidableEq, Repr

/-- A result of `ata_read_block`: whose call, the code, and the words in its buffer. -/
structure Result where
  proc : ℕ
  code : ℤ
  buff : List ℕ
  deriving DecidableEq, Repr

/-- The scheduler, the driver and the device, and the history: the calls with their process and
address, the process found by each wake-up, and the results. -/
structure System where
  sched : Sched
  reqs : Links ReqNode
  lba : ℕ → ℕ
  dev : Device
  pcs : ℕ → AtaPc
  calls : List (ℕ × ℕ)
  wakes : List (Option ProcNode)
  results : List Result

/-- The wait queue `ata->blocked`. -/
abbrev blockedQueue : ℕ := 0

namespace System

/-- The process is at another point. -/
def setPc (s : System) (p : ℕ) (pc : AtaPc) : System := { s with pcs := Function.update s.pcs p pc }

/-- `ata_read_block` returns. -/
def finish (s : System) (p : ℕ) (code : ℤ) (buff : List ℕ) : System :=
  { s.setPc p .user with results := s.results ++ [⟨p, code, buff⟩] }

/-- `ata_read_block` up to the `yield` of `PROC_block_on`, all of it with interrupts disabled: when
no request is queued the command is issued at once; the request is queued and the process blocks. -/
def readBlock (s : System) (p lba : ℕ) : System :=
  { s with
    lba := Function.update s.lba p lba
    dev := if LL.empty s.reqs .requests then (s.dev.outbs (writeLba lba 1)).readPioExt else s.dev
    reqs := LL.enqueue s.reqs .requests (.req p)
    sched := s.sched.irqDisable.blockOn blockedQueue true
    pcs := Function.update s.pcs p .blocked
    calls := s.calls ++ [(p, lba)] }

/-- The address of a queued request. -/
def lbaOf (s : System) : ReqNode → ℕ
  | .req p => s.lba p
  | _ => 0

/-- The rest of `ata_read_block`, one access at a time. -/
def advance (disk : ℕ → ℕ → ℕ) (s : System) (p : ℕ) : AtaPc → System
  | .user => s
  | .blocked => if s.dev.drq then s.setPc p .dequeuing else s.finish p (-1) []
  | .dequeuing => { s.setPc p .waiting with reqs := (LL.dequeue .null s.reqs .requests).2 }
  | .waiting => if s.dev.drq then s.setPc p (.reading []) else s
  | .reading buff =>
    if buff.length < sectorWords then
      { s.setPc p (.reading (buff ++ [(s.dev.inw disk).1])) with dev := (s.dev.inw disk).2 }
    else s.setPc p (.starting buff)
  | .starting buff =>
    match LL.head s.reqs .requests with
    | none => s.finish p 0 buff
    | some next => s.setPc p (.issuing (writeLba (s.lbaOf next) 1) buff)
  | .issuing (o :: outs) buff => { s.setPc p (.issuing outs buff) with dev := s.dev.outb o }
  | .issuing [] buff => { s.finish p 0 buff with dev := s.dev.readPioExt }

/-- `ata_isr` under `IRQ_generic_isr`: reading the status register takes the interrupt back, and the
first blocked process is woken when DRQ is set. -/
def isr (s : System) : Option System :=
  (s.sched.hardwareInterrupt (if s.dev.drq then [.unblockHead blockedQueue] else [])).map fun r ↦
    { s with
      sched := r.2
      dev := { s.dev with irq := false }
      wakes := s.wakes ++
        [if s.dev.drq then LL.head s.sched.links (.wait blockedQueue) else none] }

end System

/-- What can happen next in the system. -/
inductive AtaEvent where
  /-- A process is created. -/
  | create (p : ℕ)
  /-- The running process calls `ata_read_block`. -/
  | call (lba : ℕ)
  /-- The next access of the running process, in `ata_read_block`. -/
  | advance
  /-- The running context yields. -/
  | yield
  /-- The main process checks whether there is something to run. -/
  | runCheck
  /-- The device completes a command. -/
  | complete
  /-- The interrupt of the device is taken. -/
  | interrupt
  deriving DecidableEq, Repr

namespace System

/-- The process that runs between calls of the scheduler, if it is not the main process. -/
def running (s : System) : Option ℕ := s.sched.running

/-- The running context may yield: a process outside of `ata_read_block`, or a call of the scheduler
that is about to. -/
def mayYield (s : System) : Bool := s.sched.mayYield fun p ↦ s.pcs p = .user

/-- The running context is outside of `ata_read_block`. -/
def outside (s : System) : Bool :=
  match s.running with
  | some p => s.pcs p = .user
  | none => true

/-- One step; `none` where the event cannot happen. -/
def step (disk : ℕ → ℕ → ℕ) (s : System) : AtaEvent → Option (Unit × System)
  | .create p =>
    if s.sched.pc = .user ∧ s.outside = true ∧ p ∉ s.sched.live then
      some ((), { s with sched := s.sched.createProcess p })
    else none
  | .call lba =>
    match s.running with
    | some p => if s.pcs p = .user ∧ lba < 2 ^ 48 then some ((), s.readBlock p lba) else none
    | none => none
  | .advance =>
    match s.running with
    | some p => if s.pcs p = .user then none else some ((), s.advance disk p (s.pcs p))
    | none => none
  | .yield =>
    if s.mayYield then some ((), { s with sched := s.sched.yieldTrap.2 }) else none
  | .runCheck =>
    if s.sched.pc = .user ∧ s.sched.currProc = .main then
      some ((), { s with sched := s.sched.runCheck })
    else none
  | .complete =>
    if s.dev.pending = [] then none else some ((), { s with dev := s.dev.complete })
  | .interrupt =>
    if s.dev.irq = true ∧ s.sched.irqSemaphore = 0 then s.isr.map fun s' ↦ ((), s') else none

/-! What each step does, for the proofs to go through once. -/

section Steps

variable {disk : ℕ → ℕ → ℕ} {s s' : System} {u : Unit}

theorem step_create {p : ℕ} : s.step disk (.create p) = some (u, s') ↔
    (s.sched.pc = .user ∧ s.outside = true ∧ p ∉ s.sched.live) ∧
      s' = { s with sched := s.sched.createProcess p } := by
  rw [step, guarded_eq_some, and_iff_right rfl]

theorem step_call {lba : ℕ} : s.step disk (.call lba) = some (u, s') ↔
    ∃ p, s.running = some p ∧ (s.pcs p = .user ∧ lba < 2 ^ 48) ∧ s' = s.readBlock p lba := by
  rw [step]
  rcases s.running with - | p
  · simp
  · simp [eq_comm]

theorem step_advance : s.step disk .advance = some (u, s') ↔
    ∃ p, s.running = some p ∧ s.pcs p ≠ .user ∧ s' = s.advance disk p (s.pcs p) := by
  rw [step]
  rcases s.running with - | p
  · simp
  · simp [eq_comm]

theorem step_yield : s.step disk .yield = some (u, s') ↔
    s.mayYield = true ∧ s' = { s with sched := s.sched.yieldTrap.2 } := by
  rw [step, guarded_eq_some, and_iff_right rfl]

theorem step_runCheck : s.step disk .runCheck = some (u, s') ↔
    (s.sched.pc = .user ∧ s.sched.currProc = .main) ∧
      s' = { s with sched := s.sched.runCheck } := by
  rw [step, guarded_eq_some, and_iff_right rfl]

theorem step_complete : s.step disk .complete = some (u, s') ↔
    s.dev.pending ≠ [] ∧ s' = { s with dev := s.dev.complete } := by
  rw [step, Option.ite_none_left_eq_some, Option.some_inj, Prod.mk_inj, and_iff_right rfl,
    @eq_comm _ _ s']

theorem step_interrupt : s.step disk .interrupt = some (u, s') ↔
    (s.dev.irq = true ∧ s.sched.irqSemaphore = 0) ∧ s.isr = some s' := by
  rw [step, Option.ite_none_right_eq_some, Option.map_eq_some_iff]
  simp

end Steps

/-- The system at boot, after the driver's initialisation: no process, no request, an idle
device. -/
def boot : System where
  sched := .boot
  reqs := ⟨id, id⟩
  lba := fun _ ↦ 0
  dev := ⟨fun _ ↦ (0, 0), [], none, false⟩
  pcs := fun _ ↦ .user
  calls := []
  wakes := []
  results := []

end System

end Ata

end Marimba
