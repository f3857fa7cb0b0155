import Marimba.Foundations.Transition
import Marimba.Ps2.OpenCount
import Mathlib.Tactic.FinCases

/-!
# The two interrupt controllers (`arch/x86_64/interrupts.c`)

An 8259 has a register of requests, one of masks and one of interrupts in service. The two of them
are cascaded: the slave is connected to line 2 of the master. `PIC_init` brings them into a known
state by the four initialisation words, and from then on they are written by `IRQ_set_mask`,
`IRQ_clear_mask` and `PIC_sendEOI`. A controller answers nothing of lower priority while an
interrupt is in service, and so **an end of interrupt that was missing, or was sent to the wrong one
of the two, would silence lines for ever**.

`Lines` is what the rest of the kernel takes the controllers for: sixteen lines in a fixed order of
priority, each of which is masked or not and requests an interrupt or does not. `controllers_refine`
says that the controllers are that, in every run: the handlers that `IRQ_generic_isr` calls, their
order and their interrupt numbers are those of `Lines`, and none of the interrupts of devices is
without a handler, since drivers unmask a line only after they have set its handler.

`PIC_init` leaves line 2 as it finds it: where the firmware has masked it, no interrupt of the slave
ever comes.
-/

namespace Marimba

namespace Controllers

open Ps2 (Pic picMasterRemapBase)

/-! ### An 8259 -/

/-- What a controller takes the next byte at its data port for. -/
inductive Expect where
  | icw2 | icw3 | icw4 | mask
  deriving DecidableEq

structure Chip where
  expect : Expect
  single : Bool
  needIcw4 : Bool
  /-- The number of the interrupt of its line 0. -/
  vector : BitVec 8
  cascade : BitVec 8
  mode : BitVec 8
  imr : BitVec 8
  irr : BitVec 8
  isr : BitVec 8

namespace Chip

/-- The end of the interrupt in service that has the highest priority. -/
def endOfInterrupt (c : Chip) : Chip :=
  match (List.finRange 8).find? fun l : Fin 8 ↦ c.isr.getLsbD l with
  | some l => { c with isr := c.isr &&& ~~~BitVec.twoPow 8 l }
  | none => c

/-- A byte is written to the command port: the first initialisation word, or an end of interrupt.
The other command words are not used. -/
def command (c : Chip) (v : BitVec 8) : Chip :=
  if v.getLsbD 4 then
    { c with
      expect := .icw2
      single := v.getLsbD 1
      needIcw4 := v.getLsbD 0
      mode := if v.getLsbD 0 then c.mode else 0
      imr := 0
      irr := 0
      isr := 0 }
  else if v = 0x20 then c.endOfInterrupt
  else c

/-- A byte is written to the data port. -/
def data (c : Chip) (v : BitVec 8) : Chip :=
  match c.expect with
  | .icw2 => { c with
    vector := v &&& 0xF8
    expect := if c.single then if c.needIcw4 then .icw4 else .mask else .icw3 }
  | .icw3 => { c with cascade := v, expect := if c.needIcw4 then .icw4 else .mask }
  | .icw4 => { c with mode := v, expect := .mask }
  | .mask => { c with imr := v }

/-- The line a controller asks for an interrupt for: the first one that requests it and is not
masked, unless an interrupt of the same or a higher priority is in service. -/
def request (c : Chip) : Option (Fin 8) :=
  ((List.finRange 8).find? fun l : Fin 8 ↦
    c.isr.getLsbD l || (c.irr.getLsbD l && !c.imr.getLsbD l)).filter fun l ↦ !c.isr.getLsbD l

/-- The interrupt of a line goes into service, unless the controller ends interrupts by itself. -/
def accept (c : Chip) (l : Fin 8) : Chip :=
  { c with
    irr := c.irr &&& ~~~BitVec.twoPow 8 l
    isr := if c.mode.getLsbD 1 then c.isr else c.isr ||| BitVec.twoPow 8 l }

end Chip

/-! ### Two of them -/

structure Pair where
  master : Chip
  slave : Chip

/-- `PIC_MASTER_COMMAND`. -/
abbrev picMasterCommand : ℕ := 0x20

/-- `PIC_MASTER_DATA`. -/
abbrev picMasterData : ℕ := 0x21

/-- `PIC_SLAVE_COMMAND`. -/
abbrev picSlaveCommand : ℕ := 0xA0

/-- `PIC_SLAVE_DATA`. -/
abbrev picSlaveData : ℕ := 0xA1

namespace Pair

def outb (p : Pair) (port : ℕ) (v : BitVec 8) : Pair :=
  if port = picMasterCommand then { p with master := p.master.command v }
  else if port = picMasterData then { p with master := p.master.data v }
  else if port = picSlaveCommand then { p with slave := p.slave.command v }
  else if port = picSlaveData then { p with slave := p.slave.data v }
  else p

@[simp] theorem outb_masterCommand (p : Pair) (v : BitVec 8) :
    p.outb picMasterCommand v = { p with master := p.master.command v } := rfl
@[simp] theorem outb_masterData (p : Pair) (v : BitVec 8) :
    p.outb picMasterData v = { p with master := p.master.data v } := rfl
@[simp] theorem outb_slaveCommand (p : Pair) (v : BitVec 8) :
    p.outb picSlaveCommand v = { p with slave := p.slave.command v } := rfl
@[simp] theorem outb_slaveData (p : Pair) (v : BitVec 8) :
    p.outb picSlaveData v = { p with slave := p.slave.data v } := rfl

/-- Of the ports only those of the data are read. -/
def inb (p : Pair) (port : ℕ) : BitVec 8 :=
  if port = picMasterData then p.master.imr else p.slave.imr

/-- The master, with the slave on its line 2. -/
def wired (p : Pair) : Chip :=
  { p.master with
    irr := if p.slave.request.isSome then p.master.irr ||| BitVec.twoPow 8 2
      else p.master.irr &&& ~~~BitVec.twoPow 8 2 }

/-- The processor takes an interrupt: its number, and the controllers then. On a line to which a
slave is connected, the slave gives the number if it is the one of this line. -/
def acknowledge (p : Pair) : Option (BitVec 8 × Pair) :=
  p.wired.request.bind fun l ↦
    if p.master.cascade.getLsbD l then
      if p.slave.cascade = BitVec.ofNat 8 l then
        p.slave.request.map fun j : Fin 8 ↦
          (p.slave.vector + BitVec.ofNat 8 j, ⟨p.master.accept l, p.slave.accept j⟩)
      else none
    else some (p.master.vector + BitVec.ofNat 8 l, { p with master := p.master.accept l })

/-- A device requests an interrupt. None is connected to line 2. -/
def raise (p : Pair) (l : Fin 16) : Pair :=
  if l = 2 then p
  else if (l : ℕ) < 8 then
    { p with master := { p.master with irr := p.master.irr ||| BitVec.twoPow 8 l } }
  else { p with slave := { p.slave with irr := p.slave.irr ||| BitVec.twoPow 8 (l - 8) } }

/-! ### The code -/

/-- `IRQ_set_mask` and `IRQ_clear_mask`, given what becomes of the register and the bit of the
line. -/
def modifyMask (p : Pair) (irq : ℕ) (f : BitVec 8 → BitVec 8 → BitVec 8) : Pair :=
  if irq < picMasterRemapBase ∨ irq - picMasterRemapBase > 0x2F then p
  else
    let line := irq - picMasterRemapBase
    if line < 8 then p.outb picMasterData (f (p.inb picMasterData) (BitVec.twoPow 8 line))
    else p.outb picSlaveData (f (p.inb picSlaveData) (BitVec.twoPow 8 (line - 8)))

/-- `IRQ_set_mask`. -/
def irqSetMask (p : Pair) (irq : ℕ) : Pair := p.modifyMask irq fun value bit ↦ value ||| bit

/-- `IRQ_clear_mask`. -/
def irqClearMask (p : Pair) (irq : ℕ) : Pair := p.modifyMask irq fun value bit ↦ value &&& ~~~bit

/-- `PIC_init`. -/
def picInit (p : Pair) : Pair :=
  let a1 := p.inb picMasterData
  let a2 := p.inb picSlaveData
  -- `ICW1_INIT | ICW1_ICW4`
  let p := p.outb picMasterCommand 0x11
  let p := p.outb picSlaveCommand 0x11
  let p := p.outb picMasterData 0x20
  let p := p.outb picSlaveData 0x28
  let p := p.outb picMasterData 4
  let p := p.outb picSlaveData 2
  let p := p.outb picMasterData 0x01
  let p := p.outb picSlaveData 0x01
  let p := p.outb picMasterData a1
  let p := p.outb picSlaveData a2
  (List.range 16).foldl (fun p i ↦ if i ≠ 2 then p.irqSetMask (i + picMasterRemapBase) else p) p

/-- `PIC_sendEOI`. -/
def picSendEOI (p : Pair) (irq : ℕ) : Pair :=
  let p := if irq ≥ 8 then p.outb picSlaveCommand 0x20 else p
  p.outb picMasterCommand 0x20

end Pair

/-- The controllers and the table `handlers`. -/
structure Irqs (H : Type*) where
  pics : Pair
  handlers : Fin 256 → Option H

/-- What devices, drivers and handlers do: a request, and the calls of `IRQ_set_handler`,
`IRQ_clear_mask` and `IRQ_set_mask` for the line of a device. As the drivers do, a line is unmasked
only behind the call that sets its handler (`attach`). -/
inductive Op (H : Type*) where
  | raise (l : Fin 16)
  | setHandler (l : Fin 16) (h : H)
  | attach (l : Fin 16) (h : H)
  | mask (l : Fin 16)

/-- What happens: something of this, an interrupt of a device if there is one to be taken, whose
handler does something of this, or another interrupt. -/
inductive Event (H : Type*) where
  | op (o : Op H)
  | interrupt (body : H → List (Op H))
  | trap (irq : Fin 256) (body : List (Op H))

/-- The number of the interrupt of a line. -/
def irqOf (l : Fin 16) : Fin 256 := ⟨l + 0x20, by omega⟩

namespace Irqs

variable {H : Type*}

/-- `IRQ_set_handler`; `none` when it writes behind the table. -/
def irqSetHandler (s : Irqs H) (irq : ℤ) (h : H) : Option (Irqs H) :=
  if irq > 256 ∨ irq < 0 then some s
  else if hirq : irq.toNat < 256 then
    some { s with handlers := Function.update s.handlers ⟨irq.toNat, hirq⟩ (some h) }
  else none

/-- One of the calls, or a request. -/
def exec (s : Irqs H) : Op H → Irqs H
  | .raise l => { s with pics := s.pics.raise l }
  | .setHandler l h => (s.irqSetHandler (irqOf l) h).getD s
  | .attach l h =>
    let s := (s.irqSetHandler (irqOf l) h).getD s
    { s with pics := s.pics.irqClearMask (irqOf l) }
  | .mask l => { s with pics := s.pics.irqSetMask (irqOf l) }

/-- `IRQ_generic_isr`, up to the end of the interrupt: the handler runs if there is one. -/
def irqGenericIsr (s : Irqs H) (irq : Fin 256) (body : H → List (Op H)) : Irqs H :=
  let s := match s.handlers irq with
    | some h => (body h).foldl exec s
    | none => s
  if picMasterRemapBase ≤ irq ∧ (irq : ℕ) ≤ picMasterRemapBase + 0x2F then
    { s with pics := s.pics.picSendEOI (irq - picMasterRemapBase) }
  else s

/-- One event. The output is the number of an interrupt of a device, with its handler. Traps are
the interrupts that are not those of the controllers. -/
def step (s : Irqs H) : Event H → Option (Option (Fin 256 × Option H) × Irqs H)
  | .op o => some (none, s.exec o)
  | .interrupt body =>
    match s.pics.acknowledge with
    | some (v, pics) =>
      let s := { s with pics }
      some (some (v.toFin, s.handlers v.toFin), s.irqGenericIsr v.toFin body)
    | none => some (none, s)
  | .trap irq body =>
    if picMasterRemapBase ≤ irq ∧ (irq : ℕ) ≤ picMasterRemapBase + 0x2F then none
    else some (none, s.irqGenericIsr irq fun _ ↦ body)

end Irqs

/-! ### Sixteen lines -/

/-- What the controllers are for: which lines request an interrupt, and which are masked. -/
structure Lines (H : Type*) where
  pending : Fin 16 → Bool
  masked : Fin 16 → Bool
  handlers : Fin 256 → Option H

namespace Lines

variable {H : Type*}

/-- The lines of devices, by their priority. -/
def order : List (Fin 16) := [0, 1, 8, 9, 10, 11, 12, 13, 14, 15, 3, 4, 5, 6, 7]

/-- The interrupt of a line can be taken. The lines from 8 on are masked with line 2. -/
def ready (a : Lines H) (l : Fin 16) : Bool :=
  a.pending l && !a.masked l && !(decide (8 ≤ l) && a.masked 2)

/-- The line whose interrupt is taken next. -/
def next (a : Lines H) : Option (Fin 16) := order.find? a.ready

def exec (a : Lines H) : Op H → Lines H
  | .raise l => if l = 2 then a else { a with pending := Function.update a.pending l true }
  | .setHandler l h => { a with handlers := Function.update a.handlers (irqOf l) (some h) }
  | .attach l h => { a with
    handlers := Function.update a.handlers (irqOf l) (some h)
    masked := Function.update a.masked l false }
  | .mask l => { a with masked := Function.update a.masked l true }

/-- The handler of an interrupt does its work. -/
def handle (a : Lines H) (irq : Fin 256) (body : H → List (Op H)) : Lines H :=
  match a.handlers irq with
  | some h => (body h).foldl exec a
  | none => a

def step (a : Lines H) : Event H → Option (Option (Fin 256 × Option H) × Lines H)
  | .op o => some (none, a.exec o)
  | .interrupt body =>
    match a.next with
    | some l =>
      let a := { a with pending := Function.update a.pending l false }
      some (some (irqOf l, a.handlers (irqOf l)), a.handle (irqOf l) body)
    | none => some (none, a)
  | .trap irq body =>
    if picMasterRemapBase ≤ irq ∧ (irq : ℕ) ≤ picMasterRemapBase + 0x2F then none
    else some (none, a.handle irq fun _ ↦ body)

end Lines

/-! ### Bits and lines -/

/-- The bit of a line in a register of the master and in one of the slave. -/
def lineBit (m s : BitVec 8) (l : Fin 16) : Bool :=
  if (l : ℕ) < 8 then m.getLsbD l else s.getLsbD (l - 8)

theorem lineBit_or_master (m s : BitVec 8) {l : Fin 16} (hl : (l : ℕ) < 8) (k : Fin 16) :
    lineBit (m ||| BitVec.twoPow 8 l) s k = Function.update (lineBit m s) l true k := by
  rw [Function.update_apply, lineBit, lineBit, BitVec.getLsbD_or, BitVec.getLsbD_twoPow]
  grind

/-- Among the lines of the slave, the bit tells the line. -/
theorem sub_eight_eq_iff {k l : Fin 16} (hl : ¬(l : ℕ) < 8) (hk : ¬(k : ℕ) < 8) :
    (l : ℕ) - 8 = k - 8 ↔ k = l := by
  rw [Fin.ext_iff]
  omega

theorem lineBit_or_slave (m s : BitVec 8) {l : Fin 16} (hl : ¬(l : ℕ) < 8) (k : Fin 16) :
    lineBit m (s ||| BitVec.twoPow 8 (l - 8)) k = Function.update (lineBit m s) l true k := by
  have hkl := sub_eight_eq_iff (k := k) hl
  rw [Function.update_apply, lineBit, lineBit, BitVec.getLsbD_or, BitVec.getLsbD_twoPow]
  grind

theorem lineBit_clear_master (m s : BitVec 8) {l : Fin 16} (hl : (l : ℕ) < 8) (k : Fin 16) :
    lineBit (m &&& ~~~BitVec.twoPow 8 l) s k = Function.update (lineBit m s) l false k := by
  rw [Function.update_apply, lineBit, lineBit, BitVec.getLsbD_and, BitVec.getLsbD_not,
    BitVec.getLsbD_twoPow]
  grind

theorem lineBit_clear_slave (m s : BitVec 8) {l : Fin 16} (hl : ¬(l : ℕ) < 8) (k : Fin 16) :
    lineBit m (s &&& ~~~BitVec.twoPow 8 (l - 8)) k = Function.update (lineBit m s) l false k := by
  have hkl := sub_eight_eq_iff (k := k) hl
  rw [Function.update_apply, lineBit, lineBit, BitVec.getLsbD_and, BitVec.getLsbD_not,
    BitVec.getLsbD_twoPow]
  grind

theorem update_congr {f g : Fin 16 → Bool} {k l : Fin 16} {b : Bool} (h : f k = g k) :
    Function.update f l b k = Function.update g l b k := by
  rw [Function.update_apply, Function.update_apply, h]

/-! ### The controllers and the lines -/

/-- A controller that has been initialised, with what is in service. -/
structure Chip.Ready (c : Chip) (vector cascade isr : BitVec 8) : Prop where
  expect : c.expect = .mask
  mode : c.mode.getLsbD 1 = false
  vector : c.vector = vector
  cascade : c.cascade = cascade
  isr : c.isr = isr

/-- The controllers are the lines `a`, while `mi` and `si` are in service. -/
structure Tracks {H : Type*} (mi si : BitVec 8) (s : Irqs H) (a : Lines H) : Prop where
  master : s.pics.master.Ready 0x20 4 mi
  slave : s.pics.slave.Ready 0x28 2 si
  pending : ∀ l, l ≠ 2 → lineBit s.pics.master.irr s.pics.slave.irr l = a.pending l
  masked : ∀ l, lineBit s.pics.master.imr s.pics.slave.imr l = a.masked l
  handlers : s.handlers = a.handlers

section Steps

variable {H : Type*} {mi si : BitVec 8} {s : Irqs H} {a : Lines H}

theorem irqSetHandler_irqOf (s : Irqs H) (l : Fin 16) (h : H) :
    s.irqSetHandler (irqOf l) h =
      some { s with handlers := Function.update s.handlers (irqOf l) (some h) } := by
  have hlt : ((irqOf l : ℕ) : ℤ).toNat < 256 := (irqOf l).isLt
  rw [Irqs.irqSetHandler, if_neg (by omega), dif_pos hlt]
  rfl

/-- The mask register of a line is read, changed and written back. -/
theorem Tracks.modifyMask (h : Tracks mi si s a) (l : Fin 16)
    (f : BitVec 8 → BitVec 8 → BitVec 8) :
    s.pics.modifyMask (irqOf l) f =
      if (l : ℕ) < 8 then { s.pics with
        master := { s.pics.master with imr := f s.pics.master.imr (BitVec.twoPow 8 l) } }
      else { s.pics with
        slave := { s.pics.slave with imr := f s.pics.slave.imr (BitVec.twoPow 8 (l - 8)) } } := by
  have hline : (irqOf l : ℕ) - picMasterRemapBase = l := Nat.add_sub_cancel ..
  have hrange : ¬((irqOf l : ℕ) < picMasterRemapBase ∨
      (irqOf l : ℕ) - picMasterRemapBase > 0x2F) := by
    rw [hline]
    have hl := l.isLt
    have hirq : (irqOf l : ℕ) = l + 0x20 := rfl
    have hbase : picMasterRemapBase = 0x20 := rfl
    omega
  rw [Pair.modifyMask, if_neg hrange]
  dsimp only
  rw [hline]
  split_ifs with hl
  · rw [Pair.outb_masterData, Chip.data, h.master.expect]
    rfl
  · rw [Pair.outb_slaveData, Chip.data, h.slave.expect]
    rfl

theorem Tracks.setMask (h : Tracks mi si s a) (l : Fin 16) :
    Tracks mi si { s with pics := s.pics.irqSetMask (irqOf l) }
      { a with masked := Function.update a.masked l true } := by
  have hmask := funext h.masked
  rw [Pair.irqSetMask, h.modifyMask]
  split_ifs with hl
  · refine ⟨⟨h.master.1, h.master.2, h.master.3, h.master.4, h.master.5⟩, h.slave, h.pending,
      fun k ↦ ?_, h.handlers⟩
    exact (lineBit_or_master _ _ hl k).trans (by rw [hmask])
  · refine ⟨h.master, ⟨h.slave.1, h.slave.2, h.slave.3, h.slave.4, h.slave.5⟩, h.pending,
      fun k ↦ ?_, h.handlers⟩
    exact (lineBit_or_slave _ _ hl k).trans (by rw [hmask])

theorem Tracks.clearMask (h : Tracks mi si s a) (l : Fin 16) :
    Tracks mi si { s with pics := s.pics.irqClearMask (irqOf l) }
      { a with masked := Function.update a.masked l false } := by
  have hmask := funext h.masked
  rw [Pair.irqClearMask, h.modifyMask]
  split_ifs with hl
  · refine ⟨⟨h.master.1, h.master.2, h.master.3, h.master.4, h.master.5⟩, h.slave, h.pending,
      fun k ↦ ?_, h.handlers⟩
    exact (lineBit_clear_master _ _ hl k).trans (by rw [hmask])
  · refine ⟨h.master, ⟨h.slave.1, h.slave.2, h.slave.3, h.slave.4, h.slave.5⟩, h.pending,
      fun k ↦ ?_, h.handlers⟩
    exact (lineBit_clear_slave _ _ hl k).trans (by rw [hmask])

theorem Tracks.raise (h : Tracks mi si s a) (l : Fin 16) :
    Tracks mi si (s.exec (.raise l)) (a.exec (.raise l)) := by
  by_cases htwo : l = 2
  · rw [Irqs.exec, Pair.raise, Lines.exec, if_pos htwo, if_pos htwo]
    exact h
  · rw [Irqs.exec, Pair.raise, Lines.exec, if_neg htwo, if_neg htwo]
    split_ifs with hl
    · refine ⟨⟨h.master.1, h.master.2, h.master.3, h.master.4, h.master.5⟩, h.slave, fun k hk ↦ ?_,
        h.masked, h.handlers⟩
      exact (lineBit_or_master _ _ hl k).trans (update_congr (h.pending k hk))
    · refine ⟨h.master, ⟨h.slave.1, h.slave.2, h.slave.3, h.slave.4, h.slave.5⟩, fun k hk ↦ ?_,
        h.masked, h.handlers⟩
      exact (lineBit_or_slave _ _ hl k).trans (update_congr (h.pending k hk))

theorem Tracks.setHandler (h : Tracks mi si s a) (l : Fin 16) (f : H) :
    Tracks mi si (s.exec (.setHandler l f)) (a.exec (.setHandler l f)) := by
  rw [Irqs.exec, irqSetHandler_irqOf, Option.getD_some, Lines.exec, ← h.handlers]
  exact ⟨h.master, h.slave, h.pending, h.masked, rfl⟩

/-- Whatever is in service, requests, handlers and masks change alike. -/
theorem Tracks.exec (h : Tracks mi si s a) (o : Op H) : Tracks mi si (s.exec o) (a.exec o) := by
  cases o with
  | raise l => exact h.raise l
  | setHandler l f => exact h.setHandler l f
  | attach l f => exact (h.setHandler l f).clearMask l
  | mask l => exact h.setMask l

theorem Tracks.foldl_exec (h : Tracks mi si s a) (os : List (Op H)) :
    Tracks mi si (os.foldl Irqs.exec s) (os.foldl Lines.exec a) := by
  induction os generalizing s a with
  | nil => exact h
  | cons o os ih => exact ih (h.exec o)

end Steps

/-! ### Priorities -/

/-- A line of the master. -/
def low (l : Fin 8) : Fin 16 := ⟨l, by omega⟩

/-- A line of the slave. -/
def up (j : Fin 8) : Fin 16 := ⟨j + 8, by omega⟩

/-- Among lines of the master other than line 2. -/
theorem find_low {q : Fin 16 → Bool} {f : Fin 8 → Bool} (hlow : ∀ l, l ≠ 2 → f l = q (low l))
    {ls : List (Fin 8)} (hls : (2 : Fin 8) ∉ ls) : (ls.map low).find? q = (ls.find? f).map low := by
  induction ls with
  | nil => rfl
  | cons l ls ih =>
    obtain ⟨hne, hls⟩ := List.ne_and_not_mem_of_not_mem_cons hls
    rw [List.map_cons, List.find?_cons, List.find?_cons, ← hlow l hne.symm, ih hls]
    cases f l <;> rfl

/-- The order of the lines is that of the master, with the lines of the slave in the place of its
line 2. -/
theorem find_order (q : Fin 16 → Bool) (f : Fin 8 → Bool) (hlow : ∀ l, l ≠ 2 → f l = q (low l))
    (hmid : f 2 = ((List.finRange 8).find? fun j ↦ q (up j)).isSome) :
    Lines.order.find? q = ((List.finRange 8).find? f).bind fun l ↦
      if l = 2 then ((List.finRange 8).find? fun j ↦ q (up j)).map up else some (low l) := by
  have horder : Lines.order = [0, 1].map low ++ ((List.finRange 8).map up ++
      [3, 4, 5, 6, 7].map low) := by decide
  have hrange : List.finRange 8 = [0, 1] ++ 2 :: [3, 4, 5, 6, 7] := by decide
  have hslave : ((List.finRange 8).map up).find? q =
      ((List.finRange 8).find? fun j ↦ q (up j)).map up := List.find?_map
  have hbind {ls : List (Fin 8)} (hls : (2 : Fin 8) ∉ ls) (g : Fin 8 → Option (Fin 16)) :
      ((ls.find? f).bind fun l ↦ if l = 2 then g l else some (low l)) = (ls.find? f).map low := by
    cases hfind : ls.find? f with
    | none => rfl
    | some l =>
      have hne : l ≠ 2 := fun he ↦ hls (he ▸ List.mem_of_find?_eq_some hfind)
      rw [Option.bind_some, if_neg hne, Option.map_some]
  rw [horder, List.find?_append, List.find?_append, find_low hlow (by decide),
    find_low hlow (by decide), hslave]
  generalize (List.finRange 8).find? (fun j ↦ q (up j)) = o at hmid ⊢
  have htwo : (2 :: [3, 4, 5, 6, 7]).find? f =
      if o.isSome then some 2 else [3, 4, 5, 6, 7].find? f := by
    rw [List.find?_cons, hmid]
    cases o <;> rfl
  rw [hrange, List.find?_append, htwo]
  cases hfirst : [0, 1].find? f with
  | some l =>
    have hne : l ≠ 2 := by
      rintro rfl
      revert hfirst
      have hmem := List.mem_of_find?_eq_some (p := f) (l := [0, 1]) (a := 2)
      exact fun h ↦ absurd (hmem h) (by decide)
    rw [Option.map_some, Option.some_or, Option.some_or, Option.bind_some, if_neg hne]
  | none =>
    cases o with
    | some j => rfl
    | none => exact (hbind (by decide) _).symm

/-! ### Interrupts -/

theorem Chip.request_of_isr {c : Chip} (h : c.isr = 0) :
    c.request = (List.finRange 8).find? fun l : Fin 8 ↦ c.irr.getLsbD l && !c.imr.getLsbD l := by
  have hzero (l : Fin 8) : (0 : BitVec 8).getLsbD l = false := BitVec.getLsbD_zero
  rw [request, h]
  simp only [hzero, Bool.false_or, Bool.not_false]
  cases (List.finRange 8).find? fun l : Fin 8 ↦ c.irr.getLsbD l && !c.imr.getLsbD l <;> rfl

theorem Chip.Ready.accept {c : Chip} {vector cascade : BitVec 8} (h : c.Ready vector cascade 0)
    (l : Fin 8) : (c.accept l).Ready vector cascade (BitVec.twoPow 8 l) := by
  refine ⟨h.expect, h.mode, h.vector, h.cascade, ?_⟩
  rw [Chip.accept, h.mode, h.isr]
  exact BitVec.zero_or

theorem find_twoPow (l : Fin 8) :
    ((List.finRange 8).find? fun k : Fin 8 ↦ (BitVec.twoPow 8 l).getLsbD k) = some l := by
  revert l
  decide

theorem twoPow_and_not (l : Fin 8) : BitVec.twoPow 8 l &&& ~~~BitVec.twoPow 8 l = 0 := by
  revert l
  decide

/-- An end of interrupt, when at most one interrupt is in service. -/
theorem Chip.command_eoi {c : Chip} (h : c.isr = 0 ∨ ∃ l : Fin 8, c.isr = BitVec.twoPow 8 l) :
    c.command 0x20 = { c with isr := 0 } := by
  rw [command, if_neg (by decide), if_pos rfl, endOfInterrupt]
  rcases h with h | ⟨l, h⟩
  · have hfind : ((List.finRange 8).find? fun k : Fin 8 ↦ c.isr.getLsbD k) = none := by
      rw [h]
      decide
    simp only [hfind, ← h]
  · simp only [h, find_twoPow, twoPow_and_not]

theorem number_up (j : Fin 8) :
    (0x28 : BitVec 8) + BitVec.ofNat 8 j = BitVec.ofNat 8 (irqOf (up j)) := by
  revert j
  decide

theorem number_low (l : Fin 8) :
    (0x20 : BitVec 8) + BitVec.ofNat 8 l = BitVec.ofNat 8 (irqOf (low l)) := by
  revert l
  decide

theorem cascade_bit (l : Fin 8) : (4 : BitVec 8).getLsbD l = decide (l = 2) := by
  revert l
  decide

theorem up_sub_eight (j : Fin 8) : (up j : ℕ) - 8 = j := Nat.add_sub_cancel ..

/-- What is in service after the interrupt of a line has been taken. -/
def inService (l : Fin 16) : BitVec 8 × BitVec 8 :=
  if (l : ℕ) < 8 then (BitVec.twoPow 8 l, 0) else (BitVec.twoPow 8 2, BitVec.twoPow 8 (l - 8))

section Interrupts

variable {H : Type*} {s : Irqs H} {a : Lines H}

theorem lineBit_low (m s : BitVec 8) (l : Fin 8) : lineBit m s (low l) = m.getLsbD l :=
  if_pos l.isLt

theorem lineBit_up (m s : BitVec 8) (j : Fin 8) : lineBit m s (up j) = s.getLsbD j := by
  have hnot : ¬((up j : ℕ) < 8) := Nat.not_lt.2 (Nat.le_add_left 8 j)
  rw [lineBit, if_neg hnot]
  rfl

/-- What the slave asks for. -/
theorem Tracks.slave_request (h : Tracks 0 0 s a) :
    s.pics.slave.request =
      (List.finRange 8).find? fun j ↦ a.pending (up j) && !a.masked (up j) := by
  rw [Chip.request_of_isr h.slave.isr]
  refine congrArg (fun p ↦ (List.finRange 8).find? p) (funext fun j ↦ ?_)
  have hne : up j ≠ 2 := by
    rw [Ne, Fin.ext_iff]
    show (j : ℕ) + 8 ≠ 2
    omega
  rw [← h.pending _ hne, ← h.masked, lineBit_up, lineBit_up]

theorem Pair.wired_irr (p : Pair) (l : Fin 8) :
    p.wired.irr.getLsbD l =
      if l = 2 then p.slave.request.isSome else p.master.irr.getLsbD l := by
  have htwo : (l : ℕ) = 2 ↔ l = 2 := (Fin.ext_iff (a := l) (b := 2)).symm
  rw [wired]
  dsimp only
  by_cases hl : l = 2
  · rw [if_pos hl, hl]
    cases p.slave.request.isSome <;> simp
  · have hbit : (BitVec.twoPow 8 2).getLsbD l = false := by
      rw [BitVec.getLsbD_twoPow]
      simp [Ne.symm (mt htwo.1 hl)]
    rw [if_neg hl]
    split_ifs
    · rw [BitVec.getLsbD_or, hbit, Bool.or_false]
    · rw [BitVec.getLsbD_and, BitVec.getLsbD_not, hbit, decide_eq_true l.isLt]
      exact Bool.and_true _

theorem low_ne_two {l : Fin 8} (hl : l ≠ 2) : low l ≠ 2 := by
  rw [Ne, Fin.ext_iff] at *
  exact hl

/-- The next line, by what the controllers ask for. -/
theorem Tracks.next_eq (h : Tracks 0 0 s a) :
    a.next = s.pics.wired.request.bind fun l ↦
      if l = 2 then s.pics.slave.request.map up else some (low l) := by
  have hready (j : Fin 8) :
      a.ready (up j) = (a.pending (up j) && !a.masked (up j) && !a.masked 2) := by
    have hge : 8 ≤ up j := Nat.le_add_left 8 j
    rw [Lines.ready, decide_eq_true hge, Bool.true_and]
  have htwo : s.pics.master.imr.getLsbD ((2 : Fin 8) : ℕ) = a.masked 2 := by
    rw [← h.masked]
    rfl
  have hisr : s.pics.wired.isr = 0 := h.master.isr
  rw [Chip.request_of_isr hisr, Lines.next, find_order a.ready
    (fun l ↦ s.pics.wired.irr.getLsbD l && !s.pics.wired.imr.getLsbD l)]
  · refine Option.bind_congr fun l hl ↦ ?_
    have hf := List.find?_some hl
    by_cases hl2 : l = 2
    · subst hl2
      rw [Bool.and_eq_true, Bool.not_eq_true'] at hf
      have hclear : a.masked 2 = false := htwo.symm.trans hf.2
      rw [if_pos rfl, if_pos rfl, h.slave_request]
      simp only [hready, hclear, Bool.not_false, Bool.and_true]
    · rw [if_neg hl2, if_neg hl2]
  · intro l hl
    have hnot : ¬8 ≤ low l := Nat.not_le.2 l.isLt
    rw [Pair.wired_irr, if_neg hl, Lines.ready, ← h.pending _ (low_ne_two hl), ← h.masked,
      lineBit_low, lineBit_low, decide_eq_false hnot, Bool.false_and, Bool.not_false, Bool.and_true]
    rfl
  · show (s.pics.wired.irr.getLsbD ((2 : Fin 8) : ℕ) &&
      !s.pics.master.imr.getLsbD ((2 : Fin 8) : ℕ)) = _
    rw [Pair.wired_irr, if_pos rfl, htwo, h.slave_request]
    simp only [hready]
    cases a.masked 2 <;> simp

/-- **The processor takes the interrupt of the line that is next.** -/
theorem Tracks.acknowledge (h : Tracks 0 0 s a) :
    match a.next with
    | none => s.pics.acknowledge = none
    | some l => ∃ pics, s.pics.acknowledge = some (BitVec.ofNat 8 (irqOf l), pics) ∧
      Tracks (inService l).1 (inService l).2 { s with pics }
        { a with pending := Function.update a.pending l false } := by
  have hnext := h.next_eq
  rw [Pair.acknowledge]
  cases hreq : s.pics.wired.request with
  | none =>
    rw [hreq, Option.bind_none] at hnext
    rw [hnext]
    rfl
  | some l =>
    rw [hreq, Option.bind_some] at hnext
    rw [Option.bind_some, h.master.cascade]
    by_cases hl : l = 2
    · subst hl
      rw [if_pos rfl] at hnext
      rw [if_pos (by decide), h.slave.cascade, if_pos (by decide)]
      cases hslave : s.pics.slave.request with
      | none =>
        rw [hslave, Option.map_none] at hnext
        rw [hnext]
        rfl
      | some j =>
        rw [hslave, Option.map_some] at hnext
        rw [hnext, h.slave.vector]
        have hup : ¬((up j : ℕ) < 8) := Nat.not_lt.2 (Nat.le_add_left 8 j)
        refine ⟨_, by rw [← number_up]; rfl, ?_⟩
        rw [inService, if_neg hup]
        refine ⟨h.master.accept 2, h.slave.accept j, fun k hk ↦ ?_, h.masked, h.handlers⟩
        have hclear := lineBit_clear_slave s.pics.master.irr s.pics.slave.irr hup k
        rw [up_sub_eight] at hclear
        refine (lineBit_clear_master _ _ (l := 2) (by decide) k).trans ?_
        rw [Function.update_of_ne hk]
        exact hclear.trans (update_congr (h.pending k hk))
    · rw [if_neg hl] at hnext
      have hlow : (low l : ℕ) < 8 := l.isLt
      rw [hnext, cascade_bit l, decide_eq_false hl, if_neg (by decide), h.master.vector, number_low]
      refine ⟨_, rfl, ?_⟩
      rw [inService, if_pos hlow]
      refine ⟨h.master.accept l, h.slave, fun k hk ↦ ?_, h.masked, h.handlers⟩
      exact (lineBit_clear_master _ _ hlow k).trans (update_congr (h.pending k hk))

/-- **The end of the interrupt** reaches the controllers it is in service in. -/
theorem Tracks.picSendEOI {l : Fin 16} (h : Tracks (inService l).1 (inService l).2 s a) :
    Tracks 0 0 { s with pics := s.pics.picSendEOI ((irqOf l : ℕ) - picMasterRemapBase) } a := by
  have hline : (irqOf l : ℕ) - picMasterRemapBase = l := Nat.add_sub_cancel ..
  rw [hline, Pair.picSendEOI]
  by_cases hl : (l : ℕ) < 8
  · rw [inService, if_pos hl] at h
    have hmaster := Chip.command_eoi (c := s.pics.master) (Or.inr ⟨⟨l, hl⟩, h.master.isr⟩)
    rw [if_neg (Nat.not_le.2 hl), Pair.outb_masterCommand, hmaster]
    exact ⟨⟨h.master.1, h.master.2, h.master.3, h.master.4, rfl⟩, h.slave, h.pending, h.masked,
      h.handlers⟩
  · rw [inService, if_neg hl] at h
    have hmaster := Chip.command_eoi (c := s.pics.master) (Or.inr ⟨2, h.master.isr⟩)
    have hslave := Chip.command_eoi (c := s.pics.slave)
      (Or.inr ⟨⟨l - 8, by omega⟩, h.slave.isr⟩)
    rw [if_pos (Nat.not_lt.1 hl), Pair.outb_slaveCommand, Pair.outb_masterCommand, hmaster, hslave]
    exact ⟨⟨h.master.1, h.master.2, h.master.3, h.master.4, rfl⟩,
      ⟨h.slave.1, h.slave.2, h.slave.3, h.slave.4, rfl⟩, h.pending, h.masked, h.handlers⟩

/-- `IRQ_generic_isr` for the interrupt of a device. -/
theorem Tracks.irqGenericIsr {l : Fin 16} (h : Tracks (inService l).1 (inService l).2 s a)
    (body : H → List (Op H)) :
    Tracks 0 0 (s.irqGenericIsr (irqOf l) body) (a.handle (irqOf l) body) := by
  have hrange : picMasterRemapBase ≤ irqOf l ∧ (irqOf l : ℕ) ≤ picMasterRemapBase + 0x2F := by
    have hirq : (irqOf l : ℕ) = l + 0x20 := rfl
    have hbase : picMasterRemapBase = 0x20 := rfl
    omega
  rw [Irqs.irqGenericIsr, if_pos hrange, Lines.handle, h.handlers]
  cases a.handlers (irqOf l) with
  | none => exact h.picSendEOI
  | some f => exact (h.foldl_exec (body f)).picSendEOI

/-- The mask registers, as the drivers see them. -/
def Pair.masks (p : Pair) : Pic := ⟨p.master.imr, p.slave.imr⟩

/-- What the ports do is what is done to the mask registers, for any interrupt number. -/
theorem Tracks.masks_modifyMask {mi si : BitVec 8} (h : Tracks mi si s a) (irq : ℕ)
    (f : BitVec 8 → BitVec 8 → BitVec 8) :
    (s.pics.modifyMask irq f).masks = s.pics.masks.modify irq f := by
  rw [Pair.modifyMask, Pic.modify]
  split_ifs
  · rfl
  · dsimp only
    split_ifs
    · rw [Pair.outb_masterData, Chip.data, h.master.expect]
      rfl
    · rw [Pair.outb_slaveData, Chip.data, h.slave.expect]
      rfl

/-! ### Runs -/

theorem toFin_irqOf (l : Fin 16) : (BitVec.ofNat 8 (irqOf l)).toFin = irqOf l := by
  revert l
  decide

/-- The controllers answer an event as the lines do. -/
theorem Tracks.step (h : Tracks 0 0 s a) (e : Event H) :
    Option.Rel (fun x y ↦ x.1 = y.1 ∧ Tracks 0 0 x.2 y.2) (s.step e) (a.step e) := by
  cases e with
  | op o => exact .some ⟨rfl, h.exec o⟩
  | interrupt body =>
    have hack := h.acknowledge
    rw [Irqs.step, Lines.step]
    cases hnext : a.next with
    | none =>
      rw [hnext] at hack
      rw [hack]
      exact .some ⟨rfl, h⟩
    | some l =>
      rw [hnext] at hack
      obtain ⟨pics, hpics, htracks⟩ := hack
      rw [hpics]
      dsimp only
      rw [toFin_irqOf]
      exact .some ⟨by rw [← h.handlers], htracks.irqGenericIsr body⟩
  | trap irq body =>
    rw [Irqs.step, Lines.step]
    split_ifs with hrange
    · exact .none
    · rw [Irqs.irqGenericIsr, if_neg hrange, Lines.handle, h.handlers]
      cases a.handlers irq with
      | none => exact .some ⟨rfl, h⟩
      | some f => exact .some ⟨rfl, h.foldl_exec body⟩

/-- The lines after `PIC_init`: all are masked but for line 2, which is as the firmware has left
it. -/
def Lines.boot (p : Pair) (handlers : Fin 256 → Option H) : Lines H where
  pending _ := false
  masked l := decide (l ≠ 2) || p.master.imr.getLsbD 2
  handlers := handlers

/-- Masking some lines. -/
theorem Tracks.foldl_irqSetMask (h : Tracks 0 0 s a) (ls : List (Fin 16)) :
    Tracks 0 0
      { s with pics := ls.foldl (fun p i ↦ if i ≠ 2 then p.irqSetMask (irqOf i) else p) s.pics }
      { a with masked := fun l ↦ a.masked l || (ls.contains l && decide (l ≠ 2)) } := by
  induction ls generalizing s a with
  | nil =>
    refine ⟨h.master, h.slave, h.pending, fun l ↦ ?_, h.handlers⟩
    refine (h.masked l).trans ?_
    simp
  | cons i ls ih =>
    rw [List.foldl_cons]
    by_cases hi : i ≠ 2
    · rw [if_pos hi]
      have hrest := ih (h.setMask i)
      refine ⟨hrest.master, hrest.slave, hrest.pending, fun l ↦ (hrest.masked l).trans ?_,
        hrest.handlers⟩
      dsimp only
      rw [Function.update_apply]
      by_cases hl : l = i
      · simp [hl, hi]
      · simp [hl]
    · rw [if_neg hi]
      have hrest := ih h
      refine ⟨hrest.master, hrest.slave, hrest.pending, fun l ↦ (hrest.masked l).trans ?_,
        hrest.handlers⟩
      dsimp only
      by_cases hl : l = i
      · simp [hl, not_not.1 hi]
      · simp [hl]

/-- A controller after the initialisation words. -/
def Chip.started (vector cascade imr : BitVec 8) : Chip :=
  ⟨.mask, false, true, vector, cascade, 1, imr, 0, 0⟩

theorem Chip.ready_started (vector cascade imr : BitVec 8) :
    (started vector cascade imr).Ready vector cascade 0 := by
  have hmode : (1 : BitVec 8).getLsbD 1 = false := by decide
  exact ⟨rfl, hmode, rfl, rfl, rfl⟩

theorem Pair.picInit_eq (p : Pair) :
    p.picInit = (List.finRange 16).foldl
      (fun p i ↦ if i ≠ 2 then p.irqSetMask (irqOf i) else p)
      ⟨Chip.started 0x20 4 p.master.imr, Chip.started 0x28 2 p.slave.imr⟩ := by
  have hmap : List.range 16 = (List.finRange 16).map Fin.val := by decide
  have hstep : (fun (p : Pair) (i : Fin 16) ↦
      if (i : ℕ) ≠ 2 then p.irqSetMask (i + picMasterRemapBase) else p) =
        fun p i ↦ if i ≠ 2 then p.irqSetMask (irqOf i) else p := by
    funext p i
    refine if_congr (not_congr ?_) rfl rfl
    exact (Fin.ext_iff (a := i) (b := 2)).symm
  rw [picInit, hmap, List.foldl_map, hstep]
  rfl

/-- **`PIC_init` brings the controllers into the state of the lines**, whatever state they are
in. -/
theorem tracks_picInit (p : Pair) (handlers : Fin 256 → Option H) :
    Tracks 0 0 ⟨p.picInit, handlers⟩ (Lines.boot p handlers) := by
  have hchips : Tracks 0 0
      ⟨⟨Chip.started 0x20 4 p.master.imr, Chip.started 0x28 2 p.slave.imr⟩, handlers⟩
      ⟨fun _ ↦ false, lineBit p.master.imr p.slave.imr, handlers⟩ := by
    refine ⟨Chip.ready_started .., Chip.ready_started .., fun l _ ↦ ?_, fun l ↦ rfl, rfl⟩
    rw [lineBit]
    split_ifs <;> exact BitVec.getLsbD_zero
  have hall := hchips.foldl_irqSetMask (List.finRange 16)
  rw [Pair.picInit_eq]
  refine ⟨hall.master, hall.slave, hall.pending, fun l ↦ (hall.masked l).trans ?_, rfl⟩
  rw [Lines.boot]
  dsimp only
  rw [List.contains_iff_mem.2 (List.mem_finRange l), Bool.true_and]
  by_cases hl : l = 2
  · subst hl
    exact Bool.or_comm ..
  · rw [decide_eq_true hl, Bool.or_true, Bool.true_or]

/-- Every line that is not masked has a handler, but for the one the slave is connected to. -/
def Lines.Attached (a : Lines H) : Prop :=
  ∀ l, l ≠ 2 → a.masked l = false → (a.handlers (irqOf l)).isSome

theorem Lines.Attached.exec (h : a.Attached) (o : Op H) : (a.exec o).Attached := by
  have hset (l k : Fin 16) (f : H) (hk : k = l ∨ (a.handlers (irqOf k)).isSome) :
      (Function.update a.handlers (irqOf l) (some f) (irqOf k)).isSome := by
    rw [Function.update_apply]
    split_ifs with he
    · rfl
    · exact hk.resolve_left fun hkl ↦ he (congrArg irqOf hkl)
  cases o with
  | raise l =>
    rw [Lines.exec]
    split_ifs
    · exact h
    · exact h
  | setHandler l f => exact fun k hk hm ↦ hset l k f (Or.inr (h k hk hm))
  | attach l f =>
    intro k hk hm
    refine hset l k f ?_
    by_cases hkl : k = l
    · exact Or.inl hkl
    · refine Or.inr (h k hk ?_)
      rw [← hm]
      exact (Function.update_of_ne hkl ..).symm
  | mask l =>
    intro k hk hm
    by_cases hkl : k = l
    · subst hkl
      exact absurd (hm.symm.trans (Function.update_self ..)) (by decide)
    · exact h k hk ((Function.update_of_ne hkl ..).symm.trans hm)

theorem Lines.Attached.handle (h : a.Attached) (irq : Fin 256) (body : H → List (Op H)) :
    (a.handle irq body).Attached := by
  rw [Lines.handle]
  cases a.handlers irq with
  | none => exact h
  | some f =>
    dsimp only
    generalize body f = os
    induction os generalizing a with
    | nil => exact h
    | cons o os ih => exact ih (h.exec o)

/-- The line that is next is one of a device, and is not masked. -/
theorem Lines.next_spec {l : Fin 16} (h : a.next = some l) : l ≠ 2 ∧ a.masked l = false := by
  have hready := List.find?_some h
  rw [Lines.ready, Bool.and_eq_true, Bool.and_eq_true, Bool.not_eq_true',
    Bool.not_eq_true'] at hready
  refine ⟨?_, hready.1.2⟩
  rintro rfl
  have hmem := List.mem_of_find?_eq_some h
  revert hmem
  decide

theorem Lines.Attached.step (h : a.Attached) {e : Event H} {b : Option (Fin 256 × Option H)}
    {a' : Lines H} (hstep : a.step e = some (b, a')) :
    a'.Attached ∧ ∀ irq f, b = some (irq, f) → f.isSome := by
  cases e with
  | op o =>
    obtain ⟨rfl, rfl⟩ := Prod.mk.inj (Option.some.inj hstep)
    exact ⟨h.exec o, fun _ _ hb ↦ by cases hb⟩
  | interrupt body =>
    rw [Lines.step] at hstep
    cases hnext : a.next with
    | none =>
      rw [hnext] at hstep
      obtain ⟨rfl, rfl⟩ := Prod.mk.inj (Option.some.inj hstep)
      exact ⟨h, fun _ _ hb ↦ by cases hb⟩
    | some l =>
      rw [hnext] at hstep
      obtain ⟨rfl, rfl⟩ := Prod.mk.inj (Option.some.inj hstep)
      obtain ⟨hne, hmask⟩ := Lines.next_spec hnext
      have htaken : Lines.Attached { a with pending := Function.update a.pending l false } := h
      refine ⟨htaken.handle _ body, fun irq f hb ↦ ?_⟩
      obtain ⟨rfl, rfl⟩ := Prod.mk.inj (Option.some.inj hb)
      exact h l hne hmask
  | trap irq body =>
    rw [Lines.step] at hstep
    split_ifs at hstep with hrange
    obtain ⟨rfl, rfl⟩ := Prod.mk.inj (Option.some.inj hstep)
    exact ⟨h.handle irq _, fun _ _ hb ↦ by cases hb⟩

theorem Lines.attached_boot (p : Pair) (handlers : Fin 256 → Option H) :
    (Lines.boot p handlers).Attached := by
  intro l hl hm
  have htrue : (Lines.boot p handlers).masked l = true := by
    show (decide (l ≠ 2) || _) = true
    rw [decide_eq_true hl, Bool.true_or]
  exact absurd (hm.symm.trans htrue) (by decide)

/-- **The controllers are sixteen lines with priorities.** From `PIC_init` on, whatever the state of
the controllers was and whatever devices, drivers and handlers do, the interrupts that are taken are
those of the lines, in the same order and with the same handlers, and nothing is left in service.
None of them is without a handler. -/
theorem controllers_refine (p : Pair) (handlers : Fin 256 → Option H) (es : List (Event H)) :
    Option.Rel (fun x y ↦ x.1 = y.1 ∧ Tracks 0 0 x.2 y.2)
        (runTrace Irqs.step ⟨p.picInit, handlers⟩ es)
        (runTrace Lines.step (Lines.boot p handlers) es) ∧
      ∀ out s, runTrace Irqs.step ⟨p.picInit, handlers⟩ es = some (out, s) →
        ∀ irq f, some (irq, f) ∈ out → f.isSome := by
  have hrel := runTrace_eq_of_simulation (R := Tracks 0 0) (fun _ _ e h ↦ h.step e) es
    (tracks_picInit p handlers)
  refine ⟨hrel, fun out s hrun irq f hmem ↦ ?_⟩
  rw [hrun] at hrel
  cases hlines : runTrace Lines.step (Lines.boot p handlers) es with
  | none =>
    rw [hlines] at hrel
    cases hrel
  | some r =>
    rw [hlines] at hrel
    obtain ⟨rfl, -⟩ : out = r.1 ∧ _ := by
      cases hrel
      assumption
    exact forall_mem_of_runTrace (I := Lines.Attached)
      (P := fun b ↦ ∀ irq f, b = some (irq, f) → f.isSome)
      (fun _ _ _ _ hs hstep ↦ hs.step hstep) (Lines.attached_boot p handlers) hlines _ hmem irq f
      rfl

end Interrupts

end Controllers

end Marimba
