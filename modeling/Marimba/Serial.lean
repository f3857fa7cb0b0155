import Marimba.Foundations.Buffers
import Mathlib.Data.Int.DivMod
import Mathlib.Data.List.Infix

/-!
# Serial output (`drivers/serial/x86.c`)

`x86_write` puts a character into a cyclic buffer and, when the transmitter is empty, sends the
oldest character of the buffer to the data port; the transmit interrupt sends the oldest one too.
Both run with interrupts disabled, so that each is one step. The status of the transmitter is given
by the hardware, and is part of the event.

The buffer has no counter: it is empty when the two positions are equal, and full when the producer
is one position behind the consumer, so that one cell is never used. The positions are those of two
ever growing numbers, the characters accepted and the characters sent (`SerialInv`), and all that is
to be shown about `BUFF_POS` is how it moves one of these numbers by one (`buffPos_succ`,
`buffPos_pred`).
-/

namespace Marimba

open CyclicBuffer

namespace Serial

/-- `OUTPUT_BUFF_SIZE`. -/
abbrev outputBuffSize : ℕ := 1024

/-- `BUFF_POS`, with the remainder of C. -/
def buffPos (pos : ℤ) : ℤ :=
  (if pos = -1 then (outputBuffSize : ℤ) - 1 else pos).tmod outputBuffSize

/-- `struct x86SerialDevice`. -/
structure X86SerialDevice where
  outputBuff : ℕ → UInt8
  outProducerPos : ℤ
  outConsumerPos : ℤ

namespace X86SerialDevice

/-- `consumer_write_next`, with the character it writes to the data port. -/
def consumerWriteNext (dev : X86SerialDevice) : List UInt8 × X86SerialDevice :=
  if dev.outConsumerPos = dev.outProducerPos then ([], dev)
  else
    ([dev.outputBuff dev.outConsumerPos.toNat],
      { dev with outConsumerPos := buffPos (dev.outConsumerPos + 1) })

/-- The test of `producer_add_char` for a full buffer. -/
def full (dev : X86SerialDevice) : Bool :=
  dev.outProducerPos = buffPos (dev.outConsumerPos - 1)

/-- `producer_add_char`. -/
def producerAddChar (dev : X86SerialDevice) (c : UInt8) : X86SerialDevice :=
  if dev.full then dev
  else
    { dev with
      outputBuff := Function.update dev.outputBuff dev.outProducerPos.toNat c
      outProducerPos := buffPos (dev.outProducerPos + 1) }

end X86SerialDevice

/-- The device, the characters `producer_add_char` has put into the buffer, and those written to the
data port. -/
structure System where
  dev : X86SerialDevice
  accepted : List UInt8
  port : List UInt8

/-- A call of `x86_write` or a transmit interrupt, with what `is_transmit_empty` finds. -/
inductive SerialEvent where
  | write (c : UInt8) (transmitEmpty : Bool)
  | interrupt (transmitEmpty : Bool)
  deriving DecidableEq, Repr

/-- What `is_transmit_empty` finds. -/
def SerialEvent.transmitEmpty : SerialEvent → Bool
  | .write _ transmitEmpty => transmitEmpty
  | .interrupt transmitEmpty => transmitEmpty

namespace System

/-- `if (is_transmit_empty()) consumer_write_next(dev)`. -/
def transmit (s : System) (transmitEmpty : Bool) : System :=
  if transmitEmpty then
    { s with dev := s.dev.consumerWriteNext.2, port := s.port ++ s.dev.consumerWriteNext.1 }
  else s

/-- The call of `producer_add_char` in `x86_write`. -/
def produce (s : System) (c : UInt8) : System :=
  { s with
    dev := s.dev.producerAddChar c
    accepted := if s.dev.full then s.accepted else s.accepted ++ [c] }

@[simp] theorem transmit_accepted (s : System) (transmitEmpty : Bool) :
    (s.transmit transmitEmpty).accepted = s.accepted := by
  rw [transmit]
  split <;> rfl

/-- `x86_write` and `x86_serial_isr`. -/
def step (s : System) : SerialEvent → System
  | .write c transmitEmpty => (s.produce c).transmit transmitEmpty
  | .interrupt transmitEmpty => s.transmit transmitEmpty

/-- The device is zero-initialised. -/
def boot : System := ⟨⟨fun _ ↦ 0, 0, 0⟩, [], []⟩

/-- The number of characters in the buffer. -/
def unsent (s : System) : ℕ := s.accepted.length - s.port.length

end System

/-! ### Positions -/

/-- `BUFF_POS` behind a position. -/
theorem buffPos_succ (k : ℕ) :
    buffPos ((k % outputBuffSize : ℕ) + 1) = ((k + 1) % outputBuffSize : ℕ) := by
  have hne : ((k % outputBuffSize : ℕ) + 1 : ℤ) ≠ -1 := by omega
  rw [buffPos, if_neg hne, ← Nat.mod_add_mod]
  rfl

/-- `BUFF_POS` before a position. -/
theorem buffPos_pred (k : ℕ) :
    buffPos ((k % outputBuffSize : ℕ) - 1) =
      ((k + (outputBuffSize - 1)) % outputBuffSize : ℕ) := by
  rw [← Nat.mod_add_mod]
  have hlt : k % outputBuffSize < outputBuffSize := Nat.mod_lt k (by decide)
  rcases hk : k % outputBuffSize with - | m
  · decide
  · rw [hk] at hlt
    have hcast : ((m + 1 : ℕ) - 1 : ℤ) = (m : ℕ) := by omega
    have hmod : (m + 1 + (outputBuffSize - 1)) % outputBuffSize = m % outputBuffSize := by
      rw [Nat.add_assoc, Nat.add_sub_cancel' (by decide), Nat.add_mod_right]
    have hne : ((m : ℕ) : ℤ) ≠ -1 := by omega
    rw [hcast, hmod, buffPos, if_neg hne]
    rfl

/-! ### The invariant -/

/-- **The positions are those of the numbers of characters accepted and sent**, the buffer holds the
last characters accepted, and at least one of its cells is free. -/
structure SerialInv (s : System) : Prop where
  sent : s.port <+: s.accepted
  producerPos : s.dev.outProducerPos = (s.accepted.length % outputBuffSize : ℕ)
  consumerPos : s.dev.outConsumerPos = (s.port.length % outputBuffSize : ℕ)
  room : s.accepted.length < s.port.length + outputBuffSize
  holds : HoldsLast outputBuffSize s.dev.outputBuff s.accepted

theorem serialInv_boot : SerialInv .boot :=
  ⟨List.prefix_refl [], rfl, rfl, by decide, holdsLast_nil _ _⟩

namespace SerialInv

variable {s : System}

/-- The positions are equal exactly when all characters are sent. -/
theorem empty_iff (h : SerialInv s) :
    s.dev.outConsumerPos = s.dev.outProducerPos ↔ s.port.length = s.accepted.length := by
  rw [h.consumerPos, h.producerPos, Int.natCast_inj]
  exact mod_eq_mod_iff h.sent.length_le h.room

/-- **The buffer is full exactly when all its cells but one hold an unsent character.** -/
theorem full_iff (h : SerialInv s) : s.dev.full = true ↔ s.unsent = outputBuffSize - 1 := by
  have hle := h.sent.length_le
  have hroom := h.room
  rw [X86SerialDevice.full, decide_eq_true_iff, h.consumerPos, buffPos_pred, h.producerPos,
    Int.natCast_inj, mod_eq_mod_iff (by omega) (by omega), System.unsent]
  omega

/-- The characters stay in order, and the positions move on together with the numbers. -/
theorem produce (h : SerialInv s) (c : UInt8) : SerialInv (s.produce c) := by
  rw [System.produce, X86SerialDevice.producerAddChar]
  by_cases hfull : s.dev.full = true
  · rw [if_pos hfull, if_pos hfull]
    exact h
  · rw [if_neg hfull, if_neg hfull]
    have hroom := h.room
    have hlen : (s.accepted ++ [c]).length = s.accepted.length + 1 := List.length_append
    refine ⟨h.sent.trans (List.prefix_append ..), ?_, h.consumerPos, ?_, ?_⟩
    · show buffPos (s.dev.outProducerPos + 1) = ((s.accepted ++ [c]).length % outputBuffSize : ℕ)
      rw [h.producerPos, buffPos_succ, hlen]
    · show (s.accepted ++ [c]).length < s.port.length + outputBuffSize
      rw [h.full_iff, System.unsent] at hfull
      omega
    · show HoldsLast _ (Function.update s.dev.outputBuff s.dev.outProducerPos.toNat c) _
      rw [h.producerPos, Int.toNat_natCast]
      exact h.holds.push c

/-- **The character sent is the oldest one that is not**, and there is one exactly when the
transmitter is empty and the buffer is not. -/
theorem transmit_port (h : SerialInv s) (transmitEmpty : Bool) :
    (s.transmit transmitEmpty).port =
      s.accepted.take (s.port.length + if transmitEmpty then 1 else 0) := by
  have hport := List.prefix_iff_eq_take.1 h.sent
  rw [System.transmit, X86SerialDevice.consumerWriteNext]
  cases transmitEmpty with
  | false => exact hport
  | true =>
    rw [if_pos rfl, if_pos rfl]
    by_cases hempty : s.dev.outConsumerPos = s.dev.outProducerPos
    · rw [if_pos hempty, List.append_nil]
      have hlen := h.empty_iff.1 hempty
      rw [List.take_of_length_le (by omega)]
      rwa [hlen, List.take_length] at hport
    · rw [if_neg hempty]
      have hlt : s.port.length < s.accepted.length :=
        lt_of_le_of_ne h.sent.length_le fun he ↦ hempty (h.empty_iff.2 he)
      have hcell : s.dev.outConsumerPos.toNat = s.port.length % outputBuffSize := by
        rw [h.consumerPos, Int.toNat_natCast]
      show s.port ++ [s.dev.outputBuff s.dev.outConsumerPos.toNat] = _
      rw [hcell, List.take_add_one, h.holds.read hlt h.room.le, ← hport]
      rfl

/-- Sending moves the consumer on. -/
theorem transmit (h : SerialInv s) (transmitEmpty : Bool) :
    SerialInv (s.transmit transmitEmpty) := by
  have hport := h.transmit_port transmitEmpty
  rw [System.transmit, X86SerialDevice.consumerWriteNext] at hport ⊢
  cases transmitEmpty with
  | false => exact h
  | true =>
    rw [if_pos rfl] at hport ⊢
    by_cases hempty : s.dev.outConsumerPos = s.dev.outProducerPos
    · rw [if_pos hempty, List.append_nil]
      exact h
    · rw [if_neg hempty] at hport ⊢
      have hroom := h.room
      refine ⟨?_, h.producerPos, ?_, ?_, h.holds⟩
      · rw [hport]
        exact List.take_prefix _ _
      · show buffPos (s.dev.outConsumerPos + 1) = _
        rw [h.consumerPos, buffPos_succ, List.length_append, List.length_singleton]
      · show s.accepted.length < (s.port ++ [_]).length + outputBuffSize
        rw [List.length_append]
        omega

/-- **Every step keeps the invariant.** -/
theorem step (h : SerialInv s) (e : SerialEvent) : SerialInv (s.step e) := by
  cases e with
  | write c transmitEmpty => exact (h.produce c).transmit transmitEmpty
  | interrupt transmitEmpty => exact h.transmit transmitEmpty

end SerialInv

/-- **Every run keeps the invariant.** -/
theorem serialInv_run {s : System} (h : SerialInv s) (events : List SerialEvent) :
    SerialInv (events.foldl System.step s) := by
  induction events generalizing s with
  | nil => exact h
  | cons e events ih => exact ih (h.step e)

/-- **Serial output is a bounded FIFO queue.** After any calls of `x86_write` and transmit
interrupts: the characters written to the data port are a prefix of those accepted; the next
character passed to `x86_write` is dropped exactly when all cells of the buffer but one hold an
unsent one; the next event sends the oldest unsent character when it finds the transmitter empty,
and nothing otherwise; and both positions are in the buffer. -/
theorem serial_output_fifo (events : List SerialEvent) :
    let s := events.foldl System.step .boot
    s.port <+: s.accepted ∧
      (∀ c transmitEmpty, (s.step (.write c transmitEmpty)).accepted =
        if s.unsent = outputBuffSize - 1 then s.accepted else s.accepted ++ [c]) ∧
      (∀ e : SerialEvent, (s.step e).port =
        (s.step e).accepted.take (s.port.length + if e.transmitEmpty then 1 else 0)) ∧
      (0 ≤ s.dev.outProducerPos ∧ s.dev.outProducerPos < outputBuffSize) ∧
      (0 ≤ s.dev.outConsumerPos ∧ s.dev.outConsumerPos < outputBuffSize) := by
  intro s
  have h : SerialInv s := serialInv_run serialInv_boot events
  have hpos : ∀ k : ℕ, 0 ≤ ((k % outputBuffSize : ℕ) : ℤ) ∧
      ((k % outputBuffSize : ℕ) : ℤ) < outputBuffSize := fun k ↦
    ⟨Int.natCast_nonneg _, Int.ofNat_lt.2 (Nat.mod_lt k (by decide))⟩
  refine ⟨h.sent, fun c transmitEmpty ↦ ?_, fun e ↦ ?_, ?_, ?_⟩
  · rw [System.step, System.transmit_accepted, System.produce]
    by_cases hfull : s.dev.full = true
    · rw [if_pos hfull, if_pos (h.full_iff.1 hfull)]
    · rw [if_neg hfull, if_neg fun hu ↦ hfull (h.full_iff.2 hu)]
  · cases e with
    | write c transmitEmpty =>
      rw [System.step, System.transmit_accepted]
      exact (h.produce c).transmit_port transmitEmpty
    | interrupt transmitEmpty =>
      rw [System.step, System.transmit_accepted]
      exact h.transmit_port transmitEmpty
  · rw [h.producerPos]
    exact hpos _
  · rw [h.consumerPos]
    exact hpos _

end Serial

end Marimba
