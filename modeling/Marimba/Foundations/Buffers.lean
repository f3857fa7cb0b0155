import Mathlib.Algebra.Order.Group.Nat
import Mathlib.Algebra.Order.Ring.Int
import Mathlib.Data.List.Basic
import Mathlib.Data.Nat.Notation
import Mathlib.Logic.Function.Basic

/-!
# Buffers

Two ways to fill an array of cells, each with the fact that says what is in it afterwards.

**Cyclic buffers.** A stream is written into a buffer of `n` cells, element `i` into cell `i % n`,
so that the buffer holds the last `n` elements of the stream (`HoldsLast`). A cursor that stands at
element `i` is kept as the position `i % n`; two cursors less than `n` elements apart are told apart
by their positions (`mod_eq_mod_iff`). The lemmas are stated in terms of the stream and the numbers
of elements, which only grow: a program that keeps positions is tied to them by one equation for
each cursor.

**Buffers that are filled block by block.** The buffer is a function on offsets, which may be
negative: a store in front of a buffer is as much of interest as one behind it. `writeBlock` stores
one block, `writeBlocks` the first `n` of a sequence of blocks of the same length at given places.
Where the places of the later blocks do not overlap an earlier one, that one is still there in the
end (`writeBlocks_apply`).
-/

/-! ### Cyclic buffers -/

namespace CyclicBuffer

variable {α : Type*} {n : ℕ} {data : ℕ → α} {stream : List α}

/-- The cells hold the last `n` elements of the stream. -/
def HoldsLast (n : ℕ) (data : ℕ → α) (stream : List α) : Prop :=
  ∀ i a, stream[i]? = some a → stream.length ≤ i + n → data (i % n) = a

theorem holdsLast_nil (n : ℕ) (data : ℕ → α) : HoldsLast n data [] := by
  intro i a h
  cases h

/-- Positions tell cursors apart that are less than `n` elements apart. -/
theorem mod_eq_mod_iff {i j : ℕ} (hij : i ≤ j) (hj : j < i + n) : i % n = j % n ↔ i = j := by
  refine ⟨fun h ↦ ?_, fun h ↦ by rw [h]⟩
  have hdiff : (j - i) % n = 0 := Nat.sub_mod_eq_zero_of_mod_eq h.symm
  rw [Nat.mod_eq_of_lt (by omega)] at hdiff
  omega

/-- **Writing the next element** overwrites the one that is `n` elements back. -/
theorem HoldsLast.push (h : HoldsLast n data stream) (c : α) :
    HoldsLast n (Function.update data (stream.length % n) c) (stream ++ [c]) := by
  intro i a hi hlen
  rw [List.length_append, List.length_singleton] at hlen
  rcases lt_trichotomy i stream.length with hlt | rfl | hgt
  · have hne : i % n ≠ stream.length % n := by
      rw [ne_eq, mod_eq_mod_iff hlt.le (by omega)]
      exact hlt.ne
    rw [Function.update_of_ne hne]
    refine h i a ?_ (by omega)
    rwa [List.getElem?_append_left hlt] at hi
  · rw [Function.update_self]
    simpa using hi
  · rw [List.getElem?_eq_none (by simp; omega)] at hi
    cases hi

/-- **Reading behind a cursor** that is at most `n` elements back finds the element there. -/
theorem HoldsLast.read (h : HoldsLast n data stream) {i : ℕ} (hi : i < stream.length)
    (hn : stream.length ≤ i + n) : stream[i]? = some (data (i % n)) := by
  rw [List.getElem?_eq_getElem hi, h i _ (List.getElem?_eq_getElem hi) hn]

end CyclicBuffer

/-! ### Block by block -/

section BlockBuffer

variable {α : Type*}

/-- A block of that length is stored. -/
def writeBlock (buf : ℤ → α) (off : ℤ) (len : ℕ) (block : ℕ → α) : ℤ → α := fun a ↦
  if off ≤ a ∧ a < off + len then block (a - off).toNat else buf a

/-- The first `n` of these blocks are stored in order. -/
def writeBlocks (buf : ℤ → α) (off : ℕ → ℤ) (len : ℕ) (block : ℕ → ℕ → α) : ℕ → ℤ → α
  | 0 => buf
  | n + 1 => writeBlock (writeBlocks buf off len block n) (off n) len (block n)

variable {buf : ℤ → α} {off : ℕ → ℤ} {len k n r : ℕ} {block : ℕ → ℕ → α}

/-- **A block that no later one overlaps.** -/
theorem writeBlocks_apply (hk : k < n) (hr : r < len)
    (hsep : ∀ j, k < j → j < n → off k + len ≤ off j) :
    writeBlocks buf off len block n (off k + r) = block k r := by
  induction n with
  | zero => exact absurd hk (Nat.not_lt_zero k)
  | succ n ih =>
    rw [writeBlocks, writeBlock]
    rcases Nat.lt_succ_iff_lt_or_eq.1 hk with hlt | rfl
    · have hout := hsep n hlt (Nat.lt_succ_self n)
      rw [if_neg (by omega)]
      exact ih hlt fun j h₁ h₂ ↦ hsep j h₁ (Nat.lt_succ_of_lt h₂)
    · rw [if_pos (by omega), add_sub_cancel_left, Int.toNat_natCast]

/-- Blocks one behind the other. -/
theorem writeBlocks_mul_apply (hk : k < n) (hr : r < len) (hoff : ∀ j < n, off j = j * len) :
    writeBlocks buf off len block n (k * len + r) = block k r := by
  rw [← hoff k hk]
  refine writeBlocks_apply hk hr fun j h₁ h₂ ↦ ?_
  rw [hoff k hk, hoff j h₂]
  have hle : (k + 1) * len ≤ j * len := Nat.mul_le_mul_right len h₁
  rw [Nat.add_mul, Nat.one_mul] at hle
  exact_mod_cast hle

end BlockBuffer
