import Mathlib.Algebra.Order.Ring.Nat
import Mathlib.Data.List.Basic
import Mathlib.Data.Nat.Notation
import Mathlib.Logic.Function.Basic
import Mathlib.Tactic.NormNum
import Mathlib.Tactic.Ring

/-!
# Machine words of 64 bits

A machine word is a natural number below `2 ^ 64`; sums and differences wrap. The operations are
stated on `ℕ` with the modulus written out, so that `omega` sees through them once they are
unfolded; the lemmas are the cases in which nothing wraps.

A memory of words is a function from byte addresses, of which only the multiples of eight are used.
`byteAt` is the byte at any address, little-endian, and `setByte` stores one. As far as `byteAt` can
tell the two are a memory of bytes (`byteAt_setByte`), and a store changes no word but the one that
the byte is in (`setByte_of_ne`).
-/

/-! ### Wrap-around arithmetic -/

/-- The number of 64-bit words. -/
abbrev wordSize : ℕ := 2 ^ 64

/-- Addition modulo `2 ^ 64`. -/
def wadd (a b : ℕ) : ℕ := (a + b) % wordSize

/-- Subtraction modulo `2 ^ 64`. -/
def wsub (a b : ℕ) : ℕ := (a + (wordSize - b % wordSize)) % wordSize

theorem wadd_of_lt {a b : ℕ} (h : a + b < wordSize) : wadd a b = a + b :=
  Nat.mod_eq_of_lt h

theorem wsub_of_le {a b : ℕ} (hba : b ≤ a) (ha : a < wordSize) : wsub a b = a - b := by
  simp only [wsub, wordSize] at ha ⊢
  omega

/-! ### The bytes of one word -/

/-- Byte `i` of a word. -/
def byteOf (w i : ℕ) : UInt8 := UInt8.ofNat (w / 256 ^ i)

/-- The word with another byte `i`. -/
def setByteOf (w i : ℕ) (v : UInt8) : ℕ :=
  w % 256 ^ i + 256 ^ i * v.toNat + 256 ^ (i + 1) * (w / 256 ^ (i + 1))

section Word

variable {w i j : ℕ} {v : UInt8}

theorem byteOf_setByteOf_self : byteOf (setByteOf w i v) i = v := by
  have hdiv : setByteOf w i v / 256 ^ i = v.toNat + 256 * (w / 256 ^ (i + 1)) := by
    have hsplit : setByteOf w i v =
        w % 256 ^ i + 256 ^ i * (v.toNat + 256 * (w / 256 ^ (i + 1))) := by
      rw [setByteOf]
      ring
    rw [hsplit, Nat.add_mul_div_left _ _ (Nat.pow_pos (by decide)),
      Nat.div_eq_of_lt (Nat.mod_lt w (Nat.pow_pos (by decide))), Nat.zero_add]
  have hv := v.toNat_lt
  rw [byteOf, hdiv]
  refine UInt8.toNat_inj.1 ?_
  rw [UInt8.toNat_ofNat', Nat.add_mul_mod_self_left, Nat.mod_eq_of_lt hv]

theorem byteOf_setByteOf_of_ne (h : j ≠ i) : byteOf (setByteOf w i v) j = byteOf w j := by
  refine UInt8.toNat_inj.1 ?_
  rw [byteOf, byteOf, UInt8.toNat_ofNat', UInt8.toNat_ofNat']
  rcases Nat.lt_or_gt_of_ne h with hlt | hlt
  · -- a byte below the stored one: what is stored is a multiple of the next power
    obtain ⟨d, rfl⟩ := Nat.exists_eq_add_of_lt hlt
    have hw := Nat.mod_add_div w (256 ^ (j + d + 1))
    have hsplit : setByteOf w (j + d + 1) v = w % 256 ^ (j + d + 1) +
        256 ^ (j + 1) * (256 ^ d * (v.toNat + 256 * (w / 256 ^ (j + d + 1 + 1)))) := by
      rw [setByteOf]
      ring
    have hsplit' : w = w % 256 ^ (j + d + 1) +
        256 ^ (j + 1) * (256 ^ d * (w / 256 ^ (j + d + 1))) := by
      conv_lhs => rw [← hw]
      ring
    have hlow (x : ℕ) : (w % 256 ^ (j + d + 1) + 256 ^ (j + 1) * x) / 256 ^ j % 2 ^ 8 =
        w % 256 ^ (j + d + 1) / 256 ^ j % 2 ^ 8 := by
      rw [pow_succ 256 j, mul_assoc, Nat.add_mul_div_left _ _ (Nat.pow_pos (by decide))]
      exact Nat.add_mul_mod_self_left _ _ _
    rw [hsplit, hlow]
    conv_rhs => rw [hsplit', hlow]
  · -- a byte above it
    obtain ⟨d, rfl⟩ := Nat.exists_eq_add_of_lt hlt
    have hlow : w % 256 ^ i + 256 ^ i * v.toNat < 256 ^ (i + 1) := by
      have h₁ := Nat.mod_lt w (Nat.pow_pos (n := i) (show 0 < 256 by decide))
      have h₂ : 256 ^ i * v.toNat ≤ 256 ^ i * 255 :=
        Nat.mul_le_mul_left _ (Nat.le_of_lt_succ v.toNat_lt)
      rw [pow_succ]
      omega
    have hdiv : setByteOf w i v / 256 ^ (i + 1) = w / 256 ^ (i + 1) := by
      rw [setByteOf, Nat.add_mul_div_left _ _ (Nat.pow_pos (by decide)), Nat.div_eq_of_lt hlow,
        Nat.zero_add]
    have hpow : 256 ^ (i + d + 1) = 256 ^ (i + 1) * 256 ^ d := by ring
    rw [hpow, ← Nat.div_div_eq_div_mul, hdiv, Nat.div_div_eq_div_mul]

end Word

/-! ### The memory -/

/-- The byte at an address. -/
def byteAt (mem : ℕ → ℕ) (a : ℕ) : UInt8 := byteOf (mem (a - a % 8)) (a % 8)

/-- A byte is stored. -/
def setByte (mem : ℕ → ℕ) (a : ℕ) (v : UInt8) : ℕ → ℕ :=
  Function.update mem (a - a % 8) (setByteOf (mem (a - a % 8)) (a % 8) v)

/-- Bytes are stored one behind the other. -/
def setBytes (mem : ℕ → ℕ) (a : ℕ) : List UInt8 → ℕ → ℕ
  | [] => mem
  | v :: vs => setBytes (setByte mem a v) (a + 1) vs

section Memory

variable {mem mem' : ℕ → ℕ} {a b : ℕ} {v : UInt8} {vs : List UInt8}

/-- The byte depends on its word only. -/
theorem byteAt_congr (h : mem' (a - a % 8) = mem (a - a % 8)) : byteAt mem' a = byteAt mem a := by
  rw [byteAt, h, byteAt]

/-- **A byte after a store.** -/
theorem byteAt_setByte : byteAt (setByte mem a v) b = if b = a then v else byteAt mem b := by
  rw [byteAt, setByte, byteAt]
  by_cases hword : b - b % 8 = a - a % 8
  · rw [hword, Function.update_self]
    split
    · next h => rw [h, byteOf_setByteOf_self]
    · next h => exact byteOf_setByteOf_of_ne (by omega)
  · rw [Function.update_of_ne hword, if_neg fun h : b = a ↦ hword (by rw [h])]

/-- A store leaves the other words alone. -/
theorem setByte_of_ne (h : b ≠ a - a % 8) : setByte mem a v b = mem b :=
  Function.update_of_ne h _ _

/-- **The bytes after a store of several.** -/
theorem byteAt_setBytes :
    byteAt (setBytes mem a vs) b = if a ≤ b then vs.getD (b - a) (byteAt mem b) else byteAt mem b
      := by
  induction vs generalizing mem a with
  | nil => simp [setBytes]
  | cons v vs ih =>
    rw [setBytes, ih, byteAt_setByte]
    rcases Nat.lt_trichotomy b a with hlt | rfl | hlt
    · rw [if_neg (by omega), if_neg (by omega), if_neg (by omega)]
    · rw [if_neg (by omega), if_pos rfl, if_pos le_rfl, Nat.sub_self, List.getD_cons_zero]
    · obtain ⟨d, rfl⟩ := Nat.exists_eq_add_of_lt hlt
      rw [if_pos (by omega), if_neg (by omega), if_pos (by omega),
        show a + d + 1 - a = d + 1 by omega, List.getD_cons_succ,
        show a + d + 1 - (a + 1) = d by omega]

/-- A store of several bytes leaves a word alone that none of them is in. -/
theorem setBytes_of_outside (h : b + 8 ≤ a ∨ a + vs.length ≤ b) : setBytes mem a vs b = mem b := by
  induction vs generalizing mem a with
  | nil => rfl
  | cons v vs ih =>
    rw [List.length_cons] at h
    rw [setBytes, ih (by omega), setByte_of_ne (by omega)]

end Memory

/-! ### Numbers of four bytes -/

/-- The four bytes of a number, the lowest first. -/
def intBytes (n : ℕ) : List UInt8 := (List.range 4).map (byteOf n)

/-- The number of four bytes. -/
def intAt (mem : ℕ → ℕ) (a : ℕ) : ℕ :=
  (byteAt mem a).toNat + 2 ^ 8 * (byteAt mem (a + 1)).toNat +
    2 ^ 16 * (byteAt mem (a + 2)).toNat + 2 ^ 24 * (byteAt mem (a + 3)).toNat

theorem length_intBytes (n : ℕ) : (intBytes n).length = 4 := rfl

/-- A number that is stored is read back. -/
theorem intAt_setBytes {mem : ℕ → ℕ} {a n : ℕ} (hn : n < 2 ^ 32) :
    intAt (setBytes mem a (intBytes n)) a = n := by
  have hbyte (j : ℕ) (hj : j < 4) :
      (byteAt (setBytes mem a (intBytes n)) (a + j)).toNat = n / 256 ^ j % 2 ^ 8 := by
    have hget : (intBytes n).getD j (byteAt mem (a + j)) = byteOf n j := by
      rw [intBytes, List.getD_eq_getElem?_getD, List.getElem?_map, List.getElem?_range hj]
      rfl
    rw [byteAt_setBytes, if_pos (Nat.le_add_right a j), Nat.add_sub_cancel_left, hget, byteOf,
      UInt8.toNat_ofNat']
  have h₀ := hbyte 0 (by decide)
  rw [Nat.add_zero] at h₀
  rw [intAt, h₀, hbyte 1 (by decide), hbyte 2 (by decide), hbyte 3 (by decide)]
  norm_num
  omega

/-- The number depends on its bytes only. -/
theorem intAt_congr {mem mem' : ℕ → ℕ} {a : ℕ}
    (h : ∀ j < 4, byteAt mem' (a + j) = byteAt mem (a + j)) : intAt mem' a = intAt mem a := by
  have h₀ := h 0 (by decide)
  rw [Nat.add_zero] at h₀
  rw [intAt, h₀, h 1 (by decide), h 2 (by decide), h 3 (by decide), intAt]
