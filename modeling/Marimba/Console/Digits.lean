import Marimba.Console.Vga
import Mathlib.Tactic.NormNum

/-!
# Printing numbers (`printk.c`)

The macros `DISP_UNSIGNED_VAL_DEC` and `DISP_UNSIGNED_VAL_HEX` store the digits of a number into a
local buffer of 64 bytes, from the end downwards, and display the string from the last digit stored.
The terminating zero goes to `buf + 64`, the byte behind the buffer. The functions `print_*` are
these macros at one type each: a parameter is converted to the type first, and `DISP_SIGNED_VAL_DEC`
negates a negative number within its type.

**What is displayed** (`dispUnsignedVal_eq`): the canonical digits of the number, `numeral`. They
are those of `Nat.toDigits` (`numeral_eq_toDigits`).

**What is stored** (`DigitMacro.not_inBuffer`): the digits of a value of up to 64 bits take the last
twenty bytes of the buffer at most, and the terminating zero is never in it. These are the stores
of the functions `print_*` (`print_buffer`).
-/

namespace Marimba

namespace Printk

/-! ### The devices -/

/-- The display, and the characters written to the serial device; none when `main_serial_dev` is
null. -/
structure Console where
  disp : Vga.TextBuffer
  serial : Option (List UInt8)

namespace Console

variable {o : Console} {s t : List UInt8} {c : UInt8}

/-- `display_char`. -/
def displayChar (o : Console) (c : UInt8) : Console :=
  ⟨o.disp.displayChar c, o.serial.map (· ++ [c])⟩

/-- `display_str`. The serial driver's `write` never fails, so `SER_write_str` gets to the end. -/
def displayStr (o : Console) (s : List UInt8) : Console :=
  ⟨o.disp.displayChars s, o.serial.map (· ++ s)⟩

@[simp] theorem displayStr_nil : o.displayStr [] = o := by
  simp [displayStr, Vga.TextBuffer.displayChars]

/-- One string behind another. -/
@[simp] theorem displayStr_displayStr : (o.displayStr s).displayStr t = o.displayStr (s ++ t) := by
  simp only [displayStr, Vga.TextBuffer.displayChars, List.foldl_append, Option.map_map]
  congr 2
  funext u
  exact List.append_assoc u s t

theorem displayChar_eq (o : Console) (c : UInt8) : o.displayChar c = o.displayStr [c] := rfl

end Console

/-! ### The code -/

/-- The loop of the macros: the digits of `d` are stored from `cur` downwards. The buffer and the
place behind the last digit. -/
def storeDigits (radix : ℕ) (hr : 1 < radix) (digit : ℕ → UInt8) (buf : ByteMemory) (d cur : ℕ) :
    ByteMemory × ℕ :=
  if d = 0 then (buf, cur)
  else storeDigits radix hr digit (buf.store cur (digit (d % radix))) (d / radix) (cur - 1)
termination_by d
decreasing_by exact Nat.div_lt_self (Nat.pos_of_ne_zero ‹_›) hr

/-- The two macros for unsigned values, which differ in the radix and in the digits. `buf` is the
local buffer, with what stands in it before. -/
def dispUnsignedVal (radix : ℕ) (hr : 1 < radix) (digit : ℕ → UInt8) (buf : ByteMemory) (d : ℕ)
    (o : Console) : Console :=
  if d = 0 then o.displayChar '0'.toUInt8
  else
    let r := storeDigits radix hr digit (buf.store 64 0) d 63
    o.displayStr (r.1.cstr (r.2 + 1) 65)

/-- A digit below ten. -/
def decDigit (k : ℕ) : UInt8 := UInt8.ofNat k + '0'.toUInt8

/-- A digit of a hexadecimal number, with the letter for ten. -/
def hexDigit (bc : UInt8) (k : ℕ) : UInt8 :=
  if k < 10 then UInt8.ofNat k + '0'.toUInt8 else UInt8.ofNat (k - 10) + bc

/-- `DISP_UNSIGNED_VAL_DEC`. -/
def dispUnsignedValDec (buf : ByteMemory) (d : ℕ) (o : Console) : Console :=
  dispUnsignedVal 10 (by decide) decDigit buf d o

/-- `DISP_UNSIGNED_VAL_HEX`. -/
def dispUnsignedValHex (buf : ByteMemory) (d : ℕ) (bc : UInt8) (o : Console) : Console :=
  dispUnsignedVal 16 (by decide) (hexDigit bc) buf d o

/-- `print_u*` of a type of that many bits: the parameter is converted to it. -/
def printUnsigned (bits : ℕ) (buf : ByteMemory) (d : ℤ) (o : Console) : Console :=
  dispUnsignedValDec buf (d % 2 ^ bits).toNat o

/-- `print_u*_hex`. -/
def printUnsignedHex (bits : ℕ) (buf : ByteMemory) (d : ℤ) (bc : UInt8) (o : Console) : Console :=
  dispUnsignedValHex buf (d % 2 ^ bits).toNat bc o

/-- `print_*` of the signed types, with `DISP_SIGNED_VAL_DEC`: the parameter is converted to the
type, and so is its negation. -/
def printSigned (bits : ℕ) (buf : ByteMemory) (d : ℤ) (o : Console) : Console :=
  let d := d.bmod (2 ^ bits)
  if d < 0 then printUnsigned bits buf ((-d).bmod (2 ^ bits)) (o.displayChar '-'.toUInt8)
  else printUnsigned bits buf d o

def printUint64 : ByteMemory → ℤ → Console → Console := printUnsigned 64
def printUint64Hex : ByteMemory → ℤ → UInt8 → Console → Console := printUnsignedHex 64
def printInt64 : ByteMemory → ℤ → Console → Console := printSigned 64

def printUlong : ByteMemory → ℤ → Console → Console := printUnsigned 64
def printUlongHex : ByteMemory → ℤ → UInt8 → Console → Console := printUnsignedHex 64
def printLong : ByteMemory → ℤ → Console → Console := printSigned 64

def printUint : ByteMemory → ℤ → Console → Console := printUnsigned 32
def printUintHex : ByteMemory → ℤ → UInt8 → Console → Console := printUnsignedHex 32
def printInt : ByteMemory → ℤ → Console → Console := printSigned 32

def printUshort : ByteMemory → ℤ → Console → Console := printUnsigned 16
def printUshortHex : ByteMemory → ℤ → UInt8 → Console → Console := printUnsignedHex 16
def printShort : ByteMemory → ℤ → Console → Console := printSigned 16

/-! ### The digits -/

/-- The canonical digits of a number, none for zero. -/
def digitsOf (radix : ℕ) (hr : 1 < radix) (digit : ℕ → UInt8) (d : ℕ) : List UInt8 :=
  if d = 0 then []
  else digitsOf radix hr digit (d / radix) ++ [digit (d % radix)]
termination_by d
decreasing_by exact Nat.div_lt_self (Nat.pos_of_ne_zero ‹_›) hr

/-- The canonical digits of a number. -/
def numeral (radix : ℕ) (hr : 1 < radix) (digit : ℕ → UInt8) (d : ℕ) : List UInt8 :=
  if d = 0 then ['0'.toUInt8] else digitsOf radix hr digit d

section Digits

variable {radix : ℕ} {hr : 1 < radix} {digit : ℕ → UInt8} {buf : ByteMemory} {d cur n : ℕ}

theorem digitsOf_of_ne (h : d ≠ 0) :
    digitsOf radix hr digit d = digitsOf radix hr digit (d / radix) ++ [digit (d % radix)] := by
  rw [digitsOf, if_neg h]

/-- A number below `radix ^ n` has at most `n` digits. -/
theorem length_digitsOf_le (h : d < radix ^ n) : (digitsOf radix hr digit d).length ≤ n := by
  induction n generalizing d with
  | zero =>
    obtain rfl : d = 0 := by simpa using h
    rw [digitsOf, if_pos rfl]
    rfl
  | succ n ih =>
    by_cases hd : d = 0
    · rw [hd, digitsOf, if_pos rfl]
      exact Nat.zero_le _
    · have hlt : d / radix < radix ^ n := by
        rw [Nat.div_lt_iff_lt_mul (by omega)]
        rwa [pow_succ] at h
      rw [digitsOf_of_ne hd, List.length_append, List.length_singleton]
      exact Nat.succ_le_succ (ih hlt)

/-- **The loop stores the digits**: they stand in front of what was behind `cur`, and the place
returned is the one before them. By induction on the number, digit by digit from the last one. -/
theorem storeDigits_hasString (hdigit : ∀ k < radix, digit k ≠ 0) {s : List UInt8}
    (hs : buf.HasString (cur + 1) s) (hlen : (digitsOf radix hr digit d).length ≤ cur) :
    (storeDigits radix hr digit buf d cur).2 + (digitsOf radix hr digit d).length = cur ∧
      (storeDigits radix hr digit buf d cur).1.HasString
        ((storeDigits radix hr digit buf d cur).2 + 1) (digitsOf radix hr digit d ++ s) := by
  induction d using Nat.strong_induction_on generalizing buf cur s with
  | _ d ih =>
    by_cases hd : d = 0
    · rw [storeDigits, digitsOf, if_pos hd, if_pos hd]
      exact ⟨rfl, hs⟩
    · have hpos : 0 < radix := Nat.zero_lt_of_lt hr
      have hless : d / radix < d := Nat.div_lt_self (Nat.pos_of_ne_zero hd) hr
      rw [digitsOf_of_ne hd, List.length_append, List.length_singleton] at hlen
      -- the last digit stands in front of the string, and the others go in front of it
      have hs' : (buf.store cur (digit (d % radix))).HasString (cur - 1 + 1)
          (digit (d % radix) :: s) := by
        rw [Nat.sub_add_cancel (Nat.one_le_of_lt hlen)]
        refine ⟨?_, hdigit _ (Nat.mod_lt d hpos), hs.store (Nat.lt_succ_self cur)⟩
        rw [ByteMemory.store_byte, if_pos rfl]
      obtain ⟨hcur, hstr⟩ := ih (d / radix) hless hs' (by omega)
      rw [storeDigits, if_neg hd, digitsOf_of_ne hd, List.length_append, List.length_singleton,
        List.append_assoc]
      exact ⟨by omega, hstr⟩

/-- **What the macros display**: the canonical digits of the number. -/
theorem dispUnsignedVal_eq (hdigit : ∀ k < radix, digit k ≠ 0) (hd : d < radix ^ 63)
    (o : Console) :
    dispUnsignedVal radix hr digit buf d o = o.displayStr (numeral radix hr digit d) := by
  rw [dispUnsignedVal, numeral]
  split
  · rfl
  · have hend : (buf.store 64 0).HasString (63 + 1) [] := by
      rw [ByteMemory.HasString, ByteMemory.store_byte, if_pos rfl]
    have hlen : (digitsOf radix hr digit d).length ≤ 63 := length_digitsOf_le hd
    obtain ⟨hcur, hstr⟩ := storeDigits_hasString hdigit hend hlen
    rw [List.append_nil] at hstr
    show o.displayStr (ByteMemory.cstr _ _ 65) = _
    rw [hstr.cstr_eq (by omega)]

/-- The canonical digits are those of `Nat.toDigits`, by induction on the number. -/
theorem numeral_eq_toDigits {f : Char → UInt8} (hf : ∀ k < radix, digit k = f k.digitChar)
    (h0 : f '0' = '0'.toUInt8) (d : ℕ) :
    numeral radix hr digit d = (Nat.toDigits radix d).map f := by
  by_cases hd : d = 0
  · rw [numeral, if_pos hd, hd, Nat.toDigits_zero, List.map_singleton, h0]
  rw [numeral, if_neg hd]
  induction d using Nat.strong_induction_on with
  | _ d ih =>
    rw [digitsOf_of_ne hd, Nat.toDigits_eq_if hr]
    split
    · next hlt =>
      rw [Nat.div_eq_of_lt hlt, Nat.mod_eq_of_lt hlt, digitsOf, if_pos rfl, hf d hlt]
      rfl
    · next hge =>
      have hdiv : d / radix ≠ 0 := (Nat.div_pos (Nat.not_lt.1 hge) (by omega)).ne'
      rw [ih _ (Nat.div_lt_self (Nat.pos_of_ne_zero hd) hr) hdiv, List.map_append,
        hf _ (Nat.mod_lt d (by omega))]
      rfl

end Digits

/-! ### The functions -/

/-- The decimal numeral of a number. -/
def decimal (n : ℕ) : List UInt8 := (Nat.toDigits 10 n).map Char.toUInt8

/-- The hexadecimal numeral of a number, in lower case. -/
def hexLower (n : ℕ) : List UInt8 := (Nat.toDigits 16 n).map Char.toUInt8

/-- The hexadecimal numeral of a number, in upper case. -/
def hexUpper (n : ℕ) : List UInt8 := (Nat.toDigits 16 n).map fun c ↦ c.toUpper.toUInt8

/-- The decimal numeral of a number of two's complement. -/
def signedDecimal (bits n : ℕ) : List UInt8 :=
  if n < 2 ^ (bits - 1) then decimal n else '-'.toUInt8 :: decimal (2 ^ bits - n)

section Functions

variable {bits : ℕ} {buf : ByteMemory} {o : Console}

theorem dispUnsignedValDec_eq {d : ℕ} (hd : d < 2 ^ 64) :
    dispUnsignedValDec buf d o = o.displayStr (decimal d) := by
  have hlt : d < 10 ^ 63 := hd.trans (by norm_num)
  rw [dispUnsignedValDec, dispUnsignedVal_eq (by decide) hlt, decimal]
  rw [numeral_eq_toDigits (by decide) rfl]

theorem dispUnsignedValHex_lower {d : ℕ} (hd : d < 2 ^ 64) :
    dispUnsignedValHex buf d 'a'.toUInt8 o = o.displayStr (hexLower d) := by
  have hlt : d < 16 ^ 63 := hd.trans (by norm_num)
  rw [dispUnsignedValHex, dispUnsignedVal_eq (by decide) hlt, hexLower]
  rw [numeral_eq_toDigits (by decide) rfl]

theorem dispUnsignedValHex_upper {d : ℕ} (hd : d < 2 ^ 64) :
    dispUnsignedValHex buf d 'A'.toUInt8 o = o.displayStr (hexUpper d) := by
  have hlt : d < 16 ^ 63 := hd.trans (by norm_num)
  rw [dispUnsignedValHex, dispUnsignedVal_eq (by decide) hlt, hexUpper]
  rw [numeral_eq_toDigits (f := fun c ↦ c.toUpper.toUInt8) (by decide) (by decide)]

/-- The value of a parameter of that many bits. -/
theorem emod_two_pow (bits : ℕ) (d : ℤ) :
    ∃ v : ℕ, d % 2 ^ bits = v ∧ d % (2 ^ bits : ℕ) = v ∧ v < 2 ^ bits := by
  have hpos : (0 : ℤ) < 2 ^ bits := by positivity
  have hlt := Int.emod_lt_of_pos d hpos
  obtain ⟨v, hv⟩ := Int.eq_ofNat_of_zero_le (Int.emod_nonneg d hpos.ne')
  refine ⟨v, hv, by rw [← hv]; norm_num, ?_⟩
  rw [hv] at hlt
  exact_mod_cast hlt

theorem printUnsigned_eq (hb : bits ≤ 64) (d : ℤ) :
    printUnsigned bits buf d o = o.displayStr (decimal (d % 2 ^ bits).toNat) := by
  obtain ⟨v, hv, -, hlt⟩ := emod_two_pow bits d
  rw [printUnsigned, hv, Int.toNat_natCast]
  exact dispUnsignedValDec_eq (hlt.trans_le (Nat.pow_le_pow_right (by decide) hb))

theorem printUnsignedHex_lower (hb : bits ≤ 64) (d : ℤ) :
    printUnsignedHex bits buf d 'a'.toUInt8 o =
      o.displayStr (hexLower (d % 2 ^ bits).toNat) := by
  obtain ⟨v, hv, -, hlt⟩ := emod_two_pow bits d
  rw [printUnsignedHex, hv, Int.toNat_natCast]
  exact dispUnsignedValHex_lower (hlt.trans_le (Nat.pow_le_pow_right (by decide) hb))

theorem printUnsignedHex_upper (hb : bits ≤ 64) (d : ℤ) :
    printUnsignedHex bits buf d 'A'.toUInt8 o =
      o.displayStr (hexUpper (d % 2 ^ bits).toNat) := by
  obtain ⟨v, hv, -, hlt⟩ := emod_two_pow bits d
  rw [printUnsignedHex, hv, Int.toNat_natCast]
  exact dispUnsignedValHex_upper (hlt.trans_le (Nat.pow_le_pow_right (by decide) hb))

/-- **A signed number** is displayed with its sign, also the least one of its type. -/
theorem printSigned_eq (h0 : 0 < bits) (hb : bits ≤ 64) (d : ℤ) :
    printSigned bits buf d o = o.displayStr (signedDecimal bits (d % 2 ^ bits).toNat) := by
  obtain ⟨v, hv, hv', hlt⟩ := emod_two_pow bits d
  have hhalf : 2 ^ bits = 2 * 2 ^ (bits - 1) := by
    rw [← pow_succ', Nat.sub_add_cancel h0]
  have hpos : 0 < 2 ^ (bits - 1) := by positivity
  have hbmod : d.bmod (2 ^ bits) = if v < 2 ^ (bits - 1) then (v : ℤ) else v - (2 ^ bits : ℕ) := by
    rw [Int.bmod_def, hv']
    split <;> split <;> omega
  have hcast : ((2 : ℤ) ^ bits) = (2 ^ bits : ℕ) := by norm_num
  rw [printSigned, signedDecimal, hbmod, hv, Int.toNat_natCast]
  by_cases hpos' : v < 2 ^ (bits - 1)
  · rw [if_pos hpos', if_pos hpos']
    rw [if_neg (by omega), printUnsigned_eq hb, hcast, Int.emod_eq_of_lt (by omega) (by omega),
      Int.toNat_natCast]
  · -- the negation is `2 ^ bits - v`, whatever the conversion to the signed type makes of it
    have hmod : -((v : ℤ) - (2 ^ bits : ℕ)) % (2 ^ bits : ℕ) = (2 ^ bits - v : ℕ) := by
      rw [Int.emod_eq_of_lt (by omega) (by omega)]
      omega
    rw [if_neg hpos', if_neg hpos']
    rw [if_pos (by omega), printUnsigned_eq hb, hcast, Int.bmod_emod, hmod, Int.toNat_natCast,
      Console.displayChar_eq, Console.displayStr_displayStr]
    rfl

end Functions

/-! ### The buffer -/

/-- The macros for unsigned values once more, with what they leave in the local buffer and where in
it the string for `display_str` begins; none for zero. -/
def unsignedValBuffer (radix : ℕ) (hr : 1 < radix) (digit : ℕ → UInt8) (buf : ByteMemory) (d : ℕ) :
    ByteMemory × Option ℕ :=
  let buf := buf.store 64 0
  if d = 0 then (buf, none)
  else
    let r := storeDigits radix hr digit buf d 63
    (r.1, some (r.2 + 1))

/-- What is displayed for that buffer. -/
def Console.displayBuffer (o : Console) : ByteMemory × Option ℕ → Console
  | (_, none) => o.displayChar '0'.toUInt8
  | (buf, some p) => o.displayStr (buf.cstr p 65)

/-- The three macros; `bc` is the letter for the digit ten. -/
inductive DigitMacro
  | unsignedValDec
  | unsignedValHex (bc : UInt8)
  | signedValDec

namespace DigitMacro

def radix : DigitMacro → ℕ
  | unsignedValDec | signedValDec => 10
  | unsignedValHex _ => 16

theorem one_lt_radix : ∀ k : DigitMacro, 1 < k.radix
  | unsignedValDec | signedValDec => Nat.one_lt_succ_succ 8
  | unsignedValHex _ => Nat.one_lt_succ_succ 14

def digit : DigitMacro → ℕ → UInt8
  | unsignedValDec | signedValDec => decDigit
  | unsignedValHex bc => hexDigit bc

/-- The number whose digits are stored, of a parameter of that many bits. -/
def value (bits : ℕ) (d : ℤ) : DigitMacro → ℕ
  | unsignedValDec | unsignedValHex _ => (d % 2 ^ bits).toNat
  | signedValDec =>
    let d := d.bmod (2 ^ bits)
    ((if d < 0 then (-d).bmod (2 ^ bits) else d) % 2 ^ bits).toNat

/-- The buffer of the macro in the function `print_*` of a type of that many bits. `signedValDec`
has none of its own: it calls `print_u*`. -/
def buffer (k : DigitMacro) (bits : ℕ) (buf : ByteMemory) (d : ℤ) : ByteMemory × Option ℕ :=
  unsignedValBuffer k.radix k.one_lt_radix k.digit buf (k.value bits d)

/-- All stores are to the 64 bytes of the buffer, and the string begins and ends in them. -/
structure InBuffer (r : ByteMemory × Option ℕ) : Prop where
  stores : r.1.Stored (· < 64)
  string : ∀ p, r.2 = some p → ∃ q, p ≤ q ∧ q < 64 ∧ r.1.byte q = 0

end DigitMacro

section Buffer

variable {radix : ℕ} {hr : 1 < radix} {digit : ℕ → UInt8} {buf : ByteMemory} {bits d : ℕ}
  {o : Console}

theorem dispUnsignedVal_buffer :
    dispUnsignedVal radix hr digit buf d o =
      o.displayBuffer (unsignedValBuffer radix hr digit buf d) := by
  rw [dispUnsignedVal, unsignedValBuffer]
  split <;> rfl

/-- The functions `print_*` display what the macros leave in the buffer. -/
theorem print_buffer (d : ℤ) :
    printUnsigned bits buf d o =
        o.displayBuffer (DigitMacro.unsignedValDec.buffer bits buf d) ∧
      (∀ bc, printUnsignedHex bits buf d bc o =
        o.displayBuffer ((DigitMacro.unsignedValHex bc).buffer bits buf d)) ∧
      printSigned bits buf d o =
        (if d.bmod (2 ^ bits) < 0 then o.displayChar '-'.toUInt8 else o).displayBuffer
          (DigitMacro.signedValDec.buffer bits buf d) := by
  refine ⟨dispUnsignedVal_buffer, fun bc ↦ dispUnsignedVal_buffer, ?_⟩
  rw [printSigned, DigitMacro.buffer, DigitMacro.value]
  split
  · exact dispUnsignedVal_buffer
  · exact dispUnsignedVal_buffer

/-- The loop moves the cursor by the number of digits, stores to the places that it passes and
leaves those behind it alone. By induction on the number. -/
theorem storeDigits_log (hr : 1 < radix) (digit : ℕ → UInt8) (buf : ByteMemory) (d cur : ℕ) :
    (storeDigits radix hr digit buf d cur).2 = cur - (digitsOf radix hr digit d).length ∧
      (∀ a, a ∈ (storeDigits radix hr digit buf d cur).1.stores ↔
        (cur < a + (digitsOf radix hr digit d).length ∧ a ≤ cur) ∨ a ∈ buf.stores) ∧
      ∀ a, cur < a → (storeDigits radix hr digit buf d cur).1.byte a = buf.byte a := by
  induction d using Nat.strong_induction_on generalizing buf cur with
  | _ d ih =>
    by_cases hd : d = 0
    · rw [storeDigits, digitsOf, if_pos hd, if_pos hd]
      refine ⟨rfl, fun a ↦ (or_iff_right fun h ↦ ?_).symm, fun _ _ ↦ rfl⟩
      exact absurd h.1 (Nat.not_lt.2 h.2)
    · obtain ⟨hcur, hstores, hbyte⟩ := ih (d / radix)
        (Nat.div_lt_self (Nat.pos_of_ne_zero hd) hr) (buf.store cur (digit (d % radix))) (cur - 1)
      rw [storeDigits, if_neg hd, digitsOf_of_ne hd, List.length_append, List.length_singleton]
      refine ⟨by omega, fun a ↦ ?_, fun a ha ↦ ?_⟩
      · rw [hstores, ByteMemory.store_stores, List.mem_cons, ← or_assoc]
        exact or_congr_left (by omega)
      · rw [hbyte a (by omega), ByteMemory.store_byte, if_neg (Nat.ne_of_gt ha)]

/-- A conversion to an unsigned type. -/
theorem toNat_emod_lt (bits : ℕ) (d : ℤ) : (d % 2 ^ bits).toNat < 2 ^ bits := by
  obtain ⟨v, hv, -, hlt⟩ := emod_two_pow bits d
  rwa [hv, Int.toNat_natCast]

namespace DigitMacro

theorem value_lt (k : DigitMacro) (bits : ℕ) (d : ℤ) : k.value bits d < 2 ^ bits := by
  cases k <;> exact toNat_emod_lt bits _

/-- A number of 64 bits has at most twenty digits, also decimal ones. -/
theorem length_digits_le (k : DigitMacro) (hd : d < 2 ^ 64) :
    (digitsOf k.radix k.one_lt_radix k.digit d).length ≤ 20 := by
  refine length_digitsOf_le (hd.trans ?_)
  cases k with
  | unsignedValDec => norm_num [radix]
  | unsignedValHex bc => norm_num [radix]
  | signedValDec => norm_num [radix]

/-- The terminating zero has been stored. -/
theorem mem_buffer_stores (k : DigitMacro) (d : ℤ) : 64 ∈ (k.buffer bits buf d).1.stores := by
  have hmem : 64 ∈ (buf.store 64 0).stores := List.mem_cons_self
  rw [buffer, unsignedValBuffer]
  split
  · exact hmem
  · exact ((storeDigits_log _ _ _ _ 63).2.1 64).2 (Or.inr hmem)

/-- **The terminating zero goes behind the buffer**, whatever is printed. This is the only store
that does: of a value of up to 64 bits all digits go to the last twenty bytes of the buffer, the
string begins at one of these and the zero behind the buffer is its end at the latest. -/
theorem not_inBuffer (k : DigitMacro) (bits : ℕ) (byte : ℕ → UInt8) (d : ℤ) :
    ¬InBuffer (k.buffer bits ⟨byte, [], []⟩ d) ∧
      (bits ≤ 64 →
        ((k.buffer bits ⟨byte, [], []⟩ d).1.Stored fun a ↦ a = 64 ∨ (44 ≤ a ∧ a < 64)) ∧
        ∀ p, (k.buffer bits ⟨byte, [], []⟩ d).2 = some p →
          44 ≤ p ∧ p < 64 ∧ (k.buffer bits ⟨byte, [], []⟩ d).1.byte 64 = 0) := by
  refine ⟨fun h ↦ Nat.lt_irrefl 64 (h.stores 64 (mem_buffer_stores k d)), fun hb ↦ ?_⟩
  have hfirst : ∀ a ∈ (ByteMemory.store ⟨byte, [], []⟩ 64 0).stores, a = 64 :=
    fun a ha ↦ List.mem_singleton.1 ha
  rw [buffer, unsignedValBuffer]
  split
  · exact ⟨fun a ha ↦ Or.inl (hfirst a ha), fun p hp ↦ by cases hp⟩
  · next hne =>
    have hlen := k.length_digits_le ((k.value_lt bits d).trans_le
      (Nat.pow_le_pow_right (by decide) hb))
    have hpos : 0 < (digitsOf k.radix k.one_lt_radix k.digit (k.value bits d)).length := by
      rw [digitsOf_of_ne hne, List.length_append, List.length_singleton]
      exact Nat.succ_pos _
    obtain ⟨hcur, hstores, hbyte⟩ := storeDigits_log k.one_lt_radix k.digit
      (ByteMemory.store ⟨byte, [], []⟩ 64 0) (k.value bits d) 63
    refine ⟨fun a ha ↦ ((hstores a).1 ha).symm.imp (hfirst a) fun h ↦ ⟨by omega, by omega⟩,
      fun p hp ↦ ?_⟩
    obtain rfl := Option.some.inj hp
    refine ⟨by omega, by omega, (hbyte 64 (by decide)).trans ?_⟩
    rw [ByteMemory.store_byte, if_pos rfl]

/-- The number 7, printed as an `int` into a buffer of zeros. -/
theorem seven_leaves_buffer :
    ¬InBuffer (signedValDec.buffer 32 ⟨fun _ ↦ 0, [], []⟩ 7) :=
  fun h ↦ Nat.lt_irrefl 64 (h.stores 64 (mem_buffer_stores signedValDec 7))

end DigitMacro

end Buffer
end Printk

end Marimba
