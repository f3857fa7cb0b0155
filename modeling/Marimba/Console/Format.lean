import Marimba.Console.Printk

/-!
# What `printk` prints

A format is a list of items: literal characters and directives. Each item has its text in the
format and a rendering of its argument, and the reference for `printk` is that the renderings come
one behind the other, the arguments from left to right (`render`).

**Correctness** (`printk_renders`): on the text of any items, `printk` sends their renderings to the
display and to the serial device. The step is one item (`printkFrom_item`): the code converts the
argument to the type of the directive in two steps, which is the same as one (`toNat_bmod_emod`).
-/

namespace Marimba

namespace Printk

/-! ### The reference -/

/-- The length of a number: none, or one of the three letters. -/
inductive Length where
  | none
  | l
  | h
  | q
  deriving DecidableEq, Repr

/-- The width of a number of that length. -/
def Length.bits : Length → ℕ
  | none => 32
  | l => 64
  | h => 16
  | q => 64

/-- The letter in the format. -/
def Length.text : Length → List UInt8
  | none => []
  | l => ['l'.toUInt8]
  | h => ['h'.toUInt8]
  | q => ['q'.toUInt8]

/-- How a number is written. -/
inductive Conversion where
  | d
  | u
  | x
  | X
  deriving DecidableEq, Repr

/-- The letter in the format. -/
def Conversion.letter : Conversion → UInt8
  | d => 'd'.toUInt8
  | u => 'u'.toUInt8
  | x => 'x'.toUInt8
  | X => 'X'.toUInt8

/-- The numeral of a number of that many bits. -/
def Conversion.numeral (bits n : ℕ) : Conversion → List UInt8
  | d => signedDecimal bits n
  | u => decimal n
  | x => hexLower n
  | X => hexUpper n

/-- A literal character or a complete directive. -/
inductive Item where
  | literal (c : UInt8) (h : c ≠ 0 ∧ c ≠ '%'.toUInt8)
  | str
  | char
  | pointer
  | percent
  | number (length : Length) (conversion : Conversion)

namespace Item

/-- The item in the format. -/
def text : Item → List UInt8
  | literal c _ => [c]
  | str => ['%'.toUInt8, 's'.toUInt8]
  | char => ['%'.toUInt8, 'c'.toUInt8]
  | pointer => ['%'.toUInt8, 'p'.toUInt8]
  | percent => ['%'.toUInt8, '%'.toUInt8]
  | number length conversion => '%'.toUInt8 :: (length.text ++ [conversion.letter])

/-- A literal, a directive of one letter, or a number with a length. -/
theorem text_cases (item : Item) :
    (∃ c h, item = literal c h) ∨ (∃ c, item.text = ['%'.toUInt8, c]) ∨
      ∃ length c conversion, length.text = [c] ∧ item = number length conversion := by
  cases item with
  | literal c h => exact Or.inl ⟨c, h, rfl⟩
  | str => exact Or.inr (Or.inl ⟨_, rfl⟩)
  | char => exact Or.inr (Or.inl ⟨_, rfl⟩)
  | pointer => exact Or.inr (Or.inl ⟨_, rfl⟩)
  | percent => exact Or.inr (Or.inl ⟨_, rfl⟩)
  | number length conversion =>
    cases length with
    | none => exact Or.inr (Or.inl ⟨_, rfl⟩)
    | l => exact Or.inr (Or.inr ⟨_, _, _, rfl, rfl⟩)
    | h => exact Or.inr (Or.inr ⟨_, _, _, rfl, rfl⟩)
    | q => exact Or.inr (Or.inr ⟨_, _, _, rfl, rfl⟩)

/-- How many arguments the item takes. -/
def uses : Item → ℕ
  | literal _ _ => 0
  | percent => 0
  | _ => 1

/-- What is printed for the item, with the word of its argument. -/
def rendering (g : Args) (w : ℕ) : Item → List UInt8
  | literal c _ => [c]
  | str => g.str w
  | char => [UInt8.ofNat w]
  | pointer => '0'.toUInt8 :: 'x'.toUInt8 :: hexLower (w % 2 ^ 64)
  | percent => ['%'.toUInt8]
  | number length conversion => conversion.numeral length.bits (w % 2 ^ length.bits)

end Item

/-- The rendering of a format, with the arguments from `next` on. -/
def render (g : Args) : ℕ → List Item → List UInt8
  | _, [] => []
  | next, item :: items => item.rendering g (g.va next) ++ render g (next + item.uses) items

/-! ### Numbers -/

section Numbers

variable {a b w : ℕ} {buf : ByteMemory} {o : Console}

/-- A word taken as a wide type and converted to a narrow one. -/
theorem toNat_bmod_emod (h : b ≤ a) : ((w : ℤ).bmod (2 ^ a) % 2 ^ b).toNat = w % 2 ^ b := by
  have hdvd : (2 ^ b : ℤ) ∣ (2 ^ a : ℕ) := by
    rw [Nat.cast_pow]
    exact pow_dvd_pow 2 h
  have hmod : (w : ℤ).bmod (2 ^ a) % 2 ^ b = (w % 2 ^ b : ℕ) := by
    rw [← Int.emod_emod_of_dvd _ hdvd, Int.bmod_emod, Int.emod_emod_of_dvd _ hdvd]
    norm_num
  rw [hmod, Int.toNat_natCast]

theorem toNat_emod (w b : ℕ) : ((w : ℤ) % 2 ^ b).toNat = w % 2 ^ b := by
  have hmod : (w : ℤ) % 2 ^ b = (w % 2 ^ b : ℕ) := by norm_num
  rw [hmod, Int.toNat_natCast]

theorem handleFormatSpecifier_eq (h0 : 0 < b) (hb : b ≤ 64) (arg : ℤ) (conversion : Conversion) :
    handleFormatSpecifier (printUnsigned b) (printSigned b) (printUnsignedHex b) buf arg
        conversion.letter o =
      o.displayStr (conversion.numeral b (arg % 2 ^ b).toNat) := by
  cases conversion with
  | d => exact printSigned_eq h0 hb arg
  | u => exact printUnsigned_eq hb arg
  | x => exact printUnsignedHex_lower hb arg
  | X => exact printUnsignedHex_upper hb arg

end Numbers

/-! ### Items -/

section Items

variable {g : Args} {m : ByteMemory} {cur : ℕ} {s : State} {rest : List UInt8}

/-- The state behind an item. -/
def State.behind (g : Args) (s : State) (item : Item) : State :=
  ⟨s.next + item.uses, s.out.displayStr (item.rendering g (g.va s.next))⟩

/-- A directive of one letter. -/
theorem directive_eq (item : Item) {c : UInt8} (htext : item.text = ['%'.toUInt8, c]) :
    isLength c = false ∧ directive g c s = s.behind g item := by
  cases item with
  | literal c' h => cases htext
  | str =>
    cases htext
    exact ⟨by decide, rfl⟩
  | char =>
    cases htext
    exact ⟨by decide, rfl⟩
  | pointer =>
    cases htext
    have hprint : directive g 'p'.toUInt8 s = s.used (printUnsignedHex 64 g.buf (g.va s.next)
        'a'.toUInt8 (s.out.displayStr ['0'.toUInt8, 'x'.toUInt8])) := rfl
    rw [hprint, printUnsignedHex_lower le_rfl, toNat_emod, Console.displayStr_displayStr]
    exact ⟨by decide, rfl⟩
  | percent =>
    cases htext
    exact ⟨by decide, rfl⟩
  | number length conversion =>
    cases length with
    | none =>
      cases htext
      have hprint : directive g conversion.letter s = s.used (handleFormatSpecifier
          (printUnsigned 32) (printSigned 32) (printUnsignedHex 32) g.buf
          ((g.va s.next : ℤ).bmod (2 ^ 32)) conversion.letter s.out) := by
        cases conversion <;> rfl
      rw [hprint, handleFormatSpecifier_eq (by decide) (by decide), toNat_bmod_emod le_rfl]
      exact ⟨by cases conversion <;> decide, rfl⟩
    | l => cases htext
    | h => cases htext
    | q => cases htext

/-- A number with a length. -/
theorem directiveLong_eq {length : Length} {c : UInt8} (hl : length.text = [c])
    (conversion : Conversion) :
    isLength c = true ∧
      directiveLong g c conversion.letter s = s.behind g (.number length conversion) := by
  cases length with
  | none => cases hl
  | l =>
    cases hl
    have hprint : directiveLong g 'l'.toUInt8 conversion.letter s = s.used (handleFormatSpecifier
        (printUnsigned 64) (printSigned 64) (printUnsignedHex 64) g.buf
        ((g.va s.next : ℤ).bmod (2 ^ 64)) conversion.letter s.out) := rfl
    rw [hprint, handleFormatSpecifier_eq (by decide) (by decide), toNat_bmod_emod le_rfl]
    exact ⟨by decide, rfl⟩
  | h =>
    cases hl
    have hprint : directiveLong g 'h'.toUInt8 conversion.letter s = s.used (handleFormatSpecifier
        (printUnsigned 16) (printSigned 16) (printUnsignedHex 16) g.buf
        ((g.va s.next : ℤ).bmod (2 ^ 32)) conversion.letter s.out) := rfl
    rw [hprint, handleFormatSpecifier_eq (by decide) (by decide), toNat_bmod_emod (by decide)]
    exact ⟨by decide, rfl⟩
  | q =>
    cases hl
    have hprint : directiveLong g 'q'.toUInt8 conversion.letter s = s.used (handleFormatSpecifier
        (printUnsigned 64) (printSigned 64) (printUnsignedHex 64) g.buf
        ((g.va s.next : ℤ).bmod (2 ^ 64)) conversion.letter s.out) := rfl
    rw [hprint, handleFormatSpecifier_eq (by decide) (by decide), toNat_bmod_emod le_rfl]
    exact ⟨by decide, rfl⟩

/-- **One item**: the loop goes on behind it, and its rendering is on the devices. -/
theorem printkFrom_item (item : Item) (hf : m.HasString cur (item.text ++ rest)) :
    ∃ m₁, (∀ n, printkFrom g (n + 1) m cur s =
        printkFrom g n m₁ (cur + item.text.length) (s.behind g item)) ∧
      m₁.HasString (cur + item.text.length) rest := by
  rcases item.text_cases with ⟨c, h, rfl⟩ | ⟨c, htext⟩ | ⟨length, c, conversion, hl, rfl⟩
  · obtain ⟨hb, -, hrest⟩ := hf
    refine ⟨m.load cur, fun n ↦ ?_, hrest.load cur⟩
    rw [printkFrom_literal (hb ▸ h.1) (hb ▸ h.2), hb]
    rfl
  · obtain ⟨hl, hdirective⟩ := directive_eq (g := g) (s := s) item htext
    rw [htext] at hf ⊢
    obtain ⟨hb, -, rfl, -, hrest⟩ := hf
    refine ⟨_, fun n ↦ ?_, (hrest.load cur).load (cur + 1)⟩
    rw [printkFrom_directive hb hl, hdirective]
    rfl
  · obtain ⟨hlen, hdirective⟩ := directiveLong_eq (g := g) (s := s) hl conversion
    have htext : (Item.number length conversion).text = ['%'.toUInt8, c, conversion.letter] := by
      rw [Item.text, hl]
      rfl
    rw [htext] at hf ⊢
    obtain ⟨hb, -, rfl, -, hb', -, hrest⟩ := hf
    refine ⟨_, fun n ↦ ?_, ((hrest.load cur).load (cur + 1)).load (cur + 2)⟩
    rw [printkFrom_long hb hlen]
    rw [show m.byte (cur + 2) = conversion.letter from hb', hdirective]
    rfl

/-- The items one after the other, by induction on them. -/
theorem printkFrom_items (items : List Item) (hf : m.HasString cur (items.flatMap Item.text)) :
    ∃ n m' next, printkFrom g n m cur s =
      some (m', ⟨next, s.out.displayStr (render g s.next items)⟩) := by
  induction items generalizing m cur s with
  | nil =>
    refine ⟨1, m.load cur, s.next, ?_⟩
    rw [printkFrom_end hf, render, Console.displayStr_nil]
  | cons item items ih =>
    obtain ⟨m₁, hstep, hf'⟩ := printkFrom_item (g := g) (s := s) item hf
    obtain ⟨n, m', next, hrun⟩ := ih (s := s.behind g item) hf'
    refine ⟨n + 1, m', next, ?_⟩
    rw [hstep, hrun, State.behind, Console.displayStr_displayStr]
    rfl

end Items

/-- **`printk` prints the rendering of its format**, whatever items it is made of and whatever the
arguments are: the display and the serial device are given the same characters. -/
theorem printk_renders (g : Args) {m : ByteMemory} {fmt : ℕ} {items : List Item}
    (hf : m.HasString fmt (items.flatMap Item.text)) (o : Console) :
    ∃ m' o', Prints g m fmt o m' o' ∧
      o'.disp = o.disp.displayChars (render g 0 items) ∧
      o'.serial = o.serial.map (· ++ render g 0 items) := by
  obtain ⟨n, m', next, hrun⟩ := printkFrom_items (g := g) (s := ⟨0, o⟩) items hf
  exact ⟨m', _, ⟨n, next, hrun⟩, rfl, rfl⟩

/-- The format `%d %hX`. -/
def twoNumbers : List Item :=
  [.number .none .d, .literal ' '.toUInt8 (by decide), .number .h .X]

/-- A negative number, and one that is cut to 16 bits. -/
theorem printk_renders_twoNumbers :
    ∃ m' o',
      Prints ⟨fun i ↦ [0xfffffffb, 0x1beef].getD i 0, fun _ ↦ [], .ofList []⟩
        (.ofList (['%', 'd', ' ', '%', 'h', 'X'].map Char.toUInt8)) 0
        ⟨Vga.blankDisplay, some []⟩ m' o' ∧
      o'.serial = some (['-', '5', ' ', 'B', 'E', 'E', 'F'].map Char.toUInt8) := by
  have hf : (ByteMemory.ofList (['%', 'd', ' ', '%', 'h', 'X'].map Char.toUInt8)).HasString 0
      (twoNumbers.flatMap Item.text) := by decide
  obtain ⟨m', o', hprints, -, hserial⟩ :=
    printk_renders ⟨fun i ↦ [0xfffffffb, 0x1beef].getD i 0, fun _ ↦ [], .ofList []⟩ hf
      ⟨Vga.blankDisplay, some []⟩
  exact ⟨m', o', hprints, hserial.trans (by decide)⟩

end Printk

end Marimba
