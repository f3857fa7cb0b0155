import Marimba.Ps2.Driver

/-!
# The scan codes of the keyboard (`drivers/keyboard/ps2.c`, `drivers/keyboard/keyboard.c`)

The keyboard sends one byte when a key is pressed and two when it is released. `ps2_read_char` turns
the bytes of one event into a character, or into zero when there is none to be produced. Of the
shift keys it keeps one flag, which any press of a shift key sets and any release of one clears.

The bytes that the controller presents are a list from which they are taken in order, and waiting
for a byte that never comes is `none`. So the characters are a function of the events
(`readChars_encode`): at each press the flag is `held isShift`, whether some shift key has been
pressed and no shift key been released since (`held_iff`).

**That is not whether a shift key is held.** When both are down and one is released the flag is
cleared. `shiftRight_iff` says for which events the characters are right all the same.
-/

namespace Marimba

namespace Ps2

/-! ### The code -/

/-- `LEFT_SHIFT_SCAN_CODE`. -/
def leftShiftScanCode : UInt8 := 0x12

/-- `RIGHT_SHIFT_SCAN_CODE`. -/
def rightShiftScanCode : UInt8 := 0x59

/-- `RELEASED_SCAN_CODE`. -/
def releasedScanCode : UInt8 := 0xf0

/-- `translate_scan_code`. -/
def translateScanCode (shift code : UInt8) : UInt8 :=
  let choose (upper lower : Char) : UInt8 := if shift ≠ 0 then upper.toUInt8 else lower.toUInt8
  match code with
  | 0x1c => choose 'A' 'a'
  | 0x32 => choose 'B' 'b'
  | 0x21 => choose 'C' 'c'
  | 0x23 => choose 'D' 'd'
  | 0x24 => choose 'E' 'e'
  | 0x2b => choose 'F' 'f'
  | 0x34 => choose 'G' 'g'
  | 0x33 => choose 'H' 'h'
  | 0x43 => choose 'I' 'i'
  | 0x3b => choose 'J' 'j'
  | 0x42 => choose 'K' 'k'
  | 0x4b => choose 'L' 'l'
  | 0x3a => choose 'M' 'm'
  | 0x31 => choose 'N' 'n'
  | 0x44 => choose 'O' 'o'
  | 0x4d => choose 'P' 'p'
  | 0x15 => choose 'Q' 'q'
  | 0x2d => choose 'R' 'r'
  | 0x1b => choose 'S' 's'
  | 0x2c => choose 'T' 't'
  | 0x3c => choose 'U' 'u'
  | 0x2a => choose 'V' 'v'
  | 0x1d => choose 'W' 'w'
  | 0x22 => choose 'X' 'x'
  | 0x35 => choose 'Y' 'y'
  | 0x1a => choose 'Z' 'z'
  | 0x16 => choose '!' '1'
  | 0x1e => choose '@' '2'
  | 0x26 => choose '#' '3'
  | 0x25 => choose '$' '4'
  | 0x2e => choose '%' '5'
  | 0x36 => choose '^' '6'
  | 0x3d => choose '&' '7'
  | 0x3e => choose '*' '8'
  | 0x46 => choose '(' '9'
  | 0x45 => choose ')' '0'
  | 0x4e => choose '_' '-'
  | 0x55 => choose '+' '='
  | 0x5A => '\n'.toUInt8
  | 0x29 => ' '.toUInt8
  | _ => '?'.toUInt8

/-- A scan code of one of the shift keys. -/
def isShift (scode : UInt8) : Bool := scode = leftShiftScanCode ∨ scode = rightShiftScanCode

/-- What `ps2_read_char` works on: the flag in `ps2_dev`, and the bytes that the controller will
present. -/
structure Keyboard where
  shiftPressed : UInt8
  pending : List UInt8
  deriving DecidableEq, Repr

namespace Keyboard

/-- `ps2_char_avail`. -/
def ps2CharAvail (k : Keyboard) : Bool := !k.pending.isEmpty

/-- `ps2_read_data_p1`. It waits for a byte. -/
def ps2ReadDataP1 (k : Keyboard) : Option (UInt8 × Keyboard) :=
  match k.pending with
  | [] => none
  | b :: rest => some (b, { k with pending := rest })

/-- The end of `ps2_read_char`, for the byte behind `RELEASED_SCAN_CODE`. -/
def readReleased (k : Keyboard) : Option (UInt8 × Keyboard) := do
  let r ← k.ps2ReadDataP1
  return (0, if isShift r.1 then { r.2 with shiftPressed := 0 } else r.2)

/-- `ps2_read_char`. -/
def ps2ReadChar (k : Keyboard) : Option (UInt8 × Keyboard) := do
  if !k.ps2CharAvail then return (0, k)
  let r ← k.ps2ReadDataP1
  if isShift r.1 then return (0, { r.2 with shiftPressed := 1 })
  else if r.1 ≠ releasedScanCode then return (translateScanCode r.2.shiftPressed r.1, r.2)
  else r.2.readReleased

/-- What that many calls of `ps2_read_char` return, one after the other. -/
def readChars : ℕ → Keyboard → Option (List UInt8)
  | 0, _ => some []
  | n + 1, k => do
    let r ← k.ps2ReadChar
    return r.1 :: (← readChars n r.2)

end Keyboard

/-! ### Keys -/

/-- A key, by its make code. -/
abbrev Key : Type := { scode : UInt8 // scode ≠ releasedScanCode }

/-- A key is pressed, for the first time or repeatedly, or released. -/
inductive KeyEvent where
  | press (k : Key)
  | release (k : Key)
  deriving DecidableEq

namespace KeyEvent

/-- The bytes of an event. -/
def encode : KeyEvent → List UInt8
  | press k => [k.1]
  | release k => [releasedScanCode, k.1]

/-- Whether the last event of one of the keys in `p` is a press, after one more event. -/
def update (p : UInt8 → Bool) (was : Bool) : KeyEvent → Bool
  | press k => p k.1 || was
  | release k => !p k.1 && was

end KeyEvent

open KeyEvent

/-- The last event of one of the keys in `p` is a press. -/
def held (p : UInt8 → Bool) (es : List KeyEvent) : Bool := es.foldl (update p) false

/-- At least one of the shift keys is held. -/
def shiftHeld (es : List KeyEvent) : Bool :=
  held (· = leftShiftScanCode) es || held (· = rightShiftScanCode) es

/-- The characters for the presses among the events `es`, after those in `hist`, when `shift` says
whether shift applies. -/
def charsWith (shift : List KeyEvent → Bool) : (hist es : List KeyEvent) → List UInt8
  | _, [] => []
  | hist, press k :: es =>
    (if isShift k.1 then [] else [translateScanCode (shift hist).toUInt8 k.1]) ++
      charsWith shift (hist ++ [press k]) es
  | hist, release k :: es => charsWith shift (hist ++ [release k]) es

/-- The calls of `ps2_read_char` for the events, and more of them behind the last event, produce
one character for each press of a key other than shift, the upper one if a shift key is held. -/
def ShiftRight (es : List KeyEvent) (extra : ℕ) : Prop :=
  ∃ cs, Keyboard.readChars (es.length + extra) ⟨0, es.flatMap encode⟩ = some cs ∧
    cs.filter (· ≠ 0) = charsWith shiftHeld [] es

/-! ### Held keys -/

section Held

variable {p q : UInt8 → Bool} {es : List KeyEvent} {e : KeyEvent}

@[simp] theorem held_nil : held p [] = false := rfl

@[simp] theorem held_concat : held p (es ++ [e]) = e.update p (held p es) := by
  rw [held, List.foldl_append]
  rfl

/-- **The keys in `p` are held** when one of them has been pressed and none been released since. -/
theorem held_iff :
    held p es = true ↔ ∃ pre k post, es = pre ++ press k :: post ∧ p k.1 = true ∧
      ∀ k', release k' ∈ post → p k'.1 = false := by
  induction es using List.reverseRecOn with
  | nil => simp
  | append_singleton es e ih =>
    rw [held_concat]
    constructor
    · intro h
      cases e with
      | press k =>
        by_cases hk : p k.1 = true
        · exact ⟨es, k, [], rfl, hk, fun k' hk' ↦ absurd hk' List.not_mem_nil⟩
        · rw [update, Bool.or_eq_true, or_iff_right hk] at h
          obtain ⟨pre, k', post, rfl, hk', hpost⟩ := ih.1 h
          refine ⟨pre, k', post ++ [press k], by simp, hk', fun k'' hmem ↦ hpost k'' ?_⟩
          simpa using hmem
      | release k =>
        rw [update, Bool.and_eq_true, Bool.not_eq_true'] at h
        obtain ⟨pre, k', post, rfl, hk', hpost⟩ := ih.1 h.2
        refine ⟨pre, k', post ++ [release k], by simp, hk', fun k'' hmem ↦ ?_⟩
        rcases List.mem_append.1 hmem with hmem | hmem
        · exact hpost k'' hmem
        · obtain rfl := KeyEvent.release.inj (List.mem_singleton.1 hmem)
          exact h.1
    · rintro ⟨pre, k, post, heq, hk, hpost⟩
      rcases List.eq_nil_or_concat post with rfl | ⟨post, e', rfl⟩
      · obtain rfl := (List.append_inj' heq rfl).2 |> List.singleton_inj.1
        rw [update, hk, Bool.true_or]
      · have heq' : es ++ [e] = (pre ++ press k :: post) ++ [e'] := by simpa using heq
        obtain ⟨rfl, he⟩ := List.append_inj' heq' rfl
        obtain rfl := List.singleton_inj.1 he
        have hprev : held p (pre ++ press k :: post) = true :=
          ih.2 ⟨pre, k, post, rfl, hk, fun k' hk' ↦ hpost k' (by simp [hk'])⟩
        cases e with
        | press k' => rw [update, hprev, Bool.or_true]
        | release k' => rw [update, hprev, hpost k' (by simp), Bool.not_false, Bool.true_and]

/-- When the flag is set a shift key is held: the one pressed last. -/
theorem shiftHeld_of_held (h : held isShift es = true) : shiftHeld es = true := by
  obtain ⟨pre, k, post, rfl, hk, hpost⟩ := held_iff.1 h
  have hkeys : k.1 = leftShiftScanCode ∨ k.1 = rightShiftScanCode := of_decide_eq_true hk
  rw [shiftHeld, Bool.or_eq_true]
  refine hkeys.imp (fun hl ↦ held_iff.2 ⟨pre, k, post, rfl, decide_eq_true hl, fun k' hk' ↦ ?_⟩)
    fun hr ↦ held_iff.2 ⟨pre, k, post, rfl, decide_eq_true hr, fun k' hk' ↦ ?_⟩
  · exact decide_eq_false fun h' ↦ of_decide_eq_false (hpost k' hk') (Or.inl h')
  · exact decide_eq_false fun h' ↦ of_decide_eq_false (hpost k' hk') (Or.inr h')

end Held

/-! ### The characters -/

section Characters

variable {es hist : List KeyEvent} {k : Key} {rest : List UInt8} {f g : List KeyEvent → Bool}

theorem translateScanCode_ne_zero (shift code : UInt8) : translateScanCode shift code ≠ 0 := by
  unfold translateScanCode
  split <;> first | decide | (dsimp only; split <;> decide)

/-- The call of `ps2_read_char` for a press. -/
theorem ps2ReadChar_press (b : Bool) :
    Keyboard.ps2ReadChar ⟨b.toUInt8, (press k).encode ++ rest⟩ =
      some (if isShift k.1 then 0 else translateScanCode b.toUInt8 k.1,
        ⟨((press k).update isShift b).toUInt8, rest⟩) := by
  rw [Keyboard.ps2ReadChar, update]
  cases hk : isShift k.1 with
  | true => simp [Keyboard.ps2CharAvail, Keyboard.ps2ReadDataP1, encode, hk, Bool.toUInt8]
  | false => simp [Keyboard.ps2CharAvail, Keyboard.ps2ReadDataP1, encode, hk, k.2]

/-- The call of `ps2_read_char` for a release, which takes both bytes. -/
theorem ps2ReadChar_release (b : Bool) :
    Keyboard.ps2ReadChar ⟨b.toUInt8, (release k).encode ++ rest⟩ =
      some (0, ⟨((release k).update isShift b).toUInt8, rest⟩) := by
  have hreleased : isShift releasedScanCode = false := by decide
  rw [Keyboard.ps2ReadChar, update]
  cases hk : isShift k.1 with
  | true =>
    simp [Keyboard.ps2CharAvail, Keyboard.ps2ReadDataP1, Keyboard.readReleased, encode, hk,
      hreleased, Bool.toUInt8]
  | false =>
    simp [Keyboard.ps2CharAvail, Keyboard.ps2ReadDataP1, Keyboard.readReleased, encode, hk,
      hreleased]

/-- Without bytes there are no characters. -/
theorem readChars_empty (n : ℕ) (b : UInt8) :
    Keyboard.readChars n ⟨b, []⟩ = some (List.replicate n 0) := by
  induction n with
  | zero => rfl
  | succ n ih =>
    have hcall : Keyboard.ps2ReadChar ⟨b, []⟩ = some (0, ⟨b, []⟩) := rfl
    rw [Keyboard.readChars, hcall, List.replicate_succ, Option.bind_eq_bind, Option.bind_some, ih]
    rfl

/-- **The characters that are produced**: one for each press of a key other than shift, the upper
one if some shift key has been pressed and none been released since. By induction on the events. -/
theorem readChars_encode (hist es : List KeyEvent) (extra : ℕ) :
    ∃ cs, Keyboard.readChars (es.length + extra)
        ⟨(held isShift hist).toUInt8, es.flatMap encode⟩ = some cs ∧
      cs.filter (· ≠ 0) = charsWith (held isShift) hist es := by
  induction es generalizing hist with
  | nil =>
    refine ⟨_, readChars_empty _ _, ?_⟩
    rw [charsWith, List.filter_eq_nil_iff]
    intro c hc
    rw [List.eq_of_mem_replicate hc]
    decide
  | cons e es ih =>
    obtain ⟨cs, hcs, hfilter⟩ := ih (hist ++ [e])
    rw [held_concat] at hcs
    rw [List.length_cons, Nat.add_right_comm, Keyboard.readChars, List.flatMap_cons]
    cases e with
    | press k =>
      rw [ps2ReadChar_press, Option.bind_eq_bind, Option.bind_some, hcs]
      refine ⟨_, rfl, ?_⟩
      rw [charsWith, ← hfilter]
      split
      · rfl
      · exact List.filter_cons_of_pos (decide_eq_true (translateScanCode_ne_zero _ _))
    | release k =>
      rw [ps2ReadChar_release, Option.bind_eq_bind, Option.bind_some, hcs]
      exact ⟨_, rfl, hfilter⟩

/-- The same characters are produced when the two translations agree at every press. -/
theorem charsWith_eq_iff :
    charsWith f hist es = charsWith g hist es ↔
      ∀ pre k post, es = pre ++ press k :: post → isShift k.1 = false →
        translateScanCode (f (hist ++ pre)).toUInt8 k.1 =
          translateScanCode (g (hist ++ pre)).toUInt8 k.1 := by
  induction es generalizing hist with
  | nil => simp [charsWith]
  | cons e es ih =>
    -- the presses are the first event, if it is one, and those behind it
    have hsplit : (∀ pre k post, e :: es = pre ++ press k :: post → isShift k.1 = false →
          translateScanCode (f (hist ++ pre)).toUInt8 k.1 =
            translateScanCode (g (hist ++ pre)).toUInt8 k.1) ↔
        (∀ k, e = press k → isShift k.1 = false →
          translateScanCode (f hist).toUInt8 k.1 = translateScanCode (g hist).toUInt8 k.1) ∧
        charsWith f (hist ++ [e]) es = charsWith g (hist ++ [e]) es := by
      rw [ih]
      constructor
      · refine fun h ↦ ⟨fun k hk hshift ↦ ?_, fun pre k post heq hshift ↦ ?_⟩
        · have hhead := h [] k es (by rw [hk]; rfl) hshift
          rwa [List.append_nil] at hhead
        · rw [List.append_assoc]
          exact h (e :: pre) k post (by rw [heq]; rfl) hshift
      · rintro ⟨hhead, htail⟩ pre k post heq hshift
        cases pre with
        | nil =>
          rw [List.append_nil]
          exact hhead k (List.cons.inj heq).1 hshift
        | cons e' pre =>
          obtain ⟨rfl, heq'⟩ := List.cons.inj heq
          have htail := htail pre k post heq' hshift
          rwa [List.append_assoc] at htail
    rw [hsplit]
    cases e with
    | press k =>
      rw [charsWith, charsWith]
      split
      · next hshift => simp [hshift]
      · next hshift => simp [hshift]
    | release k => simp [charsWith]

/-- **When the characters are right**: at every press of a key that has two characters, if a shift
key is held then no shift key has been released since the last time that one was pressed. -/
theorem shiftRight_iff (es : List KeyEvent) (extra : ℕ) :
    ShiftRight es extra ↔
      ∀ pre k post, es = pre ++ press k :: post → isShift k.1 = false →
        translateScanCode 0 k.1 ≠ translateScanCode 1 k.1 → shiftHeld pre = true →
        held isShift pre = true := by
  obtain ⟨cs, hcs, hfilter⟩ := readChars_encode [] es extra
  have hright : ShiftRight es extra ↔
      charsWith (held isShift) [] es = charsWith shiftHeld [] es := by
    rw [← hfilter]
    refine ⟨fun ⟨cs', hcs', hright⟩ ↦ ?_, fun h ↦ ⟨cs, hcs, h⟩⟩
    obtain rfl := Option.some.inj (hcs.symm.trans hcs')
    exact hright
  rw [hright, charsWith_eq_iff]
  refine forall_congr' fun pre ↦ forall_congr' fun k ↦ forall_congr' fun post ↦
    forall_congr' fun _ ↦ forall_congr' fun _ ↦ ?_
  rw [List.nil_append]
  cases hflag : held isShift pre with
  | true => simp [shiftHeld_of_held hflag]
  | false =>
    cases hheld : shiftHeld pre with
    | true => simp [Bool.toUInt8]
    | false => simp

/-- The key of the letter A. -/
def keyA : Key := ⟨0x1c, by decide⟩

/-- Both shift keys are pressed, the right one is released, and A is pressed. -/
def oneShiftReleased : List KeyEvent :=
  [press ⟨leftShiftScanCode, by decide⟩, press ⟨rightShiftScanCode, by decide⟩,
    release ⟨rightShiftScanCode, by decide⟩, press keyA]

theorem held_shift_is_lost :
    Keyboard.readChars 4 ⟨0, oneShiftReleased.flatMap encode⟩ = some [0, 0, 0, 'a'.toUInt8] ∧
      charsWith shiftHeld [] oneShiftReleased = ['A'.toUInt8] ∧ ¬ShiftRight oneShiftReleased 0 := by
  refine ⟨by decide, by decide, fun ⟨cs, hcs, hright⟩ ↦ ?_⟩
  have hcs' : Keyboard.readChars 4 ⟨0, oneShiftReleased.flatMap encode⟩ =
      some [0, 0, 0, 'a'.toUInt8] := by decide
  obtain rfl := Option.some.inj (hcs'.symm.trans hcs)
  exact absurd hright (by decide)

end Characters

end Ps2

end Marimba
