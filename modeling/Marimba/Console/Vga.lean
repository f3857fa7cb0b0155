import Marimba.Strings
import Mathlib.Data.Int.Notation
import Mathlib.Data.List.Infix
import Mathlib.Data.List.Induction

/-!
# The text display (`vga.c`)

The display shows 25 rows of 80 cells. `x` and `y` are not the column and the row of the cursor: a
long line is not broken, so `x` counts the characters since the line began, and `y` is the row in
which the line began. Only the index `y * width + x` of the next cell is kept inside of the buffer,
by scrolling when it is just behind the last cell, and scrolling decrements `y`. So the row in which
a long line began may have left the display, and then `y`, being unsigned, has wrapped around.

`LineCursor` is the same cursor over the integers. It agrees with the code (`Matches`) as long as
lines are shorter than `2 ^ 32`, and the index is in the buffer as long as no carriage return goes
back to a row that has left the display (`matches_run`). A carriage return that does goes to an
index far behind the buffer (`carriageVisible_of_safe`).
-/

namespace Marimba

namespace Vga

/-! ### The code -/

/-- `X86_VGA_ADDR`, the address of the text buffer. -/
abbrev x86VgaAddr : ℕ := 0xb8000

/-- `disp.width`. -/
abbrev width : ℕ := 80

/-- `disp.height`. -/
abbrev height : ℕ := 25

/-- `disp.len`. -/
abbrev len : ℕ := 80 * 25

/-- `disp.char_bytes`. -/
abbrev charBytes : ℕ := 2

/-- The fields of `struct VGATextBuffer` that change, and the memory with the buffer in it. -/
structure TextBuffer where
  x : ℕ
  y : ℕ
  mem : ByteMemory

/-- `0x0f00 | c` as a cell. A `char` is signed, so one above 127 is extended by ones. -/
def cell (c : UInt8) : ℕ := 0x0f00 ||| (if c.toNat < 0x80 then c.toNat else 0xff00 + c.toNat)

theorem cell_lt (c : UInt8) : cell c < 2 ^ 16 := by
  refine Nat.or_lt_two_pow (by decide) ?_
  have := c.toNat_lt
  split <;> omega

namespace TextBuffer

/-- The index of the next cell, `disp.y*disp.width + disp.x` as an `unsigned int`. -/
def index (d : TextBuffer) : ℕ := (d.y * width + d.x) % 2 ^ 32

/-- The cell with that index, as the display shows it. -/
def cellAt (d : TextBuffer) (i : ℕ) : ℕ := d.mem.half (x86VgaAddr + 2 * i)

/-- `scroll`. -/
def scroll (d : TextBuffer) : TextBuffer :=
  { d with
    mem := memset
      (memcpy d.mem x86VgaAddr (x86VgaAddr + 2 * width) ((len - width) * charBytes))
      (x86VgaAddr + 2 * (len - width)) 0 (width * charBytes) }

/-- `VGA_clear`. -/
def clear (d : TextBuffer) : TextBuffer :=
  { x := 0, y := 0, mem := memset d.mem x86VgaAddr 0 (len * charBytes) }

/-- The first half of `VGA_display_char`: it scrolls when the next cell is behind the last one. -/
def makeRoom (d : TextBuffer) : TextBuffer :=
  if d.index = len then { d.scroll with y := (d.y + 0xffffffff) % 2 ^ 32 } else d

/-- The second half of `VGA_display_char`. -/
def put (d : TextBuffer) (c : UInt8) : TextBuffer :=
  if c = 0x0a then { d with y := (d.y + (1 + d.x / width)) % 2 ^ 32, x := 0 }
  else if c = 0x0d then { d with x := 0 }
  else
    { d with
      mem := d.mem.storeHalf (x86VgaAddr + 2 * d.index) (cell c)
      x := (d.x + 1) % 2 ^ 32 }

/-- `VGA_display_char`, all of it with interrupts disabled. -/
def displayChar (d : TextBuffer) (c : UInt8) : TextBuffer := d.makeRoom.put c

/-- Characters displayed one after the other. -/
def displayChars (d : TextBuffer) (cs : List UInt8) : TextBuffer := cs.foldl displayChar d

theorem displayChars_concat (d : TextBuffer) (cs : List UInt8) (c : UInt8) :
    d.displayChars (cs ++ [c]) = (d.displayChars cs).displayChar c := by
  rw [displayChars, List.foldl_append]
  rfl

/-- A carriage return goes to the row in which the line began. -/
theorem index_carriage (d : TextBuffer) :
    (d.displayChar 0x0d).index = d.makeRoom.y * 80 % 2 ^ 32 := rfl

end TextBuffer

/-- An address of the text buffer. -/
def InBuffer (a : ℕ) : Prop := x86VgaAddr ≤ a ∧ a < x86VgaAddr + len * charBytes

theorem inBuffer_iff {a : ℕ} : InBuffer a ↔ 0xb8000 ≤ a ∧ a < 0xb8000 + 4000 := Iff.rfl

/-- Before each character the index is at most `len`, and all stores so far went to the buffer. -/
def Safe (d : TextBuffer) (cs : List UInt8) : Prop :=
  ∀ pre c, pre ++ [c] <+: cs →
    (d.displayChars pre).index ≤ len ∧ (d.displayChars (pre ++ [c])).mem.Stored InBuffer

theorem Safe.of_isPrefix {d : TextBuffer} {cs cs' : List UInt8} (h : Safe d cs)
    (hp : cs' <+: cs) : Safe d cs' := fun pre c hpre ↦ h pre c (hpre.trans hp)

/-! ### The cursor over the integers -/

/-- The row in which the line began, negative when it has left the display, and the number of
characters since. -/
structure LineCursor where
  row : ℤ
  col : ℕ
  deriving DecidableEq, Repr

namespace LineCursor

/-- The index of the next cell. -/
def index (k : LineCursor) : ℤ := width * k.row + k.col

/-- The display scrolls when the next cell is behind the last one. -/
def makeRoom (k : LineCursor) : LineCursor :=
  if k.index = len then { k with row := k.row - 1 } else k

/-- A character behind that. -/
def put (k : LineCursor) (c : UInt8) : LineCursor :=
  if c = 0x0a then ⟨k.row + (1 + k.col / width : ℕ), 0⟩
  else if c = 0x0d then ⟨k.row, 0⟩
  else ⟨k.row, k.col + 1⟩

/-- One character. -/
def step (k : LineCursor) (c : UInt8) : LineCursor := k.makeRoom.put c

/-- Characters one after the other, on a cleared display. -/
def run (cs : List UInt8) : LineCursor := cs.foldl step ⟨0, 0⟩

theorem run_concat (cs : List UInt8) (c : UInt8) : run (cs ++ [c]) = (run cs).step c := by
  rw [run, List.foldl_append]
  rfl

/-- A line is at most as long as the characters so far. -/
theorem col_run_le (cs : List UInt8) : (run cs).col ≤ cs.length := by
  induction cs using List.reverseRecOn with
  | nil => exact le_rfl
  | append_singleton cs c ih =>
    have hroom : (run cs).makeRoom.col = (run cs).col := by
      rw [makeRoom]
      split <;> rfl
    rw [run_concat, step, put, List.length_append, List.length_singleton]
    split
    · exact Nat.zero_le _
    · split
      · exact Nat.zero_le _
      · show (run cs).makeRoom.col + 1 ≤ _
        omega

/-- The index is in the buffer or just behind it. -/
def Inside (k : LineCursor) : Prop := 0 ≤ k.index ∧ k.index ≤ len

end LineCursor

/-- No line is as long as `n` characters. -/
def ShortLines (n : ℕ) (cs : List UInt8) : Prop := ∀ pre, pre <+: cs → (LineCursor.run pre).col < n

/-- A carriage return with a character behind it finds the row in which its line began on the
display. -/
def CarriageVisible (cs : List UInt8) : Prop :=
  ∀ pre c, pre ++ [0x0d, c] <+: cs → 0 ≤ (LineCursor.run pre).makeRoom.row

theorem shortLines_of_length {n : ℕ} {cs : List UInt8} (h : cs.length < n) : ShortLines n cs :=
  fun pre hpre ↦ ((LineCursor.col_run_le pre).trans hpre.length_le).trans_lt h

theorem ShortLines.of_isPrefix {n : ℕ} {cs cs' : List UInt8} (h : ShortLines n cs)
    (hp : cs' <+: cs) : ShortLines n cs' := fun pre hpre ↦ h pre (hpre.trans hp)

theorem CarriageVisible.of_isPrefix {cs cs' : List UInt8} (h : CarriageVisible cs)
    (hp : cs' <+: cs) : CarriageVisible cs' := fun pre c hpre ↦ h pre c (hpre.trans hp)

/-- Of two neighbours the second one is the last character, or neither is. -/
theorem eq_or_isPrefix_of_concat {cs pre : List UInt8} {a b c : UInt8}
    (h : pre ++ [a, b] <+: cs ++ [c]) : cs = pre ++ [a] ∨ pre ++ [a, b] <+: cs := by
  refine (List.prefix_concat_iff.1 h).imp_left fun heq ↦ ?_
  have heq' : pre ++ [a] ++ [b] = cs ++ [c] := by
    rw [List.append_assoc]
    exact heq
  exact (List.append_inj' heq' rfl).1.symm

/-- Without carriage returns, up to the last character, there is nothing to see to. -/
theorem carriageVisible_concat {cs : List UInt8} (h : 0x0d ∉ cs) (c : UInt8) :
    CarriageVisible (cs ++ [c]) := by
  intro pre c' hpre
  rcases eq_or_isPrefix_of_concat hpre with rfl | hin
  · exact absurd (by simp) h
  · exact absurd (hin.subset (by simp)) h

/-! ### The code and the cursor -/

/-- `x` and `y` are those of the cursor, `y` up to a multiple of `2 ^ 32`. -/
structure Matches (d : TextBuffer) (k : LineCursor) : Prop where
  x : d.x = k.col
  y : (d.y : ℤ) = k.row % 2 ^ 32

variable {d : TextBuffer} {k : LineCursor} {cs : List UInt8} {c : UInt8}

namespace Matches

theorem index_eq (h : Matches d k) (hk : k.Inside) : (d.index : ℤ) = k.index := by
  obtain ⟨hx, hy⟩ := h
  simp only [LineCursor.Inside, LineCursor.index, TextBuffer.index, width, len] at hk ⊢
  omega

theorem makeRoom (h : Matches d k) (hk : k.Inside) : Matches d.makeRoom k.makeRoom := by
  have hi := h.index_eq hk
  rw [TextBuffer.makeRoom, LineCursor.makeRoom]
  by_cases hfull : d.index = len
  · rw [if_pos hfull, if_pos (by omega)]
    refine ⟨h.x, ?_⟩
    have hy := h.y
    show (((d.y + 0xffffffff) % 2 ^ 32 : ℕ) : ℤ) = (k.row - 1) % 2 ^ 32
    omega
  · rwa [if_neg hfull, if_neg (by omega)]

theorem put (h : Matches d k) (c : UInt8) (hs : (k.put c).col < 2 ^ 32) :
    Matches (d.put c) (k.put c) := by
  obtain ⟨hx, hy⟩ := h
  rw [TextBuffer.put, LineCursor.put]
  rw [LineCursor.put] at hs
  split
  · refine ⟨rfl, ?_⟩
    show (((d.y + (1 + d.x / width)) % 2 ^ 32 : ℕ) : ℤ) =
      (k.row + (1 + k.col / width : ℕ)) % 2 ^ 32
    rw [hx]
    omega
  · next hn =>
    rw [if_neg hn] at hs
    split
    · exact ⟨rfl, hy⟩
    · next hr =>
      rw [if_neg hr] at hs
      refine ⟨?_, hy⟩
      show (d.x + 1) % 2 ^ 32 = k.col + 1
      rw [hx, Nat.mod_eq_of_lt hs]

end Matches

namespace LineCursor

/-- After making room the next cell is in the buffer. -/
theorem Inside.makeRoom (hk : k.Inside) : 0 ≤ k.makeRoom.index ∧ k.makeRoom.index < len := by
  rw [Inside] at hk
  rw [LineCursor.makeRoom]
  split
  · next hfull =>
    simp only [index, width, len] at hfull hk ⊢
    omega
  · omega

/-- **A character leaves the index in the buffer or just behind it**, unless it is a carriage return
to a row that has left the display. -/
theorem Inside.step (hk : k.Inside) (hc : c = 0x0d → 0 ≤ k.makeRoom.row) : (k.step c).Inside := by
  obtain ⟨hlo, hhi⟩ := hk.makeRoom
  rw [LineCursor.step, LineCursor.put, Inside]
  simp only [index, width, len] at hlo hhi ⊢
  split
  · dsimp only
    omega
  · split
    · next hr =>
      have hrow := hc hr
      dsimp only
      omega
    · dsimp only
      omega

end LineCursor

/-! ### The stores -/

theorem stored_scroll (h : d.mem.Stored InBuffer) : d.scroll.mem.Stored InBuffer := by
  refine memset_stored (memcpy_stored h fun a h₁ h₂ ↦ ?_) fun a h₁ h₂ ↦ ?_ <;>
    · simp only [x86VgaAddr, len, width, charBytes] at h₁ h₂
      rw [inBuffer_iff]
      omega

theorem makeRoom_mem (d : TextBuffer) :
    d.makeRoom.mem = if d.index = len then d.scroll.mem else d.mem := by
  rw [TextBuffer.makeRoom, apply_ite TextBuffer.mem]

theorem stored_makeRoom (h : d.mem.Stored InBuffer) : d.makeRoom.mem.Stored InBuffer := by
  rw [makeRoom_mem]
  split
  · exact stored_scroll h
  · exact h

theorem stored_put (h : d.mem.Stored InBuffer) (hi : d.index < len) (c : UInt8) :
    (d.put c).mem.Stored InBuffer := by
  rw [TextBuffer.put]
  split
  · exact h
  · split
    · exact h
    · refine ByteMemory.stored_storeHalf.2 ⟨?_, ?_, h⟩ <;>
        · simp only [inBuffer_iff, x86VgaAddr, len] at hi ⊢
          omega

theorem stored_clear (h : d.mem.stores = []) : d.clear.mem.Stored InBuffer := by
  have hnil : d.mem.Stored InBuffer := by
    intro a ha
    rw [h] at ha
    cases ha
  have hmem : d.clear.mem = memset d.mem x86VgaAddr 0 (len * charBytes) := by
    rw [TextBuffer.clear]
  rw [hmem]
  exact memset_stored hnil fun a h₁ h₂ ↦ ⟨h₁, h₂⟩

/-- A character stores to the buffer only. -/
theorem stored_displayChar (h : Matches d k) (hk : k.Inside) (hm : d.mem.Stored InBuffer)
    (c : UInt8) : (d.displayChar c).mem.Stored InBuffer := by
  obtain ⟨hlo, hhi⟩ := hk.makeRoom
  have hi := (h.makeRoom hk).index_eq ⟨hlo, Int.le_of_lt hhi⟩
  exact stored_put (stored_makeRoom hm) (by omega) c

/-! ### Runs -/

/-- **The code follows the cursor**, by induction on the characters. Every carriage return among
them has a character behind it, if only the next one. -/
theorem matches_run (d : TextBuffer) (hs : ShortLines (2 ^ 32) cs)
    (hc : CarriageVisible (cs ++ [c])) :
    Matches (d.clear.displayChars cs) (LineCursor.run cs) ∧ (LineCursor.run cs).Inside := by
  induction cs using List.reverseRecOn generalizing c with
  | nil => exact ⟨⟨rfl, rfl⟩, by decide, by decide⟩
  | append_singleton cs c' ih =>
    have hpre : cs ++ [c'] <+: cs ++ [c'] ++ [c] := List.prefix_append _ _
    obtain ⟨hm, hk⟩ := ih (hs.of_isPrefix (List.prefix_append _ _)) (hc.of_isPrefix hpre)
    have hcol : ((LineCursor.run cs).step c').col < 2 ^ 32 := by
      rw [← LineCursor.run_concat]
      exact hs _ List.prefix_rfl
    have hvisible : c' = 0x0d → 0 ≤ (LineCursor.run cs).makeRoom.row := by
      rintro rfl
      exact hc cs c (by simp)
    rw [TextBuffer.displayChars_concat, LineCursor.run_concat]
    exact ⟨(hm.makeRoom hk).put c' hcol, hk.step hvisible⟩

/-- All stores go to the buffer, also those of the last character. -/
theorem stored_run (d : TextBuffer) (hd : d.mem.stores = []) (hs : ShortLines (2 ^ 32) cs)
    (hc : CarriageVisible cs) : (d.clear.displayChars cs).mem.Stored InBuffer := by
  induction cs using List.reverseRecOn with
  | nil => exact stored_clear hd
  | append_singleton cs c ih =>
    have hpre : cs <+: cs ++ [c] := List.prefix_append _ _
    obtain ⟨hm, hk⟩ := matches_run d (hs.of_isPrefix hpre) hc
    rw [TextBuffer.displayChars_concat]
    exact stored_displayChar hm hk (ih (hs.of_isPrefix hpre) (hc.of_isPrefix hpre)) c

theorem safe_of_carriageVisible (d : TextBuffer) (hd : d.mem.stores = [])
    (hs : ShortLines (2 ^ 32) cs) (hc : CarriageVisible cs) : Safe d.clear cs := by
  intro pre c hpre
  have hpre' : pre <+: cs := (List.prefix_append _ _).trans hpre
  obtain ⟨hm, hk⟩ := matches_run d (hs.of_isPrefix hpre') (hc.of_isPrefix hpre)
  have hi := hm.index_eq hk
  have hle := hk.2
  exact ⟨by omega, stored_run d hd (hs.of_isPrefix hpre) (hc.of_isPrefix hpre)⟩

/-- **A carriage return to a row that has left the display is not safe**: in a line that is not
nearly `2 ^ 32` characters long it goes to an index behind the buffer. -/
theorem carriageVisible_of_safe (d : TextBuffer) (hs : ShortLines (2 ^ 32 - len) cs)
    (h : Safe d.clear cs) : CarriageVisible cs := by
  induction cs using List.reverseRecOn with
  | nil =>
    intro pre c hpre
    simp at hpre
  | append_singleton cs c ih =>
    have hpre : cs <+: cs ++ [c] := List.prefix_append _ _
    have hcs := ih (hs.of_isPrefix hpre) (h.of_isPrefix hpre)
    intro pre c' hpre'
    rcases eq_or_isPrefix_of_concat hpre' with rfl | hin
    · -- the carriage return is the last character but one
      have hshort := hs pre ((List.prefix_append _ _).trans hpre)
      have hs' : ShortLines (2 ^ 32) pre := fun p hp ↦
        (hs p (hp.trans ((List.prefix_append _ _).trans hpre))).trans (by decide)
      obtain ⟨hm, hk⟩ := matches_run d hs' hcs
      obtain ⟨hlo, hhi⟩ := hk.makeRoom
      have hy := (hm.makeRoom hk).y
      have hle := (h (pre ++ [0x0d]) c List.prefix_rfl).1
      rw [TextBuffer.displayChars_concat, TextBuffer.index_carriage] at hle
      have hcol : (LineCursor.run pre).makeRoom.col = (LineCursor.run pre).col := by
        rw [LineCursor.makeRoom]
        split <;> rfl
      have hmod : (((d.clear.displayChars pre).makeRoom.y * 80 % 2 ^ 32 : ℕ) : ℤ) =
          (LineCursor.run pre).makeRoom.row * 80 % 2 ^ 32 := by
        rw [Int.natCast_emod, Int.natCast_mul, hy]
        show (LineCursor.run pre).makeRoom.row % 2 ^ 32 * 80 % 2 ^ 32 = _
        rw [Int.mul_emod, Int.emod_emod, ← Int.mul_emod]
      simp only [LineCursor.index, hcol, width, len] at hlo hhi hle hshort
      by_contra hneg
      have hwrap : (LineCursor.run pre).makeRoom.row * 80 % 2 ^ 32 =
          (LineCursor.run pre).makeRoom.row * 80 + 2 ^ 32 := by omega
      omega
    · exact hcs pre c' hin

/-- **When the display stays in its buffer.** For lines shorter than `2 ^ 32`: when no carriage
return goes back to a row that has left the display; and for lines that are not nearly that long,
only then. -/
theorem display_stays_in_buffer (d : TextBuffer) (hd : d.mem.stores = []) (cs : List UInt8) :
    (ShortLines (2 ^ 32) cs → CarriageVisible cs → Safe d.clear cs) ∧
      (ShortLines (2 ^ 32 - len) cs → Safe d.clear cs → CarriageVisible cs) :=
  ⟨safe_of_carriageVisible d hd, carriageVisible_of_safe d⟩

/-- A display before it is cleared. -/
def blankDisplay : TextBuffer := ⟨0, 0, ⟨fun _ ↦ 0, [], []⟩⟩

/-- A progress line: the carriage return goes back to a row on the display. -/
theorem display_stays_in_buffer_progressLine :
    CarriageVisible [0x39, 0x0d, 0x38] ∧ Safe blankDisplay.clear [0x39, 0x0d, 0x38] := by
  have hvisible : CarriageVisible [0x39, 0x0d, 0x38] := by
    rintro pre c ⟨suf, hsuf⟩
    rcases pre with - | ⟨c₀, - | ⟨c₁, pre⟩⟩
    · simp at hsuf
    · simp only [List.cons_append, List.nil_append, List.cons.injEq] at hsuf
      rw [hsuf.1]
      decide
    · have hlen := congrArg List.length hsuf
      simp at hlen
      omega
  exact ⟨hvisible,
    (display_stays_in_buffer blankDisplay rfl _).1 (shortLines_of_length (by decide)) hvisible⟩

/-- A full display of one line. -/
theorem run_replicate {n : ℕ} (hn : n ≤ len) :
    LineCursor.run (List.replicate n 0x61) = ⟨0, n⟩ := by
  induction n with
  | zero => rfl
  | succ n ih =>
    have hroom : (⟨0, n⟩ : LineCursor).makeRoom = ⟨0, n⟩ := by
      rw [LineCursor.makeRoom, if_neg]
      simp only [LineCursor.index, width, len] at hn ⊢
      omega
    rw [List.replicate_succ', LineCursor.run_concat, ih (by omega), LineCursor.step, hroom]
    rfl

/-- **A carriage return leaves the buffer**: one more character than the display has cells, so that
the row in which the line began is gone, a carriage return and another character. -/
theorem carriage_return_leaves_buffer :
    (blankDisplay.clear.displayChars (List.replicate 2001 0x61 ++ [0x0d])).index = 2 ^ 32 - 80 ∧
      ¬Safe blankDisplay.clear (List.replicate 2001 0x61 ++ [0x0d] ++ [0x61]) := by
  have hrun : LineCursor.run (List.replicate 2001 0x61) = ⟨-1, 2001⟩ := by
    rw [List.replicate_succ', LineCursor.run_concat, run_replicate le_rfl]
    rfl
  have hcarriage : CarriageVisible (List.replicate 2001 0x61 ++ [0x0d]) :=
    carriageVisible_concat (fun h ↦ absurd (List.eq_of_mem_replicate h) (by decide)) _
  have hshort : ShortLines (2 ^ 32) (List.replicate 2001 0x61) :=
    shortLines_of_length (by rw [List.length_replicate]; decide)
  obtain ⟨hm, hk⟩ := matches_run blankDisplay hshort hcarriage
  rw [hrun] at hm hk
  have hy := (hm.makeRoom hk).y
  have hindex : (blankDisplay.clear.displayChars (List.replicate 2001 0x61 ++ [0x0d])).index =
      2 ^ 32 - 80 := by
    have hrow : (⟨-1, 2001⟩ : LineCursor).makeRoom.row = -1 := rfl
    rw [TextBuffer.displayChars_concat, TextBuffer.index_carriage]
    omega
  refine ⟨hindex, fun h ↦ ?_⟩
  have hle := (h _ _ List.prefix_rfl).1
  rw [hindex] at hle
  exact absurd hle (by decide)

end Vga

end Marimba
