import Marimba.Console.Vga

/-!
# The display as a terminal

`Terminal` says what the display is for: characters are written one after the other on a grid
without end, and 25 rows of it are visible. There is one cursor, a newline goes to the next row, and
the window moves down by one row when the cursor has left it.

**Refinement** (`display_refines_terminal`): without carriage returns the display shows the visible
rows of the terminal. The relation between the two goes through the cursor over the integers
(`Shows`): its index is the position of the terminal's cursor in the window, whatever row the line
began in.
-/

namespace Marimba

namespace Vga

/-- An unbounded grid of cells, row after row, with the cursor and the first visible row. -/
structure Terminal where
  grid : ℕ → ℕ
  cursor : ℕ
  top : ℕ

namespace Terminal

/-- The window moves down by one row, which is blank, when the cursor is behind its last cell. -/
def makeRoom (t : Terminal) : Terminal :=
  if t.cursor = (t.top + height) * width then
    { t with
      top := t.top + 1
      grid := fun i ↦
        if (t.top + height) * width ≤ i ∧ i < (t.top + height + 1) * width then 0 else t.grid i }
  else t

/-- A newline goes to the start of the next row; any other character is written at the cursor, which
advances. -/
def put (t : Terminal) (c : UInt8) : Terminal :=
  if c = 0x0a then { t with cursor := (t.cursor / width + 1) * width }
  else
    { t with
      grid := Function.update t.grid t.cursor (0x0f00 ||| c.toNat)
      cursor := t.cursor + 1 }

/-- One character. -/
def step (t : Terminal) (c : UInt8) : Terminal := t.makeRoom.put c

/-- Characters one after the other, on a blank grid. -/
def run (cs : List UInt8) : Terminal := cs.foldl step ⟨fun _ ↦ 0, 0, 0⟩

/-- The cells of the window. -/
def visible (t : Terminal) (i : ℕ) : ℕ := t.grid (t.top * width + i)

theorem run_concat (cs : List UInt8) (c : UInt8) : run (cs ++ [c]) = (run cs).step c := by
  rw [run, List.foldl_append]
  rfl

end Terminal

/-! ### The cells of the display -/

variable {d : TextBuffer} {k : LineCursor} {t : Terminal} {c : UInt8} {i : ℕ}

theorem cell_of_lt (h : c.toNat < 0x80) : cell c = 0x0f00 ||| c.toNat := by
  rw [cell, if_pos h]

theorem clear_byte (a : ℕ) (ha : InBuffer a) : d.clear.mem.byte a = 0 := by
  rw [TextBuffer.clear, memset_byte]
  exact if_pos ha

theorem scroll_byte (a : ℕ) (ha : InBuffer a) :
    d.scroll.mem.byte a = if a < 0xb8000 + 3840 then d.mem.byte (a + 160) else 0 := by
  have hlo : a < 0xb8000 + 3840 ↔
      ¬(x86VgaAddr + 2 * (len - width) ≤ a ∧
        a < x86VgaAddr + 2 * (len - width) + width * charBytes) := by
    rw [inBuffer_iff] at ha
    simp only [x86VgaAddr, len, width, charBytes]
    omega
  rw [TextBuffer.scroll, memset_byte, memcpy_byte (Nat.le_add_right _ _)]
  split
  · next h => rw [if_neg (fun h' ↦ hlo.1 h' h)]
  · next h =>
    have hcopied : x86VgaAddr ≤ a ∧ a < x86VgaAddr + (len - width) * charBytes :=
      ⟨ha.1, hlo.2 h⟩
    have hsrc : x86VgaAddr + 2 * width + (a - x86VgaAddr) = a + 160 := by
      rw [inBuffer_iff] at ha
      simp only [x86VgaAddr, width]
      omega
    rw [if_pos (hlo.2 h), if_pos hcopied, hsrc]

theorem cellAt_clear (hi : i < len) : d.clear.cellAt i = 0 := by
  simp only [TextBuffer.cellAt, ByteMemory.half, x86VgaAddr, len] at hi ⊢
  rw [clear_byte _ (inBuffer_iff.2 (by omega)), clear_byte _ (inBuffer_iff.2 (by omega))]
  rfl

/-- **Scrolling** moves the rows up by one and leaves a blank one. -/
theorem cellAt_scroll (hi : i < len) :
    d.scroll.cellAt i = if i + width < len then d.cellAt (i + width) else 0 := by
  simp only [TextBuffer.cellAt, ByteMemory.half, x86VgaAddr, len, width] at hi ⊢
  rw [scroll_byte _ (inBuffer_iff.2 (by omega)), scroll_byte _ (inBuffer_iff.2 (by omega))]
  split
  · next h =>
    rw [if_pos (by omega), if_pos (by omega)]
    congr 3
  · next h => rw [if_neg (by omega), if_neg (by omega)]; rfl

/-- A stored cell, and the others. -/
theorem cellAt_put (hn : c ≠ 0x0a) (hr : c ≠ 0x0d) :
    (d.put c).cellAt i = if i = d.index then cell c else d.cellAt i := by
  have hmem : (d.put c).mem = d.mem.storeHalf (x86VgaAddr + 2 * d.index) (cell c) := by
    rw [TextBuffer.put, if_neg hn, if_neg hr]
  rw [TextBuffer.cellAt, hmem]
  split
  · next h => rw [h, ByteMemory.half_storeHalf_self (cell_lt c)]
  · next h =>
    rw [ByteMemory.half_storeHalf_of_disjoint (by omega)]
    rfl

/-! ### Refinement -/

/-- The display shows the window: the index of the cursor over the integers is the position of the
terminal's cursor in the window, and the cells are the visible ones. -/
structure Shows (d : TextBuffer) (k : LineCursor) (t : Terminal) : Prop where
  cursor : (t.cursor : ℤ) = width * t.top + k.index
  cells : ∀ i < len, d.cellAt i = t.visible i

namespace Shows

theorem makeRoom (h : Shows d k t) (hm : Matches d k) (hk : k.Inside) :
    Shows d.makeRoom k.makeRoom t.makeRoom := by
  have hi := hm.index_eq hk
  have hcur := h.cursor
  have hfull : d.index = len ↔ t.cursor = (t.top + height) * width := by
    simp only [width, height, len] at *
    omega
  rw [TextBuffer.makeRoom, LineCursor.makeRoom, Terminal.makeRoom]
  by_cases hd : d.index = len
  · have hrow : k.index = len := by omega
    rw [if_pos hd, if_pos hrow, if_pos (hfull.1 hd)]
    refine ⟨?_, fun i hi ↦ ?_⟩
    · simp only [LineCursor.index, width] at hcur ⊢
      push_cast
      omega
    · have hscrolled := cellAt_scroll (d := d) hi
      rw [TextBuffer.cellAt] at hscrolled ⊢
      rw [hscrolled, Terminal.visible]
      simp only [width, height, len] at hi ⊢
      by_cases hlast : i + 80 < 80 * 25
      · rw [if_pos hlast, if_neg (by omega), h.cells (i + 80) hlast, Terminal.visible]
        congr 1
        simp only [width]
        omega
      · rw [if_neg hlast, if_pos (by omega)]
  · have hrow : k.index ≠ len := by omega
    rw [if_neg hd, if_neg hrow, if_neg (mt hfull.2 hd)]
    exact h

/-- A character that is no carriage return, in the buffer. -/
theorem put (h : Shows d k t) (hm : Matches d k) (hlo : 0 ≤ k.index) (hhi : k.index < len)
    (hr : c ≠ 0x0d) (hc : c.toNat < 0x80) : Shows (d.put c) (k.put c) (t.put c) := by
  have hi := hm.index_eq ⟨hlo, Int.le_of_lt hhi⟩
  have hcur := h.cursor
  simp only [LineCursor.index, width, len] at hcur hi hlo hhi
  by_cases hn : c = 0x0a
  · rw [TextBuffer.put, LineCursor.put, Terminal.put, if_pos hn, if_pos hn, if_pos hn]
    refine ⟨?_, h.cells⟩
    simp only [LineCursor.index, width]
    omega
  · refine ⟨?_, fun i hil ↦ ?_⟩
    · rw [LineCursor.put, Terminal.put, if_neg hn, if_neg hn, if_neg hr]
      simp only [LineCursor.index, width]
      omega
    · have hgrid : (t.put c).visible i =
          if t.top * width + i = t.cursor then cell c else t.visible i := by
        rw [Terminal.put, if_neg hn, cell_of_lt hc]
        exact Function.update_apply _ _ _ _
      have hat : i = d.index ↔ t.top * width + i = t.cursor := by
        simp only [width]
        omega
      rw [cellAt_put hn hr, hgrid, h.cells i hil]
      simp only [hat]

end Shows

/-- **The display shows the visible rows of the terminal**, after any characters of seven bits
without carriage returns, fewer than `2 ^ 32` of them. -/
theorem display_refines_terminal (d : TextBuffer) {cs : List UInt8} (hlen : cs.length < 2 ^ 32)
    (hascii : ∀ c ∈ cs, c.toNat < 0x80) (hcr : 0x0d ∉ cs) :
    ∀ i < len, (d.clear.displayChars cs).cellAt i = (Terminal.run cs).visible i := by
  suffices h : Shows (d.clear.displayChars cs) (LineCursor.run cs) (Terminal.run cs) from h.cells
  induction cs using List.reverseRecOn with
  | nil => exact ⟨rfl, fun i hi ↦ cellAt_clear hi⟩
  | append_singleton cs c ih =>
    simp only [List.length_append, List.length_singleton, List.mem_append, not_or,
      List.mem_singleton] at hlen hascii hcr
    have hshows := ih (by omega) (fun c hc ↦ hascii c (Or.inl hc)) hcr.1
    obtain ⟨hm, hk⟩ := matches_run d (shortLines_of_length (by omega))
      (carriageVisible_concat hcr.1 c)
    obtain ⟨hlo, hhi⟩ := hk.makeRoom
    rw [TextBuffer.displayChars_concat, LineCursor.run_concat, Terminal.run_concat]
    exact (hshows.makeRoom hm hk).put (hm.makeRoom hk) hlo hhi (Ne.symm hcr.2)
      (hascii c (Or.inr rfl))

/-- Two lines: the second one begins in the cell with index 80. -/
theorem display_refines_terminal_twoLines :
    (blankDisplay.clear.displayChars [0x68, 0x69, 0x0a, 0x21]).cellAt 80 = 0x0f21 := by
  have hshown : (blankDisplay.clear.displayChars [0x68, 0x69, 0x0a, 0x21]).cellAt 80 =
      (Terminal.run [0x68, 0x69, 0x0a, 0x21]).visible 80 :=
    display_refines_terminal blankDisplay (by decide) (by simp) (by decide) 80 (by decide)
  rw [hshown]
  decide

end Vga

end Marimba
