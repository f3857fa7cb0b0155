import Marimba.Console.Printk
import Marimba.Console.Terminal
import Marimba.Ps2.Delivery
import Marimba.Ps2.ScanCodes

/-!
# From the keys to the screen (`procs/keyboard_io.c`)

The process `keyboard_io` opens the keyboard, reads one character at a time and prints it. In
between lie the controller, which keeps the bytes of the keys until they are taken, the keyboard
interrupt, which turns them into characters, the cyclic buffer, the scheduler, `printk` and the
display. `Echo` puts the models of these parts together: any keys at any time, interrupts whenever
they are enabled, any other processes that read the keyboard and print in between.

**What is typed is shown** (`echo_shows_keys`). The characters that `keyboard_io` prints are a
prefix of those of the keys pressed since it opened the keyboard; when it is blocked and no byte
is left at the controller, it has printed all of them; the screen is that of a terminal to which the
output has been written, as long as the others print no carriage return and there are fewer than
`2 ^ 32` characters; and the same characters have been handed to the serial device, whether it has
room for them or not. `keyboard_io` has to keep up with the keys, as every reader
(`System.Bounded`).
-/

namespace Marimba

/-! ### The display, one character at a time -/

namespace Vga

variable {d : TextBuffer} {cs : List UInt8} {c : UInt8}

/-- A character that the terminal knows. -/
def Plain (c : UInt8) : Prop := c.toNat < 0x80 ∧ c ≠ 0x0d

instance : DecidablePred Plain := fun _ ↦ inferInstanceAs (Decidable (_ ∧ _))

/-- The display shows what has been written to it. -/
structure Showing (d : TextBuffer) (cs : List UInt8) : Prop where
  cursor : Matches d (LineCursor.run cs)
  inside : (LineCursor.run cs).Inside
  shows_run : Shows d (LineCursor.run cs) (Terminal.run cs)

theorem showing_clear (d : TextBuffer) : Showing d.clear [] :=
  ⟨⟨rfl, rfl⟩, ⟨by decide, by decide⟩, ⟨rfl, fun _ hi ↦ cellAt_clear hi⟩⟩

theorem Showing.displayChar (h : Showing d cs) (hc : Plain c) (hlen : cs.length + 1 < 2 ^ 32) :
    Showing (d.displayChar c) (cs ++ [c]) := by
  obtain ⟨hlo, hhi⟩ := h.inside.makeRoom
  have hcol : ((LineCursor.run cs).step c).col < 2 ^ 32 := by
    rw [← LineCursor.run_concat]
    refine (LineCursor.col_run_le _).trans_lt ?_
    rwa [List.length_append, List.length_singleton]
  have hm := h.cursor.makeRoom h.inside
  refine ⟨?_, ?_, ?_⟩
  · rw [LineCursor.run_concat]
    exact hm.put c hcol
  · rw [LineCursor.run_concat]
    exact h.inside.step fun hr ↦ absurd hr hc.2
  · rw [LineCursor.run_concat, Terminal.run_concat]
    exact (h.shows_run.makeRoom h.cursor h.inside).put hm hlo hhi hc.2 hc.1

/-- More characters, by induction on them. -/
theorem Showing.displayChars (h : Showing d cs) {cs' : List UInt8} (hplain : ∀ c ∈ cs', Plain c)
    (hlen : (cs ++ cs').length < 2 ^ 32) : Showing (d.displayChars cs') (cs ++ cs') := by
  induction cs' using List.reverseRecOn with
  | nil => rwa [List.append_nil]
  | append_singleton cs' c ih =>
    simp only [List.length_append, List.length_singleton] at hlen
    rw [TextBuffer.displayChars_concat, ← List.append_assoc]
    refine (ih (fun c hc ↦ hplain c (List.mem_append_left _ hc)) ?_).displayChar
      (hplain c (by simp)) ?_ <;>
    · rw [List.length_append]
      omega

end Vga

namespace Ps2

open KeyEvent Links
open Printk (Console printkFrom)

/-! ### The characters of the keys -/

/-- The character of each press, as far as it has one. -/
def keyChars (es : List KeyEvent) : List UInt8 := charsWith (held isShift) [] es

theorem charsWith_append {shift : List KeyEvent → Bool} (hist es es' : List KeyEvent) :
    charsWith shift hist (es ++ es') =
      charsWith shift hist es ++ charsWith shift (hist ++ es) es' := by
  induction es generalizing hist with
  | nil => rw [List.nil_append, List.append_nil, charsWith, List.nil_append]
  | cons e es ih =>
    rw [List.cons_append]
    cases e with
    | press k =>
      rw [charsWith, charsWith, ih, List.append_assoc, List.append_assoc, List.singleton_append]
    | release k => rw [charsWith, charsWith, ih, List.append_assoc, List.singleton_append]

theorem keyChars_append (es es' : List KeyEvent) :
    keyChars (es ++ es') = keyChars es ++ charsWith (held isShift) es es' :=
  charsWith_append [] es es'

theorem translateScanCode_plain (shift code : UInt8) :
    Vga.Plain (translateScanCode shift code) := by
  unfold translateScanCode
  split <;> first | decide | (dsimp only; split <;> decide)

theorem charsWith_plain {shift : List KeyEvent → Bool} {hist es : List KeyEvent} :
    ∀ c ∈ charsWith shift hist es, Vga.Plain c := by
  induction es generalizing hist with
  | nil => exact fun c hc ↦ by cases hc
  | cons e es ih =>
    intro c hc
    cases e with
    | press k =>
      rw [charsWith] at hc
      rcases List.mem_append.1 hc with hc | hc
      · split at hc
        · cases hc
        · rw [List.mem_singleton.1 hc]
          exact translateScanCode_plain _ _
      · exact ih c hc
    | release k => exact ih c hc

/-! ### The system -/

/-- `printk("%c", buff)`. -/
def printkChar (buff : UInt8) (o : Console) : Option Console :=
  (printkFrom ⟨fun _ ↦ buff.toNat, fun _ ↦ [], .ofList []⟩ 2
    (.ofList ['%'.toUInt8, 'c'.toUInt8]) 0 ⟨0, o⟩).map fun r ↦ r.2.out

theorem printkChar_eq (c : UInt8) (o : Console) : printkChar c o = some (o.displayChar c) := by
  have hc : (UInt8.ofNat c.toNat) = c := UInt8.ofNat_toNat
  have hrun : printkChar c o = some (o.displayChar (UInt8.ofNat c.toNat)) := rfl
  rw [hrun, hc]

/-- The keyboard driver, the controller with the bytes of the keys, `buff` of `keyboard_io` when it
has a character that is not yet printed, and the devices. The keys and the output are kept beside
the state, with a mark at the output of `keyboard_io`. -/
structure Echo where
  sys : System
  keyboard : Keyboard
  buff : Option UInt8
  con : Console
  keys : List KeyEvent
  shown : List (Bool × UInt8)

/-- What can happen next. -/
inductive EchoEvent where
  /-- A key is pressed or released. -/
  | key (e : KeyEvent)
  /-- The keyboard interrupt. -/
  | interrupt
  /-- A step of a process or of the scheduler. -/
  | proc (e : Ps2Event)
  /-- `keyboard_io` prints the character it has read. -/
  | echo
  /-- Some other context prints. -/
  | print (cs : List UInt8)

/-- The process `keyboard_io`, and the file that it opens. -/
structure KeyboardIo where
  proc : ℕ
  file : ℕ

namespace Echo

/-- The characters that `keyboard_io` has printed. -/
def echoed (s : Echo) : List UInt8 := (s.shown.filter Prod.fst).map Prod.snd

/-- `keyboard_io` opens its file and reads single characters from it, and does not read before it
has printed what it has read. No other process has this file. -/
def mayStep (io : KeyboardIo) (s : Echo) : Ps2Event → Bool
  | .key _ => false
  | .open file => file = io.file ↔ s.sys.sched.running = some io.proc
  | .read file len =>
    if s.sys.sched.running = some io.proc then file = io.file ∧ len = 1 ∧ s.buff = none
    else file ≠ io.file
  | _ => true

/-- What `FS_read` has put into `buff` in a step, if it has returned to `keyboard_io`. -/
def received (io : KeyboardIo) (s s' : System) : Option UInt8 :=
  (s'.reads.drop s.reads.length).findSome? fun r ↦
    if r.file = io.file then r.bytes.head? else none

/-- One step; `none` where the event cannot happen. -/
def step (io : KeyboardIo) (s : Echo) : EchoEvent → Option (Unit × Echo)
  | .key e =>
    some ((), { s with
      keyboard := { s.keyboard with pending := s.keyboard.pending ++ e.encode }
      keys := s.keys ++ [e] })
  | .interrupt =>
    s.keyboard.ps2ReadChar.bind fun r ↦
      (s.sys.step (.key r.1)).map fun t ↦ ((), { s with sys := t.2, keyboard := r.2 })
  | .proc e =>
    if s.mayStep io e then
      (s.sys.step e).map fun t ↦
        ((), { s with sys := t.2, buff := (received io s.sys t.2).or s.buff })
    else none
  | .echo =>
    if s.sys.sched.running = some io.proc then
      s.buff.bind fun c ↦ (printkChar c s.con).map fun con ↦
        ((), { s with buff := none, con, shown := s.shown ++ [(true, c)] })
    else none
  | .print cs =>
    some ((), { s with con := s.con.displayStr cs, shown := s.shown ++ cs.map (false, ·) })

/-- Nothing has been opened, typed or printed. -/
def boot (d : Vga.TextBuffer) (serial : Option (List UInt8)) : Echo where
  sys := .boot
  keyboard := ⟨0, []⟩
  buff := none
  con := ⟨d.clear, serial⟩
  keys := []
  shown := []

end Echo

/-! ### Steps of the driver -/

section Driver

variable {s s' : System} {q g len : ℕ}

/-- A read of a file by a process returns, or it blocks. -/
structure ReadMove (s s' : System) (q g len : ℕ) : Prop where
  running : s.sched.running = some q
  outcome :
    (s.dev.consumerHasBytes (s.userPos g) = true ∧
      s'.reads = s.reads ++ [⟨g, len, (s.dev.copy len (s.userPos g)).1⟩] ∧
      s'.pcs = Function.update s.pcs q .user) ∨
    (s'.reads = s.reads ∧ s'.pcs = Function.update s.pcs q (.waiting g len))

/-- The steps in which a process reads: the call, and what follows a wake-up. -/
def Reads (s : System) (q g len : ℕ) (e : Ps2Event) : Prop :=
  e = .read g len ∨ e = .resume ∧ s.pcs q = .waiting g len

theorem readMove_readStep (hq : s.sched.running = some q) (g len : ℕ) :
    (s.readStep q g len).produced = s.produced ∧ ReadMove s (s.readStep q g len) q g len := by
  rw [System.readStep]
  split
  · next h => exact ⟨rfl, hq, Or.inl ⟨h, rfl, rfl⟩⟩
  · exact ⟨rfl, hq, Or.inr ⟨rfl, rfl⟩⟩

/-- **A step other than the interrupt** produces no character, and it reads or it has no effect on
any read. -/
theorem step_cases {e : Ps2Event} (he : ∀ c, e ≠ .key c) {u : Unit}
    (hstep : s.step e = some (u, s')) : s'.produced = s.produced ∧
      ((s'.reads = s.reads ∧ s'.pcs = s.pcs) ∨
        ∃ q g len, Reads s q g len e ∧ ReadMove s s' q g len) := by
  cases e with
  | create p =>
    obtain ⟨-, -, rfl⟩ := guarded_eq_some.1 hstep
    exact ⟨rfl, Or.inl ⟨rfl, rfl⟩⟩
  | «open» f =>
    obtain ⟨-, -, rfl⟩ := guarded_eq_some.1 hstep
    exact ⟨rfl, Or.inl ⟨rfl, rfl⟩⟩
  | read f len =>
    rw [System.step] at hstep
    split at hstep
    · next p hrun =>
      obtain ⟨-, -, rfl⟩ := guarded_eq_some.1 hstep
      obtain ⟨hproduced, hmove⟩ := readMove_readStep hrun f len
      exact ⟨hproduced, Or.inr ⟨p, f, len, Or.inl rfl, hmove⟩⟩
    · cases hstep
  | resume =>
    rw [System.step] at hstep
    split at hstep
    · next p hrun =>
      split at hstep
      · next f len hpc =>
        obtain ⟨-, rfl⟩ := Prod.mk.inj (Option.some.inj hstep)
        obtain ⟨hproduced, hmove⟩ := readMove_readStep hrun f len
        exact ⟨hproduced, Or.inr ⟨p, f, len, Or.inr ⟨rfl, hpc⟩, hmove⟩⟩
      · cases hstep
    · cases hstep
  | yield =>
    obtain ⟨-, -, rfl⟩ := guarded_eq_some.1 hstep
    exact ⟨rfl, Or.inl ⟨rfl, rfl⟩⟩
  | runCheck =>
    obtain ⟨-, -, rfl⟩ := guarded_eq_some.1 hstep
    exact ⟨rfl, Or.inl ⟨rfl, rfl⟩⟩
  | key c => exact absurd rfl (he c)

/-- The keyboard interrupt. -/
theorem step_key {c : UInt8} {u : Unit} (hstep : s.step (.key c) = some (u, s')) :
    s'.produced = s.produced ++ (if c = 0 then [] else [c]) ∧ s'.reads = s.reads ∧
      s'.pcs = s.pcs := by
  obtain ⟨-, hs⟩ := Option.ite_none_right_eq_some.1 hstep
  obtain ⟨t, hisr, heq⟩ := Option.map_eq_some_iff.1 hs
  obtain ⟨-, rfl⟩ := Prod.mk.inj heq
  rw [System.isr] at hisr
  split at hisr
  · next hc =>
    obtain ⟨r, -, rfl⟩ := Option.map_eq_some_iff.1 hisr
    rw [if_pos hc, List.append_nil]
    exact ⟨rfl, rfl, rfl⟩
  · next hc =>
    obtain ⟨r, -, rfl⟩ := Option.map_eq_some_iff.1 hisr
    rw [if_neg hc]
    exact ⟨rfl, rfl, rfl⟩

theorem got_of_reads (h : s'.reads = s.reads) (f : ℕ) : s'.got f = s.got f := by
  rw [System.got, System.got, h]

theorem got_of_append {r : Read} (h : s'.reads = s.reads ++ [r]) (f : ℕ) :
    s'.got f = s.got f ++ if r.file = f then r.bytes else [] := by
  have hgot : s'.got f = ({ s with reads := s.reads ++ [r] } : System).got f := by
    rw [System.got, System.got, h]
  rw [hgot, Ps2Inv.got_append]

/-- A read of a single character that returns has one. -/
theorem copy_one (hhas : s.dev.consumerHasBytes (s.userPos g) = true) :
    (s.dev.copy 1 (s.userPos g)).1 = [s.dev.data (s.userPos g)] := by
  rw [Ps2Device.copy, if_pos hhas]
  rfl

end Driver

/-! ### Steps of the keyboard -/

/-- The character of an event, if it has one, behind the events `es`. -/
def charOf (es : List KeyEvent) : KeyEvent → UInt8
  | press k => if isShift k.1 then 0 else translateScanCode (held isShift es).toUInt8 k.1
  | release _ => 0

theorem keyChars_concat (es : List KeyEvent) (e : KeyEvent) :
    keyChars (es ++ [e]) = keyChars es ++ if charOf es e = 0 then [] else [charOf es e] := by
  rw [keyChars_append]
  cases e with
  | press k =>
    rw [charsWith, charsWith, charOf]
    split
    · rw [if_pos rfl, List.append_nil]
    · rw [if_neg (translateScanCode_ne_zero _ _), List.append_nil]
  | release k => rfl

/-- What the interrupt takes from the controller: the first event that has not been taken, or
nothing. -/
theorem ps2ReadChar_events (es : List KeyEvent) (e : KeyEvent) (rest : List KeyEvent) :
    Keyboard.ps2ReadChar ⟨(held isShift es).toUInt8, (e :: rest).flatMap encode⟩ =
      some (charOf es e, ⟨(held isShift (es ++ [e])).toUInt8, rest.flatMap encode⟩) := by
  rw [List.flatMap_cons, held_concat]
  cases e with
  | press k => exact ps2ReadChar_press _
  | release k => exact ps2ReadChar_release _

/-! ### The invariant -/

/-- What a process that waits for the keyboard waits for. -/
def WaitsRight (io : KeyboardIo) (buff : Option UInt8) (q g len : ℕ) : Prop :=
  if q = io.proc then g = io.file ∧ len = 1 ∧ buff = none else g ≠ io.file

/-- **The invariant of the whole way.** The events of the keys are those that the interrupt has
taken and those whose bytes are at the controller; what has been read by `keyboard_io` is printed,
but for the character in `buff`. -/
structure EchoInv (io : KeyboardIo) (serial : Option (List UInt8)) (s : Echo) : Prop where
  driver : ∃ v, Ps2Inv s.sys v
  keys : ∃ done rest, s.keys = done ++ rest ∧
    s.keyboard = ⟨(held isShift done).toUInt8, rest.flatMap encode⟩ ∧
    s.sys.produced = keyChars done
  got : s.sys.got io.file = s.echoed ++ s.buff.toList
  waiting : ∀ q g len, s.sys.pcs q = .waiting g len → WaitsRight io s.buff q g len
  display : s.shown.length < 2 ^ 32 → (∀ x ∈ s.shown, Vga.Plain x.2) →
    Vga.Showing s.con.disp (s.shown.map Prod.snd)
  serial : s.con.serial = serial.map (· ++ s.shown.map Prod.snd)

namespace EchoInv

variable {io : KeyboardIo} {serial : Option (List UInt8)} {s : Echo}

theorem boot (io : KeyboardIo) (d : Vga.TextBuffer) (serial : Option (List UInt8)) :
    EchoInv io serial (.boot d serial) := by
  refine ⟨⟨.boot, ps2Inv_boot⟩, ⟨[], [], rfl, rfl, rfl⟩, rfl, fun q g len hpc ↦ ?_,
    fun _ _ ↦ Vga.showing_clear d, ?_⟩
  · cases hpc
  · show serial = serial.map (· ++ [])
    cases serial <;> simp

/-- Bytes arrive at the controller. -/
theorem key (h : EchoInv io serial s) (e : KeyEvent) :
    EchoInv io serial { s with
      keyboard := { s.keyboard with pending := s.keyboard.pending ++ e.encode }
      keys := s.keys ++ [e] } := by
  obtain ⟨done, rest, hkeys, hkeyboard, hproduced⟩ := h.keys
  refine ⟨h.driver, ⟨done, rest ++ [e], ?_, ?_, hproduced⟩, h.got, h.waiting, h.display, h.serial⟩
  · rw [hkeys, List.append_assoc]
  · rw [hkeyboard, List.flatMap_append, List.flatMap_singleton]

/-- The interrupt takes the next event. -/
theorem interrupt (h : EchoInv io serial s) (hb : s.sys.Bounded) {r : UInt8 × Keyboard}
    (hr : s.keyboard.ps2ReadChar = some r) {u : Unit} {sys : System}
    (hstep : s.sys.step (.key r.1) = some (u, sys)) :
    EchoInv io serial { s with sys, keyboard := r.2 } := by
  obtain ⟨done, rest, hkeys, hkeyboard, hproduced⟩ := h.keys
  obtain ⟨hmore, hreads, hpcs⟩ := step_key hstep
  refine ⟨ps2Inv_step h.driver hb hstep, ?_, ?_, ?_, h.display, h.serial⟩
  · rw [hkeyboard] at hr
    cases rest with
    | nil =>
      obtain rfl := Option.some.inj hr
      exact ⟨done, [], hkeys, rfl, by rw [hmore, hproduced, if_pos rfl, List.append_nil]⟩
    | cons e rest =>
      rw [ps2ReadChar_events] at hr
      obtain rfl := Option.some.inj hr
      refine ⟨done ++ [e], rest, by rw [hkeys, List.append_assoc, List.singleton_append], rfl, ?_⟩
      rw [hmore, hproduced, keyChars_concat]
  · exact (got_of_reads hreads io.file).trans h.got
  · intro q g len hpc
    exact h.waiting q g len (hpcs ▸ hpc)

/-- What may be read is right, by the guard of a call or because the reader has waited for it. -/
theorem waitsRight_of_reads (h : EchoInv io serial s) {e : Ps2Event} (he : s.mayStep io e = true)
    {q g len : ℕ} (hq : s.sys.sched.running = some q) (hreads : Reads s.sys q g len e) :
    WaitsRight io s.buff q g len := by
  rcases hreads with rfl | ⟨-, hpc⟩
  · simp only [Echo.mayStep, hq, Option.some.injEq] at he
    rw [WaitsRight]
    split_ifs with hproc
    · rw [if_pos hproc] at he
      exact of_decide_eq_true he
    · rw [if_neg hproc] at he
      exact of_decide_eq_true he
  · exact h.waiting q g len hpc

/-- A process or the scheduler takes a step. -/
theorem proc (h : EchoInv io serial s) (hb : s.sys.Bounded) {e : Ps2Event}
    (he : s.mayStep io e = true) {u : Unit} {sys : System}
    (hstep : s.sys.step e = some (u, sys)) :
    EchoInv io serial { s with sys, buff := (Echo.received io s.sys sys).or s.buff } := by
  have hkey : ∀ c, e ≠ .key c := by
    rintro c rfl
    cases he
  obtain ⟨hproduced, hcases⟩ := step_cases hkey hstep
  have hkeys : ∃ done rest, s.keys = done ++ rest ∧
      s.keyboard = ⟨(held isShift done).toUInt8, rest.flatMap encode⟩ ∧
      sys.produced = keyChars done := by
    rw [hproduced]
    exact h.keys
  -- a step in which no read returns leaves `buff` as it is
  have hnone (hreads : sys.reads = s.sys.reads) :
      (Echo.received io s.sys sys).or s.buff = s.buff := by
    rw [Echo.received, hreads, List.drop_length]
    rfl
  suffices hread : sys.got io.file =
        s.echoed ++ ((Echo.received io s.sys sys).or s.buff).toList ∧
      ∀ q g len, sys.pcs q = .waiting g len →
        WaitsRight io ((Echo.received io s.sys sys).or s.buff) q g len from
    ⟨ps2Inv_step h.driver hb hstep, hkeys, hread.1, hread.2, h.display, h.serial⟩
  rcases hcases with ⟨hreads, hpcs⟩ | ⟨q, g, len, hread, hrun, hout⟩
  · rw [hnone hreads, got_of_reads hreads, hpcs]
    exact ⟨h.got, h.waiting⟩
  have hright := h.waitsRight_of_reads he hrun hread
  rcases hout with ⟨hhas, hreads, hpcs⟩ | ⟨hreads, hpcs⟩
  · -- the read returns
    have hreceived : Echo.received io s.sys sys =
        if g = io.file then (s.sys.dev.copy len (s.sys.userPos g)).1.head? else none := by
      rw [Echo.received, hreads, List.drop_left, List.findSome?_singleton]
    have hothers {buff : Option UInt8} (hbuff : q ≠ io.proc → buff = s.buff) :
        ∀ q' g' len', sys.pcs q' = .waiting g' len' → WaitsRight io buff q' g' len' := by
      intro q' g' len' hpc
      rw [hpcs] at hpc
      rcases eq_or_ne q' q with rfl | hne
      · rw [Function.update_self] at hpc
        cases hpc
      · rw [Function.update_of_ne hne] at hpc
        have hwait := h.waiting q' g' len' hpc
        rw [WaitsRight] at hwait ⊢
        split_ifs at hwait ⊢ with hproc
        · rw [hbuff (hproc ▸ hne.symm)]
          exact hwait
        · exact hwait
    rw [WaitsRight] at hright
    split_ifs at hright with hproc
    · obtain ⟨rfl, rfl, hbuff⟩ := hright
      rw [hreceived, if_pos rfl, copy_one hhas, hbuff, got_of_append hreads, if_pos rfl, h.got,
        copy_one hhas, hbuff]
      exact ⟨by simp, hothers fun hne ↦ absurd hproc hne⟩
    · rw [hreceived, if_neg hright, Option.none_or, got_of_append hreads, if_neg hright,
        List.append_nil]
      exact ⟨h.got, hothers fun _ ↦ rfl⟩
  · -- the read blocks
    rw [hnone hreads, got_of_reads hreads, hpcs]
    refine ⟨h.got, fun q' g' len' hpc ↦ ?_⟩
    rcases eq_or_ne q' q with rfl | hne
    · rw [Function.update_self] at hpc
      cases hpc
      exact hright
    · rw [Function.update_of_ne hne] at hpc
      exact h.waiting q' g' len' hpc

/-- Characters are printed, by `keyboard_io` or not. -/
theorem display_append (h : EchoInv io serial s) (cs : List (Bool × UInt8))
    (hlen : (s.shown ++ cs).length < 2 ^ 32) (hplain : ∀ x ∈ s.shown ++ cs, Vga.Plain x.2) :
    Vga.Showing (s.con.disp.displayChars (cs.map Prod.snd)) ((s.shown ++ cs).map Prod.snd) := by
  rw [List.map_append]
  refine (h.display ?_ fun x hx ↦ hplain x (List.mem_append_left _ hx)).displayChars ?_ ?_
  · rw [List.length_append] at hlen
    omega
  · intro c hc
    obtain ⟨x, hx, rfl⟩ := List.mem_map.1 hc
    exact hplain x (List.mem_append_right _ hx)
  · rwa [← List.map_append, List.length_map]

theorem serial_append (h : EchoInv io serial s) (cs : List (Bool × UInt8)) :
    s.con.serial.map (· ++ cs.map Prod.snd) = serial.map (· ++ (s.shown ++ cs).map Prod.snd) := by
  rw [h.serial, Option.map_map, List.map_append]
  congr 1
  funext x
  exact List.append_assoc ..

/-- `keyboard_io` prints what it has read. -/
theorem echo (h : EchoInv io serial s) {c : UInt8} (hc : s.buff = some c) :
    EchoInv io serial
      { s with buff := none, con := s.con.displayChar c, shown := s.shown ++ [(true, c)] } := by
  refine ⟨h.driver, h.keys, ?_, fun q g len hpc ↦ ?_, fun hlen hplain ↦ ?_, ?_⟩
  · rw [h.got, hc, Echo.echoed, Echo.echoed, List.filter_append, List.map_append]
    simp
  · have hwait := h.waiting q g len hpc
    rw [WaitsRight] at hwait ⊢
    split_ifs at hwait ⊢ with hproc
    · exact ⟨hwait.1, hwait.2.1, rfl⟩
    · exact hwait
  · exact h.display_append [(true, c)] hlen hplain
  · exact h.serial_append [(true, c)]

/-- Another context prints. -/
theorem print (h : EchoInv io serial s) (cs : List UInt8) :
    EchoInv io serial
      { s with con := s.con.displayStr cs, shown := s.shown ++ cs.map (false, ·) } := by
  have hsnd : (cs.map (false, ·)).map Prod.snd = cs := by
    rw [List.map_map]
    exact List.map_id cs
  refine ⟨h.driver, h.keys, ?_, h.waiting, fun hlen hplain ↦ ?_, ?_⟩
  · have hecho : ((cs.map (false, ·)).filter Prod.fst) = [] := by
      rw [List.filter_eq_nil_iff]
      intro x hx
      obtain ⟨c, -, rfl⟩ := List.mem_map.1 hx
      exact Bool.false_ne_true
    rw [h.got, Echo.echoed, Echo.echoed, List.filter_append, hecho, List.append_nil]
  · have hshow := h.display_append _ hlen hplain
    rwa [hsnd] at hshow
  · have hserial := h.serial_append (cs.map (false, ·))
    rwa [hsnd] at hserial

end EchoInv

/-! ### Runs -/

section Runs

variable {io : KeyboardIo} {serial : Option (List UInt8)} {s s' : Echo}

/-- **Every step keeps the invariant**, while `keyboard_io` and the other readers keep up. -/
theorem echoInv_step (h : EchoInv io serial s) (hb : s.sys.Bounded) {e : EchoEvent} {u : Unit}
    (hstep : s.step io e = some (u, s')) : EchoInv io serial s' := by
  cases e with
  | key e =>
    obtain ⟨-, rfl⟩ := Prod.mk.inj (Option.some.inj hstep)
    exact h.key e
  | interrupt =>
    obtain ⟨r, hr, hmap⟩ := Option.bind_eq_some_iff.1 hstep
    obtain ⟨⟨u', sys⟩, hsys, heq⟩ := Option.map_eq_some_iff.1 hmap
    obtain ⟨-, rfl⟩ := Prod.mk.inj heq
    exact h.interrupt hb hr hsys
  | proc e =>
    obtain ⟨he, hmap⟩ := Option.ite_none_right_eq_some.1 hstep
    obtain ⟨⟨u', sys⟩, hsys, heq⟩ := Option.map_eq_some_iff.1 hmap
    obtain ⟨-, rfl⟩ := Prod.mk.inj heq
    exact h.proc hb he hsys
  | echo =>
    obtain ⟨-, hbind⟩ := Option.ite_none_right_eq_some.1 hstep
    obtain ⟨c, hc, hmap⟩ := Option.bind_eq_some_iff.1 hbind
    rw [printkChar_eq, Option.map_some] at hmap
    obtain ⟨-, rfl⟩ := Prod.mk.inj (Option.some.inj hmap)
    exact h.echo hc
  | print cs =>
    obtain ⟨-, rfl⟩ := Prod.mk.inj (Option.some.inj hstep)
    exact h.print cs

namespace EchoInv

/-- What has been read is a prefix of what was typed. -/
theorem got_isPrefix (h : EchoInv io serial s) (hfile : io.file ∈ s.sys.files) :
    s.echoed <+: (keyChars s.keys).drop (s.sys.openedAt io.file) := by
  obtain ⟨v, hv⟩ := h.driver
  obtain ⟨done, rest, hkeys, -, hproduced⟩ := h.keys
  have hgot := (hv.cursor io.file hfile).2.2
  rw [h.got, hproduced] at hgot
  refine ((List.prefix_append ..).trans hgot).trans ?_
  rw [hkeys, keyChars_append, List.drop_append]
  exact List.prefix_append ..

/-- A blocked `keyboard_io` has printed everything that the interrupt has produced. -/
theorem echoed_of_blocked (h : EchoInv io serial s) {v : SchedView} (hv : Ps2Inv s.sys v)
    (hblocked : io.proc ∈ v.waits blockedProcs) (hpending : s.keyboard.pending = []) :
    s.echoed = (keyChars s.keys).drop (s.sys.openedAt io.file) := by
  obtain ⟨g, len, hpc, hzero⟩ := hv.asleep _ hblocked
  obtain ⟨done, rest, hkeys, hkeyboard, hproduced⟩ := h.keys
  have hwait := h.waiting _ _ _ hpc
  rw [WaitsRight, if_pos rfl] at hwait
  obtain ⟨rfl, -, hbuff⟩ := hwait
  obtain ⟨-, hle, hgot⟩ := hv.cursor io.file (hv.waiting _ _ _ hpc)
  have hrest : rest = [] := by
    cases rest with
    | nil => rfl
    | cons e rest =>
      rw [hkeyboard, List.flatMap_cons] at hpending
      cases e <;> cases hpending
  rw [hrest, List.append_nil] at hkeys
  have hlen : (s.sys.got io.file).length =
      (s.sys.produced.drop (s.sys.openedAt io.file)).length := by
    rw [System.unread] at hzero
    rw [List.length_drop]
    omega
  have hall := hgot.eq_of_length hlen
  rwa [h.got, hbuff, Option.toList_none, List.append_nil, hproduced, ← hkeys] at hall

/-- The characters of `keyboard_io` are plain. -/
theorem plain (h : EchoInv io serial s) (hfile : io.file ∈ s.sys.files)
    (hothers : ∀ x ∈ s.shown, x.1 = false → Vga.Plain x.2) : ∀ x ∈ s.shown, Vga.Plain x.2 := by
  rintro ⟨b, c⟩ hx
  cases b with
  | false => exact hothers _ hx rfl
  | true =>
    have hechoed : c ∈ s.echoed :=
      List.mem_map.2 ⟨(true, c), List.mem_filter.2 ⟨hx, rfl⟩, rfl⟩
    have hkeys := List.mem_of_mem_drop ((h.got_isPrefix hfile).subset hechoed)
    exact charsWith_plain c hkeys

end EchoInv

/-- **What is typed is shown**, in every run in which the readers of the keyboard keep up, after
`keyboard_io` has opened it. The last part is about the calls of `SER_write`: a character can still
be dropped by the device. -/
theorem echo_shows_keys (io : KeyboardIo) (d : Vga.TextBuffer) (serial : Option (List UInt8))
    {events : List EchoEvent} {out : List Unit}
    (halong : Along (Echo.step io) (fun s _ ↦ s.sys.Bounded) (.boot d serial) events)
    (hrun : runTrace (Echo.step io) (.boot d serial) events = some (out, s))
    (hfile : io.file ∈ s.sys.files) :
    s.echoed <+: (keyChars s.keys).drop (s.sys.openedAt io.file) ∧
      (∃ blocked : List ℕ, IsQueue s.sys.sched.links (.wait blockedProcs) (blocked.map .proc) ∧
        (io.proc ∈ blocked → s.keyboard.pending = [] →
          s.echoed = (keyChars s.keys).drop (s.sys.openedAt io.file))) ∧
      (s.shown.length < 2 ^ 32 → (∀ x ∈ s.shown, x.1 = false → Vga.Plain x.2) → ∀ i < Vga.len,
        s.con.disp.cellAt i = (Vga.Terminal.run (s.shown.map Prod.snd)).visible i) ∧
      s.con.serial = serial.map (· ++ s.shown.map Prod.snd) := by
  have h : EchoInv io serial s := invariant_of_along
    (fun s a b s' hs hb hstep ↦ echoInv_step hs hb hstep) (.boot io d serial) halong hrun
  obtain ⟨v, hv⟩ := h.driver
  exact ⟨h.got_isPrefix hfile,
    ⟨v.waits blockedProcs, hv.views.isQueue_wait blockedProcs, h.echoed_of_blocked hv⟩,
    fun hlen hothers ↦ (h.display hlen (h.plain hfile hothers)).shows_run.cells, h.serial⟩

theorem leftShift_ne_released : leftShiftScanCode ≠ releasedScanCode := by decide

/-- The left shift key. -/
def keyShift : Key := ⟨leftShiftScanCode, leftShift_ne_released⟩

/-- Shift and A are pressed while `keyboard_io` is blocked, and something else is printed before it
runs again. -/
def shiftA : List EchoEvent :=
  [.proc (.create 0), .proc .runCheck, .proc .yield, .proc (.open 10), .proc (.read 10 1),
    .key (.press keyShift), .key (.press keyA), .interrupt, .proc .yield,
    .interrupt, .print ['!'.toUInt8], .proc .runCheck, .proc .yield, .proc .resume, .echo]

/-- The letter is behind the exclamation mark. -/
theorem echo_shows_keys_shiftA :
    ∃ out s, runTrace (Echo.step ⟨0, 10⟩) (.boot Vga.blankDisplay (some [])) shiftA =
        some (out, s) ∧
      s.echoed <+: ['A'.toUInt8] ∧ s.con.disp.cellAt 1 = 0x0f41 ∧
      s.con.serial = some ['!'.toUInt8, 'A'.toUInt8] := by
  have hdone : (runTrace (Echo.step ⟨0, 10⟩) (.boot Vga.blankDisplay (some [])) shiftA).map
      (fun r ↦ (r.2.shown, r.2.keys, r.2.sys.files, r.2.sys.openedAt 10)) =
        some ([(false, '!'.toUInt8), (true, 'A'.toUInt8)],
          [.press keyShift, .press keyA], [10], 0) := by
    decide +kernel
  obtain ⟨⟨out, s⟩, hrun, heq⟩ := Option.map_eq_some_iff.1 hdone
  simp only [Prod.mk.injEq] at heq
  obtain ⟨hshown, hkeys, hfiles, hopened⟩ := heq
  obtain ⟨hpre, -, hcells, hserial⟩ := echo_shows_keys ⟨0, 10⟩ Vga.blankDisplay (some [])
    (by decide +kernel) hrun (by rw [hfiles]; exact List.mem_singleton_self 10)
  rw [hkeys, hopened] at hpre
  rw [hshown] at hcells hserial
  have hplain : Vga.Plain '!'.toUInt8 := by decide
  refine ⟨out, s, hrun, hpre, ?_, hserial⟩
  exact (hcells (by decide) (by simpa using hplain) 1 (by decide)).trans (by decide)

end Runs

end Ps2

end Marimba
