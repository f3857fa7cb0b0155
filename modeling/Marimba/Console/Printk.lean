import Marimba.Console.Digits

/-!
# The formatted output of the kernel (`printk.c`)

`printk` goes through the format with one cursor. At a percent sign it looks at the next character,
or at the next two when the first of them is a length, and the cursor then moves on by that many
characters without looking at them. At the end of the format this takes it over the terminating
zero: behind a percent sign that is the last character, and behind a percent sign and a length.

`Completes` tells the formats in which this does not happen. **Safety** (`readsInside_iff`): the
format is read up to its terminating zero and no further exactly when it completes.
-/

namespace Marimba

namespace Printk

/-- What `printk` is given beside the format: the words of the variable arguments, the strings that
they may point to, and what stands in the local buffers of the printing functions. -/
structure Args where
  va : ℕ → ℕ
  str : ℕ → List UInt8
  buf : ByteMemory

/-- The state of `printk` between two characters: the next argument, and the devices. -/
structure State where
  next : ℕ
  out : Console

/-- `HANDLE_FORMAT_SPECIFIER`, with the functions for the type. -/
def handleFormatSpecifier (printU printD : ByteMemory → ℤ → Console → Console)
    (printHex : ByteMemory → ℤ → UInt8 → Console → Console) (buf : ByteMemory) (arg : ℤ)
    (specifier : UInt8) (o : Console) : Console :=
  if specifier = 'u'.toUInt8 then printU buf arg o
  else if specifier = 'd'.toUInt8 then printD buf arg o
  else if specifier = 'x'.toUInt8 then printHex buf arg 'a'.toUInt8 o
  else if specifier = 'X'.toUInt8 then printHex buf arg 'A'.toUInt8 o
  else o

/-- The word of the next argument. -/
def word (g : Args) (s : State) : ℕ := g.va s.next

/-- `va_arg(args, int)`. -/
def intArg (g : Args) (s : State) : ℤ := (word g s : ℤ).bmod (2 ^ 32)

/-- `va_arg(args, long)` and `va_arg(args, int64_t)`. -/
def longArg (g : Args) (s : State) : ℤ := (word g s : ℤ).bmod (2 ^ 64)

/-- The argument is used, and the devices are as given. -/
def State.used (s : State) (out : Console) : State := ⟨s.next + 1, out⟩

/-- A length: the directive has two letters. -/
def isLength (c : UInt8) : Bool := c = 'l'.toUInt8 ∨ c = 'h'.toUInt8 ∨ c = 'q'.toUInt8

/-- The branches of the `switch` for a length, with the letter behind it. -/
def directiveLong (g : Args) (c spec : UInt8) (s : State) : State :=
  if c = 'l'.toUInt8 then
    s.used (handleFormatSpecifier printUlong printLong printUlongHex g.buf (longArg g s) spec s.out)
  else if c = 'h'.toUInt8 then
    s.used
      (handleFormatSpecifier printUshort printShort printUshortHex g.buf (intArg g s) spec s.out)
  else
    s.used
      (handleFormatSpecifier printUint64 printInt64 printUint64Hex g.buf (longArg g s) spec s.out)

/-- The other branches of the `switch`. -/
def directive (g : Args) (c : UInt8) (s : State) : State :=
  if c = 's'.toUInt8 then s.used (s.out.displayStr (g.str (word g s)))
  else if c = 'c'.toUInt8 then s.used (s.out.displayChar (UInt8.ofNat (word g s)))
  else if c = 'p'.toUInt8 then
    s.used (printUint64Hex g.buf (word g s) 'a'.toUInt8
      (s.out.displayStr ['0'.toUInt8, 'x'.toUInt8]))
  else if c = 'd'.toUInt8 ∨ c = 'u'.toUInt8 ∨ c = 'x'.toUInt8 ∨ c = 'X'.toUInt8 then
    s.used (handleFormatSpecifier printUint printInt printUintHex g.buf (intArg g s) c s.out)
  else if c = '%'.toUInt8 then ⟨s.next, s.out.displayChar '%'.toUInt8⟩
  else s

/-- The loop of `printk`, at most that many characters or directives. The format is read through the
memory, so that the loads are those of the code. -/
def printkFrom (g : Args) : ℕ → ByteMemory → ℕ → State → Option (ByteMemory × State)
  | 0, _, _, _ => none
  | n + 1, m, cur, s =>
    let m := m.load cur
    if m.byte cur = 0 then some (m, s)
    else if m.byte cur = '%'.toUInt8 then
      let m := m.load (cur + 1)
      let c := m.byte (cur + 1)
      if isLength c then
        let m := m.load (cur + 2)
        printkFrom g n m (cur + 3) (directiveLong g c (m.byte (cur + 2)) s)
      else printkFrom g n m (cur + 2) (directive g c s)
    else printkFrom g n m (cur + 1) ⟨s.next, s.out.displayChar (m.byte cur)⟩

/-- `printk` of the format at `fmt`: its loop ends with that memory and these devices. -/
def Prints (g : Args) (m : ByteMemory) (fmt : ℕ) (o : Console) (m' : ByteMemory) (o' : Console) :
    Prop :=
  ∃ n next, printkFrom g n m fmt ⟨0, o⟩ = some (m', ⟨next, o'⟩)

/-! ### One character or directive -/

section Loop

variable {g : Args} {n : ℕ} {m m' : ByteMemory} {cur : ℕ} {s s' : State}

theorem printkFrom_end (h : m.byte cur = 0) :
    printkFrom g (n + 1) m cur s = some (m.load cur, s) := if_pos h

theorem printkFrom_literal (h0 : m.byte cur ≠ 0) (hp : m.byte cur ≠ '%'.toUInt8) :
    printkFrom g (n + 1) m cur s =
      printkFrom g n (m.load cur) (cur + 1) ⟨s.next, s.out.displayChar (m.byte cur)⟩ :=
  (if_neg h0).trans (if_neg hp)

theorem printkFrom_directive (hp : m.byte cur = '%'.toUInt8)
    (hl : isLength (m.byte (cur + 1)) = false) :
    printkFrom g (n + 1) m cur s =
      printkFrom g n ((m.load cur).load (cur + 1)) (cur + 2)
        (directive g (m.byte (cur + 1)) s) := by
  have h0 : m.byte cur ≠ 0 := by
    rw [hp]
    decide
  exact (if_neg h0).trans ((if_pos hp).trans (if_neg (Bool.not_eq_true _ ▸ hl)))

theorem printkFrom_long (hp : m.byte cur = '%'.toUInt8)
    (hl : isLength (m.byte (cur + 1)) = true) :
    printkFrom g (n + 1) m cur s =
      printkFrom g n (((m.load cur).load (cur + 1)).load (cur + 2)) (cur + 3)
        (directiveLong g (m.byte (cur + 1)) (m.byte (cur + 2)) s) := by
  have h0 : m.byte cur ≠ 0 := by
    rw [hp]
    decide
  exact (if_neg h0).trans ((if_pos hp).trans (if_pos hl))

/-- What was loaded before is in the log of the whole loop, and so is the place where it starts. -/
theorem printkFrom_loads (h : printkFrom g n m cur s = some (m', s')) :
    cur ∈ m'.loads ∧ ∀ a ∈ m.loads, a ∈ m'.loads := by
  induction n generalizing m cur s with
  | zero => cases h
  | succ n ih =>
    have hstart : ∀ {m₁ : ByteMemory} {cur₁ : ℕ} {s₁ : State},
        printkFrom g n m₁ cur₁ s₁ = some (m', s') → (∀ a ∈ cur :: m.loads, a ∈ m₁.loads) →
        cur ∈ m'.loads ∧ ∀ a ∈ m.loads, a ∈ m'.loads := by
      intro m₁ cur₁ s₁ hrest hsub
      have hall := (ih hrest).2
      exact ⟨hall _ (hsub _ List.mem_cons_self), fun a ha ↦
        hall a (hsub a (List.mem_cons_of_mem _ ha))⟩
    by_cases h0 : m.byte cur = 0
    · rw [printkFrom_end h0] at h
      cases h
      exact ⟨List.mem_cons_self, fun a ha ↦ List.mem_cons_of_mem _ ha⟩
    by_cases hp : m.byte cur = '%'.toUInt8
    · cases hl : isLength (m.byte (cur + 1))
      · rw [printkFrom_directive hp hl] at h
        exact hstart h fun a ha ↦ List.mem_cons_of_mem _ ha
      · rw [printkFrom_long hp hl] at h
        exact hstart h fun a ha ↦ List.mem_cons_of_mem _ (List.mem_cons_of_mem _ ha)
    · rw [printkFrom_literal h0 hp] at h
      exact hstart h fun a ha ↦ ha

end Loop

/-! ### How far the format is read -/

/-- Every directive of the format, from the left, is there in full: there is a character behind each
percent sign, and one more when that one is a length. -/
def completes : List UInt8 → Bool
  | [] => true
  | c :: rest =>
    if c = '%'.toUInt8 then
      match rest with
      | [] => false
      | c' :: rest =>
        if isLength c' then
          match rest with
          | [] => false
          | _ :: rest => completes rest
        else completes rest
    else completes rest

/-- `printk` returns, and it has read the format up to its terminating zero and no further. -/
def ReadsInside (g : Args) (m : ByteMemory) (fmt : ℕ) (s : List UInt8) (o : Console) : Prop :=
  ∃ m' o', Prints g m fmt o m' o' ∧ m'.Loaded fun a ↦ fmt ≤ a ∧ a ≤ fmt + s.length

section Reads

variable {g : Args} {m m' : ByteMemory} {cur n : ℕ} {fmt : List UInt8} {s s' : State}

theorem completes_literal {c : UInt8} (h : c ≠ '%'.toUInt8) :
    completes (c :: fmt) = completes fmt := by
  rw [completes.eq_def]
  exact if_neg h

theorem completes_directive {c : UInt8} (h : ¬isLength c = true) :
    completes ('%'.toUInt8 :: c :: fmt) = completes fmt := by
  rw [completes.eq_def]
  exact (if_pos rfl).trans (if_neg h)

theorem completes_long {c c' : UInt8} (h : isLength c = true) :
    completes ('%'.toUInt8 :: c :: c' :: fmt) = completes fmt := by
  rw [completes.eq_def]
  exact (if_pos rfl).trans (if_pos h)

theorem completes_length {c : UInt8} (h : isLength c = true) :
    completes ['%'.toUInt8, c] = false := by
  rw [completes.eq_def]
  exact (if_pos rfl).trans (if_pos h)

/-- The loop ends, and from here on it reads nothing behind `b`. -/
def ReadsTo (g : Args) (m : ByteMemory) (cur : ℕ) (s : State) (b : ℕ) : Prop :=
  ∃ n m' s', printkFrom g n m cur s = some (m', s') ∧
    ∀ a ∈ m'.loads, a ∈ m.loads ∨ cur ≤ a ∧ a ≤ b

/-- One more character or directive. -/
theorem ReadsTo.step {m₁ : ByteMemory} {cur₁ b : ℕ} {s₁ : State} (h : ReadsTo g m₁ cur₁ s₁ b)
    (hstep : ∀ n, printkFrom g (n + 1) m cur s = printkFrom g n m₁ cur₁ s₁) (hle : cur ≤ cur₁)
    (hloads : ∀ a ∈ m₁.loads, a ∈ m.loads ∨ cur ≤ a ∧ a ≤ b) : ReadsTo g m cur s b := by
  obtain ⟨n, m', s', hrun, hall⟩ := h
  refine ⟨n + 1, m', s', (hstep n).trans hrun, fun a ha ↦ ?_⟩
  rcases hall a ha with hin | ⟨hlo, hhi⟩
  · exact hloads a hin
  · exact Or.inr ⟨hle.trans hlo, hhi⟩

/-- A format that completes is read to its end, by induction along its directives. -/
theorem readsTo_of_completes (hc : completes fmt = true) (hf : m.HasString cur fmt) :
    ReadsTo g m cur s (cur + fmt.length) := by
  induction fmt using completes.induct generalizing m cur s with
  | case1 =>
    refine ⟨1, _, s, printkFrom_end hf, fun a ha ↦ ?_⟩
    rcases List.mem_cons.1 ha with rfl | hin
    · exact Or.inr ⟨le_rfl, le_rfl⟩
    · exact Or.inl hin
  | case2 => cases hc
  | case3 c hl =>
    rw [completes_length hl] at hc
    cases hc
  | case4 c hl c' fmt ih =>
    rw [completes_long hl] at hc
    obtain ⟨hb, -, rfl, -, -, -, hrest⟩ := hf
    have hf' := ((hrest.load cur).load (cur + 1)).load (cur + 2)
    have hend : cur + 3 + fmt.length = cur + (fmt.length + 1 + 1 + 1) := by omega
    refine (hend ▸ ih hc hf').step (fun n ↦ printkFrom_long hb hl) (by omega) fun a ha ↦ ?_
    simp only [ByteMemory.load_loads, List.mem_cons] at ha ⊢
    grind
  | case5 c fmt hl ih =>
    rw [completes_directive hl] at hc
    obtain ⟨hb, -, rfl, -, hrest⟩ := hf
    have hf' := (hrest.load cur).load (cur + 1)
    have hend : cur + 2 + fmt.length = cur + (fmt.length + 1 + 1) := by omega
    refine (hend ▸ ih hc hf').step (fun n ↦ printkFrom_directive hb (Bool.not_eq_true _ ▸ hl))
      (by omega) fun a ha ↦ ?_
    simp only [ByteMemory.load_loads, List.mem_cons] at ha ⊢
    grind
  | case6 c fmt hlit ih =>
    rw [completes_literal hlit] at hc
    obtain ⟨rfl, h0, hrest⟩ := hf
    have hf' := hrest.load cur
    have hend : cur + 1 + fmt.length = cur + (fmt.length + 1) := by omega
    refine (hend ▸ ih hc hf').step (fun n ↦ printkFrom_literal h0 hlit) (by omega) fun a ha ↦ ?_
    simp only [ByteMemory.load_loads, List.mem_cons] at ha ⊢
    grind

/-- **A format that does not complete is read beyond its end**: the cursor is moved over the
terminating zero. -/
theorem mem_loads_of_not_completes (hc : completes fmt = false) (hf : m.HasString cur fmt)
    (h : printkFrom g n m cur s = some (m', s')) : cur + fmt.length + 1 ∈ m'.loads := by
  induction fmt using completes.induct generalizing m cur n s with
  | case1 => cases hc
  | case2 =>
    obtain ⟨hb, -, hend⟩ := hf
    rcases n with - | n
    · cases h
    have hl : isLength (m.byte (cur + 1)) = false := by
      rw [hend]
      decide
    rw [printkFrom_directive hb hl] at h
    exact (printkFrom_loads h).1
  | case3 c hl =>
    obtain ⟨hb, -, rfl, -, -⟩ := hf
    rcases n with - | n
    · cases h
    rw [printkFrom_long hb hl] at h
    exact (printkFrom_loads h).1
  | case4 c hl c' fmt ih =>
    rw [completes_long hl] at hc
    obtain ⟨hb, -, rfl, -, -, -, hrest⟩ := hf
    rcases n with - | n
    · cases h
    rw [printkFrom_long hb hl] at h
    have hin := ih hc (((hrest.load cur).load (cur + 1)).load (cur + 2)) h
    rwa [show cur + 3 + fmt.length + 1 = cur + (fmt.length + 1 + 1 + 1) + 1 by omega] at hin
  | case5 c fmt hl ih =>
    rw [completes_directive hl] at hc
    obtain ⟨hb, -, rfl, -, hrest⟩ := hf
    rcases n with - | n
    · cases h
    rw [printkFrom_directive hb (Bool.not_eq_true _ ▸ hl)] at h
    have hin := ih hc ((hrest.load cur).load (cur + 1)) h
    rwa [show cur + 2 + fmt.length + 1 = cur + (fmt.length + 1 + 1) + 1 by omega] at hin
  | case6 c fmt hlit ih =>
    rw [completes_literal hlit] at hc
    obtain ⟨rfl, h0, hrest⟩ := hf
    rcases n with - | n
    · cases h
    rw [printkFrom_literal h0 hlit] at h
    have hin := ih hc (hrest.load cur) h
    rwa [show cur + 1 + fmt.length + 1 = cur + (fmt.length + 1) + 1 by omega] at hin

end Reads

/-- **When `printk` stays in its format**: when every directive is there in full. -/
theorem readsInside_iff (g : Args) {m : ByteMemory} (hm : m.loads = []) {fmt : ℕ}
    {s : List UInt8} (hf : m.HasString fmt s) (o : Console) :
    ReadsInside g m fmt s o ↔ completes s = true := by
  constructor
  · rintro ⟨m', o', ⟨n, next, hrun⟩, hloaded⟩
    by_contra hc
    have hin := mem_loads_of_not_completes (Bool.not_eq_true _ ▸ hc) hf hrun
    exact absurd (hloaded _ hin).2 (by omega)
  · intro hc
    obtain ⟨n, m', s', hrun, hall⟩ := readsTo_of_completes (g := g) (s := ⟨0, o⟩) hc hf
    refine ⟨m', s'.out, ⟨n, s'.next, hrun⟩, fun a ha ↦ ?_⟩
    rcases hall a ha with hin | hin
    · rw [hm] at hin
      cases hin
    · exact hin

/-- No arguments, and a display without a serial device. -/
def noArgs : Args := ⟨fun _ ↦ 0, fun _ ↦ [], .ofList []⟩

/-- The blank display alone. -/
def blankConsole : Console := ⟨Vga.blankDisplay.clear, none⟩

/-- A directive at the end, with both of its letters. -/
theorem readsInside_iff_long :
    ReadsInside noArgs (.ofList (['=', '%', 'l', 'd'].map Char.toUInt8)) 0
      (['=', '%', 'l', 'd'].map Char.toUInt8) blankConsole :=
  (readsInside_iff noArgs rfl (by decide) blankConsole).2 (by decide)

/-- **A percent sign at the end is read over**: `printk` goes on with what stands behind the
format. -/
theorem percent_reads_behind :
    (printkFrom noArgs 3 (.ofList ['%'.toUInt8, 0, 'A'.toUInt8]) 0 ⟨0, blankConsole⟩).map
        (fun r ↦ r.1.loads) = some [3, 2, 1, 0] ∧
      ¬ReadsInside noArgs (.ofList ['%'.toUInt8, 0, 'A'.toUInt8]) 0 ['%'.toUInt8]
        blankConsole := by
  refine ⟨by decide, ?_⟩
  rintro ⟨m', o', ⟨n, next, hrun⟩, hloaded⟩
  have hin : 0 + ['%'.toUInt8].length + 1 ∈ m'.loads :=
    mem_loads_of_not_completes (by decide) (by decide) hrun
  exact absurd (hloaded _ hin).2 (by decide)

end Printk

end Marimba
