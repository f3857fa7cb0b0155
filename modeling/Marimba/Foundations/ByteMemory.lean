import Mathlib.Data.List.Basic
import Mathlib.Logic.Function.Basic
import Mathlib.Tactic.IntervalCases
import Mathlib.Tactic.NormNum

/-!
# Byte-addressed memory with a log of its accesses

A memory is a function from addresses to bytes. Beside the bytes it keeps the addresses loaded and
stored so far, latest first, so that a bound on the accesses of a program is a statement about the
memory it leaves behind: `Stored` and `Loaded` say that all of them meet a condition.

Wider values are little-endian: `half` and `storeHalf` are those of two bytes, `word` and
`storeWord` those of four, and `dword` is a value of eight. A string is ended by a zero byte
(`HasString`), and `cstr` reads one off the memory.
-/

/-- Bytes by address, with the addresses loaded and stored so far. -/
structure ByteMemory where
  byte : ℕ → UInt8
  loads : List ℕ
  stores : List ℕ

namespace ByteMemory

variable {m : ByteMemory} {a b : ℕ} {v : UInt8} {P : ℕ → Prop}

/-- The memory after a load from `a`; the value is `m.byte a`. -/
def load (m : ByteMemory) (a : ℕ) : ByteMemory := { m with loads := a :: m.loads }

/-- A byte is stored. -/
def store (m : ByteMemory) (a : ℕ) (v : UInt8) : ByteMemory :=
  { m with byte := Function.update m.byte a v, stores := a :: m.stores }

@[simp] theorem load_byte : (m.load a).byte = m.byte := rfl

@[simp] theorem load_stores : (m.load a).stores = m.stores := rfl

@[simp] theorem load_loads : (m.load a).loads = a :: m.loads := rfl

@[simp] theorem store_stores : (m.store a v).stores = a :: m.stores := rfl

@[simp] theorem store_loads : (m.store a v).loads = m.loads := rfl

theorem store_byte (b : ℕ) : (m.store a v).byte b = if b = a then v else m.byte b :=
  Function.update_apply m.byte a v b

/-- Every address stored to so far meets the condition. -/
def Stored (m : ByteMemory) (P : ℕ → Prop) : Prop := ∀ a ∈ m.stores, P a

/-- Every address loaded from so far meets the condition. -/
def Loaded (m : ByteMemory) (P : ℕ → Prop) : Prop := ∀ a ∈ m.loads, P a

@[simp] theorem stored_store : (m.store a v).Stored P ↔ P a ∧ m.Stored P := List.forall_mem_cons

@[simp] theorem stored_load : (m.load a).Stored P ↔ m.Stored P := Iff.rfl

@[simp] theorem loaded_load : (m.load a).Loaded P ↔ P a ∧ m.Loaded P := List.forall_mem_cons

@[simp] theorem loaded_store : (m.store a v).Loaded P ↔ m.Loaded P := Iff.rfl

/-! ### Values of two bytes -/

/-- The two bytes at `a`, as one value. -/
def half (m : ByteMemory) (a : ℕ) : ℕ := (m.byte a).toNat + 2 ^ 8 * (m.byte (a + 1)).toNat

/-- A value of two bytes is stored. -/
def storeHalf (m : ByteMemory) (a : ℕ) (v : ℕ) : ByteMemory :=
  (m.store a (UInt8.ofNat v)).store (a + 1) (UInt8.ofNat (v / 2 ^ 8))

@[simp] theorem stored_storeHalf {v : ℕ} :
    (m.storeHalf a v).Stored P ↔ P (a + 1) ∧ P a ∧ m.Stored P := by
  rw [storeHalf, stored_store, stored_store]

/-- The value just stored. -/
theorem half_storeHalf_self {v : ℕ} (hv : v < 2 ^ 16) : (m.storeHalf a v).half a = v := by
  simp only [half, storeHalf, store_byte, if_neg (Nat.ne_of_lt (Nat.lt_succ_self a)), if_true,
    UInt8.toNat_ofNat']
  omega

/-- A value that has no byte in common with the one stored. -/
theorem half_storeHalf_of_disjoint {v : ℕ} (h : b + 2 ≤ a ∨ a + 2 ≤ b) :
    (m.storeHalf a v).half b = m.half b := by
  have hbyte : ∀ c, c ≠ a → c ≠ a + 1 → (m.storeHalf a v).byte c = m.byte c := by
    intro c h₀ h₁
    rw [storeHalf, store_byte, if_neg h₁, store_byte, if_neg h₀]
  rw [half, half, hbyte b (by omega) (by omega), hbyte (b + 1) (by omega) (by omega)]

/-! ### Values of four and eight bytes -/

/-- The four bytes at `a`, as one value. -/
def word (m : ByteMemory) (a : ℕ) : ℕ := m.half a + 2 ^ 16 * m.half (a + 2)

/-- The eight bytes at `a`, as one value. -/
def dword (m : ByteMemory) (a : ℕ) : ℕ := m.word a + 2 ^ 32 * m.word (a + 4)

/-- A value of four bytes is stored. -/
def storeWord (m : ByteMemory) (a : ℕ) (v : ℕ) : ByteMemory :=
  (m.storeHalf a (v % 2 ^ 16)).storeHalf (a + 2) (v / 2 ^ 16)

theorem half_lt (m : ByteMemory) (a : ℕ) : m.half a < 2 ^ 16 := by
  have h₀ := (m.byte a).toNat_lt
  have h₁ := (m.byte (a + 1)).toNat_lt
  rw [half]
  omega

theorem word_lt (m : ByteMemory) (a : ℕ) : m.word a < 2 ^ 32 := by
  have h₀ := m.half_lt a
  have h₁ := m.half_lt (a + 2)
  rw [word]
  omega

/-- The value just stored. -/
theorem word_storeWord_self {v : ℕ} (hv : v < 2 ^ 32) : (m.storeWord a v).word a = v := by
  rw [word, storeWord, half_storeHalf_of_disjoint (Or.inl (Nat.le_refl _)),
    half_storeHalf_self (Nat.mod_lt v (by decide)), half_storeHalf_self (by omega)]
  omega

/-- A value that has no byte in common with the one stored. -/
theorem word_storeWord_of_disjoint {v : ℕ} (h : b + 4 ≤ a ∨ a + 4 ≤ b) :
    (m.storeWord a v).word b = m.word b := by
  have hhalf : ∀ c, c + 2 ≤ a ∨ a + 4 ≤ c → (m.storeWord a v).half c = m.half c := by
    intro c hc
    rw [storeWord, half_storeHalf_of_disjoint (by omega), half_storeHalf_of_disjoint (by omega)]
  rw [word, word, hhalf b (by omega), hhalf (b + 2) (by omega)]

/-- Two bytes are copied. -/
theorem storeHalf_half_byte (m m' : ByteMemory) (a b c : ℕ) :
    (m.storeHalf a (m'.half b)).byte c =
      if c = a + 1 then m'.byte (b + 1) else if c = a then m'.byte b else m.byte c := by
  have h₀ := (m'.byte b).toNat_lt
  have h₁ := (m'.byte (b + 1)).toNat_lt
  have hlow : UInt8.ofNat (m'.half b) = m'.byte b := by
    rw [← UInt8.toNat_inj, UInt8.toNat_ofNat', half]
    omega
  have hhigh : UInt8.ofNat (m'.half b / 2 ^ 8) = m'.byte (b + 1) := by
    rw [← UInt8.toNat_inj, UInt8.toNat_ofNat', half]
    omega
  rw [storeHalf, store_byte, store_byte, hlow, hhigh]

/-- Four bytes are copied. -/
theorem storeWord_word_byte (m m' : ByteMemory) (a b c : ℕ) :
    (m.storeWord a (m'.word b)).byte c =
      if a ≤ c ∧ c < a + 4 then m'.byte (b + (c - a)) else m.byte c := by
  have h₀ := m'.half_lt b
  have hlow : m'.word b % 2 ^ 16 = m'.half b := by
    rw [word]
    omega
  have hhigh : m'.word b / 2 ^ 16 = m'.half (b + 2) := by
    rw [word]
    omega
  rw [storeWord, hlow, hhigh, storeHalf_half_byte, storeHalf_half_byte]
  by_cases hc : a ≤ c ∧ c < a + 4
  · obtain ⟨k, rfl⟩ := Nat.exists_eq_add_of_le hc.1
    rw [if_pos hc, Nat.add_sub_cancel_left]
    have hk : k < 4 := by omega
    interval_cases k <;> grind
  · rw [if_neg hc, if_neg (by omega), if_neg (by omega), if_neg (by omega), if_neg (by omega)]

/-! ### Strings -/

/-- The string `s` is at `a`, with the zero byte that ends it. -/
def HasString (m : ByteMemory) : ℕ → List UInt8 → Prop
  | a, [] => m.byte a = 0
  | a, c :: s => m.byte a = c ∧ c ≠ 0 ∧ m.HasString (a + 1) s

instance instDecidableHasString (m : ByteMemory) : ∀ a s, Decidable (m.HasString a s)
  | a, [] => inferInstanceAs (Decidable (m.byte a = 0))
  | a, c :: s =>
    haveI := m.instDecidableHasString (a + 1) s
    inferInstanceAs (Decidable (m.byte a = c ∧ c ≠ 0 ∧ m.HasString (a + 1) s))

/-- A memory that holds these bytes, and zeros behind them. -/
def ofList (bytes : List UInt8) : ByteMemory := ⟨fun a ↦ bytes.getD a 0, [], []⟩

/-- The bytes from `a` on, up to a zero byte and at most `n` of them. -/
def cstr (m : ByteMemory) (a : ℕ) : ℕ → List UInt8
  | 0 => []
  | n + 1 => if m.byte a = 0 then [] else m.byte a :: m.cstr (a + 1) n

/-- Loads leave a string alone. -/
theorem HasString.load {s : List UInt8} (h : m.HasString b s) (a : ℕ) :
    (m.load a).HasString b s := by
  induction s generalizing b with
  | nil => exact h
  | cons c s ih =>
    obtain ⟨hc, hne, hs⟩ := h
    exact ⟨hc, hne, ih hs⟩

/-- A store in front of a string leaves it alone. -/
theorem HasString.store {s : List UInt8} (h : m.HasString b s) (hab : a < b) :
    (m.store a v).HasString b s := by
  induction s generalizing b with
  | nil => rwa [HasString, store_byte, if_neg (Nat.ne_of_gt hab)]
  | cons c s ih =>
    obtain ⟨hc, hne, hs⟩ := h
    refine ⟨?_, hne, ih hs (Nat.lt_succ_of_lt hab)⟩
    rwa [store_byte, if_neg (Nat.ne_of_gt hab)]

/-- The front of a string, byte by byte. -/
theorem hasString_append {s t : List UInt8} :
    m.HasString a (s ++ t) ↔
      (∀ k c, s[k]? = some c → m.byte (a + k) = c ∧ c ≠ 0) ∧ m.HasString (a + s.length) t := by
  induction s generalizing a with
  | nil =>
    refine ⟨fun h ↦ ⟨fun k c hc ↦ ?_, h⟩, fun h ↦ h.2⟩
    cases hc
  | cons c₀ s ih =>
    have hshift : ∀ k, a + (k + 1) = a + 1 + k := fun k ↦ by omega
    rw [List.cons_append, HasString, ih, List.length_cons, hshift s.length]
    constructor
    · rintro ⟨hc, hne, hall, hend⟩
      refine ⟨fun k c hk ↦ ?_, hend⟩
      cases k with
      | zero =>
        cases hk
        exact ⟨hc, hne⟩
      | succ k =>
        rw [hshift]
        exact hall k c hk
    · rintro ⟨hall, hend⟩
      obtain ⟨hc, hne⟩ := hall 0 c₀ rfl
      refine ⟨hc, hne, fun k c hk ↦ ?_, hend⟩
      rw [← hshift]
      exact hall (k + 1) c hk

/-- A string, byte by byte. -/
theorem hasString_iff {s : List UInt8} :
    m.HasString a s ↔
      (∀ k c, s[k]? = some c → m.byte (a + k) = c ∧ c ≠ 0) ∧ m.byte (a + s.length) = 0 := by
  have happend := hasString_append (m := m) (a := a) (s := s) (t := [])
  rwa [List.append_nil] at happend

/-- A string is the same in a memory that has the same bytes there. -/
theorem HasString.congr {m' : ByteMemory} {s : List UInt8} (h : m.HasString a s)
    (hbyte : ∀ k ≤ s.length, m'.byte (a + k) = m.byte (a + k)) : m'.HasString a s := by
  obtain ⟨hall, hend⟩ := hasString_iff.1 h
  refine hasString_iff.2 ⟨fun k c hk ↦ ?_, ?_⟩
  · rw [hbyte k (Nat.le_of_lt (List.getElem?_eq_some_iff.1 hk).1)]
    exact hall k c hk
  · rw [hbyte s.length (Nat.le_refl _), hend]

/-- Enough bytes contain the whole string. -/
theorem HasString.cstr_eq {s : List UInt8} {n : ℕ} (h : m.HasString a s) (hn : s.length < n) :
    m.cstr a n = s := by
  induction s generalizing a n with
  | nil =>
    obtain ⟨n, rfl⟩ := Nat.exists_eq_succ_of_ne_zero (Nat.ne_zero_of_lt hn)
    exact if_pos h
  | cons c s ih =>
    obtain ⟨n, rfl⟩ := Nat.exists_eq_succ_of_ne_zero (Nat.ne_zero_of_lt hn)
    obtain ⟨rfl, hne, hs⟩ := h
    rw [cstr, if_neg hne, ih hs (Nat.lt_of_succ_lt_succ hn)]

end ByteMemory
