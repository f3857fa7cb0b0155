import Marimba.Foundations.ByteMemory
import Mathlib.Data.List.Range

/-!
# The string functions (`string.c`)

The loops of `memset`, `memcpy` and `memcmp` run over a number of bytes that is known beforehand.
`memcpy` goes upwards and reads each byte just before it writes one, so it also moves a range down
onto one that overlaps it (`memcpy_byte`).

The other loops run to the end of a string. They take a number of iterations, and a number greater
than the length of the string is enough (`strcmp_eq_some`, `strlen_eq_some`). `strcpy` looks at the
*next* character to see whether to go on: it does not copy the terminating zero, and it copies the
zero and what stands behind it when the string is empty (`Copies`, `strcpy_byte`). So it never
makes the accesses that a copy of the string with its zero takes, and the copy is terminated only
when a zero was there before (`not_copiesString`).
-/

namespace Marimba

/-- `memset`. -/
def memset (m : ByteMemory) (dest : ℕ) (c : UInt8) : ℕ → ByteMemory
  | 0 => m
  | n + 1 => memset (m.store dest c) (dest + 1) c n

/-- `memcpy`. -/
def memcpy (m : ByteMemory) (dest src : ℕ) : ℕ → ByteMemory
  | 0 => m
  | n + 1 => memcpy ((m.load src).store dest (m.byte src)) (dest + 1) (src + 1) n

section Ranges

variable {m : ByteMemory} {dest src n : ℕ} {c : UInt8} {P : ℕ → Prop}

theorem memset_byte (a : ℕ) :
    (memset m dest c n).byte a = if dest ≤ a ∧ a < dest + n then c else m.byte a := by
  induction n generalizing m dest with
  | zero => rw [memset, if_neg (by omega)]
  | succ n ih =>
    rw [memset, ih, ByteMemory.store_byte]
    grind

/-- **A range is moved down**: the bytes of the source, as they were before. -/
theorem memcpy_byte (h : dest ≤ src) (a : ℕ) :
    (memcpy m dest src n).byte a =
      if dest ≤ a ∧ a < dest + n then m.byte (src + (a - dest)) else m.byte a := by
  induction n generalizing m dest src with
  | zero => rw [memcpy, if_neg (by omega)]
  | succ n ih =>
    rw [memcpy, ih (Nat.succ_le_succ h), ByteMemory.store_byte, ByteMemory.store_byte]
    grind [ByteMemory.load_byte]

/-- `memset` stores to the range and nowhere else. -/
theorem memset_stored (hm : m.Stored P) (hP : ∀ a, dest ≤ a → a < dest + n → P a) :
    (memset m dest c n).Stored P := by
  induction n generalizing m dest with
  | zero => exact hm
  | succ n ih =>
    refine ih (ByteMemory.stored_store.2 ⟨hP dest le_rfl (by omega), hm⟩) fun a h₁ h₂ ↦ ?_
    exact hP a (by omega) (by omega)

/-- `memcpy` stores to the destination and nowhere else. -/
theorem memcpy_stored (hm : m.Stored P) (hP : ∀ a, dest ≤ a → a < dest + n → P a) :
    (memcpy m dest src n).Stored P := by
  induction n generalizing m dest src with
  | zero => exact hm
  | succ n ih =>
    refine ih (ByteMemory.stored_store.2 ⟨hP dest le_rfl (by omega), hm⟩) fun a h₁ h₂ ↦ ?_
    exact hP a (by omega) (by omega)

end Ranges

-- with a number of bytes that is a literal they would be unfolded byte by byte
attribute [irreducible] memset memcpy

/-! ### `memcmp` and `strcmp` -/

/-- The difference of two `char`, which are signed. -/
def charDiff (a b : UInt8) : ℤ := a.toInt8.toInt - b.toInt8.toInt

/-- The loop of `memcmp`, that many iterations from `curr` on. -/
def memcmpFrom (m1 m2 : ℕ → UInt8) : (n curr : ℕ) → ℤ
  | 0, _ => 0
  | n + 1, curr =>
    if m1 curr ≠ m2 curr then charDiff (m1 curr) (m2 curr) else memcmpFrom m1 m2 n (curr + 1)

/-- `memcmp`, of the bytes behind two pointers. -/
def memcmp (m1 m2 : ℕ → UInt8) (n : ℕ) : ℤ := memcmpFrom m1 m2 n 0

/-- `strcmp`, at most that many characters. -/
def strcmp (m : ByteMemory) : (n s1 s2 : ℕ) → Option ℤ
  | 0, _, _ => none
  | n + 1, s1, s2 =>
    if m.byte s1 ≠ 0 ∧ m.byte s2 ≠ 0 then
      if m.byte s1 ≠ m.byte s2 then some (charDiff (m.byte s1) (m.byte s2))
      else strcmp m n (s1 + 1) (s2 + 1)
    else if m.byte s1 ≠ 0 ∨ m.byte s2 ≠ 0 then some (charDiff (m.byte s1) (m.byte s2))
    else some 0

section Compare

variable {m : ByteMemory} {n s1 s2 : ℕ} {a b : UInt8} {s t : List UInt8}

theorem charDiff_eq_zero_iff : charDiff a b = 0 ↔ a = b := by
  rw [charDiff, Int.sub_eq_zero, Int8.toInt_inj]
  exact ⟨fun h ↦ congrArg Int8.toUInt8 h, fun h ↦ congrArg UInt8.toInt8 h⟩

/-- **`memcmp` compares ranges**: it is zero exactly when all bytes are the same. -/
theorem memcmp_eq_zero_iff {m1 m2 : ℕ → UInt8} {n : ℕ} :
    memcmp m1 m2 n = 0 ↔ ∀ i < n, m1 i = m2 i := by
  have hfrom (curr : ℕ) : memcmpFrom m1 m2 n curr = 0 ↔
      ∀ i, curr ≤ i → i < curr + n → m1 i = m2 i := by
    induction n generalizing curr with
    | zero => exact iff_of_true rfl fun i h₁ h₂ ↦ absurd h₂ (Nat.not_lt.2 h₁)
    | succ n ih =>
      rw [memcmpFrom]
      split
      · next hne =>
        exact iff_of_false (mt charDiff_eq_zero_iff.1 hne) fun h ↦ hne (h curr le_rfl (by omega))
      · next heq =>
        rw [ih]
        refine ⟨fun h i h₁ h₂ ↦ ?_, fun h i h₁ h₂ ↦ h i (by omega) (by omega)⟩
        rcases Nat.eq_or_lt_of_le h₁ with rfl | hlt
        · exact not_not.1 heq
        · exact h i hlt (by omega)
  rw [memcmp, hfrom]
  simp

/-- **`strcmp` compares strings**: it is zero exactly when they are the same. -/
theorem strcmp_eq_some (hs : m.HasString s1 s) (ht : m.HasString s2 t) (hn : s.length < n) :
    ∃ d, strcmp m n s1 s2 = some d ∧ (d = 0 ↔ s = t) := by
  induction s generalizing t n s1 s2 with
  | nil =>
    obtain ⟨n, rfl⟩ := Nat.exists_eq_succ_of_ne_zero (Nat.ne_zero_of_lt hn)
    have hs : m.byte s1 = 0 := hs
    rw [strcmp, if_neg fun h ↦ h.1 hs]
    cases t with
    | nil =>
      have ht : m.byte s2 = 0 := ht
      rw [if_neg (not_or.2 ⟨not_not.2 hs, not_not.2 ht⟩)]
      exact ⟨0, rfl, iff_of_true rfl rfl⟩
    | cons c t =>
      obtain ⟨hc, hne, -⟩ := ht
      rw [if_pos (Or.inr (hc ▸ hne))]
      refine ⟨_, rfl, iff_of_false ?_ (List.cons_ne_nil c t).symm⟩
      rw [charDiff_eq_zero_iff, hs, hc]
      exact hne.symm
  | cons c s ih =>
    obtain ⟨n, rfl⟩ := Nat.exists_eq_succ_of_ne_zero (Nat.ne_zero_of_lt hn)
    obtain ⟨hc, hne, hs⟩ := hs
    rw [strcmp, hc]
    cases t with
    | nil =>
      have ht : m.byte s2 = 0 := ht
      rw [if_neg fun h ↦ h.2 ht, if_pos (Or.inl hne)]
      refine ⟨_, rfl, iff_of_false ?_ (List.cons_ne_nil c s)⟩
      rwa [charDiff_eq_zero_iff, ht]
    | cons c' t =>
      obtain ⟨hc', hne', ht⟩ := ht
      rw [hc', if_pos ⟨hne, hne'⟩]
      by_cases heq : c = c'
      · rw [if_neg (not_not.2 heq)]
        obtain ⟨d, hd, hiff⟩ := ih hs ht (Nat.lt_of_succ_lt_succ hn)
        refine ⟨d, hd, ?_⟩
        rw [hiff, List.cons.injEq, and_iff_right heq]
      · rw [if_pos heq]
        refine ⟨_, rfl, iff_of_false (mt charDiff_eq_zero_iff.1 heq) ?_⟩
        exact fun h ↦ heq (List.cons.inj h).1

end Compare

/-! ### `strlen` and `strcpy` -/

/-- `strlen`, at most that many characters. -/
def strlen (m : ByteMemory) : (n cur : ℕ) → Option ℕ
  | 0, _ => none
  | n + 1, cur => if m.byte cur = 0 then some 0 else (strlen m n (cur + 1)).map (· + 1)

/-- `strcpy`, at most that many characters. -/
def strcpy : (n dcur scur : ℕ) → ByteMemory → Option ByteMemory
  | 0, _, _, _ => none
  | n + 1, dcur, scur, m =>
    let m := ((m.load scur).store dcur (m.byte scur)).load (scur + 1)
    if m.byte (scur + 1) ≠ 0 then strcpy n (dcur + 1) (scur + 1) m else some m

/-- `strcpy` copies that many characters from `src` on: it stops in front of the first zero behind
the first character. -/
structure Copies (m : ByteMemory) (src len : ℕ) : Prop where
  pos : 0 < len
  ne_zero : ∀ k, 0 < k → k < len → m.byte (src + k) ≠ 0
  stop : m.byte (src + len) = 0

section Copy

variable {m : ByteMemory} {n dest src len : ℕ} {s : List UInt8}

theorem strlen_eq_some (hs : m.HasString src s) (hn : s.length < n) :
    strlen m n src = some s.length := by
  induction s generalizing n src with
  | nil =>
    obtain ⟨n, rfl⟩ := Nat.exists_eq_succ_of_ne_zero (Nat.ne_zero_of_lt hn)
    exact if_pos hs
  | cons c s ih =>
    obtain ⟨n, rfl⟩ := Nat.exists_eq_succ_of_ne_zero (Nat.ne_zero_of_lt hn)
    obtain ⟨hc, hne, hs⟩ := hs
    rw [strlen, if_neg (hc ▸ hne), ih hs (Nat.lt_of_succ_lt_succ hn)]
    rfl

/-- More iterations do not change the result. -/
theorem strlen_mono {n' k : ℕ} (h : strlen m n src = some k) (hle : n ≤ n') :
    strlen m n' src = some k := by
  induction n generalizing n' src k with
  | zero => cases h
  | succ n ih =>
    obtain ⟨n', rfl⟩ := Nat.exists_eq_succ_of_ne_zero (Nat.ne_zero_of_lt hle)
    rw [strlen] at h ⊢
    split at h
    · next hzero => rwa [if_pos hzero]
    · next hne =>
      obtain ⟨k', hk', rfl⟩ := Option.map_eq_some_iff.1 h
      rw [if_neg hne, ih hk' (Nat.le_of_succ_le_succ hle)]
      rfl

/-- More iterations do not change the result. -/
theorem strcpy_mono {n' : ℕ} {m' : ByteMemory} (h : strcpy n dest src m = some m') (hle : n ≤ n') :
    strcpy n' dest src m = some m' := by
  induction n generalizing n' dest src m with
  | zero => cases h
  | succ n ih =>
    obtain ⟨n', rfl⟩ := Nat.exists_eq_succ_of_ne_zero (Nat.ne_zero_of_lt hle)
    rw [strcpy] at h ⊢
    split at h
    · next hne => rw [if_pos hne, ih h (Nat.le_of_succ_le_succ hle)]
    · next hzero => rwa [if_neg hzero]

/-- Of a string that is not empty all characters are copied. -/
theorem copies_of_hasString (hs : m.HasString src s) (hne : s ≠ []) : Copies m src s.length := by
  obtain ⟨hall, hend⟩ := ByteMemory.hasString_iff.1 hs
  refine ⟨List.length_pos_iff.2 hne, fun k _ hk ↦ ?_, hend⟩
  obtain ⟨hbyte, hne⟩ := hall k s[k] (List.getElem?_eq_getElem hk)
  rwa [hbyte]

/-- The whole string is copied at least. -/
theorem Copies.length_le (h : Copies m src len) (hs : m.HasString src s) : s.length ≤ len := by
  by_contra hlt
  have hlt := Nat.not_le.1 hlt
  obtain ⟨hbyte, hne⟩ := (ByteMemory.hasString_iff.1 hs).1 len s[len] (List.getElem?_eq_getElem hlt)
  exact hne (hbyte.symm.trans h.stop)

theorem Copies.congr {m' : ByteMemory} (h : Copies m src len)
    (hbyte : ∀ k ≤ len, m'.byte (src + k) = m.byte (src + k)) : Copies m' src len := by
  refine ⟨h.pos, fun k hk hlt ↦ ?_, ?_⟩
  · rw [hbyte k hlt.le]
    exact h.ne_zero k hk hlt
  · rw [hbyte len le_rfl, h.stop]

/-- **What `strcpy` does**, when the destination does not overlap what is read. -/
theorem strcpy_byte (h : Copies m src len) (hdisj : src + len < dest ∨ dest + len ≤ src)
    (hn : len ≤ n) :
    ∃ m', strcpy n dest src m = some m' ∧ ∀ a, m'.byte a =
      if dest ≤ a ∧ a < dest + len then m.byte (src + (a - dest)) else m.byte a := by
  induction len generalizing m n dest src with
  | zero => exact absurd h.pos (Nat.lt_irrefl 0)
  | succ len ih =>
    obtain ⟨n, rfl⟩ := Nat.exists_eq_succ_of_ne_zero (Nat.ne_zero_of_lt hn)
    -- the memory after the first character, seen from behind it
    have hbyte : ∀ b, (((m.load src).store dest (m.byte src)).load (src + 1)).byte b =
        if b = dest then m.byte src else m.byte b := ByteMemory.store_byte
    have hnext : src + 1 ≠ dest := by omega
    rw [strcpy, hbyte, if_neg hnext]
    rcases Nat.eq_zero_or_pos len with rfl | hlen
    · rw [if_neg (not_not.2 h.stop)]
      refine ⟨_, rfl, fun a ↦ ?_⟩
      rw [hbyte]
      grind
    · rw [if_pos (h.ne_zero 1 Nat.one_pos (by omega))]
      have hrest : Copies (((m.load src).store dest (m.byte src)).load (src + 1)) (src + 1)
          len := by
        refine ⟨hlen, fun k hk hlt ↦ ?_, ?_⟩
        · rw [hbyte, if_neg (by omega), Nat.add_assoc, Nat.add_comm 1 k]
          exact h.ne_zero (k + 1) (Nat.succ_pos k) (Nat.succ_lt_succ hlt)
        · rw [hbyte, if_neg (by omega), Nat.add_assoc, Nat.add_comm 1 len]
          exact h.stop
      have hdisj' : src + 1 + len < dest + 1 ∨ dest + 1 + len ≤ src + 1 := by omega
      obtain ⟨m', hm', hall⟩ := ih hrest hdisj' (Nat.le_of_succ_le_succ hn)
      refine ⟨m', hm', fun a ↦ ?_⟩
      rw [hall, hbyte, hbyte]
      by_cases hin : dest + 1 ≤ a ∧ a < dest + 1 + len
      · have hsrc : src + 1 + (a - (dest + 1)) = src + (a - dest) := by omega
        rw [if_pos hin, hsrc, if_neg (by omega), if_pos (by omega)]
      · rw [if_neg hin]
        by_cases heq : a = dest
        · rw [if_pos heq, if_pos (by omega), heq, Nat.sub_self, Nat.add_zero]
        · rw [if_neg heq, if_neg (by omega)]

end Copy

/-! ### The copy as a string -/

/-- `strcpy` has copied the string with its terminating zero: it reads and writes just that, and
what is at the destination is the same string. -/
structure CopiesString (m' : ByteMemory) (dest src : ℕ) (s : List UInt8) : Prop where
  reads : m'.Loaded fun a ↦ src ≤ a ∧ a ≤ src + s.length
  writes : ∀ a, a ∈ m'.stores ↔ dest ≤ a ∧ a ≤ dest + s.length
  terminated : m'.byte (dest + s.length) = 0
  strcmp_eq : ∃ n, strcmp m' n dest src = some 0
  strlen_eq : ∃ n, strlen m' n dest = some s.length

section Terminator

variable {m m' : ByteMemory} {n dest src k : ℕ} {s : List UInt8}

/-- What `strcpy` reads and writes: after `j` characters it has looked at the one behind them,
which is zero. The two ranges may overlap. -/
theorem strcpy_log (h : strcpy n dest src m = some m') :
    ∃ j, 0 < j ∧ j ≤ n ∧ m'.byte (src + j) = 0 ∧
      (∀ a, a ∈ m'.stores ↔ (dest ≤ a ∧ a < dest + j) ∨ a ∈ m.stores) ∧
      ∀ a, a ∈ m'.loads ↔ (src ≤ a ∧ a ≤ src + j) ∨ a ∈ m.loads := by
  induction n generalizing dest src m with
  | zero => cases h
  | succ n ih =>
    -- the log after the first character
    have hst : (((m.load src).store dest (m.byte src)).load (src + 1)).stores =
        dest :: m.stores := rfl
    have hld : (((m.load src).store dest (m.byte src)).load (src + 1)).loads =
        (src + 1) :: src :: m.loads := rfl
    rw [strcpy] at h
    split at h
    · obtain ⟨j, -, hle, hzero, hstores, hloads⟩ := ih h
      refine ⟨j + 1, Nat.succ_pos j, Nat.succ_le_succ hle, ?_, fun a ↦ ?_, fun a ↦ ?_⟩
      · rwa [Nat.add_right_comm] at hzero
      · rw [hstores, hst, List.mem_cons]
        grind
      · rw [hloads, hld, List.mem_cons, List.mem_cons]
        grind
    · next hzero =>
      obtain rfl := Option.some.inj h
      refine ⟨1, Nat.one_pos, Nat.succ_pos n, not_not.1 hzero, fun a ↦ ?_, fun a ↦ ?_⟩
      · rw [hst, List.mem_cons]
        grind
      · rw [hld, List.mem_cons, List.mem_cons]
        grind

/-- The character that is behind those written has been read. -/
theorem not_copiesString_of_strcpy {byte : ℕ → UInt8}
    (h : strcpy n dest src ⟨byte, [], []⟩ = some m') : ¬CopiesString m' dest src s := by
  intro hright
  obtain ⟨j, -, -, -, hstores, hloads⟩ := strcpy_log h
  have hlast := (hstores _).1 ((hright.writes _).2 ⟨Nat.le_add_right dest s.length, le_rfl⟩)
  have hread := (hright.reads _ ((hloads (src + j)).2 (Or.inl ⟨Nat.le_add_right src j, le_rfl⟩))).2
  have hlt := (hlast.resolve_right List.not_mem_nil).2
  omega

/-- The number that `strlen` returns leads to a zero. -/
theorem byte_of_strlen (h : strlen m n src = some k) : m.byte (src + k) = 0 := by
  induction n generalizing src k with
  | zero => cases h
  | succ n ih =>
    rw [strlen] at h
    split at h
    · next hzero =>
      obtain rfl := Option.some.inj h
      exact hzero
    · obtain ⟨k', hk', rfl⟩ := Option.map_eq_some_iff.1 h
      have hzero := ih hk'
      rwa [Nat.add_right_comm] at hzero

/-- **`strcpy` does not copy the terminating zero.** Whatever is in memory, no string is copied as
it should be. One that is not empty has its characters copied and nothing else; it can be compared
and measured at the destination exactly when the byte behind the characters was zero before. -/
theorem not_copiesString (byte : ℕ → UInt8) (dest src : ℕ) (s : List UInt8) :
    (¬∃ n m', strcpy n dest src ⟨byte, [], []⟩ = some m' ∧ CopiesString m' dest src s) ∧
    (ByteMemory.HasString ⟨byte, [], []⟩ src s → s ≠ [] →
      src + s.length < dest ∨ dest + s.length < src →
      ∃ m', strcpy s.length dest src ⟨byte, [], []⟩ = some m' ∧
        (m'.Loaded fun a ↦ src ≤ a ∧ a ≤ src + s.length) ∧
        (∀ a, a ∈ m'.stores ↔ dest ≤ a ∧ a < dest + s.length) ∧
        ((∃ n, strcmp m' n dest src = some 0 ∧ strlen m' n dest = some s.length) ↔
          byte (dest + s.length) = 0)) := by
  refine ⟨fun ⟨n, m', h, hright⟩ ↦ not_copiesString_of_strcpy h hright, fun hs hne hdisj ↦ ?_⟩
  have hcopies := copies_of_hasString hs hne
  obtain ⟨m', hm', hbyte⟩ := strcpy_byte hcopies (hdisj.imp_right Nat.le_of_lt) le_rfl
  obtain ⟨j, hj, hle, hzero, hstores, hloads⟩ := strcpy_log hm'
  -- the source is unchanged, so its first zero is where the copying stopped
  have hsrc : ∀ k ≤ s.length, m'.byte (src + k) = byte (src + k) := fun k hk ↦ by
    rw [hbyte, if_neg (by omega)]
  obtain rfl : j = s.length := by
    by_contra hlt
    exact hcopies.ne_zero j hj (by omega) ((hsrc j hle).symm.trans hzero)
  have hend : m'.byte (dest + s.length) = byte (dest + s.length) := by
    rw [hbyte, if_neg (by omega)]
  have hsrc' : m'.HasString src s := hs.congr hsrc
  refine ⟨m', hm', fun a ha ↦ ((hloads a).1 ha).resolve_right List.not_mem_nil,
    fun a ↦ (hstores a).trans (or_iff_left List.not_mem_nil), fun ⟨n, _, hlen⟩ ↦ ?_, fun hdest ↦ ?_⟩
  · rw [← hend, byte_of_strlen hlen]
  · have hdest' : m'.HasString dest s := by
      refine ByteMemory.hasString_iff.2 ⟨fun k c hk ↦ ?_, hend.trans hdest⟩
      have hlt := (List.getElem?_eq_some_iff.1 hk).1
      rw [hbyte, if_pos ⟨Nat.le_add_right dest k, by omega⟩, Nat.add_sub_cancel_left]
      exact (ByteMemory.hasString_iff.1 hs).1 k c hk
    obtain ⟨d, hd, hiff⟩ := strcmp_eq_some hdest' hsrc' (Nat.lt_succ_self s.length)
    refine ⟨s.length + 1, ?_, strlen_eq_some hdest' (Nat.lt_succ_self s.length)⟩
    rw [hd, hiff.2 rfl]

/-- The string "A" at 0, copied to a buffer at 2 that is full of `0xff`. -/
def unterminatedCopy : ℕ → UInt8 := fun a ↦ if a = 0 then 65 else if a = 1 then 0 else 0xff

theorem strcpy_leaves_unterminated :
    ByteMemory.HasString ⟨unterminatedCopy, [], []⟩ 0 [65] ∧
      (∃ m', strcpy 1 2 0 ⟨unterminatedCopy, [], []⟩ = some m' ∧ m'.stores = [2] ∧
        m'.byte 2 = 65 ∧ m'.byte 3 = 0xff) ∧
      ¬∃ n m', strcpy n 2 0 ⟨unterminatedCopy, [], []⟩ = some m' ∧ CopiesString m' 2 0 [65] :=
  ⟨by decide, ⟨_, rfl, rfl, by decide, by decide⟩,
    fun ⟨_, _, h, hright⟩ ↦ not_copiesString_of_strcpy h hright⟩

end Terminator

end Marimba
