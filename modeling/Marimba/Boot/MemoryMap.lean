import Marimba.Foundations.ByteMemory
import Marimba.Memory.PageRanges
import Marimba.Sort

/-!
# The memory map of the boot loader (`parse_mmap`)

The information of the boot loader is bytes in memory; `struct PhysicalMMap`, which is filled from
it, is at `dest` in a memory of 8-byte words, so that what `sort_mmap_entry_array` writes behind the
array is written into the counter of the kernel sections, as in the code. The two memories do not
overlap.

The tag gives the size of its entries. `parse_mmap` uses it to count them, and the header in the
size of the tag does not disturb the count (`entryCount_eq`). But its cursor is a pointer to a
structure of 24 bytes and moves by that. What it reads is therefore `availableAt` with a stride of
24 (`records`, `fillMmap_spec`), whatever the tag says.

**When this is right** (`parsesMmap_iff`): for entries of 24 bytes and for a single entry it always
is. For other tags it is right exactly when the records of 24 bytes happen to have the same
available memory as the entries, and for each size and number there is a tag where they do not.
-/

namespace Marimba

namespace WordMemory

/-- The `unsigned int` at an address. -/
def uint (m : WordMemory) (a : ℕ) : ℕ := m a % 2 ^ 32

/-- An `unsigned int` is stored. The other half of the word stays. -/
def setUint (m : WordMemory) (a v : ℕ) : WordMemory :=
  Function.update m a (m a / 2 ^ 32 * 2 ^ 32 + v % 2 ^ 32)

/-- The assignment of the two members of a `struct MMapEntry`. -/
def setMmapEntry (m : WordMemory) (p : ℕ) (e : MMapEntry) : WordMemory :=
  Function.update (Function.update m p e.base) (p + 8) e.length

variable {m : WordMemory} {a p q v : ℕ} {e : MMapEntry}

theorem uint_setUint_self (hv : v < 2 ^ 32) : (m.setUint a v).uint a = v := by
  rw [uint, setUint, Function.update_self]
  omega

theorem mmapEntry_setUint (h₀ : p ≠ a) (h₁ : p + 8 ≠ a) :
    (m.setUint a v).mmapEntry p = m.mmapEntry p := by
  rw [mmapEntry, mmapEntry, setUint, Function.update_of_ne h₀, Function.update_of_ne h₁]

theorem mmapEntry_setMmapEntry_self : (m.setMmapEntry p e).mmapEntry p = e := by
  rw [mmapEntry, setMmapEntry, Function.update_of_ne (by omega), Function.update_self,
    Function.update_self]

theorem mmapEntry_setMmapEntry_of_lt (h : q + mmapEntrySize ≤ p) :
    (m.setMmapEntry p e).mmapEntry q = m.mmapEntry q := by
  simp only [mmapEntrySize] at h
  rw [mmapEntry, mmapEntry, setMmapEntry, Function.update_of_ne (by omega),
    Function.update_of_ne (by omega), Function.update_of_ne (by omega),
    Function.update_of_ne (by omega)]

end WordMemory

/-- One more entry of the array. -/
theorem mmapEntries_succ (m : WordMemory) (arr len : ℕ) :
    mmapEntries m arr (len + 1) =
      mmapEntries m arr len ++ [m.mmapEntry (arr + mmapEntrySize * len)] := by
  rw [mmapEntries, elements, List.range_succ, List.map_append]
  rfl

namespace Boot

/-! ### `struct PhysicalMMap` -/

/-- The address of `total_ram`. -/
def totalRam (dest : ℕ) : ℕ := dest

/-- The address of `num_mmap`. -/
def numMmap (dest : ℕ) : ℕ := dest + 8

/-- The address of `ram_sects`. -/
def ramSects (dest : ℕ) : ℕ := dest + 16

/-! ### The tag -/

/-- `sizeof(struct MultibootMMapEntry)`. -/
abbrev multibootMmapEntrySize : ℕ := 24

/-- `MULTIBOOT_MEMORY_AVAILABLE`. -/
abbrev multibootMemoryAvailable : ℕ := 1

/-- `type` of a `struct MultibootTag`. -/
def tagType (b : ByteMemory) (tag : ℕ) : ℕ := b.word tag

/-- `size` of a `struct MultibootTag`. -/
def tagSize (b : ByteMemory) (tag : ℕ) : ℕ := b.word (tag + 4)

/-- `entry_size` of a `struct MultibootMMapTag`. -/
def entrySize (b : ByteMemory) (tag : ℕ) : ℕ := b.word (tag + 8)

/-- The address of `entries` of a `struct MultibootMMapTag`. -/
def entries (tag : ℕ) : ℕ := tag + 16

/-- `type` of a `struct MultibootMMapEntry`. -/
def entryType (b : ByteMemory) (curr : ℕ) : ℕ := b.word (curr + 16)

/-- `addr` and `len` of a `struct MultibootMMapEntry`. -/
def entryMemory (b : ByteMemory) (curr : ℕ) : MMapEntry := ⟨b.dword curr, b.dword (curr + 8)⟩

/-- `mmap->size/mmap->entry_size` as an `int`, as a number of iterations. -/
def entryCount (b : ByteMemory) (tag : ℕ) : ℕ :=
  ((tagSize b tag / entrySize b tag : ℕ) : ℤ).bmod (2 ^ 32) |>.toNat

/-! ### `parse_mmap` -/

/-- The loop of `parse_mmap`, that many iterations from `curr` on: whether it came to its end, and
the memory. -/
def fillMmap (b : ByteMemory) (dest : ℕ) : (n curr : ℕ) → WordMemory → Bool × WordMemory
  | 0, _, m => (true, m)
  | n + 1, curr, m =>
    if entryType b curr ≠ multibootMemoryAvailable then
      fillMmap b dest n (curr + multibootMmapEntrySize) m
    else
      let num := m.uint (numMmap dest)
      if num = maxMmapEntries then (false, m)
      else
        let m := m.setMmapEntry (ramSects dest + mmapEntrySize * num) (entryMemory b curr)
        fillMmap b dest n (curr + multibootMmapEntrySize) (m.setUint (numMmap dest) (num + 1))

/-- `parse_mmap` up to the end of its loop. -/
def fill (b : ByteMemory) (tag dest : ℕ) (m : WordMemory) : Bool × WordMemory :=
  fillMmap b dest (entryCount b tag) (entries tag) (m.setUint (numMmap dest) 0)

/-- How the parsing of a tag ends: with `0`, with `-1`, or in a division by zero. -/
inductive Parsed where
  | ok (m : WordMemory)
  | refused (m : WordMemory)
  | divideError

/-- `total_ram` from the last RAM section. The index is an `unsigned int`. -/
def setTotalRam (dest : ℕ) (m : WordMemory) : WordMemory :=
  let last := ramSects dest + mmapEntrySize * ((m.uint (numMmap dest) + (2 ^ 32 - 1)) % 2 ^ 32)
  Function.update m (totalRam dest) (wadd (m last) (m (last + 8)))

/-- `parse_mmap`. -/
def parseMmap (b : ByteMemory) (tag dest : ℕ) (m : WordMemory) : Option Parsed :=
  if entrySize b tag = 0 then some .divideError
  else
    let r := fill b tag dest m
    if r.1 then
      (sortMmapEntryArray r.2 (ramSects dest) (r.2.uint (numMmap dest))).map fun s ↦
        .ok (setTotalRam dest s.1)
    else some (.refused r.2)

/-! ### What the tag says -/

/-- The available memory of `n` entries, `stride` bytes apart. -/
def availableAt (b : ByteMemory) (stride : ℕ) : (n curr : ℕ) → List MMapEntry
  | 0, _ => []
  | n + 1, curr =>
    if entryType b curr = multibootMemoryAvailable then
      entryMemory b curr :: availableAt b stride n (curr + stride)
    else availableAt b stride n (curr + stride)

/-- What `parse_mmap` takes for the available memory of the tag: the records of 24 bytes. -/
def records (b : ByteMemory) (tag : ℕ) : List MMapEntry :=
  availableAt b multibootMmapEntrySize (entryCount b tag) (entries tag)

/-- A memory-map tag with `n` entries of `size` bytes each. -/
structure IsMmapTag (b : ByteMemory) (tag size n : ℕ) : Prop where
  type : tagType b tag = 6
  tagSize : tagSize b tag = 16 + n * size
  entrySize : entrySize b tag = size
  aligned : 8 ∣ size
  large : multibootMmapEntrySize ≤ size

/-- The available memory that the tag lists. -/
def available (b : ByteMemory) (tag size n : ℕ) : List MMapEntry :=
  availableAt b size n (entries tag)

/-- **What `parse_mmap` should do**: refuse exactly the tags with more available entries than there
is room for, and else have them in the array, in order, when its loop ends. -/
structure ParsesMmap (b : ByteMemory) (tag size n dest : ℕ) (m : WordMemory) : Prop where
  refuses : (∃ m', parseMmap b tag dest m = some (.refused m')) ↔
    maxMmapEntries < (available b tag size n).length
  returns : (available b tag size n).length ≤ maxMmapEntries →
    ∃ m', parseMmap b tag dest m = some (.ok m')
  num : (available b tag size n).length ≤ maxMmapEntries →
    (fill b tag dest m).2.uint (numMmap dest) = (available b tag size n).length
  entries : (available b tag size n).length ≤ maxMmapEntries →
    mmapEntries (fill b tag dest m).2 (ramSects dest) (available b tag size n).length =
      available b tag size n

/-- The records of 24 bytes at the entries of the tag have the same available memory as the entries,
as far as there is room. -/
def SameAvailable (b : ByteMemory) (tag size n : ℕ) : Prop :=
  available b tag multibootMmapEntrySize n = available b tag size n ∨
    maxMmapEntries < (available b tag multibootMmapEntrySize n).length ∧
      maxMmapEntries < (available b tag size n).length

/-! ### The loop -/

section Loop

variable {b : ByteMemory} {tag dest size n curr k : ℕ} {m : WordMemory} {acc : List MMapEntry}

theorem availableAt_eq_nil (h : ∀ k < n, entryType b (curr + size * k) ≠ 1) :
    availableAt b size n curr = [] := by
  induction n generalizing curr with
  | zero => rfl
  | succ n ih =>
    have hzero := h 0 n.succ_pos
    rw [Nat.mul_zero, Nat.add_zero] at hzero
    rw [availableAt, if_neg hzero]
    refine ih fun k hk ↦ ?_
    have hne := h (k + 1) (Nat.succ_lt_succ hk)
    rwa [Nat.mul_succ, Nat.add_comm (size * k), ← Nat.add_assoc] at hne

/-- One entry is put behind those that are there. -/
theorem mmapEntries_put {e : MMapEntry} (hnum : m.uint (numMmap dest) = acc.length)
    (hacc : mmapEntries m (ramSects dest) acc.length = acc) (hlt : acc.length < maxMmapEntries) :
    let m' := (m.setMmapEntry (ramSects dest + mmapEntrySize * acc.length) e).setUint (numMmap dest)
      (acc.length + 1)
    m'.uint (numMmap dest) = (acc ++ [e]).length ∧
      mmapEntries m' (ramSects dest) (acc ++ [e]).length = acc ++ [e] := by
  intro m'
  have hlen : (acc ++ [e]).length = acc.length + 1 := List.length_append
  rw [hlen]
  refine ⟨WordMemory.uint_setUint_self (by simp only [maxMmapEntries] at hlt; omega), ?_⟩
  have hafter : ∀ k, ramSects dest + mmapEntrySize * k > numMmap dest := by
    intro k
    simp only [ramSects, numMmap]
    omega
  rw [mmapEntries_succ]
  congr 1
  · refine Eq.trans (List.map_congr_left fun k hk ↦ ?_) hacc
    have hk : mmapEntrySize * (k + 1) ≤ mmapEntrySize * acc.length :=
      Nat.mul_le_mul_left _ (List.mem_range.1 hk)
    rw [WordMemory.mmapEntry_setUint (hafter k).ne' (by have := hafter k; omega),
      WordMemory.mmapEntry_setMmapEntry_of_lt (by rw [Nat.mul_succ] at hk; omega)]
  · rw [WordMemory.mmapEntry_setUint (hafter _).ne' (by have := hafter acc.length; omega),
      WordMemory.mmapEntry_setMmapEntry_self]

/-- **What the loop does**, from `curr` on and with `acc` in the array: it goes on as long as there
is room, and reads records of 24 bytes. -/
theorem fillMmap_spec (b : ByteMemory) (n curr : ℕ)
    (hnum : m.uint (numMmap dest) = acc.length)
    (hacc : mmapEntries m (ramSects dest) acc.length = acc) (hle : acc.length ≤ maxMmapEntries) :
    ((fillMmap b dest n curr m).1 = true ↔
      (acc ++ availableAt b multibootMmapEntrySize n curr).length ≤ maxMmapEntries) ∧
    ((acc ++ availableAt b multibootMmapEntrySize n curr).length ≤ maxMmapEntries →
      (fillMmap b dest n curr m).2.uint (numMmap dest) =
        (acc ++ availableAt b multibootMmapEntrySize n curr).length ∧
      mmapEntries (fillMmap b dest n curr m).2 (ramSects dest)
        (acc ++ availableAt b multibootMmapEntrySize n curr).length =
          acc ++ availableAt b multibootMmapEntrySize n curr) := by
  induction n generalizing curr m acc with
  | zero =>
    rw [availableAt, List.append_nil]
    exact ⟨iff_of_true rfl hle, fun _ ↦ ⟨hnum, hacc⟩⟩
  | succ n ih =>
    by_cases htype : entryType b curr = multibootMemoryAvailable
    · rw [availableAt, if_pos htype, fillMmap, if_neg (not_not.2 htype), hnum]
      rcases hle.eq_or_lt with heq | hlt
      · rw [if_pos heq]
        have hover : ¬(acc ++ entryMemory b curr ::
            availableAt b multibootMmapEntrySize n (curr + multibootMmapEntrySize)).length ≤
              maxMmapEntries := by
          rw [List.length_append, List.length_cons]
          omega
        exact ⟨iff_of_false Bool.false_ne_true hover, fun h ↦ absurd h hover⟩
      · rw [if_neg hlt.ne, List.append_cons]
        obtain ⟨hnum', hacc'⟩ := mmapEntries_put (e := entryMemory b curr) hnum hacc hlt
        refine ih _ hnum' hacc' ?_
        rw [List.length_append]
        exact hlt
    · rw [availableAt, if_neg htype, fillMmap, if_pos htype]
      exact ih _ hnum hacc hle

/-- The count of `parse_mmap` is the number of entries: the header in the size is less than one of
them. -/
theorem entryCount_eq (h : IsMmapTag b tag size n) : entryCount b tag = n := by
  have hlarge : 24 ≤ size := h.large
  have hn : 24 * n < 2 ^ 32 := by
    have hlt : tagSize b tag < 2 ^ 32 := b.word_lt (tag + 4)
    have hmul : n * 24 ≤ n * size := Nat.mul_le_mul_left n hlarge
    rw [h.tagSize] at hlt
    omega
  have hdiv : tagSize b tag / entrySize b tag = n := by
    rw [h.tagSize, h.entrySize, Nat.add_mul_div_right _ _ (by omega), Nat.div_eq_of_lt (by omega),
      Nat.zero_add]
  calc entryCount b tag
      = ((n : ℤ).bmod (2 ^ 32)).toNat := congrArg (fun q : ℕ ↦ ((q : ℤ).bmod (2 ^ 32)).toNat) hdiv
    _ = (n : ℤ).toNat := congrArg Int.toNat (Int.bmod_eq_of_le (by omega) (by omega))
    _ = n := Int.toNat_natCast n

theorem records_eq (h : IsMmapTag b tag size n) :
    records b tag = available b tag multibootMmapEntrySize n := by
  rw [records, entryCount_eq h, available]

/-- The loop of `parse_mmap`, on its own. -/
theorem fill_spec (b : ByteMemory) (tag dest : ℕ) (m : WordMemory) :
    ((fill b tag dest m).1 = true ↔ (records b tag).length ≤ maxMmapEntries) ∧
    ((records b tag).length ≤ maxMmapEntries →
      (fill b tag dest m).2.uint (numMmap dest) = (records b tag).length ∧
      mmapEntries (fill b tag dest m).2 (ramSects dest) (records b tag).length =
        records b tag) := by
  have hnum : (m.setUint (numMmap dest) 0).uint (numMmap dest) = ([] : List MMapEntry).length :=
    WordMemory.uint_setUint_self (by decide)
  have hspec := fillMmap_spec b (entryCount b tag) (entries tag) hnum rfl (Nat.zero_le _)
  rwa [List.nil_append] at hspec

/-- `parse_mmap` returns `0` when its loop finds room for all. -/
theorem parseMmap_of_le (hpos : entrySize b tag ≠ 0)
    (hle : (records b tag).length ≤ maxMmapEntries) :
    ∃ m', parseMmap b tag dest m = some (.ok m') := by
  obtain ⟨m', calls, hsort⟩ := sort_isSome mmapEntryCmp mmapEntrySwp (fill b tag dest m).2
    (ramSects dest) ((fill b tag dest m).2.uint (numMmap dest)) mmapEntrySize
  rw [parseMmap, if_neg hpos, if_pos ((fill_spec b tag dest m).1.2 hle)]
  exact ⟨setTotalRam dest m', congrArg (Option.map _) hsort⟩

/-- And `-1` when it does not. -/
theorem parseMmap_of_lt (hpos : entrySize b tag ≠ 0)
    (hlt : maxMmapEntries < (records b tag).length) :
    ∃ m', parseMmap b tag dest m = some (.refused m') := by
  have hno := mt (fill_spec b tag dest m).1.1 (Nat.not_le.2 hlt)
  rw [parseMmap, if_neg hpos, if_neg hno]
  exact ⟨_, rfl⟩

/-- What `parse_mmap` answers to a memory-map tag. -/
theorem parseMmap_spec (h : IsMmapTag b tag size n) (dest : ℕ) (m : WordMemory) :
    ((∃ m', parseMmap b tag dest m = some (.refused m')) ↔
      maxMmapEntries < (available b tag multibootMmapEntrySize n).length) ∧
    ((available b tag multibootMmapEntrySize n).length ≤ maxMmapEntries →
      ∃ m', parseMmap b tag dest m = some (.ok m')) := by
  have hpos : entrySize b tag ≠ 0 := by
    have hlarge : 24 ≤ size := h.large
    rw [h.entrySize]
    omega
  rw [← records_eq h]
  refine ⟨⟨fun ⟨m', hrefused⟩ ↦ ?_, parseMmap_of_lt hpos⟩, parseMmap_of_le hpos⟩
  by_contra hle
  obtain ⟨m'', hok⟩ := parseMmap_of_le (m := m) hpos (Nat.not_lt.1 hle)
  rw [hok] at hrefused
  cases hrefused

/-- The tag is parsed as it should be exactly when the records that are read agree with it. -/
theorem parsesMmap_iff_sameAvailable (h : IsMmapTag b tag size n) :
    ParsesMmap b tag size n dest m ↔ SameAvailable b tag size n := by
  obtain ⟨-, hfill⟩ := fill_spec b tag dest m
  obtain ⟨hrefuses, hreturns⟩ := parseMmap_spec h dest m
  rw [records_eq h] at hfill
  constructor
  · intro hp
    rcases Nat.lt_or_ge maxMmapEntries (available b tag size n).length with hlt | hle
    · exact Or.inr ⟨hrefuses.1 (hp.refuses.2 hlt), hlt⟩
    · -- what the loop left behind is read in both ways
      have hle' : (available b tag multibootMmapEntrySize n).length ≤ maxMmapEntries := by
        by_contra hgt
        exact absurd (hp.refuses.1 (hrefuses.2 (Nat.not_le.1 hgt))) (Nat.not_lt.2 hle)
      obtain ⟨hnum, hentries⟩ := hfill hle'
      have hlen := hnum.symm.trans (hp.num hle)
      rw [hlen, hp.entries hle] at hentries
      exact Or.inl hentries.symm
  · rintro (heq | ⟨hlt, hlt'⟩)
    · rw [heq] at hfill hrefuses hreturns
      exact ⟨hrefuses, hreturns, fun hle ↦ (hfill hle).1, fun hle ↦ (hfill hle).2⟩
    · have hnot := Nat.not_le.2 hlt'
      exact ⟨iff_of_true (hrefuses.2 hlt) hlt', fun hle ↦ absurd hle hnot,
        fun hle ↦ absurd hle hnot, fun hle ↦ absurd hle hnot⟩

end Loop

/-! ### A tag that is misread -/

/-- A tag whose first entry is available, with a second `1` where the second record of 24 bytes has
its type. -/
def misreadTag (size n : ℕ) : ByteMemory :=
  let header := ((ByteMemory.ofList []).storeWord 0 6).storeWord 4 (16 + n * size)
  ((header.storeWord 8 size).storeWord 32 1).storeWord 56 1

section Misread

variable {size n : ℕ}

theorem misreadTag_word (size n : ℕ) {a : ℕ} (h : 12 ≤ a) (h₀ : a + 4 ≤ 32 ∨ 36 ≤ a)
    (h₁ : a + 4 ≤ 56 ∨ 60 ≤ a) : (misreadTag size n).word a = 0 := by
  rw [misreadTag, ByteMemory.word_storeWord_of_disjoint (by omega),
    ByteMemory.word_storeWord_of_disjoint (by omega),
    ByteMemory.word_storeWord_of_disjoint (by omega),
    ByteMemory.word_storeWord_of_disjoint (by omega),
    ByteMemory.word_storeWord_of_disjoint (by omega)]
  rfl

theorem entryType_misreadTag_first (size n : ℕ) :
    entryType (misreadTag size n) 16 = multibootMemoryAvailable := by
  rw [entryType, misreadTag, ByteMemory.word_storeWord_of_disjoint (by omega),
    ByteMemory.word_storeWord_self (by decide)]

theorem entryType_misreadTag_second (size n : ℕ) :
    entryType (misreadTag size n) (16 + multibootMmapEntrySize) = multibootMemoryAvailable := by
  exact ByteMemory.word_storeWord_self (by decide)

theorem isMmapTag_misreadTag (haligned : 8 ∣ size) (hlarge : multibootMmapEntrySize ≤ size)
    (hlt : 16 + n * size < 2 ^ 32) (hn : 0 < n) : IsMmapTag (misreadTag size n) 0 size n := by
  have hsize : size < 2 ^ 32 := by
    have hle : 1 * size ≤ n * size := Nat.mul_le_mul_right size hn
    omega
  refine ⟨?_, ?_, ?_, haligned, hlarge⟩
  · rw [tagType, misreadTag, ByteMemory.word_storeWord_of_disjoint (by omega),
      ByteMemory.word_storeWord_of_disjoint (by omega),
      ByteMemory.word_storeWord_of_disjoint (by omega),
      ByteMemory.word_storeWord_of_disjoint (by omega), ByteMemory.word_storeWord_self (by decide)]
  · rw [tagSize, misreadTag, ByteMemory.word_storeWord_of_disjoint (by omega),
      ByteMemory.word_storeWord_of_disjoint (by omega),
      ByteMemory.word_storeWord_of_disjoint (by omega), ByteMemory.word_storeWord_self hlt]
  · rw [entrySize, misreadTag, ByteMemory.word_storeWord_of_disjoint (by omega),
      ByteMemory.word_storeWord_of_disjoint (by omega), ByteMemory.word_storeWord_self hsize]

/-- The entries: only the first is available. -/
theorem length_available_misreadTag (haligned : 8 ∣ size) (hlarge : multibootMmapEntrySize < size)
    (hn : 0 < n) : (available (misreadTag size n) 0 size n).length = 1 := by
  obtain ⟨n, rfl⟩ := Nat.exists_eq_succ_of_ne_zero hn.ne'
  have hrest : availableAt (misreadTag size (n + 1)) size n (16 + size) = [] := by
    refine availableAt_eq_nil fun k hk ↦ ?_
    have hsize : 32 ≤ size := by
      simp only [multibootMmapEntrySize] at hlarge
      omega
    rw [entryType, misreadTag_word size (n + 1) (by omega) (by omega) (by omega)]
    exact Nat.zero_ne_one
  rw [available, entries, Nat.zero_add, availableAt, if_pos (entryType_misreadTag_first _ _), hrest]
  rfl

/-- The records of 24 bytes: the second one seems to be available too. -/
theorem length_available_misreadTag_records (size : ℕ) (hn : 2 ≤ n) :
    (available (misreadTag size n) 0 multibootMmapEntrySize n).length = 2 := by
  obtain ⟨n, rfl⟩ := Nat.exists_eq_add_of_le' hn
  have hrest : availableAt (misreadTag size (n + 2)) multibootMmapEntrySize n
      (16 + multibootMmapEntrySize + multibootMmapEntrySize) = [] := by
    refine availableAt_eq_nil fun k hk ↦ ?_
    simp only [multibootMmapEntrySize]
    rw [entryType, misreadTag_word size (n + 2) (by omega) (by omega) (by omega)]
    exact Nat.zero_ne_one
  rw [available, entries, Nat.zero_add, availableAt, if_pos (entryType_misreadTag_first _ _),
    availableAt, if_pos (entryType_misreadTag_second _ _), hrest]
  rfl

theorem not_sameAvailable_misreadTag (haligned : 8 ∣ size) (hlarge : multibootMmapEntrySize < size)
    (hn : 2 ≤ n) : ¬SameAvailable (misreadTag size n) 0 size n := by
  have hentries := length_available_misreadTag (n := n) haligned hlarge (by omega)
  have hrecords := length_available_misreadTag_records size hn
  rintro (heq | ⟨-, hlt⟩)
  · rw [heq, hentries] at hrecords
    omega
  · rw [hentries] at hlt
    exact absurd hlt (by decide)

end Misread

/-- **When `parse_mmap` does what it should.** For every memory-map tag with an available entry it
does exactly when the entries have 24 bytes, or there is only one, or the records that are read
happen to agree with them. The last case does not come from the size and number of the entries: for
each other size and number there is a tag that is misread. -/
theorem parsesMmap_iff (size n dest : ℕ) (m : WordMemory) :
    (∀ b tag, IsMmapTag b tag size n → available b tag size n ≠ [] →
      (ParsesMmap b tag size n dest m ↔
        size = multibootMmapEntrySize ∨ n = 1 ∨ SameAvailable b tag size n)) ∧
    (8 ∣ size → multibootMmapEntrySize ≤ size → 0 < n → 16 + n * size < 2 ^ 32 →
      ((∀ b tag, IsMmapTag b tag size n → available b tag size n ≠ [] →
        ParsesMmap b tag size n dest m) ↔ size = multibootMmapEntrySize ∨ n = 1)) := by
  have hsame : ∀ b tag, size = multibootMmapEntrySize ∨ n = 1 → SameAvailable b tag size n := by
    rintro b tag (rfl | rfl)
    · exact Or.inl rfl
    · exact Or.inl rfl
  refine ⟨fun b tag h _ ↦ ?_, fun haligned hlarge hpos hlt ↦ ⟨fun hall ↦ ?_, fun h b tag ht _ ↦ ?_⟩⟩
  · rw [parsesMmap_iff_sameAvailable h]
    constructor
    · exact fun hs ↦ Or.inr (Or.inr hs)
    · rintro (heq | heq | hs)
      · exact hsame b tag (Or.inl heq)
      · exact hsame b tag (Or.inr heq)
      · exact hs
  · by_contra hno
    obtain ⟨hne, hone⟩ := not_or.1 hno
    have htag := isMmapTag_misreadTag haligned hlarge hlt hpos
    have hlarge' := lt_of_le_of_ne hlarge (Ne.symm hne)
    refine not_sameAvailable_misreadTag haligned hlarge' (by omega)
      ((parsesMmap_iff_sameAvailable htag).1 (hall _ 0 htag fun hnil ↦ ?_))
    have hlen := length_available_misreadTag (n := n) haligned hlarge' hpos
    rw [hnil] at hlen
    cases hlen
  · exact (parsesMmap_iff_sameAvailable ht).2 (hsame b tag h)

/-- The memory map of a PC: two entries of 24 bytes. -/
def pcTagBytes : List UInt8 :=
  [6, 0, 0, 0, 64, 0, 0, 0, 24, 0, 0, 0, 0, 0, 0, 0,
    0, 0, 0, 0, 0, 0, 0, 0, 0, 0xFC, 9, 0, 0, 0, 0, 0, 1, 0, 0, 0, 0, 0, 0, 0,
    0, 0, 0x10, 0, 0, 0, 0, 0, 0, 0, 0xEE, 7, 0, 0, 0, 0, 1, 0, 0, 0, 0, 0, 0, 0]

/-- The tag at address `0`. -/
def pcTag : ByteMemory := ByteMemory.ofList pcTagBytes

theorem parsesMmap_iff_pcTag :
    available pcTag 0 24 2 = [⟨0, 0x9FC00⟩, ⟨0x100000, 0x7EE0000⟩] ∧
      ParsesMmap pcTag 0 24 2 0 fun _ ↦ 0 := by
  have havailable : available pcTag 0 24 2 = [⟨0, 0x9FC00⟩, ⟨0x100000, 0x7EE0000⟩] := by decide
  refine ⟨havailable, ((parsesMmap_iff 24 2 0 _).1 pcTag 0 ?_ ?_).2 (Or.inl rfl)⟩
  · exact ⟨by decide, by decide, by decide, by decide, by decide⟩
  · rw [havailable]
    exact List.cons_ne_nil _ _

/-- **The second of two entries of 32 bytes is misread.** -/
theorem parseMmap_misreads_two :
    IsMmapTag (misreadTag 32 2) 0 32 2 ∧ available (misreadTag 32 2) 0 32 2 = [⟨0, 0⟩] ∧
      ∀ dest m, ¬ParsesMmap (misreadTag 32 2) 0 32 2 dest m := by
  have htag : IsMmapTag (misreadTag 32 2) 0 32 2 :=
    isMmapTag_misreadTag (by decide) (by decide) (by decide) (by decide)
  refine ⟨htag, rfl, fun dest m hp ↦ ?_⟩
  exact not_sameAvailable_misreadTag (by decide) (by decide) (by decide)
    ((parsesMmap_iff_sameAvailable htag).1 hp)

end Boot

end Marimba
