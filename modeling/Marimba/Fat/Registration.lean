import Marimba.Fat.Volume
import Mathlib.Tactic.Linarith
import Mathlib.Tactic.Ring

/-!
# Registering a FAT32 volume (`FS_register_fat32`)

All that `FS_register_fat32` can do is in `fsRegisterFat32_cases`: it returns before it has
allocated anything, it returns because a later allocation failed, before the loop that loads the
table or behind it, or it loads the table and returns zero. The results below are about the three.

* **Errors** (`registersSafely_iff`): the second way out gives back none of the blocks allocated
  before, and the third one is taken whether the sectors of the table could be read or not.
* **Sizes** (`tableFits_iff`): the number of sectors and the size of the table are computed in
  `int`, where the size can wrap around while the number does not. Either the size is too small
  then, or it is negative, becomes a huge `size_t`, and the places that the loop computes can wrap
  around. Nothing is stored when the function returns before the loop, as it does after an
  allocation that failed; and `kmalloc` refuses every size that is negative as an `int`, but for
  those within 16 bytes of zero (`Kmalloc.KernelHeap.kmalloc_of_negative`).
* **Places** (`not_loadsFat`): the table is loaded from one sector behind the first sector of the
  table, so that every entry is that of the next sector and the last sector loaded is the first one
  of cluster 2.
-/

namespace Marimba

namespace Fat

/-! ### What it can do -/

/-- All allocations succeed. -/
structure Allocated (mem : ℕ → Option ℕ) (fat : Table) : Prop where
  tbl : kmalloc mem 0 sizeofFat ≠ none
  table : kmalloc mem 1 (toSize fat.tableSize) ≠ none
  buff : kmalloc mem 2 (toSize fat.buffSize) ≠ none
  root : kmalloc mem 3 sizeofINode ≠ none

/-- The loop that loads the table is reached: the boot record is read and accepted, and the three
allocations before the loop succeed. -/
structure ReachesLoop (dev : BlockDev) (mem : ℕ → Option ℕ) (junk : ℤ → UInt8) : Prop where
  read : dev.ok 0 = true
  valid : dev.boot.Valid
  tbl : kmalloc mem 0 sizeofFat ≠ none
  table : kmalloc mem 1 (toSize (newTable dev junk).tableSize) ≠ none
  buff : kmalloc mem 2 (toSize (newTable dev junk).buffSize) ≠ none

/-- The fields of a registration that is known. -/
theorem Registration.fields {r : Registration} {ret : ℤ} {blocks : List ℕ} {fat : Table}
    {log : List Transfer} (h : r = ⟨ret, blocks, fat, log⟩) :
    r.ret = ret ∧ r.blocks = blocks ∧ r.fat = fat ∧ r.log = log := by
  subst h
  exact ⟨rfl, rfl, rfl, rfl⟩

section Cases

variable (dev : BlockDev) (mem : ℕ → Option ℕ) (junk : ℤ → UInt8)

/-- **The ways out of `FS_register_fat32`**: before anything is allocated, after an allocation that
failed, which may be the one behind the loop, and with success. -/
theorem fsRegisterFat32_cases :
    ((dev.ok 0 = false ∨ ¬dev.boot.Valid ∨ kmalloc mem 0 sizeofFat = none) ∧
      fsRegisterFat32 dev mem junk = ⟨-1, [], newTable dev junk, []⟩) ∨
    ((dev.ok 0 = true ∧ dev.boot.Valid ∧ kmalloc mem 0 sizeofFat ≠ none) ∧
      ¬Allocated mem (newTable dev junk) ∧ ∃ blocks ≠ [],
        (¬ReachesLoop dev mem junk ∧
          fsRegisterFat32 dev mem junk = ⟨-1, blocks, newTable dev junk, []⟩) ∨
        (ReachesLoop dev mem junk ∧ fsRegisterFat32 dev mem junk =
          ⟨-1, blocks, (newTable dev junk).loaded (loadTable dev (newTable dev junk)).buf,
            (loadTable dev (newTable dev junk)).log⟩)) ∨
    ((dev.ok 0 = true ∧ dev.boot.Valid ∧ kmalloc mem 0 sizeofFat ≠ none) ∧
      Allocated mem (newTable dev junk) ∧ ∃ blocks, fsRegisterFat32 dev mem junk =
        ⟨0, blocks, (newTable dev junk).loaded (loadTable dev (newTable dev junk)).buf,
          (loadTable dev (newTable dev junk)).log⟩) := by
  rw [fsRegisterFat32]
  -- nothing below depends on the table or on how it is loaded
  generalize loadTable dev (newTable dev junk) = s
  generalize hfat : newTable dev junk = fat
  have hne : ∀ {o : Option ℕ} {a : ℕ}, o = some a → o ≠ none := fun ho ↦ by simp [ho]
  cases hok : dev.ok 0 with
  | false => exact Or.inl ⟨Or.inl rfl, rfl⟩
  | true =>
    rw [if_neg (by decide)]
    by_cases hv : dev.boot.Valid
    · rw [if_neg (not_not.2 hv)]
      cases h₀ : kmalloc mem 0 sizeofFat with
      | none => exact Or.inl ⟨Or.inr (Or.inr rfl), rfl⟩
      | some tbl =>
        refine Or.inr ?_
        have hfirst : true = true ∧ dev.boot.Valid ∧ some tbl ≠ none := ⟨rfl, hv, by simp⟩
        cases h₁ : kmalloc mem 1 (toSize fat.tableSize) with
        | none =>
          exact Or.inl ⟨hfirst, fun h ↦ h.table h₁, [tbl], by simp,
            Or.inl ⟨fun h ↦ h.table (hfat ▸ h₁), rfl⟩⟩
        | some table =>
          cases h₂ : kmalloc mem 2 (toSize fat.buffSize) with
          | none =>
            exact Or.inl ⟨hfirst, fun h ↦ h.buff h₂, [tbl, table], by simp,
              Or.inl ⟨fun h ↦ h.buff (hfat ▸ h₂), rfl⟩⟩
          | some buff =>
            have hreach : ReachesLoop dev mem junk :=
              ⟨hok, hv, hne h₀, hfat ▸ hne h₁, hfat ▸ hne h₂⟩
            cases h₃ : kmalloc mem 3 sizeofINode with
            | none =>
              exact Or.inl ⟨hfirst, fun h ↦ h.root h₃, [tbl, table, buff], by simp,
                Or.inr ⟨hreach, rfl⟩⟩
            | some root =>
              exact Or.inr ⟨hfirst, ⟨hne h₀, hne h₁, hne h₂, hne h₃⟩, _, rfl⟩
    · rw [if_pos hv]
      exact Or.inl ⟨Or.inr (Or.inl hv), rfl⟩

variable {dev mem junk} in
/-- What a registration that succeeds leaves behind. -/
theorem fsRegisterFat32_of_ret (hret : (fsRegisterFat32 dev mem junk).ret = 0) :
    Allocated mem (newTable dev junk) ∧
      (fsRegisterFat32 dev mem junk).fat =
        (newTable dev junk).loaded (loadTable dev (newTable dev junk)).buf ∧
      (fsRegisterFat32 dev mem junk).log = (loadTable dev (newTable dev junk)).log := by
  have hne : (fsRegisterFat32 dev mem junk).ret ≠ -1 := hret ▸ by decide
  rcases fsRegisterFat32_cases dev mem junk with ⟨-, heq⟩ |
    ⟨-, -, blocks, -, ⟨-, heq⟩ | ⟨-, heq⟩⟩ | ⟨-, hall, blocks, heq⟩
  · exact absurd (Registration.fields heq).1 hne
  · exact absurd (Registration.fields heq).1 hne
  · exact absurd (Registration.fields heq).1 hne
  · exact ⟨hall, (Registration.fields heq).2.2⟩

/-- **The sectors that are read for the table**: those of the loop if it is reached, else none. The
number of entries is set before. -/
theorem fsRegisterFat32_log :
    (fsRegisterFat32 dev mem junk).fat.numFatEntires = (newTable dev junk).numFatEntires ∧
      ((ReachesLoop dev mem junk ∧
          (fsRegisterFat32 dev mem junk).log = (loadTable dev (newTable dev junk)).log) ∨
        (¬ReachesLoop dev mem junk ∧ (fsRegisterFat32 dev mem junk).log = [])) := by
  rcases fsRegisterFat32_cases dev mem junk with ⟨hearly, heq⟩ |
    ⟨-, -, blocks, -, ⟨hnot, heq⟩ | ⟨hreach, heq⟩⟩ | ⟨⟨hok, hv, h₀⟩, hall, blocks, heq⟩
  all_goals
    obtain ⟨-, -, hfat, hlog⟩ := Registration.fields heq
    rw [hfat, hlog]
  · refine ⟨rfl, Or.inr ⟨fun h ↦ ?_, rfl⟩⟩
    rcases hearly with h' | h' | h'
    · exact absurd (h.read.symm.trans h') (by decide)
    · exact h' h.valid
    · exact h.tbl h'
  · exact ⟨rfl, Or.inr ⟨hnot, rfl⟩⟩
  · exact ⟨loaded_numFatEntires .., Or.inl ⟨hreach, rfl⟩⟩
  · exact ⟨loaded_numFatEntires .., Or.inl ⟨⟨hok, hv, h₀, hall.table, hall.buff⟩, rfl⟩⟩

end Cases

/-! ### Errors -/

/-- Zero is returned only when all reads and allocations have succeeded, and with `-1` all blocks
have been given back. The first read is that of the boot record. -/
structure RegistersSafely (dev : BlockDev) (mem : ℕ → Option ℕ) (junk : ℤ → UInt8) : Prop where
  ok : (fsRegisterFat32 dev mem junk).ret = 0 → dev.ok 0 = true ∧
    (∀ j < (newTable dev junk).iterations.toNat, dev.ok (1 + j) = true) ∧
    Allocated mem (newTable dev junk)
  error : (fsRegisterFat32 dev mem junk).ret = -1 → (fsRegisterFat32 dev mem junk).blocks = []

/-- **When errors are handled**: the boot record cannot be read or is refused or the first
allocation fails, or else nothing fails at all. -/
theorem registersSafely_iff (dev : BlockDev) (mem : ℕ → Option ℕ) (junk : ℤ → UInt8) :
    RegistersSafely dev mem junk ↔
      dev.ok 0 = false ∨ ¬dev.boot.Valid ∨ mem 0 = none ∨
        (Allocated mem (newTable dev junk) ∧
          ∀ j < (newTable dev junk).iterations.toNat, dev.ok (1 + j) = true) := by
  have hmem : kmalloc mem 0 sizeofFat = mem 0 := rfl
  have hcases := fsRegisterFat32_cases dev mem junk
  rw [hmem] at hcases
  rcases hcases with ⟨hearly, hreg⟩ | ⟨⟨hok, hv, h₀⟩, hfail, blocks, hblocks, hreg⟩ |
    ⟨⟨hok, hv, h₀⟩, hall, blocks, hreg⟩
  · obtain ⟨hret, hblocks, -⟩ := Registration.fields hreg
    refine iff_of_true ⟨fun h ↦ ?_, fun _ ↦ hblocks⟩ ?_
    · rw [hret] at h
      exact absurd h (by decide)
    · exact hearly.imp_right (Or.imp_right Or.inl)
  · have hfields : (fsRegisterFat32 dev mem junk).ret = -1 ∧
        (fsRegisterFat32 dev mem junk).blocks = blocks := by
      rcases hreg with ⟨-, hreg⟩ | ⟨-, hreg⟩
      · exact ⟨(Registration.fields hreg).1, (Registration.fields hreg).2.1⟩
      · exact ⟨(Registration.fields hreg).1, (Registration.fields hreg).2.1⟩
    refine iff_of_false (fun h ↦ hblocks (hfields.2 ▸ h.error hfields.1)) ?_
    rintro (h | h | h | h)
    · exact absurd (hok.symm.trans h) (by decide)
    · exact h hv
    · exact h₀ h
    · exact hfail h.1
  · have hret : (fsRegisterFat32 dev mem junk).ret = 0 := by rw [hreg]
    constructor
    · exact fun h ↦ Or.inr (Or.inr (Or.inr ⟨hall, (h.ok hret).2.1⟩))
    · rintro (h | h | h | h)
      · exact absurd (hok.symm.trans h) (by decide)
      · exact absurd hv h
      · exact absurd h h₀
      · refine ⟨fun _ ↦ ⟨hok, h.2, hall⟩, fun h' ↦ ?_⟩
        rw [hret] at h'
        exact absurd h' (by decide)

/-- A boot record with these fields, in blocks of 512 bytes: one reserved sector, one sector in a
cluster and one copy of the table. -/
def bootSector (sectorsPerFat : ℕ) : ℕ → UInt8 := fun a ↦
  if a = 13 ∨ a = 14 ∨ a = 16 then 1
  else if 36 ≤ a ∧ a < 40 then UInt8.ofNat (sectorsPerFat / 2 ^ (8 * (a - 36)))
  else if a = 66 then 0x28
  else 0

/-- A disk with that boot record and zeros behind it, where these calls of `read_block` succeed. -/
def bootDisk (sectorsPerFat : ℕ) (ok : ℕ → Bool) : BlockDev :=
  ⟨512, fun blk ↦ if blk = 0 then bootSector sectorsPerFat else fun _ ↦ 0, ok⟩

/-- The allocation of the table fails: `struct FAT` stays allocated. And the only sector of the
table cannot be read: zero is returned. -/
theorem failed_registration_leaks :
    ¬RegistersSafely (bootDisk 1 fun _ ↦ true) (fun k ↦ if k = 1 then none else some k)
        (fun _ ↦ 0) ∧
      (fsRegisterFat32 (bootDisk 1 fun _ ↦ true) (fun k ↦ if k = 1 then none else some k)
        fun _ ↦ 0).blocks = [0] ∧
      ¬RegistersSafely (bootDisk 1 fun k ↦ k = 0) some (fun _ ↦ 0) ∧
      (fsRegisterFat32 (bootDisk 1 fun k ↦ k = 0) some fun _ ↦ 0).ret = 0 := by
  have hblocks : (fsRegisterFat32 (bootDisk 1 fun _ ↦ true)
      (fun k ↦ if k = 1 then none else some k) fun _ ↦ 0).blocks = [0] := by decide
  have hret : (fsRegisterFat32 (bootDisk 1 fun k ↦ k = 0) some fun _ ↦ 0).ret = 0 := by decide
  refine ⟨fun h ↦ ?_, hblocks, fun h ↦ ?_, hret⟩
  · have hnil := h.error (by decide)
    rw [hblocks] at hnil
    exact absurd hnil (by decide)
  · exact absurd ((h.ok hret).2.1 0 (by decide)) (by decide)

/-! ### Sizes -/

/-- Every sector that is read for the table is stored in the bytes asked for, and the numbers of
sectors and of entries are no larger than fits into them. -/
structure TableFits (dev : BlockDev) (mem : ℕ → Option ℕ) (junk : ℤ → UInt8) : Prop where
  inside : ∀ t ∈ (fsRegisterFat32 dev mem junk).log,
    0 ≤ t.dst ∧ t.dst + dev.blkSize ≤ toSize (newTable dev junk).tableSize
  sectors : (fsRegisterFat32 dev mem junk).log.length * dev.blkSize ≤
    toSize (newTable dev junk).tableSize
  entries : 4 * (fsRegisterFat32 dev mem junk).fat.numFatEntires ≤
    toSize (newTable dev junk).tableSize

section Sizes

variable {dev : BlockDev} {mem : ℕ → Option ℕ} {junk : ℤ → UInt8}

theorem newTable_sectSize (junk : ℤ → UInt8) (hlt : dev.blkSize < 2 ^ 31) :
    (newTable dev junk).sectSize = dev.blkSize := by
  simp only [newTable, BootRecord.toTable]
  exact toInt_of_lt (by omega) (by exact_mod_cast hlt)

/-- The size that is asked for: `int` products that are not negative are themselves, and the others
are huge. -/
theorem toSize_toInt (x : ℤ) :
    (toSize (toInt x) : ℤ) = if 0 ≤ toInt x then toInt x else toInt x + 2 ^ 64 := by
  have h₀ := le_toInt x
  have h₁ := toInt_lt x
  rw [toSize]
  split <;> omega

/-- A quotient that is rounded towards zero. -/
theorem four_mul_tdiv_le (x : ℤ) : 4 * x.tdiv 4 ≤ max x 0 := by
  rcases Int.le_total 0 x with hx | hx
  · rw [Int.tdiv_eq_ediv_of_nonneg hx]
    omega
  · have hneg : x.tdiv 4 = -((-x).tdiv 4) := by rw [Int.neg_tdiv, neg_neg]
    rw [hneg, Int.tdiv_eq_ediv_of_nonneg (by omega)]
    omega

theorem newTable_numFatEntires :
    (newTable dev junk).numFatEntires = (newTable dev junk).tableSize.tdiv 4 := by
  simp only [newTable, BootRecord.toTable, Table.tableSize, Table.iterations]

/-- The number of entries never says more than the size that was asked for. -/
theorem newTable_entries_le (dev : BlockDev) (junk : ℤ → UInt8) :
    4 * (newTable dev junk).numFatEntires ≤ toSize (newTable dev junk).tableSize := by
  have hsize := toSize_toInt ((newTable dev junk).iterations * (newTable dev junk).sectSize)
  rw [← Table.tableSize] at hsize
  rw [newTable_numFatEntires]
  have hle := four_mul_tdiv_le (newTable dev junk).tableSize
  split at hsize <;> omega

/-- The places that the loop computes do not wrap around exactly when the last one does not. -/
theorem places_nonneg_iff {p q : ℕ} (hp : 0 < p) (hq : q < 2 ^ 31) :
    (∀ j < p, 0 ≤ toInt (j * q : ℤ)) ↔ (p - 1) * q < 2 ^ 31 := by
  constructor
  · intro h
    by_contra hlt
    have hq₀ : 0 < q := Nat.pos_of_ne_zero fun h₀ ↦ by simp [h₀] at hlt
    -- the first place that is too large is not yet large enough to wrap around twice
    have hj : (2 ^ 31 - 1) / q + 1 < p := by
      have hdiv : (2 ^ 31 - 1) / q < p - 1 := (Nat.div_lt_iff_lt_mul hq₀).2 (by omega)
      omega
    have hle : (2 ^ 31 - 1) / q * q ≤ 2 ^ 31 - 1 := Nat.div_mul_le_self _ _
    have hgt : 2 ^ 31 - 1 < (2 ^ 31 - 1) / q * q + q := Nat.lt_div_mul_add hq₀
    have hlt₂ : (2 ^ 31 - 1) / q * q + q < 2 ^ 32 := by omega
    have hnonneg := h _ hj
    have hcast : ((((2 ^ 31 - 1) / q + 1 : ℕ) : ℤ) * q) = ((2 ^ 31 - 1) / q * q + q : ℕ) := by
      push_cast
      ring
    rw [hcast, toInt, Int.bmod_def] at hnonneg
    generalize (2 ^ 31 - 1) / q * q + q = v at *
    split at hnonneg <;> omega
  · intro h j hj
    have hle : j * q ≤ (p - 1) * q := Nat.mul_le_mul_right q (by omega)
    have hcast : ((j : ℤ) * q) = ((j * q : ℕ) : ℤ) := by push_cast; rfl
    rw [hcast, toInt_of_lt (by omega) (by omega)]
    exact Int.natCast_nonneg _

/-- The calls made for the table. -/
theorem loadTable_log (dev : BlockDev) (fat : Table) :
    (loadTable dev fat).log = (List.range fat.iterations.toNat).map fun j : ℕ ↦
      ⟨toSize (toInt (j + toInt (1 + fat.rsvdSects))), 4 * toInt (j * fat.sectSize.tdiv 4),
        dev.ok (1 + j)⟩ := by
  rw [loadTable, (readLoop_log ..).2, List.nil_append]
  refine List.map_congr_left fun j _ ↦ ?_
  rw [zero_add]

/-- The arithmetic of `p` sectors of `ss` bytes: all stores are in the size that is asked for, and
so is their total length. -/
theorem places_fit_iff {p : ℤ} {ss : ℕ} (hp : p < 2 ^ 31) (hlt : ss < 2 ^ 31) :
    (∀ j < p.toNat, 0 ≤ 4 * toInt (j * (ss / 4 : ℕ)) ∧
        4 * toInt (j * (ss / 4 : ℕ)) + ss ≤ toSize (toInt (p * ss))) ∧
      p.toNat * ss ≤ toSize (toInt (p * ss)) ↔
    p ≤ 0 ∨ p * ss < 2 ^ 31 ∨ (toInt (p * ss) < 0 ∧ (p - 1) * (ss / 4 : ℕ) < 2 ^ 31) := by
  rcases Int.le_total p 0 with hp₀ | hp₀
  · refine iff_of_true ⟨fun j hj ↦ ?_, ?_⟩ (Or.inl hp₀)
    · rw [Int.toNat_of_nonpos hp₀] at hj
      exact absurd hj (Nat.not_lt_zero j)
    · rw [Int.toNat_of_nonpos hp₀, Nat.zero_mul]
      exact Nat.zero_le _
  obtain ⟨n, rfl⟩ := Int.eq_ofNat_of_zero_le hp₀
  have hprod : ((n : ℤ) * ss) = ((n * ss : ℕ) : ℤ) := by push_cast; rfl
  have hsize := toSize_toInt (n * ss)
  rw [Int.toNat_natCast]
  by_cases hfit : (n : ℤ) * ss < 2 ^ 31
  · -- nothing wraps around: the sectors go one behind the other, or closer together
    have hint : toInt (n * ss) = n * ss := toInt_of_lt (by omega) hfit
    rw [hint, if_pos (by omega)] at hsize
    refine iff_of_true ⟨fun j hj ↦ ?_, ?_⟩ (Or.inr (Or.inl hfit))
    · have hplace : j * (ss / 4) * 4 ≤ j * ss := by
        rw [Nat.mul_assoc]
        exact Nat.mul_le_mul_left j (Nat.div_mul_le_self ss 4)
      have hnext : (j + 1) * ss ≤ n * ss := Nat.mul_le_mul_right ss hj
      have hcast : ((j : ℤ) * (ss / 4 : ℕ)) = ((j * (ss / 4) : ℕ) : ℤ) := by push_cast; rfl
      rw [Nat.add_mul, Nat.one_mul] at hnext
      rw [hcast, toInt_of_lt (by omega) (by omega), hint, hsize]
      omega
    · rw [hint]
      omega
  · have hn : 0 < n := Nat.pos_of_ne_zero fun h₀ ↦ hfit (by simp [h₀])
    have hlow := le_toInt (n * ss)
    have hprod' : n * ss < 2 ^ 31 * 2 ^ 31 :=
      Nat.mul_lt_mul_of_lt_of_lt (by exact_mod_cast hp) hlt
    rw [or_iff_right (by omega : ¬(n : ℤ) ≤ 0), or_iff_right hfit]
    rcases lt_or_ge (toInt (n * ss)) 0 with hneg | hnonneg
    · -- the size is larger than anything in an `int`, so all depends on the places
      have hplaces : (∀ j < n, 0 ≤ 4 * toInt (j * (ss / 4 : ℕ)) ∧
          4 * toInt (j * (ss / 4 : ℕ)) + ss ≤ toSize (toInt (n * ss))) ↔
          ∀ j < n, 0 ≤ toInt (j * (ss / 4 : ℕ)) := by
        refine forall_congr' fun j ↦ imp_congr_right fun _ ↦ ?_
        have hplace := toInt_lt (j * (ss / 4 : ℕ))
        rw [if_neg (not_le.2 hneg)] at hsize
        omega
      have hlast : ((n : ℤ) - 1) * (ss / 4 : ℕ) < 2 ^ 31 ↔ (n - 1) * (ss / 4) < 2 ^ 31 := by
        rw [← Nat.cast_one, ← Nat.cast_sub hn, ← Nat.cast_mul]
        exact_mod_cast Iff.rfl
      rw [hplaces, places_nonneg_iff hn (by omega), hlast, and_iff_right hneg]
      refine and_iff_left ?_
      rw [if_neg (not_le.2 hneg)] at hsize
      omega
    · -- the size has wrapped around to a smaller one
      have hlarge := toInt_lt (n * ss)
      rw [if_pos hnonneg] at hsize
      exact iff_of_false (fun h ↦ by have := h.2; omega) fun h ↦ by have := h.1; omega

/-- **When the table fits**: the loop is not reached; or, for the number `p` of sectors as the loop
has it, there is none, or the product with the block size fits into an `int`, or it is negative
there and the places do not wrap around. -/
theorem tableFits_iff (mem : ℕ → Option ℕ) (junk : ℤ → UInt8) (hlt : dev.blkSize < 2 ^ 31) :
    TableFits dev mem junk ↔
      let p := (newTable dev junk).iterations
      ¬ReachesLoop dev mem junk ∨ p ≤ 0 ∨ p * dev.blkSize < 2 ^ 31 ∨
        (toInt (p * dev.blkSize) < 0 ∧ (p - 1) * (dev.blkSize / 4 : ℕ) < 2 ^ 31) := by
  have hp := toInt_lt ((newTable dev junk).numFats * (newTable dev junk).sectsPerFat)
  rw [← Table.iterations] at hp
  have hss := newTable_sectSize junk hlt
  have hquot : (newTable dev junk).sectSize.tdiv 4 = (dev.blkSize / 4 : ℕ) := by
    rw [hss, Int.tdiv_eq_ediv_of_nonneg (Int.natCast_nonneg _)]
    rfl
  have htable : (newTable dev junk).tableSize =
      toInt ((newTable dev junk).iterations * dev.blkSize) := by rw [Table.tableSize, hss]
  have hload := loadTable_log dev (newTable dev junk)
  rw [hquot] at hload
  have hentries := newTable_entries_le dev junk
  dsimp only
  obtain ⟨hnum, ⟨hreach, hlog⟩ | ⟨hnot, hlog⟩⟩ := fsRegisterFat32_log dev mem junk
  · rw [or_iff_right (not_not.2 hreach), ← places_fit_iff hp hlt, ← htable]
    rw [hload] at hlog
    have hlength := congrArg List.length hlog
    rw [List.length_map, List.length_range] at hlength
    constructor
    · intro h
      refine ⟨fun j hj ↦ ?_, hlength ▸ h.sectors⟩
      have hinside := h.inside
      rw [hlog, List.forall_mem_map] at hinside
      exact hinside j (List.mem_range.2 hj)
    · rintro ⟨hinside, hsectors⟩
      refine ⟨?_, hlength.symm ▸ hsectors, hnum.symm ▸ hentries⟩
      rw [hlog, List.forall_mem_map]
      exact fun j hj ↦ hinside j (List.mem_range.1 hj)
  · refine iff_of_true ⟨fun t ht ↦ ?_, ?_, hnum.symm ▸ hentries⟩ (Or.inl hnot)
    · rw [hlog] at ht
      exact absurd ht List.not_mem_nil
    · rw [hlog, List.length_nil, Nat.zero_mul]
      exact Nat.zero_le _

theorem tableFits_iff_oneSector : TableFits (bootDisk 1 fun _ ↦ true) some fun _ ↦ 0 := by
  refine (tableFits_iff some (fun _ ↦ 0) (by decide)).2 (Or.inr (Or.inr (Or.inl ?_)))
  have hp : (newTable (bootDisk 1 fun _ ↦ true) fun _ ↦ 0).iterations = 1 := by decide
  rw [hp]
  decide

/-- A table of `0x800001` sectors: 512 bytes are allocated for it. -/
theorem table_size_wraps :
    (newTable (bootDisk 0x800001 fun _ ↦ true) fun _ ↦ 0).iterations = 0x800001 ∧
      (newTable (bootDisk 0x800001 fun _ ↦ true) fun _ ↦ 0).tableSize = 512 ∧
      ¬TableFits (bootDisk 0x800001 fun _ ↦ true) some fun _ ↦ 0 := by
  have hp : (newTable (bootDisk 0x800001 fun _ ↦ true) fun _ ↦ 0).iterations = 0x800001 := by
    decide
  have hsize : (newTable (bootDisk 0x800001 fun _ ↦ true) fun _ ↦ 0).tableSize = 512 := by
    decide
  refine ⟨hp, hsize, fun h ↦ ?_⟩
  have hsectors := h.sectors
  have hreach : ReachesLoop (bootDisk 0x800001 fun _ ↦ true) some fun _ ↦ 0 :=
    ⟨rfl, by decide, by decide, by rw [hsize]; decide, by decide⟩
  obtain ⟨-, ⟨-, hlog⟩ | ⟨hnot, -⟩⟩ :=
    fsRegisterFat32_log (bootDisk 0x800001 fun _ ↦ true) some fun _ ↦ 0
  · rw [hlog, loadTable_log, List.length_map, List.length_range, hp, hsize] at hsectors
    exact absurd hsectors (by decide)
  · exact hnot hreach

end Sizes

/-! ### Places -/

/-- The number of sectors of all copies of the table. -/
def BootRecord.fatSectors (b : BootRecord) : ℕ :=
  b.numFats * if b.bpbSectorsPerFat ≠ 0 then b.bpbSectorsPerFat else b.sectorsPerFat

/-- The bytes of the device from that sector on. -/
def region (dev : BlockDev) (first : ℕ) : ℤ → UInt8 := fun a ↦
  dev.sector (first + a.toNat / dev.blkSize) (a.toNat % dev.blkSize)

/-- The table has the entries of the region behind the reserved sectors, and no sector of it is one
of a cluster. -/
structure LoadsFat (dev : BlockDev) (fat : Table) (log : List Transfer) : Prop where
  entries : ∀ k, 0 ≤ k → k < fat.numFatEntires →
    fat.entry k = wordAt (region dev dev.boot.reservedSectors) (4 * k)
  disjoint : ∀ t ∈ log, ∀ c ≥ 2, ∀ j, 0 ≤ j → j < fat.sectsPerClust →
    (t.blk : ℤ) ≠ startSect fat c + j

section Places

variable {dev : BlockDev} {junk : ℤ → UInt8}

theorem boot_numFats_lt (dev : BlockDev) : dev.boot.numFats < 2 ^ 8 := UInt8.toNat_lt _

theorem boot_reservedSectors_lt (dev : BlockDev) : dev.boot.reservedSectors < 2 ^ 16 :=
  ByteMemory.half_lt _ _

@[simp] theorem newTable_rsvdSects :
    (newTable dev junk).rsvdSects = dev.boot.reservedSectors := by
  simp only [newTable, BootRecord.toTable]

/-- The sizes of the table, when they fit. -/
theorem newTable_iterations (junk : ℤ → UInt8) (hpos : 4 ≤ dev.blkSize)
    (hfit : dev.boot.fatSectors * dev.blkSize < 2 ^ 31) :
    (newTable dev junk).iterations = dev.boot.fatSectors ∧
      (newTable dev junk).tableSize = dev.boot.fatSectors * dev.blkSize ∧
      dev.boot.fatSectors < 2 ^ 29 := by
  have hlt : dev.boot.fatSectors < 2 ^ 29 := by
    have hle := Nat.mul_le_mul_left dev.boot.fatSectors hpos
    omega
  have hnum := boot_numFats_lt dev
  have hiter : (newTable dev junk).iterations = dev.boot.fatSectors := by
    simp only [newTable, BootRecord.toTable, Table.iterations]
    rw [BootRecord.fatSectors] at hlt ⊢
    rw [← Nat.cast_ite]
    generalize (if dev.boot.bpbSectorsPerFat ≠ 0 then dev.boot.bpbSectorsPerFat
      else dev.boot.sectorsPerFat) = spf at hlt ⊢
    rw [toInt_of_lt (x := dev.boot.numFats) (by omega) (by omega)]
    rcases Nat.eq_zero_or_pos dev.boot.numFats with h₀ | h₀
    · rw [h₀]
      simp [toInt]
    · have hle : spf ≤ dev.boot.numFats * spf := Nat.le_mul_of_pos_left spf h₀
      rw [toInt_of_lt (x := spf) (by omega) (by omega), ← Nat.cast_mul,
        toInt_of_lt (by omega) (by omega)]
  have hblk : dev.boot.fatSectors = 0 ∨ dev.blkSize < 2 ^ 31 := by
    rcases Nat.eq_zero_or_pos dev.boot.fatSectors with h₀ | h₀
    · exact Or.inl h₀
    · exact Or.inr ((Nat.le_mul_of_pos_left dev.blkSize h₀).trans_lt hfit)
  refine ⟨hiter, ?_, hlt⟩
  rw [Table.tableSize, hiter]
  rcases hblk with h₀ | hblk
  · rw [h₀]
    simp [toInt]
  · rw [newTable_sectSize _ hblk, ← Nat.cast_mul, toInt_of_lt (by omega) (by omega)]

/-- The first sector of cluster 2 is the one behind the table. -/
theorem startSect_two (hpos : 4 ≤ dev.blkSize)
    (hfit : dev.boot.fatSectors * dev.blkSize < 2 ^ 31) (table : ℤ → UInt8) :
    startSect ((newTable dev junk).loaded table) 2 =
      dev.boot.reservedSectors + dev.boot.fatSectors := by
  obtain ⟨hiter, -, hlt⟩ := newTable_iterations junk hpos hfit
  have hrsvd := boot_reservedSectors_lt dev
  have hzero : toInt (2 - 2) = 0 := toInt_of_lt (by decide) (by decide)
  rw [startSect_loaded, startSect, ← Table.iterations, hiter, newTable_rsvdSects, hzero,
    Int.zero_mul, toInt_of_lt (x := 0) (by decide) (by decide), Int.add_zero,
    toInt_of_lt (x := toInt _) (le_toInt _) (toInt_lt _), toInt_of_lt (by omega) (by omega)]

/-- The sectors that are loaded are those behind the first sector of the table, one behind the
other. -/
theorem loadTable_place (hpos : 4 ≤ dev.blkSize) (hdvd : 4 ∣ dev.blkSize)
    (hfit : dev.boot.fatSectors * dev.blkSize < 2 ^ 31) {j : ℕ} (hj : j < dev.boot.fatSectors) :
    toSize (toInt (j + toInt (1 + (newTable dev junk).rsvdSects))) =
        dev.boot.reservedSectors + 1 + j ∧
      4 * toInt (j * (newTable dev junk).sectSize.tdiv 4) = j * dev.blkSize := by
  obtain ⟨-, -, hlt⟩ := newTable_iterations junk hpos hfit
  have hrsvd := boot_reservedSectors_lt dev
  have hblk : dev.blkSize < 2 ^ 31 :=
    (Nat.le_mul_of_pos_left dev.blkSize (Nat.zero_lt_of_lt hj)).trans_lt hfit
  obtain ⟨q, hq⟩ := hdvd
  have hquot : (dev.blkSize : ℤ).tdiv 4 = q := by
    rw [Int.tdiv_eq_ediv_of_nonneg (Int.natCast_nonneg _)]
    omega
  have hplace : j * (4 * q) ≤ dev.boot.fatSectors * (4 * q) := Nat.mul_le_mul_right _ hj.le
  have hcast : ((j : ℤ) * q) = ((j * q : ℕ) : ℤ) := by push_cast; rfl
  have hassoc : j * (4 * q) = 4 * (j * q) := Nat.mul_left_comm j 4 q
  rw [hq] at hfit
  constructor
  · rw [newTable_rsvdSects, toInt_of_lt (x := 1 + _) (by omega) (by omega),
      toInt_of_lt (by omega) (by omega), toSize_of_nonneg (by omega) (by omega)]
    omega
  · rw [newTable_sectSize _ hblk, hquot, hcast, toInt_of_lt (by omega) (by omega), hq]
    push_cast
    ring

/-- **What is loaded**: the region behind the first sector of the table. -/
theorem loadTable_buf (hpos : 4 ≤ dev.blkSize) (hdvd : 4 ∣ dev.blkSize)
    (hfit : dev.boot.fatSectors * dev.blkSize < 2 ^ 31) (hok : ∀ k, dev.ok k = true) {a : ℕ}
    (ha : a < dev.boot.fatSectors * dev.blkSize) :
    (loadTable dev (newTable dev junk)).buf a = region dev (dev.boot.reservedSectors + 1) a := by
  obtain ⟨hiter, -, -⟩ := newTable_iterations junk hpos hfit
  have hk : a / dev.blkSize < dev.boot.fatSectors :=
    (Nat.div_lt_iff_lt_mul (by omega)).2 ha
  have hr : a % dev.blkSize < dev.blkSize := Nat.mod_lt a (by omega)
  have hoff : ∀ j < dev.boot.fatSectors,
      4 * toInt ((0 + (j : ℤ)) * (newTable dev junk).sectSize.tdiv 4) = j * dev.blkSize := by
    intro j hj
    rw [zero_add]
    exact (loadTable_place hpos hdvd hfit hj).2
  have hplace : (a : ℤ) = (a / dev.blkSize : ℕ) * dev.blkSize + (a % dev.blkSize : ℕ) := by
    rw [← Nat.cast_mul, ← Nat.cast_add, Nat.div_add_mod']
  rw [loadTable, readLoop_buf fun k _ ↦ hok _, hiter, Int.toNat_natCast, region,
    Int.toNat_natCast]
  conv_lhs => rw [hplace]
  rw [writeBlocks_mul_apply hk hr hoff, zero_add, (loadTable_place hpos hdvd hfit hk).1]

/-- A value is that of its four bytes. -/
theorem wordAt_congr {buf buf' : ℤ → UInt8} {a : ℕ}
    (h : ∀ r < 4, buf (a + r : ℕ) = buf' (a + r : ℕ)) : wordAt buf a = wordAt buf' a := by
  have h₀ := h 0 (by decide)
  have h₁ := h 1 (by decide)
  have h₂ := h 2 (by decide)
  have h₃ := h 3 (by decide)
  push_cast at h₀ h₁ h₂ h₃
  rw [add_zero] at h₀
  rw [wordAt, wordAt, h₀, h₁, h₂, h₃]

/-- An allocation of size zero fails. -/
theorem kmalloc_eq_none {mem : ℕ → Option ℕ} {k : ℕ} {x : ℤ} (hx : x = 0) :
    kmalloc mem k (toSize (toInt x)) = none := by
  have hzero : toSize (toInt 0) = 0 := by decide
  rw [hx, hzero]
  exact if_pos rfl

/-- When everything is allocated, the table and the clusters are not empty. -/
theorem Allocated.pos {mem : ℕ → Option ℕ} (h : Allocated mem (newTable dev junk))
    (hdvd : 4 ∣ dev.blkSize) (hfit : dev.boot.fatSectors * dev.blkSize < 2 ^ 31) :
    4 ≤ dev.blkSize ∧ 0 < dev.boot.fatSectors ∧ 0 < (newTable dev junk).sectsPerClust := by
  have hclust : 0 ≤ (newTable dev junk).sectsPerClust := by
    simp only [newTable, BootRecord.toTable]
    exact Int.natCast_nonneg _
  have hblk : 0 < dev.blkSize := by
    refine Nat.pos_of_ne_zero fun h₀ ↦ h.table (kmalloc_eq_none ?_)
    rw [newTable_sectSize _ (by omega), h₀, Nat.cast_zero, Int.mul_zero]
  have hpos : 4 ≤ dev.blkSize := Nat.le_of_dvd hblk hdvd
  obtain ⟨hiter, -, -⟩ := newTable_iterations junk hpos hfit
  refine ⟨hpos, Nat.pos_of_ne_zero fun h₀ ↦ h.table (kmalloc_eq_none ?_), ?_⟩
  · rw [hiter, h₀, Nat.cast_zero, Int.zero_mul]
  · refine lt_of_le_of_ne hclust fun h₀ ↦ h.buff (kmalloc_eq_none ?_)
    rw [← h₀, Int.zero_mul]

/-- The last sector of the table is the first one of cluster 2. -/
theorem not_loadsFat_of_allocated {mem : ℕ → Option ℕ} (h : Allocated mem (newTable dev junk))
    (hdvd : 4 ∣ dev.blkSize) (hfit : dev.boot.fatSectors * dev.blkSize < 2 ^ 31)
    (table : ℤ → UInt8) :
    ¬LoadsFat dev ((newTable dev junk).loaded table) (loadTable dev (newTable dev junk)).log := by
  obtain ⟨hpos, hsectors, hclust⟩ := h.pos hdvd hfit
  obtain ⟨hiter, -, -⟩ := newTable_iterations junk hpos hfit
  have hlast : dev.boot.fatSectors - 1 < dev.boot.fatSectors := Nat.sub_lt hsectors Nat.one_pos
  intro hloads
  have hdisjoint := hloads.disjoint
  rw [loadTable_log, List.forall_mem_map, hiter, Int.toNat_natCast] at hdisjoint
  refine hdisjoint _ (List.mem_range.2 hlast) 2 le_rfl 0 le_rfl hclust ?_
  rw [startSect_two hpos hfit]
  dsimp only
  rw [(loadTable_place hpos hdvd hfit hlast).1]
  omega

/-- **The table is loaded from the wrong place**, for every volume. What is loaded instead are the
entries of the region one sector further on. -/
theorem not_loadsFat (mem : ℕ → Option ℕ) (junk : ℤ → UInt8) (hdvd : 4 ∣ dev.blkSize)
    (hfit : dev.boot.fatSectors * dev.blkSize < 2 ^ 31) (hok : ∀ k, dev.ok k = true)
    (hret : (fsRegisterFat32 dev mem junk).ret = 0) :
    ¬LoadsFat dev (fsRegisterFat32 dev mem junk).fat (fsRegisterFat32 dev mem junk).log ∧
      (∀ k, 0 ≤ k → k < (fsRegisterFat32 dev mem junk).fat.numFatEntires →
        (fsRegisterFat32 dev mem junk).fat.entry k =
          wordAt (region dev (dev.boot.reservedSectors + 1)) (4 * k)) ∧
      (fsRegisterFat32 dev mem junk).log.map Transfer.blk =
        (List.range dev.boot.fatSectors).map (dev.boot.reservedSectors + 1 + ·) := by
  obtain ⟨hall, hfat, hlog⟩ := fsRegisterFat32_of_ret hret
  obtain ⟨hpos, -, -⟩ := hall.pos hdvd hfit
  obtain ⟨hiter, hsize, -⟩ := newTable_iterations junk hpos hfit
  rw [hfat, hlog]
  refine ⟨not_loadsFat_of_allocated hall hdvd hfit _, fun k hk₀ hk ↦ ?_, ?_⟩
  · -- the four bytes of an entry are all in the table
    obtain ⟨n, rfl⟩ := Int.eq_ofNat_of_zero_le hk₀
    rw [loaded_numFatEntires, newTable_numFatEntires, hsize, ← Nat.cast_mul,
      Int.tdiv_eq_ediv_of_nonneg (Int.natCast_nonneg _)] at hk
    rw [loaded_entry]
    exact wordAt_congr (a := 4 * n) fun r hr ↦ loadTable_buf hpos hdvd hfit hok (by omega)
  · rw [loadTable_log, List.map_map, hiter, Int.toNat_natCast]
    refine List.map_congr_left fun j hj ↦ ?_
    rw [Function.comp_apply, (loadTable_place hpos hdvd hfit (List.mem_range.1 hj)).1]

/-- A volume whose table is one sector, registered with all allocations and reads succeeding: the
sector loaded is the one behind it, the first of cluster 2. -/
theorem table_is_loaded_from_cluster :
    (fsRegisterFat32 (bootDisk 1 fun _ ↦ true) some fun _ ↦ 0).ret = 0 ∧
      (loadTable (bootDisk 1 fun _ ↦ true)
        (newTable (bootDisk 1 fun _ ↦ true) fun _ ↦ 0)).log = [⟨2, 0, true⟩] ∧
      startSect (newTable (bootDisk 1 fun _ ↦ true) fun _ ↦ 0) 2 = 2 ∧
      ¬LoadsFat (bootDisk 1 fun _ ↦ true)
        (fsRegisterFat32 (bootDisk 1 fun _ ↦ true) some fun _ ↦ 0).fat
        (fsRegisterFat32 (bootDisk 1 fun _ ↦ true) some fun _ ↦ 0).log := by
  have hret : (fsRegisterFat32 (bootDisk 1 fun _ ↦ true) some fun _ ↦ 0).ret = 0 := by decide
  refine ⟨hret, by decide, by decide, ?_⟩
  obtain ⟨hall, hfat, hlog⟩ := fsRegisterFat32_of_ret hret
  rw [hfat, hlog]
  exact not_loadsFat_of_allocated hall (by decide) (by decide) _

theorem not_loadsFat_oneSector :
    ¬LoadsFat (bootDisk 1 fun _ ↦ true)
        (fsRegisterFat32 (bootDisk 1 fun _ ↦ true) some fun _ ↦ 0).fat
        (fsRegisterFat32 (bootDisk 1 fun _ ↦ true) some fun _ ↦ 0).log ∧
      (fsRegisterFat32 (bootDisk 1 fun _ ↦ true) some fun _ ↦ 0).log.map Transfer.blk = [2] := by
  have hfit : (bootDisk 1 fun _ ↦ true).boot.fatSectors * (bootDisk 1 fun _ ↦ true).blkSize <
      2 ^ 31 := by decide
  have hall := not_loadsFat some (fun _ ↦ 0) (by decide) hfit (fun _ ↦ rfl) (by decide)
  exact ⟨hall.1, hall.2.2.trans (by decide)⟩

end Places

end Fat

end Marimba
