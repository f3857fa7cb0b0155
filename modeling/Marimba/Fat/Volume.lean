import Marimba.Foundations.Buffers
import Marimba.Foundations.ByteMemory

/-!
# FAT32 volumes (`fs/fat.c`)

`FS_register_fat32` reads the boot record of a partition, takes the geometry of the volume from it,
allocates `struct FAT` with a table and a buffer for one cluster, and loads the table. The two
functions that use the structure afterwards follow a chain of clusters (`fat32_next_cluster`) and
read one cluster (`fat32_read_clust`).

**Integers.** All sizes are kept in an `int`. `toInt` is put where the source converts to it or
computes in it, with overflow wrapping around, and `toSize` where an `int` goes to a parameter of
type `size_t` or `sect_t`.

**The device.** Whether a call of `read_block` succeeds is given by the number of the call. One
that succeeds stores one block at the place it is given, which may be anywhere relative to the
buffer. Each call is kept in a log. `kmalloc` is given by the number of the call as well, and
returns null for size zero.
-/

namespace Marimba

namespace Fat

/-- The value as an `int`. -/
def toInt (x : ℤ) : ℤ := x.bmod (2 ^ 32)

/-- The value as a `size_t` or a `sect_t`. -/
def toSize (x : ℤ) : ℕ := (x % 2 ^ 64).toNat

/-! ### Data -/

/-- The fields of `struct FAT32` that are read. -/
structure BootRecord where
  sectorsPerCluster : ℕ
  reservedSectors : ℕ
  numFats : ℕ
  totSectors : ℕ
  bpbSectorsPerFat : ℕ
  largeSectorCount : ℕ
  sectorsPerFat : ℕ
  rootClusterNumber : ℕ
  signature : ℕ
  deriving DecidableEq, Repr

/-- The packed structure in the bytes of a sector. -/
def BootRecord.ofMemory (m : ByteMemory) : BootRecord where
  sectorsPerCluster := (m.byte 13).toNat
  reservedSectors := m.half 14
  numFats := (m.byte 16).toNat
  totSectors := m.half 19
  bpbSectorsPerFat := m.half 22
  largeSectorCount := m.word 32
  sectorsPerFat := m.word 36
  rootClusterNumber := m.word 44
  signature := (m.byte 66).toNat

/-- `struct FAT`, with the contents of its two buffers by offset. -/
structure Table where
  sectsPerClust : ℤ
  rsvdSects : ℤ
  rootClust : ℤ
  numFats : ℤ
  totSects : ℤ
  sectsPerFat : ℤ
  sectSize : ℤ
  numFatEntires : ℤ
  table : ℤ → UInt8
  clustBuff : ℤ → UInt8

/-- The four bytes at that offset, as one value. -/
def wordAt (buf : ℤ → UInt8) (a : ℤ) : ℕ :=
  (buf a).toNat + 2 ^ 8 * (buf (a + 1)).toNat + 2 ^ 16 * (buf (a + 2)).toNat +
    2 ^ 24 * (buf (a + 3)).toNat

/-- `fat->table[i]`. -/
def Table.entry (fat : Table) (i : ℤ) : ℕ := wordAt fat.table (4 * i)

/-- A block device: its `blk_size`, the contents of its sectors, and which calls of `read_block`
succeed. -/
structure BlockDev where
  blkSize : ℕ
  sector : ℕ → ℕ → UInt8
  ok : ℕ → Bool

/-- A call of `read_block`, with the place in the buffer that it is given. -/
structure Transfer where
  blk : ℕ
  dst : ℤ
  ok : Bool
  deriving DecidableEq, Repr

/-- A buffer that is being filled: the number of calls of `read_block` made by then, and those made
for it, in order. -/
structure Loading where
  buf : ℤ → UInt8
  calls : ℕ
  log : List Transfer

/-! ### The code -/

/-- `read_block` of the device. -/
def Loading.readBlock (dev : BlockDev) (s : Loading) (blk : ℕ) (dst : ℤ) : Loading where
  buf := if dev.ok s.calls then writeBlock s.buf dst dev.blkSize (dev.sector blk) else s.buf
  calls := s.calls + 1
  log := s.log ++ [⟨blk, dst, dev.ok s.calls⟩]

/-- A loop of `n` calls of `read_block`, with the index from `i` on. -/
def readLoop (dev : BlockDev) (sector dst : ℤ → ℤ) : (n : ℕ) → (i : ℤ) → Loading → Loading
  | 0, _, s => s
  | n + 1, i, s =>
    readLoop dev sector dst n (i + 1) (s.readBlock dev (toSize (sector i)) (dst i))

/-- The loop of `fat32_next_cluster`, of `n` entries from `i` on: the result, and the indices that
are read. -/
def nextClusterFrom (fat : Table) (clust : ℤ) : (n : ℕ) → (i : ℤ) → ℕ × List ℤ
  | 0, _ => (0, [])
  | n + 1, i =>
    if fat.entry i = (clust % 2 ^ 32).toNat then (fat.entry (i + 1), [i, i + 1])
    else
      let r := nextClusterFrom fat clust n (i + 1)
      (r.1, i :: r.2)

/-- `fat32_next_cluster`. -/
def fat32NextCluster (fat : Table) (clust : ℤ) : ℕ × List ℤ :=
  nextClusterFrom fat clust fat.numFatEntires.toNat 0

/-- The variable `start_sect` of `fat32_read_clust`. -/
def startSect (fat : Table) (clust : ℤ) : ℤ :=
  toInt (toInt (fat.rsvdSects + toInt (fat.numFats * fat.sectsPerFat)) +
    toInt (toInt (clust - 2) * fat.sectsPerClust))

/-- `fat32_read_clust`; `calls` is the number of earlier calls of `read_block`. -/
def fat32ReadClust (dev : BlockDev) (fat : Table) (clust : ℤ) (calls : ℕ) : Loading :=
  readLoop dev id (fun i ↦ toInt (i * fat.sectSize))
    (fat.sectsPerClust - startSect fat clust).toNat (startSect fat clust)
    ⟨fat.clustBuff, calls, []⟩

/-- `kmalloc`, of call number `k`. -/
def kmalloc (mem : ℕ → Option ℕ) (k size : ℕ) : Option ℕ := if size = 0 then none else mem k

/-- `sizeof(struct FAT)`. -/
def sizeofFat : ℕ := 56

/-- `sizeof(struct INode)`. -/
def sizeofINode : ℕ := 56

/-- The signature in the boot record is valid. -/
def BootRecord.Valid (b : BootRecord) : Prop := b.signature = 0x28 ∨ b.signature = 0x29

instance (b : BootRecord) : Decidable b.Valid := inferInstanceAs (Decidable (_ ∨ _))

/-- `tbl` as `FS_register_fat32` fills it in. `junk` is what stands in new memory. -/
def BootRecord.toTable (b : BootRecord) (blkSize : ℕ) (junk : ℤ → UInt8) : Table :=
  let numFats := toInt b.numFats
  let sectsPerFat := toInt (if b.bpbSectorsPerFat ≠ 0 then b.bpbSectorsPerFat else b.sectorsPerFat)
  { sectsPerClust := b.sectorsPerCluster
    rsvdSects := b.reservedSectors
    rootClust := toInt b.rootClusterNumber
    numFats
    totSects := toInt (if b.totSectors ≠ 0 then b.totSectors else b.largeSectorCount)
    sectsPerFat
    sectSize := toInt blkSize
    numFatEntires := (toInt (toInt (numFats * sectsPerFat) * toInt blkSize)).tdiv 4
    table := junk
    clustBuff := junk }

/-- The number of iterations of the loop that loads the table. -/
def Table.iterations (fat : Table) : ℤ := toInt (fat.numFats * fat.sectsPerFat)

/-- The size of the allocation for the table, before it is converted to `size_t`. -/
def Table.tableSize (fat : Table) : ℤ := toInt (fat.iterations * fat.sectSize)

/-- The size of the allocation for the cluster buffer, before it is converted to `size_t`. -/
def Table.buffSize (fat : Table) : ℤ := toInt (fat.sectsPerClust * fat.sectSize)

/-- The loop that loads the table. The boot record has been read before. -/
def loadTable (dev : BlockDev) (fat : Table) : Loading :=
  readLoop dev (fun i ↦ toInt (i + toInt (1 + fat.rsvdSects)))
    (fun i ↦ 4 * toInt (i * fat.sectSize.tdiv 4)) fat.iterations.toNat 0 ⟨fat.table, 1, []⟩

/-- The table, once it is loaded. -/
def Table.loaded (fat : Table) (table : ℤ → UInt8) : Table := { fat with table }

/-- What `FS_register_fat32` leaves behind: its result, the blocks it has allocated and not given
back, and the table with the reads made for it. -/
structure Registration where
  ret : ℤ
  blocks : List ℕ
  fat : Table
  log : List Transfer

/-- The boot record of a device. -/
def BlockDev.boot (dev : BlockDev) : BootRecord := .ofMemory ⟨dev.sector 0, [], []⟩

/-- `tbl` before the table is loaded. -/
def newTable (dev : BlockDev) (junk : ℤ → UInt8) : Table := dev.boot.toTable dev.blkSize junk

/-- `FS_register_fat32`. -/
def fsRegisterFat32 (dev : BlockDev) (mem : ℕ → Option ℕ) (junk : ℤ → UInt8) : Registration :=
  let fat := newTable dev junk
  if dev.ok 0 = false then ⟨-1, [], fat, []⟩
  else if ¬dev.boot.Valid then ⟨-1, [], fat, []⟩
  else
    match kmalloc mem 0 sizeofFat with
    | none => ⟨-1, [], fat, []⟩
    | some tbl =>
      match kmalloc mem 1 (toSize fat.tableSize) with
      | none => ⟨-1, [tbl], fat, []⟩
      | some table =>
        match kmalloc mem 2 (toSize fat.buffSize) with
        | none => ⟨-1, [tbl, table], fat, []⟩
        | some buff =>
          let s := loadTable dev fat
          match kmalloc mem 3 sizeofINode with
          | none => ⟨-1, [tbl, table, buff], fat.loaded s.buf, s.log⟩
          | some root => ⟨0, [tbl, table, buff, root], fat.loaded s.buf, s.log⟩

/-! ### The loaded table -/

@[simp] theorem loaded_entry (fat : Table) (table : ℤ → UInt8) (k : ℤ) :
    (fat.loaded table).entry k = wordAt table (4 * k) := rfl

@[simp] theorem loaded_numFatEntires (fat : Table) (table : ℤ → UInt8) :
    (fat.loaded table).numFatEntires = fat.numFatEntires := rfl

@[simp] theorem startSect_loaded (fat : Table) (table : ℤ → UInt8) (c : ℤ) :
    startSect (fat.loaded table) c = startSect fat c := rfl

/-! ### Integers that fit -/

theorem toInt_of_lt {x : ℤ} (h₀ : -2 ^ 31 ≤ x) (h : x < 2 ^ 31) : toInt x = x := by
  rw [toInt, Int.bmod_def]
  split <;> omega

theorem toInt_lt (x : ℤ) : toInt x < 2 ^ 31 := by
  rw [toInt, Int.bmod_def]
  split <;> omega

theorem le_toInt (x : ℤ) : -2 ^ 31 ≤ toInt x := by
  rw [toInt, Int.bmod_def]
  split <;> omega

theorem toSize_of_nonneg {x : ℤ} (h₀ : 0 ≤ x) (h : x < 2 ^ 64) : toSize x = x.toNat := by
  rw [toSize, Int.emod_eq_of_lt h₀ h]

theorem toSize_natCast {n : ℕ} (h : n < 2 ^ 64) : toSize n = n :=
  toSize_of_nonneg (Int.natCast_nonneg n) (by exact_mod_cast h)

/-! ### A loop of reads -/

section Loop

variable {dev : BlockDev} {sector dst : ℤ → ℤ}

/-- The last call of a loop. -/
theorem readLoop_succ (n : ℕ) (i : ℤ) (s : Loading) :
    readLoop dev sector dst (n + 1) i s =
      (readLoop dev sector dst n i s).readBlock dev (toSize (sector (i + n))) (dst (i + n)) := by
  induction n generalizing i s with
  | zero =>
    rw [readLoop, readLoop, readLoop, Nat.cast_zero, add_zero]
  | succ n ih =>
    have hi : i + 1 + (n : ℤ) = i + ((n + 1 : ℕ) : ℤ) := by omega
    rw [readLoop, ih, readLoop, hi]

/-- **The calls a loop makes**, one for each value of the index. -/
theorem readLoop_log (dev : BlockDev) (sector dst : ℤ → ℤ) (n : ℕ) (i : ℤ) (s : Loading) :
    (readLoop dev sector dst n i s).calls = s.calls + n ∧
      (readLoop dev sector dst n i s).log = s.log ++ (List.range n).map fun j : ℕ ↦
        ⟨toSize (sector (i + j)), dst (i + j), dev.ok (s.calls + j)⟩ := by
  induction n with
  | zero => exact ⟨rfl, (List.append_nil _).symm⟩
  | succ n ih =>
    rw [readLoop_succ, Loading.readBlock, ih.1, ih.2, List.range_succ, List.map_append,
      List.append_assoc]
    exact ⟨rfl, rfl⟩

/-- What is in the buffer when all calls succeed. -/
theorem readLoop_buf {n : ℕ} {i : ℤ} {s : Loading} (hok : ∀ j < n, dev.ok (s.calls + j) = true) :
    (readLoop dev sector dst n i s).buf = writeBlocks s.buf (fun j ↦ dst (i + j)) dev.blkSize
      (fun j ↦ dev.sector (toSize (sector (i + j)))) n := by
  induction n with
  | zero => rfl
  | succ n ih =>
    rw [readLoop_succ, Loading.readBlock, (readLoop_log dev sector dst n i s).1,
      if_pos (hok n (Nat.lt_succ_self n)), ih fun j hj ↦ hok j (Nat.lt_succ_of_lt hj)]
    rfl

end Loop

end Fat

end Marimba
