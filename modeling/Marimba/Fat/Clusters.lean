import Marimba.Fat.Volume
import Mathlib.Data.List.Chain
import Mathlib.Tactic.Linarith

/-!
# Clusters of a FAT32 volume

The table has one entry for each cluster, which holds the number of the next one in its low 28 bits.
`fat32_next_cluster` does not look at the entry of the cluster it is given: it searches for an entry
that *holds* the number of that cluster, and returns the one behind it. `clustersRight_iff` says
when this comes out the same. In a table without cycles it never does as soon as one cluster is in
use, for no entry holds the number of the first cluster of a file (`Consistent.all_free`).

`fat32_read_clust` uses one variable for the sector, which starts at the first sector of the
cluster, and for the index into the buffer, which ends at the number of sectors in a cluster. So it
reads anything only when the cluster starts in front of that sector, and all of it only when it
starts at sector 0 (`readClustRight_iff`).
-/

namespace Marimba

namespace Fat

/-! ### Following a chain -/

/-- The part of an entry that is the number of a cluster. -/
def low28 (v : ℕ) : ℕ := v % 2 ^ 28

/-- The number of a cluster of the volume. -/
def IsCluster (fat : Table) (c : ℤ) : Prop := 2 ≤ c ∧ c < fat.numFatEntires

instance (fat : Table) (c : ℤ) : Decidable (IsCluster fat c) := inferInstanceAs (Decidable (_ ∧ _))

/-- `fat32_next_cluster` returns what the entry of the cluster holds, and reads inside the table. -/
structure NextRight (fat : Table) (c : ℤ) : Prop where
  value : (fat32NextCluster fat c).1 = low28 (fat.entry c)
  reads : ∀ i ∈ (fat32NextCluster fat c).2, 0 ≤ i ∧ i < fat.numFatEntires

/-- The entry holds the number of the cluster, and none in front of it does. -/
structure FirstHolder (fat : Table) (c i : ℤ) : Prop where
  nonneg : 0 ≤ i
  holds : fat.entry i = c
  first : ∀ j, 0 ≤ j → j < i → (fat.entry j : ℤ) ≠ c

/-- Either no entry holds the number of the cluster and its own entry is zero, or the first one that
does is followed by one with the value of its own entry. -/
def Follows (fat : Table) (c : ℤ) : Prop :=
  (∀ i, 0 ≤ i → i < fat.numFatEntires → (fat.entry i : ℤ) ≠ c) ∧ low28 (fat.entry c) = 0 ∨
    ∃ i, FirstHolder fat c i ∧ i + 1 < fat.numFatEntires ∧
      fat.entry (i + 1) = low28 (fat.entry c)

/-- The chain that starts with `c` is stored in the table: each entry holds the number of the next
cluster, and the last one no number of a cluster. -/
def StoredChain (fat : Table) (c : ℤ) : List ℤ → Prop
  | [] => IsCluster fat c ∧ ¬IsCluster fat (low28 (fat.entry c))
  | d :: ds => IsCluster fat c ∧ (low28 (fat.entry c) : ℤ) = d ∧ StoredChain fat d ds

/-- The clusters visited from `c` on, at most `n` of them. -/
def visit (fat : Table) : ℕ → ℤ → List ℤ
  | 0, _ => []
  | n + 1, c => if IsCluster fat c then c :: visit fat n (fat32NextCluster fat c).1 else []

/-- `fat32_next_cluster` is right for all clusters, and all stored chains are visited in order. -/
structure ClustersRight (fat : Table) : Prop where
  next : ∀ c, IsCluster fat c → NextRight fat c
  chain : ∀ c cs, StoredChain fat c cs → ∀ n, cs.length + 1 < n → visit fat n c = c :: cs

/-- The table of a volume: its numbers have 28 bits, the first two entries are no entries of
clusters, and following the others there are no cycles. -/
structure Consistent (fat : Table) : Prop where
  small : fat.numFatEntires ≤ 2 ^ 28
  reserved : ∀ c, IsCluster fat c → (fat.entry 0 : ℤ) ≠ c ∧ (fat.entry 1 : ℤ) ≠ c
  rank : ∃ rank : ℤ → ℕ, ∀ c d, IsCluster fat c → IsCluster fat d →
    (low28 (fat.entry c) : ℤ) = d → rank c < rank d

section Next

variable {fat : Table} {c : ℤ}

/-- The search, by induction on the number of entries left: no entry is found and all have been
read, or the first one is found and read with the one behind it. -/
theorem nextClusterFrom_spec (fat : Table) (c : ℤ) (n : ℕ) (i : ℤ) :
    ((∀ j, i ≤ j → j < i + n → fat.entry j ≠ (c % 2 ^ 32).toNat) ∧
      (nextClusterFrom fat c n i).1 = 0 ∧
      ∀ j ∈ (nextClusterFrom fat c n i).2, i ≤ j ∧ j < i + n) ∨
    ∃ k, i ≤ k ∧ k < i + n ∧ fat.entry k = (c % 2 ^ 32).toNat ∧
      (∀ j, i ≤ j → j < k → fat.entry j ≠ (c % 2 ^ 32).toNat) ∧
      (nextClusterFrom fat c n i).1 = fat.entry (k + 1) ∧
      k + 1 ∈ (nextClusterFrom fat c n i).2 ∧
      ∀ j ∈ (nextClusterFrom fat c n i).2, i ≤ j ∧ j ≤ k + 1 := by
  induction n generalizing i with
  | zero =>
    refine Or.inl ⟨fun j h₁ h₂ ↦ ?_, rfl, fun j hj ↦ absurd hj List.not_mem_nil⟩
    rw [Nat.cast_zero, add_zero] at h₂
    exact absurd h₂ (not_lt.2 h₁)
  | succ n ih =>
    rw [nextClusterFrom]
    by_cases heq : fat.entry i = (c % 2 ^ 32).toNat
    · rw [if_pos heq]
      refine Or.inr ⟨i, le_rfl, by omega, heq, fun j h₁ h₂ ↦ absurd h₂ (not_lt.2 h₁), rfl, ?_, ?_⟩
      · exact List.mem_cons_of_mem i List.mem_cons_self
      · intro j hj
        simp only [List.mem_cons, List.not_mem_nil, or_false] at hj
        omega
    · rw [if_neg heq]
      rcases ih (i + 1) with ⟨hnone, hzero, hreads⟩ | ⟨k, h₁, h₂, hk, hfirst, hval, hmem, hreads⟩
      · refine Or.inl ⟨fun j h₁ h₂ ↦ ?_, hzero, List.forall_mem_cons.2 ⟨by omega, fun j hj ↦ ?_⟩⟩
        · by_cases hj : j = i
          · rwa [hj]
          · exact hnone j (by omega) (by omega)
        · have hj := hreads j hj
          omega
      · refine Or.inr ⟨k, by omega, by omega, hk, fun j hj₁ hj₂ ↦ ?_, hval,
          List.mem_cons_of_mem i hmem, List.forall_mem_cons.2 ⟨by omega, fun j hj ↦ ?_⟩⟩
        · by_cases hj : j = i
          · rwa [hj]
          · exact hfirst j (by omega) hj₂
        · have hj := hreads j hj
          omega

/-- **When `fat32_next_cluster` is right** about one cluster. -/
theorem nextRight_iff (hnum : fat.numFatEntires < 2 ^ 31) (hc : IsCluster fat c) :
    NextRight fat c ↔ Follows fat c := by
  obtain ⟨h₂, hlt⟩ := hc
  have hmod : c % 2 ^ 32 = c := Int.emod_eq_of_lt (by omega) (by omega)
  have hholds : ∀ j, fat.entry j = (c % 2 ^ 32).toNat ↔ (fat.entry j : ℤ) = c := by
    intro j
    rw [hmod]
    omega
  have hnat : ((fat.numFatEntires.toNat : ℕ) : ℤ) = fat.numFatEntires := by omega
  have hspec := nextClusterFrom_spec fat c fat.numFatEntires.toNat 0
  simp only [hholds, hnat, zero_add, ne_eq] at hspec
  rcases hspec with ⟨hnone, hzero, hreads⟩ | ⟨k, h₀, hk, hkc, hfirst, hval, hmem, hreads⟩
  · constructor
    · exact fun h ↦ Or.inl ⟨hnone, h.value.symm.trans hzero⟩
    · rintro (⟨-, hfree⟩ | ⟨i, hi, hnext, -⟩)
      · exact ⟨hzero.trans hfree.symm, hreads⟩
      · exact absurd hi.holds (hnone i hi.nonneg (by omega))
  · constructor
    · intro h
      exact Or.inr ⟨k, ⟨h₀, hkc, hfirst⟩, (h.reads _ hmem).2, hval.symm.trans h.value⟩
    · rintro (⟨hnone, -⟩ | ⟨i, hi, hnext, heq⟩)
      · exact absurd hkc (hnone k h₀ hk)
      · -- both are the first entry that holds the number
        obtain rfl : i = k := by
          by_contra hne
          rcases lt_or_gt_of_ne hne with hlt' | hlt'
          · exact hfirst i hi.nonneg hlt' hi.holds
          · exact hi.first k h₀ hlt' hkc
        exact ⟨hval.trans heq, fun j hj ↦ ⟨(hreads j hj).1, by have := (hreads j hj).2; omega⟩⟩

/-- A stored chain is visited when each step is right. -/
theorem visit_of_nextRight (h : ∀ c, IsCluster fat c → NextRight fat c) {cs : List ℤ}
    (hchain : StoredChain fat c cs) {n : ℕ} (hn : cs.length + 1 < n) :
    visit fat n c = c :: cs := by
  induction cs generalizing c n with
  | nil =>
    obtain ⟨n, rfl⟩ := Nat.exists_eq_add_of_lt hn
    obtain ⟨hc, hend⟩ := hchain
    rw [List.length_nil, show 0 + 1 + n + 1 = n + 1 + 1 by omega, visit, if_pos hc, visit,
      (h c hc).value, if_neg hend]
  | cons d ds ih =>
    obtain ⟨n, rfl⟩ := Nat.exists_eq_succ_of_ne_zero (Nat.ne_zero_of_lt hn)
    obtain ⟨hc, hd, hchain⟩ := hchain
    rw [visit, if_pos hc, (h c hc).value, hd, ih hchain (Nat.lt_of_succ_lt_succ hn)]

/-- **In a consistent table `fat32_next_cluster` is wrong about the first cluster of a file.** -/
theorem Consistent.all_free (hfat : Consistent fat) (h : ∀ c, IsCluster fat c → Follows fat c) :
    ∀ c, IsCluster fat c → low28 (fat.entry c) = 0 := by
  obtain ⟨rank, hrank⟩ := hfat.rank
  -- by induction on the place in the chain: a cluster in use has one in front of it
  have hall : ∀ n c, rank c = n → IsCluster fat c → low28 (fat.entry c) = 0 := by
    intro n
    induction n using Nat.strong_induction_on with
    | _ n ih =>
      intro c hn hc
      rcases h c hc with ⟨-, hfree⟩ | ⟨i, hi, hnext, -⟩
      · exact hfree
      · have hsmall := hfat.small
        have hreserved := hfat.reserved c hc
        have hi₀ : i ≠ 0 := fun heq ↦ hreserved.1 (heq ▸ hi.holds)
        have hi₁ : i ≠ 1 := fun heq ↦ hreserved.2 (heq ▸ hi.holds)
        have hnonneg := hi.nonneg
        have hcluster : IsCluster fat i := ⟨by omega, by omega⟩
        have hholds := hi.holds
        have hlow : (low28 (fat.entry i) : ℤ) = c := by
          rw [low28, Nat.mod_eq_of_lt (by have := hc.2; omega), hholds]
        have hzero := ih (rank i) (hn ▸ hrank i c hcluster hc hlow) i rfl hcluster
        have hc₂ := hc.1
        omega
  exact fun c hc ↦ hall (rank c) c rfl hc

/-- When all clusters are free, no entry holds the number of one. -/
theorem Consistent.follows_of_free (hfat : Consistent fat)
    (hfree : ∀ c, IsCluster fat c → low28 (fat.entry c) = 0) (hc : IsCluster fat c) :
    Follows fat c := by
  refine Or.inl ⟨fun i h₀ hi hholds ↦ ?_, hfree c hc⟩
  have hsmall := hfat.small
  have hreserved := hfat.reserved c hc
  have hi₀ : i ≠ 0 := fun heq ↦ hreserved.1 (heq ▸ hholds)
  have hi₁ : i ≠ 1 := fun heq ↦ hreserved.2 (heq ▸ hholds)
  have hlow := hfree i ⟨by omega, hi⟩
  obtain ⟨h₂, hlt⟩ := hc
  rw [low28, Nat.mod_eq_of_lt (by omega)] at hlow
  omega

/-- **When `fat32_next_cluster` is right.** In a consistent table that is when all clusters are
free. -/
theorem clustersRight_iff (hnum : fat.numFatEntires < 2 ^ 31) :
    (∀ c, IsCluster fat c → (NextRight fat c ↔ Follows fat c)) ∧
      (ClustersRight fat ↔ ∀ c, IsCluster fat c → Follows fat c) ∧
      (Consistent fat →
        (ClustersRight fat ↔ ∀ c, IsCluster fat c → low28 (fat.entry c) = 0)) := by
  have hcell : ∀ c, IsCluster fat c → (NextRight fat c ↔ Follows fat c) :=
    fun c hc ↦ nextRight_iff hnum hc
  have htable : ClustersRight fat ↔ ∀ c, IsCluster fat c → Follows fat c := by
    refine ⟨fun h c hc ↦ (hcell c hc).1 (h.next c hc), fun h ↦ ?_⟩
    have hnext : ∀ c, IsCluster fat c → NextRight fat c := fun c hc ↦ (hcell c hc).2 (h c hc)
    exact ⟨hnext, fun c cs hchain n hn ↦ visit_of_nextRight hnext hchain hn⟩
  exact ⟨hcell, htable, fun hfat ↦ ⟨fun h ↦ hfat.all_free (htable.1 h),
    fun hfree ↦ htable.2 fun c hc ↦ hfat.follows_of_free hfree hc⟩⟩

/-- A table with these entries, of a volume with one sector of one byte in a cluster. -/
def tableOf (entries : List ℕ) : Table where
  sectsPerClust := 1
  rsvdSects := 0
  rootClust := 2
  numFats := 0
  totSects := 1
  sectsPerFat := 0
  sectSize := 1
  numFatEntires := entries.length
  table a := if a < 0 then 0
    else UInt8.ofNat (entries.getD (a.toNat / 4) 0 / 2 ^ (8 * (a.toNat % 4)))
  clustBuff _ := 0

/-- A file in clusters 2 and 3. -/
def twoClusters : Table := tableOf [0x0ffffff8, 0x0fffffff, 3, 0x0fffffff]

theorem next_of_first_cluster_is_lost :
    StoredChain twoClusters 2 [3] ∧ (fat32NextCluster twoClusters 2).1 = 0 ∧
      visit twoClusters 3 2 = [2] ∧ ¬ClustersRight twoClusters := by
  have hchain : StoredChain twoClusters 2 [3] := by
    refine ⟨by decide, by decide, by decide, by decide⟩
  refine ⟨hchain, by decide, by decide, fun h ↦ ?_⟩
  have hvisit := h.chain 2 [3] hchain 3 (by decide)
  exact absurd hvisit (by decide)

/-- In a volume without files nothing is wrong. -/
theorem clustersRight_iff_empty : ClustersRight (tableOf [0x0ffffff8, 0x0fffffff, 0, 0]) := by
  refine (clustersRight_iff (by decide)).2.1.2 fun c hc ↦ Or.inl ⟨fun i h₀ hi hholds ↦ ?_, ?_⟩
  · obtain ⟨h₂, hlt⟩ := hc
    have hi : i < 4 := hi
    have hlt : c < 4 := hlt
    interval_cases i <;> interval_cases c <;> exact absurd hholds (by decide)
  · obtain ⟨h₂, hlt⟩ := hc
    have hlt : c < 4 := hlt
    interval_cases c <;> decide

end Next

/-! ### Reading a cluster -/

/-- The first sector of a cluster, without overflow. -/
def firstSect (fat : Table) (c : ℤ) : ℤ :=
  fat.rsvdSects + fat.numFats * fat.sectsPerFat + (c - 2) * fat.sectsPerClust

/-- The geometry is that of a volume on the device and all products fit, for this cluster. -/
structure Geometry (dev : BlockDev) (fat : Table) (c : ℤ) : Prop where
  sectsPerClust_pos : 0 < fat.sectsPerClust
  blkSize_pos : 0 < dev.blkSize
  sectSize : fat.sectSize = dev.blkSize
  rsvdSects : 0 ≤ fat.rsvdSects
  numFats : 0 ≤ fat.numFats
  sectsPerFat : 0 ≤ fat.sectsPerFat
  cluster : 2 ≤ c
  firstSect_lt : firstSect fat c < 2 ^ 31
  buffer_lt : fat.sectsPerClust * fat.sectSize < 2 ^ 31

/-- `fat32_read_clust` reads the sectors of the cluster in order, each to its place in the buffer;
what it stores is in the buffer, and if no read fails the buffer has the cluster in the end. -/
structure ReadClustRight (dev : BlockDev) (fat : Table) (c : ℤ) (calls : ℕ) : Prop where
  reads : (fat32ReadClust dev fat c calls).log.map (fun t ↦ (t.blk, t.dst)) =
    (List.range fat.sectsPerClust.toNat).map fun j : ℕ ↦
      ((firstSect fat c + j).toNat, (j * fat.sectSize : ℤ))
  inside : ∀ t ∈ (fat32ReadClust dev fat c calls).log,
    0 ≤ t.dst ∧ t.dst + dev.blkSize ≤ fat.sectsPerClust * fat.sectSize
  holds : (∀ k, dev.ok k = true) → ∀ j r : ℕ, j < fat.sectsPerClust → r < dev.blkSize →
    (fat32ReadClust dev fat c calls).buf (j * fat.sectSize + r) =
      dev.sector (firstSect fat c + j).toNat r

section ReadClust

variable {dev : BlockDev} {fat : Table} {c : ℤ} {calls : ℕ}

/-- The parts of the first sector, which are not negative. -/
theorem Geometry.parts (hg : Geometry dev fat c) :
    0 ≤ fat.numFats * fat.sectsPerFat ∧ 0 ≤ (c - 2) * fat.sectsPerClust ∧
      (c - 2) ≤ (c - 2) * fat.sectsPerClust := by
  have hc : 0 ≤ c - 2 := Int.sub_nonneg_of_le hg.cluster
  refine ⟨mul_nonneg hg.numFats hg.sectsPerFat, mul_nonneg hc hg.sectsPerClust_pos.le, ?_⟩
  exact le_mul_of_one_le_right hc hg.sectsPerClust_pos

theorem Geometry.startSect_eq (hg : Geometry dev fat c) : startSect fat c = firstSect fat c := by
  obtain ⟨h₁, h₂, h₃⟩ := hg.parts
  have hlt := hg.firstSect_lt
  have hrsvd := hg.rsvdSects
  have hc := hg.cluster
  rw [firstSect] at hlt
  rw [startSect, toInt_of_lt (x := fat.numFats * fat.sectsPerFat) (by omega) (by omega),
    toInt_of_lt (x := fat.rsvdSects + _) (by omega) (by omega),
    toInt_of_lt (x := c - 2) (by omega) (by omega),
    toInt_of_lt (x := (c - 2) * fat.sectsPerClust) (by omega) (by omega),
    toInt_of_lt (by omega) (by omega), firstSect]

/-- The number of sectors read: those from the first one of the cluster to the number of sectors in
a cluster. -/
theorem fat32ReadClust_log_length (hg : Geometry dev fat c) :
    (fat32ReadClust dev fat c calls).log.length =
      (fat.sectsPerClust - firstSect fat c).toNat := by
  rw [fat32ReadClust, (readLoop_log ..).2, hg.startSect_eq, List.nil_append, List.length_map,
    List.length_range]

theorem Geometry.sectsPerClust_lt (hg : Geometry dev fat c) : fat.sectsPerClust < 2 ^ 31 := by
  have hpos : 1 ≤ fat.sectSize := hg.sectSize ▸ Int.natCast_pos.2 hg.blkSize_pos
  exact (le_mul_of_one_le_right hg.sectsPerClust_pos.le hpos).trans_lt hg.buffer_lt

/-- A place in the buffer. -/
theorem Geometry.toInt_dst (hg : Geometry dev fat c) {j : ℕ} (hj : j < fat.sectsPerClust) :
    toInt (j * fat.sectSize) = j * fat.sectSize ∧ 0 ≤ j * fat.sectSize ∧
      j * fat.sectSize + dev.blkSize ≤ fat.sectsPerClust * fat.sectSize := by
  have hpos : 0 < fat.sectSize := hg.sectSize ▸ Int.natCast_pos.2 hg.blkSize_pos
  have hle : ((j : ℤ) + 1) * fat.sectSize ≤ fat.sectsPerClust * fat.sectSize :=
    mul_le_mul_of_nonneg_right hj hpos.le
  have hlt := hg.buffer_lt
  have hnonneg : 0 ≤ (j : ℤ) * fat.sectSize := mul_nonneg (Int.natCast_nonneg j) hpos.le
  rw [add_mul, one_mul] at hle
  refine ⟨toInt_of_lt (by omega) (by omega), hnonneg, ?_⟩
  rw [← hg.sectSize]
  exact hle

/-- The first sector of a cluster is sector 0. -/
theorem Geometry.firstSect_eq_zero_iff (hg : Geometry dev fat c) :
    firstSect fat c = 0 ↔
      fat.rsvdSects = 0 ∧ fat.numFats * fat.sectsPerFat = 0 ∧ c = 2 := by
  obtain ⟨h₁, h₂, h₃⟩ := hg.parts
  have hrsvd := hg.rsvdSects
  have hc := hg.cluster
  rw [firstSect]
  constructor
  · intro h
    exact ⟨by omega, by omega, by omega⟩
  · rintro ⟨hrsvd₀, hfats₀, rfl⟩
    rw [hrsvd₀, hfats₀]
    norm_num

/-- A cluster that starts at sector 0 is read as it should be: the sector and the index into the
buffer are the same number. -/
theorem readClustRight_of_zero (hg : Geometry dev fat c) (h : firstSect fat c = 0) :
    ReadClustRight dev fat c calls := by
  have hloop : fat32ReadClust dev fat c calls =
      readLoop dev id (fun i ↦ toInt (i * fat.sectSize)) fat.sectsPerClust.toNat 0
        ⟨fat.clustBuff, calls, []⟩ := by
    rw [fat32ReadClust, hg.startSect_eq, h, sub_zero]
  have hlog := (readLoop_log dev id (fun i ↦ toInt (i * fat.sectSize)) fat.sectsPerClust.toNat 0
    ⟨fat.clustBuff, calls, []⟩).2
  rw [← hloop, List.nil_append] at hlog
  have hlt := hg.sectsPerClust_lt
  have hrange : ∀ j ∈ List.range fat.sectsPerClust.toNat, (j : ℤ) < fat.sectsPerClust :=
    fun j hj ↦ by have := List.mem_range.1 hj; omega
  have hblk : ∀ j : ℕ, j < fat.sectsPerClust → toSize (id (0 + (j : ℤ))) = j := by
    intro j hj
    rw [zero_add, id_eq, toSize_natCast (by omega)]
  have hdst : ∀ j : ℕ, j < fat.sectsPerClust →
      toInt ((0 + (j : ℤ)) * fat.sectSize) = j * fat.sectSize := by
    intro j hj
    rw [zero_add, (hg.toInt_dst hj).1]
  refine ⟨?_, ?_, fun hok j r hj hr ↦ ?_⟩
  · rw [hlog, List.map_map]
    refine List.map_congr_left fun j hj ↦ ?_
    rw [Function.comp_apply, hblk j (hrange j hj), hdst j (hrange j hj), h, zero_add,
      Int.toNat_natCast]
  · rw [hlog, List.forall_mem_map]
    intro j hj
    rw [hdst j (hrange j hj)]
    exact (hg.toInt_dst (hrange j hj)).2
  · have hoff : ∀ k < fat.sectsPerClust.toNat,
        toInt ((0 + (k : ℤ)) * fat.sectSize) = k * dev.blkSize := fun k hk ↦ by
      rw [hdst k (by omega), hg.sectSize]
    have hplace : (j : ℤ) * fat.sectSize + r = j * dev.blkSize + r := by rw [hg.sectSize]
    have hlt : j < fat.sectsPerClust.toNat := by omega
    rw [hloop, readLoop_buf fun k _ ↦ hok _, hplace, writeBlocks_mul_apply hlt hr hoff,
      hblk j hj, h, zero_add, Int.toNat_natCast]

/-- **When `fat32_read_clust` is right**: only for a cluster that starts at sector 0, which is the
first one of a volume without reserved sectors and without a table. -/
theorem readClustRight_iff (hg : Geometry dev fat c) :
    ReadClustRight dev fat c calls ↔
      fat.rsvdSects = 0 ∧ fat.numFats * fat.sectsPerFat = 0 ∧ c = 2 := by
  rw [← hg.firstSect_eq_zero_iff]
  refine ⟨fun h ↦ ?_, readClustRight_of_zero hg⟩
  -- fewer sectors are read when the cluster starts later
  have hlen := congrArg List.length h.reads
  rw [List.length_map, List.length_map, List.length_range, fat32ReadClust_log_length hg] at hlen
  obtain ⟨h₁, h₂, -⟩ := hg.parts
  have hrsvd := hg.rsvdSects
  have hpos := hg.sectsPerClust_pos
  have hnonneg : 0 ≤ firstSect fat c := by
    rw [firstSect]
    omega
  omega

/-- A device with blocks of one byte, which holds the number of the block. -/
def byteDev : BlockDev := ⟨1, fun blk _ ↦ UInt8.ofNat blk, fun _ ↦ true⟩

/-- A volume with one reserved sector and one for the table, with clusters of two sectors. -/
def smallVolume : Table := { tableOf [] with
  sectsPerClust := 2, rsvdSects := 1, numFats := 1, sectsPerFat := 1 }

theorem geometry_smallVolume : Geometry byteDev smallVolume 2 :=
  ⟨by decide, by decide, by decide, by decide, by decide, by decide, by decide, by decide,
    by decide⟩

/-- Nothing is read of its first cluster, which begins at sector 2. -/
theorem cluster_is_not_read :
    Geometry byteDev smallVolume 2 ∧ firstSect smallVolume 2 = 2 ∧
      (fat32ReadClust byteDev smallVolume 2 0).log = [] ∧
      ¬ReadClustRight byteDev smallVolume 2 0 := by
  have hlog : (fat32ReadClust byteDev smallVolume 2 0).log = [] := by decide
  refine ⟨geometry_smallVolume, by decide, hlog, fun h ↦ ?_⟩
  have hreads := h.reads
  rw [hlog] at hreads
  exact absurd hreads (by decide)

theorem readClustRight_iff_noTable : ReadClustRight byteDev (tableOf []) 2 0 :=
  (readClustRight_iff ⟨by decide, by decide, by decide, by decide, by decide, by decide, by decide,
    by decide, by decide⟩).2 ⟨rfl, rfl, rfl⟩

end ReadClust

end Fat

end Marimba
