import Marimba.Boot.Multiboot
import Marimba.Memory.ExclusionRuns
import Marimba.Memory.FreeListNodes

/-!
# From the boot loader to the frames

What `BOOT_parse_multiboot` and `MMU_init` are for: the frames that `MMU_alloc_frame` hands out are
pages of the available memory that the boot loader has listed, and no page of the kernel, whose
sections it has listed as well (`boot_frames`).

The tags come in any order, with any others between them. Each parser writes its own part of
`struct PhysicalMMap` and leaves the other one (`parseMmap_spec_sorted`, `parseElf_spec`), so
that behind the tag loop both parts are there, whichever came first (`tagLoop_invariant`). What
becomes of the memory map in `MMU_init` is right under the conditions of its loops, which are those
on the map; and from there on the pages are a pool.
-/

namespace Marimba

/-! ### The segments -/

/-- **A memory map that `MMU_init` gets right**: its loops end and stay in their arrays, and they
leave whole segments with the right pages, at least one. -/
structure PhysicalMMap.Bootable (map : PhysicalMMap) : Prop where
  inRange : map.InRange
  kernel : map.kernelSects ≠ []
  ends : LoopEnds (unlinkEmpty true map.ramRanges) map.kernelRanges
  carvable : map.Carvable
  whole : map.LeavesWhole
  free : ∃ f, map.FreePage f

section Segments

variable {map : PhysicalMMap} (hs : map.Sorted) (hb : map.Bootable)

include hs hb in
/-- The first half of `MMU_init` returns. -/
theorem initSegments_isSome (k : Machine) : ∃ fuel k', MMU.initSegments fuel map k = some k' := by
  obtain ⟨f, hfree⟩ := hb.free
  have hram : map.ramSects ≠ [] := by
    obtain ⟨r, hr, -⟩ := hfree.inRam
    exact List.ne_nil_of_mem hr
  obtain ⟨ex, hex⟩ := mmuComputeExcluded_isSome hb.kernel
  obtain ⟨s, hstart⟩ := excludeStart_isSome (m := MMUState.zero) hram
  obtain ⟨fuel, s', hrun⟩ := (excludeStart_run_iff hs hb.inRange hex hstart).2 hb.ends
  obtain ⟨-, kept, js, hat, hkept, hkernel, -, hk⟩ := excludeStart_at hs hb.inRange hex hstart
  obtain ⟨idxs, n, hc⟩ := ExcludeState.run_spec hat hrun
  have hcarved := hc.carved
  rw [hkept, hkernel] at hcarved
  have hord : RamSegments (unlinkEmpty true map.ramRanges) :=
    (ramSegments_ramRanges hs hb.inRange hb.carvable.reaches).sublist (unlinkEmpty_sublist true _)
  -- the page that is free is still in the list, and so the list has a head
  obtain ⟨-, hcov, hnot⟩ := (freePage_iff hs hb.inRange hb.carvable.reaches).1 hfree
  obtain ⟨seg, hseg, -⟩ := (hcarved.carving hord hk).covered_of hord hk hcov hnot
  obtain ⟨i, hi, -⟩ := List.mem_map.1 hseg
  have hhead : s'.mmu.freeSegmentHead ≠ none := by
    have hfree := hc.free
    rw [List.nil_append] at hfree
    cases idxs with
    | nil => exact absurd hi List.not_mem_nil
    | cons j idxs =>
      rw [hfree.1]
      exact Option.some_ne_none j
  obtain ⟨j, hj⟩ := Option.ne_none_iff_exists'.1 hhead
  refine ⟨fuel, ?_⟩
  simp only [MMU.initSegments, mmuComputeFreeSegments_eq, hex, hstart, hrun, Option.bind_eq_bind,
    Option.bind_some, Option.pure_def, ignorePageZero, hj, Option.map_some]
  exact ⟨_, rfl⟩

include hs hb in
/-- **The free segments at boot**: they are well formed, and their pages are those that should be
free. -/
theorem initSegments_segments {fuel : ℕ} {k k' : Machine}
    (hboot : MMU.initSegments fuel map k = some k') :
    ∃ idxs, SegmentsWellFormed k'.mmu idxs ∧
      ∀ f, f ∈ k'.mmu.segmentPages idxs ↔ map.FreePage f := by
  obtain ⟨idxs, out, n, hfree, hsegs, hcarved, -, -⟩ := initSegments_spec hboot
  have hreach := hb.carvable.reaches
  have hpages (p : ℕ) : p ∈ k'.mmu.segmentPages idxs ↔ map.FreePage p := by
    rw [← (pages_iff_separable hs hb.inRange hcarved hreach
      ((second_iff hs hb.inRange hreach).1 hb.carvable.second)).2 hb.carvable.separable p, ← hsegs,
      segmentsAt, MMUState.segmentPages]
    simp only [List.mem_flatMap, List.mem_map, exists_exists_and_eq_and]
  have hwhole : WholeSegments (segmentsAt k'.mmu.freeSegments idxs) := by
    rw [hsegs]
    exact (wholeSegments_iff hs hb.inRange hcarved hreach
      ((adjacent_iff hb.inRange hreach).1 hb.whole.adjacent)).2 hb.whole.exact
  have hmem {i : ℕ} (hi : i ∈ idxs) :
      (k'.mmu.freeSegments i).s ∈ segmentsAt k'.mmu.freeSegments idxs := List.mem_map_of_mem hi
  refine ⟨idxs, ⟨hfree, fun i hi ↦ ?_, ?_⟩, hpages⟩
  · have hal := hwhole.base_aligned _ (hmem hi)
    have hlen := hwhole.len_aligned _ (hmem hi)
    have hpos := hwhole.len_pos _ (hmem hi)
    refine ⟨hal, ?_, hlen, hpos, (hwhole.end_lt _ (hmem hi)).le⟩
    -- the first page of the segment should be free, and so it is not page zero
    have hfirst : (k'.mmu.freeSegments i).s.base ∈ (k'.mmu.freeSegments i).s.pages := by
      refine Segment.mem_pages.2 ⟨0, ?_, rfl⟩
      simp only [pageSize] at *
      omega
    exact ((hpages _).1 (List.mem_flatMap.2 ⟨i, hi, hfirst⟩)).frame.2
  · exact (List.pairwise_map.1 hwhole.pairwise).imp Or.inl

end Segments

/-! ### The frames -/

/-- **What the clients of the frame allocator have**, in any run from a machine whose segments have
these pages: each of them at most once, and nothing else; and none is left when they have all. -/
theorem runTrace_frames {k : Machine} {idxs : List ℕ} (hseg : SegmentsWellFormed k.mmu idxs)
    (hq : k.mmu.freePageHead = 0) {cmds : List FrameCmd} {outs : List (Option ℕ)} {s : FrameSystem}
    (hrun : runTrace FrameSystem.step ⟨k, []⟩ cmds = some (outs, s)) :
    s.held.Nodup ∧ (∀ f ∈ s.held, f ∈ k.mmu.segmentPages idxs) ∧
      ((MMU.allocFrame s.machine).1 = 0 ↔ ∀ f ∈ k.mmu.segmentPages idxs, f ∈ s.held) := by
  have hinit : FrameSystem.Refines (k.mmu.segmentPages idxs) ⟨k, []⟩
      ⟨k.mmu.segmentPages idxs, []⟩ :=
    ⟨⟨_, [], hseg.freeFrames hq, (List.append_nil _).symm⟩, rfl, by rw [List.append_nil]⟩
  have hframe : ∀ f ∈ k.mmu.segmentPages idxs, IsFrame f := fun f hf ↦ hseg.isFrame hf
  have hsim := runTrace_eq_of_simulation
    (fun s p c h ↦ FrameSystem.refines_step hframe hseg.segmentPages_nodup c h) cmds hinit
  rw [hrun] at hsim
  generalize runTrace (fun p c ↦ FifoPool.step p (FrameCmd.toPoolCmd c)) _ cmds = o at hsim
  obtain ⟨⟨_, p⟩, rfl⟩ : ∃ r, o = some r := by
    rcases hsim with _ | _
    exact ⟨_, rfl⟩
  obtain ⟨-, hp⟩ := Option.rel_some_some.1 hsim
  obtain ⟨⟨inSegments, queued, hrep, hqueue⟩, hheld, hperm⟩ := hp
  rw [hheld] at hperm
  have hnd := List.nodup_append.1 (hperm.nodup_iff.2 hseg.segmentPages_nodup)
  refine ⟨hnd.2.1, fun f hf ↦ hperm.subset (List.mem_append_right _ hf), ?_⟩
  cases hfree : p.queue with
  | nil =>
    obtain ⟨rfl, rfl⟩ := List.append_eq_nil_iff.1 (hqueue.symm.trans hfree)
    rw [hfree, List.nil_append] at hperm
    exact iff_of_true (by rw [MMU.allocFrame_empty hrep]) fun f hf ↦ hperm.symm.subset hf
  | cons f free =>
    obtain ⟨hret, -⟩ := MMU.allocFrame_cons hrep (hqueue.symm.trans hfree)
    have hmem : f ∈ p.queue := hfree ▸ List.mem_cons_self
    have hf : f ∈ k.mmu.segmentPages idxs := hperm.subset (List.mem_append_left _ hmem)
    rw [hret]
    exact iff_of_false (hframe f hf).2.ne' fun hall ↦ hnd.2.2 f hmem f (hall f hf) rfl

namespace Boot

/-! ### `struct PhysicalMMap` -/

/-- The `struct PhysicalMMap` at an address. -/
def physicalMMap (m : WordMemory) (dest : ℕ) : PhysicalMMap where
  ramSects := mmapEntries m (ramSects dest) (m.uint (numMmap dest))
  kernelSects := (namedSections m (kernelSects dest) (m.uint (numKernelSects dest))).map fun s ↦
    ⟨s.base, s.length⟩

/-- The RAM sections are the given ones. -/
structure RamRight (dest : ℕ) (av : List MMapEntry) (m : WordMemory) : Prop where
  num : m.uint (numMmap dest) = av.length
  entries : mmapEntries m (ramSects dest) av.length = av

/-- The kernel sections are the given ones, in the order of their base. -/
structure KernelRight (dest : ℕ) (used : List NamedSection) (m : WordMemory) : Prop where
  num : m.uint (numKernelSects dest) = used.length
  perm : (namedSections m (kernelSects dest) used.length).Perm used
  sorted : (namedSections m (kernelSects dest) used.length).Pairwise fun s t ↦ s.base ≤ t.base

variable {b : ByteMemory} {dest tag n curr : ℕ} {m m' : WordMemory}

/-- The first part of the structure. -/
theorem RamRight.congr {av : List MMapEntry} (h : RamRight dest av m)
    (hle : av.length ≤ maxMmapEntries)
    (hm : ∀ a, dest + 8 ≤ a → a + 8 ≤ dest + 528 → m' a = m a) : RamRight dest av m' := by
  simp only [maxMmapEntries] at hle
  refine ⟨?_, ?_⟩
  · rw [WordMemory.uint, hm _ (by simp only [numMmap]; omega) (by simp only [numMmap]; omega)]
    exact h.num
  · refine Eq.trans (List.map_congr_left fun k hk ↦ ?_) h.entries
    have hk := List.mem_range.1 hk
    simp only [WordMemory.mmapEntry, ramSects, mmapEntrySize]
    rw [hm _ (by omega) (by omega), hm _ (by omega) (by omega)]

/-- The second part. -/
theorem KernelRight.congr {used : List NamedSection} (h : KernelRight dest used m)
    (hm : ∀ a, dest + 528 ≤ a → m' a = m a) : KernelRight dest used m' := by
  have hsections : namedSections m' (kernelSects dest) used.length =
      namedSections m (kernelSects dest) used.length := by
    refine List.map_congr_left fun k _ ↦ ?_
    simp only [WordMemory.namedSection, kernelSects]
    rw [hm _ (by omega), hm _ (by omega), hm _ (by omega)]
  refine ⟨?_, hsections ▸ h.perm, hsections ▸ h.sorted⟩
  rw [WordMemory.uint, hm (numKernelSects dest) le_rfl]
  exact h.num

/-! ### `parse_mmap` -/

/-- The loop writes the RAM sections only. -/
theorem fillMmap_frame (b : ByteMemory) (n : ℕ) {curr j : ℕ} (hnum : m.uint (numMmap dest) = j)
    (hle : j ≤ maxMmapEntries) {a : ℕ} (ha : dest + 528 ≤ a) :
    (fillMmap b dest n curr m).2 a = m a := by
  induction n generalizing curr m j with
  | zero => rfl
  | succ n ih =>
    rw [fillMmap]
    split
    · exact ih hnum hle
    · dsimp only
      rw [hnum]
      split
      · rfl
      · next hne =>
        have hlt : j + 1 ≤ maxMmapEntries := Nat.lt_of_le_of_ne hle hne
        simp only [maxMmapEntries] at hle hne
        rw [ih (WordMemory.uint_setUint_self (by omega)) hlt,
          WordMemory.setUint, Function.update_of_ne (by simp only [numMmap]; omega),
          WordMemory.setMmapEntry,
          Function.update_of_ne (by simp only [ramSects, mmapEntrySize]; omega),
          Function.update_of_ne (by simp only [ramSects, mmapEntrySize]; omega)]

/-- **A memory map in order is taken over**, and nothing behind the RAM sections is written. -/
theorem parseMmap_spec_sorted (h : IsMmapTag b tag multibootMmapEntrySize n)
    (hsorted : (available b tag multibootMmapEntrySize n).Pairwise fun r r' ↦ r.base ≤ r'.base)
    (hle : (available b tag multibootMmapEntrySize n).length ≤ maxMmapEntries) (dest : ℕ)
    (m : WordMemory) :
    ∃ m', parseMmap b tag dest m = some (.ok m') ∧
      RamRight dest (available b tag multibootMmapEntrySize n) m' ∧
      ∀ a, dest + 528 ≤ a → m' a = m a := by
  have hpos : entrySize b tag ≠ 0 := by
    rw [h.entrySize]
    decide
  obtain ⟨hfull, hfill⟩ := fill_spec b tag dest m
  rw [records_eq h] at hfull hfill
  obtain ⟨hnum, hentries⟩ := hfill hle
  have hframe (a : ℕ) (ha : dest + 528 ≤ a) : (fill b tag dest m).2 a = m a := by
    rw [fill, fillMmap_frame b _ (WordMemory.uint_setUint_self (by decide)) (Nat.zero_le _) ha,
      WordMemory.setUint, Function.update_of_ne (by simp only [numMmap]; omega)]
  obtain ⟨m', calls, hrun⟩ := sort_isSome mmapEntryCmp mmapEntrySwp (fill b tag dest m).2
    (ramSects dest) ((fill b tag dest m).2.uint (numMmap dest)) mmapEntrySize
  have hcmp : CmpContract (fun r r' : MMapEntry ↦ r.base ≤ r'.base) WordMemory.mmapEntry
      (ramSects dest) ((fill b tag dest m).2.uint (numMmap dest)) mmapEntrySize mmapEntryCmp :=
    CmpContract.baseCmp MMapEntry.base WordMemory.mmapEntry fun _ _ ↦ rfl
  -- the entries are in order, and so none are exchanged
  have hcalls : calls = [] := by
    rw [sort_calls_eq_nil_iff hcmp (by decide) hrun, hnum]
    refine Eq.mpr (congrArg (List.Pairwise _) hentries) hsorted
  have hsame : m' = (fill b tag dest m).2 := by
    rw [(sort_calls hrun).2, hcalls, List.foldl_nil]
  have hparse : parseMmap b tag dest m = some (.ok (setTotalRam dest m')) := by
    rw [parseMmap, if_neg hpos, if_pos (hfull.2 hle)]
    exact congrArg (Option.map _) hrun
  rw [hsame] at hparse
  refine ⟨_, hparse, ?_, fun a ha ↦ ?_⟩
  · refine RamRight.congr ⟨hnum, hentries⟩ hle fun a ha _ ↦ ?_
    rw [setTotalRam, Function.update_of_ne (by simp only [totalRam]; omega)]
  · rw [setTotalRam, Function.update_of_ne (by simp only [totalRam]; omega)]
    exact hframe a ha

/-! ### `parse_elf` -/

/-- The sections of `n` headers that are in use. -/
def usedSections (b : ByteMemory) (strTable : ℕ) : (n curr : ℕ) → List NamedSection
  | 0, _ => []
  | n + 1, curr =>
    if sectionType b curr = 0 then usedSections b strTable n (curr + elfSectionHeaderSize)
    else sectionOf b strTable curr :: usedSections b strTable n (curr + elfSectionHeaderSize)

theorem namedSections_succ (m : WordMemory) (arr len : ℕ) :
    namedSections m arr (len + 1) =
      namedSections m arr len ++ [m.namedSection (arr + kernelSectionSize * len)] := by
  rw [namedSections, elements, List.range_succ, List.map_append]
  rfl

/-- One section is put behind those that are there. -/
theorem namedSections_put (s : NamedSection) {acc : List NamedSection}
    (hnum : m.uint (numKernelSects dest) = acc.length)
    (hacc : namedSections m (kernelSects dest) acc.length = acc) (hlt : acc.length < 2 ^ 32 - 1) :
    let m' := (m.setNamedSection (kernelSects dest + kernelSectionSize * acc.length) s).setUint
      (numKernelSects dest) (acc.length + 1)
    m'.uint (numKernelSects dest) = (acc ++ [s]).length ∧
      namedSections m' (kernelSects dest) (acc ++ [s]).length = acc ++ [s] := by
  intro m'
  have hlen : (acc ++ [s]).length = acc.length + 1 := List.length_append
  have hsection (k : ℕ) (m : WordMemory) (v : ℕ) :
      (m.setUint (numKernelSects dest) v).namedSection
          (kernelSects dest + kernelSectionSize * k) =
        m.namedSection (kernelSects dest + kernelSectionSize * k) := by
    have hafter : numKernelSects dest < kernelSects dest + kernelSectionSize * k := by
      simp only [numKernelSects, kernelSects]
      omega
    rw [WordMemory.namedSection, WordMemory.setUint, Function.update_of_ne (by omega),
      Function.update_of_ne (by omega), Function.update_of_ne (by omega), WordMemory.namedSection]
  rw [hlen]
  refine ⟨WordMemory.uint_setUint_self (by omega), ?_⟩
  rw [namedSections_succ, hsection, namedSection_setNamedSection]
  congr 1
  refine Eq.trans (List.map_congr_left fun k hk ↦ ?_) hacc
  have hk : kernelSectionSize * (k + 1) ≤ kernelSectionSize * acc.length :=
    Nat.mul_le_mul_left _ (List.mem_range.1 hk)
  rw [hsection, namedSection_setNamedSection_of_disjoint]
  rw [Nat.mul_succ] at hk
  omega

/-- **What the loop of `ELF_parse_section_headers` does**, from `curr` on and with `acc` in the
array. -/
theorem fillSections_spec (b : ByteMemory) (strTable n curr : ℕ) {acc : List NamedSection}
    (hnum : m.uint (numKernelSects dest) = acc.length)
    (hacc : namedSections m (kernelSects dest) acc.length = acc)
    (hlt : acc.length + n < 2 ^ 32) :
    (fillSections b strTable dest n curr m).uint (numKernelSects dest) =
        (acc ++ usedSections b strTable n curr).length ∧
      namedSections (fillSections b strTable dest n curr m) (kernelSects dest)
        (acc ++ usedSections b strTable n curr).length = acc ++ usedSections b strTable n curr ∧
      ∀ a, a + 8 ≤ dest + 528 → fillSections b strTable dest n curr m a = m a := by
  induction n generalizing curr m acc with
  | zero =>
    rw [usedSections, List.append_nil]
    exact ⟨hnum, hacc, fun _ _ ↦ rfl⟩
  | succ n ih =>
    rw [usedSections, fillSections]
    split
    · exact ih _ hnum hacc (by omega)
    · dsimp only
      rw [hnum, List.append_cons]
      obtain ⟨hnum', hacc'⟩ := namedSections_put (sectionOf b strTable curr) hnum hacc
        (by omega)
      obtain ⟨h₁, h₂, hframe⟩ := ih (curr + elfSectionHeaderSize) hnum' hacc'
        (by rw [List.length_append, List.length_singleton]; omega)
      refine ⟨h₁, h₂, fun a ha ↦ (hframe a ha).trans ?_⟩
      rw [WordMemory.setUint, Function.update_of_ne (by simp only [numKernelSects]; omega)]
      exact setNamedSection_of_outside (Or.inl (by simp only [kernelSects]; omega))

/-- The sections of an ELF tag. -/
def elfSections (b : ByteMemory) (tag : ℕ) : List NamedSection :=
  usedSections b (b.dword (tag + 20 + elfSectionHeaderSize * b.word (tag + 16) + 16))
    (elfNum b tag) (tag + 20)

/-- **The sections of the kernel are taken over**, and nothing in front of them is written. -/
theorem parseElf_spec (hle : elfNum b tag ≤ maxKernelSections) (dest : ℕ) (m : WordMemory) :
    ∃ m', parseElf b tag dest m = some (.ok m') ∧ KernelRight dest (elfSections b tag) m' ∧
      ∀ a, a + 8 ≤ dest + 528 → m' a = m a := by
  simp only [maxKernelSections] at hle
  have hzero : (m.setUint (numKernelSects dest) 0).uint (numKernelSects dest) =
      ([] : List NamedSection).length := WordMemory.uint_setUint_self (by decide)
  obtain ⟨hnum, hsections, hframe⟩ := fillSections_spec b
    (b.dword (tag + 20 + elfSectionHeaderSize * b.word (tag + 16) + 16)) (elfNum b tag)
    (tag + 20) hzero rfl (by simp only [List.length_nil]; omega)
  rw [List.nil_append, ← elfSections] at hnum hsections
  rw [parseElf, elfParseSectionHeaders, if_neg (by simp only [maxKernelSections]; omega)]
  dsimp only
  generalize fillSections b _ dest (elfNum b tag) (tag + 20) _ = m₁ at *
  obtain ⟨m', calls, hrun⟩ := sort_isSome kernelMmapCmp kernelMmapSwp m₁ (kernelSects dest)
    (m₁.uint (numKernelSects dest)) kernelSectionSize
  have hcmp : CmpContract (fun s t : NamedSection ↦ s.base ≤ t.base) WordMemory.namedSection
      (kernelSects dest) (m₁.uint (numKernelSects dest)) kernelSectionSize kernelMmapCmp :=
    CmpContract.baseCmp NamedSection.base WordMemory.namedSection fun _ _ ↦ rfl
  obtain ⟨hperm, hpair⟩ := sort_sorted hcmp SwpContract.kernelMmapSwp hrun
  obtain ⟨hcalls, hm'⟩ := sort_calls hrun
  have houtside (a : ℕ) (ha : a + 8 ≤ kernelSects dest) : m' a = m₁ a := by
    rw [hm']
    exact foldl_kernelMmapSwp_of_outside hcalls (Or.inl ha)
  rw [hnum] at hperm hpair
  refine ⟨m', by rw [sortKernelSectionArray, hrun]; rfl, ⟨?_, ?_, hpair⟩, fun a ha ↦ ?_⟩
  · rw [WordMemory.uint, houtside _ (by simp only [numKernelSects, kernelSects]; omega)]
    exact hnum
  · exact hperm.trans (List.Perm.of_eq hsections)
  · rw [houtside a (by simp only [kernelSects]; omega), hframe a ha, WordMemory.setUint,
      Function.update_of_ne (by simp only [numKernelSects]; omega)]

/-! ### The tag loop -/

theorem parseTag_end (h : tagType b tag = multibootTagTypeEnd) :
    parseTag b tag dest m = some (.ok m) := by
  have h6 : tagType b tag ≠ multibootTagTypeMmap := by
    rw [h]
    decide
  have h9 : tagType b tag ≠ multibootTagTypeElfSections := by
    rw [h]
    decide
  rw [parseTag, if_neg h6, if_neg h9]

/-- **The invariant rule for the tag loop.** By induction on the tags, of which `done` are behind
the cursor. -/
theorem tagLoop_invariant {stop : ℕ} {tags : List ℕ} (h : TagsAt b stop tag tags)
    (hstop : stop < tag + 2 ^ 32) (hword : stop < wordSize) {I : List ℕ → WordMemory → Prop}
    (hI : ∀ done t m, t ∈ tags → I done m →
      ∃ m', parseTag b t dest m = some (.ok m') ∧ I (done ++ [t]) m')
    {done : List ℕ} (hm : I done m) :
    ∃ r m', Walked.result r = .ok m' ∧ I (done ++ tags) m' ∧
      ∀ fuel, tags.length ≤ fuel → tagLoop b dest fuel tag m = some r := by
  induction h generalizing m done with
  | @last tag hend hsize hin =>
    obtain ⟨m', hparse, hm'⟩ := hI done tag m (List.mem_singleton_self tag) hm
    rw [parseTag_end hend] at hparse
    obtain rfl : m = m' := Parsed.ok.inj (Option.some.inj hparse)
    refine ⟨⟨.ok m, [tag], headerReads b tag false⟩, m, rfl, hm', fun fuel hfuel ↦ ?_⟩
    obtain ⟨fuel, rfl⟩ := Nat.exists_eq_succ_of_ne_zero (Nat.ne_zero_of_lt hfuel)
    exact if_pos hend
  | @next tag tags hend hsize hin hrest ih =>
    obtain ⟨m₁, hparse, hm₁⟩ := hI done tag m List.mem_cons_self hm
    obtain ⟨r, m', hr, hm', hloop⟩ := ih (by omega)
      (fun done t m ht ↦ hI done t m (List.mem_cons_of_mem tag ht)) hm₁
    refine ⟨⟨r.result, tag :: r.visited, headerReads b tag true ++ r.reads⟩, m', hr, ?_,
      fun fuel hfuel ↦ ?_⟩
    · rwa [List.append_assoc, List.singleton_append] at hm'
    · obtain ⟨fuel, rfl⟩ := Nat.exists_eq_succ_of_ne_zero (Nat.ne_zero_of_lt hfuel)
      rw [tagLoop, if_neg hend, hparse, Option.bind_some, nextTag_eq hrest.le hstop hword]
      exact congrArg (Option.map _) (hloop fuel (Nat.le_of_succ_le_succ hfuel))

/-- The information of a boot loader: a well-formed block, with one memory map, in order and with
entries of the size that the kernel expects, and one list of sections. -/
structure BootInfo (b : ByteMemory) (mbAddr : ℕ) (tags : List ℕ) (mmap elf n : ℕ) : Prop where
  block : IsBlock b mbAddr tags
  mmap_mem : mmap ∈ tags
  isMmap : IsMmapTag b mmap multibootMmapEntrySize n
  mmap_unique : ∀ t ∈ tags, tagType b t = multibootTagTypeMmap → t = mmap
  elf_mem : elf ∈ tags
  isElf : tagType b elf = multibootTagTypeElfSections
  elf_unique : ∀ t ∈ tags, tagType b t = multibootTagTypeElfSections → t = elf
  ordered : (available b mmap multibootMmapEntrySize n).Pairwise fun r r' ↦
    r.base + r.length ≤ r'.base
  fits_ram : (available b mmap multibootMmapEntrySize n).length ≤ maxMmapEntries
  fits_kernel : elfNum b elf ≤ maxKernelSections

section Info

variable {mbAddr mmap elf : ℕ} {tags : List ℕ} (h : BootInfo b mbAddr tags mmap elf n)

include h in
/-- **Both parts of the memory map are there**, whichever tag comes first. -/
theorem BootInfo.parsed (dest : ℕ) (m : WordMemory) :
    ∃ r m', (∀ fuel, tags.length ≤ fuel →
        bootParseMultiboot b dest multiboot2BootloaderMagic mbAddr fuel m = some r) ∧
      r.result = .ok m' ∧ RamRight dest (available b mmap multibootMmapEntrySize n) m' ∧
      KernelRight dest (elfSections b elf) m' := by
  have hstart : (mbAddr + 8) % 2 ^ 32 = mbAddr + 8 := Nat.mod_eq_of_lt h.block.low
  have hsize := b.word_lt mbAddr
  have hlow := h.block.low
  have hbase : (available b mmap multibootMmapEntrySize n).Pairwise
      fun r r' ↦ r.base ≤ r'.base :=
    h.ordered.imp fun hle ↦ (Nat.le_add_right _ _).trans hle
  let I : List ℕ → WordMemory → Prop := fun done m ↦
    (mmap ∈ done → RamRight dest (available b mmap multibootMmapEntrySize n) m) ∧
      (elf ∈ done → KernelRight dest (elfSections b elf) m)
  have hstep : ∀ done t m, t ∈ tags → I done m →
      ∃ m', parseTag b t dest m = some (.ok m') ∧ I (done ++ [t]) m' := by
    intro done t m ht hm
    rw [parseTag]
    by_cases h6 : tagType b t = multibootTagTypeMmap
    · obtain rfl := h.mmap_unique t ht h6
      obtain ⟨m', hparse, hram, hframe⟩ := parseMmap_spec_sorted h.isMmap hbase h.fits_ram dest m
      refine ⟨m', by rw [if_pos h6, hparse], fun _ ↦ hram, fun hmem ↦ ?_⟩
      refine (hm.2 ?_).congr hframe
      rcases List.mem_append.1 hmem with hmem | hmem
      · exact hmem
      · rw [← List.mem_singleton.1 hmem, h.isElf] at h6
        exact absurd h6 (by decide)
    · rw [if_neg h6]
      have hmmap : mmap ∈ done ++ [t] → mmap ∈ done := fun hmem ↦ by
        rcases List.mem_append.1 hmem with hmem | hmem
        · exact hmem
        · exact absurd (List.mem_singleton.1 hmem ▸ h.isMmap.type) h6
      by_cases h9 : tagType b t = multibootTagTypeElfSections
      · obtain rfl := h.elf_unique t ht h9
        obtain ⟨m', hparse, hkernel, hframe⟩ := parseElf_spec h.fits_kernel dest m
        refine ⟨m', by rw [if_pos h9, hparse], fun hmem ↦ ?_, fun _ ↦ hkernel⟩
        exact (hm.1 (hmmap hmem)).congr h.fits_ram fun a _ ha ↦ hframe a ha
      · refine ⟨m, by rw [if_neg h9], fun hmem ↦ hm.1 (hmmap hmem), fun hmem ↦ hm.2 ?_⟩
        rcases List.mem_append.1 hmem with hmem | hmem
        · exact hmem
        · exact absurd (List.mem_singleton.1 hmem ▸ h.isElf) h9
  have hnone : I [] m := ⟨fun hn ↦ absurd hn List.not_mem_nil, fun hn ↦ absurd hn List.not_mem_nil⟩
  obtain ⟨r, m', hr, ⟨hram, hkernel⟩, hloop⟩ := tagLoop_invariant h.block.tags (by omega)
    (by simp only [wordSize]; omega) hstep hnone
  refine ⟨r, m', fun fuel hfuel ↦ ?_, hr, hram h.mmap_mem, hkernel h.elf_mem⟩
  rw [bootParseMultiboot, if_neg (not_not.2 rfl), hstart]
  exact hloop fuel hfuel

end Info

/-- The memory map is in the order that the first half of `MMU_init` needs. -/
theorem physicalMMap_sorted {av : List MMapEntry} {used : List NamedSection}
    (hram : RamRight dest av m) (hkernel : KernelRight dest used m)
    (hordered : av.Pairwise fun r r' ↦ r.base + r.length ≤ r'.base)
    (hle : av.length ≤ maxMmapEntries) : (physicalMMap m dest).Sorted where
  ram := by
    simp only [physicalMMap, hram.num, hram.entries]
    exact hordered
  kernel := by
    simp only [physicalMMap, hkernel.num]
    exact List.pairwise_map.2 hkernel.sorted
  length_le := by
    simp only [physicalMMap, hram.num, hram.entries]
    exact hle

/-- A page that should be free is available, and meets no section of the kernel. -/
theorem freePage_available {av : List MMapEntry} {used : List NamedSection} {f : ℕ}
    (hram : RamRight dest av m) (hkernel : KernelRight dest used m)
    (hf : (physicalMMap m dest).FreePage f) :
    (∃ r ∈ av, r.base ≤ f ∧ f + pageSize ≤ r.base + r.length) ∧
      ∀ s ∈ used, s.base + s.length ≤ f ∨ f + pageSize ≤ s.base := by
  refine ⟨?_, fun s hs ↦ ?_⟩
  · have hin := hf.inRam
    simp only [physicalMMap, hram.num, hram.entries] at hin
    exact hin
  · have hmem : (⟨s.base, s.length⟩ : KernelSection) ∈ (physicalMMap m dest).kernelSects := by
      simp only [physicalMMap, hkernel.num]
      exact List.mem_map_of_mem (f := fun s : NamedSection ↦ (⟨s.base, s.length⟩ : KernelSection))
        (hkernel.perm.symm.subset hs)
    have hnot := hf.notKernel _ hmem
    have hframe := hf.frame.1
    simp only [KernelSection.Covers, pageSize] at *
    omega

/-- The block of a PC with the sections of its kernel: a list of three sections, of which the first
one is not in use, and a memory map. -/
def pcBootBlock : ByteMemory :=
  ByteMemory.ofList ([0x28, 1, 0, 0, 0, 0, 0, 0] ++
    [9, 0, 0, 0, 212, 0, 0, 0, 3, 0, 0, 0, 64, 0, 0, 0, 2, 0, 0, 0] ++
    List.replicate 64 0 ++
    ([0, 0, 0, 0, 1, 0, 0, 0] ++ List.replicate 8 0 ++ [0, 0x60, 0x10, 0, 0, 0, 0, 0] ++
      List.replicate 8 0 ++ [0, 0x38, 0, 0, 0, 0, 0, 0] ++ List.replicate 24 0) ++
    ([0, 0, 0, 0, 1, 0, 0, 0] ++ List.replicate 8 0 ++ [0, 0, 0x10, 0, 0, 0, 0, 0] ++
      List.replicate 8 0 ++ [0, 0x60, 0, 0, 0, 0, 0, 0] ++ List.replicate 24 0) ++
    [0, 0, 0, 0] ++ pcTagBytes ++ [0, 0, 0, 0, 8, 0, 0, 0])

/-- The memory map that is left when the tags have been taken. -/
def parsedMap (dest : ℕ) : Parsed → Option PhysicalMMap
  | .ok m => some (physicalMMap m dest)
  | _ => none

theorem bootable_pcMemoryMap : pcMemoryMap.Bootable where
  inRange := ⟨by decide, by decide⟩
  kernel := by decide
  ends := by decide +kernel
  carvable := by
    refine ⟨by decide, ?_, by decide +kernel, by decide +kernel⟩
    rintro r ⟨⟩
    decide
  whole := by
    refine ⟨by decide, ?_, ?_, by decide +kernel⟩
    · simp only [pcMemoryMap, List.isChain_cons_cons, List.isChain_singleton]
      decide
    · simp only [AtEveryStart]
      decide +kernel
  free := by
    refine ⟨0x1000, by decide, ⟨⟨0, 0x9FC00⟩, by decide, by decide, by decide⟩, ?_⟩
    simp only [pcMemoryMap, List.forall_mem_cons, KernelSection.Covers]
    decide

theorem available_pcBootBlock : available pcBootBlock 224 multibootMmapEntrySize 2 =
    [⟨0, 0x9FC00⟩, ⟨0x100000, 0x7EE0000⟩] := by decide

theorem elfSections_pcBootBlock : elfSections pcBootBlock 8 =
    [⟨0x106000, 0x3800, 0x100000⟩, ⟨0x100000, 0x6000, 0x100000⟩] := by decide

theorem bootInfo_pcBootBlock : BootInfo pcBootBlock 0 [8, 224, 288] 224 8 2 where
  block := ⟨by decide, .next (by decide) (by decide) (by decide)
    (.next (by decide) (by decide) (by decide) (.last (by decide) (by decide) (by decide)))⟩
  mmap_mem := by decide
  isMmap := ⟨by decide, by decide, by decide, by decide, by decide⟩
  mmap_unique := by decide
  elf_mem := by decide
  isElf := by decide
  elf_unique := by decide
  ordered := by rw [available_pcBootBlock]; decide
  fits_ram := by rw [available_pcBootBlock]; decide
  fits_kernel := by decide

theorem parsedMap_pcBootBlock :
    ((bootParseMultiboot pcBootBlock 0x1000 multiboot2BootloaderMagic 0 3 fun _ ↦ 0).map
      fun r ↦ parsedMap 0x1000 r.result) = some (some pcMemoryMap) := by decide +kernel

end Boot

end Marimba
