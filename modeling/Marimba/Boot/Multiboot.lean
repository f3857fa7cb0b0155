import Marimba.Boot.MemoryMap

/-!
# The tags of the boot loader (`BOOT_parse_multiboot`)

The information block has its size in its first word, and from its ninth byte on tags, each with a
type and a size. The loop goes from tag to tag by the size, rounded up to eight bytes in 32 bits,
until it finds the END tag; a memory-map tag is given to `parse_mmap` and an ELF tag to
`ELF_parse_section_headers`, and when one of them returns `-1` the loop returns it too. The size of
the block is not read.

So nothing but the tags keeps the loop inside the block. What it visits is `tagAt`, the walk along
the sizes, up to the first tag where it halts, and it does not return when there is none
(`tagLoop_of_halts`, `tagLoop_of_not_halts`). For a block that is well formed (`IsBlock`) the walk
is the list of its tags (`bootParseMultiboot_walk`).
-/

namespace Marimba

namespace Boot

/-! ### `ELF_parse_section_headers` -/

/-- `MAX_KERNEL_SECTIONS`. -/
abbrev maxKernelSections : ℕ := 32

/-- The address of `num_kernel_sects`. -/
def numKernelSects (dest : ℕ) : ℕ := dest + 528

/-- The address of `kernel_sects`. -/
def kernelSects (dest : ℕ) : ℕ := dest + 536

/-- `sizeof(struct ELFSectionHeader)`. -/
abbrev elfSectionHeaderSize : ℕ := 64

/-- `section_type` of a `struct ELFSectionHeader`. -/
def sectionType (b : ByteMemory) (curr : ℕ) : ℕ := b.word (curr + 4)

/-- The `struct KernelSection` of a `struct ELFSectionHeader`. -/
def sectionOf (b : ByteMemory) (strTable curr : ℕ) : NamedSection :=
  ⟨b.dword (curr + 16), b.dword (curr + 32), wadd strTable (b.word curr)⟩

/-- The loop of `ELF_parse_section_headers`, that many iterations from `curr` on. -/
def fillSections (b : ByteMemory) (strTable dest : ℕ) : (n curr : ℕ) → WordMemory → WordMemory
  | 0, _, m => m
  | n + 1, curr, m =>
    if sectionType b curr = 0 then
      fillSections b strTable dest n (curr + elfSectionHeaderSize) m
    else
      let num := m.uint (numKernelSects dest)
      let m := m.setNamedSection (kernelSects dest + kernelSectionSize * num)
        (sectionOf b strTable curr)
      fillSections b strTable dest n (curr + elfSectionHeaderSize)
        (m.setUint (numKernelSects dest) (num + 1))

/-- `ELF_parse_section_headers`. -/
def elfParseSectionHeaders (b : ByteMemory) (dest start numHeaders strTableIndex : ℕ)
    (m : WordMemory) : Option Parsed :=
  if numHeaders > maxKernelSections then some (.refused m)
  else
    let strTable := b.dword (start + elfSectionHeaderSize * strTableIndex + 16)
    let m := fillSections b strTable dest numHeaders start (m.setUint (numKernelSects dest) 0)
    (sortKernelSectionArray m (kernelSects dest) (m.uint (numKernelSects dest))).map fun s ↦
      .ok s.1

/-- `num` of a `struct MultibootELFTag`. -/
def elfNum (b : ByteMemory) (tag : ℕ) : ℕ := b.word (tag + 8)

/-- `parse_elf`: `sections` is behind `num`, `entsize` and `shndx`. -/
def parseElf (b : ByteMemory) (tag dest : ℕ) (m : WordMemory) : Option Parsed :=
  elfParseSectionHeaders b dest (tag + 20) (elfNum b tag) (b.word (tag + 16)) m

/-! ### `BOOT_parse_multiboot` -/

/-- `MULTIBOOT2_BOOTLOADER_MAGIC`. -/
abbrev multiboot2BootloaderMagic : ℕ := 0x36d76289

/-- `MULTIBOOT_TAG_TYPE_END`. -/
abbrev multibootTagTypeEnd : ℕ := 0

/-- `MULTIBOOT_TAG_TYPE_MMAP`. -/
abbrev multibootTagTypeMmap : ℕ := 6

/-- `MULTIBOOT_TAG_TYPE_ELF_SECTIONS`. -/
abbrev multibootTagTypeElfSections : ℕ := 9

/-- The next tag. The sum `tag->size + 7` has 32 bits, and `& ~7` clears its low bits. -/
def nextTag (b : ByteMemory) (tag : ℕ) : ℕ := wadd tag ((tagSize b tag + 7) % 2 ^ 32 / 8 * 8)

/-- The `switch` of the loop. -/
def parseTag (b : ByteMemory) (tag dest : ℕ) (m : WordMemory) : Option Parsed :=
  if tagType b tag = multibootTagTypeMmap then parseMmap b tag dest m
  else if tagType b tag = multibootTagTypeElfSections then parseElf b tag dest m
  else some (.ok m)

/-- What a run of the loop leaves behind: its answer, the tags it was at, and the words of tag
headers that were read. -/
structure Walked where
  result : Parsed
  visited : List ℕ
  reads : List ℕ

/-- The words of the header of a tag that has been parsed: the type, and the size as well when it is
needed, for the next tag or by `parse_mmap`. -/
def headerReads (b : ByteMemory) (tag : ℕ) (goesOn : Bool) : List ℕ :=
  if goesOn ∨ tagType b tag = multibootTagTypeMmap then [tag, tag + 4] else [tag]

/-- The loop of `BOOT_parse_multiboot`, at most that many tags. -/
def tagLoop (b : ByteMemory) (dest : ℕ) : (fuel tag : ℕ) → WordMemory → Option Walked
  | 0, _, _ => none
  | fuel + 1, tag, m =>
    if tagType b tag = multibootTagTypeEnd then some ⟨.ok m, [tag], headerReads b tag false⟩
    else
      (parseTag b tag dest m).bind fun
        | .ok m =>
          (tagLoop b dest fuel (nextTag b tag) m).map fun r ↦
            ⟨r.result, tag :: r.visited, headerReads b tag true ++ r.reads⟩
        | stop => some ⟨stop, [tag], headerReads b tag false⟩

/-- `BOOT_parse_multiboot`, at most that many tags. -/
def bootParseMultiboot (b : ByteMemory) (dest mbMagic mbAddr fuel : ℕ) (m : WordMemory) :
    Option Walked :=
  let tag := (mbAddr + 8) % 2 ^ 32
  if mbMagic ≠ multiboot2BootloaderMagic then some ⟨.refused m, [], []⟩
  else tagLoop b dest fuel tag m

/-! ### One tag -/

/-- A tag that is not taken: more available memory or more sections than there is room for, or a
memory map whose entries have no size. -/
def Refused (b : ByteMemory) (tag : ℕ) : Prop :=
  (tagType b tag = multibootTagTypeMmap ∧
      (entrySize b tag = 0 ∨ maxMmapEntries < (records b tag).length)) ∨
    (tagType b tag = multibootTagTypeElfSections ∧ maxKernelSections < elfNum b tag)

instance instDecidableRefused (b : ByteMemory) (tag : ℕ) : Decidable (Refused b tag) :=
  inferInstanceAs (Decidable (_ ∨ _))

/-- The loop does not go on behind this tag. -/
def Halts (b : ByteMemory) (tag : ℕ) : Prop := tagType b tag = multibootTagTypeEnd ∨ Refused b tag

instance instDecidableHalts (b : ByteMemory) (tag : ℕ) : Decidable (Halts b tag) :=
  inferInstanceAs (Decidable (_ ∨ _))

section Tag

variable {b : ByteMemory} {tag dest fuel : ℕ} {m : WordMemory}

theorem parseElf_of_le (h : elfNum b tag ≤ maxKernelSections) :
    ∃ m', parseElf b tag dest m = some (.ok m') := by
  rw [parseElf, elfParseSectionHeaders, if_neg (Nat.not_lt.2 h)]
  obtain ⟨m', calls, hsort⟩ := sort_isSome kernelMmapCmp kernelMmapSwp
    (fillSections b (b.dword (tag + 20 + elfSectionHeaderSize * b.word (tag + 16) + 16)) dest
      (elfNum b tag) (tag + 20) (m.setUint (numKernelSects dest) 0)) (kernelSects dest)
    ((fillSections b (b.dword (tag + 20 + elfSectionHeaderSize * b.word (tag + 16) + 16)) dest
      (elfNum b tag) (tag + 20) (m.setUint (numKernelSects dest) 0)).uint (numKernelSects dest))
    kernelSectionSize
  exact ⟨m', congrArg (Option.map _) hsort⟩

/-- A tag that is not refused is parsed. -/
theorem parseTag_of_not_refused (dest : ℕ) (m : WordMemory) (h : ¬Refused b tag) :
    ∃ m', parseTag b tag dest m = some (.ok m') := by
  obtain ⟨hmmap, helf⟩ := not_or.1 h
  by_cases h6 : tagType b tag = multibootTagTypeMmap
  · obtain ⟨hpos, hle⟩ := not_or.1 fun hbad ↦ hmmap ⟨h6, hbad⟩
    rw [parseTag, if_pos h6]
    exact parseMmap_of_le hpos (Nat.not_lt.1 hle)
  · rw [parseTag, if_neg h6]
    by_cases h9 : tagType b tag = multibootTagTypeElfSections
    · rw [if_pos h9]
      exact parseElf_of_le (Nat.not_lt.1 fun hlt ↦ helf ⟨h9, hlt⟩)
    · rw [if_neg h9]
      exact ⟨m, rfl⟩

/-- A tag that is refused ends the loop, with `-1` or in a division by zero. -/
theorem parseTag_of_refused (dest : ℕ) (m : WordMemory) (h : Refused b tag) :
    ∃ stop, parseTag b tag dest m = some stop ∧ ∀ m', stop ≠ .ok m' := by
  rcases h with ⟨h6, hbad⟩ | ⟨h9, hlt⟩
  · rw [parseTag, if_pos h6]
    by_cases hzero : entrySize b tag = 0
    · rw [parseMmap, if_pos hzero]
      exact ⟨_, rfl, fun m' ↦ Parsed.noConfusion⟩
    · obtain ⟨m', hrefused⟩ := parseMmap_of_lt (m := m) hzero (hbad.resolve_left hzero)
      exact ⟨_, hrefused, fun m' ↦ Parsed.noConfusion⟩
  · have h6 : tagType b tag ≠ multibootTagTypeMmap := by
      rw [h9]
      decide
    rw [parseTag, if_neg h6, if_pos h9, parseElf, elfParseSectionHeaders, if_pos hlt]
    exact ⟨_, rfl, fun m' ↦ Parsed.noConfusion⟩

theorem not_refused_of_end (h : tagType b tag = multibootTagTypeEnd) : ¬Refused b tag := by
  rintro (⟨h6, -⟩ | ⟨h9, -⟩)
  · exact absurd (h.symm.trans h6) (by decide)
  · exact absurd (h.symm.trans h9) (by decide)

/-- What the loop leaves behind when it stops at a tag. -/
def Walked.StopsAt (b : ByteMemory) (tag : ℕ) (r : Walked) : Prop :=
  ((∃ m, r.result = .ok m) ↔ ¬Refused b tag) ∧ r.visited = [tag] ∧
    r.reads = headerReads b tag false

theorem tagLoop_halts (dest : ℕ) (m : WordMemory) (h : Halts b tag) :
    ∃ r : Walked, r.StopsAt b tag ∧ ∀ fuel, tagLoop b dest (fuel + 1) tag m = some r := by
  by_cases hend : tagType b tag = multibootTagTypeEnd
  · exact ⟨⟨.ok m, [tag], headerReads b tag false⟩,
      ⟨iff_of_true ⟨m, rfl⟩ (not_refused_of_end hend), rfl, rfl⟩, fun fuel ↦ if_pos hend⟩
  · have hrefused := h.resolve_left hend
    obtain ⟨stop, hstop, hne⟩ := parseTag_of_refused dest m hrefused
    refine ⟨⟨stop, [tag], headerReads b tag false⟩, ⟨?_, rfl, rfl⟩, fun fuel ↦ ?_⟩
    · exact iff_of_false (fun ⟨m', hm'⟩ ↦ hne m' hm') (not_not.2 hrefused)
    · rw [tagLoop, if_neg hend, hstop, Option.bind_some]
      cases stop with
      | ok m' => exact absurd rfl (hne m')
      | refused m' => rfl
      | divideError => rfl

theorem tagLoop_goesOn (dest : ℕ) (m : WordMemory) (h : ¬Halts b tag) :
    ∃ m', ∀ fuel, tagLoop b dest (fuel + 1) tag m =
      (tagLoop b dest fuel (nextTag b tag) m').map fun r ↦
        ⟨r.result, tag :: r.visited, headerReads b tag true ++ r.reads⟩ := by
  obtain ⟨hend, hrefused⟩ := not_or.1 h
  obtain ⟨m', hok⟩ := parseTag_of_not_refused dest m hrefused
  refine ⟨m', fun fuel ↦ ?_⟩
  rw [tagLoop, if_neg hend, hok]
  rfl

/-- A tag is at most read in its header. -/
theorem mem_headerReads {goesOn : Bool} {a : ℕ} (h : a ∈ headerReads b tag goesOn) :
    a = tag ∨ a = tag + 4 := by
  rw [headerReads] at h
  split at h
  · simpa using h
  · exact Or.inl (List.mem_singleton.1 h)

end Tag

/-! ### The walk -/

/-- The tags along the sizes. -/
def tagAt (b : ByteMemory) (tag : ℕ) (i : ℕ) : ℕ := (nextTag b)^[i] tag

/-- **The loop went from `tag` along the sizes to the `k`-th tag behind it**, stopped there, and
read no other headers. -/
structure WalkedTo (b : ByteMemory) (tag k : ℕ) (r : Walked) : Prop where
  result : (∃ m, r.result = .ok m) ↔ ¬Refused b (tagAt b tag k)
  visited : r.visited = (List.range (k + 1)).map (tagAt b tag)
  reads : ∀ a ∈ r.reads, ∃ t ∈ r.visited, a = t ∨ a = t + 4

section Walk

variable {b : ByteMemory} {tag dest k : ℕ} {m : WordMemory}

theorem tagAt_succ (b : ByteMemory) (tag i : ℕ) : tagAt b tag (i + 1) = tagAt b (nextTag b tag) i :=
  rfl

/-- **Where the loop stops**: at the first tag where it halts, whatever the number of iterations
beyond. -/
theorem tagLoop_of_halts (dest : ℕ) (m : WordMemory) (hk : Halts b (tagAt b tag k))
    (hfirst : ∀ i < k, ¬Halts b (tagAt b tag i)) :
    ∃ r, WalkedTo b tag k r ∧ ∀ fuel, k < fuel → tagLoop b dest fuel tag m = some r := by
  induction k generalizing tag m with
  | zero =>
    obtain ⟨r, ⟨hresult, hvisited, hreads⟩, hloop⟩ := tagLoop_halts dest m hk
    refine ⟨r, ⟨hresult, hvisited, fun a ha ↦ ⟨tag, ?_, mem_headerReads (hreads ▸ ha)⟩⟩,
      fun fuel hfuel ↦ ?_⟩
    · rw [hvisited]
      exact List.mem_singleton_self tag
    · obtain ⟨fuel, rfl⟩ := Nat.exists_eq_succ_of_ne_zero hfuel.ne'
      exact hloop fuel
  | succ k ih =>
    have hgoes : ¬Halts b tag := hfirst 0 k.succ_pos
    obtain ⟨m', hstep⟩ := tagLoop_goesOn dest m hgoes
    have hk : Halts b (tagAt b (nextTag b tag) k) := hk
    obtain ⟨r, hr, hloop⟩ := ih m' hk fun i hi ↦ hfirst (i + 1) (Nat.succ_lt_succ hi)
    refine ⟨⟨r.result, tag :: r.visited, headerReads b tag true ++ r.reads⟩, ⟨hr.result, ?_, ?_⟩,
      fun fuel hfuel ↦ ?_⟩
    · rw [List.range_succ_eq_map, List.map_cons, List.map_map]
      exact congrArg (List.cons tag) hr.visited
    · intro a ha
      rcases List.mem_append.1 ha with ha | ha
      · exact ⟨tag, List.mem_cons_self, mem_headerReads ha⟩
      · obtain ⟨t, ht, hat⟩ := hr.reads a ha
        exact ⟨t, List.mem_cons_of_mem _ ht, hat⟩
    · obtain ⟨fuel, rfl⟩ := Nat.exists_eq_succ_of_ne_zero (Nat.ne_zero_of_lt hfuel)
      rw [hstep, hloop fuel (Nat.lt_of_succ_lt_succ hfuel)]
      rfl

/-- **When the loop does not return**: no tag along the sizes ends it. -/
theorem tagLoop_of_not_halts (dest : ℕ) (m : WordMemory) (h : ∀ i, ¬Halts b (tagAt b tag i))
    (fuel : ℕ) : tagLoop b dest fuel tag m = none := by
  induction fuel generalizing tag m with
  | zero => rfl
  | succ fuel ih =>
    have hgoes : ¬Halts b tag := h 0
    obtain ⟨m', hstep⟩ := tagLoop_goesOn dest m hgoes
    rw [hstep, ih m' fun i ↦ h (i + 1)]
    rfl

end Walk

/-! ### A well-formed block -/

/-- The tags from `tag` on: each has at least its header and lies in front of `stop`, the next one
begins behind it at a multiple of eight bytes, and the last one is the END tag. -/
inductive TagsAt (b : ByteMemory) (stop : ℕ) : ℕ → List ℕ → Prop where
  | last {tag : ℕ} : tagType b tag = multibootTagTypeEnd → 8 ≤ tagSize b tag →
      tag + tagSize b tag ≤ stop → TagsAt b stop tag [tag]
  | next {tag : ℕ} {tags : List ℕ} : tagType b tag ≠ multibootTagTypeEnd → 8 ≤ tagSize b tag →
      tag + tagSize b tag ≤ stop → TagsAt b stop (tag + (tagSize b tag + 7) / 8 * 8) tags →
      TagsAt b stop tag (tag :: tags)

/-- A block of information at an address, with its tags. They are aligned when it is. -/
structure IsBlock (b : ByteMemory) (mbAddr : ℕ) (tags : List ℕ) : Prop where
  low : mbAddr + 8 < 2 ^ 32
  tags : TagsAt b (mbAddr + b.word mbAddr) (mbAddr + 8) tags

/-- The tags up to the first one that is refused. -/
def upToRefused (b : ByteMemory) : List ℕ → List ℕ
  | [] => []
  | tag :: tags => if Refused b tag then [tag] else tag :: upToRefused b tags

section Block

variable {b : ByteMemory} {stop tag mbAddr t : ℕ} {tags : List ℕ}

theorem TagsAt.le (h : TagsAt b stop tag tags) : tag + 8 ≤ stop := by
  cases h with
  | last _ hsize hin => omega
  | next _ hsize hin _ => omega

/-- The tags lie in the block, from the first one on. -/
theorem TagsAt.bounds (h : TagsAt b stop tag tags) (ht : t ∈ tags) : tag ≤ t ∧ t + 8 ≤ stop := by
  induction h with
  | last _ hsize hin =>
    obtain rfl := List.mem_singleton.1 ht
    omega
  | next _ hsize hin _ ih =>
    rcases List.mem_cons.1 ht with rfl | ht
    · omega
    · have hih := ih ht
      omega

/-- They are in the order of their addresses, and no two are the same. -/
theorem TagsAt.sorted (h : TagsAt b stop tag tags) : tags.Pairwise (· < ·) := by
  induction h with
  | last => exact List.pairwise_singleton _ _
  | next _ hsize hin hrest ih =>
    refine List.Pairwise.cons (fun t ht ↦ ?_) ih
    have hle := (hrest.bounds ht).1
    omega

/-- Inside the block nothing wraps. -/
theorem nextTag_eq (hnext : tag + (tagSize b tag + 7) / 8 * 8 + 8 ≤ stop)
    (hstop : stop < tag + 2 ^ 32) (hword : stop < wordSize) :
    nextTag b tag = tag + (tagSize b tag + 7) / 8 * 8 := by
  rw [nextTag, Nat.mod_eq_of_lt (a := tagSize b tag + 7) (by omega)]
  exact wadd_of_lt (by omega)

/-- **The walk along the sizes is the list of the tags**, up to the first one that is refused. -/
theorem TagsAt.walk (h : TagsAt b stop tag tags) (hstop : stop < tag + 2 ^ 32)
    (hword : stop < wordSize) :
    ∃ k < tags.length, Halts b (tagAt b tag k) ∧ (∀ i < k, ¬Halts b (tagAt b tag i)) ∧
      (List.range (k + 1)).map (tagAt b tag) = upToRefused b tags ∧
      (Refused b (tagAt b tag k) ↔ ∃ t ∈ tags, Refused b t) := by
  induction h with
  | @last tag hend hsize hin =>
    have hnot := not_refused_of_end hend
    refine ⟨0, Nat.one_pos, Or.inl hend, fun i hi ↦ absurd hi (Nat.not_lt_zero i), ?_, ?_⟩
    · rw [upToRefused, if_neg hnot]
      rfl
    · refine iff_of_false hnot ?_
      rintro ⟨t, ht, hrefused⟩
      exact hnot (List.mem_singleton.1 ht ▸ hrefused)
  | @next tag tags hend hsize hin hrest ih =>
    by_cases hrefused : Refused b tag
    · refine ⟨0, Nat.succ_pos _, Or.inr hrefused, fun i hi ↦ absurd hi (Nat.not_lt_zero i), ?_, ?_⟩
      · rw [upToRefused, if_pos hrefused]
        rfl
      · exact iff_of_true hrefused ⟨tag, List.mem_cons_self, hrefused⟩
    · obtain ⟨k, hk, hhalts, hfirst, hvisited, hlast⟩ := ih (by omega)
      rw [← nextTag_eq hrest.le hstop hword] at hhalts hfirst hvisited hlast
      refine ⟨k + 1, Nat.succ_lt_succ hk, hhalts, fun i hi ↦ ?_, ?_, ?_⟩
      · cases i with
        | zero => exact not_or.2 ⟨hend, hrefused⟩
        | succ i => exact hfirst i (Nat.lt_of_succ_lt_succ hi)
      · rw [upToRefused, if_neg hrefused, ← hvisited, List.range_succ_eq_map, List.map_cons,
          List.map_map]
        rfl
      · rw [tagAt_succ, hlast, List.exists_mem_cons_iff, or_iff_right hrefused]

theorem upToRefused_eq (h : ∀ t ∈ tags, ¬Refused b t) : upToRefused b tags = tags := by
  induction tags with
  | nil => rfl
  | cons tag tags ih =>
    obtain ⟨htag, htags⟩ := List.forall_mem_cons.1 h
    rw [upToRefused, if_neg htag, ih htags]

theorem mem_of_mem_upToRefused (h : t ∈ upToRefused b tags) : t ∈ tags := by
  induction tags with
  | nil => exact h
  | cons tag tags ih =>
    rw [upToRefused] at h
    split at h
    · exact List.mem_cons.2 (Or.inl (List.mem_singleton.1 h))
    · rcases List.mem_cons.1 h with rfl | h
      · exact List.mem_cons_self
      · exact List.mem_cons_of_mem _ (ih h)

end Block

/-- The block of a PC: a memory map and the END tag. -/
def pcBlock : ByteMemory :=
  ByteMemory.ofList ([80, 0, 0, 0, 0, 0, 0, 0] ++ pcTagBytes ++ [0, 0, 0, 0, 8, 0, 0, 0])

/-- A block of 16 bytes with one tag, of the given type and size. -/
def oneTagBlock (type size : UInt8) : ByteMemory :=
  ByteMemory.ofList [16, 0, 0, 0, 0, 0, 0, 0, type, 0, 0, 0, size, 0, 0, 0]

/-- A block with an ELF tag of 33 sections, a command line and the END tag. -/
def manySectionsBlock : ByteMemory :=
  ByteMemory.ofList
    [48, 0, 0, 0, 0, 0, 0, 0, 9, 0, 0, 0, 24, 0, 0, 0, 33, 0, 0, 0, 64, 0, 0, 0, 0, 0, 0, 0,
      0, 0, 0, 0, 1, 0, 0, 0, 8, 0, 0, 0, 0, 0, 0, 0, 8, 0, 0, 0]

end Boot

end Marimba
