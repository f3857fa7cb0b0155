import Marimba.Memory.SegmentLists
import Marimba.Memory.Separable

/-!
# Sections rounded to pages

The arithmetic that both halves of the computation share: a RAM section is rounded inward and a
kernel section outward, and the rounded kernel sections are merged where they overlap or touch. The
lists of `SegmentLists` are not mentioned but in the last theorem; the rest is about the segments.

* **RAM sections** (`MMapEntry.rounded_of_reaches`, `ramSegments_ramRanges`). The rounding only
  works when the section reaches a page boundary (`MMapEntry.Reaches`). The length of one that does
  not is taken below zero, and the segment covers the rest of the address space
  (`MMapEntry.rounded_of_not_reaches`). That sections are in order and apart
  (`PhysicalMMap.Sorted`) is all that is used for the order of the segments.
* **Kernel sections** (`kernelRanges_spec`). The merge covers what the sections cover
  (`mergeExcluded_spec`): here the order of the bases is needed, and nothing about how the sections
  overlap.

In both cases `PhysicalMMap.InRange` keeps the sums from wrapping around, and is used for nothing
else.

`mmuComputeExcluded_correct` puts the second part and the lists together: what
`mmu_compute_excluded` returns is a list of page ranges in order, apart, with the pages of the
kernel sections and no others.
-/

namespace Marimba

/-! ### Page boundaries -/

/-- The last page boundary at or before the address. -/
def pageDown (a : ℕ) : ℕ := a / pageSize * pageSize

/-- The first page boundary at or behind the address. -/
def pageUp (a : ℕ) : ℕ := (a + (pageSize - 1)) / pageSize * pageSize

theorem pageDown_mod (a : ℕ) : pageDown a % pageSize = 0 := Nat.mul_mod_left _ _

theorem pageUp_mod (a : ℕ) : pageUp a % pageSize = 0 := Nat.mul_mod_left _ _

theorem pageDown_le (a : ℕ) : pageDown a ≤ a := Nat.div_mul_le_self a pageSize

theorem le_pageUp (a : ℕ) : a ≤ pageUp a := by
  simp only [pageUp, pageSize]
  omega

theorem le_pageDown_iff {p a : ℕ} (hp : p % pageSize = 0) : p ≤ pageDown a ↔ p ≤ a := by
  simp only [pageDown, pageSize] at *
  omega

theorem pageUp_le_iff {p a : ℕ} (hp : p % pageSize = 0) : pageUp a ≤ p ↔ a ≤ p := by
  simp only [pageUp, pageSize] at *
  omega

/-- A page in a range of pages lies in it as a whole. -/
theorem lt_iff_add_pageSize_le {p a : ℕ} (hp : p % pageSize = 0) (ha : a % pageSize = 0) :
    p < a ↔ p + pageSize ≤ a := by
  simp only [pageSize] at *
  omega

/-! ### The RAM -/

/-- `MAX_MMAP_ENTRIES`. -/
abbrev maxMmapEntries : ℕ := 32

namespace MMapEntry

/-- The section does not end between two page boundaries without having reached one. -/
def Reaches (r : MMapEntry) : Prop := pageUp r.base ≤ r.base + r.length

instance (r : MMapEntry) : Decidable r.Reaches := inferInstanceAs (Decidable (_ ≤ _))

variable {r : MMapEntry}

/-- The base is rounded up. It only wraps in the last page of the address space. -/
theorem rounded_base (hb : r.base ≤ wordSize - pageSize) : r.rounded.base = pageUp r.base := by
  show (if r.base % pageSize ≠ 0 then _ else _) = _
  simp only [wadd, pageUp, pageSize, wordSize] at *
  split <;> omega

theorem rounded_len (r : MMapEntry) : r.rounded.len =
    wsub (wadd r.base r.length) r.rounded.base -
      wsub (wadd r.base r.length) r.rounded.base % pageSize := rfl

theorem rounded_end (r : MMapEntry) : r.rounded.end_ = wadd r.rounded.base r.rounded.len := rfl

/-- **A section that reaches a page boundary** is rounded to the pages in it. -/
theorem rounded_of_reaches (hlt : r.base + r.length < wordSize) (h : r.Reaches) :
    r.rounded.base = pageUp r.base ∧ r.rounded.end_ = pageDown (r.base + r.length) ∧
      r.rounded.base + r.rounded.len = r.rounded.end_ := by
  have hbase : r.rounded.base = pageUp r.base := by
    refine rounded_base ?_
    have h₁ := le_pageUp r.base
    have h₂ := pageUp_mod r.base
    rw [Reaches] at h
    simp only [wordSize, pageSize] at *
    omega
  have hlen : r.rounded.len = pageDown (r.base + r.length) - pageUp r.base := by
    have hmod := pageUp_mod r.base
    rw [rounded_len, wadd_of_lt hlt, hbase, wsub_of_le h hlt]
    rw [Reaches] at h
    simp only [pageDown, pageSize] at *
    omega
  have hle : pageUp r.base ≤ pageDown (r.base + r.length) :=
    (le_pageDown_iff (pageUp_mod r.base)).2 h
  have hend : r.rounded.end_ = pageDown (r.base + r.length) := by
    have hdown := pageDown_le (r.base + r.length)
    rw [rounded_end, hbase, hlen, wadd_of_lt (by omega)]
    omega
  exact ⟨hbase, hend, by omega⟩

/-- **A section that reaches no page boundary** covers the rest of the address space. -/
theorem rounded_of_not_reaches (hb : r.base ≤ wordSize - pageSize)
    (hlt : r.base + r.length < wordSize) (h : ¬r.Reaches) :
    r.rounded.base = pageUp r.base ∧ r.rounded.end_ < r.rounded.base ∧
      r.rounded.len = wordSize - pageSize := by
  have hbase := rounded_base hb
  have hup : r.base < pageUp r.base := (Nat.le_add_right _ _).trans_lt (Nat.not_le.1 h)
  have hpage : pageUp r.base ≤ wordSize - pageSize := (pageUp_le_iff (by decide)).2 hb
  have hlen : r.rounded.len = wordSize - pageSize := by
    rw [rounded_len, wadd_of_lt hlt, hbase]
    rw [Reaches] at h
    simp only [wsub, pageUp, pageSize, wordSize] at *
    omega
  refine ⟨hbase, ?_, hlen⟩
  rw [rounded_end, hlen, hbase]
  simp only [wadd, pageUp, pageSize, wordSize] at *
  omega

end MMapEntry

/-- Sections in the order of their addresses, as the boot code sorts them; RAM sections do not
overlap, and there are at most `MAX_MMAP_ENTRIES` of them. -/
structure PhysicalMMap.Sorted (map : PhysicalMMap) : Prop where
  ram : map.ramSects.Pairwise fun r r' ↦ r.base + r.length ≤ r'.base
  kernel : map.kernelSects.Pairwise fun k k' ↦ k.base ≤ k'.base
  length_le : map.ramSects.length ≤ maxMmapEntries

/-- No section wraps around the end of the address space when it is rounded to pages. -/
structure PhysicalMMap.InRange (map : PhysicalMMap) : Prop where
  ram : ∀ r ∈ map.ramSects, r.base ≤ wordSize - pageSize ∧ r.base + r.length < wordSize
  kernel : ∀ k ∈ map.kernelSects, k.base + k.length ≤ wordSize - pageSize

section Ram

variable {map : PhysicalMMap} {p : ℕ} (hs : map.Sorted) (hr : map.InRange)
  (hreach : ∀ r ∈ map.ramSects, r.Reaches)

include hs hr hreach in
theorem ramSegments_ramRanges : RamSegments map.ramRanges := by
  have hspec : ∀ r ∈ map.ramSects, _ := fun r hm ↦
    MMapEntry.rounded_of_reaches (hr.ram r hm).2 (hreach r hm)
  refine ⟨List.forall_mem_map.2 fun r hm ↦ (hspec r hm).2.2, List.forall_mem_map.2 fun r hm ↦ ?_,
    List.forall_mem_map.2 fun r hm ↦ ?_, List.pairwise_map.2 (hs.ram.imp_of_mem ?_)⟩
  · rw [(hspec r hm).2.1]
    exact (pageDown_le _).trans_lt (hr.ram r hm).2
  · rw [(hspec r hm).1, (hspec r hm).2.1]
    exact ⟨pageUp_mod _, pageDown_mod _⟩
  · intro r r' hm hm' hle
    rw [(hspec r hm).2.1, (hspec r' hm').1]
    exact (pageDown_le _).trans (hle.trans (le_pageUp _))

include hr hreach in
theorem covered_ramRanges (hp : p % pageSize = 0) :
    Covered map.ramRanges p ↔
      ∃ r ∈ map.ramSects, r.base ≤ p ∧ p + pageSize ≤ r.base + r.length := by
  simp only [Covered, PhysicalMMap.ramRanges, List.mem_map, exists_exists_and_eq_and]
  refine exists_congr fun r ↦ and_congr_right fun hm ↦ ?_
  obtain ⟨hbase, hend, hlen⟩ := MMapEntry.rounded_of_reaches (hr.ram r hm).2 (hreach r hm)
  rw [Segment.Has, hlen, hbase, hend, pageUp_le_iff hp,
    lt_iff_add_pageSize_le hp (pageDown_mod _),
    le_pageDown_iff (by rw [Nat.add_mod_right, hp])]

end Ram

/-! ### The kernel -/

/-- The rounding of a kernel section. -/
theorem KernelSection.rounded_eq {k : KernelSection}
    (hk : k.base + k.length ≤ wordSize - pageSize) :
    k.rounded.base = pageDown k.base ∧ k.rounded.end_ = pageUp (k.base + k.length) ∧
      k.rounded.base + k.rounded.len = k.rounded.end_ := by
  have hbase : k.rounded.base = pageDown k.base := by
    show k.base - k.base % pageSize = pageDown k.base
    simp only [pageDown, pageSize]
    omega
  have hlen : k.rounded.len = pageUp (k.base + k.length) - pageDown k.base := by
    have hoff : wsub k.base (k.base - k.base % pageSize) = k.base % pageSize := by
      rw [wsub_of_le (Nat.sub_le _ _) (by simp only [wordSize, pageSize] at *; omega)]
      exact Nat.sub_sub_self (Nat.mod_le _ _)
    have hsum : wadd k.length (k.base % pageSize) = k.length + k.base % pageSize := by
      refine wadd_of_lt ?_
      simp only [wordSize, pageSize] at *
      omega
    show (if wadd k.length (wsub k.base (k.base - k.base % pageSize)) % pageSize ≠ 0 then _
      else _) = _
    rw [hoff, hsum]
    simp only [wadd, pageUp, pageDown, wordSize, pageSize] at *
    split <;> omega
  have hend : k.rounded.base + k.rounded.len = pageUp (k.base + k.length) := by
    have h₁ := pageDown_le k.base
    have h₂ := le_pageUp (k.base + k.length)
    rw [hbase, hlen]
    omega
  have hlt : pageUp (k.base + k.length) < wordSize :=
    ((pageUp_le_iff (by decide)).2 hk).trans_lt (by decide)
  have hwadd : k.rounded.end_ = pageUp (k.base + k.length) := by
    show wadd k.rounded.base k.rounded.len = _
    rw [wadd_of_lt (hend ▸ hlt), hend]
  exact ⟨hbase, hwadd, hend.trans hwadd.symm⟩

/-- Sections in the order of their start. -/
abbrev SortedSegments : List Segment → Prop := Ordered fun s t ↦ s.base ≤ t.base

/-- **The merge**: what is covered stays the same, and there is a gap between any two ranges. -/
theorem mergeExcluded_spec {p : Segment} {cs : List Segment} (h : SortedSegments (p :: cs)) :
    KernelSegments (mergeExcluded p cs) ∧ (∀ s ∈ mergeExcluded p cs, p.base ≤ s.base) ∧
      ∀ q, Covered (mergeExcluded p cs) q ↔ Covered (p :: cs) q := by
  induction cs generalizing p with
  | nil =>
    refine ⟨⟨h.end_eq, h.lt, h.aligned, List.pairwise_singleton _ _⟩, fun s hs ↦ ?_,
      fun q ↦ Iff.rfl⟩
    rw [List.mem_singleton.1 hs]
  | cons c cs ih =>
    have hle := h.of_mem_tail List.mem_cons_self
    have hp := h.end_eq p List.mem_cons_self
    have hc := h.tail.end_eq c List.mem_cons_self
    have hplt := h.lt p List.mem_cons_self
    have hclt := h.tail.lt c List.mem_cons_self
    have hpend : wadd p.base p.len = p.end_ := by rw [wadd_of_lt (by omega), hp]
    have hcend : wadd c.base c.len = c.end_ := by rw [wadd_of_lt (by omega), hc]
    rw [mergeExcluded, hpend, hcend]
    split
    · rename_i hgap
      obtain ⟨hk, hbase, hcov⟩ := ih h.tail
      refine ⟨hk.cons hp hplt (h.aligned p List.mem_cons_self) fun t ht ↦ ?_,
        List.forall_mem_cons.2 ⟨le_rfl, fun t ht ↦ hle.trans (hbase t ht)⟩, fun q ↦ ?_⟩
      · exact hgap.trans_le (hbase t ht)
      · rw [covered_cons, hcov, ← covered_cons]
    · rename_i hgap
      have hcle := h.tail.base_le
      -- the range up to the later of the two ends
      set len := max p.len (wsub c.end_ p.base) with hlen
      have hend : p.base + len = max p.end_ c.end_ := by
        rw [hlen, wsub_of_le (hle.trans hcle) hclt]
        omega
      have hendlt : p.base + len < wordSize := hend ▸ max_lt hplt hclt
      dsimp only
      rw [wadd_of_lt hendlt]
      have hsorted : SortedSegments
          ({ p with len := len, end_ := p.base + len } :: cs) := by
        refine h.tail.tail.cons rfl hendlt ⟨(h.aligned p List.mem_cons_self).1, ?_⟩ fun t ht ↦ ?_
        · have h₁ := (h.aligned p List.mem_cons_self).2
          have h₂ := (h.tail.aligned c List.mem_cons_self).2
          show (p.base + len) % pageSize = 0
          rw [hend]
          rcases max_choice p.end_ c.end_ with hmax | hmax
          · rwa [hmax]
          · rwa [hmax]
        · exact h.of_mem_tail (List.mem_cons_of_mem c ht)
      obtain ⟨hk, hbase, hcov⟩ := ih hsorted
      refine ⟨hk, hbase, fun q ↦ ?_⟩
      rw [hcov, covered_cons, covered_cons, covered_cons, ← or_assoc]
      refine or_congr_left ?_
      simp only [Segment.Has]
      omega

section Kernel

variable {map : PhysicalMMap} (hs : map.kernelSects.Pairwise fun k k' ↦ k.base ≤ k'.base)
  (hr : ∀ k ∈ map.kernelSects, k.base + k.length ≤ wordSize - pageSize)

include hs hr in
theorem sortedSegments_rounded : SortedSegments (map.kernelSects.map KernelSection.rounded) := by
  have hspec : ∀ k ∈ map.kernelSects, _ := fun k hm ↦ KernelSection.rounded_eq (hr k hm)
  refine ⟨List.forall_mem_map.2 fun k hm ↦ (hspec k hm).2.2, List.forall_mem_map.2 fun k hm ↦ ?_,
    List.forall_mem_map.2 fun k hm ↦ ?_, List.pairwise_map.2 (hs.imp_of_mem ?_)⟩
  · rw [(hspec k hm).2.1]
    exact ((pageUp_le_iff (by decide)).2 (hr k hm)).trans_lt (by decide)
  · rw [(hspec k hm).1, (hspec k hm).2.1]
    exact ⟨pageDown_mod _, pageUp_mod _⟩
  · intro k k' hm hm' hle
    rw [(hspec k hm).1, (hspec k' hm').1]
    exact (le_pageDown_iff (pageDown_mod _)).2 ((pageDown_le _).trans hle)

include hs hr in
/-- The merged ranges are in order, and they cover what the sections cover. -/
theorem kernelRanges_spec : KernelSegments map.kernelRanges ∧
    ∀ q, Covered map.kernelRanges q ↔
      Covered (map.kernelSects.map KernelSection.rounded) q := by
  have hsorted := sortedSegments_rounded hs hr
  rw [PhysicalMMap.kernelRanges]
  cases hk : map.kernelSects.map KernelSection.rounded with
  | nil =>
    rw [hk] at hsorted
    exact ⟨⟨hsorted.end_eq, hsorted.lt, hsorted.aligned, .nil⟩, fun q ↦ Iff.rfl⟩
  | cons k ks =>
    rw [hk] at hsorted
    obtain ⟨hord, -, hcov⟩ := mergeExcluded_spec hsorted
    exact ⟨hord, hcov⟩

include hs hr in
theorem covered_kernelRanges {p : ℕ} (hp : p % pageSize = 0) :
    Covered map.kernelRanges p ↔ ∃ k ∈ map.kernelSects, k.Covers p := by
  rw [(kernelRanges_spec hs hr).2]
  simp only [Covered, List.mem_map, exists_exists_and_eq_and]
  refine exists_congr fun k ↦ and_congr_right fun hm ↦ ?_
  obtain ⟨hbase, hend, hlen⟩ := KernelSection.rounded_eq (hr k hm)
  rw [Segment.Has, hlen, hbase, hend]
  show pageDown k.base ≤ p ∧ p < pageUp (k.base + k.length) ↔
    pageDown k.base < p + pageSize ∧ p < pageUp (k.base + k.length)
  refine and_congr_left' ?_
  have hmod := pageDown_mod k.base
  simp only [pageSize] at *
  omega

include hs hr in
/-- **`mmu_compute_excluded` returns the page ranges of the kernel**: page-aligned segments with
their `end` set, each with a gap before the next one, which cover exactly the sections rounded
outward to page boundaries. -/
theorem mmuComputeExcluded_correct (hne : map.kernelSects ≠ []) :
    ∃ ex js, mmuComputeExcluded map = some ex ∧ Linked ex (some 0) js ∧
      (∀ s ∈ segmentsAt ex js,
        s.base % pageSize = 0 ∧ s.len % pageSize = 0 ∧ s.end_ = s.base + s.len) ∧
      (segmentsAt ex js).Pairwise (fun s t ↦ s.base < t.base ∧ s.end_ < t.base) ∧
      ∀ p, (∃ s ∈ segmentsAt ex js, s.base ≤ p ∧ p < s.base + s.len) ↔
        ∃ k ∈ map.kernelSects, pageDown k.base ≤ p ∧ p < pageUp (k.base + k.length) := by
  obtain ⟨ex, hex⟩ := mmuComputeExcluded_isSome hne
  obtain ⟨-, js, hlinked, hsegs⟩ := mmuComputeExcluded_spec hex
  obtain ⟨hk, hcov⟩ := kernelRanges_spec hs hr
  refine ⟨ex, js, hex, hlinked, ?_⟩
  rw [hsegs]
  refine ⟨fun s hm ↦ ?_, hk.pairwise.imp_of_mem fun hm _ hlt ↦ ?_, fun p ↦ ?_⟩
  · have hend := hk.end_eq s hm
    obtain ⟨h₁, h₂⟩ := hk.aligned s hm
    refine ⟨h₁, ?_, hend.symm⟩
    simp only [pageSize] at *
    omega
  · exact ⟨(hk.le_of_mem hm).trans_lt hlt, hlt⟩
  · refine (hcov p).trans ?_
    simp only [Covered, List.mem_map, exists_exists_and_eq_and]
    refine exists_congr fun k ↦ and_congr_right fun hm ↦ ?_
    obtain ⟨hbase, hend, hlen⟩ := KernelSection.rounded_eq (hr k hm)
    rw [Segment.Has, hlen, hbase, hend]

end Kernel

/-- A section inside another one, an empty section in the middle of a page, and a section that only
touches its page. -/
def nestedSections : PhysicalMMap where
  ramSects := []
  kernelSects := [⟨0x100000, 0x6000⟩, ⟨0x102000, 0x1000⟩, ⟨0x200010, 0⟩, ⟨0x201000, 0x800⟩]

theorem mmuComputeExcluded_correct_nestedSections :
    ∃ ex js, mmuComputeExcluded nestedSections = some ex ∧ Linked ex (some 0) js ∧
      segmentsAt ex js = [⟨0x100000, 0x106000, 0x6000⟩, ⟨0x200000, 0x202000, 0x2000⟩] ∧
      (segmentsAt ex js).Pairwise (fun s t ↦ s.base < t.base ∧ s.end_ < t.base) := by
  obtain ⟨ex, js, hex, hlinked, -, hpair, -⟩ :=
    @mmuComputeExcluded_correct nestedSections (by decide) (by decide) (by decide)
  refine ⟨ex, js, hex, hlinked, ?_, hpair⟩
  obtain ⟨-, js', hlinked', hsegs⟩ := mmuComputeExcluded_spec hex
  obtain rfl := hlinked.unique hlinked'
  rw [hsegs]
  decide

end Marimba
