import Marimba.Memory.ExclusionLoop
import Marimba.Memory.PageRanges

/-!
# Which pages are free at boot

`MMU_init` should leave exactly the pages in the list of free segments that lie inside a RAM section
and meet no page range of the kernel (`PhysicalMMap.FreePage`). It does so for the memory maps that
are `PhysicalMMap.Carvable`, and for no others:

* every RAM section reaches a page boundary. The length of one that does not is taken below zero
  when it is rounded, and the segment then covers the rest of the address space;
* of two empty RAM sections at address `0` the second stays in the list, and ignoring the page at
  address `0` takes its length below zero;
* the RAM and the kernel are `Separable`;
* the RAM sections and the splits fit into `free_segments`.
-/

namespace Marimba

/-! ### Empty segments -/

section Empty

variable {ss es : List Segment}

theorem covered_unlinkEmpty {linked : Bool} {p : ℕ} :
    Covered (unlinkEmpty linked ss) p ↔ Covered ss p := by
  constructor
  · rintro ⟨s, hs, hp⟩
    exact ⟨s, (unlinkEmpty_sublist linked ss).subset hs, hp⟩
  · rintro ⟨s, hs, hp⟩
    refine ⟨s, mem_unlinkEmpty hs fun hlen ↦ ?_, hp⟩
    rw [Segment.Has, hlen] at hp
    omega

/-- Whether empty segments are in the list makes no difference to the loop. -/
theorem mirrored_unlinkEmpty (linked : Bool) (hr : RamSegments ss) (hk : KernelSegments es) :
    Mirrored es (unlinkEmpty linked ss) ss ∧ Mirrored es ss (unlinkEmpty linked ss) := by
  refine ⟨Mirrored.of_subset fun s hs _ ↦ (unlinkEmpty_sublist linked ss).subset hs,
    Mirrored.of_subset fun s hs hm ↦ mem_unlinkEmpty hs fun hlen ↦ ?_⟩
  have hend := hr.end_eq s hs
  exact Segment.not_matters_of_empty hk (by omega) hm

end Empty

/-! ### The page at address `0` -/

theorem Segment.mem_pages_iff {s : Segment} {p : ℕ} (hb : s.base % pageSize = 0)
    (he : (s.base + s.len) % pageSize = 0) : p ∈ s.pages ↔ p % pageSize = 0 ∧ s.Has p := by
  rw [Segment.mem_pages, Segment.Has]
  simp only [pageSize] at *
  constructor
  · rintro ⟨j, hj, rfl⟩
    omega
  · rintro ⟨hp, h₁, h₂⟩
    exact ⟨(p - s.base) / 0x1000, by omega, by omega⟩

/-- Ignoring the page at address `0`, when no segment there is empty. -/
theorem withoutPageZero_spec {out : List Segment}
    (hpair : out.Pairwise fun s t ↦ s.base + s.len ≤ t.base)
    (hal : ∀ s ∈ out, s.base % pageSize = 0 ∧ (s.base + s.len) % pageSize = 0)
    (hlt : ∀ s ∈ out, s.base + s.len < wordSize)
    (hne : ∀ s ∈ out, s.base = 0 → s.len ≠ 0) :
    (∀ s ∈ withoutPageZero out, s.base % pageSize = 0 ∧ (s.base + s.len) % pageSize = 0) ∧
      ∀ p, p % pageSize = 0 → (Covered (withoutPageZero out) p ↔ 0 < p ∧ Covered out p) := by
  rcases out with _ | ⟨s, ss⟩
  · exact ⟨hal, fun p _ ↦ ⟨fun ⟨_, hs, _⟩ ↦ absurd hs List.not_mem_nil, fun h ↦ h.2⟩⟩
  obtain ⟨hs, hss⟩ := List.forall_mem_cons.1 hal
  have hlts := hlt s List.mem_cons_self
  have hnes := hne s List.mem_cons_self
  have htail : ∀ p, Covered ss p → s.base + s.len ≤ p := fun p ⟨t, ht, hp⟩ ↦
    ((List.pairwise_cons.1 hpair).1 t ht).trans hp.1
  rw [withoutPageZero]
  split
  · rename_i hbase
    rw [hbase, Nat.zero_add] at hs htail hlts
    have hlen := hnes hbase
    split
    · rename_i hpage
      refine ⟨hss, fun p hp ↦ ⟨fun h ↦ ⟨?_, covered_cons.2 (Or.inr h)⟩, fun h ↦ ?_⟩⟩
      · have := htail p h
        simp only [pageSize] at *
        omega
      · rcases covered_cons.1 h.2 with hhas | h'
        · rw [Segment.Has, hbase, hpage] at hhas
          simp only [pageSize] at *
          omega
        · exact h'
    · rename_i hpage
      have hge : pageSize ≤ s.len := by
        simp only [pageSize] at *
        omega
      rw [hbase, wadd_of_lt (by decide), wsub_of_le hge hlts, Nat.zero_add]
      refine ⟨List.forall_mem_cons.2 ⟨⟨Nat.mod_self _, ?_⟩, hss⟩, fun p hp ↦ ?_⟩
      · rw [Nat.add_sub_of_le hge]
        exact hs.2
      · have h₁ : ∀ q, Covered ss q → 0 < q := fun q hq ↦ by
          have := htail q hq
          simp only [pageSize] at *
          omega
        rw [covered_cons, covered_cons, and_or_left, and_iff_right_of_imp (h₁ p)]
        refine or_congr_left ?_
        simp only [Segment.Has, hbase, pageSize] at *
        omega
  · rename_i hbase
    refine ⟨hal, fun p _ ↦ ⟨fun h ↦ ⟨?_, h⟩, fun h ↦ h.2⟩⟩
    rcases covered_cons.1 h with hhas | h'
    · have := hhas.1
      omega
    · have := htail p h'
      omega

/-! ### The pages -/

/-- **The list of free segments is right**: its nodes are nodes of `free_segments`, and its pages
are the pages that should be free. -/
def MMUState.HoldsFreePages (m : MMUState) (map : PhysicalMMap) : Prop :=
  ∃ idxs, m.Free idxs ∧ (∀ i ∈ idxs, i < maxFreeSegments) ∧
    ∀ f, f ∈ m.segmentPages idxs ↔ map.FreePage f

/-- **When the right pages are free.** -/
structure PhysicalMMap.Carvable (map : PhysicalMMap) : Prop where
  /-- Every RAM section reaches a page boundary. -/
  reaches : ∀ r ∈ map.ramSects, r.Reaches
  /-- A second RAM section at address `0`, behind an empty one, has a whole page. -/
  second : ∀ r ∈ map.ramSects[1]?, r.base = 0 → pageSize ≤ r.length
  separable : Separable map.ramRanges map.kernelRanges
  fits : map.ramSects.length + splitCount map.ramRanges map.kernelRanges ≤ maxFreeSegments

section Pages

variable {map : PhysicalMMap} (hs : map.Sorted) (hr : map.InRange)

include hr in
/-- The last page of the address space is not free. -/
theorem not_freePage_last : ¬map.FreePage (wordSize - pageSize) := by
  intro h
  obtain ⟨r, hm, -, hle⟩ := h.inRam
  have hlt := (hr.ram r hm).2
  simp only [wordSize, pageSize] at *
  omega

/-- A segment that covers the rest of the address space covers its last page. -/
theorem mem_pages_last {s : Segment} (hb : s.base % pageSize = 0)
    (hle : s.base ≤ wordSize - pageSize) (hpos : 0 < s.base) (hlen : s.len = wordSize - pageSize) :
    wordSize - pageSize ∈ s.pages := by
  have he : (s.base + s.len) % pageSize = 0 := by
    rw [hlen]
    simp only [wordSize, pageSize] at *
    omega
  refine (Segment.mem_pages_iff hb he).2 ⟨by decide, hle, ?_⟩
  omega

/-- Behind a first segment that is not empty, no segment starts at address `0`. -/
theorem base_ne_zero_of_head {f s : Segment} {fs : List Segment} (h : RamSegments (f :: fs))
    (hf : f.base = 0 → f.len ≠ 0) (hm : s ∈ fs) : s.base ≠ 0 := by
  intro hbase
  have h₁ := h.of_mem_tail hm
  have h₂ := h.end_eq f List.mem_cons_self
  exact hf (by omega) (by omega)

/-- A section at address `0` is empty when it has no whole page. -/
theorem MMapEntry.rounded_ne_empty_iff {r : MMapEntry} (hlt : r.base + r.length < wordSize)
    (h : r.Reaches) :
    (r.rounded.base = 0 → r.rounded.len ≠ 0) ↔ (r.base = 0 → pageSize ≤ r.length) := by
  obtain ⟨hbase, hend, hlen⟩ := rounded_of_reaches hlt h
  rw [hbase] at hlen ⊢
  rw [hend] at hlen
  have hzero : pageUp r.base = 0 ↔ r.base = 0 := by
    simp only [pageUp, pageSize]
    omega
  rw [hzero]
  refine forall_congr' fun hb ↦ ?_
  rw [hb] at hlen
  simp only [pageUp, pageDown, pageSize] at *
  omega

include hs hr in
/-- An empty segment stays at address `0` when the second section there has no whole page. -/
theorem second_iff (hreach : ∀ r ∈ map.ramSects, r.Reaches) :
    (∀ r ∈ map.ramSects[1]?, r.base = 0 → pageSize ≤ r.length) ↔
      ∀ s ∈ unlinkEmpty true map.ramRanges, s.base = 0 → s.len ≠ 0 := by
  have hord := ramSegments_ramRanges hs hr hreach
  have hsorted := hs.ram
  have hiff : ∀ r ∈ map.ramSects, _ := fun r hm ↦
    MMapEntry.rounded_ne_empty_iff (hr.ram r hm).2 (hreach r hm)
  rw [PhysicalMMap.ramRanges] at hord ⊢
  rcases hram : map.ramSects with _ | ⟨r₀, rs⟩
  · exact ⟨fun _ s hm ↦ absurd hm List.not_mem_nil, fun _ r hm ↦ by cases hm⟩
  rw [hram] at hord hiff hsorted
  rw [List.map_cons] at hord ⊢
  by_cases hempty : r₀.rounded.len = 0
  · -- the first section is unlinked, and the second one stays
    rw [unlinkEmpty, if_pos ⟨rfl, hempty⟩]
    rcases rs with _ | ⟨r₁, rs⟩
    · exact ⟨fun _ s hm ↦ absurd hm List.not_mem_nil, fun _ r hm ↦ by cases hm⟩
    rw [List.map_cons, unlinkEmpty, if_neg (fun h ↦ Bool.false_ne_true h.1), List.forall_mem_cons]
    have hr₁ := hiff r₁ (List.mem_cons_of_mem r₀ List.mem_cons_self)
    constructor
    · intro h
      have hne := hr₁.2 (h r₁ rfl)
      refine ⟨hne, fun s hm hbase ↦ absurd hbase ?_⟩
      exact base_ne_zero_of_head hord.tail hne ((unlinkEmpty_sublist true _).subset hm)
    · rintro ⟨hne, -⟩ r hm
      obtain rfl : r₁ = r := Option.some.inj hm
      exact hr₁.1 hne
  · rw [unlinkEmpty, if_neg fun h ↦ hempty h.2, List.forall_mem_cons]
    have hne : r₀.rounded.base = 0 → r₀.rounded.len ≠ 0 := fun _ ↦ hempty
    refine ⟨fun _ ↦ ⟨hne, fun s hm hbase ↦ absurd hbase ?_⟩, fun _ r hm hbase ↦ ?_⟩
    · exact base_ne_zero_of_head hord hne ((unlinkEmpty_sublist true _).subset hm)
    · -- the first section would be empty as well
      have hr₀ := (hiff r₀ List.mem_cons_self).1 hne
      have hle := (List.pairwise_cons.1 hsorted).1 r (List.mem_of_getElem? hm)
      have hpage := hr₀ (by omega)
      simp only [pageSize] at *
      omega

include hs hr in
/-- The pages that should be free, in terms of the ranges. -/
theorem freePage_iff {p : ℕ} (hreach : ∀ r ∈ map.ramSects, r.Reaches) :
    map.FreePage p ↔ IsFrame p ∧ Covered (unlinkEmpty true map.ramRanges) p ∧
      ¬Covered map.kernelRanges p := by
  rw [covered_unlinkEmpty]
  constructor
  · rintro ⟨hframe, hram, hkernel⟩
    rw [covered_ramRanges hr hreach hframe.1, covered_kernelRanges hs.kernel hr.kernel hframe.1]
    exact ⟨hframe, hram, fun ⟨k, hk, hc⟩ ↦ hkernel k hk hc⟩
  · rintro ⟨hframe, hram, hkernel⟩
    rw [covered_ramRanges hr hreach hframe.1] at hram
    rw [covered_kernelRanges hs.kernel hr.kernel hframe.1] at hkernel
    exact ⟨hframe, hram, fun k hk hc ↦ hkernel ⟨k, hk, hc⟩⟩

end Pages

section Walk

variable {fs es out : List Segment} {n p : ℕ}

/-- The pages in the list are the frames that the walk leaves. -/
theorem Carving.mem_pages_iff (h : Carving fs es out n) (hr : RamSegments fs)
    (hk : KernelSegments es) (hne : ∀ s ∈ fs, s.base = 0 → s.len ≠ 0) :
    (∃ s ∈ withoutPageZero out, p ∈ s.pages) ↔ IsFrame p ∧ Covered out p := by
  have hle : ∀ {R ss}, Ordered R ss → ∀ s ∈ ss, s.base < wordSize ∧ s.end_ < wordSize :=
    fun ho s hs ↦ ⟨(ho.le_of_mem hs).trans_lt (ho.lt s hs), ho.lt s hs⟩
  have hal := h.bounds (P := fun a ↦ a % pageSize = 0) hr hk hr.aligned hk.aligned
  have hlt := h.bounds (P := fun a ↦ a < wordSize) hr hk (hle hr) (hle hk)
  have hempty : ∀ s ∈ out, s.base = 0 → s.len ≠ 0 := fun s hs hbase hlen ↦
    hne s (h.mem_of_empty_zero hr hk hs hbase hlen) hbase hlen
  obtain ⟨hal', hcov⟩ :=
    withoutPageZero_spec (h.pairwise hr hk) hal (fun s hs ↦ (hlt s hs).2) hempty
  have hpages : (∃ s ∈ withoutPageZero out, p ∈ s.pages) ↔
      p % pageSize = 0 ∧ Covered (withoutPageZero out) p := by
    constructor
    · rintro ⟨s, hs, hp⟩
      have hp' := (Segment.mem_pages_iff (hal' s hs).1 (hal' s hs).2).1 hp
      exact ⟨hp'.1, s, hs, hp'.2⟩
    · rintro ⟨hp, s, hs, hhas⟩
      exact ⟨s, hs, (Segment.mem_pages_iff (hal' s hs).1 (hal' s hs).2).2 ⟨hp, hhas⟩⟩
  rw [hpages, IsFrame, and_assoc]
  exact and_congr_right fun hp ↦ hcov p hp

theorem mem_withoutPageZero {s : Segment} (hs : s ∈ out) (hbase : s.base ≠ 0) :
    s ∈ withoutPageZero out := by
  rcases out with _ | ⟨t, out⟩
  · exact hs
  rw [withoutPageZero]
  rcases List.mem_cons.1 hs with rfl | hs
  · rw [if_neg hbase]
    exact List.mem_cons_self
  · split
    · split
      · exact hs
      · exact List.mem_cons_of_mem _ hs
    · exact List.mem_cons_of_mem _ hs

end Walk

section Boot

variable {map : PhysicalMMap} {out : List Segment} {n : ℕ}
  (hs : map.Sorted) (hr : map.InRange)
  (h : Carved (unlinkEmpty true map.ramRanges) map.kernelRanges out n)

include hr h in
/-- A RAM section that reaches no page boundary makes the last page of the address space free. -/
theorem reaches_of_not_mem_last (hlast : ∀ s ∈ withoutPageZero out, wordSize - pageSize ∉ s.pages) :
    ∀ r ∈ map.ramSects, r.Reaches := by
  intro r hm
  by_contra hreach
  obtain ⟨hbase, hend, hlen⟩ :=
    MMapEntry.rounded_of_not_reaches (hr.ram r hm).1 (hr.ram r hm).2 hreach
  have hmem : r.rounded ∈ unlinkEmpty true map.ramRanges :=
    mem_unlinkEmpty (List.mem_map_of_mem hm) (by rw [hlen]; decide)
  have hout := h.mem_of_end_le hmem hend.le
  have hpos : 0 < r.rounded.base := (Nat.zero_le _).trans_lt hend
  refine hlast r.rounded (mem_withoutPageZero hout hpos.ne') (mem_pages_last ?_ ?_ hpos hlen)
  · rw [hbase]
    exact pageUp_mod _
  · rw [hbase]
    exact (pageUp_le_iff (by decide)).2 (hr.ram r hm).1

include hs hr h in
/-- And so does an empty segment at address `0`. -/
theorem second_of_not_mem_last (hreach : ∀ r ∈ map.ramSects, r.Reaches)
    (hlast : ∀ s ∈ withoutPageZero out, wordSize - pageSize ∉ s.pages) :
    ∀ s ∈ unlinkEmpty true map.ramRanges, s.base = 0 → s.len ≠ 0 := by
  have hord : RamSegments (unlinkEmpty true map.ramRanges) :=
    (ramSegments_ramRanges hs hr hreach).sublist (unlinkEmpty_sublist true _)
  intro s hm hbase hlen
  rcases hfs : unlinkEmpty true map.ramRanges with _ | ⟨f, fs⟩
  · rw [hfs] at hm
    cases hm
  rw [hfs] at hm hord h
  -- the first segment is empty as well
  have hf : f.base = 0 ∧ f.len = 0 := by
    rcases List.mem_cons.1 hm with rfl | hm
    · exact ⟨hbase, hlen⟩
    · by_contra hf
      exact base_ne_zero_of_head hord (fun h₁ h₂ ↦ hf ⟨h₁, h₂⟩) hm hbase
  have hend := hord.end_eq f List.mem_cons_self
  obtain ⟨out', rfl⟩ := h.head_of_end_le (by omega)
  rw [withoutPageZero, if_pos hf.1, if_neg (by rw [hf.2]; decide), hf.1, hf.2,
    show wadd 0 pageSize = pageSize by decide,
    show wsub 0 pageSize = wordSize - pageSize by decide] at hlast
  exact hlast _ List.mem_cons_self (mem_pages_last (Nat.mod_self _)
    (show pageSize ≤ wordSize - pageSize by decide) (show 0 < pageSize by decide) rfl)

include hs hr h in
/-- **The pages are right exactly when the kernel is taken out of the RAM.** -/
theorem pages_iff_separable (hreach : ∀ r ∈ map.ramSects, r.Reaches)
    (hne : ∀ s ∈ unlinkEmpty true map.ramRanges, s.base = 0 → s.len ≠ 0) :
    (∀ p, (∃ s ∈ withoutPageZero out, p ∈ s.pages) ↔ map.FreePage p) ↔
      Separable map.ramRanges map.kernelRanges := by
  have hram := ramSegments_ramRanges hs hr hreach
  have hord : RamSegments (unlinkEmpty true map.ramRanges) :=
    hram.sublist (unlinkEmpty_sublist true _)
  have hk := (kernelRanges_spec hs.kernel hr.kernel).1
  have hwalk := h.carving hord hk
  have hmirrored := mirrored_unlinkEmpty true hram hk
  rw [← hmirrored.1.separable_iff hmirrored.2, ← hwalk.clean_iff hord hk]
  simp only [hwalk.mem_pages_iff hord hk hne, freePage_iff hs hr hreach]
  constructor
  · intro hpages p hp hcov
    exact ((hpages p).1 ⟨hp, hcov⟩).2.2
  · intro hclean p
    refine and_congr_right fun hp ↦ ⟨fun hcov ↦ ?_, fun hcov ↦ ?_⟩
    · exact ⟨hwalk.covered hord hk hcov, hclean p hp hcov⟩
    · exact hwalk.covered_of hord hk hcov.1 hcov.2

include hs hr h in
theorem splitCount_of_carved (hreach : ∀ r ∈ map.ramSects, r.Reaches) :
    n = splitCount map.ramRanges map.kernelRanges := by
  have hram := ramSegments_ramRanges hs hr hreach
  have hord : RamSegments (unlinkEmpty true map.ramRanges) :=
    hram.sublist (unlinkEmpty_sublist true _)
  have hk := (kernelRanges_spec hs.kernel hr.kernel).1
  have hmirrored := mirrored_unlinkEmpty true hram hk
  rw [(h.carving hord hk).splitCount_eq hord hk, hmirrored.1.splitCount_eq hmirrored.2]

end Boot

/-- If all nodes in the list are in the array, there is room for the new ones. -/
theorem nodes_le {idxs : List ℕ} {m n : ℕ} (hle : m ≤ maxFreeSegments)
    (hnew : ∀ i, m ≤ i → i < m + n → i ∈ idxs) (hlt : ∀ i ∈ idxs, i < maxFreeSegments) :
    m + n ≤ maxFreeSegments := by
  -- otherwise the last new node is behind the end of the array
  by_contra hfits
  have hnode := hlt _ (hnew (m + n - 1) (by omega) (by omega))
  omega

/-- **The free list at boot**: when the loops end, it holds exactly the pages that should be free if
and only if the memory map is `Carvable`. -/
theorem holdsFreePages_iff {fuel : ℕ} {map : PhysicalMMap} {k k' : Machine} (hs : map.Sorted)
    (hr : map.InRange) (hboot : MMU.initSegments fuel map k = some k') :
    k'.mmu.HoldsFreePages map ↔ map.Carvable := by
  obtain ⟨idxs, out, n, hfree, hsegs, hcarved, hbound, hnew⟩ := initSegments_spec hboot
  have hmem : ∀ p, p ∈ k'.mmu.segmentPages idxs ↔ ∃ s ∈ withoutPageZero out, p ∈ s.pages := by
    intro p
    rw [← hsegs, segmentsAt, MMUState.segmentPages]
    simp only [List.mem_flatMap, List.mem_map, exists_exists_and_eq_and]
  constructor
  · rintro ⟨idxs', hfree', hlt, hpages⟩
    obtain rfl := Chain.unique hfree hfree'
    simp only [hmem] at hpages
    have hlast : ∀ s ∈ withoutPageZero out, wordSize - pageSize ∉ s.pages := fun s hm hp ↦
      not_freePage_last hr ((hpages _).1 ⟨s, hm, hp⟩)
    have hreach := reaches_of_not_mem_last hr hcarved hlast
    have hne := second_of_not_mem_last hs hr hcarved hreach hlast
    have hn := splitCount_of_carved hs hr hcarved hreach
    refine ⟨hreach, (second_iff hs hr hreach).2 hne,
      (pages_iff_separable hs hr hcarved hreach hne).1 hpages, ?_⟩
    rw [← hn]
    exact nodes_le hs.length_le hnew hlt
  · rintro ⟨hreach, hsecond, hsep, hfits⟩
    have hne := (second_iff hs hr hreach).1 hsecond
    have hn := splitCount_of_carved hs hr hcarved hreach
    refine ⟨idxs, hfree, fun i hi ↦ ?_, fun p ↦ ?_⟩
    · exact (hbound i hi).trans_le (hn ▸ hfits)
    · rw [hmem]
      exact (pages_iff_separable hs hr hcarved hreach hne).2 hsep p

/-- A PC: RAM below 640 KiB and from 1 MiB on, with the kernel at 1 MiB. -/
def pcMemoryMap : PhysicalMMap where
  ramSects := [⟨0, 0x9FC00⟩, ⟨0x100000, 0x7EE0000⟩]
  kernelSects := [⟨0x100000, 0x6000⟩, ⟨0x106000, 0x3800⟩]

/-- On a PC the right pages are free. -/
theorem holdsFreePages_iff_pcMemoryMap :
    ∃ k', MMU.initSegments 2 pcMemoryMap bootMachine = some k' ∧
      k'.mmu.HoldsFreePages pcMemoryMap := by
  have hs : pcMemoryMap.Sorted := ⟨by decide, by decide, by decide⟩
  have hr : pcMemoryMap.InRange := ⟨by decide, by decide⟩
  obtain ⟨k', hboot⟩ := Option.isSome_iff_exists.1
    (show (MMU.initSegments 2 pcMemoryMap bootMachine).isSome by decide +kernel)
  refine ⟨k', hboot, (holdsFreePages_iff hs hr hboot).2 ⟨by decide, ?_, ?_, ?_⟩⟩
  · rintro r ⟨⟩
    decide
  · decide +kernel
  · decide +kernel

/-- RAM with two separate kernel sections inside. -/
def twoKernelSections : PhysicalMMap where
  ramSects := [⟨0x100000, 0x800000⟩]
  kernelSects := [⟨0x200000, 0x1000⟩, ⟨0x300000, 0x1000⟩]

/-- **A page of the kernel is free.** The first kernel section splits the RAM, and the second one
stays in the rest, whose `end` is not set. -/
theorem kernel_page_free :
    twoKernelSections.Sorted ∧ twoKernelSections.InRange ∧ twoKernelSections.FreePage 0x100000 ∧
      ∃ k', MMU.initSegments 2 twoKernelSections bootMachine = some k' ∧
        ¬k'.mmu.HoldsFreePages twoKernelSections := by
  refine ⟨⟨by decide, by decide, by decide⟩, ⟨by decide, by decide⟩, ?_,
    (MMU.initSegments 2 twoKernelSections bootMachine).getD bootMachine, rfl, ?_⟩
  · refine ⟨by decide, ⟨_, List.mem_singleton_self _, by decide, by decide⟩, ?_⟩
    simp only [twoKernelSections, List.forall_mem_cons, KernelSection.Covers]
    decide
  · rintro ⟨idxs, hfree, -, hpages⟩
    have hchain : ((MMU.initSegments 2 twoKernelSections bootMachine).getD bootMachine).mmu.Free
        [0, 1] := ⟨rfl, rfl, rfl⟩
    obtain rfl : [0, 1] = idxs := hchain.unique hfree
    have hmem : 0x300000 ∈ (⟨0x201000, 0, 0x6FF000⟩ : Segment).pages :=
      (Segment.mem_pages_iff (by decide) (by decide)).2 ⟨by decide, by decide, by decide⟩
    have hfreePage := (hpages 0x300000).1 (List.mem_flatMap.2 ⟨1, by decide, hmem⟩)
    refine hfreePage.notKernel ⟨0x300000, 0x1000⟩ (by decide) ?_
    rw [KernelSection.Covers]
    decide

end Marimba
