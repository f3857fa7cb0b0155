import Mathlib.Data.List.Chain
import Marimba.Memory.FreePages
import Marimba.Memory.LeftBehind

/-!
# The nodes of the free list at boot

`MMU_alloc_frame` takes pages from the first node of the list of free segments and counts its length
down to zero, so every node has to be a positive number of whole pages. `mmu_compute_free_segments`
leaves such a list exactly for the memory maps that are `PhysicalMMap.LeavesWhole`:

* every RAM section reaches a page boundary. One that does not becomes a segment that wraps around
  the end of the address space;
* of two RAM sections next to each other one has a whole page. After an empty section has been
  unlinked, `prev` is the unlinked node, and an empty section behind it stays in the list;
* no RAM section starts in a page range of the kernel and ends exactly where that ends. It would be
  cut down to nothing and stay in the list;
* the RAM sections and the splits fit into `free_segments`.
-/

namespace Marimba

/-- **Segments that the frame allocator can take pages from**: whole pages, at least one of them, up
to an end in the address space, each segment before the next one. -/
structure WholeSegments (ss : List Segment) : Prop where
  base_aligned : ∀ s ∈ ss, s.base % pageSize = 0
  len_aligned : ∀ s ∈ ss, s.len % pageSize = 0
  len_pos : ∀ s ∈ ss, 0 < s.len
  end_lt : ∀ s ∈ ss, s.base + s.len < wordSize
  pairwise : ss.Pairwise fun s t ↦ s.base + s.len ≤ t.base

/-- **The list of free segments is well formed**: its nodes are nodes of `free_segments`, and they
hold whole segments. -/
def MMUState.WellFormedList (m : MMUState) : Prop :=
  ∃ idxs, m.Free idxs ∧ (∀ i ∈ idxs, i < maxFreeSegments) ∧
    WholeSegments (segmentsAt m.freeSegments idxs)

/-- The section has a whole page. -/
def MMapEntry.HoldsPage (r : MMapEntry) : Prop := pageUp r.base + pageSize ≤ r.base + r.length

instance (r : MMapEntry) : Decidable r.HoldsPage := inferInstanceAs (Decidable (_ ≤ _))

/-- **When the list is well formed.** -/
structure PhysicalMMap.LeavesWhole (map : PhysicalMMap) : Prop where
  /-- Every RAM section reaches a page boundary. -/
  reaches : ∀ r ∈ map.ramSects, r.Reaches
  /-- Of two RAM sections next to each other one has a whole page. -/
  adjacent : map.ramSects.IsChain fun r r' ↦ r.HoldsPage ∨ r'.HoldsPage
  /-- No RAM section starts in a page range of the kernel and ends with it. -/
  exact : AtEveryStart (fun f e ↦ f.end_ ≠ e.end_) (unlinkEmpty true map.ramRanges)
    map.kernelRanges
  fits : map.ramSects.length + splitCount map.ramRanges map.kernelRanges ≤ maxFreeSegments

/-! ### Empty segments -/

/-- The empty segments are all unlinked when no two of them are next to each other. -/
theorem unlinkEmpty_len_ne_zero_iff (linked : Bool) (ss : List Segment) :
    (∀ s ∈ unlinkEmpty linked ss, s.len ≠ 0) ↔
      ss.IsChain (fun s t ↦ s.len ≠ 0 ∨ t.len ≠ 0) ∧
        (linked = false → ∀ s ∈ ss.head?, s.len ≠ 0) := by
  induction ss generalizing linked with
  | nil => simp [unlinkEmpty]
  | cons s ss ih =>
    rw [unlinkEmpty, List.isChain_cons]
    by_cases hlen : s.len = 0
    · cases linked with
      | true =>
        rw [if_pos ⟨rfl, hlen⟩, ih false]
        simp only [hlen, ne_eq, not_true_eq_false, false_or, true_imp_iff, Bool.true_eq_false,
          false_imp_iff, and_true]
        exact and_comm
      | false =>
        rw [if_neg (fun h ↦ Bool.false_ne_true h.1), List.forall_mem_cons]
        refine iff_of_false (fun h ↦ h.1 hlen) fun h ↦ h.2 rfl s rfl hlen
    · rw [if_neg fun h ↦ hlen h.2, List.forall_mem_cons, ih true]
      have hhead : ∀ t ∈ (s :: ss).head?, t.len ≠ 0 := by
        rintro t ⟨⟩
        exact hlen
      simp only [hlen, ne_eq, not_false_eq_true, true_or, implies_true, true_and,
        Bool.true_eq_false, false_imp_iff, and_true]
      exact (and_iff_left fun _ ↦ hhead).symm

theorem MMapEntry.rounded_len_ne_zero_iff {r : MMapEntry} (hlt : r.base + r.length < wordSize)
    (h : r.Reaches) : r.rounded.len ≠ 0 ↔ r.HoldsPage := by
  obtain ⟨hbase, hend, hlen⟩ := rounded_of_reaches hlt h
  rw [hbase, hend] at hlen
  rw [HoldsPage, ← le_pageDown_iff (by rw [Nat.add_mod_right, pageUp_mod])]
  have h₁ := pageUp_mod r.base
  have h₂ := pageDown_mod (r.base + r.length)
  simp only [pageSize] at *
  omega

/-- In terms of the sections. -/
theorem adjacent_iff {map : PhysicalMMap} (hr : map.InRange)
    (hreach : ∀ r ∈ map.ramSects, r.Reaches) :
    map.ramSects.IsChain (fun r r' ↦ r.HoldsPage ∨ r'.HoldsPage) ↔
      ∀ s ∈ unlinkEmpty true map.ramRanges, s.len ≠ 0 := by
  rw [unlinkEmpty_len_ne_zero_iff, and_iff_left fun h ↦ (by cases h), PhysicalMMap.ramRanges,
    List.isChain_map]
  have hiff : ∀ r ∈ map.ramSects, r.rounded.len ≠ 0 ↔ r.HoldsPage := fun r hm ↦
    MMapEntry.rounded_len_ne_zero_iff (hr.ram r hm).2 (hreach r hm)
  constructor
  · exact fun h ↦ h.imp_of_mem_imp fun r r' hm hm' hor ↦
      hor.imp (hiff r hm).2 (hiff r' hm').2
  · exact fun h ↦ h.imp_of_mem_imp fun r r' hm hm' hor ↦
      hor.imp (hiff r hm).1 (hiff r' hm').1

section Walk

variable {fs es out : List Segment} {s : Segment} {n : ℕ}

/-- An empty RAM segment stays. -/
theorem Carving.mem_of_empty (h : Carving fs es out n) (hr : RamSegments fs)
    (hk : KernelSegments es) (hs : s ∈ fs) (hlen : s.len = 0) : s ∈ out := by
  have hend : ∀ {fs}, RamSegments fs → s ∈ fs → s.end_ = s.base := fun hr hs ↦ by
    rw [← hr.end_eq s hs, hlen, Nat.add_zero]
  induction h with
  | done => exact hs
  | @split f e fs es out n hsp h ih =>
    rcases List.mem_cons.1 hs with rfl | hs'
    · have h₁ := hend hr hs
      have h₂ := hsp.1
      have h₃ := hsp.2
      have h₄ := hk.base_le
      omega
    · exact List.mem_cons_of_mem _ (List.mem_cons_of_mem _ (ih hr.tail hk.tail hs'))
  | @trim f e fs es out n ha hle h ih =>
    rcases List.mem_cons.1 hs with rfl | hs'
    · have h₁ := hend hr hs
      have h₂ := ha.1
      have h₃ := ha.2
      omega
    · exact List.mem_cons_of_mem _ (ih hr.tail hk hs')
  | @cut f e fs es out n hin hle h ih =>
    rcases List.mem_cons.1 hs with rfl | hs'
    · have h₁ := hend hr hs
      have h₂ := hin.2
      omega
    · exact ih (hr.from_ hk hle) hk.tail (List.mem_cons_of_mem _ hs')
  | @before f e fs es out n hlt hle h ih =>
    rcases List.mem_cons.1 hs with rfl | hs'
    · exact List.mem_cons_self
    · exact List.mem_cons_of_mem _ (ih hr.tail hk hs')
  | after => exact hs

/-- **When the walk leaves no empty segment.** -/
theorem Carving.len_ne_zero_iff (h : Carving fs es out n) (hr : RamSegments fs)
    (hk : KernelSegments es) (hne : ∀ f ∈ fs, f.len ≠ 0) :
    (∀ s ∈ out, s.len ≠ 0) ↔ AtEveryStart (fun f e ↦ f.end_ ≠ e.end_) fs es := by
  induction h with
  | done => exact iff_of_true hne fun e he ↦ absurd (mem_of_mem_gotTo he) List.not_mem_nil
  | @split f e fs es out n hs h ih =>
    obtain ⟨-, hfs⟩ := List.forall_mem_cons.1 hne
    have hupTo := Segment.upTo_add_len hs.1 hk.base_lt
    have hrest := Segment.restAfter_add_len hs.2.le (hr.lt f List.mem_cons_self)
    have h₁ : (f.upTo e).len ≠ 0 := fun h ↦ by
      have h₂ : f.base + (f.upTo e).len = e.base := hupTo
      have h₃ := hs.1
      omega
    have h₂ : (f.restAfter e).len ≠ 0 := fun h ↦ by
      have h₃ : e.end_ + (f.restAfter e).len = f.end_ := hrest
      have h₄ := hs.2
      omega
    have hbase : ∀ e' ∈ es, ¬(f.restAfter e).StartsIn e' := fun e' he' ↦
      Segment.not_startsIn_of_lt (hk.of_mem_tail he')
    have ha : f.Around e := ⟨hs.1, hk.base_le.trans_lt hs.2⟩
    rw [List.forall_mem_cons, and_iff_right h₁, List.forall_mem_cons, and_iff_right h₂,
      ih hr.tail hk.tail hfs, atEveryStart_split hr.inSequence hk ha hs.2, AtEveryStart,
      AtEveryStart, gotTo, gotTo, leftBehind_cons fun e' he' ↦
        ⟨hbase e' he', fun hsp ↦ absurd hsp.2 (Nat.not_lt_zero _)⟩, ← gotTo,
      atEveryStart_cons hbase]
  | @trim f e fs es out n ha hend h ih =>
    obtain ⟨-, hfs⟩ := List.forall_mem_cons.1 hne
    have h₁ : (f.upTo e).len ≠ 0 := fun h ↦ by
      have h₂ : f.base + (f.upTo e).len = e.base := Segment.upTo_add_len ha.1 hk.base_lt
      have h₃ := ha.1
      omega
    rw [List.forall_mem_cons, and_iff_right h₁, ih hr.tail hk hfs,
      atEveryStart_before hk ha.1 hend]
  | @cut f e fs es out n hin hend h ih =>
    obtain ⟨-, hfs⟩ := List.forall_mem_cons.1 hne
    have hr' := hr.from_ hk hend
    rw [atEveryStart_cut hr.inSequence hk hin hend]
    have hlen : e.end_ + (f.from_ e).len = f.end_ :=
      Segment.restAfter_add_len hend (hr.lt f List.mem_cons_self)
    by_cases heq : f.end_ = e.end_
    · -- nothing is left of the segment, and it stays
      have hzero : (f.from_ e).len = 0 := by omega
      have hmem := h.mem_of_empty hr' hk.tail List.mem_cons_self hzero
      exact iff_of_false (fun hall ↦ hall _ hmem hzero) fun hand ↦ hand.1 heq
    · rw [and_iff_right heq]
      refine ih hr' hk.tail (List.forall_mem_cons.2 ⟨fun hzero ↦ ?_, hfs⟩)
      omega
  | @before f e fs es out n hlt hend h ih =>
    obtain ⟨hf, hfs⟩ := List.forall_mem_cons.1 hne
    rw [List.forall_mem_cons, and_iff_right hf, ih hr.tail hk hfs,
      atEveryStart_before hk hlt (hend.trans hk.base_le)]
  | after es hall => exact iff_of_true hne (atEveryStart_after hk hall)

/-- Ignoring the page at address `0` keeps the segments whole. -/
theorem WholeSegments.withoutPageZero (h : WholeSegments out) :
    WholeSegments (withoutPageZero out) := by
  rcases out with _ | ⟨s, ss⟩
  · exact h
  have htail : WholeSegments ss :=
    ⟨fun t ht ↦ h.base_aligned t (List.mem_cons_of_mem s ht),
      fun t ht ↦ h.len_aligned t (List.mem_cons_of_mem s ht),
      fun t ht ↦ h.len_pos t (List.mem_cons_of_mem s ht),
      fun t ht ↦ h.end_lt t (List.mem_cons_of_mem s ht), (List.pairwise_cons.1 h.pairwise).2⟩
  rw [Marimba.withoutPageZero]
  split
  · rename_i hbase
    split
    · exact htail
    · rename_i hpage
      have hpos := h.len_pos s List.mem_cons_self
      have hal := h.len_aligned s List.mem_cons_self
      have hlt := h.end_lt s List.mem_cons_self
      have hnext : ∀ t ∈ ss, s.base + s.len ≤ t.base := (List.pairwise_cons.1 h.pairwise).1
      have hge : pageSize ≤ s.len := by
        simp only [pageSize] at *
        omega
      rw [hbase, wadd_of_lt (by decide), Nat.zero_add, wsub_of_le hge (by omega)]
      rw [hbase, Nat.zero_add] at hlt hnext
      refine ⟨List.forall_mem_cons.2 ⟨Nat.mod_self _, htail.base_aligned⟩,
        List.forall_mem_cons.2 ⟨?_, htail.len_aligned⟩,
        List.forall_mem_cons.2 ⟨?_, htail.len_pos⟩,
        List.forall_mem_cons.2 ⟨?_, htail.end_lt⟩,
        List.pairwise_cons.2 ⟨fun t ht ↦ ?_, htail.pairwise⟩⟩
      · simp only [pageSize] at *
        omega
      · show 0 < s.len - pageSize
        omega
      · show pageSize + (s.len - pageSize) < wordSize
        omega
      · show pageSize + (s.len - pageSize) ≤ t.base
        exact (Nat.add_sub_of_le hge).le.trans (hnext t ht)
  · exact h

/-- Whole segments do not reach the last page of the address space. -/
theorem WholeSegments.not_mem_last (h : WholeSegments out) :
    ∀ s ∈ out, wordSize - pageSize ∉ s.pages := by
  intro s hs hp
  have hb := h.base_aligned s hs
  have hlen := h.len_aligned s hs
  have hlt := h.end_lt s hs
  have he : (s.base + s.len) % pageSize = 0 := by
    simp only [pageSize] at *
    omega
  have hhas := ((Segment.mem_pages_iff hb he).1 hp).2.2
  simp only [wordSize, pageSize] at *
  omega

/-- **What the walk leaves is whole when no segment is empty.** -/
theorem Carving.wholeSegments (h : Carving fs es out n) (hr : RamSegments fs)
    (hk : KernelSegments es) (hne : ∀ s ∈ out, s.len ≠ 0) : WholeSegments out := by
  have hle : ∀ {R ss}, Ordered R ss → ∀ s ∈ ss, s.base < wordSize ∧ s.end_ < wordSize :=
    fun ho s hs ↦ ⟨(ho.le_of_mem hs).trans_lt (ho.lt s hs), ho.lt s hs⟩
  have hal := h.bounds (P := fun a ↦ a % pageSize = 0) hr hk hr.aligned hk.aligned
  have hlt := h.bounds (P := fun a ↦ a < wordSize) hr hk (hle hr) (hle hk)
  refine ⟨fun s hs ↦ (hal s hs).1, fun s hs ↦ ?_, fun s hs ↦ Nat.pos_of_ne_zero (hne s hs),
    fun s hs ↦ (hlt s hs).2, h.pairwise hr hk⟩
  obtain ⟨h₁, h₂⟩ := hal s hs
  simp only [pageSize] at *
  omega

end Walk

/-! ### The list at boot -/

section Boot

variable {map : PhysicalMMap} {out : List Segment} {n : ℕ} (hs : map.Sorted) (hr : map.InRange)
  (h : Carved (unlinkEmpty true map.ramRanges) map.kernelRanges out n)
  (hreach : ∀ r ∈ map.ramSects, r.Reaches)

include hs hr h hreach in
/-- No RAM section is empty when the list is whole. -/
theorem len_ne_zero_of_wholeSegments (hwhole : WholeSegments (withoutPageZero out)) :
    ∀ s ∈ unlinkEmpty true map.ramRanges, s.len ≠ 0 := by
  intro s hm hlen
  have hord : RamSegments (unlinkEmpty true map.ramRanges) :=
    (ramSegments_ramRanges hs hr hreach).sublist (unlinkEmpty_sublist true _)
  by_cases hbase : s.base = 0
  · exact second_of_not_mem_last hs hr h hreach hwhole.not_mem_last s hm hbase hlen
  · have hend := hord.end_eq s hm
    have hout := h.mem_of_end_le hm (by omega)
    exact (hwhole.len_pos s (mem_withoutPageZero hout hbase)).ne' hlen

include hs hr h hreach in
/-- **The list is whole exactly when no RAM segment is cut down to nothing.** -/
theorem wholeSegments_iff (hne : ∀ s ∈ unlinkEmpty true map.ramRanges, s.len ≠ 0) :
    WholeSegments (withoutPageZero out) ↔
      AtEveryStart (fun f e ↦ f.end_ ≠ e.end_) (unlinkEmpty true map.ramRanges)
        map.kernelRanges := by
  have hord : RamSegments (unlinkEmpty true map.ramRanges) :=
    (ramSegments_ramRanges hs hr hreach).sublist (unlinkEmpty_sublist true _)
  have hk := (kernelRanges_spec hs.kernel hr.kernel).1
  have hwalk := h.carving hord hk
  rw [← hwalk.len_ne_zero_iff hord hk hne]
  constructor
  · intro hwhole s hm hlen
    by_cases hbase : s.base = 0
    · exact hne s (hwalk.mem_of_empty_zero hord hk hm hbase hlen) hlen
    · exact (hwhole.len_pos s (mem_withoutPageZero hm hbase)).ne' hlen
  · exact fun hout ↦ (hwalk.wholeSegments hord hk hout).withoutPageZero

end Boot

/-- **The free list at boot is well formed** if and only if the memory map `LeavesWhole`. -/
theorem wellFormedList_iff {fuel : ℕ} {map : PhysicalMMap} {k k' : Machine} (hs : map.Sorted)
    (hr : map.InRange) (hboot : MMU.initSegments fuel map k = some k') :
    k'.mmu.WellFormedList ↔ map.LeavesWhole := by
  obtain ⟨idxs, out, n, hfree, hsegs, hcarved, hbound, hnew⟩ := initSegments_spec hboot
  constructor
  · rintro ⟨idxs', hfree', hlt, hwhole⟩
    obtain rfl := Chain.unique hfree hfree'
    rw [hsegs] at hwhole
    have hreach := reaches_of_not_mem_last hr hcarved hwhole.not_mem_last
    have hne := len_ne_zero_of_wholeSegments hs hr hcarved hreach hwhole
    have hn := splitCount_of_carved hs hr hcarved hreach
    refine ⟨hreach, (adjacent_iff hr hreach).2 hne,
      (wholeSegments_iff hs hr hcarved hreach hne).1 hwhole, ?_⟩
    rw [← hn]
    exact nodes_le hs.length_le hnew hlt
  · rintro ⟨hreach, hadjacent, hexact, hfits⟩
    have hne := (adjacent_iff hr hreach).1 hadjacent
    have hn := splitCount_of_carved hs hr hcarved hreach
    refine ⟨idxs, hfree, fun i hi ↦ (hbound i hi).trans_le (hn ▸ hfits), ?_⟩
    rw [hsegs]
    exact (wholeSegments_iff hs hr hcarved hreach hne).2 hexact

/-- On a PC the list is well formed. -/
theorem wellFormedList_iff_pcMemoryMap :
    ∃ k', MMU.initSegments 2 pcMemoryMap bootMachine = some k' ∧ k'.mmu.WellFormedList := by
  have hs : pcMemoryMap.Sorted := ⟨by decide, by decide, by decide⟩
  have hr : pcMemoryMap.InRange := ⟨by decide, by decide⟩
  obtain ⟨k', hboot⟩ := Option.isSome_iff_exists.1
    (show (MMU.initSegments 2 pcMemoryMap bootMachine).isSome by decide +kernel)
  refine ⟨k', hboot, (wellFormedList_iff hs hr hboot).2 ⟨by decide, ?_, ?_, by decide +kernel⟩⟩
  · simp only [pcMemoryMap, List.isChain_cons_cons, List.isChain_singleton]
    decide
  · simp only [AtEveryStart]
    decide +kernel

/-- RAM in which the kernel fills the first section exactly. -/
def filledSection : PhysicalMMap where
  ramSects := [⟨0x100000, 0x6000⟩, ⟨0x200000, 0x100000⟩]
  kernelSects := [⟨0x100000, 0x6000⟩]

/-- **An empty segment stays in the free list.** The RAM section is cut from its front by all its
length, and its node is not unlinked. -/
theorem empty_segment_in_list :
    filledSection.Sorted ∧ filledSection.InRange ∧ filledSection.FreePage 0x200000 ∧
      ∃ k', MMU.initSegments 2 filledSection bootMachine = some k' ∧
        k'.mmu.freeSegmentHead = some 0 ∧ (k'.mmu.freeSegments 0).s.len = 0 ∧
        ¬k'.mmu.WellFormedList := by
  refine ⟨⟨by decide, by decide, by decide⟩, ⟨by decide, by decide⟩, ?_,
    (MMU.initSegments 2 filledSection bootMachine).getD bootMachine, rfl, rfl, rfl, ?_⟩
  · refine ⟨by decide, ⟨⟨0x200000, 0x100000⟩, by decide, by decide, by decide⟩, ?_⟩
    simp only [filledSection, List.forall_mem_cons, KernelSection.Covers]
    decide
  · rintro ⟨idxs, hfree, -, hwhole⟩
    have hchain : ((MMU.initSegments 2 filledSection bootMachine).getD bootMachine).mmu.Free
        [0, 1] := ⟨rfl, rfl, rfl⟩
    obtain rfl : [0, 1] = idxs := hchain.unique hfree
    exact absurd (hwhole.len_pos _ List.mem_cons_self) (by decide +kernel)

end Marimba
