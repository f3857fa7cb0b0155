import Marimba.Memory.BootSegments
import Marimba.Memory.VirtToPhys

/-!
# Frames behind the identity map

The kernel reaches the frames it allocates by their physical address: it writes link words into free
frames, clears new tables and reads and writes their entries. This goes through the identity map,
which covers the 512 huge pages of one second-level table, a gigabyte. The free segments cover the
whole RAM.

`identity_covers_iff` says for which memory maps every frame that `MMU_alloc_frame` can return is
translated to itself, at all times: exactly for those without a free page behind the first gigabyte.
The free segments are taken to be well formed and without the static tables of the identity map, so
that this is about the identity map alone.
-/

namespace Marimba

open RadixTree

variable {k k₁ : Machine} {identityP3 identityP2 : ℕ} {free held frames idxs : List ℕ} {f : ℕ}

/-- A frame that `MMU_alloc_frame` returns: the root table in `MMU_init`, or the next frame in some
state that the page tables reach afterwards. -/
def Returned (k₁ : Machine) (f : ℕ) : Prop :=
  f = k₁.cr3 ∨ ∃ cmds out s, runTrace PtSystem.step ⟨k₁, []⟩ cmds = some (out, s) ∧
    (MMU.allocFrame s.machine).1 = f ∧ f ≠ 0

/-- Every byte of the frame is at its physical address, in all states that are reached. -/
def AtItsAddress (k₁ : Machine) (f : ℕ) : Prop :=
  ∀ cmds out s, runTrace PtSystem.step ⟨k₁, []⟩ cmds = some (out, s) →
    ∀ o < pageSize, hwTranslate s.machine (f + o) = some (f + o)

/-! ### Which frames are returned -/

/-- Whatever is returned is one of the frames. -/
theorem Paging.allocFrame_mem_frames (h : Paging identityP3 identityP2 frames k free held)
    (hf : (MMU.allocFrame k).1 = f) (hne : f ≠ 0) : f ∈ frames := by
  rcases hfree : free with - | ⟨g, rest⟩
  · rw [h.alloc_nil hfree] at hf
    exact absurd hf.symm hne
  · obtain ⟨hret, -⟩ := h.alloc hfree
    obtain ⟨inSegments, queued, heq, hroles⟩ := h.roles
    rw [← hf, hret]
    refine hroles.owned.unmapped_mem g (List.mem_append_left _ ?_)
    rw [heq, hfree]
    exact List.mem_cons_self

/-- Every free frame is returned, when all before it have been allocated. -/
theorem Paging.exists_run_returning (hf : f ∈ free) : ∀ {k : Machine} {held : List ℕ},
    Paging identityP3 identityP2 frames k free held →
    ∃ cmds out s, runTrace PtSystem.step ⟨k, held⟩ cmds = some (out, s) ∧
      (MMU.allocFrame s.machine).1 = f ∧ f ≠ 0 := by
  induction free with
  | nil => exact absurd hf List.not_mem_nil
  | cons g rest ih =>
    intro k held h
    obtain ⟨hret, hg, h', -⟩ := h.alloc rfl
    rcases List.mem_cons.1 hf with rfl | hf
    · exact ⟨[], [], _, rfl, hret, hg⟩
    · obtain ⟨cmds, out, s, hrun, hs⟩ := ih hf h'
      refine ⟨.allocFrame :: cmds, g :: out, s, ?_, hs⟩
      have hstep : PtSystem.step ⟨k, held⟩ .allocFrame =
          some (g, ⟨(MMU.allocFrame k).2, g :: held⟩) := by
        show some ((MMU.allocFrame k).1, (⟨(MMU.allocFrame k).2,
          (toPtr (MMU.allocFrame k).1).toList ++ held⟩ : PtSystem)) = _
        rw [hret, toPtr_of_ne hg]
        rfl
      rw [runTrace_cons, hstep, Option.bind_some, hrun, Option.map_some]

/-- After `MMU_init` every frame but the root table is free. -/
theorem returned_of_mem (hinit : MMU.initPaging identityP3 identityP2 k = (0, k₁))
    (h : Paging identityP3 identityP2 frames k₁ free []) (hf : f ∈ frames) : Returned k₁ f := by
  obtain ⟨inSegments, queued, heq, hroles⟩ := h.roles
  obtain ⟨root, k₂, rfl⟩ := MMU.initPaging_eq_ok hinit
  rcases hroles.owned.cover f hf with hm | ⟨p, -, hw⟩
  · rw [List.append_nil, heq] at hm
    exact Or.inr (Paging.exists_run_returning hm h)
  · exact Or.inl ((tableWalk_of_empty_root (PT.child_pageTableInit identityP3 root _)).1 hw).2.symm

/-! ### Which frames are at their address -/

/-- Behind the first gigabyte the identity map has no entry. -/
theorem IdentityMap.hwTranslate_eq_none (h : IdentityMap identityP3 identityP2 frames k) {v : ℕ}
    (hge : identityEnd ≤ v) (hlt : v < 2 ^ 39) : hwTranslate k v = none := by
  have hdyn : ¬Dynamic v := by
    rw [Dynamic, not_not, ← hwIndex_eq (by decide)]
    simp only [hwIndex]
    omega
  have hone : hwIndex v 1 ≠ 0 := by
    simp only [hwIndex, identityEnd, hugePageFrameSize, pageTableNumEnts] at *
    omega
  rw [hwTranslate, hwLeaf_of_identity h hdyn, if_neg hone]

theorem Paging.atItsAddress_iff (h : Paging identityP3 identityP2 frames k₁ free [])
    (hf : f ∈ frames) (hlimit : f + pageSize ≤ 2 ^ 39) :
    AtItsAddress k₁ f ↔ f + pageSize ≤ identityEnd := by
  have halign := (h.isFrame f hf).1
  constructor
  · intro hall
    have hself := hall [] [] _ rfl 0 (by decide)
    rw [Nat.add_zero] at hself
    by_contra hgt
    have hge : identityEnd ≤ f := by
      simp only [identityEnd, pageSize, pageTableNumEnts, hugePageFrameSize] at *
      omega
    rw [h.identity.hwTranslate_eq_none hge (by simp only [pageSize] at hlimit; omega)] at hself
    cases hself
  · intro hle cmds out s hrun o ho
    have hinv : PtSystem.Inv identityP3 identityP2 frames ⟨k₁, []⟩ := ⟨free, h⟩
    obtain ⟨free', h'⟩ := PtSystem.inv_runTrace hinv hrun
    exact h'.identity.hwTranslate_eq (by omega)

section Boot

variable {map : PhysicalMMap} {fuel : ℕ} {k₀ : Machine}
  (hboot : MMU.initSegments fuel map k₀ = some k) (hseg : SegmentsWellFormed k.mmu idxs)
  (hlimit : ∀ f ∈ k.mmu.segmentPages idxs, f + pageSize ≤ 2 ^ 39)
  (h₃ : StaticTable (k.mmu.segmentPages idxs) identityP3)
  (h₂ : StaticTable (k.mmu.segmentPages idxs) identityP2) (hne : identityP3 ≠ identityP2)
  (hinit : MMU.initPaging identityP3 identityP2 k = (0, k₁))

include hboot hseg hlimit h₃ h₂ hne hinit

/-- The paging invariant, from the memory map. -/
theorem paging_of_map :
    ∃ free, Paging identityP3 identityP2 (k.mmu.segmentPages idxs) k₁ free [] := by
  refine paging_initPaging hseg (MMU.initSegments_freePageHead hboot) (fun f hf ↦ ?_) h₃ h₂ hne
    hinit
  have hlt := hlimit f hf
  simp only [mmapPhysicalPagesEnd, p4PteAddresses, pageSize] at *
  omega

/-- **When the identity map covers the frames.** For every memory map with free pages up to 512 GB,
whose free segments are well formed and without the two static tables: every frame that is ever
returned is at its physical address, at all times, exactly if no page of the segments is behind the
first gigabyte. When the segments are the right ones for the map, these are the free pages of the
map. -/
theorem identity_covers_iff :
    ((∀ f, Returned k₁ f → AtItsAddress k₁ f) ↔
      ∀ f ∈ k.mmu.segmentPages idxs, f + pageSize ≤ identityEnd) ∧
    ((∀ f, f ∈ k.mmu.segmentPages idxs ↔ map.FreePage f) →
      ((∀ f, Returned k₁ f → AtItsAddress k₁ f) ↔
        ∀ f, map.FreePage f → f + pageSize ≤ identityEnd)) := by
  obtain ⟨free, h⟩ := paging_of_map hboot hseg hlimit h₃ h₂ hne hinit
  have hmem : ∀ f, Returned k₁ f ↔ f ∈ k.mmu.segmentPages idxs := by
    intro f
    refine ⟨fun hf ↦ ?_, returned_of_mem hinit h⟩
    rcases hf with rfl | ⟨cmds, out, s, hrun, hret, hne⟩
    · exact h.mem_frames (p := []) (by simp) rfl
    · have hinv : PtSystem.Inv identityP3 identityP2 (k.mmu.segmentPages idxs) ⟨k₁, []⟩ := ⟨free, h⟩
      obtain ⟨free', h'⟩ := PtSystem.inv_runTrace hinv hrun
      exact h'.allocFrame_mem_frames hret hne
  have hiff : (∀ f, Returned k₁ f → AtItsAddress k₁ f) ↔
      ∀ f ∈ k.mmu.segmentPages idxs, f + pageSize ≤ identityEnd := by
    refine forall_congr' fun f ↦ ?_
    rw [hmem f]
    exact forall_congr' fun hf ↦ h.atItsAddress_iff hf (hlimit f hf)
  refine ⟨hiff, fun hpages ↦ hiff.trans ?_⟩
  exact forall_congr' fun f ↦ by rw [hpages f]

end Boot

/-! ### Two machines -/

/-- RAM from 1 MiB to `ramEnd`, with the kernel in its first 64 KiB. -/
def oneRamSection (ramEnd : ℕ) : PhysicalMMap where
  ramSects := [⟨0x100000, ramEnd - 0x100000⟩]
  kernelSects := [⟨0x100000, 0x10000⟩]

/-- The machine when the free segments of `oneRamSection` are known. -/
def oneSegment (ramEnd : ℕ) : Machine :=
  (MMU.initSegments 2 (oneRamSection ramEnd) bootMachine).getD bootMachine

section OneSegment

variable {ramEnd : ℕ} (hhead : k.mmu.freeSegmentHead = some 0)
  (hnode : k.mmu.freeSegments 0 = ⟨none, ⟨0x110000, ramEnd, ramEnd - 0x110000⟩⟩)
  (hlt : 0x110000 < ramEnd) (hal : ramEnd % pageSize = 0)

include hhead hnode hlt hal in
theorem segmentsWellFormed_oneSegment (hend : ramEnd ≤ 2 ^ 39) :
    SegmentsWellFormed k.mmu [0] where
  chain := ⟨hhead, congrArg SegmentList.next hnode⟩
  wellFormed := by
    intro i hi
    rw [List.mem_singleton.1 hi, hnode]
    constructor <;> simp only [pageSize, wordSize] at * <;> omega
  disjoint := by simp

include hnode hlt hal in
theorem mem_segmentPages_oneSegment :
    f ∈ k.mmu.segmentPages [0] ↔ (oneRamSection ramEnd).FreePage f := by
  have hpages : k.mmu.segmentPages [0] = (k.mmu.freeSegments 0).s.pages := List.append_nil _
  rw [hpages, hnode, Segment.mem_pages]
  constructor
  · rintro ⟨j, hj, rfl⟩
    simp only [pageSize] at hj hal
    refine ⟨?_, ⟨_, List.mem_singleton_self _, ?_, ?_⟩, fun s hs hc ↦ ?_⟩
    · simp only [IsFrame, pageSize]
      omega
    · simp only [pageSize]
      omega
    · simp only [pageSize]
      omega
    · rw [List.mem_singleton.1 hs] at hc
      simp only [KernelSection.Covers, pageSize] at hc
      omega
  · rintro ⟨⟨hmod, -⟩, ⟨r, hr, hle, hfit⟩, hkernel⟩
    have hnot := hkernel _ (List.mem_singleton_self _)
    rw [List.mem_singleton.1 hr] at hle hfit
    simp only [KernelSection.Covers, pageSize] at *
    exact ⟨(f - 0x110000) / 0x1000, by omega, by omega⟩

include hnode hlt hal in
/-- The pages end with the RAM and leave the kernel out. -/
theorem pages_oneSegment (hend : ramEnd ≤ 2 ^ 39) :
    (∀ f ∈ k.mmu.segmentPages [0], f + pageSize ≤ 2 ^ 39) ∧
      ∀ p, IsFrame p → p < 0x110000 → StaticTable (k.mmu.segmentPages [0]) p := by
  have hmem : ∀ f ∈ k.mmu.segmentPages [0], 0x110000 ≤ f ∧ f + pageSize ≤ ramEnd := by
    intro f hf
    rw [show k.mmu.segmentPages [0] = (k.mmu.freeSegments 0).s.pages from List.append_nil _, hnode,
      Segment.mem_pages] at hf
    obtain ⟨j, hj, rfl⟩ := hf
    simp only [pageSize] at *
    omega
  refine ⟨fun f hf ↦ (hmem f hf).2.trans hend, fun p hp hlt' ↦ ⟨hp, ?_, fun hm ↦ ?_⟩⟩
  · exact hlt'.trans (by decide)
  · exact absurd (hmem p hm).1 (not_le.2 hlt')

end OneSegment

/-- A machine with 2 MiB of RAM. -/
theorem identity_covers_iff_smallMachine :
    MMU.initSegments 2 (oneRamSection 0x200000) bootMachine = some (oneSegment 0x200000) ∧
      ((∀ f, Returned (MMU.initPaging 0x101000 0x102000 (oneSegment 0x200000)).2 f →
          AtItsAddress (MMU.initPaging 0x101000 0x102000 (oneSegment 0x200000)).2 f) ↔
        ∀ f, (oneRamSection 0x200000).FreePage f → f + pageSize ≤ identityEnd) := by
  have hboot : MMU.initSegments 2 (oneRamSection 0x200000) bootMachine =
      some (oneSegment 0x200000) := rfl
  have hnode : (oneSegment 0x200000).mmu.freeSegments 0 = ⟨none, ⟨0x110000, 0x200000, 0xF0000⟩⟩ :=
    rfl
  have hinit : MMU.initPaging 0x101000 0x102000 (oneSegment 0x200000) =
      (0, (MMU.initPaging 0x101000 0x102000 (oneSegment 0x200000)).2) := rfl
  obtain ⟨hlimit, hstatic⟩ := pages_oneSegment hnode (by decide) (by decide) (by decide)
  exact ⟨hboot, (identity_covers_iff hboot
    (segmentsWellFormed_oneSegment rfl hnode (by decide) (by decide) (by decide)) hlimit
    (hstatic _ (by decide) (by decide)) (hstatic _ (by decide) (by decide)) (by decide) hinit).2
    fun f ↦ mem_segmentPages_oneSegment hnode (by decide) (by decide)⟩

/-- **A frame behind the identity map.** With 2 GiB of RAM, `MMU_alloc_frame` comes to return the
frame at 1 GiB, and that address is not translated. -/
theorem frame_not_mapped :
    MMU.initSegments 2 (oneRamSection 0x80000000) bootMachine = some (oneSegment 0x80000000) ∧
      (MMU.initPaging 0x101000 0x102000 (oneSegment 0x80000000)).1 = 0 ∧
      Returned (MMU.initPaging 0x101000 0x102000 (oneSegment 0x80000000)).2 0x40000000 ∧
      ¬AtItsAddress (MMU.initPaging 0x101000 0x102000 (oneSegment 0x80000000)).2 0x40000000 := by
  have hboot : MMU.initSegments 2 (oneRamSection 0x80000000) bootMachine =
      some (oneSegment 0x80000000) := rfl
  have hnode : (oneSegment 0x80000000).mmu.freeSegments 0 =
      ⟨none, ⟨0x110000, 0x80000000, 0x7FEF0000⟩⟩ := rfl
  have hinit : MMU.initPaging 0x101000 0x102000 (oneSegment 0x80000000) =
      (0, (MMU.initPaging 0x101000 0x102000 (oneSegment 0x80000000)).2) := rfl
  obtain ⟨hlimit, hstatic⟩ := pages_oneSegment hnode (by decide) (by decide) (by decide)
  obtain ⟨free, h⟩ := paging_of_map hboot
    (segmentsWellFormed_oneSegment rfl hnode (by decide) (by decide) (by decide)) hlimit
    (hstatic _ (by decide) (by decide)) (hstatic _ (by decide) (by decide)) (by decide) hinit
  have hfree : (oneRamSection 0x80000000).FreePage 0x40000000 := by
    refine ⟨by decide, ⟨_, List.mem_singleton_self _, by decide, by decide⟩, fun s hs ↦ ?_⟩
    rw [List.mem_singleton.1 hs, KernelSection.Covers]
    decide
  have hmem := (mem_segmentPages_oneSegment hnode (by decide) (by decide)).2 hfree
  refine ⟨hboot, rfl, returned_of_mem hinit h hmem, fun hall ↦ ?_⟩
  exact absurd ((h.atItsAddress_iff hmem (hlimit _ hmem)).1 hall) (by decide)

end Marimba
