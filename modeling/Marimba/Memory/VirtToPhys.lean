import Marimba.Memory.PagingSystem

/-!
# The software lookup of physical addresses

`PT_addr_virt_to_phys` walks the tables as `pt_walk` does and returns where the walk ends. It
differs from the processor's translation in two ways.

* The end of `pt_walk` is an entry of a table of eight-byte entries, so in a page of 4 KiB the
  offset of the address counts **eightfold**: the two agree on the first byte of the page only.
* `pt_walk` does not know huge pages. In the identity map it reads the word that happens to be in
  physical memory where the table of a huge page would be, and goes on from there.

`lookup_agrees_iff` says for every canonical address and every state the page tables can be in when
the two agree.
-/

namespace Marimba

variable {k : Machine} {identityP3 identityP2 : ℕ} {free held frames : List ℕ} {v : ℕ}

/-- `PT_addr_virt_to_phys`. -/
def PT.addrVirtToPhys (k : Machine) (vaddr : ℕ) : ℕ :=
  let (depth, addr) := ptWalk k vaddr
  if depth = physicalPageDepth then addr else 0

/-- A canonical address: bits 47 to 63 agree. -/
def Canonical (v : ℕ) : Prop := v < 2 ^ 47 ∨ (2 ^ 64 - 2 ^ 47 ≤ v ∧ v < 2 ^ 64)

instance (v : ℕ) : Decidable (Canonical v) := inferInstanceAs (Decidable (_ ∨ _))

/-- The bytes that the identity map covers. -/
abbrev identityEnd : ℕ := pageTableNumEnts * hugePageFrameSize

/-- The word that `pt_walk` takes for the last entry of an address in the identity map. -/
def strayEntry (v : ℕ) : ℕ :=
  v / hugePageFrameSize * hugePageFrameSize + 8 * (v / pageSize % pageTableNumEnts)

/-- **When the lookup is right.** In the identity map: at address `0`, if the word there is not
marked as present, and at the start of a page whose stray entry happens to be a present entry for
that very page, as far as `pte_get_addr` keeps the address. Elsewhere: when the address is not
mapped, or at the start of a page. -/
def LookupRight (k : Machine) (v : ℕ) : Prop :=
  if v < identityEnd then
    (v = 0 ∧ PTE.present (k.mem 0) = false) ∨
      (pageSize ≤ v ∧ v % pageSize = 0 ∧ PTE.present (k.mem (strayEntry v)) = true ∧
        pteGetAddr (k.mem (strayEntry v)) = v)
  else hwTranslate k v = none ∨ v % pageSize = 0

/-! ### Outside the identity map -/

theorem Paging.lookup_of_dynamic (h : Paging identityP3 identityP2 frames k free held)
    (hv : Dynamic v) :
    PT.addrVirtToPhys k v = (hwTranslate k v).getD 0 ↔
      hwTranslate k v = none ∨ v % pageSize = 0 := by
  have hwalk := ptWalk_spec h.tableTree hv
  rw [PT.addrVirtToPhys, hwTranslate, hwLeaf_of_dynamic h.tableTree h.plain hv]
  generalize ptWalk k v = r at hwalk
  cases hwalk with
  | @frame f hf =>
    obtain ⟨w, hw, hp, rfl⟩ := leafEntry_of_mapped hf
    simp only [hw, hp, (h.plain.leafEntry hw).addr, if_true, Option.getD_some, reduceCtorEq,
      false_or, ptOffsetForDepth_physical]
    omega
  | @stop d t hd ht hp =>
    simp only [Nat.ne_of_lt hd, if_false]
    rcases hw : leafEntry k v with - | w
    · simp
    · have hpw := h.tableTree.not_present_of_stop hv hd ht hp hw
      simp [hpw]

/-! ### In the identity map -/

section Identity

variable (hv : v < identityEnd)

include hv

theorem hwIndex_of_lt_identityEnd :
    ¬Dynamic v ∧ hwIndex v 1 = 0 ∧ hwIndex v 2 = v / hugePageFrameSize ∧
      hwIndex v 3 = v / pageSize % pageTableNumEnts := by
  rw [Dynamic, not_not, ← hwIndex_eq (by decide)]
  simp only [hwIndex, identityEnd, hugePageFrameSize, pageTableNumEnts, pageSize] at *
  omega

/-- The processor translates an address of the identity map to itself. -/
theorem IdentityMap.hwTranslate_eq (h : IdentityMap identityP3 identityP2 frames k) :
    hwTranslate k v = some v := by
  obtain ⟨hdyn, hone, htwo, -⟩ := hwIndex_of_lt_identityEnd hv
  have hlt : v / hugePageFrameSize < pageTableNumEnts := by
    rw [← htwo]
    exact Nat.mod_lt _ (by decide)
  rw [hwTranslate, hwLeaf_of_identity h hdyn, if_pos hone, htwo]
  simp only [hugePageBase_identityEntry hlt, Option.some.injEq, hugePageFrameSize]
  omega

theorem Paging.lookup_of_identity (h : Paging identityP3 identityP2 frames k free held) :
    PT.addrVirtToPhys k v = (hwTranslate k v).getD 0 ↔ LookupRight k v := by
  obtain ⟨hdyn, hone, htwo, hthree⟩ := hwIndex_of_lt_identityEnd hv
  have hcr3 := h.tableTree.cr3_frame.2
  have hstray : strayEntry v = 0 ↔ v < pageSize := by
    simp only [strayEntry, hugePageFrameSize, pageSize, pageTableNumEnts]
    omega
  have haddr := pteGetAddr_aligned (k.mem (strayEntry v))
  rw [h.identity.hwTranslate_eq hv, Option.getD_some, LookupRight, if_pos hv, PT.addrVirtToPhys,
    h.identity.ptWalk_of_eq hcr3.ne' hdyn hone, htwo, hthree]
  dsimp only
  rw [← strayEntry]
  by_cases hp : PTE.present (k.mem (strayEntry v)) = true
  · rw [if_pos hp]
    by_cases hzero : strayEntry v = 0
    · -- the walk comes back to the root table
      have hlt := hstray.1 hzero
      rw [hzero] at hp
      simp only [if_true, hzero, hp, Bool.true_eq_false, and_false, false_or]
      simp only [pageSize] at hlt ⊢
      omega
    · have hge := mt hstray.2 hzero
      simp only [if_true, hzero, if_false, hp, true_and]
      simp only [pageSize] at *
      omega
  · rw [if_neg hp]
    simp only [show pageTableDepth ≠ physicalPageDepth by decide, if_false, hp, Bool.false_eq_true,
      false_and, and_false, or_false]
    constructor
    · rintro rfl
      exact ⟨rfl, by rwa [hstray.2 (by decide), Bool.not_eq_true] at hp⟩
    · exact fun hv₀ ↦ hv₀.1.symm

end Identity

/-- Behind the first gigabyte of the identity map neither walk finds anything. -/
theorem Paging.lookup_of_hole (h : Paging identityP3 identityP2 frames k free held)
    (hdyn : ¬Dynamic v) (hone : hwIndex v 1 ≠ 0) :
    PT.addrVirtToPhys k v = 0 ∧ hwTranslate k v = none := by
  rw [PT.addrVirtToPhys, h.identity.ptWalk_of_ne h.tableTree.cr3_frame.2.ne' hdyn hone, hwTranslate,
    hwLeaf_of_identity h.identity hdyn, if_neg hone]
  exact ⟨rfl, rfl⟩

/-! ### Every address -/

theorem Paging.lookup_iff (h : Paging identityP3 identityP2 frames k free held)
    (hv : Canonical v) :
    PT.addrVirtToPhys k v = (hwTranslate k v).getD 0 ↔ LookupRight k v := by
  by_cases hid : v < identityEnd
  · exact h.lookup_of_identity hid
  · rw [LookupRight, if_neg hid]
    by_cases hdyn : Dynamic v
    · exact h.lookup_of_dynamic hdyn
    · have hone : hwIndex v 1 ≠ 0 := by
        rw [Dynamic, not_not, ← hwIndex_eq (by decide)] at hdyn
        simp only [Canonical, hwIndex, identityEnd, hugePageFrameSize, pageTableNumEnts] at *
        omega
      obtain ⟨hsoft, hhard⟩ := h.lookup_of_hole hdyn hone
      rw [hsoft, hhard]
      exact iff_of_true rfl (Or.inl rfl)

/-- **When the lookup agrees with the processor.** In every state that the page tables can reach
after `MMU_init`, and for every canonical address: exactly when `LookupRight` holds. -/
theorem lookup_agrees_iff {k₁ : Machine} {idxs : List ℕ} (hseg : SegmentsWellFormed k.mmu idxs)
    (hq : k.mmu.freePageHead = 0) (hend : ∀ f ∈ k.mmu.segmentPages idxs, f < mmapPhysicalPagesEnd)
    (h₃ : StaticTable (k.mmu.segmentPages idxs) identityP3)
    (h₂ : StaticTable (k.mmu.segmentPages idxs) identityP2) (hne : identityP3 ≠ identityP2)
    (hinit : MMU.initPaging identityP3 identityP2 k = (0, k₁)) {cmds : List PtCmd} {out : List ℕ}
    {s : PtSystem} (hrun : runTrace PtSystem.step ⟨k₁, []⟩ cmds = some (out, s))
    (hv : Canonical v) :
    PT.addrVirtToPhys s.machine v = (hwTranslate s.machine v).getD 0 ↔ LookupRight s.machine v := by
  have hinit' : PtSystem.Inv identityP3 identityP2 (k.mmu.segmentPages idxs) ⟨k₁, []⟩ :=
    paging_initPaging hseg hq hend h₃ h₂ hne hinit
  obtain ⟨free, h⟩ := PtSystem.inv_runTrace hinit' hrun
  exact h.lookup_iff hv

/-- The first page of the heap is mapped, and looked up at its start. -/
theorem lookup_agrees_iff_pageStart :
    ∃ out s, runTrace PtSystem.step ⟨(MMU.initPaging 0x100000 0x101000 (poolOfPages 8)).2, []⟩
        [.demandAllocate mmapKernelHeapStart, .pageFault mmapKernelHeapStart] = some (out, s) ∧
      (PT.addrVirtToPhys s.machine mmapKernelHeapStart =
          (hwTranslate s.machine mmapKernelHeapStart).getD 0 ↔
        LookupRight s.machine mmapKernelHeapStart) := by
  have hsome : (runTrace PtSystem.step ⟨(MMU.initPaging 0x100000 0x101000 (poolOfPages 8)).2, []⟩
      [.demandAllocate mmapKernelHeapStart, .pageFault mmapKernelHeapStart]).isSome := by
    decide +kernel
  obtain ⟨⟨out, s⟩, hrun⟩ := Option.isSome_iff_exists.1 hsome
  have hinit : MMU.initPaging 0x100000 0x101000 (poolOfPages 8) =
      (0, (MMU.initPaging 0x100000 0x101000 (poolOfPages 8)).2) := rfl
  exact ⟨out, s, hrun, lookup_agrees_iff (segmentsWellFormed_poolOfPages (by decide) (by decide))
    rfl
    (by decide) ⟨by decide, by decide, by decide⟩ ⟨by decide, by decide, by decide⟩ (by decide)
    hinit hrun (by decide)⟩

/-- **The lookup counts offsets eightfold**: for the second byte of the first page of the heap,
which is mapped to the frame `0x5000`, it returns `0x5008`. -/
theorem lookup_wrong_in_page :
    ∃ out s, runTrace PtSystem.step ⟨(MMU.initPaging 0x100000 0x101000 (poolOfPages 8)).2, []⟩
        [.demandAllocate mmapKernelHeapStart, .pageFault mmapKernelHeapStart] = some (out, s) ∧
      Canonical (mmapKernelHeapStart + 1) ∧
      hwTranslate s.machine (mmapKernelHeapStart + 1) = some 0x5001 ∧
      PT.addrVirtToPhys s.machine (mmapKernelHeapStart + 1) = 0x5008 := by
  have hrun : ((runTrace PtSystem.step ⟨(MMU.initPaging 0x100000 0x101000 (poolOfPages 8)).2, []⟩
      [.demandAllocate mmapKernelHeapStart, .pageFault mmapKernelHeapStart]).map fun r ↦
        (hwTranslate r.2.machine (mmapKernelHeapStart + 1),
          PT.addrVirtToPhys r.2.machine (mmapKernelHeapStart + 1))) =
        some (some 0x5001, 0x5008) := by
    decide +kernel
  obtain ⟨⟨out, s⟩, hrun, heq⟩ := Option.map_eq_some_iff.1 hrun
  obtain ⟨hhard, hsoft⟩ := Prod.mk.inj heq
  exact ⟨out, s, hrun, by decide, hhard, hsoft⟩

end Marimba
