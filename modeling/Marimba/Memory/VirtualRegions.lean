import Marimba.Memory.KernelStacks

/-!
# The regions of heap and stacks

Virtual pages are handed out by two bump pointers that move in opposite directions and never come
back: the heap pointer upward page by page, the stack pointer downward ten pages at a time and eight
bytes below the page boundary. `HandsOutRegions` is what a run of calls should give: every page
handed out is in its region, no page is handed out twice, and a call that finds its region used up
returns null.

**The heap stops at its end, the stacks do not.** The heap pointer meets the constant it is compared
with. The stack pointer is compared with `MMAP_KERNEL_HEAP_START`, which is above its region, and
ten pages do not divide the region either: the stack behind the last one that fits lies across its
lower end. So a run is right exactly when it asks for no more stacks than fit
(`handsOutRegions_iff`).
-/

namespace Marimba

/-! ### `MMU_alloc_pages` as a bump allocator -/

namespace MMU

variable {k : Machine}

theorem allocPage_bump (hend : k.bumps.1 ≠ mmapKernelHeapEnd) :
    (allocPage k).1 = k.bumps.1 ∧ (allocPage k).2.bumps.1 = wadd k.bumps.1 pageSize := by
  obtain ⟨q, hq⟩ := allocPage_of_ne_end hend
  rw [hq, Machine.setIrq_bumps, PT.demandAllocate_bumps, Machine.setHeap_bumps]
  exact ⟨rfl, rfl⟩

theorem allocPage_bump_of_lt (hlt : k.bumps.1 < mmapKernelHeapEnd) :
    (allocPage k).1 = k.bumps.1 ∧ (allocPage k).2.bumps.1 = k.bumps.1 + pageSize := by
  rw [← wadd_pageSize_of_lt hlt]
  exact allocPage_bump hlt.ne

theorem allocPage_bump_end (hend : k.bumps.1 = mmapKernelHeapEnd) :
    (allocPage k).1 = 0 ∧ (allocPage k).2.bumps.1 = k.bumps.1 := by
  rw [allocPage_of_end hend, Machine.setIrq_bumps]
  exact ⟨rfl, rfl⟩

section Bump

variable (hpos : 0 < k.bumps.1) (hle : k.bumps.1 ≤ mmapKernelHeapEnd)
  (hal : k.bumps.1 % pageSize = 0)

include hpos hle hal

/-- The loop succeeds if the heap lasts, and uses it up if not. -/
theorem allocMorePages_bump (n : ℕ) :
    ((allocMorePages n k).1 = true ↔ k.bumps.1 + pageSize * n ≤ mmapKernelHeapEnd) ∧
      (allocMorePages n k).2.bumps.1 = min (k.bumps.1 + pageSize * n) mmapKernelHeapEnd := by
  simp only [pageSize, mmapKernelHeapEnd, p4PteAddresses] at *
  induction n with
  | zero => exact ⟨iff_of_true rfl hle, (min_eq_left hle).symm⟩
  | succ n ih =>
    obtain ⟨hok, hbumps⟩ := ih
    rw [allocMorePages]
    dsimp only
    split
    · next htrue =>
      replace hok := hok.1 htrue
      rcases eq_or_ne (allocMorePages n k).2.bumps.1 mmapKernelHeapEnd with hend | hend
      · obtain ⟨hret, hnext⟩ := allocPage_bump_end hend
        rw [hret, hnext, hend]
        simp only [mmapKernelHeapEnd, p4PteAddresses, bne_self_eq_false, Bool.false_eq_true,
          false_iff] at *
        omega
      · have hlt : (allocMorePages n k).2.bumps.1 < mmapKernelHeapEnd :=
          lt_of_le_of_ne (hbumps ▸ min_le_right _ _) hend
        obtain ⟨hret, hnext⟩ := allocPage_bump_of_lt hlt
        rw [hret, hnext, hbumps]
        simp only [mmapKernelHeapEnd, p4PteAddresses, pageSize, bne_iff_ne, ne_eq] at *
        omega
    · next hfalse =>
      dsimp only
      rw [hbumps]
      simp only [Bool.false_eq_true, false_iff]
      have := mt hok.2 hfalse
      omega

theorem allocPages_bump (n : ℤ) :
    (allocPages k n).1 =
        (if 0 < n ∧ k.bumps.1 + pageSize * n.toNat ≤ mmapKernelHeapEnd then k.bumps.1 else 0) ∧
      (allocPages k n).2.bumps.1 =
        if 0 < n then min (k.bumps.1 + pageSize * n.toNat) mmapKernelHeapEnd else k.bumps.1 := by
  rw [allocPages]
  split
  · next hn => simp only [hn.not_gt, false_and, if_false, and_self]
  · next hn =>
    obtain ⟨m, rfl⟩ : ∃ m : ℕ, n = (m + 1 : ℕ) := ⟨(n - 1).toNat, by omega⟩
    have hm : (((m + 1 : ℕ) : ℤ) - 1).toNat = m := by omega
    have htoNat : ((m + 1 : ℕ) : ℤ).toNat = m + 1 := rfl
    simp only [not_le.1 hn, true_and, if_true, hm, htoNat]
    rcases eq_or_ne k.bumps.1 mmapKernelHeapEnd with hend | hend
    · obtain ⟨hret, hnext⟩ :=
        allocPage_bump_end (k := k.setIrq (IRQ.disable k.irq)) (by rw [Machine.setIrq_bumps, hend])
      rw [Machine.setIrq_bumps] at hnext
      have hfull : ¬k.bumps.1 + pageSize * (m + 1) ≤ mmapKernelHeapEnd := by
        rw [hend]
        simp only [pageSize]
        omega
      rw [hret, if_pos rfl, if_neg hfull, min_eq_right (not_le.1 hfull).le]
      exact ⟨rfl, hnext.trans hend⟩
    · obtain ⟨hret, hnext⟩ :=
        allocPage_bump_of_lt (k := k.setIrq (IRQ.disable k.irq))
          (by rw [Machine.setIrq_bumps]; exact lt_of_le_of_ne hle hend)
      rw [Machine.setIrq_bumps] at hret hnext
      have hle' : k.bumps.1 + pageSize ≤ mmapKernelHeapEnd := by
        simp only [pageSize, mmapKernelHeapEnd, p4PteAddresses] at *
        omega
      obtain ⟨hok, hbumps⟩ := allocMorePages_bump
        (k := (allocPage (k.setIrq (IRQ.disable k.irq))).2) (by rw [hnext]; omega)
        (by rw [hnext]; exact hle') (by rw [hnext, Nat.add_mod_right]; exact hal) m
      rw [hnext, Nat.add_assoc, Nat.add_comm pageSize, ← Nat.mul_succ] at hok hbumps
      rw [hret, if_neg hpos.ne']
      by_cases hroom : k.bumps.1 + pageSize * (m + 1) ≤ mmapKernelHeapEnd
      · rw [if_pos (hok.2 hroom), if_pos hroom]
        exact ⟨rfl, by rw [Machine.setIrq_bumps]; exact hbumps⟩
      · rw [if_neg (mt hok.1 hroom), if_neg hroom]
        exact ⟨rfl, hbumps⟩

end Bump

theorem inRegions_allocPages (hb : InRegions k.bumps) (n : ℤ) :
    InRegions (allocPages k n).2.bumps := by
  have hpos : 0 < k.bumps.1 := lt_of_lt_of_le (by decide) hb.heap_start
  have hheap := (allocPages_bump hpos hb.heap_end hb.heap_aligned n).2
  have hstack := allocPages_bumps k n
  obtain ⟨hstart, hend, hal, hstackStart, hstackTop⟩ := hb
  refine ⟨?_, ?_, ?_, hstack ▸ hstackStart, hstack ▸ hstackTop⟩ <;> rw [hheap] <;> split
  · exact le_min (hstart.trans (Nat.le_add_right _ _)) (by decide)
  · exact hstart
  · exact min_le_right _ _
  · exact hend
  · rcases min_choice (k.bumps.1 + pageSize * n.toNat) mmapKernelHeapEnd with h | h <;> rw [h]
    · rw [Nat.add_mul_mod_self_left]
      exact hal
    · decide
  · exact hal

end MMU

/-! ### Calls and what they hand out -/

/-- A call of the allocator of virtual pages. -/
inductive VirtCmd where
  | allocPage
  | allocPages (numPages : ℤ)
  | allocStack
  deriving DecidableEq, Repr

namespace VirtCmd

/-- Make the call. -/
def run (k : Machine) : VirtCmd → ℕ × Machine
  | .allocPage => MMU.allocPage k
  | .allocPages numPages => MMU.allocPages k numPages
  | .allocStack => MMU.allocStack k

/-- The pages that a call hands out with its result: none with null, otherwise those from a heap
page upward, or those from the top of a stack downward. -/
def pages (c : VirtCmd) (r : ℕ) : List ℕ :=
  if r = 0 then []
  else
    match c with
    | .allocPage => [r]
    | .allocPages numPages => (List.range numPages.toNat).map fun i ↦ r + pageSize * i
    | .allocStack => (List.range kernelThreadStackSizePages).map (stackPage r)

theorem pages_zero (c : VirtCmd) : c.pages 0 = [] := by
  cases c <;> rfl

/-- A page in the region of the call. -/
def InRegion (p : ℕ) : VirtCmd → Prop
  | .allocStack => mmapKernelStacksStart ≤ p ∧ p + pageSize ≤ mmapKernelStacksEnd
  | _ => mmapKernelHeapStart ≤ p ∧ p + pageSize ≤ mmapKernelHeapEnd

/-- There is not enough left between the bump pointer and the end of the region. -/
def Exhausted (k : Machine) : VirtCmd → Prop
  | .allocPage => mmapKernelHeapEnd < k.bumps.1 + pageSize
  | .allocPages numPages => mmapKernelHeapEnd < k.bumps.1 + pageSize * numPages.toNat
  | .allocStack => k.bumps.2 + 8 < mmapKernelStacksStart + stackSize

end VirtCmd

/-- A call that was made: the state it was made in and its result. -/
structure VirtCall where
  before : Machine
  cmd : VirtCmd
  result : ℕ

namespace VirtCall

/-- The pages handed out. -/
def pages (c : VirtCall) : List ℕ := c.cmd.pages c.result

/-- The calls of a run. -/
def ofRun : Machine → List VirtCmd → List VirtCall
  | _, [] => []
  | k, c :: cs => ⟨k, c, (c.run k).1⟩ :: ofRun (c.run k).2 cs

end VirtCall

/-- **What a run of calls should give.** -/
structure HandsOutRegions (k : Machine) (cs : List VirtCmd) : Prop where
  /-- Every page handed out is in its region. -/
  inRegion : ∀ c ∈ VirtCall.ofRun k cs, ∀ p ∈ c.pages, c.cmd.InRegion p
  /-- No page is handed out twice. -/
  once : ((VirtCall.ofRun k cs).flatMap VirtCall.pages).Nodup
  /-- A call that finds its region used up returns null. -/
  null : ∀ c ∈ VirtCall.ofRun k cs, c.cmd.Exhausted c.before → c.result = 0

/-- The stacks that fit into their region. -/
def maxStacks : ℕ := (mmapKernelStacksEnd - mmapKernelStacksStart) / stackSize

/-! ### One call -/

/-- A page that the bump pointers have not passed yet. -/
def Ahead (b : ℕ × ℕ) (p : ℕ) : Prop :=
  (b.1 ≤ p ∧ p + pageSize ≤ mmapKernelHeapEnd) ∨
    (mmapKernelStacksStart ≤ p ∧ p + pageSize ≤ b.2 + 8)

/-- What one call does: it hands out pages of its region that were ahead of the pointers and no
longer are. -/
structure HandsOut (k : Machine) (c : VirtCmd) : Prop where
  regions : InRegions (c.run k).2.bumps
  inRegion : ∀ p ∈ c.pages (c.run k).1, c.InRegion p
  nodup : (c.pages (c.run k).1).Nodup
  ahead : ∀ p ∈ c.pages (c.run k).1, Ahead k.bumps p ∧ ¬Ahead (c.run k).2.bumps p
  mono : ∀ p, Ahead (c.run k).2.bumps p → Ahead k.bumps p
  null : c.Exhausted k → (c.run k).1 = 0

section Step

variable {k : Machine} (hb : InRegions k.bumps)

include hb

/-- A call for heap pages moves the heap pointer over what it hands out. -/
theorem handsOut_heap {c : VirtCmd} {n : ℕ} (hreg : InRegions (c.run k).2.bumps)
    (hstack : (c.run k).2.bumps.2 = k.bumps.2)
    (hin : ∀ p, c.InRegion p ↔ mmapKernelHeapStart ≤ p ∧ p + pageSize ≤ mmapKernelHeapEnd)
    (hpages : ∀ r ≠ 0, c.pages r = (List.range n).map fun i ↦ r + pageSize * i)
    (hret : (c.run k).1 =
      if 0 < n ∧ k.bumps.1 + pageSize * n ≤ mmapKernelHeapEnd then k.bumps.1 else 0)
    (hheap : (c.run k).2.bumps.1 = min (k.bumps.1 + pageSize * n) mmapKernelHeapEnd)
    (hex : c.Exhausted k ↔ mmapKernelHeapEnd < k.bumps.1 + pageSize * n) : HandsOut k c := by
  have hstart := hb.heap_start
  have hstackLt := hb.stack_lt
  have hmem : ∀ p ∈ c.pages (c.run k).1, k.bumps.1 + pageSize * n ≤ mmapKernelHeapEnd ∧
      ∃ i < n, p = k.bumps.1 + pageSize * i := by
    intro p hp
    rw [hret] at hp
    split at hp
    · next hroom =>
      rw [hpages _ (by simp only [mmapKernelHeapStart, p4PteAddresses] at hstart; omega)] at hp
      obtain ⟨i, hi, rfl⟩ := List.mem_map.1 hp
      exact ⟨hroom.2, i, List.mem_range.1 hi, rfl⟩
    · rw [VirtCmd.pages_zero] at hp
      exact absurd hp List.not_mem_nil
  refine ⟨hreg, fun p hp ↦ ?_, ?_, fun p hp ↦ ?_, fun p hp ↦ ?_, fun he ↦ ?_⟩
  · obtain ⟨hroom, i, hi, rfl⟩ := hmem p hp
    rw [hin]
    simp only [pageSize] at *
    omega
  · rcases eq_or_ne (c.run k).1 0 with hzero | hne
    · rw [hzero, VirtCmd.pages_zero]
      exact List.nodup_nil
    · rw [hpages _ hne]
      refine List.Nodup.map (fun i j hij ↦ ?_) List.nodup_range
      simp only [pageSize] at hij
      omega
  · obtain ⟨hroom, i, hi, rfl⟩ := hmem p hp
    rw [Ahead, Ahead, hheap, hstack, min_eq_left hroom]
    simp only [pageSize, mmapKernelHeapStart, mmapKernelStacksEnd, mmapKernelStacksStart,
      p4PteAddresses] at *
    omega
  · rw [Ahead, hheap, hstack] at hp
    rw [Ahead]
    simp only [pageSize, mmapKernelHeapEnd, p4PteAddresses] at *
    omega
  · rw [hret, if_neg fun h ↦ absurd h.2 (not_le.2 (hex.1 he))]

theorem handsOut_allocPage : HandsOut k .allocPage := by
  have hstack := MMU.allocPage_bumps k
  rcases eq_or_ne k.bumps.1 mmapKernelHeapEnd with hend | hend
  · obtain ⟨hret, hnext⟩ := MMU.allocPage_bump_end hend
    have hbumps : (MMU.allocPage k).2.bumps = k.bumps := Prod.ext hnext hstack
    refine handsOut_heap hb (c := .allocPage) (n := 1) ?_ hstack (fun _ ↦ Iff.rfl)
      (fun r hr ↦ ?_) ?_
      ?_ ?_
    · show InRegions (MMU.allocPage k).2.bumps
      rw [hbumps]
      exact hb
    · simp [VirtCmd.pages, hr]
    · refine hret.trans (if_neg fun h ↦ ?_).symm
      rw [hend] at h
      exact absurd h.2 (by decide)
    · refine hnext.trans ?_
      rw [hend]
      decide
    · rw [VirtCmd.Exhausted, Nat.mul_one]
  · obtain ⟨hret, hnext⟩ := MMU.allocPage_bump_of_lt (lt_of_le_of_ne hb.heap_end hend)
    have hle : k.bumps.1 + pageSize ≤ mmapKernelHeapEnd := by
      have h₁ := hb.heap_end
      have h₂ := hb.heap_aligned
      simp only [pageSize, mmapKernelHeapEnd, p4PteAddresses] at *
      omega
    refine handsOut_heap hb (c := .allocPage) (n := 1) ?_ hstack (fun _ ↦ Iff.rfl)
      (fun r hr ↦ ?_) ?_
      ?_ ?_
    · show InRegions (MMU.allocPage k).2.bumps
      refine ⟨hnext ▸ hb.heap_start.trans (Nat.le_add_right _ _), hnext ▸ hle, ?_,
        hstack ▸ hb.stack_start, hstack ▸ hb.stack⟩
      rw [hnext, Nat.add_mod_right]
      exact hb.heap_aligned
    · simp [VirtCmd.pages, hr]
    · exact hret.trans (if_pos ⟨Nat.one_pos, by rw [Nat.mul_one]; exact hle⟩).symm
    · exact hnext.trans (by rw [Nat.mul_one, min_eq_left hle])
    · rw [VirtCmd.Exhausted, Nat.mul_one]

theorem handsOut_allocPages (numPages : ℤ) : HandsOut k (.allocPages numPages) := by
  have hpos : 0 < k.bumps.1 := lt_of_lt_of_le (by decide) hb.heap_start
  obtain ⟨hret, hheap⟩ := MMU.allocPages_bump hpos hb.heap_end hb.heap_aligned numPages
  refine handsOut_heap hb (c := .allocPages numPages) (n := numPages.toNat)
    (MMU.inRegions_allocPages hb numPages) (MMU.allocPages_bumps k numPages) (fun _ ↦ Iff.rfl)
    (fun r hr ↦ ?_) ?_ ?_ Iff.rfl
  · rw [VirtCmd.pages, if_neg hr]
  · refine hret.trans (if_congr (and_congr_left' ?_) rfl rfl)
    omega
  · refine hheap.trans ?_
    split
    · rfl
    · next hn =>
      rw [show numPages.toNat = 0 by omega, Nat.mul_zero, Nat.add_zero, min_eq_left hb.heap_end]

/-- A stack that fits. -/
theorem handsOut_allocStack (hroom : mmapKernelStacksStart + stackSize ≤ k.bumps.2 + 8) :
    HandsOut k .allocStack := by
  obtain ⟨q, heq, hbumps⟩ := MMU.allocStack_of_inRegions hb
  have hret : (VirtCmd.allocStack.run k).1 = k.bumps.2 := congrArg Prod.fst heq
  replace hbumps : (VirtCmd.allocStack.run k).2.bumps = (k.bumps.1, k.bumps.2 - stackSize) := hbumps
  obtain ⟨n, hn⟩ := hb.stack
  have hstart := hb.heap_start
  have hmem : ∀ p ∈ VirtCmd.allocStack.pages (VirtCmd.allocStack.run k).1,
      ∃ i < kernelThreadStackSizePages, p = stackPage k.bumps.2 i := by
    intro p hp
    rw [hret, VirtCmd.pages, if_neg (by simp only [mmapKernelStacksStart, p4PteAddresses] at hroom
                                        omega)] at hp
    obtain ⟨i, hi, rfl⟩ := List.mem_map.1 hp
    exact ⟨i, List.mem_range.1 hi, rfl⟩
  simp only [stackSize, pageSize, kernelThreadStackSizePages, mmapKernelStacksStart,
    mmapKernelStacksEnd, p4PteAddresses, mmapKernelHeapStart] at hroom hn hmem hstart
  refine ⟨?_, fun p hp ↦ ?_, ?_, fun p hp ↦ ?_, fun p hp ↦ ?_, fun he ↦ ?_⟩
  · rw [hbumps]
    refine ⟨hb.heap_start, hb.heap_end, hb.heap_aligned, ?_, n + 1, ?_⟩
    all_goals
      simp only [stackSize, pageSize, kernelThreadStackSizePages, mmapKernelStacksStart,
        mmapKernelStacksEnd, p4PteAddresses]
      omega
  · obtain ⟨i, hi, rfl⟩ := hmem p hp
    simp only [VirtCmd.InRegion, stackPage, pageSize, mmapKernelStacksStart, mmapKernelStacksEnd,
      p4PteAddresses]
    omega
  · rw [hret, VirtCmd.pages]
    split
    · exact List.nodup_nil
    · refine List.Nodup.map_on (fun i hi j hj hij ↦ ?_) List.nodup_range
      rw [List.mem_range] at hi hj
      simp only [stackPage, pageSize, kernelThreadStackSizePages] at hij hi hj
      omega
  · obtain ⟨i, hi, rfl⟩ := hmem p hp
    rw [hbumps]
    simp only [Ahead, stackPage, stackSize, pageSize, kernelThreadStackSizePages,
      mmapKernelStacksStart, mmapKernelHeapEnd, p4PteAddresses]
    omega
  · rw [hbumps] at hp
    simp only [Ahead, pageSize, mmapKernelStacksStart, mmapKernelHeapEnd, p4PteAddresses] at hp ⊢
    omega
  · simp only [VirtCmd.Exhausted, stackSize, pageSize, kernelThreadStackSizePages,
      mmapKernelStacksStart, p4PteAddresses] at he
    omega

/-- Only `MMU_alloc_stack` moves the stack pointer, by one stack. -/
theorem stackPointer_run (c : VirtCmd) {n : ℕ}
    (hn : k.bumps.2 + stackSize * n + 8 = mmapKernelStacksEnd) :
    (c.run k).2.bumps.2 + stackSize * (n + [c].count .allocStack) + 8 = mmapKernelStacksEnd := by
  cases c with
  | allocPage =>
    rw [show (VirtCmd.allocPage.run k).2.bumps.2 = k.bumps.2 from MMU.allocPage_bumps k]
    exact hn
  | allocPages numPages =>
    rw [show ((VirtCmd.allocPages numPages).run k).2.bumps.2 = k.bumps.2 from
      MMU.allocPages_bumps k numPages]
    exact hn
  | allocStack =>
    obtain ⟨q, -, hbumps⟩ := MMU.allocStack_of_inRegions hb
    have hstart := hb.stack_start
    have hrun : (VirtCmd.allocStack.run k).2.bumps = (k.bumps.1, k.bumps.2 - stackSize) := hbumps
    rw [hrun, List.count_singleton_self]
    simp only [stackSize, pageSize, kernelThreadStackSizePages, mmapKernelStacksStart,
      mmapKernelStacksEnd, p4PteAddresses] at hn hstart ⊢
    omega

/-- A call that asks for no stack, or for one that fits. -/
theorem handsOut (c : VirtCmd) {n : ℕ} (hn : k.bumps.2 + stackSize * n + 8 = mmapKernelStacksEnd)
    (hle : n + [c].count .allocStack ≤ maxStacks) : HandsOut k c := by
  cases c with
  | allocPage => exact handsOut_allocPage hb
  | allocPages numPages => exact handsOut_allocPages hb numPages
  | allocStack =>
    refine handsOut_allocStack hb ?_
    rw [List.count_singleton_self] at hle
    simp only [maxStacks, stackSize, pageSize, kernelThreadStackSizePages,
      mmapKernelStacksStart, mmapKernelStacksEnd, p4PteAddresses] at hn hle ⊢
    omega

/-- **The stack behind the last one that fits**: its deepest page is below the region. -/
theorem not_inRegion_allocStack (hn : k.bumps.2 + stackSize * maxStacks + 8 = mmapKernelStacksEnd) :
    ∃ p ∈ VirtCmd.allocStack.pages (VirtCmd.allocStack.run k).1,
      ¬VirtCmd.allocStack.InRegion p := by
  obtain ⟨q, heq, -⟩ := MMU.allocStack_of_inRegions hb
  have hret : (VirtCmd.allocStack.run k).1 = k.bumps.2 := congrArg Prod.fst heq
  simp only [maxStacks, stackSize, pageSize, kernelThreadStackSizePages, mmapKernelStacksStart,
    mmapKernelStacksEnd, p4PteAddresses] at hn
  refine ⟨stackPage k.bumps.2 9, ?_, ?_⟩
  · rw [hret, VirtCmd.pages, if_neg (by omega)]
    exact List.mem_map_of_mem (List.mem_range.2 (by decide))
  · simp only [VirtCmd.InRegion, stackPage, pageSize, mmapKernelStacksStart, p4PteAddresses]
    omega

end Step

/-! ### Runs -/

theorem count_cons_eq_add (c : VirtCmd) (cs : List VirtCmd) :
    (c :: cs).count .allocStack = [c].count .allocStack + cs.count .allocStack := by
  rw [← List.singleton_append, List.count_append]

/-- **Runs that ask for no more stacks than fit.** The induction is on the calls; `n` counts the
stacks handed out before, and what later calls hand out is ahead of the pointers. -/
theorem handsOutRegions_of_le : ∀ (cs : List VirtCmd) {k : Machine} {n : ℕ}, InRegions k.bumps →
    k.bumps.2 + stackSize * n + 8 = mmapKernelStacksEnd → n + cs.count .allocStack ≤ maxStacks →
    HandsOutRegions k cs ∧ ∀ c ∈ VirtCall.ofRun k cs, ∀ p ∈ c.pages, Ahead k.bumps p
  | [], k, n, _, _, _ => ⟨⟨by simp [VirtCall.ofRun], by simp [VirtCall.ofRun],
      by simp [VirtCall.ofRun]⟩, by simp [VirtCall.ofRun]⟩
  | c :: cs, k, n, hb, hn, hle => by
    rw [count_cons_eq_add, ← Nat.add_assoc] at hle
    have hc := handsOut hb c hn ((Nat.le_add_right _ _).trans hle)
    obtain ⟨hrest, hahead⟩ :=
      handsOutRegions_of_le cs hc.regions (stackPointer_run hb c hn) hle
    refine ⟨⟨?_, ?_, ?_⟩, ?_⟩
    · exact List.forall_mem_cons.2 ⟨hc.inRegion, hrest.inRegion⟩
    · rw [VirtCall.ofRun, List.flatMap_cons, List.nodup_append]
      refine ⟨hc.nodup, hrest.once, fun p hp q hq hpq ↦ ?_⟩
      -- what was handed out is behind the pointers, what will be is ahead of them
      obtain ⟨c', hc', hq⟩ := List.mem_flatMap.1 hq
      exact (hc.ahead p hp).2 (hpq ▸ hahead c' hc' q hq)
    · exact List.forall_mem_cons.2 ⟨hc.null, hrest.null⟩
    · exact List.forall_mem_cons.2 ⟨fun p hp ↦ (hc.ahead p hp).1, fun c' hc' p hp ↦
        hc.mono p (hahead c' hc' p hp)⟩

/-- **Runs that ask for more stacks than fit** hand out a page outside the region. -/
theorem exists_not_inRegion_of_lt : ∀ (cs : List VirtCmd) {k : Machine} {n : ℕ},
    InRegions k.bumps → k.bumps.2 + stackSize * n + 8 = mmapKernelStacksEnd → n ≤ maxStacks →
    maxStacks < n + cs.count .allocStack →
    ∃ c ∈ VirtCall.ofRun k cs, ∃ p ∈ c.pages, ¬c.cmd.InRegion p
  | [], k, n, _, _, hle, hlt => absurd hlt (not_lt.2 hle)
  | c :: cs, k, n, hb, hn, hle, hlt => by
    rw [count_cons_eq_add, ← Nat.add_assoc] at hlt
    by_cases hfit : n + [c].count .allocStack ≤ maxStacks
    · obtain ⟨c', hc', hp⟩ := exists_not_inRegion_of_lt cs (handsOut hb c hn hfit).regions
        (stackPointer_run hb c hn) hfit hlt
      exact ⟨c', List.mem_cons_of_mem _ hc', hp⟩
    · -- this is the call that finds no room
      have hc : c = .allocStack := by
        by_contra hne
        rw [List.count_singleton, if_neg (by simpa using hne)] at hfit
        exact hfit hle
      subst hc
      rw [List.count_singleton_self] at hfit
      obtain rfl : n = maxStacks := by omega
      exact ⟨_, List.mem_cons_self, not_inRegion_allocStack hb hn⟩

/-- The bump pointers after `MMU_init`. -/
theorem MMU.initPaging_bumps (identityP3 identityP2 : ℕ) (k : Machine) :
    (MMU.initPaging identityP3 identityP2 k).2.bumps =
      (mmapKernelHeapStart, mmapKernelStacksEnd - 8) := by
  have hframe : ∀ root, ((MMU.allocFrame ((k.setHeap mmapKernelHeapStart).setStack
      (mmapKernelStacksEnd - 8))).2.setPageTable root).bumps =
        (mmapKernelHeapStart, mmapKernelStacksEnd - 8) := by
    intro root
    rw [Machine.setPageTable_bumps, MMU.allocFrame_bumps, Machine.setStack_bumps,
      Machine.setHeap_nextKernelHeapVaddr]
  rw [MMU.initPaging]
  dsimp only
  split
  · exact hframe _
  · rw [Machine.bumps, PT.change_mmu, PT.pageTableInit_mmu, ← Machine.bumps]
    exact hframe _

theorem inRegions_start : InRegions (mmapKernelHeapStart, mmapKernelStacksEnd - 8) :=
  ⟨le_rfl, by decide, by decide, by decide, 0, by decide⟩

/-- **When virtual pages are handed out right.** Whatever calls are made after `MMU_init`: every
page is in its region, none is handed out twice and an exhausted region gives null, exactly if
`MMU_alloc_stack` is called no more often than stacks fit into their region. -/
theorem handsOutRegions_iff (identityP3 identityP2 : ℕ) (k : Machine) (cs : List VirtCmd) :
    HandsOutRegions (MMU.initPaging identityP3 identityP2 k).2 cs ↔
      cs.count .allocStack ≤ maxStacks := by
  have hbumps := MMU.initPaging_bumps identityP3 identityP2 k
  have hb : InRegions (MMU.initPaging identityP3 identityP2 k).2.bumps := by
    rw [hbumps]
    exact inRegions_start
  have hzero : (MMU.initPaging identityP3 identityP2 k).2.bumps.2 + stackSize * 0 + 8 =
      mmapKernelStacksEnd := by
    rw [hbumps]
    decide
  constructor
  · intro h
    by_contra hlt
    obtain ⟨c, hc, p, hp, hout⟩ := exists_not_inRegion_of_lt cs hb hzero (Nat.zero_le _)
      (by rw [Nat.zero_add]; exact not_le.1 hlt)
    exact hout (h.inRegion c hc p hp)
  · intro hle
    exact (handsOutRegions_of_le cs hb hzero (by rw [Nat.zero_add]; exact hle)).1

/-- **One stack too many**: after as many stacks as fit, the next one is handed out too, and lies
across the lower end of the region. -/
theorem stack_below_region :
    ¬HandsOutRegions (MMU.initPaging 0 0 (poolOfPages 16)).2
      (List.replicate (maxStacks + 1) .allocStack) := by
  have hbumps := MMU.initPaging_bumps 0 0 (poolOfPages 16)
  intro h
  obtain ⟨c, hc, p, hp, hout⟩ := exists_not_inRegion_of_lt
    (List.replicate (maxStacks + 1) .allocStack) (n := 0) (by rw [hbumps]; exact inRegions_start)
    (by rw [hbumps]; decide) (Nat.zero_le _) (by rw [List.count_replicate_self]; omega)
  exact hout (h.inRegion c hc p hp)

end Marimba
