import Marimba.Memory.Roles

/-!
# Giving back a kernel stack

`MMU_alloc_stack` reserves ten pages **downward** from the bump pointer and returns the top of the
first. `MMU_free_stack` starts at the page of that top and frees ten pages **upward**: the top page
of the stack itself and nine pages above it, which are pages of the stacks allocated before.

What freeing a stack should do is `FreesStack`: no page of the stack stays mapped, exactly the
frames of its mapped pages become free, and the other stacks keep their entries.
`freesStack_iff` says when it does: in a reachable state, for a live stack, exactly if the stack
has used no page below its top page and none of the nine pages above it is in use.

`FrameRoles.freeRun` is the effect of the freeing loop on an arbitrary run of pages.
-/

namespace Marimba

variable {k k' : Machine} {inSegments queued held frames : List ℕ} {v st : ℕ}

/-! ### A run of pages -/

section FreeRun

variable (h : FrameRoles k inSegments queued held frames) {n : ℕ}

include h

/-- One page of a run: its frame, if it has one, joins the queue. -/
theorem FrameRoles.freePage_toList (hv : Dynamic v) (hal : v % pageSize = 0) :
    FrameRoles (MMU.freePage k v) inSegments (queued ++ (tableWalk k (vpath v)).toList) held
        frames ∧
      (∀ q : List ℕ, q.length ≤ physicalPageDepth →
        tableWalk (MMU.freePage k v) q = if q = vpath v then none else tableWalk k q) ∧
      ∀ w, (vpath w = vpath v → tableWalk k (vpath v) = none) →
        leafEntry (MMU.freePage k v) w = leafEntry k w := by
  rcases hf : tableWalk k (vpath v) with - | f
  · rw [MMU.freePage_of_unmapped h.owned.tableTree hv hf]
    refine ⟨by simpa using h, fun q _ ↦ ?_, fun _ _ ↦ rfl⟩
    split
    · next he => rw [he, hf]
    · rfl
  · obtain ⟨hroles, hwalk, hleaf⟩ := h.freePage hv hal hf
    exact ⟨hroles, hwalk, fun w hw ↦ hleaf w fun he ↦ absurd (hw he) (by simp)⟩

/-- **The freeing loop.** The frames of the mapped pages of the run join the queue, in order; the
pages of the run are unmapped; every page outside it, and every page of it that was not mapped,
keeps its entry. -/
theorem FrameRoles.freeRun (hdyn : ∀ i < n, Dynamic (pageOffset v i))
    (hal : ∀ i < n, pageOffset v i % pageSize = 0)
    (hinj : ∀ i < n, ∀ j < i, vpath (pageOffset v i) ≠ vpath (pageOffset v j)) :
    FrameRoles (MMU.freeRun v n k) inSegments
        (queued ++ (List.range n).filterMap fun i ↦ tableWalk k (vpath (pageOffset v i))) held
        frames ∧
      (∀ i < n, tableWalk (MMU.freeRun v n k) (vpath (pageOffset v i)) = none) ∧
      (∀ q : List ℕ, q.length ≤ physicalPageDepth → (∀ i < n, q ≠ vpath (pageOffset v i)) →
        tableWalk (MMU.freeRun v n k) q = tableWalk k q) ∧
      ∀ w, (∀ i < n, vpath w = vpath (pageOffset v i) → tableWalk k (vpath w) = none) →
        leafEntry (MMU.freeRun v n k) w = leafEntry k w := by
  induction n with
  | zero => simpa [MMU.freeRun] using h
  | succ n ih =>
    obtain ⟨hroles, hnone, hwalk, hleaf⟩ := ih (fun i hi ↦ hdyn i (by omega))
      (fun i hi ↦ hal i (by omega)) (fun i hi ↦ hinj i (by omega))
    -- the last page of the run has not been touched by the pages before it
    have hlast : tableWalk (MMU.freeRun v n k) (vpath (pageOffset v n)) =
        tableWalk k (vpath (pageOffset v n)) := hwalk _ (by simp) (hinj n (by omega))
    obtain ⟨hroles', hwalk', hleaf'⟩ :=
      hroles.freePage_toList (hdyn n (by omega)) (hal n (by omega))
    rw [MMU.freeRun]
    refine ⟨?_, fun i hi ↦ ?_, fun q hq hne ↦ ?_, fun w hw ↦ ?_⟩
    · rw [hlast, List.append_assoc] at hroles'
      rw [List.range_succ, List.filterMap_append]
      convert hroles' using 3
      rcases hf : tableWalk k (vpath (pageOffset v n)) with - | f <;> simp [hf]
    · rw [hwalk' _ (by simp)]
      split
      · rfl
      · next hne =>
        exact hnone i (lt_of_le_of_ne (Nat.le_of_lt_succ hi) fun e ↦ hne (by rw [e]))
    · rw [hwalk' q hq, if_neg (hne n (by omega)), hwalk q hq fun i hi ↦ hne i (by omega)]
    · rw [hleaf' w fun he ↦ ?_, hleaf w fun i hi ↦ hw i (by omega)]
      rw [hlast, ← he]
      exact hw n (by omega) he

end FreeRun

/-! ### Live stacks -/

theorem MMU.allocPage_bumps (k : Machine) : (MMU.allocPage k).2.bumps.2 = k.bumps.2 := by
  by_cases hend : k.mmu.nextKernelHeapVaddr = mmapKernelHeapEnd
  · rw [MMU.allocPage_of_end hend, Machine.setIrq_bumps]
  · obtain ⟨q, hq⟩ := MMU.allocPage_of_ne_end hend
    rw [hq, Machine.setIrq_bumps, PT.demandAllocate_bumps, Machine.setHeap_bumps,
      Machine.setIrq_mmu, Machine.bumps]

theorem MMU.allocMorePages_bumps (k : Machine) : ∀ n : ℕ,
    (MMU.allocMorePages n k).2.bumps.2 = k.bumps.2
  | 0 => rfl
  | n + 1 => by
    rw [MMU.allocMorePages]
    dsimp only
    split
    · rw [MMU.allocPage_bumps, MMU.allocMorePages_bumps k n]
    · exact MMU.allocMorePages_bumps k n

/-- Heap allocations do not move the stack pointer. -/
theorem MMU.allocPages_bumps (k : Machine) (numPages : ℤ) :
    (MMU.allocPages k numPages).2.bumps.2 = k.bumps.2 := by
  rw [MMU.allocPages]
  split
  · rfl
  · have hfirst := MMU.allocPage_bumps (k.setIrq (IRQ.disable k.irq))
    rw [Machine.setIrq_bumps] at hfirst
    dsimp only
    split
    · exact hfirst
    · have hmore := (MMU.allocMorePages_bumps _ (numPages - 1).toNat).trans hfirst
      split
      · rw [Machine.setIrq_bumps]
        exact hmore
      · exact hmore

namespace MemSystem

variable {s s' : MemSystem} {r : ℕ}

/-- The tops of the live stacks are distinct, each a whole number of stacks below the end of the
region, and above the stack pointer. -/
structure StacksInv (s : MemSystem) : Prop where
  nodup : s.liveStacks.Nodup
  top : ∀ st ∈ s.liveStacks, ∃ j, st + stackSize * j + 8 = mmapKernelStacksEnd
  above : ∀ st ∈ s.liveStacks, s.machine.bumps.2 < st

/-- Commands that move no stack pointer and allocate no stack. -/
theorem StacksInv.of_bumps {live : List ℕ} (h : s.StacksInv) (hsub : live.Sublist s.liveStacks)
    (hptr : k.bumps.2 = s.machine.bumps.2) : StacksInv ⟨k, held, live⟩ where
  nodup := hsub.nodup h.nodup
  top := fun st hst ↦ h.top st (hsub.subset hst)
  above := fun st hst ↦ hptr ▸ h.above st (hsub.subset hst)

/-- A new stack is below all live ones. -/
theorem StacksInv.allocStack (h : s.StacksInv) (hb : InRegions s.machine.bumps) :
    StacksInv { s with
      machine := (MMU.allocStack s.machine).2
      liveStacks := (MMU.allocStack s.machine).1 :: s.liveStacks } := by
  obtain ⟨q, heq, hbumps⟩ := MMU.allocStack_of_inRegions hb
  have hret : (MMU.allocStack s.machine).1 = s.machine.bumps.2 := by rw [heq, Machine.bumps]
  have hptr : (MMU.allocStack s.machine).2.bumps.2 = s.machine.bumps.2 - stackSize := by
    rw [hbumps, Machine.bumps]
  have hlt : s.machine.bumps.2 - stackSize < s.machine.bumps.2 :=
    Nat.sub_lt (lt_of_lt_of_le (by decide) hb.stack_start) (by decide)
  rw [hret]
  refine ⟨List.nodup_cons.2 ⟨fun hm ↦ (h.above _ hm).false, h.nodup⟩, ?_, ?_⟩
  · exact List.forall_mem_cons.2 ⟨hb.stack, h.top⟩
  · dsimp only
    rw [hptr]
    exact List.forall_mem_cons.2 ⟨hlt, fun st hst ↦ hlt.trans (h.above st hst)⟩

theorem stacksInv_step (h : s.StacksInv) (hb : InRegions s.machine.bumps) {c : MemCmd}
    (hstep : s.step c = some (r, s')) : s'.StacksInv := by
  cases c with
  | allocPage =>
    obtain ⟨-, rfl⟩ := Prod.mk.inj (Option.some.inj hstep)
    exact h.of_bumps (List.Sublist.refl _) (MMU.allocPage_bumps _)
  | allocPages numPages =>
    obtain ⟨-, rfl⟩ := Prod.mk.inj (Option.some.inj hstep)
    exact h.of_bumps (List.Sublist.refl _) (MMU.allocPages_bumps _ _)
  | allocStack =>
    obtain ⟨-, -, rfl⟩ := guarded_eq_some.1 hstep
    exact h.allocStack hb
  | freePage vaddr =>
    obtain ⟨-, -, rfl⟩ := guarded_eq_some.1 hstep
    exact h.of_bumps (List.Sublist.refl _) (congrArg Prod.snd (MMU.freePage_bumps _ _))
  | freePages vaddr numPages =>
    obtain ⟨-, -, rfl⟩ := guarded_eq_some.1 hstep
    exact h.of_bumps (List.Sublist.refl _) (congrArg Prod.snd (MMU.freeRun_bumps _ _ _))
  | freeStack vaddr =>
    obtain ⟨-, -, rfl⟩ := guarded_eq_some.1 hstep
    exact h.of_bumps List.erase_sublist (congrArg Prod.snd (MMU.freeStack_bumps _ _))
  | pageFault vaddr =>
    obtain ⟨-, -, rfl⟩ := guarded_eq_some.1 hstep
    exact h.of_bumps (List.Sublist.refl _) (congrArg Prod.snd (pageFaultHandler_bumps _ _))
  | allocFrame =>
    obtain ⟨-, rfl⟩ := Prod.mk.inj (Option.some.inj hstep)
    exact h.of_bumps (List.Sublist.refl _) (congrArg Prod.snd (MMU.allocFrame_bumps _))
  | freeFrame f =>
    obtain ⟨-, -, rfl⟩ := guarded_eq_some.1 hstep
    exact h.of_bumps (List.Sublist.refl _) (congrArg Prod.snd (MMU.freeFrame_bumps _ _))
  | writeFrame f i w =>
    obtain ⟨-, -, rfl⟩ := guarded_eq_some.1 hstep
    exact h.of_bumps (List.Sublist.refl _) rfl
  | writePage vaddr w =>
    obtain ⟨-, f, -, -, rfl⟩ := guarded_map_eq_some.1 hstep
    exact h.of_bumps (List.Sublist.refl _) rfl

/-- Both invariants, along a run. -/
theorem stacksInv_runTrace {cmds : List MemCmd} {out : List ℕ} (hinv : s.Inv frames)
    (hst : s.StacksInv) (hrun : runTrace MemSystem.step s cmds = some (out, s')) :
    s'.Inv frames ∧ s'.StacksInv :=
  invariant_of_runTrace (I := fun s ↦ s.Inv frames ∧ s.StacksInv)
    (fun _ _ _ _ h hstep ↦ ⟨inv_step h.1 hstep, stacksInv_step h.2 h.1.regions hstep⟩) ⟨hinv, hst⟩
    hrun

end MemSystem

/-! ### What freeing a stack should do -/

/-- The page at depth `i` of the stack with top `st`. -/
def stackPage (st i : ℕ) : ℕ := st - (pageSize - 8) - pageSize * i

/-- The page `i` pages above the top page of the stack with top `st`. -/
def pageAbove (st i : ℕ) : ℕ := st - (pageSize - 8) + pageSize * i

/-- The frames of the pages of a stack that have been faulted in. -/
def stackFrames (k : Machine) (st : ℕ) : List ℕ :=
  (List.range kernelThreadStackSizePages).filterMap fun i ↦ tableWalk k (vpath (stackPage st i))

/-- The free frames, first those in segments, then the queue. -/
def IsFreeList (k : Machine) (free : List ℕ) : Prop :=
  ∃ inSegments queued, FreeFrames k inSegments queued ∧ free = inSegments ++ queued

/-- **The stack with top `st` is freed** on the way from `k` to `k'`, and the stacks `others` are
left alone. -/
structure FreesStack (k k' : Machine) (st : ℕ) (others : List ℕ) : Prop where
  unmapped : ∀ i < kernelThreadStackSizePages, tableWalk k' (vpath (stackPage st i)) = none
  returned : ∃ free free', IsFreeList k free ∧ IsFreeList k' free' ∧
    free'.Perm (free ++ stackFrames k st)
  untouched : ∀ st' ∈ others, ∀ i < kernelThreadStackSizePages,
    leafEntry k' (stackPage st' i) = leafEntry k (stackPage st' i)

/-- The free lists are determined by the machine. -/
theorem FreeFrames.unique {inSegments' queued' : List ℕ} (h : FreeFrames k inSegments queued)
    (h' : FreeFrames k inSegments' queued') : inSegments = inSegments' ∧ queued = queued' := by
  obtain ⟨idxs, hchain, -, rfl⟩ := h.segments
  obtain ⟨idxs', hchain', -, rfl⟩ := h'.segments
  exact ⟨by rw [hchain.unique hchain'], h.queue.unique h'.queue⟩

theorem IsFreeList.unique {free free' : List ℕ} (h : IsFreeList k free)
    (h' : IsFreeList k free') : free = free' := by
  obtain ⟨inSegments, queued, hfree, rfl⟩ := h
  obtain ⟨inSegments', queued', hfree', rfl⟩ := h'
  obtain ⟨rfl, rfl⟩ := hfree.unique hfree'
  rfl

/-! ### Page numbers of a stack -/

/-- The pages of a stack are inside the 48 bits of a walk. -/
theorem stackPage_lt (htop : ∃ n, st + stackSize * n + 8 = mmapKernelStacksEnd) (i : ℕ) :
    stackPage st i < 2 ^ 48 := by
  obtain ⟨n, hn⟩ := htop
  simp only [stackPage, stackSize, mmapKernelStacksEnd, p4PteAddresses, pageSize] at *
  omega

section Pages

variable {i j : ℕ} (htop : ∃ n, st + stackSize * n + 8 = mmapKernelStacksEnd)
  (hstart : mmapKernelStacksStart + stackSize ≤ st)

include htop hstart

theorem heapOrStack_of_top : HeapOrStack st := by
  obtain ⟨n, hn⟩ := htop
  exact Or.inl ⟨by omega, by omega⟩

/-- The top page and the pages above it are page-aligned and inside these bits as well. -/
theorem pageAbove_aligned (hi : i < kernelThreadStackSizePages) :
    pageAbove st i % pageSize = 0 ∧ pageAbove st i < 2 ^ 48 := by
  obtain ⟨n, hn⟩ := htop
  simp only [pageAbove, stackSize, mmapKernelStacksStart, mmapKernelStacksEnd, p4PteAddresses,
    pageSize, kernelThreadStackSizePages] at *
  omega

theorem vpath_pageAbove_ne (hi : i < kernelThreadStackSizePages) (hj : j < i) :
    vpath (pageAbove st i) ≠ vpath (pageAbove st j) := by
  have h₁ := (pageAbove_aligned htop hstart hi).2
  have h₂ := (pageAbove_aligned htop hstart (hj.trans hi)).2
  rw [Ne, vpath_inj h₁ h₂]
  simp only [pageAbove, pageSize]
  omega

/-- A page of the stack below its top page is no page above it. -/
theorem vpath_stackPage_ne (hi : i < kernelThreadStackSizePages) (hi₀ : i ≠ 0)
    (hj : j < kernelThreadStackSizePages) : vpath (stackPage st i) ≠ vpath (pageAbove st j) := by
  have h₁ := (pageAbove_aligned htop hstart hj).2
  have h₂ := stackPage_lt htop i
  obtain ⟨n, hn⟩ := htop
  rw [Ne, vpath_inj h₂ h₁]
  simp only [stackPage, pageAbove, stackSize, mmapKernelStacksStart, p4PteAddresses, pageSize,
    kernelThreadStackSizePages] at *
  omega

end Pages

/-- No page of another stack is the top page of a stack. -/
theorem vpath_stackPage_ne_top {st' i : ℕ}
    (htop : ∃ n, st + stackSize * n + 8 = mmapKernelStacksEnd)
    (htop' : ∃ n, st' + stackSize * n + 8 = mmapKernelStacksEnd)
    (hstart : mmapKernelStacksStart + stackSize ≤ st)
    (hstart' : mmapKernelStacksStart + stackSize ≤ st') (hne : st' ≠ st)
    (hi : i < kernelThreadStackSizePages) : vpath (stackPage st' i) ≠ vpath (pageAbove st 0) := by
  have h₁ := (pageAbove_aligned htop hstart (i := 0) (by decide)).2
  have h₂ := stackPage_lt htop' i
  obtain ⟨n, hn⟩ := htop
  obtain ⟨m, hm⟩ := htop'
  rw [Ne, vpath_inj h₂ h₁]
  simp only [stackPage, pageAbove, stackSize, mmapKernelStacksStart, p4PteAddresses, pageSize,
    kernelThreadStackSizePages] at *
  have hnm : n ≠ m := by
    rintro rfl
    omega
  rcases Nat.lt_or_gt_of_ne hnm with hlt | hlt <;> omega

/-! ### When a stack is freed -/

/-- Of the pages of a stack only the top page is in use, and none of the nine pages above it. -/
def OnlyTopPageUsed (k : Machine) (st : ℕ) : Prop :=
  ∀ i, 0 < i → i < kernelThreadStackSizePages →
    tableWalk k (vpath (stackPage st i)) = none ∧ tableWalk k (vpath (pageAbove st i)) = none

/-- What `MMU_free_stack` does: it frees the pages above. -/
theorem FrameRoles.freeStack (h : FrameRoles k inSegments queued held frames)
    (htop : ∃ n, st + stackSize * n + 8 = mmapKernelStacksEnd)
    (hstart : mmapKernelStacksStart + stackSize ≤ st) :
    FrameRoles (MMU.freeStack k st) inSegments
        (queued ++ (List.range kernelThreadStackSizePages).filterMap fun i ↦
          tableWalk k (vpath (pageAbove st i))) held frames ∧
      (∀ i < kernelThreadStackSizePages,
        tableWalk (MMU.freeStack k st) (vpath (pageAbove st i)) = none) ∧
      (∀ q : List ℕ, q.length ≤ physicalPageDepth →
        (∀ i < kernelThreadStackSizePages, q ≠ vpath (pageAbove st i)) →
        tableWalk (MMU.freeStack k st) q = tableWalk k q) ∧
      ∀ w, (∀ i < kernelThreadStackSizePages, vpath w = vpath (pageAbove st i) →
          tableWalk k (vpath w) = none) →
        leafEntry (MMU.freeStack k st) w = leafEntry k w := by
  have hin := heapOrStack_of_top htop hstart
  have hoff : ∀ i < kernelThreadStackSizePages,
      pageOffset (wsub st (pageSize - 8)) i = pageAbove st i := fun i hi ↦
    pageOffset_freeStack hin hi
  obtain ⟨hroles, hnone, hwalk, hleaf⟩ := h.freeRun (v := wsub st (pageSize - 8))
    (n := kernelThreadStackSizePages) (fun i hi ↦ hin.dynamic_freeStack hi)
    (fun i hi ↦ by rw [hoff i hi]; exact (pageAbove_aligned htop hstart hi).1)
    (fun i hi j hj ↦ by
      rw [hoff i hi, hoff j (hj.trans hi)]
      exact vpath_pageAbove_ne htop hstart hi hj)
  rw [MMU.freeStack]
  refine ⟨?_, fun i hi ↦ hoff i hi ▸ hnone i hi, fun q hq hne ↦ hwalk q hq fun i hi ↦ ?_,
    fun w hw ↦ hleaf w fun i hi ↦ ?_⟩
  · convert hroles using 2
    refine List.filterMap_congr fun i hi ↦ ?_
    rw [hoff i (List.mem_range.1 hi)]
  · rw [hoff i hi]
    exact hne i hi
  · rw [hoff i hi]
    exact hw i hi

/-- A list of optional values with its first one split off. -/
theorem filterMap_range_succ {α : Type*} (g : ℕ → Option α) (n : ℕ) :
    (List.range (n + 1)).filterMap g =
      (g 0).toList ++ (List.range n).filterMap fun i ↦ g (i + 1) := by
  rw [List.range_succ_eq_map, List.filterMap_cons, List.filterMap_map]
  rcases g 0 with - | a <;> rfl

theorem filterMap_range_eq_nil {α : Type*} {g : ℕ → Option α} {n : ℕ} :
    (List.range n).filterMap g = [] ↔ ∀ i < n, g i = none := by
  simp [List.filterMap_eq_nil_iff]

section FreesStack

variable {s : MemSystem}

/-- A live stack is inside the region, with all its pages. -/
theorem MemSystem.StacksInv.start_le (hst : s.StacksInv) (hb : InRegions s.machine.bumps)
    (hlive : st ∈ s.liveStacks) : mmapKernelStacksStart + stackSize ≤ st := by
  obtain ⟨n, hn⟩ := hb.stack
  obtain ⟨j, hj⟩ := hst.top st hlive
  have habove := hst.above st hlive
  have hstart := hb.stack_start
  simp only [stackSize, pageSize, kernelThreadStackSizePages] at *
  omega

theorem freesStack_iff_of_inv (hinv : s.Inv frames) (hst : s.StacksInv)
    (hlive : st ∈ s.liveStacks) :
    FreesStack s.machine (MMU.freeStack s.machine st) st (s.liveStacks.erase st) ↔
      OnlyTopPageUsed s.machine st := by
  obtain ⟨inSegments, queued, hroles⟩ := hinv.owns
  have htop := hst.top st hlive
  have hstart := hst.start_le hinv.regions hlive
  obtain ⟨hroles', hnone, hwalk, hleaf⟩ := hroles.freeStack htop hstart
  have hfree : IsFreeList s.machine (inSegments ++ queued) := ⟨_, _, hroles.free, rfl⟩
  have hfree' := (⟨_, _, hroles'.free, rfl⟩ : IsFreeList (MMU.freeStack s.machine st) _)
  -- below the top page nothing is freed
  have hbelow : ∀ i, 0 < i → i < kernelThreadStackSizePages →
      tableWalk (MMU.freeStack s.machine st) (vpath (stackPage st i)) =
        tableWalk s.machine (vpath (stackPage st i)) := fun i hi₀ hi ↦
    hwalk _ (by simp) fun j hj ↦ vpath_stackPage_ne htop hstart hi hi₀.ne' hj
  have hzero : stackPage st 0 = pageAbove st 0 := by simp [stackPage, pageAbove]
  have hstackFrames : (∀ i, 0 < i → i < kernelThreadStackSizePages →
      tableWalk s.machine (vpath (stackPage st i)) = none) →
      stackFrames s.machine st = (tableWalk s.machine (vpath (pageAbove st 0))).toList := by
    intro hdeep
    rw [stackFrames, filterMap_range_succ, hzero, filterMap_range_eq_nil.2, List.append_nil]
    exact fun i hi ↦ hdeep (i + 1) (Nat.succ_pos i) (Nat.succ_lt_succ hi)
  constructor
  · rintro ⟨hunmapped, ⟨free, free', hf, hf', hperm⟩, -⟩
    have hdeep : ∀ i, 0 < i → i < kernelThreadStackSizePages →
        tableWalk s.machine (vpath (stackPage st i)) = none := fun i hi₀ hi ↦
      (hbelow i hi₀ hi).symm.trans (hunmapped i hi)
    rw [hf.unique hfree, hf'.unique hfree', ← List.append_assoc, List.perm_append_left_iff,
      hstackFrames hdeep, filterMap_range_succ] at hperm
    have habove : ∀ i, i + 1 < kernelThreadStackSizePages →
        tableWalk s.machine (vpath (pageAbove st (i + 1))) = none := by
      have hlen := hperm.length_eq
      rw [List.length_append, Nat.add_eq_left, List.length_eq_zero_iff,
        filterMap_range_eq_nil] at hlen
      exact fun i hi ↦ hlen i (Nat.lt_of_succ_lt_succ hi)
    intro i hi₀ hi
    obtain ⟨j, rfl⟩ := Nat.exists_eq_succ_of_ne_zero hi₀.ne'
    exact ⟨hdeep _ hi₀ hi, habove j hi⟩
  · intro honly
    refine ⟨fun i hi ↦ ?_, ⟨_, _, hfree, hfree', ?_⟩, fun st' hst' i hi ↦ hleaf _ fun j hj he ↦ ?_⟩
    · rcases Nat.eq_zero_or_pos i with rfl | hi₀
      · rw [hzero]
        exact hnone 0 hi
      · rw [hbelow i hi₀ hi]
        exact (honly i hi₀ hi).1
    · rw [hstackFrames fun i hi₀ hi ↦ (honly i hi₀ hi).1, filterMap_range_succ,
        filterMap_range_eq_nil.2 fun i hi ↦ (honly (i + 1) i.succ_pos (Nat.succ_lt_succ hi)).2,
        List.append_nil, List.append_assoc]
    · have hlive' := List.mem_of_mem_erase hst'
      have hne : st' ≠ st := fun e ↦ (List.Nodup.not_mem_erase hst.nodup) (e ▸ hst')
      have hj₀ : j ≠ 0 := by
        rintro rfl
        exact vpath_stackPage_ne_top htop (hst.top st' hlive') hstart
          (hst.start_le hinv.regions hlive') hne hi he
      rw [he]
      exact (honly j (Nat.pos_of_ne_zero hj₀) hj).2

/-- **When `MMU_free_stack` frees its stack.** In every state a run can reach after `MMU_init`, and
for every live stack: exactly if, of all its pages and the nine pages above it, at most its top page
has been faulted in. -/
theorem freesStack_iff {k₁ : Machine} {idxs : List ℕ} {identityP3 identityP2 : ℕ}
    (hseg : SegmentsWellFormed k.mmu idxs) (hq : k.mmu.freePageHead = 0)
    (hend : ∀ f ∈ k.mmu.segmentPages idxs, f < mmapPhysicalPagesEnd)
    (hinit : MMU.initPaging identityP3 identityP2 k = (0, k₁)) {cmds : List MemCmd}
    {out : List ℕ} (hrun : runTrace MemSystem.step ⟨k₁, [], []⟩ cmds = some (out, s))
    (hlive : st ∈ s.liveStacks) :
    FreesStack s.machine (MMU.freeStack s.machine st) st (s.liveStacks.erase st) ↔
      OnlyTopPageUsed s.machine st := by
  obtain ⟨hinv, hst⟩ := MemSystem.stacksInv_runTrace (inv_initPaging hseg hq hend hinit)
    ⟨List.nodup_nil, by simp, by simp⟩ hrun
  exact freesStack_iff_of_inv hinv hst hlive

end FreesStack

/-- One stack, its top page in use. -/
theorem freesStack_iff_oneStack :
    ∃ out s, runTrace MemSystem.step ⟨(MMU.initPaging 0 0 (poolOfPages 16)).2, [], []⟩
        [.allocStack, .pageFault (mmapKernelStacksEnd - 8)] = some (out, s) ∧
      mmapKernelStacksEnd - 8 ∈ s.liveStacks ∧
      (FreesStack s.machine (MMU.freeStack s.machine (mmapKernelStacksEnd - 8))
          (mmapKernelStacksEnd - 8) (s.liveStacks.erase (mmapKernelStacksEnd - 8)) ↔
        OnlyTopPageUsed s.machine (mmapKernelStacksEnd - 8)) := by
  have hrun : ((runTrace MemSystem.step ⟨(MMU.initPaging 0 0 (poolOfPages 16)).2, [], []⟩
      [.allocStack, .pageFault (mmapKernelStacksEnd - 8)]).map fun r ↦ r.2.liveStacks) =
        some [mmapKernelStacksEnd - 8] := by decide +kernel
  obtain ⟨⟨out, s⟩, hrun, hlive⟩ := Option.map_eq_some_iff.1 hrun
  have hmem : mmapKernelStacksEnd - 8 ∈ s.liveStacks := hlive ▸ List.mem_singleton_self _
  exact ⟨out, s, hrun, hmem, freesStack_iff
    (segmentsWellFormed_poolOfPages (n := 16) (by decide) (by decide)) rfl (by decide) rfl hrun
    hmem⟩

/-- **Freeing a stack unmaps a page of its neighbour.** Two stacks are allocated, and the older one
uses its deepest page. Freeing the younger one changes the entry of that page. -/
theorem freeStack_unmaps_neighbour :
    ∃ out s, runTrace MemSystem.step ⟨(MMU.initPaging 0 0 (poolOfPages 16)).2, [], []⟩
        [.allocStack, .allocStack, .pageFault (mmapKernelStacksEnd - 8 - 9 * pageSize)] =
          some (out, s) ∧
      mmapKernelStacksEnd - 8 - stackSize ∈ s.liveStacks ∧
      ¬FreesStack s.machine (MMU.freeStack s.machine (mmapKernelStacksEnd - 8 - stackSize))
        (mmapKernelStacksEnd - 8 - stackSize)
        (s.liveStacks.erase (mmapKernelStacksEnd - 8 - stackSize)) := by
  have hrun : ((runTrace MemSystem.step ⟨(MMU.initPaging 0 0 (poolOfPages 16)).2, [], []⟩
      [.allocStack, .allocStack, .pageFault (mmapKernelStacksEnd - 8 - 9 * pageSize)]).map fun r ↦
        (r.2.liveStacks,
          decide (leafEntry (MMU.freeStack r.2.machine (mmapKernelStacksEnd - 8 - stackSize))
            (stackPage (mmapKernelStacksEnd - 8) 9) =
              leafEntry r.2.machine (stackPage (mmapKernelStacksEnd - 8) 9)))) =
        some ([mmapKernelStacksEnd - 8 - stackSize, mmapKernelStacksEnd - 8], false) := by
    decide +kernel
  obtain ⟨⟨out, s⟩, hrun, heq⟩ := Option.map_eq_some_iff.1 hrun
  obtain ⟨hlive, hentry⟩ := Prod.mk.inj heq
  refine ⟨out, s, hrun, hlive ▸ List.mem_cons_self, fun hfrees ↦ ?_⟩
  refine of_decide_eq_false hentry (hfrees.untouched _ ?_ 9 (by decide))
  rw [show s.liveStacks = _ from hlive]
  decide

end Marimba
