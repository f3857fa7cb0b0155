import Marimba.Memory.Contents

/-!
# What the memory manager never writes

The kernel reaches all of physical memory through its identity map, so nothing but the code keeps
the memory manager from writing over the kernel itself. `outside_kept` says that it does not: **in
every run every word that belongs to no frame of the initial free segments stays as it is.** Client
writes are part of the run: through a mapped page, or into a held frame, they reach frames only.

The words that the memory manager itself writes are entries of tables and links of unmapped frames.
Both are words of frames by the ownership invariant.
-/

namespace Marimba

variable {k k' k'' : Machine} {inSegments queued held frames : List ℕ} {a g t v w : ℕ}

/-! ### Words of no frame -/

/-- `a` is no word of a frame. -/
def Outside (frames : List ℕ) (a : ℕ) : Prop :=
  ∀ f ∈ frames, ∀ i < pageTableNumEnts, a ≠ f + 8 * i

/-- Only words of frames are written. -/
def OutsideKept (frames : List ℕ) (k k' : Machine) : Prop :=
  ∀ a, Outside frames a → k'.mem a = k.mem a

namespace OutsideKept

theorem of_mem (hmem : k'.mem = k.mem) : OutsideKept frames k k' := fun _ _ ↦ by rw [hmem]

theorem refl (frames : List ℕ) (k : Machine) : OutsideKept frames k k := of_mem rfl

theorem trans (h : OutsideKept frames k k') (h' : OutsideKept frames k' k'') :
    OutsideKept frames k k'' := fun a ha ↦ (h' a ha).trans (h a ha)

theorem store (hg : g ∈ frames) {i : ℕ} (hi : i < pageTableNumEnts) (w : ℕ) :
    OutsideKept frames k (k.store (g + 8 * i) w) := fun _ ha ↦
  Function.update_of_ne (ha g hg i hi) _ _

theorem allocFrame (frames : List ℕ) (k : Machine) : OutsideKept frames k (MMU.allocFrame k).2 :=
  of_mem (MMU.allocFrame_mem k)

theorem setIrq (frames : List ℕ) (k : Machine) (q : IrqState) :
    OutsideKept frames k (k.setIrq q) := of_mem rfl

theorem setHeap (frames : List ℕ) (k : Machine) (w : ℕ) : OutsideKept frames k (k.setHeap w) :=
  of_mem rfl

theorem setStack (frames : List ℕ) (k : Machine) (w : ℕ) : OutsideKept frames k (k.setStack w) :=
  of_mem rfl

end OutsideKept

/-! ### The operations write words of frames -/

theorem FrameRoles.table_mem {p : List ℕ} (h : FrameRoles k inSegments queued held frames)
    (hp : p.length ≤ physicalPageDepth) (ht : tableWalk k p = some t) : t ∈ frames :=
  (h.owned.mapped p hp t ht).1

/-- The links are in unmapped frames. -/
theorem FrameRoles.outsideKept_freeFrame (h : FrameRoles k inSegments queued (g :: held) frames) :
    OutsideKept frames k (MMU.freeFrame k g) := fun _ ha ↦
  MMU.freeFrame_mem_of_notMem h.free
    (ha g (h.owned.unmapped_mem g (by simp)) 0 (by decide))
    fun hq ↦ ha _ (h.owned.unmapped_mem _ (mem_of_queued hq)) 0 (by decide) rfl

namespace Owns

/-- The loop of `PT_demand_allocate`. -/
theorem outsideKept_demandAllocateFrom (hv : Dynamic v) :
    ∀ (n : ℕ) {depth t : ℕ} {k : Machine}, depth + n = pageTableDepth →
      tableWalk k ((vpath v).take depth) = some t →
      PTE.present (k.mem (t + 8 * ptOffsetForDepth v depth)) = false → Owns k held frames →
      OutsideKept frames k
        (PT.demandAllocateFrom v n depth (t + 8 * ptOffsetForDepth v depth) k).2
  | 0, depth, t, k, hn, ht, hp, ⟨inSegments, queued, h⟩ => by
    obtain rfl : depth = pageTableDepth := hn
    rw [PT.demandAllocateFrom]
    exact .store (h.table_mem (by simp) ht) (ptOffsetForDepth_lt (by decide)) _
  | n + 1, depth, t, k, hn, ht, hp, h => by
    have hd : depth < pageTableDepth := by omega
    have hd₄ : depth < physicalPageDepth := Nat.lt_succ_of_lt hd
    rw [PT.demandAllocateFrom]
    rcases h.alloc with hnone | ⟨g, hg, hret, inSegments, queued, hroles⟩
    · rw [hnone]
      exact .refl frames k
    · simp only [hret, hg, if_false]
      have ht' : tableWalk (MMU.allocFrame k).2 ((vpath v).take depth) = some t := by
        rw [tableWalk_allocFrame]
        exact ht
      have hp' : PTE.present ((MMU.allocFrame k).2.mem (t + 8 * ptOffsetForDepth v depth)) =
          false := by
        rw [MMU.allocFrame_mem]
        exact hp
      obtain ⟨hroles', hwalk, hzero, hother⟩ := hroles.newTable hv hd ht' hp'
      have hgm := hroles.owned.unmapped_mem g (by simp)
      have htm : t ∈ frames := hroles.table_mem (by
        rw [List.length_take, vpath_length]
        omega) ht'
      rw [hroles.ptGetNextPte_newTable (h.tableTree.entry_ne_zero ht _)]
      refine (OutsideKept.allocFrame frames k).trans (OutsideKept.trans (fun a ha ↦ ?_)
        (outsideKept_demandAllocateFrom hv n (by omega) ?_ ?_ ⟨inSegments, queued, hroles'⟩))
      · exact hother a (ha t htm _ (ptOffsetForDepth_lt hd₄.ne)) (ha g hgm)
      · rw [hwalk _ (by simp), if_pos rfl]
      · rw [hzero _ (ptOffsetForDepth_lt (Nat.ne_of_lt (Nat.succ_lt_succ hd)))]
        rfl

theorem outsideKept_demandAllocate (h : Owns k held frames) (hv : Dynamic v) :
    OutsideKept frames k (PT.demandAllocate k v).2 := by
  have hwalk := ptWalk_spec h.tableTree hv
  rw [PT.demandAllocate]
  generalize ptWalk k v = r at hwalk
  cases hwalk with
  | frame hf => simpa using OutsideKept.refl frames k
  | @stop d t hd ht hp =>
    simp only [Nat.ne_of_lt hd, if_false]
    refine outsideKept_demandAllocateFrom hv _ ?_ ht hp h
    simp only [physicalPageDepth, pageTableDepth] at *
    omega

theorem outsideKept_pageFaultHandler (h : Owns k held frames) (hv : Dynamic v) :
    OutsideKept frames k (Marimba.pageFaultHandler k v) := by
  have hwalk := ptWalk_spec h.tableTree hv
  rw [Marimba.pageFaultHandler]
  generalize ptWalk k v = r at hwalk
  cases hwalk with
  | frame hf => simpa using OutsideKept.refl frames k
  | @stop d t hd ht hp =>
    simp only [Nat.ne_of_lt hd, if_false]
    split
    · exact .refl frames k
    · next hcond =>
      simp only [Bool.or_eq_true, not_or, bne_iff_ne, ne_eq, not_not] at hcond
      obtain ⟨-, rfl⟩ := hcond
      rcases h.alloc with hnone | ⟨g, hg, hret, inSegments, queued, hroles⟩
      · rw [hnone]
        exact .refl frames k
      · simp only [hret, hg, if_false]
        refine (OutsideKept.allocFrame frames k).trans
          (.store ?_ (ptOffsetForDepth_lt (by decide)) _)
        exact hroles.table_mem (p := (vpath v).take pageTableDepth) (by simp)
          (by rw [tableWalk_allocFrame]; exact ht)

/-- `PT_free` and `MMU_free_frame`. -/
theorem outsideKept_freePage (h : Owns k held frames) (hv : Dynamic v) :
    OutsideKept frames k (MMU.freePage k v) := by
  obtain ⟨inSegments, queued, h⟩ := h
  by_cases hal : v % pageSize = 0
  · rcases hfv : tableWalk k (vpath v) with - | g
    · rw [MMU.freePage_of_unmapped h.owned.tableTree hv hfv]
      exact .refl frames k
    · obtain ⟨t, ht, hfree⟩ := PT.free_of_mapped h.owned.tableTree hv hal hfv
      obtain ⟨hroles, -⟩ := h.unlink (length_take_vpath v) ht
        (by rw [← vpath_eq_take_concat]; exact hfv)
        (present_clearedEntry (k.mem (t + 8 * ptOffsetForDepth v pageTableDepth)))
      rw [MMU.freePage, hfree]
      dsimp only
      rw [if_pos (h.isFrame_of_tableWalk (by simp) hfv).2.ne']
      exact (OutsideKept.store (h.table_mem (by simp) ht)
        (ptOffsetForDepth_lt (by decide)) _).trans hroles.outsideKept_freeFrame
  · rw [MMU.freePage_of_not_aligned hal]
    exact .refl frames k

theorem outsideKept_freeRun (h : Owns k held frames) : ∀ n : ℕ,
    (∀ i < n, Dynamic (pageOffset v i)) → OutsideKept frames k (MMU.freeRun v n k)
  | 0, _ => .refl frames k
  | n + 1, hdyn => by
    rw [MMU.freeRun]
    have hdyn' : ∀ i < n, Dynamic (pageOffset v i) := fun i hi ↦ hdyn i (by omega)
    exact (h.outsideKept_freeRun n hdyn').trans
      ((h.freeRun n hdyn').outsideKept_freePage (hdyn n (by omega)))

theorem outsideKept_allocPage (h : Owns k held frames) (hb : InRegions k.bumps) :
    OutsideKept frames k (MMU.allocPage k).2 := by
  by_cases hend : k.mmu.nextKernelHeapVaddr = mmapKernelHeapEnd
  · rw [MMU.allocPage_of_end hend]
    exact .of_mem rfl
  · obtain ⟨q, hq⟩ := MMU.allocPage_of_ne_end hend
    have hlt : k.mmu.nextKernelHeapVaddr < mmapKernelHeapEnd := lt_of_le_of_ne hb.heap_end hend
    have hin : HeapOrStack k.mmu.nextKernelHeapVaddr := Or.inr ⟨hb.heap_start, hlt⟩
    have h₁ := (h.setIrq (IRQ.disable k.irq)).setHeap (wadd k.mmu.nextKernelHeapVaddr pageSize)
    rw [hq]
    exact (((OutsideKept.setIrq frames k _).trans (.setHeap frames _ _)).trans
      (h₁.outsideKept_demandAllocate hin.dynamic)).trans (.setIrq frames _ q)

/-- The loop of `MMU_alloc_pages`. -/
theorem outsideKept_allocMorePages (h : Owns k held frames) (hb : InRegions k.bumps) : ∀ n : ℕ,
    OutsideKept frames k (MMU.allocMorePages n k).2
  | 0 => .refl frames k
  | n + 1 => by
    have hmore := h.outsideKept_allocMorePages hb n
    obtain ⟨h', hb'⟩ := h.allocMorePages hb n
    rw [MMU.allocMorePages]
    dsimp only
    split
    · exact hmore.trans (h'.outsideKept_allocPage hb')
    · exact hmore

theorem outsideKept_allocPages (h : Owns k held frames) (hb : InRegions k.bumps) (numPages : ℤ) :
    OutsideKept frames k (MMU.allocPages k numPages).2 := by
  rw [MMU.allocPages]
  split
  · exact .refl frames k
  · have h₀ := h.setIrq (IRQ.disable k.irq)
    have hkept₁ := h₀.outsideKept_allocPage hb
    obtain ⟨h₁, hb₁⟩ := h₀.allocPage hb
    replace hkept₁ := (OutsideKept.setIrq frames k _).trans hkept₁
    dsimp only
    split
    · exact hkept₁
    · have hkept₂ := hkept₁.trans (h₁.outsideKept_allocMorePages hb₁ (numPages - 1).toNat)
      split
      · exact hkept₂.trans (.setIrq frames _ _)
      · exact hkept₂

/-- The loop of `MMU_alloc_stack`, below a stack pointer that stays in its region. -/
theorem outsideKept_reserveStackPages (h : Owns k held frames)
    (hlt : k.mmu.nextKernelThreadStackVaddr < mmapKernelStacksEnd) : ∀ n : ℕ,
    mmapKernelStacksStart + pageSize * n ≤ k.mmu.nextKernelThreadStackVaddr →
    OutsideKept frames k (MMU.reserveStackPages n k)
  | 0, _ => .refl frames k
  | n + 1, hle => by
    rw [Nat.mul_succ] at hle
    have hword : k.mmu.nextKernelThreadStackVaddr < wordSize :=
      hlt.trans (by norm_num [wordSize])
    obtain ⟨-, hstack⟩ := Prod.mk.inj (MMU.reserveStackPages_bumps hword n (by omega))
    have hdyn : Dynamic (MMU.reserveStackPages n k).mmu.nextKernelThreadStackVaddr :=
      HeapOrStack.dynamic (Or.inl (by rw [hstack]; omega))
    rw [MMU.reserveStackPages, MMU.reserveStackPage]
    exact ((h.outsideKept_reserveStackPages hlt n (by omega)).trans
      ((h.reserveStackPages hlt n (by omega)).outsideKept_demandAllocate hdyn)).trans
        (.setStack frames _ _)

theorem outsideKept_allocStack (h : Owns k held frames) (hb : InRegions k.bumps)
    (hroom : mmapKernelStacksStart + stackSize ≤ k.mmu.nextKernelThreadStackVaddr) :
    OutsideKept frames k (MMU.allocStack k).2 := by
  obtain ⟨q, heq, -⟩ := MMU.allocStack_of_inRegions hb
  rw [heq]
  exact ((OutsideKept.setIrq frames k _).trans ((h.setIrq
    (IRQ.disable k.irq)).outsideKept_reserveStackPages hb.stack_lt _ hroom)).trans
    (.setIrq frames _ q)

end Owns

/-! ### Whole runs -/

namespace MemSystem

variable {s s' : MemSystem} {r : ℕ}

/-- **No command writes outside the frames.** -/
theorem outsideKept_step (h : s.Inv frames) {c : MemCmd} (hstep : s.step c = some (r, s')) :
    OutsideKept frames s.machine s'.machine := by
  have howns := h.owns
  cases c with
  | allocPage =>
    obtain ⟨-, rfl⟩ := Prod.mk.inj (Option.some.inj hstep)
    exact howns.outsideKept_allocPage h.regions
  | allocPages numPages =>
    obtain ⟨-, rfl⟩ := Prod.mk.inj (Option.some.inj hstep)
    exact howns.outsideKept_allocPages h.regions numPages
  | allocStack =>
    obtain ⟨hroom, -, rfl⟩ := guarded_eq_some.1 hstep
    exact howns.outsideKept_allocStack h.regions hroom
  | freePage u =>
    obtain ⟨hu, -, rfl⟩ := guarded_eq_some.1 hstep
    exact howns.outsideKept_freePage hu.dynamic
  | freePages u numPages =>
    obtain ⟨hu, -, rfl⟩ := guarded_eq_some.1 hstep
    exact howns.outsideKept_freeRun _ fun i hi ↦ (hu i hi).dynamic
  | freeStack u =>
    obtain ⟨hu, -, rfl⟩ := guarded_eq_some.1 hstep
    dsimp only
    rw [MMU.freeStack]
    exact howns.outsideKept_freeRun _ fun i hi ↦ hu.dynamic_freeStack hi
  | pageFault u =>
    obtain ⟨hu, -, rfl⟩ := guarded_eq_some.1 hstep
    exact howns.outsideKept_pageFaultHandler hu.dynamic
  | allocFrame =>
    obtain ⟨-, rfl⟩ := Prod.mk.inj (Option.some.inj hstep)
    exact .allocFrame frames _
  | freeFrame f =>
    obtain ⟨hf, -, rfl⟩ := guarded_eq_some.1 hstep
    obtain ⟨inSegments, queued, hroles⟩ := howns.perm (List.perm_cons_erase hf)
    exact hroles.outsideKept_freeFrame
  | writeFrame f i w =>
    obtain ⟨hf, -, rfl⟩ := guarded_eq_some.1 hstep
    obtain ⟨inSegments, queued, hroles⟩ := howns
    exact .store (hroles.owned.unmapped_mem f (List.mem_append_right _ hf)) i.isLt w
  | writePage u w =>
    obtain ⟨-, f, hf, -, rfl⟩ := guarded_map_eq_some.1 hstep
    obtain ⟨inSegments, queued, hroles⟩ := howns
    exact .store (hroles.table_mem (by simp) hf) (wordIndex_lt u) w

/-- **No run writes outside the frames.** -/
theorem outsideKept_runTrace {cmds : List MemCmd} {out : List ℕ} (h : s.Inv frames)
    (hrun : runTrace MemSystem.step s cmds = some (out, s')) :
    OutsideKept frames s.machine s'.machine :=
  (invariant_of_runTrace (I := fun t : MemSystem ↦
      t.Inv frames ∧ OutsideKept frames s.machine t.machine)
    (fun _ _ _ _ ⟨ht, hkept⟩ hstep ↦
      ⟨inv_step ht hstep, hkept.trans (outsideKept_step ht hstep)⟩) ⟨h, .refl frames _⟩ hrun).2

end MemSystem

end Marimba
