import Marimba.Memory.Ownership

/-!
# The memory manager and its clients

Every entry point of `mmu.c` and the page-fault handler preserve the ownership of frames, and so
does everything clients may do to the memory they own. This is proved function by function, bottom
up, from the elementary changes of `Ownership`, and then for whole runs of the system
`MemSystem.step`, in which clients call the entry points in any order, page faults arrive at any
heap or stack address and clients write into the pages and frames they own.

**Runs stay inside the documented regions.** The heap pointer cannot leave its region: the test in
`MMU_alloc_page` stops it at the end. The stack pointer can — its test compares with the wrong
bound — so `MemSystem.step` allows a stack only while the pointer stays in the stack region.
-/

namespace Marimba

open RadixTree

variable {k k' : Machine} {held frames : List ℕ} {v : ℕ}

/-! ### Paging operations preserve ownership -/

/-- A path to a table is not the path of a page. -/
theorem ne_vpath_of_length {q : List ℕ} (hq : q.length < physicalPageDepth) : q ≠ vpath v := by
  rintro rfl
  exact absurd hq (by rw [vpath_length]; decide)

/-- **A page is mapped**: a held frame, entered at the empty entry of the page in its last table. No
table is touched. -/
theorem FrameRoles.mapPage {inSegments queued : List ℕ} {g t : ℕ}
    (h : FrameRoles k inSegments queued (g :: held) frames) (hv : Dynamic v)
    (ht : tableWalk k ((vpath v).take pageTableDepth) = some t)
    (hp : PTE.present (k.mem (t + 8 * ptOffsetForDepth v pageTableDepth)) = false) :
    FrameRoles (k.store (t + 8 * ptOffsetForDepth v pageTableDepth) (pteSetAddr g)) inSegments
        queued held frames ∧
      ∀ q : List ℕ, q.length < physicalPageDepth →
        tableWalk (k.store (t + 8 * ptOffsetForDepth v pageTableDepth) (pteSetAddr g)) q =
          tableWalk k q := by
  have hwritten : (k.store (t + 8 * ptOffsetForDepth v pageTableDepth) (pteSetAddr g)).mem
      (t + 8 * ptOffsetForDepth v pageTableDepth) = pteSetAddr g := Function.update_self ..
  obtain ⟨hroles, hlink⟩ := h.link (p := (vpath v).take pageTableDepth) (by simp) ht
    (ptOffsetForDepth_lt (by decide)) (h.owned.tableTree.not_identity hv ht) hp hwritten
    (fun hlong ↦ absurd hlong (by rw [length_take_vpath]; decide))
    (fun a ha _ ↦ Function.update_of_ne ha _ _)
  rw [← vpath_eq_take_concat] at hlink
  exact ⟨hroles, fun q hq ↦ (hlink q hq.le).trans (if_neg (ne_vpath_of_length hq))⟩

theorem Owns.pageFaultHandler (h : Owns k held frames) (hv : Dynamic v) :
    Owns (pageFaultHandler k v) held frames := by
  have hwalk := ptWalk_spec h.tableTree hv
  rw [Marimba.pageFaultHandler]
  generalize ptWalk k v = r at hwalk
  cases hwalk with
  | frame hf => simpa using h
  | @stop d t hd ht hp =>
    simp only [Nat.ne_of_lt hd, if_false]
    split
    · exact h
    · next hcond =>
      simp only [Bool.or_eq_true, not_or, bne_iff_ne, ne_eq, not_not] at hcond
      obtain ⟨-, rfl⟩ := hcond
      rcases h.alloc with hnone | ⟨g, hg, hret, inSegments, queued, hroles⟩
      · rw [hnone]
        simpa using h
      · simp only [hret, hg, if_false]
        exact ⟨inSegments, queued, (hroles.mapPage hv (by rw [tableWalk_allocFrame]; exact ht)
          (by rw [MMU.allocFrame_mem]; exact hp)).1⟩

/-- **A new table**: a held frame, cleared and entered at an empty entry of the path. -/
theorem FrameRoles.newTable {inSegments queued : List ℕ} {g depth t : ℕ}
    (h : FrameRoles k inSegments queued (g :: held) frames) (hv : Dynamic v)
    (hd : depth < pageTableDepth) (ht : tableWalk k ((vpath v).take depth) = some t)
    (hp : PTE.present (k.mem (t + 8 * ptOffsetForDepth v depth)) = false) :
    let k' := (initEmptyPageTable k g).store (t + 8 * ptOffsetForDepth v depth) (pteSetAddr g)
    FrameRoles k' inSegments queued held frames ∧
      (∀ q : List ℕ, q.length ≤ physicalPageDepth →
        tableWalk k' q = if q = (vpath v).take (depth + 1) then some g else tableWalk k q) ∧
      (∀ j < pageTableNumEnts, k'.mem (g + 8 * j) = 0) ∧
      ∀ a, a ≠ t + 8 * ptOffsetForDepth v depth → (∀ j < pageTableNumEnts, a ≠ g + 8 * j) →
        k'.mem a = k.mem a := by
  intro k'
  have hd₄ : depth < physicalPageDepth := Nat.lt_succ_of_lt hd
  have hlen : ((vpath v).take depth).length < physicalPageDepth := by
    rw [List.length_take, vpath_length]
    omega
  have hgf : IsFrame g := h.isFrame_of_mem (by simp)
  have hoff := ptOffsetForDepth_lt (v := v) (Nat.ne_of_lt hd₄)
  have hnotg : ∀ j < pageTableNumEnts, g + 8 * j ≠ t + 8 * ptOffsetForDepth v depth := by
    intro j hj he
    have hgt := (entry_inj hgf (h.isFrame_of_tableWalk hlen.le ht) hj hoff he).1
    exact (h.owned.mapped _ hlen.le t ht).2 (hgt ▸ by simp)
  have hzero : ∀ j < pageTableNumEnts, k'.mem (g + 8 * j) = 0 := by
    intro j hj
    refine (Function.update_of_ne (hnotg j hj) _ _).trans (if_pos ?_)
    simp only [pageTableNumEnts] at hj ⊢
    omega
  have hother : ∀ a, a ≠ t + 8 * ptOffsetForDepth v depth →
      (∀ j < pageTableNumEnts, a ≠ g + 8 * j) → k'.mem a = k.mem a := by
    intro a ha hag
    refine (Function.update_of_ne ha _ _).trans (if_neg fun ⟨h₁, h₂, h₃⟩ ↦ ?_)
    simp only [pageTableNumEnts] at h₂ hag
    exact hag ((a - g) / 8) (by omega) (by omega)
  obtain ⟨hroles, hwalk⟩ := h.link hlen ht hoff (h.owned.tableTree.not_identity hv ht) hp
    (show k'.mem (t + 8 * ptOffsetForDepth v depth) = pteSetAddr g from Function.update_self ..)
    (fun _ ↦ hzero) hother
  rw [← take_vpath_succ hd₄] at hwalk
  exact ⟨hroles, hwalk, hzero, hother⟩

/-- The walk goes on in the table that has been entered. -/
theorem FrameRoles.ptGetNextPte_newTable {a g d : ℕ} {k' : Machine}
    (h : FrameRoles k inSegments queued (g :: held) frames) (ha : a ≠ 0) :
    ptGetNextPte (k'.store a (pteSetAddr g)) a v d = g + 8 * ptOffsetForDepth v d := by
  obtain ⟨hf, hlt⟩ := h.owned.frame g (h.owned.unmapped_mem g (by simp))
  exact ptGetNextPte_store ha hf.1 hlt

/-- The loop of `PT_demand_allocate`. The induction is on the number of missing tables; the pointer
passed on is to the empty entry of the table `t` at which the next one is entered. -/
theorem Owns.demandAllocateFrom (hv : Dynamic v) :
    ∀ (n : ℕ) {depth t : ℕ} {k : Machine}, depth + n = pageTableDepth →
      tableWalk k ((vpath v).take depth) = some t →
      PTE.present (k.mem (t + 8 * ptOffsetForDepth v depth)) = false → Owns k held frames →
      Owns (PT.demandAllocateFrom v n depth (t + 8 * ptOffsetForDepth v depth) k).2 held frames
  | 0, depth, t, k, hn, ht, hp, ⟨inSegments, queued, h⟩ => by
    obtain rfl : depth = pageTableDepth := hn
    rw [PT.demandAllocateFrom]
    refine ⟨inSegments, queued,
      (h.storeAbsent (by simp) ht (ptOffsetForDepth_lt (by decide)) hp ?_).1⟩
    rw [present_setBit_nine]
    exact hp
  | n + 1, depth, t, k, hn, ht, hp, h => by
    have hd : depth < pageTableDepth := by omega
    rw [PT.demandAllocateFrom]
    rcases h.alloc with hnone | ⟨g, hg, hret, inSegments, queued, hroles⟩
    · rw [hnone]
      simpa using h
    · simp only [hret, hg, if_false]
      obtain ⟨hroles', hwalk, hzero, -⟩ := hroles.newTable hv hd
        (by rw [tableWalk_allocFrame]; exact ht) (by rw [MMU.allocFrame_mem]; exact hp)
      rw [hroles.ptGetNextPte_newTable (h.tableTree.entry_ne_zero ht _)]
      refine Owns.demandAllocateFrom hv n (by omega) ?_ ?_ ⟨inSegments, queued, hroles'⟩
      · rw [hwalk _ (by simp), if_pos rfl]
      · rw [hzero _ (ptOffsetForDepth_lt (Nat.ne_of_lt (Nat.succ_lt_succ hd)))]
        rfl

theorem Owns.demandAllocate (h : Owns k held frames) (hv : Dynamic v) :
    Owns (PT.demandAllocate k v).2 held frames := by
  have hwalk := ptWalk_spec h.tableTree hv
  rw [PT.demandAllocate]
  generalize ptWalk k v = r at hwalk
  cases hwalk with
  | frame hf => simpa using h
  | @stop d t hd ht hp =>
    simp only [Nat.ne_of_lt hd, if_false]
    refine Owns.demandAllocateFrom hv _ ?_ ht hp h
    simp only [physicalPageDepth, pageTableDepth] at *
    omega

/-! ### Freeing a page -/

/-- The entry of a page in its last table, if that table exists. -/
def leafEntry (k : Machine) (v : ℕ) : Option ℕ :=
  (tableWalk k ((vpath v).take pageTableDepth)).map fun t ↦
    k.mem (t + 8 * ptOffsetForDepth v pageTableDepth)

/-- A write to the entry of one page leaves the entries of the others alone. -/
theorem TableTree.leafEntry_store_of_ne (h : TableTree k) {t u w : ℕ}
    (ht : tableWalk k ((vpath v).take pageTableDepth) = some t)
    (hwalk : ∀ q : List ℕ, q.length < physicalPageDepth →
      tableWalk (k.store (t + 8 * ptOffsetForDepth v pageTableDepth) w) q = tableWalk k q)
    (hu : vpath u ≠ vpath v) :
    leafEntry (k.store (t + 8 * ptOffsetForDepth v pageTableDepth) w) u = leafEntry k u := by
  have hshort : ((vpath u).take pageTableDepth).length < physicalPageDepth := by
    rw [length_take_vpath]
    decide
  rw [leafEntry, leafEntry, hwalk _ hshort]
  rcases hs : tableWalk k ((vpath u).take pageTableDepth) with - | s
  · rfl
  · rw [Option.map_some, Option.map_some, Machine.store_mem, Function.update_of_ne]
    -- the same entry would make the two paths equal
    intro he
    obtain ⟨rfl, hoff⟩ := entry_inj (h.frame _ hshort.le s hs) (h.frame _ (by simp) t ht)
      (ptOffsetForDepth_lt (by decide)) (ptOffsetForDepth_lt (by decide)) he
    have hpath := h.tree _ _ hshort.le (by simp) s hs ht
    exact hu (by rw [vpath_eq_take_concat u, vpath_eq_take_concat v, hpath, hoff])

/-- The same tables have the same entries. -/
theorem SameTables.leafEntry_eq {k' : Machine} (h : SameTables k k') (u : ℕ) :
    leafEntry k' u = leafEntry k u := by
  have hshort : ((vpath u).take pageTableDepth).length < physicalPageDepth := by
    rw [length_take_vpath]
    decide
  rw [leafEntry, leafEntry, h.tableWalk _ hshort.le]
  rcases hs : Marimba.tableWalk k ((vpath u).take pageTableDepth) with - | s
  · rfl
  · rw [Option.map_some, Option.map_some, h.entry _ hshort s hs _ (ptOffsetForDepth_lt (by decide))]

section FreePage

variable {inSegments queued : List ℕ} {f : ℕ}

theorem MMU.freePage_of_unmapped (h : TableTree k) (hv : Dynamic v)
    (hnone : tableWalk k (vpath v) = none) : MMU.freePage k v = k := by
  rw [MMU.freePage, PT.free_of_unmapped h hv hnone]
  simp

/-- An address that is not page-aligned is refused. -/
theorem MMU.freePage_of_not_aligned (hal : v % pageSize ≠ 0) : MMU.freePage k v = k := by
  rw [MMU.freePage, PT.free, if_pos hal]
  simp

/-- **Freeing a mapped page.** Its frame joins the queue, the page is unmapped, every other page
keeps its entry. -/
theorem FrameRoles.freePage (h : FrameRoles k inSegments queued held frames) (hv : Dynamic v)
    (hal : v % pageSize = 0) (hf : tableWalk k (vpath v) = some f) :
    FrameRoles (MMU.freePage k v) inSegments (queued ++ [f]) held frames ∧
      (∀ q : List ℕ, q.length ≤ physicalPageDepth →
        tableWalk (MMU.freePage k v) q = if q = vpath v then none else tableWalk k q) ∧
      ∀ w, vpath w ≠ vpath v → leafEntry (MMU.freePage k v) w = leafEntry k w := by
  have htree := h.owned.tableTree
  obtain ⟨t, ht, hfree⟩ := PT.free_of_mapped htree hv hal hf
  have hframe := h.isFrame_of_tableWalk (by simp) hf
  obtain ⟨hroles, hwalk⟩ := h.unlink (length_take_vpath v) ht
    (by rw [← vpath_eq_take_concat]; exact hf)
    (present_clearedEntry (k.mem (t + 8 * ptOffsetForDepth v pageTableDepth)))
  rw [← vpath_eq_take_concat] at hwalk
  obtain ⟨hroles', hsame⟩ := hroles.freeFrame
  have hpage : MMU.freePage k v = MMU.freeFrame
      (k.store (t + 8 * ptOffsetForDepth v pageTableDepth)
        (clearedEntry (k.mem (t + 8 * ptOffsetForDepth v pageTableDepth)))) f := by
    rw [MMU.freePage, hfree]
    exact if_pos hframe.2.ne'
  rw [hpage]
  refine ⟨hroles', fun q hq ↦ (hsame.tableWalk q hq).trans (hwalk q hq), fun w hw ↦ ?_⟩
  rw [hsame.leafEntry_eq]
  exact htree.leafEntry_store_of_ne ht
    (fun q hq ↦ (hwalk q hq.le).trans (if_neg (ne_vpath_of_length hq))) hw

end FreePage

theorem Owns.freePage (h : Owns k held frames) (hv : Dynamic v) :
    Owns (MMU.freePage k v) held frames := by
  obtain ⟨inSegments, queued, h⟩ := h
  by_cases hal : v % pageSize = 0
  · rcases hf : tableWalk k (vpath v) with - | f
    · rw [MMU.freePage_of_unmapped h.owned.tableTree hv hf]
      exact ⟨inSegments, queued, h⟩
    · exact ⟨inSegments, queued ++ [f], (h.freePage hv hal hf).1⟩
  · rw [MMU.freePage_of_not_aligned hal]
    exact ⟨inSegments, queued, h⟩

/-- Freeing a run of pages, one page after the other. -/
theorem Owns.freeRun (h : Owns k held frames) : ∀ (n : ℕ),
    (∀ i < n, Dynamic (pageOffset v i)) → Owns (MMU.freeRun v n k) held frames
  | 0, _ => h
  | n + 1, hdyn => by
    rw [MMU.freeRun]
    exact (h.freeRun n fun i hi ↦ hdyn i (by omega)).freePage (hdyn n (by omega))

/-! ### The bump pointers -/

theorem PT.demandAllocateFrom_bumps (v : ℕ) : ∀ (n depth ent : ℕ) (k : Machine),
    (PT.demandAllocateFrom v n depth ent k).2.bumps = k.bumps
  | 0, _, _, _ => rfl
  | n + 1, depth, ent, k => by
    rw [PT.demandAllocateFrom]
    dsimp only
    split
    · exact MMU.allocFrame_bumps k
    · rw [PT.demandAllocateFrom_bumps v n]
      exact MMU.allocFrame_bumps k

@[simp] theorem PT.demandAllocate_bumps (k : Machine) (v : ℕ) :
    (PT.demandAllocate k v).2.bumps = k.bumps := by
  rw [PT.demandAllocate]
  dsimp only
  split
  · rfl
  · exact PT.demandAllocateFrom_bumps v _ _ _ k

@[simp] theorem pageFaultHandler_bumps (k : Machine) (v : ℕ) :
    (pageFaultHandler k v).bumps = k.bumps := by
  rw [pageFaultHandler]
  dsimp only
  split
  · rfl
  · split
    · rfl
    · split <;> exact MMU.allocFrame_bumps k

@[simp] theorem MMU.freePage_bumps (k : Machine) (v : ℕ) : (MMU.freePage k v).bumps = k.bumps := by
  have hfree : (PT.free k v).2.bumps = k.bumps := by
    rw [PT.free]
    split
    · rfl
    · split <;> rfl
  rw [MMU.freePage]
  dsimp only
  split
  · rw [MMU.freeFrame_bumps]
    exact hfree
  · exact hfree

@[simp] theorem MMU.freeRun_bumps (v : ℕ) (k : Machine) : ∀ n : ℕ,
    (MMU.freeRun v n k).bumps = k.bumps
  | 0 => rfl
  | n + 1 => by rw [MMU.freeRun, MMU.freePage_bumps, MMU.freeRun_bumps v k n]

theorem MMU.reserveStackPage_bumps (k : Machine) :
    (MMU.reserveStackPage k).bumps =
      (k.mmu.nextKernelHeapVaddr, wsub k.mmu.nextKernelThreadStackVaddr pageSize) := by
  obtain ⟨hheap, hstack⟩ :=
    Prod.mk.inj (PT.demandAllocate_bumps k k.mmu.nextKernelThreadStackVaddr)
  rw [MMU.reserveStackPage, Machine.setStack_bumps, hheap, hstack]

/-- Reserving pages moves the stack pointer down, the heap pointer not at all. -/
theorem MMU.reserveStackPages_bumps {k : Machine}
    (hlt : k.mmu.nextKernelThreadStackVaddr < wordSize) : ∀ n : ℕ,
    pageSize * n ≤ k.mmu.nextKernelThreadStackVaddr →
    (MMU.reserveStackPages n k).bumps =
      (k.mmu.nextKernelHeapVaddr, k.mmu.nextKernelThreadStackVaddr - pageSize * n)
  | 0, _ => rfl
  | n + 1, hle => by
    rw [Nat.mul_succ] at hle ⊢
    obtain ⟨hheap, hstack⟩ := Prod.mk.inj (MMU.reserveStackPages_bumps hlt n (by omega))
    rw [MMU.reserveStackPages, MMU.reserveStackPage_bumps, hheap, hstack,
      wsub_of_le (by omega) (by omega), Nat.sub_sub]

/-! ### The regions of the bump pointers -/

/-- A virtual address of the kernel heap or of the kernel stacks. -/
def HeapOrStack (v : ℕ) : Prop :=
  (mmapKernelStacksStart ≤ v ∧ v < mmapKernelStacksEnd) ∨
    (mmapKernelHeapStart ≤ v ∧ v < mmapKernelHeapEnd)

instance (v : ℕ) : Decidable (HeapOrStack v) := inferInstanceAs (Decidable (_ ∨ _))

theorem HeapOrStack.dynamic (h : HeapOrStack v) : Dynamic v := by
  simp only [HeapOrStack, mmapKernelStacksStart, mmapKernelStacksEnd, mmapKernelHeapStart,
    mmapKernelHeapEnd, p4PteAddresses] at h
  exact dynamic_of_le (by omega) (by omega)

/-- The bytes of one kernel stack. -/
abbrev stackSize : ℕ := pageSize * kernelThreadStackSizePages

/-- Heap and stack pointer are inside their regions: the heap pointer at a page, the stack pointer
eight bytes below a whole number of stacks. -/
structure InRegions (b : ℕ × ℕ) : Prop where
  heap_start : mmapKernelHeapStart ≤ b.1
  heap_end : b.1 ≤ mmapKernelHeapEnd
  heap_aligned : b.1 % pageSize = 0
  stack_start : mmapKernelStacksStart ≤ b.2
  stack : ∃ n, b.2 + stackSize * n + 8 = mmapKernelStacksEnd

theorem InRegions.stack_lt {b : ℕ × ℕ} (h : InRegions b) : b.2 < mmapKernelStacksEnd := by
  obtain ⟨n, hn⟩ := h.stack
  omega

/-! ### The entry points of `mmu.c` preserve ownership -/

namespace Owns

theorem setIrq (h : Owns k held frames) (q : IrqState) : Owns (k.setIrq q) held frames :=
  h.of_eq rfl rfl rfl rfl rfl rfl

theorem setHeap (h : Owns k held frames) (w : ℕ) : Owns (k.setHeap w) held frames :=
  h.of_eq rfl rfl rfl rfl rfl rfl

theorem setStack (h : Owns k held frames) (w : ℕ) : Owns (k.setStack w) held frames :=
  h.of_eq rfl rfl rfl rfl rfl rfl

end Owns

theorem MMU.allocPage_of_end (hend : k.mmu.nextKernelHeapVaddr = mmapKernelHeapEnd) :
    MMU.allocPage k = (0, k.setIrq (IRQ.disable k.irq)) := by
  rw [MMU.allocPage]
  exact if_pos hend

theorem MMU.allocPage_of_ne_end (hend : k.mmu.nextKernelHeapVaddr ≠ mmapKernelHeapEnd) :
    ∃ q, MMU.allocPage k = (k.mmu.nextKernelHeapVaddr,
      (PT.demandAllocate ((k.setIrq (IRQ.disable k.irq)).setHeap
        (wadd k.mmu.nextKernelHeapVaddr pageSize)) k.mmu.nextKernelHeapVaddr).2.setIrq q) := by
  rw [MMU.allocPage]
  exact ⟨_, if_neg hend⟩

/-- In its region the heap pointer does not wrap around. -/
theorem wadd_pageSize_of_lt {v : ℕ} (hlt : v < mmapKernelHeapEnd) :
    wadd v pageSize = v + pageSize := by
  refine wadd_of_lt ?_
  simp only [mmapKernelHeapEnd, p4PteAddresses, wordSize, pageSize] at *
  omega

theorem Owns.allocPage (h : Owns k held frames) (hb : InRegions k.bumps) :
    Owns (MMU.allocPage k).2 held frames ∧ InRegions (MMU.allocPage k).2.bumps := by
  by_cases hend : k.mmu.nextKernelHeapVaddr = mmapKernelHeapEnd
  · rw [MMU.allocPage_of_end hend]
    exact ⟨h.setIrq _, hb⟩
  · obtain ⟨q, hq⟩ := MMU.allocPage_of_ne_end hend
    have hlt : k.mmu.nextKernelHeapVaddr < mmapKernelHeapEnd := lt_of_le_of_ne hb.heap_end hend
    have hin : HeapOrStack k.mmu.nextKernelHeapVaddr := Or.inr ⟨hb.heap_start, hlt⟩
    rw [hq]
    refine ⟨(((h.setIrq _).setHeap _).demandAllocate hin.dynamic).setIrq q, ?_⟩
    rw [Machine.setIrq_bumps, PT.demandAllocate_bumps, Machine.setHeap_bumps,
      wadd_pageSize_of_lt hlt]
    have halign : k.mmu.nextKernelHeapVaddr % pageSize = 0 := hb.heap_aligned
    refine ⟨hb.heap_start.trans (Nat.le_add_right _ _), ?_, ?_, hb.stack_start, hb.stack⟩
    · simp only [pageSize, mmapKernelHeapEnd, p4PteAddresses] at *
      omega
    · simp only [pageSize] at *
      omega

theorem Owns.allocMorePages (h : Owns k held frames) (hb : InRegions k.bumps) : ∀ n : ℕ,
    Owns (MMU.allocMorePages n k).2 held frames ∧ InRegions (MMU.allocMorePages n k).2.bumps
  | 0 => ⟨h, hb⟩
  | n + 1 => by
    obtain ⟨h', hb'⟩ := h.allocMorePages hb n
    rw [MMU.allocMorePages]
    dsimp only
    split
    · exact h'.allocPage hb'
    · exact ⟨h', hb'⟩

theorem Owns.allocPages (h : Owns k held frames) (hb : InRegions k.bumps) (numPages : ℤ) :
    Owns (MMU.allocPages k numPages).2 held frames ∧
      InRegions (MMU.allocPages k numPages).2.bumps := by
  rw [MMU.allocPages]
  split
  · exact ⟨h, hb⟩
  · obtain ⟨h₁, hb₁⟩ := (h.setIrq (IRQ.disable k.irq)).allocPage hb
    dsimp only
    split
    · exact ⟨h₁, hb₁⟩
    · obtain ⟨h₂, hb₂⟩ := h₁.allocMorePages hb₁ (numPages - 1).toNat
      split
      · exact ⟨h₂.setIrq _, hb₂⟩
      · exact ⟨h₂, hb₂⟩

/-- Reserving pages below a stack pointer that stays in its region. -/
theorem Owns.reserveStackPages (h : Owns k held frames)
    (hlt : k.mmu.nextKernelThreadStackVaddr < mmapKernelStacksEnd) : ∀ n : ℕ,
    mmapKernelStacksStart + pageSize * n ≤ k.mmu.nextKernelThreadStackVaddr →
    Owns (MMU.reserveStackPages n k) held frames
  | 0, _ => h
  | n + 1, hle => by
    rw [Nat.mul_succ] at hle
    have hword : k.mmu.nextKernelThreadStackVaddr < wordSize :=
      hlt.trans (by norm_num [wordSize])
    obtain ⟨-, hstack⟩ := Prod.mk.inj (MMU.reserveStackPages_bumps hword n (by omega))
    rw [MMU.reserveStackPages, MMU.reserveStackPage]
    refine ((h.reserveStackPages hlt n (by omega)).demandAllocate ?_).setStack _
    exact HeapOrStack.dynamic (Or.inl (by rw [hstack]; omega))

/-- While the stack pointer is in its region, `MMU_alloc_stack` does not see the end of it. -/
theorem MMU.allocStack_of_inRegions (hb : InRegions k.bumps) :
    ∃ q, MMU.allocStack k = (k.mmu.nextKernelThreadStackVaddr,
        (MMU.reserveStackPages kernelThreadStackSizePages
          (k.setIrq (IRQ.disable k.irq))).setIrq q) ∧
      (MMU.allocStack k).2.bumps =
        (k.mmu.nextKernelHeapVaddr, k.mmu.nextKernelThreadStackVaddr - stackSize) := by
  have hlt : k.mmu.nextKernelThreadStackVaddr < mmapKernelStacksEnd := hb.stack_lt
  have hstart : mmapKernelStacksStart ≤ k.mmu.nextKernelThreadStackVaddr := hb.stack_start
  have hne : k.mmu.nextKernelThreadStackVaddr ≠ mmapKernelHeapStart := by
    simp only [mmapKernelStacksEnd, mmapKernelHeapStart, p4PteAddresses] at *
    omega
  have hword : k.mmu.nextKernelThreadStackVaddr < wordSize := hlt.trans (by norm_num [wordSize])
  have hle : pageSize * kernelThreadStackSizePages ≤ k.mmu.nextKernelThreadStackVaddr := by
    simp only [mmapKernelStacksStart, p4PteAddresses, pageSize, kernelThreadStackSizePages] at *
    omega
  have hbumps := MMU.reserveStackPages_bumps (k := k.setIrq (IRQ.disable k.irq)) hword _ hle
  rw [MMU.allocStack]
  dsimp only
  rw [Machine.setIrq_mmu, if_neg hne]
  exact ⟨_, rfl, by rw [Machine.setIrq_bumps, hbumps]; rfl⟩

theorem Owns.allocStack (h : Owns k held frames) (hb : InRegions k.bumps)
    (hroom : mmapKernelStacksStart + stackSize ≤ k.mmu.nextKernelThreadStackVaddr) :
    Owns (MMU.allocStack k).2 held frames ∧ InRegions (MMU.allocStack k).2.bumps := by
  obtain ⟨q, heq, hbumps⟩ := MMU.allocStack_of_inRegions hb
  refine ⟨?_, ?_⟩
  · rw [heq]
    exact ((h.setIrq (IRQ.disable k.irq)).reserveStackPages hb.stack_lt _ hroom).setIrq q
  · rw [hbumps]
    obtain ⟨n, hn⟩ := hb.stack
    have hn' : k.mmu.nextKernelThreadStackVaddr + stackSize * n + 8 = mmapKernelStacksEnd := hn
    refine ⟨hb.heap_start, hb.heap_end, hb.heap_aligned, by dsimp only; omega, n + 1, ?_⟩
    dsimp only
    rw [Nat.mul_succ]
    omega

/-- The pages that `MMU_free_stack` frees for a stack whose top is in a region: no sum wraps. -/
theorem pageOffset_freeStack (hv : HeapOrStack v) {i : ℕ} (hi : i < kernelThreadStackSizePages) :
    pageOffset (wsub v (pageSize - 8)) i = v - (pageSize - 8) + pageSize * i := by
  simp only [HeapOrStack, mmapKernelStacksStart, mmapKernelStacksEnd, mmapKernelHeapStart,
    mmapKernelHeapEnd, p4PteAddresses, kernelThreadStackSizePages, pageSize] at hv hi ⊢
  rw [wsub_of_le (by omega) (by simp only [wordSize]; omega)]
  simp only [pageOffset, signExtend32, wadd, wordSize, pageSize]
  rw [if_pos (by omega)]
  omega

theorem HeapOrStack.dynamic_freeStack (hv : HeapOrStack v) {i : ℕ}
    (hi : i < kernelThreadStackSizePages) :
    Dynamic (pageOffset (wsub v (pageSize - 8)) i) := by
  rw [pageOffset_freeStack hv hi]
  simp only [HeapOrStack, mmapKernelStacksStart, mmapKernelStacksEnd, mmapKernelHeapStart,
    mmapKernelHeapEnd, p4PteAddresses, kernelThreadStackSizePages, pageSize] at hv hi ⊢
  exact dynamic_of_le (by omega) (by omega)

theorem Owns.freeStack (h : Owns k held frames) (hv : HeapOrStack v) :
    Owns (MMU.freeStack k v) held frames := by
  rw [MMU.freeStack]
  exact h.freeRun _ fun i hi ↦ hv.dynamic_freeStack hi

@[simp] theorem MMU.freeStack_bumps (k : Machine) (v : ℕ) :
    (MMU.freeStack k v).bumps = k.bumps := by
  rw [MMU.freeStack, MMU.freeRun_bumps]

/-! ### The system: entry points, page faults and client writes -/

/-- What can happen to the memory manager after `MMU_init`. -/
inductive MemCmd where
  | allocPage
  | allocPages (numPages : ℤ)
  | allocStack
  | freePage (vaddr : ℕ)
  | freePages (vaddr : ℕ) (numPages : ℤ)
  | freeStack (vaddr : ℕ)
  | pageFault (vaddr : ℕ)
  | allocFrame
  | freeFrame (f : ℕ)
  | writeFrame (f : ℕ) (i : Fin pageTableNumEnts) (w : ℕ)
  | writePage (vaddr w : ℕ)

/-- The machine, the frames held by clients of `MMU_alloc_frame`, and the stacks that have been
allocated and not freed. -/
structure MemSystem where
  machine : Machine
  held : List ℕ
  liveStacks : List ℕ

namespace MemSystem

/-- One command with its result, `0` for the functions that return nothing. Addresses have to be in
the heap or in the stack region, a stack has to fit into what is left of its region, and raw frames
are freed and written by their holder only. -/
def step (s : MemSystem) : MemCmd → Option (ℕ × MemSystem)
  | .allocPage =>
    let (page, k) := MMU.allocPage s.machine
    some (page, { s with machine := k })
  | .allocPages numPages =>
    let (page, k) := MMU.allocPages s.machine numPages
    some (page, { s with machine := k })
  | .allocStack =>
    if mmapKernelStacksStart + stackSize ≤ s.machine.mmu.nextKernelThreadStackVaddr then
      let (stack, k) := MMU.allocStack s.machine
      some (stack, { s with machine := k, liveStacks := stack :: s.liveStacks })
    else none
  | .freePage vaddr =>
    if HeapOrStack vaddr then some (0, { s with machine := MMU.freePage s.machine vaddr })
    else none
  | .freePages vaddr numPages =>
    if ∀ i < numPages.toNat, HeapOrStack (pageOffset vaddr i) then
      some (0, { s with machine := MMU.freePages s.machine vaddr numPages })
    else none
  | .freeStack vaddr =>
    if HeapOrStack vaddr then
      some (0, { s with
        machine := MMU.freeStack s.machine vaddr, liveStacks := s.liveStacks.erase vaddr })
    else none
  | .pageFault vaddr =>
    if HeapOrStack vaddr then some (0, { s with machine := pageFaultHandler s.machine vaddr })
    else none
  | .allocFrame =>
    let (f, k) := MMU.allocFrame s.machine
    some (f, { s with machine := k, held := (toPtr f).toList ++ s.held })
  | .freeFrame f =>
    if f ∈ s.held then
      some (0, { s with machine := MMU.freeFrame s.machine f, held := s.held.erase f })
    else none
  | .writeFrame f i w =>
    if f ∈ s.held then some (0, { s with machine := s.machine.store (f + 8 * i) w }) else none
  | .writePage vaddr w =>
    if HeapOrStack vaddr then
      (tableWalk s.machine (vpath vaddr)).map fun f ↦
        (0, { s with machine := s.machine.store (f + 8 * (vaddr % pageSize / 8)) w })
    else none

/-- **The invariant of the memory manager**: every frame is owned once, and the bump pointers are in
their regions. -/
structure Inv (frames : List ℕ) (s : MemSystem) : Prop where
  owns : Owns s.machine s.held frames
  regions : InRegions s.machine.bumps

variable {s s' : MemSystem} {r : ℕ}

namespace Inv

theorem of_bumps {live : List ℕ} (h : s.Inv frames) (ho : Owns k held frames)
    (hb : k.bumps = s.machine.bumps) : Inv frames ⟨k, held, live⟩ :=
  ⟨ho, hb ▸ h.regions⟩

theorem allocFrame (h : s.Inv frames) :
    Inv frames { s with
      machine := (MMU.allocFrame s.machine).2
      held := (toPtr (MMU.allocFrame s.machine).1).toList ++ s.held } := by
  refine h.of_bumps ?_ (MMU.allocFrame_bumps _)
  rcases h.owns.alloc with hnone | ⟨g, hg, hret, ho⟩
  · simpa [hnone] using h.owns
  · simpa [hret, toPtr_of_ne hg] using ho

theorem freeFrame {f : ℕ} (h : s.Inv frames) (hf : f ∈ s.held) :
    Inv frames { s with machine := MMU.freeFrame s.machine f, held := s.held.erase f } := by
  refine h.of_bumps ?_ (MMU.freeFrame_bumps _ _)
  obtain ⟨inSegments, queued, ho⟩ := h.owns.perm (List.perm_cons_erase hf)
  exact ⟨_, _, ho.freeFrame.1⟩

/-- Writing into a held frame: no table is held. -/
theorem writeFrame {f i : ℕ} (h : s.Inv frames) (hf : f ∈ s.held) (hi : i < pageTableNumEnts)
    (w : ℕ) : Inv frames { s with machine := s.machine.store (f + 8 * i) w } := by
  refine h.of_bumps ?_ (Machine.store_bumps _ _ _)
  obtain ⟨inSegments, queued, ho⟩ := h.owns
  refine ⟨inSegments, queued, ho.store (fun p hp hw ↦ ?_) (Or.inl hf) hi w⟩
  exact (ho.owned.mapped p hp.le f hw).2 (List.mem_append_right _ hf)

/-- Writing into a mapped page: the tables are a tree, so no page is a table. -/
theorem writePage {f i : ℕ} (h : s.Inv frames) (hf : tableWalk s.machine (vpath v) = some f)
    (hi : i < pageTableNumEnts) (w : ℕ) :
    Inv frames { s with machine := s.machine.store (f + 8 * i) w } := by
  refine h.of_bumps ?_ (Machine.store_bumps _ _ _)
  obtain ⟨inSegments, queued, ho⟩ := h.owns
  refine ⟨inSegments, queued, ho.store (fun p hp hw ↦ ?_) (Or.inr ⟨_, by simp, hf⟩) hi w⟩
  have hpath := ho.owned.tree p (vpath v) hp.le (by simp) f hw hf
  rw [hpath, vpath_length] at hp
  exact absurd hp (lt_irrefl _)

end Inv

/-- **Every command preserves the invariant.** -/
theorem inv_step (h : s.Inv frames) {c : MemCmd} (hstep : s.step c = some (r, s')) :
    s'.Inv frames := by
  cases c with
  | allocPage =>
    obtain ⟨-, rfl⟩ := Prod.mk.inj (Option.some.inj hstep)
    obtain ⟨ho, hb⟩ := h.owns.allocPage h.regions
    exact ⟨ho, hb⟩
  | allocPages numPages =>
    obtain ⟨-, rfl⟩ := Prod.mk.inj (Option.some.inj hstep)
    obtain ⟨ho, hb⟩ := h.owns.allocPages h.regions numPages
    exact ⟨ho, hb⟩
  | allocStack =>
    obtain ⟨hroom, -, rfl⟩ := guarded_eq_some.1 hstep
    obtain ⟨ho, hb⟩ := h.owns.allocStack h.regions hroom
    exact ⟨ho, hb⟩
  | freePage vaddr =>
    obtain ⟨hv, -, rfl⟩ := guarded_eq_some.1 hstep
    exact h.of_bumps (h.owns.freePage hv.dynamic) (MMU.freePage_bumps _ _)
  | freePages vaddr numPages =>
    obtain ⟨hv, -, rfl⟩ := guarded_eq_some.1 hstep
    exact h.of_bumps (h.owns.freeRun _ fun i hi ↦ (hv i hi).dynamic) (MMU.freeRun_bumps _ _ _)
  | freeStack vaddr =>
    obtain ⟨hv, -, rfl⟩ := guarded_eq_some.1 hstep
    exact h.of_bumps (h.owns.freeStack hv) (MMU.freeStack_bumps _ _)
  | pageFault vaddr =>
    obtain ⟨hv, -, rfl⟩ := guarded_eq_some.1 hstep
    exact h.of_bumps (h.owns.pageFaultHandler hv.dynamic) (pageFaultHandler_bumps _ _)
  | allocFrame =>
    obtain ⟨-, rfl⟩ := Prod.mk.inj (Option.some.inj hstep)
    exact h.allocFrame
  | freeFrame f =>
    obtain ⟨hf, -, rfl⟩ := guarded_eq_some.1 hstep
    exact h.freeFrame hf
  | writeFrame f i w =>
    obtain ⟨hf, -, rfl⟩ := guarded_eq_some.1 hstep
    exact h.writeFrame hf i.isLt w
  | writePage vaddr w =>
    obtain ⟨-, f, hf, -, rfl⟩ := guarded_map_eq_some.1 hstep
    exact h.writePage hf (wordIndex_lt vaddr) w

/-- Every run preserves the invariant. -/
theorem inv_runTrace {cmds : List MemCmd} {out : List ℕ} (h : s.Inv frames)
    (hrun : runTrace MemSystem.step s cmds = some (out, s')) : s'.Inv frames :=
  invariant_of_runTrace (fun _ _ _ _ hs hstep ↦ inv_step hs hstep) h hrun

end MemSystem

end Marimba
