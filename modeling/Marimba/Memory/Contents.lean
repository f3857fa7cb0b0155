import Marimba.Memory.PagingSystem

/-!
# What virtual memory holds

The memory manager moves frames about underneath its clients: it allocates frames for tables and for
pages, clears the ones that become tables, threads the freed ones into a queue by their first words,
and rewrites entries of the tables. `load_of_lastStored` says that a client notices nothing of this:
**a word of a heap or stack page holds what was last stored there until its page is freed**, over
whole runs of the memory manager and its clients.

`PageKept` is what an operation does to one page that it does not free: the page stays in its frame
and the frame keeps its words. Every operation keeps every other page because a frame that is mapped
is neither free, nor held, nor a table (`Owned`), and these are all that the operations write.

A page that is mapped for the first time holds whatever its frame last held: the handler of page
faults does not clear it. So nothing is said about words that were not stored.
-/

namespace Marimba

open RadixTree

variable {k k' k'' : Machine} {inSegments queued held frames : List ℕ} {f g t u v : ℕ}

/-! ### Pages that keep their frame and their words -/

/-- The page of `u`, if it is mapped, stays in its frame, and the frame keeps its words. -/
def PageKept (u : ℕ) (k k' : Machine) : Prop :=
  ∀ f, tableWalk k (vpath u) = some f → tableWalk k' (vpath u) = some f ∧
    ∀ j < pageTableNumEnts, k'.mem (f + 8 * j) = k.mem (f + 8 * j)

namespace PageKept

theorem refl (u : ℕ) (k : Machine) : PageKept u k k := fun _ hf ↦ ⟨hf, fun _ _ ↦ rfl⟩

theorem trans (h : PageKept u k k') (h' : PageKept u k' k'') : PageKept u k k'' := by
  intro f hf
  obtain ⟨hf', hmem⟩ := h f hf
  obtain ⟨hf'', hmem'⟩ := h' f hf'
  exact ⟨hf'', fun j hj ↦ (hmem' j hj).trans (hmem j hj)⟩

/-- Only the memory and the root count. -/
theorem of_eq (hmem : k'.mem = k.mem) (hcr3 : k'.cr3 = k.cr3) : PageKept u k k' := fun f hf ↦
  ⟨by rw [tableWalk_of_eq hmem hcr3, hf], fun j _ ↦ by rw [hmem]⟩

theorem allocFrame (u : ℕ) (k : Machine) : PageKept u k (MMU.allocFrame k).2 :=
  of_eq (MMU.allocFrame_mem k) (MMU.allocFrame_cr3 k)

theorem setIrq (u : ℕ) (k : Machine) (q : IrqState) : PageKept u k (k.setIrq q) := of_eq rfl rfl

theorem setHeap (u : ℕ) (k : Machine) (w : ℕ) : PageKept u k (k.setHeap w) := of_eq rfl rfl

theorem setStack (u : ℕ) (k : Machine) (w : ℕ) : PageKept u k (k.setStack w) := of_eq rfl rfl

end PageKept

/-- An entry of a table is no word of a page. -/
theorem FrameRoles.word_ne_entry {p : List ℕ} {i j : ℕ}
    (h : FrameRoles k inSegments queued held frames) (hf : tableWalk k (vpath u) = some f)
    (hp : p.length < physicalPageDepth) (ht : tableWalk k p = some t) (hi : i < pageTableNumEnts)
    (hj : j < pageTableNumEnts) : f + 8 * j ≠ t + 8 * i := by
  intro he
  obtain ⟨rfl, -⟩ := entry_inj (h.isFrame_of_tableWalk (by simp) hf)
    (h.isFrame_of_tableWalk hp.le ht) hj hi he
  exact ne_vpath_of_length hp (h.owned.tree p (vpath u) hp.le (by simp) f ht hf)

/-- A word of an unmapped frame is no word of a page. -/
theorem FrameRoles.word_ne_word {i j : ℕ} (h : FrameRoles k inSegments queued held frames)
    (hf : tableWalk k (vpath u) = some f) (hg : g ∈ inSegments ++ queued ++ held)
    (hi : i < pageTableNumEnts) (hj : j < pageTableNumEnts) : f + 8 * j ≠ g + 8 * i := by
  intro he
  obtain ⟨rfl, -⟩ := entry_inj (h.isFrame_of_tableWalk (by simp) hf) (h.isFrame_of_mem hg) hj hi he
  exact (h.owned.mapped _ (by simp) f hf).2 hg

/-- **Freeing a frame** keeps all pages: the link words are in unmapped frames. -/
theorem FrameRoles.pageKept_freeFrame
    (h : FrameRoles k inSegments queued (g :: held) frames) :
    PageKept u k (MMU.freeFrame k g) := by
  intro f hf
  have hg : g ∈ inSegments ++ queued ++ g :: held := by simp
  refine ⟨(h.freeFrame.2.tableWalk _ (by simp)).trans hf, fun j hj ↦ ?_⟩
  refine MMU.freeFrame_mem_of_notMem h.free (h.word_ne_word hf hg (i := 0) (by decide) hj) ?_
  exact fun hq ↦ h.word_ne_word hf (mem_of_queued hq) (i := 0) (by decide) hj rfl

/-! ### The operations of `paging.c` keep all pages that are mapped -/

/-- Entering a held frame as a page, at an entry that is not present. -/
theorem FrameRoles.pageKept_mapPage (h : FrameRoles k inSegments queued (g :: held) frames)
    (hv : Dynamic v) (ht : tableWalk k ((vpath v).take pageTableDepth) = some t)
    (hp : PTE.present (k.mem (t + 8 * ptOffsetForDepth v pageTableDepth)) = false) :
    PageKept u k (k.store (t + 8 * ptOffsetForDepth v pageTableDepth) (pteSetAddr g)) := by
  intro f hf
  have hoff := ptOffsetForDepth_lt (v := v) (d := pageTableDepth) (by decide)
  obtain ⟨-, hlink⟩ := h.link (p := (vpath v).take pageTableDepth) (by simp) ht hoff
    (h.owned.tableTree.not_identity hv ht) hp
    (show (k.store (t + 8 * ptOffsetForDepth v pageTableDepth) (pteSetAddr g)).mem
      (t + 8 * ptOffsetForDepth v pageTableDepth) = pteSetAddr g from Function.update_self ..)
    (fun hlong ↦ absurd hlong (by rw [length_take_vpath]; decide))
    (fun a ha _ ↦ Function.update_of_ne ha _ _)
  rw [← vpath_eq_take_concat] at hlink
  refine ⟨(hlink _ (by simp)).trans ((if_neg fun he ↦ ?_).trans hf), fun j hj ↦ ?_⟩
  · -- the page of `v` was not mapped
    have hnext := h.owned.tableTree.tableWalk_take_succ hv (by decide) ht
    rw [take_vpath_succ (by decide), ← vpath_eq_take_concat, ← he, hf, hp] at hnext
    cases hnext
  · exact Function.update_of_ne (h.word_ne_entry hf (by simp) ht hoff hj) _ _

/-- Entering a held frame as a table. -/
theorem FrameRoles.pageKept_newTable {depth : ℕ}
    (h : FrameRoles k inSegments queued (g :: held) frames) (hv : Dynamic v)
    (hd : depth < pageTableDepth) (ht : tableWalk k ((vpath v).take depth) = some t)
    (hp : PTE.present (k.mem (t + 8 * ptOffsetForDepth v depth)) = false) :
    PageKept u k
      ((initEmptyPageTable k g).store (t + 8 * ptOffsetForDepth v depth) (pteSetAddr g)) := by
  intro f hf
  obtain ⟨-, hwalk, -, hother⟩ := h.newTable hv hd ht hp
  have hd₄ : depth < physicalPageDepth := Nat.lt_succ_of_lt hd
  have hlen : ((vpath v).take depth).length < physicalPageDepth := by
    rw [List.length_take, vpath_length]
    omega
  refine ⟨(hwalk _ (by simp)).trans ((if_neg fun he ↦ ?_).trans hf), fun j hj ↦ hother _ ?_ ?_⟩
  · have := congrArg List.length he
    rw [List.length_take, vpath_length, vpath_length] at this
    simp only [pageTableDepth] at hd
    omega
  · exact h.word_ne_entry hf hlen ht (ptOffsetForDepth_lt hd₄.ne) hj
  · exact fun i hi ↦ h.word_ne_word hf (by simp) hi hj

/-- The loop of `PT_demand_allocate`, with `n` tables missing. -/
theorem Owns.pageKept_demandAllocateFrom (hv : Dynamic v) :
    ∀ (n : ℕ) {depth t : ℕ} {k : Machine}, depth + n = pageTableDepth →
      tableWalk k ((vpath v).take depth) = some t →
      PTE.present (k.mem (t + 8 * ptOffsetForDepth v depth)) = false → Owns k held frames →
      PageKept u k (PT.demandAllocateFrom v n depth (t + 8 * ptOffsetForDepth v depth) k).2
  | 0, depth, t, k, hn, ht, hp, ⟨inSegments, queued, h⟩ => by
    obtain rfl : depth = pageTableDepth := hn
    have hoff := ptOffsetForDepth_lt (v := v) (d := pageTableDepth) (by decide)
    rw [PT.demandAllocateFrom]
    intro f hf
    have hwalk := (h.storeAbsent (by simp) ht hoff hp
      (w := setBit (k.mem (t + 8 * ptOffsetForDepth v pageTableDepth)) 9 true)
      (by rw [present_setBit_nine, hp])).2
    exact ⟨(hwalk _ (by simp)).trans hf, fun j hj ↦
      Function.update_of_ne (h.word_ne_entry hf (by simp) ht hoff hj) _ _⟩
  | n + 1, depth, t, k, hn, ht, hp, h => by
    have hd : depth < pageTableDepth := by omega
    rw [PT.demandAllocateFrom]
    rcases h.alloc with hnone | ⟨g, hg, hret, inSegments, queued, hroles⟩
    · rw [hnone]
      exact .refl u k
    · simp only [hret, hg, if_false]
      have ht' : tableWalk (MMU.allocFrame k).2 ((vpath v).take depth) = some t := by
        rw [tableWalk_allocFrame]
        exact ht
      have hp' : PTE.present ((MMU.allocFrame k).2.mem (t + 8 * ptOffsetForDepth v depth)) =
          false := by
        rw [MMU.allocFrame_mem]
        exact hp
      obtain ⟨hroles', hwalk, hzero, -⟩ := hroles.newTable hv hd ht' hp'
      rw [hroles.ptGetNextPte_newTable (h.tableTree.entry_ne_zero ht _)]
      refine ((PageKept.allocFrame u k).trans (hroles.pageKept_newTable hv hd ht' hp')).trans
        (Owns.pageKept_demandAllocateFrom hv n (by omega) ?_ ?_ ⟨inSegments, queued, hroles'⟩)
      · rw [hwalk _ (by simp), if_pos rfl]
      · rw [hzero _ (ptOffsetForDepth_lt (Nat.ne_of_lt (Nat.succ_lt_succ hd)))]
        rfl

namespace Owns

theorem pageKept_demandAllocate (h : Owns k held frames) (hv : Dynamic v) :
    PageKept u k (PT.demandAllocate k v).2 := by
  have hwalk := ptWalk_spec h.tableTree hv
  rw [PT.demandAllocate]
  generalize ptWalk k v = r at hwalk
  cases hwalk with
  | frame hf => simpa using PageKept.refl u k
  | @stop d t hd ht hp =>
    simp only [Nat.ne_of_lt hd, if_false]
    refine Owns.pageKept_demandAllocateFrom hv _ ?_ ht hp h
    simp only [physicalPageDepth, pageTableDepth] at *
    omega

theorem pageKept_pageFaultHandler (h : Owns k held frames) (hv : Dynamic v) :
    PageKept u k (Marimba.pageFaultHandler k v) := by
  have hwalk := ptWalk_spec h.tableTree hv
  rw [Marimba.pageFaultHandler]
  generalize ptWalk k v = r at hwalk
  cases hwalk with
  | frame hf => simpa using PageKept.refl u k
  | @stop d t hd ht hp =>
    simp only [Nat.ne_of_lt hd, if_false]
    split
    · exact .refl u k
    · next hcond =>
      simp only [Bool.or_eq_true, not_or, bne_iff_ne, ne_eq, not_not] at hcond
      obtain ⟨-, rfl⟩ := hcond
      rcases h.alloc with hnone | ⟨g, hg, hret, inSegments, queued, hroles⟩
      · rw [hnone]
        exact .refl u k
      · simp only [hret, hg, if_false]
        exact (PageKept.allocFrame u k).trans (hroles.pageKept_mapPage hv
          (by rw [tableWalk_allocFrame]; exact ht) (by rw [MMU.allocFrame_mem]; exact hp))

/-- **Freeing a page** keeps the others. -/
theorem pageKept_freePage (h : Owns k held frames) (hv : Dynamic v)
    (hne : v % pageSize = 0 → vpath u ≠ vpath v) : PageKept u k (MMU.freePage k v) := by
  obtain ⟨inSegments, queued, h⟩ := h
  by_cases hal : v % pageSize = 0
  · rcases hfv : tableWalk k (vpath v) with - | g
    · rw [MMU.freePage_of_unmapped h.owned.tableTree hv hfv]
      exact .refl u k
    · obtain ⟨t, ht, hfree⟩ := PT.free_of_mapped h.owned.tableTree hv hal hfv
      obtain ⟨hroles, hwalk⟩ := h.unlink (length_take_vpath v) ht
        (by rw [← vpath_eq_take_concat]; exact hfv)
        (present_clearedEntry (k.mem (t + 8 * ptOffsetForDepth v pageTableDepth)))
      rw [← vpath_eq_take_concat] at hwalk
      rw [MMU.freePage, hfree]
      dsimp only
      rw [if_pos (h.isFrame_of_tableWalk (by simp) hfv).2.ne']
      refine PageKept.trans (fun f hf ↦ ⟨?_, fun j hj ↦ ?_⟩) hroles.pageKept_freeFrame
      · rw [hwalk _ (by simp), if_neg (hne hal), hf]
      · exact Function.update_of_ne
          (h.word_ne_entry hf (by simp) ht (ptOffsetForDepth_lt (by decide)) hj) _ _
  · rw [MMU.freePage_of_not_aligned hal]
    exact .refl u k

theorem pageKept_freeRun (h : Owns k held frames) : ∀ n : ℕ,
    (∀ i < n, Dynamic (pageOffset v i)) →
    (∀ i < n, pageOffset v i % pageSize = 0 → vpath u ≠ vpath (pageOffset v i)) →
    PageKept u k (MMU.freeRun v n k)
  | 0, _, _ => .refl u k
  | n + 1, hdyn, hne => by
    rw [MMU.freeRun]
    have hdyn' : ∀ i < n, Dynamic (pageOffset v i) := fun i hi ↦ hdyn i (by omega)
    exact (h.pageKept_freeRun n hdyn' fun i hi ↦ hne i (by omega)).trans
      ((h.freeRun n hdyn').pageKept_freePage (hdyn n (by omega)) (hne n (by omega)))

theorem pageKept_freeStack (h : Owns k held frames) (hv : HeapOrStack v)
    (hne : ∀ i < kernelThreadStackSizePages, pageOffset (wsub v (pageSize - 8)) i % pageSize = 0 →
      vpath u ≠ vpath (pageOffset (wsub v (pageSize - 8)) i)) :
    PageKept u k (MMU.freeStack k v) := by
  rw [MMU.freeStack]
  exact h.pageKept_freeRun _ (fun i hi ↦ hv.dynamic_freeStack hi) hne

end Owns

/-! ### The entry points of `mmu.c` -/

namespace PtSystem.Inv

variable {identityP3 identityP2 : ℕ}

theorem owns (h : Inv identityP3 identityP2 frames ⟨k, held⟩) : Owns k held frames := by
  obtain ⟨free, ⟨inSegments, queued, -, hroles⟩, -, -⟩ := h
  exact ⟨inSegments, queued, hroles⟩

/-- Interrupt state and bump pointers are invisible. -/
theorem of_eq (h : Inv identityP3 identityP2 frames ⟨k, held⟩) (hmem : k'.mem = k.mem)
    (hcr3 : k'.cr3 = k.cr3) (hseg : k'.mmu.freeSegments = k.mmu.freeSegments)
    (hhead : k'.mmu.freeSegmentHead = k.mmu.freeSegmentHead)
    (hphead : k'.mmu.freePageHead = k.mmu.freePageHead)
    (hptail : k'.mmu.freePageTail = k.mmu.freePageTail) :
    Inv identityP3 identityP2 frames ⟨k', held⟩ := by
  obtain ⟨free, ⟨inSegments, queued, heq, hroles⟩, hid, hplain⟩ := h
  have hframe : ∀ f ∈ frames, IsFrame f := fun f hf ↦ (hroles.owned.frame f hf).1
  exact ⟨free, ⟨inSegments, queued, heq, hroles.of_eq hmem hcr3 hseg hhead hphead hptail⟩,
    hid.congr hframe hcr3 (by rw [hmem]) fun a _ ↦ by rw [hmem],
    hplain.congr ⟨hcr3, fun _ _ _ _ _ _ ↦ by rw [hmem]⟩⟩

theorem setIrq (h : Inv identityP3 identityP2 frames ⟨k, held⟩) (q : IrqState) :
    Inv identityP3 identityP2 frames ⟨k.setIrq q, held⟩ := h.of_eq rfl rfl rfl rfl rfl rfl

theorem setHeap (h : Inv identityP3 identityP2 frames ⟨k, held⟩) (w : ℕ) :
    Inv identityP3 identityP2 frames ⟨k.setHeap w, held⟩ := h.of_eq rfl rfl rfl rfl rfl rfl

theorem setStack (h : Inv identityP3 identityP2 frames ⟨k, held⟩) (w : ℕ) :
    Inv identityP3 identityP2 frames ⟨k.setStack w, held⟩ := h.of_eq rfl rfl rfl rfl rfl rfl

theorem demandAllocate (h : Inv identityP3 identityP2 frames ⟨k, held⟩) (hv : Dynamic v) :
    Inv identityP3 identityP2 frames ⟨(PT.demandAllocate k v).2, held⟩ :=
  inv_step h (c := .demandAllocate v) (by rw [PtSystem.step, if_pos hv])

theorem pageFaultHandler (h : Inv identityP3 identityP2 frames ⟨k, held⟩) (hv : Dynamic v) :
    Inv identityP3 identityP2 frames ⟨Marimba.pageFaultHandler k v, held⟩ := by
  obtain ⟨free, h⟩ := h
  obtain ⟨free', h', -⟩ := h.pageFaultHandler hv
  exact ⟨free', h'⟩

theorem freePage (h : Inv identityP3 identityP2 frames ⟨k, held⟩) (hv : Dynamic v) :
    Inv identityP3 identityP2 frames ⟨MMU.freePage k v, held⟩ := by
  obtain ⟨free, h⟩ := h
  have hfree := h.ptFree_toList hv
  rw [MMU.freePage]
  dsimp only at hfree ⊢
  split
  · next hne =>
    rw [toPtr_of_ne hne] at hfree
    exact ⟨_, hfree.freeFrame⟩
  · next heq =>
    rw [not_not.1 heq, toPtr_eq_none_iff.2 rfl] at hfree
    exact ⟨_, hfree⟩

theorem freeRun (h : Inv identityP3 identityP2 frames ⟨k, held⟩) : ∀ n : ℕ,
    (∀ i < n, Dynamic (pageOffset v i)) →
      Inv identityP3 identityP2 frames ⟨MMU.freeRun v n k, held⟩
  | 0, _ => h
  | n + 1, hdyn => by
    rw [MMU.freeRun]
    exact (h.freeRun n fun i hi ↦ hdyn i (by omega)).freePage (hdyn n (by omega))

theorem freeStack (h : Inv identityP3 identityP2 frames ⟨k, held⟩) (hv : HeapOrStack v) :
    Inv identityP3 identityP2 frames ⟨MMU.freeStack k v, held⟩ := by
  rw [MMU.freeStack]
  exact h.freeRun _ fun i hi ↦ hv.dynamic_freeStack hi

theorem allocPage (h : Inv identityP3 identityP2 frames ⟨k, held⟩) (hb : InRegions k.bumps) :
    Inv identityP3 identityP2 frames ⟨(MMU.allocPage k).2, held⟩ ∧
      PageKept u k (MMU.allocPage k).2 := by
  by_cases hend : k.mmu.nextKernelHeapVaddr = mmapKernelHeapEnd
  · rw [MMU.allocPage_of_end hend]
    exact ⟨h.setIrq _, .setIrq u k _⟩
  · obtain ⟨q, hq⟩ := MMU.allocPage_of_ne_end hend
    have hlt : k.mmu.nextKernelHeapVaddr < mmapKernelHeapEnd := lt_of_le_of_ne hb.heap_end hend
    have hin : HeapOrStack k.mmu.nextKernelHeapVaddr := Or.inr ⟨hb.heap_start, hlt⟩
    have h₁ := (h.setIrq (IRQ.disable k.irq)).setHeap (wadd k.mmu.nextKernelHeapVaddr pageSize)
    rw [hq]
    refine ⟨(h₁.demandAllocate hin.dynamic).setIrq q, ?_⟩
    exact (((PageKept.setIrq u k _).trans (.setHeap u _ _)).trans
      (h₁.owns.pageKept_demandAllocate hin.dynamic)).trans (.setIrq u _ q)

/-- The loop of `MMU_alloc_pages`. -/
theorem allocMorePages (h : Inv identityP3 identityP2 frames ⟨k, held⟩) (hb : InRegions k.bumps) :
    ∀ n : ℕ, Inv identityP3 identityP2 frames ⟨(MMU.allocMorePages n k).2, held⟩ ∧
      PageKept u k (MMU.allocMorePages n k).2
  | 0 => ⟨h, .refl u k⟩
  | n + 1 => by
    obtain ⟨h', hkept⟩ := h.allocMorePages hb n
    have hb' := (h.owns.allocMorePages hb n).2
    rw [MMU.allocMorePages]
    dsimp only
    split
    · obtain ⟨h'', hkept'⟩ := h'.allocPage hb'
      exact ⟨h'', hkept.trans hkept'⟩
    · exact ⟨h', hkept⟩

theorem allocPages (h : Inv identityP3 identityP2 frames ⟨k, held⟩) (hb : InRegions k.bumps)
    (numPages : ℤ) : Inv identityP3 identityP2 frames ⟨(MMU.allocPages k numPages).2, held⟩ ∧
      PageKept u k (MMU.allocPages k numPages).2 := by
  rw [MMU.allocPages]
  split
  · exact ⟨h, .refl u k⟩
  · have h₀ := h.setIrq (IRQ.disable k.irq)
    obtain ⟨h₁, hkept₁⟩ := h₀.allocPage (u := u) hb
    have hb₁ := (h₀.owns.allocPage hb).2
    replace hkept₁ := (PageKept.setIrq u k _).trans hkept₁
    dsimp only
    split
    · exact ⟨h₁, hkept₁⟩
    · obtain ⟨h₂, hkept₂⟩ := h₁.allocMorePages (u := u) hb₁ (numPages - 1).toNat
      split
      · exact ⟨h₂.setIrq _, (hkept₁.trans hkept₂).trans (.setIrq u _ _)⟩
      · exact ⟨h₂, hkept₁.trans hkept₂⟩

/-- Reserving pages below a stack pointer that stays in its region. -/
theorem reserveStackPages (h : Inv identityP3 identityP2 frames ⟨k, held⟩)
    (hlt : k.mmu.nextKernelThreadStackVaddr < mmapKernelStacksEnd) : ∀ n : ℕ,
    mmapKernelStacksStart + pageSize * n ≤ k.mmu.nextKernelThreadStackVaddr →
    Inv identityP3 identityP2 frames ⟨MMU.reserveStackPages n k, held⟩ ∧
      PageKept u k (MMU.reserveStackPages n k)
  | 0, _ => ⟨h, .refl u k⟩
  | n + 1, hle => by
    rw [Nat.mul_succ] at hle
    have hword : k.mmu.nextKernelThreadStackVaddr < wordSize :=
      hlt.trans (by norm_num [wordSize])
    obtain ⟨-, hstack⟩ := Prod.mk.inj (MMU.reserveStackPages_bumps hword n (by omega))
    obtain ⟨h', hkept⟩ := h.reserveStackPages hlt n (by omega)
    have hdyn : Dynamic (MMU.reserveStackPages n k).mmu.nextKernelThreadStackVaddr :=
      HeapOrStack.dynamic (Or.inl (by rw [hstack]; omega))
    rw [MMU.reserveStackPages, MMU.reserveStackPage]
    exact ⟨(h'.demandAllocate hdyn).setStack _,
      (hkept.trans (h'.owns.pageKept_demandAllocate hdyn)).trans (.setStack u _ _)⟩

theorem allocStack (h : Inv identityP3 identityP2 frames ⟨k, held⟩) (hb : InRegions k.bumps)
    (hroom : mmapKernelStacksStart + stackSize ≤ k.mmu.nextKernelThreadStackVaddr) :
    Inv identityP3 identityP2 frames ⟨(MMU.allocStack k).2, held⟩ ∧
      PageKept u k (MMU.allocStack k).2 := by
  obtain ⟨q, heq, -⟩ := MMU.allocStack_of_inRegions hb
  obtain ⟨h', hkept⟩ :=
    (h.setIrq (IRQ.disable k.irq)).reserveStackPages (u := u) hb.stack_lt _ hroom
  rw [heq]
  exact ⟨h'.setIrq q, ((PageKept.setIrq u k _).trans hkept).trans (.setIrq u _ q)⟩

end PtSystem.Inv

/-! ### Loads and stores -/

/-- The word that the processor loads from a virtual address, through its own walk. -/
def load (k : Machine) (v : ℕ) : Option ℕ := (hwTranslate k v).map k.mem

/-- The page of `v` is mapped, and its word at `v` is `w`. -/
def HoldsAt (k : Machine) (v w : ℕ) : Prop :=
  ∃ f, tableWalk k (vpath v) = some f ∧ k.mem (f + 8 * (v % pageSize / 8)) = w

theorem HoldsAt.of_pageKept {w : ℕ} (h : HoldsAt k v w) (hkept : PageKept v k k') :
    HoldsAt k' v w := by
  obtain ⟨f, hf, rfl⟩ := h
  obtain ⟨hf', hmem⟩ := hkept f hf
  exact ⟨f, hf', hmem _ (wordIndex_lt v)⟩

/-- The processor finds the word. -/
theorem HoldsAt.load_eq {w : ℕ} {identityP3 identityP2 : ℕ} (h : HoldsAt k v w)
    (hinv : PtSystem.Inv identityP3 identityP2 frames ⟨k, held⟩) (hv : Dynamic v)
    (hword : v % 8 = 0) : load k v = some w := by
  obtain ⟨f, hf, rfl⟩ := h
  obtain ⟨free, hpaging⟩ := hinv
  obtain ⟨e, he, hp, rfl⟩ := leafEntry_of_mapped hf
  rw [load, hwTranslate, hwLeaf_of_dynamic hpaging.tableTree hpaging.plain hv, he]
  dsimp only
  rw [if_pos hp, (hpaging.plain.leafEntry he).addr, Option.map_some, Option.some_inj]
  congr 1
  simp only [pageSize]
  omega

/-- The first address of a page. -/
def pageStart (v : ℕ) : ℕ := v / pageSize * pageSize

/-- What is known about the word at `v`: what was last stored there, forgotten when the page is
freed. -/
def recordAt (v : ℕ) (o : Option ℕ) : MemCmd → Option ℕ
  | .writePage u w => if u / 8 = v / 8 then some w else o
  | .freePage u => if u = pageStart v then none else o
  | .freePages u numPages =>
    if ∃ i < numPages.toNat, pageOffset u i = pageStart v then none else o
  | .freeStack u =>
    if ∃ i < kernelThreadStackSizePages, pageOffset (wsub u (pageSize - 8)) i = pageStart v then
      none
    else o
  | _ => o

/-- The value that a list of commands last stored at `v`, if the page was not freed since. -/
def lastStored (v : ℕ) (cmds : List MemCmd) : Option ℕ := cmds.foldl (recordAt v) none

theorem HeapOrStack.lt (h : HeapOrStack v) : v < 2 ^ 48 := by
  simp only [HeapOrStack, mmapKernelStacksStart, mmapKernelStacksEnd, mmapKernelHeapStart,
    mmapKernelHeapEnd, p4PteAddresses] at h
  omega

/-- An address in the same word is in the same region. -/
theorem HeapOrStack.of_word (h : HeapOrStack u) (he : u / 8 = v / 8) : HeapOrStack v := by
  simp only [HeapOrStack, mmapKernelStacksStart, mmapKernelStacksEnd, mmapKernelHeapStart,
    mmapKernelHeapEnd, p4PteAddresses] at h ⊢
  omega

/-- The start of another page is on another path. -/
theorem vpath_ne_of_ne_pageStart (hv : v < 2 ^ 48) (hu : u < 2 ^ 48) (hne : u ≠ pageStart v)
    (hal : u % pageSize = 0) : vpath v ≠ vpath u := by
  rw [Ne, vpath_inj hv hu]
  intro he
  simp only [pageStart, pageSize] at *
  omega

/-- The pages that `MMU_free_stack` frees are below `2 ^ 48`. -/
theorem HeapOrStack.freeStack_lt (h : HeapOrStack u) {i : ℕ} (hi : i < kernelThreadStackSizePages) :
    pageOffset (wsub u (pageSize - 8)) i < 2 ^ 48 := by
  rw [pageOffset_freeStack h hi]
  simp only [HeapOrStack, mmapKernelStacksStart, mmapKernelStacksEnd, mmapKernelHeapStart,
    mmapKernelHeapEnd, p4PteAddresses, kernelThreadStackSizePages, pageSize] at h hi ⊢
  omega

/-- A store into a frame that is no table changes no table. -/
theorem FrameRoles.sameTables_store {i w : ℕ} (h : FrameRoles k inSegments queued held frames)
    (hframe : IsFrame f)
    (hnot : ∀ p : List ℕ, p.length < physicalPageDepth → tableWalk k p ≠ some f)
    (hi : i < pageTableNumEnts) : SameTables k (k.store (f + 8 * i) w) :=
  h.owned.sameTables_of_frame hframe hnot rfl fun _ ha ↦ Function.update_of_ne (ha i hi) _ _

/-- **A store into a page**: the word holds what was stored, and every other word of every page what
it held. -/
theorem FrameRoles.holdsAt_store {x : ℕ} (h : FrameRoles k inSegments queued held frames)
    (hf : tableWalk k (vpath u) = some f) (hu : u < 2 ^ 48) (hv : v < 2 ^ 48) :
    (u / 8 = v / 8 → HoldsAt (k.store (f + 8 * (u % pageSize / 8)) x) v x) ∧
      (u / 8 ≠ v / 8 → ∀ w, HoldsAt k v w →
        HoldsAt (k.store (f + 8 * (u % pageSize / 8)) x) v w) := by
  have hframe := h.isFrame_of_tableWalk (by simp) hf
  have hsame := h.sameTables_store (w := x) hframe
    (fun p hp hw ↦ ne_vpath_of_length hp (h.owned.tree p (vpath u) hp.le (by simp) f hw hf))
    (wordIndex_lt u)
  refine ⟨fun he ↦ ?_, fun hne w ⟨g, hg, hold⟩ ↦ ?_⟩
  · have hpath : vpath v = vpath u := (vpath_inj hv hu).2 (by simp only [pageSize]; omega)
    have hword : v % pageSize / 8 = u % pageSize / 8 := by
      simp only [pageSize]
      omega
    refine ⟨f, (hsame.tableWalk _ (by simp)).trans (hpath ▸ hf), ?_⟩
    rw [hword]
    exact Function.update_self ..
  · refine ⟨g, (hsame.tableWalk _ (by simp)).trans hg, ?_⟩
    refine (Function.update_of_ne (fun he ↦ ?_) _ _).trans hold
    -- the same word of the same frame: a frame is reached by one path only
    obtain ⟨rfl, hword⟩ := entry_inj (h.isFrame_of_tableWalk (by simp) hg) hframe (wordIndex_lt v)
      (wordIndex_lt u) he
    have hpage := (vpath_inj hv hu).1 (h.owned.tree _ _ (by simp) (by simp) g hg hf)
    simp only [pageSize] at hpage hword
    omega

/-! ### Whole runs -/

namespace MemSystem

variable {identityP3 identityP2 r : ℕ} {s s' : MemSystem}

/-- The invariant of a run with a record of what was stored at `v`. -/
structure Tracks (identityP3 identityP2 : ℕ) (frames : List ℕ) (v : ℕ) (s : MemSystem)
    (o : Option ℕ) : Prop where
  paging : PtSystem.Inv identityP3 identityP2 frames ⟨s.machine, s.held⟩
  regions : InRegions s.machine.bumps
  holds : ∀ w, o = some w → HeapOrStack v ∧ HoldsAt s.machine v w

namespace Tracks

variable {o : Option ℕ}

/-- A step that keeps the page, or that is recorded as freeing it. -/
theorem of_kept {held' live : List ℕ} (forget : Prop) [Decidable forget]
    (h : Tracks identityP3 identityP2 frames v s o)
    (hpaging : PtSystem.Inv identityP3 identityP2 frames ⟨k, held'⟩) (hregions : InRegions k.bumps)
    (hkept : ¬forget → HeapOrStack v → PageKept v s.machine k) :
    Tracks identityP3 identityP2 frames v ⟨k, held', live⟩ (if forget then none else o) := by
  refine ⟨hpaging, hregions, fun w hw ↦ ?_⟩
  rw [Option.ite_none_left_eq_some] at hw
  obtain ⟨hv, hold⟩ := h.holds w hw.2
  exact ⟨hv, hold.of_pageKept (hkept hw.1 hv)⟩

/-- A step that keeps the page and is not recorded. -/
theorem of_kept_all {held' live : List ℕ} (h : Tracks identityP3 identityP2 frames v s o)
    (hpaging : PtSystem.Inv identityP3 identityP2 frames ⟨k, held'⟩) (hregions : InRegions k.bumps)
    (hkept : PageKept v s.machine k) : Tracks identityP3 identityP2 frames v ⟨k, held', live⟩ o :=
  h.of_kept False hpaging hregions fun _ _ ↦ hkept

/-- **Every command keeps the record true.** -/
theorem step (h : Tracks identityP3 identityP2 frames v s o) {c : MemCmd}
    (hstep : s.step c = some (r, s')) :
    Tracks identityP3 identityP2 frames v s' (recordAt v o c) := by
  have hregions : InRegions s'.machine.bumps :=
    (MemSystem.inv_step (s := s) ⟨h.paging.owns, h.regions⟩ hstep).regions
  have howns := h.paging.owns
  cases c with
  | allocPage =>
    obtain ⟨-, rfl⟩ := Prod.mk.inj (Option.some.inj hstep)
    obtain ⟨hp, hkept⟩ := h.paging.allocPage (u := v) h.regions
    exact h.of_kept_all hp hregions hkept
  | allocPages numPages =>
    obtain ⟨-, rfl⟩ := Prod.mk.inj (Option.some.inj hstep)
    obtain ⟨hp, hkept⟩ := h.paging.allocPages (u := v) h.regions numPages
    exact h.of_kept_all hp hregions hkept
  | allocStack =>
    obtain ⟨hroom, -, rfl⟩ := guarded_eq_some.1 hstep
    obtain ⟨hp, hkept⟩ := h.paging.allocStack (u := v) h.regions hroom
    exact h.of_kept_all hp hregions hkept
  | freePage u =>
    obtain ⟨hu, -, rfl⟩ := guarded_eq_some.1 hstep
    exact h.of_kept _ (h.paging.freePage hu.dynamic) hregions fun hne hv ↦
      howns.pageKept_freePage hu.dynamic (vpath_ne_of_ne_pageStart hv.lt hu.lt hne)
  | freePages u numPages =>
    obtain ⟨hu, -, rfl⟩ := guarded_eq_some.1 hstep
    refine h.of_kept _ (h.paging.freeRun _ fun i hi ↦ (hu i hi).dynamic) hregions fun hne hv ↦ ?_
    exact howns.pageKept_freeRun _ (fun i hi ↦ (hu i hi).dynamic) fun i hi ↦
      vpath_ne_of_ne_pageStart hv.lt (hu i hi).lt fun he ↦ hne ⟨i, hi, he⟩
  | freeStack u =>
    obtain ⟨hu, -, rfl⟩ := guarded_eq_some.1 hstep
    rw [recordAt]
    have hb : InRegions (MMU.freeStack s.machine u).bumps := by
      rw [MMU.freeStack_bumps]
      exact h.regions
    refine h.of_kept _ (h.paging.freeStack hu) hb fun hne hv ↦ ?_
    exact howns.pageKept_freeStack hu fun i hi ↦
      vpath_ne_of_ne_pageStart hv.lt (hu.freeStack_lt hi) fun he ↦ hne ⟨i, hi, he⟩
  | pageFault u =>
    obtain ⟨hu, -, rfl⟩ := guarded_eq_some.1 hstep
    exact h.of_kept_all (h.paging.pageFaultHandler hu.dynamic) hregions
      (howns.pageKept_pageFaultHandler hu.dynamic)
  | allocFrame =>
    obtain ⟨-, rfl⟩ := Prod.mk.inj (Option.some.inj hstep)
    exact h.of_kept_all (PtSystem.inv_step h.paging (c := .allocFrame) rfl) hregions
      (.allocFrame v _)
  | freeFrame f =>
    obtain ⟨hf, -, rfl⟩ := guarded_eq_some.1 hstep
    obtain ⟨inSegments, queued, hroles⟩ := howns.perm (List.perm_cons_erase hf)
    exact h.of_kept_all (PtSystem.inv_step h.paging (c := .freeFrame f)
      (by rw [PtSystem.step, if_pos hf])) hregions hroles.pageKept_freeFrame
  | writeFrame f i w =>
    obtain ⟨hf, -, rfl⟩ := guarded_eq_some.1 hstep
    obtain ⟨inSegments, queued, hroles⟩ := howns
    refine h.of_kept_all (PtSystem.inv_step h.paging (c := .writeFrame f i w)
      (by rw [PtSystem.step, if_pos hf])) hregions fun g hg ↦ ⟨?_, fun j hj ↦ ?_⟩
    · have hsame := hroles.sameTables_store (w := w)
        (hroles.isFrame_of_mem (List.mem_append_right _ hf))
        (fun p hp hw ↦ (hroles.owned.mapped p hp.le f hw).2 (List.mem_append_right _ hf)) i.isLt
      exact (hsame.tableWalk _ (by simp)).trans hg
    · exact Function.update_of_ne
        (hroles.word_ne_word hg (List.mem_append_right _ hf) i.isLt hj) _ _
  | writePage u w =>
    obtain ⟨hu, f, hf, -, rfl⟩ := guarded_map_eq_some.1 hstep
    obtain ⟨inSegments, queued, hroles⟩ := howns
    have hp := PtSystem.inv_step h.paging (c := .writePage u w)
      (by rw [PtSystem.step, if_pos hu.dynamic, hf, Option.map_some])
    refine ⟨hp, hregions, fun x hx ↦ ?_⟩
    rw [recordAt] at hx
    split at hx
    · next hword =>
      obtain rfl := Option.some.inj hx
      have hv := hu.of_word hword
      exact ⟨hv, (hroles.holdsAt_store hf hu.lt hv.lt).1 hword⟩
    · next hword =>
      obtain ⟨hv, hold⟩ := h.holds x hx
      exact ⟨hv, (hroles.holdsAt_store hf hu.lt hv.lt).2 hword x hold⟩

end Tracks

/-- **Virtual memory is memory.** After `MMU_init`, whatever sequence of allocations, frees, page
faults and writes of clients follows: an aligned word of the heap or of the stacks that was stored
to, and whose page was not freed since, is mapped, and the processor loads what was last stored. -/
theorem load_of_lastStored {k₁ : Machine} {idxs : List ℕ} (hseg : SegmentsWellFormed k.mmu idxs)
    (hq : k.mmu.freePageHead = 0) (hend : ∀ f ∈ k.mmu.segmentPages idxs, f < mmapPhysicalPagesEnd)
    (h₃ : StaticTable (k.mmu.segmentPages idxs) identityP3)
    (h₂ : StaticTable (k.mmu.segmentPages idxs) identityP2) (hne : identityP3 ≠ identityP2)
    (hinit : MMU.initPaging identityP3 identityP2 k = (0, k₁)) {cmds : List MemCmd} {out : List ℕ}
    (hrun : runTrace MemSystem.step ⟨k₁, [], []⟩ cmds = some (out, s)) {w : ℕ} (hword : v % 8 = 0)
    (hlast : lastStored v cmds = some w) : load s.machine v = some w := by
  have h₀ : Tracks identityP3 identityP2 (k.mmu.segmentPages idxs) v ⟨k₁, [], []⟩ none :=
    ⟨paging_initPaging hseg hq hend h₃ h₂ hne hinit, (inv_initPaging hseg hq hend hinit).regions,
      fun _ h ↦ by cases h⟩
  have h := tracked_of_runTrace (I := Tracks identityP3 identityP2 (k.mmu.segmentPages idxs) v)
    (fun s o c _ _ h (hstep : s.step c = _) ↦ h.step hstep) h₀ hrun
  obtain ⟨hv, hold⟩ := h.holds w hlast
  exact hold.load_eq h.paging hv.dynamic hword

/-- A page is mapped and written; a second page, a frame and a free of the second page follow. -/
theorem load_of_lastStored_twoPages :
    ∃ out s, runTrace MemSystem.step
        ⟨(MMU.initPaging 0x100000 0x101000 (poolOfPages 16)).2, [], []⟩
        [.allocPages 2, .pageFault mmapKernelHeapStart, .writePage (mmapKernelHeapStart + 8) 7,
          .pageFault (mmapKernelHeapStart + 0x1000), .writePage (mmapKernelHeapStart + 0x1008) 9,
          .allocFrame, .freePage (mmapKernelHeapStart + 0x1000)] = some (out, s) ∧
      load s.machine (mmapKernelHeapStart + 8) = some 7 := by
  have hsome : (runTrace MemSystem.step
      ⟨(MMU.initPaging 0x100000 0x101000 (poolOfPages 16)).2, [], []⟩
      [.allocPages 2, .pageFault mmapKernelHeapStart, .writePage (mmapKernelHeapStart + 8) 7,
        .pageFault (mmapKernelHeapStart + 0x1000), .writePage (mmapKernelHeapStart + 0x1008) 9,
        .allocFrame, .freePage (mmapKernelHeapStart + 0x1000)]).isSome := by decide +kernel
  obtain ⟨⟨out, s⟩, hrun⟩ := Option.isSome_iff_exists.1 hsome
  have hinit : MMU.initPaging 0x100000 0x101000 (poolOfPages 16) =
      (0, (MMU.initPaging 0x100000 0x101000 (poolOfPages 16)).2) := rfl
  refine ⟨out, s, hrun, ?_⟩
  exact load_of_lastStored (segmentsWellFormed_poolOfPages (by decide) (by decide)) rfl
    (by decide) ⟨by decide, by decide, by decide⟩ ⟨by decide, by decide, by decide⟩ (by decide)
    hinit hrun (by decide) (by decide)

end MemSystem

end Marimba
