import Marimba.Memory.BootSegments
import Marimba.Memory.VirtualRegions

/-!
# What a request leaves behind

`MMU_alloc_page`, `MMU_alloc_pages` and `MMU_alloc_stack` should leave the interrupt state as they
found it, and when they fail the bump pointers as well (`LeavesNoTrace`). They take pages with
interrupts disabled, and the returns of an exhausted region are before the `IRQ_enable`: so a
request leaves no trace exactly when it does not fail, and when the interrupt nesting can be undone
(`leavesNoTrace_iff`). The pages that a failing `MMU_alloc_pages` has taken stay taken.

The equivalences are about every state, reachable or not, and so about two things that can go wrong
without any exhausted region:

* **The nesting** (`IRQ.Room`). The counter has 32 bits, and when nothing is disabled `IRQ_enable`
  sets the interrupt flag, whatever it was before. Each function is a pair of `IRQ_disable` and
  `IRQ_enable` around its work, and `enable_disable_iff` says when the pair is neutral;
  `MMU_alloc_pages` nests twice.
* **The pointers** (`HeapLasts`). The heap pointer goes on modulo `2 ^ 64`. A request fails on the
  end of the heap, and on a page at address 0, which the caller takes for the null pointer.

What page tables do does not matter: `PT_demand_allocate` changes neither the interrupt state nor
the pointers, and its result is ignored.
-/

namespace Marimba

variable {k : Machine} {q : IrqState} {n : ℕ}

/-! ### Interrupt nesting -/

namespace IRQ

/-- The counter has room for `d` more levels, and interrupts are enabled when nothing is
disabled. -/
structure Room (q : IrqState) (d : ℕ) : Prop where
  lt : q.irqSemaphore + d < 2 ^ 32
  enabled : q.irqSemaphore = 0 → q.interruptFlag = true

theorem disable_irqSemaphore (q : IrqState) :
    (disable q).irqSemaphore = (q.irqSemaphore + 1) % 2 ^ 32 := rfl

theorem enable_irqSemaphore (q : IrqState) : (enable q).irqSemaphore = q.irqSemaphore - 1 := by
  rw [enable]
  split
  · omega
  · rfl

/-- **One level is undone** when there is room for it. -/
theorem enable_disable_iff (q : IrqState) : enable (disable q) = q ↔ Room q 1 := by
  obtain ⟨s, flag⟩ := q
  constructor
  · intro h
    have hsem : (s + 1) % 2 ^ 32 - 1 = s := by
      have := congrArg IrqState.irqSemaphore h
      rwa [enable_irqSemaphore, disable_irqSemaphore] at this
    refine ⟨by show s + 1 < 2 ^ 32; omega, fun hzero ↦ ?_⟩
    obtain rfl : s = 0 := hzero
    exact (congrArg IrqState.interruptFlag h).symm
  · rintro ⟨hlt, hflag⟩
    have hlt : s + 1 < 2 ^ 32 := hlt
    have hmod : (s + 1) % 2 ^ 32 = s + 1 := Nat.mod_eq_of_lt hlt
    simp only [enable, disable, hmod, Nat.add_eq_zero_iff, one_ne_zero, and_false, if_false,
      Nat.add_sub_cancel, IrqState.mk.injEq, true_and]
    by_cases hs : s = 0
    · rw [if_pos hs]
      exact (hflag hs).symm
    · rw [if_neg hs, if_neg hs]

theorem Room.disable (h : Room q 2) : Room (disable q) 1 := by
  have hlt := h.lt
  have hsem := disable_irqSemaphore q
  exact ⟨by omega, fun hzero ↦ by omega⟩

theorem Room.mono {d d' : ℕ} (h : Room q d) (hle : d' ≤ d) : Room q d' :=
  ⟨by have := h.lt; omega, h.enabled⟩

end IRQ

/-! ### Pages from the heap pointer on -/

/-- The address `j` pages behind `v`. Pointers wrap around. -/
def pageAfter (v j : ℕ) : ℕ := (fun p ↦ wadd p pageSize)^[j] v

theorem pageAfter_zero (v : ℕ) : pageAfter v 0 = v := rfl

theorem pageAfter_succ (v j : ℕ) : pageAfter v (j + 1) = wadd (pageAfter v j) pageSize :=
  Function.iterate_succ_apply' ..

/-- The heap lasts for `n` more pages: none of their addresses is null or the end of the heap. -/
structure HeapLasts (k : Machine) (n : ℕ) : Prop where
  ne_null : ∀ j < n, pageAfter k.bumps.1 j ≠ 0
  ne_end : ∀ j < n, pageAfter k.bumps.1 j ≠ mmapKernelHeapEnd

namespace HeapLasts

theorem mono {m : ℕ} (h : HeapLasts k n) (hle : m ≤ n) : HeapLasts k m :=
  ⟨fun j hj ↦ h.ne_null j (hj.trans_le hle), fun j hj ↦ h.ne_end j (hj.trans_le hle)⟩

/-- One more page. -/
theorem succ (h : HeapLasts k n) (hend : pageAfter k.bumps.1 n ≠ mmapKernelHeapEnd)
    (hnull : pageAfter k.bumps.1 n ≠ 0) : HeapLasts k (n + 1) := by
  refine ⟨fun j hj ↦ ?_, fun j hj ↦ ?_⟩ <;>
    rcases Nat.lt_succ_iff_lt_or_eq.1 hj with hj | rfl
  · exact h.ne_null j hj
  · exact hnull
  · exact h.ne_end j hj
  · exact hend

/-- The first page and those behind it. -/
theorem succ_iff {k' : Machine} (hnull : k.bumps.1 ≠ 0) (hend : k.bumps.1 ≠ mmapKernelHeapEnd)
    (hnext : k'.bumps.1 = wadd k.bumps.1 pageSize) : HeapLasts k' n ↔ HeapLasts k (n + 1) := by
  have hshift (j : ℕ) : pageAfter k'.bumps.1 j = pageAfter k.bumps.1 (j + 1) := by
    rw [hnext, pageAfter, pageAfter, Function.iterate_succ_apply]
  constructor
  · intro h
    refine ⟨fun j hj ↦ ?_, fun j hj ↦ ?_⟩ <;> rcases j with _ | j
    · rwa [pageAfter_zero]
    · rw [← hshift]
      exact h.ne_null j (by omega)
    · rwa [pageAfter_zero]
    · rw [← hshift]
      exact h.ne_end j (by omega)
  · intro h
    refine ⟨fun j hj ↦ ?_, fun j hj ↦ ?_⟩ <;> rw [hshift]
    · exact h.ne_null (j + 1) (by omega)
    · exact h.ne_end (j + 1) (by omega)

end HeapLasts

/-! ### The interrupt state of a request -/

theorem PT.demandAllocateFrom_irq (v : ℕ) : ∀ (n depth ent : ℕ) (k : Machine),
    (PT.demandAllocateFrom v n depth ent k).2.irq = k.irq
  | 0, _, _, _ => rfl
  | n + 1, depth, ent, k => by
    rw [PT.demandAllocateFrom]
    dsimp only
    split
    · exact MMU.allocFrame_irq k
    · rw [PT.demandAllocateFrom_irq v n]
      exact MMU.allocFrame_irq k

@[simp] theorem PT.demandAllocate_irq (k : Machine) (v : ℕ) :
    (PT.demandAllocate k v).2.irq = k.irq := by
  rw [PT.demandAllocate]
  dsimp only
  split
  · rfl
  · exact PT.demandAllocateFrom_irq v _ _ _ k

namespace MMU

theorem allocPage_irq (k : Machine) : (allocPage k).2.irq =
    if k.bumps.1 = mmapKernelHeapEnd then IRQ.disable k.irq
    else IRQ.enable (IRQ.disable k.irq) := by
  rw [allocPage]
  show (if k.bumps.1 = mmapKernelHeapEnd then _ else _ : ℕ × Machine).2.irq = _
  split
  · rfl
  · show IRQ.enable (PT.demandAllocate _ _).2.irq = _
    rw [PT.demandAllocate_irq]
    rfl

theorem reserveStackPage_irq (k : Machine) : (reserveStackPage k).irq = k.irq := by
  rw [reserveStackPage, Machine.setStack_irq, PT.demandAllocate_irq]

theorem reserveStackPages_irq (k : Machine) : ∀ n : ℕ, (reserveStackPages n k).irq = k.irq
  | 0 => rfl
  | n + 1 => by
    rw [reserveStackPages, reserveStackPage_irq, reserveStackPages_irq k n]

/-- From a null stack pointer the pages are taken from the end of the address space. -/
theorem reserveStackPages_bumps_of_null (hnull : k.bumps.2 = 0) (n : ℕ)
    (hn : n ≤ kernelThreadStackSizePages) :
    (reserveStackPages n k).bumps.2 = (wordSize - pageSize * n) % wordSize := by
  induction n with
  | zero => exact hnull.trans (by decide)
  | succ n ih =>
    have ih : (reserveStackPages n k).mmu.nextKernelThreadStackVaddr = _ := ih (by omega)
    rw [reserveStackPages, reserveStackPage_bumps, ih]
    simp only [wsub, wordSize, pageSize, kernelThreadStackSizePages] at *
    omega

theorem allocStack_irq (k : Machine) : (allocStack k).2.irq =
    if k.bumps.2 = mmapKernelHeapStart then IRQ.disable k.irq
    else IRQ.enable (IRQ.disable k.irq) := by
  rw [allocStack]
  show (if k.bumps.2 = mmapKernelHeapStart then _ else _ : ℕ × Machine).2.irq = _
  split
  · rfl
  · show IRQ.enable
      (reserveStackPages kernelThreadStackSizePages (k.setIrq (IRQ.disable k.irq))).irq = _
    rw [reserveStackPages_irq]
    rfl

theorem allocStack_fst (k : Machine) : (allocStack k).1 =
    if k.bumps.2 = mmapKernelHeapStart then 0 else k.bumps.2 := by
  rw [allocStack]
  show (if k.bumps.2 = mmapKernelHeapStart then _ else _ : ℕ × Machine).1 = _
  split <;> rfl

/-- **The loop of `MMU_alloc_pages`**: how far it gets, and what it has taken. -/
theorem allocMorePages_spec (k : Machine) (n : ℕ) :
    ((allocMorePages n k).1 = true ↔ HeapLasts k n) ∧
      ((allocMorePages n k).1 = true →
        (allocMorePages n k).2.bumps.1 = pageAfter k.bumps.1 n) := by
  induction n with
  | zero => exact ⟨iff_of_true rfl ⟨by simp, by simp⟩, fun _ ↦ rfl⟩
  | succ n ih =>
    obtain ⟨hok, hbump⟩ := ih
    rw [allocMorePages]
    dsimp only
    split
    · rename_i htrue
      have hsofar := hok.1 htrue
      have hheap := hbump htrue
      by_cases hend : pageAfter k.bumps.1 n = mmapKernelHeapEnd
      · obtain ⟨hret, -⟩ := allocPage_bump_end (hheap.trans hend)
        rw [hret]
        refine ⟨iff_of_false (by simp) fun h ↦ h.ne_end n (Nat.lt_succ_self n) hend, fun h ↦ ?_⟩
        simp at h
      · obtain ⟨hret, hnext⟩ := allocPage_bump (hheap ▸ hend)
        rw [hret, hnext, hheap, ← pageAfter_succ, bne_iff_ne]
        exact ⟨⟨hsofar.succ hend, fun h ↦ h.ne_null n (Nat.lt_succ_self n)⟩, fun _ ↦ rfl⟩
    · rename_i hfalse
      refine ⟨iff_of_false (by simp) fun h ↦ hfalse (hok.2 (h.mono n.le_succ)), fun h ↦ ?_⟩
      simp at h

/-- A page that fails at the end of the heap leaves one more level disabled. -/
theorem allocMorePages_irqSemaphore (hlt : k.irq.irqSemaphore + 1 < 2 ^ 32) (n : ℕ) :
    (allocMorePages n k).2.irq.irqSemaphore = k.irq.irqSemaphore ∨
      (allocMorePages n k).1 = false ∧
        (allocMorePages n k).2.irq.irqSemaphore = k.irq.irqSemaphore + 1 := by
  induction n with
  | zero => exact Or.inl rfl
  | succ n ih =>
    rw [allocMorePages]
    dsimp only
    split
    · rename_i htrue
      replace ih := ih.resolve_right fun h ↦ absurd (htrue.symm.trans h.1) (by simp)
      have hirq := allocPage_irq (allocMorePages n k).2
      by_cases hend : (allocMorePages n k).2.bumps.1 = mmapKernelHeapEnd
      · rw [if_pos hend] at hirq
        rw [(allocPage_bump_end hend).1, hirq, IRQ.disable_irqSemaphore, ih]
        exact Or.inr ⟨rfl, Nat.mod_eq_of_lt hlt⟩
      · rw [if_neg hend] at hirq
        rw [hirq, IRQ.enable_irqSemaphore, IRQ.disable_irqSemaphore, ih, Nat.mod_eq_of_lt hlt,
          Nat.add_sub_cancel]
        exact Or.inl rfl
    · rename_i hfalse
      exact ih.imp_right fun h ↦ ⟨rfl, h.2⟩

/-- Pages that do not fail leave the interrupt state alone. -/
theorem allocMorePages_irq (hroom : IRQ.Room k.irq 1) (n : ℕ)
    (hok : (allocMorePages n k).1 = true) : (allocMorePages n k).2.irq = k.irq := by
  induction n with
  | zero => rfl
  | succ n ih =>
    have hlasts := (allocMorePages_spec k (n + 1)).1.1 hok
    have hsofar := (allocMorePages_spec k n).1.2 (hlasts.mono n.le_succ)
    have hheap := (allocMorePages_spec k n).2 hsofar
    have hirq := allocPage_irq (allocMorePages n k).2
    rw [hheap, if_neg (hlasts.ne_end n (Nat.lt_succ_self n)), ih hsofar,
      (IRQ.enable_disable_iff k.irq).2 hroom] at hirq
    rw [allocMorePages]
    dsimp only
    rw [if_pos hsofar]
    exact hirq

end MMU

/-! ### Requests that leave no trace -/

/-- **A request leaves no trace**: the interrupt state is as before, and when it has failed the bump
pointers are. -/
def LeavesNoTrace (k : Machine) (r : ℕ × Machine) : Prop :=
  r.2.irq = k.irq ∧ (r.1 = 0 → r.2.bumps = k.bumps)

namespace MMU

theorem allocPage_leavesNoTrace_iff (k : Machine) :
    LeavesNoTrace k (allocPage k) ↔ HeapLasts k 1 ∧ IRQ.Room k.irq 1 := by
  have hirq := allocPage_irq k
  by_cases hend : k.bumps.1 = mmapKernelHeapEnd
  · refine iff_of_false (fun h ↦ ?_) fun h ↦ h.1.ne_end 0 Nat.one_pos hend
    -- the early return leaves interrupts disabled
    have hsem := congrArg IrqState.irqSemaphore (hirq.symm.trans h.1)
    rw [if_pos hend, IRQ.disable_irqSemaphore] at hsem
    omega
  · obtain ⟨hret, hnext⟩ := allocPage_bump hend
    rw [if_neg hend] at hirq
    rw [LeavesNoTrace, hirq, IRQ.enable_disable_iff, hret, and_comm]
    refine and_congr_left fun _ ↦ ⟨fun h ↦ ⟨fun j hj hnull ↦ ?_, fun j hj ↦ ?_⟩, fun h hnull ↦ ?_⟩
    · obtain rfl : j = 0 := by omega
      have hheap := congrArg Prod.fst (h hnull)
      rw [hnext, show k.bumps.1 = 0 from hnull] at hheap
      exact absurd hheap (by decide)
    · obtain rfl : j = 0 := by omega
      exact hend
    · exact absurd hnull (h.ne_null 0 Nat.one_pos)

theorem allocStack_leavesNoTrace_iff (k : Machine) :
    LeavesNoTrace k (allocStack k) ↔
      (k.bumps.2 ≠ 0 ∧ k.bumps.2 ≠ mmapKernelHeapStart) ∧ IRQ.Room k.irq 1 := by
  have hirq := allocStack_irq k
  have hret := allocStack_fst k
  by_cases hend : k.bumps.2 = mmapKernelHeapStart
  · refine iff_of_false (fun h ↦ ?_) fun h ↦ h.1.2 hend
    have hsem := congrArg IrqState.irqSemaphore (hirq.symm.trans h.1)
    rw [if_pos hend, IRQ.disable_irqSemaphore] at hsem
    omega
  · rw [if_neg hend] at hirq hret
    rw [LeavesNoTrace, hirq, IRQ.enable_disable_iff, hret, and_comm]
    refine and_congr_left fun _ ↦ ⟨fun h ↦ ⟨fun hnull ↦ ?_, hend⟩, fun h hnull ↦ ?_⟩
    · have hstack := congrArg Prod.snd (h hnull)
      have hpages := reserveStackPages_bumps_of_null (k := k.setIrq (IRQ.disable k.irq)) hnull
        kernelThreadStackSizePages le_rfl
      have hsnd : (allocStack k).2.bumps.2 = (reserveStackPages kernelThreadStackSizePages
          (k.setIrq (IRQ.disable k.irq))).bumps.2 := by
        rw [allocStack]
        show (if k.bumps.2 = mmapKernelHeapStart then _ else _ : ℕ × Machine).2.bumps.2 = _
        rw [if_neg hend, Machine.setIrq_bumps]
      rw [hsnd, hpages, hnull] at hstack
      exact absurd hstack (by decide)
    · exact absurd hnull h.1

/-- How the counter stands after a failing `MMU_alloc_pages`, and after one that does not fail. -/
theorem irqSemaphore_nested (q : IrqState) :
    (IRQ.disable (IRQ.disable q)).irqSemaphore ≠ q.irqSemaphore ∧
      (IRQ.enable (IRQ.disable (IRQ.disable q))).irqSemaphore ≠ q.irqSemaphore ∧
      (IRQ.enable (IRQ.disable (IRQ.disable q))).irqSemaphore + 1 < 2 ^ 32 ∧
      (IRQ.enable (IRQ.disable (IRQ.disable q))).irqSemaphore + 1 ≠ q.irqSemaphore ∧
      ((IRQ.enable (IRQ.disable (IRQ.disable q))).irqSemaphore - 1 = q.irqSemaphore →
        q.irqSemaphore + 2 < 2 ^ 32) := by
  simp only [IRQ.enable_irqSemaphore, IRQ.disable_irqSemaphore]
  omega

theorem allocPages_leavesNoTrace_iff (k : Machine) (n : ℤ) :
    LeavesNoTrace k (allocPages k n) ↔ n ≤ 0 ∨ HeapLasts k n.toNat ∧ IRQ.Room k.irq 2 := by
  rw [allocPages]
  split
  · rename_i hn
    exact iff_of_true ⟨rfl, fun _ ↦ rfl⟩ (Or.inl hn)
  rename_i hn
  obtain ⟨m, rfl⟩ : ∃ m : ℕ, n = (m + 1 : ℕ) := ⟨(n - 1).toNat, by omega⟩
  have hm : (((m + 1 : ℕ) : ℤ) - 1).toNat = m := by omega
  obtain ⟨h₁, h₂, h₃, h₄, h₅⟩ := irqSemaphore_nested k.irq
  rw [or_iff_right hn, hm, Int.toNat_natCast]
  set k₁ := k.setIrq (IRQ.disable k.irq) with hk₁
  have hirq := allocPage_irq k₁
  have hq : k₁.irq = IRQ.disable k.irq := rfl
  dsimp only
  by_cases hend : k₁.bumps.1 = mmapKernelHeapEnd
  · -- the first page fails
    rw [if_pos hend, hq] at hirq
    rw [(allocPage_bump_end hend).1, if_pos rfl]
    refine iff_of_false (fun h ↦ h₁ ?_) fun h ↦ h.1.ne_end 0 (Nat.succ_pos m) hend
    rw [← hirq]
    exact congrArg IrqState.irqSemaphore h.1
  obtain ⟨hret, hnext⟩ := allocPage_bump hend
  rw [if_neg hend, hq] at hirq
  rw [hret]
  by_cases hnull : k₁.bumps.1 = 0
  · rw [if_pos hnull]
    refine iff_of_false (fun h ↦ h₂ ?_) fun h ↦ h.1.ne_null 0 (Nat.succ_pos m) hnull
    rw [← hirq]
    exact congrArg IrqState.irqSemaphore h.1
  rw [if_neg hnull]
  have hlasts : (allocMorePages m (allocPage k₁).2).1 = true ↔ HeapLasts k (m + 1) :=
    (allocMorePages_spec _ m).1.trans (HeapLasts.succ_iff (k := k) hnull hend hnext)
  have hsem := allocMorePages_irqSemaphore (by rw [hirq]; exact h₃) m
  rw [hirq] at hsem
  by_cases hok : (allocMorePages m (allocPage k₁).2).1 = true
  · replace hsem := hsem.resolve_right fun h ↦ absurd (hok.symm.trans h.1) (by simp)
    rw [if_pos hok, and_iff_right (hlasts.1 hok)]
    constructor
    · intro h
      have hback := congrArg IrqState.irqSemaphore h.1
      have hroom := h₅ (by rw [← hsem, ← IRQ.enable_irqSemaphore]; exact hback)
      refine ⟨hroom, fun hzero ↦ ?_⟩
      have hone : (allocMorePages m (allocPage k₁).2).2.irq.irqSemaphore = 1 := by
        rw [hsem, IRQ.enable_irqSemaphore, IRQ.disable_irqSemaphore, IRQ.disable_irqSemaphore,
          hzero]
        norm_num
      rw [← congrArg IrqState.interruptFlag h.1]
      show (IRQ.enable _).interruptFlag = true
      rw [IRQ.enable, hone]
      rfl
    · intro hroom
      have hdis := (IRQ.enable_disable_iff _).2 hroom.disable
      rw [hdis] at hirq
      have hmore := allocMorePages_irq (hirq ▸ hroom.disable) m hok
      refine ⟨?_, fun h ↦ absurd h hnull⟩
      show IRQ.enable (allocMorePages m (allocPage k₁).2).2.irq = k.irq
      rw [hmore, hirq]
      exact (IRQ.enable_disable_iff _).2 (hroom.mono (by decide))
  · -- a later page fails, at the end of the heap or behind the last address
    rw [if_neg hok]
    refine iff_of_false (fun h ↦ ?_) fun h ↦ hok (hlasts.2 h.1)
    have hback := congrArg IrqState.irqSemaphore h.1
    rcases hsem with hsem | ⟨-, hsem⟩
    · exact h₂ (hsem.symm.trans hback)
    · exact h₄ (hsem.symm.trans hback)

end MMU

/-- A machine whose heap has one page left. -/
def lastPageMachine : Machine :=
  { (bootMachine.setHeap (mmapKernelHeapEnd - pageSize)).setStack (mmapKernelStacksEnd - 8) with
    irq := ⟨0, true⟩ }

end Marimba
