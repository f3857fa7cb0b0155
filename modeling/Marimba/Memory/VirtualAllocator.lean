import Marimba.Memory.Paging

/-!
# Kernel pages and kernel stacks

The rest of `mmu.c`: handing out virtual pages of the kernel heap and kernel stacks from two bump
pointers, and giving their frames back. A page that is handed out is only **reserved** — its frame
is allocated by the page fault of its first access — and the result of `PT_demand_allocate` is
ignored by every caller here.

This module has the definitions and no results. They follow the code where it is unusual, since
later results turn on it:

* `MMU_alloc_page` returns before `IRQ_enable` when the heap is exhausted, and so does
  `MMU_alloc_pages` after any page that it does not get (`RequestEffects`);
* the end of the stacks is tested against `MMAP_KERNEL_HEAP_START` (`VirtualRegions`);
* the loops of `MMU_free_pages` and `MMU_free_stack` compute their offsets in `int`, and that of the
  stack goes upward from the top page (`KernelStacks`, `FreedPages`);
* pointers wrap around at `2 ^ 64`, as everywhere in the code.

`MMU_init` is modelled in two halves. `initPaging` is the second: everything after the free segments
have been computed, which is what `BootSegments` is about. The two tables of the identity map are
static arrays of the kernel, and are given by their addresses.
-/

namespace Marimba

/-- Sign extension of a 32-bit product to 64 bits, as the C `int` arithmetic of loop offsets
does. -/
def signExtend32 (x : ℕ) : ℕ :=
  if x % 2 ^ 32 < 2 ^ 31 then x % 2 ^ 32 else x % 2 ^ 32 + (wordSize - 2 ^ 32)

/-- `vaddr + (PAGE_SIZE*i)`: the offset is an `int` product, the sum is a pointer. -/
def pageOffset (vaddr i : ℕ) : ℕ := wadd vaddr (signExtend32 (pageSize * i))

namespace MMU

/-- `MMU_alloc_page`. The early return of an exhausted heap leaves interrupts disabled. -/
def allocPage (k : Machine) : ℕ × Machine :=
  let k₁ := k.setIrq (IRQ.disable k.irq)
  if k₁.mmu.nextKernelHeapVaddr = mmapKernelHeapEnd then (0, k₁)
  else
    let ret := k₁.mmu.nextKernelHeapVaddr
    let k₂ := (PT.demandAllocate (k₁.setHeap (wadd ret pageSize)) ret).2
    (ret, k₂.setIrq (IRQ.enable k₂.irq))

/-- The loop of `MMU_alloc_pages`: `n` more pages, `false` as soon as one fails. -/
def allocMorePages : ℕ → Machine → Bool × Machine
  | 0, k => (true, k)
  | n + 1, k =>
    let (ok, k₁) := allocMorePages n k
    if ok then
      let (page, k₂) := allocPage k₁
      (page != 0, k₂)
    else (false, k₁)

/-- `MMU_alloc_pages`. -/
def allocPages (k : Machine) (numPages : ℤ) : ℕ × Machine :=
  if numPages ≤ 0 then (0, k)
  else
    let (firstPage, k₁) := allocPage (k.setIrq (IRQ.disable k.irq))
    if firstPage = 0 then (0, k₁)
    else
      let (ok, k₂) := allocMorePages (numPages - 1).toNat k₁
      if ok then (firstPage, k₂.setIrq (IRQ.enable k₂.irq)) else (0, k₂)

/-- `MMU_free_page`. -/
def freePage (k : Machine) (vaddr : ℕ) : Machine :=
  let (addr, k') := PT.free k vaddr
  if addr ≠ 0 then freeFrame k' addr else k'

/-- The loop shared by `MMU_free_pages` and `MMU_free_stack`: free `n` pages, from `vaddr`
upward. -/
def freeRun (vaddr : ℕ) : ℕ → Machine → Machine
  | 0, k => k
  | n + 1, k => freePage (freeRun vaddr n k) (pageOffset vaddr n)

/-- `MMU_free_pages`. -/
def freePages (k : Machine) (vaddr : ℕ) (numPages : ℤ) : Machine :=
  freeRun vaddr numPages.toNat k

/-- The body of the loop of `MMU_alloc_stack`: reserve one page and move down to the next. -/
def reserveStackPage (k : Machine) : Machine :=
  let k₁ := (PT.demandAllocate k k.mmu.nextKernelThreadStackVaddr).2
  k₁.setStack (wsub k₁.mmu.nextKernelThreadStackVaddr pageSize)

/-- The loop of `MMU_alloc_stack`: reserve `n` pages from the bump pointer downward. -/
def reserveStackPages : ℕ → Machine → Machine
  | 0, k => k
  | n + 1, k => reserveStackPage (reserveStackPages n k)

/-- `MMU_alloc_stack`. The exhaustion test compares with `MMAP_KERNEL_HEAP_START`, which is above
the stack region. -/
def allocStack (k : Machine) : ℕ × Machine :=
  let k₁ := k.setIrq (IRQ.disable k.irq)
  if k₁.mmu.nextKernelThreadStackVaddr = mmapKernelHeapStart then (0, k₁)
  else
    let k₂ := reserveStackPages kernelThreadStackSizePages k₁
    (k₁.mmu.nextKernelThreadStackVaddr, k₂.setIrq (IRQ.enable k₂.irq))

/-- `MMU_free_stack`: the pages freed run **upward** from the page of the stack's top. -/
def freeStack (k : Machine) (vaddr : ℕ) : Machine :=
  freeRun (wsub vaddr (pageSize - 8)) kernelThreadStackSizePages k

end MMU

/-! ### The second half of `MMU_init` -/

namespace PT

/-- The loop of `PT_init` over the second-level identity table: 512 huge pages of 2 MiB. -/
def initIdentityP2 (identityP2 : ℕ) : ℕ → Machine → Machine
  | 0, k => k
  | n + 1, k =>
    (initIdentityP2 identityP2 n k).store (identityP2 + 8 * n)
      (setBit (pteSetAddr (n * 0x200000)) 7 true)

/-- `PT_init`: the two static tables of the identity map. -/
def init (identityP3 identityP2 : ℕ) (k : Machine) : Machine :=
  initIdentityP2 identityP2 pageTableNumEnts
    ((initEmptyPageTable k identityP3).store identityP3 (pteSetAddr identityP2))

/-- `PT_page_table_init`: an empty root table with the identity map at entry `0`. -/
def pageTableInit (identityP3 : ℕ) (k : Machine) (addr : ℕ) : Machine :=
  (initEmptyPageTable k addr).store addr (pteSetAddr identityP3)

/-- `PT_change`. -/
def change (k : Machine) (addr : ℕ) : Machine := { k with cr3 := addr }

@[simp] theorem change_mmu (k : Machine) (addr : ℕ) : (change k addr).mmu = k.mmu := rfl

end PT

/-- `MMU_init` from the point where the free segments are known: set the bump pointers, take a frame
for the root table, build the identity map and load the root. -/
def MMU.initPaging (identityP3 identityP2 : ℕ) (k : Machine) : Int × Machine :=
  let (root, k₁) :=
    allocFrame ((k.setHeap mmapKernelHeapStart).setStack (mmapKernelStacksEnd - 8))
  let k₂ := k₁.setPageTable root
  if root = 0 then (-1, k₂)
  else
    let k₃ := PT.pageTableInit identityP3 (PT.init identityP3 identityP2 k₂) root
    (0, PT.change k₃ root)

end Marimba
