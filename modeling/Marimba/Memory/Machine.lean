import Marimba.Foundations.Word
import Mathlib.Logic.Function.Basic

/-!
# The machine the memory manager runs on

The data the memory manager reads and writes: the physical memory, the page-table base register,
the static `mmu_state` record and the interrupt state.

**Physical memory** is a function from byte addresses to 64-bit words; every access in the modelled
code is to an aligned 8-byte word, so the cell at `a` stands for the bytes `a .. a + 7`. The kernel
reaches page frames through its identity map, so a pointer to a frame is the frame's physical
address. That is right for the frames that the map has, which are those of the first GiB
(`IdentityRange`): results with frames behind it are about what the code does when they are mapped
as well. The null pointer is `0`.

**Interrupts** are the nesting counter `irq_semaphore` together with the processor's interrupt flag,
changed by `IRQ_enable` and `IRQ_disable` exactly as `arch/x86_64/interrupts.c` does. The console
output of `klog` is left out throughout: nothing reads it back.
-/

namespace Marimba

/-! ### Constants of `paging.h`, `mmap.h` and `mmu.c` -/

/-- `PAGE_SIZE`. -/
abbrev pageSize : ℕ := 0x1000

/-- `PAGE_TABLE_NUM_ENTS`. -/
abbrev pageTableNumEnts : ℕ := 512

/-- `MAX_FREE_SEGMENTS`. -/
abbrev maxFreeSegments : ℕ := 32

/-- `KERNEL_THREAD_STACK_SIZE_PAGES`. -/
abbrev kernelThreadStackSizePages : ℕ := 10

/-- `P4_PTE_ADDRESSES`, the unit in which the virtual memory map is laid out. -/
abbrev p4PteAddresses : ℕ := 0x10000000000

/-- `MMAP_PHYSICAL_PAGES_END`, the end of the region of physical page frames. -/
abbrev mmapPhysicalPagesEnd : ℕ := p4PteAddresses

/-- `MMAP_KERNEL_STACKS_START`. -/
abbrev mmapKernelStacksStart : ℕ := p4PteAddresses

/-- `MMAP_KERNEL_STACKS_END`. -/
abbrev mmapKernelStacksEnd : ℕ := 0x2 * p4PteAddresses

/-- `MMAP_KERNEL_HEAP_START`. -/
abbrev mmapKernelHeapStart : ℕ := 0xF * p4PteAddresses

/-- `MMAP_KERNEL_HEAP_END`. -/
abbrev mmapKernelHeapEnd : ℕ := 0x10 * p4PteAddresses

/-! ### The state -/

/-- `struct Segment`. -/
structure Segment where
  base : ℕ
  end_ : ℕ
  len : ℕ
  deriving DecidableEq, Repr

/-- `struct SegmentList`: a segment and the index of the next node, `none` for a null pointer. All
nodes live in one array, so a pointer to a node is its index. -/
structure SegmentList where
  next : Option ℕ
  s : Segment
  deriving DecidableEq, Repr

/-- `struct MMUState`. -/
structure MMUState where
  freeSegments : ℕ → SegmentList
  freeSegmentHead : Option ℕ
  freePageHead : ℕ
  freePageTail : ℕ
  pageTable : ℕ
  nextKernelHeapVaddr : ℕ
  nextKernelThreadStackVaddr : ℕ

/-- `irq_semaphore` and the interrupt flag of the processor. -/
structure IrqState where
  irqSemaphore : ℕ
  interruptFlag : Bool
  deriving DecidableEq, Repr

/-- Everything the memory manager reads or writes. -/
structure Machine where
  mem : ℕ → ℕ
  cr3 : ℕ
  mmu : MMUState
  irq : IrqState

namespace Machine

/-- Store a word. -/
def store (k : Machine) (a v : ℕ) : Machine := { k with mem := Function.update k.mem a v }

@[simp] theorem store_mem (k : Machine) (a v : ℕ) :
    (k.store a v).mem = Function.update k.mem a v := rfl

@[simp] theorem store_cr3 (k : Machine) (a v : ℕ) : (k.store a v).cr3 = k.cr3 := rfl

@[simp] theorem store_mmu (k : Machine) (a v : ℕ) : (k.store a v).mmu = k.mmu := rfl

@[simp] theorem store_irq (k : Machine) (a v : ℕ) : (k.store a v).irq = k.irq := rfl

/-- The two bump pointers, heap and stacks. -/
def bumps (k : Machine) : ℕ × ℕ :=
  (k.mmu.nextKernelHeapVaddr, k.mmu.nextKernelThreadStackVaddr)

@[simp] theorem store_bumps (k : Machine) (a v : ℕ) : (k.store a v).bumps = k.bumps := rfl

/-- Change the interrupt state. -/
def setIrq (k : Machine) (q : IrqState) : Machine := { k with irq := q }

/-- Move `next_kernel_heap_vaddr`. -/
def setHeap (k : Machine) (v : ℕ) : Machine :=
  { k with mmu := { k.mmu with nextKernelHeapVaddr := v } }

/-- Move `next_kernel_thread_stack_vaddr`. -/
def setStack (k : Machine) (v : ℕ) : Machine :=
  { k with mmu := { k.mmu with nextKernelThreadStackVaddr := v } }

/-- Set `page_table`. -/
def setPageTable (k : Machine) (v : ℕ) : Machine :=
  { k with mmu := { k.mmu with pageTable := v } }

@[simp] theorem setPageTable_bumps (k : Machine) (v : ℕ) :
    (k.setPageTable v).bumps = k.bumps := rfl

@[simp] theorem setIrq_mmu (k : Machine) (q : IrqState) : (k.setIrq q).mmu = k.mmu := rfl

@[simp] theorem setIrq_bumps (k : Machine) (q : IrqState) : (k.setIrq q).bumps = k.bumps := rfl

@[simp] theorem setHeap_bumps (k : Machine) (v : ℕ) :
    (k.setHeap v).bumps = (v, k.mmu.nextKernelThreadStackVaddr) := rfl

@[simp] theorem setHeap_nextKernelHeapVaddr (k : Machine) (v : ℕ) :
    (k.setHeap v).mmu.nextKernelHeapVaddr = v := rfl

@[simp] theorem setStack_irq (k : Machine) (v : ℕ) : (k.setStack v).irq = k.irq := rfl

@[simp] theorem setStack_bumps (k : Machine) (v : ℕ) :
    (k.setStack v).bumps = (k.mmu.nextKernelHeapVaddr, v) := rfl

end Machine

/-! ### Interrupt nesting -/

namespace IRQ

/-- `IRQ_disable`: clear the interrupt flag on the first disable, count the nesting. -/
def disable (q : IrqState) : IrqState :=
  { irqSemaphore := (q.irqSemaphore + 1) % 2 ^ 32
    interruptFlag := if q.irqSemaphore = 0 then false else q.interruptFlag }

/-- `IRQ_enable`: nothing when nothing is disabled, otherwise undo one level and set the interrupt
flag when it was the last. -/
def enable (q : IrqState) : IrqState :=
  if q.irqSemaphore = 0 then q
  else
    { irqSemaphore := q.irqSemaphore - 1
      interruptFlag := if q.irqSemaphore - 1 = 0 then true else q.interruptFlag }

end IRQ

end Marimba
