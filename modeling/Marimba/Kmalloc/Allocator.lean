import Marimba.Memory.FrameAllocator
import Marimba.Foundations.Extent
import Mathlib.Data.Fin.VecNotation

/-!
# The kernel heap

`kmalloc.c`: six pools of blocks of fixed size for small requests, whole pages for large ones. A
block starts with a header of two words, the address of its pool and the link of the pool's free
list; the client gets the address after the header.

**Memory** is the virtual memory as `kmalloc` sees it: a function from byte addresses to 64-bit
words, accessed at aligned addresses only. The static array `pools` lives in the same memory, at the
address `pools`: entry `i` has its `block_size` at `pools + 16 * i` — a constant, so not read from
memory here — and its `free_head` at `pools + 16 * i + 8`. The loop in `kmalloc_increase_pool`
writes through a pointer that is first the `free_head` of the pool and then the `next` field of the
block before, which is the reason for keeping both in one memory.

**The page allocator** is a parameter: `allocPages` and `freePages` act on a state `σ` of their own.
-/

namespace Marimba

/-- `POOL_PAGE_INCREASE`. -/
abbrev poolPageIncrease : ℕ := 4

/-- `NUM_POOLS`. -/
abbrev numPools : ℕ := 6

/-- `sizeof(struct KmallocBlockHeader)`. -/
abbrev headerSize : ℕ := 16

/-- The `block_size` of each pool. -/
def blockSize : Fin numPools → ℕ := ![32, 64, 128, 512, 1024, 2048]

/-- The memory of the heap and the state of the page allocator. -/
structure Kheap (σ : Type*) where
  mem : ℕ → ℕ
  mmu : σ

namespace Kmalloc

/-- `&pools[i]`. -/
def poolPtr (pools : ℕ) (i : Fin numPools) : ℕ := pools + 16 * i

/-- The loop variables of `kmalloc_increase_pool`, `prev` a pointer to the word to be linked. -/
structure Carving where
  mem : ℕ → ℕ
  prev : ℕ
  cur : ℕ

/-- The body of the loop of `kmalloc_increase_pool`. -/
def carveBlock (pool size : ℕ) (c : Carving) : Carving where
  mem := Function.update
    (Function.update (Function.update c.mem c.prev c.cur) c.cur pool) (c.cur + 8) 0
  prev := c.cur + 8
  cur := c.cur + size

/-- The loop of `kmalloc_increase_pool`: `n` blocks. -/
def carve (pool size : ℕ) : ℕ → Carving → Carving
  | 0, c => c
  | n + 1, c => carveBlock pool size (carve pool size n c)

section Calls

variable {σ : Type*} (allocPages : σ → ℤ → ℕ × σ) (freePages : σ → ℕ → ℤ → σ)

/-- `kmalloc_increase_pool`. -/
def increasePool (pool size numPages : ℕ) (h : Kheap σ) : ℤ × Kheap σ :=
  if h.mem (pool + 8) ≠ 0 then (0, h)
  else
    let (cur, mmu) := allocPages h.mmu numPages
    if cur = 0 then (-1, { h with mmu := mmu })
    else
      let numBlocks := numPages * pageSize / size
      (0, ⟨(carve pool size numBlocks ⟨h.mem, pool + 8, cur⟩).mem, mmu⟩)

/-- `kmalloc_alloc`: `0` is the null pointer. -/
def alloc (pool size : ℕ) (h : Kheap σ) : ℕ × Kheap σ :=
  let (rc, h₁) :=
    if h.mem (pool + 8) = 0 then increasePool allocPages pool size poolPageIncrease h else (0, h)
  if rc < 0 then (0, h₁)
  else
    let ret := h₁.mem (pool + 8)
    let mem := Function.update h₁.mem (pool + 8) (h₁.mem (ret + 8))
    (ret, { h₁ with mem := Function.update mem (ret + 8) 0 })

/-- The loop of `kmalloc` over the pools: the first whose blocks hold `size` and a header. The sum
wraps. -/
def findPool (size : ℕ) : Option (Fin numPools) :=
  (List.finRange numPools).find? fun i ↦ wadd size headerSize ≤ blockSize i

/-- The `num_pages` of `kmalloc`, an `int`: the quotient is cut to 32 bits, and so is the
increment. -/
def numPages (size : ℕ) : ℤ :=
  let n := ((size / pageSize : ℕ) : ℤ).bmod (2 ^ 32)
  if size % pageSize ≠ 0 then (n + 1).bmod (2 ^ 32) else n

/-- `kmalloc`. -/
def kmalloc (pools size : ℕ) (h : Kheap σ) : ℕ × Kheap σ :=
  if size = 0 then (0, h)
  else
    match findPool size with
    | some i =>
      let (ret, h₁) := alloc allocPages (poolPtr pools i) (blockSize i) h
      if ret = 0 then (0, h₁) else (ret + headerSize, h₁)
    | none =>
      let (ret, mmu) := allocPages h.mmu (numPages size)
      if ret = 0 then (0, { h with mmu := mmu })
      else
        let mem := Function.update (Function.update h.mem ret 0) (ret + 8) (numPages size).toNat
        (ret + headerSize, ⟨mem, mmu⟩)

/-- `kfree`. -/
def kfree (addr : ℕ) (h : Kheap σ) : Kheap σ :=
  let block := addr - headerSize
  if h.mem block = 0 then
    { h with mmu := freePages h.mmu block ((h.mem (block + 8) : ℤ).bmod (2 ^ 32)) }
  else
    let pool := h.mem block
    let mem := Function.update h.mem (block + 8) (h.mem (pool + 8))
    { h with mem := Function.update mem (pool + 8) block }

end Calls

end Kmalloc

end Marimba
