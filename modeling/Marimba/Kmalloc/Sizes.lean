import Marimba.Kmalloc.PoolSystem
import Marimba.Memory.VirtualRegions

/-!
# Which sizes `kmalloc` serves safely

A request is safe when the bytes the client gets are inside the block that was reserved for it, and
away from all other live allocations, headers and free-list nodes. For requests from a pool this is
the heap invariant. For large requests it depends on the size: the number of pages is counted from
`size` alone, so **the header is not accounted for** when `size` is a multiple of the page size or
less than 16 bytes below one, and the count is an `int`, so it says nothing about `size` once the
quotient needs more than 32 bits. A size within 16 bytes of `2 ^ 64` wraps in the test for the
pools and is given a block of 32 bytes; the other sizes that are negative as an `int` are refused
(`KernelHeap.kmalloc_of_negative`).

`GoodSize` is the exact condition. The heap runs on the real `MMU_alloc_pages`, a bump allocator:
`allocPages_bump` is all that is used of it.
-/

namespace Marimba

namespace Kmalloc

open Extent

variable {pools size : ℕ} {mem mem' : ℕ → ℕ} {free : Fin numPools → List ℕ}
  {live : List LiveBlock}

/-! ### Good sizes -/

/-- The pages of the kernel heap. -/
abbrev heapPages : ℕ := (mmapKernelHeapEnd - mmapKernelHeapStart) / pageSize

/-- A size that `kmalloc` serves safely: it comes from a pool; or it leaves room for the header in
its last page; or its page count is one that `MMU_alloc_pages` never grants. -/
def GoodSize (size : ℕ) : Prop :=
  size ≤ 2032 ∨ (size + headerSize < wordSize ∧
    (numPages size ≤ 0 ∨ (heapPages : ℤ) < numPages size ∨
      (size < pageSize * heapPages ∧ 0 < size % pageSize ∧
        size % pageSize ≤ pageSize - headerSize)))

instance (size : ℕ) : Decidable (GoodSize size) := inferInstanceAs (Decidable (_ ∨ _))

/-- Below the size of the heap, the page count is not cut off. -/
theorem numPages_of_lt (hlt : size < pageSize * heapPages) :
    numPages size = ((size / pageSize + if size % pageSize ≠ 0 then 1 else 0 : ℕ) : ℤ) := by
  simp only [numPages, heapPages, mmapKernelHeapEnd, mmapKernelHeapStart, p4PteAddresses, pageSize,
    Int.bmod] at *
  split <;> omega

/-- A run of pages that can be granted has room for the header and the request exactly if the size
is good. -/
theorem room_iff (hpos : 0 < numPages size) (hle : numPages size ≤ heapPages) :
    size + headerSize ≤ pageSize * (numPages size).toNat ↔
      size < pageSize * heapPages ∧ 0 < size % pageSize ∧
        size % pageSize ≤ pageSize - headerSize := by
  by_cases hlt : size < pageSize * heapPages
  · rw [numPages_of_lt hlt] at hpos hle ⊢
    simp only [heapPages, mmapKernelHeapEnd, mmapKernelHeapStart, p4PteAddresses, pageSize,
      headerSize, Int.toNat_natCast] at *
    split <;> omega
  · simp only [heapPages, mmapKernelHeapEnd, mmapKernelHeapStart, p4PteAddresses, pageSize,
      headerSize] at *
    omega

theorem findPool_eq_none (hlarge : 2032 < size) (hlt : size + headerSize < wordSize) :
    findPool size = none := by
  rw [findPool_eq_none_iff, wadd_of_lt hlt]
  simp only [headerSize]
  omega

/-- The page count of a size that is negative as an `int`. -/
theorem numPages_nonpos (hlow : wordSize - 2 ^ 31 ≤ size) (hlt : size < wordSize) :
    numPages size ≤ 0 := by
  simp only [numPages, pageSize, wordSize, Int.bmod] at *
  split <;> omega

/-! ### Safe allocations -/

/-- The allocation of `size` bytes at `p` is safe: it is inside the block that was reserved for it,
after the header, and meets no other allocation, no header and no free-list node. -/
structure SafeAllocation (pools : ℕ) (live : List LiveBlock) (size p : ℕ) (mem' : ℕ → ℕ) :
    Prop where
  inside : headerSize ≤ p ∧ p + size ≤ p - headerSize + (ownerOf size).len
  bytes : ∀ a ∈ live, Extent.Disjoint ⟨p, size⟩ a.bytes
  header : ∀ a ∈ live, Extent.Disjoint ⟨p, size⟩ ⟨a.base, headerSize⟩
  node : ∀ i xs, FreeList pools mem' i xs →
    ∀ b ∈ xs, Extent.Disjoint ⟨p, size⟩ ⟨b, headerSize⟩

/-- The heap invariant makes the block just handed out safe. -/
theorem HeapInv.safeAllocation {b : ℕ}
    (h : HeapInv pools mem' free (⟨ownerOf size, b, size⟩ :: live)) :
    SafeAllocation pools live size (b + headerSize) mem' := by
  have hself := List.mem_cons_self (a := (⟨ownerOf size, b, size⟩ : LiveBlock)) (l := live)
  have hroom : size + headerSize ≤ (ownerOf size).len := h.room _ hself
  have hbytes : Within ⟨b + headerSize, size⟩ (LiveBlock.extent ⟨ownerOf size, b, size⟩) := by
    simp only [Within, LiveBlock.extent]
    omega
  have hothers : ∀ a ∈ live, Extent.Disjoint (LiveBlock.extent ⟨ownerOf size, b, size⟩) a.extent :=
    fun a ha ↦ h.live_live hself (by rwa [List.erase_cons_head])
  refine ⟨⟨by omega, by omega⟩, fun a ha ↦ (hothers a ha).mono hbytes ?_,
    fun a ha ↦ (hothers a ha).mono hbytes ?_, fun i xs hxs x hx ↦ ?_⟩
  · have := h.room a (List.mem_cons_of_mem _ ha)
    simp only [Within, LiveBlock.bytes, LiveBlock.ptr, LiveBlock.extent]
    omega
  · have := h.room a (List.mem_cons_of_mem _ ha)
    simp only [Within, LiveBlock.extent]
    omega
  · obtain rfl := hxs.chain.unique (h.freeList i).chain
    refine (h.free_live hx hself).symm.mono hbytes ?_
    have := headerSize_lt_blockSize i
    simp only [Within]
    omega

/-! ### The heap on the real page allocator -/

/-- What clients do. -/
inductive HeapCmd where
  | kmalloc (size : ℕ)
  | kfree (p : ℕ)
  | write (p k w : ℕ)

/-- The memory, the machine of the page allocator, and the live blocks. -/
structure KernelHeap where
  mem : ℕ → ℕ
  machine : Machine
  live : List LiveBlock

namespace KernelHeap

/-- A call of `kmalloc` in a state. -/
def kmalloc (pools : ℕ) (s : KernelHeap) (size : ℕ) : ℕ × Kheap Machine :=
  Kmalloc.kmalloc MMU.allocPages pools size ⟨s.mem, s.machine⟩

/-- **A size that is negative as an `int` is refused**, and nothing changes. Those within 16 bytes
of zero are the sizes that wrap around. -/
theorem kmalloc_of_negative (hlow : wordSize - 2 ^ 31 ≤ size)
    (hlt : size + headerSize < wordSize) (s : KernelHeap) :
    s.kmalloc pools size = (0, ⟨s.mem, s.machine⟩) := by
  have hpool : findPool size = none :=
    findPool_eq_none (by simp only [wordSize] at hlow; omega) hlt
  have hpages : MMU.allocPages s.machine (numPages size) = (0, s.machine) :=
    if_pos (numPages_nonpos hlow (by omega))
  rw [kmalloc, Kmalloc.kmalloc, hpool]
  simp only [hpages, if_true, ite_self]

/-- The pages that a request is granted, none if it does not ask for any. -/
def granted (pools : ℕ) (s : KernelHeap) (size : ℕ) : ℕ :=
  match request pools s.mem size with
  | none => 0
  | some n => (MMU.allocPages s.machine n).1

/-- The live block with a given pointer. -/
def find (s : KernelHeap) (p : ℕ) : Option LiveBlock := s.live.find? fun a ↦ a.ptr = p

/-- One command, requests limited to good sizes. -/
def step (pools : ℕ) (s : KernelHeap) : HeapCmd → Option (ℕ × KernelHeap)
  | .kmalloc size =>
    if GoodSize size then
      let (p, h) := s.kmalloc pools size
      some (p, ⟨h.mem, h.mmu,
        if p = 0 then s.live else ⟨ownerOf size, p - headerSize, size⟩ :: s.live⟩)
    else none
  | .kfree p =>
    (s.find p).map fun a ↦
      let h := kfree MMU.freePages p ⟨s.mem, s.machine⟩
      (0, ⟨h.mem, h.mmu, s.live.erase a⟩)
  | .write p k w =>
    (s.find p).bind fun a ↦
      if 8 * k < a.size then some (0, { s with mem := Function.update s.mem (p + 8 * k) w })
      else none

/-- The heap invariant, with all blocks below the heap pointer. -/
structure Inv (pools : ℕ) (s : KernelHeap) (free : Fin numPools → List ℕ) : Prop where
  heap : HeapInv pools s.mem free s.live
  below : ∀ f ∈ freeExtents free ++ s.live.map LiveBlock.extent,
    f.base + f.len ≤ s.machine.bumps.1
  regions : InRegions s.machine.bumps

section Step

variable {s s' : KernelHeap} {r : ℕ} (hpools : pools + 16 * numPools ≤ mmapKernelHeapStart)

include hpools

/-- `MMU_alloc_pages` gives an answer that overlaps nothing. -/
theorem Inv.answer (h : s.Inv pools free) (n : ℤ) :
    Answer (poolsExtent pools :: (freeExtents free ++ s.live.map LiveBlock.extent)) n
      (MMU.allocPages s.machine n).1 := by
  have hpos : 0 < s.machine.bumps.1 := lt_of_lt_of_le (by decide) h.regions.heap_start
  have hbump := (MMU.allocPages_bump hpos h.regions.heap_end h.regions.heap_aligned n).1
  rw [hbump]
  split
  · next hn =>
    refine Or.inr ⟨hn.1, h.regions.heap_aligned, List.forall_mem_cons.2 ⟨?_, fun f hf ↦ ?_⟩⟩
    · exact Or.inr (hpools.trans h.regions.heap_start)
    · exact Or.inr (h.below f hf)
  · exact Or.inl rfl

omit hpools in
/-- For a good size the block fits, or no pages are granted. -/
theorem Inv.fits (h : s.Inv pools free) (hgood : GoodSize size) :
    Fits size (MMU.allocPages s.machine (numPages size)).1 := by
  have hpos : 0 < s.machine.bumps.1 := lt_of_lt_of_le (by decide) h.regions.heap_start
  have hstart := h.regions.heap_start
  have hbump := (MMU.allocPages_bump hpos h.regions.heap_end h.regions.heap_aligned
    (numPages size)).1
  by_cases hsmall : size ≤ 2032
  · exact fits_of_le hsmall
  obtain ⟨hlt, hcount⟩ := hgood.resolve_left hsmall
  have hnone := findPool_eq_none (not_le.1 hsmall) hlt
  by_cases hgrant : 0 < numPages size ∧ numPages size ≤ heapPages
  · refine Or.inl ?_
    rw [ownerOf, hnone]
    exact (room_iff hgrant.1 hgrant.2).2 (by omega)
  · refine Or.inr ⟨hnone, ?_⟩
    rw [hbump, if_neg]
    rintro ⟨h₁, h₂⟩
    refine hgrant ⟨h₁, ?_⟩
    simp only [heapPages, mmapKernelHeapEnd, mmapKernelHeapStart, p4PteAddresses, pageSize] at *
    omega

/-- The outcome of a call with a good size, and what it does to the heap pointer. -/
theorem Inv.outcome (h : s.Inv pools free) (hgood : GoodSize size) :
    Outcome pools s.mem free s.live size (s.granted pools size) (s.kmalloc pools size).1
        (s.kmalloc pools size).2.mem ∧
      InRegions (s.kmalloc pools size).2.mmu.bumps ∧
      s.machine.bumps.1 ≤ (s.kmalloc pools size).2.mmu.bumps.1 ∧
      (s.granted pools size ≠ 0 → ∀ n ∈ request pools s.mem size,
        s.granted pools size + pageSize * n.toNat ≤ (s.kmalloc pools size).2.mmu.bumps.1) := by
  have hfits : ∀ pages, findPool size ≠ none → Fits size pages := by
    intro pages hpool
    refine fits_of_le (not_lt.1 fun hlarge ↦ hpool ?_)
    exact findPool_eq_none hlarge (hgood.resolve_left hlarge.not_ge).1
  rw [KernelHeap.kmalloc, kmalloc_eq_answer, granted]
  rcases hreq : request pools s.mem size with - | n
  · have hpool : findPool size ≠ none := by
      intro hnone
      rcases eq_or_ne size 0 with rfl | hsize
      · obtain ⟨i, hi⟩ := exists_findPool (show 0 ≤ 2032 by decide)
        exact absurd (hi.symm.trans hnone) (by simp)
      · simp [request, hsize, hnone] at hreq
    refine ⟨kmalloc_outcome h.heap (hfits 0 hpool) fun n hn ↦ ?_, h.regions, le_rfl,
      fun h₀ ↦ absurd rfl h₀⟩
    rw [hreq] at hn
    cases hn
  · have hfits' : Fits size (MMU.allocPages s.machine n).1 := by
      rcases eq_or_ne (findPool size) none with hnone | hpool
      · have hsize : size ≠ 0 := by
          rintro rfl
          simp [request] at hreq
        obtain rfl : numPages size = n := by simpa [request, hsize, hnone] using hreq
        exact h.fits hgood
      · exact hfits _ hpool
    have hpos : 0 < s.machine.bumps.1 := lt_of_lt_of_le (by decide) h.regions.heap_start
    obtain ⟨hret, hnext⟩ :=
      MMU.allocPages_bump hpos h.regions.heap_end h.regions.heap_aligned n
    refine ⟨kmalloc_outcome h.heap hfits' fun m hm ↦ ?_, MMU.inRegions_allocPages h.regions n,
      ?_, fun hpages m hm ↦ ?_⟩
    · obtain rfl := Option.some.inj (hreq.symm.trans hm)
      exact h.answer hpools n
    · show _ ≤ (MMU.allocPages s.machine n).2.bumps.1
      rw [hnext]
      split
      · exact le_min (Nat.le_add_right _ _) h.regions.heap_end
      · exact le_rfl
    · obtain rfl := Option.some.inj hm
      dsimp only at hpages ⊢
      rw [hret] at hpages ⊢
      split at hpages
      · next hn => rw [if_pos hn, hnext, if_pos hn.1, min_eq_left hn.2]
      · exact absurd rfl hpages

/-- **A request of a good size preserves the invariant.** -/
theorem Inv.kmalloc (h : s.Inv pools free) (hgood : GoodSize size) :
    ∃ free', Inv pools ⟨(s.kmalloc pools size).2.mem, (s.kmalloc pools size).2.mmu,
      if (s.kmalloc pools size).1 = 0 then s.live
      else ⟨ownerOf size, (s.kmalloc pools size).1 - headerSize, size⟩ :: s.live⟩ free' := by
  obtain ⟨hout, hregions, hmono, hgrant⟩ := h.outcome hpools hgood
  generalize s.granted pools size = pages at hout hgrant
  have hbelow : ∀ f ∈ freeExtents free ++ s.live.map LiveBlock.extent,
      f.base + f.len ≤ (s.kmalloc pools size).2.mmu.bumps.1 := fun f hf ↦
    (h.below f hf).trans hmono
  generalize s.kmalloc pools size = r at *
  obtain ⟨p, mem', mmu'⟩ := r
  dsimp only at *
  cases hout with
  | nothing | exhausted | refused => exact ⟨free, h.heap, hbelow, hregions⟩
  | @pooled i b xs _ _ hpool hfree hinv =>
    have howner : ownerOf size = .pool i := by rw [ownerOf, hpool]
    rw [if_neg (add_headerSize_ne_zero _), howner, Nat.add_sub_cancel]
    refine ⟨_, hinv, fun f hf ↦ hbelow f ?_, hregions⟩
    have hperm := freeExtents_update free i [b] xs
    rw [List.singleton_append, ← hfree, Function.update_eq_self] at hperm
    exact ((hperm.append_right _).trans List.perm_middle.symm).mem_iff.2 hf
  | @grown i xs _ hsize hpool hfree hpages hblocks hinv =>
    have hhead := (h.heap.freeList i).head_eq_zero_iff.2 hfree
    have hreq : request pools s.mem size = some ((poolPageIncrease : ℕ) : ℤ) := by
      simp only [request, hsize, if_false, hpool, hhead, if_true]
    have howner : ownerOf size = .pool i := by rw [ownerOf, hpool]
    rw [if_neg (add_headerSize_ne_zero _), howner, Nat.add_sub_cancel]
    refine ⟨_, hinv, fun f hf ↦ ?_, hregions⟩
    have hperm := freeExtents_update free i (pages :: xs) []
    rw [List.append_nil, ← hfree, Function.update_eq_self] at hperm
    have hpop := freeExtents_update free i [pages] xs
    rw [List.singleton_append] at hpop
    replace hf := ((hpop.append_right _).trans List.perm_middle.symm).mem_iff.2 hf
    rcases List.mem_append.1 hf with hf | hf
    · rcases List.mem_append.1 (hperm.mem_iff.1 hf) with hf | hf
      · obtain ⟨b, hb, rfl⟩ := List.mem_map.1 hf
        have hwithin := (within_of_mem_blocks (hblocks ▸ hb)).2
        rw [blockSize_mul] at hwithin
        exact hwithin.trans (hgrant hpages _ hreq)
      · exact hbelow f (List.mem_append_left _ hf)
    · exact hbelow f (List.mem_append_right _ hf)
  | paged hsize hpool hpages hinv =>
    have hreq : request pools s.mem size = some (numPages size) := by
      simp only [request, hsize, if_false, hpool]
    have howner : ownerOf size = .run (numPages size).toNat := by rw [ownerOf, hpool]
    rw [if_neg (add_headerSize_ne_zero _), howner, Nat.add_sub_cancel]
    refine ⟨free, hinv, fun f hf ↦ ?_, hregions⟩
    rcases List.mem_append.1 hf with hf | hf
    · exact hbelow f (List.mem_append_left _ hf)
    · rcases List.mem_cons.1 hf with rfl | hf
      · exact hgrant hpages _ hreq
      · exact hbelow f (List.mem_append_right _ hf)

omit hpools in
/-- **`kfree` preserves the invariant.** -/
theorem Inv.kfree {a : LiveBlock} (h : s.Inv pools free) (ha : a ∈ s.live) :
    ∃ free', Inv pools ⟨(kfree MMU.freePages a.ptr ⟨s.mem, s.machine⟩).mem,
      (kfree MMU.freePages a.ptr ⟨s.mem, s.machine⟩).mmu, s.live.erase a⟩ free' := by
  have hsub : ∀ f ∈ (s.live.erase a).map LiveBlock.extent, f ∈ s.live.map LiveBlock.extent :=
    fun f hf ↦ List.map_subset _ List.erase_subset hf
  rcases howner : a.owner with i | n
  · rw [kfree_of_pool _ h.heap ha howner]
    refine ⟨_, h.heap.push ha howner, fun f hf ↦ h.below f ?_, h.regions⟩
    rcases List.mem_append.1 hf with hf | hf
    · have hperm := freeExtents_update free i [a.base] (free i)
      rw [List.singleton_append, Function.update_eq_self] at hperm
      rcases List.mem_append.1 (hperm.mem_iff.1 hf) with hf | hf
      · rw [List.map_singleton, List.mem_singleton] at hf
        refine List.mem_append_right _ (List.mem_map.2 ⟨a, ha, ?_⟩)
        rw [hf, LiveBlock.extent, howner, Owner.len]
      · exact List.mem_append_left _ hf
    · exact List.mem_append_right _ (hsub f hf)
  · rw [kfree_of_run _ h.heap ha howner]
    have hbumps : (MMU.freePages s.machine a.base ((n : ℤ).bmod (2 ^ 32))).bumps =
        s.machine.bumps := MMU.freeRun_bumps _ _ _
    refine ⟨free, h.heap.erase ha, fun f hf ↦ ?_, ?_⟩
    · dsimp only at hf ⊢
      rw [hbumps]
      refine h.below f ?_
      rcases List.mem_append.1 hf with hf | hf
      · exact List.mem_append_left _ hf
      · exact List.mem_append_right _ (hsub f hf)
    · dsimp only
      rw [hbumps]
      exact h.regions

theorem inv_step (hinv : ∃ free, s.Inv pools free) {c : HeapCmd}
    (hstep : s.step pools c = some (r, s')) : ∃ free, s'.Inv pools free := by
  obtain ⟨free, hinv⟩ := hinv
  cases c with
  | kmalloc size =>
    obtain ⟨hgood, heq⟩ := Option.ite_none_right_eq_some.1 hstep
    obtain ⟨-, rfl⟩ := Prod.mk.inj (Option.some.inj heq)
    exact hinv.kmalloc hpools hgood
  | kfree p =>
    obtain ⟨a, hfind, heq⟩ := Option.map_eq_some_iff.1 hstep
    obtain ⟨-, rfl⟩ := Prod.mk.inj heq
    obtain rfl : a.ptr = p := by simpa using List.find?_some hfind
    exact hinv.kfree (List.mem_of_find?_eq_some hfind)
  | write p k w =>
    obtain ⟨a, hfind, heq⟩ := Option.bind_eq_some_iff.1 hstep
    obtain ⟨hk, heq⟩ := Option.ite_none_right_eq_some.1 heq
    obtain ⟨-, rfl⟩ := Prod.mk.inj (Option.some.inj heq)
    obtain rfl : a.ptr = p := by simpa using List.find?_some hfind
    exact ⟨free, hinv.heap.write (List.mem_of_find?_eq_some hfind) hk w, hinv.below, hinv.regions⟩

/-- **A good size is served safely**, from any state with the invariant. -/
theorem Inv.safe (h : s.Inv pools free) (hgood : GoodSize size)
    (hne : (s.kmalloc pools size).1 ≠ 0) :
    SafeAllocation pools s.live size (s.kmalloc pools size).1 (s.kmalloc pools size).2.mem := by
  obtain ⟨hout, -⟩ := h.outcome hpools hgood
  generalize (s.kmalloc pools size).1 = p at *
  generalize (s.kmalloc pools size).2.mem = mem' at *
  cases hout with
  | nothing | exhausted | refused => exact absurd rfl hne
  | @pooled i b xs _ _ hpool _ hinv =>
    have howner : ownerOf size = .pool i := by rw [ownerOf, hpool]
    exact (howner ▸ hinv).safeAllocation
  | @grown i xs _ _ hpool _ _ _ hinv =>
    have howner : ownerOf size = .pool i := by rw [ownerOf, hpool]
    exact (howner ▸ hinv).safeAllocation
  | paged _ hpool _ hinv =>
    have howner : ownerOf size = .run (numPages size).toNat := by rw [ownerOf, hpool]
    exact (howner ▸ hinv).safeAllocation

end Step

/-! ### Sizes that are not good -/

section Bad

variable {k : Machine} (hpools : pools + 16 * numPools ≤ mmapKernelHeapStart)
  (hinv : Inv pools ⟨mem, k, []⟩ fun _ ↦ []) (hstart : k.bumps.1 = mmapKernelHeapStart)

include hinv hstart

/-- With an untouched heap, every page count up to the size of the heap is granted. -/
theorem allocPages_start {n : ℤ} (hpos : 0 < n) (hle : n ≤ heapPages) :
    (MMU.allocPages k n).1 = mmapKernelHeapStart := by
  have hb : InRegions k.bumps := hinv.regions
  have hpos' : 0 < k.bumps.1 := lt_of_lt_of_le (by decide) hb.heap_start
  rw [(MMU.allocPages_bump hpos' hb.heap_end hb.heap_aligned n).1, if_pos, hstart]
  refine ⟨hpos, ?_⟩
  rw [hstart]
  simp only [heapPages, mmapKernelHeapEnd, mmapKernelHeapStart, p4PteAddresses, pageSize] at *
  omega

include hpools

/-- **A size that is not good gets a block that is too small**, already from an untouched heap. -/
theorem kmalloc_of_not_goodSize (hsize : size < wordSize) (hbad : ¬GoodSize size) :
    (kmalloc pools ⟨mem, k, []⟩ size).1 = mmapKernelHeapStart + headerSize ∧
      (ownerOf size).len < size + headerSize := by
  simp only [GoodSize, not_or, not_and, not_le] at hbad
  obtain ⟨hlarge, hbad⟩ := hbad
  have hne : size ≠ 0 := by omega
  rcases hpool : findPool size with - | i
  · have hlt : size + headerSize < wordSize := by
      by_contra hwrap
      rw [findPool_eq_none_iff] at hpool
      simp only [wadd, headerSize, wordSize] at hpool hwrap hsize
      omega
    obtain ⟨hn, hn', hroom⟩ := hbad hlt
    have hgrant := allocPages_start hinv hstart hn (not_lt.1 hn')
    refine ⟨?_, ?_⟩
    · simp only [KernelHeap.kmalloc, Kmalloc.kmalloc, hne, if_false, hpool, hgrant]
      rfl
    · rw [ownerOf, hpool]
      by_contra hlen
      have := (room_iff hn (not_lt.1 hn')).1 (not_lt.1 hlen)
      exact absurd this.2.2 (by have := hroom this.1 this.2.1; omega)
  · have hgrant : (MMU.allocPages k poolPageIncrease).1 = mmapKernelHeapStart :=
      allocPages_start hinv hstart (by decide) (by decide)
    have hhead : mem (freeHead pools i) = 0 := (hinv.heap.freeList i).head_eq_zero_iff.2 rfl
    have hfresh : ∀ f ∈ poolsExtent pools :: (freeExtents (fun _ ↦ []) ++ [].map LiveBlock.extent),
        Extent.Disjoint ⟨mmapKernelHeapStart, pageSize * poolPageIncrease⟩ f := by
      have hnil : freeExtents (fun _ ↦ []) = [] := by simp [freeExtents]
      rw [hnil]
      exact List.forall_mem_singleton.2 (Or.inr hpools)
    have hcarved := hinv.heap.carve (i := i) rfl (by decide) hfresh
    obtain ⟨xs, hxs⟩ := blocks_cons mmapKernelHeapStart i
    have hlist := hcarved.freeList i
    rw [Function.update_self, hxs] at hlist
    refine ⟨?_, ?_⟩
    · simp only [KernelHeap.kmalloc, Kmalloc.kmalloc, hne, if_false, hpool]
      rw [alloc_of_pages_ne_zero MMU.allocPages ⟨mem, k⟩ hhead (by rw [hgrant]; decide)]
      dsimp only
      rw [hgrant, carvedMem, hlist.head_eq.1]
      rfl
    · rw [ownerOf, hpool]
      refine lt_of_le_of_lt (blockSize_le i) ?_
      simp only [headerSize]
      omega

end Bad

end KernelHeap

/-- **Safe sizes.** Take the kernel heap as `MMU_init` leaves it, with empty pools. A size is served
safely from every state that requests of good sizes, frees and client writes can reach, exactly if
it is good. -/
theorem kmalloc_safe_iff {k : Machine} (hpos : 0 < pools)
    (hpools : pools + 16 * numPools ≤ mmapKernelHeapStart)
    (hmem : ∀ i, mem (freeHead pools i) = 0) (hk : InRegions k.bumps)
    (hstart : k.bumps.1 = mmapKernelHeapStart) (hsize : size < wordSize) :
    (∀ cmds out s, runTrace (KernelHeap.step pools) ⟨mem, k, []⟩ cmds = some (out, s) →
      (s.kmalloc pools size).1 ≠ 0 →
        SafeAllocation pools s.live size (s.kmalloc pools size).1 (s.kmalloc pools size).2.mem) ↔
      GoodSize size := by
  have hinv : KernelHeap.Inv pools ⟨mem, k, []⟩ fun _ ↦ [] := by
    refine ⟨PoolSystem.heapInv_init hpos hmem, fun f hf ↦ ?_, hk⟩
    simp [freeExtents] at hf
  constructor
  · intro hsafe
    by_contra hbad
    obtain ⟨hret, hlen⟩ := KernelHeap.kmalloc_of_not_goodSize hpools hinv hstart hsize hbad
    have hinside := (hsafe [] [] _ rfl (hret ▸ add_headerSize_ne_zero _)).inside.2
    rw [hret, Nat.add_sub_cancel] at hinside
    omega
  · intro hgood cmds out s hrun hne
    obtain ⟨free, hfree⟩ := invariant_of_runTrace
      (I := fun s ↦ ∃ free, KernelHeap.Inv pools s free)
      (fun _ _ _ _ h hstep ↦ KernelHeap.inv_step hpools h hstep) ⟨_, hinv⟩ hrun
    exact hfree.safe hpools hgood hne

/-- The machine after `MMU_init`, with the heap pointer at the start of the heap. -/
def freshMachine : Machine := (MMU.initPaging 0 0 (poolOfPages 16)).2

theorem freshMachine_bumps :
    freshMachine.bumps = (mmapKernelHeapStart, mmapKernelStacksEnd - 8) := by decide +kernel

theorem freshMachine_inRegions : InRegions freshMachine.bumps := by
  rw [freshMachine_bumps]
  exact ⟨le_rfl, by decide, by decide, by decide, 0, by decide⟩

theorem kmalloc_safe_iff_freshMachine :
    (∀ cmds out s, runTrace (KernelHeap.step 0x1000) ⟨fun _ ↦ 0, freshMachine, []⟩ cmds =
        some (out, s) → (s.kmalloc 0x1000 5000).1 ≠ 0 →
          SafeAllocation 0x1000 s.live 5000 (s.kmalloc 0x1000 5000).1
            (s.kmalloc 0x1000 5000).2.mem) ↔ GoodSize 5000 :=
  kmalloc_safe_iff (by decide) (by decide) (fun _ ↦ rfl) freshMachine_inRegions
    (congrArg Prod.fst freshMachine_bumps) (by decide)

/-- **A request for one page is given one page**, header included: its last 16 bytes are outside. -/
theorem kmalloc_page_unsafe :
    (KernelHeap.kmalloc 0x1000 ⟨fun _ ↦ 0, freshMachine, []⟩ 4096).1 ≠ 0 ∧
      ¬SafeAllocation 0x1000 [] 4096
        (KernelHeap.kmalloc 0x1000 ⟨fun _ ↦ 0, freshMachine, []⟩ 4096).1
        (KernelHeap.kmalloc 0x1000 ⟨fun _ ↦ 0, freshMachine, []⟩ 4096).2.mem := by
  have hret : (KernelHeap.kmalloc 0x1000 ⟨fun _ ↦ 0, freshMachine, []⟩ 4096).1 =
      mmapKernelHeapStart + headerSize := by decide +kernel
  have howner : ownerOf 4096 = .run 1 := by decide
  refine ⟨hret ▸ by decide, fun hsafe ↦ ?_⟩
  have hinside := hsafe.inside.2
  rw [hret, howner, Nat.add_sub_cancel] at hinside
  exact absurd hinside (by decide)

end Kmalloc

end Marimba
