import Marimba.Kmalloc.Heap
import Marimba.Foundations.Transition

/-!
# The heap and its clients

Clients call `kmalloc` and `kfree` in any order and write into the bytes they asked for. The page
allocator is not modelled here: its **answer** is part of the command, either null or any run of
pages that overlaps nothing `kmalloc` has. `kmalloc_eq_answer` says that `kmalloc` over any page
allocator is `kmalloc` with the answer which that allocator gives, so what is proved here holds for
`MMU_alloc_pages`.

`PoolSystem` carries a ghost record of all blocks that were ever carved. `PoolPartition` is what a
reachable state guarantees: in each pool, the free blocks and the live blocks together are exactly
the carved blocks.
-/

namespace Marimba.Kmalloc

open Extent

variable {pools : ℕ} {mem : ℕ → ℕ} {free : Fin numPools → List ℕ} {live : List LiveBlock}
  {i : Fin numPools} {size pages : ℕ}

/-! ### The call of the page allocator -/

/-- The page allocator whose state is its next answer. -/
def answer (pages : ℕ) (_ : ℤ) : ℕ × ℕ := (pages, pages)

/-- The number of pages that `kmalloc` will ask for, if it asks at all. -/
def request (pools : ℕ) (mem : ℕ → ℕ) (size : ℕ) : Option ℤ :=
  if size = 0 then none
  else
    match findPool size with
    | some i => if mem (freeHead pools i) = 0 then some poolPageIncrease else none
    | none => some (numPages size)

/-- Taking the first block off a free list, as `kmalloc_alloc` does. -/
def popped (pools : ℕ) (mem : ℕ → ℕ) (i : Fin numPools) : ℕ → ℕ :=
  Function.update (Function.update mem (freeHead pools i) (mem (mem (freeHead pools i) + 8)))
    (mem (freeHead pools i) + 8) 0

/-- The memory after `kmalloc_increase_pool` has carved `pages`. -/
def carvedMem (pools : ℕ) (mem : ℕ → ℕ) (i : Fin numPools) (pages : ℕ) : ℕ → ℕ :=
  (carve (poolPtr pools i) (blockSize i) (poolPageIncrease * pageSize / blockSize i)
    ⟨mem, freeHead pools i, pages⟩).mem

section Alloc

variable {σ : Type*} (allocPages : σ → ℤ → ℕ × σ) (h : Kheap σ)

theorem alloc_of_head_ne_zero (hhead : h.mem (freeHead pools i) ≠ 0) :
    alloc allocPages (poolPtr pools i) (blockSize i) h =
      (h.mem (freeHead pools i), ⟨popped pools h.mem i, h.mmu⟩) := by
  rw [freeHead] at hhead
  simp only [alloc, hhead, if_false, lt_irrefl]
  rfl

theorem alloc_of_pages_eq_zero (hhead : h.mem (freeHead pools i) = 0)
    (hpages : (allocPages h.mmu poolPageIncrease).1 = 0) :
    alloc allocPages (poolPtr pools i) (blockSize i) h =
      (0, ⟨h.mem, (allocPages h.mmu poolPageIncrease).2⟩) := by
  rw [freeHead] at hhead
  simp only [alloc, increasePool, hhead, ne_eq, not_true, if_false, if_true, hpages]
  rfl

theorem alloc_of_pages_ne_zero (hhead : h.mem (freeHead pools i) = 0)
    (hpages : (allocPages h.mmu poolPageIncrease).1 ≠ 0) :
    alloc allocPages (poolPtr pools i) (blockSize i) h =
      (carvedMem pools h.mem i (allocPages h.mmu poolPageIncrease).1 (freeHead pools i),
        ⟨popped pools (carvedMem pools h.mem i (allocPages h.mmu poolPageIncrease).1) i,
          (allocPages h.mmu poolPageIncrease).2⟩) := by
  rw [freeHead] at hhead
  simp only [alloc, increasePool, hhead, ne_eq, not_true, if_false, if_true, hpages, lt_irrefl]
  rfl

end Alloc

/-- **`kmalloc` depends on its page allocator only through the one answer it gets.** -/
theorem kmalloc_eq_answer {σ : Type*} (allocPages : σ → ℤ → ℕ × σ) (h : Kheap σ) :
    kmalloc allocPages pools size h =
      match request pools h.mem size with
      | none => ((kmalloc answer pools size ⟨h.mem, 0⟩).1,
          ⟨(kmalloc answer pools size ⟨h.mem, 0⟩).2.mem, h.mmu⟩)
      | some n => ((kmalloc answer pools size ⟨h.mem, (allocPages h.mmu n).1⟩).1,
          ⟨(kmalloc answer pools size ⟨h.mem, (allocPages h.mmu n).1⟩).2.mem,
            (allocPages h.mmu n).2⟩) := by
  rcases eq_or_ne size 0 with rfl | hsize
  · rfl
  simp only [kmalloc, request, hsize, if_false]
  rcases hp : findPool size with - | i
  · by_cases hpages : (allocPages h.mmu (numPages size)).1 = 0
    · simp only [answer, hpages, if_true]
    · simp only [answer, hpages, if_false]
  · by_cases hhead : h.mem (freeHead pools i) = 0
    · simp only [hhead, if_true]
      by_cases hpages : (allocPages h.mmu poolPageIncrease).1 = 0
      · rw [alloc_of_pages_eq_zero allocPages h hhead hpages, hpages,
          alloc_of_pages_eq_zero answer ⟨h.mem, 0⟩ hhead rfl]
        rfl
      · rw [alloc_of_pages_ne_zero allocPages h hhead hpages,
          alloc_of_pages_ne_zero answer ⟨h.mem, _⟩ hhead hpages]
        by_cases hret : carvedMem pools h.mem i (allocPages h.mmu poolPageIncrease).1
            (freeHead pools i) = 0
        · simp only [answer, hret, if_true]
        · simp only [answer, hret, if_false]
    · simp only [hhead, if_false]
      rw [alloc_of_head_ne_zero allocPages h hhead, alloc_of_head_ne_zero answer ⟨h.mem, 0⟩ hhead]
      simp only [hhead, if_false]

/-! ### What a call can do -/

theorem add_headerSize_ne_zero (b : ℕ) : b + headerSize ≠ 0 := Nat.succ_ne_zero (b + 15)

/-- Everything `kmalloc` can do to a heap, with the invariant of what it leaves behind. -/
inductive Outcome (pools : ℕ) (mem : ℕ → ℕ) (free : Fin numPools → List ℕ) (live : List LiveBlock)
    (size pages : ℕ) : ℕ → (ℕ → ℕ) → Prop
  | nothing (hsize : size = 0) : Outcome pools mem free live size pages 0 mem
  | exhausted {i : Fin numPools} (hsize : size ≠ 0) (hpool : findPool size = some i)
      (hfree : free i = []) (hpages : pages = 0) : Outcome pools mem free live size pages 0 mem
  | refused (hsize : size ≠ 0) (hpool : findPool size = none) (hpages : pages = 0) :
      Outcome pools mem free live size pages 0 mem
  | pooled {i : Fin numPools} {b : ℕ} {xs : List ℕ} {mem' : ℕ → ℕ} (hsize : size ≠ 0)
      (hpool : findPool size = some i) (hfree : free i = b :: xs)
      (hinv : HeapInv pools mem' (Function.update free i xs) (⟨.pool i, b, size⟩ :: live)) :
      Outcome pools mem free live size pages (b + headerSize) mem'
  | grown {i : Fin numPools} {xs : List ℕ} {mem' : ℕ → ℕ} (hsize : size ≠ 0)
      (hpool : findPool size = some i) (hfree : free i = []) (hpages : pages ≠ 0)
      (hblocks : blocks pages (blockSize i) (poolPageIncrease * pageSize / blockSize i) =
        pages :: xs)
      (hinv : HeapInv pools mem' (Function.update free i xs) (⟨.pool i, pages, size⟩ :: live)) :
      Outcome pools mem free live size pages (pages + headerSize) mem'
  | paged {mem' : ℕ → ℕ} (hsize : size ≠ 0) (hpool : findPool size = none) (hpages : pages ≠ 0)
      (hinv : HeapInv pools mem' free (⟨.run (numPages size).toNat, pages, size⟩ :: live)) :
      Outcome pools mem free live size pages (pages + headerSize) mem'

/-- Who the block for a request will belong to. -/
def ownerOf (size : ℕ) : Owner :=
  match findPool size with
  | some i => .pool i
  | none => .run (numPages size).toNat

/-- The block for a request has room for it; or it is a run of pages that is not granted. -/
def Fits (size pages : ℕ) : Prop :=
  size + headerSize ≤ (ownerOf size).len ∨ (findPool size = none ∧ pages = 0)

instance (size pages : ℕ) : Decidable (Fits size pages) := inferInstanceAs (Decidable (_ ∨ _))

/-- The pool of a request, and when there is one. The sum of `kmalloc` wraps. -/
theorem le_blockSize_of_findPool (h : findPool size = some i) :
    wadd size headerSize ≤ blockSize i := by
  simpa using List.find?_some h

theorem findPool_eq_none_iff : findPool size = none ↔ 2048 < wadd size headerSize := by
  rw [findPool, List.find?_eq_none]
  constructor
  · intro h
    have hlast : ¬wadd size headerSize ≤ blockSize 5 := by simpa using h 5 (List.mem_finRange 5)
    exact not_le.1 hlast
  · intro h i _
    simpa using (blockSize_le i).trans_lt h

/-- Requests of up to 2032 bytes are served from a pool. -/
theorem exists_findPool (hsize : size ≤ 2032) : ∃ i, findPool size = some i := by
  refine Option.ne_none_iff_exists'.1 fun hnone ↦ ?_
  rw [findPool_eq_none_iff, wadd_of_lt (by simp only [headerSize, wordSize]; omega)] at hnone
  simp only [headerSize] at hnone
  omega

theorem fits_of_le (hsize : size ≤ 2032) : Fits size pages := by
  obtain ⟨i, hi⟩ := exists_findPool hsize
  have hle := le_blockSize_of_findPool hi
  rw [wadd_of_lt (by simp only [headerSize, wordSize]; omega)] at hle
  refine Or.inl ?_
  rw [ownerOf, hi]
  exact hle

/-- An answer of the page allocator: null, or pages that overlap nothing in `used`. -/
def Answer (used : List Extent) (n : ℤ) (pages : ℕ) : Prop :=
  pages = 0 ∨ (0 < n ∧ pages % pageSize = 0 ∧
    ∀ f ∈ used, Extent.Disjoint ⟨pages, pageSize * n.toNat⟩ f)

instance (used : List Extent) (n : ℤ) (pages : ℕ) : Decidable (Answer used n pages) :=
  inferInstanceAs (Decidable (_ ∨ _))

theorem blocks_cons (pages : ℕ) (i : Fin numPools) :
    ∃ xs, blocks pages (blockSize i) (poolPageIncrease * pageSize / blockSize i) = pages :: xs := by
  have hpos : 0 < poolPageIncrease * pageSize / blockSize i := by
    revert i
    decide
  obtain ⟨n, hn⟩ := Nat.exists_eq_succ_of_ne_zero hpos.ne'
  rw [hn, blocks, List.range_succ_eq_map]
  exact ⟨_, rfl⟩

/-- **One call of `kmalloc`.** -/
theorem kmalloc_outcome (h : HeapInv pools mem free live) (hfits : Fits size pages)
    (hanswer : ∀ n ∈ request pools mem size,
      Answer (poolsExtent pools :: (freeExtents free ++ live.map LiveBlock.extent)) n pages) :
    Outcome pools mem free live size pages (kmalloc answer pools size ⟨mem, pages⟩).1
      (kmalloc answer pools size ⟨mem, pages⟩).2.mem := by
  rcases eq_or_ne size 0 with hsize | hsize
  · simp only [kmalloc, hsize, if_true]
    exact Outcome.nothing rfl
  simp only [kmalloc, request, hsize, if_false] at hanswer ⊢
  rcases hp : findPool size with - | i
  · simp only [hp, Option.mem_def, Option.some.injEq, forall_eq'] at hanswer
    rcases eq_or_ne pages 0 with hpages | hpages
    · simp only [answer, hpages, if_true]
      exact Outcome.refused hsize hp rfl
    · obtain ⟨hpos, -, hfresh⟩ := hanswer.resolve_left hpages
      have hroom : size + headerSize ≤ pageSize * (numPages size).toNat := by
        simpa only [Fits, ownerOf, hp, Owner.len, hpages, and_false, or_false] using hfits
      simp only [answer, hpages, if_false]
      exact Outcome.paged hsize hp hpages (h.newRun hpages hroom hfresh)
  · have hroom : size + headerSize ≤ blockSize i := by
      simpa only [Fits, ownerOf, hp, Owner.len, reduceCtorEq, false_and, or_false] using hfits
    rcases hfree : free i with - | ⟨b, xs⟩
    · have hhead := (h.freeList i).head_eq_zero_iff.2 hfree
      simp only [hp, hhead, if_true, Option.mem_def, Option.some.injEq, forall_eq'] at hanswer
      rcases eq_or_ne pages 0 with hpages | hpages
      · dsimp only
        rw [alloc_of_pages_eq_zero answer ⟨mem, pages⟩ hhead hpages]
        exact Outcome.exhausted hsize hp hfree hpages
      · obtain ⟨-, -, hfresh⟩ := hanswer.resolve_left hpages
        have hcarved : HeapInv pools (carvedMem pools mem i pages) _ live :=
          h.carve hfree hpages hfresh
        obtain ⟨xs, hxs⟩ := blocks_cons pages i
        have hfree' := (Function.update_self i
          (blocks pages (blockSize i) (poolPageIncrease * pageSize / blockSize i)) free).trans hxs
        have hhead' := ((hfree' ▸ hcarved.freeList i).head_eq).1
        have hpop := hcarved.pop hfree' hroom
        rw [Function.update_idem] at hpop
        dsimp only
        rw [alloc_of_pages_ne_zero answer ⟨mem, pages⟩ hhead hpages]
        simp only [answer, popped, hhead', hpages, if_false]
        exact Outcome.grown hsize hp hfree hpages hxs hpop
    · have hhead := (hfree ▸ h.freeList i).head_eq
      have hpop := h.pop hfree hroom
      dsimp only
      rw [alloc_of_head_ne_zero answer ⟨mem, pages⟩ (hhead.1 ▸ hhead.2 : mem _ ≠ 0)]
      simp only [popped, hhead.1, hhead.2, if_false]
      exact Outcome.pooled hsize hp hfree hpop

section Kfree

variable {σ : Type*} (freePages : σ → ℕ → ℤ → σ) {h : Kheap σ} {a : LiveBlock}
  (hheap : HeapInv pools h.mem free live) (ha : a ∈ live)

include hheap ha

/-- `kfree` of a block from a pool. -/
theorem kfree_of_pool (howner : a.owner = .pool i) :
    kfree freePages a.ptr h =
      ⟨Function.update (Function.update h.mem (a.base + 8) (h.mem (freeHead pools i)))
        (freeHead pools i) a.base, h.mmu⟩ := by
  have hblock : a.ptr - headerSize = a.base := Nat.add_sub_cancel ..
  have hheader : h.mem a.base = poolPtr pools i := by
    rw [hheap.header a ha, howner]
    rfl
  simp only [kfree, hblock, hheader, poolPtr_ne_zero hheap.pools_pos i, if_false]
  rfl

/-- `kfree` of a run of pages, with the page count that was stored in the header. -/
theorem kfree_of_run {n : ℕ} (howner : a.owner = .run n) :
    kfree freePages a.ptr h =
      { h with mmu := freePages h.mmu a.base ((n : ℤ).bmod (2 ^ 32)) } := by
  have hblock : a.ptr - headerSize = a.base := Nat.add_sub_cancel ..
  have hheader : h.mem a.base = 0 := by
    rw [hheap.header a ha, howner]
    rfl
  simp only [kfree, hblock, hheader, hheap.pages a ha n howner, if_true]

end Kfree

/-! ### The system -/

/-- What clients do. The answer of the page allocator comes with the request. -/
inductive KmallocCmd where
  | kmalloc (size pages : ℕ)
  | kfree (p : ℕ)
  | write (p k w : ℕ)

/-- The memory, the blocks that were ever carved for each pool, and the live blocks. -/
structure PoolSystem where
  mem : ℕ → ℕ
  carved : Fin numPools → List ℕ
  live : List LiveBlock

namespace PoolSystem

/-- Everything that new pages must not overlap. -/
def used (pools : ℕ) (s : PoolSystem) : List Extent :=
  poolsExtent pools :: (freeExtents s.carved ++ s.live.map LiveBlock.extent)

/-- The record of carved blocks after a request: `kmalloc_increase_pool` has run if the pool was
empty and pages were granted. -/
def grow (pools : ℕ) (s : PoolSystem) (size pages : ℕ) : Fin numPools → List ℕ :=
  match findPool size with
  | some i =>
    if size ≠ 0 ∧ s.mem (freeHead pools i) = 0 ∧ pages ≠ 0 then
      Function.update s.carved i
        (blocks pages (blockSize i) (poolPageIncrease * pageSize / blockSize i) ++ s.carved i)
    else s.carved
  | none => s.carved

/-- The live block with a given pointer. -/
def find (s : PoolSystem) (p : ℕ) : Option LiveBlock := s.live.find? fun a ↦ a.ptr = p

/-- A request that may be made, with an answer that may be given to it. -/
def Allowed (pools : ℕ) (s : PoolSystem) (size pages : ℕ) : Prop :=
  Fits size pages ∧ ∀ n ∈ (request pools s.mem size).toList, Answer (s.used pools) n pages

instance (pools : ℕ) (s : PoolSystem) (size pages : ℕ) : Decidable (s.Allowed pools size pages) :=
  inferInstanceAs (Decidable (_ ∧ _))

/-- One command. Clients free live pointers only, and write only words that meet the bytes they
asked for. -/
def step (pools : ℕ) (s : PoolSystem) : KmallocCmd → Option (ℕ × PoolSystem)
  | .kmalloc size pages =>
    if s.Allowed pools size pages then
      let (p, h) := kmalloc answer pools size ⟨s.mem, pages⟩
      some (p, ⟨h.mem, s.grow pools size pages,
        if p = 0 then s.live else ⟨ownerOf size, p - headerSize, size⟩ :: s.live⟩)
    else none
  | .kfree p =>
    (s.find p).map fun a ↦
      (0, ⟨(kfree (fun mmu _ _ ↦ mmu) p ⟨s.mem, ()⟩).mem, s.carved, s.live.erase a⟩)
  | .write p k w =>
    (s.find p).bind fun a ↦
      if 8 * k < a.size then some (0, { s with mem := Function.update s.mem (p + 8 * k) w })
      else none

/-- The live blocks of a pool. -/
def liveOf (i : Fin numPools) (live : List LiveBlock) : List ℕ :=
  live.filterMap fun a ↦ if a.owner = .pool i then some a.base else none

/-- The invariant of runs: the heap invariant, with every carved block free or live. -/
def Inv (pools : ℕ) (s : PoolSystem) : Prop :=
  ∃ free, HeapInv pools s.mem free s.live ∧ ∀ i, (free i ++ liveOf i s.live).Perm (s.carved i)

variable {s s' : PoolSystem} {r : ℕ}

theorem liveOf_cons_pool (i j : Fin numPools) (b size : ℕ) (live : List LiveBlock) :
    liveOf j (⟨.pool i, b, size⟩ :: live) =
      if j = i then b :: liveOf j live else liveOf j live := by
  rcases eq_or_ne j i with rfl | hne
  · simp [liveOf]
  · simp [liveOf, hne, hne.symm]

theorem liveOf_cons_run (j : Fin numPools) (n b size : ℕ) (live : List LiveBlock) :
    liveOf j (⟨.run n, b, size⟩ :: live) = liveOf j live := by
  simp [liveOf]

theorem mem_liveOf {b : ℕ} : b ∈ liveOf i live ↔ ∃ a ∈ live, a.owner = .pool i ∧ a.base = b := by
  simp [liveOf]

theorem liveOf_erase {a : LiveBlock} (ha : a ∈ live) (j : Fin numPools) :
    (liveOf j live).Perm (if a.owner = .pool j then a.base :: liveOf j (live.erase a)
      else liveOf j (live.erase a)) := by
  have hperm : (liveOf j live).Perm (liveOf j (a :: live.erase a)) :=
    (List.perm_cons_erase ha).filterMap _
  refine hperm.trans (List.Perm.of_eq ?_)
  by_cases hj : a.owner = .pool j
  · simp [liveOf, hj]
  · simp [liveOf, hj]

/-- What overlaps no carved block overlaps no free block. -/
theorem answer_of_used {n : ℤ} (hperm : ∀ i, (free i ++ liveOf i s.live).Perm (s.carved i))
    (h : Answer (s.used pools) n pages) :
    Answer (poolsExtent pools :: (freeExtents free ++ s.live.map LiveBlock.extent)) n pages := by
  refine h.imp_right fun ⟨hn, hal, hfresh⟩ ↦ ⟨hn, hal, fun f hf ↦ hfresh f ?_⟩
  rcases List.mem_cons.1 hf with rfl | hf
  · exact List.mem_cons_self
  · refine List.mem_cons_of_mem _ ?_
    rcases List.mem_append.1 hf with hf | hf
    · obtain ⟨i, b, hb, rfl⟩ := mem_freeExtents.1 hf
      refine List.mem_append_left _ (mem_freeExtents.2 ⟨i, b, ?_, rfl⟩)
      exact (hperm i).subset (List.mem_append_left _ hb)
    · exact List.mem_append_right _ hf

/-- The outcome of a request that may be made. -/
theorem outcome (hheap : HeapInv pools s.mem free s.live)
    (hperm : ∀ i, (free i ++ liveOf i s.live).Perm (s.carved i)) (h : s.Allowed pools size pages) :
    Outcome pools s.mem free s.live size pages (kmalloc answer pools size ⟨s.mem, pages⟩).1
      (kmalloc answer pools size ⟨s.mem, pages⟩).2.mem :=
  kmalloc_outcome hheap h.1 fun n hn ↦ answer_of_used hperm (h.2 n (Option.mem_toList.2 hn))

/-- Moving a free block to the live blocks of its pool. -/
theorem perm_pop {b : ℕ} {xs : List ℕ} {carved : Fin numPools → List ℕ}
    (hperm : ∀ j, (Function.update free i (b :: xs) j ++ liveOf j live).Perm (carved j)) :
    ∀ j, (Function.update free i xs j ++ liveOf j (⟨.pool i, b, size⟩ :: live)).Perm
      (carved j) := by
  intro j
  refine List.Perm.trans ?_ (hperm j)
  rcases eq_or_ne j i with rfl | hne
  · rw [Function.update_self, Function.update_self, liveOf_cons_pool, if_pos rfl]
    exact List.perm_middle
  · rw [Function.update_of_ne hne, Function.update_of_ne hne, liveOf_cons_pool, if_neg hne]

theorem inv_kmalloc (hinv : s.Inv pools) (hallowed : s.Allowed pools size pages) :
    Inv pools ⟨(kmalloc answer pools size ⟨s.mem, pages⟩).2.mem, s.grow pools size pages,
      if (kmalloc answer pools size ⟨s.mem, pages⟩).1 = 0 then s.live
      else ⟨ownerOf size, (kmalloc answer pools size ⟨s.mem, pages⟩).1 - headerSize, size⟩ ::
        s.live⟩ := by
  obtain ⟨free, hheap, hperm⟩ := hinv
  have hout := outcome hheap hperm hallowed
  generalize (kmalloc answer pools size ⟨s.mem, pages⟩).1 = p at hout
  generalize (kmalloc answer pools size ⟨s.mem, pages⟩).2.mem = mem' at hout
  cases hout with
  | nothing hsize =>
    refine ⟨free, hheap, ?_⟩
    have hgrow : s.grow pools size pages = s.carved := by
      rw [grow]
      split
      · exact if_neg fun h ↦ h.1 hsize
      · rfl
    simpa only [hgrow, if_true] using hperm
  | @exhausted i hsize hpool hfree hpages =>
    refine ⟨free, hheap, ?_⟩
    have hgrow : s.grow pools size pages = s.carved := by
      rw [grow, hpool]
      exact if_neg fun h ↦ h.2.2 hpages
    simpa only [hgrow, if_true] using hperm
  | refused hsize hpool hpages =>
    refine ⟨free, hheap, ?_⟩
    have hgrow : s.grow pools size pages = s.carved := by rw [grow, hpool]
    simpa only [hgrow, if_true] using hperm
  | @pooled i b xs _ hsize hpool hfree hinv =>
    have hhead := (hfree ▸ hheap.freeList i).head_eq
    have hgrow : s.grow pools size pages = s.carved := by
      rw [grow, hpool]
      exact if_neg fun h ↦ hhead.2 (hhead.1 ▸ h.2.1)
    have howner : ownerOf size = .pool i := by rw [ownerOf, hpool]
    rw [hgrow, if_neg (add_headerSize_ne_zero _), howner, Nat.add_sub_cancel]
    refine ⟨Function.update free i xs, hinv, perm_pop ?_⟩
    rw [← hfree, Function.update_eq_self]
    exact hperm
  | @grown i xs _ hsize hpool hfree hpages hblocks hinv =>
    have hhead := (hheap.freeList i).head_eq_zero_iff.2 hfree
    have hgrow : s.grow pools size pages =
        Function.update s.carved i (pages :: xs ++ s.carved i) := by
      rw [grow, hpool]
      dsimp only
      rw [if_pos ⟨hsize, hhead, hpages⟩, hblocks]
    have howner : ownerOf size = .pool i := by rw [ownerOf, hpool]
    rw [hgrow, if_neg (add_headerSize_ne_zero _), howner, Nat.add_sub_cancel]
    refine ⟨Function.update free i xs, hinv, perm_pop fun j ↦ ?_⟩
    dsimp only
    rcases eq_or_ne j i with rfl | hne
    · rw [Function.update_self, Function.update_self]
      have := hperm j
      rw [hfree, List.nil_append] at this
      exact this.append_left _
    · rw [Function.update_of_ne hne, Function.update_of_ne hne]
      exact hperm j
  | paged hsize hpool hpages hinv =>
    have hgrow : s.grow pools size pages = s.carved := by rw [grow, hpool]
    have howner : ownerOf size = .run (numPages size).toNat := by rw [ownerOf, hpool]
    rw [hgrow, if_neg (add_headerSize_ne_zero _), howner, Nat.add_sub_cancel]
    refine ⟨free, hinv, fun j ↦ ?_⟩
    rw [liveOf_cons_run]
    exact hperm j

theorem mem_live_of_find {a : LiveBlock} {p : ℕ} (h : s.find p = some a) :
    a ∈ s.live ∧ a.ptr = p :=
  ⟨List.mem_of_find?_eq_some h, by simpa using List.find?_some h⟩

theorem inv_kfree {a : LiveBlock} (hinv : s.Inv pools) (ha : a ∈ s.live) :
    Inv pools ⟨(kfree (fun mmu _ _ ↦ mmu) a.ptr ⟨s.mem, ()⟩).mem, s.carved, s.live.erase a⟩ := by
  obtain ⟨free, hheap, hperm⟩ := hinv
  rcases howner : a.owner with i | n
  · -- a block of a pool moves to the front of the pool's list
    rw [kfree_of_pool _ hheap ha howner]
    refine ⟨Function.update free i (a.base :: free i), hheap.push ha howner, fun j ↦ ?_⟩
    refine List.Perm.trans ?_ (hperm j)
    have herase := liveOf_erase ha j
    rw [howner] at herase
    rcases eq_or_ne j i with rfl | hne
    · rw [Function.update_self]
      rw [if_pos rfl] at herase
      exact List.perm_middle.symm.trans (herase.symm.append_left _)
    · rw [Function.update_of_ne hne]
      rw [if_neg fun e ↦ hne (Owner.pool.inj e).symm] at herase
      exact herase.symm.append_left _
  · -- a run of pages goes back to the page allocator
    rw [kfree_of_run _ hheap ha howner]
    refine ⟨free, hheap.erase ha, fun j ↦ List.Perm.trans ?_ (hperm j)⟩
    have herase := liveOf_erase ha j
    rw [howner, if_neg (by simp)] at herase
    exact herase.symm.append_left _

/-- **Every command preserves the invariant.** -/
theorem inv_step (hinv : s.Inv pools) {c : KmallocCmd} (hstep : s.step pools c = some (r, s')) :
    s'.Inv pools := by
  cases c with
  | kmalloc size pages =>
    obtain ⟨hallowed, heq⟩ := Option.ite_none_right_eq_some.1 hstep
    obtain ⟨-, rfl⟩ := Prod.mk.inj (Option.some.inj heq)
    exact inv_kmalloc hinv hallowed
  | kfree p =>
    obtain ⟨a, hfind, heq⟩ := Option.map_eq_some_iff.1 hstep
    obtain ⟨-, rfl⟩ := Prod.mk.inj heq
    obtain ⟨ha, rfl⟩ := mem_live_of_find hfind
    exact inv_kfree hinv ha
  | write p k w =>
    obtain ⟨a, hfind, heq⟩ := Option.bind_eq_some_iff.1 hstep
    obtain ⟨hk, heq⟩ := Option.ite_none_right_eq_some.1 heq
    obtain ⟨-, rfl⟩ := Prod.mk.inj (Option.some.inj heq)
    obtain ⟨ha, rfl⟩ := mem_live_of_find hfind
    obtain ⟨free, hheap, hperm⟩ := hinv
    exact ⟨free, hheap.write ha hk w, hperm⟩

theorem inv_runTrace {cmds : List KmallocCmd} {out : List ℕ} (hinv : s.Inv pools)
    (hrun : runTrace (step pools) s cmds = some (out, s')) : s'.Inv pools :=
  invariant_of_runTrace (fun _ _ _ _ h hstep ↦ inv_step h hstep) hinv hrun

/-- Before the first request: the pools are empty and nothing is live. -/
theorem heapInv_init (hpos : 0 < pools) (hmem : ∀ i, mem (freeHead pools i) = 0) :
    HeapInv pools mem (fun _ ↦ []) [] := by
  refine ⟨fun i ↦ ⟨?_, by simp⟩, by simp, by simp, by simp, by simp, hpos, ?_⟩
  · exact toPtr_eq_none_iff.2 (hmem i)
  · have hnil : freeExtents (fun _ ↦ []) = [] := by simp [freeExtents]
    rw [hnil]
    exact List.pairwise_singleton _ _

theorem inv_init (hpos : 0 < pools) (hmem : ∀ i, mem (freeHead pools i) = 0) :
    Inv pools ⟨mem, fun _ ↦ [], []⟩ :=
  ⟨fun _ ↦ [], heapInv_init hpos hmem, fun _ ↦ List.Perm.refl _⟩

/-! ### The partition -/

/-- **What every reachable state guarantees.** In every pool the free list ends in a null pointer
and repeats no block, every block ever carved is free or live, exactly once; live blocks name their
pool; carved blocks are pairwise disjoint. And a request for a pool fails only if the pool is empty
and no pages are granted, in which case nothing changes. -/
structure PoolPartition (pools : ℕ) (s : PoolSystem) (free : Fin numPools → List ℕ) : Prop where
  freeList : ∀ i, FreeList pools s.mem i (free i)
  perm : ∀ i, (free i ++ liveOf i s.live).Perm (s.carved i)
  nodup : ∀ i, (s.carved i).Nodup
  header : ∀ a ∈ s.live, s.mem a.base = a.owner.header pools
  disjoint : ∀ i j, ∀ b ∈ s.carved i, ∀ x ∈ s.carved j, (i, b) ≠ (j, x) →
    Extent.Disjoint ⟨b, blockSize i⟩ ⟨x, blockSize j⟩
  null_iff : ∀ size pages, 1 ≤ size → size ≤ 2032 →
    (∀ n ∈ (request pools s.mem size).toList, Answer (s.used pools) n pages) →
    ∃ i, findPool size = some i ∧
      ((kmalloc answer pools size ⟨s.mem, pages⟩).1 = 0 ↔ free i = [] ∧ pages = 0) ∧
      ((kmalloc answer pools size ⟨s.mem, pages⟩).1 = 0 →
        (kmalloc answer pools size ⟨s.mem, pages⟩).2.mem = s.mem)

theorem liveOf_disjoint (hheap : HeapInv pools mem free live) {i j : Fin numPools} {b x : ℕ}
    (hb : b ∈ liveOf i live) (hx : x ∈ liveOf j live) (hne : (i, b) ≠ (j, x)) :
    Extent.Disjoint ⟨b, blockSize i⟩ ⟨x, blockSize j⟩ := by
  obtain ⟨a, ha, hai, rfl⟩ := mem_liveOf.1 hb
  obtain ⟨a', ha', haj, rfl⟩ := mem_liveOf.1 hx
  have hne' : a' ≠ a := by
    rintro rfl
    exact hne (by rw [Owner.pool.inj (hai.symm.trans haj)])
  have hdisj := hheap.live_live ha ((List.mem_erase_of_ne hne').2 ha')
  simpa only [LiveBlock.extent, hai, haj, Owner.len] using hdisj

/-- The live blocks of a pool are distinct, because they are separate. -/
theorem liveOf_nodup (hheap : HeapInv pools mem free live) (i : Fin numPools) :
    (liveOf i live).Nodup := by
  have hsep := (List.pairwise_append.1 (List.pairwise_cons.1 hheap.separate).2).2.1
  rw [List.pairwise_map] at hsep
  refine List.Pairwise.filterMap _ (fun a a' hdisj b hb x hx ↦ ?_)
    (hsep.imp_of_mem fun ha ha' h ↦ (⟨ha, ha', h⟩ : _ ∧ _ ∧ _))
  obtain ⟨ha, ha', hdisj⟩ := hdisj
  obtain rfl := Option.some.inj (Option.ite_none_right_eq_some.1 hb).2
  obtain rfl := Option.some.inj (Option.ite_none_right_eq_some.1 hx).2
  exact hdisj.ne (hheap.live_has_header ha).1 (hheap.live_has_header ha').1

/-- The partition, from the invariant. -/
theorem poolPartition_of_inv (hheap : HeapInv pools s.mem free s.live)
    (hperm : ∀ i, (free i ++ liveOf i s.live).Perm (s.carved i)) : s.PoolPartition pools free where
  freeList := hheap.freeList
  perm := hperm
  nodup := by
    intro i
    refine (hperm i).nodup_iff.1 (List.nodup_append.2 ⟨(hheap.freeList i).chain.nodup,
      liveOf_nodup hheap i, fun b hb x hx ↦ ?_⟩)
    obtain ⟨a, ha, -, rfl⟩ := mem_liveOf.1 hx
    exact (hheap.free_live hb ha).ne (has_header (headerSize_lt_blockSize i).le).1
      (hheap.live_has_header ha).1
  header := hheap.header
  disjoint := by
    intro i j b hb x hx hne
    have hlive : ∀ {i j : Fin numPools} {b x : ℕ}, b ∈ free i → x ∈ liveOf j s.live →
        Extent.Disjoint ⟨b, blockSize i⟩ ⟨x, blockSize j⟩ := by
      intro i j b x hb hx
      obtain ⟨a, ha, haj, rfl⟩ := mem_liveOf.1 hx
      simpa only [LiveBlock.extent, haj, Owner.len] using hheap.free_live hb ha
    rcases List.mem_append.1 ((hperm i).mem_iff.2 hb) with hb | hb <;>
      rcases List.mem_append.1 ((hperm j).mem_iff.2 hx) with hx | hx
    · exact hheap.free_free hb hx hne
    · exact hlive hb hx
    · exact (hlive hx hb).symm
    · exact liveOf_disjoint hheap hb hx hne
  null_iff := by
    intro size pages hpos hsize hanswer
    obtain ⟨i, hi⟩ := exists_findPool hsize
    refine ⟨i, hi, ?_⟩
    have hout := outcome hheap hperm ⟨fits_of_le hsize, hanswer⟩
    generalize (kmalloc answer pools size ⟨s.mem, pages⟩).1 = p at hout
    generalize (kmalloc answer pools size ⟨s.mem, pages⟩).2.mem = mem' at hout
    cases hout with
    | nothing h₀ => exact absurd h₀ (by omega)
    | exhausted _ hpool hfree hpages =>
      obtain rfl := Option.some.inj (hi.symm.trans hpool)
      exact ⟨⟨fun _ ↦ ⟨hfree, hpages⟩, fun _ ↦ rfl⟩, fun _ ↦ rfl⟩
    | refused _ hpool => exact absurd (hi.symm.trans hpool) (by simp)
    | pooled _ hpool hfree =>
      obtain rfl := Option.some.inj (hi.symm.trans hpool)
      simp [hfree, headerSize]
    | grown _ _ _ hpages => simp [hpages, headerSize]
    | paged _ hpool => exact absurd (hi.symm.trans hpool) (by simp)

end PoolSystem

/-- **The pools partition the carved blocks**, in every state that clients can reach. -/
theorem pools_partition (hpos : 0 < pools) (hmem : ∀ i, mem (freeHead pools i) = 0)
    {cmds : List KmallocCmd} {out : List ℕ} {s : PoolSystem}
    (hrun : runTrace (PoolSystem.step pools) ⟨mem, fun _ ↦ [], []⟩ cmds = some (out, s)) :
    ∃ free, s.PoolPartition pools free := by
  obtain ⟨free, hheap, hperm⟩ :=
    PoolSystem.inv_runTrace (PoolSystem.inv_init hpos hmem) hrun
  exact ⟨free, PoolSystem.poolPartition_of_inv hheap hperm⟩

/-- Two requests from one pool, a write and a free. -/
theorem pools_partition_twoBlocks :
    ∃ out s, runTrace (PoolSystem.step 8) ⟨fun _ ↦ 0, fun _ ↦ [], []⟩
        [.kmalloc 16 0x10000, .kmalloc 10 0, .write 0x10010 1 7, .kfree 0x10010, .kmalloc 600 0] =
          some (out, s) ∧ ∃ free, s.PoolPartition 8 free := by
  have hsome : (runTrace (PoolSystem.step 8) ⟨fun _ ↦ 0, fun _ ↦ [], []⟩
      [.kmalloc 16 0x10000, .kmalloc 10 0, .write 0x10010 1 7, .kfree 0x10010,
        .kmalloc 600 0]).isSome := by decide +kernel
  obtain ⟨⟨out, s⟩, hrun⟩ := Option.isSome_iff_exists.1 hsome
  exact ⟨out, s, hrun, pools_partition (by decide) (fun _ ↦ rfl) hrun⟩

end Marimba.Kmalloc
