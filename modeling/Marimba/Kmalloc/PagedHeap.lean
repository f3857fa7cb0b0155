import Marimba.Kmalloc.Paged
import Marimba.Kmalloc.Sizes

/-!
# The heap and its clients over demand-paged memory

The same clients as in `KernelHeap`, on the machine: their stores may fault in pages too, `kfree` of
a large block gives frames back, and new pages come up with whatever their frames last held.

`PagedHeap.runTrace_simulates` says that none of this can be noticed. **Every run is a run on a
plain memory, with the same pointers returned**, and the processor reads, of every word that a
client has stored in a live block, what the plain memory holds. So what is proved of the runs of
`KernelHeap` is true of the machine.

A run of pages of two gigabytes or more is left out: `MMU_free_pages` frees other pages than those
of the run, so `kfree` of such a block is not what it is on a plain memory.
-/

namespace Marimba.Kmalloc

open Extent

variable {identityP3 identityP2 : ℕ} {frames : List ℕ} {known known' : Set ℕ} {pools size p : ℕ}
  {mem mem' : ℕ → ℕ} {free free' : Fin numPools → List ℕ} {live live' : List LiveBlock}
  {k' : Machine}

/-! ### The system -/

/-- The memory manager, the live blocks, and the addresses of the words that clients have stored in
them. -/
structure PagedHeap where
  sys : MemSystem
  live : List LiveBlock
  stored : List ℕ

namespace PagedHeap

/-- The live block with a given pointer. -/
def find (s : PagedHeap) (p : ℕ) : Option LiveBlock := s.live.find? fun a ↦ a.ptr = p

/-- The memory manager with another machine. -/
def withMachine (s : PagedHeap) (k : Machine) : MemSystem := { s.sys with machine := k }

/-- One command, when it returns. -/
def step (pools : ℕ) (s : PagedHeap) : HeapCmd → Option (ℕ × PagedHeap)
  | .kmalloc size =>
    if GoodSize size ∧ size < pageSize * intSpan then
      (Paged.kmalloc pools size s.sys.machine).map fun r ↦
        (r.1, ⟨s.withMachine r.2,
          if r.1 = 0 then s.live else ⟨ownerOf size, r.1 - headerSize, size⟩ :: s.live, s.stored⟩)
    else none
  | .kfree p =>
    (s.find p).bind fun a ↦
      (Paged.kfree p s.sys.machine).map fun k ↦
        (0, ⟨s.withMachine k, s.live.erase a,
          s.stored.filter fun v ↦ ¬(p ≤ v ∧ v < p + a.size)⟩)
  | .write p j w =>
    (s.find p).bind fun a ↦
      if 8 * j < a.size then
        (writeWord (p + 8 * j) w s.sys.machine).map fun k ↦
          (0, ⟨s.withMachine k, s.live, (p + 8 * j) :: s.stored⟩)
      else none

end PagedHeap

/-! ### What is known about the blocks -/

/-- A block whose header is known, in the heap region. -/
def KnownBlock (known : Set ℕ) (b : ℕ) : Prop :=
  mmapKernelHeapStart ≤ b ∧ b ∈ known ∧ b + 8 ∈ known

/-- All that `kmalloc` and `kfree` may read: the `free_head` of each pool and the headers of all
blocks. Runs of pages are whole pages, less than two gigabytes. -/
structure BlocksKnown (pools : ℕ) (known : Set ℕ) (free : Fin numPools → List ℕ)
    (live : List LiveBlock) : Prop where
  head : ∀ i, freeHead pools i ∈ known
  ofFree : ∀ i, ∀ b ∈ free i, KnownBlock known b
  ofLive : ∀ a ∈ live, KnownBlock known a.base
  run : ∀ a ∈ live, ∀ n, a.owner = .run n → n ≤ intSpan ∧ a.base % pageSize = 0

/-- The memory determines the free lists. -/
theorem HeapInv.free_unique (h : HeapInv pools mem free live) (h' : HeapInv pools mem free' live') :
    free = free' :=
  funext fun i ↦ (h.freeList i).chain.unique (h'.freeList i).chain

namespace BlocksKnown

variable {a : LiveBlock} {pages : ℕ}

theorem mono (h : BlocksKnown pools known free live) (hsub : known ⊆ known') :
    BlocksKnown pools known' free live where
  head i := hsub (h.head i)
  ofFree i b hb := (h.ofFree i b hb).imp_right fun hb ↦ ⟨hsub hb.1, hsub hb.2⟩
  ofLive a ha := (h.ofLive a ha).imp_right fun hb ↦ ⟨hsub hb.1, hsub hb.2⟩
  run := h.run

/-- The next free block is known. -/
theorem next (h : BlocksKnown pools known free live) (hheap : HeapInv pools mem free live)
    (i : Fin numPools) (hne : mem (freeHead pools i) ≠ 0) :
    mem (freeHead pools i) + 8 ∈ known := by
  rcases hfree : free i with - | ⟨b, xs⟩
  · exact absurd ((hheap.freeList i).head_eq_zero_iff.2 hfree) hne
  · have hlist := hheap.freeList i
    rw [hfree] at hlist
    rw [hlist.head_eq.1]
    exact (h.ofFree i b (hfree ▸ List.mem_cons_self)).2.2

/-- A free block of a pool becomes live. -/
theorem pop (h : BlocksKnown pools known free live) {i : Fin numPools} {b : ℕ} {xs : List ℕ}
    (hfree : free i = b :: xs) (size : ℕ) :
    BlocksKnown pools known (Function.update free i xs) (⟨.pool i, b, size⟩ :: live) where
  head := h.head
  ofFree j x hx := by
    rcases eq_or_ne j i with rfl | hne
    · rw [Function.update_self] at hx
      exact h.ofFree j x (hfree ▸ List.mem_cons_of_mem _ hx)
    · rw [Function.update_of_ne hne] at hx
      exact h.ofFree j x hx
  ofLive := List.forall_mem_cons.2 ⟨h.ofFree i b (hfree ▸ List.mem_cons_self), h.ofLive⟩
  run := List.forall_mem_cons.2 ⟨fun _ hn ↦ absurd hn (by simp), h.run⟩

/-- New blocks for a pool. -/
theorem update (h : BlocksKnown pools known free live) {i : Fin numPools} {bs : List ℕ}
    (hbs : ∀ b ∈ bs, KnownBlock known b) :
    BlocksKnown pools known (Function.update free i bs) live where
  head := h.head
  ofFree j x hx := by
    rcases eq_or_ne j i with rfl | hne
    · rw [Function.update_self] at hx
      exact hbs x hx
    · rw [Function.update_of_ne hne] at hx
      exact h.ofFree j x hx
  ofLive := h.ofLive
  run := h.run

/-- Live blocks that are given up. -/
theorem erase (h : BlocksKnown pools known free live) (a : LiveBlock) :
    BlocksKnown pools known free (live.erase a) where
  head := h.head
  ofFree := h.ofFree
  ofLive x hx := h.ofLive x (List.mem_of_mem_erase hx)
  run x hx := h.run x (List.mem_of_mem_erase hx)

/-- **One call of `kmalloc`**: the heap that it leaves is known. -/
theorem kmalloc (h : BlocksKnown pools known free live) (hheap : HeapInv pools mem free live)
    (hout : Outcome pools mem free live size pages p mem')
    (hstart : pages ≠ 0 → mmapKernelHeapStart ≤ pages ∧ pages % pageSize = 0)
    (hblocks : ∀ i, findPool size = some i → pages ≠ 0 →
      ∀ b ∈ blocks pages (blockSize i) (poolPageIncrease * pageSize / blockSize i),
        b ∈ known ∧ b + 8 ∈ known)
    (hpages : findPool size = none → pages ≠ 0 → pages ∈ known ∧ pages + 8 ∈ known)
    (hspan : (numPages size).toNat ≤ intSpan) :
    ∃ free', HeapInv pools mem' free'
        (if p = 0 then live else ⟨ownerOf size, p - headerSize, size⟩ :: live) ∧
      BlocksKnown pools known free'
        (if p = 0 then live else ⟨ownerOf size, p - headerSize, size⟩ :: live) := by
  cases hout with
  | nothing hsize => exact ⟨free, by simpa using hheap, h⟩
  | exhausted | refused => exact ⟨free, by simpa using hheap, h⟩
  | @pooled i b xs _ _ hpool hfree hinv =>
    have howner : ownerOf size = .pool i := by rw [ownerOf, hpool]
    rw [if_neg (add_headerSize_ne_zero _), howner, Nat.add_sub_cancel]
    exact ⟨_, hinv, h.pop hfree size⟩
  | @grown i xs _ _ hpool hfree hne heq hinv =>
    have howner : ownerOf size = .pool i := by rw [ownerOf, hpool]
    rw [if_neg (add_headerSize_ne_zero _), howner, Nat.add_sub_cancel]
    have hknown : ∀ b ∈ pages :: xs, KnownBlock known b := fun b hb ↦
      ⟨(hstart hne).1.trans (within_of_mem_blocks (heq ▸ hb)).1, hblocks i hpool hne b (heq ▸ hb)⟩
    have hpop := (h.update (i := i) hknown).pop (Function.update_self ..) size
    rw [Function.update_idem] at hpop
    exact ⟨_, hinv, hpop⟩
  | paged _ hpool hne hinv =>
    have howner : ownerOf size = .run (numPages size).toNat := by rw [ownerOf, hpool]
    rw [if_neg (add_headerSize_ne_zero _), howner, Nat.add_sub_cancel]
    refine ⟨free, hinv, h.head, h.ofFree,
      List.forall_mem_cons.2 ⟨⟨(hstart hne).1, hpages hpool hne⟩, h.ofLive⟩,
      List.forall_mem_cons.2 ⟨fun n hn ↦ ?_, h.run⟩⟩
    obtain rfl := Owner.run.inj hn
    exact ⟨hspan, (hstart hne).2⟩

end BlocksKnown

/-! ### The plain memory -/

/-- The state of the machine and the state of `KernelHeap` that it simulates. -/
structure Simulates (identityP3 identityP2 : ℕ) (frames : List ℕ) (pools : ℕ) (known : Set ℕ)
    (free : Fin numPools → List ℕ) (s : PagedHeap) (t : KernelHeap) : Prop where
  agrees : Agrees identityP3 identityP2 frames known s.sys t.mem
  blocks : BlocksKnown pools known free t.live
  inv : t.Inv pools free
  live : s.live = t.live
  bump : t.machine.bumps.1 = s.sys.machine.bumps.1
  stored : ∀ v ∈ s.stored, v ∈ known ∧ ∃ a ∈ t.live, a.bytes.Has v

namespace Simulates

variable {s s' : PagedHeap} {t : KernelHeap} {pages r : ℕ}
  (h : Simulates identityP3 identityP2 frames pools known free s t)

include h

/-- Both page allocators give the same answer, and leave the same heap pointer. -/
theorem granted (hgr : Paged.Granted s.sys.machine k' (request pools t.mem size) pages) :
    pages = t.granted pools size ∧
      (t.kmalloc pools size).1 = (Kmalloc.kmalloc answer pools size ⟨t.mem, pages⟩).1 ∧
      (t.kmalloc pools size).2.mem = (Kmalloc.kmalloc answer pools size ⟨t.mem, pages⟩).2.mem ∧
      (t.kmalloc pools size).2.mmu.bumps.1 = k'.bumps.1 := by
  have hpos : ∀ {k : Machine}, InRegions k.bumps → 0 < k.bumps.1 := fun hb ↦
    lt_of_lt_of_le (by decide) hb.heap_start
  have hs := h.agrees.regions
  have ht := h.inv.regions
  rw [KernelHeap.kmalloc, kmalloc_eq_answer, KernelHeap.granted]
  rcases hreq : request pools t.mem size with - | n <;> rw [hreq] at hgr <;>
    obtain ⟨rfl, hk'⟩ := hgr
  · exact ⟨rfl, rfl, rfl, h.bump.trans hk'.symm⟩
  · obtain ⟨hs₁, hs₂⟩ := MMU.allocPages_bump (hpos hs) hs.heap_end hs.heap_aligned n
    obtain ⟨ht₁, ht₂⟩ := MMU.allocPages_bump (hpos ht) ht.heap_end ht.heap_aligned n
    rw [h.bump, ← hs₁] at ht₁
    rw [h.bump, ← hs₂, ← hk'] at ht₂
    dsimp only
    rw [ht₁]
    exact ⟨rfl, rfl, rfl, ht₂⟩

/-- Pages that are granted are whole pages of the heap region. -/
theorem granted_start (hgr : Paged.Granted s.sys.machine k' (request pools t.mem size) pages)
    (hpages : pages ≠ 0) : mmapKernelHeapStart ≤ pages ∧ pages % pageSize = 0 := by
  rcases hreq : request pools t.mem size with - | n
  · rw [hreq] at hgr
    exact absurd hgr.1 hpages
  · rw [hreq] at hgr
    exact hgr.aligned h.agrees.regions hpages

/-- **A request.** -/
theorem kmalloc (hpools : pools + 16 * numPools ≤ mmapKernelHeapStart)
    (hstatic : ∀ i, StaticWord identityP3 identityP2 frames (freeHead pools i))
    (hgood : GoodSize size) (hspan : size < pageSize * intSpan)
    (hrun : Paged.kmalloc pools size s.sys.machine = some (p, k')) :
    (t.kmalloc pools size).1 = p ∧ ∃ known' free',
      Simulates identityP3 identityP2 frames pools known' free'
        ⟨s.withMachine k',
          if p = 0 then s.live else ⟨ownerOf size, p - headerSize, size⟩ :: s.live, s.stored⟩
        ⟨(t.kmalloc pools size).2.mem, (t.kmalloc pools size).2.mmu,
          if p = 0 then t.live else ⟨ownerOf size, p - headerSize, size⟩ :: t.live⟩ := by
  obtain ⟨pages, known', hgr, hret, hagrees, hsub, hblocks, hpages⟩ :=
    Paged.kmalloc_spec h.agrees h.blocks.head hstatic (h.blocks.next h.inv.heap) hrun
  obtain ⟨hgranted, hret', hmem, hbump⟩ := h.granted hgr
  have hp := hret'.trans hret
  have hcount : (numPages size).toNat ≤ intSpan := by
    rw [numPages_of_lt (hspan.trans_le (by decide))]
    simp only [pageSize, intSpan, Int.toNat_natCast] at hspan ⊢
    split <;> omega
  -- what happens is decided by the plain memory and the answer, which are the same on both sides
  have hout := (h.inv.outcome hpools hgood).1
  obtain ⟨free₁, hinv⟩ := h.inv.kmalloc hpools hgood
  rw [← hgranted, hp] at hout
  rw [hp] at hinv
  obtain ⟨free', hheap, hknown⟩ := (h.blocks.mono hsub).kmalloc h.inv.heap hout
    (h.granted_start hgr) hblocks hpages hcount
  obtain rfl := hinv.heap.free_unique hheap
  refine ⟨hp, known', free₁, ?_, hknown, hinv, ?_, hbump, fun v hv ↦ ?_⟩
  · rw [hmem]
    exact hagrees
  · dsimp only
    rw [h.live]
  · obtain ⟨hv, a, ha, hbytes⟩ := h.stored v hv
    refine ⟨hsub hv, a, ?_, hbytes⟩
    dsimp only
    split
    · exact ha
    · exact List.mem_cons_of_mem _ ha

/-- The bytes of a live block are in its extent. -/
theorem bytes_within {a : LiveBlock} (ha : a ∈ t.live) : a.bytes.Within a.extent := by
  have := h.inv.heap.room a ha
  simp only [Within, LiveBlock.bytes, LiveBlock.ptr, LiveBlock.extent]
  omega

/-- Live blocks are in the heap region. -/
theorem end_le {a : LiveBlock} (ha : a ∈ t.live) :
    mmapKernelHeapStart ≤ a.base ∧ a.base + a.owner.len ≤ mmapKernelHeapEnd :=
  ⟨(h.blocks.ofLive a ha).1, (h.inv.below a.extent
    (List.mem_append_right _ (List.mem_map_of_mem ha))).trans h.inv.regions.heap_end⟩

/-- What stays known when a block is freed: a run of pages takes its words with it. -/
theorem blocks_kfree {a : LiveBlock} (ha : a ∈ t.live) :
    ∃ free', HeapInv pools (Kmalloc.kfree MMU.freePages a.ptr ⟨t.mem, t.machine⟩).mem free'
        (t.live.erase a) ∧
      BlocksKnown pools {v ∈ known | ∀ n, a.owner = .run n → ¬a.extent.Has v} free'
        (t.live.erase a) := by
  rcases howner : a.owner with i | n
  · refine ⟨Function.update free i (a.base :: free i), ?_, ?_⟩
    · rw [kfree_of_pool _ h.inv.heap ha howner]
      exact h.inv.heap.push ha howner
    · refine ((h.blocks.erase a).update fun b hb ↦ ?_).mono fun v hv ↦ ⟨hv, fun _ hn ↦ by cases hn⟩
      rcases List.mem_cons.1 hb with rfl | hb
      · exact h.blocks.ofLive a ha
      · exact h.blocks.ofFree i b hb
  · refine ⟨free, ?_, ?_⟩
    · rw [kfree_of_run _ h.inv.heap ha howner]
      exact h.inv.heap.erase ha
    · -- the headers of the other blocks are apart from the run
      have hkeep : ∀ {e : Extent} {v : ℕ}, e.Disjoint a.extent → e.Has v → v ∈ known →
          v ∈ {v ∈ known | ∀ m, Owner.run n = .run m → ¬a.extent.Has v} :=
        fun he hv hk ↦ ⟨hk, fun _ _ ha ↦ he.ne hv ha rfl⟩
      have hpools := (h.inv.heap.live_pools ha).symm
      refine ⟨fun i ↦ hkeep hpools (has_freeHead pools i) (h.blocks.head i), fun i b hb ↦ ?_,
        fun x hx ↦ ?_, (h.blocks.erase a).run⟩
      · obtain ⟨hstart, hk, hk₈⟩ := h.blocks.ofFree i b hb
        obtain ⟨hh, hh₈⟩ := has_header (b := b) (headerSize_lt_blockSize i).le
        have hapart := h.inv.heap.free_live hb ha
        exact ⟨hstart, hkeep hapart hh hk, hkeep hapart hh₈ hk₈⟩
      · have hx' := List.mem_of_mem_erase hx
        obtain ⟨hstart, hk, hk₈⟩ := h.blocks.ofLive x hx'
        obtain ⟨hh, hh₈⟩ := h.inv.heap.live_has_header hx'
        have hapart := (h.inv.heap.live_live ha hx).symm
        exact ⟨hstart, hkeep hapart hh hk, hkeep hapart hh₈ hk₈⟩

/-- **Giving a block back.** -/
theorem kfree {a : LiveBlock} (ha : a ∈ t.live)
    (hrun : Paged.kfree a.ptr s.sys.machine = some k') :
    ∃ known' free', Simulates identityP3 identityP2 frames pools known' free'
      ⟨s.withMachine k', s.live.erase a,
        s.stored.filter fun v ↦ ¬(a.ptr ≤ v ∧ v < a.ptr + a.size)⟩
      ⟨(Kmalloc.kfree MMU.freePages a.ptr ⟨t.mem, t.machine⟩).mem,
        (Kmalloc.kfree MMU.freePages a.ptr ⟨t.mem, t.machine⟩).mmu, t.live.erase a⟩ := by
  obtain ⟨hbumps, hagrees⟩ := Paged.kfree_spec h.agrees MMU.freePages t.machine h.inv.heap ha
    h.blocks.head (h.blocks.ofLive a ha).2 (fun n hn ↦ by
      obtain ⟨hle, hal⟩ := h.blocks.run a ha n hn
      obtain ⟨hstart, hend⟩ := h.end_le ha
      rw [hn] at hend
      exact ⟨hle, hal, hstart, hend⟩) hrun
  obtain ⟨free₁, hinv⟩ := h.inv.kfree ha
  obtain ⟨free', hheap, hknown⟩ := h.blocks_kfree ha
  obtain rfl := hinv.heap.free_unique hheap
  have hmmu : (Kmalloc.kfree MMU.freePages a.ptr ⟨t.mem, t.machine⟩).mmu.bumps =
      t.machine.bumps := by
    rcases howner : a.owner with i | n
    · rw [kfree_of_pool _ h.inv.heap ha howner]
    · rw [kfree_of_run _ h.inv.heap ha howner]
      dsimp only
      rw [MMU.freePages, MMU.freeRun_bumps]
  refine ⟨_, free₁, hagrees, hknown, hinv, congrArg (List.erase · a) h.live,
    (congrArg Prod.fst hmmu).trans (h.bump.trans (congrArg Prod.fst hbumps).symm), fun v hv ↦ ?_⟩
  · -- a word that is left is in another block, so not in the run that is given back
    obtain ⟨hv, hout⟩ := List.mem_filter.1 hv
    obtain ⟨hk, x, hx, hbytes⟩ := h.stored v hv
    have hne : x ≠ a := by
      rintro rfl
      exact of_decide_eq_true hout hbytes
    have hx' := (List.mem_erase_of_ne hne).2 hx
    refine ⟨⟨hk, fun _ _ hin ↦ ?_⟩, x, hx', hbytes⟩
    have hwithin := h.bytes_within hx
    exact (h.inv.heap.live_live ha hx').ne hin
      ⟨hwithin.1.trans hbytes.1, hbytes.2.trans_le hwithin.2⟩ rfl

/-- **A store of a client.** -/
theorem write {a : LiveBlock} (ha : a ∈ t.live) {j w : ℕ} (hj : 8 * j < a.size)
    (hrun : writeWord (a.ptr + 8 * j) w s.sys.machine = some k') :
    ∃ known', Simulates identityP3 identityP2 frames pools known' free
      ⟨s.withMachine k', s.live, (a.ptr + 8 * j) :: s.stored⟩
      { t with mem := Function.update t.mem (a.ptr + 8 * j) w } := by
  have hroom := h.inv.heap.room a ha
  obtain ⟨hstart, hend⟩ := h.end_le ha
  -- the block begins at a known word, so it is aligned
  have hword : KernelWord identityP3 identityP2 frames (a.ptr + 8 * j) := by
    have hal := (h.agrees.word _ (h.blocks.ofLive a ha).2.1).1
    refine ⟨?_, Or.inl (Or.inr ⟨?_, ?_⟩)⟩ <;>
      simp only [LiveBlock.ptr, headerSize] at hroom ⊢ <;> omega
  obtain ⟨hagrees, hbumps⟩ := writeWord_spec h.agrees hword hrun
  refine ⟨_, hagrees, h.blocks.mono (Set.subset_insert _ _),
    ⟨h.inv.heap.write ha hj w, h.inv.below, h.inv.regions⟩, h.live,
    h.bump.trans (congrArg Prod.fst hbumps).symm,
    List.forall_mem_cons.2 ⟨⟨Set.mem_insert _ _, a, ha, ?_⟩, fun v hv ↦ ?_⟩⟩
  · exact ⟨Nat.le_add_right _ _, Nat.add_lt_add_left hj _⟩
  · exact (h.stored v hv).imp_left fun hk ↦ Set.mem_insert_of_mem _ hk

/-- **Every command**, with the same answer. -/
theorem step (hpools : pools + 16 * numPools ≤ mmapKernelHeapStart)
    (hstatic : ∀ i, StaticWord identityP3 identityP2 frames (freeHead pools i)) {c : HeapCmd}
    (hstep : s.step pools c = some (r, s')) :
    ∃ t', t.step pools c = some (r, t') ∧ ∃ known' free',
      Simulates identityP3 identityP2 frames pools known' free' s' t' := by
  have hfind : ∀ {p a}, s.find p = some a → t.find p = some a ∧ a ∈ t.live ∧ a.ptr = p := by
    intro p a hfind
    rw [PagedHeap.find, h.live] at hfind
    exact ⟨hfind, List.mem_of_find?_eq_some hfind, by simpa using List.find?_some hfind⟩
  cases c with
  | kmalloc size =>
    obtain ⟨⟨hgood, hspan⟩, heq⟩ := Option.ite_none_right_eq_some.1 hstep
    obtain ⟨⟨p, k'⟩, hrun, heq⟩ := Option.map_eq_some_iff.1 heq
    obtain ⟨rfl, rfl⟩ := Prod.mk.inj heq
    obtain ⟨rfl, hsim⟩ := h.kmalloc hpools hstatic hgood hspan hrun
    exact ⟨_, if_pos hgood, hsim⟩
  | kfree p =>
    obtain ⟨a, hsome, heq⟩ := Option.bind_eq_some_iff.1 hstep
    obtain ⟨k', hrun, heq⟩ := Option.map_eq_some_iff.1 heq
    obtain ⟨rfl, rfl⟩ := Prod.mk.inj heq
    obtain ⟨ht, ha, rfl⟩ := hfind hsome
    exact ⟨_, by rw [KernelHeap.step, ht]; rfl, h.kfree ha hrun⟩
  | write p j w =>
    obtain ⟨a, hsome, heq⟩ := Option.bind_eq_some_iff.1 hstep
    obtain ⟨hj, heq⟩ := Option.ite_none_right_eq_some.1 heq
    obtain ⟨k', hrun, heq⟩ := Option.map_eq_some_iff.1 heq
    obtain ⟨rfl, rfl⟩ := Prod.mk.inj heq
    obtain ⟨ht, ha, rfl⟩ := hfind hsome
    obtain ⟨known', hsim⟩ := h.write ha hj hrun
    refine ⟨_, ?_, known', free, hsim⟩
    rw [KernelHeap.step, ht]
    exact if_pos hj

end Simulates

/-- Before the first request, with empty pools. -/
theorem simulates_init {sys : MemSystem} (hpos : 0 < pools) (hal : pools % 8 = 0)
    (hstatic : ∀ i, StaticWord identityP3 identityP2 frames (freeHead pools i))
    (hpaging : PtSystem.Inv identityP3 identityP2 frames ⟨sys.machine, sys.held⟩)
    (hregions : InRegions sys.machine.bumps)
    (hmem : ∀ i, sys.machine.mem (freeHead pools i) = 0) :
    Simulates identityP3 identityP2 frames pools (Set.range (freeHead pools)) (fun _ ↦ [])
      ⟨sys, [], []⟩ ⟨sys.machine.mem, sys.machine, []⟩ where
  agrees := by
    refine ⟨hpaging, hregions, ?_, ?_, fun _ _ _ ↦ rfl⟩
    · rintro v ⟨i, rfl⟩
      refine ⟨?_, Or.inr (hstatic i)⟩
      simp only [freeHead, poolPtr]
      omega
    · rintro v ⟨i, rfl⟩ hheap
      exact absurd hheap (hstatic i).not_heapOrStack
  blocks := ⟨fun i ↦ ⟨i, rfl⟩, by simp, by simp, by simp⟩
  inv := ⟨PoolSystem.heapInv_init hpos hmem, by simp [freeExtents], hregions⟩
  live := rfl
  bump := rfl
  stored := by simp

/-- **The kernel heap on the machine is the kernel heap on a plain memory.** After `MMU_init`,
whatever clients request, give back and store: the pointers that they get are those of a run on a
plain memory, and of every word that they have stored in a live block the processor reads, without a
page fault, what the plain memory holds. -/
theorem PagedHeap.runTrace_simulates {k k₁ : Machine} {idxs : List ℕ}
    (hseg : SegmentsWellFormed k.mmu idxs) (hq : k.mmu.freePageHead = 0)
    (hend : ∀ f ∈ k.mmu.segmentPages idxs, f < mmapPhysicalPagesEnd)
    (h₃ : StaticTable (k.mmu.segmentPages idxs) identityP3)
    (h₂ : StaticTable (k.mmu.segmentPages idxs) identityP2) (hne : identityP3 ≠ identityP2)
    (hinit : MMU.initPaging identityP3 identityP2 k = (0, k₁)) (hpos : 0 < pools)
    (hal : pools % 8 = 0)
    (hstatic : ∀ i, StaticWord identityP3 identityP2 (k.mmu.segmentPages idxs) (freeHead pools i))
    (hmem : ∀ i, k₁.mem (freeHead pools i) = 0) {cmds : List HeapCmd} {out : List ℕ}
    {s : PagedHeap}
    (hrun : runTrace (PagedHeap.step pools) ⟨⟨k₁, [], []⟩, [], []⟩ cmds = some (out, s)) :
    ∃ t, runTrace (KernelHeap.step pools) ⟨k₁.mem, k₁, []⟩ cmds = some (out, t) ∧
      t.live = s.live ∧
      ∀ v ∈ s.stored, readWord v s.sys.machine = some (t.mem v, s.sys.machine) := by
  have hpools : pools + 16 * numPools ≤ mmapKernelHeapStart := by
    have hlast := (hstatic 5).lt
    simp only [freeHead, poolPtr, identityEnd, pageTableNumEnts, hugePageFrameSize, numPools,
      mmapKernelHeapStart, p4PteAddresses] at hlast ⊢
    omega
  have h₀ : Simulates identityP3 identityP2 (k.mmu.segmentPages idxs) pools
      (Set.range (freeHead pools)) (fun _ ↦ []) ⟨⟨k₁, [], []⟩, [], []⟩ ⟨k₁.mem, k₁, []⟩ :=
    simulates_init hpos hal hstatic (paging_initPaging hseg hq hend h₃ h₂ hne hinit)
      (inv_initPaging hseg hq hend hinit).regions hmem
  obtain ⟨t, ht, known, free, h⟩ := runTrace_lift
    (R := fun s t ↦ ∃ known free,
      Simulates identityP3 identityP2 (k.mmu.segmentPages idxs) pools known free s t)
    (fun s t c r s' hsim hstep ↦ by
      obtain ⟨known, free, h⟩ := hsim
      exact h.step hpools hstatic hstep) ⟨_, _, h₀⟩ hrun
  exact ⟨t, ht, h.live.symm, fun v hv ↦ readWord_known h.agrees (h.stored v hv).1⟩

/-- A block from a pool and a run of two pages, each with a word of a client; the first is given
back. -/
theorem PagedHeap.runTrace_simulates_twoBlocks :
    ∃ out s t, runTrace (PagedHeap.step 0x200000)
        ⟨⟨(MMU.initPaging 0x100000 0x101000 (poolOfPages 16)).2, [], []⟩, [], []⟩
        [.kmalloc 1500, .write (mmapKernelHeapStart + 16) 0 7, .kmalloc 6000,
          .write (mmapKernelHeapStart + 0x4010) 600 9, .kfree (mmapKernelHeapStart + 16)] =
            some (out, s) ∧
      runTrace (KernelHeap.step 0x200000)
        ⟨(MMU.initPaging 0x100000 0x101000 (poolOfPages 16)).2.mem,
          (MMU.initPaging 0x100000 0x101000 (poolOfPages 16)).2, []⟩
        [.kmalloc 1500, .write (mmapKernelHeapStart + 16) 0 7, .kmalloc 6000,
          .write (mmapKernelHeapStart + 0x4010) 600 9, .kfree (mmapKernelHeapStart + 16)] =
            some (out, t) ∧
      t.live = s.live ∧
      ∀ v ∈ s.stored, readWord v s.sys.machine = some (t.mem v, s.sys.machine) := by
  have hsome : (runTrace (PagedHeap.step 0x200000)
      ⟨⟨(MMU.initPaging 0x100000 0x101000 (poolOfPages 16)).2, [], []⟩, [], []⟩
      [.kmalloc 1500, .write (mmapKernelHeapStart + 16) 0 7, .kmalloc 6000,
        .write (mmapKernelHeapStart + 0x4010) 600 9,
        .kfree (mmapKernelHeapStart + 16)]).isSome := by decide +kernel
  obtain ⟨⟨out, s⟩, hrun⟩ := Option.isSome_iff_exists.1 hsome
  have hinit : MMU.initPaging 0x100000 0x101000 (poolOfPages 16) =
      (0, (MMU.initPaging 0x100000 0x101000 (poolOfPages 16)).2) := rfl
  have hframe : ∀ f ∈ (poolOfPages 16).mmu.segmentPages [0], f + pageSize ≤ 0x100000 := by decide
  have hstatic : ∀ i, StaticWord 0x100000 0x101000 ((poolOfPages 16).mmu.segmentPages [0])
      (freeHead 0x200000 i) := fun i ↦ by
    have hi := i.isLt
    simp only [numPools] at hi
    refine ⟨?_, fun f hf j hj ↦ ?_, fun j hj ↦ ?_⟩
    · simp only [freeHead, poolPtr, identityEnd, pageTableNumEnts, hugePageFrameSize]
      omega
    · have := hframe f hf
      simp only [freeHead, poolPtr, pageSize, pageTableNumEnts] at *
      omega
    · simp only [freeHead, poolPtr, pageTableNumEnts] at *
      omega
  obtain ⟨t, ht⟩ := PagedHeap.runTrace_simulates
    (segmentsWellFormed_poolOfPages (by decide) (by decide)) rfl (by decide)
    ⟨by decide, by decide, by decide⟩ ⟨by decide, by decide, by decide⟩ (by decide) hinit
    (by decide) (by decide) hstatic (by decide +kernel) hrun
  exact ⟨out, s, t, hrun, ht⟩

end Marimba.Kmalloc
