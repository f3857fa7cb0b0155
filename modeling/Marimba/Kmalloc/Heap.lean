import Marimba.Kmalloc.FreeList

/-!
# The heap as a set of separate blocks

`HeapInv` is the invariant of `kmalloc`: every pool stores its free list, every live block carries
its header, every live block has room for what was requested, and all blocks — free and live — are
**separate extents of memory**, apart from each other and from the static array `pools`.

Every operation writes the `free_head` of at most one pool and words of one extent. `FreeList.frame`
and `HeapInv.header_frame` say that such a write leaves the other pools and the other live blocks
alone; what remains for each operation is what it does to its own pool and its own block.
-/

namespace Marimba.Kmalloc

open Extent

/-- Who a block belongs to: a pool, or the page allocator as a run of pages. -/
inductive Owner where
  | pool (i : Fin numPools)
  | run (numPages : ℕ)
  deriving DecidableEq

namespace Owner

/-- The bytes of a block, its header included. -/
def len : Owner → ℕ
  | pool i => blockSize i
  | run n => pageSize * n

/-- The `pool` field of the header. -/
def header (pools : ℕ) : Owner → ℕ
  | pool i => poolPtr pools i
  | run _ => 0

end Owner

/-- A block handed out by `kmalloc` and the number of bytes requested. -/
structure LiveBlock where
  owner : Owner
  base : ℕ
  size : ℕ
  deriving DecidableEq

/-- The pointer the client has. -/
def LiveBlock.ptr (a : LiveBlock) : ℕ := a.base + headerSize

/-- The whole block. -/
def LiveBlock.extent (a : LiveBlock) : Extent := ⟨a.base, a.owner.len⟩

/-- The bytes the client asked for. -/
def LiveBlock.bytes (a : LiveBlock) : Extent := ⟨a.ptr, a.size⟩

/-- The static array `pools`. -/
def poolsExtent (pools : ℕ) : Extent := ⟨pools, 16 * numPools⟩

/-- The free blocks of all pools. -/
def freeExtents (free : Fin numPools → List ℕ) : List Extent :=
  (List.finRange numPools).flatMap fun i ↦ (free i).map fun b ↦ ⟨b, blockSize i⟩

/-- **The invariant of the heap.** -/
structure HeapInv (pools : ℕ) (mem : ℕ → ℕ) (free : Fin numPools → List ℕ)
    (live : List LiveBlock) : Prop where
  freeList : ∀ i, FreeList pools mem i (free i)
  header : ∀ a ∈ live, mem a.base = a.owner.header pools
  pages : ∀ a ∈ live, ∀ n, a.owner = .run n → mem (a.base + 8) = n
  room : ∀ a ∈ live, a.size + headerSize ≤ a.owner.len
  base_pos : ∀ a ∈ live, 0 < a.base
  pools_pos : 0 < pools
  separate : Separate (poolsExtent pools :: (freeExtents free ++ live.map LiveBlock.extent))

variable {pools : ℕ} {mem mem' : ℕ → ℕ} {free : Fin numPools → List ℕ} {live : List LiveBlock}
  {i j : Fin numPools} {a : LiveBlock} {b x : ℕ} {xs : List ℕ} {e : Extent}

/-! ### Block sizes and pool addresses -/

theorem headerSize_lt_blockSize (i : Fin numPools) : headerSize < blockSize i := by
  revert i
  decide

theorem blockSize_le (i : Fin numPools) : blockSize i ≤ 2048 := by
  revert i
  decide

theorem blockSize_injective : Function.Injective blockSize := by
  intro i j
  revert i j
  decide

/-- The pages of a pool are a whole number of blocks. -/
theorem blockSize_mul (i : Fin numPools) :
    blockSize i * (poolPageIncrease * pageSize / blockSize i) = pageSize * poolPageIncrease := by
  revert i
  decide

theorem poolPtr_injective : Function.Injective (poolPtr pools) := by
  intro i j h
  simp only [poolPtr] at h
  exact Fin.ext (by omega)

theorem freeHead_injective : Function.Injective (freeHead pools) := fun _ _ h ↦
  poolPtr_injective (Nat.add_right_cancel h)

theorem poolPtr_ne_zero (hpos : 0 < pools) (i : Fin numPools) : poolPtr pools i ≠ 0 :=
  (hpos.trans_le (Nat.le_add_right _ _)).ne'

theorem has_freeHead (pools : ℕ) (i : Fin numPools) :
    (poolsExtent pools).Has (freeHead pools i) := by
  have := i.isLt
  simp only [Has, poolsExtent, freeHead, poolPtr, numPools] at *
  omega

/-- The two words of a header are in the block. -/
theorem has_header {n : ℕ} (hn : headerSize ≤ n) : Has ⟨b, n⟩ b ∧ Has ⟨b, n⟩ (b + 8) := by
  simp only [Has, headerSize] at *
  omega

/-! ### Blocks are apart -/

theorem mem_freeExtents : e ∈ freeExtents free ↔ ∃ i, ∃ b ∈ free i, e = ⟨b, blockSize i⟩ := by
  simp [freeExtents, eq_comm]

/-- Adding blocks to one pool. -/
theorem freeExtents_update (free : Fin numPools → List ℕ) (i : Fin numPools) (bs xs : List ℕ) :
    (freeExtents (Function.update free i (bs ++ xs))).Perm
      (bs.map (fun b ↦ ⟨b, blockSize i⟩) ++ freeExtents (Function.update free i xs)) := by
  have key : ∀ l : List (Fin numPools), l.Nodup → i ∈ l →
      (l.flatMap fun j ↦ (Function.update free i (bs ++ xs) j).map fun b ↦
        (⟨b, blockSize j⟩ : Extent)).Perm
      (bs.map (fun b ↦ ⟨b, blockSize i⟩) ++ l.flatMap fun j ↦
        (Function.update free i xs j).map fun b ↦ ⟨b, blockSize j⟩) := by
    intro l
    induction l with
    | nil => exact fun _ h ↦ absurd h List.not_mem_nil
    | cons j l ih =>
      intro hnd hi
      obtain ⟨hj, hnd'⟩ := List.nodup_cons.1 hnd
      rw [List.flatMap_cons, List.flatMap_cons]
      rcases eq_or_ne j i with rfl | hne
      · -- the pool itself: the rest of the list does not mention it
        have hrest : ∀ ys : List ℕ, (l.flatMap fun m ↦ (Function.update free j ys m).map fun b ↦
            (⟨b, blockSize m⟩ : Extent)) =
              l.flatMap fun m ↦ (free m).map fun b ↦ ⟨b, blockSize m⟩ := fun ys ↦
          List.flatMap_congr fun m hm ↦ by
            rw [Function.update_of_ne (fun e ↦ hj (by rwa [e] at hm))]
        rw [hrest, hrest, Function.update_self, Function.update_self, List.map_append,
          List.append_assoc]
      · rw [Function.update_of_ne hne, Function.update_of_ne hne]
        have hil : i ∈ l := (List.mem_cons.1 hi).resolve_left hne.symm
        exact ((ih hnd' hil).append_left _).trans (List.perm_append_comm_assoc _ _ _)
  exact key _ (List.nodup_finRange _) (List.mem_finRange i)

namespace HeapInv

section Apart

variable (h : HeapInv pools mem free live)

include h

theorem free_pools (hb : b ∈ free i) : Extent.Disjoint ⟨b, blockSize i⟩ (poolsExtent pools) :=
  ((List.pairwise_cons.1 h.separate).1 _
    (List.mem_append_left _ (mem_freeExtents.2 ⟨i, b, hb, rfl⟩))).symm

theorem live_pools (ha : a ∈ live) : a.extent.Disjoint (poolsExtent pools) :=
  ((List.pairwise_cons.1 h.separate).1 _
    (List.mem_append_right _ (List.mem_map_of_mem ha))).symm

theorem free_live (hb : b ∈ free i) (ha : a ∈ live) : Extent.Disjoint ⟨b, blockSize i⟩ a.extent :=
  (List.pairwise_append.1 (List.pairwise_cons.1 h.separate).2).2.2 _
    (mem_freeExtents.2 ⟨i, b, hb, rfl⟩) _ (List.mem_map_of_mem ha)

theorem free_free (hb : b ∈ free i) (hx : x ∈ free j) (hne : (i, b) ≠ (j, x)) :
    Extent.Disjoint ⟨b, blockSize i⟩ ⟨x, blockSize j⟩ := by
  have hsep := (List.pairwise_append.1 (List.pairwise_cons.1 h.separate).2).1
  refine hsep.forall (mem_freeExtents.2 ⟨i, b, hb, rfl⟩) (mem_freeExtents.2 ⟨j, x, hx, rfl⟩)
    fun e ↦ hne ?_
  obtain ⟨rfl, hij⟩ := Extent.mk.inj e
  rw [blockSize_injective hij]

/-- The words of a free block's header are no `free_head`. -/
theorem free_ne_freeHead (hb : b ∈ free i) (j : Fin numPools) :
    b ≠ freeHead pools j ∧ b + 8 ≠ freeHead pools j := by
  have hh := has_header (b := b) (headerSize_lt_blockSize i).le
  exact ⟨(h.free_pools hb).ne hh.1 (has_freeHead pools j),
    (h.free_pools hb).ne hh.2 (has_freeHead pools j)⟩

theorem live_has_header (ha : a ∈ live) : a.extent.Has a.base ∧ a.extent.Has (a.base + 8) :=
  has_header (b := a.base) ((Nat.le_add_left _ _).trans (h.room a ha))

theorem live_ne_freeHead (ha : a ∈ live) (j : Fin numPools) :
    a.base ≠ freeHead pools j ∧ a.base + 8 ≠ freeHead pools j :=
  ⟨(h.live_pools ha).ne (h.live_has_header ha).1 (has_freeHead pools j),
    (h.live_pools ha).ne (h.live_has_header ha).2 (has_freeHead pools j)⟩

/-- Splitting off one live block: the others are apart from it. -/
theorem separate_erase (ha : a ∈ live) :
    Separate (a.extent :: poolsExtent pools ::
      (freeExtents free ++ (live.erase a).map LiveBlock.extent)) := by
  refine Separate.perm ?_ h.separate
  have hlive : (live.map LiveBlock.extent).Perm
      (a.extent :: (live.erase a).map LiveBlock.extent) :=
    (List.perm_cons_erase ha).map _
  exact (((hlive.append_left _).trans List.perm_middle).cons _).trans (List.Perm.swap _ _ _)

theorem live_live {a' : LiveBlock} (ha : a ∈ live) (ha' : a' ∈ live.erase a) :
    a.extent.Disjoint a'.extent :=
  (List.pairwise_cons.1 (h.separate_erase ha)).1 _
    (List.mem_cons_of_mem _ (List.mem_append_right _ (List.mem_map_of_mem ha')))

end Apart

/-! ### What a write leaves alone -/

section Frame

variable (h : HeapInv pools mem free live)
  (hmem : ∀ x, x ≠ freeHead pools i → ¬e.Has x → mem' x = mem x)

include h hmem

theorem header_frame (ha : a ∈ live) (hapart : e.Disjoint a.extent) :
    mem' a.base = mem a.base ∧ mem' (a.base + 8) = mem (a.base + 8) := by
  obtain ⟨h₁, h₂⟩ := h.live_has_header ha
  obtain ⟨hn₁, hn₂⟩ := h.live_ne_freeHead ha i
  exact ⟨hmem _ hn₁ fun hx ↦ hapart.ne hx h₁ rfl, hmem _ hn₂ fun hx ↦ hapart.ne hx h₂ rfl⟩

theorem freeList_frame (hhead : mem' (freeHead pools j) = mem (freeHead pools j))
    (hapart : ∀ b ∈ free j, e.Disjoint ⟨b, blockSize j⟩) : FreeList pools mem' j (free j) := by
  refine (h.freeList j).congr hhead fun b hb ↦ ?_
  obtain ⟨h₁, h₂⟩ := has_header (b := b) (headerSize_lt_blockSize j).le
  obtain ⟨hn₁, hn₂⟩ := h.free_ne_freeHead hb i
  exact ⟨hmem _ hn₁ fun hx ↦ (hapart b hb).ne hx h₁ rfl,
    hmem _ hn₂ fun hx ↦ (hapart b hb).ne hx h₂ rfl⟩

/-- The other pools, when the extent written is apart from their blocks. -/
theorem freeList_frame_of_ne (hj : j ≠ i) (hpools : e.Disjoint (poolsExtent pools))
    (hapart : ∀ b ∈ free j, e.Disjoint ⟨b, blockSize j⟩) : FreeList pools mem' j (free j) :=
  h.freeList_frame hmem (hmem _ (freeHead_injective.ne hj) fun hx ↦
    hpools.ne hx (has_freeHead pools j) rfl) hapart

end Frame

/-! ### The operations -/

section Operations

variable (h : HeapInv pools mem free live)

include h

/-- **Handing out the first block of a pool.** -/
theorem pop {size : ℕ} (hfree : free i = b :: xs) (hroom : size + headerSize ≤ blockSize i) :
    HeapInv pools
      (Function.update (Function.update mem (freeHead pools i) (mem (b + 8))) (b + 8) 0)
      (Function.update free i xs) (⟨.pool i, b, size⟩ :: live) := by
  have hb : b ∈ free i := hfree ▸ List.mem_cons_self
  have hxs : ∀ x ∈ xs, x ∈ free i := fun x hx ↦ hfree ▸ List.mem_cons_of_mem b hx
  have hlist := hfree ▸ h.freeList i
  have hnot : b ∉ xs := (List.nodup_cons.1 hlist.chain.nodup).1
  have hbh := has_header (b := b) (headerSize_lt_blockSize i).le
  have hmem : ∀ x, x ≠ freeHead pools i → ¬Has ⟨b, blockSize i⟩ x → Function.update
      (Function.update mem (freeHead pools i) (mem (b + 8))) (b + 8) 0 x = mem x := by
    intro x hx hnx
    rw [Function.update_of_ne (hbh.2.ne hnx), Function.update_of_ne hx]
  refine ⟨fun j ↦ ?_, List.forall_mem_cons.2 ⟨?_, fun a ha ↦ ?_⟩,
    List.forall_mem_cons.2 ⟨fun n hn ↦ ?_, fun a ha n hn ↦ ?_⟩,
    List.forall_mem_cons.2 ⟨hroom, h.room⟩,
    List.forall_mem_cons.2 ⟨Nat.pos_of_ne_zero hlist.head_eq.2, h.base_pos⟩, h.pools_pos, ?_⟩
  · rcases eq_or_ne j i with rfl | hj
    · rw [Function.update_self]
      refine hlist.pop (h.free_ne_freeHead hb j).2
        (fun x hx ↦ h.free_ne_freeHead (hxs x hx) j) fun x hx ↦ ?_
      have hne : (j, x) ≠ (j, b) := fun e ↦ hnot ((Prod.mk.inj e).2 ▸ hx)
      exact (h.free_free (hxs x hx) hb hne).ne
        (has_header (headerSize_lt_blockSize j).le).1 hbh.2
    · rw [Function.update_of_ne hj]
      exact h.freeList_frame_of_ne hmem hj (h.free_pools hb) fun x hx ↦
        h.free_free hb hx fun e ↦ hj (Prod.mk.inj e).1.symm
  · show Function.update _ _ _ b = _
    rw [Function.update_of_ne (by omega), Function.update_of_ne (h.free_ne_freeHead hb i).1]
    exact (h.freeList i).header b hb
  · rw [(h.header_frame hmem ha (h.free_live hb ha)).1]
    exact h.header a ha
  · cases hn
  · rw [(h.header_frame hmem ha (h.free_live hb ha)).2]
    exact h.pages a ha n hn
  · refine Separate.perm ?_ h.separate
    have hperm := freeExtents_update free i [b] xs
    rw [List.singleton_append, ← hfree, Function.update_eq_self] at hperm
    exact ((hperm.append_right _).trans List.perm_middle.symm).cons _

/-- **Taking a block of a pool back.** -/
theorem push (ha : a ∈ live) (hi : a.owner = .pool i) :
    HeapInv pools
      (Function.update (Function.update mem (a.base + 8) (mem (freeHead pools i)))
        (freeHead pools i) a.base)
      (Function.update free i (a.base :: free i)) (live.erase a) := by
  have hsub : ∀ {x}, x ∈ live.erase a → x ∈ live := fun hx ↦ List.mem_of_mem_erase hx
  have hah := h.live_has_header ha
  have hmem : ∀ x, x ≠ freeHead pools i → ¬a.extent.Has x → Function.update
      (Function.update mem (a.base + 8) (mem (freeHead pools i))) (freeHead pools i) a.base x =
        mem x := by
    intro x hx hnx
    rw [Function.update_of_ne hx, Function.update_of_ne (hah.2.ne hnx)]
  have hheader : mem a.base = poolPtr pools i := by
    rw [h.header a ha, hi]
    rfl
  refine ⟨fun j ↦ ?_, fun x hx ↦ ?_, fun x hx n hn ↦ ?_, fun x hx ↦ h.room x (hsub hx),
    fun x hx ↦ h.base_pos x (hsub hx), h.pools_pos, ?_⟩
  · rcases eq_or_ne j i with rfl | hj
    · rw [Function.update_self]
      have hfh : ∀ x ∈ free j, Has ⟨x, blockSize j⟩ x := fun x _ ↦
        (has_header (headerSize_lt_blockSize j).le).1
      refine (h.freeList j).push (h.base_pos a ha).ne' hheader (h.live_ne_freeHead ha j) ?_
        (fun x hx ↦ h.free_ne_freeHead hx j) fun x hx ↦ (h.free_live hx ha).ne (hfh x hx) hah.2
      exact fun hx ↦ (h.free_live hx ha).ne (hfh _ hx) hah.1 rfl
    · rw [Function.update_of_ne hj]
      exact h.freeList_frame_of_ne hmem hj (h.live_pools ha) fun x hx ↦ (h.free_live hx ha).symm
  · rw [(h.header_frame hmem (hsub hx) (h.live_live ha hx)).1]
    exact h.header x (hsub hx)
  · rw [(h.header_frame hmem (hsub hx) (h.live_live ha hx)).2]
    exact h.pages x (hsub hx) n hn
  · refine Separate.perm ?_ (h.separate_erase ha)
    have hperm := freeExtents_update free i [a.base] (free i)
    rw [List.singleton_append, Function.update_eq_self] at hperm
    have hext : a.extent = ⟨a.base, blockSize i⟩ := by rw [LiveBlock.extent, hi]; rfl
    rw [hext]
    exact (List.Perm.swap _ _ _).trans
      (((hperm.append_right ((live.erase a).map LiveBlock.extent)).symm).cons _)

/-- **New blocks for an empty pool**, carved out of fresh pages. -/
theorem carve {pages : ℕ} (hfree : free i = []) (hpages : pages ≠ 0)
    (hfresh : ∀ f ∈ poolsExtent pools :: (freeExtents free ++ live.map LiveBlock.extent),
      Extent.Disjoint ⟨pages, pageSize * poolPageIncrease⟩ f) :
    HeapInv pools
      (Kmalloc.carve (poolPtr pools i) (blockSize i) (poolPageIncrease * pageSize / blockSize i)
        ⟨mem, freeHead pools i, pages⟩).mem
      (Function.update free i
        (blocks pages (blockSize i) (poolPageIncrease * pageSize / blockSize i))) live := by
  set n := poolPageIncrease * pageSize / blockSize i with hn
  have hsize := (headerSize_lt_blockSize i).le
  have hwithin : ∀ b ∈ blocks pages (blockSize i) n,
      Within ⟨b, blockSize i⟩ ⟨pages, pageSize * poolPageIncrease⟩ := by
    intro b hb
    rw [← blockSize_mul i]
    exact within_of_mem_blocks hb
  have hhas : ∀ b ∈ blocks pages (blockSize i) n,
      Has ⟨pages, pageSize * poolPageIncrease⟩ b ∧
        Has ⟨pages, pageSize * poolPageIncrease⟩ (b + 8) := by
    intro b hb
    obtain ⟨h₁, h₂⟩ := hwithin b hb
    simp only [Has, headerSize] at *
    omega
  have hpools := hfresh _ List.mem_cons_self
  have hmem : ∀ x, x ≠ freeHead pools i → ¬Has ⟨pages, pageSize * poolPageIncrease⟩ x →
      (Kmalloc.carve (poolPtr pools i) (blockSize i) n ⟨mem, freeHead pools i, pages⟩).mem x =
        mem x := fun x hx hnx ↦
    carve_mem_of_ne hx fun b hb ↦ ⟨(hhas b hb).1.ne hnx, (hhas b hb).2.ne hnx⟩
  have hlive : ∀ a ∈ live, Extent.Disjoint ⟨pages, pageSize * poolPageIncrease⟩ a.extent :=
    fun a ha ↦ hfresh _ (List.mem_cons_of_mem _ (List.mem_append_right _ (List.mem_map_of_mem ha)))
  refine ⟨fun j ↦ ?_, fun a ha ↦ ?_, fun a ha m hm ↦ ?_, h.room, h.base_pos, h.pools_pos, ?_⟩
  · rcases eq_or_ne j i with rfl | hj
    · rw [Function.update_self]
      refine FreeList.carve hsize hpages (fun b hb ↦ ?_) ((h.freeList j).head_eq_zero_iff.2 hfree)
      exact ⟨(hpools.ne (hhas b hb).1 (has_freeHead pools j)).symm,
        (hpools.ne (hhas b hb).2 (has_freeHead pools j)).symm⟩
    · rw [Function.update_of_ne hj]
      exact h.freeList_frame_of_ne hmem hj hpools fun b hb ↦ hfresh _
        (List.mem_cons_of_mem _ (List.mem_append_left _ (mem_freeExtents.2 ⟨j, b, hb, rfl⟩)))
  · rw [(h.header_frame hmem ha (hlive a ha)).1]
    exact h.header a ha
  · rw [(h.header_frame hmem ha (hlive a ha)).2]
    exact h.pages a ha m hm
  · have hsep := Separate.carve h.separate
      (show Within ⟨pages, blockSize i * n⟩ ⟨pages, pageSize * poolPageIncrease⟩ by
        rw [blockSize_mul]; exact Within.refl _) hfresh
    refine Separate.perm ?_ hsep
    have hperm := freeExtents_update free i (blocks pages (blockSize i) n) []
    rw [List.append_nil, ← hfree, Function.update_eq_self] at hperm
    refine List.perm_middle.trans (List.Perm.cons _ ?_)
    rw [← List.append_assoc]
    exact (hperm.append_right _).symm

/-- **A run of fresh pages** handed out as one block. -/
theorem newRun {pages n size : ℕ} (hpages : pages ≠ 0) (hroom : size + headerSize ≤ pageSize * n)
    (hfresh : ∀ f ∈ poolsExtent pools :: (freeExtents free ++ live.map LiveBlock.extent),
      Extent.Disjoint ⟨pages, pageSize * n⟩ f) :
    HeapInv pools (Function.update (Function.update mem pages 0) (pages + 8) n) free
      (⟨.run n, pages, size⟩ :: live) := by
  have hph := has_header (b := pages) ((Nat.le_add_left _ _).trans hroom)
  have hmem : ∀ x, ¬Has ⟨pages, pageSize * n⟩ x →
      Function.update (Function.update mem pages 0) (pages + 8) n x = mem x := by
    intro x hnx
    rw [Function.update_of_ne (hph.2.ne hnx), Function.update_of_ne (hph.1.ne hnx)]
  have hlive : ∀ a ∈ live, Extent.Disjoint ⟨pages, pageSize * n⟩ a.extent := fun a ha ↦
    hfresh _ (List.mem_cons_of_mem _ (List.mem_append_right _ (List.mem_map_of_mem ha)))
  refine ⟨fun j ↦ ?_, List.forall_mem_cons.2 ⟨?_, fun a ha ↦ ?_⟩,
    List.forall_mem_cons.2 ⟨fun m hm ↦ ?_, fun a ha m hm ↦ ?_⟩,
    List.forall_mem_cons.2 ⟨hroom, h.room⟩,
    List.forall_mem_cons.2 ⟨Nat.pos_of_ne_zero hpages, h.base_pos⟩, h.pools_pos, ?_⟩
  · refine h.freeList_frame (i := j) (fun x _ ↦ hmem x) (hmem _ fun hx ↦ ?_) fun b hb ↦ hfresh _
      (List.mem_cons_of_mem _ (List.mem_append_left _ (mem_freeExtents.2 ⟨j, b, hb, rfl⟩)))
    exact (hfresh _ List.mem_cons_self).ne hx (has_freeHead pools j) rfl
  · show Function.update _ _ _ pages = 0
    rw [Function.update_of_ne (by omega), Function.update_self]
  · rw [(h.header_frame (i := 0) (fun x _ ↦ hmem x) ha (hlive a ha)).1]
    exact h.header a ha
  · obtain rfl := Owner.run.inj hm
    exact Function.update_self ..
  · rw [(h.header_frame (i := 0) (fun x _ ↦ hmem x) ha (hlive a ha)).2]
    exact h.pages a ha m hm
  · have hsep : Separate (⟨pages, pageSize * n⟩ :: poolsExtent pools ::
        (freeExtents free ++ live.map LiveBlock.extent)) :=
      List.pairwise_cons.2 ⟨hfresh, h.separate⟩
    refine Separate.perm ?_ hsep
    exact (List.Perm.swap _ _ _).trans (List.perm_middle.symm.cons _)

/-- **Giving a block up**: a run of pages goes back to the page allocator. -/
theorem erase (ha : a ∈ live) : HeapInv pools mem free (live.erase a) where
  freeList := h.freeList
  header := fun x hx ↦ h.header x (List.mem_of_mem_erase hx)
  pages := fun x hx ↦ h.pages x (List.mem_of_mem_erase hx)
  room := fun x hx ↦ h.room x (List.mem_of_mem_erase hx)
  base_pos := fun x hx ↦ h.base_pos x (List.mem_of_mem_erase hx)
  pools_pos := h.pools_pos
  separate := (List.pairwise_cons.1 (h.separate_erase ha)).2

/-- **A client's write** into the bytes it asked for. -/
theorem write {k : ℕ} (ha : a ∈ live) (hk : 8 * k < a.size) (w : ℕ) :
    HeapInv pools (Function.update mem (a.ptr + 8 * k) w) free live := by
  have hroom := h.room a ha
  have hin : a.extent.Has (a.ptr + 8 * k) := by
    simp only [Has, LiveBlock.extent, LiveBlock.ptr, headerSize] at *
    omega
  have hmem : ∀ x, ¬a.extent.Has x → Function.update mem (a.ptr + 8 * k) w x = mem x := fun x hnx ↦
    Function.update_of_ne (hin.ne hnx) _ _
  have hown : Function.update mem (a.ptr + 8 * k) w a.base = mem a.base ∧
      Function.update mem (a.ptr + 8 * k) w (a.base + 8) = mem (a.base + 8) := by
    simp only [LiveBlock.ptr, headerSize]
    exact ⟨Function.update_of_ne (by omega) _ _, Function.update_of_ne (by omega) _ _⟩
  have hheader : ∀ x ∈ live, Function.update mem (a.ptr + 8 * k) w x.base = mem x.base ∧
      Function.update mem (a.ptr + 8 * k) w (x.base + 8) = mem (x.base + 8) := by
    intro x hx
    rcases eq_or_ne x a with rfl | hne
    · exact hown
    · exact h.header_frame (i := 0) (fun x _ ↦ hmem x) hx
        (h.live_live ha ((List.mem_erase_of_ne hne).2 hx))
  refine ⟨fun j ↦ ?_, fun x hx ↦ ?_, fun x hx n hn ↦ ?_, h.room, h.base_pos, h.pools_pos,
    h.separate⟩
  · refine h.freeList_frame (i := j) (fun x _ ↦ hmem x) (hmem _ fun hx ↦ ?_) fun b hb ↦
      (h.free_live hb ha).symm
    exact (h.live_pools ha).ne hx (has_freeHead pools j) rfl
  · rw [(hheader x hx).1]
    exact h.header x hx
  · rw [(hheader x hx).2]
    exact h.pages x hx n hn

end Operations

end HeapInv

end Marimba.Kmalloc
