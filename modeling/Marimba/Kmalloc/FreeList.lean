import Marimba.Kmalloc.Allocator

/-!
# The free list of a pool

`FreeList pools mem i xs` says that the memory stores `xs` as the free list of pool `i`: following
the `next` fields from the pool's `free_head` visits the blocks of `xs` and ends in a null pointer,
and every block of `xs` names the pool in its header.

There are three operations on a free list: `kmalloc_alloc` takes the first block off (`pop`),
`kfree` puts a block in front (`push`), and `kmalloc_increase_pool` threads new blocks into an empty
list (`carve`). A free list depends on no word but the pool's `free_head` and the headers of its
blocks (`congr`), so nothing that happens elsewhere changes it.
-/

namespace Marimba.Kmalloc

variable {pools : ℕ} {i : Fin numPools} {mem mem' : ℕ → ℕ} {xs : List ℕ} {b : ℕ}

/-- The address of `pools[i].free_head`. -/
def freeHead (pools : ℕ) (i : Fin numPools) : ℕ := poolPtr pools i + 8

/-- The blocks of `xs` are linked in this order from the `free_head` of pool `i`. -/
structure FreeList (pools : ℕ) (mem : ℕ → ℕ) (i : Fin numPools) (xs : List ℕ) : Prop where
  chain : Chain (fun b ↦ toPtr (mem (b + 8))) (toPtr (mem (freeHead pools i))) xs
  header : ∀ b ∈ xs, mem b = poolPtr pools i

namespace FreeList

theorem head_eq_zero_iff (h : FreeList pools mem i xs) : mem (freeHead pools i) = 0 ↔ xs = [] := by
  constructor
  · intro h₀
    have hchain := h.chain
    rw [h₀, toPtr_zero] at hchain
    exact hchain.unique rfl
  · rintro rfl
    exact toPtr_eq_none_iff.1 h.chain

theorem congr (h : FreeList pools mem i xs)
    (hhead : mem' (freeHead pools i) = mem (freeHead pools i))
    (hblock : ∀ b ∈ xs, mem' b = mem b ∧ mem' (b + 8) = mem (b + 8)) :
    FreeList pools mem' i xs where
  chain := by
    rw [hhead]
    exact h.chain.congr fun b hb ↦ by rw [(hblock b hb).2]
  header := fun b hb ↦ (hblock b hb).1.trans (h.header b hb)

/-- The first block of the list is what `free_head` holds, and it is not null. -/
theorem head_eq (h : FreeList pools mem i (b :: xs)) : mem (freeHead pools i) = b ∧ b ≠ 0 :=
  toPtr_eq_some_iff.1 h.chain.1

/-- **Taking the first block off.** -/
theorem pop (h : FreeList pools mem i (b :: xs)) (hb : b + 8 ≠ freeHead pools i)
    (hhead : ∀ x ∈ xs, x ≠ freeHead pools i ∧ x + 8 ≠ freeHead pools i)
    (hother : ∀ x ∈ xs, x ≠ b + 8) :
    FreeList pools
      (Function.update (Function.update mem (freeHead pools i) (mem (b + 8))) (b + 8) 0)
      i xs := by
  have hnot : b ∉ xs := (List.nodup_cons.1 h.chain.nodup).1
  refine ⟨?_, fun x hx ↦ ?_⟩
  · rw [Function.update_of_ne hb.symm, Function.update_self]
    refine h.chain.2.congr fun x hx ↦ ?_
    have hxb : x + 8 ≠ b + 8 := fun e ↦ hnot (Nat.add_right_cancel e ▸ hx)
    rw [Function.update_of_ne hxb, Function.update_of_ne (hhead x hx).2]
  · rw [Function.update_of_ne (hother x hx), Function.update_of_ne (hhead x hx).1]
    exact h.header x (List.mem_cons_of_mem b hx)

/-- **Putting a block in front.** -/
theorem push (h : FreeList pools mem i xs) (hb₀ : b ≠ 0) (hheader : mem b = poolPtr pools i)
    (hb : b ≠ freeHead pools i ∧ b + 8 ≠ freeHead pools i) (hnot : b ∉ xs)
    (hhead : ∀ x ∈ xs, x ≠ freeHead pools i ∧ x + 8 ≠ freeHead pools i)
    (hother : ∀ x ∈ xs, x ≠ b + 8) :
    FreeList pools (Function.update (Function.update mem (b + 8) (mem (freeHead pools i)))
      (freeHead pools i) b) i (b :: xs) := by
  refine ⟨⟨?_, ?_⟩, List.forall_mem_cons.2 ⟨?_, fun x hx ↦ ?_⟩⟩
  · rw [Function.update_self]
    exact toPtr_of_ne hb₀
  · dsimp only
    rw [Function.update_of_ne hb.2, Function.update_self]
    refine h.chain.congr fun x hx ↦ ?_
    have hxb : x + 8 ≠ b + 8 := fun e ↦ hnot (Nat.add_right_cancel e ▸ hx)
    rw [Function.update_of_ne (hhead x hx).2, Function.update_of_ne hxb]
  · rw [Function.update_of_ne hb.1, Function.update_of_ne (by omega), hheader]
  · rw [Function.update_of_ne (hhead x hx).1, Function.update_of_ne (hother x hx)]
    exact h.header x hx

end FreeList

/-! ### Threading new blocks into an empty list -/

/-- The last word of a list of blocks that is linked from the word at `c`. -/
def lastLink (c : ℕ) : List ℕ → ℕ
  | [] => c
  | b :: xs => lastLink (b + 8) xs

theorem lastLink_concat (c : ℕ) (xs : List ℕ) : lastLink c (xs ++ [b]) = b + 8 := by
  induction xs generalizing c with
  | nil => rfl
  | cons x xs ih => exact ih (x + 8)

theorem lastLink_mem (c : ℕ) (xs : List ℕ) :
    lastLink c xs = c ∨ ∃ x ∈ xs, lastLink c xs = x + 8 := by
  induction xs generalizing c with
  | nil => exact Or.inl rfl
  | cons x xs ih =>
    rcases ih (x + 8) with h | ⟨y, hy, h⟩
    · exact Or.inr ⟨x, List.mem_cons_self, h⟩
    · exact Or.inr ⟨y, List.mem_cons_of_mem x hy, h⟩

/-- Linking a block behind the last one. The induction is on the list, the word it is linked from
moving along. -/
theorem chain_concat {c : ℕ} (hb₀ : b ≠ 0) (hb : b + 8 ≠ c) (hbs : b ∉ xs) (hnodup : xs.Nodup)
    (hc : ∀ x ∈ xs, x + 8 ≠ c)
    (h : Chain (fun b ↦ toPtr (mem (b + 8))) (toPtr (mem c)) xs) :
    Chain
      (fun x ↦ toPtr (Function.update (Function.update mem (lastLink c xs) b) (b + 8) 0 (x + 8)))
      (toPtr (Function.update (Function.update mem (lastLink c xs) b) (b + 8) 0 c))
      (xs ++ [b]) := by
  induction xs generalizing c with
  | nil =>
    refine ⟨?_, ?_⟩
    · rw [Function.update_of_ne hb.symm, lastLink, Function.update_self]
      exact toPtr_of_ne hb₀
    · show toPtr _ = none
      rw [Function.update_self, toPtr_zero]
  | cons x xs ih =>
    obtain ⟨hxs, hnodup'⟩ := List.nodup_cons.1 hnodup
    have hx₈ : ∀ y ∈ xs, y + 8 ≠ x + 8 := fun y hy e ↦ hxs (Nat.add_right_cancel e ▸ hy)
    have hlast : lastLink (x + 8) xs ≠ c := by
      rcases lastLink_mem (x + 8) xs with h | ⟨y, hy, h⟩
      · rw [h]
        exact hc x List.mem_cons_self
      · rw [h]
        exact hc y (List.mem_cons_of_mem x hy)
    refine ⟨?_, ih ?_ (fun hm ↦ hbs (List.mem_cons_of_mem x hm)) hnodup' hx₈ h.2⟩
    · rw [Function.update_of_ne hb.symm, lastLink, Function.update_of_ne hlast.symm]
      exact h.1
    · exact fun e ↦ hbs (Nat.add_right_cancel e ▸ List.mem_cons_self)

section Carve

variable {pool size base c : ℕ}

theorem carve_cur (pool size base c : ℕ) (mem : ℕ → ℕ) (n : ℕ) :
    (carve pool size n ⟨mem, c, base⟩).cur = base + size * n := by
  induction n with
  | zero => rfl
  | succ n ih =>
    rw [carve, carveBlock]
    dsimp only
    rw [ih, Nat.mul_succ, Nat.add_assoc]

theorem carve_prev (pool size base c : ℕ) (mem : ℕ → ℕ) (n : ℕ) :
    (carve pool size n ⟨mem, c, base⟩).prev = lastLink c (Extent.blocks base size n) := by
  cases n with
  | zero => rfl
  | succ n => rw [Extent.blocks_succ, lastLink_concat, carve, carveBlock, carve_cur]

/-- Carving writes the word it starts from and headers of new blocks, nothing else. -/
theorem carve_mem_of_ne {n a : ℕ} (hc : a ≠ c)
    (ha : ∀ b ∈ Extent.blocks base size n, a ≠ b ∧ a ≠ b + 8) :
    (carve pool size n ⟨mem, c, base⟩).mem a = mem a := by
  induction n with
  | zero => rfl
  | succ n ih =>
    rw [Extent.blocks_succ] at ha
    obtain ⟨hb, hb₈⟩ := ha (base + size * n) (by simp)
    have hbs : ∀ b ∈ Extent.blocks base size n, a ≠ b ∧ a ≠ b + 8 := fun b hm ↦
      ha b (List.mem_append_left _ hm)
    have hprev : a ≠ (carve pool size n ⟨mem, c, base⟩).prev := by
      rw [carve_prev]
      rcases lastLink_mem c (Extent.blocks base size n) with h | ⟨b, hm, h⟩
      · rwa [h]
      · rw [h]
        exact (hbs b hm).2
    rw [carve, carveBlock, carve_cur]
    dsimp only
    rw [Function.update_of_ne hb₈, Function.update_of_ne hb, Function.update_of_ne hprev, ih hbs]

/-- Blocks of at least a header's size are apart. -/
theorem blocks_lt {n b : ℕ} (hsize : headerSize ≤ size) (hb : b ∈ Extent.blocks base size n) :
    b + headerSize ≤ base + size * n :=
  (Nat.add_le_add_left hsize b).trans (Extent.within_of_mem_blocks hb).2

theorem blocks_nodup (n : ℕ) (hsize : headerSize ≤ size) : (Extent.blocks base size n).Nodup := by
  induction n with
  | zero => exact List.nodup_nil
  | succ n ih =>
    rw [Extent.blocks_succ]
    refine List.nodup_append.2 ⟨ih, List.nodup_singleton _, fun b hb x hx e ↦ ?_⟩
    have hlt := blocks_lt hsize hb
    rw [List.mem_singleton.1 hx] at e
    simp only [headerSize] at hlt
    omega

/-- No block starts in the middle of another's header. -/
theorem blocks_ne_link {n b y : ℕ} (hsize : headerSize ≤ size) (hb : b ∈ Extent.blocks base size n)
    (hy : y ∈ Extent.blocks base size n) : b ≠ y + 8 := by
  obtain ⟨j, -, rfl⟩ := Extent.mem_blocks.1 hb
  obtain ⟨l, -, rfl⟩ := Extent.mem_blocks.1 hy
  have hlt : ∀ {j l : ℕ}, j < l → base + size * j + headerSize ≤ base + size * l := fun h ↦
    blocks_lt hsize (Extent.mem_blocks.2 ⟨_, h, rfl⟩)
  simp only [headerSize] at hlt
  rcases Nat.lt_trichotomy j l with hjl | rfl | hjl
  · have := hlt hjl
    omega
  · omega
  · have := hlt hjl
    omega

/-- **Carving.** Threading `n` blocks through the word at `c`, which is outside of them, links them
in order, with the pool in every header. -/
theorem carve_chain {n : ℕ} (hsize : headerSize ≤ size) (hbase : base ≠ 0)
    (hc : ∀ b ∈ Extent.blocks base size n, c ≠ b ∧ c ≠ b + 8) (hmem : mem c = 0) :
    Chain (fun b ↦ toPtr ((carve pool size n ⟨mem, c, base⟩).mem (b + 8)))
        (toPtr ((carve pool size n ⟨mem, c, base⟩).mem c)) (Extent.blocks base size n) ∧
      ∀ b ∈ Extent.blocks base size n, (carve pool size n ⟨mem, c, base⟩).mem b = pool := by
  induction n with
  | zero => exact ⟨toPtr_eq_none_iff.2 hmem, fun b hb ↦ absurd hb List.not_mem_nil⟩
  | succ n ih =>
    rw [Extent.blocks_succ] at hc ⊢
    obtain ⟨hcb, hcb₈⟩ := hc (base + size * n) (by simp)
    have hcs : ∀ b ∈ Extent.blocks base size n, c ≠ b ∧ c ≠ b + 8 := fun b hm ↦
      hc b (List.mem_append_left _ hm)
    obtain ⟨hchain, hheader⟩ := ih hcs
    have hapart : ∀ b ∈ Extent.blocks base size n, b + 16 ≤ base + size * n := fun b hb ↦
      blocks_lt hsize hb
    have hlinks := chain_concat (b := base + size * n) (by omega) hcb₈.symm
      (fun hm ↦ absurd (hapart _ hm) (by omega)) (blocks_nodup n hsize)
      (fun b hb ↦ (hcs b hb).2.symm) hchain
    rw [carve, carveBlock, carve_cur, carve_prev]
    dsimp only
    refine ⟨?_, fun b hb ↦ ?_⟩
    · -- the header word of the new block is no link
      have hpool : ∀ a, a ≠ base + size * n → ∀ m : ℕ → ℕ,
          Function.update (Function.update m (base + size * n) pool) (base + size * n + 8) 0 a =
            Function.update m (base + size * n + 8) 0 a := by
        intro a ha m
        rw [Function.update_comm (by omega), Function.update_of_ne ha]
      rw [hpool c hcb]
      refine hlinks.congr fun b hb ↦ ?_
      rw [hpool (b + 8) ?_]
      rcases List.mem_append.1 hb with hb | hb
      · have := hapart b hb
        omega
      · rw [List.mem_singleton.1 hb]
        omega
    · rcases List.mem_append.1 hb with hb | hb
      · have := hapart b hb
        rw [Function.update_of_ne (by omega), Function.update_of_ne (by omega),
          Function.update_of_ne, hheader b hb]
        rcases lastLink_mem c (Extent.blocks base size n) with h | ⟨y, hy, h⟩
        · rw [h]
          exact (hcs b hb).1.symm
        · rw [h]
          exact blocks_ne_link hsize hb hy
      · rw [List.mem_singleton.1 hb, Function.update_of_ne (by omega), Function.update_self]

theorem FreeList.carve {n : ℕ} (hsize : headerSize ≤ size) (hbase : base ≠ 0)
    (hc : ∀ b ∈ Extent.blocks base size n, freeHead pools i ≠ b ∧ freeHead pools i ≠ b + 8)
    (hmem : mem (freeHead pools i) = 0) :
    FreeList pools (Kmalloc.carve (poolPtr pools i) size n ⟨mem, freeHead pools i, base⟩).mem i
      (Extent.blocks base size n) := by
  obtain ⟨hchain, hheader⟩ := carve_chain hsize hbase hc hmem
  exact ⟨hchain, hheader⟩

end Carve

end Marimba.Kmalloc
