import Marimba.Kmalloc.PoolSystem
import Marimba.Memory.Accesses
import Marimba.Memory.FreedPages

/-!
# The kernel heap over demand-paged memory

`kmalloc.c` once more, on the machine it runs on: its blocks are in pages that `MMU_alloc_pages` has
only reserved, and each of its reads and stores is an access of the processor that may fault in a
page. `kmalloc_spec` and `kfree_spec` say that this is `kmalloc` and `kfree` on a plain memory:
**whatever the pages held that are touched for the first time, the code never reads it.**

What is read has to be known, that is stored before: the `free_head` of each pool, the header of
each free block, and the header of each block that is freed.
-/

namespace Marimba.Kmalloc.Paged

open Extent

/-! ### The code -/

/-- The loop variables of `kmalloc_increase_pool`. -/
structure Carving where
  machine : Machine
  prev : ℕ
  cur : ℕ

/-- The body of the loop of `kmalloc_increase_pool`. -/
def carveBlock (pool size : ℕ) (c : Carving) : Option Carving := do
  let k₁ ← writeWord c.prev c.cur c.machine
  let k₂ ← writeWord c.cur pool k₁
  let k₃ ← writeWord (c.cur + 8) 0 k₂
  some ⟨k₃, c.cur + 8, c.cur + size⟩

/-- The loop of `kmalloc_increase_pool`: `n` blocks. -/
def carve (pool size : ℕ) : ℕ → Carving → Option Carving
  | 0, c => some c
  | n + 1, c => (carve pool size n c).bind (carveBlock pool size)

/-- `kmalloc_increase_pool`. -/
def increasePool (pool size numPages : ℕ) (k : Machine) : Option (ℤ × Machine) := do
  let (head, k₁) ← readWord (pool + 8) k
  if head ≠ 0 then some (0, k₁)
  else
    let (cur, k₂) := MMU.allocPages k₁ numPages
    if cur = 0 then some (-1, k₂)
    else
      let c ← carve pool size (numPages * pageSize / size) ⟨k₂, pool + 8, cur⟩
      some (0, c.machine)

/-- The end of `kmalloc_alloc`: the first free block. -/
def takeHead (pool : ℕ) (k : Machine) : Option (ℕ × Machine) := do
  let (ret, k₁) ← readWord (pool + 8) k
  let (next, k₂) ← readWord (ret + 8) k₁
  let k₃ ← writeWord (pool + 8) next k₂
  let k₄ ← writeWord (ret + 8) 0 k₃
  some (ret, k₄)

/-- `kmalloc_alloc`: `0` is the null pointer. -/
def alloc (pool size : ℕ) (k : Machine) : Option (ℕ × Machine) := do
  let (head, k₁) ← readWord (pool + 8) k
  let (rc, k₂) ← (if head = 0 then increasePool pool size poolPageIncrease k₁ else some (0, k₁))
  if rc < 0 then some (0, k₂) else takeHead pool k₂

/-- `kmalloc`. -/
def kmalloc (pools size : ℕ) (k : Machine) : Option (ℕ × Machine) :=
  if size = 0 then some (0, k)
  else
    match findPool size with
    | some i => do
      let (ret, k₁) ← alloc (poolPtr pools i) (blockSize i) k
      some (if ret = 0 then 0 else ret + headerSize, k₁)
    | none =>
      let (ret, k₁) := MMU.allocPages k (numPages size)
      if ret = 0 then some (0, k₁)
      else do
        let k₂ ← writeWord ret 0 k₁
        let k₃ ← writeWord (ret + 8) (numPages size).toNat k₂
        some (ret + headerSize, k₃)

/-- `kfree`. -/
def kfree (addr : ℕ) (k : Machine) : Option Machine := do
  let block := addr - headerSize
  let (pool, k₁) ← readWord block k
  if pool = 0 then
    let (n, k₂) ← readWord (block + 8) k₁
    some (MMU.freePages k₂ block ((n : ℤ).bmod (2 ^ 32)))
  else
    let (head, k₂) ← readWord (pool + 8) k₁
    let k₃ ← writeWord (block + 8) head k₂
    writeWord (pool + 8) block k₃

/-! ### The pages -/

/-- What `MMU_alloc_pages` answers to a request, if there was one, and where it leaves the heap
pointer. -/
def Granted (k k' : Machine) : Option ℤ → ℕ → Prop
  | none, pages => pages = 0 ∧ k'.bumps.1 = k.bumps.1
  | some n, pages => pages = (MMU.allocPages k n).1 ∧ k'.bumps.1 = (MMU.allocPages k n).2.bumps.1

variable {identityP3 identityP2 : ℕ} {frames : List ℕ} {known : Set ℕ} {s : MemSystem}
  {mem : ℕ → ℕ} {k k' : Machine} {pools pool size p : ℕ} {i : Fin numPools}

/-- Pages that are granted are taken from the heap pointer on. -/
theorem Granted.bump {n : ℤ} {pages : ℕ} (hb : InRegions k.bumps)
    (h : Granted k k' (some n) pages) (hpages : pages ≠ 0) :
    0 < n ∧ pages = k.bumps.1 ∧ pages + pageSize * n.toNat = k'.bumps.1 := by
  have hpos : 0 < k.bumps.1 := lt_of_lt_of_le (by decide) hb.heap_start
  obtain ⟨hret, hnext⟩ := MMU.allocPages_bump hpos hb.heap_end hb.heap_aligned n
  obtain ⟨rfl, hk'⟩ := h
  by_cases hn : 0 < n ∧ k.bumps.1 + pageSize * n.toNat ≤ mmapKernelHeapEnd
  · rw [if_pos hn] at hret
    rw [if_pos hn.1, min_eq_left hn.2] at hnext
    exact ⟨hn.1, hret, by rw [hret, hk', hnext]⟩
  · rw [if_neg hn] at hret
    exact absurd hret hpages

/-- Words of the pages that are granted. -/
theorem kernelWord_of_granted {n : ℤ} {pages v : ℕ} (hb : InRegions k.bumps)
    (hb' : InRegions k'.bumps) (h : Granted k k' (some n) pages) (hpages : pages ≠ 0)
    (hv : Extent.Has ⟨pages, pageSize * n.toNat⟩ v) (hal : v % 8 = 0) :
    KernelWord identityP3 identityP2 frames v := by
  obtain ⟨-, rfl, hle⟩ := h.bump hb hpages
  have hend : v < k'.bumps.1 := hle ▸ hv.2
  exact ⟨hal, Or.inl (Or.inr ⟨hb.heap_start.trans hv.1, hend.trans_le hb'.heap_end⟩)⟩

/-- Pages that are granted begin at the heap pointer. -/
theorem Granted.aligned {n : ℤ} {pages : ℕ} (hb : InRegions k.bumps)
    (h : Granted k k' (some n) pages) (hpages : pages ≠ 0) :
    mmapKernelHeapStart ≤ pages ∧ pages % pageSize = 0 := by
  obtain ⟨-, rfl, -⟩ := h.bump hb hpages
  exact ⟨hb.heap_start, hb.heap_aligned⟩

theorem smallest_dvd_blockSize (i : Fin numPools) : 32 ∣ blockSize i := by
  revert i
  decide

/-- The blocks of a pool begin at multiples of the smallest block size. -/
theorem block_aligned {pages b n : ℕ} (hpages : pages % pageSize = 0)
    (hb : b ∈ blocks pages (blockSize i) n) : b % 32 = 0 := by
  obtain ⟨j, -, rfl⟩ := mem_blocks.1 hb
  have hpages' : 32 ∣ pages := Nat.dvd_trans (by decide) (Nat.dvd_of_mod_eq_zero hpages)
  exact Nat.mod_eq_zero_of_dvd (Nat.dvd_add hpages' ((smallest_dvd_blockSize i).mul_right j))

/-- The headers of the blocks of new pages. -/
theorem kernelWord_of_block {pages b : ℕ} (hb : InRegions k.bumps) (hb' : InRegions k'.bumps)
    (h : Granted k k' (some poolPageIncrease) pages) (hpages : pages ≠ 0)
    (hmem : b ∈ blocks pages (blockSize i) (poolPageIncrease * pageSize / blockSize i)) :
    KernelWord identityP3 identityP2 frames b ∧
      KernelWord identityP3 identityP2 frames (b + 8) := by
  have hal := block_aligned (h.aligned hb hpages).2 hmem
  have hwithin := within_of_mem_blocks hmem
  rw [blockSize_mul] at hwithin
  obtain ⟨h₁, h₂⟩ := has_header (b := b) (headerSize_lt_blockSize i).le
  have hin : ∀ v, Has ⟨b, blockSize i⟩ v →
      Has ⟨pages, pageSize * ((poolPageIncrease : ℕ) : ℤ).toNat⟩ v := fun v hv ↦
    ⟨hwithin.1.trans hv.1, hv.2.trans_le hwithin.2⟩
  exact ⟨kernelWord_of_granted hb hb' h hpages (hin _ h₁) (by omega),
    kernelWord_of_granted hb hb' h hpages (hin _ h₂) (by omega)⟩

/-! ### Each function on a plain memory -/

section Specs

variable (h : Agrees identityP3 identityP2 frames known s mem)

include h

/-- Pages are granted without a word being forgotten. -/
theorem allocPages_agrees (n : ℤ) :
    Agrees identityP3 identityP2 frames known
      { s with machine := (MMU.allocPages s.machine n).2 } mem :=
  h.step_kept (c := .allocPages n) rfl fun _ _ _ ↦ rfl

/-- **The loop of `kmalloc_increase_pool`.** It stores only. -/
theorem carve_spec {prev base : ℕ} (hprev : KernelWord identityP3 identityP2 frames prev) :
    ∀ (n : ℕ) {c : Carving},
      (∀ b ∈ blocks base size n, KernelWord identityP3 identityP2 frames b ∧
        KernelWord identityP3 identityP2 frames (b + 8)) →
      carve pool size n ⟨s.machine, prev, base⟩ = some c →
      ∃ known', Agrees identityP3 identityP2 frames known' { s with machine := c.machine }
          (Kmalloc.carve pool size n ⟨mem, prev, base⟩).mem ∧
        c.machine.bumps = s.machine.bumps ∧
        c.prev = (Kmalloc.carve pool size n ⟨mem, prev, base⟩).prev ∧
        c.cur = (Kmalloc.carve pool size n ⟨mem, prev, base⟩).cur ∧
        KernelWord identityP3 identityP2 frames c.prev ∧ known ⊆ known' ∧
        ∀ b ∈ blocks base size n, b ∈ known' ∧ b + 8 ∈ known'
  | 0, c, _, hrun => by
    obtain rfl := Option.some.inj hrun
    exact ⟨known, h, rfl, rfl, rfl, hprev, subset_rfl, fun b hb ↦ absurd hb List.not_mem_nil⟩
  | n + 1, c, hwords, hrun => by
    obtain ⟨c₁, hrun₁, hbody⟩ := Option.bind_eq_some_iff.1 hrun
    rw [blocks_succ] at hwords ⊢
    obtain ⟨known₁, h₁, hbumps, hp, hc, hword, hsub, hblocks⟩ :=
      carve_spec hprev n (fun b hb ↦ hwords b (List.mem_append_left _ hb)) hrun₁
    have hcur : c₁.cur = base + size * n := by rw [hc, carve_cur]
    obtain ⟨hw, hw₈⟩ := hwords (base + size * n) (by simp)
    rw [← hcur] at hw hw₈
    simp only [carveBlock, Option.bind_eq_bind, Option.bind_eq_some_iff] at hbody
    obtain ⟨k₁, hk₁, k₂, hk₂, k₃, hk₃, heq⟩ := hbody
    obtain rfl := Option.some.inj heq
    rw [Kmalloc.carve, Kmalloc.carveBlock, ← hp, ← hc]
    obtain ⟨h₂, hb₁⟩ := writeWord_spec h₁ hword hk₁
    obtain ⟨h₃, hb₂⟩ := writeWord_spec h₂ hw hk₂
    obtain ⟨h₄, hb₃⟩ := writeWord_spec h₃ hw₈ hk₃
    have hsub₃ : known₁ ⊆ insert (c₁.cur + 8) (insert c₁.cur (insert c₁.prev known₁)) := fun v hv ↦
      Set.mem_insert_of_mem _ (Set.mem_insert_of_mem _ (Set.mem_insert_of_mem _ hv))
    refine ⟨_, h₄, hb₃.trans (hb₂.trans (hb₁.trans hbumps)), rfl, rfl, hw₈, hsub.trans hsub₃,
      fun b hb ↦ ?_⟩
    rcases List.mem_append.1 hb with hb | hb
    · exact ⟨hsub₃ (hblocks b hb).1, hsub₃ (hblocks b hb).2⟩
    · rw [List.mem_singleton.1 hb, ← hcur]
      exact ⟨Set.mem_insert_of_mem _ (Set.mem_insert _ _), Set.mem_insert _ _⟩

/-- Taking the first free block. -/
theorem takeHead_spec (hhead : freeHead pools i ∈ known)
    (hnext : mem (freeHead pools i) + 8 ∈ known)
    (hrun : takeHead (poolPtr pools i) s.machine = some (p, k')) :
    p = mem (freeHead pools i) ∧ k'.bumps = s.machine.bumps ∧
      Agrees identityP3 identityP2 frames known { s with machine := k' } (popped pools mem i) := by
  simp only [takeHead, Option.bind_eq_bind, Option.bind_eq_some_iff, Prod.exists] at hrun
  obtain ⟨ret, k₁, hret, next, k₂, hn, k₃, hk₃, k₄, hk₄, heq⟩ := hrun
  obtain ⟨rfl, rfl⟩ := Prod.mk.inj (Option.some.inj heq)
  obtain ⟨rfl, rfl⟩ := Prod.mk.inj (Option.some.inj ((readWord_known h hhead).symm.trans hret))
  obtain ⟨rfl, rfl⟩ := Prod.mk.inj (Option.some.inj ((readWord_known h hnext).symm.trans hn))
  obtain ⟨h₁, hb₁⟩ := writeWord_spec h (h.word _ hhead) hk₃
  obtain ⟨h₂, hb₂⟩ := writeWord_spec h₁ (h.word _ hnext) hk₄
  refine ⟨rfl, hb₂.trans hb₁, h₂.mono fun v hv ↦ ?_⟩
  exact Set.mem_insert_of_mem _ (Set.mem_insert_of_mem _ hv)

/-- **`kmalloc_alloc`.** -/
theorem alloc_spec (hhead : freeHead pools i ∈ known)
    (hstatic : StaticWord identityP3 identityP2 frames (freeHead pools i))
    (hnext : mem (freeHead pools i) ≠ 0 → mem (freeHead pools i) + 8 ∈ known)
    (hrun : alloc (poolPtr pools i) (blockSize i) s.machine = some (p, k')) :
    ∃ pages known', Granted s.machine k'
        (if mem (freeHead pools i) = 0 then some poolPageIncrease else none) pages ∧
      (Kmalloc.alloc answer (poolPtr pools i) (blockSize i) ⟨mem, pages⟩).1 = p ∧
      Agrees identityP3 identityP2 frames known' { s with machine := k' }
        (Kmalloc.alloc answer (poolPtr pools i) (blockSize i) ⟨mem, pages⟩).2.mem ∧
      known ⊆ known' ∧
      (pages ≠ 0 → ∀ b ∈ blocks pages (blockSize i) (poolPageIncrease * pageSize / blockSize i),
        b ∈ known' ∧ b + 8 ∈ known') := by
  simp only [alloc, Option.bind_eq_bind, Option.bind_eq_some_iff, Prod.exists] at hrun
  obtain ⟨head, k₁, hh, rc, k₂, hrc, hrest⟩ := hrun
  obtain ⟨rfl, rfl⟩ := Prod.mk.inj (Option.some.inj ((readWord_known h hhead).symm.trans hh))
  by_cases hzero : mem (freeHead pools i) = 0
  · rw [if_pos hzero] at hrc
    simp only [increasePool, Option.bind_eq_bind, Option.bind_eq_some_iff, Prod.exists] at hrc
    obtain ⟨head, k₁, hh, hrc⟩ := hrc
    obtain ⟨rfl, rfl⟩ := Prod.mk.inj (Option.some.inj ((readWord_known h hhead).symm.trans hh))
    rw [if_neg (not_not.2 hzero)] at hrc
    have hgr : Granted s.machine (MMU.allocPages s.machine poolPageIncrease).2
        (some poolPageIncrease) (MMU.allocPages s.machine poolPageIncrease).1 := ⟨rfl, rfl⟩
    have hag := allocPages_agrees h poolPageIncrease
    rw [if_pos hzero]
    generalize MMU.allocPages s.machine poolPageIncrease = a at hrc hgr hag
    obtain ⟨pages, k₃⟩ := a
    dsimp only at hrc hgr hag
    by_cases hpages : pages = 0
    · -- `kmalloc_increase_pool` fails
      rw [if_pos hpages] at hrc
      obtain ⟨rfl, rfl⟩ := Prod.mk.inj (Option.some.inj hrc)
      rw [if_pos (by decide)] at hrest
      obtain ⟨rfl, rfl⟩ := Prod.mk.inj (Option.some.inj hrest)
      refine ⟨pages, known, hgr, ?_, ?_, subset_rfl, fun hne ↦ absurd hpages hne⟩
      · rw [alloc_of_pages_eq_zero answer ⟨mem, pages⟩ hzero hpages]
      · rw [alloc_of_pages_eq_zero answer ⟨mem, pages⟩ hzero hpages]
        exact hag
    · rw [if_neg hpages] at hrc
      obtain ⟨c, hc, heq⟩ := Option.bind_eq_some_iff.1 hrc
      obtain ⟨rfl, rfl⟩ := Prod.mk.inj (Option.some.inj heq)
      rw [if_neg (by decide)] at hrest
      obtain ⟨known₁, h₁, hbumps, -, -, -, hsub, hblocks⟩ := carve_spec hag (h.word _ hhead) _
        (fun b hb ↦ kernelWord_of_block h.regions hag.regions hgr hpages hb) hc
      -- the pools are below the heap, so the carving leaves them alone
      have hstart := (hgr.aligned h.regions hpages).1
      have hfar : ∀ b ∈ blocks pages (blockSize i) (poolPageIncrease * pageSize / blockSize i),
          freeHead pools i ≠ b ∧ freeHead pools i ≠ b + 8 := fun b hb ↦ by
        have hle := (within_of_mem_blocks hb).1
        have hlt := hstatic.lt
        simp only [identityEnd, pageTableNumEnts, hugePageFrameSize, mmapKernelHeapStart,
          p4PteAddresses] at hstart hle hlt
        omega
      have hlist := FreeList.carve (headerSize_lt_blockSize i).le hpages hfar hzero
      obtain ⟨xs, hxs⟩ := blocks_cons pages i
      have hfirst : carvedMem pools mem i pages (freeHead pools i) = pages := by
        rw [hxs] at hlist
        exact hlist.head_eq.1
      have hin : pages + 8 ∈ known₁ := (hblocks pages (hxs ▸ List.mem_cons_self)).2
      obtain ⟨rfl, hbumps', h₂⟩ := takeHead_spec h₁ (hsub hhead)
        (show carvedMem pools mem i pages (freeHead pools i) + 8 ∈ known₁ by rwa [hfirst]) hrest
      refine ⟨pages, known₁, ?_, ?_, ?_, hsub, fun _ ↦ hblocks⟩
      · rw [Granted, show k'.bumps = k₃.bumps from hbumps'.trans hbumps]
        exact hgr
      · rw [alloc_of_pages_ne_zero answer ⟨mem, pages⟩ hzero hpages]
        rfl
      · rw [alloc_of_pages_ne_zero answer ⟨mem, pages⟩ hzero hpages]
        exact h₂
  · rw [if_neg hzero] at hrc ⊢
    obtain ⟨rfl, rfl⟩ := Prod.mk.inj (Option.some.inj hrc)
    rw [if_neg (by decide)] at hrest
    obtain ⟨rfl, hbumps, h₁⟩ := takeHead_spec h hhead (hnext hzero) hrest
    refine ⟨0, known, ⟨rfl, congrArg Prod.fst hbumps⟩, ?_, ?_, subset_rfl, fun hne ↦ absurd rfl hne⟩
    · rw [alloc_of_head_ne_zero answer ⟨mem, 0⟩ hzero]
    · rw [alloc_of_head_ne_zero answer ⟨mem, 0⟩ hzero]
      exact h₁

/-- **`kmalloc`** is `kmalloc` on the plain memory, with the answer that `MMU_alloc_pages` gives. -/
theorem kmalloc_spec (hheads : ∀ i, freeHead pools i ∈ known)
    (hstatic : ∀ i, StaticWord identityP3 identityP2 frames (freeHead pools i))
    (hnext : ∀ i, mem (freeHead pools i) ≠ 0 → mem (freeHead pools i) + 8 ∈ known)
    (hrun : kmalloc pools size s.machine = some (p, k')) :
    ∃ pages known', Granted s.machine k' (request pools mem size) pages ∧
      (Kmalloc.kmalloc answer pools size ⟨mem, pages⟩).1 = p ∧
      Agrees identityP3 identityP2 frames known' { s with machine := k' }
        (Kmalloc.kmalloc answer pools size ⟨mem, pages⟩).2.mem ∧
      known ⊆ known' ∧
      (∀ i, findPool size = some i → pages ≠ 0 →
        ∀ b ∈ blocks pages (blockSize i) (poolPageIncrease * pageSize / blockSize i),
          b ∈ known' ∧ b + 8 ∈ known') ∧
      (findPool size = none → pages ≠ 0 → pages ∈ known' ∧ pages + 8 ∈ known') := by
  rcases eq_or_ne size 0 with rfl | hsize
  · rw [kmalloc, if_pos rfl] at hrun
    obtain ⟨rfl, rfl⟩ := Prod.mk.inj (Option.some.inj hrun)
    exact ⟨0, known, ⟨rfl, rfl⟩, rfl, h, subset_rfl, fun _ _ hne ↦ absurd rfl hne,
      fun _ hne ↦ absurd rfl hne⟩
  · simp only [kmalloc, Kmalloc.kmalloc, request, hsize, if_false] at hrun ⊢
    rcases hp : findPool size with - | i
    · rw [hp] at hrun
      have hgr : Granted s.machine (MMU.allocPages s.machine (numPages size)).2
          (some (numPages size)) (MMU.allocPages s.machine (numPages size)).1 := ⟨rfl, rfl⟩
      have hag := allocPages_agrees h (numPages size)
      dsimp only at hrun ⊢
      generalize MMU.allocPages s.machine (numPages size) = a at hrun hgr hag
      obtain ⟨pages, k₁⟩ := a
      dsimp only at hrun hgr hag
      refine ⟨pages, ?_⟩
      by_cases hpages : pages = 0
      · rw [if_pos hpages] at hrun
        obtain ⟨rfl, rfl⟩ := Prod.mk.inj (Option.some.inj hrun)
        subst hpages
        exact ⟨known, hgr, rfl, hag, subset_rfl, fun _ _ hne ↦ absurd rfl hne,
          fun _ hne ↦ absurd rfl hne⟩
      · rw [if_neg hpages] at hrun
        simp only [Option.bind_eq_bind, Option.bind_eq_some_iff] at hrun
        obtain ⟨k₂, hk₂, k₃, hk₃, heq⟩ := hrun
        obtain ⟨rfl, rfl⟩ := Prod.mk.inj (Option.some.inj heq)
        have hpos := (hgr.bump h.regions hpages).1
        have hal := (hgr.aligned h.regions hpages).2
        obtain ⟨hhas, hhas₈⟩ := has_header (b := pages) (n := pageSize * (numPages size).toNat)
          (by simp only [headerSize, pageSize]; omega)
        simp only [pageSize] at hal
        obtain ⟨h₁, hb₁⟩ := writeWord_spec hag
          (kernelWord_of_granted h.regions hag.regions hgr hpages hhas (by omega)) hk₂
        obtain ⟨h₂, hb₂⟩ := writeWord_spec h₁
          (kernelWord_of_granted h.regions hag.regions hgr hpages hhas₈ (by omega)) hk₃
        have hret : Kmalloc.kmalloc answer pools size ⟨mem, pages⟩ = (pages + headerSize,
            ⟨Function.update (Function.update mem pages 0) (pages + 8) (numPages size).toNat,
              pages⟩) := by
          simp only [Kmalloc.kmalloc, hsize, hp, answer, hpages, if_false]
        simp only [Kmalloc.kmalloc, hsize, hp, if_false] at hret
        refine ⟨insert (pages + 8) (insert pages known), ?_, congrArg Prod.fst hret, ?_,
          fun v hv ↦ Set.mem_insert_of_mem _ (Set.mem_insert_of_mem _ hv),
          fun j hj ↦ absurd hj (by simp), fun _ _ ↦
            ⟨Set.mem_insert_of_mem _ (Set.mem_insert _ _), Set.mem_insert _ _⟩⟩
        · rw [Granted, show k₃.bumps = k₁.bumps from hb₂.trans hb₁]
          exact hgr
        · rw [hret]
          exact h₂
    · rw [hp] at hrun
      simp only [Option.bind_eq_bind, Option.bind_eq_some_iff, Prod.exists] at hrun
      obtain ⟨ret, k₁, hret, heq⟩ := hrun
      obtain ⟨rfl, rfl⟩ := Prod.mk.inj (Option.some.inj heq)
      obtain ⟨pages, known', hgr, hp₁, h₁, hsub, hblocks⟩ :=
        alloc_spec h (hheads i) (hstatic i) (hnext i) hret
      refine ⟨pages, known', hgr, ?_, ?_, hsub, fun j hj ↦ ?_, fun h ↦ by cases h⟩
      · dsimp only
        rw [hp₁]
        split <;> rfl
      · dsimp only
        rw [hp₁]
        split <;> exact h₁
      · obtain rfl := Option.some.inj hj
        exact hblocks

/-- **A run of pages is freed**: its words are forgotten. -/
theorem freePages_agrees {base n : ℕ} (hn : n ≤ intSpan) (hal : base % pageSize = 0)
    (hstart : mmapKernelHeapStart ≤ base) (hend : base + pageSize * n ≤ mmapKernelHeapEnd) :
    Agrees identityP3 identityP2 frames {v ∈ known | ¬Has ⟨base, pageSize * n⟩ v}
      { s with machine := MMU.freePages s.machine base n } mem := by
  have hoffset : ∀ i < n, pageOffset base i = base + pageSize * i := fun i hi ↦
    pageOffset_of_lt hstart ((Nat.le_add_right _ _).trans hend) (hi.trans_le hn)
  refine h.step (c := .freePages base n) (r := 0) ?_ (fun v hv ↦ h.word v hv.1)
    (fun v hv hheap ↦ Or.inr ⟨hv.1, ?_⟩) fun v hv _ ↦ ⟨hv.1, rfl⟩
  · rw [MemSystem.step, if_pos fun i hi ↦ ?_]
    rw [Int.toNat_natCast] at hi
    rw [hoffset i hi]
    simp only [pageSize] at hend ⊢
    exact Or.inr ⟨by omega, by omega⟩
  · refine if_neg ?_
    rintro ⟨i, hi, heq⟩
    rw [Int.toNat_natCast] at hi
    rw [hoffset i hi] at heq
    refine hv.2 ?_
    simp only [Has, pageStart, pageSize] at *
    omega

/-- **`kfree`** is `kfree` on the plain memory. -/
theorem kfree_spec {free : Fin numPools → List ℕ} {live : List LiveBlock} {a : LiveBlock}
    {σ : Type*} (freePages : σ → ℕ → ℤ → σ) (mmu : σ) (hheap : HeapInv pools mem free live)
    (ha : a ∈ live) (hheads : ∀ i, freeHead pools i ∈ known)
    (hbase : a.base ∈ known ∧ a.base + 8 ∈ known)
    (hpages : ∀ n, a.owner = .run n → n ≤ intSpan ∧ a.base % pageSize = 0 ∧
      mmapKernelHeapStart ≤ a.base ∧ a.base + pageSize * n ≤ mmapKernelHeapEnd)
    (hrun : kfree a.ptr s.machine = some k') :
    k'.bumps = s.machine.bumps ∧
      Agrees identityP3 identityP2 frames
        {v ∈ known | ∀ n, a.owner = .run n → ¬a.extent.Has v} { s with machine := k' }
        (Kmalloc.kfree freePages a.ptr ⟨mem, mmu⟩).mem := by
  have hblock : a.ptr - headerSize = a.base := Nat.add_sub_cancel ..
  rw [kfree, hblock, readWord_known h hbase.1] at hrun
  rcases howner : a.owner with i | n
  · have hheader : mem a.base = poolPtr pools i := by
      rw [hheap.header a ha, howner]
      rfl
    simp only [Option.bind_eq_bind, Option.bind_some, hheader, poolPtr_ne_zero hheap.pools_pos i,
      if_false] at hrun
    rw [show poolPtr pools i + 8 = freeHead pools i from rfl, readWord_known h (hheads i),
      Option.bind_some] at hrun
    obtain ⟨k₁, hk₁, hk₂⟩ := Option.bind_eq_some_iff.1 hrun
    obtain ⟨h₁, hb₁⟩ := writeWord_spec h (h.word _ hbase.2) hk₁
    obtain ⟨h₂, hb₂⟩ := writeWord_spec h₁ (h.word _ (hheads i)) hk₂
    rw [kfree_of_pool freePages hheap ha howner]
    exact ⟨hb₂.trans hb₁, h₂.mono fun v hv ↦
      Set.mem_insert_of_mem _ (Set.mem_insert_of_mem _ hv.1)⟩
  · have hheader : mem a.base = 0 := by
      rw [hheap.header a ha, howner]
      rfl
    simp only [Option.bind_eq_bind, Option.bind_some, hheader, if_true] at hrun
    rw [readWord_known h hbase.2, hheap.pages a ha n howner] at hrun
    obtain ⟨hn, hal, hstart, hend⟩ := hpages n howner
    have hcount : (n : ℤ).bmod (2 ^ 32) = n := by
      simp only [intSpan, Int.bmod] at hn ⊢
      omega
    obtain rfl := Option.some.inj hrun
    rw [kfree_of_run freePages hheap ha howner, hcount]
    refine ⟨MMU.freeRun_bumps _ _ _, (freePages_agrees h hn hal hstart hend).mono fun v hv ↦ ?_⟩
    have hext : a.extent = ⟨a.base, pageSize * n⟩ := by rw [LiveBlock.extent, howner, Owner.len]
    exact ⟨hv.1, hext ▸ hv.2 n rfl⟩

end Specs

end Marimba.Kmalloc.Paged
