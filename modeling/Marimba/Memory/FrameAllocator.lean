import Marimba.Foundations.Chain
import Marimba.Foundations.Fifo
import Marimba.Memory.Machine
import Mathlib.Data.List.Range

/-!
# The physical frame allocator

`MMU_alloc_frame` and `MMU_free_frame` of `mmu.c`. Free frames sit in two places: the segments that
boot-time initialization left behind, consumed page by page from the front, and the queue of frames
that were freed since, whose links are stored **in the first word of the free frames themselves**.

`FreeFrames k inSegments queued` is the representation: the segment list spells out the pages
`inSegments`, and the link words spell out the frames `queued`. The two operations are described by
one equation each (`allocFrame_segment`, `allocFrame_queue`, `allocFrame_empty`,
`freeFrame_freeFrames`), and everything later is derived from those.

**The tail pointer is only meaningful while the queue is nonempty.** It goes stale whenever the
queue empties, and `freeFrame` never reads it then; `FreeFrames.tail` is guarded accordingly.

The allocator as a whole is a FIFO pool: `runTrace` of the concrete commands and of
`FifoPool.step` agree on every list of commands in which clients free, and write into, only frames
they hold.
-/

namespace Marimba

/-- A stored word as a pointer: `0` is null. -/
def toPtr (w : ℕ) : Option ℕ := if w = 0 then none else some w

@[simp] theorem toPtr_zero : toPtr 0 = none := rfl

theorem toPtr_of_ne {w : ℕ} (h : w ≠ 0) : toPtr w = some w := if_neg h

theorem toPtr_eq_some_iff {w f : ℕ} : toPtr w = some f ↔ w = f ∧ f ≠ 0 := by
  unfold toPtr
  split
  · next h =>
    subst h
    exact ⟨fun e ↦ absurd e (by simp), fun ⟨e, hf⟩ ↦ absurd e.symm hf⟩
  · next h =>
    rw [Option.some.injEq]
    exact ⟨fun e ↦ ⟨e, e ▸ h⟩, And.left⟩

theorem toPtr_eq_none_iff {w : ℕ} : toPtr w = none ↔ w = 0 := by
  unfold toPtr
  split <;> simp_all

namespace MMU

/-! ### The operations -/

/-- `MMU_alloc_frame`: the first page of the first segment while there is one, otherwise the front
of the queue of freed frames, otherwise null. -/
def allocFrame (k : Machine) : ℕ × Machine :=
  match k.mmu.freeSegmentHead with
  | some i =>
    let node := k.mmu.freeSegments i
    let seg : Segment :=
      { node.s with base := wadd node.s.base pageSize, len := wsub node.s.len pageSize }
    (node.s.base,
      { k with mmu :=
        { k.mmu with
          freeSegments := Function.update k.mmu.freeSegments i { node with s := seg }
          freeSegmentHead := if seg.len = 0 then node.next else some i } })
  | none =>
    if k.mmu.freePageHead = 0 then (0, k)
    else
      (k.mmu.freePageHead,
        { k with mmu := { k.mmu with freePageHead := k.mem k.mmu.freePageHead } })

/-- `MMU_free_frame`: append the frame to the queue, writing its address into the link word of the
old tail, and terminate the queue in the frame's own link word. -/
def freeFrame (k : Machine) (addr : ℕ) : Machine :=
  let k₁ : Machine :=
    if k.mmu.freePageHead = 0 then
      { k with mmu := { k.mmu with freePageHead := addr, freePageTail := addr } }
    else
      let k₀ := k.store k.mmu.freePageTail addr
      { k₀ with mmu := { k₀.mmu with freePageTail := addr } }
  k₁.store addr 0

/-! Allocation changes nothing but the two free lists. -/

@[simp] theorem allocFrame_mem (k : Machine) : (allocFrame k).2.mem = k.mem := by
  unfold allocFrame
  split
  · rfl
  · split <;> rfl

@[simp] theorem allocFrame_cr3 (k : Machine) : (allocFrame k).2.cr3 = k.cr3 := by
  unfold allocFrame
  split
  · rfl
  · split <;> rfl

@[simp] theorem allocFrame_irq (k : Machine) : (allocFrame k).2.irq = k.irq := by
  unfold allocFrame
  split
  · rfl
  · split <;> rfl

@[simp] theorem allocFrame_bumps (k : Machine) : (allocFrame k).2.bumps = k.bumps := by
  unfold allocFrame
  split
  · rfl
  · split <;> rfl

@[simp] theorem allocFrame_freePageTail (k : Machine) :
    (allocFrame k).2.mmu.freePageTail = k.mmu.freePageTail := by
  unfold allocFrame
  split
  · rfl
  · split <;> rfl

end MMU

/-! ### Segments and their pages -/

/-- The pages of a segment, in the order in which they are handed out. -/
def Segment.pages (s : Segment) : List ℕ :=
  (List.range (s.len / pageSize)).map fun j ↦ s.base + pageSize * j

/-- A segment the allocator can consume: page-aligned, nonempty, without page `0` and inside the
address space. -/
structure Segment.WellFormed (s : Segment) : Prop where
  base_aligned : s.base % pageSize = 0
  base_pos : 0 < s.base
  len_aligned : s.len % pageSize = 0
  len_pos : 0 < s.len
  end_le : s.base + s.len ≤ wordSize

/-- Two segments share no address. -/
def Segment.Disjoint (s t : Segment) : Prop :=
  s.base + s.len ≤ t.base ∨ t.base + t.len ≤ s.base

/-- A page frame: page-aligned, and not the null page. -/
def IsFrame (f : ℕ) : Prop := f % pageSize = 0 ∧ 0 < f

instance (f : ℕ) : Decidable (IsFrame f) := inferInstanceAs (Decidable (_ ∧ _))

namespace Segment

theorem mem_pages {s : Segment} {f : ℕ} :
    f ∈ s.pages ↔ ∃ j, j < s.len / pageSize ∧ s.base + pageSize * j = f := by
  simp [pages]

theorem WellFormed.isFrame {s : Segment} (h : s.WellFormed) {f : ℕ} (hf : f ∈ s.pages) :
    IsFrame f := by
  obtain ⟨j, -, rfl⟩ := mem_pages.1 hf
  have h₁ := h.base_aligned
  have h₂ := h.base_pos
  simp only [IsFrame, pageSize] at *
  omega

theorem lt_of_mem_pages {s : Segment} (h : s.WellFormed) {f : ℕ} (hf : f ∈ s.pages) :
    s.base ≤ f ∧ f + pageSize ≤ s.base + s.len := by
  obtain ⟨j, hj, rfl⟩ := mem_pages.1 hf
  have h₁ := h.len_aligned
  simp only [pageSize] at *
  omega

theorem pages_nodup (s : Segment) : s.pages.Nodup := by
  refine List.Nodup.map (fun i j hij ↦ ?_) List.nodup_range
  simp only [pageSize] at hij
  omega

/-- **Taking a page off the front.** The remaining pages are those of the segment with its base
advanced and its length reduced by one page. -/
theorem pages_cons {s : Segment} (h : s.WellFormed) :
    s.pages = s.base :: ({ s with base := s.base + pageSize, len := s.len - pageSize } :
      Segment).pages := by
  have h₁ := h.len_pos
  have h₂ := h.len_aligned
  have hlen : s.len / pageSize = (s.len - pageSize) / pageSize + 1 := by
    simp only [pageSize] at *
    omega
  rw [pages, hlen, List.range_succ_eq_map, List.map_cons, List.map_map]
  congr 1
  simp only [pages]
  refine List.map_congr_left fun j _ ↦ ?_
  simp only [Function.comp_apply, Nat.succ_eq_add_one, pageSize]
  omega

/-- What is left of a segment of at least two pages is well formed. -/
theorem WellFormed.tail {s : Segment} (h : s.WellFormed) (hlen : s.len ≠ pageSize) :
    ({ s with base := s.base + pageSize, len := s.len - pageSize } : Segment).WellFormed := by
  obtain ⟨h₁, h₂, h₃, h₄, h₅⟩ := h
  constructor <;> simp only [pageSize] at * <;> omega

/-- Disjoint segments share no page. -/
theorem Disjoint.pages {s t : Segment} (hs : s.WellFormed) (ht : t.WellFormed)
    (h : s.Disjoint t) : List.Disjoint s.pages t.pages := by
  intro f hf hf'
  have h₁ := lt_of_mem_pages hs hf
  have h₂ := lt_of_mem_pages ht hf'
  simp only [pageSize] at h₁ h₂
  rcases h with h | h <;> omega

end Segment

/-! ### The representation of the free frames -/

/-- The pages still in segments and the queue of freed frames, as the state stores them. -/
structure FreeFrames (k : Machine) (inSegments queued : List ℕ) : Prop where
  /-- The segment list is finite, its segments are well formed, and these are their pages. -/
  segments : ∃ idxs, Chain (fun i ↦ (k.mmu.freeSegments i).next) k.mmu.freeSegmentHead idxs ∧
    (∀ i ∈ idxs, (k.mmu.freeSegments i).s.WellFormed) ∧
    inSegments = idxs.flatMap fun i ↦ (k.mmu.freeSegments i).s.pages
  /-- The link words spell out the queue. -/
  queue : Chain (fun f ↦ toPtr (k.mem f)) (toPtr k.mmu.freePageHead) queued
  /-- The tail pointer is the last frame, while there is one. -/
  tail : ∀ h : queued ≠ [], k.mmu.freePageTail = queued.getLast h

namespace FreeFrames

variable {k : Machine} {inSegments queued : List ℕ}

/-- The representation reads only the link words of the queued frames. -/
theorem congr_mem {mem' : ℕ → ℕ} (hmem : ∀ f ∈ queued, k.mem f = mem' f)
    (h : FreeFrames k inSegments queued) :
    FreeFrames { k with mem := mem' } inSegments queued where
  segments := h.segments
  queue := h.queue.congr fun f hf ↦ by rw [hmem f hf]
  tail := h.tail

end FreeFrames

namespace MMU

variable {k : Machine} {inSegments queued : List ℕ} {f : ℕ}

/-! ### What the operations do to the representation -/

/-- Allocation while pages are left in segments. -/
theorem allocFrame_segment (h : FreeFrames k (f :: inSegments) queued) :
    (allocFrame k).1 = f ∧ FreeFrames (allocFrame k).2 inSegments queued := by
  obtain ⟨idxs, hchain, hwf, hpages⟩ := h.segments
  rcases idxs with - | ⟨i, idxs⟩
  · simp at hpages
  obtain ⟨hhead, hrest⟩ := hchain
  have hi := hwf i List.mem_cons_self
  have hnot : i ∉ idxs := (List.nodup_cons.1 (Chain.nodup (show Chain _ _ (i :: idxs) from
    ⟨hhead, hrest⟩))).1
  have hbase : wadd (k.mmu.freeSegments i).s.base pageSize =
      (k.mmu.freeSegments i).s.base + pageSize ∨
      (k.mmu.freeSegments i).s.len = pageSize := by
    by_cases hone : (k.mmu.freeSegments i).s.len = pageSize
    · exact Or.inr hone
    · refine Or.inl (wadd_of_lt ?_)
      have h₁ := hi.len_pos
      have h₂ := hi.len_aligned
      have h₃ := hi.end_le
      simp only [pageSize, wordSize] at *
      omega
  have hlen : wsub (k.mmu.freeSegments i).s.len pageSize =
      (k.mmu.freeSegments i).s.len - pageSize := by
    have h₀ := hi.base_pos
    have h₁ := hi.len_pos
    have h₂ := hi.len_aligned
    have h₃ := hi.end_le
    refine wsub_of_le ?_ ?_ <;> simp only [pageSize, wordSize] at * <;> omega
  rw [List.flatMap_cons, Segment.pages_cons hi, List.cons_append, List.cons.injEq] at hpages
  obtain ⟨rfl, hpages⟩ := hpages
  have hframe : ∀ {node : SegmentList} {j}, j ∈ idxs →
      Function.update k.mmu.freeSegments i node j = k.mmu.freeSegments j := fun hj ↦
    Function.update_of_ne (fun e ↦ hnot (by rwa [e] at hj)) _ _
  refine ⟨by simp [allocFrame, hhead], ?_, ?_, ?_⟩
  · simp only [allocFrame, hhead, hlen]
    by_cases hone : (k.mmu.freeSegments i).s.len = pageSize
    · -- the last page of the segment: the head moves to the next node
      have hzero : (k.mmu.freeSegments i).s.len - pageSize = 0 := by omega
      refine ⟨idxs, ?_, fun j hj ↦ ?_, ?_⟩
      · rw [if_pos hzero]
        exact Chain.congr (fun j hj ↦ by rw [hframe hj]) hrest
      · rw [hframe hj]
        exact hwf j (List.mem_cons_of_mem i hj)
      · rw [hpages, Segment.pages, hzero]
        simp only [Nat.zero_div, List.range_zero, List.map_nil, List.nil_append]
        exact List.flatMap_congr fun j hj ↦ by rw [hframe hj]
    · -- pages are left: the same node stays in front, one page shorter
      have hbase' := hbase.resolve_right hone
      have hwf' := hi.tail hone
      have hpos : ¬((k.mmu.freeSegments i).s.len - pageSize = 0) :=
        Nat.pos_iff_ne_zero.1 hwf'.len_pos
      refine ⟨i :: idxs, ?_, fun j hj ↦ ?_, ?_⟩
      · rw [if_neg hpos]
        refine ⟨rfl, ?_⟩
        simp only [Function.update_self]
        exact Chain.congr (fun j hj ↦ by rw [hframe hj]) hrest
      · rcases List.mem_cons.1 hj with rfl | hj
        · simp only [Function.update_self, hbase']
          exact hwf'
        · rw [hframe hj]
          exact hwf j (List.mem_cons_of_mem i hj)
      · rw [hpages, List.flatMap_cons]
        simp only [Function.update_self, hbase']
        exact congrArg _ (List.flatMap_congr fun j hj ↦ by rw [hframe hj])
  · rw [allocFrame_mem, show (allocFrame k).2.mmu.freePageHead = k.mmu.freePageHead by
      simp only [allocFrame, hhead]]
    exact h.queue
  · rw [allocFrame_freePageTail]
    exact h.tail

/-- With no page left in segments, the segment list itself is empty: a well-formed segment has a
page. -/
theorem freeSegmentHead_eq_none (h : FreeFrames k [] queued) : k.mmu.freeSegmentHead = none := by
  obtain ⟨idxs, hchain, hwf, hpages⟩ := h.segments
  rcases idxs with - | ⟨i, idxs⟩
  · exact hchain
  · have hmem : (k.mmu.freeSegments i).s.base ∈ ([] : List ℕ) := by
      rw [hpages, List.flatMap_cons, Segment.pages_cons (hwf i List.mem_cons_self)]
      exact List.mem_append_left _ List.mem_cons_self
    exact absurd hmem List.not_mem_nil

/-- Allocation from the queue of freed frames. -/
theorem allocFrame_queue (h : FreeFrames k [] (f :: queued)) :
    (allocFrame k).1 = f ∧ FreeFrames (allocFrame k).2 [] queued := by
  have hhead := freeSegmentHead_eq_none h
  obtain ⟨hptr, hrest⟩ := h.queue
  obtain ⟨hf, hne⟩ := toPtr_eq_some_iff.1 hptr
  have halloc : allocFrame k =
      (k.mmu.freePageHead,
        { k with mmu := { k.mmu with freePageHead := k.mem k.mmu.freePageHead } }) := by
    simp only [allocFrame, hhead]
    exact if_neg (by rw [hf]; exact hne)
  rw [halloc]
  refine ⟨hf, ⟨[], hhead, by simp, rfl⟩, ?_, fun hq ↦ ?_⟩
  · show Chain (fun f ↦ toPtr (k.mem f)) (toPtr (k.mem k.mmu.freePageHead)) queued
    rw [hf]
    exact hrest
  · rw [← List.getLast_cons (a := f) hq]
    exact h.tail (List.cons_ne_nil f queued)

/-- **Allocation fails exactly when nothing is free**: here, the state is left as it was. -/
theorem allocFrame_empty (h : FreeFrames k [] []) : allocFrame k = (0, k) := by
  have hhead := freeSegmentHead_eq_none h
  have hzero := toPtr_eq_none_iff.1 h.queue
  simp only [allocFrame, hhead]
  exact if_pos hzero

/-- Allocation, in one statement: the front of the free list, and the rest stays free. -/
theorem allocFrame_cons {free : List ℕ} (h : FreeFrames k inSegments queued)
    (hfree : inSegments ++ queued = f :: free) :
    (allocFrame k).1 = f ∧ ∃ inSegments' queued',
      FreeFrames (allocFrame k).2 inSegments' queued' ∧ inSegments' ++ queued' = free ∧
        (∀ x ∈ inSegments', x ∈ inSegments) ∧ (∀ x ∈ queued', x ∈ queued) := by
  rcases inSegments with - | ⟨g, inSegments⟩
  · rcases queued with - | ⟨g, queued⟩
    · cases hfree
    · obtain ⟨rfl, rfl⟩ := List.cons.inj hfree
      obtain ⟨hret, hrep⟩ := allocFrame_queue h
      exact ⟨hret, [], queued, hrep, rfl, by simp, fun x hx ↦ List.mem_cons_of_mem _ hx⟩
  · obtain ⟨rfl, rfl⟩ := List.cons.inj hfree
    obtain ⟨hret, hrep⟩ := allocFrame_segment h
    exact ⟨hret, inSegments, queued, hrep, rfl, fun x hx ↦ List.mem_cons_of_mem _ hx,
      fun _ hx ↦ hx⟩

/-! Freeing writes two words: the link of the old tail and the link of the freed frame. -/

@[simp] theorem freeFrame_cr3 (k : Machine) (f : ℕ) : (freeFrame k f).cr3 = k.cr3 := by
  unfold freeFrame
  split <;> rfl

@[simp] theorem freeFrame_irq (k : Machine) (f : ℕ) : (freeFrame k f).irq = k.irq := by
  unfold freeFrame
  split <;> rfl

@[simp] theorem freeFrame_bumps (k : Machine) (f : ℕ) : (freeFrame k f).bumps = k.bumps := by
  unfold freeFrame
  split <;> rfl

theorem freeFrame_mem_of_head_eq_zero (h : k.mmu.freePageHead = 0) :
    (freeFrame k f).mem = Function.update k.mem f 0 := by
  simp only [freeFrame, if_pos h, Machine.store_mem]

theorem freeFrame_mem_of_head_ne_zero (h : k.mmu.freePageHead ≠ 0) :
    (freeFrame k f).mem =
      Function.update (Function.update k.mem k.mmu.freePageTail f) f 0 := by
  simp only [freeFrame, if_neg h, Machine.store_mem]

/-- Freeing leaves every word alone but the link words of the freed frame and of the queue. -/
theorem freeFrame_mem_of_notMem (h : FreeFrames k inSegments queued) {a : ℕ} (ha : a ≠ f)
    (hq : a ∉ queued) : (freeFrame k f).mem a = k.mem a := by
  by_cases hzero : k.mmu.freePageHead = 0
  · rw [freeFrame_mem_of_head_eq_zero hzero, Function.update_of_ne ha]
  · have hne : queued ≠ [] := by
      rintro rfl
      exact hzero (toPtr_eq_none_iff.1 h.queue)
    have htail : a ≠ k.mmu.freePageTail := by
      rw [h.tail hne]
      exact fun e ↦ hq (e ▸ List.getLast_mem hne)
    rw [freeFrame_mem_of_head_ne_zero hzero, Function.update_of_ne ha, Function.update_of_ne htail]

/-- **Freeing appends.** -/
theorem freeFrame_freeFrames (h : FreeFrames k inSegments queued) (hf : f ≠ 0)
    (hq : f ∉ queued) : FreeFrames (freeFrame k f) inSegments (queued ++ [f]) := by
  by_cases hzero : k.mmu.freePageHead = 0
  · -- an empty queue: the freed frame becomes head and tail
    obtain rfl : queued = [] := by
      rcases queued with - | ⟨g, queued⟩
      · rfl
      · have := h.queue.1
        simp [hzero] at this
    refine ⟨?_, ?_, fun _ ↦ ?_⟩
    · simpa [freeFrame, hzero] using h.segments
    · simp [freeFrame, hzero, toPtr_of_ne hf]
    · simp [freeFrame, hzero]
  · have hne : queued ≠ [] := by
      rintro rfl
      exact hzero (toPtr_eq_none_iff.1 h.queue)
    have htail := h.tail hne
    set t := queued.getLast hne with ht
    have hsplit : queued = queued.dropLast ++ [t] := (List.dropLast_append_getLast hne).symm
    have htq : t ∈ queued := List.getLast_mem hne
    have htf : t ≠ f := fun e ↦ hq (e ▸ htq)
    refine ⟨?_, ?_, fun _ ↦ ?_⟩
    · simpa [freeFrame, hzero] using h.segments
    · -- with the freed frame's link already null, pointing the old tail at it joins the chains
      have hnull : Chain (Function.update (fun g ↦ toPtr (k.mem g)) f none)
          (toPtr k.mmu.freePageHead) (queued.dropLast ++ [t]) := by
        rw [← hsplit]
        exact h.queue.update_of_notMem hq
      have hlast : Chain (Function.update (fun g ↦ toPtr (k.mem g)) f none) (some f) [f] :=
        ⟨rfl, by simp⟩
      have hjoin := hnull.redirect hlast (by simpa using htf)
      have hfin : queued ++ [f] = queued.dropLast ++ t :: [f] := by
        conv_lhs => rw [hsplit]
        simp
      rw [freeFrame_mem_of_head_ne_zero hzero, htail, hfin,
        show (freeFrame k f).mmu.freePageHead = k.mmu.freePageHead by simp [freeFrame, hzero]]
      refine hjoin.congr fun g _ ↦ ?_
      by_cases hg : g = t
      · subst hg
        simp [htf, toPtr_of_ne hf]
      · by_cases hgf : g = f
        · subst hgf
          simp [hg]
        · simp [hg, hgf]
    · simp [freeFrame, hzero]

end MMU

/-! ### The allocator and its clients -/

/-- What clients of the frame allocator do. A frame has 512 words; a client may write any word of a
frame it holds, the link word included. -/
inductive FrameCmd where
  | allocFrame
  | freeFrame (f : ℕ)
  | write (f : ℕ) (i : Fin pageTableNumEnts) (v : ℕ)

/-- The machine together with the frames its clients hold. -/
structure FrameSystem where
  machine : Machine
  held : List ℕ

/-- One client command. Freeing and writing are allowed on held frames only. -/
def FrameSystem.step (s : FrameSystem) : FrameCmd → Option (Option ℕ × FrameSystem)
  | .allocFrame =>
    let r := MMU.allocFrame s.machine
    some (toPtr r.1, ⟨r.2, (toPtr r.1).toList ++ s.held⟩)
  | .freeFrame f =>
    if f ∈ s.held then some (none, ⟨MMU.freeFrame s.machine f, s.held.erase f⟩) else none
  | .write f i v =>
    if f ∈ s.held then some (none, ⟨s.machine.store (f + 8 * i) v, s.held⟩) else none

/-- The command as the pool sees it: what is written into a held frame is nobody's business. -/
def FrameCmd.toPoolCmd : FrameCmd → PoolCmd ℕ
  | .allocFrame => .take
  | .freeFrame f => .give f
  | .write f _ _ => .use f

/-- A well-formed segment list: finite, with well-formed and pairwise disjoint segments. -/
structure SegmentsWellFormed (m : MMUState) (idxs : List ℕ) : Prop where
  chain : Chain (fun i ↦ (m.freeSegments i).next) m.freeSegmentHead idxs
  wellFormed : ∀ i ∈ idxs, (m.freeSegments i).s.WellFormed
  disjoint : idxs.Pairwise fun i j ↦ (m.freeSegments i).s.Disjoint (m.freeSegments j).s

/-- All pages of the segments, in segment order. -/
def MMUState.segmentPages (m : MMUState) (idxs : List ℕ) : List ℕ :=
  idxs.flatMap fun i ↦ (m.freeSegments i).s.pages

namespace SegmentsWellFormed

variable {m : MMUState} {idxs : List ℕ}

theorem isFrame (h : SegmentsWellFormed m idxs) {f : ℕ} (hf : f ∈ m.segmentPages idxs) :
    IsFrame f := by
  obtain ⟨i, hi, hfi⟩ := List.mem_flatMap.1 hf
  exact (h.wellFormed i hi).isFrame hfi

/-- Disjoint segments list no page twice. -/
theorem segmentPages_nodup (h : SegmentsWellFormed m idxs) : (m.segmentPages idxs).Nodup := by
  refine List.nodup_flatMap.2 ⟨fun i _ ↦ Segment.pages_nodup _, ?_⟩
  refine List.Pairwise.imp_of_mem (fun {i j} hi hj hd ↦ ?_) h.disjoint
  exact hd.pages (h.wellFormed i hi) (h.wellFormed j hj)

/-- With no frame freed yet, the free frames are the pages of the segments. -/
theorem freeFrames {k : Machine} (h : SegmentsWellFormed k.mmu idxs)
    (hq : k.mmu.freePageHead = 0) : FreeFrames k (k.mmu.segmentPages idxs) [] where
  segments := ⟨idxs, h.chain, h.wellFormed, rfl⟩
  queue := toPtr_eq_none_iff.2 hq
  tail := fun h ↦ absurd rfl h

end SegmentsWellFormed

/-- The simulation relation: the free frames, segments first, are the queue of the pool, and queue
and held frames together are the frames the pool started with. -/
def FrameSystem.Refines (pages : List ℕ) (s : FrameSystem) (p : FifoPool ℕ) : Prop :=
  (∃ inSegments queued, FreeFrames s.machine inSegments queued ∧
    p.queue = inSegments ++ queued) ∧ p.held = s.held ∧ (p.queue ++ p.held).Perm pages

/-- Word `0` of a frame is no word of another frame. -/
theorem IsFrame.ne_word {f g : ℕ} (hf : IsFrame f) (hg : IsFrame g) (hne : g ≠ f)
    (i : Fin pageTableNumEnts) : g ≠ f + 8 * i := by
  have hi := i.isLt
  simp only [IsFrame, pageSize, pageTableNumEnts] at hf hg hi
  omega

section Refinement

variable {pages : List ℕ} (hframe : ∀ f ∈ pages, IsFrame f) (hnodup : pages.Nodup)

include hframe in
/-- Allocation takes the front of the queue. -/
theorem FrameSystem.refines_allocFrame {s : FrameSystem} {p : FifoPool ℕ}
    (h : s.Refines pages p) :
    Option.Rel (fun x y ↦ x.1 = y.1 ∧ x.2.Refines pages y.2)
      (s.step .allocFrame) (p.step .take) := by
  obtain ⟨⟨inSegments, queued, hrep, hqueue⟩, hheld, hperm⟩ := h
  rcases hq : p.queue with - | ⟨f, q⟩
  · obtain ⟨rfl, rfl⟩ := List.append_eq_nil_iff.1 (hqueue.symm.trans hq)
    simp only [FrameSystem.step, FifoPool.step, hq, MMU.allocFrame_empty hrep]
    exact Option.Rel.some ⟨rfl, ⟨[], [], hrep, hq⟩, hheld, hperm⟩
  · obtain ⟨hret, inSegments', queued', hrep', hqueue', -⟩ :=
      MMU.allocFrame_cons hrep (hqueue.symm.trans hq)
    have hf : IsFrame f := hframe f (hperm.subset (by simp [hq]))
    have htake : p.step .take = some (some f, ⟨q, f :: p.held⟩) := by simp only [FifoPool.step, hq]
    rw [htake]
    simp only [FrameSystem.step, hret, toPtr_of_ne hf.2.ne']
    exact Option.Rel.some ⟨rfl, ⟨inSegments', queued', hrep', hqueue'.symm⟩, by simp [hheld],
      (FifoPool.perm_of_step htake).trans hperm⟩

include hframe hnodup in
/-- **The allocator simulates the pool**, one command at a time. -/
theorem FrameSystem.refines_step {s : FrameSystem} {p : FifoPool ℕ} (c : FrameCmd)
    (h : s.Refines pages p) :
    Option.Rel (fun x y ↦ x.1 = y.1 ∧ x.2.Refines pages y.2)
      (s.step c) (p.step c.toPoolCmd) := by
  cases c with
  | allocFrame => exact FrameSystem.refines_allocFrame hframe h
  | freeFrame f =>
    obtain ⟨⟨inSegments, queued, hrep, hqueue⟩, hheld, hperm⟩ := h
    by_cases hf : f ∈ s.held
    · have hgive : p.step (.give f) = some (none, ⟨p.queue ++ [f], p.held.erase f⟩) := by
        simp only [FifoPool.step]
        exact if_pos (hheld ▸ hf)
      simp only [FrameSystem.step, FrameCmd.toPoolCmd, hgive, if_pos hf]
      have hmem : f ∈ p.queue ++ p.held := List.mem_append_right _ (hheld ▸ hf)
      have hnotq : f ∉ queued := by
        have hnd := hperm.nodup_iff.2 hnodup
        rw [List.nodup_append] at hnd
        exact fun hq ↦ hnd.2.2 f (by rw [hqueue]; exact List.mem_append_right _ hq) f
          (hheld ▸ hf) rfl
      refine Option.Rel.some ⟨rfl, ⟨inSegments, queued ++ [f], ?_, ?_⟩, by rw [hheld],
        (FifoPool.perm_of_step hgive).trans hperm⟩
      · exact MMU.freeFrame_freeFrames hrep (hframe f (hperm.subset hmem)).2.ne' hnotq
      · rw [hqueue, List.append_assoc]
    · simp only [FrameSystem.step, FrameCmd.toPoolCmd, FifoPool.step, hheld, if_neg hf]
      exact Option.Rel.none
  | write f i v =>
    obtain ⟨⟨inSegments, queued, hrep, hqueue⟩, hheld, hperm⟩ := h
    simp only [FrameSystem.step, FrameCmd.toPoolCmd, FifoPool.step, hheld]
    split
    · next hf =>
      have hmem : f ∈ p.queue ++ p.held := List.mem_append_right _ (hheld ▸ hf)
      refine Option.Rel.some ⟨rfl, ⟨inSegments, queued, ?_, hqueue⟩, hheld, hperm⟩
      refine hrep.congr_mem fun g hg ↦ ?_
      have hgq : g ∈ p.queue := by rw [hqueue]; exact List.mem_append_right _ hg
      have hne : g ≠ f := by
        have hnd := hperm.nodup_iff.2 hnodup
        rw [List.nodup_append] at hnd
        exact hnd.2.2 g hgq f (hheld ▸ hf)
      exact (Function.update_of_ne ((hframe f (hperm.subset hmem)).ne_word
        (hframe g (hperm.subset (List.mem_append_left _ hgq))) hne i) _ _).symm
    · exact Option.Rel.none

end Refinement

/-- **The frame allocator is a FIFO pool.** From a well-formed segment list and an empty queue, any
list of client commands is allowed by the allocator exactly when the pool of the segments' pages
allows it, and then every allocation returns what the pool returns: the front of the queue, or null
exactly when the queue is empty. The clients hold the same frames, each once, and queue and held
frames together are a permutation of the segments' pages, so no frame is lost. -/
theorem allocator_refines_fifo {k : Machine} {idxs : List ℕ}
    (hseg : SegmentsWellFormed k.mmu idxs) (hq : k.mmu.freePageHead = 0) (cmds : List FrameCmd) :
    Option.Rel (fun x y ↦ x.1 = y.1 ∧ x.2.held = y.2.held ∧ x.2.held.Nodup ∧
        (y.2.queue ++ y.2.held).Perm (k.mmu.segmentPages idxs))
      (runTrace FrameSystem.step ⟨k, []⟩ cmds)
      (runTrace (fun p c ↦ FifoPool.step p (FrameCmd.toPoolCmd c))
        ⟨k.mmu.segmentPages idxs, []⟩ cmds) := by
  have hinit : FrameSystem.Refines (k.mmu.segmentPages idxs) ⟨k, []⟩
      ⟨k.mmu.segmentPages idxs, []⟩ :=
    ⟨⟨_, [], hseg.freeFrames hq, by simp⟩, rfl, by simp⟩
  have hrun := runTrace_eq_of_simulation
    (fun s p c h ↦ FrameSystem.refines_step (fun f hf ↦ hseg.isFrame hf)
      hseg.segmentPages_nodup c h) cmds hinit
  refine hrun.mono fun x y ⟨hout, _, hheld, hperm⟩ ↦ ⟨hout, hheld.symm, ?_, hperm⟩
  have hnd := hperm.nodup_iff.2 hseg.segmentPages_nodup
  rw [← hheld]
  exact (List.nodup_append.1 hnd).2.1

/-- A machine whose only segment has `n` pages, from `0x1000` on, and nothing else. -/
def poolOfPages (n : ℕ) : Machine where
  mem := fun _ ↦ 0
  cr3 := 0
  mmu :=
    { freeSegments := fun _ ↦ ⟨none, ⟨pageSize, 0, pageSize * n⟩⟩
      freeSegmentHead := some 0
      freePageHead := 0
      freePageTail := 0
      pageTable := 0
      nextKernelHeapVaddr := 0
      nextKernelThreadStackVaddr := 0 }
  irq := ⟨0, true⟩

theorem segmentsWellFormed_poolOfPages {n : ℕ} (hpos : 0 < n) (hlt : n < 2 ^ 40) :
    SegmentsWellFormed (poolOfPages n).mmu [0] where
  chain := ⟨rfl, rfl⟩
  wellFormed := by
    intro i _
    constructor <;> simp only [poolOfPages, pageSize, wordSize] <;> omega
  disjoint := by simp

theorem allocator_refines_fifo_twoPages :
    Option.Rel (fun x y ↦ x.1 = y.1 ∧ x.2.held = y.2.held ∧ x.2.held.Nodup ∧
        (y.2.queue ++ y.2.held).Perm ((poolOfPages 2).mmu.segmentPages [0]))
      (runTrace FrameSystem.step ⟨poolOfPages 2, []⟩
        [.allocFrame, .write 0x1000 0 7, .allocFrame, .freeFrame 0x2000, .freeFrame 0x1000,
          .allocFrame, .allocFrame, .allocFrame])
      (runTrace (fun p c ↦ FifoPool.step p (FrameCmd.toPoolCmd c))
        ⟨(poolOfPages 2).mmu.segmentPages [0], []⟩
        [.allocFrame, .write 0x1000 0 7, .allocFrame, .freeFrame 0x2000, .freeFrame 0x1000,
          .allocFrame, .allocFrame, .allocFrame]) :=
  allocator_refines_fifo (segmentsWellFormed_poolOfPages (by decide) (by decide)) rfl _

end Marimba
