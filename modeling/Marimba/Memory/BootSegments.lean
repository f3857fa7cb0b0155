import Marimba.Memory.VirtualAllocator

/-!
# The free segments at boot

The first half of `MMU_init`: from the memory map that the boot loader left, `mmu_compute_excluded`
makes a list of the page ranges of the kernel, and `mmu_compute_free_segments` the list of what is
left of the RAM. Both build linked lists inside arrays, so a pointer to a node is its index.

The three loops of `mmu_compute_free_segments` are translated as they are, with their cursors: the
copy, the rounding, which unlinks a section that has become empty through `prev`, and the exclusion
(`ExcludeState.step`), which walks the RAM and the kernel list side by side. The exclusion need not
end; loops take a number of iterations and answer `none` when it is used up, and so does a null
pointer that is followed.

Of the memory map only what is read is kept: the total size of the RAM and the names of the kernel
sections are left out.
-/

namespace Marimba

/-! ### The memory map -/

/-- `struct MMapEntry`. -/
structure MMapEntry where
  base : ℕ
  length : ℕ
  deriving DecidableEq, Repr

/-- `struct KernelSection`. -/
structure KernelSection where
  base : ℕ
  length : ℕ
  deriving DecidableEq, Repr

/-- `struct PhysicalMMap`, the arrays with their counts as lists. -/
structure PhysicalMMap where
  ramSects : List MMapEntry
  kernelSects : List KernelSection
  deriving DecidableEq, Repr

/-- The segments of an array, linked in their order. -/
def linkedSegments (segs : List Segment) (i : ℕ) : SegmentList :=
  { next := if i + 1 < segs.length then some (i + 1) else none
    s := segs.getD i ⟨0, 0, 0⟩ }

/-! ### `mmu_compute_excluded` -/

/-- The rounding of a kernel section: base down, length up to whole pages. -/
def roundExcluded (s : Segment) : Segment :=
  let newBase := s.base - s.base % pageSize
  let len := wadd s.len (wsub s.base newBase)
  let len := if len % pageSize ≠ 0 then wadd len pageSize - wadd len pageSize % pageSize else len
  { base := newBase, len := len, end_ := wadd newBase len }

/-- The loop that rounds the nodes from `curr` on. -/
def roundExcludedFrom : (fuel : ℕ) → Option ℕ → (ℕ → SegmentList) → Option (ℕ → SegmentList)
  | _, none, ex => some ex
  | 0, some _, _ => none
  | fuel + 1, some curr, ex =>
    roundExcludedFrom fuel (ex curr).next
      (Function.update ex curr { ex curr with s := roundExcluded (ex curr).s })

/-- The loop that merges overlapping and touching kernel segments into the earlier one. -/
def reduceExcluded : (fuel prev : ℕ) → Option ℕ → (ℕ → SegmentList) → Option (ℕ → SegmentList)
  | _, _, none, ex => some ex
  | 0, _, some _, _ => none
  | fuel + 1, prev, some curr, ex =>
    let p := (ex prev).s
    let c := (ex curr).s
    if wadd p.base p.len < c.base then reduceExcluded fuel curr (ex curr).next ex
    else
      let len := max p.len (wsub (wadd c.base c.len) p.base)
      reduceExcluded fuel prev (ex curr).next
        (Function.update ex prev
          { next := (ex curr).next, s := { p with len := len, end_ := wadd p.base len } })

/-- `mmu_compute_excluded`: the array of excluded segments, whose list starts at index `0`. There is
no result without kernel sections, where the code walks from a node that is uninitialised. -/
def mmuComputeExcluded (map : PhysicalMMap) : Option (ℕ → SegmentList) := do
  let ex := linkedSegments
    (map.kernelSects.map fun k ↦ ⟨k.base, wadd k.base k.length, k.length⟩)
  let ex ← roundExcludedFrom map.kernelSects.length (some 0) ex
  reduceExcluded map.kernelSects.length 0 (ex 0).next ex

/-! ### `mmu_compute_free_segments` -/

namespace MMUState

/-- Write to a node of `free_segments`. -/
def setNode (m : MMUState) (i : ℕ) (n : SegmentList) : MMUState :=
  { m with freeSegments := Function.update m.freeSegments i n }

@[simp] theorem setNode_freeSegments (m : MMUState) (i : ℕ) (n : SegmentList) :
    (m.setNode i n).freeSegments = Function.update m.freeSegments i n := rfl

/-- Let the node `prev`, or the head when there is none, point to `next`. -/
def linkAfter (m : MMUState) (prev next : Option ℕ) : MMUState :=
  match prev with
  | some p => m.setNode p { m.freeSegments p with next := next }
  | none => { m with freeSegmentHead := next }

end MMUState

/-- The rounding of a RAM section: base up, length down to whole pages. -/
def roundFree (s : Segment) : Segment :=
  let newBase :=
    if s.base % pageSize ≠ 0 then wadd s.base pageSize - wadd s.base pageSize % pageSize
    else s.base
  let len := wsub s.end_ newBase
  let len := len - len % pageSize
  { base := newBase, len := len, end_ := wadd newBase len }

/-- The loop that rounds the RAM sections from `curr` on, and unlinks those that have become
empty. -/
def roundFreeFrom : (fuel : ℕ) → (prev curr : Option ℕ) → MMUState → Option MMUState
  | _, _, none, m => some m
  | 0, _, some _, _ => none
  | fuel + 1, prev, some curr, m =>
    let node := m.freeSegments curr
    let m₁ := m.setNode curr { node with s := roundFree node.s }
    let m₂ := if (roundFree node.s).len = 0 then m₁.linkAfter prev node.next else m₁
    roundFreeFrom fuel (some curr) (m₂.freeSegments curr).next m₂

/-- The state of the exclusion loop: `i` is the next unused node. -/
structure ExcludeState where
  mmu : MMUState
  prev : Option ℕ
  fcurr : Option ℕ
  ecurr : Option ℕ
  i : ℕ

namespace ExcludeState

/-- One iteration, at the RAM node `f` and the excluded node `e`. -/
def step (ex : ℕ → SegmentList) (s : ExcludeState) (f e : ℕ) : ExcludeState :=
  let fn := s.mmu.freeSegments f
  let en := ex e
  if fn.s.base < en.s.base ∧ fn.s.end_ > en.s.base then
    let trimmed : Segment := { fn.s with len := wsub en.s.base fn.s.base }
    if fn.s.end_ > en.s.end_ then
      -- insert a new free entry; its `end` is not set
      let rest : Segment :=
        { (s.mmu.freeSegments s.i).s with
          base := en.s.end_, len := wsub fn.s.end_ en.s.end_ }
      { mmu := (s.mmu.setNode f ⟨some s.i, trimmed⟩).setNode s.i ⟨fn.next, rest⟩
        prev := some f
        fcurr := some s.i
        ecurr := en.next
        i := s.i + 1 }
    else
      { s with mmu := s.mmu.setNode f { fn with s := trimmed }, prev := some f, fcurr := fn.next }
  else if fn.s.base ≥ en.s.base ∧ fn.s.base < en.s.end_ then
    if fn.s.end_ < en.s.end_ then
      -- delete the free entry
      { s with mmu := s.mmu.linkAfter s.prev fn.next }
    else
      let rest : Segment := { fn.s with base := en.s.end_, len := wsub fn.s.end_ en.s.end_ }
      { s with mmu := s.mmu.setNode f { fn with s := rest }, ecurr := en.next }
  else { s with prev := some f, fcurr := fn.next }

/-- The loop: until one of the lists is at its end. -/
def run (ex : ℕ → SegmentList) : (fuel : ℕ) → ExcludeState → Option ExcludeState
  | fuel, s =>
    match s.fcurr, s.ecurr with
    | some f, some e =>
      match fuel with
      | 0 => none
      | fuel + 1 => run ex fuel (s.step ex f e)
    | _, _ => some s

end ExcludeState

/-- The page at address `0` is ignored. -/
def ignorePageZero (m : MMUState) : Option MMUState :=
  m.freeSegmentHead.map fun h ↦
    let node := m.freeSegments h
    if node.s.base = 0 then
      if node.s.len = pageSize then { m with freeSegmentHead := node.next }
      else
        m.setNode h { node with s :=
          { node.s with base := wadd node.s.base pageSize, len := wsub node.s.len pageSize } }
    else m

/-- `mmu_compute_free_segments`, with at most `fuel` iterations of the exclusion loop. -/
def mmuComputeFreeSegments (fuel : ℕ) (m : MMUState) (map : PhysicalMMap)
    (ex : ℕ → SegmentList) : Option MMUState := do
  let segs := map.ramSects.map fun r ↦ (⟨r.base, wadd r.base r.length, r.length⟩ : Segment)
  let m := { m with
    freeSegments := fun i ↦ if i < segs.length then linkedSegments segs i else m.freeSegments i
    freeSegmentHead := some 0 }
  let m ← roundFreeFrom segs.length none m.freeSegmentHead m
  let s ← ExcludeState.run ex fuel ⟨m, none, m.freeSegmentHead, some 0, segs.length⟩
  ignorePageZero s.mmu

/-- `mmu_state` after the `memset` of `MMU_init`. -/
def MMUState.zero : MMUState where
  freeSegments := fun _ ↦ ⟨none, ⟨0, 0, 0⟩⟩
  freeSegmentHead := none
  freePageHead := 0
  freePageTail := 0
  pageTable := 0
  nextKernelHeapVaddr := 0
  nextKernelThreadStackVaddr := 0

/-- `MMU_init` up to the point where the free segments are known, without its test that there are no
more kernel sections than `MAX_EXCLUDE_SEGMENTS`: that is 128, and `struct PhysicalMMap` has room
for 32. -/
def MMU.initSegments (fuel : ℕ) (map : PhysicalMMap) (k : Machine) : Option Machine := do
  let ex ← mmuComputeExcluded map
  let m ← mmuComputeFreeSegments fuel MMUState.zero map ex
  return { k with mmu := m }

/-- A machine before `MMU_init`. -/
def bootMachine : Machine := ⟨fun _ ↦ 0, 0, MMUState.zero, ⟨1, false⟩⟩

/-! ### What should be free -/

/-- A page range `[start, stop)` of a kernel section, rounded outward. -/
def KernelSection.Covers (s : KernelSection) (f : ℕ) : Prop :=
  s.base / pageSize * pageSize < f + pageSize ∧
    f < (s.base + s.length + (pageSize - 1)) / pageSize * pageSize

/-- **A page that should be free**: it lies inside a RAM section, meets no kernel section rounded to
pages, and is not the page at address `0`. -/
structure PhysicalMMap.FreePage (map : PhysicalMMap) (f : ℕ) : Prop where
  frame : IsFrame f
  inRam : ∃ r ∈ map.ramSects, r.base ≤ f ∧ f + pageSize ≤ r.base + r.length
  notKernel : ∀ s ∈ map.kernelSects, ¬s.Covers f

/-! ### The rest of `mmu_state` -/

theorem MMUState.setNode_freePageHead (m : MMUState) (i : ℕ) (n : SegmentList) :
    (m.setNode i n).freePageHead = m.freePageHead := rfl

theorem MMUState.linkAfter_freePageHead (m : MMUState) (prev next : Option ℕ) :
    (m.linkAfter prev next).freePageHead = m.freePageHead := by
  cases prev <;> rfl

theorem roundFreeFrom_freePageHead : ∀ (fuel : ℕ) {prev curr : Option ℕ} {m m' : MMUState},
    roundFreeFrom fuel prev curr m = some m' → m'.freePageHead = m.freePageHead
  | _, _, none, m, m', h => by
    rw [roundFreeFrom] at h
    rw [Option.some.inj h]
  | 0, _, some _, _, _, h => by cases h
  | fuel + 1, prev, some curr, m, m', h => by
    rw [roundFreeFrom] at h
    rw [roundFreeFrom_freePageHead fuel h]
    split
    · rw [MMUState.linkAfter_freePageHead, MMUState.setNode_freePageHead]
    · exact MMUState.setNode_freePageHead _ _ _

theorem ExcludeState.step_freePageHead (ex : ℕ → SegmentList) (s : ExcludeState) (f e : ℕ) :
    (s.step ex f e).mmu.freePageHead = s.mmu.freePageHead := by
  rw [step]
  dsimp only
  split
  · split <;> rfl
  · split
    · split
      · exact MMUState.linkAfter_freePageHead _ _ _
      · rfl
    · rfl

theorem ExcludeState.run_freePageHead (ex : ℕ → SegmentList) : ∀ (fuel : ℕ) {s s' : ExcludeState},
    run ex fuel s = some s' → s'.mmu.freePageHead = s.mmu.freePageHead := by
  intro fuel
  induction fuel with
  | zero =>
    intro s s' h
    rw [run] at h
    split at h
    · cases h
    · rw [Option.some.inj h]
  | succ fuel ih =>
    intro s s' h
    rw [run] at h
    split at h
    · rw [ih h, step_freePageHead]
    · rw [Option.some.inj h]

/-- No frame has been freed when the segments are known. -/
theorem MMU.initSegments_freePageHead {fuel : ℕ} {map : PhysicalMMap} {k k' : Machine}
    (h : MMU.initSegments fuel map k = some k') : k'.mmu.freePageHead = 0 := by
  simp only [MMU.initSegments, mmuComputeFreeSegments, Option.bind_eq_bind, Option.bind_eq_some_iff,
    Option.pure_def, Option.some.injEq] at h
  obtain ⟨ex, -, m, ⟨m₁, hround, s, hrun, hzero⟩, rfl⟩ := h
  have hexclude := ExcludeState.run_freePageHead ex fuel hrun
  have hrounded := roundFreeFrom_freePageHead _ hround
  obtain ⟨head, -, rfl⟩ := Option.map_eq_some_iff.1 hzero
  show (if _ then _ else _ : MMUState).freePageHead = 0
  split
  · split
    · exact hexclude.trans hrounded
    · exact hexclude.trans hrounded
  · exact hexclude.trans hrounded

end Marimba
