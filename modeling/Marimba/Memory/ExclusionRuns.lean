import Marimba.Foundations.Transition
import Marimba.Memory.FreePages
import Marimba.Memory.LeftBehind

/-!
# Runs of the exclusion loop

Whether the exclusion loop of `mmu_compute_free_segments` ends, and which nodes of `free_segments`
it takes. An iteration on the nodes is a `CarveStep` on the segments (`At.step_of_not_stuck`),
unless a RAM segment is stuck in the current kernel segment: then the cursors stay where they are
for ever (`run_delete`). So the loop ends exactly when `LoopEnds` (`run_isSome_iff`), and the nodes
that it inserts, whether it ends or not, are counted by `insertCount` (`iterates_insertCount`).
-/

namespace Marimba

namespace ExcludeState

variable {ex : ℕ → SegmentList} {s s' : ExcludeState} {fuel f e : ℕ} {done cur es : List ℕ}

/-! ### One iteration -/

/-- **An iteration on the segments that are to come.** -/
theorem At.step_of_not_stuck (h : At ex s done (f :: cur) (e :: es))
    (hstuck : ¬(s.mmu.freeSegments f).s.Stuck (ex e).s) :
    ∃ done' cur' es' n, At ex (s.step ex f e) done' cur' es' ∧ (s.step ex f e).i = s.i + n ∧
      CarveStep (segmentsAt s.mmu.freeSegments (f :: cur)) (segmentsAt ex (e :: es))
        (segmentsAt (s.step ex f e).mmu.freeSegments cur') (segmentsAt ex es') n := by
  by_cases ha : (s.mmu.freeSegments f).s.Around (ex e).s
  · rcases Nat.lt_or_ge (ex e).s.end_ (s.mmu.freeSegments f).s.end_ with hend | hend
    · rw [step_split ex s f e ha hend, h.fresh s.i le_rfl]
      refine ⟨_, _, _, 1, h.insert, rfl, ?_⟩
      rw [h.segmentsAt_insert]
      exact .split ha hend
    · rw [step_trim ex s f e ha hend]
      refine ⟨_, _, _, 0, h.next, rfl, ?_⟩
      rw [MMUState.segmentsAt_setNode h.notMem_cur]
      exact .trim ha hend
  · by_cases hin : (s.mmu.freeSegments f).s.StartsIn (ex e).s
    · have hend : (ex e).s.end_ ≤ (s.mmu.freeSegments f).s.end_ :=
        Nat.not_lt.1 fun hlt ↦ hstuck ⟨hin, hlt⟩
      rw [step_cut ex s f e hin hend]
      refine ⟨_, _, _, 0, h.write, rfl, ?_⟩
      rw [MMUState.segmentsAt_setNode_cons h.notMem_cur]
      exact .cut hin hend
    · rw [step_skip ex s f e ha hin]
      refine ⟨_, _, _, 0, h.next, rfl, ?_⟩
      rw [MMUState.segmentsAt_setNode h.notMem_cur]
      exact .skip ha hin

/-! ### Whether the loop ends -/

theorem run_eq_self (h : s.fcurr = none ∨ s.ecurr = none) : run ex fuel s = some s := by
  rw [run]
  rcases h with h | h
  · rw [h]
  · rw [h]
    cases s.fcurr <;> rfl

theorem run_succ (hf : s.fcurr = some f) (he : s.ecurr = some e) :
    run ex (fuel + 1) s = run ex fuel (s.step ex f e) := by
  rw [run, hf, he]

/-- A loop that ends is never stuck. -/
theorem loopEnds_of_run (h : At ex s done cur es)
    (hs : InSequence (segmentsAt s.mmu.freeSegments cur)) (hk : KernelSegments (segmentsAt ex es))
    (hrun : run ex fuel s = some s') :
    LoopEnds (segmentsAt s.mmu.freeSegments cur) (segmentsAt ex es) := by
  induction fuel using Nat.strong_induction_on generalizing s done cur es with
  | _ fuel ih =>
    rcases es with _ | ⟨e, es⟩
    · exact fun e he ↦ absurd (mem_of_mem_gotTo he) List.not_mem_nil
    rcases cur with _ | ⟨f, cur⟩
    · exact fun _ _ f hf ↦ absurd hf List.not_mem_nil
    have hstuck : ¬(s.mmu.freeSegments f).s.Stuck (ex e).s := fun hstuck ↦
      run_delete h.fcurr.1 h.ecurr.1 (fun hp ↦ h.notMem_done (h.prev f hp)) hstuck.1 hstuck.2 hrun
    obtain ⟨fuel, rfl, hstep⟩ := run_of_some h.fcurr.1 h.ecurr.1 hrun
    obtain ⟨done', cur', es', n, hat, -, hcarve⟩ := h.step_of_not_stuck hstuck
    refine (hcarve.loopEnds_iff hs hk).2 ?_
    exact ih fuel (Nat.lt_succ_self _) hat (hcarve.inSequence hs) (hcarve.kernelSegments hk) hstep

/-- A loop that does not get stuck ends, with one iteration for each segment at most. -/
theorem exists_run_of_loopEnds (h : At ex s done cur es)
    (hs : InSequence (segmentsAt s.mmu.freeSegments cur)) (hk : KernelSegments (segmentsAt ex es))
    (hends : LoopEnds (segmentsAt s.mmu.freeSegments cur) (segmentsAt ex es))
    (hfuel : cur.length + es.length ≤ fuel) : ∃ s', run ex fuel s = some s' := by
  induction fuel generalizing s done cur es with
  | zero =>
    obtain rfl : cur = [] := List.length_eq_zero_iff.1 (by omega)
    exact ⟨s, run_eq_self (Or.inl h.fcurr)⟩
  | succ fuel ih =>
    rcases cur with _ | ⟨f, cur⟩
    · exact ⟨s, run_eq_self (Or.inl h.fcurr)⟩
    rcases es with _ | ⟨e, es⟩
    · exact ⟨s, run_eq_self (Or.inr h.ecurr)⟩
    have hstuck : ¬(s.mmu.freeSegments f).s.Stuck (ex e).s := fun hstuck ↦
      not_loopEnds_of_stuck hstuck hends
    obtain ⟨done', cur', es', n, hat, -, hcarve⟩ := h.step_of_not_stuck hstuck
    rw [run_succ h.fcurr.1 h.ecurr.1]
    refine ih hat (hcarve.inSequence hs) (hcarve.kernelSegments hk)
      ((hcarve.loopEnds_iff hs hk).1 hends) ?_
    have hlen := hcarve.length_add
    simp only [segmentsAt, List.length_map, List.length_cons] at hlen hfuel
    omega

/-- **When the loop ends.** -/
theorem run_isSome_iff (h : At ex s done cur es)
    (hs : InSequence (segmentsAt s.mmu.freeSegments cur))
    (hk : KernelSegments (segmentsAt ex es)) :
    (∃ fuel s', run ex fuel s = some s') ↔
      LoopEnds (segmentsAt s.mmu.freeSegments cur) (segmentsAt ex es) :=
  ⟨fun ⟨_, _, hrun⟩ ↦ loopEnds_of_run h hs hk hrun,
    fun hends ↦ ⟨_, exists_run_of_loopEnds h hs hk hends le_rfl⟩⟩

/-! ### The nodes that are inserted -/

/-- One iteration of the loop. -/
def Iterates (ex : ℕ → SegmentList) (s s' : ExcludeState) : Prop :=
  ∃ f e, s.fcurr = some f ∧ s.ecurr = some e ∧ s' = s.step ex f e

/-- The iteration stores a new segment, at the index `i`. -/
def Inserts (ex : ℕ → SegmentList) (s : ExcludeState) : Prop :=
  ∃ f e, s.fcurr = some f ∧ s.ecurr = some e ∧ (s.mmu.freeSegments f).s.Around (ex e).s ∧
    (ex e).s.end_ < (s.mmu.freeSegments f).s.end_

/-- An iteration takes a node only when it stores a new segment. -/
theorem Iterates.i_eq (h : Iterates ex s s') :
    s.Inserts ex ∧ s'.i = s.i + 1 ∨ ¬s.Inserts ex ∧ s'.i = s.i := by
  obtain ⟨f, e, hf, he, rfl⟩ := h
  have hinserts : s.Inserts ex ↔ (s.mmu.freeSegments f).s.Around (ex e).s ∧
      (ex e).s.end_ < (s.mmu.freeSegments f).s.end_ := by
    constructor
    · rintro ⟨f', e', hf', he', h⟩
      obtain rfl := Option.some.inj (hf.symm.trans hf')
      obtain rfl := Option.some.inj (he.symm.trans he')
      exact h
    · exact fun h ↦ ⟨f, e, hf, he, h⟩
  rw [hinserts]
  by_cases ha : (s.mmu.freeSegments f).s.Around (ex e).s
  · rcases Nat.lt_or_ge (ex e).s.end_ (s.mmu.freeSegments f).s.end_ with hend | hend
    · rw [step_split ex s f e ha hend]
      exact Or.inl ⟨⟨ha, hend⟩, rfl⟩
    · rw [step_trim ex s f e ha hend]
      exact Or.inr ⟨fun h ↦ absurd h.2 (Nat.not_lt.2 hend), rfl⟩
  · refine Or.inr ⟨fun h ↦ ha h.1, ?_⟩
    by_cases hin : (s.mmu.freeSegments f).s.StartsIn (ex e).s
    · rcases Nat.lt_or_ge (s.mmu.freeSegments f).s.end_ (ex e).s.end_ with hend | hend
      · rw [step_delete ex s f e hin hend]
      · rw [step_cut ex s f e hin hend]
    · rw [step_skip ex s f e ha hin]

/-- An iteration that takes a node leaves a kernel segment behind. -/
theorem Iterates.ecurr_eq (h : Iterates ex s s') :
    (∃ e, s.ecurr = some e ∧ s'.ecurr = (ex e).next ∧ s'.i ≤ s.i + 1) ∨
      s'.ecurr = s.ecurr ∧ s'.i = s.i := by
  obtain ⟨f, e, -, he, rfl⟩ := h
  rw [step]
  dsimp only
  split
  · split
    · exact Or.inl ⟨e, he, rfl, le_rfl⟩
    · exact Or.inr ⟨rfl, rfl⟩
  · split
    · split
      · exact Or.inr ⟨rfl, rfl⟩
      · exact Or.inl ⟨e, he, rfl, Nat.le_succ _⟩
    · exact Or.inr ⟨rfl, rfl⟩

/-- **At most one node for each kernel segment**, whatever the segments are. -/
theorem linked_of_iterates (h : Linked ex s.ecurr es)
    (hrun : Relation.ReflTransGen (Iterates ex) s s') :
    ∃ es', Linked ex s'.ecurr es' ∧ s'.i + es'.length ≤ s.i + es.length := by
  refine invariant_of_reflTransGen (I := fun t ↦ ∃ es', Linked ex t.ecurr es' ∧
    t.i + es'.length ≤ s.i + es.length) ?_ ⟨es, h, le_rfl⟩ hrun
  rintro t t' ⟨es', hlinked, hle⟩ hstep
  rcases hstep.ecurr_eq with ⟨e, he, hnext, hi⟩ | ⟨hsame, hi⟩
  · rcases es' with _ | ⟨e', es'⟩
    · rw [show t.ecurr = none from hlinked] at he
      cases he
    · obtain rfl := Option.some.inj (he.symm.trans hlinked.1)
      refine ⟨es', hnext ▸ hlinked.2, ?_⟩
      rw [List.length_cons] at hle
      omega
  · exact ⟨es', hsame ▸ hlinked, hi ▸ hle⟩

/-- Where a node has been taken, its index has been used. -/
theorem exists_inserts (h : Relation.ReflTransGen (Iterates ex) s s') (hlt : s.i < s'.i) :
    ∃ t, Relation.ReflTransGen (Iterates ex) s t ∧ t.Inserts ex ∧ t.i + 1 = s'.i := by
  induction h with
  | refl => exact absurd hlt (Nat.lt_irrefl _)
  | @tail t t' hrun hstep ih =>
    rcases hstep.i_eq with ⟨hins, hi⟩ | ⟨-, hi⟩
    · exact ⟨t, hrun, hins, hi.symm⟩
    · rw [hi] at hlt ⊢
      exact ih hlt

/-- The state of a run that takes `total` nodes in all. When a RAM segment is stuck no more are
taken. -/
def Counted (ex : ℕ → SegmentList) (total : ℕ) (s : ExcludeState) : Prop :=
  (∃ done cur es, At ex s done cur es ∧ InSequence (segmentsAt s.mmu.freeSegments cur) ∧
    KernelSegments (segmentsAt ex es) ∧
    s.i + insertCount (segmentsAt s.mmu.freeSegments cur) (segmentsAt ex es) = total) ∨
  ∃ f e, s.fcurr = some f ∧ s.ecurr = some e ∧ s.prev ≠ some f ∧
    (s.mmu.freeSegments f).s.Stuck (ex e).s ∧ s.i = total

namespace Counted

variable {total : ℕ}

theorem i_le (h : Counted ex total s) : s.i ≤ total := by
  rcases h with ⟨done, cur, es, -, -, -, h⟩ | ⟨f, e, -, -, -, -, h⟩ <;> omega

theorem delete (hf : s.fcurr = some f) (he : s.ecurr = some e) (hprev : s.prev ≠ some f)
    (hstuck : (s.mmu.freeSegments f).s.Stuck (ex e).s) (hi : s.i = total) :
    Counted ex total (s.step ex f e) := by
  rw [step_delete ex s f e hstuck.1 hstuck.2]
  refine Or.inr ⟨f, e, hf, he, hprev, ?_, hi⟩
  rwa [MMUState.linkAfter_of_ne hprev]

theorem iterates (h : Counted ex total s) (hstep : Iterates ex s s') : Counted ex total s' := by
  obtain ⟨f, e, hf, he, rfl⟩ := hstep
  rcases h with ⟨done, cur, es, hat, hs, hk, hcount⟩ | ⟨f', e', hf', he', hprev, hstuck, hi⟩
  · rcases cur with _ | ⟨f', cur⟩
    · rw [show s.fcurr = none from hat.fcurr] at hf
      cases hf
    rcases es with _ | ⟨e', es⟩
    · rw [show s.ecurr = none from hat.ecurr] at he
      cases he
    obtain rfl := Option.some.inj (hf.symm.trans hat.fcurr.1)
    obtain rfl := Option.some.inj (he.symm.trans hat.ecurr.1)
    by_cases hstuck : (s.mmu.freeSegments f).s.Stuck (ex e).s
    · have hzero : insertCount (segmentsAt s.mmu.freeSegments (f :: cur))
          (segmentsAt ex (e :: es)) = 0 := insertCount_of_nil (leftBehind_stuck hstuck)
      rw [hzero, Nat.add_zero] at hcount
      exact delete hf he (fun hp ↦ hat.notMem_done (hat.prev f hp)) hstuck hcount
    · obtain ⟨done', cur', es', n, hat', hi, hcarve⟩ := hat.step_of_not_stuck hstuck
      refine Or.inl ⟨done', cur', es', hat', hcarve.inSequence hs, hcarve.kernelSegments hk, ?_⟩
      rw [hcarve.insertCount_eq hs hk] at hcount
      omega
  · obtain rfl := Option.some.inj (hf.symm.trans hf')
    obtain rfl := Option.some.inj (he.symm.trans he')
    exact delete hf he hprev hstuck hi

end Counted

/-- As many nodes are taken as `insertCount` says. -/
theorem exists_iterates (h : At ex s done cur es)
    (hs : InSequence (segmentsAt s.mmu.freeSegments cur))
    (hk : KernelSegments (segmentsAt ex es)) :
    ∃ t, Relation.ReflTransGen (Iterates ex) s t ∧
      t.i = s.i + insertCount (segmentsAt s.mmu.freeSegments cur) (segmentsAt ex es) := by
  have hstay : ∀ {i : ℕ} {fs es}, leftBehind fs es = [] → i = i + insertCount fs es :=
    fun h ↦ by rw [insertCount_of_nil h, Nat.add_zero]
  induction hl : cur.length + es.length generalizing s done cur es with
  | zero =>
    obtain rfl : es = [] := List.length_eq_zero_iff.1 (by omega)
    exact ⟨s, .refl, hstay rfl⟩
  | succ l ih =>
    rcases es with _ | ⟨e, es⟩
    · exact ⟨s, .refl, hstay rfl⟩
    rcases cur with _ | ⟨f, cur⟩
    · exact ⟨s, .refl, hstay (leftBehind_after hk fun g hg ↦ absurd hg List.not_mem_nil)⟩
    by_cases hstuck : (s.mmu.freeSegments f).s.Stuck (ex e).s
    · exact ⟨s, .refl, hstay (leftBehind_stuck hstuck)⟩
    · obtain ⟨done', cur', es', n, hat, hi, hcarve⟩ := h.step_of_not_stuck hstuck
      have hlen := hcarve.length_add
      simp only [segmentsAt, List.length_map, List.length_cons] at hlen hl
      obtain ⟨t, hrun, ht⟩ := ih hat (hcarve.inSequence hs) (hcarve.kernelSegments hk) (by omega)
      refine ⟨t, .head ⟨f, e, h.fcurr.1, h.ecurr.1, rfl⟩ hrun, ?_⟩
      rw [ht, hi, hcarve.insertCount_eq hs hk]
      omega

end ExcludeState

/-! ### The loop at boot -/

/-- The rounded RAM sections are one behind the other, also those that reach no page boundary. -/
theorem inSequence_ramRanges {map : PhysicalMMap} (hs : map.Sorted) (hr : map.InRange) :
    InSequence map.ramRanges := by
  refine List.pairwise_map.2 (hs.ram.imp_of_mem fun {r r'} hm hm' hle ↦ ?_)
  have hbase := MMapEntry.rounded_base (hr.ram r hm).1
  have hbase' := MMapEntry.rounded_base (hr.ram r' hm').1
  have hup : pageUp r.base ≤ pageUp r'.base :=
    (pageUp_le_iff (pageUp_mod _)).2 (((Nat.le_add_right _ _).trans hle).trans (le_pageUp _))
  rw [hbase']
  refine ⟨hbase.le.trans hup, ?_⟩
  by_cases hreach : r.Reaches
  · rw [(MMapEntry.rounded_of_reaches (hr.ram r hm).2 hreach).2.1]
    exact (pageDown_le _).trans (hle.trans (le_pageUp _))
  · have hend := (MMapEntry.rounded_of_not_reaches (hr.ram r hm).1 (hr.ram r hm).2 hreach).2.1
    exact hend.le.trans (hbase.le.trans hup)

section Boot

variable {map : PhysicalMMap} {ex : ℕ → SegmentList} {s : ExcludeState}

/-- The loop at boot, with what is to come. -/
theorem excludeStart_at (hs : map.Sorted) (hr : map.InRange)
    (hex : mmuComputeExcluded map = some ex)
    (hstart : excludeStart MMUState.zero map = some s) :
    s.i = map.ramSects.length ∧ ∃ kept js, ExcludeState.At ex s [] kept js ∧
      segmentsAt s.mmu.freeSegments kept = unlinkEmpty true map.ramRanges ∧
      segmentsAt ex js = map.kernelRanges ∧
      InSequence (unlinkEmpty true map.ramRanges) ∧ KernelSegments map.kernelRanges := by
  obtain ⟨-, js, hjs, hkernel⟩ := mmuComputeExcluded_spec hex
  obtain ⟨hi, kept, hat, hkept⟩ := excludeStart_spec hstart hjs
  refine ⟨hi, kept, js, hat, hkept, hkernel, ?_, (kernelRanges_spec hs.kernel hr.kernel).1⟩
  exact (inSequence_ramRanges hs hr).sublist (unlinkEmpty_sublist true _)

/-- When the loop ends at boot. -/
theorem excludeStart_run_iff (hs : map.Sorted) (hr : map.InRange)
    (hex : mmuComputeExcluded map = some ex) (hstart : excludeStart MMUState.zero map = some s) :
    (∃ fuel s', ExcludeState.run ex fuel s = some s') ↔
      LoopEnds (unlinkEmpty true map.ramRanges) map.kernelRanges := by
  obtain ⟨-, kept, js, hat, hkept, hkernel, hseq, hk⟩ := excludeStart_at hs hr hex hstart
  rw [← hkept] at hseq ⊢
  rw [← hkernel] at hk ⊢
  exact ExcludeState.run_isSome_iff hat hseq hk

end Boot

/-- **When the exclusion loop ends**: for a list of RAM segments in order and the list of
`mmu_compute_excluded`, exactly when no RAM segment starts in a kernel segment that the loop gets to
and ends before it. -/
theorem exclusionLoop_ends_iff {map : PhysicalMMap} {ex : ℕ → SegmentList} {m : MMUState}
    {idxs : List ℕ} {i : ℕ} (hs : map.kernelSects.Pairwise fun k k' ↦ k.base ≤ k'.base)
    (hr : ∀ k ∈ map.kernelSects, k.base + k.length ≤ wordSize - pageSize)
    (hex : mmuComputeExcluded map = some ex) (hfree : m.Free idxs)
    (hram : RamSegments (segmentsAt m.freeSegments idxs)) (hlt : ∀ j ∈ idxs, j < i)
    (hfresh : ∀ j, i ≤ j → (m.freeSegments j).s.end_ = 0) :
    (∃ fuel s', ExcludeState.run ex fuel ⟨m, none, m.freeSegmentHead, some 0, i⟩ = some s') ↔
      LoopEnds (segmentsAt m.freeSegments idxs) map.kernelRanges := by
  obtain ⟨-, js, hjs, hkernel⟩ := mmuComputeExcluded_spec hex
  have hk := (kernelRanges_spec hs hr).1
  rw [← hkernel] at hk ⊢
  have hat : ExcludeState.At ex ⟨m, none, m.freeSegmentHead, some 0, i⟩ [] idxs js :=
    ⟨hfree, hfree, hjs, fun p hp ↦ (by cases hp), hlt, hfresh⟩
  exact ExcludeState.run_isSome_iff hat hram.inSequence hk

/-- On a PC the loop ends. -/
theorem exclusionLoop_ends_iff_pcMemoryMap :
    ∃ ex s, mmuComputeExcluded pcMemoryMap = some ex ∧
      excludeStart MMUState.zero pcMemoryMap = some s ∧
      ∃ fuel s', ExcludeState.run ex fuel
        ⟨s.mmu, none, s.mmu.freeSegmentHead, some 0, s.i⟩ = some s' := by
  have hs : pcMemoryMap.Sorted := ⟨by decide, by decide, by decide⟩
  have hr : pcMemoryMap.InRange := ⟨by decide, by decide⟩
  obtain ⟨ex, hex⟩ := mmuComputeExcluded_isSome (show pcMemoryMap.kernelSects ≠ [] by decide)
  obtain ⟨s, hstart⟩ := Option.isSome_iff_exists.1
    (show (excludeStart MMUState.zero pcMemoryMap).isSome by decide +kernel)
  obtain ⟨-, kept, js, hat, hkept, -⟩ := excludeStart_at hs hr hex hstart
  refine ⟨ex, s, hex, hstart, (exclusionLoop_ends_iff hs.kernel hr.kernel hex hat.free ?_ hat.lt
    hat.fresh).2 ?_⟩
  · show RamSegments (segmentsAt s.mmu.freeSegments kept)
    rw [hkept]
    exact (ramSegments_ramRanges hs hr (by decide)).sublist (unlinkEmpty_sublist true _)
  · show LoopEnds (segmentsAt s.mmu.freeSegments kept) _
    rw [hkept]
    decide +kernel

/-- RAM that is reported in two pieces, the first of which is all in the kernel. -/
def ramInKernel : PhysicalMMap where
  ramSects := [⟨0x100000, 0x8000⟩, ⟨0x108000, 0x1000000⟩]
  kernelSects := [⟨0x100000, 0xC000⟩]

/-- **The boot hangs**: the first RAM segment would have to be deleted, and neither cursor moves. -/
theorem exclusionLoop_hangs :
    ∃ ex s idxs, mmuComputeExcluded ramInKernel = some ex ∧
      excludeStart MMUState.zero ramInKernel = some s ∧ s.mmu.Free idxs ∧
      RamSegments (segmentsAt s.mmu.freeSegments idxs) ∧
      ∀ fuel, ExcludeState.run ex fuel s = none := by
  have hs : ramInKernel.Sorted := ⟨by decide, by decide, by decide⟩
  have hr : ramInKernel.InRange := ⟨by decide, by decide⟩
  obtain ⟨ex, hex⟩ := mmuComputeExcluded_isSome (show ramInKernel.kernelSects ≠ [] by decide)
  obtain ⟨s, hstart⟩ := Option.isSome_iff_exists.1
    (show (excludeStart MMUState.zero ramInKernel).isSome by decide +kernel)
  obtain ⟨-, kept, js, hat, hkept, -⟩ := excludeStart_at hs hr hex hstart
  refine ⟨ex, s, kept, hex, hstart, hat.free, ?_, fun fuel ↦ ?_⟩
  · rw [hkept]
    exact (ramSegments_ramRanges hs hr (by decide)).sublist (unlinkEmpty_sublist true _)
  · refine Option.eq_none_iff_forall_ne_some.2 fun s' hrun ↦ ?_
    have hends := (excludeStart_run_iff hs hr hex hstart).1 ⟨fuel, s', hrun⟩
    exact absurd hends (by decide +kernel)

/-! ### The indices of `free_segments` -/

/-- **Every index at which a segment is stored is one of `free_segments`**: those of the RAM
sections that are copied, and those of the segments that the exclusion loop inserts in any of its
iterations. The loop is over a list of excluded segments that has been set up: without kernel
sections its head is uninitialised, and nothing is known of what it stores. -/
structure PhysicalMMap.StoresInBounds (map : PhysicalMMap) : Prop where
  excluded : (mmuComputeExcluded map).isSome
  copied : ∀ i < map.ramSects.length, i < maxFreeSegments
  inserted : ∀ ex s₀ s, mmuComputeExcluded map = some ex →
    excludeStart MMUState.zero map = some s₀ →
    Relation.ReflTransGen (ExcludeState.Iterates ex) s₀ s → s.Inserts ex → s.i < maxFreeSegments

section Stores

variable {map : PhysicalMMap}

theorem PhysicalMMap.StoresInBounds.length_le (h : map.StoresInBounds) :
    map.ramSects.length ≤ maxFreeSegments :=
  Nat.not_lt.1 fun hlt ↦ (h.copied maxFreeSegments hlt).false

/-- Whatever the sections are, one node for each RAM section and each page range of the kernel is
enough. -/
theorem storesInBounds_of_length_le (hne : map.kernelSects ≠ [])
    (h : map.ramSects.length + map.kernelRanges.length ≤ maxFreeSegments) :
    map.StoresInBounds := by
  refine ⟨Option.isSome_iff_exists.2 (mmuComputeExcluded_isSome hne), fun i hi ↦ by omega,
    fun ex s₀ s hex hstart hrun hins ↦ ?_⟩
  obtain ⟨-, js, hjs, hkernel⟩ := mmuComputeExcluded_spec hex
  obtain ⟨hi, kept, hat, -⟩ := excludeStart_spec hstart hjs
  have hlen : js.length = map.kernelRanges.length := by
    rw [← hkernel, segmentsAt, List.length_map]
  obtain ⟨es, hes, hle⟩ := ExcludeState.linked_of_iterates hat.ecurr hrun
  obtain ⟨f, e, -, he, -⟩ := hins
  rcases es with _ | ⟨e', es⟩
  · rw [show s.ecurr = none from hes] at he
    cases he
  · rw [List.length_cons] at hle
    omega

/-- There has to be a kernel section, and the RAM sections and the insertions have to fit into
`free_segments`. -/
theorem storesInBounds_iff (hs : map.Sorted) (hr : map.InRange) :
    map.StoresInBounds ↔ map.kernelSects ≠ [] ∧
      map.ramSects.length + insertCount (unlinkEmpty true map.ramRanges) map.kernelRanges ≤
        maxFreeSegments := by
  constructor
  · intro hstores
    refine ⟨fun hnil ↦ ?_, ?_⟩
    · have hsome := hstores.excluded
      rw [mmuComputeExcluded_of_nil hnil] at hsome
      cases hsome
    have hlen := hstores.length_le
    rcases hzero : insertCount (unlinkEmpty true map.ramRanges) map.kernelRanges with _ | n
    · exact hlen
    -- there are sections of both kinds, or nothing would be inserted
    have hram : map.ramSects ≠ [] := fun h ↦ by
      rw [PhysicalMMap.ramRanges, h, List.map_nil, unlinkEmpty, insertCount] at hzero
      exact absurd hzero (by simp)
    have hkernel : map.kernelSects ≠ [] := fun h ↦ by
      rw [PhysicalMMap.kernelRanges, h, List.map_nil, insertCount_of_nil rfl] at hzero
      cases hzero
    obtain ⟨ex, hex⟩ := mmuComputeExcluded_isSome hkernel
    obtain ⟨s, hstart⟩ := excludeStart_isSome hram
    obtain ⟨hi, kept, js, hat, hkept, hkernel, hseq, hk⟩ := excludeStart_at hs hr hex hstart
    rw [← hkept] at hseq
    rw [← hkernel] at hk
    obtain ⟨t, hrun, ht⟩ := ExcludeState.exists_iterates hat hseq hk
    rw [hkept, hkernel, hzero] at ht
    obtain ⟨u, hrun', hins, hu⟩ := ExcludeState.exists_inserts hrun (by omega)
    have hlt := hstores.inserted ex s u hex hstart hrun' hins
    omega
  · rintro ⟨hne, hle⟩
    refine ⟨Option.isSome_iff_exists.2 (mmuComputeExcluded_isSome hne), fun i hi ↦ by omega,
      fun ex s₀ s hex hstart hrun hins ↦ ?_⟩
    obtain ⟨hi, kept, js, hat, hkept, hkernel, hseq, hk⟩ := excludeStart_at hs hr hex hstart
    rw [← hkept, ← hkernel, ← hi] at hle
    rw [← hkept] at hseq
    rw [← hkernel] at hk
    have hcounted : ExcludeState.Counted ex _ s :=
      invariant_of_reflTransGen (fun _ _ h hstep ↦ h.iterates hstep)
        (Or.inl ⟨[], kept, js, hat, hseq, hk, rfl⟩) hrun
    obtain ⟨f, e, hf, he, -⟩ := id hins
    have hstep : ExcludeState.Iterates ex s (s.step ex f e) := ⟨f, e, hf, he, rfl⟩
    have hnext := (hcounted.iterates hstep).i_le
    rcases hstep.i_eq with ⟨-, hsucc⟩ | ⟨hnot, -⟩
    · omega
    · exact absurd hins hnot

end Stores

/-- **When every index is in bounds**: for any sections with one of the kernel among them, when
there is a node for each RAM section and each page range of the kernel; and for sections in order
exactly when there is one of the kernel, and the RAM sections and the page ranges that are left
behind inside a RAM section fit into `free_segments`. -/
theorem free_segments_in_bounds (map : PhysicalMMap) :
    (map.kernelSects ≠ [] →
        map.ramSects.length + map.kernelRanges.length ≤ maxFreeSegments → map.StoresInBounds) ∧
      (map.Sorted → map.InRange →
        (map.StoresInBounds ↔ map.kernelSects ≠ [] ∧
          map.ramSects.length + insertCount (unlinkEmpty true map.ramRanges) map.kernelRanges ≤
            maxFreeSegments)) :=
  ⟨storesInBounds_of_length_le, storesInBounds_iff⟩

/-- On a PC every index is in bounds. -/
theorem free_segments_in_bounds_pcMemoryMap : pcMemoryMap.StoresInBounds :=
  ((free_segments_in_bounds pcMemoryMap).2 ⟨by decide, by decide, by decide⟩
    ⟨by decide, by decide⟩).2 ⟨by decide, by decide +kernel⟩

/-- As many RAM sections as the boot code takes, with the kernel inside the first one. -/
def fullMemoryMap : PhysicalMMap where
  ramSects := (List.range maxMmapEntries).map fun i ↦ ⟨0x100000 * (i + 1), 0x80000⟩
  kernelSects := [⟨0x110000, 0x1000⟩]

/-- **A segment is stored behind the end of `free_segments`**, in the first iteration. -/
theorem free_segments_overflow :
    fullMemoryMap.Sorted ∧ fullMemoryMap.InRange ∧
      (∃ ex s, mmuComputeExcluded fullMemoryMap = some ex ∧
        excludeStart MMUState.zero fullMemoryMap = some s ∧ s.Inserts ex ∧
        s.i = maxFreeSegments) ∧ ¬fullMemoryMap.StoresInBounds := by
  have hs : fullMemoryMap.Sorted := ⟨by decide, by decide, by decide⟩
  have hr : fullMemoryMap.InRange := ⟨by decide, by decide⟩
  obtain ⟨ex, hex⟩ := mmuComputeExcluded_isSome (show fullMemoryMap.kernelSects ≠ [] by decide)
  obtain ⟨s, hstart⟩ : ∃ s, excludeStart MMUState.zero fullMemoryMap = some s :=
    excludeStart_isSome (by decide)
  have hins : s.Inserts ex ∧ s.i = maxFreeSegments := by
    obtain ⟨hi, kept, js, hat, hkept, hkernel, -⟩ := excludeStart_at hs hr hex hstart
    refine ⟨?_, hi⟩
    rcases kept with _ | ⟨f, kept⟩
    · exact absurd hkept (show [] ≠ unlinkEmpty true fullMemoryMap.ramRanges by decide +kernel)
    rcases js with _ | ⟨e, js⟩
    · exact absurd hkernel (show [] ≠ fullMemoryMap.kernelRanges by decide +kernel)
    have hf := congrArg List.head? hkept
    have he := congrArg List.head? hkernel
    refine ⟨f, e, hat.fcurr.1, hat.ecurr.1, ?_⟩
    have hf : (s.mmu.freeSegments f).s = ⟨0x100000, 0x180000, 0x80000⟩ :=
      Option.some.inj (hf.trans (by decide +kernel))
    have he : (ex e).s = ⟨0x110000, 0x111000, 0x1000⟩ :=
      Option.some.inj (he.trans (by decide +kernel))
    rw [hf, he, Segment.Around]
    decide
  refine ⟨hs, hr, ⟨ex, s, hex, hstart, hins⟩, fun hstores ↦ ?_⟩
  have hlt := hstores.inserted ex s s hex hstart .refl hins.1
  exact absurd hins.2 hlt.ne

end Marimba
