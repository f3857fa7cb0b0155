import Marimba.Memory.Carving
import Marimba.Memory.SegmentLists

/-!
# The exclusion loop

The exclusion loop of `mmu_compute_free_segments` on its nodes. `ExcludeState.At` says where the
cursors are: the list of free segments is cut in what is done and what is to come. Each branch keeps
that, apart from the one that deletes a segment, which never ends (`ExcludeState.run_delete`); so a
loop that ends has carved the segments that were to come (`ExcludeState.run_spec`).

`initSegments_spec` puts the loops of `MMU_init` together.
-/

namespace Marimba

variable {idxs : List ℕ}

/-! ### The exclusion -/

namespace ExcludeState

variable {ex : ℕ → SegmentList} {s s' : ExcludeState} {fuel f e : ℕ} {done cur es : List ℕ}

theorem run_of_none (h : s.fcurr = none ∨ s.ecurr = none) (hrun : run ex fuel s = some s') :
    s' = s := by
  rw [run] at hrun
  rcases hf : s.fcurr with _ | f
  · rw [hf] at hrun
    exact (Option.some.inj hrun).symm
  · rcases he : s.ecurr with _ | e
    · rw [hf, he] at hrun
      exact (Option.some.inj hrun).symm
    · simp [hf, he] at h

theorem run_of_some (hf : s.fcurr = some f) (he : s.ecurr = some e)
    (hrun : run ex fuel s = some s') :
    ∃ fuel', fuel = fuel' + 1 ∧ run ex fuel' (s.step ex f e) = some s' := by
  rw [run, hf, he] at hrun
  cases fuel with
  | zero => cases hrun
  | succ fuel => exact ⟨fuel, rfl, hrun⟩

section Step

variable (ex s f e)

theorem step_split (ha : (s.mmu.freeSegments f).s.Around (ex e).s)
    (hend : (ex e).s.end_ < (s.mmu.freeSegments f).s.end_) :
    s.step ex f e =
      { mmu := (s.mmu.setNode f ⟨some s.i, (s.mmu.freeSegments f).s.upTo (ex e).s⟩).setNode s.i
          ⟨(s.mmu.freeSegments f).next,
            { (s.mmu.freeSegments f).s.restAfter (ex e).s with
              end_ := (s.mmu.freeSegments s.i).s.end_ }⟩
        prev := some f
        fcurr := some s.i
        ecurr := (ex e).next
        i := s.i + 1 } := by
  rw [step]
  exact (if_pos ha).trans (if_pos hend)

theorem step_trim (ha : (s.mmu.freeSegments f).s.Around (ex e).s)
    (hend : (s.mmu.freeSegments f).s.end_ ≤ (ex e).s.end_) :
    s.step ex f e =
      { s with
        mmu := s.mmu.setNode f
          ⟨(s.mmu.freeSegments f).next, (s.mmu.freeSegments f).s.upTo (ex e).s⟩
        prev := some f
        fcurr := (s.mmu.freeSegments f).next } := by
  rw [step]
  exact (if_pos ha).trans (if_neg (Nat.not_lt.2 hend))

theorem step_delete (hs : (s.mmu.freeSegments f).s.StartsIn (ex e).s)
    (hend : (s.mmu.freeSegments f).s.end_ < (ex e).s.end_) :
    s.step ex f e =
      { s with mmu := s.mmu.linkAfter s.prev (s.mmu.freeSegments f).next } := by
  rw [step]
  refine (if_neg fun ha ↦ ?_).trans ((if_pos hs).trans (if_pos hend))
  exact absurd hs.1 (Nat.not_le.2 ha.1)

theorem step_cut (hs : (s.mmu.freeSegments f).s.StartsIn (ex e).s)
    (hend : (ex e).s.end_ ≤ (s.mmu.freeSegments f).s.end_) :
    s.step ex f e =
      { s with
        mmu := s.mmu.setNode f
          ⟨(s.mmu.freeSegments f).next, (s.mmu.freeSegments f).s.from_ (ex e).s⟩
        ecurr := (ex e).next } := by
  rw [step]
  refine (if_neg fun ha ↦ ?_).trans ((if_pos hs).trans (if_neg (Nat.not_lt.2 hend)))
  exact absurd hs.1 (Nat.not_le.2 ha.1)

theorem step_skip (ha : ¬(s.mmu.freeSegments f).s.Around (ex e).s)
    (hs : ¬(s.mmu.freeSegments f).s.StartsIn (ex e).s) :
    s.step ex f e =
      { s with
        mmu := s.mmu.setNode f ⟨(s.mmu.freeSegments f).next, (s.mmu.freeSegments f).s⟩
        prev := some f
        fcurr := (s.mmu.freeSegments f).next } := by
  have hsame : s.mmu.setNode f ⟨(s.mmu.freeSegments f).next, (s.mmu.freeSegments f).s⟩ = s.mmu := by
    rw [MMUState.setNode]
    congr 1
    exact Function.update_eq_self f s.mmu.freeSegments
  rw [hsame, step]
  exact (if_neg ha).trans (if_neg hs)

end Step

/-- **The branch that deletes a segment never ends**: neither cursor moves, and the node that the
cursor is on does not change. -/
theorem run_delete (hf : s.fcurr = some f) (he : s.ecurr = some e) (hprev : s.prev ≠ some f)
    (hs : (s.mmu.freeSegments f).s.StartsIn (ex e).s)
    (hend : (s.mmu.freeSegments f).s.end_ < (ex e).s.end_) : run ex fuel s ≠ some s' := by
  induction fuel generalizing s with
  | zero =>
    intro hrun
    obtain ⟨fuel', h, -⟩ := run_of_some hf he hrun
    cases h
  | succ fuel ih =>
    intro hrun
    obtain ⟨fuel', h, hrun⟩ := run_of_some hf he hrun
    obtain rfl := Nat.succ.inj h
    rw [step_delete ex s f e hs hend] at hrun
    have hnode : (s.mmu.linkAfter s.prev (s.mmu.freeSegments f).next).freeSegments f =
        s.mmu.freeSegments f := MMUState.linkAfter_of_ne hprev
    refine ih ?_ ?_ ?_ ?_ ?_ hrun
    · exact hf
    · exact he
    · exact hprev
    · rwa [hnode]
    · rwa [hnode]

/-- The cursors: the RAM list is cut in what is done and what is to come, and the nodes that are not
used yet have no `end`. -/
structure At (ex : ℕ → SegmentList) (s : ExcludeState) (done cur es : List ℕ) : Prop where
  free : s.mmu.Free (done ++ cur)
  fcurr : Linked s.mmu.freeSegments s.fcurr cur
  ecurr : Linked ex s.ecurr es
  prev : ∀ p, s.prev = some p → p ∈ done
  lt : ∀ i ∈ done ++ cur, i < s.i
  fresh : ∀ i, s.i ≤ i → (s.mmu.freeSegments i).s.end_ = 0

namespace At

theorem lt_curr (h : At ex s done (f :: cur) es) : f < s.i :=
  h.lt f (List.mem_append_right done List.mem_cons_self)

theorem notMem_done (h : At ex s done (f :: cur) es) : f ∉ done := fun hm ↦
  (List.nodup_append.1 h.free.nodup).2.2 f hm f List.mem_cons_self rfl

theorem notMem_cur (h : At ex s done (f :: cur) es) : f ∉ cur :=
  (List.nodup_cons.1 h.fcurr.nodup).1

/-- Moving on to the next node, whose segment may have been written. -/
theorem next {t : Segment} (h : At ex s done (f :: cur) es) :
    At ex
      { s with
        mmu := s.mmu.setNode f ⟨(s.mmu.freeSegments f).next, t⟩
        prev := some f
        fcurr := (s.mmu.freeSegments f).next } (done ++ [f]) cur es := by
  refine ⟨?_, ?_, h.ecurr, ?_, ?_, fun i hi ↦ ?_⟩
  · rw [List.append_assoc]
    exact h.free.setNode f t
  · exact Linked.congr h.fcurr.2 fun j _ ↦ MMUState.setNode_next f j
  · rintro p ⟨⟩
    exact List.mem_append_right done (List.mem_singleton_self f)
  · rw [List.append_assoc]
    exact h.lt
  · show ((s.mmu.setNode f _).freeSegments i).s.end_ = 0
    rw [MMUState.setNode_s, if_neg (h.lt_curr.trans_le hi).ne']
    exact h.fresh i hi

/-- Leaving a kernel segment behind, with the current segment written. -/
theorem write {t : Segment} (h : At ex s done (f :: cur) (e :: es)) :
    At ex
      { s with
        mmu := s.mmu.setNode f ⟨(s.mmu.freeSegments f).next, t⟩
        ecurr := (ex e).next } done (f :: cur) es := by
  refine ⟨h.free.setNode f t, ?_, h.ecurr.2, h.prev, h.lt, fun i hi ↦ ?_⟩
  · exact Linked.congr h.fcurr fun j _ ↦ MMUState.setNode_next f j
  · show ((s.mmu.setNode f _).freeSegments i).s.end_ = 0
    rw [MMUState.setNode_s, if_neg (h.lt_curr.trans_le hi).ne']
    exact h.fresh i hi

/-- Leaving a kernel segment behind, with a new node behind the current one. -/
theorem insert {t t' : Segment} (h : At ex s done (f :: cur) (e :: es)) :
    At ex
      { mmu := (s.mmu.setNode f ⟨some s.i, t⟩).setNode s.i ⟨(s.mmu.freeSegments f).next, t'⟩
        prev := some f
        fcurr := some s.i
        ecurr := (ex e).next
        i := s.i + 1 } (done ++ [f]) (s.i :: cur) es := by
  have hfi : f ≠ s.i := h.lt_curr.ne
  have hall : s.i ∉ done ++ f :: cur := fun hm ↦ (h.lt s.i hm).false
  have hcur : s.i ∉ cur := fun hm ↦ hall (List.mem_append_right done (List.mem_cons_of_mem f hm))
  -- the new node is linked to what comes next, and then the current one to the new node
  have hlink : (fun j ↦ (((s.mmu.setNode f ⟨some s.i, t⟩).setNode s.i
      ⟨(s.mmu.freeSegments f).next, t'⟩).freeSegments j).next) =
      Function.update (Function.update (fun j ↦ (s.mmu.freeSegments j).next) s.i
        (s.mmu.freeSegments f).next) f (some s.i) := by
    rw [Function.update_comm hfi.symm, ← update_next _ f ⟨some s.i, t⟩,
      ← update_next _ s.i ⟨(s.mmu.freeSegments f).next, t'⟩]
    rfl
  have hnew : Chain (Function.update (fun j ↦ (s.mmu.freeSegments j).next) s.i
      (s.mmu.freeSegments f).next) (some s.i) (s.i :: cur) := by
    refine ⟨rfl, ?_⟩
    rw [Function.update_self]
    exact Chain.update_of_notMem hcur h.fcurr.2
  have hf : f ∉ s.i :: cur := fun hm ↦ (List.mem_cons.1 hm).elim hfi h.notMem_cur
  refine ⟨?_, ?_, h.ecurr.2, ?_, ?_, fun i hi ↦ ?_⟩
  · show Chain _ s.mmu.freeSegmentHead _
    rw [hlink, List.append_assoc]
    exact (Chain.update_of_notMem hall h.free).redirect hnew hf
  · show Chain _ (some s.i) _
    rw [hlink]
    exact hnew.update_of_notMem hf
  · rintro p ⟨⟩
    exact List.mem_append_right done (List.mem_singleton_self f)
  · intro j hj
    by_cases hji : j = s.i
    · exact hji ▸ Nat.lt_succ_self _
    · refine (h.lt j ?_).trans (Nat.lt_succ_self _)
      simpa [hji] using hj
  · have hi : s.i + 1 ≤ i := hi
    show (((s.mmu.setNode f _).setNode s.i _).freeSegments i).s.end_ = 0
    rw [MMUState.setNode_s, if_neg (by omega), MMUState.setNode_s,
      if_neg (h.lt_curr.trans (by omega)).ne']
    exact h.fresh i (by omega)

/-- The segments that are to come behind the new node. -/
theorem segmentsAt_insert {t t' : Segment} (h : At ex s done (f :: cur) es) :
    segmentsAt ((s.mmu.setNode f ⟨some s.i, t⟩).setNode s.i
      ⟨(s.mmu.freeSegments f).next, t'⟩).freeSegments (s.i :: cur) =
      t' :: segmentsAt s.mmu.freeSegments cur := by
  have hi : s.i ∉ cur := fun hm ↦
    (h.lt s.i (List.mem_append_right done (List.mem_cons_of_mem f hm))).false
  rw [MMUState.segmentsAt_setNode_cons hi, MMUState.segmentsAt_setNode h.notMem_cur]

end At

/-- What the loop has made of the nodes `cur` that were to come: the nodes `cur'`, which are the
same ones and `n` new ones. -/
structure Carves (ex : ℕ → SegmentList) (s s' : ExcludeState) (done cur es cur' : List ℕ) (n : ℕ) :
    Prop where
  free : s'.mmu.Free (done ++ cur')
  carved : Carved (segmentsAt s.mmu.freeSegments cur) (segmentsAt ex es)
    (segmentsAt s'.mmu.freeSegments cur') n
  frame : ∀ i ∈ done, (s'.mmu.freeSegments i).s = (s.mmu.freeSegments i).s
  mem : ∀ i, i ∈ cur' ↔ i ∈ cur ∨ s.i ≤ i ∧ i < s.i + n
  head : cur'.head? = cur.head?

namespace Carves

variable {cur' : List ℕ} {n : ℕ} {t t' : Segment}

/-- Before a step that moves on to the next node. -/
theorem next (h : At ex s done (f :: cur) es)
    (hc : Carves ex
      { s with
        mmu := s.mmu.setNode f ⟨(s.mmu.freeSegments f).next, t⟩
        prev := some f
        fcurr := (s.mmu.freeSegments f).next } s' (done ++ [f]) cur es cur' n)
    (hrule : ∀ {out}, Carved (segmentsAt s.mmu.freeSegments cur) (segmentsAt ex es) out n →
      Carved (segmentsAt s.mmu.freeSegments (f :: cur)) (segmentsAt ex es) (t :: out) n) :
    Carves ex s s' done (f :: cur) es (f :: cur') n := by
  have hcur : segmentsAt (s.mmu.setNode f ⟨(s.mmu.freeSegments f).next, t⟩).freeSegments cur =
      segmentsAt s.mmu.freeSegments cur := MMUState.segmentsAt_setNode h.notMem_cur
  have hf : (s'.mmu.freeSegments f).s = t := by
    rw [hc.frame f (List.mem_append_right done (List.mem_singleton_self f)),
      MMUState.setNode_s, if_pos rfl]
  refine ⟨?_, ?_, fun i hi ↦ ?_, fun i ↦ ?_, rfl⟩
  · rw [List.append_cons]
    exact hc.free
  · have hcarved := hc.carved
    rw [hcur] at hcarved
    show Carved _ _ ((s'.mmu.freeSegments f).s :: segmentsAt s'.mmu.freeSegments cur') _
    rw [hf]
    exact hrule hcarved
  · rw [hc.frame i (List.mem_append_left [f] hi), MMUState.setNode_s,
      if_neg (ne_of_mem_of_not_mem hi h.notMem_done)]
  · rw [List.mem_cons, List.mem_cons, hc.mem i, or_assoc]

/-- Before a step that leaves a kernel segment behind. -/
theorem write (h : At ex s done (f :: cur) (e :: es))
    (hc : Carves ex
      { s with
        mmu := s.mmu.setNode f ⟨(s.mmu.freeSegments f).next, t⟩
        ecurr := (ex e).next } s' done (f :: cur) es cur' n)
    (hrule : ∀ {out}, Carved (t :: segmentsAt s.mmu.freeSegments cur) (segmentsAt ex es) out n →
      Carved (segmentsAt s.mmu.freeSegments (f :: cur)) (segmentsAt ex (e :: es)) out n) :
    Carves ex s s' done (f :: cur) (e :: es) cur' n := by
  have hcur : segmentsAt (s.mmu.setNode f ⟨(s.mmu.freeSegments f).next, t⟩).freeSegments
      (f :: cur) = t :: segmentsAt s.mmu.freeSegments cur :=
    MMUState.segmentsAt_setNode_cons h.notMem_cur
  refine ⟨hc.free, ?_, fun i hi ↦ ?_, hc.mem, hc.head⟩
  · have hcarved := hc.carved
    rw [hcur] at hcarved
    exact hrule hcarved
  · rw [hc.frame i hi, MMUState.setNode_s, if_neg (ne_of_mem_of_not_mem hi h.notMem_done)]

/-- Before a step that inserts a node. -/
theorem insert (h : At ex s done (f :: cur) (e :: es))
    (hc : Carves ex
      { mmu := (s.mmu.setNode f ⟨some s.i, t⟩).setNode s.i ⟨(s.mmu.freeSegments f).next, t'⟩
        prev := some f
        fcurr := some s.i
        ecurr := (ex e).next
        i := s.i + 1 } s' (done ++ [f]) (s.i :: cur) es cur' n)
    (hrule : ∀ {out}, Carved (t' :: segmentsAt s.mmu.freeSegments cur) (segmentsAt ex es) out n →
      Carved (segmentsAt s.mmu.freeSegments (f :: cur)) (segmentsAt ex (e :: es)) (t :: out)
        (n + 1)) :
    Carves ex s s' done (f :: cur) (e :: es) (f :: cur') (n + 1) := by
  have hs : ∀ i < s.i, (((s.mmu.setNode f ⟨some s.i, t⟩).setNode s.i
      ⟨(s.mmu.freeSegments f).next, t'⟩).freeSegments i).s =
      if i = f then t else (s.mmu.freeSegments i).s := fun i hi ↦ by
    rw [MMUState.setNode_s, if_neg hi.ne, MMUState.setNode_s]
  have hlt : ∀ i ∈ done ++ f :: cur, i < s.i := h.lt
  have hcur : segmentsAt ((s.mmu.setNode f ⟨some s.i, t⟩).setNode s.i
      ⟨(s.mmu.freeSegments f).next, t'⟩).freeSegments (s.i :: cur) =
      t' :: segmentsAt s.mmu.freeSegments cur := h.segmentsAt_insert
  have hf : (s'.mmu.freeSegments f).s = t := by
    rw [hc.frame f (List.mem_append_right done (List.mem_singleton_self f)), hs f h.lt_curr,
      if_pos rfl]
  refine ⟨?_, ?_, fun i hi ↦ ?_, fun i ↦ ?_, rfl⟩
  · rw [List.append_cons]
    exact hc.free
  · have hcarved := hc.carved
    rw [hcur] at hcarved
    show Carved _ _ ((s'.mmu.freeSegments f).s :: segmentsAt s'.mmu.freeSegments cur') _
    rw [hf]
    exact hrule hcarved
  · rw [hc.frame i (List.mem_append_left [f] hi), hs i (hlt i (List.mem_append_left _ hi)),
      if_neg (ne_of_mem_of_not_mem hi h.notMem_done)]
  · have hmem : i ∈ cur' ↔ (i = s.i ∨ i ∈ cur) ∨ s.i + 1 ≤ i ∧ i < s.i + 1 + n := by
      rw [hc.mem i, List.mem_cons]
    have hnew : (i = s.i ∨ s.i + 1 ≤ i ∧ i < s.i + 1 + n) ↔ s.i ≤ i ∧ i < s.i + (n + 1) := by
      omega
    rw [List.mem_cons, List.mem_cons, hmem, ← hnew]
    simp only [or_assoc, or_left_comm]

end Carves

/-- **The loop carves the segments.** -/
theorem run_spec (h : At ex s done cur es) (hrun : run ex fuel s = some s') :
    ∃ cur' n, Carves ex s s' done cur es cur' n := by
  induction fuel using Nat.strong_induction_on generalizing s done cur es with
  | _ fuel ih =>
    rcases cur with _ | ⟨f, cur⟩
    · obtain rfl := run_of_none (Or.inl h.fcurr) hrun
      exact ⟨[], 0, h.free, .nil _, fun i _ ↦ rfl, fun i ↦ by simp, rfl⟩
    rcases es with _ | ⟨e, es⟩
    · obtain rfl := run_of_none (Or.inr h.ecurr) hrun
      exact ⟨f :: cur, 0, h.free, .done _, fun i _ ↦ rfl, fun i ↦ by simp, rfl⟩
    obtain ⟨fuel, rfl, hstep⟩ := run_of_some h.fcurr.1 h.ecurr.1 hrun
    by_cases ha : (s.mmu.freeSegments f).s.Around (ex e).s
    · rcases Nat.lt_or_ge (ex e).s.end_ (s.mmu.freeSegments f).s.end_ with hend | hend
      · rw [step_split ex s f e ha hend, h.fresh s.i le_rfl] at hstep
        obtain ⟨cur', n, hc⟩ := ih fuel (Nat.lt_succ_self _) h.insert hstep
        exact ⟨f :: cur', n + 1, hc.insert h fun hcarved ↦ .split ha hend hcarved⟩
      · rw [step_trim ex s f e ha hend] at hstep
        obtain ⟨cur', n, hc⟩ := ih fuel (Nat.lt_succ_self _) h.next hstep
        exact ⟨f :: cur', n, hc.next h fun hcarved ↦ .trim ha hend hcarved⟩
    · by_cases hs : (s.mmu.freeSegments f).s.StartsIn (ex e).s
      · rcases Nat.lt_or_ge (s.mmu.freeSegments f).s.end_ (ex e).s.end_ with hend | hend
        · -- the segment would have to be deleted
          have hprev : s.prev ≠ some f := fun hp ↦ h.notMem_done (h.prev f hp)
          exact absurd hrun (run_delete h.fcurr.1 h.ecurr.1 hprev hs hend)
        · rw [step_cut ex s f e hs hend] at hstep
          obtain ⟨cur', n, hc⟩ := ih fuel (Nat.lt_succ_self _) h.write hstep
          exact ⟨cur', n, hc.write h fun hcarved ↦ .cut hs hend hcarved⟩
      · rw [step_skip ex s f e ha hs] at hstep
        obtain ⟨cur', n, hc⟩ := ih fuel (Nat.lt_succ_self _) h.next hstep
        exact ⟨f :: cur', n, hc.next h fun hcarved ↦ .skip ha hs hcarved⟩

end ExcludeState

/-! ### The list at boot -/

/-- The segments without the page at address `0`. -/
def withoutPageZero : List Segment → List Segment
  | [] => []
  | s :: ss =>
    if s.base = 0 then
      if s.len = pageSize then ss
      else { s with base := wadd s.base pageSize, len := wsub s.len pageSize } :: ss
    else s :: ss

theorem ignorePageZero_spec {m m' : MMUState} (h : m.Free idxs)
    (hrun : ignorePageZero m = some m') :
    ∃ idxs', m'.Free idxs' ∧ (idxs' = idxs ∨ idxs' = idxs.tail) ∧
      segmentsAt m'.freeSegments idxs' = withoutPageZero (segmentsAt m.freeSegments idxs) := by
  obtain ⟨i, hi, rfl⟩ := Option.map_eq_some_iff.1 hrun
  rcases idxs with _ | ⟨j, idxs⟩
  · rw [show m.freeSegmentHead = none from h] at hi
    cases hi
  have hhead : m.freeSegmentHead = some j := h.1
  obtain rfl : j = i := Option.some.inj (hhead.symm.trans hi)
  have hj : j ∉ idxs := (List.nodup_cons.1 h.nodup).1
  rw [segmentsAt, List.map_cons, withoutPageZero, ← segmentsAt]
  dsimp only
  split
  · split
    · exact ⟨idxs, h.2, Or.inr rfl, rfl⟩
    · refine ⟨j :: idxs, MMUState.Free.setNode h j _, Or.inl rfl, ?_⟩
      exact MMUState.segmentsAt_setNode_cons hj
  · exact ⟨j :: idxs, h, Or.inl rfl, rfl⟩

/-- `mmu_compute_free_segments` up to its exclusion loop: the RAM sections are copied and rounded.
Then `i` is the number of RAM sections. -/
def excludeStart (m : MMUState) (map : PhysicalMMap) : Option ExcludeState := do
  let segs := map.ramSects.map fun r ↦ (⟨r.base, wadd r.base r.length, r.length⟩ : Segment)
  let m := { m with
    freeSegments := fun i ↦ if i < segs.length then linkedSegments segs i else m.freeSegments i
    freeSegmentHead := some 0 }
  let m ← roundFreeFrom segs.length none m.freeSegmentHead m
  return ⟨m, none, m.freeSegmentHead, some 0, segs.length⟩

theorem mmuComputeFreeSegments_eq (fuel : ℕ) (m : MMUState) (map : PhysicalMMap)
    (ex : ℕ → SegmentList) :
    mmuComputeFreeSegments fuel m map ex =
      (excludeStart m map).bind fun s ↦
        (ExcludeState.run ex fuel s).bind fun s' ↦ ignorePageZero s'.mmu := by
  simp only [mmuComputeFreeSegments, excludeStart, Option.bind_eq_bind, Option.pure_def,
    Option.bind_assoc, Option.bind_some]

/-- The exclusion loop is reached when there is a RAM section. -/
theorem excludeStart_isSome {m : MMUState} {map : PhysicalMMap} (hne : map.ramSects ≠ []) :
    ∃ s, excludeStart m map = some s := by
  obtain ⟨l, hl⟩ : ∃ l, map.ramSects.length = l + 1 :=
    Nat.exists_eq_succ_of_ne_zero (mt List.length_eq_zero_iff.1 hne)
  set segs := map.ramSects.map fun r ↦ (⟨r.base, wadd r.base r.length, r.length⟩ : Segment)
    with hsegs
  have hlen : segs.length = l + 1 := by rw [hsegs, List.length_map, hl]
  have hlinked : Linked (fun i ↦ if i < segs.length then linkedSegments segs i
      else m.freeSegments i) (some 0) (List.range' 0 (l + 1)) := by
    refine Linked.congr (linkedSegments_linked segs (by omega)) fun i hi ↦ ?_
    have hi := List.mem_range'_1.1 hi
    rw [if_pos (by omega)]
  obtain ⟨m', hround⟩ : ∃ m', roundFreeFrom segs.length none (some 0)
      { m with
        freeSegments := fun i ↦ if i < segs.length then linkedSegments segs i
          else m.freeSegments i
        freeSegmentHead := some 0 } = some m' :=
    roundFreeFrom_isSome hlinked (fun i _ hi ↦ by cases hi) (by simp [hlen])
  refine ⟨⟨m', none, m'.freeSegmentHead, some 0, segs.length⟩, ?_⟩
  rw [excludeStart]
  dsimp only
  rw [← hsegs, hround]
  rfl

/-- **The start of the exclusion loop at boot**: to come are the rounded RAM sections, less the
empty ones that have been unlinked. -/
theorem excludeStart_spec {map : PhysicalMMap} {s : ExcludeState} {ex : ℕ → SegmentList}
    {js : List ℕ} (h : excludeStart MMUState.zero map = some s) (hjs : Linked ex (some 0) js) :
    s.i = map.ramSects.length ∧ ∃ kept, ExcludeState.At ex s [] kept js ∧
      segmentsAt s.mmu.freeSegments kept = unlinkEmpty true map.ramRanges := by
  simp only [excludeStart, Option.bind_eq_bind, Option.bind_eq_some_iff, Option.pure_def,
    Option.some.injEq] at h
  obtain ⟨m₁, hround, rfl⟩ := h
  set segs := map.ramSects.map fun r ↦ (⟨r.base, wadd r.base r.length, r.length⟩ : Segment)
    with hsegs
  set m₀ : MMUState := { MMUState.zero with
    freeSegments := fun i ↦ if i < segs.length then linkedSegments segs i
      else MMUState.zero.freeSegments i
    freeSegmentHead := some 0 } with hm₀
  have hlen : segs.length = map.ramSects.length := List.length_map _
  have hnode : ∀ i ∈ List.range segs.length, m₀.freeSegments i = linkedSegments segs i :=
    fun i hi ↦ if_pos (List.mem_range.1 hi)
  have hfree₀ : m₀.Free (List.range segs.length) := by
    cases hl : segs.length with
    | zero =>
      rw [hl] at hround
      cases hround
    | succ l =>
      rw [hl] at hnode
      rw [List.range_eq_range'] at hnode ⊢
      refine Linked.congr (linkedSegments_linked segs (by omega)) fun i hi ↦ ?_
      rw [hnode i hi]
  have hram : (segmentsAt m₀.freeSegments (List.range segs.length)).map roundFree =
      map.ramRanges := by
    rw [segmentsAt_congr fun i hi ↦ by rw [hnode i hi], segmentsAt_linkedSegments, hsegs,
      List.map_map]
    rfl
  have hprev : PrevAt none [] (List.range segs.length) true := rfl
  obtain ⟨⟨kept, hsub, hfree₁, hkept⟩, hframe⟩ := roundFreeFrom_spec hfree₀ hfree₀ hprev hround
  rw [hram] at hkept
  refine ⟨hlen, kept, ⟨hfree₁, hfree₁, hjs, fun p hp ↦ ?_, fun i hi ↦ ?_, fun i hi ↦ ?_⟩, hkept⟩
  · cases hp
  · exact List.mem_range.1 (hsub.subset hi)
  · have hi' : ¬i < segs.length := Nat.not_lt.2 hi
    show (m₁.freeSegments i).s.end_ = 0
    rw [hframe i (mt List.mem_range.1 hi')]
    show (if i < segs.length then _ else _ : SegmentList).s.end_ = 0
    rw [if_neg hi']
    rfl

/-- **The list of free segments at boot**: what is carved out of the RAM, with the page at address
`0` ignored. The number of nodes that it takes is the number of RAM sections and of splits. -/
theorem initSegments_spec {fuel : ℕ} {map : PhysicalMMap} {k k' : Machine}
    (h : MMU.initSegments fuel map k = some k') :
    ∃ idxs out n, k'.mmu.Free idxs ∧
      segmentsAt k'.mmu.freeSegments idxs = withoutPageZero out ∧
      Carved (unlinkEmpty true map.ramRanges) map.kernelRanges out n ∧
      (∀ i ∈ idxs, i < map.ramSects.length + n) ∧
      ∀ i, map.ramSects.length ≤ i → i < map.ramSects.length + n → i ∈ idxs := by
  simp only [MMU.initSegments, mmuComputeFreeSegments_eq, Option.bind_eq_bind,
    Option.bind_eq_some_iff, Option.pure_def, Option.some.injEq] at h
  obtain ⟨ex, hex, m, ⟨s₀, hstart, s, hrun, hzero⟩, rfl⟩ := h
  obtain ⟨-, js, hjs, hkernel⟩ := mmuComputeExcluded_spec hex
  obtain ⟨hlen, kept, hat, hkept⟩ := excludeStart_spec hstart hjs
  have hlt : ∀ i ∈ kept, i < s₀.i := hat.lt
  obtain ⟨cur', n, hc⟩ := ExcludeState.run_spec hat hrun
  obtain ⟨idxs, hfree, hidxs, hout⟩ := ignorePageZero_spec hc.free hzero
  have hcarved := hc.carved
  rw [hkept, hkernel] at hcarved
  rw [← hlen]
  refine ⟨idxs, _, n, hfree, hout, hcarved, fun i hi ↦ ?_, fun i h₁ h₂ ↦ ?_⟩
  · have hmem : i ∈ cur' := by
      rcases hidxs with rfl | rfl
      · exact hi
      · exact List.mem_of_mem_tail hi
    rcases (hc.mem i).1 hmem with hi | ⟨-, hi⟩
    · exact (hlt i hi).trans_le (Nat.le_add_right _ _)
    · exact hi
  · have hmem : i ∈ cur' := (hc.mem i).2 (Or.inr ⟨h₁, h₂⟩)
    rcases hidxs with rfl | rfl
    · exact hmem
    · -- the first node is not a new one
      rcases cur' with _ | ⟨j, cur'⟩
      · exact hmem
      · have hj := hlt j (List.mem_of_mem_head? hc.head.symm)
        exact List.mem_of_ne_of_mem (hj.trans_le h₁).ne' hmem

end Marimba
