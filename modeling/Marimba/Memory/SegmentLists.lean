import Marimba.Memory.BootSegments

/-!
# The segment lists in their arrays

What the loops of `mmu_compute_excluded` and the rounding loop of `mmu_compute_free_segments` do to
the linked lists, said on the segments that the nodes hold: the rounding of the kernel sections, the
merge (`mergeExcluded`), and the rounding of the RAM with its unlinking (`unlinkEmpty`).

The unlinking goes through `prev`, which is also moved to a node that has just been unlinked. So of
two empty sections in a row the second one stays in the list.
-/

namespace Marimba

/-- The nodes `idxs` are linked from `head` on. -/
abbrev Linked (a : ℕ → SegmentList) (head : Option ℕ) (idxs : List ℕ) : Prop :=
  Chain (fun i ↦ (a i).next) head idxs

/-- The segments that the nodes hold. -/
def segmentsAt (a : ℕ → SegmentList) (idxs : List ℕ) : List Segment := idxs.map fun i ↦ (a i).s

variable {a a' : ℕ → SegmentList} {head : Option ℕ} {idxs : List ℕ} {i j : ℕ}

theorem segmentsAt_congr (h : ∀ i ∈ idxs, (a' i).s = (a i).s) :
    segmentsAt a' idxs = segmentsAt a idxs :=
  List.map_congr_left h

/-- A list only depends on the pointers of its nodes. -/
theorem Linked.congr (h : Linked a head idxs) (hnext : ∀ i ∈ idxs, (a' i).next = (a i).next) :
    Linked a' head idxs :=
  Chain.congr (fun i hi ↦ (hnext i hi).symm) h

/-- Writing a node changes its pointer and no other. -/
theorem update_next (a : ℕ → SegmentList) (i : ℕ) (n : SegmentList) :
    (fun j ↦ (Function.update a i n j).next) = Function.update (fun j ↦ (a j).next) i n.next := by
  funext j
  by_cases hj : j = i
  · subst hj
    simp
  · simp [hj]

/-! ### Sections in an array -/

theorem linkedSegments_linked (segs : List Segment) :
    ∀ {k i : ℕ}, i + (k + 1) = segs.length →
      Linked (linkedSegments segs) (some i) (List.range' i (k + 1))
  | 0, i, h => by
    refine ⟨rfl, ?_⟩
    show (if i + 1 < segs.length then some (i + 1) else none) = none
    rw [if_neg (by omega)]
  | k + 1, i, h => by
    refine ⟨rfl, ?_⟩
    show Chain _ (if i + 1 < segs.length then some (i + 1) else none) _
    rw [if_pos (by omega)]
    exact linkedSegments_linked segs (by omega)

theorem segmentsAt_linkedSegments (segs : List Segment) :
    segmentsAt (linkedSegments segs) (List.range segs.length) = segs := by
  refine List.ext_getElem (by simp [segmentsAt]) fun i h₁ h₂ ↦ ?_
  simp [segmentsAt, linkedSegments, h₂]

/-! ### The kernel list -/

theorem roundExcludedFrom_spec {fuel : ℕ} (h : Linked a head idxs)
    (hrun : roundExcludedFrom fuel head a = some a') (i : ℕ) :
    a' i = if i ∈ idxs then { a i with s := roundExcluded (a i).s } else a i := by
  induction idxs generalizing fuel head a with
  | nil =>
    obtain rfl : head = none := h
    rw [roundExcludedFrom] at hrun
    rw [Option.some.inj hrun, if_neg List.not_mem_nil]
  | cons c idxs ih =>
    have hc := (List.nodup_cons.1 h.nodup).1
    obtain ⟨rfl, hrest⟩ := h
    cases fuel with
    | zero => cases hrun
    | succ fuel =>
      rw [roundExcludedFrom] at hrun
      rw [ih (Linked.congr hrest fun j hj ↦ ?_) hrun]
      · by_cases hic : i = c
        · subst hic
          simp [hc]
        · simp [hic]
      · by_cases hjc : j = c
        · subst hjc
          simp
        · simp [hjc]

/-- The loop that rounds has enough fuel when there is one for each node. -/
theorem roundExcludedFrom_isSome {fuel : ℕ} (h : Linked a head idxs) (hf : idxs.length ≤ fuel) :
    ∃ a', roundExcludedFrom fuel head a = some a' := by
  induction idxs generalizing fuel head a with
  | nil =>
    obtain rfl : head = none := h
    exact ⟨a, by rw [roundExcludedFrom]⟩
  | cons c idxs ih =>
    obtain ⟨rfl, hrest⟩ := h
    obtain ⟨fuel, rfl⟩ := Nat.exists_eq_add_of_lt (Nat.lt_of_lt_of_le (Nat.succ_pos _) hf)
    rw [Nat.zero_add, roundExcludedFrom]
    refine ih (Linked.congr hrest fun j _ ↦ ?_) (by simpa using hf)
    by_cases hj : j = c
    · subst hj
      simp
    · simp [hj]

/-- The merge on the segments: `p` is the last one that has been made. -/
def mergeExcluded : Segment → List Segment → List Segment
  | p, [] => [p]
  | p, c :: cs =>
    if wadd p.base p.len < c.base then p :: mergeExcluded c cs
    else
      let len := max p.len (wsub (wadd c.base c.len) p.base)
      mergeExcluded { p with len := len, end_ := wadd p.base len } cs

theorem reduceExcluded_spec {fuel p : ℕ} {curr : Option ℕ} (h : Linked a curr idxs)
    (hp : p ∉ idxs) (hnext : (a p).next = curr) (hrun : reduceExcluded fuel p curr a = some a') :
    (∃ js, Linked a' (some p) (p :: js) ∧
      segmentsAt a' (p :: js) = mergeExcluded (a p).s (segmentsAt a idxs)) ∧
      ∀ i, i ≠ p → i ∉ idxs → a' i = a i := by
  induction idxs generalizing fuel p curr a with
  | nil =>
    obtain rfl : curr = none := h
    rw [reduceExcluded] at hrun
    obtain rfl := Option.some.inj hrun
    exact ⟨⟨[], ⟨rfl, hnext⟩, rfl⟩, fun i _ _ ↦ rfl⟩
  | cons c idxs ih =>
    have hc := (List.nodup_cons.1 h.nodup).1
    obtain ⟨rfl, hrest⟩ := h
    have hpc : p ≠ c := fun e ↦ hp (e ▸ List.mem_cons_self)
    have hps : p ∉ idxs := fun hm ↦ hp (List.mem_cons_of_mem c hm)
    cases fuel with
    | zero => cases hrun
    | succ fuel =>
      rw [reduceExcluded] at hrun
      rw [segmentsAt, List.map_cons, mergeExcluded]
      split at hrun
      · -- the two stay apart, and the next one may be merged into `c`
        rename_i hlt
        rw [if_pos hlt]
        obtain ⟨⟨js, hlinked, hsegs⟩, hframe⟩ := ih hrest hc rfl hrun
        have hap : a' p = a p := hframe p hpc hps
        refine ⟨⟨c :: js, ⟨rfl, ?_⟩, ?_⟩, fun i hi hm ↦ ?_⟩
        · show Chain _ (a' p).next _
          rw [hap, hnext]
          exact hlinked
        · rw [segmentsAt, List.map_cons, hap, ← segmentsAt, hsegs]
          rfl
        · exact hframe i (fun e ↦ hm (e ▸ List.mem_cons_self))
            fun hi' ↦ hm (List.mem_cons_of_mem c hi')
      · rename_i hlt
        rw [if_neg hlt]
        set n : SegmentList := ⟨(a c).next, _⟩ with hn
        have hother : ∀ i, i ≠ p → Function.update a p n i = a i := fun i hi ↦
          Function.update_of_ne hi _ _
        have hidxs : ∀ i ∈ idxs, Function.update a p n i = a i := fun i hi ↦
          hother i fun e ↦ hps (e ▸ hi)
        obtain ⟨hout, hframe⟩ := ih (Linked.congr hrest fun i hi ↦ by rw [hidxs i hi]) hps
          (by rw [Function.update_self]) hrun
        rw [Function.update_self, segmentsAt_congr fun i hi ↦ by rw [hidxs i hi]] at hout
        refine ⟨hout, fun i hi hm ↦ ?_⟩
        rw [hframe i hi fun hi' ↦ hm (List.mem_cons_of_mem c hi'), hother i hi]

/-- And so has the loop that merges: a merge takes its node out of the list. -/
theorem reduceExcluded_isSome {fuel p : ℕ} {curr : Option ℕ} (h : Linked a curr idxs)
    (hp : p ∉ idxs) (hf : idxs.length ≤ fuel) : ∃ a', reduceExcluded fuel p curr a = some a' := by
  induction idxs generalizing fuel p curr a with
  | nil =>
    obtain rfl : curr = none := h
    exact ⟨a, by rw [reduceExcluded]⟩
  | cons c idxs ih =>
    have hc := (List.nodup_cons.1 h.nodup).1
    have hps : p ∉ idxs := fun hm ↦ hp (List.mem_cons_of_mem c hm)
    obtain ⟨rfl, hrest⟩ := h
    obtain ⟨fuel, rfl⟩ := Nat.exists_eq_add_of_lt (Nat.lt_of_lt_of_le (Nat.succ_pos _) hf)
    have hf : idxs.length ≤ fuel := by simpa using hf
    rw [Nat.zero_add, reduceExcluded]
    dsimp only
    split
    · exact ih hrest hc hf
    · refine ih (Linked.congr hrest fun i hi ↦ ?_) hps hf
      rw [Function.update_of_ne (ne_of_mem_of_not_mem hi hps)]

/-- A kernel section, rounded outward to whole pages. -/
def KernelSection.rounded (k : KernelSection) : Segment :=
  roundExcluded ⟨k.base, wadd k.base k.length, k.length⟩

/-- **The page ranges of the kernel**: the rounded sections, merged where they overlap or touch. -/
def PhysicalMMap.kernelRanges (map : PhysicalMMap) : List Segment :=
  match map.kernelSects.map KernelSection.rounded with
  | [] => []
  | k :: ks => mergeExcluded k ks

theorem mmuComputeExcluded_spec {map : PhysicalMMap} (h : mmuComputeExcluded map = some a) :
    map.kernelSects ≠ [] ∧ ∃ js, Linked a (some 0) js ∧ segmentsAt a js = map.kernelRanges := by
  simp only [mmuComputeExcluded, Option.bind_eq_bind, Option.bind_eq_some_iff] at h
  obtain ⟨a₁, hround, hreduce⟩ := h
  set segs := map.kernelSects.map fun k ↦ (⟨k.base, wadd k.base k.length, k.length⟩ : Segment)
    with hsegs
  have hlen : segs.length = map.kernelSects.length := List.length_map _
  cases hk : map.kernelSects.length with
  | zero =>
    rw [hk] at hround
    cases hround
  | succ k =>
    have hne : map.kernelSects ≠ [] := List.ne_nil_of_length_eq_add_one hk
    have hlinked : Linked (linkedSegments segs) (some 0) (List.range (k + 1)) := by
      rw [List.range_eq_range']
      exact linkedSegments_linked segs (by omega)
    have hnode := roundExcludedFrom_spec hlinked hround
    have hlinked₁ : Linked a₁ (some 0) (List.range (k + 1)) :=
      hlinked.congr fun i hi ↦ by rw [hnode, if_pos hi]
    have hsegs₁ : segmentsAt a₁ (List.range (k + 1)) =
        map.kernelSects.map KernelSection.rounded := by
      have hat := segmentsAt_linkedSegments segs
      rw [hlen, hk] at hat
      calc segmentsAt a₁ (List.range (k + 1))
          = (segmentsAt (linkedSegments segs) (List.range (k + 1))).map roundExcluded := by
            rw [segmentsAt, segmentsAt, List.map_map]
            exact List.map_congr_left fun i hi ↦ by rw [hnode, if_pos hi]; rfl
        _ = map.kernelSects.map KernelSection.rounded := by
            rw [hat, hsegs, List.map_map]
            rfl
    refine ⟨hne, ?_⟩
    rw [List.range_succ_eq_map] at hlinked₁ hsegs₁
    have hzero : 0 ∉ (List.range k).map Nat.succ := by simp
    obtain ⟨⟨js, hjs, hmerge⟩, -⟩ := reduceExcluded_spec hlinked₁.2 hzero rfl hreduce
    refine ⟨_, hjs, ?_⟩
    rw [hmerge, PhysicalMMap.kernelRanges, ← hsegs₁]
    rfl

/-- Without a kernel section, `mmu_compute_excluded` walks from a node that it has not set up. -/
theorem mmuComputeExcluded_of_nil {map : PhysicalMMap} (h : map.kernelSects = []) :
    mmuComputeExcluded map = none := by
  rw [mmuComputeExcluded, h]
  rfl

/-- `mmu_compute_excluded` returns when there is a kernel section. -/
theorem mmuComputeExcluded_isSome {map : PhysicalMMap} (hne : map.kernelSects ≠ []) :
    ∃ a, mmuComputeExcluded map = some a := by
  obtain ⟨k, hk⟩ : ∃ k, map.kernelSects.length = k + 1 :=
    Nat.exists_eq_succ_of_ne_zero (mt List.length_eq_zero_iff.1 hne)
  set segs := map.kernelSects.map fun k ↦ (⟨k.base, wadd k.base k.length, k.length⟩ : Segment)
    with hsegs
  have hlen : segs.length = k + 1 := by rw [hsegs, List.length_map, hk]
  have hlinked : Linked (linkedSegments segs) (some 0) (List.range (k + 1)) := by
    rw [List.range_eq_range']
    exact linkedSegments_linked segs (by omega)
  obtain ⟨a₁, hround⟩ := roundExcludedFrom_isSome hlinked List.length_range.le
  have hlinked₁ : Linked a₁ (some 0) (List.range (k + 1)) :=
    hlinked.congr fun i hi ↦ by rw [roundExcludedFrom_spec hlinked hround, if_pos hi]
  rw [List.range_succ_eq_map] at hlinked₁
  have hzero : 0 ∉ (List.range k).map Nat.succ := by simp
  obtain ⟨a, hreduce⟩ : ∃ a, reduceExcluded (k + 1) 0 (a₁ 0).next a₁ = some a :=
    reduceExcluded_isSome hlinked₁.2 hzero (by simp)
  refine ⟨a, ?_⟩
  rw [mmuComputeExcluded, hk, ← hsegs, hround]
  exact hreduce

/-! ### The RAM list -/

/-- A RAM section, rounded inward to whole pages. -/
def MMapEntry.rounded (r : MMapEntry) : Segment :=
  roundFree ⟨r.base, wadd r.base r.length, r.length⟩

/-- The RAM sections, rounded inward to whole pages. -/
def PhysicalMMap.ramRanges (map : PhysicalMMap) : List Segment := map.ramSects.map MMapEntry.rounded

/-- The segments that stay in the list. An empty one is only unlinked when the node before it is
itself in the list, or when it is the first node. -/
def unlinkEmpty : (linked : Bool) → List Segment → List Segment
  | _, [] => []
  | linked, s :: ss =>
    if linked ∧ s.len = 0 then unlinkEmpty false ss else s :: unlinkEmpty true ss

theorem unlinkEmpty_sublist : ∀ (linked : Bool) (ss : List Segment),
    (unlinkEmpty linked ss).Sublist ss
  | _, [] => List.Sublist.refl []
  | linked, s :: ss => by
    rw [unlinkEmpty]
    split
    · exact (unlinkEmpty_sublist false ss).cons s
    · exact (unlinkEmpty_sublist true ss).cons_cons s

/-- Only empty segments are unlinked. -/
theorem mem_unlinkEmpty {s : Segment} : ∀ {linked : Bool} {ss : List Segment}, s ∈ ss → s.len ≠ 0 →
    s ∈ unlinkEmpty linked ss
  | linked, t :: ss, hs, hne => by
    rw [unlinkEmpty]
    rcases List.mem_cons.1 hs with rfl | hs
    · rw [if_neg fun h ↦ hne h.2]
      exact List.mem_cons_self
    · split
      · exact mem_unlinkEmpty hs hne
      · exact List.mem_cons_of_mem t (mem_unlinkEmpty hs hne)

/-- Where `prev` is: on the last node before the current one, or on a node that is not in the
list. -/
def PrevAt (prev : Option ℕ) (done idxs : List ℕ) : (linked : Bool) → Prop
  | true => prev = done.getLast?
  | false => ∃ p, prev = some p ∧ p ∉ done ++ idxs

namespace MMUState

variable {m : MMUState} {prev next : Option ℕ} {done : List ℕ} {c : ℕ}

/-- The list of free segments visits these nodes. -/
abbrev Free (m : MMUState) (idxs : List ℕ) : Prop := Linked m.freeSegments m.freeSegmentHead idxs

theorem setNode_next {s : Segment} (i j : ℕ) :
    ((m.setNode i ⟨(m.freeSegments i).next, s⟩).freeSegments j).next = (m.freeSegments j).next := by
  by_cases hj : j = i
  · subst hj
    simp
  · simp [hj]

theorem setNode_s {s : Segment} (i j : ℕ) :
    ((m.setNode i ⟨next, s⟩).freeSegments j).s = if j = i then s else (m.freeSegments j).s := by
  by_cases hj : j = i
  · subst hj
    simp
  · simp [hj]

theorem segmentsAt_setNode {s : Segment} (hi : i ∉ idxs) :
    segmentsAt (m.setNode i ⟨next, s⟩).freeSegments idxs = segmentsAt m.freeSegments idxs :=
  segmentsAt_congr fun j hj ↦ by rw [setNode_s, if_neg (ne_of_mem_of_not_mem hj hi)]

theorem segmentsAt_setNode_cons {s : Segment} (hi : i ∉ idxs) :
    segmentsAt (m.setNode i ⟨next, s⟩).freeSegments (i :: idxs) =
      s :: segmentsAt m.freeSegments idxs := by
  rw [segmentsAt, List.map_cons, setNode_s, if_pos rfl, ← segmentsAt, segmentsAt_setNode hi]

/-- Writing a node without its pointer. -/
theorem Free.setNode (h : m.Free idxs) (i : ℕ) (s : Segment) :
    (m.setNode i ⟨(m.freeSegments i).next, s⟩).Free idxs :=
  Linked.congr h fun j _ ↦ setNode_next i j

theorem linkAfter_s (i : ℕ) :
    ((m.linkAfter prev next).freeSegments i).s = (m.freeSegments i).s := by
  cases prev with
  | none => rfl
  | some p =>
    by_cases hi : i = p
    · subst hi
      simp [linkAfter]
    · simp [linkAfter, hi]

theorem linkAfter_of_ne (h : prev ≠ some i) :
    (m.linkAfter prev next).freeSegments i = m.freeSegments i := by
  cases prev with
  | none => rfl
  | some p =>
    have hi : i ≠ p := fun e ↦ h (e ▸ rfl)
    simp [linkAfter, hi]

/-- **Unlinking** the node behind `prev`. -/
theorem Free.unlink (h : m.Free (done ++ c :: idxs)) (hprev : prev = done.getLast?) :
    (m.linkAfter prev (m.freeSegments c).next).Free (done ++ idxs) := by
  have hrest : Linked m.freeSegments (m.freeSegments c).next idxs := Chain.tail_of_append h
  rcases List.eq_nil_or_concat' done with rfl | ⟨done, p, rfl⟩
  · obtain rfl : prev = none := hprev
    exact hrest
  · rw [List.getLast?_concat] at hprev
    subst hprev
    have hnodup := h.nodup
    rw [List.append_assoc, List.singleton_append] at h hnodup ⊢
    have hp : p ∉ c :: idxs := (List.nodup_cons.1 (List.nodup_append.1 hnodup).2.1).1
    have hlink := Chain.redirect h hrest fun hm ↦ hp (List.mem_cons_of_mem c hm)
    rwa [← update_next m.freeSegments p ⟨(m.freeSegments c).next, (m.freeSegments p).s⟩] at hlink

/-- Writing the pointer of a node that is not in the list. -/
theorem Free.linkAfter_of_notMem {p : ℕ} (h : m.Free idxs) (hp : p ∉ idxs) :
    (m.linkAfter (some p) next).Free idxs := by
  refine Linked.congr h fun i hi ↦ ?_
  have hne : some p ≠ some i := fun e ↦ hp (by rwa [Option.some.inj e])
  rw [linkAfter_of_ne hne]

/-- One iteration of the rounding loop. -/
def roundNode (m : MMUState) (prev : Option ℕ) (c : ℕ) : MMUState :=
  let node := m.freeSegments c
  let m₁ := m.setNode c { node with s := roundFree node.s }
  if (roundFree node.s).len = 0 then m₁.linkAfter prev node.next else m₁

theorem roundNode_s (i : ℕ) : ((m.roundNode prev c).freeSegments i).s =
    if i = c then roundFree (m.freeSegments c).s else (m.freeSegments i).s := by
  rw [roundNode]
  split
  · rw [linkAfter_s, setNode_s]
  · exact setNode_s c i

theorem roundNode_next (h : prev ≠ some i) :
    ((m.roundNode prev c).freeSegments i).next = (m.freeSegments i).next := by
  rw [roundNode]
  split
  · rw [linkAfter_of_ne h, setNode_next]
  · exact setNode_next c i

/-- An empty section behind a node of the list is unlinked. -/
theorem Free.roundNode_unlink (h : m.Free (done ++ c :: idxs)) (hprev : prev = done.getLast?)
    (hempty : (roundFree (m.freeSegments c).s).len = 0) :
    (m.roundNode prev c).Free (done ++ idxs) := by
  have hunlink := Free.unlink (h.setNode c (roundFree (m.freeSegments c).s)) hprev
  rw [setNode_next] at hunlink
  rw [roundNode, if_pos hempty]
  exact hunlink

/-- Other sections stay, and so does an empty one when `prev` is not in the list. -/
theorem Free.roundNode_keep (h : m.Free idxs)
    (hkeep : (roundFree (m.freeSegments c).s).len = 0 → ∃ p, prev = some p ∧ p ∉ idxs) :
    (m.roundNode prev c).Free idxs := by
  rw [roundNode]
  split
  · obtain ⟨p, rfl, hp⟩ := hkeep ‹_›
    exact Free.linkAfter_of_notMem (h.setNode c _) hp
  · exact h.setNode c _

end MMUState

/-- **The rounding of the RAM** leaves these nodes in the list. -/
theorem roundFreeFrom_spec {fuel : ℕ} {prev curr : Option ℕ} {m m' : MMUState} {done : List ℕ}
    {linked : Bool} (h : m.Free (done ++ idxs)) (hcurr : Linked m.freeSegments curr idxs)
    (hprev : PrevAt prev done idxs linked) (hrun : roundFreeFrom fuel prev curr m = some m') :
    (∃ kept, kept.Sublist idxs ∧ m'.Free (done ++ kept) ∧
      segmentsAt m'.freeSegments kept =
        unlinkEmpty linked ((segmentsAt m.freeSegments idxs).map roundFree)) ∧
      ∀ i ∉ idxs, (m'.freeSegments i).s = (m.freeSegments i).s := by
  induction idxs generalizing fuel prev curr m done linked with
  | nil =>
    obtain rfl : curr = none := hcurr
    rw [roundFreeFrom] at hrun
    obtain rfl := Option.some.inj hrun
    exact ⟨⟨[], List.Sublist.refl [], h, rfl⟩, fun i _ ↦ rfl⟩
  | cons c idxs ih =>
    have hc := (List.nodup_cons.1 hcurr.nodup).1
    have hcd : c ∉ done := fun hm ↦
      (List.nodup_append.1 h.nodup).2.2 c hm c List.mem_cons_self rfl
    obtain ⟨rfl, hrest⟩ := hcurr
    have hne : ∀ i ∈ c :: idxs, prev ≠ some i := by
      rintro i hi rfl
      cases linked with
      | true =>
        have hlast := List.mem_of_getLast? hprev.symm
        exact (List.nodup_append.1 h.nodup).2.2 i hlast i hi rfl
      | false =>
        obtain ⟨p, hp, hnot⟩ := hprev
        exact hnot (Option.some.inj hp ▸ List.mem_append_right done hi)
    cases fuel with
    | zero => cases hrun
    | succ fuel =>
      replace hrun : roundFreeFrom fuel (some c) ((m.roundNode prev c).freeSegments c).next
        (m.roundNode prev c) = some m' := hrun
      rw [MMUState.roundNode_next (hne c List.mem_cons_self)] at hrun
      have hrest' : Linked (m.roundNode prev c).freeSegments (m.freeSegments c).next idxs :=
        Linked.congr hrest fun i hi ↦
          MMUState.roundNode_next (hne i (List.mem_cons_of_mem c hi))
      have hsegs : segmentsAt (m.roundNode prev c).freeSegments idxs =
          segmentsAt m.freeSegments idxs := segmentsAt_congr fun i hi ↦ by
        rw [MMUState.roundNode_s, if_neg (ne_of_mem_of_not_mem hi hc)]
      have hframe : ∀ i ∉ c :: idxs,
          ((m.roundNode prev c).freeSegments i).s = (m.freeSegments i).s := fun i hi ↦ by
        rw [MMUState.roundNode_s, if_neg (List.ne_of_not_mem_cons hi)]
      rw [segmentsAt, List.map_cons, List.map_cons, ← segmentsAt, unlinkEmpty]
      by_cases hunlink : linked ∧ (roundFree (m.freeSegments c).s).len = 0
      · obtain ⟨rfl, hempty⟩ := hunlink
        rw [if_pos ⟨rfl, hempty⟩]
        have hprev' : PrevAt (some c) done idxs false :=
          ⟨c, rfl, fun hm ↦ (List.mem_append.1 hm).elim hcd hc⟩
        obtain ⟨⟨kept, hsub, hfree, hkept⟩, hs⟩ :=
          ih (h.roundNode_unlink hprev hempty) hrest' hprev' hrun
        refine ⟨⟨kept, hsub.cons c, hfree, by rw [hkept, hsegs]⟩, fun i hi ↦ ?_⟩
        rw [hs i fun hm ↦ hi (List.mem_cons_of_mem c hm), hframe i hi]
      · rw [if_neg hunlink]
        have hkeep : (m.roundNode prev c).Free (done ++ c :: idxs) := by
          refine h.roundNode_keep fun hempty ↦ ?_
          cases linked with
          | true => exact absurd ⟨rfl, hempty⟩ hunlink
          | false => exact hprev
        have hprev' : PrevAt (some c) (done ++ [c]) idxs true := (List.getLast?_concat ..).symm
        rw [List.append_cons] at hkeep
        obtain ⟨⟨kept, hsub, hfree, hkept⟩, hs⟩ := ih hkeep hrest' hprev' hrun
        refine ⟨⟨c :: kept, hsub.cons_cons c, ?_, ?_⟩, fun i hi ↦ ?_⟩
        · rwa [List.append_cons]
        · rw [segmentsAt, List.map_cons, ← segmentsAt, hkept, hsegs, hs c hc,
            MMUState.roundNode_s, if_pos rfl]
        · rw [hs i fun hm ↦ hi (List.mem_cons_of_mem c hm), hframe i hi]

/-- The loop that rounds the RAM has enough fuel when there is one for each node. -/
theorem roundFreeFrom_isSome {fuel : ℕ} {prev curr : Option ℕ} {m : MMUState}
    (h : Linked m.freeSegments curr idxs) (hprev : ∀ i ∈ idxs, prev ≠ some i)
    (hf : idxs.length ≤ fuel) : ∃ m', roundFreeFrom fuel prev curr m = some m' := by
  induction idxs generalizing fuel prev curr m with
  | nil =>
    obtain rfl : curr = none := h
    exact ⟨m, by rw [roundFreeFrom]⟩
  | cons c idxs ih =>
    have hc := (List.nodup_cons.1 h.nodup).1
    obtain ⟨rfl, hrest⟩ := h
    obtain ⟨fuel, rfl⟩ := Nat.exists_eq_add_of_lt (Nat.lt_of_lt_of_le (Nat.succ_pos _) hf)
    rw [Nat.zero_add]
    show ∃ m', roundFreeFrom fuel (some c) ((m.roundNode prev c).freeSegments c).next
      (m.roundNode prev c) = some m'
    rw [MMUState.roundNode_next (hprev c List.mem_cons_self)]
    refine ih (Linked.congr hrest fun i hi ↦ ?_) (fun i hi ↦ ?_) (by simpa using hf)
    · exact MMUState.roundNode_next (hprev i (List.mem_cons_of_mem c hi))
    · exact fun heq ↦ hc (Option.some.inj heq ▸ hi)

end Marimba
