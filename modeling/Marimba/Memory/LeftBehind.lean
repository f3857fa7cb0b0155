import Marimba.Memory.Carving

/-!
# How far the exclusion loop gets

The exclusion loop of `mmu_compute_free_segments` leaves a kernel segment behind when a RAM segment
reaches beyond it. `leftBehind` are the kernel segments for which this happens, and `gotTo` has one
more: the kernel segment at which the loop stays to its end. What the loop does to the RAM segments
is decided at these kernel segments (`AtEveryStart`).

`CarveStep` is one iteration on the segments that are still to come. It has no rule for the branch
that deletes a RAM segment, which does not move on (`Segment.Stuck`). Each iteration takes one
segment from one of the two lists (`CarveStep.length_add`), and neither whether the loop ends
(`CarveStep.loopEnds_iff`) nor how many nodes it takes in all (`CarveStep.insertCount_eq`) changes
on the way.
-/

namespace Marimba

variable {f f' e e' s : Segment} {fs es fs' es' : List Segment} {n : ℕ}
  {P : Segment → Segment → Prop}

/-- RAM segments one behind the other. A segment whose `end` is not set, or has wrapped around, may
be among them. -/
abbrev InSequence (fs : List Segment) : Prop :=
  fs.Pairwise fun f g ↦ f.base ≤ g.base ∧ f.end_ ≤ g.base

/-- RAM segments in order, with their `end` set, are one behind the other. -/
theorem Ordered.inSequence (h : RamSegments fs) : InSequence fs :=
  h.pairwise.imp_of_mem fun hf _ hle ↦ ⟨(h.le_of_mem hf).trans hle, hle⟩

/-- The segment lies inside the kernel segment `e` and would have to be deleted. -/
def Segment.Stuck (f e : Segment) : Prop := f.StartsIn e ∧ f.end_ < e.end_

instance (f e : Segment) : Decidable (f.Stuck e) := inferInstanceAs (Decidable (_ ∧ _))

/-- **The kernel segments that the loop leaves behind**: as long as some RAM segment reaches beyond
the kernel segment and none is stuck in it. A RAM segment that has been split does not count any
more. -/
def leftBehind : List Segment → List Segment → List Segment
  | _, [] => []
  | fs, e :: es =>
    if (∃ f ∈ fs, f.Passes e) ∧ ∀ f ∈ fs, ¬f.Stuck e then
      e :: leftBehind (fs.filter fun f ↦ ¬f.Splits e) es
    else []

/-- The kernel segments that the loop gets to: those that it leaves behind, and the next one. -/
def gotTo (fs es : List Segment) : List Segment := es.take ((leftBehind fs es).length + 1)

/-- Of every RAM segment and the kernel segment in which it starts, if the loop gets there. -/
def AtEveryStart (P : Segment → Segment → Prop) (fs es : List Segment) : Prop :=
  ∀ e ∈ gotTo fs es, ∀ f ∈ fs, f.StartsIn e → P f e

/-- **When the loop ends**: every RAM segment that starts in a kernel segment reaches to its end, if
the loop gets there. -/
abbrev LoopEnds : List Segment → List Segment → Prop := AtEveryStart fun f e ↦ e.end_ ≤ f.end_

instance (fs es : List Segment) : Decidable (LoopEnds fs es) :=
  inferInstanceAs (Decidable (∀ e ∈ gotTo fs es, ∀ f ∈ fs, f.StartsIn e → e.end_ ≤ f.end_))

/-- How many nodes the loop inserts: one for each kernel segment that it leaves behind strictly
inside a RAM segment. -/
def insertCount (fs es : List Segment) : ℕ :=
  (leftBehind fs es).countP fun e ↦ ∃ f ∈ fs, f.Splits e

/-! ### RAM segments that make no difference -/

theorem gotTo_of_cons (h : leftBehind fs (e :: es) = e :: leftBehind fs' es) :
    gotTo fs (e :: es) = e :: gotTo fs' es := by
  rw [gotTo, h, List.length_cons, List.take_succ_cons, gotTo]

theorem gotTo_of_nil (h : leftBehind fs (e :: es) = []) : gotTo fs (e :: es) = [e] := by
  rw [gotTo, h]
  rfl

theorem mem_of_mem_gotTo (h : e ∈ gotTo fs es) : e ∈ es := List.mem_of_mem_take h

/-- A RAM segment that neither starts in a kernel segment nor is split makes no difference. -/
theorem leftBehind_cons (h : ∀ e ∈ es, ¬f.StartsIn e ∧ ¬f.Splits e) :
    leftBehind (f :: fs) es = leftBehind fs es := by
  induction es generalizing fs with
  | nil => rfl
  | cons e es ih =>
    obtain ⟨⟨hstart, hsplit⟩, hes⟩ := List.forall_mem_cons.1 h
    have hpasses : ¬f.Passes e := fun hp ↦ hp.elim hsplit fun hp ↦ hstart hp.1
    have hstuck : ¬f.Stuck e := fun hs ↦ hstart hs.1
    have hfilter : ((f :: fs).filter fun f ↦ ¬f.Splits e) =
        f :: fs.filter fun f ↦ ¬f.Splits e := List.filter_cons_of_pos (by simpa using hsplit)
    simp only [leftBehind, hfilter, ih hes, List.exists_mem_cons_iff, List.forall_mem_cons,
      hpasses, hstuck, false_or, not_false_eq_true, true_and]

/-- A RAM segment may be exchanged for one that is split by the same kernel segments, when neither
starts in one. -/
theorem leftBehind_cons_congr (h : ∀ e ∈ es, ¬f.StartsIn e ∧ ¬f'.StartsIn e)
    (hsplits : ∀ e ∈ es, f.Splits e ↔ f'.Splits e) :
    leftBehind (f :: fs) es = leftBehind (f' :: fs) es := by
  induction es generalizing fs with
  | nil => rfl
  | cons e es ih =>
    obtain ⟨⟨hf, hf'⟩, hes⟩ := List.forall_mem_cons.1 h
    obtain ⟨hiff, hrest⟩ := List.forall_mem_cons.1 hsplits
    have hpasses : f.Passes e ↔ f'.Passes e := by
      rw [Segment.Passes, Segment.Passes, hiff]
      exact or_congr_right (iff_of_false (fun hp ↦ hf hp.1) fun hp ↦ hf' hp.1)
    have hstuck : ¬f.Stuck e ∧ ¬f'.Stuck e := ⟨fun hs ↦ hf hs.1, fun hs ↦ hf' hs.1⟩
    have hfilter : leftBehind ((f :: fs).filter fun f ↦ ¬f.Splits e) es =
        leftBehind ((f' :: fs).filter fun f ↦ ¬f.Splits e) es := by
      by_cases hs : f.Splits e
      · rw [List.filter_cons_of_neg (by simpa using hs),
          List.filter_cons_of_neg (by simpa using hiff.1 hs)]
      · rw [List.filter_cons_of_pos (by simpa using hs),
          List.filter_cons_of_pos (by simpa using mt hiff.2 hs)]
        exact ih hes hrest
    simp only [leftBehind, hfilter, List.exists_mem_cons_iff, List.forall_mem_cons, hpasses, hstuck,
      not_false_eq_true, true_and]

theorem exists_passes_of_mem_leftBehind (h : e ∈ leftBehind fs es) : ∃ f ∈ fs, f.Passes e := by
  induction es generalizing fs with
  | nil => exact absurd h List.not_mem_nil
  | cons e' es ih =>
    rw [leftBehind] at h
    split at h
    · rename_i hcond
      rcases List.mem_cons.1 h with rfl | h
      · exact hcond.1
      · obtain ⟨f, hf, hp⟩ := ih h
        exact ⟨f, List.mem_of_mem_filter hf, hp⟩
    · exact absurd h List.not_mem_nil

theorem mem_of_mem_leftBehind (h : e ∈ leftBehind fs es) : e ∈ es := by
  induction es generalizing fs with
  | nil => exact h
  | cons e' es ih =>
    rw [leftBehind] at h
    split at h
    · exact (List.mem_cons.1 h).elim (fun h ↦ h ▸ List.mem_cons_self)
        fun h ↦ List.mem_cons_of_mem e' (ih h)
    · exact absurd h List.not_mem_nil

/-- A RAM segment that starts in none of the kernel segments is not asked about. -/
theorem atEveryStart_cons (h : ∀ e ∈ es, ¬f.StartsIn e) :
    (∀ e ∈ gotTo fs' es, ∀ g ∈ f :: fs, g.StartsIn e → P g e) ↔
      ∀ e ∈ gotTo fs' es, ∀ g ∈ fs, g.StartsIn e → P g e := by
  refine forall₂_congr fun e he ↦ ?_
  rw [List.forall_mem_cons, and_iff_right]
  exact fun hin ↦ absurd hin (h e (mem_of_mem_gotTo he))

/-! ### The branches -/

section Branches

variable (hs : InSequence (f :: fs)) (hk : KernelSegments (e :: es))

include hs in
theorem InSequence.le_base {b : ℕ} (hb : b ≤ f.end_) : ∀ g ∈ fs, b ≤ g.base := fun g hg ↦
  hb.trans ((List.pairwise_cons.1 hs).1 g hg).2

include hk in
theorem Ordered.lt_base {b : ℕ} (hb : b ≤ e.end_) : ∀ e' ∈ es, b < e'.base ∧ e.end_ < e'.end_ :=
  fun e' he' ↦ by
    have h₁ := hk.of_mem_tail he'
    have h₂ := hk.tail.le_of_mem he'
    omega

theorem Segment.not_startsIn_of_lt (h : f.base < e.base) : ¬f.StartsIn e := fun hin ↦
  absurd hin.1 (Nat.not_le.2 h)

theorem Segment.not_startsIn_of_le (h : e.end_ ≤ f.base) : ¬f.StartsIn e := fun hin ↦
  absurd hin.2 (Nat.not_lt.2 h)

include hs hk in
/-- The RAM segment is split. -/
theorem leftBehind_split (ha : f.Around e) (hend : e.end_ < f.end_) :
    leftBehind (f :: fs) (e :: es) = e :: leftBehind (f.restAfter e :: fs) es := by
  have hbehind : ∀ g ∈ fs, e.end_ ≤ g.base := hs.le_base hend.le
  have hstuck : ∀ g ∈ f :: fs, ¬g.Stuck e := by
    refine List.forall_mem_cons.2 ⟨fun h ↦ Segment.not_startsIn_of_lt ha.1 h.1, fun g hg h ↦ ?_⟩
    exact Segment.not_startsIn_of_le (hbehind g hg) h.1
  have hfilter : ((f :: fs).filter fun g ↦ ¬g.Splits e) = fs := by
    rw [List.filter_cons_of_neg (by simpa using ⟨ha.1, hend⟩), List.filter_eq_self]
    refine fun g hg ↦ decide_eq_true fun hsplits ↦ ?_
    exact absurd ((hbehind g hg).trans_lt hsplits.1) (Nat.not_lt.2 hk.base_le)
  rw [leftBehind, if_pos ⟨⟨f, List.mem_cons_self, Or.inl ⟨ha.1, hend⟩⟩, hstuck⟩, hfilter]
  refine congrArg (e :: ·) (leftBehind_cons fun e' he' ↦ ⟨?_, fun h ↦ ?_⟩).symm
  · exact Segment.not_startsIn_of_lt (hk.of_mem_tail he')
  · exact absurd h.2 (Nat.not_lt_zero _)

include hs hk in
/-- The first part of the RAM segment is cut off. -/
theorem leftBehind_cut (hin : f.StartsIn e) (hend : e.end_ ≤ f.end_) :
    leftBehind (f :: fs) (e :: es) = e :: leftBehind (f.from_ e :: fs) es := by
  have hbehind : ∀ g ∈ fs, e.end_ ≤ g.base := hs.le_base hend
  have hstuck : ∀ g ∈ f :: fs, ¬g.Stuck e := by
    refine List.forall_mem_cons.2 ⟨fun h ↦ absurd h.2 (Nat.not_lt.2 hend), fun g hg h ↦ ?_⟩
    exact Segment.not_startsIn_of_le (hbehind g hg) h.1
  have hfilter : ((f :: fs).filter fun g ↦ ¬g.Splits e) = f :: fs := by
    rw [List.filter_eq_self]
    simp only [List.forall_mem_cons, decide_eq_true_eq]
    refine ⟨fun h ↦ absurd hin.1 (Nat.not_le.2 h.1), fun g hg h ↦ ?_⟩
    exact absurd ((hbehind g hg).trans_lt h.1) (Nat.not_lt.2 hk.base_le)
  rw [leftBehind, if_pos ⟨⟨f, List.mem_cons_self, Or.inr ⟨hin, hend⟩⟩, hstuck⟩, hfilter]
  refine congrArg (e :: ·) (leftBehind_cons_congr (fun e' he' ↦ ⟨?_, ?_⟩) fun e' he' ↦ ?_)
  · exact Segment.not_startsIn_of_lt (hk.lt_base hin.2.le e' he').1
  · exact Segment.not_startsIn_of_lt (hk.of_mem_tail he')
  · have h₁ := (hk.lt_base hin.2.le e' he').1
    have h₂ := hk.of_mem_tail he'
    exact and_congr_left' (iff_of_true h₁ h₂)

include hk in
/-- The RAM segment starts before the kernel segment and does not reach beyond it. -/
theorem leftBehind_before (hlt : f.base < e.base) (hend : f.end_ ≤ e.end_) :
    leftBehind (f :: fs) (e :: es) = leftBehind fs (e :: es) := by
  refine leftBehind_cons (List.forall_mem_cons.2 ⟨⟨?_, fun h ↦ ?_⟩, fun e' he' ↦ ⟨?_, fun h ↦ ?_⟩⟩)
  · exact Segment.not_startsIn_of_lt hlt
  · exact absurd h.2 (Nat.not_lt.2 hend)
  · exact Segment.not_startsIn_of_lt (hk.lt_base (hlt.le.trans hk.base_le) e' he').1
  · exact absurd (h.2.trans_le hend) (Nat.not_lt.2 (hk.lt_base le_rfl e' he').2.le)

include hk in
/-- All RAM segments are behind the kernel segment. -/
theorem leftBehind_after (h : ∀ g ∈ fs, e.end_ ≤ g.base) : leftBehind fs (e :: es) = [] := by
  rw [leftBehind, if_neg fun hcond ↦ not_passes_of_after hk h hcond.1]

/-- A RAM segment is stuck in the kernel segment. -/
theorem leftBehind_stuck (h : f.Stuck e) : leftBehind (f :: fs) (e :: es) = [] := by
  rw [leftBehind, if_neg fun hcond ↦ hcond.2 f List.mem_cons_self h]

include hs hk in
theorem atEveryStart_split (ha : f.Around e) (hend : e.end_ < f.end_) :
    AtEveryStart P (f :: fs) (e :: es) ↔ AtEveryStart P (f.restAfter e :: fs) es := by
  rw [AtEveryStart, gotTo_of_cons (leftBehind_split hs hk ha hend), List.forall_mem_cons,
    and_iff_right, atEveryStart_cons fun e' he' ↦ ?_, ← atEveryStart_cons fun e' he' ↦ ?_,
    AtEveryStart]
  · exact Segment.not_startsIn_of_lt (hk.of_mem_tail he')
  · exact Segment.not_startsIn_of_lt (hk.lt_base (ha.1.le.trans hk.base_le) e' he').1
  · refine List.forall_mem_cons.2 ⟨fun h ↦ absurd h (Segment.not_startsIn_of_lt ha.1), ?_⟩
    exact fun g hg h ↦ absurd h (Segment.not_startsIn_of_le (hs.le_base hend.le g hg))

include hs hk in
theorem atEveryStart_cut (hin : f.StartsIn e) (hend : e.end_ ≤ f.end_) :
    AtEveryStart P (f :: fs) (e :: es) ↔ P f e ∧ AtEveryStart P (f.from_ e :: fs) es := by
  rw [AtEveryStart, gotTo_of_cons (leftBehind_cut hs hk hin hend), List.forall_mem_cons,
    atEveryStart_cons fun e' he' ↦ ?_, ← atEveryStart_cons fun e' he' ↦ ?_, ← AtEveryStart]
  · refine and_congr_left' ?_
    rw [List.forall_mem_cons, and_iff_left, imp_iff_right hin]
    exact fun g hg h ↦ absurd h (Segment.not_startsIn_of_le (hs.le_base hend g hg))
  · exact Segment.not_startsIn_of_lt (hk.of_mem_tail he')
  · exact Segment.not_startsIn_of_lt (hk.lt_base hin.2.le e' he').1

include hk in
theorem atEveryStart_before (hlt : f.base < e.base) (hend : f.end_ ≤ e.end_) :
    AtEveryStart P (f :: fs) (e :: es) ↔ AtEveryStart P fs (e :: es) := by
  rw [AtEveryStart, gotTo, leftBehind_before hk hlt hend, ← gotTo, atEveryStart_cons, AtEveryStart]
  refine List.forall_mem_cons.2 ⟨Segment.not_startsIn_of_lt hlt, fun e' he' ↦ ?_⟩
  exact Segment.not_startsIn_of_lt (hk.lt_base (hlt.le.trans hk.base_le) e' he').1

include hk in
theorem atEveryStart_after (h : ∀ g ∈ fs, e.end_ ≤ g.base) : AtEveryStart P fs (e :: es) := by
  rw [AtEveryStart, gotTo_of_nil (leftBehind_after hk h)]
  exact List.forall_mem_singleton.2 fun g hg hin ↦
    absurd hin (Segment.not_startsIn_of_le (h g hg))

theorem not_loopEnds_of_stuck (h : f.Stuck e) : ¬LoopEnds (f :: fs) (e :: es) := fun hends ↦ by
  have hmem : e ∈ gotTo (f :: fs) (e :: es) := by
    rw [gotTo_of_nil (leftBehind_stuck h)]
    exact List.mem_singleton_self e
  exact absurd (hends e hmem f List.mem_cons_self h.1) (Nat.not_le.2 h.2)

include hs hk in
/-- The count behind a split. -/
theorem insertCount_split (ha : f.Around e) (hend : e.end_ < f.end_) :
    insertCount (f :: fs) (e :: es) = insertCount (f.restAfter e :: fs) es + 1 := by
  rw [insertCount, leftBehind_split hs hk ha hend, List.countP_cons_of_pos, insertCount]
  · refine congrArg (· + 1) (List.countP_congr fun e' he' ↦ ?_)
    -- a later kernel segment in the same RAM segment is not left behind
    have hf : ¬f.Splits e' := fun hsplits ↦ by
      obtain ⟨g, hg, hp⟩ := exists_passes_of_mem_leftBehind he'
      have hes := hk.of_mem_tail (mem_of_mem_leftBehind he')
      have hle := hk.tail.le_of_mem (mem_of_mem_leftBehind he')
      have hsplit := hsplits.2
      rcases List.mem_cons.1 hg with rfl | hg
      · rcases hp with hp | hp
        · exact absurd hp.2 (Nat.not_lt_zero _)
        · exact absurd hp.1 (Segment.not_startsIn_of_lt hes)
      · have hbase := hs.le_base le_rfl g hg
        rcases hp with hp | hp
        · have := hp.1
          omega
        · have := hp.1.2
          omega
    have hrest : ¬(f.restAfter e).Splits e' := fun hsplits ↦
      absurd hsplits.2 (Nat.not_lt_zero _)
    simp only [List.exists_mem_cons_iff, hf, hrest]
  · exact decide_eq_true ⟨f, List.mem_cons_self, ha.1, hend⟩

include hs hk in
theorem insertCount_cut (hin : f.StartsIn e) (hend : e.end_ ≤ f.end_) :
    insertCount (f :: fs) (e :: es) = insertCount (f.from_ e :: fs) es := by
  rw [insertCount, leftBehind_cut hs hk hin hend, List.countP_cons_of_neg, insertCount]
  · refine List.countP_congr fun e' he' ↦ ?_
    have hes := hk.of_mem_tail (mem_of_mem_leftBehind he')
    have hiff : f.Splits e' ↔ (f.from_ e).Splits e' :=
      and_congr_left' (iff_of_true (hin.2.trans hes) hes)
    simp only [List.exists_mem_cons_iff, hiff]
  · simp only [List.exists_mem_cons_iff, decide_eq_true_eq, not_or, not_exists, not_and]
    refine ⟨fun h ↦ absurd hin.1 (Nat.not_le.2 h.1), fun g hg h ↦ ?_⟩
    exact absurd ((hs.le_base hend g hg).trans_lt h.1) (Nat.not_lt.2 hk.base_le)

include hk in
theorem insertCount_before (hlt : f.base < e.base) (hend : f.end_ ≤ e.end_) :
    insertCount (f :: fs) (e :: es) = insertCount fs (e :: es) := by
  rw [insertCount, leftBehind_before hk hlt hend, insertCount]
  refine List.countP_congr fun e' he' ↦ ?_
  have hf : ¬f.Splits e' := fun h ↦ by
    rcases List.mem_cons.1 (mem_of_mem_leftBehind he') with rfl | hm
    · exact absurd h.2 (Nat.not_lt.2 hend)
    · exact absurd (h.2.trans_le hend) (Nat.not_lt.2 (hk.lt_base le_rfl e' hm).2.le)
  simp only [List.exists_mem_cons_iff, hf, false_or]

theorem insertCount_of_nil (h : leftBehind fs es = []) : insertCount fs es = 0 := by
  rw [insertCount, h]
  rfl

end Branches

/-! ### One iteration -/

/-- One iteration on the segments that are to come, with the number of nodes that it inserts. -/
inductive CarveStep : List Segment → List Segment → List Segment → List Segment → ℕ → Prop
  | split {f e : Segment} {fs es : List Segment} (ha : f.Around e) (hend : e.end_ < f.end_) :
      CarveStep (f :: fs) (e :: es) (f.restAfter e :: fs) es 1
  | trim {f e : Segment} {fs es : List Segment} (ha : f.Around e) (hend : f.end_ ≤ e.end_) :
      CarveStep (f :: fs) (e :: es) fs (e :: es) 0
  | cut {f e : Segment} {fs es : List Segment} (hin : f.StartsIn e) (hend : e.end_ ≤ f.end_) :
      CarveStep (f :: fs) (e :: es) (f.from_ e :: fs) es 0
  | skip {f e : Segment} {fs es : List Segment} (ha : ¬f.Around e) (hin : ¬f.StartsIn e) :
      CarveStep (f :: fs) (e :: es) fs (e :: es) 0

namespace CarveStep

/-- **Every iteration consumes a segment.** -/
theorem length_add (h : CarveStep fs es fs' es' n) :
    fs'.length + es'.length + 1 = fs.length + es.length := by
  cases h <;> simp only [List.length_cons] <;> omega

theorem kernelSegments (h : CarveStep fs es fs' es' n) (hk : KernelSegments es) :
    KernelSegments es' := by
  cases h with
  | split => exact hk.tail
  | trim => exact hk
  | cut => exact hk.tail
  | skip => exact hk

theorem inSequence (h : CarveStep fs es fs' es' n) (hs : InSequence fs) : InSequence fs' := by
  cases h with
  | @split f e fs es ha hend =>
    refine List.pairwise_cons.2 ⟨fun g hg ↦ ⟨?_, Nat.zero_le _⟩, (List.pairwise_cons.1 hs).2⟩
    exact hs.le_base hend.le g hg
  | trim => exact (List.pairwise_cons.1 hs).2
  | @cut f e fs es hin hend =>
    refine List.pairwise_cons.2 ⟨fun g hg ↦ ⟨?_, ?_⟩, (List.pairwise_cons.1 hs).2⟩
    · exact hs.le_base hend g hg
    · exact hs.le_base le_rfl g hg
  | skip => exact (List.pairwise_cons.1 hs).2

/-- A RAM segment that is passed over lies before the kernel segment, or all RAM lies behind it. -/
theorem skip_cases (hs : InSequence (f :: fs)) (hk : KernelSegments (e :: es))
    (ha : ¬f.Around e) (hin : ¬f.StartsIn e) :
    f.base < e.base ∧ f.end_ ≤ e.end_ ∨ ∀ g ∈ f :: fs, e.end_ ≤ g.base := by
  by_cases hlt : f.base < e.base
  · have hend : f.end_ ≤ e.base := Nat.not_lt.1 fun hend ↦ ha ⟨hlt, hend⟩
    exact Or.inl ⟨hlt, hend.trans hk.base_le⟩
  · have hbase : e.end_ ≤ f.base := Nat.not_lt.1 fun hend ↦ hin ⟨Nat.not_lt.1 hlt, hend⟩
    refine Or.inr (List.forall_mem_cons.2 ⟨hbase, fun g hg ↦ hbase.trans ?_⟩)
    exact ((List.pairwise_cons.1 hs).1 g hg).1

/-- **Whether the loop ends does not change on the way.** -/
theorem loopEnds_iff (h : CarveStep fs es fs' es' n) (hs : InSequence fs)
    (hk : KernelSegments es) : LoopEnds fs es ↔ LoopEnds fs' es' := by
  cases h with
  | split ha hend => exact atEveryStart_split hs hk ha hend
  | trim ha hend => exact atEveryStart_before hk ha.1 hend
  | cut hin hend => exact (atEveryStart_cut hs hk hin hend).trans (and_iff_right hend)
  | @skip f e fs es ha hin =>
    rcases skip_cases hs hk ha hin with ⟨hlt, hend⟩ | hall
    · exact atEveryStart_before hk hlt hend
    · exact iff_of_true (atEveryStart_after hk hall)
        (atEveryStart_after hk (List.forall_mem_cons.1 hall).2)

/-- **Nor does the number of nodes that it takes in all.** -/
theorem insertCount_eq (h : CarveStep fs es fs' es' n) (hs : InSequence fs)
    (hk : KernelSegments es) : insertCount fs es = insertCount fs' es' + n := by
  cases h with
  | split ha hend => exact insertCount_split hs hk ha hend
  | trim ha hend => exact insertCount_before hk ha.1 hend
  | cut hin hend => exact insertCount_cut hs hk hin hend
  | @skip f e fs es ha hin =>
    rcases skip_cases hs hk ha hin with ⟨hlt, hend⟩ | hall
    · exact insertCount_before hk hlt hend
    · rw [insertCount_of_nil (leftBehind_after hk hall),
        insertCount_of_nil (leftBehind_after hk (List.forall_mem_cons.1 hall).2)]

end CarveStep

end Marimba
