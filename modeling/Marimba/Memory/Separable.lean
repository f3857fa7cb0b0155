import Marimba.Memory.BootSegments

/-!
# RAM segments and kernel segments

How segments of the RAM and of the kernel lie to each other, and the condition under which the
exclusion loop of `mmu_compute_free_segments` takes the kernel out of the RAM.

`Ordered` are segments in order, with their `end` set and page-aligned. The loop does not leave the
right pages of all of them.

* A segment that is split leaves a rest whose `end` is not set. It is passed over, whatever kernel
  segments are still in it.
* A kernel segment that lies before the current RAM segment is not left behind: the RAM segments are
  passed over instead, and no later kernel segment is taken out. A kernel segment is only left
  behind by a RAM segment that reaches beyond it.

`Separable` excludes both. It asks, kernel segment by kernel segment, which RAM segments meet it,
are split by it and leave it behind, and nothing else about them: `Mirrored` lists of RAM segments
are separable together.
-/

namespace Marimba

namespace Segment

/-- The segment up to where the kernel segment `e` starts. Its `end` is not adjusted. -/
def upTo (f e : Segment) : Segment := { f with len := wsub e.base f.base }

/-- What is left behind the kernel segment `e` when a segment is split. Its `end` is not set. -/
def restAfter (f e : Segment) : Segment := ⟨e.end_, 0, wsub f.end_ e.end_⟩

/-- The segment without its first part, which is in the kernel segment `e`. -/
def from_ (f e : Segment) : Segment := { f with base := e.end_, len := wsub f.end_ e.end_ }

/-- The kernel segment `e` starts inside the segment. -/
def Around (f e : Segment) : Prop := f.base < e.base ∧ e.base < f.end_

/-- The segment starts inside the kernel segment `e`. -/
def StartsIn (f e : Segment) : Prop := e.base ≤ f.base ∧ f.base < e.end_

/-- The two have an address in common. -/
def Meets (f e : Segment) : Prop :=
  f.base < f.end_ ∧ e.base < e.end_ ∧ f.base < e.end_ ∧ e.base < f.end_

/-- The kernel segment `e` lies strictly inside the segment, which is then split. -/
def Splits (f e : Segment) : Prop := f.base < e.base ∧ e.end_ < f.end_

/-- The segment reaches beyond the kernel segment `e`, or to its end when it starts in it. -/
def Passes (f e : Segment) : Prop := f.Splits e ∨ f.StartsIn e ∧ e.end_ ≤ f.end_

instance (f e : Segment) : Decidable (f.StartsIn e) := inferInstanceAs (Decidable (_ ∧ _))

instance (f e : Segment) : Decidable (f.Meets e) := inferInstanceAs (Decidable (_ ∧ _))

instance (f e : Segment) : Decidable (f.Splits e) := inferInstanceAs (Decidable (_ ∧ _))

instance (f e : Segment) : Decidable (f.Passes e) := inferInstanceAs (Decidable (_ ∨ _))

/-- The address is in the segment. -/
def Has (s : Segment) (p : ℕ) : Prop := s.base ≤ p ∧ p < s.base + s.len

end Segment

/-! ### When the kernel is taken out -/

/-- **When the loop takes the kernel out.** If there is RAM in a later kernel segment, then some RAM
segment leaves the first one behind, and a RAM segment that is split by the first one meets no later
one; and the same for the later ones, where the RAM segments that have been split do not count any
more. -/
def Separable : List Segment → List Segment → Prop
  | _, [] => True
  | fs, e :: es =>
    ((∃ f ∈ fs, ∃ e' ∈ es, f.Meets e') → ∃ f ∈ fs, f.Passes e) ∧
      (∀ f ∈ fs, f.Splits e → ∀ e' ∈ es, ¬f.Meets e') ∧
      Separable (fs.filter fun f ↦ ¬f.Splits e) es

instance Separable.decidable : ∀ fs es, Decidable (Separable fs es)
  | _, [] => isTrue trivial
  | fs, e :: es =>
    have := Separable.decidable (fs.filter fun f ↦ ¬f.Splits e) es
    inferInstanceAs (Decidable (_ ∧ _ ∧ _))

/-- How often a RAM segment is split: by the kernel segments that lie strictly inside one, as far as
they are left behind. -/
def splitCount : List Segment → List Segment → ℕ
  | _, [] => 0
  | fs, e :: es =>
    if ∃ f ∈ fs, f.Passes e then
      splitCount (fs.filter fun f ↦ ¬f.Splits e) es + if ∃ f ∈ fs, f.Splits e then 1 else 0
    else 0

/-! ### Ordered segments -/

/-- An address in one of the segments. -/
def Covered (ss : List Segment) (p : ℕ) : Prop := ∃ s ∈ ss, s.Has p

/-- Page-aligned segments with their `end` set, any two of them in the order `R`. -/
structure Ordered (R : Segment → Segment → Prop) (ss : List Segment) : Prop where
  end_eq : ∀ s ∈ ss, s.base + s.len = s.end_
  lt : ∀ s ∈ ss, s.end_ < wordSize
  aligned : ∀ s ∈ ss, s.base % pageSize = 0 ∧ s.end_ % pageSize = 0
  pairwise : ss.Pairwise R

/-- RAM segments: one may start where the one before it ends. -/
abbrev RamSegments : List Segment → Prop := Ordered fun s t ↦ s.end_ ≤ t.base

/-- Kernel segments: there is a gap between any two. -/
abbrev KernelSegments : List Segment → Prop := Ordered fun s t ↦ s.end_ < t.base

variable {f e s : Segment} {fs es ss out : List Segment} {n p : ℕ}
  {R : Segment → Segment → Prop}

theorem covered_cons : Covered (s :: ss) p ↔ s.Has p ∨ Covered ss p := by
  simp [Covered]

namespace Ordered

theorem sublist {ss' : List Segment} (h : Ordered R ss) (hs : ss'.Sublist ss) : Ordered R ss' :=
  ⟨fun s hm ↦ h.end_eq s (hs.subset hm), fun s hm ↦ h.lt s (hs.subset hm),
    fun s hm ↦ h.aligned s (hs.subset hm), h.pairwise.sublist hs⟩

theorem tail (h : Ordered R (s :: ss)) : Ordered R ss := h.sublist (List.sublist_cons_self s ss)

theorem base_le (h : Ordered R (s :: ss)) : s.base ≤ s.end_ := by
  have := h.end_eq s List.mem_cons_self
  omega

theorem base_lt (h : Ordered R (s :: ss)) : s.base < wordSize :=
  h.base_le.trans_lt (h.lt s List.mem_cons_self)

theorem of_mem_tail (h : Ordered R (s :: ss)) {t : Segment} (ht : t ∈ ss) : R s t :=
  (List.pairwise_cons.1 h.pairwise).1 t ht

theorem le_of_mem (h : Ordered R ss) (hs : s ∈ ss) : s.base ≤ s.end_ := by
  have := h.end_eq s hs
  omega

theorem has_iff (h : Ordered R ss) (hs : s ∈ ss) : s.Has p ↔ s.base ≤ p ∧ p < s.end_ := by
  rw [Segment.Has, h.end_eq s hs]

theorem cons (h : Ordered R ss) (heq : s.base + s.len = s.end_) (hlt : s.end_ < wordSize)
    (ha : s.base % pageSize = 0 ∧ s.end_ % pageSize = 0) (hR : ∀ t ∈ ss, R s t) :
    Ordered R (s :: ss) :=
  ⟨List.forall_mem_cons.2 ⟨heq, h.end_eq⟩, List.forall_mem_cons.2 ⟨hlt, h.lt⟩,
    List.forall_mem_cons.2 ⟨ha, h.aligned⟩, List.pairwise_cons.2 ⟨hR, h.pairwise⟩⟩

end Ordered

namespace Segment

theorem upTo_add_len (hlt : f.base < e.base) (he : e.base < wordSize) :
    (f.upTo e).base + (f.upTo e).len = e.base := by
  show f.base + wsub e.base f.base = e.base
  rw [wsub_of_le hlt.le he]
  omega

theorem restAfter_add_len (hle : e.end_ ≤ f.end_) (hf : f.end_ < wordSize) :
    (f.restAfter e).base + (f.restAfter e).len = f.end_ := by
  show e.end_ + wsub f.end_ e.end_ = f.end_
  rw [wsub_of_le hle hf]
  omega

theorem upTo_has (hlt : f.base < e.base) (he : e.base < wordSize) :
    (f.upTo e).Has p ↔ f.base ≤ p ∧ p < e.base := by
  rw [Has, upTo_add_len hlt he]
  rfl

theorem restAfter_has (hle : e.end_ ≤ f.end_) (hf : f.end_ < wordSize) :
    (f.restAfter e).Has p ↔ e.end_ ≤ p ∧ p < f.end_ := by
  rw [Has, restAfter_add_len hle hf]
  rfl

end Segment

/-- The first RAM segment without a part that is in the kernel. -/
theorem Ordered.from_ (hr : RamSegments (f :: fs)) (hk : KernelSegments (e :: es))
    (hend : e.end_ ≤ f.end_) : RamSegments (f.from_ e :: fs) := by
  have hlt := hr.lt f List.mem_cons_self
  refine hr.tail.cons (Segment.restAfter_add_len hend hlt) hlt ?_ fun g hg ↦ hr.of_mem_tail hg
  exact ⟨(hk.aligned e List.mem_cons_self).2, (hr.aligned f List.mem_cons_self).2⟩

/-! ### Which RAM segments matter -/

namespace Segment

/-- Moving on past these kernel segments, the segment makes a difference. -/
def Matters (f : Segment) (es : List Segment) : Prop :=
  (∃ e ∈ es.tail, f.Meets e) ∨ ∃ e ∈ es, f.Passes e

/-- The two lie in the same way to these kernel segments. -/
structure Alike (es : List Segment) (f f' : Segment) : Prop where
  meets : ∀ e ∈ es, f.Meets e ↔ f'.Meets e
  splits : ∀ e ∈ es, f.Splits e ↔ f'.Splits e
  passes : ∀ e ∈ es, f.Passes e ↔ f'.Passes e

theorem Alike.refl (es : List Segment) (f : Segment) : Alike es f f :=
  ⟨fun _ _ ↦ Iff.rfl, fun _ _ ↦ Iff.rfl, fun _ _ ↦ Iff.rfl⟩

theorem Alike.symm {f f' : Segment} (h : Alike es f f') : Alike es f' f :=
  ⟨fun e he ↦ (h.meets e he).symm, fun e he ↦ (h.splits e he).symm,
    fun e he ↦ (h.passes e he).symm⟩

theorem Matters.cons (h : f.Matters es) : f.Matters (e :: es) := by
  rcases h with ⟨e', he', hm⟩ | ⟨e', he', hp⟩
  · exact Or.inl ⟨e', List.mem_of_mem_tail he', hm⟩
  · exact Or.inr ⟨e', List.mem_cons_of_mem e he', hp⟩

/-- An empty segment makes no difference. -/
theorem not_matters_of_empty (hk : KernelSegments es) (h : f.end_ ≤ f.base) : ¬f.Matters es := by
  rintro (⟨e, -, hm⟩ | ⟨e, he, hp⟩)
  · have := hm.1
    omega
  · have hle := hk.le_of_mem he
    rcases hp with ⟨h₁, h₂⟩ | ⟨⟨h₁, h₂⟩, h₃⟩ <;> omega

end Segment

/-- For each RAM segment that matters there is one among the others that lies in the same way. -/
def Mirrored (es fs fs' : List Segment) : Prop :=
  ∀ f ∈ fs, f.Matters es → ∃ f' ∈ fs', Segment.Alike es f f'

variable {fs' : List Segment}

namespace Mirrored

theorem of_subset (h : ∀ f ∈ fs, f.Matters es → f ∈ fs') : Mirrored es fs fs' :=
  fun f hf hm ↦ ⟨f, h f hf hm, Segment.Alike.refl es f⟩

/-- Behind the first kernel segment, without the segments that it splits. -/
theorem filter (h : Mirrored (e :: es) fs fs') :
    Mirrored es (fs.filter fun f ↦ ¬f.Splits e) (fs'.filter fun f ↦ ¬f.Splits e) := by
  intro f hf hm
  rw [List.mem_filter, decide_eq_true_iff] at hf
  obtain ⟨f', hf', halike⟩ := h f hf.1 hm.cons
  have hsplits := halike.splits e List.mem_cons_self
  refine ⟨f', List.mem_filter.2 ⟨hf', decide_eq_true (hsplits.not.1 hf.2)⟩, ?_⟩
  exact ⟨fun e' he' ↦ halike.meets e' (List.mem_cons_of_mem e he'),
    fun e' he' ↦ halike.splits e' (List.mem_cons_of_mem e he'),
    fun e' he' ↦ halike.passes e' (List.mem_cons_of_mem e he')⟩

theorem exists_passes (h : Mirrored es fs fs') (he : e ∈ es) (hp : ∃ f ∈ fs, f.Passes e) :
    ∃ f ∈ fs', f.Passes e := by
  obtain ⟨f, hf, hp⟩ := hp
  obtain ⟨f', hf', halike⟩ := h f hf (Or.inr ⟨e, he, hp⟩)
  exact ⟨f', hf', (halike.passes e he).1 hp⟩

theorem exists_splits (h : Mirrored es fs fs') (he : e ∈ es) (hs : ∃ f ∈ fs, f.Splits e) :
    ∃ f ∈ fs', f.Splits e := by
  obtain ⟨f, hf, hs⟩ := hs
  obtain ⟨f', hf', halike⟩ := h f hf (Or.inr ⟨e, he, Or.inl hs⟩)
  exact ⟨f', hf', (halike.splits e he).1 hs⟩

theorem separable : ∀ {es fs fs' : List Segment}, Mirrored es fs fs' → Mirrored es fs' fs →
    Separable fs es → Separable fs' es
  | [], _, _, _, _, _ => trivial
  | e :: es, fs, fs', h, h', ⟨hpassed, hsingle, hrest⟩ => by
    refine ⟨?_, fun f' hf' hsplits e' he' hm ↦ ?_, h.filter.separable h'.filter hrest⟩
    · rintro ⟨f', hf', e', he', hm⟩
      obtain ⟨f, hf, halike⟩ := h' f' hf' (Or.inl ⟨e', he', hm⟩)
      have hm' := (halike.meets e' (List.mem_cons_of_mem e he')).1 hm
      exact h.exists_passes List.mem_cons_self (hpassed ⟨f, hf, e', he', hm'⟩)
    · obtain ⟨f, hf, halike⟩ := h' f' hf' (Or.inl ⟨e', he', hm⟩)
      exact hsingle f hf ((halike.splits e List.mem_cons_self).1 hsplits) e' he'
        ((halike.meets e' (List.mem_cons_of_mem e he')).1 hm)

theorem separable_iff (h : Mirrored es fs fs') (h' : Mirrored es fs' fs) :
    Separable fs es ↔ Separable fs' es :=
  ⟨h.separable h', h'.separable h⟩

theorem splitCount_eq : ∀ {es fs fs' : List Segment}, Mirrored es fs fs' → Mirrored es fs' fs →
    splitCount fs es = splitCount fs' es
  | [], _, _, _, _ => rfl
  | e :: es, fs, fs', h, h' => by
    have hpasses : (∃ f ∈ fs, f.Passes e) ↔ ∃ f ∈ fs', f.Passes e :=
      ⟨h.exists_passes List.mem_cons_self, h'.exists_passes List.mem_cons_self⟩
    have hsplits : (∃ f ∈ fs, f.Splits e) ↔ ∃ f ∈ fs', f.Splits e :=
      ⟨h.exists_splits List.mem_cons_self, h'.exists_splits List.mem_cons_self⟩
    simp only [splitCount, hpasses, hsplits, h.filter.splitCount_eq h'.filter]

end Mirrored

/-- A RAM segment that does not matter may be left out. -/
theorem mirrored_cons (h : ¬f.Matters es) :
    Mirrored es (f :: fs) fs ∧ Mirrored es fs (f :: fs) := by
  refine ⟨Mirrored.of_subset fun g hg hm ↦ ?_,
    Mirrored.of_subset fun g hg _ ↦ List.mem_cons_of_mem f hg⟩
  rcases List.mem_cons.1 hg with rfl | hg
  · exact absurd hm h
  · exact hg

/-- Behind a kernel segment in which the first RAM segment starts, only its rest counts. -/
theorem mirrored_from_ (hk : KernelSegments (e :: es)) (hs : f.StartsIn e) :
    Mirrored es (f :: fs) (f.from_ e :: fs) ∧ Mirrored es (f.from_ e :: fs) (f :: fs) := by
  have halike : Segment.Alike es f (f.from_ e) := by
    refine ⟨fun e' he' ↦ ?_, fun e' he' ↦ ?_, fun e' he' ↦ ?_⟩
    all_goals
      have h₁ := hk.of_mem_tail he'
      have h₂ := hk.tail.le_of_mem he'
      have h₃ := hs.2
    · simp only [Segment.Meets, Segment.from_]
      omega
    · simp only [Segment.Splits, Segment.from_]
      omega
    · simp only [Segment.Passes, Segment.Splits, Segment.StartsIn, Segment.from_]
      omega
  constructor
  · intro g hg _
    rcases List.mem_cons.1 hg with rfl | hg
    · exact ⟨_, List.mem_cons_self, halike⟩
    · exact ⟨g, List.mem_cons_of_mem _ hg, Segment.Alike.refl es g⟩
  · intro g hg _
    rcases List.mem_cons.1 hg with rfl | hg
    · exact ⟨_, List.mem_cons_self, halike.symm⟩
    · exact ⟨g, List.mem_cons_of_mem _ hg, Segment.Alike.refl es g⟩

theorem separable_cons (h : ¬f.Matters es) : Separable (f :: fs) es ↔ Separable fs es :=
  (mirrored_cons h).1.separable_iff (mirrored_cons h).2

theorem splitCount_cons (h : ¬f.Matters es) : splitCount (f :: fs) es = splitCount fs es :=
  (mirrored_cons h).1.splitCount_eq (mirrored_cons h).2

theorem separable_from_ (hk : KernelSegments (e :: es)) (hs : f.StartsIn e) :
    Separable (f :: fs) es ↔ Separable (f.from_ e :: fs) es :=
  (mirrored_from_ hk hs).1.separable_iff (mirrored_from_ hk hs).2

theorem splitCount_from_ (hk : KernelSegments (e :: es)) (hs : f.StartsIn e) :
    splitCount (f :: fs) es = splitCount (f.from_ e :: fs) es :=
  (mirrored_from_ hk hs).1.splitCount_eq (mirrored_from_ hk hs).2

/-! ### One rule and what matters behind it -/

/-- A RAM segment that ends in the first kernel segment. -/
theorem not_matters_of_trim (hk : KernelSegments (e :: es)) (ha : f.Around e)
    (hend : f.end_ ≤ e.end_) : ¬f.Matters (e :: es) := by
  have hes : ∀ e' ∈ es, e.end_ < e'.base ∧ e'.base ≤ e'.end_ := fun e' he' ↦
    ⟨hk.of_mem_tail he', hk.tail.le_of_mem he'⟩
  rintro (⟨e', he', hm⟩ | ⟨e', he', hp⟩)
  · have h₁ := hes e' he'
    have h₂ := hm.2.2.2
    omega
  · rcases List.mem_cons.1 he' with rfl | he'
    · have h₁ := ha.1
      rcases hp with ⟨h₂, h₃⟩ | ⟨⟨h₂, h₃⟩, h₄⟩ <;> omega
    · have h₁ := hes e' he'
      have h₂ := ha.1
      have h₃ := ha.2
      rcases hp with ⟨h₄, h₅⟩ | ⟨⟨h₄, h₅⟩, h₆⟩ <;> omega

/-- A RAM segment that lies before the first kernel segment. -/
theorem not_matters_of_before (hk : KernelSegments (e :: es)) (hlt : f.base < e.base)
    (hend : f.end_ ≤ e.base) : ¬f.Matters (e :: es) := by
  have hes : ∀ e' ∈ e :: es, e.base ≤ e'.base ∧ e'.base ≤ e'.end_ := by
    refine List.forall_mem_cons.2 ⟨⟨le_rfl, hk.base_le⟩, fun e' he' ↦ ?_⟩
    exact ⟨hk.base_le.trans (hk.of_mem_tail he').le, hk.tail.le_of_mem he'⟩
  rintro (⟨e', he', hm⟩ | ⟨e', he', hp⟩)
  · have h₁ := hes e' (List.mem_cons_of_mem e he')
    have h₂ := hm.2.2.2
    omega
  · have h₁ := hes e' he'
    rcases hp with ⟨h₂, h₃⟩ | ⟨⟨h₂, h₃⟩, h₄⟩ <;> omega

/-- Only the first RAM segment is split. -/
theorem filter_splits (hr : RamSegments (f :: fs)) (hk : KernelSegments (e :: es))
    (hs : f.Splits e) : ((f :: fs).filter fun g ↦ ¬g.Splits e) = fs := by
  rw [List.filter_cons_of_neg (by simpa using hs), List.filter_eq_self]
  intro g hg
  refine decide_eq_true fun hsplits ↦ ?_
  have h₁ := hr.of_mem_tail hg
  have h₂ := hk.base_le
  have h₃ := hs.2
  have h₄ := hsplits.1
  omega

/-- No RAM segment is split when the first one starts in the kernel segment. -/
theorem not_splits_of_startsIn (hr : RamSegments (f :: fs)) (hk : KernelSegments (e :: es))
    (hs : f.StartsIn e) (hend : e.end_ ≤ f.end_) : ∀ g ∈ f :: fs, ¬g.Splits e := by
  have hle := hk.base_le
  refine List.forall_mem_cons.2 ⟨fun hsplits ↦ ?_, fun g hg hsplits ↦ ?_⟩
  · exact absurd hs.1 (Nat.not_le.2 hsplits.1)
  · have h₁ := hr.of_mem_tail hg
    have h₂ := hsplits.1
    omega

/-- A kernel segment before all RAM segments is never left behind. -/
theorem not_passes_of_after (hk : KernelSegments (e :: es)) (h : ∀ f ∈ fs, e.end_ ≤ f.base) :
    ¬∃ f ∈ fs, f.Passes e := by
  rintro ⟨f, hf, hp⟩
  have h₁ := h f hf
  have h₂ := hk.base_le
  rcases hp with ⟨h₃, h₄⟩ | ⟨⟨h₃, h₄⟩, h₅⟩ <;> omega

theorem separable_of_not_meets : ∀ {es fs : List Segment}, (∀ f ∈ fs, ∀ e ∈ es, ¬f.Meets e) →
    Separable fs es
  | [], _, _ => trivial
  | e :: es, fs, h => by
    refine ⟨?_, fun f hf _ e' he' ↦ h f hf e' (List.mem_cons_of_mem e he'),
      separable_of_not_meets fun f hf e' he' ↦ ?_⟩
    · rintro ⟨f, hf, e', he', hm⟩
      exact absurd hm (h f hf e' (List.mem_cons_of_mem e he'))
    · exact h f (List.mem_of_mem_filter hf) e' (List.mem_cons_of_mem e he')

/-- A kernel segment that is never left behind: no RAM may be in the later ones. -/
theorem separable_iff_of_after (hk : KernelSegments (e :: es)) (h : ∀ f ∈ fs, e.end_ ≤ f.base) :
    Separable fs (e :: es) ↔ ∀ f ∈ fs, ∀ e' ∈ es, ¬f.Meets e' := by
  constructor
  · rintro ⟨hpassed, -, -⟩ f hf e' he' hm
    exact not_passes_of_after hk h (hpassed ⟨f, hf, e', he', hm⟩)
  · intro hm
    refine ⟨?_, fun f hf _ ↦ hm f hf, separable_of_not_meets fun f hf ↦ ?_⟩
    · rintro ⟨f, hf, e', he', hmeets⟩
      exact absurd hmeets (hm f hf e' he')
    · exact hm f (List.mem_of_mem_filter hf)

/-- A kernel segment that is left behind. -/
theorem separable_iff_of_passes (h : ∃ f ∈ fs, f.Passes e) :
    Separable fs (e :: es) ↔ (∀ f ∈ fs, f.Splits e → ∀ e' ∈ es, ¬f.Meets e') ∧
      Separable (fs.filter fun f ↦ ¬f.Splits e) es :=
  ⟨fun hs ↦ hs.2, fun hs ↦ ⟨fun _ ↦ h, hs⟩⟩

theorem separable_iff_of_splits (hr : RamSegments (f :: fs)) (hk : KernelSegments (e :: es))
    (hs : f.Splits e) :
    Separable (f :: fs) (e :: es) ↔ (∀ e' ∈ es, ¬f.Meets e') ∧ Separable fs es := by
  rw [separable_iff_of_passes ⟨f, List.mem_cons_self, Or.inl hs⟩, filter_splits hr hk hs]
  refine and_congr_left' ⟨fun h ↦ h f List.mem_cons_self hs, fun h ↦ ?_⟩
  refine List.forall_mem_cons.2 ⟨fun _ ↦ h, fun g hg hsplits ↦ ?_⟩
  have h₁ := hr.of_mem_tail hg
  have h₂ := hk.base_le
  have h₃ := hs.2
  have h₄ := hsplits.1
  omega

theorem separable_iff_of_startsIn (hr : RamSegments (f :: fs)) (hk : KernelSegments (e :: es))
    (hs : f.StartsIn e) (hend : e.end_ ≤ f.end_) :
    Separable (f :: fs) (e :: es) ↔ Separable (f.from_ e :: fs) es := by
  have hnone := not_splits_of_startsIn hr hk hs hend
  rw [separable_iff_of_passes ⟨f, List.mem_cons_self, Or.inr ⟨hs, hend⟩⟩,
    List.filter_eq_self.2 (by simpa using hnone), separable_from_ hk hs, and_iff_right]
  exact fun g hg hsplits ↦ absurd hsplits (hnone g hg)

end Marimba
