import Marimba.Memory.Separable

/-!
# Taking the kernel out of the RAM

The exclusion loop of `mmu_compute_free_segments` as a walk over two sequences of segments: the RAM
and the kernel, both in the order of their addresses. `Carved` has one rule for each branch that
goes on; the branch that deletes a RAM segment stays where it is, so it has none, and a loop that
ends has not taken it.

On segments in order, `Carving` is the same walk without the detours: what has no `end` is passed
over, and so is all RAM behind a kernel segment that is not left behind. Nothing is added and no
usable address is lost (`Carving.covered`, `Carving.covered_of`), and the kernel is taken out
exactly when the segments are `Separable` (`Carving.clean_iff`).
-/

namespace Marimba

variable {f e s : Segment} {fs es ss out : List Segment} {n p : ℕ}

/-- **The exclusion loop, when it ends**: from these RAM segments and these kernel segments it makes
these free segments, with that many new nodes. -/
inductive Carved : List Segment → List Segment → List Segment → ℕ → Prop
  | nil (es : List Segment) : Carved [] es [] 0
  | done (fs : List Segment) : Carved fs [] fs 0
  | split {f e : Segment} {fs es out : List Segment} {n : ℕ} (ha : f.Around e)
      (hend : e.end_ < f.end_) (h : Carved (f.restAfter e :: fs) es out n) :
      Carved (f :: fs) (e :: es) (f.upTo e :: out) (n + 1)
  | trim {f e : Segment} {fs es out : List Segment} {n : ℕ} (ha : f.Around e)
      (hend : f.end_ ≤ e.end_) (h : Carved fs (e :: es) out n) :
      Carved (f :: fs) (e :: es) (f.upTo e :: out) n
  | cut {f e : Segment} {fs es out : List Segment} {n : ℕ} (hs : f.StartsIn e)
      (hend : e.end_ ≤ f.end_) (h : Carved (f.from_ e :: fs) es out n) :
      Carved (f :: fs) (e :: es) out n
  | skip {f e : Segment} {fs es out : List Segment} {n : ℕ} (ha : ¬f.Around e)
      (hs : ¬f.StartsIn e) (h : Carved fs (e :: es) out n) :
      Carved (f :: fs) (e :: es) (f :: out) n

/-! ### The walk -/

/-- **The exclusion loop on segments in order.** A rest that has no `end` is passed over at once,
and so are all RAM segments behind a kernel segment that is not left behind. -/
inductive Carving : List Segment → List Segment → List Segment → ℕ → Prop
  | done (fs : List Segment) : Carving fs [] fs 0
  | split {f e : Segment} {fs es out : List Segment} {n : ℕ} (hs : f.Splits e)
      (h : Carving fs es out n) :
      Carving (f :: fs) (e :: es) (f.upTo e :: f.restAfter e :: out) (n + 1)
  | trim {f e : Segment} {fs es out : List Segment} {n : ℕ} (ha : f.Around e)
      (hend : f.end_ ≤ e.end_) (h : Carving fs (e :: es) out n) :
      Carving (f :: fs) (e :: es) (f.upTo e :: out) n
  | cut {f e : Segment} {fs es out : List Segment} {n : ℕ} (hs : f.StartsIn e)
      (hend : e.end_ ≤ f.end_) (h : Carving (f.from_ e :: fs) es out n) :
      Carving (f :: fs) (e :: es) out n
  | before {f e : Segment} {fs es out : List Segment} {n : ℕ} (hlt : f.base < e.base)
      (hend : f.end_ ≤ e.base) (h : Carving fs (e :: es) out n) :
      Carving (f :: fs) (e :: es) (f :: out) n
  | after {e : Segment} {fs : List Segment} (es : List Segment) (h : ∀ f ∈ fs, e.end_ ≤ f.base) :
      Carving fs (e :: es) fs 0

namespace Carved

/-- A rest without an `end` is passed over. -/
theorem of_restAfter (h : Carved (s :: fs) es out n) (hend : s.end_ = 0)
    (hlt : ∀ e ∈ es, s.base < e.base) : ∃ out', out = s :: out' ∧ Carved fs es out' n := by
  cases h with
  | done => exact ⟨fs, rfl, .done fs⟩
  | split ha => exact absurd ha.2 (by omega)
  | trim ha => exact absurd ha.2 (by omega)
  | cut hs => exact absurd hs.1 (Nat.not_le.2 (hlt _ List.mem_cons_self))
  | skip ha hs h => exact ⟨_, rfl, h⟩

/-- RAM segments behind the kernel segment are passed over. -/
theorem eq_of_after (h : Carved fs (e :: es) out n) (he : e.base ≤ e.end_)
    (hall : ∀ f ∈ fs, e.end_ ≤ f.base) : out = fs ∧ n = 0 := by
  induction fs generalizing out n with
  | nil =>
    cases h with
    | nil => exact ⟨rfl, rfl⟩
  | cons f fs ih =>
    have hf := hall f List.mem_cons_self
    cases h with
    | split ha => exact absurd ha.1 (by omega)
    | trim ha => exact absurd ha.1 (by omega)
    | cut hs => exact absurd hs.2 (by omega)
    | skip ha hs h =>
      obtain ⟨rfl, hn⟩ := ih h fun g hg ↦ hall g (List.mem_cons_of_mem f hg)
      exact ⟨rfl, hn⟩

/-- A segment that ends before it starts is never changed. -/
theorem mem_of_end_le (h : Carved fs es out n) (hs : s ∈ fs) (hend : s.end_ ≤ s.base) :
    s ∈ out := by
  induction h with
  | nil => exact hs
  | done => exact hs
  | @split f e fs es out n ha hlt h ih =>
    rcases List.mem_cons.1 hs with rfl | hs
    · exact absurd (ha.1.trans ha.2) (Nat.not_lt.2 hend)
    · exact List.mem_cons_of_mem _ (ih (List.mem_cons_of_mem _ hs))
  | @trim f e fs es out n ha hle h ih =>
    rcases List.mem_cons.1 hs with rfl | hs
    · exact absurd (ha.1.trans ha.2) (Nat.not_lt.2 hend)
    · exact List.mem_cons_of_mem _ (ih hs)
  | @cut f e fs es out n hin hle h ih =>
    rcases List.mem_cons.1 hs with rfl | hs
    · exact absurd (hin.2.trans_le hle) (Nat.not_lt.2 hend)
    · exact ih (List.mem_cons_of_mem _ hs)
  | @skip f e fs es out n ha hin h ih =>
    rcases List.mem_cons.1 hs with rfl | hs
    · exact List.mem_cons_self
    · exact List.mem_cons_of_mem _ (ih hs)

/-- And it stays the first one. -/
theorem head_of_end_le (h : Carved (s :: fs) es out n) (hend : s.end_ ≤ s.base) :
    ∃ out', out = s :: out' := by
  cases h with
  | done => exact ⟨fs, rfl⟩
  | split ha => exact absurd (ha.1.trans ha.2) (Nat.not_lt.2 hend)
  | trim ha => exact absurd (ha.1.trans ha.2) (Nat.not_lt.2 hend)
  | cut hin hle => exact absurd (hin.2.trans_le hle) (Nat.not_lt.2 hend)
  | skip => exact ⟨_, rfl⟩

/-- On segments in order the loop is the walk. -/
theorem carving (h : Carved fs es out n) (hr : RamSegments fs) (hk : KernelSegments es) :
    Carving fs es out n := by
  -- a split takes a segment of either list, so the induction is on their lengths together
  induction hl : fs.length + es.length using Nat.strong_induction_on generalizing fs es out n with
  | _ l ih =>
    subst hl
    cases h with
    | nil =>
      cases es with
      | nil => exact .done []
      | cons e es => exact .after es fun f hf ↦ absurd hf List.not_mem_nil
    | done => exact .done fs
    | @split f e fs es out n ha hend h =>
      obtain ⟨out', rfl, h'⟩ := of_restAfter h rfl fun e' he' ↦ hk.of_mem_tail he'
      exact .split ⟨ha.1, hend⟩
        (ih _ (by simp only [List.length_cons]; omega) h' hr.tail hk.tail rfl)
    | @trim f e fs es out n ha hend h =>
      exact .trim ha hend (ih _ (by simp only [List.length_cons]; omega) h hr.tail hk rfl)
    | @cut f e fs es _ _ hs hend h =>
      exact .cut hs hend
        (ih _ (by simp only [List.length_cons]; omega) h (hr.from_ hk hend) hk.tail rfl)
    | @skip f e fs es out n ha hs h =>
      by_cases hlt : f.base < e.base
      · have hend : f.end_ ≤ e.base := Nat.not_lt.1 fun hend ↦ ha ⟨hlt, hend⟩
        exact .before hlt hend (ih _ (by simp only [List.length_cons]; omega) h hr.tail hk rfl)
      · have hbase : e.end_ ≤ f.base :=
          Nat.not_lt.1 fun hend ↦ hs ⟨Nat.not_lt.1 hlt, hend⟩
        have hfs : ∀ g ∈ fs, e.end_ ≤ g.base := fun g hg ↦
          (hbase.trans hr.base_le).trans (hr.of_mem_tail hg)
        obtain ⟨rfl, rfl⟩ := h.eq_of_after hk.base_le hfs
        exact .after es fun g hg ↦ by
          rcases List.mem_cons.1 hg with rfl | hg
          · exact hbase
          · exact hfs g hg

end Carved

/-! ### What the walk leaves -/

/-- The kernel lies at or behind the start of its first segment. -/
theorem Ordered.le_of_covered (hk : KernelSegments (e :: es)) (hp : Covered (e :: es) p) :
    e.base ≤ p := by
  rcases covered_cons.1 hp with hp | ⟨e', he', hp⟩
  · exact hp.1
  · have h₁ := hk.of_mem_tail he'
    have h₂ := hk.base_le
    have h₃ := hp.1
    omega

/-- What is left before the first kernel segment is free of the kernel. -/
theorem Ordered.not_covered_of_upTo (hk : KernelSegments (e :: es)) (hlt : f.base < e.base)
    (hp : (f.upTo e).Has p) : ¬Covered (e :: es) p := fun hc ↦
  absurd ((Segment.upTo_has hlt hk.base_lt).1 hp).2 (Nat.not_lt.2 (hk.le_of_covered hc))

namespace Carving

theorem le_base {b : ℕ} (h : Carving fs es out n) (hk : KernelSegments es)
    (hb : ∀ f ∈ fs, b ≤ f.base) : ∀ s ∈ out, b ≤ s.base := by
  induction h with
  | done => exact hb
  | @split f e fs es out n hs h ih =>
    have hf := hb f List.mem_cons_self
    have hout := ih hk.tail fun g hg ↦ hb g (List.mem_cons_of_mem f hg)
    have hrest : b ≤ (f.restAfter e).base := (hf.trans hs.1.le).trans hk.base_le
    simp only [List.forall_mem_cons]
    exact ⟨hf, hrest, hout⟩
  | @trim f e fs es out n ha hend h ih =>
    exact List.forall_mem_cons.2 ⟨hb f List.mem_cons_self,
      ih hk fun g hg ↦ hb g (List.mem_cons_of_mem f hg)⟩
  | @cut f e fs es out n hs hend h ih =>
    refine ih hk.tail (List.forall_mem_cons.2
      ⟨?_, fun g hg ↦ hb g (List.mem_cons_of_mem f hg)⟩)
    exact (hb f List.mem_cons_self).trans hs.2.le
  | @before f e fs es out n hlt hend h ih =>
    exact List.forall_mem_cons.2 ⟨hb f List.mem_cons_self,
      ih hk fun g hg ↦ hb g (List.mem_cons_of_mem f hg)⟩
  | after => exact hb

/-- Nothing is added. -/
theorem covered (h : Carving fs es out n) (hr : RamSegments fs) (hk : KernelSegments es)
    (hp : Covered out p) : Covered fs p := by
  induction h with
  | done => exact hp
  | @split f e fs es out n hs h ih =>
    have hle := hk.base_le
    have hf := hr.lt f List.mem_cons_self
    rw [covered_cons, covered_cons, Segment.upTo_has hs.1 hk.base_lt,
      Segment.restAfter_has hs.2.le hf] at hp
    rw [covered_cons, hr.has_iff List.mem_cons_self]
    rcases hp with hp | hp | hp
    · have := hs.2
      exact Or.inl (by omega)
    · have := hs.1
      exact Or.inl (by omega)
    · exact Or.inr (ih hr.tail hk.tail hp)
  | @trim f e fs es out n ha hend h ih =>
    rw [covered_cons, Segment.upTo_has ha.1 hk.base_lt] at hp
    rw [covered_cons, hr.has_iff List.mem_cons_self]
    rcases hp with hp | hp
    · exact Or.inl ⟨hp.1, hp.2.trans ha.2⟩
    · exact Or.inr (ih hr.tail hk hp)
  | @cut f e fs es out n hs hend h ih =>
    have hr' := hr.from_ hk hend
    rw [covered_cons, hr.has_iff List.mem_cons_self]
    rcases covered_cons.1 (ih hr' hk.tail hp) with hp | hp
    · rw [hr'.has_iff List.mem_cons_self] at hp
      exact Or.inl ⟨hs.2.le.trans hp.1, hp.2⟩
    · exact Or.inr hp
  | @before f e fs es out n hlt hend h ih =>
    rw [covered_cons] at hp ⊢
    exact hp.imp_right (ih hr.tail hk)
  | after => exact hp

/-- **No usable address is lost.** -/
theorem covered_of (h : Carving fs es out n) (hr : RamSegments fs) (hk : KernelSegments es)
    (hp : Covered fs p) (hn : ¬Covered es p) : Covered out p := by
  induction h with
  | done => exact hp
  | @split f e fs es out n hs h ih =>
    have hf := hr.lt f List.mem_cons_self
    rw [covered_cons, hk.has_iff List.mem_cons_self] at hn
    rw [covered_cons, hr.has_iff List.mem_cons_self] at hp
    rw [covered_cons, covered_cons, Segment.upTo_has hs.1 hk.base_lt,
      Segment.restAfter_has hs.2.le hf]
    rcases hp with hp | hp
    · by_cases hlt : p < e.base
      · exact Or.inl ⟨hp.1, hlt⟩
      · exact Or.inr (Or.inl ⟨by omega, hp.2⟩)
    · exact Or.inr (Or.inr (ih hr.tail hk.tail hp fun hes ↦ hn (Or.inr hes)))
  | @trim f e fs es out n ha hend h ih =>
    rw [covered_cons, Segment.upTo_has ha.1 hk.base_lt]
    rw [covered_cons, hr.has_iff List.mem_cons_self] at hp
    rcases hp with hp | hp
    · rw [covered_cons, hk.has_iff List.mem_cons_self] at hn
      exact Or.inl ⟨hp.1, by omega⟩
    · exact Or.inr (ih hr.tail hk hp hn)
  | @cut f e fs es out n hs hend h ih =>
    have hr' := hr.from_ hk hend
    rw [covered_cons, hk.has_iff List.mem_cons_self] at hn
    rw [covered_cons, hr.has_iff List.mem_cons_self] at hp
    refine ih hr' hk.tail ?_ fun hes ↦ hn (Or.inr hes)
    rw [covered_cons, hr'.has_iff List.mem_cons_self]
    have h₁ := hs.1
    refine hp.imp_left fun hp ↦ ⟨?_, hp.2⟩
    show e.end_ ≤ p
    omega
  | @before f e fs es out n hlt hend h ih =>
    rw [covered_cons] at hp ⊢
    exact hp.imp_right fun hp ↦ ih hr.tail hk hp hn
  | after => exact hp

/-- The new segments are in order. -/
theorem pairwise (h : Carving fs es out n) (hr : RamSegments fs) (hk : KernelSegments es) :
    out.Pairwise fun s t ↦ s.base + s.len ≤ t.base := by
  have hram : ∀ {fs}, RamSegments fs → fs.Pairwise fun s t ↦ s.base + s.len ≤ t.base :=
    fun hr ↦ hr.pairwise.imp_of_mem fun {s t} hs _ hst ↦ by rwa [hr.end_eq s hs]
  induction h with
  | done => exact hram hr
  | @split f e fs es out n hs h ih =>
    have he := hk.base_le
    have hout := h.le_base hk.tail fun g hg ↦ hr.of_mem_tail hg
    rw [List.pairwise_cons, List.pairwise_cons, List.forall_mem_cons,
      Segment.upTo_add_len hs.1 hk.base_lt,
      Segment.restAfter_add_len hs.2.le (hr.lt f List.mem_cons_self)]
    refine ⟨⟨he, fun t ht ↦ ?_⟩, hout, ih hr.tail hk.tail⟩
    have h₁ := hout t ht
    have h₂ := hs.2
    omega
  | @trim f e fs es out n ha hend h ih =>
    have hout := h.le_base hk fun g hg ↦ hr.of_mem_tail hg
    refine List.pairwise_cons.2 ⟨fun t ht ↦ ?_, ih hr.tail hk⟩
    rw [Segment.upTo_add_len ha.1 hk.base_lt]
    exact ha.2.le.trans (hout t ht)
  | @cut f e fs es out n hs hend h ih => exact ih (hr.from_ hk hend) hk.tail
  | @before f e fs es out n hlt hend h ih =>
    have hout := h.le_base hk fun g hg ↦ hr.of_mem_tail hg
    refine List.pairwise_cons.2 ⟨fun t ht ↦ ?_, ih hr.tail hk⟩
    rw [hr.end_eq f List.mem_cons_self]
    exact hout t ht
  | after => exact hram hr

/-- The new segments start and end where old ones do. -/
theorem bounds {P : ℕ → Prop} (h : Carving fs es out n) (hr : RamSegments fs)
    (hk : KernelSegments es) (hfs : ∀ f ∈ fs, P f.base ∧ P f.end_)
    (hes : ∀ e ∈ es, P e.base ∧ P e.end_) : ∀ s ∈ out, P s.base ∧ P (s.base + s.len) := by
  have hram : ∀ {fs}, RamSegments fs → (∀ f ∈ fs, P f.base ∧ P f.end_) →
      ∀ s ∈ fs, P s.base ∧ P (s.base + s.len) := fun hr hfs s hs ↦ by
    rw [hr.end_eq s hs]
    exact hfs s hs
  induction h with
  | done => exact hram hr hfs
  | @split f e fs es out n hs h ih =>
    obtain ⟨hf, hfs⟩ := List.forall_mem_cons.1 hfs
    obtain ⟨he, hes⟩ := List.forall_mem_cons.1 hes
    rw [List.forall_mem_cons, List.forall_mem_cons, Segment.upTo_add_len hs.1 hk.base_lt,
      Segment.restAfter_add_len hs.2.le (hr.lt f List.mem_cons_self)]
    exact ⟨⟨hf.1, he.1⟩, ⟨he.2, hf.2⟩, ih hr.tail hk.tail hfs hes⟩
  | @trim f e fs es out n ha hend h ih =>
    obtain ⟨hf, hfs⟩ := List.forall_mem_cons.1 hfs
    rw [List.forall_mem_cons, Segment.upTo_add_len ha.1 hk.base_lt]
    exact ⟨⟨hf.1, (hes e List.mem_cons_self).1⟩, ih hr.tail hk hfs hes⟩
  | @cut f e fs es out n hs hend h ih =>
    obtain ⟨hf, hfs⟩ := List.forall_mem_cons.1 hfs
    obtain ⟨he, hes⟩ := List.forall_mem_cons.1 hes
    exact ih (hr.from_ hk hend) hk.tail (List.forall_mem_cons.2 ⟨⟨he.2, hf.2⟩, hfs⟩) hes
  | @before f e fs es out n hlt hend h ih =>
    obtain ⟨hf, hfs'⟩ := List.forall_mem_cons.1 hfs
    exact List.forall_mem_cons.2
      ⟨hram hr hfs f List.mem_cons_self, ih hr.tail hk hfs' hes⟩
  | after => exact hram hr hfs

/-- An empty segment at address `0` has not been made by the walk. -/
theorem mem_of_empty_zero (h : Carving fs es out n) (hr : RamSegments fs)
    (hk : KernelSegments es) (hs : s ∈ out) (hbase : s.base = 0) (hlen : s.len = 0) : s ∈ fs := by
  induction h with
  | done => exact hs
  | @split f e fs es out n hsp h ih =>
    rcases List.mem_cons.1 hs with rfl | hs
    · have h₁ := Segment.upTo_add_len hsp.1 hk.base_lt
      have h₂ := hsp.1
      omega
    · rcases List.mem_cons.1 hs with rfl | hs
      · have h₁ : e.end_ = 0 := hbase
        have h₂ := hsp.1
        have h₃ := hk.base_le
        omega
      · exact List.mem_cons_of_mem f (ih hr.tail hk.tail hs)
  | @trim f e fs es out n ha hend h ih =>
    rcases List.mem_cons.1 hs with rfl | hs
    · have h₁ := Segment.upTo_add_len ha.1 hk.base_lt
      have h₂ := ha.1
      omega
    · exact List.mem_cons_of_mem f (ih hr.tail hk hs)
  | @cut f e fs es out n hin hend h ih =>
    rcases List.mem_cons.1 (ih (hr.from_ hk hend) hk.tail hs) with rfl | hs
    · have h₁ : e.end_ = 0 := hbase
      have h₂ := hin.2
      omega
    · exact List.mem_cons_of_mem f hs
  | @before f e fs es out n hlt hend h ih =>
    rcases List.mem_cons.1 hs with rfl | hs
    · exact List.mem_cons_self
    · exact List.mem_cons_of_mem f (ih hr.tail hk hs)
  | after => exact hs

/-- **How many nodes are used up.** -/
theorem splitCount_eq (h : Carving fs es out n) (hr : RamSegments fs) (hk : KernelSegments es) :
    n = splitCount fs es := by
  induction h with
  | done => rfl
  | @split f e fs es out n hs h ih =>
    rw [splitCount, if_pos ⟨f, List.mem_cons_self, Or.inl hs⟩,
      if_pos ⟨f, List.mem_cons_self, hs⟩, filter_splits hr hk hs, ih hr.tail hk.tail]
  | @trim f e fs es out n ha hend h ih =>
    rw [ih hr.tail hk, splitCount_cons (not_matters_of_trim hk ha hend)]
  | @cut f e fs es out n hs hend h ih =>
    have hnone := not_splits_of_startsIn hr hk hs hend
    rw [splitCount, if_pos ⟨f, List.mem_cons_self, Or.inr ⟨hs, hend⟩⟩,
      if_neg (by simpa using hnone), List.filter_eq_self.2 (by simpa using hnone),
      splitCount_from_ hk hs]
    exact ih (hr.from_ hk hend) hk.tail
  | @before f e fs es out n hlt hend h ih =>
    rw [ih hr.tail hk, splitCount_cons (not_matters_of_before hk hlt hend)]
  | @after e fs es hall =>
    rw [splitCount, if_neg (not_passes_of_after hk hall)]

end Carving

/-! ### Whether the kernel is taken out -/

/-- **The free segments hold no frame of the kernel.** -/
def Clean (ss es : List Segment) : Prop := ∀ p, IsFrame p → Covered ss p → ¬Covered es p

theorem clean_cons :
    Clean (s :: ss) es ↔ (∀ p, IsFrame p → s.Has p → ¬Covered es p) ∧ Clean ss es := by
  simp only [Clean, covered_cons]
  refine ⟨fun h ↦ ⟨fun p hp hs ↦ h p hp (Or.inl hs), fun p hp hss ↦ h p hp (Or.inr hss)⟩,
    fun h p hp hs ↦ ?_⟩
  exact hs.elim (h.1 p hp) (h.2 p hp)

/-- Segments behind the first kernel segment. -/
theorem clean_kernel_cons (h : ∀ p, Covered ss p → e.base + e.len ≤ p) :
    Clean ss (e :: es) ↔ Clean ss es := by
  refine ⟨fun hc p hp hs hes ↦ hc p hp hs (covered_cons.2 (Or.inr hes)), fun hc p hp hs hes ↦ ?_⟩
  rcases covered_cons.1 hes with he | hes
  · exact absurd he.2 (Nat.not_lt.2 (h p hs))
  · exact hc p hp hs hes

/-- Two ranges of pages have no frame in common when they have no address in common. -/
theorem no_frame_iff {a b : ℕ} (he : e.base + e.len = e.end_) (hpos : 0 < e.base)
    (ha : a % pageSize = 0) (hal : e.base % pageSize = 0) :
    (∀ p, IsFrame p → a ≤ p → p < b → ¬e.Has p) ↔
      ¬(a < b ∧ e.base < e.end_ ∧ a < e.end_ ∧ e.base < b) := by
  constructor
  · rintro h ⟨h₁, h₂, h₃, h₄⟩
    -- the first page that is in both
    rcases le_total a e.base with hle | hle
    · exact h e.base ⟨hal, hpos⟩ hle h₄ ⟨le_rfl, by omega⟩
    · exact h a ⟨ha, hpos.trans_le hle⟩ le_rfl h₁ ⟨hle, by omega⟩
  · rintro h p - h₁ h₂ ⟨h₃, h₄⟩
    exact h ⟨by omega, by omega, by omega, by omega⟩

/-- A RAM segment behind the first kernel segment holds no frame of the later ones when it meets
none. -/
theorem no_frame_after (hk : KernelSegments (e :: es)) {a b : ℕ} (ha : a % pageSize = 0)
    (hle : e.end_ ≤ a) :
    (∀ p, IsFrame p → a ≤ p → p < b → ¬Covered (e :: es) p) ↔
      ∀ e' ∈ es, ¬(a < b ∧ e'.base < e'.end_ ∧ a < e'.end_ ∧ e'.base < b) := by
  have hiff : ∀ e' ∈ es, _ := fun e' he' ↦
    no_frame_iff (b := b) (hk.tail.end_eq e' he') ((Nat.zero_le _).trans_lt (hk.of_mem_tail he'))
      ha (hk.tail.aligned e' he').1
  constructor
  · intro h e' he'
    refine (hiff e' he').1 fun p hp h₁ h₂ h₃ ↦ h p hp h₁ h₂ ?_
    exact ⟨e', List.mem_cons_of_mem e he', h₃⟩
  · rintro h p hp h₁ h₂ ⟨e', he', h₃⟩
    rcases List.mem_cons.1 he' with rfl | he'
    · have h₄ := h₃.2
      rw [hk.end_eq e' List.mem_cons_self] at h₄
      omega
    · exact (hiff e' he').2 (h e' he') p hp h₁ h₂ h₃

/-- RAM segments that are passed over because they are behind the first kernel segment. -/
theorem clean_iff_of_after (hr : RamSegments fs) (hk : KernelSegments (e :: es))
    (h : ∀ f ∈ fs, e.end_ ≤ f.base) :
    Clean fs (e :: es) ↔ ∀ f ∈ fs, ∀ e' ∈ es, ¬f.Meets e' := by
  have hiff : ∀ f ∈ fs, _ := fun f hf ↦
    no_frame_after (b := f.end_) hk (hr.aligned f hf).1 (h f hf)
  constructor
  · intro hc f hf e' he' hm
    refine (hiff f hf).1 (fun p hp h₁ h₂ ↦ ?_) e' he' hm
    exact hc p hp ⟨f, hf, (hr.has_iff hf).2 ⟨h₁, h₂⟩⟩
  · rintro hm p hp ⟨f, hf, hhas⟩
    have hhas := (hr.has_iff hf).1 hhas
    exact (hiff f hf).2 (hm f hf) p hp hhas.1 hhas.2

namespace Carving

/-- What the walk leaves of RAM behind a kernel segment is behind it. -/
theorem le_of_covered (h : Carving fs es out n) (hk : KernelSegments es) {b : ℕ}
    (hb : ∀ f ∈ fs, b ≤ f.base) (hp : Covered out p) : b ≤ p := by
  obtain ⟨s, hs, hhas⟩ := hp
  exact (h.le_base hk hb s hs).trans hhas.1

/-- **The walk takes the kernel out exactly when the segments are separable.** -/
theorem clean_iff (h : Carving fs es out n) (hr : RamSegments fs) (hk : KernelSegments es) :
    Clean out es ↔ Separable fs es := by
  induction h with
  | done => exact ⟨fun _ ↦ trivial, fun _ p _ _ ⟨_, hs, _⟩ ↦ absurd hs List.not_mem_nil⟩
  | @split f e fs es out n hs h ih =>
    have hupTo : ∀ p, IsFrame p → (f.upTo e).Has p → ¬Covered (e :: es) p := fun p _ ↦
      hk.not_covered_of_upTo hs.1
    -- in the rest there is a frame of every later kernel segment that meets the RAM segment
    have hrest : (∀ p, IsFrame p → (f.restAfter e).Has p → ¬Covered (e :: es) p) ↔
        ∀ e' ∈ es, ¬f.Meets e' := by
      simp only [Segment.restAfter_has hs.2.le (hr.lt f List.mem_cons_self), and_imp]
      rw [no_frame_after hk (hk.aligned e List.mem_cons_self).2 le_rfl]
      refine forall₂_congr fun e' he' ↦ not_congr ?_
      have h₁ := hk.of_mem_tail he'
      have h₂ := hk.tail.le_of_mem he'
      have h₃ := hk.base_le
      have h₄ := hs.1
      have h₅ := hs.2
      rw [Segment.Meets]
      omega
    have hout : Clean out (e :: es) ↔ Clean out es := clean_kernel_cons fun p hp ↦ by
      rw [hk.end_eq e List.mem_cons_self]
      exact hs.2.le.trans (h.le_of_covered hk.tail (fun g hg ↦ hr.of_mem_tail hg) hp)
    rw [clean_cons, clean_cons, hrest, hout, ih hr.tail hk.tail,
      separable_iff_of_splits hr hk hs, and_iff_right hupTo]
  | @trim f e fs es out n ha hend h ih =>
    have hupTo : ∀ p, IsFrame p → (f.upTo e).Has p → ¬Covered (e :: es) p := fun p _ ↦
      hk.not_covered_of_upTo ha.1
    rw [clean_cons, and_iff_right hupTo, ih hr.tail hk,
      separable_cons (not_matters_of_trim hk ha hend)]
  | @cut f e fs es out n hs hend h ih =>
    have hr' := hr.from_ hk hend
    have hout : Clean out (e :: es) ↔ Clean out es := clean_kernel_cons fun p hp ↦ by
      rw [hk.end_eq e List.mem_cons_self]
      refine h.le_of_covered hk.tail (List.forall_mem_cons.2 ⟨le_rfl, fun g hg ↦ ?_⟩) hp
      exact hend.trans (hr.of_mem_tail hg)
    rw [hout, ih hr' hk.tail, separable_iff_of_startsIn hr hk hs hend]
  | @before f e fs es out n hlt hend h ih =>
    have hf : ∀ p, IsFrame p → f.Has p → ¬Covered (e :: es) p := fun p _ hhas hc ↦ by
      have h₁ := ((hr.has_iff List.mem_cons_self).1 hhas).2
      have h₂ := hk.le_of_covered hc
      omega
    rw [clean_cons, and_iff_right hf, ih hr.tail hk,
      separable_cons (not_matters_of_before hk hlt hend)]
  | @after e fs es hall =>
    rw [clean_iff_of_after hr hk hall, separable_iff_of_after hk hall]

end Carving

end Marimba
