import Marimba.Memory.OutsideFrames
import Marimba.Memory.VirtToPhys
import Marimba.Memory.VirtualRegions

/-!
# The kernel's accesses to its own memory

The code of the kernel reads and writes virtual addresses: its static data through the identity map,
the pages of `MMU_alloc_pages` through the tables, and these pages are not there until they are
touched. An access is therefore a **walk of the processor, with a page fault and a second walk** if
the first one fails (`access`); it may not return, when no frame is left.

`Agrees` compares the machine with a plain memory, a function from addresses to words, at a set of
addresses that are *known*: those that were stored to. Reading a known word and storing any word
is then what it is in a plain memory (`readWord_known`, `writeWord_spec`), whatever tables and pages
this makes the handler of page faults allocate. Other words of a page that is touched for the first
time hold what the frame last held, so that nothing is said about them.
-/

namespace Marimba

variable {k k' : Machine} {identityP3 identityP2 : ℕ} {frames held : List ℕ} {v p w : ℕ}

/-! ### Walk, page fault, walk -/

/-- Where an access to a virtual address goes, after the page fault that it may cause. Without a
translation even then the access is repeated for good. -/
def access (v : ℕ) (k : Machine) : Option (ℕ × Machine) :=
  match hwTranslate k v with
  | some p => some (p, k)
  | none => (hwTranslate (pageFaultHandler k v) v).map fun p ↦ (p, pageFaultHandler k v)

/-- Reading a word. -/
def readWord (v : ℕ) (k : Machine) : Option (ℕ × Machine) :=
  (access v k).map fun r ↦ (r.2.mem r.1, r.2)

/-- Storing a word. -/
def writeWord (v w : ℕ) (k : Machine) : Option Machine :=
  (access v k).map fun r ↦ r.2.store r.1 w

/-- An access that returns has found a translation, at once or behind a page fault. -/
theorem access_eq_some (h : access v k = some (p, k')) :
    hwTranslate k' v = some p ∧ (k' = k ∨ hwTranslate k v = none ∧ k' = pageFaultHandler k v) := by
  rw [access] at h
  split at h
  · next q hq =>
    obtain ⟨rfl, rfl⟩ := Prod.mk.inj (Option.some.inj h)
    exact ⟨hq, Or.inl rfl⟩
  · next hnone =>
    obtain ⟨q, hq, heq⟩ := Option.map_eq_some_iff.1 h
    obtain ⟨rfl, rfl⟩ := Prod.mk.inj heq
    exact ⟨hq, Or.inr ⟨hnone, rfl⟩⟩

theorem access_of_translated (h : hwTranslate k v = some p) : access v k = some (p, k) := by
  rw [access, h]

/-- Outside the identity map the processor finds the word of the page. -/
theorem PtSystem.Inv.hwTranslate_eq_some_iff
    (h : PtSystem.Inv identityP3 identityP2 frames ⟨k, held⟩) (hv : Dynamic v) :
    hwTranslate k v = some p ↔
      ∃ f, tableWalk k (vpath v) = some f ∧ p = f + v % pageSize := by
  obtain ⟨free, h⟩ := h
  constructor
  · intro hp
    rw [hwTranslate, hwLeaf_of_dynamic h.tableTree h.plain hv] at hp
    rcases he : leafEntry k v with - | e
    · rw [he] at hp
      cases hp
    · rw [he] at hp
      obtain ⟨hpresent, heq⟩ := Option.ite_none_right_eq_some.1 hp
      rw [(h.plain.leafEntry he).addr, Option.some.injEq] at heq
      refine ⟨pteGetAddr e, h.tableTree.tableWalk_of_leafEntry hv ?_, heq.symm⟩
      rw [he, PageState.ofLeaf, PageState.ofEntry, if_pos hpresent]
  · rintro ⟨f, hf, rfl⟩
    obtain ⟨e, he, hpresent, rfl⟩ := leafEntry_of_mapped hf
    rw [hwTranslate, hwLeaf_of_dynamic h.tableTree h.plain hv, he]
    exact (if_pos hpresent).trans (by rw [(h.plain.leafEntry he).addr])

/-! ### Words of the kernel image -/

/-- An aligned word that the identity map reaches, of no frame and of neither static table. -/
structure StaticWord (identityP3 identityP2 : ℕ) (frames : List ℕ) (v : ℕ) : Prop where
  lt : v < identityEnd
  outside : Outside frames v
  notTable : ∀ i < pageTableNumEnts, v ≠ identityP3 + 8 * i ∧ v ≠ identityP2 + 8 * i

theorem StaticWord.not_heapOrStack (h : StaticWord identityP3 identityP2 frames v) :
    ¬HeapOrStack v := by
  have := h.lt
  simp only [HeapOrStack, identityEnd, pageTableNumEnts, hugePageFrameSize, mmapKernelStacksStart,
    mmapKernelHeapStart, p4PteAddresses] at *
  omega

/-- **Storing a word of the kernel image** changes no table and no page. -/
theorem StaticWord.store (hv : StaticWord identityP3 identityP2 frames v)
    (h : PtSystem.Inv identityP3 identityP2 frames ⟨k, held⟩) (w : ℕ) :
    PtSystem.Inv identityP3 identityP2 frames ⟨k.store v w, held⟩ ∧
      ∀ u x, HoldsAt k u x → HoldsAt (k.store v w) u x := by
  obtain ⟨free, ⟨inSegments, queued, heq, hroles⟩, hid, hplain⟩ := h
  have hother : ∀ a, a ≠ v → (k.store v w).mem a = k.mem a := fun a ha ↦
    Function.update_of_ne ha _ _
  have hframe : ∀ f ∈ frames, ∀ i < pageTableNumEnts,
      (k.store v w).mem (f + 8 * i) = k.mem (f + 8 * i) := fun f hf i hi ↦
    hother _ (hv.outside f hf i hi).symm
  have hword : ∀ f ∈ frames, (k.store v w).mem f = k.mem f := fun f hf ↦
    hframe f hf 0 (by decide)
  have hsame : SameTables k (k.store v w) := ⟨rfl, fun p hp t ht i hi ↦
    hframe t (hroles.table_mem hp.le ht) i hi⟩
  refine ⟨⟨free, ⟨inSegments, queued, heq, hroles.free.congr_mem fun q hq ↦ ?_,
    hroles.owned.of_sameTables hsame⟩, ?_, hplain.congr hsame⟩, fun u x ⟨f, hf, hx⟩ ↦ ?_⟩
  · exact (hword q (hroles.owned.unmapped_mem q (FrameRoles.mem_of_queued hq))).symm
  · refine ⟨hid.p3_frame, hid.p2_frame, hid.p3_static, hid.p2_static, ?_, fun i hi ↦ ?_,
      fun i hi ↦ ?_⟩
    · exact (hword k.cr3 (hroles.table_mem (p := []) (by simp) rfl)).trans hid.root
    · exact (hother _ (hv.notTable i hi).1.symm).trans (hid.third i hi)
    · exact (hother _ (hv.notTable i hi).2.symm).trans (hid.second i hi)
  · refine ⟨f, (hsame.tableWalk _ (by simp)).trans hf, ?_⟩
    rw [hframe f (hroles.table_mem (by simp) hf) _ (wordIndex_lt u), hx]

/-! ### The machine as a plain memory -/

/-- An aligned word that the kernel may access: of the heap, of a stack or of its image. -/
def KernelWord (identityP3 identityP2 : ℕ) (frames : List ℕ) (v : ℕ) : Prop :=
  v % 8 = 0 ∧ (HeapOrStack v ∨ StaticWord identityP3 identityP2 frames v)

/-- **The machine agrees with a plain memory** at the known addresses. -/
structure Agrees (identityP3 identityP2 : ℕ) (frames : List ℕ) (known : Set ℕ) (s : MemSystem)
    (mem : ℕ → ℕ) : Prop where
  paging : PtSystem.Inv identityP3 identityP2 frames ⟨s.machine, s.held⟩
  regions : InRegions s.machine.bumps
  word : ∀ v ∈ known, KernelWord identityP3 identityP2 frames v
  page : ∀ v ∈ known, HeapOrStack v → HoldsAt s.machine v (mem v)
  static : ∀ v ∈ known, StaticWord identityP3 identityP2 frames v → s.machine.mem v = mem v

namespace Agrees

variable {known known' : Set ℕ} {s s' : MemSystem} {mem mem' : ℕ → ℕ} {r : ℕ} {live : List ℕ}

theorem mono (h : Agrees identityP3 identityP2 frames known s mem) (hsub : known' ⊆ known) :
    Agrees identityP3 identityP2 frames known' s mem :=
  ⟨h.paging, h.regions, fun v hv ↦ h.word v (hsub hv), fun v hv ↦ h.page v (hsub hv),
    fun v hv ↦ h.static v (hsub hv)⟩

/-- **A command of the memory manager**, and what is known after it: words that it does not forget,
and the words that it stores. -/
theorem step (h : Agrees identityP3 identityP2 frames known s mem) {c : MemCmd}
    (hstep : s.step c = some (r, s'))
    (hword : ∀ v ∈ known', KernelWord identityP3 identityP2 frames v)
    (hpage : ∀ v ∈ known', HeapOrStack v →
      recordAt v none c = some (mem' v) ∨ v ∈ known ∧ recordAt v (some (mem v)) c = some (mem' v))
    (hstatic : ∀ v ∈ known', StaticWord identityP3 identityP2 frames v →
      v ∈ known ∧ mem v = mem' v) :
    Agrees identityP3 identityP2 frames known' s' mem' := by
  have htracks : ∀ (v : ℕ) (o : Option ℕ),
      (∀ w, o = some w → HeapOrStack v ∧ HoldsAt s.machine v w) →
        MemSystem.Tracks identityP3 identityP2 frames v s' (recordAt v o c) := fun v o ho ↦
    MemSystem.Tracks.step ⟨h.paging, h.regions, ho⟩ hstep
  have h₀ := htracks 0 none fun w hw ↦ by cases hw
  refine ⟨h₀.paging, h₀.regions, hword, fun v hv hheap ↦ ?_, fun v hv hst ↦ ?_⟩
  · -- a word that is stored is recorded whatever was known of it
    rcases hpage v hv hheap with hnew | ⟨hk, hold⟩
    · exact ((htracks v none fun w hw ↦ by cases hw).holds _ hnew).2
    · refine ((htracks v (some (mem v)) fun w hw ↦ ?_).holds _ hold).2
      obtain rfl := Option.some.inj hw
      exact ⟨hheap, h.page v hk hheap⟩
  · obtain ⟨hk, heq⟩ := hstatic v hv hst
    rw [MemSystem.outsideKept_step ⟨h.paging.owns, h.regions⟩ hstep v hst.outside,
      h.static v hk hst, heq]

/-- A command that forgets no known word. -/
theorem step_kept (h : Agrees identityP3 identityP2 frames known s mem) {c : MemCmd}
    (hstep : s.step c = some (r, s'))
    (hkept : ∀ v ∈ known, HeapOrStack v → recordAt v (some (mem v)) c = some (mem v)) :
    Agrees identityP3 identityP2 frames known s' mem :=
  h.step hstep h.word (fun v hv hheap ↦ Or.inr ⟨hv, hkept v hv hheap⟩) fun _ hv _ ↦ ⟨hv, rfl⟩

/-- An access that causes no page fault, or one. -/
theorem access (h : Agrees identityP3 identityP2 frames known s mem)
    (hv : KernelWord identityP3 identityP2 frames v)
    (hrun : Marimba.access v s.machine = some (p, k')) :
    Agrees identityP3 identityP2 frames known { s with machine := k' } mem ∧
      k'.bumps = s.machine.bumps ∧ hwTranslate k' v = some p := by
  obtain ⟨hp, rfl | ⟨hnone, rfl⟩⟩ := access_eq_some hrun
  · exact ⟨h, rfl, hp⟩
  · refine ⟨?_, pageFaultHandler_bumps _ _, hp⟩
    rcases hv.2 with hheap | hst
    · exact h.step_kept (c := .pageFault v) (by rw [MemSystem.step, if_pos hheap])
        fun _ _ _ ↦ rfl
    · obtain ⟨free, hpaging⟩ := h.paging
      rw [hpaging.identity.hwTranslate_eq hst.lt] at hnone
      cases hnone

/-- A known word is translated. -/
theorem translated (h : Agrees identityP3 identityP2 frames known s mem) (hv : v ∈ known) :
    ∃ p, hwTranslate s.machine v = some p ∧ s.machine.mem p = mem v := by
  obtain ⟨hal, hheap | hst⟩ := h.word v hv
  · obtain ⟨f, hf, hmem⟩ := h.page v hv hheap
    refine ⟨f + v % pageSize, (h.paging.hwTranslate_eq_some_iff hheap.dynamic).2 ⟨f, hf, rfl⟩, ?_⟩
    rw [← hmem]
    congr 1
    simp only [pageSize]
    omega
  · obtain ⟨free, hpaging⟩ := h.paging
    exact ⟨v, hpaging.identity.hwTranslate_eq hst.lt, h.static v hv hst⟩

/-- **Storing where an access goes** makes the word known. -/
theorem storeAt (h : Agrees identityP3 identityP2 frames known s mem)
    (hv : KernelWord identityP3 identityP2 frames v) (hp : hwTranslate s.machine v = some p)
    (w : ℕ) :
    Agrees identityP3 identityP2 frames (insert v known)
      { s with machine := s.machine.store p w } (Function.update mem v w) := by
  have hword : ∀ u ∈ insert v known, KernelWord identityP3 identityP2 frames u := fun u hu ↦ by
    rcases hu with rfl | hu
    · exact hv
    · exact h.word u hu
  obtain ⟨hal, hheap | hst⟩ := hv
  · obtain ⟨f, hf, rfl⟩ := (h.paging.hwTranslate_eq_some_iff hheap.dynamic).1 hp
    have hoff : f + v % pageSize = f + 8 * (v % pageSize / 8) := by
      simp only [pageSize]
      omega
    rw [hoff]
    refine h.step (c := .writePage v w) (by rw [MemSystem.step, if_pos hheap, hf, Option.map_some])
      hword (fun u hu hu₂ ↦ ?_) fun u hu hust ↦ ?_
    · by_cases huv : u = v
      · subst huv
        exact Or.inl (by rw [recordAt, if_pos rfl, Function.update_self])
      · have hk := hu.resolve_left huv
        have hne : v / 8 ≠ u / 8 := by
          have := (h.word u hk).1
          omega
        exact Or.inr ⟨hk, by rw [recordAt, if_neg hne, Function.update_of_ne huv]⟩
    · have huv : u ≠ v := by
        rintro rfl
        exact hust.not_heapOrStack hheap
      exact ⟨hu.resolve_left huv, (Function.update_of_ne huv _ _).symm⟩
  · obtain ⟨hpaging, hkept⟩ := hst.store h.paging w
    obtain ⟨free, hpaging₀⟩ := h.paging
    rw [hpaging₀.identity.hwTranslate_eq hst.lt] at hp
    obtain rfl := Option.some.inj hp
    refine ⟨hpaging, h.regions, hword, fun u hu hheap ↦ ?_, fun u hu hust ↦ ?_⟩
    · have huv : u ≠ v := by
        rintro rfl
        exact hst.not_heapOrStack hheap
      rw [Function.update_of_ne huv]
      exact hkept u _ (h.page u (hu.resolve_left huv) hheap)
    · by_cases huv : u = v
      · subst huv
        rw [Function.update_self]
        exact Function.update_self ..
      · rw [Function.update_of_ne huv, ← h.static u (hu.resolve_left huv) hust]
        exact Function.update_of_ne huv _ _

end Agrees

section Words

variable {known : Set ℕ} {s : MemSystem} {mem : ℕ → ℕ}
  (h : Agrees identityP3 identityP2 frames known s mem)

include h

/-- **Reading a known word** returns what is known, at once. -/
theorem readWord_known (hv : v ∈ known) : readWord v s.machine = some (mem v, s.machine) := by
  obtain ⟨p, hp, hmem⟩ := h.translated hv
  rw [readWord, access_of_translated hp, Option.map_some, hmem]

/-- **Storing a word** is storing it in the plain memory. -/
theorem writeWord_spec (hv : KernelWord identityP3 identityP2 frames v)
    (hrun : writeWord v w s.machine = some k') :
    Agrees identityP3 identityP2 frames (insert v known) { s with machine := k' }
      (Function.update mem v w) ∧ k'.bumps = s.machine.bumps := by
  obtain ⟨⟨p, k₁⟩, haccess, rfl⟩ := Option.map_eq_some_iff.1 hrun
  obtain ⟨h', hbumps, hp⟩ := h.access hv haccess
  exact ⟨h'.storeAt hv hp w, hbumps⟩

end Words

end Marimba
