import Marimba.Memory.ReservedPages

/-!
# Giving back a run of pages

After `MMU_free_pages` no page of the run should be reserved any more, and the frames of the pages
that were touched should be back in the queue (`FreesRun`). The heap pointer never comes back to a
page, so a page that is unmapped once it has been handed out stays so in every later state
(`MemSystem.unmapped_runTrace`), and no access to it is ever served again.

`PT_free` returns early when a page is not present, and leaves the mark of a page that was reserved
and not touched: the page can still be faulted in. Besides, the offset `PAGE_SIZE*i` of the loop is
an `int` product, which overflows from page `intSpan` on: then the loop goes on two gigabytes in
front of the run. `freesRun_iff` says when a run is freed all the same.
-/

namespace Marimba

variable {k k' : Machine} {inSegments queued held frames : List ℕ} {u v base n : ℕ}

/-! ### Unmapped pages stay unmapped -/

theorem tableWalk_of_unmapped (h : leafState k v = .unmapped) : tableWalk k (vpath v) = none := by
  rcases hf : tableWalk k (vpath v) with - | f
  · rfl
  · rw [leafState_of_mapped hf] at h
    cases h

theorem SameTables.leafState_eq (h : SameTables k k') (u : ℕ) : leafState k' u = leafState k u := by
  rw [leafState, leafState, h.leafEntry_eq]

/-- The address of its page is on the path of an address. -/
theorem vpath_div_mul (v : ℕ) : vpath (v / pageSize * pageSize) = vpath v := by
  refine vpath_eq_iff.2 (Fin.ext ?_)
  simp only [pageOf, pageSize]
  omega

/-- A page that is not reserved is not served. -/
theorem pageFaultHandler_of_not_reserved (h : ¬Reserved k v) : pageFaultHandler k v = k := by
  rw [Reserved, not_or, not_and] at h
  rw [pageFaultHandler]
  dsimp only
  rw [if_neg h.1, if_pos]
  rw [Bool.or_eq_true, Bool.not_eq_true', bne_iff_ne, or_iff_not_imp_right, not_not]
  exact fun hdepth ↦ Bool.eq_false_iff.2 (h.2 hdepth)

/-- A fault leaves unmapped pages unmapped: it is served for a reserved page only, and changes the
entry of that page only. -/
theorem Owns.unmapped_pageFaultHandler (h : Owns k held frames) (hv : Dynamic v)
    (hu : leafState k u = .unmapped) :
    leafState (Marimba.pageFaultHandler k v) u = .unmapped := by
  have hwalk := ptWalk_spec h.tableTree hv
  rw [Marimba.pageFaultHandler]
  generalize ptWalk k v = r at hwalk
  cases hwalk with
  | frame hf => simpa using hu
  | @stop d t hd ht hp =>
    simp only [Nat.ne_of_lt hd, if_false]
    split
    · exact hu
    · next hcond =>
      simp only [Bool.or_eq_true, not_or, bne_iff_ne, ne_eq, not_not, Bool.not_eq_true',
        Bool.not_eq_false] at hcond
      obtain ⟨hdem, rfl⟩ := hcond
      have hne : vpath u ≠ vpath v := by
        intro he
        rw [leafState_congr he, h.tableTree.leafState_of_stop hv hd ht hp, if_pos rfl,
          PageState.ofEntry, hp, hdem] at hu
        cases hu
      rcases h.alloc with hnone | ⟨g, hg, hret, inSegments, queued, hroles⟩
      · rw [hnone]
        simpa using hu
      · simp only [hret, hg, if_false]
        have ht₁ : tableWalk (MMU.allocFrame k).2 ((vpath v).take pageTableDepth) = some t := by
          rw [tableWalk_allocFrame]
          exact ht
        obtain ⟨-, hwalk⟩ := hroles.mapPage hv ht₁ (by rw [MMU.allocFrame_mem]; exact hp)
        rw [leafState, hroles.owned.tableTree.leafEntry_store_of_ne ht₁ hwalk hne, ← leafState,
          leafState_of_eq (MMU.allocFrame_mem k) (MMU.allocFrame_cr3 k)]
        exact hu

/-- What `PT_free` makes of the state of its page: the mark of a page that is not mapped stays. -/
def PageState.freed : PageState → PageState
  | .mapped _ => .unmapped
  | st => st

theorem PageState.freed_freed (st : PageState) : st.freed.freed = st.freed := by
  cases st <;> rfl

/-- `PT_free` of a mapped page clears its entry. -/
theorem FrameRoles.leafState_freePage_of_mapped {f : ℕ}
    (h : FrameRoles k inSegments queued held frames) (hv : Dynamic v) (hal : v % pageSize = 0)
    (hf : tableWalk k (vpath v) = some f) : leafState (MMU.freePage k v) v = .unmapped := by
  obtain ⟨t, ht, hfree⟩ := PT.free_of_mapped h.owned.tableTree hv hal hf
  obtain ⟨hroles, hwalk⟩ := h.unlink (length_take_vpath v) ht
    (by rw [← vpath_eq_take_concat]; exact hf)
    (present_clearedEntry (k.mem (t + 8 * ptOffsetForDepth v pageTableDepth)))
  rw [← vpath_eq_take_concat] at hwalk
  have hpage : MMU.freePage k v = MMU.freeFrame
      (k.store (t + 8 * ptOffsetForDepth v pageTableDepth)
        (clearedEntry (k.mem (t + 8 * ptOffsetForDepth v pageTableDepth)))) f := by
    rw [MMU.freePage, hfree]
    exact if_pos (h.isFrame_of_tableWalk (by simp) hf).2.ne'
  rw [hpage, hroles.freeFrame.2.leafState_eq, leafState, leafEntry, hwalk _ (by simp),
    if_neg (ne_vpath_of_length (by rw [length_take_vpath]; decide)), ht, Option.map_some,
    Machine.store_mem, Function.update_self]
  exact PageState.ofEntry_clearedEntry _

/-- **`MMU_free_page`** frees its page and no other. -/
theorem Owns.leafState_freePage (h : Owns k held frames) (hv : Dynamic v)
    (hal : v % pageSize = 0) (u : ℕ) :
    leafState (MMU.freePage k v) u =
      if vpath u = vpath v then (leafState k u).freed else leafState k u := by
  obtain ⟨inSegments, queued, hroles⟩ := h
  rcases hf : tableWalk k (vpath v) with - | f
  · rw [MMU.freePage_of_unmapped hroles.owned.tableTree hv hf]
    split
    · next he =>
      rcases hst : leafState k u with - | - | f
      · rfl
      · rfl
      · rw [leafState_congr he] at hst
        rw [hroles.owned.tableTree.tableWalk_of_leafEntry hv hst] at hf
        cases hf
    · rfl
  · split
    · next he =>
      rw [leafState_congr he, leafState_congr he, hroles.leafState_freePage_of_mapped hv hal hf,
        leafState_of_mapped hf]
      rfl
    · next hne =>
      rw [leafState, (hroles.freePage hv hal hf).2.2 u hne]
      rfl

/-- **The freeing loop** frees its pages and no others, also when it comes to a page twice. -/
theorem Owns.leafState_freeRun (h : Owns k held frames) (u : ℕ) : ∀ n : ℕ,
    (∀ i < n, Dynamic (pageOffset v i)) → (∀ i < n, pageOffset v i % pageSize = 0) →
    leafState (MMU.freeRun v n k) u =
      if ∃ i < n, vpath u = vpath (pageOffset v i) then (leafState k u).freed else leafState k u
  | 0, _, _ => by simp [MMU.freeRun]
  | n + 1, hdyn, hal => by
    have hdyn' : ∀ i < n, Dynamic (pageOffset v i) := fun i hi ↦ hdyn i (by omega)
    have ih := h.leafState_freeRun u n hdyn' fun i hi ↦ hal i (by omega)
    rw [MMU.freeRun, (h.freeRun n hdyn').leafState_freePage (hdyn n (by omega)) (hal n (by omega)),
      ih]
    simp only [Nat.lt_succ_iff_lt_or_eq, or_and_right, exists_or, exists_eq_left]
    by_cases hlast : vpath u = vpath (pageOffset v n)
    · rw [if_pos hlast, if_pos (Or.inr hlast)]
      split
      · exact PageState.freed_freed _
      · rfl
    · rw [if_neg hlast]
      exact if_congr (by simp only [hlast, or_false]) rfl rfl

/-- Freeing pages leaves unmapped pages unmapped. -/
theorem Owns.unmapped_freePage (h : Owns k held frames) (hv : Dynamic v)
    (hu : leafState k u = .unmapped) : leafState (MMU.freePage k v) u = .unmapped := by
  by_cases hal : v % pageSize = 0
  · rw [h.leafState_freePage hv hal, hu]
    exact ite_self _
  · rw [MMU.freePage_of_not_aligned hal]
    exact hu

theorem Owns.unmapped_freeRun (h : Owns k held frames) (hu : leafState k u = .unmapped) :
    ∀ n : ℕ, (∀ i < n, Dynamic (pageOffset v i)) → leafState (MMU.freeRun v n k) u = .unmapped
  | 0, _ => hu
  | n + 1, hdyn => by
    have hdyn' : ∀ i < n, Dynamic (pageOffset v i) := fun i hi ↦ hdyn i (by omega)
    rw [MMU.freeRun]
    exact (h.freeRun n hdyn').unmapped_freePage (hdyn n (by omega)) (h.unmapped_freeRun hu n hdyn')

theorem Owns.unmapped_freeStack (h : Owns k held frames) (hv : HeapOrStack v)
    (hu : leafState k u = .unmapped) : leafState (MMU.freeStack k v) u = .unmapped := by
  rw [MMU.freeStack]
  exact h.unmapped_freeRun hu _ fun i hi ↦ hv.dynamic_freeStack hi

/-- A heap address that the heap pointer has passed. -/
def Passed (b : ℕ × ℕ) (v : ℕ) : Prop := mmapKernelHeapStart ≤ v ∧ v < b.1

section Passed

variable (h : Owns k held frames) (hb : InRegions k.bumps) (hv : Passed k.bumps v)

include h hb hv

/-- `MMU_alloc_page` leaves the pages alone that the pointer has passed. -/
theorem Owns.leafState_allocPage :
    leafState (MMU.allocPage k).2 v = leafState k v ∧ Passed (MMU.allocPage k).2.bumps v := by
  by_cases hend : k.bumps.1 = mmapKernelHeapEnd
  · rw [MMU.allocPage_of_end hend]
    exact ⟨rfl, hv⟩
  · obtain ⟨inSegments, queued, hroles⟩ := h
    obtain ⟨_, -, hask⟩ := (AsksFor.nil ⟨inSegments, queued, rfl, hroles⟩).allocPage hb hend
      (by simp)
    have hlt := hv.2
    refine ⟨hask.other v fun w hw ↦ ?_, hv.1, ?_⟩
    · have hend' := hb.heap_end
      have hal := hb.heap_aligned
      rw [List.nil_append, List.mem_singleton] at hw
      simp only [mmapKernelHeapEnd, p4PteAddresses, pageSize] at hend' hal
      rw [hw, Ne, vpath_inj (by omega) (by omega)]
      simp only [pageSize]
      omega
    · rw [(MMU.allocPage_bump_of_lt (lt_of_le_of_ne hb.heap_end hend)).2]
      exact hlt.trans_le (Nat.le_add_right _ _)

theorem Owns.leafState_allocMorePages : ∀ n : ℕ,
    leafState (MMU.allocMorePages n k).2 v = leafState k v ∧
      Passed (MMU.allocMorePages n k).2.bumps v
  | 0 => ⟨rfl, hv⟩
  | n + 1 => by
    obtain ⟨hstate, hv'⟩ := Owns.leafState_allocMorePages n
    obtain ⟨h', hb'⟩ := h.allocMorePages hb n
    rw [MMU.allocMorePages]
    dsimp only
    split
    · obtain ⟨hstate', hv''⟩ := h'.leafState_allocPage hb' hv'
      exact ⟨hstate'.trans hstate, hv''⟩
    · exact ⟨hstate, hv'⟩

theorem Owns.leafState_allocPages (numPages : ℤ) :
    leafState (MMU.allocPages k numPages).2 v = leafState k v ∧
      Passed (MMU.allocPages k numPages).2.bumps v := by
  rw [MMU.allocPages]
  split
  · exact ⟨rfl, hv⟩
  · have hk := h.setIrq (IRQ.disable k.irq)
    obtain ⟨hstate, hv'⟩ := hk.leafState_allocPage hb hv
    obtain ⟨h', hb'⟩ := hk.allocPage hb
    dsimp only
    split
    · exact ⟨hstate, hv'⟩
    · obtain ⟨hstate', hv''⟩ := h'.leafState_allocMorePages hb' hv' (numPages - 1).toNat
      split
      · exact ⟨hstate'.trans hstate, hv''⟩
      · exact ⟨hstate'.trans hstate, hv''⟩

theorem Owns.leafState_allocStack :
    leafState (MMU.allocStack k).2 v = leafState k v ∧ Passed (MMU.allocStack k).2.bumps v := by
  obtain ⟨q, heq, hbumps⟩ := MMU.allocStack_of_inRegions hb
  obtain ⟨inSegments, queued, hroles⟩ := h
  have hk : OwnsWith k (inSegments ++ queued) held frames := ⟨inSegments, queued, rfl, hroles⟩
  obtain ⟨_, -, hask⟩ :=
    ((hk.setIrq (IRQ.disable k.irq)).reserveStackPages hb _ le_rfl).of_setIrq.setIrq q
  refine ⟨?_, hv.1, by rw [hbumps]; exact hv.2⟩
  rw [heq]
  refine hask.other v fun w hw ↦ ?_
  obtain ⟨i, hi, rfl⟩ := List.mem_map.1 hw
  obtain ⟨-, -, hpage, -⟩ := hb.stackPage_bounds (List.mem_range.1 hi)
  have hstart := hv.1
  have hlt := hv.2.trans_le hb.heap_end
  have hstack := hb.stack_lt
  simp only [mmapKernelHeapStart, mmapKernelHeapEnd, mmapKernelStacksEnd, p4PteAddresses, pageSize,
    Machine.setIrq_bumps] at *
  rw [Ne, vpath_inj (by omega) (by omega)]
  simp only [pageSize]
  omega

end Passed

namespace MemSystem

variable {s s' : MemSystem} {r : ℕ}

/-- **Every command leaves behind what the heap pointer has passed**, and keeps it unmapped. -/
theorem passed_step (h : s.Inv frames) (hv : Passed s.machine.bumps v) {c : MemCmd}
    (hstep : s.step c = some (r, s')) :
    Passed s'.machine.bumps v ∧
      (leafState s.machine v = .unmapped → leafState s'.machine v = .unmapped) := by
  cases c with
  | allocPage =>
    obtain ⟨-, rfl⟩ := Prod.mk.inj (Option.some.inj hstep)
    obtain ⟨hstate, hv'⟩ := h.owns.leafState_allocPage h.regions hv
    exact ⟨hv', hstate.trans⟩
  | allocPages numPages =>
    obtain ⟨-, rfl⟩ := Prod.mk.inj (Option.some.inj hstep)
    obtain ⟨hstate, hv'⟩ := h.owns.leafState_allocPages h.regions hv numPages
    exact ⟨hv', hstate.trans⟩
  | allocStack =>
    obtain ⟨-, -, rfl⟩ := guarded_eq_some.1 hstep
    obtain ⟨hstate, hv'⟩ := h.owns.leafState_allocStack h.regions hv
    exact ⟨hv', hstate.trans⟩
  | freePage vaddr =>
    obtain ⟨hin, -, rfl⟩ := guarded_eq_some.1 hstep
    exact ⟨by rw [MMU.freePage_bumps]; exact hv, h.owns.unmapped_freePage hin.dynamic⟩
  | freePages vaddr numPages =>
    obtain ⟨hin, -, rfl⟩ := guarded_eq_some.1 hstep
    exact ⟨by rw [MMU.freePages, MMU.freeRun_bumps]; exact hv, fun hu ↦
      h.owns.unmapped_freeRun hu _ fun i hi ↦ (hin i hi).dynamic⟩
  | freeStack vaddr =>
    obtain ⟨hin, -, rfl⟩ := guarded_eq_some.1 hstep
    have hv' : Passed (MMU.freeStack s.machine vaddr).bumps v := by
      rw [MMU.freeStack_bumps]
      exact hv
    have hkeep : leafState s.machine v = .unmapped →
        leafState (MMU.freeStack s.machine vaddr) v = .unmapped := h.owns.unmapped_freeStack hin
    dsimp only
    exact ⟨hv', hkeep⟩
  | pageFault vaddr =>
    obtain ⟨hin, -, rfl⟩ := guarded_eq_some.1 hstep
    exact ⟨by rw [pageFaultHandler_bumps]; exact hv,
      h.owns.unmapped_pageFaultHandler hin.dynamic⟩
  | allocFrame =>
    obtain ⟨-, rfl⟩ := Prod.mk.inj (Option.some.inj hstep)
    have hstate := leafState_of_eq (MMU.allocFrame_mem s.machine) (MMU.allocFrame_cr3 s.machine)
    have hv' : Passed (MMU.allocFrame s.machine).2.bumps v := by
      rw [MMU.allocFrame_bumps]
      exact hv
    exact ⟨hv', (congrFun hstate v).trans⟩
  | freeFrame f =>
    obtain ⟨hf, -, rfl⟩ := guarded_eq_some.1 hstep
    obtain ⟨inSegments, queued, hroles⟩ := h.owns.perm (List.perm_cons_erase hf)
    exact ⟨by rw [MMU.freeFrame_bumps]; exact hv, (hroles.freeFrame.2.leafState_eq v).trans⟩
  | writeFrame f i w =>
    obtain ⟨hf, -, rfl⟩ := guarded_eq_some.1 hstep
    obtain ⟨inSegments, queued, hroles⟩ := h.owns
    have hsame : SameTables s.machine (s.machine.store (f + 8 * i) w) :=
      hroles.owned.sameTables_of_frame (hroles.isFrame_of_mem (List.mem_append_right _ hf))
        (fun p hp hw ↦ (hroles.owned.mapped p hp.le f hw).2 (List.mem_append_right _ hf)) rfl
        fun a ha ↦ Function.update_of_ne (ha i i.isLt) _ _
    exact ⟨hv, (hsame.leafState_eq v).trans⟩
  | writePage vaddr w =>
    obtain ⟨-, f, hf, -, rfl⟩ := guarded_map_eq_some.1 hstep
    obtain ⟨inSegments, queued, hroles⟩ := h.owns
    have hnot : ∀ p : List ℕ, p.length < physicalPageDepth → tableWalk s.machine p ≠ some f :=
      fun p hp hw ↦
        ne_vpath_of_length hp (hroles.owned.tree p (vpath vaddr) hp.le (by simp) f hw hf)
    have hsame : SameTables s.machine (s.machine.store (f + 8 * (vaddr % pageSize / 8)) w) :=
      hroles.owned.sameTables_of_frame (hroles.isFrame_of_tableWalk (by simp) hf) hnot rfl
        fun a ha ↦ Function.update_of_ne (ha _ (wordIndex_lt vaddr)) _ _
    exact ⟨hv, (hsame.leafState_eq v).trans⟩

theorem passed_runTrace (h : s.Inv frames) (hv : Passed s.machine.bumps v) {cmds : List MemCmd}
    {out : List ℕ} (hrun : runTrace MemSystem.step s cmds = some (out, s')) :
    s'.Inv frames ∧ Passed s'.machine.bumps v ∧
      (leafState s.machine v = .unmapped → leafState s'.machine v = .unmapped) :=
  invariant_of_runTrace
    (I := fun t ↦ t.Inv frames ∧ Passed t.machine.bumps v ∧
      (leafState s.machine v = .unmapped → leafState t.machine v = .unmapped))
    (fun _ _ _ _ ⟨hinv, hpassed, hkeep⟩ hstep ↦
      ⟨inv_step hinv hstep, (passed_step hinv hpassed hstep).1, fun hu ↦
        (passed_step hinv hpassed hstep).2 (hkeep hu)⟩)
    ⟨h, hv, id⟩ hrun

end MemSystem

/-! ### The addresses of the loop -/

/-- From this page on the offset `PAGE_SIZE*i` is too large for an `int`. -/
abbrev intSpan : ℕ := 2 ^ 19

section Offsets

variable {i j : ℕ} (hstart : mmapKernelHeapStart ≤ base) (hend : base ≤ mmapKernelHeapEnd)

include hstart hend

/-- The offset wraps around: after `intSpan` pages it is negative, after twice as many it starts
again. -/
theorem pageOffset_eq (i : ℕ) : pageOffset base i =
    if i % (2 * intSpan) < intSpan then base + pageSize * (i % (2 * intSpan))
    else base + pageSize * (i % (2 * intSpan)) - 2 ^ 32 := by
  simp only [pageOffset, signExtend32, wadd, wordSize, pageSize, intSpan, mmapKernelHeapStart,
    mmapKernelHeapEnd, p4PteAddresses] at *
  split <;> split <;> omega

theorem pageOffset_of_lt (hi : i < intSpan) : pageOffset base i = base + pageSize * i := by
  have hmod : i % (2 * intSpan) = i := Nat.mod_eq_of_lt (by omega)
  rw [pageOffset_eq hstart hend, hmod, if_pos hi]

theorem pageOffset_bounds (i : ℕ) :
    2 ^ 39 ≤ pageOffset base i ∧ pageOffset base i < 2 ^ 48 ∧
      pageOffset base i < base + pageSize * intSpan := by
  rw [pageOffset_eq hstart hend]
  simp only [pageSize, intSpan, mmapKernelHeapStart, mmapKernelHeapEnd, p4PteAddresses] at *
  split <;> omega

theorem dynamic_pageOffset (i : ℕ) : Dynamic (pageOffset base i) := by
  obtain ⟨hle, hlt, -⟩ := pageOffset_bounds hstart hend i
  exact dynamic_of_le hle hlt

theorem pageOffset_aligned (hal : base % pageSize = 0) (i : ℕ) :
    pageOffset base i % pageSize = 0 := by
  rw [pageOffset_eq hstart hend]
  simp only [pageSize, intSpan, mmapKernelHeapStart, mmapKernelHeapEnd, p4PteAddresses] at *
  split <;> omega

theorem vpath_pageOffset_ne (hi : i < 2 * intSpan) (hj : j < i) :
    vpath (pageOffset base i) ≠ vpath (pageOffset base j) := by
  obtain ⟨-, hlt, -⟩ := pageOffset_bounds hstart hend i
  obtain ⟨-, hlt', -⟩ := pageOffset_bounds hstart hend j
  rw [Ne, vpath_inj hlt hlt', pageOffset_eq hstart hend, pageOffset_eq hstart hend,
    Nat.mod_eq_of_lt hi, Nat.mod_eq_of_lt (hj.trans hi)]
  simp only [pageSize, intSpan, mmapKernelHeapStart, mmapKernelHeapEnd, p4PteAddresses] at *
  split <;> split <;> omega

/-- A page of the run that the offset does not reach is not among the pages freed. -/
theorem vpath_ne_pageOffset (hal : base % pageSize = 0) (hi : intSpan ≤ i)
    (hlt : base + pageSize * i < 2 ^ 48) (j : ℕ) :
    vpath (base + pageSize * i) ≠ vpath (pageOffset base j) := by
  obtain ⟨-, hlt', hbound⟩ := pageOffset_bounds hstart hend j
  rw [Ne, vpath_inj hlt hlt']
  simp only [pageSize, intSpan] at *
  omega

end Offsets

/-! ### When a run is freed -/

/-- The frames of the pages of a run that have been touched. -/
def runFrames (k : Machine) (base n : ℕ) : List ℕ :=
  (heapPages base n).filterMap fun v ↦ tableWalk k (vpath v)

/-- **The run of `numPages` pages from `base` is freed** by `MMU_free_pages` in the state `s`. -/
structure FreesRun (s : MemSystem) (base : ℕ) (numPages : ℤ) : Prop where
  /-- No page of the run is present, and none is marked. -/
  unreserved : ∀ v ∈ heapPages base numPages.toNat,
    ¬Reserved (MMU.freePages s.machine base numPages) v
  /-- The frames of the touched pages, and no others, have joined the queue. -/
  returned : ∃ inSegments queued, FreeFrames s.machine inSegments queued ∧
    FreeFrames (MMU.freePages s.machine base numPages) inSegments
      (queued ++ runFrames s.machine base numPages.toNat)
  /-- No later access to the run is served. -/
  unserved : ∀ (cmds : List MemCmd) (out : List ℕ) (s' : MemSystem),
    runTrace MemSystem.step { s with machine := MMU.freePages s.machine base numPages } cmds =
      some (out, s') →
    ∀ v, v / pageSize * pageSize ∈ heapPages base numPages.toNat →
      pageFaultHandler s'.machine v = s'.machine

/-- A run that is freed: every page within reach of the loop's offset is mapped or unmapped, those
beyond are unmapped, and the pages that the offset reaches in their place are not mapped. -/
def Freeable (k : Machine) (base n : ℕ) : Prop :=
  ∀ i < n,
    (i < intSpan → leafState k (base + pageSize * i) ≠ .reserved) ∧
    (intSpan ≤ i → leafState k (base + pageSize * i) = .unmapped ∧
      (i < 2 * intSpan → ∀ f, leafState k (base + pageSize * i - 2 ^ 32) ≠ .mapped f))

section FreesRun

variable (h : FrameRoles k inSegments queued held frames) (hstart : mmapKernelHeapStart ≤ base)
  (hle : base ≤ mmapKernelHeapEnd) (hal : base % pageSize = 0)

include h hstart hle hal

/-- The loop within one round of the offset. -/
theorem FrameRoles.freeRun_round (hn : n ≤ 2 * intSpan) :
    FrameRoles (MMU.freeRun base n k) inSegments
        (queued ++ (List.range n).filterMap fun i ↦ tableWalk k (vpath (pageOffset base i))) held
        frames ∧
      ∀ i < n, tableWalk (MMU.freeRun base n k) (vpath (pageOffset base i)) = none := by
  obtain ⟨hroles, hnone, -⟩ := h.freeRun (n := n)
    (fun i _ ↦ dynamic_pageOffset hstart hle i) (fun i _ ↦ pageOffset_aligned hstart hle hal i)
    (fun i hi j hj ↦ vpath_pageOffset_ne hstart hle (by omega) hj)
  exact ⟨hroles, hnone⟩

/-- In the second round all pages are unmapped already. -/
theorem FrameRoles.freeRun_eq_min (n : ℕ) :
    MMU.freeRun base n k = MMU.freeRun base (min n (2 * intSpan)) k := by
  induction n with
  | zero => rw [Nat.zero_min]
  | succ n ih =>
    rcases Nat.lt_or_ge n (2 * intSpan) with hlt | hge
    · rw [min_eq_left (Nat.succ_le_of_lt hlt)]
    · rw [min_eq_right hge] at ih
      rw [min_eq_right (hge.trans (Nat.le_succ n)), MMU.freeRun, ih]
      obtain ⟨hroles, hnone⟩ := h.freeRun_round hstart hle hal le_rfl
      refine MMU.freePage_of_unmapped hroles.owned.tableTree (dynamic_pageOffset hstart hle n) ?_
      have hmod : pageOffset base n = pageOffset base (n % (2 * intSpan)) := by
        rw [pageOffset_eq hstart hle, pageOffset_eq hstart hle, Nat.mod_mod]
      rw [hmod]
      exact hnone _ (Nat.mod_lt _ (by decide))

/-- **The pages of the run afterwards**: those within reach of the offset are freed, those beyond
are left alone. -/
theorem FrameRoles.leafState_freeRun_page {i : ℕ} (hi : i < n)
    (hend : base + pageSize * n ≤ mmapKernelHeapEnd) :
    leafState (MMU.freeRun base n k) (base + pageSize * i) =
      if i < intSpan then (leafState k (base + pageSize * i)).freed
      else leafState k (base + pageSize * i) := by
  have howns : Owns k held frames := ⟨inSegments, queued, h⟩
  rw [howns.leafState_freeRun _ n (fun i _ ↦ dynamic_pageOffset hstart hle i)
    fun i _ ↦ pageOffset_aligned hstart hle hal i]
  refine if_congr ⟨fun ⟨j, hj, hpath⟩ ↦ ?_, fun hspan ↦ ⟨i, hi, ?_⟩⟩ rfl rfl
  · by_contra hspan
    refine vpath_ne_pageOffset hstart hle hal (not_lt.1 hspan) ?_ j hpath
    simp only [pageSize, mmapKernelHeapEnd, p4PteAddresses] at *
    omega
  · rw [pageOffset_of_lt hstart hle hspan]

end FreesRun

theorem PageState.freed_eq_unmapped_iff {st : PageState} :
    st.freed = .unmapped ↔ st ≠ .reserved := by
  cases st <;> simp [PageState.freed]

/-- A page has no frame exactly if it is not mapped. -/
theorem TableTree.tableWalk_eq_none_iff (h : TableTree k) (hv : Dynamic v) :
    tableWalk k (vpath v) = none ↔ ∀ f, leafState k v ≠ .mapped f := by
  refine ⟨fun hnone f hf ↦ ?_, fun hnot ↦ ?_⟩
  · rw [h.tableWalk_of_leafEntry hv hf] at hnone
    cases hnone
  · rcases hf : tableWalk k (vpath v) with - | f
    · rfl
    · exact absurd (leafState_of_mapped hf) (hnot f)

/-- The first values of a list of optional ones, and the rest. -/
theorem filterMap_range_add {α : Type*} (g : ℕ → Option α) (a b : ℕ) :
    (List.range (a + b)).filterMap g =
      (List.range a).filterMap g ++ (List.range b).filterMap fun i ↦ g (a + i) := by
  rw [List.range_add, List.filterMap_append, List.filterMap_map]
  rfl

/-- **Which frames are returned**, when no page beyond the reach of the offset is mapped. -/
theorem TableTree.runFrames_eq_iff (h : TableTree k) (hstart : mmapKernelHeapStart ≤ base)
    (hend : base + pageSize * n ≤ mmapKernelHeapEnd)
    (hbeyond : ∀ i < n, intSpan ≤ i → leafState k (base + pageSize * i) = .unmapped) :
    runFrames k base n = ((List.range (min n (2 * intSpan))).filterMap fun i ↦
        tableWalk k (vpath (pageOffset base i))) ↔
      ∀ i < n, intSpan ≤ i → i < 2 * intSpan →
        ∀ f, leafState k (base + pageSize * i - 2 ^ 32) ≠ .mapped f := by
  have hle : base ≤ mmapKernelHeapEnd := (Nat.le_add_right _ _).trans hend
  -- the pages within reach come first on both sides
  obtain ⟨a, b, c, rfl, hmin, hspan, ha⟩ : ∃ a b c, n = a + b ∧ min n (2 * intSpan) = a + c ∧
      a ≤ intSpan ∧ (0 < b ∨ 0 < c → a = intSpan) :=
    ⟨min n intSpan, n - min n intSpan, min n (2 * intSpan) - min n intSpan, by omega, by omega,
      by omega, by omega⟩
  have hwithin : (List.range a).filterMap (fun i ↦ tableWalk k (vpath (pageOffset base i))) =
      (List.range a).filterMap fun i ↦ tableWalk k (vpath (base + pageSize * i)) :=
    List.filterMap_congr fun i hi ↦ by
      rw [pageOffset_of_lt hstart hle ((List.mem_range.1 hi).trans_le hspan)]
  have hrest : (List.range b).filterMap (fun i ↦ tableWalk k (vpath (base + pageSize * (a + i)))) =
      [] := by
    refine filterMap_range_eq_nil.2 fun i hi ↦ tableWalk_of_unmapped (hbeyond _ (by omega) ?_)
    have := ha (Or.inl (by omega))
    omega
  rw [hmin, filterMap_range_add, hwithin, runFrames, heapPages, List.filterMap_map,
    Function.comp_def, filterMap_range_add, hrest, List.append_nil, List.self_eq_append_right,
    filterMap_range_eq_nil]
  have hwrapped : ∀ {i}, intSpan ≤ i → i < 2 * intSpan →
      pageOffset base i = base + pageSize * i - 2 ^ 32 := fun hi₁ hi₂ ↦ by
    rw [pageOffset_eq hstart hle, Nat.mod_eq_of_lt hi₂, if_neg (not_lt.2 hi₁)]
  refine ⟨fun hnone i hi hi₁ hi₂ ↦ ?_, fun hnot i hi ↦ ?_⟩
  · have hi₃ := hnone (i - a) (by omega)
    rw [Nat.add_sub_cancel' (hspan.trans hi₁),
      h.tableWalk_eq_none_iff (dynamic_pageOffset hstart hle i), hwrapped hi₁ hi₂] at hi₃
    exact hi₃
  · obtain rfl := ha (Or.inr (by omega))
    rw [h.tableWalk_eq_none_iff (dynamic_pageOffset hstart hle _),
      hwrapped (Nat.le_add_right _ _) (by omega)]
    exact hnot _ (by omega) (Nat.le_add_right _ _) (by omega)

/-- In a state in which every frame is owned once, for a run that the heap pointer has passed. -/
theorem MemSystem.Inv.freesRun_iff_freeable {s : MemSystem} {numPages : ℤ} (hinv : s.Inv frames)
    (hstart : mmapKernelHeapStart ≤ base) (hal : base % pageSize = 0)
    (hroom : base + pageSize * numPages.toNat ≤ s.machine.bumps.1) :
    FreesRun s base numPages ↔ Freeable s.machine base numPages.toNat := by
  have hend := hroom.trans hinv.regions.heap_end
  have hle : base ≤ mmapKernelHeapEnd := (Nat.le_add_right _ _).trans hend
  obtain ⟨inSegments, queued, hroles⟩ := hinv.owns
  have hk' : Owns (MMU.freePages s.machine base numPages) s.held frames :=
    hinv.owns.freeRun _ fun i _ ↦ dynamic_pageOffset hstart hle i
  have hdyn : ∀ {v}, Passed s.machine.bumps v → Dynamic v := fun hv ↦
    HeapOrStack.dynamic (Or.inr ⟨hv.1, hv.2.trans_le hinv.regions.heap_end⟩)
  have hpassed : ∀ {i}, i < numPages.toNat → Passed s.machine.bumps (base + pageSize * i) :=
    fun hi ↦ ⟨by omega, by simp only [pageSize] at *; omega⟩
  -- the pages of the run
  have hunreserved : (∀ v ∈ heapPages base numPages.toNat,
        ¬Reserved (MMU.freePages s.machine base numPages) v) ↔
      ∀ i < numPages.toNat, (i < intSpan → leafState s.machine (base + pageSize * i) ≠ .reserved) ∧
        (intSpan ≤ i → leafState s.machine (base + pageSize * i) = .unmapped) := by
    simp only [heapPages, List.forall_mem_map, List.mem_range]
    refine forall₂_congr fun i hi ↦ ?_
    rw [hk'.tableTree.reserved_iff (hdyn (hpassed hi)), not_not, MMU.freePages,
      hroles.leafState_freeRun_page hstart hle hal hi hend]
    split
    · next hlt => simp [PageState.freed_eq_unmapped_iff, hlt, not_le.2 hlt]
    · next hge => simp [hge, not_lt.1 hge]
  -- the frames of the run
  obtain ⟨hroles', -⟩ := hroles.freeRun_round hstart hle hal (min_le_right numPages.toNat _)
  rw [← hroles.freeRun_eq_min hstart hle hal] at hroles'
  have hframes := fun hbeyond ↦
    hroles.owned.tableTree.runFrames_eq_iff (n := numPages.toNat) hstart hend hbeyond
  constructor
  · rintro ⟨hun, ⟨_, _, hfree, hfree'⟩, -⟩ i hi
    have hcond := hunreserved.1 hun
    obtain ⟨rfl, rfl⟩ := hfree.unique hroles.free
    have hsame := List.append_cancel_left (hfree'.unique hroles'.free).2
    refine ⟨(hcond i hi).1, fun hi₁ ↦ ⟨(hcond i hi).2 hi₁, fun hi₂ ↦ ?_⟩⟩
    exact (hframes fun j hj ↦ (hcond j hj).2).1 hsame i hi hi₁ hi₂
  · intro hfreeable
    have hbeyond : ∀ i < numPages.toNat, intSpan ≤ i →
        leafState s.machine (base + pageSize * i) = .unmapped := fun i hi hi₁ ↦
      ((hfreeable i hi).2 hi₁).1
    have hun := hunreserved.2 fun i hi ↦ ⟨(hfreeable i hi).1, hbeyond i hi⟩
    refine ⟨hun, ⟨inSegments, queued, hroles.free, ?_⟩, fun cmds out s' hrun v hv ↦ ?_⟩
    · rw [(hframes hbeyond).2 fun i hi hi₁ ↦ ((hfreeable i hi).2 hi₁).2]
      exact hroles'.free
    · obtain ⟨i, hi, hvi⟩ := List.mem_map.1 hv
      have hv' : Passed s.machine.bumps v := by
        have hpage := hpassed (List.mem_range.1 hi)
        have hptr := hinv.regions.heap_aligned
        simp only [Passed, pageSize] at *
        omega
      have hstate := hun _ hv
      rw [hk'.tableTree.reserved_iff ((dynamic_congr (vpath_div_mul v)).2 (hdyn hv')), not_not,
        leafState_congr (vpath_div_mul v)] at hstate
      have hbumps : (MMU.freePages s.machine base numPages).bumps = s.machine.bumps :=
        MMU.freeRun_bumps base s.machine numPages.toNat
      have hafter : MemSystem.Inv frames
          { s with machine := MMU.freePages s.machine base numPages } := hinv.of_bumps hk' hbumps
      obtain ⟨hinv', -, hkeep⟩ := MemSystem.passed_runTrace hafter
        (show Passed (MMU.freePages s.machine base numPages).bumps v by rw [hbumps]; exact hv') hrun
      refine pageFaultHandler_of_not_reserved ?_
      rw [hinv'.owns.tableTree.reserved_iff (hdyn hv'), not_not]
      exact hkeep hstate

/-- **When `MMU_free_pages` frees its run.** In every state a run can reach after `MMU_init` and
after a call of `MMU_alloc_pages` that returned `base`, whatever happened in between: exactly if no
page of the run is still waiting for its first access, and the run is short enough for the offset of
the loop, or what this leaves out is not in use. -/
theorem freesRun_iff {k₁ : Machine} {idxs : List ℕ} {identityP3 identityP2 : ℕ}
    (hseg : SegmentsWellFormed k.mmu idxs) (hq : k.mmu.freePageHead = 0)
    (hend : ∀ f ∈ k.mmu.segmentPages idxs, f < mmapPhysicalPagesEnd)
    (hinit : MMU.initPaging identityP3 identityP2 k = (0, k₁))
    {before after : List MemCmd} {out out' : List ℕ} {s₁ s₂ s : MemSystem} {numPages : ℤ}
    (hbefore : runTrace MemSystem.step ⟨k₁, [], []⟩ before = some (out, s₁))
    (halloc : s₁.step (.allocPages numPages) = some (base, s₂)) (hne : base ≠ 0)
    (hafter : runTrace MemSystem.step s₂ after = some (out', s)) :
    FreesRun s base numPages ↔ Freeable s.machine base numPages.toNat := by
  have hinv₁ := MemSystem.inv_runTrace (inv_initPaging hseg hq hend hinit) hbefore
  have hinv₂ := MemSystem.inv_step hinv₁ halloc
  have hb := hinv₁.regions
  obtain ⟨hret, hnext⟩ := MMU.allocPages_bump (lt_of_lt_of_le (by decide) hb.heap_start) hb.heap_end
    hb.heap_aligned numPages
  obtain ⟨hbase, rfl⟩ := Prod.mk.inj (Option.some.inj halloc)
  by_cases hroom : 0 < numPages ∧
      s₁.machine.bumps.1 + pageSize * numPages.toNat ≤ mmapKernelHeapEnd
  · rw [if_pos hroom] at hret
    rw [if_pos hroom.1, min_eq_left hroom.2] at hnext
    obtain rfl : s₁.machine.bumps.1 = base := hret.symm.trans hbase
    have hpos : 0 < numPages.toNat := by omega
    -- the last byte of the run has been passed, and stays so
    have hlast : Passed (MMU.allocPages s₁.machine numPages).2.bumps
        (s₁.machine.bumps.1 + pageSize * numPages.toNat - 1) := by
      have hstart := hb.heap_start
      rw [Passed, hnext]
      simp only [pageSize]
      omega
    obtain ⟨hinv, hpassed, -⟩ := MemSystem.passed_runTrace hinv₂ hlast hafter
    have hlt := hpassed.2
    refine hinv.freesRun_iff_freeable hb.heap_start hb.heap_aligned ?_
    simp only [pageSize] at hlt ⊢
    omega
  · rw [if_neg hroom] at hret
    exact absurd (hret.symm.trans hbase).symm hne

/-- Two pages, both touched. -/
theorem freesRun_iff_twoPages :
    ∃ s₂ out s, MemSystem.step ⟨(MMU.initPaging 0x100000 0x101000 (poolOfPages 8)).2, [], []⟩
        (.allocPages 2) = some (mmapKernelHeapStart, s₂) ∧
      runTrace MemSystem.step s₂
        [.pageFault mmapKernelHeapStart, .pageFault (mmapKernelHeapStart + pageSize)] =
          some (out, s) ∧
      (FreesRun s mmapKernelHeapStart 2 ↔ Freeable s.machine mmapKernelHeapStart 2) := by
  have hinit : MMU.initPaging 0x100000 0x101000 (poolOfPages 8) =
      (0, (MMU.initPaging 0x100000 0x101000 (poolOfPages 8)).2) := rfl
  have hret : ((MemSystem.step ⟨(MMU.initPaging 0x100000 0x101000 (poolOfPages 8)).2, [], []⟩
      (.allocPages 2)).bind fun r ↦ (runTrace MemSystem.step r.2
        [.pageFault mmapKernelHeapStart, .pageFault (mmapKernelHeapStart + pageSize)]).map fun _ ↦
          r.1) = some mmapKernelHeapStart := by decide +kernel
  obtain ⟨⟨base, s₂⟩, halloc, hrest⟩ := Option.bind_eq_some_iff.1 hret
  obtain ⟨⟨out, s⟩, hafter, hbase⟩ := Option.map_eq_some_iff.1 hrest
  obtain rfl : base = mmapKernelHeapStart := hbase
  exact ⟨s₂, out, s, halloc, hafter, freesRun_iff
    (segmentsWellFormed_poolOfPages (n := 8) (by decide) (by decide)) rfl (by decide) hinit
    (show runTrace MemSystem.step _ [] = some ([], _) from rfl) halloc (by decide) hafter⟩

/-- **A page that was not touched stays reserved.** Of two pages the first is touched, and both are
freed: an access to the second one is still given a frame. -/
theorem untouched_page_stays_reserved :
    ∃ s₂ out s, MemSystem.step ⟨(MMU.initPaging 0x100000 0x101000 (poolOfPages 8)).2, [], []⟩
        (.allocPages 2) = some (mmapKernelHeapStart, s₂) ∧
      runTrace MemSystem.step s₂ [.pageFault mmapKernelHeapStart] = some (out, s) ∧
      ¬FreesRun s mmapKernelHeapStart 2 ∧
      (ptWalk (pageFaultHandler (MMU.freePages s.machine mmapKernelHeapStart 2)
        (mmapKernelHeapStart + pageSize)) (mmapKernelHeapStart + pageSize)).1 =
          physicalPageDepth := by
  have hret : ((MemSystem.step ⟨(MMU.initPaging 0x100000 0x101000 (poolOfPages 8)).2, [], []⟩
      (.allocPages 2)).bind fun r ↦
        (runTrace MemSystem.step r.2 [.pageFault mmapKernelHeapStart]).map fun t ↦
          (r.1, decide (Reserved (MMU.freePages t.2.machine mmapKernelHeapStart 2)
            (mmapKernelHeapStart + pageSize)),
            (ptWalk (pageFaultHandler (MMU.freePages t.2.machine mmapKernelHeapStart 2)
              (mmapKernelHeapStart + pageSize)) (mmapKernelHeapStart + pageSize)).1)) =
      some (mmapKernelHeapStart, true, physicalPageDepth) := by decide +kernel
  obtain ⟨⟨base, s₂⟩, halloc, hrest⟩ := Option.bind_eq_some_iff.1 hret
  obtain ⟨⟨out, s⟩, hafter, heq⟩ := Option.map_eq_some_iff.1 hrest
  obtain ⟨hbase, hres, hserved⟩ : _ ∧ _ ∧ _ := by simpa only [Prod.mk.injEq] using heq
  obtain rfl : base = mmapKernelHeapStart := hbase
  refine ⟨s₂, out, s, halloc, hafter, fun hfrees ↦ ?_, hserved⟩
  exact hfrees.unreserved _ (List.mem_map_of_mem (List.mem_range.2 (show 1 < 2 by decide)))
    (of_decide_eq_true hres)

end Marimba
