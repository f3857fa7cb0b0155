import Marimba.Memory.MemorySystem

/-!
# Exclusive ownership of frames

The ownership invariant, read back in the words of its purpose: from `MMU_init` on, **every frame of
the initial free segments has exactly one role**. It is free, at one place of the segments or of the
queue; or it is the root table; or it is a table, or a mapped page, that exactly one present entry
refers to; or a client holds it.

`MemSystem.Inv` carries the proof. It remains to establish it at the end of `MMU_init`
(`inv_initPaging`) and to read roles off it (`FrameRoles.existsUnique_role`). A role names the
*place* of the frame, a position in a list or the address of an entry, so that a unique role
excludes a frame from being twice in the queue or mapped by two entries.

The identity map, through which the kernel itself reaches every frame, is not a role.
-/

namespace Marimba

open RadixTree

variable {k : Machine} {inSegments queued held frames : List ℕ} {f : ℕ}

/-! ### Roles -/

/-- The place of a frame. Tables and leaves are named by the address of the entry that refers to
them. -/
inductive Role where
  | freeSegment (n : ℕ)
  | freeQueue (n : ℕ)
  | root
  | table (pte : ℕ)
  | leaf (pte : ℕ)
  | held (n : ℕ)

/-- An entry of depth `d`, at address `pte`, that is present and refers to `f`. -/
def RefersTo (k : Machine) (d pte f : ℕ) : Prop :=
  ∃ (p : List ℕ) (t i : ℕ), p.length = d ∧ tableWalk k p = some t ∧ child k t i = some f ∧
    pte = t + 8 * i

/-- What it means for a frame to have a role, read off the state. -/
def MemSystem.HasRole (s : MemSystem) (f : ℕ) : Role → Prop
  | .freeSegment n => ∃ idxs,
      Chain (fun i ↦ (s.machine.mmu.freeSegments i).next) s.machine.mmu.freeSegmentHead idxs ∧
        (s.machine.mmu.segmentPages idxs)[n]? = some f
  | .freeQueue n => ∃ queue,
      Chain (fun g ↦ toPtr (s.machine.mem g)) (toPtr s.machine.mmu.freePageHead) queue ∧
        queue[n]? = some f
  | .root => s.machine.cr3 = f
  | .table pte => ∃ d < pageTableDepth, RefersTo s.machine d pte f
  | .leaf pte => RefersTo s.machine pageTableDepth pte f
  | .held n => s.held[n]? = some f

/-- The role of the frame at a position of the list of unmapped frames. -/
def unmappedRole (inSegments queued : List ℕ) (n : ℕ) : Role :=
  if n < inSegments.length then .freeSegment n
  else if n < (inSegments ++ queued).length then .freeQueue (n - inSegments.length)
  else .held (n - (inSegments ++ queued).length)

/-- The role of what a path reaches. -/
def mappedRole (k : Machine) (p : List ℕ) : Role :=
  match p.getLast? with
  | none => .root
  | some i =>
    let pte := (tableWalk k p.dropLast).getD 0 + 8 * i
    if p.length = physicalPageDepth then .leaf pte else .table pte

section Roles

variable {s : MemSystem} (h : FrameRoles s.machine inSegments queued s.held frames)

theorem mappedRole_concat {p : List ℕ} {t i : ℕ} (ht : tableWalk k p = some t) :
    mappedRole k (p ++ [i]) =
      if p.length = pageTableDepth then .leaf (t + 8 * i) else .table (t + 8 * i) := by
  simp [mappedRole, ht, physicalPageDepth, pageTableDepth]

include h

/-- Every position of the list of unmapped frames is a role. -/
theorem FrameRoles.hasRole_unmapped {n : ℕ}
    (hn : (inSegments ++ queued ++ s.held)[n]? = some f) :
    s.HasRole f (unmappedRole inSegments queued n) := by
  obtain ⟨idxs, hchain, -, hpages⟩ := h.free.segments
  unfold unmappedRole
  split
  · next hlt =>
    rw [List.append_assoc, List.getElem?_append_left hlt] at hn
    exact ⟨idxs, hchain, by rw [MMUState.segmentPages, ← hpages, hn]⟩
  · next hge =>
    split
    · next hlt =>
      rw [List.getElem?_append_left hlt, List.getElem?_append_right (by omega)] at hn
      exact ⟨queued, h.free.queue, hn⟩
    · rw [List.getElem?_append_right (by omega)] at hn
      exact hn

omit h in
/-- Every path is a role of what it reaches. -/
theorem hasRole_mapped {p : List ℕ} (hp : p.length ≤ physicalPageDepth)
    (hf : tableWalk s.machine p = some f) : s.HasRole f (mappedRole s.machine p) := by
  rcases p.eq_nil_or_concat' with rfl | ⟨q, i, rfl⟩
  · exact Option.some.inj hf
  · obtain ⟨t, ht, hc⟩ := walk_concat_eq_some hf
    rw [List.length_append, List.length_singleton] at hp
    rw [mappedRole_concat ht]
    split
    · next hq => exact ⟨q, t, i, hq, ht, hc, rfl⟩
    · next hq =>
      exact ⟨q.length, lt_of_le_of_ne (Nat.le_of_succ_le_succ hp) hq, q, t, i, rfl, ht, hc, rfl⟩

/-- Conversely, every role is the role of a position or of a path. -/
theorem FrameRoles.position_or_path {r : Role} (hr : s.HasRole f r) :
    (∃ n, (inSegments ++ queued ++ s.held)[n]? = some f ∧ r = unmappedRole inSegments queued n) ∨
      ∃ p : List ℕ, p.length ≤ physicalPageDepth ∧ tableWalk s.machine p = some f ∧
        r = mappedRole s.machine p := by
  cases r with
  | freeSegment n =>
    obtain ⟨idxs, hchain, hn⟩ := hr
    obtain ⟨idxs', hchain', -, hpages⟩ := h.free.segments
    obtain rfl := hchain.unique hchain'
    replace hn : inSegments[n]? = some f := hpages ▸ hn
    have hlt := (List.getElem?_eq_some_iff.1 hn).1
    refine Or.inl ⟨n, ?_, by simp [unmappedRole, hlt]⟩
    rw [List.append_assoc, List.getElem?_append_left hlt, hn]
  | freeQueue n =>
    obtain ⟨queue, hchain, hn⟩ := hr
    obtain rfl := hchain.unique h.free.queue
    have hlt := (List.getElem?_eq_some_iff.1 hn).1
    refine Or.inl ⟨inSegments.length + n, ?_, by simp [unmappedRole, hlt]⟩
    rw [List.getElem?_append_left (by simpa using hlt), List.getElem?_append_right (by omega),
      Nat.add_sub_cancel_left, hn]
  | held n =>
    refine Or.inl ⟨(inSegments ++ queued).length + n, ?_, ?_⟩
    · rw [List.getElem?_append_right (by omega), Nat.add_sub_cancel_left]
      exact hr
    · rw [unmappedRole, if_neg (by rw [List.length_append]; omega), if_neg (by omega),
        Nat.add_sub_cancel_left]
  | root => exact Or.inr ⟨[], by simp, congrArg some hr, rfl⟩
  | table pte =>
    obtain ⟨d, hd, p, t, i, hp, ht, hc, rfl⟩ := hr
    refine Or.inr ⟨p ++ [i], ?_, ?_, ?_⟩
    · rw [List.length_append, List.length_singleton, hp]
      exact Nat.le_of_lt (Nat.succ_lt_succ hd)
    · rw [tableWalk, walk_concat]
      exact Option.bind_eq_some_iff.2 ⟨t, ht, hc⟩
    · rw [mappedRole_concat ht, if_neg (by omega)]
  | leaf pte =>
    obtain ⟨p, t, i, hp, ht, hc, rfl⟩ := hr
    refine Or.inr ⟨p ++ [i], ?_, ?_, ?_⟩
    · rw [List.length_append, List.length_singleton, hp]
    · rw [tableWalk, walk_concat]
      exact Option.bind_eq_some_iff.2 ⟨t, ht, hc⟩
    · rw [mappedRole_concat ht, if_pos hp]

/-- **The invariant gives every frame exactly one role.** Positions are unique because no unmapped
frame is listed twice, paths because the tables are a tree, and no frame has both. -/
theorem FrameRoles.existsUnique_role (hf : f ∈ frames) : ∃! r : Role, s.HasRole f r := by
  have hnot : ∀ {n : ℕ} {p : List ℕ}, (inSegments ++ queued ++ s.held)[n]? = some f →
      p.length ≤ physicalPageDepth → tableWalk s.machine p ≠ some f := fun hn hp hw ↦
    (h.owned.mapped _ hp f hw).2 (List.mem_of_getElem? hn)
  rcases h.owned.cover f hf with hm | ⟨p, hp, hw⟩
  · obtain ⟨n, hn⟩ := List.mem_iff_getElem?.1 hm
    refine ⟨_, h.hasRole_unmapped hn, fun r hr ↦ ?_⟩
    rcases h.position_or_path hr with ⟨m, hm', rfl⟩ | ⟨p, hp, hw, -⟩
    · have hlt := (List.getElem?_eq_some_iff.1 hm').1
      rw [(List.getElem?_inj hlt h.owned.nodup).1 (hm'.trans hn.symm)]
    · exact absurd hw (hnot hn hp)
  · refine ⟨_, hasRole_mapped hp hw, fun r hr ↦ ?_⟩
    rcases h.position_or_path hr with ⟨n, hn, -⟩ | ⟨q, hq, hw', rfl⟩
    · exact absurd hw (hnot hn hp)
    · rw [h.owned.tree p q hp hq f hw hw']

end Roles

/-! ### The end of `MMU_init` -/

/-- A root table without entries outside the identity map reaches itself only. -/
theorem tableWalk_of_empty_root (hempty : ∀ i, child k k.cr3 i = none) {p : List ℕ} :
    tableWalk k p = some f ↔ p = [] ∧ k.cr3 = f := by
  rcases p with - | ⟨i, p⟩
  · simp [tableWalk]
  · simp [tableWalk, walk, hempty]

/-- A held frame becomes the root of an empty tree of tables. -/
theorem owned_of_empty_root {unmapped : List ℕ} (hempty : ∀ i, child k k.cr3 i = none)
    (hnodup : (k.cr3 :: unmapped).Nodup)
    (hframe : ∀ f ∈ k.cr3 :: unmapped, IsFrame f ∧ f < mmapPhysicalPagesEnd) :
    Owned k unmapped (k.cr3 :: unmapped) where
  tree := by
    intro p q _ _ f hp hq
    rw [((tableWalk_of_empty_root hempty).1 hp).1, ((tableWalk_of_empty_root hempty).1 hq).1]
  frame := hframe
  nodup := (List.nodup_cons.1 hnodup).2
  unmapped_mem := fun f hf ↦ List.mem_cons_of_mem _ hf
  mapped := by
    intro p _ f hp
    obtain ⟨-, rfl⟩ := (tableWalk_of_empty_root hempty).1 hp
    exact ⟨List.mem_cons_self, (List.nodup_cons.1 hnodup).1⟩
  cover := by
    intro f hf
    rcases List.mem_cons.1 hf with rfl | hf
    · exact Or.inr ⟨[], by simp, rfl⟩
    · exact Or.inl hf

theorem PT.initIdentityP2_mmu (identityP2 : ℕ) (k : Machine) : ∀ n : ℕ,
    (PT.initIdentityP2 identityP2 n k).mmu = k.mmu
  | 0 => rfl
  | n + 1 => PT.initIdentityP2_mmu identityP2 k n

/-- Building the identity map touches the memory only. -/
theorem PT.pageTableInit_mmu (identityP3 identityP2 : ℕ) (k : Machine) (root : ℕ) :
    (PT.pageTableInit identityP3 (PT.init identityP3 identityP2 k) root).mmu = k.mmu := by
  rw [PT.pageTableInit, PT.init, Machine.store_mmu, initEmptyPageTable_mmu,
    PT.initIdentityP2_mmu, Machine.store_mmu, initEmptyPageTable_mmu]

/-- The new root table has no entry but the identity map. -/
theorem PT.child_pageTableInit (identityP3 root : ℕ) (k : Machine) (i : ℕ) :
    child (PT.change (PT.pageTableInit identityP3 k root) root) root i = none := by
  refine if_neg fun ⟨hi, hmask, hp⟩ ↦ ?_
  have hi₀ : i ≠ 0 := fun h₀ ↦ hmask ⟨rfl, h₀⟩
  have hzero : (PT.pageTableInit identityP3 k root).mem (root + 8 * i) = 0 := by
    rw [PT.pageTableInit, Machine.store_mem, Function.update_of_ne (by omega)]
    refine if_pos ?_
    simp only [pageTableNumEnts] at hi ⊢
    omega
  rw [show (PT.change (PT.pageTableInit identityP3 k root) root).mem (root + 8 * i) = 0 from hzero]
    at hp
  exact absurd hp (by decide)

/-- With an empty queue, the free frames are those of the segments, whatever the memory holds. -/
theorem FreeFrames.of_mmu {k' : Machine} (h : FreeFrames k inSegments []) (hmmu : k'.mmu = k.mmu) :
    FreeFrames k' inSegments [] where
  segments := by
    rw [hmmu]
    exact h.segments
  queue := by
    rw [hmmu]
    exact h.queue
  tail := fun h ↦ absurd rfl h

section Init

variable {k₁ : Machine} {idxs : List ℕ} {identityP3 identityP2 : ℕ}

/-- **`MMU_init` establishes the invariant**, from well-formed segments and no freed frame. -/
theorem inv_initPaging (hseg : SegmentsWellFormed k.mmu idxs) (hq : k.mmu.freePageHead = 0)
    (hend : ∀ f ∈ k.mmu.segmentPages idxs, f < mmapPhysicalPagesEnd)
    (hinit : MMU.initPaging identityP3 identityP2 k = (0, k₁)) :
    MemSystem.Inv (k.mmu.segmentPages idxs) ⟨k₁, [], []⟩ := by
  have hnodup := hseg.segmentPages_nodup
  have hframe : ∀ f ∈ k.mmu.segmentPages idxs, IsFrame f ∧ f < mmapPhysicalPagesEnd := fun f hf ↦
    ⟨hseg.isFrame hf, hend f hf⟩
  have hfree₀ := hseg.freeFrames hq
  generalize k.mmu.segmentPages idxs = frames at *
  have hfree : FreeFrames ((k.setHeap mmapKernelHeapStart).setStack (mmapKernelStacksEnd - 8))
      frames [] := ⟨hfree₀.segments, hfree₀.queue, hfree₀.tail⟩
  rw [MMU.initPaging] at hinit
  rcases frames with - | ⟨root, rest⟩
  · rw [MMU.allocFrame_empty hfree] at hinit
    exact absurd (congrArg Prod.fst hinit) (by simp)
  · obtain ⟨hret, hrest⟩ := MMU.allocFrame_segment hfree
    have hroot : root ≠ 0 := (hframe root List.mem_cons_self).1.2.ne'
    simp only [hret, hroot, if_false] at hinit
    obtain ⟨-, rfl⟩ := Prod.mk.inj hinit
    refine ⟨⟨rest, [], ?_, ?_⟩, ?_⟩
    · refine (show FreeFrames ((MMU.allocFrame _).2.setPageTable root) rest [] from
        ⟨hrest.segments, hrest.queue, hrest.tail⟩).of_mmu ?_
      dsimp only
      rw [PT.change_mmu, PT.pageTableInit_mmu]
    · rw [List.append_nil, List.append_nil]
      exact owned_of_empty_root (PT.child_pageTableInit identityP3 root _) hnodup hframe
    · dsimp only
      rw [Machine.bumps, PT.change_mmu, PT.pageTableInit_mmu, ← Machine.bumps,
        Machine.setPageTable_bumps, MMU.allocFrame_bumps, Machine.setStack_bumps,
        Machine.setHeap_nextKernelHeapVaddr]
      exact ⟨le_rfl, by decide, by decide, by decide, 0, by decide⟩

/-- **Exclusive ownership.** After `MMU_init` on well-formed segments, whatever sequence of calls,
page faults and client writes follows, every frame of the segments has exactly one role. -/
theorem frame_has_one_role (hseg : SegmentsWellFormed k.mmu idxs) (hq : k.mmu.freePageHead = 0)
    (hend : ∀ f ∈ k.mmu.segmentPages idxs, f < mmapPhysicalPagesEnd)
    (hinit : MMU.initPaging identityP3 identityP2 k = (0, k₁)) {cmds : List MemCmd}
    {out : List ℕ} {s : MemSystem}
    (hrun : runTrace MemSystem.step ⟨k₁, [], []⟩ cmds = some (out, s)) :
    ∀ f ∈ k.mmu.segmentPages idxs, ∃! r : Role, s.HasRole f r := by
  intro f hf
  have hinv := MemSystem.inv_runTrace (inv_initPaging hseg hq hend hinit) hrun
  obtain ⟨inSegments, queued, hroles⟩ := hinv.owns
  exact hroles.existsUnique_role hf

end Init

/-- A pool of eight pages, in a run that maps a heap page and holds a frame. -/
theorem frame_has_one_role_eightPages :
    ∃ out s, runTrace MemSystem.step ⟨(MMU.initPaging 0 0 (poolOfPages 8)).2, [], []⟩
        [.allocPage, .pageFault mmapKernelHeapStart, .writePage mmapKernelHeapStart 7, .allocFrame,
          .freePage mmapKernelHeapStart] = some (out, s) ∧
      ∀ f ∈ (poolOfPages 8).mmu.segmentPages [0], ∃! r : Role, s.HasRole f r := by
  have hsome : (runTrace MemSystem.step ⟨(MMU.initPaging 0 0 (poolOfPages 8)).2, [], []⟩
      [.allocPage, .pageFault mmapKernelHeapStart, .writePage mmapKernelHeapStart 7, .allocFrame,
        .freePage mmapKernelHeapStart]).isSome := by decide +kernel
  obtain ⟨⟨out, s⟩, hrun⟩ := Option.isSome_iff_exists.1 hsome
  refine ⟨out, s, hrun, ?_⟩
  exact frame_has_one_role (segmentsWellFormed_poolOfPages (by decide) (by decide)) rfl
    (by decide) rfl hrun

end Marimba
