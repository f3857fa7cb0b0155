import Marimba.Memory.PageStates

/-!
# Page tables in use

Runs of the paging code: virtual pages are reserved and freed, page faults arrive, and the frames
that `PT_free` returned or that were allocated directly are freed and written by their holder. A
page fault arrives at any address that the processor does not translate; reserving and freeing is
done outside the identity map, as all callers do, at any address.

`Paging` is the invariant of these runs (`PtSystem.inv_runTrace`).
-/

namespace Marimba

open RadixTree

variable {k k' : Machine} {identityP3 identityP2 : ℕ} {free held frames : List ℕ} {v f : ℕ}

/-- What can happen to the page tables after `MMU_init`. -/
inductive PtCmd where
  | demandAllocate (vaddr : ℕ)
  | pageFault (vaddr : ℕ)
  | free (vaddr : ℕ)
  | allocFrame
  | freeFrame (f : ℕ)
  | writeFrame (f : ℕ) (i : Fin pageTableNumEnts) (w : ℕ)
  | writePage (vaddr w : ℕ)
  deriving DecidableEq, Repr

/-- The machine and the frames that are held by clients. -/
structure PtSystem where
  machine : Machine
  held : List ℕ

instance (v : ℕ) : Decidable (Dynamic v) := inferInstanceAs (Decidable (¬_))

namespace PtSystem

/-- One command with the frame it returns, `0` when it returns none. -/
def step (s : PtSystem) : PtCmd → Option (ℕ × PtSystem)
  | .demandAllocate vaddr =>
    if Dynamic vaddr then some (0, { s with machine := (PT.demandAllocate s.machine vaddr).2 })
    else none
  | .pageFault vaddr =>
    if hwTranslate s.machine vaddr = none then
      some (0, { s with machine := pageFaultHandler s.machine vaddr })
    else none
  | .free vaddr =>
    if Dynamic vaddr then
      let (f, k) := PT.free s.machine vaddr
      some (f, ⟨k, (toPtr f).toList ++ s.held⟩)
    else none
  | .allocFrame =>
    let (f, k) := MMU.allocFrame s.machine
    some (f, ⟨k, (toPtr f).toList ++ s.held⟩)
  | .freeFrame f =>
    if f ∈ s.held then some (0, ⟨MMU.freeFrame s.machine f, s.held.erase f⟩) else none
  | .writeFrame f i w =>
    if f ∈ s.held then some (0, { s with machine := s.machine.store (f + 8 * i) w }) else none
  | .writePage vaddr w =>
    if Dynamic vaddr then
      (tableWalk s.machine (vpath vaddr)).map fun f ↦
        (0, { s with machine := s.machine.store (f + 8 * (vaddr % pageSize / 8)) w })
    else none

end PtSystem

/-! ### Changes that leave the tables alone -/

theorem PlainEntries.congr (hs : SameTables k k') (h : PlainEntries k) : PlainEntries k' := by
  intro p hp t ht i hi
  rw [hs.tableWalk p hp.le] at ht
  rw [hs.entry p hp t ht i hi]
  exact h p hp t ht i hi

namespace Paging

/-- The order in which frames are held is irrelevant. -/
theorem perm {held' : List ℕ} (hperm : held.Perm held')
    (h : Paging identityP3 identityP2 frames k free held) :
    Paging identityP3 identityP2 frames k free held' := by
  obtain ⟨inSegments, queued, heq, hroles⟩ := h.roles
  exact ⟨⟨inSegments, queued, heq, hroles.perm hperm⟩, h.identity, h.plain⟩

/-- A frame is allocated, if there is one. -/
theorem alloc_toList (h : Paging identityP3 identityP2 frames k free held) :
    ∃ free', Paging identityP3 identityP2 frames (MMU.allocFrame k).2 free'
      ((toPtr (MMU.allocFrame k).1).toList ++ held) := by
  rcases hfree : free with - | ⟨g, rest⟩
  · rw [h.alloc_nil hfree]
    exact ⟨free, h⟩
  · obtain ⟨hret, hg, h', -⟩ := h.alloc hfree
    rw [hret, toPtr_of_ne hg]
    exact ⟨rest, h'⟩

/-- A held frame is freed. -/
theorem freeFrame (h : Paging identityP3 identityP2 frames k free (f :: held)) :
    Paging identityP3 identityP2 frames (MMU.freeFrame k f) (free ++ [f]) held := by
  obtain ⟨inSegments, queued, rfl, hroles⟩ := h.roles
  obtain ⟨hroles', hsame⟩ := hroles.freeFrame
  have hf : f ∈ inSegments ++ queued ++ f :: held := by simp
  have hcr3 := hroles.owned.mapped [] (by simp) k.cr3 rfl
  -- only link words of unmapped frames are written
  have hmem : ∀ a, (∀ g ∈ inSegments ++ queued ++ f :: held, a ≠ g) →
      (MMU.freeFrame k f).mem a = k.mem a := fun a ha ↦
    MMU.freeFrame_mem_of_notMem hroles.free (ha f hf) fun hq ↦
      ha a (FrameRoles.mem_of_queued hq) rfl
  refine ⟨⟨inSegments, queued ++ [f], (List.append_assoc _ _ _).symm, hroles'⟩, ?_,
    h.plain.congr hsame⟩
  refine h.identity.congr h.isFrame hsame.cr3 (hmem _ fun g hg he ↦ hcr3.2 (he ▸ hg)) fun a ha ↦ ?_
  refine hmem a fun g hg he ↦ ha g (hroles.owned.unmapped_mem g hg) 0 (by decide) ?_
  rw [he, Nat.mul_zero, Nat.add_zero]

/-- A frame that is no table is written. -/
theorem store (h : Paging identityP3 identityP2 frames k free held) {g i : ℕ}
    (hnot : ∀ p : List ℕ, p.length < physicalPageDepth → tableWalk k p ≠ some g)
    (hg : g ∈ held ∨ ∃ p : List ℕ, p.length ≤ physicalPageDepth ∧ tableWalk k p = some g)
    (hi : i < pageTableNumEnts) (w : ℕ) :
    Paging identityP3 identityP2 frames (k.store (g + 8 * i) w) free held := by
  obtain ⟨inSegments, queued, heq, hroles⟩ := h.roles
  have hgm : g ∈ frames := by
    rcases hg with hm | ⟨p, hp, hw⟩
    · exact hroles.owned.unmapped_mem g (List.mem_append_right _ hm)
    · exact h.mem_frames hp hw
  have hgf := h.isFrame g hgm
  have hother : ∀ a, (∀ j < pageTableNumEnts, a ≠ g + 8 * j) →
      (k.store (g + 8 * i) w).mem a = k.mem a := fun a ha ↦ Function.update_of_ne (ha i hi) _ _
  have hsame : SameTables k (k.store (g + 8 * i) w) :=
    hroles.owned.sameTables_of_frame hgf hnot rfl hother
  refine ⟨⟨inSegments, queued, heq, hroles.store hnot hg hi w⟩, ?_, h.plain.congr hsame⟩
  refine h.identity.congr h.isFrame rfl (hother _ fun j hj he ↦ ?_) fun a ha ↦ hother a (ha g hgm)
  exact hnot [] (by simp) (by rw [← h.tableTree.cr3_frame.eq_of_word hgf hj he]; rfl)

/-- `PT_free` of any page outside the identity map. -/
theorem ptFree_toList (h : Paging identityP3 identityP2 frames k free held) (hv : Dynamic v) :
    Paging identityP3 identityP2 frames (PT.free k v).2 free
      ((toPtr (PT.free k v).1).toList ++ held) := by
  by_cases hal : v % pageSize = 0
  · rcases hf : tableWalk k (vpath v) with - | f
    · rw [PT.free_of_unmapped h.tableTree hv hf]
      exact h
    · obtain ⟨w, hw, hp, rfl⟩ := leafEntry_of_mapped hf
      have hstate : pageMap k (pageOf v) = .mapped (pteGetAddr w) := by
        rw [h.pageMap_pageOf hv, hw, PageState.ofLeaf, PageState.ofEntry, if_pos hp]
      obtain ⟨k', heq, h', -⟩ := h.ptFree hv hal hstate
      have hne := (h.isFrame _ (h.mem_frames (by simp) hf)).2.ne'
      rw [heq, toPtr_of_ne hne]
      exact h'
  · rw [PT.free, if_pos hal]
    exact h

/-- Behind the first gigabyte of the identity map there is no table. -/
theorem pageFaultHandler_of_identity (h : Paging identityP3 identityP2 frames k free held)
    (hv : ¬Dynamic v) (hnone : hwTranslate k v = none) : Marimba.pageFaultHandler k v = k := by
  have hone : hwIndex v 1 ≠ 0 := by
    intro hzero
    rw [hwTranslate, hwLeaf_of_identity h.identity hv, if_pos hzero] at hnone
    cases hnone
  rw [Marimba.pageFaultHandler, h.identity.ptWalk_of_ne h.tableTree.cr3_frame.2.ne' hv hone]
  refine (if_neg (by decide)).trans (if_pos ?_)
  rw [Bool.or_eq_true]
  exact Or.inr rfl

end Paging

/-! ### Runs -/

namespace PtSystem

/-- The invariant, with the free frames left open. -/
def Inv (identityP3 identityP2 : ℕ) (frames : List ℕ) (s : PtSystem) : Prop :=
  ∃ free, Paging identityP3 identityP2 frames s.machine free s.held

variable {s s' : PtSystem} {r : ℕ}

/-- **Every command keeps the invariant.** -/
theorem inv_step (h : s.Inv identityP3 identityP2 frames) {c : PtCmd}
    (hstep : s.step c = some (r, s')) : s'.Inv identityP3 identityP2 frames := by
  obtain ⟨free, h⟩ := h
  cases c with
  | demandAllocate vaddr =>
    obtain ⟨hv, -, rfl⟩ := guarded_eq_some.1 hstep
    obtain ⟨_, _, free', hrun, h', -⟩ := h.demandAllocate hv
    refine ⟨free', ?_⟩
    dsimp only
    rw [hrun]
    exact h'
  | pageFault vaddr =>
    obtain ⟨hnone, -, rfl⟩ := guarded_eq_some.1 hstep
    by_cases hv : Dynamic vaddr
    · obtain ⟨free', h', -⟩ := h.pageFaultHandler hv
      exact ⟨free', h'⟩
    · refine ⟨free, ?_⟩
      dsimp only
      rw [h.pageFaultHandler_of_identity hv hnone]
      exact h
  | free vaddr =>
    obtain ⟨hv, -, rfl⟩ := guarded_eq_some.1 hstep
    exact ⟨free, h.ptFree_toList hv⟩
  | allocFrame =>
    obtain ⟨-, rfl⟩ := Prod.mk.inj (Option.some.inj hstep)
    exact h.alloc_toList
  | freeFrame f =>
    obtain ⟨hf, -, rfl⟩ := guarded_eq_some.1 hstep
    exact ⟨_, (h.perm (List.perm_cons_erase hf)).freeFrame⟩
  | writeFrame f i w =>
    obtain ⟨hf, -, rfl⟩ := guarded_eq_some.1 hstep
    obtain ⟨inSegments, queued, -, hroles⟩ := h.roles
    refine ⟨free, h.store (fun p hp hw ↦ ?_) (Or.inl hf) i.isLt w⟩
    exact (hroles.owned.mapped p hp.le f hw).2 (List.mem_append_right _ hf)
  | writePage vaddr w =>
    obtain ⟨-, f, hf, -, rfl⟩ := guarded_map_eq_some.1 hstep
    refine ⟨free, h.store (fun p hp hw ↦ ?_) (Or.inr ⟨_, by simp, hf⟩) (wordIndex_lt vaddr) w⟩
    exact ne_vpath_of_length hp (h.tableTree.tree p (vpath vaddr) hp.le (by simp) f hw hf)

theorem inv_runTrace {cmds : List PtCmd} {out : List ℕ}
    (h : s.Inv identityP3 identityP2 frames)
    (hrun : runTrace PtSystem.step s cmds = some (out, s')) :
    s'.Inv identityP3 identityP2 frames :=
  invariant_of_runTrace (fun _ _ _ _ hs hstep ↦ inv_step hs hstep) h hrun

end PtSystem

end Marimba
