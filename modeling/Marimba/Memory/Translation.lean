import Marimba.Memory.Roles

/-!
# What the processor makes of the page tables

The walk of the C code treats every present entry as a table. The processor does not: a present
entry of the second-level table with `huge_page` set is the end of its walk, a frame of 2 MiB.
`hwLeaf` is the processor's walk down to the entry that decides about a page, and the two readings
of that entry are the physical address (`hwTranslate`) and the **state of the page** (`pageState`):
unmapped, reserved for the first access, or mapped to a frame.

Nor does the processor cut addresses: `pte_get_addr` returns the lower 28 bits of the `address`
field, the processor goes by all 40 (`PTE.physAddr`). An entry that both read alike, and that is no
huge page, is **plain**.

`IdentityMap` is the part of the tables that no operation changes: entry `0` of the root, the static
third-level table behind it and the 512 huge pages of the static second-level table. Outside it
all entries are plain (`PlainEntries`), so there the processor's walk is the walk of the radix tree
(`hwLeaf_of_dynamic`); inside it every page is mapped to itself (`hwLeaf_of_identity`).
-/

namespace Marimba

open RadixTree

/-! ### The processor's walk -/

/-- `huge_page`, bit 7. -/
def PTE.hugePage (w : ℕ) : Bool := getBit w 7

/-- The physical address in an entry, as the processor takes it. -/
def PTE.physAddr (w : ℕ) : ℕ := PTE.address w * 2 ^ 12

/-- `HUGE_PAGE_FRAME_SIZE`. -/
abbrev hugePageFrameSize : ℕ := 0x200000

/-- The index that the processor takes in a table of depth `d`: nine bits of the address. -/
def hwIndex (v d : ℕ) : ℕ := v / 2 ^ (39 - 9 * d) % 512

/-- The end of the processor's walk: an entry above the last table is not present, or a second-level
entry is a huge page, or there is an entry of a last table. -/
inductive HwLeaf where
  | absent
  | huge (w : ℕ)
  | entry (w : ℕ)
  deriving DecidableEq, Repr

/-- The processor's walk down to the entry of a page. -/
def hwLeaf (k : Machine) (v : ℕ) : HwLeaf :=
  let e₀ := k.mem (k.cr3 + 8 * hwIndex v 0)
  if !PTE.present e₀ then .absent
  else
    let e₁ := k.mem (PTE.physAddr e₀ + 8 * hwIndex v 1)
    if !PTE.present e₁ then .absent
    else
      let e₂ := k.mem (PTE.physAddr e₁ + 8 * hwIndex v 2)
      if !PTE.present e₂ then .absent
      else if PTE.hugePage e₂ then .huge e₂
      else .entry (k.mem (PTE.physAddr e₂ + 8 * hwIndex v 3))

/-- The base of a huge page. -/
def hugePageBase (w : ℕ) : ℕ := PTE.physAddr w / hugePageFrameSize * hugePageFrameSize

/-- The physical address of a virtual one, if there is a present path to it. -/
def hwTranslate (k : Machine) (v : ℕ) : Option ℕ :=
  match hwLeaf k v with
  | .absent => none
  | .huge w => some (hugePageBase w + v % hugePageFrameSize)
  | .entry w => if PTE.present w then some (PTE.physAddr w + v % pageSize) else none

/-- The state of a virtual page. -/
inductive PageState where
  | unmapped
  | reserved
  | mapped (frame : ℕ)
  deriving DecidableEq, Repr

/-- The state that an entry of a last table gives its page, with the frame that the code takes from
it: that of the processor if the entry is plain. -/
def PageState.ofEntry (w : ℕ) : PageState :=
  if PTE.present w then .mapped (pteGetAddr w)
  else if PTE.demandAllocate w then .reserved
  else .unmapped

/-- The state of the page of an address. -/
def pageState (k : Machine) (v : ℕ) : PageState :=
  match hwLeaf k v with
  | .absent => .unmapped
  | .huge w => .mapped (hugePageBase w + v % hugePageFrameSize / pageSize * pageSize)
  | .entry w => .ofEntry w

theorem hwIndex_eq {v d : ℕ} (hd : d < physicalPageDepth) :
    hwIndex v d = ptOffsetForDepth v d := by
  rw [ptOffsetForDepth_eq hd.ne, hwIndex]
  congr 3
  simp only [physicalPageDepth, pageTableDepth] at *
  omega

/-! ### Bit 7 -/

theorem hugePage_pteSetAddr {f : ℕ} (hf : f % pageSize = 0) :
    PTE.hugePage (pteSetAddr f) = false := by
  simp only [PTE.hugePage, getBit, pteSetAddr, setBit, if_true, decide_eq_false_iff_not,
    pageSize] at *
  omega

theorem hugePage_setBit_nine (w : ℕ) (b : Bool) :
    PTE.hugePage (setBit w 9 b) = PTE.hugePage w := by
  refine decide_eq_decide.2 ?_
  simp only [setBit]
  split <;> omega

theorem hugePage_setBit_zero (w : ℕ) (b : Bool) :
    PTE.hugePage (setBit w 0 b) = PTE.hugePage w := by
  refine decide_eq_decide.2 ?_
  simp only [setBit]
  split <;> omega

/-! ### Entries that the processor and the C code read alike -/

theorem physAddr_setBit_nine (w : ℕ) (b : Bool) :
    PTE.physAddr (setBit w 9 b) = PTE.physAddr w := by
  simp only [PTE.physAddr, PTE.address, setBit]
  split <;> omega

theorem physAddr_setBit_zero (w : ℕ) (b : Bool) :
    PTE.physAddr (setBit w 0 b) = PTE.physAddr w := by
  simp only [PTE.physAddr, PTE.address, setBit]
  split <;> omega

/-- No huge page, and no address bits that `pte_get_addr` loses. -/
structure PTE.Plain (w : ℕ) : Prop where
  small : PTE.hugePage w = false
  addr : PTE.physAddr w = pteGetAddr w

namespace PTE.Plain

theorem zero : PTE.Plain 0 := ⟨rfl, rfl⟩

theorem pteSetAddr {f : ℕ} (hf : f % pageSize = 0) (hlt : f < mmapPhysicalPagesEnd) :
    PTE.Plain (pteSetAddr f) := by
  refine ⟨hugePage_pteSetAddr hf, ?_⟩
  rw [pteGetAddr_pteSetAddr hf hlt]
  simp only [PTE.physAddr, PTE.address, Marimba.pteSetAddr, setBit, if_true, pageSize,
    mmapPhysicalPagesEnd, p4PteAddresses] at *
  omega

theorem setBit_nine {w : ℕ} (h : PTE.Plain w) (b : Bool) : PTE.Plain (setBit w 9 b) :=
  ⟨by rw [hugePage_setBit_nine, h.small], by
    rw [physAddr_setBit_nine, pteGetAddr_setBit_nine, h.addr]⟩

theorem setBit_zero {w : ℕ} (h : PTE.Plain w) (b : Bool) : PTE.Plain (setBit w 0 b) :=
  ⟨by rw [hugePage_setBit_zero, h.small], by
    rw [physAddr_setBit_zero, pteGetAddr_setBit_zero, h.addr]⟩

theorem clearedEntry {w : ℕ} (h : PTE.Plain w) : PTE.Plain (clearedEntry w) :=
  (h.setBit_zero false).setBit_nine false

end PTE.Plain

/-- The entry of a huge page of the identity map. -/
def identityEntry (i : ℕ) : ℕ := setBit (pteSetAddr (i * hugePageFrameSize)) 7 true

theorem identityEntry_bits {i : ℕ} (hi : i < pageTableNumEnts) :
    PTE.present (identityEntry i) = true ∧ PTE.hugePage (identityEntry i) = true ∧
      PTE.physAddr (identityEntry i) = i * hugePageFrameSize ∧
      pteGetAddr (identityEntry i) = i * hugePageFrameSize := by
  simp only [identityEntry, PTE.present, PTE.hugePage, getBit, PTE.physAddr, pteGetAddr,
    PTE.address, pteSetAddr, setBit, if_true, decide_eq_true_eq, hugePageFrameSize,
    pageTableNumEnts] at *
  omega

theorem hugePageBase_identityEntry {i : ℕ} (hi : i < pageTableNumEnts) :
    hugePageBase (identityEntry i) = i * hugePageFrameSize := by
  rw [hugePageBase, (identityEntry_bits hi).2.2.1]
  simp only [hugePageFrameSize]
  omega

/-! ### The tables outside the identity map -/

variable {k k' : Machine} {v d e : ℕ}

/-- All entries of the tables are plain. -/
def PlainEntries (k : Machine) : Prop :=
  ∀ p : List ℕ, p.length < physicalPageDepth → ∀ t, tableWalk k p = some t →
    ∀ i < pageTableNumEnts, PTE.Plain (k.mem (t + 8 * i))

/-- Below a path that reaches nothing there is nothing. -/
theorem tableWalk_take_none (hle : d ≤ e) (hnone : tableWalk k ((vpath v).take d) = none) :
    tableWalk k ((vpath v).take e) = none := by
  have hsplit := List.take_append_drop d ((vpath v).take e)
  rw [List.take_take, min_eq_left hle] at hsplit
  rw [← hsplit, tableWalk, walk_append, show walk (child k) k.cr3 _ = none from hnone,
    Option.bind_none]

/-- The state of a page, from its entry in a last table. -/
def PageState.ofLeaf : Option ℕ → PageState
  | none => .unmapped
  | some w => .ofEntry w

/-- **Outside the identity map** the processor walks the tree of tables. -/
theorem hwLeaf_of_dynamic (h : TableTree k) (hplain : PlainEntries k) (hv : Dynamic v) :
    hwLeaf k v = match leafEntry k v with
      | none => .absent
      | some w => .entry w := by
  have h₀ : tableWalk k ((vpath v).take 0) = some k.cr3 := rfl
  have h₁ := h.tableWalk_take_succ hv (by decide) h₀
  -- the addresses that the processor takes are those of the tree
  have haddr : ∀ {d t : ℕ}, d < physicalPageDepth → tableWalk k ((vpath v).take d) = some t →
      PTE.Plain (k.mem (t + 8 * ptOffsetForDepth v d)) := fun hd ht ↦
    hplain _ (by rw [List.length_take, vpath_length]; exact min_lt_of_left_lt hd) _ ht _
      (ptOffsetForDepth_lt hd.ne)
  have ha₀ := (haddr (by decide) h₀).addr
  rw [hwLeaf]
  simp only [hwIndex_eq (v := v) (show 0 < physicalPageDepth by decide),
    hwIndex_eq (v := v) (show 1 < physicalPageDepth by decide),
    hwIndex_eq (v := v) (show 2 < physicalPageDepth by decide),
    hwIndex_eq (v := v) (show 3 < physicalPageDepth by decide)]
  have hnone : ∀ {d : ℕ}, d ≤ pageTableDepth → tableWalk k ((vpath v).take d) = none →
      leafEntry k v = none := fun hd hw ↦ by
    rw [leafEntry, tableWalk_take_none hd hw, Option.map_none]
  split at h₁
  · next hp₀ =>
    have h₂ := h.tableWalk_take_succ hv (by decide) h₁
    have ha₁ := (haddr (by decide) h₁).addr
    split at h₂
    · next hp₁ =>
      have h₃ := h.tableWalk_take_succ hv (by decide) h₂
      obtain ⟨hsmall, ha₂⟩ := haddr (by decide) h₂
      split at h₃
      · next hp₂ =>
        rw [leafEntry, h₃, Option.map_some]
        simp only [ha₀, ha₁, ha₂, hp₀, hp₁, hp₂, hsmall, Bool.not_true, Bool.false_eq_true,
          if_false]
      · next hp₂ =>
        rw [hnone le_rfl h₃]
        simp only [ha₀, ha₁, hp₀, hp₁, hp₂, Bool.not_true, Bool.not_false, Bool.false_eq_true,
          if_false, if_true]
    · next hp₁ =>
      rw [hnone (by decide) h₂]
      simp only [ha₀, hp₀, hp₁, Bool.not_true, Bool.not_false, Bool.false_eq_true, if_false,
        if_true]
  · next hp₀ =>
    rw [hnone (by decide) h₁]
    simp only [hp₀, Bool.not_false, if_true]

theorem pageState_of_dynamic (h : TableTree k) (hplain : PlainEntries k) (hv : Dynamic v) :
    pageState k v = .ofLeaf (leafEntry k v) := by
  rw [pageState, hwLeaf_of_dynamic h hplain hv]
  rcases leafEntry k v with - | w <;> rfl

/-! ### The identity map -/

/-- The identity map: two static tables outside the frames `frames`, reached from entry `0` of the
root. -/
structure IdentityMap (identityP3 identityP2 : ℕ) (frames : List ℕ) (k : Machine) : Prop where
  p3_frame : IsFrame identityP3 ∧ identityP3 < mmapPhysicalPagesEnd
  p2_frame : IsFrame identityP2 ∧ identityP2 < mmapPhysicalPagesEnd
  p3_static : identityP3 ∉ frames
  p2_static : identityP2 ∉ frames
  root : k.mem k.cr3 = pteSetAddr identityP3
  third : ∀ i < pageTableNumEnts,
    k.mem (identityP3 + 8 * i) = if i = 0 then pteSetAddr identityP2 else 0
  second : ∀ i < pageTableNumEnts, k.mem (identityP2 + 8 * i) = identityEntry i

section Identity

variable {identityP3 identityP2 : ℕ} {frames : List ℕ}
  (h : IdentityMap identityP3 identityP2 frames k)

include h

/-- Writes into the words of frames, the first entry of the root excepted, leave it alone. -/
theorem IdentityMap.congr (hframe : ∀ f ∈ frames, IsFrame f) (hcr3 : k'.cr3 = k.cr3)
    (hroot : k'.mem k.cr3 = k.mem k.cr3)
    (hother : ∀ a, (∀ f ∈ frames, ∀ i < pageTableNumEnts, a ≠ f + 8 * i) → k'.mem a = k.mem a) :
    IdentityMap identityP3 identityP2 frames k' where
  p3_frame := h.p3_frame
  p2_frame := h.p2_frame
  p3_static := h.p3_static
  p2_static := h.p2_static
  root := by rw [hcr3, hroot, h.root]
  third := by
    intro i hi
    rw [hother _ fun f hf j hj he ↦ ?_, h.third i hi]
    exact h.p3_static ((entry_inj h.p3_frame.1 (hframe f hf) hi hj he).1 ▸ hf)
  second := by
    intro i hi
    rw [hother _ fun f hf j hj he ↦ ?_, h.second i hi]
    exact h.p2_static ((entry_inj h.p2_frame.1 (hframe f hf) hi hj he).1 ▸ hf)

/-- **Inside the identity map** the processor meets a huge page in the first gigabyte, and nothing
behind it. -/
theorem hwLeaf_of_identity (hv : ¬Dynamic v) :
    hwLeaf k v = if hwIndex v 1 = 0 then .huge (identityEntry (hwIndex v 2)) else .absent := by
  have hzero : hwIndex v 0 = 0 := by
    rw [hwIndex_eq (by decide)]
    exact not_not.1 hv
  have hlt : ∀ d, hwIndex v d < pageTableNumEnts := fun d ↦ Nat.mod_lt _ (by decide)
  have hphys : ∀ {p : ℕ}, IsFrame p ∧ p < mmapPhysicalPagesEnd →
      PTE.physAddr (pteSetAddr p) = p := fun hp ↦
    (PTE.Plain.pteSetAddr hp.1.1 hp.2).addr.trans (pteGetAddr_pteSetAddr hp.1.1 hp.2)
  rw [hwLeaf, hzero]
  simp only [Nat.mul_zero, Nat.add_zero, h.root, present_pteSetAddr, Bool.not_true,
    Bool.false_eq_true, if_false, hphys h.p3_frame, h.third _ (hlt 1)]
  split
  · obtain ⟨hpres, hhuge, -⟩ := identityEntry_bits (hlt 2)
    simp only [present_pteSetAddr, hphys h.p2_frame, h.second _ (hlt 2), hpres, hhuge,
      Bool.not_true, Bool.false_eq_true, if_false, if_true]
  · rfl

/-- The walk of the C code there: an entry of the static third-level table is not present. -/
theorem IdentityMap.ptWalk_of_ne (hcr3 : k.cr3 ≠ 0) (hv : ¬Dynamic v) (hne : hwIndex v 1 ≠ 0) :
    ptWalk k v = (1, identityP3 + 8 * hwIndex v 1) := by
  have hzero : ptOffsetForDepth v 0 = 0 := not_not.1 hv
  have hlt : hwIndex v 1 < pageTableNumEnts := Nat.mod_lt _ (by decide)
  rw [ptWalk, ptWalkFrom, ptGetNextPte, if_pos rfl, hzero, Nat.mul_zero, Nat.add_zero, h.root]
  simp only [present_pteSetAddr, if_true]
  rw [ptWalkFrom, ptGetNextPte, if_neg hcr3, h.root,
    pteGetAddr_pteSetAddr h.p3_frame.1.1 h.p3_frame.2, ← hwIndex_eq (by decide)]
  simp only [h.third _ hlt, hne, if_false]
  rfl

/-- The walk of the C code takes the huge page for a table: it goes on to the word at the index of
the address in the first page of that huge page. -/
theorem IdentityMap.ptWalk_of_eq (hcr3 : k.cr3 ≠ 0) (hv : ¬Dynamic v) (hone : hwIndex v 1 = 0) :
    ptWalk k v =
      let p := hwIndex v 2 * hugePageFrameSize + 8 * hwIndex v 3
      if PTE.present (k.mem p) then
        (physicalPageDepth, (if p = 0 then k.cr3 else pteGetAddr (k.mem p)) + 8 * (v % pageSize))
      else (pageTableDepth, p) := by
  have hzero : ptOffsetForDepth v 0 = 0 := not_not.1 hv
  have hlt : ∀ d, hwIndex v d < pageTableNumEnts := fun d ↦ Nat.mod_lt _ (by decide)
  have h₃ : k.mem identityP3 = pteSetAddr identityP2 := h.third 0 (by decide)
  obtain ⟨hpres, -, -, haddr⟩ := identityEntry_bits (hlt 2)
  rw [ptWalk, ptWalkFrom, ptGetNextPte, if_pos rfl, hzero, Nat.mul_zero, Nat.add_zero, h.root]
  simp only [present_pteSetAddr, if_true]
  rw [ptWalkFrom, ptGetNextPte, if_neg hcr3, h.root,
    pteGetAddr_pteSetAddr h.p3_frame.1.1 h.p3_frame.2, ← hwIndex_eq (by decide), hone, Nat.mul_zero,
    Nat.add_zero, h₃]
  simp only [present_pteSetAddr, if_true]
  rw [ptWalkFrom, ptGetNextPte, if_neg h.p3_frame.1.2.ne', h₃,
    pteGetAddr_pteSetAddr h.p2_frame.1.1 h.p2_frame.2, ← hwIndex_eq (by decide),
    h.second _ (hlt 2)]
  simp only [hpres, if_true]
  have hne : identityP2 + 8 * hwIndex v 2 ≠ 0 := by
    have := h.p2_frame.1.2
    omega
  rw [ptWalkFrom, ptGetNextPte, if_neg hne, h.second _ (hlt 2), haddr, ← hwIndex_eq (by decide)]
  simp only [ptWalkFrom, ptGetNextPte, ← ptOffsetForDepth_physical]

end Identity

/-! ### The tables after `MMU_init` -/

/-- A table of the identity map: a page of its own. -/
structure StaticTable (frames : List ℕ) (p : ℕ) : Prop where
  frame : IsFrame p
  lt : p < mmapPhysicalPagesEnd
  notMem : p ∉ frames

/-- The loop over the second-level table. -/
theorem PT.initIdentityP2_mem (identityP2 : ℕ) (k : Machine) : ∀ n : ℕ,
    (∀ i < n, (PT.initIdentityP2 identityP2 n k).mem (identityP2 + 8 * i) = identityEntry i) ∧
      ∀ a, (∀ i < n, a ≠ identityP2 + 8 * i) → (PT.initIdentityP2 identityP2 n k).mem a = k.mem a
  | 0 => ⟨fun i hi ↦ absurd hi (Nat.not_lt_zero i), fun _ _ ↦ rfl⟩
  | n + 1 => by
    obtain ⟨hset, hother⟩ := PT.initIdentityP2_mem identityP2 k n
    rw [PT.initIdentityP2, Machine.store_mem]
    refine ⟨fun i hi ↦ ?_, fun a ha ↦ ?_⟩
    · rcases (Nat.le_of_lt_succ hi).lt_or_eq with hlt | rfl
      · rw [Function.update_of_ne (by omega)]
        exact hset i hlt
      · exact Function.update_self ..
    · rw [Function.update_of_ne (ha n (Nat.lt_succ_self n))]
      exact hother a fun i hi ↦ ha i (Nat.lt_succ_of_lt hi)

/-- Clearing a table leaves the entries of another one alone. -/
theorem initEmptyPageTable_mem_of_ne {t u i : ℕ} (ht : IsFrame t) (hu : IsFrame u) (hne : u ≠ t)
    (hi : i < pageTableNumEnts) : (initEmptyPageTable k t).mem (u + 8 * i) = k.mem (u + 8 * i) := by
  refine if_neg fun ⟨h₁, h₂, h₃⟩ ↦ hne ?_
  have heq : u + 8 * i = t + 8 * ((u + 8 * i - t) / 8) := by omega
  refine (entry_inj hu ht hi ?_ heq).1
  simp only [pageTableNumEnts] at h₂ ⊢
  omega

theorem initEmptyPageTable_mem_self {t i : ℕ} (hi : i < pageTableNumEnts) :
    (initEmptyPageTable k t).mem (t + 8 * i) = 0 := by
  refine if_pos ?_
  simp only [pageTableNumEnts] at hi ⊢
  omega

section Init

variable {identityP3 identityP2 root : ℕ} {frames : List ℕ} (h₃ : StaticTable frames identityP3)
  (h₂ : StaticTable frames identityP2) (hne : identityP3 ≠ identityP2) (hroot : root ∈ frames)
  (hframe : IsFrame root)

include h₃ h₂ hne hroot hframe

/-- **`PT_init` and `PT_page_table_init` build the identity map.** -/
theorem identityMap_init (k : Machine) :
    IdentityMap identityP3 identityP2 frames
      (PT.change (PT.pageTableInit identityP3 (PT.init identityP3 identityP2 k) root) root) := by
  have hroot₃ : identityP3 ≠ root := fun he ↦ h₃.notMem (he ▸ hroot)
  have hroot₂ : identityP2 ≠ root := fun he ↦ h₂.notMem (he ▸ hroot)
  -- the static tables are not touched once they are built
  have hkeep : ∀ {u i : ℕ} (k' : Machine), IsFrame u → u ≠ root → i < pageTableNumEnts →
      (PT.change (PT.pageTableInit identityP3 k' root) root).mem (u + 8 * i) =
        k'.mem (u + 8 * i) := by
    intro u i k' hu hur hi
    rw [← initEmptyPageTable_mem_of_ne (k := k') hframe hu hur hi]
    exact Function.update_of_ne (fun he ↦ hur (hframe.eq_of_word hu hi he.symm).symm) _ _
  refine ⟨⟨h₃.frame, h₃.lt⟩, ⟨h₂.frame, h₂.lt⟩, h₃.notMem, h₂.notMem, ?_, fun i hi ↦ ?_,
    fun i hi ↦ ?_⟩
  · exact Function.update_self ..
  · rw [hkeep _ h₃.frame hroot₃ hi, PT.init,
      (PT.initIdentityP2_mem identityP2 _ _).2 _ fun j hj he ↦
        hne (entry_inj h₃.frame h₂.frame hi hj he).1, Machine.store_mem]
    split
    · next hi₀ =>
      rw [hi₀]
      exact Function.update_self ..
    · next hi₀ =>
      rw [Function.update_of_ne (by omega)]
      exact initEmptyPageTable_mem_self hi
  · rw [hkeep _ h₂.frame hroot₂ hi, PT.init]
    exact (PT.initIdentityP2_mem identityP2 _ _).1 i hi

omit h₂ hne hroot hframe in
/-- The root table is the only one. -/
theorem plainEntries_init (k : Machine) :
    PlainEntries (PT.change (PT.pageTableInit identityP3 k root) root) := by
  intro p hp t ht i hi
  obtain ⟨-, rfl⟩ := (tableWalk_of_empty_root (PT.child_pageTableInit identityP3 root k)).1 ht
  show PTE.Plain (Function.update (initEmptyPageTable k root).mem root (pteSetAddr identityP3)
    (root + 8 * i))
  rw [Function.update_apply]
  split
  · exact .pteSetAddr h₃.frame.1 h₃.lt
  · rw [initEmptyPageTable_mem_self hi]
    exact .zero

end Init

end Marimba
