import Marimba.Foundations.RadixTree
import Marimba.Memory.FrameAllocator

/-!
# Four-level page tables

`arch/x86_64/paging.c`: page-table entries as bit fields of a 64-bit word, the walk that reads them,
and the three operations that write them — `PT_demand_allocate`, which builds the missing tables of
a path and marks its last entry, `page_fault_handler`, which maps a frame at a marked entry, and
`PT_free`, which unmaps one.

The tables form a radix tree in physical memory (`child`), and `ptWalk_spec` says that the C walk is
the walk of that tree along the four indices of the virtual address (`vpath`).

**The identity map is masked out.** Entry `0` of the root refers to the static tables through which
the kernel reaches physical memory. They are not allocated frames, and no heap or stack address has
index `0` at the top level, so `child` leaves this one entry out; `Dynamic` is the condition on a
virtual address that keeps a walk away from it.
-/

namespace Marimba

open RadixTree

/-! ### Page-table entries -/

/-- Bit `i` of a word. -/
def getBit (w i : ℕ) : Bool := decide (w / 2 ^ i % 2 = 1)

/-- Assign bit `i` of a word, as an assignment to a one-bit field does. -/
def setBit (w i : ℕ) (b : Bool) : ℕ := w - w / 2 ^ i % 2 * 2 ^ i + if b then 2 ^ i else 0

namespace PTE

/-- `present`, bit 0. -/
def present (w : ℕ) : Bool := getBit w 0

/-- `demand_allocate`, bit 9. -/
def demandAllocate (w : ℕ) : Bool := getBit w 9

/-- `address`, the 40 bits from bit 12 on. -/
def address (w : ℕ) : ℕ := w / 2 ^ 12 % 2 ^ 40

end PTE

/-- `pte_set_addr`: the word written is the address itself, with `present` and `writable` set. -/
def pteSetAddr (addr : ℕ) : ℕ := setBit (setBit addr 0 true) 1 true

/-- `pte_get_addr`. The operand of the shift is a bit-field of 40 bits, and so is the result: of the
address the bits from 40 on are lost. -/
def pteGetAddr (w : ℕ) : ℕ := PTE.address w * 2 ^ 12 % 2 ^ 40

/-- `init_empty_page_table`: clear the 512 entries. -/
def initEmptyPageTable (k : Machine) (pt : ℕ) : Machine :=
  { k with mem := fun a ↦
      if pt ≤ a ∧ a < pt + 8 * pageTableNumEnts ∧ (a - pt) % 8 = 0 then 0 else k.mem a }

@[simp] theorem initEmptyPageTable_mmu (k : Machine) (pt : ℕ) :
    (initEmptyPageTable k pt).mmu = k.mmu := rfl

/-! ### The walk -/

/-- `PAGE_TABLE_DEPTH`, the depth of the last page table. -/
abbrev pageTableDepth : ℕ := 3

/-- `PHYSICAL_PAGE_DEPTH`, the depth at which a walk has reached the frame. -/
abbrev physicalPageDepth : ℕ := 4

/-- `pt_offset_for_depth`. -/
def ptOffsetForDepth (vaddr depth : ℕ) : ℕ :=
  if depth = physicalPageDepth then vaddr &&& 0xFFF
  else (vaddr >>> (12 + 9 * (pageTableDepth - depth))) &&& 0x1FF

/-- `pt_get_next_pte`: the entry for `vaddr` in the table that `pt` refers to, or in the root table
when `pt` is null. -/
def ptGetNextPte (k : Machine) (pt vaddr depth : ℕ) : ℕ :=
  (if pt = 0 then k.cr3 else pteGetAddr (k.mem pt)) + 8 * ptOffsetForDepth vaddr depth

/-- The loop of `pt_walk`, with `n` levels to go: the depth of the first entry that is not present
and a pointer to it, or the physical depth and the place in the frame. -/
def ptWalkFrom (k : Machine) (vaddr : ℕ) : (n i curr : ℕ) → ℕ × ℕ
  | 0, i, curr => (physicalPageDepth, ptGetNextPte k curr vaddr i)
  | n + 1, i, curr =>
    let curr' := ptGetNextPte k curr vaddr i
    if PTE.present (k.mem curr') then ptWalkFrom k vaddr n (i + 1) curr' else (i, curr')

/-- `pt_walk`. -/
def ptWalk (k : Machine) (vaddr : ℕ) : ℕ × ℕ := ptWalkFrom k vaddr physicalPageDepth 0 0

/-! ### The operations -/

/-- `page_fault_handler` for a fault on `reqAddr` (the value of `cr2`). -/
def pageFaultHandler (k : Machine) (reqAddr : ℕ) : Machine :=
  let (depth, ent) := ptWalk k reqAddr
  if depth = physicalPageDepth then k
  else if !PTE.demandAllocate (k.mem ent) || depth != pageTableDepth then k
  else
    let (frame, k') := MMU.allocFrame k
    if frame = 0 then k' else k'.store ent (pteSetAddr frame)

namespace PT

/-- The loop of `PT_demand_allocate`, with `n` tables missing below `ent`. -/
def demandAllocateFrom (vaddr : ℕ) : (n depth ent : ℕ) → Machine → Int × Machine
  | 0, _, ent, k => (0, k.store ent (setBit (k.mem ent) 9 true))
  | n + 1, depth, ent, k =>
    let (newPt, k₁) := MMU.allocFrame k
    if newPt = 0 then (-1, k₁)
    else
      let k₂ := (initEmptyPageTable k₁ newPt).store ent (pteSetAddr newPt)
      demandAllocateFrom vaddr n (depth + 1) (ptGetNextPte k₂ ent vaddr (depth + 1)) k₂

/-- `PT_demand_allocate`. -/
def demandAllocate (k : Machine) (vaddr : ℕ) : Int × Machine :=
  let (depth, ent) := ptWalk k vaddr
  if depth = physicalPageDepth then (-1, k)
  else demandAllocateFrom vaddr (pageTableDepth - depth) depth ent k

/-- The loop of `PT_free`: the last entry of the path, if all its entries are present. -/
def freeWalk (k : Machine) (vaddr : ℕ) : (n i curr : ℕ) → Option ℕ
  | 0, _, curr => some curr
  | n + 1, i, curr =>
    let curr' := ptGetNextPte k curr vaddr i
    if PTE.present (k.mem curr') then freeWalk k vaddr n (i + 1) curr' else none

/-- `PT_free`: unmap a page and return its frame; null when the address is not page-aligned or the
page is not mapped. -/
def free (k : Machine) (vaddr : ℕ) : ℕ × Machine :=
  if vaddr % pageSize ≠ 0 then (0, k)
  else
    match freeWalk k vaddr physicalPageDepth 0 0 with
    | none => (0, k)
    | some curr =>
      let k' := k.store curr (setBit (setBit (k.mem curr) 0 false) 9 false)
      (ptGetNextPte k' curr vaddr physicalPageDepth, k')

end PT

/-! ### Bit-field arithmetic -/

theorem present_pteSetAddr {f : ℕ} : PTE.present (pteSetAddr f) = true := by
  simp only [PTE.present, getBit, pteSetAddr, setBit, decide_eq_true_eq, if_true]
  omega

/-- A frame address survives being stored in an entry. -/
theorem pteGetAddr_pteSetAddr {f : ℕ} (hf : f % pageSize = 0) (hlt : f < mmapPhysicalPagesEnd) :
    pteGetAddr (pteSetAddr f) = f := by
  simp only [pteGetAddr, PTE.address, pteSetAddr, setBit, if_true, pageSize, mmapPhysicalPagesEnd,
    p4PteAddresses] at *
  omega

theorem pteGetAddr_aligned (w : ℕ) : pteGetAddr w % pageSize = 0 := by
  simp only [pteGetAddr, pageSize]
  omega

theorem present_setBit_nine (w : ℕ) (b : Bool) :
    PTE.present (setBit w 9 b) = PTE.present w := by
  refine decide_eq_decide.2 ?_
  simp only [setBit]
  split <;> omega

theorem demandAllocate_setBit_nine (w : ℕ) (b : Bool) :
    PTE.demandAllocate (setBit w 9 b) = b := by
  simp only [PTE.demandAllocate, getBit, setBit]
  cases b
  · simp only [Bool.false_eq_true, if_false, decide_eq_false_iff_not]
    omega
  · simp only [if_true, decide_eq_true_eq]
    omega

theorem pteGetAddr_setBit_nine (w : ℕ) (b : Bool) : pteGetAddr (setBit w 9 b) = pteGetAddr w := by
  simp only [pteGetAddr, PTE.address, setBit]
  split <;> omega

theorem present_setBit_zero (w : ℕ) (b : Bool) : PTE.present (setBit w 0 b) = b := by
  simp only [PTE.present, getBit, setBit]
  cases b
  · simp only [Bool.false_eq_true, if_false, decide_eq_false_iff_not]
    omega
  · simp only [if_true, decide_eq_true_eq]
    omega

theorem pteGetAddr_setBit_zero (w : ℕ) (b : Bool) : pteGetAddr (setBit w 0 b) = pteGetAddr w := by
  simp only [pteGetAddr, PTE.address, setBit]
  split <;> omega

/-- The entry of the next depth, when the entry at `a` has just been made to refer to a frame. -/
theorem ptGetNextPte_store {k : Machine} {a f v d : ℕ} (ha : a ≠ 0) (hf : f % pageSize = 0)
    (hlt : f < mmapPhysicalPagesEnd) :
    ptGetNextPte (k.store a (pteSetAddr f)) a v d = f + 8 * ptOffsetForDepth v d := by
  rw [ptGetNextPte, if_neg ha, Machine.store_mem, Function.update_self,
    pteGetAddr_pteSetAddr hf hlt]

/-! ### Virtual addresses as paths -/

theorem ptOffsetForDepth_lt {v d : ℕ} (hd : d ≠ physicalPageDepth) :
    ptOffsetForDepth v d < pageTableNumEnts := by
  rw [ptOffsetForDepth, if_neg hd]
  exact lt_of_le_of_lt Nat.and_le_right (by norm_num [pageTableNumEnts])

/-- The offset at a table depth, as a quotient. -/
theorem ptOffsetForDepth_eq {v d : ℕ} (hd : d ≠ physicalPageDepth) :
    ptOffsetForDepth v d = v / 2 ^ (12 + 9 * (pageTableDepth - d)) % pageTableNumEnts := by
  rw [ptOffsetForDepth, if_neg hd, Nat.shiftRight_eq_div_pow]
  exact Nat.and_two_pow_sub_one_eq_mod _ 9

theorem ptOffsetForDepth_physical (v : ℕ) :
    ptOffsetForDepth v physicalPageDepth = v % pageSize := by
  rw [ptOffsetForDepth, if_pos rfl]
  exact Nat.and_two_pow_sub_one_eq_mod _ 12

/-- The four table indices of a virtual address. -/
def vpath (v : ℕ) : List ℕ := (List.range physicalPageDepth).map (ptOffsetForDepth v)

theorem vpath_eq (v : ℕ) : vpath v =
    [ptOffsetForDepth v 0, ptOffsetForDepth v 1, ptOffsetForDepth v 2, ptOffsetForDepth v 3] := rfl

@[simp] theorem vpath_length (v : ℕ) : (vpath v).length = 4 := by simp [vpath]

theorem length_take_vpath (v : ℕ) :
    ((vpath v).take pageTableDepth).length = pageTableDepth := rfl

/-- One more index of the path. -/
theorem take_vpath_succ {v d : ℕ} (hd : d < physicalPageDepth) :
    (vpath v).take (d + 1) = (vpath v).take d ++ [ptOffsetForDepth v d] := by
  rw [List.take_add_one, vpath, List.getElem?_map, List.getElem?_range hd]
  rfl

/-- The whole path is the path to the last table and one more index. -/
theorem vpath_eq_take_concat (v : ℕ) :
    vpath v = (vpath v).take pageTableDepth ++ [ptOffsetForDepth v pageTableDepth] := by
  rw [← take_vpath_succ (by decide), List.take_of_length_le (by simp)]

/-- A virtual address whose walk stays out of the identity map. -/
def Dynamic (v : ℕ) : Prop := ptOffsetForDepth v 0 ≠ 0

/-- Addresses from `2 ^ 39` on, up to the 48 bits of the walk, are dynamic. -/
theorem dynamic_of_le {v : ℕ} (hle : 2 ^ 39 ≤ v) (hlt : v < 2 ^ 48) : Dynamic v := by
  rw [Dynamic, ptOffsetForDepth_eq (by decide)]
  simp only [pageTableDepth, pageTableNumEnts]
  omega

/-- The number of a word in a page. -/
theorem wordIndex_lt (v : ℕ) : v % pageSize / 8 < pageTableNumEnts := by
  simp only [pageSize, pageTableNumEnts]
  omega

/-- The path is made of the 36 bits of a virtual address above the offset in the page. -/
theorem vpath_eq_iff_mod {v w : ℕ} :
    vpath v = vpath w ↔ v / pageSize % 2 ^ 36 = w / pageSize % 2 ^ 36 := by
  rw [vpath_eq, vpath_eq]
  simp only [List.cons.injEq, and_true, ptOffsetForDepth_eq (show 0 ≠ physicalPageDepth by decide),
    ptOffsetForDepth_eq (show 1 ≠ physicalPageDepth by decide),
    ptOffsetForDepth_eq (show 2 ≠ physicalPageDepth by decide),
    ptOffsetForDepth_eq (show 3 ≠ physicalPageDepth by decide), pageTableDepth,
    pageTableNumEnts, pageSize]
  omega

/-- Two virtual addresses below `2 ^ 48` on the same path are on the same page. -/
theorem vpath_inj {v w : ℕ} (hv : v < 2 ^ 48) (hw : w < 2 ^ 48) :
    vpath v = vpath w ↔ v / pageSize = w / pageSize := by
  have hpage : ∀ {u : ℕ}, u < 2 ^ 48 → u / pageSize % 2 ^ 36 = u / pageSize := fun hu ↦
    Nat.mod_eq_of_lt (Nat.div_lt_of_lt_mul hu)
  rw [vpath_eq_iff_mod, hpage hv, hpage hw]

/-! ### The tables as a radix tree -/

/-- What entry `i` of table `t` refers to, the identity map of the root left out. -/
def child (k : Machine) (t i : ℕ) : Option ℕ :=
  if i < pageTableNumEnts ∧ ¬(t = k.cr3 ∧ i = 0) ∧ PTE.present (k.mem (t + 8 * i)) then
    some (pteGetAddr (k.mem (t + 8 * i)))
  else none

/-- What a path of indices reaches from the root table. -/
def tableWalk (k : Machine) (p : List ℕ) : Option ℕ := walk (child k) k.cr3 p

/-- The walk reads the memory and the root register, nothing else. -/
theorem tableWalk_of_eq {k k' : Machine} (hmem : k'.mem = k.mem) (hcr3 : k'.cr3 = k.cr3) :
    tableWalk k' = tableWalk k := by
  have hchild : child k' = child k := by
    funext t i
    simp only [child, hmem, hcr3]
  funext p
  rw [tableWalk, hchild, hcr3, tableWalk]

@[simp] theorem tableWalk_allocFrame (k : Machine) :
    tableWalk (MMU.allocFrame k).2 = tableWalk k :=
  tableWalk_of_eq (MMU.allocFrame_mem k) (MMU.allocFrame_cr3 k)

theorem child_eq_some_iff {k : Machine} {t i c : ℕ} :
    child k t i = some c ↔ i < pageTableNumEnts ∧ ¬(t = k.cr3 ∧ i = 0) ∧
      PTE.present (k.mem (t + 8 * i)) ∧ pteGetAddr (k.mem (t + 8 * i)) = c := by
  unfold child
  split
  · next h => simp [h]
  · next h =>
    exact ⟨fun e ↦ (by cases e), fun ⟨h₁, h₂, h₃, _⟩ ↦ absurd ⟨h₁, h₂, h₃⟩ h⟩

/-- The shape of the tables that the walks of the C code rely on. -/
structure TableTree (k : Machine) : Prop where
  tree : IsTree (child k) k.cr3 physicalPageDepth
  cr3_frame : IsFrame k.cr3
  /-- Every table is a frame, in particular not null. -/
  frame : ∀ p : List ℕ, p.length ≤ physicalPageDepth → ∀ t, tableWalk k p = some t → IsFrame t

namespace TableTree

variable {k : Machine} {v d t : ℕ}

/-- Along a dynamic address, the walk meets no entry of the identity map. -/
theorem not_identity (h : TableTree k) (hv : Dynamic v)
    (ht : tableWalk k ((vpath v).take d) = some t) : ¬(t = k.cr3 ∧ ptOffsetForDepth v d = 0) := by
  rintro ⟨rfl, hzero⟩
  -- the root is reached by the empty path only, where a dynamic address has a nonzero index
  have hnil := h.tree _ [] (by simp) (by simp) _ ht rfl
  have hd₀ : d = 0 := by
    have := congrArg List.length hnil
    simp only [List.length_take, vpath_length, List.length_nil] at this
    omega
  exact hv (hd₀ ▸ hzero)

/-- Along a dynamic address, an entry is masked only if it is not present. -/
theorem child_offset (h : TableTree k) (hv : Dynamic v) (hd : d < physicalPageDepth)
    (ht : tableWalk k ((vpath v).take d) = some t) :
    child k t (ptOffsetForDepth v d) =
      if PTE.present (k.mem (t + 8 * ptOffsetForDepth v d)) then
        some (pteGetAddr (k.mem (t + 8 * ptOffsetForDepth v d)))
      else none := by
  have hlt := ptOffsetForDepth_lt (v := v) (Nat.ne_of_lt hd)
  have hmask := h.not_identity hv ht
  unfold child
  by_cases hp : PTE.present (k.mem (t + 8 * ptOffsetForDepth v d)) = true
  · rw [if_pos ⟨hlt, hmask, hp⟩, if_pos hp]
  · rw [if_neg fun hc ↦ hp hc.2.2, if_neg hp]

/-- One level of the walk. -/
theorem tableWalk_take_succ (h : TableTree k) (hv : Dynamic v) (hd : d < physicalPageDepth)
    (ht : tableWalk k ((vpath v).take d) = some t) :
    tableWalk k ((vpath v).take (d + 1)) =
      if PTE.present (k.mem (t + 8 * ptOffsetForDepth v d)) then
        some (pteGetAddr (k.mem (t + 8 * ptOffsetForDepth v d)))
      else none := by
  rw [take_vpath_succ hd, tableWalk, walk_concat, show walk (child k) k.cr3 _ = some t from ht,
    Option.bind_some, h.child_offset hv hd ht]

/-- The pointer of a table entry is not null. -/
theorem entry_ne_zero (h : TableTree k) (ht : tableWalk k ((vpath v).take d) = some t) (i : ℕ) :
    t + 8 * i ≠ 0 := by
  have := (h.frame _ (by simp) t ht).2
  omega

end TableTree

/-- The two outcomes of a walk: it stops at the first entry that is not present, or it reaches the
frame of the page. -/
inductive WalkResult (k : Machine) (v : ℕ) : ℕ × ℕ → Prop
  | stop {d t : ℕ} (hd : d < physicalPageDepth) (ht : tableWalk k ((vpath v).take d) = some t)
      (hp : PTE.present (k.mem (t + 8 * ptOffsetForDepth v d)) = false) :
      WalkResult k v (d, t + 8 * ptOffsetForDepth v d)
  | frame {f : ℕ} (hf : tableWalk k (vpath v) = some f) :
      WalkResult k v (physicalPageDepth, f + 8 * ptOffsetForDepth v physicalPageDepth)

/-- The loop of `pt_walk`, started at a table of the path. The induction is on the number of levels
to go; `curr` is the entry that refers to the table `t`. -/
theorem ptWalkFrom_spec {k : Machine} {v : ℕ} (h : TableTree k) (hv : Dynamic v) :
    ∀ (n : ℕ) {i curr t : ℕ}, i + n = physicalPageDepth →
      tableWalk k ((vpath v).take i) = some t →
      (if curr = 0 then k.cr3 else pteGetAddr (k.mem curr)) = t →
      WalkResult k v (ptWalkFrom k v n i curr)
  | 0, i, curr, t, hi, ht, hcurr => by
    obtain rfl : i = physicalPageDepth := hi
    rw [List.take_of_length_le (by simp)] at ht
    rw [ptWalkFrom, ptGetNextPte, hcurr]
    exact WalkResult.frame ht
  | n + 1, i, curr, t, hi, ht, hcurr => by
    have hlt : i < physicalPageDepth := by omega
    rw [ptWalkFrom, ptGetNextPte, hcurr]
    have hnext := h.tableWalk_take_succ hv hlt ht
    by_cases hp : PTE.present (k.mem (t + 8 * ptOffsetForDepth v i)) = true
    · simp only [hp, if_true] at hnext ⊢
      refine ptWalkFrom_spec h hv n (by omega) hnext ?_
      rw [if_neg (h.entry_ne_zero ht _)]
    · simp only [hp]
      exact WalkResult.stop hlt ht (Bool.not_eq_true _ ▸ hp)

/-- **The C walk is the walk of the tree.** -/
theorem ptWalk_spec {k : Machine} {v : ℕ} (h : TableTree k) (hv : Dynamic v) :
    WalkResult k v (ptWalk k v) :=
  ptWalkFrom_spec h hv physicalPageDepth (by omega) rfl rfl

/-- The walk of `PT_free`: the last entry of the path when the page is mapped, nothing otherwise. -/
theorem freeWalk_spec {k : Machine} {v : ℕ} (h : TableTree k) (hv : Dynamic v) :
    ∀ (n i curr : ℕ) {t : ℕ}, i + (n + 1) = physicalPageDepth →
      tableWalk k ((vpath v).take i) = some t →
      (if curr = 0 then k.cr3 else pteGetAddr (k.mem curr)) = t →
      (∃ t₃, tableWalk k ((vpath v).take pageTableDepth) = some t₃ ∧
        PTE.present (k.mem (t₃ + 8 * ptOffsetForDepth v pageTableDepth)) = true ∧
        PT.freeWalk k v (n + 1) i curr = some (t₃ + 8 * ptOffsetForDepth v pageTableDepth)) ∨
      (tableWalk k (vpath v) = none ∧ PT.freeWalk k v (n + 1) i curr = none)
  | n, i, curr, t, hi, ht, hcurr => by
    have hlt : i < physicalPageDepth := by omega
    have hnext := h.tableWalk_take_succ hv hlt ht
    rw [PT.freeWalk, ptGetNextPte, hcurr]
    by_cases hp : PTE.present (k.mem (t + 8 * ptOffsetForDepth v i)) = true
    · simp only [hp, if_true] at hnext ⊢
      rcases n with - | n
      · obtain rfl : i = pageTableDepth := Nat.succ_injective hi
        exact Or.inl ⟨t, ht, hp, by rw [PT.freeWalk]⟩
      · refine freeWalk_spec h hv n (i + 1) _ (by omega) hnext ?_
        rw [if_neg (h.entry_ne_zero ht _)]
    · simp only [hp] at hnext ⊢
      refine Or.inr ⟨?_, rfl⟩
      -- a path that stops early reaches nothing
      have hsplit : vpath v = (vpath v).take (i + 1) ++ (vpath v).drop (i + 1) :=
        (List.take_append_drop _ _).symm
      rw [hsplit, tableWalk, walk_append, show walk (child k) k.cr3 _ = none from hnext,
        Option.bind_none]

/-- The word that `PT_free` leaves in an entry. -/
def clearedEntry (w : ℕ) : ℕ := setBit (setBit w 0 false) 9 false

theorem present_clearedEntry (w : ℕ) : PTE.present (clearedEntry w) = false := by
  rw [clearedEntry, present_setBit_nine, present_setBit_zero]

/-- `PT_free` of a page that is not mapped does nothing. -/
theorem PT.free_of_unmapped {k : Machine} {v : ℕ} (h : TableTree k) (hv : Dynamic v)
    (hnone : tableWalk k (vpath v) = none) : PT.free k v = (0, k) := by
  unfold PT.free
  split
  · rfl
  · rcases freeWalk_spec h hv 3 0 0 rfl rfl rfl with ⟨t, ht, hp, -⟩ | ⟨-, hw⟩
    · have hnext := h.tableWalk_take_succ hv (d := pageTableDepth) (by decide) ht
      rw [take_vpath_succ (by decide), ← vpath_eq_take_concat, hnone, if_pos hp] at hnext
      cases hnext
    · rw [hw]

/-- `PT_free` of a mapped page clears its entry and returns its frame. -/
theorem PT.free_of_mapped {k : Machine} {v f : ℕ} (h : TableTree k) (hv : Dynamic v)
    (hal : v % pageSize = 0) (hf : tableWalk k (vpath v) = some f) :
    ∃ t, tableWalk k ((vpath v).take pageTableDepth) = some t ∧
      PT.free k v = (f, k.store (t + 8 * ptOffsetForDepth v pageTableDepth)
        (clearedEntry (k.mem (t + 8 * ptOffsetForDepth v pageTableDepth)))) := by
  rcases freeWalk_spec h hv 3 0 0 rfl rfl rfl with ⟨t, ht, hp, hw⟩ | ⟨hnone, -⟩
  · refine ⟨t, ht, ?_⟩
    have hnext := h.tableWalk_take_succ hv (d := pageTableDepth) (by decide) ht
    rw [take_vpath_succ (by decide), ← vpath_eq_take_concat, hf, if_pos hp,
      Option.some.injEq] at hnext
    have hne := h.entry_ne_zero ht (ptOffsetForDepth v pageTableDepth)
    rw [PT.free, if_neg (by simpa using hal), hw]
    refine Prod.ext ?_ rfl
    show ptGetNextPte _ _ v physicalPageDepth = f
    rw [ptGetNextPte, if_neg hne, Machine.store_mem, Function.update_self, pteGetAddr_setBit_nine,
      pteGetAddr_setBit_zero, ← hnext, ptOffsetForDepth_physical, hal, Nat.mul_zero, Nat.add_zero]
  · rw [hf] at hnone
    cases hnone

end Marimba
