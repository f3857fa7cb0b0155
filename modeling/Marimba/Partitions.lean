import Marimba.DeviceFiles
import Marimba.Foundations.Word
import Marimba.Strings
import Mathlib.Data.Finset.Basic
import Mathlib.Data.List.TakeWhile

/-!
# The partitions of a disk (`FS_process_mbr`)

A master boot record has four slots for partitions; one is used when it has a start. For each used
slot `FS_process_mbr` allocates a device and a buffer of 20 bytes for its name, fills both in and
registers the device. When an allocation fails it returns `-1`, and the device of that slot is freed
if it was allocated. **The devices of the slots before it stay registered and allocated.**

What `kmalloc` answers is given by slot, for the device and for the name. `mbrRight_iff` says that
`FS_process_mbr` does what it should exactly when no allocation fails or the first one that fails
belongs to the first used slot.

The name is put together with `strcpy`, which does not copy the terminating zero, and three stores
behind it. It has to fit: the text, an underscore, a digit and a zero into 20 bytes, and when the
text is empty also what `strcpy` copies of the memory behind it (`NameFits`). Where it does not, the
stores go on behind the buffer; what they do to the other objects there is not followed.
-/

namespace Marimba

open Links

/-- `struct PartBlockDev`, without its list header. `type` is `PARTITION` and `read_block` is
`part_read_block` in all of them. -/
structure PartBlockDev where
  physDev : ℕ
  sectStart : ℕ
  blkSize : ℕ
  totalLen : ℕ
  fsType : ℕ
  name : ℕ
  deriving DecidableEq

/-- The physical device: its address, `blk_size` and `name`. -/
structure PhysDev where
  addr : ℕ
  blkSize : ℕ
  name : ℕ

/-- What `FS_process_mbr` is given: the boot record, the device, and for each slot what `kmalloc`
answers for the device and for its name, `none` for null. -/
structure MbrArgs where
  mbr : ByteMemory
  dev : PhysDev
  new : ℕ → Option ℕ
  buf : ℕ → Option ℕ

namespace MbrArgs

variable (g : MbrArgs)

/-- `boot_sig`. -/
def bootSig : ℕ := g.mbr.half 510

/-- The address of a `struct PartitionRecord` in the boot record. -/
def record (i : ℕ) : ℕ := 446 + 16 * i

/-- `partition_type` of a slot. -/
def partitionType (i : ℕ) : ℕ := (g.mbr.byte (record i + 4)).toNat

/-- `start_lba` of a slot. -/
def startLba (i : ℕ) : ℕ := g.mbr.word (record i + 8)

/-- `num_sectors` of a slot. -/
def numSectors (i : ℕ) : ℕ := g.mbr.word (record i + 12)

/-- The device for a slot, with its name at `q`. -/
def partition (i q : ℕ) : PartBlockDev where
  physDev := g.dev.addr
  sectStart := g.startLba i
  blkSize := g.dev.blkSize
  totalLen := g.numSectors i * g.dev.blkSize % wordSize
  fsType := g.partitionType i
  name := q

end MbrArgs

/-- The registry, the blocks in use, the partition devices and the memory of the names. -/
structure MbrState where
  files : Files
  live : Finset ℕ
  part : ℕ → PartBlockDev
  mem : ByteMemory

namespace MbrState

/-- A block is allocated. -/
def alloc (s : MbrState) (p : ℕ) : MbrState := { s with live := insert p s.live }

/-- `kfree`. -/
def kfree (s : MbrState) (p : ℕ) : MbrState := { s with live := s.live.erase p }

/-- A partition device is written. -/
def setPart (s : MbrState) (p : ℕ) (part : PartBlockDev) : MbrState :=
  { s with part := Function.update s.part p part }

/-- `BLK_register`. -/
def blkRegister (s : MbrState) (p : ℕ) : MbrState := { s with files := (s.files.blkRegister p).2 }

end MbrState

/-- The name of the partition in slot `i`, put together at `q`: at most `c` characters. -/
def partitionName (c q name i : ℕ) (m : ByteMemory) : Option ByteMemory :=
  (strlen m c name).bind fun len ↦
    (strcpy c q name m).map fun m ↦
      ((m.store (q + len) 0x5F).store (q + len + 1) (UInt8.ofNat (0x31 + i))).store (q + len + 2) 0

/-- One round of the loop of `FS_process_mbr`, for slot `i`: whether the loop goes on, and the
state. -/
def processSlot (g : MbrArgs) (c i : ℕ) (s : MbrState) : Option (Bool × MbrState) :=
  if g.startLba i = 0 then some (true, s)
  else
    match g.new i with
    | none => some (false, s)
    | some p =>
      -- the name is still whatever stands in the block
      let s := (s.alloc p).setPart p (g.partition i (s.part p).name)
      match g.buf i with
      | none => some (false, s.kfree p)
      | some q =>
        let s := (s.alloc q).setPart p (g.partition i q)
        (partitionName c q g.dev.name i s.mem).map fun m ↦
          (true, ({ s with mem := m } : MbrState).blkRegister p)

/-- The loop over slots: the result and the state. -/
def processSlots (g : MbrArgs) (c : ℕ) : List ℕ → MbrState → Option (ℤ × MbrState)
  | [], s => some (0, s)
  | i :: is, s =>
    (processSlot g c i s).bind fun r ↦ if r.1 then processSlots g c is r.2 else some (-1, r.2)

/-- `FS_process_mbr`: the result and the state; at most `c` characters of a name. -/
def fsProcessMbr (g : MbrArgs) (c : ℕ) (s : MbrState) : Option (ℤ × MbrState) :=
  if g.bootSig ≠ 0xaa55 then some (-1, s) else processSlots g c (List.range 4) s

/-! ### What it should do -/

namespace MbrArgs

variable (g : MbrArgs)

/-- A slot with a partition. -/
def Used (i : ℕ) : Prop := g.startLba i ≠ 0

instance (i : ℕ) : Decidable (g.Used i) := inferInstanceAs (Decidable (_ ≠ _))

/-- Both allocations for the slot succeed. -/
def Allocates (i : ℕ) : Prop := g.new i ≠ none ∧ g.buf i ≠ none

instance (i : ℕ) : Decidable (g.Allocates i) := inferInstanceAs (Decidable (_ ∧ _))

/-- The device that is allocated for a slot. -/
def newOf (i : ℕ) : ℕ := (g.new i).getD 0

/-- The name that is allocated for a slot. -/
def bufOf (i : ℕ) : ℕ := (g.buf i).getD 0

/-- The used slots. -/
def used (is : List ℕ) : List ℕ := is.filter fun i ↦ g.Used i

/-- The used slots before the first one whose allocations do not both succeed. -/
def done (is : List ℕ) : List ℕ := (g.used is).takeWhile fun i ↦ g.Allocates i

/-- The name of a partition: that of the device, an underscore and the number of the slot. -/
def nameOf (text : List UInt8) (i : ℕ) : List UInt8 := text ++ [0x5F, UInt8.ofNat (0x31 + i)]

/-- The name fits into 20 bytes: the text with what comes behind it, and the `len` characters that
`strcpy` copies. No buffer overlaps what is read. -/
structure NameFits (m : ByteMemory) (text : List UInt8) (len : ℕ) : Prop where
  isName : m.HasString g.dev.name text
  short : text.length + 3 ≤ 20
  copies : Copies m g.dev.name len
  le : len ≤ 20
  apart : ∀ i q, g.buf i = some q → q + 20 ≤ g.dev.name ∨ g.dev.name + len < q

/-- **What `kmalloc` promises**: blocks that are not in use and do not overlap. -/
structure Fresh (is : List ℕ) (s : MbrState) (regs : List ℕ) : Prop where
  new_live : ∀ i ∈ is, ∀ p, g.new i = some p → p ∉ s.live
  buf_live : ∀ i ∈ is, ∀ q, g.buf i = some q → q ∉ s.live
  new_regs : ∀ i ∈ is, ∀ p, g.new i = some p → p ∉ regs
  new_inj : ∀ i j p, g.new i = some p → g.new j = some p → i = j
  new_ne_buf : ∀ i j p, g.new i = some p → g.buf j ≠ some p
  buf_apart : ∀ i j p q, i ≠ j → g.buf i = some p → g.buf j = some q → p + 20 ≤ q ∨ q + 20 ≤ p

end MbrArgs

/-- **What `FS_process_mbr` should do** with a registry of the block devices `regs`: nothing without
the signature; register one device for each used slot, in order; and leave the registry and the
blocks as they were when it fails. -/
structure MbrRight (g : MbrArgs) (s : MbrState) (regs : List ℕ) (r : ℤ × MbrState) : Prop where
  signature : g.bootSig ≠ 0xaa55 → r = (-1, s)
  registers : r.1 = 0 →
    IsRing r.2.files.links .blocks ((regs ++ (g.used (List.range 4)).map g.newOf).map .bdev) ∧
    (∀ i ∈ g.used (List.range 4), r.2.part (g.newOf i) = g.partition i (g.bufOf i)) ∧
    ∀ text len, g.NameFits s.mem text len →
      ∀ i ∈ g.used (List.range 4), r.2.mem.HasString (g.bufOf i) (MbrArgs.nameOf text i)
  restores : r.1 = -1 → r.2.files.links = s.files.links ∧ r.2.live = s.live

/-! ### One slot -/

/-- The state after a slot is done, with its device at `p` and its name at `q`. -/
def MbrArgs.slotDone (g : MbrArgs) (s : MbrState) (i p q : ℕ) (m : ByteMemory) : MbrState where
  files := (s.files.blkRegister p).2
  live := insert q (insert p s.live)
  part := Function.update s.part p (g.partition i q)
  mem := m

section Slot

variable {g : MbrArgs} {c i p q : ℕ} {is regs : List ℕ} {s s' : MbrState} {go : Bool}

/-- **What one round can do**: nothing for a slot that is not used, nothing that lasts when an
allocation fails, and else register a device. -/
theorem processSlot_cases (hlive : ∀ p, g.new i = some p → p ∉ s.live)
    (h : processSlot g c i s = some (go, s')) :
    (¬g.Used i ∧ go = true ∧ s' = s) ∨
    (g.Used i ∧ ¬g.Allocates i ∧ go = false ∧ s'.files = s.files ∧ s'.live = s.live ∧
      s'.mem = s.mem ∧ ∀ x, g.new i ≠ some x → s'.part x = s.part x) ∨
    (g.Used i ∧ ∃ p q m, g.new i = some p ∧ g.buf i = some q ∧
      partitionName c q g.dev.name i s.mem = some m ∧ go = true ∧
      s' = g.slotDone s i p q m) := by
  rw [processSlot] at h
  by_cases hused : g.startLba i = 0
  · rw [if_pos hused] at h
    obtain ⟨rfl, rfl⟩ := Prod.mk.inj (Option.some.inj h)
    exact Or.inl ⟨not_not.2 hused, rfl, rfl⟩
  rw [if_neg hused] at h
  right
  cases hnew : g.new i with
  | none =>
    rw [hnew] at h
    obtain ⟨rfl, rfl⟩ := Prod.mk.inj (Option.some.inj h)
    exact Or.inl ⟨hused, fun ha ↦ ha.1 hnew, rfl, rfl, rfl, rfl, fun _ _ ↦ rfl⟩
  | some p =>
    rw [hnew] at h
    cases hbuf : g.buf i with
    | none =>
      rw [hbuf] at h
      obtain ⟨rfl, rfl⟩ := Prod.mk.inj (Option.some.inj h)
      refine Or.inl ⟨hused, fun ha ↦ ha.2 hbuf, rfl, rfl, ?_, rfl, fun x hx ↦ ?_⟩
      · exact Finset.erase_insert (hlive p hnew)
      · exact Function.update_of_ne (fun he ↦ hx (congrArg some he.symm)) _ _
    | some q =>
      rw [hbuf] at h
      obtain ⟨m, hm, heq⟩ := Option.map_eq_some_iff.1 h
      obtain ⟨rfl, rfl⟩ := Prod.mk.inj heq
      refine Or.inr ⟨hused, p, q, m, rfl, rfl, hm, rfl, ?_⟩
      exact congrArg (fun part ↦ (⟨_, _, part, m⟩ : MbrState)) (Function.update_idem _ _ _)

theorem allocates_of_some (hp : g.new i = some p) (hq : g.buf i = some q) : g.Allocates i := by
  rw [MbrArgs.Allocates, hp, hq]
  exact ⟨Option.some_ne_none p, Option.some_ne_none q⟩

theorem newOf_of_some (hp : g.new i = some p) : g.newOf i = p := by
  rw [MbrArgs.newOf, hp, Option.getD_some]

theorem bufOf_of_some (hq : g.buf i = some q) : g.bufOf i = q := by
  rw [MbrArgs.bufOf, hq, Option.getD_some]

theorem used_cons_of_used (is : List ℕ) (h : g.Used i) : g.used (i :: is) = i :: g.used is :=
  List.filter_cons_of_pos (decide_eq_true h)

theorem used_cons_of_not_used (is : List ℕ) (h : ¬g.Used i) : g.used (i :: is) = g.used is :=
  List.filter_cons_of_neg (by rwa [decide_eq_true_eq])

theorem done_cons_of_not_used (is : List ℕ) (h : ¬g.Used i) : g.done (i :: is) = g.done is := by
  rw [MbrArgs.done, used_cons_of_not_used is h, MbrArgs.done]

theorem done_cons_of_allocates (is : List ℕ) (h : g.Used i) (ha : g.Allocates i) :
    g.done (i :: is) = i :: g.done is := by
  rw [MbrArgs.done, used_cons_of_used is h]
  exact List.takeWhile_cons_of_pos (decide_eq_true ha)

theorem done_cons_of_not_allocates (is : List ℕ) (h : g.Used i) (ha : ¬g.Allocates i) :
    g.done (i :: is) = [] := by
  rw [MbrArgs.done, used_cons_of_used is h]
  exact List.takeWhile_cons_of_neg (by rwa [decide_eq_true_eq])

theorem mem_of_mem_done (h : i ∈ g.done is) : i ∈ is :=
  (List.mem_filter.1 ((List.takeWhile_prefix _).subset h)).1

/-- When all allocations succeed, all used slots are done. -/
theorem done_eq_used (h : ∀ i ∈ g.used is, g.Allocates i) : g.done is = g.used is :=
  List.takeWhile_eq_self_iff.2 fun i hi ↦ decide_eq_true (h i hi)

/-- The blocks for the other slots are fresh also after a slot is done. -/
theorem MbrArgs.Fresh.slotDone (h : g.Fresh (i :: is) s regs) (hi : i ∉ is)
    (hp : g.new i = some p) (hq : g.buf i = some q) (m : ByteMemory) :
    g.Fresh is (g.slotDone s i p q m) (regs ++ [p]) := by
  have hlive : (g.slotDone s i p q m).live = insert q (insert p s.live) := rfl
  have hne : ∀ j ∈ is, j ≠ i := fun j hj he ↦ hi (he ▸ hj)
  refine ⟨fun j hj x hx ↦ ?_, fun j hj x hx ↦ ?_, fun j hj x hx ↦ ?_, h.new_inj, h.new_ne_buf,
    h.buf_apart⟩
  · rw [hlive, Finset.mem_insert, Finset.mem_insert, not_or, not_or]
    refine ⟨fun he ↦ h.new_ne_buf j i x hx (he ▸ hq), fun he ↦ ?_,
      h.new_live j (List.mem_cons_of_mem i hj) x hx⟩
    exact hne j hj (h.new_inj j i x hx (he ▸ hp))
  · rw [hlive, Finset.mem_insert, Finset.mem_insert, not_or, not_or]
    refine ⟨fun he ↦ ?_, fun he ↦ h.new_ne_buf i j p hp (he ▸ hx),
      h.buf_live j (List.mem_cons_of_mem i hj) x hx⟩
    have hapart := h.buf_apart j i x q (hne j hj) hx hq
    omega
  · rw [List.mem_append, List.mem_singleton, not_or]
    refine ⟨h.new_regs j (List.mem_cons_of_mem i hj) x hx, fun he ↦ ?_⟩
    exact hne j hj (h.new_inj j i x hx (he ▸ hp))

/-- A slot that is not done leaves the blocks as they were. -/
theorem MbrArgs.Fresh.skip (h : g.Fresh (i :: is) s regs) : g.Fresh is s regs :=
  ⟨fun j hj ↦ h.new_live j (List.mem_cons_of_mem i hj),
    fun j hj ↦ h.buf_live j (List.mem_cons_of_mem i hj),
    fun j hj ↦ h.new_regs j (List.mem_cons_of_mem i hj), h.new_inj, h.new_ne_buf, h.buf_apart⟩

end Slot

/-! ### All slots -/

/-- What the loop over slots leaves behind: the slots that are done have their devices, registered
in order, and nothing else is allocated. -/
structure Processed (g : MbrArgs) (is : List ℕ) (s : MbrState) (regs : List ℕ) (r : ℤ)
    (s' : MbrState) : Prop where
  ok : (∀ i ∈ g.used is, g.Allocates i) → r = 0
  failed : ¬(∀ i ∈ g.used is, g.Allocates i) → r = -1
  ring : IsRing s'.files.links .blocks ((regs ++ (g.done is).map g.newOf).map .bdev)
  links : g.done is = [] → s'.files.links = s.files.links
  live : ∀ x, x ∈ s'.live ↔ x ∈ s.live ∨ ∃ i ∈ g.done is, x = g.newOf i ∨ x = g.bufOf i
  part : ∀ i ∈ g.done is, s'.part (g.newOf i) = g.partition i (g.bufOf i)
  frame : ∀ x, (∀ i ∈ is, g.new i ≠ some x) → s'.part x = s.part x

section Slots

variable {g : MbrArgs} {c i p q : ℕ} {is regs : List ℕ} {s s' : MbrState} {r : ℤ}
  {m : ByteMemory}

theorem Processed.nil (hring : IsRing s.files.links .blocks (regs.map .bdev)) :
    Processed g [] s regs 0 s := by
  have hdone : g.done [] = [] := rfl
  refine ⟨fun _ ↦ rfl, fun hno ↦ ?_, ?_, fun _ ↦ rfl, fun x ↦ ?_, fun i hi ↦ ?_, fun _ _ ↦ rfl⟩
  · exact absurd (fun i hi ↦ absurd hi List.not_mem_nil) hno
  · rwa [hdone, List.map_nil, List.append_nil]
  · rw [hdone]
    simp
  · exact absurd hi List.not_mem_nil

/-- The first slot is not used. -/
theorem Processed.skip (h : Processed g is s regs r s') (hused : ¬g.Used i) :
    Processed g (i :: is) s regs r s' := by
  have hall := used_cons_of_not_used is hused
  have hdone := done_cons_of_not_used is hused
  refine ⟨?_, ?_, ?_, ?_, ?_, ?_, fun x hx ↦ h.frame x fun j hj ↦ hx j (List.mem_cons_of_mem i hj)⟩
  · exact hall ▸ h.ok
  · exact hall ▸ h.failed
  · exact hdone ▸ h.ring
  · exact hdone ▸ h.links
  · exact hdone ▸ h.live
  · exact hdone ▸ h.part

/-- An allocation for the first slot fails. -/
theorem Processed.fail (hring : IsRing s.files.links .blocks (regs.map .bdev)) (hused : g.Used i)
    (hno : ¬g.Allocates i) (hfiles : s'.files = s.files) (hlive : s'.live = s.live)
    (hpart : ∀ x, g.new i ≠ some x → s'.part x = s.part x) :
    Processed g (i :: is) s regs (-1) s' := by
  have hmem : i ∈ g.used (i :: is) := by
    rw [used_cons_of_used is hused]
    exact List.mem_cons_self
  have hdone := done_cons_of_not_allocates is hused hno
  refine ⟨fun hall ↦ absurd (hall i hmem) hno, fun _ ↦ rfl, ?_, fun _ ↦ by rw [hfiles],
    fun x ↦ ?_, fun j hj ↦ ?_, fun x hx ↦ hpart x (hx i List.mem_cons_self)⟩
  · rwa [hdone, List.map_nil, List.append_nil, hfiles]
  · rw [hdone, hlive]
    simp
  · rw [hdone] at hj
    exact absurd hj List.not_mem_nil

/-- The first slot is done. -/
theorem Processed.cons (hf : g.Fresh (i :: is) s regs) (hi : i ∉ is) (hused : g.Used i)
    (hp : g.new i = some p) (hq : g.buf i = some q)
    (h : Processed g is (g.slotDone s i p q m) (regs ++ [p]) r s') :
    Processed g (i :: is) s regs r s' := by
  have halloc := allocates_of_some hp hq
  have hnew := newOf_of_some hp
  have hbuf := bufOf_of_some hq
  have hothers : ∀ j ∈ is, g.new j ≠ some p := fun j hj he ↦ hi (hf.new_inj j i p he hp ▸ hj)
  have hall := used_cons_of_used is hused
  have hdone := done_cons_of_allocates is hused halloc
  refine ⟨fun hok ↦ h.ok ?_, fun hno ↦ h.failed fun hok ↦ hno ?_, ?_, fun hnil ↦ ?_, fun x ↦ ?_,
    fun j hj ↦ ?_, fun x hx ↦ ?_⟩
  · exact (List.forall_mem_cons.1 (hall ▸ hok)).2
  · exact hall ▸ List.forall_mem_cons.2 ⟨halloc, hok⟩
  · have hring := h.ring
    rwa [List.append_assoc, List.singleton_append, ← hnew, ← List.map_cons, ← hdone] at hring
  · rw [hdone] at hnil
    cases hnil
  · have hlive : x ∈ (g.slotDone s i p q m).live ↔ x = q ∨ x = p ∨ x ∈ s.live := by
      rw [MbrArgs.slotDone, Finset.mem_insert, Finset.mem_insert]
    rw [h.live, hdone, List.exists_mem_cons_iff, hnew, hbuf, hlive]
    grind
  · rw [hdone] at hj
    rcases List.mem_cons.1 hj with rfl | hj
    · rw [hnew, hbuf, h.frame p hothers]
      exact Function.update_self ..
    · exact h.part j hj
  · have hne : x ≠ p := fun he ↦ hx i List.mem_cons_self (he ▸ hp)
    rw [h.frame x fun j hj ↦ hx j (List.mem_cons_of_mem i hj)]
    exact Function.update_of_ne hne _ _

/-- The device of a slot is registered behind the others. -/
theorem ring_slotDone (hf : g.Fresh (i :: is) s regs) (hp : g.new i = some p)
    (hring : IsRing s.files.links .blocks (regs.map .bdev)) :
    IsRing (g.slotDone s i p q m).files.links .blocks ((regs ++ [p]).map .bdev) := by
  have hfresh : FileNode.bdev p ∉ FileNode.blocks :: regs.map FileNode.bdev := by
    simpa using hf.new_regs i List.mem_cons_self p hp
  rw [List.map_append]
  exact LL.ring_enqueue hring hfresh

/-- **The loop**, by induction on the slots. -/
theorem processSlots_spec (hnodup : is.Nodup) (hf : g.Fresh is s regs)
    (hring : IsRing s.files.links .blocks (regs.map .bdev))
    (h : processSlots g c is s = some (r, s')) : Processed g is s regs r s' := by
  induction is generalizing s regs with
  | nil =>
    obtain ⟨rfl, rfl⟩ := Prod.mk.inj (Option.some.inj h)
    exact .nil hring
  | cons i is ih =>
    rw [processSlots, Option.bind_eq_some_iff] at h
    obtain ⟨⟨go, s₁⟩, hslot, hrest⟩ := h
    obtain ⟨hi, hnodup⟩ := List.nodup_cons.1 hnodup
    obtain ⟨hused, rfl, rfl⟩ | ⟨hused, hno, rfl, hfiles, hlive, -, hpart⟩ |
      ⟨hused, p, q, m, hp, hq, -, rfl, rfl⟩ :=
        processSlot_cases (hf.new_live i List.mem_cons_self) hslot
    · exact (ih hnodup hf.skip hring hrest).skip hused
    · obtain ⟨rfl, rfl⟩ := Prod.mk.inj (Option.some.inj hrest)
      exact .fail hring hused hno hfiles hlive hpart
    · exact .cons hf hi hused hp hq
        (ih hnodup (hf.slotDone hi hp hq m) (ring_slotDone hf hp hring) hrest)

end Slots

/-! ### The names -/

section Names

variable {g : MbrArgs} {c i q len : ℕ} {is regs : List ℕ} {s s' : MbrState} {r : ℤ}
  {m m' : ByteMemory} {text : List UInt8}

/-- The name is there as long as the memory that is read stays. -/
theorem MbrArgs.NameFits.congr (h : g.NameFits m text len)
    (hbyte : ∀ k ≤ len, m'.byte (g.dev.name + k) = m.byte (g.dev.name + k)) :
    g.NameFits m' text len := by
  have hle := h.copies.length_le h.isName
  exact ⟨h.isName.congr fun k hk ↦ hbyte k (hk.trans hle), h.short, h.copies.congr hbyte, h.le,
    h.apart⟩

/-- The underscore, the digit and the zero are stored behind the text. -/
theorem hasString_nameOf (hi : i < 4)
    (htext : ∀ k c, text[k]? = some c → m.byte (q + k) = c ∧ c ≠ 0) :
    (((m.store (q + text.length) 0x5F).store (q + text.length + 1) (UInt8.ofNat (0x31 + i))).store
      (q + text.length + 2) 0).HasString q (MbrArgs.nameOf text i) := by
  have hdigit : UInt8.ofNat (0x31 + i) ≠ 0 := by
    intro hzero
    have htoNat := congrArg UInt8.toNat hzero
    rw [UInt8.toNat_ofNat'] at htoNat
    have hzero' : UInt8.toNat 0 = 0 := rfl
    omega
  refine ByteMemory.hasString_append.2 ⟨fun k c hk ↦ ?_, ?_, by decide, ?_, hdigit, ?_⟩
  · have hlt := (List.getElem?_eq_some_iff.1 hk).1
    rw [ByteMemory.store_byte, if_neg (by omega), ByteMemory.store_byte, if_neg (by omega),
      ByteMemory.store_byte, if_neg (by omega)]
    exact htext k c hk
  · rw [ByteMemory.store_byte, if_neg (by omega), ByteMemory.store_byte, if_neg (by omega),
      ByteMemory.store_byte, if_pos rfl]
  · rw [ByteMemory.store_byte, if_neg (by omega), ByteMemory.store_byte, if_pos rfl]
  · exact (ByteMemory.store_byte _).trans (if_pos rfl)

/-- **The name of a partition**: it is put together, and nothing outside of the buffer changes. -/
theorem partitionName_spec (hfits : g.NameFits m text len) (hi : i < 4) (hq : g.buf i = some q)
    (h : partitionName c q g.dev.name i m = some m') :
    m'.HasString q (MbrArgs.nameOf text i) ∧ ∀ a, a < q ∨ q + 20 ≤ a → m'.byte a = m.byte a := by
  have hshort := hfits.short
  have hlen := hfits.copies.length_le hfits.isName
  have hle := hfits.le
  have hapart := hfits.apart i q hq
  have hdisj : g.dev.name + len < q ∨ q + len ≤ g.dev.name := by omega
  obtain ⟨k, hk, hrest⟩ := Option.bind_eq_some_iff.1 h
  obtain ⟨m₁, hm₁, rfl⟩ := Option.map_eq_some_iff.1 hrest
  -- more iterations do not change what the two functions return
  obtain rfl : text.length = k := by
    have hlong := strlen_eq_some (n := max c 21) hfits.isName (by omega)
    exact Option.some.inj (hlong.symm.trans (strlen_mono hk (le_max_left c 21)))
  obtain ⟨m₂, hm₂, hcopy⟩ := strcpy_byte (n := max c 21) hfits.copies hdisj (by omega)
  obtain rfl : m₂ = m₁ :=
    Option.some.inj (hm₂.symm.trans (strcpy_mono hm₁ (le_max_left c 21)))
  refine ⟨hasString_nameOf hi fun k c hk ↦ ?_, fun a ha ↦ ?_⟩
  · have hlt := (List.getElem?_eq_some_iff.1 hk).1
    rw [hcopy, if_pos (by omega), Nat.add_sub_cancel_left]
    exact (ByteMemory.hasString_iff.1 hfits.isName).1 k c hk
  · rw [ByteMemory.store_byte, if_neg (by omega), ByteMemory.store_byte, if_neg (by omega),
      ByteMemory.store_byte, if_neg (by omega), hcopy, if_neg (by omega)]

theorem partitionName_isSome (hfits : g.NameFits m text len) (hq : g.buf i = some q) (hc : 20 < c) :
    ∃ m', partitionName c q g.dev.name i m = some m' := by
  have hshort := hfits.short
  have hle := hfits.le
  have hapart := hfits.apart i q hq
  obtain ⟨m₁, hm₁, -⟩ := strcpy_byte (n := c) hfits.copies
    (by omega : g.dev.name + len < q ∨ q + len ≤ g.dev.name) (by omega)
  rw [partitionName, strlen_eq_some hfits.isName (by omega), Option.bind_some, hm₁]
  exact ⟨_, rfl⟩

/-- The text of the device stays, so that the name of the next slot fits too. -/
theorem MbrArgs.NameFits.partitionName (hfits : g.NameFits m text len) (hi : i < 4)
    (hq : g.buf i = some q) (h : partitionName c q g.dev.name i m = some m') :
    g.NameFits m' text len := by
  have hapart := hfits.apart i q hq
  exact hfits.congr fun k hk ↦ (partitionName_spec hfits hi hq h).2 _ (by omega)

theorem processSlot_isSome (hfits : g.NameFits s.mem text len) (hc : 20 < c) (i : ℕ) :
    ∃ r, processSlot g c i s = some r := by
  rw [processSlot]
  split
  · exact ⟨_, rfl⟩
  · split
    · exact ⟨_, rfl⟩
    · dsimp only
      split
      · exact ⟨_, rfl⟩
      · next q hq =>
        obtain ⟨m, hm⟩ := partitionName_isSome hfits hq hc
        exact ⟨_, congrArg (Option.map _) hm⟩

/-- The names of the slots that are done, and what stays of the memory. -/
theorem processSlots_names (hnodup : is.Nodup) (hf : g.Fresh is s regs) (his : ∀ i ∈ is, i < 4)
    (hfits : g.NameFits s.mem text len) (h : processSlots g c is s = some (r, s')) :
    (∀ i ∈ g.done is, s'.mem.HasString (g.bufOf i) (MbrArgs.nameOf text i)) ∧
      ∀ a, (∀ i ∈ is, ∀ q, g.buf i = some q → a < q ∨ q + 20 ≤ a) →
        s'.mem.byte a = s.mem.byte a := by
  induction is generalizing s regs with
  | nil =>
    obtain ⟨rfl, rfl⟩ := Prod.mk.inj (Option.some.inj h)
    exact ⟨fun i hi ↦ absurd hi List.not_mem_nil, fun _ _ ↦ rfl⟩
  | cons i is ih =>
    rw [processSlots, Option.bind_eq_some_iff] at h
    obtain ⟨⟨go, s₁⟩, hslot, hrest⟩ := h
    obtain ⟨hi, hnodup⟩ := List.nodup_cons.1 hnodup
    obtain ⟨hi4, his⟩ := List.forall_mem_cons.1 his
    obtain ⟨hused, rfl, rfl⟩ | ⟨hused, hno, rfl, -, -, hmem, -⟩ |
      ⟨hused, p, q, m, hp, hq, hname, rfl, rfl⟩ :=
        processSlot_cases (hf.new_live i List.mem_cons_self) hslot
    · obtain ⟨hnames, hframe⟩ := ih hnodup hf.skip his hfits hrest
      rw [done_cons_of_not_used is hused]
      exact ⟨hnames, fun a ha ↦ hframe a fun j hj ↦ ha j (List.mem_cons_of_mem i hj)⟩
    · obtain ⟨rfl, rfl⟩ := Prod.mk.inj (Option.some.inj hrest)
      rw [done_cons_of_not_allocates is hused hno, hmem]
      exact ⟨fun i hi ↦ absurd hi List.not_mem_nil, fun _ _ ↦ rfl⟩
    · obtain ⟨hstring, hkeep⟩ := partitionName_spec hfits hi4 hq hname
      obtain ⟨hnames, hframe⟩ := ih hnodup (hf.slotDone hi hp hq m) his
        (hfits.partitionName hi4 hq hname) hrest
      rw [done_cons_of_allocates is hused (allocates_of_some hp hq)]
      refine ⟨List.forall_mem_cons.2 ⟨?_, hnames⟩, fun a ha ↦ ?_⟩
      · -- the later names are in other buffers
        rw [bufOf_of_some hq]
        refine hstring.congr fun k hk ↦ hframe _ fun j hj q' hq' ↦ ?_
        have hapart := hf.buf_apart i j q q' (fun he ↦ hi (he ▸ hj)) hq hq'
        have hshort := hfits.short
        rw [MbrArgs.nameOf, List.length_append, List.length_cons, List.length_singleton] at hk
        omega
      · rw [hframe a fun j hj ↦ ha j (List.mem_cons_of_mem i hj)]
        exact hkeep a (ha i List.mem_cons_self q hq)

/-- **The loop ends** when the name fits. -/
theorem processSlots_isSome (hnodup : is.Nodup) (hf : g.Fresh is s regs) (his : ∀ i ∈ is, i < 4)
    (hfits : g.NameFits s.mem text len) (hc : 20 < c) : ∃ r, processSlots g c is s = some r := by
  induction is generalizing s regs with
  | nil => exact ⟨_, rfl⟩
  | cons i is ih =>
    obtain ⟨hi, hnodup⟩ := List.nodup_cons.1 hnodup
    obtain ⟨hi4, his⟩ := List.forall_mem_cons.1 his
    obtain ⟨⟨go, s₁⟩, hslot⟩ := processSlot_isSome hfits hc i
    rw [processSlots, hslot, Option.bind_some]
    obtain ⟨-, rfl, rfl⟩ | ⟨-, -, rfl, -⟩ | ⟨-, p, q, m, hp, hq, hname, rfl, rfl⟩ :=
      processSlot_cases (hf.new_live i List.mem_cons_self) hslot
    · exact ih hnodup hf.skip his hfits
    · exact ⟨_, rfl⟩
    · exact ih hnodup (hf.slotDone hi hp hq m) his (hfits.partitionName hi4 hq hname)

end Names

/-! ### `FS_process_mbr` -/

/-- Nothing is done when the first used slot fails. -/
theorem done_eq_nil {g : MbrArgs} {i : ℕ} {is : List ℕ} (h : (g.used is).head? = some i)
    (hno : ¬g.Allocates i) : g.done is = [] := by
  rw [MbrArgs.done]
  cases hall : g.used is with
  | nil => rfl
  | cons j js =>
    rw [hall] at h
    obtain rfl : j = i := Option.some.inj h
    exact List.takeWhile_cons_of_neg (by rwa [decide_eq_true_eq])

/-- The first used slot is done unless it fails. -/
theorem mem_done_of_head {g : MbrArgs} {i : ℕ} {is : List ℕ} (h : (g.used is).head? = some i)
    (ha : g.Allocates i) : i ∈ g.done is := by
  rw [MbrArgs.done]
  cases hall : g.used is with
  | nil =>
    rw [hall] at h
    cases h
  | cons j js =>
    rw [hall] at h
    obtain rfl : j = i := Option.some.inj h
    have hcons : (j :: js).takeWhile (fun i ↦ g.Allocates i) = j :: js.takeWhile _ :=
      List.takeWhile_cons_of_pos (decide_eq_true ha)
    rw [hcons]
    exact List.mem_cons_self

/-- **When `FS_process_mbr` does what it should.** For every boot record and every outcome of the
allocations: exactly when the signature is wrong, or no allocation fails, or the first one that
fails belongs to the first used slot. It returns whenever the name fits. -/
theorem mbrRight_iff (g : MbrArgs) (s : MbrState) (regs : List ℕ)
    (hf : g.Fresh (List.range 4) s regs)
    (hring : IsRing s.files.links .blocks (regs.map .bdev)) :
    (∀ c r, fsProcessMbr g c s = some r →
      (MbrRight g s regs r ↔
        g.bootSig ≠ 0xaa55 ∨ (∀ i ∈ g.used (List.range 4), g.Allocates i) ∨
          ∃ i, (g.used (List.range 4)).head? = some i ∧ ¬g.Allocates i)) ∧
    ∀ text len c, g.NameFits s.mem text len → 20 < c → ∃ r, fsProcessMbr g c s = some r := by
  have hlt : ∀ i ∈ List.range 4, i < 4 := fun i ↦ List.mem_range.1
  have hne : (-1 : ℤ) ≠ 0 := by decide
  constructor
  · rintro c ⟨r, s'⟩ h
    by_cases hsig : g.bootSig ≠ 0xaa55
    · rw [fsProcessMbr, if_pos hsig] at h
      obtain ⟨rfl, rfl⟩ := Prod.mk.inj (Option.some.inj h)
      exact iff_of_true ⟨fun _ ↦ rfl, fun hzero ↦ absurd hzero hne, fun _ ↦ ⟨rfl, rfl⟩⟩
        (Or.inl hsig)
    rw [fsProcessMbr, if_neg hsig] at h
    have hp := processSlots_spec List.nodup_range hf hring h
    rw [or_iff_right hsig]
    constructor
    · intro hright
      by_contra hno
      obtain ⟨hall, hhead⟩ := not_or.1 hno
      -- a later slot fails, so the device of the first one is still allocated
      cases hfirst : (g.used (List.range 4)).head? with
      | none =>
        rw [List.head?_eq_none_iff.1 hfirst] at hall
        exact hall fun i hi ↦ absurd hi List.not_mem_nil
      | some i =>
        have halloc : g.Allocates i := not_not.1 fun hno ↦ hhead ⟨i, hfirst, hno⟩
        have hdone := mem_done_of_head hfirst halloc
        obtain ⟨p, hp'⟩ := Option.ne_none_iff_exists'.1 halloc.1
        have hmem : g.newOf i ∈ s'.live := (hp.live _).2 (Or.inr ⟨i, hdone, Or.inl rfl⟩)
        rw [(hright.restores (hp.failed hall)).2, newOf_of_some hp'] at hmem
        exact hf.new_live i (mem_of_mem_done hdone) p hp' hmem
    · rintro (hall | ⟨i, hfirst, hno⟩)
      · obtain rfl := hp.ok hall
        have hdone := done_eq_used hall
        refine ⟨fun h ↦ absurd h hsig, fun _ ↦ ⟨?_, ?_, fun text len hfits ↦ ?_⟩,
          fun h ↦ absurd h.symm hne⟩
        · exact hdone ▸ hp.ring
        · exact hdone ▸ hp.part
        · exact hdone ▸ (processSlots_names List.nodup_range hf hlt hfits h).1
      · have hdone := done_eq_nil hfirst hno
        have hmem : i ∈ g.used (List.range 4) := List.mem_of_mem_head? hfirst
        obtain rfl := hp.failed fun hall ↦ hno (hall i hmem)
        refine ⟨fun h ↦ absurd h hsig, fun h ↦ absurd h hne, fun _ ↦ ⟨hp.links hdone, ?_⟩⟩
        refine Finset.ext fun x ↦ ?_
        rw [hp.live, hdone]
        simp
  · intro text len c hfits hc
    rw [fsProcessMbr]
    split
    · exact ⟨_, rfl⟩
    · exact processSlots_isSome List.nodup_range hf hlt hfits hc

/-- A boot record with two partitions. -/
def twoPartitions : ByteMemory :=
  let first := ((ByteMemory.ofList []).storeWord 454 2048).storeWord 458 100
  ((first.storeWord 470 4096).storeWord 474 200).storeHalf 510 0xaa55

/-- The disk `sda` with two partitions; what `kmalloc` answers for the second device is given. -/
def twoSlots (second : Option ℕ) : MbrArgs where
  mbr := twoPartitions
  dev := ⟨1, 512, 0⟩
  new := fun i ↦ if i = 0 then some 0x100 else if i = 1 then second else none
  buf := fun i ↦ if i = 0 then some 0x1000 else if i = 1 then some 0x2000 else none

/-- Only the disk is registered. -/
def diskState : MbrState where
  files := Registration.applyAll blankFiles.init [.bdev 1]
  live := ∅
  part := fun _ ↦ ⟨0, 0, 0, 0, 0, 0⟩
  mem := ByteMemory.ofList [0x73, 0x64, 0x61]

theorem fresh_twoSlots {second : Option ℕ} (h : second = none ∨ second = some 0x200) :
    (twoSlots second).Fresh (List.range 4) diskState [1] := by
  have hnew : ∀ i p, (twoSlots second).new i = some p → i = 0 ∧ p = 0x100 ∨ i = 1 ∧ p = 0x200 := by
    intro i p hp
    simp only [twoSlots] at hp
    grind
  have hbuf : ∀ i q, (twoSlots second).buf i = some q →
      i = 0 ∧ q = 0x1000 ∨ i = 1 ∧ q = 0x2000 := by
    intro i q hq
    simp only [twoSlots] at hq
    grind
  refine ⟨fun _ _ _ _ ↦ Finset.notMem_empty _, fun _ _ _ _ ↦ Finset.notMem_empty _,
    fun i _ p hp ↦ ?_, fun i j p hi hj ↦ ?_, fun i j p hi hj ↦ ?_, fun i j p q hij hi hj ↦ ?_⟩
  · have hp := hnew i p hp
    rw [List.mem_singleton]
    omega
  · have hi := hnew i p hi
    have hj := hnew j p hj
    omega
  · have hi := hnew i p hi
    have hj := hbuf j p hj
    omega
  · have hi := hbuf i p hi
    have hj := hbuf j q hj
    omega

theorem isRing_diskState : IsRing diskState.files.links .blocks ([1].map .bdev) := by
  have hd : Registration.Distinct [.bdev 1] := ⟨by decide, by decide, by decide⟩
  exact (registryInv_applyAll blankFiles hd).kept (Or.inl rfl)

theorem nameFits_twoSlots (second : Option ℕ) :
    (twoSlots second).NameFits diskState.mem [0x73, 0x64, 0x61] 3 := by
  have hname : diskState.mem.HasString 0 [0x73, 0x64, 0x61] := by decide
  refine ⟨hname, by decide, copies_of_hasString hname (List.cons_ne_nil _ _), by decide, ?_⟩
  intro i q hq
  have hdev : (twoSlots second).dev.name = 0 := rfl
  have hle : 0x1000 ≤ q := by
    simp only [twoSlots] at hq
    grind
  omega

theorem mbrRight_iff_twoSlots :
    ∃ r, fsProcessMbr (twoSlots (some 0x200)) 21 diskState = some r ∧
      MbrRight (twoSlots (some 0x200)) diskState [1] r := by
  obtain ⟨hiff, hreturns⟩ := mbrRight_iff (twoSlots (some 0x200)) diskState [1]
    (fresh_twoSlots (Or.inr rfl)) isRing_diskState
  obtain ⟨r, hr⟩ := hreturns _ _ 21 (nameFits_twoSlots _) (by decide)
  exact ⟨r, hr, (hiff 21 r hr).2 (Or.inr (Or.inl (by decide)))⟩

/-- **The first partition stays registered** when the device of the second one cannot be
allocated. -/
theorem failed_mbr_keeps_partition :
    ∃ r, fsProcessMbr (twoSlots none) 21 diskState = some r ∧ r.1 = -1 ∧ 0x100 ∈ r.2.live ∧
      IsRing r.2.files.links .blocks [.bdev 1, .bdev 0x100] ∧
      ¬MbrRight (twoSlots none) diskState [1] r := by
  have hf := fresh_twoSlots (Or.inl rfl)
  obtain ⟨⟨r, s'⟩, hr⟩ := processSlots_isSome List.nodup_range hf (fun i ↦ List.mem_range.1)
    (nameFits_twoSlots none) (by decide : 20 < 21)
  have hp := processSlots_spec List.nodup_range hf isRing_diskState hr
  have hdone : (twoSlots none).done (List.range 4) = [0] := by decide
  have hlive : 0x100 ∈ s'.live := (hp.live _).2 (Or.inr ⟨0, by decide, Or.inl rfl⟩)
  have hfailed : r = -1 := hp.failed (by decide)
  have hring := hp.ring
  rw [hdone] at hring
  refine ⟨(r, s'), hr, hfailed, hlive, hring, fun hright ↦ ?_⟩
  rw [(hright.restores hfailed).2] at hlive
  exact absurd hlive (Finset.notMem_empty _)

end Marimba
