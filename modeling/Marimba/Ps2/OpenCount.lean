import Marimba.Foundations.Transition
import Marimba.OpenFiles
import Mathlib.Data.Finset.Card
import Mathlib.Data.Finset.Image

/-!
# Open files of the keyboard (`ps2_open`, `ps2_close`)

Each open file of the keyboard has two blocks: the `struct OFile` that `FS_open` allocates, and the
`struct PS2User` that `ps2_open` allocates and puts into the private data of the file. The number of
open files decides when the interrupt line of the keyboard is unmasked and masked.

`ps2_close` is given the file, calls it `user` and frees it. **Nothing frees the `struct PS2User`**,
so it stays allocated for ever. `balanced_iff` says that the blocks are right at the end of a run
exactly when no file was closed in it. The count and the interrupt line are right in any case
(`Inv.num`, `Inv.masked`), as long as the count, an `int`, does not overflow.

The cursor in the `struct PS2User` is the subject of `Marimba.Ps2.Driver`. Of `ps2_init` only the
unmasking is here; the dialogue with the controller is left out, since every answer of it leads to
the unmasking.
-/

namespace Marimba

namespace Ps2

/-! ### The interrupt masks -/

/-- The mask registers of the two interrupt controllers. -/
structure Pic where
  master : BitVec 8
  slave : BitVec 8
  deriving DecidableEq

/-- `PIC_MASTER_REMAP_BASE`. -/
abbrev picMasterRemapBase : ℕ := 0x20

namespace Pic

/-- Change the mask register that has the line of an interrupt, given the bit of the line. -/
def modify (p : Pic) (irq : ℕ) (f : BitVec 8 → BitVec 8 → BitVec 8) : Pic :=
  if irq < picMasterRemapBase ∨ irq - picMasterRemapBase > 0x2F then p
  else
    let line := irq - picMasterRemapBase
    if line < 8 then { p with master := f p.master (BitVec.twoPow 8 line) }
    else { p with slave := f p.slave (BitVec.twoPow 8 (line - 8)) }

/-- `IRQ_set_mask`. -/
def irqSetMask (p : Pic) (irq : ℕ) : Pic := p.modify irq fun value bit ↦ value ||| bit

/-- `IRQ_clear_mask`. -/
def irqClearMask (p : Pic) (irq : ℕ) : Pic := p.modify irq fun value bit ↦ value &&& ~~~bit

/-- The end of `PIC_init`: all lines but the one of the slave are masked. -/
def picInit (p : Pic) : Pic :=
  (List.range 16).foldl (fun p i ↦ if i ≠ 2 then p.irqSetMask (i + picMasterRemapBase) else p) p

/-- The interrupt of the keyboard. -/
abbrev ps2Irq : ℕ := 0x21

/-- The line of the keyboard is masked. -/
def masked (p : Pic) : Bool := p.master.getLsbD 1

theorem modify_ps2Irq (p : Pic) (f : BitVec 8 → BitVec 8 → BitVec 8) :
    p.modify ps2Irq f = { p with master := f p.master (BitVec.twoPow 8 1) } := rfl

theorem masked_irqSetMask (p : Pic) : (p.irqSetMask ps2Irq).masked = true := by
  simp [masked, irqSetMask, modify_ps2Irq]

theorem masked_irqClearMask (p : Pic) : (p.irqClearMask ps2Irq).masked = false := by
  simp [masked, irqClearMask, modify_ps2Irq]

/-- Masking a line unmasks no other. -/
theorem masked_irqSetMask_of_masked {p : Pic} (h : p.masked = true) (irq : ℕ) :
    (p.irqSetMask irq).masked = true := by
  rw [irqSetMask, modify]
  split
  · exact h
  · dsimp only
    split
    · rw [masked, BitVec.getLsbD_or, Bool.or_eq_true]
      exact Or.inl h
    · exact h

theorem masked_foldl {p : Pic} (h : p.masked = true) (is : List ℕ) :
    (is.foldl (fun p i ↦ if i ≠ 2 then p.irqSetMask (i + picMasterRemapBase) else p) p).masked =
      true := by
  induction is generalizing p with
  | nil => exact h
  | cons i is ih =>
    rw [List.foldl_cons]
    refine ih ?_
    by_cases hi : i ≠ 2
    · rw [if_pos hi]
      exact masked_irqSetMask_of_masked h _
    · rwa [if_neg hi]

theorem masked_picInit (p : Pic) : p.picInit.masked = true := by
  have hrange : List.range 16 = 0 :: 1 :: List.range' 2 14 := by decide
  rw [picInit, hrange, List.foldl_cons, List.foldl_cons, if_pos (by decide : 1 ≠ 2)]
  exact masked_foldl (masked_irqSetMask _) _

end Pic

/-! ### `ps2_open` and `ps2_close` -/

/-- The state of the driver: `num_open`, the masks, and what `kmalloc` will answer to `ps2_open`,
`none` for null. -/
structure Line where
  numOpen : ℤ
  pic : Pic
  user : Option ℕ

namespace Line

/-- `ps2_init`. -/
def ps2Init (l : Line) : Line := { l with pic := l.pic.irqClearMask Pic.ps2Irq }

/-- `ps2_cleanup`. -/
def ps2Cleanup (l : Line) : Line := { l with pic := l.pic.irqSetMask Pic.ps2Irq }

/-- The critical section of `ps2_open`. The count is an `int`. -/
def opened (l : Line) : Line :=
  let l := if l.numOpen = 0 then l.ps2Init else l
  { l with numOpen := (l.numOpen + 1).bmod (2 ^ 32) }

/-- The critical section of `ps2_close`. -/
def closed (l : Line) : Line :=
  let l := { l with numOpen := (l.numOpen - 1).bmod (2 ^ 32) }
  if l.numOpen = 0 then l.ps2Cleanup else l

theorem opened_numOpen (l : Line) : l.opened.numOpen = (l.numOpen + 1).bmod (2 ^ 32) := by
  rw [opened]
  split <;> rfl

theorem opened_pic (l : Line) :
    l.opened.pic = if l.numOpen = 0 then l.pic.irqClearMask Pic.ps2Irq else l.pic := by
  rw [opened]
  split <;> rfl

theorem closed_numOpen (l : Line) : l.closed.numOpen = (l.numOpen - 1).bmod (2 ^ 32) := by
  rw [closed]
  split <;> rfl

theorem closed_pic (l : Line) :
    l.closed.pic =
      if (l.numOpen - 1).bmod (2 ^ 32) = 0 then l.pic.irqSetMask Pic.ps2Irq else l.pic := by
  rw [closed]
  dsimp only
  split <;> rfl

end Line

/-- `ps2_open`. -/
def ps2Open (_inode : FileNode) (file : ℕ) (s : FileState Line) : ℤ × FileState Line :=
  match s.dev.user with
  | none => (-1, s)
  | some user =>
    let s := (s.alloc user).setOfile file { s.ofile file with privateData := user }
    (0, { s with dev := s.dev.opened })

/-- `ps2_close`. What it frees is the file. -/
def ps2Close (fd : ℕ) (s : FileState Line) : ℤ × FileState Line :=
  let user := fd
  let s := s.kfree user
  (0, { s with dev := s.dev.closed })

/-- `ps2_fops`. -/
def ps2Fops : FileOps Line where
  «open» := ps2Open
  close := ps2Close
  open_inode := by
    intro inode file s
    rw [ps2Open]
    split
    · rfl
    · dsimp only
      rw [FileState.setOfile_ofile_self]
  open_fops := by
    intro inode file s
    rw [ps2Open]
    split
    · rfl
    · dsimp only
      rw [FileState.setOfile_ofile_self]

/-! ### Runs -/

/-- The file layer, with the files that are open; beside it the number of files closed so far, and
the largest number that were open at once. -/
structure OpenSystem where
  state : FileState Line
  files : List ℕ
  closes : ℕ
  peak : ℕ

/-- A successful `FS_open` of the keyboard, with the two blocks that `kmalloc` returned, or an
`FS_close`. -/
inductive FileEvent where
  | open (file user : ℕ)
  | close (file : ℕ)
  deriving DecidableEq

namespace OpenSystem

/-- A successful `FS_open`: `kmalloc` returns blocks that are not in use, and the inode `x` is the
first one with the name of the keyboard (`INodes.fsOpens_openFirst`). -/
def fsOpen (t : INodes) (x : FileNode) (s : OpenSystem) (file user : ℕ) : OpenSystem :=
  let dev := { s.state.dev with user := some user }
  { s with
    state := (t.openInode (fun _ ↦ ps2Fops) (some file) x { s.state with dev := dev }).2
    files := file :: s.files
    peak := max s.peak (s.files.length + 1) }

/-- An `FS_close`. -/
def fsClose (s : OpenSystem) (file : ℕ) : OpenSystem :=
  { s with
    state := Marimba.fsClose (fun _ ↦ ps2Fops) file s.state
    files := s.files.erase file
    closes := s.closes + 1 }

/-- One call; `none` where it cannot happen. A file is closed at most once. -/
def step (t : INodes) (x : FileNode) (s : OpenSystem) : FileEvent → Option (Unit × OpenSystem)
  | .open file user =>
    if file ∉ s.state.live ∧ user ∉ s.state.live ∧ file ≠ user then
      some ((), s.fsOpen t x file user)
    else none
  | .close file => if file ∈ s.files then some ((), s.fsClose file) else none

/-- The system at boot, after `PIC_init`. -/
def boot (pic : Pic) (ofile : ℕ → OFile) : OpenSystem :=
  ⟨⟨∅, ofile, ⟨0, pic.picInit, none⟩⟩, [], 0, 0⟩

/-- The `struct PS2User` of an open file. -/
def user (s : OpenSystem) (file : ℕ) : ℕ := (s.state.ofile file).privateData

/-- **What should hold at all times**: the blocks in use are the file and the `struct PS2User` of
each open file, all different; the count is right, and the line is unmasked while it is positive. -/
structure Balanced (s : OpenSystem) : Prop where
  blocks : s.state.live = s.files.toFinset ∪ s.files.toFinset.image s.user
  card : s.state.live.card = 2 * s.files.length
  num : s.state.dev.numOpen = s.files.length
  line : s.state.dev.pic.masked = false ↔ 0 < s.state.dev.numOpen

/-! ### The effect of one call -/

section Effect

variable {t : INodes} {x : FileNode} {s : OpenSystem} {file u : ℕ}

theorem fsOpen_live : (s.fsOpen t x file u).state.live = insert u (insert file s.state.live) := rfl

theorem fsOpen_numOpen :
    (s.fsOpen t x file u).state.dev.numOpen = (s.state.dev.numOpen + 1).bmod (2 ^ 32) :=
  Line.opened_numOpen _

theorem fsOpen_pic :
    (s.fsOpen t x file u).state.dev.pic =
      if s.state.dev.numOpen = 0 then s.state.dev.pic.irqClearMask Pic.ps2Irq
      else s.state.dev.pic :=
  Line.opened_pic _

theorem fsOpen_ofile :
    (s.fsOpen t x file u).state.ofile = Function.update s.state.ofile file ⟨x, t.fops x, u⟩ := by
  simp [fsOpen, INodes.openInode, ps2Fops, ps2Open, FileState.setOfile, FileState.alloc]

theorem fsOpen_user_self : (s.fsOpen t x file u).user file = u := by
  rw [user, fsOpen_ofile, Function.update_self]

theorem fsOpen_user_of_ne {g : ℕ} (h : g ≠ file) : (s.fsOpen t x file u).user g = s.user g := by
  rw [user, fsOpen_ofile, Function.update_of_ne h, user]

theorem fsClose_live : (s.fsClose file).state.live = s.state.live.erase file := rfl

theorem fsClose_dev : (s.fsClose file).state.dev = s.state.dev.closed := rfl

end Effect

/-! ### The blocks -/

/-- The two blocks of each open file are allocated and all different, and so is one more for each
file that was closed. -/
structure BlocksInv (s : OpenSystem) : Prop where
  nodup : s.files.Nodup
  file_live : ∀ f ∈ s.files, f ∈ s.state.live
  user_live : ∀ f ∈ s.files, s.user f ∈ s.state.live
  user_ne : ∀ f ∈ s.files, ∀ g ∈ s.files, s.user f ≠ g
  user_inj : ∀ f ∈ s.files, ∀ g ∈ s.files, s.user f = s.user g → f = g
  card : s.state.live.card = 2 * s.files.length + s.closes

section Blocks

variable {t : INodes} {x : FileNode} {s : OpenSystem} {file u : ℕ}

/-- The new blocks were not in use, so they differ from all others. -/
theorem BlocksInv.fsOpen (h : s.BlocksInv) (hfile : file ∉ s.state.live) (hu : u ∉ s.state.live)
    (hne : file ≠ u) : (s.fsOpen t x file u).BlocksInv := by
  have hold : ∀ g ∈ s.files, g ≠ file := fun g hg he ↦ hfile (he ▸ h.file_live g hg)
  have huser : ∀ g ∈ s.files, (s.fsOpen t x file u).user g = s.user g := fun g hg ↦
    fsOpen_user_of_ne (hold g hg)
  have hself : (s.fsOpen t x file u).user file = u := fsOpen_user_self
  have hmem : ∀ g, g ∈ (s.fsOpen t x file u).files ↔ g = file ∨ g ∈ s.files := fun g ↦
    List.mem_cons
  have hlive : ∀ p, p ∈ (s.fsOpen t x file u).state.live ↔ p = u ∨ p = file ∨ p ∈ s.state.live := by
    intro p
    rw [fsOpen_live, Finset.mem_insert, Finset.mem_insert]
  refine ⟨?_, fun f hf ↦ ?_, fun f hf ↦ ?_, fun f hf g hg ↦ ?_, fun f hf g hg he ↦ ?_, ?_⟩
  · exact List.nodup_cons.2 ⟨fun hmem ↦ hold file hmem rfl, h.nodup⟩
  · rcases (hmem f).1 hf with rfl | hf
    · exact (hlive f).2 (Or.inr (Or.inl rfl))
    · exact (hlive f).2 (Or.inr (Or.inr (h.file_live f hf)))
  · rcases (hmem f).1 hf with rfl | hf
    · exact (hlive _).2 (Or.inl hself)
    · rw [huser f hf]
      exact (hlive _).2 (Or.inr (Or.inr (h.user_live f hf)))
  · intro he
    rcases (hmem f).1 hf with rfl | hf' <;> rcases (hmem g).1 hg with rfl | hg'
    · exact hne (he.symm.trans hself)
    · rw [hself] at he
      exact hu (he ▸ h.file_live g hg')
    · rw [huser f hf'] at he
      exact hfile (he ▸ h.user_live f hf')
    · rw [huser f hf'] at he
      exact h.user_ne f hf' g hg' he
  · rcases (hmem f).1 hf with rfl | hf' <;> rcases (hmem g).1 hg with rfl | hg'
    · rfl
    · rw [hself, huser g hg'] at he
      exact absurd (he ▸ h.user_live g hg') hu
    · rw [hself, huser f hf'] at he
      exact absurd (he ▸ h.user_live f hf') hu
    · rw [huser f hf', huser g hg'] at he
      exact h.user_inj f hf' g hg' he
  · have hfresh : u ∉ insert file s.state.live := fun hmem ↦
      (Finset.mem_insert.1 hmem).elim (fun he ↦ hne he.symm) hu
    have hlen : (s.fsOpen t x file u).files.length = s.files.length + 1 := rfl
    have hcloses : (s.fsOpen t x file u).closes = s.closes := rfl
    rw [fsOpen_live, Finset.card_insert_of_notMem hfresh, Finset.card_insert_of_notMem hfile,
      h.card, hlen, hcloses]
    omega

/-- Of the two blocks of the file one is freed. -/
theorem BlocksInv.fsClose (h : s.BlocksInv) (hfile : file ∈ s.files) :
    (s.fsClose file).BlocksInv := by
  have hmem : ∀ g, g ∈ (s.fsClose file).files ↔ g ≠ file ∧ g ∈ s.files := fun g ↦
    h.nodup.mem_erase_iff
  have hlive : ∀ p, p ∈ (s.fsClose file).state.live ↔ p ≠ file ∧ p ∈ s.state.live := fun p ↦
    Finset.mem_erase
  refine ⟨h.nodup.erase file, fun f hf ↦ ?_, fun f hf ↦ ?_, fun f hf g hg ↦ ?_, fun f hf g hg ↦ ?_,
    ?_⟩
  · obtain ⟨hne, hf⟩ := (hmem f).1 hf
    exact (hlive f).2 ⟨hne, h.file_live f hf⟩
  · have hf := ((hmem f).1 hf).2
    exact (hlive _).2 ⟨h.user_ne f hf file hfile, h.user_live f hf⟩
  · exact h.user_ne f ((hmem f).1 hf).2 g ((hmem g).1 hg).2
  · exact h.user_inj f ((hmem f).1 hf).2 g ((hmem g).1 hg).2
  · have hlen : (s.fsClose file).files.length = s.files.length - 1 := List.length_erase_of_mem hfile
    have hcloses : (s.fsClose file).closes = s.closes + 1 := rfl
    have hpos := List.length_pos_of_mem hfile
    rw [fsClose_live, Finset.card_erase_of_mem (h.file_live file hfile), h.card, hlen, hcloses]
    omega

/-- The blocks of the open files. -/
theorem BlocksInv.card_blocks (h : s.BlocksInv) :
    (s.files.toFinset ∪ s.files.toFinset.image s.user).card = 2 * s.files.length := by
  have hdisjoint : Disjoint s.files.toFinset (s.files.toFinset.image s.user) := by
    refine Finset.disjoint_left.2 fun g hg hmem ↦ ?_
    obtain ⟨f, hf, he⟩ := Finset.mem_image.1 hmem
    exact h.user_ne f (List.mem_toFinset.1 hf) g (List.mem_toFinset.1 hg) he
  have hinj : Set.InjOn s.user s.files.toFinset := fun f hf g hg ↦
    h.user_inj f (List.mem_toFinset.1 hf) g (List.mem_toFinset.1 hg)
  rw [Finset.card_union_of_disjoint hdisjoint, Finset.card_image_of_injOn hinj,
    List.toFinset_card_of_nodup h.nodup, Nat.two_mul]

/-- **The blocks are right exactly when no file was closed.** -/
theorem BlocksInv.blocks_iff (h : s.BlocksInv) :
    s.state.live = s.files.toFinset ∪ s.files.toFinset.image s.user ↔ s.closes = 0 := by
  constructor
  · intro heq
    have hcard := h.card
    rw [heq, h.card_blocks] at hcard
    omega
  · intro hzero
    refine (Finset.eq_of_subset_of_card_le (fun p hp ↦ ?_) ?_).symm
    · rcases Finset.mem_union.1 hp with hp | hp
      · exact h.file_live p (List.mem_toFinset.1 hp)
      · obtain ⟨f, hf, rfl⟩ := Finset.mem_image.1 hp
        exact h.user_live f (List.mem_toFinset.1 hf)
    · rw [h.card_blocks, h.card, hzero]
      exact le_rfl

end Blocks

/-! ### The count and the interrupt line -/

theorem bmod_eq_zero_iff_of_lt {k : ℕ} (h : k < 2 ^ 32) : (k : ℤ).bmod (2 ^ 32) = 0 ↔ k = 0 := by
  rw [Int.bmod_def]
  split <;> omega

theorem bmod_eq_self_iff {k : ℕ} : (k : ℤ).bmod (2 ^ 32) = k ↔ k < 2 ^ 31 := by
  rw [Int.bmod_def]
  split <;> omega

/-- The count is that of the open files, and the line is masked while there are none. -/
structure CountInv (s : OpenSystem) : Prop where
  le_peak : s.files.length ≤ s.peak
  peak_le : s.peak ≤ s.files.length + s.closes
  num : s.state.dev.numOpen = (s.files.length : ℤ).bmod (2 ^ 32)
  masked : s.peak < 2 ^ 32 → (s.state.dev.pic.masked = true ↔ s.files = [])

section Count

variable {t : INodes} {x : FileNode} {s : OpenSystem} {file u : ℕ}

theorem CountInv.fsOpen (h : s.CountInv) : (s.fsOpen t x file u).CountInv := by
  have hle := h.le_peak
  have hpeak_le := h.peak_le
  have hpeak : (s.fsOpen t x file u).peak = max s.peak (s.files.length + 1) := rfl
  have hlen : (s.fsOpen t x file u).files.length = s.files.length + 1 := rfl
  have hcloses : (s.fsOpen t x file u).closes = s.closes := rfl
  refine ⟨?_, ?_, ?_, fun hlt ↦ ?_⟩
  · omega
  · omega
  · rw [fsOpen_numOpen, h.num, Int.bmod_add_bmod, hlen]
    rfl
  · refine iff_of_false ?_ (List.cons_ne_nil _ _)
    rw [fsOpen_pic]
    by_cases hzero : s.state.dev.numOpen = 0
    · rw [if_pos hzero, Pic.masked_irqClearMask]
      exact Bool.false_ne_true
    · -- files are open already, so the line is unmasked
      rw [if_neg hzero, h.masked (by omega)]
      rintro hnil
      rw [h.num, hnil] at hzero
      exact hzero rfl

theorem CountInv.fsClose (h : s.CountInv) (hfile : file ∈ s.files) : (s.fsClose file).CountInv := by
  have hle := h.le_peak
  have hpeak_le := h.peak_le
  have hpos := List.length_pos_of_mem hfile
  have hpeak : (s.fsClose file).peak = s.peak := rfl
  have hlen : (s.fsClose file).files.length = s.files.length - 1 := List.length_erase_of_mem hfile
  have hcloses : (s.fsClose file).closes = s.closes + 1 := rfl
  have hnum : (s.state.dev.numOpen - 1).bmod (2 ^ 32) =
      ((s.fsClose file).files.length : ℤ).bmod (2 ^ 32) := by
    rw [h.num, Int.bmod_sub_bmod, hlen, Int.ofNat_sub hpos]
    rfl
  refine ⟨by omega, by omega, ?_, fun hlt ↦ ?_⟩
  · rw [fsClose_dev, Line.closed_numOpen, hnum]
  · rw [fsClose_dev, Line.closed_pic, hnum]
    have hiff := bmod_eq_zero_iff_of_lt (k := (s.fsClose file).files.length) (by omega)
    by_cases hzero : (s.fsClose file).files.length = 0
    · rw [if_pos (hiff.2 hzero)]
      exact iff_of_true (Pic.masked_irqSetMask _) (List.length_eq_zero_iff.1 hzero)
    · rw [if_neg (mt hiff.1 hzero), h.masked (by omega)]
      exact iff_of_false (List.ne_nil_of_mem hfile) fun hnil ↦ hzero (by rw [hnil]; rfl)

/-- **The count is right as long as it does not overflow.** -/
theorem CountInv.num_iff (h : s.CountInv) :
    s.state.dev.numOpen = s.files.length ↔ s.files.length < 2 ^ 31 := by
  rw [h.num]
  exact bmod_eq_self_iff

/-- **And so is the interrupt line.** -/
theorem CountInv.line (h : s.CountInv) (hpeak : s.peak < 2 ^ 31) :
    s.state.dev.pic.masked = false ↔ 0 < s.state.dev.numOpen := by
  have hle := h.le_peak
  have hmasked := not_congr (h.masked (by omega))
  rwa [h.num_iff.2 (by omega), Int.natCast_pos, List.length_pos_iff, ← Bool.not_eq_true]

end Count

/-! ### Runs -/

section Runs

variable {t : INodes} {x : FileNode} {s s' : OpenSystem} {as : List FileEvent} {out : List Unit}

/-- What one call can be. -/
theorem step_cases {e : FileEvent} {b : Unit} (h : s.step t x e = some (b, s')) :
    (∃ file u, e = .open file u ∧ file ∉ s.state.live ∧ u ∉ s.state.live ∧ file ≠ u ∧
      s' = s.fsOpen t x file u) ∨
    ∃ file ∈ s.files, e = .close file ∧ s' = s.fsClose file := by
  cases e with
  | «open» file u =>
    rw [step] at h
    split at h
    · next hfresh =>
      exact Or.inl ⟨file, u, rfl, hfresh.1, hfresh.2.1, hfresh.2.2, by cases h; rfl⟩
    · cases h
  | close file =>
    rw [step] at h
    split at h
    · next hmem => exact Or.inr ⟨file, hmem, rfl, by cases h; rfl⟩
    · cases h

/-- **Every call keeps the invariants.** -/
theorem inv_step {e : FileEvent} {b : Unit} (hs : s.BlocksInv ∧ s.CountInv)
    (h : s.step t x e = some (b, s')) : s'.BlocksInv ∧ s'.CountInv := by
  obtain ⟨file, u, -, hfile, hu, hne, rfl⟩ | ⟨file, hfile, -, rfl⟩ := step_cases h
  · exact ⟨hs.1.fsOpen hfile hu hne, hs.2.fsOpen⟩
  · exact ⟨hs.1.fsClose hfile, hs.2.fsClose hfile⟩

theorem inv_boot (pic : Pic) (ofile : ℕ → OFile) :
    (boot pic ofile).BlocksInv ∧ (boot pic ofile).CountInv := by
  refine ⟨⟨?_, ?_, ?_, ?_, ?_, ?_⟩, le_rfl, le_rfl, ?_, fun _ ↦ ?_⟩
  case refine_8 => exact iff_of_true (Pic.masked_picInit pic) rfl
  all_goals simp [boot]

/-- No file is counted as closed exactly when all calls were openings. -/
theorem closes_eq_zero_iff (h : runTrace (step t x) s as = some (out, s')) :
    s'.closes = 0 ↔ s.closes = 0 ∧ ∀ e ∈ as, ∃ file u, e = .open file u := by
  induction as generalizing s out with
  | nil =>
    cases h
    exact (and_iff_left fun e he ↦ absurd he List.not_mem_nil).symm
  | cons e as ih =>
    obtain ⟨b, s₁, out', hstep, hrun, -⟩ := runTrace_cons_eq_some h
    rw [ih hrun, List.forall_mem_cons]
    obtain ⟨file, u, rfl, -, -, -, rfl⟩ | ⟨file, -, rfl, rfl⟩ := step_cases hstep
    · rw [and_iff_right (⟨file, u, rfl⟩ : ∃ f v, FileEvent.open file u = .open f v)]
      rfl
    · refine iff_of_false (fun hzero ↦ Nat.succ_ne_zero _ hzero.1) ?_
      rintro ⟨-, ⟨f, u, he⟩, -⟩
      cases he

/-- While nothing is closed, every call opens one more file. -/
theorem length_files_eq (h : runTrace (step t x) s as = some (out, s'))
    (hall : ∀ e ∈ as, ∃ file u, e = .open file u) :
    s'.files.length = s.files.length + as.length := by
  induction as generalizing s out with
  | nil =>
    cases h
    rfl
  | cons e as ih =>
    obtain ⟨b, s₁, out', hstep, hrun, -⟩ := runTrace_cons_eq_some h
    obtain ⟨⟨file, u, rfl⟩, hrest⟩ := List.forall_mem_cons.1 hall
    obtain ⟨f, v, -, -, -, -, rfl⟩ | ⟨f, -, he, -⟩ := step_cases hstep
    · have hlen : (s.fsOpen t x f v).files.length = s.files.length + 1 := rfl
      rw [ih hrun hrest, List.length_cons]
      omega
    · cases he

/-- **When the blocks, the count and the line are right.** At the end of every run of openings and
closings they all are exactly when no file was closed and fewer than `2 ^ 31` were opened; and the
count and the line are right in every run in which fewer than `2 ^ 31` files were open at once. -/
theorem balanced_iff (t : INodes) (x : FileNode) (pic : Pic) (ofile : ℕ → OFile)
    (as : List FileEvent) (out : List Unit) (s : OpenSystem)
    (h : runTrace (step t x) (boot pic ofile) as = some (out, s)) :
    (s.Balanced ↔ (∀ e ∈ as, ∃ file user, e = .open file user) ∧ as.length < 2 ^ 31) ∧
      (s.peak < 2 ^ 31 → s.state.dev.numOpen = s.files.length ∧
        (s.state.dev.pic.masked = false ↔ 0 < s.state.dev.numOpen)) := by
  obtain ⟨hblocks, hcount⟩ := invariant_of_runTrace
    (I := fun s ↦ s.BlocksInv ∧ s.CountInv) (fun s e b s' ↦ inv_step) (inv_boot pic ofile) h
  have hle := hcount.le_peak
  have hpeak := hcount.peak_le
  have hcloses : s.closes = 0 ↔ ∀ e ∈ as, ∃ file u, e = .open file u :=
    (closes_eq_zero_iff h).trans (and_iff_right rfl)
  refine ⟨⟨fun hb ↦ ?_, fun ⟨hall, hlt⟩ ↦ ?_⟩, fun hlt ↦ ?_⟩
  · have hall := hcloses.1 (hblocks.blocks_iff.1 hb.blocks)
    have hlen : s.files.length = 0 + as.length := length_files_eq h hall
    have hlt := hcount.num_iff.1 hb.num
    exact ⟨hall, by omega⟩
  · have hzero := hcloses.2 hall
    have hlen : s.files.length = 0 + as.length := length_files_eq h hall
    refine ⟨hblocks.blocks_iff.2 hzero, ?_, hcount.num_iff.2 (by omega), hcount.line (by omega)⟩
    rw [hblocks.card, hzero, Nat.add_zero]
  · exact ⟨hcount.num_iff.2 (by omega), hcount.line hlt⟩

end Runs

/-- The system at boot, with all interrupts unmasked before `PIC_init`. -/
abbrev bootKeyboard : OpenSystem := boot ⟨0, 0⟩ fun _ ↦ ⟨.null, 0, 0⟩

theorem balanced_iff_twoFiles :
    ∃ out s, runTrace (step keyboardInodes (.inode 3)) bootKeyboard [.open 1 2, .open 5 6] =
      some (out, s) ∧ s.state.live = {6, 5, 2, 1} ∧ s.Balanced := by
  obtain ⟨out, s, hrun, hlive⟩ : ∃ out s,
      runTrace (step keyboardInodes (.inode 3)) bootKeyboard [.open 1 2, .open 5 6] =
        some (out, s) ∧ s.state.live = {6, 5, 2, 1} := ⟨_, _, rfl, rfl⟩
  exact ⟨out, s, hrun, hlive, (balanced_iff _ _ _ _ _ out s hrun).1.2 ⟨by simp, by decide⟩⟩

/-- **A closed file leaves its `struct PS2User` behind.** -/
theorem close_leaks_user :
    ∃ out s, runTrace (step keyboardInodes (.inode 3)) bootKeyboard [.open 1 2, .close 1] =
      some (out, s) ∧ s.files = [] ∧ s.state.live = {2} ∧ ¬s.Balanced := by
  refine ⟨_, _, rfl, rfl, rfl, fun h ↦ ?_⟩
  exact absurd h.blocks (by decide)

end OpenSystem

end Ps2

end Marimba
