import Marimba.LinkedList
import Mathlib.Data.Int.Notation
import Mathlib.Data.List.Induction

/-!
# The registry of device files (`fs.c`)

`files` holds three intrusive lists: the inodes, the block devices and the char devices. Drivers
register their devices with `FS_register_cdev` and `BLK_register`, and `BLK_open` searches the block
devices by name.

**The static initialiser is the interesting part.** The head of `files.chars` is written by
`LINKED_LIST_INIT(files.blocks, …)`, so it starts out pointing at the head of *another* list. A
char device is linked in behind the tail pointer of `files.chars`, which is the head of
`files.blocks` until a char device is there. Hence the results below:

* the inodes are a proper ring after any registrations (`ring_inodes`);
* the block devices are a proper ring in some orders of registration and not in others, and
  `iterates_blocks_iff` says in which: all is well without char devices, and also when the very
  first registration is a char device and a block device follows;
* iterating over the char devices starts at the head of the block devices for ever, so it never
  visits just the registered char devices (`lists_never_right`).
-/

namespace Marimba

open Links

/-! ### Data -/

/-- The list headers in play, by the object they are embedded in. Objects are given by their
address. -/
inductive FileNode where
  | null
  | inodes
  | blocks
  | chars
  | inode (i : ℕ)
  | bdev (b : ℕ)
  | cdev (c : ℕ)
  deriving DecidableEq, Repr

/-- The fields of `struct INode` that registration writes. `fops` and `cdev` are addresses. -/
structure INode where
  fops : ℕ
  type : Char
  cdev : ℕ
  name : String
  deriving DecidableEq, Repr

/-- The fields of `struct CharDev` outside of its list header. -/
structure CharDev where
  fops : ℕ
  inode : ℕ
  deriving DecidableEq, Repr

/-- `FILE_TYPE_CHAR_DEVICE`. -/
def fileTypeCharDevice : Char := 'c'

/-- The registry and the objects on its lists. `name` is what reading `->name` of a `BlockDev`
gives at a node; where no `BlockDev` is, that is whatever stands in memory there. -/
structure Files where
  links : Links FileNode
  inode : ℕ → INode
  cdev : ℕ → CharDev
  name : FileNode → String

namespace Files

/-- `LINKED_LIST_INIT`: the head of `list` as the macro sets it when it is given `arg`. -/
def linkedListInit (l : Links FileNode) (list arg : FileNode) : Links FileNode :=
  (l.setNext list arg).setPrev list arg

/-- The static initial value of `files`; the headers of the objects hold anything. -/
def init (f : Files) : Files :=
  let inodes := linkedListInit f.links .inodes .inodes
  let blocks := linkedListInit inodes .blocks .blocks
  { f with links := linkedListInit blocks .chars .blocks }

/-- `FS_register_cdev`; `new` is the address `kmalloc` returned for the inode, `none` for null. -/
def registerCdev (f : Files) (cdev : ℕ) (name : String) (new : Option ℕ) : ℤ × Files :=
  match new with
  | none => (-1, f)
  | some new =>
    (0, { f with
      inode := Function.update f.inode new
        ⟨(f.cdev cdev).fops, fileTypeCharDevice, cdev, name⟩
      cdev := Function.update f.cdev cdev ⟨(f.cdev cdev).fops, new⟩
      links := LL.enqueue (LL.enqueue f.links .inodes (.inode new)) .chars (.cdev cdev) })

/-- `BLK_register`. -/
def blkRegister (f : Files) (bdev : ℕ) : ℤ × Files :=
  (0, { f with links := LL.enqueue f.links .blocks (.bdev bdev) })

/-- The loop of `BLK_open`: the first visited object with that name, or `some none` when the loop
ends without one; `none` when it has not ended after that many iterations. -/
def blkOpenFrom (f : Files) (name : String) : ℕ → FileNode → Option (Option FileNode)
  | 0, _ => none
  | n + 1, curr =>
    if curr = .blocks then some none
    else if name = f.name curr then some (some curr)
    else blkOpenFrom f name n (f.links.next curr)

/-- `BLK_open` returns this object (`none` for null). -/
def BlkOpens (f : Files) (name : String) (res : Option FileNode) : Prop :=
  ∃ n, blkOpenFrom f name n (f.links.next .blocks) = some res

end Files

/-- A registration that succeeds: a char device with its name and the inode allocated for it, or a
block device. -/
inductive Registration where
  | cdev (c : ℕ) (name : String) (inode : ℕ)
  | bdev (b : ℕ)
  deriving DecidableEq, Repr

namespace Registration

/-- One registration. -/
def apply (f : Files) : Registration → Files
  | .cdev c name i => (f.registerCdev c name (some i)).2
  | .bdev b => (f.blkRegister b).2

/-- Registrations one after the other. -/
def applyAll (f : Files) (regs : List Registration) : Files := regs.foldl apply f

/-- The registered block devices, in order. -/
def bdevs (regs : List Registration) : List ℕ :=
  regs.filterMap fun | .bdev b => some b | .cdev .. => none

/-- The registered char devices, in order. -/
def cdevs (regs : List Registration) : List ℕ :=
  regs.filterMap fun | .cdev c _ _ => some c | .bdev _ => none

/-- The inodes allocated for the char devices, in order. -/
def inodes (regs : List Registration) : List ℕ :=
  regs.filterMap fun | .cdev _ _ i => some i | .bdev _ => none

/-- No device object is registered twice, and each inode is a new one. -/
def Distinct (regs : List Registration) : Prop :=
  (bdevs regs).Nodup ∧ (cdevs regs).Nodup ∧ (inodes regs).Nodup

theorem links_apply_cdev (f : Files) (c : ℕ) (name : String) (i : ℕ) :
    (apply f (.cdev c name i)).links =
      LL.enqueue (LL.enqueue f.links .inodes (.inode i)) .chars (.cdev c) := rfl

theorem links_apply_bdev (f : Files) (b : ℕ) :
    (apply f (.bdev b)).links = LL.enqueue f.links .blocks (.bdev b) := rfl

theorem applyAll_concat (f : Files) (regs : List Registration) (r : Registration) :
    applyAll f (regs ++ [r]) = apply (applyAll f regs) r := by
  rw [applyAll, List.foldl_append]
  rfl

end Registration

open Registration

/-- What the registry is for: iterating over each list yields exactly what was registered there, in
order; each inode is that of its char device; and `BLK_open` returns the first block device of that
name. -/
structure ListsRight (f : Files) (regs : List Registration) : Prop where
  blocks : LL.Iterates f.links .blocks ((bdevs regs).map .bdev)
  chars : LL.Iterates f.links .chars ((cdevs regs).map .cdev)
  inodes : LL.Iterates f.links .inodes ((inodes regs).map .inode)
  cdevOf : ∀ c name i, .cdev c name i ∈ regs → (f.inode i).cdev = c ∧ (f.cdev c).inode = i
  opens : ∀ name,
    f.BlkOpens name (((bdevs regs).map FileNode.bdev).find? fun x ↦ name = f.name x)

namespace Files

variable {f : Files} {regs : List Registration} {name : String}

/-! ### The head of the char devices -/

/-- No tail pointer points at the head of the char devices, so nothing is ever linked in behind
it. -/
structure CharsDangling (f : Files) : Prop where
  next_chars : f.links.next .chars = .blocks
  prev_inodes : f.links.prev .inodes ≠ .chars
  prev_blocks : f.links.prev .blocks ≠ .chars
  prev_chars : f.links.prev .chars ≠ .chars

theorem charsDangling_init (f : Files) : f.init.CharsDangling := by
  constructor <;> simp [init, linkedListInit, setNext, setPrev, Function.update]

/-- A node enqueued on one of the lists, behind a tail pointer that is not the head of the char
devices, leaves the `next` pointer of that head alone. -/
theorem enqueue_next_chars {l : Links FileNode} {list n : FileNode} (hn : n ≠ .chars)
    (ht : l.prev list ≠ .chars) : (LL.enqueue l list n).next .chars = l.next .chars :=
  LL.llAdd_next_of_ne hn.symm ht.symm

/-- And it leaves every tail pointer away from that head. -/
theorem enqueue_prev_ne_chars {l : Links FileNode} {list list' n : FileNode} (hn : n ≠ .chars)
    (hne : list' ≠ n) (ht : l.prev list' ≠ .chars) :
    (LL.enqueue l list n).prev list' ≠ .chars := by
  by_cases h : list' = list
  · rw [h, LL.enqueue_prev_head]
    exact hn
  · have hprev : (LL.enqueue l list n).prev list' = l.prev list' := LL.llAdd_prev_of_ne hne h
    rw [hprev]
    exact ht

theorem CharsDangling.apply (h : f.CharsDangling) (r : Registration) :
    (r.apply f).CharsDangling := by
  cases r with
  | cdev c name i =>
    have hprev : ∀ list, list = .inodes ∨ list = .blocks ∨ list = .chars →
        (LL.enqueue f.links .inodes (.inode i)).prev list ≠ .chars := by
      rintro list (rfl | rfl | rfl)
      · exact enqueue_prev_ne_chars (by simp) (by simp) h.prev_inodes
      · exact enqueue_prev_ne_chars (by simp) (by simp) h.prev_blocks
      · exact enqueue_prev_ne_chars (by simp) (by simp) h.prev_chars
    refine ⟨?_, ?_, ?_, ?_⟩ <;> rw [links_apply_cdev]
    · rw [enqueue_next_chars (by simp) (hprev .chars (by simp)),
        enqueue_next_chars (by simp) h.prev_inodes, h.next_chars]
    · exact enqueue_prev_ne_chars (by simp) (by simp) (hprev .inodes (by simp))
    · exact enqueue_prev_ne_chars (by simp) (by simp) (hprev .blocks (by simp))
    · exact enqueue_prev_ne_chars (by simp) (by simp) (hprev .chars (by simp))
  | bdev b =>
    refine ⟨?_, ?_, ?_, ?_⟩ <;> rw [links_apply_bdev]
    · rw [enqueue_next_chars (by simp) h.prev_blocks, h.next_chars]
    · exact enqueue_prev_ne_chars (by simp) (by simp) h.prev_inodes
    · exact enqueue_prev_ne_chars (by simp) (by simp) h.prev_blocks
    · exact enqueue_prev_ne_chars (by simp) (by simp) h.prev_chars

theorem CharsDangling.applyAll (h : f.CharsDangling) (regs : List Registration) :
    (applyAll f regs).CharsDangling := by
  induction regs generalizing f with
  | nil => exact h
  | cons r regs ih => exact ih (h.apply r)

/-- Iterating over the char devices never yields char devices only: it starts at the head of the
block devices. -/
theorem CharsDangling.not_iterates (h : f.CharsDangling) (cs : List ℕ) :
    ¬LL.Iterates f.links .chars (cs.map .cdev) := by
  intro hi
  have hhead := hi.head (by rw [h.next_chars]; simp)
  rw [h.next_chars] at hhead
  obtain ⟨c, -, hc⟩ := List.mem_map.1 (List.mem_of_mem_head? hhead)
  cases hc

end Files

/-- **The registry is never right**, whatever is registered and in whatever order: iterating over
`files.chars` does not yield the registered char devices. -/
theorem lists_never_right (f : Files) (regs : List Registration) :
    ¬ListsRight (applyAll f.init regs) regs := fun h ↦
  ((Files.charsDangling_init f).applyAll regs).not_iterates (cdevs regs) h.chars

/-- A registry before its static initialiser is written: every pointer is null. -/
def blankFiles : Files where
  links := ⟨fun _ ↦ .null, fun _ ↦ .null⟩
  inode := fun _ ↦ ⟨0, fileTypeCharDevice, 0, ""⟩
  cdev := fun _ ↦ ⟨0, 0⟩
  name := fun _ ↦ "sda"

/-- **A char device registered after a block device hides it**: iterating over the block devices
yields the char device and then the head of the char devices. -/
theorem cdev_hides_bdev :
    LL.Iterates (applyAll blankFiles.init [.bdev 1, .cdev 2 "kbd" 3]).links .blocks
        [.cdev 2, .chars] ∧
      ¬ListsRight (applyAll blankFiles.init [.bdev 1, .cdev 2 "kbd" 3])
        [.bdev 1, .cdev 2 "kbd" 3] := by
  have hnext : (applyAll blankFiles.init [.bdev 1, .cdev 2 "kbd" 3]).links.next .blocks =
      .cdev 2 := by decide
  refine ⟨⟨3, by decide⟩, fun h ↦ ?_⟩
  have hhead := h.blocks.head (by rw [hnext]; decide)
  rw [hnext] at hhead
  exact absurd hhead (by decide)

/-! ### The inodes and the block devices -/

/-- The block devices are not disturbed by the char devices: there are none, or the first
registration of all was one and a block device has come since. -/
def BlocksKept (regs : List Registration) : Prop :=
  cdevs regs = [] ∨ bdevs regs ≠ [] ∧ ∃ c name i, regs.head? = some (.cdev c name i)

section Registry

variable {f : Files} {regs : List Registration} {b c i : ℕ} {name : String}

@[simp] theorem cdevs_concat_cdev : cdevs (regs ++ [.cdev c name i]) = cdevs regs ++ [c] := by
  simp [cdevs]

@[simp] theorem cdevs_concat_bdev : cdevs (regs ++ [.bdev b]) = cdevs regs := by simp [cdevs]

@[simp] theorem bdevs_concat_cdev : bdevs (regs ++ [.cdev c name i]) = bdevs regs := by
  simp [bdevs]

@[simp] theorem bdevs_concat_bdev : bdevs (regs ++ [.bdev b]) = bdevs regs ++ [b] := by
  simp [bdevs]

@[simp] theorem inodes_concat_cdev : inodes (regs ++ [.cdev c name i]) = inodes regs ++ [i] := by
  simp [inodes]

@[simp] theorem inodes_concat_bdev : inodes (regs ++ [.bdev b]) = inodes regs := by
  simp [inodes]

/-- With no char devices, the first registration is that of a block device, if there is any. -/
theorem head?_ne_cdev (h : cdevs regs = []) : regs.head? ≠ some (.cdev c name i) := by
  rcases regs with - | ⟨⟨c', name', i'⟩ | b, regs⟩
  · simp
  · simp [cdevs] at h
  · simp

/-- With char devices and no block devices, the first registration is that of a char device. -/
theorem head?_eq_cdev (hc : cdevs regs ≠ []) (hb : bdevs regs = []) :
    ∃ c name i, regs.head? = some (.cdev c name i) := by
  rcases regs with - | ⟨⟨c, name, i⟩ | b, regs⟩
  · simp [cdevs] at hc
  · exact ⟨c, name, i, rfl⟩
  · simp [bdevs] at hb

/-- A first registration stays the first. -/
theorem head?_concat (hc : cdevs regs ≠ []) (r : Registration) :
    (regs ++ [r]).head? = regs.head? := by
  rcases regs with - | ⟨r', regs⟩
  · simp [cdevs] at hc
  · rfl

theorem blocksKept_concat_cdev :
    BlocksKept (regs ++ [.cdev c name i]) ↔ cdevs regs ≠ [] ∧ BlocksKept regs := by
  simp only [BlocksKept, cdevs_concat_cdev, bdevs_concat_cdev, List.append_eq_nil_iff,
    List.cons_ne_nil, and_false, false_or]
  by_cases hc : cdevs regs = []
  · refine iff_of_false (fun ⟨hb, c', name', i', hh⟩ ↦ ?_) fun h ↦ h.1 hc
    rcases regs with - | ⟨r, regs⟩
    · exact hb rfl
    · exact head?_ne_cdev hc hh
  · rw [head?_concat hc]
    exact ⟨fun h ↦ ⟨hc, Or.inr h⟩, fun h ↦ h.2.resolve_left hc⟩

theorem blocksKept_concat_bdev :
    BlocksKept (regs ++ [.bdev b]) ↔ BlocksKept regs ∨ bdevs regs = [] := by
  simp only [BlocksKept, cdevs_concat_bdev, bdevs_concat_bdev, ne_eq, List.append_eq_nil_iff,
    List.cons_ne_nil, and_false, not_false_eq_true, true_and]
  by_cases hc : cdevs regs = []
  · simp [hc]
  · rw [head?_concat hc]
    by_cases hb : bdevs regs = []
    · simp [hc, hb, head?_eq_cdev hc hb]
    · simp [hc, hb]

/-- What holds of the three lists after any registrations. Of the block devices it says which of the
two shapes they have: a proper ring, or a head that points at a char device. -/
structure RegistryInv (f : Files) (regs : List Registration) : Prop where
  inodes : IsRing f.links .inodes ((inodes regs).map .inode)
  tail_nil : cdevs regs = [] → f.links.prev .chars = .blocks
  tail_cons : cdevs regs ≠ [] → ∃ c ∈ cdevs regs, f.links.prev .chars = .cdev c
  kept : BlocksKept regs → IsRing f.links .blocks ((bdevs regs).map .bdev)
  hidden : ¬BlocksKept regs → ∃ c, f.links.next .blocks = .cdev c
  last : f.links.prev .blocks = ((bdevs regs).map FileNode.bdev).getLastD .blocks

theorem registryInv_init (f : Files) : RegistryInv f.init [] := by
  have hkept : BlocksKept [] := Or.inl rfl
  constructor
  case hidden => exact fun h ↦ absurd hkept h
  all_goals simp [inodes, cdevs, bdevs, IsRing, IsQueue, IsPath, Files.init, Files.linkedListInit,
    setNext,
    setPrev, Function.update]

/-- A block device is linked in behind the last block device, or behind the head. -/
theorem RegistryInv.apply_bdev (h : RegistryInv f regs) (hb : b ∉ bdevs regs) :
    RegistryInv (apply f (.bdev b)) (regs ++ [.bdev b]) := by
  have hlast := getLastD_mem_cons ((bdevs regs).map FileNode.bdev) .blocks
  rw [← h.last] at hlast
  -- the `next` pointers written are those of the new node and of the old tail
  have hnext : ∀ x, x ≠ .blocks → (∀ b', x ≠ .bdev b') →
      (apply f (.bdev b)).links.next x = f.links.next x := by
    intro x hx hx'
    refine LL.llAdd_next_of_ne (hx' b) fun he ↦ ?_
    rcases List.mem_cons.1 hlast with hl | hl
    · exact hx (he.trans hl)
    · obtain ⟨b', -, hb'⟩ := List.mem_map.1 hl
      exact hx' b' (he.trans hb'.symm)
  have hprev : ∀ x, x ≠ .blocks → (∀ b', x ≠ .bdev b') →
      (apply f (.bdev b)).links.prev x = f.links.prev x := fun x hx hx' ↦
    LL.llAdd_prev_of_ne (hx' b) hx
  have hfresh : FileNode.bdev b ∉ FileNode.blocks :: (bdevs regs).map FileNode.bdev := by
    simpa using hb
  refine ⟨?_, fun hc ↦ ?_, fun hc ↦ ?_, fun hk ↦ ?_, fun hk ↦ ?_, ?_⟩
  · rw [inodes_concat_bdev]
    refine h.inodes.congr (fun x hx ↦ hnext x ?_ ?_) fun x hx ↦ hprev x ?_ ?_ <;>
      (simp only [List.mem_cons, List.mem_map] at hx; grind)
  · rw [cdevs_concat_bdev] at hc
    rw [hprev .chars (by simp) (by simp), h.tail_nil hc]
  · rw [cdevs_concat_bdev] at hc ⊢
    rw [hprev .chars (by simp) (by simp)]
    exact h.tail_cons hc
  · rw [bdevs_concat_bdev, List.map_append]
    by_cases hk' : BlocksKept regs
    · exact LL.ring_enqueue (h.kept hk') hfresh
    · -- the first block device after char devices: its head is overwritten, which repairs it
      have hnil := (blocksKept_concat_bdev.1 hk).resolve_left hk'
      have htail : f.links.prev .blocks = .blocks := by rw [h.last, hnil]; rfl
      obtain ⟨c, hc⟩ := h.hidden hk'
      have hpath : IsPath f.links .blocks [] (.cdev c) := hc
      rw [hnil]
      refine ⟨⟨?_, by simp⟩, LL.enqueue_prev_head⟩
      refine hpath.snoc (List.nodup_singleton _) rfl (fun x hx hne ↦ ?_) (by simp) ?_ ?_ ?_
      · exact absurd (List.mem_singleton.1 hx) hne
      · have hlink : (apply f (.bdev b)).links.next (f.links.prev .blocks) = .bdev b :=
          LL.llAdd_next_prev
        rwa [htail] at hlink
      · rw [links_apply_bdev]
        exact (LL.llAdd_prev_new (by simp)).trans htail
      · exact LL.llAdd_next_new (by rw [htail]; simp)
  · rw [blocksKept_concat_bdev, not_or] at hk
    obtain ⟨c, hc⟩ := h.hidden hk.1
    refine ⟨c, ?_⟩
    rw [links_apply_bdev, ← hc]
    refine LL.llAdd_next_of_ne (by simp) fun he ↦ ?_
    rw [h.last] at he
    rcases List.eq_nil_or_concat (bdevs regs) with hnil | ⟨bs, b', hbs⟩
    · exact hk.2 hnil
    · rw [hbs] at he
      simp at he
  · rw [links_apply_bdev, LL.enqueue_prev_head, bdevs_concat_bdev]
    simp

/-- A char device is linked in behind the last char device, or behind the head of the block
devices. -/
theorem RegistryInv.apply_cdev (h : RegistryInv f regs) (hi : i ∉ Registration.inodes regs) :
    RegistryInv (apply f (.cdev c name i)) (regs ++ [.cdev c name i]) := by
  set l := LL.enqueue f.links .inodes (.inode i) with hl
  have hring : IsRing l .inodes ((Registration.inodes regs).map FileNode.inode ++ [.inode i]) :=
    LL.ring_enqueue h.inodes (by simpa using hi)
  have hlast := getLastD_mem_cons ((Registration.inodes regs).map FileNode.inode) .inodes
  rw [← h.inodes.2] at hlast
  -- the new inode is linked in among the inodes
  have hnext : ∀ x, x ≠ .inodes → (∀ i', x ≠ .inode i') → l.next x = f.links.next x := by
    intro x hx hx'
    refine LL.llAdd_next_of_ne (hx' i) fun he ↦ ?_
    rcases List.mem_cons.1 hlast with hl | hl
    · exact hx (he.trans hl)
    · obtain ⟨i', -, hi'⟩ := List.mem_map.1 hl
      exact hx' i' (he.trans hi'.symm)
  have hprev : ∀ x, x ≠ .inodes → (∀ i', x ≠ .inode i') → l.prev x = f.links.prev x :=
    fun x hx hx' ↦ LL.llAdd_prev_of_ne (hx' i) hx
  have htail : l.prev .chars = f.links.prev .chars := hprev .chars (by simp) (by simp)
  have hnext' : ∀ x, x ≠ l.prev .chars → (∀ c', x ≠ .cdev c') →
      (LL.enqueue l .chars (.cdev c)).next x = l.next x := fun x hx hx' ↦
    LL.llAdd_next_of_ne (hx' c) hx
  have hprev' : ∀ x, x ≠ .chars → (∀ c', x ≠ .cdev c') →
      (LL.enqueue l .chars (.cdev c)).prev x = l.prev x := fun x hx hx' ↦
    LL.llAdd_prev_of_ne (hx' c) hx
  -- the char device is linked in behind the head of the block devices or a char device
  have hcases : l.prev .chars = .blocks ∧ cdevs regs = [] ∨
      (∃ c', l.prev .chars = .cdev c') ∧ cdevs regs ≠ [] := by
    rw [htail]
    by_cases hc : cdevs regs = []
    · exact Or.inl ⟨h.tail_nil hc, hc⟩
    · obtain ⟨c', -, hc'⟩ := h.tail_cons hc
      exact Or.inr ⟨⟨c', hc'⟩, hc⟩
  have hnotInode : ∀ x ∈ FileNode.inodes :: (Registration.inodes regs).map FileNode.inode ++
      [FileNode.inode i], x ≠ l.prev .chars ∧ x ≠ .chars ∧ ∀ c', x ≠ .cdev c' := by
    intro x hx
    rcases hcases with ⟨ht, -⟩ | ⟨⟨c', ht⟩, -⟩ <;>
      · simp only [List.cons_append, List.mem_cons, List.mem_append, List.mem_map, ht] at hx ⊢
        grind
  refine ⟨?_, fun hc ↦ ?_, fun hc ↦ ?_, fun hk ↦ ?_, fun hk ↦ ?_, ?_⟩
  · rw [inodes_concat_cdev, List.map_append, links_apply_cdev]
    refine hring.congr (fun x hx ↦ ?_) fun x hx ↦ ?_
    · exact hnext' x (hnotInode x hx).1 (hnotInode x hx).2.2
    · exact hprev' x (hnotInode x hx).2.1 (hnotInode x hx).2.2
  · simp at hc
  · refine ⟨c, by simp, ?_⟩
    rw [links_apply_cdev, LL.enqueue_prev_head]
  · obtain ⟨hc, hk⟩ := blocksKept_concat_cdev.1 hk
    obtain ⟨c', hc'⟩ : ∃ c', l.prev .chars = .cdev c' := by
      rcases hcases with ⟨-, hnil⟩ | ⟨hc', -⟩
      · exact absurd hnil hc
      · exact hc'
    rw [bdevs_concat_cdev, links_apply_cdev]
    have hnotBlock : ∀ x ∈ FileNode.blocks :: (bdevs regs).map FileNode.bdev,
        x ≠ .inodes ∧ x ≠ .chars ∧ (∀ i', x ≠ .inode i') ∧ ∀ c', x ≠ .cdev c' := by
      intro x hx
      simp only [List.mem_cons, List.mem_map] at hx
      grind
    refine (h.kept hk).congr (fun x hx ↦ ?_) fun x hx ↦ ?_ <;>
      obtain ⟨h₁, h₂, h₃, h₄⟩ := hnotBlock x hx
    · rw [hnext' x (hc' ▸ h₄ c') h₄, hnext x h₁ h₃]
    · rw [hprev' x h₂ h₄, hprev x h₁ h₃]
  · rw [links_apply_cdev]
    rcases hcases with ⟨ht, hc⟩ | ⟨⟨c', hc'⟩, hc⟩
    · refine ⟨c, ?_⟩
      have hlink : (LL.enqueue l .chars (.cdev c)).next (l.prev .chars) = .cdev c :=
        LL.llAdd_next_prev
      rwa [ht] at hlink
    · rw [hnext' .blocks (by rw [hc']; simp) (by simp), hnext .blocks (by simp) (by simp)]
      exact h.hidden fun hk' ↦ hk (blocksKept_concat_cdev.2 ⟨hc, hk'⟩)
  · rw [links_apply_cdev, hprev' .blocks (by simp) (by simp), hprev .blocks (by simp) (by simp),
      bdevs_concat_cdev]
    exact h.last

/-- **Every sequence of registrations keeps the shape of the lists.** -/
theorem registryInv_applyAll (f : Files) (hd : Distinct regs) :
    RegistryInv (applyAll f.init regs) regs := by
  induction regs using List.reverseRecOn with
  | nil => exact registryInv_init f
  | append_singleton regs r ih =>
    rw [applyAll_concat]
    cases r with
    | cdev c name i =>
      simp only [Distinct, bdevs_concat_cdev, cdevs_concat_cdev, inodes_concat_cdev,
        List.nodup_append] at hd
      obtain ⟨hb, ⟨hc, -, -⟩, hi, -, hnot⟩ := hd
      exact (ih ⟨hb, hc, hi⟩).apply_cdev fun h ↦ hnot i h i (List.mem_singleton_self i) rfl
    | bdev b =>
      simp only [Distinct, bdevs_concat_bdev, cdevs_concat_bdev, inodes_concat_bdev,
        List.nodup_append] at hd
      obtain ⟨⟨hb, -, hnot⟩, hc, hi⟩ := hd
      exact (ih ⟨hb, hc, hi⟩).apply_bdev fun h ↦ hnot b h b (List.mem_singleton_self b) rfl

/-- Iterating over the inodes yields one per char device, in order. -/
theorem iterates_inodes (f : Files) (hd : Distinct regs) :
    LL.Iterates (applyAll f.init regs).links .inodes ((inodes regs).map .inode) :=
  LL.iterates_of_queue (registryInv_applyAll f hd).inodes.1

/-- **When the block devices are right.** Iterating over them yields the registered ones exactly
when the char devices did not get in between. -/
theorem iterates_blocks_iff (f : Files) (hd : Distinct regs) :
    LL.Iterates (applyAll f.init regs).links .blocks ((bdevs regs).map .bdev) ↔
      BlocksKept regs := by
  have hinv := registryInv_applyAll f hd
  refine ⟨fun hi ↦ ?_, fun hk ↦ LL.iterates_of_queue (hinv.kept hk).1⟩
  by_contra hk
  obtain ⟨c, hc⟩ := hinv.hidden hk
  have hhead := hi.head (by rw [hc]; simp)
  rw [hc] at hhead
  obtain ⟨b, -, hb⟩ := List.mem_map.1 (List.mem_of_mem_head? hhead)
  cases hb

end Registry

namespace Files

variable {f : Files} {name : String} {xs : List FileNode}

theorem blkOpenFrom_of_forEach {n : ℕ} {curr : FileNode}
    (h : LL.forEach f.links .blocks n curr = some xs) :
    f.blkOpenFrom name n curr = some (xs.find? fun x ↦ name = f.name x) := by
  induction n generalizing curr xs with
  | zero => cases h
  | succ n ih =>
    rw [LL.forEach] at h
    rw [blkOpenFrom]
    split at h
    · next he =>
      cases h
      rw [if_pos he]
      rfl
    · next he =>
      obtain ⟨ys, hys, rfl⟩ := Option.map_eq_some_iff.1 h
      rw [if_neg he, ih hys, List.find?_cons]
      split <;> simp_all

/-- **`BLK_open` returns the first visited device of that name**, and null when there is none. -/
theorem blkOpens_of_iterates (h : LL.Iterates f.links .blocks xs) :
    f.BlkOpens name (xs.find? fun x ↦ name = f.name x) := by
  obtain ⟨n, hn⟩ := h
  exact ⟨n, blkOpenFrom_of_forEach hn⟩

end Files

/-- `BLK_open` finds the first registered block device of a name, in the orders of registration that
leave the block devices alone. -/
theorem blkOpen_of_blocksKept (f : Files) {regs : List Registration} (hd : Distinct regs)
    (hk : BlocksKept regs) (name : String) :
    (applyAll f.init regs).BlkOpens name
      (((bdevs regs).map FileNode.bdev).find? fun x ↦ name = (applyAll f.init regs).name x) :=
  Files.blkOpens_of_iterates ((iterates_blocks_iff f hd).2 hk)

end Marimba
