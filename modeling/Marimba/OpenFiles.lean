import Marimba.DeviceFiles
import Marimba.Strings
import Mathlib.Data.Finset.Basic

/-!
# Opening and closing files (`fs.c`)

`FS_open` goes through the inodes, compares their names with the one that is asked for, allocates
the file for the first that has it, and leaves the rest to the `open` callback of the driver.
`FS_close` is the `close` callback.

A driver has a state of its own, of any type `σ`. What `kmalloc` answered to `FS_open` is given; the
blocks that are allocated are those of the file layer, the ones of the drivers included.

The answer of the callback is kept in `ret`, but `ret` only decides whether a message is logged. So
when the callback fails the file is returned all the same, and **the caller takes it for an open
file**; `opensRight_iff` says that this is the only case in which `FS_open` does not do what it
should.
-/

namespace Marimba

open Registration

/-- `struct OFile`. `fops` and `private_data` are addresses. -/
structure OFile where
  inode : FileNode
  fops : ℕ
  privateData : ℕ
  deriving DecidableEq, Repr

/-- The blocks of the file layer, the files in them, and the state of the driver. -/
structure FileState (σ : Type*) where
  live : Finset ℕ
  ofile : ℕ → OFile
  dev : σ

namespace FileState

variable {σ : Type*}

/-- A block is allocated. -/
def alloc (s : FileState σ) (p : ℕ) : FileState σ := { s with live := insert p s.live }

/-- `kfree`. -/
def kfree (s : FileState σ) (p : ℕ) : FileState σ := { s with live := s.live.erase p }

/-- A file is written. -/
def setOfile (s : FileState σ) (p : ℕ) (file : OFile) : FileState σ :=
  { s with ofile := Function.update s.ofile p file }

theorem setOfile_ofile_self (s : FileState σ) (p : ℕ) (file : OFile) :
    (s.setOfile p file).ofile p = file := Function.update_self ..

end FileState

/-- The callbacks of `struct FileOps` for opening and closing. The `open` callback is given the file
to put its private data there: the inode and the operations of the file stay. -/
structure FileOps (σ : Type*) where
  «open» : FileNode → ℕ → FileState σ → ℤ × FileState σ
  close : ℕ → FileState σ → ℤ × FileState σ
  open_inode : ∀ inode file s, ((«open» inode file s).2.ofile file).inode = (s.ofile file).inode
  open_fops : ∀ inode file s, ((«open» inode file s).2.ofile file).fops = (s.ofile file).fops

/-- The inodes as `FS_open` finds them: the links, the name and the operations of the object at each
node, and the strings. -/
structure INodes where
  links : Links FileNode
  name : FileNode → ℕ
  fops : FileNode → ℕ
  strings : ByteMemory

namespace INodes

variable {σ : Type*}

/-- What `FS_open` does with the inode that has the name: the file, `none` for null, with the state.
The allocation has the size of an inode, which is larger than a file. -/
def openInode (t : INodes) (ops : ℕ → FileOps σ) (new : Option ℕ) (curr : FileNode)
    (s : FileState σ) : Option ℕ × FileState σ :=
  match new with
  | none => (none, s)
  | some p =>
    let s := (s.alloc p).setOfile p ⟨curr, t.fops curr, (s.ofile p).privateData⟩
    (some p, ((ops (t.fops curr)).open curr p s).2)

/-- The loop of `FS_open` with what follows it: at most `n` inodes, and `c` characters of a name.
`new` is the address that `kmalloc` returned, `none` for null. -/
def fsOpenFrom (t : INodes) (ops : ℕ → FileOps σ) (name : ℕ) (new : Option ℕ) (c : ℕ) :
    ℕ → FileNode → FileState σ → Option (Option ℕ × FileState σ)
  | 0, _, _ => none
  | n + 1, curr, s =>
    if curr = .inodes then some (none, s)
    else
      (strcmp t.strings c name (t.name curr)).bind fun d ↦
        if d = 0 then some (t.openInode ops new curr s)
        else t.fsOpenFrom ops name new c n (t.links.next curr) s

/-- `FS_open` returns this file (`none` for null) and leaves this state behind, with any bounds that
are large enough. -/
def FsOpens (t : INodes) (ops : ℕ → FileOps σ) (name : ℕ) (new : Option ℕ) (s : FileState σ)
    (r : Option ℕ × FileState σ) : Prop :=
  ∃ b, ∀ c n, b < c → b < n →
    t.fsOpenFrom ops name new c n (t.links.next .inodes) s = some r

/-- What the `open` callback of an inode answers, when the file is at `p`. -/
def openResult (t : INodes) (ops : ℕ → FileOps σ) (p : ℕ) (x : FileNode) (s : FileState σ) : ℤ :=
  ((ops (t.fops x)).open x p
    ((s.alloc p).setOfile p ⟨x, t.fops x, (s.ofile p).privateData⟩)).1

end INodes

/-- `FS_close`. -/
def fsClose {σ : Type*} (ops : ℕ → FileOps σ) (file : ℕ) (s : FileState σ) : FileState σ :=
  ((ops (s.ofile file).fops).close file s).2

/-! ### `FS_open` -/

/-- The first of the inodes that has this name. -/
def firstNamed (names : FileNode → List UInt8) (text : List UInt8) : List FileNode → Option FileNode
  | [] => none
  | x :: xs => if text = names x then some x else firstNamed names text xs

/-- **What `FS_open` should do**, when `first` is the first inode of that name: return a file
exactly when there is one, the allocation succeeded and the callback did not fail; the file is one
of that inode, and when there is no file, nothing is left allocated. -/
structure OpensRight {σ : Type*} (t : INodes) (ops : ℕ → FileOps σ) (first : Option FileNode)
    (new : Option ℕ) (s : FileState σ) (r : Option ℕ × FileState σ) : Prop where
  returns : r.1 ≠ none ↔ ∃ x p, first = some x ∧ new = some p ∧ 0 ≤ t.openResult ops p x s
  refers : ∀ p, r.1 = some p →
    ∃ x, first = some x ∧ (r.2.ofile p).inode = x ∧ (r.2.ofile p).fops = t.fops x
  frees : r.1 = none → r.2.live = s.live

namespace INodes

section Open

variable {σ : Type*} {t : INodes} {ops : ℕ → FileOps σ} {name p : ℕ} {new : Option ℕ}
  {s : FileState σ} {x : FileNode} {xs : List FileNode} {names : FileNode → List UInt8}
  {text : List UInt8} {r r' : Option ℕ × FileState σ}

/-- What `FS_open` does when the search has ended. -/
def openFirst (t : INodes) (ops : ℕ → FileOps σ) (new : Option ℕ) (s : FileState σ) :
    Option FileNode → Option ℕ × FileState σ
  | none => (none, s)
  | some x => t.openInode ops new x s

/-- The loop runs over the inodes until it finds the name. -/
theorem fsOpenFrom_of_path {c n : ℕ} {a : FileNode} (hpath : t.links.IsPath a xs .inodes)
    (hhead : .inodes ∉ xs) (hname : t.strings.HasString name text)
    (hnames : ∀ x ∈ xs, t.strings.HasString (t.name x) (names x)) (hc : text.length < c)
    (hn : xs.length < n) :
    t.fsOpenFrom ops name new c n (t.links.next a) s =
      some (t.openFirst ops new s (firstNamed names text xs)) := by
  induction xs generalizing a n with
  | nil =>
    obtain ⟨n, rfl⟩ := Nat.exists_eq_succ_of_ne_zero (Nat.ne_zero_of_lt hn)
    have hend : t.links.next a = .inodes := hpath
    rw [hend, fsOpenFrom, if_pos rfl]
    rfl
  | cons x xs ih =>
    obtain ⟨n, rfl⟩ := Nat.exists_eq_succ_of_ne_zero (Nat.ne_zero_of_lt hn)
    obtain ⟨hx, -, hrest⟩ := hpath
    obtain ⟨hne, hhead⟩ := List.ne_and_not_mem_of_not_mem_cons hhead
    obtain ⟨hnamex, hnames⟩ := List.forall_mem_cons.1 hnames
    obtain ⟨d, hd, hiff⟩ := strcmp_eq_some hname hnamex hc
    rw [hx, fsOpenFrom, if_neg hne.symm, hd, Option.bind_some, firstNamed]
    by_cases heq : text = names x
    · rw [if_pos (hiff.2 heq), if_pos heq]
      rfl
    · rw [if_neg (mt hiff.1 heq), if_neg heq]
      exact ih hrest hhead hnames (Nat.lt_of_succ_lt_succ hn)

/-- **`FS_open` returns**, and what it does is decided by the first inode of that name. -/
theorem fsOpens_openFirst (hq : t.links.IsQueue .inodes xs) (hname : t.strings.HasString name text)
    (hnames : ∀ x ∈ xs, t.strings.HasString (t.name x) (names x)) :
    t.FsOpens ops name new s (t.openFirst ops new s (firstNamed names text xs)) := by
  refine ⟨max text.length xs.length, fun c n hc hn ↦ ?_⟩
  exact fsOpenFrom_of_path hq.1 (List.nodup_cons.1 hq.2).1 hname hnames
    ((le_max_left _ _).trans_lt hc) ((le_max_right _ _).trans_lt hn)

theorem FsOpens.unique (h : t.FsOpens ops name new s r) (h' : t.FsOpens ops name new s r') :
    r = r' := by
  obtain ⟨b, hb⟩ := h
  obtain ⟨b', hb'⟩ := h'
  have hr := hb (max b b' + 1) (max b b' + 1) (by omega) (by omega)
  have hr' := hb' (max b b' + 1) (max b b' + 1) (by omega) (by omega)
  exact Option.some.inj (hr.symm.trans hr')

/-- The file belongs to the inode, also after the callback. -/
theorem openInode_some (t : INodes) (ops : ℕ → FileOps σ) (p : ℕ) (x : FileNode)
    (s : FileState σ) :
    ∃ s', t.openInode ops (some p) x s = (some p, s') ∧ (s'.ofile p).inode = x ∧
      (s'.ofile p).fops = t.fops x := by
  refine ⟨_, rfl, ?_, ?_⟩
  · rw [FileOps.open_inode, FileState.setOfile_ofile_self]
  · rw [FileOps.open_fops, FileState.setOfile_ofile_self]

/-- One answer of `FS_open`, in all cases. -/
theorem opensRight_openFirst_iff {first : Option FileNode} :
    OpensRight t ops first new s (t.openFirst ops new s first) ↔
      ¬∃ x p, first = some x ∧ new = some p ∧ t.openResult ops p x s < 0 := by
  rcases first with - | x
  · refine iff_of_true ⟨iff_of_false (fun h ↦ h rfl) ?_, fun p hp ↦ ?_, fun _ ↦ rfl⟩ ?_
    · rintro ⟨x, p, hx, -⟩
      cases hx
    · cases hp
    · rintro ⟨x, p, hx, -⟩
      cases hx
  rcases new with - | p
  · refine iff_of_true ⟨iff_of_false (fun h ↦ h rfl) ?_, fun p hp ↦ ?_, fun _ ↦ rfl⟩ ?_
    · rintro ⟨x, p, -, hp, -⟩
      cases hp
    · cases hp
    · rintro ⟨x, p, -, hp, -⟩
      cases hp
  obtain ⟨s', hopen, hinode, hfops⟩ := openInode_some t ops p x s
  have hfirst : t.openFirst ops (some p) s (some x) = (some p, s') := hopen
  rw [hfirst]
  have hsome : (some p, s').1 ≠ none := Option.some_ne_none p
  constructor
  · rintro ⟨hreturns, -, -⟩ ⟨x', p', hx, hp, hlt⟩
    obtain ⟨x'', p'', hx', hp', hle⟩ := hreturns.1 hsome
    cases hx
    cases hp
    cases hx'
    cases hp'
    omega
  · intro hno
    refine ⟨iff_of_true hsome ⟨x, p, rfl, rfl, ?_⟩, fun p' hp' ↦ ?_, fun h ↦ absurd h hsome⟩
    · by_contra hlt
      exact hno ⟨x, p, rfl, rfl, Int.not_le.1 hlt⟩
    · cases hp'
      exact ⟨x, rfl, hinode, hfops⟩

end Open

end INodes

/-- **When `FS_open` does what it should.** For every list of inodes, name, outcome of the
allocation and callbacks: it returns, and what it does is right unless an inode has the name, the
allocation succeeds and the callback of the first such inode fails. -/
theorem fsOpen_right_iff {σ : Type*} (t : INodes) (ops : ℕ → FileOps σ) (name : ℕ)
    (new : Option ℕ) (s : FileState σ) (xs : List FileNode) (names : FileNode → List UInt8)
    (text : List UInt8) (hq : t.links.IsQueue .inodes xs)
    (hname : t.strings.HasString name text)
    (hnames : ∀ x ∈ xs, t.strings.HasString (t.name x) (names x)) :
    ∃ r, t.FsOpens ops name new s r ∧ (∀ r', t.FsOpens ops name new s r' → r' = r) ∧
      (OpensRight t ops (firstNamed names text xs) new s r ↔
        ¬∃ x p, firstNamed names text xs = some x ∧ new = some p ∧
          t.openResult ops p x s < 0) :=
  have hopens := INodes.fsOpens_openFirst hq hname hnames
  ⟨_, hopens, fun _ h ↦ h.unique hopens, INodes.opensRight_openFirst_iff⟩

/-- Callbacks that answer with `d` and do nothing else. With `-1` this is `ps2_open` when its own
allocation fails. -/
def FileOps.answering (d : ℤ) : FileOps Unit where
  «open» := fun _ _ s ↦ (d, s)
  close := fun _ s ↦ (0, s)
  open_inode := fun _ _ _ ↦ rfl
  open_fops := fun _ _ _ ↦ rfl

/-- The registry with the keyboard on it: its inode is at `3`. The name that is asked for is at
`0`, and that of the inode at `4`. -/
def keyboardInodes : INodes where
  links := (applyAll blankFiles.init [.cdev 2 "ps2" 3]).links
  name := fun _ ↦ 4
  fops := fun _ ↦ 0
  strings := ByteMemory.ofList [0x70, 0x73, 0x32, 0, 0x70, 0x73, 0x32, 0]

/-- No file is open. -/
def noFiles : FileState Unit := ⟨∅, fun _ ↦ ⟨.null, 0, 0⟩, ()⟩

/-- The characters of `"ps2"`. -/
def ps2Text : List UInt8 := [0x70, 0x73, 0x32]

theorem isQueue_keyboardInodes : keyboardInodes.links.IsQueue .inodes [.inode 3] := by
  have hd : Distinct [.cdev 2 "ps2" 3] := ⟨by decide, by decide, by decide⟩
  exact (registryInv_applyAll blankFiles hd).inodes.1

theorem fsOpen_right_iff_keyboard :
    ∃ r, keyboardInodes.FsOpens (fun _ ↦ .answering 0) 0 (some 7) noFiles r ∧
      OpensRight keyboardInodes (fun _ ↦ .answering 0) (some (.inode 3)) (some 7) noFiles r := by
  obtain ⟨r, hopens, -, hiff⟩ := fsOpen_right_iff keyboardInodes (fun _ ↦ .answering 0) 0 (some 7)
    noFiles [.inode 3] (fun _ ↦ ps2Text) ps2Text isQueue_keyboardInodes (by decide) (by decide)
  refine ⟨r, hopens, hiff.2 ?_⟩
  rintro ⟨x, p, -, -, hlt⟩
  exact Int.lt_irrefl 0 hlt

/-- **A file that could not be opened is returned.** The callback answers `-1`, and `FS_open`
returns the file all the same. -/
theorem fsOpen_returns_failed_file :
    ∃ r, keyboardInodes.FsOpens (fun _ ↦ .answering (-1)) 0 (some 7) noFiles r ∧ r.1 = some 7 ∧
      ¬OpensRight keyboardInodes (fun _ ↦ .answering (-1)) (some (.inode 3)) (some 7) noFiles
        r := by
  have hname : keyboardInodes.strings.HasString 0 ps2Text := by decide
  have hnames : ∀ x ∈ [FileNode.inode 3],
      keyboardInodes.strings.HasString (keyboardInodes.name x) ps2Text := by decide
  refine ⟨_, INodes.fsOpens_openFirst isQueue_keyboardInodes hname hnames, rfl, fun h ↦ ?_⟩
  exact INodes.opensRight_openFirst_iff.1 h ⟨.inode 3, 7, rfl, rfl, by decide⟩

end Marimba
