import Mathlib.Data.BitVec
import Mathlib.Data.List.Nodup
import Mathlib.Logic.Function.Basic
import Mathlib.Logic.Relation

/-!
# A small part of the x86 instruction set

Enough of it for code that moves words between registers and the stack and for counting loops, at
any word width `w`. A program maps labels to code, which is the list of instructions from the label
on; the state of a run is the list of those still to come with the state of the machine, and an
empty list is where the code has been left by a return.

Memory is a map from addresses to words, of which only the addresses at a distance of whole words
from each other are used. Of the flags only the zero flag is computed, and what a call does is up to
a function from states to states.

The rules:

* `Reaches.block` — code without jumps is run at once.
* `Reaches.loop` — what a pass through the code at a label preserves, any number of passes
  preserves.
* `State.Holds.pushWord`, `State.Holds.set`, `State.exec_pushes`, `State.exec_pops` and
  `State.iret_spec` — pushes, stores and pops as operations on the list of words that the stack
  holds, as long as the stack does not go once around the memory.
-/

namespace X86

/-- The general-purpose registers, by the names they share at all widths. -/
inductive Reg where
  | ax | bx | cx | dx | si | di | bp | sp
  | r8 | r9 | r10 | r11 | r12 | r13 | r14 | r15
  deriving DecidableEq, Repr

/-- The other registers that an interrupt saves. -/
inductive SysReg where
  | ip | cs | flags | ss
  deriving DecidableEq, Repr

/-- The state of a machine. -/
structure State (w : ℕ) where
  gpr : Reg → BitVec w
  sys : SysReg → BitVec w
  mem : BitVec w → BitVec w

/-- A memory operand: base, scaled index and displacement. -/
structure Addr (w : ℕ) where
  base : Option Reg
  index : Option (Reg × ℕ)
  disp : BitVec w

/-- The instructions. -/
inductive Instr (w : ℕ) (L : Type*) where
  | movImm (dst : Reg) (v : BitVec w)
  | mov (dst src : Reg)
  | load (dst : Reg) (a : Addr w)
  | store (a : Addr w) (src : Reg)
  | orImm (dst : Reg) (v : BitVec w)
  | mul (src : Reg)
  | inc (dst : Reg)
  | cmp (dst : Reg) (v : BitVec w)
  | push (src : Reg)
  | pop (dst : Reg)
  | call (l : L)
  | nop
  | jmp (l : L)
  | jne (l : L)
  | ret
  | iret

/-- The size of a word in bytes. -/
def cell (w : ℕ) : ℕ := w / 8

variable {w : ℕ} {L : Type*}

namespace State

/-- The address of a memory operand. -/
def ea (s : State w) (a : Addr w) : BitVec w :=
  a.base.elim 0 s.gpr + a.index.elim 0 (fun i ↦ s.gpr i.1 * BitVec.ofNat w i.2) + a.disp

def setReg (s : State w) (r : Reg) (v : BitVec w) : State w :=
  { s with gpr := Function.update s.gpr r v }

def setMem (s : State w) (a v : BitVec w) : State w :=
  { s with mem := Function.update s.mem a v }

def setSys (s : State w) (r : SysReg) (v : BitVec w) : State w :=
  { s with sys := Function.update s.sys r v }

/-- The zero flag. -/
def zf (s : State w) : Bool := (s.sys .flags).getLsbD 6

def setZf (s : State w) (b : Bool) : State w :=
  s.setSys .flags
    (if b then s.sys .flags ||| BitVec.twoPow w 6 else s.sys .flags &&& ~~~BitVec.twoPow w 6)

/-- A word is pushed. -/
def pushWord (s : State w) (v : BitVec w) : State w :=
  (s.setMem (s.gpr .sp - BitVec.ofNat w (cell w)) v).setReg .sp
    (s.gpr .sp - BitVec.ofNat w (cell w))

/-- The stack pointer moves over the word that is popped. -/
def dropWord (s : State w) : State w := s.setReg .sp (s.gpr .sp + BitVec.ofNat w (cell w))

/-- The word the stack pointer points to. -/
def top (s : State w) : BitVec w := s.mem (s.gpr .sp)

/-- A word is popped into a register that is not a general-purpose one. -/
def popSys (s : State w) (r : SysReg) : State w := (s.dropWord).setSys r s.top

/-- A word is popped into a register. -/
def popReg (s : State w) (r : Reg) : State w := (s.dropWord).setReg r s.top

/-- The return from an interrupt. -/
def iret (s : State w) : State w :=
  let t := ((s.popSys .ip).popSys .cs).popSys .flags
  (t.popReg .sp).setSys .ss (t.dropWord.top)

@[simp] theorem setReg_gpr (s : State w) (r : Reg) (v : BitVec w) :
    (s.setReg r v).gpr = Function.update s.gpr r v := rfl
@[simp] theorem setReg_sys (s : State w) (r : Reg) (v : BitVec w) : (s.setReg r v).sys = s.sys :=
  rfl
@[simp] theorem setReg_mem (s : State w) (r : Reg) (v : BitVec w) : (s.setReg r v).mem = s.mem :=
  rfl
@[simp] theorem setMem_gpr (s : State w) (a v : BitVec w) : (s.setMem a v).gpr = s.gpr := rfl
@[simp] theorem setMem_sys (s : State w) (a v : BitVec w) : (s.setMem a v).sys = s.sys := rfl
@[simp] theorem setMem_mem (s : State w) (a v : BitVec w) :
    (s.setMem a v).mem = Function.update s.mem a v := rfl
@[simp] theorem setSys_gpr (s : State w) (r : SysReg) (v : BitVec w) : (s.setSys r v).gpr = s.gpr :=
  rfl
@[simp] theorem setSys_sys (s : State w) (r : SysReg) (v : BitVec w) :
    (s.setSys r v).sys = Function.update s.sys r v := rfl
@[simp] theorem setSys_mem (s : State w) (r : SysReg) (v : BitVec w) : (s.setSys r v).mem = s.mem :=
  rfl
@[simp] theorem setZf_gpr (s : State w) (b : Bool) : (s.setZf b).gpr = s.gpr := rfl
@[simp] theorem setZf_mem (s : State w) (b : Bool) : (s.setZf b).mem = s.mem := rfl

theorem setZf_zf (s : State w) (b : Bool) (hw : 6 < w) : (s.setZf b).zf = b := by
  rw [zf, setZf, setSys_sys, Function.update_self]
  cases b with
  | true => simp [hw]
  | false => simp [hw]

end State

/-! ### Runs -/

namespace Instr

/-- What an instruction does to the state, jumps aside. -/
def exec (ext : L → State w → State w) : Instr w L → State w → State w
  | movImm d v, s => s.setReg d v
  | mov d r, s => s.setReg d (s.gpr r)
  | load d a, s => s.setReg d (s.mem (s.ea a))
  | store a r, s => s.setMem (s.ea a) (s.gpr r)
  | orImm d v, s => (s.setReg d (s.gpr d ||| v)).setZf (s.gpr d ||| v == 0)
  | mul r, s =>
    let p := (s.gpr .ax).toNat * (s.gpr r).toNat
    (s.setReg .ax (BitVec.ofNat w p)).setReg .dx (BitVec.ofNat w (p / 2 ^ w))
  | inc d, s => (s.setReg d (s.gpr d + 1)).setZf (s.gpr d + 1 == 0)
  | cmp d v, s => s.setZf (s.gpr d == v)
  | push r, s => s.pushWord (s.gpr r)
  | pop d, s => s.popReg d
  | call l, s => ext l s
  | nop, s => s
  | jmp _, s => s
  | jne _, s => s
  | ret, s => s.popSys .ip
  | iret, s => s.iret

/-- The code behind an instruction. -/
def next (prog : L → List (Instr w L)) (zf : Bool) (rest : List (Instr w L)) :
    Instr w L → List (Instr w L)
  | jmp l => prog l
  | jne l => if zf then rest else prog l
  | ret | iret => []
  | _ => rest

/-- The next instruction of the list is the next one to be run. -/
def Straight : Instr w L → Prop
  | jmp _ | jne _ | ret | iret => False
  | _ => True

theorem next_of_straight {prog : L → List (Instr w L)} {zf : Bool} {rest : List (Instr w L)}
    {i : Instr w L} (h : i.Straight) : i.next prog zf rest = rest := by
  cases i with
  | jmp _ | jne _ | ret | iret => exact h.elim
  | _ => rfl

end Instr

/-- The code to be run, and the state. -/
abbrev Conf (w : ℕ) (L : Type*) : Type _ := List (Instr w L) × State w

/-- One instruction is run. -/
def step (prog : L → List (Instr w L)) (ext : L → State w → State w) :
    Conf w L → Option (Conf w L)
  | ([], _) => none
  | (i :: rest, s) => some (i.next prog s.zf rest, i.exec ext s)

/-- A run leads from one configuration to another. -/
def Reaches (prog : L → List (Instr w L)) (ext : L → State w → State w) :
    Conf w L → Conf w L → Prop :=
  Relation.ReflTransGen fun c c' ↦ step prog ext c = some c'

/-- What straight code does. -/
def exec (ext : L → State w → State w) (is : List (Instr w L)) (s : State w) : State w :=
  is.foldl (fun s i ↦ i.exec ext s) s

variable {prog : L → List (Instr w L)} {ext : L → State w → State w} {s s' : State w}

@[simp] theorem exec_nil : exec ext [] s = s := rfl

@[simp] theorem exec_cons (i : Instr w L) (is : List (Instr w L)) :
    exec ext (i :: is) s = exec ext is (i.exec ext s) := rfl

theorem exec_append (is js : List (Instr w L)) :
    exec ext (is ++ js) s = exec ext js (exec ext is s) := List.foldl_append

namespace Reaches

variable {c c' c'' : Conf w L} {rest : List (Instr w L)} {l : L}

theorem refl (c : Conf w L) : Reaches prog ext c c := Relation.ReflTransGen.refl

theorem trans (h : Reaches prog ext c c') (h' : Reaches prog ext c' c'') :
    Reaches prog ext c c'' := Relation.ReflTransGen.trans h h'

theorem single (h : step prog ext c = some c') : Reaches prog ext c c' :=
  Relation.ReflTransGen.single h

/-- **Straight code** is run at once. By induction on the code. -/
theorem block (is : List (Instr w L)) (h : ∀ i ∈ is, i.Straight) (s : State w) :
    Reaches prog ext (is ++ rest, s) (rest, exec ext is s) := by
  induction is generalizing s with
  | nil => exact refl _
  | cons i is ih =>
    have hstep : step prog ext (i :: (is ++ rest), s) = some (is ++ rest, i.exec ext s) := by
      rw [step, Instr.next_of_straight (h i List.mem_cons_self)]
    exact (single hstep).trans (ih (fun j hj ↦ h j (List.mem_cons_of_mem i hj)) _)

theorem jmp : Reaches prog ext (.jmp l :: rest, s) (prog l, s) := single rfl

theorem jne_taken (h : s.zf = false) : Reaches prog ext (.jne l :: rest, s) (prog l, s) := by
  refine single ?_
  rw [step, Instr.next, h]
  rfl

theorem jne_not_taken (h : s.zf = true) : Reaches prog ext (.jne l :: rest, s) (rest, s) := by
  refine single ?_
  rw [step, Instr.next, h]
  rfl

/-- **Loops.** Each of `n` passes through the code establishes the invariant of the next one. By
induction on the number of passes. -/
theorem loop {code : List (Instr w L)} (I : ℕ → State w → Prop) (n : ℕ)
    (hpass : ∀ k < n, ∀ s, I k s → ∃ s', Reaches prog ext (code, s) (code, s') ∧ I (k + 1) s')
    (h : I 0 s) : ∃ s', Reaches prog ext (code, s) (code, s') ∧ I n s' := by
  induction n with
  | zero => exact ⟨s, refl _, h⟩
  | succ n ih =>
    obtain ⟨s₁, hrun, hinv⟩ := ih fun k hk ↦ hpass k (hk.trans n.lt_succ_self)
    obtain ⟨s₂, hrun', hinv'⟩ := hpass n n.lt_succ_self s₁ hinv
    exact ⟨s₂, hrun.trans hrun', hinv'⟩

/-- A run that has left the code has left it in one state only. -/
theorem final_unique {t t' : State w} (h : Reaches prog ext c ([], t))
    (h' : Reaches prog ext c ([], t')) : t = t' := by
  have hfinal {u u' : State w} (hrun : Reaches prog ext ([], u) ([], u')) : u = u' := by
    rcases Relation.ReflTransGen.cases_head hrun with he | ⟨d, hstep, -⟩
    · exact congrArg Prod.snd he
    · cases hstep
  have hunique : Relator.RightUnique fun c c' : Conf w L ↦ step prog ext c = some c' :=
    fun _ _ _ h₁ h₂ ↦ Option.some.inj (h₁.symm.trans h₂)
  rcases Relation.ReflTransGen.total_of_right_unique hunique h h' with hrun | hrun
  · exact hfinal hrun
  · exact (hfinal hrun).symm

end Reaches

/-! ### The stack -/

namespace State

/-- The address of a word on the stack, by its distance from the stack pointer. -/
def slot (s : State w) (i : ℕ) : BitVec w := s.gpr .sp + BitVec.ofNat w (cell w * i)

/-- The words on the stack, from the stack pointer upward, are those of the list. -/
def Holds (s : State w) (ws : List (BitVec w)) : Prop :=
  ∀ i v, ws[i]? = some v → s.mem (s.slot i) = v

/-- The stack pointer is moved by some words, and of the memory only these words are written. -/
structure Grown (s s' : State w) (n : ℕ) : Prop where
  slot : ∀ i, s'.slot (n + i) = s.slot i
  mem : ∀ a, (∀ i < n, a ≠ s'.slot i) → s'.mem a = s.mem a

end State

open State

/-- Two slots are different unless the stack goes around the memory between them. -/
theorem slot_ne {i j : ℕ} (hlt : i < j) (hcell : 0 < cell w) (hroom : cell w * j < 2 ^ w) :
    s.slot i ≠ s.slot j := by
  intro he
  have hle : cell w * i ≤ cell w * j := Nat.mul_le_mul_left _ hlt.le
  have hof : BitVec.ofNat w (cell w * i) = BitVec.ofNat w (cell w * j) :=
    (BitVec.add_right_inj _).1 he
  have hnat := congrArg BitVec.toNat hof
  rw [BitVec.toNat_ofNat, BitVec.toNat_ofNat, Nat.mod_eq_of_lt (hle.trans_lt hroom),
    Nat.mod_eq_of_lt hroom] at hnat
  exact hlt.ne (Nat.eq_of_mul_eq_mul_left hcell hnat)

namespace State

/-! #### Pushes -/

theorem pushWord_slot_succ (s : State w) (v : BitVec w) (i : ℕ) :
    (s.pushWord v).slot (i + 1) = s.slot i := by
  rw [slot, slot, pushWord, setReg_gpr, Function.update_self, Nat.mul_succ, Nat.add_comm,
    BitVec.ofNat_add, ← BitVec.add_assoc, BitVec.sub_add_cancel]

@[simp] theorem pushWord_sys (s : State w) (v : BitVec w) : (s.pushWord v).sys = s.sys := rfl

theorem pushWord_gpr_of_ne {r : Reg} (s : State w) (v : BitVec w) (hr : r ≠ .sp) :
    (s.pushWord v).gpr r = s.gpr r := Function.update_of_ne hr ..

theorem pushWord_slot_zero (s : State w) (v : BitVec w) :
    (s.pushWord v).slot 0 = s.gpr .sp - BitVec.ofNat w (cell w) := by
  rw [slot, pushWord, setReg_gpr, Function.update_self, Nat.mul_zero]
  exact BitVec.add_zero _

theorem pushWord_mem (s : State w) (v a : BitVec w) :
    (s.pushWord v).mem a = if a = (s.pushWord v).slot 0 then v else s.mem a := by
  rw [pushWord_slot_zero]
  exact Function.update_apply ..

theorem Holds.pushWord {ws : List (BitVec w)} {v : BitVec w} (h : s.Holds ws) (hcell : 0 < cell w)
    (hroom : cell w * ws.length < 2 ^ w) : (s.pushWord v).Holds (v :: ws) := by
  rintro (- | i) u hu
  · rw [pushWord_mem, if_pos rfl]
    exact Option.some.inj hu
  · have hi : i + 1 < (v :: ws).length := (List.getElem?_eq_some_iff.1 hu).1
    have hlt : cell w * (i + 1) < 2 ^ w :=
      (Nat.mul_le_mul_left _ (Nat.le_of_lt_succ hi)).trans_lt hroom
    rw [pushWord_mem, if_neg (slot_ne (Nat.succ_pos i) hcell hlt).symm, pushWord_slot_succ]
    exact h i u hu

theorem Grown.refl (s : State w) : Grown s s 0 := ⟨fun i ↦ by rw [Nat.zero_add], fun _ _ ↦ rfl⟩

theorem Grown.pushWord {s₀ : State w} {n : ℕ} (h : Grown s₀ s n) (v : BitVec w) :
    Grown s₀ (s.pushWord v) (n + 1) := by
  refine ⟨fun i ↦ ?_, fun a ha ↦ ?_⟩
  · rw [Nat.add_right_comm, pushWord_slot_succ, h.slot]
  · rw [pushWord_mem, if_neg (ha 0 n.succ_pos)]
    refine h.mem a fun i hi ↦ ?_
    rw [← pushWord_slot_succ s v]
    exact ha (i + 1) (Nat.succ_lt_succ hi)

/-! #### Registers and slots -/

theorem Holds.setReg {ws : List (BitVec w)} {r : Reg} (h : s.Holds ws) (hr : r ≠ .sp)
    (v : BitVec w) : (s.setReg r v).Holds ws := by
  intro i u hu
  rw [← h i u hu, slot, slot, setReg_gpr, Function.update_of_ne hr.symm]
  rfl

theorem Grown.setReg {s₀ : State w} {n : ℕ} {r : Reg} (h : Grown s₀ s n) (hr : r ≠ .sp)
    (v : BitVec w) : Grown s₀ (s.setReg r v) n := by
  have hslot (i : ℕ) : (s.setReg r v).slot i = s.slot i := by
    rw [State.slot, State.slot, setReg_gpr, Function.update_of_ne hr.symm]
  refine ⟨fun i ↦ (hslot _).trans (h.slot i), fun a ha ↦ h.mem a fun i hi ↦ ?_⟩
  rw [← hslot]
  exact ha i hi

theorem Grown.setSys {s₀ : State w} {n : ℕ} (h : Grown s₀ s n) (r : SysReg) (v : BitVec w) :
    Grown s₀ (s.setSys r v) n := ⟨h.slot, h.mem⟩

/-- A store to a slot is a change of the list. -/
theorem Holds.set {ws : List (BitVec w)} {i : ℕ} (h : s.Holds ws) (hi : i < ws.length)
    (hcell : 0 < cell w) (hroom : cell w * ws.length < 2 ^ w) (v : BitVec w) :
    (s.setMem (s.slot i) v).Holds (ws.set i v) := by
  intro j u hu
  show Function.update s.mem (s.slot i) v (s.slot j) = u
  rw [List.getElem?_set] at hu
  have hlen (k : ℕ) (hk : k < ws.length) : cell w * k < 2 ^ w :=
    (Nat.mul_le_mul_left _ hk.le).trans_lt hroom
  by_cases he : i = j
  · subst he
    rw [if_pos rfl, if_pos hi] at hu
    rw [Function.update_self, Option.some.inj hu]
  · rw [if_neg he] at hu
    have hj : j < ws.length := (List.getElem?_eq_some_iff.1 hu).1
    rw [Function.update_of_ne, h j u hu]
    rcases Nat.lt_or_gt_of_ne he with hlt | hlt
    · exact (slot_ne hlt hcell (hlen j hj)).symm
    · exact slot_ne hlt hcell (hlen i hi)

theorem Grown.set {s₀ : State w} {n i : ℕ} (h : Grown s₀ s n) (hi : i < n) (v : BitVec w) :
    Grown s₀ (s.setMem (s.slot i) v) n := by
  refine ⟨h.slot, fun a ha ↦ ?_⟩
  have hne : a ≠ s.slot i := ha i hi
  show Function.update s.mem (s.slot i) v a = _
  rw [Function.update_of_ne hne]
  exact h.mem a ha

/-- Several words are pushed. -/
def pushWords (s : State w) (vs : List (BitVec w)) : State w := vs.foldl State.pushWord s

theorem pushWords_spec {s₀ : State w} {n : ℕ} (vs : List (BitVec w)) {ws : List (BitVec w)}
    (h : s.Holds ws) (hg : Grown s₀ s n) (hcell : 0 < cell w)
    (hroom : cell w * (ws.length + vs.length) < 2 ^ w) :
    (s.pushWords vs).Holds (vs.reverse ++ ws) ∧ Grown s₀ (s.pushWords vs) (n + vs.length) ∧
      (s.pushWords vs).sys = s.sys ∧ ∀ r, r ≠ .sp → (s.pushWords vs).gpr r = s.gpr r := by
  induction vs generalizing s n ws with
  | nil => exact ⟨h, hg, rfl, fun _ _ ↦ rfl⟩
  | cons v vs ih =>
    have hlen : ws.length + (v :: vs).length = (v :: ws).length + vs.length := by
      rw [List.length_cons, List.length_cons]
      omega
    have hlt : cell w * ws.length < 2 ^ w :=
      (Nat.mul_le_mul_left _ (Nat.le_add_right _ _)).trans_lt hroom
    obtain ⟨hold, hgrown, hsys, hgpr⟩ :=
      ih (h.pushWord hcell hlt) (hg.pushWord v) (hlen ▸ hroom)
    refine ⟨?_, ?_, hsys, fun r hr ↦ (hgpr r hr).trans (pushWord_gpr_of_ne s v hr)⟩
    · rw [List.reverse_cons, List.append_assoc]
      exact hold
    · rw [List.length_cons, Nat.add_comm vs.length, ← Nat.add_assoc]
      exact hgrown

/-- Pushing registers other than the stack pointer is pushing what they hold. -/
theorem exec_pushes {rs : List Reg} (hsp : Reg.sp ∉ rs) :
    exec ext (rs.map .push) s = s.pushWords (rs.map s.gpr) := by
  induction rs generalizing s with
  | nil => rfl
  | cons r rs ih =>
    obtain ⟨hr, hrs⟩ := List.ne_and_not_mem_of_not_mem_cons hsp
    rw [List.map_cons, exec_cons, ih hrs, List.map_cons]
    refine congrArg _ (List.map_congr_left fun q hq ↦ ?_)
    exact pushWord_gpr_of_ne _ _ fun he ↦ hrs (he ▸ hq)

/-! #### Pops -/

theorem slot_zero (s : State w) : s.slot 0 = s.gpr .sp := by
  rw [slot, Nat.mul_zero]
  exact BitVec.add_zero _

theorem dropWord_slot (s : State w) (i : ℕ) : s.dropWord.slot i = s.slot (i + 1) := by
  rw [slot, slot, dropWord, setReg_gpr, Function.update_self, Nat.mul_succ,
    Nat.add_comm (cell w * i), BitVec.ofNat_add, BitVec.add_assoc]

theorem Holds.top {v : BitVec w} {ws : List (BitVec w)} (h : s.Holds (v :: ws)) : s.top = v := by
  rw [State.top, ← slot_zero]
  exact h 0 v rfl

theorem Holds.dropWord {v : BitVec w} {ws : List (BitVec w)} (h : s.Holds (v :: ws)) :
    s.dropWord.Holds ws := by
  intro i u hu
  rw [dropWord_slot]
  exact h (i + 1) u hu

theorem Holds.popReg {v : BitVec w} {ws : List (BitVec w)} {r : Reg} (h : s.Holds (v :: ws))
    (hr : r ≠ .sp) : (s.popReg r).Holds ws := by
  intro i u hu
  rw [← h.dropWord i u hu]
  show s.mem _ = s.mem _
  rw [slot, slot]
  refine congrArg (fun a ↦ s.mem (a + _)) ?_
  exact Function.update_of_ne hr.symm ..

/-- The registers after they have been assigned to one after the other. -/
def assign : List Reg → List (BitVec w) → (Reg → BitVec w) → Reg → BitVec w
  | r :: rs, v :: vs, g => assign rs vs (Function.update g r v)
  | _, _, g => g

theorem assign_congr {rs : List Reg} {vs : List (BitVec w)} {g g' : Reg → BitVec w} {q : Reg}
    (h : g q = g' q) : assign rs vs g q = assign rs vs g' q := by
  induction rs generalizing vs g g' with
  | nil => exact h
  | cons r rs ih =>
    rcases vs with - | ⟨v, vs⟩
    · exact h
    · refine ih ?_
      rw [Function.update_apply, Function.update_apply, h]

/-- Popping registers other than the stack pointer assigns the words on the stack to them. -/
theorem exec_pops (ext : L → State w → State w) {rs : List Reg} (hsp : Reg.sp ∉ rs)
    {vs ws : List (BitVec w)}
    (hlen : vs.length = rs.length) (h : s.Holds (vs ++ ws)) :
    (exec ext (rs.map .pop) s).Holds ws ∧
      (∀ r, r ≠ .sp → (exec ext (rs.map .pop) s).gpr r = assign rs vs s.gpr r) ∧
      (exec ext (rs.map .pop) s).sys = s.sys ∧ (exec ext (rs.map .pop) s).mem = s.mem := by
  induction rs generalizing s vs with
  | nil =>
    obtain rfl := List.length_eq_zero_iff.1 hlen
    exact ⟨h, fun _ _ ↦ rfl, rfl, rfl⟩
  | cons r rs ih =>
    obtain ⟨hr, hrs⟩ := List.ne_and_not_mem_of_not_mem_cons hsp
    rcases vs with - | ⟨v, vs⟩
    · cases hlen
    · obtain ⟨hold, hgpr, hsys, hmem⟩ :=
        ih hrs (Nat.succ.inj hlen) (Holds.popReg h (Ne.symm hr))
      refine ⟨hold, fun q hq ↦ (hgpr q hq).trans (assign_congr ?_), hsys, hmem⟩
      show Function.update s.dropWord.gpr r s.top q = Function.update s.gpr r v q
      rw [h.top, Function.update_apply, Function.update_apply, State.dropWord, setReg_gpr,
        Function.update_of_ne hq]

theorem Holds.popSys {v : BitVec w} {ws : List (BitVec w)} {r : SysReg} (h : s.Holds (v :: ws)) :
    (s.popSys r).Holds ws := h.dropWord

/-- The return from an interrupt puts the five words on top of the stack into the registers they
are for. -/
theorem iret_spec {ip cs flags sp ss : BitVec w} {ws : List (BitVec w)}
    (h : s.Holds (ip :: cs :: flags :: sp :: ss :: ws)) :
    s.iret.gpr = Function.update s.gpr .sp sp ∧
      (∀ r, s.iret.sys r = match r with
        | .ip => ip
        | .cs => cs
        | .flags => flags
        | .ss => ss) ∧
      s.iret.mem = s.mem := by
  have h₁ := h.popSys (r := .ip)
  have h₂ := h₁.popSys (r := .cs)
  have h₃ := h₂.popSys (r := .flags)
  have hsp := h₃.top
  have hss := h₃.dropWord.top
  have hflags := h₂.top
  have hcs := h₁.top
  have hip := h.top
  refine ⟨?_, fun r ↦ ?_, rfl⟩
  · funext q
    simp only [State.iret, State.popReg, setSys_gpr, setReg_gpr, hsp]
    rcases eq_or_ne q .sp with rfl | hq
    · simp
    · simp [State.popSys, State.dropWord, Function.update_of_ne hq]
  · cases r with
    | ss =>
      simp only [State.iret, setSys_sys, Function.update_self]
      exact hss
    | flags =>
      simp only [State.iret, setSys_sys, State.popReg, setReg_sys]
      exact hflags
    | cs =>
      simp only [State.iret, setSys_sys, State.popReg, setReg_sys]
      exact hcs
    | ip =>
      simp only [State.iret, setSys_sys, State.popReg, setReg_sys]
      exact hip

end State

end X86
