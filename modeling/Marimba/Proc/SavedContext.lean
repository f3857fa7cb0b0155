import Mathlib.Data.Fin.Basic
import Mathlib.Data.List.Basic
import Mathlib.Data.List.Induction
import Mathlib.Logic.Function.Basic

/-!
# Saving and loading contexts (`arch/x86_64/proc.c`)

An interrupt leaves the registers of the running process in a frame of fifteen words on the stack:
five are pushed by the processor, two by the stub of the vector and eight by `isr_asm_generic`.
`PROC_save_context` copies the frame into the process, `PROC_load_context` copies a process into the
frame, and the pops of `isr_asm_generic` with `iretq` put the frame back into the registers. The
three agree on which slot is which register (`slotsInOrder`).

**A process gets its own registers back, but for the selectors.** `PROC_save_context` keeps the low
16 bits of the slots of `cs` and `ss`, and `PROC_load_context` does not replace these bits of the
frame but ORs the saved ones into them. So the selectors come out right exactly when the frame they
are loaded onto has no selector bit set that they do not have (`restored_iff`).

The registers that are not in the frame (`rbx`, `r12` to `r15` and the data segments) are moved by
inline assembly, and are left out.
-/

namespace Marimba

/-- The registers of a frame. -/
inductive CtxReg where
  | rbp | rax | r9 | r8 | rcx | rdx | r11 | r10 | rsi | rdi | rip | cs | rflags | rsp | ss
  deriving DecidableEq, Repr

namespace CtxReg

/-- The segment selectors, of which only 16 bits count. -/
def isSelector : CtxReg → Bool
  | .cs | .ss => true
  | _ => false

end CtxReg

/-- The interrupt frame, from the stack pointer upward. -/
abbrev CtxFrame := Fin 15 → BitVec 64

/-- The registers saved in a `struct Process`. -/
structure Context where
  rbp : BitVec 64
  rax : BitVec 64
  r9 : BitVec 64
  r8 : BitVec 64
  rcx : BitVec 64
  rdx : BitVec 64
  r11 : BitVec 64
  r10 : BitVec 64
  rsi : BitVec 64
  rdi : BitVec 64
  rip : BitVec 64
  cs : BitVec 64
  rflags : BitVec 64
  rsp : BitVec 64
  ss : BitVec 64
  deriving DecidableEq

namespace Context

/-- The field of a register. -/
def reg (c : Context) : CtxReg → BitVec 64
  | .rbp => c.rbp
  | .rax => c.rax
  | .r9 => c.r9
  | .r8 => c.r8
  | .rcx => c.rcx
  | .rdx => c.rdx
  | .r11 => c.r11
  | .r10 => c.r10
  | .rsi => c.rsi
  | .rdi => c.rdi
  | .rip => c.rip
  | .cs => c.cs
  | .rflags => c.rflags
  | .rsp => c.rsp
  | .ss => c.ss

end Context

/-- `PROC_save_context`. -/
def saveContext (stack : CtxFrame) : Context where
  rbp := stack 0
  rax := stack 1
  r9 := stack 2
  r8 := stack 3
  rcx := stack 4
  rdx := stack 5
  r11 := stack 6
  r10 := stack 7
  rsi := stack 8
  rdi := stack 9
  rip := stack 10
  cs := stack 11 &&& 0xFFFF
  rflags := stack 12
  rsp := stack 13
  ss := stack 14 &&& 0xFFFF

/-- `PROC_load_context`, with the frame it leaves. -/
def loadContext (proc : Context) (stack : CtxFrame) : CtxFrame
  | 0 => proc.rbp
  | 1 => proc.rax
  | 2 => proc.r9
  | 3 => proc.r8
  | 4 => proc.rcx
  | 5 => proc.rdx
  | 6 => proc.r11
  | 7 => proc.r10
  | 8 => proc.rsi
  | 9 => proc.rdi
  | 10 => proc.rip
  | 11 => stack 11 ||| proc.cs
  | 12 => proc.rflags
  | 13 => proc.rsp
  | 14 => stack 14 ||| proc.ss

/-! ### The stub -/

/-- The pushes of the processor, of the stub of the vector and of `isr_asm_generic`, in order. -/
def pushOrder : List CtxReg :=
  [.ss, .rsp, .rflags, .cs, .rip, .rdi, .rsi, .r10, .r11, .rdx, .rcx, .r8, .r9, .rax, .rbp]

/-- The pops of `isr_asm_generic` and of `iretq`, in order. -/
def popOrder : List CtxReg :=
  [.rbp, .rax, .r9, .r8, .rcx, .rdx, .r11, .r10, .rsi, .rdi, .rip, .cs, .rflags, .rsp, .ss]

/-- The words on the stack after some pushes, from the stack pointer upward. -/
def pushAll (regs : CtxReg → BitVec 64) (order : List CtxReg) : List (BitVec 64) :=
  order.foldl (fun stack r ↦ regs r :: stack) []

/-- The registers after some pops. -/
def popAll : List CtxReg → List (BitVec 64) → (CtxReg → BitVec 64) → CtxReg → BitVec 64
  | r :: rs, w :: ws, regs => popAll rs ws (Function.update regs r w)
  | _, _, regs => regs

/-- The frame of an interrupted process. -/
def pushFrame (regs : CtxReg → BitVec 64) : CtxFrame := fun i ↦ (pushAll regs pushOrder).getD i 0

/-- The registers after the return from the interrupt. -/
def popFrame (stack : CtxFrame) : CtxReg → BitVec 64 :=
  popAll popOrder (List.ofFn stack) fun _ ↦ 0

/-- The slot of a register. -/
def slot : CtxReg → Fin 15
  | .rbp => 0
  | .rax => 1
  | .r9 => 2
  | .r8 => 3
  | .rcx => 4
  | .rdx => 5
  | .r11 => 6
  | .r10 => 7
  | .rsi => 8
  | .rdi => 9
  | .rip => 10
  | .cs => 11
  | .rflags => 12
  | .rsp => 13
  | .ss => 14

/-- What counts of the content of a register: all of it, or the selector. -/
def visible (r : CtxReg) (w : BitVec 64) : BitVec 64 := if r.isSelector then w &&& 0xFFFF else w

/-- The stub pushes each register into its slot and pops it from there. -/
theorem pushFrame_slot (regs : CtxReg → BitVec 64) (r : CtxReg) :
    pushFrame regs (slot r) = regs r := by
  cases r <;> rfl

theorem popFrame_eq (stack : CtxFrame) (r : CtxReg) : popFrame stack r = stack (slot r) := by
  cases r <;> rfl

/-- `PROC_save_context` reads each field from the slot of its register. -/
theorem saveContext_reg (stack : CtxFrame) (r : CtxReg) :
    (saveContext stack).reg r = visible r (stack (slot r)) := by
  cases r <;> rfl

/-- `PROC_load_context` writes each field to the slot of its register; into those of the selectors
it ORs. -/
theorem loadContext_slot (proc : Context) (stack : CtxFrame) (r : CtxReg) :
    loadContext proc stack (slot r) =
      if r.isSelector then stack (slot r) ||| proc.reg r else proc.reg r := by
  cases r <;> rfl

/-- **The slots of save, load and stub agree**: a process is saved with the registers it was
interrupted with, and what is loaded from its fields is what is popped into the registers. -/
def SlotsInOrder : Prop :=
  (∀ regs r, (saveContext (pushFrame regs)).reg r = visible r (regs r)) ∧
    ∀ proc stack r, popFrame (loadContext proc stack) r =
      if r.isSelector then stack (slot r) ||| proc.reg r else proc.reg r

theorem slotsInOrder : SlotsInOrder := by
  refine ⟨fun regs r ↦ ?_, fun proc stack r ↦ ?_⟩
  · rw [saveContext_reg, pushFrame_slot]
  · rw [popFrame_eq, loadContext_slot]

/-! ### Switches -/

/-- A switch: the process saved, if there is one, the process loaded, and the frame. -/
structure Switch where
  out : Option ℕ
  into : ℕ
  frame : CtxFrame

/-- The switch of `IRQ_generic_isr`: save, then load; the frame it leaves and the contexts. -/
def Switch.run (sw : Switch) (contexts : ℕ → Context) : CtxFrame × (ℕ → Context) :=
  let contexts' := match sw.out with
    | some p => Function.update contexts p (saveContext sw.frame)
    | none => contexts
  (loadContext (contexts' sw.into) sw.frame, contexts')

/-- The contexts after a history of switches. -/
def contextsAfter (contexts : ℕ → Context) (history : List Switch) : ℕ → Context :=
  history.foldl (fun contexts sw ↦ (sw.run contexts).2) contexts

/-- The frame from which a process was saved last. -/
def lastSaved (history : List Switch) (p : ℕ) : Option CtxFrame :=
  history.foldl (fun last sw ↦ if sw.out = some p then some sw.frame else last) none

/-- The registers in two frames agree, of the selectors the low 16 bits. -/
def SameRegisters (F G : CtxFrame) : Prop := ∀ r, visible r (F (slot r)) = visible r (G (slot r))

/-- Every selector bit set in `G` is set in `F`. -/
def SelectorsCovered (F G : CtxFrame) : Prop :=
  ∀ r, r.isSelector = true → G (slot r) &&& 0xFFFF &&& ~~~F (slot r) = 0

/-- ORing a selector into a word that has other bits set spoils it. -/
theorem or_selector_iff (f g : BitVec 64) :
    f &&& 0xFFFF = (g ||| (f &&& 0xFFFF)) &&& 0xFFFF ↔ g &&& 0xFFFF &&& ~~~f = 0 := by
  rw [BitVec.eq_of_getLsbD_eq_iff, BitVec.eq_of_getLsbD_eq_iff]
  refine forall₂_congr fun i hi ↦ ?_
  simp only [BitVec.getLsbD_and, BitVec.getLsbD_or, BitVec.getLsbD_not, hi, decide_true,
    Bool.true_and]
  cases f.getLsbD i <;> cases g.getLsbD i <;> cases BitVec.getLsbD (0xFFFF : BitVec 64) i <;> simp

/-- Loading what was saved from `F` onto `G`. -/
theorem sameRegisters_load_iff (F G : CtxFrame) :
    SameRegisters F (loadContext (saveContext F) G) ↔ SelectorsCovered F G := by
  refine forall_congr' fun r ↦ ?_
  rw [loadContext_slot, saveContext_reg]
  cases hr : r.isSelector with
  | false => simp [visible, hr]
  | true => simpa [visible, hr] using or_selector_iff (F (slot r)) (G (slot r))

/-- **The saved context survives**: whatever was switched since, a process still has what it was
saved with last. -/
theorem contextsAfter_eq {history : List Switch} {p : ℕ} {F : CtxFrame}
    (hF : lastSaved history p = some F) (contexts : ℕ → Context) :
    contextsAfter contexts history p = saveContext F := by
  induction history using List.reverseRecOn with
  | nil => cases hF
  | append_singleton history sw ih =>
    rw [lastSaved, List.foldl_append, List.foldl_cons, List.foldl_nil] at hF
    rw [contextsAfter, List.foldl_append, List.foldl_cons, List.foldl_nil]
    by_cases hout : sw.out = some p
    · rw [if_pos hout] at hF
      rw [← Option.some.inj hF]
      simp only [Switch.run, hout, Function.update_self]
    · rw [if_neg hout] at hF
      rw [← ih hF]
      rcases hsw : sw.out with - | q
      · simp only [Switch.run, hsw]
        rfl
      · have hne : p ≠ q := fun he ↦ hout (by rw [hsw, he])
        simp only [Switch.run, hsw, Function.update_of_ne hne]
        rfl

/-- **What a process gets back.** After any history of switches, a process that was saved from `F`
last and is now loaded onto the frame of another one gets the registers of `F` back exactly when no
selector bit is set in that frame that is not set in `F`. Save, load and the stub agree on the
slots in any case. -/
theorem restored_iff (contexts : ℕ → Context) {history : List Switch} {sw : Switch}
    {F : CtxFrame} (hF : lastSaved history sw.into = some F) (hout : sw.out ≠ some sw.into) :
    SlotsInOrder ∧ (SameRegisters F (sw.run (contextsAfter contexts history)).1 ↔
      SelectorsCovered F sw.frame) := by
  refine ⟨slotsInOrder, ?_⟩
  have hctx : (sw.run (contextsAfter contexts history)).1 =
      loadContext (saveContext F) sw.frame := by
    rw [← contextsAfter_eq hF contexts]
    rcases hsw : sw.out with - | q
    · simp only [Switch.run, hsw]
    · have hne : sw.into ≠ q := fun he ↦ hout (by rw [hsw, he])
      simp only [Switch.run, hsw, Function.update_of_ne hne]
  rw [hctx]
  exact sameRegisters_load_iff F sw.frame

/-- A frame with the code segment of the kernel. -/
def kernelFrame : CtxFrame := fun i ↦ if i = 11 then 0x10 else 0

/-- A frame with another code segment. -/
def otherFrame : CtxFrame := fun i ↦ if i = 11 then 0x23 else 0

/-- The context of a process before anything is saved into it. -/
def clearContext : Context := saveContext fun _ ↦ 0

/-- Two processes of the kernel are switched forth and back. -/
theorem restored_iff_kernelFrame :
    SameRegisters kernelFrame ((⟨some 2, 1, kernelFrame⟩ : Switch).run
      (contextsAfter (fun _ ↦ clearContext) [⟨some 1, 2, kernelFrame⟩])).1 := by
  refine (restored_iff _ (F := kernelFrame) rfl (by decide)).2.2 fun r hr ↦ ?_
  cases r <;> rfl

/-- **The selector is spoiled**: a process with code segment `0x10` is loaded onto the frame of one
with `0x23`, and gets `0x33`. -/
theorem selector_spoiled :
    lastSaved [⟨some 1, 2, kernelFrame⟩] 1 = some kernelFrame ∧
      ¬SameRegisters kernelFrame ((⟨some 2, 1, otherFrame⟩ : Switch).run
        (contextsAfter (fun _ ↦ clearContext) [⟨some 1, 2, kernelFrame⟩])).1 := by
  refine ⟨rfl, fun h ↦ ?_⟩
  have hcs := h .cs
  revert hcs
  decide

end Marimba
