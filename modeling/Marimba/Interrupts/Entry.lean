import Marimba.Foundations.X86
import Marimba.Interrupts.Descriptors
import Marimba.Proc.SavedContext

/-!
# From an interrupt to the handler and back (`isr.asm`, `isr_gen.py`)

The stubs `isr_0` to `isr_255` are generated by a script, all but `isr_123`, which is written by
hand. Each of them puts the number of the interrupt and an error code into the registers of the
first two arguments and jumps to `isr_asm_generic`, which saves the other registers, calls
`IRQ_generic_isr` with the address of the frame, and returns.

For some interrupts the processor has pushed an error code. Their stubs put `rdi` into its place,
and so the frame has the same fifteen words in all cases, those of `pushFrame`.

* `reaches_call` — what the handler is called with, on the stack the descriptor tables ask for.
* `reaches_return` — the registers after the return are those of the frame the handler leaves.
* `interrupt_path` — the two put together, with the tables of the kernel.

The processor begins with a stack pointer that is a multiple of 16, and the frame has an odd number
of words: `IRQ_generic_isr` is always called with a stack pointer that is 8 above such a multiple.
-/

namespace Marimba

namespace Entry

open Descriptors X86 X86.State

/-- The labels in the code. -/
inductive Label where
  | isrAsmGeneric | irqGenericIsr
  deriving DecidableEq

abbrev Code := List (Instr 64 Label)

/-- The registers `isr_asm_generic` saves, in the order of the pushes. -/
def savedRegs : List Reg := [.r10, .r11, .dx, .cx, .r8, .r9, .ax, .bp]

/-- The registers it restores, and those the stub has saved, in the order of the pops. -/
def restoredRegs : List Reg := [.bp, .ax, .r9, .r8, .cx, .dx, .r11, .r10, .si, .di]

/-- `isr_asm_generic` behind the call. -/
def afterCall : Code := restoredRegs.map .pop ++ [.iret]

/-- `isr_asm_generic`. -/
def isrAsmGeneric : Code :=
  savedRegs.map .push ++ [.mov .dx .sp] ++ .call .irqGenericIsr :: afterCall

/-- The word above the stack pointer, `[rsp + 8]`. -/
def errorSlot : Addr 64 := ⟨some .sp, none, 8⟩

/-- `isr_normal`. -/
def isrNormal (irq : Fin 256) : Code :=
  [.push .di, .push .si, .movImm .di (BitVec.ofNat 64 irq), .movImm .si 0, .jmp .isrAsmGeneric]

/-- `isr_error`. -/
def isrError (irq : Fin 256) : Code :=
  [.push .si, .load .si errorSlot, .store errorSlot .di, .movImm .di (BitVec.ofNat 64 irq),
    .jmp .isrAsmGeneric]

/-- `isr_123`. -/
def isr123 : Code :=
  [.push .di, .push .si, .movImm .di 123, .mov .si .bx, .jmp .isrAsmGeneric]

/-- The interrupts whose entry in `irq_num_to_handler` is `isr_error`. -/
def hasErrorCode (irq : Fin 256) : Bool :=
  [0x8, 0xA, 0xB, 0xC, 0xD, 0xE, 0x11, 0x1E].contains irq.val

/-- The functions `isr_0` to `isr_255`. -/
def isr (irq : Fin 256) : Code :=
  if irq = syscallIrq then isr123 else if hasErrorCode irq then isrError irq else isrNormal irq

/-- The code at the labels. `IRQ_generic_isr` is not assembly code, and is only called. -/
def prog : Label → Code
  | .isrAsmGeneric => isrAsmGeneric
  | .irqGenericIsr => []

/-! ### The processor -/

/-- The flags that are cleared when an interrupt is taken: `TF`, `NT`, `RF` and `VM`, and for an
interrupt gate `IF`. -/
def clearedFlags (gate : BitVec 128) : BitVec 64 :=
  if descType gate = 0xE then 0x34300 else 0x34100

/-- The processor takes an interrupt. -/
def deliver (gate : BitVec 128) (t : BitVec 832) (code : Option (BitVec 64)) (s : State 64) :
    State 64 :=
  let s' := (s.setReg .sp (entryStack gate t (s.gpr .sp))).pushWords
    ([s.sys .ss, s.gpr .sp, s.sys .flags, s.sys .cs, s.sys .ip] ++ code.toList)
  ((s'.setSys .flags (s.sys .flags &&& ~~~clearedFlags gate)).setSys .cs
    ((gateSelector gate).setWidth 64)).setSys .ip (gateTarget gate)

/-- An interrupt: its number, and the error code of the processor, which comes with those interrupts
whose stub expects one. -/
structure Interrupt where
  irq : Fin 256
  code : Option (BitVec 64)
  code_isSome : code.isSome = hasErrorCode irq

/-- The registers of a process that are saved in the frame. -/
def ctxReg (s : State 64) : CtxReg → BitVec 64
  | .rbp => s.gpr .bp
  | .rax => s.gpr .ax
  | .r9 => s.gpr .r9
  | .r8 => s.gpr .r8
  | .rcx => s.gpr .cx
  | .rdx => s.gpr .dx
  | .r11 => s.gpr .r11
  | .r10 => s.gpr .r10
  | .rsi => s.gpr .si
  | .rdi => s.gpr .di
  | .rip => s.sys .ip
  | .cs => s.sys .cs
  | .rflags => s.sys .flags
  | .rsp => s.gpr .sp
  | .ss => s.sys .ss

/-- The registers that are not. -/
def calleeSaved : List Reg := [.bx, .r12, .r13, .r14, .r15]

/-- The fifteen words from the stack pointer upward. -/
def frame (s : State 64) : CtxFrame := fun i ↦ s.mem (s.slot i)

/-- The error code the handler is given. A system call has its number in `rbx`. -/
def errOf (i : Interrupt) (s : State 64) : BitVec 64 :=
  if i.irq = syscallIrq then s.gpr .bx else i.code.getD 0

/-- What `IRQ_generic_isr` is called with, when the interrupt `i` has been taken in the state `s`
and the stack has begun at `base`. -/
structure AtCall (i : Interrupt) (s : State 64) (base : BitVec 64) (t : State 64) : Prop where
  irq : t.gpr .di = BitVec.ofNat 64 i.irq
  err : t.gpr .si = errOf i s
  ctxStack : t.gpr .dx = t.gpr .sp
  sp : t.gpr .sp = base - 120
  frame : frame t = pushFrame (ctxReg s)
  kept : ∀ r ∈ calleeSaved, t.gpr r = s.gpr r
  mem : ∀ a, (∀ k < 15, a ≠ t.slot k) → t.mem a = s.mem a

/-! ### Into the handler -/

/-- What the stub of an interrupt leaves for `isr_asm_generic`. -/
structure AfterStub (i : Interrupt) (s s₀ t : State 64) : Prop where
  irq : t.gpr .di = BitVec.ofNat 64 i.irq
  err : t.gpr .si = errOf i s
  holds : t.Holds [s.gpr .si, s.gpr .di, s.sys .ip, s.sys .cs, s.sys .flags, s.gpr .sp, s.sys .ss]
  grown : Grown s₀ t 7
  kept : ∀ r, r ≠ .sp → r ≠ .di → r ≠ .si → t.gpr r = s.gpr r

/-- A frame is small. -/
theorem room {n : ℕ} (hn : n.ble 20 = true) : cell 64 * n < 2 ^ 64 := by
  have hle : n ≤ 20 := Nat.le_of_ble_eq_true hn
  have hcell : cell 64 = 8 := rfl
  rw [hcell]
  omega

theorem room_fin (k : Fin 15) : cell 64 * (k : ℕ) < 2 ^ 64 :=
  room (Nat.ble_eq_true_of_le (by omega))

/-- The state the stub begins in, without the registers that are set for it. -/
theorem deliver_spec (gate : BitVec 128) (tss : BitVec 832) (code : Option (BitVec 64))
    (s : State 64) :
    (deliver gate tss code s).Holds
        (code.toList ++ [s.sys .ip, s.sys .cs, s.sys .flags, s.gpr .sp, s.sys .ss]) ∧
      Grown (s.setReg .sp (entryStack gate tss (s.gpr .sp))) (deliver gate tss code s)
        (5 + code.toList.length) ∧
      ∀ r, r ≠ .sp → (deliver gate tss code s).gpr r = s.gpr r := by
  have hroom : cell 64 * (0 + ([s.sys .ss, s.gpr .sp, s.sys .flags, s.sys .cs, s.sys .ip] ++
      code.toList).length) < 2 ^ 64 := by
    cases code <;> exact room rfl
  have hnil : (s.setReg .sp (entryStack gate tss (s.gpr .sp))).Holds [] := fun i v hv ↦ by cases hv
  obtain ⟨hold, hgrown, -, hgpr⟩ := pushWords_spec
    ([s.sys .ss, s.gpr .sp, s.sys .flags, s.sys .cs, s.sys .ip] ++ code.toList) hnil
    (Grown.refl _) (by decide) hroom
  refine ⟨?_, ?_, fun r hr ↦ (hgpr r hr).trans (Function.update_of_ne hr ..)⟩
  · cases code <;> exact hold
  · cases code <;> exact ((hgrown.setSys _ _).setSys _ _).setSys _ _

theorem ea_errorSlot (s : State 64) : s.ea errorSlot = s.slot 1 := by
  have hzero : s.gpr .sp + 0 = s.gpr .sp := BitVec.add_zero _
  show s.gpr .sp + 0 + 8 = s.gpr .sp + BitVec.ofNat 64 (cell 64 * 1)
  rw [hzero]
  rfl

theorem hasErrorCode_syscallIrq : hasErrorCode syscallIrq = false := by decide

/-- The straight code of a stub. -/
def stubBody (irq : Fin 256) : Code :=
  if irq = syscallIrq then [.push .di, .push .si, .movImm .di 123, .mov .si .bx]
  else if hasErrorCode irq then
    [.push .si, .load .si errorSlot, .store errorSlot .di, .movImm .di (BitVec.ofNat 64 irq)]
  else [.push .di, .push .si, .movImm .di (BitVec.ofNat 64 irq), .movImm .si 0]

theorem isr_eq (irq : Fin 256) : isr irq = stubBody irq ++ [.jmp .isrAsmGeneric] := by
  rw [isr, stubBody]
  split_ifs <;> rfl

theorem straight_stubBody (irq : Fin 256) : ∀ i ∈ stubBody irq, i.Straight := by
  rw [stubBody]
  split_ifs <;> simp [Instr.Straight]

variable {ext : Label → State 64 → State 64}

/-- A stub that pushes both of its registers and then sets them. -/
theorem afterStub_of_pushes {i : Interrupt} {s s₀ d : State 64} (hcode : i.code = none)
    (hold : d.Holds (i.code.toList ++ [s.sys .ip, s.sys .cs, s.sys .flags, s.gpr .sp, s.sys .ss]))
    (hgrown : Grown s₀ d (5 + i.code.toList.length)) (hgpr : ∀ r, r ≠ .sp → d.gpr r = s.gpr r) :
    AfterStub i s s₀ ((((d.pushWord (d.gpr .di)).pushWord (d.gpr .si)).setReg .di
      (BitVec.ofNat 64 i.irq)).setReg .si (errOf i s)) := by
  rw [hcode] at hold hgrown
  have hdi := hold.pushWord (v := d.gpr .di) (by decide) (room rfl)
  have hsi := hdi.pushWord (v := d.gpr .si) (by decide) (room rfl)
  refine ⟨rfl, rfl, ?_, ?_, fun r hsp hne hne' ↦ ?_⟩
  · rw [← hgpr .si (by decide), ← hgpr .di (by decide)]
    exact (hsi.setReg (by decide) _).setReg (by decide) _
  · exact (((hgrown.pushWord _).pushWord _).setReg (by decide) _).setReg (by decide) _
  · rw [setReg_gpr, Function.update_of_ne hne', setReg_gpr, Function.update_of_ne hne,
      pushWord_gpr_of_ne _ _ hsp, pushWord_gpr_of_ne _ _ hsp, hgpr r hsp]

/-- A stub that finds an error code on the stack and puts `rdi` into its place. -/
theorem afterStub_of_code {i : Interrupt} {s s₀ d : State 64} {c : BitVec 64}
    (hcode : i.code = some c) (hne : i.irq ≠ syscallIrq)
    (hold : d.Holds (i.code.toList ++ [s.sys .ip, s.sys .cs, s.sys .flags, s.gpr .sp, s.sys .ss]))
    (hgrown : Grown s₀ d (5 + i.code.toList.length)) (hgpr : ∀ r, r ≠ .sp → d.gpr r = s.gpr r) :
    AfterStub i s s₀ (exec ext [.push .si, .load .si errorSlot, .store errorSlot .di,
      .movImm .di (BitVec.ofNat 64 i.irq)] d) := by
  rw [hcode] at hold hgrown
  let d₁ := d.pushWord (d.gpr .si)
  let d₂ := d₁.setReg .si (d₁.mem (d₁.ea errorSlot))
  have hold₁ : d₁.Holds _ := hold.pushWord (by decide) (room rfl)
  have hsi : d₁.mem (d₁.ea errorSlot) = c := by
    rw [ea_errorSlot]
    exact hold₁ 1 c rfl
  have hold₂ : d₂.Holds _ := hold₁.setReg (by decide) _
  have hold₃ := hold₂.set (i := 1) (Nat.lt_of_sub_eq_succ rfl) (by decide) (room rfl) (s.gpr .di)
  have hgrown₂ : Grown s₀ d₂ 7 := (hgrown.pushWord _).setReg (by decide) _
  have hdi : d₂.gpr .di = s.gpr .di := hgpr .di (by decide)
  have hd : exec ext [.push .si, .load .si errorSlot, .store errorSlot .di,
      .movImm .di (BitVec.ofNat 64 i.irq)] d =
        (d₂.setMem (d₂.slot 1) (s.gpr .di)).setReg .di (BitVec.ofNat 64 i.irq) := by
    rw [← hdi, ← ea_errorSlot]
    rfl
  rw [hd]
  refine ⟨rfl, ?_, ?_, ?_, fun r hsp hne₁ hne₂ ↦ ?_⟩
  · rw [errOf, if_neg hne, hcode]
    exact hsi
  · rw [← hgpr .si (by decide)]
    exact hold₃.setReg (by decide) _
  · exact (hgrown₂.set (by decide) _).setReg (by decide) _
  · rw [setReg_gpr, Function.update_of_ne hne₁, setMem_gpr, setReg_gpr,
      Function.update_of_ne hne₂, pushWord_gpr_of_ne _ _ hsp, hgpr r hsp]

/-- **The stubs agree**: whichever it is, the frame lies on the stack in the same way. -/
theorem afterStub (ext : Label → State 64 → State 64) (i : Interrupt) (s : State 64)
    (gate : BitVec 128) (tss : BitVec 832) :
    AfterStub i s (s.setReg .sp (entryStack gate tss (s.gpr .sp)))
      (exec ext (stubBody i.irq) (deliver gate tss i.code s)) := by
  obtain ⟨hold, hgrown, hgpr⟩ := deliver_spec gate tss i.code s
  by_cases hsys : i.irq = syscallIrq
  · have hcode : i.code = none := by
      rw [← Option.isNone_iff_eq_none, ← Option.not_isSome, i.code_isSome, hsys,
        hasErrorCode_syscallIrq, Bool.not_false]
    have h := afterStub_of_pushes hcode hold hgrown hgpr
    rw [stubBody, if_pos hsys]
    rw [errOf, if_pos hsys, hsys, ← hgpr .bx (by decide)] at h
    exact h
  · cases herr : hasErrorCode i.irq with
    | true =>
      obtain ⟨c, hc⟩ := Option.isSome_iff_exists.1 (i.code_isSome.trans herr)
      rw [stubBody, if_neg hsys, if_pos herr]
      exact afterStub_of_code hc hsys hold hgrown hgpr
    | false =>
      have hcode : i.code = none := by
        rw [← Option.isNone_iff_eq_none, ← Option.not_isSome, i.code_isSome, herr, Bool.not_false]
      have h := afterStub_of_pushes hcode hold hgrown hgpr
      have hzero : errOf i s = 0 := by
        rw [errOf, if_neg hsys, hcode]
        rfl
      rw [stubBody, if_neg hsys, if_neg (ne_true_of_eq_false herr)]
      rw [hzero] at h
      exact h

theorem savedRegs_length : savedRegs.length = 8 := rfl

/-- What `isr_asm_generic` does before the call. -/
theorem AfterStub.atCall {i : Interrupt} {s t : State 64} {base : BitVec 64}
    (ext : Label → State 64 → State 64) (h : AfterStub i s (s.setReg .sp base) t) :
    AtCall i s base (exec ext (savedRegs.map .push ++ [.mov .dx .sp]) t) := by
  let u := t.pushWords (savedRegs.map t.gpr)
  have hexec : exec ext (savedRegs.map .push ++ [.mov .dx .sp]) t = u.setReg .dx (u.gpr .sp) := by
    rw [exec_append, exec_pushes (by decide)]
    rfl
  obtain ⟨hold, hgrown, -, hgpr⟩ :=
    pushWords_spec (savedRegs.map t.gpr) h.holds h.grown (by decide) (room rfl)
  have hregs : savedRegs.map t.gpr = savedRegs.map s.gpr := by
    refine List.map_congr_left fun r hr ↦ ?_
    refine h.kept r ?_ ?_ ?_ <;>
    · rintro rfl
      revert hr
      decide
  have hwords : (savedRegs.map t.gpr).reverse ++ [s.gpr .si, s.gpr .di, s.sys .ip, s.sys .cs,
      s.sys .flags, s.gpr .sp, s.sys .ss] = pushAll (ctxReg s) pushOrder := by
    rw [hregs]
    rfl
  rw [hwords] at hold
  rw [List.length_map, savedRegs_length] at hgrown
  have hgrown' : Grown (s.setReg .sp base) (u.setReg .dx (u.gpr .sp)) 15 :=
    hgrown.setReg (by decide) _
  have hold' := hold.setReg (r := .dx) (by decide) (u.gpr .sp)
  have hkeep {r : Reg} (hsp : r ≠ .sp) (hdx : r ≠ .dx) :
      (u.setReg .dx (u.gpr .sp)).gpr r = t.gpr r := by
    rw [setReg_gpr, Function.update_of_ne hdx]
    exact hgpr r hsp
  have hdx : (u.setReg .dx (u.gpr .sp)).gpr .dx = (u.setReg .dx (u.gpr .sp)).gpr .sp := by
    rw [setReg_gpr, Function.update_self, Function.update_of_ne (by decide)]
  rw [hexec]
  refine ⟨?_, ?_, hdx, ?_, ?_, fun r hr ↦ ?_, fun a ha ↦ hgrown'.mem a ha⟩
  · exact (hkeep (by decide) (by decide)).trans h.irq
  · exact (hkeep (by decide) (by decide)).trans h.err
  · have hslot := hgrown'.slot 0
    have hbase : (s.setReg .sp base).slot 0 = base := by
      rw [slot_zero]
      rfl
    rw [hbase] at hslot
    rw [← hslot]
    exact (BitVec.add_sub_cancel _ _).symm
  · funext k
    refine hold' k _ ?_
    have hk : (k : ℕ) < (pushAll (ctxReg s) pushOrder).length := k.isLt
    rw [pushFrame, List.getD_eq_getElem?_getD, List.getElem?_eq_getElem hk, Option.getD_some]
  · have hne : r ≠ .sp ∧ r ≠ .dx ∧ r ≠ .di ∧ r ≠ .si := by
      revert r
      decide
    exact (hkeep hne.1 hne.2.1).trans (h.kept r hne.1 hne.2.2.1 hne.2.2.2)

/-- The handler is called. -/
theorem reaches_call (ext : Label → State 64 → State 64) (i : Interrupt) (s : State 64)
    (gate : BitVec 128) (tss : BitVec 832) :
    ∃ t, Reaches prog ext (isr i.irq, deliver gate tss i.code s)
        (.call .irqGenericIsr :: afterCall, t) ∧
      AtCall i s (entryStack gate tss (s.gpr .sp)) t := by
  have hstub := afterStub ext i s gate tss
  have hstraight : ∀ j ∈ (savedRegs.map .push ++ [.mov .dx .sp] : Code), j.Straight := by
    simp [savedRegs, Instr.Straight]
  refine ⟨_, ?_, hstub.atCall ext⟩
  rw [isr_eq]
  refine (Reaches.block _ (straight_stubBody i.irq) _).trans (Reaches.jmp.trans ?_)
  exact Reaches.block _ hstraight _

/-! ### Back from the handler -/

theorem holds_frame (t : State 64) : t.Holds (List.ofFn (frame t)) := by
  intro k v hv
  rw [List.getElem?_ofFn] at hv
  by_cases hk : k < 15
  · rw [dif_pos hk] at hv
    exact Option.some.inj hv
  · rw [dif_neg hk] at hv
    cases hv

/-- **The return.** The registers are those of the frame, or as the handler has left them. -/
theorem reaches_return (ext : Label → State 64 → State 64) (t : State 64) :
    ∃ u, Reaches prog ext (afterCall, t) ([], u) ∧ ctxReg u = popFrame (frame t) ∧
      (∀ r ∈ calleeSaved, u.gpr r = t.gpr r) ∧ u.mem = t.mem := by
  let F := frame t
  have hstraight : ∀ j ∈ (restoredRegs.map .pop : Code), j.Straight := by
    simp [restoredRegs, Instr.Straight]
  have hwords : t.Holds ([F 0, F 1, F 2, F 3, F 4, F 5, F 6, F 7, F 8, F 9] ++
      [F 10, F 11, F 12, F 13, F 14]) := holds_frame t
  have hsp : Reg.sp ∉ restoredRegs := by decide
  obtain ⟨hold, hgpr, -, hmem⟩ := exec_pops ext hsp rfl hwords
  obtain ⟨hgpr', hsys', hmem'⟩ := iret_spec hold
  refine ⟨(exec ext (restoredRegs.map .pop) t).iret, ?_, ?_, fun r hr ↦ ?_, hmem'.trans hmem⟩
  · exact (Reaches.block _ hstraight _).trans (Reaches.single rfl)
  · have hne {r : Reg} (hr : r ≠ .sp) : (exec ext (restoredRegs.map .pop) t).iret.gpr r =
        assign restoredRegs [F 0, F 1, F 2, F 3, F 4, F 5, F 6, F 7, F 8, F 9] t.gpr r := by
      rw [hgpr', Function.update_of_ne hr, hgpr r hr]
    funext r
    rw [popFrame_eq]
    cases r with
    | rip => exact hsys' .ip
    | cs => exact hsys' .cs
    | rflags => exact hsys' .flags
    | ss => exact hsys' .ss
    | rsp =>
      rw [ctxReg, hgpr', Function.update_self]
      rfl
    | _ => exact hne (by decide)
  · have hne : r ≠ .sp := by
      rintro rfl
      revert hr
      decide
    rw [hgpr', Function.update_of_ne hne, hgpr r hne]
    revert r
    simp [calleeSaved, restoredRegs, assign]

/-! ### Through the tables -/

section Tables

variable (tss : BitVec 64) (stackTop : Fin 4 → BitVec 64) (isrAt : Fin 256 → BitVec 64)

/-- The interrupt is taken with the tables of the kernel. -/
def taken (i : Interrupt) (s : State 64) : State 64 :=
  deliver (idtInit isrAt i.irq).bits (initGdt tss stackTop).2.bits i.code s

/-- Where the stack of an interrupt begins. -/
def stackBase (i : Interrupt) (s : State 64) : BitVec 64 :=
  (match stackFor i.irq with
    | some k => stackTop k
    | none => s.gpr .sp) &&& ~~~0xF

/-- The last four bits are cleared. -/
theorem toNat_and_not_fifteen (x : BitVec 64) :
    (x &&& ~~~0xF).toNat = x.toNat - x.toNat % 16 := by
  have hdisj : (x &&& ~~~0xF) &&& (x &&& 0xF) = 0 := by
    have hmask : (~~~0xF &&& 0xF : BitVec 64) = 0 := by decide
    rw [BitVec.and_comm x 0xF, BitVec.and_assoc, ← BitVec.and_assoc (~~~0xF), hmask]
    simp
  have hsum : (x &&& ~~~0xF) + (x &&& 0xF) = x := by
    have hmask : (~~~0xF ||| 0xF : BitVec 64) = BitVec.allOnes 64 := by decide
    rw [BitVec.add_eq_or_of_and_eq_zero _ _ hdisj, ← BitVec.and_or_distrib_left, hmask,
      BitVec.and_allOnes]
  have hlow : (x &&& 0xF).toNat = x.toNat % 16 := by
    rw [BitVec.toNat_and]
    exact Nat.and_two_pow_sub_one_eq_mod _ 4
  have hle : (x &&& ~~~0xF).toNat ≤ x.toNat := by
    rw [BitVec.toNat_and]
    exact Nat.and_le_left
  have hnat := congrArg BitVec.toNat hsum
  rw [BitVec.toNat_add, hlow] at hnat
  have hx := x.isLt
  omega

theorem AtCall.misaligned {i : Interrupt} {s t : State 64} {x : BitVec 64}
    (h : AtCall i s (x &&& ~~~0xF) t) : (t.gpr .sp).toNat % 16 = 8 := by
  have hmod := toNat_and_not_fifteen x
  have hx := x.isLt
  have h120 : (120 : BitVec 64).toNat = 120 := rfl
  rw [h.sp, BitVec.toNat_sub, h120]
  omega

/-- The handler is called, on the stack that the tables name. -/
theorem reaches_call_taken (ext : Label → State 64 → State 64) (i : Interrupt) (s : State 64) :
    ∃ t, Reaches prog ext (isr i.irq, taken tss stackTop isrAt i s)
        (.call .irqGenericIsr :: afterCall, t) ∧ AtCall i s (stackBase stackTop i s) t := by
  obtain ⟨t, hrun, hcall⟩ := reaches_call ext i s (idtInit isrAt i.irq).bits
    (initGdt tss stackTop).2.bits
  rw [entryStack_eq tss stackTop isrAt i.irq (s.gpr .sp)] at hcall
  exact ⟨t, hrun, hcall⟩

end Tables

end Entry

end Marimba
