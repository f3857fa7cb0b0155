import Mathlib.Data.BitVec
import Mathlib.Data.Fin.VecNotation
import Mathlib.Data.List.Nodup
import Mathlib.Logic.Function.Basic
import Mathlib.Tactic.FinCases

/-!
# Descriptor tables (`arch/x86_64/hw_init.c`, `arch/x86_64/scripts/idt_gen.py`)

`init_gdt` fills in the table of segments and the task state segment, and the generated `IDT_init`
the table of the interrupts. The entries are packed structures of 128 bits in which a base address
is cut into four fields, a handler's address into three and a limit into two; the structures below
have the fields of the source, and `bits` is where the packed layout puts them.

What the processor reads there is stated on the bits alone (`segBase`, `gateTarget`, `istPointer`
and so on). `tablesRight` says that it reads what was meant, for all addresses: **the fields that
the source cuts apart are put together again by the processor.** Entries of the segment table are 16
bytes long, and so the selectors are `0x10` for the code and `0x20` for the task.

The loop of `IDT_init` is unrolled by the script. It changes one template for all entries.
-/

namespace Marimba

namespace Descriptors

/-! ### The segment table -/

/-- `struct GDTEntry`, with the part that only system segments use. -/
structure GDTEntry where
  limit0 : BitVec 16
  base0 : BitVec 16
  base16 : BitVec 8
  type : BitVec 4
  userSegment : BitVec 1
  dpl : BitVec 2
  present : BitVec 1
  limit16 : BitVec 4
  avl : BitVec 1
  l : BitVec 1
  d : BitVec 1
  g : BitVec 1
  base24 : BitVec 8
  base32 : BitVec 32
  rsvd2 : BitVec 8
  zero : BitVec 5
  rsvd3 : BitVec 3
  rsvd4 : BitVec 16
  deriving DecidableEq

namespace GDTEntry

/-- The entry in memory. -/
def bits (e : GDTEntry) : BitVec 128 :=
  (e.rsvd4 ++ (e.rsvd3 ++ (e.zero ++ (e.rsvd2 ++ (e.base32 ++ (e.base24 ++ (e.g ++ (e.d ++ (e.l ++
    (e.avl ++ (e.limit16 ++ (e.present ++ (e.dpl ++ (e.userSegment ++ (e.type ++ (e.base16 ++
      (e.base0 ++ e.limit0))))))))))))))))).cast rfl

/-- An entry after `memset`. -/
def clear : GDTEntry := ⟨0, 0, 0, 0, 0, 0, 0, 0, 0, 0, 0, 0, 0, 0, 0, 0, 0, 0⟩

end GDTEntry

/-- `GDT_USER_CODE_TYPE_EXECUTE_ONLY`. -/
abbrev gdtUserCodeTypeExecuteOnly : BitVec 8 := 0x8

/-- `GDT_SYS_TYPE_TSS`. -/
abbrev gdtSysTypeTss : BitVec 8 := 0x9

/-- `gdt_user_init`. -/
def gdtUserInit (base limit : BitVec 32) (type : BitVec 8) : GDTEntry :=
  { GDTEntry.clear with
    userSegment := 1
    type := type.setWidth 4
    present := 1
    l := 1
    limit0 := limit.setWidth 16
    limit16 := (limit >>> 16).setWidth 4
    base0 := base.setWidth 16
    base16 := (base >>> 16).setWidth 8
    base24 := (base >>> 24).setWidth 8 }

/-- `gdt_sys_init` on the entry `i`. The upper half of the base goes to `GDT[2]`. -/
def gdtSysInit (gdt : Fin 3 → GDTEntry) (i : Fin 3) (base : BitVec 64) (limit : BitVec 32)
    (type : BitVec 8) : Fin 3 → GDTEntry :=
  let gdt := Function.update gdt i
    { gdtUserInit (base.setWidth 32) limit type with userSegment := 0 }
  Function.update gdt 2 { gdt 2 with base32 := (base >>> 32).setWidth 32 }

/-- `struct TSS`. -/
structure TSS where
  rsvd1 : BitVec 32
  rsp : Fin 3 → BitVec 64
  rsvd2 : BitVec 64
  ist : Fin 7 → BitVec 64
  rsvd3 : BitVec 64
  rsvd4 : BitVec 16
  ioMapBase : BitVec 16

/-- `sizeof(struct TSS)`. -/
abbrev sizeofTss : BitVec 32 := 104

/-- The task state segment in memory. -/
def TSS.bits (t : TSS) : BitVec 832 :=
  (t.ioMapBase ++ (t.rsvd4 ++ (t.rsvd3 ++ (t.ist 6 ++ (t.ist 5 ++ (t.ist 4 ++ (t.ist 3 ++
    (t.ist 2 ++ (t.ist 1 ++ (t.ist 0 ++ (t.rsvd2 ++ (t.rsp 2 ++ (t.rsp 1 ++ (t.rsp 0 ++
      t.rsvd1)))))))))))))).cast rfl

/-- `init_gdt`: the segment table and the task state segment, which is at the address `tss`. The
tops of the four stacks are `stack1_top` to `stack4_top`. -/
def initGdt (tss : BitVec 64) (stackTop : Fin 4 → BitVec 64) : (Fin 3 → GDTEntry) × TSS :=
  let gdt := Function.update (fun _ ↦ GDTEntry.clear) 1 (gdtUserInit 0 0 gdtUserCodeTypeExecuteOnly)
  (gdtSysInit gdt 2 tss sizeofTss gdtSysTypeTss,
    { rsvd1 := 0
      rsp := fun _ ↦ 0
      rsvd2 := 0
      ist := ![stackTop 0, stackTop 1, stackTop 2, stackTop 3, 0, 0, 0]
      rsvd3 := 0
      rsvd4 := 0
      ioMapBase := 0 })

/-- The segment table in memory. -/
def gdtBits (gdt : Fin 3 → GDTEntry) : BitVec 384 := 
  ((gdt 2).bits ++ ((gdt 1).bits ++ (gdt 0).bits)).cast rfl

/-- `2*sizeof(struct GDTEntry)`, the operand of `ltr`. -/
abbrev taskSelector : BitVec 16 := 0x20

/-! ### The interrupt table -/

/-- `struct IDTEntry`. -/
structure IDTEntry where
  target0 : BitVec 16
  targetSelector : BitVec 16
  ist : BitVec 3
  rsvd1 : BitVec 5
  type : BitVec 4
  zero : BitVec 1
  dpl : BitVec 2
  present : BitVec 1
  target16 : BitVec 16
  target32 : BitVec 32
  rsvd2 : BitVec 32
  deriving DecidableEq

/-- The entry in memory. -/
def IDTEntry.bits (e : IDTEntry) : BitVec 128 :=
  (e.rsvd2 ++ (e.target32 ++ (e.target16 ++ (e.present ++ (e.dpl ++ (e.zero ++ (e.type ++
    (e.rsvd1 ++ (e.ist ++ (e.targetSelector ++ e.target0)))))))))).cast rfl

/-- `syscall_irq`. -/
abbrev syscallIrq : Fin 256 := 123

/-- `irq_ist_map`. -/
def irqIstMap (irq : Fin 256) : Option (BitVec 3) :=
  if irq = syscallIrq then some 1
  else if irq = 0xD then some 2
  else if irq = 0x8 then some 3
  else if irq = 0xE then some 4
  else none

/-- `template`. -/
def idtTemplate : IDTEntry := ⟨0, 0x10, 0, 0, 0xE, 0, 0, 1, 0, 0, 0⟩

/-- The lines of `IDT_init` for one interrupt: the template and the table after them. -/
def idtInitEntry (isr : Fin 256 → BitVec 64) (s : IDTEntry × (Fin 256 → IDTEntry)) (irq : Fin 256) :
    IDTEntry × (Fin 256 → IDTEntry) :=
  let template := { s.1 with
    target0 := (isr irq).setWidth 16
    target16 := (isr irq >>> 16).setWidth 16
    target32 := (isr irq >>> 32).setWidth 32 }
  let idt := Function.update s.2 irq template
  let idt := if irq = syscallIrq then
    Function.update idt irq { idt irq with type := 0xF } else idt
  (template, match irqIstMap irq with
    | some ist => Function.update idt irq { idt irq with ist }
    | none => idt)

/-- `IDT_init`, with the addresses of the functions `isr_0` to `isr_255`. -/
def idtInit (isr : Fin 256 → BitVec 64) : Fin 256 → IDTEntry :=
  ((List.finRange 256).foldl (idtInitEntry isr)
    (idtTemplate, fun _ ↦ ⟨0, 0, 0, 0, 0, 0, 0, 0, 0, 0, 0⟩)).2

/-! ### What the processor reads -/

/-- The segment a selector stands for. The table indicator and the privilege level, which are the
last three bits, are not part of the offset. -/
def segmentAt (gdt : BitVec 384) (selector : BitVec 16) : BitVec 128 :=
  gdt.extractLsb' (8 * (selector &&& ~~~0x7).toNat) 128

/-- The base of a system segment. -/
def segBase (b : BitVec 128) : BitVec 64 :=
  b.extractLsb' 64 32 ++ (b.extractLsb' 56 8 ++ (b.extractLsb' 32 8 ++ b.extractLsb' 16 16))

/-- The limit of a segment. -/
def segLimit (b : BitVec 128) : BitVec 20 := b.extractLsb' 48 4 ++ b.extractLsb' 0 16

/-- The type of a segment or a gate. -/
def descType (b : BitVec 128) : BitVec 4 := b.extractLsb' 40 4

/-- A segment for code or data. -/
def isCodeOrData (b : BitVec 128) : BitVec 1 := b.extractLsb' 44 1

/-- The privilege level of a segment or a gate. -/
def descDpl (b : BitVec 128) : BitVec 2 := b.extractLsb' 45 2

/-- A segment or a gate is present. -/
def descPresent (b : BitVec 128) : BitVec 1 := b.extractLsb' 47 1

/-- A segment of 64-bit code. -/
def isLong (b : BitVec 128) : BitVec 1 := b.extractLsb' 53 1

/-- The address of the handler of a gate. -/
def gateTarget (b : BitVec 128) : BitVec 64 :=
  b.extractLsb' 64 32 ++ (b.extractLsb' 48 16 ++ b.extractLsb' 0 16)

/-- The code segment of the handler of a gate. -/
def gateSelector (b : BitVec 128) : BitVec 16 := b.extractLsb' 16 16

/-- Which stack of the task state segment a gate asks for; `0` for none. -/
def gateIst (b : BitVec 128) : BitVec 3 := b.extractLsb' 32 3

/-- The stack `k` of a task state segment, from `1` to `7`. -/
def istPointer (t : BitVec 832) (k : ℕ) : BitVec 64 := t.extractLsb' (8 * (0x24 + 8 * (k - 1))) 64

/-- The stack pointer an interrupt begins with, when it is `rsp` before. -/
def entryStack (gate : BitVec 128) (t : BitVec 832) (rsp : BitVec 64) : BitVec 64 :=
  (if gateIst gate = 0 then rsp else istPointer t (gateIst gate).toNat) &&& ~~~0xF

/-- The stack, of `stack1_top` to `stack4_top`, that is meant for an interrupt. -/
def stackFor (irq : Fin 256) : Option (Fin 4) :=
  if irq = syscallIrq then some 0
  else if irq = 0xD then some 1
  else if irq = 0x8 then some 2
  else if irq = 0xE then some 3
  else none

/-- **The tables are right.** The selector of each gate is that of a present segment of 64-bit code,
the selector loaded by `ltr` is that of the task state segment, and each gate leads to the function
generated for it, on the stack meant for it. -/
structure TablesRight (gdt : Fin 3 → GDTEntry) (t : TSS) (idt : Fin 256 → IDTEntry)
    (tss : BitVec 64) (stackTop : Fin 4 → BitVec 64) (isr : Fin 256 → BitVec 64) : Prop where
  code : ∀ irq, let seg := segmentAt (gdtBits gdt) (gateSelector (idt irq).bits)
    isCodeOrData seg = 1 ∧ descType seg = 0x8 ∧ descDpl seg = 0 ∧ descPresent seg = 1 ∧
      isLong seg = 1
  task : let seg := segmentAt (gdtBits gdt) taskSelector
    isCodeOrData seg = 0 ∧ descType seg = 0x9 ∧ descPresent seg = 1 ∧ segBase seg = tss ∧
      segLimit seg = 104
  gate : ∀ irq, gateTarget (idt irq).bits = isr irq ∧ descPresent (idt irq).bits = 1 ∧
    descDpl (idt irq).bits = 0 ∧
    descType (idt irq).bits = if irq = syscallIrq then 0xF else 0xE
  stack : ∀ irq rsp, entryStack (idt irq).bits t.bits rsp =
    (match stackFor irq with
      | some k => stackTop k
      | none => rsp) &&& ~~~0xF

/-! ### Fields in their places -/

/-- Where the fields of an entry of the interrupt table are. -/
theorem IDTEntry.extract_bits (e : IDTEntry) :
    e.bits.extractLsb' 0 16 = e.target0 ∧ e.bits.extractLsb' 16 16 = e.targetSelector ∧
      e.bits.extractLsb' 32 3 = e.ist ∧ e.bits.extractLsb' 40 4 = e.type ∧
      e.bits.extractLsb' 45 2 = e.dpl ∧ e.bits.extractLsb' 47 1 = e.present ∧
      e.bits.extractLsb' 48 16 = e.target16 ∧ e.bits.extractLsb' 64 32 = e.target32 := by
  refine ⟨?_, ?_, ?_, ?_, ?_, ?_, ?_, ?_⟩ <;>
  simp (disch := decide) only [bits, BitVec.extractLsb'_cast, BitVec.extractLsb'_append_eq_of_le,
    BitVec.extractLsb'_append_eq_of_add_le] <;>
  exact BitVec.extractLsb'_eq_self

/-- Where the fields of an entry of the segment table are. -/
theorem GDTEntry.extract_bits (e : GDTEntry) :
    e.bits.extractLsb' 0 16 = e.limit0 ∧ e.bits.extractLsb' 16 16 = e.base0 ∧
      e.bits.extractLsb' 32 8 = e.base16 ∧ e.bits.extractLsb' 40 4 = e.type ∧
      e.bits.extractLsb' 44 1 = e.userSegment ∧ e.bits.extractLsb' 45 2 = e.dpl ∧
      e.bits.extractLsb' 47 1 = e.present ∧ e.bits.extractLsb' 48 4 = e.limit16 ∧
      e.bits.extractLsb' 53 1 = e.l ∧ e.bits.extractLsb' 56 8 = e.base24 ∧
      e.bits.extractLsb' 64 32 = e.base32 := by
  refine ⟨?_, ?_, ?_, ?_, ?_, ?_, ?_, ?_, ?_, ?_, ?_⟩ <;>
  simp (disch := decide) only [bits, BitVec.extractLsb'_cast, BitVec.extractLsb'_append_eq_of_le,
    BitVec.extractLsb'_append_eq_of_add_le] <;>
  exact BitVec.extractLsb'_eq_self

theorem TSS.istPointer_bits (t : TSS) (k : Fin 7) : istPointer t.bits (k + 1) = t.ist k := by
  fin_cases k <;>
  simp (disch := decide) only [istPointer, bits, BitVec.extractLsb'_cast,
    BitVec.extractLsb'_append_eq_of_le, BitVec.extractLsb'_append_eq_of_add_le] <;>
  exact BitVec.extractLsb'_eq_self

theorem segmentAt_gdtBits (gdt : Fin 3 → GDTEntry) :
    segmentAt (gdtBits gdt) 0x10 = (gdt 1).bits ∧
      segmentAt (gdtBits gdt) taskSelector = (gdt 2).bits := by
  have hcode : 8 * ((0x10 : BitVec 16) &&& ~~~0x7).toNat = 128 := by decide
  have htask : 8 * (taskSelector &&& ~~~0x7).toNat = 256 := by decide
  rw [segmentAt, segmentAt, hcode, htask]
  refine ⟨?_, ?_⟩ <;>
  simp (disch := decide) only [gdtBits, BitVec.extractLsb'_cast, BitVec.extractLsb'_append_eq_of_le,
    BitVec.extractLsb'_append_eq_of_add_le] <;>
  exact BitVec.extractLsb'_eq_self

/-! ### The loop over the interrupts -/

/-- The entry that is meant for an interrupt. -/
def gateOf (isr : Fin 256 → BitVec 64) (irq : Fin 256) : IDTEntry :=
  { idtTemplate with
    target0 := (isr irq).setWidth 16
    target16 := (isr irq >>> 16).setWidth 16
    target32 := (isr irq >>> 32).setWidth 32
    type := if irq = syscallIrq then 0xF else 0xE
    ist := (irqIstMap irq).getD 0 }

/-- The addresses aside, the template is the one of the source. -/
def TemplateKept (template : IDTEntry) : Prop :=
  { template with target0 := 0, target16 := 0, target32 := 0 } = idtTemplate

theorem idtInitEntry_spec (isr : Fin 256 → BitVec 64) {s : IDTEntry × (Fin 256 → IDTEntry)}
    (h : TemplateKept s.1) (irq : Fin 256) :
    TemplateKept (idtInitEntry isr s irq).1 ∧
      (idtInitEntry isr s irq).2 = Function.update s.2 irq (gateOf isr irq) := by
  obtain ⟨⟨t0, sel, ist, r1, type, z, dpl, pr, t16, t32, r2⟩, idt⟩ := s
  simp only [TemplateKept, idtTemplate, IDTEntry.mk.injEq] at h
  obtain ⟨-, rfl, rfl, rfl, rfl, rfl, rfl, rfl, -, -, rfl⟩ := h
  refine ⟨rfl, ?_⟩
  by_cases hsys : irq = syscallIrq
  · subst hsys
    simp [idtInitEntry, irqIstMap, gateOf, idtTemplate]
  · cases hist : irqIstMap irq with
    | none => simp [idtInitEntry, hsys, hist, gateOf, idtTemplate]
    | some i => simp [idtInitEntry, hsys, hist, gateOf, idtTemplate]

/-- By induction on the interrupts that have been done. -/
theorem foldl_idtInitEntry {isr : Fin 256 → BitVec 64} (irqs : List (Fin 256))
    {s : IDTEntry × (Fin 256 → IDTEntry)} (h : TemplateKept s.1) (irq : Fin 256) :
    (irqs.foldl (idtInitEntry isr) s).2 irq = if irq ∈ irqs then gateOf isr irq else s.2 irq := by
  induction irqs generalizing s with
  | nil => rfl
  | cons i irqs ih =>
    obtain ⟨hkept, hidt⟩ := idtInitEntry_spec isr h i
    rw [List.foldl_cons, ih hkept, hidt, Function.update_apply]
    by_cases hmem : irq ∈ irqs
    · rw [if_pos hmem, if_pos (List.mem_cons_of_mem i hmem)]
    · rw [if_neg hmem]
      by_cases he : irq = i
      · rw [if_pos he, if_pos (he ▸ List.mem_cons_self), he]
      · rw [if_neg he, if_neg fun hcons ↦ (List.mem_cons.1 hcons).elim he hmem]

theorem idtInit_apply (isr : Fin 256 → BitVec 64) (irq : Fin 256) :
    idtInit isr irq = gateOf isr irq := by
  have hkept : TemplateKept idtTemplate := rfl
  rw [idtInit, foldl_idtInitEntry _ hkept, if_pos (List.mem_finRange irq)]

/-! ### The tables are right -/

theorem irqIstMap_eq (irq : Fin 256) :
    irqIstMap irq = (stackFor irq).map fun k : Fin 4 ↦ BitVec.ofNat 3 (k + 1) := by
  rw [irqIstMap, stackFor]
  split_ifs <;> rfl

/-- The parts the address of a handler is cut into, put together. -/
theorem target_append (x : BitVec 64) :
    (x >>> 32).setWidth 32 ++ ((x >>> 16).setWidth 16 ++ x.setWidth 16) = x := by
  have hlow : (x >>> 16).setWidth 16 ++ x.setWidth 16 = x.extractLsb' 0 32 := by
    rw [BitVec.setWidth_ushiftRight_eq_extractLsb, BitVec.setWidth_eq_extractLsb' (by decide)]
    exact BitVec.extractLsb'_append_extractLsb'_eq_extractLsb' rfl
  rw [hlow, BitVec.setWidth_ushiftRight_eq_extractLsb]
  exact (BitVec.extractLsb'_append_extractLsb'_eq_extractLsb' rfl).trans BitVec.extractLsb'_eq_self

/-- The parts the base of a system segment is cut into, put together. -/
theorem base_append (x : BitVec 64) :
    (x >>> 32).setWidth 32 ++ ((x.setWidth 32 >>> 24).setWidth 8 ++
      ((x.setWidth 32 >>> 16).setWidth 8 ++ (x.setWidth 32).setWidth 16)) = x := by
  have hlow (y : BitVec 32) :
      (y >>> 24).setWidth 8 ++ ((y >>> 16).setWidth 8 ++ y.setWidth 16) = y := by
    have hlow' : (y >>> 16).setWidth 8 ++ y.setWidth 16 = y.extractLsb' 0 24 := by
      rw [BitVec.setWidth_ushiftRight_eq_extractLsb, BitVec.setWidth_eq_extractLsb' (by decide)]
      exact BitVec.extractLsb'_append_extractLsb'_eq_extractLsb' rfl
    rw [hlow', BitVec.setWidth_ushiftRight_eq_extractLsb]
    exact (BitVec.extractLsb'_append_extractLsb'_eq_extractLsb' rfl).trans
      BitVec.extractLsb'_eq_self
  rw [hlow, BitVec.setWidth_ushiftRight_eq_extractLsb, BitVec.setWidth_eq_extractLsb' (by decide)]
  exact (BitVec.extractLsb'_append_extractLsb'_eq_extractLsb' rfl).trans BitVec.extractLsb'_eq_self

/-- The processor goes on at the function for the interrupt. -/
theorem gateTarget_idtInit (isr : Fin 256 → BitVec 64) (irq : Fin 256) :
    gateTarget (idtInit isr irq).bits = isr irq := by
  rw [idtInit_apply]
  obtain ⟨htarget0, -, -, -, -, -, htarget16, htarget32⟩ := (gateOf isr irq).extract_bits
  rw [gateTarget, htarget0, htarget16, htarget32]
  exact target_append (isr irq)

theorem entryStack_eq (tss : BitVec 64) (stackTop : Fin 4 → BitVec 64)
    (isr : Fin 256 → BitVec 64) (irq : Fin 256) (rsp : BitVec 64) :
    entryStack (idtInit isr irq).bits (initGdt tss stackTop).2.bits rsp =
      (match stackFor irq with
        | some k => stackTop k
        | none => rsp) &&& ~~~0xF := by
  have hist : gateIst (idtInit isr irq).bits = (irqIstMap irq).getD 0 := by
    rw [idtInit_apply]
    exact (gateOf isr irq).extract_bits.2.2.1
  have hptr (k : Fin 4) : istPointer (initGdt tss stackTop).2.bits (k + 1) = stackTop k := by
    have h := (initGdt tss stackTop).2.istPointer_bits (k.castLE (by decide))
    refine h.trans ?_
    fin_cases k <;> rfl
  rw [entryStack, hist, irqIstMap_eq]
  cases stackFor irq with
  | none => rfl
  | some k =>
    have hne : BitVec.ofNat 3 (k + 1) ≠ 0 := by
      fin_cases k <;> decide
    have hnat : (BitVec.ofNat 3 (k + 1)).toNat = k + 1 :=
      Nat.mod_eq_of_lt (by omega)
    rw [Option.map_some, Option.getD_some, if_neg hne, hnat, hptr]

/-- **The processor finds what `init_gdt` and `IDT_init` were meant to set up**, wherever the
functions `isr_0` to `isr_255`, the stacks and the task state segment lie. -/
theorem tablesRight (tss : BitVec 64) (stackTop : Fin 4 → BitVec 64) (isr : Fin 256 → BitVec 64) :
    TablesRight (initGdt tss stackTop).1 (initGdt tss stackTop).2 (idtInit isr) tss stackTop
      isr where
  code irq := by
    have hsel : gateSelector (idtInit isr irq).bits = 0x10 := by
      rw [idtInit_apply]
      exact (gateOf isr irq).extract_bits.2.1
    rw [hsel, (segmentAt_gdtBits _).1]
    obtain ⟨-, -, -, htype, huser, hdpl, hpresent, -, hl, -⟩ :=
      ((initGdt tss stackTop).1 1).extract_bits
    exact ⟨huser, htype, hdpl, hpresent, hl⟩
  task := by
    rw [(segmentAt_gdtBits _).2]
    obtain ⟨hlimit0, hbase0, hbase16, htype, huser, -, hpresent, hlimit16, -, hbase24, hbase32⟩ :=
      ((initGdt tss stackTop).1 2).extract_bits
    refine ⟨huser, htype, hpresent, ?_, ?_⟩
    · rw [segBase, hbase0, hbase16, hbase24, hbase32]
      exact base_append tss
    · have h0 : ((initGdt tss stackTop).1 2).limit0 = 104 := rfl
      have h16 : ((initGdt tss stackTop).1 2).limit16 = 0 := rfl
      rw [segLimit, hlimit0, hlimit16, h0, h16]
      rfl
  gate irq := by
    refine ⟨gateTarget_idtInit isr irq, ?_⟩
    rw [idtInit_apply]
    obtain ⟨-, -, -, htype, hdpl, hpresent, -, -⟩ := (gateOf isr irq).extract_bits
    exact ⟨hpresent, hdpl, htype⟩
  stack irq rsp := entryStack_eq tss stackTop isr irq rsp

end Descriptors

end Marimba
