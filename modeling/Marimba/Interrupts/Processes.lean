import Marimba.Interrupts.Entry

/-!
# Processes on one processor

What the stubs, `PROC_save_context` and `PROC_load_context` are for: the processes share a
processor, and **each of them runs as if it had the processor to itself** (`own_processor`),
wherever the interrupts come, however many there are, and whichever process `IRQ_generic_isr`
switches to.

A program is any function on the states of the machine that depends on what it can see: the
registers and its own memory, but not the part of its stack below the stack pointer, into which the
frames are pushed. The kernel is compiled without a red zone, which is what this asks for. Processes
do not write into the memory of each other, and do not change their segment selectors.

About the C code of a handler is assumed what a caller may rely on: the stack pointer, the registers
that a callee saves, and the memory of the processes. It leaves the frame as it is, or it switches:
then the frame is saved to the process that was interrupted and the one of the next process is
loaded. The registers outside the frame are saved and loaded with the values they had at the
interrupt.
-/

namespace Marimba

namespace Entry

open Descriptors X86 X86.State

/-- The memory that belongs to a process alone, and the end of its stack. -/
structure Owner where
  own : Set (BitVec 64)
  stackEnd : BitVec 64

/-- What a process reads of its memory while its stack pointer is `sp`. -/
def Owner.visible (o : Owner) (sp : BitVec 64) : Set (BitVec 64) :=
  {a | a ∈ o.own ∧ ¬(o.stackEnd ≤ a ∧ a < sp)}

/-- Two states a process cannot tell apart. -/
structure Agree (o : Owner) (s s' : State 64) : Prop where
  gpr : s'.gpr = s.gpr
  sys : s'.sys = s.sys
  mem : ∀ a ∈ o.visible (s.gpr .sp), s'.mem a = s.mem a

/-- A program, of which only what a step does to the state is given. -/
structure Program (o : Owner) where
  step : State 64 → State 64
  agree : ∀ s s', Agree o s s' → Agree o (step s) (step s')

/-- Processes, with the states they start in. -/
structure Processes (P : Type*) where
  owner : P → Owner
  program : ∀ p, Program (owner p)
  start : P → State 64
  /-- The selectors of the kernel. -/
  selector : CtxReg → BitVec 64
  isolated : ∀ p q, p ≠ q → ∀ s, ∀ a ∈ (owner q).own, ((program p).step s).mem a = s.mem a
  selector_step : ∀ p s r, r.isSelector = true → ctxReg ((program p).step s) r = ctxReg s r
  selector_start : ∀ p r, r.isSelector = true → ctxReg (start p) r = selector r

/-- The processor, the process it runs, and what is saved of the others. -/
structure Machine (P : Type*) where
  cur : P
  cpu : State 64
  saved : P → Context × (Reg → BitVec 64)

variable {s t : State 64}

theorem Agree.ctxReg_eq {o : Owner} (h : Agree o s t) (r : CtxReg) : ctxReg t r = ctxReg s r := by
  cases r <;> simp only [ctxReg, h.gpr, h.sys]

/-- The registers of the frame and those of the callee are all there are. -/
theorem regs_eq (hctx : ∀ r, ctxReg t r = ctxReg s r)
    (hcallee : ∀ r ∈ calleeSaved, t.gpr r = s.gpr r) : t.gpr = s.gpr ∧ t.sys = s.sys := by
  refine ⟨?_, ?_⟩
  · funext r
    cases r with
    | ax => exact hctx .rax
    | cx => exact hctx .rcx
    | dx => exact hctx .rdx
    | si => exact hctx .rsi
    | di => exact hctx .rdi
    | bp => exact hctx .rbp
    | sp => exact hctx .rsp
    | r8 => exact hctx .r8
    | r9 => exact hctx .r9
    | r10 => exact hctx .r10
    | r11 => exact hctx .r11
    | _ => exact hcallee _ (by decide)
  · funext r
    cases r with
    | ip => exact hctx .rip
    | cs => exact hctx .cs
    | flags => exact hctx .rflags
    | ss => exact hctx .ss

/-- A selector that is saved and put back over itself. -/
theorem or_and_self (x y : BitVec 64) : x ||| (x &&& y) = x := by
  refine BitVec.eq_of_getLsbD_eq fun i hi ↦ ?_
  rw [BitVec.getLsbD_or, BitVec.getLsbD_and]
  cases x.getLsbD i <;> simp

variable {P : Type*}

namespace Processes

/-- The state of a process after some steps of its own. -/
def after (ps : Processes P) (n : P → ℕ) (p : P) : State 64 :=
  (ps.program p).step^[n p] (ps.start p)

theorem selector_after (ps : Processes P) (n : P → ℕ) (p : P) {r : CtxReg}
    (hr : r.isSelector = true) : ctxReg (ps.after n p) r = ps.selector r := by
  rw [after]
  induction n p with
  | zero => exact ps.selector_start p r hr
  | succ k ih =>
    rw [Function.iterate_succ_apply']
    exact (ps.selector_step p _ r hr).trans ih

variable (ps : Processes P)

/-- What is saved of a process, and the memory, are those of a state. -/
structure Parked (s : State 64) (o : Owner) (saved : Context × (Reg → BitVec 64))
    (mem : BitVec 64 → BitVec 64) : Prop where
  regs : ∀ r, (if r.isSelector then ps.selector r ||| saved.1.reg r else saved.1.reg r) = ctxReg s r
  callee : ∀ r ∈ calleeSaved, saved.2 r = s.gpr r
  mem : ∀ a ∈ o.visible (s.gpr .sp), mem a = s.mem a

/-- **Each process is where it is after its own steps alone.** -/
structure OnItsOwn (n : P → ℕ) (m : Machine P) : Prop where
  running : Agree (ps.owner m.cur) (ps.after n m.cur) m.cpu
  parked : ∀ p, p ≠ m.cur → ps.Parked (ps.after n p) (ps.owner p) (m.saved p) m.cpu.mem

variable {ps}

/-- **A process is saved as it is**: what `PROC_save_context` takes from the frame, and what
`PROC_load_context` will make of it. -/
theorem OnItsOwn.parked_save {n : P → ℕ} {m : Machine P} {i : Interrupt} {base : BitVec 64}
    (h : ps.OnItsOwn n m) (hcall : AtCall i m.cpu base t) {mem : BitVec 64 → BitVec 64}
    (hmem : ∀ a ∈ (ps.owner m.cur).visible ((ps.after n m.cur).gpr .sp), mem a = m.cpu.mem a) :
    ps.Parked (ps.after n m.cur) (ps.owner m.cur) (saveContext (frame t), t.gpr) mem := by
  have hreg (r : CtxReg) : frame t (slot r) = ctxReg (ps.after n m.cur) r := by
    rw [hcall.frame, pushFrame_slot, h.running.ctxReg_eq]
  refine ⟨fun r ↦ ?_, fun r hr ↦ ?_, fun a ha ↦ ?_⟩
  · rw [saveContext_reg, hreg]
    cases hr : r.isSelector with
    | false => simp [visible, hr]
    | true =>
      rw [ps.selector_after n m.cur hr]
      simp only [visible, hr, if_true]
      exact or_and_self ..
  · exact (hcall.kept r hr).trans (congrFun h.running.gpr r)
  · exact (hmem a ha).trans (h.running.mem a ha)

end Processes

variable [DecidableEq P]

/-- The stack pointer of a process, which is saved with it unless it is running. -/
def Machine.sp (m : Machine P) (p : P) : BitVec 64 :=
  if p = m.cur then m.cpu.gpr .sp else (m.saved p).1.rsp

namespace Processes

variable (ps : Processes P)

/-- The C code of a handler, called in the state `t`, leaves the state `t'`. -/
structure KeepsCalls (m : Machine P) (t t' : State 64) : Prop where
  sp : t'.gpr .sp = t.gpr .sp
  mem : ∀ p, ∀ a ∈ (ps.owner p).visible (m.sp p), t'.mem a = t.mem a

/-- The handler returns to the process that was interrupted, or it switches to the process `q`. -/
inductive Handled (m : Machine P) (t t' : State 64) : P → (P → Context × (Reg → BitVec 64)) → Prop
  | returns (hframe : frame t' = frame t) (hcallee : ∀ r ∈ calleeSaved, t'.gpr r = t.gpr r) :
    Handled m t t' m.cur m.saved
  | switches {q : P} (hq : q ≠ m.cur) (hframe : frame t' = loadContext (m.saved q).1 (frame t))
    (hcallee : ∀ r ∈ calleeSaved, t'.gpr r = (m.saved q).2 r) :
    Handled m t t' q (Function.update m.saved m.cur (saveContext (frame t), t.gpr))

section Runs

variable (tss : BitVec 64) (stackTop : Fin 4 → BitVec 64) (isrAt : Fin 256 → BitVec 64)

/-- The frame of an interrupt has room on the stack of the running process, of which the part below
the stack pointer belongs to no other process, or on a stack that belongs to no process. -/
def Room (m : Machine P) (i : Interrupt) : Prop :=
  match stackFor i.irq with
  | some k => ∀ p, ∀ j < 15,
    (stackTop k &&& ~~~0xF) - 120 + BitVec.ofNat 64 (8 * j) ∉ (ps.owner p).own
  | none => (ps.owner m.cur).stackEnd.toNat + 135 ≤ (m.cpu.gpr .sp).toNat ∧
    ∀ p, p ≠ m.cur → ∀ a, (ps.owner m.cur).stackEnd ≤ a → a < m.cpu.gpr .sp →
      a ∉ (ps.owner p).own

/-- A run in which the process `p` has made `n p` steps, with interrupts between the steps. -/
inductive Run : (P → ℕ) → Machine P → Prop
  | start {m : Machine P} (h : ps.OnItsOwn (fun _ ↦ 0) m) : Run (fun _ ↦ 0) m
  | step {n : P → ℕ} {m : Machine P} (h : Run n m) :
    Run (Function.update n m.cur (n m.cur + 1)) { m with cpu := (ps.program m.cur).step m.cpu }
  | interrupt {n : P → ℕ} {m : Machine P} (h : Run n m) {i : Interrupt}
    {ext : Label → State 64 → State 64} {t u : State 64} {cur : P}
    {saved : P → Context × (Reg → BitVec 64)} (hroom : ps.Room stackTop m i)
    (hrun : Reaches prog ext (isr i.irq, taken tss stackTop isrAt i m.cpu)
      (.call .irqGenericIsr :: afterCall, t))
    (hcall : AtCall i m.cpu (stackBase stackTop i m.cpu) t)
    (hkeeps : ps.KeepsCalls m t (ext .irqGenericIsr t))
    (hhandled : Handled m t (ext .irqGenericIsr t) cur saved)
    (hback : Reaches prog ext (afterCall, ext .irqGenericIsr t) ([], u)) :
    Run n { cur, cpu := u, saved }

variable {ps tss stackTop isrAt} {m : Machine P} {i : Interrupt} {s t t' u : State 64}

/-! ### What is hidden from the processes -/

/-- The frame is not written where a process looks. -/
theorem Room.slot_not_mem (h : ps.Room stackTop m i)
    (hcall : AtCall i m.cpu (stackBase stackTop i m.cpu) t) {k : ℕ} (hk : k < 15) (p : P) :
    t.slot k ∉ (ps.owner p).visible (m.sp p) := by
  rintro ⟨hown, hlive⟩
  have hslot : t.slot k = stackBase stackTop i m.cpu - 120 + BitVec.ofNat 64 (8 * k) := by
    rw [State.slot, hcall.sp]
    rfl
  rw [hslot] at hown hlive
  cases hstack : stackFor i.irq with
  | some j =>
    simp only [Room, hstack] at h
    simp only [stackBase, hstack] at hown
    exact h p k hk hown
  | none =>
    simp only [Room, hstack] at h
    simp only [stackBase, hstack] at hown hlive
    have hbase := toNat_and_not_fifteen (m.cpu.gpr .sp)
    have hsp := (m.cpu.gpr .sp).isLt
    have h120 : (120 : BitVec 64).toNat = 120 := rfl
    have hnat : ((m.cpu.gpr .sp &&& ~~~0xF) - 120 + BitVec.ofNat 64 (8 * k)).toNat =
        (m.cpu.gpr .sp).toNat - (m.cpu.gpr .sp).toNat % 16 - 120 + 8 * k := by
      rw [BitVec.toNat_add, BitVec.toNat_sub, BitVec.toNat_ofNat, h120, hbase]
      omega
    have hbelow : (ps.owner m.cur).stackEnd ≤
          (m.cpu.gpr .sp &&& ~~~0xF) - 120 + BitVec.ofNat 64 (8 * k) ∧
        (m.cpu.gpr .sp &&& ~~~0xF) - 120 + BitVec.ofNat 64 (8 * k) < m.cpu.gpr .sp := by
      rw [BitVec.le_def, BitVec.lt_def, hnat]
      omega
    by_cases hp : p = m.cur
    · subst hp
      rw [Machine.sp, if_pos rfl] at hlive
      exact hlive hbelow
    · exact h.2 p hp _ hbelow.1 hbelow.2 hown

/-- What the processes see of the memory is the same before an interrupt and after it. -/
theorem mem_of_visible (hroom : ps.Room stackTop m i)
    (hcall : AtCall i m.cpu (stackBase stackTop i m.cpu) t) (hkeeps : ps.KeepsCalls m t t')
    {p : P} {a : BitVec 64} (ha : a ∈ (ps.owner p).visible (m.sp p)) :
    t'.mem a = m.cpu.mem a := by
  refine (hkeeps.mem p a ha).trans (hcall.mem a fun k hk he ↦ ?_)
  exact hroom.slot_not_mem hcall hk p (he ▸ ha)

/-! ### Steps -/

theorem after_step (n : P → ℕ) (p : P) :
    ps.after (Function.update n p (n p + 1)) p = (ps.program p).step (ps.after n p) := by
  rw [after, Function.update_self, Function.iterate_succ_apply']
  rfl

theorem after_step_of_ne (n : P → ℕ) {p q : P} (hq : q ≠ p) (k : ℕ) :
    ps.after (Function.update n p k) q = ps.after n q := by
  rw [after, after, Function.update_of_ne hq]

variable {n : P → ℕ}

/-- The stack pointers are those of the processes on their own. -/
theorem OnItsOwn.sp_eq (h : ps.OnItsOwn n m) (p : P) : m.sp p = (ps.after n p).gpr .sp := by
  rw [Machine.sp]
  split_ifs with hp
  · rw [hp, h.running.gpr]
  · exact (h.parked p hp).regs .rsp

/-- A step of the running process. -/
theorem OnItsOwn.step (h : ps.OnItsOwn n m) :
    ps.OnItsOwn (Function.update n m.cur (n m.cur + 1))
      { m with cpu := (ps.program m.cur).step m.cpu } := by
  refine ⟨?_, fun p hp ↦ ?_⟩
  · rw [after_step]
    exact (ps.program m.cur).agree _ _ h.running
  · have hpark := h.parked p hp
    rw [after_step_of_ne n hp]
    refine ⟨hpark.regs, hpark.callee, fun a ha ↦ ?_⟩
    exact (ps.isolated m.cur p (Ne.symm hp) _ a ha.1).trans (hpark.mem a ha)

/-- An interrupt, whether the handler returns or switches. -/
theorem OnItsOwn.interrupt (h : ps.OnItsOwn n m) (hroom : ps.Room stackTop m i)
    (hcall : AtCall i m.cpu (stackBase stackTop i m.cpu) t) (hkeeps : ps.KeepsCalls m t t')
    {cur : P} {saved : P → Context × (Reg → BitVec 64)} (hhandled : Handled m t t' cur saved)
    (hregs : ctxReg u = popFrame (frame t')) (hcallee : ∀ r ∈ calleeSaved, u.gpr r = t'.gpr r)
    (hmem : u.mem = t'.mem) : ps.OnItsOwn n { cur, cpu := u, saved } := by
  have hseen (p : P) {a : BitVec 64}
      (ha : a ∈ (ps.owner p).visible ((ps.after n p).gpr .sp)) : u.mem a = m.cpu.mem a := by
    rw [← h.sp_eq] at ha
    rw [hmem]
    exact mem_of_visible hroom hcall hkeeps ha
  have hslot (r : CtxReg) : ctxReg u r = frame t' (slot r) := by
    rw [hregs, popFrame_eq]
  have hframe (r : CtxReg) : frame t (slot r) = ctxReg (ps.after n m.cur) r := by
    rw [hcall.frame, pushFrame_slot, h.running.ctxReg_eq]
  cases hhandled with
  | returns hleft hcallee' =>
    obtain ⟨hgpr, hsys⟩ := regs_eq (s := ps.after n m.cur) (t := u)
      (fun r ↦ by rw [hslot, hleft, hframe]) fun r hr ↦ by
        rw [hcallee r hr, hcallee' r hr, hcall.kept r hr, h.running.gpr]
    refine ⟨⟨hgpr, hsys, fun a ha ↦ (hseen _ ha).trans (h.running.mem a ha)⟩, fun p hp ↦ ?_⟩
    have hpark := h.parked p hp
    exact ⟨hpark.regs, hpark.callee, fun a ha ↦ (hseen p ha).trans (hpark.mem a ha)⟩
  | switches hq hload hcallee' =>
    have hpark := h.parked cur hq
    have hctx (r : CtxReg) : ctxReg u r = ctxReg (ps.after n cur) r := by
      rw [hslot, hload, loadContext_slot, hframe, ← hpark.regs r]
      cases hr : r.isSelector with
      | false => rfl
      | true => rw [if_pos rfl, if_pos rfl, ps.selector_after n m.cur hr]
    obtain ⟨hgpr, hsys⟩ := regs_eq hctx fun r hr ↦ by
      rw [hcallee r hr, hcallee' r hr, hpark.callee r hr]
    refine ⟨⟨hgpr, hsys, fun a ha ↦ (hseen _ ha).trans (hpark.mem a ha)⟩, fun p hp ↦ ?_⟩
    by_cases hcur : p = m.cur
    · subst hcur
      simp only [Function.update_self]
      exact h.parked_save hcall fun a ha ↦ hseen _ ha
    · have hother := h.parked p hcur
      simp only [Function.update_of_ne hcur]
      exact ⟨hother.regs, hother.callee, fun a ha ↦ (hseen p ha).trans (hother.mem a ha)⟩

/-- **Each process has the processor to itself.** In every run, with interrupts and switches
anywhere between the steps, the running process and the saved ones are where their own steps alone
would have taken them. By induction on the run. -/
theorem own_processor (h : ps.Run tss stackTop isrAt n m) : ps.OnItsOwn n m := by
  induction h with
  | start h => exact h
  | step _ ih => exact ih.step
  | interrupt _ hroom _ hcall hkeeps hhandled hback ih =>
    obtain ⟨u, hback', hregs, hcallee, hmem⟩ := reaches_return _ _
    obtain rfl := hback.final_unique hback'
    exact ih.interrupt hroom hcall hkeeps hhandled hregs hcallee hmem

end Runs

end Processes

/-! ### Two processes that count -/

/-- A handler that leaves a frame and registers of its choice. -/
def storeFrame (F : CtxFrame) (g : Reg → BitVec 64) (t : State 64) : State 64 where
  gpr r := if r ∈ calleeSaved then g r else t.gpr r
  sys := t.sys
  mem a := match (List.finRange 15).find? fun k : Fin 15 ↦ t.slot k == a with
    | some k => F k
    | none => t.mem a

theorem slot_storeFrame (F : CtxFrame) (g : Reg → BitVec 64) (t : State 64) (k : ℕ) :
    (storeFrame F g t).slot k = t.slot k := rfl

theorem frame_storeFrame (F : CtxFrame) (g : Reg → BitVec 64) (t : State 64) :
    frame (storeFrame F g t) = F := by
  funext k
  have hinj (j : Fin 15) (hj : t.slot j = t.slot k) : j = k := by
    rcases Nat.lt_trichotomy j k with hlt | he | hlt
    · exact (slot_ne hlt (by decide) (room_fin k) hj).elim
    · exact Fin.ext he
    · exact (slot_ne hlt (by decide) (room_fin j) hj.symm).elim
  rw [frame, slot_storeFrame, storeFrame]
  cases hfind : (List.finRange 15).find? fun j : Fin 15 ↦ t.slot j == t.slot k with
  | none => exact absurd (List.find?_eq_none.1 hfind k (List.mem_finRange k)) (by simp)
  | some j =>
    have hj := List.find?_some hfind
    simp only [hfind]
    rw [hinj j (eq_of_beq hj)]

theorem mem_storeFrame (F : CtxFrame) (g : Reg → BitVec 64) {t : State 64} {a : BitVec 64}
    (ha : ∀ k < 15, a ≠ t.slot k) : (storeFrame F g t).mem a = t.mem a := by
  have hfind : ((List.finRange 15).find? fun k : Fin 15 ↦ t.slot k == a) = none := by
    rw [List.find?_eq_none]
    intro k _ hk
    exact ha k k.isLt (eq_of_beq hk).symm
  simp only [storeFrame, hfind]

/-- The word a process counts in, and the end of its stack. -/
def counterOwner (p : Bool) : Owner :=
  ⟨{if p then 0x5000 else 0x4000}, if p then 0x3000 else 0x2000⟩

/-- A process counts. -/
def counterProgram (p : Bool) : Program (counterOwner p) where
  step s := s.setMem (if p then 0x5000 else 0x4000) (s.mem (if p then 0x5000 else 0x4000) + 1)
  agree s s' h := by
    refine ⟨h.gpr, h.sys, fun a ha ↦ ?_⟩
    obtain rfl : a = if p then 0x5000 else 0x4000 := ha.1
    rw [setMem_mem, setMem_mem, Function.update_self, Function.update_self, h.mem _ ha]

/-- The state a process starts in. -/
def counterStart (p : Bool) : State 64 where
  gpr r := if r = .sp then if p then 0x3800 else 0x2800 else 0
  sys r := if r = .cs then 0x10 else 0
  mem _ := 0

def counters : Processes Bool where
  owner := counterOwner
  program := counterProgram
  start := counterStart
  selector r := if r = .cs then 0x10 else 0
  isolated p q hpq s a ha := by
    obtain rfl : a = if q then 0x5000 else 0x4000 := ha
    refine Function.update_of_ne ?_ ..
    cases p <;> cases q <;> first | exact absurd rfl hpq | decide
  selector_step _ _ r _ := by cases r <;> rfl
  selector_start p r hr := by
    cases r <;> first | rfl | cases hr

/-- The first process runs, and the second one is saved. -/
def counterMachine : Machine Bool where
  cur := false
  cpu := counterStart false
  saved p := (saveContext (pushFrame (ctxReg (counterStart p))), (counterStart p).gpr)

theorem counters_onItsOwn : counters.OnItsOwn (fun _ ↦ 0) counterMachine := by
  refine ⟨⟨rfl, rfl, fun _ _ ↦ rfl⟩, fun p hp ↦ ?_⟩
  obtain rfl : p = true := Bool.eq_true_of_not_eq_false hp
  refine ⟨fun r ↦ ?_, fun _ _ ↦ rfl, fun _ _ ↦ rfl⟩
  cases r <;> rfl

/-- Both processes count to one, with the interrupt of a device between them in which the kernel
switches from the first to the second. -/
theorem own_processor_counters : ∃ m, m.cur = true ∧
    counters.Run 0 (fun _ ↦ 0) (fun _ ↦ 0)
      (Function.update (Function.update (fun _ ↦ 0) false 1) true 1) m ∧
    counters.OnItsOwn (Function.update (Function.update (fun _ ↦ 0) false 1) true 1) m := by
  let i : Interrupt := ⟨0x21, none, by decide⟩
  let m₁ : Machine Bool :=
    { counterMachine with cpu := (counterProgram false).step counterMachine.cpu }
  have hrun₁ : counters.Run 0 (fun _ ↦ 0) (fun _ ↦ 0) (Function.update (fun _ ↦ 0) false 1) m₁ :=
    .step (.start counters_onItsOwn)
  have hroom : counters.Room (fun _ ↦ 0) m₁ i := by
    refine ⟨by decide, fun p hp a hle hlt ha ↦ ?_⟩
    obtain rfl : p = true := Bool.eq_true_of_not_eq_false hp
    obtain rfl : a = 0x5000 := ha
    revert hlt
    decide
  let handler : Label → State 64 → State 64 := fun _ t ↦
    storeFrame (loadContext (m₁.saved true).1 (frame t)) (m₁.saved true).2 t
  obtain ⟨t, hcalled, hcall⟩ := reaches_call_taken 0 (fun _ ↦ 0) (fun _ ↦ 0) handler i m₁.cpu
  obtain ⟨u, hback, -⟩ := reaches_return handler
    (storeFrame (loadContext (m₁.saved true).1 (frame t)) (m₁.saved true).2 t)
  have hkeeps : counters.KeepsCalls m₁ t
      (storeFrame (loadContext (m₁.saved true).1 (frame t)) (m₁.saved true).2 t) := by
    refine ⟨rfl, fun p a ha ↦ mem_storeFrame _ _ fun k hk he ↦ ?_⟩
    exact hroom.slot_not_mem hcall hk p (he ▸ ha)
  have hrun₂ := Processes.Run.interrupt hrun₁ hroom hcalled hcall hkeeps
    (.switches (q := true) (by decide) (frame_storeFrame _ _ _) fun r hr ↦ if_pos hr) hback
  exact ⟨_, rfl, .step hrun₂, Processes.own_processor (.step hrun₂)⟩

end Entry

end Marimba
