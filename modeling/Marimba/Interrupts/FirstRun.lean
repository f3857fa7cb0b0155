import Marimba.Interrupts.Processes
import Marimba.Memory.VirtualRegions
import Marimba.Proc.CreateProcess

/-!
# The first run of a process

`PROC_create_process` makes a process that has never been interrupted, and yet it is started like
any other: its context is loaded into the frame of the interrupt of whichever process ran before,
and `isr_asm_generic` pops it. What the first instruction then finds was put together by
`MMU_alloc_stack`, by `PROC_create_process`, by `PROC_load_context` and by the assembly code
(`first_run`): the function of the process, called with its argument, on a stack of its own from
which it returns into `process_exit`.

The flags of a new process are all zero, so that it begins with interrupts disabled.
-/

namespace Marimba

namespace CreateCall

variable {c : CreateCall} {p new i w list data : BitVec 64}

/-! ### What a call writes -/

/-- Following a pointer writes nothing. -/
theorem access_toProcHeap (c : CreateCall) (p : BitVec 64) :
    (c.access p).toProcHeap = c.toProcHeap := by
  rw [access]
  split <;> rfl

@[simp] theorem access_process (c : CreateCall) (p : BitVec 64) :
    (c.access p).process = c.process := congrArg ProcHeap.process (c.access_toProcHeap p)

@[simp] theorem access_word (c : CreateCall) (p : BitVec 64) : (c.access p).word = c.word :=
  congrArg ProcHeap.word (c.access_toProcHeap p)

@[simp] theorem acquire_process (c : CreateCall) (p : BitVec 64) :
    (c.acquire p).process = c.process := by
  rw [acquire]
  split <;> rfl

@[simp] theorem memset_process (c : CreateCall) (new : BitVec 64) :
    (c.memset new).process = Function.update c.process new .zero := by
  rw [← c.access_process new]
  rfl

@[simp] theorem update_process (c : CreateCall) (new : BitVec 64) (f : Process → Process) :
    (c.update new f).process = Function.update c.process new (f (c.process new)) := by
  simp [update]

@[simp] theorem update_word (c : CreateCall) (new : BitVec 64) (f : Process → Process) :
    (c.update new f).word = c.word := c.access_word new

@[simp] theorem storeStack_process (c : CreateCall) (new i w : BitVec 64) :
    (c.storeStack new i w).process = c.process := by
  simp [storeStack]

@[simp] theorem storeStack_word (c : CreateCall) (new i w : BitVec 64) :
    (c.storeStack new i w).word =
      Function.update c.word ((c.process new).stack + 8 * i) w := by
  simp [storeStack]

@[simp] theorem enqueue_process (c : CreateCall) (list data : BitVec 64) :
    (c.enqueue list data).process = c.process := by
  simp [enqueue]

@[simp] theorem enqueue_word (c : CreateCall) (list data : BitVec 64) :
    (c.enqueue list data).word = c.word := by
  simp [enqueue]

@[simp] theorem klogName_process (c : CreateCall) (level : ℕ) (new : BitVec 64) :
    (c.klogName level new).process = c.process := by
  rw [klogName]
  split <;> simp

@[simp] theorem klogName_word (c : CreateCall) (level : ℕ) (new : BitVec 64) :
    (c.klogName level new).word = c.word := by
  rw [klogName]
  split <;> simp

end CreateCall

section Created

variable (st : ProcStatics) {new stack : BitVec 64} (name entryPoint arg : BitVec 64) (s : ProcHeap)

/-- A call whose allocations succeed gets to its end, with a process that has only a stack. -/
theorem createProcess_of_allocated (hnew : new ≠ 0) (hstack : stack ≠ 0) :
    ∃ c : CreateCall, c.process new = { Process.zero with stack := stack } ∧
      createProcess st new stack name entryPoint arg s = c.finish st new name entryPoint arg := by
  refine ⟨(((((CreateCall.acquire ⟨s, [], []⟩ new).memset new).acquire stack).update new
    fun p ↦ { p with stack := stack }).access new), by simp, ?_⟩
  rw [createProcess]
  dsimp only
  rw [if_neg hnew, if_neg]
  simpa using hstack

/-- **The context of a new process, and the words on its stack.** -/
theorem createProcess_starts (hnew : new ≠ 0) (hstack : stack ≠ 0) :
    let r := (createProcess st new stack name entryPoint arg s).2
    r.process new = Process.start { Process.zero with stack := stack } name entryPoint arg ∧
      r.word (stack - 16) = st.processExit ∧ r.word (stack - 8) = 0 ∧ r.word stack = 0 := by
  obtain ⟨c, hc, heq⟩ := createProcess_of_allocated st name entryPoint arg s hnew hstack
  have hs : (c.process new).stack = stack := by rw [hc]
  have h0 : (c.process new).stack + 8 * 0 = stack := by bv_omega
  have h1 : (c.process new).stack + 8 * -1 = stack - 8 := by bv_omega
  have h2 : (c.process new).stack + 8 * -2 = stack - 16 := by bv_omega
  have h01 : stack ≠ stack - 8 := by bv_omega
  have h02 : stack ≠ stack - 16 := by bv_omega
  have h12 : stack - 8 ≠ stack - 16 := by bv_omega
  dsimp only
  rw [heq, CreateCall.finish]
  simp only [CreateCall.klogName_process, CreateCall.klogName_word, CreateCall.enqueue_process,
    CreateCall.enqueue_word, CreateCall.update_process, CreateCall.update_word,
    CreateCall.storeStack_process, CreateCall.storeStack_word, h0, h1, h2]
  refine ⟨?_, Function.update_self .., ?_, ?_⟩
  · rw [Function.update_self, hc]
  · rw [Function.update_of_ne h12, Function.update_self]
  · rw [Function.update_of_ne h02, Function.update_of_ne h01, Function.update_self]

end Created

namespace Entry

open X86 X86.State

/-! ### The first instruction -/

/-- The registers of the frame that a new process does not set. -/
def clearedRegs : List Reg := [.ax, .cx, .dx, .si, .r8, .r9, .r10, .r11]

/-- A process at the first instruction of its function: the calling convention is kept, and the
return address is that of `process_exit`. -/
structure Begins (processExit stack entryPoint arg : BitVec 64) (u : State 64) : Prop where
  ip : u.sys .ip = entryPoint
  arg : u.gpr .di = arg
  sp : u.gpr .sp = stack - 16
  aligned : (u.gpr .sp).toNat % 16 = 8
  returnAddress : u.top = processExit
  /-- The end of the chain of frames. -/
  bp : u.gpr .bp = stack - 8
  bottom : u.mem (stack - 8) = 0 ∧ u.mem stack = 0
  cleared : ∀ r ∈ clearedRegs, u.gpr r = 0
  /-- Interrupts are disabled. -/
  flags : u.sys .flags = 0

/-- The state in which a function returns: the stack pointer is where it was, and so is the return
address. -/
structure AboutToReturn (u v : State 64) : Prop where
  sp : v.gpr .sp = u.gpr .sp
  top : v.mem (u.gpr .sp) = u.top

variable {processExit stack name entryPoint arg : BitVec 64} {t u : State 64} {F : CtxFrame}

/-- A process that has just been made is loaded, and its function begins. -/
theorem begins_of_start (ext : Label → State 64 → State 64) (hmod : stack.toNat % 16 = 8)
    (hload : frame t = loadContext
      (Process.start { Process.zero with stack := stack } name entryPoint arg).context F)
    (hexit : t.mem (stack - 16) = processExit)
    (hbottom : t.mem (stack - 8) = 0 ∧ t.mem stack = 0) :
    ∃ u, Reaches prog ext (afterCall, t) ([], u) ∧
      Begins processExit stack entryPoint arg u ∧ u.sys .cs = F (slot .cs) ||| 0x10 := by
  obtain ⟨u, hback, hregs, -, hmem⟩ := reaches_return ext t
  generalize hp : Process.start { Process.zero with stack := stack } name entryPoint arg = p
    at hload
  have hreg (r : CtxReg) : ctxReg u r =
      if r.isSelector then F (slot r) ||| p.context.reg r else p.context.reg r := by
    rw [hregs, popFrame_eq, hload, loadContext_slot]
  subst hp
  have hsp : u.gpr .sp = stack - 16 := hreg .rsp
  refine ⟨u, hback, ⟨hreg .rip, hreg .rdi, hsp, ?_, ?_, hreg .rbp, ?_, ?_, hreg .rflags⟩, hreg .cs⟩
  · rw [hsp]
    have hlt := stack.isLt
    bv_omega
  · rw [top, hsp, hmem, hexit]
  · rw [hmem]
    exact hbottom
  · intro r hr
    fin_cases hr
    · exact hreg .rax
    · exact hreg .rcx
    · exact hreg .rdx
    · exact hreg .rsi
    · exact hreg .r8
    · exact hreg .r9
    · exact hreg .r10
    · exact hreg .r11

/-- The function returns into `process_exit`, with the end of the chain of frames in its place. -/
theorem Begins.returns (h : Begins processExit stack entryPoint arg u) {v : State 64}
    (hv : AboutToReturn u v) :
    (v.popSys .ip).sys .ip = processExit ∧ (v.popSys .ip).gpr .sp = stack - 8 := by
  refine ⟨?_, ?_⟩
  · rw [popSys, setSys_sys, Function.update_self, top, hv.sp, hv.top, h.returnAddress]
  · rw [popSys, setSys_gpr, dropWord, setReg_gpr, Function.update_self, hv.sp, h.sp]
    show stack - 16 + 8 = stack - 8
    bv_omega

/-! ### From `MMU_alloc_stack` to the first instruction -/

/-- Where a new process has words on its stack. -/
def startSlots (stack : BitVec 64) : List (BitVec 64) := [stack - 16, stack - 8, stack]

/-- The last one of the pages of a stack. -/
def TopPage (pages : List ℕ) (p : ℕ) : Prop := p ∈ pages ∧ ∀ q ∈ pages, q ≤ p

/-- The stack of a new process is not null, and misaligned by a word. -/
theorem allocStack_toNat {k : Marimba.Machine} (hb : InRegions k.bumps)
    (hstack : stack = BitVec.ofNat 64 (MMU.allocStack k).1) :
    stack.toNat = k.bumps.2 ∧ stack ≠ 0 ∧ stack.toNat % 4096 = 4088 := by
  obtain ⟨q, heq, -⟩ := MMU.allocStack_of_inRegions hb
  obtain ⟨n, hn⟩ := hb.stack
  have hlt := hb.stack_lt
  have hstart := hb.stack_start
  simp only [mmapKernelStacksStart, mmapKernelStacksEnd, p4PteAddresses, stackSize, pageSize,
    kernelThreadStackSizePages] at hn hlt hstart
  have hnat : stack.toNat = k.bumps.2 := by
    rw [hstack, heq, BitVec.toNat_ofNat]
    exact Nat.mod_eq_of_lt (by show k.bumps.2 < 2 ^ 64; omega)
  refine ⟨hnat, fun hzero ↦ ?_, by omega⟩
  rw [hzero] at hnat
  have hz : (0 : BitVec 64).toNat = 0 := rfl
  omega

/-- The words are in the topmost page of the stack. -/
theorem startSlots_subset {k : Marimba.Machine} (hb : InRegions k.bumps)
    (hstack : stack = BitVec.ofNat 64 (MMU.allocStack k).1) :
    TopPage (VirtCmd.allocStack.pages (MMU.allocStack k).1) (stackPage (MMU.allocStack k).1 0) ∧
      ∀ a ∈ startSlots stack, stackPage (MMU.allocStack k).1 0 ≤ a.toNat ∧
        a.toNat + 8 ≤ stackPage (MMU.allocStack k).1 0 + pageSize := by
  obtain ⟨hnat, -, hmod⟩ := allocStack_toNat hb hstack
  obtain ⟨q, heq, -⟩ := MMU.allocStack_of_inRegions hb
  have hret : (MMU.allocStack k).1 = k.bumps.2 := congrArg Prod.fst heq
  have hstart := hb.stack_start
  have hlt := stack.isLt
  simp only [mmapKernelStacksStart, p4PteAddresses] at hstart
  rw [hret]
  refine ⟨?_, fun a ha ↦ ?_⟩
  · rw [TopPage, VirtCmd.pages, if_neg (by omega)]
    refine ⟨List.mem_map.2 ⟨0, by decide, rfl⟩, List.forall_mem_map.2 fun i _ ↦ ?_⟩
    exact Nat.sub_le_sub_left (Nat.zero_le _) _
  · rw [← hnat, stackPage]
    simp only [pageSize]
    simp only [startSlots, List.mem_cons, List.not_mem_nil, or_false] at ha
    rcases ha with rfl | rfl | rfl
    · bv_omega
    · bv_omega
    · omega

/-- **The first run.** A process is made with a stack of `MMU_alloc_stack`; at some later time its
context is loaded into the frame of an interrupt, when the record of the process and the words on
its stack are still what they were. Then its function begins, on the topmost page of its own stack,
and returns into `process_exit`. -/
theorem first_run (ext : Label → State 64 → State 64) (st : ProcStatics) (s : ProcHeap)
    {new : BitVec 64} (hnew : new ≠ 0) {k : Marimba.Machine} (hb : InRegions k.bumps)
    (hstack : stack = BitVec.ofNat 64 (MMU.allocStack k).1) {c : CreateCall}
    (hcreate : c = (createProcess st new stack name entryPoint arg s).2)
    (hload : frame t = loadContext (c.process new).context F)
    (hmem : ∀ a ∈ startSlots stack, t.mem a = c.word a) :
    TopPage (VirtCmd.allocStack.pages (MMU.allocStack k).1) (stackPage (MMU.allocStack k).1 0) ∧
      (∀ a ∈ startSlots stack, stackPage (MMU.allocStack k).1 0 ≤ a.toNat ∧
        a.toNat + 8 ≤ stackPage (MMU.allocStack k).1 0 + pageSize) ∧
      ∃ u, Reaches prog ext (afterCall, t) ([], u) ∧
        Begins st.processExit stack entryPoint arg u ∧ u.sys .cs = F (slot .cs) ||| 0x10 ∧
        ∀ v, AboutToReturn u v →
          (v.popSys .ip).sys .ip = st.processExit ∧ (v.popSys .ip).gpr .sp = stack - 8 := by
  obtain ⟨-, hne, hmod⟩ := allocStack_toNat hb hstack
  obtain ⟨hprocess, hexit, hbp, hbottom⟩ := createProcess_starts st name entryPoint arg s hnew hne
  rw [← hcreate] at hprocess hexit hbp hbottom
  rw [hprocess] at hload
  obtain ⟨u, hrun, hbegins, hcs⟩ := begins_of_start ext (by omega) hload
    ((hmem _ (by simp [startSlots])).trans hexit)
    ⟨(hmem _ (by simp [startSlots])).trans hbp, (hmem _ (by simp [startSlots])).trans hbottom⟩
  exact ⟨(startSlots_subset hb hstack).1, (startSlots_subset hb hstack).2, u, hrun, hbegins, hcs,
    fun v hv ↦ hbegins.returns hv⟩

/-- The first process of an empty scheduler begins, when the frame of the interrupt was pushed by
the kernel itself. -/
theorem first_run_firstProcess : ∃ t u, Reaches prog (fun _ s ↦ s) (afterCall, t) ([], u) ∧
    Begins 0x300 0x1FFFFFFFFF8 0x500 7 u ∧ u.sys .cs = 0x10 := by
  obtain ⟨c, hcreate⟩ : ∃ c, c =
      (createProcess emptyStatics 0x1000 0x1FFFFFFFFF8 0x400 0x500 7 emptyScheduler).2 := ⟨_, rfl⟩
  let t := storeFrame (loadContext (c.process 0x1000).context fun i ↦ if i = 11 then 0x10 else 0)
    (fun _ ↦ 0) ⟨fun _ ↦ 0x2000, fun _ ↦ 0, c.word⟩
  have hb : InRegions (MMU.initPaging 0 0 (poolOfPages 16)).2.bumps := by
    rw [MMU.initPaging_bumps]
    exact inRegions_start
  have hstack : (0x1FFFFFFFFF8 : BitVec 64) =
      BitVec.ofNat 64 (MMU.allocStack (MMU.initPaging 0 0 (poolOfPages 16)).2).1 := by
    refine BitVec.eq_of_toNat_eq ?_
    rw [(allocStack_toNat hb rfl).1, MMU.initPaging_bumps]
    decide
  have hslots : ∀ a ∈ startSlots 0x1FFFFFFFFF8, t.mem a = c.word a := by
    intro a ha
    refine mem_storeFrame _ _ fun i hi he ↦ ?_
    subst he
    have hfar : ∀ i < 15, (0x2000 + BitVec.ofNat 64 (8 * i) : BitVec 64) ∉
        startSlots 0x1FFFFFFFFF8 := by decide +kernel
    exact hfar i hi ha
  obtain ⟨-, -, u, hrun, hbegins, hcs, -⟩ := first_run (fun _ s ↦ s) emptyStatics emptyScheduler
    (by decide) hb hstack hcreate (frame_storeFrame ..) hslots
  exact ⟨t, u, hrun, hbegins, hcs⟩

end Entry

end Marimba
