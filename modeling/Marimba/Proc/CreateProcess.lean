import Marimba.Foundations.Word
import Marimba.ListHeap
import Marimba.Proc.SavedContext

/-!
# Making a process

`PROC_create_process` allocates the process and its stack, fills in the process and links it into
the ready queue and into the list of all processes. Either allocation may fail, and then it should
leave no trace: both lists as they were, nothing allocated, and nothing accessed that is not there
(`CreatesOrFails`). What `kmalloc` and `MMU_alloc_stack` return are parameters, null for a failure.

Accesses are checked: every pointer that is followed is looked at (`CreateCall.access`), and those
that are null or point into a block that the call itself has released are listed. The code behind
the label `error` logs the name of the process by way of `new`, which by then is null or has been
released. So a failed call goes wrong in this respect, and in no other (`createsOrFails_iff`).
-/

namespace Marimba

/-! ### Processes in memory -/

/-- The fields of `struct Process` behind its two list headers. -/
structure Process where
  context : Context
  stack : BitVec 64
  name : BitVec 64

/-- A process whose bytes are all zero. -/
def Process.zero : Process := ⟨⟨0, 0, 0, 0, 0, 0, 0, 0, 0, 0, 0, 0, 0, 0, 0⟩, 0, 0⟩

/-- The registers and the name of a new process, whose stack has been set up. -/
def Process.start (p : Process) (name entryPoint arg : BitVec 64) : Process :=
  { p with
    context := { p.context with
      rsp := p.stack - 16
      rbp := p.stack - 8
      rip := entryPoint
      rdi := arg
      cs := 0x10 }
    name := name }

/-- `sizeof(struct Process)`. -/
abbrev sizeofProcess : ℕ := 240

/-- `offsetof(struct Process, queue)`, in the ready queue. -/
abbrev queueOffset : BitVec 64 := 0

/-- `offsetof(struct Process, procs)`, in the list of all processes. -/
abbrev procsOffset : BitVec 64 := 16

/-- `KLOG_LEVEL_INFO`. -/
abbrev klogLevelInfo : ℕ := 3

/-- `KLOG_LEVEL_WARN`. -/
abbrev klogLevelWarn : ℕ := 7

/-- `KLOG_MIN_LOG_LEVEL`. -/
abbrev klogMinLogLevel : ℕ := 1

/-- The addresses of `proc_state.ready_queue.list`, of `proc_state.procs` and of `process_exit`. -/
structure ProcStatics where
  readyQueue : BitVec 64
  procs : BitVec 64
  processExit : BitVec 64

/-- What `PROC_create_process` works on: the lists, the processes and the words of the stacks by
their addresses, and the live allocations. -/
structure ProcHeap where
  lists : ListHeap
  process : BitVec 64 → Process
  word : BitVec 64 → BitVec 64
  live : List (BitVec 64)

/-- A call in progress: the blocks it has released, and the pointers it should not have
followed. -/
structure CreateCall extends ProcHeap where
  released : List (BitVec 64)
  badAccesses : List (BitVec 64)

namespace CreateCall

/-- A pointer that must not be followed: null, or into a block that has been released. -/
def Bad (c : CreateCall) (p : BitVec 64) : Prop :=
  p = 0 ∨ ∃ b ∈ c.released, (p - b).toNat < sizeofProcess

instance (c : CreateCall) (p : BitVec 64) : Decidable (c.Bad p) :=
  inferInstanceAs (Decidable (_ ∨ _))

/-- Follow a pointer. -/
def access (c : CreateCall) (p : BitVec 64) : CreateCall :=
  if c.Bad p then { c with badAccesses := c.badAccesses ++ [p] } else c

/-- The outcome of `kmalloc` or of `MMU_alloc_stack`. -/
def acquire (c : CreateCall) (p : BitVec 64) : CreateCall :=
  if p = 0 then c else { c with live := p :: c.live }

/-- `kfree`. -/
def kfree (c : CreateCall) (p : BitVec 64) : CreateCall :=
  { c with live := c.live.erase p, released := p :: c.released }

/-- `memset(new, 0, sizeof(struct Process))`. -/
def memset (c : CreateCall) (new : BitVec 64) : CreateCall :=
  let c := c.access new
  let l := (c.lists.links.setNext (new + queueOffset) 0).setPrev (new + queueOffset) 0
  { c with
    lists := { c.lists with
      links := (l.setNext (new + procsOffset) 0).setPrev (new + procsOffset) 0 }
    process := Function.update c.process new .zero }

/-- Write fields of a process. -/
def update (c : CreateCall) (new : BitVec 64) (f : Process → Process) : CreateCall :=
  let c := c.access new
  { c with process := Function.update c.process new (f (c.process new)) }

/-- `new->stack[i] = w`. -/
def storeStack (c : CreateCall) (new i w : BitVec 64) : CreateCall :=
  let c := c.access new
  let stack := (c.process new).stack
  let c := c.access stack
  { c with word := Function.update c.word (stack + 8 * i) w }

/-- `LL_enqueue`, which follows the list, the header of the object and the header at the tail. -/
def enqueue (c : CreateCall) (list data : BitVec 64) : CreateCall :=
  let c := c.access list
  let c := (c.access (c.lists.nhead list data)).access (c.lists.links.prev list)
  { c with lists := c.lists.enqueue list data }

/-- `klog` of the name of a process. -/
def klogName (c : CreateCall) (level : ℕ) (new : BitVec 64) : CreateCall :=
  if klogMinLogLevel < level then c.access new else c

/-- The code behind the label `error`. -/
def error (c : CreateCall) (new : BitVec 64) : ℤ × CreateCall :=
  let c := if new ≠ 0 then c.kfree new else c
  (-1, c.klogName klogLevelWarn new)

/-- What is left when both allocations have succeeded: the stack, the registers and the name, and
the two lists. -/
def finish (c : CreateCall) (st : ProcStatics) (new name entryPoint arg : BitVec 64) :
    ℤ × CreateCall :=
  let c := c.storeStack new 0 0
  let c := c.storeStack new (-1) 0
  let c := c.storeStack new (-2) st.processExit
  let c := c.update new fun p ↦ p.start name entryPoint arg
  let c := (c.enqueue st.readyQueue new).enqueue st.procs new
  (0, c.klogName klogLevelInfo new)

end CreateCall

/-- **`PROC_create_process`**, when `kmalloc` returns `new` and `MMU_alloc_stack` returns
`stack`. -/
def createProcess (st : ProcStatics) (new stack name entryPoint arg : BitVec 64) (s : ProcHeap) :
    ℤ × CreateCall :=
  let c := CreateCall.acquire ⟨s, [], []⟩ new
  if new = 0 then c.error new
  else
    let c := (c.memset new).acquire stack
    let c := (c.update new fun p ↦ { p with stack := stack }).access new
    if (c.process new).stack = 0 then c.error new else c.finish st new name entryPoint arg

/-! ### What a call should do -/

/-- The lists of the scheduler: the headers of the processes in the ready queue, and of all
processes. Null is no header. -/
structure ProcLists (st : ProcStatics) (a : Seqs) (xs ys : List (BitVec 64)) (h : ListHeap) :
    Prop where
  refines : Refines a h
  ready : a.seq st.readyQueue = some xs
  procs : a.seq st.procs = some ys
  offset_ready : a.offset st.readyQueue = queueOffset
  offset_procs : a.offset st.procs = procsOffset
  null : a.Unlinked 0

/-- A block that `kmalloc` returns: it is inside the address space, and no header in it is in a
list. -/
structure FreshProcess (a : Seqs) (new : BitVec 64) : Prop where
  fits : new.toNat + sizeofProcess ≤ wordSize
  queue : a.Unlinked (new + queueOffset)
  procs : a.Unlinked (new + procsOffset)

/-- **What `PROC_create_process` should do**: make a process that is the last one of both lists, or
change neither list nor the live allocations; and follow no bad pointer. -/
structure CreatesOrFails (st : ProcStatics) (new : BitVec 64) (a : Seqs) (xs ys : List (BitVec 64))
    (s : ProcHeap) (r : ℤ × CreateCall) : Prop where
  outcome :
    (r.1 = 0 ∧ ∃ a', Refines a' r.2.lists ∧ ∀ list, a'.seq list =
      if list = st.readyQueue then some (xs ++ [new + queueOffset])
      else if list = st.procs then some (ys ++ [new + procsOffset])
      else a.seq list) ∨
    (r.1 = -1 ∧ Refines a r.2.lists ∧ r.2.live = s.live)
  safe : r.2.badAccesses = []

/-! ### Lists -/

section Lists

variable {a : Seqs} {h : ListHeap} {list x y : BitVec 64} {xs ys : List (BitVec 64)}

/-- The pointers of a header that is in no list are nobody's business. -/
theorem Refines.clearHeader (hr : Refines a h) (hx : a.Unlinked x) :
    Refines a { h with links := (h.links.setNext x 0).setPrev x 0 } := by
  refine ⟨fun list xs hs ↦ ?_, hr.offset, hr.home, hr.head⟩
  have hne : ∀ y ∈ list :: xs, y ≠ x := fun y hy he ↦ hr.unlinked_notMem hs hx (he ▸ hy)
  refine (hr.ring list xs hs).congr (fun y hy ↦ ?_) fun y hy ↦ ?_
  · rw [Links.setPrev_next, Links.setNext_next_of_ne (hne y hy)]
  · rw [Links.setPrev_prev_of_ne (hne y hy), Links.setNext_prev]

/-- The head of a list and its last header are not null. -/
theorem Refines.ne_null (hr : Refines a h) (hs : a.seq list = some xs) (hnull : a.Unlinked 0) :
    list ≠ 0 ∧ h.links.prev list ≠ 0 := by
  have hnot := hr.unlinked_notMem hs hnull
  refine ⟨fun he ↦ hnot (he ▸ List.mem_cons_self), fun he ↦ hnot ?_⟩
  rw [← he, (hr.ring list xs hs).2]
  exact getLastD_mem_cons xs list

/-- Inserting a header leaves the others in no list. -/
theorem Seqs.Unlinked.insert (hy : a.Unlinked y) (hne : y ≠ x) (hs : a.seq list = some xs) :
    (a.insert list x ys).Unlinked y := by
  have hlist : y ≠ list := by
    rintro rfl
    rw [hy.2] at hs
    cases hs
  exact ⟨(Function.update_of_ne hne _ _).trans hy.1, (Function.update_of_ne hlist _ _).trans hy.2⟩

namespace ProcLists

variable {st : ProcStatics} {new : BitVec 64}

/-- The two lists are not the same: their headers have different offsets. -/
theorem procs_ne_ready (hl : ProcLists st a xs ys h) : st.procs ≠ st.readyQueue := by
  intro he
  have hoff := hl.offset_procs
  rw [he, hl.offset_ready] at hoff
  cases hoff

/-- The new process joins the ready queue; its other header is still free. -/
theorem enqueueReady (hl : ProcLists st a xs ys h) (hnew : new ≠ 0) (hfresh : FreshProcess a new) :
    ProcLists st (a.insert st.readyQueue (new + queueOffset) (xs ++ [new + queueOffset]))
        (xs ++ [new + queueOffset]) ys (h.enqueue st.readyQueue new) ∧
      (a.insert st.readyQueue (new + queueOffset) (xs ++ [new + queueOffset])).Unlinked
        (new + procsOffset) := by
  have hqueue : new + queueOffset = new := BitVec.add_zero new
  have hne : new + procsOffset ≠ new + queueOffset := by
    have hfits := hfresh.fits
    simp only [sizeofProcess, wordSize, procsOffset, queueOffset] at *
    bv_omega
  refine ⟨⟨?_, Function.update_self .., ?_, hl.offset_ready, hl.offset_procs, ?_⟩, ?_⟩
  · rw [← hl.offset_ready]
    exact (hl.refines.append hl.ready (by rw [hl.offset_ready]; exact hfresh.queue)).1
  · exact (Function.update_of_ne hl.procs_ne_ready _ _).trans hl.procs
  · exact hl.null.insert (by rw [hqueue]; exact hnew.symm) hl.ready
  · exact hfresh.procs.insert hne hl.ready

end ProcLists

end Lists

/-! ### The steps of a call -/

namespace CreateCall

variable {c : CreateCall} {p new list data : BitVec 64}

/-- Nothing has been released, and no bad pointer followed. -/
def Clean (c : CreateCall) : Prop := c.released = [] ∧ c.badAccesses = []

theorem Clean.access (h : c.Clean) (hp : p ≠ 0) : c.access p = c := by
  refine if_neg fun hbad ↦ ?_
  rcases hbad with hnull | ⟨b, hb, -⟩
  · exact hp hnull
  · rw [h.1] at hb
    cases hb

theorem Clean.acquire (h : c.Clean) (p : BitVec 64) :
    (c.acquire p).Clean ∧ (c.acquire p).lists = c.lists := by
  rw [CreateCall.acquire]
  split
  · exact ⟨h, rfl⟩
  · exact ⟨h, rfl⟩

/-- The block is cleared, which no list notices. -/
theorem Clean.memset (h : c.Clean) (hnew : new ≠ 0) {a : Seqs} (hr : Refines a c.lists)
    (hfresh : FreshProcess a new) :
    (c.memset new).Clean ∧ Refines a (c.memset new).lists ∧ (c.memset new).live = c.live := by
  rw [CreateCall.memset, h.access hnew]
  exact ⟨h, (hr.clearHeader hfresh.queue).clearHeader hfresh.procs, rfl⟩

/-- Fields of a live process are written. -/
theorem Clean.update (h : c.Clean) (hnew : new ≠ 0) (f : Process → Process) :
    (c.update new f).Clean ∧ (c.update new f).lists = c.lists ∧ (c.update new f).live = c.live ∧
      (c.update new f).process new = f (c.process new) := by
  rw [CreateCall.update, h.access hnew]
  exact ⟨h, rfl, rfl, Function.update_self ..⟩

theorem Clean.storeStack (h : c.Clean) (hnew : new ≠ 0) (hstack : (c.process new).stack ≠ 0)
    (i w : BitVec 64) :
    (c.storeStack new i w).Clean ∧ (c.storeStack new i w).lists = c.lists ∧
      (c.storeStack new i w).process = c.process := by
  rw [CreateCall.storeStack, h.access hnew, h.access hstack]
  exact ⟨h, rfl, rfl⟩

/-- `LL_enqueue` of an object whose header is in no list. -/
theorem Clean.enqueue (h : c.Clean) {a : Seqs} {xs : List (BitVec 64)} (hr : Refines a c.lists)
    (hs : a.seq list = some xs) (hnull : a.Unlinked 0) (hdata : data + a.offset list ≠ 0) :
    (c.enqueue list data).Clean ∧ (c.enqueue list data).lists = c.lists.enqueue list data := by
  obtain ⟨hlist, hprev⟩ := hr.ne_null hs hnull
  rw [CreateCall.enqueue, h.access hlist, h.access (by rwa [hr.nhead_eq hs]), h.access hprev]
  exact ⟨h, rfl⟩

/-- **The rest of a call that goes right**: both lists have the new process behind all others. -/
theorem Clean.finish {st : ProcStatics} {a : Seqs} {xs ys : List (BitVec 64)} (h : c.Clean)
    (hl : ProcLists st a xs ys c.lists) (hnew : new ≠ 0) (hfresh : FreshProcess a new)
    (hstack : (c.process new).stack ≠ 0) (name entryPoint arg : BitVec 64) :
    (c.finish st new name entryPoint arg).1 = 0 ∧
      (c.finish st new name entryPoint arg).2.badAccesses = [] ∧
      ∃ a', Refines a' (c.finish st new name entryPoint arg).2.lists ∧ ∀ list, a'.seq list =
        if list = st.readyQueue then some (xs ++ [new + queueOffset])
        else if list = st.procs then some (ys ++ [new + procsOffset])
        else a.seq list := by
  obtain ⟨h₁, hl₁, hp₁⟩ := h.storeStack hnew hstack 0 0
  obtain ⟨h₂, hl₂, hp₂⟩ := h₁.storeStack hnew (by rwa [hp₁]) (-1) 0
  obtain ⟨h₃, hl₃, hp₃⟩ := h₂.storeStack hnew (by rwa [hp₂, hp₁]) (-2) st.processExit
  obtain ⟨h₄, hl₄, -⟩ := h₃.update hnew fun p ↦ p.start name entryPoint arg
  rw [CreateCall.finish]
  dsimp only
  generalize CreateCall.update _ new _ = c₄ at h₄ hl₄ ⊢
  have hl₄' : ProcLists st a xs ys c₄.lists := by
    rw [hl₄, hl₃, hl₂, hl₁]
    exact hl
  have hqueue : new + a.offset st.readyQueue ≠ 0 := by
    rw [hl.offset_ready, show new + queueOffset = new from BitVec.add_zero new]
    exact hnew
  obtain ⟨h₅, hl₅⟩ := h₄.enqueue hl₄'.refines hl.ready hl.null hqueue
  obtain ⟨hl₅', hfree⟩ := hl₄'.enqueueReady hnew hfresh
  rw [← hl₅] at hl₅'
  generalize c₄.enqueue st.readyQueue new = c₅ at h₅ hl₅' ⊢
  have hprocs : new + procsOffset ≠ 0 := by
    have hfits := hfresh.fits
    simp only [sizeofProcess, wordSize, procsOffset] at *
    bv_omega
  obtain ⟨h₆, hl₆⟩ := h₅.enqueue hl₅'.refines hl₅'.procs hl₅'.null (by rwa [hl₅'.offset_procs])
  have hr₆ := (hl₅'.refines.append hl₅'.procs (by rwa [hl₅'.offset_procs])).1
  rw [klogName, if_pos (by decide), h₆.access hnew]
  refine ⟨rfl, h₆.2, _, by rw [hl₆]; exact hr₆, fun list ↦ ?_⟩
  rw [hl₅'.offset_procs]
  show Function.update (Function.update a.seq st.readyQueue _) st.procs _ list = _
  rw [Function.update_apply, Function.update_apply]
  by_cases hready : list = st.readyQueue
  · rw [if_pos hready, if_pos hready, if_neg (hready ▸ hl.procs_ne_ready.symm)]
  · rw [if_neg hready, if_neg hready]

/-- **Behind the label `error`** the name is read by way of `new`, which is null or has just been
released. -/
theorem error_eq (c : CreateCall) (new : BitVec 64) :
    (c.error new).1 = -1 ∧ (c.error new).2.lists = c.lists ∧
      (c.error new).2.live = (if new = 0 then c.live else c.live.erase new) ∧
      (c.error new).2.badAccesses = c.badAccesses ++ [new] := by
  have hlog : ∀ c : CreateCall, c.Bad new → c.klogName klogLevelWarn new =
      { c with badAccesses := c.badAccesses ++ [new] } := fun c hbad ↦ by
    rw [klogName, if_pos (by decide), access, if_pos hbad]
  rw [CreateCall.error]
  by_cases hnew : new = 0
  · dsimp only
    rw [if_neg (not_not.2 hnew), if_pos hnew, hlog c (Or.inl hnew)]
    exact ⟨rfl, rfl, rfl, rfl⟩
  · have hfreed : (c.kfree new).Bad new :=
      Or.inr ⟨new, List.mem_cons_self, by rw [BitVec.sub_self]; decide⟩
    dsimp only
    rw [if_pos hnew, if_neg hnew, hlog _ hfreed]
    exact ⟨rfl, rfl, rfl, rfl⟩

end CreateCall

section Create

variable {st : ProcStatics} {new stack name entryPoint arg : BitVec 64} {a : Seqs}
  {xs ys : List (BitVec 64)} {s : ProcHeap}

/-- The call up to the test of the stack. -/
theorem createProcess_eq (st : ProcStatics) (stack name entryPoint arg : BitVec 64)
    (hr : Refines a s.lists) (hnew : new ≠ 0) (hfresh : FreshProcess a new) :
    ∃ c : CreateCall, c.Clean ∧ Refines a c.lists ∧ (c.process new).stack = stack ∧
      c.live = (if stack = 0 then new :: s.live else stack :: new :: s.live) ∧
      createProcess st new stack name entryPoint arg s =
        if stack = 0 then c.error new else c.finish st new name entryPoint arg := by
  have hstart : CreateCall.acquire ⟨s, [], []⟩ new = ⟨{ s with live := new :: s.live }, [], []⟩ :=
    if_neg hnew
  have hclean : CreateCall.Clean ⟨{ s with live := new :: s.live }, [], []⟩ := ⟨rfl, rfl⟩
  obtain ⟨h₁, hr₁, hlive₁⟩ := hclean.memset hnew hr hfresh
  obtain ⟨h₂, hlists₂⟩ := h₁.acquire stack
  rw [createProcess, hstart]
  dsimp only
  rw [if_neg hnew]
  obtain ⟨h₃, hlists₃, hlive₃, hprocess⟩ :=
    h₂.update hnew fun p ↦ { p with stack := stack }
  rw [h₃.access hnew]
  refine ⟨_, h₃, ?_, by rw [hprocess], ?_, if_congr (by rw [hprocess]) rfl rfl⟩
  · rw [hlists₃, hlists₂]
    exact hr₁
  · rw [hlive₃, CreateCall.acquire]
    split
    · exact hlive₁
    · exact congrArg (stack :: ·) hlive₁

/-- A failed call does everything right but for the last access. -/
theorem createProcess_of_failure (hl : ProcLists st a xs ys s.lists)
    (hfresh : new ≠ 0 → FreshProcess a new) (hfail : new = 0 ∨ stack = 0) :
    (createProcess st new stack name entryPoint arg s).1 = -1 ∧
      Refines a (createProcess st new stack name entryPoint arg s).2.lists ∧
      (createProcess st new stack name entryPoint arg s).2.live = s.live ∧
      (createProcess st new stack name entryPoint arg s).2.badAccesses = [new] := by
  by_cases hnew : new = 0
  · have hstart : CreateCall.acquire ⟨s, [], []⟩ new = ⟨s, [], []⟩ := if_pos hnew
    obtain ⟨hret, hlists, hlive, hbad⟩ := CreateCall.error_eq ⟨s, [], []⟩ new
    rw [createProcess, hstart]
    dsimp only
    rw [if_pos hnew, hlists, hlive, if_pos hnew]
    exact ⟨hret, hl.refines, rfl, hbad⟩
  · obtain rfl := hfail.resolve_left hnew
    obtain ⟨c, hclean, hr, -, hlive, heq⟩ := createProcess_eq st 0 name entryPoint arg hl.refines
      hnew (hfresh hnew)
    obtain ⟨hret, hlists, hlive', hbad⟩ := c.error_eq new
    rw [heq, if_pos rfl, hlists, hlive', if_neg hnew, hlive, if_pos rfl, List.erase_cons_head, hbad,
      hclean.2]
    exact ⟨hret, hr, rfl, rfl⟩

/-- A call for which both allocations succeed. -/
theorem createProcess_of_success (hl : ProcLists st a xs ys s.lists) (hnew : new ≠ 0)
    (hfresh : FreshProcess a new) (hstack : stack ≠ 0) :
    CreatesOrFails st new a xs ys s (createProcess st new stack name entryPoint arg s) := by
  obtain ⟨c, hclean, hr, hstack', -, heq⟩ := createProcess_eq st stack name entryPoint arg
    hl.refines hnew hfresh
  obtain ⟨hret, hsafe, hlists⟩ := hclean.finish ⟨hr, hl.ready, hl.procs, hl.offset_ready,
    hl.offset_procs, hl.null⟩ hnew hfresh (hstack'.symm ▸ hstack) name entryPoint arg
  rw [heq, if_neg hstack]
  exact ⟨Or.inl ⟨hret, hlists⟩, hsafe⟩

/-- **When a call of `PROC_create_process` goes right**: exactly if both allocations succeed. -/
theorem createsOrFails_iff (hl : ProcLists st a xs ys s.lists)
    (hfresh : new ≠ 0 → FreshProcess a new) :
    CreatesOrFails st new a xs ys s (createProcess st new stack name entryPoint arg s) ↔
      new ≠ 0 ∧ stack ≠ 0 := by
  constructor
  · intro h
    by_contra hfail
    have hbad : (createProcess st new stack name entryPoint arg s).2.badAccesses = [new] :=
      (createProcess_of_failure hl hfresh
        ((not_and_or.1 hfail).imp not_not.1 not_not.1)).2.2.2
    rw [h.safe] at hbad
    cases hbad
  · rintro ⟨hnew, hstack⟩
    exact createProcess_of_success hl hnew (hfresh hnew) hstack

end Create

/-! ### Empty lists -/

/-- A scheduler with no process but the first one, which is in no list. -/
def emptyScheduler : ProcHeap where
  lists := ((⟨⟨fun _ ↦ 0, fun _ ↦ 0⟩, fun _ ↦ 0⟩ : ListHeap).init 0x100 queueOffset).init 0x200
    procsOffset
  process := fun _ ↦ .zero
  word := fun _ ↦ 0
  live := []

/-- Where its lists and `process_exit` are. -/
def emptyStatics : ProcStatics := ⟨0x100, 0x200, 0x300⟩

/-- The sequences of its lists. -/
def emptySeqs : Seqs := (Seqs.uninitialised.clear 0x100 queueOffset).clear 0x200 procsOffset

theorem procLists_emptyScheduler :
    ProcLists emptyStatics emptySeqs [] [] emptyScheduler.lists := by
  refine ⟨((Refines.uninitialised _).init rfl _).init rfl _, ?_, ?_, ?_, ?_, ?_⟩
  all_goals decide +kernel

theorem freshProcess_emptySeqs : FreshProcess emptySeqs 0x1000 :=
  ⟨by decide +kernel, by decide +kernel, by decide +kernel⟩

/-- A process is made. -/
theorem createsOrFails_iff_firstProcess :
    ProcLists emptyStatics emptySeqs [] [] emptyScheduler.lists ∧
      FreshProcess emptySeqs 0x1000 ∧
      (CreatesOrFails emptyStatics 0x1000 emptySeqs [] [] emptyScheduler
        (createProcess emptyStatics 0x1000 0x9ff8 0x400 0x500 0 emptyScheduler) ↔
      (0x1000 : BitVec 64) ≠ 0 ∧ (0x9ff8 : BitVec 64) ≠ 0) :=
  ⟨procLists_emptyScheduler, freshProcess_emptySeqs,
    createsOrFails_iff procLists_emptyScheduler fun _ ↦ freshProcess_emptySeqs⟩

/-- **A failed call reads what is not there**: the name of a null process when `kmalloc` fails, and
of a process that it has just freed when `MMU_alloc_stack` fails. -/
theorem failed_creation_reads_freed :
    ProcLists emptyStatics emptySeqs [] [] emptyScheduler.lists ∧
      ¬CreatesOrFails emptyStatics 0 emptySeqs [] [] emptyScheduler
        (createProcess emptyStatics 0 0x9ff8 0x400 0x500 0 emptyScheduler) ∧
      ¬CreatesOrFails emptyStatics 0x1000 emptySeqs [] [] emptyScheduler
        (createProcess emptyStatics 0x1000 0 0x400 0x500 0 emptyScheduler) := by
  have hnull : (createProcess emptyStatics 0 0x9ff8 0x400 0x500 0 emptyScheduler).2.badAccesses =
      [0] :=
    (createProcess_of_failure procLists_emptyScheduler (fun hne ↦ absurd rfl hne)
      (Or.inl rfl)).2.2.2
  have hfreed : (createProcess emptyStatics 0x1000 0 0x400 0x500 0
      emptyScheduler).2.badAccesses = [0x1000] :=
    (createProcess_of_failure procLists_emptyScheduler (fun _ ↦ freshProcess_emptySeqs)
      (Or.inr rfl)).2.2.2
  refine ⟨procLists_emptyScheduler, fun h ↦ ?_, fun h ↦ ?_⟩
  · exact List.cons_ne_nil _ _ (hnull.symm.trans h.safe)
  · exact List.cons_ne_nil _ _ (hfreed.symm.trans h.safe)

end Marimba
