import Marimba.Proc.Steps

/-!
# The interrupt flag and `irq_semaphore`

Two things say whether hardware interrupts are let in. The flag `IF` of the CPU decides; it is
cleared by `CLI` and by the entry of a hardware interrupt, set by `STI`, and restored by `iretq`
from slot 12 of the frame. The counter `irq_semaphore` is what the kernel keeps: `IRQ_disable`
clears the flag when it raises the counter from `0`, and `IRQ_enable` sets it when it lowers the
counter to `0`. The counter is global, and the flag is a part of each process's context.

This module runs the scheduler together with the flag. A `yield` is a trap through a trap gate,
which leaves the flag alone, so its handler ends with the flag that its `IRQ_disable` and
`IRQ_enable` leave; from there on interrupts may come in again, until `iretq` takes the flag from
the frame. This tail of the handler is a state of its own.

**A new process starts with the flag clear.** `PROC_create_process` clears the whole struct and does
not set `rflags`, so the first dispatch of a process loads `IF = 0` with `irq_semaphore = 0`
(`new_process_masked`). It stays so, also when the process yields and is dispatched again, until its
first own pair of `IRQ_disable` and `IRQ_enable`. `interruptFlag_iff` says that this is all: in
every state of every run the flag and the counter agree exactly when the running process is not such
a one.

**What is left out**: exceptions, which keep the flag and the counter and never reschedule.
-/

namespace Marimba

open Links Sched

/-! ### State -/

/-- The scheduler on a CPU with an interrupt flag. -/
structure FlagState where
  sched : Sched
  /-- The flag `IF` of the CPU. -/
  interruptFlag : Bool
  /-- The flag in slot 12 of the frame that the `yield` trap is about to return through. -/
  frame : Option Bool
  /-- The flag in the saved `rflags` of each process. -/
  rflags : ProcNode → Bool
  /-- The processes that have not called `IRQ_disable` since `PROC_create_process` made them. No
  step reads this. -/
  fresh : ProcNode → Bool

/-- What can happen next: something in the scheduler, or the end of a `yield` trap. -/
inductive FlagEvent where
  | run (e : SchedEvent)
  | iretq
  deriving DecidableEq, Repr

/-- The flag after `IRQ_disable`: `CLI` when the counter was `0`. -/
def flagDisable (sem : ℕ) (flag : Bool) : Bool := if sem = 0 then false else flag

/-- The flag after `IRQ_enable`: `STI` when the counter has become `0`. -/
def flagEnable (sem : ℕ) (flag : Bool) : Bool :=
  if sem = 0 then flag else if sem - 1 = 0 then true else flag

/-- The flag after a call that disables interrupts and enables them again. -/
def flagPair (sem : ℕ) (flag : Bool) : Bool :=
  flagEnable ((sem + 1) % 2 ^ 32) (flagDisable sem flag)

/-- `PROC_save_context`, when the trap calls it: slot 12 goes to `rflags`. -/
def saveFlags (rflags : ProcNode → Bool) (r : IsrReport) (slot : Bool) : ProcNode → Bool :=
  match r.saved with
  | some x => Function.update rflags x slot
  | none => rflags

/-- `PROC_load_context`, when the trap calls it: slot 12 comes from `rflags`. -/
def loadFlags (rflags : ProcNode → Bool) (r : IsrReport) (slot : Bool) : Bool :=
  match r.loaded with
  | some x => rflags x
  | none => slot

namespace FlagState

/-- The value of `irq_semaphore`. -/
def sem (t : FlagState) : ℕ := t.sched.irqSemaphore

/-- The running process has called `IRQ_disable`. -/
def settle (t : FlagState) : ProcNode → Bool := Function.update t.fresh t.sched.currProc false

/-- What a step of the scheduler to `s` does to the flags.

`PROC_create_process` allocates the stack in a pair of `IRQ_disable` and `IRQ_enable`, after it has
cleared the struct; the first thing `process_exit` does is to print, which is such a pair for each
character; and `PROC_reschedule` with the end of `IRQ_generic_isr` is one too. -/
def flagsAfter (t : FlagState) (r : IsrReport) (s : Sched) : SchedEvent → FlagState
  | .irqDisable =>
    { t with sched := s, interruptFlag := flagDisable t.sem t.interruptFlag, fresh := t.settle }
  | .irqEnable => { t with sched := s, interruptFlag := flagEnable t.sem t.interruptFlag }
  | .createBegin new =>
    { t with
      sched := s
      interruptFlag := flagPair t.sem t.interruptFlag
      rflags := Function.update t.rflags (.proc new) false
      fresh := Function.update t.settle (.proc new) true }
  | .yield =>
    let rflags := saveFlags t.rflags r t.interruptFlag
    { t with
      sched := s
      interruptFlag := flagPair t.sem t.interruptFlag
      frame := some (loadFlags rflags r t.interruptFlag)
      rflags := rflags }
  | .blockOn _ enableInts =>
    { t with
      sched := s
      interruptFlag := if enableInts then flagEnable t.sem t.interruptFlag else t.interruptFlag }
  | .runCheck | .exitFree =>
    { t with sched := s, interruptFlag := flagPair t.sem t.interruptFlag, fresh := t.settle }
  | .interrupt _ =>
    -- entry, handler and `iretq` of an interrupt, whose frame holds the flag it came in with
    let rflags := saveFlags t.rflags r t.interruptFlag
    { t with
      sched := s
      interruptFlag := loadFlags rflags r t.interruptFlag
      frame := if r.loaded.isSome then none else t.frame
      rflags := rflags }
  | .createStep | .exitClear => { t with sched := s }

/-- One step. A hardware interrupt comes in when the flag is set, also in the tail of a `yield`
trap; everything else happens outside of it. -/
def step (t : FlagState) : FlagEvent → Option (IsrReport × FlagState)
  | .run (.interrupt wakes) =>
    if t.interruptFlag then
      (t.sched.hardwareInterrupt wakes).map fun r ↦
        (r.1, t.flagsAfter r.1 r.2 (.interrupt wakes))
    else none
  | .run e =>
    if t.frame = none then
      (t.sched.step e).map fun r ↦ (r.1, t.flagsAfter r.1 r.2 e)
    else none
  | .iretq =>
    match t.frame with
    | some flag => some (.quiet, { t with interruptFlag := flag, frame := none })
    | none => none

/-- At the end of `IRQ_x86_64_init`, which sets the flag. -/
def boot : FlagState where
  sched := Sched.boot
  interruptFlag := true
  frame := none
  rflags := fun _ ↦ false
  fresh := fun _ ↦ false

/-- Processes yield only with their own calls of `IRQ_disable` matched, which makes the counter `0`;
no hardware interrupt comes in after `process_exit` has cleared `curr_proc` and before it is
rescheduled; and the counter does not wrap around. -/
def Matched (t : FlagState) : FlagEvent → Prop
  | .run .yield => t.sem = 0
  | .run (.interrupt _) => t.sched.pc ≠ .exitNull
  | .run .irqDisable | .run (.createBegin _) | .run .runCheck | .run .exitFree => t.sem + 1 < 2 ^ 32
  | _ => True

instance (t : FlagState) : DecidablePred t.Matched
  | .run .yield => inferInstanceAs (Decidable (_ = _))
  | .run (.interrupt _) => inferInstanceAs (Decidable (¬_))
  | .run .irqDisable | .run (.createBegin _) | .run .runCheck | .run .exitFree =>
    inferInstanceAs (Decidable (_ < _))
  | .run .irqEnable | .run .createStep | .run (.blockOn ..) | .run .exitClear | .iretq =>
    .isTrue trivial

end FlagState

/-! ### What the calls do to the flag -/

/-- The flag of a process that runs outside of the handlers: it is set when the counter is `0`,
except that of a fresh process, which is clear. -/
def FlagOk (flag : Bool) (sem : ℕ) (fresh : Bool) : Prop :=
  (flag = true ↔ sem = 0 ∧ fresh = false) ∧ (fresh = true → sem = 0)

namespace FlagOk

variable {flag fresh : Bool} {sem : ℕ}

theorem eq_false (h : FlagOk flag sem fresh) (hsem : sem ≠ 0) : flag = false :=
  Bool.eq_false_iff.2 fun hf ↦ hsem (h.1.1 hf).1

theorem eq_not_fresh (h : FlagOk flag sem fresh) (hsem : sem = 0) : flag = !fresh := by
  have hiff := h.1
  rw [and_iff_right hsem] at hiff
  cases fresh
  · exact hiff.2 rfl
  · exact Bool.eq_false_iff.2 fun hf ↦ Bool.noConfusion (hiff.1 hf)

theorem disable (h : FlagOk flag sem fresh) (hlt : sem + 1 < 2 ^ 32) :
    FlagOk (flagDisable sem flag) ((sem + 1) % 2 ^ 32) false := by
  rw [Nat.mod_eq_of_lt hlt, flagDisable]
  refine ⟨iff_of_false ?_ fun hz ↦ Nat.succ_ne_zero sem hz.1, fun hf ↦ Bool.noConfusion hf⟩
  split
  · exact Bool.false_ne_true
  · next hsem => rw [h.eq_false hsem]; exact Bool.false_ne_true

theorem enable (h : FlagOk flag sem fresh) : FlagOk (flagEnable sem flag) (sem - 1) fresh := by
  rw [flagEnable]
  split
  · next hsem =>
    rw [hsem] at h ⊢
    exact h
  · next hsem =>
    -- with interrupts disabled the process is not fresh
    have hold : fresh = false := Bool.eq_false_iff.2 fun hf ↦ hsem (h.2 hf)
    refine ⟨?_, fun hf ↦ absurd (h.2 hf) hsem⟩
    split
    · next hone => exact iff_of_true rfl ⟨hone, hold⟩
    · next hone =>
      rw [h.eq_false hsem]
      exact iff_of_false Bool.false_ne_true fun hz ↦ hone hz.1

/-- After a pair the flag and the counter agree, and they do so from a fresh process on. -/
theorem pair (h : FlagOk flag sem fresh) (hlt : sem + 1 < 2 ^ 32) :
    FlagOk (flagPair sem flag) sem false := by
  have hpair := (h.disable hlt).enable
  rw [Nat.mod_eq_of_lt hlt, Nat.add_sub_cancel] at hpair
  rw [flagPair, Nat.mod_eq_of_lt hlt]
  exact hpair

end FlagOk

/-! ### The invariant -/

namespace FlagState

variable {t t' : FlagState} {r : IsrReport}

/-- **The invariant.** The flag of the running process is as it should be, that in the frame of a
`yield` trap is that of the process it returns to, and the saved flags are clear for the fresh
processes only. -/
structure Flags (t : FlagState) : Prop where
  inv : ∃ ready waits place, Inv t.sched ready waits place
  main : t.fresh .main = false
  null : t.fresh .null = false
  exiting : t.sched.pc = .exitFreed → t.fresh t.sched.currProc = false
  running : t.frame = none → FlagOk t.interruptFlag t.sem (t.fresh t.sched.currProc)
  returning : ∀ flag, t.frame = some flag →
    t.interruptFlag = true ∧ t.sem = 0 ∧ flag = !t.fresh t.sched.currProc
  saved : ∀ x, t.sched.IsLive x → x ≠ t.sched.currProc → t.rflags x = !t.fresh x

theorem flags_boot : Flags boot := by
  refine ⟨⟨_, _, _, inv_boot⟩, rfl, rfl, fun _ ↦ rfl, fun _ ↦ ?_, fun flag hflag ↦ ?_,
    fun x hx hne ↦ ?_⟩
  · exact ⟨iff_of_true rfl ⟨rfl, rfl⟩, fun hf ↦ Bool.noConfusion hf⟩
  · cases hflag
  · rcases hx with rfl | ⟨p, hp, -⟩
    · exact absurd rfl hne
    · cases hp

theorem settle_self (t : FlagState) : t.settle t.sched.currProc = false := Function.update_self ..

theorem settle_of_ne {x : ProcNode} (hx : x ≠ t.sched.currProc) : t.settle x = t.fresh x :=
  Function.update_of_ne hx ..

theorem settle_eq_false {x : ProcNode} (hx : t.fresh x = false) : t.settle x = false := by
  rcases eq_or_ne x t.sched.currProc with rfl | hne
  · exact t.settle_self
  · rw [settle_of_ne hne, hx]

/-! ### Steps -/

/-- A step in which the running process goes on running, and no process is created. -/
theorem Flags.goOn (h : Flags t) {s : Sched} {flag : Bool} {fresh : ProcNode → Bool}
    (hframe : t.frame = none) (hinv : ∃ ready waits place, Inv s ready waits place)
    (hcurr : s.currProc = t.sched.currProc) (hlive : ∀ p ∈ s.live, p ∈ t.sched.live)
    (hfresh : fresh = t.fresh ∨ fresh = t.settle)
    (hexit : s.pc = .exitFreed → fresh t.sched.currProc = false)
    (hflag : FlagOk flag s.irqSemaphore (fresh t.sched.currProc)) :
    Flags { t with sched := s, interruptFlag := flag, fresh := fresh } := by
  have hkeep : ∀ x, t.fresh x = false → fresh x = false := fun x hx ↦ by
    rcases hfresh with rfl | rfl
    · exact hx
    · exact settle_eq_false hx
  have hother : ∀ x, x ≠ t.sched.currProc → fresh x = t.fresh x := fun x hx ↦ by
    rcases hfresh with rfl | rfl
    · rfl
    · exact settle_of_ne hx
  refine ⟨hinv, hkeep _ h.main, hkeep _ h.null, fun hpc ↦ ?_, fun _ ↦ ?_, fun flag' hflag' ↦ ?_,
    fun x hx hne ↦ ?_⟩
  · show fresh s.currProc = false
    rw [hcurr]
    exact hexit hpc
  · show FlagOk flag s.irqSemaphore (fresh s.currProc)
    rw [hcurr]
    exact hflag
  · exact absurd (hframe.symm.trans hflag') (Option.some_ne_none flag').symm
  · have hx' : x ≠ t.sched.currProc := fun he ↦ hne (he.trans hcurr.symm)
    show t.rflags x = !fresh x
    rw [hother x hx']
    refine h.saved x ?_ hx'
    rcases hx with rfl | ⟨p, hp, rfl⟩
    · exact Or.inl rfl
    · exact Or.inr ⟨p, hlive p hp, rfl⟩

/-- **Creation.** The new process is fresh, and its saved flag is clear. -/
theorem Flags.createBegin (h : Flags t) {new : ℕ} (hframe : t.frame = none)
    (hlt : t.sem + 1 < 2 ^ 32)
    (hinv : ∃ ready waits place, Inv (t.sched.createBegin new) ready waits place) :
    Flags (t.flagsAfter r (t.sched.createBegin new) (.createBegin new)) := by
  obtain ⟨ready, waits, place, hnew⟩ := hinv
  have hne : t.sched.currProc ≠ .proc new := hnew.control.1
  have hcurr : Function.update t.settle (.proc new) true t.sched.currProc = false := by
    rw [Function.update_of_ne hne, settle_self]
  have hkeep : ∀ x, x ≠ .proc new → t.fresh x = false →
      Function.update t.settle (.proc new) true x = false := fun x hx hfalse ↦ by
    rw [Function.update_of_ne hx]
    exact settle_eq_false hfalse
  refine ⟨⟨ready, waits, place, hnew⟩, hkeep _ (by simp) h.main, hkeep _ (by simp) h.null,
    fun _ ↦ hcurr, fun _ ↦ ?_, fun flag hflag ↦ ?_, fun x hx hx' ↦ ?_⟩
  · show FlagOk (flagPair t.sem t.interruptFlag) t.sem
      (Function.update t.settle (.proc new) true t.sched.currProc)
    rw [hcurr]
    exact (h.running hframe).pair hlt
  · exact absurd (hframe.symm.trans hflag) (Option.some_ne_none flag).symm
  · show Function.update t.rflags (.proc new) false x = !Function.update t.settle (.proc new) true x
    rcases eq_or_ne x (.proc new) with rfl | hxn
    · rw [Function.update_self, Function.update_self]
      rfl
    · rw [Function.update_of_ne hxn, Function.update_of_ne hxn, settle_of_ne (t := t) hx']
      refine h.saved x ?_ hx'
      rcases hx with rfl | ⟨p, hp, rfl⟩
      · exact Or.inl rfl
      · rcases List.mem_cons.1 hp with rfl | hp
        · exact absurd rfl hxn
        · exact Or.inr ⟨p, hp, rfl⟩

theorem saveFlags_of_ne {rflags : ProcNode → Bool} {slot : Bool} {x : ProcNode}
    (hx : r.saved ≠ some x) : saveFlags rflags r slot x = rflags x := by
  rw [saveFlags]
  rcases hs : r.saved with - | y
  · rfl
  · refine Function.update_of_ne (fun he ↦ hx ?_) ..
    rw [hs, he]

theorem saveFlags_self {rflags : ProcNode → Bool} {slot : Bool} {x : ProcNode}
    (hx : r.saved = some x) : saveFlags rflags r slot x = slot := by
  rw [saveFlags, hx]
  exact Function.update_self ..

/-- **The `yield` trap** saves the flag of the running process and puts that of the next one into
the frame. -/
theorem Flags.yieldTrap (h : Flags t) (hframe : t.frame = none) (hsem : t.sem = 0)
    (hinv : ∃ ready waits place, Inv t.sched.yieldTrap.2 ready waits place)
    (hreport : ReportOk t.sched t.sched.yieldTrap.2 t.sched.yieldTrap.1) :
    Flags (t.flagsAfter t.sched.yieldTrap.1 t.sched.yieldTrap.2 .yield) := by
  have hown : t.interruptFlag = !t.fresh t.sched.currProc :=
    (h.running hframe).eq_not_fresh hsem
  have hsaved := t.sched.yieldTrap_saved
  have hloaded := t.sched.yieldTrap_loaded
  have hsem' : t.sched.yieldTrap.2.irqSemaphore = 0 := yieldTrap_irqSemaphore hsem
  have hlive := t.sched.yieldTrap_live
  generalize hr : t.sched.yieldTrap.1 = r at *
  generalize hs : t.sched.yieldTrap.2 = s at *
  have hlive' : ∀ x, s.IsLive x → t.sched.IsLive x := fun x hx ↦ by
    rwa [IsLive, hlive] at hx
  have hpc : s.pc ≠ .exitFreed := by
    rw [← hs, yieldTrap_eq]
    intro he
    cases he
  -- what is saved is saved into the process that was running
  have hother : ∀ x, x ≠ t.sched.currProc →
      saveFlags t.rflags r t.interruptFlag x = t.rflags x := by
    intro x hx
    refine saveFlags_of_ne fun he ↦ ?_
    rw [hsaved] at he
    split at he
    · cases he
    · exact hx (Option.some.inj he).symm
  refine ⟨hinv, h.main, h.null, fun he ↦ absurd he hpc, fun hf ↦ ?_, fun flag hflag ↦ ?_,
    fun x hx hne ↦ ?_⟩
  · cases hf
  · refine ⟨?_, hsem', ?_⟩
    · show flagPair t.sem t.interruptFlag = true
      rw [hsem]
      rfl
    · obtain rfl := Option.some.inj hflag
      show loadFlags (saveFlags t.rflags r t.interruptFlag) r t.interruptFlag = !t.fresh s.currProc
      rw [loadFlags, hloaded]
      by_cases hc : t.sched.currProc = s.currProc
      · rw [if_pos hc, ← hc]
        exact hown
      · rw [if_neg hc]
        show saveFlags t.rflags r t.interruptFlag s.currProc = _
        rw [hother _ (Ne.symm hc)]
        refine h.saved _ (hlive' _ (hreport.loaded _ ?_).1) (Ne.symm hc)
        rw [hloaded, if_neg hc]
  · show saveFlags t.rflags r t.interruptFlag x = !t.fresh x
    rcases eq_or_ne x t.sched.currProc with rfl | hx'
    · rw [saveFlags_self, hown]
      rw [hsaved, if_neg]
      rintro (he | he)
      · exact hne he
      · rcases hlive' _ hx with hm | ⟨p, -, hp⟩ <;> rw [he] at * <;> contradiction
    · rw [hother x hx']
      exact h.saved x (hlive' x hx) hx'

/-- The flag is set only with the counter at `0`, in the tail of a trap as well. -/
theorem Flags.sem_eq_zero (h : Flags t) (hflag : t.interruptFlag = true) : t.sem = 0 := by
  rcases hframe : t.frame with - | flag
  · exact ((h.running hframe).1.1 hflag).1
  · exact (h.returning flag hframe).2.1

/-- **A hardware interrupt** leaves the flags as they are. -/
theorem Flags.hardwareInterrupt (h : Flags t) {s : Sched} {ws : List Wake}
    (hflag : t.interruptFlag = true) (hpc : t.sched.pc ≠ .exitNull)
    (hstep : t.sched.hardwareInterrupt ws = some (r, s)) :
    Flags (t.flagsAfter r s (.interrupt ws)) := by
  have hsem := h.sem_eq_zero hflag
  obtain ⟨ready, waits, place, hinv⟩ := h.inv
  obtain ⟨hcurr, hlive, hpc', hsem'⟩ := hinv.hardwareInterrupt_touched hpc hsem hstep
  obtain ⟨rfl, ready', waits', place', hinv', -⟩ := hinv.hardwareInterrupt hpc hstep
  refine ⟨⟨ready', waits', place', hinv'⟩, h.main, h.null, fun he ↦ ?_, fun hf ↦ ?_,
    fun flag hf ↦ ?_, fun x hx hne ↦ ?_⟩
  · show t.fresh s.currProc = false
    rw [hcurr]
    exact h.exiting (hpc'.symm.trans he)
  · show FlagOk t.interruptFlag s.irqSemaphore (t.fresh s.currProc)
    rw [hcurr, hsem', ← hsem]
    exact h.running hf
  · show t.interruptFlag = true ∧ s.irqSemaphore = 0 ∧ flag = !t.fresh s.currProc
    rw [hcurr]
    exact ⟨hflag, hsem', (h.returning flag hf).2.2⟩
  · refine h.saved x ?_ fun he ↦ hne (he.trans hcurr.symm)
    rcases hx with rfl | ⟨p, hp, rfl⟩
    · exact Or.inl rfl
    · exact Or.inr ⟨p, hlive ▸ hp, rfl⟩

/-- **The end of a `yield` trap.** The flag of the frame becomes that of the CPU. -/
theorem Flags.iretq (h : Flags t) {flag : Bool} (hframe : t.frame = some flag) :
    Flags { t with interruptFlag := flag, frame := none } := by
  obtain ⟨-, hsem, rfl⟩ := h.returning flag hframe
  refine ⟨h.inv, h.main, h.null, h.exiting, fun _ ↦ ⟨?_, fun _ ↦ hsem⟩, fun _ hf ↦ ?_, h.saved⟩
  · show (!t.fresh t.sched.currProc) = true ↔ t.sem = 0 ∧ t.fresh t.sched.currProc = false
    rw [and_iff_right hsem, Bool.not_eq_true']
  · cases hf

/-- A step that is no hardware interrupt is one of the scheduler, outside of a trap. -/
theorem step_run {e : SchedEvent} (hint : ∀ ws, e ≠ .interrupt ws)
    (hstep : t.step (.run e) = some (r, t')) :
    t.frame = none ∧ ∃ s, t.sched.step e = some (r, s) ∧ t' = t.flagsAfter r s e := by
  have heq : (if t.frame = none then
      (t.sched.step e).map fun r ↦ (r.1, t.flagsAfter r.1 r.2 e) else none) = some (r, t') := by
    cases e with
    | interrupt ws => exact absurd rfl (hint ws)
    | _ => exact hstep
  obtain ⟨hframe, hmap⟩ := Option.ite_none_right_eq_some.1 heq
  obtain ⟨⟨r', s⟩, hs, he⟩ := Option.map_eq_some_iff.1 hmap
  obtain ⟨rfl, rfl⟩ := Prod.mk.inj he
  exact ⟨hframe, s, hs, rfl⟩

/-- A step of the scheduler outside of the handlers. -/
theorem Flags.run (h : Flags t) {e : SchedEvent} {s : Sched} (hframe : t.frame = none)
    (hint : ∀ ws, e ≠ .interrupt ws) (hmatched : t.Matched (.run e))
    (hstep : t.sched.step e = some (r, s)) : Flags (t.flagsAfter r s e) := by
  have hflag := h.running hframe
  obtain ⟨ready, waits, place, hinv⟩ := h.inv
  have hspare : t.sched.SparesExit e := by
    cases e with
    | interrupt ws => exact absurd rfl (hint ws)
    | _ => trivial
  obtain ⟨ready', waits', place', hinv', -, hreport, -⟩ := inv_step hinv hspare hstep
  have hnew : ∃ ready waits place, Inv s ready waits place := ⟨ready', waits', place', hinv'⟩
  cases e with
  | irqDisable =>
    obtain ⟨-, heq⟩ := Option.ite_none_right_eq_some.1 hstep
    cases heq
    refine h.goOn hframe hnew rfl (fun _ hp ↦ hp) (Or.inr rfl) (fun _ ↦ t.settle_self) ?_
    rw [settle_self]
    exact hflag.disable hmatched
  | irqEnable =>
    obtain ⟨hpc, heq⟩ := Option.ite_none_right_eq_some.1 hstep
    cases heq
    refine h.goOn hframe hnew rfl (fun _ hp ↦ hp) (Or.inl rfl) (fun hpc' ↦ ?_) hflag.enable
    exact Pc.noConfusion (hpc.symm.trans hpc')
  | createBegin new =>
    obtain ⟨-, heq⟩ := Option.ite_none_right_eq_some.1 hstep
    cases heq
    exact h.createBegin hframe hmatched hnew
  | createStep =>
    simp only [Sched.step] at hstep
    split at hstep
    · next new prev k hpc =>
      cases hstep
      cases k <;>
        exact h.goOn hframe hnew rfl (fun _ hp ↦ hp) (Or.inl rfl) (fun hpc' ↦ Pc.noConfusion hpc')
          hflag
    · cases hstep
      exact h.goOn hframe hnew rfl (fun _ hp ↦ hp) (Or.inl rfl) (fun hpc' ↦ Pc.noConfusion hpc')
        hflag
    · cases hstep
  | yield =>
    obtain ⟨-, heq⟩ := canYield_of_step hstep
    obtain ⟨rfl, rfl⟩ : t.sched.yieldTrap.1 = r ∧ t.sched.yieldTrap.2 = s := by
      rw [heq]
      exact ⟨rfl, rfl⟩
    exact h.yieldTrap hframe hmatched hnew hreport
  | blockOn q enableInts =>
    obtain ⟨-, heq⟩ := Option.ite_none_right_eq_some.1 hstep
    cases heq
    cases enableInts
    · exact h.goOn hframe hnew rfl (fun _ hp ↦ hp) (Or.inl rfl) (fun hpc' ↦ Pc.noConfusion hpc')
        hflag
    · exact h.goOn hframe hnew rfl (fun _ hp ↦ hp) (Or.inl rfl) (fun hpc' ↦ Pc.noConfusion hpc')
        hflag.enable
  | runCheck =>
    obtain ⟨-, heq⟩ := Option.ite_none_right_eq_some.1 hstep
    cases heq
    have hsem : t.sched.runCheck.irqSemaphore = t.sem := by
      rw [Sched.runCheck]
      have hback : (t.sem + 1) % 2 ^ 32 - 1 = t.sem := by
        rw [Nat.mod_eq_of_lt hmatched, Nat.add_sub_cancel]
      split <;> exact hback
    have hkeep : t.sched.runCheck.currProc = t.sched.currProc ∧
        t.sched.runCheck.live = t.sched.live := by
      rw [Sched.runCheck]
      split <;> exact ⟨rfl, rfl⟩
    refine h.goOn hframe hnew hkeep.1 (fun _ hp ↦ hkeep.2 ▸ hp) (Or.inr rfl)
      (fun _ ↦ t.settle_self) ?_
    rw [settle_self, hsem]
    exact hflag.pair hmatched
  | exitFree =>
    simp only [Sched.step] at hstep
    split at hstep
    · cases hstep
      refine h.goOn hframe hnew rfl (fun _ hp ↦ List.mem_of_mem_erase hp) (Or.inr rfl)
        (fun _ ↦ t.settle_self) ?_
      rw [settle_self]
      exact hflag.pair hmatched
    · cases hstep
  | exitClear =>
    obtain ⟨hpc, heq⟩ := Option.ite_none_right_eq_some.1 hstep
    cases heq
    have hold := h.exiting hpc
    refine ⟨hnew, h.main, h.null, fun hpc' ↦ Pc.noConfusion hpc', fun _ ↦ ?_, fun flag hf ↦ ?_,
      fun x hx _ ↦ h.saved x hx ?_⟩
    · show FlagOk t.interruptFlag t.sem (t.fresh .null)
      rw [h.null, ← hold]
      exact hflag
    · exact absurd (hframe.symm.trans hf) (Option.some_ne_none flag).symm
    · -- the struct of the exiting process is freed
      have hcontrol := hinv.control
      simp only [Control, hpc] at hcontrol
      obtain ⟨-, p, hp, hdead⟩ := hcontrol
      rintro rfl
      rcases hx with hm | ⟨p', hp', he⟩
      · rw [hp] at hm
        cases hm
      · rw [hp] at he
        cases he
        exact hdead hp'
  | interrupt ws => exact absurd rfl (hint ws)

/-- **Every step keeps the flags in order.** -/
theorem flags_step {e : FlagEvent} (h : Flags t) (hmatched : t.Matched e)
    (hstep : t.step e = some (r, t')) : Flags t' := by
  rcases e with e | -
  · by_cases hint : ∃ ws, e = .interrupt ws
    · obtain ⟨ws, rfl⟩ := hint
      obtain ⟨hflag, heq⟩ := Option.ite_none_right_eq_some.1 hstep
      obtain ⟨⟨r', s⟩, hs, he⟩ := Option.map_eq_some_iff.1 heq
      cases he
      exact h.hardwareInterrupt hflag hmatched hs
    · have hno : ∀ ws, e ≠ .interrupt ws := fun ws he ↦ hint ⟨ws, he⟩
      obtain ⟨hframe, s, hs, rfl⟩ := step_run hno hstep
      exact h.run hframe hno hmatched hs
  · simp only [step] at hstep
    split at hstep
    · next flag hframe =>
      cases hstep
      exact h.iretq hframe
    · cases hstep

end FlagState

/-! ### Whole runs -/

open FlagState

/-- **The flag is set exactly when the counter is `0`, except in a fresh process.** In every state
of every run in which processes yield with their disables matched, and outside of the handlers, the
flag and the counter agree if and only if the running process has called `IRQ_disable` since it was
created, or was not made by `PROC_create_process`. -/
theorem interruptFlag_iff {events : List FlagEvent} {out : List IsrReport} {t : FlagState}
    (halong : Along FlagState.step Matched FlagState.boot events)
    (hrun : runTrace FlagState.step FlagState.boot events = some (out, t))
    (hframe : t.frame = none) :
    (t.interruptFlag = true ↔ t.sched.irqSemaphore = 0) ↔ t.fresh t.sched.currProc = false := by
  have hflags : Flags t := invariant_of_along (fun s e r s' hs he hstep ↦ flags_step hs he hstep)
    flags_boot halong hrun
  obtain ⟨hiff, hzero⟩ := hflags.running hframe
  refine ⟨fun hagree ↦ ?_, fun hfresh ↦ ?_⟩
  · refine Bool.eq_false_iff.2 fun hf ↦ ?_
    have hold := (hiff.1 (hagree.2 (hzero hf))).2
    rw [hf] at hold
    cases hold
  · rw [hiff, and_iff_left hfresh]
    rfl

/-- A process is created and dispatched. -/
def createAndRun : List FlagEvent :=
  [.run (.createBegin 1), .run .createStep, .run .createStep, .run .createStep, .run .createStep,
    .run .runCheck, .run .yield, .run (.interrupt []), .iretq]

/-- The process disables interrupts and enables them again: from then on the flag and the counter
agree. -/
theorem interruptFlag_iff_afterPair :
    ∃ out t, runTrace FlagState.step FlagState.boot
        (createAndRun ++ [.run .irqDisable, .run .irqEnable]) = some (out, t) ∧
      t.sched.currProc = .proc 1 ∧ (t.interruptFlag = true ↔ t.sched.irqSemaphore = 0) := by
  have hsome : ((runTrace FlagState.step FlagState.boot
      (createAndRun ++ [.run .irqDisable, .run .irqEnable])).map fun u ↦
        (u.2.frame, u.2.sched.currProc, u.2.fresh (.proc 1))) =
      some (none, .proc 1, false) := by
    decide +kernel
  obtain ⟨⟨out, t⟩, hrun, ht⟩ := Option.map_eq_some_iff.1 hsome
  simp only [Prod.mk.injEq] at ht
  obtain ⟨hframe, hcurr, hfresh⟩ := ht
  refine ⟨out, t, hrun, hcurr, (interruptFlag_iff (by decide +kernel) hrun hframe).2 ?_⟩
  rw [hcurr]
  exact hfresh

/-- **A new process runs with the flag clear** and the counter at `0`: no interrupt reaches it. -/
theorem new_process_masked :
    ∃ out t, Along FlagState.step Matched FlagState.boot createAndRun ∧
      runTrace FlagState.step FlagState.boot createAndRun = some (out, t) ∧ t.frame = none ∧
      t.sched.currProc = .proc 1 ∧ t.interruptFlag = false ∧ t.sched.irqSemaphore = 0 ∧
      ¬(t.interruptFlag = true ↔ t.sched.irqSemaphore = 0) := by
  have hsome : ((runTrace FlagState.step FlagState.boot createAndRun).map fun u ↦
      (u.2.frame, u.2.sched.currProc, u.2.interruptFlag, u.2.sched.irqSemaphore)) =
      some (none, .proc 1, false, 0) := by
    decide +kernel
  obtain ⟨⟨out, t⟩, hrun, ht⟩ := Option.map_eq_some_iff.1 hsome
  simp only [Prod.mk.injEq] at ht
  obtain ⟨hframe, hcurr, hflag, hsem⟩ := ht
  refine ⟨out, t, by decide +kernel, hrun, hframe, hcurr, hflag, hsem, fun hiff ↦ ?_⟩
  have hset := hiff.2 hsem
  rw [hflag] at hset
  cases hset

end Marimba
