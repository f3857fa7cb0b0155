import Marimba.Ata.Protocol

/-!
# Failed commands of the ATA driver

`Marimba.Ata.Driver` has a device that always delivers. Here a command completes with an `Outcome`:
with its data, with the error flag, or with neither. `ata_isr` wakes the first blocked process only
when the error flag is clear and DRQ is set; in the other cases it writes to the log and returns.

**A failed command is the last one.** Its process stays blocked with its request at the head of the
queue, no command is outstanding, and every later caller finds the queue non-empty and leaves the
command to a process that never runs (`Failed.step`). To the readers a failed command looks like one
whose completion interrupt is never taken, and this is how it is proved: the system with the failed
command follows a run of the system without failures that stops short of the interrupt.

`right_along_iff` says that a run keeps what the driver owes its readers exactly when every command
of it completes with data. The check for DRQ in `ata_read_block` never fails (`code_eq_zero`): only
the handler makes a reader run again, it has checked DRQ, and the data stays until it is read.
-/

namespace Marimba

open Links

namespace Ata

/-- How a command completes: with the data on the data port; with the error flag, and DRQ set or
not; or with neither. -/
inductive Outcome where
  | data
  | error (drq : Bool)
  | noData
  deriving DecidableEq, Repr

namespace Outcome

/-- The status bit ERR. -/
def err : Outcome → Bool
  | .error _ => true
  | _ => false

/-- The status bit DRQ. -/
def drq : Outcome → Bool
  | .data => true
  | .error drq => drq
  | .noData => false

end Outcome

/-- The device completes its oldest command with an outcome, and the interrupt is raised. -/
def Device.completeWith (d : Device) (o : Outcome) : Device :=
  match d.pending with
  | [] => d
  | lba :: rest =>
    { d with
      pending := rest
      transfer := if o.drq then some (lba, 0) else none
      irq := true }

/-- The system, with the status bit ERR of the device. Of the history it has whose commands they
are: the variable `next` of each call, the requests of the commands that are not completed yet, and
the request of the command completed last. -/
structure FaultSystem where
  sys : System
  err : Bool
  next : ℕ → ReqNode
  owners : List ReqNode
  completed : Option ReqNode

/-- What can happen next: the processes go on as before, the device completes a command, or its
interrupt is taken. -/
inductive FaultEvent where
  | driver (e : AtaEvent)
  | complete (o : Outcome)
  | interrupt
  deriving DecidableEq, Repr

/-- An event of the device. -/
def AtaEvent.ofDevice : AtaEvent → Bool
  | .complete | .interrupt => true
  | _ => false

namespace FaultSystem

/-- The request whose command is issued by an event: that of a caller that finds the queue empty, or
the `next` one of a process that returns. -/
def issued (f : FaultSystem) : AtaEvent → Option ReqNode
  | .call _ =>
    match f.sys.running with
    | some p => if LL.empty f.sys.reqs .requests then some (.req p) else none
    | none => none
  | .advance =>
    match f.sys.running with
    | some p =>
      match f.sys.pcs p with
      | .issuing [] _ => some (f.next p)
      | _ => none
    | none => none
  | _ => none

/-- The assignment to `next`. -/
def assignNext (f : FaultSystem) : AtaEvent → ℕ → ReqNode
  | .advance =>
    match f.sys.running with
    | some p =>
      match f.sys.pcs p with
      | .starting _ => Function.update f.next p ((LL.head f.sys.reqs .requests).getD .null)
      | _ => f.next
    | none => f.next
  | _ => f.next

/-- The system after an event of the processes; a command clears the error flag. -/
def after (f : FaultSystem) (e : AtaEvent) (s : System) : FaultSystem where
  sys := s
  err := f.err && (f.issued e).isNone
  next := f.assignNext e
  owners := f.owners ++ (f.issued e).toList
  completed := f.completed

/-- The device completes its oldest command. -/
def complete (f : FaultSystem) (o : Outcome) : FaultSystem :=
  { f with
    sys := { f.sys with dev := f.sys.dev.completeWith o }
    err := o.err
    owners := f.owners.tail
    completed := f.owners.head? }

/-- What `ata_isr` takes for an error: the error flag is set, or DRQ is not. -/
def errorDetected (f : FaultSystem) : Bool := f.err || !f.sys.dev.drq

/-- `ata_isr` under `IRQ_generic_isr`. -/
def isr (f : FaultSystem) : Option FaultSystem :=
  let wakes := if f.errorDetected then [] else [.unblockHead blockedQueue]
  (f.sys.sched.hardwareInterrupt wakes).map fun r ↦
    { f with
      sys := { f.sys with
        sched := r.2
        dev := { f.sys.dev with irq := false }
        wakes := f.sys.wakes ++
          [if f.errorDetected then none else LL.head f.sys.sched.links (.wait blockedQueue)] } }

/-- One step; `none` where the event cannot happen. -/
def step (disk : ℕ → ℕ → ℕ) (f : FaultSystem) : FaultEvent → Option (Unit × FaultSystem)
  | .driver e =>
    if e.ofDevice then none else (f.sys.step disk e).map fun r ↦ (r.1, f.after e r.2)
  | .complete o => if f.sys.dev.pending = [] then none else some ((), f.complete o)
  | .interrupt =>
    if f.sys.dev.irq = true ∧ f.sys.sched.irqSemaphore = 0 then f.isr.map fun f' ↦ ((), f')
    else none

/-! What each step does. -/

section Steps

variable {disk : ℕ → ℕ → ℕ} {f f' : FaultSystem} {u : Unit}

theorem step_driver {e : AtaEvent} : f.step disk (.driver e) = some (u, f') ↔
    e.ofDevice = false ∧ ∃ s', f.sys.step disk e = some (u, s') ∧ f' = f.after e s' := by
  rw [step, Option.ite_none_left_eq_some, Option.map_eq_some_iff, Bool.not_eq_true]
  refine and_congr_right fun _ ↦ ⟨?_, ?_⟩
  · rintro ⟨⟨u', s'⟩, hs, heq⟩
    obtain ⟨rfl, rfl⟩ := Prod.mk.inj heq
    exact ⟨s', hs, rfl⟩
  · rintro ⟨s', hs, rfl⟩
    exact ⟨(u, s'), hs, rfl⟩

theorem step_complete {o : Outcome} : f.step disk (.complete o) = some (u, f') ↔
    f.sys.dev.pending ≠ [] ∧ f' = f.complete o := by
  rw [step, Option.ite_none_left_eq_some, Option.some_inj, Prod.mk_inj, and_iff_right rfl,
    @eq_comm _ _ f']

theorem step_interrupt : f.step disk .interrupt = some (u, f') ↔
    (f.sys.dev.irq = true ∧ f.sys.sched.irqSemaphore = 0) ∧ f.isr = some f' := by
  rw [step, Option.ite_none_right_eq_some, Option.map_eq_some_iff]
  simp

end Steps

/-- The system at boot. -/
def boot : FaultSystem := ⟨.boot, false, fun _ ↦ .null, [], none⟩

/-! ### What the driver owes its readers -/

/-- The process whose command has completed goes from the wait queue of the disk to the end of the
ready queue. -/
def WakesOwner (f f' : FaultSystem) : Prop :=
  ∃ (p : ℕ) (ready rest : List ℕ), f.completed = some (.req p) ∧
    IsQueue f.sys.sched.links .ready (ready.map .proc) ∧
    IsQueue f.sys.sched.links (.wait blockedQueue) ((p :: rest).map .proc) ∧
    IsQueue f'.sys.sched.links .ready ((ready ++ [p]).map .proc) ∧
    IsQueue f'.sys.sched.links (.wait blockedQueue) (rest.map .proc)

/-- After a call has returned, its request is not in the queue, and the command of the first request
that is has been issued. -/
def HandsOver (f : FaultSystem) (p : ℕ) : Prop :=
  ∃ queue : List ℕ, IsRing f.sys.reqs .requests (queue.map .req) ∧ p ∉ queue ∧
    ∀ n, queue.head? = some n → f.owners = [.req n] ∧ f.sys.dev.pending = [f.sys.lba n]

/-- The requests in the queue are of calls that have not returned; and while readers are blocked, a
command is outstanding, its interrupt is raised, or a reader has been woken that has not returned
yet. -/
def Attended (f : FaultSystem) : Prop :=
  ∃ queue waiting : List ℕ, IsRing f.sys.reqs .requests (queue.map .req) ∧
    IsQueue f.sys.sched.links (.wait blockedQueue) (waiting.map .proc) ∧
    (∀ p ∈ queue, f.sys.pcs p ≠ .user) ∧
    (waiting ≠ [] → f.sys.dev.pending ≠ [] ∨ f.sys.dev.irq = true ∨
      ∃ p, p ∉ waiting ∧ f.sys.pcs p ≠ .user)

/-- The calls made so far can all return. -/
def CanReturn (disk : ℕ → ℕ → ℕ) (f : FaultSystem) : Prop :=
  ∃ f', Leads (step disk) f f' ∧ f'.sys.calls = f.sys.calls ∧
    f'.sys.results.length = f.sys.calls.length

/-- **A right step**: a completion interrupt wakes the process whose command has completed, a call
that returns hands over to the next one, and no reader is left behind. -/
structure Right (disk : ℕ → ℕ → ℕ) (f : FaultSystem) (e : FaultEvent) (f' : FaultSystem) :
    Prop where
  wakes : e = .interrupt → f.WakesOwner f'
  handsOver : ∀ r, f'.sys.results = f.sys.results ++ [r] → f'.HandsOver r.proc
  attended : f'.Attended
  canReturn : f'.CanReturn disk

end FaultSystem

/-! ### More about the stages -/

variable {disk : ℕ → ℕ → ℕ} {s s' : System} {v : SchedView} {served : List (ℕ × ℕ)}
  {cur : Option ℕ} {queue : List ℕ} {p h : ℕ}

namespace AtaInv

/-- Only the current process is past the wake-up. -/
theorem pcs_of_ne (hinv : AtaInv disk s v served cur queue) (hp : cur ≠ some p) :
    s.pcs p = .user ∨ s.pcs p = .blocked := by
  rcases eq_or_ne (s.pcs p) .user with hu | hu
  · exact Or.inl hu
  · refine Or.inr (hinv.asleep p ?_)
    rcases List.mem_append.1 ((hinv.inCall p).1 hu) with hc | hw
    · exact absurd (Option.mem_toList.1 hc) hp
    · exact hw

end AtaInv

namespace System

/-- The driver's code after the wake-up leaves the interrupt as it is. -/
theorem advance_irq (disk : ℕ → ℕ → ℕ) (s : System) (p : ℕ) (pc : AtaPc) :
    (s.advance disk p pc).dev.irq = s.dev.irq := by
  cases pc with
  | user => rfl
  | blocked =>
    rw [advance]
    split <;> rfl
  | dequeuing => rfl
  | waiting =>
    rw [advance]
    split <;> rfl
  | reading buff =>
    rw [advance]
    split
    · show (s.dev.inw disk).2.irq = s.dev.irq
      rw [Device.inw]
      split <;> rfl
    · rfl
  | starting buff =>
    rw [advance]
    split <;> rfl
  | issuing outs buff => rcases outs with - | ⟨o, outs⟩ <;> rfl

/-- It is about the process that runs it. -/
theorem advance_pcs_of_ne (disk : ℕ → ℕ → ℕ) (s : System) {p x : ℕ} (hx : x ≠ p) (pc : AtaPc) :
    (s.advance disk p pc).pcs x = s.pcs x := by
  have hset : ∀ pc', (s.setPc p pc').pcs x = s.pcs x := fun pc' ↦ Function.update_of_ne hx ..
  cases pc with
  | user => rfl
  | blocked =>
    rw [advance]
    split <;> exact hset _
  | dequeuing => exact hset _
  | waiting =>
    rw [advance]
    split
    · exact hset _
    · rfl
  | reading buff =>
    rw [advance]
    split <;> exact hset _
  | starting buff =>
    rw [advance]
    split <;> exact hset _
  | issuing outs buff => rcases outs with - | ⟨o, outs⟩ <;> exact hset _

/-- Before it looks for the next request, it issues nothing. -/
theorem advance_before (disk : ℕ → ℕ → ℕ) (s : System) (p : ℕ) {pc : AtaPc} (hpc : s.pcs p = pc)
    (hs : ∀ buff, pc ≠ .starting buff) (hi : ∀ outs buff, pc ≠ .issuing outs buff) :
    (s.advance disk p pc).dev.pending = s.dev.pending ∧
      ∀ outs buff, (s.advance disk p pc).pcs p ≠ .issuing outs buff := by
  have hset : ∀ pc', (s.setPc p pc').pcs p = pc' := fun pc' ↦ Function.update_self ..
  cases pc with
  | user => exact ⟨rfl, by simp [advance, hpc]⟩
  | blocked =>
    rw [advance]
    split
    · exact ⟨rfl, by simp [hset]⟩
    · exact ⟨rfl, by simp [finish, hset]⟩
  | dequeuing => exact ⟨rfl, by simp [advance, hset]⟩
  | waiting =>
    rw [advance]
    split
    · exact ⟨rfl, by simp [hset]⟩
    · exact ⟨rfl, by simp [hpc]⟩
  | reading buff =>
    rw [advance]
    split
    · refine ⟨?_, by simp [hset]⟩
      show (s.dev.inw disk).2.pending = s.dev.pending
      rw [Device.inw]
      split <;> rfl
    · exact ⟨rfl, by simp [hset]⟩
  | starting buff => exact absurd rfl (hs buff)
  | issuing outs buff => exact absurd rfl (hi outs buff)

end System

/-! ### Whose commands they are -/

namespace FaultSystem

variable {f f' : FaultSystem}

/-- A command that is pending is that of the first request, and so is the one whose interrupt is
raised and the one whose address is being written. -/
structure Owned (f : FaultSystem) : Prop where
  idle : f.sys.dev.pending = [] → f.owners = []
  owners : f.sys.dev.pending ≠ [] → f.owners = (LL.head f.sys.reqs .requests).toList
  completed : f.sys.dev.irq = true → f.completed = LL.head f.sys.reqs .requests
  next : ∀ p outs buff, f.sys.pcs p = .issuing outs buff →
    LL.head f.sys.reqs .requests = some (f.next p)

theorem owned_boot : boot.Owned :=
  ⟨fun _ ↦ rfl, fun h ↦ absurd rfl h, fun h ↦ (nomatch h), fun _ _ _ h ↦ (nomatch h)⟩

/-- An event that issues no command and leaves the device and the first request alone. -/
theorem Owned.after_same (ho : f.Owned) {e : AtaEvent} (hi : f.issued e = none)
    (hn : f.assignNext e = f.next) (hdev : s.dev = f.sys.dev)
    (hhead : LL.head s.reqs .requests = LL.head f.sys.reqs .requests)
    (hpcs : ∀ x outs buff, s.pcs x = .issuing outs buff → f.sys.pcs x = .issuing outs buff) :
    (f.after e s).Owned := by
  have howners : (f.after e s).owners = f.owners := by
    rw [after, hi, Option.toList_none, List.append_nil]
  refine ⟨fun h ↦ ?_, fun h ↦ ?_, fun h ↦ ?_, fun x outs buff hx ↦ ?_⟩
  · exact howners.trans (ho.idle (hdev ▸ h))
  · rw [howners, ho.owners (hdev ▸ h)]
    exact congrArg Option.toList hhead.symm
  · exact (ho.completed (hdev ▸ h)).trans hhead.symm
  · show LL.head s.reqs .requests = some (f.assignNext e x)
    rw [hhead, hn]
    exact ho.next x outs buff (hpcs x outs buff hx)

/-- A call issues its own command when the queue is empty, and then its request is the first one;
else the first request stays. -/
theorem Owned.call (ho : f.Owned) (hinv : AtaInv disk f.sys v served cur queue) (hr : v.Runs p)
    (hpc : f.sys.pcs p = .user) {lba : ℕ} (hlba : lba < 2 ^ 48) :
    (f.after (.call lba) (f.sys.readBlock p lba)).Owned := by
  have hrun : f.sys.running = some p := hinv.running_eq_some_iff.2 hr
  have hinv' := hinv.readBlock hr hpc hlba
  have hhead' := hinv'.head_requests
  have hissued : f.issued (.call lba) =
      if LL.empty f.sys.reqs .requests then some (.req p) else none := by
    simp only [issued, hrun]
  have hpcs : ∀ x outs buff, (f.sys.readBlock p lba).pcs x = .issuing outs buff →
      f.sys.pcs x = .issuing outs buff := by
    intro x outs buff hx
    change Function.update f.sys.pcs p .blocked x = _ at hx
    rcases eq_or_ne x p with rfl | hne
    · rw [Function.update_self] at hx
      cases hx
    · rwa [Function.update_of_ne hne] at hx
  rcases queue with - | ⟨n, queue⟩
  · have hempty : LL.empty f.sys.reqs .requests = true := hinv.empty_requests_iff.2 rfl
    have hpend : f.sys.dev.pending = [] := by
      rcases cur with - | c
      · rcases hirq : f.sys.dev.irq with - | -
        · exact hinv.stage.dev_of_none.2.1 hirq
        · exact (hinv.stage.dev_of_none.2.2 hirq).1
      · exact hinv.stage.dev_of_cur.1
    have hdev : (f.sys.readBlock p lba).dev.pending ≠ [] := by
      simp [System.readBlock, hempty, Device.readPioExt]
    refine ⟨fun h ↦ absurd h hdev, fun _ ↦ ?_, fun hi ↦ ?_, fun x outs buff hx ↦ ?_⟩
    · rw [after, ho.idle hpend, hissued, if_pos hempty]
      exact congrArg Option.toList hhead'.symm
    · obtain rfl := hinv'.stage.cur_eq_none hi
      exact absurd (hinv'.stage.dev_of_none.2.2 hi).1 hdev
    · have hold := ho.next x outs buff (hpcs x outs buff hx)
      rw [hinv.head_requests] at hold
      cases hold
  · have hempty : ¬LL.empty f.sys.reqs .requests = true := fun he ↦
      List.cons_ne_nil n queue (hinv.empty_requests_iff.1 he)
    exact ho.after_same (hissued.trans (if_neg hempty)) rfl (if_neg hempty)
      (hhead'.trans hinv.head_requests.symm) hpcs

/-- While a process is past the wake-up nothing is pending or raised, and no other process is, so
that only the command it issues and its own `next` matter. -/
theorem Owned.advance_of (ho : f.Owned) (hinv : AtaInv disk f.sys v served (some h) queue)
    (hidle : (f.sys.advance disk h (f.sys.pcs h)).dev.pending = [] → f.issued .advance = none)
    (hbusy : (f.sys.advance disk h (f.sys.pcs h)).dev.pending ≠ [] → f.issued .advance =
      LL.head (f.sys.advance disk h (f.sys.pcs h)).reqs .requests)
    (hnext : ∀ outs buff,
      (f.sys.advance disk h (f.sys.pcs h)).pcs h = .issuing outs buff →
        LL.head (f.sys.advance disk h (f.sys.pcs h)).reqs .requests =
          some (f.assignNext .advance h)) :
    (f.after .advance (f.sys.advance disk h (f.sys.pcs h))).Owned := by
  have howners : f.owners = [] := ho.idle hinv.stage.dev_of_cur.1
  refine ⟨fun hp ↦ ?_, fun hp ↦ ?_, fun hi ↦ ?_, fun x outs buff hx ↦ ?_⟩
  · rw [after, howners, hidle hp]
    rfl
  · rw [after, howners, hbusy hp]
    rfl
  · change (f.sys.advance disk h (f.sys.pcs h)).dev.irq = true at hi
    rw [System.advance_irq, hinv.stage.dev_of_cur.2] at hi
    cases hi
  · rcases eq_or_ne x h with rfl | hne
    · exact hnext outs buff hx
    · change (f.sys.advance disk h (f.sys.pcs h)).pcs x = _ at hx
      rw [System.advance_pcs_of_ne disk f.sys hne] at hx
      rcases hinv.pcs_of_ne (p := x) (fun he ↦ hne (Option.some.inj he).symm) with hu | hb
      · rw [hu] at hx
        cases hx
      · rw [hb] at hx
        cases hx

/-- The driver's code after the wake-up: `next` is the first request, and its command is issued. -/
theorem Owned.advance (ho : f.Owned) (hinv : AtaInv disk f.sys v served (some h) queue)
    (hr : v.Runs h) :
    (f.after .advance (f.sys.advance disk h (f.sys.pcs h))).Owned := by
  have hrun : f.sys.running = some h := hinv.running_eq_some_iff.2 hr
  have hpend := hinv.stage.dev_of_cur.1
  have hself : ∀ pc : AtaPc, (f.sys.setPc h pc).pcs h = pc := fun pc ↦ Function.update_self ..
  have hbefore : (∀ buff, f.sys.pcs h ≠ .starting buff) →
      (∀ outs buff, f.sys.pcs h ≠ .issuing outs buff) →
      (f.after .advance (f.sys.advance disk h (f.sys.pcs h))).Owned := by
    intro hs hi
    obtain ⟨hp, hne⟩ := System.advance_before disk f.sys h rfl hs hi
    refine ho.advance_of hinv (fun _ ↦ ?_) (fun hp' ↦ absurd (hp.trans hpend) hp')
      fun outs buff hx ↦ absurd hx (hne outs buff)
    simp only [issued, hrun]
    split
    · next heq => exact absurd heq (hi [] _)
    · rfl
  cases hpc : f.sys.pcs h with
  | starting buff =>
    have hissued : f.issued .advance = none := by simp only [issued, hrun, hpc]
    have hnext : f.assignNext .advance h = (LL.head f.sys.reqs .requests).getD .null := by
      simp only [assignNext, hrun, hpc, Function.update_self]
    rcases hhead : LL.head f.sys.reqs .requests with - | n
    · have hadv : f.sys.advance disk h (f.sys.pcs h) = f.sys.finish h 0 buff := by
        simp only [hpc, System.advance, hhead]
      rw [← hpc]
      refine ho.advance_of hinv (fun _ ↦ hissued) ?_ ?_ <;> rw [hadv]
      · exact fun hp ↦ absurd hpend hp
      · intro outs buff' hx
        exact absurd ((hself .user).symm.trans hx) (by simp)
    · have hadv : f.sys.advance disk h (f.sys.pcs h) =
          f.sys.setPc h (.issuing (writeLba (f.sys.lbaOf n) 1) buff) := by
        simp only [hpc, System.advance, hhead]
      rw [← hpc]
      refine ho.advance_of hinv (fun _ ↦ hissued) ?_ ?_ <;> rw [hadv]
      · exact fun hp ↦ absurd hpend hp
      · intro outs buff' _
        rw [hnext, hhead]
        exact hhead
  | issuing outs buff =>
    have hnext : f.assignNext .advance h = f.next h := by simp only [assignNext, hrun, hpc]
    have hold := ho.next h outs buff hpc
    rcases outs with - | ⟨o, outs⟩
    · have hissued : f.issued .advance = some (f.next h) := by simp only [issued, hrun, hpc]
      have hadv : f.sys.advance disk h (f.sys.pcs h) =
          { f.sys.finish h 0 buff with dev := f.sys.dev.readPioExt } := by
        simp only [hpc, System.advance]
      rw [← hpc]
      refine ho.advance_of hinv ?_ ?_ ?_ <;> rw [hadv]
      · exact fun hp ↦ absurd hp (List.append_ne_nil_of_right_ne_nil _ (by simp))
      · exact fun _ ↦ hissued.trans hold.symm
      · intro outs buff' hx
        exact absurd ((hself .user).symm.trans hx) (by simp)
    · have hissued : f.issued .advance = none := by simp only [issued, hrun, hpc]
      have hadv : f.sys.advance disk h (f.sys.pcs h) =
          { f.sys.setPc h (.issuing outs buff) with dev := f.sys.dev.outb o } := by
        simp only [hpc, System.advance]
      rw [← hpc]
      refine ho.advance_of hinv (fun _ ↦ hissued) ?_ ?_ <;> rw [hadv]
      · exact fun hp ↦ absurd hpend hp
      · intro outs' buff' _
        rw [hnext]
        exact hold
  | _ =>
    rw [← hpc]
    exact hbefore (by simp [hpc]) (by simp [hpc])

/-! ### As long as no command fails -/

/-- No command has failed: the system is one without failures. -/
structure Healthy (disk : ℕ → ℕ → ℕ) (f : FaultSystem) : Prop where
  err : f.err = false
  owned : f.Owned
  sound : Sound disk f.sys

theorem healthy_boot (disk : ℕ → ℕ → ℕ) : boot.Healthy disk := ⟨rfl, owned_boot, sound_boot disk⟩

theorem completeWith_data (d : Device) : d.completeWith .data = d.complete := by
  rw [Device.completeWith, Device.complete]
  rcases d.pending with - | ⟨lba, rest⟩ <;> rfl

/-- With the error flag clear, the handler is that of the system without failures. -/
theorem isr_of_err (he : f.err = false) :
    f.isr = f.sys.isr.map fun s ↦ { f with sys := s } := by
  have herror : f.errorDetected = !f.sys.dev.drq := by rw [errorDetected, he, Bool.false_or]
  rw [isr, herror, System.isr, Option.map_map]
  rcases f.sys.dev.drq with - | - <;> rfl

/-- The system without failures can be followed, with commands that complete with data. -/
theorem follows {e : AtaEvent} {u : Unit} (he : f.err = false)
    (hstep : f.sys.step disk e = some (u, s')) :
    ∃ a b f', f.step disk a = some (b, f') ∧ f'.sys = s' ∧ f'.err = false := by
  rcases hdev : e.ofDevice with - | -
  · exact ⟨.driver e, u, f.after e s', step_driver.2 ⟨hdev, s', hstep, rfl⟩, rfl,
      by rw [after, he, Bool.false_and]⟩
  · cases e with
    | complete =>
      obtain ⟨hp, rfl⟩ := System.step_complete.1 hstep
      refine ⟨.complete .data, (), f.complete .data, step_complete.2 ⟨hp, rfl⟩, ?_, rfl⟩
      rw [complete, completeWith_data]
    | interrupt =>
      obtain ⟨hi, hisr⟩ := System.step_interrupt.1 hstep
      refine ⟨.interrupt, (), { f with sys := s' }, step_interrupt.2 ⟨hi, ?_⟩, rfl, he⟩
      rw [isr_of_err he, hisr]
      rfl
    | _ => cases hdev

/-- So all calls can return. -/
theorem Healthy.canReturn (hf : f.Healthy disk) : f.CanReturn disk := by
  obtain ⟨v, served, cur, queue, hinv⟩ := hf.sound
  obtain ⟨s', hleads, hcalls, hresults⟩ := hinv.exists_serve
  obtain ⟨f', hleads', rfl, -⟩ := hleads.lift
    (R := fun s (f : FaultSystem) ↦ f.sys = s ∧ f.err = false)
    (fun _ f _ _ _ hR hstep ↦ follows hR.2 (hR.1.symm ▸ hstep)) ⟨rfl, hf.err⟩
  refine ⟨f', hleads', hcalls, ?_⟩
  rw [hresults, List.length_map]

/-- And none is left behind. -/
theorem attended_of_ataInv (hinv : AtaInv disk f.sys v served cur queue) : f.Attended := by
  refine ⟨queue, v.waits blockedQueue, hinv.ring, hinv.views.isQueue_wait blockedQueue,
    fun p hp ↦ (hinv.inCall p).2 (hinv.mem_of_mem_queue hp), fun hw ↦ ?_⟩
  rcases cur with - | h
  · obtain ⟨rfl, hbusy, -⟩ := hinv.stage.dev_of_none
    rcases hirq : f.sys.dev.irq with - | -
    · left
      obtain ⟨n, rest, hcons⟩ := List.exists_cons_of_ne_nil hw
      rw [hbusy hirq, hcons]
      simp
    · exact Or.inr (Or.inl rfl)
  · exact Or.inr (Or.inr ⟨h, hinv.cur_notMem, (hinv.inCall h).2 (by simp)⟩)

theorem Healthy.attended (hf : f.Healthy disk) : f.Attended := by
  obtain ⟨v, served, cur, queue, hinv⟩ := hf.sound
  exact attended_of_ataInv hinv

/-- **A call that returns hands over**: its request is off the queue, and when others are in it, the
command of the first one has been issued. -/
theorem handsOver_of_advance (ho : (f.after .advance (f.sys.advance disk h (f.sys.pcs h))).Owned)
    (hinv : AtaInv disk f.sys v served (some h) queue) (hr : v.Runs h) {r : Result}
    (hresult : (f.sys.advance disk h (f.sys.pcs h)).results = f.sys.results ++ [r]) :
    (f.after .advance (f.sys.advance disk h (f.sys.pcs h))).HandsOver r.proc := by
  obtain ⟨queue', ⟨hinv', -⟩ | hinv'⟩ := hinv.advance hr
  · rw [hinv'.results, hinv.results] at hresult
    simp at hresult
  · have hproc : r.proc = h := by
      rw [hinv'.results, hinv.results, List.map_append, List.append_cancel_left_eq] at hresult
      obtain rfl := List.singleton_inj.1 hresult
      rfl
    have hirq : (f.sys.advance disk h (f.sys.pcs h)).dev.irq = false := by
      rw [System.advance_irq, hinv.stage.dev_of_cur.2]
    obtain ⟨hq, hbusy, -⟩ := hinv'.stage.dev_of_none
    refine ⟨queue', hinv'.ring, ?_, fun n hn ↦ ?_⟩
    · rw [hq, hproc]
      exact hinv.cur_notMem
    · have hpend := hbusy hirq
      rw [hn] at hpend
      refine ⟨?_, hpend⟩
      rw [ho.owners (hpend ▸ List.cons_ne_nil _ _)]
      show (LL.head (f.sys.advance disk h (f.sys.pcs h)).reqs .requests).toList = _
      rw [hinv'.head_requests, hn]
      rfl

/-- The processes go on. -/
theorem Healthy.driver (hf : f.Healthy disk) {e : AtaEvent} {u : Unit}
    (hstep : f.step disk (.driver e) = some (u, f')) :
    f'.Healthy disk ∧ ∀ r, f'.sys.results = f.sys.results ++ [r] → f'.HandsOver r.proc := by
  obtain ⟨hdev, s', hs, rfl⟩ := step_driver.1 hstep
  have herr : (f.after e s').err = false := by rw [after, hf.err, Bool.false_and]
  have hsound : Sound disk s' := sound_step hf.sound hs
  have hsame : s'.results = f.sys.results → ∀ r, s'.results = f.sys.results ++ [r] →
      (f.after e s').HandsOver r.proc := by
    intro heq r hr
    rw [heq] at hr
    simp at hr
  obtain ⟨v, served, cur, queue, hinv⟩ := hf.sound
  cases e with
  | create p =>
    obtain ⟨-, rfl⟩ := System.step_create.1 hs
    exact ⟨⟨herr, hf.owned.after_same rfl rfl rfl rfl fun _ _ _ hx ↦ hx, hsound⟩, hsame rfl⟩
  | call lba =>
    obtain ⟨p, hrun, ⟨hpc, hlba⟩, rfl⟩ := System.step_call.1 hs
    have ho := hf.owned.call hinv (hinv.running_eq_some_iff.1 hrun) hpc hlba
    exact ⟨⟨herr, ho, hsound⟩, hsame rfl⟩
  | advance =>
    obtain ⟨p, hrun, hpc, rfl⟩ := System.step_advance.1 hs
    have hr := hinv.running_eq_some_iff.1 hrun
    obtain rfl := hinv.cur_eq_of_runs hr hpc
    have ho := hf.owned.advance hinv hr
    exact ⟨⟨herr, ho, hsound⟩, fun r hres ↦ handsOver_of_advance ho hinv hr hres⟩
  | yield =>
    obtain ⟨-, rfl⟩ := System.step_yield.1 hs
    exact ⟨⟨herr, hf.owned.after_same rfl rfl rfl rfl fun _ _ _ hx ↦ hx, hsound⟩, hsame rfl⟩
  | runCheck =>
    obtain ⟨-, rfl⟩ := System.step_runCheck.1 hs
    exact ⟨⟨herr, hf.owned.after_same rfl rfl rfl rfl fun _ _ _ hx ↦ hx, hsound⟩, hsame rfl⟩
  | complete => cases hdev
  | interrupt => cases hdev

/-- The pending command is that of the first request, which is blocked. -/
theorem Owned.busy (ho : f.Owned) (hinv : AtaInv disk f.sys v served cur queue)
    (hp : f.sys.dev.pending ≠ []) :
    ∃ h, cur = none ∧ f.sys.dev.pending = [f.sys.lba h] ∧ f.owners = [.req h] ∧
      LL.head f.sys.reqs .requests = some (.req h) := by
  rcases cur with - | c
  · obtain ⟨-, hbusy, hraised⟩ := hinv.stage.dev_of_none
    have hirq : f.sys.dev.irq = false := by
      rcases hirq : f.sys.dev.irq with - | -
      · rfl
      · exact absurd (hraised hirq).1 hp
    rcases queue with - | ⟨h, rest⟩
    · exact absurd (hbusy hirq) hp
    · have hhead : LL.head f.sys.reqs .requests = some (.req h) := hinv.head_requests
      exact ⟨h, rfl, hbusy hirq, by rw [ho.owners hp, hhead]; rfl, hhead⟩
  · exact absurd hinv.stage.dev_of_cur.1 hp

/-- A command completes with data. -/
theorem Healthy.complete (hf : f.Healthy disk) (hp : f.sys.dev.pending ≠ []) :
    (f.complete .data).Healthy disk := by
  obtain ⟨v, served, cur, queue, hinv⟩ := hf.sound
  obtain ⟨h, -, hpend, howners, hhead⟩ := hf.owned.busy hinv hp
  have hnil : (f.complete .data).sys.dev.pending = [] := by
    simp [FaultSystem.complete, Device.completeWith, hpend]
  refine ⟨rfl, ⟨fun _ ↦ ?_, fun h ↦ absurd hnil h, fun _ ↦ ?_, hf.owned.next⟩, ?_⟩
  · rw [FaultSystem.complete, howners]
    rfl
  · rw [FaultSystem.complete, howners]
    exact hhead.symm
  · refine ⟨v, served, cur, queue, ?_⟩
    rw [FaultSystem.complete, completeWith_data]
    exact hinv.complete hp

/-- **Its interrupt wakes the process whose command it was.** -/
theorem Healthy.interrupt (hf : f.Healthy disk) {u : Unit}
    (hstep : f.step disk .interrupt = some (u, f')) :
    f'.Healthy disk ∧ f.WakesOwner f' ∧ f'.sys.results = f.sys.results := by
  obtain ⟨⟨hi, -⟩, hf'⟩ := step_interrupt.1 hstep
  obtain ⟨v, served, cur, queue, hinv⟩ := hf.sound
  obtain ⟨s', h, rest, hisr, -, hw, hinv'⟩ := hinv.isr hi
  rw [isr_of_err hf.err, hisr] at hf'
  obtain rfl := Option.some.inj hf'
  obtain ⟨r, -, rfl⟩ := Option.map_eq_some_iff.1 hisr
  obtain rfl := hinv.stage.cur_eq_none hi
  obtain ⟨rfl, -, hraised⟩ := hinv.stage.dev_of_none
  have hview : v.unblockHead blockedQueue = ⟨v.curr, v.ready ++ [h],
      Function.update v.waits blockedQueue rest, v.mode⟩ := by
    rw [SchedView.unblockHead, hw]
  have hrest : (v.unblockHead blockedQueue).waits blockedQueue = rest := by
    rw [hview]
    exact Function.update_self blockedQueue rest v.waits
  have howners := hf.owned.idle (hraised hi).1
  refine ⟨⟨hf.err, ⟨fun _ ↦ howners, fun hp ↦ absurd (hraised hi).1 hp,
    fun h ↦ absurd h Bool.false_ne_true, hf.owned.next⟩, ⟨_, _, _, _, hinv'⟩⟩,
    ⟨h, v.ready, rest, ?_, hinv.views.isQueue_ready, ?_, ?_, ?_⟩, rfl⟩
  · rw [hf.owned.completed hi, hinv.head_requests, hw]
    rfl
  · rw [← hw]
    exact hinv.views.isQueue_wait blockedQueue
  · have hq := hinv'.views.isQueue_ready
    rwa [hview] at hq
  · have hq := hinv'.views.isQueue_wait blockedQueue
    rwa [hrest] at hq

/-- **As long as no command fails, every step is right.** -/
theorem Healthy.step (hf : f.Healthy disk) {e : FaultEvent} {u : Unit}
    (hdata : ∀ o, e = .complete o → o = .data) (hstep : f.step disk e = some (u, f')) :
    f'.Healthy disk ∧ f.Right disk e f' := by
  cases e with
  | driver e =>
    obtain ⟨hf', hover⟩ := hf.driver hstep
    exact ⟨hf', fun h ↦ (nomatch h), hover, hf'.attended, hf'.canReturn⟩
  | complete o =>
    obtain rfl := hdata o rfl
    obtain ⟨hp, rfl⟩ := step_complete.1 hstep
    have hf' := hf.complete hp
    refine ⟨hf', fun h ↦ (nomatch h), fun r hr ↦ ?_, hf'.attended, hf'.canReturn⟩
    simp [FaultSystem.complete] at hr
  | interrupt =>
    obtain ⟨hf', hwakes, hsame⟩ := hf.interrupt hstep
    refine ⟨hf', fun _ ↦ hwakes, fun r hr ↦ ?_, hf'.attended, hf'.canReturn⟩
    rw [hsame] at hr
    simp at hr

/-! ### After a failed command -/

/-- A command has failed: up to the device and the wake-ups, the system is one without failures
whose completion interrupt is not taken. -/
def Failed (disk : ℕ → ℕ → ℕ) (f : FaultSystem) : Prop :=
  f.sys.dev.pending = [] ∧ f.errorDetected = true ∧ ∃ s : System, Sound disk s ∧ s.dev.irq = true ∧
    f.sys = { s with dev := f.sys.dev, wakes := f.sys.wakes }

/-- With a request in the queue, the processes that are not past the wake-up go on without regard to
the device. -/
theorem step_of_nonempty {e : AtaEvent} {u : Unit} {dev : Device} {wakes : List (Option ProcNode)}
    (hq : ¬LL.empty s.reqs .requests = true) (hdev : e.ofDevice = false) (he : e ≠ .advance)
    (hstep : ({ s with dev := dev, wakes := wakes } : System).step disk e = some (u, s')) :
    s.step disk e = some (u, { s' with dev := s.dev, wakes := s.wakes }) ∧ s'.dev = dev ∧
      s'.wakes = wakes ∧ s'.results = s.results := by
  cases e with
  | create p =>
    obtain ⟨hcond, rfl⟩ := System.step_create.1 hstep
    exact ⟨System.step_create.2 ⟨hcond, rfl⟩, rfl, rfl, rfl⟩
  | call lba =>
    obtain ⟨p, hrun, hcond, rfl⟩ := System.step_call.1 hstep
    refine ⟨System.step_call.2 ⟨p, hrun, hcond, ?_⟩, if_neg hq, rfl, rfl⟩
    simp only [System.readBlock, if_neg hq]
  | advance => exact absurd rfl he
  | yield =>
    obtain ⟨hcond, rfl⟩ := System.step_yield.1 hstep
    exact ⟨System.step_yield.2 ⟨hcond, rfl⟩, rfl, rfl, rfl⟩
  | runCheck =>
    obtain ⟨hcond, rfl⟩ := System.step_runCheck.1 hstep
    exact ⟨System.step_runCheck.2 ⟨hcond, rfl⟩, rfl, rfl, rfl⟩
  | complete => cases hdev
  | interrupt => cases hdev

/-- A command that does not deliver its data is a failed one. -/
theorem Healthy.failed (hf : f.Healthy disk) {o : Outcome} (hp : f.sys.dev.pending ≠ [])
    (ho : o ≠ .data) : (f.complete o).Failed disk := by
  obtain ⟨v, served, cur, queue, hinv⟩ := hf.sound
  obtain ⟨h, -, hpend, -⟩ := hf.owned.busy hinv hp
  have hdrq : (f.sys.dev.completeWith o).drq = o.drq := by
    rw [Device.completeWith, hpend, Device.drq]
    cases o.drq <;> rfl
  refine ⟨?_, ?_, { f.sys with dev := f.sys.dev.complete }, ⟨_, _, _, _, hinv.complete hp⟩, ?_, rfl⟩
  · show (f.sys.dev.completeWith o).pending = []
    rw [Device.completeWith, hpend]
  · show (o.err || !(f.sys.dev.completeWith o).drq) = true
    rw [hdrq]
    rcases o with - | drq | -
    · exact absurd rfl ho
    · rfl
    · rfl
  · rw [Device.complete, hpend]

/-- In the system it is compared with, no process is past the wake-up and the queue is not empty. -/
theorem Failed.waiting (hf : f.Failed disk) :
    ∃ s v served queue, AtaInv disk s v served none queue ∧ queue ≠ [] ∧ s.dev.irq = true ∧
      f.sys = { s with dev := f.sys.dev, wakes := f.sys.wakes } := by
  obtain ⟨-, -, s, ⟨v, served, cur, queue, hinv⟩, hi, heq⟩ := hf
  obtain rfl := hinv.stage.cur_eq_none hi
  exact ⟨s, v, served, queue, hinv, (hinv.stage.dev_of_none.2.2 hi).2, hi, heq⟩

/-- A call has not returned. -/
theorem Failed.results_lt (hf : f.Failed disk) : f.sys.results.length < f.sys.calls.length := by
  obtain ⟨s, v, served, queue, hinv, hq, -, heq⟩ := hf.waiting
  have hwaits : v.waits blockedQueue ≠ [] := hinv.stage.dev_of_none.1 ▸ hq
  rw [heq]
  show s.results.length < s.calls.length
  rw [hinv.results, hinv.calls]
  simpa using List.length_pos_of_ne_nil hwaits

/-- **The completion interrupt of a failed command wakes nobody.** -/
theorem Failed.interrupt (hf : f.Failed disk) {u : Unit}
    (hstep : f.step disk .interrupt = some (u, f')) :
    f'.Failed disk ∧ f'.sys.wakes = f.sys.wakes ++ [none] ∧ f'.sys.results = f.sys.results := by
  obtain ⟨-, hf'⟩ := step_interrupt.1 hstep
  obtain ⟨s, v, served, queue, hinv, -, hi, heq⟩ := hf.waiting
  have hview : v.interrupt [] = v := by simp [SchedView.interrupt, wokenAll, leaveAll]
  obtain ⟨sched, hs, -, hviews⟩ := hinv.views.interrupt []
  rw [hview] at hviews
  have hsched : f.sys.sched.hardwareInterrupt [] = some (.quiet, sched) := by rw [heq, hs]
  have hisr : f.isr = some { f with
      sys := { f.sys with
        sched := sched
        dev := { f.sys.dev with irq := false }
        wakes := f.sys.wakes ++ [none] } } := by
    simp only [isr, hf.2.1, if_true, hsched, Option.map_some]
  obtain rfl := Option.some.inj (hisr.symm.trans hf')
  have hinv' := hinv.setSched hviews rfl (fun h hc ↦ absurd hc.symm (Option.some_ne_none h))
    fun h hc ↦ absurd hc.symm (Option.some_ne_none h)
  refine ⟨⟨hf.1, hf.2.1, { s with sched := sched }, ⟨_, _, _, _, hinv'⟩, hi, ?_⟩, rfl, rfl⟩
  exact congrArg (fun s : System ↦ { s with
    sched := sched
    dev := { f.sys.dev with irq := false }
    wakes := f.sys.wakes ++ [none] }) heq

/-- The processes go on, and none of them issues a command or returns. -/
theorem Failed.driver (hf : f.Failed disk) {e : AtaEvent} {u : Unit}
    (hstep : f.step disk (.driver e) = some (u, f')) :
    f'.Failed disk ∧ f'.sys.results = f.sys.results := by
  obtain ⟨hdev, s', hs, rfl⟩ := step_driver.1 hstep
  obtain ⟨s, v, served, queue, hinv, hq, hi, heq⟩ := hf.waiting
  have hempty : ¬LL.empty s.reqs .requests = true := fun h ↦ hq (hinv.empty_requests_iff.1 h)
  have hrunning : f.sys.running = s.running := by rw [heq]; rfl
  have hpcs : f.sys.pcs = s.pcs := by rw [heq]
  have hreqs : f.sys.reqs = s.reqs := by rw [heq]
  have he : e ≠ .advance := by
    rintro rfl
    obtain ⟨p, hrun, hpc, -⟩ := System.step_advance.1 hs
    rw [hrunning] at hrun
    rw [hpcs] at hpc
    cases hinv.cur_eq_of_runs (hinv.running_eq_some_iff.1 hrun) hpc
  have hissued : f.issued e = none := by
    cases e with
    | call lba =>
      rw [issued, hreqs]
      split
      · exact if_neg hempty
      · rfl
    | advance => exact absurd rfl he
    | _ => rfl
  rw [heq] at hs
  obtain ⟨hstep', hdev', hwakes', hresults⟩ := step_of_nonempty hempty hdev he hs
  refine ⟨⟨?_, ?_, _, sound_step ⟨_, _, _, _, hinv⟩ hstep', hi, ?_⟩, ?_⟩
  · show s'.dev.pending = []
    rw [hdev']
    exact hf.1
  · show (f.err && (f.issued e).isNone || !s'.dev.drq) = true
    rw [hissued, Option.isNone_none, Bool.and_true, hdev']
    exact hf.2.1
  · rfl
  · show s'.results = f.sys.results
    rw [hresults, heq]

/-- **A failed command is the last one**: whatever happens, no call returns any more. -/
theorem Failed.step (hf : f.Failed disk) {e : FaultEvent} {u : Unit}
    (hstep : f.step disk e = some (u, f')) :
    f'.Failed disk ∧ f'.sys.results = f.sys.results := by
  cases e with
  | driver e => exact hf.driver hstep
  | complete o =>
    exact absurd hf.1 (step_complete.1 hstep).1
  | interrupt =>
    obtain ⟨hf', -, hresults⟩ := hf.interrupt hstep
    exact ⟨hf', hresults⟩

/-- So some call never returns. -/
theorem Failed.not_canReturn (hf : f.Failed disk) : ¬f.CanReturn disk := by
  rintro ⟨f', hleads, hcalls, hlen⟩
  have hf' : f'.Failed disk := hleads.invariant (fun _ _ _ _ h hstep ↦ (h.step hstep).1) hf
  have hlt := hf'.results_lt
  rw [hcalls, hlen] at hlt
  exact lt_irrefl _ hlt

/-! ### Runs -/

/-- The step of a command that fails. -/
theorem Healthy.fail (hf : f.Healthy disk) {o : Outcome} {u : Unit}
    (hstep : f.step disk (.complete o) = some (u, f')) (ho : o ≠ .data) : f'.Failed disk := by
  obtain ⟨hp, rfl⟩ := step_complete.1 hstep
  exact hf.failed hp ho

/-- **Every run is healthy until a command fails, and has failed from then on.** -/
theorem healthy_or_failed {es : List FaultEvent} {out : List Unit}
    (hrun : runTrace (FaultSystem.step disk) boot es = some (out, f)) :
    f.Healthy disk ∨ f.Failed disk := by
  refine invariant_of_runTrace (I := fun f ↦ f.Healthy disk ∨ f.Failed disk) ?_
    (Or.inl (healthy_boot disk)) hrun
  rintro f e u f' (hf | hf) hstep
  · by_cases hdata : ∀ o, e = .complete o → o = .data
    · exact Or.inl (hf.step hdata hstep).1
    · push Not at hdata
      obtain ⟨o, rfl, ho⟩ := hdata
      exact Or.inr (hf.fail hstep ho)
  · exact Or.inr (hf.step hstep).1

/-- **The check for DRQ in `ata_read_block` does not fail**: in every run, whatever the outcomes,
the calls that return do so with 0. -/
theorem code_eq_zero {es : List FaultEvent} {out : List Unit}
    (hrun : runTrace (FaultSystem.step disk) boot es = some (out, f)) :
    ∀ r ∈ f.sys.results, r.code = 0 := by
  have hresults : ∃ served : List (ℕ × ℕ), f.sys.results = served.map (answer disk) := by
    rcases healthy_or_failed hrun with hf | hf
    · obtain ⟨v, served, cur, queue, hinv⟩ := hf.sound
      exact ⟨served, hinv.results⟩
    · obtain ⟨s, v, served, queue, hinv, -, -, heq⟩ := hf.waiting
      refine ⟨served, ?_⟩
      rw [heq]
      exact hinv.results
  obtain ⟨served, hserved⟩ := hresults
  intro r hr
  rw [hserved] at hr
  obtain ⟨c, -, rfl⟩ := List.mem_map.1 hr
  rfl

/-- Every step of the run is right. -/
def RightAlong (disk : ℕ → ℕ → ℕ) (f : FaultSystem) (es : List FaultEvent) : Prop :=
  Along (FaultSystem.step disk)
    (fun f e ↦ ∀ u f', f.step disk e = some (u, f') → f.Right disk e f') f es

/-- When all commands complete with data, all steps are right, by induction on the run. -/
theorem Healthy.rightAlong (hf : f.Healthy disk) {es : List FaultEvent}
    (hdata : ∀ o, .complete o ∈ es → o = .data) : f.RightAlong disk es := by
  induction es generalizing f with
  | nil => trivial
  | cons e es ih =>
    have hhead : ∀ o, e = .complete o → o = .data := fun o ho ↦ hdata o (ho ▸ List.mem_cons_self)
    exact ⟨fun u f' hstep ↦ (hf.step hhead hstep).2, fun u f' hstep ↦
      ih (hf.step hhead hstep).1 fun o ho ↦ hdata o (List.mem_cons_of_mem e ho)⟩

/-- And conversely: after the first command that fails, not all calls can return. -/
theorem Healthy.data_of_rightAlong (hf : f.Healthy disk) {es : List FaultEvent} {out : List Unit}
    (hrun : runTrace (FaultSystem.step disk) f es = some (out, f'))
    (hright : f.RightAlong disk es) : ∀ o, .complete o ∈ es → o = .data := by
  induction es generalizing f out with
  | nil => exact fun o ho ↦ nomatch ho
  | cons e es ih =>
    obtain ⟨u, f₁, out', hstep, hrest, -⟩ := runTrace_cons_eq_some hrun
    obtain ⟨hhead, htail⟩ := hright
    have hdata : ∀ o, e = .complete o → o = .data := by
      rintro o rfl
      by_contra ho
      exact (hf.fail hstep ho).not_canReturn (hhead u f₁ hstep).canReturn
    intro o ho
    rcases List.mem_cons.1 ho with he | ho
    · exact hdata o he.symm
    · exact ih (hf.step hdata hstep).1 hrest (htail u f₁ hstep) o ho

end FaultSystem

/-- **The error path of the ATA driver.** For every run, with any interleaving of the readers and
any outcome of each command: the driver keeps what it owes its readers in all of its steps exactly
when every command that completes in the run completes with data. -/
theorem right_along_iff (disk : ℕ → ℕ → ℕ) {es : List FaultEvent} {out : List Unit}
    {f : FaultSystem}
    (hrun : runTrace (FaultSystem.step disk) .boot es = some (out, f)) :
    FaultSystem.boot.RightAlong disk es ↔ ∀ o, .complete o ∈ es → o = .data :=
  ⟨(FaultSystem.healthy_boot disk).data_of_rightAlong hrun,
    (FaultSystem.healthy_boot disk).rightAlong⟩

/-- Two readers, the second one while the command of the first one is outstanding. -/
def twoReads : List FaultEvent :=
  [.driver (.create 0), .driver (.create 1), .driver .runCheck, .driver .yield, .driver (.call 5),
    .driver .yield, .driver (.call 7), .driver .yield, .complete .data, .interrupt]

theorem right_along_iff_twoReads :
    (∃ out f, runTrace (FaultSystem.step fun lba i ↦ lba + i) .boot twoReads = some (out, f) ∧
      f.completed = some (.req 0) ∧ f.sys.wakes = [some (.proc 0)]) ∧
    FaultSystem.boot.RightAlong (fun lba i ↦ lba + i) twoReads := by
  have hdone : (runTrace (FaultSystem.step fun lba i ↦ lba + i) .boot twoReads).map
      (fun r ↦ (r.2.completed, r.2.sys.wakes)) = some (some (.req 0), [some (.proc 0)]) := by
    decide +kernel
  obtain ⟨⟨out, f⟩, hrun, heq⟩ := Option.map_eq_some_iff.1 hdone
  obtain ⟨hcompleted, hwakes⟩ := Prod.mk.inj heq
  refine ⟨⟨out, f, hrun, hcompleted, hwakes⟩, (right_along_iff _ hrun).2 ?_⟩
  simp [twoReads]

/-- The same readers, with an error of the first command. -/
def failedRead : List FaultEvent :=
  [.driver (.create 0), .driver (.create 1), .driver .runCheck, .driver .yield, .driver (.call 5),
    .driver .yield, .driver (.call 7), .driver .yield, .complete (.error false), .interrupt]

/-- **An error leaves the readers behind.** The interrupt of the failed command of process 0 wakes
nobody: both requests stay in the queue, and no command is outstanding. -/
theorem error_wakes_nobody :
    (∃ out f, runTrace (FaultSystem.step fun lba i ↦ lba + i) .boot failedRead = some (out, f) ∧
      f.completed = some (.req 0) ∧ f.sys.wakes = [none] ∧ f.sys.results = [] ∧
      IsQueue f.sys.reqs .requests [.req 0, .req 1] ∧
      IsQueue f.sys.sched.links (.wait blockedQueue) [.proc 0, .proc 1] ∧
      f.sys.dev.pending = [] ∧ f.sys.dev.irq = false) ∧
    ¬FaultSystem.boot.RightAlong (fun lba i ↦ lba + i) failedRead := by
  have hdone : (runTrace (FaultSystem.step fun lba i ↦ lba + i) .boot failedRead).map
      (fun r : List Unit × FaultSystem ↦ decide (r.2.completed = some (.req 0) ∧
        r.2.sys.wakes = [none] ∧ r.2.sys.results = [] ∧
        IsQueue r.2.sys.reqs .requests [.req 0, .req 1] ∧
        IsQueue r.2.sys.sched.links (.wait blockedQueue) [.proc 0, .proc 1] ∧
        r.2.sys.dev.pending = [] ∧ r.2.sys.dev.irq = false)) = some true := by
    decide +kernel
  obtain ⟨⟨out, f⟩, hrun, hdec⟩ := Option.map_eq_some_iff.1 hdone
  have heq := of_decide_eq_true hdec
  refine ⟨⟨out, f, hrun, heq⟩, fun hright ↦ ?_⟩
  have hdata := (FaultSystem.healthy_boot _).data_of_rightAlong hrun hright (.error false)
    (by simp [failedRead])
  cases hdata

end Ata

end Marimba
