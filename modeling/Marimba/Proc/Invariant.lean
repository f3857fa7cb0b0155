import Marimba.Proc.Queues
import Mathlib.Data.List.Perm.Subperm

/-!
# The invariant of the scheduler

One invariant covers every program point and every order of creations, yields, blocks, exits and
interrupts. It has a part about the queues (`QueueShape`), and four parts that depend on where the
running context is:

* `Loose`: which processes are in no queue by right. Between calls that is the running process; in
  the window of `PROC_block_on` there is none, for the running process is queued already;
* `Control`: what `curr_proc`, `next_proc` and `sleep_curr` are;
* `TailOk`: where the tail pointer of the ready queue points;
* `InsertOk`: what the insertion of `PROC_create_process` has done so far.

**Processes may be lost in it**: the insertion is not protected, and the invariant survives the race
of an interrupt with it. `Intact` says that nothing is lost, and is preserved by the steps that do
not race (`Sched.inv_step`).
-/

namespace Marimba

open Links

/-! ### Wake-ups on lists -/

/-- The processes a wake-up takes from the front of its queue. -/
def Wake.woken : Wake → List ℕ → List ℕ
  | .unblockHead _, xs => xs.take 1
  | .unblockAll _, xs => xs

/-- The processes a wake-up leaves in its queue. -/
def Wake.left : Wake → List ℕ → List ℕ
  | .unblockHead _, xs => xs.drop 1
  | .unblockAll _, _ => []

/-- The wait queues after a wake-up. -/
def Wake.leave (w : Wake) (waits : ℕ → List ℕ) : ℕ → List ℕ :=
  Function.update waits w.queue (w.left (waits w.queue))

/-- The processes the wake-ups of a handler take from the wait queues, in order. -/
def wokenAll : List Wake → (ℕ → List ℕ) → List ℕ
  | [], _ => []
  | w :: ws, waits => w.woken (waits w.queue) ++ wokenAll ws (w.leave waits)

/-- The wait queues after the wake-ups of a handler. -/
def leaveAll : List Wake → (ℕ → List ℕ) → ℕ → List ℕ
  | [], waits => waits
  | w :: ws, waits => leaveAll ws (w.leave waits)

namespace Sched

/-! ### The parts of the invariant -/

/-- The processes that are in no queue by right: the running one, unless it blocks or has exited,
and the one being created, until it is linked in. -/
def Loose (s : Sched) (p : ℕ) : Prop :=
  match s.pc with
  | .user => s.currProc = .proc p
  | .insert new _ _ => s.currProc = .proc p ∨ p = new
  | .linked _ => s.currProc = .proc p
  | _ => False

/-- The scheduler's variables at each program point. -/
def Control (s : Sched) : Prop :=
  match s.pc with
  | .user => s.nextProc = s.currProc ∧
      (s.currProc = .main ∨ ∃ p, s.currProc = .proc p ∧ s.sleepCurr = false)
  | .insert new _ _ | .linked new => s.currProc ≠ .proc new ∧ s.nextProc = s.currProc ∧
      (s.currProc = .main ∨ ∃ p, s.currProc = .proc p ∧ s.sleepCurr = false)
  | .blocking => s.nextProc = s.currProc ∧ s.sleepCurr = true ∧
      ∃ p ∈ s.live, s.currProc = .proc p
  | .running => s.nextProc = s.currProc ∧ s.sleepCurr = true ∧ s.currProc = .main
  | .exitFreed => s.nextProc = s.currProc ∧ ∃ p, s.currProc = .proc p ∧ p ∉ s.live
  | .exitNull => s.currProc = .null

/-- Where the tail pointer of the ready queue points. Only between the last two writes of an
insertion it may point at a process that is not the last one. -/
def TailOk (s : Sched) (ready : List ℕ) (place : ℕ → Place) : Prop :=
  match s.pc with
  | .linked new => Anchored place (s.links.prev .ready) ∧ s.links.prev .ready ≠ .proc new
  | _ => AtEnd ready place (s.links.prev .ready)

/-- What the insertion has done so far. -/
def InsertOk (s : Sched) (ready : List ℕ) (place : ℕ → Place) : Prop :=
  match s.pc with
  | .insert new prev k => Anchored place prev ∧
      (k ≠ .loaded → s.links.next (.proc new) = .ready) ∧
      (k = .prevSet → s.links.prev (.proc new) = prev)
  | .linked new => AtEnd ready place (.proc new)
  | _ => True

/-- **The invariant.** -/
structure Inv (s : Sched) (ready : List ℕ) (waits : ℕ → List ℕ) (place : ℕ → Place) : Prop where
  shape : QueueShape s.links ready waits place
  nodup : s.live.Nodup
  free : ∀ p, place p = .free ↔ p ∉ s.live
  loose : ∀ p, place p = .loose ↔ s.Loose p
  control : s.Control
  tail : s.TailOk ready place
  insertion : s.InsertOk ready place

/-- Nothing is lost, and the tail pointer an insertion has loaded is that of the last node. -/
structure Intact (s : Sched) (ready : List ℕ) (place : ℕ → Place) : Prop where
  notLost : ∀ p, place p ≠ .lost
  loaded : ∀ new prev k, s.pc = .insert new prev k → prev = (nodes ready).getLastD .ready

/-- The running context is in the insertion of `PROC_create_process`. -/
def Inserting (s : Sched) : Prop :=
  match s.pc with
  | .insert .. | .linked _ => True
  | _ => False

instance (s : Sched) : Decidable s.Inserting :=
  match hs : s.pc with
  | .insert .. | .linked _ => .isTrue (by simp only [Inserting, hs])
  | .user | .blocking | .running | .exitFreed | .exitNull =>
    .isFalse (by simp only [Inserting, hs, not_false_eq_true])

variable {s s' : Sched} {ready : List ℕ} {waits : ℕ → List ℕ} {place : ℕ → Place} {p q : ℕ}

theorem inv_boot : Inv boot [] (fun _ ↦ []) fun _ ↦ .free := by
  refine ⟨⟨⟨rfl, by simp⟩, fun q ↦ ⟨⟨rfl, by simp⟩, rfl⟩, by simp, by simp⟩, by simp [boot],
    by simp [boot], by simp [boot, Loose], ?_, ?_, trivial⟩
  · exact ⟨rfl, Or.inl rfl⟩
  · exact Or.inl rfl

theorem intact_boot : Intact boot [] fun _ ↦ .free :=
  ⟨by simp, by simp [boot]⟩

namespace Inv

/-- The invariant does not depend on `irq_semaphore`. -/
theorem setIrq (h : Inv s ready waits place) (n : ℕ) :
    Inv { s with irqSemaphore := n } ready waits place :=
  ⟨h.shape, h.nodup, h.free, h.loose, h.control, h.tail, h.insertion⟩

/-- The tail pointer of the ready queue is always one an insertion can link behind. -/
theorem anchored_tail (h : Inv s ready waits place) : Anchored place (s.links.prev .ready) := by
  have htail := h.tail
  rw [TailOk] at htail
  split at htail
  · exact htail.1
  · exact h.shape.anchored_of_atEnd htail

/-- When nothing is lost the tail pointer is that of the last node, outside of an insertion. -/
theorem tail_eq_of_intact (h : Inv s ready waits place) (hni : ¬s.Inserting)
    (hin : Intact s ready place) : s.links.prev .ready = (nodes ready).getLastD .ready := by
  have htail := h.tail
  rw [TailOk] at htail
  split at htail
  · next hpc => exact absurd (by simp [Inserting, hpc]) hni
  · exact htail.resolve_right fun ⟨p, _, hp⟩ ↦ hin.notLost p hp

theorem length_waits_le (h : Inv s ready waits place) (q : ℕ) :
    (waits q).length ≤ s.live.length := by
  refine (List.subperm_of_subset (h.shape.nodup_waits q) fun p hp ↦ ?_).length_le
  by_contra hn
  rw [← h.free, (h.shape.mem_waits q p).1 hp] at hn
  cases hn

end Inv

/-! ### Wake-ups -/

theorem moveHead_cons {l : Links ProcNode} {rs : List ℕ}
    (hq : IsQueue l (.wait q) (nodes (p :: rs))) :
    moveHead l q = LL.enqueue (LL.del .null l (.proc p)) .ready (.proc p) := by
  rw [moveHead, LL.dequeue_cons hq]

/-- **One wake-up.** The first process of a wait queue goes to the ready queue, wherever the running
context is. Nothing is lost by it outside of an insertion. -/
theorem Inv.moveHead {rs : List ℕ} (h : Inv s ready waits place) (hq : waits q = p :: rs) :
    ∃ ready' place', Inv (s.setLinks (moveHead s.links q)) ready' (Function.update waits q rs)
        place' ∧
      (¬s.Inserting → Intact s ready place → ready' = ready ++ [p] ∧
        Intact (s.setLinks (Sched.moveHead s.links q)) ready' place') := by
  have hring := h.shape.waitQueues q
  rw [hq] at hring
  have hplace : place p = .wait q := (h.shape.mem_waits q p).1 (hq ▸ List.mem_cons_self)
  have hshape := h.shape.dequeueWait hq
  set l₁ := LL.del .null s.links (.proc p)
  set place₁ := Function.update place p .loose
  have hself : place₁ p = .loose := Function.update_self ..
  have hother : ∀ x, x ≠ p → place₁ x = place x := fun x hx ↦ Function.update_of_ne hx ..
  -- the tail pointer of the ready queue is not touched by the removal
  have htail : l₁.prev .ready = s.links.prev .ready :=
    (h.shape.dequeueWait_frame hq (by simp) (by simp)).2
  have hnot : ¬(place p = .ready ∨ place p = .lost) := by simp [hplace]
  have hanchored : Anchored place₁ (l₁.prev .ready) := htail ▸ h.anchored_tail.update hnot
  obtain ⟨ready', place', hshape', hlinked⟩ := hshape.enqueueReady hself hanchored
  have hloose : ∀ x, place' x = .loose ↔ place x = .loose := by
    intro x
    rw [hlinked.loose_iff]
    rcases eq_or_ne x p with rfl | hx
    · simp [hplace]
    · simp [hx, hother x hx]
  -- the pointers of loose processes are not touched at all
  have hkept : ∀ x, place x = .loose →
      (LL.enqueue l₁ .ready (.proc p)).next (.proc x) = s.links.next (.proc x) ∧
        (LL.enqueue l₁ .ready (.proc p)).prev (.proc x) = s.links.prev (.proc x) := by
    intro x hx
    have hxp : ProcNode.proc x ≠ .proc p := by
      rintro ⟨⟩
      rw [hplace] at hx
      cases hx
    have hxt : ProcNode.proc x ≠ l₁.prev .ready :=
      htail ▸ (h.anchored_tail.ne_proc (by simp [hx])).symm
    have hfr := h.shape.dequeueWait_frame hq (x := .proc x) (by simp) (by rintro r ⟨⟩; simp [hx])
    exact ⟨(LL.llAdd_next_of_ne hxp hxt).trans hfr.1,
      (LL.llAdd_prev_of_ne hxp (by simp)).trans hfr.2⟩
  have hmove : Sched.moveHead s.links q = LL.enqueue l₁ .ready (.proc p) := moveHead_cons hring.1
  have htail' : (LL.enqueue l₁ .ready (.proc p)).prev .ready = .proc p := LL.enqueue_prev_head
  refine ⟨ready', place', ⟨hmove ▸ hshape', h.nodup, fun x ↦ ?_, fun x ↦ ?_, h.control, ?_, ?_⟩, ?_⟩
  · rw [hlinked.free_iff (by simp [hself])]
    rcases eq_or_ne x p with rfl | hx
    · rw [hself]
      have hlive := h.free x
      rw [hplace] at hlive
      exact iff_of_false (by simp) fun hn ↦ Place.noConfusion (hlive.2 hn)
    · rw [hother x hx]
      exact h.free x
  · exact (hloose x).trans (h.loose x)
  · have hold := h.tail
    have hins := h.insertion
    rw [hmove]
    simp only [TailOk, InsertOk, setLinks] at hold hins ⊢
    rw [htail']
    split
    · next new hpc =>
      rw [hpc] at hins
      exact ⟨hshape'.anchored_of_atEnd hlinked.atEnd,
        ((h.shape.anchored_of_atEnd hins).ne_proc hnot).symm⟩
    · exact hlinked.atEnd
  · have hold := h.tail
    have hins := h.insertion
    rw [hmove]
    simp only [TailOk, InsertOk, setLinks] at hold hins ⊢
    split
    · next new prev k hpc =>
      rw [hpc] at hins
      have hnew : place new = .loose := (h.loose new).2 (by simp [Loose, hpc])
      rw [(hkept new hnew).1, (hkept new hnew).2]
      exact ⟨hlinked.anchored hself (hins.1.update hnot), hins.2⟩
    · next new hpc =>
      rw [hpc] at hins hold
      have hnew : new ≠ p := fun he ↦
        (h.shape.anchored_of_atEnd hins).ne_proc hnot (congrArg _ he)
      refine hlinked.keeps_end new hnew ?_ (htail ▸ hold.2)
      rcases hins with he | ⟨r, he, hr⟩
      · exact Or.inl he
      · cases he
        exact Or.inr ⟨new, rfl, by rwa [hother new hnew]⟩
    · trivial
  · intro hni hin
    have hnone : ∀ x, place₁ x ≠ .lost := fun x ↦ by
      rcases eq_or_ne x p with rfl | hx
      · simp [hself]
      · rw [hother x hx]
        exact hin.notLost x
    obtain ⟨happ, hlost⟩ := hlinked.intact hnone (htail ▸ h.tail_eq_of_intact hni hin)
    refine ⟨happ, hlost, fun new prev k hpc ↦ ?_⟩
    have hpc' : s.pc = .insert new prev k := hpc
    exact absurd (by simp [Inserting, hpc']) hni

theorem empty_wait_iff (h : Inv s ready waits place) (q : ℕ) :
    LL.empty s.links (.wait q) = true ↔ waits q = [] := by
  rw [LL.empty_iff (h.shape.waitQueues q).1, List.map_eq_nil_iff]

/-- **The loop of `PROC_unblock_all` ends**, after as many iterations as there are processes in the
queue, and empties the queue. -/
theorem Inv.unblockAllLoop {n : ℕ} (h : Inv s ready waits place) (hn : (waits q).length < n) :
    ∃ l, unblockAllLoop q n s.links = some l ∧ (waits q = [] → l = s.links) ∧
      ∃ ready' place', Inv (s.setLinks l) ready' (Function.update waits q []) place' ∧
        (¬s.Inserting → Intact s ready place →
          ready' = ready ++ waits q ∧ Intact (s.setLinks l) ready' place') := by
  induction n generalizing s ready waits place with
  | zero => exact absurd hn (Nat.not_lt_zero _)
  | succ n ih =>
    rw [Sched.unblockAllLoop]
    rcases hq : waits q with - | ⟨p, rs⟩
    · have hsame : Function.update waits q [] = waits := by rw [← hq, Function.update_eq_self]
      rw [if_pos ((empty_wait_iff h q).2 hq), hsame]
      exact ⟨s.links, rfl, fun _ ↦ rfl, ready, place, h, fun _ hin ↦
        ⟨(List.append_nil ready).symm, hin⟩⟩
    · have hne : ¬LL.empty s.links (.wait q) = true := by
        rw [empty_wait_iff h q, hq]
        exact List.cons_ne_nil p rs
      rw [if_neg hne]
      obtain ⟨ready', place', hinv, hint⟩ := h.moveHead hq
      have hlen : (Function.update waits q rs q).length < n := by
        rw [Function.update_self]
        rw [hq, List.length_cons] at hn
        exact Nat.lt_of_succ_lt_succ hn
      obtain ⟨l, hl, -, ready'', place'', hinv', hint'⟩ := ih hinv hlen
      rw [Function.update_idem] at hinv'
      refine ⟨l, hl, fun hnil ↦ absurd hnil (List.cons_ne_nil p rs), ready'', place'', hinv',
        fun hni hin ↦ ?_⟩
      obtain ⟨rfl, hin'⟩ := hint hni hin
      obtain ⟨rfl, hin''⟩ := hint' hni hin'
      refine ⟨?_, hin''⟩
      rw [Function.update_self, List.append_assoc]
      rfl

/-- What a handler does: it changes pointers and nothing else of the scheduler. -/
def Touched (s s' : Sched) : Prop :=
  s' = { s with links := s'.links, irqSemaphore := s'.irqSemaphore }

theorem Touched.pc_eq (h : Touched s s') : s'.pc = s.pc := by rw [h]

theorem Touched.currProc_eq (h : Touched s s') : s'.currProc = s.currProc := by rw [h]

theorem Touched.nextProc_eq (h : Touched s s') : s'.nextProc = s.nextProc := by rw [h]

/-- **A wake-up** runs to its end, keeps the invariant, and loses nothing outside of an insertion.
When its queue is empty it changes no pointer. -/
theorem Inv.wake (h : Inv s ready waits place) (w : Wake) :
    ∃ s', s.wake w = some s' ∧ Touched s s' ∧
      (LL.empty s.links (.wait w.queue) = true → s'.links = s.links) ∧
      ∃ ready' place', Inv s' ready' (w.leave waits) place' ∧
        (¬s.Inserting → Intact s ready place →
          ready' = ready ++ w.woken (waits w.queue) ∧ Intact s' ready' place') := by
  cases w with
  | unblockHead q =>
    refine ⟨s.unblockHead q, rfl, ?_⟩
    rw [Sched.unblockHead, Wake.leave, Wake.queue, Wake.left, Wake.woken]
    rcases hq : waits q with - | ⟨p, rs⟩
    · have hsame : Function.update waits q (List.drop 1 []) = waits := by
        rw [List.drop_nil, ← hq, Function.update_eq_self]
      rw [if_pos ((empty_wait_iff h q).2 hq), hsame]
      exact ⟨rfl, fun _ ↦ rfl, ready, place, h, fun _ hin ↦ ⟨(List.append_nil ready).symm, hin⟩⟩
    · have hne : ¬LL.empty s.links (.wait q) = true := by
        rw [empty_wait_iff h q, hq]
        exact List.cons_ne_nil p rs
      rw [if_neg hne]
      obtain ⟨ready', place', hinv, hint⟩ := h.moveHead hq
      exact ⟨rfl, fun he ↦ absurd he hne, ready', place', hinv.setIrq _, fun hni hin ↦
        ⟨(hint hni hin).1, (hint hni hin).2.notLost, (hint hni hin).2.loaded⟩⟩
  | unblockAll q =>
    obtain ⟨l, hl, hnil, ready', place', hinv, hint⟩ :=
      h.unblockAllLoop (Nat.lt_succ_of_le (h.length_waits_le q))
    refine ⟨(s.irqDisable.setLinks l).irqEnable, ?_, rfl,
      fun he ↦ hnil ((empty_wait_iff h q).1 he), ready', place', hinv.setIrq _,
      fun hni hin ↦ ⟨(hint hni hin).1, (hint hni hin).2.notLost, (hint hni hin).2.loaded⟩⟩
    rw [Sched.wake, unblockAll, hl, Option.map_some]

/-- The wake-ups of a handler. -/
theorem Inv.wakeAll (h : Inv s ready waits place) (ws : List Wake) :
    ∃ s', s.wakeAll ws = some s' ∧ Touched s s' ∧
      ((∀ w ∈ ws, LL.empty s.links (.wait w.queue) = true) → s'.links = s.links) ∧
      ∃ ready' place', Inv s' ready' (leaveAll ws waits) place' ∧
        (¬s.Inserting → Intact s ready place →
          ready' = ready ++ wokenAll ws waits ∧ Intact s' ready' place') := by
  induction ws generalizing s ready waits place with
  | nil =>
    exact ⟨s, rfl, rfl, fun _ ↦ rfl, ready, place, h, fun _ hin ↦
      ⟨(List.append_nil ready).symm, hin⟩⟩
  | cons w ws ih =>
    obtain ⟨s₁, hs₁, ht₁, hl₁, r₁, p₁, h₁, hi₁⟩ := h.wake w
    obtain ⟨s₂, hs₂, ht₂, hl₂, r₂, p₂, h₂, hi₂⟩ := ih h₁
    refine ⟨s₂, ?_, ?_, fun he ↦ ?_, r₂, p₂, h₂, fun hni hin ↦ ?_⟩
    · rw [Sched.wakeAll, hs₁, Option.bind_some, hs₂]
    · rw [Touched] at *
      rw [ht₂, ht₁]
    · rw [← hl₁ (he w List.mem_cons_self)]
      refine hl₂ fun w' hw' ↦ ?_
      rw [hl₁ (he w List.mem_cons_self)]
      exact he w' (List.mem_cons_of_mem w hw')
    · obtain ⟨rfl, hin₁⟩ := hi₁ hni hin
      obtain ⟨rfl, hin₂⟩ := hi₂ (by rwa [Inserting, ht₁.pc_eq]) hin₁
      exact ⟨List.append_assoc .., hin₂⟩

end Sched

end Marimba
