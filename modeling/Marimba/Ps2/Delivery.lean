import Marimba.Ps2.Driver

/-!
# What the keyboard delivers

Each open file gets the characters produced since it was opened, in order, as long as it is never
behind by the size of the buffer (`System.Bounded`). The positions of the driver are those of ever
growing numbers: the end of the buffer is at the number of characters produced, and the cursor of a
file at the number at which it was opened plus the number returned to it. With these the copying
loop copies a piece of the stream (`copy_eq`), and nothing else about the wrapping is needed.

**No wake-up is lost**: `ps2_read` looks at the buffer and blocks with interrupts disabled, so that
a blocked process has no unread character when it blocks, and the next character wakes it. The
invariant `Ps2Inv` says of every blocked process that its file has no unread character.
-/

namespace Marimba

open Links CyclicBuffer

namespace Ps2

/-! ### Positions -/

theorem buffPos_succ (k : ℕ) : buffPos (k % ps2BuffSize + 1) = (k + 1) % ps2BuffSize := by
  have hlt : k % ps2BuffSize < 128 := Nat.mod_lt k (by decide)
  have hne : k % ps2BuffSize + 1 ≠ 2 ^ 64 - 1 := by omega
  rw [buffPos, if_neg hne, Nat.mod_add_mod]

/-- The device has the stream in its buffer. -/
structure Streams (dev : Ps2Device) (produced : List UInt8) : Prop where
  pos : dev.pos = produced.length % ps2BuffSize
  holds : HoldsLast ps2BuffSize dev.data produced

namespace Streams

variable {dev : Ps2Device} {produced : List UInt8} {i : ℕ}

theorem producerAdd (h : Streams dev produced) (c : UInt8) :
    Streams (dev.producerAdd c) (produced ++ [c]) := by
  refine ⟨?_, ?_⟩
  · show buffPos (dev.pos + 1) = _
    rw [h.pos, buffPos_succ, List.length_append, List.length_singleton]
  · show HoldsLast _ (Function.update dev.data dev.pos c) _
    rw [h.pos]
    exact h.holds.push c

/-- A cursor less than the size of the buffer behind has characters exactly when it is behind. -/
theorem consumerHasBytes_iff (h : Streams dev produced) (hi : i ≤ produced.length)
    (hn : produced.length < i + ps2BuffSize) :
    dev.consumerHasBytes (i % ps2BuffSize) = true ↔ i < produced.length := by
  have heq : i % ps2BuffSize = dev.pos ↔ i = produced.length := by
    rw [h.pos, mod_eq_mod_iff hi hn]
  rw [Ps2Device.consumerHasBytes, Bool.not_eq_true', beq_eq_false_iff_ne, ne_eq, heq]
  omega

/-- **The copying loop copies the stream** from the cursor on, as far as the length allows. -/
theorem copy_eq (h : Streams dev produced) (len : ℕ) (hi : i ≤ produced.length)
    (hn : produced.length < i + ps2BuffSize) :
    dev.copy len (i % ps2BuffSize) = ((produced.drop i).take len,
      (i + ((produced.drop i).take len).length) % ps2BuffSize) := by
  induction len generalizing i with
  | zero =>
    rw [Ps2Device.copy, List.take_zero]
    rfl
  | succ len ih =>
    rw [Ps2Device.copy]
    by_cases hhas : dev.consumerHasBytes (i % ps2BuffSize) = true
    · have hlt := (h.consumerHasBytes_iff hi hn).1 hhas
      have hchar := h.holds.read hlt hn.le
      have hdrop : produced.drop i = dev.data (i % ps2BuffSize) :: produced.drop (i + 1) := by
        rw [List.drop_eq_getElem_cons hlt]
        rw [List.getElem?_eq_getElem hlt, Option.some_inj] at hchar
        rw [hchar]
      rw [if_pos hhas, hdrop, List.take_succ_cons]
      simp only [Ps2Device.consumerReadNext, buffPos_succ]
      rw [ih (i := i + 1) hlt (by omega), List.length_cons]
      simp only [Prod.mk.injEq, true_and]
      congr 1
      omega
    · have hend : i = produced.length := by
        rw [h.consumerHasBytes_iff hi hn] at hhas
        omega
      rw [if_neg hhas, hend, List.drop_length, List.take_nil]
      rfl

end Streams

/-! ### The invariant -/

/-- **The invariant of the driver.** The cursor of an open file is at the number of characters
produced when it was opened plus those returned to it, these are the next ones of the stream, and a
blocked process has no unread character. -/
structure Ps2Inv (s : System) (v : SchedView) : Prop where
  views : s.sched.Views v
  streams : Streams s.dev s.produced
  cursor : ∀ f ∈ s.files, s.userPos f = (s.openedAt f + (s.got f).length) % ps2BuffSize ∧
    s.openedAt f + (s.got f).length ≤ s.produced.length ∧ s.got f <+: s.produced.drop (s.openedAt f)
  reads : ∀ r ∈ s.reads, r.file ∈ s.files ∧ r.bytes.length ≤ r.len
  waiting : ∀ p f len, s.pcs p = .waiting f len → f ∈ s.files
  asleep : ∀ p ∈ v.waits blockedProcs, ∃ f len, s.pcs p = .waiting f len ∧ s.unread f = 0

variable {s s' : System} {v v' : SchedView} {p f len : ℕ}

theorem ps2Inv_boot : Ps2Inv .boot .boot := by
  refine ⟨Sched.views_boot, ⟨rfl, holdsLast_nil _ _⟩, ?_, ?_, ?_, ?_⟩ <;>
    simp [System.boot, SchedView.boot]

namespace Ps2Inv

/-- A step of the scheduler that keeps the blocked processes. -/
theorem setSched (h : Ps2Inv s v) {sched : Sched} (hviews : sched.Views v')
    (hwaits : v'.waits blockedProcs = v.waits blockedProcs) :
    Ps2Inv { s with sched := sched } v' :=
  ⟨hviews, h.streams, h.cursor, h.reads, h.waiting, by rw [hwaits]; exact h.asleep⟩

/-- `ps2_open` starts at the end of the stream. -/
theorem openFile (h : Ps2Inv s v) (hf : f ∉ s.files) : Ps2Inv (s.openFile f) v := by
  have hnone : s.got f = [] := by
    have hfilter : s.reads.filter (fun r ↦ r.file = f) = [] := by
      rw [List.filter_eq_nil_iff]
      intro r hr he
      exact hf (of_decide_eq_true he ▸ (h.reads r hr).1)
    rw [System.got, hfilter]
    rfl
  have hold : ∀ {g}, g ∈ s.files → g ≠ f := fun hg he ↦ hf (he ▸ hg)
  refine ⟨h.views, h.streams, fun g hg ↦ ?_, fun r hr ↦ ?_, fun p g len hpc ↦ ?_, fun p hp ↦ ?_⟩
  · show Function.update s.userPos f s.dev.pos g =
        (Function.update s.openedAt f s.produced.length g + (s.got g).length) % ps2BuffSize ∧
      Function.update s.openedAt f s.produced.length g + (s.got g).length ≤ s.produced.length ∧
      s.got g <+: s.produced.drop (Function.update s.openedAt f s.produced.length g)
    rcases List.mem_cons.1 hg with rfl | hg
    · rw [Function.update_self, Function.update_self, hnone]
      exact ⟨h.streams.pos, le_rfl, List.nil_prefix⟩
    · rw [Function.update_of_ne (hold hg), Function.update_of_ne (hold hg)]
      exact h.cursor g hg
  · exact ⟨List.mem_cons_of_mem f (h.reads r hr).1, (h.reads r hr).2⟩
  · exact List.mem_cons_of_mem f (h.waiting p g len hpc)
  · obtain ⟨g, len, hpc, hzero⟩ := h.asleep p hp
    refine ⟨g, len, hpc, ?_⟩
    show s.produced.length -
      (Function.update s.openedAt f s.produced.length g + (s.got g).length) = 0
    rwa [Function.update_of_ne (hold (h.waiting p g len hpc))]

/-- The characters returned to each file, after another read. -/
theorem got_append (s : System) (r : Read) (g : ℕ) :
    ({ s with reads := s.reads ++ [r] } : System).got g =
      s.got g ++ if r.file = g then r.bytes else [] := by
  rw [System.got, List.filter_append, List.flatMap_append]
  by_cases he : r.file = g
  · simp [System.got, he]
  · simp [System.got, he]

/-- The characters a read returns are the next ones of the stream. -/
theorem cursor_copy (h : Ps2Inv s v) (hf : f ∈ s.files) (len : ℕ) {bytes : List UInt8}
    (hbytes : bytes = (s.produced.drop (s.openedAt f + (s.got f).length)).take len) :
    s.openedAt f + (s.got f ++ bytes).length ≤ s.produced.length ∧
      s.got f ++ bytes <+: s.produced.drop (s.openedAt f) := by
  obtain ⟨-, hle, rest, hrest⟩ := h.cursor f hf
  have hdrop : s.produced.drop (s.openedAt f + (s.got f).length) = rest := by
    rw [← List.drop_drop, ← hrest, List.drop_left]
  rw [hdrop] at hbytes
  have hpre : s.got f ++ bytes <+: s.produced.drop (s.openedAt f) := by
    rw [← hrest, hbytes]
    exact (List.prefix_append_right_inj _).2 (List.take_prefix ..)
  refine ⟨?_, hpre⟩
  have hlen := hpre.length_le
  rw [List.length_drop] at hlen
  omega

/-- **`ps2_read` finds characters**: it returns the next ones of the stream. -/
theorem readStep_copy (h : Ps2Inv s v) (hr : v.Runs p) (hf : f ∈ s.files)
    (hb : s.unread f < ps2BuffSize) (hhas : s.dev.consumerHasBytes (s.userPos f) = true) (len : ℕ) :
    Ps2Inv (s.readStep p f len) v := by
  obtain ⟨hpos, hle, -⟩ := h.cursor f hf
  have hn : s.produced.length < s.openedAt f + (s.got f).length + ps2BuffSize := by
    rw [System.unread] at hb
    omega
  have hcopy := h.streams.copy_eq len hle hn
  rw [← hpos] at hcopy
  generalize hbytes : (s.produced.drop (s.openedAt f + (s.got f).length)).take len = bytes at hcopy
  have hstep : s.readStep p f len = { s with
      sched := s.sched.irqDisable.irqEnable
      userPos := Function.update s.userPos f
        ((s.openedAt f + (s.got f).length + bytes.length) % ps2BuffSize)
      pcs := Function.update s.pcs p .user
      reads := s.reads ++ [⟨f, len, bytes⟩] } := by
    rw [System.readStep, if_pos hhas, hcopy]
  have hgot : ∀ g, (s.readStep p f len).got g = s.got g ++ if f = g then bytes else [] := by
    intro g
    rw [hstep]
    exact got_append s ⟨f, len, bytes⟩ g
  have hout : p ∉ v.waits blockedProcs := h.views.notMem_waits hr
  refine ⟨?_, ?_, fun g hg ↦ ?_, fun r hread ↦ ?_, fun q g len' hpc ↦ ?_, fun q hq ↦ ?_⟩
  · rw [hstep]
    exact h.views.irqDisable_irqEnable
  · rw [hstep]
    exact h.streams
  · rw [hstep] at hg
    rw [hgot g, hstep]
    show Function.update s.userPos f _ g = (s.openedAt g + _) % ps2BuffSize ∧
      s.openedAt g + _ ≤ s.produced.length ∧ _ <+: s.produced.drop (s.openedAt g)
    rcases eq_or_ne g f with rfl | hne
    · rw [Function.update_self, if_pos rfl]
      refine ⟨?_, h.cursor_copy hf len hbytes.symm⟩
      rw [List.length_append, ← Nat.add_assoc]
    · rw [Function.update_of_ne hne, if_neg (Ne.symm hne), List.append_nil]
      exact h.cursor g hg
  · rw [hstep] at hread ⊢
    rcases List.mem_append.1 hread with hread | hread
    · exact h.reads r hread
    · rw [List.mem_singleton.1 hread, ← hbytes]
      exact ⟨hf, List.length_take_le ..⟩
  · rw [hstep] at hpc ⊢
    have hpc : Function.update s.pcs p .user q = .waiting g len' := hpc
    rcases eq_or_ne q p with rfl | hne
    · rw [Function.update_self] at hpc
      cases hpc
    · rw [Function.update_of_ne hne] at hpc
      exact h.waiting q g len' hpc
  · obtain ⟨g, len', hpc, hzero⟩ := h.asleep q hq
    have hne : q ≠ p := fun he ↦ hout (he ▸ hq)
    refine ⟨g, len', ?_, ?_⟩
    · rw [hstep]
      exact (Function.update_of_ne hne ..).trans hpc
    · rw [System.unread] at hzero ⊢
      rw [hgot g, hstep, List.length_append]
      show s.produced.length - (s.openedAt g + _) = 0
      omega

/-- **`ps2_read` finds no character**: it blocks, and there is none. -/
theorem readStep_block (h : Ps2Inv s v) (hr : v.Runs p) (hf : f ∈ s.files)
    (hb : s.unread f < ps2BuffSize) (hhas : ¬s.dev.consumerHasBytes (s.userPos f) = true)
    (len : ℕ) : Ps2Inv (s.readStep p f len) (v.blockOn p blockedProcs) := by
  obtain ⟨hpos, hle, -⟩ := h.cursor f hf
  have hzero : s.unread f = 0 := by
    rw [System.unread] at hb ⊢
    rw [hpos, h.streams.consumerHasBytes_iff hle (by omega)] at hhas
    omega
  have hstep : s.readStep p f len = { s with
      sched := s.sched.irqDisable.blockOn blockedProcs true
      pcs := Function.update s.pcs p (.waiting f len) } := by
    rw [System.readStep, if_neg hhas]
  have hwaits : (v.blockOn p blockedProcs).waits blockedProcs = v.waits blockedProcs ++ [p] := by
    simp [SchedView.blockOn]
  rw [hstep]
  refine ⟨h.views.blockOn hr blockedProcs, h.streams, h.cursor, h.reads, fun q g len' hpc ↦ ?_,
    fun q hq ↦ ?_⟩
  · have hpc : Function.update s.pcs p (.waiting f len) q = .waiting g len' := hpc
    rcases eq_or_ne q p with rfl | hne
    · rw [Function.update_self] at hpc
      cases hpc
      exact hf
    · rw [Function.update_of_ne hne] at hpc
      exact h.waiting q g len' hpc
  · rw [hwaits] at hq
    show ∃ g len', Function.update s.pcs p (.waiting f len) q = .waiting g len' ∧ s.unread g = 0
    rcases eq_or_ne q p with rfl | hne
    · exact ⟨f, len, Function.update_self .., hzero⟩
    · rw [Function.update_of_ne hne]
      refine h.asleep q ?_
      simpa [hne] using hq

/-- A step of `ps2_read`. -/
theorem readStep (h : Ps2Inv s v) (hr : v.Runs p) (hf : f ∈ s.files)
    (hb : s.unread f < ps2BuffSize) (len : ℕ) : ∃ v', Ps2Inv (s.readStep p f len) v' := by
  by_cases hhas : s.dev.consumerHasBytes (s.userPos f) = true
  · exact ⟨v, h.readStep_copy hr hf hb hhas len⟩
  · exact ⟨_, h.readStep_block hr hf hb hhas len⟩

/-- **The keyboard interrupt** leaves no process blocked. -/
theorem isr (h : Ps2Inv s v) (c : UInt8) (hs : s.isr c = some s') : ∃ v', Ps2Inv s' v' := by
  rw [System.isr] at hs
  by_cases hc : c = 0
  · rw [if_pos hc] at hs
    obtain ⟨sched, hsched, -, hviews⟩ := h.views.interrupt []
    rw [hsched] at hs
    obtain rfl := Option.some.inj hs
    exact ⟨_, h.setSched hviews rfl⟩
  · rw [if_neg hc] at hs
    obtain ⟨sched, hsched, -, hviews⟩ := h.views.interrupt [.unblockAll blockedProcs]
    rw [SchedView.interrupt_unblockAll] at hviews
    rw [hsched] at hs
    obtain rfl := Option.some.inj hs
    refine ⟨_, hviews, h.streams.producerAdd c, fun f hf ↦ ?_, h.reads, h.waiting, fun p hp ↦ ?_⟩
    · obtain ⟨hpos, hle, hgot⟩ := h.cursor f hf
      refine ⟨hpos, ?_, hgot.trans ?_⟩
      · show _ ≤ (s.produced ++ [c]).length
        rw [List.length_append]
        exact Nat.le_add_right_of_le hle
      · show _ <+: (s.produced ++ [c]).drop (s.openedAt f)
        rw [List.drop_append_of_le_length (by omega)]
        exact List.prefix_append ..
    · simp at hp

end Ps2Inv

/-! ### Runs -/

/-- **Every step keeps the invariant**, from a state in which the buffer has room for the unread
characters. -/
theorem ps2Inv_step {e : Ps2Event} {u : Unit} (h : ∃ v, Ps2Inv s v) (hb : s.Bounded)
    (hstep : s.step e = some (u, s')) : ∃ v', Ps2Inv s' v' := by
  obtain ⟨v, h⟩ := h
  cases e with
  | create p =>
    obtain ⟨⟨hpc, -, hp⟩, -, rfl⟩ := guarded_eq_some.1 hstep
    exact ⟨_, h.setSched (h.views.createProcess (h.views.pc_eq_user_iff.1 hpc) hp) rfl⟩
  | «open» f =>
    obtain ⟨⟨-, -, hf⟩, -, rfl⟩ := guarded_eq_some.1 hstep
    exact ⟨v, h.openFile hf⟩
  | read f len =>
    rw [System.step] at hstep
    split at hstep
    · next p hrun =>
      obtain ⟨⟨-, hf⟩, -, rfl⟩ := guarded_eq_some.1 hstep
      exact h.readStep (h.views.running_eq_some_iff.1 hrun) hf (hb f hf) len
    · cases hstep
  | resume =>
    rw [System.step] at hstep
    split at hstep
    · next p hrun =>
      split at hstep
      · next f len hpc =>
        obtain ⟨-, rfl⟩ := Prod.mk.inj (Option.some.inj hstep)
        have hf := h.waiting p f len hpc
        exact h.readStep (h.views.running_eq_some_iff.1 hrun) hf (hb f hf) len
      · cases hstep
    · cases hstep
  | yield =>
    obtain ⟨hy, -, rfl⟩ := guarded_eq_some.1 hstep
    exact ⟨_, h.setSched (h.views.yield (h.views.canYield hy)) rfl⟩
  | runCheck =>
    obtain ⟨⟨hpc, hcurr⟩, -, rfl⟩ := guarded_eq_some.1 hstep
    rw [h.views.currProc_eq, SchedView.node_eq_main] at hcurr
    refine ⟨_, h.setSched (h.views.runCheck (h.views.pc_eq_user_iff.1 hpc) hcurr) ?_⟩
    rw [SchedView.runCheck]
    split <;> rfl
  | key c =>
    obtain ⟨-, hs'⟩ := Option.ite_none_right_eq_some.1 hstep
    obtain ⟨s₁, hisr, heq⟩ := Option.map_eq_some_iff.1 hs'
    obtain ⟨-, rfl⟩ := Prod.mk.inj heq
    exact h.isr c hisr

/-- **What the keyboard delivers.** In every run in which each open file always has fewer unread
characters than the buffer has cells, at every moment: the characters returned to a file are a
prefix of those produced since it was opened, each read has returned at most as many as asked for,
and every process blocked on the keyboard is in a read of a file without unread characters. -/
theorem ps2_delivery {events : List Ps2Event} {out : List Unit} {s : System}
    (halong : Along System.step (fun s _ ↦ s.Bounded) .boot events)
    (hrun : runTrace System.step .boot events = some (out, s)) :
    (∀ f ∈ s.files, s.got f <+: s.produced.drop (s.openedAt f)) ∧
      (∀ r ∈ s.reads, r.bytes.length ≤ r.len) ∧
      ∃ blocked : List ℕ, IsQueue s.sched.links (.wait blockedProcs) (blocked.map .proc) ∧
        ∀ p ∈ blocked, ∃ f len, s.pcs p = .waiting f len ∧ f ∈ s.files ∧ s.unread f = 0 := by
  obtain ⟨v, h⟩ := invariant_of_along (I := fun s ↦ ∃ v, Ps2Inv s v)
    (fun _ _ _ _ hs hb hstep ↦ ps2Inv_step hs hb hstep) ⟨.boot, ps2Inv_boot⟩ halong hrun
  refine ⟨fun f hf ↦ (h.cursor f hf).2.2, fun r hr ↦ (h.reads r hr).2, v.waits blockedProcs,
    h.views.isQueue_wait blockedProcs, fun p hp ↦ ?_⟩
  obtain ⟨f, len, hpc, hzero⟩ := h.asleep p hp
  exact ⟨f, len, hpc, h.waiting p f len hpc, hzero⟩

/-- Two readers: the first blocks before there is a character, two characters come in, one of them
before it has even yielded, and it reads them one at a time; the second one opens in between. -/
def twoReaders : List Ps2Event :=
  [.create 0, .create 1, .runCheck, .yield, .open 10, .read 10 1, .key 65, .yield, .open 11,
    .read 11 4, .yield, .resume, .key 66, .read 10 8, .yield, .resume, .read 11 1]

theorem ps2_delivery_twoReaders :
    ∃ out s, runTrace System.step .boot twoReaders = some (out, s) ∧
      s.got 10 = [65, 66] ∧ s.got 11 = [66] ∧
      ∃ blocked : List ℕ, IsQueue s.sched.links (.wait blockedProcs) (blocked.map .proc) ∧
        ∀ p ∈ blocked, ∃ f len, s.pcs p = .waiting f len ∧ f ∈ s.files ∧ s.unread f = 0 := by
  have hdone : (runTrace System.step .boot twoReaders).map
      (fun r ↦ (r.2.got 10, r.2.got 11)) = some ([65, 66], [66]) := by
    decide +kernel
  obtain ⟨⟨out, s⟩, hrun, heq⟩ := Option.map_eq_some_iff.1 hdone
  obtain ⟨h10, h11⟩ := Prod.mk.inj heq
  exact ⟨out, s, hrun, h10, h11, (ps2_delivery (by decide +kernel) hrun).2.2⟩

end Ps2

end Marimba
