import Marimba.Foundations.Word
import Marimba.Memory.FrameAllocator
import Marimba.Strings
import Mathlib.Data.List.Rotate

/-!
# The stress test of the frame allocator (`mmu_stress_test`)

The first part of the test allocates a hundred frames and frees them, ten thousand times. The second
part allocates a frame, looks whether it has a bit pattern already, and if not writes it and frees
the frame; the loop has no other end. The third part goes through the frames in the same way and
checks on each one the pattern and the number that was stored behind it, *after* the frame has been
freed.

So the test relies on the order in which frames are handed out, and on the words of a free frame
that are not its first one: the second loop ends because the frame that was freed first comes back
first, behind all the others, and the third one finds each number where it expects it for the same
reason. Both hold of the allocator (`stress_test_passes`). A list of free frames is only ever
rotated, and freeing changes the first words of frames and no other word (`freeFrame_word`).

What is printed is left out, but for the failures. Frames are read and written at their physical
addresses, so the test is about frames that the identity map has.
-/

namespace Marimba

namespace StressTest

/-- The length of `page_buff`. -/
abbrev pageBuffLen : ℕ := 100

/-- `total_cycles`. -/
abbrev totalCycles : ℕ := 10000

/-- `bit_patt_base`: `bit pattern woohoo!`. -/
def bitPattBase : List UInt8 :=
  [0x62, 0x69, 0x74, 0x20, 0x70, 0x61, 0x74, 0x74, 0x65, 0x72, 0x6e, 0x20, 0x77, 0x6f, 0x6f, 0x68,
    0x6f, 0x6f, 0x21]

/-- `bit_patt_len`. -/
def bitPattLen : ℕ := bitPattBase.length

/-- `bit_patt_off`. -/
abbrev bitPattOff : ℕ := 20

/-- The loop that fills `page_buff`. -/
def allocFrames : ℕ → Machine → List ℕ × Machine
  | 0, k => ([], k)
  | n + 1, k =>
    let r := allocFrames n (MMU.allocFrame k).2
    ((MMU.allocFrame k).1 :: r.1, r.2)

/-- The loop that frees the frames of `page_buff`. -/
def freeFrames (frames : List ℕ) (k : Machine) : Machine := frames.foldl MMU.freeFrame k

/-- That many cycles of the first part, with that many frames. -/
def largeAllocation (n : ℕ) : ℕ → Machine → Machine
  | 0, k => k
  | cycles + 1, k =>
    let r := allocFrames n k
    largeAllocation n cycles (freeFrames r.1 r.2)

/-- `memcmp` of the frame with the pattern. -/
def compare (k : Machine) (res : ℕ) : ℤ :=
  memcmp (fun i ↦ byteAt k.mem (res + bitPattOff + i)) (fun i ↦ bitPattBase.getD i 0) bitPattLen

/-- The address of `((int *)res)[bit_patt_off + bit_patt_len]`. -/
def cycleAddr (res : ℕ) : ℕ := res + 4 * (bitPattOff + bitPattLen)

/-- The pattern is written, and the number of the cycle. -/
def writePattern (k : Machine) (res cycle : ℕ) : Machine :=
  { k with mem :=
    setBytes (setBytes k.mem (res + bitPattOff) bitPattBase) (cycleAddr res) (intBytes cycle) }

/-- The loop of the second part, at most that many cycles: `res` and `cycle` behind it. -/
def applyPatterns : (fuel cycle : ℕ) → Machine → Option (ℕ × ℕ × Machine)
  | 0, _, _ => none
  | fuel + 1, cycle, k =>
    let r := MMU.allocFrame k
    if compare r.2 r.1 = 0 then some (r.1, cycle, r.2)
    else applyPatterns fuel (cycle + 1) (MMU.freeFrame (writePattern r.2 r.1 cycle) r.1)

/-- The loop of the third part, that many cycles from `i` on: the failures, and `res` behind it. -/
def checkPatterns : (n i res : ℕ) → Machine → List ℕ × ℕ × Machine
  | 0, _, res, k => ([], res, k)
  | n + 1, i, res, k =>
    let k := MMU.freeFrame k res
    let r := checkPatterns n (i + 1) (MMU.allocFrame k).1 (MMU.allocFrame k).2
    if compare k res ≠ 0 ∨ intAt k.mem (cycleAddr res) ≠ i then (i :: r.1, r.2) else r

/-- What the test finds: the number of pages with a pattern, and those that have failed. -/
structure Report where
  applied : ℕ
  failures : List ℕ
  machine : Machine

/-- `mmu_stress_test`, at most that many cycles of its second part. -/
def mmuStressTest (fuel : ℕ) (k : Machine) : Option Report :=
  (applyPatterns fuel 0 (largeAllocation pageBuffLen (totalCycles + 1) k)).map fun r ↦
    let c := checkPatterns r.2.1 0 r.1 r.2.2
    ⟨r.2.1, c.1, MMU.freeFrame c.2.2 c.2.1⟩

/-! ### Free frames in order -/

/-- These frames are free, in the order in which they will be handed out. -/
def FreeInOrder (k : Machine) (frames : List ℕ) : Prop :=
  ∃ inSegments queued, FreeFrames k inSegments queued ∧ inSegments ++ queued = frames

/-- Frames, each of them once. -/
structure Frames (frames : List ℕ) : Prop where
  isFrame : ∀ f ∈ frames, IsFrame f
  nodup : frames.Nodup

theorem Frames.perm {frames frames' : List ℕ} (h : Frames frames) (hp : frames'.Perm frames) :
    Frames frames' :=
  ⟨fun f hf ↦ h.isFrame f (hp.subset hf), hp.nodup_iff.2 h.nodup⟩

theorem Frames.of_append_right (fs : List ℕ) {frames : List ℕ} (h : Frames (fs ++ frames)) :
    Frames frames :=
  ⟨fun f hf ↦ h.isFrame f (List.mem_append_right _ hf), (List.nodup_append.1 h.nodup).2.1⟩

section Frames

variable {k k' : Machine} {frames : List ℕ} {f : ℕ}

theorem FreeInOrder.allocFrame (h : FreeInOrder k (f :: frames)) :
    (MMU.allocFrame k).1 = f ∧ FreeInOrder (MMU.allocFrame k).2 frames := by
  obtain ⟨inSegments, queued, hrep, hfree⟩ := h
  obtain ⟨hret, inSegments', queued', hrep', hfree', -⟩ := MMU.allocFrame_cons hrep hfree
  exact ⟨hret, inSegments', queued', hrep', hfree'⟩

/-- A freed frame goes to the end. -/
theorem FreeInOrder.freeFrame (h : FreeInOrder k frames) (hf : Frames (f :: frames)) :
    FreeInOrder (MMU.freeFrame k f) (frames ++ [f]) := by
  obtain ⟨inSegments, queued, hrep, rfl⟩ := h
  have hq : f ∉ queued := fun hm ↦
    (List.nodup_cons.1 hf.nodup).1 (List.mem_append_right inSegments hm)
  have hne := (hf.isFrame f List.mem_cons_self).2.ne'
  refine ⟨inSegments, queued ++ [f], MMU.freeFrame_freeFrames hrep hne hq, ?_⟩
  rw [List.append_assoc]

/-- **Freeing writes the first words of frames only.** -/
theorem freeFrame_word (h : FreeInOrder k frames) (hf : Frames (f :: frames)) {a : ℕ}
    (ha : a % pageSize ≠ 0) : (MMU.freeFrame k f).mem a = k.mem a := by
  obtain ⟨inSegments, queued, hrep, rfl⟩ := h
  refine MMU.freeFrame_mem_of_notMem hrep ?_ fun hm ↦ ?_
  · rintro rfl
    exact ha (hf.isFrame a List.mem_cons_self).1
  · have hm := List.mem_cons_of_mem f (List.mem_append_right inSegments hm)
    exact ha (hf.isFrame a hm).1

/-- The list does not depend on what is behind the first words of the frames. -/
theorem FreeInOrder.congr_mem {mem' : ℕ → ℕ} (h : FreeInOrder k frames) (hf : Frames frames)
    (hmem : ∀ a, a % pageSize = 0 → mem' a = k.mem a) :
    FreeInOrder { k with mem := mem' } frames := by
  obtain ⟨inSegments, queued, hrep, rfl⟩ := h
  refine ⟨inSegments, queued, hrep.congr_mem fun g hg ↦ ?_, rfl⟩
  exact (hmem g (hf.isFrame g (List.mem_append_right _ hg)).1).symm

/-! ### Many frames -/

theorem allocFrames_spec {n : ℕ} (h : FreeInOrder k frames) (hn : n ≤ frames.length) :
    (allocFrames n k).1 = frames.take n ∧ FreeInOrder (allocFrames n k).2 (frames.drop n) ∧
      (allocFrames n k).2.mem = k.mem := by
  induction n generalizing k frames with
  | zero => exact ⟨rfl, h, rfl⟩
  | succ n ih =>
    cases frames with
    | nil => exact absurd hn (Nat.not_succ_le_zero n)
    | cons f frames =>
      obtain ⟨hret, hrest⟩ := h.allocFrame
      obtain ⟨hframes, hfree, hmem⟩ := ih hrest (Nat.le_of_succ_le_succ hn)
      refine ⟨?_, hfree, hmem.trans (MMU.allocFrame_mem k)⟩
      rw [allocFrames, List.take_succ_cons, hret, hframes]

theorem freeFrames_spec (fs : List ℕ) (h : FreeInOrder k frames) (hf : Frames (fs ++ frames)) :
    FreeInOrder (freeFrames fs k) (frames ++ fs) ∧
      ∀ a, a % pageSize ≠ 0 → (freeFrames fs k).mem a = k.mem a := by
  induction fs generalizing k frames with
  | nil =>
    rw [List.append_nil]
    exact ⟨h, fun _ _ ↦ rfl⟩
  | cons f fs ih =>
    have hcons : Frames (f :: frames) := by
      refine Frames.of_append_right fs (hf.perm ?_)
      exact List.perm_middle
    obtain ⟨hfree, hmem⟩ := ih (h.freeFrame hcons) (hf.perm (by
      rw [← List.append_assoc]
      exact List.perm_append_singleton f (fs ++ frames)))
    rw [List.append_assoc, List.singleton_append] at hfree
    exact ⟨hfree, fun a ha ↦ (hmem a ha).trans (freeFrame_word h hcons ha)⟩

/-- **A cycle rotates the free frames.** -/
theorem largeAllocation_spec {n : ℕ} (cycles : ℕ) (h : FreeInOrder k frames) (hf : Frames frames)
    (hn : n ≤ frames.length) :
    FreeInOrder (largeAllocation n cycles k) (frames.rotate (n * cycles)) ∧
      ∀ a, a % pageSize ≠ 0 → (largeAllocation n cycles k).mem a = k.mem a := by
  induction cycles generalizing k frames with
  | zero =>
    rw [Nat.mul_zero, List.rotate_zero]
    exact ⟨h, fun _ _ ↦ rfl⟩
  | succ cycles ih =>
    obtain ⟨hframes, hfree, hmem⟩ := allocFrames_spec h hn
    obtain ⟨hfree', hmem'⟩ := freeFrames_spec (frames.take n) hfree (by
      rw [List.take_append_drop]
      exact hf)
    rw [← List.rotate_eq_drop_append_take hn] at hfree'
    obtain ⟨hrest, hkept⟩ := ih hfree' (hf.perm (List.rotate_perm frames n)) (by
      rwa [List.length_rotate])
    rw [List.rotate_rotate, Nat.add_comm n, ← Nat.mul_succ] at hrest
    rw [largeAllocation, hframes]
    exact ⟨hrest, fun a ha ↦ (hkept a ha).trans ((hmem' a ha).trans (congrFun hmem a))⟩

end Frames

/-! ### The patterns -/

/-- The frame has the pattern. -/
def HasPattern (k : Machine) (f : ℕ) : Prop :=
  ∀ i < bitPattLen, byteAt k.mem (f + bitPattOff + i) = bitPattBase.getD i 0

/-- The frame has the pattern, and the number of its cycle behind it. -/
def Marked (k : Machine) (f cycle : ℕ) : Prop :=
  HasPattern k f ∧ intAt k.mem (cycleAddr f) = cycle

theorem compare_eq_zero_iff {k : Machine} {f : ℕ} : compare k f = 0 ↔ HasPattern k f :=
  memcmp_eq_zero_iff

section Patterns

variable {k k' : Machine} {frames : List ℕ} {f g cycle : ℕ}

/-- Where the pattern and the number are in a frame. -/
def Marks (f a : ℕ) : Prop := f + bitPattOff ≤ a ∧ a < cycleAddr f + 4

theorem Marks.word (hf : IsFrame f) {a : ℕ} (h : Marks f a) : (a - a % 8) % pageSize ≠ 0 := by
  obtain ⟨h₁, h₂⟩ := h
  have hmod := hf.1
  simp only [bitPattOff, cycleAddr, bitPattLen, bitPattBase, List.length_cons, List.length_nil,
    pageSize] at *
  omega

theorem Marks.ne (hf : IsFrame f) (hg : IsFrame g) (hne : f ≠ g) {a : ℕ} (h : Marks f a) :
    ¬Marks g a := by
  rintro ⟨h₃, h₄⟩
  obtain ⟨h₁, h₂⟩ := h
  have hfm := hf.1
  have hgm := hg.1
  simp only [bitPattOff, cycleAddr, bitPattLen, bitPattBase, List.length_cons, List.length_nil,
    pageSize] at *
  omega

/-- The pattern is the same when the bytes are. -/
theorem hasPattern_congr (h : ∀ a, Marks f a → byteAt k'.mem a = byteAt k.mem a) :
    HasPattern k' f ↔ HasPattern k f := by
  refine forall_congr' fun i ↦ forall_congr' fun hi ↦ ?_
  rw [h _ ⟨Nat.le_add_right _ i, ?_⟩]
  simp only [bitPattOff, cycleAddr, bitPattLen, bitPattBase, List.length_cons,
    List.length_nil] at *
  omega

theorem Marked.congr (hm : Marked k f cycle)
    (h : ∀ a, Marks f a → byteAt k'.mem a = byteAt k.mem a) : Marked k' f cycle := by
  refine ⟨(hasPattern_congr h).2 hm.1, (intAt_congr fun j hj ↦ h _ ?_).trans hm.2⟩
  refine ⟨?_, Nat.add_lt_add_left hj _⟩
  simp only [bitPattOff, cycleAddr]
  omega

theorem byteAt_freeFrame (h : FreeInOrder k frames) (hf : Frames (f :: frames)) (hg : IsFrame g)
    {a : ℕ} (ha : Marks g a) : byteAt (MMU.freeFrame k f).mem a = byteAt k.mem a :=
  byteAt_congr (freeFrame_word h hf (ha.word hg))

/-- What is written is read back. -/
theorem marked_writePattern (hcycle : cycle < 2 ^ 31) :
    Marked (writePattern k f cycle) f cycle := by
  refine ⟨fun i hi ↦ ?_, intAt_setBytes (hcycle.trans (by decide))⟩
  have hlen : bitPattLen = 19 := rfl
  have hbase : bitPattBase.length = 19 := rfl
  rw [writePattern, byteAt_setBytes, if_neg (by simp only [cycleAddr]; omega), byteAt_setBytes,
    if_pos (Nat.le_add_right _ i), Nat.add_sub_cancel_left, List.getD_eq_getElem?_getD,
    List.getD_eq_getElem?_getD, List.getElem?_eq_getElem (by omega)]
  rfl

/-- The other frames are not written. -/
theorem byteAt_writePattern {a : ℕ} (ha : ¬Marks f a) :
    byteAt (writePattern k f cycle).mem a = byteAt k.mem a := by
  have hlen : bitPattLen = 19 := rfl
  have hbase : bitPattBase.length = 19 := rfl
  have hint := length_intBytes cycle
  have houtside (vs : List UInt8) (b : ℕ) (mem : ℕ → ℕ) (h : a < b ∨ b + vs.length ≤ a) :
      byteAt (setBytes mem b vs) a = byteAt mem a := by
    rw [byteAt_setBytes]
    split
    · rw [List.getD_eq_getElem?_getD, List.getElem?_eq_none (by omega), Option.getD_none]
    · rfl
  simp only [Marks, cycleAddr, bitPattOff, not_and_or, Nat.not_le, Nat.not_lt] at ha
  rw [writePattern, houtside _ _ _ (by simp only [cycleAddr, bitPattOff]; omega),
    houtside _ _ _ (by simp only [bitPattOff]; omega)]

theorem FreeInOrder.writePattern (h : FreeInOrder k frames) (hf : Frames (f :: frames))
    (cycle : ℕ) :
    FreeInOrder (writePattern k f cycle) frames := by
  have hmod := (hf.isFrame f List.mem_cons_self).1
  have hlen : bitPattLen = 19 := rfl
  have hbase : bitPattBase.length = 19 := rfl
  have hint := length_intBytes cycle
  refine h.congr_mem (Frames.of_append_right [f] hf) fun a ha ↦ ?_
  simp only [pageSize] at hmod ha
  rw [setBytes_of_outside (by simp only [cycleAddr, bitPattOff]; omega),
    setBytes_of_outside (by simp only [bitPattOff]; omega)]

/-! ### The second and the third part -/

/-- **The second part**: with `done` marked in order and `rest` without a pattern, it goes on until
the first frame comes back, and then all frames are marked in order. -/
theorem applyPatterns_spec (rest done : List ℕ) {fuel : ℕ} (h : FreeInOrder k (rest ++ done))
    (hf : Frames (rest ++ done)) (hne : done ++ rest ≠ []) (hclean : ∀ f ∈ rest, ¬HasPattern k f)
    (hmarked : ∀ i f, done[i]? = some f → Marked k f i)
    (hlt : (done ++ rest).length < 2 ^ 31) (hfuel : rest.length < fuel) :
    ∃ f frames k', done ++ rest = f :: frames ∧
      applyPatterns fuel done.length k = some (f, (done ++ rest).length, k') ∧
      FreeInOrder k' frames ∧ ∀ i g, (done ++ rest)[i]? = some g → Marked k' g i := by
  induction rest generalizing k done fuel with
  | nil =>
    obtain ⟨fuel, rfl⟩ := Nat.exists_eq_succ_of_ne_zero (Nat.ne_zero_of_lt hfuel)
    rw [List.append_nil] at hne hlt ⊢
    rw [List.nil_append] at h hf
    obtain ⟨f, frames, rfl⟩ := List.exists_cons_of_ne_nil hne
    obtain ⟨hret, hrest⟩ := h.allocFrame
    have hmarked' (i g : ℕ) (hi : (f :: frames)[i]? = some g) :
        Marked (MMU.allocFrame k).2 g i :=
      (hmarked i g hi).congr fun a _ ↦ by rw [MMU.allocFrame_mem]
    refine ⟨f, frames, (MMU.allocFrame k).2, rfl, ?_, hrest, hmarked'⟩
    rw [applyPatterns, hret, if_pos (compare_eq_zero_iff.2 (hmarked' 0 f rfl).1)]
  | cons f rest ih =>
    obtain ⟨fuel, rfl⟩ := Nat.exists_eq_succ_of_ne_zero (Nat.ne_zero_of_lt hfuel)
    have h : FreeInOrder k (f :: (rest ++ done)) := h
    obtain ⟨hret, hrest⟩ := h.allocFrame
    have hfree := (hrest.writePattern hf done.length).freeFrame hf
    obtain ⟨hff, hnf⟩ : IsFrame f ∧ f ∉ rest ++ done :=
      ⟨hf.isFrame f List.mem_cons_self, (List.nodup_cons.1 hf.nodup).1⟩
    -- the bytes of the other frames are as before
    set k₁ := MMU.freeFrame (writePattern (MMU.allocFrame k).2 f done.length) f with hk₁
    have hbyte (g : ℕ) (hg : IsFrame g) (a : ℕ) (ha : Marks g a) : byteAt k₁.mem a =
        byteAt (writePattern (MMU.allocFrame k).2 f done.length).mem a :=
      byteAt_freeFrame (hrest.writePattern hf done.length) hf hg ha
    have hother (g : ℕ) (hg : IsFrame g) (hgf : g ≠ f) (a : ℕ) (ha : Marks g a) :
        byteAt k₁.mem a = byteAt k.mem a := by
      rw [hbyte g hg a ha, byteAt_writePattern (ha.ne hg hff hgf), MMU.allocFrame_mem]
    rw [List.append_assoc] at hfree
    have hlen : (done ++ [f]).length = done.length + 1 := List.length_append
    have hsplit : done ++ f :: rest = done ++ [f] ++ rest := by simp
    rw [hsplit] at hne hlt ⊢
    obtain ⟨g, frames, k', hcons, hrun, hspec⟩ := ih (done ++ [f]) hfree
      (hf.perm (by
        rw [← List.append_assoc]
        exact List.perm_append_singleton f (rest ++ done))) hne
      (fun g hg hp ↦ hclean g (List.mem_cons_of_mem f hg) ((hasPattern_congr (hother g
        (hf.isFrame g (List.mem_cons_of_mem f (List.mem_append_left _ hg)))
        (fun e ↦ hnf (e ▸ List.mem_append_left _ hg)))).1 hp))
      (fun i g hi ↦ by
        rcases Nat.lt_or_ge i done.length with hi' | hi'
        · rw [List.getElem?_append_left hi'] at hi
          have hg : g ∈ rest ++ done := List.mem_append_right _ (List.mem_of_getElem? hi)
          exact (hmarked i g hi).congr
            (hother g (hf.isFrame g (List.mem_cons_of_mem f hg)) fun e ↦ hnf (e ▸ hg))
        · rw [List.getElem?_append_right hi', List.getElem?_singleton] at hi
          split at hi
          · next hzero =>
            obtain rfl := Option.some.inj hi
            obtain rfl : i = done.length := by omega
            rw [List.length_append, hlen] at hlt
            exact (marked_writePattern (by omega)).congr (hbyte f hff)
          · cases hi)
      hlt (Nat.lt_of_succ_lt_succ hfuel)
    refine ⟨g, frames, k', hcons, ?_, hspec⟩
    rw [hlen] at hrun
    rw [applyPatterns, hret, if_neg, hrun]
    rw [compare_eq_zero_iff]
    exact fun hp ↦ hclean f List.mem_cons_self
      ((hasPattern_congr fun a _ ↦ by rw [MMU.allocFrame_mem]).1 hp)

/-- One check of the third part: it passes, the frame goes to the end, and all marks stay. -/
theorem checkPatterns_step {res : ℕ} {todo done : List ℕ} (h : FreeInOrder k (todo ++ done))
    (hf : Frames (res :: (todo ++ done)))
    (hmarked : ∀ i f, (done ++ res :: todo)[i]? = some f → Marked k f i) (n : ℕ) :
    let k₁ := MMU.freeFrame k res
    checkPatterns (n + 1) done.length res k =
        checkPatterns n (done.length + 1) (MMU.allocFrame k₁).1 (MMU.allocFrame k₁).2 ∧
      FreeInOrder k₁ (todo ++ (done ++ [res])) ∧
      ∀ i f, (done ++ res :: todo)[i]? = some f → Marked (MMU.allocFrame k₁).2 f i := by
  intro k₁
  have hall : Frames (done ++ res :: todo) :=
    hf.perm (List.perm_middle.trans (List.Perm.cons res List.perm_append_comm))
  have hkept (i g : ℕ) (hi : (done ++ res :: todo)[i]? = some g) : Marked k₁ g i :=
    (hmarked i g hi).congr fun a ha ↦
      byteAt_freeFrame h hf (hall.isFrame g (List.mem_of_getElem? hi)) ha
  obtain ⟨hpattern, hcycle⟩ := hkept done.length res (by simp)
  have hpass : ¬(compare k₁ res ≠ 0 ∨ intAt k₁.mem (cycleAddr res) ≠ done.length) := by
    rw [not_or, not_not, not_not]
    exact ⟨compare_eq_zero_iff.2 hpattern, hcycle⟩
  have hfree := h.freeFrame hf
  rw [List.append_assoc] at hfree
  refine ⟨by rw [checkPatterns, if_neg hpass], hfree, fun i f hi ↦ ?_⟩
  exact (hkept i f hi).congr fun a _ ↦ by rw [MMU.allocFrame_mem]

/-- **The third part** finds no failure: `res` is the next frame and `done` those behind it. -/
theorem checkPatterns_spec {res : ℕ} (todo done : List ℕ) (h : FreeInOrder k (todo ++ done))
    (hf : Frames (res :: (todo ++ done)))
    (hmarked : ∀ i f, (done ++ res :: todo)[i]? = some f → Marked k f i) :
    ∃ f frames k', done ++ res :: todo = f :: frames ∧
      checkPatterns (todo.length + 1) done.length res k = ([], f, k') ∧ FreeInOrder k' frames := by
  induction todo generalizing k res done with
  | nil =>
    obtain ⟨hstep, hfree, -⟩ := checkPatterns_step h hf hmarked 0
    obtain ⟨f, frames, hcons⟩ := List.exists_cons_of_ne_nil
      (List.append_ne_nil_of_right_ne_nil done (List.cons_ne_nil res []))
    rw [List.nil_append, hcons] at hfree
    obtain ⟨hret, hrest⟩ := hfree.allocFrame
    refine ⟨f, frames, _, hcons, ?_, hrest⟩
    rw [List.length_nil, hstep, checkPatterns, hret]
  | cons g todo ih =>
    obtain ⟨hstep, hfree, hmarked'⟩ := checkPatterns_step h hf hmarked (todo.length + 1)
    have hfree : FreeInOrder (MMU.freeFrame k res) (g :: (todo ++ (done ++ [res]))) := hfree
    obtain ⟨hret, hrest⟩ := hfree.allocFrame
    have hsplit : done ++ res :: g :: todo = done ++ [res] ++ g :: todo := by simp
    have hlen : (done ++ [res]).length = done.length + 1 := List.length_append
    rw [hsplit] at hmarked' ⊢
    obtain ⟨f, frames, k', hcons, hrun, hrest'⟩ := ih (done ++ [res]) hrest (hf.perm (by
      rw [← List.append_assoc, ← List.cons_append]
      exact List.perm_append_singleton res (g :: (todo ++ done)))) hmarked'
    rw [hlen] at hrun
    refine ⟨f, frames, k', hcons, ?_, hrest'⟩
    rw [List.length_cons, hstep, hret]
    exact hrun

end Patterns

/-- **The stress test passes.** When there are enough free frames for the first part and none of
them has the pattern beforehand, the test returns: it has put the pattern on every free frame, it
has found no failure, and all frames are free again. They have been rotated. -/
theorem stress_test_passes {k : Machine} {frames : List ℕ} (h : FreeInOrder k frames)
    (hf : Frames frames) (hle : pageBuffLen ≤ frames.length) (hlt : frames.length < 2 ^ 31)
    (hclean : ∀ f ∈ frames, ¬HasPattern k f) {fuel : ℕ} (hfuel : frames.length < fuel) :
    ∃ k', mmuStressTest fuel k = some ⟨frames.length, [], k'⟩ ∧
      FreeInOrder k' (frames.rotate (pageBuffLen * (totalCycles + 1) + 1)) := by
  obtain ⟨hfree, hmem⟩ := largeAllocation_spec (totalCycles + 1) h hf hle
  have hperm := List.rotate_perm frames (pageBuffLen * (totalCycles + 1))
  have hlen : (frames.rotate (pageBuffLen * (totalCycles + 1))).length = frames.length :=
    hperm.length_eq
  rw [← List.rotate_rotate]
  rw [mmuStressTest]
  generalize frames.rotate (pageBuffLen * (totalCycles + 1)) = all at *
  generalize largeAllocation pageBuffLen (totalCycles + 1) k = k₁ at *
  have hne : all ≠ [] := by
    rintro rfl
    rw [← hlen] at hle
    exact absurd hle (by decide)
  obtain ⟨f, L, k₂, hcons, happly, hfree₂, hmarked⟩ := applyPatterns_spec all []
    (by rwa [List.append_nil])
    (by
      rw [List.append_nil]
      exact hf.perm hperm) hne
    (fun g hg hp ↦ hclean g (hperm.subset hg) ((hasPattern_congr fun a ha ↦ byteAt_congr
      (hmem _ (ha.word (hf.isFrame g (hperm.subset hg))))).1 hp))
    (fun i g hi ↦ by cases hi) (by rwa [List.nil_append, hlen]) (by rwa [hlen])
  rw [List.nil_append] at hcons happly hmarked
  subst hcons
  have hframes : Frames (f :: L) := hf.perm hperm
  obtain ⟨g, L', k₃, hcons, hcheck, hfree₃⟩ := checkPatterns_spec L []
    (by rwa [List.append_nil]) (by rwa [List.append_nil]) hmarked
  obtain ⟨rfl, rfl⟩ := List.cons.inj hcons
  refine ⟨MMU.freeFrame k₃ f, ?_, ?_⟩
  · rw [List.length_nil] at happly hcheck
    rw [happly, Option.map_some, List.length_cons, hcheck, ← hlen, List.length_cons]
  · rw [List.rotate_cons_succ, List.rotate_zero]
    exact hfree₃.freeFrame hframes

theorem stress_test_passes_poolOfPages :
    ∃ k', mmuStressTest 201 (poolOfPages 200) = some ⟨200, [], k'⟩ := by
  have hseg := segmentsWellFormed_poolOfPages (n := 200) (by decide) (by decide)
  have hzero (a : ℕ) : byteAt (poolOfPages 200).mem a = 0 :=
    congrArg UInt8.ofNat (Nat.zero_div (256 ^ (a % 8)))
  have hlen : ((poolOfPages 200).mmu.segmentPages [0]).length = 200 := by decide +kernel
  obtain ⟨k', hrun, -⟩ := stress_test_passes
    (⟨_, [], hseg.freeFrames rfl, List.append_nil _⟩ :
      FreeInOrder (poolOfPages 200) ((poolOfPages 200).mmu.segmentPages [0]))
    ⟨fun f hf ↦ hseg.isFrame hf, hseg.segmentPages_nodup⟩ (by rw [hlen]; decide)
    (by rw [hlen]; decide) (fun f _ hp ↦ by
      have hbyte := hp 0 (by decide)
      rw [hzero] at hbyte
      exact absurd hbyte (by decide))
    (show ((poolOfPages 200).mmu.segmentPages [0]).length < 201 by rw [hlen]; decide)
  exact ⟨k', by rw [hrun, hlen]⟩

end StressTest

end Marimba
