import Marimba.Memory.VirtualAllocator

/-!
# Who owns a page frame

Page tables, the queue of freed frames and the mapped pages all live in the same pool of frames, and
each part of the memory manager relies on no other part using its frames. `FrameRoles` is the
invariant that makes this precise: the frames are split into those that are free or held by a
client and those that the page tables reach, the tables form a tree, and the link words of the queue
are in free frames.

The memory manager changes ownership in five elementary ways, and each is one lemma:

* `Owns.alloc` — a free frame becomes held;
* `FrameRoles.freeFrame` — a held frame becomes free;
* `FrameRoles.link` — a held frame is entered into a table, as a table or as a page;
* `FrameRoles.unlink` — a page is removed from its table, and its frame becomes held;
* `FrameRoles.store` — a write into a frame that is neither free nor a table changes nothing.

Between an allocation and the moment the frame is put to use, the memory manager itself holds it.
The functions of `paging.c` and `mmu.c` are compositions of these five.
-/

namespace Marimba

open RadixTree

variable {k k' : Machine} {unmapped frames held : List ℕ} {f g t i v : ℕ} {p : List ℕ}

/-- Entries of tables are at different addresses unless table and index agree. -/
theorem entry_inj {t u i j : ℕ} (ht : IsFrame t) (hu : IsFrame u) (hi : i < pageTableNumEnts)
    (hj : j < pageTableNumEnts) (h : t + 8 * i = u + 8 * j) : t = u ∧ i = j := by
  simp only [IsFrame, pageSize, pageTableNumEnts] at *
  omega

/-- The frames `frames` are split into the `unmapped` ones and those the page tables reach, and the
tables form a tree. -/
structure Owned (k : Machine) (unmapped frames : List ℕ) : Prop where
  tree : IsTree (child k) k.cr3 physicalPageDepth
  frame : ∀ f ∈ frames, IsFrame f ∧ f < mmapPhysicalPagesEnd
  nodup : unmapped.Nodup
  unmapped_mem : ∀ f ∈ unmapped, f ∈ frames
  mapped : ∀ p : List ℕ, p.length ≤ physicalPageDepth → ∀ f, tableWalk k p = some f →
    f ∈ frames ∧ f ∉ unmapped
  cover : ∀ f ∈ frames, f ∈ unmapped ∨
    ∃ p : List ℕ, p.length ≤ physicalPageDepth ∧ tableWalk k p = some f

namespace Owned

theorem tableTree (h : Owned k unmapped frames) : TableTree k where
  tree := h.tree
  cr3_frame := (h.frame _ (h.mapped [] (by simp) k.cr3 rfl).1).1
  frame := fun p hp t ht ↦ (h.frame t (h.mapped p hp t ht).1).1

theorem perm {unmapped' : List ℕ} (hp : unmapped.Perm unmapped') (h : Owned k unmapped frames) :
    Owned k unmapped' frames where
  tree := h.tree
  frame := h.frame
  nodup := hp.nodup_iff.1 h.nodup
  unmapped_mem := fun f hf ↦ h.unmapped_mem f (hp.mem_iff.2 hf)
  mapped := fun p hpl f hf ↦
    ⟨(h.mapped p hpl f hf).1, fun hm ↦ (h.mapped p hpl f hf).2 (hp.mem_iff.2 hm)⟩
  cover := fun f hf ↦ (h.cover f hf).imp_left hp.mem_iff.1

end Owned

/-- A frame that is a word of another frame is that frame. -/
theorem IsFrame.eq_of_word {f g j : ℕ} (hf : IsFrame f) (hg : IsFrame g)
    (hj : j < pageTableNumEnts) (h : f = g + 8 * j) : f = g :=
  (entry_inj (i := 0) hf hg (by norm_num) hj (by simpa using h)).1

/-- The link word of an unmapped frame is no table entry. -/
theorem Owned.ne_entry (h : Owned k unmapped frames) (hg : g ∈ unmapped)
    (hp : p.length ≤ physicalPageDepth) (ht : tableWalk k p = some t)
    (hi : i < pageTableNumEnts) : g ≠ t + 8 * i := by
  intro he
  have htf := h.mapped p hp t ht
  have hgf := (h.frame g (h.unmapped_mem g hg)).1
  exact htf.2 (hgf.eq_of_word (h.frame t htf.1).1 hi he ▸ hg)

/-! ### Writes that leave the tables alone -/

/-- `k'` has the same root and the same entries in all tables of `k`. -/
structure SameTables (k k' : Machine) : Prop where
  cr3 : k'.cr3 = k.cr3
  entry : ∀ p : List ℕ, p.length < physicalPageDepth → ∀ t, tableWalk k p = some t →
    ∀ i < pageTableNumEnts, k'.mem (t + 8 * i) = k.mem (t + 8 * i)

/-- An entry only depends on its own word and on which table is the root. -/
theorem child_congr (hcr3 : k'.cr3 = k.cr3)
    (hmem : i < pageTableNumEnts → k'.mem (t + 8 * i) = k.mem (t + 8 * i)) :
    child k' t i = child k t i := by
  by_cases hi : i < pageTableNumEnts
  · simp only [child, hcr3, hmem hi]
  · simp only [child, hi, false_and, if_false]

namespace SameTables

theorem refl (k : Machine) : SameTables k k := ⟨rfl, fun _ _ _ _ _ _ ↦ rfl⟩

/-- The tables reach what they reached. -/
theorem tableWalk (h : SameTables k k') :
    ∀ p : List ℕ, p.length ≤ physicalPageDepth → tableWalk k' p = tableWalk k p := by
  intro p hp
  rw [Marimba.tableWalk, h.cr3]
  exact walk_congr (fun q hq t ht i ↦ child_congr h.cr3 (h.entry q hq t ht i)) p hp

end SameTables

/-- Ownership only depends on what the tables reach. -/
theorem Owned.of_tableWalk (hcr3 : k'.cr3 = k.cr3)
    (hw : ∀ p : List ℕ, p.length ≤ physicalPageDepth → tableWalk k' p = tableWalk k p)
    (h : Owned k unmapped frames) : Owned k' unmapped frames where
  tree := by
    simp only [tableWalk, hcr3] at hw
    rw [hcr3]
    exact h.tree.congr hw
  frame := h.frame
  nodup := h.nodup
  unmapped_mem := h.unmapped_mem
  mapped := fun p hp f hf ↦ h.mapped p hp f (hw p hp ▸ hf)
  cover := fun f hf ↦ (h.cover f hf).imp_right fun ⟨p, hp, hf'⟩ ↦ ⟨p, hp, (hw p hp).trans hf'⟩

theorem Owned.of_sameTables (hs : SameTables k k') (h : Owned k unmapped frames) :
    Owned k' unmapped frames :=
  h.of_tableWalk hs.cr3 hs.tableWalk

/-- A write into a frame that is no table. -/
theorem Owned.sameTables_of_frame (h : Owned k unmapped frames) (hg : IsFrame g)
    (hnot : ∀ p : List ℕ, p.length < physicalPageDepth → tableWalk k p ≠ some g)
    (hcr3 : k'.cr3 = k.cr3)
    (hmem : ∀ a, (∀ i < pageTableNumEnts, a ≠ g + 8 * i) → k'.mem a = k.mem a) :
    SameTables k k' := by
  refine ⟨hcr3, fun p hp t ht i hi ↦ hmem _ fun j hj he ↦ ?_⟩
  have htf := (h.frame t (h.mapped p hp.le t ht).1).1
  exact hnot p hp ((entry_inj htf hg hi hj he).1 ▸ ht)

/-! ### Entering a frame into a table -/

section Link

variable (h : Owned k (g :: unmapped) frames) (hp : p.length < physicalPageDepth)
  (ht : tableWalk k p = some t) (hi : i < pageTableNumEnts) (hmask : ¬(t = k.cr3 ∧ i = 0))
  (habsent : PTE.present (k.mem (t + 8 * i)) = false) (hcr3 : k'.cr3 = k.cr3)
  (hnew : k'.mem (t + 8 * i) = pteSetAddr g)
  (hempty : p.length + 1 < physicalPageDepth → ∀ j < pageTableNumEnts, k'.mem (g + 8 * j) = 0)
  (hother : ∀ a, a ≠ t + 8 * i → (∀ j < pageTableNumEnts, a ≠ g + 8 * j) → k'.mem a = k.mem a)

include h hp ht hi hmask habsent hcr3 hnew hempty hother

/-- What the tables reach after a held frame has been entered at an empty entry: one path more. -/
theorem Owned.tableWalk_link : ∀ q : List ℕ, q.length ≤ physicalPageDepth →
    tableWalk k' q = if q = p ++ [i] then some g else tableWalk k q := by
  have hg : g ∈ g :: unmapped := List.mem_cons_self
  have hgf := h.frame g (h.unmapped_mem g hg)
  intro q hq
  rw [tableWalk, hcr3]
  refine walk_insert h.tree hp ht ?_ ?_ ?_ ?_ q hq
  · simp [child, habsent]
  · rw [child_eq_some_iff, hcr3, hnew]
    exact ⟨hi, hmask, present_pteSetAddr, pteGetAddr_pteSetAddr hgf.1.1 hgf.2⟩
  · intro hlen j
    by_cases hj : j < pageTableNumEnts
    · simp [child, hempty hlen j hj, PTE.present, getBit]
    · simp [child, hj]
  · intro r hr u hu j hne
    refine child_congr hcr3 fun hj ↦ hother _ (fun he ↦ ?_) fun l hl he ↦ ?_
    · have huf := (h.frame u (h.mapped r hr.le u hu).1).1
      have htf := (h.frame t (h.mapped p hp.le t ht).1).1
      have := entry_inj huf htf hj hi he
      tauto
    · have huf := (h.frame u (h.mapped r hr.le u hu).1).1
      have hug := (entry_inj huf hgf.1 hj hl he).1
      exact (h.mapped r hr.le u hu).2 (hug ▸ hg)

theorem Owned.link : Owned k' unmapped frames := by
  have hg : g ∈ g :: unmapped := List.mem_cons_self
  have hgf := h.frame g (h.unmapped_mem g hg)
  have hgu : g ∉ unmapped := (List.nodup_cons.1 h.nodup).1
  have hwalk := h.tableWalk_link hp ht hi hmask habsent hcr3 hnew hempty hother
  have hlen : (p ++ [i]).length ≤ physicalPageDepth := by
    rw [List.length_append, List.length_singleton]
    exact hp
  refine ⟨?_, h.frame, (List.nodup_cons.1 h.nodup).2,
    fun f hf ↦ h.unmapped_mem f (List.mem_cons_of_mem g hf), fun q hq f hf ↦ ?_, fun f hf ↦ ?_⟩
  · simp only [tableWalk, hcr3] at hwalk
    rw [hcr3]
    exact h.tree.insert hwalk fun q hq hw ↦ (h.mapped q hq g hw).2 hg
  · rw [hwalk q hq] at hf
    split at hf
    · obtain rfl := Option.some.inj hf
      exact ⟨h.unmapped_mem g hg, hgu⟩
    · exact ⟨(h.mapped q hq f hf).1, fun hm ↦ (h.mapped q hq f hf).2 (List.mem_cons_of_mem g hm)⟩
  · rcases h.cover f hf with hm | ⟨q, hq, hw⟩
    · rcases List.mem_cons.1 hm with rfl | hm
      · exact Or.inr ⟨p ++ [i], hlen, by rw [hwalk _ hlen, if_pos rfl]⟩
      · exact Or.inl hm
    · refine Or.inr ⟨q, hq, ?_⟩
      rw [hwalk q hq, if_neg, hw]
      -- the entry was empty, so its path reached nothing
      rintro rfl
      obtain ⟨t', ht', hc⟩ := walk_concat_eq_some hw
      rw [show walk (child k) k.cr3 p = some t from ht, Option.some.injEq] at ht'
      rw [← ht', child_eq_some_iff, habsent] at hc
      exact absurd hc.2.2.1 (by simp)

end Link

/-! ### Removing a page from its table -/

section Unlink

variable (h : Owned k unmapped frames) (hp : p.length = pageTableDepth)
  (ht : tableWalk k p = some t) (hf : tableWalk k (p ++ [i]) = some f) (hcr3 : k'.cr3 = k.cr3)
  (habsent : PTE.present (k'.mem (t + 8 * i)) = false)
  (hother : ∀ a, a ≠ t + 8 * i → k'.mem a = k.mem a)

include h hp ht hf hcr3 habsent hother

/-- What the tables reach after an entry of a last table has been cleared: one path less. -/
theorem Owned.tableWalk_unlink : ∀ q : List ℕ, q.length ≤ physicalPageDepth →
    tableWalk k' q = if q = p ++ [i] then none else tableWalk k q := by
  have hi : i < pageTableNumEnts := by
    obtain ⟨t', ht', hc⟩ := walk_concat_eq_some hf
    exact (child_eq_some_iff.1 hc).1
  intro q hq
  rw [tableWalk, hcr3]
  refine walk_erase h.tree (by rw [hp]) ht ?_ ?_ q hq
  · simp [child, habsent]
  · intro r hr u hu j hne
    refine child_congr hcr3 fun hj ↦ hother _ fun he ↦ ?_
    have huf := (h.frame u (h.mapped r hr.le u hu).1).1
    have htf := (h.frame t (h.mapped p (by rw [hp]; decide) t ht).1).1
    have := entry_inj huf htf hj hi he
    tauto

theorem Owned.unlink : Owned k' (f :: unmapped) frames := by
  have hwalk := h.tableWalk_unlink hp ht hf hcr3 habsent hother
  have hlen : (p ++ [i]).length ≤ physicalPageDepth := by
    rw [List.length_append, List.length_singleton, hp]
  obtain ⟨hff, hfu⟩ := h.mapped _ hlen f hf
  refine ⟨?_, h.frame, List.nodup_cons.2 ⟨hfu, h.nodup⟩, fun x hx ↦ ?_, fun q hq x hx ↦ ?_,
    fun x hx ↦ ?_⟩
  · simp only [tableWalk, hcr3] at hwalk
    rw [hcr3]
    exact h.tree.erase hwalk
  · rcases List.mem_cons.1 hx with rfl | hx
    · exact hff
    · exact h.unmapped_mem x hx
  · rw [hwalk q hq] at hx
    split at hx
    · cases hx
    · next hne =>
      obtain ⟨hxf, hxu⟩ := h.mapped q hq x hx
      refine ⟨hxf, fun hm ↦ ?_⟩
      rcases List.mem_cons.1 hm with rfl | hm
      · exact hne (h.tree q (p ++ [i]) hq hlen x hx hf)
      · exact hxu hm
  · rcases h.cover x hx with hm | ⟨q, hq, hw⟩
    · exact Or.inl (List.mem_cons_of_mem f hm)
    · by_cases hqe : q = p ++ [i]
      · subst hqe
        rw [hf, Option.some.injEq] at hw
        exact Or.inl (hw ▸ List.mem_cons_self)
      · exact Or.inr ⟨q, hq, by rw [hwalk q hq, if_neg hqe, hw]⟩

end Unlink

/-! ### Free frames and owned frames together -/

/-- **The ownership invariant**, with the two free lists spelled out: what the allocator's lists
contain and what is held are exactly the frames the page tables do not reach. -/
structure FrameRoles (k : Machine) (inSegments queued held frames : List ℕ) : Prop where
  free : FreeFrames k inSegments queued
  owned : Owned k (inSegments ++ queued ++ held) frames

/-- The invariant for some content of the free lists. -/
def Owns (k : Machine) (held frames : List ℕ) : Prop :=
  ∃ inSegments queued, FrameRoles k inSegments queued held frames

variable {inSegments queued : List ℕ}

namespace FrameRoles

theorem perm {held' : List ℕ} (hp : held.Perm held')
    (h : FrameRoles k inSegments queued held frames) :
    FrameRoles k inSegments queued held' frames :=
  ⟨h.free, h.owned.perm (List.Perm.append_left _ hp)⟩

/-- A queued frame is unmapped. -/
theorem mem_of_queued {q : ℕ} (hq : q ∈ queued) : q ∈ inSegments ++ queued ++ held :=
  List.mem_append_left _ (List.mem_append_right _ hq)

theorem isFrame_of_mem (h : FrameRoles k inSegments queued held frames)
    (hf : f ∈ inSegments ++ queued ++ held) : IsFrame f :=
  (h.owned.frame f (h.owned.unmapped_mem f hf)).1

theorem isFrame_of_tableWalk (h : FrameRoles k inSegments queued held frames)
    (hp : p.length ≤ physicalPageDepth) (hf : tableWalk k p = some f) : IsFrame f :=
  (h.owned.frame f (h.owned.mapped p hp f hf).1).1

/-- A held frame is not free. -/
theorem not_queued_of_held (h : FrameRoles k inSegments queued held frames) (hf : f ∈ held) :
    f ∉ queued := by
  have hnd := h.owned.nodup
  rw [List.nodup_append] at hnd
  exact fun hq ↦ hnd.2.2 f (List.mem_append_right _ hq) f hf rfl

/-- **Freeing**: a held frame joins the queue, and no table is touched. -/
theorem freeFrame (h : FrameRoles k inSegments queued (f :: held) frames) :
    FrameRoles (MMU.freeFrame k f) inSegments (queued ++ [f]) held frames ∧
      SameTables k (MMU.freeFrame k f) := by
  have hf : f ∈ inSegments ++ queued ++ f :: held := by simp
  have hsame : SameTables k (MMU.freeFrame k f) := by
    refine ⟨MMU.freeFrame_cr3 k f, fun p hp t ht i hi ↦ ?_⟩
    -- a table entry is no link word: links are in unmapped frames
    exact MMU.freeFrame_mem_of_notMem h.free (h.owned.ne_entry hf hp.le ht hi).symm fun hq ↦
      h.owned.ne_entry (mem_of_queued hq) hp.le ht hi rfl
  refine ⟨⟨?_, ?_⟩, hsame⟩
  · exact MMU.freeFrame_freeFrames h.free (h.isFrame_of_mem hf).2.ne'
      (h.not_queued_of_held List.mem_cons_self)
  · refine (h.owned.of_sameTables hsame).perm ?_
    simp

/-- **Writes into a frame that is neither free nor a table**: a client's own business. -/
theorem store (h : FrameRoles k inSegments queued held frames)
    (hnot : ∀ p : List ℕ, p.length < physicalPageDepth → tableWalk k p ≠ some g)
    (hg : g ∈ held ∨ ∃ p : List ℕ, p.length ≤ physicalPageDepth ∧ tableWalk k p = some g)
    (hi : i < pageTableNumEnts) (w : ℕ) :
    FrameRoles (k.store (g + 8 * i) w) inSegments queued held frames := by
  have hgf : IsFrame g := by
    rcases hg with hm | ⟨p, hp, hw⟩
    · exact h.isFrame_of_mem (List.mem_append_right _ hm)
    · exact h.isFrame_of_tableWalk hp hw
  have hlink : ∀ q ∈ queued, q ≠ g + 8 * i := by
    intro q hq he
    have hqg := (h.isFrame_of_mem (mem_of_queued hq)).eq_of_word hgf hi he
    rcases hg with hm | ⟨p, hp, hw⟩
    · exact h.not_queued_of_held hm (hqg ▸ hq)
    · exact (h.owned.mapped p hp g hw).2 (hqg ▸ mem_of_queued hq)
  refine ⟨h.free.congr_mem fun q hq ↦ ?_, h.owned.of_sameTables ?_⟩
  · exact (Function.update_of_ne (hlink q hq) _ _).symm
  · exact h.owned.sameTables_of_frame hgf hnot rfl fun a ha ↦ Function.update_of_ne (ha i hi) _ _

/-- **Changing the flags of an entry that is not present** maps and unmaps nothing. -/
theorem storeAbsent (h : FrameRoles k inSegments queued held frames)
    (hp : p.length < physicalPageDepth) (ht : tableWalk k p = some t) (hi : i < pageTableNumEnts)
    (habsent : PTE.present (k.mem (t + 8 * i)) = false) {w : ℕ} (hw : PTE.present w = false) :
    FrameRoles (k.store (t + 8 * i) w) inSegments queued held frames ∧
      ∀ q : List ℕ, q.length ≤ physicalPageDepth →
        tableWalk (k.store (t + 8 * i) w) q = tableWalk k q := by
  have hother : ∀ a, a ≠ t + 8 * i → (k.store (t + 8 * i) w).mem a = k.mem a :=
    fun a ha ↦ Function.update_of_ne ha _ _
  have hwalk : ∀ q : List ℕ, q.length ≤ physicalPageDepth →
      tableWalk (k.store (t + 8 * i) w) q = tableWalk k q := by
    refine walk_congr fun q _ u _ j ↦ ?_
    by_cases he : u + 8 * j = t + 8 * i
    · simp [child, he, habsent, hw]
    · exact child_congr rfl fun _ ↦ hother _ he
  refine ⟨⟨h.free.congr_mem fun q hq ↦ (hother q ?_).symm,
    h.owned.of_tableWalk (k.store_cr3 _ _) hwalk⟩, hwalk⟩
  exact h.owned.ne_entry (mem_of_queued hq) hp.le ht hi

/-- **Entering a held frame into a table.** The content of the frame itself is irrelevant at the
last level; a new table has to be empty. -/
theorem link (h : FrameRoles k inSegments queued (g :: held) frames)
    (hp : p.length < physicalPageDepth) (ht : tableWalk k p = some t) (hi : i < pageTableNumEnts)
    (hmask : ¬(t = k.cr3 ∧ i = 0)) (habsent : PTE.present (k.mem (t + 8 * i)) = false)
    {mem' : ℕ → ℕ} (hnew : mem' (t + 8 * i) = pteSetAddr g)
    (hempty : p.length + 1 < physicalPageDepth → ∀ j < pageTableNumEnts, mem' (g + 8 * j) = 0)
    (hother : ∀ a, a ≠ t + 8 * i → (∀ j < pageTableNumEnts, a ≠ g + 8 * j) → mem' a = k.mem a) :
    FrameRoles { k with mem := mem' } inSegments queued held frames ∧
      ∀ q : List ℕ, q.length ≤ physicalPageDepth →
        tableWalk { k with mem := mem' } q = if q = p ++ [i] then some g else tableWalk k q := by
  have ho : Owned k (g :: (inSegments ++ queued ++ held)) frames :=
    h.owned.perm (by rw [← List.cons_append]; exact List.perm_middle)
  have hgf := (ho.frame g (ho.unmapped_mem g List.mem_cons_self)).1
  have hgu := (List.nodup_cons.1 ho.nodup).1
  refine ⟨⟨h.free.congr_mem fun q hq ↦ (hother q ?_ fun j hj he ↦ ?_).symm, ?_⟩, ?_⟩
  · exact h.owned.ne_entry (mem_of_queued hq) hp.le ht hi
  · exact hgu ((h.isFrame_of_mem (mem_of_queued hq)).eq_of_word hgf hj he ▸ mem_of_queued hq)
  · exact ho.link hp ht hi hmask habsent rfl hnew hempty hother
  · exact ho.tableWalk_link hp ht hi hmask habsent rfl hnew hempty hother

/-- **Removing a page from its table**: its frame becomes held. -/
theorem unlink (h : FrameRoles k inSegments queued held frames) (hp : p.length = pageTableDepth)
    (ht : tableWalk k p = some t) (hf : tableWalk k (p ++ [i]) = some f) {w : ℕ}
    (habsent : PTE.present w = false) :
    FrameRoles (k.store (t + 8 * i) w) inSegments queued (f :: held) frames ∧
      ∀ q : List ℕ, q.length ≤ physicalPageDepth →
        tableWalk (k.store (t + 8 * i) w) q = if q = p ++ [i] then none else tableWalk k q := by
  have hple : p.length ≤ physicalPageDepth := by rw [hp]; decide
  have hi : i < pageTableNumEnts := by
    obtain ⟨t', ht', hc⟩ := walk_concat_eq_some hf
    exact (child_eq_some_iff.1 hc).1
  have habsent' : PTE.present ((k.store (t + 8 * i) w).mem (t + 8 * i)) = false := by
    simpa using habsent
  have hother : ∀ a, a ≠ t + 8 * i → (k.store (t + 8 * i) w).mem a = k.mem a :=
    fun a ha ↦ Function.update_of_ne ha _ _
  refine ⟨⟨h.free.congr_mem fun q hq ↦ (hother q ?_).symm, ?_⟩,
    h.owned.tableWalk_unlink hp ht hf rfl habsent' hother⟩
  · exact h.owned.ne_entry (mem_of_queued hq) hple ht hi
  · have hunlink : Owned (k.store (t + 8 * i) w) (f :: (inSegments ++ queued ++ held)) frames :=
      h.owned.unlink hp ht hf rfl habsent' hother
    exact hunlink.perm List.perm_middle.symm

/-- Changes outside memory, the root and the free lists are invisible. -/
theorem of_eq (h : FrameRoles k inSegments queued held frames) (hmem : k'.mem = k.mem)
    (hcr3 : k'.cr3 = k.cr3) (hseg : k'.mmu.freeSegments = k.mmu.freeSegments)
    (hhead : k'.mmu.freeSegmentHead = k.mmu.freeSegmentHead)
    (hphead : k'.mmu.freePageHead = k.mmu.freePageHead)
    (hptail : k'.mmu.freePageTail = k.mmu.freePageTail) :
    FrameRoles k' inSegments queued held frames := by
  refine ⟨⟨?_, ?_, ?_⟩, h.owned.of_sameTables ⟨hcr3, fun _ _ _ _ _ _ ↦ by rw [hmem]⟩⟩
  · rw [hseg, hhead]
    exact h.free.segments
  · rw [hmem, hphead]
    exact h.free.queue
  · rw [hptail]
    exact h.free.tail

/-- **Allocating** the first free frame: it becomes held. -/
theorem allocFrame {free : List ℕ} (h : FrameRoles k inSegments queued held frames)
    (heq : inSegments ++ queued = g :: free) :
    (MMU.allocFrame k).1 = g ∧ g ≠ 0 ∧ ∃ inSegments' queued', inSegments' ++ queued' = free ∧
      FrameRoles (MMU.allocFrame k).2 inSegments' queued' (g :: held) frames := by
  obtain ⟨hret, inSegments', queued', hfree', hrest, -⟩ := MMU.allocFrame_cons h.free heq
  have hg : g ∈ inSegments ++ queued ++ held := by simp [heq]
  refine ⟨hret, (h.isFrame_of_mem hg).2.ne', inSegments', queued', hrest, hfree', ?_⟩
  have hsame : SameTables k (MMU.allocFrame k).2 :=
    ⟨MMU.allocFrame_cr3 k, fun _ _ _ _ _ _ ↦ by rw [MMU.allocFrame_mem]⟩
  refine (h.owned.of_sameTables hsame).perm ?_
  rw [heq, hrest]
  exact List.perm_middle.symm

end FrameRoles

namespace Owns

theorem tableTree (h : Owns k held frames) : TableTree k := by
  obtain ⟨_, _, h⟩ := h
  exact h.owned.tableTree

theorem perm {held' : List ℕ} (hp : held.Perm held') (h : Owns k held frames) :
    Owns k held' frames := by
  obtain ⟨inSegments, queued, h⟩ := h
  exact ⟨inSegments, queued, h.perm hp⟩

/-- Changes outside memory, the root and the free lists are invisible. -/
theorem of_eq (h : Owns k held frames) (hmem : k'.mem = k.mem) (hcr3 : k'.cr3 = k.cr3)
    (hseg : k'.mmu.freeSegments = k.mmu.freeSegments)
    (hhead : k'.mmu.freeSegmentHead = k.mmu.freeSegmentHead)
    (hphead : k'.mmu.freePageHead = k.mmu.freePageHead)
    (hptail : k'.mmu.freePageTail = k.mmu.freePageTail) : Owns k' held frames := by
  obtain ⟨inSegments, queued, h⟩ := h
  exact ⟨inSegments, queued, h.of_eq hmem hcr3 hseg hhead hphead hptail⟩

/-- **Allocation**: either nothing is free and nothing changes, or a free frame becomes held. -/
theorem alloc (h : Owns k held frames) :
    MMU.allocFrame k = (0, k) ∨ ∃ g, g ≠ 0 ∧ (MMU.allocFrame k).1 = g ∧
      Owns (MMU.allocFrame k).2 (g :: held) frames := by
  obtain ⟨inSegments, queued, h⟩ := h
  rcases hall : inSegments ++ queued with - | ⟨g, free⟩
  · obtain ⟨rfl, rfl⟩ := List.append_eq_nil_iff.1 hall
    exact Or.inl (MMU.allocFrame_empty h.free)
  · obtain ⟨hret, hg, inSegments', queued', -, h'⟩ := h.allocFrame hall
    exact Or.inr ⟨g, hg, hret, inSegments', queued', h'⟩

end Owns

end Marimba
