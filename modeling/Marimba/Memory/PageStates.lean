import Marimba.Memory.Translation

/-!
# Paging as a map from virtual pages to their states

What the page tables are for: a map that says of every virtual page whether it is unmapped, reserved
or mapped to a frame, next to the queue of free frames. `AbsPaging` is that map with its three
operations, in which there are no tables: reserving a page changes its state and uses up some free
frames, or finds too few of them; a page fault gives a reserved page the next free frame; freeing a
mapped page makes it unmapped.

`PT_demand_allocate`, `page_fault_handler` and `PT_free` refine these operations in every state that
meets the invariant `Paging` (`paging_refines`). The whole map is compared, so every other page,
those of the identity map included, keeps its state.

The proof goes through the entries of the last tables. A new table on the way to a page adds
entries without changing the state of any page (`Paging.newTable`), and a write to the entry of one
page changes the state of this page only (`Paging.storeLeaf`).
-/

namespace Marimba

open RadixTree

/-! ### The abstract operations -/

/-- A virtual page, of the 48 bits of an address. -/
abbrev VirtPage := Fin (2 ^ 36)

/-- The states of all pages and the free frames, in the order in which they are handed out. -/
structure AbsPaging where
  map : VirtPage → PageState
  free : List ℕ

namespace AbsPaging

/-- **Reserving a page** for which `n` tables are missing, with what is returned. A mapped page is
refused. Otherwise the tables take `n` free frames; when there are fewer, all are taken and no page
changes its state. -/
def demand (n : ℕ) (p : VirtPage) (a : AbsPaging) : Int × AbsPaging :=
  match a.map p with
  | .mapped _ => (-1, a)
  | _ =>
    if n ≤ a.free.length then (0, ⟨Function.update a.map p .reserved, a.free.drop n⟩)
    else (-1, ⟨a.map, []⟩)

theorem demand_mapped {n f : ℕ} {p : VirtPage} {a : AbsPaging} (hp : a.map p = .mapped f) :
    a.demand n p = (-1, a) := by
  simp only [demand, hp]

theorem demand_of_ne {n : ℕ} {p : VirtPage} {a : AbsPaging} (hp : ∀ f, a.map p ≠ .mapped f) :
    a.demand n p =
      if n ≤ a.free.length then (0, ⟨Function.update a.map p .reserved, a.free.drop n⟩)
      else (-1, ⟨a.map, []⟩) := by
  rw [demand]
  split
  · next f hf => exact absurd hf (hp f)
  · rfl

/-- **A page fault**: a reserved page gets the next free frame. -/
def fault (p : VirtPage) (a : AbsPaging) : AbsPaging :=
  match a.map p, a.free with
  | .reserved, f :: free => ⟨Function.update a.map p (.mapped f), free⟩
  | _, _ => a

theorem fault_of_ne {p : VirtPage} {a : AbsPaging} (hp : a.map p ≠ .reserved) :
    a.fault p = a := by
  rw [fault]
  split
  · next hres _ => exact absurd hres hp
  · rfl

theorem fault_nil {p : VirtPage} {map : VirtPage → PageState} : fault p ⟨map, []⟩ = ⟨map, []⟩ := by
  rw [fault]
  split
  · next hfree => cases hfree
  · rfl

theorem fault_reserved {p : VirtPage} {map : VirtPage → PageState} {f : ℕ} {free : List ℕ}
    (hp : map p = .reserved) :
    fault p ⟨map, f :: free⟩ = ⟨Function.update map p (.mapped f), free⟩ := by
  simp only [fault, hp]

/-- **Freeing a page**: its frame is returned, not yet free. -/
def release (p : VirtPage) (a : AbsPaging) : AbsPaging :=
  { a with map := Function.update a.map p .unmapped }

end AbsPaging

/-! ### The states of all pages -/

variable {k k' : Machine} {identityP3 identityP2 : ℕ} {free free' held held' frames : List ℕ}
  {v t : ℕ}

/-- The page of an address. -/
def pageOf (v : ℕ) : VirtPage := ⟨v / pageSize % 2 ^ 36, Nat.mod_lt _ (by decide)⟩

/-- The states of all pages. -/
def pageMap (k : Machine) (p : VirtPage) : PageState := pageState k (p * pageSize)

/-- **The invariant**: ownership of frames, the identity map, and no huge pages outside it. -/
structure Paging (identityP3 identityP2 : ℕ) (frames : List ℕ) (k : Machine)
    (free held : List ℕ) : Prop where
  roles : ∃ inSegments queued, inSegments ++ queued = free ∧
    FrameRoles k inSegments queued held frames
  identity : IdentityMap identityP3 identityP2 frames k
  plain : PlainEntries k

theorem leafEntry_congr {u : ℕ} (h : vpath u = vpath v) : leafEntry k u = leafEntry k v := by
  have hoff : ptOffsetForDepth u pageTableDepth = ptOffsetForDepth v pageTableDepth := by
    rw [vpath_eq_take_concat u, vpath_eq_take_concat v] at h
    exact List.singleton_inj.1 (List.append_inj' h rfl).2
  rw [leafEntry, leafEntry, h, hoff]

/-- Addresses on the same path are on the same page. -/
theorem vpath_eq_iff {u : ℕ} : vpath u = vpath v ↔ pageOf u = pageOf v := by
  rw [vpath_eq_iff_mod, pageOf, pageOf, Fin.mk.injEq]

theorem pageOf_mul (p : VirtPage) : pageOf ((p : ℕ) * pageSize) = p := by
  have := p.isLt
  refine Fin.ext ?_
  simp only [pageOf, pageSize]
  omega

/-- The address of a page is on the page. -/
theorem vpath_pageOf (v : ℕ) : vpath ((pageOf v : ℕ) * pageSize) = vpath v :=
  vpath_eq_iff.2 (pageOf_mul _)

theorem dynamic_congr {u : ℕ} (h : vpath u = vpath v) : Dynamic u ↔ Dynamic v := by
  rw [vpath_eq, vpath_eq] at h
  rw [Dynamic, Dynamic, (List.cons.inj h).1]

theorem PageState.ofLeaf_eq_mapped {o : Option ℕ} {f : ℕ} :
    PageState.ofLeaf o = .mapped f ↔ ∃ w, o = some w ∧ PTE.present w = true ∧ pteGetAddr w = f := by
  rcases o with - | w
  · simp [ofLeaf]
  · rw [ofLeaf, ofEntry]
    split
    · next hp => simp [hp]
    · next hp => split <;> simp [hp]

theorem PageState.ofLeaf_eq_reserved {o : Option ℕ} :
    PageState.ofLeaf o = .reserved ↔
      ∃ w, o = some w ∧ PTE.present w = false ∧ PTE.demandAllocate w = true := by
  rcases o with - | w
  · simp [ofLeaf]
  · rw [ofLeaf, ofEntry]
    split
    · next hp => simp [hp]
    · next hp => split <;> simp_all

/-- The entry of a mapped page. -/
theorem leafEntry_of_mapped {f : ℕ} (hf : tableWalk k (vpath v) = some f) :
    ∃ w, leafEntry k v = some w ∧ PTE.present w = true ∧ pteGetAddr w = f := by
  rw [vpath_eq_take_concat] at hf
  obtain ⟨t, ht, hc⟩ := walk_concat_eq_some hf
  obtain ⟨-, -, hp, hw⟩ := child_eq_some_iff.1 hc
  exact ⟨_, by rw [leafEntry, show tableWalk k _ = some t from ht, Option.map_some], hp, hw⟩

/-- The entry of a page is plain if all entries are. -/
theorem PlainEntries.leafEntry {w : ℕ} (h : PlainEntries k) (hw : leafEntry k v = some w) :
    PTE.Plain w := by
  obtain ⟨t, ht, rfl⟩ := Option.map_eq_some_iff.1 hw
  exact h _ (by rw [length_take_vpath]; decide) t ht _ (ptOffsetForDepth_lt (by decide))

theorem TableTree.tableWalk_of_leafEntry (h : TableTree k) (hv : Dynamic v) {f : ℕ}
    (hf : PageState.ofLeaf (leafEntry k v) = .mapped f) : tableWalk k (vpath v) = some f := by
  obtain ⟨w, hw, hp, rfl⟩ := PageState.ofLeaf_eq_mapped.1 hf
  obtain ⟨t, ht, rfl⟩ := Option.map_eq_some_iff.1 hw
  have hnext := h.tableWalk_take_succ hv (d := pageTableDepth) (by decide) ht
  rw [take_vpath_succ (by decide), ← vpath_eq_take_concat, if_pos hp] at hnext
  exact hnext

/-- The entry of a page whose walk stops is not present. -/
theorem TableTree.not_present_of_stop (h : TableTree k) (hv : Dynamic v) {d w : ℕ}
    (hd : d < physicalPageDepth) (ht : tableWalk k ((vpath v).take d) = some t)
    (hp : PTE.present (k.mem (t + 8 * ptOffsetForDepth v d)) = false)
    (hw : leafEntry k v = some w) : PTE.present w ≠ true := by
  obtain ⟨s, hs, rfl⟩ := Option.map_eq_some_iff.1 hw
  rcases (Nat.le_of_lt_succ hd).lt_or_eq with hlt | rfl
  · have hnone : tableWalk k ((vpath v).take (d + 1)) = none := by
      rw [h.tableWalk_take_succ hv hd ht, if_neg (by simp [hp])]
    rw [tableWalk_take_none hlt hnone] at hs
    cases hs
  · rw [ht] at hs
    rw [← Option.some.inj hs, hp]
    exact Bool.false_ne_true

/-- **A new table** changes the state of no page: a new last table is empty. -/
theorem FrameRoles.ofLeaf_newTable {inSegments queued : List ℕ} {g depth : ℕ}
    (h : FrameRoles k inSegments queued (g :: held) frames) (hv : Dynamic v)
    (hd : depth < pageTableDepth) (ht : tableWalk k ((vpath v).take depth) = some t)
    (hp : PTE.present (k.mem (t + 8 * ptOffsetForDepth v depth)) = false) (u : ℕ) :
    PageState.ofLeaf (leafEntry ((initEmptyPageTable k g).store (t + 8 * ptOffsetForDepth v depth)
      (pteSetAddr g)) u) = .ofLeaf (leafEntry k u) := by
  obtain ⟨-, hwalk, hzero, hother⟩ := h.newTable hv hd ht hp
  have hgu : g ∈ inSegments ++ queued ++ g :: held := by simp
  have hgf := h.isFrame_of_mem hgu
  have hdlt : depth < physicalPageDepth := Nat.lt_succ_of_lt hd
  have hnone : tableWalk k ((vpath v).take (depth + 1)) = none := by
    rw [h.owned.tableTree.tableWalk_take_succ hv hdlt ht, if_neg (by simp [hp])]
  have hoff := ptOffsetForDepth_lt (v := u) (d := pageTableDepth) (by decide)
  rw [leafEntry, leafEntry, hwalk _ (by simp)]
  split
  · next he =>
    rw [he, hnone, Option.map_some, Option.map_none, hzero _ hoff]
    rfl
  · rcases hu : tableWalk k ((vpath u).take pageTableDepth) with - | s
    · rfl
    · have hs := h.isFrame_of_tableWalk (by simp) hu
      rw [Option.map_some, Option.map_some, hother _ (fun he ↦ ?_) fun j hj he ↦ ?_]
      · -- an entry of a last table is at depth three
        obtain ⟨rfl, -⟩ := entry_inj hs (h.isFrame_of_tableWalk (by simp) ht) hoff
          (ptOffsetForDepth_lt hdlt.ne) he
        have hlen := congrArg List.length (h.owned.tree _ _ (by simp) (by simp) s hu ht)
        rw [length_take_vpath, List.length_take, vpath_length] at hlen
        simp only [pageTableDepth] at hlen hd
        omega
      · -- the new table was not in use
        obtain ⟨rfl, -⟩ := entry_inj hs hgf hoff hj he
        exact (h.owned.mapped _ (by simp) s hu).2 hgu

namespace Paging

variable (h : Paging identityP3 identityP2 frames k free held)

include h

theorem tableTree : TableTree k := by
  obtain ⟨_, _, -, hroles⟩ := h.roles
  exact hroles.owned.tableTree

theorem isFrame : ∀ f ∈ frames, IsFrame f := by
  obtain ⟨_, _, -, hroles⟩ := h.roles
  exact fun f hf ↦ (hroles.owned.frame f hf).1

/-- A table is one of the frames. -/
theorem mem_frames {p : List ℕ} (hp : p.length ≤ physicalPageDepth)
    (ht : tableWalk k p = some t) : t ∈ frames := by
  obtain ⟨_, _, -, hroles⟩ := h.roles
  exact (hroles.owned.mapped p hp t ht).1

/-- The state of a mapped page outside the identity map. -/
theorem pageMap_pageOf (hv : Dynamic v) :
    pageMap k (pageOf v) = .ofLeaf (leafEntry k v) := by
  have hpath := vpath_pageOf v
  rw [pageMap, pageState_of_dynamic h.tableTree h.plain ((dynamic_congr hpath).2 hv),
    leafEntry_congr hpath]

/-- Two states that agree on the entries of the last tables, but for one page. -/
theorem pageMap_eq_update
    (h' : Paging identityP3 identityP2 frames k' free' held') (hv : Dynamic v)
    {st : PageState} (hself : PageState.ofLeaf (leafEntry k' v) = st)
    (hother : ∀ u, vpath u ≠ vpath v →
      PageState.ofLeaf (leafEntry k' u) = .ofLeaf (leafEntry k u)) :
    pageMap k' = Function.update (pageMap k) (pageOf v) st := by
  funext p
  by_cases hp : p = pageOf v
  · rw [hp, Function.update_self, h'.pageMap_pageOf hv, hself]
  · rw [Function.update_of_ne hp, pageMap, pageMap]
    by_cases hu : Dynamic (p * pageSize)
    · rw [pageState_of_dynamic h'.tableTree h'.plain hu,
        pageState_of_dynamic h.tableTree h.plain hu]
      refine hother _ fun he ↦ hp ?_
      rw [← pageOf_mul p, vpath_eq_iff.1 he]
    · rw [pageState, pageState, hwLeaf_of_identity h.identity hu, hwLeaf_of_identity h'.identity hu]

/-- The first entry of the root is not the entry of a dynamic address. -/
theorem cr3_ne_entry (hv : Dynamic v) {d : ℕ} (hd : d < physicalPageDepth)
    (ht : tableWalk k ((vpath v).take d) = some t) : k.cr3 ≠ t + 8 * ptOffsetForDepth v d := by
  intro he
  have htf := h.isFrame t (h.mem_frames (by simp) ht)
  have hcr3 := h.tableTree.cr3_frame.eq_of_word htf (ptOffsetForDepth_lt hd.ne) he
  refine h.tableTree.not_identity hv ht ⟨hcr3.symm, ?_⟩
  omega

/-- **A write to the entry of a page** changes the state of that page only. -/
theorem storeLeaf (hv : Dynamic v)
    (ht : tableWalk k ((vpath v).take pageTableDepth) = some t) {w : ℕ}
    (hw : PTE.Plain w)
    (hwalk : ∀ q : List ℕ, q.length < physicalPageDepth →
      tableWalk (k.store (t + 8 * ptOffsetForDepth v pageTableDepth) w) q = tableWalk k q)
    (hroles : ∃ inSegments queued, inSegments ++ queued = free' ∧
      FrameRoles (k.store (t + 8 * ptOffsetForDepth v pageTableDepth) w) inSegments queued held'
        frames) :
    Paging identityP3 identityP2 frames (k.store (t + 8 * ptOffsetForDepth v pageTableDepth) w)
        free' held' ∧
      pageMap (k.store (t + 8 * ptOffsetForDepth v pageTableDepth) w) =
        Function.update (pageMap k) (pageOf v) (.ofEntry w) := by
  have hoff := ptOffsetForDepth_lt (v := v) (d := pageTableDepth) (by decide)
  have hmem := h.mem_frames (by simp) ht
  have h' : Paging identityP3 identityP2 frames
      (k.store (t + 8 * ptOffsetForDepth v pageTableDepth) w) free' held' := by
    refine ⟨hroles, h.identity.congr h.isFrame rfl ?_ fun a ha ↦ ?_, fun q hq u hu j hj ↦ ?_⟩
    · exact Function.update_of_ne (h.cr3_ne_entry hv (by decide) ht) _ _
    · exact Function.update_of_ne (ha t hmem _ hoff) _ _
    · rw [hwalk q hq] at hu
      rw [Machine.store_mem, Function.update_apply]
      split
      · exact hw
      · exact h.plain q hq u hu j hj
  have htake : ∀ u, ((vpath u).take pageTableDepth).length < physicalPageDepth := fun u ↦ by
    rw [length_take_vpath]
    decide
  refine ⟨h', h.pageMap_eq_update h' hv ?_ fun u hu ↦ ?_⟩
  · rw [leafEntry, hwalk _ (htake v), ht, Option.map_some, Machine.store_mem, Function.update_self]
    rfl
  · rw [h.tableTree.leafEntry_store_of_ne ht hwalk hu]

/-- **A new table** on the way to a page changes the state of no page. -/
theorem newTable {g depth : ℕ} (hheld : held = g :: held') (hv : Dynamic v)
    (hd : depth < pageTableDepth) (ht : tableWalk k ((vpath v).take depth) = some t)
    (hp : PTE.present (k.mem (t + 8 * ptOffsetForDepth v depth)) = false) :
    let k' := (initEmptyPageTable k g).store (t + 8 * ptOffsetForDepth v depth) (pteSetAddr g)
    Paging identityP3 identityP2 frames k' free held' ∧ pageMap k' = pageMap k ∧
      tableWalk k' ((vpath v).take (depth + 1)) = some g ∧
      ∀ j < pageTableNumEnts, k'.mem (g + 8 * j) = 0 := by
  intro k'
  subst hheld
  obtain ⟨inSegments, queued, rfl, hroles⟩ := h.roles
  obtain ⟨hroles', hwalk, hzero, hother⟩ := hroles.newTable hv hd ht hp
  have hgu : g ∈ inSegments ++ queued ++ g :: held' := by simp
  have hg : g ∈ frames := hroles.owned.unmapped_mem g hgu
  have hgf := hroles.owned.frame g hg
  have hdlt : depth < physicalPageDepth := Nat.lt_succ_of_lt hd
  have hnotg : ∀ {q : List ℕ} {u : ℕ}, q.length ≤ physicalPageDepth → tableWalk k q = some u →
      ∀ i < pageTableNumEnts, ∀ j < pageTableNumEnts, u + 8 * i ≠ g + 8 * j := by
    intro q u hq hu i hi j hj he
    have hug := (entry_inj (hroles.isFrame_of_tableWalk hq hu) hgf.1 hi hj he).1
    exact (hroles.owned.mapped q hq u hu).2 (hug ▸ hgu)
  have hnew : k'.mem (t + 8 * ptOffsetForDepth v depth) = pteSetAddr g := Function.update_self ..
  have h' : Paging identityP3 identityP2 frames k' (inSegments ++ queued) held' := by
    refine ⟨⟨inSegments, queued, rfl, hroles'⟩,
      h.identity.congr h.isFrame rfl ?_ fun a ha ↦ ?_, fun q hq u hu j hj ↦ ?_⟩
    · exact hother _ (h.cr3_ne_entry hv hdlt ht) fun j hj he ↦
        hnotg (q := []) (by simp) rfl 0 (by decide) j hj he
    · exact hother a (ha t (h.mem_frames (by simp) ht) _ (ptOffsetForDepth_lt hdlt.ne)) (ha g hg)
    · rw [hwalk q hq.le] at hu
      split at hu
      · obtain rfl := Option.some.inj hu
        rw [hzero j hj]
        exact .zero
      · by_cases he : u + 8 * j = t + 8 * ptOffsetForDepth v depth
        · rw [he, hnew]
          exact .pteSetAddr hgf.1.1 hgf.2
        · rw [hother _ he (hnotg hq.le hu j hj)]
          exact h.plain q hq u hu j hj
  refine ⟨h', ?_, by rw [hwalk _ (by simp), if_pos rfl], hzero⟩
  have hleaf := hroles.ofLeaf_newTable hv hd ht hp
  rw [h.pageMap_eq_update h' hv (hleaf v) fun u _ ↦ hleaf u, ← h.pageMap_pageOf hv,
    Function.update_eq_self]

/-- Allocating the first free frame. -/
theorem alloc {g : ℕ} (hfree : free = g :: free') :
    (MMU.allocFrame k).1 = g ∧ g ≠ 0 ∧
      Paging identityP3 identityP2 frames (MMU.allocFrame k).2 free' (g :: held) ∧
      pageMap (MMU.allocFrame k).2 = pageMap k := by
  obtain ⟨inSegments, queued, heq, hroles⟩ := h.roles
  rw [hfree] at heq
  obtain ⟨hret, hg, inSegments', queued', hrest, hroles'⟩ := hroles.allocFrame heq
  have hmem := MMU.allocFrame_mem k
  have hcr3 := MMU.allocFrame_cr3 k
  refine ⟨hret, hg, ⟨⟨inSegments', queued', hrest, hroles'⟩, ?_, ?_⟩, ?_⟩
  · exact h.identity.congr h.isFrame hcr3 (by rw [hmem]) fun a _ ↦ by rw [hmem]
  · intro q hq u hu i hi
    rw [hmem]
    exact h.plain q hq u (by rwa [tableWalk_allocFrame] at hu) i hi
  · funext p
    rw [pageMap, pageMap, pageState, pageState, hwLeaf, hwLeaf, hmem, hcr3]

theorem alloc_nil (hfree : free = []) : MMU.allocFrame k = (0, k) := by
  obtain ⟨inSegments, queued, heq, hroles⟩ := h.roles
  obtain ⟨rfl, rfl⟩ := List.append_eq_nil_iff.1 (heq.trans hfree)
  exact MMU.allocFrame_empty hroles.free

end Paging

/-! ### The three operations -/

section Operations

theorem PageState.ofEntry_reserved {w : ℕ} (hp : PTE.present w = false) :
    PageState.ofEntry (setBit w 9 true) = .reserved := by
  rw [PageState.ofEntry, present_setBit_nine, demandAllocate_setBit_nine, hp]
  rfl

theorem PageState.ofEntry_mapped {f : ℕ} (hf : f % pageSize = 0) (hlt : f < mmapPhysicalPagesEnd) :
    PageState.ofEntry (pteSetAddr f) = .mapped f := by
  rw [PageState.ofEntry, present_pteSetAddr, pteGetAddr_pteSetAddr hf hlt]
  rfl

theorem PageState.ofEntry_clearedEntry (w : ℕ) :
    PageState.ofEntry (clearedEntry w) = .unmapped := by
  rw [PageState.ofEntry, present_clearedEntry, clearedEntry, demandAllocate_setBit_nine]
  rfl

/-- The loop of `PT_demand_allocate`, with `n` tables missing: it reserves the page if there are `n`
free frames, and uses up the free frames if not. -/
theorem Paging.demandAllocateFrom (hv : Dynamic v) :
    ∀ (n : ℕ) {depth t : ℕ} {k : Machine} {free : List ℕ}, depth + n = pageTableDepth →
      tableWalk k ((vpath v).take depth) = some t →
      PTE.present (k.mem (t + 8 * ptOffsetForDepth v depth)) = false →
      Paging identityP3 identityP2 frames k free held →
      ∃ r k', PT.demandAllocateFrom v n depth (t + 8 * ptOffsetForDepth v depth) k = (r, k') ∧
        if n ≤ free.length then
          r = 0 ∧ Paging identityP3 identityP2 frames k' (free.drop n) held ∧
            pageMap k' = Function.update (pageMap k) (pageOf v) .reserved
        else r = -1 ∧ Paging identityP3 identityP2 frames k' [] held ∧ pageMap k' = pageMap k
  | 0, depth, t, k, free, hn, ht, hp, h => by
    obtain rfl : depth = pageTableDepth := hn
    have hoff := ptOffsetForDepth_lt (v := v) (d := pageTableDepth) (by decide)
    obtain ⟨inSegments, queued, hfree, hroles⟩ := h.roles
    obtain ⟨hroles', hwalk⟩ := hroles.storeAbsent (by simp) ht hoff hp
      (w := setBit (k.mem (t + 8 * ptOffsetForDepth v pageTableDepth)) 9 true)
      (by rw [present_setBit_nine, hp])
    have hplain := h.plain _ (by simp) t ht _ hoff
    obtain ⟨h', hmap⟩ := h.storeLeaf hv ht (hplain.setBit_nine true)
      (fun q hq ↦ hwalk q hq.le) ⟨inSegments, queued, hfree, hroles'⟩
    refine ⟨0, _, rfl, ?_⟩
    rw [if_pos (Nat.zero_le _), List.drop_zero, hmap, PageState.ofEntry_reserved hp]
    exact ⟨rfl, h', rfl⟩
  | n + 1, depth, t, k, free, hn, ht, hp, h => by
    have hd : depth < pageTableDepth := by omega
    rw [PT.demandAllocateFrom]
    rcases hfree : free with - | ⟨g, rest⟩
    · refine ⟨-1, k, ?_, ?_⟩
      · rw [h.alloc_nil hfree]
        rfl
      · rw [List.length_nil, if_neg (Nat.not_succ_le_zero n)]
        exact ⟨rfl, hfree ▸ h, rfl⟩
    · obtain ⟨hret, hg, hk₁, hmap₁⟩ := h.alloc hfree
      obtain ⟨hk₂, hmap₂, hwalk, hzero⟩ := hk₁.newTable rfl hv hd
        (by rw [tableWalk_allocFrame]; exact ht) (by rw [MMU.allocFrame_mem]; exact hp)
      have hnext : ptGetNextPte ((initEmptyPageTable (MMU.allocFrame k).2 g).store
          (t + 8 * ptOffsetForDepth v depth) (pteSetAddr g)) (t + 8 * ptOffsetForDepth v depth) v
          (depth + 1) = g + 8 * ptOffsetForDepth v (depth + 1) := by
        obtain ⟨_, _, -, hroles⟩ := hk₁.roles
        exact hroles.ptGetNextPte_newTable (h.tableTree.entry_ne_zero ht _)
      obtain ⟨r, k', hrun, hspec⟩ := Paging.demandAllocateFrom hv n
        (show depth + 1 + n = pageTableDepth by omega) hwalk
        (by rw [hzero _ (ptOffsetForDepth_lt (Nat.ne_of_lt (Nat.succ_lt_succ hd)))]; rfl) hk₂
      refine ⟨r, k', ?_, ?_⟩
      · simp only [hret, hg, if_false, hnext, hrun]
      · rw [hmap₂, hmap₁] at hspec
        rw [List.length_cons, List.drop_succ_cons]
        simpa only [Nat.succ_le_succ_iff] using hspec

/-- The tables that are missing on the way to a page. -/
def missingTables (k : Machine) (v : ℕ) : ℕ :=
  (List.range pageTableDepth).countP fun d ↦ (tableWalk k ((vpath v).take (d + 1))).isNone

/-- A walk that stops at depth `d` has the tables above and misses those below. -/
theorem TableTree.missingTables_eq (h : TableTree k) (hv : Dynamic v) {d : ℕ}
    (hd : d < physicalPageDepth) (ht : tableWalk k ((vpath v).take d) = some t)
    (hp : PTE.present (k.mem (t + 8 * ptOffsetForDepth v d)) = false) :
    missingTables k v = pageTableDepth - d := by
  have hnone : tableWalk k ((vpath v).take (d + 1)) = none := by
    rw [h.tableWalk_take_succ hv hd ht, if_neg (by simp [hp])]
  have hiff : ∀ e, (tableWalk k ((vpath v).take (e + 1))).isNone = decide (d ≤ e) := by
    intro e
    by_cases he : d ≤ e
    · rw [tableWalk_take_none (Nat.succ_le_succ he) hnone, decide_eq_true he]
      rfl
    · rw [decide_eq_false he, Option.isNone_eq_false_iff, Option.isSome_iff_ne_none]
      intro hn
      rw [tableWalk_take_none (not_le.1 he) hn] at ht
      cases ht
  simp only [missingTables, hiff]
  simp only [physicalPageDepth] at hd
  obtain rfl | rfl | rfl | rfl : d = 0 ∨ d = 1 ∨ d = 2 ∨ d = 3 := by omega
  all_goals rfl

/-- **`PT_demand_allocate`.** -/
theorem Paging.demandAllocate (h : Paging identityP3 identityP2 frames k free held)
    (hv : Dynamic v) :
    ∃ r k' free', PT.demandAllocate k v = (r, k') ∧
      Paging identityP3 identityP2 frames k' free' held ∧
      AbsPaging.demand (missingTables k v) (pageOf v) ⟨pageMap k, free⟩ =
        (r, ⟨pageMap k', free'⟩) ∧
      ((∃ f, pageMap k (pageOf v) = .mapped f) → k' = k) := by
  have hwalk := ptWalk_spec h.tableTree hv
  have hstate := h.pageMap_pageOf hv
  rw [PT.demandAllocate]
  generalize ptWalk k v = r at hwalk
  cases hwalk with
  | @frame f hf =>
    obtain ⟨w, hw, hp, rfl⟩ := leafEntry_of_mapped hf
    rw [hw, PageState.ofLeaf, PageState.ofEntry, if_pos hp] at hstate
    exact ⟨-1, k, free, by simp, h, AbsPaging.demand_mapped hstate, fun _ ↦ rfl⟩
  | @stop d t hd ht hp =>
    have hnot : ∀ f, pageMap k (pageOf v) ≠ .mapped f := by
      intro f hf
      rw [hstate] at hf
      obtain ⟨w, hw, hpw, -⟩ := PageState.ofLeaf_eq_mapped.1 hf
      exact h.tableTree.not_present_of_stop hv hd ht hp hw hpw
    obtain ⟨r, k', hrun, hspec⟩ := Paging.demandAllocateFrom hv (pageTableDepth - d)
      (by simp only [physicalPageDepth, pageTableDepth] at *; omega) ht hp h
    simp only [Nat.ne_of_lt hd, if_false]
    rw [AbsPaging.demand_of_ne hnot, h.tableTree.missingTables_eq hv hd ht hp]
    split at hspec
    · next hle =>
      obtain ⟨rfl, h', hmap⟩ := hspec
      exact ⟨0, k', _, hrun, h', by rw [if_pos hle, hmap], fun he ↦ absurd he (not_exists.2 hnot)⟩
    · next hgt =>
      obtain ⟨rfl, h', hmap⟩ := hspec
      exact ⟨-1, k', [], hrun, h', by rw [if_neg hgt, hmap], fun he ↦ absurd he (not_exists.2 hnot)⟩

/-- A fault on a page that is not reserved is not handled: the walk reaches a frame, or stops above
the last table, or at an entry without the mark. -/
theorem Paging.pageFaultHandler_of_ne (h : Paging identityP3 identityP2 frames k free held)
    (hv : Dynamic v) (hne : pageMap k (pageOf v) ≠ .reserved) :
    pageFaultHandler k v = k := by
  have hwalk := ptWalk_spec h.tableTree hv
  rw [h.pageMap_pageOf hv] at hne
  rw [pageFaultHandler]
  generalize ptWalk k v = r at hwalk
  cases hwalk with
  | frame hf => simp
  | @stop d t hd ht hp =>
    simp only [Nat.ne_of_lt hd, if_false]
    refine if_pos ?_
    rw [Bool.or_eq_true, Bool.not_eq_true', bne_iff_ne, or_iff_not_imp_left]
    rintro hdem rfl
    refine hne (PageState.ofLeaf_eq_reserved.2 ⟨_, ?_, hp, by simpa using hdem⟩)
    rw [leafEntry, ht, Option.map_some]

/-- A fault on a reserved page. -/
theorem Paging.pageFaultHandler_of_reserved (h : Paging identityP3 identityP2 frames k free held)
    (hv : Dynamic v) (hres : pageMap k (pageOf v) = .reserved) :
    ∃ t, tableWalk k ((vpath v).take pageTableDepth) = some t ∧
      PTE.present (k.mem (t + 8 * ptOffsetForDepth v pageTableDepth)) = false ∧
      pageFaultHandler k v =
        if (MMU.allocFrame k).1 = 0 then (MMU.allocFrame k).2
        else (MMU.allocFrame k).2.store (t + 8 * ptOffsetForDepth v pageTableDepth)
          (pteSetAddr (MMU.allocFrame k).1) := by
  have hwalk := ptWalk_spec h.tableTree hv
  rw [h.pageMap_pageOf hv] at hres
  obtain ⟨w, hw, hpw, hdem⟩ := PageState.ofLeaf_eq_reserved.1 hres
  obtain ⟨s, hs, rfl⟩ := Option.map_eq_some_iff.1 hw
  rw [pageFaultHandler]
  generalize ptWalk k v = r at hwalk
  cases hwalk with
  | frame hf =>
    obtain ⟨w', hw', hp', -⟩ := leafEntry_of_mapped hf
    rw [hw, Option.some.injEq] at hw'
    rw [hw', hp'] at hpw
    cases hpw
  | @stop d t hd ht hp =>
    have hdepth : d = pageTableDepth := by
      rcases (Nat.le_of_lt_succ hd).lt_or_eq with hlt' | hd'
      · have hnone : tableWalk k ((vpath v).take (d + 1)) = none := by
          rw [h.tableTree.tableWalk_take_succ hv hd ht, if_neg (by simp [hp])]
        rw [tableWalk_take_none hlt' hnone] at hs
        cases hs
      · exact hd'
    subst hdepth
    rw [ht, Option.some.injEq] at hs
    subst hs
    refine ⟨t, ht, hp, ?_⟩
    simp only [Nat.ne_of_lt hd, if_false]
    exact if_neg (by simp [hdem])

/-- **`page_fault_handler`.** -/
theorem Paging.pageFaultHandler (h : Paging identityP3 identityP2 frames k free held)
    (hv : Dynamic v) :
    ∃ free', Paging identityP3 identityP2 frames (Marimba.pageFaultHandler k v) free' held ∧
      AbsPaging.fault (pageOf v) ⟨pageMap k, free⟩ =
        ⟨pageMap (Marimba.pageFaultHandler k v), free'⟩ ∧
      (pageMap k (pageOf v) ≠ .reserved ∨ free = [] → Marimba.pageFaultHandler k v = k) := by
  by_cases hres : pageMap k (pageOf v) = .reserved
  · obtain ⟨t, ht, hp, heq⟩ := h.pageFaultHandler_of_reserved hv hres
    rcases hfree : free with - | ⟨g, rest⟩
    · rw [h.alloc_nil hfree, if_pos rfl] at heq
      rw [heq]
      exact ⟨[], hfree ▸ h, AbsPaging.fault_nil, fun _ ↦ rfl⟩
    · obtain ⟨hret, hg, hk₁, hmap₁⟩ := h.alloc hfree
      rw [hret, if_neg hg] at heq
      obtain ⟨inSegments, queued, hlists, hroles⟩ := hk₁.roles
      have hgf := hroles.owned.frame g (hroles.owned.unmapped_mem g (by simp))
      have ht₁ : tableWalk (MMU.allocFrame k).2 ((vpath v).take pageTableDepth) = some t := by
        rw [tableWalk_allocFrame]
        exact ht
      obtain ⟨hroles', hwalk⟩ := hroles.mapPage hv ht₁ (by rw [MMU.allocFrame_mem]; exact hp)
      obtain ⟨h', hmap⟩ := hk₁.storeLeaf hv ht₁ (.pteSetAddr hgf.1.1 hgf.2) hwalk
        ⟨inSegments, queued, hlists, hroles'⟩
      rw [heq]
      refine ⟨rest, h', ?_, ?_⟩
      · rw [AbsPaging.fault_reserved hres, hmap, hmap₁, PageState.ofEntry_mapped hgf.1.1 hgf.2]
      · rintro (hne | hnil)
        · exact absurd hres hne
        · cases hnil
  · have heq := h.pageFaultHandler_of_ne hv hres
    rw [heq]
    exact ⟨free, h, AbsPaging.fault_of_ne hres, fun _ ↦ rfl⟩

/-- **`PT_free`** of a mapped page. -/
theorem Paging.ptFree (h : Paging identityP3 identityP2 frames k free held) (hv : Dynamic v)
    (hal : v % pageSize = 0) {f : ℕ} (hf : pageMap k (pageOf v) = .mapped f) :
    ∃ k', PT.free k v = (f, k') ∧ Paging identityP3 identityP2 frames k' free (f :: held) ∧
      AbsPaging.release (pageOf v) ⟨pageMap k, free⟩ = ⟨pageMap k', free⟩ := by
  rw [h.pageMap_pageOf hv] at hf
  have hwalk : tableWalk k (vpath v) = some f := h.tableTree.tableWalk_of_leafEntry hv hf
  obtain ⟨t, ht, hfree⟩ := PT.free_of_mapped h.tableTree hv hal hwalk
  obtain ⟨inSegments, queued, heq, hroles⟩ := h.roles
  have hoff := ptOffsetForDepth_lt (v := v) (d := pageTableDepth) (by decide)
  obtain ⟨hroles', hunlink⟩ := hroles.unlink (length_take_vpath v) ht
    (by rw [← vpath_eq_take_concat]; exact hwalk)
    (present_clearedEntry (k.mem (t + 8 * ptOffsetForDepth v pageTableDepth)))
  rw [← vpath_eq_take_concat] at hunlink
  obtain ⟨h', hmap⟩ := h.storeLeaf hv ht
    (h.plain _ (by simp) t ht _ hoff).clearedEntry
    (fun q hq ↦ (hunlink q hq.le).trans (if_neg (ne_vpath_of_length hq)))
    ⟨inSegments, queued, heq, hroles'⟩
  refine ⟨_, hfree, h', ?_⟩
  rw [AbsPaging.release, hmap, PageState.ofEntry_clearedEntry]

/-- **Paging refines the map of page states.** In every state that meets the invariant, and for
every address of the heap or of the stacks, the three operations keep the invariant and do to the
states of all pages, and to the free frames, what the abstract operations do. Nothing at all is
changed by reserving a mapped page, and by a fault on a page that is not reserved or with no frame
left. -/
theorem paging_refines (h : Paging identityP3 identityP2 frames k free held)
    (hv : HeapOrStack v) :
    (∃ r k' free', PT.demandAllocate k v = (r, k') ∧
      Paging identityP3 identityP2 frames k' free' held ∧
      AbsPaging.demand (missingTables k v) (pageOf v) ⟨pageMap k, free⟩ =
        (r, ⟨pageMap k', free'⟩) ∧
      ((∃ f, pageMap k (pageOf v) = .mapped f) → k' = k)) ∧
    (∃ free', Paging identityP3 identityP2 frames (pageFaultHandler k v) free' held ∧
      AbsPaging.fault (pageOf v) ⟨pageMap k, free⟩ = ⟨pageMap (pageFaultHandler k v), free'⟩ ∧
      (pageMap k (pageOf v) ≠ .reserved ∨ free = [] → pageFaultHandler k v = k)) ∧
    ∀ f, v % pageSize = 0 → pageMap k (pageOf v) = .mapped f →
      ∃ k', PT.free k v = (f, k') ∧ Paging identityP3 identityP2 frames k' free (f :: held) ∧
        AbsPaging.release (pageOf v) ⟨pageMap k, free⟩ = ⟨pageMap k', free⟩ :=
  ⟨h.demandAllocate hv.dynamic, h.pageFaultHandler hv.dynamic,
    fun _ hal hf ↦ h.ptFree hv.dynamic hal hf⟩

end Operations

/-! ### The invariant after `MMU_init` -/

theorem MMU.initPaging_eq_ok {k₁ : Machine}
    (hinit : MMU.initPaging identityP3 identityP2 k = (0, k₁)) :
    ∃ root k₂, k₁ =
      PT.change (PT.pageTableInit identityP3 (PT.init identityP3 identityP2 k₂) root) root := by
  rw [MMU.initPaging] at hinit
  dsimp only at hinit
  split at hinit
  · cases (Prod.mk.inj hinit).1
  · exact ⟨_, _, (Prod.mk.inj hinit).2.symm⟩

/-- **`MMU_init` establishes the invariant**, when the static tables are outside the segments. -/
theorem paging_initPaging {k₁ : Machine} {idxs : List ℕ} (hseg : SegmentsWellFormed k.mmu idxs)
    (hq : k.mmu.freePageHead = 0) (hend : ∀ f ∈ k.mmu.segmentPages idxs, f < mmapPhysicalPagesEnd)
    (h₃ : StaticTable (k.mmu.segmentPages idxs) identityP3)
    (h₂ : StaticTable (k.mmu.segmentPages idxs) identityP2) (hne : identityP3 ≠ identityP2)
    (hinit : MMU.initPaging identityP3 identityP2 k = (0, k₁)) :
    ∃ free, Paging identityP3 identityP2 (k.mmu.segmentPages idxs) k₁ free [] := by
  obtain ⟨inSegments, queued, hroles⟩ := (inv_initPaging hseg hq hend hinit).owns
  have hcr3 := hroles.owned.mapped [] (by simp) k₁.cr3 rfl
  have hframe := (hroles.owned.frame k₁.cr3 hcr3.1).1
  obtain ⟨root, k₂, rfl⟩ := MMU.initPaging_eq_ok hinit
  exact ⟨inSegments ++ queued, ⟨inSegments, queued, rfl, hroles⟩,
    identityMap_init h₃ h₂ hne hcr3.1 hframe k₂, plainEntries_init h₃ _⟩

/-- The first page of the heap is reserved, in a pool of eight pages. -/
theorem paging_refines_firstPage :
    ∃ free free' k', PT.demandAllocate (MMU.initPaging 0x100000 0x101000 (poolOfPages 8)).2
        mmapKernelHeapStart = (0, k') ∧
      AbsPaging.demand 3 (pageOf mmapKernelHeapStart)
        ⟨pageMap (MMU.initPaging 0x100000 0x101000 (poolOfPages 8)).2, free⟩ =
          (0, ⟨pageMap k', free'⟩) := by
  have hinit : MMU.initPaging 0x100000 0x101000 (poolOfPages 8) =
      (0, (MMU.initPaging 0x100000 0x101000 (poolOfPages 8)).2) := rfl
  obtain ⟨free, h⟩ := paging_initPaging (segmentsWellFormed_poolOfPages (by decide) (by decide)) rfl
    (by decide) ⟨by decide, by decide, by decide⟩ ⟨by decide, by decide, by decide⟩ (by decide)
    hinit
  obtain ⟨⟨r, k', free', hrun, -, habs, -⟩, -⟩ := paging_refines h
    (v := mmapKernelHeapStart) (by decide)
  have hr : (PT.demandAllocate (MMU.initPaging 0x100000 0x101000 (poolOfPages 8)).2
      mmapKernelHeapStart).1 = 0 := by decide +kernel
  have hmissing : missingTables (MMU.initPaging 0x100000 0x101000 (poolOfPages 8)).2
      mmapKernelHeapStart = 3 := by decide +kernel
  rw [hrun] at hr
  rw [hmissing, show r = 0 from hr] at habs
  exact ⟨free, free', k', by rw [hrun, show r = 0 from hr], habs⟩

end Marimba
