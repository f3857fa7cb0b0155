import Marimba.Memory.PageStates
import Marimba.Memory.VirtualRegions
import Mathlib.Data.Finset.Card

/-!
# Whether pages are reserved when they are handed out

A page that is handed out should be **reserved**: `page_fault_handler` gives a frame to the first
access of a page whose entry is marked, and to no other. Marking the entry may need up to three new
tables, and `PT_demand_allocate` says so when there is no frame left for them; but the callers in
`mmu.c` ignore what it returns.

`tablesNeeded` counts the tables that are missing on the way to a list of pages, a table on the way
to several of them once. One call of `PT_demand_allocate` is `Demanded`, a loop of them is
`Asked`, and in every state a run can reach a request reserves the pages it hands out exactly if
there are as many free frames as it needs tables (`reserves_iff`).
-/

namespace Marimba

open RadixTree

variable {k k' k'' : Machine} {free free' held frames : List ℕ} {u v t n : ℕ}

/-! ### Reserved pages -/

/-- **A reserved page**: the walk of the code finds a frame, or it ends at an entry of a last table
and that entry is marked. This is what `page_fault_handler` looks at. -/
def Reserved (k : Machine) (v : ℕ) : Prop :=
  (ptWalk k v).1 = physicalPageDepth ∨
    ((ptWalk k v).1 = pageTableDepth ∧ PTE.demandAllocate (k.mem (ptWalk k v).2) = true)

instance (k : Machine) (v : ℕ) : Decidable (Reserved k v) := inferInstanceAs (Decidable (_ ∨ _))

/-- The state of the page of an address, in the eyes of the code. -/
def leafState (k : Machine) (v : ℕ) : PageState := .ofLeaf (leafEntry k v)

theorem leafState_congr (h : vpath u = vpath v) : leafState k u = leafState k v := by
  rw [leafState, leafState, leafEntry_congr h]

theorem leafState_of_eq (hmem : k'.mem = k.mem) (hcr3 : k'.cr3 = k.cr3) :
    leafState k' = leafState k := by
  funext v
  rw [leafState, leafState, leafEntry, leafEntry, tableWalk_of_eq hmem hcr3, hmem]

theorem TableTree.leafState_of_stop (h : TableTree k) (hv : Dynamic v) {d : ℕ}
    (hd : d < physicalPageDepth) (ht : tableWalk k ((vpath v).take d) = some t)
    (hp : PTE.present (k.mem (t + 8 * ptOffsetForDepth v d)) = false) :
    leafState k v = if d = pageTableDepth then
      .ofEntry (k.mem (t + 8 * ptOffsetForDepth v d)) else .unmapped := by
  rw [leafState, leafEntry]
  split
  · next hdepth =>
    rw [← hdepth, ht]
    rfl
  · next hne =>
    have hnone : tableWalk k ((vpath v).take (d + 1)) = none := by
      rw [h.tableWalk_take_succ hv hd ht, if_neg (by simp [hp])]
    rw [tableWalk_take_none (Nat.lt_of_le_of_ne (Nat.le_of_lt_succ hd) hne) hnone]
    rfl

theorem leafState_of_mapped {f : ℕ} (hf : tableWalk k (vpath v) = some f) :
    leafState k v = .mapped f := by
  obtain ⟨w, hw, hp, rfl⟩ := leafEntry_of_mapped hf
  rw [leafState, hw, PageState.ofLeaf, PageState.ofEntry, if_pos hp]

/-- A reserved page is one that is not unmapped. -/
theorem TableTree.reserved_iff (h : TableTree k) (hv : Dynamic v) :
    Reserved k v ↔ leafState k v ≠ .unmapped := by
  have hwalk := ptWalk_spec h hv
  rw [Reserved]
  generalize ptWalk k v = r at hwalk
  cases hwalk with
  | frame hf => simp [leafState_of_mapped hf]
  | @stop d t hd ht hp =>
    rw [h.leafState_of_stop hv hd ht hp]
    by_cases hdepth : d = pageTableDepth
    · rw [if_pos hdepth, PageState.ofEntry, hp]
      subst hdepth
      rcases PTE.demandAllocate (k.mem (t + 8 * ptOffsetForDepth v pageTableDepth)) <;> simp
    · simp [hdepth, Nat.ne_of_lt hd]

/-! ### The tables on the way -/

/-- The paths of the three tables on the way to a page, below the root. -/
def tablePaths (v : ℕ) : List (List ℕ) :=
  (List.range pageTableDepth).map fun d ↦ (vpath v).take (d + 1)

/-- **The number of tables that are missing** on the way to some pages. -/
def tablesNeeded (k : Machine) (vs : List ℕ) : ℕ :=
  ((vs.flatMap tablePaths).toFinset.filter fun q ↦ tableWalk k q = none).card

theorem mem_tablePaths {q : List ℕ} :
    q ∈ tablePaths v ↔ ∃ d < pageTableDepth, q = (vpath v).take (d + 1) := by
  simp only [tablePaths, List.mem_map, List.mem_range, eq_comm]

theorem length_of_mem_tablePaths {q : List ℕ} (hq : q ∈ tablePaths v) :
    q.length < physicalPageDepth := by
  obtain ⟨d, hd, rfl⟩ := mem_tablePaths.1 hq
  rw [List.length_take, vpath_length]
  simp only [physicalPageDepth, pageTableDepth] at *
  omega

/-- A path to a table on the way to a page whose walk gets as far as the last table. -/
theorem tableWalk_ne_none_of_mem {q : List ℕ} (hq : q ∈ tablePaths v)
    (ht : tableWalk k ((vpath v).take pageTableDepth) = some t) : tableWalk k q ≠ none := by
  obtain ⟨d, hd, rfl⟩ := mem_tablePaths.1 hq
  intro hnone
  rw [tableWalk_take_none hd hnone] at ht
  cases ht

theorem tablePaths_nodup (v : ℕ) : (tablePaths v).Nodup := by
  refine List.Nodup.map_on (fun d hd e he heq ↦ ?_) List.nodup_range
  have hlen := congrArg List.length heq
  rw [List.length_take, List.length_take, vpath_length] at hlen
  simp only [List.mem_range, pageTableDepth] at hd he
  omega

/-- For one page these are the tables missing on the way to it. -/
theorem missingTables_eq_card (k : Machine) (v : ℕ) :
    missingTables k v =
      ((tablePaths v).toFinset.filter fun q ↦ tableWalk k q = none).card := by
  have hfilter : ((tablePaths v).toFinset.filter fun q ↦ tableWalk k q = none) =
      ((tablePaths v).filter fun q ↦ (tableWalk k q).isNone).toFinset := by
    ext q
    simp
  rw [hfilter, List.toFinset_card_of_nodup ((tablePaths_nodup v).filter _),
    ← List.countP_eq_length_filter, tablePaths, List.countP_map]
  rfl

theorem missingTables_eq_zero (ht : tableWalk k ((vpath v).take pageTableDepth) = some t) :
    missingTables k v = 0 := by
  rw [missingTables_eq_card, Finset.card_eq_zero, Finset.filter_eq_empty_iff]
  exact fun q hq ↦ tableWalk_ne_none_of_mem (List.mem_toFinset.1 hq) ht

/-- **One more page** needs the tables that are still missing when those of the others are there. -/
theorem tablesNeeded_concat {vs : List ℕ}
    (hwalk : ∀ q : List ℕ, q.length < physicalPageDepth →
      (tableWalk k' q = none ↔ tableWalk k q = none ∧ ∀ w ∈ vs, q ∉ tablePaths w)) :
    tablesNeeded k (vs ++ [v]) = tablesNeeded k vs + missingTables k' v := by
  rw [tablesNeeded, tablesNeeded, missingTables_eq_card, ← Finset.card_union_of_disjoint]
  · congr 1
    ext q
    simp only [Finset.mem_filter, Finset.mem_union, List.mem_toFinset, List.mem_flatMap,
      List.mem_append, List.mem_singleton, or_and_right, exists_or, exists_eq_left]
    constructor
    · rintro (hold | ⟨hq, hnone⟩)
      · exact Or.inl hold
      · by_cases hold : ∃ w ∈ vs, q ∈ tablePaths w
        · exact Or.inl ⟨hold, hnone⟩
        · refine Or.inr ⟨hq, (hwalk q (length_of_mem_tablePaths hq)).2 ⟨hnone, ?_⟩⟩
          exact fun w hw hmem ↦ hold ⟨w, hw, hmem⟩
    · rintro (hold | ⟨hq, hnone⟩)
      · exact Or.inl hold
      · exact Or.inr ⟨hq, ((hwalk q (length_of_mem_tablePaths hq)).1 hnone).1⟩
  · refine Finset.disjoint_left.2 fun q hold hnew ↦ ?_
    simp only [Finset.mem_filter, List.mem_toFinset, List.mem_flatMap] at hold hnew
    obtain ⟨⟨w, hw, hmem⟩, -⟩ := hold
    exact ((hwalk q (length_of_mem_tablePaths hmem)).1 hnew.2).2 w hw hmem

theorem tablesNeeded_le_concat (k : Machine) (vs : List ℕ) (v : ℕ) :
    tablesNeeded k vs ≤ tablesNeeded k (vs ++ [v]) := by
  refine Finset.card_le_card (Finset.filter_subset_filter _ fun q hq ↦ ?_)
  rw [List.flatMap_append, List.toFinset_append]
  exact Finset.mem_union_left _ hq

/-! ### One page -/

/-- Every frame is owned once, and the free ones are listed in the order in which they are handed
out. -/
def OwnsWith (k : Machine) (free held frames : List ℕ) : Prop :=
  ∃ inSegments queued, inSegments ++ queued = free ∧ FrameRoles k inSegments queued held frames

/-- **A page is asked for** that misses `n` tables. With as many free frames the page is reserved
afterwards and the tables on the way to it are there; with fewer all are used up in vain. No other
page changes its state. -/
structure Demanded (n : ℕ) (k k' : Machine) (v : ℕ) (free free' : List ℕ) : Prop where
  other : ∀ u, vpath u ≠ vpath v → leafState k' u = leafState k u
  enough : n ≤ free.length → free' = free.drop n ∧ leafState k' v ≠ .unmapped ∧
    ∀ q : List ℕ, q.length < physicalPageDepth →
      (tableWalk k' q = none ↔ tableWalk k q = none ∧ q ∉ tablePaths v)
  short : free.length < n → free' = [] ∧ leafState k' v = leafState k v

namespace OwnsWith

theorem tableTree (h : OwnsWith k free held frames) : TableTree k := by
  obtain ⟨_, _, -, hroles⟩ := h
  exact hroles.owned.tableTree

theorem owns (h : OwnsWith k free held frames) : Owns k held frames := by
  obtain ⟨inSegments, queued, -, hroles⟩ := h
  exact ⟨inSegments, queued, hroles⟩

/-- The loop of `PT_demand_allocate`, with `n` tables missing. The induction is on `n`. -/
theorem demandAllocateFrom (hv : Dynamic v) :
    ∀ (n : ℕ) {depth t : ℕ} {k : Machine} {free : List ℕ}, depth + n = pageTableDepth →
      tableWalk k ((vpath v).take depth) = some t →
      PTE.present (k.mem (t + 8 * ptOffsetForDepth v depth)) = false →
      OwnsWith k free held frames →
      ∃ free', OwnsWith
          (PT.demandAllocateFrom v n depth (t + 8 * ptOffsetForDepth v depth) k).2 free' held
          frames ∧
        Demanded n k (PT.demandAllocateFrom v n depth (t + 8 * ptOffsetForDepth v depth) k).2 v
          free free'
  | 0, depth, t, k, free, hn, ht, hp, ⟨inSegments, queued, hfree, hroles⟩ => by
    obtain rfl : depth = pageTableDepth := hn
    have hoff := ptOffsetForDepth_lt (v := v) (d := pageTableDepth) (by decide)
    obtain ⟨hroles', hwalk⟩ := hroles.storeAbsent (by simp) ht hoff hp
      (w := setBit (k.mem (t + 8 * ptOffsetForDepth v pageTableDepth)) 9 true)
      (by rw [present_setBit_nine, hp])
    rw [PT.demandAllocateFrom]
    refine ⟨free, ⟨inSegments, queued, hfree, hroles'⟩, fun u hu ↦ ?_, fun _ ↦ ⟨rfl, ?_, ?_⟩,
      fun hlt ↦ absurd hlt (Nat.not_lt_zero _)⟩
    · rw [leafState, leafState,
        hroles.owned.tableTree.leafEntry_store_of_ne ht (fun q hq ↦ hwalk q hq.le) hu]
    · rw [leafState, leafEntry, hwalk _ (by simp), ht, Option.map_some, Machine.store_mem,
        Function.update_self, PageState.ofLeaf, PageState.ofEntry_reserved hp]
      exact PageState.noConfusion
    · intro q hq
      rw [hwalk q hq.le]
      exact ⟨fun hnone ↦ ⟨hnone, fun hmem ↦ tableWalk_ne_none_of_mem hmem ht hnone⟩, And.left⟩
  | n + 1, depth, t, k, free, hn, ht, hp, ⟨inSegments, queued, hfree, hroles⟩ => by
    have hd : depth < pageTableDepth := by omega
    rw [PT.demandAllocateFrom]
    rcases hcons : free with - | ⟨g, rest⟩
    · have hnil := List.append_eq_nil_iff.1 (hfree.trans hcons)
      rw [hnil.1, hnil.2] at hroles
      rw [MMU.allocFrame_empty hroles.free]
      refine ⟨[], ⟨[], [], rfl, hroles⟩, fun _ _ ↦ rfl, fun hle ↦ ?_, fun _ ↦ ⟨rfl, rfl⟩⟩
      exact absurd hle (Nat.not_succ_le_zero n)
    · obtain ⟨hret, hg, inSegments', queued', hrest, hk₁⟩ := hroles.allocFrame (hfree.trans hcons)
      have ht₁ : tableWalk (MMU.allocFrame k).2 ((vpath v).take depth) = some t := by
        rw [tableWalk_allocFrame]
        exact ht
      have hp₁ : PTE.present ((MMU.allocFrame k).2.mem (t + 8 * ptOffsetForDepth v depth)) =
          false := by
        rw [MMU.allocFrame_mem]
        exact hp
      obtain ⟨hk₂, hwalk, hzero, -⟩ := hk₁.newTable hv hd ht₁ hp₁
      have hleaf := hk₁.ofLeaf_newTable hv hd ht₁ hp₁
      have hgf := hk₁.owned.frame g (hk₁.owned.unmapped_mem g (by simp))
      have hnext : ptGetNextPte ((initEmptyPageTable (MMU.allocFrame k).2 g).store
          (t + 8 * ptOffsetForDepth v depth) (pteSetAddr g)) (t + 8 * ptOffsetForDepth v depth) v
          (depth + 1) = g + 8 * ptOffsetForDepth v (depth + 1) :=
        ptGetNextPte_store (hroles.owned.tableTree.entry_ne_zero ht _) hgf.1.1 hgf.2
      obtain ⟨free', hk', hdem⟩ := demandAllocateFrom hv n
        (show depth + 1 + n = pageTableDepth by omega)
        (by rw [hwalk _ (by simp), if_pos rfl])
        (by rw [hzero _ (ptOffsetForDepth_lt (Nat.ne_of_lt (Nat.succ_lt_succ hd)))]; rfl)
        ⟨inSegments', queued', hrest, hk₂⟩
      have hsame : ∀ u, leafState ((initEmptyPageTable (MMU.allocFrame k).2 g).store
          (t + 8 * ptOffsetForDepth v depth) (pteSetAddr g)) u = leafState k u := fun u ↦
        (hleaf u).trans
          (congrFun (leafState_of_eq (MMU.allocFrame_mem k) (MMU.allocFrame_cr3 k)) u)
      simp only [hret, hg, if_false, hnext]
      refine ⟨free', hk', fun u hu ↦ (hdem.other u hu).trans (hsame u), fun hle ↦ ?_, fun hlt ↦ ?_⟩
      · obtain ⟨hdrop, hres, hpaths⟩ := hdem.enough (Nat.le_of_succ_le_succ hle)
        refine ⟨hdrop, hres, fun q hq ↦ ?_⟩
        -- the new table is on the way to the page
        rw [hpaths q hq, hwalk q hq.le, tableWalk_allocFrame]
        refine and_congr_left fun hmem ↦ ?_
        rw [if_neg fun he ↦ hmem (mem_tablePaths.2 ⟨depth, hd, he⟩)]
      · obtain ⟨hnil, hstate⟩ := hdem.short (Nat.lt_of_succ_lt_succ hlt)
        exact ⟨hnil, hstate.trans (hsame v)⟩

/-- **`PT_demand_allocate`** asks for its page. -/
theorem demandAllocate (h : OwnsWith k free held frames) (hv : Dynamic v) :
    ∃ free', OwnsWith (PT.demandAllocate k v).2 free' held frames ∧
      Demanded (missingTables k v) k (PT.demandAllocate k v).2 v free free' := by
  have hwalk := ptWalk_spec h.tableTree hv
  rw [PT.demandAllocate]
  generalize ptWalk k v = r at hwalk
  cases hwalk with
  | @frame f hf =>
    obtain ⟨t, ht, -⟩ := walk_concat_eq_some (by rw [← vpath_eq_take_concat]; exact hf)
    rw [missingTables_eq_zero ht]
    refine ⟨free, by simpa using h, fun _ _ ↦ by simp, fun _ ↦ ⟨rfl, ?_, fun q _ ↦ ?_⟩,
      fun hlt ↦ absurd hlt (Nat.not_lt_zero _)⟩
    · simp [leafState_of_mapped hf]
    · simp only [if_true]
      exact ⟨fun hnone ↦ ⟨hnone, fun hmem ↦ tableWalk_ne_none_of_mem hmem ht hnone⟩, And.left⟩
  | @stop d t hd ht hp =>
    simp only [Nat.ne_of_lt hd, if_false]
    rw [h.tableTree.missingTables_eq hv hd ht hp]
    refine demandAllocateFrom hv _ ?_ ht hp h
    simp only [physicalPageDepth, pageTableDepth] at *
    omega

/-- Changes outside memory, the root and the free lists are invisible. -/
theorem setIrq (h : OwnsWith k free held frames) (q : IrqState) :
    OwnsWith (k.setIrq q) free held frames := by
  obtain ⟨inSegments, queued, heq, hroles⟩ := h
  exact ⟨inSegments, queued, heq, hroles.of_eq rfl rfl rfl rfl rfl rfl⟩

theorem setHeap (h : OwnsWith k free held frames) (w : ℕ) :
    OwnsWith (k.setHeap w) free held frames := by
  obtain ⟨inSegments, queued, heq, hroles⟩ := h
  exact ⟨inSegments, queued, heq, hroles.of_eq rfl rfl rfl rfl rfl rfl⟩

theorem setStack (h : OwnsWith k free held frames) (w : ℕ) :
    OwnsWith (k.setStack w) free held frames := by
  obtain ⟨inSegments, queued, heq, hroles⟩ := h
  exact ⟨inSegments, queued, heq, hroles.of_eq rfl rfl rfl rfl rfl rfl⟩

end OwnsWith

/-- Any address of a page stands for it. -/
theorem Demanded.page (h : Demanded n k k' v free free') (hu : vpath u = vpath v) :
    Demanded n k k' u free free' := by
  have hpaths : tablePaths u = tablePaths v := by rw [tablePaths, tablePaths, hu]
  refine ⟨fun w hw ↦ h.other w (hu ▸ hw), fun hle ↦ ?_, fun hlt ↦ ?_⟩
  · rw [leafState_congr hu, hpaths]
    exact h.enough hle
  · rw [leafState_congr hu, leafState_congr hu]
    exact h.short hlt

theorem missingTables_congr (hu : vpath u = vpath v) : missingTables k u = missingTables k v := by
  rw [missingTables, missingTables, hu]

/-! ### A list of pages -/

/-- **Pages are asked for one after the other.** With as many free frames as tables are missing all
of them are reserved afterwards, with fewer one of them is not. Other pages keep their state. -/
structure Asked (k k' : Machine) (vs free free' : List ℕ) : Prop where
  other : ∀ u, (∀ v ∈ vs, vpath u ≠ vpath v) → leafState k' u = leafState k u
  enough : tablesNeeded k vs ≤ free.length →
    free.length = tablesNeeded k vs + free'.length ∧ (∀ v ∈ vs, leafState k' v ≠ .unmapped) ∧
    ∀ q : List ℕ, q.length < physicalPageDepth →
      (tableWalk k' q = none ↔ tableWalk k q = none ∧ ∀ v ∈ vs, q ∉ tablePaths v)
  short : free.length < tablesNeeded k vs → ∃ v ∈ vs, leafState k' v = .unmapped

/-- A page that misses a table is unmapped. -/
theorem leafState_of_missingTables (h : 0 < missingTables k v) : leafState k v = .unmapped := by
  rw [leafState, leafEntry]
  rcases ht : tableWalk k ((vpath v).take pageTableDepth) with - | t
  · rfl
  · exact absurd (missingTables_eq_zero ht) h.ne'

namespace Asked

variable {vs free'' : List ℕ}

theorem nil (k : Machine) (free : List ℕ) : Asked k k [] free free := by
  have hzero : tablesNeeded k [] = 0 := rfl
  refine ⟨fun _ _ ↦ rfl, fun _ ↦ ⟨by rw [hzero, Nat.zero_add], by simp, by simp⟩, fun hlt ↦ ?_⟩
  rw [hzero] at hlt
  exact absurd hlt (Nat.not_lt_zero _)

/-- **One more page.** -/
theorem concat (h : Asked k k' vs free free')
    (hdem : Demanded (missingTables k' v) k' k'' v free' free'')
    (hne : ∀ w ∈ vs, vpath w ≠ vpath v) : Asked k k'' (vs ++ [v]) free free'' := by
  have hother : ∀ u, (∀ w ∈ vs ++ [v], vpath u ≠ vpath w) → leafState k'' u = leafState k u :=
    fun u hu ↦ (hdem.other u (hu v (by simp))).trans
      (h.other u fun w hw ↦ hu w (List.mem_append_left _ hw))
  by_cases hvs : tablesNeeded k vs ≤ free.length
  · obtain ⟨hlen, hres, hwalk⟩ := h.enough hvs
    have hsum := tablesNeeded_concat (v := v) hwalk
    refine ⟨hother, fun hle ↦ ?_, fun hlt ↦ ?_⟩
    · obtain ⟨rfl, hv, hpaths⟩ := hdem.enough (by omega)
      refine ⟨by rw [List.length_drop]; omega, fun w hw ↦ ?_, fun q hq ↦ ?_⟩
      · rcases List.mem_append.1 hw with hw | hw
        · rw [hdem.other w (hne w hw)]
          exact hres w hw
        · rw [List.mem_singleton.1 hw]
          exact hv
      · rw [hpaths q hq, hwalk q hq]
        simp only [List.mem_append, List.mem_singleton, or_imp, forall_and, forall_eq, and_assoc]
    · obtain ⟨-, hv⟩ := hdem.short (by omega)
      exact ⟨v, by simp, hv.trans (leafState_of_missingTables (by omega))⟩
  · have hmono := tablesNeeded_le_concat k vs v
    refine ⟨hother, fun hle ↦ absurd (hmono.trans hle) hvs, fun _ ↦ ?_⟩
    obtain ⟨w, hw, hstate⟩ := h.short (not_le.1 hvs)
    exact ⟨w, List.mem_append_left _ hw, (hdem.other w (hne w hw)).trans hstate⟩

/-- The pages are reserved exactly if there were frames for the tables. -/
theorem forall_iff (h : Asked k k' vs free free') :
    (∀ v ∈ vs, leafState k' v ≠ .unmapped) ↔ tablesNeeded k vs ≤ free.length := by
  refine ⟨fun hall ↦ ?_, fun hle ↦ (h.enough hle).2.1⟩
  by_contra hlt
  obtain ⟨v, hv, hstate⟩ := h.short (not_le.1 hlt)
  exact hall v hv hstate

/-- Only memory and the root matter. -/
theorem congr {k₁ k₁' : Machine} (h : Asked k k' vs free free') (hmem : k₁.mem = k.mem)
    (hcr3 : k₁.cr3 = k.cr3) (hmem' : k₁'.mem = k'.mem) (hcr3' : k₁'.cr3 = k'.cr3) :
    Asked k₁ k₁' vs free free' := by
  have hwalk := tableWalk_of_eq hmem hcr3
  have hwalk' := tableWalk_of_eq hmem' hcr3'
  have hneeded : tablesNeeded k₁ vs = tablesNeeded k vs := by simp only [tablesNeeded, hwalk]
  refine ⟨?_, ?_, ?_⟩ <;> rw [leafState_of_eq hmem' hcr3']
  · rw [leafState_of_eq hmem hcr3]
    exact h.other
  · rw [hneeded, hwalk, hwalk']
    exact h.enough
  · rw [hneeded]
    exact h.short

end Asked

/-! ### The requests -/

/-- A list of pages is asked for, and the frames stay owned. -/
def AsksFor (k k' : Machine) (vs free held frames : List ℕ) : Prop :=
  ∃ free', OwnsWith k' free' held frames ∧ Asked k k' vs free free'

namespace AsksFor

variable {vs : List ℕ}

theorem nil (h : OwnsWith k free held frames) : AsksFor k k [] free held frames :=
  ⟨free, h, Asked.nil k free⟩

/-- One page more is asked for, by one of its addresses. -/
theorem demandAllocate (h : AsksFor k k' vs free held frames) (hv : Dynamic v)
    (hu : vpath u = vpath v) (hne : ∀ w ∈ vs, vpath w ≠ vpath u) :
    AsksFor k (PT.demandAllocate k' v).2 (vs ++ [u]) free held frames := by
  obtain ⟨free', hk', hask⟩ := h
  obtain ⟨free'', hk'', hdem⟩ := hk'.demandAllocate hv
  rw [← missingTables_congr hu] at hdem
  exact ⟨free'', hk'', hask.concat (hdem.page hu) hne⟩

theorem setIrq (h : AsksFor k k' vs free held frames) (q : IrqState) :
    AsksFor k (k'.setIrq q) vs free held frames := by
  obtain ⟨free', hk', hask⟩ := h
  exact ⟨free', hk'.setIrq q, hask.congr rfl rfl rfl rfl⟩

theorem of_setIrq {q : IrqState} (h : AsksFor (k.setIrq q) k' vs free held frames) :
    AsksFor k k' vs free held frames := by
  obtain ⟨free', hk', hask⟩ := h
  exact ⟨free', hk', hask.congr rfl rfl rfl rfl⟩

theorem setHeap (h : AsksFor k k' vs free held frames) (w : ℕ) :
    AsksFor k (k'.setHeap w) vs free held frames := by
  obtain ⟨free', hk', hask⟩ := h
  exact ⟨free', hk'.setHeap w, hask.congr rfl rfl rfl rfl⟩

theorem setStack (h : AsksFor k k' vs free held frames) (w : ℕ) :
    AsksFor k (k'.setStack w) vs free held frames := by
  obtain ⟨free', hk', hask⟩ := h
  exact ⟨free', hk'.setStack w, hask.congr rfl rfl rfl rfl⟩

/-- `MMU_alloc_page` asks for the page at the heap pointer. -/
theorem allocPage (h : AsksFor k k' vs free held frames) (hb : InRegions k'.bumps)
    (hend : k'.bumps.1 ≠ mmapKernelHeapEnd) (hne : ∀ w ∈ vs, vpath w ≠ vpath k'.bumps.1) :
    AsksFor k (MMU.allocPage k').2 (vs ++ [k'.bumps.1]) free held frames := by
  obtain ⟨q, hq⟩ := MMU.allocPage_of_ne_end hend
  have hin : HeapOrStack k'.bumps.1 := Or.inr ⟨hb.heap_start, lt_of_le_of_ne hb.heap_end hend⟩
  rw [hq]
  exact (((h.setIrq _).setHeap _).demandAllocate hin.dynamic rfl hne).setIrq q

end AsksFor

/-- The pages from a heap page upward. -/
def heapPages (v n : ℕ) : List ℕ := (List.range n).map fun i ↦ v + pageSize * i

theorem heapPages_succ (v n : ℕ) : heapPages v (n + 1) = heapPages v n ++ [v + pageSize * n] := by
  rw [heapPages, heapPages, List.range_succ, List.map_append, List.map_singleton]

/-- Pages below `v`, of the heap and in front of it, are other pages than `v`. -/
theorem vpath_heapPages_ne {w : ℕ} (hend : v + pageSize * n < mmapKernelHeapEnd)
    (hw : w ∈ heapPages v n) : vpath w ≠ vpath (v + pageSize * n) := by
  obtain ⟨i, hi, rfl⟩ := List.mem_map.1 hw
  rw [List.mem_range] at hi
  rw [Ne, vpath_inj] <;> simp only [pageSize, mmapKernelHeapEnd, p4PteAddresses] at *
  all_goals omega

/-- **The loop of `MMU_alloc_pages`** asks for its pages, if it gets through. -/
theorem OwnsWith.allocMorePages (h : OwnsWith k free held frames) (hb : InRegions k.bumps) :
    ∀ n : ℕ, (MMU.allocMorePages n k).1 = true →
      AsksFor k (MMU.allocMorePages n k).2 (heapPages k.bumps.1 n) free held frames
  | 0, _ => AsksFor.nil h
  | n + 1, hok => by
    have hpos : 0 < k.bumps.1 := lt_of_lt_of_le (by decide) hb.heap_start
    obtain ⟨hiff, hbump⟩ := MMU.allocMorePages_bump hpos hb.heap_end hb.heap_aligned n
    have hb' := (h.owns.allocMorePages hb n).2
    rw [MMU.allocMorePages] at hok ⊢
    dsimp only at hok ⊢
    split at hok
    · next htrue =>
      have hask := h.allocMorePages hb n htrue
      rw [min_eq_left (hiff.1 htrue)] at hbump
      have hend : (MMU.allocMorePages n k).2.bumps.1 ≠ mmapKernelHeapEnd := by
        intro hend
        rw [(MMU.allocPage_bump_end hend).1] at hok
        cases hok
      have hlt : k.bumps.1 + pageSize * n < mmapKernelHeapEnd :=
        hbump ▸ lt_of_le_of_ne hb'.heap_end hend
      rw [if_pos htrue, heapPages_succ, ← hbump]
      refine hask.allocPage hb' hend fun w hw ↦ ?_
      rw [hbump]
      exact vpath_heapPages_ne hlt hw
    · cases hok

/-- The first page and the loop together are one loop. -/
theorem MMU.allocMorePages_succ (k : Machine) : ∀ n : ℕ, MMU.allocMorePages (n + 1) k =
    if (MMU.allocPage k).1 = 0 then (false, (MMU.allocPage k).2)
    else MMU.allocMorePages n (MMU.allocPage k).2
  | 0 => by
    simp only [MMU.allocMorePages, if_true]
    split
    · next hzero => rw [hzero, bne_self_eq_false]
    · next hne => rw [bne_iff_ne.2 hne]
  | n + 1 => by
    rw [MMU.allocMorePages, MMU.allocMorePages_succ k n]
    by_cases hzero : (MMU.allocPage k).1 = 0
    · simp only [hzero, if_true, Bool.false_eq_true, if_false]
    · simp only [hzero, if_false, MMU.allocMorePages]

/-- `MMU_alloc_pages` that returns a run of pages has asked for them. -/
theorem OwnsWith.allocPages (h : OwnsWith k free held frames) (hb : InRegions k.bumps)
    {numPages : ℤ} (hne : (MMU.allocPages k numPages).1 ≠ 0) :
    (MMU.allocPages k numPages).1 = k.bumps.1 ∧
      AsksFor k (MMU.allocPages k numPages).2 (heapPages k.bumps.1 numPages.toNat) free held
        frames := by
  have hpos : 0 < k.bumps.1 := lt_of_lt_of_le (by decide) hb.heap_start
  obtain ⟨hret, -⟩ := MMU.allocPages_bump hpos hb.heap_end hb.heap_aligned numPages
  rw [hret] at hne
  split at hne
  · next hroom =>
    refine ⟨hret.trans (if_pos hroom), ?_⟩
    have hk := h.setIrq (IRQ.disable k.irq)
    obtain ⟨n, hn⟩ : ∃ n, numPages.toNat = n + 1 := ⟨numPages.toNat - 1, by omega⟩
    have hloop := MMU.allocMorePages_succ (k.setIrq (IRQ.disable k.irq)) n
    have hok : (MMU.allocMorePages (n + 1) (k.setIrq (IRQ.disable k.irq))).1 = true :=
      (MMU.allocMorePages_bump (k := k.setIrq (IRQ.disable k.irq)) hpos hb.heap_end hb.heap_aligned
        (n + 1)).1.2 (hn ▸ hroom.2)
    have hask := hk.allocMorePages hb (n + 1) hok
    rw [MMU.allocPages, if_neg (by omega), show (numPages - 1).toNat = n by omega, hn]
    dsimp only
    split at hloop
    · rw [hloop] at hok
      cases hok
    · next hfirst =>
      rw [hloop] at hok hask
      rw [if_neg hfirst, if_pos hok]
      exact hask.of_setIrq.setIrq _
  · exact absurd rfl hne

/-- The pages of a stack, from the top downward. -/
def stackPages (st n : ℕ) : List ℕ := (List.range n).map (stackPage st)

theorem stackPages_succ (st n : ℕ) :
    stackPages st (n + 1) = stackPages st n ++ [stackPage st n] := by
  rw [stackPages, stackPages, List.range_succ, List.map_append, List.map_singleton]

section StackPages

variable {b : ℕ × ℕ} (hb : InRegions b) {i j : ℕ}

include hb

/-- The pages of the next stack, which may lie across the lower end of the region. -/
theorem InRegions.stackPage_bounds (hi : i < kernelThreadStackSizePages) :
    2 ^ 39 ≤ stackPage b.2 i ∧ b.2 - pageSize * i < 2 ^ 48 ∧
      stackPage b.2 i + (pageSize - 8) = b.2 - pageSize * i ∧ stackPage b.2 i % pageSize = 0 := by
  have hstart := hb.stack_start
  obtain ⟨n, hn⟩ := hb.stack
  simp only [stackPage, stackSize, pageSize, kernelThreadStackSizePages, mmapKernelStacksStart,
    mmapKernelStacksEnd, p4PteAddresses] at *
  omega

theorem InRegions.vpath_stackPage (hi : i < kernelThreadStackSizePages) :
    vpath (stackPage b.2 i) = vpath (b.2 - pageSize * i) := by
  obtain ⟨-, hlt, heq, hal⟩ := hb.stackPage_bounds hi
  rw [vpath_inj (by omega) hlt]
  simp only [pageSize] at *
  omega

theorem InRegions.vpath_stackPage_ne (hi : i < kernelThreadStackSizePages) (hj : j < i) :
    vpath (stackPage b.2 j) ≠ vpath (stackPage b.2 i) := by
  obtain ⟨hle, hlt, heq, -⟩ := hb.stackPage_bounds hi
  obtain ⟨-, hlt', heq', -⟩ := hb.stackPage_bounds (hj.trans hi)
  rw [Ne, vpath_inj (by omega) (by omega)]
  simp only [pageSize] at *
  omega

end StackPages

/-- **The loop of `MMU_alloc_stack`** asks for its pages. -/
theorem OwnsWith.reserveStackPages (h : OwnsWith k free held frames) (hb : InRegions k.bumps) :
    ∀ n ≤ kernelThreadStackSizePages,
      AsksFor k (MMU.reserveStackPages n k) (stackPages k.bumps.2 n) free held frames
  | 0, _ => AsksFor.nil h
  | n + 1, hn => by
    obtain ⟨hle, hlt, heq, hal⟩ := hb.stackPage_bounds hn
    have hword : k.mmu.nextKernelThreadStackVaddr < wordSize :=
      hb.stack_lt.trans (by norm_num [wordSize])
    have hstack : (MMU.reserveStackPages n k).mmu.nextKernelThreadStackVaddr =
        k.bumps.2 - pageSize * n :=
      congrArg Prod.snd (MMU.reserveStackPages_bumps hword n (by
        show pageSize * n ≤ k.bumps.2
        simp only [pageSize] at *
        omega))
    rw [MMU.reserveStackPages, MMU.reserveStackPage, stackPages_succ, hstack]
    refine ((h.reserveStackPages hb n (by omega)).demandAllocate ?_ (hb.vpath_stackPage hn)
      fun w hw ↦ ?_).setStack _
    · exact dynamic_of_le (by omega) hlt
    · obtain ⟨j, hj, rfl⟩ := List.mem_map.1 hw
      exact hb.vpath_stackPage_ne hn (List.mem_range.1 hj)

/-! ### When a request reserves its pages -/

/-- The bump pointer from which a call takes its pages. -/
def VirtCmd.pointer (k : Machine) : VirtCmd → ℕ
  | .allocStack => k.mmu.nextKernelThreadStackVaddr
  | _ => k.mmu.nextKernelHeapVaddr

/-- **A call that returns an address has asked for the pages it returns.** -/
theorem OwnsWith.virtCmd_run (h : OwnsWith k free held frames) (hb : InRegions k.bumps)
    (c : VirtCmd) (hne : (c.run k).1 ≠ 0) :
    (c.run k).1 = c.pointer k ∧
      AsksFor k (c.run k).2 (c.pages (c.pointer k)) free held frames ∧
      ∀ v ∈ c.pages (c.pointer k), Dynamic v := by
  have hstart := hb.heap_start
  have hheapPos : k.bumps.1 ≠ 0 := (lt_of_lt_of_le (by decide) hstart).ne'
  have hstackPos : k.bumps.2 ≠ 0 := (lt_of_lt_of_le (by decide) hb.stack_start).ne'
  -- heap pages are in the heap when the call succeeds
  have hheap : ∀ {n : ℕ}, k.bumps.1 + pageSize * n ≤ mmapKernelHeapEnd →
      ∀ v ∈ heapPages k.bumps.1 n, Dynamic v := by
    intro n hroom v hv
    obtain ⟨i, hi, rfl⟩ := List.mem_map.1 hv
    rw [List.mem_range] at hi
    refine HeapOrStack.dynamic (Or.inr ⟨by omega, ?_⟩)
    simp only [pageSize, mmapKernelHeapEnd, p4PteAddresses] at *
    omega
  cases c with
  | allocPage =>
    have hpages : VirtCmd.allocPage.pages (VirtCmd.pointer k .allocPage) = [k.bumps.1] :=
      if_neg hheapPos
    rw [hpages]
    have hend : k.bumps.1 ≠ mmapKernelHeapEnd := fun hend ↦ hne (MMU.allocPage_bump_end hend).1
    have hask := (AsksFor.nil h).allocPage hb hend (by simp)
    refine ⟨(MMU.allocPage_bump hend).1, hask, fun v hv ↦ ?_⟩
    have hlt := lt_of_le_of_ne hb.heap_end hend
    rw [List.mem_singleton.1 hv]
    exact HeapOrStack.dynamic (Or.inr ⟨hstart, hlt⟩)
  | allocPages numPages =>
    have hpages : (VirtCmd.allocPages numPages).pages (VirtCmd.pointer k (.allocPages numPages)) =
        heapPages k.bumps.1 numPages.toNat := if_neg hheapPos
    rw [hpages]
    obtain ⟨hret, hask⟩ := h.allocPages hb hne
    refine ⟨hret, hask, hheap ?_⟩
    have hbump := (MMU.allocPages_bump (Nat.pos_of_ne_zero hheapPos) hb.heap_end hb.heap_aligned
      numPages).1
    by_contra hroom
    exact hne (hbump.trans (if_neg fun hcond ↦ hroom hcond.2))
  | allocStack =>
    have hpages : VirtCmd.allocStack.pages (VirtCmd.pointer k .allocStack) =
        stackPages k.bumps.2 kernelThreadStackSizePages := if_neg hstackPos
    rw [hpages]
    obtain ⟨q, heq, -⟩ := MMU.allocStack_of_inRegions hb
    have hask := (h.setIrq (IRQ.disable k.irq)).reserveStackPages hb _ le_rfl
    refine ⟨congrArg Prod.fst heq, ?_, fun v hv ↦ ?_⟩
    · rw [VirtCmd.run, heq]
      exact hask.of_setIrq.setIrq q
    · obtain ⟨i, hi, rfl⟩ := List.mem_map.1 hv
      obtain ⟨hle, hlt, hpage, -⟩ := hb.stackPage_bounds (List.mem_range.1 hi)
      exact dynamic_of_le hle (by omega)

/-- In a state in which every frame is owned once. -/
theorem OwnsWith.forall_reserved_iff (h : OwnsWith k free held frames) (hb : InRegions k.bumps)
    (c : VirtCmd) (hne : (c.run k).1 ≠ 0) :
    (∀ v ∈ c.pages (c.run k).1, Reserved (c.run k).2 v) ↔
      tablesNeeded k (c.pages (c.pointer k)) ≤ free.length := by
  obtain ⟨hret, ⟨free', hk', hask⟩, hdyn⟩ := h.virtCmd_run hb c hne
  rw [hret, ← hask.forall_iff]
  exact forall₂_congr fun v hv ↦ hk'.tableTree.reserved_iff (hdyn v hv)

theorem IsFreeList.ownsWith (hfree : IsFreeList k free) (h : Owns k held frames) :
    OwnsWith k free held frames := by
  obtain ⟨inSegments, queued, hroles⟩ := h
  exact ⟨inSegments, queued, IsFreeList.unique ⟨_, _, hroles.free, rfl⟩ hfree, hroles⟩

/-- **When a request reserves the pages it hands out.** In every state a run can reach after
`MMU_init`, with any number of free frames, and for every request that returns an address: exactly
if there are as many free frames as tables are missing on the way to its pages. -/
theorem reserves_iff {k₁ : Machine} {idxs : List ℕ} {identityP3 identityP2 : ℕ}
    (hseg : SegmentsWellFormed k.mmu idxs) (hq : k.mmu.freePageHead = 0)
    (hend : ∀ f ∈ k.mmu.segmentPages idxs, f < mmapPhysicalPagesEnd)
    (hinit : MMU.initPaging identityP3 identityP2 k = (0, k₁)) {cmds : List MemCmd}
    {out : List ℕ} {s : MemSystem}
    (hrun : runTrace MemSystem.step ⟨k₁, [], []⟩ cmds = some (out, s))
    (hfree : IsFreeList s.machine free) (c : VirtCmd) (hne : (c.run s.machine).1 ≠ 0) :
    (∀ v ∈ c.pages (c.run s.machine).1, Reserved (c.run s.machine).2 v) ↔
      tablesNeeded s.machine (c.pages (c.pointer s.machine)) ≤ free.length := by
  have hinv := MemSystem.inv_runTrace (inv_initPaging hseg hq hend hinit) hrun
  exact (hfree.ownsWith hinv.owns).forall_reserved_iff hinv.regions c hne

/-- Three pages after a stack, in a pool of sixteen pages. -/
theorem reserves_iff_threePages :
    ∃ out s free, runTrace MemSystem.step
        ⟨(MMU.initPaging 0x100000 0x101000 (poolOfPages 16)).2, [], []⟩ [.allocStack] =
          some (out, s) ∧
      IsFreeList s.machine free ∧ ((VirtCmd.allocPages 3).run s.machine).1 ≠ 0 ∧
      ((∀ v ∈ (VirtCmd.allocPages 3).pages ((VirtCmd.allocPages 3).run s.machine).1,
          Reserved ((VirtCmd.allocPages 3).run s.machine).2 v) ↔
        tablesNeeded s.machine ((VirtCmd.allocPages 3).pages
          ((VirtCmd.allocPages 3).pointer s.machine)) ≤ free.length) := by
  have hinit : MMU.initPaging 0x100000 0x101000 (poolOfPages 16) =
      (0, (MMU.initPaging 0x100000 0x101000 (poolOfPages 16)).2) := rfl
  have hseg := segmentsWellFormed_poolOfPages (n := 16) (by decide) (by decide)
  have hret : ((runTrace MemSystem.step
      ⟨(MMU.initPaging 0x100000 0x101000 (poolOfPages 16)).2, [], []⟩ [.allocStack]).map fun r ↦
        ((VirtCmd.allocPages 3).run r.2.machine).1) = some mmapKernelHeapStart := by
    decide +kernel
  obtain ⟨⟨out, s⟩, hrun, hret⟩ := Option.map_eq_some_iff.1 hret
  have hinv := MemSystem.inv_runTrace (inv_initPaging hseg rfl (by decide) hinit) hrun
  obtain ⟨inSegments, queued, hroles⟩ := hinv.owns
  have hfree : IsFreeList s.machine (inSegments ++ queued) := ⟨_, _, hroles.free, rfl⟩
  have hne : ((VirtCmd.allocPages 3).run s.machine).1 ≠ 0 := by
    rw [show ((VirtCmd.allocPages 3).run s.machine).1 = mmapKernelHeapStart from hret]
    decide
  exact ⟨out, s, _, hrun, hfree, hne, reserves_iff hseg rfl (by decide) hinit hrun hfree _ hne⟩

/-- **A page is handed out that is not reserved.** After `MMU_init` two frames are left, and the
first page of the heap misses three tables: its address is returned, and an access to it is not
served. -/
theorem page_not_reserved :
    ∃ k₁, MMU.initPaging 0x100000 0x101000 (poolOfPages 3) = (0, k₁) ∧
      (MMU.allocPage k₁).1 = mmapKernelHeapStart ∧
      ¬Reserved (MMU.allocPage k₁).2 mmapKernelHeapStart ∧
      ¬Reserved (pageFaultHandler (MMU.allocPage k₁).2 mmapKernelHeapStart) mmapKernelHeapStart :=
  ⟨_, rfl, by decide +kernel, by decide +kernel, by decide +kernel⟩

end Marimba
