import Marimba.Proc.Scheduler

/-!
# Where the processes are

The pointers of the scheduler spell out a ready queue and the wait queues. `QueueShape` ties them to
two ghost values: the lists of processes in each queue, and a function `place` that says of every
process where it is. **Since `place` is a function, no process is in two places**: the disjointness
of all the queues needs no statement of its own.

Besides the queues a process can be `loose` (in none of them by right: it runs, or is about to be
linked in), `free` (its struct is not allocated), or `lost`: in no queue because an insertion into
the ready queue overtook another one. The ready queue is described without its tail pointer, and the
tail pointer by where it may point: `AtEnd` is the normal case, at the last process or at a lost
one, and `Anchored` is what suffices to link a process in.

`QueueShape.link` is the one insertion argument. It covers the protected insertion (`enqueueReady`)
and the third write of the unprotected one, and says exactly which processes the insertion loses.
-/

namespace Marimba

open Links

/-- Where a process is. -/
inductive Place where
  | free
  | loose
  | ready
  | wait (q : ℕ)
  | lost
  deriving DecidableEq, Repr

/-- The nodes of a list of processes. -/
abbrev nodes (ps : List ℕ) : List ProcNode := ps.map .proc

/-- A pointer to the head of the ready queue, to a process in it, or to a lost process. -/
def Anchored (place : ℕ → Place) (x : ProcNode) : Prop :=
  x = .ready ∨ ∃ p, x = .proc p ∧ (place p = .ready ∨ place p = .lost)

/-- A pointer to the last node of the ready queue, or to a lost process. -/
def AtEnd (ready : List ℕ) (place : ℕ → Place) (x : ProcNode) : Prop :=
  x = (nodes ready).getLastD .ready ∨ ∃ p, x = .proc p ∧ place p = .lost

/-- The processes of the list are cut off the ready queue. -/
def cutOff (place : ℕ → Place) (ps : List ℕ) (p : ℕ) : Place :=
  if p ∈ ps then .lost else place p

/-- The pointers spell out these queues, and `place` agrees with them. -/
structure QueueShape (l : Links ProcNode) (ready : List ℕ) (waits : ℕ → List ℕ)
    (place : ℕ → Place) : Prop where
  readyQueue : IsQueue l .ready (nodes ready)
  waitQueues : ∀ q, IsRing l (.wait q) (nodes (waits q))
  mem_ready : ∀ p, p ∈ ready ↔ place p = .ready
  mem_waits : ∀ q p, p ∈ waits q ↔ place p = .wait q

variable {l l' : Links ProcNode} {ready : List ℕ} {waits : ℕ → List ℕ} {place : ℕ → Place}
  {p q : ℕ} {t x : ProcNode}

theorem mem_nodes {ps : List ℕ} : ProcNode.proc p ∈ nodes ps ↔ p ∈ ps := by simp [nodes]

theorem nodes_append (ps qs : List ℕ) : nodes (ps ++ qs) = nodes ps ++ nodes qs :=
  List.map_append

theorem nodes_nodup {ps : List ℕ} : (nodes ps).Nodup ↔ ps.Nodup :=
  List.nodup_map_iff fun _ _ ↦ ProcNode.proc.inj

/-- No insertion links behind a process that is neither in the ready queue nor lost. -/
theorem Anchored.ne_proc (hx : Anchored place x) (hp : ¬(place p = .ready ∨ place p = .lost)) :
    x ≠ .proc p := by
  rintro rfl
  obtain he | ⟨r, he, hr⟩ := hx
  · cases he
  · obtain rfl := ProcNode.proc.inj he
    exact hp hr

/-- The place of such a process may change. -/
theorem Anchored.update {a : Place} (hx : Anchored place x)
    (hp : ¬(place p = .ready ∨ place p = .lost)) : Anchored (Function.update place p a) x := by
  have hne := hx.ne_proc hp
  rcases hx with rfl | ⟨r, rfl, hr⟩
  · exact Or.inl rfl
  · refine Or.inr ⟨r, rfl, ?_⟩
    rwa [Function.update_of_ne fun he ↦ hne (congrArg _ he)]

/-- The place of a process that is not lost may change. -/
theorem AtEnd.update {a : Place} (hx : AtEnd ready place x) (hp : place p ≠ .lost) :
    AtEnd ready (Function.update place p a) x := by
  rcases hx with he | ⟨r, he, hr⟩
  · exact Or.inl he
  · refine Or.inr ⟨r, he, ?_⟩
    rwa [Function.update_of_ne]
    rintro rfl
    exact hp hr

namespace QueueShape

theorem nodup_ready (h : QueueShape l ready waits place) : ready.Nodup :=
  nodes_nodup.1 (List.nodup_cons.1 h.readyQueue.2).2

theorem nodup_waits (h : QueueShape l ready waits place) (q : ℕ) : (waits q).Nodup :=
  nodes_nodup.1 (List.nodup_cons.1 (h.waitQueues q).1.2).2

theorem notMem_ready (h : QueueShape l ready waits place) (hp : place p ≠ .ready) : p ∉ ready :=
  fun hm ↦ hp ((h.mem_ready p).1 hm)

theorem notMem_waits (h : QueueShape l ready waits place) (hp : ∀ q, place p ≠ .wait q) (q : ℕ) :
    p ∉ waits q :=
  fun hm ↦ hp q ((h.mem_waits q p).1 hm)

/-- The ready queue and a wait queue have no node in common. -/
theorem ready_disjoint_wait (h : QueueShape l ready waits place)
    (hx : x ∈ ProcNode.ready :: nodes ready) : x ∉ ProcNode.wait q :: nodes (waits q) := by
  intro hx'
  rcases List.mem_cons.1 hx with rfl | hx
  · simp at hx'
  · obtain ⟨r, hr, rfl⟩ := List.mem_map.1 hx
    have hr' : r ∈ waits q := mem_nodes.1 (by simpa using hx')
    rw [h.mem_waits, (h.mem_ready r).1 hr] at hr'
    cases hr'

/-- Two wait queues have no node in common. -/
theorem wait_disjoint_wait {q' : ℕ} (h : QueueShape l ready waits place) (hne : q' ≠ q)
    (hx : x ∈ ProcNode.wait q' :: nodes (waits q')) : x ∉ ProcNode.wait q :: nodes (waits q) := by
  intro hx'
  rcases List.mem_cons.1 hx with rfl | hx
  · simp [hne] at hx'
  · obtain ⟨r, hr, rfl⟩ := List.mem_map.1 hx
    have hr' : r ∈ waits q := mem_nodes.1 (by simpa using hx')
    rw [h.mem_waits, (h.mem_waits q' r).1 hr] at hr'
    exact hne (Place.wait.inj hr')

theorem anchored_of_atEnd (h : QueueShape l ready waits place) (hx : AtEnd ready place x) :
    Anchored place x := by
  rcases hx with rfl | ⟨p, rfl, hp⟩
  · rcases List.mem_cons.1 (getLastD_mem_cons (nodes ready) .ready) with hr | hr
    · exact Or.inl hr
    · obtain ⟨p, hp, he⟩ := List.mem_map.1 hr
      exact Or.inr ⟨p, he.symm, Or.inl ((h.mem_ready p).1 hp)⟩
  · exact Or.inr ⟨p, rfl, Or.inr hp⟩

/-! ### Writes outside of the queues -/

/-- The queues do not depend on the pointers of processes that are in none of them, nor on the tail
pointer of the ready queue. -/
theorem congr (h : QueueShape l ready waits place)
    (hnext : ∀ x, (∀ p, x = .proc p → place p = .ready ∨ ∃ q, place p = .wait q) →
      l'.next x = l.next x)
    (hprev : ∀ x, (∀ p, x = .proc p → place p = .ready ∨ ∃ q, place p = .wait q) → x ≠ .ready →
      l'.prev x = l.prev x) : QueueShape l' ready waits place := by
  have hready : ∀ p ∈ ready, ∀ p', ProcNode.proc p = .proc p' →
      place p' = .ready ∨ ∃ q, place p' = .wait q := by
    rintro p hp p' ⟨⟩
    exact Or.inl ((h.mem_ready p).1 hp)
  have hwaits : ∀ q, ∀ p ∈ waits q, ∀ p', ProcNode.proc p = .proc p' →
      place p' = .ready ∨ ∃ q, place p' = .wait q := by
    rintro q p hp p' ⟨⟩
    exact Or.inr ⟨q, (h.mem_waits q p).1 hp⟩
  refine ⟨h.readyQueue.congr (fun x hx ↦ ?_) fun x hx ↦ ?_,
    fun q ↦ (h.waitQueues q).congr (fun x hx ↦ ?_) fun x hx ↦ ?_, h.mem_ready, h.mem_waits⟩
  · rcases List.mem_cons.1 hx with rfl | hx
    · exact hnext _ (by simp)
    · obtain ⟨p, hp, rfl⟩ := List.mem_map.1 hx
      exact hnext _ (hready p hp)
  · obtain ⟨p, hp, rfl⟩ := List.mem_map.1 hx
    exact hprev _ (hready p hp) (by simp)
  · rcases List.mem_cons.1 hx with rfl | hx
    · exact hnext _ (by simp)
    · obtain ⟨p, hp, rfl⟩ := List.mem_map.1 hx
      exact hnext _ (hwaits q p hp)
  · rcases List.mem_cons.1 hx with rfl | hx
    · exact hprev _ (by simp) (by simp)
    · obtain ⟨p, hp, rfl⟩ := List.mem_map.1 hx
      exact hprev _ (hwaits q p hp) (by simp)

/-- A process that is in no queue may change its place to another that is no queue. -/
theorem update_place (h : QueueShape l ready waits place) {a : Place}
    (hp : place p ≠ .ready ∧ ∀ q, place p ≠ .wait q) (ha : a ≠ .ready ∧ ∀ q, a ≠ .wait q) :
    QueueShape l ready waits (Function.update place p a) := by
  refine ⟨h.readyQueue, h.waitQueues, fun r ↦ ?_, fun q r ↦ ?_⟩
  · rw [h.mem_ready]
    rcases eq_or_ne r p with rfl | hr
    · rw [Function.update_self]
      exact iff_of_false hp.1 ha.1
    · rw [Function.update_of_ne hr]
  · rw [h.mem_waits]
    rcases eq_or_ne r p with rfl | hr
    · rw [Function.update_self]
      exact iff_of_false (hp.2 q) (ha.2 q)
    · rw [Function.update_of_ne hr]

/-! ### Linking a process in -/

/-- The wait queues do not depend on what an insertion into the ready queue writes. -/
theorem waits_of_link (h : QueueShape l ready waits place) (hp : place p = .loose)
    (ht : Anchored place t) (hnext : ∀ x, x ≠ .proc p → x ≠ t → l'.next x = l.next x)
    (hprev : ∀ x, x ≠ .proc p → x ≠ .ready → l'.prev x = l.prev x) (q : ℕ) :
    IsRing l' (.wait q) (nodes (waits q)) := by
  have hne : ∀ x ∈ ProcNode.wait q :: nodes (waits q), x ≠ .proc p ∧ x ≠ t ∧ x ≠ .ready := by
    intro x hx
    rcases List.mem_cons.1 hx with rfl | hx
    · refine ⟨by simp, fun he ↦ ?_, by simp⟩
      rcases ht with rfl | ⟨r, rfl, -⟩ <;> cases he
    · obtain ⟨r, hr, rfl⟩ := List.mem_map.1 hx
      have hplace := (h.mem_waits q r).1 hr
      refine ⟨?_, fun he ↦ ?_, by simp⟩
      · rintro ⟨⟩
        rw [hp] at hplace
        cases hplace
      · rcases ht with rfl | ⟨r', rfl, hr'⟩
        · cases he
        · cases he
          rcases hr' with hr' | hr' <;> rw [hr'] at hplace <;> cases hplace
  exact (h.waitQueues q).congr (fun x hx ↦ hnext x (hne x hx).1 (hne x hx).2.1)
    fun x hx ↦ hprev x (hne x hx).1 (hne x hx).2.2

/-- **Linking a loose process in behind `t`.** Either `t` is in the ready queue, or its head: then
the process comes right behind it and whatever followed is lost; or `t` is lost, and so is the
process. -/
theorem link (h : QueueShape l ready waits place) (hp : place p = .loose) (ht : Anchored place t)
    (hnext : ∀ x, x ≠ .proc p → x ≠ t → l'.next x = l.next x)
    (hprev : ∀ x, x ≠ .proc p → x ≠ .ready → l'.prev x = l.prev x) (htp : l'.next t = .proc p)
    (hpt : l'.prev (.proc p) = t) (hpr : l'.next (.proc p) = .ready) :
    (∃ rs cut, ready = rs ++ cut ∧ (nodes rs).getLastD .ready = t ∧
      QueueShape l' (rs ++ [p]) waits (Function.update (cutOff place cut) p .ready)) ∨
    (∃ r, t = .proc r ∧ place r = .lost) ∧
      QueueShape l' ready waits (Function.update place p .lost) := by
  have hwaits := h.waits_of_link hp ht hnext hprev
  have hpready := h.notMem_ready (p := p) (by simp [hp])
  by_cases hlost : ∃ r, t = .proc r ∧ place r = .lost
  · right
    obtain ⟨r, rfl, hr⟩ := hlost
    refine ⟨⟨r, rfl, hr⟩, ?_⟩
    have hshape : QueueShape l' ready waits place := by
      refine ⟨h.readyQueue.congr (fun x hx ↦ hnext x ?_ ?_) fun x hx ↦ hprev x ?_ ?_, hwaits,
        h.mem_ready, h.mem_waits⟩
      · rintro rfl
        exact hpready (mem_nodes.1 (by simpa using hx))
      · rintro rfl
        have hmem : r ∈ ready := mem_nodes.1 (by simpa using hx)
        rw [h.mem_ready, hr] at hmem
        cases hmem
      · rintro rfl
        exact hpready (mem_nodes.1 hx)
      · rintro rfl
        simp at hx
    exact hshape.update_place (by simp [hp]) (by simp)
  · left
    -- the part of the queue up to `t` stays
    obtain ⟨rs, cut, rfl, hlast⟩ :
        ∃ rs cut, ready = rs ++ cut ∧ (nodes rs).getLastD .ready = t := by
      rcases ht with rfl | ⟨r, rfl, hr | hr⟩
      · exact ⟨[], ready, rfl, rfl⟩
      · obtain ⟨rs, cut, rfl⟩ := List.append_of_mem ((h.mem_ready r).2 hr)
        exact ⟨rs ++ [r], cut, by simp, by simp⟩
      · exact absurd ⟨r, rfl, hr⟩ hlost
    have hdisj : ∀ x ∈ rs, x ∉ cut := fun x hx hx' ↦
      (List.nodup_append.1 h.nodup_ready).2.2 x hx x hx' rfl
    have hq : IsQueue l .ready (nodes rs ++ nodes cut) := nodes_append rs cut ▸ h.readyQueue
    refine ⟨rs, cut, rfl, hlast, ?_, hwaits, fun x ↦ ?_, fun q x ↦ ?_⟩
    · rw [nodes_append]
      refine hq.insertAfter hlast ?_ (fun x hx hxt ↦ hnext x ?_ hxt) (fun x hx ↦ hprev x ?_ ?_)
        htp hpt hpr
      · simpa [nodes] using hpready
      · rintro rfl
        exact hpready (List.mem_append_left cut (mem_nodes.1 (by simpa using hx)))
      · rintro rfl
        exact hpready (List.mem_append_left cut (mem_nodes.1 hx))
      · rintro rfl
        simp at hx
    · rcases eq_or_ne x p with rfl | hx
      · simp
      · rw [Function.update_of_ne hx, cutOff, List.mem_append, List.mem_singleton]
        have hmem := h.mem_ready x
        rw [List.mem_append] at hmem
        split
        · next hcut =>
          exact iff_of_false (fun hor ↦ hor.elim (fun hrs ↦ hdisj x hrs hcut) hx) (by simp)
        · next hcut =>
          rw [← hmem]
          simp [hx, hcut]
    · rw [h.mem_waits]
      rcases eq_or_ne x p with rfl | hx
      · rw [Function.update_self, hp]
        simp
      · rw [Function.update_of_ne hx, cutOff]
        split
        · next hcut =>
          rw [(h.mem_ready x).1 (List.mem_append_right rs hcut)]
          simp
        · exact Iff.rfl

/-- What an insertion behind `t` does to the processes: the inserted one is ready or lost, it is at
the end, and no other process moves except from the ready queue to the lost ones. When nothing was
lost and `t` is the last node, the process is appended and nothing is lost. -/
structure Linked (ready ready' : List ℕ) (place place' : ℕ → Place) (t : ProcNode) (p : ℕ) :
    Prop where
  self : place' p = .ready ∨ place' p = .lost
  others : ∀ x, x ≠ p → place' x = place x ∨ place x = .ready ∧ place' x = .lost
  atEnd : AtEnd ready' place' (.proc p)
  keeps_end : ∀ x, x ≠ p → AtEnd ready place (.proc x) → t ≠ .proc x →
    AtEnd ready' place' (.proc x)
  intact : (∀ x, place x ≠ .lost) → t = (nodes ready).getLastD .ready →
    ready' = ready ++ [p] ∧ ∀ x, place' x ≠ .lost

/-- The last node of a queue that ends with some processes is one of them. -/
theorem exists_getLastD_eq (rs : List ℕ) {cut : List ℕ} (hcut : cut ≠ []) :
    ∃ c ∈ cut, (nodes (rs ++ cut)).getLastD .ready = .proc c := by
  obtain ⟨cut', c, rfl⟩ := (List.eq_nil_or_concat' cut).resolve_left hcut
  refine ⟨c, by simp, ?_⟩
  rw [← List.append_assoc, nodes_append]
  simp

/-- The insertion, with its effect on the places. -/
theorem exists_linked (h : QueueShape l ready waits place) (hp : place p = .loose)
    (ht : Anchored place t) (hnext : ∀ x, x ≠ .proc p → x ≠ t → l'.next x = l.next x)
    (hprev : ∀ x, x ≠ .proc p → x ≠ .ready → l'.prev x = l.prev x) (htp : l'.next t = .proc p)
    (hpt : l'.prev (.proc p) = t) (hpr : l'.next (.proc p) = .ready) :
    ∃ ready' place', QueueShape l' ready' waits place' ∧ Linked ready ready' place place' t p := by
  rcases h.link hp ht hnext hprev htp hpt hpr with ⟨rs, cut, rfl, hlast, hshape⟩ | ⟨hlost, hshape⟩
  · have hcut : ∀ x ∈ cut, place x = .ready := fun x hx ↦
      (h.mem_ready x).1 (List.mem_append_right rs hx)
    refine ⟨_, _, hshape, ?_⟩
    refine ⟨Or.inl (Function.update_self ..), fun x hx ↦ ?_, Or.inl (by simp), ?_, ?_⟩
    · rw [Function.update_of_ne hx, cutOff]
      split
      · next hc => exact Or.inr ⟨hcut x hc, rfl⟩
      · exact Or.inl rfl
    · intro x hx hend htx
      refine Or.inr ⟨x, rfl, ?_⟩
      rw [Function.update_of_ne hx, cutOff]
      rcases hend with hend | ⟨x', hx', hlost⟩
      · -- the old last node came after `t`, so it is among those cut off
        rcases eq_or_ne cut [] with rfl | hne
        · rw [List.append_nil, hlast] at hend
          exact absurd hend.symm htx
        · obtain ⟨c, hc, hlast'⟩ := exists_getLastD_eq rs hne
          obtain rfl := ProcNode.proc.inj (hend.trans hlast')
          exact if_pos hc
      · obtain rfl := ProcNode.proc.inj hx'
        rw [if_neg fun hc ↦ by rw [hcut x hc] at hlost; cases hlost]
        exact hlost
    · intro hnone htl
      have hnil : cut = [] := by
        -- two nodes of a queue without repetitions cannot both be the last one
        by_contra hne
        obtain ⟨c, hc, hlast'⟩ := exists_getLastD_eq rs hne
        have hmem := getLastD_mem_cons (nodes rs) .ready
        rw [hlast, htl, hlast'] at hmem
        have hr : c ∈ rs := mem_nodes.1 (by simpa using hmem)
        exact (List.nodup_append.1 h.nodup_ready).2.2 c hr c hc rfl
      refine ⟨by rw [hnil, List.append_nil], fun x ↦ ?_⟩
      rcases eq_or_ne x p with rfl | hx
      · simp
      · rw [Function.update_of_ne hx, cutOff, hnil, if_neg List.not_mem_nil]
        exact hnone x
  · obtain ⟨r, rfl, hr⟩ := hlost
    refine ⟨_, _, hshape, ?_⟩
    refine ⟨Or.inr (Function.update_self ..), fun x hx ↦ Or.inl (Function.update_of_ne hx ..),
      Or.inr ⟨p, rfl, Function.update_self ..⟩, ?_, fun hnone ↦ absurd hr (hnone r)⟩
    rintro x hx (hend | ⟨x', hx', hlost⟩) -
    · exact Or.inl hend
    · obtain rfl := ProcNode.proc.inj hx'
      exact Or.inr ⟨x, rfl, by rwa [Function.update_of_ne hx]⟩

/-- `proc_queue_enqueue` on the ready queue is such an insertion, behind the tail pointer. -/
theorem enqueueReady (h : QueueShape l ready waits place) (hp : place p = .loose)
    (ht : Anchored place (l.prev .ready)) :
    ∃ ready' place', QueueShape (LL.enqueue l .ready (.proc p)) ready' waits place' ∧
      Linked ready ready' place place' (l.prev .ready) p := by
  have hne : ProcNode.proc p ≠ l.prev .ready := (ht.ne_proc (by simp [hp])).symm
  exact h.exists_linked hp ht (fun x hx hx' ↦ LL.llAdd_next_of_ne hx hx')
    (fun x hx hx' ↦ LL.llAdd_prev_of_ne hx hx') LL.llAdd_next_prev
    (LL.llAdd_prev_new (by simp)) (LL.llAdd_next_new hne)

namespace Linked

variable {ready' : List ℕ} {place' : ℕ → Place}

/-- Only the inserted process can stop being loose. -/
theorem loose_iff (h : Linked ready ready' place place' t p) {x : ℕ} :
    place' x = .loose ↔ x ≠ p ∧ place x = .loose := by
  rcases eq_or_ne x p with rfl | hx
  · rcases h.self with hs | hs <;> simp [hs]
  · rcases h.others x hx with ho | ⟨ho, ho'⟩
    · simp [ho, hx]
    · simp [ho, ho']

theorem free_iff (h : Linked ready ready' place place' t p) (hp : place p ≠ .free) {x : ℕ} :
    place' x = .free ↔ place x = .free := by
  rcases eq_or_ne x p with rfl | hx
  · rcases h.self with hs | hs <;> simp [hs, hp]
  · rcases h.others x hx with ho | ⟨ho, ho'⟩
    · rw [ho]
    · simp [ho, ho']

/-- Where an insertion could link, it still can. -/
theorem anchored (h : Linked ready ready' place place' t p) (hp : place p = .loose)
    (hx : Anchored place x) : Anchored place' x := by
  have hne := hx.ne_proc (p := p) (by simp [hp])
  rcases hx with rfl | ⟨r, rfl, hr⟩
  · exact Or.inl rfl
  · refine Or.inr ⟨r, rfl, ?_⟩
    rcases h.others r fun he ↦ hne (congrArg _ he) with ho | ⟨-, ho⟩
    · rwa [ho]
    · exact Or.inr ho

end Linked

/-! ### Taking the first process off -/

/-- What `LL_del` of the first process of a queue writes lies in that queue: its head, the process
and the one after it. -/
theorem del_frame {h : ProcNode} {rs : List ℕ} (hq : IsQueue l h (nodes (p :: rs)))
    (hx : x ∉ h :: nodes (p :: rs)) :
    (LL.del .null l (.proc p)).next x = l.next x ∧
      (LL.del .null l (.proc p)).prev x = l.prev x := by
  have hxh : x ≠ h := fun he ↦ hx (he ▸ List.mem_cons_self)
  have hxp : x ≠ .proc p := fun he ↦ hx (he ▸ by simp)
  refine ⟨LL.del_next_of_ne hxp (hq.1.2.1 ▸ hxh), LL.del_prev_of_ne hxp fun he ↦ ?_⟩
  rcases rs with - | ⟨r, rs⟩
  · exact hxh (he.trans hq.1.2.2)
  · exact hx (he ▸ hq.1.2.2.1 ▸ by simp)

/-- The first process of the ready queue becomes loose. -/
theorem dequeueReady (h : QueueShape l (p :: ready) waits place) :
    QueueShape (LL.del .null l (.proc p)) ready waits (Function.update place p .loose) := by
  have hnodup := List.nodup_cons.1 h.nodup_ready
  refine ⟨LL.queue_del h.readyQueue, fun q ↦ ?_, fun x ↦ ?_, fun q x ↦ ?_⟩
  · have hframe : ∀ x ∈ ProcNode.wait q :: nodes (waits q),
        x ∉ ProcNode.ready :: nodes (p :: ready) := fun x hx hx' ↦ h.ready_disjoint_wait hx' hx
    exact (h.waitQueues q).congr (fun x hx ↦ (del_frame h.readyQueue (hframe x hx)).1)
      fun x hx ↦ (del_frame h.readyQueue (hframe x hx)).2
  · rcases eq_or_ne x p with rfl | hx
    · rw [Function.update_self]
      exact iff_of_false hnodup.1 (by simp)
    · rw [Function.update_of_ne hx, ← h.mem_ready, List.mem_cons, or_iff_right hx]
  · rcases eq_or_ne x p with rfl | hx
    · rw [h.mem_waits, Function.update_self, (h.mem_ready x).1 List.mem_cons_self]
      simp
    · rw [Function.update_of_ne hx]
      exact h.mem_waits q x

/-- The first process of a wait queue becomes loose. -/
theorem dequeueWait {rs : List ℕ} (h : QueueShape l ready waits place) (hq : waits q = p :: rs) :
    QueueShape (LL.del .null l (.proc p)) ready (Function.update waits q rs)
      (Function.update place p .loose) := by
  have hring := h.waitQueues q
  rw [hq] at hring
  have hnodup := h.nodup_waits q
  rw [hq] at hnodup
  have hplace : place p = .wait q := (h.mem_waits q p).1 (hq ▸ List.mem_cons_self)
  refine ⟨?_, fun q' ↦ ?_, fun x ↦ ?_, fun q' x ↦ ?_⟩
  · have hframe : ∀ x ∈ ProcNode.ready :: nodes ready, x ∉ ProcNode.wait q :: nodes (p :: rs) :=
      fun x hx ↦ hq ▸ h.ready_disjoint_wait hx
    exact h.readyQueue.congr (fun x hx ↦ (del_frame hring.1 (hframe x hx)).1)
      fun x hx ↦ (del_frame hring.1 (hframe x (List.mem_cons_of_mem _ hx))).2
  · rcases eq_or_ne q' q with rfl | hne
    · rw [Function.update_self]
      exact LL.ring_del hring
    · rw [Function.update_of_ne hne]
      have hframe : ∀ x ∈ ProcNode.wait q' :: nodes (waits q'),
          x ∉ ProcNode.wait q :: nodes (p :: rs) := fun x hx ↦ hq ▸ h.wait_disjoint_wait hne hx
      exact (h.waitQueues q').congr (fun x hx ↦ (del_frame hring.1 (hframe x hx)).1)
        fun x hx ↦ (del_frame hring.1 (hframe x hx)).2
  · rw [h.mem_ready]
    rcases eq_or_ne x p with rfl | hx
    · rw [Function.update_self, hplace]
      simp
    · rw [Function.update_of_ne hx]
  · rcases eq_or_ne q' q with rfl | hne
    · rw [Function.update_self]
      rcases eq_or_ne x p with rfl | hx
      · rw [Function.update_self]
        exact iff_of_false (List.nodup_cons.1 hnodup).1 (by simp)
      · rw [Function.update_of_ne hx, ← h.mem_waits, hq, List.mem_cons, or_iff_right hx]
    · rw [Function.update_of_ne hne, h.mem_waits]
      rcases eq_or_ne x p with rfl | hx
      · rw [Function.update_self, hplace]
        simp [Ne.symm hne]
      · rw [Function.update_of_ne hx]

/-- The pointers of a node that is not in this queue are not touched. -/
theorem dequeueWait_frame {rs : List ℕ} (h : QueueShape l ready waits place)
    (hq : waits q = p :: rs) (hx : x ≠ .wait q) (hx' : ∀ r, x = .proc r → place r ≠ .wait q) :
    (LL.del .null l (.proc p)).next x = l.next x ∧
      (LL.del .null l (.proc p)).prev x = l.prev x := by
  have hring := h.waitQueues q
  rw [hq] at hring
  refine del_frame hring.1 fun hm ↦ ?_
  rcases List.mem_cons.1 hm with rfl | hm
  · exact hx rfl
  · obtain ⟨r, hr, rfl⟩ := List.mem_map.1 hm
    exact hx' r rfl ((h.mem_waits q r).1 (hq ▸ hr))

/-- A loose process goes to the end of a wait queue. -/
theorem enqueueWait (h : QueueShape l ready waits place) (hp : place p = .loose) (q : ℕ) :
    QueueShape (LL.enqueue l (.wait q) (.proc p)) ready
      (Function.update waits q (waits q ++ [p])) (Function.update place p (.wait q)) := by
  have hpw := h.notMem_waits (p := p) (by simp [hp])
  have hpready := h.notMem_ready (p := p) (by simp [hp])
  have htail : l.prev (.wait q) ∈ ProcNode.wait q :: nodes (waits q) := by
    rw [(h.waitQueues q).2]
    exact getLastD_mem_cons _ _
  have hnext : ∀ x, x ≠ .proc p → x ∉ ProcNode.wait q :: nodes (waits q) →
      (LL.enqueue l (.wait q) (.proc p)).next x = l.next x := fun x hx hx' ↦
    LL.llAdd_next_of_ne hx fun he ↦ hx' (he ▸ htail)
  have hprev : ∀ x, x ≠ .proc p → x ∉ ProcNode.wait q :: nodes (waits q) →
      (LL.enqueue l (.wait q) (.proc p)).prev x = l.prev x := fun x hx hx' ↦
    LL.llAdd_prev_of_ne hx fun he ↦ hx' (he ▸ List.mem_cons_self)
  refine ⟨?_, fun q' ↦ ?_, fun x ↦ ?_, fun q' x ↦ ?_⟩
  · have hne : ∀ x ∈ ProcNode.ready :: nodes ready, x ≠ .proc p := by
      rintro x hx rfl
      exact hpready (mem_nodes.1 (by simpa using hx))
    exact h.readyQueue.congr (fun x hx ↦ hnext x (hne x hx) (h.ready_disjoint_wait hx))
      fun x hx ↦ hprev x (hne x (List.mem_cons_of_mem _ hx))
        (h.ready_disjoint_wait (List.mem_cons_of_mem _ hx))
  · rcases eq_or_ne q' q with rfl | hqq
    · rw [Function.update_self, nodes_append]
      exact LL.ring_enqueue (h.waitQueues q') (by simpa [nodes] using hpw q')
    · rw [Function.update_of_ne hqq]
      have hne : ∀ x ∈ ProcNode.wait q' :: nodes (waits q'), x ≠ .proc p := by
        rintro x hx rfl
        exact hpw q' (mem_nodes.1 (by simpa using hx))
      exact (h.waitQueues q').congr
        (fun x hx ↦ hnext x (hne x hx) (h.wait_disjoint_wait hqq hx))
        fun x hx ↦ hprev x (hne x hx) (h.wait_disjoint_wait hqq hx)
  · rw [h.mem_ready]
    rcases eq_or_ne x p with rfl | hx
    · rw [Function.update_self, hp]
      simp
    · rw [Function.update_of_ne hx]
  · rcases eq_or_ne q' q with rfl | hne
    · rw [Function.update_self, List.mem_append, List.mem_singleton]
      rcases eq_or_ne x p with rfl | hx
      · simp
      · rw [Function.update_of_ne hx, or_iff_left hx]
        exact h.mem_waits q' x
    · rw [Function.update_of_ne hne, h.mem_waits]
      rcases eq_or_ne x p with rfl | hx
      · rw [Function.update_self, hp]
        simp [Ne.symm hne]
      · rw [Function.update_of_ne hx]

end QueueShape

end Marimba
