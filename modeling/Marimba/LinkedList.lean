import Marimba.Foundations.Ring

/-!
# The kernel's intrusive linked lists (`list.c`, `list.h`)

A `struct ListHeader` is embedded in each object that can be on a list, and a `struct LinkedList`
holds one as its head. The nodes are of a type `ν` with a null pointer; `LL_nhead` and `LL_ndata`,
which go from an object to its header and back by adding and subtracting the list's `head_offset`,
are the identity here: a node stands for the object and for its header of that list.

The operations are the source's, write by write: `ll_add` and `ll_del` do their four writes in the
order of `list.c`, and `LL_add_prev` reads the tail pointer first. Each has one specification over
`Links.IsQueue` and `Links.IsRing`, with the frame it leaves alone stated as which pointers it
writes.
-/

namespace Marimba

namespace LL

open Links

variable {ν : Type*} [DecidableEq ν]

/-- `ll_add`: link `new` between `prev` and `next`. -/
def llAdd (l : Links ν) (new prev next : ν) : Links ν :=
  (((l.setNext new next).setPrev new prev).setNext prev new).setPrev next new

/-- `ll_del`: unlink `del`, which stands between `prev` and `next`, and clear its pointers. -/
def llDel (null : ν) (l : Links ν) (del prev next : ν) : Links ν :=
  let l₁ := l.setNext prev (l.next del)
  let l₂ := l₁.setPrev next (l₁.prev del)
  (l₂.setNext del null).setPrev del null

/-- `LL_empty`. -/
def empty (l : Links ν) (list : ν) : Bool := l.next list = list

/-- `LL_head`: the first object, `none` for the null pointer. -/
def head (l : Links ν) (list : ν) : Option ν :=
  if empty l list then none else some (l.next list)

/-- `LL_del`. -/
def del (null : ν) (l : Links ν) (x : ν) : Links ν := llDel null l x (l.prev x) (l.next x)

/-- `LL_add`. -/
def add (l : Links ν) (new cur : ν) : Links ν := llAdd l new cur (l.next cur)

/-- `LL_add_prev`. -/
def addPrev (l : Links ν) (new cur : ν) : Links ν := llAdd l new (l.prev cur) cur

/-- `LL_append`. -/
def append (l : Links ν) (list data : ν) : Links ν := addPrev l data list

/-- `LL_enqueue`. -/
def enqueue (l : Links ν) (list data : ν) : Links ν := append l list data

/-- `LL_dequeue`: the object that was first, `none` for the null pointer. -/
def dequeue (null : ν) (l : Links ν) (list : ν) : Option ν × Links ν :=
  if empty l list then (none, l) else (some (l.next list), del null l (l.next list))

/-- `LL_init`. -/
def init (l : Links ν) (list : ν) : Links ν := (l.setNext list list).setPrev list list

/-- `LL_for_each`: the objects the loop visits, in order; `none` when it is not back at the head
after that many iterations. -/
def forEach (l : Links ν) (list : ν) : ℕ → ν → Option (List ν)
  | 0, _ => none
  | n + 1, curr =>
    if curr = list then some [] else (forEach l list n (l.next curr)).map (curr :: ·)

/-- Iterating over the list visits exactly these objects. -/
def Iterates (l : Links ν) (list : ν) (xs : List ν) : Prop :=
  ∃ n, forEach l list n (l.next list) = some xs

variable {null h t n x y : ν} {l : Links ν} {xs ys zs : List ν}

/-! ### What the two splicing routines write -/

theorem llAdd_next_of_ne {p q : ν} (hn : x ≠ n) (hp : x ≠ p) :
    (llAdd l n p q).next x = l.next x := by
  rw [llAdd, setPrev_next, setNext_next_of_ne hp, setPrev_next, setNext_next_of_ne hn]

theorem llAdd_prev_of_ne {p q : ν} (hn : x ≠ n) (hq : x ≠ q) :
    (llAdd l n p q).prev x = l.prev x := by
  rw [llAdd, setPrev_prev_of_ne hq, setNext_prev, setPrev_prev_of_ne hn, setNext_prev]

theorem llAdd_next_prev {p q : ν} : (llAdd l n p q).next p = n := by
  rw [llAdd, setPrev_next, setNext_next_self]

theorem llAdd_prev_next {p q : ν} : (llAdd l n p q).prev q = n := setPrev_prev_self

theorem llAdd_next_new {p q : ν} (hp : n ≠ p) : (llAdd l n p q).next n = q := by
  rw [llAdd, setPrev_next, setNext_next_of_ne hp, setPrev_next, setNext_next_self]

theorem llAdd_prev_new {p q : ν} (hq : n ≠ q) : (llAdd l n p q).prev n = p := by
  rw [llAdd, setPrev_prev_of_ne hq, setNext_prev, setPrev_prev_self]

/-- Removal writes the `next` pointers of the node and of the one before it only. -/
theorem del_next_of_ne (hx : y ≠ x) (hp : y ≠ l.prev x) : (del null l x).next y = l.next y := by
  simp only [del, llDel, setPrev_next]
  rw [setNext_next_of_ne hx, setPrev_next, setNext_next_of_ne hp]

/-- Removal writes the `prev` pointers of the node and of the one after it only. -/
theorem del_prev_of_ne (hx : y ≠ x) (hp : y ≠ l.next x) : (del null l x).prev y = l.prev y := by
  simp only [del, llDel]
  rw [setPrev_prev_of_ne hx, setNext_prev, setPrev_prev_of_ne hp, setNext_prev]

theorem del_next_prev (hp : l.prev x ≠ x) : (del null l x).next (l.prev x) = l.next x := by
  simp only [del, llDel, setPrev_next]
  rw [setNext_next_of_ne hp, setPrev_next, setNext_next_self]

theorem del_prev_next (hp : l.next x ≠ x) : (del null l x).prev (l.next x) = l.prev x := by
  simp only [del, llDel]
  rw [setPrev_prev_of_ne hp, setNext_prev, setPrev_prev_self, setNext_prev]

/-! ### Rings -/

/-- **`ll_add` between two neighbours** of a ring. -/
theorem ring_llAdd (hr : IsRing l h (ys ++ zs)) (hn : n ∉ h :: (ys ++ zs)) :
    IsRing (llAdd l n (ys.getLastD h) (zs.headD h)) h (ys ++ n :: zs) := by
  have hne : ∀ {z}, z ∈ h :: (ys ++ zs) → n ≠ z := fun hz he ↦ hn (he ▸ hz)
  have hlast : n ≠ ys.getLastD h := hne (mem_cons_append_of_mem_cons (getLastD_mem_cons ys h))
  have hfirst : n ≠ zs.headD h := hne (mem_cons_append_of_mem_snoc (headD_mem_snoc zs h))
  refine hr.insert hn (fun x hx hxt ↦ ?_) (fun x hx hxq ↦ ?_) ⟨?_, ?_⟩ ⟨?_, ?_⟩
  · exact llAdd_next_of_ne (hne hx).symm hxt
  · exact llAdd_prev_of_ne (hne hx).symm hxq
  · exact llAdd_next_prev
  · exact llAdd_prev_new hfirst
  · exact llAdd_next_new hlast
  · exact llAdd_prev_next

/-- `LL_add` links between a node and the one after it. -/
theorem add_eq_llAdd (hr : IsRing l h (ys ++ zs)) :
    add l n (ys.getLastD h) = llAdd l n (ys.getLastD h) (zs.headD h) := by
  rw [add, hr.adjacent.1]

/-- `LL_add_prev` links between a node and the one before it. -/
theorem addPrev_eq_llAdd (hr : IsRing l h (ys ++ zs)) :
    addPrev l n (zs.headD h) = llAdd l n (ys.getLastD h) (zs.headD h) := by
  rw [addPrev, hr.adjacent.2]

/-- **`LL_del` removes a node from its ring**, wherever it stands. -/
theorem ring_del_mem (hr : IsRing l h (ys ++ x :: zs)) : IsRing (del null l x) h (ys ++ zs) := by
  have hnodup := (isRing_iff_isChain.1 hr).2
  rw [← List.cons_append, List.nodup_middle, List.cons_append] at hnodup
  have hx : x ∉ h :: (ys ++ zs) := (List.nodup_cons.1 hnodup).1
  have hne : ∀ {z}, z ∈ h :: (ys ++ zs) → z ≠ x := fun hz he ↦ hx (he ▸ hz)
  have hprev := hr.prev_eq
  have hnext := hr.next_eq
  have hlast : ys.getLastD h ≠ x := hne (mem_cons_append_of_mem_cons (getLastD_mem_cons ys h))
  have hfirst : zs.headD h ≠ x := hne (mem_cons_append_of_mem_snoc (headD_mem_snoc zs h))
  refine hr.remove (fun y hy hyt ↦ ?_) (fun y hy hyq ↦ ?_) ⟨?_, ?_⟩
  · exact del_next_of_ne (hne hy) (hprev ▸ hyt)
  · exact del_prev_of_ne (hne hy) (hnext ▸ hyq)
  · rw [← hprev, del_next_prev (hprev ▸ hlast), hnext]
  · rw [← hnext, del_prev_next (hnext ▸ hfirst), hprev]

/-- Linking in writes the pointers of the ring and of the new header only. -/
theorem llAdd_frame (hn : y ≠ n) (hy : y ∉ h :: (ys ++ zs)) :
    (llAdd l n (ys.getLastD h) (zs.headD h)).next y = l.next y ∧
      (llAdd l n (ys.getLastD h) (zs.headD h)).prev y = l.prev y := by
  refine ⟨llAdd_next_of_ne hn fun he ↦ hy ?_, llAdd_prev_of_ne hn fun he ↦ hy ?_⟩
  · rw [he]
    exact mem_cons_append_of_mem_cons (getLastD_mem_cons ys h)
  · rw [he]
    exact mem_cons_append_of_mem_snoc (headD_mem_snoc zs h)

/-- Removal writes the pointers of the ring only. -/
theorem del_frame (hr : IsRing l h (ys ++ x :: zs)) (hy : y ∉ h :: (ys ++ x :: zs)) :
    (del null l x).next y = l.next y ∧ (del null l x).prev y = l.prev y := by
  have hx : y ≠ x := fun he ↦ hy (by rw [he]; simp)
  have hmem : ∀ z, z ∈ h :: (ys ++ zs) → z ∈ h :: (ys ++ x :: zs) := fun z hz ↦ by
    simp only [List.mem_cons, List.mem_append] at hz ⊢
    tauto
  refine ⟨del_next_of_ne hx fun he ↦ hy ?_, del_prev_of_ne hx fun he ↦ hy ?_⟩
  · rw [he, hr.prev_eq]
    exact hmem _ (mem_cons_append_of_mem_cons (getLastD_mem_cons ys h))
  · rw [he, hr.next_eq]
    exact hmem _ (mem_cons_append_of_mem_snoc (headD_mem_snoc zs h))

/-! ### Queues -/

/-- `LL_empty` tells whether a traversal finds anything. -/
theorem empty_iff (hq : IsQueue l h xs) : empty l h = true ↔ xs = [] := by
  rw [empty, decide_eq_true_iff]
  exact hq.next_eq_self_iff

/-- `LL_init` makes an empty ring. -/
theorem ring_init (l : Links ν) (h : ν) : IsRing (init l h) h [] :=
  ⟨⟨by simp [init, IsPath], List.nodup_singleton h⟩, setPrev_prev_self⟩

/-- The enqueued node is the new tail. -/
theorem enqueue_prev_head : (enqueue l h n).prev h = n := llAdd_prev_next

/-- **`LL_enqueue` appends to a ring.** -/
theorem ring_enqueue (hr : IsRing l h xs) (hn : n ∉ h :: xs) :
    IsRing (enqueue l h n) h (xs ++ [n]) := by
  have hr' : IsRing l h (xs ++ []) := (List.append_nil xs).symm ▸ hr
  rw [enqueue, append, show addPrev l n h = _ from addPrev_eq_llAdd hr']
  exact ring_llAdd hr' ((List.append_nil xs).symm ▸ hn)

/-- `LL_dequeue` on an empty list. -/
theorem dequeue_nil (hq : IsQueue l h []) : dequeue null l h = (none, l) :=
  if_pos ((empty_iff hq).2 rfl)

/-- `LL_dequeue` on a list that is not empty takes the first node. -/
theorem dequeue_cons (hq : IsQueue l h (x :: xs)) :
    dequeue null l h = (some x, del null l x) := by
  have hne : ¬empty l h = true := fun he ↦ List.cons_ne_nil x xs ((empty_iff hq).1 he)
  rw [dequeue, if_neg hne, hq.1.1]

/-- **Removing the first node of a queue leaves the others.** -/
theorem queue_del (hq : IsQueue l h (x :: xs)) : IsQueue (del null l x) h xs := by
  obtain ⟨hhx, hnext⟩ := hq.cons_ne
  have hxh : l.prev x = h := hq.1.2.1
  have hnodup := (List.nodup_cons.1 hq.2)
  have hxs : x ∉ xs := (List.nodup_cons.1 hnodup.2).1
  refine hq.tail (fun y hy ↦ ?_) (fun y hy hyx ↦ ?_) ?_ ?_
  · refine del_next_of_ne (fun he ↦ hxs (he ▸ hy)) fun he ↦ ?_
    exact hnodup.1 (List.mem_cons_of_mem x (hxh ▸ he ▸ hy))
  · exact del_prev_of_ne (fun he ↦ hxs (he ▸ hy)) hyx
  · rw [← hxh]
    exact del_next_prev (hxh ▸ hhx)
  · rw [del_prev_next hnext, hxh]

/-- The tail pointer after the first node is removed: it is only written when that was the only
one. -/
theorem del_prev_head (hq : IsQueue l h (x :: xs)) :
    (del null l x).prev h = if xs = [] then h else l.prev h := by
  obtain ⟨hhx, hnext⟩ := hq.cons_ne
  rcases xs with - | ⟨y, ys⟩
  · have he : l.next x = h := hq.1.2.2
    rw [if_pos rfl, ← he, del_prev_next hnext, hq.1.2.1, he]
  · rw [if_neg (List.cons_ne_nil y ys)]
    refine del_prev_of_ne hhx fun he ↦ ?_
    refine (List.nodup_cons.1 hq.2).1 (List.mem_cons_of_mem x ?_)
    rw [he, hq.1.2.2.1]
    exact List.mem_cons_self

/-- **`LL_dequeue` keeps a ring a ring.** -/
theorem ring_del (hr : IsRing l h (x :: xs)) : IsRing (del null l x) h xs :=
  ring_del_mem (show IsRing l h ([] ++ x :: xs) from hr)

/-! ### Iteration -/

theorem forEach_of_path {a : ν} (hp : IsPath l a xs h) (hh : h ∉ xs) :
    forEach l h (xs.length + 1) (l.next a) = some xs := by
  induction xs generalizing a with
  | nil =>
    rw [List.length_nil, forEach]
    exact if_pos hp
  | cons x xs ih =>
    rw [List.mem_cons, not_or] at hh
    rw [hp.1, List.length_cons, forEach, if_neg (Ne.symm hh.1), ih hp.2.2 hh.2, Option.map_some]

/-- `LL_for_each` visits the nodes of a queue. -/
theorem iterates_of_queue (hq : IsQueue l h xs) : Iterates l h xs :=
  ⟨xs.length + 1, forEach_of_path hq.1 (List.nodup_cons.1 hq.2).1⟩

/-- More iterations do not change what is visited. -/
theorem forEach_mono {n n' : ℕ} (hn : forEach l h n x = some xs) (hle : n ≤ n') :
    forEach l h n' x = some xs := by
  induction n generalizing n' x xs with
  | zero => cases hn
  | succ n ih =>
    obtain ⟨n', rfl⟩ := Nat.exists_eq_succ_of_ne_zero (Nat.ne_zero_of_lt hle)
    rw [forEach] at hn ⊢
    split at hn
    · next heq => rwa [if_pos heq]
    · next hne =>
      obtain ⟨ys, hys, rfl⟩ := Option.map_eq_some_iff.1 hn
      rw [if_neg hne, ih hys (Nat.le_of_succ_le_succ hle), Option.map_some]

/-- What an iteration visits is determined. -/
theorem Iterates.unique (h₁ : Iterates l h xs) (h₂ : Iterates l h ys) : xs = ys := by
  obtain ⟨n, hn⟩ := h₁
  obtain ⟨n', hn'⟩ := h₂
  have hmax := forEach_mono hn (Nat.le_max_left n n')
  exact Option.some.inj (hmax.symm.trans (forEach_mono hn' (Nat.le_max_right n n')))

/-- An iteration that visits anything starts with the node the head points at. -/
theorem Iterates.head (hi : Iterates l h xs) (hne : l.next h ≠ h) : xs.head? = some (l.next h) := by
  obtain ⟨k, hk⟩ := hi
  cases k with
  | zero => cases hk
  | succ k =>
    rw [forEach, if_neg hne, Option.map_eq_some_iff] at hk
    obtain ⟨ys, -, rfl⟩ := hk
    rfl

end LL

end Marimba
