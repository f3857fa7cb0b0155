import Mathlib.Data.List.Basic
import Mathlib.Data.List.Chain
import Mathlib.Data.List.Nodup
import Mathlib.Logic.Function.Basic

/-!
# Intrusive circular lists

Nodes of an arbitrary type carry a `next` and a `prev` pointer, and a list is a node of its own, the
head, from which following `next` comes back to the head. Three predicates say how much of the
shape is there:

* `IsPath l a xs b`: from `a` the nodes `xs` come one after the other, then `b`, and the `prev`
  pointer of each of `xs` is the node before it;
* `IsQueue l h xs`: a path from the head `h` back to `h` without repetitions. **The `prev` pointer
  of the head is not in it**: a queue is what a traversal and a removal at the front can see;
* `IsRing l h xs`: a queue whose head also points back at the last node, which is what an insertion
  at the back relies on.

The two are kept apart because an insertion reads the tail pointer long before it writes it: when
another insertion comes in between, the queue survives and the ring does not. `IsPath.snoc` is the
one argument behind every insertion: linking a new node behind a node `t` of the path cuts off
whatever came after `t`. When `t` is the last node, nothing is cut off and the insertion is the
intended one.

With both pointers of every node in order a ring is a **closed chain** (`isRing_iff_isChain`), which
has no distinguished end. It can be cut between any two nodes, so `IsRing.insert` and
`IsRing.remove` are about any place in it, the one behind the head and the one before it included.
`afterNode` and `beforeNode` are what these insertions do to the sequence of nodes.
-/

variable {α : Type*}

/-- The pointers of all nodes. -/
structure Links (α : Type*) where
  next : α → α
  prev : α → α

/-- The last of the nodes, counting the head, is one of them. -/
theorem getLastD_mem_cons (xs : List α) (a : α) : xs.getLastD a ∈ a :: xs := by
  induction xs generalizing a with
  | nil => exact List.mem_cons_self
  | cons x xs ih =>
    rw [List.getLastD_cons]
    exact List.mem_cons_of_mem a (ih x)

namespace Links

/-! ### Writing one pointer -/

section Write

variable [DecidableEq α]

/-- `a->next = b`. -/
def setNext (l : Links α) (a b : α) : Links α := ⟨Function.update l.next a b, l.prev⟩

/-- `a->prev = b`. -/
def setPrev (l : Links α) (a b : α) : Links α := ⟨l.next, Function.update l.prev a b⟩

variable {l : Links α} {a b x : α}

@[simp] theorem setNext_next_self : (l.setNext a b).next a = b := Function.update_self ..

@[simp] theorem setPrev_prev_self : (l.setPrev a b).prev a = b := Function.update_self ..

@[simp] theorem setNext_prev : (l.setNext a b).prev = l.prev := rfl

@[simp] theorem setPrev_next : (l.setPrev a b).next = l.next := rfl

theorem setNext_next_of_ne (h : x ≠ a) : (l.setNext a b).next x = l.next x :=
  Function.update_of_ne h ..

theorem setPrev_prev_of_ne (h : x ≠ a) : (l.setPrev a b).prev x = l.prev x :=
  Function.update_of_ne h ..

end Write

/-! ### Paths -/

/-- From `a` the nodes of the list follow one another and then comes `b`; each node of the list
points back at the one before it. -/
def IsPath (l : Links α) : α → List α → α → Prop
  | a, [], b => l.next a = b
  | a, x :: xs, b => l.next a = x ∧ l.prev x = a ∧ IsPath l x xs b

instance instDecidableIsPath [DecidableEq α] (l : Links α) :
    ∀ a xs b, Decidable (IsPath l a xs b)
  | a, [], b => inferInstanceAs (Decidable (l.next a = b))
  | a, x :: xs, b =>
    haveI := instDecidableIsPath l x xs b
    inferInstanceAs (Decidable (l.next a = x ∧ l.prev x = a ∧ IsPath l x xs b))

namespace IsPath

variable {l l' : Links α} {a b c t n : α} {xs ys : List α}

/-- A path only depends on the `next` pointers of its nodes but the last, and on the `prev` pointers
of its nodes but the ends. -/
theorem congr (hp : IsPath l a xs b) (hnext : ∀ x ∈ a :: xs, l'.next x = l.next x)
    (hprev : ∀ x ∈ xs, l'.prev x = l.prev x) : IsPath l' a xs b := by
  induction xs generalizing a with
  | nil => exact (hnext a List.mem_cons_self).trans hp
  | cons x xs ih =>
    obtain ⟨hax, hxa, hrest⟩ := hp
    refine ⟨(hnext a List.mem_cons_self).trans hax, (hprev x List.mem_cons_self).trans hxa, ?_⟩
    exact ih hrest (fun y hy ↦ hnext y (List.mem_cons_of_mem a hy))
      fun y hy ↦ hprev y (List.mem_cons_of_mem x hy)

/-- The first nodes of a path are a path. -/
theorem take (hp : IsPath l a (xs ++ ys) b) : ∃ c, IsPath l a xs c := by
  induction xs generalizing a with
  | nil => exact ⟨l.next a, rfl⟩
  | cons x xs ih =>
    obtain ⟨hax, hxa, hrest⟩ := hp
    obtain ⟨c, hc⟩ := ih hrest
    exact ⟨c, hax, hxa, hc⟩

/-- **Linking a node in behind the last node of a path.** Only the pointers of the new node and the
`next` pointer of the last one are prescribed; the others are as they were. -/
theorem snoc (hp : IsPath l a xs b) (hnodup : (a :: xs).Nodup) (ht : xs.getLastD a = t)
    (hnext : ∀ x ∈ a :: xs, x ≠ t → l'.next x = l.next x)
    (hprev : ∀ x ∈ xs, l'.prev x = l.prev x) (htn : l'.next t = n) (hnt : l'.prev n = t)
    (hnc : l'.next n = c) : IsPath l' a (xs ++ [n]) c := by
  induction xs generalizing a with
  | nil =>
    obtain rfl : a = t := ht
    exact ⟨htn, hnt, hnc⟩
  | cons x xs ih =>
    obtain ⟨hax, hxa, hrest⟩ := hp
    rw [List.getLastD_cons] at ht
    have hmem : t ∈ x :: xs := ht ▸ getLastD_mem_cons xs x
    have hne : a ≠ t := fun h ↦ (List.nodup_cons.1 hnodup).1 (h ▸ hmem)
    refine ⟨(hnext a List.mem_cons_self hne).trans hax,
      (hprev x List.mem_cons_self).trans hxa, ?_⟩
    exact ih hrest (List.nodup_cons.1 hnodup).2 ht
      (fun y hy ↦ hnext y (List.mem_cons_of_mem a hy))
      fun y hy ↦ hprev y (List.mem_cons_of_mem x hy)

/-- Going back from a node of a path and forth again comes back to it. -/
theorem next_prev_of_mem (hp : IsPath l a xs b) (hn : n ∈ xs) : l.next (l.prev n) = n := by
  induction xs generalizing a with
  | nil => cases hn
  | cons x xs ih =>
    obtain ⟨hax, hxa, hrest⟩ := hp
    rcases List.mem_cons.1 hn with rfl | hn
    · rw [hxa, hax]
    · exact ih hrest hn

/-- A path determines its nodes, as long as none of them is the end. -/
theorem unique (hp : IsPath l a xs b) (hq : IsPath l a ys b) (hx : b ∉ xs) (hy : b ∉ ys) :
    xs = ys := by
  induction xs generalizing a ys with
  | nil =>
    rcases ys with - | ⟨y, ys⟩
    · rfl
    · exact absurd (hq.1.symm.trans hp) fun h ↦ hy (h ▸ List.mem_cons_self)
  | cons x xs ih =>
    rcases ys with - | ⟨y, ys⟩
    · exact absurd (hp.1.symm.trans hq) fun h ↦ hx (h ▸ List.mem_cons_self)
    · obtain rfl : x = y := hp.1.symm.trans hq.1
      rw [ih hp.2.2 hq.2.2 (fun h ↦ hx (List.mem_cons_of_mem x h))
        fun h ↦ hy (List.mem_cons_of_mem x h)]

end IsPath

/-! ### Queues and rings -/

/-- Following `next` from the head visits the nodes of the list, each once, and is back. -/
def IsQueue (l : Links α) (h : α) (xs : List α) : Prop := IsPath l h xs h ∧ (h :: xs).Nodup

instance [DecidableEq α] (l : Links α) (h : α) (xs : List α) : Decidable (IsQueue l h xs) :=
  inferInstanceAs (Decidable (_ ∧ _))

/-- A queue whose head points back at the last node. -/
def IsRing (l : Links α) (h : α) (xs : List α) : Prop := IsQueue l h xs ∧ l.prev h = xs.getLastD h

variable {l l' : Links α} {h t n x : α} {xs ys : List α}

theorem IsQueue.congr (hq : IsQueue l h xs) (hnext : ∀ x ∈ h :: xs, l'.next x = l.next x)
    (hprev : ∀ x ∈ xs, l'.prev x = l.prev x) : IsQueue l' h xs :=
  ⟨hq.1.congr hnext hprev, hq.2⟩

theorem IsRing.congr (hr : IsRing l h xs) (hnext : ∀ x ∈ h :: xs, l'.next x = l.next x)
    (hprev : ∀ x ∈ h :: xs, l'.prev x = l.prev x) : IsRing l' h xs :=
  ⟨hr.1.congr hnext fun x hx ↦ hprev x (List.mem_cons_of_mem h hx),
    (hprev h List.mem_cons_self).trans hr.2⟩

theorem IsQueue.unique (hx : IsQueue l h xs) (hy : IsQueue l h ys) : xs = ys :=
  hx.1.unique hy.1 (List.nodup_cons.1 hx.2).1 (List.nodup_cons.1 hy.2).1

/-- The head points at itself exactly when the queue is empty. -/
theorem IsQueue.next_eq_self_iff (hq : IsQueue l h xs) : l.next h = h ↔ xs = [] := by
  rcases xs with - | ⟨x, xs⟩
  · exact iff_of_true hq.1 rfl
  · refine iff_of_false (fun he ↦ ?_) (List.cons_ne_nil x xs)
    exact (List.nodup_cons.1 hq.2).1 (by rw [← he, hq.1.1]; exact List.mem_cons_self)

/-- The first node of a queue is neither the head nor its own successor. -/
theorem IsQueue.cons_ne (hq : IsQueue l h (x :: xs)) : h ≠ x ∧ l.next x ≠ x := by
  obtain ⟨hh, hnodup⟩ := List.nodup_cons.1 hq.2
  have hhx : h ≠ x := fun he ↦ hh (he ▸ List.mem_cons_self)
  refine ⟨hhx, fun he ↦ ?_⟩
  rcases xs with - | ⟨y, ys⟩
  · exact hhx (hq.1.2.2.symm.trans he)
  · exact (List.nodup_cons.1 hnodup).1 (he ▸ hq.1.2.2.1 ▸ List.mem_cons_self)

/-- The node behind which an insertion links is one of the queue, at the end of a first part. -/
theorem exists_append_of_mem_cons (ht : t ∈ h :: xs) :
    ∃ ys zs, xs = ys ++ zs ∧ ys.getLastD h = t := by
  rcases List.mem_cons.1 ht with rfl | ht
  · exact ⟨[], xs, rfl, rfl⟩
  · obtain ⟨ys, zs, rfl⟩ := List.append_of_mem ht
    refine ⟨ys ++ [t], zs, by simp, by simp⟩

/-- **Insertion behind a node of the queue.** The queue ends with the new node afterwards; what came
after `t` is cut off. -/
theorem IsQueue.insertAfter (hq : IsQueue l h (xs ++ ys)) (ht : xs.getLastD h = t)
    (hn : n ∉ h :: (xs ++ ys)) (hnext : ∀ x ∈ h :: xs, x ≠ t → l'.next x = l.next x)
    (hprev : ∀ x ∈ xs, l'.prev x = l.prev x) (htn : l'.next t = n) (hnt : l'.prev n = t)
    (hnh : l'.next n = h) : IsQueue l' h (xs ++ [n]) := by
  have hnodup : (h :: xs).Nodup := hq.2.sublist (List.sublist_append_left (h :: xs) ys)
  have hnx : n ∉ h :: xs := fun hx ↦ hn (List.cons_append ▸ List.mem_append_left ys hx)
  obtain ⟨c, hp⟩ := hq.1.take
  refine ⟨hp.snoc hnodup ht hnext hprev htn hnt hnh, ?_⟩
  rw [← List.cons_append]
  exact List.nodup_append.2 ⟨hnodup, List.nodup_singleton n, fun a ha b hb ↦ by
    rintro rfl
    exact hnx (List.mem_singleton.1 hb ▸ ha)⟩

/-- **Removal of the first node.** The pointers of the removed node do not matter afterwards. -/
theorem IsQueue.tail (hq : IsQueue l h (x :: xs)) (hnext : ∀ y ∈ xs, l'.next y = l.next y)
    (hprev : ∀ y ∈ xs, y ≠ l.next x → l'.prev y = l.prev y) (hh : l'.next h = l.next x)
    (hx : l'.prev (l.next x) = h) : IsQueue l' h xs := by
  have hnodup : (h :: xs).Nodup :=
    hq.2.sublist (List.Sublist.cons_cons h (List.sublist_cons_self x xs))
  refine ⟨?_, hnodup⟩
  rcases xs with - | ⟨y, ys⟩
  · exact hh.trans hq.1.2.2
  · obtain ⟨hxy, hyx, hrest⟩ := hq.1.2.2
    refine ⟨hh.trans hxy, hxy ▸ hx, hrest.congr hnext fun z hz ↦ ?_⟩
    refine hprev z (List.mem_cons_of_mem y hz) fun he ↦ ?_
    have hyz := (List.nodup_cons.1 (List.nodup_cons.1 hnodup).2).1
    exact hyz (by rwa [← hxy, ← he])

/-! ### Rings as closed chains -/

variable {zs : List α} {a b : α}

/-- `b` comes right after `a`, and the two pointers between them say so. -/
def Adjacent (l : Links α) (a b : α) : Prop := l.next a = b ∧ l.prev b = a

theorem isPath_iff_isChain :
    IsPath l a xs b ∧ l.prev b = xs.getLastD a ↔ (a :: (xs ++ [b])).IsChain l.Adjacent := by
  induction xs generalizing a with
  | nil => simp [IsPath, Adjacent]
  | cons x xs ih =>
    rw [List.cons_append, List.isChain_cons_cons, ← ih, List.getLastD_cons, IsPath, Adjacent]
    simp only [and_assoc]

/-- A ring is a chain from the head back to the head. -/
theorem isRing_iff_isChain :
    IsRing l h xs ↔ (h :: (xs ++ [h])).IsChain l.Adjacent ∧ (h :: xs).Nodup := by
  rw [IsRing, IsQueue, ← isPath_iff_isChain, and_right_comm]

/-- A piece of a chain stays one when the pointers at a cut, from `t` and back from `q`, are
written: the piece has no node right after `t`, and does not go to `q`. -/
theorem isChain_of_cut {c : List α} {q : α} (hc : c.IsChain l.Adjacent) (ht : l.next t ∉ c.tail)
    (hq : q ∉ c.tail) (hnext : ∀ x ∈ c, x ≠ t → l'.next x = l.next x)
    (hprev : ∀ x ∈ c, x ≠ q → l'.prev x = l.prev x) : c.IsChain l'.Adjacent := by
  refine hc.imp_of_mem_tail_imp fun a b ha hb ⟨hab, hba⟩ ↦ ⟨?_, ?_⟩
  · rw [hnext a ha fun he ↦ ht (by rwa [← he, hab]), hab]
  · rw [hprev b (List.mem_of_mem_tail hb) fun he ↦ hq (he ▸ hb), hba]

theorem isChain_cons_snoc_iff {R : α → α → Prop} :
    (n :: (zs ++ [h])).IsChain R ↔ R n (zs.headD h) ∧ (zs ++ [h]).IsChain R := by
  cases zs <;> simp

/-- Cutting a ring: the nodes up to the cut, those from it back to the head, and the pointers
between. -/
theorem isChain_cons_append_iff {R : α → α → Prop} :
    (h :: (ys ++ zs ++ [h])).IsChain R ↔
      (h :: ys).IsChain R ∧ (zs ++ [h]).IsChain R ∧ R (ys.getLastD h) (zs.headD h) := by
  have hhead : (zs ++ [h]).head? = some (zs.headD h) := by cases zs <;> rfl
  rw [List.append_assoc, ← List.cons_append, List.isChain_append, List.getLast?_cons, hhead]
  simp

/-- Wherever a ring is cut, the pointers across the cut agree. -/
theorem IsRing.adjacent (hr : IsRing l h (ys ++ zs)) :
    l.Adjacent (ys.getLastD h) (zs.headD h) := by
  have hc := (isRing_iff_isChain.1 hr).1
  rw [isChain_cons_append_iff] at hc
  exact hc.2.2

/-- Each node of the ring is the first one behind a cut. -/
theorem exists_append_of_headD (hx : x ∈ h :: xs) : ∃ ys zs, xs = ys ++ zs ∧ zs.headD h = x := by
  rcases List.mem_cons.1 hx with rfl | hx
  · exact ⟨xs, [], (List.append_nil xs).symm, rfl⟩
  · obtain ⟨ys, zs, rfl⟩ := List.append_of_mem hx
    exact ⟨ys, x :: zs, rfl, rfl⟩

/-- **In a ring `next` and `prev` are inverse to each other.** -/
theorem IsRing.inverse (hr : IsRing l h xs) (hx : x ∈ h :: xs) :
    l.next (l.prev x) = x ∧ l.prev (l.next x) = x := by
  constructor
  · obtain ⟨ys, zs, rfl, rfl⟩ := exists_append_of_headD hx
    obtain ⟨hnext, hprev⟩ := hr.adjacent
    rw [hprev, hnext]
  · obtain ⟨ys, zs, rfl, rfl⟩ := exists_append_of_mem_cons hx
    obtain ⟨hnext, hprev⟩ := hr.adjacent
    rw [hnext, hprev]

/-- The first node behind a cut is not met again on the way back to the head. -/
theorem headD_notMem (hnodup : (h :: (ys ++ zs)).Nodup) :
    zs.headD h ∉ ys ∧ zs.headD h ∉ (zs ++ [h]).tail := by
  obtain ⟨hh, hnodup⟩ := List.nodup_cons.1 hnodup
  obtain ⟨-, hzs, hdisj⟩ := List.nodup_append.1 hnodup
  rcases zs with - | ⟨z, zs⟩
  · exact ⟨fun hy ↦ hh (List.mem_append_left [] hy), List.not_mem_nil⟩
  · refine ⟨fun hy ↦ hdisj z hy z List.mem_cons_self rfl, fun hz ↦ ?_⟩
    rcases List.mem_append.1 hz with hz | hz
    · exact (List.nodup_cons.1 hzs).1 hz
    · refine hh (List.mem_append_right ys ?_)
      rw [← List.mem_singleton.1 hz]
      exact List.mem_cons_self

/-- The nodes from a cut on are nodes of the ring. -/
theorem mem_cons_append_of_mem_snoc (hx : x ∈ zs ++ [h]) : x ∈ h :: (ys ++ zs) := by
  rcases List.mem_append.1 hx with hx | hx
  · exact List.mem_cons_of_mem h (List.mem_append_right ys hx)
  · rw [List.mem_singleton.1 hx]
    exact List.mem_cons_self

theorem mem_cons_append_of_mem_cons (hx : x ∈ h :: ys) : x ∈ h :: (ys ++ zs) :=
  List.cons_append ▸ List.mem_append_left zs hx

theorem headD_mem_snoc (zs : List α) (h : α) : zs.headD h ∈ zs ++ [h] := by
  cases zs <;> simp

/-- The node before a node of the ring. -/
theorem IsRing.prev_eq (hr : IsRing l h (ys ++ x :: zs)) : l.prev x = ys.getLastD h :=
  hr.adjacent.2

/-- The node after a node of the ring. -/
theorem IsRing.next_eq (hr : IsRing l h (ys ++ x :: zs)) : l.next x = zs.headD h := by
  have hr' : IsRing l h ((ys ++ [x]) ++ zs) := by simpa using hr
  simpa using hr'.adjacent.1

/-- **Insertion anywhere.** Linking a new node in where the ring is cut puts it there. -/
theorem IsRing.insert (hr : IsRing l h (ys ++ zs)) (hn : n ∉ h :: (ys ++ zs))
    (hnext : ∀ x ∈ h :: (ys ++ zs), x ≠ ys.getLastD h → l'.next x = l.next x)
    (hprev : ∀ x ∈ h :: (ys ++ zs), x ≠ zs.headD h → l'.prev x = l.prev x)
    (hbefore : l'.Adjacent (ys.getLastD h) n) (hafter : l'.Adjacent n (zs.headD h)) :
    IsRing l' h (ys ++ n :: zs) := by
  obtain ⟨hc, hnodup⟩ := isRing_iff_isChain.1 hr
  obtain ⟨hqy, hqz⟩ := headD_notMem hnodup
  obtain ⟨hys, hzs, hcut, -⟩ := isChain_cons_append_iff.1 hc
  refine isRing_iff_isChain.2 ⟨isChain_cons_append_iff.2 ⟨?_, isChain_cons_snoc_iff.2 ⟨hafter, ?_⟩,
    hbefore⟩, ?_⟩
  · exact isChain_of_cut hys (hcut ▸ hqy) hqy (fun x hx ↦ hnext x (mem_cons_append_of_mem_cons hx))
      fun x hx ↦ hprev x (mem_cons_append_of_mem_cons hx)
  · exact isChain_of_cut hzs (hcut ▸ hqz) hqz (fun x hx ↦ hnext x (mem_cons_append_of_mem_snoc hx))
      fun x hx ↦ hprev x (mem_cons_append_of_mem_snoc hx)
  · rw [← List.cons_append, List.nodup_middle, List.cons_append]
    exact List.nodup_cons.2 ⟨hn, hnodup⟩

/-- **Removal anywhere.** The pointers of the removed node do not matter afterwards. -/
theorem IsRing.remove (hr : IsRing l h (ys ++ x :: zs))
    (hnext : ∀ y ∈ h :: (ys ++ zs), y ≠ ys.getLastD h → l'.next y = l.next y)
    (hprev : ∀ y ∈ h :: (ys ++ zs), y ≠ zs.headD h → l'.prev y = l.prev y)
    (hacross : l'.Adjacent (ys.getLastD h) (zs.headD h)) : IsRing l' h (ys ++ zs) := by
  obtain ⟨hc, hnodup⟩ := isRing_iff_isChain.1 hr
  rw [← List.cons_append, List.nodup_middle, List.cons_append] at hnodup
  obtain ⟨hx, hnodup⟩ := List.nodup_cons.1 hnodup
  obtain ⟨hqy, hqz⟩ := headD_notMem hnodup
  obtain ⟨hys, hxs, hcut, -⟩ := isChain_cons_append_iff.1 hc
  have hzs := (isChain_cons_snoc_iff.1 hxs).2
  have hcut' : l.next (ys.getLastD h) = x := hcut
  refine isRing_iff_isChain.2 ⟨isChain_cons_append_iff.2 ⟨?_, ?_, hacross⟩, hnodup⟩
  · refine isChain_of_cut hys (fun hy ↦ hx ?_) hqy
      (fun y hy ↦ hnext y (mem_cons_append_of_mem_cons hy))
      fun y hy ↦ hprev y (mem_cons_append_of_mem_cons hy)
    exact mem_cons_append_of_mem_cons (List.mem_cons_of_mem h (hcut' ▸ hy))
  · refine isChain_of_cut hzs (fun hy ↦ hx ?_) hqz
      (fun y hy ↦ hnext y (mem_cons_append_of_mem_snoc hy))
      fun y hy ↦ hprev y (mem_cons_append_of_mem_snoc hy)
    exact mem_cons_append_of_mem_snoc (hcut' ▸ List.mem_of_mem_tail hy)

/-! ### Places in a ring -/

section Places

variable [DecidableEq α] {cur : α}

/-- The nodes with `n` right after the first `cur`. -/
def afterFirst (n cur : α) : List α → List α
  | [] => []
  | x :: xs => if x = cur then x :: n :: xs else x :: afterFirst n cur xs

/-- The nodes with `n` right before the first `cur`. -/
def beforeFirst (n cur : α) : List α → List α
  | [] => []
  | x :: xs => if x = cur then n :: x :: xs else x :: beforeFirst n cur xs

/-- Insertion after a node of the ring with head `h`: after the head is at the front. -/
def afterNode (h n cur : α) (xs : List α) : List α :=
  if cur = h then n :: xs else afterFirst n cur xs

/-- Insertion before a node of the ring with head `h`: before the head is at the back. -/
def beforeNode (h n cur : α) (xs : List α) : List α :=
  if cur = h then xs ++ [n] else beforeFirst n cur xs

theorem afterFirst_eq (hcur : cur ∈ xs) :
    ∃ ys zs, xs = ys ++ cur :: zs ∧ afterFirst n cur xs = ys ++ cur :: n :: zs := by
  induction xs with
  | nil => cases hcur
  | cons x xs ih =>
    rw [afterFirst]
    split
    · next he => exact ⟨[], xs, by rw [he]; rfl, by rw [he]; rfl⟩
    · next he =>
      obtain ⟨ys, zs, hxs, hafter⟩ := ih ((List.mem_cons.1 hcur).resolve_left (Ne.symm he))
      exact ⟨x :: ys, zs, by rw [hxs]; rfl, by rw [hafter]; rfl⟩

theorem beforeFirst_eq (hcur : cur ∈ xs) :
    ∃ ys zs, xs = ys ++ cur :: zs ∧ beforeFirst n cur xs = ys ++ n :: cur :: zs := by
  induction xs with
  | nil => cases hcur
  | cons x xs ih =>
    rw [beforeFirst]
    split
    · next he => exact ⟨[], xs, by rw [he]; rfl, by rw [he]; rfl⟩
    · next he =>
      obtain ⟨ys, zs, hxs, hbefore⟩ := ih ((List.mem_cons.1 hcur).resolve_left (Ne.symm he))
      exact ⟨x :: ys, zs, by rw [hxs]; rfl, by rw [hbefore]; rfl⟩

/-- Insertion after a node is insertion at the cut behind it. -/
theorem afterNode_eq (hcur : cur ∈ h :: xs) :
    ∃ ys zs, xs = ys ++ zs ∧ ys.getLastD h = cur ∧ afterNode h n cur xs = ys ++ n :: zs := by
  rw [afterNode]
  split
  · next he => exact ⟨[], xs, rfl, he.symm, rfl⟩
  · next he =>
    obtain ⟨ys, zs, hxs, hafter⟩ := afterFirst_eq ((List.mem_cons.1 hcur).resolve_left he)
    exact ⟨ys ++ [cur], zs, by rw [hxs]; simp, by simp, by rw [hafter]; simp⟩

/-- Insertion before a node is insertion at the cut before it. -/
theorem beforeNode_eq (hcur : cur ∈ h :: xs) :
    ∃ ys zs, xs = ys ++ zs ∧ zs.headD h = cur ∧ beforeNode h n cur xs = ys ++ n :: zs := by
  rw [beforeNode]
  split
  · next he => exact ⟨xs, [], (List.append_nil xs).symm, he.symm, rfl⟩
  · next he =>
    obtain ⟨ys, zs, hxs, hbefore⟩ := beforeFirst_eq ((List.mem_cons.1 hcur).resolve_left he)
    exact ⟨ys, cur :: zs, hxs, rfl, hbefore⟩

end Places

end Links
