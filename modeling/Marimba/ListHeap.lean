import Marimba.LinkedList
import Marimba.Foundations.Transition

/-!
# Many intrusive lists over one heap

`Marimba.LinkedList` is about one list of nodes. Here any number of lists share a heap: a list is
the address of its `struct LinkedList`, whose head is its first field, and the nodes are the
addresses of `struct ListHeader`s. An object carries as many headers as it has list fields, and
`LL_nhead` and `LL_ndata` go from the object to the header of a list and back by the list's
`head_offset`. Pointers are machine words, so that both wrap around and are inverse to each other
for every offset.

**The specification** (`Seqs`) has a sequence of headers for each initialised list, and for each
header the list it is in, if any. It allows a command only where its use is right: a header is
inserted while it is in no list and removed while it is in one, and neighbours are given by a header
that is in a list or by a list's head. `ListHeap.exec` is the code, which checks nothing.

`lists_refine` says that every allowed sequence of commands does on the heap what it does on the
sequences. The relation between the two is a separation: each list is a ring over its own headers,
and no header is in two of them.
-/

namespace Marimba

open Links

/-! ### The heap -/

/-- The `next` and `prev` fields of the headers, and the `head_offset` fields of the lists, by their
addresses. -/
structure ListHeap where
  links : Links (BitVec 64)
  headOffset : BitVec 64 → BitVec 64

/-- A call. -/
inductive ListCmd where
  | init (list offset : BitVec 64)
  | enqueue (list data : BitVec 64)
  | append (list data : BitVec 64)
  | add (new cur : BitVec 64)
  | addPrev (new cur : BitVec 64)
  | dequeue (list : BitVec 64)
  | del (node : BitVec 64)
  deriving DecidableEq, Repr

namespace ListHeap

/-- `LL_nhead`: the header of an object for this list. -/
def nhead (h : ListHeap) (list data : BitVec 64) : BitVec 64 := data + h.headOffset list

/-- `LL_ndata`: the object of a header of this list. -/
def ndata (h : ListHeap) (list node : BitVec 64) : BitVec 64 := node - h.headOffset list

/-- `LL_init`. -/
def init (h : ListHeap) (list offset : BitVec 64) : ListHeap :=
  ⟨LL.init h.links list, Function.update h.headOffset list offset⟩

/-- `LL_append`. -/
def append (h : ListHeap) (list data : BitVec 64) : ListHeap :=
  { h with links := LL.addPrev h.links (h.nhead list data) list }

/-- `LL_enqueue`. -/
def enqueue (h : ListHeap) (list data : BitVec 64) : ListHeap := h.append list data

/-- `LL_dequeue`. -/
def dequeue (h : ListHeap) (list : BitVec 64) : Option (BitVec 64) × ListHeap :=
  let r := LL.dequeue 0 h.links list
  (r.1.map (h.ndata list), { h with links := r.2 })

/-- `LL_empty`. -/
def empty (h : ListHeap) (list : BitVec 64) : Bool := LL.empty h.links list

/-- `LL_head`. -/
def head (h : ListHeap) (list : BitVec 64) : Option (BitVec 64) :=
  (LL.head h.links list).map (h.ndata list)

/-- The loop of `LL_for_each` from the object `curr` on. -/
def forEachFrom (h : ListHeap) (list : BitVec 64) : ℕ → BitVec 64 → Option (List (BitVec 64))
  | 0, _ => none
  | n + 1, curr =>
    if h.nhead list curr = list then some []
    else (forEachFrom h list n (h.ndata list (h.links.next (h.nhead list curr)))).map (curr :: ·)

/-- `LL_for_each`: the objects it visits; `none` when it has not ended after that many
iterations. -/
def forEach (h : ListHeap) (list : BitVec 64) (n : ℕ) : Option (List (BitVec 64)) :=
  h.forEachFrom list n (h.ndata list (h.links.next list))

/-- One call, with the pointer it returns. -/
def exec (h : ListHeap) : ListCmd → Option (BitVec 64) × ListHeap
  | .init list offset => (none, h.init list offset)
  | .enqueue list data => (none, h.enqueue list data)
  | .append list data => (none, h.append list data)
  | .add new cur => (none, { h with links := LL.add h.links new cur })
  | .addPrev new cur => (none, { h with links := LL.addPrev h.links new cur })
  | .dequeue list => h.dequeue list
  | .del node => (none, { h with links := LL.del 0 h.links node })

theorem nhead_ndata (h : ListHeap) (list node : BitVec 64) :
    h.nhead list (h.ndata list node) = node := BitVec.sub_add_cancel ..

/-- On the headers `LL_for_each` is the iteration of `Marimba.LinkedList`. -/
theorem forEachFrom_ndata (h : ListHeap) (list : BitVec 64) (n : ℕ) (node : BitVec 64) :
    h.forEachFrom list n (h.ndata list node) =
      (LL.forEach h.links list n node).map (List.map (h.ndata list)) := by
  induction n generalizing node with
  | zero => rfl
  | succ n ih =>
    rw [forEachFrom, LL.forEach, nhead_ndata, ih]
    split
    · rfl
    · rw [Option.map_map, Option.map_map]
      rfl

end ListHeap

/-! ### Sequences -/

/-- What the lists are: the headers of each initialised list in order, the list each header is in,
and the offset of the headers in the objects of the list. -/
structure Seqs where
  seq : BitVec 64 → Option (List (BitVec 64))
  home : BitVec 64 → Option (BitVec 64)
  offset : BitVec 64 → BitVec 64

namespace Seqs

/-- No list is initialised. -/
def uninitialised : Seqs := ⟨fun _ ↦ none, fun _ ↦ none, fun _ ↦ 0⟩

/-- The list a header belongs to: its own when it is a head, else the one it is in. -/
def ringOf (a : Seqs) (x : BitVec 64) : Option (BitVec 64) :=
  if a.seq x = none then a.home x else some x

/-- A header that is in no list, and is not the head of one. -/
def Unlinked (a : Seqs) (x : BitVec 64) : Prop := a.home x = none ∧ a.seq x = none

instance (a : Seqs) (x : BitVec 64) : Decidable (a.Unlinked x) :=
  inferInstanceAs (Decidable (_ ∧ _))

/-- The objects of a list. -/
def objects (a : Seqs) (list : BitVec 64) (xs : List (BitVec 64)) : List (BitVec 64) :=
  xs.map (· - a.offset list)

/-- An empty list; headers that were in it are in no list. -/
def clear (a : Seqs) (list offset : BitVec 64) : Seqs where
  seq := Function.update a.seq list (some [])
  home := fun x ↦ if a.home x = some list then none else a.home x
  offset := Function.update a.offset list offset

/-- The sequence of a list becomes `xs`, which has the new header `x`. -/
def insert (a : Seqs) (list x : BitVec 64) (xs : List (BitVec 64)) : Seqs :=
  { a with
    seq := Function.update a.seq list (some xs)
    home := Function.update a.home x (some list) }

/-- The sequence of a list becomes `xs`, which no longer has the header `x`. -/
def remove (a : Seqs) (list x : BitVec 64) (xs : List (BitVec 64)) : Seqs :=
  { a with
    seq := Function.update a.seq list (some xs)
    home := Function.update a.home x none }

/-- The list a call is about. -/
def target (a : Seqs) : ListCmd → Option (BitVec 64)
  | .init list _ | .enqueue list _ | .append list _ | .dequeue list => some list
  | .add _ cur | .addPrev _ cur => a.ringOf cur
  | .del node => a.home node

/-- The header a call inserts. -/
def inserted (a : Seqs) : ListCmd → List (BitVec 64)
  | .enqueue list data | .append list data => [data + a.offset list]
  | .add new _ | .addPrev new _ => [new]
  | .init .. | .dequeue _ | .del _ => []

/-- The headers a call may write: the one it inserts, the head of the list it is about, and the
headers in that list. -/
def touched (a : Seqs) (c : ListCmd) : List (BitVec 64) :=
  a.inserted c ++ match a.target c with
    | some list => list :: (a.seq list).getD []
    | none => []

/-- A call on the sequences; `none` where it is not allowed. -/
def step (a : Seqs) : ListCmd → Option (Option (BitVec 64) × Seqs)
  | .init list offset => if a.home list = none then some (none, a.clear list offset) else none
  | .enqueue list data | .append list data =>
    (a.seq list).bind fun xs ↦
      if a.Unlinked (data + a.offset list) then
        some (none, a.insert list (data + a.offset list) (xs ++ [data + a.offset list]))
      else none
  | .add new cur =>
    (a.ringOf cur).bind fun list ↦ (a.seq list).bind fun xs ↦
      if a.Unlinked new then some (none, a.insert list new (afterNode list new cur xs)) else none
  | .addPrev new cur =>
    (a.ringOf cur).bind fun list ↦ (a.seq list).bind fun xs ↦
      if a.Unlinked new then some (none, a.insert list new (beforeNode list new cur xs)) else none
  | .dequeue list =>
    (a.seq list).map fun
      | [] => (none, a)
      | x :: xs => (some (x - a.offset list), a.remove list x xs)
  | .del node =>
    (a.home node).bind fun list ↦ (a.seq list).map fun xs ↦
      (none, a.remove list node (xs.erase node))

end Seqs

/-! ### The two agree -/

/-- The heap holds these sequences: each list is a ring over its headers, and a header is in one
list at most. -/
structure Refines (a : Seqs) (h : ListHeap) : Prop where
  ring : ∀ list xs, a.seq list = some xs → IsRing h.links list xs
  offset : ∀ list, a.seq list ≠ none → h.headOffset list = a.offset list
  home : ∀ x list, a.home x = some list ↔ ∃ xs, a.seq list = some xs ∧ x ∈ xs
  head : ∀ list, a.seq list ≠ none → a.home list = none

namespace Refines

variable {a a' : Seqs} {h : ListHeap} {list x y : BitVec 64} {xs ys zs : List (BitVec 64)}

theorem uninitialised (h : ListHeap) : Refines .uninitialised h := by
  refine ⟨fun list xs hs ↦ ?_, fun list hs ↦ absurd rfl hs, fun x list ↦ ?_, fun _ _ ↦ rfl⟩
  · cases hs
  · refine iff_of_false (fun hh ↦ ?_) fun ⟨xs, hs, _⟩ ↦ ?_
    · cases hh
    · cases hs

theorem home_of_mem (hr : Refines a h) (hs : a.seq list = some xs) (hx : x ∈ xs) :
    a.home x = some list := (hr.home x list).2 ⟨xs, hs, hx⟩

/-- The header of a list is not a node. -/
theorem home_head (hr : Refines a h) (hs : a.seq list = some xs) : a.home list = none :=
  hr.head list (hs ▸ Option.some_ne_none xs)

/-- **Separation**: two lists have no header in common. -/
theorem separate (hr : Refines a h) {list' : BitVec 64} {xs' : List (BitVec 64)}
    (hs : a.seq list = some xs) (hs' : a.seq list' = some xs') (hne : list' ≠ list)
    (hx : x ∈ list' :: xs') : x ∉ list :: xs := by
  intro hmem
  rcases List.mem_cons.1 hx with rfl | hx <;> rcases List.mem_cons.1 hmem with rfl | hmem
  · exact hne rfl
  · exact absurd ((hr.home_of_mem hs hmem).symm.trans (hr.home_head hs')) (Option.some_ne_none _)
  · exact absurd ((hr.home_of_mem hs' hx).symm.trans (hr.home_head hs)) (Option.some_ne_none _)
  · exact hne (Option.some.inj ((hr.home_of_mem hs' hx).symm.trans (hr.home_of_mem hs hmem)))

/-- A header that is in no list is not one of this ring. -/
theorem unlinked_notMem (hr : Refines a h) (hs : a.seq list = some xs) (hx : a.Unlinked x) :
    x ∉ list :: xs := by
  intro hmem
  rcases List.mem_cons.1 hmem with rfl | hmem
  · exact absurd (hs.symm.trans hx.2) (Option.some_ne_none xs)
  · exact absurd ((hr.home_of_mem hs hmem).symm.trans hx.1) (Option.some_ne_none list)

/-- The rings that a call leaves alone are still there when their pointers are. -/
theorem ring_of_ne (hr : Refines a h) {l : Links (BitVec 64)} {list' : BitVec 64}
    {xs' : List (BitVec 64)} (hs : a.seq list = some xs) (hs' : a.seq list' = some xs')
    (hne : list' ≠ list)
    (hframe : ∀ y, y ∉ list :: xs → y ∈ list' :: xs' →
      l.next y = h.links.next y ∧ l.prev y = h.links.prev y) : IsRing l list' xs' :=
  (hr.ring list' xs' hs').congr (fun y hy ↦ (hframe y (hr.separate hs hs' hne hy) hy).1)
    fun y hy ↦ (hframe y (hr.separate hs hs' hne hy) hy).2

/-- Changing the sequence of an initialised list initialises no other one. -/
theorem seq_ne_none {list' : BitVec 64} (hs : a.seq list = some xs)
    (hs' : Function.update a.seq list (some ys) list' ≠ none) : a.seq list' ≠ none := by
  rcases eq_or_ne list' list with rfl | hl
  · rw [hs]
    exact Option.some_ne_none xs
  · rwa [Function.update_of_ne hl] at hs'

/-- After an insertion the headers are where the sequences say. -/
theorem home_insert (hr : Refines a h) (hs : a.seq list = some xs) (hx : a.Unlinked x)
    (hmem : ∀ y, y ∈ ys ↔ y = x ∨ y ∈ xs) (y list' : BitVec 64) :
    (a.insert list x ys).home y = some list' ↔
      ∃ xs', (a.insert list x ys).seq list' = some xs' ∧ y ∈ xs' := by
  show Function.update a.home x (some list) y = some list' ↔
    ∃ xs', Function.update a.seq list (some ys) list' = some xs' ∧ y ∈ xs'
  rcases eq_or_ne list' list with rfl | hl
  · rw [Function.update_self]
    simp only [Option.some.injEq, exists_eq_left', hmem]
    rcases eq_or_ne y x with rfl | hy
    · simp
    · rw [Function.update_of_ne hy, hr.home, or_iff_right hy, hs]
      simp
  · rw [Function.update_of_ne hl]
    rcases eq_or_ne y x with rfl | hy
    · rw [Function.update_self]
      refine iff_of_false (fun he ↦ hl (Option.some.inj he).symm) fun ⟨xs', hs', hy⟩ ↦ ?_
      exact absurd ((hr.home_of_mem hs' hy).symm.trans hx.1) (Option.some_ne_none list')
    · rw [Function.update_of_ne hy]
      exact hr.home y list'

/-- **Insertion** at a cut of the ring. -/
theorem insert (hr : Refines a h) (hs : a.seq list = some (ys ++ zs)) (hx : a.Unlinked x) :
    Refines (a.insert list x (ys ++ x :: zs))
      { h with links := LL.llAdd h.links x (ys.getLastD list) (zs.headD list) } := by
  refine ⟨fun list' xs' hs' ↦ ?_, fun list' hs' ↦ hr.offset list' (seq_ne_none hs hs'),
    hr.home_insert hs hx (by simp [or_left_comm]), fun list' hs' ↦ ?_⟩
  · rcases eq_or_ne list' list with rfl | hl
    · obtain rfl : ys ++ x :: zs = xs' :=
        Option.some.inj ((Function.update_self list' _ a.seq).symm.trans hs')
      exact LL.ring_llAdd (hr.ring _ _ hs) (hr.unlinked_notMem hs hx)
    · have hs'' : a.seq list' = some xs' := (Function.update_of_ne hl _ a.seq).symm.trans hs'
      refine hr.ring_of_ne hs hs'' hl fun y hy hy' ↦ LL.llAdd_frame (fun he ↦ ?_) hy
      exact hr.unlinked_notMem hs'' hx (he ▸ hy')
  · have hinit := seq_ne_none hs hs'
    have hne : list' ≠ x := fun he ↦ hinit (he ▸ hx.2)
    exact (Function.update_of_ne hne _ a.home).trans (hr.head list' hinit)

/-- After a removal the headers are where the sequences say. -/
theorem home_remove (hr : Refines a h) (hs : a.seq list = some xs) (hx : x ∈ xs)
    (hmem : ∀ y, y ∈ ys ↔ y ≠ x ∧ y ∈ xs) (y list' : BitVec 64) :
    (a.remove list x ys).home y = some list' ↔
      ∃ xs', (a.remove list x ys).seq list' = some xs' ∧ y ∈ xs' := by
  show Function.update a.home x none y = some list' ↔
    ∃ xs', Function.update a.seq list (some ys) list' = some xs' ∧ y ∈ xs'
  rcases eq_or_ne list' list with rfl | hl
  · rw [Function.update_self]
    simp only [Option.some.injEq, exists_eq_left', hmem]
    rcases eq_or_ne y x with rfl | hy
    · simp
    · rw [Function.update_of_ne hy, hr.home, and_iff_right hy, hs]
      simp
  · rw [Function.update_of_ne hl]
    rcases eq_or_ne y x with rfl | hy
    · rw [Function.update_self]
      refine iff_of_false (fun he ↦ ?_) fun ⟨xs', hs', hy⟩ ↦ hl ?_
      · cases he
      · exact Option.some.inj ((hr.home_of_mem hs' hy).symm.trans (hr.home_of_mem hs hx))
    · rw [Function.update_of_ne hy]
      exact hr.home y list'

/-- **Removal** of a header from the ring it is in. -/
theorem remove (hr : Refines a h) (hs : a.seq list = some (ys ++ x :: zs)) :
    Refines (a.remove list x (ys ++ zs)) { h with links := LL.del 0 h.links x } := by
  have hring := hr.ring _ _ hs
  have hnodup := (List.nodup_cons.1 hring.1.2).2
  have hx : x ∉ ys ++ zs := (List.nodup_cons.1 (List.nodup_middle.1 hnodup)).1
  have hmem : ∀ y, y ∈ ys ++ zs ↔ y ≠ x ∧ y ∈ ys ++ x :: zs := fun y ↦ by
    rcases eq_or_ne y x with rfl | hy
    · simpa using hx
    · simp [hy]
  refine ⟨fun list' xs' hs' ↦ ?_, fun list' hs' ↦ hr.offset list' (seq_ne_none hs hs'),
    hr.home_remove hs (by simp) hmem, fun list' hs' ↦ ?_⟩
  · rcases eq_or_ne list' list with rfl | hl
    · obtain rfl : ys ++ zs = xs' :=
        Option.some.inj ((Function.update_self list' _ a.seq).symm.trans hs')
      exact LL.ring_del_mem hring
    · have hs'' : a.seq list' = some xs' := (Function.update_of_ne hl _ a.seq).symm.trans hs'
      exact hr.ring_of_ne hs hs'' hl fun y hy _ ↦ LL.del_frame hring hy
  · show Function.update a.home x none list' = none
    rcases eq_or_ne list' x with rfl | hne
    · exact Function.update_self ..
    · rw [Function.update_of_ne hne]
      exact hr.head list' (seq_ne_none hs hs')

/-- **`LL_init`**, also of a list that is in use. -/
theorem init (hr : Refines a h) (hlist : a.home list = none) (offset : BitVec 64) :
    Refines (a.clear list offset) (h.init list offset) := by
  refine ⟨fun list' xs' hs' ↦ ?_, fun list' hs' ↦ ?_, fun x list' ↦ ?_, fun list' hs' ↦ ?_⟩
  · rcases eq_or_ne list' list with rfl | hl
    · obtain rfl : [] = xs' := Option.some.inj ((Function.update_self list' _ a.seq).symm.trans hs')
      exact LL.ring_init h.links list'
    · have hs'' : a.seq list' = some xs' := (Function.update_of_ne hl _ a.seq).symm.trans hs'
      have hne : ∀ y ∈ list' :: xs', y ≠ list := by
        rintro y hy rfl
        rcases List.mem_cons.1 hy with rfl | hy
        · exact hl rfl
        · exact absurd ((hr.home_of_mem hs'' hy).symm.trans hlist) (Option.some_ne_none list')
      refine (hr.ring list' xs' hs'').congr (fun y hy ↦ ?_) fun y hy ↦ ?_
      · exact setNext_next_of_ne (hne y hy)
      · exact setPrev_prev_of_ne (hne y hy)
  · show Function.update h.headOffset list offset list' = Function.update a.offset list offset list'
    rcases eq_or_ne list' list with rfl | hl
    · rw [Function.update_self, Function.update_self]
    · rw [Function.update_of_ne hl, Function.update_of_ne hl]
      refine hr.offset list' fun hn ↦ hs' ?_
      exact (Function.update_of_ne hl _ a.seq).trans hn
  · show (if a.home x = some list then none else a.home x) = some list' ↔
      ∃ xs', Function.update a.seq list (some []) list' = some xs' ∧ x ∈ xs'
    rcases eq_or_ne list' list with rfl | hl
    · rw [Function.update_self]
      refine iff_of_false (fun he ↦ ?_) fun ⟨xs', hs', hx⟩ ↦ ?_
      · split at he
        · cases he
        · next hne => exact hne he
      · obtain rfl := Option.some.inj hs'
        cases hx
    · rw [Function.update_of_ne hl, ← hr.home]
      split
      · next he =>
        rw [he, Option.some.injEq]
        exact iff_of_false (fun hn ↦ by cases hn) hl.symm
      · rfl
  · show (if a.home list' = some list then none else a.home list') = none
    split
    · rfl
    · rcases eq_or_ne list' list with rfl | hl
      · exact hlist
      · refine hr.head list' fun hn ↦ hs' ?_
        exact (Function.update_of_ne hl _ a.seq).trans hn

/-- The header of an object is the one the specification names. -/
theorem nhead_eq (hr : Refines a h) (hs : a.seq list = some xs) (data : BitVec 64) :
    h.nhead list data = data + a.offset list := by
  rw [ListHeap.nhead, hr.offset list (hs ▸ Option.some_ne_none xs)]

/-- A neighbour given to `LL_add` or `LL_add_prev` is in the ring it belongs to. -/
theorem mem_ringOf (hr : Refines a h) {cur : BitVec 64} (hcur : a.ringOf cur = some list)
    (hs : a.seq list = some xs) : cur ∈ list :: xs := by
  rw [Seqs.ringOf] at hcur
  split at hcur
  · obtain ⟨xs', hs', hmem⟩ := (hr.home cur list).1 hcur
    obtain rfl : xs' = xs := Option.some.inj (hs'.symm.trans hs)
    exact List.mem_cons_of_mem list hmem
  · rw [Option.some.inj hcur]
    exact List.mem_cons_self

/-- The pointers outside of what a call may write are as they were. -/
def Untouched (a : Seqs) (c : ListCmd) (l l' : Links (BitVec 64)) : Prop :=
  ∀ y, y ∉ a.touched c → l'.next y = l.next y ∧ l'.prev y = l.prev y

theorem touched_eq {c : ListCmd} (htarget : a.target c = some list) (hs : a.seq list = some xs) :
    a.touched c = a.inserted c ++ list :: xs := by
  rw [Seqs.touched, htarget]
  show a.inserted c ++ list :: (a.seq list).getD [] = _
  rw [hs, Option.getD_some]

theorem untouched_llAdd {c : ListCmd} {l : Links (BitVec 64)} (hins : a.inserted c = [x])
    (htarget : a.target c = some list) (hs : a.seq list = some (ys ++ zs)) :
    Untouched a c l (LL.llAdd l x (ys.getLastD list) (zs.headD list)) := by
  intro y hy
  rw [touched_eq htarget hs, hins, List.mem_append, not_or, List.mem_singleton] at hy
  exact LL.llAdd_frame hy.1 hy.2

theorem untouched_del (hr : Refines a h) {c : ListCmd} (htarget : a.target c = some list)
    (hs : a.seq list = some (ys ++ x :: zs)) : Untouched a c h.links (LL.del 0 h.links x) := by
  intro y hy
  rw [touched_eq htarget hs, List.mem_append, not_or] at hy
  exact LL.del_frame (hr.ring _ _ hs) hy.2

/-- `LL_append`, and with it `LL_enqueue`. -/
theorem append (hr : Refines a h) {data : BitVec 64} (hs : a.seq list = some xs)
    (hx : a.Unlinked (data + a.offset list)) :
    Refines (a.insert list (data + a.offset list) (xs ++ [data + a.offset list]))
        (h.append list data) ∧
      Untouched a (.append list data) h.links (h.append list data).links := by
  have hs' : a.seq list = some (xs ++ []) := by rw [List.append_nil, hs]
  have heq : LL.addPrev h.links (data + a.offset list) list =
      LL.llAdd h.links (data + a.offset list) (xs.getLastD list) ([].headD list) :=
    LL.addPrev_eq_llAdd (hr.ring _ _ hs')
  rw [ListHeap.append, hr.nhead_eq hs, heq]
  exact ⟨hr.insert hs' hx, untouched_llAdd rfl rfl hs'⟩

/-- **One call.** -/
theorem step (hr : Refines a h) {c : ListCmd} {o : Option (BitVec 64)}
    (hstep : a.step c = some (o, a')) :
    (h.exec c).1 = o ∧ Refines a' (h.exec c).2 ∧ Untouched a c h.links (h.exec c).2.links := by
  cases c with
  | init list offset =>
    obtain ⟨hlist, heq⟩ := Option.ite_none_right_eq_some.1 hstep
    cases heq
    refine ⟨rfl, hr.init hlist offset, fun y hy ↦ ?_⟩
    have hne : y ≠ list := fun he ↦ hy (by rw [he]; exact List.mem_cons_self)
    exact ⟨setNext_next_of_ne hne, setPrev_prev_of_ne hne⟩
  | enqueue list data | append list data =>
    obtain ⟨xs, hs, hif⟩ := Option.bind_eq_some_iff.1 hstep
    obtain ⟨hx, heq⟩ := Option.ite_none_right_eq_some.1 hif
    cases heq
    exact ⟨rfl, hr.append hs hx⟩
  | add new cur =>
    obtain ⟨list, hcur, hbind⟩ := Option.bind_eq_some_iff.1 hstep
    obtain ⟨xs, hs, hif⟩ := Option.bind_eq_some_iff.1 hbind
    obtain ⟨hx, heq⟩ := Option.ite_none_right_eq_some.1 hif
    cases heq
    obtain ⟨ys, zs, rfl, rfl, hafter⟩ := afterNode_eq (n := new) (hr.mem_ringOf hcur hs)
    rw [hafter]
    show none = none ∧ Refines _ { h with links := LL.add h.links new (ys.getLastD list) } ∧
      Untouched a _ h.links (LL.add h.links new (ys.getLastD list))
    rw [LL.add_eq_llAdd (hr.ring _ _ hs)]
    exact ⟨rfl, hr.insert hs hx, untouched_llAdd rfl hcur hs⟩
  | addPrev new cur =>
    obtain ⟨list, hcur, hbind⟩ := Option.bind_eq_some_iff.1 hstep
    obtain ⟨xs, hs, hif⟩ := Option.bind_eq_some_iff.1 hbind
    obtain ⟨hx, heq⟩ := Option.ite_none_right_eq_some.1 hif
    cases heq
    obtain ⟨ys, zs, rfl, rfl, hbefore⟩ := beforeNode_eq (n := new) (hr.mem_ringOf hcur hs)
    rw [hbefore]
    show none = none ∧ Refines _ { h with links := LL.addPrev h.links new (zs.headD list) } ∧
      Untouched a _ h.links (LL.addPrev h.links new (zs.headD list))
    rw [LL.addPrev_eq_llAdd (hr.ring _ _ hs)]
    exact ⟨rfl, hr.insert hs hx, untouched_llAdd rfl hcur hs⟩
  | dequeue list =>
    obtain ⟨xs, hs, heq⟩ := Option.map_eq_some_iff.1 hstep
    have hring := hr.ring _ _ hs
    rcases xs with - | ⟨x, xs⟩
    · cases heq
      show ((LL.dequeue 0 h.links list).1.map _ = none) ∧
        Refines a { h with links := (LL.dequeue 0 h.links list).2 } ∧
        Untouched a _ h.links (LL.dequeue 0 h.links list).2
      rw [LL.dequeue_nil hring.1]
      exact ⟨rfl, hr, fun _ _ ↦ ⟨rfl, rfl⟩⟩
    · cases heq
      show ((LL.dequeue 0 h.links list).1.map _ = _) ∧
        Refines _ { h with links := (LL.dequeue 0 h.links list).2 } ∧
        Untouched a _ h.links (LL.dequeue 0 h.links list).2
      rw [LL.dequeue_cons hring.1]
      have hs' : a.seq list = some ([] ++ x :: xs) := hs
      refine ⟨?_, hr.remove hs', hr.untouched_del rfl hs'⟩
      rw [Option.map_some, ListHeap.ndata, hr.offset list (hs ▸ Option.some_ne_none _)]
  | del node =>
    obtain ⟨list, hhome, hmap⟩ := Option.bind_eq_some_iff.1 hstep
    obtain ⟨xs, hs, heq⟩ := Option.map_eq_some_iff.1 hmap
    cases heq
    obtain ⟨xs', hs', hmem⟩ := (hr.home node list).1 hhome
    obtain rfl : xs' = xs := Option.some.inj (hs'.symm.trans hs)
    obtain ⟨ys, zs, -, rfl, herase⟩ := List.exists_erase_eq hmem
    rw [herase]
    exact ⟨rfl, hr.remove hs, hr.untouched_del hhome hs⟩

/-- `LL_empty`, `LL_head` and `LL_for_each` read off the sequence. -/
theorem observe (hr : Refines a h) (hs : a.seq list = some xs) :
    (h.empty list = true ↔ xs = []) ∧ h.head list = (a.objects list xs).head? ∧
      h.forEach list (xs.length + 1) = some (a.objects list xs) := by
  have hring := hr.ring _ _ hs
  have hempty := LL.empty_iff hring.1
  have hdata : h.ndata list = (· - a.offset list) := funext fun node ↦ by
    rw [ListHeap.ndata, hr.offset list (hs ▸ Option.some_ne_none xs)]
  refine ⟨hempty, ?_, ?_⟩
  · rw [ListHeap.head, LL.head, Seqs.objects, List.head?_map, hdata]
    rcases xs with - | ⟨x, xs⟩
    · rw [if_pos (hempty.2 rfl)]
      rfl
    · rw [if_neg fun he ↦ List.cons_ne_nil x xs (hempty.1 he), hring.1.1.1]
      rfl
  · rw [ListHeap.forEach, ListHeap.forEachFrom_ndata,
      LL.forEach_of_path hring.1.1 (List.nodup_cons.1 hring.1.2).1, Option.map_some, hdata]
    rfl

end Refines

/-- A call changes the sequence of the list it is about, and no other. -/
theorem Seqs.step_seq_of_ne {a a' : Seqs} {c : ListCmd} {o : Option (BitVec 64)}
    (hstep : a.step c = some (o, a')) {list : BitVec 64} (hne : a.target c ≠ some list) :
    a'.seq list = a.seq list := by
  cases c with
  | init list' offset =>
    obtain ⟨-, heq⟩ := Option.ite_none_right_eq_some.1 hstep
    cases heq
    exact Function.update_of_ne (fun he ↦ hne (congrArg some he.symm)) ..
  | enqueue list' data | append list' data =>
    obtain ⟨xs, hs, hif⟩ := Option.bind_eq_some_iff.1 hstep
    obtain ⟨-, heq⟩ := Option.ite_none_right_eq_some.1 hif
    cases heq
    exact Function.update_of_ne (fun he ↦ hne (congrArg some he.symm)) ..
  | add new cur | addPrev new cur =>
    obtain ⟨list', hcur, hbind⟩ := Option.bind_eq_some_iff.1 hstep
    obtain ⟨xs, hs, hif⟩ := Option.bind_eq_some_iff.1 hbind
    obtain ⟨-, heq⟩ := Option.ite_none_right_eq_some.1 hif
    cases heq
    exact Function.update_of_ne (fun he ↦ hne (hcur.trans (congrArg some he.symm))) ..
  | dequeue list' =>
    obtain ⟨xs, hs, heq⟩ := Option.map_eq_some_iff.1 hstep
    rcases xs with - | ⟨x, xs⟩
    · cases heq
      rfl
    · cases heq
      exact Function.update_of_ne (fun he ↦ hne (congrArg some he.symm)) ..
  | del node =>
    obtain ⟨list', hhome, hmap⟩ := Option.bind_eq_some_iff.1 hstep
    obtain ⟨xs, hs, heq⟩ := Option.map_eq_some_iff.1 hmap
    cases heq
    exact Function.update_of_ne (fun he ↦ hne (hhome.trans (congrArg some he.symm))) ..

/-- **The lists are the sequences.** Every allowed sequence of calls, on a heap with anything in it,
returns what it returns on the sequences; afterwards each initialised list is a ring with `next` and
`prev` inverse to each other, and `LL_empty`, `LL_head` and `LL_for_each` see its objects. What
comes next, when it is allowed, changes the sequence of one list, and writes no pointer of a header
outside of it. -/
theorem lists_refine (h₀ : ListHeap) {cmds : List ListCmd} {out : List (Option (BitVec 64))}
    {a : Seqs} (hrun : runTrace Seqs.step .uninitialised cmds = some (out, a)) :
    ∃ h : ListHeap, runTrace (fun (h : ListHeap) c ↦ some (h.exec c)) h₀ cmds = some (out, h) ∧
      (∀ list xs, a.seq list = some xs →
        IsRing h.links list xs ∧
        (∀ x ∈ list :: xs, h.links.next (h.links.prev x) = x ∧ h.links.prev (h.links.next x) = x) ∧
        (h.empty list = true ↔ xs = []) ∧ h.head list = (a.objects list xs).head? ∧
        h.forEach list (xs.length + 1) = some (a.objects list xs)) ∧
      ∀ c o a', a.step c = some (o, a') →
        (∀ list, a.target c ≠ some list → a'.seq list = a.seq list) ∧
        ∀ y, y ∉ a.touched c → (h.exec c).2.links.next y = h.links.next y ∧
          (h.exec c).2.links.prev y = h.links.prev y := by
  have hsim : ∀ a h c o a', Refines a h → Seqs.step a c = some (o, a') →
      (ListHeap.exec h c).1 = o ∧ Refines a' (ListHeap.exec h c).2 := fun a h c o a' hr hstep ↦
    ⟨(hr.step hstep).1, (hr.step hstep).2.1⟩
  obtain ⟨h, hheap, hr⟩ := runTrace_of_forward hsim (Refines.uninitialised h₀) hrun
  refine ⟨h, hheap, fun list xs hs ↦ ?_, fun c o a' hstep ↦ ⟨fun list hne ↦ ?_, ?_⟩⟩
  · have hring := hr.ring list xs hs
    exact ⟨hring, fun x hx ↦ hring.inverse hx, hr.observe hs⟩
  · exact Seqs.step_seq_of_ne hstep hne
  · exact (hr.step hstep).2.2

/-- Two processes with their headers `queue` at offset `0` and `procs` at offset `16`, on a ready
queue and on the list of all processes; the first leaves the ready queue and stays on the other. -/
def twoLists : List ListCmd :=
  [.init 0x100 0, .init 0x200 16, .enqueue 0x100 0x1000, .enqueue 0x200 0x1000,
    .enqueue 0x100 0x2000, .addPrev 0x2010 0x1010, .dequeue 0x100, .add 0x1000 0x100, .del 0x2000]

theorem lists_refine_twoLists :
    ∃ out a, ∃ h : ListHeap, runTrace Seqs.step .uninitialised twoLists = some (out, a) ∧
      runTrace (fun (h : ListHeap) c ↦ some (h.exec c)) ⟨⟨fun _ ↦ 0, fun _ ↦ 0⟩, fun _ ↦ 0⟩
        twoLists = some (out, h) ∧
      h.forEach 0x100 2 = some [0x1000] ∧ h.forEach 0x200 3 = some [0x2000, 0x1000] := by
  have hsome : (runTrace Seqs.step .uninitialised twoLists).map (fun r ↦
      (r.2.seq 0x100, r.2.seq 0x200, r.2.offset 0x100, r.2.offset 0x200)) =
        some (some [0x1000], some [0x2010, 0x1010], 0, 16) := by
    decide +kernel
  obtain ⟨⟨out, a⟩, hrun, ha⟩ := Option.map_eq_some_iff.1 hsome
  simp only [Prod.mk.injEq] at ha
  obtain ⟨hready, hprocs, hoff, hoff'⟩ := ha
  obtain ⟨h, hheap, hlists, -⟩ := lists_refine ⟨⟨fun _ ↦ 0, fun _ ↦ 0⟩, fun _ ↦ 0⟩ hrun
  obtain ⟨-, -, -, -, hfirst⟩ := hlists _ _ hready
  obtain ⟨-, -, -, -, hsecond⟩ := hlists _ _ hprocs
  refine ⟨out, a, h, hrun, hheap, hfirst.trans ?_, hsecond.trans ?_⟩
  · rw [Seqs.objects, hoff]
    rfl
  · rw [Seqs.objects, hoff']
    rfl

end Marimba
