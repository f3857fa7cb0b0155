import Mathlib.Data.List.Basic
import Mathlib.Data.List.Nodup
import Mathlib.Data.List.Infix

/-!
# Singly linked chains

A chain is what a `next` pointer spells out: starting from a head pointer (`none` for the null
pointer), `Chain next head xs` says that following `next` visits exactly the nodes `xs`, in order,
and then ends at null. The list is finite by being a list, so a chain is acyclic by being stated.

The lemmas say what the pointer operations of a linked list do to it: moving the head past the
first node, redirecting a node's pointer to insert, unlink or append, and changing pointers of nodes
that are not in the chain.
-/

variable {α : Type*}

/-- Following `next` from `head` visits exactly the nodes of the list and then ends. -/
def Chain (next : α → Option α) : Option α → List α → Prop
  | head, [] => head = none
  | head, x :: xs => head = some x ∧ Chain next (next x) xs

namespace Chain

variable {next next' : α → Option α} {head : Option α} {x y : α} {xs ys : List α}

@[simp] theorem nil_iff : Chain next head [] ↔ head = none := Iff.rfl

@[simp] theorem cons_iff : Chain next head (x :: xs) ↔ head = some x ∧ Chain next (next x) xs :=
  Iff.rfl

/-- A chain determines its list: two traversals from one head visit the same nodes. -/
theorem unique : ∀ {head : Option α} {xs ys : List α}, Chain next head xs → Chain next head ys →
    xs = ys
  | _, [], [], _, _ => rfl
  | _, [], _ :: _, h, h' => by simp [nil_iff.1 h] at h'
  | _, _ :: _, [], h, h' => by simp [nil_iff.1 h'] at h
  | _, x :: xs, y :: ys, h, h' => by
    obtain ⟨rfl, hx⟩ := h
    obtain ⟨hy, hys⟩ := h'
    obtain rfl := Option.some.inj hy
    rw [unique hx hys]

/-- Splitting a traversal at a node: the rest of the chain starts there. -/
theorem of_append : ∀ {xs : List α} {head : Option α}, Chain next head (xs ++ ys) →
    ∃ head', Chain next head' ys
  | [], head, hc => ⟨head, hc⟩
  | _ :: _, _, hc => of_append hc.2

/-- **A chain visits no node twice**: a repetition would make the traversal go round forever. -/
theorem nodup : ∀ {head : Option α} {xs : List α}, Chain next head xs → xs.Nodup
  | _, [], _ => List.nodup_nil
  | _, x :: xs, hc => by
    refine List.nodup_cons.2 ⟨fun hx ↦ ?_, hc.2.nodup⟩
    obtain ⟨ys, zs, rfl⟩ := List.append_of_mem hx
    obtain ⟨head', hz⟩ := hc.2.of_append
    obtain ⟨-, htail⟩ := hz
    -- the same pointer `next x` would have to spell out two lists of different lengths
    have hlen := congrArg List.length (unique hc.2 htail)
    simp only [List.length_append, List.length_cons] at hlen
    omega

/-- A chain only depends on the pointers of its own nodes. -/
theorem congr (h : ∀ z ∈ xs, next z = next' z) (hc : Chain next head xs) :
    Chain next' head xs := by
  induction xs generalizing head with
  | nil => exact hc
  | cons x xs ih =>
    refine ⟨hc.1, ?_⟩
    rw [← h x List.mem_cons_self]
    exact ih (fun z hz ↦ h z (List.mem_cons_of_mem x hz)) hc.2

/-- Writing the pointer of a node outside the chain does not change it. -/
theorem update_of_notMem [DecidableEq α] {p : Option α} (h : x ∉ xs) (hc : Chain next head xs) :
    Chain (Function.update next x p) head xs :=
  hc.congr fun z hz ↦ (Function.update_of_ne (fun e ↦ h (by rwa [e] at hz)) _ _).symm

/-- **Redirecting** the pointer of a node: what was behind it is replaced by another chain. -/
theorem redirect [DecidableEq α] {head' : Option α} {zs : List α}
    (hc : Chain next head (xs ++ x :: ys)) (hz : Chain next head' zs) (hx : x ∉ zs) :
    Chain (Function.update next x head') head (xs ++ x :: zs) := by
  induction xs generalizing head with
  | nil =>
    refine ⟨hc.1, ?_⟩
    rw [Function.update_self]
    exact hz.update_of_notMem hx
  | cons z xs ih =>
    have hne : z ≠ x := by
      rintro rfl
      exact (List.nodup_cons.1 hc.nodup).1 (List.mem_append_right xs List.mem_cons_self)
    refine ⟨hc.1, ?_⟩
    rw [Function.update_of_ne hne]
    exact ih hc.2

/-- The rest of a chain starts where the pointer of the node before it points to. -/
theorem tail_of_append (hc : Chain next head (xs ++ x :: ys)) : Chain next (next x) ys := by
  induction xs generalizing head with
  | nil => exact hc.2
  | cons z xs ih => exact ih hc.2

end Chain
