import Marimba.Foundations.Transition
import Mathlib.Data.List.Perm.Basic

/-!
# A FIFO pool of resources

The abstract behaviour of an allocator that hands out the resource returned longest ago: a queue of
free resources and the list of those held by clients. `take` pops the front of the queue, `give`
pushes a held resource at the back, and `use` is anything a client does to a resource it holds.
`give` and `use` are only allowed on held resources.

`FifoPool.perm_of_step` is the conservation law: a command permutes queue and held together, so no
resource is lost and none appears twice.
-/

/-- What a client of the pool may do. -/
inductive PoolCmd (α : Type*) where
  | take
  | give (a : α)
  | use (a : α)
  deriving DecidableEq

/-- Free resources in the order in which they will be handed out, and the held ones. -/
structure FifoPool (α : Type*) where
  queue : List α
  held : List α

namespace FifoPool

variable {α : Type*} [DecidableEq α]

/-- One command on the pool. The output of `take` is the resource, or `none` when the queue is
empty; `give` and `use` have no output of their own. -/
def step (p : FifoPool α) : PoolCmd α → Option (Option α × FifoPool α)
  | .take =>
    match p.queue with
    | [] => some (none, p)
    | a :: q => some (some a, ⟨q, a :: p.held⟩)
  | .give a => if a ∈ p.held then some (none, ⟨p.queue ++ [a], p.held.erase a⟩) else none
  | .use a => if a ∈ p.held then some (none, p) else none

/-- A single command conserves the resources. -/
theorem perm_of_step {p p' : FifoPool α} {c : PoolCmd α} {out : Option α}
    (h : p.step c = some (out, p')) : (p'.queue ++ p'.held).Perm (p.queue ++ p.held) := by
  cases c with
  | take =>
    rcases hq : p.queue with - | ⟨a, q⟩
    · simp only [step, hq, Option.some.injEq, Prod.mk.injEq] at h
      obtain ⟨-, rfl⟩ := h
      rw [hq]
    · simp only [step, hq, Option.some.injEq, Prod.mk.injEq] at h
      obtain ⟨-, rfl⟩ := h
      exact List.perm_middle
  | give a =>
    simp only [step] at h
    split at h
    · next ha =>
      obtain ⟨-, rfl⟩ := Prod.mk.inj (Option.some.inj h)
      rw [List.append_assoc]
      exact List.Perm.append_left _ (List.perm_cons_erase ha).symm
    · cases h
  | use a =>
    simp only [step] at h
    split at h
    · obtain ⟨-, rfl⟩ := Prod.mk.inj (Option.some.inj h)
      exact List.Perm.refl _
    · cases h

end FifoPool
