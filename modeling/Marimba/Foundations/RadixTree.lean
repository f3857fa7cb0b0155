import Mathlib.Data.List.Basic
import Mathlib.Data.List.Induction

/-!
# Radix trees stored in a graph of tables

A radix tree is a root and a partial `child` function: `child t i` is the node that entry `i` of
table `t` refers to. Nothing stops such a graph from sharing tables or from being cyclic; that it is
a tree down to some depth is the statement `IsTree`, that no node is reached by two paths.

The three ways in which a table write can change what paths reach are the three lemmas here:

* `walk_congr` — entries of nodes that are no table are changed: nothing is.
* `walk_insert` — an empty entry is set to a fresh node: exactly one path is added.
* `walk_erase` — an entry of a last-level table is cleared: exactly one path is lost.

In each case `child'` is only compared with `child` **at the tables that paths of length below the
depth reach**, so the content of leaves and of unreachable nodes is irrelevant.
-/

namespace RadixTree

variable {N I : Type*} {child child' : N → I → Option N} {root t g : N} {i : I} {d : ℕ}
  {p q : List I}

/-- Follow a path of entries from a node. -/
def walk (child : N → I → Option N) : N → List I → Option N
  | t, [] => some t
  | t, i :: is => (child t i).bind fun c ↦ walk child c is

@[simp] theorem walk_nil (child : N → I → Option N) (t : N) : walk child t [] = some t := rfl

theorem walk_append (child : N → I → Option N) (t : N) (p q : List I) :
    walk child t (p ++ q) = (walk child t p).bind fun c ↦ walk child c q := by
  induction p generalizing t with
  | nil => rfl
  | cons i p ih =>
    rw [List.cons_append, walk, walk, Option.bind_assoc]
    exact congrArg _ (funext fun c ↦ ih c)

/-- The last step of a path. -/
theorem walk_concat (child : N → I → Option N) (t : N) (p : List I) (i : I) :
    walk child t (p ++ [i]) = (walk child t p).bind fun c ↦ child c i := by
  rw [walk_append]
  refine congrArg _ (funext fun c ↦ ?_)
  rw [walk]
  cases child c i <;> rfl

/-- A path through a last step: the table it leaves and the entry it takes. -/
theorem walk_concat_eq_some {f : N} (h : walk child root (p ++ [i]) = some f) :
    ∃ t, walk child root p = some t ∧ child t i = some f := by
  rw [walk_concat, Option.bind_eq_some_iff] at h
  exact h

/-- No node is reached by two paths of length at most `d`. -/
def IsTree (child : N → I → Option N) (root : N) (d : ℕ) : Prop :=
  ∀ p q : List I, p.length ≤ d → q.length ≤ d → ∀ f, walk child root p = some f →
    walk child root q = some f → p = q

/-- Paths only read the entries of the tables they pass through. -/
theorem walk_congr (h : ∀ p : List I, p.length < d → ∀ t, walk child root p = some t →
    ∀ i, child' t i = child t i) :
    ∀ p : List I, p.length ≤ d → walk child' root p = walk child root p := by
  intro p
  induction p using List.reverseRecOn with
  | nil => intro _; rfl
  | append_singleton p i ih =>
    intro hp
    rw [List.length_append, List.length_singleton] at hp
    rw [walk_concat, walk_concat, ih (by omega)]
    rcases hw : walk child root p with - | t
    · rfl
    · exact h p (by omega) t hw i

/-- Being a tree only depends on what paths reach. -/
theorem IsTree.congr (h : ∀ p : List I, p.length ≤ d → walk child' root p = walk child root p)
    (ht : IsTree child root d) : IsTree child' root d := fun p q hp hq f h₁ h₂ ↦
  ht p q hp hq f (h p hp ▸ h₁) (h q hq ▸ h₂)

/-- When one entry of a table is changed, one path changes in its last step. -/
theorem child_change [DecidableEq I] {o : Option N} {u : N} {r : List I}
    (htree : IsTree child root d) (hp : p.length < d) (hwalk : walk child root p = some t)
    (hnew : child' t i = o) (hother : ∀ j, (u ≠ t ∨ j ≠ i) → child' u j = child u j)
    (hr : r.length < d) (hw : walk child root r = some u) (j : I) :
    child' u j = if r ++ [j] = p ++ [i] then o else child u j := by
  by_cases he : u = t ∧ j = i
  · obtain ⟨rfl, rfl⟩ := he
    rw [htree r p (by omega) (by omega) u hw hwalk, if_pos rfl, hnew]
  · have hne : r ++ [j] ≠ p ++ [i] := by
      intro e
      obtain ⟨rfl, hj⟩ := List.append_inj' e rfl
      rw [hwalk, Option.some.injEq] at hw
      exact he ⟨hw.symm, List.singleton_inj.1 hj⟩
    rw [if_neg hne, hother j (by tauto)]

section Insert

variable [DecidableEq I] (htree : IsTree child root d) (hp : p.length < d)
  (hwalk : walk child root p = some t) (hnone : child t i = none)
  (hnew : child' t i = some g)
  (hleaf : p.length + 1 < d → ∀ j, child' g j = none)
  (hother : ∀ q : List I, q.length < d → ∀ u, walk child root q = some u → ∀ j,
    (u ≠ t ∨ j ≠ i) → child' u j = child u j)

include htree hp hwalk hnone hnew hleaf hother

/-- **Inserting a node.** When an empty entry of a reachable table is made to refer to a node whose
own entries are empty, the path to that entry is added and no other path changes. -/
theorem walk_insert : ∀ q : List I, q.length ≤ d →
    walk child' root q = if q = p ++ [i] then some g else walk child root q := by
  intro q
  induction q using List.reverseRecOn with
  | nil => intro _; simp
  | append_singleton r j ih =>
    intro hq
    rw [List.length_append, List.length_singleton] at hq
    rw [walk_concat, ih (by omega)]
    by_cases hr : r = p ++ [i]
    · -- below the new node there is nothing, before and after
      subst hr
      rw [List.length_append, List.length_singleton] at hq
      have hlong : p ++ [i] ++ [j] ≠ p ++ [i] := by simp
      rw [if_pos rfl, if_neg hlong, Option.bind_some, hleaf (by omega), walk_concat, walk_concat,
        hwalk, Option.bind_some, hnone, Option.bind_none]
    · rw [if_neg hr]
      rcases hw : walk child root r with - | u
      · have hne : r ++ [j] ≠ p ++ [i] := by
          intro e
          rw [(List.append_inj' e rfl).1, hwalk] at hw
          cases hw
        rw [Option.bind_none, if_neg hne, walk_concat, hw, Option.bind_none]
      · have hrd : r.length < d := by omega
        rw [Option.bind_some, child_change htree hp hwalk hnew (hother r hrd u hw) hrd hw,
          walk_concat, hw, Option.bind_some]

end Insert

section Erase

variable [DecidableEq I] (htree : IsTree child root d) (hp : p.length + 1 = d)
  (hwalk : walk child root p = some t) (hnew : child' t i = none)
  (hother : ∀ q : List I, q.length < d → ∀ u, walk child root q = some u → ∀ j,
    (u ≠ t ∨ j ≠ i) → child' u j = child u j)

include htree hp hwalk hnew hother

/-- **Clearing a last-level entry.** Exactly the path through that entry is lost. -/
theorem walk_erase : ∀ q : List I, q.length ≤ d →
    walk child' root q = if q = p ++ [i] then none else walk child root q := by
  intro q
  induction q using List.reverseRecOn with
  | nil => intro _; simp
  | append_singleton r j ih =>
    intro hq
    rw [List.length_append, List.length_singleton] at hq
    have hr : r ≠ p ++ [i] := by
      rintro rfl
      rw [List.length_append, List.length_singleton] at hq
      omega
    rw [walk_concat, ih (by omega), if_neg hr]
    rcases hw : walk child root r with - | u
    · rw [Option.bind_none, walk_concat, hw, Option.bind_none, ite_self]
    · have hrd : r.length < d := by omega
      rw [Option.bind_some, child_change htree (by omega) hwalk hnew (hother r hrd u hw) hrd hw,
        walk_concat, hw, Option.bind_some]

end Erase

section Tree

variable [DecidableEq I] {r : List I} (htree : IsTree child root d)

include htree

/-- Adding one path, to a **fresh** node, keeps the tree a tree. -/
theorem IsTree.insert (hwalk : ∀ q : List I, q.length ≤ d →
      walk child' root q = if q = r then some g else walk child root q)
    (hfresh : ∀ q : List I, q.length ≤ d → walk child root q ≠ some g) :
    IsTree child' root d := by
  intro q q' hq hq' f h₁ h₂
  rw [hwalk q hq] at h₁
  rw [hwalk q' hq'] at h₂
  split at h₁
  · next hqe =>
    obtain rfl := Option.some.inj h₁
    split at h₂
    · next hqe' => rw [hqe, hqe']
    · exact absurd h₂ (hfresh q' hq')
  · split at h₂
    · obtain rfl := Option.some.inj h₂
      exact absurd h₁ (hfresh q hq)
    · exact htree q q' hq hq' f h₁ h₂

/-- Losing one path keeps the tree a tree. -/
theorem IsTree.erase (hwalk : ∀ q : List I, q.length ≤ d →
      walk child' root q = if q = r then none else walk child root q) :
    IsTree child' root d := by
  intro q q' hq hq' f h₁ h₂
  rw [hwalk q hq] at h₁
  rw [hwalk q' hq'] at h₂
  split at h₁
  · cases h₁
  · split at h₂
    · cases h₂
    · exact htree q q' hq hq' f h₁ h₂

end Tree

end RadixTree
