import Mathlib.Data.List.Basic
import Mathlib.Data.List.Pairwise
import Mathlib.Data.List.Range
import Mathlib.Data.List.Perm.Basic

/-!
# Disjoint extents of memory

An extent is a range of addresses, given by its first address and its length. A list of extents is
`Separate` when no two of them share an address; this is the frame condition of a heap that is cut
into blocks. A word written in one block is then no word of another (`Disjoint.ne`), the condition
does not depend on the order of the blocks (`Separate.perm`), and new blocks may be cut out of an
extent that is disjoint from everything there is (`Separate.carve`).
-/

/-- The addresses `base, …, base + len - 1`. -/
structure Extent where
  base : ℕ
  len : ℕ
  deriving DecidableEq, Repr

namespace Extent

variable {e e' f f' g : Extent} {a b : ℕ}

/-- The address is in the extent. -/
def Has (e : Extent) (a : ℕ) : Prop := e.base ≤ a ∧ a < e.base + e.len

/-- All addresses of the one are addresses of the other. -/
def Within (e f : Extent) : Prop := f.base ≤ e.base ∧ e.base + e.len ≤ f.base + f.len

/-- No address is in both. -/
def Disjoint (e f : Extent) : Prop := e.base + e.len ≤ f.base ∨ f.base + f.len ≤ e.base

instance (e f : Extent) : Decidable (e.Disjoint f) := inferInstanceAs (Decidable (_ ∨ _))

theorem Disjoint.symm (h : e.Disjoint f) : f.Disjoint e := Or.symm h

instance : Std.Symm Extent.Disjoint := ⟨fun _ _ h ↦ h.symm⟩

theorem Disjoint.mono (h : e'.Disjoint f') (he : e.Within e') (hf : f.Within f') :
    e.Disjoint f := by
  rcases h with h | h
  · exact Or.inl (he.2.trans (h.trans hf.1))
  · exact Or.inr (hf.2.trans (h.trans he.1))

theorem Within.refl (e : Extent) : e.Within e := ⟨le_rfl, le_rfl⟩

theorem Disjoint.ne (h : e.Disjoint f) (ha : e.Has a) (hb : f.Has b) : a ≠ b := by
  rintro rfl
  rcases h with h | h
  · exact absurd (ha.2.trans_le h) (Nat.not_lt.2 hb.1)
  · exact absurd (hb.2.trans_le h) (Nat.not_lt.2 ha.1)

/-- An address outside of an extent is none of its addresses. -/
theorem Has.ne (ha : e.Has a) (hb : ¬e.Has b) : b ≠ a := fun h ↦ hb (h ▸ ha)

/-- No two extents of the list share an address. -/
def Separate (es : List Extent) : Prop := es.Pairwise Disjoint

theorem Separate.perm {es fs : List Extent} (hp : es.Perm fs) (h : Separate es) : Separate fs :=
  (hp.pairwise_iff fun h ↦ h.symm).1 h

/-- Blocks of one size, cut one after the other from an address on. -/
def blocks (base size n : ℕ) : List ℕ := (List.range n).map fun j ↦ base + size * j

theorem blocks_succ (base size n : ℕ) :
    blocks base size (n + 1) = blocks base size n ++ [base + size * n] := by
  rw [blocks, List.range_succ, List.map_append]
  rfl

theorem mem_blocks {base size n : ℕ} : b ∈ blocks base size n ↔ ∃ j < n, b = base + size * j := by
  simp [blocks, eq_comm]

theorem within_of_mem_blocks {base size n : ℕ} (hb : b ∈ blocks base size n) :
    Within ⟨b, size⟩ ⟨base, size * n⟩ := by
  obtain ⟨j, hj, rfl⟩ := mem_blocks.1 hb
  refine ⟨Nat.le_add_right _ _, ?_⟩
  calc base + size * j + size = base + size * (j + 1) := by rw [Nat.mul_succ, Nat.add_assoc]
    _ ≤ base + size * n := Nat.add_le_add_left (Nat.mul_le_mul_left size hj) base

theorem separate_blocks (base size n : ℕ) :
    Separate ((blocks base size n).map fun b ↦ ⟨b, size⟩) := by
  rw [Separate, blocks, List.map_map, List.pairwise_map]
  refine List.Pairwise.imp (fun {i j} hij ↦ Or.inl ?_) (List.pairwise_lt_range (n := n))
  calc base + size * i + size = base + size * (i + 1) := by rw [Nat.mul_succ, Nat.add_assoc]
    _ ≤ base + size * j := Nat.add_le_add_left (Nat.mul_le_mul_left size hij) base

/-- **Carving**: blocks cut out of an extent disjoint from all others are separate from them. -/
theorem Separate.carve {es : List Extent} {base size n : ℕ} (h : Separate es)
    (hg : Within ⟨base, size * n⟩ g) (hfresh : ∀ e ∈ es, g.Disjoint e) :
    Separate ((blocks base size n).map (fun b ↦ ⟨b, size⟩) ++ es) := by
  refine List.pairwise_append.2 ⟨separate_blocks base size n, h, fun e he f hf ↦ ?_⟩
  obtain ⟨b, hb, rfl⟩ := List.mem_map.1 he
  have hw := within_of_mem_blocks hb
  exact (hfresh f hf).mono ⟨hg.1.trans hw.1, hw.2.trans hg.2⟩ (Within.refl f)

end Extent
