import Mathlib.Data.List.Nodup
import Mathlib.Data.List.Range
import Mathlib.Data.List.Perm.Basic
import Mathlib.Logic.Equiv.Basic

/-!
# Sorting by selection

A sequence of `n` values, as a function on the indices, that is put in order from its front: in each
round a least value of the rest is exchanged with the first one. `SelectedTo` says how far this has
come, and `SelectedTo.exchange` is a round; what is left is a permutation of what was there
(`map_range_perm_of_exchange`).

The order is any total preorder.
-/

section Selection

variable {α : Type*} {le : α → α → Prop} {x y : ℕ → α} {i j n : ℕ}

/-- The index `j` of a least value among those from `i` to `n`. -/
structure LeastFrom (le : α → α → Prop) (x : ℕ → α) (i n j : ℕ) : Prop where
  from_le : i ≤ j
  lt : j < n
  least : ∀ k, i ≤ k → k < n → le (x j) (x k)

/-- The first `i` values are in order, and none of the others belongs before one of them. -/
def SelectedTo (le : α → α → Prop) (x : ℕ → α) (i n : ℕ) : Prop :=
  ∀ a b, a < i → a < b → b < n → le (x a) (x b)

/-- The values at `i` and `j` are exchanged, and the others up to `n` stay. -/
structure Exchanged (x y : ℕ → α) (i j n : ℕ) : Prop where
  left : y i = x j
  right : y j = x i
  other : ∀ k < n, k ≠ i → k ≠ j → y k = x k

theorem Exchanged.eq_swap (h : Exchanged x y i j n) {k : ℕ} (hk : k < n) :
    y k = x (Equiv.swap i j k) := by
  by_cases hi : k = i
  · rw [hi, Equiv.swap_apply_left, h.left]
  by_cases hj : k = j
  · rw [hj, Equiv.swap_apply_right, h.right]
  rw [Equiv.swap_apply_of_ne_of_ne hi hj, h.other k hk hi hj]

/-- **An exchange permutes the values.** -/
theorem map_range_perm_of_exchanged (h : Exchanged x y i j n) (hi : i < n) (hj : j < n) :
    ((List.range n).map y).Perm ((List.range n).map x) := by
  have hswap : ((List.range n).map (Equiv.swap i j)).Perm (List.range n) := by
    have hnodup := List.Nodup.map (Equiv.swap i j).injective (List.nodup_range (n := n))
    refine (List.perm_ext_iff_of_nodup hnodup List.nodup_range).2 fun k ↦ ?_
    have hmem : ∀ l < n, Equiv.swap i j l < n := fun l hl ↦ by
      rw [Equiv.swap_apply_def]
      split
      · exact hj
      · split
        · exact hi
        · exact hl
    rw [List.mem_map, List.mem_range]
    constructor
    · rintro ⟨l, hl, rfl⟩
      exact hmem l (List.mem_range.1 hl)
    · intro hk
      exact ⟨Equiv.swap i j k, List.mem_range.2 (hmem k hk), Equiv.swap_apply_self i j k⟩
  have hy : (List.range n).map y = ((List.range n).map (Equiv.swap i j)).map x := by
    rw [List.map_map]
    exact List.map_congr_left fun k hk ↦ h.eq_swap (List.mem_range.1 hk)
  rw [hy]
  exact hswap.map x

/-- **A round**: the next value in order is one that is least among the rest. -/
theorem SelectedTo.exchange (h : SelectedTo le x i n) (hleast : LeastFrom le x i n j)
    (hex : Exchanged x y i j n) : SelectedTo le y (i + 1) n := by
  intro a b ha hab hb
  have hin := hleast.from_le.trans_lt hleast.lt
  rcases Nat.lt_succ_iff_lt_or_eq.1 ha with ha | rfl
  · -- both sides of an exchange are behind the values that are in order
    have hya : y a = x a := hex.other a (hab.trans hb) ha.ne (ha.trans_le hleast.from_le).ne
    rw [hya]
    by_cases hbi : b = i
    · rw [hbi, hex.left]
      exact h a j ha (ha.trans_le hleast.from_le) hleast.lt
    by_cases hbj : b = j
    · rw [hbj, hex.right]
      exact h a i ha ha hin
    rw [hex.other b hb hbi hbj]
    exact h a b ha hab hb
  · rw [hex.left]
    by_cases hbj : b = j
    · rw [hbj, hex.right]
      exact hleast.least a le_rfl hin
    · rw [hex.other b hb hab.ne' hbj]
      exact hleast.least b hab.le hb

/-- When the first value is least, it stays. -/
theorem SelectedTo.stay (h : SelectedTo le x i n) (hleast : LeastFrom le x i n i) :
    SelectedTo le x (i + 1) n :=
  h.exchange hleast ⟨rfl, rfl, fun _ _ _ _ ↦ rfl⟩

/-- When all but the last value have been selected, the values are in order. -/
theorem SelectedTo.pairwise (h : SelectedTo le x (n - 1) n) :
    ((List.range n).map x).Pairwise le := by
  rw [List.pairwise_map]
  refine List.pairwise_lt_range.imp_of_mem fun {a b} ha hb hab ↦ ?_
  have hb := List.mem_range.1 hb
  exact h a b (by omega) hab hb

/-- Values in order are least where they are. -/
theorem leastFrom_self_of_pairwise (hrefl : ∀ a, le a a)
    (h : ((List.range n).map x).Pairwise le) (hi : i < n) : LeastFrom le x i n i := by
  refine ⟨le_rfl, hi, fun k hik hk ↦ ?_⟩
  rcases hik.eq_or_lt with rfl | hlt
  · exact hrefl _
  · rw [List.pairwise_map, List.pairwise_iff_getElem] at h
    have hpair := h i k (by simpa using hi) (by simpa using hk) hlt
    simpa using hpair

end Selection
