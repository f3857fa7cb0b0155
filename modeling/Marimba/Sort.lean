import Marimba.Foundations.Selection
import Marimba.Memory.BootSegments

/-!
# `sort`

The selection sort of `utils.c` on raw memory. Pointers are addresses, and the loops end when a
pointer *equals* the end of the array; memory is any type `σ`, which only `cmp` reads and only `swp`
writes. The answer of the model has the calls of `swp` beside the memory.

`sort` returns whatever `cmp` and `swp` do (`sort_isSome`). When they keep their contract
(`CmpContract`, `SwpContract`) the elements are put in order (`sort_spec`). The comparison is
inverted: it is negative when its *first* argument is the greater one.

`sort_kernel_section_array` keeps the contract. `sort_mmap_entry_array` does not: the elements are
`struct MMapEntry`, of two words, and `mmap_entry_swp` exchanges three words.
-/

namespace Marimba

section Program

variable {σ : Type*} (cmp : σ → ℕ → ℕ → ℤ) (swp : σ → ℕ → ℕ → σ)

/-- The inner loop: the pointer to a least element from `min` on, where the elements before `temp`
have been compared. -/
def selectMin (m : σ) (elLen stop : ℕ) : (fuel min temp : ℕ) → Option ℕ
  | fuel, min, temp =>
    if temp = stop then some min
    else
      match fuel with
      | 0 => none
      | fuel + 1 =>
        selectMin m elLen stop fuel (if cmp m min temp < 0 then temp else min) (temp + elLen)

/-- The outer loop, from `curr` on, with the calls of `swp`. -/
def sortFrom (arr numEls elLen : ℕ) : (fuel curr : ℕ) → σ → Option (σ × List (ℕ × ℕ))
  | fuel, curr, m =>
    if curr = arr + elLen * (numEls - 1) then some (m, [])
    else
      match fuel with
      | 0 => none
      | fuel + 1 =>
        (selectMin cmp m elLen (arr + elLen * numEls) numEls curr (curr + elLen)).bind fun min ↦
          if min ≠ curr then
            (sortFrom arr numEls elLen fuel (curr + elLen) (swp m curr min)).map fun r ↦
              (r.1, (curr, min) :: r.2)
          else sortFrom arr numEls elLen fuel (curr + elLen) m

/-- `sort`: the memory afterwards, and the calls of `swp`. -/
def sort (m : σ) (arr numEls elLen : ℕ) : Option (σ × List (ℕ × ℕ)) :=
  if numEls = 0 ∨ numEls = 1 then some (m, [])
  else sortFrom cmp swp arr numEls elLen numEls arr m

end Program

/-! ### The contract -/

/-- The pointer to an element of the array. -/
def IsElement (arr numEls elLen p : ℕ) : Prop := ∃ k < numEls, p = arr + elLen * k

/-- The elements of the array. -/
def elements {σ α : Type*} (elem : σ → ℕ → α) (arr numEls elLen : ℕ) (m : σ) : List α :=
  (List.range numEls).map fun k ↦ elem m (arr + elLen * k)

/-- **What `cmp` has to do**: it is negative when the first element is the greater one, for a total
preorder on the elements. -/
structure CmpContract {σ α : Type*} (le : α → α → Prop) (elem : σ → ℕ → α) (arr numEls elLen : ℕ)
    (cmp : σ → ℕ → ℕ → ℤ) : Prop where
  total : ∀ a b, le a b ∨ le b a
  trans : ∀ a b c, le a b → le b c → le a c
  neg_iff : ∀ m p q, IsElement arr numEls elLen p → IsElement arr numEls elLen q →
    (cmp m p q < 0 ↔ ¬le (elem m p) (elem m q))

/-- **What `swp` has to do**: it exchanges two different elements and leaves the others. -/
structure SwpContract {σ α : Type*} (elem : σ → ℕ → α) (arr numEls elLen : ℕ)
    (swp : σ → ℕ → ℕ → σ) : Prop where
  left : ∀ m p q, IsElement arr numEls elLen p → IsElement arr numEls elLen q → p ≠ q →
    elem (swp m p q) p = elem m q
  right : ∀ m p q, IsElement arr numEls elLen p → IsElement arr numEls elLen q → p ≠ q →
    elem (swp m p q) q = elem m p
  other : ∀ m p q r, IsElement arr numEls elLen p → IsElement arr numEls elLen q → p ≠ q →
    IsElement arr numEls elLen r → r ≠ p → r ≠ q → elem (swp m p q) r = elem m r

/-! ### The loops -/

section Loops

variable {σ α : Type*} {cmp : σ → ℕ → ℕ → ℤ} {swp : σ → ℕ → ℕ → σ} {le : α → α → Prop}
  {elem : σ → ℕ → α} {arr numEls elLen fuel i j t : ℕ} {m m' : σ} {calls : List (ℕ × ℕ)}

theorem pointer_inj (hpos : 0 < elLen) : arr + elLen * i = arr + elLen * j ↔ i = j := by
  rw [Nat.add_left_cancel_iff, Nat.mul_right_inj hpos.ne']

theorem pointer_succ : arr + elLen * i + elLen = arr + elLen * (i + 1) := by
  rw [Nat.mul_succ, Nat.add_assoc]

/-- The inner loop returns a pointer to an element, whatever `cmp` does. -/
theorem selectMin_isSome (cmp : σ → ℕ → ℕ → ℤ) (m : σ) (arr : ℕ) (hpos : 0 < elLen) (hj : i ≤ j)
    (hjt : j < t) (ht : t ≤ numEls) (hf : numEls ≤ t + fuel) :
    ∃ j', i ≤ j' ∧ j' < numEls ∧
      selectMin cmp m elLen (arr + elLen * numEls) fuel (arr + elLen * j) (arr + elLen * t) =
        some (arr + elLen * j') := by
  induction fuel generalizing j t with
  | zero =>
    obtain rfl : t = numEls := by omega
    refine ⟨j, hj, hjt, ?_⟩
    rw [selectMin, if_pos rfl]
  | succ fuel ih =>
    rw [selectMin, pointer_succ]
    rcases ht.eq_or_lt with rfl | hlt
    · exact ⟨j, hj, hjt, by rw [if_pos rfl]⟩
    · rw [if_neg (mt (pointer_inj hpos).1 hlt.ne)]
      split
      · exact ih (by omega) (Nat.lt_succ_self t) hlt (by omega)
      · exact ih hj (by omega) hlt (by omega)

/-- **The inner loop finds a least element.** -/
theorem selectMin_least (hc : CmpContract le elem arr numEls elLen cmp) (hpos : 0 < elLen)
    (hleast : LeastFrom le (fun k ↦ elem m (arr + elLen * k)) i t j) (ht : t ≤ numEls) {p : ℕ}
    (hrun : selectMin cmp m elLen (arr + elLen * numEls) fuel (arr + elLen * j)
      (arr + elLen * t) = some p) :
    ∃ j', p = arr + elLen * j' ∧
      LeastFrom le (fun k ↦ elem m (arr + elLen * k)) i numEls j' := by
  induction fuel generalizing j t with
  | zero =>
    rw [selectMin] at hrun
    split at hrun
    · rename_i heq
      exact ⟨j, (Option.some.inj hrun).symm, (pointer_inj hpos).1 heq ▸ hleast⟩
    · cases hrun
  | succ fuel ih =>
    rw [selectMin, pointer_succ] at hrun
    rcases ht.eq_or_lt with rfl | hlt
    · rw [if_pos rfl] at hrun
      exact ⟨j, (Option.some.inj hrun).symm, hleast⟩
    · rw [if_neg (mt (pointer_inj hpos).1 hlt.ne)] at hrun
      have hneg := hc.neg_iff m (arr + elLen * j) (arr + elLen * t)
        ⟨j, hleast.lt.trans hlt, rfl⟩ ⟨t, hlt, rfl⟩
      have hit : i ≤ t := hleast.from_le.trans hleast.lt.le
      split at hrun
      · -- the element at `temp` is less than all before it
        rename_i hcmp
        have hlt' := (hc.total _ _).resolve_left (hneg.1 hcmp)
        refine ih ⟨hit, Nat.lt_succ_self t, fun k hik hk ↦ ?_⟩ hlt hrun
        rcases Nat.lt_succ_iff_lt_or_eq.1 hk with hk | rfl
        · exact hc.trans _ _ _ hlt' (hleast.least k hik hk)
        · exact (hc.total _ _).elim id id
      · rename_i hcmp
        have hle := not_not.1 (mt hneg.2 hcmp)
        refine ih ⟨hleast.from_le, hleast.lt.trans (Nat.lt_succ_self t), fun k hik hk ↦ ?_⟩ hlt hrun
        rcases Nat.lt_succ_iff_lt_or_eq.1 hk with hk | rfl
        · exact hleast.least k hik hk
        · exact hle

/-- The inner loop from the first element on. -/
theorem selectMin_first (hc : CmpContract le elem arr numEls elLen cmp) (hpos : 0 < elLen)
    (hi : i + 1 ≤ numEls)
    (hmin : selectMin cmp m elLen (arr + elLen * numEls) fuel (arr + elLen * i)
      (arr + elLen * (i + 1)) = some (arr + elLen * j)) :
    LeastFrom le (fun k ↦ elem m (arr + elLen * k)) i numEls j := by
  have hfirst : LeastFrom le (fun k ↦ elem m (arr + elLen * k)) i (i + 1) i := by
    refine ⟨le_rfl, Nat.lt_succ_self i, fun k h₁ h₂ ↦ ?_⟩
    obtain rfl : k = i := by omega
    exact (hc.total _ _).elim id id
  obtain ⟨j', hj', hleast⟩ := selectMin_least hc hpos hfirst hi hmin
  rwa [(pointer_inj hpos).1 hj']

/-- An element that is least already stays the choice. -/
theorem selectMin_self (hc : CmpContract le elem arr numEls elLen cmp) (hpos : 0 < elLen)
    (hj : j < numEls) (ht : t ≤ numEls)
    (hle : ∀ k, t ≤ k → k < numEls → le (elem m (arr + elLen * j)) (elem m (arr + elLen * k)))
    {p : ℕ} (hrun : selectMin cmp m elLen (arr + elLen * numEls) fuel (arr + elLen * j)
      (arr + elLen * t) = some p) : p = arr + elLen * j := by
  induction fuel generalizing t with
  | zero =>
    rw [selectMin] at hrun
    split at hrun
    · exact (Option.some.inj hrun).symm
    · cases hrun
  | succ fuel ih =>
    rw [selectMin, pointer_succ] at hrun
    rcases ht.eq_or_lt with rfl | hlt
    · rw [if_pos rfl] at hrun
      exact (Option.some.inj hrun).symm
    · have hneg := hc.neg_iff m (arr + elLen * j) (arr + elLen * t) ⟨j, hj, rfl⟩ ⟨t, hlt, rfl⟩
      rw [if_neg (mt (pointer_inj hpos).1 hlt.ne),
        if_neg (fun h ↦ hneg.1 h (hle t le_rfl hlt))] at hrun
      exact ih hlt (fun k hk ↦ hle k (by omega)) hrun

/-- One round of the outer loop, from the element `i` on. -/
theorem sortFrom_succ (cmp : σ → ℕ → ℕ → ℤ) (swp : σ → ℕ → ℕ → σ) (m : σ) (arr fuel : ℕ)
    (hpos : 0 < elLen) (hi : i + 1 < numEls) :
    ∃ j, i ≤ j ∧ j < numEls ∧
      selectMin cmp m elLen (arr + elLen * numEls) numEls (arr + elLen * i)
        (arr + elLen * (i + 1)) = some (arr + elLen * j) ∧
      sortFrom cmp swp arr numEls elLen (fuel + 1) (arr + elLen * i) m =
        if j ≠ i then
          (sortFrom cmp swp arr numEls elLen fuel (arr + elLen * (i + 1))
            (swp m (arr + elLen * i) (arr + elLen * j))).map fun r ↦
              (r.1, (arr + elLen * i, arr + elLen * j) :: r.2)
        else sortFrom cmp swp arr numEls elLen fuel (arr + elLen * (i + 1)) m := by
  obtain ⟨j, hij, hj, hmin⟩ := selectMin_isSome cmp m arr hpos le_rfl (Nat.lt_succ_self i)
    hi.le (Nat.le_add_left numEls (i + 1))
  refine ⟨j, hij, hj, hmin, ?_⟩
  have hstop : arr + elLen * i ≠ arr + elLen * (numEls - 1) := mt (pointer_inj hpos).1 (by omega)
  rw [sortFrom, if_neg hstop, pointer_succ]
  rw [hmin, Option.bind_some]
  simp only [ne_eq, pointer_inj hpos]

theorem sortFrom_of_eq {curr : ℕ} (h : curr = arr + elLen * (numEls - 1)) :
    sortFrom cmp swp arr numEls elLen fuel curr m = some (m, []) := by
  cases fuel <;> rw [sortFrom, if_pos h]

/-- The outer loop returns, whatever `cmp` and `swp` do. -/
theorem sortFrom_isSome (cmp : σ → ℕ → ℕ → ℤ) (swp : σ → ℕ → ℕ → σ) (m : σ) (arr fuel : ℕ)
    (hpos : 0 < elLen) (hi : i < numEls) (hf : numEls ≤ i + fuel + 1) :
    ∃ r, sortFrom cmp swp arr numEls elLen fuel (arr + elLen * i) m = some r := by
  induction fuel generalizing i m with
  | zero => exact ⟨_, sortFrom_of_eq (by rw [show numEls - 1 = i by omega])⟩
  | succ fuel ih =>
    rcases Nat.lt_or_ge (i + 1) numEls with hlt | hge
    · obtain ⟨j, -, -, -, hround⟩ := sortFrom_succ cmp swp m arr fuel hpos hlt
      rw [hround]
      split
      · obtain ⟨r, hr⟩ := ih (swp m (arr + elLen * i) (arr + elLen * j)) hlt (by omega)
        exact ⟨_, by rw [hr, Option.map_some]⟩
      · exact ih m hlt (by omega)
    · exact ⟨_, sortFrom_of_eq (by rw [show numEls - 1 = i by omega])⟩

/-- **The rule for the outer loop.** What holds at its end, without a call, and is kept by each
round, holds of the memory before it, the memory behind it and the calls. -/
theorem sortFrom_induction {I : ℕ → σ → σ → List (ℕ × ℕ) → Prop} (hpos : 0 < elLen)
    (hlast : ∀ i m, i + 1 = numEls → I i m m [])
    (hswap : ∀ i j m m' calls, i < j → j < numEls →
      selectMin cmp m elLen (arr + elLen * numEls) numEls (arr + elLen * i)
        (arr + elLen * (i + 1)) = some (arr + elLen * j) →
      I (i + 1) (swp m (arr + elLen * i) (arr + elLen * j)) m' calls →
      I i m m' ((arr + elLen * i, arr + elLen * j) :: calls))
    (hstay : ∀ i m m' calls, i + 1 < numEls →
      selectMin cmp m elLen (arr + elLen * numEls) numEls (arr + elLen * i)
        (arr + elLen * (i + 1)) = some (arr + elLen * i) →
      I (i + 1) m m' calls → I i m m' calls)
    (hi : i < numEls)
    (hrun : sortFrom cmp swp arr numEls elLen fuel (arr + elLen * i) m = some (m', calls)) :
    I i m m' calls := by
  induction fuel generalizing i m calls with
  | zero =>
    rw [sortFrom] at hrun
    split at hrun
    · rename_i hstop
      have hstop := (pointer_inj hpos).1 hstop
      obtain ⟨rfl, rfl⟩ := Prod.mk.inj (Option.some.inj hrun)
      exact hlast i m (by omega)
    · cases hrun
  | succ fuel ih =>
    rcases Nat.lt_or_ge (i + 1) numEls with hlt | hge
    · obtain ⟨j, hij, hj, hmin, hround⟩ := sortFrom_succ cmp swp m arr fuel hpos hlt
      rw [hround] at hrun
      split at hrun
      · rename_i hne
        obtain ⟨⟨m'', calls'⟩, hrest, heq⟩ := Option.map_eq_some_iff.1 hrun
        obtain ⟨rfl, rfl⟩ := Prod.mk.inj heq
        exact hswap i j m m'' calls' (lt_of_le_of_ne hij (Ne.symm hne)) hj hmin (ih hlt hrest)
      · rename_i hne
        obtain rfl := not_not.1 hne
        exact hstay j m m' calls hlt hmin (ih hlt hrun)
    · have hlast' : i + 1 = numEls := by omega
      rw [sortFrom_of_eq (by rw [← hlast', Nat.add_sub_cancel])] at hrun
      obtain ⟨rfl, rfl⟩ := Prod.mk.inj (Option.some.inj hrun)
      exact hlast i m hlast'

/-- Every call is made for two different elements, and the memory is changed by the calls only. -/
theorem sortFrom_calls (hpos : 0 < elLen) (hi : i < numEls)
    (hrun : sortFrom cmp swp arr numEls elLen fuel (arr + elLen * i) m = some (m', calls)) :
    (∀ c ∈ calls, IsElement arr numEls elLen c.1 ∧ IsElement arr numEls elLen c.2 ∧ c.1 ≠ c.2) ∧
      m' = calls.foldl (fun m c ↦ swp m c.1 c.2) m := by
  refine sortFrom_induction (I := fun _ m m' calls ↦
    (∀ c ∈ calls, IsElement arr numEls elLen c.1 ∧ IsElement arr numEls elLen c.2 ∧ c.1 ≠ c.2) ∧
      m' = calls.foldl (fun m c ↦ swp m c.1 c.2) m) hpos ?_ ?_ ?_ hi hrun
  · exact fun i m _ ↦ ⟨fun c hc ↦ absurd hc List.not_mem_nil, rfl⟩
  · intro i j m m' calls hij hj _ ⟨hcalls, hm'⟩
    refine ⟨List.forall_mem_cons.2 ⟨⟨⟨i, hij.trans hj, rfl⟩, ⟨j, hj, rfl⟩, ?_⟩, hcalls⟩, hm'⟩
    exact mt (pointer_inj hpos).1 hij.ne
  · exact fun _ _ _ _ _ _ h ↦ h

/-- **The outer loop puts the elements in order.** -/
theorem sortFrom_sorted (hc : CmpContract le elem arr numEls elLen cmp)
    (hs : SwpContract elem arr numEls elLen swp) (hpos : 0 < elLen) (hi : i < numEls)
    (hrun : sortFrom cmp swp arr numEls elLen fuel (arr + elLen * i) m = some (m', calls))
    (hsel : SelectedTo le (fun k ↦ elem m (arr + elLen * k)) i numEls) :
    (elements elem arr numEls elLen m').Perm (elements elem arr numEls elLen m) ∧
      (elements elem arr numEls elLen m').Pairwise le := by
  refine sortFrom_induction (I := fun i m m' _ ↦
    SelectedTo le (fun k ↦ elem m (arr + elLen * k)) i numEls →
      (elements elem arr numEls elLen m').Perm (elements elem arr numEls elLen m) ∧
        (elements elem arr numEls elLen m').Pairwise le) hpos ?_ ?_ ?_ hi hrun hsel
  · intro i m hlast hsel
    refine ⟨List.Perm.refl _, SelectedTo.pairwise ?_⟩
    rwa [← hlast, Nat.add_sub_cancel, hlast]
  · intro i j m m' calls hij hj hmin ih hsel
    have hpi : IsElement arr numEls elLen (arr + elLen * i) := ⟨i, hij.trans hj, rfl⟩
    have hpj : IsElement arr numEls elLen (arr + elLen * j) := ⟨j, hj, rfl⟩
    have hne : arr + elLen * i ≠ arr + elLen * j := mt (pointer_inj hpos).1 hij.ne
    have hex : Exchanged (fun k ↦ elem m (arr + elLen * k))
        (fun k ↦ elem (swp m (arr + elLen * i) (arr + elLen * j)) (arr + elLen * k)) i j
        numEls := by
      refine ⟨hs.left m _ _ hpi hpj hne, hs.right m _ _ hpi hpj hne, fun k hk hki hkj ↦ ?_⟩
      exact hs.other m _ _ _ hpi hpj hne ⟨k, hk, rfl⟩ (mt (pointer_inj hpos).1 hki)
        (mt (pointer_inj hpos).1 hkj)
    obtain ⟨hperm, hpair⟩ := ih (hsel.exchange (selectMin_first hc hpos (by omega) hmin) hex)
    exact ⟨hperm.trans (map_range_perm_of_exchanged hex (hij.trans hj) hj), hpair⟩
  · intro i m m' calls hi hmin ih hsel
    exact ih (hsel.stay (selectMin_first hc hpos hi.le hmin))

/-! ### The whole sort -/

/-- Nothing is done about at most one element, or about elements without a size. -/
theorem sort_of_trivial (h : numEls ≤ 1 ∨ elLen = 0) :
    sort cmp swp m arr numEls elLen = some (m, []) := by
  rw [sort]
  split
  · rfl
  · rename_i hnum
    obtain rfl : elLen = 0 := h.resolve_left (by omega)
    exact sortFrom_of_eq (by rw [Nat.zero_mul, Nat.add_zero])

theorem sort_eq_sortFrom (h : 1 < numEls) :
    sort cmp swp m arr numEls elLen =
      sortFrom cmp swp arr numEls elLen numEls (arr + elLen * 0) m := by
  rw [sort, if_neg (by omega), Nat.mul_zero, Nat.add_zero]

/-- **`sort` terminates**, whatever `cmp` and `swp` do. -/
theorem sort_isSome (cmp : σ → ℕ → ℕ → ℤ) (swp : σ → ℕ → ℕ → σ) (m : σ) (arr numEls elLen : ℕ) :
    ∃ m' calls, sort cmp swp m arr numEls elLen = some (m', calls) := by
  by_cases h : numEls ≤ 1 ∨ elLen = 0
  · exact ⟨m, [], sort_of_trivial h⟩
  · rw [sort_eq_sortFrom (by omega)]
    obtain ⟨r, hr⟩ := sortFrom_isSome cmp swp m arr numEls (show 0 < elLen by omega)
      (show 0 < numEls by omega) (by omega)
    exact ⟨r.1, r.2, hr⟩

/-- `swp` is only called for two different elements, and nothing else changes the memory. -/
theorem sort_calls (hrun : sort cmp swp m arr numEls elLen = some (m', calls)) :
    (∀ c ∈ calls, IsElement arr numEls elLen c.1 ∧ IsElement arr numEls elLen c.2 ∧ c.1 ≠ c.2) ∧
      m' = calls.foldl (fun m c ↦ swp m c.1 c.2) m := by
  by_cases h : numEls ≤ 1 ∨ elLen = 0
  · rw [sort_of_trivial h] at hrun
    obtain ⟨rfl, rfl⟩ := Prod.mk.inj (Option.some.inj hrun)
    exact ⟨fun c hc ↦ absurd hc List.not_mem_nil, rfl⟩
  · rw [sort_eq_sortFrom (by omega)] at hrun
    exact sortFrom_calls (by omega) (by omega) hrun

/-- **`sort` sorts**: the elements are a permutation of those before, in order. -/
theorem sort_sorted (hc : CmpContract le elem arr numEls elLen cmp)
    (hs : SwpContract elem arr numEls elLen swp)
    (hrun : sort cmp swp m arr numEls elLen = some (m', calls)) :
    (elements elem arr numEls elLen m').Perm (elements elem arr numEls elLen m) ∧
      (elements elem arr numEls elLen m').Pairwise le := by
  by_cases h : numEls ≤ 1 ∨ elLen = 0
  · rw [sort_of_trivial h] at hrun
    obtain ⟨rfl, rfl⟩ := Prod.mk.inj (Option.some.inj hrun)
    refine ⟨List.Perm.refl _, List.pairwise_map.2 ?_⟩
    refine List.pairwise_lt_range.imp_of_mem fun {a b} ha hb hab ↦ ?_
    have hb := List.mem_range.1 hb
    obtain rfl : elLen = 0 := h.resolve_left (by omega)
    rw [Nat.zero_mul, Nat.zero_mul]
    exact (hc.total _ _).elim id id
  · rw [sort_eq_sortFrom (by omega)] at hrun
    exact sortFrom_sorted hc hs (by omega) (by omega) hrun fun a b ha ↦
      absurd ha (Nat.not_lt_zero a)

/-- **When `swp` is called**: exactly when the elements are out of order. This only depends on
`cmp`. -/
theorem sort_calls_eq_nil_iff (hc : CmpContract le elem arr numEls elLen cmp) (hpos : 0 < elLen)
    (hrun : sort cmp swp m arr numEls elLen = some (m', calls)) :
    calls = [] ↔ (elements elem arr numEls elLen m).Pairwise le := by
  by_cases h : numEls ≤ 1
  · rw [sort_of_trivial (Or.inl h)] at hrun
    obtain ⟨rfl, rfl⟩ := Prod.mk.inj (Option.some.inj hrun)
    refine iff_of_true rfl (SelectedTo.pairwise fun a b ha hab hb ↦ ?_)
    omega
  rw [sort_eq_sortFrom (by omega)] at hrun
  constructor
  · refine fun hnil ↦ sortFrom_induction (I := fun i m _ calls ↦ calls = [] →
      SelectedTo le (fun k ↦ elem m (arr + elLen * k)) i numEls →
        (elements elem arr numEls elLen m).Pairwise le) hpos ?_ ?_ ?_ (by omega) hrun hnil
      fun a b ha ↦ absurd ha (Nat.not_lt_zero a)
    · intro i m hlast _ hsel
      refine SelectedTo.pairwise ?_
      rwa [← hlast, Nat.add_sub_cancel, hlast]
    · intro i j m m' calls _ _ _ _ hnil
      cases hnil
    · intro i m m' calls hi hmin ih hnil hsel
      exact ih hnil (hsel.stay (selectMin_first hc hpos hi.le hmin))
  · refine fun hpair ↦ sortFrom_induction (I := fun _ m _ calls ↦
      (elements elem arr numEls elLen m).Pairwise le → calls = []) hpos ?_ ?_ ?_ (by omega) hrun
      hpair
    · exact fun _ _ _ _ ↦ rfl
    · intro i j m m' calls hij hj hmin _ hpair
      -- the element at `i` is least already
      have hleast := leastFrom_self_of_pairwise (fun a ↦ (hc.total a a).elim id id) hpair
        (hij.trans hj)
      have hself := selectMin_self hc hpos (hij.trans hj) (Nat.succ_le_of_lt (hij.trans hj))
        (fun k hk hkn ↦ hleast.least k (by omega) hkn) hmin
      exact absurd ((pointer_inj hpos).1 hself) hij.ne'
    · exact fun i m m' calls _ _ ih ↦ ih

end Loops

/-! ### The arrays of the boot code -/

/-- The 8-byte words of the memory, by their address. -/
abbrev WordMemory : Type := ℕ → ℕ

/-- `struct KernelSection`, with its name. -/
structure NamedSection where
  base : ℕ
  length : ℕ
  sectionName : ℕ
  deriving DecidableEq

/-- `sizeof(struct KernelSection)`. -/
abbrev kernelSectionSize : ℕ := 24

/-- `sizeof(struct MMapEntry)`. -/
abbrev mmapEntrySize : ℕ := 16

namespace WordMemory

/-- The `struct KernelSection` at an address. -/
def namedSection (m : WordMemory) (p : ℕ) : NamedSection := ⟨m p, m (p + 8), m (p + 16)⟩

/-- The assignment of a `struct KernelSection`, all three words of it. -/
def setNamedSection (m : WordMemory) (p : ℕ) (s : NamedSection) : WordMemory :=
  Function.update (Function.update (Function.update m p s.base) (p + 8) s.length) (p + 16)
    s.sectionName

/-- The `struct MMapEntry` at an address. -/
def mmapEntry (m : WordMemory) (p : ℕ) : MMapEntry := ⟨m p, m (p + 8)⟩

end WordMemory

/-- The comparison of two elements by their first word, which is `base` in both structures. -/
def baseCmp (m : WordMemory) (p q : ℕ) : ℤ :=
  if m p > m q then -1 else if m q > m p then 1 else 0

/-- The exchange of two `struct KernelSection`. An assignment reads all words of the structure
before it writes one; compiled code may copy word by word, which makes a difference only for two
structures that overlap. -/
def namedSectionSwp (m : WordMemory) (p q : ℕ) : WordMemory :=
  let temp := m.namedSection q
  let m := m.setNamedSection q (m.namedSection p)
  m.setNamedSection p temp

/-- `kernel_mmap_cmp`. -/
def kernelMmapCmp : WordMemory → ℕ → ℕ → ℤ := baseCmp

/-- `kernel_mmap_swp`. -/
def kernelMmapSwp : WordMemory → ℕ → ℕ → WordMemory := namedSectionSwp

/-- `sort_kernel_section_array`. -/
def sortKernelSectionArray (m : WordMemory) (arr len : ℕ) :
    Option (WordMemory × List (ℕ × ℕ)) :=
  sort kernelMmapCmp kernelMmapSwp m arr len kernelSectionSize

/-- `mmap_entry_cmp`, which casts its arguments to `struct KernelSection`. -/
def mmapEntryCmp : WordMemory → ℕ → ℕ → ℤ := baseCmp

/-- `mmap_entry_swp`, which casts its arguments to `struct KernelSection` as well. -/
def mmapEntrySwp : WordMemory → ℕ → ℕ → WordMemory := namedSectionSwp

/-- `sort_mmap_entry_array`. -/
def sortMmapEntryArray (m : WordMemory) (arr len : ℕ) : Option (WordMemory × List (ℕ × ℕ)) :=
  sort mmapEntryCmp mmapEntrySwp m arr len mmapEntrySize

section Arrays

variable {m m' : WordMemory} {arr len elLen p q a : ℕ} {s : NamedSection}

theorem baseCmp_neg_iff : baseCmp m p q < 0 ↔ ¬m p ≤ m q := by
  rw [baseCmp]
  split
  · rename_i h
    exact iff_of_true (by decide) (Nat.not_le.2 h)
  · rename_i h
    refine iff_of_false ?_ fun hn ↦ hn (Nat.not_lt.1 h)
    split <;> decide

theorem CmpContract.baseCmp {α : Type*} (key : α → ℕ) (elem : WordMemory → ℕ → α)
    (hkey : ∀ m p, key (elem m p) = m p) :
    CmpContract (fun a b ↦ key a ≤ key b) elem arr len elLen baseCmp :=
  ⟨fun a b ↦ le_total _ _, fun a b c ↦ le_trans, fun m p q _ _ ↦ by
    rw [baseCmp_neg_iff, hkey, hkey]⟩

/-- Different elements do not overlap. -/
theorem IsElement.disjoint (hp : IsElement arr len elLen p) (hq : IsElement arr len elLen q)
    (hne : p ≠ q) : p + elLen ≤ q ∨ q + elLen ≤ p := by
  obtain ⟨i, -, rfl⟩ := hp
  obtain ⟨j, -, rfl⟩ := hq
  have hij : i ≠ j := fun h ↦ hne (by rw [h])
  rcases Nat.lt_or_gt_of_ne hij with hlt | hlt
  · have hle : elLen * (i + 1) ≤ elLen * j := Nat.mul_le_mul_left elLen hlt
    rw [Nat.mul_succ] at hle
    omega
  · have hle : elLen * (j + 1) ≤ elLen * i := Nat.mul_le_mul_left elLen hlt
    rw [Nat.mul_succ] at hle
    omega

theorem setNamedSection_of_outside (h : a + 8 ≤ p ∨ p + 24 ≤ a) :
    m.setNamedSection p s a = m a := by
  rw [WordMemory.setNamedSection, Function.update_of_ne (by omega),
    Function.update_of_ne (by omega), Function.update_of_ne (by omega)]

theorem namedSection_setNamedSection : (m.setNamedSection p s).namedSection p = s := by
  simp [WordMemory.namedSection, WordMemory.setNamedSection]

theorem namedSection_setNamedSection_of_disjoint
    (h : q + kernelSectionSize ≤ p ∨ p + kernelSectionSize ≤ q) :
    (m.setNamedSection p s).namedSection q = m.namedSection q := by
  simp only [kernelSectionSize] at h
  rw [WordMemory.namedSection, setNamedSection_of_outside (by omega),
    setNamedSection_of_outside (by omega), setNamedSection_of_outside (by omega),
    WordMemory.namedSection]

/-- **`kernel_mmap_swp` exchanges two sections.** -/
theorem SwpContract.kernelMmapSwp :
    SwpContract WordMemory.namedSection arr len kernelSectionSize kernelMmapSwp := by
  refine ⟨fun m p q hp hq hne ↦ ?_, fun m p q hp hq hne ↦ ?_, fun m p q r hp hq hne hr hrp hrq ↦ ?_⟩
  · exact namedSection_setNamedSection
  · exact (namedSection_setNamedSection_of_disjoint (hq.disjoint hp hne.symm)).trans
      namedSection_setNamedSection
  · exact (namedSection_setNamedSection_of_disjoint (hr.disjoint hp hrp)).trans
      (namedSection_setNamedSection_of_disjoint (hr.disjoint hq hrq))

/-- And it writes nothing outside the array. -/
theorem kernelMmapSwp_of_outside (hp : IsElement arr len kernelSectionSize p)
    (hq : IsElement arr len kernelSectionSize q)
    (ha : a + 8 ≤ arr ∨ arr + kernelSectionSize * len ≤ a) : kernelMmapSwp m p q a = m a := by
  have hbounds : ∀ r, IsElement arr len kernelSectionSize r → a + 8 ≤ r ∨ r + 24 ≤ a := by
    rintro r ⟨k, hk, rfl⟩
    have hle : kernelSectionSize * (k + 1) ≤ kernelSectionSize * len :=
      Nat.mul_le_mul_left kernelSectionSize hk
    simp only [kernelSectionSize] at *
    omega
  exact (setNamedSection_of_outside (hbounds p hp)).trans
    (setNamedSection_of_outside (hbounds q hq))

/-- The sections of an array. -/
def namedSections (m : WordMemory) (arr len : ℕ) : List NamedSection :=
  elements WordMemory.namedSection arr len kernelSectionSize m

/-- The entries of an array. -/
def mmapEntries (m : WordMemory) (arr len : ℕ) : List MMapEntry :=
  elements WordMemory.mmapEntry arr len mmapEntrySize m

theorem foldl_kernelMmapSwp_of_outside {calls : List (ℕ × ℕ)}
    (hcalls : ∀ c ∈ calls, IsElement arr len kernelSectionSize c.1 ∧
      IsElement arr len kernelSectionSize c.2 ∧ c.1 ≠ c.2)
    (ha : a + 8 ≤ arr ∨ arr + kernelSectionSize * len ≤ a) :
    calls.foldl (fun m c ↦ kernelMmapSwp m c.1 c.2) m a = m a := by
  induction calls generalizing m with
  | nil => rfl
  | cons c calls ih =>
    obtain ⟨hc, hcalls⟩ := List.forall_mem_cons.1 hcalls
    rw [List.foldl_cons, ih hcalls, kernelMmapSwp_of_outside hc.1 hc.2.1 ha]

end Arrays

/-- **`sort` is right** for every array, element size, comparison and exchange that keep the
contract, and `sort_kernel_section_array` sorts the sections by their base. -/
theorem sort_correct :
    (∀ {σ α : Type} {le : α → α → Prop} {elem : σ → ℕ → α} {cmp : σ → ℕ → ℕ → ℤ}
        {swp : σ → ℕ → ℕ → σ} {arr numEls elLen : ℕ},
      CmpContract le elem arr numEls elLen cmp → SwpContract elem arr numEls elLen swp →
      ∀ m, ∃ m' calls, sort cmp swp m arr numEls elLen = some (m', calls) ∧
        (elements elem arr numEls elLen m').Perm (elements elem arr numEls elLen m) ∧
        (elements elem arr numEls elLen m').Pairwise le ∧
        ∀ c ∈ calls, IsElement arr numEls elLen c.1 ∧ IsElement arr numEls elLen c.2 ∧
          c.1 ≠ c.2) ∧
      ∀ (m : WordMemory) (arr len : ℕ),
        ∃ m' calls, sortKernelSectionArray m arr len = some (m', calls) ∧
          (namedSections m' arr len).Perm (namedSections m arr len) ∧
          (namedSections m' arr len).Pairwise (fun s t ↦ s.base ≤ t.base) ∧
          ∀ a, a + 8 ≤ arr ∨ arr + kernelSectionSize * len ≤ a → m' a = m a := by
  refine ⟨fun {σ α le elem cmp swp arr numEls elLen} hc hs m ↦ ?_, fun m arr len ↦ ?_⟩
  · obtain ⟨m', calls, hrun⟩ := sort_isSome cmp swp m arr numEls elLen
    obtain ⟨hperm, hpair⟩ := sort_sorted hc hs hrun
    exact ⟨m', calls, hrun, hperm, hpair, (sort_calls hrun).1⟩
  · obtain ⟨m', calls, hrun⟩ := sort_isSome kernelMmapCmp kernelMmapSwp m arr len kernelSectionSize
    have hc : CmpContract (fun s t : NamedSection ↦ s.base ≤ t.base) WordMemory.namedSection arr
        len kernelSectionSize kernelMmapCmp :=
      CmpContract.baseCmp NamedSection.base WordMemory.namedSection fun _ _ ↦ rfl
    obtain ⟨hperm, hpair⟩ := sort_sorted hc SwpContract.kernelMmapSwp hrun
    obtain ⟨hcalls, rfl⟩ := sort_calls hrun
    exact ⟨_, calls, hrun, hperm, hpair, fun a ha ↦ foldl_kernelMmapSwp_of_outside hcalls ha⟩

/-- Three sections, the last of which comes first. -/
def threeSections : WordMemory := fun a ↦ [0x300, 3, 33, 0x200, 2, 22, 0x100, 1, 11].getD (a / 8) 0

theorem sort_correct_threeSections :
    ∃ m' calls, sortKernelSectionArray threeSections 0 3 = some (m', calls) ∧
      (namedSections m' 0 3).Perm [⟨0x100, 1, 11⟩, ⟨0x200, 2, 22⟩, ⟨0x300, 3, 33⟩] ∧
      (namedSections m' 0 3).Pairwise (fun s t ↦ s.base ≤ t.base) := by
  obtain ⟨m', calls, hrun, hperm, hpair, -⟩ := sort_correct.2 threeSections 0 3
  exact ⟨m', calls, hrun, hperm.trans (by decide), hpair⟩

/-! ### The RAM sections -/

/-- **What `sort_mmap_entry_array` should do** with the array: a permutation of the entries in the
order of their base, and no other memory changes. -/
structure SortedEntries (m m' : WordMemory) (arr len : ℕ) : Prop where
  perm : (mmapEntries m' arr len).Perm (mmapEntries m arr len)
  sorted : (mmapEntries m' arr len).Pairwise fun r r' ↦ r.base ≤ r'.base
  outside : ∀ a, a + 8 ≤ arr ∨ arr + mmapEntrySize * len ≤ a → m' a = m a

/-- **When `sort_mmap_entry_array` does what it should**: on entries that are in order nothing is
exchanged. On all others the exchange of three words is reached. -/
theorem sortMmapEntryArray_of_sorted (m : WordMemory) (arr len : ℕ) :
    ((mmapEntries m arr len).Pairwise (fun r r' ↦ r.base ≤ r'.base) →
      ∃ m', sortMmapEntryArray m arr len = some (m', []) ∧ SortedEntries m m' arr len) ∧
    (¬(mmapEntries m arr len).Pairwise (fun r r' ↦ r.base ≤ r'.base) →
      ∃ m' calls, sortMmapEntryArray m arr len = some (m', calls) ∧ calls ≠ []) := by
  obtain ⟨m', calls, hrun⟩ := sort_isSome mmapEntryCmp mmapEntrySwp m arr len mmapEntrySize
  have hc : CmpContract (fun r r' : MMapEntry ↦ r.base ≤ r'.base) WordMemory.mmapEntry arr len
      mmapEntrySize mmapEntryCmp :=
    CmpContract.baseCmp MMapEntry.base WordMemory.mmapEntry fun _ _ ↦ rfl
  have hiff := sort_calls_eq_nil_iff hc (by decide) hrun
  refine ⟨fun hsorted ↦ ?_, fun hsorted ↦ ⟨m', calls, hrun, mt hiff.1 hsorted⟩⟩
  obtain rfl := hiff.2 hsorted
  obtain rfl : m' = m := (sort_calls hrun).2
  exact ⟨m', hrun, List.Perm.refl _, hsorted, fun _ _ ↦ rfl⟩

/-- RAM sections in order, as firmware reports them. -/
theorem sortMmapEntryArray_of_sorted_pc :
    ∃ m', sortMmapEntryArray (fun a ↦ [0, 0x9FC00, 0x100000, 0x7EE0000].getD (a / 8) 7) 0 2 =
        some (m', []) ∧
      SortedEntries (fun a ↦ [0, 0x9FC00, 0x100000, 0x7EE0000].getD (a / 8) 7) m' 0 2 :=
  (sortMmapEntryArray_of_sorted _ 0 2).1 (by decide)

/-- Three entries in the wrong order, and one word behind the array. -/
def threeEntries : WordMemory := fun a ↦ [5, 50, 2, 20, 1, 10, 3].getD (a / 8) 0

/-- **An entry is lost, and memory behind the array is written.** The first and the last entry are
exchanged with the word behind each of them: the base of the second entry becomes the word that was
behind the array. -/
theorem sortMmapEntryArray_corrupts :
    ∃ m' calls, sortMmapEntryArray threeEntries 0 3 = some (m', calls) ∧ calls = [(0, 32)] ∧
      mmapEntries m' 0 3 = [⟨1, 10⟩, ⟨3, 20⟩, ⟨5, 50⟩] ∧ m' 48 = 2 ∧
      ¬SortedEntries threeEntries m' 0 3 := by
  refine ⟨namedSectionSwp threeEntries 0 32, _, rfl, rfl, by decide, by decide, fun h ↦ ?_⟩
  exact absurd (h.outside 48 (by decide)) (by decide)

end Marimba
