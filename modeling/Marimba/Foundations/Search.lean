import Mathlib.Data.List.Nodup
import Mathlib.Data.List.Perm.Basic
import Mathlib.Data.List.Range
import Mathlib.Data.List.TakeWhile

/-!
# Searches that stop early

What a search finds that goes through numbered places and stops at the first empty one, compared
with what there is. `takeWhile_range_eq_filter_iff` is about one such search. Where several are made
and what they find is put together in one list, `flatMap_eq_flatMap_iff` takes the list apart again:
each element has the search it belongs to as its key.
-/

section Pieces

variable {α β : Type*} [DecidableEq α]

/-- Lists put together from pieces, each with its key on all of its elements, are the same when
their pieces are. -/
theorem flatMap_eq_flatMap_iff {key : β → α} {f g : α → List β} {l : List α} (hl : l.Nodup)
    (hf : ∀ a ∈ l, ∀ b ∈ f a, key b = a) (hg : ∀ a ∈ l, ∀ b ∈ g a, key b = a) :
    l.flatMap f = l.flatMap g ↔ ∀ a ∈ l, f a = g a := by
  refine ⟨fun h a ha ↦ ?_, fun h ↦ List.flatMap_congr h⟩
  -- the elements with the key `a` are the piece for `a`
  have hpiece : ∀ {f : α → List β}, (∀ a ∈ l, ∀ b ∈ f a, key b = a) →
      (l.flatMap f).filter (key · = a) = f a := by
    intro f hf
    obtain ⟨l₁, l₂, rfl⟩ := List.append_of_mem ha
    have hnot := (List.nodup_cons.1 (List.nodup_middle.1 hl)).1
    rw [List.mem_append, not_or] at hnot
    have hnil : ∀ l' : List α, a ∉ l' → (∀ c ∈ l', c ∈ l₁ ++ a :: l₂) →
        (l'.flatMap f).filter (key · = a) = [] := by
      intro l' hl' hsub
      rw [List.filter_eq_nil_iff]
      intro b hb hkey
      obtain ⟨c, hc, hb⟩ := List.mem_flatMap.1 hb
      have heq : c = a := (hf c (hsub c hc) b hb).symm.trans (of_decide_eq_true hkey)
      exact hl' (heq ▸ hc)
    rw [List.flatMap_append, List.flatMap_cons, List.filter_append, List.filter_append,
      hnil l₁ hnot.1 fun c hc ↦ List.mem_append_left _ hc,
      hnil l₂ hnot.2 fun c hc ↦ List.mem_append_right _ (List.mem_cons_of_mem a hc),
      List.nil_append, List.append_nil, List.filter_eq_self]
    exact fun b hb ↦ decide_eq_true (hf a ha b hb)
  rw [← hpiece hf, h, hpiece hg]

/-- The first numbers below `m` that have the property are all below `n` that have it, when these
are below `m` and there is no gap among them. -/
theorem takeWhile_range_eq_filter_iff {p : ℕ → Bool} {m n : ℕ} (hmn : m ≤ n) :
    (List.range m).takeWhile p = (List.range n).filter p ↔
      ∀ k < n, p k = true → k < m ∧ ∀ j < k, p j = true := by
  have hmem : ∀ {m k : ℕ}, k ∈ (List.range m).takeWhile p ↔ k < m ∧ ∀ j ≤ k, p j = true := by
    intro m k
    induction m with
    | zero => simp
    | succ m ih =>
      rw [List.range_succ, List.takeWhile_append]
      split
      · next hall =>
        have hlt : ∀ j < m, p j = true := fun j hj ↦ by
          have hself := (List.takeWhile_prefix p).eq_of_length hall
          exact List.takeWhile_eq_self_iff.1 hself j (List.mem_range.2 hj)
        cases hm : p m <;> simp [hm] <;> grind
      · next hall =>
        rw [ih]
        refine ⟨fun h ↦ ⟨Nat.lt_succ_of_lt h.1, h.2⟩, fun h ↦ ⟨?_, h.2⟩⟩
        refine lt_of_le_of_ne (Nat.le_of_lt_succ h.1) fun heq ↦ hall ?_
        rw [List.takeWhile_eq_self_iff.2 fun j hj ↦ h.2 j ?_]
        rw [heq]
        exact (List.mem_range.1 hj).le
  constructor
  · intro h k hk hp
    have hk' : k ∈ (List.range m).takeWhile p := by
      rw [h]
      exact List.mem_filter.2 ⟨List.mem_range.2 hk, hp⟩
    exact ⟨(hmem.1 hk').1, fun j hj ↦ (hmem.1 hk').2 j hj.le⟩
  · intro h
    have hperm : ((List.range m).takeWhile p).Perm ((List.range n).filter p) := by
      refine (List.perm_ext_iff_of_nodup ?_ (List.nodup_range.filter p)).2 fun k ↦ ?_
      · exact List.nodup_range.sublist (List.takeWhile_sublist p)
      · rw [hmem, List.mem_filter, List.mem_range]
        constructor
        · exact fun hk ↦ ⟨hk.1.trans_le hmn, hk.2 k le_rfl⟩
        · rintro ⟨hk, hp⟩
          refine ⟨(h k hk hp).1, fun j hj ↦ ?_⟩
          rcases hj.lt_or_eq with hj | rfl
          · exact (h k hk hp).2 j hj
          · exact hp
    have hsorted₁ : ((List.range m).takeWhile p).Pairwise (· < ·) :=
      List.pairwise_lt_range.sublist (List.takeWhile_sublist p)
    have hsorted₂ : ((List.range n).filter p).Pairwise (· < ·) := List.pairwise_lt_range.filter p
    exact hperm.eq_of_pairwise (fun a b _ _ hab hba ↦ absurd hab (Nat.lt_asymm hba)) hsorted₁
      hsorted₂

end Pieces
