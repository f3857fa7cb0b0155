import Mathlib.Data.List.Basic
import Mathlib.Logic.Relation

/-!
# Runs of a transition system

Two ways of running a system, and for each the one rule its proofs use.

* A **deterministic** system is a step function `σ → α → Option (β × σ)`: it takes a command and
  answers with an output and a new state, or with `none` when the command is not allowed there.
  `runTrace` runs a list of commands and collects the outputs. Two such systems are compared by
  `runTrace_eq_of_simulation`: when related states allow the same commands and give the same
  outputs, whole runs do; `runTrace_lift` is the one-sided rule, for a system that only follows the
  runs of the other, and `runTrace_of_forward` its case for one that always answers. `Along`
  restricts a run to steps that meet a condition, and `invariant_of_along` is the induction over
  such runs. `forall_mem_of_runTrace` and `tracked_of_runTrace` are the invariant rules for what a
  run answers and for what its commands add up to. `Leads` says that some run goes from one state to
  another, for results on what can still happen.
* A **nondeterministic** system is a step relation, and its runs are Mathlib's
  `Relation.ReflTransGen`. `invariant_of_reflTransGen` is the induction over runs.

Nothing here mentions a kernel: the states, commands and outputs are arbitrary types.
-/

section Deterministic

variable {σ τ α β : Type*}

/-- Run a list of commands, collecting the outputs; `none` when some command is not allowed in the
state it meets. -/
def runTrace (step : σ → α → Option (β × σ)) : σ → List α → Option (List β × σ)
  | s, [] => some ([], s)
  | s, a :: as =>
    (step s a).bind fun r ↦ (runTrace step r.2 as).map fun t ↦ (r.1 :: t.1, t.2)

@[simp] theorem runTrace_nil (step : σ → α → Option (β × σ)) (s : σ) :
    runTrace step s [] = some ([], s) := rfl

theorem runTrace_cons (step : σ → α → Option (β × σ)) (s : σ) (a : α) (as : List α) :
    runTrace step s (a :: as) =
      (step s a).bind fun r ↦ (runTrace step r.2 as).map fun t ↦ (r.1 :: t.1, t.2) := rfl

/-- A run that starts with a step: the step succeeded and so did the rest. -/
theorem runTrace_cons_eq_some {step : σ → α → Option (β × σ)} {s t : σ} {a : α} {as : List α}
    {out : List β} (h : runTrace step s (a :: as) = some (out, t)) :
    ∃ b s' out', step s a = some (b, s') ∧ runTrace step s' as = some (out', t) ∧
      out = b :: out' := by
  rw [runTrace_cons, Option.bind_eq_some_iff] at h
  obtain ⟨⟨b, s'⟩, hstep, hrest⟩ := h
  rw [Option.map_eq_some_iff] at hrest
  obtain ⟨⟨out', t'⟩, hrun, heq⟩ := hrest
  obtain ⟨rfl, rfl⟩ := Prod.mk.inj heq
  exact ⟨b, s', out', hstep, hrun, rfl⟩

/-- **The invariant rule for runs.** What every allowed step preserves, every run preserves. -/
theorem invariant_of_runTrace {step : σ → α → Option (β × σ)} {I : σ → Prop}
    (hstep : ∀ s a b s', I s → step s a = some (b, s') → I s') :
    ∀ {as : List α} {s t : σ} {out : List β}, I s → runTrace step s as = some (out, t) → I t
  | [], s, t, out, hs, h => by
    obtain ⟨-, rfl⟩ := Prod.mk.inj (Option.some.inj h)
    exact hs
  | a :: as, s, t, out, hs, h => by
    obtain ⟨b, s', out', h₁, h₂, -⟩ := runTrace_cons_eq_some h
    exact invariant_of_runTrace hstep (hstep s a b s' hs h₁) h₂

/-- **The invariant rule for outputs.** What every step answers in a state with the invariant, every
run answers at each of its steps. -/
theorem forall_mem_of_runTrace {step : σ → α → Option (β × σ)} {I : σ → Prop} {P : β → Prop}
    (hstep : ∀ s a b s', I s → step s a = some (b, s') → I s' ∧ P b) :
    ∀ {as : List α} {s t : σ} {out : List β}, I s → runTrace step s as = some (out, t) →
      ∀ b ∈ out, P b
  | [], s, t, out, _, h, b, hb => by
    obtain ⟨rfl, -⟩ := Prod.mk.inj (Option.some.inj h)
    cases hb
  | a :: as, s, t, out, hs, h, b, hb => by
    obtain ⟨b', s', out', h₁, h₂, rfl⟩ := runTrace_cons_eq_some h
    obtain ⟨hs', hP⟩ := hstep s a b' s' hs h₁
    rcases List.mem_cons.1 hb with rfl | hb
    · exact hP
    · exact forall_mem_of_runTrace hstep hs' h₂ b hb

/-- **The invariant rule with a record.** An invariant that relates the state to a record of the
commands taken. -/
theorem tracked_of_runTrace {γ : Type*} {step : σ → α → Option (β × σ)} {record : γ → α → γ}
    {I : σ → γ → Prop}
    (hstep : ∀ s c a b s', I s c → step s a = some (b, s') → I s' (record c a)) :
    ∀ {as : List α} {s t : σ} {c : γ} {out : List β}, I s c →
      runTrace step s as = some (out, t) → I t (as.foldl record c)
  | [], s, t, c, out, hs, h => by
    obtain ⟨-, rfl⟩ := Prod.mk.inj (Option.some.inj h)
    exact hs
  | a :: as, s, t, c, out, hs, h => by
    obtain ⟨b, s', out', h₁, h₂, -⟩ := runTrace_cons_eq_some h
    rw [List.foldl_cons]
    exact tracked_of_runTrace hstep (hstep s c a b s' hs h₁) h₂

/-- A guarded step that was taken: its guard holds, and answer and state are what it says. -/
theorem guarded_eq_some {c : Prop} [Decidable c] {b b' : β} {s s' : σ} :
    (if c then some (b, s) else none) = some (b', s') ↔ c ∧ b' = b ∧ s' = s := by
  rw [Option.ite_none_right_eq_some, Option.some_inj, Prod.mk.injEq, @eq_comm _ b,
    @eq_comm _ s]

/-- A guarded step that also needs some value. -/
theorem guarded_map_eq_some {γ : Type*} {c : Prop} [Decidable c] {o : Option γ} {b b' : β}
    {f : γ → σ} {s' : σ} :
    (if c then o.map fun x ↦ (b, f x) else none) = some (b', s') ↔
      c ∧ ∃ x, o = some x ∧ b' = b ∧ s' = f x := by
  rw [Option.ite_none_right_eq_some, Option.map_eq_some_iff]
  simp only [Prod.mk.injEq, @eq_comm _ b, @eq_comm _ _ s']

/-- Some run leads from one state to another. -/
def Leads (step : σ → α → Option (β × σ)) (s t : σ) : Prop :=
  ∃ as out, runTrace step s as = some (out, t)

namespace Leads

variable {step : σ → α → Option (β × σ)} {s t u : σ}

theorem refl (step : σ → α → Option (β × σ)) (s : σ) : Leads step s s := ⟨[], [], rfl⟩

/-- A run behind one step. -/
theorem head {a : α} {b : β} (hstep : step s a = some (b, t)) (h : Leads step t u) :
    Leads step s u := by
  obtain ⟨as, out, hrun⟩ := h
  refine ⟨a :: as, b :: out, ?_⟩
  rw [runTrace_cons, hstep, Option.bind_some, hrun, Option.map_some]

/-- A single step. -/
theorem single {a : α} {b : β} (hstep : step s a = some (b, t)) : Leads step s t :=
  .head hstep (.refl step t)

/-- One run behind another, by induction on the first. -/
theorem trans (h : Leads step s t) (h' : Leads step t u) : Leads step s u := by
  obtain ⟨as, out, hrun⟩ := h
  induction as generalizing s out with
  | nil =>
    obtain ⟨-, rfl⟩ := Prod.mk.inj (Option.some.inj hrun)
    exact h'
  | cons a as ih =>
    obtain ⟨b, s', out', hstep, hrest, -⟩ := runTrace_cons_eq_some hrun
    exact .head hstep (ih out' hrest)

/-- What one system can reach, another one can that follows each of its steps by one of its own. -/
theorem lift {γ δ : Type*} {step' : τ → γ → Option (δ × τ)} {R : σ → τ → Prop}
    (hsim : ∀ s t a b s', R s t → step s a = some (b, s') →
      ∃ a' b' t', step' t a' = some (b', t') ∧ R s' t')
    {x : τ} (h : Leads step s t) (hR : R s x) : ∃ y, Leads step' x y ∧ R t y := by
  obtain ⟨as, out, hrun⟩ := h
  induction as generalizing s x out with
  | nil =>
    obtain ⟨-, rfl⟩ := Prod.mk.inj (Option.some.inj hrun)
    exact ⟨x, .refl step' x, hR⟩
  | cons a as ih =>
    obtain ⟨b, s', out', hstep, hrest, -⟩ := runTrace_cons_eq_some hrun
    obtain ⟨a', b', x', hstep', hR'⟩ := hsim s x a b s' hR hstep
    obtain ⟨y, hleads, hRy⟩ := ih hR' out' hrest
    exact ⟨y, .head hstep' hleads, hRy⟩

/-- What every step preserves holds of all that can be reached. -/
theorem invariant {I : σ → Prop} (hstep : ∀ s a b s', I s → step s a = some (b, s') → I s')
    (h : Leads step s t) (hs : I s) : I t := by
  obtain ⟨as, out, hrun⟩ := h
  exact invariant_of_runTrace hstep hs hrun

end Leads

/-- Every command of the run meets a condition in the state it is given in. -/
def Along (step : σ → α → Option (β × σ)) (P : σ → α → Prop) : σ → List α → Prop
  | _, [] => True
  | s, a :: as => P s a ∧ ∀ b s', step s a = some (b, s') → Along step P s' as

instance instDecidableAlong (step : σ → α → Option (β × σ)) (P : σ → α → Prop)
    [∀ s a, Decidable (P s a)] : ∀ s as, Decidable (Along step P s as)
  | _, [] => .isTrue trivial
  | s, a :: as =>
    match hs : step s a with
    | none => decidable_of_iff (P s a)
        ⟨fun h ↦ ⟨h, fun _ _ h' ↦ Option.noConfusion rfl (heq_of_eq (hs.symm.trans h'))⟩, And.left⟩
    | some (_, s') =>
      haveI := instDecidableAlong step P s' as
      decidable_of_iff (P s a ∧ Along step P s' as)
        ⟨fun h ↦ ⟨h.1, fun _ _ h' ↦
          (Prod.mk.inj (Option.some.inj (hs.symm.trans h'))).2 ▸ h.2⟩, fun h ↦ ⟨h.1, h.2 _ _ hs⟩⟩

/-- **The invariant rule for runs under a condition.** What every step that meets the condition
preserves, every run preserves all of whose steps meet it. -/
theorem invariant_of_along {step : σ → α → Option (β × σ)} {P : σ → α → Prop} {I : σ → Prop}
    (hstep : ∀ s a b s', I s → P s a → step s a = some (b, s') → I s') :
    ∀ {as : List α} {s t : σ} {out : List β}, I s → Along step P s as →
      runTrace step s as = some (out, t) → I t
  | [], s, t, out, hs, _, h => by
    obtain ⟨-, rfl⟩ := Prod.mk.inj (Option.some.inj h)
    exact hs
  | a :: as, s, t, out, hs, ⟨ha, hrest⟩, h => by
    obtain ⟨b, s', out', h₁, h₂, -⟩ := runTrace_cons_eq_some h
    exact invariant_of_along hstep (hstep s a b s' hs ha h₁) (hrest b s' h₁) h₂

/-- Two optional answers related one way are related every weaker way. -/
theorem Option.Rel.mono {r r' : α → β → Prop} (h : ∀ a b, r a b → r' a b) {x : Option α}
    {y : Option β} : Option.Rel r x y → Option.Rel r' x y
  | .some hab => .some (h _ _ hab)
  | .none => .none

/-- **Simulation.** If related states allow the same commands, answer them alike and stay related,
then their runs have the same outputs, and they end in related states. -/
theorem runTrace_eq_of_simulation {step : σ → α → Option (β × σ)}
    {step' : τ → α → Option (β × τ)} {R : σ → τ → Prop}
    (hsim : ∀ s t a, R s t →
      Option.Rel (fun p q ↦ p.1 = q.1 ∧ R p.2 q.2) (step s a) (step' t a)) :
    ∀ (as : List α) {s : σ} {t : τ}, R s t →
      Option.Rel (fun p q ↦ p.1 = q.1 ∧ R p.2 q.2) (runTrace step s as) (runTrace step' t as)
  | [], s, t, h => Option.Rel.some ⟨rfl, h⟩
  | a :: as, s, t, h => by
    rw [runTrace_cons, runTrace_cons]
    have hone := hsim s t a h
    revert hone
    rcases step s a with - | ⟨b, s'⟩ <;> rcases step' t a with - | ⟨b', t'⟩ <;> intro hone
    · exact Option.Rel.none
    · cases hone
    · cases hone
    · obtain ⟨rfl, hR⟩ : b = b' ∧ R s' t' := by cases hone; assumption
      have hrest := runTrace_eq_of_simulation hsim as hR
      simp only [Option.bind_some]
      revert hrest
      rcases runTrace step s' as with - | ⟨bs, s''⟩ <;>
        rcases runTrace step' t' as with - | ⟨bs', t''⟩ <;> intro hrest
      · exact Option.Rel.none
      · cases hrest
      · cases hrest
      · obtain ⟨rfl, hR'⟩ : bs = bs' ∧ R s'' t'' := by cases hrest; assumption
        exact Option.Rel.some ⟨rfl, hR'⟩

/-- **Forward simulation.** A system that follows each step of another one, with the same answer,
follows its runs. -/
theorem runTrace_lift {step : σ → α → Option (β × σ)} {step' : τ → α → Option (β × τ)}
    {R : σ → τ → Prop}
    (hsim : ∀ s t a b s', R s t → step s a = some (b, s') →
      ∃ t', step' t a = some (b, t') ∧ R s' t') :
    ∀ {as : List α} {s s' : σ} {t : τ} {out : List β}, R s t → runTrace step s as = some (out, s') →
      ∃ t', runTrace step' t as = some (out, t') ∧ R s' t'
  | [], s, s', t, out, hR, h => by
    obtain ⟨rfl, rfl⟩ := Prod.mk.inj (Option.some.inj h)
    exact ⟨t, rfl, hR⟩
  | a :: as, s, s', t, out, hR, h => by
    obtain ⟨b, s₁, out', h₁, h₂, rfl⟩ := runTrace_cons_eq_some h
    obtain ⟨t₁, ht₁, hR₁⟩ := hsim s t a b s₁ hR h₁
    obtain ⟨t', hrun, hR'⟩ := runTrace_lift hsim hR₁ h₂
    refine ⟨t', ?_, hR'⟩
    rw [runTrace_cons, ht₁, Option.bind_some, hrun, Option.map_some]

/-- Forward simulation by a system that always answers. -/
theorem runTrace_of_forward {step : σ → α → Option (β × σ)} {exec : τ → α → β × τ}
    {R : σ → τ → Prop}
    (hsim : ∀ s t a b s', R s t → step s a = some (b, s') → (exec t a).1 = b ∧ R s' (exec t a).2)
    {as : List α} {s s' : σ} {t : τ} {out : List β} (hR : R s t)
    (h : runTrace step s as = some (out, s')) :
    ∃ t', runTrace (fun t a ↦ some (exec t a)) t as = some (out, t') ∧ R s' t' := by
  refine runTrace_lift (fun s t a b s' hR hstep ↦ ?_) hR h
  obtain ⟨rfl, hR'⟩ := hsim s t a b s' hR hstep
  exact ⟨_, rfl, hR'⟩

end Deterministic

section Nondeterministic

variable {σ : Type*} {step : σ → σ → Prop} {I : σ → Prop}

/-- **The invariant rule for reachable states.** -/
theorem invariant_of_reflTransGen (hstep : ∀ s s', I s → step s s' → I s') {s t : σ} (hs : I s)
    (h : Relation.ReflTransGen step s t) : I t := by
  induction h with
  | refl => exact hs
  | tail _ hlast ih => exact hstep _ _ ih hlast

end Nondeterministic
