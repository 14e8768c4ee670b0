import Mathlib.Data.Set.Basic

/-!
# Labelled transition systems with silent steps

A system moves by steps that show an action or show nothing, and some of its states are final. What
an observer sees of it are the finite sequences of actions: those of the runs that end in a final
state (`Lts.sequences`) and those of all runs, broken off anywhere (`Lts.beginnings`).

A simulation follows each step of one system by a path of another one that shows the same. It bounds
both sets at once (`Simulation.sequences_subset`, `Simulation.beginnings_subset`), so two systems
that simulate each other cannot be told apart by their finite sequences.
-/

namespace Klever.Lib

/-- States with steps that show an action or nothing, and the states where a run may end. -/
structure Lts (σ α : Type) where
  step : σ → Option α → σ → Prop
  final : σ → Prop

namespace Lts

variable {σ τ α : Type} {A : Lts σ α} {B : Lts τ α}

/-- The finite paths, with the actions that they show. -/
inductive Path (A : Lts σ α) : σ → List α → σ → Prop
  | refl (s : σ) : Path A s [] s
  | step {s t u : σ} {l : Option α} {w : List α} :
      A.step s l t → Path A t w u → Path A s (l.toList ++ w) u

theorem Path.single {s t : σ} {l : Option α} (one : A.step s l t) : A.Path s l.toList t := by
  have path := Path.step one (.refl t)
  rwa [List.append_nil] at path

theorem Path.trans {s t u : σ} {v w : List α} (first : A.Path s v t) (second : A.Path t w u) : A.Path s (v ++ w) u := by
  induction first with
  | refl => exact second
  | step one _ ih =>
    rw [List.append_assoc]
    exact .step one (ih second)

/-- A silent step first does not change what a path shows. -/
theorem Path.silent {s t u : σ} {w : List α} (one : A.step s none t) (rest : A.Path t w u) : A.Path s w u :=
  .step one rest

/-- The sequences that are shown by the runs from `s` to a final state. -/
def sequences (A : Lts σ α) (s : σ) : Set (List α) := {w | ∃ t, A.Path s w t ∧ A.final t}

/-- The sequences that are shown by the runs from `s`, wherever they have got. -/
def beginnings (A : Lts σ α) (s : σ) : Set (List α) := {w | ∃ t, A.Path s w t}

/-- A run to a final state takes a step or ends at once. -/
theorem mem_sequences {s : σ} {w : List α} : w ∈ A.sequences s ↔ (w = [] ∧ A.final s) ∨
      ∃ l t v, A.step s l t ∧ v ∈ A.sequences t ∧ w = l.toList ++ v := by
  constructor
  · intro ⟨u, path, ends⟩
    cases path with
    | refl => exact .inl ⟨rfl, ends⟩
    | step one rest => exact .inr ⟨_, _, _, one, ⟨u, rest, ends⟩, rfl⟩
  · intro either
    obtain ⟨rfl, ends⟩ | ⟨l, t, v, one, ⟨u, rest, ends⟩, rfl⟩ := either
    · exact ⟨s, .refl s, ends⟩
    · exact ⟨u, .step one rest, ends⟩

/-- A run can be broken off earlier. -/
theorem mem_beginnings_of_prefix {s : σ} {v w : List α} (le : v <+: w) (mem : w ∈ A.beginnings s) :
    v ∈ A.beginnings s := by
  obtain ⟨t, path⟩ := mem
  induction path generalizing v with
  | refl s =>
    rw [List.prefix_nil.mp le]
    exact ⟨s, .refl s⟩
  | @step s _ _ l _ one _ ih =>
    cases l with
    | none =>
      obtain ⟨t, path⟩ := ih le
      exact ⟨t, .step one path⟩
    | some a =>
      cases v with
      | nil => exact ⟨s, .refl s⟩
      | cons b v =>
        obtain ⟨rfl, rest⟩ := List.cons_prefix_cons.mp le
        obtain ⟨t, path⟩ := ih rest
        exact ⟨t, .step one path⟩

/-- Each step of `A` is followed by a path of `B` that shows the same, and where `A` may end, `B` may
end after silent steps. -/
structure Simulation (A : Lts σ α) (B : Lts τ α) (R : σ → τ → Prop) : Prop where
  step : ∀ {s t l s'}, R s t → A.step s l s' → ∃ t', B.Path t l.toList t' ∧ R s' t'
  final : ∀ {s t}, R s t → A.final s → ∃ t', B.Path t [] t' ∧ B.final t'

namespace Simulation

variable {R : σ → τ → Prop} {s s' : σ} {t : τ} {w : List α}

theorem path (sim : Simulation A B R) (run : A.Path s w s') (related : R s t) : ∃ t', B.Path t w t' ∧ R s' t' := by
  induction run generalizing t with
  | refl => exact ⟨t, .refl t, related⟩
  | step one _ ih =>
    obtain ⟨t₁, first, related₁⟩ := sim.step related one
    obtain ⟨t₂, second, related₂⟩ := ih related₁
    exact ⟨t₂, first.trans second, related₂⟩

theorem beginnings_subset (sim : Simulation A B R) (related : R s t) : A.beginnings s ⊆ B.beginnings t := by
  intro w ⟨s', run⟩
  obtain ⟨t', path, -⟩ := sim.path run related
  exact ⟨t', path⟩

theorem sequences_subset (sim : Simulation A B R) (related : R s t) : A.sequences s ⊆ B.sequences t := by
  intro w ⟨s', run, ends⟩
  obtain ⟨t₁, path, related₁⟩ := sim.path run related
  obtain ⟨t₂, silent, ends'⟩ := sim.final related₁ ends
  have whole := path.trans silent
  rw [List.append_nil] at whole
  exact ⟨t₂, whole, ends'⟩

end Simulation

end Lts

end Klever.Lib
