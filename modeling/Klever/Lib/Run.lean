import Mathlib

/-!
# Runs of a labelled step relation

A run is a finite sequence of labelled steps from a state. It grows at its end, so a property that
speaks of the whole history so far is proved by looking at the last step only (`Run.invariant`).
-/

namespace Klever.Lib

variable {σ ι : Type} {step : σ → ι → σ → Prop}

/-- The finite runs of a step relation, with the labels in the order of the steps. -/
inductive Run (step : σ → ι → σ → Prop) : σ → List ι → σ → Prop
  | nil (s : σ) : Run step s [] s
  | snoc {s t u : σ} {is : List ι} {i : ι} : Run step s is t → step t i u → Run step s (is ++ [i]) u

namespace Run

variable {is : List ι}

/-- The invariant rule: what holds of the empty history and survives one more step holds after
every run. -/
theorem invariant {P : List ι → σ → Prop} {s t : σ} (run : Run step s is t)
    (init : P [] s) (keep : ∀ {is t i u}, P is t → step t i u → P (is ++ [i]) u) : P is t := by
  induction run with
  | nil => exact init
  | snoc _ last ih => exact keep ih last

/-- A property that one step keeps exactly when it meets a condition holds after a run exactly when
every step of the run meets the condition. -/
theorem iff_conditional {I P : σ → Prop} {C : σ → ι → Prop} {s u : σ}
    (run : Run step s is u) (start : I s ∧ P s) (keep : ∀ {t i u}, I t → step t i u → I u)
    (one : ∀ {t i u}, I t → step t i u → (P u ↔ P t ∧ C t i)) :
    P u ↔ Run (fun t i u => step t i u ∧ C t i) s is u := by
  constructor
  · suffices both : I u ∧ (P u → Run (fun t i u => step t i u ∧ C t i) s is u) from both.2
    induction run with
    | nil => exact ⟨start.1, fun _ => .nil _⟩
    | snoc _ last ih =>
      refine ⟨keep ih.1 last, fun holds => ?_⟩
      obtain ⟨before, met⟩ := (one ih.1 last).mp holds
      exact .snoc (ih.2 before) ⟨last, met⟩
  · intro conditional
    suffices both : I u ∧ P u from both.2
    clear run
    induction conditional with
    | nil => exact start
    | snoc _ last ih => exact ⟨keep ih.1 last.1, (one ih.1 last.1).mpr ⟨ih.2, last.2⟩⟩

/-- A run ends with its last step. -/
theorem snoc_inv {s u : σ} {i : ι} (run : Run step s (is ++ [i]) u) : ∃ t, Run step s is t ∧ step t i u := by
  generalize h : is ++ [i] = js at run
  cases run with
  | nil => simp at h
  | snoc before last =>
    obtain ⟨rfl, same⟩ := List.append_inj' h rfl
    cases same
    exact ⟨_, before, last⟩

/-- A run of steps is a run of a relation that has these steps. -/
theorem mono {step' : σ → ι → σ → Prop} (h : ∀ {s i t}, step s i t → step' s i t) {s t : σ}
    (run : Run step s is t) : Run step' s is t := by
  induction run with
  | nil => exact .nil _
  | snoc _ last ih => exact .snoc ih (h last)

/-- The empty run goes nowhere. -/
theorem nil_inv {s u : σ} (run : Run step s [] u) : u = s := by
  generalize h : ([] : List ι) = js at run
  cases run with
  | nil => rfl
  | snoc => simp at h

/-- A run of two parts is a run of the first part, then of the second. -/
theorem append_inv {s u : σ} {js : List ι} (run : Run step s (is ++ js) u) :
    ∃ t, Run step s is t ∧ Run step t js u := by
  induction js using List.reverseRecOn generalizing u with
  | nil =>
    rw [List.append_nil] at run
    exact ⟨u, run, .nil u⟩
  | append_singleton js i ih =>
    rw [← List.append_assoc] at run
    obtain ⟨t, before, last⟩ := run.snoc_inv
    obtain ⟨r, first, rest⟩ := ih before
    exact ⟨r, first, .snoc rest last⟩

/-- Where a label determines the step, the labels determine the run. -/
theorem unique {s t u : σ} (run : Run step s is t) (run' : Run step s is u)
    (functional : ∀ {s i t u}, step s i t → step s i u → t = u) : t = u := by
  induction run generalizing u with
  | nil => exact run'.nil_inv.symm
  | snoc _ last ih =>
    obtain ⟨v, before, last'⟩ := run'.snoc_inv
    obtain rfl := ih before
    exact functional last last'

end Run

/-! ## Runs of a partial function -/

variable {f : σ → ι → Option σ} {I P : σ → Prop} {C : σ → ι → Prop} {s u : σ} {is : List ι}

theorem foldlM_take_succ {n : Nat} {i : ι} (found : is[n]? = some i) :
    (is.take (n + 1)).foldlM f s = ((is.take n).foldlM f s).bind (f · i) := by
  obtain ⟨lt, rfl⟩ := List.getElem?_eq_some_iff.mp found
  rw [List.take_succ_eq_append_getElem lt, List.foldlM_append]
  refine congrArg _ (funext fun t => ?_)
  rw [List.foldlM_cons]
  cases f t is[n] <;> rfl

/-- The states of a run have a property that each step keeps, where a step may look at its label and at its place. -/
theorem foldlM_states (start : I s)
    (keep : ∀ {n t i u}, is[n]? = some i → (is.take n).foldlM f s = some t → I t → f t i = some u → I u) :
    ∀ n t, (is.take n).foldlM f s = some t → I t := by
  intro n
  induction n with
  | zero =>
    intro t is
    cases is
    exact start
  | succ n ih =>
    intro t after
    cases found : is[n]? with
    | none =>
      have le := List.getElem?_eq_none_iff.mp found
      rw [List.take_of_length_le (by omega)] at after
      exact ih t (by rwa [List.take_of_length_le le])
    | some i =>
      rw [foldlM_take_succ found] at after
      obtain ⟨v, before, step⟩ := Option.bind_eq_some_iff.mp after
      exact keep found before (ih v before) step

/-- A property that one step of a partial function keeps exactly when it meets a condition holds in all states
of a run exactly when all steps meet the condition. An invariant may help. -/
theorem foldlM_states_iff (ran : is.foldlM f s = some u) (holds : I s) (start : P s)
    (keep : ∀ {t i u}, I t → f t i = some u → I u)
    (one : ∀ {t i u}, I t → P t → f t i = some u → (P u ↔ C t i)) :
    (∀ n t, (is.take n).foldlM f s = some t → P t) ↔
      ∀ n i t, is[n]? = some i → (is.take n).foldlM f s = some t → C t i := by
  have invariant := @foldlM_states _ _ f I s is holds fun _ _ inv step => keep inv step
  constructor
  · intro all n i t found before
    -- a run that succeeds succeeds up to each of its steps
    have succeeds : ∃ v, (is.take (n + 1)).foldlM f s = some v := by
      rw [← List.take_append_drop (n + 1) is, List.foldlM_append] at ran
      obtain ⟨v, before, -⟩ := Option.bind_eq_some_iff.mp ran
      exact ⟨v, before⟩
    obtain ⟨v, after⟩ := succeeds
    have step := after
    rw [foldlM_take_succ found, before, Option.bind_some] at step
    exact (one (invariant n t before) (all n t before) step).mp (all (n + 1) v after)
  · intro all
    refine foldlM_states start fun found before holds step => ?_
    exact (one (invariant _ _ before) holds step).mpr (all _ _ _ found before)

/-! ## Behaviours -/

/-- Where a measure keeps decreasing until the end, the end is reached. -/
theorem exists_of_decreasing {σ μ : Type*} [Preorder μ] [WellFoundedLT μ] {at? : Nat → Option σ} {done : σ → Prop}
    (measure : σ → μ)
    (progress : ∀ n s, at? n = some s → ¬ done s → ∃ m t, at? m = some t ∧ (done t ∨ measure t < measure s))
    {n : Nat} {s : σ} (start : at? n = some s) : ∃ m t, at? m = some t ∧ done t := by
  induction is : measure s using WellFoundedLT.induction generalizing n s with
  | ind value ih =>
    by_cases ends : done s
    · exact ⟨n, s, start, ends⟩
    · obtain ⟨m, t, next, ends | less⟩ := progress n s start ends
      · exact ⟨m, t, next, ends⟩
      · exact ih (measure t) (is ▸ less) next rfl

end Klever.Lib
