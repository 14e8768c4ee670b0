import Mathlib

/-!
# Loops that may raise

A loop over a list whose body changes a state and may raise. An exception ends the loop and keeps the
state that was reached. `forEach_ok_iff` says that the loop returns exactly when each iteration finds
a state in which its body returns, and `forEach_each` is the rule for loops over different things
each of which has its own part of the state.
-/

namespace Klever.Lib

variable {σ α ε : Type}

/-- `for a in as: body`, from a state. -/
def forEach (body : σ → α → Except ε Unit × σ) : σ → List α → Except ε Unit × σ
  | s, [] => (.ok (), s)
  | s, a :: rest =>
    match body s a with
    | (.error e, s) => (.error e, s)
    | (.ok (), s) => forEach body s rest

/-- Every iteration finds a state that meets a condition. -/
def Along (body : σ → α → Except ε Unit × σ) (P : σ → α → Prop) : σ → List α → Prop
  | _, [] => True
  | s, a :: rest => P s a ∧ Along body P (body s a).2 rest

variable {body : σ → α → Except ε Unit × σ} {s : σ}

theorem forEach_cons_of_ok {a : α} {rest : List α} (ok : (body s a).1 = .ok ()) :
    forEach body s (a :: rest) = forEach body (body s a).2 rest := by
  rw [forEach]
  split
  next raised => simp [raised] at ok
  next returned => rw [returned]

theorem forEach_cons_ok {a : α} {rest : List α} : (forEach body s (a :: rest)).1 = .ok () ↔
      (body s a).1 = .ok () ∧ (forEach body (body s a).2 rest).1 = .ok () := by
  constructor
  · intro ok
    have first : (body s a).1 = .ok () := by
      rw [forEach] at ok
      split at ok
      next => cases ok
      next returned => rw [returned]
    rw [forEach_cons_of_ok first] at ok
    exact ⟨first, ok⟩
  · intro ⟨first, ok⟩
    rw [forEach_cons_of_ok first]
    exact ok

variable {I : σ → Prop} {as : List α}

/-- What every iteration keeps holds at the end, whether the loop returns or raises. -/
theorem forEach_invariant (keeps : ∀ s, ∀ a ∈ as, I s → I (body s a).2) (start : I s) : I (forEach body s as).2 := by
  induction as generalizing s with
  | nil => exact start
  | cons a rest ih =>
    have next := keeps s a List.mem_cons_self start
    rw [forEach]
    split
    next raised =>
      rw [raised] at next
      exact next
    next returned =>
      rw [returned] at next
      exact ih (fun s b mem => keeps s b (List.mem_cons_of_mem _ mem)) next

/-- A loop whose states meet an invariant returns exactly when every iteration finds a state in which its body returns. -/
theorem forEach_ok_iff_of_invariant {P : σ → α → Prop} (keeps : ∀ s a, I s → I (body s a).2)
    (returns : ∀ s a, I s → ((body s a).1 = .ok () ↔ P s a)) (start : I s) (as : List α) :
    (forEach body s as).1 = .ok () ↔ Along body P s as := by
  induction as generalizing s with
  | nil => simp only [forEach, Along]
  | cons a rest ih => rw [forEach_cons_ok, returns s a start, ih (keeps s a start), Along]

/-- A loop returns exactly when every iteration finds a state in which its body returns. -/
theorem forEach_ok_iff {P : σ → α → Prop} (returns : ∀ s a, (body s a).1 = .ok () ↔ P s a) (s : σ)
    (as : List α) : (forEach body s as).1 = .ok () ↔ Along body P s as :=
  forEach_ok_iff_of_invariant (I := fun _ => True) (fun _ _ _ => trivial) (fun s a _ => returns s a) trivial as

/-- An iteration that changes only its own part of the state leaves the parts of the others. -/
theorem forEach_other {β : Type} (view : σ → α → β)
    (frame : ∀ s a other, other ≠ a → view (body s a).2 other = view s other)
    (ok : (forEach body s as).1 = .ok ()) {other : α} (outside : other ∉ as) :
    view (forEach body s as).2 other = view s other := by
  induction as generalizing s with
  | nil => rfl
  | cons a rest ih =>
    obtain ⟨first, later⟩ := forEach_cons_ok.mp ok
    rw [List.mem_cons, not_or] at outside
    rw [forEach_cons_of_ok first, ih later outside.2, frame s a other outside.1]

/-- A loop over different things, each iteration of which changes only its own part of the state:
what becomes of a part is decided by its own iteration, in a state that meets the invariant and where
the part is as at the start. -/
theorem forEach_each {β : Type} (view : σ → α → β)
    (frame : ∀ s a other, other ≠ a → view (body s a).2 other = view s other)
    (keeps : ∀ s a, I s → I (body s a).2) (start : I s) (nodup : as.Nodup) (ok : (forEach body s as).1 = .ok ()) :
    I (forEach body s as).2 ∧ ∀ a ∈ as, ∃ s', I s' ∧ view s' a = view s a ∧
      (body s' a).1 = .ok () ∧ view (forEach body s as).2 a = view (body s' a).2 a := by
  induction as generalizing s with
  | nil => exact ⟨start, fun _ mem => absurd mem List.not_mem_nil⟩
  | cons a rest ih =>
    obtain ⟨first, later⟩ := forEach_cons_ok.mp ok
    obtain ⟨outside, nodup⟩ := List.nodup_cons.mp nodup
    rw [forEach_cons_of_ok first]
    obtain ⟨final, each⟩ := ih (keeps s a start) nodup later
    refine ⟨final, fun b mem => ?_⟩
    rcases List.mem_cons.mp mem with rfl | mem
    · exact ⟨s, start, rfl, first, forEach_other view frame later outside⟩
    · obtain ⟨s', here, same, returned, after⟩ := each b mem
      have differs : b ≠ a := fun equal => outside (equal ▸ mem)
      exact ⟨s', here, same.trans (frame s a b differs), returned, after⟩

end Klever.Lib
