import Mathlib

/-!
# Properly nested openings and closings

A sequence of moves opens and closes things one inside another. The stack after some moves has what is
open, innermost first, each with the place where it was opened, so a closing move belongs to one very
opening. The sequence is properly nested when the stack never fails: whatever is closed is what was
opened last.

Everything follows from `stackAt_opened`: what is open was opened on the stack below it and has been
open since.
-/

namespace Klever.Lib.Nesting

/-- What one move does. -/
inductive Move (F : Type) where
  | stay
  | push (f : F)
  | pop (f : F)
  deriving DecidableEq, Repr

variable {F : Type} [DecidableEq F]

/-- The stack after a move at a place. -/
def Move.on (place : Nat) (stack : List (Nat × F)) : Move F → Option (List (Nat × F))
  | .stay => some stack
  | .push f => some ((place, f) :: stack)
  | .pop f => match stack with
    | (_, g) :: below => if g = f then some below else none
    | [] => none

/-- The stack after the first moves of a sequence. -/
def stackAt (moves : Nat → Move F) : Nat → Option (List (Nat × F))
  | 0 => some []
  | n + 1 => (stackAt moves n).bind fun stack => (moves n).on n stack

variable {moves : Nat → Move F}

theorem stackAt_succ {n : Nat} {stack : List (Nat × F)} : stackAt moves (n + 1) = some stack ↔
    ∃ before, stackAt moves n = some before ∧ (moves n).on n before = some stack :=
  Option.bind_eq_some_iff

theorem stackAt_of_le {m n : Nat} (le : m ≤ n) (fine : (stackAt moves n).isSome) : (stackAt moves m).isSome := by
  induction n, le using Nat.le_induction with
  | base => exact fine
  | succ n le ih =>
    obtain ⟨stack, is⟩ := Option.isSome_iff_exists.mp fine
    obtain ⟨before, was, -⟩ := stackAt_succ.mp is
    exact ih (was ▸ rfl)

/-- A move opens what is on top, or what is on the stack was there. -/
theorem on_cases {n i : Nat} {f : F} {before front below : List (Nat × F)} {move : Move F}
    (is : move.on n before = some (front ++ (i, f) :: below)) :
    (n = i ∧ front = [] ∧ move = .push f ∧ before = below) ∨ ∃ front, before = front ++ (i, f) :: below := by
  cases move with
  | stay =>
    cases is
    exact .inr ⟨front, rfl⟩
  | push g =>
    cases front with
    | nil =>
      cases is
      exact .inl ⟨rfl, rfl, rfl, rfl⟩
    | cons top front =>
      cases is
      exact .inr ⟨front, rfl⟩
  | pop g =>
    simp only [Move.on] at is
    split at is
    next top g' rest =>
      split at is
      · cases is
        exact .inr ⟨(top, g') :: front, rfl⟩
      · cases is
    next => cases is

/-- What is open was opened on the stack below it and has been open since. -/
theorem stackAt_opened {n i : Nat} {f : F} {front below : List (Nat × F)}
    (is : stackAt moves n = some (front ++ (i, f) :: below)) :
    i < n ∧ moves i = .push f ∧ stackAt moves i = some below ∧
      ∀ m, i < m → m ≤ n → ∃ front, stackAt moves m = some (front ++ (i, f) :: below) := by
  induction n generalizing front with
  | zero => exact absurd (Option.some.inj is) (by simp)
  | succ n ih =>
    obtain ⟨before, was, moved⟩ := stackAt_succ.mp is
    obtain ⟨rfl, rfl, push, rfl⟩ | ⟨front', rfl⟩ := on_cases moved
    · refine ⟨Nat.lt_succ_self n, push, was, fun m after before => ?_⟩
      obtain rfl : m = n + 1 := by omega
      exact ⟨[], is⟩
    · obtain ⟨later, push, opened, between⟩ := ih was
      refine ⟨by omega, push, opened, fun m after before => ?_⟩
      obtain rfl | before := Nat.eq_or_lt_of_le before
      · exact ⟨front, is⟩
      · exact between m after (by omega)

/-- The move at `r` closes what was opened at `i`. -/
def Closes (moves : Nat → Move F) (i r : Nat) : Prop :=
  ∃ f below, stackAt moves r = some ((i, f) :: below) ∧ moves r = .pop f

/-- What a closing says of the moves from the opening on. -/
theorem Closes.opened {i r : Nat} (closes : Closes moves i r) : ∃ f below, i < r ∧ moves i = .push f ∧
    moves r = .pop f ∧ stackAt moves i = some below ∧ stackAt moves r = some ((i, f) :: below) ∧
      stackAt moves (r + 1) = some below ∧
      ∀ m, i < m → m ≤ r → ∃ front, stackAt moves m = some (front ++ (i, f) :: below) := by
  obtain ⟨f, below, is, pop⟩ := closes
  obtain ⟨later, push, opened, between⟩ := @stackAt_opened _ _ _ _ _ _ [] _ is
  refine ⟨f, below, later, push, pop, opened, is, ?_, between⟩
  exact stackAt_succ.mpr ⟨_, is, by simp [pop, Move.on]⟩

theorem Closes.lt {i r : Nat} (closes : Closes moves i r) : i < r := by
  obtain ⟨_, _, lt, _⟩ := closes.opened
  exact lt

/-- Every closing move closes something. -/
theorem exists_closes {r : Nat} {f : F} (fine : (stackAt moves (r + 1)).isSome) (pop : moves r = .pop f) :
    ∃ i, Closes moves i r := by
  obtain ⟨stack, is⟩ := Option.isSome_iff_exists.mp fine
  obtain ⟨before, was, moved⟩ := stackAt_succ.mp is
  simp only [pop, Move.on] at moved
  split at moved
  next i g below =>
    split at moved
    next same => exact ⟨i, f, below, same ▸ was, pop⟩
    next => cases moved
  next => cases moved

/-- What was opened is still open or has been closed. -/
theorem open_or_closed {j n : Nat} {g : F} {below : List (Nat × F)} (opened : stackAt moves j = some below)
    (push : moves j = .push g) (after : j < n) (fine : (stackAt moves n).isSome) :
    (∃ front, stackAt moves n = some (front ++ (j, g) :: below)) ∨ ∃ q, q < n ∧ Closes moves j q := by
  induction n, after using Nat.le_induction with
  | base => exact .inl ⟨[], stackAt_succ.mpr ⟨below, opened, by rw [push]; rfl⟩⟩
  | succ n after ih =>
    obtain ⟨stack, is⟩ := Option.isSome_iff_exists.mp fine
    obtain ⟨before, was, moved⟩ := stackAt_succ.mp is
    obtain ⟨front, still⟩ | ⟨q, lt, closed⟩ := ih (was ▸ rfl)
    · rw [still, Option.some.injEq] at was
      subst was
      cases move : moves n with
      | stay =>
        rw [move] at moved
        cases moved
        exact .inl ⟨front, is⟩
      | push f =>
        rw [move] at moved
        cases moved
        exact .inl ⟨(n, f) :: front, is⟩
      | pop f =>
        rw [move] at moved
        cases front with
        | nil =>
          simp only [Move.on, List.nil_append] at moved
          split at moved
          next same => exact .inr ⟨n, Nat.lt_succ_self n, g, below, still, same ▸ move⟩
          next => cases moved
        | cons top front =>
          simp only [Move.on, List.cons_append] at moved
          split at moved
          next =>
            cases moved
            exact .inl ⟨front, is⟩
          next => cases moved
    · exact .inr ⟨q, by omega, closed⟩

/-- What is opened while something else is open is closed, if that is closed. -/
theorem Closes.exists_inner {i r j : Nat} {g : F} (outer : Closes moves i r) (after : i < j) (before : j < r)
    (push : moves j = .push g) : ∃ q, Closes moves j q := by
  obtain ⟨f, below, -, -, -, -, is, -, between⟩ := outer.opened
  obtain ⟨front, there⟩ := between j after before.le
  obtain ⟨front', still⟩ | ⟨q, -, closed⟩ := open_or_closed there push before (is ▸ rfl)
  · rw [is, Option.some.injEq] at still
    have length := congrArg List.length still
    simp only [List.length_cons, List.length_append] at length
    omega
  · exact ⟨q, closed⟩

/-- What is opened while something else is open is closed before it. -/
theorem Closes.nested {i r j q : Nat} (outer : Closes moves i r) (inner : Closes moves j q) (after : i < j)
    (within : j ≤ r) : q < r := by
  obtain ⟨f, below, -, -, pop, -, is, -, between⟩ := outer.opened
  obtain ⟨g, below', later, push, -, opened, is', -, between'⟩ := inner.opened
  have before : j < r := by
    refine lt_of_le_of_ne within fun same => ?_
    rw [same, pop] at push
    cases push
  by_contra late
  obtain ⟨front, there⟩ := between j after within
  rw [opened, Option.some.injEq] at there
  -- at `r` both are open, the inner one above the outer one
  obtain ⟨front', both⟩ := between' r before (by omega)
  rw [is, there, Option.some.injEq] at both
  have length := congrArg List.length both
  simp only [List.length_cons, List.length_append] at length
  omega

/-- A thing is closed once. -/
theorem Closes.unique {i r q : Nat} (one : Closes moves i r) (other : Closes moves i q) : r = q := by
  -- after the first closing the thing is not open any more
  have not_lt : ∀ {r q : Nat}, Closes moves i r → Closes moves i q → ¬ r < q := by
    intro r q one other before
    obtain ⟨f, below, later, -, -, opened, -, after, -⟩ := one.opened
    obtain ⟨g, below', -, -, -, opened', -, -, between⟩ := other.opened
    obtain ⟨front, still⟩ := between (r + 1) (by omega) (by omega)
    rw [opened, Option.some.injEq] at opened'
    rw [after, ← opened', Option.some.injEq] at still
    have length := congrArg List.length still
    simp only [List.length_cons, List.length_append] at length
    omega
  have le := not_lt one other
  have ge := not_lt other one
  omega

end Klever.Lib.Nesting
