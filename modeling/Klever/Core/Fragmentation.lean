import Mathlib.Data.Finset.Union
import Mathlib.Data.Fintype.Card

/-!
# Program fragments

PFG divides a program into fragments and adds to them what they depend on. `collect_dependencies` goes through files
layer by layer. The depth is "max number of edges from one of the given file to a file that can be included", but
the layer at this depth is left out.
-/

namespace Klever.Core

/-! ## Dependencies of files -/

/-- The files of a program with a filter. -/
structure FileGraph (F : Type) where
  successors : F → Finset F
  filterFunc : F → Bool

namespace FileGraph

variable {F : Type} [DecidableEq F] (g : FileGraph F) {files layer deps found : Finset F} {k n rounds : Nat}
  {depth : Option Nat} {x : F}

/-- The files of the next layer. -/
def newLayer (deps layer : Finset F) : Finset F :=
  (layer.biUnion g.successors).filter fun dep => dep ∉ deps ∧ dep ∉ layer ∧ g.filterFunc dep

/-- The loop of `collect_dependencies`, for at most so many rounds. -/
def collectLoop (g : FileGraph F) (rounds : Nat) (depth : Option Nat) (layer deps : Finset F) : Option (Finset F) :=
  if layer = ∅ ∨ depth = some 0 then some deps
  else match rounds with
    | 0 => none
    | rounds + 1 => g.collectLoop rounds (depth.map (· - 1)) (g.newLayer deps layer) (deps ∪ layer)

/-- There is a path of so many edges from one of the files, and the filter lets each step through. -/
inductive Reaches (g : FileGraph F) (files : Finset F) : Nat → F → Prop
  | start {x : F} : x ∈ files → g.Reaches files 0 x
  | step {n : Nat} {x y : F} : g.Reaches files n x → y ∈ g.successors x → g.filterFunc y → g.Reaches files (n + 1) y

/-- Exactly the files that are not farther than the depth are collected. -/
def CollectsAll (files : Finset F) (depth : Option Nat) : Prop :=
  ∃ rounds deps, g.collectLoop rounds depth files ∅ = some deps ∧
    ∀ x, x ∈ deps ↔ ∃ n, (∀ d ∈ depth, n ≤ d) ∧ g.Reaches files n x

/-- Before a round: the files that are nearer than the layer, and the layer. -/
structure Layered (files : Finset F) (k : Nat) (layer deps : Finset F) : Prop where
  near (x : F) : x ∈ deps ↔ ∃ n < k, g.Reaches files n x
  here (x : F) : x ∈ layer ↔ g.Reaches files k x ∧ x ∉ deps

variable {g}

namespace Layered

omit [DecidableEq F] in
theorem start (files : Finset F) : g.Layered files 0 files ∅ := by
  refine ⟨fun x => by simp, fun x => ⟨fun mem => ⟨.start mem, Finset.notMem_empty x⟩, ?_⟩⟩
  rintro ⟨⟨mem⟩, -⟩
  exact mem

section Rounds

variable (layered : g.Layered files k layer deps)

include layered

theorem mem_union : x ∈ deps ∪ layer ↔ ∃ n ≤ k, g.Reaches files n x := by
  rw [Finset.mem_union, layered.here, layered.near]
  constructor
  · rintro (⟨n, lt, reaches⟩ | ⟨reaches, -⟩)
    · exact ⟨n, lt.le, reaches⟩
    · exact ⟨k, le_rfl, reaches⟩
  · rintro ⟨n, le, reaches⟩
    obtain lt | rfl := Nat.lt_or_eq_of_le le
    · exact .inl ⟨n, lt, reaches⟩
    · tauto

theorem next : g.Layered files (k + 1) (g.newLayer deps layer) (deps ∪ layer) := by
  refine ⟨fun x => by simp only [layered.mem_union, Nat.lt_succ_iff], fun y => ?_⟩
  simp only [newLayer, Finset.mem_filter, Finset.mem_biUnion, Finset.mem_union, not_or]
  constructor
  · rintro ⟨⟨x, mem, edge⟩, far, new, allowed⟩
    exact ⟨.step ((layered.here x).mp mem).1 edge allowed, far, new⟩
  · rintro ⟨reaches, far, new⟩
    obtain _ | ⟨reaches, edge, allowed⟩ := reaches
    refine ⟨⟨_, (layered.here _).mpr ⟨reaches, fun near => ?_⟩, edge⟩, far, new, allowed⟩
    obtain ⟨n, lt, reaches⟩ := (layered.near _).mp near
    have both := layered.mem_union.mpr ⟨n + 1, lt, .step reaches edge allowed⟩
    exact (Finset.mem_union.mp both).elim far new

/-- Behind an empty layer there is nothing. -/
theorem mem_of_empty (empty : layer = ∅) (reaches : g.Reaches files n x) : x ∈ deps := by
  have near {m : Nat} {y : F} (le : m ≤ k) (reaches : g.Reaches files m y) : y ∈ deps := by
    have both := layered.mem_union.mpr ⟨m, le, reaches⟩
    rwa [empty, Finset.union_empty] at both
  induction reaches with
  | start mem => exact near (Nat.zero_le k) (.start mem)
  | step _ edge allowed ih =>
    obtain ⟨m, lt, reaches⟩ := (layered.near _).mp ih
    exact near lt (.step reaches edge allowed)

theorem mem_collectLoop (done : g.collectLoop rounds depth layer deps = some found) :
    x ∈ found ↔ ∃ n, (∀ d ∈ depth, n < k + d) ∧ g.Reaches files n x := by
  fun_induction collectLoop g rounds depth layer deps generalizing k with
  | case1 _ _ _ _ stops =>
    cases done
    obtain empty | rfl := stops
    · refine (layered.near x).trans ⟨?_, ?_⟩
      · rintro ⟨n, lt, reaches⟩
        exact ⟨n, fun d _ => by omega, reaches⟩
      · rintro ⟨n, -, reaches⟩
        exact (layered.near x).mp (layered.mem_of_empty empty reaches)
    · simpa using layered.near x
  | case2 => cases done
  | case3 depth _ _ goes _ ih =>
    rw [ih layered.next done]
    refine exists_congr fun n => and_congr_left fun _ => ?_
    cases depth with
    | none => simp
    | some d =>
      have positive : d ≠ 0 := fun none => goes (.inr (congrArg some none))
      simp only [Option.map_some, Option.mem_def, Option.some.injEq, forall_eq']
      omega

theorem exists_collectLoop [Fintype F] : ∃ rounds found, g.collectLoop rounds depth layer deps = some found := by
  induction left : (Finset.univ \ deps).card using Nat.strong_induction_on generalizing k layer deps depth with
  | h size ih =>
    by_cases stops : layer = ∅ ∨ depth = some 0
    · exact ⟨0, deps, by rw [collectLoop, if_pos stops]⟩
    obtain ⟨x, mem⟩ := Finset.nonempty_iff_ne_empty.mpr fun empty => stops (.inl empty)
    have fewer : (Finset.univ \ (deps ∪ layer)).card < size := by
      rw [← left]
      refine Finset.card_lt_card ⟨Finset.sdiff_subset_sdiff subset_rfl Finset.subset_union_left, fun all => ?_⟩
      simpa [mem] using all (Finset.mem_sdiff.mpr ⟨Finset.mem_univ x, ((layered.here x).mp mem).2⟩)
    obtain ⟨rounds, found, done⟩ := ih _ fewer layered.next rfl
    exact ⟨rounds + 1, found, by rw [collectLoop, if_neg stops, done]⟩

end Rounds

end Layered

/-- The files at the given depth itself are left out, so all is collected exactly if there are none. -/
theorem collectsAll_iff [Fintype F] : g.CollectsAll files depth ↔
    ∀ d ∈ depth, ∀ x, g.Reaches files d x → ∃ n < d, g.Reaches files n x := by
  have start : g.Layered files 0 files ∅ := .start files
  constructor
  · rintro ⟨rounds, deps, done, all⟩ d is x reaches
    obtain ⟨n, lt, reaches⟩ := (start.mem_collectLoop done).mp
      ((all x).mpr ⟨d, fun d' is' => (Option.mem_unique is is').le, reaches⟩)
    exact ⟨n, by simpa using lt d is, reaches⟩
  · intro near
    obtain ⟨rounds, deps, done⟩ := start.exists_collectLoop
    refine ⟨rounds, deps, done, fun x => (start.mem_collectLoop done).trans ?_⟩
    simp only [Nat.zero_add]
    constructor
    · rintro ⟨n, lt, reaches⟩
      exact ⟨n, fun d is => (lt d is).le, reaches⟩
    · rintro ⟨n, le, reaches⟩
      by_cases far : n ∈ depth
      · obtain ⟨m, lt, reaches⟩ := near n far x reaches
        exact ⟨m, fun d is => Option.mem_unique far is ▸ lt, reaches⟩
      · exact ⟨n, fun d is => lt_of_le_of_ne (le d is) fun same => far (same ▸ is), reaches⟩

/-- One file calls the other one. -/
def neighbours : FileGraph Bool := ⟨fun x => if x then ∅ else {true}, fun _ => true⟩

theorem neighbours_left_out : ¬ neighbours.CollectsAll {false} (some 1) := by
  rintro ⟨rounds, deps, done, all⟩
  have mem := (all true).mpr ⟨1, by simp, .step (.start (Finset.mem_singleton_self false)) (by decide) rfl⟩
  obtain ⟨n, lt, reaches⟩ := ((Layered.start _).mem_collectLoop done).mp mem
  obtain rfl : n = 0 := by simpa using lt
  cases reaches with
  | start mem => cases Finset.mem_singleton.mp mem

end FileGraph

end Klever.Core
