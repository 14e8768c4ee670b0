import Mathlib

/-!
# A greedy choice of maximal elements

Elements of a list are chosen one by one, each unless it is below one that has been chosen. All elements are below chosen
ones then. If no element is below a later one only, the chosen ones are not below each other.
-/

namespace Klever.Lib

variable {α : Type} {below : α → α → Bool} {chosen xs : List α} {x : α}

/-- What is chosen in addition to what has been chosen. -/
def chooseMaximal (below : α → α → Bool) (chosen xs : List α) : List α :=
  xs.foldl (fun chosen x => if chosen.any (below x) then chosen else x :: chosen) chosen

theorem chooseMaximal_cons : chooseMaximal below chosen (x :: xs) =
    chooseMaximal below (if chosen.any (below x) then chosen else x :: chosen) xs := rfl

theorem subset_chooseMaximal : chosen ⊆ chooseMaximal below chosen xs := by
  induction xs generalizing chosen with
  | nil => exact List.Subset.refl _
  | cons x xs ih =>
    rw [chooseMaximal_cons]
    split
    · exact ih
    · exact List.Subset.trans (List.subset_cons_self _ _) ih

theorem chooseMaximal_subset : chooseMaximal below chosen xs ⊆ chosen ++ xs := by
  induction xs generalizing chosen with
  | nil => exact List.subset_append_left _ _
  | cons x xs ih =>
    rw [chooseMaximal_cons]
    intro y mem
    have := ih mem
    split at this <;> simp at this ⊢ <;> tauto

/-- Each element is below a chosen one. -/
theorem exists_mem_chooseMaximal (refl : ∀ x, below x x = true) (mem : x ∈ xs) :
    ∃ y ∈ chooseMaximal below chosen xs, below x y = true := by
  induction xs generalizing chosen with
  | nil => cases mem
  | cons first xs ih =>
    rw [chooseMaximal_cons]
    obtain rfl | mem := List.mem_cons.mp mem
    · split
      next covered =>
        obtain ⟨y, mem, under⟩ := List.any_eq_true.mp covered
        exact ⟨y, subset_chooseMaximal mem, under⟩
      next => exact ⟨x, subset_chooseMaximal List.mem_cons_self, refl x⟩
    · exact ih mem

/-- Chosen elements are not below each other. -/
theorem chooseMaximal_antichain (sorted : (chosen.reverse ++ xs).Pairwise fun x y => below x y → below y x)
    (antichain : ∀ x ∈ chosen, ∀ y ∈ chosen, below x y → x = y) :
    ∀ x ∈ chooseMaximal below chosen xs, ∀ y ∈ chooseMaximal below chosen xs, below x y → x = y := by
  induction xs generalizing chosen with
  | nil => exact antichain
  | cons first xs ih =>
    rw [chooseMaximal_cons]
    split
    next => exact ih (sorted.sublist ((List.sublist_cons_self _ _).append_left _)) antichain
    next new =>
      have apart (x) (mem : x ∈ chosen) : ¬ below first x := fun under => new (List.any_eq_true.mpr ⟨x, mem, under⟩)
      have earlier (x) (mem : x ∈ chosen) : below x first → below first x :=
        (List.pairwise_append.mp sorted).2.2 x (List.mem_reverse.mpr mem) first List.mem_cons_self
      refine ih (by simpa using sorted) fun x mem y mem' under => ?_
      obtain is | mem := List.mem_cons.mp mem <;> obtain is' | mem' := List.mem_cons.mp mem'
      · rw [is, is']
      · exact absurd (is ▸ under) (apart y mem')
      · exact absurd (earlier x mem (is' ▸ under)) (apart x mem)
      · exact antichain x mem y mem' under

end Klever.Lib
