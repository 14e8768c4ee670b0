import Mathlib

/-!
# Removing until nothing is to be removed

A finite set is stable if each of its elements is supported by the set. Elements are removed one after
another; an element may go when no stable part of the present set has it. If what is left in the end
is stable, it is the greatest stable part of the set at the start, in whatever order elements went.
-/

namespace Klever.Lib

variable {α : Type} [DecidableEq α]

/-- Removals of elements that no stable part of the present set has. -/
inductive Removal (Stable : Finset α → Prop) : Finset α → Finset α → Prop
  | refl (S) : Removal Stable S S
  | remove {S S' : Finset α} {a : α} : Removal Stable S S' → (∀ T ⊆ S', Stable T → a ∉ T) →
      Removal Stable S (S'.erase a)

namespace Removal

variable {Stable : Finset α → Prop} {S S' : Finset α}

theorem subset (removal : Removal Stable S S') : S' ⊆ S := by
  induction removal with
  | refl => exact Finset.Subset.refl _
  | remove _ _ ih => exact (Finset.erase_subset _ _).trans ih

theorem trans {S'' : Finset α} (first : Removal Stable S S') (second : Removal Stable S' S'') :
    Removal Stable S S'' := by
  induction second with
  | refl => exact first
  | remove _ unsupported ih => exact .remove ih unsupported

/-- Stable parts lose no element. -/
theorem keeps (removal : Removal Stable S S') {T : Finset α} (sub : T ⊆ S) (stable : Stable T) : T ⊆ S' := by
  induction removal with
  | refl => exact sub
  | remove _ unsupported ih => exact Finset.subset_erase.mpr ⟨ih, unsupported T ih stable⟩

theorem isGreatest (removal : Removal Stable S S') (stable : Stable S') : IsGreatest {T | T ⊆ S ∧ Stable T} S' :=
  ⟨⟨removal.subset, stable⟩, fun _ part => removal.keeps part.1 part.2⟩

end Removal

end Klever.Lib
