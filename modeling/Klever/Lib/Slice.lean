import Mathlib

/-!
# Slices of lists

The slice `l[i:j]` of a list, with Python's reading of its bounds: a negative bound counts from the
end, and a bound outside the list is moved to its edge. Within the list a slice holds the elements
between its bounds (`mem_slice_iff`); so two slices of a list without repetition share nothing
exactly when their ranges do not meet, and neither do the unions of disjoint non-empty blocks that
they select (`disjoint_flatMap_slice_iff`).
-/

namespace Klever.Lib

variable {α β : Type}

/-- A slice bound as a position in a list of the given length. -/
def sliceBound (length : ℕ) (i : ℤ) : ℕ :=
  if i < 0 then (i + length).toNat else min i.toNat length

theorem sliceBound_of_le {length : ℕ} {i : ℤ} (start : 0 ≤ i) (stop : i ≤ length) : sliceBound length i = i.toNat := by
  rw [sliceBound, if_neg (by omega)]
  omega

/-- The slice `l[i:j]`. -/
def slice (l : List α) (i j : ℤ) : List α :=
  (l.take (sliceBound l.length j)).drop (sliceBound l.length i)

theorem slice_sublist (l : List α) (i j : ℤ) : (slice l i j).Sublist l :=
  (List.drop_sublist _ _).trans (List.take_sublist _ _)

section InRange

variable {l : List α} {i j : ℤ} (start : 0 ≤ i) (stop : j ≤ l.length)

include start stop

theorem length_slice (order : i ≤ j) : ((slice l i j).length : ℤ) = j - i := by
  rw [slice, List.length_drop, List.length_take, sliceBound_of_le start (order.trans stop),
    sliceBound_of_le (start.trans order) stop]
  omega

/-- The elements of a slice are those between its bounds. -/
theorem mem_slice_iff (order : i ≤ j) {a : α} : a ∈ slice l i j ↔ ∃ n : ℕ, i ≤ n ∧ n < j ∧ l[n]? = some a := by
  simp only [slice, sliceBound_of_le start (order.trans stop),
    sliceBound_of_le (start.trans order) stop, List.mem_iff_getElem?, List.getElem?_drop, List.getElem?_take]
  constructor
  · rintro ⟨n, found⟩
    split at found
    next below => exact ⟨i.toNat + n, by omega, by omega, found⟩
    next => cases found
  · rintro ⟨n, above, below, found⟩
    refine ⟨n - i.toNat, ?_⟩
    rw [if_pos (by omega), show i.toNat + (n - i.toNat) = n by omega, found]

end InRange

/-- Two slices select disjoint unions of blocks exactly when their ranges do not meet or one of them
is empty. -/
theorem disjoint_flatMap_slice_iff {l : List α} {block : α → List β} {i j i' j' : ℤ}
    (start : 0 ≤ i) (order : i ≤ j) (stop : j ≤ l.length)
    (start' : 0 ≤ i') (order' : i' ≤ j') (stop' : j' ≤ l.length)
    (nodup : l.Nodup) (nonempty : ∀ a ∈ l, block a ≠ [])
    (apart : ∀ a ∈ l, ∀ b ∈ l, a ≠ b → (block a).Disjoint (block b)) :
    ((slice l i j).flatMap block).Disjoint ((slice l i' j').flatMap block) ↔ j ≤ i' ∨ j' ≤ i ∨ j ≤ i ∨ j' ≤ i' := by
  constructor
  · intro disjoint
    by_contra meet
    -- both ranges contain the larger of the two starts
    have bound : (max i i').toNat < l.length := by omega
    obtain ⟨b, hb⟩ := List.exists_mem_of_ne_nil _
      (nonempty (l.get ⟨(max i i').toNat, bound⟩) (List.get_mem _ _))
    have found : l[(max i i').toNat]? = some (l.get ⟨(max i i').toNat, bound⟩) :=
      List.getElem?_eq_getElem bound
    refine disjoint (List.mem_flatMap.mpr ⟨_, ?_, hb⟩) (List.mem_flatMap.mpr ⟨_, ?_, hb⟩)
    · exact (mem_slice_iff start stop order).mpr ⟨_, by omega, by omega, found⟩
    · exact (mem_slice_iff start' stop' order').mpr ⟨_, by omega, by omega, found⟩
  · intro away b hb hb'
    obtain ⟨a, ha, hab⟩ := List.mem_flatMap.mp hb
    obtain ⟨a', ha', hab'⟩ := List.mem_flatMap.mp hb'
    obtain ⟨n, above, below, found⟩ := (mem_slice_iff start stop order).mp ha
    obtain ⟨n', above', below', found'⟩ := (mem_slice_iff start' stop' order').mp ha'
    by_cases same : a = a'
    · subst same
      obtain ⟨bound, rfl⟩ := List.getElem?_eq_some_iff.mp found
      obtain ⟨bound', eq⟩ := List.getElem?_eq_some_iff.mp found'
      have := (List.Nodup.getElem_inj_iff nodup).mp eq
      omega
    · exact apart a ((slice_sublist l i j).subset ha) a' ((slice_sublist l i' j').subset ha') same
        hab hab'

end Klever.Lib
