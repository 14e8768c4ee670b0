import Mathlib.Data.List.Dedup
import Mathlib.Data.List.InsertIdx
import Mathlib.Data.List.Sort

/-!
# Merging lists of headers

Headers of a file come as several lists, which `_collapse_headers_sets` merges from the longest one. No header is lost
or repeated, and headers never change their order once they are placed. But the merge looks at one list at a time, so
it can place headers of two lists in an order that a third one forbids, although all three agree with a common order.
-/

namespace Klever.Emg.Headers

open List

variable {α : Type} [DecidableEq α] {final data difference : List α} {lists : List (List α)}

/-- A turn of the loop over `reversed(data)`; the state is `position` and `final_list`. -/
def place (difference : List α) (header : α) (state : Nat × List α) : Nat × List α :=
  if header ∉ difference then (state.2.idxOf header, state.2)
  else (state.1, state.2.insertIdx state.1 header)

/-- A turn of the loop over the popped lists -/
def merge (final data : List α) : List α :=
  let difference := (data.filter (· ∉ final)).dedup
  if 0 < difference.length ∧ difference.length = data.length then final ++ data
  else if 0 < difference.length then (data.foldr (place difference) (final.length, final)).2
  else final

/-- Lists in the order of `sortd.pop` -/
def popped (sets : List (List α)) : List (List α) :=
  (sets.insertionSort fun a b => a.length ≤ b.length).reverse

/-- `final_list` after some lists -/
def mergeAll (lists : List (List α)) : List α := lists.foldl merge []

/-- `_collapse_headers_sets` -/
def collapseHeadersSets (sets : List (List α)) : List α := mergeAll (popped sets)

/-- The headers of a list that are placed already stand in its order. -/
def Agrees (final data : List α) : Prop := data.filter (· ∈ final) <+ final

instance : Decidable (Agrees final data) := inferInstanceAs (Decidable (_ <+ _))

/-! ## One list -/

/-- Headers of a list are added to `final_list`, and nothing else happens to it. -/
structure Extends (final data out : List α) : Prop where
  keeps : final <+ out
  nodup : out.Nodup
  mem : ∀ header, header ∈ out ↔ header ∈ final ∨ header ∈ data

omit [DecidableEq α] in
theorem insertIdx_append (a : α) (l r : List α) : (l ++ r).insertIdx l.length a = l ++ a :: r := by
  induction l <;> simp_all

section Loop

variable (nodup : final.Nodup) (told : ∀ header ∈ data, header ∈ difference ↔ header ∉ final)
include nodup told

theorem foldr_extends (distinct : data.Nodup) :
    let state := data.foldr (place difference) (final.length, final)
    state.1 ≤ state.2.length ∧ Extends final data state.2 := by
  induction data with
  | nil => exact ⟨le_rfl, .refl _, nodup, by simp⟩
  | cons header data ih =>
    rw [forall_mem_cons] at told
    rw [nodup_cons] at distinct
    obtain ⟨within, keeps, nodup, mem⟩ := ih told.2 distinct.2
    rw [foldr_cons, place]
    split_ifs with new
    · have longer {n l} := sublist_insertIdx l n header
      refine ⟨within.trans longer.length_le, keeps.trans longer, ?_, fun x => ?_⟩
      · rw [(perm_insertIdx header _ within).nodup_iff, nodup_cons, mem]
        exact ⟨not_or.mpr ⟨told.1.mp new, distinct.1⟩, nodup⟩
      · rw [mem_insertIdx within, mem, mem_cons, or_left_comm]
    · refine ⟨idxOf_le_length, keeps, nodup, fun x => ?_⟩
      rw [mem, mem_cons]
      grind

/-- Placed headers of the rest of a list are sought behind `s`, so `position` never gets into `s`. -/
theorem foldr_sublist {s t : List α} (cut : final = s ++ t) (sub : data.filter (· ∈ final) <+ t) :
    ∃ m r, data.foldr (place difference) (final.length, final) = ((s ++ m).length, s ++ m ++ r) ∧ data <+ r := by
  induction data generalizing s t with
  | nil => exact ⟨t, [], by simp [cut], .slnil⟩
  | cons header data ih =>
    rw [forall_mem_cons] at told
    rw [foldr_cons, place]
    split_ifs with new
    · rw [filter_cons_of_neg (by simpa using told.1.mp new)] at sub
      obtain ⟨m, r, is, rest⟩ := ih told.2 cut sub
      refine ⟨m, header :: r, ?_, rest.cons_cons _⟩
      rw [is, insertIdx_append]
    · rw [told.1, not_not] at new
      rw [filter_cons_of_pos (by simpa), cons_sublist_iff] at sub
      obtain ⟨near, far, rfl, here, sub⟩ := sub
      obtain ⟨m, r, is, rest⟩ := ih told.2 (cut.trans (append_assoc ..).symm) sub
      obtain ⟨p, q, rfl⟩ := append_of_mem here
      have fresh : header ∉ s ++ p := by
        rw [cut] at nodup
        grind
      have all : s ++ (p ++ header :: q) ++ m ++ r = s ++ p ++ header :: (q ++ m ++ r) := by simp
      refine ⟨p, header :: (q ++ m ++ r), ?_, (rest.trans (sublist_append_right _ _)).cons_cons _⟩
      rw [is, all, idxOf_append_of_notMem fresh, idxOf_cons_self, Nat.add_zero]

end Loop

theorem merge_extends (nodup : final.Nodup) (distinct : data.Nodup) :
    Extends final data (merge final data) ∧ (Agrees final data → data <+ merge final data) := by
  rw [merge]
  set difference := (data.filter (· ∉ final)).dedup
  have told : ∀ header ∈ data, header ∈ difference ↔ header ∉ final := by
    simp +contextual [difference]
  split_ifs with whole some
  · have new : ∀ header ∈ data, header ∉ final := by
      simpa [difference, (distinct.filter _).dedup] using whole.2
    refine ⟨⟨sublist_append_left _ _, ?_, fun _ => mem_append⟩, fun _ => sublist_append_right _ _⟩
    exact nodup_append.mpr ⟨nodup, distinct, fun x old y now is => new y now (is ▸ old)⟩
  · refine ⟨(foldr_extends nodup told distinct).2, fun agrees => ?_⟩
    obtain ⟨m, r, is, sub⟩ := foldr_sublist nodup told (nil_append _).symm agrees
    rw [is]
    exact sub.trans (sublist_append_right _ _)
  · have old : ∀ header ∈ data, header ∈ final := by
      simpa [difference] using some
    refine ⟨⟨.refl _, nodup, fun header => by grind⟩, fun agrees => ?_⟩
    rwa [Agrees, filter_eq_self.mpr (by simpa using old)] at agrees

/-! ## All lists -/

theorem foldl_merge_extends (nodup : final.Nodup) (distinct : ∀ data ∈ lists, data.Nodup) :
    Extends final lists.flatten (lists.foldl merge final) := by
  induction lists generalizing final with
  | nil => exact ⟨.refl _, nodup, by simp⟩
  | cons data lists ih =>
    rw [forall_mem_cons] at distinct
    have one := (merge_extends nodup distinct.1).1
    have rest := ih one.nodup distinct.2
    refine ⟨one.keeps.trans rest.keeps, rest.nodup, fun header => ?_⟩
    rw [foldl_cons, rest.mem, one.mem, flatten_cons, mem_append, or_assoc]

theorem filter_mem_eq {l m : List α} (sub : l <+ m) (nodup : m.Nodup) : m.filter (· ∈ l) = l := by
  induction sub with
  | slnil => rfl
  | cons a sub ih =>
    rw [nodup_cons] at nodup
    rw [filter_cons_of_neg (by simpa using fun h => nodup.1 (sub.subset h)), ih nodup.2]
  | cons_cons a sub ih =>
    rw [nodup_cons] at nodup
    rw [filter_cons_of_pos (by simp), filter_congr fun x h => ?_, ih nodup.2]
    grind

/-- What is placed later does not repair a disagreement. -/
theorem Agrees.of_sublist {out : List α} (keeps : final <+ out) (nodup : out.Nodup) (sub : data <+ out) :
    Agrees final data := by
  have placed := sub.filter (· ∈ final)
  rwa [filter_mem_eq keeps nodup] at placed

omit [DecidableEq α] in
theorem mem_popped {sets : List (List α)} : data ∈ popped sets ↔ data ∈ sets := by
  rw [popped, mem_reverse, (perm_insertionSort _ _).mem_iff]

/-- Each header of each list is included once, and a list is followed if and only if the headers that were placed
before its turn stand in its order. -/
theorem collapseHeadersSets_merges (sets : List (List α)) (distinct : ∀ data ∈ sets, data.Nodup) :
    (collapseHeadersSets sets).Nodup ∧
    (∀ header, header ∈ collapseHeadersSets sets ↔ ∃ data ∈ sets, header ∈ data) ∧
    ∀ earlier data later, popped sets = earlier ++ data :: later →
      (data <+ collapseHeadersSets sets ↔ Agrees (mergeAll earlier) data) := by
  replace distinct : ∀ data ∈ popped sets, data.Nodup := fun data h => distinct data (mem_popped.mp h)
  have all := foldl_merge_extends nodup_nil distinct
  refine ⟨all.nodup, fun header => ?_, fun earlier data later cut => ?_⟩
  · simpa [collapseHeadersSets, mergeAll, mem_popped] using all.mem header
  · rw [cut, forall_mem_append, forall_mem_cons] at distinct
    have first := foldl_merge_extends nodup_nil distinct.1
    have turn := merge_extends first.nodup distinct.2.1
    have rest := foldl_merge_extends turn.1.nodup distinct.2.2
    rw [collapseHeadersSets, mergeAll, cut, foldl_append, foldl_cons]
    exact ⟨Agrees.of_sublist (turn.1.keeps.trans rest.keeps) rest.nodup, fun agrees => (turn.2 agrees).trans rest.keeps⟩

theorem crossed_merges : Agrees (mergeAll [["x", "y"]]) ["a", "y"] ∧
    ["a", "y"] <+ collapseHeadersSets [["a", "y"], ["x", "y"]] :=
  have agrees : Agrees (mergeAll [["x", "y"]]) ["a", "y"] := by decide
  ⟨agrees, ((collapseHeadersSets_merges _ (by decide)).2.2 [["x", "y"]] _ [] rfl).mpr agrees⟩

/-- All lists agree with the order `a`, `b`, `x`, `y`, but `y` is placed before `a`. -/
theorem crossed_lost : (∀ data ∈ [["a", "y"], ["a", "b"], ["x", "y"]], data.Nodup ∧ data <+ ["a", "b", "x", "y"]) ∧
    collapseHeadersSets [["a", "y"], ["a", "b"], ["x", "y"]] = ["x", "y", "a", "b"] ∧
    ¬ ["a", "y"] <+ collapseHeadersSets [["a", "y"], ["a", "b"], ["x", "y"]] := by
  decide

end Klever.Emg.Headers
