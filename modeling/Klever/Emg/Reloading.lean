import Klever.Emg.Dsl

/-!
# Processes that are saved

An intermediate model is saved with the trees of its processes printed, and it is read again. Alternatives of choices are
turned round then, so the trees are others in general. They are turned round again when the model is saved and read once
more, so the second reading gives the tree that was there first.
-/

namespace Klever.Emg

open Klever.Lib List Option BaseAction

mutual

theorem mirrored_mirrored : ∀ t : BaseAction, t.mirrored.mirrored = t
  | .behaviour _ => rfl
  | .parentheses child => congrArg parentheses (mirrored_mirrored child)
  | .concatenation children => congrArg concatenation (mirroredEach_mirroredEach children)
  | .choice children => by
    have each := mirroredEach_mirroredEach children
    rw [mirroredEach_eq, mirroredEach_eq] at each
    rw [mirrored, mirrored, mirroredEach_eq, mirroredEach_eq, map_reverse, reverse_reverse, each]

theorem mirroredEach_mirroredEach : ∀ trees : List BaseAction, mirroredEach (mirroredEach trees) = trees
  | [] => rfl
  | t :: rest => congrArg₂ cons (mirrored_mirrored t) (mirroredEach_mirroredEach rest)

end

/-- A tree that has been read and whose behaviours are described as they are. -/
structure Described (A : Alphabet) (D : Descriptions) (t : BaseAction) : Prop where
  parsed : ∃ text, parseProcess A text = some t
  flags : ∀ b ∈ t.behaviours, b.shown D = b.kind

variable {A : Alphabet} {D : Descriptions} {t t' : BaseAction}

namespace Described

/-- The parser on what is printed for a tree. -/
theorem parse_repr (described : Described A D t) : (t.Printable D → parseProcess A (t.repr D) = some t.mirrored) ∧
    (¬ t.Printable D → parseProcess A (t.repr D) = none) := by
  obtain ⟨text, parsed⟩ := described.parsed
  have same : t.reread D = t.mirrored := congrArg _ (reflag_eq_self t described.flags)
  obtain ⟨u, shaped, rfl⟩ := parseProcess_shaped parsed
  rw [rootOf_repr, BaseAction.Printable, rootOf_behaviours, ← same, rootOf_reread]
  exact parseProcess_repr shaped

variable (described : Described A D t) (again : parseProcess A (t.repr D) = some t')
include described again

theorem printable : t.Printable D := by
  by_contra unprintable
  rw [described.parse_repr.2 unprintable] at again
  cases again

theorem eq_mirrored : t' = t.mirrored :=
  some.inj (again.symm.trans (described.parse_repr.1 (described.printable again)))

/-- What is saved and read twice is the same tree. -/
theorem parse_repr_again : parseProcess A (t'.repr D) = some t := by
  have printable := described.printable again
  obtain rfl := described.eq_mirrored again
  have mirrored : Described A D t.mirrored :=
    ⟨⟨_, again⟩, fun b mem => described.flags b ((mem_behaviours_mirrored t).mp mem)⟩
  rw [mirrored.parse_repr.1 fun b mem => printable b ((mem_behaviours_mirrored t).mp mem), mirrored_mirrored]

end Described

/-- The tree of `<a>|{d}`. -/
def choosing : BaseAction :=
  .concatenation [.choice [.concatenation [.behaviour ⟨0, "d", .subprocess, none⟩],
    .concatenation [.behaviour ⟨0, "a", .block, none⟩]]]

theorem choosing_described : Described asciiAlphabet (fun _ => none) choosing :=
  ⟨⟨"<a>|\x7bd\x7d", by decide +kernel⟩, by decide⟩

theorem choosing_saved : parseProcess asciiAlphabet (choosing.repr fun _ => none) = some choosing.mirrored := by
  decide +kernel

/-- The alternatives are turned round twice. -/
theorem choosing_again : choosing.mirrored ≠ choosing ∧
    parseProcess asciiAlphabet (choosing.mirrored.repr fun _ => none) = some choosing :=
  ⟨by decide, choosing_described.parse_repr_again choosing_saved⟩

end Klever.Emg
