import Klever.Lib.Dict

/-!
# Requirements

An action of a process or a savepoint may require that the model has other processes, with certain
actions, or that it does not have them. A weak requirement asks for at least one of its processes.

What a requirement sees of a model are the actions of its processes, by the names of the processes, and
the attributes of the model, which record what became of the processes of the model it was made from.
A process counts as present if it has an attribute other than `Removed`.
-/

namespace Klever.Emg

open Klever.Lib List Option

/-- `Requirements`: the processes that are required (`True`) or forbidden (`False`) and the actions
that required processes must have. -/
structure Requirements where
  processes : Dict String Bool
  actions : Dict String (List String)
  deriving DecidableEq

/-- The attribute of the processes that were removed. -/
def removedAttribute : String := "Removed"

/-- What requirements see of a model. -/
structure Surroundings where
  actions : Dict String (List String)
  attributes : Dict String String

namespace Surroundings

/-- Is there a process of this name, or an attribute that does not say that it was removed? -/
def has (m : Surroundings) (name : String) : Bool :=
  name ∈ m.actions.keys || (m.attributes.get? name).any (· ≠ removedAttribute)

/-- Only the given processes, if any are given. -/
def restrict (m : Surroundings) (restrictTo : Option (List String)) : Dict String (List String) :=
  match restrictTo with
  | none => m.actions
  | some names =>
    ⟨m.actions.items.filter fun item => item.1 ∈ names, (filter_sublist.map Prod.fst).nodup m.actions.nodup⟩

end Surroundings

namespace Requirements

/-- No requirements. -/
def none : Requirements := ⟨.empty, .empty⟩

variable (r : Requirements)

/-- `required_processes` -/
def requiredProcesses : List String :=
  (r.processes.items.filter Prod.snd).map Prod.fst

/-- `forbidden_processes` -/
def forbiddenProcesses : List String :=
  (r.processes.items.filter fun item => !item.2).map Prod.fst

/-- `is_empty` -/
def isEmpty (r : Requirements) : Bool := r.processes.items.isEmpty

/-- `required_actions` -/
def requiredActions (name : String) : List String := (r.actions.get? name).getD []

/-- `add_requirement` -/
def addRequirement (name : String) (require : Bool) : Requirements :=
  { r with processes := r.processes.set name require }

/-- `add_actions_requirement` -/
def addActionsRequirement (name : String) (actions : List String) : Requirements :=
  { r with actions := r.actions.set name (r.requiredActions name ++ actions) }

/-- `compatible`: may the process be in the model with these actions? -/
def compatible (name : String) (actions : List String) : Bool :=
  if name ∈ r.requiredProcesses ∧ name ∈ r.actions.keys then
    (r.requiredActions name).all (· ∈ actions)
  else if name ∈ r.requiredProcesses then true
  else if name ∈ r.forbiddenProcesses then false
  else true

/-- The required processes that are looked at. -/
def required (restrictTo : Option (List String)) : List String :=
  match restrictTo with
  | .none => r.requiredProcesses
  | some names => r.requiredProcesses.filter (· ∈ names)

end Requirements

/-- What a process asks of the model: a requirement or a weak requirement. -/
inductive Requirement where
  | strong (r : Requirements)
  | weak (r : Requirements)

namespace Requirement

def requirements : Requirement → Requirements
  | strong r => r
  | weak r => r

/-- `get_missing_processes`: is nothing missing? -/
def getMissingProcesses (r : Requirement) (m : Surroundings) (processes : Dict String (List String))
    (restrictTo : Option (List String)) : Bool :=
  let found := Surroundings.has ⟨processes, m.attributes⟩
  match r with
  | strong r => (r.required restrictTo).all found
  | weak r => (r.required restrictTo).isEmpty || (r.required restrictTo).any found

/-- `compatible_with_model` -/
def compatibleWithModel (r : Requirement) (m : Surroundings)
    (restrictTo : Option (List String)) : Bool :=
  let processes := m.restrict restrictTo
  let suits := fun item : String × List String => r.requirements.compatible item.1 item.2
  match r with
  | strong _ => processes.items.all suits && r.getMissingProcesses m processes restrictTo
  | weak _ => processes.items.any suits && r.getMissingProcesses m processes restrictTo

end Requirement

/-! ## Requirements of larger models -/

namespace Requirements

variable {r : Requirements} {name : String}

theorem mem_requiredProcesses : name ∈ r.requiredProcesses ↔ r.processes.get? name = some true := by
  rw [requiredProcesses, List.mem_map, ← Dict.mem_items_iff]
  constructor
  · intro ⟨⟨_, flag⟩, mem, same⟩
    obtain ⟨mem, required⟩ := mem_filter.mp mem
    cases same
    rwa [show flag = true from required] at mem
  · intro mem
    exact ⟨(name, true), mem_filter.mpr ⟨mem, rfl⟩, rfl⟩

theorem mem_forbiddenProcesses : name ∈ r.forbiddenProcesses ↔ r.processes.get? name = some false := by
  rw [forbiddenProcesses, List.mem_map, ← Dict.mem_items_iff]
  constructor
  · intro ⟨⟨_, flag⟩, mem, same⟩
    obtain ⟨mem, forbidden⟩ := mem_filter.mp mem
    cases same
    rwa [show flag = false by simpa using forbidden] at mem
  · intro mem
    exact ⟨(name, false), mem_filter.mpr ⟨mem, rfl⟩, rfl⟩

/-- Nothing is asked of processes that are neither required nor forbidden. -/
theorem compatible_of_not_required {actions : List String} (permissive : r.forbiddenProcesses = [])
    (free : name ∉ r.requiredProcesses) : r.compatible name actions := by
  simp [compatible, free, permissive]

end Requirements

namespace Requirement

variable {r : Requirements} {m small large : Surroundings}

theorem compatibleWithModel_strong : (strong r).compatibleWithModel m none ↔
    (∀ name actions, m.actions.get? name = some actions → r.compatible name actions) ∧
      ∀ name ∈ r.requiredProcesses, m.has name := by
  simp [compatibleWithModel, Surroundings.restrict, getMissingProcesses, Requirements.required, requirements,
    Dict.mem_items_iff]

theorem compatibleWithModel_weak : (weak r).compatibleWithModel m none ↔
    (∃ name actions, m.actions.get? name = some actions ∧ r.compatible name actions) ∧
      (r.requiredProcesses = [] ∨ ∃ name ∈ r.requiredProcesses, m.has name) := by
  simp [compatibleWithModel, Surroundings.restrict, getMissingProcesses, Requirements.required, requirements,
    Dict.mem_items_iff]

/-- A model is part of another one: it has some of its processes, and does not have the others under
its attributes either. -/
structure Part (small large : Surroundings) : Prop where
  actions : ∀ name actions, small.actions.get? name = some actions → large.actions.get? name = some actions
  has : ∀ name, small.has name → large.has name
  others : ∀ name actions, large.actions.get? name = some actions →
    small.actions.get? name = some actions ∨ ¬ small.has name

/-- A requirement that forbids nothing and is met by a part of a model is met by the model. -/
theorem compatible_mono (part : Part small large) {r : Requirement}
    (permissive : r.requirements.forbiddenProcesses = []) (met : r.compatibleWithModel small none) :
    r.compatibleWithModel large none := by
  cases r with
  | strong r =>
    obtain ⟨suits, found⟩ := compatibleWithModel_strong.mp met
    refine compatibleWithModel_strong.mpr ⟨fun name actions present => ?_, fun name required =>
      part.has name (found name required)⟩
    obtain known | missing := part.others name actions present
    · exact suits name actions known
    · exact Requirements.compatible_of_not_required permissive fun required =>
        missing (found name required)
  | weak r =>
    obtain ⟨⟨name, actions, known, suits⟩, found⟩ := compatibleWithModel_weak.mp met
    refine compatibleWithModel_weak.mpr ⟨⟨name, actions, part.actions name actions known, suits⟩, ?_⟩
    obtain nothing | ⟨name, required, found⟩ := found
    · exact .inl nothing
    · exact .inr ⟨name, required, part.has name found⟩

/-- Requirements see the entries of the dictionaries only. -/
theorem compatible_congr {r : Requirement} (actions : ∀ name, small.actions.get? name =
    large.actions.get? name) (attributes : ∀ name, small.attributes.get? name =
    large.attributes.get? name) (met : r.compatibleWithModel small none) :
    r.compatibleWithModel large none := by
  have has : ∀ name, small.has name = large.has name := by
    intro name
    have keys : name ∈ small.actions.keys ↔ name ∈ large.actions.keys := by
      rw [Dict.mem_keys_iff, Dict.mem_keys_iff, actions name]
    unfold Surroundings.has
    rw [attributes name]
    simp [keys]
  cases r with
  | strong r =>
    rw [compatibleWithModel_strong] at met ⊢
    simpa only [← actions, ← has] using met
  | weak r =>
    rw [compatibleWithModel_weak] at met ⊢
    simpa only [← actions, ← has] using met

end Requirement

/-! ## Requirements without attributes -/

namespace Requirements

variable {r : Requirements} {name : String} {actions : List String}

/-- What is asked of a process depends on what the requirement has under its name. -/
theorem compatible_iff : r.compatible name actions ↔ match r.processes.get? name with
    | some true => ∀ a ∈ (r.actions.get? name).getD [], a ∈ actions
    | some false => False
    | .none => True := by
  unfold compatible
  simp only [mem_requiredProcesses, mem_forbiddenProcesses]
  cases asked : r.processes.get? name with
  | none => simp
  | some flag =>
    cases flag with
    | false => simp
    | true =>
      have keys : name ∈ r.actions.keys ↔ (r.actions.get? name).isSome := by
        rw [Dict.mem_keys_iff, isSome_iff_exists]
      simp only [keys]
      cases listed : r.actions.get? name with
      | none => simp
      | some names => simp [requiredActions, listed]

end Requirements

end Klever.Emg
