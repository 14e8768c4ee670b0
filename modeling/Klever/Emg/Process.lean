import Klever.Lib.Dict
import Klever.Lib.Lts

/-!
# Processes of the environment model

A process orders its actions by trees: sequences, choices and parentheses over behaviours, which are
occurrences of named actions. A jump is a behaviour of a `Subprocess`: the process goes on with the
tree of the subprocess and does not return.

The behaviours of all trees are also registered with the process, by their names. They are objects
with an identity of their own, so two occurrences of one action differ.
-/

namespace Klever.Emg

open Klever.Lib List

/-- The classes of actions. -/
inductive Kind where
  | subprocess
  | dispatch (broadcast : Bool)
  | receive (replicative : Bool)
  | block
  deriving DecidableEq, Repr

/-- What stands in square brackets behind a name. -/
inductive Repeat where
  | count (n : Nat)
  /-- `%label%` -/
  | guard (label : String)
  deriving DecidableEq, Repr

/-- An occurrence of an action in a tree. -/
structure Behaviour where
  /-- the identity of the object -/
  ident : Nat
  name : String
  kind : Kind
  repeated : Option Repeat
  deriving DecidableEq, Repr

/-- Is a number given in square brackets? -/
def Behaviour.counted (b : Behaviour) : Bool :=
  match b.repeated with
  | some (.count _) => true
  | _ => false

/-- The number in square brackets. -/
def Behaviour.number (b : Behaviour) : Nat :=
  match b.repeated with
  | some (.count n) => n
  | _ => 0

/-- The trees of behaviours and operators. -/
inductive BaseAction where
  | behaviour (b : Behaviour)
  | parentheses (child : BaseAction)
  | concatenation (children : List BaseAction)
  | choice (children : List BaseAction)

mutual

/-- Trees are compared constructor by constructor; the derived instance does not reach through the
lists of children. -/
def BaseAction.decEq : (s t : BaseAction) → Decidable (s = t)
  | .behaviour b, .behaviour c => decidable_of_iff (b = c) (by rw [BaseAction.behaviour.injEq])
  | .parentheses s, .parentheses t =>
    have := BaseAction.decEq s t
    decidable_of_iff (s = t) (by rw [BaseAction.parentheses.injEq])
  | .concatenation ss, .concatenation ts =>
    have := decEqEach ss ts
    decidable_of_iff (ss = ts) (by rw [BaseAction.concatenation.injEq])
  | .choice ss, .choice ts =>
    have := decEqEach ss ts
    decidable_of_iff (ss = ts) (by rw [BaseAction.choice.injEq])
  | .behaviour _, .parentheses _ | .behaviour _, .concatenation _ | .behaviour _, .choice _
  | .parentheses _, .behaviour _ | .parentheses _, .concatenation _ | .parentheses _, .choice _
  | .concatenation _, .behaviour _ | .concatenation _, .parentheses _ | .concatenation _, .choice _
  | .choice _, .behaviour _ | .choice _, .parentheses _ | .choice _, .concatenation _ =>
    isFalse BaseAction.noConfusion

def decEqEach : (ss ts : List BaseAction) → Decidable (ss = ts)
  | [], [] => isTrue rfl
  | [], _ :: _ => isFalse nofun
  | _ :: _, [] => isFalse nofun
  | s :: ss, t :: ts =>
    have := BaseAction.decEq s t
    have := decEqEach ss ts
    decidable_of_iff (s = t ∧ ss = ts) (by rw [List.cons.injEq])

end

instance : DecidableEq BaseAction := BaseAction.decEq

mutual

/-- The behaviours of a tree, from left to right. -/
def BaseAction.behaviours : BaseAction → List Behaviour
  | .behaviour b => [b]
  | .parentheses child => child.behaviours
  | .concatenation children => behavioursOf children
  | .choice children => behavioursOf children

def behavioursOf : List BaseAction → List Behaviour
  | [] => []
  | t :: rest => t.behaviours ++ behavioursOf rest

end

theorem mem_behavioursOf {b : Behaviour} {trees : List BaseAction} :
    b ∈ behavioursOf trees ↔ ∃ t ∈ trees, b ∈ t.behaviours := by
  induction trees with
  | nil => simp [behavioursOf]
  | cons t rest ih => simp [behavioursOf, ih]

/-- A process: its initial tree, the trees of its subprocesses (none as long as it is not connected)
and its behaviours in the order in which the sets of `Actions` enumerate them. -/
structure Process where
  initial : BaseAction
  subprocesses : Dict String (Option BaseAction)
  registered : List Behaviour
  registered_perm : registered.Perm (initial.behaviours ++ behavioursOf (subprocesses.values.filterMap id))
  ident_nodup : (registered.map Behaviour.ident).Nodup

namespace Process

variable {p : Process}

theorem registered_nodup : p.registered.Nodup := .of_map _ p.ident_nodup

theorem registered_of_initial {b : Behaviour} (h : b ∈ p.initial.behaviours) : b ∈ p.registered :=
  p.registered_perm.mem_iff.mpr (mem_append_left _ h)

variable {name : String}

theorem registered_of_subprocess {body : BaseAction} {b : Behaviour}
    (entry : p.subprocesses.get? name = some (some body)) (h : b ∈ body.behaviours) :
    b ∈ p.registered := by
  apply p.registered_perm.mem_iff.mpr
  apply mem_append_right
  refine mem_behavioursOf.mpr ⟨body, ?_, h⟩
  refine mem_filterMap.mpr ⟨some body, ?_, rfl⟩
  exact Dict.mem_values_iff.mpr ⟨name, entry⟩

/-- How far a run of a process has got: the trees that are still to be executed one after another,
and the jumps that it has taken. -/
structure Position where
  work : List BaseAction
  taken : List Behaviour

/-- The steps of a process. Actions are shown by their names; a jump forgets what was to follow it,
and one with a number is possible only while the run has taken it fewer times. -/
inductive Move (p : Process) : Position → Option String → Position → Prop
  | action {b} (rest taken) : b.kind ≠ .subprocess → b.repeated = none →
      Move p ⟨.behaviour b :: rest, taken⟩ (some b.name) ⟨rest, taken⟩
  | jump {b body} (rest taken) : b.kind = .subprocess → b.repeated = none →
      p.subprocesses.get? b.name = some (some body) →
      Move p ⟨.behaviour b :: rest, taken⟩ none ⟨[body], b :: taken⟩
  | counted {b n body taken} (rest) : b.kind = .subprocess → b.repeated = some (.count n) →
      p.subprocesses.get? b.name = some (some body) → taken.count b < n →
      Move p ⟨.behaviour b :: rest, taken⟩ none ⟨[body], b :: taken⟩
  | parentheses (child rest taken) :
      Move p ⟨.parentheses child :: rest, taken⟩ none ⟨child :: rest, taken⟩
  | concatenation (children rest taken) :
      Move p ⟨.concatenation children :: rest, taken⟩ none ⟨children ++ rest, taken⟩
  | choice {c children} (rest taken) : c ∈ children → Move p ⟨.choice children :: rest, taken⟩ none ⟨c :: rest, taken⟩

/-- The runs of a process; one ends when nothing is left to execute. -/
def lts (p : Process) : Lts Position String := ⟨p.Move, fun s => s.work = []⟩

/-- Where the runs of a process start. -/
def start (p : Process) : Position := ⟨[p.initial], []⟩

/-- The trees over named actions, sequences, choices between at least two alternatives, parentheses
and jumps to the given subprocesses, where only jumps have a number. -/
inductive Plain (names : List String) : BaseAction → Prop
  | action {b} : b.kind ≠ .subprocess → b.repeated = none → Plain names (.behaviour b)
  | jump {b} : b.kind = .subprocess → b.repeated = none → b.name ∈ names → Plain names (.behaviour b)
  | counted {b n} : b.kind = .subprocess → b.repeated = some (.count n) → b.name ∈ names → Plain names (.behaviour b)
  | parentheses {child} : Plain names child → Plain names (.parentheses child)
  | concatenation {children} : (∀ c ∈ children, Plain names c) → Plain names (.concatenation children)
  | choice {children} : 2 ≤ children.length → (∀ c ∈ children, Plain names c) → Plain names (.choice children)

/-- The processes of plain trees all of whose subprocesses are connected. -/
structure IsPlain (p : Process) : Prop where
  initial : Plain p.subprocesses.keys p.initial
  bodies : ∀ name entry, p.subprocesses.get? name = some entry →
    ∃ body, entry = some body ∧ Plain p.subprocesses.keys body

variable {t : BaseAction}

theorem Plain.of_mem {names : List String} (plain : Plain names t) {b : Behaviour}
    (mem : b ∈ t.behaviours) : Plain names (.behaviour b) := by
  induction plain with
  | action kind once =>
    rw [mem_singleton.mp mem]
    exact .action kind once
  | jump kind once known =>
    rw [mem_singleton.mp mem]
    exact .jump kind once known
  | counted kind number known =>
    rw [mem_singleton.mp mem]
    exact .counted kind number known
  | parentheses _ ih => exact ih mem
  | concatenation _ ih | choice _ _ ih =>
    obtain ⟨c, child, mem⟩ := mem_behavioursOf.mp mem
    exact ih c child mem

/-- A plain tree of a process. -/
structure Known (p : Process) (t : BaseAction) : Prop where
  plain : Plain p.subprocesses.keys t
  registered : ∀ b ∈ t.behaviours, b ∈ p.registered

namespace IsPlain

theorem known_initial (plain : p.IsPlain) : p.Known p.initial :=
  ⟨plain.initial, fun _ => registered_of_initial⟩

theorem known_body (plain : p.IsPlain) {body : BaseAction}
    (entry : p.subprocesses.get? name = some (some body)) : p.Known body := by
  obtain ⟨_, same, plainBody⟩ := plain.bodies name _ entry
  cases same
  exact ⟨plainBody, fun _ => registered_of_subprocess entry⟩

theorem body_of_mem (plain : p.IsPlain) (mem : name ∈ p.subprocesses.keys) :
    ∃ body, p.subprocesses.get? name = some (some body) := by
  obtain ⟨entry, found⟩ := Dict.mem_keys_iff.mp mem
  obtain ⟨body, rfl, -⟩ := plain.bodies name entry found
  exact ⟨body, found⟩

theorem behaviour (plain : p.IsPlain) {b : Behaviour} (mem : b ∈ p.registered) :
    Plain p.subprocesses.keys (.behaviour b) := by
  obtain mem | mem := mem_append.mp (p.registered_perm.mem_iff.mp mem)
  · exact plain.initial.of_mem mem
  · obtain ⟨body, connected, mem⟩ := mem_behavioursOf.mp mem
    obtain ⟨_, value, rfl⟩ := mem_filterMap.mp connected
    obtain ⟨name, found⟩ := Dict.mem_values_iff.mp value
    obtain ⟨_, same, plainBody⟩ := plain.bodies name _ found
    cases same
    exact plainBody.of_mem mem

/-- Only jumps have a number. -/
theorem subprocess_of_counted (plain : p.IsPlain) {b : Behaviour} (mem : b ∈ p.registered)
    (counted : b.counted) : b.kind = .subprocess := by
  cases plain.behaviour mem with
  | action _ once => simp [Behaviour.counted, once] at counted
  | jump kind => exact kind
  | counted kind => exact kind

end IsPlain

namespace Known

variable {children : List BaseAction}

theorem of_parentheses (known : p.Known (.parentheses t)) : p.Known t := by
  cases known.plain with
  | parentheses plain => exact ⟨plain, known.registered⟩

theorem of_concatenation (known : p.Known (.concatenation children)) : ∀ c ∈ children, p.Known c := by
  intro c mem
  cases known.plain with
  | concatenation plain =>
    exact ⟨plain c mem, fun b h => known.registered b (mem_behavioursOf.mpr ⟨c, mem, h⟩)⟩

theorem of_choice (known : p.Known (.choice children)) : 2 ≤ children.length ∧ ∀ c ∈ children, p.Known c := by
  cases known.plain with
  | choice several plain =>
    refine ⟨several, fun c mem => ⟨plain c mem, fun b h => ?_⟩⟩
    exact known.registered b (mem_behavioursOf.mpr ⟨c, mem, h⟩)

theorem registered_behaviour {b : Behaviour} (known : p.Known (.behaviour b)) : b ∈ p.registered :=
  known.registered b (mem_singleton_self b)

/-- The induction over the trees of a process. -/
theorem induct {motive : ∀ t, p.Known t → Prop} (behaviour : ∀ b (known : p.Known (.behaviour b)), motive _ known)
    (parentheses : ∀ c (known : p.Known (.parentheses c)), motive c known.of_parentheses → motive _ known)
    (concatenation : ∀ cs (known : p.Known (.concatenation cs)),
      (∀ c mem, motive c (known.of_concatenation c mem)) → motive _ known)
    (choice : ∀ cs (known : p.Known (.choice cs)), (∀ c mem, motive c (known.of_choice.2 c mem)) → motive _ known)
    (known : p.Known t) : motive t known := by
  obtain ⟨plain, registered⟩ := known
  induction plain with
  | action kind once => exact behaviour _ ⟨.action kind once, registered⟩
  | jump kind once mem => exact behaviour _ ⟨.jump kind once mem, registered⟩
  | counted kind number mem => exact behaviour _ ⟨.counted kind number mem, registered⟩
  | parentheses plain ih =>
    have known : p.Known _ := ⟨.parentheses plain, registered⟩
    exact parentheses _ known (ih known.of_parentheses.registered)
  | concatenation plain ih =>
    have known : p.Known _ := ⟨.concatenation plain, registered⟩
    exact concatenation _ known fun c mem => ih c mem (known.of_concatenation c mem).registered
  | choice several plain ih =>
    have known : p.Known _ := ⟨.choice several plain, registered⟩
    exact choice _ known fun c mem => ih c mem (known.of_choice.2 c mem).registered

end Known

end Process

/-! ## Names with numbers -/

theorem isDigit_of_mem_toString {n : Nat} {c : Char} (mem : c ∈ (toString n).toList) : c.isDigit :=
  Nat.isDigit_of_mem_toDigits (by decide) (by decide) (show c ∈ Nat.toDigits 10 n by simpa using mem)

/-- A number at the end of a name is told apart from what stands before it. -/
theorem append_number_inj {x y : String} {i j : Nat} :
    x ++ "_" ++ toString i = y ++ "_" ++ toString j ↔ x = y ∧ i = j := by
  -- read from the right, the number ends at the first underscore
  have number : ∀ (n : Nat) (rest : List Char),
      ((toString n).toList.reverse ++ '_' :: rest).takeWhile (· ≠ '_') = (toString n).toList.reverse := by
    intro n rest
    have digits : ∀ c ∈ (toString n).toList.reverse, decide (c ≠ '_') = true := by
      intro c mem
      have digit := isDigit_of_mem_toString (mem_reverse.mp mem)
      refine decide_eq_true fun underscore => ?_
      rw [underscore] at digit
      exact absurd digit (by decide)
    rw [takeWhile_append_of_pos digits]
    simp
  constructor
  · intro same
    have chars : (toString i).toList.reverse ++ '_' :: x.toList.reverse =
        (toString j).toList.reverse ++ '_' :: y.toList.reverse := by
      have := congrArg (fun s => s.toList.reverse) same
      simpa [reverse_append] using this
    have numbers : (toString i).toList.reverse = (toString j).toList.reverse := by
      rw [← number i x.toList.reverse, ← number j y.toList.reverse, chars]
    rw [numbers, append_cancel_left_eq, List.cons.injEq] at chars
    exact ⟨String.toList_inj.mp (reverse_injective chars.2),
      Nat.repr_injective (String.toList_inj.mp (reverse_injective numbers))⟩
  · rintro ⟨rfl, rfl⟩
    rfl

end Klever.Emg
