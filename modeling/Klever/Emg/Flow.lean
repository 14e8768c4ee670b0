import Klever.Emg.Process

/-!
# Executions of trees

The executions of a tree of behaviours whose jumps go to given trees. A jump forgets what was to
follow it, and one with a number is possible only while the run has taken it fewer times. Any other
behaviour is one action, whatever stands in square brackets behind it, and a guard may let its jump
pass.
-/

namespace Klever.Emg

open Klever.Lib List Option

/-- A jump with a number may be taken while the run has taken it fewer times. -/
def Behaviour.Admits (b : Behaviour) (taken : List Behaviour) : Prop :=
  ∀ n, b.repeated = some (.count n) → taken.count b < n

/-- The trees of a process: the initial one and those to which jumps go. -/
structure Flow where
  initial : BaseAction
  body : String → Option BaseAction

namespace Flow

open Process (Position)

variable {f : Flow}

/-- The steps through the trees. -/
inductive Move (f : Flow) : Position → Option String → Position → Prop
  | action {b} (rest taken) : b.kind ≠ .subprocess → Move f ⟨.behaviour b :: rest, taken⟩ (some b.name) ⟨rest, taken⟩
  | jump {b body taken} (rest) : b.kind = .subprocess → f.body b.name = some body →
      b.Admits taken → Move f ⟨.behaviour b :: rest, taken⟩ none ⟨[body], b :: taken⟩
  | parentheses (child rest taken) :
      Move f ⟨.parentheses child :: rest, taken⟩ none ⟨child :: rest, taken⟩
  | concatenation (children rest taken) :
      Move f ⟨.concatenation children :: rest, taken⟩ none ⟨children ++ rest, taken⟩
  | choice {c children} (rest taken) : c ∈ children → Move f ⟨.choice children :: rest, taken⟩ none ⟨c :: rest, taken⟩

/-- The runs through the trees; one ends when nothing is left to execute. -/
def lts (f : Flow) : Lts Position String := ⟨f.Move, fun s => s.work = []⟩

theorem Move.silent {s t : Position} (move : f.Move s none t) : f.lts.Path s [] t :=
  Lts.Path.single (A := f.lts) move

theorem path_action {b : Behaviour} (kind : b.kind ≠ .subprocess) {rest : List BaseAction}
    {taken : List Behaviour} {t : Position} {w : List String} (path : f.lts.Path ⟨rest, taken⟩ w t) :
    f.lts.Path ⟨.behaviour b :: rest, taken⟩ (b.name :: w) t :=
  Lts.Path.step (A := f.lts) (Move.action rest taken kind) path

variable {rest : List BaseAction} {taken : List Behaviour} {w : List String}

theorem mem_sequences_nil : w ∈ f.lts.sequences ⟨[], taken⟩ ↔ w = [] := by
  rw [Lts.mem_sequences]
  constructor
  · intro either
    obtain ⟨empty, -⟩ | ⟨_, _, _, move, -⟩ := either
    · exact empty
    · cases move
  · exact fun empty => .inl ⟨empty, rfl⟩

theorem mem_sequences_action {b : Behaviour} (kind : b.kind ≠ .subprocess) :
    w ∈ f.lts.sequences ⟨.behaviour b :: rest, taken⟩ ↔ ∃ v ∈ f.lts.sequences ⟨rest, taken⟩, w = b.name :: v := by
  rw [Lts.mem_sequences]
  constructor
  · intro either
    obtain ⟨-, ends⟩ | ⟨_, _, v, move, mem, rfl⟩ := either
    · cases ends
    · cases move with
      | action => exact ⟨v, mem, rfl⟩
      | jump _ jump => exact absurd jump kind
  · intro ⟨v, mem, same⟩
    exact .inr ⟨_, _, v, Move.action rest taken kind, mem, same⟩

theorem mem_sequences_parentheses {child : BaseAction} : w ∈ f.lts.sequences ⟨.parentheses child :: rest, taken⟩ ↔
      w ∈ f.lts.sequences ⟨child :: rest, taken⟩ := by
  rw [Lts.mem_sequences]
  constructor
  · intro either
    obtain ⟨-, ends⟩ | ⟨_, _, v, move, mem, rfl⟩ := either
    · cases ends
    · cases move
      exact mem
  · exact fun mem => .inr ⟨_, _, w, Move.parentheses child rest taken, mem, rfl⟩

theorem mem_sequences_concatenation {children : List BaseAction} :
    w ∈ f.lts.sequences ⟨.concatenation children :: rest, taken⟩ ↔ w ∈ f.lts.sequences ⟨children ++ rest, taken⟩ := by
  rw [Lts.mem_sequences]
  constructor
  · intro either
    obtain ⟨-, ends⟩ | ⟨_, _, v, move, mem, rfl⟩ := either
    · cases ends
    · cases move
      exact mem
  · exact fun mem => .inr ⟨_, _, w, Move.concatenation children rest taken, mem, rfl⟩

theorem mem_sequences_choice {children : List BaseAction} : w ∈ f.lts.sequences ⟨.choice children :: rest, taken⟩ ↔
      ∃ c ∈ children, w ∈ f.lts.sequences ⟨c :: rest, taken⟩ := by
  rw [Lts.mem_sequences]
  constructor
  · intro either
    obtain ⟨-, ends⟩ | ⟨_, _, v, move, mem, rfl⟩ := either
    · cases ends
    · cases move with
      | choice _ _ child => exact ⟨_, child, mem⟩
  · intro ⟨c, child, mem⟩
    exact .inr ⟨_, _, w, Move.choice rest taken child, mem, rfl⟩

/-- Where the runs start. -/
def start (f : Flow) : Position := ⟨[f.initial], []⟩

/-- The action sequences of the executions that have come to an end. -/
def executions (f : Flow) : Set (List String) := f.lts.sequences f.start

/-- The action sequences of the executions, wherever they have got. -/
def beginnings (f : Flow) : Set (List String) := f.lts.beginnings f.start

end Flow

end Klever.Emg
