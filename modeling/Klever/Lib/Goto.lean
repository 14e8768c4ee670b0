import Klever.Lib.Lts
import Mathlib.Algebra.Group.Int.Defs

/-!
# Functions with labels and jumps

A fragment of C: straight-line blocks that are observed as actions, `if` and `switch` over integers
that nothing determines, integer variables that are tested and decremented, `goto` to labels at the
top level of the function, and runs that are abandoned. Blocks, variables and labels are of arbitrary
types.

The state of a run is a stack of statement lists: the rest of each enclosing `switch`, innermost
first, with the rest of the function at the bottom. `break` drops the innermost list and `goto` all of
them.
-/

namespace Klever.Lib

variable {α ν : Type}

/-- The conditions of `if`. -/
inductive Test (ν : Type) where
  /-- an integer that nothing determines -/
  | undefined
  /-- `x > 0` -/
  | positive (x : ν)
  /-- `x` -/
  | nonzero (x : ν)
  deriving DecidableEq, Repr

/-- The integers that a condition may evaluate to. -/
def Test.Yields (store : ν → Int) (v : Int) : Test ν → Prop
  | .undefined => True
  | .positive x => v = if 0 < store x then 1 else 0
  | .nonzero x => v = store x

/-- Statements over blocks `α` and names `ν`. -/
inductive Stmt (α ν : Type) where
  | block (a : α)
  | label (l : ν)
  | goto (l : ν)
  | decrement (x : ν)
  /-- No run goes on from here. -/
  | abandon
  | ite (test : Test ν) (yes no : List (Stmt α ν))
  /-- The cases `0`, `1` and so on of a `switch` over an integer that nothing determines. -/
  | switch (cases : List (List (Stmt α ν))) (fallback : List (Stmt α ν))
  /-- `break` -/
  | leave
  | ret (value : Option Int)

/-- What a `switch` executes for `v`: from its case on, case after case, or the default alone. -/
def fromCase (cases : List (List (Stmt α ν))) (fallback : List (Stmt α ν)) (v : Int) :
    List (Stmt α ν) :=
  if 0 ≤ v ∧ v < cases.length then (cases.drop v.toNat).flatten ++ fallback else fallback

/-- The labels at the top level. -/
def labels (code : List (Stmt α ν)) : List ν :=
  code.filterMap fun
    | .label l => some l
    | _ => none

/-- The code behind the first label `l` at the top level. -/
def afterLabel [DecidableEq ν] (l : ν) : List (Stmt α ν) → Option (List (Stmt α ν))
  | [] => none
  | .label m :: rest => if m = l then some rest else afterLabel l rest
  | _ :: rest => afterLabel l rest

@[simp]
theorem labels_append (c d : List (Stmt α ν)) : labels (c ++ d) = labels c ++ labels d :=
  List.filterMap_append

theorem labels_flatten (codes : List (List (Stmt α ν))) : labels codes.flatten = codes.flatMap labels := by
  induction codes with
  | nil => rfl
  | cons c rest ih => rw [List.flatten_cons, labels_append, ih, List.flatMap_cons]

/-- Code without the label is skipped by the search for it. -/
theorem afterLabel_append_of_notMem [DecidableEq ν] {l : ν} {c : List (Stmt α ν)}
    (absent : l ∉ labels c) (d : List (Stmt α ν)) : afterLabel l (c ++ d) = afterLabel l d := by
  induction c with
  | nil => rfl
  | cons s rest ih =>
    cases s with
    | label m =>
      have both : l ∉ m :: labels rest := absent
      rw [List.mem_cons, not_or] at both
      rw [List.cons_append, afterLabel, if_neg (Ne.symm both.1)]
      exact ih both.2
    | _ => exact ih absent

/-- A function without parameters: its variables with their initial values, those that only blocks use, and its body. -/
structure Func (α ν : Type) where
  locals : List (ν × Int)
  ofBlocks : List ν
  body : List (Stmt α ν)

/-- What is left to execute, innermost `switch` first, and the values of the variables. -/
structure Snapshot (α ν : Type) where
  frames : List (List (Stmt α ν))
  store : ν → Int

namespace Func

/-- One step of a run. -/
inductive Step [DecidableEq ν] (f : Func α ν) : Snapshot α ν → Option α → Snapshot α ν → Prop
  | block (a rest frames store) :
      Step f ⟨(.block a :: rest) :: frames, store⟩ (some a) ⟨rest :: frames, store⟩
  | label (l rest frames store) :
      Step f ⟨(.label l :: rest) :: frames, store⟩ none ⟨rest :: frames, store⟩
  | goto {l rest target} (frames store) : afterLabel l f.body = some target →
      Step f ⟨(.goto l :: rest) :: frames, store⟩ none ⟨[target], store⟩
  | decrement (x rest frames store) :
      Step f ⟨(.decrement x :: rest) :: frames, store⟩ none
        ⟨rest :: frames, Function.update store x (store x - 1)⟩
  | ite {test v store} (yes no rest frames) : Test.Yields store v test →
      Step f ⟨(.ite test yes no :: rest) :: frames, store⟩ none
        ⟨((if v ≠ 0 then yes else no) ++ rest) :: frames, store⟩
  | switch (cases fallback v rest frames store) :
      Step f ⟨(.switch cases fallback :: rest) :: frames, store⟩ none
        ⟨fromCase cases fallback v :: rest :: frames, store⟩
  | leave (rest frames store) : Step f ⟨(.leave :: rest) :: frames, store⟩ none ⟨frames, store⟩
  | done (frames store) : Step f ⟨[] :: frames, store⟩ none ⟨frames, store⟩

/-- A run ends at `return` and at the end of the function. -/
def Final (s : Snapshot α ν) : Prop :=
  match s.frames with
  | [] => True
  | (.ret _ :: _) :: _ => True
  | _ => False

/-- The variables at the start. -/
def initially [DecidableEq ν] (f : Func α ν) (x : ν) : Int := (f.locals.lookup x).getD 0

/-- The runs of a function. -/
def lts [DecidableEq ν] (f : Func α ν) : Lts (Snapshot α ν) α := ⟨f.Step, Final⟩

/-- Where the runs of a function start. -/
def start [DecidableEq ν] (f : Func α ν) : Snapshot α ν := ⟨[f.body], f.initially⟩

/-- The variable that a condition reads is declared. -/
def DeclaredIn (f : Func α ν) : Test ν → Prop
  | .undefined => True
  | .positive x | .nonzero x => x ∈ f.locals.map Prod.fst

mutual

/-- Every label and every variable that a statement mentions is one of the function. -/
def Resolved (f : Func α ν) : Stmt α ν → Prop
  | .goto l => l ∈ labels f.body
  | .decrement x => x ∈ f.locals.map Prod.fst
  | .ite test yes no => f.DeclaredIn test ∧ f.AllResolved yes ∧ f.AllResolved no
  | .switch cases fallback => f.CasesResolved cases ∧ f.AllResolved fallback
  | .block _ | .label _ | .abandon | .leave | .ret _ => True

def AllResolved (f : Func α ν) : List (Stmt α ν) → Prop
  | [] => True
  | s :: rest => f.Resolved s ∧ f.AllResolved rest

def CasesResolved (f : Func α ν) : List (List (Stmt α ν)) → Prop
  | [] => True
  | c :: rest => f.AllResolved c ∧ f.CasesResolved rest

end

variable {f : Func α ν}

theorem allResolved_append {c d : List (Stmt α ν)} : f.AllResolved (c ++ d) ↔ f.AllResolved c ∧ f.AllResolved d := by
  induction c with
  | nil => simp [AllResolved]
  | cons s rest ih => simp [AllResolved, ih, and_assoc]

variable {codes : List (List (Stmt α ν))}

theorem allResolved_flatten : f.AllResolved codes.flatten ↔ ∀ c ∈ codes, f.AllResolved c := by
  induction codes with
  | nil => simp [AllResolved]
  | cons c rest ih => simp [allResolved_append, ih]

theorem casesResolved_iff : f.CasesResolved codes ↔ ∀ c ∈ codes, f.AllResolved c := by
  induction codes with
  | nil => simp [CasesResolved]
  | cons c rest ih => simp [CasesResolved, ih]

/-- The function has a meaning: no variable is declared twice, every initial value is an `int`, no
label stands twice, and what is mentioned exists. -/
structure Valid (f : Func α ν) : Prop where
  variables_nodup : (f.locals.map Prod.fst ++ f.ofBlocks).Nodup
  initial_int : ∀ v ∈ f.locals, -2 ^ 31 ≤ v.2 ∧ v.2 < 2 ^ 31
  labels_nodup : (labels f.body).Nodup
  resolved : f.AllResolved f.body

end Func

end Klever.Lib
