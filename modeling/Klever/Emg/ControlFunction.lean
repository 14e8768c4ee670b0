import Klever.Emg.Process
import Klever.Lib.Except
import Klever.Lib.Goto

/-!
# Label-based control functions

`label_based_function` translates a process into the body of one C function. Sequences become
sequences of statements, choices become `if` or `switch` over `ldv_undef_int()`, and each subprocess
becomes a labelled part at the end of the body, which ends with `return` as the main part does. A jump
is a `goto`; behind it stands the code of the jump itself, which is never executed. A jump with a
number is guarded by a counter, a local variable, and abandons the run when the counter is used up.

The variables that the code of actions needs are declared at the top, too. Only one kind of actions
needs one: a replicative receive with parameters takes them from the variable `data`. The variables of
labels are left out; each label has its own one, `emg_ID_LABEL`, and no other variable is named so.
-/

namespace Klever.Emg

open Klever.Lib List Option

/-- The exceptions of the translation. -/
inductive Exn where
  /-- `ValueError`: a choice needs at least two alternatives. -/
  | invalidChoice (length : Nat)
  /-- `ValueError`: the label of a guard is unknown. -/
  | unknownLabel (label : String)
  | notImplementedError
  | attributeError
  | keyError
  deriving DecidableEq, Repr

/-- A process with a number; `guardVariable` is what `resolve_access` and `determine_variable` answer
for the label of a guard. -/
structure Automaton where
  process : Process
  identifier : Nat
  guardVariable : String → Except Exn String
  /-- Is the signal of an action sent by another process? -/
  expected : String → Bool
  /-- The parameters of an action -/
  parameters : String → List String

variable (a : Automaton)

/-- `emg_NAME_ID` -/
def labelName (name : String) : String := s!"emg_{name}_{a.identifier}"

/-- The registered behaviours of a name that have a number. -/
def countedOf (name : String) : List Behaviour :=
  a.process.registered.filter fun b => b.name = name && b.counted

/-- `__repeate_subprocess_var_name`: the counter of a jump, with an index if several jumps of its name
have a number. -/
def repeateSubprocessVarName (b : Behaviour) : Except Exn String :=
  -- the operators are registered under this name, and they have no attribute `repeat`
  if b.name = "operator" then .error .attributeError
  else
    let behaviours := countedOf a b.name
    if 1 < behaviours.length then
      .ok s!"emg_repeat_cnt_{b.name}_{a.identifier}_{behaviours.idxOf b}"
    else if behaviours.length = 1 then .ok s!"emg_repeat_cnt_{b.name}_{a.identifier}"
    else .error .notImplementedError

/-- The `goto` of a jump, behind its counter or guard. -/
def jumpCode (b : Behaviour) : Except Exn (List (Stmt String String)) :=
  let baseJump := [.goto (labelName a b.name)]
  match b.repeated with
  | some (.count _) => do
    let var ← repeateSubprocessVarName a b
    return [.ite (.positive var) (.decrement var :: baseJump) [.abandon]]
  | some (.guard label) => do
    let var ← a.guardVariable label
    return [.ite (.nonzero var) baseJump [.abandon]]
  | none => .ok baseJump

/-- The code of a choice between alternatives with the given codes. -/
def choiceCode : List (List (Stmt String String)) → List (Stmt String String)
  | [act1, act2] => [.ite .undefined act1 act2]
  | branches => [.switch (branches.map (· ++ [.leave])) [.abandon]]

mutual

/-- `_serialize_action` -/
def serializeAction : BaseAction → Except Exn (List (Stmt String String))
  | .behaviour b => do
    let jump ← if b.kind = .subprocess then jumpCode a b else .ok []
    return jump ++ [.block b.name]
  | .parentheses child => serializeAction child
  | .concatenation children => do
    let codes ← serializeEach children
    return codes.flatten
  | .choice children =>
    if children.length < 2 then .error (.invalidChoice children.length)
    else do
      let codes ← serializeEach children
      return choiceCode codes

def serializeEach : List BaseAction → Except Exn (List (List (Stmt String String)))
  | [] => .ok []
  | t :: rest => do
    let code ← serializeAction t
    let codes ← serializeEach rest
    return code :: codes

end

/-- Does `_receive` declare a variable for received labels? -/
def unpacks (b : Behaviour) : Bool := b.kind = .receive true && a.expected b.name && !(a.parameters b.name).isEmpty

/-- The variables that `_serialize_action` collects from the code of behaviours. -/
def declarations (t : BaseAction) : List String :=
  t.behaviours.flatMap fun b => if unpacks a b then ["data"] else []

/-- The return statement of a control function: a function model (`model`) with a value gets none. -/
def returnStatement (directCalls model void : Bool) : Option (Stmt String String) :=
  let expression := if !directCalls && !model then .ret (some 0) else .ret none
  if model && !void then none else some expression

/-- The declaration of the counter of a jump. -/
def counterDeclaration (b : Behaviour) : Except Exn (String × Int) := do
  return (← repeateSubprocessVarName a b, b.number)

/-- The labelled part of a subprocess. -/
def subprocessPart (ending : List (Stmt String String)) (entry : String × Option BaseAction) :
    Except Exn (List (Stmt String String)) :=
  match entry.2 with
  | none => .error .notImplementedError
  | some action => do
    let code ← serializeAction a action
    return .label (labelName a entry.1) :: (code ++ ending)

/-- The subprocesses in the order of their names. -/
def sortedSubprocesses : List (String × Option BaseAction) :=
  a.process.subprocesses.items.insertionSort fun x y => x.1 ≤ y.1

/-- The variables of the code of all parts. -/
def allDeclarations : List String :=
  declarations a a.process.initial ++ (sortedSubprocesses a).flatMap fun entry => entry.2.elim [] (declarations a)

/-- The jumps with a number. -/
def counters : List Behaviour :=
  a.process.registered.filter fun b => b.kind = .subprocess && b.counted

/-- `label_based_function` -/
def labelBasedFunction (directCalls model void : Bool) : Except Exn (Func String String) := do
  let ending := (returnStatement directCalls model void).toList
  let locals ← (counters a).mapM (counterDeclaration a)
  let main ← serializeAction a a.process.initial
  let parts ← (sortedSubprocesses a).mapM (subprocessPart a ending)
  return ⟨locals, allDeclarations a, main ++ ending ++ parts.flatten⟩

/-! ## Counters -/

variable {a : Automaton} {b c : Behaviour} {name other : String}

theorem mem_countedOf : b ∈ countedOf a name ↔ b ∈ a.process.registered ∧ b.name = name ∧ b.counted := by
  simp [countedOf]

theorem countedOf_nodup (name : String) : (countedOf a name).Nodup :=
  Process.registered_nodup.filter _

/-- The name of the counter of a registered jump. -/
def counterOf (a : Automaton) (b : Behaviour) : String :=
  if 1 < (countedOf a b.name).length then
    s!"emg_repeat_cnt_{b.name}_{a.identifier}_{(countedOf a b.name).idxOf b}"
  else s!"emg_repeat_cnt_{b.name}_{a.identifier}"

theorem repeateSubprocessVarName_eq (mem : b ∈ countedOf a b.name) (named : b.name ≠ "operator") :
    repeateSubprocessVarName a b = .ok (counterOf a b) := by
  have some := length_pos_of_mem mem
  unfold repeateSubprocessVarName counterOf
  rw [if_neg named]
  by_cases several : 1 < (countedOf a b.name).length
  · simp [if_pos several]
  · simp only [if_neg several, if_pos (show (countedOf a b.name).length = 1 by omega)]

/-- No counter with an index is named as a counter without one. -/
def Apart (a : Automaton) : Prop :=
  ∀ name, 1 < (countedOf a name).length → a.identifier < (countedOf a name).length →
    (countedOf a s!"{name}_{a.identifier}").length ≠ 1

theorem indexed_eq_single_iff {i : Nat} :
    s!"emg_repeat_cnt_{name}_{a.identifier}_{i}" = s!"emg_repeat_cnt_{other}_{a.identifier}" ↔
      s!"{name}_{a.identifier}" = other ∧ i = a.identifier := by
  have grouped : s!"emg_repeat_cnt_{name}_{a.identifier}_{i}" =
      "emg_repeat_cnt_" ++ s!"{name}_{a.identifier}" ++ "_" ++ toString i := by
    rfl
  rw [grouped]
  apply (append_number_inj (y := "emg_repeat_cnt_" ++ other)).trans
  rw [String.append_right_inj]

theorem single_inj : s!"emg_repeat_cnt_{name}_{a.identifier}" = s!"emg_repeat_cnt_{other}_{a.identifier}" ↔
      name = other := by
  apply (append_number_inj (x := "emg_repeat_cnt_" ++ name) (y := "emg_repeat_cnt_" ++ other)).trans
  rw [String.append_right_inj, and_iff_left rfl]

theorem indexed_inj {i j : Nat} :
    s!"emg_repeat_cnt_{name}_{a.identifier}_{i}" = s!"emg_repeat_cnt_{other}_{a.identifier}_{j}" ↔
      name = other ∧ i = j := by
  apply (append_number_inj (x := s!"emg_repeat_cnt_{name}_{a.identifier}")).trans
  rw [single_inj]

/-- A counter with an index and one without belong to names of which one extends the other. -/
theorem not_apart_of_indexed (mem : b ∈ countedOf a b.name) (several : 1 < (countedOf a b.name).length)
    (same : s!"emg_repeat_cnt_{b.name}_{a.identifier}_{(countedOf a b.name).idxOf b}" =
      s!"emg_repeat_cnt_{c.name}_{a.identifier}")
    (one : (countedOf a c.name).length = 1) : ¬ Apart a := by
  intro apart
  obtain ⟨extends_, index⟩ := indexed_eq_single_iff.mp same
  have bound := idxOf_lt_length_of_mem mem
  refine apart b.name several ?_ ?_
  · rwa [index] at bound
  · rwa [extends_]

theorem counterOf_inj (apart : Apart a) (mem : b ∈ countedOf a b.name) (mem' : c ∈ countedOf a c.name)
    (same : counterOf a b = counterOf a c) : b = c := by
  have some := length_pos_of_mem mem
  have some' := length_pos_of_mem mem'
  unfold counterOf at same
  by_cases several : 1 < (countedOf a b.name).length <;>
    by_cases several' : 1 < (countedOf a c.name).length
  · rw [if_pos several, if_pos several'] at same
    obtain ⟨names, index⟩ := indexed_inj.mp same
    rw [← names] at index
    exact (idxOf_inj mem).mp index
  · rw [if_pos several, if_neg several'] at same
    exact absurd apart (not_apart_of_indexed mem several same (by omega))
  · rw [if_neg several, if_pos several'] at same
    exact absurd apart (not_apart_of_indexed mem' several' same.symm (by omega))
  · rw [if_neg several, if_neg several', single_inj] at same
    obtain ⟨d, only⟩ := length_eq_one_iff.mp (show (countedOf a b.name).length = 1 by omega)
    rw [← same] at mem'
    rw [only, mem_singleton] at mem mem'
    rw [mem, mem']

/-- If the counters differ, no counter with an index is named as one without. -/
theorem apart_of_counterOf_inj (inj : ∀ b, b ∈ countedOf a b.name → ∀ c, c ∈ countedOf a c.name →
      counterOf a b = counterOf a c → b = c) : Apart a := by
  intro name several index one
  obtain ⟨c, only⟩ := length_eq_one_iff.mp one
  have memC : c ∈ countedOf a s!"{name}_{a.identifier}" := only ▸ mem_singleton_self c
  have nameC := (mem_countedOf.mp memC).2.1
  -- the behaviour whose index is the identifier of the automaton
  let b := (countedOf a name).get ⟨a.identifier, index⟩
  have memB : b ∈ countedOf a name := List.get_mem _ ⟨_, index⟩
  have nameB := (mem_countedOf.mp memB).2.1
  have atIndex : (countedOf a b.name).idxOf b = a.identifier := by
    rw [nameB]
    exact get_idxOf (countedOf_nodup name) ⟨a.identifier, index⟩
  have same : counterOf a b = counterOf a c := by
    unfold counterOf
    rw [if_pos (by rw [nameB]; exact several), if_neg (by rw [nameC, one]; decide)]
    exact indexed_eq_single_iff.mpr ⟨by rw [nameB, nameC], atIndex⟩
  have equal : b = c := inj b (nameB ▸ memB) c (nameC ▸ memC) same
  have longer : name = name ++ "_" ++ toString a.identifier := nameB.symm.trans ((equal ▸ nameC :))
  have lengths := congrArg String.length longer
  simp only [String.length_append] at lengths
  have one : "_".length = 1 := rfl
  omega

/-! ## The generated code -/

variable {t : BaseAction}

/-- No jump with a number has the name under which the operators are registered. -/
def Named (a : Automaton) : Prop :=
  ∀ b ∈ a.process.registered, b.counted → b.name ≠ "operator"

/-- The code of a tree. -/
def codeOf (a : Automaton) (t : BaseAction) : List (Stmt String String) :=
  (serializeAction a t).toOption.getD []

theorem codeOf_eq {code : List (Stmt String String)}
    (serialized : serializeAction a t = .ok code) : codeOf a t = code := by
  rw [codeOf, serialized]
  rfl

theorem serializeEach_eq {trees : List BaseAction} (each : ∀ t ∈ trees, serializeAction a t = .ok (codeOf a t)) :
    serializeEach a trees = .ok (trees.map (codeOf a)) := by
  induction trees with
  | nil => rfl
  | cons t rest ih =>
    rw [serializeEach, each t mem_cons_self, ih fun u mem => each u (mem_cons_of_mem _ mem)]
    rfl

variable {children : List BaseAction}

theorem serializeAction_action (kind : b.kind ≠ .subprocess) :
    serializeAction a (.behaviour b) = .ok [.block b.name] := by
  rw [serializeAction, if_neg kind]
  rfl

theorem serializeAction_jump (kind : b.kind = .subprocess) (once : b.repeated = none) :
    serializeAction a (.behaviour b) = .ok [.goto (labelName a b.name), .block b.name] := by
  rw [serializeAction, if_pos kind, jumpCode, once]
  rfl

theorem serializeAction_counted {n : Nat} (named : Named a) (mem : b ∈ a.process.registered)
    (kind : b.kind = .subprocess) (number : b.repeated = some (.count n)) :
    serializeAction a (.behaviour b) = .ok [.ite (.positive (counterOf a b))
        [.decrement (counterOf a b), .goto (labelName a b.name)] [.abandon], .block b.name] := by
  have counted : b.counted := by rw [Behaviour.counted, number]
  rw [serializeAction, if_pos kind, jumpCode, number]
  simp only [repeateSubprocessVarName_eq (mem_countedOf.mpr ⟨mem, rfl, counted⟩) (named b mem counted)]
  rfl

theorem serializeAction_parentheses (t : BaseAction) : serializeAction a (.parentheses t) = serializeAction a t := by
  rw [serializeAction]

theorem serializeAction_concatenation (each : ∀ c ∈ children, serializeAction a c = .ok (codeOf a c)) :
    serializeAction a (.concatenation children) = .ok (children.flatMap (codeOf a)) := by
  rw [serializeAction, serializeEach_eq each, List.flatMap]
  rfl

theorem serializeAction_choice (several : 2 ≤ children.length)
    (each : ∀ c ∈ children, serializeAction a c = .ok (codeOf a c)) :
    serializeAction a (.choice children) = .ok (choiceCode (children.map (codeOf a))) := by
  rw [serializeAction, if_neg (by omega), serializeEach_eq each]
  rfl

/-- The trees of a plain process are translated. -/
theorem serializeAction_eq (named : Named a) (known : a.process.Known t) :
    serializeAction a t = .ok (codeOf a t) := by
  have wrap : ∀ {t code}, serializeAction a t = .ok code → serializeAction a t = .ok (codeOf a t) := by
    intro t code serialized
    rw [codeOf_eq serialized, serialized]
  induction known using Process.Known.induct with
  | behaviour b known =>
    cases known.plain with
    | action kind => exact wrap (serializeAction_action kind)
    | jump kind once => exact wrap (serializeAction_jump kind once)
    | counted kind number =>
      exact wrap (serializeAction_counted named known.registered_behaviour kind number)
  | parentheses c _ ih => exact wrap ((serializeAction_parentheses c).trans ih)
  | concatenation cs _ ih => exact wrap (serializeAction_concatenation ih)
  | choice cs known ih => exact wrap (serializeAction_choice known.of_choice.1 ih)

/-! What the code of a tree is, by the kinds of trees. -/

theorem codeOf_action (kind : b.kind ≠ .subprocess) : codeOf a (.behaviour b) = [.block b.name] :=
  codeOf_eq (serializeAction_action kind)

theorem codeOf_jump (kind : b.kind = .subprocess) (once : b.repeated = none) :
    codeOf a (.behaviour b) = [.goto (labelName a b.name), .block b.name] :=
  codeOf_eq (serializeAction_jump kind once)

theorem codeOf_counted {n : Nat} (named : Named a) (mem : b ∈ a.process.registered) (kind : b.kind = .subprocess)
    (number : b.repeated = some (.count n)) :
    codeOf a (.behaviour b) = [.ite (.positive (counterOf a b))
        [.decrement (counterOf a b), .goto (labelName a b.name)] [.abandon], .block b.name] :=
  codeOf_eq (serializeAction_counted named mem kind number)

theorem codeOf_parentheses (t : BaseAction) : codeOf a (.parentheses t) = codeOf a t := by
  rw [codeOf, serializeAction_parentheses, codeOf]

theorem codeOf_concatenation (named : Named a) (known : a.process.Known (.concatenation children)) :
    codeOf a (.concatenation children) = children.flatMap (codeOf a) :=
  codeOf_eq (serializeAction_concatenation fun c mem =>
    serializeAction_eq named (known.of_concatenation c mem))

theorem codeOf_choice (named : Named a) (known : a.process.Known (.choice children)) :
    codeOf a (.choice children) = choiceCode (children.map (codeOf a)) :=
  codeOf_eq (serializeAction_choice known.of_choice.1 fun c mem =>
    serializeAction_eq named (known.of_choice.2 c mem))

/-! ## The generated function -/

variable {value : Option Int}

/-- The labelled part of a subprocess, in a function with the given return value. -/
def partOf (a : Automaton) (value : Option Int) (entry : String × Option BaseAction) :
    List (Stmt String String) :=
  .label (labelName a entry.1) :: (entry.2.elim [] (codeOf a) ++ [.ret value])

/-- The control function of a plain process. -/
def controlFunction (a : Automaton) (value : Option Int) : Func String String where
  locals := (counters a).map fun b => (counterOf a b, (b.number : Int))
  ofBlocks := allDeclarations a
  body := codeOf a a.process.initial ++ .ret value :: ((sortedSubprocesses a).map (partOf a value)).flatten

variable {directCalls model void : Bool}

theorem returnStatement_eq (returns : (returnStatement directCalls model void).isSome) :
    ∃ value, returnStatement directCalls model void = some (.ret value) := by
  cases directCalls <;> cases model <;> cases void <;>
    first
    | exact ⟨_, rfl⟩
    | cases returns

theorem mem_counters (plain : a.process.IsPlain) : b ∈ counters a ↔ b ∈ countedOf a b.name := by
  simp only [counters, mem_countedOf, mem_filter, Bool.and_eq_true, decide_eq_true_eq, true_and, and_congr_right_iff,
    and_iff_right_iff_imp]
  exact plain.subprocess_of_counted

/-- A function is generated only if the counters can be named. -/
theorem named_of_generated (plain : a.process.IsPlain) {f : Func String String}
    (generated : labelBasedFunction a directCalls model void = .ok f) :
    Named a := by
  intro b mem counted operator
  obtain ⟨_, declared, -⟩ := bind_eq_ok_iff.mp generated
  have counter := (mem_counters plain).mpr (mem_countedOf.mpr ⟨mem, rfl, counted⟩)
  obtain ⟨_, declaration⟩ := ok_of_mapM_eq_ok declared counter
  obtain ⟨_, name, -⟩ := bind_eq_ok_iff.mp declaration
  rw [repeateSubprocessVarName, if_pos operator] at name
  cases name

variable {entry : String × Option BaseAction}

theorem mem_sortedSubprocesses :
    entry ∈ sortedSubprocesses a ↔ a.process.subprocesses.get? entry.1 = some entry.2 := by
  rw [sortedSubprocesses, (perm_insertionSort _ _).mem_iff]
  exact Dict.mem_items_iff

theorem exists_body (plain : a.process.IsPlain) (mem : entry ∈ sortedSubprocesses a) :
    ∃ body, entry.2 = some body ∧ a.process.Known body := by
  have found := mem_sortedSubprocesses.mp mem
  obtain ⟨body, same, -⟩ := plain.bodies entry.1 entry.2 found
  rw [same] at found
  exact ⟨body, same, plain.known_body found⟩

/-- Labels stand in front of the parts of the subprocesses only. -/
theorem labels_codeOf (named : Named a) (known : a.process.Known t) : labels (codeOf a t) = [] := by
  induction known using Process.Known.induct with
  | behaviour b known =>
    cases known.plain with
    | action kind => rw [codeOf_action kind]; rfl
    | jump kind once => rw [codeOf_jump kind once]; rfl
    | counted kind number =>
      rw [codeOf_counted named known.registered_behaviour kind number]
      rfl
  | parentheses c _ ih => rwa [codeOf_parentheses]
  | concatenation cs known ih =>
    rw [codeOf_concatenation named known, List.flatMap, labels_flatten, flatMap_map, flatMap_eq_nil_iff]
    exact ih
  | choice cs known ih =>
    rw [codeOf_choice named known]
    unfold choiceCode
    split <;> rfl

theorem labelName_inj : labelName a name = labelName a other ↔ name = other := by
  apply (append_number_inj (x := "emg_" ++ name) (y := "emg_" ++ other)).trans
  rw [String.append_right_inj, and_iff_left rfl]

theorem sortedSubprocesses_nodup : ((sortedSubprocesses a).map Prod.fst).Nodup := by
  have perm := (perm_insertionSort (fun x y => x.1 ≤ y.1) a.process.subprocesses.items).map Prod.fst
  exact perm.nodup_iff.mpr a.process.subprocesses.nodup

theorem counter_mem (value : Option Int) (plain : a.process.IsPlain)
    (mem : b ∈ countedOf a b.name) : counterOf a b ∈ (controlFunction a value).locals.map Prod.fst := by
  rw [controlFunction, List.map_map]
  exact List.mem_map.mpr ⟨b, (mem_counters plain).mpr mem, rfl⟩

section

variable (plain : a.process.IsPlain) (named : Named a)

include plain named

theorem labelBasedFunction_eq (returns : returnStatement directCalls model void = some (.ret value)) :
    labelBasedFunction a directCalls model void = .ok (controlFunction a value) := by
  have declared : (counters a).mapM (counterDeclaration a) =
      .ok ((counters a).map fun b => (counterOf a b, (b.number : Int))) := by
    apply mapM_eq_ok_map
    intro b mem
    rw [mem_counters plain] at mem
    obtain ⟨registered, -, counted⟩ := mem_countedOf.mp mem
    rw [counterDeclaration, repeateSubprocessVarName_eq mem (named b registered counted)]
    rfl
  have main := serializeAction_eq named plain.known_initial
  have parts : (sortedSubprocesses a).mapM (subprocessPart a [.ret value]) =
      .ok ((sortedSubprocesses a).map (partOf a value)) := by
    apply mapM_eq_ok_map
    intro entry mem
    obtain ⟨body, same, known⟩ := exists_body plain mem
    simp only [subprocessPart, partOf, same, serializeAction_eq named known]
    rfl
  rw [labelBasedFunction, returns]
  simp only [toList_some, declared, main, parts]
  simp [controlFunction, bind, Except.bind, pure, Except.pure]

theorem labels_partOf (mem : entry ∈ sortedSubprocesses a) : labels (partOf a value entry) = [labelName a entry.1] := by
  obtain ⟨body, same, known⟩ := exists_body plain mem
  show labelName a entry.1 :: labels (entry.2.elim [] (codeOf a) ++ [.ret value]) = _
  rw [same, labels_append, elim_some, labels_codeOf named known]
  rfl

theorem labels_parts {entries : List (String × Option BaseAction)} (all : ∀ e ∈ entries, e ∈ sortedSubprocesses a) :
    labels (entries.map (partOf a value)).flatten = entries.map fun e => labelName a e.1 := by
  induction entries with
  | nil => rfl
  | cons e rest ih =>
    rw [map_cons, flatten_cons, labels_append, labels_partOf plain named (all e mem_cons_self),
      ih fun u mem => all u (mem_cons_of_mem _ mem)]
    rfl

/-- The part of a subprocess is what its label leads to. -/
theorem afterLabel_controlFunction (value : Option Int) {body : BaseAction}
    (found : a.process.subprocesses.get? name = some (some body)) :
    ∃ dead, afterLabel (labelName a name) (controlFunction a value).body =
      some (codeOf a body ++ .ret value :: dead) := by
  have mem : (name, some body) ∈ sortedSubprocesses a := mem_sortedSubprocesses.mpr found
  obtain ⟨before, after, split⟩ := append_of_mem mem
  have earlier : ∀ e ∈ before, e ∈ sortedSubprocesses a := by
    intro e h
    rw [split]
    exact mem_append_left _ h
  have absent : labelName a name ∉ labels (before.map (partOf a value)).flatten := by
    rw [labels_parts plain named earlier]
    intro h
    obtain ⟨e, mem, same⟩ := List.mem_map.mp h
    have names := sortedSubprocesses_nodup (a := a)
    rw [split, map_append, map_cons, nodup_append] at names
    exact names.2.2 e.1 (List.mem_map_of_mem mem) name mem_cons_self (labelName_inj.mp same)
  refine ⟨(after.map (partOf a value)).flatten, ?_⟩
  have start : labelName a name ∉ labels (codeOf a a.process.initial ++ [.ret value]) := by
    rw [labels_append, labels_codeOf named plain.known_initial]
    exact not_mem_nil
  rw [controlFunction, split, ← singleton_append, ← append_assoc,
    afterLabel_append_of_notMem start, map_append, flatten_append,
    afterLabel_append_of_notMem absent, map_cons, flatten_cons, partOf, cons_append,
    afterLabel, if_pos rfl, elim_some, append_assoc, singleton_append]

theorem label_mem (mem : name ∈ a.process.subprocesses.keys) :
    labelName a name ∈ labels (controlFunction a value).body := by
  obtain ⟨body, found⟩ := plain.body_of_mem mem
  have part : (name, some body) ∈ sortedSubprocesses a := mem_sortedSubprocesses.mpr found
  show _ ∈ labels (_ ++ ([.ret value] ++ _))
  rw [labels_append, labels_append, labels_parts plain named fun _ h => h]
  apply mem_append_right
  apply mem_append_right
  exact List.mem_map.mpr ⟨_, part, rfl⟩

/-- The code of a tree mentions labels and counters of the function only. -/
theorem resolved_codeOf (known : a.process.Known t) : (controlFunction a value).AllResolved (codeOf a t) := by
  induction known using Process.Known.induct with
  | behaviour b known =>
    cases known.plain with
    | action kind =>
      rw [codeOf_action kind]
      simp [Func.AllResolved, Func.Resolved]
    | jump kind once mem =>
      rw [codeOf_jump kind once]
      simp only [Func.AllResolved, Func.Resolved, and_true]
      exact label_mem plain named mem
    | counted kind number mem =>
      have registered := known.registered_behaviour
      have counted : b.counted := by rw [Behaviour.counted, number]
      have counter := counter_mem value plain (mem_countedOf.mpr ⟨registered, rfl, counted⟩)
      rw [codeOf_counted named registered kind number]
      simp only [Func.AllResolved, Func.Resolved, Func.DeclaredIn, and_true]
      exact ⟨counter, counter, label_mem plain named mem⟩
  | parentheses c _ ih => rwa [codeOf_parentheses]
  | concatenation cs known ih =>
    rw [codeOf_concatenation named known, List.flatMap, Func.allResolved_flatten, List.forall_mem_map]
    exact ih
  | choice cs known ih =>
    rw [codeOf_choice named known]
    have each : ∀ code ∈ cs.map (codeOf a), (controlFunction a value).AllResolved code :=
      List.forall_mem_map.mpr ih
    unfold choiceCode
    split
    · rename_i first second codes
      rw [codes] at each
      simp only [Func.AllResolved, Func.Resolved, Func.DeclaredIn, and_true, true_and]
      exact ⟨each first (by simp), each second (by simp)⟩
    · simp only [Func.AllResolved, Func.Resolved, and_true, Func.casesResolved_iff, List.forall_mem_map,
        Func.allResolved_append]
      exact fun c mem => ih c mem

theorem resolved_body :
    (controlFunction a value).AllResolved (controlFunction a value).body := by
  show Func.AllResolved _ (_ ++ (.ret value :: _))
  rw [Func.allResolved_append, Func.AllResolved, Func.allResolved_flatten, List.forall_mem_map]
  refine ⟨resolved_codeOf plain named plain.known_initial, by simp [Func.Resolved], fun entry mem => ?_⟩
  obtain ⟨body, same, known⟩ := exists_body plain mem
  rw [partOf, same, Func.AllResolved, Func.allResolved_append]
  refine ⟨by simp [Func.Resolved], resolved_codeOf plain named known, ?_⟩
  simp [Func.AllResolved, Func.Resolved]

end

/-- Each behaviour that unpacks declares the variable once more. -/
theorem allDeclarations_perm : (allDeclarations a).Perm (replicate (a.process.registered.countP (unpacks a)) "data") := by
  let declared : Behaviour → List String := fun b => if unpacks a b then ["data"] else []
  have parts (entries : List (String × Option BaseAction)) :
      (entries.flatMap fun entry => entry.2.elim [] (declarations a)) =
        (behavioursOf ((entries.map Prod.snd).filterMap id)).flatMap declared := by
    induction entries with
    | nil => rfl
    | cons entry rest ih =>
      obtain ⟨name, _ | body⟩ := entry
      · exact ih
      · rw [flatMap_cons, ih]
        exact flatMap_append.symm
  have counted (bs : List Behaviour) : bs.flatMap declared = replicate (bs.countP (unpacks a)) "data" := by
    induction bs with
    | nil => rfl
    | cons b bs ih =>
      rw [flatMap_cons, ih, countP_cons, Nat.add_comm, replicate_add]
      cases here : unpacks a b <;> simp [declared, here]
  have sorted := (perm_insertionSort (fun x y => x.1 ≤ y.1) a.process.subprocesses.items).flatMap_right
    fun entry => entry.2.elim [] (declarations a)
  have registered := (a.process.registered_perm.flatMap_right declared).symm
  rw [flatMap_append, counted a.process.registered] at registered
  refine (Perm.append_left _ ?_).trans registered
  exact sorted.trans (.of_eq (parts _))

/-- The counters can be named, their initial values are `int`s, they are told apart, and no more than one action unpacks
received labels. -/
structure VariablesFit (a : Automaton) : Prop where
  named : Named a
  small : ∀ b ∈ a.process.registered, b.counted → b.number < 2 ^ 31
  apart : Apart a
  unpacked : a.process.registered.countP (unpacks a) ≤ 1

theorem counterOf_ne_data : counterOf a b ≠ "data" := by
  intro same
  have lengths := congrArg String.length same
  have long : "emg_repeat_cnt_".length = 15 := rfl
  have short : "data".length = 4 := rfl
  unfold counterOf at lengths
  split at lengths
  · change ("emg_repeat_cnt_" ++ _ ++ _ ++ _ ++ _ ++ _).length = _ at lengths
    simp only [String.length_append] at lengths
    omega
  · change ("emg_repeat_cnt_" ++ _ ++ _ ++ _).length = _ at lengths
    simp only [String.length_append] at lengths
    omega

theorem controlFunction_valid (value : Option Int) (plain : a.process.IsPlain) (fit : VariablesFit a) :
    (controlFunction a value).Valid where
  variables_nodup := by
    rw [controlFunction, List.map_map]
    refine nodup_append.mpr ⟨?_, ?_, ?_⟩
    · refine (nodup_map_iff_inj_on (Process.registered_nodup.filter _)).mpr fun b mem c mem' => ?_
      exact counterOf_inj fit.apart ((mem_counters plain).mp mem) ((mem_counters plain).mp mem')
    · exact allDeclarations_perm.nodup_iff.mpr (nodup_replicate.mpr fit.unpacked)
    · intro x mem y mem' same
      obtain ⟨b, -, rfl⟩ := List.mem_map.mp mem
      rw [eq_of_mem_replicate (allDeclarations_perm.mem_iff.mp mem')] at same
      exact counterOf_ne_data same
  initial_int := by
    refine List.forall_mem_map.mpr fun b mem => ?_
    obtain ⟨registered, -, counted⟩ := mem_countedOf.mp ((mem_counters plain).mp mem)
    have small := fit.small b registered counted
    constructor <;> push_cast <;> omega
  labels_nodup := by
    show (labels (_ ++ ([.ret value] ++ _))).Nodup
    rw [labels_append, labels_append, labels_codeOf fit.named plain.known_initial,
      labels_parts plain fit.named fun _ h => h]
    have names := (sortedSubprocesses_nodup (a := a)).map (f := labelName a) fun _ _ => labelName_inj.mp
    rwa [List.map_map] at names
  resolved := resolved_body plain fit.named

theorem fit_of_valid (plain : a.process.IsPlain) (named : Named a)
    (valid : (controlFunction a value).Valid) : VariablesFit a where
  named := named
  small := by
    intro b mem counted
    have counter := (mem_counters plain).mpr (mem_countedOf.mpr ⟨mem, rfl, counted⟩)
    have bound := (valid.initial_int _ (List.mem_map_of_mem counter)).2
    push_cast at bound
    omega
  apart := by
    have nodup := (nodup_append.mp valid.variables_nodup).1
    rw [controlFunction, List.map_map] at nodup
    apply apart_of_counterOf_inj
    intro b mem c mem'
    rw [← mem_counters plain] at mem mem'
    exact inj_on_of_nodup_map nodup mem mem'
  unpacked := by
    have nodup := (nodup_append.mp valid.variables_nodup).2.1
    exact nodup_replicate.mp (allDeclarations_perm.nodup_iff.mp nodup)

end Klever.Emg
