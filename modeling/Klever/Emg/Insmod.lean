import Klever.Emg.Dsl
import Klever.Emg.Scenario

/-!
# The insmod generator

The generator of the entry process of Linux modules writes the process as a text, one nested pair of
branches for each initialization function, and parses it. In the branch of a failure stand exit
functions, and the innermost branch ends with all exit functions.

`RollsBack` says what the process is for: the modules are initialized one after another in the load
order, and after the last one, or after the first one that fails, the modules that have been
initialized are left in the reverse order. The executions of the generated process are computed
(`mem_executions_iff`); the branches of the failures do not depend on the module that fails, so the
process rolls back only if there is nothing to roll back.
-/

namespace Klever.Emg.Insmod

open Klever.Lib Collection List Option BaseAction

/-! ## Initialization and exit functions -/

/-- A file in the load order with its functions, whose names are identifiers of C. -/
structure Module where
  file : String
  init : String
  exit : Option String
  init_isName : IsName asciiAlphabet init
  exit_isName : ∀ e ∈ exit, IsName asciiAlphabet e

/-- The argument of the call of a macro in a file; two calls are an error. -/
def addCall (parameters : Dict String String) (item : String × List String) :
    Option (Dict String String) :=
  match item.2 with
  | [] => some parameters
  | [name] => some (parameters.set item.1 name)
  | _ => none

/-- The arguments of a macro by files. -/
def singleCalls (calls : Dict String (List String)) : Option (Dict String String) :=
  calls.items.foldlM addCall .empty

/-- An ordered dictionary of the files that have a parameter. -/
def inOrder (order : List String) (parameters : Dict String String) : Dict String String :=
  order.foldl (fun found file =>
    match parameters.get? file with
    | some name => found.set file name
    | none => found) .empty

/-- `__import_inits_exits`, without the initialization of the kernel: the functions of the files in the
load order and in the reverse of it. -/
def importInitsExits (order : List String) (kernel : Bool) (init exit : Option (Dict String (List String))) :
    Option (List (String × String) × List (String × String)) := do
  let inits ← match init with
    | some calls => (singleCalls calls).map (inOrder order)
    | none => if kernel then some .empty else none
  let exits ← match exit with
    | some calls => (singleCalls calls).map (inOrder order.reverse)
    | none => some .empty
  return (inits.items, exits.items)

variable (ms : List Module)

def inits : List (String × String) := ms.map fun m => (m.file, m.init)

def exits : List (String × String) :=
  ms.reverse.filterMap fun m => m.exit.map (m.file, ·)

/-! ## The process -/

def initFailed (i : Nat) : String := "init_failed_" ++ toString i

def initSuccess (i : Nat) : String := "init_success_" ++ toString i

/-- The branches of one initialization function, with the failure closed and the success open. -/
def branch (exits : List (String × String)) (pair : (String × String) × Nat) : String :=
  "<" ++ pair.1.2 ++ ">.(<" ++ initFailed pair.2 ++ ">" ++
    -- the loop that searches for the module leaves its index in `j`, and `j = 1` follows it
    String.join ((exits.drop 1).reverse.map fun e => ".<" ++ e.2 ++ ">") ++
    "|<" ++ initSuccess pair.2 ++ ">."

/-- The text up to the closing parentheses. -/
def branches (inits exits : List (String × String)) : String :=
  String.join (inits.zipIdx.map (branch exits)) ++ String.join (exits.map fun e => "<" ++ e.2 ++ ">.")

/-- The text without its last dot, with the parentheses closed. -/
def moduleText (inits exits : List (String × String)) : String :=
  String.ofList (branches inits exits).toList.dropLast ++ String.ofList (List.replicate inits.length ')')

/-- The text of the process; none stands for `NotImplementedError`. -/
def insmodText (inits exits : List (String × String)) (kernel : Bool) : Option String :=
  let process := moduleText inits exits
  match kernel, inits with
  | true, _ :: _ =>
    some (process ++ "<kernel_initialization>.(<kerninit_success> | <kerninit_failed>.(" ++ process ++ "))")
  | true, [] =>
    some (process ++ "<kernel_initialization>.(<kernel_initialization_success> | <kernel_initialization_fail>)")
  | false, [] => none
  | false, _ :: _ => some process

/-- `populate_with_empty_descriptions` -/
def populate (tree : BaseAction) : Dict String Action :=
  .ofList (tree.behaviours.map fun b => (b.name, .new b.kind))

variable (name : String)

/-- The description of a name is changed; without one it is a `KeyError`. -/
def update (change : Action → Action) (data : Dict String Action) :
    Option (Dict String Action) := do
  let _ ← data.get? name
  return data.modify name change

/-- The names are not those of the text. -/
def describeKernel (data : Dict String Action) : Option (Dict String Action) := do
  let data ← update "kernel initialization" (fun a => { a with
    statements := ["%ret% = emg_kernel_init();"]
    comment := "Kernel initialization stage."
    traceRelevant := true }) data
  let data ← update "ki_success" (fun a => { a with
    condition := ["%ret% == 0"]
    comment := "Kernel initialization is successful." }) data
  update "kerninit_failed" (fun a => { a with
    condition := ["%ret% != 0"]
    comment := "Kernel initialization is unsuccessful." }) data

def describeInit (a : Action) : Action := { a with
  comment := "Initialize the module after insmod with '" ++ name ++ "' function."
  statements := ["%ret% = emg_" ++ name ++ "();", "%ret% = ldv_post_init(%ret%);"]
  traceRelevant := true }

def describeExit (a : Action) : Action := { a with
  comment := "Exit the module before its unloading with '" ++ name ++ "' function."
  statements := ["emg_" ++ name ++ "();"]
  traceRelevant := true }

/-- The descriptions of functions, one after another. -/
def describeEach (change : String → Action → Action) (pairs : List (String × String))
    (data : Dict String Action) : Option (Dict String Action) :=
  pairs.foldlM (fun data pair => update pair.2 (change pair.2) data) data

/-- The conditions of the blocks whose names begin so. -/
def describeOutcome (beginning condition comment : String) (name : String) (a : Action) : Action :=
  if a.kind = .block ∧ beginning.toList.isPrefixOf name.toList then
    { a with condition := [condition], comment := comment }
  else a

def describeOutcomes (data : Dict String Action) : Dict String Action :=
  (data.mapVals (describeOutcome "init_success" "%ret% == 0" "Module has been initialized.")).mapVals
    (describeOutcome "init_failed" "%ret% != 0" "Failed to initialize the module.")

/-- `__generate_insmod_process`: the actions. `kernel` says whether there are initializations of the
kernel. -/
def generateInsmodProcess (inits exits : List (String × String)) (kernel : Bool) : Option Actions := do
  let text ← insmodText inits exits kernel
  let tree ← parseProcess asciiAlphabet text
  let data ← if kernel then describeKernel (populate tree) else some (populate tree)
  let data ← describeEach describeInit inits data
  let data ← describeEach describeExit exits data
  return ⟨tree, describeOutcomes data⟩

/-! ## The tree of the text -/

/-- No action has a description while the text is parsed. -/
def noDescriptions : Descriptions := fun _ => none

def block (name : String) : BaseAction := .behaviour ⟨0, name, .block, none⟩

/-- The exit functions of the modules that have one, in the reverse of the load order. -/
def unload : List String := ms.reverse.filterMap Module.exit

/-- The actions of the text: the initialization of the first module and its branches. -/
def sequence (rollback exits : List String) : Nat → List Module → List BaseAction
  | _, [] => exits.map block
  | i, m :: rest =>
    [block m.init, .parentheses (.choice [.concatenation (block (initFailed i) :: rollback.map block),
        .concatenation (block (initSuccess i) :: sequence rollback exits (i + 1) rest)])]

/-- The exit functions in the branches of failures. -/
def leftBehind : List String := ((unload ms).drop 1).reverse

def tree : BaseAction := .concatenation (sequence (leftBehind ms) (unload ms) 0 ms)

theorem exits_names : (exits ms).map Prod.snd = unload ms := by
  rw [exits, unload, map_filterMap]
  congr 1
  funext m
  simp [Function.comp_def]

/-- A list in which a separator follows each item, without the last separator. -/
theorem dropLast_flatMap {α β : Type} (item : α → List β) (sep : β) (xs : List α) :
    (xs.flatMap fun x => item x ++ [sep]).dropLast = [sep].intercalate (xs.map item) := by
  induction xs with
  | nil => rfl
  | cons x rest ih =>
    cases rest with
    | nil => simp
    | cons y rest =>
      rw [flatMap_cons, dropLast_append_of_ne_nil (by simp), ih]
      simp [intercalate_cons_cons]

theorem intercalate_cons {β : Type} (sep : β) (x : List β) (xs : List (List β)) :
    [sep].intercalate (x :: xs) = x ++ xs.flatMap fun y => sep :: y := by
  induction xs generalizing x with
  | nil => simp
  | cons y rest ih =>
    rw [intercalate_cons_cons, ih]
    simp

/-- A block in angle brackets. -/
def blockText : List Char := '<' :: (name.toList ++ ['>'])

/-- The text of the branches of a module up to its success. -/
def opening (rollback : List String) (i : Nat) (init : String) : List Char :=
  blockText init ++ ['.', '('] ++ blockText (initFailed i) ++
    rollback.flatMap (fun e => '.' :: blockText e) ++ ['|'] ++ blockText (initSuccess i)

/-- The text from the branches of a module on, before its last dot is removed. -/
def rawText (rollback exits : List String) (i : Nat) (ms : List Module) : List Char :=
  ((inits ms).zipIdx i).flatMap (fun pair => opening rollback pair.2 pair.1.2 ++ ['.']) ++
    exits.flatMap fun e => blockText e ++ ['.']

theorem branches_toList : (branches (inits ms) (exits ms)).toList = rawText (leftBehind ms) (unload ms) 0 ms := by
  have names : leftBehind ms = ((exits ms).drop 1).reverse.map Prod.snd := by
    rw [leftBehind, ← exits_names, ← map_drop, map_reverse]
  rw [branches, rawText, names, ← exits_names]
  simp [branch, opening, blockText, String.toList_join, flatMap_def, Function.comp_def]

theorem rawText_cons (rollback exits : List String) (i : Nat) (m : Module) (rest : List Module) :
    rawText rollback exits i (m :: rest) = opening rollback i m.init ++ '.' :: rawText rollback exits (i + 1) rest := by
  simp [rawText, inits]

variable {rollback : List String} {ms : List Module} {i : Nat}

theorem rawText_eq_nil {exits : List String} :
    rawText rollback exits i ms = [] ↔ sequence rollback exits i ms = [] := by
  cases ms with
  | nil =>
    cases exits with
    | nil => simp [rawText, inits, sequence]
    | cons e others => simp [rawText, sequence, blockText]
  | cons m rest => simp [rawText_cons, sequence]

theorem block_repr : ((block name).repr noDescriptions).toList = blockText name := by
  simp [block, blockText, BaseAction.repr, Behaviour.repr, Behaviour.shown, noDescriptions, Kind.unflagged, reprAction]

theorem concatenation_repr (trees : List BaseAction) : ((concatenation trees).repr noDescriptions).toList =
      ['.'].intercalate (trees.map fun t => (t.repr noDescriptions).toList) := by
  rw [BaseAction.repr, String.toList_intercalate, reprEach_eq, List.map_map]
  rfl

theorem branch_repr (trees : List BaseAction) : ((concatenation (block name :: trees)).repr noDescriptions).toList =
      blockText name ++ trees.flatMap fun t => '.' :: (t.repr noDescriptions).toList := by
  rw [concatenation_repr, map_cons, intercalate_cons, block_repr, flatMap_map]

theorem parentheses_repr (s t : BaseAction) : ((parentheses (.choice [s, t])).repr noDescriptions).toList =
      '(' :: ((s.repr noDescriptions).toList ++ '|' :: (t.repr noDescriptions).toList ++ [')']) := by
  simp [BaseAction.repr, reprEach]

theorem sequence_repr_cons (rollback exits : List String) (i : Nat) (m : Module) (rest : List Module) :
    ((concatenation (sequence rollback exits i (m :: rest))).repr noDescriptions).toList =
      opening rollback i m.init ++ (sequence rollback exits (i + 1) rest).flatMap
        (fun t => '.' :: (t.repr noDescriptions).toList) ++ [')'] := by
  rw [sequence, branch_repr, flatMap_singleton, parentheses_repr, branch_repr, branch_repr]
  simp [opening, flatMap_map, block_repr]

/-- The text with the parentheses closed is that of the tree. -/
theorem rawText_repr {exits : List String} (nonempty : sequence rollback exits i ms ≠ []) :
    (rawText rollback exits i ms).dropLast ++ List.replicate ms.length ')' =
      ((concatenation (sequence rollback exits i ms)).repr noDescriptions).toList := by
  induction ms generalizing i with
  | nil =>
    have raw : rawText rollback exits i [] = exits.flatMap fun e => blockText e ++ ['.'] := rfl
    rw [raw, dropLast_flatMap, concatenation_repr, sequence, List.map_map, length_nil, replicate_zero, append_nil]
    congr 2
    funext e
    exact (block_repr e).symm
  | cons m rest ih =>
    rw [sequence_repr_cons, rawText_cons, length_cons, replicate_succ', dropLast_append_of_ne_nil (cons_ne_nil _ _)]
    by_cases empty : sequence rollback exits (i + 1) rest = []
    · -- the last dot is that behind the success
      have none : rest = [] := by
        cases rest with
        | nil => rfl
        | cons => cases empty
      rw [rawText_eq_nil.mpr empty, empty, none]
      simp
    · have some : rawText rollback exits (i + 1) rest ≠ [] := fun nil => empty (rawText_eq_nil.mp nil)
      obtain ⟨t, ts, cons⟩ := exists_cons_of_ne_nil empty
      have whole := ih empty
      rw [concatenation_repr, cons, map_cons, intercalate_cons] at whole
      rw [dropLast_cons_of_ne_nil some, cons]
      simp only [append_assoc, cons_append, flatMap_cons]
      rw [← append_assoc (List.dropLast _), whole]
      simp [flatMap_map]

variable {ms : List Module}

theorem sequence_ne_nil (nonempty : ms ≠ []) (rollback exits : List String) (i : Nat) :
    sequence rollback exits i ms ≠ [] := by
  obtain ⟨m, rest, rfl⟩ := exists_cons_of_ne_nil nonempty
  exact cons_ne_nil _ _

theorem moduleText_eq (nonempty : ms ≠ []) : moduleText (inits ms) (exits ms) = (tree ms).repr noDescriptions := by
  apply String.toList_inj.mp
  rw [moduleText, tree, ← rawText_repr (sequence_ne_nil nonempty _ _ _), ← branches_toList]
  simp [inits]

/-! ### Parsing -/

theorem isName_append {s t : String} (isName : IsName asciiAlphabet s)
    (word : ∀ c ∈ t.toList, asciiAlphabet.word c) : IsName asciiAlphabet (s ++ t) := by
  obtain ⟨nonempty, head, all⟩ := isName
  obtain ⟨first, others, chars⟩ := exists_cons_of_ne_nil nonempty
  constructor
  · simp [chars]
  · rw [String.toList_append, chars, cons_append]
    rw [chars] at head
    exact head
  · rw [String.toList_append]
    exact forall_mem_append.mpr ⟨all, word⟩

theorem word_toString (i : Nat) : ∀ c ∈ (toString i).toList, asciiAlphabet.word c := by
  intro c mem
  simp [asciiAlphabet, Char.isAlphanum, isDigit_of_mem_toString mem]

theorem initFailed_isName (i : Nat) : IsName asciiAlphabet (initFailed i) :=
  isName_append ⟨by simp, by simp [asciiAlphabet], by simp [asciiAlphabet]⟩ (word_toString i)

theorem initSuccess_isName (i : Nat) : IsName asciiAlphabet (initSuccess i) :=
  isName_append ⟨by simp, by simp [asciiAlphabet], by simp [asciiAlphabet]⟩ (word_toString i)

variable {name : String}

theorem block_shaped (isName : IsName asciiAlphabet name) : Shaped asciiAlphabet .action (block name) :=
  .behaviour rfl ⟨isName, nofun⟩

theorem blocks_shaped {names : List String} (isName : ∀ n ∈ names, IsName asciiAlphabet n) :
    ∀ t ∈ names.map block, Shaped asciiAlphabet .action t := by
  refine List.forall_mem_map.mpr fun n member => ?_
  exact block_shaped (isName n member)

theorem unload_isName : ∀ e ∈ unload ms, IsName asciiAlphabet e := by
  intro e mem
  obtain ⟨m, -, exit⟩ := mem_filterMap.mp mem
  exact m.exit_isName e exit

theorem sequence_shaped {exits : List String} (first : ∀ e ∈ rollback, IsName asciiAlphabet e)
    (second : ∀ e ∈ exits, IsName asciiAlphabet e) (i : Nat) (ms : List Module) :
    ∀ t ∈ sequence rollback exits i ms, Shaped asciiAlphabet .action t := by
  induction ms generalizing i with
  | nil => exact blocks_shaped second
  | cons m rest ih =>
    have branch : ∀ name trees, IsName asciiAlphabet name → (∀ t ∈ trees, Shaped asciiAlphabet .action t) →
        Shaped asciiAlphabet .sequence (.concatenation (block name :: trees)) := by
      intro name trees isName each
      exact .sequence (cons_ne_nil _ _) (forall_mem_cons.mpr ⟨block_shaped isName, each⟩)
    have failure := branch _ _ (initFailed_isName i) (blocks_shaped first)
    have success := branch _ _ (initSuccess_isName i) (ih (i + 1))
    refine forall_mem_cons.mpr ⟨block_shaped m.init_isName, forall_mem_singleton.mpr ?_⟩
    exact .parentheses (.choice (by simp) (forall_mem_cons.mpr ⟨failure, forall_mem_singleton.mpr success⟩))

theorem tree_shaped (nonempty : ms ≠ []) : Shaped asciiAlphabet .list (tree ms) := by
  refine .single (.sequence (sequence_ne_nil nonempty _ _ _) (sequence_shaped ?_ unload_isName 0 ms))
  intro e mem
  exact unload_isName e (mem_of_mem_drop (mem_reverse.mp mem))

theorem sequence_blocks (rollback exits : List String) (i : Nat) (ms : List Module) :
    ∀ b ∈ behavioursOf (sequence rollback exits i ms), b.kind = .block ∧ b.repeated = none := by
  have blocks : ∀ names : List String, ∀ b ∈ behavioursOf (names.map block), b.kind = .block ∧ b.repeated = none := by
    intro names b mem
    obtain ⟨t, mem, here⟩ := mem_behavioursOf.mp mem
    obtain ⟨n, -, rfl⟩ := List.mem_map.mp mem
    rw [mem_singleton.mp here]
    exact ⟨rfl, rfl⟩
  induction ms generalizing i with
  | nil => exact blocks exits
  | cons m rest ih =>
    intro b mem
    simp only [sequence, behavioursOf, behaviours, block, append_nil, mem_append, mem_cons, singleton_append] at mem
    obtain rfl | (rfl | mem) | rfl | mem := mem
    · exact ⟨rfl, rfl⟩
    · exact ⟨rfl, rfl⟩
    · exact blocks rollback b mem
    · exact ⟨rfl, rfl⟩
    · exact ih (i + 1) b mem

theorem parseProcess_moduleText (nonempty : ms ≠ []) :
    parseProcess asciiAlphabet (moduleText (inits ms) (exits ms)) = some ((tree ms).reread noDescriptions) := by
  rw [moduleText_eq nonempty, (parseProcess_repr (tree_shaped nonempty)).1]
  · rw [tree, reread_concatenation]
    rfl
  · exact fun b mem => .inl (sequence_blocks _ _ 0 ms b mem).2

/-! ## Executions -/

/-- The first modules have been initialized. -/
def loaded : Nat → List Module → List String
  | _, [] => []
  | i, m :: rest => m.init :: initSuccess i :: loaded (i + 1) rest

/-- The modules are initialized one after another in the order; behind the last one `exits` is called,
and behind the first failure, of the module number `k`, what `rollback` has for it. -/
def Follows (rollback : Nat → List String) (exits : List String) (i : Nat) (ms : List Module)
    (w : List String) : Prop :=
  w = loaded i ms ++ exits ∨
    ∃ k m, ms[k]? = some m ∧ w = loaded i (ms.take k) ++ m.init :: initFailed (i + k) :: rollback k

/-- The process does what it is for: the modules that have been initialized, and only they, are left
in the reverse order. -/
def RollsBack (ms : List Module) (w : List String) : Prop :=
  Follows (fun k => unload (ms.take k)) (unload ms) 0 ms w

variable {w : List String}

theorem follows_cons {rollback : Nat → List String} {exits : List String} {m : Module} {rest : List Module} :
    Follows rollback exits i (m :: rest) w ↔ w = m.init :: initFailed i :: rollback 0 ∨
      ∃ v, Follows (fun k => rollback (k + 1)) exits (i + 1) rest v ∧ w = m.init :: initSuccess i :: v := by
  constructor
  · intro follows
    obtain rfl | ⟨k, failing, found, rfl⟩ := follows
    · exact .inr ⟨_, .inl rfl, rfl⟩
    · cases k with
      | zero =>
        cases found
        exact .inl rfl
      | succ k =>
        refine .inr ⟨_, .inr ⟨k, failing, found, rfl⟩, ?_⟩
        rw [Nat.add_right_comm i 1 k]
        rfl
  · intro either
    obtain rfl | ⟨v, rfl | ⟨k, failing, found, rfl⟩, rfl⟩ := either
    · exact .inr ⟨0, m, rfl, rfl⟩
    · exact .inl rfl
    · refine .inr ⟨k + 1, failing, found, ?_⟩
      rw [Nat.add_right_comm i 1 k]
      rfl

theorem reread_block (name : String) : (block name).reread noDescriptions = block name := rfl

theorem reread_blocks (names : List String) : (names.map block).map (reread noDescriptions) = names.map block := by
  rw [List.map_map]
  rfl

theorem reread_parentheses (t : BaseAction) :
    (parentheses t).reread noDescriptions = .parentheses (t.reread noDescriptions) := rfl

variable {f : Flow} {taken : List Behaviour}

theorem mem_sequences_block {rest : List BaseAction} :
    w ∈ f.lts.sequences ⟨block name :: rest, taken⟩ ↔ ∃ v ∈ f.lts.sequences ⟨rest, taken⟩, w = name :: v :=
  Flow.mem_sequences_action (b := ⟨0, name, .block, none⟩) Kind.noConfusion

theorem mem_sequences_blocks {names : List String} : w ∈ f.lts.sequences ⟨names.map block, taken⟩ ↔ w = names := by
  induction names generalizing w with
  | nil => exact Flow.mem_sequences_nil
  | cons name rest ih =>
    rw [map_cons, mem_sequences_block]
    simp [ih]

/-- The executions of the parsed actions. -/
theorem mem_sequences_sequence {exits : List String} (i : Nat) (ms : List Module) :
    w ∈ f.lts.sequences ⟨(sequence rollback exits i ms).map (reread noDescriptions), taken⟩ ↔
      Follows (fun _ => rollback) exits i ms w := by
  induction ms generalizing i w with
  | nil =>
    rw [sequence, reread_blocks, mem_sequences_blocks]
    simp [Follows, loaded]
  | cons m rest ih =>
    -- the parser has put the success before the failure
    simp only [sequence, map_cons, map_nil, reread_block, reread_parentheses, reread_choice,
      reread_concatenation, reread_blocks, reverse_cons, reverse_nil, nil_append,
      cons_append]
    simp only [mem_sequences_block, Flow.mem_sequences_parentheses, Flow.mem_sequences_choice,
      Flow.mem_sequences_concatenation, mem_cons, not_mem_nil, or_false, exists_eq_or_imp,
      exists_eq_left, append_nil, ih, mem_sequences_blocks, follows_cons]
    constructor
    · intro ⟨u, either, same⟩
      obtain ⟨v, follows, rfl⟩ | rfl := either
      · exact .inr ⟨v, follows, same⟩
      · exact .inl same
    · intro either
      obtain same | ⟨v, follows, same⟩ := either
      · exact ⟨_, .inr rfl, same⟩
      · exact ⟨_, .inl ⟨v, follows, rfl⟩, same⟩

/-- The executions of the tree of the text. -/
theorem mem_executions_iff (initial : f.initial = (tree ms).reread noDescriptions) (w : List String) :
    w ∈ f.executions ↔ Follows (fun _ => leftBehind ms) (unload ms) 0 ms w := by
  show w ∈ f.lts.sequences ⟨[f.initial], []⟩ ↔ _
  rw [initial, tree, reread_concatenation, Flow.mem_sequences_concatenation, append_nil]
  exact mem_sequences_sequence 0 ms

/-! ## When the process rolls back -/

theorem initFailed_ne_initSuccess (i : Nat) : initFailed i ≠ initSuccess i := by
  intro same
  have chars := congrArg (fun s => s.toList.drop 5) same
  simp [initFailed, initSuccess] at chars

/-- What follows a failure tells the rollback. -/
theorem follows_failed (rollback : Nat → List String) {exits v : List String} {k : Nat}
    {m : Module} (found : ms[k]? = some m) :
    Follows rollback exits i ms (loaded i (ms.take k) ++ m.init :: initFailed (i + k) :: v) ↔ v = rollback k := by
  induction k generalizing i ms rollback with
  | zero =>
    obtain ⟨rest, rfl⟩ : ∃ rest, ms = m :: rest := by
      cases ms with
      | nil => cases found
      | cons first rest =>
        cases found
        exact ⟨rest, rfl⟩
    rw [follows_cons]
    simp [loaded, initFailed_ne_initSuccess]
  | succ k ih =>
    cases ms with
    | nil => cases found
    | cons first rest =>
      have step := ih (fun k => rollback (k + 1)) (i := i + 1) found
      rw [Nat.add_right_comm i 1 k] at step
      rw [follows_cons, ← step]
      simp [loaded, (initFailed_ne_initSuccess i).symm, Nat.add_assoc]

/-- Two rollbacks that allow the same executions are the same. -/
theorem follows_imp_iff {rollback rollback' : Nat → List String} {exits : List String} :
    (∀ w, Follows rollback exits 0 ms w → Follows rollback' exits 0 ms w) ↔
      ∀ k < ms.length, rollback k = rollback' k := by
  constructor
  · intro imp k lt
    have found : ms[k]? = some ms[k] := getElem?_eq_getElem lt
    exact (follows_failed _ found).mp (imp _ (.inr ⟨k, ms[k], found, rfl⟩))
  · intro same w follows
    obtain all | ⟨k, m, found, rfl⟩ := follows
    · exact .inl all
    · obtain ⟨lt, -⟩ := List.getElem?_eq_some_iff.mp found
      rw [same k lt]
      exact .inr ⟨k, m, found, rfl⟩

theorem unload_append (ms ns : List Module) : unload (ms ++ ns) = unload ns ++ unload ms := by
  simp [unload]

theorem unload_eq_nil : unload ms = [] ↔ ∀ m ∈ ms, m.exit = none := by
  simp [unload]

/-- The branches of failures fit all modules just in case they are empty. -/
theorem leftBehind_iff (nonempty : ms ≠ []) :
    (∀ k < ms.length, leftBehind ms = unload (ms.take k)) ↔ ∀ m ∈ ms.dropLast, m.exit = none := by
  have pos : 0 < ms.length := length_pos_of_ne_nil nonempty
  rw [← unload_eq_nil]
  constructor
  · intro fits
    have first : leftBehind ms = [] := fits 0 pos
    rw [dropLast_eq_take, ← fits _ (Nat.sub_lt pos Nat.one_pos), first]
  · intro none k lt
    have last := congrArg unload (dropLast_append_getLast nonempty)
    rw [unload_append, none, append_nil] at last
    have left : leftBehind ms = [] := by
      rw [leftBehind, ← last]
      cases exit : (ms.getLast nonempty).exit <;> simp [unload, exit]
    have part : ∀ m ∈ ms.take k, m.exit = Option.none := by
      intro m mem
      apply unload_eq_nil.mp none
      rw [dropLast_eq_take]
      exact take_subset_take_left ms (by omega) mem
    rw [left, unload_eq_nil.mpr part]

/-! ## The descriptions -/

/-- A loop over functions changes the descriptions of their names. -/
theorem describeEach_eq (change : String → Action → Action)
    (again : ∀ name a, change name (change name a) = change name a) (pairs : List (String × String))
    {d : Dict String Action} (known : ∀ name ∈ pairs.map Prod.snd, (d.get? name).isSome) :
    ∃ after, describeEach change pairs d = some after ∧ ∀ name,
      after.get? name = (d.get? name).map fun a =>
        if name ∈ pairs.map Prod.snd then change name a else a := by
  induction pairs generalizing d with
  | nil => exact ⟨d, rfl, fun name => by simp⟩
  | cons pair rest ih =>
    obtain ⟨here, others⟩ := forall_mem_cons.mp known
    obtain ⟨a, found⟩ := isSome_iff_exists.mp here
    obtain ⟨after, built, lookup⟩ := @ih (d.modify pair.2 (change pair.2)) (by
      intro name mem
      rw [Dict.get?_modify]
      split <;> simpa using others name mem)
    refine ⟨after, ?_, fun name => ?_⟩
    · rw [describeEach, foldlM_cons]
      simp only [update, found]
      exact built
    · rw [lookup, Dict.get?_modify]
      by_cases same : name = pair.2
      · subst same
        simp only [if_true, Option.map_map, map_cons, mem_cons, true_or]
        congr 1
        funext b
        simp [again]
      · rw [if_neg same]
        simp only [map_cons, mem_cons, same, false_or]

/-- The functions are among the actions. -/
theorem mem_sequence (rollback exits : List String) (i : Nat) (ms : List Module)
    (mem : name ∈ exits ∨ name ∈ ms.map Module.init) :
    ∃ b ∈ behavioursOf (sequence rollback exits i ms), b.name = name := by
  induction ms generalizing i with
  | nil =>
    have mem : name ∈ exits := by simpa using mem
    exact ⟨⟨0, name, .block, none⟩,
      mem_behavioursOf.mpr ⟨block name, List.mem_map_of_mem mem, mem_singleton_self _⟩, rfl⟩
  | cons m rest ih =>
    by_cases here : name = m.init
    · exact ⟨⟨0, m.init, .block, none⟩, mem_append_left _ (mem_singleton_self _), here.symm⟩
    · obtain ⟨b, found, same⟩ := ih (i + 1) (by simpa [here] using mem)
      refine ⟨b, ?_, same⟩
      simp [sequence, behavioursOf, behaviours, found]

theorem get?_populate {t : BaseAction} (blocks : ∀ b ∈ t.behaviours, b.kind = .block) (name : String) :
    (populate t).get? name = if ∃ b ∈ t.behaviours, b.name = name then some (.new .block) else none := by
  split
  next mem =>
    obtain ⟨b, mem, rfl⟩ := mem
    have key : b.name ∈ (populate t).keys := by
      apply Dict.mem_keys_ofList.mpr
      rw [List.map_map]
      exact List.mem_map_of_mem (f := Prod.fst ∘ fun b => (Behaviour.name b, Action.new b.kind)) mem
    obtain ⟨a, found⟩ := Dict.mem_keys_iff.mp key
    obtain ⟨c, member, same⟩ := List.mem_map.mp (Dict.mem_of_get?_ofList found)
    rw [found, ← (Prod.mk.inj same).2, blocks c member]
  next absent =>
    cases found : (populate t).get? name with
    | none => rfl
    | some a =>
      obtain ⟨b, mem, same⟩ := List.mem_map.mp (Dict.mem_of_get?_ofList found)
      cases same
      exact absurd ⟨b, mem, rfl⟩ absent

/-- The behaviours that the parser gets. -/
theorem mem_behaviours_tree {b : Behaviour} :
    b ∈ ((tree ms).reread noDescriptions).behaviours ↔ b ∈ (tree ms).behaviours := by
  rw [reread, reflag_eq_self, mem_behaviours_mirrored]
  intro c mem
  rw [Behaviour.shown, (sequence_blocks _ _ 0 ms c mem).1]
  rfl

/-- The calls of an action. -/
def statementsOf (ms : List Module) (name : String) : List String :=
  if name ∈ unload ms then ["emg_" ++ name ++ "();"]
  else if name ∈ ms.map Module.init then
    ["%ret% = emg_" ++ name ++ "();", "%ret% = ldv_post_init(%ret%);"]
  else []

/-- The condition of an action: the blocks behind an initialization function ask for its result. -/
def conditionOf (name : String) : List String :=
  if "init_failed".toList.isPrefixOf name.toList then ["%ret% != 0"]
  else if "init_success".toList.isPrefixOf name.toList then ["%ret% == 0"]
  else []

theorem describeOutcome_fields (beginning condition comment name : String) {a : Action} (kind : a.kind = .block) :
    (describeOutcome beginning condition comment name a).kind = .block ∧
      (describeOutcome beginning condition comment name a).statements = a.statements ∧
      (describeOutcome beginning condition comment name a).condition =
        if beginning.toList.isPrefixOf name.toList then [condition] else a.condition := by
  unfold describeOutcome
  by_cases begins : beginning.toList.isPrefixOf name.toList = true
  · rw [if_pos ⟨kind, begins⟩, if_pos begins]
    exact ⟨kind, rfl, rfl⟩
  · rw [if_neg fun both => begins both.2, if_neg begins]
    exact ⟨kind, rfl, rfl⟩

/-- The process of modules. -/
theorem generateInsmodProcess_eq (nonempty : ms ≠ []) :
    ∃ s, generateInsmodProcess (inits ms) (exits ms) false = some s ∧ s.initial = (tree ms).reread noDescriptions ∧
      ∀ name a, s.data.get? name = some a →
        a.kind = .block ∧ a.statements = statementsOf ms name ∧ a.condition = conditionOf name := by
  obtain ⟨m, rest, cons⟩ := exists_cons_of_ne_nil nonempty
  have text : insmodText (inits ms) (exits ms) false = some (moduleText (inits ms) (exits ms)) := by
    rw [cons]
    rfl
  have blocks : ∀ b ∈ ((tree ms).reread noDescriptions).behaviours, b.kind = .block := fun b mem =>
    (sequence_blocks _ _ 0 ms b (mem_behaviours_tree.mp mem)).1
  have known : ∀ name, name ∈ unload ms ∨ name ∈ ms.map Module.init →
      ((populate ((tree ms).reread noDescriptions)).get? name).isSome := by
    intro name mem
    obtain ⟨b, found, same⟩ := mem_sequence (leftBehind ms) (unload ms) 0 ms mem
    rw [get?_populate blocks, if_pos ⟨b, mem_behaviours_tree.mpr found, same⟩]
    rfl
  have initNames : (inits ms).map Prod.snd = ms.map Module.init := by simp [inits]
  obtain ⟨first, initialized, lookup⟩ := describeEach_eq describeInit (fun _ _ => rfl)
    (inits ms) (fun name mem => known name (.inr (initNames ▸ mem)))
  obtain ⟨second, exited, lookup'⟩ := describeEach_eq describeExit (fun _ _ => rfl)
    (exits ms) (d := first) (by
      intro name mem
      rw [lookup, isSome_map]
      exact known name (.inl (exits_names ms ▸ mem)))
  refine ⟨⟨(tree ms).reread noDescriptions, describeOutcomes second⟩, ?_, rfl, ?_⟩
  · rw [generateInsmodProcess, text]
    simp only [bind_eq_bind, bind_some, parseProcess_moduleText nonempty, initialized,
      exited, Bool.false_eq_true, if_false]
    rfl
  · intro name a found
    simp only [describeOutcomes, Dict.get?_mapVals, lookup', lookup, exits_names, initNames, Option.map_map] at found
    obtain ⟨b, new, rfl⟩ := map_eq_some_iff.mp found
    rw [get?_populate blocks] at new
    split at new
    · cases new
      simp only [Function.comp_apply]
      generalize described : (if name ∈ unload ms then _ else _ : Action) = c
      obtain ⟨kind, statements, condition⟩ :
          c.kind = .block ∧ c.statements = statementsOf ms name ∧ c.condition = [] := by
        rw [← described, statementsOf]
        split_ifs <;> exact ⟨rfl, rfl, rfl⟩
      obtain ⟨kind', statements', condition'⟩ := describeOutcome_fields "init_success"
        "%ret% == 0" "Module has been initialized." name kind
      obtain ⟨kind'', statements'', condition''⟩ := describeOutcome_fields "init_failed"
        "%ret% != 0" "Failed to initialize the module." name kind'
      refine ⟨kind'', ?_, ?_⟩
      · rw [statements'', statements', statements]
      · rw [condition'', condition', condition, conditionOf]
    · cases new

/-! ### The kernel -/

/-- With initializations of the kernel there is no process: their descriptions are looked up by names
that the text cannot have. -/
theorem generateInsmodProcess_kernel (inits exits : List (String × String)) :
    generateInsmodProcess inits exits true = none := by
  rw [generateInsmodProcess]
  cases insmodText inits exits true with
  | none => rfl
  | some text =>
    cases parsed : parseProcess asciiAlphabet text with
    | none => simp [parsed]
    | some t =>
      obtain ⟨u, shaped, rfl⟩ := parseProcess_shaped parsed
      have absent : (populate (rootOf u)).get? "kernel initialization" = none := by
        by_contra present
        obtain ⟨a, found⟩ := ne_none_iff_exists'.mp present
        obtain ⟨b, mem, same⟩ := List.mem_map.mp (Dict.mem_of_get?_ofList found)
        rw [rootOf_behaviours] at mem
        have word := (shaped.legible b mem).name.word ' ' (by simp [(Prod.mk.inj same).1])
        simp [asciiAlphabet] at word
      simp [parsed, describeKernel, update, absent]

/-! ### The load order -/

/-- What there is for some keys. -/
def entries {α : Type} (key : α → String) (f : α → Option String) (l : List α) : List (String × String) :=
  l.filterMap fun a => (f a).map (key a, ·)

theorem nodup_entries {α : Type} {key : α → String} {l : List α} (nodup : (l.map key).Nodup) (f : α → Option String) :
    ((entries key f l).map Prod.fst).Nodup := by
  refine nodup.sublist ?_
  rw [entries, map_filterMap]
  induction l with
  | nil => exact .slnil
  | cons a rest ih =>
    rw [filterMap_cons, map_cons]
    cases f a with
    | none => exact (ih nodup.of_cons).cons _
    | some v => exact (ih nodup.of_cons).cons_cons _

/-- The functions of the files, in their order. -/
theorem inOrder_items {order : List String} (nodup : order.Nodup) (parameters : Dict String String) :
    (inOrder order parameters).items = entries id parameters.get? order := by
  have different : (order.map id).Nodup := order.map_id.symm ▸ nodup
  rw [← Dict.items_ofList (nodup_entries different _), entries, Dict.ofList, foldl_filterMap, inOrder]
  congr
  funext found file
  cases parameters.get? file <;> rfl

/-- A macro that is called at most once in a file. -/
theorem singleCalls_get? {calls : Dict String (List String)} (once : ∀ item ∈ calls.items, item.2.length ≤ 1) :
    ∃ parameters, singleCalls calls = some parameters ∧
      ∀ file, parameters.get? file = (calls.get? file).bind List.head? := by
  have made {items : List (String × List String)} (once : ∀ item ∈ items, item.2.length ≤ 1) (d : Dict String String) :
      items.foldlM addCall d = some ((entries Prod.fst (·.2.head?) items).foldl (fun d e => d.set e.1 e.2) d) := by
    induction items generalizing d with
    | nil => rfl
    | cons item rest ih =>
      obtain ⟨here, others⟩ := forall_mem_cons.mp once
      obtain ⟨file, _ | ⟨name, _ | ⟨second, more⟩⟩⟩ := item
      · exact ih others d
      · exact ih others (d.set file name)
      · simp at here
  refine ⟨_, made once .empty, fun file => Option.ext fun name => ?_⟩
  refine (Dict.get?_ofList (nodup_entries calls.nodup _)).trans ?_
  simp [entries, bind_eq_some_iff, ← Dict.mem_items_iff]

/-- The functions of modules with a function of each kind at most are imported in the load order and in its reverse, and
executions of the process that is generated of them initialize the modules up to a failure. -/
theorem importInitsExits_executions (nonempty : ms ≠ []) (files : (ms.map Module.file).Nodup)
    {init exit : Dict String (List String)} (once : ∀ item ∈ init.items ++ exit.items, item.2.length ≤ 1)
    (initialized : ∀ m ∈ ms, init.get? m.file = some [m.init])
    (left : ∀ m ∈ ms, (exit.get? m.file).bind List.head? = m.exit) :
    ∃ inits exits s, importInitsExits (ms.map Module.file) false (some init) (some exit) = some (inits, exits) ∧
      generateInsmodProcess inits exits false = some s ∧
        ∀ w, w ∈ s.flow.executions ↔ Follows (fun _ => leftBehind ms) (unload ms) 0 ms w := by
  obtain ⟨first, second⟩ := forall_mem_append.mp once
  obtain ⟨initNames, built, lookup⟩ := singleCalls_get? first
  obtain ⟨exitNames, built', lookup'⟩ := singleCalls_get? second
  have loads : (inOrder (ms.map Module.file) initNames).items = inits ms := by
    rw [inOrder_items files, entries, filterMap_map, inits, ← filterMap_eq_map]
    apply filterMap_congr
    intro m mem
    simp [lookup, initialized m mem]
  have leaves : (inOrder (ms.map Module.file).reverse exitNames).items = exits ms := by
    rw [inOrder_items (nodup_reverse.mpr files), entries, ← map_reverse, filterMap_map, exits]
    apply filterMap_congr
    intro m mem
    simp only [Function.comp_apply, id, lookup', left m (mem_reverse.mp mem)]
  obtain ⟨s, generated, initial, -⟩ := generateInsmodProcess_eq nonempty
  refine ⟨_, _, s, ?_, generated, mem_executions_iff initial⟩
  simp [importInitsExits, built, built', loads, leaves]

/-! ### The result -/

/-- The generated process rolls back in all executions just in case no module but the last one has an
exit function. -/
theorem generateInsmodProcess_rollsBack_iff (nonempty : ms ≠ []) :
    ∃ s, generateInsmodProcess (inits ms) (exits ms) false = some s ∧
      ((∀ w ∈ s.flow.executions, RollsBack ms w) ↔ ∀ m ∈ ms.dropLast, m.exit = none) := by
  obtain ⟨s, built, initial, -⟩ := generateInsmodProcess_eq nonempty
  refine ⟨s, built, ?_⟩
  rw [← leftBehind_iff nonempty, ← follows_imp_iff]
  simp only [mem_executions_iff (f := s.flow) initial]
  rfl

/-- A library and a module that uses it. -/
def library : Module where
  file := "library.c"
  init := "library_init"
  exit := some "library_exit"
  init_isName := ⟨by simp, by simp [asciiAlphabet], by simp [asciiAlphabet]⟩
  exit_isName := by
    intro e mem
    cases mem
    exact ⟨by simp, by simp [asciiAlphabet], by simp [asciiAlphabet]⟩

def client : Module where
  file := "client.c"
  init := "client_init"
  exit := some "client_exit"
  init_isName := ⟨by simp, by simp [asciiAlphabet], by simp [asciiAlphabet]⟩
  exit_isName := by
    intro e mem
    cases mem
    exact ⟨by simp, by simp [asciiAlphabet], by simp [asciiAlphabet]⟩

/-- The library without an exit function. -/
def permanent : Module := { library with exit := none, exit_isName := fun _ mem => by cases mem }

theorem generateInsmodProcess_permanent_rollsBack :
    ∃ s, generateInsmodProcess (inits [permanent, client]) (exits [permanent, client]) false = some s ∧
      ∀ w ∈ s.flow.executions, RollsBack [permanent, client] w := by
  obtain ⟨s, built, rolls⟩ := generateInsmodProcess_rollsBack_iff (cons_ne_nil permanent [client])
  exact ⟨s, built, rolls.mpr (forall_mem_singleton.mpr rfl)⟩

/-- The library that could not be initialized is left. -/
theorem generateInsmodProcess_library_first :
    ∃ s, generateInsmodProcess (inits [library, client]) (exits [library, client]) false = some s ∧
      ["library_init", "init_failed_0", "library_exit"] ∈ s.flow.executions ∧
      ¬ RollsBack [library, client] ["library_init", "init_failed_0", "library_exit"] := by
  obtain ⟨s, built, initial, -⟩ := generateInsmodProcess_eq (cons_ne_nil library [client])
  refine ⟨s, built, ?_, ?_⟩
  · rw [mem_executions_iff (f := s.flow) initial]
    exact .inr ⟨0, library, rfl, rfl⟩
  · intro rolls
    have failed := (follows_failed (v := ["library_exit"]) _ (rfl : [library, client][0]? = some library)).mp rolls
    cases failed

/-- The library and its client call a macro, each with a function. -/
def calls (functions : List String) : Dict String (List String) :=
  .ofList (["library.c", "client.c"].zip (functions.map ([·])))

theorem library_executions : ∃ inits exits s,
    importInitsExits ["library.c", "client.c"] false (some (calls ["library_init", "client_init"]))
        (some (calls ["library_exit", "client_exit"])) = some (inits, exits) ∧
      generateInsmodProcess inits exits false = some s ∧ ∀ w, w ∈ s.flow.executions ↔
        Follows (fun _ => leftBehind [library, client]) (unload [library, client]) 0 [library, client] w := by
  refine importInitsExits_executions (cons_ne_nil library [client]) (by decide) (by decide) ?_ ?_
  · exact forall_mem_cons.mpr ⟨by decide, forall_mem_singleton.mpr (by decide)⟩
  · exact forall_mem_cons.mpr ⟨by decide, forall_mem_singleton.mpr (by decide)⟩

end Klever.Emg.Insmod
