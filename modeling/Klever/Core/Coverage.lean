import Klever.Lib.Merge

/-!
# Code coverage

`add_to_coverage` merges the code coverage of a verification task into that of all tasks so far. Numbers of
covered lines and functions are added, names are united, notes on a line are merged by their texts, and the
number of functions is that of the first task with the file.

What is merged is told by sums over tasks (`Totals`), so it depends neither on the order of tasks nor on how
they are gathered. Numbers of functions (`totalOf`) and notes (`noteOf`) are not among that: their order
matters.

Numbers in texts are written with ASCII digits.
-/

namespace Klever.Core

open Klever.Lib List Option

/-! ## Texts of notes -/

/-- `text.split(separator)` -/
def split (separator : List Char) : Nat → List Char → List (List Char)
  | _, [] => [[]]
  | skip + 1, _ :: text => split separator skip text
  | 0, c :: text =>
    if separator.isPrefixOf (c :: text) then [] :: split separator (separator.length - 1) text
    else match split separator 0 text with
      | [] => [[c]]
      | part :: parts => (c :: part) :: parts

/-- A text without its ending, a line break behind it may be there. -/
def strip (ending text : List Char) : Option (List Char) :=
  let text := if text.getLast? = some '\n' then text.dropLast else text
  if ending.isSuffixOf text then some (text.take (text.length - ending.length)) else none

/-- `\d+` -/
def natOf (text : List Char) : Option Nat :=
  if text.isEmpty || !text.all Char.isDigit then none
  else some (text.foldl (fun n c => 10 * n + (c.toNat - '0'.toNat)) 0)

/-- `-?\d+` -/
def intOf : List Char → Option Int
  | '-' :: text => (natOf text).map fun n => -(n : Int)
  | text => (natOf text).map fun n => (n : Int)

/-- `int(text)` allows blanks around and a plus. -/
def parseInt (text : List Char) : Option Int :=
  match ((text.dropWhile Char.isWhitespace).reverse.dropWhile Char.isWhitespace).reverse with
  | '+' :: text => (natOf text).map fun n => (n : Int)
  | text => intOf text

/-- Is a text given and not empty? -/
def given (text : Option String) : Option String := text.filter (· ≠ "")

/-- `op_stats_regexp`: the number of stops and the total time. -/
def opStats (text : String) : Option (Nat × Nat) :=
  match split " stops for total time ".toList 0 text.toList with
  | [stops, rest] => do
    let time ← strip " ms".toList rest
    some (← natOf stops, ← natOf time)
  | _ => none

/-- `merge_verifier_op_stats` fails on texts of another format. -/
def mergeVerifierOpStats (text₁ text₂ : Option String) : Option (Option String) :=
  match given text₁, given text₂ with
  | none, text₂ => some text₂
  | text₁, none => some text₁
  | some text₁, some text₂ => do
    let (stops₁, time₁) ← opStats text₁
    let (stops₂, time₂) ← opStats text₂
    some (some (toString (stops₁ + stops₂) ++ " stops for total time " ++ toString (time₁ + time₂) ++ " ms"))

abbrev Ranges := List (Int × Int)

/-- The ranges that are merged already, and the one that still grows. -/
structure Growing where
  merged : Ranges
  current : Option (Int × Int)

/-- One more range; a current one that starts at zero is taken for none. -/
def Growing.add (g : Growing) (range : Int × Int) : Growing :=
  match g.current with
  | none => { g with current := some range }
  | some (start, maxEnd) =>
    if start = 0 then { g with current := some range }
    else if range.1 ≤ maxEnd + 1 then { g with current := some (start, max maxEnd range.2) }
    else ⟨g.merged ++ [(start, maxEnd)], some range⟩

/-- `merge_int_ranges` -/
def mergeIntRanges (ranges : Ranges) : Ranges :=
  let g := (ranges.mergeSort fun x y => x.1 ≤ y.1).foldl Growing.add ⟨[], none⟩
  g.merged ++ g.current.toList

/-- `val_range_regexp`, or one value. -/
def valRange (text : List Char) : Option (Int × Int) :=
  let range : Option (Int × Int) := do
    let inner ← strip "]".toList text
    match inner with
    | '[' :: inner =>
      match split "..".toList 0 inner with
      | [start, last] => some (← intOf start, ← intOf last)
      | _ => none
    | _ => none
  range.or ((parseInt text).map fun value => (value, value))

/-- `var_val_ranges_regexp`: a variable with its ranges. -/
def varValRanges (text : List Char) : Option (String × Ranges) := do
  let name := text.takeWhile (· ≠ '=')
  let inner ← strip "\x7d".toList (text.dropWhile (· ≠ '='))
  match inner with
  | '=' :: ' ' :: '\x7b' :: inner =>
    if name.isEmpty || inner.isEmpty then none
    else do
      let ranges ← (split ", ".toList 0 inner).mapM valRange
      some (String.ofList name.dropLast, ranges)
  | _ => none

/-- `get_var_val_ranges` -/
def getVarValRanges (text : String) : Option (Dict String Ranges) :=
  ((split "; ".toList 0 text.toList).mapM varValRanges).map Dict.ofList

/-- The union of the ranges of a variable. -/
def uniteRanges : Option Ranges → Option Ranges → Ranges
  | some ranges₁, some ranges₂ => mergeIntRanges (ranges₁ ++ ranges₂)
  | some ranges, none => ranges
  | none, ranges => ranges.getD []

def showRange (range : Int × Int) : String :=
  if range.1 = range.2 then toString range.1 else "[" ++ toString range.1 ++ ".." ++ toString range.2 ++ "]"

/-- `merge_verifier_assumptions` fails on texts of another format. -/
def mergeVerifierAssumptions (text₁ text₂ : Option String) : Option (Option String) :=
  match given text₁, given text₂ with
  | none, text₂ => some text₂
  | text₁, none => some text₁
  | some text₁, some text₂ => do
    let ranges₁ ← getVarValRanges text₁
    let ranges₂ ← getVarValRanges text₂
    let names := (ranges₁.keys ++ ranges₂.keys).dedup.mergeSort fun x y => x ≤ y
    let texts := names.map fun name => name ++ " = \x7b" ++
      ", ".intercalate ((uniteRanges (ranges₁.get? name) (ranges₂.get? name)).map showRange) ++ "\x7d"
    some (some ("; ".intercalate texts))

inductive NoteKind where
  | verifierAssumption
  | verifierOperationStatistics
  | multipleNotes
  deriving DecidableEq, Repr

structure Note where
  kind : NoteKind
  text : Option String
  deriving DecidableEq, Repr

/-- `split_multiple_notes` -/
def splitMultipleNotes (text : String) : Option (String × String) :=
  match split "ms. ".toList 0 text.toList with
  | [opStats, assumptions] => some (String.ofList opStats ++ "ms", String.ofList assumptions)
  | _ => none

/-- Statistics and assumptions of a note. -/
def Note.parts (note : Note) : Option (Option String × Option String) :=
  match note.kind with
  | .multipleNotes => (note.text.bind splitMultipleNotes).map fun (opStats, assumptions) =>
    (some opStats, some assumptions)
  | .verifierAssumption => some (none, note.text)
  | .verifierOperationStatistics => some (note.text, none)

/-- A new note is merged with those before on its line. -/
def mergeNote (prev note : Note) : Option Note := do
  let (prevOpStats, prevAssumptions) ← prev.parts
  let (opStats, assumptions) ← note.parts
  let mergedOpStats ← mergeVerifierOpStats prevOpStats opStats
  let mergedAssumptions ← mergeVerifierAssumptions prevAssumptions assumptions
  match given mergedAssumptions, given mergedOpStats with
  | some assumptions, some opStats => some ⟨.multipleNotes, some (opStats ++ ". " ++ assumptions)⟩
  | some assumptions, none => some ⟨.verifierAssumption, some assumptions⟩
  | none, _ => some ⟨.verifierOperationStatistics, mergedOpStats⟩

/-! ## Coverage of files -/

structure FileCoverage where
  totalFunctions : Nat
  coveredLines : Dict Int Int
  coveredFunctions : Dict Int Int
  coveredFunctionNames : List String
  notes : Dict Int Note
  deriving DecidableEq

abbrev CoverageInfo := Dict String FileCoverage

def FileCoverage.blank (totalFunctions : Nat) : FileCoverage := ⟨totalFunctions, .empty, .empty, [], .empty⟩

/-- Numbers are added to those before. -/
def addCounts (merged counts : Dict Int Int) : Dict Int Int :=
  merged.mergeWith (fun prev count => prev.getD 0 + count) counts

/-- Names that are not there yet are added. -/
def addNames (merged names : List String) : List String :=
  names.foldl (fun merged name => if name ∈ merged then merged else merged ++ [name]) merged

def addNotes (merged notes : Dict Int Note) : Option (Dict Int Note) :=
  merged.mergeWithM (fun prev note => prev.elim (some note) (mergeNote · note)) notes

/-- Numbers and names of a file. -/
def FileCoverage.addPlain (merged info : FileCoverage) : FileCoverage :=
  { merged with
    coveredLines := addCounts merged.coveredLines info.coveredLines
    coveredFunctions := addCounts merged.coveredFunctions info.coveredFunctions
    coveredFunctionNames := addNames merged.coveredFunctionNames info.coveredFunctionNames }

/-- One file; the first time its number of functions is taken. -/
def addFile (merged : Option FileCoverage) (info : FileCoverage) : Option FileCoverage :=
  let merged := merged.getD (.blank info.totalFunctions)
  (addNotes merged.notes info.notes).map fun notes => { merged.addPlain info with notes := notes }

/-- `add_to_coverage` -/
def addToCoverage (merged info : CoverageInfo) : Option CoverageInfo := merged.mergeWithM addFile info

/-- The coverage of all tasks in their order. -/
def addAll (infos : List CoverageInfo) : Option CoverageInfo := infos.foldlM addToCoverage .empty

/-- One file of the data on disk, without notes. -/
def readFile (cached : Option FileCoverage) (large : FileCoverage) : FileCoverage :=
  (cached.getD (.blank large.totalFunctions)).addPlain large

/-- `__read_data`: "This code is close to function add_to_coverage". -/
def readData (cached large : CoverageInfo) : CoverageInfo := cached.mergeWith readFile large

/-! ## Sums -/

variable {c c' d info : CoverageInfo} {infos infos' : List CoverageInfo} {file name : String} {line : Int}

/-- The number of a line; zero says that the line is not considered. -/
def countAt (counts : Dict Int Int) (line : Int) : WithZero Int := counts.get? line

def countOf (counts : FileCoverage → Dict Int Int) (c : CoverageInfo) (file : String) (line : Int) : WithZero Int :=
  (c.get? file).elim 0 fun x => countAt (counts x) line

def Named (c : CoverageInfo) (file name : String) : Prop :=
  ∃ x, c.get? file = some x ∧ name ∈ x.coveredFunctionNames

def totalOf (c : CoverageInfo) (file : String) : Option Nat := (c.get? file).map (·.totalFunctions)

def noteOf (c : CoverageInfo) (file : String) (line : Int) : Option Note :=
  (c.get? file).bind fun x => x.notes.get? line

theorem countAt_addCounts (merged counts : Dict Int Int) (line : Int) :
    countAt (addCounts merged counts) line = countAt merged line + countAt counts line := by
  unfold countAt
  rw [addCounts, Dict.get?_mergeWith]
  cases counts.get? line with
  | none => exact (add_zero (countAt merged line)).symm
  | some count =>
    cases merged.get? line with
    | none => exact congrArg some (zero_add count)
    | some prev => rfl

theorem mem_addNames {merged names : List String} : name ∈ addNames merged names ↔ name ∈ merged ∨ name ∈ names := by
  unfold addNames
  induction names generalizing merged with
  | nil => simp
  | cons first rest ih =>
    rw [foldl_cons, ih, mem_cons]
    split
    next old =>
      constructor
      · tauto
      · rintro (there | rfl | there)
        · exact .inl there
        · exact .inl old
        · exact .inr there
    next =>
      rw [mem_append, mem_singleton]
      tauto

/-- Numbers and names of files are those of one coverage and of another one. -/
structure Joined (c e c' : CoverageInfo) : Prop where
  left : ∀ file, e.get? file = none → c'.get? file = c.get? file
  right : ∀ file x, e.get? file = some x → ∃ y, c'.get? file = some y ∧
    y.totalFunctions = ((c.get? file).getD (.blank x.totalFunctions)).totalFunctions ∧
    y.coveredLines = addCounts ((c.get? file).getD (.blank x.totalFunctions)).coveredLines x.coveredLines ∧
    y.coveredFunctions = addCounts ((c.get? file).getD (.blank x.totalFunctions)).coveredFunctions x.coveredFunctions ∧
    y.coveredFunctionNames =
      addNames ((c.get? file).getD (.blank x.totalFunctions)).coveredFunctionNames x.coveredFunctionNames

theorem joined_add (done : addToCoverage c info = some c') : Joined c info c' := by
  refine ⟨fun file absent => ?_, fun file x found => ?_⟩
  · rw [Dict.get?_mergeWithM done, absent]
    rfl
  · -- the file was merged since all files were
    have merged := Dict.get?_mergeWithM done file
    rw [found] at merged
    have present := Dict.isSome_mergeWithM done found
    obtain ⟨y, is⟩ := isSome_iff_exists.mp present
    obtain ⟨notes, -, rfl⟩ := map_eq_some_iff.mp is
    exact ⟨_, merged.trans is, rfl, rfl, rfl, rfl⟩

theorem joined_read (c d : CoverageInfo) : Joined c d (readData c d) := by
  refine ⟨fun file absent => ?_, fun file x found => ⟨readFile (c.get? file) x, ?_, rfl, rfl, rfl, rfl⟩⟩
  · rw [readData, Dict.get?_mergeWith, absent]
    rfl
  · rw [readData, Dict.get?_mergeWith, found]
    rfl

namespace Joined

variable {e : CoverageInfo} (joined : Joined c e c')

include joined

theorem isSome (file : String) : (c'.get? file).isSome ↔ (c.get? file).isSome ∨ (e.get? file).isSome := by
  cases found : e.get? file with
  | none => simp [joined.left file found]
  | some x =>
    obtain ⟨y, is, -⟩ := joined.right file x found
    simp [is]

/-- Numbers are added. -/
theorem countOf_eq {counts : FileCoverage → Dict Int Int} (blank : ∀ n, counts (.blank n) = .empty)
    (added : ∀ file x, e.get? file = some x → ∃ y, c'.get? file = some y ∧
      counts y = addCounts (counts ((c.get? file).getD (.blank x.totalFunctions))) (counts x))
    (file : String) (line : Int) :
    countOf counts c' file line = countOf counts c file line + countOf counts e file line := by
  unfold countOf
  cases found : e.get? file with
  | none =>
    rw [joined.left file found]
    exact (add_zero _).symm
  | some x =>
    obtain ⟨y, is, sum⟩ := added file x found
    rw [is]
    show countAt (counts y) line = _
    rw [sum, countAt_addCounts]
    cases c.get? file with
    | none =>
      rw [getD_none, blank]
      rfl
    | some old => rfl

theorem lines (file : String) (line : Int) : countOf (·.coveredLines) c' file line =
    countOf (·.coveredLines) c file line + countOf (·.coveredLines) e file line := by
  refine joined.countOf_eq (fun _ => rfl) (fun file x found => ?_) file line
  obtain ⟨y, is, -, lines, -⟩ := joined.right file x found
  exact ⟨y, is, lines⟩

theorem functions (file : String) (line : Int) : countOf (·.coveredFunctions) c' file line =
    countOf (·.coveredFunctions) c file line + countOf (·.coveredFunctions) e file line := by
  refine joined.countOf_eq (fun _ => rfl) (fun file x found => ?_) file line
  obtain ⟨y, is, -, -, functions, -⟩ := joined.right file x found
  exact ⟨y, is, functions⟩

theorem named (file name : String) : Named c' file name ↔ Named c file name ∨ Named e file name := by
  unfold Named
  cases found : e.get? file with
  | none =>
    rw [joined.left file found]
    simp
  | some x =>
    obtain ⟨y, is, -, -, -, names⟩ := joined.right file x found
    simp only [is, some.injEq, exists_eq_left', names, mem_addNames]
    cases c.get? file with
    | none => simp [FileCoverage.blank]
    | some old => simp

theorem total (file : String) : totalOf c' file = (totalOf c file).or (totalOf e file) := by
  unfold totalOf
  cases found : e.get? file with
  | none =>
    rw [joined.left file found]
    simp
  | some x =>
    obtain ⟨y, is, total, -⟩ := joined.right file x found
    rw [is, map_some, total]
    cases c.get? file <;> rfl

end Joined

/-- Files, numbers and names are those of all tasks together. -/
structure Totals (infos : List CoverageInfo) (c : CoverageInfo) : Prop where
  known : ∀ file, (c.get? file).isSome ↔ ∃ info ∈ infos, (info.get? file).isSome
  lines : ∀ file line, countOf (·.coveredLines) c file line = (infos.map (countOf (·.coveredLines) · file line)).sum
  functions : ∀ file line, countOf (·.coveredFunctions) c file line =
    (infos.map (countOf (·.coveredFunctions) · file line)).sum
  names : ∀ file name, Named c file name ↔ ∃ info ∈ infos, Named info file name

namespace Totals

theorem empty : Totals [] .empty :=
  ⟨by simp [Dict.get?_empty], fun _ _ => rfl, fun _ _ => rfl, by simp [Named, Dict.get?_empty]⟩

theorem join {e : CoverageInfo} (left : Totals infos c) (right : Totals infos' e) (joined : Joined c e c') :
    Totals (infos ++ infos') c' := by
  refine ⟨fun file => ?_, fun file line => ?_, fun file line => ?_, fun file name => ?_⟩
  · rw [joined.isSome, left.known, right.known]
    simp [or_and_right, exists_or]
  · rw [joined.lines, left.lines, right.lines, map_append, sum_append]
  · rw [joined.functions, left.functions, right.functions, map_append, sum_append]
  · rw [joined.named, left.names, right.names]
    simp [or_and_right, exists_or]

theorem one (info : CoverageInfo) : Totals [info] info :=
  ⟨by simp, by simp, by simp, by simp⟩

/-- It does not matter in which order. -/
theorem perm (totals : Totals infos c) (perm : infos.Perm infos') : Totals infos' c := by
  refine ⟨fun file => ?_, fun file line => ?_, fun file line => ?_, fun file name => ?_⟩
  · rw [totals.known]
    simp [perm.mem_iff]
  · rw [totals.lines, (perm.map _).sum_eq]
  · rw [totals.functions, (perm.map _).sum_eq]
  · rw [totals.names]
    simp [perm.mem_iff]

/-- One more task. -/
theorem add (totals : Totals infos c) (done : addToCoverage c info = some c') : Totals (infos ++ [info]) c' :=
  totals.join (one info) (joined_add done)

/-- Data on disk are those of earlier tasks. -/
theorem read (totals : Totals infos c) (stored : Totals infos' d) : Totals (infos' ++ infos) (readData c d) :=
  (totals.join stored (joined_read c d)).perm perm_append_comm

end Totals

/-! ## What depends on the order -/

/-- One more note on a line. -/
def nextNote (prev new : Option Note) : Option (Option Note) :=
  new.elim (some prev) fun note => (prev.elim (some note) (mergeNote · note)).map some

/-- The notes of all tasks on a line, merged in their order. -/
def noteAt (infos : List CoverageInfo) (file : String) (line : Int) : Option (Option Note) :=
  infos.foldlM (fun prev info => nextNote prev (noteOf info file line)) none

theorem noteOf_add (done : addToCoverage c info = some c') (file : String) (line : Int) :
    nextNote (noteOf c file line) (noteOf info file line) = some (noteOf c' file line) := by
  have merged := Dict.get?_mergeWithM done file
  unfold noteOf
  rw [merged]
  cases found : info.get? file with
  | none => rfl
  | some x =>
    obtain ⟨y, is⟩ := isSome_iff_exists.mp (Dict.isSome_mergeWithM done found)
    rw [elim_some, is]
    obtain ⟨notes, added, rfl⟩ := map_eq_some_iff.mp is
    have here := Dict.get?_mergeWithM added line
    have before : ((c.get? file).getD (.blank x.totalFunctions)).notes.get? line =
        (c.get? file).bind fun x => x.notes.get? line := by
      cases c.get? file <;> rfl
    rw [before] at here
    show nextNote _ (x.notes.get? line) = some (notes.get? line)
    rw [here]
    cases there : x.notes.get? line with
    | none => rfl
    | some note =>
      have isSome := Dict.isSome_mergeWithM added there
      rw [before] at isSome
      obtain ⟨merged, is⟩ := isSome_iff_exists.mp isSome
      rw [nextNote, elim_some, elim_some, is]
      rfl

/-- Notes on disk are lost. -/
theorem noteOf_read (c d : CoverageInfo) (file : String) (line : Int) :
    noteOf (readData c d) file line = noteOf c file line := by
  unfold noteOf
  rw [readData, Dict.get?_mergeWith]
  cases d.get? file with
  | none => rfl
  | some x => cases c.get? file <;> rfl

theorem addAll_append (infos : List CoverageInfo) (info : CoverageInfo) :
    addAll (infos ++ [info]) = (addAll infos).bind (addToCoverage · info) := by
  rw [addAll, foldlM_append]
  refine congrArg _ (funext fun c => ?_)
  rw [foldlM_cons]
  cases addToCoverage c info <;> rfl

/-- What merging all tasks gives. -/
theorem addAll_spec (done : addAll infos = some c) : Totals infos c ∧
    (∀ file, totalOf c file = infos.findSome? (totalOf · file)) ∧
    ∀ file line, noteAt infos file line = some (noteOf c file line) := by
  induction infos using List.reverseRecOn generalizing c with
  | nil =>
    cases done
    exact ⟨.empty, fun _ => rfl, fun _ _ => rfl⟩
  | append_singleton infos info ih =>
    rw [addAll_append] at done
    obtain ⟨before, merged, done⟩ := bind_eq_some_iff.mp done
    obtain ⟨totals, first, notes⟩ := ih merged
    refine ⟨totals.add done, fun file => ?_, fun file line => ?_⟩
    · rw [(joined_add done).total, first, findSome?_append, findSome?_singleton]
    · rw [noteAt, foldlM_append]
      show (noteAt infos file line).bind _ = _
      rw [notes, bind_some, ← noteOf_add done, foldlM_cons]
      cases nextNote (noteOf before file line) (noteOf info file line) <;> rfl

/-- Two records of a file say the same. -/
structure FileCoverage.Same (x y : FileCoverage) : Prop where
  totalFunctions : x.totalFunctions = y.totalFunctions
  coveredLines : ∀ line, x.coveredLines.get? line = y.coveredLines.get? line
  coveredFunctions : ∀ line, x.coveredFunctions.get? line = y.coveredFunctions.get? line
  coveredFunctionNames : ∀ name, name ∈ x.coveredFunctionNames ↔ name ∈ y.coveredFunctionNames
  notes : ∀ line, x.notes.get? line = y.notes.get? line

/-- Two coverages have the same files with the same records. -/
def Agree (c d : CoverageInfo) : Prop := ∀ file, Option.Rel FileCoverage.Same (c.get? file) (d.get? file)

theorem Agree.noteOf_eq (agree : Agree c d) (file : String) (line : Int) : noteOf c file line = noteOf d file line := by
  have same := agree file
  unfold noteOf
  generalize c.get? file = x at same
  generalize d.get? file = y at same
  cases same with
  | none => rfl
  | some same => exact same.notes line

/-- Of coverages of the same tasks only numbers of functions and notes may differ. -/
theorem agree_iff (left : Totals infos c) (right : Totals infos d) : Agree c d ↔
    (∀ file, totalOf c file = totalOf d file) ∧ ∀ file line, noteOf c file line = noteOf d file line := by
  constructor
  · intro agree
    refine ⟨fun file => ?_, agree.noteOf_eq⟩
    have same := agree file
    unfold totalOf
    generalize c.get? file = x at same
    generalize d.get? file = y at same
    cases same with
    | none => rfl
    | some same => exact congrArg some same.totalFunctions
  · rintro ⟨totals, notes⟩ file
    have totals := totals file
    have notes := notes file
    have lines := fun line => (left.lines file line).trans (right.lines file line).symm
    have functions := fun line => (left.functions file line).trans (right.functions file line).symm
    have names := fun name => (left.names file name).trans (right.names file name).symm
    have known := (left.known file).trans (right.known file).symm
    simp only [totalOf, noteOf, countOf, Named] at totals notes lines functions names
    cases x : c.get? file with
    | none =>
      cases y : d.get? file with
      | none => exact .none
      | some y' => simp [x, y] at known
    | some x' =>
      cases y : d.get? file with
      | none => simp [x, y] at known
      | some y' =>
        simp only [x, y, map_some, some.injEq, bind_some, elim_some,
          exists_eq_left'] at totals notes lines functions names
        exact .some ⟨totals, lines, functions, names, notes⟩

end Klever.Core
