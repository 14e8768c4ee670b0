import Klever.Bridge.Verdicts

/-!
# Marks and their associations with reports

A mark of an expert is associated with all reports that it matches. Safe, unsafe and unknown reports have tables
of their own, and the code for them is the same but for the following, which is kept in a `Kind`:

* safe marks match by attributes, unsafe marks compare error traces with a threshold, unknown marks search for a
  problem in a description;
* the cache of a report has three numbers of marks and, besides, a verdict and tags (safes), a verdict, a status
  and tags (unsafes) or problems (unknowns).

An association is automatic when it is found, until somebody confirms or rejects it. Automatic associations do not
count while a report has a confirmed one. The flag `associated` says which associations count.

Reports are created and connected in one step here, and operations are executed one after another.
-/

namespace Klever.Bridge.Marks

open Klever.Lib Option

/-! ## Tables -/

/-- `ASSOCIATION_TYPE` -/
inductive AssociationType where
  | dissimilar | unconfirmed | automatic | confirmed
  deriving DecidableEq, Repr

/-- A row of `MarkSafeReport`, `MarkUnsafeReport` or `MarkUnknownReport`. The detail is the result of the comparison
or the problem. Rows are written such that only automatic and confirmed associations are ever marked as
associated. -/
structure Association (D : Type) where
  mark : Nat
  report : Nat
  type : AssociationType
  associated : Bool
  detail : D
  counts : associated = true → type = .automatic ∨ type = .confirmed
  deriving DecidableEq

/-- `ReportSafeCache`, `ReportUnsafeCache` and `ReportUnknownCache` -/
structure Cache (V : Type) where
  marksTotal : Nat
  marksConfirmed : Nat
  marksAutomatic : Nat
  value : V
  deriving DecidableEq

/-- A report with its cache. -/
structure Stored (R V : Type) where
  report : R
  cache : Cache V

/-- The tables for reports of one kind. -/
structure Tables (M R D V : Type) where
  marks : Dict Nat M
  reports : Dict Nat (Stored R V)
  associations : List (Association D)

/-- What depends on the kind of reports. -/
structure Kind (M R D V : Type) where
  /-- What a new mark takes from the report it is created for. -/
  prepare : M → R → Option M
  /-- Whether a mark is associated with a report when the mark is connected, whether they are similar and the detail. -/
  link : M → R → Option (Bool × D)
  /-- The same when the report is connected. -/
  linkReport : M → R → Option (Bool × D)
  /-- Whether a changed mark has to be connected again. -/
  reconnects : M → M → Bool
  /-- Whether the threshold of a mark is changed. -/
  rescales : M → M → Bool
  /-- Whether the result of a comparison reaches the threshold. -/
  reaches : M → D → Bool
  /-- The default of the cache. -/
  initial : V
  /-- The cache of a report from the marks of reports. -/
  summary : List (Nat × M × D) → Nat → V
  /-- The fields that are saved when a mark is changed: of the old and the new mark, the new cache and the stored one. -/
  refreshed : M → M → V → V → V
  /-- Whether population looks at automatic associations only. -/
  onlyAutomatic : Bool
  /-- The cache with one more mark. -/
  populated : V → M → D → V

variable {M R D V : Type}

/-! ## Changes of rows -/

namespace Association

/-- A row for a comparison. -/
def found (mark report : Nat) (similar : Bool) (detail : D) : Association D where
  mark
  report
  type := if similar then .automatic else .dissimilar
  associated := similar
  detail
  counts := fun h => .inl (if_pos h)

variable (row : Association D)

/-- `update(associated=False)` -/
def disable : Association D :=
  { row with associated := false, counts := fun h => Bool.noConfusion h }

/-- `update(associated=True)` where the type is automatic -/
def enable : Association D :=
  if automatic : row.type = .automatic then { row with associated := true, counts := fun _ => .inl automatic } else row

def confirm : Association D :=
  { row with type := .confirmed, associated := true, counts := fun _ => .inr rfl }

def reject : Association D :=
  { row with type := .unconfirmed, associated := false, counts := fun h => Bool.noConfusion h }

/-- The result does not reach the threshold any more. -/
def lose : Association D :=
  { row with type := .dissimilar, associated := false, counts := fun h => Bool.noConfusion h }

/-- The result reaches the threshold again. -/
def regain : Association D :=
  { row with type := .automatic, counts := fun _ => .inl rfl }

end Association

/-- Reports that have a confirmed association. -/
def HasConfirmed (rows : List (Association D)) (report : Nat) : Prop :=
  ∃ row ∈ rows, row.report = report ∧ row.type = .confirmed

instance (rows : List (Association D)) (report : Nat) : Decidable (HasConfirmed rows report) :=
  inferInstanceAs (Decidable (∃ row ∈ rows, row.report = report ∧ row.type = .confirmed))

namespace Tables

variable (t : Tables M R D V)

/-- The reports that a mark is associated with. -/
def linked (mark : Nat) : List Nat :=
  (t.associations.filter (·.mark = mark)).map (·.report)

/-- `__clear_old_associations` -/
def clearOldAssociations (mark : Nat) : List (Association D) :=
  t.associations.filter (·.mark ≠ mark)

/-- The association with a report that a mark matches. The prime report, for which a mark is created, gets a confirmed
one. Automatic associations are not counted if the report has confirmed ones by its cache. -/
def newAssociation (prime : Option Nat) (cache : Cache V) (found : Association D) : Association D :=
  if prime = some found.report ∧ found.associated then found.confirm
  else if cache.marksConfirmed ≠ 0 then found.disable
  else found

variable (K : Kind M R D V)

def newAssociations (t : Tables M R D V) (id : Nat) (mark : M) (prime : Option Nat) :
    List (Association D) :=
  t.reports.items.filterMap fun (report, stored) =>
    (K.link mark stored.report).map fun (similar, detail) =>
      newAssociation prime stored.cache (.found id report similar detail)

/-- `ConnectSafeMark`, `ConnectUnsafeMark`, `ConnectUnknownMark`: the associations afterwards. Other associations of the
prime report do not count any more. -/
def connect (t : Tables M R D V) (id : Nat) (mark : M) (prime : Option Nat) :
    List (Association D) :=
  let rows := t.clearOldAssociations id ++ t.newAssociations K id mark prime
  match prime with
  | none => rows
  | some prime => rows.map fun row =>
    if row.report = prime ∧ row.associated ∧ row.type = .automatic then row.disable else row

/-- `UpdateAssociated`: the associations with a new threshold. -/
def updateAssociated (t : Tables M R D V) (id : Nat) (mark : M) : List (Association D) :=
  let loses (row : Association D) : Bool := row.mark = id ∧ ¬ K.reaches mark row.detail ∧ row.type ≠ .dissimilar
  let regains (row : Association D) : Bool := row.mark = id ∧ K.reaches mark row.detail ∧ row.type = .dissimilar
  let lost := t.associations.map fun row => if loses row then row.lose else row
  let rows := lost.map fun row => if regains row then row.regain else row
  if !t.associations.any loses && !lost.any regains then rows
  else rows.map fun row =>
    if row.report ∈ t.linked id ∧ ¬ HasConfirmed rows row.report ∧ row.associated = false then row.enable else row

/-! ## Caches -/

/-- Associations with their marks. -/
def judged (rows : List (Association D)) : List (Nat × M × D) :=
  rows.filterMap fun row => (t.marks.get? row.mark).map fun mark => (row.report, mark, row.detail)

/-- The cache of a report as `RecalculateSafeCache`, `RecalculateUnsafeCache` and `RecalculateUnknownCache` compute it for some
reports. -/
def recalculated (t : Tables M R D V) (reports : List Nat) (report : Nat) : Cache V :=
  let rows := t.associations.filter fun row =>
    (row.type = .automatic ∨ row.type = .confirmed) ∧ row.report ∈ reports
  let counted := rows.filter (·.associated)
  { marksTotal := counted.countP (·.report = report)
    marksConfirmed := counted.countP fun row => row.report = report ∧ row.type = .confirmed
    marksAutomatic := rows.countP fun row => row.report = report ∧ row.type = .automatic
    value := K.summary (t.judged counted) report }

/-- The cache as `update_all` of `UpdateSafeCachesOnMarkChange`, `UpdateUnsafeCachesOnMarkChange` and
`UpdateUnknownCachesOnMarkChange` computes it. -/
def updated (t : Tables M R D V) (affected : List Nat) (report : Nat) : Cache V :=
  let counted := t.associations.filter fun row => row.report ∈ affected ∧ row.associated
  { marksTotal := counted.countP (·.report = report)
    marksConfirmed := counted.countP fun row => row.report = report ∧ row.type = .confirmed
    marksAutomatic := t.associations.countP fun row =>
      row.report ∈ affected ∧ row.type = .automatic ∧ row.report = report
    value := K.summary (t.judged counted) report }

/-- Saves the caches of some reports. -/
def saveCaches (reports : List Nat) (cache : Nat → Cache V → Cache V) : Tables M R D V :=
  { t with
    reports := t.reports.mapVals fun report stored =>
      if report ∈ reports then { stored with cache := cache report stored.cache } else stored }

def recalculate (t : Tables M R D V) (reports : List Nat) : Tables M R D V :=
  t.saveCaches reports fun report _ => t.recalculated K reports report

def updateAll (t : Tables M R D V) (affected : List Nat) : Tables M R D V :=
  t.saveCaches affected fun report _ => t.updated K affected report

/-- The parts of the caches that a changed mark asks for: `update_tags`, `update_verdicts` and `update_statuses`. -/
def updateFields (t : Tables M R D V) (affected : List Nat) (old new : M) : Tables M R D V :=
  t.saveCaches affected fun report cache =>
    { cache with value := K.refreshed old new (t.updated K affected report).value cache.value }

/-- `UpdateCachesOnMarkPopulate` for the new associations of a mark -/
def updateOnPopulate (t : Tables M R D V) (mark : M) (news : List (Association D)) : Tables M R D V :=
  let affected := news.filter fun row => K.onlyAutomatic → row.type = .automatic
  { t with
    reports := t.reports.mapVals fun report stored =>
      match affected.find? (·.report = report) with
      | none => stored
      | some row =>
        let cache := { stored.cache with marksAutomatic := stored.cache.marksAutomatic + 1 }
        if cache.marksConfirmed = 0 then
          { stored with
            cache := { cache with
              marksTotal := cache.marksTotal + 1
              value := K.populated cache.value mark row.detail } }
        else { stored with cache } }

/-! ## Operations -/

variable (id : Nat)

/-- A key that no mark has. -/
def FreshMark : Prop :=
  t.marks.get? id = none ∧ ∀ row ∈ t.associations, row.mark ≠ id

/-- A key that no report has. -/
def FreshReport : Prop :=
  t.reports.get? id = none ∧ ∀ row ∈ t.associations, row.report ≠ id

instance : Decidable (t.FreshMark id) :=
  haveI : Decidable (t.marks.get? id = none) := decidable_of_iff _ isNone_iff_eq_none
  inferInstanceAs (Decidable (_ ∧ _))

instance : Decidable (t.FreshReport id) :=
  haveI : Decidable (t.reports.get? id = none) := decidable_of_iff _ isNone_iff_eq_none
  inferInstanceAs (Decidable (_ ∧ _))

variable (t : Tables M R D V)

/-- `perform_safe_mark_create`, `perform_unsafe_mark_create`, `perform_unknown_mark_create` -/
def create (id : Nat) (form : M) (prime : Nat) : Option (Tables M R D V) :=
  if t.FreshMark id then do
    let stored ← t.reports.get? prime
    let mark ← K.prepare form stored.report
    let new := t.newAssociations K id mark (some prime)
    let t' : Tables M R D V :=
      { t with marks := t.marks.set id mark, associations := t.connect K id mark (some prime) }
    return t'.updateAll K (t.linked id ++ new.map (·.report))
  else none

/-- `PopulateSafeMarks`, `PopulateUnsafeMarks`, `PopulateUnknownMarks` and uploads of marks, for one mark -/
def populate (id : Nat) (mark : M) : Option (Tables M R D V) :=
  if t.FreshMark id then
    let t' : Tables M R D V := { t with marks := t.marks.set id mark, associations := t.connect K id mark none }
    some (t'.updateOnPopulate K mark (t.newAssociations K id mark none))
  else none

/-- `perform_safe_mark_update`, `perform_unsafe_mark_update`, `perform_unknown_mark_update` -/
def update (id : Nat) (mark : M) : Option (Tables M R D V) := do
  let old ← t.marks.get? id
  let t' : Tables M R D V := { t with marks := t.marks.set id mark }
  if K.reconnects old mark then
    let new := t.newAssociations K id mark none
    let t' : Tables M R D V := { t' with associations := t.connect K id mark none }
    return t'.updateAll K (t.linked id ++ new.map (·.report))
  else if K.rescales old mark then
    let t' : Tables M R D V := { t' with associations := t.updateAssociated K id mark }
    return t'.updateAll K (t.linked id)
  else return t'.updateFields K (t.linked id) old mark

/-- `RemoveSafeMark`, `RemoveUnsafeMark`, `RemoveUnknownMark`. Automatic associations of the reports that have nothing
associated any more are counted again. -/
def remove (id : Nat) : Option (Tables M R D V) := do
  let _ ← t.marks.get? id
  let affected := t.linked id
  let rows := t.clearOldAssociations id
  let t' : Tables M R D V :=
    { t with
      marks := t.marks.erase id
      associations := rows.map fun row =>
        if row.report ∈ affected ∧ ¬ (∃ other ∈ rows, other.report = row.report ∧ other.associated = true) then row.enable
        else row }
  return t'.recalculate K affected

/-- `ConfirmAssociationBase`, for the association at a place of the table -/
def confirm (K : Kind M R D V) (t : Tables M R D V) (place : Nat) : Option (Tables M R D V) := do
  let row ← t.associations[place]?
  if row.type = .dissimilar then none
  else if row.type = .confirmed then return t
  else
    let rows := (t.associations.set place row.confirm).map fun other =>
      if other.report = row.report ∧ other.associated ∧ other.type = .automatic then other.disable else other
    let t' : Tables M R D V := { t with associations := rows }
    return t'.recalculate K [row.report]

/-- `UnconfirmAssociationBase` -/
def unconfirm (place : Nat) : Option (Tables M R D V) := do
  let row ← t.associations[place]?
  if row.type = .dissimilar then none
  else if row.type = .unconfirmed then return t
  else
    let rows := t.associations.set place row.reject
    let rows :=
      if row.type = .confirmed ∧ ¬ HasConfirmed rows row.report then
        rows.map fun other => if other.report = row.report then other.enable else other
      else rows
    let t' : Tables M R D V := { t with associations := rows }
    return t'.recalculate K [row.report]

/-- An uploaded report is connected with marks: `connect_safe_report`, `connect_unsafe_report`,
`connect_unknown_report`. -/
def upload (id : Nat) (report : R) : Option (Tables M R D V) :=
  if t.FreshReport id then
    let new := t.marks.items.filterMap fun (mark, data) =>
      (K.linkReport data report).map fun (similar, detail) => Association.found mark id similar detail
    let t' : Tables M R D V :=
      { t with
        reports := t.reports.set id ⟨report, ⟨0, 0, 0, K.initial⟩⟩
        associations := t.associations ++ new }
    some (t'.recalculate K [id])
  else none

end Tables

/-- The operations on reports of one kind. -/
inductive Operation (M R : Type) where
  | create (id : Nat) (form : M) (prime : Nat)
  | populate (id : Nat) (mark : M)
  | update (id : Nat) (mark : M)
  | remove (id : Nat)
  | confirm (place : Nat)
  | unconfirm (place : Nat)
  | upload (id : Nat) (report : R)

/-- One operation, or nothing if it is refused. -/
def Tables.perform (K : Kind M R D V) (t : Tables M R D V) : Operation M R → Option (Tables M R D V)
  | .create id form prime => t.create K id form prime
  | .populate id mark => t.populate K id mark
  | .update id mark => t.update K id mark
  | .remove id => t.remove K id
  | .confirm place => t.confirm K place
  | .unconfirm place => t.unconfirm K place
  | .upload id report => t.upload K id report

/-! ## Safes -/

/-- Attributes of a report, or those of a mark that are compared. -/
abbrev Attrs := Finset (String × String)

/-- The number of marks for each tag or problem. -/
abbrev Numbers := Multiset String

/-- `__add_tags` and `__sum_tags` -/
def addTags (old : Numbers) (tags : List String) : Numbers := tags.foldl (fun numbers tag => tag ::ₘ numbers) old

structure SafeMark where
  attrs : Attrs
  verdict : MarkSafe
  tags : List String
  deriving DecidableEq

structure SafeReport where
  attrs : Attrs

structure SafeValue where
  verdict : Verdict MarkSafe
  tags : Numbers
  deriving DecidableEq

/-- One more safe mark. -/
def SafeValue.add (old : SafeValue) (mark : SafeMark) : SafeValue :=
  ⟨safeVerdictsSum [old.verdict, .mark mark.verdict], addTags old.tags mark.tags⟩

/-- The marks of a report. -/
def ofReport (report : Nat) (marks : List (Nat × M × D)) : List (M × D) :=
  (marks.filter (·.1 = report)).map Prod.snd

def safes : Kind SafeMark SafeReport Unit SafeValue where
  prepare mark _ := some mark
  link mark report := if mark.attrs ⊆ report.attrs then some (true, ()) else none
  linkReport mark report := if mark.attrs ⊆ report.attrs then some (true, ()) else none
  reconnects old new := old.attrs ≠ new.attrs
  rescales _ _ := false
  reaches _ _ := true
  initial := ⟨.withoutMarks, 0⟩
  summary marks report := (ofReport report marks).foldl (fun value mark => value.add mark.1) ⟨.withoutMarks, 0⟩
  refreshed old new fresh stored :=
    { verdict := if old.verdict ≠ new.verdict then fresh.verdict else stored.verdict
      tags := if old.tags ≠ new.tags then fresh.tags else stored.tags }
  onlyAutomatic := false
  populated value mark _ := value.add mark

/-! ## Unsafes -/

/-- The conversions of error traces to forests. -/
inductive ConvertFunction where
  | relevantCallForests | threadCallForests
  deriving DecidableEq, Repr

/-- What a mark compares: the text of the trace with its regular expression, or forests. A converted trace is stored by
the conversion and the checksum of its forests, so the order and the number of equal forests matter for its identity. -/
inductive Comparison where
  | regexpMatch
  | forests (function : ConvertFunction) (errorTrace : List String)
  deriving DecidableEq

structure UnsafeMark where
  attrs : Attrs
  judgement : Judgement
  tags : List String
  comparison : Comparison
  /-- Marks with forests may have one, too. -/
  regexp : String
  threshold : ℚ
  deriving DecidableEq

/-- An unsafe report with its converted error traces, which are missing if the conversion fails. -/
structure UnsafeReport where
  attrs : Attrs
  text : Option String
  forests : ConvertFunction → Option (List String)

structure UnsafeValue where
  verdict : Verdict MarkUnsafe
  status : Option UnsafeStatus
  tags : Numbers
  deriving DecidableEq

def jaccard (forest1 forest2 : Finset String) : ℚ :=
  let similar := (forest1 ∩ forest2).card
  let res := forest1.card + forest2.card - similar
  if res = 0 then 1 else similar / res

variable (search : String → String → Bool)

/-- The result of a comparison. -/
def UnsafeMark.compareTraces (mark : UnsafeMark) (report : UnsafeReport) : Option ℚ :=
  match mark.comparison with
  | .regexpMatch => report.text.map fun text => if search mark.regexp text then 1 else 0
  | .forests function errorTrace => (report.forests function).map fun forests => jaccard errorTrace.toFinset forests.toFinset

/-- `res > 0 and res >= mark.threshold` -/
def UnsafeMark.reaches (mark : UnsafeMark) (result : ℚ) : Bool := result > 0 ∧ result ≥ mark.threshold

/-- `CompareMark` and `CompareReport` for one mark and one report -/
def UnsafeMark.compare (mark : UnsafeMark) (report : UnsafeReport) : Bool × ℚ :=
  match mark.compareTraces search report with
  | none => (false, 0)
  | some result => (mark.reaches result, result)

/-- Verdicts and tags with one more mark; statuses are collected for all reports together. -/
def UnsafeValue.add (old : Verdict MarkUnsafe × Numbers) (mark : UnsafeMark) : Verdict MarkUnsafe × Numbers :=
  (unsafeVerdictsSum [old.1, .mark mark.judgement.verdict], addTags old.2 mark.tags)

/-- Unsafe marks, where a search for a regular expression in a text is given. -/
def unsafes : Kind UnsafeMark UnsafeReport ℚ UnsafeValue where
  prepare mark report :=
    match mark.comparison with
    | .regexpMatch => some mark
    | .forests function _ => (report.forests function).map fun forests =>
      { mark with comparison := .forests function forests }
  link mark report := if mark.attrs ⊆ report.attrs then some (mark.compare search report) else none
  linkReport mark report := if mark.attrs ⊆ report.attrs then some (mark.compare search report) else none
  reconnects old new := old.attrs ≠ new.attrs ∨ old.comparison ≠ new.comparison ∨ old.regexp ≠ new.regexp
  rescales old new := old.threshold ≠ new.threshold
  reaches := UnsafeMark.reaches
  initial := ⟨.withoutMarks, none, 0⟩
  summary marks report :=
    let sums := (ofReport report marks).foldl (fun value mark => UnsafeValue.add value mark.1) (.withoutMarks, 0)
    let collector := BugStatusCollector.new.addAll (marks.map fun mark => (mark.1, mark.2.1.judgement))
    ⟨sums.1, (collector.result.get? report).join, sums.2⟩
  refreshed old new fresh stored :=
    { verdict := if old.judgement.verdict ≠ new.judgement.verdict then fresh.verdict else stored.verdict
      status := if old.judgement.status ≠ new.judgement.status then fresh.status else stored.status
      tags := if old.tags ≠ new.tags then fresh.tags else stored.tags }
  onlyAutomatic := true
  populated value mark _ :=
    let verdict := unsafeVerdictsSum [value.verdict, .mark mark.judgement.verdict]
    ⟨verdict, BugStatusCollector.sum value.status (mark.judgement.status.map .mark) verdict, addTags value.tags mark.tags⟩

/-! ## Unknowns -/

structure UnknownMark where
  component : String
  attrs : Attrs
  function : String
  problemPattern : String
  isRegexp : Bool
  deriving DecidableEq

/-- An unknown report; its description is missing if it can not be read. -/
structure UnknownReport where
  component : String
  attrs : Attrs
  description : Option String

/-- `MatchUnknown`, where the match of a regular expression is given: the pattern filled with the groups. -/
def matchUnknown (matchDescRegexp : String → String → String → Option String) (mark : UnknownMark)
    (description : String) : Option String :=
  let problem :=
    if mark.isRegexp then matchDescRegexp description mark.function mark.problemPattern
    else if mark.function.toList <:+: description.toList then some mark.problemPattern
    else none
  problem.bind fun problem =>
    if problem.length = 0 then none else if problem.length > 20 then some "Too long!" else some problem

def unknowns (matchDescRegexp : String → String → String → Option String) :
    Kind UnknownMark UnknownReport String Numbers where
  prepare mark report := some { mark with component := report.component }
  link mark report :=
    if report.component = mark.component ∧ mark.attrs ⊆ report.attrs then
      report.description.bind fun description =>
        if description = "" then none
        else (matchUnknown matchDescRegexp mark description).map fun problem => (true, problem)
    else none
  linkReport mark report :=
    if report.component = mark.component ∧ mark.attrs ⊆ report.attrs then
      report.description.bind fun description =>
        (matchUnknown matchDescRegexp mark description).map fun problem => (true, problem)
    else none
  reconnects old new := old.attrs ≠ new.attrs ∨ old.function ≠ new.function ∨
    old.problemPattern ≠ new.problemPattern ∨ old.isRegexp ≠ new.isRegexp
  rescales _ _ := false
  reaches _ _ := true
  initial := 0
  summary marks report := (ofReport report marks).foldl (fun problems mark => mark.2 ::ₘ problems) 0
  refreshed _ _ _ stored := stored
  onlyAutomatic := false
  populated problems _ problem := problem ::ₘ problems

/-! ## The database -/

structure Database where
  safes : Tables SafeMark SafeReport Unit SafeValue
  unsafes : Tables UnsafeMark UnsafeReport ℚ UnsafeValue
  unknowns : Tables UnknownMark UnknownReport String Numbers

inductive Request where
  | safeReport (operation : Operation SafeMark SafeReport)
  | unsafeReport (operation : Operation UnsafeMark UnsafeReport)
  | unknownReport (operation : Operation UnknownMark UnknownReport)

section Perform

variable (search : String → String → Bool) (matchDescRegexp : String → String → String → Option String)

/-- One operation. -/
def Database.perform (db : Database) : Request → Option Database
  | .safeReport op => (db.safes.perform Marks.safes op).map fun safes => { db with safes }
  | .unsafeReport op => (db.unsafes.perform (Marks.unsafes search) op).map fun unsafes => { db with unsafes }
  | .unknownReport op => (db.unknowns.perform (Marks.unknowns matchDescRegexp) op).map fun unknowns => { db with unknowns }

/-- One operation after another. -/
def Database.performAll (db : Database) (requests : List Request) : Option Database :=
  requests.foldlM (Database.perform search matchDescRegexp) db

end Perform

end Klever.Bridge.Marks
