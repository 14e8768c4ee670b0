import Klever.Lib.Merge
import Klever.Lib.Run

/-!
# Attributes of reports

Reports of a decision are a tree: components below components, and verdicts (leaves) below components.
Attributes are added to a report when it is created, and to a component that is not finished also later.
`__validate_attrs` refuses names that the report itself or one above has. Verdicts get all attributes from
above, and may repeat them with the same values.

Nothing looks at the reports below. So a name that is added to a component may be there already, with another
value even. This is the only way in which attributes are redefined (`consistent_iff_harmless`).

A report is older than all below it, so reports are kept in a list, the newest first. Validation of other
fields (computers, archives, resources) only refuses more uploads and is left out.
-/

namespace Klever.Bridge.Uploads

open Klever.Lib List Option

structure Attr where
  name : String
  value : String
  compare : Bool
  associate : Bool
  data : Option Nat
  deriving DecidableEq, Repr

inductive LeafKind where
  | reportSafe
  | reportUnsafe
  | reportUnknown
  deriving DecidableEq, Repr

inductive Kind where
  | component (component : String) (verification finished : Bool)
  | leaf (leaf : LeafKind)
  deriving DecidableEq, Repr

namespace Kind

def isComponent : Kind → Bool
  | component .. => true
  | leaf _ => false

def verification : Kind → Bool
  | component _ verification _ => verification
  | leaf _ => false

def finished : Kind → Bool
  | component _ _ finished => finished
  | leaf _ => false

/-- A component that is finished now. -/
def finish : Kind → Kind
  | component name verification _ => component name verification true
  | leaf kind => leaf kind

theorem isComponent_finish (kind : Kind) : kind.finish.isComponent = kind.isComponent := by
  cases kind <;> rfl

end Kind

structure Report where
  identifier : String
  parent : Option String
  kind : Kind
  attrs : List Attr
  deriving DecidableEq, Repr

namespace Report

def isComponent (r : Report) : Bool := r.kind.isComponent

/-- A report is new, and its parent is a component; only the first one has none. -/
def Fits (r : Report) (older : List Report) : Prop :=
  r.identifier ∉ older.map (·.identifier) ∧
    match r.parent with
    | none => older = []
    | some parent => ∃ x ∈ older, x.identifier = parent ∧ x.isComponent

instance (r : Report) (older : List Report) : Decidable (r.Fits older) := by
  unfold Fits
  cases r.parent <;> infer_instance

end Report

/-- All reports are younger than their parents. -/
def Ordered : List Report → Prop
  | [] => True
  | r :: older => r.Fits older ∧ Ordered older

/-- A report and all above it, the Core report last. -/
def lineage : List Report → Option String → List Report
  | _, none => []
  | [], some _ => []
  | r :: older, some identifier =>
    if r.identifier = identifier then r :: lineage older r.parent else lineage older (some identifier)

variable {f : Report → Report} {reports older : List Report} {r a : Report} {id : String} {parent : Option String}

theorem Ordered.nodup (ordered : Ordered reports) : (reports.map (·.identifier)).Nodup := by
  induction reports with
  | nil => exact nodup_nil
  | cons r older ih => exact nodup_cons.mpr ⟨ordered.1.1, ih ordered.2⟩

theorem mem_of_mem_lineage (mem : a ∈ lineage reports parent) : a ∈ reports := by
  induction reports generalizing parent with
  | nil => cases parent <;> cases mem
  | cons r older ih =>
    cases parent with
    | none => cases mem
    | some id =>
      rw [lineage] at mem
      split at mem
      · obtain rfl | mem := mem_cons.mp mem
        · exact mem_cons_self
        · exact mem_cons_of_mem _ (ih mem)
      · exact mem_cons_of_mem _ (ih mem)

/-- A younger report is above none. -/
theorem lineage_cons (fresh : parent ≠ some r.identifier) : lineage (r :: older) parent = lineage older parent := by
  cases parent with
  | none =>
    rw [lineage]
    cases older <;> rfl
  | some id =>
    rw [lineage, if_neg]
    rintro rfl
    exact fresh rfl

theorem Report.Fits.eq_nil (fits : r.Fits older) (is : r.parent = none) : older = [] := by
  have first := fits.2
  rwa [is] at first

theorem Report.Fits.parent_mem (fits : r.Fits older) (is : r.parent = some id) :
    ∃ x ∈ older, x.identifier = id ∧ x.isComponent := by
  have there := fits.2
  rwa [is] at there

/-- Parents are there. -/
theorem Ordered.parent_mem (ordered : Ordered reports) (mem : r ∈ reports) (is : r.parent = some id) :
    ∃ x ∈ reports, x.identifier = id ∧ x.isComponent := by
  induction reports with
  | nil => cases mem
  | cons first older ih =>
    have there : ∃ x ∈ older, x.identifier = id ∧ x.isComponent := by
      obtain rfl | mem := mem_cons.mp mem
      · exact ordered.1.parent_mem is
      · exact ih ordered.2 mem
    obtain ⟨x, mem, is⟩ := there
    exact ⟨x, mem_cons_of_mem _ mem, is⟩

/-- A new report changes no lineage. -/
theorem Ordered.lineage_cons (ordered : Ordered older) (fits : r.Fits older) (mem : a ∈ r :: older) :
    lineage (r :: older) a.parent = lineage older a.parent := by
  refine Uploads.lineage_cons fun same => fits.1 ?_
  have there : ∃ x ∈ older, x.identifier = r.identifier ∧ x.isComponent := by
    obtain rfl | mem := mem_cons.mp mem
    · exact fits.parent_mem same
    · exact ordered.parent_mem mem same
  obtain ⟨x, mem, same, -⟩ := there
  exact List.mem_map.mpr ⟨x, mem, same⟩

/-- No report is above itself. -/
theorem Ordered.lineage_apart (ordered : Ordered reports) (mem : r ∈ reports) (above : a ∈ lineage reports r.parent) :
    a.identifier ≠ r.identifier := by
  induction reports with
  | nil => cases mem
  | cons first older ih =>
    rw [Ordered.lineage_cons ordered.2 ordered.1 mem] at above
    obtain rfl | mem := mem_cons.mp mem
    · intro same
      exact ordered.1.1 (List.mem_map.mpr ⟨a, mem_of_mem_lineage above, same⟩)
    · exact ih ordered.2 mem above

/-- A report and those above its parent. -/
theorem Ordered.lineage_eq (ordered : Ordered reports) (mem : r ∈ reports) :
    lineage reports (some r.identifier) = r :: lineage reports r.parent := by
  induction reports with
  | nil => cases mem
  | cons first older ih =>
    rw [Ordered.lineage_cons ordered.2 ordered.1 mem]
    obtain rfl | mem := mem_cons.mp mem
    · rw [lineage, if_pos rfl]
    · have differs : first.identifier ≠ r.identifier := fun same =>
        ordered.1.1 (List.mem_map.mpr ⟨r, mem, same.symm⟩)
      rw [lineage, if_neg differs, ih ordered.2 mem]

theorem Ordered.eq_of_identifier (ordered : Ordered reports) (mem : r ∈ reports) (mem' : a ∈ reports)
    (same : r.identifier = a.identifier) : r = a :=
  inj_on_of_nodup_map ordered.nodup mem mem' same

/-- Reports change, but not where they are. -/
theorem lineage_map (keeps : ∀ r, (f r).identifier = r.identifier ∧ (f r).parent = r.parent) :
    lineage (reports.map f) parent = (lineage reports parent).map f := by
  induction reports generalizing parent with
  | nil => cases parent <;> rfl
  | cons r older ih =>
    cases parent with
    | none => rfl
    | some id =>
      rw [map_cons, lineage, lineage, (keeps r).1, (keeps r).2]
      split
      · rw [ih, map_cons]
      · exact ih

section Map

variable {f : Report → Report} (same : ∀ r, (f r).identifier = r.identifier)

include same

theorem fresh_map (fresh : r.identifier ∉ older.map (·.identifier)) :
    (f r).identifier ∉ (older.map f).map (·.identifier) := by
  have names : (older.map fun r => (f r).identifier) = older.map (·.identifier) := map_congr_left fun r _ => same r
  rw [same, List.map_map]
  exact names ▸ fresh

theorem Report.Fits.map (component : ∀ r, (f r).isComponent = r.isComponent) (fits : r.Fits older)
    (keeps : (f r).parent = r.parent) : (f r).Fits (older.map f) := by
  refine ⟨fresh_map same fits.1, ?_⟩
  rw [keeps]
  cases is : r.parent with
  | none => exact List.map_eq_nil_iff.mpr (fits.eq_nil is)
  | some id =>
    obtain ⟨x, mem, own, x_component⟩ := fits.parent_mem is
    exact ⟨f x, List.mem_map_of_mem mem, (same x).trans own, (component x).trans x_component⟩

end Map

theorem ordered_map (keeps : ∀ r, (f r).identifier = r.identifier ∧ (f r).parent = r.parent)
    (component : ∀ r, (f r).isComponent = r.isComponent) (ordered : Ordered reports) : Ordered (reports.map f) := by
  induction reports with
  | nil => trivial
  | cons r older ih => exact ⟨ordered.1.map (fun r => (keeps r).1) component (keeps r).2, ih ordered.2⟩

theorem lineage_none (reports : List Report) : lineage reports none = [] := by
  cases reports <;> rfl

section

variable (ordered : Ordered reports) (mem : r ∈ reports)

include ordered mem

/-- The Core report is the oldest one, and it is above all others. -/
theorem Ordered.root :
    ∃ core ∈ lineage reports (some r.identifier), core.parent = none ∧ reports.getLast? = some core := by
  induction reports generalizing r with
  | nil => cases mem
  | cons first older ih =>
    have whole := ordered.lineage_eq mem
    rw [whole, Ordered.lineage_cons ordered.2 ordered.1 mem]
    obtain rfl | mem := mem_cons.mp mem
    · cases is : r.parent with
      | none =>
        obtain rfl := ordered.1.eq_nil is
        exact ⟨r, mem_cons_self, is, rfl⟩
      | some id =>
        obtain ⟨x, mem, rfl, -⟩ := ordered.1.parent_mem is
        obtain ⟨core, above, root, last⟩ := ih ordered.2 mem
        refine ⟨core, mem_cons_of_mem _ above, root, ?_⟩
        rw [getLast?_cons, last]
        rfl
    · obtain ⟨core, above, root, last⟩ := ih ordered.2 mem
      rw [ordered.2.lineage_eq mem] at above
      refine ⟨core, above, root, ?_⟩
      rw [getLast?_cons, last]
      rfl

/-- Nothing is above the Core report. -/
theorem Ordered.lineage_root (root : r.parent = none) : lineage reports (some r.identifier) = [r] := by
  rw [ordered.lineage_eq mem, root, lineage_none]

/-- The Core report is known by its place. -/
theorem Ordered.core {core : Report} (last : reports.getLast? = some core) :
    core ∈ lineage reports (some r.identifier) ∧ core.parent = none := by
  obtain ⟨core', above, root, last'⟩ := ordered.root mem
  cases last.symm.trans last'
  exact ⟨above, root⟩

theorem Ordered.last_root (root : r.parent = none) : reports.getLast? = some r := by
  obtain ⟨core, above, -, last⟩ := ordered.root mem
  rw [ordered.lineage_root mem root, mem_singleton] at above
  rwa [above] at last

end

variable {core : Report} {kept : Report → Bool}

section

variable (up : ∀ r ∈ reports, kept r → ∀ x ∈ reports, r.parent = some x.identifier → kept x)

include up

theorem ordered_filter (ordered : Ordered reports) : Ordered (reports.filter kept) := by
  induction reports with
  | nil => trivial
  | cons r older ih =>
    have later := ih (fun r mem keep x mem' => up r (mem_cons_of_mem _ mem) keep x (mem_cons_of_mem _ mem'))
      ordered.2
    by_cases keep : kept r
    · rw [filter_cons_of_pos keep]
      refine ⟨⟨fun mem => ordered.1.1 ?_, ?_⟩, later⟩
      · obtain ⟨x, mem, same⟩ := List.mem_map.mp mem
        exact List.mem_map.mpr ⟨x, (mem_filter.mp mem).1, same⟩
      · cases is : r.parent with
        | none =>
          rw [ordered.1.eq_nil is]
          rfl
        | some id =>
          obtain ⟨x, mem, rfl, component⟩ := ordered.1.parent_mem is
          have keep' := up r mem_cons_self keep x (mem_cons_of_mem _ mem) is
          exact ⟨x, mem_filter.mpr ⟨mem, keep'⟩, rfl, component⟩
    · rw [filter_cons_of_neg keep]
      exact later

theorem lineage_filter (start : ∀ x ∈ reports, parent = some x.identifier → kept x) :
    lineage (reports.filter kept) parent = lineage reports parent := by
  induction reports generalizing parent with
  | nil => rfl
  | cons r older ih =>
    have later {parent : Option String} (start : ∀ x ∈ older, parent = some x.identifier → kept x) :=
      ih (fun r mem keep x mem' => up r (mem_cons_of_mem _ mem) keep x (mem_cons_of_mem _ mem')) start
    cases parent with
    | none => cases (r :: older).filter kept <;> rfl
    | some id =>
      have rest := later fun x mem => start x (mem_cons_of_mem _ mem)
      by_cases same : r.identifier = id
      · have keep : kept r := start r mem_cons_self (by rw [same])
        rw [filter_cons_of_pos keep, lineage, lineage, if_pos same, if_pos same]
        rw [later fun x mem => up r mem_cons_self keep x (mem_cons_of_mem _ mem)]
      · conv_rhs => rw [lineage, if_neg same]
        by_cases keep : kept r
        · rw [filter_cons_of_pos keep, lineage, if_neg same, rest]
        · rw [filter_cons_of_neg keep, rest]

end

/-- A report is neither the one with an identifier nor below it. -/
def outside (reports : List Report) (identifier : String) (r : Report) : Bool :=
  identifier ∉ (lineage reports (some r.identifier)).map (·.identifier)

theorem Ordered.outside_iff (ordered : Ordered reports) (mem : r ∈ reports) :
    outside reports id r ↔ r.identifier ≠ id ∧ id ∉ (lineage reports r.parent).map (·.identifier) := by
  rw [outside, ordered.lineage_eq mem, decide_eq_true_eq, map_cons, mem_cons, not_or, ne_comm]

theorem Ordered.outside_up (ordered : Ordered reports) : ∀ r ∈ reports, outside reports id r →
    ∀ x ∈ reports, r.parent = some x.identifier → outside reports id x := by
  intro r mem keep x mem' is
  rw [ordered.outside_iff mem, is] at keep
  exact decide_eq_true keep.2

/-- Reports that are moved below the Core report. -/
theorem ordered_reparent (same : ∀ r, (f r).identifier = r.identifier)
    (component : ∀ r, (f r).isComponent = r.isComponent)
    (parents : ∀ r, (f r).parent = r.parent ∨ (r.parent ≠ none ∧ (f r).parent = some core.identifier))
    (last : reports.getLast? = some core) (is : core.isComponent) (ordered : Ordered reports) :
    Ordered (reports.map f) := by
  induction reports with
  | nil => trivial
  | cons r older ih =>
    obtain keeps | ⟨below, moved⟩ := parents r
    · refine ⟨ordered.1.map same component keeps, ?_⟩
      cases older with
      | nil => trivial
      | cons second rest => exact ih last ordered.2
    · cases older with
      | nil =>
        obtain ⟨id, there⟩ := ne_none_iff_exists'.mp below
        obtain ⟨x, mem, -⟩ := ordered.1.parent_mem there
        cases mem
      | cons second rest =>
        refine ⟨⟨fresh_map same ordered.1.1, ?_⟩, ih last ordered.2⟩
        rw [moved]
        exact ⟨f core, List.mem_map_of_mem (mem_of_getLast? last), same core, (component core).trans is⟩

/-- Lineages lose reports at most. -/
theorem mem_lineage_reparent (same : ∀ r, (f r).identifier = r.identifier)
    (parents : ∀ r, (f r).parent = r.parent ∨ (r.parent ≠ none ∧ (f r).parent = some core.identifier))
    (last : reports.getLast? = some core) (ordered : Ordered reports)
    (mem : a ∈ lineage (reports.map f) parent) : ∃ b ∈ lineage reports parent, a = f b := by
  induction reports generalizing parent with
  | nil => cases parent <;> cases mem
  | cons r older ih =>
    cases parent with
    | none => cases mem
    | some id =>
      rw [map_cons, lineage, same] at mem
      rw [lineage]
      have later {parent : Option String} (mem : a ∈ lineage (older.map f) parent) :
          ∃ b ∈ lineage older parent, a = f b := by
        cases older with
        | nil => cases parent <;> cases mem
        | cons second rest => exact ih last ordered.2 mem
      split at mem
      next here =>
        rw [if_pos here]
        obtain rfl | mem := mem_cons.mp mem
        · exact ⟨r, mem_cons_self, rfl⟩
        · obtain ⟨b, above, is⟩ := later mem
          refine ⟨b, mem_cons_of_mem _ ?_, is⟩
          obtain keeps | ⟨below, moved⟩ := parents r
          · rwa [keeps] at above
          · -- the Core report was above before
            obtain ⟨parent, there⟩ := ne_none_iff_exists'.mp below
            obtain ⟨x, mem', rfl, -⟩ := ordered.1.parent_mem there
            obtain ⟨core', above', root, last'⟩ := ordered.2.root mem'
            rw [getLast?_cons, last'] at last
            obtain rfl : core' = core := some.inj last
            rw [moved, ordered.2.lineage_root (mem_of_getLast? last') root] at above
            rwa [there, mem_singleton.mp above]
      next elsewhere =>
        rw [if_neg elsewhere]
        exact later mem

/-! ## Uploads -/

/-- The reports of a decision. -/
structure Tree where
  reports : List Report
  ordered : Ordered reports

inductive Upload where
  | start (identifier : String) (parent : Option String) (component : String) (attrs : List Attr)
  | verification (identifier parent component : String) (attrs : List Attr)
  | patch (identifier : String) (attrs : List Attr)
  | finish (identifier : String) (attrs : List Attr)
  | verificationFinish (identifier : String)
  | leaf (kind : LeafKind) (identifier parent : String) (attrs : List Attr)

def names (attrs : List Attr) : List String := attrs.map (·.name)

/-- `parent_attributes`: attributes of a report and of all above it, those of the Core report first. -/
def parentAttributes (reports : List Report) (parent : Option String) : List Attr :=
  (lineage reports parent).reverse.flatMap (·.attrs)

/-- `__validate_attrs` -/
def validAttrs (reports : List Report) (own : List Attr) (parent : Option String) (allowAttrsRedefine : Bool)
    (attrs : List Attr) : Bool :=
  (names attrs).Nodup ∧ (∀ name ∈ names attrs, name ∉ names own) ∧
    (allowAttrsRedefine ∨ ∀ name ∈ names attrs, name ∉ names (parentAttributes reports parent))

/-- An attribute of a leaf: one from above may be repeated with its value. -/
def mergeAttr (inherited : Option Attr) (attr : Attr) : Option Attr :=
  match inherited with
  | none => some attr
  | some old =>
    if attr.value = old.value then some { old with compare := attr.compare, associate := attr.associate } else none

/-- `merge_attributes` -/
def mergeAttributes (inherited attrs : List Attr) : Option (List Attr) :=
  ((Dict.ofList (inherited.map fun attr => (attr.name, attr))).mergeItemsM mergeAttr
    (attrs.map fun attr => (attr.name, attr))).map Dict.values

namespace Tree

def empty : Tree := ⟨[], trivial⟩

def component? (s : Tree) (identifier : String) : Option Report :=
  s.reports.find? fun r => r.identifier = identifier && r.isComponent

/-- A new report, with a new identifier and a parent that exists. -/
def push (s : Tree) (r : Report) : Option Tree :=
  if fits : r.Fits s.reports then some ⟨r :: s.reports, fits, s.ordered⟩ else none

/-- `SUBJOB_NAME` -/
def subjobName : String := "Subjob"

variable (lightweight : Bool)

/-- A component or a verification report. Subjobs are not for lightweight decisions, and their parent is the
Core report. -/
def create (s : Tree) (identifier : String) (parent : Option String) (component : String)
    (verification : Bool) (attrs : List Attr) : Option Tree :=
  let deep := ((parent.bind s.component?).bind (·.parent)).isSome
  if component = subjobName && (lightweight || (!verification && deep)) then none
  else if validAttrs s.reports [] parent false attrs then
    s.push ⟨identifier, parent, .component component verification false, attrs⟩
  else none

variable (identifier id : String)

/-- A report with more attributes, finished maybe. -/
def updated (attrs : List Attr) (finish : Bool) (r : Report) : Report :=
  if r.identifier = identifier then
    { r with
      kind := if finish then r.kind.finish else r.kind
      attrs := r.attrs ++ attrs }
  else r

theorem updated_keeps (attrs : List Attr) (finish : Bool) (r : Report) :
    (updated id attrs finish r).identifier = r.identifier ∧ (updated id attrs finish r).parent = r.parent := by
  unfold updated
  split
  · exact ⟨rfl, rfl⟩
  · exact ⟨rfl, rfl⟩

theorem updated_isComponent (attrs : List Attr) (finish : Bool) (r : Report) :
    (updated id attrs finish r).isComponent = r.isComponent := by
  unfold updated
  by_cases own : r.identifier = id
  · rw [if_pos own]
    cases finish
    · rfl
    · exact r.kind.isComponent_finish
  · rw [if_neg own]

def update (s : Tree) (identifier : String) (attrs : List Attr) (finish : Bool) : Tree where
  reports := s.reports.map (updated identifier attrs finish)
  ordered := ordered_map (updated_keeps identifier attrs finish) (updated_isComponent identifier attrs finish) s.ordered

/-- Attributes are added to a component that is not finished. -/
def addAttrs (s : Tree) (identifier : String) (attrs : List Attr) (finish : Bool) : Option (Report × Tree) :=
  (s.component? identifier).bind fun r =>
    if !r.kind.finished && validAttrs s.reports r.attrs r.parent false attrs then
      some (r, s.update identifier attrs finish)
    else none

/-- A report is deleted with all below it. -/
def remove (s : Tree) (identifier : String) : Tree where
  reports := s.reports.filter (outside s.reports identifier)
  ordered := ordered_filter s.ordered.outside_up s.ordered

/-- A report that is not the Core report is finished and moved below it. -/
def moved (core : Report) (r : Report) : Report :=
  if r.identifier = identifier ∧ r.parent ≠ none then
    { r with
      kind := r.kind.finish
      parent := some core.identifier }
  else r

theorem moved_identifier (core r : Report) : (moved id core r).identifier = r.identifier := by
  unfold moved
  split <;> rfl

theorem moved_isComponent (core r : Report) : (moved id core r).isComponent = r.isComponent := by
  unfold moved
  by_cases own : r.identifier = id ∧ r.parent ≠ none
  · rw [if_pos own]
    exact r.kind.isComponent_finish
  · rw [if_neg own]

theorem moved_attrs (core r : Report) : (moved id core r).attrs = r.attrs := by
  unfold moved
  split <;> rfl

theorem moved_parent (core r : Report) : (moved id core r).parent = r.parent ∨
    (r.parent ≠ none ∧ (moved id core r).parent = some core.identifier) := by
  unfold moved
  split
  next is => exact .inr ⟨is.2, rfl⟩
  next => exact .inl rfl

/-- Moving a report below the Core report. -/
def move (s : Tree) (identifier : String) : Option Tree :=
  match last : s.reports.getLast? with
  | none => none
  | some core =>
    if component : core.isComponent then
      some ⟨s.reports.map (moved identifier core), ordered_reparent (moved_identifier identifier core)
        (moved_isComponent identifier core) (moved_parent identifier core) last component s.ordered⟩
    else none

/-- A verdict. Safes are below verification reports; an unknown that is not is put below the Core report if the decision is
lightweight. -/
def createLeaf (s : Tree) (kind : LeafKind) (identifier parent : String) (attrs : List Attr) :
    Option Tree :=
  (s.component? parent).bind fun r =>
    if (kind = .reportSafe && !r.kind.verification) || !validAttrs s.reports [] (some parent) true attrs then none
    else (mergeAttributes (parentAttributes s.reports (some parent)) attrs).bind fun merged =>
      let core := (s.reports.getLast?.map (·.identifier)).getD parent
      let parent := if lightweight && kind = .reportUnknown && !r.kind.verification then core else parent
      s.push ⟨identifier, some parent, .leaf kind, merged⟩

/-- `__finish_report_component`: reports of lightweight decisions are deleted, except for the Core report. -/
def finishComponent (s : Tree) (identifier : String) (attrs : List Attr) : Option Tree :=
  (s.addAttrs identifier attrs true).map fun (r, s) =>
    if lightweight && r.parent.isSome then s.remove identifier else s

/-- `__finish_verification_report`: one of a lightweight decision is deleted, or moved if it has verdicts. -/
def finishVerification (s : Tree) (identifier : String) : Option Tree :=
  if ((s.component? identifier).filter (·.kind.verification)).isNone then none
  else if !lightweight then some (s.update identifier [] true)
  else if s.reports.any (·.parent = some identifier) then s.move identifier
  else some (s.remove identifier)

/-- `__upload` -/
def upload (s : Tree) : Upload → Option Tree
  | .start identifier parent component attrs => s.create lightweight identifier parent component false attrs
  | .verification identifier parent component attrs =>
    s.create lightweight identifier (some parent) component true attrs
  | .patch identifier attrs => (s.addAttrs identifier attrs false).map Prod.snd
  | .finish identifier attrs => s.finishComponent lightweight identifier attrs
  | .verificationFinish identifier => s.finishVerification lightweight identifier
  | .leaf kind identifier parent attrs => s.createLeaf lightweight kind identifier parent attrs

def uploadAll (s : Tree) (uploads : List Upload) : Option Tree :=
  uploads.foldlM (upload lightweight) s

end Tree

/-! ## Attributes along branches -/

variable {attrs inherited merged : List Attr}

/-- Attributes above a report: only a verdict has the same names, and then with the same values. -/
def Suits (attrs : List Attr) (r : Report) : Prop :=
  ∀ x ∈ attrs, ∀ y ∈ r.attrs, x.name = y.name → r.isComponent = false ∧ x.value = y.value

/-- Attributes are not redefined along branches. -/
structure Consistent (reports : List Report) : Prop where
  unique : ∀ r ∈ reports, (names r.attrs).Nodup
  above : ∀ r ∈ reports, ∀ a ∈ lineage reports r.parent, Suits a.attrs r

theorem Consistent.tail (consistent : Consistent (r :: older)) (ordered : Ordered (r :: older)) : Consistent older := by
  refine ⟨fun x mem => consistent.unique x (mem_cons_of_mem _ mem), fun x mem a above => ?_⟩
  refine consistent.above x (mem_cons_of_mem _ mem) a ?_
  rwa [Ordered.lineage_cons ordered.2 ordered.1 (mem_cons_of_mem _ mem)]

theorem Consistent.cons (consistent : Consistent older) (ordered : Ordered older) (fits : r.Fits older)
    (unique : (names r.attrs).Nodup) (above : ∀ a ∈ lineage older r.parent, Suits a.attrs r) :
    Consistent (r :: older) := by
  refine ⟨fun x mem => ?_, fun x mem a above' => ?_⟩
  · obtain rfl | mem := mem_cons.mp mem
    · exact unique
    · exact consistent.unique x mem
  · rw [ordered.lineage_cons fits mem] at above'
    obtain rfl | mem := mem_cons.mp mem
    · exact above a above'
    · exact consistent.above x mem a above'

/-- Components on a branch have no names in common. -/
theorem Consistent.lineage_disjoint (consistent : Consistent reports) (ordered : Ordered reports)
    (start : ∀ x ∈ reports, parent = some x.identifier → x.isComponent) :
    (lineage reports parent).Pairwise fun r a => (names r.attrs).Disjoint (names a.attrs) := by
  induction reports generalizing parent with
  | nil => cases parent <;> exact List.Pairwise.nil
  | cons first older ih =>
    have later := @ih
    cases parent with
    | none => exact List.Pairwise.nil
    | some id =>
      rw [lineage]
      split
      next same =>
        have component : first.isComponent := start first mem_cons_self (by rw [same])
        refine pairwise_cons.mpr ⟨fun a above => ?_, later (consistent.tail ordered) ordered.2 fun x mem is => ?_⟩
        · have suits := consistent.above first mem_cons_self a
            (by rwa [Ordered.lineage_cons ordered.2 ordered.1 mem_cons_self])
          refine List.forall_mem_map.mpr fun y mem there => ?_
          obtain ⟨x, mem', same⟩ := List.mem_map.mp there
          have := (suits x mem' y mem same).1
          rw [component] at this
          cases this
        · obtain ⟨y, mem', same, component⟩ := ordered.parent_mem mem_cons_self is
          rwa [ordered.eq_of_identifier (mem_cons_of_mem _ mem) mem' same.symm]
      next =>
        exact later (consistent.tail ordered) ordered.2 fun x mem => start x (mem_cons_of_mem _ mem)

/-- Names that come from above are different. -/
theorem Consistent.parentAttributes_nodup (consistent : Consistent reports) (ordered : Ordered reports)
    (start : ∀ x ∈ reports, parent = some x.identifier → x.isComponent) :
    (names (parentAttributes reports parent)).Nodup := by
  rw [names, parentAttributes, map_flatMap, nodup_flatMap]
  refine ⟨fun a mem => consistent.unique a (mem_of_mem_lineage (mem_reverse.mp mem)), ?_⟩
  rw [pairwise_reverse]
  exact (consistent.lineage_disjoint ordered start).imp List.Disjoint.symm

theorem mem_parentAttributes {x : Attr} : x ∈ parentAttributes reports parent ↔
    ∃ a ∈ lineage reports parent, x ∈ a.attrs := by
  unfold parentAttributes
  simp

/-- What a verdict gets. -/
theorem mergeAttributes_spec (unique : (names inherited).Nodup) (distinct : (names attrs).Nodup)
    (done : mergeAttributes inherited attrs = some merged) : (names merged).Nodup ∧
      ∀ x ∈ inherited, ∀ y ∈ merged, x.name = y.name → x.value = y.value := by
  obtain ⟨d, made, rfl⟩ := map_eq_some_iff.mp done
  let start : Dict String Attr := .ofList (inherited.map fun attr => (attr.name, attr))
  have keys (list : List Attr) : (list.map fun attr => (attr.name, attr)).map Prod.fst = names list := by
    rw [List.map_map]
    rfl
  have before {k : String} {x : Attr} : start.get? k = some x ↔ x ∈ inherited ∧ x.name = k := by
    rw [Dict.get?_ofList (by rwa [keys]), List.mem_map]
    constructor
    · rintro ⟨attr, mem, same⟩
      cases same
      exact ⟨mem, rfl⟩
    · rintro ⟨mem, rfl⟩
      exact ⟨x, mem, rfl⟩
  have after (k : String) := Dict.get?_mergeItemsM (by rwa [keys]) made k
  have added {k : String} {attr : Attr} (found : (attrs.map fun attr => (attr.name, attr)).lookup k = some attr) :
      attr.name = k := by
    have item := (@Dict.mem_items_iff _ _ _ ⟨_, (keys attrs).symm ▸ distinct⟩ k attr).mpr found
    obtain ⟨other, -, same⟩ := List.mem_map.mp item
    cases same
    rfl
  -- names are the keys, and values from above are kept
  have each {k : String} {y : Attr} (found : d.get? k = some y) : y.name = k ∧
      ∀ x, start.get? k = some x → x.value = y.value := by
    rw [after] at found
    cases new : (attrs.map fun attr => (attr.name, attr)).lookup k with
    | none =>
      rw [new, elim_none] at found
      refine ⟨(before.mp found).2, fun x old => ?_⟩
      rw [show start.get? k = some y from found] at old
      cases old
      rfl
    | some attr =>
      rw [new, elim_some] at found
      cases old : start.get? k with
      | none =>
        rw [show (Dict.ofList _).get? k = none from old] at found
        cases found
        exact ⟨added new, fun x is => by cases is⟩
      | some x =>
        rw [show (Dict.ofList _).get? k = some x from old, mergeAttr] at found
        obtain ⟨same, found⟩ := ite_none_right_eq_some.mp found
        cases found
        refine ⟨(before.mp old).2, fun x' is => ?_⟩
        cases is
        rfl
  have names_eq : names d.values = d.keys := by
    rw [names, Dict.values, List.map_map, Dict.keys]
    exact map_congr_left fun item mem => (each (Dict.mem_items_iff.mp mem)).1
  refine ⟨?_, fun x mem y mem' same => ?_⟩
  · rw [names_eq]
    exact d.nodup
  · obtain ⟨k, found⟩ := Dict.mem_values_iff.mp mem'
    have found := each found
    exact found.2 x (before.mpr ⟨mem, same.trans found.1⟩)

/-! ## One upload -/

variable {s s' : Tree} {lightweight finish : Bool} {kind : LeafKind}

theorem push_inv (done : s.push r = some s') : r.Fits s.reports ∧ s'.reports = r :: s.reports := by
  unfold Tree.push at done
  split at done
  next fits =>
    cases done
    exact ⟨fits, rfl⟩
  next => cases done

theorem component?_spec (found : s.component? id = some r) : r ∈ s.reports ∧ r.identifier = id ∧ r.isComponent := by
  have is := find?_some found
  simp only [Bool.and_eq_true, decide_eq_true_eq] at is
  exact ⟨mem_of_find?_eq_some found, is.1, is.2⟩

theorem validAttrs_iff {own : List Attr} {allowed : Bool} :
    validAttrs reports own parent allowed attrs ↔ (names attrs).Nodup ∧ (∀ name ∈ names attrs, name ∉ names own) ∧
      (allowed ∨ ∀ name ∈ names attrs, name ∉ names (parentAttributes reports parent)) := by
  unfold validAttrs
  rw [decide_eq_true_iff]

/-- A new component has no names from above. -/
theorem create_consistent {component : String} {verification : Bool} (consistent : Consistent s.reports)
    (done : s.create lightweight id parent component verification attrs = some s') :
    Consistent s'.reports := by
  unfold Tree.create at done
  dsimp only at done
  obtain ⟨-, done⟩ := ite_none_left_eq_some.mp done
  split at done
  next valid =>
    obtain ⟨fits, is⟩ := push_inv done
    obtain ⟨unique, -, above⟩ := validAttrs_iff.mp valid
    rw [is]
    refine consistent.cons s.ordered fits unique fun a mem x mem' y mem'' same => ?_
    refine absurd (List.mem_map.mpr ⟨x, mem_parentAttributes.mpr ⟨a, mem, mem'⟩, same⟩) ?_
    exact (above.resolve_left (by simp)) y.name (List.mem_map_of_mem mem'')
  next => cases done

/-- A verdict has names from above with their values. -/
theorem createLeaf_consistent {parent : String} (consistent : Consistent s.reports)
    (done : s.createLeaf lightweight kind id parent attrs = some s') : Consistent s'.reports := by
  obtain ⟨r, found, done⟩ := bind_eq_some_iff.mp done
  obtain ⟨mem, rfl, component⟩ := component?_spec found
  obtain ⟨accepted, done⟩ := ite_none_left_eq_some.mp done
  obtain ⟨merged, made, done⟩ := bind_eq_some_iff.mp done
  obtain ⟨fits, is⟩ := push_inv done
  simp only [Bool.or_eq_true, Bool.not_eq_true', not_or, Bool.not_eq_false] at accepted
  have start : ∀ x ∈ s.reports, some r.identifier = some x.identifier → x.isComponent := by
    intro x mem' same
    rwa [← s.ordered.eq_of_identifier mem mem' (some.inj same)]
  obtain ⟨unique, values⟩ := mergeAttributes_spec (consistent.parentAttributes_nodup s.ordered start)
    (validAttrs_iff.mp accepted.2).1 made
  rw [is]
  refine consistent.cons s.ordered fits unique fun a above x mem' y mem'' same => ⟨rfl, ?_⟩
  refine values x (mem_parentAttributes.mpr ⟨a, ?_, mem'⟩) y mem'' same
  -- below the Core report there is less above than below the parent
  split at above
  next =>
    obtain ⟨core, above', root, last⟩ := s.ordered.root mem
    rw [last, map_some, getD_some, s.ordered.lineage_root (mem_of_getLast? last) root] at above
    rwa [mem_singleton.mp above]
  next => exact above

theorem updated_attrs (id : String) (attrs : List Attr) (finish : Bool) (r : Report) :
    (Tree.updated id attrs finish r).attrs = if r.identifier = id then r.attrs ++ attrs else r.attrs := by
  unfold Tree.updated
  split <;> rfl

theorem suits_append {more : List Attr} : Suits (attrs ++ more) r ↔ Suits attrs r ∧ Suits more r := by
  constructor
  · intro suits
    exact ⟨fun x mem => suits x (mem_append_left _ mem), fun x mem => suits x (mem_append_right _ mem)⟩
  · rintro ⟨left, right⟩ x mem
    exact (mem_append.mp mem).elim (left x) (right x)

theorem suits_updated (other : r.identifier ≠ id) {above : List Attr} :
    Suits above (Tree.updated id attrs finish r) ↔ Suits above r := by
  rw [Tree.updated, if_neg other]

/-- More attributes of a component: those below must suit them. -/
theorem update_consistent (consistent : Consistent s.reports) (mem : r ∈ s.reports)
    (valid : validAttrs s.reports r.attrs r.parent false attrs) :
    Consistent (s.update r.identifier attrs finish).reports ↔
      ∀ x ∈ s.reports, r.identifier ∈ (lineage s.reports x.parent).map (·.identifier) → Suits attrs x := by
  have keeps := Tree.updated_keeps r.identifier attrs finish
  have lineages (parent : Option String) : lineage (s.update r.identifier attrs finish).reports parent =
      (lineage s.reports parent).map (Tree.updated r.identifier attrs finish) := lineage_map keeps
  obtain ⟨unique, own, above⟩ := validAttrs_iff.mp valid
  constructor
  · intro after x mem' below
    obtain ⟨a, above, same⟩ := List.mem_map.mp below
    have suits := after.above (Tree.updated r.identifier attrs finish x) (List.mem_map_of_mem mem')
      (Tree.updated r.identifier attrs finish a) (by rw [lineages, (keeps x).2]; exact List.mem_map_of_mem above)
    have other : x.identifier ≠ r.identifier := same ▸ (s.ordered.lineage_apart mem' above).symm
    rw [updated_attrs, if_pos same, suits_updated other, suits_append] at suits
    exact suits.2
  · intro harmless
    refine ⟨fun y mem' => ?_, fun y mem' b above' => ?_⟩
    · obtain ⟨x, was, rfl⟩ := List.mem_map.mp mem'
      rw [updated_attrs]
      split
      next same =>
        obtain rfl := s.ordered.eq_of_identifier was mem same
        rw [names, map_append]
        exact nodup_append'.mpr ⟨consistent.unique x mem, unique, fun name there here => own name here there⟩
      next => exact consistent.unique x was
    · obtain ⟨x, was, rfl⟩ := List.mem_map.mp mem'
      rw [lineages, (keeps x).2] at above'
      obtain ⟨a, upper, rfl⟩ := List.mem_map.mp above'
      have before := consistent.above x was a upper
      by_cases same : x.identifier = r.identifier
      · -- the report itself: its new names are not above
        obtain rfl := s.ordered.eq_of_identifier was mem same
        rw [updated_attrs, if_neg (s.ordered.lineage_apart was upper)]
        intro z mem_z y mem_y names_same
        rw [updated_attrs, if_pos rfl, mem_append] at mem_y
        rw [Tree.updated_isComponent]
        obtain mem_y | mem_y := mem_y
        · exact before z mem_z y mem_y names_same
        · refine absurd (List.mem_map.mpr ⟨z, mem_parentAttributes.mpr ⟨a, upper, mem_z⟩, names_same⟩) ?_
          exact (above.resolve_left (by simp)) y.name (List.mem_map_of_mem mem_y)
      · rw [suits_updated same, updated_attrs]
        split
        next here => exact suits_append.mpr ⟨before, harmless x was (List.mem_map.mpr ⟨a, upper, here⟩)⟩
        next => exact before

/-- Nothing new comes above what stays. -/
theorem remove_consistent (consistent : Consistent s.reports) : Consistent (s.remove id).reports := by
  refine ⟨fun x mem => consistent.unique x (mem_filter.mp mem).1, fun x mem a above => ?_⟩
  obtain ⟨mem, keep⟩ := mem_filter.mp mem
  refine consistent.above x mem a ?_
  rwa [Tree.remove, lineage_filter s.ordered.outside_up fun y mem' is => s.ordered.outside_up x mem keep y mem' is]
    at above

theorem move_consistent (consistent : Consistent s.reports) (done : s.move id = some s') : Consistent s'.reports := by
  unfold Tree.move at done
  split at done
  next => cases done
  next core last =>
    split at done
    next component =>
      cases done
      refine ⟨fun y mem => ?_, fun y mem a above => ?_⟩
      · obtain ⟨x, was, rfl⟩ := List.mem_map.mp mem
        rw [Tree.moved_attrs]
        exact consistent.unique x was
      · obtain ⟨x, was, rfl⟩ := List.mem_map.mp mem
        obtain ⟨b, upper, rfl⟩ := mem_lineage_reparent (Tree.moved_identifier id core)
          (Tree.moved_parent id core) last s.ordered above
        have before : b ∈ lineage s.reports x.parent := by
          obtain keeps | ⟨below, moved⟩ := Tree.moved_parent id core x
          · rwa [keeps] at upper
          · obtain ⟨parent, there⟩ := ne_none_iff_exists'.mp below
            obtain ⟨y, mem', rfl, -⟩ := s.ordered.parent_mem was there
            obtain ⟨above', root⟩ := s.ordered.core mem' last
            rw [moved, s.ordered.lineage_root (mem_of_getLast? last) root] at upper
            rwa [there, mem_singleton.mp upper]
        intro z mem_z y mem_y same
        rw [Tree.moved_attrs] at mem_z mem_y
        rw [Tree.moved_isComponent]
        exact consistent.above x was b before z mem_z y mem_y same
    next => cases done

/-! ## Runs -/

variable {uploads : List Upload}

/-- Attributes suit all reports below the one they are added to. -/
def SuitBelow (s : Tree) (identifier : String) (attrs : List Attr) : Prop :=
  ∀ r ∈ s.reports, identifier ∈ (lineage s.reports r.parent).map (·.identifier) → Suits attrs r

/-- An upload that redefines nothing. A report of a lightweight decision that is not the Core report is deleted
when it finishes. -/
def Harmless (lightweight : Bool) (s : Tree) : Upload → Prop
  | .patch identifier attrs => SuitBelow s identifier attrs
  | .finish identifier attrs => (lightweight ∧ ((s.component? identifier).bind (·.parent)).isSome) ∨
    SuitBelow s identifier attrs
  | _ => True

instance (lightweight : Bool) (s : Tree) : (u : Upload) → Decidable (Harmless lightweight s u)
  | .patch identifier attrs | .finish identifier attrs => by
    unfold Harmless SuitBelow Suits
    infer_instance
  | .start .. | .verification .. | .verificationFinish _ | .leaf .. => isTrue trivial

theorem addAttrs_inv (done : s.addAttrs id attrs finish = some (r, s')) : s.component? id = some r ∧
      validAttrs s.reports r.attrs r.parent false attrs ∧ s' = s.update id attrs finish := by
  obtain ⟨r', found, done⟩ := bind_eq_some_iff.mp done
  split at done
  next accepted =>
    cases done
    rw [Bool.and_eq_true] at accepted
    exact ⟨found, accepted.2, rfl⟩
  next => cases done

/-- Attributes that are added suit those below if and only if nothing is redefined then. -/
theorem addAttrs_consistent (consistent : Consistent s.reports) (done : s.addAttrs id attrs finish = some (r, s')) :
    Consistent s'.reports ↔ SuitBelow s id attrs := by
  obtain ⟨found, valid, rfl⟩ := addAttrs_inv done
  obtain ⟨mem, rfl, -⟩ := component?_spec found
  exact update_consistent consistent mem valid

/-- What is deleted does not matter. -/
theorem remove_update : ((s.update id attrs finish).remove id).reports = (s.remove id).reports := by
  have keeps := Tree.updated_keeps id attrs finish
  have same {r : Report} (mem : r ∈ s.reports) : outside (s.update id attrs finish).reports id
      (Tree.updated id attrs finish r) = outside s.reports id r := by
    unfold outside
    rw [Tree.update, lineage_map keeps, (keeps r).1, List.map_map]
    have names : (lineage s.reports (some r.identifier)).map (fun a => (Tree.updated id attrs finish a).identifier) =
        (lineage s.reports (some r.identifier)).map (·.identifier) :=
      map_congr_left fun a _ => (keeps a).1
    exact congrArg (fun ids => decide (id ∉ ids)) names
  have kept {r : Report} (mem : r ∈ s.reports.filter (outside s.reports id)) :
      Tree.updated id attrs finish r = r := by
    obtain ⟨mem, out⟩ := mem_filter.mp mem
    exact if_neg ((s.ordered.outside_iff mem).mp out).1
  show (s.reports.map (Tree.updated id attrs finish)).filter _ = s.reports.filter _
  have filtered : s.reports.filter (outside (s.update id attrs finish).reports id ∘
      Tree.updated id attrs finish) = s.reports.filter (outside s.reports id) :=
    filter_congr fun r mem => same mem
  rw [List.filter_map, filtered, map_congr_left fun r mem => kept mem, List.map_id']

theorem finishComponent_consistent (consistent : Consistent s.reports)
    (done : s.finishComponent lightweight id attrs = some s') :
    Consistent s'.reports ↔ Harmless lightweight s (.finish id attrs) := by
  obtain ⟨⟨r, s₁⟩, added, rfl⟩ := map_eq_some_iff.mp done
  show _ ↔ (lightweight ∧ ((s.component? id).bind (·.parent)).isSome) ∨ SuitBelow s id attrs
  rw [(addAttrs_inv added).1, bind_some, ← Bool.and_eq_true]
  dsimp only
  split
  next deleted =>
    refine iff_of_true ?_ (.inl deleted)
    rw [(addAttrs_inv added).2.2, remove_update]
    exact remove_consistent consistent
  next kept =>
    rw [addAttrs_consistent consistent added]
    exact ⟨.inr, fun harmless => harmless.resolve_left kept⟩

theorem finishVerification_consistent (consistent : Consistent s.reports)
    (done : s.finishVerification lightweight id = some s') : Consistent s'.reports := by
  unfold Tree.finishVerification at done
  obtain ⟨known, done⟩ := ite_none_left_eq_some.mp done
  split at done
  next =>
    cases done
    obtain ⟨r, found⟩ := ne_none_iff_exists'.mp fun none => known (isNone_iff_eq_none.mpr none)
    obtain ⟨mem, rfl, -⟩ := component?_spec (filter_eq_some_iff.mp found).1
    -- without attributes nothing is redefined
    have valid : validAttrs s.reports r.attrs r.parent false [] := by
      refine validAttrs_iff.mpr ⟨nodup_nil, ?_, .inr ?_⟩
      · exact fun _ mem => absurd mem not_mem_nil
      · exact fun _ mem => absurd mem not_mem_nil
    exact (update_consistent consistent mem valid).mpr fun _ _ _ _ mem => absurd mem not_mem_nil
  next =>
    split at done
    next => exact move_consistent consistent done
    next =>
      cases done
      exact remove_consistent consistent

/-- One upload redefines something if and only if it is not harmless. -/
theorem upload_consistent {u : Upload} (consistent : Consistent s.reports) (done : s.upload lightweight u = some s') :
    Consistent s'.reports ↔ Harmless lightweight s u := by
  cases u with
  | start id parent component attrs => exact iff_of_true (create_consistent consistent done) trivial
  | verification id parent component attrs => exact iff_of_true (create_consistent consistent done) trivial
  | patch id attrs =>
    obtain ⟨⟨r, s₁⟩, added, rfl⟩ := map_eq_some_iff.mp done
    exact addAttrs_consistent consistent added
  | finish id attrs => exact finishComponent_consistent consistent done
  | verificationFinish id => exact iff_of_true (finishVerification_consistent consistent done) trivial
  | leaf kind id parent attrs => exact iff_of_true (createLeaf_consistent consistent done) trivial

theorem empty_consistent : Consistent Tree.empty.reports :=
  ⟨fun _ mem => absurd mem not_mem_nil, fun _ mem => absurd mem not_mem_nil⟩

/-- Attributes are not redefined in any state of a decision if and only if all uploads are harmless. -/
theorem consistent_iff_harmless (done : Tree.empty.uploadAll lightweight uploads = some s) :
    (∀ n t, Tree.empty.uploadAll lightweight (uploads.take n) = some t → Consistent t.reports) ↔
      ∀ n u t, uploads[n]? = some u → Tree.empty.uploadAll lightweight (uploads.take n) = some t →
        Harmless lightweight t u :=
  foldlM_states_iff done trivial empty_consistent (fun _ _ => trivial) fun _ => upload_consistent

/-- The Core report, and a component with an attribute. -/
def started : List Upload :=
  [.start "/" none "Core" [], .start "/EMG" (some "/") "EMG" [⟨"Project", "linux", true, false, none⟩]]

/-- Both reports get other attributes later. -/
def added : List Upload :=
  started ++ [.patch "/" [⟨"Architecture", "x86_64", true, false, none⟩],
    .finish "/EMG" [⟨"Version", "6.1", true, false, none⟩]]

theorem added_consistent : (Tree.empty.uploadAll false added).isSome ∧
    ∀ n t, Tree.empty.uploadAll false (added.take n) = some t → Consistent t.reports := by
  have succeeds : (Tree.empty.uploadAll false added).isSome := by decide +kernel
  have each : ∀ e ∈ added.zipIdx, ∀ t ∈ Tree.empty.uploadAll false (added.take e.2), Harmless false t e.1 := by
    decide +kernel
  obtain ⟨s, done⟩ := isSome_iff_exists.mp succeeds
  refine ⟨succeeds, (consistent_iff_harmless done).mpr fun n u t found reached => ?_⟩
  exact each (u, n) (mk_mem_zipIdx_iff_getElem?.mpr found) t reached

/-- The Core report gets the same attribute with another value later. -/
def redefined : List Upload := started ++ [.patch "/" [⟨"Project", "busybox", true, false, none⟩]]

theorem redefined_inconsistent : ∃ s, Tree.empty.uploadAll false redefined = some s ∧ ¬ Consistent s.reports := by
  have succeeds : (Tree.empty.uploadAll false redefined).isSome := by decide +kernel
  obtain ⟨s, done⟩ := isSome_iff_exists.mp succeeds
  refine ⟨s, done, fun consistent => ?_⟩
  have branch : (Tree.empty.uploadAll false redefined).map (fun s => s.reports.any fun r =>
      (lineage s.reports r.parent).any fun a => a.attrs.any fun x => r.attrs.any fun y =>
        x.name = y.name ∧ x.value ≠ y.value) = some true := by decide +kernel
  rw [done, map_some, some.injEq] at branch
  simp only [List.any_eq_true, decide_eq_true_eq] at branch
  obtain ⟨r, mem, a, above, x, mem_x, y, mem_y, same, differs⟩ := branch
  exact differs (consistent.above r mem a above x mem_x y mem_y same).2

end Klever.Bridge.Uploads
