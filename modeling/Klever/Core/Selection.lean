import Klever.Lib.Dict

/-!
# Selections by a configuration

Core chooses requirement specifications by patterns, and ideal verdicts by attributes. Both choices go through a list until
something suits, so what is found depends on the rest of the list: a pattern is "not matched" if earlier ones match the same
identifiers, and a comment makes an ideal verdict look more specific.
-/

namespace Klever.Core.Selection

open Klever.Lib List

/-! ## Requirement specifications -/

/-- A description in the tree of requirement specifications. -/
inductive ReqSpecDesc where
  | mk (identifier template : Option String) (children : Option (List ReqSpecDesc))

mutual

/-- Identifiers and templates of the leaves of a description. -/
def getReqSpecDesc (tmplDescs : List String) (curReqId : String) (parentTmplId : Option String) :
    ReqSpecDesc → Option (List (String × String))
  | .mk identifier template children => do
    let nextReqId := (if curReqId = "" then "" else curReqId ++ ":") ++ (← identifier)
    guard (∀ tmplId ∈ template, tmplId ≠ "" → tmplId ∈ tmplDescs)
    let curTmplId := template.or parentTmplId
    match children with
    | some children => getReqSpecDescs tmplDescs nextReqId curTmplId children
    | none =>
      guard (curTmplId ≠ some "")
      return [(nextReqId, ← curTmplId)]

/-- `get_req_spec_descs` for a list of children -/
def getReqSpecDescs (tmplDescs : List String) (curReqId : String) (parentTmplId : Option String) :
    List ReqSpecDesc → Option (List (String × String))
  | [] => some []
  | desc :: descs => do
    let first ← getReqSpecDesc tmplDescs curReqId parentTmplId desc
    return first ++ (← getReqSpecDescs tmplDescs curReqId parentTmplId descs)

end

/-- The root of the tree. -/
structure Root where
  template : Option String
  children : Option (List ReqSpecDesc)

/-- All requirement specifications with their templates. -/
def Root.reqSpecDescs (tmplDescs : List String) (root : Root) : Option (Dict String String) := do
  guard (∀ tmplId ∈ root.template, tmplId ≠ "" → tmplId ∈ tmplDescs)
  return .ofList (← getReqSpecDescs tmplDescs "" root.template (← root.children))

/-- A search for `^a|...|z$` where the texts that the alternatives match are given: only the first one is bound to the start,
and only the last one is bound to the end or to the last newline. -/
def search (alternatives : List (List Char → Bool)) (text : List Char) : Bool :=
  alternatives.zipIdx.any fun (suits, i) => text.tails.any fun rest => rest.inits.any fun part =>
    suits part && (i ≠ 0 || rest.length = text.length) &&
      (i + 1 ≠ alternatives.length || rest.drop part.length ∈ [[], ['\n']])

/-- Top-level alternatives of patterns. -/
abbrev Patterns := String → List (List Char → Bool)

section

variable (meaning : Patterns) (descs : Dict String String) (patterns : List String)

/-- The first pattern that is found in an identifier. -/
def firstPattern (id : String) : Option String := patterns.find? fun pattern => search (meaning pattern) id.toList

/-- The identifiers of requirement specifications to be checked. -/
def checkReqSpecIds : List String :=
  (descs.keys.filter fun id => (firstPattern meaning patterns id).isSome).mergeSort (· ≤ ·)

/-- The patterns that are reported as not matched. -/
def unmatched : List String := patterns.filter (· ∉ descs.keys.filterMap (firstPattern meaning patterns))

/-- A pattern matches the whole identifier. -/
def Suits (pattern id : String) : Prop := ∃ suits ∈ meaning pattern, suits id.toList

/-- Each pattern selects the specifications that it matches, whatever the other patterns are. -/
structure Resolved : Prop where
  nodup : (checkReqSpecIds meaning descs patterns).Nodup
  selected (id : String) : id ∈ checkReqSpecIds meaning descs patterns ↔
    id ∈ descs.keys ∧ ∃ pattern ∈ patterns, Suits meaning pattern id
  reported : ∀ pattern ∈ patterns, pattern ∈ unmatched meaning descs patterns ↔ ∀ id ∈ descs.keys, ¬ Suits meaning pattern id

/-- The search finds the specifications that patterns match, and the patterns that match something are found in an
identifier before all others. -/
def Apart : Prop :=
  (∀ id ∈ descs.keys, (∃ pattern ∈ patterns, search (meaning pattern) id.toList) ↔
    ∃ pattern ∈ patterns, Suits meaning pattern id) ∧
  ∀ pattern ∈ patterns, (∃ id ∈ descs.keys, firstPattern meaning patterns id = some pattern) ↔
    ∃ id ∈ descs.keys, Suits meaning pattern id

theorem resolved_iff : Resolved meaning descs patterns ↔ Apart meaning descs patterns := by
  have found (id : String) : (firstPattern meaning patterns id).isSome ↔
      ∃ pattern ∈ patterns, search (meaning pattern) id.toList := by
    rw [firstPattern, find?_isSome]
  have reported (pattern : String) (mem : pattern ∈ patterns) : pattern ∈ unmatched meaning descs patterns ↔
      ¬ ∃ id ∈ descs.keys, firstPattern meaning patterns id = some pattern := by
    rw [unmatched, mem_filter, decide_eq_true_eq, mem_filterMap]
    exact and_iff_right mem
  have selected (id : String) : id ∈ checkReqSpecIds meaning descs patterns ↔
      id ∈ descs.keys ∧ ∃ pattern ∈ patterns, search (meaning pattern) id.toList := by
    rw [checkReqSpecIds, mem_mergeSort, mem_filter, found]
  constructor
  · intro resolved
    refine ⟨fun id mem => ?_, fun pattern mem => ?_⟩
    · have same := (selected id).symm.trans (resolved.selected id)
      exact ⟨fun found => (same.mp ⟨mem, found⟩).2, fun suits => (same.mpr ⟨mem, suits⟩).2⟩
    · rw [← not_iff_not, ← reported pattern mem, resolved.reported pattern mem, not_exists]
      simp only [not_and]
  · rintro ⟨finds, first⟩
    refine ⟨(mergeSort_perm ..).nodup_iff.mpr (descs.nodup.filter _), fun id => ?_, fun pattern mem => ?_⟩
    · rw [selected]
      exact and_congr_right fun mem => finds id mem
    · rw [reported pattern mem, first pattern mem, not_exists]
      simp only [not_and]

/-- The patterns are resolved independently if and only if they are apart, for every tree. -/
theorem patterns_resolved_iff (tmplDescs : List String) (root : Root) :
    (∀ descs ∈ root.reqSpecDescs tmplDescs, Resolved meaning descs patterns) ↔
      ∀ descs ∈ root.reqSpecDescs tmplDescs, Apart meaning descs patterns :=
  forall₂_congr fun descs _ => resolved_iff meaning descs patterns

end

/-- Two patterns for the only requirement specification; the second one is reported as not matched. -/
theorem repeated_unmatched : ¬ ∀ descs ∈ Root.reqSpecDescs ["t"] ⟨some "t", some [.mk (some "a") none none]⟩,
    Resolved (fun _ => [(· = ['a'])]) descs ["a", "[a]"] := by
  intro resolved
  have reported := ((resolved _ rfl).reported "[a]" (by decide)).mp (by decide +kernel)
  exact reported "a" (by decide) ⟨_, mem_singleton_self _, rfl⟩

/-! ## Ideal verdicts -/

/-- A value of an attribute: either an identifier or a list of them. -/
inductive IdealAttr where
  | one (value : String)
  | several (values : List String)
  deriving DecidableEq

/-- A description of ideal verdicts. -/
structure IdealVerdict where
  programFragments : Option IdealAttr
  requirementsSpecification : Option IdealAttr
  environmentModel : Option IdealAttr
  idealVerdict : String
  comment : Option String
  deriving DecidableEq

structure VerificationStatus where
  programFragmentId : String
  reqSpecId : String
  environmentModel : Option String

/-- `match_attr` -/
def matchAttr (attr : Option String) : IdealAttr → Bool
  | .one value => value ≠ "" ∧ attr = some value
  | .several values => attr.any (· ∈ values)

namespace IdealVerdict

def agrees (status : VerificationStatus) (verdict : IdealVerdict) : Bool :=
  verdict.programFragments.all (matchAttr (some status.programFragmentId)) &&
    verdict.requirementsSpecification.all (matchAttr (some status.reqSpecId)) &&
    verdict.environmentModel.all (matchAttr status.environmentModel)

/-- The number of identifying attributes. -/
def fixed (verdict : IdealVerdict) : Nat :=
  [verdict.programFragments, verdict.requirementsSpecification, verdict.environmentModel].countP (·.isSome)

/-- The number of keys. -/
def size (verdict : IdealVerdict) : Nat := verdict.fixed + 1 + verdict.comment.toList.length

end IdealVerdict

open IdealVerdict

/-- The order in which descriptions are tried: those with more keys go first. -/
def before (x y : IdealVerdict) : Bool := y.size ≤ x.size

/-- `__match_ideal_verdict`, up to the description that is returned. -/
def matchIdealVerdict (status : VerificationStatus) (verdicts : List IdealVerdict) : Option IdealVerdict :=
  (verdicts.mergeSort before).find? (agrees status)

section

variable (status : VerificationStatus) (verdicts : List IdealVerdict)

/-- An agreeing description that no other one exceeds. -/
def Greatest (measure : IdealVerdict → Nat) (x : IdealVerdict) : Prop :=
  x ∈ verdicts ∧ agrees status x ∧ ∀ y ∈ verdicts, agrees status y → measure y ≤ measure x

/-- In any order of the list, a most specific description is found if some agrees. -/
def MostSpecific : Prop :=
  ∀ order, order.Perm verdicts →
    (∀ x, matchIdealVerdict status order = some x → Greatest status verdicts fixed x) ∧
      (matchIdealVerdict status order = none ↔ ∀ x ∈ verdicts, ¬ agrees status x)

variable {status verdicts} {order : List IdealVerdict} {x : IdealVerdict}

theorem before_trans (x y z : IdealVerdict) (xy : before x y) (yz : before y z) : before x z := by
  rw [before, decide_eq_true_eq] at xy yz ⊢
  exact yz.trans xy

theorem before_total (x y : IdealVerdict) : before x y || before y x := by
  rw [before, before, Bool.or_eq_true, decide_eq_true_eq, decide_eq_true_eq]
  exact Nat.le_total ..

theorem Greatest.perm {measure : IdealVerdict → Nat} (perm : order.Perm verdicts)
    (greatest : Greatest status order measure x) : Greatest status verdicts measure x :=
  ⟨perm.mem_iff.mp greatest.1, greatest.2.1, fun y mem => greatest.2.2 y (perm.mem_iff.mpr mem)⟩

/-- What is found has most keys of the descriptions that agree. -/
theorem greatest_size (found : matchIdealVerdict status verdicts = some x) : Greatest status verdicts size x := by
  obtain ⟨agree, front, back, is, others⟩ := find?_eq_some_iff_append.mp found
  refine ⟨mem_mergeSort.mp (mem_of_find?_eq_some found), agree, fun y mem agree' => ?_⟩
  have sorted := pairwise_mergeSort before_trans before_total verdicts
  rw [is] at sorted
  rw [← mem_mergeSort, is] at mem
  obtain mem | mem := mem_append.mp mem
  · have not := others y mem
    rw [agree'] at not
    cases not
  · obtain rfl | mem := mem_cons.mp mem
    · exact le_rfl
    · exact of_decide_eq_true (rel_of_pairwise_cons (pairwise_append.mp sorted).2.1 mem)

/-- Among the descriptions with most keys, the first one is found. -/
theorem matchIdealVerdict_cons (greatest : Greatest status (x :: verdicts) size x) :
    matchIdealVerdict status (x :: verdicts) = some x := by
  obtain ⟨front, back, is, rest, earlier⟩ := mergeSort_cons before_trans before_total x verdicts
  rw [matchIdealVerdict, is, find?_eq_some_iff_append]
  refine ⟨greatest.2.1, front, back, rfl, fun y mem => ?_⟩
  have mem' : y ∈ verdicts := mem_mergeSort.mp (rest ▸ mem_append_left _ mem)
  have more := earlier y mem
  by_contra agree
  rw [Bool.not_eq_true, Bool.not_eq_false'] at agree
  rw [before, decide_eq_true (greatest.2.2 y (mem_cons_of_mem _ mem') agree)] at more
  cases more

/-- The most specific description is found if and only if those with most keys are the most specific ones. -/
theorem mostSpecific_iff : MostSpecific status verdicts ↔
    ∀ x, Greatest status verdicts size x → Greatest status verdicts fixed x := by
  constructor
  · intro specific x greatest
    have perm := perm_cons_erase greatest.1
    exact (specific _ perm.symm).1 x (matchIdealVerdict_cons (greatest.perm perm))
  · intro specific order perm
    refine ⟨fun x found => specific x ((greatest_size found).perm perm), ?_⟩
    rw [matchIdealVerdict, find?_eq_none]
    simp only [mem_mergeSort, perm.mem_iff]

end

/-- A description for a requirement specification with a comment goes first. -/
def commented : List IdealVerdict :=
  [⟨none, some (.one "r"), none, "safe", some "no bugs"⟩, ⟨some (.one "f"), some (.one "r"), none, "unsafe", none⟩]

theorem commented_less_specific : ¬ MostSpecific ⟨"f", "r", none⟩ commented := by
  intro specific
  have found := matchIdealVerdict_cons (show Greatest ⟨"f", "r", none⟩ commented size _ from
    ⟨mem_cons_self, by decide, by decide⟩)
  have greatest := ((specific commented .rfl).1 _ found).2.2 _ (mem_cons_of_mem _ mem_cons_self)
  exact absurd (greatest (by decide)) (by decide)

end Klever.Core.Selection
