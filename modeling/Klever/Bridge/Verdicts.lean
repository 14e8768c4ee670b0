import Klever.Lib.Dict

/-!
# Verdicts and bug statuses

Marks give verdicts to reports: marks that agree give their verdict, marks that do not are
incompatible. An unsafe report has a bug status, too, that of its marks with the verdict Bug; together
with any other mark these are incompatible.

The status is computed in two ways. `BugStatusCollector.add` is called for the marks of all reports one
after another, and `BugStatusCollector.sum` adds one new mark to a status that is stored. The collector
remembers bugs and conflicts, but not that there has been a mark without a bug, so it does not see a
conflict when such a mark comes first.
-/

namespace Klever.Bridge

open Klever.Lib List Option

/-! ## Verdicts -/

/-- `MARK_SAFE` -/
inductive MarkSafe where
  | uncertainty | incorrectProof | missedTargetBug
  deriving DecidableEq, Repr

/-- `MARK_UNSAFE` -/
inductive MarkUnsafe where
  | uncertainty | bug | targetBug | falsePositive
  deriving DecidableEq, Repr

/-- `SAFE_VERDICTS` and `UNSAFE_VERDICTS`: the verdicts of marks and two more. -/
inductive Verdict (V : Type) where
  | mark (v : V)
  | incompatible
  | withoutMarks
  deriving DecidableEq, Repr

/-- One more verdict. -/
def Verdict.add {V : Type} [DecidableEq V] (result verdict : Verdict V) : Verdict V :=
  if result = .withoutMarks then verdict
  else if verdict = .withoutMarks then result
  else if result ≠ verdict then .incompatible
  else result

/-- The sum of verdicts. -/
def verdictsSum {V : Type} [DecidableEq V] (args : List (Verdict V)) : Verdict V :=
  args.foldl Verdict.add .withoutMarks

def safeVerdictsSum (args : List (Verdict MarkSafe)) : Verdict MarkSafe := verdictsSum args

def unsafeVerdictsSum (args : List (Verdict MarkUnsafe)) : Verdict MarkUnsafe := verdictsSum args

/-! ## Statuses -/

/-- `MARK_STATUS` -/
inductive MarkStatus where
  | unreported | reported | fixed | rejected
  deriving DecidableEq, Repr

/-- `UNSAFE_STATUS` -/
inductive UnsafeStatus where
  | mark (s : MarkStatus)
  | incompatible
  deriving DecidableEq, Repr

/-- What a mark says of an unsafe report. The serializer of marks asks for a status of bugs and drops
that of other marks. -/
structure Judgement where
  verdict : MarkUnsafe
  status : Option MarkStatus
  status_iff : status.isSome ↔ verdict = .bug
  deriving DecidableEq

/-- `BugStatusCollector` -/
structure BugStatusCollector where
  incompatible : List Nat
  statuses : Dict Nat (Option MarkStatus)

namespace BugStatusCollector

def new : BugStatusCollector := ⟨[], .empty⟩

variable (c : BugStatusCollector)

/-- The report has incompatible marks. -/
def conflict (report : Nat) : BugStatusCollector :=
  ⟨report :: c.incompatible, c.statuses.erase report⟩

/-- `add` -/
def add (report : Nat) (verdict : MarkUnsafe) (status : Option MarkStatus) :
    BugStatusCollector :=
  if report ∈ c.incompatible then c
  else if verdict = .bug then
    match c.statuses.get? report with
    | none => { c with statuses := c.statuses.set report status }
    | some old => if old ≠ status then c.conflict report else c
  else if (c.statuses.get? report).isSome then c.conflict report
  else c

/-- `result`: the statuses of the reports that have one; the statuses come after the conflicts. -/
def result : Dict Nat (Option UnsafeStatus) :=
  .ofList (c.incompatible.map (fun report => (report, some UnsafeStatus.incompatible)) ++
    c.statuses.items.map fun item => (item.1, item.2.map .mark))

/-- `sum`: the status with one more mark, where the verdict is that of the report with the mark. -/
def sum (old new : Option UnsafeStatus) (verdict : Verdict MarkUnsafe) : Option UnsafeStatus :=
  match old, new with
  | none, none => none
  | some _, none => some .incompatible
  | none, some new => if verdict = .incompatible then some .incompatible else some new
  | some old, some new => if old = new then some new else some .incompatible

/-- The marks of reports one after another. -/
def addAll (marks : List (Nat × Judgement)) : BugStatusCollector :=
  marks.foldl (fun c mark => c.add mark.1 mark.2.verdict mark.2.status) c

end BugStatusCollector

/-- The status of a report when its marks are collected; a report without a result has none. -/
def collected (report : Nat) (marks : List Judgement) : Option UnsafeStatus :=
  ((BugStatusCollector.new.addAll (marks.map (report, ·))).result.get? report).join

variable (marks : List Judgement)

/-- The verdict and the status of a report to which marks are added one after another. -/
def summed : Verdict MarkUnsafe × Option UnsafeStatus :=
  marks.foldl (fun old mark =>
    let verdict := unsafeVerdictsSum [old.1, .mark mark.verdict]
    (verdict, BugStatusCollector.sum old.2 (mark.status.map .mark) verdict)) (.withoutMarks, none)

/-! ## What the collector knows of one report -/

/-- What is known of a report: no bugs yet, bugs of one status, or a conflict. -/
inductive Known where
  | withoutBugs
  | bugs (status : Option MarkStatus)
  | conflict
  deriving DecidableEq

/-- One more mark of the report. -/
def Known.add : Known → Judgement → Known
  | .withoutBugs, mark => if mark.verdict = .bug then .bugs mark.status else .withoutBugs
  | .bugs status, mark => if mark.verdict = .bug ∧ status = mark.status then .bugs status else .conflict
  | .conflict, _ => .conflict

/-- The status that is reported. -/
def Known.status : Known → Option UnsafeStatus
  | .withoutBugs => none
  | .bugs status => status.map .mark
  | .conflict => some .incompatible

namespace BugStatusCollector

/-- What the collector knows of a report. -/
def known (c : BugStatusCollector) (report : Nat) : Known :=
  if report ∈ c.incompatible then .conflict
  else match c.statuses.get? report with
    | some status => .bugs status
    | none => .withoutBugs

/-- A report with a conflict has no status. -/
def Apart (c : BugStatusCollector) : Prop := ∀ report ∈ c.incompatible, c.statuses.get? report = none

theorem apart_new : new.Apart := fun _ mem => absurd mem not_mem_nil

variable {c : BugStatusCollector}

theorem Apart.conflict (apart : c.Apart) (report : Nat) : (c.conflict report).Apart := by
  intro other mem
  rw [BugStatusCollector.conflict, Dict.get?_erase]
  split
  next => rfl
  next differs => exact apart other ((mem_cons.mp mem).resolve_left differs)

theorem known_conflict (c : BugStatusCollector) (report other : Nat) :
    (c.conflict report).known other = if other = report then .conflict else c.known other := by
  by_cases same : other = report
  · simp [known, conflict, same]
  · simp [known, conflict, same, Dict.get?_erase]

/-- A mark changes what is known of its report and nothing else. -/
theorem add_spec (apart : c.Apart) (report : Nat) (mark : Judgement) : (c.add report mark.verdict mark.status).Apart ∧
      ∀ other, (c.add report mark.verdict mark.status).known other =
        if other = report then (c.known report).add mark else c.known other := by
  -- the mark leaves the collector as it is
  have stays (same : (c.known report).add mark = c.known report) : c.Apart ∧ ∀ other, c.known other =
      if other = report then (c.known report).add mark else c.known other := by
    refine ⟨apart, fun other => ?_⟩
    split
    next here => rw [here, same]
    next => rfl
  -- the mark is in conflict with the others
  have conflicts (is : (c.known report).add mark = .conflict) : (c.conflict report).Apart ∧
      ∀ other, (c.conflict report).known other = if other = report then (c.known report).add mark else c.known other :=
    ⟨apart.conflict report, fun other => by rw [known_conflict, is]⟩
  unfold add
  by_cases bad : report ∈ c.incompatible
  · rw [if_pos bad]
    exact stays (by simp [known, bad, Known.add])
  rw [if_neg bad]
  by_cases bug : mark.verdict = .bug
  · rw [if_pos bug]
    cases found : c.statuses.get? report with
    | none =>
      refine ⟨fun other mem => ?_, fun other => ?_⟩
      · have differs : other ≠ report := fun same => bad (same ▸ mem)
        exact (Dict.get?_set_of_ne _ _ differs).trans (apart other mem)
      · by_cases same : other = report
        · simp [known, same, bad, found, Known.add, bug]
        · simp [known, same, Dict.get?_set]
    | some old =>
      by_cases same : old = mark.status
      · simpa [same] using stays (by simp [known, bad, found, Known.add, bug, same])
      · simpa [same] using conflicts (by simp [known, bad, found, Known.add, same])
  · rw [if_neg bug]
    cases found : c.statuses.get? report with
    | none => simpa using stays (by simp [known, bad, found, Known.add, bug])
    | some old => simpa using conflicts (by simp [known, bad, found, Known.add, bug])

/-- The marks of a report decide what is known of it, in the order in which they come. -/
theorem addAll_spec (apart : c.Apart) (marks : List (Nat × Judgement)) :
    (c.addAll marks).Apart ∧ ∀ report, (c.addAll marks).known report =
      ((marks.filter (·.1 = report)).map Prod.snd).foldl Known.add (c.known report) := by
  induction marks generalizing c with
  | nil => exact ⟨apart, fun _ => rfl⟩
  | cons mark marks ih =>
    obtain ⟨apart', known'⟩ := add_spec apart mark.1 mark.2
    obtain ⟨kept, run⟩ := ih apart'
    refine ⟨kept, fun report => (run report).trans ?_⟩
    rw [known' report]
    by_cases same : mark.1 = report
    · simp [same]
    · have other : ¬ report = mark.1 := fun h => same h.symm
      simp [same, other]

theorem result_get? (apart : c.Apart) (report : Nat) : (c.result.get? report).join = (c.known report).status := by
  have statuses : (Dict.ofList (c.statuses.items.map fun item =>
      (item.1, item.2.map UnsafeStatus.mark))).get? report =
      (c.statuses.get? report).map (Option.map .mark) := by
    ext status
    rw [Dict.get?_ofList (by simpa [Function.comp_def] using c.statuses.nodup)]
    simp only [List.mem_map, Prod.exists, Prod.mk.injEq, map_eq_some_iff, Dict.mem_items_iff]
    constructor
    · rintro ⟨key, old, found, here, is⟩
      exact ⟨old, here ▸ found, is⟩
    · rintro ⟨old, found, is⟩
      exact ⟨report, old, found, rfl, is⟩
  rw [result, Dict.get?_ofList_append, statuses, known]
  by_cases bad : report ∈ c.incompatible
  · rw [apart report bad, if_pos bad, map_none, none_or]
    have key : report ∈ (Dict.ofList (c.incompatible.map fun report =>
        (report, some UnsafeStatus.incompatible))).keys :=
      Dict.mem_keys_ofList.mpr (by simpa [Function.comp_def] using bad)
    obtain ⟨status, found⟩ := Dict.mem_keys_iff.mp key
    obtain ⟨_, -, is⟩ := List.mem_map.mp (Dict.mem_of_get?_ofList found)
    cases is
    rw [found]
    rfl
  · have absent : (Dict.ofList (c.incompatible.map fun report =>
        (report, some UnsafeStatus.incompatible))).get? report = none := by
      refine eq_none_iff_forall_ne_some.mpr fun status found => bad ?_
      obtain ⟨_, mem, is⟩ := List.mem_map.mp (Dict.mem_of_get?_ofList found)
      cases is
      exact mem
    rw [absent, if_neg bad]
    cases c.statuses.get? report <;> rfl

end BugStatusCollector

/-! ## The marks of one report -/

/-- What is known after some marks. -/
def knownOf : Known := marks.foldl Known.add .withoutBugs

theorem knownOf_append (mark : Judgement) : knownOf (marks ++ [mark]) = (knownOf marks).add mark := by
  rw [knownOf, foldl_append]
  rfl

theorem collected_eq (report : Nat) (marks : List Judgement) : collected report marks = (knownOf marks).status := by
  obtain ⟨apart, known⟩ := BugStatusCollector.addAll_spec BugStatusCollector.apart_new
    (marks.map (report, ·))
  rw [collected, BugStatusCollector.result_get? apart, known, knownOf]
  simp [List.filter_map, Function.comp_def, BugStatusCollector.known, BugStatusCollector.new, Dict.get?_empty]

/-- Some mark is a bug. -/
def HasBug : Prop := ∃ mark ∈ marks, mark.verdict = .bug

instance : Decidable (HasBug marks) :=
  inferInstanceAs (Decidable (∃ mark ∈ marks, mark.verdict = .bug))

/-- All bugs have the status. -/
def BugsAre (status : Option MarkStatus) (marks : List Judgement) : Prop :=
  ∀ mark ∈ marks, mark.verdict = .bug → mark.status = status

/-- All marks are bugs. -/
def OnlyBugs : Prop := ∀ mark ∈ marks, mark.verdict = .bug

variable {marks : List Judgement} {mark : Judgement}

theorem hasBug_append : HasBug (marks ++ [mark]) ↔ HasBug marks ∨ mark.verdict = .bug := by
  simp [HasBug, or_and_right, exists_or]

theorem bugsAre_append {status : Option MarkStatus} :
    BugsAre status (marks ++ [mark]) ↔ BugsAre status marks ∧ (mark.verdict = .bug → mark.status = status) := by
  simp [BugsAre, or_imp, forall_and]

theorem onlyBugs_append : OnlyBugs (marks ++ [mark]) ↔ OnlyBugs marks ∧ mark.verdict = .bug := by
  simp [OnlyBugs, or_imp, forall_and]

/-! ### The collector -/

theorem knownOf_eq_withoutBugs : knownOf marks = .withoutBugs ↔ ¬ HasBug marks := by
  induction marks using List.reverseRecOn with
  | nil => simp [knownOf, HasBug]
  | append_singleton marks mark ih =>
    rw [knownOf_append, hasBug_append, not_or, ← ih]
    cases knownOf marks with
    | withoutBugs => simp [Known.add]
    | bugs old =>
      rw [Known.add]
      split <;> simp
    | conflict => simp [Known.add]

theorem bugsAre_of_knownOf {status : Option MarkStatus} (is : knownOf marks = .bugs status) : BugsAre status marks := by
  induction marks using List.reverseRecOn with
  | nil => cases is
  | append_singleton marks mark ih =>
    rw [knownOf_append] at is
    rw [bugsAre_append]
    cases before : knownOf marks with
    | withoutBugs =>
      rw [before, Known.add] at is
      split at is
      · cases is
        exact ⟨fun other mem bug => absurd ⟨other, mem, bug⟩ (knownOf_eq_withoutBugs.mp before), fun _ => rfl⟩
      · cases is
    | bugs old =>
      rw [before, Known.add] at is
      split at is
      next agrees =>
        cases is
        exact ⟨ih before, fun _ => agrees.2.symm⟩
      next => cases is
    | conflict =>
      rw [before] at is
      cases is

/-- Bugs of one status after marks that are no bugs. -/
theorem knownOf_bugs_last {others bugs : List Judgement} {status : Option MarkStatus} (none : ¬ HasBug others)
    (some : HasBug bugs) (only : OnlyBugs bugs) (are : BugsAre status bugs) :
    knownOf (others ++ bugs) = .bugs status := by
  induction bugs using List.reverseRecOn with
  | nil => exact absurd some (by simp [HasBug])
  | append_singleton bugs mark ih =>
    rw [onlyBugs_append] at only
    rw [bugsAre_append] at are
    rw [← append_assoc, knownOf_append]
    by_cases more : HasBug bugs
    · rw [ih more only.1 are.1, Known.add, if_pos ⟨only.2, (are.2 only.2).symm⟩]
    · have first : knownOf (others ++ bugs) = .withoutBugs := by
        refine knownOf_eq_withoutBugs.mpr ?_
        rintro ⟨other, mem, bug⟩
        obtain mem | mem := mem_append.mp mem
        · exact none ⟨other, mem, bug⟩
        · exact more ⟨other, mem, bug⟩
      rw [first, Known.add, if_pos only.2, are.2 only.2]

/-- A mark that is no bug after a bug. -/
theorem knownOf_bugs_first {bugs others : List Judgement} (some : HasBug bugs) (not : ¬ OnlyBugs others) :
    knownOf (bugs ++ others) = .conflict := by
  induction others using List.reverseRecOn with
  | nil => exact absurd (fun _ mem => absurd mem not_mem_nil) not
  | append_singleton others mark ih =>
    rw [← append_assoc, knownOf_append]
    by_cases before : OnlyBugs others
    · have noBug : mark.verdict ≠ .bug := fun bug => not (onlyBugs_append.mpr ⟨before, bug⟩)
      have known : knownOf (bugs ++ others) ≠ .withoutBugs := by
        obtain ⟨mark, mem, bug⟩ := some
        exact fun none => knownOf_eq_withoutBugs.mp none ⟨mark, mem_append_left _ mem, bug⟩
      cases is : knownOf (bugs ++ others) with
      | withoutBugs => exact absurd is known
      | bugs _ => rw [Known.add, if_neg fun agrees => noBug agrees.1]
      | conflict => rfl
    · rw [ih before]
      rfl

/-! ### The sum -/

theorem summed_append (marks : List Judgement) (mark : Judgement) : summed (marks ++ [mark]) =
      (unsafeVerdictsSum [(summed marks).1, .mark mark.verdict],
        BugStatusCollector.sum (summed marks).2 (mark.status.map .mark)
          (unsafeVerdictsSum [(summed marks).1, .mark mark.verdict])) := by
  rw [summed, foldl_append]
  rfl

/-- The sum of two verdicts. -/
theorem verdictsSum_pair {V : Type} [DecidableEq V] (old new : Verdict V) : verdictsSum [old, new] = old.add new := by
  have first : Verdict.withoutMarks.add old = old := if_pos rfl
  rw [verdictsSum, foldl_cons, foldl_cons, foldl_nil, first]

/-- The sum of the verdicts of some marks: a verdict of a mark is that of all. -/
theorem summed_verdict (marks : List Judgement) : ((summed marks).1 = .withoutMarks ↔ marks = []) ∧
      ∀ v, (summed marks).1 = .mark v ↔ marks ≠ [] ∧ ∀ mark ∈ marks, mark.verdict = v := by
  induction marks using List.reverseRecOn with
  | nil => simp [summed]
  | append_singleton marks mark ih =>
    rw [summed_append, unsafeVerdictsSum, verdictsSum_pair]
    cases before : (summed marks).1 with
    | withoutMarks =>
      have none := ih.1.mp before
      simp [Verdict.add, none]
    | incompatible =>
      have differ : ∀ v, ¬ ∀ mark ∈ marks, mark.verdict = v := by
        intro v same
        have some : marks ≠ [] := fun none => by
          rw [ih.1.mpr none] at before
          cases before
        rw [(ih.2 v).mpr ⟨some, same⟩] at before
        cases before
      refine ⟨by simp [Verdict.add], fun v => ?_⟩
      simp only [Verdict.add, reduceCtorEq, if_false, ne_eq, not_false_eq_true, if_true, false_iff, not_and]
      exact fun _ same => differ v fun mark mem => same mark (mem_append_left _ mem)
    | mark old =>
      obtain ⟨some, same⟩ := (ih.2 old).mp before
      obtain ⟨first, mem⟩ := exists_mem_of_ne_nil marks some
      refine ⟨by simp [Verdict.add]; split <;> simp, fun v => ?_⟩
      by_cases agrees : old = mark.verdict
      · simp only [Verdict.add, agrees, reduceCtorEq, if_false, ne_eq, not_true_eq_false, Verdict.mark.injEq]
        refine ⟨fun is => ⟨by simp, fun other mem => ?_⟩, fun all => all.2 mark (by simp)⟩
        obtain mem | mem := mem_append.mp mem
        · rw [same other mem, agrees, is]
        · rw [mem_singleton.mp mem, is]
      · simp only [Verdict.add, agrees, reduceCtorEq, if_false, ne_eq, Verdict.mark.injEq, not_false_eq_true,
          if_true, false_iff, not_and]
        intro _ all
        exact agrees ((same first mem).symm.trans ((all first (mem_append_left _ mem)).trans (all mark (by simp)).symm))

/-- What the sum of the statuses is: none without bugs, a status if there are only bugs of it. -/
theorem summed_status (marks : List Judgement) : ((summed marks).2 = none ↔ ¬ HasBug marks) ∧
      ∀ s, (summed marks).2 = some (.mark s) ↔ HasBug marks ∧ OnlyBugs marks ∧ BugsAre (some s) marks := by
  induction marks using List.reverseRecOn with
  | nil => simp [summed, HasBug]
  | append_singleton marks mark ih =>
    rw [summed_append, hasBug_append, onlyBugs_append]
    simp only [bugsAre_append]
    have has {status : UnsafeStatus} (old : (summed marks).2 = some status) : HasBug marks := by
      by_contra none
      rw [ih.1.mpr none] at old
      cases old
    cases new : mark.status with
    | none =>
      have noBug : mark.verdict ≠ .bug := fun bug => by
        have has := mark.status_iff.mpr bug
        rw [new] at has
        cases has
      cases old : (summed marks).2 with
      | none =>
        have none := ih.1.mp old
        simp [BugStatusCollector.sum, none, noBug]
      | some status => simp [BugStatusCollector.sum, has old, noBug]
    | some status =>
      have bug : mark.verdict = .bug := mark.status_iff.mp (by rw [new]; rfl)
      cases old : (summed marks).2 with
      | none =>
        have without := ih.1.mp old
        rw [unsafeVerdictsSum, verdictsSum_pair]
        -- the verdict of the report tells whether there have been marks
        cases verdict : (summed marks).1 with
        | withoutMarks =>
          have none := (summed_verdict marks).1.mp verdict
          simp [BugStatusCollector.sum, Verdict.add, none, bug, OnlyBugs, BugsAre]
        | incompatible =>
          have not : ¬ OnlyBugs marks := fun only => by
            have none : marks = [] := eq_nil_iff_forall_not_mem.mpr fun mark mem =>
              without ⟨mark, mem, only mark mem⟩
            rw [(summed_verdict marks).1.mpr none] at verdict
            cases verdict
          simp [BugStatusCollector.sum, Verdict.add, bug, not]
        | mark v =>
          obtain ⟨some, same⟩ := ((summed_verdict marks).2 v).mp verdict
          obtain ⟨first, mem⟩ := exists_mem_of_ne_nil marks some
          have other : v ≠ .bug := fun is => without ⟨first, mem, (same first mem).trans is⟩
          have not : ¬ OnlyBugs marks := fun only => without ⟨first, mem, only first mem⟩
          simp [BugStatusCollector.sum, Verdict.add, bug, other, not]
      | some old' =>
        have step : BugStatusCollector.sum (some old') (Option.map UnsafeStatus.mark (some status))
            (unsafeVerdictsSum [(summed marks).1, .mark mark.verdict]) =
              if old' = .mark status then some (.mark status) else some .incompatible := rfl
        rw [step]
        refine ⟨by split <;> simp [has old], fun s => ?_⟩
        have before := ih.2 s
        have bugs := has old
        rw [old, some.injEq] at before
        simp only [bugs, bug, or_true, true_and, and_true, forall_const, some.injEq] at before ⊢
        rw [← and_assoc, ← before]
        by_cases same : old' = .mark status
        · simp [same]
        · simp only [same, if_false, some.injEq, reduceCtorEq, false_iff, not_and]
          exact fun is here => same (is.trans (congrArg _ here.symm))

/-- The sum does not depend on the order of the marks. -/
theorem summed_perm {marks' : List Judgement} (perm : marks'.Perm marks) : (summed marks').2 = (summed marks).2 := by
  have has : HasBug marks' ↔ HasBug marks := by simp only [HasBug, perm.mem_iff]
  have only : OnlyBugs marks' ↔ OnlyBugs marks := by simp only [OnlyBugs, perm.mem_iff]
  have are (s : Option MarkStatus) : BugsAre s marks' ↔ BugsAre s marks := by simp only [BugsAre, perm.mem_iff]
  obtain ⟨none', status'⟩ := summed_status marks'
  obtain ⟨none, status⟩ := summed_status marks
  rw [has, ← none] at none'
  simp only [has, only, are, ← status] at status'
  cases old : (summed marks).2 with
  | none => exact none'.mpr old
  | some s =>
    cases s with
    | mark s => exact (status' s).mpr old
    | incompatible =>
      cases new : (summed marks').2 with
      | none =>
        rw [none'.mp new] at old
        cases old
      | some s =>
        cases s with
        | mark s =>
          rw [(status' s).mp new] at old
          cases old
        | incompatible => rfl

/-- Some marks are bugs, all of one status, and some are not: the collector may not see the conflict. -/
def Overlooked (marks : List Judgement) : Prop :=
  HasBug marks ∧ ¬ OnlyBugs marks ∧ ∃ status, BugsAre status marks

theorem Overlooked.perm {marks' : List Judgement} (perm : marks'.Perm marks) :
    Overlooked marks' ↔ Overlooked marks := by
  simp only [Overlooked, HasBug, OnlyBugs, BugsAre, perm.mem_iff]

theorem collected_eq_summed (seen : ¬ Overlooked marks) (report : Nat) : collected report marks = (summed marks).2 := by
  rw [collected_eq]
  obtain ⟨none, status⟩ := summed_status marks
  by_cases has : HasBug marks
  · by_cases are : ∃ s, BugsAre s marks
    · have only : OnlyBugs marks := by
        by_contra mixed
        exact seen ⟨has, mixed, are⟩
      obtain ⟨s, are⟩ := are
      -- the status is that of a bug, so there is one
      obtain ⟨mark, mem, bug⟩ := has
      have some := mark.status_iff.mpr bug
      rw [are mark mem bug] at some
      obtain ⟨s, rfl⟩ := isSome_iff_exists.mp some
      have known := @knownOf_bugs_last [] _ _ (by simp [HasBug]) ⟨mark, mem, bug⟩ only are
      rw [nil_append] at known
      rw [known, (status s).mpr ⟨⟨mark, mem, bug⟩, only, are⟩]
      rfl
    · have known : knownOf marks = .conflict := by
        cases is : knownOf marks with
        | withoutBugs => exact absurd has (knownOf_eq_withoutBugs.mp is)
        | bugs s => exact absurd ⟨s, bugsAre_of_knownOf is⟩ are
        | conflict => rfl
      rw [known]
      cases is : (summed marks).2 with
      | none => exact absurd has (none.mp is)
      | some s =>
        cases s with
        | mark s => exact absurd ⟨_, ((status s).mp is).2.2⟩ are
        | incompatible => rfl
  · rw [knownOf_eq_withoutBugs.mpr has, none.mpr has]
    rfl

/-- Bugs before the other marks and after them. -/
theorem exists_perm_ne (overlooked : Overlooked marks) (report : Nat) :
    ∃ first last, first.Perm marks ∧ last.Perm marks ∧ collected report first ≠ collected report last := by
  obtain ⟨⟨mark, mem, bug⟩, mixed, status, are⟩ := overlooked
  let isBug (mark : Judgement) : Bool := decide (mark.verdict = .bug)
  have perm : (marks.filter isBug ++ marks.filter fun mark => !isBug mark).Perm marks :=
    filter_append_perm isBug marks
  have bugs : HasBug (marks.filter isBug) :=
    ⟨mark, mem_filter.mpr ⟨mem, decide_eq_true bug⟩, bug⟩
  have others : ¬ HasBug (marks.filter fun mark => !isBug mark) := by
    rintro ⟨other, mem, bug⟩
    have not := (mem_filter.mp mem).2
    simp [isBug, bug] at not
  have only : OnlyBugs (marks.filter isBug) := fun other mem =>
    of_decide_eq_true (mem_filter.mp mem).2
  have left : ¬ OnlyBugs (marks.filter fun mark => !isBug mark) := fun all => mixed fun other mem => by
    by_contra noBug
    exact noBug (all other (mem_filter.mpr ⟨mem, by simp [isBug, noBug]⟩))
  refine ⟨_, _, perm, perm_append_comm.trans perm, ?_⟩
  rw [collected_eq, collected_eq, knownOf_bugs_first bugs left,
    knownOf_bugs_last others bugs only fun other mem => are other (mem_filter.mp mem).1]
  cases status <;> simp [Known.status]

/-- The collector gives one status in every order of the marks, that of the sum, unless it may overlook
a conflict: some marks of the report are no bugs and the others are bugs of one status. -/
theorem collected_order_iff (report : Nat) (marks : List Judgement) :
    ((∀ marks' : List Judgement, marks'.Perm marks → collected report marks' = collected report marks) ∧
      collected report marks = (summed marks).2) ↔
    (¬ HasBug marks ∨ OnlyBugs marks ∨ ∃ mark ∈ marks, ∃ mark' ∈ marks, mark.verdict = .bug ∧ mark'.verdict = .bug ∧
        mark.status ≠ mark'.status) := by
  have seen : (¬ HasBug marks ∨ OnlyBugs marks ∨ ∃ mark ∈ marks, ∃ mark' ∈ marks, mark.verdict = .bug ∧
      mark'.verdict = .bug ∧ mark.status ≠ mark'.status) ↔ ¬ Overlooked marks := by
    refine ⟨?_, fun seen => ?_⟩
    · rintro (none | only | ⟨mark, mem, mark', mem', bug, bug', differ⟩) ⟨has, mixed, status, are⟩
      · exact none has
      · exact mixed only
      · exact differ ((are mark mem bug).trans (are mark' mem' bug').symm)
    · by_contra bad
      simp only [not_or, not_not, not_exists, not_and] at bad
      obtain ⟨⟨mark, mem, bug⟩, mixed, same⟩ := bad
      exact seen ⟨⟨mark, mem, bug⟩, mixed, mark.status, fun other mem' bug' =>
        same other mem' mark mem bug' bug⟩
  rw [seen]
  refine ⟨fun ⟨order, _⟩ overlooked => ?_, fun seen => ⟨fun marks' perm => ?_, ?_⟩⟩
  · obtain ⟨first, last, isFirst, isLast, differ⟩ := exists_perm_ne overlooked report
    exact differ ((order first isFirst).trans (order last isLast).symm)
  · rw [collected_eq_summed (mt (Overlooked.perm perm).mp seen), collected_eq_summed seen, summed_perm perm]
  · exact collected_eq_summed seen report

/-- A false positive and an unreported bug: the status of the bug in this order, incompatible marks in
the other one and in the sum. -/
theorem collected_falsePositive_first : let falsePositive : Judgement := ⟨.falsePositive, none, by decide⟩
    let bug : Judgement := ⟨.bug, some .unreported, by decide⟩
    collected 1 [falsePositive, bug] = some (.mark .unreported) ∧
      collected 1 [bug, falsePositive] = some .incompatible ∧
      (summed [falsePositive, bug]).2 = some .incompatible := by
  decide

end Klever.Bridge
