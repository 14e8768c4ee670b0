import Klever.Bridge.Service

/-!
# The end of a decision

A scheduler asks to finish a decision as solved or failed. `FinishDecision` looks at reports and at the progress first,
and at tasks while it removes them; each refusal makes the decision corrupted. The query for unfinished tasks names the
status of pending tasks and its label instead of the status of processing tasks, so a decision may become solved while
its tasks are being processed.
-/

namespace Klever.Bridge.Finish

open Klever.Lib Service List Option
open Access (DecisionStatus)

/-- A component report as the end of a decision sees it: `finished` says that there is a finish date. -/
structure ReportComponent where
  identifier : String
  parent : Option Nat
  component : String
  finished : Bool
  deriving DecidableEq, Repr

structure ReportUnknown where
  parent : Nat
  component : String
  deriving DecidableEq, Repr

/-- Progress of tasks (`solved_ts` and so on) or of sub-jobs (`solved_sj` and so on). -/
structure Progress where
  started : Bool
  finished : Bool
  total : Option Nat
  solved : Option Nat
  failed : Option Nat
  deriving DecidableEq, Repr

/-- A decision with all that is related to it. -/
structure Solving extends Decision where
  identifier : String
  reports : Dict Nat ReportComponent
  unknowns : List ReportUnknown
  tasksProgress : Progress
  subJobsProgress : Progress

/-- One half of `__check_progress`: the numbers must be there and add up. Sub-jobs have a message of their own. -/
def Progress.check (progress : Progress) (missing incorrect : String) : Except String Unit :=
  if !progress.started then .ok ()
  else match progress.solved, progress.failed, progress.total with
    | some solved, some failed, some total =>
      if !progress.finished then .error missing
      else if solved + failed ≠ total then .error incorrect
      else .ok ()
    | _, _, _ => .error missing

namespace Solving

variable (solving : Solving)

/-- Identifiers of reports without a finish date. -/
def unfinishedReports : List String :=
  (solving.reports.values.filter fun report => !report.finished).map (·.identifier)

/-- The reports without parents. -/
def roots : List (Nat × ReportComponent) :=
  solving.reports.items.filter fun (_, report) => report.parent = none

/-- Unknowns that belong to a Core report: its own ones, not those of other components. -/
def coreUnknowns (id : Nat) (core : ReportComponent) : List ReportUnknown :=
  solving.unknowns.filter fun unknown => unknown.parent = id ∧ unknown.component = core.component

/-- The message on unfinished reports, shortened if need be. -/
def unfinishedError (identifiers : List String) : String :=
  let short := s!"There are unfinished reports ({identifiers.length})"
  let names := ", ".intercalate (identifiers.map fun identifier => "'" ++ identifier ++ "'")
  let error := s!"{short}: [{names}]"
  if error.length > 1024 then short else error

/-- `__check_progress` -/
def checkProgress : Except String Unit := do
  solving.tasksProgress.check "The decision didn't got full tasks progress data" "Tasks solving progress is incorrect"
  solving.subJobsProgress.check "The decision didn't got full subjobs progress data"
    "Subjobs solving progress is not finished"

/-- `__get_status`: the status and the error. Nothing comes back if there are several reports without parents, since
`get` raises then. -/
def getStatus (status : DecisionStatus) (error : Option String) :
    Option (DecisionStatus × Option String) :=
  match status with
  | .solved =>
    if solving.status ≠ .isSolving then some (.corrupted, some "Only processing decisions can be finished")
    else if solving.unfinishedReports.length > 0 then
      some (.corrupted, some (unfinishedError solving.unfinishedReports))
    else match solving.roots with
      | [] => some (.corrupted, some "The decision doesn't have Core report")
      | [(id, core)] =>
        if (solving.coreUnknowns id core).length > 0 then some (.failed, error)
        else match solving.checkProgress with
          | .ok () => some (.solved, error)
          | .error message => some (.corrupted, some message)
      | _ :: _ :: _ => none
  | .failed =>
    let described := some (error.getD "The scheduler hasn't given an error description")
    match solving.roots with
    | [] => some (.failed, described)
    | [(id, core)] =>
      if solving.unfinishedReports.length > 0 ∨ (solving.coreUnknowns id core).length = 0 then
        some (.corrupted, described)
      else some (.failed, described)
    | _ :: _ :: _ => none
  | status => some (status, error)

/-- `__remove_tasks`. The first query asks for the status of pending tasks and for the label of this status, which no
task has. -/
def removeTasks : Except String Solving :=
  let tasks := solving.tasks.values
  if solving.status = .pending then .ok solving
  else if solving.status ≠ .isSolving then .error "The decision is not processing"
  else if tasks.countP (fun task => task.status = .pending) > 0 then .error "There are unfinished tasks"
  else if tasks.countP (fun task => task.status = .error ∧ task.error = none) > 0 then
    .error "There are tasks finished with error and without error descriptions"
  else if tasks.countP (fun task => task.status = .finished ∧ !task.solution) > 0 then
    .error "There are finished tasks without solutions"
  else .ok { solving with tasks := .empty }

/-- `FinishDecision` -/
def finishDecision (status : DecisionStatus) (error : Option String) : Option Solving := do
  let (status, error) ← solving.getStatus status error
  let (solving, status) := match solving.removeTasks with
    | .ok removed => (removed, status)
    | .error message => ({ solving with error := some message }, .corrupted)
  match error with
  | none => some { solving with status := status }
  | some text =>
    if text.length > 1024 then some { solving with
      status := .terminated
      error := some s!"Length of error for decision '{solving.identifier}' is large (1024 characters is maximum)" }
    else some { solving with status := status, error := some text }

end Solving

/-! ## Solved decisions -/

/-- Numbers of tasks or sub-jobs add up, if there was a start. -/
def Progress.Complete (progress : Progress) : Prop :=
  progress.started = true → progress.finished = true ∧ ∃ solved failed total, progress.solved = some solved ∧
    progress.failed = some failed ∧ progress.total = some total ∧ solved + failed = total

theorem Progress.check_eq_ok_iff {progress : Progress} {missing incorrect : String} :
    progress.check missing incorrect = .ok () ↔ progress.Complete := by
  obtain ⟨started, finished, total, solved, failed⟩ := progress
  cases started with
  | false => simp [check, Complete]
  | true =>
    cases solved <;> cases failed <;> cases total <;> cases finished <;> simp [check, Complete, eq_comm]

namespace Solving

/-- What is checked of a solved decision: all but that no task is being processed. -/
structure Checked (solving : Solving) : Prop where
  processing : solving.status = .isSolving
  reports : ∀ id report, solving.reports.get? id = some report → report.finished = true
  core : ∃ id core, solving.roots = [(id, core)] ∧ solving.coreUnknowns id core = []
  tasksProgress : solving.tasksProgress.Complete
  subJobsProgress : solving.subJobsProgress.Complete
  pending : ∀ id task, solving.tasks.get? id = some task → task.status ≠ .pending
  failed : ∀ id task, solving.tasks.get? id = some task → task.status = .error → task.error ≠ none
  finished : ∀ id task, solving.tasks.get? id = some task → task.status = .finished → task.solution = true

/-- No task is being processed. -/
def Idle (solving : Solving) : Prop := ∀ id task, solving.tasks.get? id = some task → task.status ≠ .processing

/-- A query that finds nothing. -/
theorem countP_eq_zero_iff {α : Type} {d : Dict Nat α} {p : α → Bool} :
    ¬ d.values.countP p > 0 ↔ ∀ k v, d.get? k = some v → p v = false := by
  rw [gt_iff_lt, countP_pos_iff]
  constructor
  · intro none k v found
    exact Bool.eq_false_iff.mpr fun is => none ⟨v, Dict.mem_values_iff.mpr ⟨k, found⟩, is⟩
  · rintro none ⟨v, mem, is⟩
    obtain ⟨k, found⟩ := Dict.mem_values_iff.mp mem
    rw [none k v found] at is
    cases is

variable {solving : Solving}

theorem unfinishedReports_eq_nil_iff : ¬ solving.unfinishedReports.length > 0 ↔
    ∀ id report, solving.reports.get? id = some report → report.finished = true := by
  rw [unfinishedReports, length_map, ← countP_eq_length_filter, countP_eq_zero_iff]
  simp

theorem checkProgress_eq_ok_iff : solving.checkProgress = .ok () ↔
    solving.tasksProgress.Complete ∧ solving.subJobsProgress.Complete := by
  rw [← Progress.check_eq_ok_iff, ← Progress.check_eq_ok_iff, checkProgress]
  cases solving.tasksProgress.check _ _ with
  | error message => exact iff_of_false nofun fun both => nomatch both.1
  | ok => exact (and_iff_right rfl).symm

/-- What is checked of a solved decision before its tasks are looked at. -/
theorem getStatus_eq_solved_iff {error error' : Option String} :
    solving.getStatus .solved error = some (.solved, error') ↔ error' = error ∧ solving.status = .isSolving ∧
      (∀ id report, solving.reports.get? id = some report → report.finished = true) ∧
      (∃ id core, solving.roots = [(id, core)] ∧ solving.coreUnknowns id core = []) ∧
      solving.tasksProgress.Complete ∧ solving.subJobsProgress.Complete := by
  rw [getStatus, ← unfinishedReports_eq_nil_iff, ← checkProgress_eq_ok_iff]
  by_cases processing : solving.status = .isSolving
  · by_cases reports : solving.unfinishedReports.length > 0
    · simp [processing, reports]
    · rcases roots : solving.roots with _ | ⟨⟨id, core⟩, _ | ⟨other, rest⟩⟩
      · simp [processing, reports]
      · by_cases unknowns : (solving.coreUnknowns id core).length > 0
        · have some := ne_nil_of_length_pos unknowns
          simp [processing, reports, unknowns, some]
        · have none := eq_nil_of_length_eq_zero (Nat.eq_zero_of_not_pos unknowns)
          cases progress : solving.checkProgress with
          | error message => simp [processing, reports, none]
          | ok => simpa [processing, reports, none] using eq_comm
      · simp [processing, reports]
  · simp [processing]

theorem removeTasks_ok_iff (processing : solving.status = .isSolving) : (∃ removed, solving.removeTasks = .ok removed) ↔
      (∀ id task, solving.tasks.get? id = some task → task.status ≠ .pending) ∧
      (∀ id task, solving.tasks.get? id = some task → task.status = .error → task.error ≠ none) ∧
      ∀ id task, solving.tasks.get? id = some task → task.status = .finished → task.solution = true := by
  have pending : ¬ solving.tasks.values.countP (fun task => task.status = .pending) > 0 ↔
      ∀ id task, solving.tasks.get? id = some task → task.status ≠ .pending := by
    simp only [countP_eq_zero_iff, decide_eq_false_iff_not, ne_eq]
  have failed : ¬ solving.tasks.values.countP (fun task => task.status = .error ∧ task.error = none) > 0 ↔
      ∀ id task, solving.tasks.get? id = some task → task.status = .error → task.error ≠ none := by
    simp only [countP_eq_zero_iff, decide_eq_false_iff_not, not_and, ne_eq]
  have finished : ¬ solving.tasks.values.countP (fun task => task.status = .finished ∧ !task.solution) > 0 ↔
      ∀ id task, solving.tasks.get? id = some task → task.status = .finished → task.solution = true := by
    simp only [countP_eq_zero_iff, decide_eq_false_iff_not, not_and, Bool.not_eq_true', Bool.not_eq_false]
  rw [← pending, ← failed, ← finished, removeTasks, processing]
  simp only [reduceCtorEq, if_false, ne_eq, not_true_eq_false]
  split
  next some => exact iff_of_false (by simp) fun none => none.1 some
  next noPending =>
    split
    next some => exact iff_of_false (by simp) fun none => none.2.1 some
    next described =>
      split
      next some => exact iff_of_false (by simp) fun none => none.2.2 some
      next solved => exact iff_of_true ⟨_, rfl⟩ ⟨noPending, described, solved⟩

/-- A decision becomes solved exactly if all the checks succeed and its error is not too long. -/
theorem finishDecision_solved_iff {error : Option String} :
    (∃ after, solving.finishDecision .solved error = some after ∧ after.status = .solved) ↔
      solving.Checked ∧ ∀ text, error = some text → text.length ≤ 1024 := by
  constructor
  · rintro ⟨after, done, solved⟩
    obtain ⟨⟨status, error'⟩, got, done⟩ := bind_eq_some_iff.mp done
    -- the status is decided by the first phase, unless tasks or the error spoil it
    have first : status = .solved ∧ (∃ removed, solving.removeTasks = .ok removed) ∧
        ∀ text, error' = some text → text.length ≤ 1024 := by
      cases ok : solving.removeTasks with
      | error message =>
        simp only [ok] at done
        split at done
        next =>
          cases done
          cases solved
        next =>
          split at done <;> cases done <;> cases solved
      | ok removed =>
        simp only [ok] at done
        split at done
        next =>
          cases done
          exact ⟨solved, ⟨removed, rfl⟩, nofun⟩
        next text =>
          split at done
          next =>
            cases done
            cases solved
          next short =>
            cases done
            refine ⟨solved, ⟨removed, rfl⟩, ?_⟩
            rintro _ ⟨⟩
            exact Nat.le_of_not_gt short
    obtain ⟨rfl, removed, short⟩ := first
    obtain ⟨rfl, processing, reports, core, tasksProgress, subJobsProgress⟩ := getStatus_eq_solved_iff.mp got
    obtain ⟨pending, failed, finished⟩ := (removeTasks_ok_iff processing).mp removed
    exact ⟨⟨processing, reports, core, tasksProgress, subJobsProgress, pending, failed, finished⟩, short⟩
  · rintro ⟨checked, short⟩
    have got := getStatus_eq_solved_iff.mpr ⟨@rfl _ error, checked.processing, checked.reports, checked.core,
      checked.tasksProgress, checked.subJobsProgress⟩
    obtain ⟨removed, ok⟩ := (removeTasks_ok_iff checked.processing).mpr ⟨checked.pending, checked.failed, checked.finished⟩
    cases error with
    | none =>
      refine ⟨{ removed with status := .solved }, ?_, rfl⟩
      simp [finishDecision, got, ok]
    | some text =>
      refine ⟨{ removed with status := .solved, error := some text }, ?_, rfl⟩
      simp [finishDecision, got, ok, (short text rfl).not_gt]

/-- What a solved decision promises. -/
structure Really (solving : Solving) : Prop extends Checked solving where
  idle : solving.Idle

/-- A decision becomes solved only if it really is, exactly if no task is being processed or a check fails anyway. -/
theorem solved_really_iff (solving : Solving) (error : Option String) :
    (∀ after, solving.finishDecision .solved error = some after → after.status = .solved → solving.Really) ↔
      solving.Idle ∨ ¬ solving.Checked ∨ ∃ text, error = some text ∧ text.length > 1024 := by
  constructor
  · intro really
    by_cases ready : solving.Checked ∧ ∀ text, error = some text → text.length ≤ 1024
    · obtain ⟨after, done, solved⟩ := finishDecision_solved_iff.mpr ready
      exact .inl (really after done solved).idle
    · right
      rw [not_and_or] at ready
      rcases ready with unchecked | long
      · exact .inl unchecked
      · push Not at long
        exact .inr long
  · rintro condition after done solved
    obtain ⟨checked, short⟩ := finishDecision_solved_iff.mp ⟨after, done, solved⟩
    rcases condition with idle | unchecked | ⟨text, is, long⟩
    · exact ⟨checked, idle⟩
    · exact absurd checked unchecked
    · exact absurd (short text is) (Nat.not_le_of_gt long)

end Solving

/-- A decision with all reports finished and one task that is being processed. -/
def processingTask : Solving where
  status := .isSolving
  scheduler := .klever
  error := none
  total := 1
  counters := fun
    | .processing => 1
    | _ => 0
  tasks := .ofList [(1, ⟨.processing, none, false⟩)]
  identifier := "decision"
  reports := .ofList [(1, ⟨"/", none, "Core", true⟩)]
  unknowns := []
  tasksProgress := ⟨false, false, none, none, none⟩
  subJobsProgress := ⟨false, false, none, none, none⟩

/-- The task is lost, and the decision is solved. -/
theorem processingTask_solved : ∃ after, processingTask.finishDecision .solved none = some after ∧
    after.status = .solved ∧ after.tasks = .empty ∧ ¬ processingTask.Really := by
  refine ⟨_, rfl, rfl, rfl, fun really => ?_⟩
  exact really.idle 1 ⟨.processing, none, false⟩ rfl rfl

end Klever.Bridge.Finish
