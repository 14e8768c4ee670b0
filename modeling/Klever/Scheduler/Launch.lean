import Klever.Lib.Loop
import Klever.Scheduler.Runner

/-!
# A pass over the results

The part of `Scheduler.launch` in `klever/scheduler/schedulers/__init__.py` that goes through the
tracked jobs and then through the tracked tasks: an item that got a future becomes `PROCESSING`, and a
result that is there is processed, submitted to Bridge, and its item deleted or put back to the
pending ones.

When a job ends with an error, its pending and processing tasks should be cancelled in the same pass,
and nothing else should happen to other jobs and tasks (`TakesTasks`). `resultsPass_takesTasks_iff`
says for which states this holds: `process_job_result` is given the identifiers of the tasks in place
of their items, so that it raises as soon as the job has any tracked task at all.

What is left out: the request of the progress of a job, which changes no item; exceptions of the
requests to Bridge; and what the handler of an exception does (it cancels everything, and either
starts with empty tables or exits).
-/

namespace Klever.Scheduler

open Klever.Lib List Option

/-! ## Items in the loops -/

/-- The statuses of jobs at Bridge, as `_job_status` names the digits `0` to `9`. -/
inductive JobStatus
  | notSolved
  | pending
  | processing
  | solved
  | failed
  | corrupted
  | cancelling
  | cancelled
  | terminated
  | refined
  deriving DecidableEq, Repr

/-- What the scheduler submits to Bridge. -/
inductive Report
  | jobStatus (identifier : String) (status : JobStatus)
  | jobError (identifier msg : String)
  | taskStatus (identifier : String) (status : ItemStatus)
  | taskError (identifier msg : String)
  deriving DecidableEq

/-- What an iteration leaves: its reports or an exception, the runner, and the item unless it was
deleted. -/
structure Settled (α : Type) where
  outcome : Except Exn (List Report)
  runner : Runner
  item : Option α

/-- The text of an error, if there is one: an empty text counts as none. -/
def errorText : Option String → Option String
  | some "" => none
  | text => text

/-- A pending item that got a future is processed. -/
def promote (future : Option Future) (status : ItemStatus) : ItemStatus :=
  if future.isSome ∧ status = .pending then .processing else status

/-- The first loop on a job whose result has been processed. The server is asked for its status if the
job was not rescheduled before. -/
def submitJob (bridge : String → JobStatus) (R : Runner) (identifier : String) (item : JobItem) :
    Settled JobItem :=
  match item.status, errorText item.error with
  | .finished, none => ⟨.ok [.jobStatus identifier .solved], R, none⟩
  | _, some msg =>
    if item.rescheduled = false ∧ bridge identifier = .pending then
      ⟨.ok [], R, some { item with rescheduled := true, status := .pending }⟩
    else ⟨.ok [.jobError identifier msg], R, none⟩
  | _, none =>
    ⟨.error (.notImplementedError ("Cannot determine status of the job " ++ quoted identifier)), R, some item⟩

/-- What is done with what `process_job_result` returned. -/
def afterJobResult (bridge : String → JobStatus) (identifier : String) :
    Except Exn Bool × Runner × JobItem × List (String × TaskItem) → Settled JobItem × List (String × TaskItem)
  | (.error e, R, item, cancelled) => (⟨.error e, R, some item⟩, cancelled)
  | (.ok true, R, item, cancelled) => (submitJob bridge R identifier item, cancelled)
  | (.ok false, R, item, cancelled) => (⟨.ok [], R, some item⟩, cancelled)

variable (env : Env)

/-- The first loop on one job, with the changed items of cancelled tasks. -/
def settleJob (bridge : String → JobStatus) (R : Runner) (identifier : String)
    (item : JobItem) (tasks : List TaskArg) : Settled JobItem × List (String × TaskItem) :=
  if item.future.isSome ∧ item.status = .pending then
    (⟨.ok [], R, some { item with status := .processing }⟩, [])
  else if item.status = .processing then
    afterJobResult bridge identifier (processJobResult env R identifier item tasks)
  else (⟨.ok [], R, some item⟩, [])

/-- A status as it is printed. -/
def ItemStatus.text : ItemStatus → String
  | .pending => "PENDING"
  | .processing => "PROCESSING"
  | .finished => "FINISHED"
  | .error => "ERROR"

/-- The second loop on a task whose result has been processed. -/
def submitTask (R : Runner) (identifier : String) (item : TaskItem) : Settled TaskItem :=
  match item.status, errorText item.error with
  | .finished, none => ⟨.ok [.taskStatus identifier .finished], R, none⟩
  | .pending, _ => ⟨.ok [], R, some item⟩
  | _, some msg => ⟨.ok [.taskError identifier msg], R, none⟩
  | _, none =>
    ⟨.error (.notImplementedError ("Cannot determine status of the task " ++ quoted identifier ++
      ": " ++ quoted item.status.text)), R, some item⟩

/-- What is done with what `process_task_result` returned. -/
def afterTaskResult (identifier : String) : Except Exn Bool × Runner × TaskItem → Settled TaskItem
  | (.error e, R, item) => ⟨.error e, R, some item⟩
  | (.ok true, R, item) => submitTask R identifier item
  | (.ok false, R, item) => ⟨.ok [], R, some item⟩

/-- The second loop on one task. -/
def settleTask (R : Runner) (identifier : String) (item : TaskItem) : Settled TaskItem :=
  if item.future.isSome ∧ item.status = .pending then
    ⟨.ok [], R, some { item with status := .processing }⟩
  else if item.status = .processing then
    afterTaskResult identifier (processTaskResult env R identifier item)
  else ⟨.ok [], R, some item⟩

/-! ## The pass -/

/-- The scheduler: its runner, the tracked jobs and tasks, what was submitted to Bridge, and the tasks
for which `cancel_task` was called in this pass. -/
structure Tracker where
  runner : Runner
  jobs : Dict String JobItem
  tasks : Dict String TaskItem
  sent : List Report
  cancelled : List String

/-- An item is put back or deleted. -/
def putBack {α : Type} (d : Dict String α) (identifier : String) : Option α → Dict String α
  | some item => d.set identifier item
  | none => d.erase identifier

/-- The reports of an iteration. -/
def Settled.reports {α : Type} (s : Settled α) : List Report := s.outcome.toOption.getD []

/-- What is passed as the tasks of a job: the identifiers of its tracked tasks. The status that is
looked at is the one of the job. -/
def Tracker.jobTasks (S : Tracker) (identifier : String) (item : JobItem) : List TaskArg :=
  (S.tasks.items.filter fun t => item.status ∈ [ItemStatus.pending, .processing] ∧
    t.2.description.jobId = identifier).map fun t => .bare t.1

/-- One iteration over the jobs. -/
def Tracker.jobStep (bridge : String → JobStatus) (S : Tracker) (identifier : String) :
    Except Exn Unit × Tracker :=
  match S.jobs.get? identifier with
  | none => (.ok (), S)
  | some item =>
    let r := settleJob env bridge S.runner identifier item (S.jobTasks identifier item)
    (r.1.outcome.map fun _ => (), {
      runner := r.1.runner
      jobs := putBack S.jobs identifier r.1.item
      tasks := r.2.foldl (fun tasks t => tasks.set t.1 t.2) S.tasks
      sent := S.sent ++ r.1.reports
      cancelled := S.cancelled ++ r.2.map Prod.fst })

/-- One iteration over the tasks. -/
def Tracker.taskStep (S : Tracker) (identifier : String) : Except Exn Unit × Tracker :=
  match S.tasks.get? identifier with
  | none => (.ok (), S)
  | some item =>
    let r := settleTask env S.runner identifier item
    (r.outcome.map fun _ => (), { S with
      runner := r.runner
      tasks := putBack S.tasks identifier r.item
      sent := S.sent ++ r.reports })

/-- The two loops, each over the items that are tracked when it starts. -/
def Tracker.resultsPass (bridge : String → JobStatus) (S : Tracker) :
    Except Exn Unit × Tracker :=
  let jobs := forEach (Tracker.jobStep env bridge) { S with cancelled := [] } S.jobs.keys
  match jobs.1 with
  | .error e => (.error e, jobs.2)
  | .ok () => forEach (Tracker.taskStep env) jobs.2 jobs.2.tasks.keys

/-! ## What the pass should do -/

/-- A processed item whose future is done. -/
def HasEnded (future : Option Future) (status : ItemStatus) : Prop :=
  status = .processing ∧ ∃ f, future = some f ∧ f ≠ .queued ∧ f ≠ .running

/-- A job ends with an error: its client reports a failure, or the future itself failed. -/
def JobItem.EndsWithError (identifier : String) (item : JobItem) : Prop :=
  item.status = .processing ∧
    ((∃ code, item.future = some (.finished code) ∧ (env.workDir .job identifier).Fails code) ∨
      ∃ e, item.future = some (.failed e))

/-- A task of a job that ends with an error, pending or processing. -/
def Tracker.Doomed (S : Tracker) (identifier : String) : Prop :=
  ∃ task job, S.tasks.get? identifier = some task ∧ task.status ∈ [ItemStatus.pending, .processing] ∧
    S.jobs.get? task.description.jobId = some job ∧ job.EndsWithError env task.description.jobId

/-- The end of a job takes its tasks with it: exactly the doomed tasks are cancelled, and the jobs and
tasks that have not ended stay as they were, but for those that got a future. -/
structure TakesTasks (S S' : Tracker) : Prop where
  cancelled : ∀ identifier, identifier ∈ S'.cancelled ↔ S.Doomed env identifier
  jobs : ∀ identifier item, S.jobs.get? identifier = some item → ¬ HasEnded item.future item.status →
    S'.jobs.get? identifier = some { item with status := promote item.future item.status }
  tasks : ∀ identifier item, S.tasks.get? identifier = some item → ¬ S.Doomed env identifier →
    ¬ HasEnded item.future item.status →
    S'.tasks.get? identifier = some { item with status := promote item.future item.status }

/-- A state in which the iteration on a job returns: if it has a result, that is an exit code, the job
settles, and if it failed, it has no tracked task. -/
def Tracker.JobClean (S : Tracker) (identifier : String) : Prop :=
  ∀ item, S.jobs.get? identifier = some item → HasEnded item.future item.status →
    ∃ code, item.future = some (.finished code) ∧ Settles env S.runner .job identifier ∧
      ((env.workDir .job identifier).Fails code →
        ∀ t task, S.tasks.get? t = some task → task.description.jobId ≠ identifier)

/-- A state in which the iteration on a task returns: if it is processed, it has a future, and if it
has a result, that is an exit code, the task settles and its result can be processed. -/
def Tracker.TaskClean (S : Tracker) (identifier : String) : Prop :=
  ∀ item, S.tasks.get? identifier = some item → item.status = .processing →
    ∃ f, item.future = some f ∧ (f ≠ .queued → f ≠ .running →
      ∃ code, f = .finished code ∧ Settles env S.runner .task identifier ∧
        item.Readable (env.workDir .task identifier) code)

/-- Every iteration of the pass finds a clean state. -/
def Tracker.PassClean (bridge : String → JobStatus) (S : Tracker) : Prop :=
  let start : Tracker := { S with cancelled := [] }
  let jobs := (forEach (Tracker.jobStep env bridge) start S.jobs.keys).2
  Along (Tracker.jobStep env bridge) (Tracker.JobClean env) start S.jobs.keys ∧
    Along (Tracker.taskStep env) (Tracker.TaskClean env) jobs jobs.tasks.keys

theorem not_promoted {future : Option Future} {status : ItemStatus} (processing : status = .processing) :
    ¬ (future.isSome = true ∧ status = .pending) := by
  rintro ⟨-, pending⟩
  cases processing.symm.trans pending

/-! ## One job -/

variable {env : Env} {bridge : String → JobStatus} {R : Runner} {id : String} {item : JobItem}

/-- Identifiers in place of items raise, unless there are none. -/
theorem cancelTasks_bare (identifiers : List String) : cancelTasks env R (identifiers.map .bare) =
      (if identifiers = [] then .ok () else .error (.typeError "string indices must be integers"), R, []) := by
  cases identifiers with
  | nil => rfl
  | cons => rfl

/-- A job that has no result keeps its place, and becomes a processed one if it got a future. -/
theorem settleJob_waiting {tasks : List TaskArg} (waits : ¬ HasEnded item.future item.status) :
    settleJob env bridge R id item tasks =
      (⟨.ok [], R, some { item with status := promote item.future item.status }⟩, []) := by
  unfold settleJob
  by_cases got : item.future.isSome ∧ item.status = .pending
  · rw [if_pos got, promote, if_pos got]
  · rw [if_neg got, promote, if_neg got]
    split
    next processing =>
      have unprocessed : processJobResult env R id item tasks = (.ok false, R, item, []) := by
        unfold processJobResult
        split
        next e future => exact absurd ⟨processing, _, future, nofun, nofun⟩ waits
        next code future => exact absurd ⟨processing, _, future, nofun, nofun⟩ waits
        next => rfl
      rw [unprocessed]
      rfl
    next => rfl

/-- The error of a solution that failed is not empty. -/
theorem errorText_solutionFailed (kind id msg : String) :
    errorText (some (solutionFailed kind id msg)) = some (solutionFailed kind id msg) := by
  have filled : "Solution of " ++ kind ++ " " ++ id ++ " failed: " ++ quoted msg ≠ "" := by
    simp
  unfold errorText
  split
  next empty => exact absurd (some.inj empty) filled
  next => rfl

/-- A result of a job that has been processed is submitted. -/
theorem submitJob_ok (done : (item.status = .finished ∧ item.error = none) ∨
    ∃ msg, item.error = some (solutionFailed "job" id msg)) :
    ∃ reports remains, submitJob bridge R id item = ⟨.ok reports, R, remains⟩ := by
  unfold submitJob
  rcases done with ⟨finished, no_error⟩ | ⟨msg, failed⟩
  · rw [finished, no_error]
    exact ⟨_, _, rfl⟩
  · rw [failed, errorText_solutionFailed]
    simp only
    split <;> exact ⟨_, _, rfl⟩

/-- A job with a result, whose tasks are given by their identifiers: it is submitted, or an exception
leaves. -/
theorem settleJob_ended {identifiers : List String} (ended : HasEnded item.future item.status) :
    (∃ code, item.future = some (.finished code) ∧ Settles env R .job id ∧
        ((env.workDir .job id).Fails code → identifiers = [])) ∧
      (∃ reports R' remains, settleJob env bridge R id item (identifiers.map .bare) =
        (⟨.ok reports, R', remains⟩, [])) ∨
    (¬ ∃ code, item.future = some (.finished code) ∧ Settles env R .job id ∧
        ((env.workDir .job id).Fails code → identifiers = [])) ∧
      ∃ e R' remains, settleJob env bridge R id item (identifiers.map .bare) = (⟨.error e, R', remains⟩, []) := by
  obtain ⟨processing, f, future, waits, runs⟩ := ended
  have processed : settleJob env bridge R id item (identifiers.map .bare) = afterJobResult bridge id
        (processJobResult env R id item (identifiers.map .bare)) := by
    rw [settleJob, if_neg (not_promoted processing), if_pos processing]
  rw [processed]
  cases f with
  | queued => exact absurd rfl waits
  | running => exact absurd rfl runs
  | failed e =>
    refine .inr ⟨?_, e, R, some item, ?_⟩
    · rw [future]
      simp
    · simp only [processJobResult, future]
      rfl
  | finished code =>
    simp only [future, some.injEq, Future.finished.injEq, exists_eq_left']
    rcases @processJobResult_done env R id (identifiers.map .bare) item code future with
      ⟨settles, m', -, ⟨fine, done⟩ | ⟨fails, msg, done⟩⟩ | ⟨unsettled, e, R', after, raised⟩
    · refine .inl ⟨⟨settles, fun fails => absurd fails fine⟩, ?_⟩
      rw [done]
      obtain ⟨reports, remains, submitted⟩ := @submitJob_ok bridge (R.released .job id m')
        id { item with status := .finished, error := none, future := none }
        (.inl ⟨rfl, rfl⟩)
      exact ⟨reports, _, remains, by rw [afterJobResult, submitted]⟩
    · rw [done, cancelTasks_bare]
      by_cases none : identifiers = []
      · refine .inl ⟨⟨settles, fun _ => none⟩, ?_⟩
        obtain ⟨reports, remains, submitted⟩ := @submitJob_ok bridge (R.released .job id m')
          id { item with
            status := .error
            error := some (solutionFailed "job" id msg)
            future := Option.none } (.inr ⟨msg, rfl⟩)
        rw [if_pos none]
        exact ⟨reports, _, remains, by rw [Except.map, afterJobResult, submitted]⟩
      · refine .inr ⟨fun clean => none (clean.2 fails), ?_⟩
        rw [if_neg none]
        exact ⟨_, _, _, rfl⟩
    · refine .inr ⟨fun clean => unsettled clean.1, e, R', some after, ?_⟩
      rw [raised]
      rfl

theorem putBack_get?_of_ne {α : Type} (d : Dict String α) {other : String}
    (remains : Option α) (differs : other ≠ id) :
    (putBack d id remains).get? other = d.get? other := by
  cases remains with
  | none => rw [putBack, Dict.get?_erase, if_neg differs]
  | some item => rw [putBack, Dict.get?_set_of_ne _ _ differs]

section JobStep

variable {env : Env} {bridge : String → JobStatus} {S : Tracker} {id : String}

/-- What is passed as tasks are identifiers, of all tracked tasks if the job is processed. -/
theorem jobTasks_eq (item : JobItem) : ∃ identifiers : List String, S.jobTasks id item = identifiers.map .bare ∧
      (item.status = .processing → (identifiers = [] ↔
        ∀ t task, S.tasks.get? t = some task → task.description.jobId ≠ id)) := by
  refine ⟨(S.tasks.items.filter fun t => item.status ∈ [ItemStatus.pending, .processing] ∧
    t.2.description.jobId = id).map Prod.fst, ?_, ?_⟩
  · rw [List.map_map]
    rfl
  · intro processing
    simp only [processing, map_eq_nil_iff, filter_eq_nil_iff, decide_eq_true_eq, not_and]
    constructor
    · intro none t task found
      exact none (t, task) (Dict.mem_items_iff.mpr found) (by simp)
    · intro none t mem _
      exact none t.1 t.2 (Dict.mem_items_iff.mp mem)

/-- An iteration on a job touches neither tasks nor other jobs, and cancels nothing. -/
theorem jobStep_frame : (S.jobStep env bridge id).2.tasks = S.tasks ∧
      (S.jobStep env bridge id).2.cancelled = S.cancelled ∧
      ∀ other, other ≠ id → (S.jobStep env bridge id).2.jobs.get? other = S.jobs.get? other := by
  unfold Tracker.jobStep
  split
  next => exact ⟨rfl, rfl, fun _ _ => rfl⟩
  next item found =>
    obtain ⟨identifiers, given, -⟩ := @jobTasks_eq S id item
    have none : (settleJob env bridge S.runner id item (S.jobTasks id item)).2 = [] := by
      by_cases ended : HasEnded item.future item.status
      · rw [given]
        rcases @settleJob_ended env bridge S.runner id item identifiers ended with
          ⟨-, _, _, _, settled⟩ | ⟨-, _, _, _, settled⟩ <;> rw [settled]
      · rw [settleJob_waiting ended]
    simp only [none, map_nil, append_nil, foldl_nil, true_and]
    exact fun other differs => putBack_get?_of_ne _ _ differs

/-- An iteration on a job returns exactly in a clean state. -/
theorem jobStep_ok_iff : (S.jobStep env bridge identifier).1 = .ok () ↔ S.JobClean env identifier := by
  unfold Tracker.jobStep Tracker.JobClean
  split
  next absent => simp [absent]
  next item found =>
    simp only [found, some.injEq, forall_eq']
    by_cases ended : HasEnded item.future item.status
    · obtain ⟨identifiers, given, none_iff⟩ := @jobTasks_eq S identifier item
      rw [given]
      simp only [ended, forall_true_left, ← none_iff ended.1]
      rcases @settleJob_ended env bridge S.runner identifier item identifiers ended with
        ⟨clean, _, _, _, settled⟩ | ⟨unclean, _, _, _, settled⟩
      · rw [settled]
        exact iff_of_true rfl clean
      · rw [settled]
        exact iff_of_false (fun is => by cases is) unclean
    · simp [settleJob_waiting ended, ended, Except.map]

/-- A job without a result stays. -/
theorem jobStep_waiting (found : S.jobs.get? id = some item) (waits : ¬ HasEnded item.future item.status) :
    (S.jobStep env bridge id).2.jobs.get? id = some { item with status := promote item.future item.status } := by
  simp [Tracker.jobStep, found, settleJob_waiting waits, putBack]

end JobStep

/-! ## One task -/

variable {S : Tracker} {item : TaskItem}

/-- A task that has no result keeps its place, and becomes a processed one if it got a future. -/
theorem settleTask_waiting (waits : ¬ HasEnded item.future item.status)
    (given : item.status = .processing → item.future ≠ none) :
    settleTask env R id item = ⟨.ok [], R, some { item with status := promote item.future item.status }⟩ := by
  unfold settleTask
  by_cases got : item.future.isSome ∧ item.status = .pending
  · rw [if_pos got, promote, if_pos got]
  · rw [if_neg got, promote, if_neg got]
    split
    next processing =>
      have unprocessed : processTaskResult env R id item = (.ok false, R, item) := by
        unfold processTaskResult
        split
        next future => exact absurd future (given processing)
        next => rfl
        next => rfl
        next f queued running future =>
          exact absurd ⟨processing, f, future, queued, running⟩ waits
      rw [unprocessed]
      rfl
    next => rfl

/-- A processed task is asked for its result. -/
theorem settleTask_processing (processing : item.status = .processing) : settleTask env R id item =
      afterTaskResult id (processTaskResult env R id item) := by
  rw [settleTask, if_neg (not_promoted processing), if_pos processing]

/-- A result of a task that has been processed is submitted, or the task goes back. -/
theorem submitTask_ok (done : (item.status = .finished ∧ item.error = none) ∨ item.status = .pending ∨
    ∃ msg, item.error = some (solutionFailed "task" id msg)) :
    ∃ reports, (submitTask R id item).outcome = .ok reports := by
  unfold submitTask
  rcases done with ⟨finished, no_error⟩ | pending | ⟨msg, failed⟩
  · rw [finished, no_error]
    exact ⟨_, rfl⟩
  · rw [pending]
    exact ⟨_, rfl⟩
  · rw [failed, errorText_solutionFailed]
    cases item.status <;> exact ⟨_, rfl⟩

/-- A processed task returns from its iteration exactly when it has a future, and a result that is
there can be processed. -/
theorem settleTask_ok_iff (processing : item.status = .processing) :
    (∃ reports, (settleTask env R id item).outcome = .ok reports) ↔
      ∃ f, item.future = some f ∧ (f ≠ .queued → f ≠ .running → ∃ code, f = .finished code ∧ Settles env R .task id ∧
          item.Readable (env.workDir .task id) code) := by
  by_cases ended : HasEnded item.future item.status
  · obtain ⟨-, f, future, waits, runs⟩ := ended
    simp only [settleTask_processing processing, future, some.injEq, exists_eq_left', ne_eq, waits, runs,
      not_false_eq_true, forall_true_left]
    cases f with
    | queued => exact absurd rfl waits
    | running => exact absurd rfl runs
    | failed e =>
      simp [processTaskResult, baseProcessTaskResult, future, afterTaskResult]
    | finished code =>
      simp only [Future.finished.injEq, exists_eq_left']
      rcases @processTaskResult_done env R id item code future with
        ⟨settles, readable, m', -, after, ran, ⟨-, done⟩ | ⟨-, done⟩⟩ | ⟨unclean, e, raised⟩
      · rw [done]
        exact iff_of_true (submitTask_ok (.inr (.inl rfl))) ⟨settles, readable⟩
      · rw [done]
        refine iff_of_true (submitTask_ok ?_) ⟨settles, readable⟩
        cases ran with
        | failed msg fails => exact .inr (.inr ⟨msg, rfl⟩)
        | solved s fine results => exact .inl ⟨rfl, rfl⟩
      · refine iff_of_false ?_ unclean
        rcases result : processTaskResult env R id item with ⟨e' | b, R', after⟩
        · simp [afterTaskResult]
        · rw [result] at raised
          cases raised
  · cases future : item.future with
    | none =>
      refine iff_of_false ?_ ?_
      · simp [settleTask, processing, processTaskResult, future, afterTaskResult]
      · simp
    | some f =>
      have given : item.status = .processing → item.future ≠ none := fun _ => by
        rw [future]
        exact some_ne_none _
      rw [settleTask_waiting ended given]
      refine iff_of_true ⟨_, rfl⟩ ⟨f, rfl, fun waits runs => ?_⟩
      exact absurd ⟨processing, f, future, waits, runs⟩ ended

/-- An iteration on a task touches no job and no other task, and cancels nothing. -/
theorem taskStep_frame : (S.taskStep env id).2.jobs = S.jobs ∧ (S.taskStep env id).2.cancelled = S.cancelled ∧
      ∀ other, other ≠ id → (S.taskStep env id).2.tasks.get? other = S.tasks.get? other := by
  unfold Tracker.taskStep
  split
  next => exact ⟨rfl, rfl, fun _ _ => rfl⟩
  next item found => exact ⟨rfl, rfl, fun other differs => putBack_get?_of_ne _ _ differs⟩

/-- An iteration on a task returns exactly in a clean state. -/
theorem taskStep_ok_iff : (S.taskStep env identifier).1 = .ok () ↔ S.TaskClean env identifier := by
  unfold Tracker.taskStep Tracker.TaskClean
  split
  next absent => simp [absent]
  next item found =>
    simp only [found, some.injEq, forall_eq']
    have returns : (settleTask env S.runner identifier item).outcome.map (fun _ => ()) = .ok () ↔
        ∃ reports, (settleTask env S.runner identifier item).outcome = .ok reports := by
      cases (settleTask env S.runner identifier item).outcome <;> simp [Except.map]
    rw [returns]
    by_cases processing : item.status = .processing
    · rw [settleTask_ok_iff processing]
      exact ⟨fun clean _ => clean, fun clean => clean processing⟩
    · have waits : ¬ HasEnded item.future item.status := fun ended => processing ended.1
      rw [settleTask_waiting waits fun here => absurd here processing]
      exact iff_of_true ⟨_, rfl⟩ fun here => absurd here processing

/-- A task without a result stays, if its iteration returns. -/
theorem taskStep_waiting (found : S.tasks.get? id = some item) (waits : ¬ HasEnded item.future item.status)
    (ok : (S.taskStep env id).1 = .ok ()) :
    (S.taskStep env id).2.tasks.get? id = some { item with status := promote item.future item.status } := by
  have given : item.status = .processing → item.future ≠ none := by
    intro processing none
    obtain ⟨f, future, -⟩ := taskStep_ok_iff.mp ok item found processing
    rw [none] at future
    cases future
  simp [Tracker.taskStep, found, settleTask_waiting waits given, putBack]

/-! ## The whole pass -/

/-- The loop over the jobs, where it returns: jobs without a result stay, a job that ended with an
error has no tracked task, and nothing else changes. -/
theorem jobLoop_spec {after : Tracker} (ran : forEach (Tracker.jobStep env bridge) S S.jobs.keys = (.ok (), after)) :
    after.tasks = S.tasks ∧ after.cancelled = S.cancelled ∧
      ∀ id item, S.jobs.get? id = some item → (¬ HasEnded item.future item.status →
          after.jobs.get? id = some { item with status := promote item.future item.status }) ∧
        (item.EndsWithError env id → ∀ t task, S.tasks.get? t = some task → task.description.jobId ≠ id) := by
  have keeps : ∀ S' id, S'.tasks = S.tasks ∧ S'.cancelled = S.cancelled →
      (Tracker.jobStep env bridge S' id).2.tasks = S.tasks ∧
        (Tracker.jobStep env bridge S' id).2.cancelled = S.cancelled :=
    fun _ _ same => ⟨jobStep_frame.1.trans same.1, jobStep_frame.2.1.trans same.2⟩
  obtain ⟨⟨tasks, cancelled⟩, each⟩ := forEach_each (fun S' id => S'.jobs.get? id)
    (fun _ _ => jobStep_frame.2.2) keeps ⟨rfl, rfl⟩ S.jobs.nodup (congrArg Prod.fst ran)
  obtain rfl : _ = after := congrArg Prod.snd ran
  refine ⟨tasks, cancelled, fun id item found => ?_⟩
  obtain ⟨S', ⟨tasks, -⟩, same, returned, after⟩ :=
    each id (Dict.mem_keys_iff.mpr ⟨item, found⟩)
  rw [← same] at found
  refine ⟨fun waits => after.trans (jobStep_waiting found waits), fun failed => ?_⟩
  -- a clean state has no tracked task of a job that fails
  have clean := jobStep_ok_iff.mp returned item found
  rw [tasks] at clean
  obtain ⟨processing, ⟨code, future, fails⟩ | ⟨e, future⟩⟩ := failed
  · obtain ⟨code', future', -, none⟩ := clean ⟨processing, _, future, nofun, nofun⟩
    rw [future, some.injEq, Future.finished.injEq] at future'
    subst future'
    exact none fails
  · obtain ⟨code', future', -⟩ := clean ⟨processing, _, future, nofun, nofun⟩
    rw [future] at future'
    cases future'

/-- The loop over the tasks, where it returns: tasks without a result stay, and nothing else
changes. -/
theorem taskLoop_spec {after : Tracker} (ran : forEach (Tracker.taskStep env) S S.tasks.keys = (.ok (), after)) :
    after.jobs = S.jobs ∧ after.cancelled = S.cancelled ∧
      ∀ id item, S.tasks.get? id = some item → ¬ HasEnded item.future item.status →
        after.tasks.get? id = some { item with status := promote item.future item.status } := by
  have keeps : ∀ S' id, S'.jobs = S.jobs ∧ S'.cancelled = S.cancelled → (Tracker.taskStep env S' id).2.jobs = S.jobs ∧
        (Tracker.taskStep env S' id).2.cancelled = S.cancelled :=
    fun _ _ same => ⟨taskStep_frame.1.trans same.1, taskStep_frame.2.1.trans same.2⟩
  obtain ⟨⟨jobs, cancelled⟩, each⟩ := forEach_each (fun S' id => S'.tasks.get? id)
    (fun _ _ => taskStep_frame.2.2) keeps ⟨rfl, rfl⟩ S.tasks.nodup (congrArg Prod.fst ran)
  obtain rfl : _ = after := congrArg Prod.snd ran
  refine ⟨jobs, cancelled, fun id item found waits => ?_⟩
  obtain ⟨S', -, same, returned, after⟩ := each id (Dict.mem_keys_iff.mpr ⟨item, found⟩)
  rw [← same] at found
  exact after.trans (taskStep_waiting found waits returned)

/-- The pass returns exactly when each iteration finds a clean state. -/
theorem resultsPass_ok_iff : (S.resultsPass env bridge).1 = .ok () ↔ S.PassClean env bridge := by
  unfold Tracker.resultsPass Tracker.PassClean
  simp only [← forEach_ok_iff (fun S identifier => @jobStep_ok_iff env bridge S identifier),
    ← forEach_ok_iff (fun S identifier => @taskStep_ok_iff env S identifier)]
  split
  next raised => simp [raised]
  next returned => simp [returned]

/-- The end of a job takes its tasks with it, and the pass returns, exactly when each iteration finds a
clean state: results settle, and no tracked task belongs to a job that ends with an error. -/
theorem resultsPass_takesTasks_iff (env : Env) (bridge : String → JobStatus) (S : Tracker) :
    (S.resultsPass env bridge).1 = .ok () ∧ TakesTasks env S (S.resultsPass env bridge).2 ↔ S.PassClean env bridge := by
  rw [resultsPass_ok_iff]
  refine ⟨fun h => h.1, fun clean => ⟨clean, ?_⟩⟩
  have jobs_ok := (forEach_ok_iff (fun _ _ => jobStep_ok_iff) _ _).mpr clean.1
  have tasks_ok := (forEach_ok_iff (fun _ _ => taskStep_ok_iff) _ _).mpr clean.2
  obtain ⟨same_tasks, none_cancelled, jobs⟩ := jobLoop_spec (Prod.ext jobs_ok rfl)
  obtain ⟨same_jobs, still_none, tasks⟩ := taskLoop_spec (Prod.ext tasks_ok rfl)
  have final : (S.resultsPass env bridge).2 = (forEach (Tracker.taskStep env)
      (forEach (Tracker.jobStep env bridge) { S with cancelled := [] } S.jobs.keys).2
      (forEach (Tracker.jobStep env bridge) { S with cancelled := [] } S.jobs.keys).2.tasks.keys).2 := by
    simp only [Tracker.resultsPass, jobs_ok]
  rw [final]
  constructor
  · intro identifier
    rw [still_none, none_cancelled]
    refine iff_of_false not_mem_nil fun doomed => ?_
    obtain ⟨task, job, found, -, found_job, failed⟩ := doomed
    exact (jobs _ job found_job).2 failed identifier task found rfl
  · intro identifier item found waits
    rw [same_jobs]
    exact (jobs identifier item found).1 waits
  · intro identifier item found _ waits
    rw [← same_tasks] at found
    exact tasks identifier item found waits

/-- A job on the small manager. -/
def failingJob : JobConf :=
  ⟨"job", none, ⟨.low, plainLimits 1 1 1, plainLimits 1 1 1, .klever⟩⟩

/-- The job runs, its client has exited with an error, and a task of it waits for its start. -/
def failingTracker : Tracker where
  runner := ⟨(claimResources smallManager "job" (.job failingJob) "node").2, fun _ => ["job"]⟩
  jobs := Dict.empty.set "job" ⟨.processing, failingJob, some (.finished 1), none, false, 0⟩
  tasks := Dict.empty.set "task" ⟨.pending, ⟨"job", .low, plainLimits 1 1 1⟩, none, none, none, false, false, 0⟩
  sent := []
  cancelled := []

/-- The working directory of the failing job is there. -/
def failingEnv : Env :=
  { smallEnv with workDir := fun _ _ => ⟨true, 1, none, .missing, none⟩ }

/-- The failing job does not take its task with it: the pass raises. -/
theorem resultsPass_raises : (failingTracker.resultsPass failingEnv fun _ => .processing).1 =
      .error (.typeError "string indices must be integers") ∧
    failingTracker.Doomed failingEnv "task" ∧
    "task" ∉ (failingTracker.resultsPass failingEnv fun _ => .processing).2.cancelled := by
  refine ⟨rfl, ⟨_, _, rfl, by decide, rfl, rfl, .inl ⟨1, rfl, ?_⟩⟩, ?_⟩
  · exact .inr (.inr (by decide))
  · exact not_mem_nil

end Klever.Scheduler
