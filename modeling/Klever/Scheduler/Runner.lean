import Klever.Lib.Except
import Klever.Scheduler.Accounting

/-!
# How a job or a task ends

The runner side of `klever/scheduler/schedulers/runners.py` and `native.py`: a result is processed
(`process_job_result`, `process_task_result`) or the solution is cancelled (`cancel_job`,
`cancel_task`). All four end in `_postprocess_solution`, which releases the resources, inspects what
the client left in the working directory and cleans that directory up.

Futures, processes and the working directory are the environment here: a future is queued, running or
done; a process that is terminated has an exit code, unless it could not be terminated; a working
directory holds the files that the code looks at. A started job or task (`Started`) should release its
resources once, under its own kind, and no exception but the handled `SchedulerException` should leave
(`ReleasedOnce`); so should the started tasks that are cancelled with their job. `ending_releasedOnce_iff`
says which endings do: in particular no cancellation of a task does, alone or with its job, since
`_cancel_task` post-processes the task as a job, and no cancellation in the queue, since nothing is
released then.

What is left out: `check_resources`, by which a task is prepared again after it ran out of memory; the
environment says whether it refuses. Its exceptions are all `SchedulerException`s, which
`prepare_task` handles.
-/

namespace Klever.Scheduler

open Klever.Lib List Option

/-! ## Items -/

/-- The statuses of tracked jobs and tasks. -/
inductive ItemStatus
  | pending
  | processing
  | finished
  | error
  deriving DecidableEq, Repr

/-- A future of the pool: it waits, runs, or is done with an exit code or an exception. -/
inductive Future
  | queued
  | running
  | finished (exitCode : ℤ)
  | failed (e : Exn)
  deriving DecidableEq

/-- The decision results of a task, of which only the status is read. -/
structure Solution where
  status : Option String
  deriving DecidableEq

/-- A tracked task. The key `solution` may be absent or hold nothing. -/
structure TaskItem where
  status : ItemStatus
  description : TaskDescription
  future : Option Future
  error : Option String
  solution : Option (Option Solution)
  speculative : Bool
  rescheduled : Bool
  attempts : ℕ
  deriving DecidableEq

/-- A tracked job. -/
structure JobItem where
  status : ItemStatus
  conf : JobConf
  future : Option Future
  error : Option String
  rescheduled : Bool
  attempts : ℕ
  deriving DecidableEq

/-! ## The environment -/

/-- The file with decision results: missing, not a JSON text, or read; an empty value counts as no
solution. -/
inductive ResultsFile
  | missing
  | unreadable (msg : String)
  | content (solution : Option Solution)
  deriving DecidableEq

/-- What the client left in a working directory: its size, the reason of a termination, the results
and the last critical message that is not ignored. -/
structure WorkDir where
  present : Bool
  size : ℕ
  terminationReason : Option String
  results : ResultsFile
  criticalError : Option String

/-- What the runner meets outside. -/
structure Env where
  node : String
  path : String
  keepWorkingDirectory : Bool
  workDir : Kind → String → WorkDir
  /-- The exit code of a process after the attempt to terminate it. -/
  exitCode : Kind → String → Option ℤ
  /-- The factor `try less memory`; the constructor of the runner refuses others. -/
  reducedMemoryLimit : ℚ
  reduced_pos : 0 < reducedMemoryLimit
  reduced_le : reducedMemoryLimit ≤ 1
  /-- The text with which `check_resources` refuses a task. -/
  refusesTask : Manager → TaskDescription → Option String
  /-- What the rest of `_prepare_solution` raises for a task. -/
  preparation : Manager → String → TaskDescription → Option Exn

/-- The state of the runner: its manager and the identifiers with a process of each kind. -/
structure Runner where
  manager : Manager
  processes : Kind → List String

/-- The subdirectory for jobs and for tasks. -/
def Kind.subdir : Kind → String
  | .job => "jobs"
  | .task => "tasks"

variable (env : Env)

/-- The path of a working directory. -/
def Env.workPath (kind : Kind) (identifier : String) : String :=
  env.path ++ "/" ++ kind.subdir ++ "/" ++ identifier

/-- The disk that a release keeps: the size of a directory that is not removed. -/
def Env.keptSpace (kind : Kind) (identifier : String) : ℕ :=
  if env.keepWorkingDirectory ∧ (env.workDir kind identifier).present then
    (env.workDir kind identifier).size
  else 0

/-! ## Post-processing -/

/-- What `int` is given: an exit code as a number or in a text, another text, or nothing. -/
inductive ExitCode
  | number (code : ℤ)
  | garbled (text : String)
  | missing
  deriving DecidableEq

/-- What post-processing answers: for a task a pair, for a job a word. -/
inductive Answer
  | pair (status : ItemStatus) (solution : Option Solution)
  | word (status : ItemStatus)
  deriving DecidableEq

/-- The results file of a task, under its path, and the first error message. -/
def readResults (path : String) (mode : Kind) (w : WorkDir) :
    Except Exn (Option String × Option Solution) :=
  match mode with
  | .job => .ok (none, none)
  | .task =>
    match w.results with
    | .missing => .ok (some ("Results file (" ++ path ++ "/decision results.json) is not found"), none)
    | .unreadable msg => .error (.valueError msg)
    | .content solution => .ok (none, solution)

/-- The error message after the exit code is looked at, which happens only if there is none yet. -/
def exitError (result : ExitCode) : Option String → Except Exn (Option String)
  | some msg => .ok (some msg)
  | none =>
    match result with
    | .number code =>
      .ok (if code ≠ 0 then some ("Exited with exit code: " ++ toString code) else none)
    | .garbled text => .ok (some ("Cannot cast " ++ text ++ " to integer"))
    | .missing => .error (.typeError
        "int() argument must be a string, a bytes-like object or a real number, not 'NoneType'")

/-- The answer, unless an error is raised on the way. -/
def answerOf (mode : Kind) (solution : Option Solution) : Answer :=
  match mode, solution with
  | .job, _ => .word .finished
  | .task, some s => .pair .finished (some s)
  | .task, none => .pair .error none

/-- The part of `_postprocess_solution` between the release and the clean-up, on a working directory
under its path. -/
def inspectResults (path : String) (w : WorkDir) (result : ExitCode) (mode : Kind)
    (faultTolerant : Bool) : Except Exn Answer :=
  match w.terminationReason with
  | some reason => .error (.schedulerException reason)
  | none => do
    let (missing, solution) ← readResults path mode w
    match ← exitError result (w.criticalError.or missing) with
    | some msg =>
      if faultTolerant then .ok (answerOf mode solution)
      else .error (.schedulerException (msg ++ " (please, inspect unknown reports and logs)"))
    | none => .ok (answerOf mode solution)

/-- The clean-up: removing a directory that is not there raises, in place of what was raised
before. -/
def cleanUp {α : Type} (env : Env) (identifier : String) (mode : Kind) (body : Except Exn α) :
    Except Exn α :=
  if env.keepWorkingDirectory ∨ (env.workDir mode identifier).present then body
  else .error (.osError ("[Errno 2] No such file or directory: " ++ quoted (env.workPath mode identifier)))

/-- `_postprocess_solution`. -/
def postprocessSolution (R : Runner) (identifier : String) (result : ExitCode)
    (mode : Kind) (faultTolerant : Bool) : Except Exn Answer × Runner :=
  let released :=
    releaseResources R.manager identifier env.node mode (env.keptSpace mode identifier)
  let R : Runner :=
    ⟨released.2, Function.update R.processes mode ((R.processes mode).erase identifier)⟩
  (cleanUp env identifier mode (released.1.bind fun _ => inspectResults (env.workPath mode identifier)
      (env.workDir mode identifier) result mode faultTolerant), R)

/-- `_cancel_solution`: terminate the process and post-process without regard to errors. -/
def cancelSolution (R : Runner) (exitCode : Option ℤ) (identifier : String)
    (mode : Kind) : Except Exn Answer × Runner :=
  postprocessSolution env R identifier (exitCode.elim .missing .number) mode true

/-! ## Cancellation -/

/-- `_is_cancelable`: there is a process to terminate if the future cannot be cancelled in the queue.
A future that is cancelled there needs nothing more. -/
def isCancelable (R : Runner) (kind : Kind) (identifier : String) (future : Option Future) : Bool :=
  match future with
  | none => false
  | some .queued => false
  | some _ => identifier ∈ R.processes kind

/-- The text of the error of something that had no process. -/
def cancelledEarly : String := "Task has been cancelled before execution"

/-- The unpacking of an answer into two variables. -/
def Answer.unpack : Answer → Except Exn (ItemStatus × Option Solution)
  | .pair status solution => .ok (status, solution)
  | .word _ => .error (.valueError "too many values to unpack (expected 2)")

/-- The status in an answer for a job, which is a word. -/
def Answer.status : Answer → ItemStatus
  | .pair status _ => status
  | .word status => status

/-- `cancel_task`. The private `_cancel_task` asks for the mode `job`. -/
def cancelTask (R : Runner) (identifier : String) (item : TaskItem) :
    Except Exn Unit × Runner × TaskItem :=
  if isCancelable R .task identifier item.future then
    let answer := cancelSolution env R (env.exitCode .task identifier) identifier .job
    match answer.1.bind Answer.unpack with
    | .ok (status, _) => (.ok (), answer.2, { item with status := status, future := none })
    | .error (.schedulerException msg) =>
      (.ok (), answer.2, { item with status := .error, error := some msg, future := none })
    | .error e => (.error e, answer.2, { item with future := none })
  else
    (.ok (), R, { item with status := .error, error := some cancelledEarly, future := none })

/-- What is passed as a task to cancel: its dictionary, or only its identifier. -/
inductive TaskArg
  | dict (identifier : String) (item : TaskItem)
  | bare (identifier : String)

def TaskArg.identifier : TaskArg → String
  | .dict identifier _ => identifier
  | .bare identifier => identifier

/-- The loop `for task in task_items: self.cancel_task(task["id"], task)`, with the changed items. -/
def cancelTasks (env : Env) : Runner → List TaskArg → Except Exn Unit × Runner × List (String × TaskItem)
  | R, [] => (.ok (), R, [])
  | R, .bare _ :: _ => (.error (.typeError "string indices must be integers"), R, [])
  | R, .dict identifier item :: rest =>
    match cancelTask env R identifier item with
    | (.error e, R, item) => (.error e, R, [(identifier, item)])
    | (.ok (), R, item) =>
      let later := cancelTasks env R rest
      (later.1, later.2.1, (identifier, item) :: later.2.2)

variable (R : Runner) (identifier id : String)

/-- The `try` part of `cancel_job`. -/
def cancelJobBody (item : JobItem) :
    Except Exn Unit × Runner × JobItem :=
  if isCancelable R .job identifier item.future then
    let answer := cancelSolution env R (env.exitCode .job identifier) identifier .job
    match answer.1 with
    | .ok a => (.ok (), answer.2, { item with status := a.status })
    | .error (.schedulerException msg) =>
      (.ok (), answer.2, { item with status := .error, error := some msg })
    | .error e => (.error e, answer.2, item)
  else (.ok (), R, { item with status := .error, error := some cancelledEarly })

/-- `cancel_job`: the tasks are cancelled whatever happened to the job, and an exception among them
replaces the one of the job. -/
def cancelJob (item : JobItem) (tasks : List TaskArg) :
    Except Exn Unit × Runner × JobItem × List (String × TaskItem) :=
  let body := cancelJobBody env R identifier item
  let cancelled := cancelTasks env body.2.1 tasks
  match cancelled.1 with
  | .error e => (.error e, cancelled.2.1, body.2.2, cancelled.2.2)
  | .ok () => (body.1, cancelled.2.1, { body.2.2 with future := none }, cancelled.2.2)

/-! ## Results -/

/-- The error of a solution that failed. -/
def solutionFailed (kind : String) (identifier msg : String) : String :=
  "Solution of " ++ kind ++ " " ++ identifier ++ " failed: " ++ quoted msg

variable (item : TaskItem)

/-- `Runner.process_task_result`. The result of a future that failed is its exception, raised before
the `try`. -/
def baseProcessTaskResult :
    Except Exn Bool × Runner × TaskItem :=
  match item.future with
  | some (.failed e) => (.error e, R, item)
  | some (.finished code) =>
    let item := { item with error := none }
    let answer := postprocessSolution env R identifier (.number code) .task false
    match answer.1.bind Answer.unpack with
    | .ok (status, solution) =>
      (.ok true, answer.2, { item with status := status, solution := some solution, future := none })
    | .error (.schedulerException msg) =>
      (.ok true, answer.2, { item with
        status := .error
        error := some (solutionFailed "task" identifier msg)
        future := none })
    | .error e => (.error e, answer.2, { item with future := none })
  | _ => (.ok false, R, item)

/-- Limits with another memory size. -/
def Limits.withMemory (l : Limits) (memory : ℕ) : Limits where
  cpuModel := l.cpuModel
  amounts := Function.update l.amounts .ram memory
  nonneg r := by
    by_cases h : r = .ram
    · subst h
      rw [Function.update_self]
      exact Int.natCast_nonneg _
    · rw [Function.update_of_ne h]
      exact l.nonneg r

/-- A task description with another memory size. -/
def TaskDescription.withMemory (d : TaskDescription) (memory : ℕ) : TaskDescription :=
  { d with resourceLimits := d.resourceLimits.withMemory memory }

/-- The memory limit of a task. -/
def TaskItem.memory : ℤ := item.description.resourceLimits.amounts .ram

/-- The statuses of a solution that mean too little memory. -/
def outOfMemory : List String :=
  ["OUT OF MEMORY", "OUT OF JAVA MEMORY", "TIMEOUT (OUT OF JAVA MEMORY)"]

/-- The text with which a task is not prepared. -/
def notPrepared (identifier msg : String) : String :=
  "Cannot prepare task " ++ quoted identifier ++ " for submission: " ++ quoted msg

/-- `prepare_task`. -/
def prepareTask : TaskItem :=
  match env.refusesTask R.manager item.description with
  | some msg => { item with status := .error, error := some (notPrepared identifier msg) }
  | none => item

/-- A speculative task that ran out of memory: the limit is restored, the task is prepared and goes
back to the pending ones. `int` cuts off the fraction of a number that is not negative. -/
def reschedule : TaskItem :=
  let memory := ⌊(item.memory : ℚ) / env.reducedMemoryLimit⌋₊
  let item := { item with description := item.description.withMemory memory }
  { prepareTask env R identifier item with status := .pending, rescheduled := true }

/-- `TryLessMemoryRunner.process_task_result`. -/
def processTaskResult :
    Except Exn Bool × Runner × TaskItem :=
  match item.future with
  | none => (.error (.keyError "future"), R, item)
  | some .queued => (.ok false, R, item)
  | some .running => (.ok false, R, item)
  | some _ =>
    match baseProcessTaskResult env R identifier item with
    | (.error e, R, item) => (.error e, R, item)
    | (.ok _, R, item) =>
      match item.solution with
      | none => (.ok true, R, item)
      | some none =>
        (.error (.attributeError "'NoneType' object has no attribute 'get'"), R, item)
      | some (some solution) =>
        if (∃ status ∈ outOfMemory, solution.status = some status) ∧ item.speculative then
          (.ok true, R, reschedule env R identifier item)
        else (.ok true, R, item)

/-- `process_job_result`. The tasks of a job that failed are cancelled. -/
def processJobResult (item : JobItem)
    (tasks : List TaskArg) : Except Exn Bool × Runner × JobItem × List (String × TaskItem) :=
  match item.future with
  | some (.failed e) => (.error e, R, item, [])
  | some (.finished code) =>
    let item := { item with error := none }
    let answer := postprocessSolution env R identifier (.number code) .job false
    match answer.1 with
    | .ok a => (.ok true, answer.2, { item with status := a.status, future := none }, [])
    | .error (.schedulerException msg) =>
      let item := { item with
        status := .error
        error := some (solutionFailed "job" identifier msg)
        future := none }
      let cancelled := cancelTasks env answer.2 tasks
      (cancelled.1.map fun _ => true, cancelled.2.1, item, cancelled.2.2)
    | .error e => (.error e, answer.2, { item with future := none }, [])
  | _ => (.ok false, R, item, [])

/-! ## Endings -/

/-- The ways in which something that was started ends, with what is passed to the runner. -/
inductive Ending
  | jobResult (item : JobItem) (tasks : List TaskArg)
  | taskResult (item : TaskItem)
  | cancelJob (item : JobItem) (tasks : List TaskArg)
  | cancelTask (item : TaskItem)

namespace Ending

/-- What ends. -/
def kind : Ending → Kind
  | .jobResult .. => .job
  | .cancelJob .. => .job
  | .taskResult .. => .task
  | .cancelTask .. => .task

/-- The outcome of the runner's method and the state it leaves. -/
def run (env : Env) (R : Runner) (identifier : String) : Ending → Except Exn Unit × Runner
  | .jobResult item tasks =>
    let r := processJobResult env R identifier item tasks
    (r.1.map fun _ => (), r.2.1)
  | .taskResult item =>
    let r := processTaskResult env R identifier item
    (r.1.map fun _ => (), r.2.1)
  | .cancelJob item tasks =>
    let r := Scheduler.cancelJob env R identifier item tasks
    (r.1, r.2.1)
  | .cancelTask item =>
    let r := Scheduler.cancelTask env R identifier item
    (r.1, r.2.1)

/-- A started job or task has a future, and its result is processed when that is done. The client of a
job that waits in the queue has not written anything. -/
def Ended (env : Env) (identifier : String) : Ending → Prop
  | .jobResult item _ => ∃ f, item.future = some f ∧ f ≠ .queued ∧ f ≠ .running
  | .taskResult item => ∃ f, item.future = some f ∧ f ≠ .queued ∧ f ≠ .running
  | .cancelJob item _ => item.future ≠ none ∧
      (item.future = some .queued → (env.workDir .job identifier).terminationReason = none)
  | .cancelTask item => item.future ≠ none

end Ending

/-- The job or task runs on the runner's node: the manager keeps a ledger in which it has an entry
there, and it has a process and a working directory. -/
structure Started (kind : Kind) (identifier : String) (L : Ledger) : Prop where
  accounts : Accounts L R.manager
  entry : ∃ e ∈ L.entries, e.isOf kind identifier = true ∧ e.node = env.node
  process : identifier ∈ R.processes kind
  workDir : (env.workDir kind identifier).present = true

/-- Each job and task is released under its own kind, with the disk of a kept directory. -/
def releaseEach : Manager → List (Kind × String) → Except Exn Unit × Manager
  | m, [] => (.ok (), m)
  | m, (kind, identifier) :: rest =>
    match releaseResources m identifier env.node kind (env.keptSpace kind identifier) with
    | (.error e, m) => (.error e, m)
    | (.ok (), m) => releaseEach m rest

/-- The tasks whose resources have been claimed. -/
def startedTasks (tasks : List TaskArg) : List String :=
  (tasks.map TaskArg.identifier).filter fun id => (R.manager.stored .task id).isSome

/-- The client reports a failure. -/
def WorkDir.Fails (w : WorkDir) (exitCode : ℤ) : Prop :=
  w.terminationReason ≠ none ∨ w.criticalError ≠ none ∨ exitCode ≠ 0

instance (w : WorkDir) (exitCode : ℤ) : Decidable (w.Fails exitCode) :=
  inferInstanceAs (Decidable (_ ∨ _ ∨ _))

/-- The started tasks that end with their job: those of a job that is cancelled or has failed. -/
def Ending.along (identifier : String) : Ending → List String
  | .jobResult item tasks =>
    match item.future with
    | some (.finished code) => if (env.workDir .job identifier).Fails code then startedTasks R tasks else []
    | _ => []
  | .cancelJob _ tasks => startedTasks R tasks
  | .taskResult _ | .cancelTask _ => []

/-- Nothing is raised, and the manager is left as by one release of the job or task and of each started
task that ends with it, under their own kinds. -/
def ReleasedOnce (kind : Kind) (identifier : String) (along : List String)
    (outcome : Except Exn Unit × Runner) : Prop :=
  outcome.1 = .ok () ∧
    releaseEach env R.manager ((kind, identifier) :: along.map fun id => (.task, id)) = (.ok (), outcome.2.manager)

/-- The kept disk has room after the release. -/
def KeepsSpace (kind : Kind) (identifier : String) : Prop :=
  ∀ conf n, R.manager.stored kind identifier = some conf → R.manager.systemStatus.get? env.node = some n →
    (n.left conf.limits.amounts kind identifier).Keeps (env.keptSpace kind identifier)

/-- A task to cancel that has no process: it is given by its dictionary and was not started, waits in
the queue, or its process is not known. -/
def TaskArg.Quiet : TaskArg → Prop
  | .dict identifier item => isCancelable R .task identifier item.future = false
  | .bare _ => False

/-- A quiet task that has not been started. -/
def TaskArg.Idle (t : TaskArg) : Prop := t.Quiet R ∧ R.manager.stored .task t.identifier = none

/-- The result of a task can be processed: the results are readable, a run that succeeded has left a
solution, and after a run that failed the item does not hold an empty solution. -/
structure TaskItem.Readable (w : WorkDir) (exitCode : ℤ) (item : TaskItem) : Prop where
  readable : w.terminationReason = none → ∀ msg, w.results ≠ .unreadable msg
  failed : w.Fails exitCode ∨ w.results = .missing → item.solution ≠ some none
  solved : ¬ w.Fails exitCode → w.results ≠ .content none

/-- The endings that release once. A result has an exit code and room for its kept disk; if a job
failed, its tasks are idle, and the result of a task can be processed. A job that is cancelled has
left the queue, its exit code is known unless there is another error, and its tasks are idle. -/
def Ending.Clean (identifier : String) : Ending → Prop
  | .jobResult item tasks => KeepsSpace env R .job identifier ∧ ∃ code, item.future = some (.finished code) ∧
        ((env.workDir .job identifier).Fails code → ∀ t ∈ tasks, t.Idle R)
  | .taskResult item => KeepsSpace env R .task identifier ∧ ∃ code, item.future = some (.finished code) ∧
        item.Readable (env.workDir .task identifier) code
  | .cancelJob item tasks => KeepsSpace env R .job identifier ∧ item.future ≠ some .queued ∧
      (env.exitCode .job identifier = none → (env.workDir .job identifier).terminationReason ≠ none ∨
        (env.workDir .job identifier).criticalError ≠ none) ∧
      ∀ t ∈ tasks, t.Idle R
  | .cancelTask _ => False

/-! ## One release -/

variable {m : Manager} {id node : String} {kind : Kind} {keepDisk : ℕ}

/-- A release takes no configuration in. -/
theorem release_stored_none {kind' : Kind} {identifier' : String} (absent : m.stored kind' identifier' = none) :
    (releaseResources m id node kind keepDisk).2.stored kind' identifier' = none := by
  unfold releaseResources
  repeat' split
  · exact absent
  · exact absent
  · exact absent
  · exact absent
  · simp [Manager.stored_unstore, absent]

/-- A release drops the configuration and no other. -/
theorem release_stored {m' : Manager} (ok : releaseResources m id node kind keepDisk = (.ok (), m')) :
    m.stored kind id ≠ none ∧ ∀ kind' id', m'.stored kind' id' =
      if kind' = kind ∧ id' = id then none else m.stored kind' id' := by
  obtain ⟨conf, n, stored, -, -, -, -, rfl⟩ := release_ok_iff.mp ok
  refine ⟨by simp [stored], fun kind' id' => ?_⟩
  rw [Manager.withStatus_stored, Manager.stored_unstore]

/-- A release leaves what is stored under the other kind, whether it raises or not. -/
theorem release_stored_other {kind' : Kind} (other : kind' ≠ kind) {id' : String} :
    (releaseResources m id node kind keepDisk).2.stored kind' id' = m.stored kind' id' := by
  unfold releaseResources
  repeat' split
  · rfl
  · rfl
  · rfl
  · rfl
  · simp [Manager.stored_unstore, other]

variable {m' : Manager} {rest : List (Kind × String)}

theorem releaseEach_cons : releaseEach env m ((kind, id) :: rest) = (.ok (), m') ↔
    ∃ m₁, releaseResources m id env.node kind (env.keptSpace kind id) = (.ok (), m₁) ∧
      releaseEach env m₁ rest = (.ok (), m') := by
  rw [releaseEach]
  rcases releaseResources m id env.node kind (env.keptSpace kind id) with ⟨e | ⟨⟩, m₁⟩
  · simp
  · simp

theorem releaseEach_stored_none (absent : m.stored kind id = none) (ok : releaseEach env m rest = (.ok (), m')) :
    m'.stored kind id = none := by
  induction rest generalizing m with
  | nil =>
    cases ok
    exact absent
  | cons x rest ih =>
    obtain ⟨m₁, first, later⟩ := (releaseEach_cons env).mp ok
    have after := @release_stored_none m x.2 env.node x.1 (env.keptSpace x.1 x.2) kind id absent
    rw [first] at after
    exact ih after later

/-- What has been released is not stored any more. -/
theorem releaseEach_dropped (ok : releaseEach env m rest = (.ok (), m')) (mem : (kind, id) ∈ rest) :
    m'.stored kind id = none := by
  induction rest generalizing m with
  | nil => cases mem
  | cons x rest ih =>
    obtain ⟨m₁, first, later⟩ := (releaseEach_cons env).mp ok
    obtain rfl | mem := mem_cons.mp mem
    · exact releaseEach_stored_none env (((release_stored first).2 ..).trans (if_pos ⟨rfl, rfl⟩)) later
    · exact ih later mem

theorem releasedOnce_nil {outcome : Except Exn Unit × Runner} : ReleasedOnce env R kind id [] outcome ↔
    outcome.1 = .ok () ∧
      releaseResources R.manager id env.node kind (env.keptSpace kind id) = (.ok (), outcome.2.manager) := by
  rw [ReleasedOnce, List.map_nil, releaseEach_cons]
  simp [releaseEach]

/-- The exceptions of the loop are those of its check. -/
theorem bookLoop_error {delta : Amounts} {refuses : Resource → ℤ → ℤ → Option Exn}
    {rs : List Resource} {n : Node} {e : Exn} (failed : (bookLoop delta refuses rs n).1 = .error e) :
    ∃ r x y, refuses r x y = some e := by
  induction rs generalizing n with
  | nil => cases failed
  | cons r rs ih =>
    simp only [bookLoop] at failed
    split at failed
    next refused =>
      cases failed
      exact ⟨_, _, _, refused⟩
    next => exact ih failed

/-- A release does not raise the exception that the runner handles. -/
theorem release_error {e : Exn} (failed : (releaseResources m id node kind keepDisk).1 = .error e) (msg : String) :
    e ≠ .schedulerException msg := by
  rintro rfl
  unfold releaseResources at failed
  split at failed
  next => cases failed
  next conf stored =>
    split at failed
    next => cases failed
    next n found =>
      split at failed
      next => cases failed
      next =>
        rcases released : releaseAmount m.systemStatus conf.limits node with ⟨e | ⟨⟩, status⟩
        · simp only [released] at failed
          cases failed
          have refused := congrArg Prod.fst released
          simp only [releaseAmount, onNode, found] at refused
          obtain ⟨r, x, y, raised⟩ := bookLoop_error refused
          simp only [belowZero] at raised
          split at raised <;> cases raised
        · simp only [released, onNode] at failed
          split at failed
          next => cases failed
          next =>
            rw [keepDiskAt_eq] at failed
            split at failed <;> cases failed

/-- Post-processing gets through: the release has what it needs, and the clean-up finds its
directory. -/
structure Settles (kind : Kind) (identifier : String) : Prop where
  released : ∃ conf n, R.manager.stored kind identifier = some conf ∧
    R.manager.systemStatus.get? env.node = some n ∧ identifier ∈ n.running kind ∧
    n.Covers conf.limits.amounts ∧
    (n.left conf.limits.amounts kind identifier).Keeps (env.keptSpace kind identifier)
  directory : env.keepWorkingDirectory = true ∨ (env.workDir kind identifier).present = true

/-- A started job or task settles exactly when its kept disk has room. -/
theorem Started.settles_iff {env : Env} {R : Runner} {identifier : String} {L : Ledger}
    (h : Started env R kind identifier L) :
    Settles env R kind identifier ↔ KeepsSpace env R kind identifier := by
  obtain ⟨e, mem, same, here⟩ := h.entry
  obtain ⟨n, found⟩ := h.accounts.known e mem
  rw [here] at found
  have stored := (h.accounts.stored kind identifier e.conf).mpr ⟨e, mem, same, rfl⟩
  constructor
  · intro settles conf n stored' found'
    obtain ⟨conf₁, n₁, stored₁, found₁, -, -, keeps⟩ := settles.released
    rw [stored', some.injEq] at stored₁
    rw [found', some.injEq] at found₁
    subst stored₁ found₁
    exact keeps
  · intro keeps
    have listed : identifier ∈ n.running kind := by
      rw [h.accounts.running env.node n found, Ledger.mem_listed]
      exact ⟨e, mem, same, here⟩
    have covers : n.Covers e.conf.limits.amounts := h.accounts.covers found mem here
    exact ⟨⟨e.conf, n, stored, found, listed, covers, keeps e.conf n stored found⟩, .inr h.workDir⟩

/-- The state that post-processing leaves. -/
def Runner.released (kind : Kind) (identifier : String) (m : Manager) : Runner :=
  ⟨m, Function.update R.processes kind ((R.processes kind).erase identifier)⟩

/-- Post-processing: the release is done and the results are inspected, or an exception that is not
handled leaves. -/
theorem postprocess_cases (kind : Kind) (id : String) (result : ExitCode) (faultTolerant : Bool) :
    (Settles env R kind id ∧ ∃ m', releaseResources R.manager id env.node kind (env.keptSpace kind id) = (.ok (), m') ∧
      postprocessSolution env R id result kind faultTolerant =
        (inspectResults (env.workPath kind id) (env.workDir kind id) result kind
          faultTolerant, R.released kind id m')) ∨
    (¬ Settles env R kind id ∧ ∃ e, (postprocessSolution env R id result kind faultTolerant).1 = .error e ∧
        ∀ msg, e ≠ .schedulerException msg) := by
  by_cases directory : env.keepWorkingDirectory = true ∨ (env.workDir kind id).present = true
  · rcases released : releaseResources R.manager id env.node kind
      (env.keptSpace kind id) with ⟨e | ⟨⟩, m'⟩
    · refine .inr ⟨fun settles => ?_, e, ?_, release_error (congrArg Prod.fst released)⟩
      · obtain ⟨conf, n, stored, found, listed, covers, keeps⟩ := settles.released
        rw [release_ok_iff.mpr ⟨conf, n, stored, found, listed, covers, keeps, rfl⟩] at released
        cases released
      · simp only [postprocessSolution, cleanUp, if_pos directory, released]
        rfl
    · obtain ⟨conf, n, stored, found, listed, covers, keeps, -⟩ := release_ok_iff.mp released
      refine .inl ⟨⟨⟨conf, n, stored, found, listed, covers, keeps⟩, directory⟩, m', rfl, ?_⟩
      simp only [postprocessSolution, cleanUp, if_pos directory, released]
      rfl
  · exact .inr ⟨fun settles => directory settles.directory, _, if_neg directory, fun _ => nofun⟩

/-! ## What post-processing answers -/

variable {path : String} {w : WorkDir}

/-- The result of a job: an error that is handled if the client reports a failure. -/
theorem inspect_job (code : ℤ) : (w.Fails code ∧ ∃ msg, inspectResults path w (.number code) .job false =
      .error (.schedulerException msg)) ∨
    (¬ w.Fails code ∧ inspectResults path w (.number code) .job false = .ok (.word .finished)) := by
  obtain ⟨present, size, reason, results, critical⟩ := w
  cases reason with
  | some text => exact .inl ⟨.inl nofun, text, rfl⟩
  | none =>
    cases critical with
    | some text => exact .inl ⟨.inr (.inl nofun), _, rfl⟩
    | none =>
      by_cases zero : code = 0
      · subst zero
        exact .inr ⟨by simp [WorkDir.Fails], rfl⟩
      · refine .inl ⟨.inr (.inr zero), ?_⟩
        simp only [inspectResults, readResults, exitError, ne_eq, zero, not_false_eq_true, if_true]
        exact ⟨_, rfl⟩

/-- The result of a task. -/
theorem inspect_task (code : ℤ) : (∃ text, w.terminationReason = none ∧ w.results = .unreadable text ∧
      inspectResults path w (.number code) .task false = .error (.valueError text)) ∨
    ((w.Fails code ∨ w.results = .missing) ∧ (w.terminationReason = none → ∀ msg, w.results ≠ .unreadable msg) ∧
      ∃ msg, inspectResults path w (.number code) .task false = .error (.schedulerException msg)) ∨
    (¬ w.Fails code ∧ ∃ solution, w.results = .content solution ∧
      inspectResults path w (.number code) .task false = .ok (answerOf .task solution)) := by
  obtain ⟨present, size, reason, results, critical⟩ := w
  cases reason with
  | some text => exact .inr (.inl ⟨.inl (.inl nofun), nofun, text, rfl⟩)
  | none =>
    cases results with
    | unreadable text => exact .inl ⟨text, rfl, rfl, rfl⟩
    | missing =>
      refine .inr (.inl ⟨.inr rfl, fun _ => nofun, ?_⟩)
      cases critical <;> exact ⟨_, rfl⟩
    | content solution =>
      cases critical with
      | some text =>
        exact .inr (.inl ⟨.inl (.inr (.inl nofun)), fun _ => nofun, _, rfl⟩)
      | none =>
        by_cases zero : code = 0
        · subst zero
          exact .inr (.inr ⟨by simp [WorkDir.Fails], solution, rfl, rfl⟩)
        · refine .inr (.inl ⟨.inl (.inr (.inr zero)), fun _ => nofun, ?_⟩)
          simp only [inspectResults, readResults, exitError, ne_eq, zero, not_false_eq_true, if_true]
          exact ⟨_, rfl⟩

/-- The post-processing of a cancelled job: the reason of a termination is raised and handled, errors
do not count, but an exit code that is missing is an error of its own. -/
theorem inspect_cancel (exitCode : Option ℤ) : (w.terminationReason ≠ none ∧
      ∃ msg, inspectResults path w (exitCode.elim .missing .number) .job true = .error (.schedulerException msg)) ∨
    (w.terminationReason = none ∧ (exitCode ≠ none ∨ w.criticalError ≠ none) ∧
      inspectResults path w (exitCode.elim .missing .number) .job true = .ok (.word .finished)) ∨
    (w.terminationReason = none ∧ w.criticalError = none ∧ exitCode = none ∧
      ∃ msg, inspectResults path w (exitCode.elim .missing .number) .job true = .error (.typeError msg)) := by
  obtain ⟨present, size, reason, results, critical⟩ := w
  cases reason with
  | some text => exact .inl ⟨nofun, text, rfl⟩
  | none =>
    cases critical with
    | some text => exact .inr (.inl ⟨rfl, .inr nofun, rfl⟩)
    | none =>
      cases exitCode with
      | none => exact .inr (.inr ⟨rfl, rfl, rfl, _, rfl⟩)
      | some code =>
        refine .inr (.inl ⟨rfl, .inl nofun, ?_⟩)
        by_cases zero : code = 0
        · subst zero
          rfl
        · simp only [inspectResults, readResults, exitError, elim_some, ne_eq, zero, not_false_eq_true, if_true]
          rfl

/-! ## Cancelled tasks -/

variable {env : Env} {R : Runner}

/-- A task without a process is only marked. -/
theorem cancelTask_quiet {item : TaskItem} (quiet : isCancelable R .task id item.future = false) :
    cancelTask env R id item =
      (.ok (), R, { item with status := .error, error := some cancelledEarly, future := none }) := by
  simp [cancelTask, quiet]

/-- A task with a process is post-processed as a job. If nothing is raised, a job of that identifier
has been released, and its client had left the reason of a termination. -/
theorem cancelTask_loud {id : String} {item : TaskItem} (loud : isCancelable R .task id item.future = true)
    (ok : (cancelTask env R id item).1 = .ok ()) :
    (env.workDir .job id).terminationReason ≠ none ∧
      releaseResources R.manager id env.node .job (env.keptSpace .job id) =
        (.ok (), (cancelTask env R id item).2.1.manager) := by
  rcases postprocess_cases env R .job id
    ((env.exitCode .task id).elim .missing .number) true with
    ⟨-, m', released, answered⟩ | ⟨-, e, raised, unhandled⟩
  · rcases @inspect_cancel (env.workPath .job id) (env.workDir .job id)
      (env.exitCode .task id) with
      ⟨reason, msg, inspected⟩ | ⟨-, -, inspected⟩ | ⟨-, -, -, msg, inspected⟩
    · refine ⟨reason, ?_⟩
      simp only [cancelTask, loud, if_true, cancelSolution, answered, inspected, Except.bind]
      exact released
    · -- the answer is a word, which cannot be unpacked
      simp [cancelTask, loud, cancelSolution, answered, inspected, Except.bind, Answer.unpack] at ok
    · simp [cancelTask, loud, cancelSolution, answered, inspected, Except.bind] at ok
  · cases e with
    | schedulerException msg => exact absurd rfl (unhandled msg)
    | _ => simp [cancelTask, loud, cancelSolution, raised, Except.bind] at ok

/-- A cancelled task takes no configuration of a job in. -/
theorem cancelTask_stored_none {id job : String} {item : TaskItem} (absent : R.manager.stored .job job = none) :
    (cancelTask env R id item).2.1.manager.stored .job job = none := by
  have after : (cancelSolution env R (env.exitCode .task id) id .job).2.manager.stored
      .job job = none := release_stored_none absent
  unfold cancelTask
  split
  · simp only
    split <;> exact after
  · exact absent

theorem cancelTasks_stored_none {job : String} {tasks : List TaskArg} (absent : R.manager.stored .job job = none) :
    (cancelTasks env R tasks).2.1.manager.stored .job job = none := by
  induction tasks generalizing R with
  | nil => exact absent
  | cons task tasks ih =>
    cases task with
    | bare id => exact absent
    | dict id item =>
      have after := @cancelTask_stored_none env R id job item absent
      simp only [cancelTasks]
      rcases cancelled : cancelTask env R id item with ⟨e | ⟨⟩, R', item'⟩
      · rw [cancelled] at after
        exact after
      · rw [cancelled] at after
        exact ih after

/-- What is stored of tasks stays, since tasks are released as jobs. -/
theorem cancelTask_stored_task {id other : String} {item : TaskItem} :
    (cancelTask env R id item).2.1.manager.stored .task other = R.manager.stored .task other := by
  have after : (cancelSolution env R (env.exitCode .task id) id .job).2.manager.stored .task other =
      R.manager.stored .task other := release_stored_other (show Kind.task ≠ .job by decide)
  unfold cancelTask
  split
  · simp only
    split <;> exact after
  · rfl

theorem cancelTasks_stored_task {other : String} {tasks : List TaskArg} :
    (cancelTasks env R tasks).2.1.manager.stored .task other = R.manager.stored .task other := by
  induction tasks generalizing R with
  | nil => rfl
  | cons task tasks ih =>
    cases task with
    | bare id => rfl
    | dict id item =>
      have after := @cancelTask_stored_task env R id other item
      simp only [cancelTasks]
      rcases cancelled : cancelTask env R id item with ⟨e | ⟨⟩, R', item'⟩
      · rw [cancelled] at after
        exact after
      · rw [cancelled] at after
        exact ih.trans after

/-- Cancelling tasks raises nothing and leaves the manager as it is exactly when none of them has a
process. -/
theorem cancelTasks_clean_iff {tasks : List TaskArg} :
    ((cancelTasks env R tasks).1 = .ok () ∧ (cancelTasks env R tasks).2.1.manager = R.manager) ↔
      ∀ t ∈ tasks, t.Quiet R := by
  induction tasks with
  | nil => simp [cancelTasks]
  | cons task tasks ih =>
    rw [forall_mem_cons]
    cases task with
    | bare id => simp [cancelTasks, TaskArg.Quiet]
    | dict id item =>
      cases cancelable : isCancelable R .task id item.future with
      | false => simp [cancelTasks, cancelTask_quiet cancelable, ih, TaskArg.Quiet, cancelable]
      | true =>
        simp only [TaskArg.Quiet, cancelable, Bool.true_eq_false, false_and, iff_false]
        rintro ⟨ok, same⟩
        have loud := @cancelTask_loud env R id item cancelable
        simp only [cancelTasks] at ok same
        rcases cancelled : cancelTask env R id item with ⟨e | ⟨⟩, R', item'⟩
        · simp only [cancelled] at ok
          cases ok
        · -- the job that was released by mistake is stored before and not afterwards
          simp only [cancelled] at same loud
          obtain ⟨stored, gone⟩ := release_stored (loud trivial).2
          have final := @cancelTasks_stored_none env R' id tasks ((gone ..).trans (if_pos ⟨rfl, rfl⟩))
          rw [same] at final
          exact stored final

/-! ## Endings that release once -/

section Endings

variable {env : Env} {R : Runner} {identifier id : String} {L : Ledger} {tasks : List TaskArg}

/-- Post-processing a job does not touch the processes of tasks. -/
theorem TaskArg.quiet_released {t : TaskArg} : t.Quiet (R.released .job identifier m) ↔ t.Quiet R := by
  cases t with
  | bare => exact Iff.rfl
  | dict id item =>
    have same : (R.released .job identifier m).processes .task = R.processes .task := rfl
    simp only [TaskArg.Quiet, isCancelable, same]

/-- The tasks of a job that has been released are cancelled without a trace exactly when they are
quiet. -/
theorem cancelTasks_released_iff {m : Manager} : ((cancelTasks env (R.released .job id m) tasks).1 = .ok () ∧
      m = (cancelTasks env (R.released .job id m) tasks).2.1.manager) ↔
      ∀ t ∈ tasks, t.Quiet R := by
  rw [@eq_comm _ m]
  exact cancelTasks_clean_iff.trans (forall₂_congr fun _ _ => TaskArg.quiet_released)

theorem startedTasks_eq_nil_iff : startedTasks R tasks = [] ↔ ∀ t ∈ tasks, R.manager.stored .task t.identifier = none := by
  simp [startedTasks]

theorem forall_idle_iff : (∀ t ∈ tasks, t.Idle R) ↔ startedTasks R tasks = [] ∧ ∀ t ∈ tasks, t.Quiet R := by
  rw [startedTasks_eq_nil_iff, ← forall₂_and]
  exact forall₂_congr fun _ _ => and_comm

/-- Started tasks are not released with their job. -/
theorem not_releasedOnce_along {outcome : Except Exn Unit × Runner} (started : startedTasks R tasks ≠ [])
    (same : ∀ other, outcome.2.manager.stored .task other = R.manager.stored .task other) :
    ¬ ReleasedOnce env R .job id (startedTasks R tasks) outcome := by
  rintro ⟨-, released⟩
  obtain ⟨other, mem⟩ := exists_mem_of_ne_nil _ started
  have gone := releaseEach_dropped env released (mem_cons_of_mem _ (List.mem_map_of_mem mem))
  rw [same] at gone
  simp [startedTasks, gone] at mem

variable {item : JobItem}

/-- The result of a job: it succeeds; or it fails, and its tasks are cancelled; or processing
raises. -/
theorem processJobResult_done {code : ℤ} (future : item.future = some (.finished code)) :
    (Settles env R .job id ∧ ∃ m', releaseResources R.manager id env.node .job (env.keptSpace .job id) = (.ok (), m') ∧
      ((¬ (env.workDir .job id).Fails code ∧ processJobResult env R id item tasks = (.ok true, R.released .job id m',
              { item with status := .finished, error := none, future := none }, [])) ∨
        ((env.workDir .job id).Fails code ∧ ∃ msg, processJobResult env R id item tasks =
            ((cancelTasks env (R.released .job id m') tasks).1.map fun _ => true,
              (cancelTasks env (R.released .job id m') tasks).2.1,
              { item with
                status := .error
                error := some (solutionFailed "job" id msg)
                future := none },
              (cancelTasks env (R.released .job id m') tasks).2.2)))) ∨
    (¬ Settles env R .job id ∧ ∃ e R' after, processJobResult env R id item tasks = (.error e, R', after, [])) := by
  rcases postprocess_cases env R .job id (.number code) false with
    ⟨settles, m', released, answered⟩ | ⟨unsettled, e, raised, unhandled⟩
  · refine .inl ⟨settles, m', released, ?_⟩
    simp only [processJobResult, future, answered]
    rcases @inspect_job (env.workPath .job id) (env.workDir .job id) code with
      ⟨fails, msg, inspected⟩ | ⟨fine, inspected⟩
    · exact .inr ⟨fails, msg, by rw [inspected]⟩
    · exact .inl ⟨fine, by rw [inspected]; rfl⟩
  · refine .inr ⟨unsettled, e, ?_⟩
    simp only [processJobResult, future, raised]
    exact ⟨_, _, rfl⟩

theorem jobResult_releasedOnce_iff (h : Started env R .job identifier L)
    (ended : (Ending.jobResult item tasks).Ended env identifier) :
    ReleasedOnce env R .job identifier ((Ending.jobResult item tasks).along env R identifier)
        ((Ending.jobResult item tasks).run env R identifier) ↔
      (Ending.jobResult item tasks).Clean env R identifier := by
  obtain ⟨f, future, waits, runs⟩ := ended
  cases f with
  | queued => exact absurd rfl waits
  | running => exact absurd rfl runs
  | failed e =>
    simp [ReleasedOnce, Ending.run, Ending.Clean, processJobResult, future, Except.map]
  | finished code =>
    simp only [Ending.run, Ending.along, Ending.Clean, future, some.injEq,
      Future.finished.injEq, exists_eq_left', ← h.settles_iff]
    rcases @processJobResult_done env R identifier tasks item code future with
      ⟨settles, m', released, ⟨fine, done⟩ | ⟨fails, msg, done⟩⟩ | ⟨unsettled, e, _, _, raised⟩
    · rw [if_neg fine, releasedOnce_nil]
      simp [done, released, settles, fine, Except.map, Runner.released]
    · simp only [done, settles, fails, true_and, forall_true_left, forall_idle_iff, if_true]
      by_cases none : startedTasks R tasks = []
      · rw [none, releasedOnce_nil, released, Prod.mk.injEq, ← @cancelTasks_released_iff env R identifier tasks m']
        cases (cancelTasks env (R.released .job identifier m') tasks).1 <;> simp [Except.map]
      · refine iff_of_false (not_releasedOnce_along none fun other => ?_) fun idle => none idle.1
        have kept := @release_stored_other R.manager identifier env.node .job
          (env.keptSpace .job identifier) .task (by decide) other
        rw [released] at kept
        exact cancelTasks_stored_task.trans kept
    · simp [ReleasedOnce, raised, unsettled, Except.map]

/-- A task after its run: it failed, and an older solution stays, or its solution has been read. -/
inductive TaskItem.AfterRun (w : WorkDir) (code : ℤ) (identifier : String) (item : TaskItem) :
    TaskItem → Prop
  | failed (msg : String) (fails : w.Fails code ∨ w.results = .missing) :
    AfterRun w code identifier item { item with
      status := .error
      error := some (solutionFailed "task" identifier msg)
      future := none }
  | solved (s : Solution) (fine : ¬ w.Fails code) (results : w.results = .content (some s)) :
    AfterRun w code identifier item { item with
      status := .finished
      error := none
      solution := some (some s)
      future := none }

/-- A speculative task whose solution shows too little memory. -/
def TaskItem.Exhausted (item : TaskItem) : Prop :=
  ∃ s, item.solution = some (some s) ∧ (∃ status ∈ outOfMemory, s.status = some status) ∧ item.speculative = true

/-- What is done after a result has been post-processed depends on the solution. -/
theorem processTaskResult_of_base {item after : TaskItem} {code : ℤ} {R' : Runner}
    (future : item.future = some (.finished code))
    (base : baseProcessTaskResult env R id item = (.ok true, R', after)) :
    (after.solution = some none → ∃ e, (processTaskResult env R id item).1 = .error e) ∧
      (after.solution ≠ some none → (after.Exhausted ∧ processTaskResult env R id item =
          (.ok true, R', reschedule env R' id after)) ∨
        (¬ after.Exhausted ∧ processTaskResult env R id item = (.ok true, R', after))) := by
  simp only [processTaskResult, future, base, TaskItem.Exhausted]
  rcases after.solution with _ | _ | s
  · simp
  · simp
  · refine ⟨nofun, fun _ => ?_⟩
    dsimp only
    split
    next exhausted => exact .inl ⟨⟨s, rfl, exhausted⟩, rfl⟩
    next sufficient =>
      refine .inr ⟨?_, rfl⟩
      rintro ⟨s', same, exhausted⟩
      cases same
      exact sufficient exhausted

/-- The result of a task: it is read, and an exhausted task is rescheduled; or processing raises. -/
theorem processTaskResult_done {item : TaskItem} {code : ℤ} (future : item.future = some (.finished code)) :
    (Settles env R .task id ∧ item.Readable (env.workDir .task id) code ∧
      ∃ m', releaseResources R.manager id env.node .task
          (env.keptSpace .task id) = (.ok (), m') ∧
        ∃ after, item.AfterRun (env.workDir .task id) code id after ∧
          ((after.Exhausted ∧ processTaskResult env R id item = (.ok true, R.released .task id m',
                reschedule env (R.released .task id m') id after)) ∨
            (¬ after.Exhausted ∧ processTaskResult env R id item = (.ok true, R.released .task id m', after)))) ∨
    (¬ (Settles env R .task id ∧ item.Readable (env.workDir .task id) code) ∧
      ∃ e, (processTaskResult env R id item).1 = .error e) := by
  rcases postprocess_cases env R .task id (.number code) false with
    ⟨settles, m', released, answered⟩ | ⟨unsettled, e, raised, unhandled⟩
  · rcases @inspect_task (env.workPath .task id) (env.workDir .task id) code with
      ⟨text, no_reason, results, inspected⟩ | ⟨fails, readable, msg, inspected⟩ |
        ⟨fine, solution, results, inspected⟩
    · -- the results cannot be read
      refine .inr ⟨fun clean => clean.2.readable no_reason text results, .valueError text, ?_⟩
      simp [processTaskResult, baseProcessTaskResult, future, answered, inspected, Except.bind]
    · -- a failure is handled, and the key from an earlier run is looked at
      have base : baseProcessTaskResult env R id item =
          (.ok true, R.released .task id m', { item with
            status := .error
            error := some (solutionFailed "task" id msg)
            future := none }) := by
        simp only [baseProcessTaskResult, future, answered, inspected, Except.bind]
      obtain ⟨empty, shown⟩ := processTaskResult_of_base future base
      by_cases solution : item.solution = some none
      · exact .inr ⟨fun clean => clean.2.failed fails solution, empty solution⟩
      · have content : ¬ (env.workDir .task id).Fails code → (env.workDir .task id).results ≠ .content none := by
          intro fine
          rw [fails.resolve_left fine]
          nofun
        exact .inl ⟨settles, ⟨readable, fun _ => solution, content⟩, m', released, _, .failed msg fails, shown solution⟩
    · cases solution with
      | none =>
        have base : ∃ after, after.solution = some none ∧ baseProcessTaskResult env R id item =
              (.ok true, R.released .task id m', after) := by
          simp only [baseProcessTaskResult, future, answered, inspected]
          exact ⟨_, rfl, rfl⟩
        obtain ⟨after, nothing, base⟩ := base
        exact .inr ⟨fun clean => clean.2.solved fine results, (processTaskResult_of_base future base).1 nothing⟩
      | some s =>
        have base : baseProcessTaskResult env R id item =
            (.ok true, R.released .task id m', { item with
              status := .finished
              error := none
              solution := some (some s)
              future := none }) := by
          simp only [baseProcessTaskResult, future, answered, inspected]
          rfl
        have readable : item.Readable (env.workDir .task id) code := by
          refine ⟨fun _ msg => ?_, fun fails => ?_, fun _ => ?_⟩
          · rw [results]
            nofun
          · rw [results] at fails
            exact absurd fails (by simp [fine])
          · rw [results]
            nofun
        exact .inl ⟨settles, readable, m', released, _, .solved s fine results,
          (processTaskResult_of_base future base).2 nofun⟩
  · refine .inr ⟨fun clean => unsettled clean.1, e, ?_⟩
    cases e with
    | schedulerException msg => exact absurd rfl (unhandled msg)
    | _ => simp [processTaskResult, baseProcessTaskResult, future, raised, Except.bind]

theorem taskResult_releasedOnce_iff {item : TaskItem} (h : Started env R .task identifier L)
    (ended : (Ending.taskResult item).Ended env identifier) :
    ReleasedOnce env R .task identifier [] ((Ending.taskResult item).run env R identifier) ↔
      (Ending.taskResult item).Clean env R identifier := by
  rw [releasedOnce_nil]
  obtain ⟨f, future, waits, runs⟩ := ended
  cases f with
  | queued => exact absurd rfl waits
  | running => exact absurd rfl runs
  | failed e =>
    simp [Ending.run, Ending.Clean, processTaskResult, baseProcessTaskResult, future, Except.map]
  | finished code =>
    simp only [Ending.run, Ending.Clean, future, some.injEq,
      Future.finished.injEq, exists_eq_left', ← h.settles_iff]
    rcases @processTaskResult_done env R identifier item code future with
      ⟨settles, readable, m', released, after, -, ⟨-, done⟩ | ⟨-, done⟩⟩ | ⟨unclean, e, raised⟩
    · simp [done, released, settles, readable, Except.map, Runner.released]
    · simp [done, released, settles, readable, Except.map, Runner.released]
    · simp [raised, unclean, Except.map]

/-- Cancelled tasks drop no configuration of a job whose client left no reason of a termination. -/
theorem cancelTasks_stored_some (no_reason : (env.workDir .job identifier).terminationReason = none)
    (stored : R.manager.stored .job identifier ≠ none)
    (ok : (cancelTasks env R tasks).1 = .ok ()) :
    (cancelTasks env R tasks).2.1.manager.stored .job identifier ≠ none := by
  induction tasks generalizing R with
  | nil => exact stored
  | cons task tasks ih =>
    cases task with
    | bare => cases ok
    | dict id item =>
      cases cancelable : isCancelable R .task id item.future with
      | false =>
        simp only [cancelTasks, cancelTask_quiet cancelable] at ok ⊢
        exact ih stored ok
      | true =>
        have loud := @cancelTask_loud env R id item cancelable
        simp only [cancelTasks] at ok ⊢
        rcases cancelled : cancelTask env R id item with ⟨e | ⟨⟩, R', item'⟩
        · simp only [cancelled] at ok
          cases ok
        · simp only [cancelled] at ok loud ⊢
          obtain ⟨reason, released⟩ := loud trivial
          refine ih ?_ ok
          rw [(release_stored released).2, if_neg]
          · exact stored
          · exact fun same => reason (same.2 ▸ no_reason)

/-- A job that is cancelled in the queue keeps its resources. -/
theorem cancelJob_queued (queued : item.future = some .queued) (ended : (Ending.cancelJob item tasks).Ended env id) :
    ¬ ReleasedOnce env R .job id [] ((Ending.cancelJob item tasks).run env R id) := by
  rw [releasedOnce_nil]
  rintro ⟨ok, released⟩
  obtain ⟨stored, left⟩ := release_stored released
  have dropped := (left ..).trans (if_pos ⟨rfl, rfl⟩)
  simp only [Ending.run, cancelJob, cancelJobBody, queued, isCancelable, Bool.false_eq_true, if_false]
    at ok dropped
  cases cancelled : (cancelTasks env R tasks).1 with
  | error e =>
    simp only [cancelled] at ok
    cases ok
  | ok u =>
    simp only [cancelled] at dropped
    exact cancelTasks_stored_some (ended.2 queued) stored cancelled dropped

/-- The outcome of `cancel_job` in terms of its `try` part. -/
theorem cancelJob_run : (Ending.cancelJob item tasks).run env R id =
      ((cancelTasks env (cancelJobBody env R id item).2.1 tasks).1.bind fun _ => (cancelJobBody env R id item).1,
        (cancelTasks env (cancelJobBody env R id item).2.1 tasks).2.1) := by
  simp only [Ending.run, cancelJob]
  cases (cancelTasks env (cancelJobBody env R id item).2.1 tasks).1 <;> rfl

/-- If the job itself is released without an exception, the tasks decide. -/
theorem cancelJob_body_ok {m' : Manager}
    (released : releaseResources R.manager id env.node .job (env.keptSpace .job id) = (.ok (), m'))
    (body : (cancelJobBody env R id item).1 = .ok () ∧ (cancelJobBody env R id item).2.1 = R.released .job id m') :
    ReleasedOnce env R .job id [] ((Ending.cancelJob item tasks).run env R id) ↔ ∀ t ∈ tasks, t.Quiet R := by
  rw [cancelJob_run, releasedOnce_nil, released, body.1, body.2,
    ← @cancelTasks_released_iff env R id tasks m', Prod.mk.injEq]
  cases (cancelTasks env (R.released .job id m') tasks).1 <;> simp [Except.bind]

/-- If cancelling the job itself raises, so does the whole. -/
theorem cancelJob_body_error {e : Exn} (body : (cancelJobBody env R id item).1 = .error e) :
    ¬ ReleasedOnce env R .job id [] ((Ending.cancelJob item tasks).run env R id) := by
  rw [cancelJob_run, releasedOnce_nil, body]
  cases (cancelTasks env (cancelJobBody env R id item).2.1 tasks).1 <;> simp [Except.bind]

/-- Nothing is released that is stored of tasks. -/
theorem cancelJob_stored_task (other : String) :
    ((Ending.cancelJob item tasks).run env R id).2.manager.stored .task other = R.manager.stored .task other := by
  have after : (cancelSolution env R (env.exitCode .job id) id .job).2.manager.stored .task other =
      R.manager.stored .task other := release_stored_other (show Kind.task ≠ .job by decide)
  have body : (cancelJobBody env R id item).2.1.manager.stored .task other = R.manager.stored .task other := by
    unfold cancelJobBody
    split
    · simp only
      split <;> exact after
    · rfl
  rw [cancelJob_run]
  exact cancelTasks_stored_task.trans body

theorem cancelJob_releasedOnce_iff (h : Started env R .job identifier L)
    (ended : (Ending.cancelJob item tasks).Ended env identifier) :
    ReleasedOnce env R .job identifier (startedTasks R tasks) ((Ending.cancelJob item tasks).run env R identifier) ↔
      (Ending.cancelJob item tasks).Clean env R identifier := by
  by_cases none : startedTasks R tasks = []
  case neg =>
    refine iff_of_false (not_releasedOnce_along none cancelJob_stored_task) fun clean => none ?_
    exact (forall_idle_iff.mp clean.2.2.2).1
  have idle : (∀ t ∈ tasks, t.Idle R) ↔ ∀ t ∈ tasks, t.Quiet R := forall_idle_iff.trans (and_iff_right none)
  rw [none]
  by_cases queued : item.future = some .queued
  · exact iff_of_false (cancelJob_queued queued ended) fun clean => clean.2.1 queued
  have cancelable : isCancelable R .job identifier item.future = true := by
    obtain ⟨f, future⟩ := ne_none_iff_exists'.mp ended.1
    rw [future] at queued ⊢
    cases f with
    | queued => exact absurd rfl queued
    | _ => exact decide_eq_true h.process
  rcases postprocess_cases env R .job identifier
    ((env.exitCode .job identifier).elim .missing .number) true with
    ⟨settles, m', released, answered⟩ | ⟨unsettled, e, raised, unhandled⟩
  · rcases @inspect_cancel (env.workPath .job identifier) (env.workDir .job identifier)
      (env.exitCode .job identifier) with ⟨reason, msg, inspected⟩ |
        ⟨no_reason, known, inspected⟩ | ⟨no_reason, no_error, unknown, msg, inspected⟩
    · rw [cancelJob_body_ok released (by simp [cancelJobBody, cancelable, cancelSolution, answered, inspected])]
      exact ⟨fun quiet => ⟨h.settles_iff.mp settles, queued, fun _ => .inl reason, idle.mpr quiet⟩,
        fun clean => idle.mp clean.2.2.2⟩
    · rw [cancelJob_body_ok released (by simp [cancelJobBody, cancelable, cancelSolution, answered, inspected])]
      exact ⟨fun quiet => ⟨h.settles_iff.mp settles, queued, fun missing => .inr (known.resolve_left (· missing)),
        idle.mpr quiet⟩, fun clean => idle.mp clean.2.2.2⟩
    · have body : (cancelJobBody env R identifier item).1 = .error (.typeError msg) := by
        simp [cancelJobBody, cancelable, cancelSolution, answered, inspected]
      refine iff_of_false (cancelJob_body_error body) fun clean => ?_
      exact (clean.2.2.1 unknown).elim (· no_reason) (· no_error)
  · have body : (cancelJobBody env R identifier item).1 = .error e := by
      simp [cancelJobBody, cancelable, cancelSolution, raised]
    exact iff_of_false (cancelJob_body_error body) fun clean =>
      unsettled (h.settles_iff.mpr clean.1)

/-- No cancelled task releases its resources. -/
theorem cancelTask_not_releasedOnce {item : TaskItem} :
    ¬ ReleasedOnce env R .task id [] ((Ending.cancelTask item).run env R id) := by
  rw [releasedOnce_nil]
  rintro ⟨ok, released⟩
  obtain ⟨stored, left⟩ := release_stored released
  have dropped := (left ..).trans (if_pos ⟨rfl, rfl⟩)
  cases cancelable : isCancelable R .task id item.future with
  | false =>
    simp only [Ending.run, cancelTask_quiet cancelable] at dropped
    exact stored dropped
  | true =>
    -- what was released is the job of that name
    have kept := (release_stored (cancelTask_loud cancelable ok).2).2 .task id
    exact stored (kept.symm.trans dropped)

/-- With a clean ending no started task ends along. -/
theorem Ending.Clean.along_eq_nil {e : Ending} (clean : e.Clean env R identifier) : e.along env R identifier = [] := by
  cases e with
  | jobResult item tasks =>
    obtain ⟨-, code, future, idle⟩ := clean
    simp only [Ending.along, future]
    split
    next fails => exact (forall_idle_iff.mp (idle fails)).1
    next => rfl
  | cancelJob item tasks => exact (forall_idle_iff.mp clean.2.2.2).1
  | taskResult | cancelTask => rfl

/-- A started job or task that ends releases its resources once and under its own kind, without an
exception, and so do the started tasks that end with it, exactly when its ending is clean; the manager
then keeps the ledger from which the entry is gone and to which the kept disk is added. -/
theorem ending_releasedOnce_iff {e : Ending} (h : Started env R e.kind identifier L) (ended : e.Ended env identifier) :
    (ReleasedOnce env R e.kind identifier (e.along env R identifier) (e.run env R identifier) ↔
        e.Clean env R identifier) ∧
      (e.Clean env R identifier →
        Accounts (L.step (.release identifier env.node e.kind (env.keptSpace e.kind identifier)))
          (e.run env R identifier).2.manager) := by
  have once : ReleasedOnce env R e.kind identifier (e.along env R identifier) (e.run env R identifier) ↔
      e.Clean env R identifier := by
    cases e with
    | jobResult item tasks => exact jobResult_releasedOnce_iff h ended
    | taskResult item => exact taskResult_releasedOnce_iff h ended
    | cancelJob item tasks => exact cancelJob_releasedOnce_iff h ended
    | cancelTask item => exact iff_of_false cancelTask_not_releasedOnce id
  refine ⟨once, fun clean => ?_⟩
  have released := once.mpr clean
  rw [clean.along_eq_nil, releasedOnce_nil] at released
  exact h.accounts.release released.2

end Endings

/-- A runner on one node that removes working directories and has started one task, whose client has
written the solution. -/
def smallEnv : Env where
  node := "node"
  path := "work"
  keepWorkingDirectory := false
  workDir
    | .task, "task" => ⟨true, 1, none, .content (some ⟨some "normal"⟩), none⟩
    | _, _ => ⟨false, 0, none, .missing, none⟩
  exitCode _ _ := some (-15)
  reducedMemoryLimit := 1
  reduced_pos := one_pos
  reduced_le := le_rfl
  refusesTask _ _ := none
  preparation _ _ _ := none

/-- The small manager after the task has been claimed, and the process of the task. -/
def smallRunner : Runner where
  manager := (claimResources smallManager "task" (smallTask 1 2 3) "node").2
  processes
    | .job => []
    | .task => ["task"]

/-- The item of the task, with a future. -/
def smallItem (future : Future) : TaskItem :=
  ⟨.processing, ⟨"job", .low, plainLimits 1 2 3⟩, some future, none, none, false, false, 0⟩

theorem smallRunner_started : Started smallEnv smallRunner .task "task"
    (Ledger.empty.step (.claim "task" (smallTask 1 2 3) "node")) where
  accounts := by
    have fresh : smallManager.Fresh := (Manager.fresh_init 2 8 false).connect _ _ _ _ _
    refine (accounts_empty fresh).claim ?_ rfl
    rintro ⟨node, n, found, mem⟩
    rw [(fresh.idle node n found).2] at mem
    cases mem
  entry := ⟨⟨"task", smallTask 1 2 3, "node"⟩, by simp [Ledger.step, Ledger.empty], rfl, rfl⟩
  process := mem_singleton_self "task"
  workDir := rfl

/-- The task ends with its solution and is released. -/
theorem ending_releasedOnce_result : ReleasedOnce smallEnv smallRunner .task "task" []
      ((Ending.taskResult (smallItem (.finished 0))).run smallEnv smallRunner "task") := by
  have clean : (Ending.taskResult (smallItem (.finished 0))).Clean smallEnv smallRunner "task" := by
    refine ⟨fun conf n stored found => ?_, 0, rfl, fun _ => nofun, fun _ => nofun, fun _ => nofun⟩
    cases stored
    cases found
    decide
  have ended : (Ending.taskResult (smallItem (.finished 0))).Ended smallEnv "task" :=
    ⟨_, rfl, nofun, nofun⟩
  exact (ending_releasedOnce_iff smallRunner_started ended).1.mpr clean

/-- If the same task is cancelled instead, its resources stay reserved: in the queue nothing is
released, and while it runs it is post-processed as a job, whose directory is not there. -/
theorem cancelled_keeps_resources : cancelTask smallEnv smallRunner "task" (smallItem .queued) =
      (.ok (), smallRunner, { smallItem .queued with
        status := .error, error := some "Task has been cancelled before execution", future := none }) ∧
    (cancelTask smallEnv smallRunner "task" (smallItem .running)).1 =
      .error (.osError "[Errno 2] No such file or directory: 'work/jobs/task'") ∧
    (cancelTask smallEnv smallRunner "task" (smallItem .running)).2.1.manager = smallRunner.manager ∧
    smallRunner.manager.IsRunning .task "task" := by
  refine ⟨rfl, rfl, rfl, "node", _, rfl, ?_⟩
  decide

end Klever.Scheduler
