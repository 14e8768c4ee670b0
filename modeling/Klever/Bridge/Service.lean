import Klever.Bridge.Access
import Klever.Lib.Run

/-!
# Tasks of a decision

Schedulers solve tasks of a decision and tell Bridge how their statuses change. A decision counts its tasks by statuses.
A cancelled decision gives up its unfinished tasks: they are counted as cancelled at once, and the rows of all its tasks
are deleted a bit later, so from there on the counters are what is left of the tasks.
-/

namespace Klever.Bridge.Service

open Klever.Lib Access List Option

/-- `TASK_STATUS` -/
inductive TaskStatus where
  | pending | processing | finished | error | cancelled
  deriving DecidableEq, Repr

def TaskStatus.isUnfinished : TaskStatus → Bool
  | .pending | .processing => true
  | _ => false

/-- `SCHEDULER_TYPE` -/
inductive SchedulerType where
  | klever | verifierCloud
  deriving DecidableEq, Repr

/-- `SCHEDULER_STATUS` -/
inductive SchedulerStatus where
  | healthy | ailing | disconnected
  deriving DecidableEq, Repr

structure Task where
  status : TaskStatus
  error : Option String
  /-- There is a solution of the task. -/
  solution : Bool
  deriving DecidableEq, Repr

/-- A decision with its tasks; `counters` are `tasks_pending`, `tasks_processing` and so on. -/
structure Decision where
  status : DecisionStatus
  scheduler : SchedulerType
  error : Option String
  total : Nat
  counters : TaskStatus → Nat
  tasks : Dict Nat Task

namespace Decision

variable (decision : Decision)

/-- The number of tasks with a status. -/
def number (status : TaskStatus) : Nat :=
  decision.tasks.values.countP (·.status = status)

/-- The number of pending and processing tasks. -/
def unfinished : Nat :=
  decision.tasks.values.countP (·.status.isUnfinished)

/-- `update_decision` -/
def updateDecision (newStatus : TaskStatus) (oldStatus : Option TaskStatus) : Decision :=
  let decision := match oldStatus with
    | some oldStatus =>
      let oldNum := decision.counters oldStatus
      -- otherwise there is an error in the log only
      if oldNum > 0 then { decision with counters := Function.update decision.counters oldStatus (oldNum - 1) }
      else decision
    | none => { decision with total := decision.total + 1 }
  { decision with counters := Function.update decision.counters newStatus (decision.counters newStatus + 1) }

/-- `validate_job` and `create` of task serializers; the database gives a task an identifier that is not used. -/
def createTask (scheduler : SchedulerStatus) (id : Nat) : Option Decision :=
  if decision.status ≠ .isSolving ∨ scheduler = .disconnected ∨ (decision.tasks.get? id).isSome then none
  else
    let task : Task := ⟨.pending, none, false⟩
    some ({ decision with tasks := decision.tasks.set id task }.updateDecision task.status none)

/-- `validate_status` -/
def validateStatus (task : Task) (newStatus : TaskStatus) : Bool :=
  task.status.isUnfinished && task.status ≠ newStatus && !(task.status = .processing && newStatus = .pending) &&
    (newStatus = .finished → task.solution)

/-- `validate`: an error is kept for failed tasks only. It may be missing or null. -/
def validateError (task : Task) (newStatus : TaskStatus) (error : Option (Option String)) : Option String :=
  if newStatus = .error then error.getD (some "The scheduler hasn't given error description") else task.error

/-- `update` of task serializers -/
def updateTask (id : Nat) (newStatus : TaskStatus) (error : Option (Option String)) :
    Option Decision := do
  let task ← decision.tasks.get? id
  if !validateStatus task newStatus ∨ decision.status ≠ .isSolving then none
  else
    let updated : Task := ⟨newStatus, validateError task newStatus error, task.solution⟩
    some ({ decision with tasks := decision.tasks.set id updated }.updateDecision newStatus (some task.status))

/-- `create` of solution serializers; a task has one solution at most. -/
def createSolution (id : Nat) : Option Decision := do
  let task ← decision.tasks.get? id
  if task.solution then none
  else some { decision with tasks := decision.tasks.set id { task with solution := true } }

/-- `cancel_decision` -/
def cancelDecision : Option Decision :=
  if decision.status = .pending ∨ decision.status = .isSolving then
    some { decision with
      status := .cancelling
      counters := fun
        | .pending | .processing => 0
        | .cancelled => decision.counters .cancelled + decision.unfinished
        | status => decision.counters status }
  else none

/-- `finish_tasks`, for one decision of a scheduler -/
def finishTasks (type : SchedulerType) : Decision :=
  let taskError := "Task was finished with error due to scheduler is disconnected"
  let decision := { decision with
    counters := fun
      | .pending | .processing => 0
      | .error => decision.counters .error + decision.unfinished
      | status => decision.counters status
    tasks := decision.tasks.mapVals fun _ task =>
      if task.status.isUnfinished then { task with error := some taskError } else task }
  match type with
  | .klever => { decision with
      error := if decision.error.getD "" = "" then some "Klever scheduler was disconnected" else decision.error
      status := .terminated }
  | .verifierCloud => decision

/-- Disconnected schedulers finish tasks of such decisions. -/
def isActive : Bool :=
  decision.status = .pending ∨ decision.status = .isSolving ∨ decision.status = .cancelling

end Decision

/-- The tables; `stopping` has the decisions that are cancelled, but their tasks have not been deleted yet. -/
structure Database where
  decisions : Dict Nat Decision
  schedulers : SchedulerType → SchedulerStatus
  stopping : List Nat

/-- What is asked from Bridge. Stopping a decision takes two steps: `cancel_decision` in a transaction and deletion of
tasks after it. -/
inductive Step where
  | create (decision task : Nat)
  | update (decision task : Nat) (status : TaskStatus) (error : Option (Option String))
  | solution (decision task : Nat)
  | cancel (decision : Nat)
  | delete (decision : Nat)
  | scheduler (type : SchedulerType) (status : SchedulerStatus)
  deriving DecidableEq

namespace Database

/-- A decision is replaced, unless there is a refusal. -/
def change (db : Database) (id : Nat) (f : Decision → Option Decision) : Option Database := do
  let decision ← db.decisions.get? id
  let decision ← f decision
  some { db with decisions := db.decisions.set id decision }

/-- `finish_tasks` -/
def finishTasks (db : Database) (type : SchedulerType) : Database :=
  { db with decisions := db.decisions.mapVals fun _ decision =>
      if decision.scheduler = type ∧ decision.isActive then decision.finishTasks type else decision }

def perform (db : Database) : Step → Option Database
  | .create id task => db.change id fun decision => decision.createTask (db.schedulers decision.scheduler) task
  | .update id task status error => db.change id (·.updateTask task status error)
  | .solution id task => db.change id (·.createSolution task)
  | .cancel id => { db with stopping := id :: db.stopping }.change id (·.cancelDecision)
  | .delete id =>
    if id ∈ db.stopping then
      { db with stopping := db.stopping.erase id }.change id fun decision => some { decision with tasks := .empty }
    else none
  | .scheduler type status =>
    let db := { db with schedulers := Function.update db.schedulers type status }
    some (if status = .disconnected then db.finishTasks type else db)

end Database

/-! ## What steps do with one decision -/

namespace Decision

theorem tasks_updateDecision (decision : Decision) (newStatus : TaskStatus) (oldStatus : Option TaskStatus) :
    (decision.updateDecision newStatus oldStatus).tasks = decision.tasks := by
  cases oldStatus with
  | none => rfl
  | some oldStatus =>
    simp only [updateDecision]
    split <;> rfl

end Decision

/-- How a step changes a decision. -/
inductive Change (db : Database) (id : Nat) (decision : Decision) : Step → Decision → Prop
  | other {step : Step} (not : step ≠ .cancel id) : Change db id decision step decision
  | create {task : Nat} {after : Decision}
    (done : decision.createTask (db.schedulers decision.scheduler) task = some after) :
    Change db id decision (.create id task) after
  | update {task : Nat} {status : TaskStatus} {error : Option (Option String)} {after : Decision}
    (done : decision.updateTask task status error = some after) : Change db id decision (.update id task status error) after
  | solution {task : Nat} {after : Decision} (done : decision.createSolution task = some after) :
    Change db id decision (.solution id task) after
  | cancel {after : Decision} (done : decision.cancelDecision = some after) : Change db id decision (.cancel id) after
  | delete (stopping : id ∈ db.stopping) : Change db id decision (.delete id) { decision with tasks := .empty }
  | disconnect (active : decision.isActive) :
    Change db id decision (.scheduler decision.scheduler .disconnected) (decision.finishTasks decision.scheduler)

namespace Database

/-- A decision after a step that changes one decision. -/
theorem change_cases {db after : Database} {stopping : List Nat} {id other : Nat} {f : Decision → Option Decision}
    {decision : Decision} {step : Step} (done : { db with stopping }.change id f = some after)
    (found : after.decisions.get? other = some decision) (apart : other ≠ id → step ≠ .cancel other)
    (own : ∀ before, f before = some decision → Change db id before step decision) :
    ∃ before, db.decisions.get? other = some before ∧ Change db other before step decision := by
  obtain ⟨before, was, done⟩ := bind_eq_some_iff.mp done
  obtain ⟨changed, now, is⟩ := bind_eq_some_iff.mp done
  cases is
  by_cases same : other = id
  · subst same
    rw [Dict.get?_set_self] at found
    cases found
    exact ⟨before, was, own before now⟩
  · rw [Dict.get?_set_of_ne _ _ same] at found
    exact ⟨decision, found, .other (apart same)⟩

/-- Each decision after a step was there before it. -/
theorem perform_cases {db after : Database} {step : Step} (done : db.perform step = some after) {id : Nat}
    {decision : Decision} (found : after.decisions.get? id = some decision) :
    ∃ before, db.decisions.get? id = some before ∧ Change db id before step decision := by
  cases step with
  | create own task => exact change_cases done found (fun _ is => by cases is) fun _ now => .create now
  | update own task status error => exact change_cases done found (fun _ is => by cases is) fun _ now => .update now
  | solution own task => exact change_cases done found (fun _ is => by cases is) fun _ now => .solution now
  | cancel own => exact change_cases done found (fun ne is => ne (Step.cancel.inj is).symm) fun _ now => .cancel now
  | delete own =>
    rw [perform] at done
    split at done
    next stopping =>
      refine change_cases done found (fun _ is => by cases is) fun before now => ?_
      cases now
      exact .delete stopping
    next => cases done
  | scheduler type status =>
    rw [perform] at done
    cases done
    split at found
    next down =>
      subst down
      rw [finishTasks, Dict.get?_mapVals] at found
      obtain ⟨before, was, is⟩ := map_eq_some_iff.mp found
      refine ⟨before, was, ?_⟩
      split at is
      next own =>
        obtain ⟨rfl, active⟩ := own
        rw [← is]
        exact .disconnect active
      next =>
        rw [← is]
        exact .other fun is => by cases is
    next => exact ⟨decision, found, .other fun is => by cases is⟩

/-- Only cancellation of a decision starts deletion of its tasks. -/
theorem mem_stopping_of_perform {db after : Database} {step : Step} (done : db.perform step = some after) {id : Nat}
    (stopping : id ∈ after.stopping) : id ∈ db.stopping ∨ step = .cancel id := by
  have change {db after : Database} {own : Nat} {f : Decision → Option Decision}
      (done : db.change own f = some after) : after.stopping = db.stopping := by
    obtain ⟨_, -, done⟩ := bind_eq_some_iff.mp done
    obtain ⟨_, -, is⟩ := bind_eq_some_iff.mp done
    cases is
    rfl
  cases step with
  | create own task => exact .inl (change done ▸ stopping)
  | update own task status error => exact .inl (change done ▸ stopping)
  | solution own task => exact .inl (change done ▸ stopping)
  | cancel own =>
    rw [change done] at stopping
    rcases mem_cons.mp stopping with rfl | was
    · exact .inr rfl
    · exact .inl was
  | delete own =>
    rw [perform] at done
    split at done
    next =>
      rw [change done] at stopping
      exact .inl (mem_of_mem_erase stopping)
    next => cases done
  | scheduler type status =>
    rw [perform] at done
    cases done
    split at stopping
    next => exact .inl stopping
    next => exact .inl stopping

end Database

/-! ## Counters match tasks -/

namespace Decision

variable (decision : Decision)

/-- The sum of the counters. -/
def sum : Nat :=
  decision.counters .pending + decision.counters .processing + decision.counters .finished + decision.counters .error +
    decision.counters .cancelled

/-- The counters sum up to the total, and each is the number of tasks with the status. -/
structure Exact : Prop where
  sum : decision.sum = decision.total
  counters : ∀ status, decision.counters status = decision.number status

/-- The counters of a decision that gives up its unfinished tasks. -/
def settled : TaskStatus → Nat
  | .pending | .processing => 0
  | .cancelled => decision.number .cancelled + decision.number .pending + decision.number .processing
  | status => decision.number status

/-- A decision may be cancelled. -/
def isOpen : Bool := decision.status = .pending ∨ decision.status = .isSolving

theorem unfinished_eq : decision.unfinished = decision.number .pending + decision.number .processing := by
  simp only [unfinished, number]
  induction decision.tasks.values with
  | nil => rfl
  | cons task rest ih =>
    simp only [countP_cons, ih]
    rcases task with ⟨_ | _ | _ | _ | _, error, solution⟩ <;> simp [TaskStatus.isUnfinished] <;> omega

/-- Each task has a status. -/
theorem length_tasks :
    decision.tasks.values.length = decision.number .pending + decision.number .processing + decision.number .finished +
      decision.number .error + decision.number .cancelled := by
  simp only [number]
  induction decision.tasks.values with
  | nil => rfl
  | cons task rest ih =>
    rcases task with ⟨_ | _ | _ | _ | _, error, solution⟩ <;> simp <;> omega

theorem exact_iff_counts {decision : Decision} : decision.Exact ↔
    decision.total = decision.tasks.values.length ∧ ∀ status, decision.counters status = decision.number status := by
  constructor
  · intro exact
    refine ⟨?_, exact.counters⟩
    rw [← exact.sum, length_tasks, sum]
    simp [exact.counters]
  · rintro ⟨total, counters⟩
    refine ⟨?_, counters⟩
    rw [total, length_tasks, sum]
    simp [counters]

/-- A task is set anew: one more task with its status, one less with the status of the old one. -/
theorem number_set {decision : Decision} {id : Nat} {task : Task} (status : TaskStatus) :
    { decision with tasks := decision.tasks.set id task }.number status +
        ((decision.tasks.get? id).toList.countP (·.status = status)) =
      decision.number status + if task.status = status then 1 else 0 := by
  rw [number, number, Dict.countP_values_set, countP_singleton]
  simp

theorem length_set {decision : Decision} {id : Nat} {task : Task} :
    (decision.tasks.set id task).values.length + (decision.tasks.get? id).toList.length =
      decision.tasks.values.length + 1 := by
  have all := decision.tasks.countP_values_set id task fun _ => true
  simpa only [countP_true, length_singleton] using all

variable {decision after : Decision}

theorem createTask_exact {scheduler : SchedulerStatus} {id : Nat} (done : decision.createTask scheduler id = some after)
    (exact : decision.Exact) : after.Exact := by
  rw [createTask] at done
  obtain ⟨free, done⟩ := ite_none_left_eq_some.mp done
  rw [not_or, not_or, not_isSome_iff_eq_none] at free
  obtain ⟨total, counters⟩ := exact_iff_counts.mp exact
  cases done
  rw [exact_iff_counts]
  constructor
  · have length := @length_set decision id ⟨.pending, none, false⟩
    rw [free.2.2] at length
    simpa [updateDecision, total] using length.symm
  · intro status
    have number := @number_set decision id ⟨.pending, none, false⟩ status
    rw [free.2.2] at number
    simp only [toList_none, countP_nil, Nat.add_zero] at number
    rw [Decision.number, tasks_updateDecision, ← Decision.number, number, ← counters status]
    simp only [updateDecision, Function.update_apply]
    by_cases same : status = .pending
    · rw [same]
      simp
    · simp [same, Ne.symm same]

theorem ne_of_validateStatus {task : Task} {newStatus : TaskStatus} (valid : validateStatus task newStatus = true) :
    task.status ≠ newStatus := by
  simp only [validateStatus, Bool.and_eq_true, decide_eq_true_eq] at valid
  exact valid.1.1.2

theorem updateTask_exact {id : Nat} {status : TaskStatus} {error : Option (Option String)}
    (done : decision.updateTask id status error = some after) (exact : decision.Exact) : after.Exact := by
  obtain ⟨task, found, done⟩ := bind_eq_some_iff.mp done
  obtain ⟨valid, done⟩ := ite_none_left_eq_some.mp done
  obtain ⟨total, counters⟩ := exact_iff_counts.mp exact
  rw [not_or, Bool.not_eq_true, Bool.not_eq_false'] at valid
  have changed := ne_of_validateStatus valid.1
  generalize validateError task status error = text at done
  have number := @number_set decision id ⟨status, text, task.solution⟩
  have length := @length_set decision id ⟨status, text, task.solution⟩
  simp only [found, toList_some, countP_singleton, decide_eq_true_eq] at number
  -- there is the task itself, so its counter is not zero
  have some : 0 < decision.counters task.status := by
    rw [counters]
    refine countP_pos_iff.mpr ⟨task, ?_, decide_eq_true rfl⟩
    exact Dict.mem_values_iff.mpr ⟨id, found⟩
  cases done
  rw [exact_iff_counts]
  constructor
  · rw [tasks_updateDecision]
    simp only [found, toList_some, length_singleton, Nat.add_right_cancel_iff] at length
    simpa [updateDecision, some, total] using length.symm
  · intro other
    rw [Decision.number, tasks_updateDecision, ← Decision.number]
    have here := number other
    rw [← counters other] at here
    simp only [updateDecision, some, if_true, Function.update_apply, if_neg (Ne.symm changed)]
    by_cases new : other = status
    · subst new
      rw [if_pos rfl]
      rw [if_neg changed, if_pos rfl] at here
      omega
    · rw [if_neg new]
      rw [if_neg (Ne.symm new)] at here
      by_cases old : other = task.status
      · rw [if_pos old]
        rw [if_pos old.symm, old] at here
        rw [old]
        omega
      · rw [if_neg old]
        rw [if_neg (Ne.symm old)] at here
        omega

theorem createSolution_exact {id : Nat} (done : decision.createSolution id = some after) (exact : decision.Exact) :
    after.Exact := by
  obtain ⟨task, found, done⟩ := bind_eq_some_iff.mp done
  split at done
  next => cases done
  next =>
    obtain ⟨total, counters⟩ := exact_iff_counts.mp exact
    have number := @number_set decision id { task with solution := true }
    have length := @length_set decision id { task with solution := true }
    simp only [found, toList_some, countP_singleton, decide_eq_true_eq, Nat.add_right_cancel_iff,
      length_singleton] at number length
    cases done
    exact exact_iff_counts.mpr ⟨total.trans length.symm, fun status => (counters status).trans (number status).symm⟩

/-- Disconnection of a scheduler changes error texts only. -/
theorem number_finishTasks (type : SchedulerType) (status : TaskStatus) :
    (decision.finishTasks type).number status = decision.number status := by
  have same : (decision.finishTasks type).tasks.values.map Task.status = decision.tasks.values.map Task.status := by
    cases type <;>
    · simp only [finishTasks, Dict.values, Dict.mapVals, List.map_map]
      refine map_congr_left fun e _ => ?_
      simp only [Function.comp_apply]
      split <;> rfl
  have count (d : Decision) : d.number status = (d.tasks.values.map Task.status).countP (· = status) := by
    rw [number, countP_map]
    rfl
  rw [count, count, same]

end Decision

/-! ## Runs -/

/-- No scheduler is disconnected while its decisions have unfinished tasks. -/
def Calm (db : Database) (step : Step) : Prop :=
  ∀ type, step = .scheduler type .disconnected → ∀ id decision, db.decisions.get? id = some decision →
    decision.scheduler = type → decision.isActive = true → decision.unfinished = 0

/-- A step that Bridge accepts. -/
def CalmStep (db : Database) (step : Step) (after : Database) : Prop := db.perform step = some after ∧ Calm db step

namespace Decision

variable {decision after : Decision}

theorem finishTasks_exact {type : SchedulerType} (idle : decision.unfinished = 0) (exact : decision.Exact) :
    (decision.finishTasks type).Exact := by
  obtain ⟨total, counters⟩ := exact_iff_counts.mp exact
  have zero := decision.unfinished_eq
  have same : (decision.finishTasks type).counters = decision.counters := by
    ext status
    cases type <;> cases status <;> simp only [finishTasks, idle, counters] <;> omega
  rw [exact_iff_counts]
  constructor
  · have length : (decision.finishTasks type).tasks.values.length = decision.tasks.values.length := by
      cases type <;> simp only [finishTasks, Dict.values, Dict.mapVals, length_map]
    rw [length, ← total]
    cases type <;> rfl
  · intro status
    rw [same, number_finishTasks, counters]

/-- A decision that is not pending or processing, with its counters. -/
structure Frozen (counters : TaskStatus → Nat) (total : Nat) (decision : Decision) : Prop where
  notOpen : decision.isOpen = false
  counters : decision.counters = counters
  total : decision.total = total

theorem isOpen_of_cancelDecision (done : decision.cancelDecision = some after) :
    decision.isOpen = true ∧ after.isOpen = false := by
  rw [cancelDecision] at done
  split at done
  next status =>
    cases done
    exact ⟨decide_eq_true status, rfl⟩
  next => cases done

theorem frozen_of_cancelDecision (done : decision.cancelDecision = some after) (exact : decision.Exact) :
    after.Frozen decision.settled decision.total := by
  rw [cancelDecision] at done
  split at done
  next =>
    cases done
    refine ⟨rfl, ?_, rfl⟩
    ext status
    cases status <;> simp only [settled, unfinished_eq, exact.counters, Nat.add_assoc]
  next => cases done

end Decision

section Change

variable {db : Database} {id : Nat} {step : Step} {decision after : Decision} (change : Change db id decision step after)

include change

/-- Unless it is cancelled, a decision keeps its counters exact. -/
theorem Change.exact (not : step ≠ .cancel id) (running : id ∉ db.stopping) (calm : Calm db step)
    (found : db.decisions.get? id = some decision) (exact : decision.Exact) : after.Exact := by
  cases change with
  | other => exact exact
  | create done => exact Decision.createTask_exact done exact
  | update done => exact Decision.updateTask_exact done exact
  | solution done => exact Decision.createSolution_exact done exact
  | cancel done => exact absurd rfl not
  | delete stopping => exact absurd stopping running
  | disconnect active => exact Decision.finishTasks_exact (calm _ rfl id decision found rfl active) exact

/-- A decision that can not be cancelled stays so, and only disconnection of its scheduler touches its counters. -/
theorem Change.notOpen (closed : decision.isOpen = false) :
    after.isOpen = false ∧ after.total = decision.total ∧ (after.counters = decision.counters ∨
      decision.isActive = true ∧ step = .scheduler decision.scheduler .disconnected ∧
        after.counters = (decision.finishTasks decision.scheduler).counters) := by
  have status := of_decide_eq_false closed
  rw [not_or] at status
  cases change with
  | other => exact ⟨closed, rfl, .inl rfl⟩
  | create done => simp [Decision.createTask, status.2] at done
  | update done =>
    obtain ⟨task, -, done⟩ := bind_eq_some_iff.mp done
    simp [status.2] at done
  | solution done =>
    obtain ⟨task, -, done⟩ := bind_eq_some_iff.mp done
    split at done
    next => cases done
    next =>
      cases done
      exact ⟨closed, rfl, .inl rfl⟩
  | cancel done => simp [Decision.cancelDecision, status] at done
  | delete stopping => exact ⟨closed, rfl, .inl rfl⟩
  | disconnect active =>
    refine ⟨?_, ?_, .inr ⟨active, rfl, rfl⟩⟩
    · cases decision.scheduler
      · rfl
      · exact closed
    · cases decision.scheduler <;> rfl

/-- Counters of cancelled decisions do not change any more. -/
theorem Change.frozen {counters : TaskStatus → Nat} {total : Nat} (calm : Calm db step)
    (found : db.decisions.get? id = some decision) (frozen : decision.Frozen counters total)
    (pending : counters .pending = 0) (processing : counters .processing = 0) : after.Frozen counters total := by
  obtain ⟨closed, same, own | ⟨active, down, own⟩⟩ := change.notOpen frozen.notOpen
  · exact ⟨closed, own.trans frozen.counters, same.trans frozen.total⟩
  · refine ⟨closed, ?_, same.trans frozen.total⟩
    have idle := calm _ down id decision found rfl active
    have is := frozen.counters
    subst is
    rw [own]
    ext status
    cases decision.scheduler <;> cases status <;> simp only [Decision.finishTasks, idle, pending, processing,
      Nat.add_zero]

end Change

section Runs

variable {db after : Database} {steps : List Step} {id : Nat} {decision : Decision}

/-- Counters are exact until a decision is cancelled. -/
theorem exact_of_not_cancel (run : Run CalmStep db steps after)
    (start : ∀ id decision, db.decisions.get? id = some decision → decision.Exact) (idle : db.stopping = [])
    (not : .cancel id ∉ steps) :
    id ∉ after.stopping ∧ ∀ decision, after.decisions.get? id = some decision → decision.Exact := by
  induction run with
  | nil =>
    rw [idle]
    exact ⟨not_mem_nil, start id⟩
  | snoc _ last ih =>
    rw [mem_append, mem_singleton, not_or] at not
    obtain ⟨running, exact⟩ := ih not.1
    constructor
    · intro stopping
      rcases Database.mem_stopping_of_perform last.1 stopping with was | is
      · exact running was
      · exact not.2 is.symm
    · intro decision found
      obtain ⟨before, was, change⟩ := Database.perform_cases last.1 found
      exact change.exact (Ne.symm not.2) running last.2 was (exact before was)

/-- A decision is cancelled once at most. -/
theorem notOpen_of_cancel (run : Run CalmStep db steps after) (cancelled : .cancel id ∈ steps) :
    ∀ decision, after.decisions.get? id = some decision → decision.isOpen = false := by
  induction run with
  | nil => cases cancelled
  | snoc _ last ih =>
    intro decision found
    obtain ⟨before, was, change⟩ := Database.perform_cases last.1 found
    rcases mem_append.mp cancelled with earlier | now
    · exact (change.notOpen (ih earlier before was)).1
    · rw [mem_singleton] at now
      subst now
      cases change with
      | other not => exact absurd rfl not
      | cancel done => exact (Decision.isOpen_of_cancelDecision done).2

/-- The counters of a cancelled decision tell of its tasks as they were when it was cancelled. -/
theorem frozen_of_cancel {late : List Step} (cancelled : CalmStep db (.cancel id) after) {last : Database}
    (exact : ∀ decision, db.decisions.get? id = some decision → decision.isOpen = true → decision.Exact)
    (run : Run CalmStep after late last) (found : last.decisions.get? id = some decision) :
    ∃ was, db.decisions.get? id = some was ∧ was.Exact ∧ decision.Frozen was.settled was.total := by
  induction run generalizing decision with
  | nil =>
    obtain ⟨before, was, change⟩ := Database.perform_cases cancelled.1 found
    cases change with
    | other not => exact absurd rfl not
    | cancel done =>
      have own := exact before was (Decision.isOpen_of_cancelDecision done).1
      exact ⟨before, was, own, Decision.frozen_of_cancelDecision done own⟩
  | snoc _ step ih =>
    obtain ⟨before, was, change⟩ := Database.perform_cases step.1 found
    obtain ⟨first, is, own, frozen⟩ := ih was
    exact ⟨first, is, own, change.frozen step.2 was frozen rfl rfl⟩

/-- Counters follow tasks until a decision is cancelled. Then they tell what has become of the tasks: what was unfinished
is cancelled. They always sum up to the total. -/
theorem counters_follow_tasks (run : Run CalmStep db steps after)
    (start : ∀ id decision, db.decisions.get? id = some decision → decision.Exact) (idle : db.stopping = [])
    (found : after.decisions.get? id = some decision) :
    decision.sum = decision.total ∧ (.cancel id ∉ steps → ∀ status, decision.counters status = decision.number status) ∧
      ∀ early late, steps = early ++ .cancel id :: late → ∃ before was, Run CalmStep db early before ∧
        before.decisions.get? id = some was ∧ was.Exact ∧ decision.counters = was.settled ∧
          decision.total = was.total := by
  have cancelled : ∀ early late, steps = early ++ .cancel id :: late → ∃ before was, Run CalmStep db early before ∧
      before.decisions.get? id = some was ∧ was.Exact ∧ decision.counters = was.settled ∧
        decision.total = was.total := by
    rintro early late rfl
    obtain ⟨before, first, rest⟩ := run.append_inv
    obtain ⟨middle, step, later⟩ := Run.append_inv (show Run CalmStep before ([.cancel id] ++ late) after from rest)
    obtain ⟨same, here, cancel⟩ := Run.snoc_inv (show Run CalmStep before ([] ++ [.cancel id]) middle from step)
    obtain rfl := here.nil_inv
    -- a decision that is cancelled was not cancelled before, so its counters are exact
    have exact (was : Decision) (is : same.decisions.get? id = some was) (opened : was.isOpen = true) : was.Exact := by
      refine (exact_of_not_cancel first start idle fun mem => ?_).2 was is
      rw [notOpen_of_cancel first mem was is] at opened
      cases opened
    obtain ⟨was, is, own, frozen⟩ := frozen_of_cancel cancel exact later found
    exact ⟨same, was, first, is, own, frozen.counters, frozen.total⟩
  have untouched (not : .cancel id ∉ steps) := (exact_of_not_cancel run start idle not).2 decision found
  refine ⟨?_, fun not => (untouched not).counters, cancelled⟩
  by_cases mem : .cancel id ∈ steps
  · obtain ⟨early, late, is⟩ := append_of_mem mem
    obtain ⟨before, was, -, -, own, counters, total⟩ := cancelled early late is
    have sum := own.sum
    rw [total, ← sum, Decision.sum, Decision.sum, counters]
    simp only [Decision.settled, own.counters]
    omega
  · exact (untouched mem).sum

end Runs

/-- A processing decision without tasks. -/
def solvingDecision : Database where
  decisions := .ofList [(1, ⟨.isSolving, .klever, none, 0, fun _ => 0, .empty⟩)]
  schedulers _ := .healthy
  stopping := []

theorem solvingDecision_exact (id : Nat) (decision : Decision) (found : solvingDecision.decisions.get? id = some decision) :
    decision.Exact := by
  cases mem_singleton.mp (Dict.mem_of_get?_ofList found)
  exact Decision.exact_iff_counts.mpr ⟨rfl, fun _ => rfl⟩

/-- The decision gets a task and is cancelled. -/
theorem solvingDecision_run : ∃ after, Run CalmStep solvingDecision [.create 1 1, .cancel 1] after ∧
    (after.decisions.get? 1).map (fun decision => (decision.counters .cancelled, decision.number .cancelled)) =
      some (1, 0) := by
  refine ⟨_, .snoc (.snoc (.nil _) ⟨rfl, nofun⟩) ⟨rfl, nofun⟩, rfl⟩

theorem solvingDecision_counters : ∃ after decision, Run CalmStep solvingDecision [.create 1 1, .cancel 1] after ∧
    after.decisions.get? 1 = some decision ∧ decision.sum = decision.total := by
  obtain ⟨after, run, counted⟩ := solvingDecision_run
  obtain ⟨decision, found, -⟩ := map_eq_some_iff.mp counted
  exact ⟨after, decision, run, found, (counters_follow_tasks run solvingDecision_exact rfl found).1⟩

/-- The task is counted as cancelled, but no task has this status. -/
theorem cancelledDecision_inexact : ∃ after decision, Run CalmStep solvingDecision [.create 1 1, .cancel 1] after ∧
    after.decisions.get? 1 = some decision ∧ ¬ decision.Exact := by
  obtain ⟨after, run, counted⟩ := solvingDecision_run
  obtain ⟨decision, found, numbers⟩ := map_eq_some_iff.mp counted
  refine ⟨after, decision, run, found, fun exact => ?_⟩
  obtain ⟨one, zero⟩ := Prod.mk.inj numbers
  have same := exact.counters .cancelled
  rw [one, zero] at same
  cases same

end Klever.Bridge.Service
