import Klever.Lib.Dict

/-!
# The progress watcher

Sub-jobs put results of tasks and total numbers of tasks into queues and write down how they end. The progress watcher
looks at all that from time to time and tells Bridge what it has found, until all sub-jobs have ended; if there is just a
job, until all its tasks are done.

Three things can go wrong with sub-jobs. The watcher stops as soon as it knows all endings, whatever is still on its way
in queues. Messages come under identifiers without the leading slash, endings under identifiers with it, so tasks of
failed sub-jobs are not matched with their endings. And a total that becomes known due to a failure is not sent in the
same iteration. Otherwise the last numbers that Bridge gets are complete.

Time estimations depend on the clock and on floating-point numbers; what comes out is a parameter here. Percents are
exact quotients.
-/

namespace Klever.Core.Progress

open Klever.Lib List Option

/-- Two names of a sub-job: `id` is the identifier of the component with the leading slash, say, `/Sub-job-0`, and
`identifier` is the option of the configuration without it, `Sub-job-0`. -/
inductive Name where
  | id (number : Nat)
  | identifier (number : Nat)
  deriving DecidableEq, Repr

/-- Statuses of tasks and endings of sub-jobs. -/
inductive Status where
  | finished | failed
  deriving DecidableEq, Repr

/-- Fields of progress reports. -/
inductive Field where
  | totalSj | subjobsStarted | subjobsFinished | totalTs | tasksStarted | tasksFinished | failedTs | solvedTs
  | failedSj | solvedSj | expectedTimeTs | gagTextTs | expectedTimeSj | gagTextSj
  deriving DecidableEq, Repr

inductive Value where
  | number (number : Int)
  | flag
  | text (text : String)
  deriving DecidableEq, Repr

/-- A progress report. -/
abbrev Report := Field → Option Value

def Report.empty : Report := fun _ => none

def Report.set (report : Report) (field : Field) (value : Value) : Report := Function.update report field (some value)

structure PW where
  subjobsNumber : Nat
  jobMode : Bool
  totalTasksData : Dict Name Int
  failedTasksData : Dict Name Int
  finishedTasksData : Dict Name Int
  subjobsCache : Dict Name Status
  reportCache : Report
  firstTaskAppeared : Bool
  totalTasksDetermined : Bool
  tasksStartTime : Option Nat
  taskUpdateTime : Option Nat
  subjobsUpdateTime : Option Nat
  dataReport : Report
  /-- The messages that are left in the queue of total numbers. -/
  totalTasks : List (Name × Int)
  /-- What Bridge knows. -/
  bridge : Report

/-- What the watcher finds in one iteration. Endings are looked at three times; new ones may come in between. -/
structure Seen where
  results : List (Name × Status)
  totals : List (Name × Int)
  flag : Bool
  keys : Dict Name Status
  items : Dict Name Status
  later : Dict Name Status
  time : Nat
  estimationTs : Int
  estimationSj : Int

namespace PW

/-- The watcher at its start; there is no number of sub-jobs if there is just a job. -/
def start (totalSubjobs : Option Nat) : PW where
  subjobsNumber := totalSubjobs.getD 1
  jobMode := totalSubjobs.isNone
  totalTasksData := .empty
  failedTasksData := .empty
  finishedTasksData := .empty
  subjobsCache := .empty
  reportCache := .empty
  firstTaskAppeared := false
  totalTasksDetermined := false
  tasksStartTime := none
  taskUpdateTime := none
  subjobsUpdateTime := none
  dataReport := match totalSubjobs with
    | some number => (Report.empty.set .totalSj (.number number)).set .subjobsStarted .flag
    | none => .empty
  totalTasks := []
  bridge := .empty

variable (pw : PW)

def solvedSubjobs : Nat := pw.subjobsCache.values.countP (· = .finished)

def failedSubjobs : Nat := pw.subjobsCache.values.countP (· = .failed)

def solvedTasks : Int := pw.finishedTasksData.values.sum

def failedTasks : Int := pw.failedTasksData.values.sum

/-- `total_tasks` -/
def totalNumber : Option Int :=
  if pw.totalTasksData.keys.length = pw.subjobsNumber then some pw.totalTasksData.values.sum else none

def restTasks : Option Int :=
  match pw.totalNumber with
  | some total => if total ≠ 0 then some (total - pw.solvedTasks - pw.failedTasks) else none
  | none => none

/-- `int(100 * solved / (total - failed))`, or all if everything has failed -/
def percent (solved failed total : Int) : Int :=
  if failed ≠ total then (100 * solved).tdiv (total - failed) else 100

def tasksProgress : Option Int :=
  pw.totalNumber.map (percent pw.solvedTasks pw.failedTasks)

def subjobsProgress : Option Int :=
  if pw.jobMode then none else some (percent pw.solvedSubjobs pw.failedSubjobs pw.subjobsNumber)

/-- One result of a task. -/
def addResult (message : Name × Status) : PW :=
  let (name, status) := message
  let finished := (pw.finishedTasksData.get? name).getD 0
  let failed := (pw.failedTasksData.get? name).getD 0
  match status with
  | .finished => { pw with
      finishedTasksData := pw.finishedTasksData.set name (finished + 1)
      failedTasksData := pw.failedTasksData.set name failed }
  | .failed => { pw with
      finishedTasksData := pw.finishedTasksData.set name finished
      failedTasksData := pw.failedTasksData.set name (failed + 1) }

/-- Messages are taken from the end. -/
def drainResults (results : List (Name × Status)) (time : Nat) : PW :=
  if results.length > 0 then { results.reverse.foldl addResult pw with taskUpdateTime := some time } else pw

/-- Total numbers are not read any more when all of them are known. -/
def drainTotals (totals : List (Name × Int)) : PW :=
  let queue := pw.totalTasks ++ totals
  if pw.totalNumber.isSome then { pw with totalTasks := queue }
  else { pw with
    totalTasksData := queue.reverse.foldl (fun data message => data.set message.1 message.2) pw.totalTasksData
    totalTasks := [] }

def checkFirstTask (flag : Bool) (time : Nat) : PW :=
  if flag && !pw.firstTaskAppeared then { pw with
    dataReport := pw.dataReport.set .tasksStarted .flag
    firstTaskAppeared := true
    tasksStartTime := some time }
  else pw

def checkTotal : PW :=
  match pw.totalNumber with
  | some total =>
    if pw.totalTasksDetermined then pw
    else { pw with dataReport := pw.dataReport.set .totalTs (.number total), totalTasksDetermined := true }
  | none => pw

/-- A sub-job has failed: what is not solved of it has failed. If its total is not known it is what has come. -/
def failSubjob (name : Name) : PW :=
  let finished := (pw.finishedTasksData.get? name).getD 0
  let failed := (pw.failedTasksData.get? name).getD 0
  match pw.totalTasksData.get? name with
  | some total => { pw with
      finishedTasksData := pw.finishedTasksData.set name finished
      failedTasksData := pw.failedTasksData.set name (failed + (total - finished - failed)) }
  | none => { pw with totalTasksData := pw.totalTasksData.set name (finished + failed) }

/-- Endings that are not known yet. -/
def unknown (endings : Dict Name Status) : List (Name × Status) :=
  endings.items.filter fun ending => (pw.subjobsCache.get? ending.1).isNone

def checkSubjobs (keys items later : Dict Name Status) (time : Nat) : PW :=
  let changes := pw.unknown keys
  if changes.length > 0 then
    let pw := ((pw.unknown items).filter fun ending => ending.2 = .failed).foldl (fun pw ending => pw.failSubjob ending.1) pw
    let pw := if (pw.unknown later).any fun ending => ending.2 = .finished then
      { pw with subjobsUpdateTime := some time } else pw
    { pw with subjobsCache := changes.foldl (fun cache ending => cache.set ending.1 ending.2) pw.subjobsCache }
  else pw

/-- `_estimate_time`: nothing comes back if a time or a number is missing, since this raises an exception then. -/
def estimateTime (startTime updateTime : Option Nat) (solved : Int) (rest : Option Int) (progress estimation : Int) :
    Option Value :=
  let formula := if startTime.isSome ∧ updateTime.isSome ∧ rest.isSome ∧ solved ≠ 0 then some estimation else none
  if progress ≤ 10 then some (.text "Estimating time")
  else if progress ≤ 90 then
    formula.map fun estimation => if estimation ≤ 0 then .text "Reestimating time" else .number estimation
  else if progress < 100 then
    formula.map fun estimation => if estimation ≤ 0 then .text "Solution is about to finish" else .number estimation
  else some (.number 0)

/-- An estimation is either a number or a text. -/
def setEstimation (report : Report) (expectedTime gagText : Field) (estimation : Value) : Report :=
  match estimation with
  | .text text => report.set gagText (.text text)
  | value => report.set expectedTime value

/-- The part of reports on tasks. -/
def reportTasks (estimation : Int) : Option PW :=
  match pw.tasksProgress with
  | none => some pw
  | some progress =>
    (estimateTime pw.tasksStartTime pw.taskUpdateTime pw.solvedTasks pw.restTasks progress estimation).map fun value =>
      let report := (pw.dataReport.set .failedTs (.number pw.failedTasks)).set .solvedTs (.number pw.solvedTasks)
      let report := setEstimation report .expectedTimeTs .gagTextTs value
      { pw with dataReport := if progress = 100 then report.set .tasksFinished .flag else report }

/-- The part of reports on sub-jobs. -/
def reportSubjobs (estimation : Int) : Option PW :=
  match pw.subjobsProgress with
  | none => some pw
  | some progress =>
    (estimateTime (some 0) pw.subjobsUpdateTime pw.solvedSubjobs
      (some (pw.subjobsNumber - pw.solvedSubjobs - pw.failedSubjobs)) progress estimation).map fun value =>
      let report := (pw.dataReport.set .failedSj (.number pw.failedSubjobs)).set .solvedSj (.number pw.solvedSubjobs)
      let report := setEstimation report .expectedTimeSj .gagTextSj value
      { pw with dataReport := if progress = 100 then report.set .subjobsFinished .flag else report }

/-- Fields that are sent once each. -/
def sentOnce : List Field := [.totalSj, .subjobsStarted, .subjobsFinished, .totalTs, .tasksStarted, .tasksFinished]

/-- Fields that are forgotten as soon as they are sent. -/
def forgotten : List Field := [.tasksStarted, .tasksFinished, .subjobsFinished, .subjobsStarted]

/-- `check_new_field` -/
def checkNewField (field : Field) : Bool := (pw.reportCache field).isNone && (pw.dataReport field).isSome

/-- The report without what is not to be sent again. -/
def keptReport : Report := fun field =>
  if field ∈ forgotten ∧ pw.checkNewField field then none else pw.dataReport field

/-- Whether there is something to send. The percents that are sent are not kept, so they always count as new ones. -/
def hasNews : Bool :=
  let report := pw.keptReport
  sentOnce.any pw.checkNewField ||
    ((report .gagTextTs).isSome && report .gagTextTs ≠ pw.reportCache .gagTextTs) ||
    (pw.reportCache .solvedTs).isSome || (report .solvedTs).isSome ||
    ((report .gagTextSj).isSome && report .gagTextSj ≠ pw.reportCache .gagTextSj) ||
    (pw.reportCache .solvedSj).isSome || (report .solvedSj).isSome

/-- The report to be sent. -/
def newReport : Report := fun field =>
  let report := pw.keptReport
  if field ∈ sentOnce then if pw.checkNewField field then pw.dataReport field else none
  else match field with
    | .expectedTimeTs => if (report .gagTextTs).isSome then none else report .expectedTimeTs
    | .expectedTimeSj => if (report .gagTextSj).isSome then none else report .expectedTimeSj
    | field => report field

/-- `_send_report` -/
def sendReport : PW :=
  if pw.hasNews then { pw with
    bridge := fun field => (pw.newReport field).or (pw.bridge field)
    reportCache := pw.keptReport }
  else pw

/-- What an iteration finds out. -/
def gather (seen : Seen) : PW :=
  let pw := pw.drainResults seen.results seen.time
  let pw := pw.drainTotals seen.totals
  let pw := pw.checkFirstTask seen.flag seen.time
  let pw := pw.checkTotal
  pw.checkSubjobs seen.keys seen.items seen.later seen.time

/-- One iteration; nothing comes back if there is an exception. -/
def iterate (seen : Seen) : Option PW := do
  let pw := pw.gather seen
  let pw ← pw.reportTasks seen.estimationTs
  let pw ← pw.reportSubjobs seen.estimationSj
  some pw.sendReport

def stops : Bool :=
  (!pw.jobMode && pw.subjobsProgress = some 100) || (pw.jobMode && pw.tasksProgress = some 100)

/-- The next iteration begins with an empty report. -/
def again : PW := { pw with dataReport := .empty }

end PW

inductive Outcome where
  | raised
  | running (pw : PW)
  | stopped (pw : PW)

/-- `watch_progress`: the iteration `n` finds `env n`. -/
def watchProgress (env : Nat → Seen) (n : Nat) (pw : PW) : (fuel : Nat) → Outcome
  | 0 => .running pw
  | fuel + 1 =>
    match pw.iterate (env n) with
    | none => .raised
    | some pw => if pw.stops then .stopped pw else watchProgress env (n + 1) pw.again fuel

/-! ## What there is to watch -/

/-- Sub-jobs, or one job if there is no number. -/
structure Plan where
  subjobs : Option Nat
  tasks : Nat → Nat
  ending : Nat → Status

namespace Plan

def number (plan : Plan) : Nat := plan.subjobs.getD 1

/-- A sub-job ends normally, and so does a job. -/
def normal (plan : Plan) (k : Nat) : Bool := plan.subjobs.isNone ∨ plan.ending k = .finished

/-- The number of all tasks. -/
def total (plan : Plan) : Int := ((List.range plan.number).map fun k => if plan.normal k then (plan.tasks k : Int) else 0).sum

end Plan

variable (env : Nat → Seen)

/-- The results that have come before an iteration. -/
def resultsUntil (n : Nat) : List (Name × Status) := (List.range n).flatMap fun i => (env i).results

def totalsUntil (n : Nat) : List (Name × Int) := (List.range n).flatMap fun i => (env i).totals

/-- All messages of a sub-job have come. -/
def Arrived (plan : Plan) (env : Nat → Seen) (n k : Nat) : Prop :=
  (resultsUntil env n).countP (·.1 = .identifier k) = plan.tasks k ∧
    (.identifier k, (plan.tasks k : Int)) ∈ totalsUntil env n

/-- Messages and endings come as planned, in any order and at any time. A failed sub-job need not put all. -/
structure Faithful (plan : Plan) (env : Nat → Seen) : Prop where
  owner : ∀ n, ∀ message ∈ (env n).results, ∃ k < plan.number, message.1 = .identifier k
  results : ∀ n k, (resultsUntil env n).countP (·.1 = .identifier k) ≤ plan.tasks k
  totals : ∀ n, ∀ message ∈ (env n).totals, ∃ k < plan.number, message = (.identifier k, (plan.tasks k : Int))
  keys : ∀ n name status, (env n).keys.get? name = some status → (env n).items.get? name = some status
  items : ∀ n name status, (env n).items.get? name = some status → (env n).later.get? name = some status
  later : ∀ n name status, (env n).later.get? name = some status → (env (n + 1)).keys.get? name = some status
  endings : ∀ n name status, (env n).later.get? name = some status →
    plan.subjobs.isSome ∧ ∃ k < plan.number, name = .id k ∧ status = plan.ending k
  arrives : ∃ n, (∀ k < plan.number, plan.normal k → Arrived plan env n k) ∧
    (plan.subjobs.isSome → ∀ k < plan.number, (env n).keys.get? (.id k) = some (plan.ending k))

/-- What saves the watcher. Failed sub-jobs put no messages. When the last endings become known, all messages have come,
and failures were known before. The flag of the first task is set before it is solved. -/
structure Timely (plan : Plan) (env : Nat → Seen) : Prop where
  quiet : ∀ n k, k < plan.number → ¬ plan.normal k → (resultsUntil env n).countP (·.1 = .identifier k) = 0 ∧
    (.identifier k, (plan.tasks k : Int)) ∉ totalsUntil env n
  arrived : plan.subjobs.isSome → ∀ n, (∀ k < plan.number, ((env n).keys.get? (.id k)).isSome) →
    ∀ k < plan.number, if plan.normal k then Arrived plan env (n + 1) k
      else ∃ m < n, ((env m).keys.get? (.id k)).isSome
  flag : ∀ n, (∃ message ∈ resultsUntil env (n + 1), message.2 = .finished) → (env n).flag = true

/-- Bridge has got complete numbers. -/
structure Complete (pw : PW) : Prop where
  tasks : ∃ solved failed total, pw.bridge .solvedTs = some (.number solved) ∧
    pw.bridge .failedTs = some (.number failed) ∧ pw.bridge .totalTs = some (.number total) ∧ solved + failed = total
  subjobs : pw.jobMode = false → ∃ solved failed total, pw.bridge .solvedSj = some (.number solved) ∧
    pw.bridge .failedSj = some (.number failed) ∧ pw.bridge .totalSj = some (.number total) ∧ solved + failed = total

/-! ## Numbers of tasks -/

variable {plan : Plan} {pw : PW} {results : List (Name × Status)} {totals : List (Name × Int)} {k : Nat}

section Tally

open PW

/-- The numbers of solved and failed tasks are the numbers of results. -/
structure Tally (results : List (Name × Status)) (pw : PW) : Prop where
  solved : pw.solvedTasks = results.countP (·.2 = .finished)
  failed : pw.failedTasks = results.countP (·.2 = .failed)
  ids : ∀ k, (pw.finishedTasksData.get? (.id k)).getD 0 = 0 ∧ (pw.failedTasksData.get? (.id k)).getD 0 = 0

theorem getD_set_of_ne {d : Dict Name Int} {name other : Name} (ne : other ≠ name) (v : Int) :
    ((d.set name v).get? other).getD 0 = (d.get? other).getD 0 := by
  rw [Dict.get?_set_of_ne _ _ ne]

/-- What is added to a number is added to the sum. -/
theorem sum_set_getD (d : Dict Name Int) (name : Name) (i : Int) :
    (d.set name ((d.get? name).getD 0 + i)).values.sum = d.values.sum + i := by
  have := d.sum_values_set name ((d.get? name).getD 0 + i)
  omega

variable (tally : Tally results pw)

include tally

theorem Tally.addResult {message : Name × Status} (is : message.1 = .identifier k) :
    Tally (results ++ [message]) (pw.addResult message) := by
  obtain ⟨name, status⟩ := message
  obtain rfl : name = .identifier k := is
  have same (d : Dict Name Int) := sum_set_getD d (.identifier k) 0
  simp only [Int.add_zero] at same
  have solved := tally.solved
  have failed := tally.failed
  rw [solvedTasks] at solved
  rw [failedTasks] at failed
  have other (k' : Nat) : Name.id k' ≠ .identifier k := fun is => by cases is
  constructor
  · cases status <;> simp [PW.addResult, solvedTasks, sum_set_getD, same, solved]
  · cases status <;> simp [PW.addResult, failedTasks, sum_set_getD, same, failed]
  · intro k'
    cases status with
    | finished => simpa only [PW.addResult, getD_set_of_ne (other k')] using tally.ids k'
    | failed => simpa only [PW.addResult, getD_set_of_ne (other k')] using tally.ids k'

/-- Numbers do not depend on the order of results. -/
theorem Tally.perm {results' : List (Name × Status)} (perm : results.Perm results') : Tally results' pw := by
  refine ⟨?_, ?_, tally.ids⟩
  · rw [← perm.countP_eq]
    exact tally.solved
  · rw [← perm.countP_eq]
    exact tally.failed

theorem Tally.foldl (more : List (Name × Status)) (owner : ∀ message ∈ more, ∃ k, message.1 = .identifier k) :
    Tally (results ++ more) (more.foldl PW.addResult pw) := by
  induction more generalizing results pw with
  | nil => rwa [append_nil]
  | cons message rest ih =>
    obtain ⟨k, is⟩ := owner message mem_cons_self
    have next := ih (tally.addResult is) fun other mem => owner other (mem_cons_of_mem _ mem)
    rwa [append_assoc] at next

theorem Tally.drainResults {more : List (Name × Status)} (time : Nat)
    (owner : ∀ message ∈ more, ∃ k, message.1 = .identifier k) : Tally (results ++ more) (pw.drainResults more time) := by
  rw [PW.drainResults]
  split
  next =>
    have all := tally.foldl more.reverse fun message mem => owner message (mem_reverse.mp mem)
    have same := all.perm ((reverse_perm more).append_left results)
    exact ⟨same.solved, same.failed, same.ids⟩
  next none =>
    obtain rfl := eq_nil_of_length_eq_zero (Nat.eq_zero_of_not_pos none)
    rwa [append_nil]

/-- Failures of sub-jobs add nothing, since there are no results under their names. -/
theorem Tally.failSubjob (zero : ∀ total, pw.totalTasksData.get? (.id k) = some total → total = 0) :
    Tally results (pw.failSubjob (.id k)) := by
  obtain ⟨finished, failed⟩ := tally.ids k
  cases known : pw.totalTasksData.get? (.id k) with
  | none =>
    simp only [PW.failSubjob, known]
    exact ⟨tally.solved, tally.failed, tally.ids⟩
  | some total =>
    obtain rfl := zero total known
    have sum := pw.finishedTasksData.sum_values_set (.id k) 0
    have sum' := pw.failedTasksData.sum_values_set (.id k) 0
    have solved' := tally.solved
    have failed' := tally.failed
    simp only [solvedTasks, failedTasks] at solved' failed'
    simp only [PW.failSubjob, known, finished, failed]
    refine ⟨?_, ?_, fun k' => ?_⟩
    · simp only [solvedTasks]
      omega
    · simp only [failedTasks, Int.sub_zero, Int.add_zero]
      omega
    · by_cases same : Name.id k' = .id k
      · rw [same]
        simp
      · rw [getD_set_of_ne same, getD_set_of_ne same]
        exact tally.ids k'

end Tally

/-- The number of a sub-job. -/
def Name.index : Name → Nat
  | .id k => k
  | .identifier k => k

/-- Keys of a dictionary are names of sub-jobs, one for each of them at most. -/
structure Indexed {α : Type} (key : Nat → Name) (number : Nat) (d : Dict Name α) : Prop where
  index : ∀ k, (key k).index = k
  named : ∀ name v, d.get? name = some v → ∃ k < number, name = key k

section Indexed

variable {α : Type} {key : Nat → Name} {number : Nat} {d : Dict Name α}

section

variable (indexed : Indexed key number d)

include indexed

theorem Indexed.subperm : (d.keys.map Name.index).Subperm (List.range number) := by
  have named {name : Name} (mem : name ∈ d.keys) : ∃ k < number, name = key k := by
    obtain ⟨v, found⟩ := Dict.mem_keys_iff.mp mem
    exact indexed.named name v found
  apply subperm_of_subset
  · refine Nodup.map_on (fun name mem name' mem' same => ?_) d.nodup
    obtain ⟨k, -, rfl⟩ := named mem
    obtain ⟨k', -, rfl⟩ := named mem'
    rw [indexed.index, indexed.index] at same
    rw [same]
  · refine List.forall_mem_map.mpr fun name was => ?_
    obtain ⟨k, lt, rfl⟩ := named was
    rw [indexed.index]
    exact mem_range.mpr lt

theorem Indexed.length_le : d.keys.length ≤ number := by
  have le := indexed.subperm.length_le
  rwa [length_map, length_range] at le

theorem Indexed.perm (length : d.keys.length = number) : (d.keys.map Name.index).Perm (List.range number) := by
  refine indexed.subperm.perm_of_length_le ?_
  rw [length_map, length, length_range]

/-- All sub-jobs are there when there are as many keys. -/
theorem Indexed.length_eq_iff : d.keys.length = number ↔ ∀ k < number, (d.get? (key k)).isSome := by
  constructor
  · intro length k lt
    obtain ⟨name, mem, is⟩ := List.mem_map.mp ((indexed.perm length).mem_iff.mpr (mem_range.mpr lt))
    obtain ⟨v, found⟩ := Dict.mem_keys_iff.mp mem
    obtain ⟨k', -, rfl⟩ := indexed.named name v found
    rw [indexed.index] at is
    rw [← is, found]
    rfl
  · intro known
    have superset : List.range number ⊆ d.keys.map Name.index := by
      intro k mem
      obtain ⟨v, found⟩ := isSome_iff_exists.mp (known k (mem_range.mp mem))
      exact List.mem_map.mpr ⟨key k, Dict.mem_keys_iff.mpr ⟨v, found⟩, indexed.index k⟩
    have ge := (subperm_of_subset nodup_range superset).length_le
    rw [length_map, length_range] at ge
    exact le_antisymm indexed.length_le ge

end

end Indexed

variable {data : Dict Name Int}

/-- The name under which the total number of tasks of a sub-job is kept. -/
def Plan.key (plan : Plan) (k : Nat) : Name := if plan.normal k then .identifier k else .id k

/-- The number of tasks that a sub-job contributes. -/
def Plan.weight (plan : Plan) (k : Nat) : Int := if plan.normal k then (plan.tasks k : Int) else 0

/-- Total numbers of tasks are right: those of failed sub-jobs are zero. -/
def Totals (plan : Plan) (data : Dict Name Int) : Prop :=
  ∀ name v, data.get? name = some v → ∃ k < plan.number, name = plan.key k ∧ v = plan.weight k

theorem index_key (k : Nat) : (plan.key k).index = k := by
  unfold Plan.key
  split <;> rfl

theorem Totals.set (totals : Totals plan data) (lt : k < plan.number) :
    Totals plan (data.set (plan.key k) (plan.weight k)) := by
  intro name v found
  obtain ⟨same, rfl⟩ | ⟨-, found⟩ := Dict.of_get?_set found
  · exact ⟨k, lt, same, rfl⟩
  · exact totals name v found

theorem Totals.indexed (totals : Totals plan data) : Indexed plan.key plan.number data where
  index := index_key
  named := by
    intro name v found
    obtain ⟨k, lt, is, -⟩ := totals name v found
    exact ⟨k, lt, is⟩

/-- All totals sum up to the number of all tasks. -/
theorem Totals.sum_eq (totals : Totals plan data) (length : data.keys.length = plan.number) :
    data.values.sum = plan.total := by
  have values : data.values = (data.keys.map Name.index).map plan.weight := by
    rw [Dict.values, Dict.keys, List.map_map, List.map_map]
    refine map_congr_left fun e mem => ?_
    obtain ⟨k, -, name, v⟩ := totals e.1 e.2 (Dict.mem_items_iff.mp mem)
    rw [v, Function.comp_apply, Function.comp_apply, name, index_key]
  rw [values]
  exact ((totals.indexed.perm length).map plan.weight).sum_eq

/-! ## What the watcher knows -/

/-- The endings that are known before an iteration. -/
def endingsBefore : Nat → Name → Option Status
  | 0, _ => none
  | n + 1, name => (env n).keys.get? name

theorem resultsUntil_succ (n : Nat) : resultsUntil env (n + 1) = resultsUntil env n ++ (env n).results := by
  simp [resultsUntil, range_succ, flatMap_append]

theorem totalsUntil_succ (n : Nat) : totalsUntil env (n + 1) = totalsUntil env n ++ (env n).totals := by
  simp [totalsUntil, range_succ, flatMap_append]

/-- Total numbers in queues and in data. -/
structure Drained (plan : Plan) (totals : List (Name × Int)) (pw : PW) : Prop where
  number : pw.subjobsNumber = plan.number
  right : Totals plan pw.totalTasksData
  queue : ∀ message ∈ pw.totalTasks, ∃ k < plan.number, message = (plan.key k, plan.weight k)
  known : pw.totalNumber = none → ∀ message ∈ totals, (pw.totalTasksData.get? message.1).isSome

/-- Total numbers of sub-jobs under their names. -/
abbrev Plan.Announced (plan : Plan) (messages : List (Name × Int)) : Prop :=
  ∀ message ∈ messages, ∃ k < plan.number, message = (plan.key k, plan.weight k)

theorem totalNumber_eq_some_iff (number : pw.subjobsNumber = plan.number) (right : Totals plan pw.totalTasksData)
    {total : Int} : pw.totalNumber = some total ↔
      total = plan.total ∧ ∀ k < plan.number, (pw.totalTasksData.get? (plan.key k)).isSome := by
  rw [PW.totalNumber, number, ← right.indexed.length_eq_iff]
  split
  next length =>
    rw [right.sum_eq length, some.injEq, eq_comm]
    exact (and_iff_left length).symm
  next differs => exact iff_of_false nofun fun both => differs both.2

/-- Once the total is known it stays so. -/
theorem totalNumber_mono {pw' : PW} (number : pw.subjobsNumber = plan.number) (number' : pw'.subjobsNumber = plan.number)
    (right : Totals plan pw.totalTasksData) (right' : Totals plan pw'.totalTasksData)
    (grows : ∀ name, (pw.totalTasksData.get? name).isSome → (pw'.totalTasksData.get? name).isSome) {total : Int}
    (known : pw.totalNumber = some total) : pw'.totalNumber = some total := by
  obtain ⟨is, all⟩ := (totalNumber_eq_some_iff number right).mp known
  exact (totalNumber_eq_some_iff number' right').mpr ⟨is, fun k lt => grows _ (all k lt)⟩

/-- Messages are put into data. -/
theorem foldl_set_spec (queue : List (Name × Int)) (messages : plan.Announced queue) (right : Totals plan data) :
    Totals plan (queue.foldl (fun data message => data.set message.1 message.2) data) ∧
      (∀ name, (data.get? name).isSome →
        ((queue.foldl (fun data message => data.set message.1 message.2) data).get? name).isSome) ∧
      ∀ message ∈ queue,
        ((queue.foldl (fun data message => data.set message.1 message.2) data).get? message.1).isSome := by
  induction queue generalizing data with
  | nil => exact ⟨right, fun _ known => known, fun _ mem => absurd mem not_mem_nil⟩
  | cons message rest ih =>
    obtain ⟨k, lt, rfl⟩ := messages message mem_cons_self
    obtain ⟨right', grows, all⟩ := ih (fun other mem => messages other (mem_cons_of_mem _ mem)) (right.set lt)
    refine ⟨right', fun name known => grows name (Dict.isSome_get?_set.mpr (.inl known)), fun other mem => ?_⟩
    rcases mem_cons.mp mem with rfl | mem
    · exact grows _ (by rw [Dict.get?_set_self]; rfl)
    · exact all other mem

/-- Total numbers stay known. -/
theorem Drained.drainTotals {more : List (Name × Int)} (drained : Drained plan totals pw)
    (messages : plan.Announced more) : Drained plan (totals ++ more) (pw.drainTotals more) ∧
      ∀ name, (pw.totalTasksData.get? name).isSome → ((pw.drainTotals more).totalTasksData.get? name).isSome := by
  have queue : plan.Announced (pw.totalTasks ++ more) := forall_mem_append.mpr ⟨drained.queue, messages⟩
  rw [PW.drainTotals]
  split
  next known =>
    refine ⟨⟨drained.number, drained.right, queue, fun missing => ?_⟩, fun _ known => known⟩
    rw [show pw.totalNumber = none from missing] at known
    cases known
  next unknown =>
    obtain ⟨right, grows, all⟩ := foldl_set_spec (pw.totalTasks ++ more).reverse
      (fun message mem => queue message (mem_reverse.mp mem)) drained.right
    refine ⟨⟨drained.number, right, fun _ mem => absurd mem not_mem_nil, fun _ message mem => ?_⟩, grows⟩
    rw [not_isSome_iff_eq_none] at unknown
    rcases mem_append.mp mem with old | new
    · exact grows _ (drained.known unknown message old)
    · exact all message (mem_reverse.mpr (mem_append_right _ new))

/-- What a failure of a sub-job without messages changes. -/
theorem failSubjob_spec (lt : k < plan.number) (fails : ¬ plan.normal k = true) (tally : Tally results pw)
    (drained : Drained plan totals pw) :
    Tally results (pw.failSubjob (.id k)) ∧ Drained plan totals (pw.failSubjob (.id k)) ∧
      (∀ name, (pw.totalTasksData.get? name).isSome → ((pw.failSubjob (.id k)).totalTasksData.get? name).isSome) ∧
      ((pw.failSubjob (.id k)).totalTasksData.get? (.id k)).isSome := by
  have key : plan.key k = .id k := if_neg fails
  have weight : plan.weight k = 0 := if_neg fails
  have zero (total : Int) (known : pw.totalTasksData.get? (.id k) = some total) : total = 0 := by
    obtain ⟨k', -, name, is⟩ := drained.right _ _ known
    have same : k' = k := by
      have := congrArg Name.index name
      rw [index_key] at this
      exact this.symm
    rw [is, same, weight]
  refine ⟨tally.failSubjob zero, ?_⟩
  obtain ⟨finished, failed⟩ := tally.ids k
  cases known : pw.totalTasksData.get? (.id k) with
  | some total =>
    simp only [PW.failSubjob, known]
    refine ⟨⟨drained.number, drained.right, drained.queue, drained.known⟩, fun _ known => known, rfl⟩
  | none =>
    simp only [PW.failSubjob, known, finished, failed]
    have right : Totals plan (pw.totalTasksData.set (.id k) (0 + 0)) := by
      have set := drained.right.set lt
      rwa [key, weight] at set
    have grows (name : Name) (known : (pw.totalTasksData.get? name).isSome) :
        ((pw.totalTasksData.set (.id k) (0 + 0)).get? name).isSome := Dict.isSome_get?_set.mpr (.inl known)
    refine ⟨⟨drained.number, right, drained.queue, fun missing message mem => grows _ (drained.known ?_ message mem)⟩,
      grows, ?_⟩
    · by_contra known
      obtain ⟨total, known⟩ := ne_none_iff_exists'.mp known
      have after := @totalNumber_mono plan pw { pw with totalTasksData := pw.totalTasksData.set (.id k) (0 + 0) }
        drained.number drained.number drained.right right grows total known
      cases after.symm.trans missing
    · rw [Dict.get?_set_self]
      rfl

/-- Failures of sub-jobs touch numbers of tasks only. -/
theorem failSubjobs_frame (failures : List (Name × Status)) (pw : PW) :
    failures.foldl (fun pw ending => pw.failSubjob ending.1) pw = { pw with
      totalTasksData := (failures.foldl (fun pw ending => pw.failSubjob ending.1) pw).totalTasksData
      failedTasksData := (failures.foldl (fun pw ending => pw.failSubjob ending.1) pw).failedTasksData
      finishedTasksData := (failures.foldl (fun pw ending => pw.failSubjob ending.1) pw).finishedTasksData } := by
  induction failures generalizing pw with
  | nil => rfl
  | cons ending rest ih =>
    rw [foldl_cons, ih]
    cases known : pw.totalTasksData.get? ending.1 <;> simp only [PW.failSubjob, known]

theorem failSubjobs_spec (failures : List (Name × Status))
    (known : ∀ ending ∈ failures, ∃ k < plan.number, ending.1 = .id k ∧ ¬ plan.normal k = true)
    (tally : Tally results pw) (drained : Drained plan totals pw) {pw' : PW}
    (is : pw' = failures.foldl (fun pw ending => pw.failSubjob ending.1) pw) :
    Tally results pw' ∧ Drained plan totals pw' ∧
      (∀ name, (pw.totalTasksData.get? name).isSome → (pw'.totalTasksData.get? name).isSome) ∧
      ∀ ending ∈ failures, (pw'.totalTasksData.get? ending.1).isSome := by
  induction failures generalizing pw with
  | nil =>
    subst is
    exact ⟨tally, drained, fun _ known => known, fun _ mem => absurd mem not_mem_nil⟩
  | cons ending rest ih =>
    obtain ⟨k, lt, name, fails⟩ := known ending mem_cons_self
    rw [foldl_cons, name] at is
    obtain ⟨tally', drained', grows, here⟩ := failSubjob_spec lt fails tally drained
    obtain ⟨tally', drained', grows', all⟩ :=
      ih (fun other mem => known other (mem_cons_of_mem _ mem)) tally' drained' is
    refine ⟨tally', drained', fun name known => grows' name (grows name known), fun other mem => ?_⟩
    rcases mem_cons.mp mem with rfl | mem
    · rw [name]
      exact grows' _ here
    · exact all other mem

/-- Endings are put into the cache. -/
theorem get?_foldl_cache (changes : List (Name × Status)) (nodup : (changes.map Prod.fst).Nodup)
    (cache : Dict Name Status) (name : Name) :
    (changes.foldl (fun cache ending => cache.set ending.1 ending.2) cache).get? name =
      (changes.lookup name).or (cache.get? name) := by
  induction changes generalizing cache with
  | nil => rfl
  | cons ending rest ih =>
    obtain ⟨other, status⟩ := ending
    obtain ⟨new, nodup⟩ := nodup_cons.mp nodup
    rw [foldl_cons, ih nodup]
    by_cases same : name = other
    · subst same
      have none : rest.lookup name = none := by
        rw [lookup_eq_none_iff]
        rintro ⟨other, status'⟩ mem
        rw [bne_iff_ne]
        rintro rfl
        exact new (List.mem_map.mpr ⟨_, mem, rfl⟩)
      simp [none]
    · have ne : (name == other) = false := beq_eq_false_iff_ne.mpr same
      rw [lookup_cons, ne, Dict.get?_set_of_ne _ _ same]

/-- An ending is new if it is not in the cache. -/
theorem lookup_unknown {endings : List (Name × Status)} {name : Name} :
    (endings.filter fun ending => (pw.subjobsCache.get? ending.1).isNone).lookup name =
      if (pw.subjobsCache.get? name).isNone then endings.lookup name else none := by
  induction endings with
  | nil => simp
  | cons ending rest ih =>
    obtain ⟨other, status⟩ := ending
    by_cases same : name = other
    · subst same
      by_cases new : (pw.subjobsCache.get? name).isNone
      · simp [new]
      · simp [ih, new]
    · have ne : (name == other) = false := beq_eq_false_iff_ne.mpr same
      have skip (rest : List (Name × Status)) : ((other, status) :: rest).lookup name = rest.lookup name := by
        rw [lookup_cons, ne]
      by_cases new : (pw.subjobsCache.get? other).isNone
      · simp [new, skip, ih]
      · simp [new, skip, ih]

/-- The cache is what was seen at last. -/
theorem cache_checkSubjobs {keys items later : Dict Name Status} {time : Nat}
    (older : ∀ name status, pw.subjobsCache.get? name = some status → keys.get? name = some status) (name : Name) :
    (pw.checkSubjobs keys items later time).subjobsCache.get? name = keys.get? name := by
  have changes : ((pw.unknown keys).lookup name).or (pw.subjobsCache.get? name) = keys.get? name := by
    rw [PW.unknown, lookup_unknown]
    cases known : pw.subjobsCache.get? name with
    | none => exact or_none
    | some status => exact (older name status known).symm
  have nodup : ((pw.unknown keys).map Prod.fst).Nodup :=
    keys.nodup.sublist (filter_sublist.map _)
  rw [PW.checkSubjobs]
  split
  next =>
    rw [get?_foldl_cache _ nodup, ← changes]
    refine congrArg (Option.or _) ?_
    split <;> rw [failSubjobs_frame]
  next none =>
    have empty := eq_nil_of_length_eq_zero (Nat.eq_zero_of_not_pos none)
    rwa [empty] at changes

/-- What the watcher knows after some messages and endings. -/
structure Data (plan : Plan) (results : List (Name × Status)) (totals : List (Name × Int))
    (endings : Name → Option Status) (pw : PW) : Prop where
  mode : pw.jobMode = plan.subjobs.isNone
  tally : Tally results pw
  drained : Drained plan totals pw
  failures : ∀ k < plan.number, ¬ plan.normal k = true → (endings (.id k)).isSome →
    (pw.totalTasksData.get? (.id k)).isSome
  cache : ∀ name, pw.subjobsCache.get? name = endings name
  updated : results ≠ [] → pw.taskUpdateTime.isSome
  appeared : pw.firstTaskAppeared = true → pw.tasksStartTime.isSome
  ended : pw.solvedSubjobs ≠ 0 → pw.subjobsUpdateTime.isSome

variable {endings : Name → Option Status}

theorem Data.start (plan : Plan) : Data plan [] [] (fun _ => none) (PW.start plan.subjobs) where
  mode := rfl
  tally := ⟨rfl, rfl, fun _ => ⟨rfl, rfl⟩⟩
  drained := by
    refine ⟨rfl, fun _ _ found => ?_, fun _ mem => ?_, fun _ _ mem => ?_⟩
    · cases found
    · cases mem
    · cases mem
  failures := fun _ _ _ known => by cases known
  cache := fun _ => rfl
  updated := fun some => absurd rfl some
  appeared := nofun
  ended := fun some => absurd rfl some

/-- Reports and the time of the first task do not matter. -/
theorem Data.others (data : Data plan results totals endings pw) (report bridge cache : Report) (determined : Bool)
    {appeared : Bool} {start : Option Nat} (starts : appeared = true → start.isSome) :
    Data plan results totals endings { pw with
      dataReport := report, bridge := bridge, reportCache := cache
      totalTasksDetermined := determined, firstTaskAppeared := appeared, tasksStartTime := start } where
  mode := data.mode
  tally := ⟨data.tally.solved, data.tally.failed, data.tally.ids⟩
  drained := ⟨data.drained.number, data.drained.right, data.drained.queue, data.drained.known⟩
  failures := data.failures
  cache := data.cache
  updated := data.updated
  appeared := starts
  ended := data.ended

/-- Results touch numbers of tasks only. -/
theorem foldl_addResult_frame (more : List (Name × Status)) (pw : PW) : ∃ finished failed, more.foldl PW.addResult pw =
      { pw with finishedTasksData := finished, failedTasksData := failed } := by
  induction more generalizing pw with
  | nil => exact ⟨_, _, rfl⟩
  | cons message rest ih =>
    obtain ⟨name, status⟩ := message
    obtain ⟨finished, failed, is⟩ := ih (pw.addResult (name, status))
    refine ⟨finished, failed, ?_⟩
    rw [foldl_cons, is]
    cases status <;> rfl

theorem drainResults_frame (pw : PW) (more : List (Name × Status)) (time : Nat) :
    ∃ finished failed updated, pw.drainResults more time =
      { pw with finishedTasksData := finished, failedTasksData := failed, taskUpdateTime := updated } ∧
      ((pw.taskUpdateTime.isSome ∨ more ≠ []) → updated.isSome) := by
  rw [PW.drainResults]
  split
  next =>
    obtain ⟨finished, failed, is⟩ := foldl_addResult_frame more.reverse pw
    exact ⟨finished, failed, some time, by rw [is], fun _ => rfl⟩
  next none =>
    have empty := eq_nil_of_length_eq_zero (Nat.eq_zero_of_not_pos none)
    exact ⟨_, _, pw.taskUpdateTime, rfl, fun either => either.resolve_right (not_not_intro empty)⟩

theorem Data.drainResults (data : Data plan results totals endings pw) {more : List (Name × Status)} (time : Nat)
    (owner : ∀ message ∈ more, ∃ k, message.1 = .identifier k) :
    Data plan (results ++ more) totals endings (pw.drainResults more time) := by
  have tally := data.tally.drainResults time owner
  obtain ⟨finished, failed, updated, is, sets⟩ := drainResults_frame pw more time
  rw [is] at tally ⊢
  refine ⟨data.mode, tally, ?_, data.failures, data.cache, fun some => sets ?_, data.appeared, data.ended⟩
  · exact ⟨data.drained.number, data.drained.right, data.drained.queue, data.drained.known⟩
  · by_cases old : results = []
    · right
      rwa [old] at some
    · exact .inl (data.updated old)

theorem drainTotals_frame (pw : PW) (more : List (Name × Int)) :
    ∃ data queue, pw.drainTotals more = { pw with totalTasksData := data, totalTasks := queue } := by
  rw [PW.drainTotals]
  split <;> exact ⟨_, _, rfl⟩

theorem Data.drainTotals (data : Data plan results totals endings pw) {more : List (Name × Int)}
    (messages : plan.Announced more) : Data plan results (totals ++ more) endings (pw.drainTotals more) := by
  obtain ⟨drained, grows⟩ := data.drained.drainTotals messages
  obtain ⟨_, _, is⟩ := drainTotals_frame pw more
  rw [is] at drained grows ⊢
  exact ⟨data.mode, ⟨data.tally.solved, data.tally.failed, data.tally.ids⟩, drained,
    fun k lt fails ends => grows _ (data.failures k lt fails ends), data.cache, data.updated, data.appeared, data.ended⟩

theorem Data.checkFirstTask (data : Data plan results totals endings pw) (flag : Bool) (time : Nat) :
    Data plan results totals endings (pw.checkFirstTask flag time) ∧
      (flag = true → (pw.checkFirstTask flag time).tasksStartTime.isSome) := by
  rw [PW.checkFirstTask]
  split
  next => exact ⟨data.others _ _ _ _ fun _ => rfl, fun _ => rfl⟩
  next old =>
    refine ⟨data, fun set => data.appeared ?_⟩
    simpa [set] using old

theorem checkTotal_frame (pw : PW) : ∃ report determined,
    pw.checkTotal = { pw with dataReport := report, totalTasksDetermined := determined } := by
  rw [PW.checkTotal]
  split
  next =>
    split <;> exact ⟨_, _, rfl⟩
  next => exact ⟨_, _, rfl⟩

theorem Data.checkTotal (data : Data plan results totals endings pw) :
    Data plan results totals endings pw.checkTotal := by
  obtain ⟨_, _, is⟩ := checkTotal_frame pw
  rw [is]
  exact data.others _ _ _ _ data.appeared

end Klever.Core.Progress
