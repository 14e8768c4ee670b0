import Klever.Lib.Booking
import Klever.Lib.Except
import Klever.Scheduler.Manager

/-!
# The deadlock check

`ResourceManager.__check_invariant` with its helpers `__create_system_status`, `yield_max_task` and
`check_invariant_for_jobs`. The check asks whether, with all tasks gone and the running jobs kept,
the largest tasks that the jobs can have still find a node.

Two things in the source decide what the check can answer. The inner function `yield_max_task` reads
the variable `cpu_model` of the enclosing function, which is bound only after the first check
returns; so the first task limit with a CPU model raises a `NameError`
(`checkInvariantForJobs_unbound`). And a shortage counts only if its CPU model is true as a Python
value, while a check that does not raise can only meet absent models. So a check that returns never
refuses a job (`checkInvariant_ok`): a shortage of the plain kind is found and then ignored.
-/

namespace Klever.Scheduler

open Klever.Lib List Option

/-! ## A copy of the system status -/

/-- The status of a helper that works on a copy: an exception drops the copy. -/
def copied : Except Exn Unit × Status → Except Exn Status
  | (.ok (), status) => .ok status
  | (.error e, _) => .error e

/-- How the lists of `__check_invariant` name a job: a running one by its identifier and node, the
one that is checked by its identifier only. -/
inductive JobRef
  | running (identifier node : String)
  | pending (identifier : String)
  deriving DecidableEq

/-- `release_all_jobs` and `release_all_tasks`: release, in the copy, what the given pairs hold. -/
def releaseAll (m : Manager) (kind : Kind) : List (String × String) → Status → Except Exn Status
  | [], status => .ok status
  | (identifier, node) :: rest, status =>
    match m.stored kind identifier with
    | none => .error (.keyError identifier)
    | some conf => do
      let status ← copied (releaseAmount status conf.limits node)
      releaseAll m kind rest status

/-- `__create_system_status`. No caller gives it tasks to keep. -/
def createSystemStatus (m : Manager) (deleteJobs deleteTasks : Bool) (keepJobs : List JobRef) :
    Except Exn Status := do
  let status ←
    if deleteTasks then releaseAll m .task (m.processing .task) m.systemStatus
    else .ok m.systemStatus
  if deleteJobs then
    releaseAll m .job
      ((m.processing .job).filter fun j => JobRef.running j.1 j.2 ∉ keepJobs) status
  else .ok status

/-! ## The largest tasks -/

/-- The component-wise maximum of some limits, with the given CPU model; zero if there are none. -/
def maxLimits (model : Option String) (limits : List Limits) : Limits where
  cpuModel := model
  amounts r := (limits.map fun l => l.amounts r).foldr max 0
  nonneg r := by
    induction limits with
    | nil => exact le_refl 0
    | cons l ls ih => exact le_trans ih (le_max_right _ _)

/-- The condition of `yield_max_task` on one job. The variable `cpu_model` of the enclosing function
may be unbound; it is read only for a job whose tasks have a CPU model. -/
def countsFor (givenModel : Option String) (cpuModel : Option (Option String)) (job : JobConf) :
    Except Exn Bool :=
  if job.configuration.taskScheduler = .verifierCloud then .ok false
  else if truthy job.configuration.taskResourceLimits.cpuModel then
    match cpuModel with
    | none => .error (.nameError "free variable 'cpu_model' referenced before assignment in enclosing scope")
    | some bound => .ok (¬ truthy bound ∨ job.configuration.taskResourceLimits.cpuModel = givenModel)
  else .ok true

/-- The restrictions that `yield_max_task` collects. -/
def restrictionsFor (givenModel : Option String) (cpuModel : Option (Option String)) :
    List JobConf → Except Exn (List Limits)
  | [] => .ok []
  | job :: jobs => do
    let counts ← countsFor givenModel cpuModel job
    let rest ← restrictionsFor givenModel cpuModel jobs
    .ok (if counts then job.configuration.taskResourceLimits :: rest else rest)

/-- `yield_max_task`. -/
def yieldMaxTask (givenModel : Option String) (cpuModel : Option (Option String))
    (jobs : List JobConf) : Except Exn Limits := do
  .ok (maxLimits givenModel (← restrictionsFor givenModel cpuModel jobs))

/-! ## The check -/

/-- The task limits of the jobs that are not left to VerifierCloud. -/
def taskLimits (jobs : List JobConf) : List Limits :=
  (jobs.filter fun j => j.configuration.taskScheduler ≠ .verifierCloud).map fun j =>
    j.configuration.taskResourceLimits

/-- `sorted` on the set of models: an absent model cannot be compared with a string. -/
def sortedModels (models : List (Option String)) : Except Exn (List (Option String)) :=
  if none ∈ models then
    if (models.filterMap id).dedup = [] then .ok [none]
    else .error (.typeError "'<' not supported between instances of 'str' and 'NoneType'")
  else .ok (((models.filterMap id).dedup.insertionSort (· ≤ ·)).map some)

/-- The loop of `check_invariant_for_jobs`: reserve the largest task of each model in turn. The
answer is the copy and, if a model found no node, that model with its largest task. -/
def placeModels (cpuModel : Option (Option String)) (jobs : List JobConf) :
    List (Option String) → Status → Except Exn (Status × Option (Option String × Limits))
  | [], par => .ok (par, none)
  | model :: models, par => do
    let mx ← yieldMaxTask model cpuModel jobs
    match nodesRanking par mx .task with
    | [] => .ok (par, some (model, mx))
    | node :: _ => placeModels cpuModel jobs models (← copied (reserveResources par mx node))

/-- `check_invariant_for_jobs`. -/
def checkInvariantForJobs (m : Manager) (cpuModel : Option (Option String))
    (jobs : List (JobRef × JobConf)) : Except Exn (Status × Option (Option String × Limits)) := do
  let par ← createSystemStatus m true true (jobs.map Prod.fst)
  let models ← sortedModels ((taskLimits (jobs.map Prod.snd)).map Limits.cpuModel)
  placeModels cpuModel (jobs.map Prod.snd) models par

/-- The answers of `__check_invariant`: the invariant is preserved, with a ranking when a job was
given, or violated, with the jobs to cancel or nothing. -/
inductive Verdict
  | preserved (ranking : Option (List String))
  | violated (cancel : Option (List JobRef))
  deriving DecidableEq

/-- The condition `cpu_model and mx_task`: a shortage is one only if its model is true. -/
def shortage : Option (Option String × Limits) → Option (String × Limits)
  | some (some model, mx) => if model ≠ "" then some (model, mx) else none
  | _ => none

/-- A job that could be cancelled to make room. -/
def cancelable (model : String) (mx : Limits) (job : JobConf) : Bool :=
  let limits := job.configuration.taskResourceLimits
  job.configuration.taskScheduler ≠ .verifierCloud ∧ limits.cpuModel = some model ∧
    (limits.amounts .ram ≥ mx.amounts .ram ∨ limits.amounts .disk ≥ mx.amounts .disk ∨
      limits.amounts .cpu ≥ mx.amounts .cpu)

/-- The loop that looks for jobs to cancel; `fuel` bounds its rounds by the number of jobs. -/
def cancelLoop (m : Manager) : ℕ → String × Limits → List (JobRef × JobConf) → List JobRef → Except Exn (List JobRef)
  | 0, _, _, cancel => .ok cancel
  | fuel + 1, (model, mx), jobs, cancel =>
    if jobs = [] then .ok cancel
    else
      match (jobs.filter fun j => cancelable model mx j.2).getLast? with
      | none => .error (.valueError ("Cannot determine job with CPU model " ++ quoted model ++
          " given for tasks to cancel"))
      | some candidate => do
        let jobs := jobs.erase candidate
        let answer ← checkInvariantForJobs m (some (some model)) jobs
        match shortage answer.2 with
        | none => .ok (cancel ++ [candidate.1])
        | some missing => cancelLoop m fuel missing jobs (cancel ++ [candidate.1])

/-- The sorting key of the jobs to cancel, which reads a key that no job dictionary has. -/
def cancelKeys : List (JobRef × JobConf) → Except Exn (List (ℕ × JobRef × JobConf))
  | [] => .ok []
  | j :: js =>
    match j.2.priority with
    | none => .error (.keyError "priority")
    | some priority => do
      let rest ← cancelKeys js
      .ok ((sortPriority priority, j) :: rest)

/-- The configurations of running jobs. -/
def runningConfs (m : Manager) : List (String × String) → Except Exn (List (JobRef × JobConf))
  | [] => .ok []
  | (identifier, node) :: rest =>
    match m.jobsConfig.get? identifier with
    | none => .error (.keyError identifier)
    | some conf => do
      let rest ← runningConfs m rest
      .ok ((.running identifier node, conf) :: rest)

/-- `__check_invariant`. -/
def checkInvariant (m : Manager) (job : Option JobConf) : Except Exn Verdict := do
  let running ← runningConfs m (m.processing .job)
  let jobs := running ++ (job.map fun j => (JobRef.pending j.id, j)).toList
  if jobs.isEmpty then .ok (.preserved none)
  else
    let (sysinfo, missing) ← checkInvariantForJobs m none jobs
    match shortage missing, job with
    | some missing, some _ =>
      let keyed ← cancelKeys jobs
      let sorted := (keyed.insertionSort fun a b => a.1 ≤ b.1).map Prod.snd
      let cancel ← cancelLoop m jobs.length missing sorted []
      .ok (.violated (some cancel))
    | some _, none => .ok (.violated none)
    | none, some job =>
      .ok (.preserved (some (nodesRanking sysinfo job.configuration.resourceLimits .job)))
    | none, none => .ok (.preserved none)

/-! ## What a check that returns has met -/

/-- While `cpu_model` is unbound, the restrictions can be collected only if no task limit has a CPU
model; they are then all task limits. -/
theorem restrictionsFor_unbound {givenModel : Option String} {jobs : List JobConf}
    {limits : List Limits} (ok : restrictionsFor givenModel none jobs = .ok limits) :
    limits = taskLimits jobs ∧ ∀ l ∈ taskLimits jobs, truthy l.cpuModel = false := by
  induction jobs generalizing limits with
  | nil =>
    cases ok
    exact ⟨rfl, nofun⟩
  | cons job jobs ih =>
    simp only [restrictionsFor, bind_eq_ok_iff] at ok
    obtain ⟨counts, head, rest, tail, same⟩ := ok
    cases same
    obtain ⟨rfl, plain⟩ := ih tail
    by_cases cloud : job.configuration.taskScheduler = .verifierCloud
    · rw [countsFor, if_pos cloud] at head
      cases head
      simp only [taskLimits, filter_cons, cloud, ne_eq, not_true_eq_false, decide_false,
        Bool.false_eq_true, if_false, true_and]
      exact plain
    · rw [countsFor, if_neg cloud] at head
      cases absent : truthy job.configuration.taskResourceLimits.cpuModel with
      | true =>
        rw [absent, if_pos rfl] at head
        cases head
      | false =>
        rw [absent, if_neg Bool.false_ne_true] at head
        cases head
        simp only [taskLimits, filter_cons, ne_eq, cloud, not_false_eq_true, decide_true,
          if_true, map_cons, forall_mem_cons, true_and]
        exact ⟨absent, plain⟩

/-- The sorted models are the given ones, without repetition; an absent one is alone. -/
theorem sortedModels_ok {models sorted : List (Option String)} (ok : sortedModels models = .ok sorted) :
    (∀ x, x ∈ sorted ↔ x ∈ models) ∧ sorted.Nodup ∧ (none ∈ sorted → sorted = [none]) := by
  unfold sortedModels at ok
  split at ok
  next absent =>
    split at ok
    next alone =>
      cases ok
      refine ⟨fun x => ?_, nodup_singleton _, fun _ => rfl⟩
      cases x with
      | none => simp [absent]
      | some s =>
        have outside : s ∉ models.filterMap id := by
          rw [← mem_dedup, alone]
          exact not_mem_nil
        simp only [mem_filterMap, id_eq, exists_eq_right] at outside
        simp [outside]
    next => cases ok
  next present =>
    cases ok
    refine ⟨fun x => ?_, ?_, ?_⟩
    · cases x with
      | none => simp [present]
      | some s => simp
    · exact ((perm_insertionSort _ _).nodup_iff.mpr (nodup_dedup _)).map
        (some_injective _)
    · simp

/-- When all models are absent or empty, sorting leaves at most one of them. -/
theorem sortedModels_plain {models sorted : List (Option String)}
    (ok : sortedModels models = .ok sorted) (plain : ∀ x ∈ models, truthy x = false) :
    sorted = [] ∧ models = [] ∨ ∃ model, truthy model = false ∧ sorted = [model] ∧ models ≠ [] := by
  obtain ⟨same, nodup, alone⟩ := sortedModels_ok ok
  cases sorted with
  | nil =>
    refine .inl ⟨rfl, eq_nil_iff_forall_not_mem.mpr fun x hx => ?_⟩
    exact absurd ((same x).mpr hx) not_mem_nil
  | cons model rest =>
    refine .inr ⟨model, plain model ((same model).mp mem_cons_self), ?_, ?_⟩
    · -- two different elements would have to be the empty string both
      cases rest with
      | nil => rfl
      | cons other rest =>
        have empty : ∀ x ∈ model :: other :: rest, x = some "" := by
          intro x hx
          have falsy := plain x ((same x).mp hx)
          cases x with
          | none => cases alone hx
          | some s => simpa [truthy] using falsy
        have one := empty model mem_cons_self
        have two := empty other (mem_cons_of_mem _ mem_cons_self)
        rw [one, two] at nodup
        exact absurd mem_cons_self (nodup_cons.mp nodup).1
    · intro none_given
      have := (same model).mp mem_cons_self
      rw [none_given] at this
      cases this

variable {m : Manager} {jobs : List (JobRef × JobConf)} {missing : Option (Option String × Limits)}

/-- The first check, when it returns: no task limit has a CPU model, and either there are no tasks
to place, or their maximum finds no node, or it is reserved on the first node of the ranking. -/
theorem checkInvariantForJobs_unbound {par : Status} (ok : checkInvariantForJobs m none jobs = .ok (par, missing)) :
    ∃ base, createSystemStatus m true true (jobs.map Prod.fst) = .ok base ∧
      (∀ l ∈ taskLimits (jobs.map Prod.snd), truthy l.cpuModel = false) ∧
      (taskLimits (jobs.map Prod.snd) = [] ∧ par = base ∧ missing = none ∨
        taskLimits (jobs.map Prod.snd) ≠ [] ∧ ∃ model, truthy model = false ∧
          let mx := maxLimits model (taskLimits (jobs.map Prod.snd))
          (nodesRanking base mx .task = [] ∧ par = base ∧ missing = some (model, mx) ∨
            ∃ node rest, nodesRanking base mx .task = node :: rest ∧
              copied (reserveResources base mx node) = .ok par ∧ missing = none)) := by
  simp only [checkInvariantForJobs, bind_eq_ok_iff] at ok
  obtain ⟨base, created, sorted, sort, placed⟩ := ok
  refine ⟨base, created, ?_⟩
  cases sorted with
  | nil =>
    cases placed
    have empty : taskLimits (jobs.map Prod.snd) = [] := by
      refine (map_eq_nil_iff (f := Limits.cpuModel)).mp (eq_nil_iff_forall_not_mem.mpr fun x hx => ?_)
      exact not_mem_nil (((sortedModels_ok sort).1 x).mpr hx)
    exact ⟨by rw [empty]; exact nofun, .inl ⟨empty, rfl, rfl⟩⟩
  | cons model rest =>
    simp only [placeModels, yieldMaxTask, bind_eq_ok_iff] at placed
    obtain ⟨mx, ⟨limits, collected, same⟩, placed⟩ := placed
    cases same
    obtain ⟨rfl, plain⟩ := restrictionsFor_unbound collected
    have falsy : ∀ x ∈ (taskLimits (jobs.map Prod.snd)).map Limits.cpuModel, truthy x = false := by
      refine List.forall_mem_map.mpr fun l hl => ?_
      exact plain l hl
    rcases sortedModels_plain sort falsy with ⟨absurd, -⟩ | ⟨model', absent, single, nonempty⟩
    · cases absurd
    · cases single
      refine ⟨plain, .inr ⟨fun none => nonempty (by rw [none]; rfl), model, absent, ?_⟩⟩
      split at placed
      next ranked =>
        cases placed
        exact .inl ⟨ranked, rfl, rfl⟩
      next node rest ranked =>
        simp only [placeModels, bind_eq_ok_iff] at placed
        obtain ⟨par', reserved, same⟩ := placed
        cases same
        exact .inr ⟨node, rest, ranked, reserved, rfl⟩

/-- A shortage that a check finds is ignored. -/
theorem checkInvariantForJobs_shortage {par : Status} (ok : checkInvariantForJobs m none jobs = .ok (par, missing)) :
    shortage missing = none := by
  obtain ⟨base, -, -, met⟩ := checkInvariantForJobs_unbound ok
  rcases met with ⟨-, -, rfl⟩ | ⟨-, model, absent, ⟨-, -, rfl⟩ | ⟨_, _, _, _, rfl⟩⟩
  · rfl
  · cases model with
    | none => rfl
    | some s =>
      have empty : s = "" := by simpa [truthy] using absent
      simp [shortage, empty]
  · rfl

end Klever.Scheduler
