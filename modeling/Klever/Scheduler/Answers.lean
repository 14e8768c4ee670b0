import Klever.Scheduler.Deadlock
import Klever.Scheduler.Update

/-!
# What the deadlock check answers

The documentation of `__check_invariant` promises one of four answers: whether the invariant is preserved, with nodes for the
job that is given, or with jobs to cancel if no job is given. The check does return what it promises while the invariant is
preserved, unless tasks of some job have a CPU model (`yield_max_task` reads a variable that is not bound yet), absent and
empty models have to be sorted together, or the largest task is reserved on a node that has already less than is reserved
there. A violation is never reported: a shortage counts only for a true CPU model. `check_documented_iff` puts this together.
-/

namespace Klever.Scheduler

open Klever.Lib List Option

/-! ## Copies of the status -/

variable {m : Manager}

/-- Everything that runs is known to the books, so a copy of the status can be released of it. -/
theorem releaseAll_returns {kind : Kind} {running : List (String × String)} {status : Status}
    (stored : ∀ p ∈ running, ∃ conf, m.stored kind p.1 = some conf) (known : ∀ p ∈ running, ∃ n, status.get? p.2 = some n)
    (covered : ∀ node n, status.get? node = some n →
      load (running.map fun p => (p.2, m.limitOf kind p.1)) node ≤ n.reserved) :
    ∃ status', releaseAll m kind running status = .ok status' := by
  induction running generalizing status with
  | nil => exact ⟨status, rfl⟩
  | cons p rest ih =>
    obtain ⟨identifier, node⟩ := p
    obtain ⟨conf, is⟩ := stored _ mem_cons_self
    obtain ⟨n, found⟩ := known _ mem_cons_self
    have limit : m.limitOf kind identifier = conf.limits.amounts := by
      rw [Manager.limitOf, is, map_some, getD_some]
    have nonneg (x : String) : 0 ≤ load (rest.map fun p => (p.2, m.limitOf kind p.1)) x :=
      load_nonneg (List.forall_mem_map.mpr fun q _ => m.limitOf_nonneg kind q.1) x
    have covers : n.Covers conf.limits.amounts := by
      have all := covered node n found
      rw [map_cons, load_cons, if_pos rfl, limit] at all
      exact le_trans (le_add_of_nonneg_right (nonneg node)) all
    have released : releaseAmount status conf.limits node = (.ok (), _) := releaseAmount_ok_iff.mpr ⟨n, found, covers, rfl⟩
    have step : releaseAll m kind ((identifier, node) :: rest) status =
        releaseAll m kind rest (status.set node (n.withReserved (n.reserved - conf.limits.amounts))) := by
      rw [releaseAll, is]
      dsimp only
      rw [released]
      rfl
    rw [step]
    apply ih
    · exact fun q mem => stored q (mem_cons_of_mem _ mem)
    · intro q mem
      obtain ⟨n', found'⟩ := known q (mem_cons_of_mem _ mem)
      rw [Dict.get?_set]
      split
      · exact ⟨_, rfl⟩
      · exact ⟨n', found'⟩
    · refine Dict.forall_set ?_ fun x n' differs found' => ?_
      · have all := covered node n found
        rw [map_cons, load_cons, if_pos rfl, limit] at all
        exact le_sub_iff_add_le'.mpr all
      · have all := covered x n' found'
        rwa [map_cons, load_cons, if_neg fun same => differs same.symm, zero_add] at all

/-- A copy of the status without tasks. -/
theorem Manager.Books.createSystemStatus_kept (books : m.Books) {keep : List JobRef}
    (kept : ∀ j ∈ m.processing .job, JobRef.running j.1 j.2 ∈ keep) :
    createSystemStatus m true true keep = .ok (withoutTasks m) := by
  have none_left : (m.processing .job).filter (fun j => JobRef.running j.1 j.2 ∉ keep) = [] := by
    simp only [filter_eq_nil_iff, decide_eq_true_eq, not_not]
    exact kept
  obtain ⟨status, released⟩ : ∃ status, releaseAll m .task (m.processing .task) m.systemStatus = .ok status := by
    apply releaseAll_returns
    · intro p mem
      obtain ⟨n, found, listed⟩ := Manager.mem_processing.mp mem
      exact books.stored found listed
    · intro p mem
      obtain ⟨n, found, -⟩ := Manager.mem_processing.mp mem
      exact ⟨n, found⟩
    · intro node n found
      rw [load_processing found]
      exact books.sum_le found .task
  have created : createSystemStatus m true true keep = .ok status := by
    simp only [createSystemStatus, if_true, released, none_left]
    rfl
  rw [created, Scheduler.createSystemStatus_kept kept created]

/-- All running jobs have configurations. -/
theorem Manager.Books.runningConfs_returns (books : m.Books) :
    ∃ confs, runningConfs m (m.processing .job) = .ok confs := by
  have all : ∀ p ∈ m.processing .job, ∃ conf, m.jobsConfig.get? p.1 = some conf := by
    intro p mem
    obtain ⟨n, found, listed⟩ := Manager.mem_processing.mp mem
    obtain ⟨conf, stored⟩ := books.stored found listed
    obtain ⟨job, is, -⟩ := map_eq_some_iff.mp stored
    exact ⟨job, is⟩
  generalize m.processing .job = running at all
  induction running with
  | nil => exact ⟨[], rfl⟩
  | cons p rest ih =>
    obtain ⟨conf, is⟩ := all p mem_cons_self
    obtain ⟨confs, done⟩ := ih fun q mem => all q (mem_cons_of_mem _ mem)
    refine ⟨(.running p.1 p.2, conf) :: confs, ?_⟩
    rw [runningConfs, is]
    rw [done]
    rfl

/-! ## When the check returns -/

/-- Limits of tasks that running jobs, and the given one, may have. -/
def Manager.limitsWith (m : Manager) (job : Option JobConf) : List Limits := taskLimits (runningJobs m ++ job.toList)

/-- The largest task of jobs without CPU models. -/
def Manager.largest (m : Manager) (job : Option JobConf) : Limits := maxLimits none (m.limitsWith job)

/-- The state and the job let the check return: CPU models are absent or empty, not both, and the node that is ranked first
for the largest task does not have less than would be reserved there. -/
structure Manager.CheckReturns (m : Manager) (job : Option JobConf) : Prop where
  plain : ∀ l ∈ m.limitsWith job, truthy l.cpuModel = false
  unmixed : ∀ l ∈ m.limitsWith job, ∀ l' ∈ m.limitsWith job, l.cpuModel = l'.cpuModel
  fits : m.limitsWith job ≠ [] → ∀ node n, (nodesRanking (withoutTasks m) (m.largest job) .task).head? = some node →
    (withoutTasks m).get? node = some n → n.Fits (m.largest job).amounts

/-- The invariant, under the assumption that the given job is running. -/
def Manager.RoomFor (m : Manager) (job : Option JobConf) : Prop :=
  Placeable (withoutTasks m) (requiredTasks (runningJobs m ++ job.toList))

theorem roomFor_none : m.RoomFor none ↔ DeadlockFree m := by
  rw [Manager.RoomFor, toList_none, append_nil, DeadlockFree]

/-- Absent and empty models make no difference for a ranking. -/
theorem nodesRanking_plain {status : Status} {model : Option String} {limits : List Limits} (plain : truthy model = false) :
    nodesRanking status (maxLimits model limits) .task = nodesRanking status (maxLimits none limits) .task := by
  have same (n : Node) : fulfillRequirement n (maxLimits model limits) .task =
      fulfillRequirement n (maxLimits none limits) .task := by
    rw [Bool.eq_iff_iff, fulfill_plain plain, fulfill_plain rfl]
    rfl
  simp only [nodesRanking, same]

theorem restrictionsFor_plain {givenModel : Option String} {jobs : List JobConf}
    (plain : ∀ l ∈ taskLimits jobs, truthy l.cpuModel = false) :
    restrictionsFor givenModel none jobs = .ok (taskLimits jobs) := by
  induction jobs with
  | nil => rfl
  | cons job rest ih =>
    rw [restrictionsFor, countsFor]
    by_cases cloud : job.configuration.taskScheduler = .verifierCloud
    · have skipped : taskLimits (job :: rest) = taskLimits rest := by
        simp [taskLimits, cloud]
      rw [if_pos cloud, skipped, ih (skipped ▸ plain)]
      rfl
    · have counted : taskLimits (job :: rest) = job.configuration.taskResourceLimits :: taskLimits rest := by
        simp [taskLimits, cloud]
      rw [counted, forall_mem_cons] at plain
      rw [if_neg cloud, plain.1, counted, ih plain.2]
      rfl

/-- Equal models are sorted. -/
theorem sortedModels_equal {models : List (Option String)} {model : Option String} (all : ∀ x ∈ models, x = model)
    (some_given : models ≠ []) : sortedModels models = .ok [model] := by
  have mem : model ∈ models := by
    obtain ⟨x, is⟩ := exists_mem_of_ne_nil _ some_given
    exact all x is ▸ is
  cases model with
  | none =>
    have absent : (models.filterMap id).dedup = [] := by
      rw [eq_nil_iff_forall_not_mem]
      intro s is
      rw [mem_dedup, mem_filterMap] at is
      obtain ⟨x, known, same⟩ := is
      rw [all x known] at same
      cases same
    rw [sortedModels, if_pos mem, if_pos absent]
  | some s =>
    have present : none ∉ models := fun known => nomatch all none known
    have single : (models.filterMap id).dedup = [s] := by
      have perm : (models.filterMap id).dedup.Perm [s] := by
        rw [perm_ext_iff_of_nodup (nodup_dedup _) (nodup_singleton _)]
        intro x
        rw [mem_dedup, mem_filterMap, mem_singleton]
        constructor
        · rintro ⟨y, known, rfl⟩
          exact some.inj (all _ known)
        · rintro rfl
          exact ⟨some x, mem, rfl⟩
      exact perm_singleton.mp perm
    rw [sortedModels, if_neg present, single]
    rfl

theorem sortedModels_unmixed {models sorted : List (Option String)} (ok : sortedModels models = .ok sorted)
    (plain : ∀ x ∈ models, truthy x = false) {x y : Option String} (memx : x ∈ models) (memy : y ∈ models) : x = y := by
  obtain ⟨-, none_given⟩ | ⟨model, -, rfl, -⟩ := sortedModels_plain ok plain
  · rw [none_given] at memx
    cases memx
  · have same := (sortedModels_ok ok).1
    have isx := (same x).mpr memx
    have isy := (same y).mpr memy
    rw [mem_singleton] at isx isy
    rw [isx, isy]

/-- What the check of some jobs needs to return. -/
theorem checkInvariantForJobs_returns_iff {jobs : List (JobRef × JobConf)} {base : Status}
    (created : createSystemStatus m true true (jobs.map Prod.fst) = .ok base) {limits : List Limits}
    (tasks : taskLimits (jobs.map Prod.snd) = limits) :
    (∃ answer, checkInvariantForJobs m none jobs = .ok answer) ↔
      (∀ l ∈ limits, truthy l.cpuModel = false) ∧ (∀ l ∈ limits, ∀ l' ∈ limits, l.cpuModel = l'.cpuModel) ∧
        (limits ≠ [] → ∀ node n, (nodesRanking base (maxLimits none limits) .task).head? = some node →
          base.get? node = some n → n.Fits (maxLimits none limits).amounts) := by
  constructor
  · rintro ⟨⟨par, missing⟩, ok⟩
    obtain ⟨base', created', plain, met⟩ := checkInvariantForJobs_unbound ok
    obtain rfl : base = base' := Except.ok.inj (created.symm.trans created')
    rw [tasks] at plain met
    have falsy : ∀ x ∈ limits.map Limits.cpuModel, truthy x = false := List.forall_mem_map.mpr plain
    refine ⟨plain, fun l mem l' mem' => ?_, fun some_task node n first found => ?_⟩
    · simp only [checkInvariantForJobs, bind_eq_ok_iff, tasks] at ok
      obtain ⟨-, -, sorted, sort, -⟩ := ok
      exact sortedModels_unmixed sort falsy (List.mem_map_of_mem mem) (List.mem_map_of_mem mem')
    · obtain ⟨none_given, -⟩ | ⟨-, model, absent, ranked⟩ := met
      · exact absurd none_given some_task
      · simp only [nodesRanking_plain absent] at ranked
        obtain ⟨empty, -⟩ | ⟨node', rest, full, reserved, -⟩ := ranked
        · rw [empty] at first
          cases first
        · rw [full] at first
          obtain rfl : node' = node := some.inj first
          obtain ⟨n', found', fits, -⟩ := copied_reserve_ok reserved
          obtain rfl : n = n' := some.inj (found.symm.trans found')
          exact fits
  · rintro ⟨plain, unmixed, fits⟩
    have start (rest : Status → Except Exn (Status × Option (Option String × Limits))) :
        (createSystemStatus m true true (jobs.map Prod.fst) >>= rest) = rest base := by
      rw [created]
      rfl
    rw [checkInvariantForJobs, start, tasks]
    rcases limits with _ | ⟨l, others⟩
    · exact ⟨(base, none), rfl⟩
    · have sorted : sortedModels ((l :: others).map Limits.cpuModel) = .ok [l.cpuModel] := by
        refine sortedModels_equal (fun x mem => ?_) (cons_ne_nil _ _)
        obtain ⟨l', is, rfl⟩ := List.mem_map.mp mem
        exact unmixed l' is l mem_cons_self
      have absent := plain l mem_cons_self
      have collected : yieldMaxTask l.cpuModel none (jobs.map Prod.snd) = .ok (maxLimits l.cpuModel (l :: others)) := by
        rw [yieldMaxTask, restrictionsFor_plain (tasks.symm ▸ plain), tasks]
        rfl
      have step : (sortedModels ((l :: others).map Limits.cpuModel) >>= fun models =>
          placeModels none (jobs.map Prod.snd) models base) = placeModels none (jobs.map Prod.snd) [l.cpuModel] base := by
        rw [sorted]
        rfl
      rw [step, placeModels, collected]
      rcases ranked : nodesRanking base (maxLimits l.cpuModel (l :: others)) .task with _ | ⟨node, rest⟩
      · refine ⟨(base, some (l.cpuModel, maxLimits l.cpuModel (l :: others))), ?_⟩
        simp only [bind, Except.bind, ranked]
      · have mem : node ∈ nodesRanking base (maxLimits l.cpuModel (l :: others)) .task := ranked ▸ mem_cons_self
        obtain ⟨n, found, -⟩ := mem_nodesRanking.mp mem
        rw [nodesRanking_plain absent] at ranked
        have room := fits (cons_ne_nil _ _) node n (by rw [ranked]; rfl) found
        have reserved : reserveResources base (maxLimits l.cpuModel (l :: others)) node = (.ok (), _) :=
          reserveResources_ok_iff.mpr ⟨n, found, room, rfl⟩
        rw [← nodesRanking_plain absent] at ranked
        refine ⟨(base.set node (n.withReserved (n.reserved + (maxLimits l.cpuModel (l :: others)).amounts)), none), ?_⟩
        simp only [bind, Except.bind, ranked, reserved, copied, placeModels]

/-- A check that returns says that the invariant is preserved, with a ranking if there is a job. -/
theorem checkInvariant_eq {job : Option JobConf} {running : List (JobRef × JobConf)}
    (confs : runningConfs m (m.processing .job) = .ok running) :
    checkInvariant m job = let jobs := running ++ (job.map fun j => (JobRef.pending j.id, j)).toList
      if jobs.isEmpty then .ok (.preserved none)
      else (checkInvariantForJobs m none jobs).map fun answer =>
        .preserved (job.map fun j => nodesRanking answer.1 j.configuration.resourceLimits .job) := by
  have start (rest : List (JobRef × JobConf) → Except Exn Verdict) :
      (runningConfs m (m.processing .job) >>= rest) = rest running := by
    rw [confs]
    rfl
  rw [checkInvariant, start]
  dsimp only
  split
  · rfl
  · rcases checked : checkInvariantForJobs m none (running ++ (job.map fun j => (JobRef.pending j.id, j)).toList) with
      e | ⟨par, missing⟩
    · rfl
    · have ignored := checkInvariantForJobs_shortage checked
      cases job with
      | none => simp [bind, Except.bind, ignored, Except.map]
      | some j => simp [bind, Except.bind, ignored, Except.map]

section Check

variable {m : Manager} {job : Option JobConf} (books : m.Books)

include books

/-- Jobs of the check. -/
theorem check_jobs : ∃ running, runningConfs m (m.processing .job) = .ok running ∧
    createSystemStatus m true true ((running ++ (job.map fun j => (JobRef.pending j.id, j)).toList).map Prod.fst) =
      .ok (withoutTasks m) ∧
    (running ++ (job.map fun j => (JobRef.pending j.id, j)).toList).map Prod.snd = runningJobs m ++ job.toList := by
  obtain ⟨running, confs⟩ := books.runningConfs_returns
  obtain ⟨jobs, refs⟩ := runningConfs_ok confs
  refine ⟨running, confs, ?_, ?_⟩
  · apply books.createSystemStatus_kept
    intro j mem
    rw [map_append, refs]
    exact mem_append_left _ (List.mem_map.mpr ⟨j, mem, rfl⟩)
  · rw [map_append, jobs]
    cases job with
    | none => rfl
    | some j => rfl

/-- The check returns exactly when it has nothing to stumble over, and never reports a violation. -/
theorem check_spec : (m.CheckReturns job → ∃ ranking, ranking.isSome = job.isSome ∧
    checkInvariant m job = .ok (.preserved ranking)) ∧ ∀ verdict, checkInvariant m job = .ok verdict →
      m.CheckReturns job ∧ ∃ ranking, verdict = .preserved ranking := by
  obtain ⟨running, confs, created, jobs⟩ := @check_jobs m job books
  have returns := @checkInvariantForJobs_returns_iff m _ _ created (m.limitsWith job) (by rw [jobs]; rfl)
  rw [checkInvariant_eq confs]
  dsimp only
  split
  next empty =>
    rw [List.isEmpty_iff, append_eq_nil_iff] at empty
    obtain ⟨rfl, alone⟩ := empty
    have absent : job = none := by
      cases job with
      | none => rfl
      | some j => cases alone
    subst absent
    refine ⟨fun _ => ⟨none, rfl, rfl⟩, fun verdict ok => ⟨?_, none, (Except.ok.inj ok).symm⟩⟩
    have idle : m.limitsWith none = [] := by
      rw [Manager.limitsWith, ← jobs]
      rfl
    constructor
    all_goals
      rw [idle]
      nofun
  next =>
    constructor
    · intro h
      obtain ⟨answer, ok⟩ := returns.mpr ⟨h.plain, h.unmixed, h.fits⟩
      rw [ok]
      exact ⟨_, isSome_map, rfl⟩
    · intro verdict ok
      rcases checked : checkInvariantForJobs m none (running ++ (job.map fun j => (JobRef.pending j.id, j)).toList) with
        e | answer
      · rw [checked] at ok
        cases ok
      · rw [checked] at ok
        obtain ⟨plain, unmixed, fits⟩ := returns.mp ⟨answer, checked⟩
        exact ⟨⟨plain, unmixed, fits⟩, _, (Except.ok.inj ok).symm⟩

end Check

/-! ## The documented answers -/

/-- A node without some jobs and tasks. -/
def Node.without (n : Node) (limitOf : Kind → String → Amounts) (gone : Kind → List String) : Node where
  __ := n
  reserved := n.reserved - (((n.running .job).filter (· ∈ gone .job)).map (limitOf .job)).sum -
    (((n.running .task).filter (· ∈ gone .task)).map (limitOf .task)).sum
  running kind := (n.running kind).filter (· ∉ gone kind)

/-- A manager without some jobs and tasks. -/
def Manager.without (m : Manager) (gone : Kind → List String) : Manager :=
  m.withStatus (m.systemStatus.mapVals fun _ n => n.without m.limitOf gone)

/-- A manager after some of its jobs are cancelled. -/
def Manager.cancelled (m : Manager) (jobs : List (String × String)) : Manager :=
  m.without fun
    | .job => jobs.map Prod.fst
    | .task => []

/-- `__check_invariant` returns what its documentation says: the invariant is preserved, and there may be nodes for the job,
or it is not, and there are running jobs to cancel if no job is given. -/
def Documented (m : Manager) : Option JobConf → Prop
  | none =>
    (m.RoomFor none → checkInvariant m none = .ok (.preserved none)) ∧ (¬ m.RoomFor none → ∃ cancel ⊆ m.processing .job,
        checkInvariant m none = .ok (.violated (some (cancel.map fun j => .running j.1 j.2))) ∧
          DeadlockFree (m.cancelled cancel))
  | some job =>
    (m.RoomFor (some job) → ∃ ranking, checkInvariant m (some job) = .ok (.preserved (some ranking))) ∧
      (¬ m.RoomFor (some job) → checkInvariant m (some job) = .ok (.violated none))

/-- The check answers as documented exactly when it returns and there is nothing to report. -/
theorem check_documented_iff {maxJobs poolSize : ℤ} {isAdjustPoolSize : Bool} {history : List Transition} {m : Manager}
    (run : Run Transition.Step (.init maxJobs poolSize isAdjustPoolSize) history m) (job : Option JobConf) :
    Documented m job ↔ m.CheckReturns job ∧ m.RoomFor job := by
  have books := books_of_run run
  obtain ⟨returns, answers⟩ := @check_spec m job books
  have reported {cancel : Option (List JobRef)} : checkInvariant m job ≠ .ok (.violated cancel) := by
    intro ok
    obtain ⟨-, ranking, same⟩ := answers _ ok
    cases same
  cases job with
  | none =>
    constructor
    · rintro ⟨preserved, violated⟩
      by_cases room : m.RoomFor none
      · exact ⟨(answers _ (preserved room)).1, room⟩
      · obtain ⟨cancel, -, ok, -⟩ := violated room
        exact absurd ok reported
    · rintro ⟨fine, room⟩
      refine ⟨fun _ => ?_, fun short => absurd room short⟩
      obtain ⟨ranking, same, ok⟩ := returns fine
      have absent : ranking = none := by simpa using same
      rw [ok, absent]
  | some job =>
    constructor
    · rintro ⟨preserved, violated⟩
      by_cases room : m.RoomFor (some job)
      · obtain ⟨ranking, ok⟩ := preserved room
        exact ⟨(answers _ ok).1, room⟩
      · exact absurd (violated room) reported
    · rintro ⟨fine, room⟩
      refine ⟨fun _ => ?_, fun short => absurd room short⟩
      obtain ⟨ranking, same, ok⟩ := returns fine
      obtain ⟨nodes, rfl⟩ := isSome_iff_exists.mp same
      exact ⟨nodes, ok⟩

/-- A manager that runs one job on the only node. -/
def oneJob (conf : JobConf) : Manager := (claimResources (afterUpdates [oneNode true]) conf.id (.job conf) "node").2

theorem run_oneNode : Run Transition.Step (.init 2 8 false) [.update (oneNode true)] (afterUpdates [oneNode true]) := by
  have one : Run Transition.Step (.init 2 8 false) ([] ++ [.update (oneNode true)]) _ := .snoc (.nil _) rfl
  exact one

theorem run_oneJob (conf : JobConf) : Run Transition.Step (.init 2 8 false)
    [.update (oneNode true), .call (.claim conf.id (.job conf) "node")] (oneJob conf) := by
  refine .snoc run_oneNode ⟨rfl, ?_⟩
  rintro ⟨node, n, found, mem⟩
  have idle : ∀ p ∈ (afterUpdates [oneNode true]).systemStatus.items, ∀ kind, p.2.running kind = [] := by
    decide +kernel
  rw [idle _ (Dict.mem_items_iff.mpr found)] at mem
  cases mem

/-- A job that leaves room for its tasks. -/
def modestJob : JobConf := plainJob "job" (plainLimits 3 3 3) (plainLimits 4 4 4)

/-- A job whose tasks fit nowhere. -/
def greedyJob : JobConf := plainJob "job" (plainLimits 3 3 3) (plainLimits 20 20 20)

/-- A job whose tasks need a CPU model. -/
def pickyJob : JobConf := plainJob "picky" (plainLimits 1 1 1) { plainLimits 1 1 1 with cpuModel := some "cpu" }

/-- The check answers that there is room for tasks of a job. -/
theorem check_documented_one : ∃ history, Run Transition.Step (.init 2 8 false) history (oneJob modestJob) ∧
    ((oneJob modestJob).processing .job).length = 1 ∧ Documented (oneJob modestJob) none := by
  have limits : (oneJob modestJob).limitsWith none = [plainLimits 4 4 4] := by decide +kernel
  have run := run_oneJob modestJob
  refine ⟨_, run, by decide +kernel, (check_documented_iff run none).mpr ⟨⟨?_, ?_, ?_⟩, ?_⟩⟩
  · rw [limits]
    decide
  · rw [limits]
    decide
  · have all : ∀ node ∈ (nodesRanking (withoutTasks (oneJob modestJob)) ((oneJob modestJob).largest none) .task).head?,
        ∀ n ∈ (withoutTasks (oneJob modestJob)).get? node, n.Fits ((oneJob modestJob).largest none).amounts := by
      decide +kernel
    exact fun _ node n first found => all node first n found
  · exact roomFor_none.mpr (by decide +kernel)

/-- A CPU model of tasks makes the check raise, alone or together with absent ones, and a shortage of resources is not
reported. -/
theorem check_undocumented : (∃ history, Run Transition.Step (.init 2 8 false) history (afterUpdates [oneNode true]) ∧
      ¬ Documented (afterUpdates [oneNode true]) (some pickyJob)) ∧
    (∃ history, Run Transition.Step (.init 2 8 false) history (oneJob modestJob) ∧
      ¬ Documented (oneJob modestJob) (some pickyJob)) ∧
    ∃ history, Run Transition.Step (.init 2 8 false) history (oneJob greedyJob) ∧ ¬ Documented (oneJob greedyJob) none := by
  have answers {m : Manager} {job : JobConf} (documented : Documented m (some job)) :
      (checkInvariant m (some job)).toOption.isSome = true := by
    by_cases room : m.RoomFor (some job)
    · obtain ⟨ranking, ok⟩ := documented.1 room
      rw [ok]
      rfl
    · rw [documented.2 room]
      rfl
  refine ⟨⟨_, run_oneNode, fun documented => ?_⟩, ⟨_, run_oneJob modestJob, fun documented => ?_⟩,
    ⟨_, run_oneJob greedyJob, ?_⟩⟩
  · exact absurd (answers documented) (by decide +kernel)
  · exact absurd (answers documented) (by decide +kernel)
  · rintro ⟨-, violated⟩
    have short : ¬ DeadlockFree (oneJob greedyJob) := by decide +kernel
    have ignored : checkInvariant (oneJob greedyJob) none = .ok (.preserved none) := by decide +kernel
    obtain ⟨cancel, -, ok, -⟩ := violated fun room => short (roomFor_none.mp room)
    rw [ignored] at ok
    cases ok

/-! ## Releases -/

/-- After any history, what a node lists can be released there exactly if the disk that is kept still fits. -/
theorem release_returns_iff {maxJobs poolSize : ℤ} {isAdjustPoolSize : Bool} {history : List Transition} {m : Manager}
    (run : Run Transition.Step (.init maxJobs poolSize isAdjustPoolSize) history m) {node id : String} {n : Node}
    {kind : Kind} (found : m.systemStatus.get? node = some n) (listed : id ∈ n.running kind) (keepDisk : ℕ) :
    (∃ m', releaseResources m id node kind keepDisk = (.ok (), m')) ↔
      (n.left (m.limitOf kind id) kind id).Keeps keepDisk := by
  have books := books_of_run run
  obtain ⟨conf, stored⟩ := books.stored found listed
  have limit : m.limitOf kind id = conf.limits.amounts := by
    rw [Manager.limitOf, stored]
    rfl
  simp only [release_ok_iff, stored, found]
  constructor
  · rintro ⟨m', conf, n, is, is', -, -, keeps, -⟩
    cases is
    cases is'
    rwa [limit]
  · intro keeps
    exact ⟨_, conf, n, rfl, rfl, listed, limit ▸ books.limitOf_le found listed, limit ▸ keeps, rfl⟩

/-- All of the disk is kept. -/
theorem release_returns_one : ∃ m, releaseResources (oneJob modestJob) "job" "node" .job 10 = (.ok (), m) := by
  have found := (some_get (x := (oneJob modestJob).systemStatus.get? "node") (by decide +kernel)).symm
  exact (release_returns_iff (run_oneJob modestJob) found (by decide +kernel) 10).mpr (by decide +kernel)

end Klever.Scheduler
