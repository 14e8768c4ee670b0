import Klever.Scheduler.Accounting
import Klever.Scheduler.Invariant

/-!
# Choosing what to start

`ResourceManager.schedule`: pending jobs and tasks are picked, highest priority first, against one
copy of the system status in which everything picked is reserved at once. Jobs above the running
priorities come first, then tasks, then the jobs that are not below the running priorities.

`Round.Sound` links the copy with the sum of what has been picked; each pick keeps it. So whatever is
returned can be claimed, and, since claims one after another ask only for the total load of each
node, in any order (`schedule_claimable`).
-/

namespace Klever.Scheduler

open Klever.Lib List Option

/-! ## The model -/

/-- A pending task, as the scheduler tracks it. -/
structure PendingTask where
  id : String
  description : TaskDescription
  deriving DecidableEq

/-- The state of one call of `schedule`: the manager, the copy of its status and what is picked. -/
structure Round where
  manager : Manager
  status : Status
  jobsToRun : List (JobConf × String)
  tasksToRun : List (PendingTask × String)

/-- `__schedule_job`: the first suitable node that the deadlock check ranks too. -/
def scheduleJob (m : Manager) (job : JobConf) (status : Status) : Except Exn (Option String) :=
  match nodesRanking status job.configuration.resourceLimits .job with
  | [] => .ok none
  | nodes => do
    match ← checkInvariant m (some job) with
    | .preserved (some ranking) => .ok (nodes.filter (· ∈ ranking)).head?
    | .preserved none => .error (.typeError "argument of type 'NoneType' is not iterable")
    | .violated _ => .ok none

/-- `__schedule_task`: the first suitable node. It is ranked as for a job, by the default of
`__nodes_ranking`. -/
def scheduleTask (task : PendingTask) (status : Status) : Option String :=
  (nodesRanking status task.description.resourceLimits .job).head?

/-- The body of the loop over jobs. An empty node name counts as no node. -/
def tryJob (R : Round) (candidate : JobConf) : Except Exn Round :=
  if candidate ∈ R.jobsToRun.map Prod.fst then .ok R
  else do
    match ← scheduleJob R.manager candidate R.status with
    | none => .ok R
    | some node =>
      if node = "" then .ok R
      else do
        let status ←
          copied (reserveResources R.status candidate.configuration.resourceLimits node)
        .ok { R with status := status, jobsToRun := R.jobsToRun ++ [(candidate, node)] }

/-- The body of the loop over tasks. -/
def tryTask (R : Round) (task : PendingTask) : Except Exn Round :=
  match scheduleTask task R.status with
  | none => .ok R
  | some node =>
    if node = "" then .ok R
    else do
      let status ← copied (reserveResources R.status task.description.resourceLimits node)
      .ok { R with status := status, tasksToRun := R.tasksToRun ++ [(task, node)] }

/-- Both loops: go on while there is room and there are candidates. -/
def pickLoop {α : Type} (room : Round → Bool) (pick : Round → α → Except Exn Round) :
    List α → Round → Except Exn Round
  | [], R => .ok R
  | a :: as, R => if room R then do pickLoop room pick as (← pick R a) else .ok R

/-- Room for one more job. -/
def roomForJob (R : Round) : Bool :=
  ((R.manager.processing .job).length : ℤ) + R.jobsToRun.length < R.manager.maxRunningJobs

/-- The pool limit, less the cores of the workers if the pool size is adjusted. -/
def poolLimit (m : Manager) (workers : ℤ) : ℤ :=
  if m.isAdjustPoolSize then m.maxTasks - workers else m.maxTasks

/-- Room for one more task. -/
def roomForTask (workers : ℤ) (R : Round) : Bool :=
  ¬ ((R.manager.processing .task).length : ℤ) + R.tasksToRun.length ≥ poolLimit R.manager workers

/-- `schedule_jobs`; `pop` takes the jobs from the end of the list. -/
def scheduleJobs (jobs : List JobConf) : Round → Except Exn Round :=
  pickLoop roomForJob tryJob jobs.reverse

/-- The loop over the pending tasks, from the end of the list. -/
def scheduleTasks (workers : ℤ) (tasks : List PendingTask) : Round → Except Exn Round :=
  pickLoop (roomForTask workers) tryTask tasks.reverse

/-- The highest priority among running jobs, at least the given one. -/
def highestPriority (m : Manager) : List (String × String) → Priority → Except Exn Priority
  | [], highest => .ok highest
  | (job, _) :: rest, highest =>
    match m.jobsConfig.get? job with
    | none => .error (.keyError job)
    | some conf =>
      highestPriority m rest
        (if higherPriority conf.configuration.priority highest true then conf.configuration.priority else highest)

/-- The pending jobs above, or not below, a priority. -/
def jobsAbove (highest : Priority) (strictly : Bool) (jobs : List JobConf) : List JobConf :=
  jobs.filter fun j => higherPriority j.configuration.priority highest strictly

/-- `schedule`, with the cores that `get_workers_cpu_cores` answers during the call. -/
def schedule (m : Manager) (workers : ℤ) (pendingTasks : List PendingTask)
    (pendingJobs : List JobConf) : Except Exn Round := do
  let status ← createSystemStatus m false false []
  let highest ← highestPriority m (m.processing .job) .idle
  let R ← scheduleJobs (jobsAbove highest true pendingJobs) ⟨m, status, [], []⟩
  let R ← scheduleTasks workers pendingTasks R
  scheduleJobs (jobsAbove highest false pendingJobs) R

/-! ## One pick -/

variable {node : String}

/-- What a reservation in a copy does. -/
theorem copied_reserve_ok {status status' : Status} {limits : Limits}
    (ok : copied (reserveResources status limits node) = .ok status') :
    ∃ n, status.get? node = some n ∧ n.Fits limits.amounts ∧
      status' = status.set node (n.withReserved (n.reserved + limits.amounts)) := by
  rcases reserved : reserveResources status limits node with ⟨_ | ⟨⟩, st⟩
  · rw [reserved] at ok
    cases ok
  · rw [reserved] at ok
    cases ok
    exact reserveResources_ok_iff.mp reserved

/-- A job is passed over, or it is reserved in the copy and picked. -/
theorem tryJob_ok {R R' : Round} {candidate : JobConf} (ok : tryJob R candidate = .ok R') :
    R' = R ∨ candidate ∉ R.jobsToRun.map Prod.fst ∧ ∃ node status,
      scheduleJob R.manager candidate R.status = .ok (some node) ∧
      copied (reserveResources R.status candidate.configuration.resourceLimits node) = .ok status ∧
      R' = { R with status := status, jobsToRun := R.jobsToRun ++ [(candidate, node)] } := by
  unfold tryJob at ok
  split at ok
  next => exact .inl (Except.ok.inj ok).symm
  next fresh =>
    obtain ⟨answer, scheduled, ok⟩ := bind_eq_ok_iff.mp ok
    cases answer with
    | none => exact .inl (Except.ok.inj ok).symm
    | some node =>
      simp only at ok
      split at ok
      next => exact .inl (Except.ok.inj ok).symm
      next =>
        obtain ⟨status, reserved, ok⟩ := bind_eq_ok_iff.mp ok
        exact .inr ⟨fresh, node, status, scheduled, reserved, (Except.ok.inj ok).symm⟩

/-- A task is passed over, or it is reserved in the copy and picked. -/
theorem tryTask_ok {R R' : Round} {task : PendingTask} (ok : tryTask R task = .ok R') :
    R' = R ∨ ∃ node status, scheduleTask task R.status = some node ∧
      copied (reserveResources R.status task.description.resourceLimits node) = .ok status ∧
      R' = { R with status := status, tasksToRun := R.tasksToRun ++ [(task, node)] } := by
  unfold tryTask at ok
  split at ok
  next => exact .inl (Except.ok.inj ok).symm
  next node scheduled =>
    split at ok
    next => exact .inl (Except.ok.inj ok).symm
    next =>
      obtain ⟨status, reserved, ok⟩ := bind_eq_ok_iff.mp ok
      exact .inr ⟨node, status, scheduled, reserved, (Except.ok.inj ok).symm⟩

/-- The invariant rule of the loops. The invariant may speak of the candidates still to come. -/
theorem pickLoop_invariant {α : Type} {room : Round → Bool}
    {pick : Round → α → Except Exn Round} {P : List α → Round → Prop}
    (step : ∀ {a as R R'}, P (a :: as) R → room R = true → pick R a = .ok R' → P as R')
    (stop : ∀ {as R}, P as R → P [] R) {as : List α} {R R' : Round} (start : P as R)
    (ok : pickLoop room pick as R = .ok R') : P [] R' := by
  induction as generalizing R with
  | nil =>
    cases ok
    exact start
  | cons a as ih =>
    unfold pickLoop at ok
    split at ok
    next more =>
      obtain ⟨R₁, picked, ok⟩ := bind_eq_ok_iff.mp ok
      exact ih (step start more picked) ok
    next =>
      cases ok
      exact stop start

/-! ## Claims one after another -/

/-- Claims of several jobs and tasks; the first error ends them. -/
def claimAll : Manager → List Entry → Except Exn Unit × Manager
  | m, [] => (.ok (), m)
  | m, e :: es =>
    match claimResources m e.identifier e.conf e.node with
    | (.ok (), m') => claimAll m' es
    | (.error err, m') => (.error err, m')

variable {m : Manager} {es : List Entry}

theorem claimAll_cons_ok {m' : Manager} {e : Entry} : claimAll m (e :: es) = (.ok (), m') ↔
      ∃ m₁, claimResources m e.identifier e.conf e.node = (.ok (), m₁) ∧ claimAll m₁ es = (.ok (), m') := by
  rw [claimAll]
  rcases claimResources m e.identifier e.conf e.node with ⟨err | ⟨⟩, m₁⟩
  · exact ⟨nofun, fun ⟨_, failed, _⟩ => nomatch failed⟩
  · exact ⟨fun rest => ⟨m₁, rfl, rest⟩, fun ⟨_, same, rest⟩ => by cases same; exact rest⟩

namespace Manager

/-- What a node has; nothing if it is not known. -/
def capacity (m : Manager) (node : String) : Amounts :=
  ((m.systemStatus.get? node).map Node.available).getD 0

/-- What a node has reserved. -/
def used (m : Manager) (node : String) : Amounts :=
  ((m.systemStatus.get? node).map Node.reserved).getD 0

theorem capacity_of_get? {n : Node} (found : m.systemStatus.get? node = some n) : m.capacity node = n.available := by
  rw [capacity, found, map_some, getD_some]

theorem used_of_get? {n : Node} (found : m.systemStatus.get? node = some n) : m.used node = n.reserved := by
  rw [used, found, map_some, getD_some]

end Manager

/-- What a claim does to the capacities, the reserved amounts and the set of known nodes. -/
theorem claim_frame {m' : Manager} {identifier : String} {conf : Conf}
    (ok : claimResources m identifier conf node = (.ok (), m')) :
    m'.capacity = m.capacity ∧ m'.used = Function.update m.used node (m.used node + conf.limits.amounts) ∧
      ∀ x, (∃ n, m'.systemStatus.get? x = some n) ↔ ∃ n, m.systemStatus.get? x = some n := by
  obtain ⟨n, found, -, rfl⟩ := claim_ok_iff.mp ok
  refine ⟨funext fun x => ?_, funext fun x => ?_, fun x => ?_⟩
  · rw [Manager.capacity, Manager.withStatus_systemStatus, Dict.get?_set]
    split
    next here => rw [here, Manager.capacity_of_get? found]; rfl
    next => rfl
  · rw [Manager.used, Manager.withStatus_systemStatus, Dict.get?_set, Function.update_apply]
    split
    next => rw [Manager.used_of_get? found]; rfl
    next => rfl
  · rw [Manager.withStatus_systemStatus, Dict.get?_set]
    split
    next here => simp [here, found]
    next => rfl

/-- A known node accepts a claim that fits on what it has reserved. -/
theorem accepts_iff {conf : Conf} : m.Accepts conf node ↔ (∃ n, m.systemStatus.get? node = some n) ∧
      m.used node + conf.limits.amounts ≤ m.capacity node := by
  constructor
  · rintro ⟨n, found, fits⟩
    rw [Manager.used_of_get? found, Manager.capacity_of_get? found]
    exact ⟨⟨n, found⟩, fits⟩
  · rintro ⟨⟨n, found⟩, fits⟩
    rw [Manager.used_of_get? found, Manager.capacity_of_get? found] at fits
    exact ⟨n, found, fits⟩

/-- Claims one after another go through when all nodes are known and each booking fits on top of the
earlier ones. -/
theorem claimAll_ok_iff : (∃ m', claimAll m es = (.ok (), m')) ↔
      (∀ e ∈ es, ∃ n, m.systemStatus.get? e.node = some n) ∧ Admits m.capacity m.used (es.map Entry.booking) := by
  induction es generalizing m with
  | nil => simp [claimAll, Admits]
  | cons e es ih =>
    simp only [claimAll_cons_ok, forall_mem_cons, map_cons, Admits, Entry.booking]
    constructor
    · rintro ⟨m', m₁, claimed, rest⟩
      obtain ⟨n, found, fits, -⟩ := claim_ok_iff.mp claimed
      obtain ⟨known, fits⟩ := accepts_iff.mp ⟨n, found, fits⟩
      obtain ⟨capacity, used, nodes⟩ := claim_frame claimed
      have later := ih.mp ⟨m', rest⟩
      simp only [capacity, used, nodes] at later
      exact ⟨⟨known, later.1⟩, fits, later.2⟩
    · rintro ⟨⟨known, later⟩, fits, admitted⟩
      obtain ⟨n, found, fits⟩ := accepts_iff.mpr ⟨known, fits⟩
      obtain ⟨m₁, claimed⟩ : ∃ m₁, claimResources m e.identifier e.conf e.node = (.ok (), m₁) :=
        ⟨_, claim_ok_iff.mpr ⟨n, found, fits, rfl⟩⟩
      obtain ⟨capacity, used, nodes⟩ := claim_frame claimed
      have rest := @ih m₁
      simp only [capacity, used, nodes] at rest
      obtain ⟨m', rest⟩ := rest.mpr ⟨later, admitted⟩
      exact ⟨m', m₁, claimed, rest⟩

/-! ## The copy and what is picked -/

namespace Round

/-- The picked jobs, as claims. -/
def jobStarts (R : Round) : List Entry := R.jobsToRun.map fun p => ⟨p.1.id, .job p.1, p.2⟩

/-- What is picked, as claims. -/
def starts (R : Round) : List Entry :=
  R.jobStarts ++ R.tasksToRun.map fun p => ⟨p.1.id, .task p.1.description, p.2⟩

/-- What is picked loads on a node. -/
def load (R : Round) (node : String) : Amounts := Lib.load (R.starts.map Entry.booking) node

/-- The copy reserves, on top of the manager's own status, exactly what is picked, and all of it
fits. -/
structure Sound (m : Manager) (R : Round) : Prop where
  manager : R.manager = m
  status : ∀ node n', R.status.get? node = some n' → ∃ n, m.systemStatus.get? node = some n ∧
    n'.reserved = n.reserved + R.load node ∧ n'.available = n.available
  fits : ∀ e ∈ R.starts, ∃ n, m.systemStatus.get? e.node = some n ∧ n.reserved + R.load e.node ≤ n.available

/-- A reservation in the copy for one more pick. -/
theorem Sound.pick {R R' : Round} (h : R.Sound m) {e : Entry}
    (manager : R'.manager = R.manager) (starts : R'.starts.Perm (e :: R.starts))
    (reserved : copied (reserveResources R.status e.conf.limits e.node) = .ok R'.status) :
    R'.Sound m := by
  have grown : ∀ node, R'.load node =
      (if e.node = node then e.conf.limits.amounts else 0) + R.load node := fun node => by
    rw [load, load_perm (starts.map Entry.booking), map_cons, load_cons]
    rfl
  obtain ⟨n', found', fits', same⟩ := copied_reserve_ok reserved
  obtain ⟨n, found, reserved_eq, available_eq⟩ := h.status e.node n' found'
  have room : n.reserved + R'.load e.node ≤ n.available := by
    rw [grown, if_pos rfl, ← available_eq]
    calc n.reserved + (e.conf.limits.amounts + R.load e.node)
        = n'.reserved + e.conf.limits.amounts := by rw [reserved_eq]; abel
      _ ≤ n'.available := fits'
  refine ⟨manager.trans h.manager, ?_, fun f mem => ?_⟩
  · rw [same]
    refine Dict.forall_set ⟨n, found, ?_, available_eq⟩ fun node x differs foundx => ?_
    · rw [Node.withReserved_reserved, grown, if_pos rfl, reserved_eq]
      abel
    · rw [grown, if_neg differs.symm, zero_add]
      exact h.status node x foundx
  · by_cases here : f.node = e.node
    · rw [here]
      exact ⟨n, found, room⟩
    · rcases mem_cons.mp (starts.mem_iff.mp mem) with rfl | mem
      · exact absurd rfl here
      · rw [grown, if_neg (Ne.symm here), zero_add]
        exact h.fits f mem

/-- What is picked can be claimed in any order. -/
theorem Sound.claimable {R : Round} (h : R.Sound m)
    (order : es.Perm R.starts) : ∃ m', claimAll m es = (.ok (), m') := by
  have nonneg : ∀ b ∈ R.starts.map Entry.booking, (0 : Amounts) ≤ b.2 := by
    intro b hb
    obtain ⟨e, -, rfl⟩ := List.mem_map.mp hb
    exact e.conf.limits.nonneg
  refine claimAll_ok_iff.mpr ⟨fun e mem => ?_, ?_⟩
  · obtain ⟨n, found, -⟩ := h.fits e (order.mem_iff.mp mem)
    exact ⟨n, found⟩
  · refine Admits.perm ?_ (order.symm.map Entry.booking) nonneg
    rw [admits_iff nonneg]
    refine List.forall_mem_map.mpr fun e mem => ?_
    obtain ⟨n, found, room⟩ := h.fits e mem
    have capacity := Manager.capacity_of_get? found
    have used := Manager.used_of_get? found
    simp only [Entry.booking, capacity, used]
    exact room

end Round

/-! ## The whole call -/

/-- What holds of a round at every point of a call: the copy is sound, the picked jobs are different
pending ones that are not below the given priority, and no limit on the numbers is overrun. -/
structure Round.Legal (m : Manager) (workers : ℤ) (pendingJobs : List JobConf) (highest : Priority)
    (R : Round) : Prop where
  sound : R.Sound m
  jobs : ∀ p ∈ R.jobsToRun, p.1 ∈ pendingJobs ∧ sortPriority highest ≤ sortPriority p.1.configuration.priority
  distinct : (R.jobsToRun.map Prod.fst).Nodup
  jobCount : ((m.processing .job).length : ℤ) + R.jobsToRun.length ≤
    max ((m.processing .job).length : ℤ) m.maxRunningJobs
  taskCount : ((m.processing .task).length : ℤ) + R.tasksToRun.length ≤
    max ((m.processing .task).length : ℤ) (poolLimit m workers)

variable {workers : ℤ} {pendingJobs : List JobConf} {highest : Priority} {R R' : Round}

section Legal

variable (h : R.Legal m workers pendingJobs highest)

include h

/-- One more job keeps the round legal. -/
theorem tryJob_legal {candidate : JobConf} (pending : candidate ∈ pendingJobs)
    (high : sortPriority highest ≤ sortPriority candidate.configuration.priority)
    (more : roomForJob R = true) (ok : tryJob R candidate = .ok R') :
    R'.Legal m workers pendingJobs highest ∧ R'.tasksToRun = R.tasksToRun := by
  rcases tryJob_ok ok with rfl | ⟨fresh, node, status, -, reserved, rfl⟩
  · exact ⟨h, rfl⟩
  · refine ⟨⟨?_, ?_, ?_, ?_, h.taskCount⟩, rfl⟩
    · refine h.sound.pick (e := ⟨candidate.id, .job candidate, node⟩) rfl ?_ reserved
      simp only [Round.starts, Round.jobStarts, map_append, map_singleton, append_assoc, singleton_append]
      exact perm_middle
    · exact forall_mem_append.mpr ⟨h.jobs, forall_mem_singleton.mpr ⟨pending, high⟩⟩
    · simp only [map_append, map_singleton]
      exact nodup_append.mpr ⟨h.distinct, nodup_singleton _, fun a ha b hb same =>
        fresh (mem_singleton.mp hb ▸ same ▸ ha)⟩
    · simp only [roomForJob, h.sound.manager, decide_eq_true_eq] at more
      simp only [length_append, length_singleton]
      push_cast
      omega

/-- One more task keeps the round legal. -/
theorem tryTask_legal {task : PendingTask} (more : roomForTask workers R = true) (ok : tryTask R task = .ok R') :
    R'.Legal m workers pendingJobs highest ∧ (R' = R ∨ ∃ node, R'.tasksToRun = R.tasksToRun ++ [(task, node)]) := by
  rcases tryTask_ok ok with rfl | ⟨node, status, -, reserved, rfl⟩
  · exact ⟨h, .inl rfl⟩
  · refine ⟨⟨?_, h.jobs, h.distinct, h.jobCount, ?_⟩, .inr ⟨node, rfl⟩⟩
    · refine h.sound.pick (e := ⟨task.id, .task task.description, node⟩) rfl ?_ reserved
      simp only [Round.starts, map_append, map_singleton, ← append_assoc]
      exact perm_append_singleton _ _
    · simp only [roomForTask, h.sound.manager, not_le, ge_iff_le, decide_eq_true_eq] at more
      simp only [length_append, length_singleton]
      push_cast
      omega

/-- The loop over jobs keeps the round legal and the tasks as they are. -/
theorem scheduleJobs_legal {strictly : Bool} (ok : scheduleJobs (jobsAbove highest strictly pendingJobs) R = .ok R') :
    R'.Legal m workers pendingJobs highest ∧ R'.tasksToRun = R.tasksToRun := by
  have kept := pickLoop_invariant
    (P := fun jobs S => jobs ⊆ jobsAbove highest strictly pendingJobs ∧
      S.Legal m workers pendingJobs highest ∧ S.tasksToRun = R.tasksToRun)
    (fun {job jobs S S'} before more picked => by
      obtain ⟨pending, legal, tasks⟩ := before
      obtain ⟨mem, above⟩ := mem_filter.mp (pending mem_cons_self)
      have high : sortPriority highest ≤ sortPriority job.configuration.priority := by
        unfold higherPriority at above
        split at above <;> simp only [decide_eq_true_eq] at above <;> omega
      obtain ⟨legal, same⟩ := tryJob_legal legal mem high more picked
      exact ⟨fun j hj => pending (mem_cons_of_mem _ hj), legal, same.trans tasks⟩)
    (fun before => ⟨nil_subset _, before.2⟩)
    ⟨fun j hj => mem_reverse.mp hj, h, rfl⟩ ok
  exact kept.2

/-- The loop over tasks keeps the round legal and picks from the pending tasks in their order. -/
theorem scheduleTasks_legal {tasks : List PendingTask} (none_picked : R.tasksToRun = [])
    (ok : scheduleTasks workers tasks R = .ok R') :
    R'.Legal m workers pendingJobs highest ∧ (R'.tasksToRun.map Prod.fst).Sublist tasks.reverse := by
  have kept := pickLoop_invariant
    (P := fun rest S => S.Legal m workers pendingJobs highest ∧
      (S.tasksToRun.map Prod.fst ++ rest).Sublist tasks.reverse)
    (fun {task rest S S'} before more picked => by
      obtain ⟨legal, sublist⟩ := before
      obtain ⟨legal, rfl | ⟨node, grown⟩⟩ := tryTask_legal legal more picked
      · exact ⟨legal, (Sublist.append_left (sublist_cons_self _ _) _).trans sublist⟩
      · refine ⟨legal, ?_⟩
        rw [grown, map_append, append_assoc]
        exact sublist)
    (fun before => ⟨before.1, by
      rw [append_nil]
      exact (sublist_append_left _ _).trans before.2⟩)
    ⟨h, by rw [none_picked]; exact Sublist.refl _⟩ ok
  exact ⟨kept.1, by simpa using kept.2⟩

end Legal

/-- The highest priority is at least that of each running job. -/
theorem highestPriority_ok {running : List (String × String)} {start : Priority}
    (ok : highestPriority m running start = .ok highest) :
    sortPriority start ≤ sortPriority highest ∧ ∀ p ∈ running, ∀ conf, m.jobsConfig.get? p.1 = some conf →
        sortPriority conf.configuration.priority ≤ sortPriority highest := by
  induction running generalizing start with
  | nil =>
    cases ok
    exact ⟨le_refl _, nofun⟩
  | cons p running ih =>
    simp only [highestPriority] at ok
    cases found : m.jobsConfig.get? p.1 with
    | none =>
      rw [found] at ok
      cases ok
    | some conf =>
      rw [found] at ok
      obtain ⟨above, rest⟩ := ih ok
      have both : sortPriority start ≤ sortPriority highest ∧
          sortPriority conf.configuration.priority ≤ sortPriority highest := by
        split at above
        next higher =>
          have : sortPriority start < sortPriority conf.configuration.priority := by
            simpa [higherPriority] using higher
          exact ⟨by omega, above⟩
        next lower =>
          have : sortPriority conf.configuration.priority ≤ sortPriority start := by
            simpa [higherPriority] using lower
          exact ⟨above, by omega⟩
      refine ⟨both.1, forall_mem_cons.mpr ⟨fun c hc => ?_, rest⟩⟩
      rw [found, some.injEq] at hc
      exact hc ▸ both.2

/-- A call that returns ends in a legal round, for a priority that no running job exceeds. -/
theorem schedule_legal {tasks : List PendingTask} (ok : schedule m workers tasks pendingJobs = .ok R) :
    ∃ highest, R.Legal m workers pendingJobs highest ∧ (R.tasksToRun.map Prod.fst).Sublist tasks.reverse ∧
      highestPriority m (m.processing .job) .idle = .ok highest := by
  simp only [schedule, bind_eq_ok_iff] at ok
  obtain ⟨status, created, highest, found, R₁, first, R₂, second, third⟩ := ok
  cases created
  have empty : Round.Legal m workers pendingJobs highest ⟨m, m.systemStatus, [], []⟩ := by
    refine ⟨⟨rfl, fun node n foundn => ⟨n, foundn, ?_, rfl⟩, nofun⟩, nofun, nodup_nil, ?_, ?_⟩
    · rw [Round.load, Round.starts, Round.jobStarts, map_nil, map_nil, append_nil, map_nil, load_nil, add_zero]
    · simp
    · simp
  obtain ⟨legal₁, same₁⟩ := scheduleJobs_legal empty first
  obtain ⟨legal₂, sublist⟩ := scheduleTasks_legal legal₁ same₁ second
  obtain ⟨legal₃, same₃⟩ := scheduleJobs_legal legal₂ third
  exact ⟨highest, legal₃, same₃ ▸ sublist, found⟩

/-- Whatever `schedule` returns can be started together. All picked jobs and tasks can be claimed, one
after another in any order, without an error; none is picked twice; the limits on the numbers of
running jobs and tasks are kept; no picked job is below a running one; and the manager's own status
is as it was. -/
theorem schedule_claimable {m : Manager} {workers : ℤ} {tasks : List PendingTask}
    {jobs : List JobConf} {R : Round} (taskIds : (tasks.map PendingTask.id).Nodup)
    (jobIds : (jobs.map JobConf.id).Nodup) (ok : schedule m workers tasks jobs = .ok R) :
    (∀ order : List Entry, order.Perm R.starts → ∃ m', claimAll m order = (.ok (), m')) ∧
      ((∀ p ∈ R.tasksToRun, p.1 ∈ tasks) ∧ (R.tasksToRun.map fun p => p.1.id).Nodup) ∧
      ((∀ p ∈ R.jobsToRun, p.1 ∈ jobs) ∧ (R.jobsToRun.map fun p => p.1.id).Nodup) ∧
      ((m.processing .job).length : ℤ) + R.jobsToRun.length ≤ max ((m.processing .job).length : ℤ) m.maxRunningJobs ∧
      ((m.processing .task).length : ℤ) + R.tasksToRun.length ≤
        max ((m.processing .task).length : ℤ) (poolLimit m workers) ∧
      (∀ p ∈ R.jobsToRun, ∀ running ∈ m.processing .job, ∀ conf, m.jobsConfig.get? running.1 = some conf →
          sortPriority conf.configuration.priority ≤ sortPriority p.1.configuration.priority) ∧
      R.manager.systemStatus = m.systemStatus := by
  obtain ⟨highest, legal, sublist, found⟩ := schedule_legal ok
  have fromTasks : ∀ t ∈ R.tasksToRun.map Prod.fst, t ∈ tasks := fun t ht =>
    mem_reverse.mp (sublist.subset ht)
  refine ⟨fun order perm => legal.sound.claimable perm, ⟨?_, ?_⟩, ⟨fun p mem => (legal.jobs p mem).1, ?_⟩,
    legal.jobCount, legal.taskCount, ?_, by rw [legal.sound.manager]⟩
  · exact fun p mem => fromTasks p.1 (List.mem_map_of_mem mem)
  · have ids : (tasks.reverse.map PendingTask.id).Nodup := by
      rw [map_reverse]
      exact nodup_reverse.mpr taskIds
    have : ((R.tasksToRun.map Prod.fst).map PendingTask.id).Nodup := (sublist.map _).nodup ids
    rwa [List.map_map] at this
  · have : ((R.jobsToRun.map Prod.fst).map JobConf.id).Nodup := by
      refine Nodup.map_on (fun j hj k hk same => ?_) legal.distinct
      obtain ⟨p, hp, rfl⟩ := List.mem_map.mp hj
      obtain ⟨q, hq, rfl⟩ := List.mem_map.mp hk
      exact inj_on_of_nodup_map jobIds (legal.jobs p hp).1 (legal.jobs q hq).1 same
    rwa [List.map_map] at this
  · intro p mem running hr conf stored
    exact le_trans ((highestPriority_ok found).2 running hr conf stored) (legal.jobs p mem).2

/-- A job of a given size whose tasks may be as large as given. -/
def plainJob (identifier : String) (limits taskLimits : Limits) : JobConf :=
  ⟨identifier, none, ⟨.low, limits, taskLimits, .klever⟩⟩

/-- On the small manager a job and a task are picked and can be claimed. -/
theorem schedule_claimable_small : ∃ R m', schedule smallManager 0 [⟨"task", ⟨"job", .low, plainLimits 1 1 1⟩⟩]
        [plainJob "job" (plainLimits 1 1 1) (plainLimits 1 1 1)] = .ok R ∧
      R.starts.length = 2 ∧ claimAll smallManager R.starts = (.ok (), m') := by
  have scheduled : ∃ R, schedule smallManager 0 [⟨"task", ⟨"job", .low, plainLimits 1 1 1⟩⟩]
      [plainJob "job" (plainLimits 1 1 1) (plainLimits 1 1 1)] = .ok R ∧ R.starts.length = 2 :=
    ⟨_, rfl, rfl⟩
  obtain ⟨R, ok, two⟩ := scheduled
  obtain ⟨m', claimed⟩ :=
    (schedule_claimable (by decide) (by decide) ok).1 R.starts (Perm.refl _)
  exact ⟨R, m', ok, two, claimed⟩

end Klever.Scheduler
