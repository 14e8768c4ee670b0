import Klever.Scheduler.Schedule
import Klever.Scheduler.Update

/-!
# Are chosen nodes suitable?

A job or a task should get a node that is connected, accepts jobs or tasks, has the required CPU model and enough free
resources, less what is picked before in the same call of `schedule`. CPU models and amounts are always checked. But nodes
that are disconnected stay in the table with their flags, and the ranking for a task asks whether a node is available for
jobs, by the default of the last parameter of `__nodes_ranking`. `schedule_suited` says which updates do no harm: those where
every node that is available for jobs is listed and is available for tasks too.
-/

namespace Klever.Scheduler

open Klever.Lib List Option

/-- What a node must have to be chosen. -/
structure Node.Suits (n : Node) (limits : Limits) (kind : Kind) : Prop where
  connected : n.status ≠ .disconnected
  accepts : n.accepts kind = true
  model : truthy limits.cpuModel = true → limits.cpuModel = some n.cpuModel
  free : ∀ r, limits.amounts r ≤ freeResources n r

/-- A node suits with what jobs and tasks picked before take there. -/
def Manager.Hosts (m : Manager) (jobs : List (JobConf × String)) (tasks : List (PendingTask × String)) (limits : Limits)
    (kind : Kind) (node : String) : Prop :=
  ∃ n, m.systemStatus.get? node = some n ∧
    (n.withReserved (n.reserved + (Round.mk m m.systemStatus jobs tasks).load node)).Suits limits kind

/-- Each job and each task gets a node that suits at the moment of selection. -/
structure Round.Suited (m : Manager) (R : Round) : Prop where
  jobs : ∀ jobs p, jobs ++ [p] <+: R.jobsToRun →
    ∃ tasks, tasks <+: R.tasksToRun ∧ m.Hosts jobs tasks p.1.configuration.resourceLimits .job p.2
  tasks : ∀ tasks p, tasks ++ [p] <+: R.tasksToRun →
    ∃ jobs, jobs <+: R.jobsToRun ∧ m.Hosts jobs tasks p.1.description.resourceLimits .task p.2

/-! ## One pick -/

/-- Nodes that are available for jobs are connected and are available for tasks. -/
def Manager.Clear (m : Manager) : Prop :=
  ∀ node n, m.systemStatus.get? node = some n → n.availableForJobs = true →
    n.status ≠ .disconnected ∧ n.availableForTasks = true

/-- The copy of the status differs from the status of the manager by reservations for what is picked. -/
structure Round.Copies (m : Manager) (R : Round) : Prop where
  manager : R.manager = m
  status : ∀ node, R.status.get? node =
    (m.systemStatus.get? node).map fun n => n.withReserved (n.reserved + R.load node)

variable {node : String}

namespace Round

variable {m : Manager} {R R' : Round}

theorem load_pick {e : Entry} (starts : R'.starts.Perm (e :: R.starts)) (node : String) :
    R'.load node = R.load node + if e.node = node then e.conf.limits.amounts else 0 := by
  rw [load, load_perm (starts.map Entry.booking), map_cons, load_cons, add_comm]
  rfl

/-- A reservation for one more pick. -/
theorem Copies.pick (copies : R.Copies m) {e : Entry} (manager : R'.manager = R.manager)
    (starts : R'.starts.Perm (e :: R.starts))
    (reserved : copied (reserveResources R.status e.conf.limits e.node) = .ok R'.status) : R'.Copies m where
  manager := manager.trans copies.manager
  status node := by
    obtain ⟨n', found, -, same⟩ := copied_reserve_ok reserved
    rw [same, Dict.get?_set, load_pick starts]
    split
    next here =>
      subst here
      rw [copies.status] at found
      obtain ⟨n, is, rfl⟩ := map_eq_some_iff.mp found
      rw [is, if_pos rfl, map_some, Node.withReserved_withReserved, Node.withReserved_reserved, add_assoc]
    next differs => rw [copies.status, if_neg fun same => differs same.symm, add_zero]

/-- A node of the ranking for jobs is suitable for both, if flags are clear. -/
theorem Copies.suits (copies : R.Copies m) (clear : m.Clear) {limits : Limits}
    (ranked : node ∈ nodesRanking R.status limits .job) (kind : Kind) :
    m.Hosts R.jobsToRun R.tasksToRun limits kind node := by
  obtain ⟨n', found, fulfills⟩ := mem_nodesRanking.mp ranked
  rw [copies.status] at found
  obtain ⟨n, is, rfl⟩ := map_eq_some_iff.mp found
  obtain ⟨forJobs, -, model, free⟩ := fulfillRequirement_iff.mp fulfills
  have accepted : n.availableForJobs = true := forJobs rfl
  obtain ⟨connected, forTasks⟩ := clear node n is accepted
  refine ⟨n, is, connected, ?_, model, free⟩
  cases kind with
  | job => exact accepted
  | task => exact forTasks

/-- One more job. -/
theorem Suited.job (suited : R.Suited m) {p : JobConf × String} (jobs : R'.jobsToRun = R.jobsToRun ++ [p])
    (tasks : R'.tasksToRun = R.tasksToRun)
    (hosts : m.Hosts R.jobsToRun R.tasksToRun p.1.configuration.resourceLimits .job p.2) : R'.Suited m where
  jobs earlier q before := by
    rw [jobs, prefix_concat_iff] at before
    obtain same | before := before
    · obtain ⟨rfl, one⟩ := append_inj' same rfl
      obtain rfl := singleton_inj.mp one
      exact ⟨R.tasksToRun, tasks ▸ prefix_rfl, hosts⟩
    · rw [tasks]
      exact suited.jobs earlier q before
  tasks earlier q before := by
    rw [tasks] at before
    obtain ⟨others, within, hosts⟩ := suited.tasks earlier q before
    exact ⟨others, jobs ▸ within.trans (prefix_append _ _), hosts⟩

/-- One more task. -/
theorem Suited.task (suited : R.Suited m) {p : PendingTask × String} (jobs : R'.jobsToRun = R.jobsToRun)
    (tasks : R'.tasksToRun = R.tasksToRun ++ [p])
    (hosts : m.Hosts R.jobsToRun R.tasksToRun p.1.description.resourceLimits .task p.2) : R'.Suited m where
  jobs earlier q before := by
    rw [jobs] at before
    obtain ⟨others, within, hosts⟩ := suited.jobs earlier q before
    exact ⟨others, tasks ▸ within.trans (prefix_append _ _), hosts⟩
  tasks earlier q before := by
    rw [tasks, prefix_concat_iff] at before
    obtain same | before := before
    · obtain ⟨rfl, one⟩ := append_inj' same rfl
      obtain rfl := singleton_inj.mp one
      exact ⟨R.jobsToRun, jobs ▸ prefix_rfl, hosts⟩
    · rw [jobs]
      exact suited.tasks earlier q before

end Round

variable {m : Manager} {status : Status}

/-- A job gets a node of the ranking. -/
theorem scheduleJob_ranked {job : JobConf} (ok : scheduleJob m job status = .ok (some node)) :
    node ∈ nodesRanking status job.configuration.resourceLimits .job := by
  unfold scheduleJob at ok
  split at ok
  next => cases ok
  next nodes _ =>
    obtain ⟨verdict, -, ok⟩ := bind_eq_ok_iff.mp ok
    split at ok
    next ranking =>
      have first := Except.ok.inj ok
      exact (mem_filter.mp (mem_of_mem_head? first)).1
    next => cases ok
    next => cases ok

variable {R R' : Round}

theorem tryJob_suited {candidate : JobConf} (clear : m.Clear) (before : R.Copies m ∧ R.Suited m)
    (ok : tryJob R candidate = .ok R') : R'.Copies m ∧ R'.Suited m := by
  obtain ⟨copies, suited⟩ := before
  obtain rfl | ⟨-, node, status, scheduled, reserved, rfl⟩ := tryJob_ok ok
  · exact ⟨copies, suited⟩
  · constructor
    · refine copies.pick (e := ⟨candidate.id, .job candidate, node⟩) rfl ?_ reserved
      simp only [Round.starts, Round.jobStarts, map_append, map_singleton, append_assoc, singleton_append]
      exact perm_middle
    · exact suited.job (p := (candidate, node)) rfl rfl (copies.suits clear (scheduleJob_ranked scheduled) .job)

theorem tryTask_suited {task : PendingTask} (clear : m.Clear) (before : R.Copies m ∧ R.Suited m)
    (ok : tryTask R task = .ok R') : R'.Copies m ∧ R'.Suited m := by
  obtain ⟨copies, suited⟩ := before
  obtain rfl | ⟨node, status, scheduled, reserved, rfl⟩ := tryTask_ok ok
  · exact ⟨copies, suited⟩
  · constructor
    · refine copies.pick (e := ⟨task.id, .task task.description, node⟩) rfl ?_ reserved
      simp only [Round.starts, map_append, map_singleton, ← append_assoc]
      exact perm_append_singleton _ _
    · exact suited.task (p := (task, node)) rfl rfl (copies.suits clear (mem_of_mem_head? scheduled) .task)

/-- A call in a state with clear flags. -/
theorem suited_of_clear {workers : ℤ} {tasks : List PendingTask} {jobs : List JobConf} (clear : m.Clear)
    (ok : schedule m workers tasks jobs = .ok R) : R.Suited m := by
  simp only [schedule, bind_eq_ok_iff] at ok
  obtain ⟨status, created, highest, -, R₁, first, R₂, second, third⟩ := ok
  cases created
  have start : Round.Copies m ⟨m, m.systemStatus, [], []⟩ ∧ Round.Suited m ⟨m, m.systemStatus, [], []⟩ := by
    refine ⟨⟨rfl, fun node => ?_⟩, ⟨fun _ _ before => ?_, fun _ _ before => ?_⟩⟩
    · have none : Round.load ⟨m, m.systemStatus, [], []⟩ node = 0 := rfl
      simp [none]
    all_goals
      have empty := prefix_nil.mp before
      simp at empty
  have jobsKeep {jobs : List JobConf} {S S' : Round} (before : S.Copies m ∧ S.Suited m)
      (ok : scheduleJobs jobs S = .ok S') : S'.Copies m ∧ S'.Suited m :=
    pickLoop_invariant (P := fun _ S => S.Copies m ∧ S.Suited m)
      (fun before _ picked => tryJob_suited clear before picked) id before ok
  have tasksKeep := pickLoop_invariant (P := fun _ S => S.Copies m ∧ S.Suited m)
    (fun before _ picked => tryTask_suited clear before picked) id (jobsKeep start first) second
  exact (jobsKeep tasksKeep third).2

/-! ## Histories -/

/-- An update that does no harm: nodes that are not listed are not available for jobs, and nodes that are available for jobs
are available for tasks. -/
def Transition.Clear (m : Manager) : Transition → Prop
  | .call _ => True
  | .update descriptions =>
    (∀ node n, m.systemStatus.get? node = some n → node ∉ descriptions.keys → n.availableForJobs = false) ∧
      ∀ node d, descriptions.get? node = some (some d) → d.availableForJobs = true → d.availableForTasks = true

/-- A step of a history whose updates do no harm. -/
def Transition.ClearStep (m : Manager) (transition : Transition) (m' : Manager) : Prop :=
  transition.Step m m' ∧ transition.Clear m

/-- Flags of a node. -/
def Node.flags (n : Node) : NodeStatus × Bool × Bool := (n.status, n.availableForJobs, n.availableForTasks)

theorem Manager.Clear.of_flags {m' : Manager} (clear : m.Clear) (same : ∀ node n', m'.systemStatus.get? node = some n' →
    ∃ n, m.systemStatus.get? node = some n ∧ n'.flags = n.flags) : m'.Clear := by
  intro node n' found accepted
  obtain ⟨n, was, flags⟩ := same node n' found
  obtain ⟨status, forJobs, forTasks⟩ : n'.status = n.status ∧ n'.availableForJobs = n.availableForJobs ∧
      n'.availableForTasks = n.availableForTasks := by simpa only [Node.flags, Prod.mk.injEq] using flags
  rw [status, forTasks]
  exact clear node n was (forJobs ▸ accepted)

/-- A record that is changed in place keeps its flags. -/
theorem flags_of_set {name : String} {n₀ n₁ : Node} (found : status.get? name = some n₀)
    (same : n₁.flags = n₀.flags) {n' : Node} (at' : (status.set name n₁).get? node = some n') :
    ∃ n, status.get? node = some n ∧ n'.flags = n.flags := by
  obtain ⟨here, rfl⟩ | ⟨-, at'⟩ := Dict.of_get?_set at'
  · exact ⟨n₀, here ▸ found, same⟩
  · exact ⟨n', at', rfl⟩

theorem flags_of_onNode {change : Node → Except Exn Unit × Node} (same : ∀ n, (change n).2.flags = n.flags)
    {name : String} {n' : Node} (at' : (onNode change status name).2.get? node = some n') :
    ∃ n, status.get? node = some n ∧ n'.flags = n.flags := by
  rw [onNode] at at'
  split at at'
  next => exact ⟨n', at', rfl⟩
  next n found => exact flags_of_set found (same n) at'

theorem bookLoop_flags (delta : Amounts) (refuses : Resource → ℤ → ℤ → Option Exn) (n : Node) :
    (bookLoop delta refuses Resource.all n).2.flags = n.flags := by
  rw [bookLoop_node Resource.all_nodup]
  rfl

/-- Claims and releases do not touch flags. -/
theorem Call.run_flags {call : Call} {n' : Node} (found : (call.run m).2.systemStatus.get? node = some n') :
    ∃ n, m.systemStatus.get? node = some n ∧ n'.flags = n.flags := by
  cases call with
  | claim identifier conf name =>
    by_cases accepted : m.Accepts conf name
    · obtain ⟨n, is, fits⟩ := accepted
      rw [run, claim_ok_iff.mpr ⟨n, is, fits, rfl⟩, Manager.withStatus_systemStatus] at found
      refine flags_of_set is ?_ found
      rfl
    · obtain ⟨e, refused⟩ := @claim_refused m identifier conf name accepted
      rw [run, refused, Manager.withStatus_systemStatus] at found
      exact flags_of_onNode (bookLoop_flags _ _) found
  | release identifier name kind keepDisk =>
    rw [run] at found
    by_cases known : ∃ conf n, m.stored kind identifier = some conf ∧ m.systemStatus.get? name = some n ∧
        identifier ∈ n.running kind
    · obtain ⟨conf, n, stored, is, listed⟩ := known
      rw [releaseResources_eq stored is listed] at found
      split at found
      · refine flags_of_set is ?_ found
        rw [keepDiskAt_eq]
        split <;> rfl
      · exact flags_of_onNode (bookLoop_flags _ _) found
    · rw [release_unknown fun conf n stored is listed => known ⟨conf, n, stored, is, listed⟩] at found
      exact ⟨n', found, rfl⟩

/-- An update that does no harm keeps flags clear, also if it raises. -/
theorem Manager.Clear.update (clear : m.Clear) {descriptions : Dict String (Option Description)}
    (harmless : Transition.Clear m (.update descriptions)) : (updateSystemStatus m descriptions).2.Clear := by
  obtain ⟨unlisted, described⟩ := harmless
  have loop : let u := (forEach (Update.visitNode descriptions) ⟨m, fun _ => []⟩ descriptions.keys).2
      u.manager.Clear ∧ ∀ node ∉ descriptions.keys, u.manager.systemStatus.get? node = m.systemStatus.get? node := by
    apply forEach_invariant (I := fun u : Update => u.manager.Clear ∧
      ∀ node ∉ descriptions.keys, u.manager.systemStatus.get? node = m.systemStatus.get? node)
    · intro u name listed ⟨before, same⟩
      obtain unchanged | ⟨d, n₁, told, renews, changed⟩ := @Update.visitNode_manager descriptions u name
      · rw [unchanged]
        exact ⟨before, same⟩
      · rw [changed]
        constructor
        · intro node n' found accepted
          obtain ⟨-, rfl⟩ | ⟨-, found⟩ := Dict.of_get?_set found
          · obtain rfl | ⟨n, -, connected, rfl | rfl⟩ := renews
            · exact ⟨nofun, described name d told accepted⟩
            · exact ⟨connected, described name d told accepted⟩
            · exact ⟨connected, described name d told accepted⟩
          · exact before node n' found accepted
        · intro node outside
          rw [withStatus_systemStatus, Dict.get?_set_of_ne _ _ fun here : node = name => outside (here ▸ listed)]
          exact same node outside
    · exact ⟨clear, fun _ _ => rfl⟩
  obtain ⟨after, same⟩ := loop
  rw [updateSystemStatus]
  split
  next raised =>
    rw [raised] at after
    exact after
  next u returned =>
    rw [returned] at after same
    intro node n' found accepted
    rw [Update.finish, withStatus_systemStatus, Dict.get?_mapVals, Dict.get?_mapVals, Option.map_map,
      map_eq_some_iff] at found
    obtain ⟨n, was, rfl⟩ := found
    by_cases listed : node ∈ descriptions.keys
    · rw [Function.comp_apply, if_pos listed] at accepted ⊢
      have flags : n.examine.availableForJobs = n.availableForJobs ∧ n.examine.availableForTasks = n.availableForTasks ∧
          (n.status ≠ .disconnected → n.examine.status ≠ .disconnected) := by
        unfold Node.examine
        split_ifs <;> simp_all
      rw [flags.1] at accepted
      rw [flags.2.1]
      obtain ⟨connected, forTasks⟩ := after node n was accepted
      exact ⟨flags.2.2 connected, forTasks⟩
    · rw [Function.comp_apply, if_neg listed] at accepted
      have off := unlisted node n ((same node listed) ▸ was) listed
      have flags : n.disconnect.examine.availableForJobs = n.availableForJobs := rfl
      rw [flags, off] at accepted
      cases accepted

/-- A small task of some job. -/
def tinyTask : PendingTask := ⟨"task", "job", .low, plainLimits 1 1 1⟩

end Klever.Scheduler
