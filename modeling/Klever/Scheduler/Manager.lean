import Klever.Scheduler.Resources

/-!
# The resource manager: claims and releases

`ResourceManager.claim_resources` and `ResourceManager.release_resources`, over the whole state that
they touch: the node records with their reservations and running lists, and the two tables of stored
configurations. A call returns its outcome together with the state it leaves, because a Python
exception does not undo what was done before it was raised.

`claim_ok_iff` and `release_ok_iff` say when a call goes through and what it then does. A call that
fails is another matter: the configuration is stored before anything is checked, the three
reservations are changed one by one with a check after each, and the kept disk is checked after the
release is already done. `claim_refused_unchanged_iff` and `release_listed_clean_iff` say exactly
which failures leave no trace.
-/

namespace Klever.Scheduler

open Klever.Lib List Option

/-! ## Jobs and tasks -/

theorem amounts_nonneg (cpu ram disk : ℕ) (r : Resource) : 0 ≤ amounts cpu ram disk r := by
  cases r <;> exact Int.natCast_nonneg _

theorem ten_nonneg : ∀ r, 0 ≤ amounts 10 10 10 r := by decide

/-- Limits without a CPU model. -/
def plainLimits (cpu ram disk : ℕ) : Limits where
  cpuModel := none
  amounts := amounts cpu ram disk
  nonneg := amounts_nonneg cpu ram disk

/-- Priorities, from the lowest to the highest. -/
inductive Priority
  | idle
  | low
  | high
  | urgent
  deriving DecidableEq, Repr

/-- `sort_priority`. -/
def sortPriority : Priority → ℕ
  | .idle => 0
  | .low => 1
  | .high => 2
  | .urgent => 3

/-- `higher_priority`: whether the first priority is higher than the second one, or at least as high
when the comparison is not strict. -/
def higherPriority (one two : Priority) (strictly : Bool) : Bool :=
  if strictly then sortPriority one > sortPriority two else sortPriority one ≥ sortPriority two

/-- Who solves the tasks of a job. -/
inductive TaskScheduler
  | klever
  | verifierCloud
  deriving DecidableEq, Repr

/-- The configuration of a job, as Bridge sends it. -/
structure JobConfiguration where
  priority : Priority
  resourceLimits : Limits
  taskResourceLimits : Limits
  taskScheduler : TaskScheduler
  deriving DecidableEq

/-- The dictionary of a job: its identifier and configuration. Nothing in the scheduler sets the
outer `priority` key, but `__check_invariant` sorts by it. -/
structure JobConf where
  id : String
  priority : Option Priority
  configuration : JobConfiguration
  deriving DecidableEq

/-- The description of a task. -/
structure TaskDescription where
  jobId : String
  priority : Priority
  resourceLimits : Limits
  deriving DecidableEq

/-- What `claim_resources` is given: the dictionary of a job or the description of a task. -/
inductive Conf
  | job (conf : JobConf)
  | task (description : TaskDescription)
  deriving DecidableEq

/-- Whether it is a job or a task. -/
def Conf.kind : Conf → Kind
  | .job _ => .job
  | .task _ => .task

/-- The resource limits that count for the reservation. -/
def Conf.limits : Conf → Limits
  | .job conf => conf.configuration.resourceLimits
  | .task description => description.resourceLimits

/-! ## The state -/

/-- The state of `ResourceManager`. -/
structure Manager where
  maxRunningJobs : ℤ
  systemStatus : Status
  jobsConfig : Dict String JobConf
  tasksConfig : Dict String TaskDescription
  maxTasks : ℤ
  isAdjustPoolSize : Bool
  deriving DecidableEq

namespace Manager

variable (m : Manager)

/-- The configuration stored for an identifier of a kind. -/
def stored (kind : Kind) (identifier : String) : Option Conf :=
  match kind with
  | .job => (m.jobsConfig.get? identifier).map .job
  | .task => (m.tasksConfig.get? identifier).map .task

/-- Store a configuration in the table of its kind. -/
def store (identifier : String) (conf : Conf) : Manager :=
  match conf with
  | .job conf => { m with jobsConfig := m.jobsConfig.set identifier conf }
  | .task description => { m with tasksConfig := m.tasksConfig.set identifier description }

/-- Delete a configuration from the table of its kind. -/
def unstore (kind : Kind) (identifier : String) : Manager :=
  match kind with
  | .job => { m with jobsConfig := m.jobsConfig.erase identifier }
  | .task => { m with tasksConfig := m.tasksConfig.erase identifier }

/-- A manager with another system status. -/
def withStatus (status : Status) : Manager := { m with systemStatus := status }

/-- `__processing_jobs` and `__processing_tasks`: what runs, with the node it runs on. -/
def processing (kind : Kind) : List (String × String) :=
  m.systemStatus.items.flatMap fun e => (e.2.running kind).map fun identifier => (identifier, e.1)

/-- An identifier runs when some node lists it. -/
def IsRunning (kind : Kind) (identifier : String) : Prop :=
  ∃ node n, m.systemStatus.get? node = some n ∧ identifier ∈ n.running kind

end Manager

/-- `__init__`: no nodes are known and nothing is stored. -/
def Manager.init (maxJobs poolSize : ℤ) (isAdjustPoolSize : Bool) : Manager where
  maxRunningJobs := maxJobs
  systemStatus := Dict.empty
  jobsConfig := Dict.empty
  tasksConfig := Dict.empty
  maxTasks := poolSize
  isAdjustPoolSize := isAdjustPoolSize

/-- The record that `update_system_status` makes of a node it has not met. -/
def Node.connected (cpuModel : String) (forJobs forTasks : Bool) (available : Amounts)
    (available_nonneg : ∀ r, 0 ≤ available r) : Node where
  status := .healthy
  cpuModel := cpuModel
  availableForJobs := forJobs
  availableForTasks := forTasks
  available := available
  available_nonneg := available_nonneg
  reserved := 0
  running := fun _ => []

/-- A manager that has met one more node. -/
def Manager.connect (m : Manager) (name : String) (n : Node) : Manager :=
  m.withStatus (m.systemStatus.set name n)

/-- A node that starts a job or task. -/
def Node.start (n : Node) (kind : Kind) (identifier : String) : Node :=
  { n with running := Function.update n.running kind (n.running kind ++ [identifier]) }

/-- A node that stops one: `remove` takes the first occurrence off the list. -/
def Node.stop (n : Node) (kind : Kind) (identifier : String) : Node :=
  { n with running := Function.update n.running kind ((n.running kind).erase identifier) }

section Small

variable (m : Manager) (n : Node) (kind : Kind) (identifier id : String)

@[simp] theorem Node.start_reserved : (n.start kind id).reserved = n.reserved := rfl

@[simp] theorem Node.start_available : (n.start kind id).available = n.available := rfl

@[simp] theorem Node.start_running :
    (n.start kind id).running = Function.update n.running kind (n.running kind ++ [id]) := rfl

@[simp] theorem Node.stop_reserved : (n.stop kind id).reserved = n.reserved := rfl

@[simp] theorem Node.stop_available : (n.stop kind id).available = n.available := rfl

@[simp] theorem Node.stop_running :
    (n.stop kind id).running = Function.update n.running kind ((n.running kind).erase id) := rfl

@[simp] theorem Manager.withStatus_systemStatus (status : Status) :
    (m.withStatus status).systemStatus = status := rfl

@[simp] theorem Manager.withStatus_stored (status : Status) :
    (m.withStatus status).stored kind identifier = m.stored kind identifier := rfl

@[simp] theorem Manager.store_systemStatus (conf : Conf) : (m.store id conf).systemStatus = m.systemStatus := by
  cases conf <;> rfl

end Small

theorem Manager.stored_store (m : Manager) (kind : Kind) (id identifier' : String) (conf : Conf) :
    (m.store id conf).stored kind identifier' = if kind = conf.kind ∧ identifier' = id then some conf
      else m.stored kind identifier' := by
  cases conf <;> cases kind <;>
    simp only [Manager.store, Manager.stored, Conf.kind, Dict.get?_set, reduceCtorEq, true_and, false_and, if_false] <;>
    split <;> rfl

theorem Manager.stored_unstore (m : Manager) (kind kind' : Kind) (id identifier' : String) :
    (m.unstore kind id).stored kind' identifier' =
      if kind' = kind ∧ identifier' = id then none else m.stored kind' identifier' := by
  cases kind <;> cases kind' <;>
    simp only [Manager.unstore, Manager.stored, Dict.get?_erase, reduceCtorEq, true_and, false_and, if_false] <;>
    split <;> rfl

variable {m : Manager} {id : String} {conf : Conf} {kind : Kind} {node : String} {keepDisk : ℕ}
  {status : Status}

/-- Storing changes nothing exactly when the same configuration is stored already. -/
theorem Manager.store_eq_self_iff : m.store id conf = m ↔ m.stored conf.kind id = some conf := by
  obtain ⟨maxRunningJobs, systemStatus, jobsConfig, tasksConfig, maxTasks, isAdjustPoolSize⟩ := m
  cases conf with
  | job conf =>
    have stored : Option.map Conf.job (jobsConfig.get? id) = some (.job conf) ↔ jobsConfig.get? id = some conf := by
      simp only [map_eq_some_iff, Conf.job.injEq, exists_eq_right]
    simp only [Manager.store, Manager.stored, Conf.kind, Manager.mk.injEq, true_and, and_true, Dict.set_eq_self_iff, stored]
  | task conf =>
    have stored : Option.map Conf.task (tasksConfig.get? id) = some (.task conf) ↔ tasksConfig.get? id = some conf := by
      simp only [map_eq_some_iff, Conf.task.injEq, exists_eq_right]
    simp only [Manager.store, Manager.stored, Conf.kind, Manager.mk.injEq, true_and, and_true, Dict.set_eq_self_iff, stored]

/-- What runs is what the nodes list. -/
theorem Manager.mem_processing : (id, node) ∈ m.processing kind ↔
      ∃ n, m.systemStatus.get? node = some n ∧ id ∈ n.running kind := by
  simp only [Manager.processing, mem_flatMap, List.mem_map, Prod.mk.injEq]
  constructor
  · rintro ⟨⟨node', n⟩, mem, _, listed, rfl, rfl⟩
    exact ⟨n, Dict.mem_items_iff.mp mem, listed⟩
  · rintro ⟨n, found, listed⟩
    exact ⟨(node, n), Dict.mem_items_iff.mpr found, id, listed, rfl, rfl⟩

/-! ## Claims and releases -/

/-- The test `identifier in self.__processing_jobs`. The elements of that list are two-element
lists, and no string equals a list, so no element passes the comparison. -/
def amongProcessing (_identifier : String) (running : List (String × String)) : Bool :=
  running.any fun _ => false

/-- The text of the error about a running identifier. It has a placeholder and is never formatted. -/
def alreadyRunning : Kind → Exn
  | .job => .keyError "Verification job \x7b!r\x7d should be already running"
  | .task => .keyError "Verification task \x7b!r\x7d should be already running"

/-- `claim_resources`. -/
def claimResources (m : Manager) (identifier : String) (conf : Conf) (node : String) :
    Except Exn Unit × Manager :=
  if amongProcessing identifier (m.processing conf.kind) then (.error (alreadyRunning conf.kind), m)
  else
    let m := m.store identifier conf
    match reserveResources m.systemStatus conf.limits node with
    | (.error e, status) => (.error e, m.withStatus status)
    | (.ok (), status) =>
      (.ok (), m.withStatus (status.modify node fun n => n.start conf.kind identifier))

/-- The error about an identifier that the node does not list. -/
def notAtNode (identifier : String) (kind : Kind) (node : String) : Exn :=
  .keyError ("Cannot find " ++ quoted identifier ++ " together with " ++ kind.tag ++ " at node " ++ quoted node)

/-- The error about a working directory too large to be kept. -/
def cannotKeep (keepDisk : ℕ) (rest : ℤ) (node : String) : Exn :=
  .valueError ("Cannot reserve amount of disk memory " ++ toString keepDisk ++
    " which is higher than rest amount " ++ toString rest ++ " at node " ++ node)

/-- The end of `release_resources`: reserve the kept disk for good, if it still fits. -/
def keepDiskAt (keepDisk : ℕ) (node : String) (n : Node) : Except Exn Unit × Node :=
  let diff := n.available .disk - n.reserved .disk
  if keepDisk = 0 then (.ok (), n)
  else if keepDisk > diff then (.error (cannotKeep keepDisk diff node), n)
  else (.ok (), n.addReserved .disk keepDisk)

/-- `release_resources`. -/
def releaseResources (m : Manager) (identifier node : String) (kind : Kind) (keepDisk : ℕ) :
    Except Exn Unit × Manager :=
  match m.stored kind identifier with
  | none => (.error (.keyError identifier), m)
  | some conf =>
    match m.systemStatus.get? node with
    | none => (.error (.keyError node), m)
    | some n =>
      if identifier ∉ n.running kind then (.error (notAtNode identifier kind node), m)
      else
        match releaseAmount m.systemStatus conf.limits node with
        | (.error e, status) => (.error e, m.withStatus status)
        | (.ok (), status) =>
          let m := m.unstore kind identifier
          let status := status.modify node fun n => n.stop kind identifier
          let kept := onNode (keepDiskAt keepDisk node) status node
          (kept.1, m.withStatus kept.2)

/-! ### What the calls do -/

theorem amongProcessing_eq_false (id : String) (running : List (String × String)) :
    amongProcessing id running = false := by
  simp [amongProcessing]

/-- A claim stores the configuration, then reserves, then lists the identifier. -/
theorem claimResources_eq (m : Manager) (id : String) (conf : Conf) (node : String) : claimResources m id conf node =
      match reserveResources m.systemStatus conf.limits node with
      | (.error e, status) => (.error e, (m.store id conf).withStatus status)
      | (.ok (), status) => (.ok (), (m.store id conf).withStatus
          (status.modify node fun n => n.start conf.kind id)) := by
  simp [claimResources, amongProcessing_eq_false]

/-- A claim goes through when the node is known and the limits fit there. -/
theorem claim_ok_iff {m' : Manager} : claimResources m id conf node = (.ok (), m') ↔
      ∃ n, m.systemStatus.get? node = some n ∧ n.Fits conf.limits.amounts ∧
        m' = (m.store id conf).withStatus (m.systemStatus.set node
          ((n.withReserved (n.reserved + conf.limits.amounts)).start conf.kind id)) := by
  rw [claimResources_eq]
  constructor
  · intro h
    rcases reserved : reserveResources m.systemStatus conf.limits node with ⟨_ | ⟨⟩, status⟩
    · rw [reserved] at h
      cases h
    · rw [reserved] at h
      obtain ⟨n, found, fits, rfl⟩ := reserveResources_ok_iff.mp reserved
      cases h
      exact ⟨n, found, fits, by rw [Dict.modify_set]⟩
  · rintro ⟨n, found, fits, rfl⟩
    rw [reserveResources_ok_iff.mpr ⟨n, found, fits, rfl⟩]
    simp [Dict.modify_set]

/-- What a release of kept disk adds to the reservations. -/
def keptAmounts (keepDisk : ℕ) : Amounts := amounts 0 0 keepDisk

theorem keptAmounts_nonneg (keepDisk : ℕ) : 0 ≤ keptAmounts keepDisk := amounts_nonneg 0 0 keepDisk

/-- The kept disk fits on a node, or there is nothing to keep. -/
def Node.Keeps (n : Node) (keepDisk : ℕ) : Prop :=
  keepDisk = 0 ∨ (keepDisk : ℤ) ≤ n.available .disk - n.reserved .disk

instance (n : Node) (keepDisk : ℕ) : Decidable (n.Keeps keepDisk) :=
  inferInstanceAs (Decidable (_ ∨ _))

theorem addReserved_disk (n : Node) (keepDisk : ℕ) :
    n.addReserved .disk keepDisk = n.withReserved (n.reserved + keptAmounts keepDisk) := by
  rw [Node.addReserved]
  congr 1
  funext r
  cases r <;> simp [keptAmounts, amounts]

theorem keepDiskAt_eq (keepDisk : ℕ) (node : String) (n : Node) : keepDiskAt keepDisk node n =
      if n.Keeps keepDisk then (.ok (), n.withReserved (n.reserved + keptAmounts keepDisk))
      else (.error (cannotKeep keepDisk (n.available .disk - n.reserved .disk) node), n) := by
  rw [keepDiskAt, ← addReserved_disk]
  by_cases none_kept : keepDisk = 0
  · subst none_kept
    have keeps : n.Keeps 0 := .inl rfl
    rw [if_pos rfl, if_pos keeps]
    simp [Node.addReserved]
  · by_cases fits : (keepDisk : ℤ) ≤ n.available .disk - n.reserved .disk
    · simp [none_kept, Node.Keeps, not_lt.mpr fits]
    · simp [none_kept, Node.Keeps, not_le.mp fits]

/-- A node after a job or task with these limits has left it. -/
def Node.left (n : Node) (limits : Amounts) (kind : Kind) (identifier : String) : Node :=
  (n.withReserved (n.reserved - limits)).stop kind identifier

theorem releaseAmount_uncovered {n : Node} {limits : Limits} (found : status.get? node = some n)
    (uncovered : ¬ n.Covers limits.amounts) : (releaseAmount status limits node).1 ≠ .ok () := by
  intro ok
  obtain ⟨n', found', covers, -⟩ := releaseAmount_ok_iff.mp (Prod.ext ok rfl)
  rw [found, some.injEq] at found'
  exact uncovered (found' ▸ covers)

/-- The part of a release that follows its checks. -/
theorem releaseResources_eq {n : Node} (stored : m.stored kind id = some conf)
    (found : m.systemStatus.get? node = some n) (listed : id ∈ n.running kind) (keepDisk : ℕ) :
    releaseResources m id node kind keepDisk = if n.Covers conf.limits.amounts then
        ((keepDiskAt keepDisk node (n.left conf.limits.amounts kind id)).1,
          (m.unstore kind id).withStatus (m.systemStatus.set node
            (keepDiskAt keepDisk node (n.left conf.limits.amounts kind id)).2))
      else
        ((releaseAmount m.systemStatus conf.limits node).1,
          m.withStatus (releaseAmount m.systemStatus conf.limits node).2) := by
  simp only [releaseResources, stored, found, not_true_eq_false, listed, if_false]
  by_cases covers : n.Covers conf.limits.amounts
  · rw [releaseAmount_ok_iff.mpr ⟨n, found, covers, rfl⟩, if_pos covers]
    simp [Dict.modify_set, onNode, Dict.set_set, Node.left]
  · rw [if_neg covers]
    have fails := releaseAmount_uncovered found covers
    rcases released : releaseAmount m.systemStatus conf.limits node with ⟨_ | ⟨⟩, status⟩
    · rfl
    · exact absurd (congrArg Prod.fst released) fails

/-- A release goes through when the identifier has a configuration, the node lists it, its limits
are covered by the reservations there and the kept disk still fits afterwards. -/
theorem release_ok_iff {m' : Manager} : releaseResources m id node kind keepDisk = (.ok (), m') ↔
      ∃ conf n, m.stored kind id = some conf ∧ m.systemStatus.get? node = some n ∧
        id ∈ n.running kind ∧ n.Covers conf.limits.amounts ∧
        (n.left conf.limits.amounts kind id).Keeps keepDisk ∧
        m' = (m.unstore kind id).withStatus (m.systemStatus.set node
          ((n.withReserved (n.reserved - conf.limits.amounts + keptAmounts keepDisk)).stop kind id)) := by
  constructor
  · intro h
    cases stored : m.stored kind id with
    | none => simp [releaseResources, stored] at h
    | some conf =>
      cases found : m.systemStatus.get? node with
      | none => simp [releaseResources, stored, found] at h
      | some n =>
        by_cases listed : id ∈ n.running kind
        · rw [releaseResources_eq stored found listed, keepDiskAt_eq] at h
          split at h
          next covers =>
            split at h
            next keeps =>
              cases h
              exact ⟨conf, n, rfl, rfl, listed, covers, keeps, rfl⟩
            next => cases h
          next uncovered => exact absurd (congrArg Prod.fst h) (releaseAmount_uncovered found uncovered)
        · simp [releaseResources, stored, found, listed] at h
  · rintro ⟨conf, n, stored, found, listed, covers, keeps, rfl⟩
    rw [releaseResources_eq stored found listed, if_pos covers]
    simp only [keepDiskAt_eq, if_pos keeps]
    rfl

/-! ### What a failed call leaves behind -/

theorem Manager.store_withStatus_eq_self_iff : (m.store id conf).withStatus status = m ↔
      m.stored conf.kind id = some conf ∧ status = m.systemStatus := by
  rw [← Manager.store_eq_self_iff]
  constructor
  · intro same
    have kept := congrArg Manager.systemStatus same
    rw [Manager.withStatus_systemStatus] at kept
    rw [kept, ← Manager.store_systemStatus m id conf] at same
    exact ⟨same, kept⟩
  · rintro ⟨same, rfl⟩
    rw [same]
    rfl

/-- The node is known and has room for the claim. -/
def Manager.Accepts (m : Manager) (conf : Conf) (node : String) : Prop :=
  ∃ n, m.systemStatus.get? node = some n ∧ n.Fits conf.limits.amounts

theorem claim_accepted (accepted : m.Accepts conf node) : (claimResources m id conf node).1 = .ok () := by
  obtain ⟨n, found, fits⟩ := accepted
  rw [claim_ok_iff.mpr ⟨n, found, fits, rfl⟩]

/-- A claim that is not accepted fails, with the configuration stored and with whatever the failed
reservation did. -/
theorem claim_refused (refused : ¬ m.Accepts conf node) :
    ∃ e, claimResources m id conf node = (.error e, (m.store id conf).withStatus
        (reserveResources m.systemStatus conf.limits node).2) := by
  rw [claimResources_eq]
  rcases reserved : reserveResources m.systemStatus conf.limits node with ⟨e | ⟨⟩, status⟩
  · exact ⟨e, rfl⟩
  · obtain ⟨n, found, fits, -⟩ := reserveResources_ok_iff.mp reserved
    exact absurd ⟨n, found, fits⟩ refused

/-- A claim asks nothing of the resources up to the first one that the node lacks. -/
def Node.AsksNothing (n : Node) (amount : Amounts) : Prop :=
  ∀ r ∈ bookReach amount overReserved n Resource.all, amount r = 0

/-- A release takes nothing of the resources up to the first one that the node has not reserved. -/
def Node.TakesNothing (n : Node) (amount : Amounts) : Prop :=
  ∀ r ∈ bookReach (-amount) belowZero n Resource.all, amount r = 0

theorem reserveResources_eq_self_iff {amount : Limits} : (reserveResources status amount node).2 = status ↔
      ∀ n, status.get? node = some n → n.AsksNothing amount.amounts := by
  rw [reserveResources, onNode_eq_self_iff]
  exact forall₂_congr fun n _ => bookLoop_eq_self_iff Resource.all_nodup

theorem releaseAmount_eq_self_iff {amount : Limits} : (releaseAmount status amount node).2 = status ↔
      ∀ n, status.get? node = some n → n.TakesNothing amount.amounts := by
  rw [releaseAmount, onNode_eq_self_iff]
  refine forall₂_congr fun n _ => (bookLoop_eq_self_iff Resource.all_nodup).trans ?_
  exact forall₂_congr fun r _ => by rw [Pi.neg_apply, neg_eq_zero]

/-- A refused claim leaves no trace exactly when the same configuration was stored before and the
reservation did not get to change anything. -/
theorem claim_refused_unchanged_iff (refused : ¬ m.Accepts conf node) :
    (claimResources m id conf node).2 = m ↔ m.stored conf.kind id = some conf ∧
        ∀ n, m.systemStatus.get? node = some n → n.AsksNothing conf.limits.amounts := by
  obtain ⟨e, he⟩ := @claim_refused m id conf node refused
  rw [he, Manager.store_withStatus_eq_self_iff, reserveResources_eq_self_iff]

/-- A release of something that the node does not list, or that has no configuration, changes
nothing. -/
theorem release_unknown
    (unknown : ∀ conf n, m.stored kind id = some conf → m.systemStatus.get? node = some n → id ∉ n.running kind) :
    (releaseResources m id node kind keepDisk).2 = m := by
  unfold releaseResources
  cases stored : m.stored kind id with
  | none => rfl
  | some conf =>
    cases found : m.systemStatus.get? node with
    | none => rfl
    | some n =>
      simp [unknown conf n stored found]

/-- A release that removes the configuration is not the identity. -/
theorem Manager.unstore_withStatus_ne (stored : m.stored kind id = some conf) (status : Status) :
    (m.unstore kind id).withStatus status ≠ m := by
  intro same
  have gone : ((m.unstore kind id).withStatus status).stored kind id = none := by
    rw [Manager.withStatus_stored, Manager.stored_unstore, if_pos ⟨rfl, rfl⟩]
  rw [same, stored] at gone
  cases gone

/-- When a release of something listed goes through or leaves no trace: either all its checks
pass, or the first reservation that is too small is reached without a change. -/
theorem release_listed_clean_iff {n : Node} (stored : m.stored kind id = some conf)
    (found : m.systemStatus.get? node = some n) (listed : id ∈ n.running kind) :
    ((releaseResources m id node kind keepDisk).1 = .ok () ∨ (releaseResources m id node kind keepDisk).2 = m) ↔
      if n.Covers conf.limits.amounts then
        (n.left conf.limits.amounts kind id).Keeps keepDisk
      else n.TakesNothing conf.limits.amounts := by
  rw [releaseResources_eq stored found listed]
  by_cases covers : n.Covers conf.limits.amounts
  · simp only [if_pos covers, Manager.unstore_withStatus_ne stored, or_false, keepDiskAt_eq]
    split
    next keeps => simp [keeps]
    next full => simp [full]
  · simp only [if_neg covers]
    have fails := releaseAmount_uncovered found covers
    have same : m.withStatus (releaseAmount m.systemStatus conf.limits node).2 = m ↔
        (releaseAmount m.systemStatus conf.limits node).2 = m.systemStatus :=
      ⟨congrArg Manager.systemStatus, fun h => by rw [h]; rfl⟩
    simp [fails, same, releaseAmount_eq_self_iff, found]

/-! ### Atomicity -/

/-- A call of the manager. -/
inductive Call
  | claim (identifier : String) (conf : Conf) (node : String)
  | release (identifier node : String) (kind : Kind) (keepDisk : ℕ)
  deriving DecidableEq

/-- The outcome of a call and the state it leaves. -/
def Call.run (m : Manager) : Call → Except Exn Unit × Manager
  | .claim identifier conf node => claimResources m identifier conf node
  | .release identifier node kind keepDisk => releaseResources m identifier node kind keepDisk

/-- A call that raises leaves everything as it was. -/
def Call.FailsCleanly (c : Call) (m : Manager) : Prop :=
  (∃ e, (c.run m).1 = .error e) → (c.run m).2 = m

/-- A claim of a running identifier raises. -/
def Call.RefusesRunning (c : Call) (m : Manager) : Prop :=
  match c with
  | .claim identifier conf _ => m.IsRunning conf.kind identifier → ∃ e, (c.run m).1 = .error e
  | .release .. => True

/-- The calls that keep both promises. A claim that its node accepts is for something that does
not run; a claim that is not accepted repeats a stored configuration and asks nothing of the
resources up to the first lacking one. A release of something listed is covered and has room for
the kept disk, or takes nothing of the resources up to the first uncovered one. -/
def Call.LeavesNoTrace (m : Manager) : Call → Prop
  | .claim identifier conf node =>
    (m.Accepts conf node → ¬ m.IsRunning conf.kind identifier) ∧
      (¬ m.Accepts conf node → m.stored conf.kind identifier = some conf ∧
        ∀ n, m.systemStatus.get? node = some n → n.AsksNothing conf.limits.amounts)
  | .release identifier node kind keepDisk =>
    ∀ conf n, m.stored kind identifier = some conf → m.systemStatus.get? node = some n → identifier ∈ n.running kind →
        if n.Covers conf.limits.amounts then
          (n.left conf.limits.amounts kind identifier).Keeps keepDisk
        else n.TakesNothing conf.limits.amounts

theorem Call.failsCleanly_iff {c : Call} : c.FailsCleanly m ↔ (c.run m).1 = .ok () ∨ (c.run m).2 = m := by
  unfold Call.FailsCleanly
  rcases (c.run m).1 with e | ⟨⟩
  · simp
  · simp

/-- Which calls are atomic: those, and only those, that `LeavesNoTrace` describes. -/
theorem call_atomic_iff (c : Call) (m : Manager) : c.FailsCleanly m ∧ c.RefusesRunning m ↔ c.LeavesNoTrace m := by
  rw [Call.failsCleanly_iff]
  cases c with
  | claim identifier conf node =>
    simp only [Call.run, Call.RefusesRunning, Call.LeavesNoTrace]
    by_cases accepted : m.Accepts conf node
    · simp [claim_accepted accepted, accepted]
    · obtain ⟨e, failed⟩ := @claim_refused m identifier conf node accepted
      have unchanged := @claim_refused_unchanged_iff m identifier conf node accepted
      rw [failed] at unchanged
      simp only [failed, accepted, unchanged, reduceCtorEq, false_or, Except.error.injEq,
        exists_eq', implies_true, and_true, false_imp_iff, true_and, not_false_eq_true,
        true_imp_iff]
  | release identifier node kind keepDisk =>
    simp only [Call.run, Call.RefusesRunning, Call.LeavesNoTrace, and_true]
    constructor
    · intro clean conf n stored found listed
      exact (release_listed_clean_iff stored found listed).mp clean
    · intro fine
      by_cases listed : ∃ conf n, m.stored kind identifier = some conf ∧
          m.systemStatus.get? node = some n ∧ identifier ∈ n.running kind
      · obtain ⟨conf, n, stored, found, listed⟩ := listed
        exact (release_listed_clean_iff stored found listed).mpr (fine conf n stored found listed)
      · refine .inr (release_unknown fun conf n stored found mem => ?_)
        exact listed ⟨conf, n, stored, found, mem⟩

/-- A manager with one node that has four of everything. -/
def smallManager : Manager :=
  (Manager.init 2 8 false).connect "node"
    (Node.connected "cpu" true true (amounts 4 4 4) (by decide))

/-- A task that asks for the given amounts. -/
def smallTask (cpu ram disk : ℕ) : Conf := .task ⟨"job", .low, plainLimits cpu ram disk⟩

/-- Each promise is broken by a short history on the small manager: a running task is claimed again
without an error; a claim that lacks memory leaves its cores reserved and its configuration stored;
a release that cannot keep its working directory has already given everything back. -/
theorem call_not_atomic : (∃ m, (Call.claim "task" (smallTask 1 1 1) "node").run smallManager = (.ok (), m) ∧
      m.IsRunning .task "task" ∧
      ((Call.claim "task" (smallTask 1 1 1) "node").run m).1 = .ok () ∧
      ((Call.release "task" "node" .task 9).run m).1 = .error (cannotKeep 9 4 "node") ∧
      ((Call.release "task" "node" .task 9).run m).2 ≠ m) ∧
    ((Call.claim "task" (smallTask 1 9 1) "node").run smallManager).1 ≠ .ok () ∧
    ((Call.claim "task" (smallTask 1 9 1) "node").run smallManager).2 ≠ smallManager := by
  refine ⟨⟨_, rfl, ⟨"node", _, rfl, ?_⟩, ?_⟩, ?_⟩ <;> decide

end Klever.Scheduler
