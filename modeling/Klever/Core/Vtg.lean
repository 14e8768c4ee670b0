import Klever.Lib.Dict
import Klever.Lib.Run

/-!
# The main loop of VTG

VTG starts a worker for each pair of a program fragment and a class of requirement specifications. Such a worker (EMGW)
generates environment models, and for each of them and each requirement specification of the class VTG starts one more
worker (PLUGINS). Each worker puts one message into the queue `processed`, by itself or with help of VRP; the loop counts
these messages, tells the progress watcher about tasks, and removes working directories.

The numbers fit whatever the order of messages is. There is just one gap: if several environment models per a fragment are
allowed and there is nothing to verify, the total number of tasks is never announced, since it is announced together with
the last message on an abstract task.
-/

namespace Klever.Core.Vtg

open Klever.Lib List

/-- Abstract tasks. -/
structure Abstract (F : Type) where
  fragment : F
  ruleClass : Nat
  deriving DecidableEq, Repr

/-- Verification tasks. Environment models of an abstract task are numbered by EMG; working directories and attributes
follow from the other fields. -/
structure Task (F R : Type) where
  fragment : F
  ruleClass : Nat
  envmodel : Nat
  rule : R
  deriving DecidableEq, Repr

inductive Worker (F R : Type) where
  | emgw (task : Abstract F)
  | plugins (task : Task F R)
  deriving DecidableEq, Repr

/-- Messages from the queue `processed`. There is the number of environment models if EMGW has not failed, and there may be
a solution of a task. -/
inductive Message (F R : Type) where
  | abstract (task : Abstract F) (models : Option Nat)
  | task (task : Task F R) (solution : Bool)
  deriving DecidableEq, Repr

inductive Status where
  | finished | failed
  deriving DecidableEq, Repr

/-- What VTG gets from the configuration, from PFG and from specifications. -/
structure Config (F R : Type) where
  fragmentDescs : List F
  reqSpecClasses : List (List R)
  singleModel : Bool
  keepDirs : Bool
  maxTasks : Nat
  /-- The numbers of parallel threads of EMG and of plugins. -/
  emgThreads : Nat
  pluginsThreads : Nat
  -- Both descriptions and classes are dictionaries in the source.
  fragments_nodup : fragmentDescs.Nodup
  rules_nodup : ∀ rules ∈ reqSpecClasses, rules.Nodup
  -- Bridge asks for a positive number of tasks, and nonpositive numbers of threads raise exceptions.
  maxTasks_pos : 0 < maxTasks
  emgThreads_pos : 0 < emgThreads
  pluginsThreads_pos : 0 < pluginsThreads

/-- Local variables of the loop, the queues it puts messages into and, at last, what has happened. -/
structure State (F R : Type) where
  waiting : Int
  prepare : List (Worker F R)
  ataskTasks : Dict (Abstract F) (Finset (Task F R))
  leftAbstractTasks : Int
  totalTasks : Nat
  prepareWorkers : List (Worker F R)
  maxWorkerThreads : Nat
  isAgileThreads : Bool
  /-- The queue `total tasks`. -/
  announced : List Nat
  /-- The queue `finished and failed tasks`. -/
  statuses : List Status
  started : List (Worker F R)
  received : List (Message F R)
  /-- Abstract tasks whose working directories are removed. -/
  removed : List (Abstract F)

variable {F R : Type}

namespace Message

/-- The worker whose message this is. -/
def worker : Message F R → Worker F R
  | .abstract atask _ => .emgw atask
  | .task verified _ => .plugins verified

/-- The number of environment models. -/
def models : Message F R → Nat
  | .abstract _ models => models.getD 0
  | .task _ _ => 0

end Message

namespace Task

/-- The abstract task of a task. -/
def abstract (task : Task F R) : Abstract F := ⟨task.fragment, task.ruleClass⟩

end Task

namespace Config

variable (cfg : Config F R)

/-- Requirement specifications of a class. -/
def rules (ruleClass : Nat) : List R := (cfg.reqSpecClasses[ruleClass]?).getD []

/-- Abstract tasks, in the order in which workers are prepared. -/
def abstractTasks : List (Abstract F) :=
  cfg.fragmentDescs.flatMap fun fragment => (List.range cfg.reqSpecClasses.length).map fun ruleClass => ⟨fragment, ruleClass⟩

/-- Tasks for environment models of an abstract task. -/
def tasks (task : Abstract F) (models : Nat) : List (Task F R) :=
  (List.range models).flatMap fun envmodel =>
    (cfg.rules task.ruleClass).map fun rule => ⟨task.fragment, task.ruleClass, envmodel, rule⟩

/-- The total number of tasks if there is a single environment model per a fragment. -/
def expectedTasks : Nat := cfg.fragmentDescs.length * (cfg.reqSpecClasses.map List.length).sum

end Config

namespace State

def start (cfg : Config F R) : State F R where
  waiting := 0
  prepare := cfg.abstractTasks.map .emgw
  ataskTasks := .empty
  leftAbstractTasks := cfg.abstractTasks.length
  totalTasks := if cfg.singleModel then cfg.expectedTasks else 0
  prepareWorkers := []
  maxWorkerThreads := cfg.emgThreads
  isAgileThreads := true
  announced := if cfg.singleModel then [cfg.expectedTasks] else []
  statuses := []
  started := []
  received := []
  removed := []

/-- Workers are taken from the end. -/
def startWorkers (state : State F R) : (quota : Nat) → State F R
  | 0 => state
  | quota + 1 =>
    match state.prepare.getLast? with
    | some worker => startWorkers { state with
        prepare := state.prepare.dropLast
        prepareWorkers := state.prepareWorkers ++ [worker]
        started := state.started ++ [worker] } quota
    | none => state

/-- `__gradual_submit` together with the quota and the counter of waiting workers -/
def gradualSubmit (cfg : Config F R) (state : State F R) (isAlive : Worker F R → Bool) : State F R :=
  let quota := if (cfg.maxTasks : Int) > state.waiting then cfg.maxTasks - state.waiting else 0
  let prepareWorkers := state.prepareWorkers.filter isAlive
  let quota := min (min quota state.prepare.length) (state.maxWorkerThreads - prepareWorkers.length)
  let submitted := max 0 quota
  let state := startWorkers { state with prepareWorkers := prepareWorkers } quota.toNat
  { state with waiting := state.waiting + submitted }

variable [DecidableEq F] [DecidableEq R]

/-- A message of EMGW. -/
def receiveAbstract (cfg : Config F R) (state : State F R) (atask : Abstract F) (models : Option Nat) : State F R :=
  let state : State F R := { state with leftAbstractTasks := state.leftAbstractTasks - 1 }
  let new := cfg.tasks atask (models.getD 0)
  let state : State F R := if models.isSome ∧ cfg.keepDirs = false then
    { state with ataskTasks := state.ataskTasks.set atask new.toFinset } else state
  let state : State F R := if models.getD 0 ≠ 0 then
    { state with
      prepare := state.prepare ++ new.map .plugins
      totalTasks := if cfg.singleModel then state.totalTasks else state.totalTasks + new.length }
  else if cfg.singleModel then
    { state with statuses := state.statuses ++ (cfg.rules atask.ruleClass).map fun _ => .failed }
  else state
  let state : State F R := if cfg.singleModel = false ∧ state.leftAbstractTasks = 0 then
    { state with announced := state.announced ++ [state.totalTasks] } else state
  if state.isAgileThreads then { state with maxWorkerThreads := cfg.pluginsThreads, isAgileThreads := false } else state

/-- A message on a task; nothing comes back if a key is missing. -/
def receiveTask (cfg : Config F R) (state : State F R) (task : Task F R) (solution : Bool) : Option (State F R) :=
  let state := { state with statuses := state.statuses ++ [if solution then .finished else .failed] }
  if cfg.keepDirs then some state
  else match state.ataskTasks.get? task.abstract with
    | some tasks =>
      if task ∈ tasks then
        if tasks.erase task = ∅ then some { state with
          ataskTasks := state.ataskTasks.erase task.abstract
          removed := state.removed ++ [task.abstract] }
        else some { state with ataskTasks := state.ataskTasks.set task.abstract (tasks.erase task) }
      else none
    | none => none

def receive (cfg : Config F R) (state : State F R) (message : Message F R) : Option (State F R) :=
  let state := { state with waiting := state.waiting - 1, received := state.received ++ [message] }
  match message with
  | .abstract atask models => some (state.receiveAbstract cfg atask models)
  | .task task solution => state.receiveTask cfg task solution

/-- Whether there is one more iteration. -/
def continues (state : State F R) : Prop := state.prepare ≠ [] ∨ state.waiting ≠ 0

instance (state : State F R) : Decidable state.continues := inferInstanceAs (Decidable (_ ∨ _))

end State

/-- What the loop finds in an iteration: which workers are alive and messages that have come. -/
structure Seen (F R : Type) where
  isAlive : Worker F R → Bool
  messages : List (Message F R)

section Loop

variable [DecidableEq F] [DecidableEq R]

/-- The state after some messages of an iteration. -/
def State.during (cfg : Config F R) (state : State F R) (seen : Seen F R) (k : Nat) : Option (State F R) :=
  (seen.messages.take k).foldlM (State.receive cfg) (state.gradualSubmit cfg seen.isAlive)

def State.iterate (cfg : Config F R) (state : State F R) (seen : Seen F R) : Option (State F R) :=
  seen.messages.foldlM (State.receive cfg) (state.gradualSubmit cfg seen.isAlive)

/-- `__generate_all_abstract_verification_task_descs`: the state before the iteration `n`; nothing happens after the loop. -/
def stateAt (cfg : Config F R) (env : Nat → Seen F R) : Nat → Option (State F R)
  | 0 => some (.start cfg)
  | n + 1 => (stateAt cfg env n).bind fun state => if state.continues then state.iterate cfg (env n) else some state

/-- Each worker that has been started sends one message and ends. -/
structure Answers (cfg : Config F R) (env : Nat → Seen F R) : Prop where
  once : ∀ n state, stateAt cfg env n = some state → state.continues → ((env n).messages.map Message.worker).Nodup
  owner : ∀ n state, stateAt cfg env n = some state → state.continues → ∀ message ∈ (env n).messages,
    message.worker ∈ (state.gradualSubmit cfg (env n).isAlive).started ∧
      message.worker ∉ state.received.map Message.worker
  single : cfg.singleModel → ∀ n, ∀ message ∈ (env n).messages, message.models ≤ 1
  sends : ∀ n state, stateAt cfg env n = some state → ∀ worker ∈ state.started,
    ∃ m, ∃ message ∈ (env m).messages, message.worker = worker
  ends : ∀ n state, stateAt cfg env n = some state → ∀ worker ∈ state.started,
    ∃ m, ∀ later ≥ m, (env later).isAlive worker = false

end Loop

/-! ## Prepared workers -/

/-- Workers that a message makes VTG prepare. -/
def Config.spawned (cfg : Config F R) : Message F R → List (Task F R)
  | .abstract atask models => cfg.tasks atask (models.getD 0)
  | .task _ _ => []

/-- All workers that are prepared when some messages have come. -/
def Config.prepared (cfg : Config F R) (received : List (Message F R)) : List (Worker F R) :=
  cfg.abstractTasks.map .emgw ++ (received.flatMap cfg.spawned).map .plugins

variable {atask : Abstract F} {task : Task F R} {received : List (Message F R)} {cfg : Config F R}

theorem Config.prepared_append (message : Message F R) :
    cfg.prepared (received ++ [message]) = cfg.prepared received ++ (cfg.spawned message).map .plugins := by
  simp [Config.prepared, flatMap_append]

theorem Config.abstractTasks_nodup (cfg : Config F R) : cfg.abstractTasks.Nodup := by
  rw [Config.abstractTasks, nodup_flatMap]
  constructor
  · intro fragment _
    refine Nodup.map (fun a b same => ?_) nodup_range
    exact congrArg Abstract.ruleClass same
  · refine cfg.fragments_nodup.imp fun {a b} differ => ?_
    rintro task mem mem'
    obtain ⟨_, -, rfl⟩ := List.mem_map.mp mem
    obtain ⟨_, -, same⟩ := List.mem_map.mp mem'
    exact differ (congrArg Abstract.fragment same).symm

theorem Config.nodup_rules (cfg : Config F R) (ruleClass : Nat) : (cfg.rules ruleClass).Nodup := by
  rw [Config.rules]
  cases found : cfg.reqSpecClasses[ruleClass]? with
  | none => exact nodup_nil
  | some rules => exact cfg.rules_nodup rules (mem_of_getElem? found)

theorem Config.mem_tasks {models : Nat} : task ∈ cfg.tasks atask models ↔
      task.abstract = atask ∧ task.envmodel < models ∧ task.rule ∈ cfg.rules atask.ruleClass := by
  obtain ⟨fragment, ruleClass, envmodel, rule⟩ := task
  obtain ⟨fragment', ruleClass'⟩ := atask
  simp only [Config.tasks, mem_flatMap, mem_range, List.mem_map, Task.mk.injEq, Task.abstract, Abstract.mk.injEq]
  constructor
  · rintro ⟨_, lt, _, mem, rfl, rfl, rfl, rfl⟩
    exact ⟨⟨rfl, rfl⟩, lt, mem⟩
  · rintro ⟨⟨rfl, rfl⟩, lt, mem⟩
    exact ⟨envmodel, lt, rule, mem, rfl, rfl, rfl, rfl⟩

theorem Config.tasks_nodup (cfg : Config F R) (atask : Abstract F) (models : Nat) : (cfg.tasks atask models).Nodup := by
  rw [Config.tasks, nodup_flatMap]
  constructor
  · intro envmodel _
    refine Nodup.map (fun a b same => ?_) (cfg.nodup_rules _)
    exact congrArg Task.rule same
  · refine nodup_range.imp fun {a b} differ => ?_
    rintro task mem mem'
    obtain ⟨_, -, rfl⟩ := List.mem_map.mp mem
    obtain ⟨_, -, same⟩ := List.mem_map.mp mem'
    exact differ (congrArg Task.envmodel same).symm

theorem Config.length_tasks (cfg : Config F R) (atask : Abstract F) (models : Nat) :
    (cfg.tasks atask models).length = models * (cfg.rules atask.ruleClass).length := by
  simp [Config.tasks, length_flatMap]

/-- A spawned task belongs to the abstract task of the message. -/
theorem Config.abstract_of_mem_spawned {message : Message F R} (mem : task ∈ cfg.spawned message) :
    message.worker = .emgw task.abstract := by
  cases message with
  | abstract atask models =>
    rw [(Config.mem_tasks.mp mem).1]
    rfl
  | task other solution => cases mem

/-- No worker is prepared twice. -/
theorem Config.prepared_nodup (once : (received.map Message.worker).Nodup) : (cfg.prepared received).Nodup := by
  rw [Config.prepared, nodup_append]
  refine ⟨?_, ?_, ?_⟩
  · exact cfg.abstractTasks_nodup.map fun a b same => Worker.emgw.inj same
  · refine Nodup.map (fun a b same => Worker.plugins.inj same) ?_
    rw [nodup_flatMap]
    constructor
    · intro message _
      cases message with
      | abstract atask models => exact cfg.tasks_nodup atask _
      | task task solution => exact nodup_nil
    · refine (pairwise_map.mp once).imp fun {a b} differ => ?_
      intro task mem mem'
      exact differ ((Config.abstract_of_mem_spawned mem).trans (Config.abstract_of_mem_spawned mem').symm)
  · rintro _ mem _ mem' rfl
    obtain ⟨_, -, rfl⟩ := List.mem_map.mp mem
    obtain ⟨_, -, same⟩ := List.mem_map.mp mem'
    cases same

theorem Config.mem_prepared_plugins : .plugins task ∈ cfg.prepared received ↔
    ∃ message ∈ received, task ∈ cfg.spawned message := by
  simp [Config.prepared, mem_flatMap]

theorem Config.mem_prepared_emgw : .emgw atask ∈ cfg.prepared received ↔ atask ∈ cfg.abstractTasks := by
  simp [Config.prepared]

theorem Config.abstractTasks_ne_nil_iff (cfg : Config F R) :
    cfg.abstractTasks ≠ [] ↔ cfg.fragmentDescs ≠ [] ∧ cfg.reqSpecClasses ≠ [] := by
  rw [Config.abstractTasks, Ne, flatMap_eq_nil_iff]
  constructor
  · intro some
    constructor
    · intro none
      rw [none] at some
      exact some fun _ mem => absurd mem not_mem_nil
    · intro none
      rw [none] at some
      exact some fun _ _ => rfl
  · rintro ⟨fragments, classes⟩ none
    obtain ⟨fragment, mem⟩ := exists_mem_of_ne_nil _ fragments
    have empty := none fragment mem
    rw [map_eq_nil_iff, range_eq_nil] at empty
    exact classes (eq_nil_of_length_eq_zero empty)

/-- Each abstract task counts for as many tasks as there are requirement specifications in its class. -/
theorem Config.sum_rules (cfg : Config F R) :
    (cfg.abstractTasks.map fun atask => (cfg.rules atask.ruleClass).length).sum = cfg.expectedTasks := by
  have classes : (List.range cfg.reqSpecClasses.length).map (fun ruleClass => (cfg.rules ruleClass).length) =
      cfg.reqSpecClasses.map List.length := by
    refine ext_getElem (by simp) fun n _ lt => ?_
    rw [length_map] at lt
    simp [Config.rules, lt]
  rw [Config.abstractTasks, map_flatMap, Config.expectedTasks, ← classes]
  induction cfg.fragmentDescs with
  | nil => simp
  | cons fragment rest ih =>
    rw [flatMap_cons, sum_append, ih, length_cons, Nat.succ_mul, Nat.add_comm, List.map_map]
    rfl

/-! ## Submitting -/

variable {state : State F R} {isAlive : Worker F R → Bool}

/-- Workers are taken from the end of the list. -/
theorem State.startWorkers_eq (state : State F R) {rest batch : List (Worker F R)} (is : state.prepare = rest ++ batch) :
    state.startWorkers batch.length = { state with
      prepare := rest
      prepareWorkers := state.prepareWorkers ++ batch.reverse
      started := state.started ++ batch.reverse } := by
  induction batch using List.reverseRecOn generalizing state with
  | nil =>
    rw [append_nil] at is
    rw [← is]
    simp [State.startWorkers]
  | append_singleton batch worker ih =>
    rw [← append_assoc] at is
    rw [length_append, length_singleton, State.startWorkers, is, getLast?_concat]
    simp only [dropLast_concat]
    rw [ih _ rfl]
    simp

/-- The number of workers that are started. -/
def State.quota (cfg : Config F R) (state : State F R) (isAlive : Worker F R → Bool) : Nat :=
  min (min (cfg.maxTasks - state.waiting) state.prepare.length)
    (state.maxWorkerThreads - (state.prepareWorkers.filter isAlive).length) |>.toNat

/-- What is submitted: some of the last workers. -/
theorem State.gradualSubmit_eq (cfg : Config F R) (state : State F R) (isAlive : Worker F R → Bool) :
    ∃ rest batch, state.prepare = rest ++ batch ∧ batch.length = state.quota cfg isAlive ∧
      state.gradualSubmit cfg isAlive = { state with
        waiting := state.waiting + batch.length
        prepare := rest
        prepareWorkers := state.prepareWorkers.filter isAlive ++ batch.reverse
        started := state.started ++ batch.reverse } := by
  obtain ⟨quota, is⟩ : ∃ quota : Int, quota =
      min (min (if (cfg.maxTasks : Int) > state.waiting then cfg.maxTasks - state.waiting else 0) state.prepare.length)
        (state.maxWorkerThreads - (state.prepareWorkers.filter isAlive).length) := ⟨_, rfl⟩
  have count : quota.toNat = state.quota cfg isAlive := by
    rw [State.quota, is]
    split <;> omega
  obtain ⟨rest, batch, split, length⟩ : ∃ rest batch, state.prepare = rest ++ batch ∧
      batch.length = state.quota cfg isAlive := by
    refine ⟨_, _, (take_append_drop (state.prepare.length - state.quota cfg isAlive) _).symm, ?_⟩
    rw [length_drop]
    omega
  refine ⟨rest, batch, split, length, ?_⟩
  have submitted : max 0 quota = batch.length := by
    omega
  have done := State.startWorkers_eq { state with prepareWorkers := state.prepareWorkers.filter isAlive } split
  rw [length, ← count] at done
  simp only [State.gradualSubmit, ← is, done, submitted]

/-! ## Workers -/

/-- Workers that have sent messages. -/
def State.reported (state : State F R) : List (Worker F R) := state.received.map Message.worker

/-- Each worker is prepared once and started at most once, and those that wait have sent nothing. -/
structure Workers (cfg : Config F R) (state : State F R) : Prop where
  prepared : (state.started ++ state.prepare).Perm (cfg.prepared state.received)
  once : state.reported.Nodup
  reported : ∀ worker ∈ state.reported, worker ∈ state.started
  waiting : state.waiting = state.started.length - state.received.length
  bound : state.waiting ≤ cfg.maxTasks
  alive : ∀ worker ∈ state.prepareWorkers, worker ∈ state.started
  threads : 0 < state.maxWorkerThreads

def Message.isAbstract : Message F R → Bool
  | .abstract _ _ => true
  | .task _ _ => false

/-- The abstract task of a message. -/
def Message.atask? : Message F R → Option (Abstract F)
  | .abstract atask _ => some atask
  | .task _ _ => none

def Worker.isPlugins : Worker F R → Bool
  | .emgw _ => false
  | .plugins _ => true

theorem Workers.start (cfg : Config F R) : Workers cfg (.start cfg) where
  prepared := by simp [State.start, Config.prepared]
  once := nodup_nil
  reported := fun _ mem => absurd mem not_mem_nil
  waiting := rfl
  bound := Int.natCast_nonneg _
  alive := fun _ mem => absurd mem not_mem_nil
  threads := cfg.emgThreads_pos

/-- Workers that are submitted are started and wait. -/
theorem Workers.gradualSubmit (workers : Workers cfg state) (isAlive : Worker F R → Bool) :
    Workers cfg (state.gradualSubmit cfg isAlive) := by
  obtain ⟨rest, batch, split, length, is⟩ := State.gradualSubmit_eq cfg state isAlive
  have quota := workers.bound
  have perm := workers.prepared
  have waiting := workers.waiting
  rw [is]
  refine ⟨?_, workers.once, fun worker mem => mem_append_left _ (workers.reported worker mem), ?_, ?_, ?_,
    workers.threads⟩
  · rw [split] at perm
    refine List.Perm.trans ?_ perm
    rw [append_assoc]
    refine Perm.append_left _ ?_
    exact (perm_append_comm.trans ((reverse_perm batch).append_left rest))
  · simp only [length_append, length_reverse]
    push_cast
    omega
  · simp only [length, State.quota]
    omega
  · intro worker mem
    rcases mem_append.mp mem with old | new
    · exact mem_append_left _ (workers.alive worker (mem_filter.mp old).1)
    · exact mem_append_right _ new

theorem Workers.mem_prepared (workers : Workers cfg state) {worker : Worker F R} (started : worker ∈ state.started) :
    worker ∈ cfg.prepared state.received :=
  workers.prepared.mem_iff.mp (mem_append_left _ started)

theorem Workers.mem_spawned (workers : Workers cfg state) (started : .plugins task ∈ state.started) :
    task ∈ state.received.flatMap cfg.spawned :=
  mem_flatMap.mpr (Config.mem_prepared_plugins.mp (workers.mem_prepared started))

theorem length_filterMap_atask? (received : List (Message F R)) :
    (received.filterMap Message.atask?).length = received.countP Message.isAbstract := by
  induction received with
  | nil => rfl
  | cons message rest ih =>
    rw [filterMap_cons, countP_cons, ← ih]
    cases message <;> rfl

theorem mem_filterMap_atask? :
    atask ∈ received.filterMap Message.atask? ↔ .emgw atask ∈ received.map Message.worker := by
  simp only [mem_filterMap, List.mem_map]
  refine exists_congr fun message => and_congr_right fun _ => ?_
  cases message <;> simp [Message.atask?, Message.worker]

/-- The measure: abstract tasks that are left, then workers that have not sent messages. -/
def State.work (state : State F R) : Nat ×ₗ Nat :=
  toLex (state.leftAbstractTasks.toNat, state.prepare.length + state.waiting.toNat)

section Waiting

variable (workers : Workers cfg state)

include workers

/-- Each abstract task is answered once. -/
theorem Workers.atasks_nodup : (state.received.filterMap Message.atask?).Nodup := by
  refine Pairwise.filterMap Message.atask? ?_ (pairwise_map.mp workers.once)
  intro a b differ atask is atask' is' same
  subst same
  refine differ ?_
  cases a with
  | task => cases is
  | abstract =>
    cases is
    cases b with
    | task => cases is'
    | abstract =>
      cases is'
      rfl

/-- While an abstract task is not answered, some are left. -/
theorem Workers.left_pos (started : .emgw atask ∈ state.started)
    (new : .emgw atask ∉ state.reported) : state.received.countP Message.isAbstract < cfg.abstractTasks.length := by
  have subset : atask :: state.received.filterMap Message.atask? ⊆ cfg.abstractTasks := by
    intro other mem
    apply Config.mem_prepared_emgw.mp
    apply workers.mem_prepared
    rcases mem_cons.mp mem with rfl | mem
    · exact started
    · exact workers.reported _ (mem_filterMap_atask?.mp mem)
  have nodup : (atask :: state.received.filterMap Message.atask?).Nodup :=
    nodup_cons.mpr ⟨fun mem => new (mem_filterMap_atask?.mp mem), workers.atasks_nodup⟩
  have le := (subperm_of_subset nodup subset).length_le
  rw [length_cons, length_filterMap_atask?] at le
  exact le

theorem Workers.started_nodup : state.started.Nodup :=
  (nodup_append.mp (workers.prepared.nodup_iff.mpr (Config.prepared_nodup workers.once))).1

theorem Workers.nonneg : 0 ≤ state.waiting := by
  have le := (subperm_of_subset workers.once workers.reported).length_le
  rw [State.reported, length_map] at le
  have waiting := workers.waiting
  omega

/-- Nobody waits exactly when all started workers have sent messages. -/
theorem Workers.waiting_eq_zero_iff : state.waiting = 0 ↔ ∀ worker ∈ state.started, worker ∈ state.reported := by
  have waiting := workers.waiting
  have length : state.reported.length = state.received.length := length_map _
  constructor
  · intro zero
    have perm : state.reported.Perm state.started :=
      (subperm_of_subset workers.once workers.reported).perm_of_length_le (by omega)
    exact fun worker mem => perm.mem_iff.mpr mem
  · intro all
    have le := (subperm_of_subset workers.started_nodup all).length_le
    have nonneg := workers.nonneg
    omega

theorem Workers.waiting_pos {worker : Worker F R} (started : worker ∈ state.started)
    (new : worker ∉ state.reported) : 0 < state.waiting := by
  refine lt_of_le_of_ne workers.nonneg fun zero => ?_
  exact new (workers.waiting_eq_zero_iff.mp zero.symm worker started)

/-- Something is submitted if nobody waits and nobody is alive. -/
theorem Workers.quota_pos (prepared : state.prepare ≠ []) (idle : state.waiting = 0)
    (dead : ∀ worker ∈ state.started, isAlive worker = false) : 0 < state.quota cfg isAlive := by
  have none : state.prepareWorkers.filter isAlive = [] := by
    rw [filter_eq_nil_iff]
    intro worker mem
    rw [dead worker (workers.alive worker mem)]
    exact Bool.false_ne_true
  have length := length_pos_of_ne_nil prepared
  have max := cfg.maxTasks_pos
  have threads := workers.threads
  rw [State.quota, none, idle]
  simp only [length_nil]
  omega

theorem Workers.work_gradualSubmit (isAlive : Worker F R → Bool) :
    (state.gradualSubmit cfg isAlive).work = state.work := by
  obtain ⟨rest, batch, split, length, is⟩ := State.gradualSubmit_eq cfg state isAlive
  have nonneg := workers.nonneg
  have lengths := congrArg List.length split
  rw [length_append] at lengths
  rw [is, State.work, State.work]
  refine congrArg (fun n => toLex (state.leftAbstractTasks.toNat, n)) ?_
  dsimp only
  omega

variable (ends : ¬ state.continues)

include ends

/-- At the end the workers that have sent messages are all prepared ones. -/
theorem Workers.reported_perm :
    state.started.Perm (cfg.prepared state.received) ∧ state.reported.Perm (cfg.prepared state.received) := by
  rw [State.continues, not_or, not_not, not_not] at ends
  have prepared := workers.prepared
  rw [ends.1, append_nil] at prepared
  refine ⟨prepared, .trans ?_ prepared⟩
  rw [perm_ext_iff_of_nodup workers.once workers.started_nodup]
  exact fun worker => ⟨workers.reported worker, workers.waiting_eq_zero_iff.mp ends.2 worker⟩

theorem Workers.atasks_perm :
    (state.received.filterMap Message.atask?).Perm cfg.abstractTasks := by
  rw [perm_ext_iff_of_nodup workers.atasks_nodup cfg.abstractTasks_nodup]
  intro atask
  rw [mem_filterMap_atask?, ← Config.mem_prepared_emgw]
  exact (workers.reported_perm ends).2.mem_iff

/-- As many messages on tasks come as there are tasks. -/
theorem Workers.countP_tasks :
    state.received.countP (!·.isAbstract) = (state.received.flatMap cfg.spawned).length := by
  have count := (workers.reported_perm ends).2.countP_eq Worker.isPlugins
  have emgw : (cfg.abstractTasks.map (Worker.emgw (R := R))).countP Worker.isPlugins = 0 := by
    rw [countP_eq_zero]
    intro worker mem
    obtain ⟨_, -, rfl⟩ := List.mem_map.mp mem
    exact Bool.false_ne_true
  have plugins : ((state.received.flatMap cfg.spawned).map .plugins).countP Worker.isPlugins =
      (state.received.flatMap cfg.spawned).length := by
    rw [countP_map, countP_eq_length]
    exact fun _ _ => rfl
  rw [State.reported, countP_map, Config.prepared, countP_append, emgw, plugins, Nat.zero_add] at count
  rw [← count]
  refine countP_congr fun message _ => ?_
  cases message <;> rfl

end Waiting

/-! ## Numbers of tasks -/

/-- The number of statuses that are sent at a message. -/
def Config.statusesOf (cfg : Config F R) : Message F R → Nat
  | .abstract atask models => if models.getD 0 = 0 ∧ cfg.singleModel then (cfg.rules atask.ruleClass).length else 0
  | .task _ _ => 1

/-- Numbers of tasks follow from messages. -/
structure Numbers (cfg : Config F R) (state : State F R) : Prop where
  single : cfg.singleModel = true → ∀ message ∈ state.received, message.models ≤ 1
  left : state.leftAbstractTasks = cfg.abstractTasks.length - state.received.countP Message.isAbstract
  statuses : state.statuses.length = (state.received.map cfg.statusesOf).sum
  total : state.totalTasks = if cfg.singleModel then cfg.expectedTasks else (state.received.flatMap cfg.spawned).length
  announced : state.announced = if cfg.singleModel then [cfg.expectedTasks]
    else if cfg.abstractTasks ≠ [] ∧ state.leftAbstractTasks = 0 then [state.totalTasks] else []

theorem Numbers.start (cfg : Config F R) : Numbers cfg (.start cfg) where
  single := fun _ _ mem => absurd mem not_mem_nil
  left := by simp [State.start]
  statuses := rfl
  total := rfl
  announced := by
    by_cases single : cfg.singleModel = true
    · rw [if_pos single]
      exact if_pos single
    · have none : ¬ (cfg.abstractTasks ≠ [] ∧ (State.start cfg).leftAbstractTasks = 0) := by
        rintro ⟨tasks, zero⟩
        exact tasks (eq_nil_of_length_eq_zero (Int.natCast_eq_zero.mp zero))
      rw [if_neg single, if_neg none]
      exact if_neg single

theorem sum_statusesOf_of_multiple (multiple : cfg.singleModel = false) (received : List (Message F R)) :
    (received.map cfg.statusesOf).sum = received.countP (!·.isAbstract) := by
  induction received with
  | nil => rfl
  | cons message rest ih =>
    rw [map_cons, sum_cons, ih, countP_cons, Nat.add_comm]
    cases message with
    | abstract atask models => simp [Config.statusesOf, multiple, Message.isAbstract]
    | task task solution => rfl

/-- With a single model, each abstract task gives either tasks or failures. -/
theorem sum_statusesOf_of_single (single : cfg.singleModel = true) (received : List (Message F R))
    (models : ∀ message ∈ received, message.models ≤ 1) :
    (received.map cfg.statusesOf).sum + (received.flatMap cfg.spawned).length = received.countP (!·.isAbstract) +
      ((received.filterMap Message.atask?).map fun atask => (cfg.rules atask.ruleClass).length).sum := by
  induction received with
  | nil => rfl
  | cons message rest ih =>
    have rests := ih fun other mem => models other (mem_cons_of_mem _ mem)
    have one := models message mem_cons_self
    rw [map_cons, sum_cons, flatMap_cons, length_append, countP_cons]
    cases message with
    | task task solution =>
      have status : (cfg.statusesOf (.task task solution)) = 1 := rfl
      have spawned : (cfg.spawned (.task task solution)).length = 0 := rfl
      have isTask : (!(Message.task task solution).isAbstract) = true := rfl
      have none : (Message.task task solution).atask? = none := rfl
      rw [filterMap_cons_none none, if_pos isTask]
      omega
    | abstract atask count =>
      have number : cfg.statusesOf (.abstract atask count) + (cfg.spawned (.abstract atask count)).length =
          (cfg.rules atask.ruleClass).length := by
        simp only [Message.models] at one
        rw [Config.statusesOf, Config.spawned, Config.length_tasks, single]
        obtain zero | is : count.getD 0 = 0 ∨ count.getD 0 = 1 := by omega
        · simp [zero]
        · simp [is]
      have isAbstract : ¬ (!(Message.abstract (R := R) atask count).isAbstract) = true := Bool.false_ne_true
      have known : (Message.abstract (R := R) atask count).atask? = some atask := rfl
      rw [filterMap_cons_some known, if_neg isAbstract, map_cons, sum_cons]
      omega

/-- The number of statuses at the end. -/
theorem Numbers.statuses_eq (numbers : Numbers cfg state) (workers : Workers cfg state) (ends : ¬ state.continues) :
    state.statuses.length = state.totalTasks := by
  have tasks := workers.countP_tasks ends
  rw [numbers.statuses, numbers.total]
  by_cases single : cfg.singleModel = true
  · have sum := sum_statusesOf_of_single single state.received (numbers.single single)
    rw [((workers.atasks_perm ends).map _).sum_eq, cfg.sum_rules] at sum
    rw [if_pos single]
    omega
  · rw [if_neg single, sum_statusesOf_of_multiple (Bool.eq_false_iff.mpr single), tasks]

/-- The total number of tasks is announced once, unless nothing is to be verified. -/
theorem Numbers.announced_iff (numbers : Numbers cfg state) (workers : Workers cfg state) (ends : ¬ state.continues) :
    state.announced = [state.statuses.length] ↔
      cfg.singleModel = true ∨ (cfg.fragmentDescs ≠ [] ∧ cfg.reqSpecClasses ≠ []) := by
  have left : state.leftAbstractTasks = 0 := by
    rw [numbers.left, ← length_filterMap_atask?, (workers.atasks_perm ends).length_eq, Int.sub_self]
  rw [numbers.statuses_eq workers ends, numbers.announced, ← Config.abstractTasks_ne_nil_iff]
  by_cases single : cfg.singleModel = true
  · rw [if_pos single, numbers.total, if_pos single]
    exact iff_of_true rfl (.inl single)
  · rw [if_neg single]
    by_cases some : cfg.abstractTasks ≠ []
    · rw [if_pos ⟨some, left⟩]
      exact iff_of_true rfl (.inr some)
    · rw [if_neg fun both => some both.1]
      exact iff_of_false nofun fun either => either.elim single some

end Klever.Core.Vtg
