import Klever.Core.Vtg

/-!
# Accounting of VTG

Workers, numbers of tasks and sets of tasks stay in accord with the messages that have come, whatever the order of messages
is, so no lookup fails. Each message takes some work away, and while there is work a message comes at last: a worker that
has been started sends one, and when all of them have done so their places become free for the next ones. So the loop ends.
-/

namespace Klever.Core.Vtg

open Klever.Lib List Option Klever.Core.Vtg.Message Klever.Core.Vtg.State

variable {F R : Type} [DecidableEq F]

/-! ## Directories -/

/-- Sets of tasks are right, and directories are removed after all tasks are done. -/
structure Directories (cfg : Config F R) (received : List (Message F R))
    (ataskTasks : Dict (Abstract F) (Finset (Task F R))) (removed : List (Abstract F)) : Prop where
  known : cfg.keepDirs = false → ∀ task ∈ received.flatMap cfg.spawned, .plugins task ∉ received.map worker →
    (ataskTasks.get? task.abstract).isSome
  right : cfg.keepDirs = false → ∀ atask tasks, ataskTasks.get? atask = some tasks → ∀ task, task ∈ tasks ↔
    task.abstract = atask ∧ task ∈ received.flatMap cfg.spawned ∧ .plugins task ∉ received.map worker
  removed : ∀ atask ∈ removed, .emgw atask ∈ received.map worker ∧
    ∀ task ∈ received.flatMap cfg.spawned, task.abstract = atask → .plugins task ∈ received.map worker

/-- All that holds in the loop. -/
structure Accounts (cfg : Config F R) (state : State F R) : Prop where
  workers : Workers cfg state
  numbers : Numbers cfg state
  directories : Directories cfg state.received state.ataskTasks state.removed

section Directories

variable {cfg : Config F R} {received : List (Message F R)} {ataskTasks : Dict (Abstract F) (Finset (Task F R))}
  {removed : List (Abstract F)} {task : Task F R} {solution : Bool} {tasks : Finset (Task F R)}

omit [DecidableEq F] in
/-- A spawned task has an answered abstract task. -/
theorem reported_of_mem_spawned (mem : task ∈ received.flatMap cfg.spawned) :
    .emgw task.abstract ∈ received.map worker := by
  obtain ⟨message, was, mem⟩ := mem_flatMap.mp mem
  rw [← Config.abstract_of_mem_spawned mem]
  exact List.mem_map_of_mem was

omit [DecidableEq F] in
theorem mem_reported_task {worker : Worker F R} :
    worker ∈ (received ++ [Message.task task solution]).map Message.worker ↔
      worker ∈ received.map Message.worker ∨ worker = .plugins task := by
  rw [map_append, mem_append, map_singleton, mem_singleton]
  rfl

omit [DecidableEq F] in
theorem flatMap_spawned_task :
    (received ++ [Message.task task solution]).flatMap cfg.spawned = received.flatMap cfg.spawned := by
  rw [flatMap_append, flatMap_singleton]
  exact append_nil _

section

variable (directories : Directories cfg received ataskTasks removed)

include directories

/-- Sets of other abstract tasks stay right. -/
theorem Directories.right_of_ne
    (delete : cfg.keepDirs = false) {other : Abstract F} (found : ataskTasks.get? other = some tasks)
    (differs : other ≠ task.abstract) (task' : Task F R) : task' ∈ tasks ↔
      task'.abstract = other ∧ task' ∈ (received ++ [Message.task task solution]).flatMap cfg.spawned ∧
        Worker.plugins task' ∉ (received ++ [Message.task task solution]).map Message.worker := by
  rw [flatMap_spawned_task, mem_reported_task, directories.right delete other tasks found task']
  refine and_congr_right fun is => and_congr_right fun _ => not_congr ?_
  refine (or_iff_left fun same => ?_).symm
  cases same
  exact differs is.symm

/-- Removed directories stay done. -/
theorem Directories.removed_task {other : Abstract F}
    (was : other ∈ removed) : Worker.emgw other ∈ (received ++ [Message.task task solution]).map Message.worker ∧
      ∀ task' ∈ (received ++ [Message.task task solution]).flatMap cfg.spawned, task'.abstract = other →
        Worker.plugins task' ∈ (received ++ [Message.task task solution]).map Message.worker := by
  obtain ⟨answered, done⟩ := directories.removed other was
  rw [flatMap_spawned_task]
  exact ⟨mem_reported_task.mpr (.inl answered), fun task' mem is => mem_reported_task.mpr (.inl (done task' mem is))⟩

/-- A task is in the set of its abstract task until its message comes. -/
theorem Directories.found (delete : cfg.keepDirs = false)
    (mem : task ∈ received.flatMap cfg.spawned) (new : .plugins task ∉ received.map worker) :
    ∃ tasks, ataskTasks.get? task.abstract = some tasks ∧ task ∈ tasks := by
  obtain ⟨tasks, found⟩ := isSome_iff_exists.mp (directories.known delete task mem new)
  exact ⟨tasks, found, (directories.right delete _ tasks found task).mpr ⟨rfl, mem, new⟩⟩

end

variable [DecidableEq R] (directories : Directories cfg received ataskTasks removed)

include directories

/-- Directories after a message on an abstract task. -/
theorem Directories.abstract {atask : Abstract F} {models : Option Nat} (new : .emgw atask ∉ received.map worker)
    (spawned : ∀ task, .plugins task ∈ received.map worker → task ∈ received.flatMap cfg.spawned) :
    Directories cfg (received ++ [abstract atask models]) (if models.isSome ∧ cfg.keepDirs = false then
      ataskTasks.set atask (cfg.tasks atask (models.getD 0)).toFinset else ataskTasks) removed := by
  obtain ⟨tasks, eqTasks⟩ : ∃ tasks, tasks = cfg.tasks atask (models.getD 0) := ⟨_, rfl⟩
  have owner {task : Task F R} (mem : task ∈ tasks) : task.abstract = atask := by
    rw [eqTasks] at mem
    exact (Config.mem_tasks.mp mem).1
  have older {task : Task F R} (mem : task ∈ received.flatMap cfg.spawned) : task.abstract ≠ atask := by
    intro same
    exact new (same ▸ reported_of_mem_spawned mem)
  have fresh {task : Task F R} (mem : task ∈ tasks) : .plugins task ∉ received.map worker := by
    intro done
    exact older (spawned task done) (owner mem)
  have all (task : Task F R) : task ∈ (received ++ [Message.abstract atask models]).flatMap cfg.spawned ↔
      task ∈ received.flatMap cfg.spawned ∨ task ∈ tasks := by
    rw [flatMap_append, flatMap_singleton, mem_append, eqTasks]
    rfl
  have reported (task : Task F R) :
      .plugins task ∈ (received ++ [Message.abstract atask models]).map Message.worker ↔
        .plugins task ∈ received.map worker := by
    simp [worker]
  rw [← eqTasks]
  constructor
  · intro keep task mem waits
    rw [reported] at waits
    rcases (all task).mp mem with old | now
    · have known := directories.known keep task old waits
      split
      · rw [Dict.get?_set_of_ne _ _ (older old)]
        exact known
      · exact known
    · have answered : models.isSome ∧ cfg.keepDirs = false := by
        refine ⟨?_, keep⟩
        cases models with
        | some count => rfl
        | none =>
          rw [eqTasks] at now
          cases now
      rw [if_pos answered, owner now, Dict.get?_set_self]
      rfl
  · intro keep other set found task
    rw [all, reported]
    by_cases answered : models.isSome ∧ cfg.keepDirs = false
    · rw [if_pos answered] at found
      obtain ⟨rfl, rfl⟩ | ⟨differs, found⟩ := Dict.of_get?_set found
      · rw [List.mem_toFinset]
        constructor
        · intro mem
          exact ⟨owner mem, .inr mem, fresh mem⟩
        · rintro ⟨is, mem, -⟩
          exact mem.resolve_left fun old => older old is
      · rw [directories.right keep other set found task]
        refine and_congr_right fun is => and_congr_left fun _ => ?_
        refine (or_iff_left fun mem => ?_).symm
        exact differs (is.symm.trans (owner mem))
    · have none : tasks = [] := by
        rw [not_and] at answered
        cases models with
        | some count => exact absurd keep (answered rfl)
        | none => exact eqTasks
      rw [if_neg answered] at found
      rw [directories.right keep other set found task, none, or_iff_left not_mem_nil]
  · intro other was
    obtain ⟨answered, done⟩ := directories.removed other was
    refine ⟨?_, fun task mem is => ?_⟩
    · rw [map_append]
      exact mem_append_left _ answered
    · rw [reported]
      rcases (all task).mp mem with old | now
      · exact done task old is
      · rw [← is, owner now] at answered
        exact absurd answered new

variable (delete : cfg.keepDirs = false) (found : ataskTasks.get? task.abstract = some tasks)

include delete found

/-- What is left of the set. -/
theorem Directories.mem_erase (task' : Task F R) : task' ∈ tasks.erase task ↔
      task'.abstract = task.abstract ∧ task' ∈ (received ++ [Message.task task solution]).flatMap cfg.spawned ∧
        Worker.plugins task' ∉ (received ++ [Message.task task solution]).map Message.worker := by
  rw [Finset.mem_erase, directories.right delete _ tasks found task', flatMap_spawned_task, mem_reported_task, not_or,
    Worker.plugins.injEq]
  tauto

/-- Directories after a message on the last task of an abstract task. -/
theorem Directories.last (mem : task ∈ received.flatMap cfg.spawned) (last : tasks.erase task = ∅) :
    Directories cfg (received ++ [Message.task task solution]) (ataskTasks.erase task.abstract)
      (removed ++ [task.abstract]) := by
  have done (task' : Task F R) (mem' : task' ∈ (received ++ [Message.task task solution]).flatMap cfg.spawned)
      (is : task'.abstract = task.abstract) :
      .plugins task' ∈ (received ++ [Message.task task solution]).map Message.worker := by
    by_contra waits
    have left := (directories.mem_erase delete found task').mpr ⟨is, mem', waits⟩
    rw [last] at left
    exact Finset.notMem_empty _ left
  constructor
  · intro _ task' mem' waits
    rw [Dict.get?_erase, if_neg fun is => waits (done task' mem' is)]
    rw [flatMap_spawned_task] at mem'
    rw [mem_reported_task, not_or] at waits
    exact directories.known delete task' mem' waits.1
  · intro _ other set found' task'
    rw [Dict.get?_erase] at found'
    split at found'
    next => cases found'
    next differs => exact directories.right_of_ne delete found' differs task'
  · intro other was
    rcases mem_append.mp was with old | now
    · exact directories.removed_task old
    · rw [mem_singleton.mp now]
      exact ⟨mem_reported_task.mpr (.inl (reported_of_mem_spawned mem)), done⟩

/-- Directories after a message on another task. -/
theorem Directories.other : Directories cfg (received ++ [Message.task task solution])
      (ataskTasks.set task.abstract (tasks.erase task)) removed := by
  refine ⟨fun _ task' mem' waits => ?_, fun _ other set found' task' => ?_, fun _ was => directories.removed_task was⟩
  · rw [flatMap_spawned_task] at mem'
    rw [mem_reported_task, not_or] at waits
    exact Dict.isSome_get?_set.mpr (.inl (directories.known delete task' mem' waits.1))
  · obtain ⟨same, rfl⟩ | ⟨differs, found'⟩ := Dict.of_get?_set found'
    · rw [same]
      exact directories.mem_erase delete found task'
    · exact directories.right_of_ne delete found' differs task'

end Directories

/-! ## Messages -/

section Messages

variable {cfg : Config F R} {state state' : State F R} {message : Message F R}

theorem Accounts.start (cfg : Config F R) : Accounts cfg (.start cfg) where
  workers := Workers.start cfg
  numbers := Numbers.start cfg
  directories := by
    refine ⟨fun _ _ mem => absurd mem not_mem_nil, fun _ _ _ found => ?_, fun _ mem => absurd mem not_mem_nil⟩
    cases found

/-- What is submitted touches neither numbers nor directories. -/
theorem Accounts.gradualSubmit (accounts : Accounts cfg state) (isAlive : Worker F R → Bool) :
    Accounts cfg (state.gradualSubmit cfg isAlive) := by
  refine ⟨accounts.workers.gradualSubmit isAlive, ?_, ?_⟩
  all_goals
    obtain ⟨_, _, _, _, is⟩ := gradualSubmit_eq cfg state isAlive
    rw [is]
  · have numbers := accounts.numbers
    exact ⟨numbers.single, numbers.left, numbers.statuses, numbers.total, numbers.announced⟩
  · exact accounts.directories

variable [DecidableEq R]

/-- A message on an abstract task. -/
theorem State.receiveAbstract_eq (atask : Abstract F) (models : Option Nat) :
    state.receiveAbstract cfg atask models = { state with
      leftAbstractTasks := state.leftAbstractTasks - 1
      ataskTasks := if models.isSome ∧ cfg.keepDirs = false then
        state.ataskTasks.set atask (cfg.tasks atask (models.getD 0)).toFinset else state.ataskTasks
      prepare := state.prepare ++ (cfg.tasks atask (models.getD 0)).map .plugins
      totalTasks := if cfg.singleModel then state.totalTasks
        else state.totalTasks + (cfg.tasks atask (models.getD 0)).length
      statuses := state.statuses ++ if models.getD 0 = 0 ∧ cfg.singleModel then
        (cfg.rules atask.ruleClass).map fun _ => .failed else []
      announced := state.announced ++ if cfg.singleModel = false ∧ state.leftAbstractTasks - 1 = 0 then
        [state.totalTasks + (cfg.tasks atask (models.getD 0)).length] else []
      maxWorkerThreads := if state.isAgileThreads then cfg.pluginsThreads else state.maxWorkerThreads
      isAgileThreads := false } := by
  have none : cfg.tasks atask 0 = [] := rfl
  simp only [receiveAbstract]
  by_cases zero : models.getD 0 = 0 <;> by_cases single : cfg.singleModel = true <;>
    by_cases last : state.leftAbstractTasks - 1 = 0 <;> by_cases agile : state.isAgileThreads = true <;>
    by_cases dirs : models.isSome ∧ cfg.keepDirs = false <;>
    simp [zero, single, last, agile, dirs, none]

/-- A message on a task touches directories and adds a status. -/
theorem State.receiveTask_frame {task : Task F R} {solution : Bool}
    (got : state.receiveTask cfg task solution = some state') : ∃ tasks removed, state' = { state with
      ataskTasks := tasks, removed := removed
      statuses := state.statuses ++ [if solution then .finished else .failed] } := by
  simp only [receiveTask] at got
  split at got
  next => exact ⟨_, _, (some.inj got).symm⟩
  next =>
    split at got
    next =>
      split at got
      next =>
        split at got
        all_goals exact ⟨_, _, (some.inj got).symm⟩
      next => cases got
    next => cases got

/-- What a message does to workers. -/
theorem State.receive_frame (got : state.receive cfg message = some state') :
    state'.started = state.started ∧ state'.prepareWorkers = state.prepareWorkers ∧
      state'.prepare = state.prepare ++ (cfg.spawned message).map .plugins ∧
      state'.received = state.received ++ [message] ∧ state'.waiting = state.waiting - 1 ∧
      (0 < state.maxWorkerThreads → 0 < state'.maxWorkerThreads) := by
  cases message with
  | abstract atask models =>
    rw [receive, some.injEq] at got
    rw [← got, receiveAbstract_eq]
    refine ⟨rfl, rfl, rfl, rfl, rfl, fun pos => ?_⟩
    dsimp only
    split
    · exact cfg.pluginsThreads_pos
    · exact pos
  | task task solution =>
    obtain ⟨_, _, rfl⟩ := receiveTask_frame got
    exact ⟨rfl, rfl, (append_nil _).symm, rfl, rfl, fun pos => pos⟩

section

variable (started : message.worker ∈ state.started) (new : message.worker ∉ state.reported)

include started new

/-- A worker that has just sent its message waits no more. -/
theorem Workers.receive (workers : Workers cfg state) (got : state.receive cfg message = some state') :
    Workers cfg state' := by
  obtain ⟨started', workers', prepare', received', waiting', threads'⟩ := receive_frame got
  have reported' : state'.reported = state.reported ++ [message.worker] := by
    rw [State.reported, received', map_append]
    rfl
  have waiting := workers.waiting
  have bound := workers.bound
  refine ⟨?_, ?_, fun worker mem => ?_, ?_, ?_, ?_, threads' workers.threads⟩
  · rw [started', prepare', received', Config.prepared_append, ← append_assoc]
    exact workers.prepared.append_right _
  · rw [reported', ← concat_eq_append]
    exact workers.once.concat new
  · rw [reported', mem_append, mem_singleton] at mem
    rw [started']
    rcases mem with old | rfl
    · exact workers.reported worker old
    · exact started
  · rw [waiting', started', received', length_append, length_singleton]
    push_cast
    omega
  · omega
  · rw [workers', started']
    exact workers.alive

/-- Numbers after a message. -/
theorem Numbers.receive (workers : Workers cfg state) (numbers : Numbers cfg state)
    (models : cfg.singleModel = true → message.models ≤ 1) (got : state.receive cfg message = some state') :
    Numbers cfg state' := by
  obtain ⟨-, -, -, received', -⟩ := receive_frame got
  have single : cfg.singleModel = true → ∀ message ∈ state'.received, message.models ≤ 1 := by
    intro single other mem
    rw [received', mem_append, mem_singleton] at mem
    rcases mem with old | rfl
    · exact numbers.single single other old
    · exact models single
  cases message with
  | task task solution =>
    obtain ⟨_, _, rfl⟩ := receiveTask_frame got
    refine ⟨single, ?_, ?_, ?_, numbers.announced⟩
    · rw [numbers.left, countP_append]
      rfl
    · rw [length_append, numbers.statuses, map_append, sum_append]
      rfl
    · rw [numbers.total, flatMap_append, flatMap_singleton, Config.spawned, append_nil]
  | abstract atask count =>
    have pos := workers.left_pos started new
    have left := numbers.left
    rw [receive, some.injEq] at got
    rw [← got, receiveAbstract_eq] at single ⊢
    refine ⟨single, ?_, ?_, ?_, ?_⟩
    · simp only [countP_append, countP_singleton, isAbstract, if_true]
      push_cast
      omega
    · simp only [length_append, numbers.statuses, map_append, sum_append, map_singleton,
        sum_singleton, Config.statusesOf]
      split <;> simp
    · simp only [numbers.total, flatMap_append, flatMap_singleton, length_append, Config.spawned]
      split <;> rfl
    · have some : cfg.abstractTasks ≠ [] := by
        intro none
        rw [none] at pos
        exact Nat.not_lt_zero _ pos
      have before : ¬ (cfg.abstractTasks ≠ [] ∧ state.leftAbstractTasks = 0) := by
        rintro ⟨-, zero⟩
        omega
      have announced := numbers.announced
      by_cases one : cfg.singleModel = true
      · simp [one] at announced ⊢
        exact announced
      · simp [one, before] at announced ⊢
        simp [announced, some]

/-- A message never makes the loop fail. -/
theorem Accounts.receive (accounts : Accounts cfg state) (models : cfg.singleModel = true → message.models ≤ 1) :
    ∃ state', state.receive cfg message = some state' ∧ Accounts cfg state' := by
  have directories := accounts.directories
  have next {state' : State F R} (got : state.receive cfg message = some state')
      (directories' : Directories cfg state'.received state'.ataskTasks state'.removed) : Accounts cfg state' :=
    ⟨accounts.workers.receive started new got, accounts.numbers.receive started new accounts.workers models got,
      directories'⟩
  cases message with
  | abstract atask count =>
    refine ⟨_, rfl, next rfl ?_⟩
    rw [receiveAbstract_eq]
    refine directories.abstract new fun task done => ?_
    exact accounts.workers.mem_spawned (accounts.workers.reported _ done)
  | task task solution =>
    have mem := accounts.workers.mem_spawned started
    let told : State F R := { state with
      waiting := state.waiting - 1, received := state.received ++ [.task task solution]
      statuses := state.statuses ++ [if solution then .finished else .failed] }
    by_cases keep : cfg.keepDirs = true
    · have got : state.receive cfg (.task task solution) = some told := by
        simp only [receive, receiveTask, if_pos keep, told]
      refine ⟨_, got, next got ⟨fun no => ?_, fun no => ?_, fun _ was => directories.removed_task was⟩⟩
      · cases keep.symm.trans no
      · cases keep.symm.trans no
    · have delete : cfg.keepDirs = false := Bool.eq_false_iff.mpr keep
      obtain ⟨tasks, found, here⟩ := directories.found delete mem new
      by_cases last : tasks.erase task = ∅
      · have got : state.receive cfg (.task task solution) = some { told with
            ataskTasks := state.ataskTasks.erase task.abstract, removed := state.removed ++ [task.abstract] } := by
          simp only [receive, receiveTask, if_neg keep, found, if_pos here, if_pos last, told]
        exact ⟨_, got, next got (directories.last delete found mem last)⟩
      · have got : state.receive cfg (.task task solution) = some { told with
            ataskTasks := state.ataskTasks.set task.abstract (tasks.erase task) } := by
          simp only [receive, receiveTask, if_neg keep, found, if_pos here, if_neg last, told]
        exact ⟨_, got, next got (directories.other delete found)⟩

/-- Each message takes some work away. -/
theorem Accounts.work_receive (accounts : Accounts cfg state) (got : state.receive cfg message = some state') :
    state'.work < state.work := by
  have pos := accounts.workers.waiting_pos started new
  rw [work, work, Prod.Lex.toLex_lt_toLex]
  cases message with
  | abstract atask models =>
    have left := accounts.workers.left_pos started new
    have number := accounts.numbers.left
    rw [State.receive, some.injEq, State.receiveAbstract_eq] at got
    rw [← got]
    left
    dsimp only
    omega
  | task task solution =>
    right
    obtain ⟨_, _, rfl⟩ := receiveTask_frame got
    refine ⟨rfl, ?_⟩
    dsimp only
    omega

end

/-- A batch of messages. -/
theorem Accounts.receiveAll (messages : List (Message F R)) (accounts : Accounts cfg state)
    (once : (messages.map worker).Nodup)
    (owner : ∀ message ∈ messages, message.worker ∈ state.started ∧ message.worker ∉ state.reported)
    (models : cfg.singleModel = true → ∀ message ∈ messages, message.models ≤ 1) :
    ∃ state', messages.foldlM (State.receive cfg) state = some state' ∧ Accounts cfg state' ∧
      state'.received = state.received ++ messages ∧ state'.started = state.started ∧
      state'.prepareWorkers = state.prepareWorkers ∧ (messages ≠ [] → state'.work < state.work) := by
  induction messages generalizing state with
  | nil => exact ⟨state, rfl, accounts, (append_nil _).symm, rfl, rfl, fun some => absurd rfl some⟩
  | cons message rest ih =>
    obtain ⟨first, once⟩ := nodup_cons.mp once
    obtain ⟨started, new⟩ := owner message mem_cons_self
    obtain ⟨middle, got, accounts'⟩ := accounts.receive started new fun single => models single message mem_cons_self
    obtain ⟨started', workers', -, received', -⟩ := receive_frame got
    have less := accounts.work_receive started new got
    obtain ⟨state', rests, accounts'', received'', started'', workers'', less'⟩ := ih accounts' once (fun other mem => by
      obtain ⟨started, new⟩ := owner other (mem_cons_of_mem _ mem)
      refine ⟨started' ▸ started, ?_⟩
      rw [reported, received', map_append, mem_append, not_or]
      refine ⟨new, fun same => first ?_⟩
      rw [← mem_singleton.mp same]
      exact List.mem_map_of_mem mem) fun single other mem => models single other (mem_cons_of_mem _ mem)
    refine ⟨state', ?_, accounts'', ?_, started''.trans started', workers''.trans workers', fun _ => ?_⟩
    · rw [foldlM_cons, got]
      exact rests
    · rw [received'', received', append_assoc]
      rfl
    · by_cases none : rest = []
      · subst none
        cases rests
        exact less
      · exact (less' none).trans less

end Messages

/-! ## Iterations -/

section Iterations

variable [DecidableEq R] {cfg : Config F R} {env : Nat → Seen F R} {state : State F R} {n : Nat}

/-- An iteration up to some message. -/
theorem Answers.during (answers : Answers cfg env) (here : stateAt cfg env n = some state) (continues : state.continues)
    (accounts : Accounts cfg state) (k : Nat) : ∃ state', state.during cfg (env n) k = some state' ∧ Accounts cfg state' ∧
      state'.received = state.received ++ (env n).messages.take k ∧
      state'.started = (state.gradualSubmit cfg (env n).isAlive).started ∧
      state'.prepareWorkers = (state.gradualSubmit cfg (env n).isAlive).prepareWorkers ∧
      ((env n).messages.take k ≠ [] → state'.work < state.work) := by
  have sub : ∀ message ∈ (env n).messages.take k, message ∈ (env n).messages := fun _ mem => mem_of_mem_take mem
  have submitted := accounts.gradualSubmit (env n).isAlive
  have received : (state.gradualSubmit cfg (env n).isAlive).received = state.received := by
    obtain ⟨_, _, _, _, is⟩ := gradualSubmit_eq cfg state (env n).isAlive
    rw [is]
  have once : (((env n).messages.take k).map worker).Nodup :=
    (answers.once n state here continues).sublist ((take_sublist k _).map _)
  obtain ⟨state', got, accounts', received', started', workers', less⟩ :=
    submitted.receiveAll ((env n).messages.take k) once (fun message mem => by
      rw [reported, received]
      exact answers.owner n state here continues message (sub message mem))
      fun single message mem => answers.single single n message (sub message mem)
  rw [received] at received'
  rw [accounts.workers.work_gradualSubmit] at less
  exact ⟨state', got, accounts', received', started', workers', less⟩

theorem State.during_length (seen : Seen F R) : state.during cfg seen seen.messages.length = state.iterate cfg seen := by
  rw [during, iterate, take_length]

variable (answers : Answers cfg env)

include answers

/-- The loop never fails. -/
theorem Answers.stateAt (n : Nat) : ∃ state, stateAt cfg env n = some state ∧ Accounts cfg state := by
  induction n with
  | zero => exact ⟨_, rfl, Accounts.start cfg⟩
  | succ n ih =>
    obtain ⟨state, here, accounts⟩ := ih
    rw [Vtg.stateAt, here, bind_some]
    by_cases continues : state.continues
    · obtain ⟨state', got, accounts', -⟩ := answers.during here continues accounts (env n).messages.length
      rw [during_length] at got
      exact ⟨state', (if_pos continues).trans got, accounts'⟩
    · exact ⟨state, if_neg continues, accounts⟩

section

variable (here : Vtg.stateAt cfg env n = some state)

include here

theorem Answers.accounts : Accounts cfg state := by
  obtain ⟨_, same, accounts⟩ := answers.stateAt n
  cases here.symm.trans same
  exact accounts

/-- The next state of the loop. -/
theorem Answers.next (continues : state.continues) : ∃ state', Vtg.stateAt cfg env (n + 1) = some state' ∧
      state'.received = state.received ++ (env n).messages ∧
      ((env n).messages ≠ [] → state'.work < state.work) ∧
      ((env n).messages = [] → state' = state.gradualSubmit cfg (env n).isAlive) := by
  obtain ⟨state', got, -, received, -, -, less⟩ :=
    answers.during here continues (answers.accounts here) (env n).messages.length
  rw [take_length] at received less
  rw [during_length] at got
  refine ⟨state', ?_, received, less, fun none => ?_⟩
  · rw [Vtg.stateAt, here, bind_some, if_pos continues]
    exact got
  · rw [State.iterate, none] at got
    exact (some.inj got).symm

/-- What never comes back: work, messages and the end. -/
theorem Answers.later {m : Nat} (le : n ≤ m) {state' : State F R} (there : Vtg.stateAt cfg env m = some state') :
    state'.work ≤ state.work ∧ state.received ⊆ state'.received ∧ (state'.continues → state.continues) := by
  induction m, le using Nat.le_induction generalizing state' with
  | base =>
    cases here.symm.trans there
    exact ⟨le_refl _, Subset.refl _, id⟩
  | succ m le ih =>
    obtain ⟨middle, between, accounts⟩ := answers.stateAt m
    obtain ⟨work, received, continues⟩ := ih between
    by_cases more : middle.continues
    · obtain ⟨next, is, received', less, none⟩ := answers.next between more
      cases is.symm.trans there
      refine ⟨le_trans ?_ work, ?_, fun _ => continues more⟩
      · by_cases messages : (env m).messages = []
        · rw [none messages, accounts.workers.work_gradualSubmit]
        · exact (less messages).le
      · rw [received']
        exact Subset.trans received (subset_append_left _ _)
    · rw [Vtg.stateAt, between, bind_some, if_neg more] at there
      cases there
      exact ⟨work, received, continues⟩

/-- While somebody waits, there is progress, since each worker sends its message. -/
theorem Answers.progress_of_waiting (accounts : Accounts cfg state) (waits : state.waiting ≠ 0) :
    ∃ m state', Vtg.stateAt cfg env m = some state' ∧ (¬ state'.continues ∨ state'.work < state.work) := by
  rw [Ne, accounts.workers.waiting_eq_zero_iff] at waits
  push Not at waits
  obtain ⟨worker, started, new⟩ := waits
  obtain ⟨m, message, mem, is⟩ := answers.sends n state here worker started
  obtain ⟨middle, between, -⟩ := answers.stateAt m
  by_cases more : middle.continues
  · obtain ⟨next, there, received, less, -⟩ := answers.next between more
    have some : (env m).messages ≠ [] := ne_nil_of_mem mem
    rcases Nat.lt_or_ge m n with before | after
    · -- The message would have come already.
      refine absurd ?_ new
      obtain ⟨-, subset, -⟩ := answers.later there before here
      rw [← is]
      refine List.mem_map_of_mem (subset ?_)
      rw [received]
      exact mem_append_right _ mem
    · exact ⟨m + 1, next, there, .inr ((less some).trans_le (answers.later here after between).1)⟩
  · exact ⟨m, middle, between, .inl more⟩

/-- When something is submitted, somebody waits or a message comes at once. -/
theorem Answers.progress_of_submit
    (accounts : Accounts cfg state) (continues : state.continues) (pos : 0 < state.quota cfg (env n).isAlive) :
    ∃ m state', Vtg.stateAt cfg env m = some state' ∧ (¬ state'.continues ∨ state'.work < state.work) := by
  obtain ⟨next, there, -, less, none⟩ := answers.next here continues
  by_cases messages : (env n).messages = []
  · have is := none messages
    rw [is] at there
    rw [← accounts.workers.work_gradualSubmit (env n).isAlive]
    refine answers.progress_of_waiting there (accounts.gradualSubmit _) ?_
    obtain ⟨_, batch, -, length, eq⟩ := gradualSubmit_eq cfg state (env n).isAlive
    have nonneg := accounts.workers.nonneg
    rw [eq]
    dsimp only
    omega
  · exact ⟨n + 1, next, there, .inr (less messages)⟩

end

/-- While nobody waits but there is something to be started, there is progress, since workers end. -/
theorem Answers.progress_of_idle {last : Nat} (steps : Nat) (near : last ≤ n + steps)
    (here : Vtg.stateAt cfg env n = some state) (accounts : Accounts cfg state) (prepared : state.prepare ≠ [])
    (idle : state.waiting = 0) (dead : ∀ worker ∈ state.started, ∀ later ≥ last, (env later).isAlive worker = false) :
    ∃ m state', Vtg.stateAt cfg env m = some state' ∧ (¬ state'.continues ∨ state'.work < state.work) := by
  induction steps generalizing n state with
  | zero =>
    refine answers.progress_of_submit here accounts (.inl prepared) ?_
    exact accounts.workers.quota_pos prepared idle fun worker mem => dead worker mem n near
  | succ steps ih =>
    by_cases pos : 0 < state.quota cfg (env n).isAlive
    · exact answers.progress_of_submit here accounts (.inl prepared) pos
    · obtain ⟨rest, batch, split, length, is⟩ := gradualSubmit_eq cfg state (env n).isAlive
      obtain rfl : batch = [] := eq_nil_of_length_eq_zero (by omega)
      rw [append_nil] at split
      have started : (state.gradualSubmit cfg (env n).isAlive).started = state.started := by
        rw [is]
        exact append_nil _
      -- All started workers have sent their messages, so there is nothing to receive.
      have silent : (env n).messages = [] := by
        by_contra messages
        obtain ⟨message, mem⟩ := exists_mem_of_ne_nil _ messages
        obtain ⟨mine, new⟩ := answers.owner n state here (.inl prepared) message mem
        rw [started] at mine
        exact new (accounts.workers.waiting_eq_zero_iff.mp idle _ mine)
      obtain ⟨next, there, -, -, none⟩ := answers.next here (.inl prepared)
      rw [none silent] at there
      rw [← accounts.workers.work_gradualSubmit (env n).isAlive]
      refine ih (by omega) there (accounts.gradualSubmit _) ?_ ?_ ?_
      · rw [is, ← split]
        exact prepared
      · rw [is]
        exact (add_zero _).trans idle
      · rw [started]
        exact dead

/-- The loop ends. -/
theorem Answers.terminates : ∃ n state, Vtg.stateAt cfg env n = some state ∧ ¬ state.continues := by
  refine exists_of_decreasing work (fun n state here continues => ?_) (rfl : Vtg.stateAt cfg env 0 = _)
  rw [not_not] at continues
  have accounts := answers.accounts here
  by_cases idle : state.waiting = 0
  · have prepared := continues.resolve_right (not_not_intro idle)
    have ends : ∀ worker ∈ {worker | worker ∈ state.started},
        ∀ᶠ later in Filter.atTop, (env later).isAlive worker = false := by
      intro worker mem
      rw [Filter.eventually_atTop]
      exact answers.ends n state here worker mem
    rw [← Filter.eventually_all_finite (finite_toSet _), Filter.eventually_atTop] at ends
    obtain ⟨last, dead⟩ := ends
    exact answers.progress_of_idle last (Nat.le_add_left last n) here accounts prepared idle
      fun worker mem later le => dead later le worker mem
  · exact answers.progress_of_waiting here accounts idle

end Iterations

/-! ## Exact accounting -/

section Exact

variable [DecidableEq R] {cfg : Config F R} {env : Nat → Seen F R} {state : State F R}

/-- Started workers without a message are counted and bounded, each prepared worker is started once at most, and a working
directory is removed after all messages on its tasks. -/
structure Counted (cfg : Config F R) (state : State F R) : Prop where
  waiting : state.waiting = (state.started.filter (· ∉ state.reported)).length
  bound : state.waiting ≤ cfg.maxTasks
  once : state.started.Nodup
  prepared : (state.started ++ state.prepare).Perm (cfg.prepared state.received)
  removed : ∀ atask ∈ state.removed, .emgw atask ∈ state.reported ∧
    ∀ task ∈ state.received.flatMap cfg.spawned, task.abstract = atask → .plugins task ∈ state.reported

/-- The accounting of VTG is exact: it holds whenever a worker may be started or a message comes, and the loop ends with all
prepared workers started and with as many statuses as tasks announced. -/
def Exact (cfg : Config F R) (env : Nat → Seen F R) : Prop :=
  (∀ n, ∃ state, stateAt cfg env n = some state ∧ Counted cfg state ∧
    (state.continues → ∀ k, ∃ state', state.during cfg (env n) k = some state' ∧ Counted cfg state')) ∧
  ∃ n state, stateAt cfg env n = some state ∧ ¬ state.continues ∧ state.started.Perm (cfg.prepared state.received) ∧
    state.announced = [state.statuses.length]

theorem Accounts.counted (accounts : Accounts cfg state) : Counted cfg state where
  waiting := by
    have perm : (state.started.filter (· ∈ state.reported)).Perm state.reported := by
      rw [perm_ext_iff_of_nodup (accounts.workers.started_nodup.filter _) accounts.workers.once]
      intro worker
      rw [mem_filter, decide_eq_true_eq]
      exact and_iff_right_of_imp (accounts.workers.reported worker)
    have length : state.reported.length = state.received.length := length_map _
    have parts := state.started.length_eq_length_filter_add (· ∈ state.reported)
    rw [perm.length_eq, length] at parts
    rw [accounts.workers.waiting]
    simp only [decide_not]
    omega
  bound := accounts.workers.bound
  once := accounts.workers.started_nodup
  prepared := accounts.workers.prepared
  removed := accounts.directories.removed

/-- The accounting is exact unless several environment models are allowed and nothing is to be verified. -/
theorem exact_iff (answers : Answers cfg env) : Exact cfg env ↔
    cfg.singleModel = true ∨ (cfg.fragmentDescs ≠ [] ∧ cfg.reqSpecClasses ≠ []) := by
  constructor
  · rintro ⟨-, n, state, here, ends, -, announced⟩
    have accounts := answers.accounts here
    exact (accounts.numbers.announced_iff accounts.workers ends).mp announced
  · intro condition
    constructor
    · intro n
      obtain ⟨state, here, accounts⟩ := answers.stateAt n
      refine ⟨state, here, accounts.counted, fun continues k => ?_⟩
      obtain ⟨state', got, accounts', -⟩ := answers.during here continues accounts k
      exact ⟨state', got, accounts'.counted⟩
    · obtain ⟨n, state, here, ends⟩ := answers.terminates
      have accounts := answers.accounts here
      exact ⟨n, state, here, ends, (accounts.workers.reported_perm ends).1,
        (accounts.numbers.announced_iff accounts.workers ends).mpr condition⟩

/-- After the end nothing changes. -/
theorem stateAt_of_ended {n : Nat} (here : stateAt cfg env n = some state) (ends : ¬ state.continues) (m : Nat) :
    stateAt cfg env (n + m) = some state := by
  induction m with
  | zero => exact here
  | succ m ih =>
    rw [← Nat.add_assoc, stateAt, ih, bind_some, if_neg ends]

end Exact

/-! ## Two runs -/

/-- Several environment models are allowed, but there are no program fragments. -/
def nothingToVerify : Config Nat Nat where
  fragmentDescs := []
  reqSpecClasses := [[0]]
  singleModel := false
  keepDirs := false
  maxTasks := 1
  emgThreads := 1
  pluginsThreads := 1
  fragments_nodup := by decide
  rules_nodup := by decide
  maxTasks_pos := by decide
  emgThreads_pos := by decide
  pluginsThreads_pos := by decide

/-- The loop ends at once, and the total number of tasks is not announced. -/
theorem nothingToVerify_inexact :
    Answers nothingToVerify (fun _ => ⟨fun _ => false, []⟩) ∧ ¬ Exact nothingToVerify (fun _ => ⟨fun _ => false, []⟩) := by
  have answers : Answers nothingToVerify (fun _ => ⟨fun _ => false, []⟩) := by
    have started (n : Nat) (state : State Nat Nat)
        (here : stateAt nothingToVerify (fun _ => ⟨fun _ => false, []⟩) n = some state) : state.started = [] := by
      have ended := @stateAt_of_ended _ _ _ _ nothingToVerify (fun _ => ⟨fun _ => false, []⟩) _ 0 rfl (by decide) n
      rw [Nat.zero_add, here] at ended
      rw [some.inj ended]
      rfl
    refine ⟨fun _ _ _ _ => nodup_nil, fun _ _ _ _ _ mem => absurd mem not_mem_nil, nofun,
      fun n state here worker mem => ?_, fun n state here worker mem => ?_⟩
    · rw [started n state here] at mem
      cases mem
    · rw [started n state here] at mem
      cases mem
  refine ⟨answers, ?_⟩
  rintro ⟨-, n, state, here, ends, -, announced⟩
  have accounts := answers.accounts here
  have condition := (accounts.numbers.announced_iff accounts.workers ends).mp announced
  revert condition
  decide

/-- One task. -/
def oneTask : Config Nat Nat where
  fragmentDescs := [0]
  reqSpecClasses := [[0]]
  singleModel := true
  keepDirs := false
  maxTasks := 1
  emgThreads := 1
  pluginsThreads := 1
  fragments_nodup := by decide
  rules_nodup := by decide
  maxTasks_pos := by decide
  emgThreads_pos := by decide
  pluginsThreads_pos := by decide

/-- Each worker answers in the iteration in which it is started. -/
def oneTaskSeen : Nat → Seen Nat Nat
  | 0 => ⟨fun _ => false, [.abstract ⟨0, 0⟩ (some 1)]⟩
  | 1 => ⟨fun _ => false, [.task ⟨0, 0, 0, 0⟩ true]⟩
  | _ + 2 => ⟨fun _ => false, []⟩

theorem oneTask_ended (n : Nat) (state : State Nat Nat) (here : stateAt oneTask oneTaskSeen (n + 2) = some state) :
    ¬ state.continues ∧ state.started = [.emgw ⟨0, 0⟩, .plugins ⟨0, 0, 0, 0⟩] := by
  have run : (stateAt oneTask oneTaskSeen 2).map (fun state => (decide state.continues, state.started)) =
      some (false, [.emgw ⟨0, 0⟩, .plugins ⟨0, 0, 0, 0⟩]) := by decide +kernel
  obtain ⟨last, there, is⟩ := map_eq_some_iff.mp run
  obtain ⟨ends, started⟩ := Prod.mk.inj is
  have ended := stateAt_of_ended there (of_decide_eq_false ends) n
  rw [Nat.add_comm, here] at ended
  cases ended
  exact ⟨of_decide_eq_false ends, started⟩

theorem oneTask_answers : Answers oneTask oneTaskSeen where
  once := by
    intro n state here continues
    match n with
    | 0 => exact nodup_singleton _
    | 1 => exact nodup_singleton _
    | n + 2 => exact absurd continues (oneTask_ended n state here).1
  owner := by
    intro n state here continues message mem
    match n with
    | 0 =>
      cases here
      rw [mem_singleton.mp mem]
      decide +kernel
    | 1 =>
      have run : (stateAt oneTask oneTaskSeen 1).map (fun state =>
          decide (.plugins ⟨0, 0, 0, 0⟩ ∈ (state.gradualSubmit oneTask fun _ => false).started ∧
            .plugins ⟨0, 0, 0, 0⟩ ∉ state.received.map worker)) = some true := by decide +kernel
      rw [here] at run
      rw [mem_singleton.mp mem]
      exact of_decide_eq_true (some.inj run)
    | n + 2 => exact absurd continues (oneTask_ended n state here).1
  single := by
    intro _ n message mem
    match n with
    | 0 =>
      rw [mem_singleton.mp mem]
      exact le_refl 1
    | 1 =>
      rw [mem_singleton.mp mem]
      exact Nat.zero_le 1
    | n + 2 => cases mem
  sends := by
    intro n state here worker mem
    have started : worker ∈ [.emgw ⟨0, 0⟩, .plugins ⟨0, 0, 0, 0⟩] := by
      match n with
      | 0 =>
        cases here
        cases mem
      | 1 =>
        have run : (stateAt oneTask oneTaskSeen 1).map started = some [.emgw ⟨0, 0⟩] := by decide +kernel
        rw [here] at run
        rw [some.inj run] at mem
        exact mem_of_mem_take (i := 1) mem
      | n + 2 =>
        rw [(oneTask_ended n state here).2] at mem
        exact mem
    rcases mem_pair.mp started with rfl | rfl
    · exact ⟨0, _, mem_singleton_self _, rfl⟩
    · exact ⟨1, _, mem_singleton_self _, rfl⟩
  ends := by
    intro n state _ worker _
    refine ⟨0, fun later _ => ?_⟩
    match later with
    | 0 => rfl
    | 1 => rfl
    | n + 2 => rfl

theorem oneTask_exact : Exact oneTask oneTaskSeen :=
  (exact_iff oneTask_answers).mpr (.inl rfl)

end Klever.Core.Vtg
