import Klever.Core.Vtg
import Klever.Bridge.Service

/-!
# Messages of workers

A worker of VTG owes one message to the main loop. EMGW puts it by itself. PLUGINS puts it if a plugin fails; otherwise the
task goes to Bridge and through the queue `pending tasks` to VRP, which waits for its solution and hands it over to one of
its workers, and RP puts the message at last, whatever comes out of processing the solution.

There are two ways to lose the message. If no plugin fails but there is no task description, PLUGINS just logs a warning.
And a cancelled task makes VRP raise an exception, with this task and all others it waits for left behind.
-/

namespace Klever.Core.Vrp

open Klever.Lib List Option System
open Klever.Core.Vtg (Abstract Task Worker)
open Klever.Bridge.Service (TaskStatus)

variable {F R : Type}

/-- How a plugin ends: with an exception or with a description that may have a task description. -/
inductive Outcome where
  | componentError
  | success (taskDescription : Bool)
  deriving DecidableEq, Repr

/-- The queues between VTG, its workers and VRP, and local variables of VRP. -/
structure System (F R : Type) where
  /-- The number of tasks that have been scheduled; Bridge numbers them. -/
  scheduled : Nat
  pendingTasks : List (Nat × Task F R)
  pending : Dict Nat (Task F R)
  processingTasks : List (TaskStatus × Task F R)
  processed : List (Vtg.Message F R)
  /-- VRP has raised an exception. -/
  failed : Bool
  /-- Workers that have run, and those of them that have put nothing. -/
  ran : List (Worker F R)
  silent : List (Worker F R)

namespace System

def start : System F R := ⟨0, [], .empty, [], [], false, [], []⟩

variable (system : System F R)

/-- `VTGW.plugin_fail_processing` -/
def pluginFailProcessing : Worker F R → System F R
  | .emgw atask => { system with processed := system.processed ++ [.abstract atask none] }
  | .plugins task => { system with processed := system.processed ++ [.task task false] }

/-- `EMGW._send_prepared_data` -/
def sendPreparedData (atask : Abstract F) (models : Nat) : System F R :=
  { system with processed := system.processed ++ [.abstract atask (some models)] }

/-- `EMGW._generate_abstract_verification_task_desc`: there is no number of environment models if EMG has failed. -/
def generateModels (atask : Abstract F) : Option Nat → System F R
  | some models => system.sendPreparedData atask models
  | none => system.pluginFailProcessing (.emgw atask)

/-- `PLUGINS._submit_task` -/
def submitTask (task : Task F R) (taskDescription : Bool) : System F R :=
  if taskDescription then { system with
    scheduled := system.scheduled + 1
    pendingTasks := system.pendingTasks ++ [(system.scheduled, task)] }
  else { system with silent := system.silent ++ [.plugins task] }

/-- Plugins run one by one until one fails. -/
def runPlugins (taskDescription : Bool) : List Outcome → Option Bool
  | [] => some taskDescription
  | .componentError :: _ => none
  | .success taskDescription :: rest => runPlugins taskDescription rest

/-- `PLUGINS._generate_abstract_verification_task_desc`: program fragments have no task descriptions. -/
def generateTask (task : Task F R) (outcomes : List Outcome) : System F R :=
  match runPlugins false outcomes with
  | some taskDescription => system.submitTask task taskDescription
  | none => system.pluginFailProcessing (.plugins task)

/-- VRP learns the status of a task. -/
def track (item : Nat × TaskStatus) : System F R :=
  match system.pending.get? item.1 with
  | none => system
  | some task =>
    match item.2 with
    | .finished | .error => { system with
        processingTasks := system.processingTasks ++ [(item.2, task)]
        pending := system.pending.erase item.1 }
    | .pending | .processing => system
    | .cancelled => { system with failed := true }

/-- An exception stops tracking. -/
def trackAll (system : System F R) : List (Nat × TaskStatus) → System F R
  | [] => system
  | item :: rest => if (system.track item).failed then system.track item else (system.track item).trackAll rest

/-- VRP takes what is visible in the queue. -/
def takePending (visible : Nat) : System F R :=
  { system with
    pendingTasks := system.pendingTasks.drop visible
    pending := (system.pendingTasks.take visible).foldl (fun pending item => pending.set item.1 item.2) system.pending }

/-- An iteration of `VRP.__result_processing` -/
def resultProcessing (visible : Nat) (tasksStatuses : Dict Nat TaskStatus) : System F R :=
  let system := system.takePending visible
  if system.pending.items ≠ [] then system.trackAll tasksStatuses.items else system

/-- `RP.fetcher`: whether there is an exception, and the message that is put in any case. -/
def fetcher (status : TaskStatus) (task : Task F R) (raises : Bool) : Bool × Vtg.Message F R :=
  (match status with
    | .finished => raises
    | _ => true, .task task true)

/-- An iteration of `VRP.__loop_worker`; exceptions of RP are ignored. -/
def loopWorker (raises : Bool) : Option (System F R) :=
  match system.processingTasks with
  | [] => none
  | (status, task) :: rest => some { system with
      processingTasks := rest
      processed := system.processed ++ [(fetcher status task raises).2] }

end System

inductive Event (F R : Type) where
  | emgw (atask : Abstract F) (models : Option Nat)
  | plugins (task : Task F R) (outcomes : List Outcome)
  | resultProcessing (visible : Nat) (tasksStatuses : Dict Nat TaskStatus)
  | loopWorker (raises : Bool)

/-- Workers of VTG, the main process of VRP and its workers go on in any order. -/
def System.step (system : System F R) : Event F R → Option (System F R)
  | .emgw atask models => some { system.generateModels atask models with ran := system.ran ++ [.emgw atask] }
  | .plugins task outcomes => some { system.generateTask task outcomes with ran := system.ran ++ [.plugins task] }
  | .resultProcessing visible tasksStatuses =>
    if system.failed then none else some (system.resultProcessing visible tasksStatuses)
  | .loopWorker raises => system.loopWorker raises

/-- Nothing is under way any more, or VRP will do nothing with it. -/
def System.Over (system : System F R) : Prop :=
  system.processingTasks = [] ∧ (system.failed = true ∨ (system.pendingTasks = [] ∧ system.pending.items = []))

variable [DecidableEq F] [DecidableEq R]

/-- The number of messages on a worker. -/
def System.messages (system : System F R) (worker : Worker F R) : Nat :=
  system.processed.countP (·.worker = worker)

/-- The number of places where the task of a worker is under way. -/
def System.underWay (system : System F R) (worker : Worker F R) : Nat :=
  system.pendingTasks.countP (Worker.plugins ·.2 = worker) + system.pending.values.countP (Worker.plugins · = worker) +
    system.processingTasks.countP (Worker.plugins ·.2 = worker)

omit [DecidableEq F] [DecidableEq R] in
/-- What saves messages: plugins that do not fail make a task description, and tasks that VRP waits for are not cancelled. -/
def System.Meets (system : System F R) : Event F R → Prop
  | .plugins _ outcomes => runPlugins false outcomes ≠ some false
  | .resultProcessing visible tasksStatuses => ∀ id, ((system.takePending visible).pending.get? id).isSome →
    tasksStatuses.get? id ≠ some .cancelled
  | _ => True

/-! ## No message is lost on the way -/

/-- Identifiers of tasks differ, and each worker that has run has put a message, or its task is under way, or it is
silent. -/
structure Tracked (system : System F R) : Prop where
  ids : (system.pendingTasks.map Prod.fst).Nodup
  queued : ∀ item ∈ system.pendingTasks, item.1 < system.scheduled ∧ system.pending.get? item.1 = none
  known : ∀ id task, system.pending.get? id = some task → id < system.scheduled
  count : ∀ worker, system.messages worker + system.underWay worker + system.silent.count worker = system.ran.count worker
  left : system.failed = true → ∃ id task, system.pending.get? id = some task

variable {event : Event F R} {system : System F R}

theorem Tracked.start : Tracked (System.start : System F R) where
  ids := nodup_nil
  queued := fun _ mem => absurd mem not_mem_nil
  known := by
    intro id task found
    cases found
  count := fun _ => rfl
  left := nofun

/-- A worker puts its message by itself. -/
theorem Tracked.put (tracked : Tracked system) (message : Vtg.Message F R) {worker : Worker F R}
    (is : message.worker = worker) :
    Tracked { system with processed := system.processed ++ [message], ran := system.ran ++ [worker] } := by
  refine ⟨tracked.ids, tracked.queued, tracked.known, fun other => ?_, tracked.left⟩
  have count := tracked.count other
  simp only [System.messages, System.underWay, countP_append, countP_singleton, count_append,
    count_singleton, is, decide_eq_true_eq, beq_iff_eq] at count ⊢
  omega

theorem Tracked.emgw (tracked : Tracked system) (atask : Abstract F) (models : Option Nat) :
    Tracked { system.generateModels atask models with ran := system.ran ++ [.emgw atask] } := by
  cases models with
  | some models => exact tracked.put (.abstract atask (some models)) rfl
  | none => exact tracked.put (.abstract atask none) rfl

theorem Tracked.plugins (tracked : Tracked system) (task : Task F R) (outcomes : List Outcome) :
    Tracked { system.generateTask task outcomes with ran := system.ran ++ [.plugins task] } := by
  rw [System.generateTask]
  cases System.runPlugins false outcomes with
  | none => exact tracked.put (.task task false) rfl
  | some taskDescription =>
    cases taskDescription with
    | false =>
      refine ⟨tracked.ids, tracked.queued, tracked.known, fun other => ?_, tracked.left⟩
      have count := tracked.count other
      simp only [System.submitTask, Bool.false_eq_true, if_false, System.messages, System.underWay, count_append,
        count_singleton, beq_iff_eq] at count ⊢
      omega
    | true =>
      refine ⟨?_, fun item mem => ?_, fun id task found => ?_, fun other => ?_, tracked.left⟩
      · simp only [System.submitTask, if_true, map_append, map_singleton]
        rw [← concat_eq_append]
        refine tracked.ids.concat fun mem => ?_
        obtain ⟨item, was, is⟩ := List.mem_map.mp mem
        have lt := (tracked.queued item was).1
        omega
      · simp only [System.submitTask, if_true, mem_append, mem_singleton] at mem ⊢
        rcases mem with old | rfl
        · exact ⟨(tracked.queued item old).1.trans (Nat.lt_succ_self _), (tracked.queued item old).2⟩
        · refine ⟨Nat.lt_succ_self _, ?_⟩
          cases found : system.pending.get? system.scheduled with
          | none => rfl
          | some task => exact absurd (tracked.known _ _ found) (lt_irrefl _)
      · exact (tracked.known id task found).trans (Nat.lt_succ_self _)
      · have count := tracked.count other
        simp only [System.submitTask, if_true, System.messages, System.underWay, countP_append, countP_singleton,
          count_append, count_singleton, decide_eq_true_eq, beq_iff_eq] at count ⊢
        omega

omit [DecidableEq F] [DecidableEq R] in
/-- Entries with new keys are added to a dictionary. -/
theorem foldl_set_new (items : List (Nat × Task F R)) {pending : Dict Nat (Task F R)} (nodup : (items.map Prod.fst).Nodup)
    (new : ∀ item ∈ items, pending.get? item.1 = none) :
    (∀ p, (items.foldl (fun pending item => pending.set item.1 item.2) pending).values.countP p =
      items.countP (p ·.2) + pending.values.countP p) ∧
    (∀ id, id ∉ items.map Prod.fst →
      (items.foldl (fun pending item => pending.set item.1 item.2) pending).get? id = pending.get? id) := by
  induction items generalizing pending with
  | nil => exact ⟨fun p => (Nat.zero_add _).symm, fun _ _ => rfl⟩
  | cons item rest ih =>
    obtain ⟨first, nodup⟩ := nodup_cons.mp nodup
    have absent := new item mem_cons_self
    obtain ⟨counts, others⟩ := @ih (pending.set item.1 item.2) nodup fun other mem => by
      rw [Dict.get?_set_of_ne]
      · exact new other (mem_cons_of_mem _ mem)
      · intro same
        exact first (List.mem_map.mpr ⟨other, mem, same⟩)
    constructor
    · intro p
      have count := pending.countP_values_set item.1 item.2 p
      rw [absent] at count
      rw [foldl_cons, counts, countP_cons]
      simp only [toList_none, countP_nil, countP_singleton] at count
      omega
    · intro id outside
      rw [map_cons, mem_cons, not_or] at outside
      rw [foldl_cons, others id outside.2, Dict.get?_set_of_ne _ _ outside.1]

/-- Tasks go from the queue to those that VRP waits for. -/
theorem Tracked.takePending (tracked : Tracked system) (visible : Nat) : Tracked (system.takePending visible) := by
  have taken : ((system.pendingTasks.take visible).map Prod.fst).Nodup :=
    tracked.ids.sublist ((take_sublist _ _).map _)
  obtain ⟨counts, others⟩ := foldl_set_new (system.pendingTasks.take visible) taken fun item mem =>
    (tracked.queued item (mem_of_mem_take mem)).2
  have parts : (system.pendingTasks.take visible).map Prod.fst ++ (system.pendingTasks.drop visible).map Prod.fst =
      system.pendingTasks.map Prod.fst := by
    rw [← map_append, take_append_drop]
  have ids := tracked.ids
  rw [← parts, nodup_append] at ids
  obtain ⟨-, rest, apart⟩ := ids
  refine ⟨rest, fun item mem => ?_, fun id task found => ?_, fun worker => ?_, fun failed => ?_⟩
  · obtain ⟨lt, absent⟩ := tracked.queued item (mem_of_mem_drop mem)
    refine ⟨lt, ?_⟩
    rw [System.takePending, others, absent]
    intro before
    exact apart item.1 before item.1 (List.mem_map_of_mem mem) rfl
  · by_cases taken : id ∈ (system.pendingTasks.take visible).map Prod.fst
    · obtain ⟨item, mem, rfl⟩ := List.mem_map.mp taken
      exact (tracked.queued item (mem_of_mem_take mem)).1
    · rw [System.takePending, others id taken] at found
      exact tracked.known id task found
  · have count := tracked.count worker
    have split : system.pendingTasks.countP (Worker.plugins ·.2 = worker) =
        (system.pendingTasks.take visible).countP (Worker.plugins ·.2 = worker) +
          (system.pendingTasks.drop visible).countP (Worker.plugins ·.2 = worker) := by
      rw [← countP_append, take_append_drop]
    simp only [System.takePending, System.messages, System.underWay, counts] at count ⊢
    omega
  · obtain ⟨id, task, found⟩ := tracked.left failed
    refine ⟨id, task, ?_⟩
    rw [System.takePending, others, found]
    intro taken
    obtain ⟨item, mem, rfl⟩ := List.mem_map.mp taken
    rw [(tracked.queued item (mem_of_mem_take mem)).2] at found
    cases found

/-- A task goes to those that are to be processed, or it stays. -/
theorem Tracked.track (tracked : Tracked system) (healthy : system.failed = false) (item : Nat × TaskStatus) :
    Tracked (system.track item) := by
  obtain ⟨id, status⟩ := item
  have done (task : Task F R) (found : system.pending.get? id = some task) : Tracked { system with
      processingTasks := system.processingTasks ++ [(status, task)], pending := system.pending.erase id } := by
    refine ⟨tracked.ids, fun item mem => ?_, fun id' task' found' => ?_, fun worker => ?_, fun failed => ?_⟩
    · obtain ⟨lt, absent⟩ := tracked.queued item mem
      refine ⟨lt, ?_⟩
      rw [Dict.get?_erase, absent]
      exact ite_self _
    · rw [Dict.get?_erase] at found'
      split at found'
      next => cases found'
      next => exact tracked.known id' task' found'
    · have count := tracked.count worker
      have erased := system.pending.countP_values_erase id (Worker.plugins · = worker)
      rw [found, toList_some, countP_singleton] at erased
      simp only [System.messages, System.underWay, countP_append, countP_singleton] at count ⊢
      omega
    · cases healthy.symm.trans failed
  rw [System.track]
  cases found : system.pending.get? id with
  | none => exact tracked
  | some task =>
    cases status with
    | finished => exact done task found
    | error => exact done task found
    | pending => exact tracked
    | processing => exact tracked
    | cancelled => exact ⟨tracked.ids, tracked.queued, tracked.known, tracked.count, fun _ => ⟨id, task, found⟩⟩

theorem Tracked.trackAll (items : List (Nat × TaskStatus)) (tracked : Tracked system) (healthy : system.failed = false) :
    Tracked (system.trackAll items) := by
  induction items generalizing system with
  | nil => exact tracked
  | cons item rest ih =>
    have next := tracked.track healthy item
    rw [System.trackAll]
    split
    next => exact next
    next more => exact ih next (Bool.eq_false_iff.mpr more)

theorem Tracked.step (tracked : Tracked system) {system' : System F R}
    (step : system.step event = some system') : Tracked system' := by
  cases event with
  | emgw atask models =>
    cases step
    exact tracked.emgw atask models
  | plugins task outcomes =>
    cases step
    exact tracked.plugins task outcomes
  | resultProcessing visible tasksStatuses =>
    rw [System.step] at step
    split at step
    next => cases step
    next healthy =>
      have taken := tracked.takePending visible
      rw [← some.inj step, System.resultProcessing]
      split
      · exact taken.trackAll _ (Bool.eq_false_iff.mpr healthy)
      · exact taken
  | loopWorker raises =>
    rw [System.step, System.loopWorker] at step
    split at step
    next => cases step
    next status task rest queue =>
      rw [← some.inj step]
      refine ⟨tracked.ids, tracked.queued, tracked.known, fun worker => ?_, tracked.left⟩
      have count := tracked.count worker
      have mine : (System.fetcher status task raises).2.worker = .plugins task := rfl
      simp only [System.messages, System.underWay, queue, countP_append, countP_cons, countP_nil, mine,
        decide_eq_true_eq] at count ⊢
      omega

/-! ## When each worker reports once -/

variable {system' : System F R} {events : List (Event F R)}

/-- No worker is silent, and VRP goes on. -/
def System.Intact (system : System F R) : Prop := system.silent = [] ∧ system.failed = false

omit [DecidableEq F] [DecidableEq R] in
theorem System.track_cases (system : System F R) (item : Nat × TaskStatus) :
    (system.track item).silent = system.silent ∧ (system.track item).ran = system.ran ∧
      ((system.track item).failed = true ↔
        system.failed = true ∨ ((system.pending.get? item.1).isSome ∧ item.2 = .cancelled)) ∧
      ∀ id ≠ item.1, (system.track item).pending.get? id = system.pending.get? id := by
  obtain ⟨id, status⟩ := item
  rw [track]
  cases found : system.pending.get? id with
  | none => simp
  | some task =>
    cases status with
    | finished => simp +contextual [Dict.get?_erase]
    | error => simp +contextual [Dict.get?_erase]
    | pending => simp
    | processing => simp
    | cancelled => simp

omit [DecidableEq F] [DecidableEq R] in
/-- VRP fails exactly if one of the tasks that it waits for is cancelled. -/
theorem System.trackAll_cases (items : List (Nat × TaskStatus)) (nodup : (items.map Prod.fst).Nodup)
    (healthy : system.failed = false) : (system.trackAll items).silent = system.silent ∧
      (system.trackAll items).ran = system.ran ∧ ((system.trackAll items).failed = true ↔
        ∃ id, (system.pending.get? id).isSome ∧ (id, .cancelled) ∈ items) := by
  induction items generalizing system with
  | nil =>
    refine ⟨rfl, rfl, iff_of_false ?_ fun ⟨_, _, mem⟩ => absurd mem not_mem_nil⟩
    rw [trackAll, healthy]
    exact Bool.false_ne_true
  | cons item rest ih =>
    obtain ⟨first, nodup⟩ := nodup_cons.mp nodup
    obtain ⟨silent, ran, failed, others⟩ := system.track_cases item
    have here : (system.track item).failed = true ↔ (system.pending.get? item.1).isSome ∧ item.2 = .cancelled := by
      rw [failed, healthy]
      exact or_iff_right Bool.false_ne_true
    rw [trackAll]
    split
    next fails =>
      refine ⟨silent, ran, iff_of_true fails ⟨item.1, (here.mp fails).1, ?_⟩⟩
      rw [← (here.mp fails).2]
      exact mem_cons_self
    next goes =>
      obtain ⟨silent', ran', rests⟩ := ih nodup (Bool.eq_false_iff.mpr goes)
      refine ⟨silent'.trans silent, ran'.trans ran, rests.trans ?_⟩
      refine exists_congr fun id => ?_
      rw [mem_cons]
      by_cases same : id = item.1
      · subst same
        rw [here, not_and] at goes
        constructor
        · rintro ⟨-, mem⟩
          exact absurd (List.mem_map.mpr ⟨_, mem, rfl⟩) first
        · rintro ⟨known, is | mem⟩
          · exact absurd (congrArg Prod.snd is).symm (goes known)
          · exact absurd (List.mem_map.mpr ⟨_, mem, rfl⟩) first
      · rw [others id same]
        refine and_congr_right fun _ => (or_iff_right fun is => ?_).symm
        exact same (congrArg Prod.fst is)

omit [DecidableEq F] [DecidableEq R] in
/-- What an iteration of VRP does to messages that are not under way. -/
theorem System.resultProcessing_cases (healthy : system.failed = false) (visible : Nat)
    (tasksStatuses : Dict Nat TaskStatus) :
    (system.resultProcessing visible tasksStatuses).silent = system.silent ∧
      (system.resultProcessing visible tasksStatuses).ran = system.ran ∧
      ((system.resultProcessing visible tasksStatuses).failed = false ↔
        ∀ id, ((system.takePending visible).pending.get? id).isSome → tasksStatuses.get? id ≠ some .cancelled) := by
  rw [resultProcessing]
  split
  next =>
    obtain ⟨silent, ran, failed⟩ := @System.trackAll_cases _ _ (system.takePending visible) tasksStatuses.items
      tasksStatuses.nodup healthy
    refine ⟨silent, ran, ?_⟩
    rw [← Bool.not_eq_true, failed]
    push Not
    simp [Dict.mem_items_iff]
  next none =>
    rw [not_not] at none
    refine ⟨rfl, rfl, iff_of_true healthy fun id known => ?_⟩
    rw [Dict.get?, none] at known
    cases known

omit [DecidableEq F] [DecidableEq R] in
/-- A step keeps the system intact exactly if it meets the condition. -/
theorem System.Intact.step_iff (intact : system.Intact) (step : system.step event = some system') :
    system'.Intact ↔ system.Meets event := by
  obtain ⟨silent, healthy⟩ := intact
  cases event with
  | emgw atask models =>
    cases step
    refine iff_of_true ?_ trivial
    cases models <;> exact ⟨silent, healthy⟩
  | plugins task outcomes =>
    cases step
    rw [generateTask, System.Meets]
    cases outcome : runPlugins false outcomes with
    | none => exact iff_of_true ⟨silent, healthy⟩ nofun
    | some taskDescription =>
      cases taskDescription with
      | true => exact iff_of_true ⟨silent, healthy⟩ nofun
      | false =>
        refine iff_of_false (fun intact => ?_) fun differs => differs rfl
        simpa [submitTask, System.Intact] using intact.1
  | resultProcessing visible tasksStatuses =>
    rw [System.step, if_neg (by simp [healthy]), some.injEq] at step
    obtain ⟨silent', -, failed⟩ := resultProcessing_cases healthy visible tasksStatuses
    rw [← step, System.Intact, silent', failed]
    exact and_iff_right silent
  | loopWorker raises =>
    rw [System.step, System.loopWorker] at step
    split at step
    next => cases step
    next =>
      rw [← some.inj step]
      exact iff_of_true ⟨silent, healthy⟩ trivial

omit [DecidableEq F] [DecidableEq R] in
/-- What is lost stays lost, and what has run stays so. -/
theorem System.step_mono (step : system.step event = some system') :
    (system'.Intact → system.Intact) ∧ system.ran <+: system'.ran := by
  cases event with
  | emgw atask models =>
    cases step
    refine ⟨fun intact => ?_, prefix_append _ _⟩
    cases models <;> exact intact
  | plugins task outcomes =>
    cases step
    refine ⟨fun intact => ?_, prefix_append _ _⟩
    rw [System.generateTask] at intact
    cases outcome : System.runPlugins false outcomes with
    | none =>
      rw [outcome] at intact
      exact intact
    | some taskDescription =>
      rw [outcome] at intact
      cases taskDescription with
      | true => exact intact
      | false => exact ⟨(append_eq_nil_iff.mp intact.1).1, intact.2⟩
  | resultProcessing visible tasksStatuses =>
    rw [System.step] at step
    split at step
    next => cases step
    next goes =>
      have healthy := Bool.eq_false_iff.mpr goes
      obtain ⟨silent', ran, -⟩ := System.resultProcessing_cases healthy visible tasksStatuses
      rw [← some.inj step, System.Intact, silent', ran]
      exact ⟨fun intact => ⟨intact.1, healthy⟩, prefix_rfl⟩
  | loopWorker raises =>
    rw [System.step, System.loopWorker] at step
    split at step
    next => cases step
    next =>
      rw [← some.inj step]
      exact ⟨id, prefix_rfl⟩

omit [DecidableEq F] [DecidableEq R] in
theorem System.run_mono (run : events.foldlM step system = some system') :
    (system'.Intact → system.Intact) ∧ system.ran <+: system'.ran := by
  induction events generalizing system with
  | nil =>
    cases run
    exact ⟨id, prefix_rfl⟩
  | cons event rest ih =>
    obtain ⟨middle, step, run⟩ := bind_eq_some_iff.mp run
    obtain ⟨intact, ran⟩ := step_mono step
    obtain ⟨intact', ran'⟩ := ih run
    exact ⟨fun is => intact (intact' is), ran.trans ran'⟩

theorem Tracked.run (tracked : Tracked system) (run : events.foldlM System.step system = some system') :
    Tracked system' := by
  induction events generalizing system with
  | nil =>
    cases run
    exact tracked
  | cons event rest ih =>
    obtain ⟨middle, step, run⟩ := bind_eq_some_iff.mp run
    exact ih (tracked.step step) run

/-- Workers that run once put one message at most. -/
theorem Tracked.messages_le (tracked : Tracked system) (once : system.ran.Nodup) (worker : Worker F R) :
    system.messages worker + system.underWay worker + system.silent.count worker ≤ 1 := by
  rw [tracked.count]
  exact nodup_iff_count_le_one.mp once worker

/-- At the end each worker has put one message exactly if nothing has been lost. -/
theorem Tracked.intact_iff (tracked : Tracked system) (once : system.ran.Nodup) (ended : system.Over) :
    (∀ worker ∈ system.ran, system.messages worker = 1) ↔ system.Intact := by
  constructor
  · intro all
    constructor
    · by_contra lost
      obtain ⟨worker, mem⟩ := exists_mem_of_ne_nil _ lost
      have pos := count_pos_iff.mpr mem
      have count := tracked.count worker
      have le := tracked.messages_le once worker
      have ran : worker ∈ system.ran := count_pos_iff.mp (by omega)
      have one := all worker ran
      omega
    · by_contra fails
      obtain ⟨id, task, found⟩ := tracked.left (Bool.eq_true_of_not_eq_false fails)
      have pos : 0 < system.pending.values.countP (Worker.plugins · = .plugins task) :=
        countP_pos_iff.mpr ⟨task, Dict.mem_values_iff.mpr ⟨id, found⟩, decide_eq_true rfl⟩
      have way : 0 < system.underWay (.plugins task) := by
        rw [System.underWay]
        omega
      have count := tracked.count (.plugins task)
      have le := tracked.messages_le once (.plugins task)
      have ran : Worker.plugins task ∈ system.ran := count_pos_iff.mp (by omega)
      have one := all _ ran
      omega
  · rintro ⟨silent, healthy⟩ worker mem
    obtain ⟨processing, failed | ⟨queue, pending⟩⟩ := ended
    · cases healthy.symm.trans failed
    · have count := tracked.count worker
      have way : system.underWay worker = 0 := by
        rw [System.underWay, queue, processing, Dict.values, pending]
        rfl
      rw [way, silent, count_nil, count_eq_one_of_mem once mem] at count
      exact count

/-- Over the whole life of each task just one message is put, exactly if plugins that do not fail make task descriptions and
tasks that VRP waits for are not cancelled. -/
theorem reported_once_iff (run : events.foldlM System.step System.start = some system) (once : system.ran.Nodup)
    (ended : system.Over) :
    ((∀ n before, (events.take n).foldlM System.step System.start = some before →
        ∀ worker, before.messages worker ≤ 1) ∧
      ∀ worker ∈ system.ran, system.messages worker = 1) ↔
      ∀ n event before, events[n]? = some event → (events.take n).foldlM System.step System.start = some before →
        before.Meets event := by
  have rest (n : Nat) (before : System F R) (ran : (events.take n).foldlM System.step System.start = some before) :
      (system.Intact → before.Intact) ∧ before.ran <+: system.ran := by
    rw [← take_append_drop n events, foldlM_append, ran] at run
    exact System.run_mono run
  have twice : ∀ n before, (events.take n).foldlM System.step System.start = some before →
      ∀ worker, before.messages worker ≤ 1 := by
    intro n before ran worker
    have le := (Tracked.start.run ran).messages_le (once.sublist (rest n before ran).2.sublist) worker
    omega
  have whole : events.take events.length = events := take_length
  rw [and_iff_right twice, (Tracked.start.run run).intact_iff once ended,
    ← foldlM_states_iff (P := System.Intact) (I := fun _ => True) run trivial ⟨rfl, rfl⟩ (fun _ _ => trivial)
      fun _ intact step => intact.step_iff step]
  constructor
  · intro intact n before ran
    exact (rest n before ran).1 intact
  · intro all
    exact all events.length system (by rw [whole, run])

/-- Two plugins succeed, the task is finished and its solution is processed. -/
def solved : List (Event Nat Nat) :=
  [.plugins ⟨0, 0, 0, 0⟩ [.success false, .success true], .resultProcessing 1 ⟨[(0, .finished)], by decide⟩,
    .loopWorker false]

theorem solved_once : ∃ system, solved.foldlM System.step System.start = some system ∧ system.ran ≠ [] ∧
    ((∀ n before, (solved.take n).foldlM System.step System.start = some before →
        ∀ worker, before.messages worker ≤ 1) ∧
      ∀ worker ∈ system.ran, system.messages worker = 1) := by
  refine ⟨_, rfl, cons_ne_nil _ _, ?_⟩
  refine (reported_once_iff rfl (nodup_singleton _) ⟨rfl, .inr ⟨rfl, rfl⟩⟩).mpr ?_
  intro n event before here ran
  match n with
  | 0 =>
    cases here
    exact nofun
  | 1 =>
    cases here
    intro id _ found
    rw [← Dict.mem_items_iff] at found
    cases mem_singleton.mp found
  | 2 =>
    cases here
    trivial
  | n + 3 => cases here

/-- At the end there is no message on the worker that has run. -/
def Loses (events : List (Event Nat Nat)) : Prop :=
  ∃ system, events.foldlM System.step System.start = some system ∧ system.Over ∧
    system.ran = [.plugins ⟨0, 0, 0, 0⟩] ∧ system.messages (.plugins ⟨0, 0, 0, 0⟩) = 0

/-- The last plugin has made no task description, or the task is cancelled. -/
theorem lost_messages : Loses [.plugins ⟨0, 0, 0, 0⟩ [.success false]] ∧
    Loses [.plugins ⟨0, 0, 0, 0⟩ [.success true], .resultProcessing 1 ⟨[(0, .cancelled)], by decide⟩] := by
  constructor
  · exact ⟨_, rfl, ⟨rfl, .inr ⟨rfl, rfl⟩⟩, rfl, rfl⟩
  · exact ⟨_, rfl, ⟨rfl, .inl rfl⟩, rfl, rfl⟩

end Klever.Core.Vrp
