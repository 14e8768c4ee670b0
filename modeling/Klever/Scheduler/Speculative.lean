import Klever.Scheduler.Launch

/-!
# Speculative memory limits

`TryLessMemoryRunner` in `klever/scheduler/schedulers/native.py` starts a task with a part of its
memory limit and, if it runs out of memory, puts it back to the pending ones with the limit restored.
This module follows one task from the moment it is tracked: it is prepared, started, its future makes
progress, and its results are processed, in any order that the loop of `Scheduler.launch` allows, with
any results and in any state of the runner.

The task should run first with the reduced limit, be rescheduled at most once, and run the second time
with exactly its own limit (`TriedOnce`). The mark `speculative` is never taken off, the division is
not an inverse of the multiplication once both are cut to integers, and the solution of the first run
stays in the item. `limits_triedOnce_iff` says when the plan works out all the same, for every
factor and limit and every run.
-/

namespace Klever.Scheduler

open Klever.Lib List Option

/-! ## Starting a task -/

/-- `Native._solve_task`: the solution is prepared, the resources are claimed and a future is
submitted. -/
def startSolution (env : Env) (R : Runner) (identifier : String) (description : TaskDescription) :
    Except Exn Unit × Runner :=
  match env.refusesTask R.manager description with
  | some msg => (.error (.schedulerException msg), R)
  | none =>
    match env.preparation R.manager identifier description with
    | some e => (.error e, R)
    | none =>
      let claimed := claimResources R.manager identifier (.task description) env.node
      (claimed.1, ⟨claimed.2, Function.update R.processes .task (identifier :: (R.processes .task).erase identifier)⟩)

/-- The reduction in `TryLessMemoryRunner.solve_task`. -/
def reduceMemory (env : Env) (item : TaskItem) : TaskItem :=
  if env.reducedMemoryLimit < 1 ∧ item.speculative = false then
    { item with
      description := item.description.withMemory ⌊(item.memory : ℚ) * env.reducedMemoryLimit⌋₊
      speculative := true }
  else item

/-- The text with which a task is not started. -/
def notSolved (identifier msg : String) : String :=
  "Cannot solve task " ++ identifier ++ ": " ++ quoted msg

/-- `TryLessMemoryRunner.solve_task`. -/
def solveTask (env : Env) (R : Runner) (identifier : String) (item : TaskItem) :
    Except Exn Bool × Runner × TaskItem :=
  let item := reduceMemory env item
  match startSolution env R identifier item.description with
  | (.ok (), R) => (.ok true, R, { item with future := some .queued, status := .processing })
  | (.error (.schedulerException msg), R) =>
    let item := { item with attempts := item.attempts + 1 }
    if item.attempts > 2 then
      (.ok false, R, { item with status := .error, error := some (notSolved identifier msg) })
    else (.ok false, R, item)
  | (.error e, R) => (.error e, R, item)

/-- The exceptions about a status that does not fit the answer of `solve_task`. -/
def startedWith (identifier : String) (status : ItemStatus) : Exn :=
  .runtimeError ("Expect that status of started task is PROCESSING but it is " ++
    quoted status.text ++ " for " ++ quoted identifier)

@[inherit_doc startedWith]
def notStartedWith (identifier : String) : Exn :=
  .runtimeError ("In case of error task cannot be 'PROCESSING' but it is for " ++ quoted identifier)

/-- The loop over the tasks to start, on one task. -/
def startTask (env : Env) (R : Runner) (identifier : String) (item : TaskItem) : Settled TaskItem :=
  match solveTask env R identifier item with
  | (.error e, R, item) => ⟨.error e, R, some item⟩
  | (.ok true, R, item) =>
    if item.status = .processing then
      ⟨.ok (if item.rescheduled then [] else [.taskStatus identifier .processing]), R, some item⟩
    else ⟨.error (startedWith identifier item.status), R, some item⟩
  | (.ok false, R, item) =>
    match item.status with
    | .processing => ⟨.error (notStartedWith identifier), R, some item⟩
    | .error => ⟨.ok [.taskError identifier (item.error.getD "")], R, none⟩
    | _ => ⟨.ok [], R, some item⟩

/-- The loop that prepares the pending tasks before they are scheduled, on one task. -/
def prepareStep (env : Env) (R : Runner) (identifier : String) (item : TaskItem) : Settled TaskItem :=
  match env.refusesTask R.manager item.description with
  | some msg => ⟨.ok [.taskError identifier (notPrepared identifier msg)], R, none⟩
  | none => ⟨.ok [], R, some item⟩

/-! ## The life of a task -/

/-- One task: its item while it is tracked, the memory limits of its runs so far, and how often it was
rescheduled. -/
structure Life where
  item : Option TaskItem
  limits : List ℤ
  reschedules : ℕ

/-- What happens to a tracked task. Each event has its own environment and state of the runner. -/
inductive LifeEvent
  | prepare (env : Env) (R : Runner)
  | start (env : Env) (R : Runner)
  | progress (future : Future)
  | result (env : Env) (R : Runner)

/-- The limit of the run that a start begins. -/
def startedLimits (env : Env) (R : Runner) (identifier : String) (item : TaskItem) : List ℤ :=
  match solveTask env R identifier item with
  | (.ok true, _, item) => [item.memory]
  | _ => []

/-- Whether a processed task has been put back to the pending ones. -/
def putsBack (item : TaskItem) (after : Option TaskItem) : ℕ :=
  if item.status = .processing ∧ after.any fun item => item.status = .pending then 1 else 0

/-- One event. Nothing is raised, and the runner keeps its factor. Only pending tasks are prepared and
started, and only a future that is not done makes progress. -/
def Life.Step (factor : ℚ) (identifier : String) (L : Life) (e : LifeEvent) (L' : Life) : Prop :=
  ∃ item, L.item = some item ∧ match e with
  | .prepare env R => env.reducedMemoryLimit = factor ∧ item.status = .pending ∧
      L' = { L with item := (prepareStep env R identifier item).item }
  | .start env R => env.reducedMemoryLimit = factor ∧ item.status = .pending ∧
      (∃ reports, (startTask env R identifier item).outcome = .ok reports) ∧
      L' = { L with
        item := (startTask env R identifier item).item
        limits := L.limits ++ startedLimits env R identifier item }
  | .progress future => (item.future = some .queued ∨ item.future = some .running) ∧
      L' = { L with item := some { item with future := some future } }
  | .result env R => env.reducedMemoryLimit = factor ∧
      (∃ reports, (settleTask env R identifier item).outcome = .ok reports) ∧
      L' = { L with
        item := (settleTask env R identifier item).item
        reschedules := L.reschedules + putsBack item (settleTask env R identifier item).item }

/-- A task as `add_new_pending_task` tracks it. -/
def TaskItem.new (description : TaskDescription) : TaskItem where
  status := .pending
  description := description
  future := none
  error := none
  solution := none
  speculative := false
  rescheduled := false
  attempts := 0

/-- The beginning. -/
def Life.new (description : TaskDescription) : Life := ⟨some (.new description), [], 0⟩

/-- The speculation is tried at most once: the first run has the reduced limit, the second one the
limit of the task, there is at most one reschedule, and no run has more than the limit. -/
structure TriedOnce (factor : ℚ) (memory : ℤ) (L : Life) : Prop where
  first : ∀ limit, L.limits[0]? = some limit → limit = ⌊(memory : ℚ) * factor⌋
  once : L.reschedules ≤ 1
  second : ∀ limit, L.limits[1]? = some limit → limit = memory
  bounded : ∀ limit ∈ L.limits, limit ≤ memory

/-- The preparation and the claim of a start go through. -/
def Startable (env : Env) (R : Runner) (identifier : String) (description : TaskDescription) : Prop :=
  env.refusesTask R.manager description = none ∧ env.preparation R.manager identifier description = none ∧
    R.manager.Accepts (.task description) env.node

/-- A solution with a status that means too little memory. -/
def Solution.OutOfMemory (s : Solution) : Prop := ∃ status ∈ outOfMemory, s.status = some status

/-- The result of a run shows too little memory: the client has left such a solution, or the run
failed and such a solution of an earlier run is still in the item. -/
def ShowsExhaustion (env : Env) (identifier : String) (item : TaskItem) : Prop :=
  ∃ code, item.future = some (.finished code) ∧ let w := env.workDir .task identifier
    ((w.Fails code ∨ w.results = .missing) ∧ ∃ s, item.solution = some (some s) ∧ s.OutOfMemory) ∨
      (¬ w.Fails code ∧ ∃ s, w.results = .content (some s) ∧ s.OutOfMemory)

/-- The condition on an event, in the state before it: a task that has been rescheduled starts again
only if its limit is restored exactly, and does not run out of memory again. -/
def Restores (factor : ℚ) (memory : ℕ) (identifier : String) (L : Life) : LifeEvent → Prop
  | .start env R => ∀ item, L.item = some item → item.rescheduled = true → Startable env R identifier item.description →
      ⌊(⌊(memory : ℚ) * factor⌋₊ : ℚ) / factor⌋₊ = memory
  | .result env _ => ∀ item, L.item = some item → item.rescheduled = true →
      item.status = .processing → ¬ ShowsExhaustion env identifier item
  | _ => True

/-! ## The limits -/

/-- The limit of each run, as the code computes it from the one before. -/
def attempt (factor : ℚ) (memory : ℕ) : ℕ → ℕ
  | 0 => ⌊(memory : ℚ) * factor⌋₊
  | k + 1 => ⌊(attempt factor memory k : ℚ) / factor⌋₊

variable {factor : ℚ} {memory : ℕ}

theorem attempt_zero_le (less : factor < 1) : attempt factor memory 0 ≤ memory := by
  have reduced : (memory : ℚ) * factor ≤ memory :=
    mul_le_of_le_one_right (Nat.cast_nonneg _) less.le
  calc ⌊(memory : ℚ) * factor⌋₊ ≤ ⌊(memory : ℚ)⌋₊ := Nat.floor_le_floor reduced
    _ = memory := Nat.floor_natCast memory

/-- The restored limit is at most the original one. -/
theorem attempt_one_le (pos : 0 < factor) : attempt factor memory 1 ≤ memory := by
  have cut : (attempt factor memory 0 : ℚ) ≤ memory * factor :=
    Nat.floor_le (mul_nonneg (Nat.cast_nonneg _) pos.le)
  have restored : (attempt factor memory 0 : ℚ) / factor ≤ memory := (div_le_iff₀ pos).mpr cut
  calc ⌊(attempt factor memory 0 : ℚ) / factor⌋₊ ≤ ⌊(memory : ℚ)⌋₊ := Nat.floor_le_floor restored
    _ = memory := Nat.floor_natCast memory

@[simp] theorem withMemory_ram (d : TaskDescription) (n : ℕ) : (d.withMemory n).resourceLimits.amounts .ram = n := by
  show Function.update d.resourceLimits.amounts .ram (n : ℤ) .ram = n
  exact Function.update_self ..

/-! ## What the events do -/

variable {env : Env} {R : Runner} {id : String} {item : TaskItem}

theorem startSolution_ok_iff {d : TaskDescription} : (startSolution env R id d).1 = .ok () ↔ Startable env R id d := by
  unfold startSolution Startable
  split
  next msg refused => simp [refused]
  next accepted =>
    split
    next e raised => simp [raised]
    next prepared =>
      simp only [accepted, prepared, true_and]
      by_cases room : R.manager.Accepts (.task d) env.node
      · exact iff_of_true (claim_accepted room) room
      · obtain ⟨e, refused⟩ := @claim_refused R.manager id _ _ room
        simp [refused, room]

/-- A reduction keeps the status. -/
theorem reduceMemory_status : (reduceMemory env item).status = item.status := by
  unfold reduceMemory
  split <;> rfl

/-- A start begins a run, or leaves the task with its limit reduced, or gives it up. -/
theorem startTask_cases (pending : item.status = .pending)
    (ok : ∃ reports, (startTask env R id item).outcome = .ok reports) :
    (Startable env R id (reduceMemory env item).description ∧ (startTask env R id item).item =
        some { reduceMemory env item with future := some .queued, status := .processing } ∧
      startedLimits env R id item = [(reduceMemory env item).memory]) ∨
    (¬ Startable env R id (reduceMemory env item).description ∧ startedLimits env R id item = [] ∧
      ∀ after, (startTask env R id item).item = some after →
        ∃ attempts, after = { reduceMemory env item with attempts := attempts }) := by
  have still : (reduceMemory env item).status = .pending := reduceMemory_status.trans pending
  rw [← startSolution_ok_iff]
  rcases started : startSolution env R id (reduceMemory env item).description with
    ⟨e | ⟨⟩, R'⟩
  · refine .inr ⟨nofun, ?_⟩
    cases e with
    | schedulerException msg =>
      by_cases given_up : (reduceMemory env item).attempts + 1 > 2
      · have solved : ∃ after, after.status = .error ∧ solveTask env R id item = (.ok false, R', after) := by
          simp only [solveTask, started, if_pos given_up]
          exact ⟨_, rfl, rfl⟩
        obtain ⟨after, failed, solved⟩ := solved
        rw [startedLimits, startTask, solved]
        simp only [failed, true_and]
        intro after same
        cases same
      · have solved : solveTask env R id item = (.ok false, R',
            { reduceMemory env item with attempts := (reduceMemory env item).attempts + 1 }) := by
          simp only [solveTask, started, if_neg given_up]
        rw [startedLimits, startTask, solved]
        simp only [still, true_and]
        intro after same
        cases same
        exact ⟨_, rfl⟩
    | _ =>
      obtain ⟨reports, ok⟩ := ok
      rw [startTask, solveTask, started] at ok
      cases ok
  · have solved : solveTask env R id item = (.ok true, R',
        { reduceMemory env item with future := some .queued, status := .processing }) := by
      simp only [solveTask, started]
    refine .inl ⟨rfl, ?_, ?_⟩
    · rw [startTask, solved]
      simp
    · rw [startedLimits, solved]
      rfl

/-- A task is speculative after a reduction, and has the part of its limit. -/
theorem reduceMemory_first (less : env.reducedMemoryLimit < 1) (fresh : item.speculative = false) :
    reduceMemory env item = { item with
      description := item.description.withMemory ⌊(item.memory : ℚ) * env.reducedMemoryLimit⌋₊
      speculative := true } :=
  if_pos ⟨less, fresh⟩

/-- A speculative task is not reduced again. -/
theorem reduceMemory_again (reduced : item.speculative = true) : reduceMemory env item = item := by
  refine if_neg fun h => ?_
  rw [reduced] at h
  cases h.2

/-- A task is exhausted after its run exactly when the result shows it and the task is speculative. -/
theorem exhausted_iff {after : TaskItem} {code : ℤ} (future : item.future = some (.finished code))
    (ran : item.AfterRun (env.workDir .task id) code id after) :
    after.Exhausted ↔ ShowsExhaustion env id item ∧ item.speculative = true := by
  simp only [ShowsExhaustion, future, some.injEq, Future.finished.injEq, exists_eq_left']
  cases ran with
  | failed msg fails =>
    have unread : ¬ (¬ (env.workDir .task id).Fails code ∧ ∃ s,
        (env.workDir .task id).results = .content (some s) ∧ s.OutOfMemory) := by
      intro ⟨fine, s, results, _⟩
      rw [results] at fails
      cases fails.resolve_left fine
    simp only [fails, true_and, unread, or_false]
    constructor
    · intro ⟨s, solution, exhausted, speculative⟩
      exact ⟨⟨s, solution, exhausted⟩, speculative⟩
    · intro ⟨⟨s, solution, exhausted⟩, speculative⟩
      exact ⟨s, solution, exhausted, speculative⟩
  | solved s fine results =>
    simp only [fine, results, false_or, reduceCtorEq, false_and, not_false_eq_true, true_and]
    constructor
    · intro ⟨s', same, exhausted, speculative⟩
      cases same
      exact ⟨⟨s, rfl, exhausted⟩, speculative⟩
    · intro ⟨⟨s', same, exhausted⟩, speculative⟩
      cases same
      exact ⟨s, rfl, exhausted, speculative⟩

/-- Preparation touches only the status and the error. -/
theorem prepareTask_keeps : (prepareTask env R id item).future = item.future ∧
      (prepareTask env R id item).speculative = item.speculative ∧
      (prepareTask env R id item).memory = item.memory := by
  unfold prepareTask
  split <;> exact ⟨rfl, rfl, rfl⟩

/-- A rescheduled task is pending, with the limit restored. -/
theorem reschedule_spec : (reschedule env R id item).status = .pending ∧ (reschedule env R id item).rescheduled = true ∧
      (reschedule env R id item).future = item.future ∧
      (reschedule env R id item).speculative = item.speculative ∧
      (reschedule env R id item).memory = ⌊(item.memory : ℚ) / env.reducedMemoryLimit⌋₊ := by
  obtain ⟨future, speculative, memory⟩ := @prepareTask_keeps env R id { item with
    description := item.description.withMemory ⌊(item.memory : ℚ) / env.reducedMemoryLimit⌋₊ }
  exact ⟨rfl, rfl, future, speculative, memory.trans (withMemory_ram _ _)⟩

/-- The result of a processed task, where nothing is raised: it has none yet, or it is rescheduled, or
it is submitted and no longer tracked. -/
theorem settleTask_cases (processing : item.status = .processing)
    (ok : ∃ reports, (settleTask env R id item).outcome = .ok reports) :
    (¬ ShowsExhaustion env id item ∧ (settleTask env R id item).item = some item) ∨
    (ShowsExhaustion env id item ∧ item.speculative = true ∧
      ∃ after, (settleTask env R id item).item = some after ∧ after.status = .pending ∧
        after.future = none ∧ after.speculative = true ∧ after.rescheduled = true ∧
        after.memory = ⌊(item.memory : ℚ) / env.reducedMemoryLimit⌋₊) ∨
    (¬ (ShowsExhaustion env id item ∧ item.speculative = true) ∧ (settleTask env R id item).item = none) := by
  obtain ⟨f, future, result⟩ := (settleTask_ok_iff processing).mp ok
  by_cases ended : HasEnded item.future item.status
  · obtain ⟨-, f', future', waits, runs⟩ := ended
    cases future.symm.trans future'
    obtain ⟨code, rfl, settles, readable⟩ := result waits runs
    rw [settleTask_processing processing]
    rcases @processTaskResult_done env R id item code future with
      ⟨-, -, m', -, after, ran, ⟨exhausted, done⟩ | ⟨sufficient, done⟩⟩ | ⟨unclean, -⟩
    · have shown := (exhausted_iff future ran).mp exhausted
      obtain ⟨pending, rescheduled, no_future, speculative, memory⟩ :=
        @reschedule_spec env (R.released .task id m') id after
      have same : after.future = none ∧ after.speculative = item.speculative ∧ after.memory = item.memory := by
        cases ran <;> exact ⟨rfl, rfl, rfl⟩
      refine .inr (.inl ⟨shown.1, shown.2, _, ?_, pending, no_future.trans same.1,
        speculative.trans (same.2.1.trans shown.2), rescheduled, same.2.2 ▸ memory⟩)
      rw [done, afterTaskResult, submitTask, pending]
    · refine .inr (.inr ⟨fun shown => sufficient ((exhausted_iff future ran).mpr shown), ?_⟩)
      rw [done, afterTaskResult, submitTask]
      cases ran with
      | failed msg fails => rw [errorText_solutionFailed]
      | solved s fine results => rfl
    · exact absurd ⟨settles, readable⟩ unclean
  · refine .inl ⟨?_, ?_⟩
    · rintro ⟨code, done, -⟩
      exact ended ⟨processing, _, done, by simp, by simp⟩
    have given : item.status = .processing → item.future ≠ none := by
      intro _ none
      rw [none] at future
      cases future
    have kept : promote item.future item.status = item.status := by
      rw [processing, promote, if_neg]
      intro h
      cases h.2
    rw [settleTask_waiting ended given, kept]

/-! ## Whole lives -/

variable {L L' : Life} {e : LifeEvent}

/-- The item of a task after so many runs and reschedules: there is one run for each reschedule and one
more while the task is processed, and the item has the limit of the next or current attempt. -/
structure TaskItem.Tracks (factor : ℚ) (memory runs reschedules : ℕ) (item : TaskItem) : Prop where
  phase : (item.status = .pending ∧ item.future = none ∧ runs = reschedules) ∨
    (item.status = .processing ∧ item.speculative = true ∧ runs = reschedules + 1)
  rescheduled : item.rescheduled = true ↔ 0 < reschedules
  fresh : item.speculative = false → reschedules = 0 ∧ item.memory = memory
  reduced : item.speculative = true → item.memory = attempt factor memory reschedules

/-- The invariant of a life: the runs have the limits of the attempts, and the item fits to them. -/
structure Life.Regular (factor : ℚ) (memory : ℕ) (L : Life) : Prop where
  limits : L.limits = (List.range L.limits.length).map fun k => (attempt factor memory k : ℤ)
  runs : L.limits.length ≤ L.reschedules + 1
  tracks : ∀ item, L.item = some item → item.Tracks factor memory L.limits.length L.reschedules

/-- In a regular life the plan works out exactly when there is at most one reschedule, and the restored
limit is the original one if there is a second run. -/
theorem Life.Regular.triedOnce_iff (h : L.Regular factor memory) (pos : 0 < factor) (less : factor < 1) :
    TriedOnce factor memory L ↔ L.reschedules ≤ 1 ∧ (2 ≤ L.limits.length → attempt factor memory 1 = memory) := by
  have at_index : ∀ (k : ℕ) (limit : ℤ), L.limits[k]? = some limit ↔
      k < L.limits.length ∧ limit = attempt factor memory k := by
    intro k limit
    rw [h.limits, length_map, length_range, getElem?_map, map_eq_some_iff]
    constructor
    · intro ⟨j, found, same⟩
      obtain ⟨within, rfl⟩ := List.getElem?_eq_some_iff.mp found
      rw [length_range] at within
      exact ⟨within, by rw [← same, getElem_range]⟩
    · intro ⟨within, same⟩
      exact ⟨k, getElem?_range within, same.symm⟩
  constructor
  · intro tried
    refine ⟨tried.once, fun two => ?_⟩
    have second := tried.second _ ((at_index 1 _).mpr ⟨two, rfl⟩)
    exact_mod_cast second
  · intro ⟨once, restored⟩
    refine ⟨?_, once, ?_, ?_⟩
    · intro limit found
      rw [((at_index 0 limit).mp found).2]
      exact Int.natCast_floor_eq_floor (mul_nonneg (Nat.cast_nonneg _) pos.le)
    · intro limit found
      obtain ⟨two, rfl⟩ := (at_index 1 limit).mp found
      rw [restored two]
    · intro limit mem
      obtain ⟨k, found⟩ := mem_iff_getElem?.mp mem
      obtain ⟨within, rfl⟩ := (at_index k limit).mp found
      have few : k = 0 ∨ k = 1 := by
        have := h.runs
        omega
      rcases few with rfl | rfl
      · exact_mod_cast attempt_zero_le less
      · exact_mod_cast attempt_one_le pos

/-- A life whose task is no longer tracked stays regular. -/
theorem Life.Regular.gone (h : L.Regular factor memory) : Life.Regular factor memory { L with item := none } := by
  refine ⟨h.limits, h.runs, ?_⟩
  intro item tracked
  cases tracked

/-- Another item that fits keeps a life regular. -/
theorem Life.Regular.withItem (h : L.Regular factor memory)
    (tracks : item.Tracks factor memory L.limits.length L.reschedules) :
    Life.Regular factor memory { L with item := some item } := by
  refine ⟨h.limits, h.runs, ?_⟩
  intro item' tracked
  cases tracked
  exact tracks

/-- The reduction gives a pending task the limit of its next attempt. -/
theorem TaskItem.Tracks.reduce {runs reschedules : ℕ}
    (h : item.Tracks factor memory runs reschedules) (less : factor < 1)
    (same : env.reducedMemoryLimit = factor) :
    (reduceMemory env item).speculative = true ∧ (reduceMemory env item).memory = attempt factor memory reschedules ∧
      (reduceMemory env item).future = item.future ∧
      (reduceMemory env item).rescheduled = item.rescheduled ∧
      (item.rescheduled = true → reduceMemory env item = item) := by
  cases speculative : item.speculative with
  | false =>
    obtain ⟨none, whole⟩ := h.fresh speculative
    rw [reduceMemory_first (same ▸ less) speculative, same, whole, none]
    refine ⟨rfl, ?_, rfl, rfl, ?_⟩
    · rw [Int.cast_natCast]
      exact withMemory_ram _ _
    · intro again
      have := h.rescheduled.mp again
      omega
  | true =>
    rw [reduceMemory_again speculative]
    exact ⟨speculative, h.reduced speculative, rfl, rfl, fun _ => rfl⟩

/-- What an event does to the counts of a life, and when it meets the condition: nothing that is
counted; a run, which is the first or has the limit restored; a reschedule, which is the first. -/
def Life.Counted (factor : ℚ) (memory : ℕ) (identifier : String) (L : Life) (e : LifeEvent)
    (L' : Life) : Prop :=
  (L'.limits.length = L.limits.length ∧ L'.reschedules = L.reschedules ∧ Restores factor memory identifier L e) ∨
    (L.limits.length = L.reschedules ∧ L'.limits.length = L.limits.length + 1 ∧ L'.reschedules = L.reschedules ∧
      (Restores factor memory identifier L e ↔ (0 < L.reschedules → attempt factor memory 1 = memory))) ∨
    (L.limits.length = L.reschedules + 1 ∧ L'.limits.length = L.limits.length ∧ L'.reschedules = L.reschedules + 1 ∧
      (Restores factor memory identifier L e ↔ L.reschedules = 0))

theorem Life.Regular.start (h : L.Regular factor memory)
    (less : factor < 1) (step : L.Step factor id (.start env R) L') :
    L'.Regular factor memory ∧ L.Counted factor memory id (.start env R) L' := by
  obtain ⟨item, tracked, same, pending, ok, rfl⟩ := step
  have tracks := h.tracks item tracked
  obtain ⟨speculative, limit, future, rescheduled, again⟩ := tracks.reduce less same
  have waiting : item.future = none ∧ L.limits.length = L.reschedules := by
    rcases tracks.phase with ⟨-, waits, runs⟩ | ⟨processing, -⟩
    · exact ⟨waits, runs⟩
    · cases pending.symm.trans processing
  have restores : Restores factor memory id L (.start env R) ↔
      (0 < L.reschedules → Startable env R id (reduceMemory env item).description →
        attempt factor memory 1 = memory) := by
    constructor
    · intro met before startable
      have earlier := tracks.rescheduled.mpr before
      rw [again earlier] at startable
      exact met item tracked earlier startable
    · intro met item' tracked' earlier startable
      cases tracked.symm.trans tracked'
      rw [← again earlier] at startable
      exact met (tracks.rescheduled.mp earlier) startable
  rcases startTask_cases pending ok with ⟨startable, started, limits⟩ | ⟨refused, limits, left⟩
  · rw [started, limits]
    have length : (L.limits ++ [(reduceMemory env item).memory]).length = L.reschedules + 1 := by
      rw [length_append, waiting.2]
      rfl
    refine ⟨?_, .inr (.inl ⟨waiting.2, length_append, rfl, ?_⟩)⟩
    · constructor
      · show L.limits ++ [(reduceMemory env item).memory] = _
        rw [length_append, length_singleton, range_succ, map_append, ← h.limits, limit, waiting.2]
        rfl
      · exact length.le
      · intro item' tracked'
        cases tracked'
        exact ⟨.inr ⟨rfl, speculative, length⟩, rescheduled ▸ tracks.rescheduled,
          (fun no => by cases speculative.symm.trans no), fun _ => limit⟩
    · rw [restores]
      simp [startable]
  · rw [limits, append_nil]
    refine ⟨?_, .inl ⟨rfl, rfl, ?_⟩⟩
    · cases after : (startTask env R id item).item with
      | none => exact h.gone
      | some after' =>
        obtain ⟨attempts, rfl⟩ := left after' after
        exact h.withItem ⟨.inl ⟨reduceMemory_status.trans pending, future.trans waiting.1,
          waiting.2⟩, rescheduled ▸ tracks.rescheduled, (fun no => by cases speculative.symm.trans no), fun _ => limit⟩
    · rw [restores]
      exact fun _ startable => absurd startable refused

theorem Life.Regular.result (h : L.Regular factor memory) (step : L.Step factor id (.result env R) L') :
    L'.Regular factor memory ∧ L.Counted factor memory id (.result env R) L' := by
  obtain ⟨item, tracked, same, ok, rfl⟩ := step
  have tracks := h.tracks item tracked
  have restores : Restores factor memory id L (.result env R) ↔
      (0 < L.reschedules → item.status = .processing → ¬ ShowsExhaustion env id item) := by
    constructor
    · intro met before
      exact met item tracked (tracks.rescheduled.mpr before)
    · intro met item' tracked' earlier
      cases tracked.symm.trans tracked'
      exact met (tracks.rescheduled.mp earlier)
  rcases tracks.phase with ⟨pending, waits, runs⟩ | ⟨processing, speculative, runs⟩
  · -- a pending task has no future and is passed over
    have idle : item.status ≠ .processing := by
      rw [pending]
      nofun
    have kept : (settleTask env R id item).item = some item := by
      rw [settleTask_waiting (fun ended => idle ended.1) (fun processing => absurd processing idle),
        promote, waits, if_neg (by simp), ← waits]
    have uncounted : putsBack item (some item) = 0 := if_neg fun back => idle back.1
    rw [kept, uncounted]
    exact ⟨tracked ▸ h, .inl ⟨rfl, rfl, restores.mpr fun _ processing => absurd processing idle⟩⟩
  · rcases settleTask_cases processing ok with ⟨fine, kept⟩ |
      ⟨shown, -, after, put_back, pending, no_future, again, rescheduled, limit⟩ | ⟨fine, gone⟩
    · have uncounted : putsBack item (some item) = 0 := if_neg fun back => by
        simp [processing] at back
      rw [kept, uncounted]
      exact ⟨tracked ▸ h, .inl ⟨rfl, rfl, restores.mpr fun _ _ => fine⟩⟩
    · have counted : putsBack item (some after) = 1 := if_pos ⟨processing, by simp [pending]⟩
      rw [put_back, counted]
      have tracks' : after.Tracks factor memory L.limits.length (L.reschedules + 1) := by
        refine ⟨.inl ⟨pending, no_future, runs⟩, iff_of_true rescheduled (Nat.succ_pos _),
          (fun no => by cases again.symm.trans no), fun _ => ?_⟩
        rw [limit, same, tracks.reduced speculative, Int.cast_natCast]
        rfl
      refine ⟨⟨h.limits, h.runs.trans (Nat.le_succ _), ?_⟩, .inr (.inr ⟨runs, rfl, rfl, ?_⟩)⟩
      · intro item' tracked'
        cases tracked'
        exact tracks'
      · rw [restores]
        constructor
        · intro met
          by_contra before
          exact met (Nat.pos_of_ne_zero before) processing shown
        · intro none before
          exact absurd none before.ne'
    · have uncounted : putsBack item none = 0 := if_neg fun back => by
        simp at back
      rw [gone, uncounted]
      exact ⟨h.gone, .inl ⟨rfl, rfl, restores.mpr fun _ _ shown => fine ⟨shown, speculative⟩⟩⟩

theorem Life.Regular.step (h : L.Regular factor memory) (less : factor < 1) (step : L.Step factor id e L') :
    L'.Regular factor memory ∧ L.Counted factor memory id e L' := by
  cases e with
  | start env R => exact h.start less step
  | result env R => exact h.result step
  | prepare env R =>
    obtain ⟨item, tracked, -, -, rfl⟩ := step
    refine ⟨?_, .inl ⟨rfl, rfl, trivial⟩⟩
    unfold prepareStep
    split
    · exact h.gone
    · exact tracked ▸ h
  | progress future =>
    obtain ⟨item, tracked, unfinished, rfl⟩ := step
    refine ⟨h.withItem ?_, .inl ⟨rfl, rfl, trivial⟩⟩
    have tracks := h.tracks item tracked
    refine ⟨.inr (tracks.phase.resolve_left ?_), tracks.rescheduled, tracks.fresh, tracks.reduced⟩
    intro pending
    rw [pending.2.1] at unfinished
    simp at unfinished

theorem Life.regular_new {description : TaskDescription} (limit : description.resourceLimits.amounts .ram = memory) :
    (Life.new description).Regular factor memory := by
  refine ⟨rfl, Nat.zero_le _, ?_⟩
  intro item tracked
  cases tracked
  refine ⟨.inl ⟨rfl, rfl, rfl⟩, iff_of_false nofun (lt_irrefl 0), fun _ => ⟨rfl, limit⟩, ?_⟩
  intro speculative
  cases speculative

/-- Let a task be tracked with a memory limit, and let the factor be less than one. After every run of
events the speculation has been tried at most once exactly when every event of the run restores the
limit: a rescheduled task starts again only if cutting off the fraction twice leaves its limit, and
does not show too little memory again. -/
theorem limits_triedOnce_iff {factor : ℚ} (pos : 0 < factor) (less : factor < 1)
    {description : TaskDescription} {memory : ℕ}
    (limit : description.resourceLimits.amounts .ram = memory) {identifier : String}
    {events : List LifeEvent} {L : Life}
    (run : Run (Life.Step factor identifier) (Life.new description) events L) :
    TriedOnce factor memory L ↔
      Run (fun L e L' => L.Step factor identifier e L' ∧ Restores factor memory identifier L e)
        (Life.new description) events L := by
  have start := @Life.regular_new factor memory description limit
  refine run.iff_conditional (I := Life.Regular factor memory) ⟨start, ?_⟩ ?_ ?_
  · exact (start.triedOnce_iff pos less).mpr ⟨Nat.zero_le 1, nofun⟩
  · intro L e L' h step
    exact (h.step less step).1
  · intro L e L' h step
    obtain ⟨h', counted⟩ := h.step less step
    rw [h.triedOnce_iff pos less, h'.triedOnce_iff pos less]
    rcases counted with ⟨runs, times, met⟩ | ⟨idle, runs, times, met⟩ | ⟨busy, runs, times, met⟩
    · rw [runs, times]
      exact ⟨fun tried => ⟨tried, met⟩, fun tried => tried.1⟩
    · rw [runs, times, idle, met]
      grind
    · rw [runs, times, busy, met]
      grind

/-- The small environment with the factor one half, where each run leaves one solution. -/
def halfEnv (status : String) : Env :=
  { smallEnv with
    workDir := fun _ _ => ⟨true, 1, none, .content (some ⟨some status⟩), none⟩
    reducedMemoryLimit := 1 / 2
    reduced_pos := by norm_num
    reduced_le := by norm_num }

/-- Each run shows too little memory. -/
abbrev tightEnv : Env := halfEnv "OUT OF MEMORY"

/-- A task with some units of memory. -/
def unitsTask (units : ℕ) : TaskDescription := ⟨"job", .low, plainLimits 1 units 1⟩

@[inherit_doc unitsTask]
abbrev threeTask : TaskDescription := unitsTask 3

/-- The speculative task with another limit. -/
def triedItem (memory : ℕ) (status : ItemStatus) (future : Option Future)
    (solution : Option (Option Solution)) (rescheduled : Bool) : TaskItem :=
  ⟨status, threeTask.withMemory memory, future, none, solution, true, rescheduled, 0⟩

/-- The runner without the task, and with the task started. -/
def idleRunner : Runner := ⟨smallManager, fun _ => []⟩

@[inherit_doc idleRunner]
def busyRunner (memory : ℕ) : Runner :=
  (startSolution (halfEnv "") idleRunner "task" (threeTask.withMemory memory)).2

variable {units memory : ℕ}

/-- The limit that is set does not depend on the one before. -/
theorem unitsTask_withMemory : (unitsTask units).withMemory memory = threeTask.withMemory memory := by
  simp only [TaskDescription.withMemory, Limits.withMemory, unitsTask, plainLimits]
  congr 2
  funext r
  cases r <;> simp [amounts]

theorem units_first (few : units = 2 ∨ units = 3) : startTask tightEnv idleRunner "task" (.new (unitsTask units)) =
        ⟨.ok [.taskStatus "task" .processing], busyRunner 1, some (triedItem 1 .processing (some .queued) none false)⟩ ∧
      startedLimits tightEnv idleRunner "task" (.new (unitsTask units)) = [1] := by
  have reduced : reduceMemory tightEnv (.new (unitsTask units)) = triedItem 1 .pending none none false := by
    have less : tightEnv.reducedMemoryLimit < 1 := by
      show (1 / 2 : ℚ) < 1
      norm_num
    have cut : ⌊((TaskItem.new (unitsTask units)).memory : ℚ) * tightEnv.reducedMemoryLimit⌋₊ = 1 := by
      show ⌊((units : ℤ) : ℚ) * (1 / 2)⌋₊ = 1
      rcases few with rfl | rfl <;> norm_num
    rw [reduceMemory_first less rfl, cut]
    exact congrArg (TaskItem.mk .pending · none none none true false 0) unitsTask_withMemory
  have solved : solveTask tightEnv idleRunner "task" (.new (unitsTask units)) =
      (.ok true, busyRunner 1, triedItem 1 .processing (some .queued) none false) := by
    rw [solveTask, reduced]
    rfl
  rw [startTask, startedLimits, solved]
  exact ⟨rfl, rfl⟩

/-- The solution of a run out of memory. -/
def outOfMemorySolution : Option (Option Solution) := some (some ⟨some "OUT OF MEMORY"⟩)

theorem tried_again (small : memory = 2 ∨ memory = 4) :
    (startTask tightEnv idleRunner "task" (triedItem memory .pending none outOfMemorySolution true)) =
        ⟨.ok [], busyRunner memory, some (triedItem memory .processing (some .queued) outOfMemorySolution true)⟩ ∧
      startedLimits tightEnv idleRunner "task"
        (triedItem memory .pending none outOfMemorySolution true) = [(memory : ℤ)] := by
  have solved : solveTask tightEnv idleRunner "task"
      (triedItem memory .pending none outOfMemorySolution true) =
      (.ok true, busyRunner memory, triedItem memory .processing (some .queued) outOfMemorySolution true) := by
    rw [solveTask, reduceMemory_again rfl]
    rcases small with rfl | rfl <;> rfl
  rw [startTask, startedLimits, solved]
  rcases small with rfl | rfl <;> exact ⟨rfl, rfl⟩

theorem withMemory_withMemory (d : TaskDescription) (n k : ℕ) : (d.withMemory n).withMemory k = d.withMemory k := by
  simp [TaskDescription.withMemory, Limits.withMemory]

theorem tried_exhausted (small : memory = 1 ∨ memory = 2) (solution : Option (Option Solution)) (rescheduled : Bool) :
    (∃ reports, (settleTask tightEnv (busyRunner memory) "task"
        (triedItem memory .processing (some (.finished 0)) solution rescheduled)).outcome =
          .ok reports) ∧
      (settleTask tightEnv (busyRunner memory) "task"
        (triedItem memory .processing (some (.finished 0)) solution rescheduled)).item =
          some (triedItem (2 * memory) .pending none outOfMemorySolution true) := by
  have result : ∃ R', processTaskResult tightEnv (busyRunner memory) "task"
      (triedItem memory .processing (some (.finished 0)) solution rescheduled) =
      (.ok true, R', reschedule tightEnv R' "task"
        (triedItem memory .finished none outOfMemorySolution rescheduled)) := by
    rcases small with rfl | rfl <;> exact ⟨_, rfl⟩
  have restored : ∀ R', reschedule tightEnv R' "task"
      (triedItem memory .finished none outOfMemorySolution rescheduled) =
      triedItem (2 * memory) .pending none outOfMemorySolution true := by
    intro R'
    have doubled : ⌊((memory : ℤ) : ℚ) / (1 / 2)⌋₊ = 2 * memory := by
      rcases small with rfl | rfl <;> norm_num
    show (⟨.pending, (threeTask.withMemory memory).withMemory ⌊((memory : ℤ) : ℚ) / (1 / 2)⌋₊, none,
      none, outOfMemorySolution, true, true, 0⟩ : TaskItem) = _
    rw [doubled, withMemory_withMemory]
    rfl
  obtain ⟨R', result⟩ := result
  rw [settleTask_processing rfl, result, restored]
  exact ⟨⟨_, rfl⟩, rfl⟩

variable {L₀ : Life}

/-- A run of the task that ends out of memory. -/
theorem tried_round {events : List LifeEvent} (small : memory = 1 ∨ memory = 2)
    {solution : Option (Option Solution)} {rescheduled : Bool} {limits : List ℤ} {reschedules : ℕ}
    (run : Run (Life.Step (1 / 2) "task") L₀ events
      ⟨some (triedItem memory .processing (some .queued) solution rescheduled), limits, reschedules⟩) :
    ∃ events', Run (Life.Step (1 / 2) "task") L₀ events'
      ⟨some (triedItem (2 * memory) .pending none outOfMemorySolution true), limits, reschedules + 1⟩ := by
  obtain ⟨ok, put_back⟩ := tried_exhausted small solution rescheduled
  have done : Life.Step (1 / 2) "task"
      ⟨some (triedItem memory .processing (some .queued) solution rescheduled), limits, reschedules⟩
      (.progress (.finished 0))
      ⟨some (triedItem memory .processing (some (.finished 0)) solution rescheduled), limits,
        reschedules⟩ := ⟨_, rfl, .inl rfl, rfl⟩
  have settled : Life.Step (1 / 2) "task"
      ⟨some (triedItem memory .processing (some (.finished 0)) solution rescheduled), limits, reschedules⟩
      (.result tightEnv (busyRunner memory))
      ⟨some (triedItem (2 * memory) .pending none outOfMemorySolution true), limits, reschedules + 1⟩ := by
    refine ⟨_, rfl, rfl, ok, ?_⟩
    rw [put_back]
    rfl
  exact ⟨_, (run.snoc done).snoc settled⟩

/-- The task is started again after it ran out of memory. -/
theorem tried_restart {events : List LifeEvent} (small : memory = 2 ∨ memory = 4) {limits : List ℤ} {reschedules : ℕ}
    (run : Run (Life.Step (1 / 2) "task") L₀ events
      ⟨some (triedItem memory .pending none outOfMemorySolution true), limits, reschedules⟩) :
    ∃ events', Run (Life.Step (1 / 2) "task") L₀ events'
      ⟨some (triedItem memory .processing (some .queued) outOfMemorySolution true),
        limits ++ [(memory : ℤ)], reschedules⟩ := by
  obtain ⟨started, limit⟩ := tried_again small
  have again : Life.Step (1 / 2) "task"
      ⟨some (triedItem memory .pending none outOfMemorySolution true), limits, reschedules⟩
      (.start tightEnv idleRunner)
      ⟨some (triedItem memory .processing (some .queued) outOfMemorySolution true),
        limits ++ [(memory : ℤ)], reschedules⟩ := by
    refine ⟨_, rfl, rfl, rfl, ⟨_, congrArg Settled.outcome started⟩, ?_⟩
    rw [started, limit]
  exact ⟨_, run.snoc again⟩

/-- The task is started for the first time. -/
theorem units_start (few : units = 2 ∨ units = 3) :
    Life.Step (1 / 2) "task" (Life.new (unitsTask units)) (.start tightEnv idleRunner)
      ⟨some (triedItem 1 .processing (some .queued) none false), [1], 0⟩ := by
  obtain ⟨started, limit⟩ := units_first few
  refine ⟨_, rfl, rfl, rfl, ⟨_, congrArg Settled.outcome started⟩, ?_⟩
  rw [started, limit]
  rfl

/-- With three units of memory and the factor one half, a task that runs out of memory twice is
rescheduled twice, its second run has two units, and its third run four. -/
theorem limits_exceeded : ∃ events L, Run (Life.Step (1 / 2) "task") (Life.new threeTask) events L ∧
      L.limits = [1, 2, 4] ∧ L.reschedules = 2 := by
  obtain ⟨_, run⟩ := tried_round (.inl rfl) ((Run.nil _).snoc (units_start (.inr rfl)))
  obtain ⟨_, run⟩ := tried_restart (.inl rfl) run
  obtain ⟨_, run⟩ := tried_round (.inr rfl) run
  obtain ⟨_, run⟩ := tried_restart (.inr rfl) run
  exact ⟨_, _, run, rfl, rfl⟩

/-- With two units, a task that runs out of memory once is started again with both. -/
theorem limits_triedOnce_two : ∃ events L, Run (Life.Step (1 / 2) "task") (Life.new (unitsTask 2)) events L ∧
      L.limits = [1, 2] ∧ L.reschedules = 1 ∧ TriedOnce (1 / 2) (2 : ℕ) L ∧
      Run (fun L e L' => L.Step (1 / 2) "task" e L' ∧ Restores (1 / 2) 2 "task" L e)
        (Life.new (unitsTask 2)) events L := by
  obtain ⟨_, run⟩ := tried_round (.inl rfl) ((Run.nil _).snoc (units_start (.inl rfl)))
  obtain ⟨_, run⟩ := tried_restart (.inl rfl) run
  have tried : TriedOnce (1 / 2) (2 : ℕ)
      ⟨some (triedItem 2 .processing (some .queued) outOfMemorySolution true), [1, 2], 1⟩ := by
    refine ⟨?_, le_rfl, ?_, by simp⟩
    · rintro _ ⟨⟩
      norm_num
    · rintro _ ⟨⟩
      rfl
  exact ⟨_, _, run, rfl, rfl, tried, (limits_triedOnce_iff (by norm_num) (by norm_num) rfl run).mp tried⟩

end Klever.Scheduler
