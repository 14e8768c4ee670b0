import Klever.Scheduler.Schedule

/-!
# Freedom from deadlocks

A running job waits for its tasks, so a deadlock is a state in which the jobs hold so much that the
largest task one of them may have finds no node, not even when all other tasks are gone.
`DeadlockFree` says that this is not so: for each CPU model that tasks of running jobs require, the
largest task of that model can be placed, one after another, on nodes for tasks.

The check of the scheduler works on a copy of the status from which all tasks are released. The copy
is the status without tasks that `DeadlockFree` speaks about.
-/

namespace Klever.Scheduler

open Klever.Lib List Option

/-! ## Freedom from deadlocks -/

/-- A CPU model that is absent or empty is no particular model. -/
def normalized (model : Option String) : Option String := if truthy model then model else none

/-- The largest tasks that some jobs may have, one for each CPU model. -/
def requiredTasks (jobs : List JobConf) : List Limits :=
  ((taskLimits jobs).map fun l => normalized l.cpuModel).dedup.map fun model =>
    maxLimits model ((taskLimits jobs).filter fun l => normalized l.cpuModel = model)

/-- Tasks that can be placed, one after another, on nodes for tasks. -/
def Placeable : Status → List Limits → Prop
  | _, [] => True
  | status, task :: rest => ∃ node n, status.get? node = some n ∧ fulfillRequirement n task .task = true ∧
      Placeable (status.set node (n.withReserved (n.reserved + task.amounts))) rest

instance decidablePlaceable : ∀ (status : Status) (tasks : List Limits), Decidable (Placeable status tasks)
  | _, [] => isTrue trivial
  | status, task :: rest =>
    have := fun status => decidablePlaceable status rest
    decidable_of_iff (∃ e ∈ status.items, fulfillRequirement e.2 task .task = true ∧
        Placeable (status.set e.1 (e.2.withReserved (e.2.reserved + task.amounts))) rest) <| by
      simp only [Placeable, Prod.exists, Dict.mem_items_iff]

/-- The status with all tasks gone. -/
def withoutTasks (m : Manager) : Status :=
  m.systemStatus.mapVals fun _ n =>
    n.withReserved (n.reserved - ((n.running .task).map (m.limitOf .task)).sum)

/-- The configurations of the running jobs. -/
def runningJobs (m : Manager) : List JobConf :=
  (m.processing .job).filterMap fun j => m.jobsConfig.get? j.1

/-- With all tasks gone and all running jobs kept, there is room for the largest tasks. -/
def DeadlockFree (m : Manager) : Prop := Placeable (withoutTasks m) (requiredTasks (runningJobs m))

instance (m : Manager) : Decidable (DeadlockFree m) := decidablePlaceable _ _

variable {status : Status} {task : Limits} {n : Node} {m : Manager} {node : String}

/-- A requirement without a CPU model, on a node for tasks. -/
theorem fulfill_plain (plain : truthy task.cpuModel = false) : fulfillRequirement n task .task = true ↔
      n.availableForTasks = true ∧ ∀ r, task.amounts r ≤ freeResources n r := by
  simp [fulfillRequirement_iff, plain]

/-! ## The copy of the check -/

/-- What runs of a kind on a node, picked out of the list of everything that runs. -/
theorem processing_at {kind : Kind} {node : String} {n : Node} (found : m.systemStatus.get? node = some n) :
    (m.processing kind).filter (fun p => p.2 = node) = (n.running kind).map fun id => (id, node) := by
  unfold Manager.processing
  generalize m.systemStatus = status at found ⊢
  obtain ⟨items, nodup⟩ := status
  -- a node's name occurs once, so all other parts of the list are dropped
  induction items with
  | nil => cases found
  | cons e items ih =>
    obtain ⟨name, n'⟩ := e
    obtain ⟨fresh, nodup⟩ := nodup_cons.mp nodup
    rw [flatMap_cons, filter_append]
    simp only [Dict.get?, lookup_cons] at found
    by_cases here : node = name
    · subst here
      simp only [beq_self_eq_true, some.injEq] at found
      subst found
      have rest : (items.flatMap fun e =>
          (e.2.running kind).map fun id => (id, e.1)).filter
            (fun p => p.2 = node) = [] := by
        simp only [filter_eq_nil_iff, mem_flatMap, List.mem_map, decide_eq_true_eq]
        rintro p ⟨e, mem, _, _, rfl⟩ same
        exact fresh (List.mem_map.mpr ⟨e, mem, same⟩)
      rw [rest, append_nil, filter_eq_self.mpr]
      simp only [List.mem_map, decide_eq_true_eq]
      rintro p ⟨_, _, rfl⟩
      rfl
    · simp only [beq_eq_false_iff_ne.mpr here] at found
      have head : ((n'.running kind).map fun id => (id, name)).filter
          (fun p => p.2 = node) = [] := by
        simp only [filter_eq_nil_iff, List.mem_map, decide_eq_true_eq]
        rintro p ⟨_, _, rfl⟩ same
        exact here same.symm
      rw [head, nil_append]
      exact ih nodup found

/-- The limits of everything that runs, as bookings, load on each node what runs there. -/
theorem load_processing {kind : Kind} (found : m.systemStatus.get? node = some n) (limit : String → Amounts) :
    load ((m.processing kind).map fun p => (p.2, limit p.1)) node = ((n.running kind).map limit).sum := by
  rw [load, List.filter_map, List.map_map]
  have at_node := @processing_at m kind node n found
  simp only [Function.comp_def]
  rw [at_node, List.map_map]
  rfl

/-- Releasing in a copy takes the stored limits off. -/
theorem releaseAll_ok {kind : Kind} {running : List (String × String)} {status' : Status}
    (ok : releaseAll m kind running status = .ok status') :
    status' = status.mapVals fun node n => n.withReserved
      (n.reserved - load (running.map fun p => (p.2, m.limitOf kind p.1)) node) := by
  induction running generalizing status with
  | nil =>
    cases ok
    refine (Dict.mapVals_eq_self fun node n _ => ?_).symm
    rw [map_nil, load_nil, sub_zero, Node.withReserved_self]
  | cons p running ih =>
    obtain ⟨id, node⟩ := p
    simp only [releaseAll] at ok
    cases stored : m.stored kind id with
    | none =>
      rw [stored] at ok
      cases ok
    | some conf =>
      rw [stored] at ok
      obtain ⟨status₁, released, ok⟩ := bind_eq_ok_iff.mp ok
      rw [ih ok]
      have limit : m.limitOf kind id = conf.limits.amounts := by
        rw [Manager.limitOf, stored, map_some, getD_some]
      rcases amount : releaseAmount status conf.limits node with ⟨_ | ⟨⟩, st⟩
      · rw [amount] at released
        cases released
      · rw [amount] at released
        cases released
        obtain ⟨n, found, -, rfl⟩ := releaseAmount_ok_iff.mp amount
        refine Dict.ext_get? ?_ fun x => ?_
        · rw [Dict.keys_mapVals, Dict.keys_mapVals, Dict.keys_set_of_mem _ found]
        · rw [Dict.get?_mapVals, Dict.get?_mapVals, Dict.get?_set]
          simp only [map_cons, load_cons, limit]
          split
          next here =>
            subst here
            rw [found, map_some, map_some, Node.withReserved_reserved,
              Node.withReserved_withReserved, if_pos rfl, sub_sub]
          next elsewhere => rw [if_neg (Ne.symm elsewhere), zero_add]

/-- The configurations of running jobs, when none is missing. -/
theorem runningConfs_ok {running : List (String × String)} {confs : List (JobRef × JobConf)}
    (ok : runningConfs m running = .ok confs) :
    confs.map Prod.snd = running.filterMap (fun j => m.jobsConfig.get? j.1) ∧
      confs.map Prod.fst = running.map fun j => JobRef.running j.1 j.2 := by
  induction running generalizing confs with
  | nil =>
    cases ok
    exact ⟨rfl, rfl⟩
  | cons p running ih =>
    obtain ⟨id, node⟩ := p
    simp only [runningConfs] at ok
    cases found : m.jobsConfig.get? id with
    | none =>
      rw [found] at ok
      cases ok
    | some conf =>
      rw [found] at ok
      obtain ⟨rest, collected, same⟩ := bind_eq_ok_iff.mp ok
      cases same
      obtain ⟨confs, refs⟩ := ih collected
      simp [found, confs, refs]

/-- With all running jobs kept, the check starts from the status without tasks. -/
theorem createSystemStatus_kept {keep : List JobRef} {base : Status}
    (kept : ∀ j ∈ m.processing .job, JobRef.running j.1 j.2 ∈ keep)
    (ok : createSystemStatus m true true keep = .ok base) : base = withoutTasks m := by
  simp only [createSystemStatus, if_true, bind_eq_ok_iff] at ok
  obtain ⟨status, tasks, jobs⟩ := ok
  have none_left : (m.processing .job).filter (fun j => JobRef.running j.1 j.2 ∉ keep) = [] := by
    simp only [filter_eq_nil_iff, decide_eq_true_eq, not_not]
    exact kept
  rw [none_left] at jobs
  cases jobs
  rw [releaseAll_ok tasks]
  refine Dict.ext_get? ?_ fun x => ?_
  · rw [withoutTasks, Dict.keys_mapVals, Dict.keys_mapVals]
  · rw [withoutTasks, Dict.get?_mapVals, Dict.get?_mapVals]
    cases found : m.systemStatus.get? x with
    | none => rfl
    | some n => rw [map_some, map_some, load_processing found]

end Klever.Scheduler
