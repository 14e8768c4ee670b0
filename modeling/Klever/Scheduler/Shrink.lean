import Klever.Scheduler.Answers

/-!
# Do updates notice deadlocks?

If nodes get less resources or leave, jobs that run may not have room for their tasks any more. `update_system_status`
promises to report jobs and tasks to cancel then. It does report everything that runs on nodes that are not listed or do not
accept it any more. The deadlock check is of no help, though: it is made before new amounts are set, if one of them is *not*
reduced, and it never reports a violation. So `noticed_iff`: an update keeps the promise exactly when the checks it makes do
not raise and jobs that stay have room for their tasks in new amounts, without any of them being cancelled.
-/

namespace Klever.Scheduler

open Klever.Lib List Option

/-! ## What an update should do -/

/-- The record of a node that is described. -/
def Description.renew (d : Description) : Option Node → Node
  | some n => if n.status = .disconnected then d.node else (n.reflag d).resize d
  | none => d.node

variable (descriptions descs : Dict String (Option Description))

/-- A table where a node gets what is told of it. -/
def describe (status : Status) (name : String) : Status :=
  match descriptions.get? name with
  | some (some d) => status.set name (d.renew (status.get? name))
  | _ => status

/-- A table with new flags and amounts of all nodes. -/
def described (status : Status) : Status :=
  descriptions.keys.foldl (describe descriptions) status

/-- What runs on a listed node that does not accept it any more. -/
def stoppedAt (name : String) (n : Node) (kind : Kind) : List String :=
  match descriptions.get? name with
  | some (some d) => if n.status = .disconnected then [] else n.stopped d kind
  | _ => []

/-- What runs on nodes that are not listed or do not accept it any more. -/
def leaving (m : Manager) (descriptions : Dict String (Option Description)) (kind : Kind) : List String :=
  m.systemStatus.items.flatMap fun (name, n) =>
    if name ∈ descriptions.keys then stoppedAt descriptions name n kind else n.running kind

/-- Nodes that are connected. -/
def Manager.online (m : Manager) : Manager := m.withStatus (m.systemStatus.filter fun _ n => n.status ≠ .disconnected)

/-- An update returns all jobs and tasks that leave, and without those that it returns connected nodes have room for the
largest tasks. -/
def Noticed (m : Manager) (descriptions : Dict String (Option Description)) : Prop :=
  ∃ cancel, (updateSystemStatus m descriptions).1 = .ok cancel ∧ (∀ kind, leaving m descriptions kind ⊆ cancel kind) ∧
    DeadlockFree ((updateSystemStatus m descriptions).2.without cancel).online

/-- Jobs and tasks that stay, on nodes that stay, with new flags and amounts. -/
def staying (m : Manager) (descriptions : Dict String (Option Description)) : Manager :=
  (m.withStatus ((described descriptions m.systemStatus).filter fun name n =>
    name ∈ descriptions.keys ∧ n.status ≠ .disconnected)).without (leaving m descriptions)

/-- The deadlock check is made for a node, in the state that is reached before, with new flags of the node. -/
def Update.Passes (u : Update) (name : String) : Prop :=
  ∀ d n, descriptions.get? name = some (some d) → u.manager.systemStatus.get? name = some n → n.status ≠ .disconnected →
    n.notReduced d = true → (u.withNode name (n.reflag d)).manager.CheckReturns none

/-! ## One node -/

namespace Update

variable {descs : Dict String (Option Description)} {u : Update} {name : String}

/-- New flags keep books. -/
theorem books_reflag (books : u.manager.Books) {n : Node} (found : u.manager.systemStatus.get? name = some n)
    (d : Description) : (u.withNode name (n.reflag d)).manager.Books := by
  have near : u.manager.Near (u.withNode name (n.reflag d)).manager := by
    refine ⟨fun _ => rfl, fun other p at' => ?_⟩
    obtain ⟨same, rfl⟩ | ⟨-, at'⟩ := Dict.of_get?_set at'
    · exact .inl ⟨n, same ▸ found, rfl, le_rfl⟩
    · exact .inl ⟨p, at', rfl, le_rfl⟩
  exact near.books books

/-- Amounts are set unless the check is made and raises. -/
theorem resizeNode_spec (books : u.manager.Books) (name : String) (n : Node) (d : Description) :
    ((u.resizeNode name n d).1 = .ok () ↔ (n.notReduced d = true → u.manager.CheckReturns none)) ∧
      ((u.resizeNode name n d).1 = .ok () → (u.resizeNode name n d).2 = u.withNode name (n.resize d)) := by
  obtain ⟨returns, answers⟩ := @check_spec u.manager none books
  rw [resizeNode]
  split
  next made =>
    rcases checked : checkInvariant u.manager none with e | verdict
    · have raises : ¬ u.manager.CheckReturns none := by
        intro fine
        obtain ⟨ranking, -, ok⟩ := returns fine
        rw [checked] at ok
        cases ok
      exact ⟨iff_of_false nofun fun fine => raises (fine made), nofun⟩
    · obtain ⟨fine, ranking, rfl⟩ := answers verdict checked
      exact ⟨iff_of_true rfl fun _ => fine, fun _ => rfl⟩
  next skipped => exact ⟨iff_of_true rfl fun made => absurd made skipped, fun _ => rfl⟩

theorem withNode_withNode (u : Update) (name : String) (n n' : Node) :
    (u.withNode name n).withNode name n' = u.withNode name n' := by
  simp only [withNode, Manager.withStatus, Dict.set_set]

/-- A visit goes through unless the check raises, and then the node gets what is told of it. -/
theorem visitNode_spec (books : u.manager.Books) (name : String) :
    ((u.visitNode descs name).1 = .ok () ↔ u.Passes descs name) ∧
      ((u.visitNode descs name).1 = .ok () → (u.visitNode descs name).2.manager =
            u.manager.withStatus (describe descs u.manager.systemStatus name) ∧
          ∀ kind, (u.visitNode descs name).2.cancel kind = u.cancel kind ++
            ((u.manager.systemStatus.get? name).map fun n => stoppedAt descs name n kind).getD []) := by
  rcases told : descs.get? name with _ | _ | d
  case none | some.none =>
    have passes : u.Passes descs name := by
      intro d n is
      rw [told] at is
      cases is
    simp only [visitNode, describe, stoppedAt, told]
    refine ⟨iff_of_true trivial passes, fun _ => ⟨rfl, fun kind => ?_⟩⟩
    cases u.manager.systemStatus.get? name with
    | none => exact (append_nil _).symm
    | some n => exact (append_nil _).symm
  case some.some =>
    rcases found : u.manager.systemStatus.get? name with _ | n
    · have passes : u.Passes descs name := by
        intro d n _ is
        rw [found] at is
        cases is
      simp only [visitNode, describe, told, found, Description.renew]
      exact ⟨iff_of_true trivial passes, fun _ => ⟨rfl, fun kind => (append_nil _).symm⟩⟩
    · by_cases gone : n.status = .disconnected
      · have passes : u.Passes descs name := by
          intro d n' _ is connected
          rw [found] at is
          exact absurd (some.inj is ▸ gone) connected
        simp only [visitNode, describe, stoppedAt, told, found, Description.renew, if_pos gone, map_some, getD_some]
        exact ⟨iff_of_true trivial passes, fun _ => ⟨rfl, fun kind => (append_nil _).symm⟩⟩
      · have passes : u.Passes descs name ↔
            (n.notReduced d = true → (u.withNode name (n.reflag d)).manager.CheckReturns none) := by
          constructor
          · exact fun h => h d n told found gone
          · intro h d' n' told' found' _
            obtain rfl : d = d' := some.inj (some.inj (told.symm.trans told'))
            obtain rfl : n = n' := some.inj (found.symm.trans found')
            exact h
        obtain ⟨iff, done⟩ := resizeNode_spec (u := (u.extend (n.stopped d)).withNode name (n.reflag d))
          (books_reflag books found d) name (n.reflag d) d
        simp only [visitNode, describe, stoppedAt, told, found, Description.renew, if_neg gone, refreshNode, map_some,
          getD_some]
        rw [passes]
        refine ⟨iff, fun ok => ?_⟩
        rw [done ok, withNode_withNode]
        exact ⟨rfl, fun _ => rfl⟩

end Update

/-! ## All nodes -/

variable {names : List String} {descs : Dict String (Option Description)}

theorem describe_other {status : Status} {name other : String} (differs : other ≠ name) :
    (describe descs status name).get? other = status.get? other := by
  unfold describe
  split
  · exact Dict.get?_set_of_ne _ _ differs
  · rfl

theorem foldl_describe_other {other : String} (outside : other ∉ names) (status : Status) :
    (names.foldl (describe descs) status).get? other = status.get? other := by
  induction names generalizing status with
  | nil => rfl
  | cons name rest ih =>
    rw [mem_cons, not_or] at outside
    rw [foldl_cons, ih outside.2, describe_other outside.1]

/-- A visit keeps books, also if it raises. -/
theorem Update.books_visitNode {u : Update} (books : u.manager.Books) (name : String) :
    (u.visitNode descs name).2.manager.Books := by
  obtain ⟨status, same, near⟩ := @Update.visitNode_near descs u name
  rw [same]
  have kept : u.manager.Near (u.manager.withStatus status) := ⟨fun _ => rfl, near⟩
  exact kept.books books

/-- What the loop over listed nodes does if it goes through. -/
theorem visitAll_ok (nodup : names.Nodup) {u : Update} (books : u.manager.Books)
    (ok : (forEach (Update.visitNode descs) u names).1 = .ok ()) :
    (forEach (Update.visitNode descs) u names).2.manager =
        u.manager.withStatus (names.foldl (describe descs) u.manager.systemStatus) ∧
      ∀ kind, (forEach (Update.visitNode descs) u names).2.cancel kind = u.cancel kind ++ names.flatMap fun name =>
        ((u.manager.systemStatus.get? name).map fun n => stoppedAt descs name n kind).getD [] := by
  induction names generalizing u with
  | nil => exact ⟨rfl, fun kind => (append_nil _).symm⟩
  | cons name rest ih =>
    obtain ⟨outside, nodup⟩ := nodup_cons.mp nodup
    obtain ⟨first, later⟩ := forEach_cons_ok.mp ok
    obtain ⟨manager, cancel⟩ := (Update.visitNode_spec books name).2 first
    obtain ⟨manager', cancel'⟩ := ih nodup (Update.books_visitNode books name) later
    rw [forEach_cons_of_ok first, manager', manager]
    refine ⟨rfl, fun kind => ?_⟩
    rw [cancel', cancel, flatMap_cons, append_assoc]
    congr 2
    -- the other nodes are as they were before the visit
    refine flatMap_congr fun other mem => ?_
    have differs : other ≠ name := fun same => outside (same ▸ mem)
    rw [manager, Manager.withStatus_systemStatus, describe_other differs]

variable {m : Manager}

/-- An update returns exactly when each check that it makes does. -/
theorem update_ok_iff (books : m.Books) : (∃ cancel, (updateSystemStatus m descs).1 = .ok cancel) ↔
    Along (Update.visitNode descs) (Update.Passes descs) ⟨m, fun _ => []⟩ descs.keys := by
  rw [← forEach_ok_iff_of_invariant (I := fun u : Update => u.manager.Books)
    (fun u name books => Update.books_visitNode books name) (fun u name books => (Update.visitNode_spec books name).1) books]
  rw [updateSystemStatus]
  rcases forEach (Update.visitNode descs) ⟨m, fun _ => []⟩ descs.keys with ⟨e | ⟨⟩, u⟩
  · exact iff_of_false (by simp) (by simp)
  · exact iff_of_true ⟨_, rfl⟩ rfl

/-- What an update that returns leaves, and what it asks to cancel. -/
theorem update_ok (books : m.Books) {cancel : Kind → List String} (ok : (updateSystemStatus m descs).1 = .ok cancel) :
    (updateSystemStatus m descs).2 = m.withStatus (((described descs m.systemStatus).mapVals fun name n =>
        if name ∈ descs.keys then n else n.disconnect).mapVals fun _ n => n.examine) ∧
      ∀ kind identifier, identifier ∈ cancel kind ↔ identifier ∈ leaving m descs kind := by
  rw [updateSystemStatus] at ok ⊢
  rcases loop : forEach (Update.visitNode descs) ⟨m, fun _ => []⟩ descs.keys with ⟨e | ⟨⟩, u⟩
  · rw [loop] at ok
    cases ok
  · have through : (forEach (Update.visitNode descs) ⟨m, fun _ => []⟩ descs.keys).1 = .ok () := by rw [loop]
    have nodup : descs.keys.Nodup := descs.nodup
    obtain ⟨manager, stopped⟩ := visitAll_ok nodup (u := ⟨m, fun _ => []⟩) books through
    rw [loop] at ok manager stopped
    obtain rfl := Except.ok.inj ok
    refine ⟨?_, fun kind identifier => ?_⟩
    · dsimp only [Update.finish]
      rw [manager]
      rfl
    · dsimp only [Update.finish]
      rw [stopped, manager]
      simp only [nil_append, mem_append, mem_flatMap, mem_filter, leaving, Prod.exists,
        decide_eq_true_eq, Manager.withStatus_systemStatus, Dict.mem_items_iff]
      constructor
      · rintro (⟨name, listed, mem⟩ | ⟨name, n, ⟨found, outside⟩, mem⟩)
        · rcases found : m.systemStatus.get? name with _ | n
          · rw [found] at mem
            cases mem
          · rw [found] at mem
            refine ⟨name, n, found, ?_⟩
            rw [if_pos listed]
            exact mem
        · rw [foldl_describe_other outside] at found
          refine ⟨name, n, found, ?_⟩
          rw [if_neg outside]
          exact mem
      · rintro ⟨name, n, found, mem⟩
        by_cases listed : name ∈ descs.keys
        · rw [if_pos listed] at mem
          refine .inl ⟨name, listed, ?_⟩
          rw [found]
          exact mem
        · rw [if_neg listed] at mem
          exact .inr ⟨name, n, ⟨(foldl_describe_other listed _).trans found, listed⟩, mem⟩

/-! ## Freedom from deadlocks -/

/-- A record without its connection status. -/
def Node.strip (n : Node) : Node := { n with status := .healthy }

/-- Room for tasks does not depend on connection statuses. -/
theorem placeable_strip {status status' : Status}
    (same : ∀ name, (status.get? name).map Node.strip = (status'.get? name).map Node.strip) (tasks : List Limits)
    (room : Placeable status tasks) : Placeable status' tasks := by
  induction tasks generalizing status status' with
  | nil => trivial
  | cons task rest ih =>
    obtain ⟨node, n, found, fulfills, later⟩ := room
    have there := same node
    rw [found, map_some, eq_comm, map_eq_some_iff] at there
    obtain ⟨n', found', stripped⟩ := there
    have fields : n'.reserved = n.reserved ∧ fulfillRequirement n' task .task = fulfillRequirement n task .task := by
      have reserved : n'.strip.reserved = n.strip.reserved := by rw [stripped]
      have suits : fulfillRequirement n'.strip task .task = fulfillRequirement n.strip task .task := by rw [stripped]
      exact ⟨reserved, suits⟩
    refine ⟨node, n', found', fields.2 ▸ fulfills, ih (fun name => ?_) later⟩
    rw [Dict.get?_set, Dict.get?_set]
    split
    · have both : (n.withReserved (n.reserved + task.amounts)).strip =
          (n'.withReserved (n'.reserved + task.amounts)).strip := by
        rw [fields.1]
        exact congrArg (Node.withReserved · (n.reserved + task.amounts)) stripped.symm
      rw [map_some, map_some, both]
    · exact same name

/-- Freedom from deadlocks does not depend on connection statuses. -/
theorem deadlockFree_strip {m' : Manager} (status : m.systemStatus.mapVals (fun _ n => n.strip) =
      m'.systemStatus.mapVals fun _ n => n.strip)
    (jobs : m.jobsConfig = m'.jobsConfig) (tasks : m.tasksConfig = m'.tasksConfig) (free : DeadlockFree m) :
    DeadlockFree m' := by
  have processing : m.processing .job = m'.processing .job := by
    have running (m : Manager) : m.processing .job = (m.systemStatus.mapVals fun _ n => n.strip).items.flatMap fun e =>
        (e.2.running .job).map fun identifier => (identifier, e.1) := by
      rw [Manager.processing, Dict.mapVals, flatMap_map]
      rfl
    rw [running, running, status]
  have confs : runningJobs m = runningJobs m' := by rw [runningJobs, runningJobs, processing, jobs]
  have limit : m.limitOf .task = m'.limitOf .task := by
    funext identifier
    rw [Manager.limitOf, Manager.limitOf, Manager.stored, Manager.stored, tasks]
  rw [DeadlockFree, confs] at free
  refine placeable_strip (fun name => ?_) _ free
  have there := congrArg (Dict.get? · name) status
  simp only [Dict.get?_mapVals] at there
  have apart (m : Manager) : ((withoutTasks m).get? name).map Node.strip =
      ((m.systemStatus.get? name).map Node.strip).map fun n =>
        n.withReserved (n.reserved - ((n.running .task).map (m.limitOf .task)).sum) := by
    rw [withoutTasks, Dict.get?_mapVals, Option.map_map, Option.map_map]
    rfl
  rw [apart, apart, there, limit]

theorem Manager.without_congr {gone gone' : Kind → List String}
    (same : ∀ kind identifier, identifier ∈ gone kind ↔ identifier ∈ gone' kind) : m.without gone = m.without gone' := by
  simp only [Manager.without, Node.without, same]

/-- Examined nodes are connected if they are listed and were connected. -/
theorem examine_connected {name : String} {n : Node} :
    (if name ∈ names then n else n.disconnect).examine.status ≠ .disconnected ↔ name ∈ names ∧ n.status ≠ .disconnected := by
  unfold Node.examine
  by_cases listed : name ∈ names
  · simp only [listed, true_and]
    split_ifs <;> simp_all
  · simp only [listed, false_and, iff_false, not_not]
    rfl

/-- Connected nodes after an update, without jobs and tasks that leave, are those that stay. -/
theorem online_eq_staying (m : Manager) (descs : Dict String (Option Description)) :
    (((m.withStatus (((described descs m.systemStatus).mapVals fun name n =>
      if name ∈ descs.keys then n else n.disconnect).mapVals fun _ n => n.examine)).without
        (leaving m descs)).online.systemStatus.mapVals fun _ n => n.strip) =
      (staying m descs).systemStatus.mapVals fun _ n => n.strip := by
  have same (name : String) (n : Node) :
      (if name ∈ descs.keys then n else n.disconnect).examine.strip = n.strip := by
    unfold Node.examine
    split_ifs <;> rfl
  ext1
  simp only [Manager.online, staying, Manager.without, Manager.withStatus_systemStatus, Dict.mapVals, Dict.filter,
    List.map_map, List.filter_map]
  have chosen : (described descs m.systemStatus).items.filter (fun e =>
      ((if e.1 ∈ descs.keys then e.2 else e.2.disconnect).examine.status ≠ .disconnected : Bool)) =
      (described descs m.systemStatus).items.filter fun e =>
        (e.1 ∈ descs.keys ∧ e.2.status ≠ .disconnected : Bool) := by
    refine filter_congr fun e _ => ?_
    rw [decide_eq_decide]
    exact examine_connected
  refine Eq.trans (congrArg (List.map _) chosen) (map_congr_left fun e _ => ?_)
  exact Prod.ext rfl (congrArg (Node.without · m.limitOf (leaving m descs)) (same e.1 e.2))

/-- An update notices everything exactly when the checks it makes do not raise and jobs that stay have room for their
tasks. -/
theorem noticed_iff {maxJobs poolSize : ℤ} {isAdjustPoolSize : Bool} {history : List Transition} {m : Manager}
    (run : Run Transition.Step (.init maxJobs poolSize isAdjustPoolSize) history m)
    (descriptions : Dict String (Option Description)) :
    Noticed m descriptions ↔
      Along (Update.visitNode descriptions) (Update.Passes descriptions) ⟨m, fun _ => []⟩ descriptions.keys ∧
        DeadlockFree (staying m descriptions) := by
  have books := books_of_run run
  rw [← update_ok_iff books]
  have stays {cancel : Kind → List String} (ok : (updateSystemStatus m descriptions).1 = .ok cancel) :
      DeadlockFree ((updateSystemStatus m descriptions).2.without cancel).online ↔
        DeadlockFree (staying m descriptions) := by
    obtain ⟨manager, same⟩ := update_ok books ok
    rw [manager, Manager.without_congr same]
    have equal := online_eq_staying m descriptions
    exact ⟨deadlockFree_strip equal rfl rfl, deadlockFree_strip equal.symm rfl rfl⟩
  constructor
  · rintro ⟨cancel, ok, -, free⟩
    exact ⟨⟨cancel, ok⟩, (stays ok).mp free⟩
  · rintro ⟨⟨cancel, ok⟩, free⟩
    exact ⟨cancel, ok, fun kind identifier => ((update_ok books ok).2 kind identifier).mpr, (stays ok).mpr free⟩

/-- The controller lists one node with other amounts. -/
def shrunkNode (cpu ram disk : ℕ) : Dict String (Option Description) where
  items := [("node", some { tenDescription true with
    available := amounts cpu ram disk
    available_nonneg := amounts_nonneg cpu ram disk })]
  nodup := nodup_singleton _

/-- An update has nothing to cancel. -/
theorem nothing_cancelled
    (lists : (updateSystemStatus m descs).1.map (fun cancel => (cancel .job, cancel .task)) = .ok ([], [])) :
    (updateSystemStatus m descs).1 = .ok fun _ => [] := by
  rcases answer : (updateSystemStatus m descs).1 with e | cancel
  · rw [answer] at lists
    cases lists
  · rw [answer] at lists
    have pair := Except.ok.inj lists
    rw [Prod.mk.injEq] at pair
    congr
    funext kind
    cases kind
    · exact pair.1
    · exact pair.2

/-- A node gets less than before, but a job that runs there still has room for its tasks. -/
theorem noticed_one : ∃ history, Run Transition.Step (.init 2 8 false) history (oneJob modestJob) ∧
    Noticed (oneJob modestJob) (shrunkNode 8 8 8) := by
  have run := run_oneJob modestJob
  have returns : ∃ cancel, (updateSystemStatus (oneJob modestJob) (shrunkNode 8 8 8)).1 = .ok cancel :=
    ⟨_, nothing_cancelled (by decide +kernel)⟩
  exact ⟨_, run, (noticed_iff run _).mpr ⟨(update_ok_iff (books_of_run run)).mp returns, by decide +kernel⟩⟩

/-- Amounts are reduced, all or one of them, and a job does not have room for its tasks any more, but nothing is reported. If
tasks of the job have a CPU model, an update raises even if nothing changes. -/
theorem unnoticed :
    (∃ history, Run Transition.Step (.init 2 8 false) history (oneJob modestJob) ∧ DeadlockFree (oneJob modestJob) ∧
      ¬ Noticed (oneJob modestJob) (shrunkNode 6 6 6) ∧ ¬ Noticed (oneJob modestJob) (shrunkNode 6 10 10)) ∧
    ∃ history, Run Transition.Step (.init 2 8 false) history (oneJob pickyJob) ∧ DeadlockFree (oneJob pickyJob) ∧
      ¬ Noticed (oneJob pickyJob) (oneNode true) := by
  refine ⟨⟨_, run_oneJob modestJob, by decide +kernel, ?_, ?_⟩, ⟨_, run_oneJob pickyJob, by decide +kernel, ?_⟩⟩
  · rintro ⟨cancel, ok, -, free⟩
    have nothing : (updateSystemStatus (oneJob modestJob) (shrunkNode 6 6 6)).1 = _ := nothing_cancelled (by decide +kernel)
    obtain rfl : cancel = fun _ => [] := Except.ok.inj (ok.symm.trans nothing)
    exact absurd free (by decide +kernel)
  · rintro ⟨cancel, ok, -, free⟩
    have nothing : (updateSystemStatus (oneJob modestJob) (shrunkNode 6 10 10)).1 = _ :=
      nothing_cancelled (by decide +kernel)
    obtain rfl : cancel = fun _ => [] := Except.ok.inj (ok.symm.trans nothing)
    exact absurd free (by decide +kernel)
  · rintro ⟨cancel, ok, -⟩
    have raises : (updateSystemStatus (oneJob pickyJob) (oneNode true)).1.toOption.isSome = false := by decide +kernel
    rw [ok] at raises
    cases raises

end Klever.Scheduler
