import Klever.Lib.Loop
import Klever.Scheduler.Accounting
import Klever.Scheduler.Invariant

/-!
# Updates of the system status

`ResourceManager.update_system_status`: nodes that the controller lists are compared with the table, new ones are added to
it, and those that are not listed are marked as disconnected but stay there. An update may come between any claims and
releases, and it may be ended by an exception of the deadlock check, after some of nodes have been changed.

Accounts of claims and releases do not survive updates: a node may get less than is reserved there, and a node that is
connected again loses what runs there. `Books` is what does, and `books_of_run` says so for every history, whether its calls
return or raise.
-/

namespace Klever.Scheduler

open Klever.Lib List Option

/-! ## The model -/

/-- What the controller tells of a node. -/
@[ext] structure Description where
  cpuModel : String
  availableForJobs : Bool
  availableForTasks : Bool
  available : Amounts
  available_nonneg : ∀ r, 0 ≤ available r

instance : DecidableEq Description := fun a b =>
  decidable_of_iff (a.cpuModel = b.cpuModel ∧ a.availableForJobs = b.availableForJobs ∧
    a.availableForTasks = b.availableForTasks ∧ a.available = b.available) Description.ext_iff.symm

/-- Is a node available for jobs or tasks? -/
def Node.accepts (n : Node) : Kind → Bool
  | .job => n.availableForJobs
  | .task => n.availableForTasks

def Description.accepts (d : Description) : Kind → Bool
  | .job => d.availableForJobs
  | .task => d.availableForTasks

/-- The record of a node that is not known or was disconnected. -/
def Description.node (d : Description) : Node :=
  Node.connected d.cpuModel d.availableForJobs d.availableForTasks d.available d.available_nonneg

/-- A node that is available for other things. -/
def Node.reflag (n : Node) (d : Description) : Node :=
  { n with availableForJobs := d.availableForJobs, availableForTasks := d.availableForTasks }

/-- A node with other amounts. -/
def Node.resize (n : Node) (d : Description) : Node :=
  { n with available := d.available, available_nonneg := d.available_nonneg }

/-- What runs on a node that does not accept it any more. -/
def Node.stopped (n : Node) (d : Description) (kind : Kind) : List String :=
  if n.accepts kind && !d.accepts kind then n.running kind else []

/-- The condition of the deadlock check: one of amounts is not reduced. -/
def Node.notReduced (n : Node) (d : Description) : Bool :=
  n.available .cpu ≤ d.available .cpu || n.available .ram ≤ d.available .ram || n.available .disk ≤ d.available .disk

/-- A call of `update_system_status`: the manager and the lists of jobs and tasks to cancel. -/
structure Update where
  manager : Manager
  cancel : Kind → List String

namespace Update

def withNode (u : Update) (name : String) (n : Node) : Update :=
  { u with manager := u.manager.withStatus (u.manager.systemStatus.set name n) }

def extend (u : Update) (more : Kind → List String) : Update :=
  { u with cancel := fun kind => u.cancel kind ++ more kind }

/-- Amounts of a node are compared, and the deadlock check may raise. Without a job it gives no list of jobs to cancel. -/
def resizeNode (u : Update) (name : String) (n : Node) (d : Description) : Except Exn Unit × Update :=
  let resized := u.withNode name (n.resize d)
  if n.notReduced d then
    match checkInvariant u.manager none with
    | .error e => (.error e, u)
    | .ok (.preserved _) => (.ok (), resized)
    | .ok (.violated none) => (.error (.typeError "'NoneType' object is not iterable"), u)
    | .ok (.violated (some jobs)) => (.ok (), resized.extend fun
      | .job => jobs.map fun
        | .running identifier _ => identifier
        | .pending identifier => identifier
      | .task => [])
  else (.ok (), resized)

/-- A node that is known and connected. -/
def refreshNode (u : Update) (name : String) (n : Node) (d : Description) : Except Exn Unit × Update :=
  ((u.extend (n.stopped d)).withNode name (n.reflag d)).resizeNode name (n.reflag d) d

/-- The body of the loop over listed nodes. -/
def visitNode (descriptions : Dict String (Option Description)) (u : Update) (name : String) : Except Exn Unit × Update :=
  match descriptions.get? name with
  | some (some d) =>
    match u.manager.systemStatus.get? name with
    | some n => if n.status = .disconnected then (.ok (), u.withNode name d.node) else u.refreshNode name n d
    | none => (.ok (), u.withNode name d.node)
  | _ => (.ok (), u)

end Update

/-- A node that is not listed. -/
def Node.disconnect (n : Node) : Node := { n with status := .disconnected }

/-- The check of ailing status. -/
def Node.examine (n : Node) : Node :=
  if n.status = .disconnected then n
  else if n.reserved .cpu > n.available .cpu ∨ n.reserved .ram > n.available .ram ∨ n.reserved .disk > n.available .disk then
    { n with status := .ailing }
  else { n with status := .healthy }

/-- The end of an update: nodes that are not listed are disconnected, and statuses of others are examined. -/
def Update.finish (nodes : List String) (u : Update) : Update where
  manager := u.manager.withStatus ((u.manager.systemStatus.mapVals fun name n =>
    if name ∈ nodes then n else n.disconnect).mapVals fun _ n => n.examine)
  cancel kind := u.cancel kind ++ (u.manager.systemStatus.items.filter (·.1 ∉ nodes)).flatMap (·.2.running kind)

/-- `update_system_status`, with names of listed nodes and what `get_node_status` answers for them. It answers with jobs and
tasks to cancel. -/
def updateSystemStatus (m : Manager) (descriptions : Dict String (Option Description)) :
    Except Exn (Kind → List String) × Manager :=
  match forEach (Update.visitNode descriptions) ⟨m, fun _ => []⟩ descriptions.keys with
  | (.error e, u) => (.error e, u.manager)
  | (.ok (), u) => (.ok (u.finish descriptions.keys).cancel, (u.finish descriptions.keys).manager)

/-! ## Books -/

/-- What is reserved for jobs and tasks that a node lists. -/
def Manager.booked (m : Manager) (n : Node) : Amounts :=
  ((n.running .job).map (m.limitOf .job)).sum + ((n.running .task).map (m.limitOf .task)).sum

/-- What runs has a stored configuration, runs once and is covered by reservations of its node. -/
structure Manager.Books (m : Manager) : Prop where
  stored : ∀ {kind identifier node n}, m.systemStatus.get? node = some n → identifier ∈ n.running kind →
    ∃ conf, m.stored kind identifier = some conf
  covered : ∀ {node n}, m.systemStatus.get? node = some n → m.booked n ≤ n.reserved
  once : ∀ {node n}, m.systemStatus.get? node = some n → ∀ kind, (n.running kind).Nodup
  alone : ∀ {kind identifier node n node' n'}, m.systemStatus.get? node = some n → m.systemStatus.get? node' = some n' →
    identifier ∈ n.running kind → identifier ∈ n'.running kind → node = node'

/-- Nodes list the same jobs and tasks and reserve at least as much, except those that are registered anew. -/
def Status.Near (status status' : Status) : Prop :=
  ∀ name n', status'.get? name = some n' →
    (∃ n, status.get? name = some n ∧ n'.running = n.running ∧ n.reserved ≤ n'.reserved) ∨
      n'.running = (fun _ => []) ∧ 0 ≤ n'.reserved

theorem Status.Near.refl (status : Status) : status.Near status := fun _ _ found => .inl ⟨_, found, rfl, le_rfl⟩

theorem Status.Near.trans {first second third : Status} (one : first.Near second) (two : second.Near third) :
    first.Near third := by
  intro name n found
  obtain ⟨p, was, running, more⟩ | fresh := two name n found
  · obtain ⟨q, before, running', more'⟩ | ⟨idle, nonneg⟩ := one name p was
    · exact .inl ⟨q, before, running.trans running', more'.trans more⟩
    · exact .inr ⟨running.trans idle, nonneg.trans more⟩
  · exact .inr fresh

/-- Configurations of what runs are kept. -/
structure Manager.Near (m m' : Manager) : Prop where
  stored : ∀ {kind identifier}, m.IsRunning kind identifier → m'.stored kind identifier = m.stored kind identifier
  node : m.systemStatus.Near m'.systemStatus

variable {kind : Kind} {identifier : String} {n : Node}

namespace Manager

variable {m m' : Manager}

theorem Near.isRunning (near : m.Near m') (running : m'.IsRunning kind identifier) : m.IsRunning kind identifier := by
  obtain ⟨name, n', found, mem⟩ := running
  obtain ⟨n, was, same, -⟩ | ⟨idle, -⟩ := near.node _ _ found
  · exact ⟨name, n, was, same ▸ mem⟩
  · rw [idle] at mem
    cases mem

theorem limitOf_congr (same : m'.stored kind identifier = m.stored kind identifier) :
    m'.limitOf kind identifier = m.limitOf kind identifier := by
  rw [limitOf, limitOf, same]

/-- What a node lists is booked as before while configurations of what it lists are as before. -/
theorem booked_congr {n' : Node} (running : n'.running = n.running)
    (same : ∀ kind, ∀ id ∈ n.running kind, m'.stored kind id = m.stored kind id) :
    m'.booked n' = m.booked n := by
  have each (kind : Kind) : (n'.running kind).map (m'.limitOf kind) = (n.running kind).map (m.limitOf kind) := by
    rw [running]
    exact map_congr_left fun id mem => limitOf_congr (same kind id mem)
  rw [booked, booked, each, each]

theorem Near.books (near : m.Near m') (books : m.Books) : m'.Books where
  stored {kind id node n'} found mem := by
    obtain ⟨name, n, was, listed⟩ := near.isRunning ⟨node, n', found, mem⟩
    rw [near.stored ⟨name, n, was, listed⟩]
    exact books.stored was listed
  covered {node n'} found := by
    obtain ⟨n, was, running, more⟩ | ⟨idle, nonneg⟩ := near.node _ _ found
    · rw [booked_congr running fun kind id mem => near.stored ⟨node, n, was, mem⟩]
      exact (books.covered was).trans more
    · rw [booked, idle]
      simpa using nonneg
  once {node n'} found kind := by
    obtain ⟨n, was, running, -⟩ | ⟨idle, -⟩ := near.node _ _ found
    · rw [running]
      exact books.once was kind
    · rw [idle]
      exact nodup_nil
  alone {kind id node n node' n'} found found' mem mem' := by
    obtain ⟨p, was, running, -⟩ | ⟨idle, -⟩ := near.node _ _ found
    · obtain ⟨p', was', running', -⟩ | ⟨idle', -⟩ := near.node _ _ found'
      · exact books.alone was was' (running ▸ mem) (running' ▸ mem')
      · rw [idle'] at mem'
        cases mem'
    · rw [idle] at mem
      cases mem

end Manager

/-! ## Steps -/

theorem Node.mem_running_start {kind' : Kind} {other : String} :
    other ∈ (n.start kind identifier).running kind' ↔ other ∈ n.running kind' ∨ kind' = kind ∧ other = identifier := by
  rw [Node.start_running, Function.update_apply]
  split
  next same =>
    subst same
    rw [mem_append, mem_singleton, and_iff_right rfl]
  next differs => rw [or_iff_left fun both => differs both.1]

theorem Node.mem_running_stop {kind' : Kind} {id other : String} (once : (n.running kind).Nodup) :
    other ∈ (n.stop kind id).running kind' ↔ other ∈ n.running kind' ∧ ¬ (kind' = kind ∧ other = id) := by
  rw [Node.stop_running, Function.update_apply]
  split
  next same =>
    subst same
    rw [once.mem_erase_iff, and_iff_right rfl, and_comm]
  next differs => rw [and_iff_left fun both => differs both.1]

namespace Manager

theorem booked_withStatus (m : Manager) (status : Status) (n : Node) : (m.withStatus status).booked n = m.booked n := rfl

theorem booked_start (m : Manager) (n : Node) (kind : Kind) (identifier : String) :
    m.booked (n.start kind identifier) = m.booked n + m.limitOf kind identifier := by
  cases kind
  all_goals
    simp only [booked, Node.start_running, Function.update_self, Function.update_of_ne, ne_eq, reduceCtorEq,
      not_false_eq_true, map_append, sum_append, map_singleton, sum_singleton]
    abel

theorem booked_stop (m : Manager) {id : String} (listed : id ∈ n.running kind) :
    m.booked (n.stop kind id) + m.limitOf kind id = m.booked n := by
  have sum := sum_map_erase (m.limitOf kind) listed
  cases kind
  all_goals
    simp only [booked, Node.stop_running, Function.update_self, Function.update_of_ne, ne_eq, reduceCtorEq,
      not_false_eq_true, ← sum]
    abel

end Manager

theorem Manager.limitOf_nonneg (m : Manager) (kind : Kind) (identifier : String) : 0 ≤ m.limitOf kind identifier := by
  rw [limitOf]
  cases m.stored kind identifier with
  | none => exact le_rfl
  | some conf => exact conf.limits.nonneg

theorem Manager.sum_limitOf_nonneg (m : Manager) (kind : Kind) (running : List String) :
    0 ≤ (running.map (m.limitOf kind)).sum := by
  exact sum_nonneg (List.forall_mem_map.mpr fun id _ => m.limitOf_nonneg kind id)

namespace Manager.Books

variable {m : Manager} {kind : Kind} {identifier id node : String} {n : Node}

/-- Jobs, and tasks, that a node lists are covered by its reservations. -/
theorem sum_le (books : m.Books) (found : m.systemStatus.get? node = some n) (kind : Kind) :
    ((n.running kind).map (m.limitOf kind)).sum ≤ n.reserved := by
  refine le_trans ?_ (books.covered found)
  cases kind with
  | job => exact le_add_of_nonneg_right (m.sum_limitOf_nonneg .task _)
  | task => exact le_add_of_nonneg_left (m.sum_limitOf_nonneg .job _)

theorem limitOf_le (books : m.Books) (found : m.systemStatus.get? node = some n) (listed : id ∈ n.running kind) :
    m.limitOf kind id ≤ n.reserved := by
  refine le_trans (single_le_sum ?_ _ (List.mem_map_of_mem listed)) (books.sum_le found kind)
  exact List.forall_mem_map.mpr fun other _ => m.limitOf_nonneg kind other

/-- A claim that is not accepted leaves a configuration and a part of a reservation. -/
theorem near_refused (conf : Conf) (idle : ¬ m.IsRunning conf.kind id) :
    m.Near ((m.store id conf).withStatus (reserveResources m.systemStatus conf.limits node).2) where
  stored {kind identifier'} running := by
    rw [withStatus_stored, stored_store, if_neg]
    rintro ⟨rfl, rfl⟩
    exact idle running
  node name n' found := by
    rw [withStatus_systemStatus, reserveResources, onNode] at found
    split at found
    next => exact .inl ⟨n', found, rfl, le_rfl⟩
    next n was =>
      obtain ⟨rfl, rfl⟩ | ⟨-, found⟩ := Dict.of_get?_set found
      · refine .inl ⟨n, was, ?_, ?_⟩
        · rw [reserveLoop, bookLoop_node Resource.all_nodup]
          rfl
        · rw [reserveLoop, bookLoop_node Resource.all_nodup]
          intro r
          have nonneg := conf.limits.nonneg r
          simp only [Node.withReserved_reserved]
          split <;> omega
      · exact .inl ⟨n', found, rfl, le_rfl⟩

/-- A claim that is accepted. -/
theorem claim_accepted (books : m.Books) {conf : Conf} (idle : ¬ m.IsRunning conf.kind identifier)
    (found : m.systemStatus.get? node = some n) :
    ((m.store identifier conf).withStatus (m.systemStatus.set node
      ((n.withReserved (n.reserved + conf.limits.amounts)).start conf.kind identifier))).Books := by
  have kept {kind : Kind} {other : String} (running : m.IsRunning kind other) :
      (m.store identifier conf).stored kind other = m.stored kind other := by
    rw [stored_store, if_neg]
    rintro ⟨rfl, rfl⟩
    exact idle running
  have new : (m.store identifier conf).stored conf.kind identifier = some conf := by
    rw [stored_store, if_pos ⟨rfl, rfl⟩]
  -- what runs somewhere ran there before or is claimed for the node
  have runs {kind : Kind} {other name : String} {n' : Node} (at' : (m.systemStatus.set node
      ((n.withReserved (n.reserved + conf.limits.amounts)).start conf.kind identifier)).get? name = some n')
      (mem : other ∈ n'.running kind) :
      (∃ n, m.systemStatus.get? name = some n ∧ other ∈ n.running kind) ∨
        name = node ∧ kind = conf.kind ∧ other = identifier := by
    obtain ⟨same, rfl⟩ | ⟨-, at'⟩ := Dict.of_get?_set at'
    · obtain old | ⟨rfl, rfl⟩ := Node.mem_running_start.mp mem
      · exact .inl ⟨n, same ▸ found, old⟩
      · exact .inr ⟨same, rfl, rfl⟩
    · exact .inl ⟨n', at', mem⟩
  constructor
  case stored =>
    intro kind other name n' at' mem
    obtain ⟨p, was, listed⟩ | ⟨-, rfl, rfl⟩ := runs at' mem
    · rw [withStatus_stored, kept ⟨name, p, was, listed⟩]
      exact books.stored was listed
    · exact ⟨conf, new⟩
  case covered =>
    intro name n' at'
    obtain ⟨same, rfl⟩ | ⟨-, at'⟩ := Dict.of_get?_set at'
    · have before : (m.store identifier conf).booked (n.withReserved (n.reserved + conf.limits.amounts)) = m.booked n :=
        booked_congr rfl fun kind other mem => kept ⟨node, n, found, mem⟩
      rw [booked_withStatus, booked_start, before, limitOf, new]
      exact add_le_add_left (books.covered found) _
    · rw [booked_withStatus, booked_congr rfl fun kind other mem => kept ⟨name, n', at', mem⟩]
      exact books.covered at'
  case once =>
    intro name n' at' kind
    obtain ⟨same, rfl⟩ | ⟨-, at'⟩ := Dict.of_get?_set at'
    · rw [Node.start_running, Function.update_apply]
      split
      next same' =>
        subst same'
        refine nodup_append.mpr ⟨books.once found _, nodup_singleton _, ?_⟩
        rintro a mem b is rfl
        exact idle ⟨node, n, found, mem_singleton.mp is ▸ mem⟩
      next => exact books.once found kind
    · exact books.once at' kind
  case alone =>
    intro kind other name p name' p' at1 at2 mem mem'
    obtain ⟨q, was, listed⟩ | ⟨rfl, rfl, rfl⟩ := runs at1 mem
    · obtain ⟨q', was', listed'⟩ | ⟨rfl, rfl, rfl⟩ := runs at2 mem'
      · exact books.alone was was' listed listed'
      · exact absurd ⟨name, q, was, listed⟩ idle
    · obtain ⟨q', was', listed'⟩ | ⟨same, -, -⟩ := runs at2 mem'
      · exact absurd ⟨name', q', was', listed'⟩ idle
      · exact same.symm

/-- A claim of something that does not run keeps books, whether it is accepted or not. -/
theorem claim (books : m.Books) {conf : Conf} (idle : ¬ m.IsRunning conf.kind id) :
    (claimResources m id conf node).2.Books := by
  by_cases accepted : m.Accepts conf node
  · obtain ⟨n, found, fits⟩ := accepted
    rw [claim_ok_iff.mpr ⟨n, found, fits, rfl⟩]
    exact books.claim_accepted idle found
  · obtain ⟨e, refused⟩ := @claim_refused m id conf node accepted
    rw [refused]
    exact (near_refused conf idle).books books

/-- A release of what a node lists. -/
theorem release_listed (books : m.Books) {conf : Conf} (stored : m.stored kind id = some conf)
    (found : m.systemStatus.get? node = some n) (listed : id ∈ n.running kind) {n₁ : Node}
    (running : n₁.running = (n.stop kind id).running) (less : n.reserved - conf.limits.amounts ≤ n₁.reserved) :
    ((m.unstore kind id).withStatus (m.systemStatus.set node n₁)).Books := by
  have runs {kind' : Kind} {other name : String} {n' : Node} (at' : (m.systemStatus.set node n₁).get? name = some n')
      (mem : other ∈ n'.running kind') : ∃ n, m.systemStatus.get? name = some n ∧ other ∈ n.running kind' ∧
        ¬ (kind' = kind ∧ other = id) := by
    obtain ⟨same, rfl⟩ | ⟨differs, at'⟩ := Dict.of_get?_set at'
    · rw [running, Node.mem_running_stop (books.once found kind)] at mem
      exact ⟨n, same ▸ found, mem⟩
    · refine ⟨n', at', mem, ?_⟩
      rintro ⟨rfl, rfl⟩
      exact differs (books.alone at' found mem listed)
  have kept {kind' : Kind} {other : String} (differs : ¬ (kind' = kind ∧ other = id)) :
      (m.unstore kind id).stored kind' other = m.stored kind' other := by
    rw [stored_unstore, if_neg differs]
  constructor
  case stored =>
    intro kind' other name n' at' mem
    obtain ⟨p, was, old, differs⟩ := runs at' mem
    rw [withStatus_stored, kept differs]
    exact books.stored was old
  case covered =>
    intro name n' at'
    have same : (m.unstore kind id).booked n' = m.booked n' := by
      refine booked_congr rfl fun kind' other mem => ?_
      obtain ⟨-, -, -, differs⟩ := runs at' mem
      exact kept differs
    rw [booked_withStatus, same]
    obtain ⟨-, rfl⟩ | ⟨-, at'⟩ := Dict.of_get?_set at'
    · have limit : m.limitOf kind id = conf.limits.amounts := by
        rw [limitOf, stored]
        rfl
      calc m.booked n₁ = m.booked (n.stop kind id) := booked_congr running fun _ _ _ => rfl
        _ = m.booked n - conf.limits.amounts := by rw [← booked_stop m listed, limit, add_sub_cancel_right]
        _ ≤ n.reserved - conf.limits.amounts := sub_le_sub_right (books.covered found) _
        _ ≤ n₁.reserved := less
    · exact books.covered at'
  case once =>
    intro name n' at' kind'
    obtain ⟨-, rfl⟩ | ⟨-, at'⟩ := Dict.of_get?_set at'
    · rw [running, Node.stop_running, Function.update_apply]
      split
      next => exact (books.once found kind).erase _
      next => exact books.once found kind'
    · exact books.once at' kind'
  case alone =>
    intro kind' other name p name' p' at1 at2 mem mem'
    obtain ⟨q, was, old, -⟩ := runs at1 mem
    obtain ⟨q', was', old', -⟩ := runs at2 mem'
    exact books.alone was was' old old'

/-- A release keeps books, also if it raises. -/
theorem release (books : m.Books) (keepDisk : ℕ) : (releaseResources m id node kind keepDisk).2.Books := by
  by_cases known : ∃ conf n, m.stored kind id = some conf ∧ m.systemStatus.get? node = some n ∧ id ∈ n.running kind
  · obtain ⟨conf, n, stored, found, listed⟩ := known
    have covers : n.Covers conf.limits.amounts := by
      have within := books.limitOf_le found listed
      rwa [limitOf, stored] at within
    rw [releaseResources_eq stored found listed, if_pos covers]
    apply books.release_listed stored found listed
    · rw [keepDiskAt_eq]
      split <;> rfl
    · rw [keepDiskAt_eq]
      split
      · exact le_add_of_nonneg_right (keptAmounts_nonneg keepDisk)
      · exact le_rfl
  · rw [release_unknown]
    · exact books
    · exact fun conf n stored found listed => known ⟨conf, n, stored, found, listed⟩

end Manager.Books

namespace Update

variable {descriptions : Dict String (Option Description)}

/-- An update of amounts ends with new or old ones. -/
theorem resizeNode_manager (u : Update) (name : String) (n : Node) (d : Description) :
    (u.resizeNode name n d).2.manager = (u.withNode name (n.resize d)).manager ∨
      (u.resizeNode name n d).2.manager = u.manager := by
  unfold resizeNode
  split
  · split
    · exact .inr rfl
    · exact .inl rfl
    · exact .inr rfl
    · exact .inl rfl
  · exact .inl rfl

/-- A record that a visit may leave for a node. -/
def Renews (d : Description) (old : Option Node) (n' : Node) : Prop :=
  n' = d.node ∨ ∃ n, old = some n ∧ n.status ≠ .disconnected ∧ (n' = n.reflag d ∨ n' = (n.reflag d).resize d)

/-- A visit changes nothing in the manager but the record of a node that is described. -/
theorem visitNode_manager (u : Update) (name : String) : (u.visitNode descriptions name).2.manager = u.manager ∨
      ∃ d n', descriptions.get? name = some (some d) ∧ Renews d (u.manager.systemStatus.get? name) n' ∧
        (u.visitNode descriptions name).2.manager = u.manager.withStatus (u.manager.systemStatus.set name n') := by
  unfold visitNode
  split
  next d described =>
    right
    split
    next n found =>
      split
      next => exact ⟨d, d.node, described, .inl rfl, rfl⟩
      next connected =>
        obtain same | same := resizeNode_manager ((u.extend (n.stopped d)).withNode name (n.reflag d)) name (n.reflag d) d
        · refine ⟨d, _, described, .inr ⟨n, found, connected, .inr rfl⟩, same.trans ?_⟩
          simp only [withNode, extend, Manager.withStatus, Dict.set_set]
        · exact ⟨d, _, described, .inr ⟨n, found, connected, .inl rfl⟩, same⟩
    next => exact ⟨d, d.node, described, .inl rfl, rfl⟩
  next => exact .inl rfl

/-- A visit keeps what runs, except on a node that is registered anew. -/
theorem visitNode_near (u : Update) (name : String) : ∃ status,
    (u.visitNode descriptions name).2.manager = u.manager.withStatus status ∧ u.manager.systemStatus.Near status := by
  obtain same | ⟨d, n', -, renews, same⟩ := u.visitNode_manager name
  · exact ⟨u.manager.systemStatus, same, .refl _⟩
  · refine ⟨_, same, fun other p at' => ?_⟩
    obtain ⟨rfl, rfl⟩ | ⟨-, at'⟩ := Dict.of_get?_set at'
    · obtain rfl | ⟨n, found, -, rfl | rfl⟩ := renews
      · exact .inr ⟨rfl, le_rfl⟩
      · exact .inl ⟨n, found, rfl, le_rfl⟩
      · exact .inl ⟨n, found, rfl, le_rfl⟩
    · exact .inl ⟨p, at', rfl, le_rfl⟩

end Update

/-- Examination of nodes that are listed or not changes nothing but statuses. -/
theorem Update.finish_near (nodes : List String) (u : Update) :
    u.manager.systemStatus.Near (u.finish nodes).manager.systemStatus := by
  intro name n' found
  rw [finish, Manager.withStatus_systemStatus, Dict.get?_mapVals, Dict.get?_mapVals, Option.map_map,
    map_eq_some_iff] at found
  obtain ⟨n, was, rfl⟩ := found
  refine .inl ⟨n, was, ?_, ?_⟩
  all_goals
    simp only [Function.comp_apply, Node.examine]
    split_ifs <;> rfl

theorem updateSystemStatus_near (m : Manager) (descriptions : Dict String (Option Description)) :
    m.Near (updateSystemStatus m descriptions).2 := by
  have loop : ∃ status, (forEach (Update.visitNode descriptions) ⟨m, fun _ => []⟩ descriptions.keys).2.manager =
      m.withStatus status ∧ m.systemStatus.Near status := by
    apply forEach_invariant (I := fun u : Update => ∃ status, u.manager = m.withStatus status ∧ m.systemStatus.Near status)
    · intro u name _ ⟨status, same, near⟩
      obtain ⟨status', same', near'⟩ := @Update.visitNode_near descriptions u name
      rw [same] at same' near'
      exact ⟨status', same', near.trans near'⟩
    · exact ⟨m.systemStatus, rfl, .refl _⟩
  rw [updateSystemStatus]
  obtain ⟨status, same, near⟩ := loop
  split
  next raised =>
    rw [raised] at same
    rw [same]
    exact ⟨fun _ => rfl, near⟩
  next u returned =>
    rw [returned] at same
    have last := u.finish_near descriptions.keys
    constructor
    case stored =>
      intro kind id _
      rw [Update.finish, same]
      rfl
    case node =>
      rw [same] at last
      exact near.trans last

/-! ## Histories -/

/-- What happens to a manager. -/
inductive Transition
  | call (made : Call)
  | update (descriptions : Dict String (Option Description))

/-- A step of a history. Claims are for what does not run; both calls and updates may raise. -/
def Transition.Step (m : Manager) (transition : Transition) (m' : Manager) : Prop :=
  match transition with
  | .call made => m' = (made.run m).2 ∧
    match made with
    | .claim identifier conf _ => ¬ m.IsRunning conf.kind identifier
    | .release .. => True
  | .update descriptions => m' = (updateSystemStatus m descriptions).2

theorem Manager.Books.step {m m' : Manager} {transition : Transition} (books : m.Books) (step : transition.Step m m') :
    m'.Books := by
  cases transition with
  | call made =>
    obtain ⟨rfl, idle⟩ := step
    cases made with
    | claim id conf node => exact books.claim idle
    | release id node kind keepDisk => exact books.release keepDisk
  | update descriptions =>
    obtain rfl : m' = (updateSystemStatus m descriptions).2 := step
    exact (updateSystemStatus_near m descriptions).books books

/-- Books are kept by any history of the manager. -/
theorem books_of_run {maxJobs poolSize : ℤ} {isAdjustPoolSize : Bool} {history : List Transition} {m : Manager}
    (run : Run Transition.Step (.init maxJobs poolSize isAdjustPoolSize) history m) : m.Books := by
  apply run.invariant (P := fun _ m => m.Books)
  · exact ⟨nofun, nofun, nofun, nofun⟩
  · exact fun books step => books.step step

/-! ## A small system -/

/-- A node with ten units of everything. -/
def tenDescription (forTasks : Bool) : Description where
  cpuModel := "cpu"
  availableForJobs := true
  availableForTasks := forTasks
  available := amounts 10 10 10
  available_nonneg := ten_nonneg

/-- The controller lists one node. -/
def oneNode (forTasks : Bool) : Dict String (Option Description) where
  items := [("node", some (tenDescription forTasks))]
  nodup := nodup_singleton _

/-- The manager after updates. -/
def afterUpdates (updates : List (Dict String (Option Description))) : Manager :=
  updates.foldl (fun m descriptions => (updateSystemStatus m descriptions).2) (.init 2 8 false)

end Klever.Scheduler
