import Klever.Lib.Dict

/-!
# Nodes and their resources

The data of `ResourceManager` (`klever/scheduler/schedulers/resource_scheduler.py`) and its private
helpers on one system status: the free resources of a node, the check of a requirement, the ranking
of nodes, and the reservation and release of an amount.

A status is a dictionary from node names to node records. An amount is a function of the three
resources that `__iterate_over_resources` yields; limits and available amounts are never negative,
which their records carry as a field. Reserved amounts may be anything: the source subtracts first
and complains afterwards, so a failed release does leave a negative reservation behind.

Both loops stop at the first resource that fails and keep what they did before.
`reserveResources_ok_iff` and `releaseAmount_ok_iff` say when they go through; `bookLoop_node` says
what is left behind when they do not.
-/

namespace Klever.Scheduler

open Klever.Lib List Option

/-- The exceptions that the modelled code raises, by class, with their texts. -/
inductive Exn
  | keyError (msg : String)
  | valueError (msg : String)
  | typeError (msg : String)
  | indexError (msg : String)
  | nameError (msg : String)
  | attributeError (msg : String)
  | osError (msg : String)
  | notImplementedError (msg : String)
  | runtimeError (msg : String)
  | schedulerException (msg : String)
  deriving DecidableEq, Repr

/-- A string as `{!r}` prints it. -/
def quoted (s : String) : String := "'" ++ s ++ "'"

/-- What the scheduler runs: verification jobs and verification tasks. -/
inductive Kind
  | job
  | task
  deriving DecidableEq, Repr

instance : Fintype Kind where
  elems := {.job, .task}
  complete k := by cases k <;> decide

/-- The tag of the list of running jobs or tasks in a node record. -/
def Kind.tag : Kind → String
  | .job => "running verification jobs"
  | .task => "running verification tasks"

/-! ## Resources and amounts -/

/-- The resources of `__iterate_over_resources`. -/
inductive Resource
  | cpu
  | ram
  | disk
  deriving DecidableEq, Repr

namespace Resource

instance : Fintype Resource where
  elems := {.cpu, .ram, .disk}
  complete r := by cases r <;> decide

/-- `__iterate_over_resources`: the order in which the loops meet the resources. -/
def all : List Resource := [.cpu, .ram, .disk]

theorem mem_all (r : Resource) : r ∈ all := by cases r <;> decide

/-- The field of a node record with the reserved amount. -/
def reserved : Resource → String
  | .cpu => "reserved CPU number"
  | .ram => "reserved RAM memory"
  | .disk => "reserved disk memory"

/-- The same field name after `capitalize`, as the error texts have it. -/
def capitalized : Resource → String
  | .cpu => "Reserved cpu number"
  | .ram => "Reserved ram memory"
  | .disk => "Reserved disk memory"

/-- The field of the resource limits with the requested amount. -/
def value : Resource → String
  | .cpu => "number of CPU cores"
  | .ram => "memory size"
  | .disk => "disk memory size"

/-- The field of a node record with the available amount. -/
def available : Resource → String
  | .cpu => "available CPU number"
  | .ram => "available RAM memory"
  | .disk => "available disk memory"

end Resource

/-- An amount of each resource. -/
abbrev Amounts := Resource → ℤ

/-- The amounts as the source lists them: CPU cores, RAM, disk. -/
def amounts (cpu ram disk : ℤ) : Amounts
  | .cpu => cpu
  | .ram => ram
  | .disk => disk

/-- Resource limits of a job or a task: an optional CPU model and what is requested. -/
structure Limits where
  cpuModel : Option String
  amounts : Amounts
  nonneg : ∀ r, 0 ≤ amounts r
  deriving DecidableEq

/-- The connection status of a node. -/
inductive NodeStatus
  | healthy
  | ailing
  | disconnected
  deriving DecidableEq, Repr

/-- The record of one node in the system status. -/
structure Node where
  status : NodeStatus
  cpuModel : String
  availableForJobs : Bool
  availableForTasks : Bool
  available : Amounts
  available_nonneg : ∀ r, 0 ≤ available r
  reserved : Amounts
  running : Kind → List String
  deriving DecidableEq

/-- A system status: node records under their names. -/
abbrev Status := Dict String Node

/-! ## Ranking -/

/-- `__free_resources`: what is available and not reserved, never below zero. -/
def freeResources (n : Node) : Amounts := fun r =>
  let x := n.available r - n.reserved r
  if x > 0 then x else 0

/-- The order of Python lists on the three free amounts. -/
def lexLt (a b : Amounts) : Bool :=
  a .cpu < b .cpu || (a .cpu = b .cpu && (a .ram < b .ram || (a .ram = b .ram && a .disk < b .disk)))

/-- Whether an optional string counts as true: absent and empty ones do not. -/
def truthy : Option String → Bool
  | none => false
  | some s => s ≠ ""

/-- `__fulfill_requirement`: a node available for the kind, with the required CPU model if there is
one, and with enough of everything. -/
def fulfillRequirement (n : Node) (restriction : Limits) (kind : Kind) : Bool :=
  if kind = .job ∧ n.availableForJobs = false then false
  else if kind = .task ∧ n.availableForTasks = false then false
  else if truthy restriction.cpuModel ∧ restriction.cpuModel ≠ some n.cpuModel then false
  else
    restriction.amounts .cpu ≤ freeResources n .cpu ∧ restriction.amounts .ram ≤ freeResources n .ram ∧
      restriction.amounts .disk ≤ freeResources n .disk

/-- `__nodes_ranking`: the suitable nodes, those with the least free resources first. The sort is
stable, as the source's is. -/
def nodesRanking (status : Status) (restriction : Limits) (kind : Kind) : List String :=
  ((status.items.filter fun e => fulfillRequirement e.2 restriction kind).insertionSort
    fun a b => ¬ lexLt (freeResources b.2) (freeResources a.2)).map Prod.fst

variable {status : Status} {n : Node} {amount : Amounts} {node : String}

/-- Ranked nodes are the suitable ones. -/
theorem mem_nodesRanking {restriction : Limits} {kind : Kind} {name : String} :
    name ∈ nodesRanking status restriction kind ↔
      ∃ n, status.get? name = some n ∧ fulfillRequirement n restriction kind = true := by
  simp only [nodesRanking, List.mem_map, mem_insertionSort, mem_filter]
  constructor
  · rintro ⟨⟨name', n⟩, ⟨mem, fits⟩, rfl⟩
    exact ⟨n, Dict.mem_items_iff.mp mem, fits⟩
  · rintro ⟨n, found, fits⟩
    exact ⟨(name, n), ⟨Dict.mem_items_iff.mpr found, fits⟩, rfl⟩

/-- What a suitable node offers. -/
theorem fulfillRequirement_iff {restriction : Limits} {kind : Kind} : fulfillRequirement n restriction kind = true ↔
      (kind = .job → n.availableForJobs = true) ∧ (kind = .task → n.availableForTasks = true) ∧
      (truthy restriction.cpuModel = true → restriction.cpuModel = some n.cpuModel) ∧
      ∀ r, restriction.amounts r ≤ freeResources n r := by
  have each : (∀ r, restriction.amounts r ≤ freeResources n r) ↔ restriction.amounts .cpu ≤ freeResources n .cpu ∧
        restriction.amounts .ram ≤ freeResources n .ram ∧
        restriction.amounts .disk ≤ freeResources n .disk :=
    ⟨fun h => ⟨h .cpu, h .ram, h .disk⟩, fun ⟨hc, hr, hd⟩ r => by cases r <;> assumption⟩
  rw [each, fulfillRequirement]
  cases kind <;> cases n.availableForJobs <;> cases n.availableForTasks <;>
    cases truthy restriction.cpuModel <;> simp

/-! ## Reservation and release -/

/-- A node with other reservations. -/
def Node.withReserved (n : Node) (reserved : Amounts) : Node := { n with reserved := reserved }

section WithReserved

variable (n : Node) (f g : Amounts)

@[simp] theorem Node.withReserved_reserved : (n.withReserved f).reserved = f := rfl

@[simp] theorem Node.withReserved_available : (n.withReserved f).available = n.available := rfl

@[simp] theorem Node.withReserved_running : (n.withReserved f).running = n.running := rfl

@[simp] theorem Node.withReserved_withReserved :
    (n.withReserved f).withReserved g = n.withReserved g := rfl

@[simp] theorem Node.withReserved_self : n.withReserved n.reserved = n := rfl

end WithReserved

/-- A node with the reservation of one resource changed by `x`. -/
def Node.addReserved (n : Node) (r : Resource) (x : ℤ) : Node :=
  n.withReserved (Function.update n.reserved r (n.reserved r + x))

/-- The loop that `__reserve_resources` and `__release_resources` share: change the reservation of
each resource in turn and, right after the change, ask whether the new amount is refused. A refusal
ends the loop and keeps the changes made so far. -/
def bookLoop (delta : Amounts) (refuses : Resource → ℤ → ℤ → Option Exn) :
    List Resource → Node → Except Exn Unit × Node
  | [], n => (.ok (), n)
  | r :: rs, n =>
    let n := n.addReserved r (delta r)
    match refuses r (n.reserved r) (n.available r) with
    | some e => (.error e, n)
    | none => bookLoop delta refuses rs n

/-- The check of `__reserve_resources`. -/
def overReserved (r : Resource) (reserved available : ℤ) : Option Exn :=
  if reserved > available then
    some (.valueError (r.capitalized ++ ", equal to " ++ toString reserved ++
      ", cannot be more than " ++ r.available ++ " which is " ++ toString available))
  else none

/-- The check of `__release_resources`. -/
def belowZero (r : Resource) (reserved _available : ℤ) : Option Exn :=
  if reserved < 0 then
    some (.valueError (r.capitalized ++ " cannot be negative " ++ toString reserved))
  else none

/-- The loop of `__reserve_resources`. -/
def reserveLoop (amount : Amounts) : Node → Except Exn Unit × Node :=
  bookLoop amount overReserved Resource.all

/-- The loop of `__release_resources`. -/
def releaseLoop (amount : Amounts) : Node → Except Exn Unit × Node :=
  bookLoop (-amount) belowZero Resource.all

/-- The error about an unknown node. -/
def noNode (node : String) : Exn := .keyError ("There is no node " ++ quoted node ++ " in the system")

/-- A change of one node record in a status, under the check for the node that both helpers make.
The record is updated in place, so what a failed change did before it failed stays. -/
def onNode (change : Node → Except Exn Unit × Node) (status : Status) (node : String) :
    Except Exn Unit × Status :=
  match status.get? node with
  | none => (.error (noNode node), status)
  | some n => ((change n).1, status.set node (change n).2)

/-- `__reserve_resources`. -/
def reserveResources (status : Status) (amount : Limits) (node : String) :
    Except Exn Unit × Status :=
  onNode (reserveLoop amount.amounts) status node

/-- `__release_resources`. -/
def releaseAmount (status : Status) (amount : Limits) (node : String) : Except Exn Unit × Status :=
  onNode (releaseLoop amount.amounts) status node

/-! ### What the loop reaches -/

/-- The resources whose reservation the loop changes: all up to the first refused one, that one
included. -/
def bookReach (delta : Amounts) (refuses : Resource → ℤ → ℤ → Option Exn) (n : Node) :
    List Resource → List Resource
  | [] => []
  | r :: rs =>
    r :: if (refuses r (n.reserved r + delta r) (n.available r)).isSome then []
      else bookReach delta refuses n rs

variable {delta : Amounts} {refuses : Resource → ℤ → ℤ → Option Exn}

theorem bookReach_addReserved {n : Node} {r : Resource} {x : ℤ} {rs : List Resource} (h : r ∉ rs) :
    bookReach delta refuses (n.addReserved r x) rs = bookReach delta refuses n rs := by
  induction rs with
  | nil => rfl
  | cons s rs ih =>
    have differs : s ≠ r := fun e => h (e ▸ mem_cons_self)
    rw [bookReach, bookReach, ih fun hr => h (mem_cons_of_mem _ hr)]
    simp [Node.addReserved, Function.update_of_ne differs]

theorem bookReach_subset (rs : List Resource) : bookReach delta refuses n rs ⊆ rs := by
  induction rs with
  | nil => exact Subset.refl _
  | cons r rs ih =>
    intro s hs
    rcases mem_cons.mp hs with rfl | hs
    · exact mem_cons_self
    · split at hs
      · exact absurd hs not_mem_nil
      · exact mem_cons_of_mem _ (ih hs)

/-- The loop leaves a node in which exactly the reached reservations are changed. -/
theorem bookLoop_node {rs : List Resource} (nodup : rs.Nodup) (n : Node) :
    (bookLoop delta refuses rs n).2 = n.withReserved fun s =>
      n.reserved s + if s ∈ bookReach delta refuses n rs then delta s else 0 := by
  induction rs generalizing n with
  | nil =>
    simp only [bookLoop, bookReach, not_mem_nil, if_false, add_zero]
    rfl
  | cons r rs ih =>
    have fresh := nodup_cons.mp nodup
    rcases eq_none_or_eq_some (refuses r (n.reserved r + delta r) (n.available r))
      with kept | ⟨e, refused⟩
    · have later := @bookReach_addReserved delta refuses n r (delta r) rs fresh.1
      rw [Node.addReserved] at later
      simp only [bookLoop, bookReach, Node.addReserved, Node.withReserved_reserved,
        Node.withReserved_available, Function.update_self, kept, isSome_none,
        Bool.false_eq_true, if_false, ih fresh.2, later, mem_cons,
        Node.withReserved_withReserved]
      congr 1
      funext s
      by_cases h : s = r
      · subst h
        have outside : s ∉ bookReach delta refuses n rs := fun hs => fresh.1 (bookReach_subset rs hs)
        simp [outside]
      · simp [h]
    · simp only [bookLoop, bookReach, Node.addReserved, Node.withReserved_reserved,
        Node.withReserved_available, Function.update_self, refused, isSome_some, if_true,
        mem_singleton]
      congr 1
      funext s
      by_cases h : s = r
      · subst h
        rw [Function.update_self, if_pos rfl]
      · rw [Function.update_of_ne h, if_neg h, add_zero]

/-- The loop ends well when no new amount is refused. -/
theorem bookLoop_ok_iff {rs : List Resource} (nodup : rs.Nodup) (n : Node) : (bookLoop delta refuses rs n).1 = .ok () ↔
      ∀ r ∈ rs, refuses r (n.reserved r + delta r) (n.available r) = none := by
  induction rs generalizing n with
  | nil => simp [bookLoop]
  | cons r rs ih =>
    have fresh := nodup_cons.mp nodup
    simp only [bookLoop, forall_mem_cons, Node.addReserved, Node.withReserved_reserved,
      Node.withReserved_available, Function.update_self]
    cases refuses r (n.reserved r + delta r) (n.available r) with
    | some e => simp
    | none =>
      simp only [ih fresh.2, true_and, Node.withReserved_reserved, Node.withReserved_available]
      refine forall₂_congr fun s hs => ?_
      have differs : s ≠ r := fun e => fresh.1 (e ▸ hs)
      rw [Function.update_of_ne differs]

/-- A loop that ends well reaches every resource. -/
theorem bookReach_of_ok {rs : List Resource}
    (ok : ∀ r ∈ rs, refuses r (n.reserved r + delta r) (n.available r) = none) :
    bookReach delta refuses n rs = rs := by
  induction rs with
  | nil => rfl
  | cons r rs ih =>
    obtain ⟨head, tail⟩ := forall_mem_cons.mp ok
    rw [bookReach, head, ih tail]
    rfl

theorem Resource.all_nodup : Resource.all.Nodup := by decide

/-! ### When a reservation and a release go through -/

/-- An amount fits on a node when it can be added to every reservation. -/
def Node.Fits (n : Node) (amount : Amounts) : Prop := n.reserved + amount ≤ n.available

/-- An amount is covered by a node when it can be taken off every reservation. -/
def Node.Covers (n : Node) (amount : Amounts) : Prop := amount ≤ n.reserved

instance (n : Node) (amount : Amounts) : Decidable (n.Fits amount) :=
  inferInstanceAs (Decidable (∀ r, n.reserved r + amount r ≤ n.available r))

instance (n : Node) (amount : Amounts) : Decidable (n.Covers amount) :=
  inferInstanceAs (Decidable (∀ r, amount r ≤ n.reserved r))

theorem overReserved_eq_none {r : Resource} {reserved available : ℤ} :
    overReserved r reserved available = none ↔ reserved ≤ available := by
  unfold overReserved
  split <;> simp_all

theorem belowZero_eq_none {r : Resource} {reserved available : ℤ} :
    belowZero r reserved available = none ↔ 0 ≤ reserved := by
  unfold belowZero
  split <;> simp_all

theorem reserveLoop_ok_iff : (reserveLoop amount n).1 = .ok () ↔ n.Fits amount := by
  rw [reserveLoop, bookLoop_ok_iff Resource.all_nodup]
  simp only [overReserved_eq_none]
  exact ⟨fun h r => h r r.mem_all, fun h r _ => h r⟩

theorem releaseLoop_ok_iff : (releaseLoop amount n).1 = .ok () ↔ n.Covers amount := by
  rw [releaseLoop, bookLoop_ok_iff Resource.all_nodup]
  simp only [belowZero_eq_none, Pi.neg_apply]
  refine ⟨fun h r => ?_, fun h r _ => ?_⟩
  · have kept := h r r.mem_all
    change amount r ≤ n.reserved r
    omega
  · have covered : amount r ≤ n.reserved r := h r
    omega

theorem reserveLoop_node (fits : n.Fits amount) : (reserveLoop amount n).2 = n.withReserved (n.reserved + amount) := by
  rw [reserveLoop, bookLoop_node Resource.all_nodup, bookReach_of_ok fun r _ => overReserved_eq_none.mpr (fits r)]
  simp only [Resource.mem_all, if_true]
  rfl

theorem releaseLoop_node (covers : n.Covers amount) :
    (releaseLoop amount n).2 = n.withReserved (n.reserved - amount) := by
  have kept : ∀ r ∈ Resource.all, belowZero r (n.reserved r + (-amount) r) (n.available r) = none := by
    intro r _
    have covered : amount r ≤ n.reserved r := covers r
    rw [belowZero_eq_none, Pi.neg_apply]
    omega
  rw [releaseLoop, bookLoop_node Resource.all_nodup, bookReach_of_ok kept]
  simp only [Resource.mem_all, if_true, sub_eq_add_neg]
  rfl

/-- A reservation goes through when the node is known and the amount fits. -/
theorem reserveResources_ok_iff {status' : Status} {amount : Limits} :
    reserveResources status amount node = (.ok (), status') ↔ ∃ n, status.get? node = some n ∧ n.Fits amount.amounts ∧
        status' = status.set node (n.withReserved (n.reserved + amount.amounts)) := by
  unfold reserveResources onNode
  cases found : status.get? node with
  | none => simp
  | some n =>
    simp only [Prod.mk.injEq, some.injEq, exists_eq_left', reserveLoop_ok_iff]
    refine and_congr_right fun fits => ?_
    rw [reserveLoop_node fits, eq_comm]

/-- A release goes through when the node is known and the amount is covered. -/
theorem releaseAmount_ok_iff {status' : Status} {amount : Limits} :
    releaseAmount status amount node = (.ok (), status') ↔ ∃ n, status.get? node = some n ∧ n.Covers amount.amounts ∧
        status' = status.set node (n.withReserved (n.reserved - amount.amounts)) := by
  unfold releaseAmount onNode
  cases found : status.get? node with
  | none => simp
  | some n =>
    simp only [Prod.mk.injEq, some.injEq, exists_eq_left', releaseLoop_ok_iff]
    refine and_congr_right fun covers => ?_
    rw [releaseLoop_node covers, eq_comm]

/-! ### When nothing is left behind -/

/-- The loop leaves the node as it was exactly when it asks nothing of what it reaches. -/
theorem bookLoop_eq_self_iff {rs : List Resource} (nodup : rs.Nodup) :
    (bookLoop delta refuses rs n).2 = n ↔ ∀ r ∈ bookReach delta refuses n rs, delta r = 0 := by
  rw [bookLoop_node nodup]
  constructor
  · intro same r reached
    have at_r := congrFun (congrArg Node.reserved same) r
    rw [Node.withReserved_reserved, if_pos reached] at at_r
    omega
  · intro zero
    have kept : (fun s => n.reserved s + if s ∈ bookReach delta refuses n rs then delta s else 0) = n.reserved := by
      funext s
      split
      · rw [zero s (by assumption), add_zero]
      · rw [add_zero]
    rw [kept, Node.withReserved_self]

/-- A change of a node leaves the status as it was exactly when it leaves the node so. -/
theorem onNode_eq_self_iff {change : Node → Except Exn Unit × Node} : (onNode change status node).2 = status ↔
      ∀ n, status.get? node = some n → (change n).2 = n := by
  unfold onNode
  cases found : status.get? node with
  | none => simp
  | some n =>
    simp only [some.injEq, forall_eq', Dict.set_eq_self_iff, found]
    exact eq_comm

end Klever.Scheduler
