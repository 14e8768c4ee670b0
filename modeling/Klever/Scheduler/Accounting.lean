import Klever.Lib.Booking
import Klever.Lib.Run
import Klever.Scheduler.Manager

/-!
# What is reserved is what runs

The abstract view of the resource manager is a ledger: the jobs and tasks that run now, each with
its configuration and its node, and the disk that earlier releases keep on each node. A claim adds
an entry and a release takes one off. `Accounts` relates a ledger to a manager, and `Accounts.step`
says that a call that returns normally moves both in step, as long as nothing is claimed while it
runs. A run from a manager without reservations (`accounts_of_run`) is then the ledger of its calls,
and `reserved_eq_running` reads the accounting off the ledger.

What is left out: a change of a node's available amounts between two calls.
-/

namespace Klever.Scheduler

open Klever.Lib List Option

/-! ## The ledger -/

/-- Something that runs: its identifier, its configuration and its node. -/
structure Entry where
  identifier : String
  conf : Conf
  node : String

/-- The jobs and tasks of a manager, without its node records: what runs, in the order of the
claims, and the disk kept on each node. -/
structure Ledger where
  entries : List Entry
  kept : String → ℕ

variable {kind : Kind} {e : Entry}

namespace Entry

/-- Whether this is the entry of an identifier of a kind. -/
def isOf (kind : Kind) (identifier : String) (e : Entry) : Bool :=
  e.conf.kind = kind ∧ e.identifier = identifier

/-- What an entry books, and where. -/
def booking (e : Entry) : String × Amounts := (e.node, e.conf.limits.amounts)

/-- What tells entries apart. -/
def key (e : Entry) : Kind × String := (e.conf.kind, e.identifier)

theorem isOf_iff {identifier : String} :
    e.isOf kind identifier = true ↔ e.conf.kind = kind ∧ e.identifier = identifier := by
  simp [isOf]

theorem key_eq_iff {identifier : String} : e.key = (kind, identifier) ↔ e.isOf kind identifier = true := by
  rw [isOf_iff, key, Prod.mk.injEq]

end Entry

/-- The disk that a call keeps on a node. -/
def Call.keptAt (node : String) : Call → ℕ
  | .claim .. => 0
  | .release _ node' _ keepDisk => if node' = node then keepDisk else 0

variable {L : Ledger} {node id : String}

namespace Ledger

/-- The empty ledger. -/
def empty : Ledger := ⟨[], fun _ => 0⟩

/-- What a call does to the ledger. -/
def step (L : Ledger) (c : Call) : Ledger where
  entries :=
    match c with
    | .claim identifier conf node => L.entries ++ [⟨identifier, conf, node⟩]
    | .release identifier _ kind _ => L.entries.eraseP (Entry.isOf kind identifier)
  kept node := L.kept node + c.keptAt node

/-- The ledger of a history. -/
def ofCalls (calls : List Call) : Ledger := calls.foldl step empty

/-- What the entries of a node book there. -/
def booked (L : Ledger) (node : String) : Amounts := load (L.entries.map Entry.booking) node

/-- The identifiers of a kind that run on a node. -/
def listed (L : Ledger) (kind : Kind) (node : String) : List String :=
  (L.entries.filter fun e => e.conf.kind = kind ∧ e.node = node).map Entry.identifier

theorem mem_listed : id ∈ L.listed kind node ↔
      ∃ e ∈ L.entries, e.isOf kind id = true ∧ e.node = node := by
  simp only [listed, List.mem_map, mem_filter, decide_eq_true_eq, Entry.isOf_iff]
  constructor
  · rintro ⟨e, ⟨mem, same, at_node⟩, rfl⟩
    exact ⟨e, mem, ⟨same, rfl⟩, at_node⟩
  · rintro ⟨e, mem, ⟨same, rfl⟩, at_node⟩
    exact ⟨e, ⟨mem, same, at_node⟩, rfl⟩

theorem load_booking_nonneg (entries : List Entry) (node : String) : 0 ≤ load (entries.map Entry.booking) node :=
  load_nonneg (List.forall_mem_map.mpr fun e _ => e.conf.limits.nonneg) node

end Ledger

/-! ## A manager that keeps the ledger -/

/-- The manager's books agree with a ledger. -/
structure Accounts (L : Ledger) (m : Manager) : Prop where
  /-- Each node reserves what runs there and the disk kept there. -/
  reserved : ∀ node n, m.systemStatus.get? node = some n → n.reserved = L.booked node + keptAmounts (L.kept node)
  /-- Each node lists what runs there. -/
  running : ∀ node n, m.systemStatus.get? node = some n → ∀ kind, n.running kind = L.listed kind node
  /-- The stored configurations are those of the entries. -/
  stored : ∀ kind identifier conf, m.stored kind identifier = some conf ↔
    ∃ e ∈ L.entries, e.isOf kind identifier = true ∧ e.conf = conf
  /-- Entries run on known nodes. -/
  known : ∀ e ∈ L.entries, ∃ n, m.systemStatus.get? e.node = some n
  /-- No node reserves more than it has. -/
  bounded : ∀ node n, m.systemStatus.get? node = some n → n.reserved ≤ n.available
  /-- Nothing runs twice. -/
  unique : (L.entries.map Entry.key).Nodup

namespace Accounts

variable {L : Ledger} {m m' : Manager}

/-- What runs has an entry, and only that. -/
theorem isRunning_iff (h : Accounts L m) : m.IsRunning kind id ↔ ∃ e ∈ L.entries, e.isOf kind id = true := by
  constructor
  · rintro ⟨node, n, found, mem⟩
    rw [h.running node n found, Ledger.mem_listed] at mem
    obtain ⟨e, mem, same, -⟩ := mem
    exact ⟨e, mem, same⟩
  · rintro ⟨e, mem, same⟩
    obtain ⟨n, found⟩ := h.known e mem
    refine ⟨e.node, n, found, ?_⟩
    rw [h.running e.node n found, Ledger.mem_listed]
    exact ⟨e, mem, same, rfl⟩

/-- An identifier of a kind has at most one entry. -/
theorem entry_eq (h : Accounts L m) {f : Entry}
    (he : e ∈ L.entries) (hf : f ∈ L.entries) (same : e.isOf kind id = true)
    (same' : f.isOf kind id = true) : e = f := by
  refine inj_on_of_nodup_map h.unique he hf ?_
  rw [Entry.key_eq_iff.mpr same, Entry.key_eq_iff.mpr same']

/-- A node covers what an entry there has booked. -/
theorem covers (h : Accounts L m) {n : Node}
    (found : m.systemStatus.get? node = some n) (mem : e ∈ L.entries) (here : e.node = node) :
    n.Covers e.conf.limits.amounts := by
  obtain ⟨before, after, whole⟩ := append_of_mem mem
  rw [Node.Covers, h.reserved node n found, Ledger.booked, whole, map_append, map_cons,
    load_append, load_cons, Entry.booking, if_pos here]
  intro r
  have one := Ledger.load_booking_nonneg before node r
  have two := Ledger.load_booking_nonneg after node r
  have kept : 0 ≤ keptAmounts (L.kept node) r := keptAmounts_nonneg _ r
  simp only [Pi.add_apply, Pi.zero_apply] at one two ⊢
  omega

theorem reserved_nonneg (h : Accounts L m) {n : Node}
    (found : m.systemStatus.get? node = some n) : 0 ≤ n.reserved := by
  rw [h.reserved node n found]
  exact add_nonneg (Ledger.load_booking_nonneg L.entries node) (keptAmounts_nonneg _)

end Accounts

/-! ## Claims and releases move both -/

namespace Ledger

variable (L : Ledger) (id : String) (conf : Conf) (node node' : String) (kind : Kind)

theorem booked_claim : (L.step (.claim id conf node)).booked node' =
      L.booked node' + if node = node' then conf.limits.amounts else 0 := by
  simp [booked, step, load_append, load_singleton, Entry.booking]

theorem listed_claim : (L.step (.claim id conf node)).listed kind node' =
      L.listed kind node' ++ if conf.kind = kind ∧ node = node' then [id] else [] := by
  simp only [listed, step, filter_append, map_append]
  split
  next here => rw [filter_cons_of_pos (by simpa using here), filter_nil, map_singleton]
  next elsewhere => rw [filter_cons_of_neg (by simpa using elsewhere), filter_nil, map_nil]

theorem kept_claim : (L.step (.claim id conf node)).kept = L.kept := rfl

end Ledger

namespace Ledger

variable (mem : e ∈ L.entries) (same : e.isOf kind id = true) (unique : (L.entries.map Entry.key).Nodup)

include mem same unique

/-- A release takes one entry out of the list. -/
theorem entries_release (node : String) (keepDisk : ℕ) :
    ∃ before after, L.entries = before ++ e :: after ∧
      (L.step (.release id node kind keepDisk)).entries = before ++ after ∧
      ∀ f ∈ before ++ after, f.isOf kind id = false := by
  obtain ⟨f, before, after, others, found, whole, erased⟩ := exists_of_eraseP mem same
  obtain rfl : e = f := by
    refine inj_on_of_nodup_map unique mem (by rw [whole]; simp) ?_
    rw [Entry.key_eq_iff.mpr same, Entry.key_eq_iff.mpr found]
  refine ⟨before, after, whole, erased, fun g hg => ?_⟩
  rcases mem_append.mp hg with hg | hg
  · exact Bool.eq_false_iff.mpr (others g hg)
  · refine Bool.eq_false_iff.mpr fun also => ?_
    rw [whole, map_append, map_cons] at unique
    refine (nodup_cons.mp (nodup_append.mp unique).2.1).1 ?_
    rw [Entry.key_eq_iff.mpr same, ← Entry.key_eq_iff.mpr also]
    exact List.mem_map_of_mem hg

theorem booked_release (node node' : String) (keepDisk : ℕ) :
    L.booked node' = (L.step (.release id node kind keepDisk)).booked node' +
      if e.node = node' then e.conf.limits.amounts else 0 := by
  obtain ⟨before, after, whole, erased, -⟩ := entries_release mem same unique node keepDisk
  simp only [booked, whole, erased, map_append, map_cons, load_append, load_cons, Entry.booking]
  abel

theorem listed_release (node node' : String) (kind' : Kind) (keepDisk : ℕ) :
    (L.step (.release id node kind keepDisk)).listed kind' node' =
      if kind = kind' ∧ e.node = node' then (L.listed kind' node').erase id
      else L.listed kind' node' := by
  obtain ⟨before, after, whole, erased, others⟩ := entries_release mem same unique node keepDisk
  obtain ⟨rfl, rfl⟩ := Entry.isOf_iff.mp same
  simp only [Ledger.listed, whole, erased, filter_append, map_append]
  split
  next here =>
    obtain ⟨rfl, rfl⟩ := here
    have absent : e.identifier ∉ (before.filter fun f => decide (f.conf.kind = e.conf.kind ∧
        f.node = e.node)).map Entry.identifier := by
      intro listed
      obtain ⟨f, hf, eq⟩ := List.mem_map.mp listed
      obtain ⟨hf, sameKind⟩ := mem_filter.mp hf
      have isOf := Entry.isOf_iff.mpr ⟨(of_decide_eq_true sameKind).1, eq⟩
      rw [others f (mem_append_left _ hf)] at isOf
      cases isOf
    rw [filter_cons_of_pos (by simp), map_cons, erase_append_right _ absent, erase_cons_head]
  next elsewhere =>
    rw [filter_cons_of_neg (by simpa using elsewhere)]

end Ledger

namespace Accounts

variable {L : Ledger} {m m' : Manager} {id node : String} {kind : Kind} {conf : Conf}

/-- A claim of something that does not run adds its entry. -/
theorem claim (h : Accounts L m) (idle : ¬ m.IsRunning conf.kind id)
    (ok : claimResources m id conf node = (.ok (), m')) :
    Accounts (L.step (.claim id conf node)) m' := by
  obtain ⟨n, found, fits, rfl⟩ := claim_ok_iff.mp ok
  have others : ∀ e ∈ L.entries, e.isOf conf.kind id = false := fun e mem =>
    Bool.eq_false_iff.mpr fun same => idle (h.isRunning_iff.mpr ⟨e, mem, same⟩)
  constructor
  case reserved =>
    refine Dict.forall_set ?_ fun node' n' differs found' => ?_
    · rw [Node.start_reserved, Node.withReserved_reserved, Ledger.booked_claim, Ledger.kept_claim,
        h.reserved node n found, if_pos rfl]
      abel
    · rw [Ledger.booked_claim, Ledger.kept_claim, if_neg differs.symm, add_zero, h.reserved node' n' found']
  case running =>
    refine Dict.forall_set (fun kind => ?_) fun node' n' differs found' kind => ?_
    · rw [Node.start_running, Node.withReserved_running, Ledger.listed_claim, ← h.running node n found]
      by_cases same : conf.kind = kind
      · subst same
        rw [Function.update_self, if_pos ⟨rfl, rfl⟩]
      · rw [Function.update_of_ne (Ne.symm same), if_neg fun here => same here.1, append_nil]
    · rw [Ledger.listed_claim, if_neg fun here => differs.symm here.2, append_nil, h.running node' n' found']
  case stored =>
    intro kind identifier' conf'
    rw [Manager.withStatus_stored, Manager.stored_store]
    simp only [Ledger.step, mem_append, mem_singleton]
    split
    next same =>
      obtain ⟨rfl, rfl⟩ := same
      constructor
      · rintro ⟨⟩
        exact ⟨_, .inr rfl, Entry.isOf_iff.mpr ⟨rfl, rfl⟩, rfl⟩
      · rintro ⟨e, mem | rfl, same, rfl⟩
        · rw [others e mem] at same
          cases same
        · rfl
    next differs =>
      rw [h.stored]
      constructor
      · rintro ⟨e, mem, rest⟩
        exact ⟨e, .inl mem, rest⟩
      · rintro ⟨e, mem | rfl, same, rfl⟩
        · exact ⟨e, mem, same, rfl⟩
        · obtain ⟨rfl, rfl⟩ := Entry.isOf_iff.mp same
          exact absurd ⟨rfl, rfl⟩ differs
  case known =>
    intro e mem
    rw [Manager.withStatus_systemStatus, Dict.get?_set]
    split
    · exact ⟨_, rfl⟩
    next differs =>
      rcases mem_append.mp mem with mem | mem
      · exact h.known e mem
      · rw [mem_singleton.mp mem] at differs
        exact absurd rfl differs
  case bounded =>
    refine Dict.forall_set ?_ fun node' n' _ found' => h.bounded node' n' found'
    exact fits
  case unique =>
    simp only [Ledger.step, map_append, map_singleton]
    refine nodup_append.mpr ⟨h.unique, nodup_singleton _, ?_⟩
    rintro k hk _ hk' rfl
    obtain ⟨e, mem, key⟩ := List.mem_map.mp hk
    rw [mem_singleton.mp hk'] at key
    have same := Entry.key_eq_iff.mp key
    rw [others e mem] at same
    cases same

/-- A release takes its entry off and adds to the kept disk. -/
theorem release (h : Accounts L m) {keepDisk : ℕ} (ok : releaseResources m id node kind keepDisk = (.ok (), m')) :
    Accounts (L.step (.release id node kind keepDisk)) m' := by
  obtain ⟨conf, n, stored, found, listed, -, keeps, rfl⟩ := release_ok_iff.mp ok
  -- the entry that the node lists is the one whose configuration is stored
  rw [h.running node n found, Ledger.mem_listed] at listed
  obtain ⟨e, mem, same, rfl⟩ := listed
  obtain ⟨e', mem', same', rfl⟩ := (h.stored kind id conf).mp stored
  obtain rfl := h.entry_eq mem mem' same same'
  have booked := Ledger.booked_release mem same h.unique e.node
  have listed := Ledger.listed_release mem same h.unique e.node
  obtain ⟨before, after, whole, erased, others⟩ :=
    Ledger.entries_release mem same h.unique e.node keepDisk
  constructor
  case reserved =>
    refine Dict.forall_set ?_ fun node' n' differs found' => ?_
    · rw [Node.stop_reserved, Node.withReserved_reserved, h.reserved e.node n found, booked e.node keepDisk, if_pos rfl]
      funext r
      cases r <;> simp [keptAmounts, amounts, Ledger.step, Call.keptAt]
      omega
    · rw [h.reserved node' n' found', booked node' keepDisk, if_neg differs.symm, add_zero]
      simp [Ledger.step, Call.keptAt, if_neg differs.symm]
  case running =>
    refine Dict.forall_set (fun kind' => ?_) fun node' n' differs found' kind' => ?_
    · rw [Node.stop_running, Node.withReserved_running, listed, ← h.running e.node n found]
      by_cases sameKind : kind = kind'
      · subst sameKind
        rw [Function.update_self, if_pos ⟨rfl, rfl⟩]
      · rw [Function.update_of_ne (Ne.symm sameKind), if_neg fun here => sameKind here.1]
    · rw [listed, if_neg fun here => differs.symm here.2, h.running node' n' found']
  case stored =>
    intro kind' identifier' conf'
    rw [Manager.withStatus_stored, Manager.stored_unstore, erased]
    split
    next here =>
      obtain ⟨rfl, rfl⟩ := here
      refine ⟨(fun is => by cases is), ?_⟩
      rintro ⟨f, hf, isOf, -⟩
      rw [others f hf] at isOf
      cases isOf
    next elsewhere =>
      rw [h.stored, whole]
      refine exists_congr fun f => ?_
      simp only [mem_append, mem_cons]
      refine ⟨?_, And.imp_left (Or.imp_right .inr)⟩
      rintro ⟨hf | rfl | hf, isOf, rfl⟩
      · exact ⟨.inl hf, isOf, rfl⟩
      · obtain ⟨rfl, rfl⟩ := Entry.isOf_iff.mp isOf
        exact absurd (Entry.isOf_iff.mp same) (fun eq => elsewhere eq)
      · exact ⟨.inr hf, isOf, rfl⟩
  case known =>
    intro f hf
    rw [Manager.withStatus_systemStatus, Dict.get?_set]
    split
    · exact ⟨_, rfl⟩
    · exact h.known f (mem_of_mem_eraseP hf)
  case bounded =>
    refine Dict.forall_set ?_ fun node' n' _ found' => h.bounded node' n' found'
    intro r
    have before : n.reserved r ≤ n.available r := h.bounded e.node n found r
    have asked : 0 ≤ e.conf.limits.amounts r := e.conf.limits.nonneg r
    simp only [Node.stop_reserved, Node.stop_available, Node.withReserved_reserved,
      Node.withReserved_available, Pi.add_apply, Pi.sub_apply]
    cases r
    · simp only [keptAmounts, amounts]; omega
    · simp only [keptAmounts, amounts]; omega
    · rcases keeps with none_kept | room
      · simp only [keptAmounts, amounts, none_kept]; omega
      · simp only [Node.left, Node.stop_reserved, Node.stop_available, Node.withReserved_reserved,
          Node.withReserved_available, Pi.sub_apply] at room
        simp only [keptAmounts, amounts]; omega
  case unique =>
    have unique := h.unique
    rw [whole] at unique
    rw [erased]
    exact (Sublist.map _ (Sublist.append_left (sublist_cons_self _ _) _)).nodup unique

end Accounts

/-! ## Runs -/

/-- A call that returns normally and claims nothing that runs. -/
def Call.Step (m : Manager) (c : Call) (m' : Manager) : Prop :=
  c.run m = (.ok (), m') ∧
    match c with
    | .claim identifier conf _ => ¬ m.IsRunning conf.kind identifier
    | .release .. => True

/-- Nothing is reserved, nothing runs and nothing is stored. -/
structure Manager.Fresh (m : Manager) : Prop where
  idle : ∀ node n, m.systemStatus.get? node = some n → n.reserved = 0 ∧ ∀ kind, n.running kind = []
  unstored : ∀ kind identifier, m.stored kind identifier = none

/-- The manager starts fresh. -/
theorem Manager.fresh_init (maxJobs poolSize : ℤ) (isAdjustPoolSize : Bool) :
    (Manager.init maxJobs poolSize isAdjustPoolSize).Fresh where
  idle _ _ found := nomatch found
  unstored kind _ := by cases kind <;> rfl

variable {m : Manager}

/-- A fresh manager that meets a node is fresh. -/
theorem Manager.Fresh.connect (fresh : m.Fresh) (name cpuModel : String)
    (forJobs forTasks : Bool) {available : Amounts} (nonneg : ∀ r, 0 ≤ available r) :
    (m.connect name (Node.connected cpuModel forJobs forTasks available nonneg)).Fresh where
  idle := Dict.forall_set ⟨rfl, fun _ => rfl⟩ fun node n _ found => fresh.idle node n found
  unstored := fresh.unstored

theorem accounts_empty (fresh : m.Fresh) : Accounts Ledger.empty m where
  reserved node n found := by
    rw [(fresh.idle node n found).1]
    funext r
    cases r <;> rfl
  running node n found kind := (fresh.idle node n found).2 kind
  stored kind id conf := by
    rw [fresh.unstored]
    exact ⟨nofun, fun ⟨_, mem, _⟩ => absurd mem not_mem_nil⟩
  known e mem := absurd mem not_mem_nil
  bounded node n found := by
    rw [(fresh.idle node n found).1]
    exact n.available_nonneg
  unique := nodup_nil

/-- One call moves the ledger and the manager in step. -/
theorem Accounts.step {m' : Manager} {c : Call} (h : Accounts L m)
    (step : Call.Step m c m') : Accounts (L.step c) m' := by
  cases c with
  | claim id conf node => exact h.claim step.2 step.1
  | release id node kind keepDisk => exact h.release step.1

variable (calls : List Call)

theorem Ledger.ofCalls_snoc (c : Call) : Ledger.ofCalls (calls ++ [c]) = (Ledger.ofCalls calls).step c := by
  rw [Ledger.ofCalls, foldl_append]
  rfl

/-- After any run, the manager keeps the ledger of the calls. -/
theorem accounts_of_run {m₀ : Manager} {calls : List Call} (fresh : m₀.Fresh)
    (run : Run Call.Step m₀ calls m) : Accounts (Ledger.ofCalls calls) m := by
  refine run.invariant (P := fun calls m => Accounts (Ledger.ofCalls calls) m)
    (accounts_empty fresh) ?_
  intro calls m c m' h step
  rw [Ledger.ofCalls_snoc]
  exact h.step step

/-- The disk kept on a node by the releases of a history. -/
def keptDisk (node : String) : ℕ := (calls.map (Call.keptAt node)).sum

theorem ofCalls_kept (node : String) : (Ledger.ofCalls calls).kept node = keptDisk calls node := by
  induction calls using List.reverseRecOn with
  | nil => rfl
  | append_singleton calls c ih =>
    rw [Ledger.ofCalls_snoc, keptDisk, map_append, sum_append, map_singleton, sum_singleton, ← keptDisk, ← ih]
    rfl

/-- The configuration that a call claims for an identifier of a kind. -/
def Call.claimed (kind : Kind) (identifier : String) : Call → Option Conf
  | .claim identifier' conf _ =>
    if conf.kind = kind ∧ identifier' = identifier then some conf else none
  | .release .. => none

/-- The last configuration that a history claims for an identifier of a kind. -/
def lastClaimed (kind : Kind) (identifier : String) : Option Conf :=
  calls.reverse.findSome? (Call.claimed kind identifier)

theorem lastClaimed_snoc (c : Call) (kind : Kind) (id : String) : lastClaimed (calls ++ [c]) kind id =
      (c.claimed kind id).or (lastClaimed calls kind id) := by
  rw [lastClaimed, reverse_append, reverse_singleton, singleton_append, findSome?_cons]
  cases c.claimed kind id <;> rfl

/-- Each entry has the configuration that was claimed last for it. -/
theorem lastClaimed_of_run {m₀ : Manager} {calls : List Call} (fresh : m₀.Fresh) (run : Run Call.Step m₀ calls m) :
    ∀ e ∈ (Ledger.ofCalls calls).entries, lastClaimed calls e.conf.kind e.identifier = some e.conf := by
  induction run with
  | nil => exact fun e mem => absurd mem not_mem_nil
  | @snoc t u calls c before last ih =>
    intro e mem
    have unique := (accounts_of_run fresh (before.snoc last)).unique
    rw [Ledger.ofCalls_snoc] at mem unique
    rw [lastClaimed_snoc]
    cases c with
    | release id node kind keepDisk => exact ih e (mem_of_mem_eraseP mem)
    | claim id conf node =>
      simp only [Ledger.step, mem_append, mem_singleton, map_append, map_singleton] at mem unique
      rcases mem with mem | rfl
      · have differs : ¬ (conf.kind = e.conf.kind ∧ id = e.identifier) := by
          rintro ⟨sameKind, sameId⟩
          refine (nodup_append.mp unique).2.2 _ (List.mem_map_of_mem mem) _
            (mem_singleton_self _) ?_
          rw [Entry.key, Entry.key, sameKind, sameId]
        rw [Call.claimed, if_neg differs, none_or, ih e mem]
      · rw [Call.claimed, if_pos ⟨rfl, rfl⟩, some_or]

/-! ## The accounting -/

/-- The limits stored for an identifier, as an amount; nothing when there is no configuration. -/
def Manager.limitOf (m : Manager) (kind : Kind) (identifier : String) : Amounts :=
  ((m.stored kind identifier).map fun conf => conf.limits.amounts).getD 0

/-- What a list of entries books on a node, jobs and tasks apart. -/
theorem load_by_kind (entries : List Entry) (node : String) : load (entries.map Entry.booking) node =
      ((entries.filter fun e => e.conf.kind = .job ∧ e.node = node).map fun e => e.conf.limits.amounts).sum +
        ((entries.filter fun e => e.conf.kind = .task ∧ e.node = node).map fun e => e.conf.limits.amounts).sum := by
  induction entries with
  | nil => rfl
  | cons e es ih =>
    rw [map_cons, load_cons, ih]
    by_cases here : e.node = node
    · cases kind : e.conf.kind <;>
        simp only [Entry.booking, filter_cons, here, kind, and_self, decide_true, if_true,
          reduceCtorEq, false_and, decide_false, Bool.false_eq_true, if_false, map_cons,
          sum_cons] <;> abel
    · simp [Entry.booking, here]

/-- The limits of what runs on a node, in the manager's own tables, are what its entries book. -/
theorem Accounts.sum_limitOf (h : Accounts L m) {n : Node} (found : m.systemStatus.get? node = some n) (kind : Kind) :
    ((n.running kind).map (m.limitOf kind)).sum = ((L.entries.filter fun e => e.conf.kind = kind ∧ e.node = node).map
        fun e => e.conf.limits.amounts).sum := by
  rw [h.running node n found, Ledger.listed, List.map_map]
  congr 1
  refine map_congr_left fun e he => ?_
  obtain ⟨mem, here⟩ := mem_filter.mp he
  have stored := (h.stored kind e.identifier e.conf).mpr
    ⟨e, mem, Entry.isOf_iff.mpr ⟨(of_decide_eq_true here).1, rfl⟩, rfl⟩
  simp [Manager.limitOf, stored]

/-- After any run of calls from a manager without reservations, each node reserves the limits of the
jobs and tasks it lists and, of the disk, what earlier releases keep there; no reservation is
negative or above what is available; and the stored configurations are those last claimed for what
runs. -/
theorem reserved_eq_running {m₀ m : Manager} {calls : List Call} (fresh : m₀.Fresh) (run : Run Call.Step m₀ calls m) :
    (∀ node n, m.systemStatus.get? node = some n → n.reserved = ((n.running .job).map (m.limitOf .job)).sum +
          ((n.running .task).map (m.limitOf .task)).sum + amounts 0 0 (keptDisk calls node) ∧
        0 ≤ n.reserved ∧ n.reserved ≤ n.available) ∧
      ∀ kind identifier conf, m.stored kind identifier = some conf ↔
        m.IsRunning kind identifier ∧ lastClaimed calls kind identifier = some conf := by
  have h := accounts_of_run fresh run
  refine ⟨fun node n found => ⟨?_, h.reserved_nonneg found, h.bounded node n found⟩, ?_⟩
  · rw [h.sum_limitOf found, h.sum_limitOf found, ← load_by_kind, h.reserved node n found, ofCalls_kept]
    rfl
  · intro kind identifier conf
    have last := lastClaimed_of_run fresh run
    rw [h.stored, h.isRunning_iff]
    constructor
    · rintro ⟨e, mem, same, rfl⟩
      obtain ⟨rfl, rfl⟩ := Entry.isOf_iff.mp same
      exact ⟨⟨e, mem, same⟩, last e mem⟩
    · rintro ⟨⟨e, mem, same⟩, claimed⟩
      obtain ⟨rfl, rfl⟩ := Entry.isOf_iff.mp same
      rw [last e mem, some.injEq] at claimed
      exact ⟨e, mem, same, claimed⟩

/-- A task is claimed and released again, and two units of its disk are kept. -/
theorem reserved_eq_running_small : ∃ m, Run Call.Step smallManager
        [.claim "task" (smallTask 1 2 3) "node", .release "task" "node" .task 2] m ∧
      ∀ node n, m.systemStatus.get? node = some n → n.reserved = ((n.running .job).map (m.limitOf .job)).sum +
          ((n.running .task).map (m.limitOf .task)).sum +
          amounts 0 0 ((if node = "node" then 2 else 0 : ℕ) : ℤ) := by
  have fresh : smallManager.Fresh := (Manager.fresh_init 2 8 false).connect _ _ _ _ _
  have idle : ¬ smallManager.IsRunning .task "task" := by
    rintro ⟨node, n, found, mem⟩
    rw [(fresh.idle node n found).2] at mem
    cases mem
  have run : Run Call.Step smallManager _ _ :=
    (Run.nil smallManager).snoc (i := .claim "task" (smallTask 1 2 3) "node") ⟨rfl, idle⟩
      |>.snoc (i := .release "task" "node" .task 2) ⟨rfl, trivial⟩
  refine ⟨_, run, fun node n found => ?_⟩
  rw [((reserved_eq_running fresh run).1 node n found).1]
  congr 2
  simp [keptDisk, Call.keptAt, eq_comm]

end Klever.Scheduler
