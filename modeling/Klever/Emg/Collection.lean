import Klever.Emg.Process
import Klever.Emg.Requirements

/-!
# Collections of processes

An intermediate environment model: function models, environment processes and an entry process. Two
processes are peers in a signal if one of them sends it, the other one receives it, and the labels
that are passed have the same declarations; `establish_peers` records the peers of each process in a
table of its own, which stays as it is when processes are removed afterwards.

Declarations are a parameter: only how they compare and print is used.
-/

namespace Klever.Emg.Collection

open Klever.Lib List Option

/-- `Savepoint` -/
structure Savepoint where
  name : String
  /-- the process it belongs to -/
  parent : String
  comment : Option String
  statements : List String
  requirements : Requirements
  weakRequirements : Requirements
  deriving DecidableEq

/-- `Action`, the description of all behaviours of one name. -/
structure Action where
  kind : Kind
  comment : String
  condition : List String
  /-- of a block -/
  statements : List String
  /-- of a signal -/
  parameters : List String
  /-- the tree of a subprocess -/
  action : Option BaseAction
  traceRelevant : Bool
  savepoints : List Savepoint
  requirements : Requirements
  weakRequirements : Requirements
  deriving DecidableEq

/-- A new description: only signals are relevant for traces. -/
def Action.new (kind : Kind) : Action where
  kind := kind
  comment := ""
  condition := []
  statements := []
  parameters := []
  action := none
  traceRelevant := match kind with
    | .dispatch _ | .receive _ => true
    | .subprocess | .block => false
  savepoints := []
  requirements := .none
  weakRequirements := .none

/-- Declarations of C as they are printed (`__str__`) and compared (`__eq__`). A pointer to `void` is
taken for equal to all pointers, so the comparison is not an equality. -/
class Declared (D : Type) where
  text : D → String
  same : D → D → Bool
  same_comm : ∀ d e, same d e = same e d

/-- Texts of declarations without pointers to `void`. -/
instance : Declared String where
  text := id
  same d e := d = e
  same_comm d e := by rw [decide_eq_decide, eq_comm]

/-- The declarations of two labels, which may have none. -/
def sameDeclaration {D : Type} [Declared D] : Option D → Option D → Bool
  | none, none => true
  | some d, some e => Declared.same d e
  | _, _ => false

/-- `Label`, without its name. -/
structure Label (D : Type) where
  declaration : Option D
  value : Option String
  deriving DecidableEq

/-- `Process` -/
structure Process (D : Type) where
  category : Option String
  name : String
  comment : String
  headers : List String
  labels : Dict String (Label D)
  initial : BaseAction
  actions : Dict String Action
  declarations : Dict String (Dict String String)
  definitions : Dict String (Dict String (List String))
  /-- the signals in which other processes are peers -/
  peers : Dict String (List String)
  deriving DecidableEq

/-! ## Peers -/

/-- A dispatch and a receive. -/
def opposite : Kind → Kind → Bool
  | .dispatch _, .receive _ => true
  | .receive _, .dispatch _ => true
  | _, _ => false

/-- The table of a process after its signals with another process are found. -/
def updatePeers (peers : Dict String (List String)) (name : String) (signals : List String) :
    Dict String (List String) :=
  if signals.isEmpty then peers.erase name else (peers.erase name).set name signals

namespace Process

variable {D : Type} [Declared D] (p : Process D)

/-- `__str__` -/
def str : String := p.category.getD "None" ++ "/" ++ p.name

/-- `resolve_access`: only labels themselves can be parameters. -/
def resolveAccess (access : String) : Option (Label D) :=
  (p.labels.items.find? fun item => "%" ++ item.1 ++ "%" = access).map Prod.snd

/-- Are the declarations of the parameters the same? An access that is not to a label is an error. -/
def sameParameters (p q : Process D) : List String → List String → Option Bool
  | x :: xs, y :: ys => do
    let one ← p.resolveAccess x
    let other ← q.resolveAccess y
    if sameDeclaration one.declaration other.declaration then sameParameters p q xs ys else some false
  | _, _ => some true

/-- Is an action of the first process a signal between the two? -/
def isPeer (p q : Process D) (name : String) (a : Action) : Option Bool :=
  match q.actions.get? name with
  | none => some false
  | some b =>
    if opposite a.kind b.kind ∧ a.parameters.length = b.parameters.length then
      p.sameParameters q a.parameters b.parameters
    else some false

def peersAmong (p q : Process D) : List (String × Action) → Option (List String)
  | [] => some []
  | (name, a) :: rest => do
    let peer ← p.isPeer q name a
    let more ← peersAmong p q rest
    some (if peer then name :: more else more)

/-- The signals between two processes. -/
def signals? (p q : Process D) : Option (List String) := p.peersAmong q p.actions.items

def signals (p q : Process D) : List String := (p.signals? q).getD []

/-- A process with another table of peers. -/
def withPeers (peers : Dict String (List String)) : Process D :=
  { p with peers := peers }

/-- `establish_peers` of a process, if no access is an error. -/
def establishPeers (p q : Process D) : Process D × Process D :=
  (p.withPeers (updatePeers p.peers q.str (p.signals q)), q.withPeers (updatePeers q.peers p.str (p.signals q)))

/-- The replicative receives. -/
def registrations : List String :=
  (p.actions.items.filter fun item => item.2.kind = .receive true).map Prod.fst

/-- The signals of all peers. -/
def allPeers : List String := p.peers.values.flatten

/-- `incoming_peers` -/
def incomingPeers : List (String × List String) :=
  (p.peers.items.map fun item => (item.1, p.registrations.filter (· ∈ item.2))).filter
    fun item => item.2 ≠ []

/-- The requirement of a peer that is there and has the signals. -/
def requirePeer (r : Requirements) (item : String × List String) : Requirements :=
  (r.addRequirement item.1 true).addActionsRequirement item.1 item.2

/-- `peers_as_requirements`, a weak requirement. -/
def peersAsRequirements : Requirements := p.incomingPeers.foldl requirePeer .none

/-- The requirements of the actions. -/
def ownRequirements : List Requirement :=
  p.actions.values.flatMap fun a =>
    (if a.requirements.isEmpty then [] else [.strong a.requirements]) ++
      if a.weakRequirements.isEmpty then [] else [.weak a.weakRequirements]

/-- `requirements` -/
def requirements : List Requirement :=
  p.ownRequirements ++ if p.peersAsRequirements.isEmpty then [] else [.weak p.peersAsRequirements]

/-- `compatible_with_model` -/
def compatibleWithModel (p : Process D) (m : Surroundings) (restrictTo : Option (List String)) :
    Bool :=
  p.requirements.all fun r => r.compatibleWithModel m restrictTo

end Process

section

variable {D : Type} [Declared D]

/-- Peers of one process with each of a list. -/
def establishWith (p : Process D) : List (Process D) → Process D × List (Process D)
  | [] => (p, [])
  | q :: rest =>
    let (p, q) := p.establishPeers q
    let (p, rest) := establishWith p rest
    (p, q :: rest)

/-- Peers of each model with each other process. -/
def establishModels : List (Process D) → List (Process D) → List (Process D) × List (Process D)
  | [], others => ([], others)
  | model :: models, others =>
    let (model, others) := establishWith model others
    let (models, others) := establishModels models others
    (model :: models, others)

/-- Peers of each process with the ones behind it; the number is the length of the list. -/
def establishAll : Nat → List (Process D) → List (Process D)
  | n + 1, p :: rest =>
    let (p, rest) := establishWith p rest
    p :: establishAll n rest
  | _, _ => []

end

/-! ## What is peered -/

namespace Process

variable {D : Type} {p q : Process D}

/-- What is seen of a process from outside: its name, its labels and its actions. -/
def face (p : Process D) : String × Dict String (Label D) × Dict String Action :=
  (p.str, p.labels, p.actions)

theorem face_withPeers (t : Dict String (List String)) : (p.withPeers t).face = p.face := rfl

variable [Declared D]

/-- Two processes are peers in a signal. -/
def Peered (p q : Process D) (name : String) : Prop :=
  ∃ a b, p.actions.get? name = some a ∧ q.actions.get? name = some b ∧ opposite a.kind b.kind ∧
    a.parameters.length = b.parameters.length ∧
    p.sameParameters q a.parameters b.parameters = some true

theorem sameDeclaration_comm (d e : Option D) : sameDeclaration d e = sameDeclaration e d := by
  cases d <;> cases e <;> first | rfl | exact Declared.same_comm _ _

theorem sameParameters_symm {xs ys : List String} (same : p.sameParameters q xs ys = some true)
    (length : xs.length = ys.length) : q.sameParameters p ys xs = some true := by
  induction xs generalizing ys with
  | nil =>
    cases ys with
    | nil => rfl
    | cons => cases length
  | cons x xs ih =>
    cases ys with
    | nil => cases length
    | cons y ys =>
      obtain ⟨one, found, same⟩ := bind_eq_some_iff.mp same
      obtain ⟨other, found', same⟩ := bind_eq_some_iff.mp same
      split at same
      next equal =>
        refine bind_eq_some_iff.mpr ⟨other, found', ?_⟩
        refine bind_eq_some_iff.mpr ⟨one, found, ?_⟩
        rw [sameDeclaration_comm, if_pos equal]
        exact ih same (Nat.succ.inj length)
      next => cases same

theorem opposite_comm (j k : Kind) : opposite j k = opposite k j := by
  cases j <;> cases k <;> rfl

variable {name : String} {p' q' : Process D}

theorem Peered.symm (peered : p.Peered q name) : q.Peered p name := by
  obtain ⟨a, b, mine, its, kinds, length, same⟩ := peered
  exact ⟨b, a, its, mine, opposite_comm _ _ ▸ kinds, length.symm, sameParameters_symm same length⟩

/-- No process is its own peer. -/
theorem not_peered_self : ¬ p.Peered p name := by
  intro ⟨a, b, mine, its, kinds, _⟩
  rw [mine] at its
  cases its
  cases h : a.kind <;> simp [opposite, h] at kinds

theorem Peered.mem_keys (peered : p.Peered q name) : name ∈ q.actions.keys := by
  obtain ⟨_, b, _, its, _⟩ := peered
  exact Dict.mem_keys_iff.mpr ⟨b, its⟩

theorem isPeer_iff {a : Action} (mine : p.actions.get? name = some a) :
    p.isPeer q name a = some true ↔ p.Peered q name := by
  unfold isPeer
  constructor
  · intro peer
    split at peer
    next => cases peer
    next b its =>
      split at peer
      next alike => exact ⟨a, b, mine, its, alike.1, alike.2, peer⟩
      next => cases peer
  · intro ⟨a', b, mine', its, kinds, length, same⟩
    rw [mine] at mine'
    cases mine'
    simp [its, kinds, length, same]

theorem peersAmong_eq {items : List (String × Action)} {names : List String}
    (found : p.peersAmong q items = some names) :
    names = (items.filter fun item => p.isPeer q item.1 item.2 = some true).map Prod.fst := by
  induction items generalizing names with
  | nil =>
    cases found
    rfl
  | cons item rest ih =>
    obtain ⟨peer, here, others⟩ := bind_eq_some_iff.mp found
    obtain ⟨more, rest, same⟩ := bind_eq_some_iff.mp others
    cases same
    rw [filter_cons, here, ih rest]
    cases peer <;> rfl

theorem mem_signals (connectable : (p.signals? q).isSome) : name ∈ p.signals q ↔ p.Peered q name := by
  obtain ⟨names, found⟩ := isSome_iff_exists.mp connectable
  rw [signals, found, getD_some, peersAmong_eq found]
  constructor
  · intro mem
    obtain ⟨⟨name, a⟩, listed, rfl⟩ := List.mem_map.mp mem
    obtain ⟨mem, peer⟩ := mem_filter.mp listed
    exact (isPeer_iff (Dict.mem_items_iff.mp mem)).mp (of_decide_eq_true peer)
  · intro peered
    have ⟨a, _, mine, _⟩ := peered
    have peer := decide_eq_true ((isPeer_iff mine).mpr peered)
    exact List.mem_map.mpr ⟨(name, a), mem_filter.mpr ⟨Dict.mem_items_iff.mpr mine, peer⟩, rfl⟩

/-! Who the peers of a process are depends on what is seen of the processes from outside only. -/

theorem sameParameters_congr (mine : p.face = p'.face) (its : q.face = q'.face) (xs ys : List String) :
    p.sameParameters q xs ys = p'.sameParameters q' xs ys := by
  have resolve : ∀ {p p' : Process D}, p.face = p'.face → p.resolveAccess = p'.resolveAccess := by
    intro p p' same
    funext access
    rw [resolveAccess, show p.labels = p'.labels from congrArg (fun face => face.2.1) same]
    rfl
  induction xs generalizing ys with
  | nil => rfl
  | cons x xs ih =>
    cases ys with
    | nil => rfl
    | cons y ys => rw [sameParameters, sameParameters, resolve mine, resolve its, ih]

theorem signals?_congr (mine : p.face = p'.face) (its : q.face = q'.face) : p.signals? q = p'.signals? q' := by
  have among : ∀ items, p.peersAmong q items = p'.peersAmong q' items := by
    intro items
    induction items with
    | nil => rfl
    | cons item rest ih =>
      obtain ⟨name, a⟩ := item
      have same : p.isPeer q name a = p'.isPeer q' name a := by
        rw [isPeer, isPeer, show q.actions = q'.actions from congrArg (fun face => face.2.2) its]
        simp [sameParameters_congr mine its]
      rw [peersAmong, peersAmong, ih, same]
  rw [signals?, among, show p.actions = p'.actions from congrArg (fun face => face.2.2) mine]
  rfl

@[simp] theorem signals_withPeers_left (t : Dict String (List String)) : (p.withPeers t).signals = p.signals :=
  funext fun _ => congrArg (Option.getD · []) (signals?_congr rfl rfl)

@[simp] theorem signals_withPeers_right (u : Dict String (List String)) : p.signals (q.withPeers u) = p.signals q :=
  congrArg (Option.getD · []) (signals?_congr rfl rfl)

theorem peered_congr (mine : p.face = p'.face) (its : q.face = q'.face) : p.Peered q name ↔ p'.Peered q' name := by
  unfold Peered
  rw [show p.actions = p'.actions from congrArg (fun face => face.2.2) mine,
    show q.actions = q'.actions from congrArg (fun face => face.2.2) its]
  simp [sameParameters_congr mine its]

end Process

/-! ## The tables after all peers are established -/

section Tables

variable {D : Type}

/-- The processes of a list by their names; of two with one name the last one counts. -/
def byName (ps : List (Process D)) : Dict String (Process D) := .ofList (ps.map fun p => (p.str, p))

theorem byName_append (ps : List (Process D)) (p : Process D) : byName (ps ++ [p]) = (byName ps).set p.str p := by
  rw [byName, map_append]
  exact Dict.ofList_append _ _

theorem get?_updatePeers (peers : Dict String (List String)) (name key : String)
    (names : List String) : (updatePeers peers name names).get? key =
      if key = name then (if names.isEmpty then none else some names) else peers.get? key := by
  unfold updatePeers
  by_cases none : names.isEmpty
  · rw [if_pos none, Dict.get?_erase, if_pos none]
  · rw [if_neg none, Dict.get?_set, Dict.get?_erase, if_neg none]
    split <;> rfl

variable {ps : List (Process D)} {key : String} {p : Process D} {name : String} {qs : List (Process D)}

theorem byName_eq_none : (byName ps).get? key = none ↔ key ∉ ps.map Process.str := by
  rw [eq_none_iff_forall_ne_some, ← not_exists, ← Dict.mem_keys_iff, byName, Dict.mem_keys_ofList, List.map_map]
  rfl

/-- The table of a process that found the given signals with each of a list of processes. -/
def tableWith (signals : Process D → List String) (peers : Dict String (List String))
    (ps : List (Process D)) : Dict String (List String) :=
  ps.foldl (fun peers q => updatePeers peers q.str (signals q)) peers

theorem tableWith_map {ι : Type} (f : ι → Process D) (signals : Process D → List String)
    (peers : Dict String (List String)) (is : List ι) : tableWith signals peers (is.map f) =
      is.foldl (fun peers i => updatePeers peers (f i).str (signals (f i))) peers :=
  foldl_map

theorem get?_tableWith (signals : Process D → List String) (peers : Dict String (List String))
    (ps : List (Process D)) (key : String) : (tableWith signals peers ps).get? key =
      match (byName ps).get? key with
      | none => peers.get? key
      | some q => if (signals q).isEmpty then none else some (signals q) := by
  induction ps using List.reverseRecOn with
  | nil => rfl
  | append_singleton ps q ih =>
    rw [tableWith, foldl_append, foldl_cons, foldl_nil, get?_updatePeers, byName_append, Dict.get?_set]
    by_cases same : key = q.str
    · rw [if_pos same, if_pos same]
    · rw [if_neg same, if_neg same]
      exact ih

theorem get?_byName_append (front back : List (Process D)) (key : String) :
    (byName (front ++ back)).get? key = ((byName back).get? key).or ((byName front).get? key) := by
  rw [byName, map_append]
  exact Dict.get?_ofList_append _ _ key

theorem mem_of_byName {q : Process D} (found : (byName ps).get? key = some q) : q ∈ ps ∧ q.str = key := by
  induction ps using List.reverseRecOn with
  | nil => cases found
  | append_singleton ps p ih =>
    rw [byName_append] at found
    obtain ⟨same, rfl⟩ | ⟨-, found⟩ := Dict.of_get?_set found
    · exact ⟨by simp, same.symm⟩
    · obtain ⟨mem, same⟩ := ih found
      exact ⟨mem_append_left _ mem, same⟩

/-- The table has a signal with a process. -/
def Process.HasPeer (p : Process D) (key name : String) : Prop :=
  ∃ names, p.peers.get? key = some names ∧ name ∈ names

theorem hasPeer_tableWith {signals : Process D → List String} {peers : Dict String (List String)} :
    (p.withPeers (tableWith signals peers ps)).HasPeer key name ↔
      (∃ q, (byName ps).get? key = some q ∧ name ∈ signals q) ∨
        (byName ps).get? key = none ∧ (p.withPeers peers).HasPeer key name := by
  show (∃ names, (tableWith signals peers ps).get? key = some names ∧ _) ↔ _
  rw [get?_tableWith]
  cases (byName ps).get? key with
  | none =>
    simp only [reduceCtorEq, false_and, exists_false, true_and, false_or]
    rfl
  | some q =>
    simp only [some.injEq, reduceCtorEq, false_and, or_false, exists_eq_left']
    constructor
    · rintro ⟨names, found, mem⟩
      split at found
      · cases found
      · cases found
        exact mem
    · intro mem
      have some : ¬ (signals q).isEmpty := fun none => by
        rw [List.isEmpty_iff.mp none] at mem
        cases mem
      exact ⟨signals q, if_neg some, mem⟩

/-- Names stand for processes that look alike if the processes of two lists look alike. -/
theorem map_face_byName (same : ps.map Process.face = qs.map Process.face) (key : String) :
    ((byName ps).get? key).map Process.face = ((byName qs).get? key).map Process.face := by
  induction ps using List.reverseRecOn generalizing qs with
  | nil =>
    rw [map_eq_nil_iff.mp same.symm]
  | append_singleton ps p ih =>
    obtain rfl | ⟨qs, q, rfl⟩ := eq_nil_or_concat' qs
    · simp at same
    · rw [map_append, map_append, map_singleton, map_singleton] at same
      obtain ⟨front, last⟩ := append_inj' same rfl
      have last := singleton_inj.mp last
      rw [byName_append, byName_append, Dict.get?_set, Dict.get?_set, show p.str = q.str from congrArg Prod.fst last]
      split
      · exact congrArg some last
      · exact ih front

variable [Declared D]

theorem establishWith_eq (p : Process D) (ps : List (Process D)) : establishWith p ps =
    (p.withPeers (tableWith p.signals p.peers ps),
      ps.map fun q => q.withPeers (updatePeers q.peers p.str (p.signals q))) := by
  induction ps generalizing p with
  | nil => rfl
  | cons q rest ih =>
    rw [establishWith]
    simp only [Process.establishPeers, ih, Process.signals_withPeers_left]
    rfl

theorem establishModels_eq (models others : List (Process D)) : establishModels models others =
    (models.map fun p => p.withPeers (tableWith p.signals p.peers others),
      others.map fun q => q.withPeers (tableWith (fun p => p.signals q) q.peers models)) := by
  induction models generalizing others with
  | nil =>
    rw [establishModels, map_nil]
    congr 1
    exact (map_id'' (fun _ => rfl) others).symm
  | cons p rest ih =>
    rw [establishModels]
    simp only [establishWith_eq, ih, List.map_map, tableWith_map]
    congr 1
    · rw [map_cons]
      congr 1
      refine map_congr_left fun p _ => ?_
      simp only [Process.signals_withPeers_right]
      rfl
    · refine map_congr_left fun q _ => ?_
      simp only [Function.comp_def, Process.signals_withPeers_right]
      rfl

/-- The processes of a list between others, with the tables of all peers. -/
def withTables (before : List (Process D)) : List (Process D) → List (Process D) → List (Process D)
  | [], _ => []
  | p :: rest, behind =>
    p.withPeers (tableWith p.signals (tableWith (fun q => q.signals p) p.peers before)
      (rest ++ behind)) :: withTables (before ++ [p]) rest behind

theorem withTables_map (q : Process D) (before ps : List (Process D)) :
    withTables (before.map fun p => p.withPeers (updatePeers p.peers q.str (q.signals p)))
      (ps.map fun p => p.withPeers (updatePeers p.peers q.str (q.signals p))) [] =
      withTables (q :: before) ps [] := by
  induction ps generalizing before with
  | nil => rfl
  | cons p rest ih =>
    rw [map_cons, withTables, withTables, cons_append, ← ih (before ++ [p]), map_append, append_nil, append_nil]
    simp only [tableWith_map, Process.signals_withPeers_right, Process.signals_withPeers_left]
    rfl

theorem establishAll_eq (ps : List (Process D)) : establishAll ps.length ps = withTables [] ps [] := by
  generalize length : ps.length = n
  induction n generalizing ps with
  | zero =>
    rw [length_eq_zero_iff.mp length]
    rfl
  | succ n ih =>
    cases ps with
    | nil => cases length
    | cons p rest =>
      simp only [establishAll, establishWith_eq]
      rw [ih _ (by simpa using length), withTables, nil_append, ← withTables_map p [] rest, append_nil]
      rfl

theorem withTables_append (before ps qs behind : List (Process D)) : withTables before (ps ++ qs) behind =
      withTables before ps (qs ++ behind) ++ withTables (before ++ ps) qs behind := by
  induction ps generalizing before with
  | nil => rw [append_nil]; rfl
  | cons p rest ih =>
    rw [cons_append, withTables, withTables, ih, cons_append, append_assoc, append_assoc, singleton_append]

/-- Only the tables differ. -/
theorem withTables_cores (before ps behind : List (Process D)) (t : Dict String (List String)) :
    (withTables before ps behind).map (·.withPeers t) = ps.map (·.withPeers t) := by
  induction ps generalizing before with
  | nil => rfl
  | cons p rest ih =>
    rw [withTables, map_cons, map_cons, ih]
    rfl

theorem mem_withTables {before behind : List (Process D)} {r : Process D} (mem : r ∈ withTables before ps behind) :
    ∃ front p back, ps = front ++ p :: back ∧
      r = p.withPeers (tableWith p.signals (tableWith (fun q => q.signals p) p.peers (before ++ front))
        (back ++ behind)) := by
  induction ps generalizing before with
  | nil => cases mem
  | cons p rest ih =>
    obtain rfl | mem := mem_cons.mp mem
    · refine ⟨[], p, rest, rfl, ?_⟩
      rw [append_nil]
    · obtain ⟨front, q, back, rfl, same⟩ := ih mem
      refine ⟨p :: front, q, back, rfl, ?_⟩
      rwa [append_assoc] at same

/-- The table of a process lists its signals with the processes that its names stand for, if no process
before it has its name and it knew only peers among the others. -/
theorem hasPeer_withTables {front back : List (Process D)}
    (connectable : (front ++ p :: back).Pairwise fun p q => (p.signals? q).isSome) (fresh : ∀ q ∈ front, q.str ≠ p.str)
    (known : key ∉ front.map Process.str → key ∉ back.map Process.str → p.peers.get? key = none) :
    (p.withPeers (tableWith p.signals (tableWith (fun q => q.signals p) p.peers front) back)).HasPeer
      key name ↔ ∃ q, (byName (front ++ p :: back)).get? key = some q ∧ p.Peered q name := by
  rw [pairwise_append, pairwise_cons] at connectable
  obtain ⟨-, ⟨behind, -⟩, across⟩ := connectable
  rw [hasPeer_tableWith, hasPeer_tableWith, append_cons, get?_byName_append]
  cases back' : (byName back).get? key with
  | some q =>
    have peers : name ∈ p.signals q ↔ p.Peered q name :=
      Process.mem_signals (behind q (mem_of_byName back').1)
    simp [peers]
  | none =>
    -- a peer that the process knew is before it or behind it
    have unknown (absent : (byName front).get? key = none) : ¬ (p.withPeers p.peers).HasPeer key name := by
      rintro ⟨names, found, _⟩
      rw [show (p.withPeers p.peers).peers = p.peers from rfl,
        known (byName_eq_none.mp absent) (byName_eq_none.mp back')] at found
      cases found
    rw [byName_append, Dict.get?_set]
    by_cases same : key = p.str
    · have absent : (byName front).get? key = none := by
        by_contra present
        obtain ⟨q, found⟩ := ne_none_iff_exists'.mp present
        obtain ⟨mem, named⟩ := mem_of_byName found
        exact fresh q mem (named.trans same)
      simp [same ▸ absent, same ▸ unknown absent, same, Process.not_peered_self]
    · rw [if_neg same]
      cases front' : (byName front).get? key with
      | some q =>
        have peers : name ∈ q.signals p ↔ q.Peered p name :=
          Process.mem_signals (across q (mem_of_byName front').1 p mem_cons_self)
        have both : q.Peered p name ↔ p.Peered q name := ⟨.symm, .symm⟩
        simp [peers, both]
      | none => simp [unknown front']

/-- Who the peers of a process are does not depend on the tables of the others. -/
theorem exists_peered_congr (same : ps.map Process.face = qs.map Process.face) {p' : Process D}
    (alike : p.face = p'.face) : (∃ q, (byName ps).get? key = some q ∧ p.Peered q name) ↔
      ∃ q, (byName qs).get? key = some q ∧ p'.Peered q name := by
  have there {ps qs : List (Process D)} {p p' : Process D} (same : ps.map Process.face = qs.map Process.face)
      (alike : p.face = p'.face) : (∃ q, (byName ps).get? key = some q ∧ p.Peered q name) →
        ∃ q, (byName qs).get? key = some q ∧ p'.Peered q name := by
    rintro ⟨q, found, peered⟩
    have faces := map_face_byName same key
    rw [found, map_some, eq_comm, map_eq_some_iff] at faces
    obtain ⟨q', found', its⟩ := faces
    exact ⟨q', found', (Process.peered_congr alike its.symm).mp peered⟩
  exact ⟨there same alike, there same.symm alike.symm⟩

/-- Whether accesses of parameters are errors is seen from outside. -/
theorem connectable_congr (same : ps.map Process.face = qs.map Process.face) :
    (ps.Pairwise fun p q => (p.signals? q).isSome) ↔ qs.Pairwise fun p q => (p.signals? q).isSome := by
  have seen : ∀ ps : List (Process D), (ps.Pairwise fun p q => (p.signals? q).isSome) ↔
      (ps.map Process.face).Pairwise fun f g => ∀ p q : Process D, p.face = f → q.face = g → (p.signals? q).isSome := by
    intro ps
    rw [pairwise_map]
    refine Pairwise.iff fun {p q} => ⟨fun some p' q' mine its => ?_, fun all => all p q rfl rfl⟩
    rwa [Process.signals?_congr mine its]
  rw [seen, same, ← seen]

end Tables

/-! ## Collections -/

/-- `ProcessCollection`. The function models and the environment processes are kept in dictionaries
sorted by their keys; a function model and an environment process differ in their categories. -/
structure ProcessCollection (D : Type) where
  name : String
  models : List (Process D)
  environment : List (Process D)
  entry : Option (Process D)
  attributes : Dict String String
  models_sorted : (models.map Process.str).Pairwise (· < ·)
  environment_sorted : (environment.map Process.str).Pairwise (· < ·)
  disjoint : ∀ model ∈ models, ∀ p ∈ environment, model.str ≠ p.str
  deriving DecidableEq

theorem sorted_nil {D : Type} : (([] : List (Process D)).map Process.str).Pairwise (· < ·) := .nil

namespace ProcessCollection

variable {D : Type} (c : ProcessCollection D)

/-- The processes that are not models. -/
def others : List (Process D) := c.environment ++ c.entry.toList

/-- `processes` -/
def processes : List (Process D) := c.models ++ c.others

/-- `process_map` -/
def processMap : Dict String (Process D) := byName c.processes

/-- What requirements see of the model. -/
def surroundings : Surroundings :=
  ⟨.ofList (c.processes.map fun p => (p.str, p.actions.keys)), c.attributes⟩

theorem surroundings_get? (key : String) :
    c.surroundings.actions.get? key = (c.processMap.get? key).map fun p => p.actions.keys := by
  show (Dict.ofList _).get? key = _
  rw [processMap]
  induction c.processes using List.reverseRecOn with
  | nil => rfl
  | append_singleton ps p ih =>
    rw [map_append, map_singleton, Dict.ofList_append, byName_append, Dict.get?_set, Dict.get?_set]
    split
    · rfl
    · exact ih

theorem strs_cores (ps : List (Process D)) : ps.map Process.str = (ps.map (·.withPeers .empty)).map Process.str := by
  rw [List.map_map]
  rfl

variable [Declared D] (c : ProcessCollection D)

/-- The processes with their peers. -/
def connected : List (Process D) :=
  let (models, others) := establishModels (c.models.map (·.withPeers .empty))
    (c.others.map (·.withPeers .empty))
  establishAll (models ++ others).length (models ++ others)

/-- Only the tables differ. -/
theorem connected_cores (t : Dict String (List String)) :
    c.connected.map (·.withPeers t) = c.processes.map (·.withPeers t) := by
  simp only [connected, establishAll_eq, withTables_cores, establishModels_eq, map_append, List.map_map, processes]
  rfl

theorem connected_strs : c.connected.map Process.str = c.processes.map Process.str := by
  rw [strs_cores, connected_cores, ← strs_cores]

theorem connected_models : (c.connected.take c.models.length).map Process.str = c.models.map Process.str := by
  rw [map_take, connected_strs, ← map_take, processes, take_left]

theorem connected_environment :
    ((c.connected.drop c.models.length).take c.environment.length).map Process.str = c.environment.map Process.str := by
  rw [map_take, map_drop, connected_strs, ← map_drop, ← map_take, processes, drop_left, others, take_left]

/-- No access of a parameter is an error. -/
def Connectable : Prop :=
  c.processes.Pairwise fun p q => (p.signals? q).isSome

instance : Decidable c.Connectable :=
  inferInstanceAs (Decidable (List.Pairwise _ _))

/-- `establish_peers` -/
def establishPeers : Option (ProcessCollection D) :=
  if c.Connectable then
    some
      { name := c.name
        models := c.connected.take c.models.length
        environment := (c.connected.drop c.models.length).take c.environment.length
        entry := (c.connected.drop (c.models.length + c.environment.length)).head?
        attributes := c.attributes
        models_sorted := c.connected_models ▸ c.models_sorted
        environment_sorted := c.connected_environment ▸ c.environment_sorted
        disjoint := by
          intro model first p second
          have models := List.mem_map_of_mem (f := Process.str) first
          have environment := List.mem_map_of_mem (f := Process.str) second
          rw [connected_models] at models
          rw [connected_environment] at environment
          obtain ⟨model', mem, same⟩ := List.mem_map.mp models
          obtain ⟨p', mem', same'⟩ := List.mem_map.mp environment
          rw [← same, ← same']
          exact c.disjoint model' mem p' mem' }
  else none

/-- A model with its peers among the other processes. -/
def withOthers (p : Process D) : Process D :=
  p.withPeers (tableWith p.signals .empty c.others)

/-- A process with its peers among the models. -/
def withModels (p : Process D) : Process D :=
  p.withPeers (tableWith (fun model => model.signals p) .empty c.models)

/-- The processes when the peers of the models are established. -/
def staged : List (Process D) :=
  c.models.map c.withOthers ++ c.others.map c.withModels

theorem connected_eq : c.connected = withTables [] c.staged [] := by
  simp only [connected, establishAll_eq, establishModels_eq, List.map_map, Function.comp_def,
    tableWith_map, Process.signals_withPeers_left, Process.signals_withPeers_right]
  rfl

theorem staged_faces : c.staged.map Process.face = c.processes.map Process.face := by
  rw [staged, map_append, List.map_map, List.map_map, processes, map_append]
  rfl

theorem staged_strs : c.staged.map Process.str = c.processes.map Process.str := by
  rw [staged, map_append, List.map_map, List.map_map, processes, map_append]
  rfl

/-- The environment processes with their peers. -/
theorem connected_environment_eq : (c.connected.drop c.models.length).take c.environment.length =
      withTables (c.models.map c.withOthers) (c.environment.map c.withModels)
        (c.entry.toList.map c.withModels) := by
  have length : ∀ before ps behind : List (Process D), (withTables before ps behind).length = ps.length := by
    intro before ps behind
    simpa using congrArg List.length (withTables_cores before ps behind .empty)
  rw [connected_eq, staged, others, map_append, withTables_append, withTables_append,
    drop_left' (by rw [length, length_map]), append_nil,
    take_left' (by rw [length, length_map]), nil_append]

/-- What `establish_peers` does: only the tables of peers change. -/
structure Established (c m : ProcessCollection D) : Prop where
  connectable : c.Connectable
  models : m.models.map (·.withPeers .empty) = c.models.map (·.withPeers .empty)
  environment : m.environment = withTables (c.models.map c.withOthers)
    (c.environment.map c.withModels) (c.entry.toList.map c.withModels)
  entry : m.entry.map (·.withPeers .empty) = c.entry.map (·.withPeers .empty)
  attributes : m.attributes = c.attributes

variable {c m : ProcessCollection D} {key : String} {names : List String} {p : Process D} {name : String}

theorem established (done : c.establishPeers = some m) : c.Established m := by
  unfold establishPeers at done
  split at done
  next connectable =>
    cases done
    refine ⟨connectable, ?_, c.connected_environment_eq, ?_, rfl⟩
    · rw [map_take, connected_cores, ← map_take, processes, take_left]
    · rw [← head?_map, map_drop, connected_cores, ← map_drop, ← drop_drop, processes,
        drop_left, others, drop_left, head?_map, head?_toList]
  next => cases done

namespace Established

variable {c m : ProcessCollection D}

theorem environment_cores (done : c.Established m) :
    m.environment.map (·.withPeers .empty) = c.environment.map (·.withPeers .empty) := by
  rw [done.environment, withTables_cores, List.map_map]
  rfl

theorem cores (done : c.Established m) :
    m.processes.map (·.withPeers .empty) = c.processes.map (·.withPeers .empty) := by
  have entry : m.entry.toList.map (·.withPeers .empty) = c.entry.toList.map (·.withPeers .empty) := by
    rw [← toList_map, done.entry, toList_map]
  simp [processes, others, done.models, done.environment_cores, entry]

end Established

omit [Declared D] in
/-- The entries of a table are the peers among the processes and what was there before. -/
theorem get?_tableWith_cases {signals : Process D → List String} {peers : Dict String (List String)}
    {ps : List (Process D)} (found : (tableWith signals peers ps).get? key = some names) :
    (key ∈ ps.map Process.str ∧ names ≠ []) ∨ peers.get? key = some names := by
  rw [get?_tableWith] at found
  split at found
  next => exact .inr found
  next q there =>
    obtain ⟨mem, same⟩ := mem_of_byName there
    split at found
    next => cases found
    next some =>
      cases found
      exact .inl ⟨List.mem_map.mpr ⟨q, mem, same⟩, fun none => some (List.isEmpty_iff.mpr none)⟩

/-- At first, models know other processes and these know models. -/
theorem staged_peers {front back : List (Process D)} {base : Process D} (split : c.staged = front ++ base :: back)
    (found : base.peers.get? key = some names) : names ≠ [] ∧
      (base.str ∈ c.models.map Process.str ∧ key ∈ c.others.map Process.str ∨
        base.str ∈ c.others.map Process.str ∧ key ∈ c.models.map Process.str) := by
  have mem : base ∈ c.staged := by
    rw [split]
    exact mem_append_right _ mem_cons_self
  obtain mem | mem := mem_append.mp mem
  · obtain ⟨model, here, rfl⟩ := List.mem_map.mp mem
    obtain ⟨there, some⟩ := (get?_tableWith_cases found).resolve_right nofun
    exact ⟨some, .inl ⟨List.mem_map.mpr ⟨model, here, rfl⟩, there⟩⟩
  · obtain ⟨other, here, rfl⟩ := List.mem_map.mp mem
    obtain ⟨there, some⟩ := (get?_tableWith_cases found).resolve_right nofun
    exact ⟨some, .inr ⟨List.mem_map.mpr ⟨other, here, rfl⟩, there⟩⟩

/-- A process has the signals in which it is peered with the process that a name stands for, if no process
before it has its name and it is not among its own peers at first. -/
theorem hasPeer_staged (connectable : c.Connectable) {front back : List (Process D)} {base : Process D}
    (split : c.staged = front ++ base :: back)
    (is : p = base.withPeers (tableWith base.signals (tableWith (fun q => q.signals base) base.peers front) back))
    (fresh : ∀ q ∈ front, q.str ≠ base.str) (own : base.peers.get? base.str = none) :
    p.HasPeer key name ↔ ∃ q, c.processMap.get? key = some q ∧ p.Peered q name := by
  rw [is, hasPeer_withTables ?_ fresh ?_, ← split, processMap]
  · exact exists_peered_congr c.staged_faces (Process.face_withPeers _).symm
  · rw [← split]
    exact (connectable_congr c.staged_faces).mpr connectable
  · intro before behind
    rw [eq_none_iff_forall_ne_some]
    intro names found
    have there : key ∈ c.staged.map Process.str := by
      rw [staged_strs, processes, map_append]
      obtain ⟨-, there | there⟩ := staged_peers split found
      · exact mem_append_right _ there.2
      · exact mem_append_left _ there.2
    rw [split, map_append, map_cons] at there
    obtain there | there := mem_append.mp there
    · exact before there
    · obtain rfl | there := mem_cons.mp there
      · rw [own] at found
        cases found
      · exact behind there

section Established

variable (done : c.establishPeers = some m)

include done

/-- What a table of peers says: an environment process has the signals in which it is peered with the
process that a name stands for. -/
theorem hasPeer_iff (mem : p ∈ m.environment) :
    p.HasPeer key name ↔ ∃ q, c.processMap.get? key = some q ∧ p.Peered q name := by
  have done := established done
  rw [done.environment] at mem
  obtain ⟨front, p, back, split, rfl⟩ := mem_withTables mem
  have whole : c.staged = (c.models.map c.withOthers ++ front) ++ p :: (back ++ c.entry.toList.map c.withModels) := by
    rw [staged, others, map_append, split]
    simp
  have sorted : ((front ++ p :: back).map Process.str).Pairwise (· < ·) := by
    rw [← split, List.map_map]
    exact c.environment_sorted
  obtain ⟨e, here, rfl⟩ : ∃ e ∈ c.environment, c.withModels e = p := by
    refine List.mem_map.mp ?_
    rw [split]
    simp
  refine hasPeer_staged done.connectable whole rfl (fun q mem => ?_) ?_
  · obtain mem | mem := mem_append.mp mem
    · obtain ⟨model, known, rfl⟩ := List.mem_map.mp mem
      exact c.disjoint model known e here
    · rw [map_append, pairwise_append] at sorted
      exact (sorted.2.2 q.str (List.mem_map_of_mem mem) _ (by simp)).ne
  · rw [eq_none_iff_forall_ne_some]
    intro names found
    obtain ⟨mem, -⟩ := (get?_tableWith_cases found).resolve_right nofun
    obtain ⟨model, known, same⟩ := List.mem_map.mp mem
    exact c.disjoint model known e here same

theorem processes_eq_connected : m.processes = c.connected := by
  unfold establishPeers at done
  obtain ⟨-, done⟩ := ite_none_right_eq_some.mp done
  cases done
  have length := congrArg List.length c.connected_strs
  simp only [length_map, processes, others, length_append] at length
  have last : ((c.connected.drop (c.models.length + c.environment.length)).head?).toList =
      c.connected.drop (c.models.length + c.environment.length) := by
    have few : (c.connected.drop (c.models.length + c.environment.length)).length ≤ 1 := by
      have entry : c.entry.toList.length ≤ 1 := by cases c.entry <;> simp
      rw [length_drop]
      omega
    match c.connected.drop (c.models.length + c.environment.length), few with
    | [], _ => rfl
    | [_], _ => rfl
  rw [processes, others, last, ← drop_drop, take_append_drop, take_append_drop]

/-- Peers are processes of the collection, and there are signals with each. -/
theorem peers_spec (mem : p ∈ m.processes) (found : p.peers.get? key = some names) :
    key ∈ c.processes.map Process.str ∧ names ≠ [] := by
  rw [processes_eq_connected done, connected_eq] at mem
  obtain ⟨front, base, back, split, rfl⟩ := mem_withTables mem
  have part : ∀ q ∈ front ++ base :: back, q.str ∈ c.processes.map Process.str := by
    intro q mem
    rw [← c.staged_strs, split]
    exact List.mem_map_of_mem mem
  obtain ⟨later, some⟩ | found := get?_tableWith_cases found
  · obtain ⟨q, mem, rfl⟩ := List.mem_map.mp later
    rw [append_nil] at mem
    exact ⟨part q (mem_append_right _ (mem_cons_of_mem _ mem)), some⟩
  · obtain ⟨earlier, some⟩ | found := get?_tableWith_cases found
    · obtain ⟨q, mem, rfl⟩ := List.mem_map.mp earlier
      exact ⟨part q (mem_append_left _ mem), some⟩
    · rw [processes, map_append]
      obtain ⟨some, there | there⟩ := staged_peers split found
      · exact ⟨mem_append_right _ there.2, some⟩
      · exact ⟨mem_append_left _ there.2, some⟩

/-- Peers are processes of the collection. -/
theorem mem_strs_of_peers (mem : p ∈ m.processes)
    (found : p.peers.get? key = some names) : key ∈ c.processes.map Process.str :=
  (peers_spec done mem found).1

/-- If all names differ, every process has the signals in which it is peered with others. -/
theorem hasPeer_iff_of_nodup (names : (c.processes.map Process.str).Nodup)
    (mem : p ∈ m.processes) : p.HasPeer key name ↔ ∃ q, c.processMap.get? key = some q ∧ p.Peered q name := by
  rw [processes_eq_connected done, connected_eq] at mem
  obtain ⟨front, base, back, split, is⟩ := mem_withTables mem
  rw [nil_append, append_nil] at is
  refine hasPeer_staged (established done).connectable split is (fun q mem same => ?_) ?_
  · rw [← c.staged_strs, split, map_append, nodup_append] at names
    exact names.2.2 q.str (List.mem_map_of_mem mem) base.str (by simp) same
  · rw [eq_none_iff_forall_ne_some]
    intro signals found
    rw [processes, map_append, nodup_append] at names
    obtain ⟨-, ⟨model, other⟩ | ⟨other, model⟩⟩ := staged_peers split found
    · exact names.2.2 _ model _ other rfl
    · exact names.2.2 _ model _ other rfl

/-- A process is found by its name, up to its peers. -/
theorem processMap_face (names : (c.processes.map Process.str).Nodup) {q : Process D} (mem : q ∈ m.processes) :
    ∃ q', c.processMap.get? q.str = some q' ∧ q'.face = q.face := by
  have faces : m.processes.map Process.face = c.processes.map Process.face := by
    rw [processes_eq_connected done, connected_eq, ← c.staged_faces]
    have cores := congrArg (List.map Process.face) (withTables_cores [] c.staged [] .empty)
    simpa only [List.map_map, Function.comp_def, Process.face_withPeers] using cores
  have face := List.mem_map_of_mem (f := Process.face) mem
  rw [faces] at face
  obtain ⟨q', mem', same⟩ := List.mem_map.mp face
  refine ⟨q', ?_, same⟩
  have str : q'.str = q.str := congrArg Prod.fst same
  rw [processMap, byName, Dict.get?_ofList (by rwa [List.map_map]), ← str]
  exact List.mem_map.mpr ⟨q', mem', rfl⟩

end Established

/-- Peers are symmetric and exact: after the peers of a collection are established, two of its processes
list each other with the signals in which they are peered, and nothing else is listed. -/
theorem establishPeers_exact {c m : ProcessCollection D} (done : c.establishPeers = some m)
    (names : (c.processes.map Process.str).Nodup) :
    (∀ p ∈ m.processes, ∀ q ∈ m.processes, ((p.peers.get? q.str).isSome ↔ (q.peers.get? p.str).isSome) ∧
      (∀ name, p.HasPeer q.str name ↔ q.HasPeer p.str name) ∧
      ∀ name, p.HasPeer q.str name ↔ p.Peered q name) ∧
    (∀ p ∈ m.processes, p.peers.get? p.str = none) ∧
    ∀ p ∈ m.processes, ∀ key ∈ p.peers.keys, key ∈ m.processes.map Process.str := by
  have exact' (p : Process D) (mem : p ∈ m.processes) (q : Process D) (mem' : q ∈ m.processes)
      (name : String) : p.HasPeer q.str name ↔ p.Peered q name := by
    obtain ⟨q', found, face⟩ := processMap_face done names mem'
    rw [hasPeer_iff_of_nodup done names mem, found]
    simp [Process.peered_congr rfl face]
  have symm (p : Process D) (mem : p ∈ m.processes) (q : Process D) (mem' : q ∈ m.processes)
      (name : String) : p.HasPeer q.str name ↔ q.HasPeer p.str name := by
    rw [exact' p mem q mem', exact' q mem' p mem]
    exact ⟨.symm, .symm⟩
  have listed (p : Process D) (mem : p ∈ m.processes) (key : String) :
      (p.peers.get? key).isSome ↔ ∃ name, p.HasPeer key name := by
    rw [isSome_iff_exists]
    refine ⟨fun ⟨names, found⟩ => ?_, fun ⟨name, names, found, _⟩ => ⟨names, found⟩⟩
    obtain ⟨name, here⟩ := exists_mem_of_ne_nil names (peers_spec done mem found).2
    exact ⟨name, names, found, here⟩
  refine ⟨fun p mem q mem' => ⟨?_, symm p mem q mem', exact' p mem q mem'⟩, fun p mem => ?_, fun p mem key there => ?_⟩
  · rw [listed p mem, listed q mem']
    exact exists_congr (symm p mem q mem')
  · rw [← not_isSome_iff_eq_none, listed p mem]
    rintro ⟨name, has⟩
    exact Process.not_peered_self ((exact' p mem p mem name).mp has)
  · obtain ⟨signals, found⟩ := Dict.mem_keys_iff.mp there
    rw [processes_eq_connected done, connected_strs]
    exact mem_strs_of_peers done mem found

/-- A process with the action `start` that passes one label. -/
def signalling (category name : String) (kind : Kind) : Process String where
  category := some category
  name := name
  comment := ""
  headers := []
  labels := ⟨[("device", ⟨some "struct device *device", none⟩)], by simp⟩
  initial := .concatenation [.behaviour ⟨0, "start", kind, none⟩]
  actions := ⟨[("start", { Action.new kind with parameters := ["%device%"] })], by simp⟩
  declarations := .empty
  definitions := .empty
  peers := .empty

/-- Two function models that exchange a signal and an entry process that still lists a process that was
removed. -/
def exchange : ProcessCollection String where
  name := "base"
  models := [signalling "functions models" "lock" (.dispatch false),
    signalling "functions models" "unlock" (.receive false)]
  environment := []
  entry := some { signalling "entry" "main" .block with peers := ⟨[("usb/driver", ["start"])], by simp⟩ }
  attributes := .empty
  models_sorted := by decide +kernel
  environment_sorted := sorted_nil
  disjoint := fun _ _ _ mem => absurd mem not_mem_nil

theorem exchange_exact : ∃ m, exchange.establishPeers = some m ∧ m.processes.map (·.peers.items) =
      [[("functions models/unlock", ["start"])], [("functions models/lock", ["start"])], []] ∧
    ∀ p ∈ m.processes, p.peers.get? p.str = none := by
  have tables : (exchange.establishPeers.map fun m => m.processes.map (·.peers.items)) = some
      [[("functions models/unlock", ["start"])], [("functions models/lock", ["start"])], []] := by
    decide +kernel
  obtain ⟨m, done, tables⟩ := map_eq_some_iff.mp tables
  exact ⟨m, done, tables, (establishPeers_exact done (by decide +kernel)).2.1⟩

end ProcessCollection

end Klever.Emg.Collection
