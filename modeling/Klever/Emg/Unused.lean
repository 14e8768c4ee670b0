import Klever.Emg.Collection
import Klever.Lib.Prune

/-!
# Processes that nobody can start

`remove_unused_processes` goes through the environment processes again and again and removes those that
no process of the model can start by a signal or whose requirements are not met. It removes entries of
the dictionary that it iterates over, so entries can be left out in a pass, and it finds the peers of
the remaining processes only between two passes.

Which keys a pass comes to is a parameter here. A pass visits keys of processes that are there, and it
visits all of them if it does not remove any.
-/

namespace Klever.Emg.Collection

open Klever.Lib List Option Klever.Emg.Collection.Process

/-- Adding the texts of one process to those of another one. -/
def mergeTexts {α : Type} (mine its : Dict String (Dict String α)) : Dict String (Dict String α) :=
  its.items.foldl (fun texts file => texts.set file.1
    (file.2.items.foldl (fun texts item => texts.set item.1 item.2) ((texts.get? file.1).getD .empty)))
    mine

namespace ProcessCollection

variable {D : Type} (c : ProcessCollection D)

/-- `copy_declarations_to_init`, an error if there is something to copy and no entry process. -/
def copyDeclarationsToInit (p : Process D) :
    Option (ProcessCollection D) :=
  match c.entry with
  | some entry =>
    some { c with
      entry := some { entry with
        declarations := mergeTexts entry.declarations p.declarations
        definitions := mergeTexts entry.definitions p.definitions } }
  | none =>
    if p.declarations.items.isEmpty && p.definitions.items.isEmpty then some c else none

/-- The names of the environment processes. -/
def names : Finset String := (c.environment.map str).toFinset

/-- Only the environment processes that meet a condition. -/
def filterEnvironment (keep : Process D → Bool) : ProcessCollection D :=
  { c with
    environment := c.environment.filter keep
    environment_sorted := c.environment_sorted.sublist (filter_sublist.map _)
    disjoint := fun model mem p mem' => c.disjoint model mem p (mem_of_mem_filter mem') }

/-- `extend_model_name` -/
def extendModelName (name value : String) : ProcessCollection D :=
  { c with attributes := c.attributes.set name value }

/-- `remove_process` -/
def removeProcess (name : String) : ProcessCollection D :=
  (if name ∈ c.names then c.filterEnvironment (·.str ≠ name)
    else { c with entry := none }).extendModelName name removedAttribute

variable [Declared D]

/-- Can nobody start the process, or does the model not meet its requirements? -/
def unused (c : ProcessCollection D) (p : Process D) : Bool :=
  !p.registrations.any (· ∈ p.allPeers) || !p.compatibleWithModel c.surroundings none

/-- What is done for one key of the dictionary, and whether the process is removed. -/
def visit (c : ProcessCollection D) (key : String) : Option (ProcessCollection D × Bool) :=
  match c.environment.find? (·.str = key) with
  | none => none
  | some p =>
    if c.unused p then (c.copyDeclarationsToInit p).map fun c => (c.removeProcess key, true)
    else some (c, false)

/-- A pass over some keys, with the names of the processes that it removes. -/
def pass (c : ProcessCollection D) : List String → Option (ProcessCollection D × List String)
  | [] => some (c, [])
  | key :: rest => do
    let (c, removed) ← c.visit key
    let (c, deleted) ← c.pass rest
    some (c, if removed then key :: deleted else deleted)

/-- The passes of `remove_unused_processes`, at most as many as the number says. -/
def passes (order : ProcessCollection D → List String) :
    Nat → ProcessCollection D → Option (ProcessCollection D × List String)
  | 0, _ => none
  | n + 1, c => do
    let (c, deleted) ← c.pass (order c)
    if deleted.isEmpty then some (c, [])
    else
      let c ← c.establishPeers
      let (c, more) ← passes order n c
      some (c, deleted ++ more)

/-- `remove_unused_processes`: every pass but the last one removes a process. -/
def removeUnusedProcesses (order : ProcessCollection D → List String) (c : ProcessCollection D) :
    Option (ProcessCollection D × List String) :=
  passes order (c.environment.length + 1) c

/-- The keys are there when they are visited. -/
def Present (c : ProcessCollection D) : List String → Prop
  | [] => True
  | key :: rest => key ∈ c.names ∧ ∀ d removed, c.visit key = some (d, removed) → d.Present rest

/-- Iterations over the dictionary: keys that are there are visited, and all of them if no process is
removed. -/
structure Iterates (order : ProcessCollection D → List String) : Prop where
  present : ∀ c : ProcessCollection D, c.Present (order c)
  complete : ∀ c d : ProcessCollection D, c.pass (order c) = some (d, []) → ∀ p ∈ c.environment, p.str ∈ order c

/-- The keys that an iteration by positions comes to: after a removal the next entry is left out. -/
def positions : Nat → ProcessCollection D → Nat → List String
  | 0, _, _ => []
  | n + 1, c, i =>
    match c.environment[i]? with
    | none => []
    | some p =>
      p.str ::
        match c.visit p.str with
        | none => []
        | some (c, _) => positions n c (i + 1)

/-- The iteration over a sorted dictionary. -/
def iteration (c : ProcessCollection D) : List String := positions c.environment.length c 0

/-! ## Parts of a collection -/

variable {S : Finset String} {T : Finset String}

section Parts

variable {D : Type} {c : ProcessCollection D}

theorem mem_names {name : String} : name ∈ c.names ↔ ∃ p ∈ c.environment, p.str = name := by
  rw [names, List.mem_toFinset, List.mem_map]

theorem environment_inj {p q : Process D} (mem : p ∈ c.environment) (mem' : q ∈ c.environment)
    (same : p.str = q.str) : p = q := by
  refine inj_on_of_nodup_map ?_ mem mem' same
  exact c.environment_sorted.imp fun lt => lt.ne

theorem card_names (c : ProcessCollection D) : c.names.card = c.environment.length := by
  rw [names, toFinset_card_of_nodup (c.environment_sorted.imp fun lt => lt.ne), length_map]

/-- The process that a name stands for: the entry process, if it has this name, or another one. -/
theorem processMap_get? {key : String} {p : Process D} : c.processMap.get? key = some p ↔
    p.str = key ∧ (p ∈ c.entry.toList ∨ (∀ e ∈ c.entry.toList, e.str ≠ key) ∧ (p ∈ c.models ∨ p ∈ c.environment)) := by
  have nodup : ((c.models ++ c.environment).map str).Nodup := by
    rw [map_append, nodup_append]
    refine ⟨c.models_sorted.imp fun lt => lt.ne, c.environment_sorted.imp fun lt => lt.ne, ?_⟩
    intro name mem other mem'
    obtain ⟨model, known, rfl⟩ := List.mem_map.mp mem
    obtain ⟨p, known', rfl⟩ := List.mem_map.mp mem'
    exact c.disjoint model known p known'
  have others : (byName (c.models ++ c.environment)).get? key = some p ↔
      p.str = key ∧ (p ∈ c.models ∨ p ∈ c.environment) := by
    rw [byName, Dict.get?_ofList (by rwa [List.map_map]), List.mem_map, ← mem_append]
    constructor
    · rintro ⟨q, mem, same⟩
      cases same
      exact ⟨rfl, mem⟩
    · rintro ⟨named, mem⟩
      exact ⟨p, mem, by rw [named]⟩
  rw [processMap, processes, ProcessCollection.others, ← append_assoc, get?_byName_append]
  cases c.entry with
  | none =>
    rw [show (byName (none : Option (Process D)).toList).get? key = none from rfl, none_or]
    simpa using others
  | some e =>
    rw [toList_some, show byName [e] = (byName []).set e.str e from rfl, Dict.get?_set]
    by_cases named : key = e.str
    · rw [if_pos named, some_or, some.injEq]
      constructor
      · intro same
        exact ⟨same ▸ named.symm, .inl (by rw [same]; exact mem_singleton_self p)⟩
      · rintro ⟨_, found⟩
        obtain mem | ⟨differs, -⟩ := found
        · exact (mem_singleton.mp mem).symm
        · exact absurd named.symm (differs e (mem_singleton_self e))
    · rw [if_neg named, show (byName ([] : List (Process D))).get? key = none from rfl, none_or, others]
      constructor
      · rintro ⟨same, found⟩
        refine ⟨same, .inr ⟨fun e' mem => ?_, found⟩⟩
        rw [mem_singleton.mp mem]
        exact fun same => named same.symm
      · rintro ⟨same, found⟩
        obtain mem | ⟨-, found⟩ := found
        · rw [mem_singleton.mp mem] at same
          exact absurd same.symm named
        · exact ⟨same, found⟩

theorem has_iff {name : String} : c.surroundings.has name ↔ (∃ p, c.processMap.get? name = some p) ∨
    ∃ value, c.attributes.get? name = some value ∧ value ≠ removedAttribute := by
  rw [Surroundings.has, Bool.or_eq_true, decide_eq_true_eq, Dict.mem_keys_iff]
  refine or_congr ?_ ?_
  · simp only [surroundings_get?, map_eq_some_iff]
    constructor
    · rintro ⟨_, p, found, _⟩
      exact ⟨p, found⟩
    · rintro ⟨p, found⟩
      exact ⟨_, p, found, rfl⟩
  · show ((c.attributes.get? name).any _) = true ↔ _
    rw [Option.any_eq_true]
    simp

/-- The model that is left if only the environment processes of the given names stay. -/
def restrict (c : ProcessCollection D) (S : Finset String) : ProcessCollection D :=
  { c.filterEnvironment (·.str ∈ S) with
    attributes := (c.environment.filter (·.str ∉ S)).foldl
      (fun attributes p => attributes.set p.str removedAttribute) c.attributes }

theorem restrict_attributes (S : Finset String) (name : String) : (c.restrict S).attributes.get? name =
      if name ∈ c.names ∧ name ∉ S then some removedAttribute else c.attributes.get? name := by
  have fold : ∀ (ps : List (Process D)) (attributes : Dict String String),
      (ps.foldl (fun attributes p => attributes.set p.str removedAttribute) attributes).get? name =
        if name ∈ ps.map str then some removedAttribute else attributes.get? name := by
    intro ps
    induction ps with
    | nil => simp
    | cons p rest ih =>
      intro attributes
      rw [foldl_cons, ih, Dict.get?_set]
      by_cases later : name ∈ rest.map str <;> by_cases here : name = p.str <;>
        simp [later, here]
  have removed : name ∈ (c.environment.filter (·.str ∉ S)).map str ↔ name ∈ c.names ∧ name ∉ S := by
    rw [mem_names, List.mem_map]
    simp only [mem_filter, decide_eq_true_eq]
    constructor
    · rintro ⟨p, ⟨mem, gone⟩, same⟩
      exact ⟨⟨p, mem, same⟩, same ▸ gone⟩
    · rintro ⟨⟨p, mem, same⟩, gone⟩
      exact ⟨p, ⟨mem, same ▸ gone⟩, same⟩
  refine (fold _ _).trans ?_
  simp only [removed]

theorem mem_restrict {p : Process D} : p ∈ (c.restrict S).environment ↔ p ∈ c.environment ∧ p.str ∈ S := by
  show p ∈ List.filter _ _ ↔ _
  rw [mem_filter, decide_eq_true_eq]

/-- A name of a smaller model stands for the same process in a larger one. -/
theorem processMap_restrict (sub : T ⊆ S) {key : String} {p : Process D}
    (found : (c.restrict T).processMap.get? key = some p) :
    (c.restrict S).processMap.get? key = some p := by
  rw [processMap_get?, mem_restrict] at found ⊢
  obtain ⟨named, found⟩ := found
  refine ⟨named, ?_⟩
  obtain entry | ⟨differs, model | ⟨mem, kept⟩⟩ := found
  · exact .inl entry
  · exact .inr ⟨differs, .inl model⟩
  · exact .inr ⟨differs, .inr ⟨mem, sub kept⟩⟩

theorem part_restrict (sub : T ⊆ S) : Requirement.Part (c.restrict T).surroundings (c.restrict S).surroundings where
  actions := by
    intro name actions found
    rw [surroundings_get?, map_eq_some_iff] at found ⊢
    obtain ⟨p, found, same⟩ := found
    exact ⟨p, processMap_restrict sub found, same⟩
  has := by
    intro name has
    rw [has_iff] at has ⊢
    obtain ⟨p, found⟩ | ⟨value, found, differs⟩ := has
    · exact .inl ⟨p, processMap_restrict sub found⟩
    · refine .inr ⟨value, ?_, differs⟩
      rw [restrict_attributes] at found ⊢
      split at found
      · cases found
        exact absurd rfl differs
      next kept =>
        rw [if_neg fun gone => kept ⟨gone.1, fun mem => gone.2 (sub mem)⟩]
        exact found
  others := by
    intro name actions found
    rw [surroundings_get?, map_eq_some_iff] at found
    obtain ⟨p, found, same⟩ := found
    by_cases known : (c.restrict T).processMap.get? name = some p
    · refine .inl ?_
      rw [surroundings_get?, known, map_some, same]
    · refine .inr fun has => ?_
      rw [processMap_get?, mem_restrict] at found
      rw [processMap_get?, mem_restrict] at known
      obtain ⟨named, entry | ⟨differs, model | ⟨mem, -⟩⟩⟩ := found
      · exact known ⟨named, .inl entry⟩
      · exact known ⟨named, .inr ⟨differs, .inl model⟩⟩
      have gone : p.str ∉ T := fun kept => known ⟨named, .inr ⟨differs, .inr ⟨mem, kept⟩⟩⟩
      obtain ⟨q, found⟩ | ⟨value, found, kept⟩ := has_iff.mp has
      · rw [processMap_get?, mem_restrict] at found
        obtain ⟨same, entry | ⟨-, model | ⟨mem', kept⟩⟩⟩ := found
        · exact differs q entry same
        · exact c.disjoint q model p mem (same.trans named.symm)
        · rw [environment_inj mem' mem (same.trans named.symm)] at kept
          exact gone kept
      · rw [restrict_attributes, if_pos ⟨mem_names.mpr ⟨p, mem, named⟩, named ▸ gone⟩] at found
        cases found
        exact kept rfl

end Parts

/-! ## Incoming peers as a requirement -/

section Incoming

variable {D : Type} {p : Process D} {key name : String}

theorem mem_allPeers : name ∈ p.allPeers ↔ ∃ key, p.HasPeer key name := by
  rw [allPeers, mem_flatten]
  constructor
  · intro ⟨names, value, mem⟩
    obtain ⟨key, found⟩ := Dict.mem_values_iff.mp value
    exact ⟨key, names, found, mem⟩
  · intro ⟨key, names, found, mem⟩
    exact ⟨names, Dict.mem_values_iff.mpr ⟨key, found⟩, mem⟩

theorem mem_incomingPeers {names : List String} (mem : (key, names) ∈ p.incomingPeers) :
    ∀ name ∈ names, p.HasPeer key name := by
  obtain ⟨mem, -⟩ := mem_filter.mp mem
  obtain ⟨⟨_, all⟩, item, same⟩ := List.mem_map.mp mem
  cases same
  intro name mem
  exact ⟨all, Dict.mem_items_iff.mp item, of_decide_eq_true (mem_filter.mp mem).2⟩

theorem exists_incomingPeers (registered : name ∈ p.registrations) (peer : p.HasPeer key name) :
    ∃ names, (key, names) ∈ p.incomingPeers := by
  obtain ⟨all, found, mem⟩ := peer
  refine ⟨p.registrations.filter (· ∈ all), mem_filter.mpr ⟨?_, ?_⟩⟩
  · exact List.mem_map.mpr ⟨(key, all), Dict.mem_items_iff.mpr found, rfl⟩
  · rw [decide_eq_true_eq]
    exact ne_nil_of_mem (mem_filter.mpr ⟨registered, decide_eq_true mem⟩)

theorem nodup_incomingPeers : (p.incomingPeers.map Prod.fst).Nodup := by
  refine Nodup.sublist (filter_sublist.map _) ?_
  rw [List.map_map]
  exact p.peers.nodup

/-- The requirement that is made of a list of peers. -/
theorem requirePeer_fold {items : List (String × List String)} (nodup : (items.map Prod.fst).Nodup) :
    (∀ key, (items.foldl requirePeer .none).processes.get? key = if key ∈ items.map Prod.fst then some true else none) ∧
    ∀ key names, (items.foldl requirePeer .none).actions.get? key = some names ↔ (key, names) ∈ items := by
  induction items using List.reverseRecOn with
  | nil => exact ⟨fun _ => rfl, fun _ _ => by simp [Requirements.none, Dict.get?_empty]⟩
  | append_singleton items item ih =>
    obtain ⟨peer, signals⟩ := item
    rw [map_append, nodup_append] at nodup
    obtain ⟨before, -, apart⟩ := nodup
    have new : peer ∉ items.map Prod.fst := fun mem => apart _ mem _ (by simp) rfl
    obtain ⟨processes, actions⟩ := ih before
    rw [foldl_append]
    refine ⟨fun key => ?_, fun key names => ?_⟩
    · show (Dict.set _ _ _).get? key = _
      rw [Dict.get?_set, processes key, map_append, map_singleton]
      by_cases here : key = peer
      · simp [here]
      · rw [if_neg here]
        simp only [mem_append, mem_singleton, here, or_false]
    · show (Dict.set _ _ _).get? key = _ ↔ _
      rw [Dict.get?_set, mem_append, mem_singleton, Prod.mk.injEq]
      by_cases here : key = peer
      · have absent : ∀ names, (peer, names) ∉ items := fun names mem =>
          new (List.mem_map.mpr ⟨_, mem, rfl⟩)
        have unknown : (items.foldl requirePeer .none).actions.get? peer = none := by
          rw [eq_none_iff_forall_ne_some]
          exact fun names found => absent names ((actions peer names).mp found)
        have first : (Requirements.addRequirement (items.foldl requirePeer .none) peer
            true).requiredActions peer ++ signals = signals := by
          show ((items.foldl requirePeer .none).actions.get? peer).getD [] ++ signals = _
          rw [unknown]
          rfl
        rw [if_pos here, here, first, some.injEq]
        simp [absent, eq_comm]
      · rw [if_neg here]
        simp only [here, false_and, or_false]
        exact actions key names

/-- A model meets the requirement of incoming peers if it has one of them. -/
theorem peersAsRequirements_compatible {m : Surroundings} {actions : List String}
    (registered : name ∈ p.registrations) (peer : p.HasPeer key name)
    (found : m.actions.get? key = some actions)
    (known : ∀ name, p.HasPeer key name → name ∈ actions) :
    (Requirement.weak p.peersAsRequirements).compatibleWithModel m none := by
  obtain ⟨processes, asked⟩ := requirePeer_fold (nodup_incomingPeers (p := p))
  obtain ⟨names, mem⟩ := exists_incomingPeers registered peer
  have required : key ∈ p.peersAsRequirements.requiredProcesses := by
    rw [Requirements.mem_requiredProcesses, peersAsRequirements, processes, if_pos (List.mem_map.mpr ⟨_, mem, rfl⟩)]
  have its : p.peersAsRequirements.actions.get? key = some names := (asked key names).mpr mem
  have suits : p.peersAsRequirements.compatible key actions := by
    rw [Requirements.compatible, if_pos ⟨required, Dict.mem_keys_iff.mpr ⟨_, its⟩⟩,
      Requirements.requiredActions, its, List.all_eq_true]
    exact fun name mem' => decide_eq_true (known name (mem_incomingPeers mem name mem'))
  refine Requirement.compatibleWithModel_weak.mpr ⟨⟨key, actions, found, suits⟩, .inr ⟨key, required, ?_⟩⟩
  rw [Surroundings.has, decide_eq_true (Dict.mem_keys_iff.mpr ⟨_, found⟩), Bool.true_or]

end Incoming

/-! ## What supports a process -/

section Support

variable {D : Type} {c d : ProcessCollection D} {p : Process D}

theorem not_unused : ¬ c.unused p ↔ (∃ name ∈ p.registrations, ∃ key, p.HasPeer key name) ∧
    ∀ r ∈ p.requirements, r.compatibleWithModel c.surroundings none := by
  rw [unused, Bool.or_eq_true, not_or, Bool.not_eq_true', Bool.not_eq_false, Bool.not_eq_true',
    Bool.not_eq_false, List.any_eq_true, compatibleWithModel, List.all_eq_true]
  simp [mem_allPeers]

theorem requirement_cases {r : Requirement} (mem : r ∈ p.requirements) :
    r ∈ p.ownRequirements ∨ r = .weak p.peersAsRequirements := by
  obtain mem | mem := mem_append.mp mem
  · exact .inl mem
  · split at mem
    · cases mem
    · exact .inr (mem_singleton.mp mem)

theorem ownRequirements_congr {q : Process D} (alike : p.face = q.face) : p.ownRequirements = q.ownRequirements := by
  rw [ownRequirements, show p.actions = q.actions from congrArg (fun face => face.2.2) alike]
  rfl

/-- Requirements see what is seen of the processes from outside. -/
theorem surroundings_congr (faces : d.processes.map face = c.processes.map face) :
    d.surroundings.actions = c.surroundings.actions := by
  have seen : ∀ ps : List (Process D), ps.map (fun p => (p.str, p.actions.keys)) =
      (ps.map face).map fun face => (face.1, face.2.2.keys) := by
    intro ps
    rw [List.map_map]
    rfl
  show Dict.ofList _ = Dict.ofList _
  rw [seen, faces, ← seen]

theorem face_of_core {q : Process D} (same : p.withPeers .empty = q.withPeers .empty) : p.face = q.face := by
  rw [← face_withPeers .empty, same, face_withPeers]

theorem faces_of_cores {ps qs : List (Process D)} (same : ps.map (·.withPeers .empty) = qs.map (·.withPeers .empty)) :
    ps.map face = qs.map face := by
  have seen : ∀ ps : List (Process D), ps.map face = (ps.map (·.withPeers .empty)).map face := by
    intro ps
    rw [List.map_map]
    rfl
  rw [seen, same, ← seen]

/-- A collection is what is left of another one, but for the tables of peers and for texts that the
entry process was given. -/
structure Trims (c d : ProcessCollection D) : Prop where
  names : d.names ⊆ c.names
  models : d.models.map face = c.models.map face
  environment : d.environment.map (·.withPeers .empty) = (c.restrict d.names).environment.map (·.withPeers .empty)
  entry : d.entry.map face = c.entry.map face
  attributes : ∀ name, d.attributes.get? name = (c.restrict d.names).attributes.get? name

theorem trims_self (c : ProcessCollection D) : c.Trims c where
  names := Finset.Subset.refl _
  models := rfl
  environment := by
    have all : (c.restrict c.names).environment = c.environment := by
      refine filter_eq_self.mpr fun p mem => ?_
      exact decide_eq_true (mem_names.mpr ⟨p, mem, rfl⟩)
    rw [all]
  entry := rfl
  attributes := by
    intro name
    rw [restrict_attributes, if_neg fun gone => gone.2 gone.1]

theorem Trims.faces (trims : c.Trims d) : d.processes.map face = (c.restrict d.names).processes.map face := by
  have entry : d.entry.toList.map face = c.entry.toList.map face := by
    rw [← toList_map, trims.entry, toList_map]
  simp only [processes, others, map_append, faces_of_cores trims.environment, entry, trims.models]
  rfl

theorem Trims.mem (trims : c.Trims d) (mem : p ∈ d.environment) :
    ∃ e ∈ c.environment, e.str ∈ d.names ∧ e.withPeers .empty = p.withPeers .empty := by
  have cleared := List.mem_map_of_mem (f := (·.withPeers .empty)) mem
  rw [trims.environment] at cleared
  obtain ⟨e, mem, same⟩ := List.mem_map.mp cleared
  obtain ⟨known, kept⟩ := mem_restrict.mp mem
  exact ⟨e, known, kept, same⟩

variable [Declared D]

/-- In the model of the given environment processes each of them can be started by a process of the
model, and its requirements are met. -/
def Stable (c : ProcessCollection D) (S : Finset String) : Prop :=
  ∃ m, (c.restrict S).establishPeers = some m ∧ ∀ p ∈ m.environment, ¬ m.unused p

/-- No requirement of an environment process forbids a process. -/
def Permissive (c : ProcessCollection D) : Prop :=
  ∀ p ∈ c.environment, ∀ r ∈ p.requirements, r.requirements.forbiddenProcesses = []

/-- The peers that a process found in the part of the collection of the given names. -/
def PeersIn (c : ProcessCollection D) (S : Finset String) (p : Process D) : Prop :=
  ∀ key name, p.HasPeer key name ↔ ∃ q, (c.restrict S).processMap.get? key = some q ∧ p.Peered q name

/-- A process that belongs to a stable part is not taken for unused, as long as the processes of the
part are there, whatever else was there when its peers were found. -/
theorem used_of_stable (permissive : c.Permissive) (trims : c.Trims d)
    (found : c.PeersIn S p) (mem : p ∈ d.environment) (sub : d.names ⊆ S) (part : T ⊆ d.names)
    (stable : c.Stable T) (inside : p.str ∈ T) : ¬ d.unused p := by
  obtain ⟨m, found', used⟩ := stable
  have done := established found'
  obtain ⟨e, known, -, same⟩ := trims.mem mem
  have mine := face_of_core same
  -- the process in the model of the stable part
  obtain ⟨q, its, alike⟩ : ∃ q ∈ m.environment, q.face = p.face := by
    have here : e ∈ (c.restrict T).environment := by
      refine mem_restrict.mpr ⟨known, ?_⟩
      rw [show e.str = p.str from congrArg Prod.fst mine]
      exact inside
    have cleared := List.mem_map_of_mem (f := (·.withPeers .empty)) here
    rw [← done.environment_cores] at cleared
    obtain ⟨q, its, alike⟩ := List.mem_map.mp cleared
    exact ⟨q, its, (face_of_core alike).trans mine⟩
  obtain ⟨⟨name, registered, key, peer⟩, met⟩ := not_unused.mp (used q its)
  have registered : name ∈ p.registrations := by
    rwa [registrations, show q.actions = p.actions from congrArg (fun face => face.2.2) alike]
      at registered
  -- its peer there is its peer here
  obtain ⟨partner, there, peered⟩ := (hasPeer_iff found' its).mp peer
  have before := processMap_restrict (part.trans sub) there
  have peer : p.HasPeer key name :=
    (found key name).mpr ⟨partner, before, (peered_congr alike rfl).mp peered⟩
  refine not_unused.mpr ⟨⟨name, registered, key, peer⟩, fun r asked => ?_⟩
  obtain own | rfl := requirement_cases asked
  · have met := met r (mem_append_left _ (ownRequirements_congr alike ▸ own))
    have met : r.compatibleWithModel (c.restrict T).surroundings none := by
      refine Requirement.compatible_congr (fun name => ?_) (fun name => ?_) met
      · rw [surroundings_congr (faces_of_cores done.cores)]
      · show m.attributes.get? name = _
        rw [done.attributes]
        rfl
    have allowed := permissive e known r (mem_append_left _ (ownRequirements_congr mine ▸ own))
    refine Requirement.compatible_congr (fun name => ?_) (fun name => ?_)
      (Requirement.compatible_mono (part_restrict part) allowed met)
    · rw [surroundings_congr trims.faces]
    · exact (trims.attributes name).symm
  · have here : d.surroundings.actions.get? key = some partner.actions.keys := by
      rw [surroundings_congr trims.faces, surroundings_get?, processMap_restrict part there]
      rfl
    apply peersAsRequirements_compatible registered peer here
    intro name peer
    obtain ⟨other, also, peered⟩ := (found key name).mp peer
    rw [before] at also
    cases also
    exact peered.mem_keys

end Support

/-! ## Passes -/

section Passes

variable {D : Type} {c d e : ProcessCollection D} {key : String}

theorem copyDeclarationsToInit_cases {p : Process D} (done : d.copyDeclarationsToInit p = some e) :
    e.models = d.models ∧ e.environment = d.environment ∧
      e.entry.map face = d.entry.map face ∧ e.attributes = d.attributes := by
  unfold copyDeclarationsToInit at done
  split at done
  next entry same =>
    cases done
    rw [same]
    exact ⟨rfl, rfl, rfl, rfl⟩
  next =>
    split at done
    · cases done
      exact ⟨rfl, rfl, rfl, rfl⟩
    · cases done

/-- What the removal of an environment process changes. -/
structure Removes (d e : ProcessCollection D) (key : String) : Prop where
  models : e.models = d.models
  environment : e.environment = d.environment.filter (·.str ≠ key)
  entry : e.entry.map face = d.entry.map face
  attributes : e.attributes = d.attributes.set key removedAttribute

/-- A visit removes an unused process, or it changes nothing. -/
theorem visit_cases {removed : Bool} (done : d.visit key = some (e, removed)) : ∃ p ∈ d.environment, p.str = key ∧
      (removed = true ∧ d.unused p ∧ d.Removes e key ∨ removed = false ∧ ¬ d.unused p ∧ e = d) := by
  unfold visit at done
  split at done
  next => cases done
  next p found =>
    have mem := mem_of_find?_eq_some found
    have named : p.str = key := by simpa using find?_some found
    refine ⟨p, mem, named, ?_⟩
    split at done
    next unused =>
      obtain ⟨copied, copying, same⟩ := map_eq_some_iff.mp done
      cases same
      obtain ⟨models, environment, entry, attributes⟩ := copyDeclarationsToInit_cases copying
      have there : key ∈ copied.names := by
        rw [mem_names, environment]
        exact ⟨p, mem, named⟩
      refine .inl ⟨rfl, unused, ?_⟩
      rw [removeProcess, if_pos there]
      exact ⟨models, congrArg _ environment, entry, congrArg (Dict.set · _ _) attributes⟩
    next used =>
      cases done
      exact .inr ⟨rfl, used, rfl⟩

theorem visit_isSome (entry : d.entry.isSome) (there : key ∈ d.names) : (d.visit key).isSome := by
  obtain ⟨p, mem, named⟩ := mem_names.mp there
  unfold visit
  split
  next none => exact absurd (find?_eq_none.mp none p mem) (by simpa using named)
  next p _ =>
    obtain ⟨e, here⟩ := isSome_iff_exists.mp entry
    split
    · simp [copyDeclarationsToInit, here]
    · rfl

namespace Removes

theorem names (removes : d.Removes e key) : e.names = d.names.erase key := by
  ext name
  rw [Finset.mem_erase, mem_names, mem_names, removes.environment]
  simp only [mem_filter, decide_eq_true_eq]
  constructor
  · intro ⟨p, ⟨mem, differs⟩, same⟩
    exact ⟨same ▸ differs, p, mem, same⟩
  · intro ⟨differs, p, mem, same⟩
    exact ⟨p, ⟨mem, same ▸ differs⟩, same⟩

theorem trims (removes : d.Removes e key) (trims : c.Trims d) (there : key ∈ d.names) : c.Trims e where
  names := by
    rw [removes.names]
    exact (Finset.erase_subset _ _).trans trims.names
  models := by rw [removes.models, trims.models]
  entry := by rw [removes.entry, trims.entry]
  environment := by
    have cleared : ∀ ps : List (Process D), (ps.filter (·.str ≠ key)).map (·.withPeers .empty) =
        (ps.map (·.withPeers .empty)).filter (·.str ≠ key) := by
      intro ps
      rw [List.filter_map]
      rfl
    rw [removes.environment, cleared, trims.environment, ← cleared, removes.names]
    congr 1
    show (c.environment.filter _).filter _ = c.environment.filter _
    rw [List.filter_filter]
    congr 1
    funext p
    simp [Finset.mem_erase]
  attributes := by
    intro name
    rw [removes.attributes, Dict.get?_set, trims.attributes, restrict_attributes, restrict_attributes, removes.names]
    by_cases here : name = key
    · subst here
      simp [trims.names there]
    · simp [here]

end Removes

variable [Declared D]

/-- What a pass does: it removes processes that no stable part has. -/
structure Passed (c d e : ProcessCollection D) (deleted : List String) : Prop where
  trims : c.Trims e
  entry : e.entry.isSome
  removal : Removal c.Stable d.names e.names
  length : e.environment.length + deleted.length = d.environment.length
  deleted : deleted.toFinset = d.names \ e.names

theorem pass_spec (permissive : c.Permissive) {keys : List String}
    (trims : c.Trims d) (entry : d.entry.isSome) (sub : d.names ⊆ S)
    (peers : ∀ p ∈ d.environment, c.PeersIn S p) (present : d.Present keys) :
    ∃ e deleted, d.pass keys = some (e, deleted) ∧ c.Passed d e deleted ∧
      (deleted = [] → e = d ∧ ∀ p ∈ d.environment, p.str ∈ keys → ¬ d.unused p) := by
  induction keys generalizing d with
  | nil =>
    refine ⟨d, [], rfl, ⟨trims, entry, .refl _, rfl, by simp⟩, fun _ => ⟨rfl, ?_⟩⟩
    exact fun p mem none => by cases none
  | cons key rest ih =>
    obtain ⟨there, later⟩ := present
    obtain ⟨⟨d', removed⟩, visited⟩ := isSome_iff_exists.mp (visit_isSome entry there)
    obtain ⟨p, mem, named, ⟨rfl, unused, removes⟩ | ⟨rfl, used, rfl⟩⟩ := visit_cases visited
    · have names := removes.names
      have sub' : d'.names ⊆ d.names := names ▸ Finset.erase_subset _ _
      obtain ⟨e, deleted, passed, spec, -⟩ := ih (removes.trims trims there)
        (by rwa [← isSome_map (f := face), removes.entry, isSome_map])
        (sub'.trans sub)
        (fun q mem => peers q (mem_of_mem_filter (removes.environment ▸ mem)))
        (later d' true visited)
      have step : Removal c.Stable d.names d'.names := by
        rw [names]
        refine .remove (.refl _) fun T part stable inside => ?_
        exact used_of_stable permissive trims (peers p mem) mem sub part stable (named ▸ inside) unused
      refine ⟨e, key :: deleted, ?_, ⟨spec.trims, spec.entry, step.trans spec.removal, ?_, ?_⟩, nofun⟩
      · simp [pass, visited, passed]
      · have one : d'.environment.length + 1 = d.environment.length := by
          rw [← card_names, ← card_names, names, Finset.card_erase_add_one there]
        rw [length_cons, ← one, ← spec.length]
        omega
      · have gone : key ∉ e.names := fun still => by
          have := spec.removal.subset still
          simp [names] at this
        rw [toFinset_cons, spec.deleted, names]
        ext name
        by_cases here : name = key
        · subst here
          simp [there, gone]
        · simp [here]
    · obtain ⟨e, deleted, passed, spec, kept⟩ := ih trims entry sub peers (later d' false visited)
      refine ⟨e, deleted, by simp [pass, visited, passed], spec, fun none => ?_⟩
      obtain ⟨same, used'⟩ := kept none
      refine ⟨same, fun q mem' visited => ?_⟩
      obtain here | later := mem_cons.mp visited
      · rw [environment_inj mem' mem (here.trans named.symm)]
        exact used
      · exact used' q mem' later

end Passes

/-! ## Iteration over a sorted dictionary -/

section Iteration

omit [Declared D]

theorem positions_present (n : Nat) (c : ProcessCollection D) (i : Nat) : c.Present (positions n c i) := by
  induction n generalizing c i with
  | zero => trivial
  | succ n ih =>
    rw [positions]
    split
    next => trivial
    next p found =>
      refine ⟨mem_names.mpr ⟨p, mem_of_getElem? found, rfl⟩, fun d removed visited => ?_⟩
      rw [visited]
      exact ih d (i + 1)

/-- Without removals all positions are visited. -/
theorem positions_complete {n : Nat} {c d : ProcessCollection D} {i : Nat}
    (passed : c.pass (positions n c i) = some (d, [])) {j : Nat} {p : Process D} (start : i ≤ j)
    (enough : j < i + n) (found : c.environment[j]? = some p) : p.str ∈ positions n c i := by
  induction n generalizing i with
  | zero => omega
  | succ n ih =>
    have inside : i < c.environment.length := by
      have := (List.getElem?_eq_some_iff.mp found).1
      omega
    rw [positions, getElem?_eq_getElem inside] at passed ⊢
    simp only at passed ⊢
    obtain rfl | later := Nat.eq_or_lt_of_le start
    · rw [getElem?_eq_getElem inside] at found
      cases found
      exact mem_cons_self
    · obtain ⟨⟨c', removed⟩, visited, passed⟩ := bind_eq_some_iff.mp passed
      obtain ⟨⟨d', deleted⟩, passed, same⟩ := bind_eq_some_iff.mp passed
      rw [visited] at passed ⊢
      obtain ⟨_, _, _, ⟨rfl, _, _⟩ | ⟨rfl, _, rfl⟩⟩ := visit_cases visited
      · cases same
      · cases same
        exact mem_cons_of_mem _ (ih passed later (by omega))

theorem iteration_iterates : Iterates (iteration (D := D)) where
  present c := positions_present _ c 0
  complete c d passed p mem := by
    obtain ⟨j, found⟩ := mem_iff_getElem?.mp mem
    have inside := (List.getElem?_eq_some_iff.mp found).1
    exact positions_complete passed (Nat.zero_le _) (by omega) found

end Iteration

/-! ## Establishing peers again -/

section Again

variable {D : Type} {c d c' d' : ProcessCollection D}

theorem tableWith_congr {ps qs : List (Process D)} (same : ps.map face = qs.map face)
    {f g : Process D → List String} (signals : ∀ p q, p.face = q.face → f p = g q)
    (peers : Dict String (List String)) : tableWith f peers ps = tableWith g peers qs := by
  induction ps generalizing qs peers with
  | nil =>
    rw [map_eq_nil_iff.mp same.symm]
    rfl
  | cons p ps ih =>
    cases qs with
    | nil => cases same
    | cons q qs =>
      obtain ⟨alike, rest⟩ := List.cons.inj same
      show tableWith f (updatePeers peers p.str (f p)) ps = tableWith g (updatePeers peers q.str (g q)) qs
      rw [signals p q alike, show p.str = q.str from congrArg Prod.fst alike]
      exact ih rest _

variable [Declared D]

theorem signals_congr {p q p' q' : Process D} (mine : p.face = p'.face) (its : q.face = q'.face) :
    p.signals q = p'.signals q' := by
  rw [signals, signals?_congr mine its]
  rfl

theorem withTables_congr {before before' behind behind' : List (Process D)} (front : before.map face = before'.map face)
    (back : behind.map face = behind'.map face) (ps : List (Process D)) :
    withTables before ps behind = withTables before' ps behind' := by
  induction ps generalizing before before' with
  | nil => rfl
  | cons p rest ih =>
    rw [withTables, withTables]
    congr 1
    · congr 1
      rw [tableWith_congr front fun q q' alike => signals_congr (q := p) alike rfl]
      refine tableWith_congr ?_ (fun q q' alike => signals_congr rfl alike) _
      rw [map_append, map_append, back]
    · refine ih ?_
      rw [map_append, map_append, front]

/-- The peers of environment processes are found again if the collection looks the same. -/
theorem Established.environment_congr (one : c.Established c') (other : d.Established d')
    (models : c.models.map face = d.models.map face)
    (environment : c.environment.map (·.withPeers .empty) = d.environment.map (·.withPeers .empty))
    (entry : c.entry.map face = d.entry.map face) :
    c'.environment = d'.environment := by
  have ready : c.withModels = d.withModels := by
    funext p
    rw [withModels, withModels, tableWith_congr models fun q q' alike => signals_congr alike rfl]
  have middle : c.environment.map c.withModels = d.environment.map d.withModels := by
    have cleared : ∀ ps : List (Process D), ps.map d.withModels = (ps.map (·.withPeers .empty)).map d.withModels := by
      intro ps
      rw [List.map_map]
      refine map_congr_left fun p _ => ?_
      simp only [Function.comp_apply, withModels, signals_withPeers_right]
      rfl
    rw [ready, cleared, environment, ← cleared]
  rw [one.environment, other.environment, middle]
  refine withTables_congr ?_ ?_ _
  · rw [List.map_map, List.map_map]
    exact models
  · rw [List.map_map, List.map_map, ← toList_map, ← toList_map]
    exact congrArg _ entry

end Again

/-! ## The greatest stable part -/

section Greatest

variable {D : Type} [Declared D] {c d : ProcessCollection D}

theorem establishPeers_of_connectable (connectable : c.Connectable) : ∃ m, c.establishPeers = some m := by
  rw [establishPeers, if_pos connectable]
  exact ⟨_, rfl⟩

theorem restrict_connectable (connectable : c.Connectable) (S : Finset String) : (c.restrict S).Connectable := by
  refine Pairwise.sublist ?_ connectable
  exact (Sublist.refl _).append (filter_sublist.append (Sublist.refl _))

theorem Trims.connectable (trims : c.Trims d) (connectable : c.Connectable) : d.Connectable :=
  (connectable_congr trims.faces).mpr (restrict_connectable connectable _)

/-- What is left of a collection, with the peers that there are in it. -/
structure Fresh (c d : ProcessCollection D) : Prop where
  trims : c.Trims d
  entry : d.entry.isSome
  peers : ∃ m, (c.restrict d.names).establishPeers = some m ∧ d.environment = m.environment

theorem Established.names (done : c.Established d) : d.names = c.names := by
  rw [ProcessCollection.names, ProcessCollection.names, strs_cores, done.environment_cores, ← strs_cores]

variable {e : ProcessCollection D}

theorem Trims.established (trims : c.Trims d) (done : d.Established e) : c.Trims e where
  names := done.names ▸ trims.names
  models := (faces_of_cores done.models).trans trims.models
  environment := by
    rw [done.environment_cores, done.names]
    exact trims.environment
  entry := by
    have seen : ∀ o : Option (Process D), o.map face = (o.map (·.withPeers .empty)).map face := by
      intro o
      rw [Option.map_map]
      rfl
    rw [seen, done.entry, ← seen, trims.entry]
  attributes := by
    intro name
    rw [done.attributes, done.names]
    exact trims.attributes name

/-- Peers that are established again are those of what is left. -/
theorem Trims.fresh (trims : c.Trims d) (entry : d.entry.isSome)
    (connectable : c.Connectable) (done : d.Established e) : c.Fresh e where
  trims := trims.established done
  entry := by
    rwa [← isSome_map (f := fun p : Process D => p.withPeers .empty), done.entry, isSome_map]
  peers := by
    obtain ⟨m, found⟩ := establishPeers_of_connectable (restrict_connectable connectable e.names)
    refine ⟨m, found, done.environment_congr (ProcessCollection.established found) trims.models ?_ trims.entry⟩
    rw [done.names]
    exact trims.environment

variable {order : ProcessCollection D → List String}

/-- The passes end with a stable part of what is left. -/
theorem passes_spec (permissive : c.Permissive) (connectable : c.Connectable)
    (iterates : Iterates order) {n : Nat} (fresh : c.Fresh d) (enough : d.environment.length < n) :
    ∃ e deleted, passes order n d = some (e, deleted) ∧ c.Fresh e ∧ c.Stable e.names ∧
      Removal c.Stable d.names e.names ∧ deleted.toFinset = d.names \ e.names := by
  induction n generalizing d with
  | zero => cases enough
  | succ n ih =>
    obtain ⟨m, found, same⟩ := fresh.peers
    have peers : ∀ p ∈ d.environment, c.PeersIn d.names p := by
      intro p mem key name
      exact hasPeer_iff found (same ▸ mem)
    obtain ⟨e, deleted, passed, spec, kept⟩ := pass_spec permissive fresh.trims fresh.entry
      (Finset.Subset.refl _) peers (iterates.present d)
    cases deleted with
    | nil =>
      obtain ⟨rfl, used⟩ := kept rfl
      refine ⟨e, [], by simp [passes, passed], fresh, ⟨m, found, fun p mem => ?_⟩, .refl _, by simp⟩
      rw [← same] at mem
      have used := used p mem (iterates.complete e e passed p mem)
      rw [not_unused] at used ⊢
      refine ⟨used.1, fun r asked => ?_⟩
      refine Requirement.compatible_congr (fun name => ?_) (fun name => ?_) (used.2 r asked)
      · rw [surroundings_congr fresh.trims.faces, surroundings_congr (faces_of_cores (established found).cores)]
      · show e.attributes.get? name = m.attributes.get? name
        rw [(established found).attributes, fresh.trims.attributes]
    | cons key rest =>
      obtain ⟨e', again⟩ := establishPeers_of_connectable (spec.trims.connectable connectable)
      have done := established again
      have next := spec.trims.fresh spec.entry connectable done
      have shorter : e'.environment.length < n := by
        have length := spec.length
        rw [← card_names, done.names, card_names]
        rw [length_cons] at length
        omega
      obtain ⟨last, more, passes', fresh', stable, removal, gone⟩ := ih next shorter
      rw [done.names] at removal gone
      refine ⟨last, key :: rest ++ more, ?_, fresh', stable, spec.removal.trans removal, ?_⟩
      · simp [passes, passed, again, passes']
      · rw [toFinset_append, spec.deleted, gone]
        have first := spec.removal.subset
        have second := removal.subset
        ext name
        simp only [Finset.mem_union, Finset.mem_sdiff]
        constructor
        · intro mem
          obtain ⟨mem, gone⟩ | ⟨mem, gone⟩ := mem
          · exact ⟨mem, fun still => gone (second still)⟩
          · exact ⟨first mem, gone⟩
        · intro ⟨mem, gone⟩
          by_cases between : name ∈ e.names
          · exact .inr ⟨between, gone⟩
          · exact .inl ⟨mem, between⟩

theorem fresh_self (entry : c.entry.isSome) (done : c.establishPeers = some c) : c.Fresh c :=
  (trims_self c).fresh entry (established done).connectable (established done)

/-- `remove_unused_processes` returns, leaves the greatest stable part of the environment with its
peers, and returns the names of the others, whatever keys its passes come to. -/
theorem removeUnusedProcesses_greatest (entry : c.entry.isSome) (done : c.establishPeers = some c)
    (permissive : c.Permissive) {order : ProcessCollection D → List String}
    (iterates : Iterates order) :
    ∃ d deleted, c.removeUnusedProcesses order = some (d, deleted) ∧ IsGreatest {S | S ⊆ c.names ∧ c.Stable S} d.names ∧
      (∃ m, (c.restrict d.names).establishPeers = some m ∧ d.environment = m.environment) ∧
      deleted.toFinset = c.names \ d.names := by
  obtain ⟨d, deleted, returns, fresh, stable, removal, gone⟩ := passes_spec permissive
    (established done).connectable iterates (fresh_self entry done) (Nat.lt_succ_self _)
  exact ⟨d, deleted, returns, removal.isGreatest stable, fresh.peers, gone⟩

/-- A signal without parameters. -/
def plainSignal (kind : Kind) : Action := ⟨kind, "", [], [], [], none, true, [], .none, .none⟩

/-- A process with one signal. -/
def signalProcess (category name signal : String) (kind : Kind) (peers : Dict String (List String)) :
    Process String :=
  ⟨some category, name, "", [], .empty, .concatenation [.behaviour ⟨0, signal, kind, none⟩],
    .ofList [(signal, plainSignal kind)], .empty, .empty, peers⟩

/-- A driver that the entry process registers, and another one that nobody registers. -/
def drivers : ProcessCollection String where
  name := "base"
  models := []
  environment :=
    [signalProcess "usb" "driver" "register" (.receive true) (.ofList [("entry_point/main", ["register"])]),
      signalProcess "usb" "orphan" "probe" (.receive true) .empty]
  entry := some (signalProcess "entry_point" "main" "register" (.dispatch false)
    (.ofList [("usb/driver", ["register"])]))
  attributes := .empty
  models_sorted := sorted_nil
  environment_sorted := by decide +kernel
  disjoint := nofun

theorem drivers_removeUnusedProcesses : drivers.Permissive ∧
    ∃ d deleted, drivers.removeUnusedProcesses iteration = some (d, deleted) ∧
      IsGreatest {S | S ⊆ drivers.names ∧ drivers.Stable S} d.names ∧
      (∃ m, (drivers.restrict d.names).establishPeers = some m ∧ d.environment = m.environment) ∧
      deleted.toFinset = drivers.names \ d.names := by
  have permissive : drivers.Permissive := by
    unfold Permissive
    decide +kernel
  exact ⟨permissive, removeUnusedProcesses_greatest rfl (by decide +kernel) permissive iteration_iterates⟩

end Greatest

end ProcessCollection

end Klever.Emg.Collection
