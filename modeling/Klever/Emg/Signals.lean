import Klever.Emg.Collection
import Klever.Lib.Except

/-!
# Structures for the parameters of signals

The label-based translator passes the parameters of a signal in a structure: the dispatcher stores
them in the fields `arg0`, `arg1` and so on, and the receiver reads them. `_get_cf_struct` shares
structures through a cache by the printed types of the parameters. The tag of a new structure is made
of the automaton that asks for it, whatever the parameters are, and its declaration is that of
`import_declaration`, which is one for each printed form, so a second structure with the same tag is
the same object and its fields are written over.

`Faithful` is what the signals need: peers use the same tag, its fields have the types of the
parameters when all actions have been translated, and different lists of types have different tags.
-/

namespace Klever.Emg.Collection.Signals

open Klever.Lib List Option

variable {D : Type}

/-! ## Automata -/

/-- `Automaton` -/
structure Automaton (D : Type) where
  identifier : Nat
  process : Process D
  deriving DecidableEq

/-- The automata in the order in which their actions are translated: those of the environment, of the
function models and of the entry process; without the latter it is an error. -/
def automata (c : ProcessCollection D) : Option (List (Automaton D)) := do
  let entry ← c.entry
  let models := c.models.zipIdx 2
  let events := c.environment.zipIdx (2 + c.models.length)
  return (events ++ models ++ [(entry, 1)]).map fun (item : Process D × Nat) => ⟨item.2, item.1⟩

/-- All behaviours of the process. -/
def behaviours (p : Process D) : List Behaviour :=
  p.initial.behaviours ++ (p.actions.values.filterMap Action.action).flatMap BaseAction.behaviours

/-! ## Requests of structures -/

/-- A dispatch or a replicative receive that asks for a structure. -/
structure Request (D : Type) where
  automaton : Automaton D
  name : String
  receive : Bool
  parameters : List D
  deriving DecidableEq

/-- The other process has the signal as the peer of the process. -/
def hasPeer (a b : Automaton D) (name : String) : Bool :=
  ((a.process.peers.get? b.process.str).getD []).contains name

/-- Automata of peers whose action of the name is a receive or is a dispatch. -/
def peers (as : List (Automaton D)) (a : Automaton D) (name : String) (receive : Bool) :
    List (Automaton D) :=
  as.filter fun b => hasPeer a b name && match b.process.actions.get? name with
    | some action =>
      match action.kind with
      | .receive _ => receive
      | .dispatch _ => !receive
      | _ => false
    | none => false

/-- The declarations of the variables of the labels; a label without a declaration has no variable. -/
def declarations (a : Automaton D) (parameters : List String) : Option (List D) :=
  parameters.mapM fun access => do
    let label ← a.process.resolveAccess access
    label.declaration

/-- `_dispatch` and `_receive`: the request of a behaviour, if there is one. -/
def request (as : List (Automaton D)) (a : Automaton D) (b : Behaviour) : Option (Option (Request D)) :=
  match a.process.actions.get? b.name with
  | none => some none
  | some action =>
    match action.kind with
    | .dispatch _ =>
      if (peers as a b.name true).isEmpty then some none
      else (declarations a action.parameters).map fun ds => some ⟨a, b.name, false, ds⟩
    | .receive true =>
      if (peers as a b.name false).isEmpty || action.parameters.isEmpty then some none
      else (declarations a action.parameters).map fun ds => some ⟨a, b.name, true, ds⟩
    | _ => some none

/-- The requests of all actions; `order` is that of the iteration over a set of behaviours. -/
def requests (order : List Behaviour → List Behaviour) (as : List (Automaton D)) :
    Option (List (Request D)) :=
  (as.mapM fun a => (order (behaviours a.process)).mapM (request as a)).map
    fun found => found.flatten.reduceOption

/-! ## Structures -/

/-- `_structures`, with the tags of the declarations, and the fields of the declarations of structures
by their tags. -/
structure Structures (D : Type) where
  cache : Dict String String
  fields : Dict String (Dict String D)

def structName (a : Automaton D) : String :=
  "emg_struct_" ++ a.process.name ++ "_" ++ toString a.identifier

def argument (i : Nat) : String := "arg" ++ toString i

/-- The fields of the parameters from the number `i` on, written over those that are there. -/
def setArguments (i : Nat) (fields : Dict String D) : List D → Dict String D
  | [] => fields
  | p :: rest => setArguments (i + 1) (fields.set (argument i) p) rest

section

variable [Declared D]

def Request.texts (r : Request D) : List String := r.parameters.map Declared.text

/-- `cache_identifier` -/
def Request.key (r : Request D) : String := String.join r.texts

/-- `_get_cf_struct`, with the tag; `int` is the declaration of `int a`. None stands for `KeyError`. -/
def getCfStruct (int : D) (s : Structures D) (r : Request D) : Option (Structures D × String) :=
  match s.cache.get? r.key with
  | some tag => some (s, tag)
  | none =>
    let name := structName r.automaton
    if (s.cache.get? name).isSome then none
    else
      let old := (s.fields.get? name).getD .empty
      some (⟨s.cache.set r.key name,
        s.fields.set name ((setArguments 0 old r.parameters).set "signal_pending" int)⟩, name)

/-- The structures of requests one after another. -/
def getAll (int : D) (s : Structures D) : List (Request D) → Option (Structures D × List (Request D × String))
  | [] => some (s, [])
  | r :: rest => do
    let (s, tag) ← getCfStruct int s r
    let (s, more) ← getAll int s rest
    return (s, (r, tag) :: more)

/-- The translation of the signals of a collection; `declared` are the structures that are known
before. -/
def translate (int : D) (order : List Behaviour → List Behaviour)
    (declared : Dict String (Dict String D)) (c : ProcessCollection D) :
    Option (Structures D × List (Request D × String)) := do
  let as ← automata c
  let rs ← requests order as
  getAll int ⟨.empty, declared⟩ rs

end

/-! ## Names -/

theorem argument_injective {i j : Nat} (same : argument i = argument j) : i = j :=
  Nat.repr_injective ((String.append_right_inj _).mp same)

theorem argument_ne_signal_pending (i : Nat) : argument i ≠ "signal_pending" := by
  intro same
  have chars := congrArg String.toList same
  rw [argument, String.toList_append] at chars
  simp at chars

theorem structName_injective {a b : Automaton D} (same : structName a = structName b) :
    a.identifier = b.identifier :=
  (append_number_inj.mp same).2

theorem setArguments_before {i j : Nat} (lt : j < i) (fields : Dict String D) (ps : List D) :
    (setArguments i fields ps).get? (argument j) = fields.get? (argument j) := by
  induction ps generalizing i fields with
  | nil => rfl
  | cons p rest ih =>
    have other : argument j ≠ argument i := fun same => Nat.ne_of_lt lt (argument_injective same)
    rw [setArguments, ih (Nat.lt_succ_of_lt lt), Dict.get?_set_of_ne _ _ other]

theorem setArguments_get? {ps : List D} {i k : Nat} {d : D} (fields : Dict String D)
    (param : ps[k]? = some d) : (setArguments i fields ps).get? (argument (i + k)) = some d := by
  induction ps generalizing i k fields with
  | nil => cases param
  | cons p rest ih =>
    rw [setArguments]
    cases k with
    | zero =>
      cases param
      exact (setArguments_before (Nat.lt_add_one i) _ rest).trans (Dict.get?_set_self _ _ _)
    | succ k =>
      have there := @ih (i + 1) k (fields.set (argument i) p) param
      rwa [Nat.add_right_comm, Nat.add_assoc] at there

/-! ## The cache -/

section

variable [Declared D] {int : D}

/-- The first request of a key. -/
def first (rs : List (Request D)) (key : String) : Option (Request D) := rs.find? fun r => r.key = key

theorem first_cons (r : Request D) (rest : List (Request D)) (key : String) :
    first (r :: rest) key = if r.key = key then some r else first rest key := by
  by_cases same : r.key = key <;> simp [same, first]

variable {s s' : Structures D} {r : Request D} {tag : String} {out : List (Request D × String)} {rs : List (Request D)}

/-- What a request does: nothing if the key is known, and otherwise a structure of its automaton. -/
theorem getCfStruct_cases (got : getCfStruct int s r = some (s', tag)) : (s' = s ∧ s.cache.get? r.key = some tag) ∨
      (s.cache.get? r.key = none ∧ tag = structName r.automaton ∧ s'.cache = s.cache.set r.key tag ∧
        ∃ old, s'.fields = s.fields.set tag ((setArguments 0 old r.parameters).set "signal_pending" int)) := by
  unfold getCfStruct at got
  split at got
  next known =>
    cases got
    exact .inl ⟨rfl, known⟩
  next new =>
    dsimp only at got
    split at got
    · cases got
    · cases got
      exact .inr ⟨new, rfl, rfl, _, rfl⟩

theorem getAll_cons {rest : List (Request D)} (got : getAll int s (r :: rest) = some (s', out)) :
    ∃ s₁ tag more, getCfStruct int s r = some (s₁, tag) ∧ getAll int s₁ rest = some (s', more) ∧
      out = (r, tag) :: more := by
  obtain ⟨⟨s₁, tag⟩, one, got⟩ := bind_eq_some_iff.mp got
  obtain ⟨⟨s₂, more⟩, others, got⟩ := bind_eq_some_iff.mp got
  cases got
  exact ⟨s₁, tag, more, one, others, rfl⟩

/-- The cache has the tags of the automata that were the first to ask. -/
theorem getAll_cache (got : getAll int s rs = some (s', out)) (key : String) :
    s'.cache.get? key = (s.cache.get? key).or ((first rs key).map fun r => structName r.automaton) := by
  induction rs generalizing s out with
  | nil =>
    cases got
    simp [first]
  | cons r rest ih =>
    obtain ⟨s₁, tag, more, one, others, -⟩ := getAll_cons got
    rw [ih others, first_cons]
    obtain ⟨rfl, known⟩ | ⟨new, rfl, cache, -⟩ := getCfStruct_cases one
    · split
      next same => rw [← same, known, some_or, some_or]
      next => rfl
    · rw [cache, Dict.get?_set]
      split
      next same => rw [same, new, if_pos rfl, some_or, none_or, map_some]
      next other => rw [if_neg (Ne.symm other)]

/-- The tag of a request is in the cache. -/
theorem getAll_tags (got : getAll int s rs = some (s', out)) :
    out.map Prod.fst = rs ∧ ∀ item ∈ out, s'.cache.get? item.1.key = some item.2 := by
  induction rs generalizing s out with
  | nil =>
    cases got
    exact ⟨rfl, nofun⟩
  | cons r rest ih =>
    obtain ⟨s₁, tag, more, one, others, rfl⟩ := getAll_cons got
    obtain ⟨same, tags⟩ := ih others
    refine ⟨by rw [map_cons, same], forall_mem_cons.mpr ⟨?_, tags⟩⟩
    have here : s₁.cache.get? r.key = some tag := by
      obtain ⟨rfl, known⟩ | ⟨-, -, cache, -⟩ := getCfStruct_cases one
      · exact known
      · rw [cache, Dict.get?_set_self]
    rw [getAll_cache others, here]
    rfl

/-- The request creates a structure: it is the first one of its key, and the key is not known. -/
def Creates (s : Structures D) (rs : List (Request D)) (r : Request D) : Prop :=
  s.cache.get? r.key = none ∧ first rs r.key = some r

/-- The requests behind the first one, when it is not the one that creates. -/
theorem Creates.of_tail {s₁ : Structures D} {q : Request D} {rest : List (Request D)}
    (one : getCfStruct int s q = some (s₁, tag)) (creates : Creates s₁ rest r) :
    Creates s (q :: rest) r := by
  obtain ⟨unknown, found⟩ := creates
  obtain ⟨rfl, known⟩ | ⟨new, -, cache, -⟩ := getCfStruct_cases one
  · have other : q.key ≠ r.key := by
      intro same
      rw [← same, known] at unknown
      cases unknown
    exact ⟨unknown, by rw [first_cons, if_neg other, found]⟩
  · rw [cache, Dict.get?_set] at unknown
    split at unknown
    · cases unknown
    next other =>
      exact ⟨unknown, by rw [first_cons, if_neg (Ne.symm other), found]⟩

/-- The fields of a tag that no request creates stay as they are. -/
theorem getAll_frame (got : getAll int s rs = some (s', out))
    (others : ∀ r, Creates s rs r → structName r.automaton ≠ tag) :
    s'.fields.get? tag = s.fields.get? tag := by
  induction rs generalizing s out with
  | nil =>
    cases got
    rfl
  | cons q rest ih =>
    obtain ⟨s₁, tag', more, one, later, -⟩ := getAll_cons got
    rw [ih later fun r creates => others r (creates.of_tail one)]
    obtain ⟨rfl, -⟩ | ⟨new, rfl, -, old, fields⟩ := getCfStruct_cases one
    · rfl
    · have created : Creates s (q :: rest) q := ⟨new, by rw [first_cons, if_pos rfl]⟩
      rw [fields, Dict.get?_set_of_ne _ _ (others q created).symm]

/-- The fields of a structure whose automaton creates no other one. -/
theorem getAll_fields (got : getAll int s rs = some (s', out)) (creates : Creates s rs r)
    (alone : ∀ q, Creates s rs q → structName q.automaton = structName r.automaton → q.key = r.key) :
    ∃ fields, s'.fields.get? (structName r.automaton) = some fields ∧
      ∀ (i : Nat) (d : D), r.parameters[i]? = some d → fields.get? (argument i) = some d := by
  induction rs generalizing s out with
  | nil => cases creates.2
  | cons q rest ih =>
    obtain ⟨s₁, tag, more, one, later, -⟩ := getAll_cons got
    obtain ⟨unknown, found⟩ := creates
    have alone' : ∀ p, Creates s₁ rest p → structName p.automaton = structName r.automaton →
        p.key = r.key := fun p creates => alone p (creates.of_tail one)
    rw [first_cons] at found
    obtain ⟨rfl, known⟩ | ⟨new, rfl, cache, old, fields⟩ := getCfStruct_cases one
    · split at found
      next same =>
        rw [← same, known] at unknown
        cases unknown
      next => exact ih later ⟨unknown, found⟩ alone'
    · split at found
      next same =>
        cases found
        -- the key is known now, so no later request creates a structure of this automaton
        have frame := getAll_frame later fun p creates same => by
          have unknown := creates.1
          rw [alone' p creates same, cache, Dict.get?_set_self] at unknown
          cases unknown
        rw [frame, fields, Dict.get?_set_self]
        refine ⟨_, rfl, fun i d param => ?_⟩
        rw [Dict.get?_set_of_ne _ _ (argument_ne_signal_pending i)]
        have there := setArguments_get? (i := 0) old param
        rwa [Nat.zero_add] at there
      next other =>
        refine ih later ⟨?_, found⟩ alone'
        rw [cache, Dict.get?_set_of_ne _ _ (Ne.symm other)]
        exact unknown

end

/-! ## Faithful structures -/

section

variable [Declared D] {int : D}

/-- A dispatch and a replicative receive of its signal by a peer. -/
def Paired (d r : Request D) : Prop :=
  d.receive = false ∧ r.receive = true ∧ d.name = r.name ∧ hasPeer d.automaton r.automaton d.name

/-- The structure of the tag has the parameters as its fields. -/
def Stores (s : Structures D) (tag : String) (parameters : List D) : Prop :=
  ∃ fields, s.fields.get? tag = some fields ∧ ∀ (i : Nat) (d : D), parameters[i]? = some d →
    ∃ e, fields.get? (argument i) = some e ∧ Declared.text e = Declared.text d

/-- Signals pass their parameters: peers use one structure, whose fields have the types of the
parameters of both, and different lists of types have different tags. -/
structure Faithful (s : Structures D) (out : List (Request D × String)) : Prop where
  passed : ∀ d ∈ out, ∀ r ∈ out, Paired d.1 r.1 → d.2 = r.2 ∧ Stores s d.2 d.1.parameters ∧ Stores s r.2 r.1.parameters
  apart : ∀ q ∈ out, ∀ r ∈ out, q.1.texts ≠ r.1.texts → q.2 ≠ r.2

/-- The parameters of peers are printed the same, different lists are printed differently, and no
automaton is the first one to ask for two different lists. -/
structure Separate (rs : List (Request D)) : Prop where
  paired : ∀ d ∈ rs, ∀ r ∈ rs, Paired d r → d.texts = r.texts
  legible : ∀ q ∈ rs, ∀ r ∈ rs, q.key = r.key → q.texts = r.texts
  creators : ∀ q ∈ rs, ∀ r ∈ rs, first rs q.key = some q → first rs r.key = some r →
    q.automaton.identifier = r.automaton.identifier → q.key = r.key

variable {rs : List (Request D)} {r : Request D} {as : List (Automaton D)}

theorem first_of_mem (mem : r ∈ rs) : ∃ c ∈ rs, first rs r.key = some c ∧ c.key = r.key := by
  cases found : first rs r.key with
  | none => simpa using find?_eq_none.mp found r mem
  | some c => exact ⟨c, mem_of_find?_eq_some found, rfl, by simpa using find?_some found⟩

/-- The tag of a request is that of the automaton that was the first to ask. -/
theorem tag_eq {declared : Dict String (Dict String D)} {s : Structures D} {out : List (Request D × String)}
    (got : getAll int ⟨.empty, declared⟩ rs = some (s, out)) {item : Request D × String} (mem : item ∈ out)
    {c : Request D} (found : first rs item.1.key = some c) : item.2 = structName c.automaton := by
  have tag := (getAll_tags got).2 item mem
  rw [getAll_cache got, found] at tag
  exact (some.inj tag).symm

section Run

variable {declared : Dict String (Dict String D)} {rs : List (Request D)} {s : Structures D}
  {out : List (Request D × String)} (got : getAll int ⟨.empty, declared⟩ rs = some (s, out))

include got

theorem mem_requests_iff : r ∈ rs ↔ ∃ tag, (r, tag) ∈ out := by
  rw [← (getAll_tags got).1, List.mem_map]
  constructor
  · intro ⟨⟨q, tag⟩, mem, same⟩
    cases same
    exact ⟨tag, mem⟩
  · exact fun ⟨tag, mem⟩ => ⟨(r, tag), mem, rfl⟩

theorem Faithful.separate (unique : ∀ q ∈ rs, ∀ r ∈ rs, q.automaton.identifier = r.automaton.identifier →
      q.automaton = r.automaton) (faithful : Faithful s out) : Separate rs := by
  have same : ∀ q ∈ rs, ∀ r ∈ rs, (∀ tag tag', (q, tag) ∈ out → (r, tag') ∈ out → tag = tag') → q.texts = r.texts := by
    intro q mem r mem' tags
    obtain ⟨tag, out₁⟩ := (mem_requests_iff got).mp mem
    obtain ⟨tag', out₂⟩ := (mem_requests_iff got).mp mem'
    by_contra differ
    exact faithful.apart _ out₁ _ out₂ differ (tags tag tag' out₁ out₂)
  constructor
  · intro d mem r mem' paired
    exact same d mem r mem' fun tag tag' out₁ out₂ => (faithful.passed _ out₁ _ out₂ paired).1
  · intro q mem r mem' keys
    obtain ⟨c, -, found, -⟩ := first_of_mem mem
    refine same q mem r mem' fun tag tag' out₁ out₂ => (tag_eq got out₁ found).trans (tag_eq got out₂ ?_).symm
    rw [← keys, found]
  · intro q mem r mem' firstQ firstR identifiers
    have texts := same q mem r mem' fun tag tag' out₁ out₂ => calc
      tag = structName q.automaton := tag_eq got out₁ firstQ
      _ = structName r.automaton := by rw [unique q mem r mem' identifiers]
      _ = tag' := (tag_eq got out₂ firstR).symm
    rw [Request.key, texts, Request.key]

theorem Separate.stores (separate : Separate rs)
    {tag : String} (mem : (r, tag) ∈ out) : Stores s tag r.parameters := by
  have asked := (mem_requests_iff got).mpr ⟨tag, mem⟩
  obtain ⟨c, member, found, key⟩ := first_of_mem asked
  have creates : Creates ⟨.empty, declared⟩ rs c := ⟨rfl, by rw [key, found]⟩
  have alone : ∀ q, Creates ⟨.empty, declared⟩ rs q →
      structName q.automaton = structName c.automaton → q.key = c.key := by
    intro q other names
    have member' := mem_of_find?_eq_some other.2
    exact separate.creators q member' c member other.2 creates.2 (structName_injective names)
  obtain ⟨fields, stored, types⟩ := getAll_fields got creates alone
  have name : tag = structName c.automaton := tag_eq got mem found
  rw [name]
  refine ⟨fields, stored, fun i d param => ?_⟩
  -- the creator's list may be another one, but it is printed the same
  have text : c.texts[i]? = some (Declared.text d) := by
    rw [separate.legible c member r asked key, Request.texts, getElem?_map, param, map_some]
  rw [Request.texts, getElem?_map] at text
  obtain ⟨e, there, same⟩ := map_eq_some_iff.mp text
  exact ⟨e, types i e there, same⟩

theorem Separate.faithful (separate : Separate rs) : Faithful s out := by
  constructor
  · intro ⟨d, tag⟩ mem ⟨r, tag'⟩ mem' paired
    have asked := (mem_requests_iff got).mpr ⟨tag, mem⟩
    have texts := separate.paired d asked r ((mem_requests_iff got).mpr ⟨tag', mem'⟩) paired
    obtain ⟨c, -, found, -⟩ := first_of_mem asked
    have found' : first rs r.key = some c := by
      rw [Request.key, ← texts]
      exact found
    exact ⟨(tag_eq got mem found).trans (tag_eq got mem' found').symm, separate.stores got mem,
      separate.stores got mem'⟩
  · intro ⟨q, tag⟩ mem ⟨r, tag'⟩ mem' differ tags
    have asked := (mem_requests_iff got).mpr ⟨tag, mem⟩
    have asked' := (mem_requests_iff got).mpr ⟨tag', mem'⟩
    obtain ⟨c, member, found, key⟩ := first_of_mem asked
    obtain ⟨c', member', found', key'⟩ := first_of_mem asked'
    have names : structName c.automaton = structName c'.automaton := calc
      structName c.automaton = tag := (tag_eq got mem found).symm
      _ = tag' := tags
      _ = structName c'.automaton := tag_eq got mem' found'
    have keys := separate.creators c member c' member' (by rw [key, found]) (by rw [key', found'])
      (structName_injective names)
    exact differ (separate.legible q asked r asked' (by rw [← key, keys, key']))

end Run

/-! ## The translation -/

omit [Declared D] in
theorem request_automaton {a : Automaton D} {b : Behaviour} (made : request as a b = some (some r)) : r.automaton = a := by
  unfold request at made
  split at made
  · cases made
  · split at made
    · split at made
      · cases made
      · obtain ⟨ds, -, same⟩ := map_eq_some_iff.mp made
        cases same
        rfl
    · split at made
      · cases made
      · obtain ⟨ds, -, same⟩ := map_eq_some_iff.mp made
        cases same
        rfl
    · cases made

omit [Declared D] in
/-- The requests are those of the behaviours of all automata. -/
theorem mem_requests {order : List Behaviour → List Behaviour} (made : requests order as = some rs) :
    r ∈ rs ↔ ∃ a ∈ as, ∃ b ∈ order (behaviours a.process), request as a b = some (some r) := by
  obtain ⟨found, each, rfl⟩ := map_eq_some_iff.mp made
  rw [reduceOption_mem_iff, mem_flatten]
  constructor
  · intro ⟨row, inFound, inRow⟩
    obtain ⟨a, member, rowMade⟩ := (mem_mapM each).mp inFound
    obtain ⟨b, behaviour, one⟩ := (mem_mapM rowMade).mp inRow
    exact ⟨a, member, b, behaviour, one⟩
  · intro ⟨a, member, b, behaviour, one⟩
    obtain ⟨row, rowMade, inFound⟩ := mapM_of_mem each member
    obtain ⟨item, itemMade, inRow⟩ := mapM_of_mem rowMade behaviour
    rw [one] at itemMade
    cases itemMade
    exact ⟨row, inFound, inRow⟩

omit [Declared D] in
/-- No two automata have the same identifier. -/
theorem automata_unique {c : ProcessCollection D} (made : automata c = some as) :
    ∀ a ∈ as, ∀ b ∈ as, a.identifier = b.identifier → a = b := by
  obtain ⟨entry, -, made⟩ := bind_eq_some_iff.mp made
  cases made
  apply inj_on_of_nodup_map (f := Automaton.identifier)
  rw [List.map_map]
  show List.Nodup (List.map Prod.snd _)
  rw [map_append, map_append, zipIdx_map_snd, zipIdx_map_snd]
  refine nodup_append.mpr ⟨nodup_append.mpr ⟨nodup_range', nodup_range', ?_⟩, nodup_singleton 1, ?_⟩
  · intro i event j model
    rw [mem_range'_1] at event model
    omega
  · intro i mem j one
    obtain rfl : j = 1 := mem_singleton.mp one
    rw [mem_append, mem_range'_1, mem_range'_1] at mem
    omega

/-- The translated signals are faithful just in case the requests of the collection are separate. -/
theorem translate_faithful_iff {order : List Behaviour → List Behaviour}
    {declared : Dict String (Dict String D)} {c : ProcessCollection D} {s : Structures D}
    {out : List (Request D × String)} (translated : translate int order declared c = some (s, out)) :
    ∃ as rs, automata c = some as ∧ requests order as = some rs ∧ (Faithful s out ↔ Separate rs) := by
  obtain ⟨as, instances, others⟩ := bind_eq_some_iff.mp translated
  obtain ⟨rs, asked, got⟩ := bind_eq_some_iff.mp others
  have unique : ∀ q ∈ rs, ∀ r ∈ rs, q.automaton.identifier = r.automaton.identifier → q.automaton = r.automaton := by
    intro q mem r mem' same
    obtain ⟨a, member, _, _, made⟩ := (mem_requests asked).mp mem
    obtain ⟨b, member', _, _, made'⟩ := (mem_requests asked).mp mem'
    rw [request_automaton made, request_automaton made'] at same ⊢
    exact automata_unique instances a member b member' same
  exact ⟨as, rs, instances, asked, Faithful.separate got unique, Separate.faithful got⟩

end

/-! ### Signals through a process -/

instance [Declared D] (d r : Request D) : Decidable (Paired d r) := by
  unfold Paired
  infer_instance

instance [Declared D] [DecidableEq D] (rs : List (Request D)) : Decidable (Separate rs) :=
  decidable_of_iff
    ((∀ d ∈ rs, ∀ r ∈ rs, Paired d r → d.texts = r.texts) ∧ (∀ q ∈ rs, ∀ r ∈ rs, q.key = r.key → q.texts = r.texts) ∧
      ∀ q ∈ rs, ∀ r ∈ rs, first rs q.key = some q → first rs r.key = some r →
        q.automaton.identifier = r.automaton.identifier → q.key = r.key)
    ⟨fun ⟨paired, legible, creators⟩ => ⟨paired, legible, creators⟩,
      fun separate => ⟨separate.paired, separate.legible, separate.creators⟩⟩

/-- A process that does its signals in turn, each with one parameter of a type. -/
def signalling (name : String) (signals : List (String × Kind × String)) (peers : Dict String (List String)) :
    Process String where
  category := some "relay"
  name := name
  comment := ""
  headers := []
  labels := .ofList (signals.map fun signal => (signal.1, ⟨some signal.2.2, none⟩))
  initial := .concatenation (signals.map fun signal => .behaviour ⟨0, signal.1, signal.2.1, none⟩)
  actions := .ofList (signals.map fun signal =>
    (signal.1, { Action.new signal.2.1 with parameters := ["%" ++ signal.1 ++ "%"] }))
  declarations := .empty
  definitions := .empty
  peers := peers

def receiver (peers : List (String × List String)) : Process String :=
  signalling "sink" [("emit", .receive true, "struct data *")] (.ofList peers)

/-- The process in the middle is started with a number and emits data. -/
def relay : ProcessCollection String where
  name := "relay"
  models := []
  environment :=
    [signalling "middle" [("start", .receive true, "int"), ("emit", .dispatch false, "struct data *")]
        (.ofList [("relay/sink", ["emit"]), ("relay/source", ["start"])]),
      receiver [("relay/middle", ["emit"])]]
  entry := some (signalling "source" [("start", .dispatch false, "int")] (.ofList [("relay/middle", ["start"])]))
  attributes := .empty
  models_sorted := sorted_nil
  environment_sorted := by decide +kernel
  disjoint := nofun

theorem relay_unfaithful : relay.establishPeers = some relay ∧
    ∃ s out, translate "int" id .empty relay = some (s, out) ∧ ¬ Faithful s out := by
  refine ⟨by decide +kernel, ?_⟩
  have shared : ∀ result ∈ translate "int" id .empty relay, ∃ q ∈ result.2, ∃ r ∈ result.2,
      q.1.texts ≠ r.1.texts ∧ q.2 = r.2 := by
    decide +kernel
  have returns : (translate "int" id .empty relay).isSome := by decide +kernel
  obtain ⟨⟨s, out⟩, translated⟩ := isSome_iff_exists.mp returns
  obtain ⟨q, mem, r, mem', differ, same⟩ := shared _ translated
  exact ⟨s, out, translated, fun faithful => faithful.apart q mem r mem' differ same⟩

/-- Without the process in the middle. -/
def direct : ProcessCollection String where
  name := "direct"
  models := []
  environment := [receiver [("relay/source", ["emit"])]]
  entry := some (signalling "source" [("emit", .dispatch false, "struct data *")] (.ofList [("relay/sink", ["emit"])]))
  attributes := .empty
  models_sorted := sorted_nil
  environment_sorted := by decide +kernel
  disjoint := nofun

theorem direct_faithful : direct.establishPeers = some direct ∧
    ∃ s out, translate "int" id .empty direct = some (s, out) ∧ Faithful s out := by
  refine ⟨by decide +kernel, ?_⟩
  have returns : (translate "int" id .empty direct).isSome := by decide +kernel
  have separate : ∀ rs ∈ (automata direct).bind (requests id), Separate rs := by decide +kernel
  obtain ⟨⟨s, out⟩, translated⟩ := isSome_iff_exists.mp returns
  obtain ⟨as, rs, instances, asked, faithful⟩ := translate_faithful_iff translated
  exact ⟨s, out, translated, faithful.mpr (separate rs (by rw [instances]; exact asked))⟩


end Klever.Emg.Collection.Signals
