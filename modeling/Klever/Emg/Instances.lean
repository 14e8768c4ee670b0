import Klever.Lib.Dict
import Klever.Lib.Except

/-!
# Instances of processes

A process of the linuxModule generator calls callbacks through accesses. The generator copies the process several times and
chooses an implementation for each access of each copy. Containers whose values are base values of other implementations are
chosen first: a greedy search takes enough of them to meet all values of their fields (`reduced_covers`). Then accesses are
visited one by one; each map gets a value whose base value it has already, and additional maps are copied if there are several
such values.
-/

namespace Klever.Emg.Instances

open Klever.Lib List

/-! ## Interfaces and their implementations -/

inductive Kind where
  | container
  | resource
  | callback
  deriving DecidableEq, Repr

/-- A step from a global variable to an implementation. -/
inductive Step where
  | field (name : String)
  | index (number : Nat)
  deriving DecidableEq, Repr

def Step.isIndex : Step → Bool
  | .field _ => false
  | .index _ => true

structure Implementation where
  value : String
  baseValue : Option String
  sequence : List Step
  deriving DecidableEq, Repr

structure Interface where
  kind : Kind
  implementations : List Implementation
  /-- The container that the interface is a field or an element of. -/
  container : Option String

/-- Accesses of a process with identifiers of their interfaces, and the collection of interfaces. -/
structure Table where
  accesses : Dict String (List String)
  interface : String → Interface

/-- The loop that starts comparison of two sequences: whether there is the same index after the same fields. -/
def sameItem : List Step → List Step → Bool
  | a :: as, b :: bs => if a ≠ b then false else if a.isIndex then true else sameItem as bs
  | _, _ => false

/-- `_from_same_container` -/
def fromSameContainer (a b : Implementation) : Bool :=
  if a.sequence.any Step.isIndex then
    a.baseValue.isSome && a.baseValue = b.baseValue && 1 < min a.sequence.length b.sequence.length &&
      sameItem a.sequence b.sequence
  else
    a.baseValue.isSome && (a.baseValue = b.baseValue || (b.baseValue.isNone && a.baseValue = some b.value))

/-! ## Dependencies -/

section Extract

variable (table : Table)

/-- Accesses with interfaces in the order of visiting. -/
def pairs : List (String × String) := table.accesses.items.flatMap fun (expression, interfaces) =>
  interfaces.map (expression, ·)

/-- Implementations in the order of visiting, together with their interfaces. -/
def visited : List (String × Implementation) :=
  (pairs table).flatMap fun (_, interface) => (table.interface interface).implementations.map (interface, ·)

/-- Values of an interface with their base values. -/
def valuesOf (implementations : List Implementation) : Dict String (List String) :=
  implementations.foldl (fun values implementation =>
    let bases := (values.get? implementation.value).getD []
    values.set implementation.value <|
      match implementation.baseValue with
      | some base => if base ∈ bases then bases else bases ++ [base]
      | none => bases) .empty

/-- `value_to_implementation`: the last one of implementations with the same value stays. -/
def valueToImplementation : Dict String Implementation :=
  Dict.ofList ((visited table).map fun (_, implementation) => (implementation.value, implementation))

/-- `basevalue_to_value` -/
def basevalueToValue (base : String) : List String :=
  ((visited table).filter (·.2.baseValue = some base)).map (·.2.value)

/-- `basevalue_to_interface` -/
def basevalueToInterface (base : String) : List String :=
  ((visited table).filter (·.2.baseValue = some base)).map (·.1)

/-- `options_interfaces`: they have values without base values. -/
def optionsInterfaces : List String :=
  (((visited table).filter (·.2.baseValue = none)).map (·.1)).dedup.insertionSort (· ≤ ·)

variable (container : String)

/-- Values of a container that are base values. -/
def originalOptions : List String :=
  (valuesOf (table.interface container).implementations).keys.filter (basevalueToValue table · ≠ [])

/-- Options with more values go first. -/
def sortedOptions : List String :=
  ((originalOptions table container).insertionSort (· ≤ ·)).insertionSort
    fun a b => (basevalueToValue table b).length ≤ (basevalueToValue table a).length

def summaryValues : List String := (originalOptions table container).flatMap (basevalueToValue table)

def summaryInterfaces : List String :=
  (originalOptions table container).flatMap (basevalueToInterface table)

/-- The number of different elements. -/
def size (values : List String) : Nat := values.dedup.length

/-- The greedy loop: an option is added for the greatest value that is not there yet. There is no result if no option has the
value. -/
def cover (container : String) : Nat → List String → List String → List String → Option (List String)
  | fuel, fulfilledValues, fulfilledInterfaces, finalSet =>
    match ((summaryValues table container).filter (· ∉ fulfilledValues)).max? with
    | none => some finalSet
    | some value =>
      if size fulfilledValues ≠ size (summaryValues table container) ∨
          size fulfilledInterfaces ≠ size (summaryInterfaces table container) then
        match fuel, (sortedOptions table container).find? (value ∈ basevalueToValue table ·) with
        | fuel + 1, some option => cover container fuel (fulfilledValues ++ basevalueToValue table option)
            (fulfilledInterfaces ++ basevalueToInterface table option) (finalSet ++ [option])
        | _, _ => none
      else some finalSet

/-- Chosen values of a container. Each turn of the loop meets one more value at least. -/
def finalSet : Option (List String) :=
  cover table container (summaryValues table container).length [] [] []

/-- What is found out on implementations of accesses. -/
structure Deps where
  interfaceToValue : String → Dict String (List String)
  valueToImplementation : Dict String Implementation
  basevalueToValue : String → List String
  interfaceToExpression : Dict String String
  finalOptions : List String

/-- An interface has base values without base values of their own. -/
def Bases (interface : String) : Prop := interface ∈ optionsInterfaces table ∧ originalOptions table interface ≠ []

instance (interface : String) : Decidable (Bases table interface) := inferInstanceAs (Decidable (_ ∧ _))

/-- Values of an interface; those of containers are reduced, but values with base values are kept anyway. -/
def reduced (interface : String) : Option (Dict String (List String)) :=
  let values := valuesOf (table.interface interface).implementations
  if Bases table interface then do
    let final ← finalSet table interface
    return ⟨values.items.filter fun (value, bases) => value ∈ final ∨ bases ≠ [], values.nodup.sublist
      (Sublist.map _ filter_sublist)⟩
  else some values

/-- `containers_impacts` -/
def impact : Nat := ((finalSet table container).map size).getD 0

/-- `_extract_implementation_dependencies` -/
def extractImplementationDependencies : Option Deps := do
  let values ← (pairs table).mapM fun (_, interface) => (reduced table interface).map (interface, ·)
  let interfaceToValue := Dict.ofList values
  let options := (optionsInterfaces table).filter fun interface =>
    ((interfaceToValue.get? interface).getD .empty).keys.any (basevalueToValue table · ≠ [])
  return {
    interfaceToValue := fun interface => (interfaceToValue.get? interface).getD .empty
    valueToImplementation := valueToImplementation table
    basevalueToValue := basevalueToValue table
    interfaceToExpression := Dict.ofList ((pairs table).map Prod.swap)
    finalOptions := options.insertionSort fun a b => impact table b ≤ impact table a }

end Extract

/-! ## Chosen containers -/

section Cover

variable {table : Table} {container : String} {values interfaces chosen : List String} {fuel : Nat}

theorem mem_sortedOptions {option : String} :
    option ∈ sortedOptions table container ↔ option ∈ originalOptions table container := by
  rw [sortedOptions, mem_insertionSort, mem_insertionSort]

/-- Chosen options of a container have certain values. -/
structure Meets (table : Table) (container : String) (values chosen : List String) : Prop where
  options : chosen ⊆ originalOptions table container
  met : ∀ value ∈ values, ∃ option ∈ chosen, value ∈ basevalueToValue table option

namespace Meets

variable (meets : Meets table container values chosen)

include meets

/-- Sizes of sets are the same only if all values are met. -/
theorem size_ne {value : String} (mem : value ∈ summaryValues table container) (new : value ∉ values) :
    size values ≠ size (summaryValues table container) := by
  intro same
  have known : values.dedup ⊆ (summaryValues table container).dedup := by
    intro v h
    obtain ⟨option, own, has⟩ := meets.met v (mem_dedup.mp h)
    exact mem_dedup.mpr (mem_flatMap.mpr ⟨option, meets.options own, has⟩)
  have all := ((nodup_dedup values).subperm known).perm_of_length_le same.ge
  exact new (mem_dedup.mp (all.mem_iff.mpr (mem_dedup.mpr mem)))

theorem add {option : String} (own : option ∈ originalOptions table container) :
    Meets table container (values ++ basevalueToValue table option) (chosen ++ [option]) := by
  refine ⟨append_subset.mpr ⟨meets.options, by simpa⟩, forall_mem_append.mpr ⟨fun value mem => ?_, fun value mem => ?_⟩⟩
  · obtain ⟨other, known, has⟩ := meets.met value mem
    exact ⟨other, mem_append_left _ known, has⟩
  · exact ⟨option, by simp, mem⟩

/-- Each turn of the loop meets one more value, so there are enough of them. -/
theorem cover (enough : ((summaryValues table container).filter (· ∉ values)).length ≤ fuel) :
    ∃ final, cover table container fuel values interfaces chosen = some final ∧
      Meets table container (summaryValues table container) final := by
  fun_induction Instances.cover table container fuel values interfaces chosen with
  | case1 fuel values interfaces chosen next =>
    refine ⟨chosen, rfl, meets.options, fun value mem => meets.met value ?_⟩
    simpa using filter_eq_nil_iff.mp (max?_eq_none_iff.mp next) value mem
  | case2 values interfaces chosen value next _ fuel option found ih =>
    have own : option ∈ originalOptions table container := mem_sortedOptions.mp (mem_of_find?_eq_some found)
    refine ih (meets.add own) (Nat.lt_succ_iff.mp (lt_of_lt_of_le ?_ enough))
    have fewer : (summaryValues table container).filter (· ∉ values ++ basevalueToValue table option) =
        ((summaryValues table container).filter (· ∉ values)).filter (· ∉ basevalueToValue table option) := by
      simp [filter_filter, Bool.and_comm]
    rw [fewer, length_filter_lt_length_iff_exists]
    exact ⟨value, max?_mem next, by simpa using find?_some found⟩
  | case3 fuel values interfaces chosen value next _ stuck =>
    obtain ⟨option, own, has⟩ := mem_flatMap.mp (mem_filter.mp (max?_mem next)).1
    have known : ((sortedOptions table container).find? (value ∈ basevalueToValue table ·)).isSome :=
      find?_isSome.mpr ⟨option, mem_sortedOptions.mpr own, decide_eq_true has⟩
    obtain ⟨left, rfl⟩ := Nat.exists_eq_succ_of_ne_zero (length_pos_of_mem (max?_mem next) |>.trans_le enough).ne'
    exact (stuck left _ rfl (Option.some_get known).symm).elim
  | case4 fuel values interfaces chosen value next same =>
    obtain ⟨mem, new⟩ := mem_filter.mp (max?_mem next)
    exact absurd (.inl (meets.size_ne mem (of_decide_eq_true new))) same

end Meets

/-- The greedy loop gets to its end: all values of options belong to chosen ones, and nothing else is chosen except values
with base values of their own. -/
theorem reduced_covers (bases : Bases table container) : ∃ selected, reduced table container = some selected ∧
    (∀ option ∈ originalOptions table container, ∀ value ∈ basevalueToValue table option,
      ∃ chosen ∈ selected.keys, value ∈ basevalueToValue table chosen) ∧
    ∀ chosen ∈ selected.keys, chosen ∈ originalOptions table container ∨
      ∃ bases, (valuesOf (table.interface container).implementations).get? chosen = some bases ∧ bases ≠ [] := by
  have start : Meets table container [] [] := ⟨nil_subset _, fun _ mem => absurd mem not_mem_nil⟩
  obtain ⟨final, is, meets⟩ := start.cover (length_filter_le ..)
  rw [reduced, if_pos bases, finalSet, is]
  refine ⟨_, rfl, ?_⟩
  simp only [Dict.keys, mem_map, mem_filter, decide_eq_true_eq, Prod.exists, exists_and_right, exists_eq_right,
    Dict.mem_items_iff]
  constructor
  · intro option own value has
    obtain ⟨chosen, mem, has'⟩ := meets.met value (mem_flatMap.mpr ⟨option, own, has⟩)
    obtain ⟨bases, found⟩ := Dict.mem_keys_iff.mp (mem_filter.mp (meets.options mem)).1
    exact ⟨chosen, ⟨bases, found, .inl mem⟩, has'⟩
  · rintro chosen ⟨bases, found, why⟩
    exact why.imp (meets.options ·) fun nonempty => ⟨bases, found, nonempty⟩

/-- One of two structures has all callbacks of the other one. -/
def drivers : Table where
  accesses := .ofList [("%driver%", ["driver"]), ("%driver.probe%", ["probe"])]
  interface
    | "driver" => ⟨.container, [⟨"first", none, []⟩, ⟨"second", none, []⟩], none⟩
    | _ => ⟨.callback, [⟨"attach", some "first", []⟩, ⟨"attach", some "second", []⟩], some "driver"⟩

theorem drivers_cover : Bases drivers "driver" ∧ ∃ selected, reduced drivers "driver" = some selected ∧
    ∃ chosen ∈ selected.keys, "attach" ∈ basevalueToValue drivers chosen := by
  have bases : Bases drivers "driver" := by decide +kernel
  obtain ⟨selected, is, covers, -⟩ := reduced_covers bases
  exact ⟨bases, selected, is, covers "first" (by decide +kernel) "attach" (by decide +kernel)⟩

end Cover

/-! ## Maps -/

/-- An implementation that is chosen. Implementations are compared as objects, and copies of maps have copies of them. -/
structure Chosen where
  implementation : Implementation
  copied : Bool
  deriving DecidableEq, Repr

/-- A map from accesses to chosen implementations, and chosen values. -/
structure Map where
  map : Dict (String × String) (Option Chosen)
  chosenValues : List String

def Map.get (map : Map) (access : String × String) : Option Chosen := (map.map.get? access).join

/-- `copy.deepcopy` -/
def Map.deepcopy (map : Map) : Map :=
  { map with map := map.map.mapVals fun _ chosen => chosen.map ({ · with copied := true }) }

/-- Whether two maps are equal dictionaries; copies of implementations differ from originals and from other copies. -/
def Map.same (a b : Map) : Bool := a.map = b.map && a.map.values.all fun chosen => !(chosen.map (·.copied)).getD false

section Split

variable (table : Table) (deps : Deps)

/-- Nothing is chosen yet. -/
def prototype : Dict (String × String) (Option Chosen) := Dict.ofList ((pairs table).map (·, none))

/-- Values of a container that do not depend on other ones. -/
def options (interface : String) : List String :=
  ((deps.interfaceToValue interface).items.filter (·.2 = [])).map Prod.fst |>.insertionSort (· ≤ ·)

/-- The map of base values with a number: options are taken in turn. -/
def baseMap (number : Nat) : Option Map :=
  deps.finalOptions.foldlM (fun map interface => do
    let expression ← deps.interfaceToExpression.get? interface
    let value ← (options deps interface)[number % (options deps interface).length]?
    let implementation ← deps.valueToImplementation.get? value
    return ⟨map.map.set (expression, interface) (some ⟨implementation, false⟩), map.chosenValues.insert value⟩)
    ⟨prototype table, []⟩

/-- Maps with base values only. -/
def baseMaps : Option (List Map) :=
  match deps.finalOptions with
  | [] => some [⟨prototype table, []⟩]
  | first :: _ => (List.range (deps.interfaceToValue first).items.length).mapM (baseMap table deps)

/-- `maps` and `intf_additional_maps` with `total_chosen_values`. -/
structure State where
  maps : List Map
  additional : List Map
  total : List String

/-- A value suits a map if its base value is chosen; containers that no access has are hidden, and another hidden container
suits as well. -/
def suits (interface : String) (map : Map) (value : String) : Bool :=
  let bases := ((deps.interfaceToValue interface).get? value).getD []
  bases = [] || bases.any (· ∈ map.chosenValues) ||
    bases.any fun base => base ∉ deps.valueToImplementation.keys && base ∉ map.chosenValues

/-- Values for an access of a map: those that have not been chosen yet, or the last one. -/
def suitable (interface : String) (map : Map) (total : List String) : List String :=
  let values := (deps.interfaceToValue interface).keys.filter (suits deps interface map)
  let strict := values.filter (· ∉ total)
  if strict ≠ [] then strict.insertionSort (· ≤ ·) else (values.insertionSort (· ≤ ·)).getLast?.toList

/-- What is left if there are several values. -/
def narrow (resourceNewInsts : Nat) (interface : String) (total values : List String) : List String :=
  match (table.interface interface).kind with
  | .resource => if 0 < resourceNewInsts then values.take resourceNewInsts else values.filter (· ∉ total)
  | .container => values.filter (deps.basevalueToValue · ≠ [])
  | .callback => values.filter (· ∉ total)

/-- The first map without the access that has an implementation from the same container and is not added yet. -/
def findMap (maps : List Map) (access : String × String) (implementation : Implementation) (added : List Nat) : Option Nat :=
  (List.range maps.length).find? fun number => match maps[number]? with
    | none => false
    | some map => (map.get access).isNone &&
      added.all (fun other => number ≠ other && !((maps[other]?.map map.same).getD false)) &&
      map.map.items.any fun (key, chosen) => key.2 ≠ access.2 && (chosen.map fun chosen =>
        chosen.implementation.baseValue.isSome && fromSameContainer implementation chosen.implementation).getD false

/-- `_match_array_maps`: numbers of maps for values, and numbers of maps that are added. -/
def matchArrayMaps (maps : List Map) (access : String × String) (values : List String) : List (String × Option Nat) :=
  (values.foldl (fun (found, added) value =>
    match deps.valueToImplementation.get? value with
    | none => (found ++ [(value, none)], added)
    | some implementation =>
      if ((deps.interfaceToValue access.2).get? value).getD [] = [] then (found ++ [(value, none)], added)
      else
        let number := findMap maps access implementation added
        (found ++ [(value, number)], added ++ number.toList)) ([], [])).1

/-- `_add_value`: the value and one of hidden containers that it comes from. -/
def addedValues (interface value : String) : List String :=
  value :: ((((deps.interfaceToValue interface).get? value).getD []).filter (· ∉ deps.valueToImplementation.keys)).max?.toList

/-- A map gets a value for an access. -/
def Map.assign (map : Map) (access : String × String) (implementation : Implementation) (values : List String) : Map :=
  ⟨map.map.set access (some ⟨implementation, false⟩), map.chosenValues ∪ values⟩

/-- A turn of the loop of `_fulfil_map`: a value goes to the map that it matches, to the map under consideration if it has not
been reused, or to a copy of the latter one. -/
def fulfilOne (access : String × String) (number : Nat) (state : State × Bool) (item : String × Option Nat) :
    Option (State × Bool) := do
  let implementation ← deps.valueToImplementation.get? item.1
  let values := addedValues deps access.2 item.1
  let assign (map : Map) := map.assign access implementation values
  let total := state.1.total ∪ values
  match item.2, state.2 with
  | some found, reuse => return ({ state.1 with maps := state.1.maps.modify found assign, total }, reuse)
  | none, true => return ({ state.1 with maps := state.1.maps.modify number assign, total }, false)
  | none, false => do
    let first ← state.1.maps[number]?
    return ({ state.1 with additional := state.1.additional ++ [assign first.deepcopy], total }, false)

/-- `_fulfil_map` -/
def fulfilMap (access : String × String) (number : Nat) (state : State) (valueMap : List (String × Option Nat)) :
    Option State :=
  (valueMap.foldlM (fulfilOne deps access number) (state, true)).map Prod.fst

/-- An access of one of maps gets a value. -/
def visitMap (resourceNewInsts : Nat) (access : String × String) (state : State) (number : Nat) : Option State := do
  let map ← state.maps[number]?
  if (map.get access).isSome then return state
  else
    match suitable deps access.2 map state.total with
    | [] => return state
    | [value] => do
      let implementation ← deps.valueToImplementation.get? value
      return { state with
        maps := state.maps.modify number (·.assign access implementation [value])
        total := state.total ∪ [value] }
    | values =>
      let values := narrow table deps resourceNewInsts access.2 state.total values
      fulfilMap deps access number state (matchArrayMaps deps state.maps access values)

/-- An access of all maps. If there are no base values, the first map is the prototype itself; removing an implementation from
a set of values would fail then. -/
def visitAccess (resourceNewInsts : Nat) (state : State) (access : String × String) : Option State := do
  let first ← state.maps.head?
  if deps.finalOptions = [] ∧ (first.get access).isSome ∧ (deps.interfaceToValue access.2).values.any (· ≠ []) then none
  else
    let state ← (List.range state.maps.length).foldlM (visitMap table deps resourceNewInsts access) state
    return ⟨state.maps ++ state.additional, [], state.total⟩

end Split

/-- Maps of `_split_into_instances` that the analysis gives. -/
def completeMaps (table : Table) (resourceNewInsts : Nat) : Option (List Map) := do
  let deps ← extractImplementationDependencies table
  let maps ← baseMaps table deps
  let total := maps.flatMap Map.chosenValues
  let state ← (prototype table).keys.foldlM (visitAccess table deps resourceNewInsts) ⟨maps, [], total⟩
  return state.maps

/-- Values of an instance map given by a user: for each access there may be a value. -/
abbrev GivenMap := Dict (String × String) (Option String)

/-- What an access of an instance gets: an implementation, nothing or, to avoid calls by pointers, an empty string. -/
inductive Allowed where
  | implementation (implementation : Implementation)
  | empty
  | missing
  deriving DecidableEq, Repr

/-- An instance map given by a user. Values that the analysis has not found are looked up in the collection of interfaces. -/
def givenMap (found : Dict String Implementation) (lookup : String → String → Option Implementation) (complete : Option Map)
    (given : GivenMap) : Option (Dict (String × String) Allowed) := do
  let items ← given.items.mapM fun (access, value) => do
    match value with
    | some value =>
      let implementation ← found.get? value <|> lookup value access.2
      return (access, .implementation implementation)
    | none =>
      let chosen ← (← complete).map.get? access
      return (access, if chosen.isSome then .empty else .missing)
  return Dict.ofList items

/-- `_split_into_instances`: access maps for copies of the process. -/
def splitIntoInstances (table : Table) (resourceNewInsts : Nat) (lookup : String → String → Option Implementation)
    (simplifiedMap : Option (List GivenMap)) : Option (List (Dict (String × String) Allowed)) := do
  let maps ← completeMaps table resourceNewInsts
  match simplifiedMap with
  | some given => given.zipIdx.mapM fun (given, number) => givenMap (valueToImplementation table) lookup maps[number]? given
  | none => return maps.map fun map => map.map.mapVals fun _ chosen =>
    (chosen.map fun chosen => .implementation chosen.implementation).getD .missing

end Klever.Emg.Instances
