import Klever.Emg.Collection
import Klever.Lib.Antichain

/-!
# Names of models

A model is named by the scenarios that it is made of: attributes are printed in the order of their processes, and
punctuation marks and blanks become underscores. The factory does not yield models whose names it has met already. Texts that
differ in punctuation marks only give one name, so a model with another combination of scenarios may be lost.

`_supersede_models` drops batches whose choices other batches make as well. Names are sorted by the numbers of choices, and
each batch is compared just with those that have been selected before it: since they do not have fewer choices, a selected
batch that is contained in it has the same choices.
-/

namespace Klever.Emg.Collection

open Klever.Lib List

/-- `string.punctuation` and the blank, the keys of `remove_punctuation_map` -/
def punctuation : List Char := " !\"#$%&'()*+,-./:;<=>?@[\\]^_`\x7b|\x7d~".toList

/-- The attributes as they are printed, or the name if there are none. -/
def printAttributes (name : String) (attributes : Dict String String) : String :=
  if attributes.items.isEmpty then name
  else ", ".intercalate ((attributes.keys.insertionSort (· ≤ ·)).map fun p => p ++ ":" ++ (attributes.get? p).getD "")

/-- `attributed_name` -/
def attributedNameOf (name : String) (attributes : Dict String String) : String :=
  .ofList ((printAttributes name attributes).toList.map fun c => if c ∈ punctuation then '_' else c)

/-! ## Models that are yielded once -/

section Yield

variable {D : Type} {models : List (ProcessCollection D)} {model : ProcessCollection D}

namespace ProcessCollection

@[inherit_doc attributedNameOf]
def attributedName (c : ProcessCollection D) : String := attributedNameOf c.name c.attributes

/-- What is printed differs in punctuation marks and blanks only. -/
def PrintedAlike (c d : ProcessCollection D) : Prop :=
  Forall₂ (fun x y => x = y ∨ x ∈ punctuation ∧ y ∈ punctuation) (printAttributes c.name c.attributes).toList
    (printAttributes d.name d.attributes).toList

/-- The same map from processes to names of scenarios. -/
def SameAttributes (c d : ProcessCollection D) : Prop := ∀ p, c.attributes.get? p = d.attributes.get? p

end ProcessCollection

open ProcessCollection

/-- `_cached_yield`: the cache and the models that are yielded. -/
def cachedYield (models : List (ProcessCollection D)) : List String × List (ProcessCollection D) :=
  models.foldl (fun (cache, yielded) model =>
    if model.attributedName ∉ cache then (model.attributedName :: cache, yielded ++ [model]) else (cache, yielded)) ([], [])

/-- A model is dropped only if an earlier one has its attributes, so each combination is yielded, and names differ. -/
structure Distinguished (models : List (ProcessCollection D)) : Prop where
  dropped : ∀ before model after, models = before ++ model :: after →
    (cachedYield (before ++ [model])).2 = (cachedYield before).2 → ∃ earlier ∈ before, earlier.SameAttributes model
  yielded : ∀ model ∈ models, ∃ other ∈ (cachedYield models).2, other.SameAttributes model
  names : ((cachedYield models).2.map attributedName).Nodup

/-- A model that is printed like an earlier one has the attributes of an earlier one. -/
def Distinguishable (models : List (ProcessCollection D)) : Prop :=
  ∀ before model after, models = before ++ model :: after → (∃ earlier ∈ before, earlier.PrintedAlike model) →
    ∃ earlier ∈ before, earlier.SameAttributes model

theorem attributedName_eq_iff {c d : ProcessCollection D} : c.attributedName = d.attributedName ↔ c.PrintedAlike d := by
  have mark (x y : Char) : (if x ∈ punctuation then '_' else x) = (if y ∈ punctuation then '_' else y) ↔
      x = y ∨ x ∈ punctuation ∧ y ∈ punctuation := by
    have underscore : '_' ∈ punctuation := by decide
    split <;> split <;> grind
  unfold attributedName attributedNameOf
  rw [String.ofList_inj, ← forall₂_eq_eq_eq, forall₂_map_left_iff, forall₂_map_right_iff]
  simp only [mark, PrintedAlike]

theorem cachedYield_append : cachedYield (models ++ [model]) =
    if model.attributedName ∉ (cachedYield models).1 then
      (model.attributedName :: (cachedYield models).1, (cachedYield models).2 ++ [model])
    else cachedYield models := by
  simp [cachedYield]

/-- The cache has the names of all models, and the yielded ones are named in its order. -/
theorem cachedYield_names (models : List (ProcessCollection D)) :
    (∀ name, name ∈ (cachedYield models).1 ↔ ∃ model ∈ models, model.attributedName = name) ∧
      (cachedYield models).1.Nodup ∧ (cachedYield models).2.map attributedName = (cachedYield models).1.reverse := by
  induction models using List.reverseRecOn with
  | nil => simp [cachedYield]
  | append_singleton before model ih =>
    obtain ⟨names, nodup, same⟩ := ih
    rw [cachedYield_append]
    split
    next new =>
      refine ⟨fun name => ?_, nodup_cons.mpr ⟨new, nodup⟩, by simp [same]⟩
      simp [names, or_comm, eq_comm]
    next old =>
      refine ⟨fun name => (names name).trans ?_, nodup, same⟩
      simpa [or_iff_left_iff_imp] using fun is : model.attributedName = name => (names name).mp (is ▸ not_not.mp old)

/-- A model is dropped if and only if an earlier one is printed alike. -/
theorem cachedYield_dropped_iff : (cachedYield (models ++ [model])).2 = (cachedYield models).2 ↔
    ∃ earlier ∈ models, earlier.PrintedAlike model := by
  simp only [← attributedName_eq_iff]
  rw [← (cachedYield_names models).1, cachedYield_append]
  split
  next new => simp [new]
  next old => simpa using old

/-- Whatever stands for a dropped model has come before it. -/
theorem Distinguishable.yielded (ok : Distinguishable models) :
    ∀ model ∈ models, ∃ other ∈ (cachedYield models).2, other.SameAttributes model := by
  induction models using List.reverseRecOn with
  | nil => exact fun _ mem => absurd mem not_mem_nil
  | append_singleton before last ih =>
    have old := ih fun front model back split => ok front model (back ++ [last]) (by simp [split])
    have here := ok before last [] rfl
    rw [← cachedYield_dropped_iff, cachedYield_append] at here
    rw [cachedYield_append, forall_mem_append, forall_mem_singleton]
    split
    next =>
      refine ⟨fun model mem => ?_, last, mem_append_right _ (mem_singleton_self _), fun _ => rfl⟩
      obtain ⟨other, yielded, same⟩ := old model mem
      exact ⟨other, mem_append_left _ yielded, same⟩
    next cached =>
      refine ⟨old, ?_⟩
      obtain ⟨earlier, mem, same⟩ := here (by rw [if_neg cached])
      obtain ⟨other, yielded, same'⟩ := old earlier mem
      exact ⟨other, yielded, fun p => (same' p).trans (same p)⟩

/-- Nothing is lost if and only if each model that is printed like an earlier one has the attributes of an earlier one. -/
theorem distinguished_iff : Distinguished models ↔ Distinguishable models := by
  constructor
  · intro ok before model after split alike
    exact ok.dropped before model after split (cachedYield_dropped_iff.mpr alike)
  · intro ok
    obtain ⟨-, nodup, same⟩ := cachedYield_names models
    refine ⟨fun before model after split dropped => ?_, ok.yielded, same ▸ nodup_reverse.mpr nodup⟩
    exact ok before model after split (cachedYield_dropped_iff.mp dropped)

/-- A model for a savepoint of one process. -/
def savepointModel (savepoint : String) : ProcessCollection String where
  name := savepoint
  models := []
  environment := []
  entry := none
  attributes := .ofList [("c/p", savepoint)]
  models_sorted := .nil
  environment_sorted := .nil
  disjoint := fun _ mem => absurd mem not_mem_nil

/-- Of two savepoints whose names differ in a punctuation mark one is lost. -/
theorem savepointModel_lost : ¬ Distinguished [savepointModel "s.1", savepointModel "s-1"] := by
  intro distinguished
  have dropped : (cachedYield [savepointModel "s.1", savepointModel "s-1"]).2 =
      (cachedYield [savepointModel "s.1"]).2 := by
    have same : (savepointModel "s-1").attributedName = (savepointModel "s.1").attributedName := by decide +kernel
    simp [cachedYield, same]
  obtain ⟨earlier, mem, same⟩ := distinguished.dropped [savepointModel "s.1"] (savepointModel "s-1") [] rfl dropped
  cases mem_singleton.mp mem
  have differs : (savepointModel "s.1").attributes.get? "c/p" ≠ (savepointModel "s-1").attributes.get? "c/p" := by decide
  exact differs (same "c/p")

end Yield

/-! ## Batches that are superseded -/

/-- `ScenarioCollection`, as far as its name depends on it. -/
structure ScenarioCollection where
  name : String
  /-- scenarios of processes -/
  attributes : Dict String String
  deriving DecidableEq

namespace ScenarioCollection

variable (batch : ScenarioCollection)

@[inherit_doc attributedNameOf]
def attributedName : String := attributedNameOf batch.name batch.attributes

/-- The attributes except removed processes. -/
def choices : Dict String String := batch.attributes.filter fun _ scenario => scenario ≠ removedAttribute

end ScenarioCollection

/-- The loop over `my_attrs`: does the other one make the same choices? -/
def isContained (mine others : Dict String String) : Bool :=
  mine.items.all fun (key, scenario) => others.get? key = some scenario

/-- `_supersede_models`; the second components are related processes. -/
def supersedeModels (models : List (ScenarioCollection × Option String)) : List (ScenarioCollection × Option String) :=
  let modelAttributes := Dict.ofList (models.map fun m => (m.1.attributedName, m.1.choices))
  let choices (name : String) : Dict String String := (modelAttributes.get? name).getD .empty
  let sortedNames := modelAttributes.keys.insertionSort fun x y => (choices y).items.length ≤ (choices x).items.length
  let selected := chooseMaximal (fun name accepted => isContained (choices name) (choices accepted)) [] sortedNames
  models.filter fun m => m.1.attributedName ∈ selected

variable {d e : Dict String String}

theorem isContained_iff : isContained d e = true ↔ ∀ p s, d.get? p = some s → e.get? p = some s := by
  simp [isContained, Dict.mem_items_iff]

theorem isContained_refl (d : Dict String String) : isContained d d = true :=
  isContained_iff.mpr fun _ _ found => found

/-- Choices that are all made by a batch with no more choices are all that it makes. -/
theorem isContained_symm (le : e.items.length ≤ d.items.length) (contained : isContained d e) : isContained e d := by
  have sub : d.items ⊆ e.items := by
    intro item mem
    exact Dict.mem_items_iff.mpr (isContained_iff.mp contained _ _ (Dict.mem_items_iff.mp mem))
  have perm := (subperm_of_subset (Nodup.of_map _ d.nodup) sub).perm_of_length_le le
  rw [isContained_iff]
  intro p s found
  exact Dict.mem_items_iff.mp (perm.mem_iff.mpr (Dict.mem_items_iff.mpr found))

/-- In the order of the numbers of choices, no name is contained in a later one only. -/
theorem pairwise_sortedNames (choices : String → Dict String String) (names : List String) :
    (names.insertionSort fun x y => (choices y).items.length ≤ (choices x).items.length).Pairwise fun x y =>
      isContained (choices x) (choices y) → isContained (choices y) (choices x) := by
  let more (x y : String) : Prop := (choices y).items.length ≤ (choices x).items.length
  have : Std.Total more := ⟨fun x y => Nat.le_total _ _⟩
  have : IsTrans String more := ⟨fun x y z le le' => le'.trans le⟩
  exact (pairwise_insertionSort more names).imp fun le => isContained_symm le

variable {models : List (ScenarioCollection × Option String)}

/-- What the loop works with, and what it keeps of it: the names that it selects are those of batches that no other selected
one contains, and each batch is contained in a selected one. -/
theorem exists_selected (names : (models.map fun m => m.1.attributedName).Nodup) : ∃ selected : List String,
    supersedeModels models = models.filter (fun m => m.1.attributedName ∈ selected) ∧
      (∀ m ∈ models, ∃ m' ∈ models, m'.1.attributedName ∈ selected ∧ isContained m.1.choices m'.1.choices) ∧
      ∀ m ∈ models, ∀ m' ∈ models, m.1.attributedName ∈ selected → m'.1.attributedName ∈ selected →
        isContained m.1.choices m'.1.choices → m.1.attributedName = m'.1.attributedName := by
  have nodup : ((models.map fun m => (m.1.attributedName, m.1.choices)).map Prod.fst).Nodup := by
    rwa [map_map]
  refine ⟨_, rfl, ?_⟩
  set modelAttributes := Dict.ofList (models.map fun m => (m.1.attributedName, m.1.choices)) with is
  set choices := fun name => (modelAttributes.get? name).getD .empty with choices_is
  have own (m) (mem : m ∈ models) : choices m.1.attributedName = m.1.choices := by
    simp [choices_is, is, (Dict.get?_ofList nodup).mpr (mem_map_of_mem mem)]
  have sorted := pairwise_sortedNames choices modelAttributes.keys
  have known (x) : x ∈ modelAttributes.keys.insertionSort (fun x y => (choices y).items.length ≤ (choices x).items.length) ↔
      ∃ m ∈ models, m.1.attributedName = x := by
    rw [mem_insertionSort, Dict.mem_keys_ofList, map_map, mem_map]
    rfl
  refine ⟨fun m mem => ?_, fun m mem m' mem' selected selected' contained => ?_⟩
  · obtain ⟨x, chosen, contained⟩ := @exists_mem_chooseMaximal _
      (fun name accepted => isContained (choices name) (choices accepted)) [] _ _ (fun x => isContained_refl (choices x))
      ((known _).mpr ⟨m, mem, rfl⟩)
    obtain ⟨m', mem', rfl⟩ := (known x).mp (chooseMaximal_subset chosen)
    rw [own m mem, own m' mem'] at contained
    exact ⟨m', mem', chosen, contained⟩
  · rw [← own m mem, ← own m' mem'] at contained
    exact chooseMaximal_antichain sorted (fun _ mem => absurd mem not_mem_nil) _ selected _ selected' contained

/-- The batches that are left keep their order, none of them is contained in another one, and each batch is contained in one
of them. -/
theorem supersedeModels_antichain (names : (models.map fun m => m.1.attributedName).Nodup) :
    (supersedeModels models).Sublist models ∧
      ((supersedeModels models).Pairwise fun m m' =>
        ¬ isContained m.1.choices m'.1.choices ∧ ¬ isContained m'.1.choices m.1.choices) ∧
      ∀ m ∈ models, ∃ m' ∈ supersedeModels models, isContained m.1.choices m'.1.choices := by
  obtain ⟨selected, is, covered, antichain⟩ := exists_selected names
  rw [is]
  refine ⟨filter_sublist, ?_, fun m mem => ?_⟩
  · refine ((pairwise_map.mp names).sublist filter_sublist).imp_of_mem fun {m m'} mem mem' differs => ?_
    obtain ⟨mem, chosen⟩ := mem_filter.mp mem
    obtain ⟨mem', chosen'⟩ := mem_filter.mp mem'
    rw [decide_eq_true_eq] at chosen chosen'
    exact ⟨fun contained => differs (antichain m mem m' mem' chosen chosen' contained),
      fun contained => differs (antichain m' mem' m mem chosen' chosen contained).symm⟩
  · obtain ⟨m', mem', chosen, contained⟩ := covered m mem
    exact ⟨m', mem_filter.mpr ⟨mem', decide_eq_true chosen⟩, contained⟩

/-- Two batches for a driver with its hub, the first one without the hub, and a batch for another scenario of the driver. -/
def threeBatches : List (ScenarioCollection × Option String) :=
  [(⟨"base", .ofList [("usb/driver", "probe"), ("usb/hub", "Removed")]⟩, none),
    (⟨"base", .ofList [("usb/driver", "probe"), ("usb/hub", "reset")]⟩, some "usb/hub"),
    (⟨"base", .ofList [("usb/driver", "remove")]⟩, none)]

theorem threeBatches_antichain : supersedeModels threeBatches = threeBatches.tail ∧
    (∀ m ∈ threeBatches, ∃ m' ∈ supersedeModels threeBatches, isContained m.1.choices m'.1.choices) := by
  have names : (threeBatches.map fun m => m.1.attributedName).Nodup := by decide +kernel
  exact ⟨by decide +kernel, (supersedeModels_antichain names).2.2⟩

end Klever.Emg.Collection
