import Klever.Emg.Instances
import Klever.Lib.Except

/-!
# The limit on instances

`_yield_instances` copies each environment process and then copies the copy once for each access map. The number of instances
that are still allowed is passed through all functions, but `_copy_process` decrements its own variable only, so the number
is always the configured one and the error is raised just if it is zero. `limit_respected_iff` says when the limit is respected
anyway.
-/

namespace Klever.Emg.Instances

open Klever.Lib List

abbrev AccessMap := Dict (String × String) Allowed

structure Process where
  category : String
  name : String
  table : Table

/-- A copy of a process. The number makes names of copies different. -/
structure Instance where
  process : Process
  allowedImplementations : Option AccessMap
  instanceNumber : Option Nat

/-- The collection of processes. -/
structure Model where
  environment : List Process
  models : List Process

structure Conf where
  maxInstancesNumber : Int
  instancesPerResourceImplementation : Nat
  getValueAsImplementation : String → String → Option Implementation

/-- Instance maps by categories and names of processes. -/
abbrev InstanceMaps := Dict (String × String) (List GivenMap)

inductive Error where
  /-- EMG tries to generate more instances than it is allowed by configuration. -/
  | tooMany
  | analysis
  deriving DecidableEq

/-- What remains after an error: copies made so far and instance maps. -/
structure Memory where
  copies : Nat
  instanceMaps : InstanceMaps

abbrev Gen := ExceptT Error (StateM Memory)

/-- `_copy_process`. The source also decrements the number, but no one reads it afterwards. -/
def copyProcess (process : Instance) (instancesLeft : Int) : Gen Instance :=
  if instancesLeft = 0 then throw .tooMany
  else do
    modify fun memory => { memory with copies := memory.copies + 1 }
    return process

/-- Access maps of a process with values instead of implementations. -/
def simplified (maps : List AccessMap) : List GivenMap :=
  maps.map fun map => map.mapVals fun _ allowed => match allowed with
    | .implementation implementation => some implementation.value
    | .empty | .missing => none

variable (conf : Conf)

/-- Access maps of a process and instance maps that remember them. -/
def accessMaps (instanceMaps : InstanceMaps) (process : Process) : Option (List AccessMap × InstanceMaps) := do
  let key := (process.category, process.name)
  let cachedMap := instanceMaps.get? key
  let maps ← splitIntoInstances process.table conf.instancesPerResourceImplementation conf.getValueAsImplementation cachedMap
  return (maps, instanceMaps.set key (cachedMap.getD (simplified maps)))

/-- A copy of each instance for an access map. -/
def copyAll (instances : List Instance) (map : AccessMap) : Gen (List Instance) :=
  instances.mapM fun process => do
    let newp ← copyProcess process conf.maxInstancesNumber
    return { newp with allowedImplementations := some map }

/-- `_fulfill_label_maps` -/
def fulfillLabelMaps (instances : List Instance) (process : Process) : Gen (List Instance) := do
  match accessMaps conf (← get).instanceMaps process with
  | none => throw .analysis
  | some (maps, instanceMaps) =>
    modify fun memory => { memory with instanceMaps }
    return (← maps.mapM (copyAll conf instances)).flatten

/-- The loop of `_yield_instances` over environment processes. -/
def environmentInstances (environment : List Process) : Gen (List Instance) := do
  let instances ← environment.mapM fun process => do
    let base ← copyProcess ⟨process, none, none⟩ conf.maxInstancesNumber
    fulfillLabelMaps conf [base] process
  return instances.flatten

/-- The loop of `_yield_instances` over models of functions. Only the first instance of a model is kept. -/
def modelInstances (models : List Process) : Gen (List Instance) := do
  let instances ← models.mapM fun process => do
    return (← fulfillLabelMaps conf [⟨process, none, none⟩] process).take 1
  return instances.flatten

/-- `_yield_instances`: instances of models and of environment processes. -/
def yieldInstances (model : Model) : Gen (List Instance × List Instance) := do
  let callbacks ← environmentInstances conf model.environment
  let models ← modelInstances conf model.models
  let number (start : Nat) (instances : List Instance) :=
    (instances.zipIdx start).map fun (process, number) => { process with instanceNumber := some number }
  return (number callbacks.length models, number 0 callbacks)

/-- The number of copies of environment processes: one for each process and one for each its access map. Processes after the
one without access maps because of an error are not copied. -/
def demand (conf : Conf) : InstanceMaps → List Process → Nat
  | _, [] => 0
  | instanceMaps, process :: rest =>
    1 + match accessMaps conf instanceMaps process with
      | none => 0
      | some (maps, instanceMaps) => maps.length + demand conf instanceMaps rest

/-- A computation ends with the error about too many instances, or at most the configured number of copies of environment
processes is made. -/
def LimitRespected (model : Model) (instanceMaps : InstanceMaps) : Prop :=
  ((yieldInstances conf model).run.run ⟨0, instanceMaps⟩).1 = .error .tooMany ∨
    (((environmentInstances conf model.environment).run.run ⟨0, instanceMaps⟩).2.copies : Int) ≤ conf.maxInstancesNumber

/-! ## Runs -/

variable {α β : Type} {x : Gen α} {f : α → Gen β}

/-- A computation does not raise the error about too many instances. -/
def Tolerant (x : Gen α) : Prop :=
  ∀ memory : Memory, (x.run.run memory).1 ≠ .error .tooMany

theorem Tolerant.bind (first : Tolerant x) (next : ∀ a, Tolerant (f a)) : Tolerant (x >>= f) := by
  intro memory
  rcases here : x.run.run memory with ⟨error | a, after⟩
  · rw [run_bind_error here]
    have kept := first memory
    rw [here] at kept
    exact fun raised => kept (congrArg Except.error (Except.error.inj raised))
  · rw [run_bind_ok here]
    exact next a after

theorem Tolerant.mapM {γ : Type} {body : γ → Gen α} (each : ∀ c, Tolerant (body c)) (cs : List γ) :
    Tolerant (cs.mapM body) := by
  induction cs with
  | nil =>
    exact fun _ => nofun
  | cons c rest ih =>
    rw [mapM_cons]
    exact (each c).bind fun _ => ih.bind fun _ _ => nofun

/-- A computation returns after it makes a number of copies. -/
def Makes (x : Gen α) (number : Nat) : Prop :=
  ∀ memory : Memory, ∃ a, x.run.run memory = (.ok a, { memory with copies := memory.copies + number })

theorem Makes.tolerant {n : Nat} (here : Makes x n) : Tolerant x := by
  intro memory
  obtain ⟨a, returned⟩ := here memory
  rw [returned]
  nofun

theorem Makes.pure (a : α) : Makes (pure a : Gen α) 0 := fun _ => ⟨a, rfl⟩

theorem Makes.bind {m n : Nat} (first : Makes x m) (next : ∀ a, Makes (f a) n) : Makes (x >>= f) (m + n) := by
  intro memory
  obtain ⟨a, here⟩ := first memory
  obtain ⟨b, later⟩ := next a { memory with copies := memory.copies + m }
  refine ⟨b, ?_⟩
  rw [run_bind_ok here, later, Nat.add_assoc]

theorem Makes.map {n : Nat} (g : α → β) (here : Makes x n) : Makes (x >>= fun a => Pure.pure (g a)) n :=
  here.bind fun a => .pure (g a)

/-- A computation for each element of a list. -/
theorem Makes.mapM {γ : Type} {body : γ → Gen α} {n : Nat} (each : ∀ c, Makes (body c) n) (cs : List γ) :
    Makes (cs.mapM body) (cs.length * n) := by
  induction cs with
  | nil =>
    rw [mapM_nil, length_nil, Nat.zero_mul]
    exact .pure []
  | cons c rest ih =>
    rw [mapM_cons, length_cons, Nat.succ_mul, Nat.add_comm]
    exact (each c).bind fun _ => ih.map _

/-! ## Copies -/

section Copies

variable {conf : Conf} (nonzero : conf.maxInstancesNumber ≠ 0)

include nonzero

theorem copyProcess_makes (process : Instance) : Makes (copyProcess process conf.maxInstancesNumber) 1 := by
  intro memory
  refine ⟨process, ?_⟩
  rw [copyProcess, if_neg nonzero]
  rfl

variable (instances : List Instance)

theorem copyAll_makes (map : AccessMap) : Makes (copyAll conf instances map) instances.length := by
  have each := Makes.mapM (fun process => (copyProcess_makes nonzero process).map
    fun newp => ({ newp with allowedImplementations := some map } : Instance)) instances
  rwa [Nat.mul_one] at each

omit nonzero in
theorem fulfillLabelMaps_none {process : Process} (memory : Memory)
    (failed : accessMaps conf memory.instanceMaps process = none) :
    (fulfillLabelMaps conf instances process).run.run memory = (.error .analysis, memory) := by
  have start : (get : Gen Memory).run.run memory = (.ok memory, memory) := rfl
  rw [fulfillLabelMaps, run_bind_ok start, failed]
  rfl

/-- `_fulfill_label_maps` makes a copy of each instance for each map. -/
theorem fulfillLabelMaps_some {process : Process} (memory : Memory) {maps : List AccessMap}
    {instanceMaps : InstanceMaps} (found : accessMaps conf memory.instanceMaps process = some (maps, instanceMaps)) :
    ∃ a, (fulfillLabelMaps conf instances process).run.run memory =
      (.ok a, ⟨memory.copies + maps.length * instances.length, instanceMaps⟩) := by
  have start : (get : Gen Memory).run.run memory = (.ok memory, memory) := rfl
  obtain ⟨a, copied⟩ := (Makes.mapM (copyAll_makes nonzero instances) maps).map List.flatten { memory with instanceMaps }
  refine ⟨a, ?_⟩
  rw [fulfillLabelMaps, run_bind_ok start, found]
  exact copied

theorem fulfillLabelMaps_tolerant (process : Process) : Tolerant (fulfillLabelMaps conf instances process) := by
  intro memory
  rcases here : accessMaps conf memory.instanceMaps process with _ | ⟨maps, instanceMaps⟩
  · rw [fulfillLabelMaps_none instances memory here]
    nofun
  · obtain ⟨a, returned⟩ := fulfillLabelMaps_some nonzero instances memory here
    rw [returned]
    nofun

theorem environmentInstances_tolerant (environment : List Process) : Tolerant (environmentInstances conf environment) := by
  apply Tolerant.bind
  · apply Tolerant.mapM
    intro process
    exact (copyProcess_makes nonzero _).tolerant.bind fun base => fulfillLabelMaps_tolerant nonzero [base] process
  · exact fun _ _ => nofun

theorem modelInstances_tolerant (models : List Process) : Tolerant (modelInstances conf models) := by
  apply Tolerant.bind
  · apply Tolerant.mapM
    intro process
    exact (fulfillLabelMaps_tolerant nonzero _ process).bind fun _ _ => nofun
  · exact fun _ _ => nofun

theorem yieldInstances_tolerant (model : Model) : Tolerant (yieldInstances conf model) := by
  apply Tolerant.bind (environmentInstances_tolerant nonzero model.environment)
  intro callbacks
  apply Tolerant.bind (modelInstances_tolerant nonzero model.models)
  exact fun _ _ => nofun

/-- Environment processes are copied as many times as they need, without any limit. -/
theorem environmentInstances_copies (environment : List Process) (memory : Memory) :
    ((environmentInstances conf environment).run.run memory).2.copies =
      memory.copies + demand conf memory.instanceMaps environment := by
  rw [environmentInstances, run_map_snd]
  induction environment generalizing memory with
  | nil => rfl
  | cons process rest ih =>
    rw [mapM_cons, demand]
    obtain ⟨base, copied⟩ := copyProcess_makes nonzero ⟨process, none, none⟩ memory
    rcases here : accessMaps conf memory.instanceMaps process with _ | ⟨maps, instanceMaps⟩
    · rw [run_bind_error ((run_bind_ok copied).trans (fulfillLabelMaps_none [base] ⟨memory.copies + 1, _⟩ here))]
      rfl
    · obtain ⟨instances, fulfilled⟩ := fulfillLabelMaps_some nonzero [base] ⟨memory.copies + 1, _⟩ here
      rw [run_bind_ok ((run_bind_ok copied).trans fulfilled), run_map_snd, ih]
      simp only [length_singleton]
      omega

end Copies

/-- The limit is respected exactly when it is zero or does not matter. -/
theorem limit_respected_iff (conf : Conf) (model : Model) (instanceMaps : InstanceMaps) :
    LimitRespected conf model instanceMaps ↔
      conf.maxInstancesNumber = 0 ∨ (demand conf instanceMaps model.environment : Int) ≤ conf.maxInstancesNumber := by
  by_cases zero : conf.maxInstancesNumber = 0
  · refine iff_of_true ?_ (.inl zero)
    rcases here : model.environment with _ | ⟨process, rest⟩
    · right
      rw [zero, here]
      rfl
    · left
      have raised (process : Instance) (memory : Memory) :
          (copyProcess process conf.maxInstancesNumber).run.run memory = (.error .tooMany, memory) := by
        rw [copyProcess, if_pos zero]
        rfl
      have first : (environmentInstances conf model.environment).run.run ⟨0, instanceMaps⟩ =
          (.error .tooMany, ⟨0, instanceMaps⟩) := by
        rw [here, environmentInstances, mapM_cons]
        exact run_bind_error (run_bind_error (run_bind_error (raised _ _)))
      rw [yieldInstances, run_bind_error first]
  · rw [LimitRespected, environmentInstances_copies zero, Nat.zero_add,
      or_iff_right (yieldInstances_tolerant zero model _), or_iff_right zero]

/-- A character device with two operations that open it. -/
def device : Model where
  environment := [⟨"vfs", "char", ⟨⟨[("%open%", ["vfs.open"])], by decide⟩, fun _ =>
    ⟨.callback, [⟨"first_open", none, []⟩, ⟨"second_open", none, []⟩], none⟩⟩⟩]
  models := []

/-- One instance is allowed, but three copies are made. -/
theorem device_copied : ¬ LimitRespected ⟨1, 1, fun _ _ => none⟩ device .empty := by
  have returns : ((yieldInstances ⟨1, 1, fun _ _ => none⟩ device).run.run ⟨0, .empty⟩).1.toOption.isSome = true := by
    decide +kernel
  have three : ((environmentInstances ⟨1, 1, fun _ _ => none⟩ device.environment).run.run ⟨0, .empty⟩).2.copies = 3 := by
    decide +kernel
  rintro (raised | few)
  · rw [raised] at returns
    cases returns
  · rw [three] at few
    exact absurd few (by decide)

end Klever.Emg.Instances
