import Klever.Core.Coverage

/-!
# Total code coverage

`collect_total_coverage` gets messages with the coverage of verification tasks from all sub-jobs and converts
the coverage of each requirement when a sub-job ends. After ten messages of a requirement its data are joined
with those on disk and saved, and memory is cleaned.

Numbers and names survive that (`Slot`, `Stored`). Notes do not: `__read_data` is "close to function
add_to_coverage" but does not merge notes, so those of all messages before the last save are lost. The number of
functions is that of the first message of the last batch. What is converted is right if and only if this
does not matter (`Lossless`).

Files on disk are told by the sub-job and the name of the directory of the requirement. What is done with the
coverage that is converted is not modelled, except that its directory must be new.
-/

namespace Klever.Core

open Klever.Lib List Option Dict

inductive Message where
  /-- the coverage of a verification task -/
  | coverage (subJob requirement : String) (info : CoverageInfo)
  /-- the end of a sub-job -/
  | finish (subJob : String)

/-- What the loop keeps, and what is on disk. -/
structure Collector where
  total : Dict String (Dict String CoverageInfo)
  counters : Dict String (Dict String Nat)
  /-- saved data by directories -/
  disk : Dict (String × String) CoverageInfo
  /-- sub-jobs with information on sources -/
  sources : List String
  /-- directories with reports -/
  reports : List (String × String)

/-- A requirement as a name of a directory. -/
def dashed (requirement : String) : String := requirement.map fun c => if c = '/' then '-' else c

def totalCovDir (subJob requirement : String) : String × String := (subJob, dashed requirement)

namespace Collector

def initial (sources : List String) : Collector := ⟨.empty, .empty, .empty, sources, []⟩

/-- `__read_data` -/
def readData (s : Collector) (subJob requirement : String) : Collector :=
  { s with total := s.total.set2 subJob requirement (Core.readData
    ((s.total.get2? subJob requirement).getD .empty) ((s.disk.get? (totalCovDir subJob requirement)).getD .empty)) }

/-- `__save_data` -/
def saveData (s : Collector) (subJob requirement : String) : Collector :=
  { s with disk := s.disk.set (totalCovDir subJob requirement) ((s.total.get2? subJob requirement).getD .empty) }

/-- `__clean_data` -/
def cleanData (s : Collector) (subJob requirement : String) : Collector :=
  { s with total := s.total.erase2 subJob requirement }

/-- The coverage of one more task. -/
def add (s : Collector) (subJob requirement : String) (info : CoverageInfo) : Option Collector :=
  (addToCoverage ((s.total.get2? subJob requirement).getD .empty) info).map fun merged =>
    let counter := (s.counters.get2? subJob requirement).getD 0 + 1
    let s := { s with
      total := s.total.set2 subJob requirement merged
      counters := s.counters.set2 subJob requirement counter }
    if counter ≥ 10 then
      let s := ((s.readData subJob requirement).saveData subJob requirement).cleanData subJob requirement
      { s with counters := s.counters.set2 subJob requirement 0 }
    else s

/-- The coverage of a requirement is converted; the directory of its report must be new. -/
def convert (s : Collector) (subJob requirement : String) : Option (Collector × CoverageInfo) :=
  let s := s.readData subJob requirement
  if totalCovDir subJob requirement ∈ s.reports then none
  else
    let s' := { s with reports := totalCovDir subJob requirement :: s.reports }
    some ((s'.saveData subJob requirement).cleanData subJob requirement, (s.total.get2? subJob requirement).getD .empty)

/-- One requirement after another. -/
def convertAll (s : Collector) (subJob : String) : List String → Option (Collector × List (String × CoverageInfo))
  | [] => some (s, [])
  | requirement :: rest =>
    (s.convert subJob requirement).bind fun (s, coverage) =>
      (s.convertAll subJob rest).map fun (s, converted) => (s, (requirement, coverage) :: converted)

/-- The end of a sub-job, if it had coverage. -/
def finish (keep : Bool) (s : Collector) (subJob : String) : Option (Collector × List (String × CoverageInfo)) :=
  if (s.total.get? subJob).isNone then some (s, [])
  else if subJob ∈ s.sources then
    (s.counters.get? subJob).bind fun counters =>
      (s.convertAll subJob counters.keys).map fun (s, converted) =>
        ({ s with
            sources := s.sources.filter (· ≠ subJob)
            total := s.total.erase subJob
            reports := if keep then s.reports
              else s.reports.filter (· ∉ counters.keys.map (totalCovDir subJob)) }, converted)
  else none

def step (keep : Bool) (s : Collector) : Message → Option Collector
  | .coverage subJob requirement info => s.add subJob requirement info
  | .finish subJob => (s.finish keep subJob).map Prod.fst

/-- `collect_total_coverage`; `keep` tells to keep intermediate files. -/
def run (keep : Bool) (s : Collector) (messages : List Message) : Option Collector := messages.foldlM (step keep) s

end Collector

/-- The coverage of a sub-job and a requirement in a message. -/
def Message.infoOf (subJob requirement : String) : Message → Option CoverageInfo
  | .coverage subJob' requirement' info => if subJob' = subJob ∧ requirement' = requirement then some info else none
  | .finish _ => none

def infosOf (messages : List Message) (subJob requirement : String) : List CoverageInfo :=
  messages.filterMap (Message.infoOf subJob requirement)

/-! ## Batches -/

variable {infos : List CoverageInfo} {info merged : CoverageInfo} {memory stored : Option CoverageInfo}
  {counter : Option Nat}

/-- How many messages are saved. -/
def saved (infos : List CoverageInfo) : Nat := 10 * (infos.length / 10)

/-- Messages that are not saved yet. -/
def recent (infos : List CoverageInfo) : List CoverageInfo := infos.drop (saved infos)

/-- A batch of ten messages. -/
def batch (infos : List CoverageInfo) (n : Nat) : List CoverageInfo := (infos.drop (10 * n)).take 10

/-- The number of functions in the first of some messages with a file. -/
def firstTotal (infos : List CoverageInfo) (file : String) : Option Nat := infos.findSome? (totalOf · file)

/-- The number of functions in the first message with a file of the last of some batches. -/
def lastTotal (infos : List CoverageInfo) (batches : Nat) (file : String) : Option Nat :=
  (List.range batches).reverse.findSome? fun n => firstTotal (batch infos n) file

/-- What is in memory and how it is counted. -/
structure Slot (infos : List CoverageInfo) (memory : Option CoverageInfo) (counter : Option Nat) : Prop where
  counter : counter = if infos = [] then none else some (infos.length % 10)
  memory : addAll (recent infos) = some (memory.getD .empty)

/-- What is on disk. -/
structure Stored (infos : List CoverageInfo) (stored : Option CoverageInfo) : Prop where
  totals : Totals (infos.take (saved infos)) (stored.getD .empty)
  first : ∀ file, totalOf (stored.getD .empty) file = lastTotal infos (infos.length / 10) file

theorem Slot.counted (slot : Slot infos memory counter) : counter.getD 0 = infos.length % 10 := by
  rw [slot.counter]
  split
  next none =>
    rw [none]
    rfl
  next => rfl

theorem saved_le (infos : List CoverageInfo) : saved infos ≤ infos.length := by
  unfold saved
  omega

/-- All messages are saved after the tenth one. -/
theorem saved_tenth (many : 10 ≤ infos.length % 10 + 1) : saved (infos ++ [info]) = (infos ++ [info]).length := by
  rw [saved, length_append, length_singleton]
  omega

theorem batch_eq_drop {n : Nat} (last : infos.length ≤ 10 * n + 10) : batch infos n = infos.drop (10 * n) := by
  refine take_of_length_le ?_
  rw [length_drop]
  omega

theorem batch_append {n : Nat} (le : 10 * n + 10 ≤ infos.length) : batch (infos ++ [info]) n = batch infos n := by
  unfold batch
  rw [drop_append_of_le_length (by omega), take_append_of_le_length (by rw [length_drop]; omega)]

theorem lastTotal_append {batches : Nat} (le : 10 * batches ≤ infos.length) (file : String) :
    lastTotal (infos ++ [info]) batches file = lastTotal infos batches file := by
  induction batches with
  | zero => rfl
  | succ n ih =>
    unfold lastTotal at ih ⊢
    rw [range_succ, reverse_append, reverse_singleton, singleton_append, findSome?_cons,
      findSome?_cons, batch_append (by omega), ih (by omega)]

theorem lastTotal_succ (infos : List CoverageInfo) (n : Nat) (file : String) :
    lastTotal infos (n + 1) file = (firstTotal (batch infos n) file).or (lastTotal infos n file) := by
  unfold lastTotal
  rw [range_succ, reverse_append, reverse_singleton, singleton_append, findSome?_cons]
  cases firstTotal (batch infos n) file <;> rfl

/-- One more message that is not the tenth. -/
theorem Slot.add (slot : Slot infos memory counter) (done : addToCoverage (memory.getD .empty) info = some merged)
    (few : counter.getD 0 + 1 < 10) : Slot (infos ++ [info]) (some merged) (some (counter.getD 0 + 1)) := by
  rw [slot.counted] at few ⊢
  have same : saved (infos ++ [info]) = saved infos := by
    unfold saved
    rw [length_append, length_singleton]
    omega
  refine ⟨?_, ?_⟩
  · rw [if_neg (by simp), length_append, length_singleton, some.injEq]
    omega
  · rw [recent, same, drop_append_of_le_length (saved_le infos), addAll_append]
    show (addAll (recent infos)).bind _ = _
    rw [slot.memory, bind_some, done]
    rfl

theorem Stored.add (before : Stored infos stored) (few : infos.length % 10 + 1 < 10) :
    Stored (infos ++ [info]) stored := by
  have length : (infos ++ [info]).length / 10 = infos.length / 10 := by
    rw [length_append, length_singleton]
    omega
  refine ⟨?_, fun file => ?_⟩
  · rw [saved, length, take_append_of_le_length (by omega)]
    exact before.totals
  · rw [length, lastTotal_append (by omega)]
    exact before.first file

/-- The tenth message: all is saved. -/
theorem Slot.flush (slot : Slot infos memory counter) (many : 10 ≤ counter.getD 0 + 1) :
    Slot (infos ++ [info]) none (some 0) := by
  rw [slot.counted] at many
  refine ⟨?_, ?_⟩
  · rw [if_neg (by simp), length_append, length_singleton, some.injEq]
    omega
  · rw [recent, saved_tenth many, drop_length]
    rfl

/-- The data on disk after the tenth message. -/
theorem Stored.flush (before : Stored infos stored) (slot : Slot infos memory counter)
    (done : addToCoverage (memory.getD .empty) info = some merged) (many : 10 ≤ counter.getD 0 + 1) :
    Stored (infos ++ [info]) (some (readData merged (stored.getD .empty))) := by
  rw [slot.counted] at many
  have length : (infos ++ [info]).length = saved infos + 10 := by
    rw [saved, length_append, length_singleton]
    omega
  have all : addAll (recent infos ++ [info]) = some merged := by
    rw [addAll_append, slot.memory, bind_some, done]
  have last : batch (infos ++ [info]) (infos.length / 10) = recent infos ++ [info] := by
    rw [batch_eq_drop (by rw [length, saved]), ← saved, drop_append_of_le_length (saved_le infos)]
    rfl
  obtain ⟨totals, first, -⟩ := addAll_spec all
  refine ⟨?_, fun file => ?_⟩
  · rw [saved_tenth many, take_length, getD_some]
    have joined := totals.read before.totals
    rwa [recent, ← append_assoc, take_append_drop] at joined
  · have batches : (infos ++ [info]).length / 10 = infos.length / 10 + 1 := by
      rw [length, saved]
      omega
    rw [batches, lastTotal_succ, last, lastTotal_append (by omega), getD_some, (joined_read _ _).total, first,
      before.first]
    rfl

/-- What is converted in the end. -/
theorem Slot.converted (slot : Slot infos memory counter) (before : Stored infos stored) :
    Totals infos (readData (memory.getD .empty) (stored.getD .empty)) ∧
    (∀ file, totalOf (readData (memory.getD .empty) (stored.getD .empty)) file =
      lastTotal infos (infos.length / 10 + 1) file) ∧
    ∀ file line, noteAt (recent infos) file line =
      some (noteOf (readData (memory.getD .empty) (stored.getD .empty)) file line) := by
  obtain ⟨totals, first, notes⟩ := addAll_spec slot.memory
  have last : batch infos (infos.length / 10) = recent infos := batch_eq_drop (by omega)
  refine ⟨?_, fun file => ?_, fun file line => ?_⟩
  · have joined := totals.read before.totals
    rwa [recent, take_append_drop] at joined
  · rw [lastTotal_succ, last, (joined_read _ _).total, first, before.first]
    rfl
  · rw [noteOf_read, notes]

/-! ## Sub-jobs do not meet -/

variable {messages : List Message} {s s' : Collector} {subJob other requirement req : String} {keep : Bool}

/-- Nothing of a sub-job is changed. -/
structure Untouched (subJob : String) (s s' : Collector) : Prop where
  total : s'.total.get? subJob = s.total.get? subJob
  counters : s'.counters.get? subJob = s.counters.get? subJob
  disk : ∀ dir, s'.disk.get? (subJob, dir) = s.disk.get? (subJob, dir)
  sources : subJob ∈ s.sources → subJob ∈ s'.sources
  reports : ∀ dir, (subJob, dir) ∈ s'.reports → (subJob, dir) ∈ s.reports

variable {coverage : CoverageInfo} {requirements : List String}

namespace Untouched

theorem refl (subJob : String) (s : Collector) : Untouched subJob s s :=
  ⟨rfl, rfl, fun _ => rfl, fun known => known, fun _ mem => mem⟩

theorem trans {s₁ s₂ s₃ : Collector} (first : Untouched subJob s₁ s₂) (second : Untouched subJob s₂ s₃) :
    Untouched subJob s₁ s₃ :=
  ⟨second.total.trans first.total, second.counters.trans first.counters,
    fun dir => (second.disk dir).trans (first.disk dir), fun known => second.sources (first.sources known),
    fun dir mem => first.reports dir (second.reports dir mem)⟩

variable (differs : subJob ≠ other)

include differs

theorem readData : Untouched subJob s (s.readData other req) :=
  ⟨get?_set_of_ne _ _ differs, rfl, fun _ => rfl, fun known => known, fun _ mem => mem⟩

theorem saveData : Untouched subJob s (s.saveData other req) := by
  refine ⟨rfl, rfl, fun dir => get?_set_of_ne _ _ fun same => ?_, fun known => known, fun _ mem => mem⟩
  exact differs (congrArg Prod.fst same)

theorem cleanData : Untouched subJob s (s.cleanData other req) := by
  refine ⟨?_, rfl, fun _ => rfl, fun known => known, fun _ mem => mem⟩
  exact (get?_modify _ _ _ _).trans (if_neg differs)

theorem setCounter {n : Nat} : Untouched subJob s { s with counters := s.counters.set2 other req n } :=
  ⟨rfl, get?_set_of_ne _ _ differs, fun _ => rfl, fun known => known, fun _ mem => mem⟩

theorem setTotal : Untouched subJob s { s with total := s.total.set2 other req merged } :=
  ⟨get?_set_of_ne _ _ differs, rfl, fun _ => rfl, fun known => known, fun _ mem => mem⟩

/-- A message of another sub-job. -/
theorem add (done : s.add other req info = some s') : Untouched subJob s s' := by
  obtain ⟨merged, -, rfl⟩ := map_eq_some_iff.mp done
  have counted : Untouched subJob s { s with
      total := s.total.set2 other req merged
      counters := s.counters.set2 other req ((s.counters.get2? other req).getD 0 + 1) } :=
    (setTotal differs).trans (setCounter differs)
  dsimp only
  split
  · exact (((counted.trans (readData differs)).trans (saveData differs)).trans (cleanData differs)).trans
      (setCounter differs)
  · exact counted

theorem convert (done : s.convert other req = some (s', coverage)) : Untouched subJob s s' := by
  unfold Collector.convert at done
  dsimp only at done
  split at done
  next => cases done
  next =>
    cases done
    have reported : Untouched subJob (s.readData other req)
        { s.readData other req with reports := totalCovDir other req :: s.reports } := by
      refine ⟨rfl, rfl, fun _ => rfl, fun known => known, fun dir mem => ?_⟩
      obtain same | mem := mem_cons.mp mem
      · exact absurd (congrArg Prod.fst same) differs
      · exact mem
    exact (((readData differs).trans reported).trans (saveData differs)).trans (cleanData differs)

theorem convertAll {converted : List (String × CoverageInfo)}
    (done : s.convertAll other requirements = some (s', converted)) : Untouched subJob s s' := by
  induction requirements generalizing s converted with
  | nil =>
    cases done
    exact refl subJob _
  | cons req rest ih =>
    obtain ⟨⟨s₁, coverage⟩, here, done⟩ := bind_eq_some_iff.mp done
    obtain ⟨⟨s₂, others⟩, later, is⟩ := map_eq_some_iff.mp done
    cases is
    exact (convert differs here).trans (ih later)

/-- The end of another sub-job. -/
theorem finish {converted : List (String × CoverageInfo)} (done : s.finish keep other = some (s', converted)) :
    Untouched subJob s s' := by
  unfold Collector.finish at done
  split at done
  next =>
    cases done
    exact refl subJob s
  next =>
    obtain ⟨-, done⟩ := ite_none_right_eq_some.mp done
    obtain ⟨counters, -, done⟩ := bind_eq_some_iff.mp done
    obtain ⟨⟨s₁, converted⟩, made, is⟩ := map_eq_some_iff.mp done
    cases is
    refine (convertAll differs made).trans ⟨?_, rfl, fun _ => rfl, fun known => ?_, fun dir mem => ?_⟩
    · exact (get?_erase _ _ _).trans (if_neg differs)
    · exact mem_filter.mpr ⟨known, by simpa using differs⟩
    · dsimp only at mem
      split at mem
      · exact mem
      · exact (mem_filter.mp mem).1

end Untouched

/-! ## The loop -/

/-- The state as messages leave it, seen from a sub-job that goes on. -/
structure Inv (messages : List Message) (subJob : String) (s : Collector) : Prop where
  slots : ∀ requirement, Slot (infosOf messages subJob requirement) (s.total.get2? subJob requirement)
    (s.counters.get2? subJob requirement)
  /-- unless requirements share a directory -/
  stored : ∀ requirement, (∀ other, infosOf messages subJob other ≠ [] → dashed other = dashed requirement →
      other = requirement) →
    Stored (infosOf messages subJob requirement) (s.disk.get? (totalCovDir subJob requirement))
  present : (s.total.get? subJob).isSome ↔ ∃ requirement, infosOf messages subJob requirement ≠ []
  counting : (s.counters.get? subJob).isSome ↔ ∃ requirement, infosOf messages subJob requirement ≠ []
  known : subJob ∈ s.sources
  fresh : ∀ dir, (subJob, dir) ∉ s.reports

theorem inv_initial {sources : List String} (known : subJob ∈ sources) : Inv [] subJob (.initial sources) where
  slots requirement := by
    show Slot [] none none
    exact ⟨rfl, rfl⟩
  stored req _ := by
    show Stored [] none
    exact ⟨.empty, fun _ => rfl⟩
  present := ⟨fun is => (by cases is), fun ⟨_, messages⟩ => absurd rfl messages⟩
  counting := ⟨fun is => (by cases is), fun ⟨_, messages⟩ => absurd rfl messages⟩
  known := known
  fresh _ := not_mem_nil

theorem infosOf_append (messages : List Message) (message : Message) : infosOf (messages ++ [message]) subJob req =
      infosOf messages subJob req ++ (message.infoOf subJob req).toList := by
  rw [infosOf, filterMap_append]
  cases is : message.infoOf subJob req <;> simp [infosOf, is]

/-- A message that is not of the sub-job. -/
theorem Inv.untouched (inv : Inv messages subJob s) {message : Message}
    (none : ∀ requirement, message.infoOf subJob requirement = none) (untouched : Untouched subJob s s') :
    Inv (messages ++ [message]) subJob s' := by
  have same (requirement : String) :
      infosOf (messages ++ [message]) subJob requirement = infosOf messages subJob requirement := by
    rw [infosOf_append, none, toList_none, append_nil]
  have total (requirement : String) : s'.total.get2? subJob requirement = s.total.get2? subJob requirement := by
    rw [get2?, untouched.total, get2?]
  have counters (requirement : String) :
      s'.counters.get2? subJob requirement = s.counters.get2? subJob requirement := by
    rw [get2?, untouched.counters, get2?]
  refine ⟨fun requirement => ?_, fun requirement apart => ?_, ?_, ?_, untouched.sources inv.known,
    fun dir mem => inv.fresh dir (untouched.reports dir mem)⟩
  · rw [same, total, counters]
    exact inv.slots requirement
  · simp only [same] at apart
    rw [same, totalCovDir, untouched.disk]
    exact inv.stored requirement apart
  · simp only [same]
    rw [untouched.total]
    exact inv.present
  · simp only [same]
    rw [untouched.counters]
    exact inv.counting

/-- What a message does to its own sub-job. -/
structure Added (subJob requirement : String) (info : CoverageInfo) (s s' : Collector) (merged : CoverageInfo) : Prop where
  adds : addToCoverage ((s.total.get2? subJob requirement).getD .empty) info = some merged
  total : (s'.total.get? subJob).isSome
  counters : (s'.counters.get? subJob).isSome
  sources : s'.sources = s.sources
  reports : s'.reports = s.reports
  others : ∀ other, other ≠ requirement → s'.total.get2? subJob other = s.total.get2? subJob other ∧
    s'.counters.get2? subJob other = s.counters.get2? subJob other
  disk : ∀ dir, dir ≠ dashed requirement → s'.disk.get? (subJob, dir) = s.disk.get? (subJob, dir)
  slot : ((s.counters.get2? subJob requirement).getD 0 + 1 < 10 ∧ s'.disk = s.disk ∧
      s'.total.get2? subJob requirement = some merged ∧
      s'.counters.get2? subJob requirement = some ((s.counters.get2? subJob requirement).getD 0 + 1)) ∨
    (10 ≤ (s.counters.get2? subJob requirement).getD 0 + 1 ∧ s'.total.get2? subJob requirement = none ∧
      s'.counters.get2? subJob requirement = some 0 ∧ s'.disk.get? (totalCovDir subJob requirement) =
        some (readData merged ((s.disk.get? (totalCovDir subJob requirement)).getD .empty)))

theorem add_inv (done : s.add subJob req info = some s') : ∃ merged, Added subJob req info s s' merged := by
  obtain ⟨merged, added, rfl⟩ := map_eq_some_iff.mp done
  refine ⟨merged, ?_⟩
  dsimp only
  split
  next many =>
    refine ⟨added, ?_, ?_, rfl, rfl, fun other differs => ⟨?_, ?_⟩, fun dir differs => ?_, .inr ⟨many, ?_, ?_, ?_⟩⟩
    · simp [Collector.cleanData, Collector.saveData, Collector.readData, erase2, get?_modify, set2]
    · simp [set2]
    · simp [Collector.cleanData, Collector.saveData, Collector.readData, get2?_erase2, get2?_set2, differs]
    · simp [Collector.cleanData, Collector.saveData, Collector.readData, get2?_set2, differs]
    · refine get?_set_of_ne _ _ fun same => differs ?_
      exact congrArg Prod.snd same
    · simp [Collector.cleanData, get2?_erase2]
    · simp [get2?_set2]
    · simp [Collector.cleanData, Collector.saveData, Collector.readData, get2?_set2]
  next few =>
    refine ⟨added, ?_, ?_, rfl, rfl, fun other differs => ⟨?_, ?_⟩, fun dir differs => rfl,
      .inl ⟨by omega, rfl, ?_, ?_⟩⟩
    · simp [set2]
    · simp [set2]
    · simp [get2?_set2, differs]
    · simp [get2?_set2, differs]
    · simp [get2?_set2]
    · simp [get2?_set2]

/-- A message of the sub-job. -/
theorem Inv.add (inv : Inv messages subJob s) (done : s.add subJob requirement info = some s') :
    Inv (messages ++ [.coverage subJob requirement info]) subJob s' := by
  obtain ⟨merged, added⟩ := add_inv done
  have own : infosOf (messages ++ [.coverage subJob requirement info]) subJob requirement =
      infosOf messages subJob requirement ++ [info] := by
    rw [infosOf_append, Message.infoOf, if_pos ⟨rfl, rfl⟩]
    rfl
  have others {other : String} (differs : other ≠ requirement) :
      infosOf (messages ++ [.coverage subJob requirement info]) subJob other = infosOf messages subJob other := by
    rw [infosOf_append, Message.infoOf, if_neg fun both => differs both.2.symm, toList_none, append_nil]
  have here : ∃ requirement', infosOf (messages ++ [.coverage subJob requirement info]) subJob requirement' ≠ [] :=
    ⟨requirement, by rw [own]; simp⟩
  have slot := inv.slots requirement
  refine ⟨fun other => ?_, fun other apart => ?_, ⟨fun _ => here, fun _ => added.total⟩,
    ⟨fun _ => here, fun _ => added.counters⟩, added.sources ▸ inv.known, fun dir => added.reports ▸ inv.fresh dir⟩
  · by_cases same : other = requirement
    · subst same
      rw [own]
      obtain ⟨few, -, total, counter⟩ | ⟨many, total, counter, -⟩ := added.slot
      · rw [total, counter]
        exact slot.add added.adds few
      · rw [total, counter]
        exact slot.flush many
    · rw [others same, (added.others other same).1, (added.others other same).2]
      exact inv.slots other
  · by_cases same : other = requirement
    · subst same
      have before := inv.stored other fun other' has dirs => by
        by_cases same : other' = other
        · exact same
        · exact apart other' (by rwa [others same]) dirs
      rw [own]
      obtain ⟨few, disk, -⟩ | ⟨many, -, -, disk⟩ := added.slot
      · rw [disk]
        exact before.add (by rwa [slot.counted] at few)
      · rw [disk]
        exact before.flush slot added.adds many
    · have differs : dashed other ≠ dashed requirement := fun dirs =>
        same (apart requirement (by rw [own]; simp) dirs.symm).symm
      rw [others same, totalCovDir, added.disk _ differs]
      refine inv.stored other fun other' has dirs => ?_
      by_cases same' : other' = requirement
      · subst same'
        exact absurd dirs.symm differs
      · exact apart other' (by rwa [others same']) dirs

/-- The loop up to the end of the sub-job. -/
theorem run_inv {sources : List String} (known : subJob ∈ sources)
    (ran : (Collector.initial sources).run keep messages = some s) (going : Message.finish subJob ∉ messages) :
    Inv messages subJob s := by
  induction messages using List.reverseRecOn generalizing s with
  | nil =>
    cases ran
    exact inv_initial known
  | append_singleton messages message ih =>
    rw [Collector.run, foldlM_append] at ran
    obtain ⟨before, ran, stepped⟩ := bind_eq_some_iff.mp ran
    obtain ⟨after, stepped, is⟩ := bind_eq_some_iff.mp stepped
    cases is
    rw [mem_append, not_or] at going
    have inv := ih ran going.1
    cases message with
    | coverage other req info =>
      by_cases same : other = subJob
      · subst same
        exact inv.add stepped
      · refine inv.untouched (fun requirement' => ?_) (Untouched.add (Ne.symm same) stepped)
        rw [Message.infoOf, if_neg fun both => same both.1]
    | finish other =>
      have differs : subJob ≠ other := by
        rintro rfl
        simp at going
      obtain ⟨⟨after, converted⟩, done, rfl⟩ := map_eq_some_iff.mp stepped
      exact inv.untouched (fun _ => rfl) (Untouched.finish differs done)

/-! ## The end of a sub-job -/

/-- What is converted for a requirement. -/
def coverageOf (s : Collector) (subJob requirement : String) : CoverageInfo :=
  readData ((s.total.get2? subJob requirement).getD .empty)
    ((s.disk.get? (totalCovDir subJob requirement)).getD .empty)

/-- A requirement is converted if its directory is new, and no other one is touched. -/
theorem convert_spec (fresh : totalCovDir subJob requirement ∉ s.reports) : ∃ s',
    s.convert subJob requirement = some (s', coverageOf s subJob requirement) ∧
    s'.reports = totalCovDir subJob requirement :: s.reports ∧
    ∀ other, totalCovDir subJob other ≠ totalCovDir subJob requirement →
      coverageOf s' subJob other = coverageOf s subJob other := by
  have converted : ((s.readData subJob requirement).total.get2? subJob requirement).getD .empty =
      coverageOf s subJob requirement := by
    simp [Collector.readData, get2?_set2, coverageOf]
  let reported : Collector :=
    { s.readData subJob requirement with reports := totalCovDir subJob requirement :: s.reports }
  refine ⟨(reported.saveData subJob requirement).cleanData subJob requirement, ?_, rfl, fun other differs => ?_⟩
  · unfold Collector.convert
    rw [if_neg (show totalCovDir subJob requirement ∉ (s.readData subJob requirement).reports from fresh), converted]
    rfl
  · have requirements : other ≠ requirement := fun same => differs (same ▸ rfl)
    unfold coverageOf
    simp [reported, Collector.cleanData, Collector.saveData, Collector.readData, get2?_erase2, get2?_set2,
      requirements, get?_set_of_ne _ _ differs]

theorem convert_fresh (done : s.convert subJob req = some (s', coverage)) : totalCovDir subJob req ∉ s.reports := by
  unfold Collector.convert at done
  dsimp only at done
  split at done
  next => cases done
  next fresh => exact fresh

/-- Requirements with directories of their own are all converted. -/
theorem convertAll_spec (apart : (requirements.map (totalCovDir subJob)).Nodup)
    (fresh : ∀ requirement ∈ requirements, totalCovDir subJob requirement ∉ s.reports) : ∃ s',
    s.convertAll subJob requirements =
      some (s', requirements.map fun requirement => (requirement, coverageOf s subJob requirement)) := by
  induction requirements generalizing s with
  | nil => exact ⟨s, rfl⟩
  | cons requirement rest ih =>
    rw [map_cons, nodup_cons] at apart
    obtain ⟨s₁, done, reports, others⟩ := convert_spec (fresh requirement mem_cons_self)
    have differs {other : String} (mem : other ∈ rest) : totalCovDir subJob other ≠ totalCovDir subJob requirement :=
      fun same => apart.1 (same ▸ List.mem_map_of_mem mem)
    obtain ⟨s₂, later⟩ := @ih s₁ apart.2 fun other mem there => by
      rw [reports] at there
      obtain same | there := mem_cons.mp there
      · exact differs mem same
      · exact fresh other (mem_cons_of_mem _ mem) there
    refine ⟨s₂, ?_⟩
    rw [Collector.convertAll, done, bind_some]
    dsimp only
    rw [later, map_some, map_cons]
    have same : rest.map (fun requirement => (requirement, coverageOf s₁ subJob requirement)) =
        rest.map fun requirement => (requirement, coverageOf s subJob requirement) :=
      map_congr_left fun other mem => by rw [others other (differs mem)]
    rw [same]

/-- Two requirements in one directory are never converted. -/
theorem convertAll_apart {converted : List (String × CoverageInfo)}
    (done : s.convertAll subJob requirements = some (s', converted)) :
    (requirements.map (totalCovDir subJob)).Nodup ∧ ∀ req ∈ requirements, totalCovDir subJob req ∉ s.reports := by
  induction requirements generalizing s converted with
  | nil => exact ⟨nodup_nil, fun _ mem => absurd mem not_mem_nil⟩
  | cons req rest ih =>
    obtain ⟨⟨s₁, coverage⟩, here, done⟩ := bind_eq_some_iff.mp done
    obtain ⟨⟨s₂, others⟩, later, is⟩ := map_eq_some_iff.mp done
    cases is
    have fresh := convert_fresh here
    obtain ⟨s₁', here', reports, -⟩ := convert_spec fresh
    rw [here] at here'
    cases here'
    obtain ⟨apart, unused⟩ := ih later
    rw [reports] at unused
    refine ⟨?_, fun other mem => ?_⟩
    · rw [map_cons, nodup_cons]
      refine ⟨fun mem => ?_, apart⟩
      obtain ⟨other, mem, same⟩ := List.mem_map.mp mem
      exact unused other mem (same ▸ mem_cons_self)
    · obtain rfl | mem := mem_cons.mp mem
      · exact fresh
      · exact fun there => unused other mem (mem_cons_of_mem _ there)

/-- The sub-job ends, and what is converted for each of its requirements is what merging all messages gives. -/
def Exact (keep : Bool) (s : Collector) (messages : List Message) (subJob : String) : Prop :=
  ∃ s' converted, s.finish keep subJob = some (s', converted) ∧
    ∀ requirement, infosOf messages subJob requirement ≠ [] → ∃ coverage plain, (requirement, coverage) ∈ converted ∧
      addAll (infosOf messages subJob requirement) = some plain ∧ Agree coverage plain

/-- Requirements with messages have directories of their own. -/
abbrev Apart (messages : List Message) (subJob : String) : Prop :=
  ∀ requirement other, infosOf messages subJob requirement ≠ [] → infosOf messages subJob other ≠ [] →
    dashed requirement = dashed other → requirement = other

/-- Saving loses nothing: requirements have directories of their own, all notes can be merged, the first message
of the last batch with a file tells the number of functions as the first of all does, and notes of messages
that are saved add nothing to those of the messages after the last batch of ten. -/
structure Lossless (messages : List Message) (subJob : String) : Prop where
  apart : Apart messages subJob
  merges : ∀ requirement, (addAll (infosOf messages subJob requirement)).isSome
  totals : ∀ requirement file, firstTotal (infosOf messages subJob requirement) file =
    lastTotal (infosOf messages subJob requirement) ((infosOf messages subJob requirement).length / 10 + 1) file
  notes : ∀ requirement file line, noteAt (infosOf messages subJob requirement) file line =
    noteAt (recent (infosOf messages subJob requirement)) file line

/-- Saving changes neither numbers of functions nor notes. -/
abbrev Kept (infos : List CoverageInfo) : Prop :=
  (∀ file, firstTotal infos file = lastTotal infos (infos.length / 10 + 1) file) ∧
    ∀ file line, noteAt infos file line = noteAt (recent infos) file line

/-- Only requirements with messages matter. -/
theorem lossless_iff : Lossless messages subJob ↔ Apart messages subJob ∧
    ∀ requirement, infosOf messages subJob requirement ≠ [] →
      (addAll (infosOf messages subJob requirement)).isSome ∧ Kept (infosOf messages subJob requirement) := by
  constructor
  · intro lossless
    exact ⟨lossless.apart, fun requirement _ =>
      ⟨lossless.merges requirement, lossless.totals requirement, lossless.notes requirement⟩⟩
  · rintro ⟨apart, each⟩
    have all (requirement : String) : (addAll (infosOf messages subJob requirement)).isSome ∧
        Kept (infosOf messages subJob requirement) := by
      by_cases none : infosOf messages subJob requirement = []
      · rw [none]
        exact ⟨rfl, fun _ => rfl, fun _ _ => rfl⟩
      · exact each requirement none
    exact ⟨apart, fun requirement => (all requirement).1, fun requirement => (all requirement).2.1,
      fun requirement => (all requirement).2.2⟩

/-- One requirement. -/
theorem agree_iff_lossless (slot : Slot infos memory counter) (before : Stored infos stored) {plain : CoverageInfo}
    (merged : addAll infos = some plain) :
    Agree (readData (memory.getD .empty) (stored.getD .empty)) plain ↔ Kept infos := by
  obtain ⟨totals, last, late⟩ := slot.converted before
  obtain ⟨totals', first, notes⟩ := addAll_spec merged
  rw [agree_iff totals totals']
  refine and_congr (forall_congr' fun file => ?_) (forall_congr' fun file => forall_congr' fun line => ?_)
  · rw [last, first]
    exact eq_comm
  · rw [notes, late, some.injEq]
    exact eq_comm

theorem mem_counters (inv : Inv messages subJob s) {counters : Dict String Nat}
    (is : s.counters.get? subJob = some counters) : req ∈ counters.keys ↔ infosOf messages subJob req ≠ [] := by
  have counted := (inv.slots req).counter
  rw [get2?, is, bind_some] at counted
  rw [mem_keys_iff]
  split at counted
  next none => simp [counted, none]
  next some => simp [counted, some]

/-- A sub-job without messages. -/
theorem infosOf_none (inv : Inv messages subJob s) (none : (s.total.get? subJob).isNone) (req : String) :
    infosOf messages subJob req = [] := by
  by_contra some
  have := inv.present.mpr ⟨req, some⟩
  rw [isNone_iff_eq_none.mp none] at this
  cases this

/-- How a sub-job with messages ends. -/
theorem finish_eq_some (inv : Inv messages subJob s) (busy : ¬ (s.total.get? subJob).isNone)
    {converted : List (String × CoverageInfo)} : (∃ s', s.finish keep subJob = some (s', converted)) ↔
      ∃ counters s', s.counters.get? subJob = some counters ∧
        s.convertAll subJob counters.keys = some (s', converted) := by
  unfold Collector.finish
  rw [if_neg busy, if_pos inv.known]
  constructor
  · rintro ⟨s', done⟩
    obtain ⟨counters, is, done⟩ := bind_eq_some_iff.mp done
    obtain ⟨⟨s₁, out⟩, made, same⟩ := map_eq_some_iff.mp done
    cases same
    exact ⟨counters, s₁, is, made⟩
  · rintro ⟨counters, s', is, made⟩
    rw [is, bind_some, made]
    exact ⟨_, rfl⟩

/-- What is converted when a sub-job ends is exact if and only if saving lost nothing. -/
theorem exact_iff_lossless {sources : List String} (known : subJob ∈ sources)
    (ran : (Collector.initial sources).run keep messages = some s) (going : Message.finish subJob ∉ messages) :
    Exact keep s messages subJob ↔ Lossless messages subJob := by
  have inv := run_inv known ran going
  -- a requirement is converted to what its slot and the disk hold
  have each (apart : Apart messages subJob) {requirement : String} (has : infosOf messages subJob requirement ≠ [])
      {plain : CoverageInfo} (merged : addAll (infosOf messages subJob requirement) = some plain) :=
    agree_iff_lossless (inv.slots requirement)
      (inv.stored requirement fun other has' dirs => apart other requirement has' has dirs) merged
  by_cases quiet : (s.total.get? subJob).isNone
  · have none := infosOf_none inv quiet
    refine iff_of_true ⟨s, [], ?_, fun requirement has => absurd (none requirement) has⟩ ?_
    · rw [Collector.finish, if_pos quiet]
    · exact lossless_iff.mpr ⟨fun requirement _ has => absurd (none requirement) has,
        fun requirement has => absurd (none requirement) has⟩
  · constructor
    · rintro ⟨s', converted, done, exact⟩
      obtain ⟨counters, s₁, is, made⟩ := (finish_eq_some inv quiet).mp ⟨s', done⟩
      obtain ⟨apart, unused⟩ := convertAll_apart made
      obtain ⟨s₂, made'⟩ := convertAll_spec apart unused
      rw [made] at made'
      cases made'
      have separate : Apart messages subJob := by
        intro requirement other has has' dirs
        refine inj_on_of_nodup_map apart ((mem_counters inv is).mpr has) ((mem_counters inv is).mpr has') ?_
        rw [totalCovDir, totalCovDir, dirs]
      refine lossless_iff.mpr ⟨separate, fun requirement has => ?_⟩
      -- a requirement with messages has one coverage
      obtain ⟨coverage, plain, mem, merged, agree⟩ := exact requirement has
      obtain ⟨requirement', -, same⟩ := List.mem_map.mp mem
      cases same
      refine ⟨?_, (each separate has merged).mp agree⟩
      rw [merged]
      rfl
    · intro lossless
      have busy : ∃ requirement, infosOf messages subJob requirement ≠ [] := by
        refine inv.present.mp ?_
        cases found : s.total.get? subJob with
        | none => simp [found] at quiet
        | some _ => rfl
      obtain ⟨counters, is⟩ := isSome_iff_exists.mp (inv.counting.mpr busy)
      have apart : (counters.keys.map (totalCovDir subJob)).Nodup := by
        refine Nodup.map_on (fun requirement mem other mem' same => ?_) counters.nodup
        exact lossless.apart requirement other ((mem_counters inv is).mp mem) ((mem_counters inv is).mp mem')
          (congrArg Prod.snd same)
      obtain ⟨s₁, made⟩ := convertAll_spec apart fun requirement _ => inv.fresh (dashed requirement)
      obtain ⟨s', done⟩ := (@finish_eq_some messages s subJob keep inv quiet _).mpr ⟨counters, s₁, is, made⟩
      refine ⟨s', _, done, fun requirement has => ?_⟩
      obtain ⟨plain, merged⟩ := isSome_iff_exists.mp (lossless.merges requirement)
      refine ⟨coverageOf s subJob requirement, plain, List.mem_map.mpr ⟨requirement, ?_, rfl⟩, merged, ?_⟩
      · exact (mem_counters inv is).mpr has
      · exact (each lossless.apart has merged).mpr ⟨lossless.totals requirement, lossless.notes requirement⟩

/-- A file with one line and maybe a note on it. -/
def infoOf (note : Option Note) : CoverageInfo :=
  .ofList [("a.c", ⟨1, .ofList [(1, 1)], .empty, [], .ofList (note.toList.map fun note => (1, note))⟩)]

theorem infoOf_get? (note : Option Note) (file : String) : (infoOf note).get? file =
    if file = "a.c" then some ⟨1, .ofList [(1, 1)], .empty, [], .ofList (note.toList.map fun note => (1, note))⟩
    else none := by
  simp only [infoOf, ofList, foldl_cons, foldl_nil, get?_set, get?_empty]

/-- Ten messages, which are saved, and one more with a note. -/
def elevenMessages : List Message :=
  List.replicate 10 (.coverage "job" "memory safety" (infoOf none)) ++
    [.coverage "job" "memory safety" (infoOf (some ⟨.verifierAssumption, some "x = \x7b1\x7d"⟩))]

theorem elevenMessages_exact : ∃ s, (Collector.initial ["job"]).run false elevenMessages = some s ∧
    Exact false s elevenMessages "job" := by
  have same {requirement : String} (has : infosOf elevenMessages "job" requirement ≠ []) :
      requirement = "memory safety" := by
    by_contra differs
    simp [infosOf, elevenMessages, Message.infoOf, Ne.symm differs, List.replicate] at has
  have succeeds : ((Collector.initial ["job"]).run false elevenMessages).isSome := by decide +kernel
  obtain ⟨s, ran⟩ := isSome_iff_exists.mp succeeds
  refine ⟨s, ran, (exact_iff_lossless (by decide) ran (by simp [elevenMessages])).mpr (lossless_iff.mpr ⟨?_, ?_⟩)⟩
  · intro requirement other has has' _
    rw [same has, same has']
  · intro requirement has
    cases same has
    refine ⟨by decide +kernel, fun file => ?_, fun file line => ?_⟩
    · by_cases here : file = "a.c"
      · subst here
        decide +kernel
      · have none (note : Option Note) : totalOf (infoOf note) file = none := by
          rw [totalOf, infoOf_get?, if_neg here, map_none]
        simp [infosOf, elevenMessages, Message.infoOf, firstTotal, lastTotal, batch, none, List.replicate, List.range,
          List.range.loop]
    · -- the saved messages have no notes
      have plain : noteOf (infoOf none) file line = none := by
        rw [noteOf, infoOf_get?]
        split <;> rfl
      simp [infosOf, elevenMessages, Message.infoOf, recent, saved, noteAt, plain, nextNote, List.replicate]

/-- Ten messages, the first one with a note. -/
def tenMessages : List Message :=
  .coverage "job" "memory safety" (infoOf (some ⟨.verifierAssumption, some "x = \x7b1\x7d"⟩)) ::
    List.replicate 9 (.coverage "job" "memory safety" (infoOf none))

/-- The note is lost. -/
theorem tenMessages_inexact : ∃ s, (Collector.initial ["job"]).run false tenMessages = some s ∧
    ¬ Exact false s tenMessages "job" := by
  have succeeds : ((Collector.initial ["job"]).run false tenMessages).isSome := by decide +kernel
  obtain ⟨s, ran⟩ := isSome_iff_exists.mp succeeds
  refine ⟨s, ran, fun ⟨s', converted, done, exact⟩ => ?_⟩
  have lost : (((Collector.initial ["job"]).run false tenMessages).bind (·.finish false "job")).map
      (fun out => out.2.map fun (_, coverage) => noteOf coverage "a.c" 1) = some [none] := by decide +kernel
  rw [ran, bind_some, done, map_some, some.injEq] at lost
  have kept : (addAll (infosOf tenMessages "job" "memory safety")).map (noteOf · "a.c" 1) =
      some (some ⟨.verifierAssumption, some "x = \x7b1\x7d"⟩) := by decide +kernel
  obtain ⟨coverage, plain, mem, merged, agree⟩ := exact "memory safety" (by decide +kernel)
  rw [merged, map_some, some.injEq, ← agree.noteOf_eq] at kept
  have absent : noteOf coverage "a.c" 1 ∈ [none] := by
    rw [← lost]
    exact List.mem_map_of_mem mem
  rw [kept] at absent
  simp at absent

end Klever.Core
