import Klever.Lib.Run
import Klever.Lib.Slice
import Klever.Scheduler.Accounting

/-!
# Which cores a job or a task gets

`BaseNativeRunner._get_virtual_cores` with `extract_cpu_cores_info`, and the starts and finishes of
jobs and tasks on one node. A start looks at the available and reserved numbers of cores, takes the
physical cores just below the free ones from a sorted list, and then claims its number.

The cores depend on the count of reserved cores only, not on which cores are in use. While nothing
finishes, the counts grow and the ranges do not meet; but after a finish the next range can meet the
range of something that still runs (`cores_shared`). `cores_exclusive_iff` says when this does not
happen: in a run the running ones never share a core exactly when each start is spaced from what
runs, that is, when its range of counts does not meet theirs. Each one has the right number of
physical cores in any case.
-/

namespace Klever.Scheduler

open Klever.Lib List Option

/-! ## The cores of the host -/

/-- A line of `/proc/cpuinfo`, as the two regular expressions of the source tell them apart. -/
inductive CpuLine
  | processor (number : ℕ)
  | coreId (number : ℕ)
  | other
  deriving DecidableEq

/-- The virtual cores under each physical one. A core identifier that no processor line precedes is
recorded with `None`. -/
abbrev CpuInfo := Dict ℕ (List (Option ℕ))

/-- The loop of `extract_cpu_cores_info` over the lines. -/
def extractLoop : Option ℕ → CpuInfo → List CpuLine → CpuInfo
  | _, data, [] => data
  | _, data, .processor number :: lines => extractLoop (some number) data lines
  | currentVc, data, .coreId pc :: lines =>
    extractLoop currentVc (data.set pc ((data.get? pc).getD [] ++ [currentVc])) lines
  | currentVc, data, .other :: lines => extractLoop currentVc data lines

/-- `extract_cpu_cores_info`. -/
def extractCpuCoresInfo (lines : List CpuLine) : CpuInfo := extractLoop none Dict.empty lines

/-- The sorted physical cores. -/
def physicalCores (lines : List CpuLine) : List ℕ :=
  (extractCpuCoresInfo lines).keys.insertionSort (· ≤ ·)

/-- The virtual cores of a physical one. -/
def virtualCores (lines : List CpuLine) (pc : ℕ) : List (Option ℕ) :=
  ((extractCpuCoresInfo lines).get? pc).getD []

/-- `_get_virtual_cores`. -/
def getVirtualCores (lines : List CpuLine) (available reserved required : ℤ) :
    Except Exn (List (Option ℕ)) :=
  let pcores := physicalCores lines
  if available > pcores.length then
    .error (.valueError ("Host system has " ++ toString pcores.length ++ " cores but expect " ++ toString available))
  else
    .ok ((slice pcores (available - reserved - required) (available - reserved)).flatMap (virtualCores lines))

/-- The pairs of a physical and a virtual core, in the order of the lines. -/
def recordedCores : Option ℕ → List CpuLine → List (ℕ × Option ℕ)
  | _, [] => []
  | _, .processor number :: lines => recordedCores (some number) lines
  | currentVc, .coreId pc :: lines => (pc, currentVc) :: recordedCores currentVc lines
  | currentVc, .other :: lines => recordedCores currentVc lines

variable (lines : List CpuLine)

/-- Each virtual core is recorded once. -/
def DistinctCores : Prop := ((recordedCores none lines).map Prod.snd).Nodup

instance : Decidable (DistinctCores lines) :=
  inferInstanceAs (Decidable (List.Nodup _))

/-- The loop adds, under each physical core, the virtual ones recorded for it. -/
theorem extractLoop_getD (currentVc : Option ℕ) (data : CpuInfo) (lines : List CpuLine) (pc : ℕ) :
    ((extractLoop currentVc data lines).get? pc).getD [] = (data.get? pc).getD [] ++
        ((recordedCores currentVc lines).filter fun e => e.1 = pc).map Prod.snd := by
  induction lines generalizing currentVc data with
  | nil => rw [recordedCores, filter_nil, map_nil, append_nil, extractLoop]
  | cons line lines ih =>
    cases line with
    | processor number => exact ih _ _
    | other => exact ih _ _
    | coreId pc' =>
      rw [extractLoop, recordedCores, ih, Dict.get?_set]
      by_cases here : pc = pc'
      · rw [if_pos here, here, filter_cons_of_pos (by simp), map_cons, getD_some, append_assoc, singleton_append]
      · rw [if_neg here, filter_cons_of_neg (by simpa using Ne.symm here)]

/-- The loop records no physical core without a virtual one. -/
theorem extractLoop_nonempty {currentVc : Option ℕ} {data : CpuInfo} {lines : List CpuLine}
    (before : ∀ pc, data.get? pc ≠ some []) (pc : ℕ) :
    (extractLoop currentVc data lines).get? pc ≠ some [] := by
  induction lines generalizing currentVc data with
  | nil => exact before pc
  | cons line lines ih =>
    cases line with
    | processor number => exact ih before
    | other => exact ih before
    | coreId pc' =>
      refine ih fun x => ?_
      rw [Dict.get?_set]
      split
      · simp
      · exact before x

theorem virtualCores_eq (pc : ℕ) : virtualCores lines pc =
      ((recordedCores none lines).filter fun e => e.1 = pc).map Prod.snd :=
  extractLoop_getD none Dict.empty lines pc

theorem mem_physicalCores {lines : List CpuLine} {pc : ℕ} :
    pc ∈ physicalCores lines ↔ ∃ cores, (extractCpuCoresInfo lines).get? pc = some cores := by
  rw [physicalCores, mem_insertionSort, Dict.mem_keys_iff]

theorem physicalCores_nodup : (physicalCores lines).Nodup :=
  (perm_insertionSort _ _).nodup_iff.mpr (extractCpuCoresInfo lines).nodup

/-- A physical core has at least one virtual core. -/
theorem virtualCores_ne_nil {lines : List CpuLine} {pc : ℕ} (mem : pc ∈ physicalCores lines) :
    virtualCores lines pc ≠ [] := by
  obtain ⟨cores, found⟩ := mem_physicalCores.mp mem
  rw [virtualCores, found, getD_some]
  rintro rfl
  exact extractLoop_nonempty (fun pc => by rw [Dict.get?_empty]; exact nofun) pc found

/-- Different physical cores have different virtual ones. -/
theorem virtualCores_disjoint {lines : List CpuLine} (distinct : DistinctCores lines) {pc pc' : ℕ}
    (differ : pc ≠ pc') : (virtualCores lines pc).Disjoint (virtualCores lines pc') := by
  intro vc hvc hvc'
  rw [virtualCores_eq] at hvc hvc'
  obtain ⟨e, he, rfl⟩ := List.mem_map.mp hvc
  obtain ⟨f, hf, same⟩ := List.mem_map.mp hvc'
  obtain ⟨he, at_pc⟩ := mem_filter.mp he
  obtain ⟨hf, at_pc'⟩ := mem_filter.mp hf
  have eq := inj_on_of_nodup_map distinct he hf same.symm
  rw [decide_eq_true_eq] at at_pc at_pc'
  exact differ (at_pc ▸ at_pc' ▸ congrArg Prod.fst eq)

/-! ## Starts and finishes on a node -/

/-- Something that runs with its cores: how many it asked for, how many were reserved before it, and
which virtual cores it got. -/
structure Slot where
  kind : Kind
  identifier : String
  required : ℤ
  reservedBefore : ℤ
  cores : List (Option ℕ)

/-- Whether this is the slot of an identifier of a kind. -/
def Slot.isOf (kind : Kind) (identifier : String) (s : Slot) : Bool :=
  s.kind = kind ∧ s.identifier = identifier

/-- The manager of a node, and the slots of what runs there. -/
structure Host where
  manager : Manager
  slots : List Slot

/-- A start or a finish. -/
inductive Event
  | start (identifier : String) (conf : Conf)
  | finish (identifier : String) (kind : Kind) (keepDisk : ℕ)

/-- `_prepare_solution` and `_solve_job` or `_solve_task`, as far as cores go: the cores are chosen
from the numbers of the node, then the resources are claimed. -/
def startOn (node : String) (m : Manager) (identifier : String) (conf : Conf) :
    Except Exn (List (Option ℕ)) × Manager :=
  match m.systemStatus.get? node with
  | none => (.error (.keyError node), m)
  | some n =>
    match getVirtualCores lines (n.available .cpu) (n.reserved .cpu) (conf.limits.amounts .cpu) with
    | .error e => (.error e, m)
    | .ok cores =>
      match claimResources m identifier conf node with
      | (.error e, m') => (.error e, m')
      | (.ok (), m') => (.ok cores, m')

/-- A start or a finish that goes through. Nothing is started while it runs. -/
def Event.Step (node : String) (h : Host) : Event → Host → Prop
  | .start identifier conf, h' =>
    (∀ s ∈ h.slots, s.isOf conf.kind identifier = false) ∧ ∃ n cores m', h.manager.systemStatus.get? node = some n ∧
        startOn lines node h.manager identifier conf = (.ok cores, m') ∧
        h' = ⟨m', h.slots ++ [⟨conf.kind, identifier, conf.limits.amounts .cpu, n.reserved .cpu, cores⟩]⟩
  | .finish identifier kind keepDisk, h' =>
    ∃ m', releaseResources h.manager identifier node kind keepDisk = (.ok (), m') ∧
      h' = ⟨m', h.slots.eraseP (Slot.isOf kind identifier)⟩

/-- No two running ones share a virtual core. -/
def Host.Exclusive (h : Host) : Prop := h.slots.Pairwise fun a b => a.cores.Disjoint b.cores

/-- Each running one has all virtual cores of as many physical cores as it asked for. -/
def Host.Exact (h : Host) : Prop :=
  ∀ s ∈ h.slots, ∃ pcs : List ℕ, pcs.Nodup ∧ pcs ⊆ physicalCores lines ∧
    (pcs.length : ℤ) = s.required ∧ s.cores = pcs.flatMap (virtualCores lines)

/-- A start is spaced from what runs: the cores it will count from the reserved number on are not
among those that something running counted from its own. -/
def Event.Spaced (node : String) (h : Host) : Event → Prop
  | .start _ conf => ∀ n, h.manager.systemStatus.get? node = some n → ∀ s ∈ h.slots,
      s.reservedBefore + s.required ≤ n.reserved .cpu ∨ n.reserved .cpu + conf.limits.amounts .cpu ≤ s.reservedBefore ∨
        conf.limits.amounts .cpu = 0 ∨ s.required = 0
  | .finish .. => True

/-- What a start that goes through has met. -/
theorem startOn_ok {lines : List CpuLine} {node : String} {m m' : Manager} {identifier : String}
    {conf : Conf} {cores : List (Option ℕ)} {n : Node} (found : m.systemStatus.get? node = some n)
    (ok : startOn lines node m identifier conf = (.ok cores, m')) :
    claimResources m identifier conf node = (.ok (), m') ∧ n.available .cpu ≤ (physicalCores lines).length ∧
      cores = (slice (physicalCores lines) (n.available .cpu - n.reserved .cpu - conf.limits.amounts .cpu)
        (n.available .cpu - n.reserved .cpu)).flatMap (virtualCores lines) := by
  unfold startOn at ok
  simp only [found, getVirtualCores] at ok
  split at ok
  next => cases ok
  next cores' chosen =>
    split at chosen
    next => cases chosen
    next enough =>
      cases chosen
      split at ok
      next => cases ok
      next m₁ claimed =>
        cases ok
        exact ⟨claimed, not_lt.mp enough, rfl⟩

/-- What holds of a host all along: the number of available cores stays and the reserved one is not
negative, and each slot has the cores that its numbers select. -/
structure Host.Sound (node : String) (available : ℤ) (h : Host) : Prop where
  node : ∃ n, h.manager.systemStatus.get? node = some n ∧ n.available .cpu = available ∧ 0 ≤ n.reserved .cpu
  slots : ∀ s ∈ h.slots, 0 ≤ s.reservedBefore ∧ 0 ≤ s.required ∧
    s.reservedBefore + s.required ≤ available ∧ available ≤ (physicalCores lines).length ∧
    s.cores = (slice (physicalCores lines) (available - s.reservedBefore - s.required)
      (available - s.reservedBefore)).flatMap (virtualCores lines)

variable {lines : List CpuLine} {node : String} {m₀ : Manager} {n₀ : Node} {events : List Event} {available : ℤ}
  {h h' : Host} {e : Event}

section

variable (sound : h.Sound lines node available)

include sound

/-- Each step keeps the host sound. -/
theorem Host.Sound.step (step : e.Step lines node h h') : h'.Sound lines node available := by
  obtain ⟨n, found, total, nonneg⟩ := sound.node
  cases e with
  | start identifier conf =>
    obtain ⟨-, n', cores, m', found', ok, rfl⟩ := step
    rw [found, some.injEq] at found'
    subst found'
    obtain ⟨claimed, enough, chosen⟩ := startOn_ok found ok
    obtain ⟨n₁, found₁, fits, rfl⟩ := claim_ok_iff.mp claimed
    rw [found, some.injEq] at found₁
    subst found₁
    have asked : 0 ≤ conf.limits.amounts .cpu := conf.limits.nonneg .cpu
    have fit : n.reserved .cpu + conf.limits.amounts .cpu ≤ n.available .cpu := fits .cpu
    refine ⟨⟨_, Dict.get?_set_self _ _ _, total, add_nonneg nonneg asked⟩, fun s mem => ?_⟩
    rcases mem_append.mp mem with mem | mem
    · exact sound.slots s mem
    · rw [mem_singleton.mp mem]
      subst total
      exact ⟨nonneg, asked, fit, enough, chosen⟩
  | finish identifier kind keepDisk =>
    obtain ⟨m', ok, rfl⟩ := step
    obtain ⟨conf, n₁, -, found₁, -, covers, -, rfl⟩ := release_ok_iff.mp ok
    rw [found, some.injEq] at found₁
    subst found₁
    have covered : conf.limits.amounts .cpu ≤ n.reserved .cpu := covers .cpu
    refine ⟨⟨_, Dict.get?_set_self _ _ _, total, ?_⟩, fun s mem =>
      sound.slots s (mem_of_mem_eraseP mem)⟩
    change 0 ≤ n.reserved .cpu - conf.limits.amounts .cpu + 0
    omega

/-- A sound host hands out the right number of cores. -/
theorem Host.Sound.exact : h.Exact lines := by
  intro s mem
  obtain ⟨before, asked, fit, enough, chosen⟩ := sound.slots s mem
  refine ⟨_, (slice_sublist _ _ _).nodup (physicalCores_nodup lines), (slice_sublist _ _ _).subset, ?_, chosen⟩
  rw [length_slice (by omega) (by omega) (by omega)]
  omega

/-- A step from a sound and exclusive host keeps it exclusive exactly when it is spaced. -/
theorem exclusive_step_iff (distinct : DistinctCores lines) (exclusive : h.Exclusive) (step : e.Step lines node h h') :
    h'.Exclusive ↔ e.Spaced node h := by
  have sound' := sound.step step
  cases e with
  | finish identifier kind keepDisk =>
    obtain ⟨m', -, rfl⟩ := step
    exact iff_of_true (Pairwise.sublist eraseP_sublist exclusive) trivial
  | start identifier conf =>
    obtain ⟨-, n, cores, m', found, ok, rfl⟩ := step
    obtain ⟨before, asked, fit, enough, chosen⟩ := sound'.slots _ (mem_append_right _ (mem_singleton_self _))
    simp only at before asked fit enough chosen
    simp only [Host.Exclusive, pairwise_append, pairwise_singleton, mem_singleton,
      forall_eq, true_and, Event.Spaced, found, some.injEq, forall_eq']
    refine ⟨fun new s mem => ?_, fun spaced => ⟨exclusive, fun s mem => ?_⟩⟩ <;>
      obtain ⟨before', asked', fit', -, chosen'⟩ := sound.slots s mem
    · have apart := new.2 s mem
      rw [chosen, chosen', disjoint_flatMap_slice_iff (by omega) (by omega) (by omega) (by omega)
        (by omega) (by omega) (physicalCores_nodup lines) (fun _ => virtualCores_ne_nil)
        fun _ _ _ _ => virtualCores_disjoint distinct] at apart
      omega
    · rw [chosen, chosen', disjoint_flatMap_slice_iff (by omega) (by omega) (by omega) (by omega)
        (by omega) (by omega) (physicalCores_nodup lines) (fun _ => virtualCores_ne_nil)
        fun _ _ _ _ => virtualCores_disjoint distinct]
      have := spaced s mem
      omega

end

/-- A step is determined by its event. -/
theorem Event.Step.unique {h₁ h₂ : Host} (one : e.Step lines node h h₁) (two : e.Step lines node h h₂) : h₁ = h₂ := by
  cases e with
  | start identifier conf =>
    obtain ⟨-, n, cores, m, found, ok, rfl⟩ := one
    obtain ⟨-, n', cores', m', found', ok', rfl⟩ := two
    rw [found] at found'
    rw [ok] at ok'
    cases found'
    cases ok'
    rfl
  | finish identifier kind keepDisk =>
    obtain ⟨m, ok, rfl⟩ := one
    obtain ⟨m', ok', rfl⟩ := two
    rw [ok] at ok'
    cases ok'
    rfl

/-! ## Runs -/

/-- The steps of a host. -/
def HostStep (lines : List CpuLine) (node : String) (h : Host) (e : Event) (h' : Host) : Prop :=
  e.Step lines node h h'

/-- The steps of a host whose starts are spaced. -/
def SpacedStep (lines : List CpuLine) (node : String) (h : Host) (e : Event) (h' : Host) : Prop :=
  e.Step lines node h h' ∧ e.Spaced node h

/-- A host that starts from a fresh manager is sound all along. -/
theorem sound_of_run (fresh : m₀.Fresh) (known : m₀.systemStatus.get? node = some n₀)
    (run : Run (HostStep lines node) ⟨m₀, []⟩ events h) : h.Sound lines node (n₀.available .cpu) := by
  refine run.invariant (P := fun _ h => h.Sound lines node (n₀.available .cpu)) ?_
    fun sound step => sound.step step
  refine ⟨⟨n₀, known, rfl, ?_⟩, nofun⟩
  rw [(fresh.idle node n₀ known).1]
  exact le_refl _

/-- In a run whose starts are all spaced, the running ones share no core. -/
theorem exclusive_of_spaced (distinct : DistinctCores lines) (fresh : m₀.Fresh)
    (known : m₀.systemStatus.get? node = some n₀)
    (run : Run (SpacedStep lines node) ⟨m₀, []⟩ events h) : h.Exclusive := by
  induction run with
  | nil => exact List.Pairwise.nil
  | snoc before last ih =>
    have sound := sound_of_run fresh known (before.mono fun step => step.1)
    exact (exclusive_step_iff sound distinct ih last.1).mpr last.2

/-- Let the host record each virtual core once and let the node start without reservations. At every
point of a run each running job or task has the virtual cores of as many physical cores as it asked
for; and they never share a core exactly when every start of the run is spaced. -/
theorem cores_exclusive_iff (distinct : DistinctCores lines) (fresh : m₀.Fresh)
    (known : m₀.systemStatus.get? node = some n₀)
    (run : Run (HostStep lines node) ⟨m₀, []⟩ events h) :
    (∀ before t, before <+: events → Run (HostStep lines node) ⟨m₀, []⟩ before t → t.Exact lines) ∧
      ((∀ before t, before <+: events → Run (HostStep lines node) ⟨m₀, []⟩ before t → t.Exclusive) ↔
        Run (SpacedStep lines node) ⟨m₀, []⟩ events h) := by
  refine ⟨fun before t _ reach => (sound_of_run fresh known reach).exact, ?_, ?_⟩
  · -- by the last step: what was reached before it is exclusive, and so is what it leads to
    intro all
    induction run with
    | nil => exact .nil _
    | @snoc t u events e before last ih =>
      have spaced := ih fun first v initial => all first v (initial.trans (prefix_append _ _))
      refine spaced.snoc ⟨last, ?_⟩
      exact (exclusive_step_iff (sound_of_run fresh known before) distinct (all _ _ (prefix_append _ _) before) last).mp
        (all _ _ prefix_rfl (before.snoc last))
  · rintro spaced before t ⟨rest, rfl⟩ reach
    obtain ⟨t', first, -⟩ := spaced.append_inv
    have walk : Run (HostStep lines node) ⟨m₀, []⟩ before t' := first.mono fun step => step.1
    rw [reach.unique walk Event.Step.unique]
    exact exclusive_of_spaced distinct fresh known first

/-- A host with four physical cores of one virtual core each. -/
def fourCores : List CpuLine :=
  [.processor 0, .coreId 0, .other, .processor 1, .coreId 1, .other, .processor 2, .coreId 2, .other,
    .processor 3, .coreId 3]

/-- Two tasks of one core each run at the same time and share no core. -/
theorem cores_exclusive_two : ∃ h, Run (HostStep fourCores "node") ⟨smallManager, []⟩
        [.start "a" (smallTask 1 0 0), .start "b" (smallTask 1 0 0)] h ∧ h.slots.length = 2 ∧
      h.Exact fourCores ∧ h.Exclusive := by
  have fresh : smallManager.Fresh := (Manager.fresh_init 2 8 false).connect _ _ _ _ _
  obtain ⟨h, spaced, two⟩ : ∃ h, Run (SpacedStep fourCores "node") ⟨smallManager, []⟩
      [.start "a" (smallTask 1 0 0), .start "b" (smallTask 1 0 0)] h ∧ h.slots.length = 2 := by
    refine ⟨_, ((Run.nil _).snoc ⟨⟨nofun, _, _, _, rfl, rfl, rfl⟩, fun _ _ _ mem => absurd mem not_mem_nil⟩).snoc
      ⟨⟨by decide, _, _, _, rfl, rfl, rfl⟩, fun n found s mem => ?_⟩, rfl⟩
    cases Option.some.inj found
    cases mem_singleton.mp mem
    exact .inl (by decide)
  have run : Run (HostStep fourCores "node") ⟨smallManager, []⟩ _ h := spaced.mono fun step => step.1
  obtain ⟨exact, exclusive⟩ := cores_exclusive_iff (by decide) fresh rfl run
  exact ⟨h, run, two, exact _ _ prefix_rfl run, exclusive.mpr spaced _ _ prefix_rfl run⟩

/-- The first of two tasks finishes, and a third one gets the core of the second, which still runs. -/
theorem cores_shared : ∃ h, Run (HostStep fourCores "node") ⟨smallManager, []⟩
        [.start "a" (smallTask 1 0 0), .start "b" (smallTask 1 0 0), .finish "a" .task 0,
          .start "c" (smallTask 1 0 0)] h ∧
      h.slots.map (fun s => (s.identifier, s.cores)) = [("b", [some 2]), ("c", [some 2])] := by
  refine ⟨_, ((((Run.nil _).snoc ⟨nofun, _, _, _, rfl, rfl, rfl⟩).snoc
    ⟨by decide, _, _, _, rfl, rfl, rfl⟩).snoc ⟨_, rfl, rfl⟩).snoc
      ⟨by decide, _, _, _, rfl, rfl, rfl⟩, ?_⟩
  decide

end Klever.Scheduler
