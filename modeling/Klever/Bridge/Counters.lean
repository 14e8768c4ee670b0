import Klever.Bridge.Attributes

/-!
# Component counters

A decision counts the reports of each component: how many were started and how many were finished. The counters are
updated by messages, and a lightweight decision deletes reports, so the counters speak of all reports that have ever been
uploaded.

Nothing refuses to finish a verification report again. It is the only way in which the counters go wrong
(`counters_exact_iff`).
-/

namespace Klever.Bridge.Uploads

open Klever.Lib List Option

/-! ## What an upload does -/

/-- The reports after an upload. -/
inductive Effect (lightweight : Bool) (s : Tree) : Upload → List Report → Prop
  | start {identifier component : String} {parent : Option String} {attrs : List Attr} {r : Report}
    (is : r = ⟨identifier, parent, .component component false false, attrs⟩) (fits : r.Fits s.reports) :
    Effect lightweight s (.start identifier parent component attrs) (r :: s.reports)
  | verification {identifier parent component : String} {attrs : List Attr} {r : Report}
    (is : r = ⟨identifier, some parent, .component component true false, attrs⟩) (fits : r.Fits s.reports) :
    Effect lightweight s (.verification identifier parent component attrs) (r :: s.reports)
  | patch {identifier : String} {attrs : List Attr} {r : Report} (found : s.component? identifier = some r)
    (unfinished : r.kind.finished = false) :
    Effect lightweight s (.patch identifier attrs) (s.reports.map (Tree.updated identifier attrs false))
  | finish {identifier : String} {attrs : List Attr} {r : Report} (found : s.component? identifier = some r)
    (unfinished : r.kind.finished = false) (stays : lightweight = false ∨ r.parent = none) :
    Effect lightweight s (.finish identifier attrs) (s.reports.map (Tree.updated identifier attrs true))
  | finishRemoved {identifier : String} {attrs : List Attr} {r : Report} (found : s.component? identifier = some r)
    (unfinished : r.kind.finished = false) (light : lightweight = true) (below : r.parent ≠ none) :
    Effect lightweight s (.finish identifier attrs) (s.reports.filter (outside s.reports identifier))
  | verificationFinish {identifier : String} {r : Report} (found : s.component? identifier = some r)
    (verification : r.kind.verification = true) (full : lightweight = false) :
    Effect lightweight s (.verificationFinish identifier) (s.reports.map (Tree.updated identifier [] true))
  | verificationMoved {identifier : String} {r core : Report} (found : s.component? identifier = some r)
    (verification : r.kind.verification = true) (light : lightweight = true) (last : s.reports.getLast? = some core) :
    Effect lightweight s (.verificationFinish identifier) (s.reports.map (Tree.moved identifier core))
  | verificationRemoved {identifier : String} {r : Report} (found : s.component? identifier = some r)
    (verification : r.kind.verification = true) (light : lightweight = true)
    (childless : ∀ x ∈ s.reports, x.parent ≠ some identifier) :
    Effect lightweight s (.verificationFinish identifier) (s.reports.filter (outside s.reports identifier))
  | leaf {kind : LeafKind} {identifier parent : String} {attrs merged : List Attr} {above core x : Report}
    (found : s.component? parent = some above) (last : s.reports.getLast? = some core)
    (made : mergeAttributes (parentAttributes s.reports (some parent)) attrs = some merged)
    (is : x = ⟨identifier, some (if lightweight && kind = .reportUnknown && !above.kind.verification then core.identifier
      else parent), .leaf kind, merged⟩) (suits : kind ≠ .reportSafe ∨ above.kind.verification = true)
    (fits : x.Fits s.reports) :
    Effect lightweight s (.leaf kind identifier parent attrs) (x :: s.reports)

variable {s s' : Tree} {lightweight : Bool} {id : String} {attrs : List Attr}

theorem addAttrs_unfinished {finish : Bool} {r : Report} (done : s.addAttrs id attrs finish = some (r, s')) :
    r.kind.finished = false := by
  obtain ⟨r', found, done⟩ := bind_eq_some_iff.mp done
  split at done
  next accepted =>
    cases done
    rw [Bool.and_eq_true, Bool.not_eq_true'] at accepted
    exact accepted.1
  next => cases done

theorem create_inv {parent : Option String} {component : String} {verification : Bool}
    (done : s.create lightweight id parent component verification attrs = some s') :
    ∃ r : Report, r = ⟨id, parent, .component component verification false, attrs⟩ ∧ r.Fits s.reports ∧
      s'.reports = r :: s.reports := by
  unfold Tree.create at done
  dsimp only at done
  split at done
  next => cases done
  next =>
    split at done
    next => exact ⟨_, rfl, push_inv done⟩
    next => cases done

theorem finishComponent_effect (done : s.finishComponent lightweight id attrs = some s') :
    Effect lightweight s (.finish id attrs) s'.reports := by
  obtain ⟨⟨r, s₁⟩, added, rfl⟩ := map_eq_some_iff.mp done
  obtain ⟨found, -, rfl⟩ := addAttrs_inv added
  have unfinished := addAttrs_unfinished added
  dsimp only
  split
  next deleted =>
    rw [Bool.and_eq_true, isSome_iff_ne_none] at deleted
    rw [remove_update]
    exact .finishRemoved found unfinished deleted.1 deleted.2
  next kept =>
    refine .finish found unfinished ?_
    rw [Bool.and_eq_true, not_and_or, Bool.not_eq_true, not_isSome_iff_eq_none] at kept
    exact kept

theorem finishVerification_effect (done : s.finishVerification lightweight id = some s') :
    Effect lightweight s (.verificationFinish id) s'.reports := by
  unfold Tree.finishVerification at done
  obtain ⟨known, done⟩ := ite_none_left_eq_some.mp done
  obtain ⟨r, is⟩ := ne_none_iff_exists'.mp fun none => known (isNone_iff_eq_none.mpr none)
  obtain ⟨found, verification⟩ := filter_eq_some_iff.mp is
  split at done
  next full =>
    cases done
    exact .verificationFinish found verification (Bool.not_eq_true' _ ▸ full)
  next light =>
    rw [Bool.not_eq_true', Bool.not_eq_false] at light
    split at done
    next =>
      unfold Tree.move at done
      split at done
      next => cases done
      next core last =>
        split at done
        next =>
          cases done
          exact .verificationMoved found verification light last
        next => cases done
    next childless =>
      cases done
      refine .verificationRemoved found verification light fun x mem is => childless ?_
      exact List.any_eq_true.mpr ⟨x, mem, decide_eq_true is⟩

theorem createLeaf_effect {kind : LeafKind} {parent : String}
    (done : s.createLeaf lightweight kind id parent attrs = some s') :
    Effect lightweight s (.leaf kind id parent attrs) s'.reports := by
  obtain ⟨above, found, done⟩ := bind_eq_some_iff.mp done
  obtain ⟨accepted, done⟩ := ite_none_left_eq_some.mp done
  obtain ⟨merged, made, done⟩ := bind_eq_some_iff.mp done
  obtain ⟨mem, -, -⟩ := component?_spec found
  obtain ⟨core, -, -, last⟩ := s.ordered.root mem
  simp only [last, map_some, getD_some] at done
  obtain ⟨fits, is⟩ := push_inv done
  simp only [Bool.or_eq_true, Bool.not_eq_true', not_or, Bool.and_eq_true, decide_eq_true_eq, not_and_or,
    Bool.not_eq_false] at accepted
  rw [is]
  exact .leaf found last made rfl accepted.1 fits

/-- An upload has one of these effects. -/
theorem upload_effect {u : Upload} (done : s.upload lightweight u = some s') : Effect lightweight s u s'.reports := by
  cases u with
  | start id parent component attrs =>
    obtain ⟨r, is, fits, reports⟩ := create_inv done
    rw [reports]
    exact .start is fits
  | verification id parent component attrs =>
    obtain ⟨r, is, fits, reports⟩ := create_inv done
    rw [reports]
    exact .verification is fits
  | patch id attrs =>
    obtain ⟨⟨r, s₁⟩, added, rfl⟩ := map_eq_some_iff.mp done
    obtain ⟨found, -, rfl⟩ := addAttrs_inv added
    exact .patch found (addAttrs_unfinished added)
  | finish id attrs => exact finishComponent_effect done
  | verificationFinish id => exact finishVerification_effect done
  | leaf kind id parent attrs => exact createLeaf_effect done

/-! ## Counters -/

/-- What a message tells about resources. -/
structure Resources where
  cpuTime : Nat
  wallTime : Nat
  memory : Nat
  deriving DecidableEq, Repr

structure DecisionCache where
  cpuTime : Nat
  wallTime : Nat
  memory : Nat
  total : Nat
  finished : Nat
  deriving DecidableEq, Repr

def DecisionCache.new : DecisionCache := ⟨0, 0, 0, 0, 0⟩

/-- The cache of a component; one that is not there has zeros. -/
def cacheOf (caches : Dict String DecisionCache) (component : String) : DecisionCache :=
  (caches.get? component).getD .new

/-- `__update_decision_cache` -/
def updateDecisionCache (caches : Dict String DecisionCache) (component : String) (started finished : Bool)
    (resources : Option Resources) : Dict String DecisionCache :=
  let cache := cacheOf caches component
  let cache := match resources with
    | none => cache
    | some resources => { cache with
        cpuTime := cache.cpuTime + resources.cpuTime
        wallTime := cache.wallTime + resources.wallTime
        memory := max cache.memory resources.memory }
  caches.set component { cache with
    total := cache.total + started.toNat
    finished := cache.finished + finished.toNat }

/-- A report that has been uploaded, be it deleted since or not. -/
structure Record where
  identifier : String
  component : String
  finished : Bool
  deriving DecidableEq, Repr

/-- A decision with its caches. All reports that have ever been uploaded are `ever`, the newest first; they serve to
state what the caches count. -/
structure Counted where
  tree : Tree
  caches : Dict String DecisionCache
  ever : List Record

namespace Counted

def empty : Counted := ⟨.empty, .empty, []⟩

def componentName (tree : Tree) (identifier : String) : String :=
  match tree.component? identifier with
  | some ⟨_, _, .component name _ _, _⟩ => name
  | _ => ""

/-- The caches after an upload; a verification report comes with its resources, a component finishes with them. -/
def account (s : Counted) (resources : Resources) : Upload → Dict String DecisionCache
  | .start _ _ component _ => updateDecisionCache s.caches component true false none
  | .verification _ _ component _ => updateDecisionCache s.caches component true false (some resources)
  | .finish identifier _ =>
    updateDecisionCache s.caches (componentName s.tree identifier) false true (some resources)
  | .verificationFinish identifier => updateDecisionCache s.caches (componentName s.tree identifier) false true none
  | .patch .. | .leaf .. => s.caches

/-- The newest report with an identifier is finished. -/
def markFinished (identifier : String) : List Record → List Record
  | [] => []
  | record :: older =>
    if record.identifier = identifier then { record with finished := true } :: older
    else record :: markFinished identifier older

def recorded (ever : List Record) : Upload → List Record
  | .start identifier _ component _ | .verification identifier _ component _ => ⟨identifier, component, false⟩ :: ever
  | .finish identifier _ | .verificationFinish identifier => markFinished identifier ever
  | .patch .. | .leaf .. => ever

def upload (lightweight : Bool) (s : Counted) (message : Upload × Resources) : Option Counted :=
  (s.tree.upload lightweight message.1).map fun tree => ⟨tree, s.account message.2 message.1, recorded s.ever message.1⟩

def uploadAll (lightweight : Bool) (s : Counted) (messages : List (Upload × Resources)) : Option Counted :=
  messages.foldlM (upload lightweight) s

/-- The caches count reports: all of them and the finished ones. -/
def Exact (s : Counted) : Prop :=
  ∀ component, (cacheOf s.caches component).total = s.ever.countP (·.component = component) ∧
    (cacheOf s.caches component).finished = s.ever.countP fun record => record.component = component ∧ record.finished

/-- The newest record with the identifier of a component report tells of it. -/
def Tells (ever : List Record) (identifier : String) (kind : Kind) : Prop :=
  ∀ name verification finished, kind = .component name verification finished →
    ever.find? (·.identifier = identifier) = some ⟨identifier, name, finished⟩

/-- All reports are recorded, and verification reports are below others. -/
structure Known (reports : List Report) (ever : List Record) : Prop where
  newest : ∀ r ∈ reports, Tells ever r.identifier r.kind
  below : ∀ r ∈ reports, r.kind.verification = true → r.parent ≠ none

/-- No verification report is finished again. -/
def FinishesOnce (s : Counted) : Upload → Prop
  | .verificationFinish identifier => ∀ r, s.tree.component? identifier = some r → r.kind.finished = false
  | _ => True

end Counted

variable {ever : List Record} {component : String} {reports : List Report} {r : Report}

theorem kind_updated {finish : Bool} (r : Report) : (Tree.updated id attrs finish r).kind =
    if r.identifier = id ∧ finish = true then r.kind.finish else r.kind := by
  unfold Tree.updated
  by_cases own : r.identifier = id
  · cases finish <;> simp [own]
  · simp [own]

/-- A report that is below another one really is moved. -/
theorem Ordered.kind_moved (ordered : Ordered reports) {core x : Report} (mem : r ∈ reports) (below : r.parent ≠ none)
    (was : x ∈ reports) : (Tree.moved r.identifier core x).kind =
      if x.identifier = r.identifier then x.kind.finish else x.kind := by
  unfold Tree.moved
  by_cases own : x.identifier = r.identifier
  · obtain rfl := ordered.eq_of_identifier was mem own
    simp [below]
  · simp [own]

theorem find?_markFinished (other : String) : (Counted.markFinished identifier ever).find? (·.identifier = other) =
      (ever.find? (·.identifier = other)).map fun record =>
        if other = identifier then { record with finished := true } else record := by
  induction ever with
  | nil => rfl
  | cons record older ih =>
    rw [Counted.markFinished]
    by_cases own : record.identifier = identifier
    · by_cases here : record.identifier = other
      · have same : other = identifier := here.symm.trans own
        simp [own, same]
      · have ne : other ≠ identifier := fun same => here (own.trans same.symm)
        simp [own, ne, Ne.symm ne]
    · rw [if_neg own]
      by_cases here : record.identifier = other
      · have ne : other ≠ identifier := fun same => own (here.trans same)
        simp [here, ne]
      · simpa [here] using ih

theorem countP_markFinished : (Counted.markFinished id ever).countP (·.component = component) =
    ever.countP (·.component = component) := by
  induction ever with
  | nil => rfl
  | cons record older ih =>
    rw [Counted.markFinished]
    split
    · simp [countP_cons]
    · simp only [countP_cons, ih]

/-- One more report of the component is finished, unless it was finished before. -/
theorem countP_finished_markFinished {record : Record} (newest : ever.find? (·.identifier = id) = some record) :
    (Counted.markFinished id ever).countP (fun x => x.component = component ∧ x.finished) =
      ever.countP (fun x => x.component = component ∧ x.finished) +
        if record.component = component ∧ record.finished = false then 1 else 0 := by
  induction ever with
  | nil => cases newest
  | cons first older ih =>
    rw [Counted.markFinished]
    by_cases own : first.identifier = id
    · rw [find?_cons_of_pos (by simpa using own)] at newest
      cases newest
      rw [if_pos own, countP_cons, countP_cons]
      by_cases is : record.component = component <;> cases record.finished <;> simp [is]
    · rw [find?_cons_of_neg (by simpa using own)] at newest
      rw [if_neg own, countP_cons, countP_cons, ih newest]
      omega

namespace Counted

theorem Tells.markFinished (tells : Tells ever r.identifier r.kind) (id : String) :
    Tells (markFinished id ever) r.identifier
      (if r.identifier = id then r.kind.finish else r.kind) := by
  intro name verification finished is
  rw [find?_markFinished]
  split at is
  next own =>
    rw [own] at tells ⊢
    cases was : r.kind with
    | leaf kind =>
      rw [was] at is
      cases is
    | component name verification finished =>
      rw [was] at is
      cases is
      rw [tells _ _ _ was]
      simp
  next other =>
    rw [tells _ _ _ is]
    simp [other]

theorem known_iff : Known reports ever ↔
    ∀ r ∈ reports, Tells ever r.identifier r.kind ∧ (r.kind.verification = true → r.parent ≠ none) :=
  ⟨fun known r mem => ⟨known.newest r mem, known.below r mem⟩,
    fun all => ⟨fun r mem => (all r mem).1, fun r mem => (all r mem).2⟩⟩

theorem verification_finish (c : Prop) [Decidable c] (kind : Kind) :
    (if c then kind.finish else kind).verification = kind.verification := by
  split
  · cases kind <;> rfl
  · rfl

section

variable (known : Known reports ever)

include known

/-- A new report with its record. -/
theorem Known.cons (fits : r.Fits reports) {name : String} {verification : Bool}
    (is : r.kind = .component name verification false) (below : verification = true → r.parent ≠ none) :
    Known (r :: reports) (⟨r.identifier, name, false⟩ :: ever) := by
  rw [known_iff, forall_mem_cons, is]
  refine ⟨⟨fun name' verification' finished' same => ?_, below⟩, fun x old => ⟨?_, known.below x old⟩⟩
  · cases same
    rw [find?_cons_of_pos (by simp)]
  · intro name' verification' finished' same
    have ne : r.identifier ≠ x.identifier := fun same => fits.1 (List.mem_map.mpr ⟨x, old, same.symm⟩)
    rw [find?_cons_of_neg (by simpa using ne)]
    exact known.newest x old _ _ _ same

theorem Known.consLeaf {leaf : LeafKind} (is : r.kind = .leaf leaf) :
    Known (r :: reports) ever := by
  rw [known_iff, forall_mem_cons, is]
  refine ⟨⟨fun name verification finished same => ?_, Bool.noConfusion⟩, known_iff.mp known⟩
  cases same

theorem Known.updated (attrs : List Attr) :
    Known (reports.map (Tree.updated id attrs true)) (markFinished id ever) := by
  rw [known_iff, List.forall_mem_map]
  intro r was
  obtain ⟨identifier, parent⟩ := Tree.updated_keeps id attrs true r
  rw [kind_updated, identifier, parent, verification_finish]
  simp only [and_true]
  exact ⟨(known.newest r was).markFinished id, known.below r was⟩

theorem Known.patched (attrs : List Attr) :
    Known (reports.map (Tree.updated id attrs false)) ever := by
  rw [known_iff, List.forall_mem_map]
  intro r was
  obtain ⟨identifier, parent⟩ := Tree.updated_keeps id attrs false r
  rw [kind_updated, if_neg (by simp), identifier, parent]
  exact ⟨known.newest r was, known.below r was⟩

theorem Known.moved (ordered : Ordered reports) {core : Report} (mem : r ∈ reports)
    (verification : r.kind.verification = true) :
    Known (reports.map (Tree.moved r.identifier core)) (markFinished r.identifier ever) := by
  rw [known_iff, List.forall_mem_map]
  intro x was
  rw [ordered.kind_moved mem (known.below r mem verification) was, Tree.moved_identifier, verification_finish]
  refine ⟨(known.newest x was).markFinished r.identifier, fun verified => ?_⟩
  rcases Tree.moved_parent r.identifier core x with keeps | ⟨-, moved⟩
  · rw [keeps]
    exact known.below x was verified
  · rw [moved]
    exact some_ne_none _

theorem Known.removed (ordered : Ordered reports) :
    Known (reports.filter (outside reports id)) (markFinished id ever) := by
  constructor
  · intro x mem
    obtain ⟨was, out⟩ := mem_filter.mp mem
    rw [outside, ordered.lineage_eq was, decide_eq_true_eq, map_cons, mem_cons, not_or] at out
    have tells := (known.newest x was).markFinished id
    rwa [if_neg (Ne.symm out.1)] at tells
  · intro x mem
    exact known.below x (mem_filter.mp mem).1

end

/-- Each upload keeps reports recorded. -/
theorem known_of_upload {s s' : Counted} {message : Upload × Resources}
    (known : Known s.tree.reports s.ever) (done : s.upload lightweight message = some s') :
    Known s'.tree.reports s'.ever := by
  obtain ⟨u, resources⟩ := message
  obtain ⟨tree, uploaded, rfl⟩ := map_eq_some_iff.mp done
  have effect := upload_effect uploaded
  generalize tree.reports = reports at effect
  cases effect with
  | start is fits =>
    have new := known.cons fits (congrArg Report.kind is) nofun
    rwa [congrArg Report.identifier is] at new
  | verification is fits =>
    have new := known.cons fits (congrArg Report.kind is) fun _ => by
      rw [is]
      exact some_ne_none _
    rwa [congrArg Report.identifier is] at new
  | patch => exact known.patched _
  | finish => exact known.updated _
  | finishRemoved => exact known.removed s.tree.ordered
  | verificationFinish => exact known.updated _
  | verificationMoved found verification =>
    obtain ⟨mem, rfl, -⟩ := component?_spec found
    exact known.moved s.tree.ordered mem verification
  | verificationRemoved => exact known.removed s.tree.ordered
  | leaf found last made is => exact known.consLeaf (congrArg Report.kind is)

end Counted

theorem counts_updateDecisionCache (caches : Dict String DecisionCache) (name component : String)
    (started finished : Bool) (resources : Option Resources) :
    let updated := cacheOf (updateDecisionCache caches name started finished resources) component
    updated.total = (cacheOf caches component).total + (if component = name then started.toNat else 0) ∧
      updated.finished = (cacheOf caches component).finished + if component = name then finished.toNat else 0 := by
  by_cases own : component = name
  · subst own
    cases resources <;> simp [cacheOf, updateDecisionCache]
  · simp [cacheOf, updateDecisionCache, Dict.get?_set_of_ne _ _ own, own]

namespace Counted

variable {s s' : Counted} {lightweight : Bool} {message : Upload × Resources} {tree : Tree} {id : String}

/-- A report is uploaded. -/
theorem Exact.start (exact : s.Exact) (component : String) (resources : Option Resources) :
    Exact ⟨tree, updateDecisionCache s.caches component true false resources, ⟨id, component, false⟩ :: s.ever⟩ := by
  intro name
  obtain ⟨total, finished⟩ := exact name
  rw [(counts_updateDecisionCache ..).1, (counts_updateDecisionCache ..).2, countP_cons, countP_cons, total, finished]
  by_cases own : name = component
  · simp [own]
  · simp [own, Ne.symm own]

/-- A report is finished: counters stay exact if and only if it is for the first time. -/
theorem exact_finish_iff (exact : s.Exact) (known : Known s.tree.reports s.ever) {r : Report}
    (found : s.tree.component? id = some r) (resources : Option Resources) :
    Exact ⟨tree, updateDecisionCache s.caches (componentName s.tree id) false true resources,
      markFinished id s.ever⟩ ↔ r.kind.finished = false := by
  obtain ⟨mem, rfl, component⟩ := component?_spec found
  obtain ⟨id, parent, kind, attrs⟩ := r
  cases kind with
  | leaf kind => cases component
  | component name verification again =>
    have newest := known.newest _ mem name verification again rfl
    have is : componentName s.tree id = name := by simp only [componentName, found]
    rw [is]
    constructor
    · intro after
      obtain ⟨-, finished⟩ := after name
      obtain ⟨-, before⟩ := exact name
      rw [(counts_updateDecisionCache ..).2, countP_finished_markFinished newest, before] at finished
      cases again with
      | false => rfl
      | true => simp at finished
    · rintro (rfl : again = false)
      intro other
      obtain ⟨total, finished⟩ := exact other
      rw [(counts_updateDecisionCache ..).1, (counts_updateDecisionCache ..).2, countP_markFinished,
        countP_finished_markFinished newest, total, finished]
      by_cases own : other = name
      · simp [own]
      · simp [own, Ne.symm own]

theorem exact_upload_iff (known : Known s.tree.reports s.ever) (exact : s.Exact)
    (done : s.upload lightweight message = some s') : s'.Exact ↔ s.FinishesOnce message.1 := by
  obtain ⟨u, resources⟩ := message
  obtain ⟨tree, uploaded, rfl⟩ := map_eq_some_iff.mp done
  have effect := upload_effect uploaded
  cases u with
  | start id parent component attrs => exact iff_of_true (exact.start component none) trivial
  | verification id parent component attrs =>
    exact iff_of_true (exact.start component (some resources)) trivial
  | patch id attrs => exact iff_of_true exact trivial
  | leaf kind id parent attrs => exact iff_of_true exact trivial
  | finish id attrs =>
    refine iff_of_true ?_ trivial
    generalize tree.reports = reports at effect
    cases effect with
    | finish found unfinished => exact (exact_finish_iff exact known found _).mpr unfinished
    | finishRemoved found unfinished => exact (exact_finish_iff exact known found _).mpr unfinished
  | verificationFinish id =>
    have some : ∃ r, s.tree.component? id = some r := by
      generalize tree.reports = reports at effect
      cases effect with
      | verificationFinish found => exact ⟨_, found⟩
      | verificationMoved found => exact ⟨_, found⟩
      | verificationRemoved found => exact ⟨_, found⟩
    obtain ⟨r, found⟩ := some
    refine (exact_finish_iff exact known found none).trans ⟨fun first x is => ?_, fun once => once r found⟩
    cases found.symm.trans is
    exact first

/-- Counters that are exact tell of no more finished reports than there are. -/
theorem Exact.le (exact : s.Exact) (component : String) :
    (cacheOf s.caches component).finished ≤ (cacheOf s.caches component).total := by
  obtain ⟨total, finished⟩ := exact component
  rw [total, finished]
  refine countP_mono_left fun record _ is => ?_
  simp only [decide_eq_true_eq] at is ⊢
  exact is.1

/-- The component counters of a decision are exact in every state if and only if no verification report is finished
again. -/
theorem counters_exact_iff {messages : List (Upload × Resources)} {after : Counted}
    (ran : empty.uploadAll lightweight messages = some after) :
    (∀ n s, empty.uploadAll lightweight (messages.take n) = some s → s.Exact ∧
      ∀ component, (cacheOf s.caches component).finished ≤ (cacheOf s.caches component).total) ↔
      ∀ n message s, messages[n]? = some message → empty.uploadAll lightweight (messages.take n) = some s →
        s.FinishesOnce message.1 := by
  have known : Known empty.tree.reports empty.ever := by
    constructor
    · exact fun _ mem => absurd mem not_mem_nil
    · exact fun _ mem => absurd mem not_mem_nil
  have states := @foldlM_states_iff _ _ _ (fun s : Counted => Known s.tree.reports s.ever) Exact
    (fun s message => s.FinishesOnce message.1) _ _ _ ran known (fun _ => ⟨rfl, rfl⟩) known_of_upload exact_upload_iff
  constructor
  · exact fun all => states.mp fun n s before => (all n s before).1
  · exact fun once n s before => ⟨states.mpr once n s before, (states.mpr once n s before).le⟩

end Counted

/-- A verification report below the Core report that is finished. -/
def verified : List (Upload × Resources) :=
  [(.start "/" none "Core" [], ⟨0, 0, 0⟩), (.verification "/V" "/" "CPAchecker" [], ⟨5, 5, 5⟩),
    (.verificationFinish "/V", ⟨0, 0, 0⟩)]

theorem verified_exact : (Counted.empty.uploadAll false verified).isSome ∧
    ∀ n s, Counted.empty.uploadAll false (verified.take n) = some s → s.Exact ∧
      ∀ component, (cacheOf s.caches component).finished ≤ (cacheOf s.caches component).total := by
  have succeeds : (Counted.empty.uploadAll false verified).isSome := by decide +kernel
  obtain ⟨after, ran⟩ := isSome_iff_exists.mp succeeds
  refine ⟨succeeds, (Counted.counters_exact_iff ran).mpr fun n message s found before => ?_⟩
  have once : ((verified.take 2).foldlM (Counted.upload false) Counted.empty).map (fun s =>
      (s.tree.component? "/V").map fun r => r.kind.finished) = some (some false) := by decide +kernel
  rcases n with _ | _ | _ | n
  · cases found
    trivial
  · cases found
    trivial
  · cases found
    intro r is
    rw [show (verified.take 2).foldlM (Counted.upload false) Counted.empty = some s from before, map_some, is,
      map_some, some.injEq, some.injEq] at once
    exact once
  · cases found

/-- The verification report is finished twice. -/
theorem verified_again_inexact : ∃ s,
    Counted.empty.uploadAll false (verified ++ [(.verificationFinish "/V", ⟨0, 0, 0⟩)]) = some s ∧ ¬ s.Exact ∧
      ¬ (cacheOf s.caches "CPAchecker").finished ≤ (cacheOf s.caches "CPAchecker").total := by
  have numbers : (Counted.empty.uploadAll false (verified ++ [(.verificationFinish "/V", ⟨0, 0, 0⟩)])).map (fun s =>
      ((cacheOf s.caches "CPAchecker").total, (cacheOf s.caches "CPAchecker").finished)) = some (1, 2) := by
    decide +kernel
  obtain ⟨s, ran, is⟩ := map_eq_some_iff.mp numbers
  obtain ⟨total, finished⟩ := Prod.mk.inj is
  have more : ¬ (cacheOf s.caches "CPAchecker").finished ≤ (cacheOf s.caches "CPAchecker").total := by
    rw [total, finished]
    decide
  exact ⟨s, ran, fun exact => more (exact.le "CPAchecker"), more⟩

end Klever.Bridge.Uploads
