import Klever.Bridge.Counters

/-!
# Lightweight decisions

A lightweight decision keeps verdicts and little else. Components are deleted when they finish. Verification reports with
verdicts are moved below the Core report when they finish, and unknowns of other components are put below it at once. So
nothing is lost if all below a component is finished before it (`lightweight_keeps_leaves`), with three provisos that
nothing checks: verification reports are finished by messages of their own kind, there are no verdicts for those finished
already, and unsafes are not uploaded for other components than Core.

Which verdicts a component shows is stored in rows that are made when a verdict is uploaded and go with either of the two.
The Core report has a row for each verdict that is left, in both kinds of decisions.
-/

namespace Klever.Bridge.Uploads

open Klever.Lib List Option Klever.Bridge.Uploads.Tree

/-- A report is right below the Core report. -/
def AtCore (reports : List Report) (r : Report) : Prop :=
  ∃ core ∈ reports, core.parent = none ∧ r.parent = some core.identifier

def HasLeaf (reports : List Report) (identifier : String) (kind : LeafKind) (attrs : List Attr) : Prop :=
  ∃ parent, ⟨identifier, parent, .leaf kind, attrs⟩ ∈ reports

/-- The reports of a lightweight decision beside those of a full-weight one with the same uploads. -/
structure Keeps (full light : List Report) : Prop where
  root : ∀ r, r.parent = none → (r ∈ full ↔ r ∈ light)
  below : ∀ r ∈ full, r.kind.verification = true → r.parent ≠ none
  same : ∀ r ∈ light, r.isComponent = true → ∃ x ∈ full, x.identifier = r.identifier ∧ x.kind = r.kind ∧
    x.attrs = r.attrs ∧ (x.parent = r.parent ∨ AtCore light r ∧ x.parent ≠ none)
  unfinished : ∀ r ∈ full, r.isComponent = true → r.kind.finished = false → r ∈ light
  finished : ∀ r ∈ light, r.isComponent = true → r.kind.finished = true →
    r.parent = none ∨ r.kind.verification = true ∧ AtCore light r
  leaves : ∀ identifier kind attrs, HasLeaf full identifier kind attrs ↔ HasLeaf light identifier kind attrs
  placed : ∀ r ∈ light, r.isComponent = false →
    ∃ x ∈ light, r.parent = some x.identifier ∧ (x.parent = none ∨ x.kind.verification = true)

/-! ## Branches -/

variable {full light : List Report} {r a : Report}

/-- All above a report of the lightweight decision is above it in the full-weight one. -/
theorem Keeps.above (keeps : Keeps full light) (inFull : Ordered full) (inLight : Ordered light) (mem : r ∈ light)
    (component : r.isComponent = true) (above : a ∈ lineage light (some r.identifier)) :
    a.identifier ∈ (lineage full (some r.identifier)).map (·.identifier) := by
  -- along the branch, which gets shorter
  induction length : (lineage light (some r.identifier)).length generalizing r with
  | zero =>
    rw [length_eq_zero_iff.mp length] at above
    cases above
  | succ n ih =>
    obtain ⟨x, mem_x, id, -, -, parents⟩ := keeps.same r mem component
    have branch := inFull.lineage_eq mem_x
    rw [id] at branch
    rw [inLight.lineage_eq mem] at above length
    rw [branch, map_cons, id]
    rcases mem_cons.mp above with rfl | above
    · exact mem_cons_self
    · refine mem_cons_of_mem _ ?_
      rcases parents with parent | ⟨⟨core, mem_core, isRoot, here⟩, below⟩
      · rw [parent]
        cases is : r.parent with
        | none =>
          rw [is, lineage_none] at above
          cases above
        | some p =>
          obtain ⟨y, mem_y, rfl, component_y⟩ := inLight.parent_mem mem is
          rw [is] at above length
          exact ih mem_y component_y above (Nat.succ_injective length)
      · rw [here, inLight.lineage_root mem_core isRoot, mem_singleton] at above
        subst above
        -- the Core report is above everything
        obtain ⟨p, is⟩ := ne_none_iff_exists'.mp below
        obtain ⟨y, mem_y, rfl, -⟩ := inFull.parent_mem mem_x is
        have last := inFull.last_root ((keeps.root a isRoot).mpr mem_core) isRoot
        rw [is]
        exact List.mem_map_of_mem (inFull.core mem_y last).1

/-- Branches are the same, unless there are finished verification reports on them. -/
theorem Keeps.lineage_eq (keeps : Keeps full light) (inFull : Ordered full) (inLight : Ordered light) (mem : r ∈ light)
    (component : r.isComponent = true)
    (usual : ∀ a ∈ lineage full (some r.identifier), a.kind.verification = true → a.kind.finished = false) :
    lineage full (some r.identifier) = lineage light (some r.identifier) := by
  induction length : (lineage light (some r.identifier)).length generalizing r with
  | zero =>
    rw [inLight.lineage_eq mem] at length
    cases length
  | succ n ih =>
    have there : r ∈ full := by
      cases finished : r.kind.finished with
      | true =>
        rcases keeps.finished r mem component finished with isRoot | ⟨verification, -⟩
        · exact (keeps.root r isRoot).mpr mem
        · obtain ⟨x, mem_x, id, kind, -⟩ := keeps.same r mem component
          have first := usual x (by rw [← id, inFull.lineage_eq mem_x]; exact mem_cons_self)
          rw [kind, finished] at first
          cases first verification
      | false =>
        obtain ⟨x, mem_x, id, kind, -⟩ := keeps.same r mem component
        have component' : x.isComponent = true := by rwa [Report.isComponent, kind]
        have known := keeps.unfinished x mem_x component' (kind ▸ finished)
        rwa [← inLight.eq_of_identifier known mem id]
    rw [inFull.lineage_eq there, inLight.lineage_eq mem]
    cases is : r.parent with
    | none => rw [lineage_none, lineage_none]
    | some p =>
      obtain ⟨y, mem_y, rfl, component_y⟩ := inLight.parent_mem mem is
      rw [inLight.lineage_eq mem, is] at length
      rw [ih mem_y component_y (fun a above => usual a ?_) (Nat.succ_injective length)]
      rw [inFull.lineage_eq there, is]
      exact mem_cons_of_mem _ above

/-! ## Steps -/

variable {x : Report} {reports : List Report} {id : String} {attrs : List Attr} {finish : Bool}

theorem finished_finish (kind : Kind) : kind.finish.finished = kind.isComponent := by
  cases kind <;> rfl

theorem updated_of_ne (other : r.identifier ≠ id) : updated id attrs finish r = r := if_neg other

theorem verification_updated (r : Report) : (updated id attrs finish r).kind.verification = r.kind.verification := by
  rw [kind_updated, Counted.verification_finish]

/-- Components that are not finished then have not been finished before. -/
theorem updated_open (is : (updated id attrs finish r).isComponent = true)
    (opened : (updated id attrs finish r).kind.finished = false) :
    r.kind.finished = false ∧ (finish = true → r.identifier ≠ id) := by
  rw [kind_updated] at opened
  split at opened
  · rw [finished_finish, ← Report.isComponent, ← updated_isComponent id attrs finish, is] at opened
    cases opened
  next other => exact ⟨opened, fun done own => other ⟨own, done⟩⟩

theorem Keeps.below_updated (keeps : Keeps full light) :
    ∀ x ∈ full.map (updated id attrs finish), x.kind.verification = true → x.parent ≠ none := by
  refine List.forall_mem_map.mpr fun x was verification => ?_
  rw [(updated_keeps id attrs finish x).2]
  exact keeps.below x was (verification_updated x ▸ verification)

theorem AtCore.cons (core : AtCore light r) : AtCore (x :: light) r := by
  obtain ⟨core, mem, isRoot, here⟩ := core
  exact ⟨core, mem_cons_of_mem _ mem, isRoot, here⟩

variable {leaf : LeafKind}

theorem hasLeaf_cons : HasLeaf (r :: light) id leaf attrs ↔
      r.identifier = id ∧ r.kind = .leaf leaf ∧ r.attrs = attrs ∨ HasLeaf light id leaf attrs := by
  constructor
  · rintro ⟨parent, mem⟩
    rcases mem_cons.mp mem with rfl | old
    · exact .inl ⟨rfl, rfl, rfl⟩
    · exact .inr ⟨parent, old⟩
  · rintro (⟨rfl, kind, rfl⟩ | ⟨parent, old⟩)
    · refine ⟨r.parent, mem_cons.mpr (.inl ?_)⟩
      rw [← kind]
    · exact ⟨parent, mem_cons_of_mem _ old⟩

/-- A new report. A component is the same in both decisions, and a verdict may have different parents. -/
theorem Keeps.cons (keeps : Keeps full light) {r' : Report} (id : r'.identifier = r.identifier)
    (kind : r'.kind = r.kind) (attrs : r'.attrs = r.attrs) (below : r.kind.verification = true → r.parent ≠ none)
    (component : r.isComponent = true → r' = r ∧ r.kind.finished = false)
    (leaf : r.isComponent = false → r.parent ≠ none ∧
      ∃ x ∈ light, r'.parent = some x.identifier ∧ (x.parent = none ∨ x.kind.verification = true)) :
    Keeps (r :: full) (r' :: light) where
  root x isRoot := by
    cases is : r.isComponent with
    | true => rw [(component is).1, mem_cons, mem_cons, keeps.root x isRoot]
    | false =>
      obtain ⟨lower, y, -, lower', -⟩ := leaf is
      have new : x ≠ r ∧ x ≠ r' := ⟨fun own => lower (own ▸ isRoot), fun own => by simp [own, lower'] at isRoot⟩
      simp [new, keeps.root x isRoot]
  below x mem verification := by
    rcases mem_cons.mp mem with rfl | old
    · exact below verification
    · exact keeps.below x old verification
  same x mem is := by
    rcases mem_cons.mp mem with rfl | old
    · rw [Report.isComponent, kind] at is
      exact ⟨r, mem_cons_self, id.symm, kind.symm, attrs.symm, .inl (by rw [(component is).1])⟩
    · obtain ⟨y, mem_y, id, kind, attrs, parent⟩ := keeps.same x old is
      exact ⟨y, mem_cons_of_mem _ mem_y, id, kind, attrs, parent.imp_right fun core => ⟨core.1.cons, core.2⟩⟩
  unfinished x mem is unfinished := by
    rcases mem_cons.mp mem with rfl | old
    · exact (component is).1 ▸ mem_cons_self
    · exact mem_cons_of_mem _ (keeps.unfinished x old is unfinished)
  finished x mem is finished := by
    rcases mem_cons.mp mem with rfl | old
    · rw [Report.isComponent, kind] at is
      rw [kind, (component is).2] at finished
      cases finished
    · exact (keeps.finished x old is finished).imp_right fun core => ⟨core.1, core.2.cons⟩
  leaves name leaf more := by rw [hasLeaf_cons, hasLeaf_cons, keeps.leaves, id, kind, attrs]
  placed x mem is := by
    rcases mem_cons.mp mem with rfl | old
    · rw [Report.isComponent, kind] at is
      obtain ⟨-, y, mem_y, is, place⟩ := leaf is
      exact ⟨y, mem_cons_of_mem _ mem_y, is, place⟩
    · obtain ⟨y, mem_y, is, place⟩ := keeps.placed x old is
      exact ⟨y, mem_cons_of_mem _ mem_y, is, place⟩

/-- Verdicts stay if only components are changed. -/
theorem hasLeaf_map {f : Report → Report}
    (components : ∀ x, (f x).isComponent = x.isComponent) (leaves : ∀ x ∈ reports, x.isComponent = false → f x = x)
    {name : String} {more : List Attr} : HasLeaf (reports.map f) name leaf more ↔ HasLeaf reports name leaf more := by
  constructor
  · rintro ⟨parent, here⟩
    obtain ⟨x, was, is⟩ := List.mem_map.mp here
    rw [leaves x was (by rw [← components, is]; rfl)] at is
    exact ⟨parent, is ▸ was⟩
  · rintro ⟨parent, was⟩
    exact ⟨parent, List.mem_map.mpr ⟨_, was, leaves _ was rfl⟩⟩

section

variable (ordered : Ordered reports) (mem : r ∈ reports)

include ordered mem

theorem Ordered.ne_of_leaf (component : r.isComponent = true) (was : x ∈ reports) (leaf : x.isComponent = false) :
    x.identifier ≠ r.identifier := by
  intro own
  rw [ordered.eq_of_identifier was mem own, component] at leaf
  cases leaf

theorem Ordered.ne_of_root (below : r.parent ≠ none) (was : x ∈ reports) (root : x.parent = none) :
    x.identifier ≠ r.identifier := by
  intro own
  rw [ordered.eq_of_identifier was mem own] at root
  exact below root

theorem hasLeaf_updated (component : r.isComponent = true) {name : String} {more : List Attr} :
    HasLeaf (reports.map (updated r.identifier attrs finish)) name leaf more ↔ HasLeaf reports name leaf more :=
  hasLeaf_map (updated_isComponent r.identifier attrs finish) fun _ was leaf =>
    updated_of_ne (ordered.ne_of_leaf mem component was leaf)

end

theorem AtCore.updated (core : AtCore light r) :
    AtCore (light.map (updated id attrs finish)) (updated id attrs finish r) := by
  obtain ⟨core, mem, isRoot, here⟩ := core
  have keeps := updated_keeps id attrs finish
  exact ⟨_, List.mem_map_of_mem mem, (keeps core).2.trans isRoot, by rw [(keeps r).2, here, (keeps core).1]⟩

section

variable (keeps : Keeps full light) (inFull : Ordered full) (inLight : Ordered light) (mem : r ∈ full)

include keeps inFull inLight mem

/-- The Core report is not below another one. -/
theorem Keeps.root_outside (below : r.parent ≠ none) (was : x ∈ light) (root : x.parent = none) :
    outside light r.identifier x = true := by
  rw [inLight.outside_iff was, root, lineage_none]
  exact ⟨inFull.ne_of_root mem below ((keeps.root x root).mpr was) root, not_mem_nil⟩

/-- A component is updated in both decisions; only the Core report may be finished so. -/
theorem Keeps.updated (mem' : r ∈ light) (component : r.isComponent = true) (root : finish = true → r.parent = none) :
    Keeps (full.map (updated r.identifier attrs finish)) (light.map (updated r.identifier attrs finish)) := by
  have stays := updated_keeps r.identifier attrs finish
  have components := updated_isComponent r.identifier attrs finish
  constructor
  case root =>
    intro y isRoot
    constructor
    · intro mem
      obtain ⟨x, was, rfl⟩ := List.mem_map.mp mem
      exact List.mem_map_of_mem ((keeps.root x ((stays x).2 ▸ isRoot)).mp was)
    · intro mem
      obtain ⟨x, was, rfl⟩ := List.mem_map.mp mem
      exact List.mem_map_of_mem ((keeps.root x ((stays x).2 ▸ isRoot)).mpr was)
  case below => exact keeps.below_updated
  case same =>
    refine List.forall_mem_map.mpr fun x was is => ?_
    obtain ⟨z, there, id, kind, own, parent⟩ := keeps.same x was (components x ▸ is)
    refine ⟨_, List.mem_map_of_mem there, ?_, ?_, ?_, ?_⟩
    · rw [(stays z).1, (stays x).1, id]
    · rw [kind_updated, kind_updated, id, kind]
    · rw [updated_attrs, updated_attrs, id, own]
    · rw [(stays z).2, (stays x).2]
      exact parent.imp_right fun core => ⟨core.1.updated, core.2⟩
  case unfinished =>
    refine List.forall_mem_map.mpr fun x was is unfinished => ?_
    exact List.mem_map_of_mem (keeps.unfinished x was (components x ▸ is) (updated_open is unfinished).1)
  case finished =>
    refine List.forall_mem_map.mpr fun x was is finished => ?_
    rw [verification_updated, (stays x).2]
    rw [kind_updated] at finished
    split at finished
    next own =>
      obtain rfl := inLight.eq_of_identifier was mem' own.1
      exact .inl (root own.2)
    next =>
      have before := keeps.finished x was (components x ▸ is) finished
      exact before.imp_right fun core => ⟨core.1, core.2.updated⟩
  case leaves =>
    intro id kind more
    rw [hasLeaf_updated inFull mem component, hasLeaf_updated inLight mem' component, keeps.leaves]
  case placed =>
    refine List.forall_mem_map.mpr fun x was leaf => ?_
    obtain ⟨z, there, is, place⟩ := keeps.placed x was (components x ▸ leaf)
    refine ⟨_, List.mem_map_of_mem there, ?_, ?_⟩
    · rw [(stays x).2, (stays z).1, is]
    · rw [(stays z).2, verification_updated]
      exact place

/-- A component is finished, and it is deleted in the lightweight decision with all below it. -/
theorem Keeps.removed (component : r.isComponent = true) (below : r.parent ≠ none)
    (unfinished : ∀ x ∈ full, x.isComponent = true → x.kind.finished = false → x.identifier ≠ r.identifier →
      outside light r.identifier x = true)
    (leaves : ∀ x ∈ light, x.isComponent = false → outside light r.identifier x = true) :
    Keeps (full.map (Tree.updated r.identifier attrs true)) (light.filter (outside light r.identifier)) := by
  have other {x : Report} (was : x ∈ light) (out : outside light r.identifier x = true) :
      x.identifier ≠ r.identifier := ((inLight.outside_iff was).mp out).1
  have rootStays {x : Report} (isRoot : x.parent = none) (was : x ∈ light) :
      outside light r.identifier x = true := keeps.root_outside inFull inLight mem below was isRoot
  have atCore {x : Report} (core : AtCore light x) : AtCore (light.filter (outside light r.identifier)) x := by
    obtain ⟨core, was, isRoot, here⟩ := core
    exact ⟨core, mem_filter.mpr ⟨was, rootStays isRoot was⟩, isRoot, here⟩
  constructor
  case root =>
    intro y isRoot
    constructor
    · intro mem'
      obtain ⟨x, was, rfl⟩ := List.mem_map.mp mem'
      rw [(updated_keeps r.identifier attrs true x).2] at isRoot
      rw [updated_of_ne (inFull.ne_of_root mem below was isRoot)]
      have there := (keeps.root x isRoot).mp was
      exact mem_filter.mpr ⟨there, rootStays isRoot there⟩
    · intro mem'
      obtain ⟨was, out⟩ := mem_filter.mp mem'
      exact List.mem_map.mpr ⟨y, (keeps.root y isRoot).mpr was, updated_of_ne (other was out)⟩
  case below => exact keeps.below_updated
  case same =>
    intro x mem' is
    obtain ⟨was, out⟩ := mem_filter.mp mem'
    obtain ⟨z, there, id, kind, own, parent⟩ := keeps.same x was is
    have ne : z.identifier ≠ r.identifier := id ▸ other was out
    refine ⟨z, List.mem_map.mpr ⟨z, there, updated_of_ne ne⟩, id, kind, own, ?_⟩
    exact parent.imp_right fun core => ⟨atCore core.1, core.2⟩
  case unfinished =>
    intro y mem' is opened
    obtain ⟨x, was, rfl⟩ := List.mem_map.mp mem'
    obtain ⟨before, ne⟩ := updated_open is opened
    rw [updated_of_ne (ne rfl)] at is ⊢
    exact mem_filter.mpr ⟨keeps.unfinished x was is before, unfinished x was is before (ne rfl)⟩
  case finished =>
    intro x mem' is finished
    obtain ⟨was, -⟩ := mem_filter.mp mem'
    exact (keeps.finished x was is finished).imp_right fun core => ⟨core.1, atCore core.2⟩
  case leaves =>
    intro id kind more
    rw [hasLeaf_updated inFull mem component, keeps.leaves]
    constructor
    · rintro ⟨parent, was⟩
      exact ⟨parent, mem_filter.mpr ⟨was, leaves _ was rfl⟩⟩
    · rintro ⟨parent, was⟩
      exact ⟨parent, (mem_filter.mp was).1⟩
  case placed =>
    intro x mem' leaf
    obtain ⟨was, out⟩ := mem_filter.mp mem'
    obtain ⟨z, there, is, place⟩ := keeps.placed x was leaf
    exact ⟨z, mem_filter.mpr ⟨there, inLight.outside_up x was out z there is⟩, is, place⟩

/-- A verification report is finished, and it is moved in the lightweight decision. -/
theorem Keeps.moved {core : Report} (verification : r.kind.verification = true) (mem' : x ∈ light)
    (own : x.identifier = r.identifier) (component : x.isComponent = true) (there : core ∈ light)
    (isRoot : core.parent = none) :
    Keeps (full.map (Tree.updated r.identifier [] true)) (light.map (Tree.moved r.identifier core)) := by
  have stays := Tree.updated_keeps r.identifier [] true
  have isComponent : r.isComponent = true := by
    rw [Report.isComponent]
    cases is : r.kind with
    | leaf kind =>
      rw [is] at verification
      cases verification
    | component => rfl
  -- the report is below another one in both decisions
  have below := keeps.below r mem verification
  have below' : x.parent ≠ none := fun isRoot =>
    inFull.ne_of_root mem below ((keeps.root x isRoot).mpr mem') isRoot own
  have ofNe {y : Report} (other : y.identifier ≠ r.identifier) : Tree.moved r.identifier core y = y :=
    if_neg fun is => other is.1
  have kinds {y : Report} (was : y ∈ light) : (Tree.moved r.identifier core y).kind =
      if y.identifier = r.identifier then y.kind.finish else y.kind := own ▸ inLight.kind_moved mem' below' was
  have verifications {y : Report} (was : y ∈ light) :
      (Tree.moved r.identifier core y).kind.verification = y.kind.verification := by
    rw [kinds was, Counted.verification_finish]
  have movedComponents := Tree.moved_isComponent r.identifier core
  have leavesStay (y) (was : y ∈ light) (leaf : y.isComponent = false) : Tree.moved r.identifier core y = y :=
    ofNe (own ▸ inLight.ne_of_leaf mem' component was leaf)
  have rootOther {y : Report} (is : y.parent = none) (was : y ∈ light) : y.identifier ≠ r.identifier :=
    own ▸ inLight.ne_of_root mem' below' was is
  have roots {y : Report} (is : y.parent = none) (was : y ∈ light) : Tree.moved r.identifier core y = y :=
    ofNe (rootOther is was)
  have coreStays : core ∈ light.map (Tree.moved r.identifier core) :=
    List.mem_map.mpr ⟨core, there, roots isRoot there⟩
  have atCore {y : Report} (was : AtCore light y) :
      AtCore (light.map (Tree.moved r.identifier core)) (Tree.moved r.identifier core y) := by
    obtain ⟨other, mem_other, root', here⟩ := was
    rcases Tree.moved_parent r.identifier core y with same | ⟨-, moved⟩
    · exact ⟨other, List.mem_map.mpr ⟨other, mem_other, roots root' mem_other⟩, root', same.trans here⟩
    · exact ⟨core, coreStays, isRoot, moved⟩
  constructor
  case root =>
    intro y is
    constructor
    · intro now
      obtain ⟨z, was, rfl⟩ := List.mem_map.mp now
      rw [(stays z).2] at is
      rw [updated_of_ne (inFull.ne_of_root mem below was is)]
      have was' := (keeps.root z is).mp was
      exact List.mem_map.mpr ⟨z, was', roots is was'⟩
    · intro now
      obtain ⟨z, was, rfl⟩ := List.mem_map.mp now
      have before : z.parent = none := by
        rcases Tree.moved_parent r.identifier core z with same | ⟨-, moved⟩
        · exact same.symm.trans is
        · rw [moved] at is
          cases is
      rw [roots before was]
      exact List.mem_map.mpr ⟨z, (keeps.root z before).mpr was, updated_of_ne (rootOther before was)⟩
  case below => exact keeps.below_updated
  case same =>
    refine List.forall_mem_map.mpr fun z was is => ?_
    obtain ⟨w, there', id, kind, attrs, parent⟩ := keeps.same z was (movedComponents z ▸ is)
    refine ⟨_, List.mem_map_of_mem there', ?_, ?_, ?_, ?_⟩
    · rw [(stays w).1, Tree.moved_identifier, id]
    · rw [kind_updated, kinds was, id, kind]
      simp
    · rw [updated_attrs, Tree.moved_attrs, append_nil, ite_self, attrs]
    · rw [(stays w).2]
      rcases Tree.moved_parent r.identifier core z with same | ⟨lower, moved⟩
      · rw [same]
        exact parent.imp_right fun core => ⟨atCore core.1, core.2⟩
      · refine .inr ⟨⟨core, coreStays, isRoot, moved⟩, ?_⟩
        rcases parent with parent | ⟨-, lower'⟩
        · rwa [parent]
        · exact lower'
  case unfinished =>
    refine List.forall_mem_map.mpr fun z was is opened => ?_
    obtain ⟨before, ne⟩ := updated_open is opened
    rw [updated_of_ne (ne rfl)] at is ⊢
    exact List.mem_map.mpr ⟨z, keeps.unfinished z was is before, ofNe (ne rfl)⟩
  case finished =>
    refine List.forall_mem_map.mpr fun z was is finished => ?_
    by_cases same : z.identifier = r.identifier
    · obtain rfl := inLight.eq_of_identifier was mem' (same.trans own.symm)
      refine .inr ⟨?_, core, coreStays, isRoot, ?_⟩
      · obtain ⟨w, there', id, kind, -⟩ := keeps.same z was component
        rw [verifications was, ← kind, inFull.eq_of_identifier there' mem (id.trans own)]
        exact verification
      · rw [Tree.moved, if_pos ⟨same, below'⟩]
    · rw [ofNe same] at is finished ⊢
      refine (keeps.finished z was is finished).imp_right fun core => ⟨core.1, ?_⟩
      have moved := atCore core.2
      rwa [ofNe same] at moved
  case leaves =>
    intro id kind attrs
    rw [hasLeaf_updated inFull mem isComponent, keeps.leaves]
    exact (hasLeaf_map movedComponents leavesStay).symm
  case placed =>
    refine List.forall_mem_map.mpr fun z was leaf => ?_
    rw [movedComponents] at leaf
    rw [leavesStay z was leaf]
    obtain ⟨w, there', is, place⟩ := keeps.placed z was leaf
    refine ⟨_, List.mem_map_of_mem there', ?_, ?_⟩
    · rw [Tree.moved_identifier, is]
    · rw [verifications there']
      exact place.imp_left fun root' => by rw [roots root' there', root']

end

/-! ## Runs -/

/-- A component is finished after all components below it. -/
def Orderly (s : Tree) : Upload → Prop
  | .finish identifier _ => ∀ r ∈ s.reports, r.isComponent = true →
    identifier ∈ (lineage s.reports r.parent).map (·.identifier) → r.kind.finished = true
  | _ => True

/-- Verification reports are finished by messages of their own kind, there are no verdicts below those finished, and unsafes
are below the Core report or verification reports. -/
def Usual (s : Tree) : Upload → Prop
  | .finish identifier _ => ∀ r, s.component? identifier = some r → r.kind.verification = false
  | .leaf kind _ parent _ =>
    (∀ a ∈ lineage s.reports (some parent), a.kind.verification = true → a.kind.finished = false) ∧
      ∀ r, s.component? parent = some r → kind = .reportUnsafe → r.parent = none ∨ r.kind.verification = true
  | _ => True

instance (s : Tree) : (u : Upload) → Decidable (Orderly s u)
  | .finish identifier _ => inferInstanceAs (Decidable (∀ r ∈ s.reports, r.isComponent = true →
    identifier ∈ (lineage s.reports r.parent).map (·.identifier) → r.kind.finished = true))
  | .start .. | .verification .. | .patch .. | .verificationFinish _ | .leaf .. => isTrue trivial

instance (s : Tree) : (u : Upload) → Decidable (Usual s u)
  | .finish identifier _ =>
    inferInstanceAs (Decidable (∀ r ∈ s.component? identifier, r.kind.verification = false))
  | .leaf kind _ parent _ => inferInstanceAs (Decidable ((∀ a ∈ lineage s.reports (some parent),
      a.kind.verification = true → a.kind.finished = false) ∧
    ∀ r ∈ s.component? parent, kind = .reportUnsafe → r.parent = none ∨ r.kind.verification = true))
  | .start .. | .verification .. | .patch .. | .verificationFinish _ => isTrue trivial

variable {full light full' light' : Tree} {u : Upload}

/-- A report without children has nothing below it. -/
theorem outside_of_childless (ordered : Ordered reports)
    (childless : ∀ x ∈ reports, x.parent ≠ some id) (mem : r ∈ reports) (other : r.identifier ≠ id) :
    outside reports id r = true := by
  rw [outside, decide_eq_true_eq]
  induction length : (lineage reports (some r.identifier)).length generalizing r with
  | zero =>
    rw [length_eq_zero_iff.mp length]
    exact not_mem_nil
  | succ n ih =>
    rw [ordered.lineage_eq mem] at length ⊢
    rw [map_cons, mem_cons, not_or]
    refine ⟨Ne.symm other, ?_⟩
    cases is : r.parent with
    | none =>
      rw [lineage_none]
      exact not_mem_nil
    | some parent =>
      obtain ⟨x, mem_x, rfl, -⟩ := ordered.parent_mem mem is
      rw [is] at length
      exact ih mem_x (fun own => childless r mem (own ▸ is)) (Nat.succ_injective length)

/-- All that is below a component is finished, so nothing that matters is deleted with it. -/
theorem Keeps.finishRemoved (keeps : Keeps full.reports light.reports)
    (mem : r ∈ full.reports) (mem' : r ∈ light.reports) (component : r.isComponent = true)
    (verification : r.kind.verification = false) (below : r.parent ≠ none)
    (orderly : Orderly full (.finish r.identifier attrs)) :
    Keeps (full.reports.map (Tree.updated r.identifier attrs true))
      (light.reports.filter (outside light.reports r.identifier)) := by
  have unfinished {x : Report} (mem_x : x ∈ light.reports) (is : x.isComponent = true) (other : x.identifier ≠ r.identifier)
      (opened : x.kind.finished = false) : outside light.reports r.identifier x = true := by
    rw [outside, decide_eq_true_eq]
    intro lower
    obtain ⟨a, above, own⟩ := List.mem_map.mp lower
    have lower' := keeps.above full.ordered light.ordered mem_x is above
    obtain ⟨y, mem_y, same, kind, -⟩ := keeps.same x mem_x is
    have component_y : y.isComponent = true := by rwa [Report.isComponent, kind]
    rw [own, ← same, full.ordered.lineage_eq mem_y, map_cons, mem_cons, same] at lower'
    have done := orderly y mem_y component_y (lower'.resolve_left (Ne.symm other))
    rw [kind, opened] at done
    cases done
  refine keeps.removed full.ordered light.ordered mem component below ?_ ?_
  · intro x mem_x is opened other
    exact unfinished (keeps.unfinished x mem_x is opened) is other opened
  · -- verdicts are below the Core report or below a verification report
    intro x mem_x leaf
    obtain ⟨y, mem_y, is, place⟩ := keeps.placed x mem_x leaf
    obtain ⟨z, mem_z, same, component_z⟩ := light.ordered.parent_mem mem_x is
    obtain rfl := light.ordered.eq_of_identifier mem_z mem_y same
    have root {core : Report} (mem_core : core ∈ light.reports) (isRoot : core.parent = none) :
        outside light.reports r.identifier core = true :=
      keeps.root_outside full.ordered light.ordered mem below mem_core isRoot
    have out : outside light.reports r.identifier z = true := by
      rcases place with isRoot | verified
      · exact root mem_z isRoot
      · have other : z.identifier ≠ r.identifier := by
          intro own
          obtain ⟨w, mem_w, same', kind, -⟩ := keeps.same z mem_z component_z
          rw [full.ordered.eq_of_identifier mem_w mem (same'.trans own)] at kind
          rw [← kind, verification] at verified
          cases verified
        cases finished : z.kind.finished with
        | false => exact unfinished mem_z component_z other finished
        | true =>
          rcases keeps.finished z mem_z component_z finished with isRoot | ⟨-, core, mem_core, isRoot, here⟩
          · exact root mem_z isRoot
          · rw [light.ordered.outside_iff mem_z, here]
            exact ⟨other, of_decide_eq_true (root mem_core isRoot)⟩
    rw [light.ordered.outside_iff mem_x, is]
    exact ⟨light.ordered.ne_of_leaf mem' component mem_x leaf, of_decide_eq_true out⟩

theorem component?_eq_some {s : Tree} (mem : r ∈ s.reports) (found : s.component? r.identifier = some x) : x = r := by
  obtain ⟨mem_x, same, -⟩ := component?_spec found
  exact s.ordered.eq_of_identifier mem_x mem same

/-- The Core report and verification reports are the same ones in both decisions. -/
theorem Keeps.placed_again (keeps : Keeps full.reports light.reports) (inFull : Ordered full.reports)
    (mem : r ∈ full.reports)
    (mem' : x ∈ light.reports) (component : x.isComponent = true) (same : r.identifier = x.identifier)
    (place : r.parent = none ∨ r.kind.verification = true) : x.parent = none ∨ x.kind.verification = true := by
  obtain ⟨y, mem_y, id, kind, -, parent⟩ := keeps.same x mem' component
  obtain rfl := inFull.eq_of_identifier mem_y mem (id.trans same.symm)
  rw [← kind]
  refine place.imp_left fun isRoot => ?_
  rcases parent with parent | ⟨-, lower⟩
  · exact parent ▸ isRoot
  · exact absurd isRoot lower

/-- One more upload for both decisions. -/
theorem Keeps.upload (keeps : Keeps full.reports light.reports) (orderly : Orderly full u) (usual : Usual full u)
    (done : full.upload false u = some full') (done' : light.upload true u = some light') :
    Keeps full'.reports light'.reports := by
  have inFull := upload_effect done
  have inLight := upload_effect done'
  generalize full'.reports = reports at inFull
  generalize light'.reports = reports' at inLight
  cases inFull with
  | start is fits =>
    cases inLight with
    | start is' =>
      subst is is'
      exact keeps.cons rfl rfl rfl (fun is => by cases is) (fun _ => ⟨rfl, rfl⟩) (fun is => by cases is)
  | verification is fits =>
    cases inLight with
    | verification is' =>
      subst is is'
      exact keeps.cons rfl rfl rfl (fun _ => some_ne_none _) (fun _ => ⟨rfl, rfl⟩) (fun is => by cases is)
  | patch found unfinished =>
    obtain ⟨mem, rfl, component⟩ := component?_spec found
    cases inLight with
    | patch =>
      exact keeps.updated full.ordered light.ordered mem (keeps.unfinished _ mem component unfinished) component
        (fun is => by cases is)
  | finish found unfinished =>
    obtain ⟨mem, rfl, component⟩ := component?_spec found
    have mem' := keeps.unfinished _ mem component unfinished
    cases inLight with
    | finish found' _ stays =>
      obtain rfl := component?_eq_some mem' found'
      have root := stays.resolve_left (by decide)
      exact keeps.updated full.ordered light.ordered mem mem' component fun _ => root
    | finishRemoved found' _ _ below =>
      obtain rfl := component?_eq_some mem' found'
      exact keeps.finishRemoved mem mem' component (usual _ found) below orderly
  | finishRemoved _ _ light => cases light
  | verificationFinish found verification =>
    obtain ⟨mem, rfl, component⟩ := component?_spec found
    cases inLight with
    | verificationFinish _ _ full => cases full
    | verificationMoved found' _ _ last =>
      obtain ⟨mem', same, component'⟩ := component?_spec found'
      exact keeps.moved full.ordered light.ordered mem verification mem' same component' (mem_of_getLast? last)
        (light.ordered.core mem' last).2
    | verificationRemoved found' _ _ childless =>
      obtain ⟨mem', same, component'⟩ := component?_spec found'
      refine keeps.removed full.ordered light.ordered mem component (keeps.below _ mem verification) ?_ ?_
      · intro x mem_x is opened other
        exact outside_of_childless light.ordered childless (keeps.unfinished x mem_x is opened) other
      · intro x mem_x leaf
        exact outside_of_childless light.ordered childless mem_x (same ▸ light.ordered.ne_of_leaf mem' component' mem_x leaf)
  | verificationMoved _ _ light => cases light
  | verificationRemoved _ _ light => cases light
  | @leaf kind _ _ _ _ _ _ _ found last made is suits =>
    cases inLight with
    | leaf found' last' made' is' suits' =>
      obtain ⟨mem', rfl, component'⟩ := component?_spec found'
      -- the branches are the same, so are the attributes from above
      have branch := keeps.lineage_eq full.ordered light.ordered mem' component' usual.1
      rw [parentAttributes, branch, ← parentAttributes] at made
      cases made.symm.trans made'
      subst is is'
      refine keeps.cons rfl rfl rfl (fun is => by cases is) (fun is => by cases is) fun _ => ⟨some_ne_none _, ?_⟩
      split
      next => exact ⟨_, mem_of_getLast? last', rfl, .inl (light.ordered.core mem' last').2⟩
      next stays =>
        refine ⟨_, mem', rfl, ?_⟩
        cases kind with
        | reportSafe => exact .inr (suits'.resolve_left fun other => other rfl)
        | reportUnknown => exact .inr (by simpa using stays)
        | reportUnsafe =>
          obtain ⟨mem, same, -⟩ := component?_spec found
          exact keeps.placed_again full.ordered mem mem' component' same (usual.2 _ found rfl)

/-- Both decisions keep up with each other. -/
theorem keeps_of_uploadAll {uploads : List Upload}
    (steps : ∀ n u s, uploads[n]? = some u → empty.uploadAll false (uploads.take n) = some s →
      Orderly s u ∧ Usual s u) :
    ∀ n full light, empty.uploadAll false (uploads.take n) = some full →
      empty.uploadAll true (uploads.take n) = some light → Keeps full.reports light.reports := by
  intro n
  induction n with
  | zero =>
    intro full light ran ran'
    cases ran
    cases ran'
    have none (r : Report) : r ∉ empty.reports := not_mem_nil
    exact ⟨fun _ _ => Iff.rfl, fun r mem => absurd mem (none r), fun r mem => absurd mem (none r),
      fun r mem => absurd mem (none r), fun r mem => absurd mem (none r), fun _ _ _ => Iff.rfl,
      fun r mem => absurd mem (none r)⟩
  | succ n ih =>
    intro full light ran ran'
    cases found : uploads[n]? with
    | none =>
      have le := List.getElem?_eq_none_iff.mp found
      rw [take_of_length_le (Nat.le_succ_of_le le)] at ran ran'
      exact ih full light (by rwa [take_of_length_le le]) (by rwa [take_of_length_le le])
    | some u =>
      rw [uploadAll, foldlM_take_succ found] at ran ran'
      obtain ⟨s, before, done⟩ := bind_eq_some_iff.mp ran
      obtain ⟨s', before', done'⟩ := bind_eq_some_iff.mp ran'
      obtain ⟨orderly, usual⟩ := steps n u s found before
      exact (ih s s' before before').upload orderly usual done done'

/-! ## Rows for the verdicts of a branch -/

/-- A decision with rows of `ReportComponentLeaf`: a component and a verdict that was uploaded below it. -/
structure CachedTree where
  tree : Tree
  leaves : List (String × String)

/-- `__ancestors_for_cache`: other reports of a lightweight decision will be deleted. -/
def Tree.ancestorsForCache (lightweight : Bool) (s : Tree) (parent : String) : List Report :=
  (lineage s.reports (some parent)).filter fun r => !lightweight || r.parent.isNone || r.kind.verification

namespace CachedTree

/-- Rows that an upload adds. -/
def newLeaves (lightweight : Bool) (s : Tree) : Upload → List (String × String)
  | .leaf _ identifier parent _ => (s.ancestorsForCache lightweight parent).map fun r => (r.identifier, identifier)
  | _ => []

/-- Rows are deleted with their components and with their verdicts. -/
def refers (s : Tree) (row : String × String) : Bool :=
  s.reports.any (·.identifier = row.1) && s.reports.any (·.identifier = row.2)

def upload (lightweight : Bool) (c : CachedTree) (u : Upload) : Option CachedTree :=
  (c.tree.upload lightweight u).map fun tree =>
    ⟨tree, (c.leaves ++ newLeaves lightweight c.tree u).filter (refers tree)⟩

def uploadAll (lightweight : Bool) (c : CachedTree) (uploads : List Upload) : Option CachedTree :=
  uploads.foldlM (upload lightweight) c

def empty : CachedTree := ⟨Tree.empty, []⟩

/-- A verdict that the Core report shows. -/
def coreHasLeaf (c : CachedTree) (identifier : String) (kind : LeafKind) (attrs : List Attr) : Prop :=
  (∃ core ∈ c.tree.reports, core.parent = none ∧ (core.identifier, identifier) ∈ c.leaves) ∧
    HasLeaf c.tree.reports identifier kind attrs

/-- The Core report shows all verdicts. -/
def Shown (c : CachedTree) : Prop :=
  ∀ r ∈ c.tree.reports, r.isComponent = false → ∀ core ∈ c.tree.reports, core.parent = none →
    (core.identifier, r.identifier) ∈ c.leaves

variable {c c' : CachedTree} {lightweight : Bool}

theorem Shown.coreHasLeaf_iff (shown : c.Shown) {kind : LeafKind} :
    c.coreHasLeaf id kind attrs ↔ HasLeaf c.tree.reports id kind attrs := by
  refine ⟨And.right, fun has => ⟨?_, has⟩⟩
  obtain ⟨parent, mem⟩ := has
  obtain ⟨core, above, isRoot, -⟩ := c.tree.ordered.root mem
  have there := mem_of_mem_lineage above
  exact ⟨core, there, isRoot, shown _ mem rfl core there isRoot⟩

/-- Verdicts and the Core report are those from before, or they are new. -/
theorem Shown.of_origin (shown : c.Shown) {tree : Tree} {new : List (String × String)}
    (leaves : ∀ r ∈ tree.reports, r.isComponent = false →
      (∃ x ∈ c.tree.reports, x.isComponent = false ∧ x.identifier = r.identifier) ∨
        ∀ core ∈ c.tree.reports, core.parent = none → (core.identifier, r.identifier) ∈ new)
    (roots : ∀ r ∈ tree.reports, r.isComponent = false → ∀ core ∈ tree.reports, core.parent = none →
      ∃ x ∈ c.tree.reports, x.parent = none ∧ x.identifier = core.identifier) :
    Shown ⟨tree, (c.leaves ++ new).filter (refers tree)⟩ := by
  intro r mem leaf core mem_core isRoot
  obtain ⟨x, mem_x, isRoot', same⟩ := roots r mem leaf core mem_core isRoot
  refine mem_filter.mpr ⟨mem_append.mpr ?_, ?_⟩
  · rw [← same]
    rcases leaves r mem leaf with ⟨y, mem_y, leaf', same'⟩ | added
    · exact .inl (same' ▸ shown y mem_y leaf' x mem_x isRoot')
    · exact .inr (added x mem_x isRoot')
  · simp only [refers, Bool.and_eq_true, List.any_eq_true, decide_eq_true_eq]
    exact ⟨⟨core, mem_core, rfl⟩, r, mem, rfl⟩

/-- Reports are changed, but neither their identifiers nor what they are. -/
theorem Shown.map (shown : c.Shown) {tree : Tree} {new : List (String × String)} {f : Report → Report}
    (is : tree.reports = c.tree.reports.map f) (identifiers : ∀ r, (f r).identifier = r.identifier)
    (components : ∀ r, (f r).isComponent = r.isComponent) (parents : ∀ r, (f r).parent = none → r.parent = none) :
    Shown ⟨tree, (c.leaves ++ new).filter (refers tree)⟩ := by
  refine shown.of_origin (fun r mem leaf => .inl ?_) fun _ _ _ core mem isRoot => ?_
  · obtain ⟨x, was, rfl⟩ := List.mem_map.mp (is ▸ mem)
    exact ⟨x, was, components x ▸ leaf, (identifiers x).symm⟩
  · obtain ⟨x, was, rfl⟩ := List.mem_map.mp (is ▸ mem)
    exact ⟨x, was, parents x isRoot, (identifiers x).symm⟩

/-- Reports are deleted. -/
theorem Shown.filter (shown : c.Shown) {tree : Tree} {new : List (String × String)} {kept : Report → Bool}
    (is : tree.reports = c.tree.reports.filter kept) : Shown ⟨tree, (c.leaves ++ new).filter (refers tree)⟩ := by
  refine shown.of_origin (fun r mem leaf => .inl ?_) fun _ _ _ core mem isRoot => ?_
  · exact ⟨r, mem_of_mem_filter (is ▸ mem), leaf, rfl⟩
  · exact ⟨core, mem_of_mem_filter (is ▸ mem), isRoot, rfl⟩

/-- A report is added. -/
theorem Shown.cons (shown : c.Shown) {tree : Tree} {new : List (String × String)}
    (is : tree.reports = r :: c.tree.reports) (known : r.isComponent = false → r.parent ≠ none ∧
      ∀ core ∈ c.tree.reports, core.parent = none → (core.identifier, r.identifier) ∈ new) :
    Shown ⟨tree, (c.leaves ++ new).filter (refers tree)⟩ := by
  have ordered := is ▸ tree.ordered
  refine shown.of_origin (fun x mem leaf => ?_) fun x mem leaf core mem_core isRoot => ?_
  · obtain rfl | was := mem_cons.mp (is ▸ mem)
    · exact .inr (known leaf).2
    · exact .inl ⟨x, was, leaf, rfl⟩
  · -- the Core report is the last one, and the verdict is not it
    obtain rfl | was := mem_cons.mp (is ▸ mem_core)
    · obtain rfl | was := mem_cons.mp (is ▸ mem)
      · exact absurd isRoot (known leaf).1
      · obtain ⟨old, above, isRoot', last⟩ := c.tree.ordered.root was
        have first := ordered.last_root mem_cons_self isRoot
        rw [getLast?_cons, last, getD_some, some.injEq] at first
        exact ⟨old, mem_of_mem_lineage above, isRoot', congrArg _ first⟩
    · exact ⟨core, was, isRoot, rfl⟩

/-- One more upload. -/
theorem Shown.upload (shown : c.Shown) (done : c.upload lightweight u = some c') : c'.Shown := by
  obtain ⟨tree, uploaded, rfl⟩ := map_eq_some_iff.mp done
  have effect := upload_effect uploaded
  generalize is : tree.reports = reports at effect
  cases effect with
  | start new | verification new =>
    subst new
    exact shown.cons is fun leaf => by cases leaf
  | patch | finish | verificationFinish =>
    exact shown.map is (fun r => (updated_keeps _ _ _ r).1) (updated_isComponent _ _ _)
      fun r isRoot => (updated_keeps _ _ _ r).2 ▸ isRoot
  | finishRemoved | verificationRemoved => exact shown.filter is
  | @verificationMoved id _ root =>
    refine shown.map is (moved_identifier id root) (moved_isComponent id root) fun r isRoot => ?_
    rcases moved_parent id root r with same | ⟨-, moved⟩
    · exact same ▸ isRoot
    · cases moved.symm.trans isRoot
  | leaf found last made new =>
    subst new
    obtain ⟨mem, rfl, -⟩ := component?_spec found
    refine shown.cons is fun _ => ⟨some_ne_none _, fun core mem_core isRoot => List.mem_map.mpr ⟨core, ?_, rfl⟩⟩
    have above := (c.tree.ordered.core mem (c.tree.ordered.last_root mem_core isRoot)).1
    exact mem_filter.mpr ⟨above, by simp [isRoot]⟩

/-- Whole runs. -/
theorem Shown.uploadAll {uploads : List Upload} (shown : c.Shown) (ran : c.uploadAll lightweight uploads = some c') :
    c.tree.uploadAll lightweight uploads = some c'.tree ∧ c'.Shown := by
  induction uploads generalizing c with
  | nil =>
    cases ran
    exact ⟨rfl, shown⟩
  | cons u rest ih =>
    obtain ⟨next, done, ran⟩ := bind_eq_some_iff.mp ran
    obtain ⟨tree, uploaded, rfl⟩ := map_eq_some_iff.mp done
    obtain ⟨ran, shown⟩ := ih (shown.upload done) ran
    refine ⟨?_, shown⟩
    rw [Tree.uploadAll, foldlM_cons, uploaded]
    exact ran

end CachedTree

theorem CachedTree.empty_shown : CachedTree.empty.Shown := fun _ mem => absurd mem not_mem_nil

/-- Lightweight decisions lose no verdicts. In the end each of them is right below the Core report or below a
verification report that is. -/
theorem lightweight_keeps_leaves {uploads : List Upload} {full light : CachedTree}
    (ran : CachedTree.empty.uploadAll false uploads = some full)
    (ran' : CachedTree.empty.uploadAll true uploads = some light)
    (orderly : ∀ n u s, uploads[n]? = some u → empty.uploadAll false (uploads.take n) = some s → Orderly s u)
    (usual : ∀ n u s, uploads[n]? = some u → empty.uploadAll false (uploads.take n) = some s → Usual s u) :
    (∀ identifier kind attrs, full.coreHasLeaf identifier kind attrs ↔ light.coreHasLeaf identifier kind attrs) ∧
    ((∀ r ∈ full.tree.reports, r.isComponent = true → r.kind.finished = true) →
      ∀ r ∈ light.tree.reports, r.isComponent = false → ∃ x ∈ light.tree.reports, r.parent = some x.identifier ∧
        (x.parent = none ∨ x.kind.verification = true ∧ AtCore light.tree.reports x)) := by
  obtain ⟨ran, shown⟩ := CachedTree.empty_shown.uploadAll ran
  obtain ⟨ran', shown'⟩ := CachedTree.empty_shown.uploadAll ran'
  have keeps : Keeps full.tree.reports light.tree.reports := by
    refine keeps_of_uploadAll (fun n u s found before => ⟨orderly n u s found before, usual n u s found before⟩)
      uploads.length full.tree light.tree ?_ ?_
    · rwa [take_length]
    · rwa [take_length]
  constructor
  · intro identifier kind attrs
    rw [shown.coreHasLeaf_iff, shown'.coreHasLeaf_iff, keeps.leaves]
  · intro finished r mem leaf
    obtain ⟨x, mem_x, is, place⟩ := keeps.placed r mem leaf
    refine ⟨x, mem_x, is, place.imp_right fun verification => ⟨verification, ?_⟩⟩
    obtain ⟨y, mem_y, same, component⟩ := light.tree.ordered.parent_mem mem is
    obtain rfl := light.tree.ordered.eq_of_identifier mem_y mem_x same
    obtain ⟨z, mem_z, -, kind, -⟩ := keeps.same y mem_y component
    have done := finished z mem_z (by rwa [Report.isComponent, kind])
    rw [kind] at done
    rcases keeps.finished y mem_y component done with isRoot | ⟨-, core⟩
    · -- verification reports are not the Core report
      have there := (keeps.root y isRoot).mpr mem_y
      exact absurd isRoot (keeps.below y there verification)
    · exact core

/-- A safe below a verification report. -/
def safeVerified : List Upload :=
  [.start "/" none "Core" [], .start "/EMG" (some "/") "EMG" [⟨"Project", "linux", true, false, none⟩],
    .verification "/EMG/V" "/EMG" "CPAchecker" [], .leaf .reportSafe "/EMG/V/S" "/EMG/V" []]

/-- The usual end. -/
def finishedUsually : List Upload :=
  safeVerified ++ [.verificationFinish "/EMG/V", .finish "/EMG" [], .finish "/" []]

/-- Checks of all steps of a run. -/
theorem steps_of_all {uploads : List Upload} {p : Tree → Upload → Prop} [∀ s u, Decidable (p s u)]
    (all : ((List.range uploads.length).all fun n => (empty.uploadAll false (uploads.take n)).all fun s =>
      uploads[n]?.all fun u => p s u) = true) :
    ∀ n u s, uploads[n]? = some u → empty.uploadAll false (uploads.take n) = some s → p s u := by
  intro n u s found before
  obtain ⟨lt, -⟩ := List.getElem?_eq_some_iff.mp found
  have here := List.all_eq_true.mp all n (mem_range.mpr lt)
  rw [before, found] at here
  exact of_decide_eq_true here

theorem finishedUsually_keeps_leaves : ∃ full light, CachedTree.empty.uploadAll false finishedUsually = some full ∧
    CachedTree.empty.uploadAll true finishedUsually = some light ∧ ∀ identifier kind attrs,
      full.coreHasLeaf identifier kind attrs ↔ light.coreHasLeaf identifier kind attrs := by
  have succeeds : (CachedTree.empty.uploadAll false finishedUsually).isSome := by decide +kernel
  have succeeds' : (CachedTree.empty.uploadAll true finishedUsually).isSome := by decide +kernel
  obtain ⟨full, ran⟩ := isSome_iff_exists.mp succeeds
  obtain ⟨light, ran'⟩ := isSome_iff_exists.mp succeeds'
  have orderly := @steps_of_all finishedUsually Orderly _ (by decide +kernel)
  have usual := @steps_of_all finishedUsually Usual _ (by decide +kernel)
  exact ⟨full, light, ran, ran', (lightweight_keeps_leaves ran ran' orderly usual).1⟩

/-- The verification report is finished by a message for components. -/
def finishedUnusually : List Upload :=
  safeVerified ++ [.finish "/EMG/V" [], .finish "/EMG" [], .finish "/" []]

/-- The lightweight decision loses the safe. -/
theorem finishedUnusually_loses_safe : ∃ full light, CachedTree.empty.uploadAll false finishedUnusually = some full ∧
    CachedTree.empty.uploadAll true finishedUnusually = some light ∧
    (∀ n u s, finishedUnusually[n]? = some u → empty.uploadAll false (finishedUnusually.take n) = some s →
      Orderly s u) ∧
    ¬ ∀ identifier kind attrs, full.coreHasLeaf identifier kind attrs ↔ light.coreHasLeaf identifier kind attrs := by
  have reports : (CachedTree.empty.uploadAll false finishedUnusually).map (fun c => (c.tree.reports, c.leaves)) = some
      ([⟨"/EMG/V/S", some "/EMG/V", .leaf .reportSafe, [⟨"Project", "linux", true, false, none⟩]⟩,
        ⟨"/EMG/V", some "/EMG", .component "CPAchecker" true true, []⟩,
        ⟨"/EMG", some "/", .component "EMG" false true, [⟨"Project", "linux", true, false, none⟩]⟩,
        ⟨"/", none, .component "Core" false true, []⟩],
      [("/EMG/V", "/EMG/V/S"), ("/EMG", "/EMG/V/S"), ("/", "/EMG/V/S")]) := by decide +kernel
  have reports' : (CachedTree.empty.uploadAll true finishedUnusually).map (·.tree.reports) = some
      [⟨"/", none, .component "Core" false true, []⟩] := by decide +kernel
  obtain ⟨full, ran, is⟩ := map_eq_some_iff.mp reports
  obtain ⟨light, ran', is'⟩ := map_eq_some_iff.mp reports'
  obtain ⟨there, rows⟩ := Prod.mk.inj is
  refine ⟨full, light, ran, ran', @steps_of_all finishedUnusually Orderly _ (by decide +kernel), fun same => ?_⟩
  have safe : full.coreHasLeaf "/EMG/V/S" .reportSafe [⟨"Project", "linux", true, false, none⟩] := by
    refine ⟨⟨⟨"/", none, .component "Core" false true, []⟩, ?_, rfl, ?_⟩, some "/EMG/V", ?_⟩
    · rw [there]
      decide +kernel
    · rw [rows]
      decide
    · rw [there]
      exact mem_cons_self
  obtain ⟨-, _, mem⟩ := (same _ _ _).mp safe
  rw [is', mem_singleton] at mem
  cases congrArg Report.kind mem

end Klever.Bridge.Uploads
