import Klever.Lib.Dict

/-!
# The load order of modules

`calculate_load_order` sorts modules by a depth-first search over their dependencies: a module is appended to the list when
all its dependencies have been visited. Dependencies need not be keys of the dictionary, and they may be cyclic; then the
search comes to a module in progress and goes on without it.

The modules in progress are those that lead to the module under consideration. So a dependency that is not in the list when
its module is appended leads back to the module (`Sorted`), and there is none if dependencies are not cyclic.
-/

namespace Klever.Emg.LoadOrder

open Klever.Lib List Relation

variable {M : Type}

/-- `marked` and `sorted_list`; a module is marked by 0 while it is in progress and then by 1. -/
structure Visited (M : Type) where
  marked : Dict M Bool
  sortedList : List M

variable [LinearOrder M]

/-- `__visit`; calls are nested at most so deep. -/
def visit (modules : Dict M (List M)) : (depth : Nat) → Visited M → M → Option (Visited M)
  | 0, _, _ => none
  | depth + 1, v, selected =>
    -- a module in progress is only reported, one that is done is left alone
    if (v.marked.get? selected).isSome then some v
    else do
      let started := { v with marked := v.marked.set selected false }
      let v ← ((modules.get? selected).getD []).foldlM (visit modules depth) started
      return ⟨v.marked.set selected true, v.sortedList ++ [selected]⟩

/-- All modules that are mentioned. -/
def mentioned (modules : Dict M (List M)) : List M := modules.keys ++ modules.values.flatten

/-- `calculate_load_order`; each nested call marks one module more, so their number bounds the depth. -/
def calculateLoadOrder (modules : Dict M (List M)) : Option (List M) :=
  ((modules.keys.insertionSort (· ≤ ·)).foldlM (visit modules ((mentioned modules).length + 1)) ⟨.empty, []⟩).map (·.sortedList)

variable (modules : Dict M (List M))

/-- The second module is a dependency of the first one. -/
def Depends (m d : M) : Prop := d ∈ (modules.get? m).getD []

/-- A module can be reached from a key. -/
def Loaded (m : M) : Prop := ∃ key ∈ modules.keys, ReflTransGen (Depends modules) key m

/-- Modules follow their dependencies, but for those that lead back to them. -/
def Sorted (order : List M) : Prop :=
  ∀ front m back, order = front ++ m :: back → ∀ d, Depends modules m d →
    d ∈ front ∨ ReflTransGen (Depends modules) d m

/-! ## What a visit does -/

structure Visited.Inv (v : Visited M) : Prop where
  loaded : ∀ m, v.marked.get? m ≠ none → Loaded modules m
  done : ∀ m, m ∈ v.sortedList ↔ v.marked.get? m = some true
  nodup : v.sortedList.Nodup
  closed : ∀ m ∈ v.sortedList, ∀ d, Depends modules m d → v.marked.get? d ≠ none
  sorted : Sorted modules v.sortedList

/-- Some modules are visited; those in progress stay the same. -/
structure Visits (v : Visited M) (ms : List M) (v' : Visited M) : Prop where
  inv : v'.Inv modules
  grows : ∀ m, v.marked.get? m ≠ none → v'.marked.get? m ≠ none
  all : ∀ m ∈ ms, v'.marked.get? m ≠ none
  inProgress : ∀ m, v'.marked.get? m = some false ↔ v.marked.get? m = some false

/-- A module can be reached, from each module in progress too. -/
structure Leads (v : Visited M) (m : M) : Prop where
  loaded : Loaded modules m
  inProgress : ∀ d, v.marked.get? d = some false → ReflTransGen (Depends modules) d m

/-- What is left to visit. -/
def Visited.unmarked (v : Visited M) : Finset M := (mentioned modules).toFinset.filter (v.marked.get? · = none)

variable {modules} {v v' : Visited M} {m d : M} {ms : List M} {depth : Nat}

theorem Loaded.mem (loaded : Loaded modules m) : m ∈ mentioned modules := by
  obtain ⟨key, mem, path⟩ := loaded
  rw [mentioned, mem_append]
  obtain rfl | ⟨last, -, dep⟩ := path.cases_tail
  · exact .inl mem
  · rw [Depends] at dep
    cases found : modules.get? last with
    | none => simp [found] at dep
    | some deps =>
      rw [found] at dep
      exact .inr (mem_flatten.mpr ⟨deps, Dict.mem_values_iff.mpr ⟨last, found⟩, dep⟩)

theorem Visits.refl (inv : v.Inv modules) (seen : ∀ m ∈ ms, v.marked.get? m ≠ none) : Visits modules v ms v :=
  ⟨inv, fun _ marked => marked, seen, fun _ => Iff.rfl⟩

theorem Visits.unmarked_subset (visits : Visits modules v ms v') : v'.unmarked modules ⊆ v.unmarked modules := by
  intro m mem
  obtain ⟨mentioned, unseen⟩ := Finset.mem_filter.mp mem
  exact Finset.mem_filter.mpr ⟨mentioned, by_contra fun marked => visits.grows m marked unseen⟩

theorem Visits.leads (visits : Visits modules v ms v') (leads : Leads modules v d) : Leads modules v' d :=
  ⟨leads.loaded, fun x progress => leads.inProgress x ((visits.inProgress x).mp progress)⟩

theorem Visits.cons {v'' : Visited M} (first : Visits modules v [m] v') (rest : Visits modules v' ms v'') :
    Visits modules v (m :: ms) v'' where
  inv := rest.inv
  grows x marked := rest.grows x (first.grows x marked)
  all := forall_mem_cons.mpr ⟨rest.grows m (first.all m (mem_singleton_self m)), rest.all⟩
  inProgress x := (rest.inProgress x).trans (first.inProgress x)

/-- If the visit of one module has enough depth, the visits of several modules one after another do. -/
theorem Visits.foldlM (step : ∀ v m, v.Inv modules → Leads modules v m → (v.unmarked modules).card < depth →
      ∃ v', visit modules depth v m = some v' ∧ Visits modules v [m] v')
    (inv : v.Inv modules) (leads : ∀ m ∈ ms, Leads modules v m) (few : (v.unmarked modules).card < depth) :
    ∃ v', ms.foldlM (visit modules depth) v = some v' ∧ Visits modules v ms v' := by
  induction ms generalizing v with
  | nil => exact ⟨v, rfl, .refl inv fun _ mem => absurd mem not_mem_nil⟩
  | cons m ms ih =>
    obtain ⟨now, later⟩ := forall_mem_cons.mp leads
    obtain ⟨v₁, first, visits⟩ := step v m inv now few
    have fewer := (Finset.card_le_card visits.unmarked_subset).trans_lt few
    obtain ⟨v', rest, others⟩ := ih visits.inv (fun d mem => visits.leads (later d mem)) fewer
    refine ⟨v', ?_, visits.cons others⟩
    rw [foldlM_cons, first]
    exact rest

theorem unmarked_start (loaded : Loaded modules m) (new : v.marked.get? m = none) :
    (Visited.unmarked modules { v with marked := v.marked.set m false }).card < (v.unmarked modules).card := by
  refine Finset.card_lt_card ((Finset.ssubset_iff_of_subset fun x mem => ?_).mpr ⟨m, ?_, ?_⟩)
  · simp only [Visited.unmarked, Finset.mem_filter, Dict.get?_set] at mem ⊢
    split at mem
    · cases mem.2
    · exact mem
  · exact Finset.mem_filter.mpr ⟨mem_toFinset.mpr loaded.mem, new⟩
  · simp [Visited.unmarked]

theorem Visited.Inv.start (inv : v.Inv modules) (loaded : Loaded modules m) (new : v.marked.get? m = none) :
    Visited.Inv modules { v with marked := v.marked.set m false } := by
  refine { inv with loaded := fun x marked => ?_, done := fun x => ?_, closed := fun x mem d dep => ?_ }
  · by_cases is : x = m
    · exact is ▸ loaded
    · rw [Dict.get?_set_of_ne _ _ is] at marked
      exact inv.loaded x marked
  · rw [inv.done, Dict.get?_set]
    split
    next is => simp [is, new]
    next => rfl
  · have marked := inv.closed x mem d dep
    have other : d ≠ m := by
      rintro rfl
      exact marked new
    rwa [Dict.get?_set_of_ne _ _ other]

/-- A module that is marked is done or in progress. -/
theorem Visited.Inv.mem_or_inProgress (inv : v.Inv modules) (marked : v.marked.get? m ≠ none) :
    m ∈ v.sortedList ∨ v.marked.get? m = some false := by
  rw [inv.done]
  cases mark : v.marked.get? m with
  | none => exact absurd mark marked
  | some done => cases done <;> simp

/-- One more module at the end. -/
theorem Sorted.snoc {order : List M} (sorted : Sorted modules order)
    (last : ∀ d, Depends modules m d → d ∈ order ∨ ReflTransGen (Depends modules) d m) :
    Sorted modules (order ++ [m]) := by
  intro front x back is d dep
  obtain rfl | ⟨rest, y, rfl⟩ := eq_nil_or_concat back
  · obtain ⟨rfl, same⟩ := append_inj' is rfl
    cases same
    exact last d dep
  · rw [concat_eq_append, ← cons_append, ← append_assoc] at is
    exact sorted front x rest (append_inj' is rfl).1 d dep

/-- A module whose dependencies are marked is appended. -/
theorem Visited.Inv.finish (inv : v.Inv modules) (progress : v.marked.get? m = some false)
    (deps : ∀ d, Depends modules m d → v.marked.get? d ≠ none)
    (leads : ∀ d, v.marked.get? d = some false → ReflTransGen (Depends modules) d m) :
    Visited.Inv modules ⟨v.marked.set m true, v.sortedList ++ [m]⟩ := by
  have new : m ∉ v.sortedList := by
    intro mem
    cases ((inv.done m).mp mem).symm.trans progress
  have marked (x : M) : (v.marked.set m true).get? x = none ↔ v.marked.get? x = none := by
    rw [Dict.get?_set]
    split
    next is => simp [is, progress]
    next => rfl
  refine ⟨fun x seen => inv.loaded x (mt (marked x).mpr seen), fun x => ?_, ?_, fun x mem d dep => ?_, ?_⟩
  · rw [mem_append, mem_singleton, inv.done, Dict.get?_set]
    split
    next is => simp [is]
    next other => simp [other]
  · refine nodup_append.mpr ⟨inv.nodup, nodup_singleton m, fun x mem y is same => ?_⟩
    exact new (mem_singleton.mp is ▸ same ▸ mem)
  · rw [ne_eq, marked]
    obtain mem | is := mem_append.mp mem
    · exact inv.closed x mem d dep
    · exact deps d (mem_singleton.mp is ▸ dep)
  · exact inv.sorted.snoc fun d dep => (inv.mem_or_inProgress (deps d dep)).imp_right (leads d)

theorem visit_visits (inv : v.Inv modules) (leads : Leads modules v m) (few : (v.unmarked modules).card < depth) :
    ∃ v', visit modules depth v m = some v' ∧ Visits modules v [m] v' := by
  induction depth generalizing v m with
  | zero => exact absurd few (Nat.not_lt_zero _)
  | succ depth ih =>
    rw [visit]
    cases new : v.marked.get? m with
    | some mark => exact ⟨v, rfl, .refl inv (forall_mem_singleton.mpr (by simp [new]))⟩
    | none =>
      have fewer := (unmarked_start leads.loaded new).trans_le (Nat.lt_succ_iff.mp few)
      -- what is in progress now leads to the dependencies
      have deps (d : M) (dep : Depends modules m d) : Leads modules { v with marked := v.marked.set m false } d := by
        obtain ⟨key, mem, path⟩ := leads.loaded
        refine ⟨⟨key, mem, path.tail dep⟩, fun x progress => ReflTransGen.tail ?_ dep⟩
        rw [Dict.get?_set] at progress
        split at progress
        next is => exact is ▸ .refl
        next => exact leads.inProgress x progress
      obtain ⟨v', ran, visits⟩ := Visits.foldlM (fun _ _ => ih) (inv.start leads.loaded new) deps fewer
      have progress (x : M) : v'.marked.get? x = some false ↔ x = m ∨ v.marked.get? x = some false := by
        rw [visits.inProgress, Dict.get?_set]
        split <;> simp [*]
      refine ⟨⟨v'.marked.set m true, v'.sortedList ++ [m]⟩, ?_, ?_, fun x marked => ?_, ?_, fun x => ?_⟩
      · show (foldlM _ _ _ >>= _) = _
        rw [ran]
        rfl
      · refine visits.inv.finish ((progress m).mpr (.inl rfl)) visits.all fun d is => ?_
        obtain rfl | is := (progress d).mp is
        · exact .refl
        · exact leads.inProgress d is
      · rw [Dict.get?_set]
        split
        next => exact Option.some_ne_none _
        next other =>
          refine visits.grows x ?_
          rwa [Dict.get?_set_of_ne _ _ other]
      · exact forall_mem_singleton.mpr (by simp)
      · rw [Dict.get?_set]
        split
        next is => simp [is, new]
        next other => rw [progress, or_iff_right other]

/-- The search ends; each module that can be reached from a key is in the order once, and nothing else is. A module precedes
a dependency only if the dependency leads back to it, and never if dependencies are not cyclic. -/
theorem calculateLoadOrder_sorted (modules : Dict M (List M)) :
    ∃ order, calculateLoadOrder modules = some order ∧ order.Nodup ∧ (∀ m, m ∈ order ↔ Loaded modules m) ∧
      Sorted modules order ∧ ((∀ m, ¬ TransGen (Depends modules) m m) →
        ∀ front m back, order = front ++ m :: back → ∀ d, Depends modules m d → d ∈ front) := by
  have keys (m : M) : m ∈ modules.keys.insertionSort (· ≤ ·) ↔ m ∈ modules.keys := mem_insertionSort _
  have start : Visited.Inv modules ⟨.empty, []⟩ :=
    ⟨fun _ marked => absurd rfl marked, fun _ => by simp [Dict.get?_empty], nodup_nil, by simp, by simp [Sorted]⟩
  have few : (Visited.unmarked modules ⟨.empty, []⟩).card < (mentioned modules).length + 1 :=
    Nat.lt_succ_iff.mpr ((Finset.card_filter_le ..).trans (toFinset_card_le _))
  obtain ⟨v, ran, visits⟩ := Visits.foldlM (fun _ _ => visit_visits) start
    (fun m mem => ⟨⟨m, (keys m).mp mem, .refl⟩, fun _ progress => by cases progress⟩) few
  -- nothing is in progress in the end
  have done (m : M) (marked : v.marked.get? m ≠ none) : m ∈ v.sortedList := by
    refine (visits.inv.mem_or_inProgress marked).resolve_right fun progress => ?_
    cases (visits.inProgress m).mp progress
  refine ⟨v.sortedList, ?_, visits.inv.nodup, fun m => ⟨fun mem => ?_, ?_⟩, visits.inv.sorted, ?_⟩
  · rw [calculateLoadOrder, ran]
    rfl
  · exact visits.inv.loaded m (by simp [(visits.inv.done m).mp mem])
  · rintro ⟨key, mem, path⟩
    induction path with
    | refl => exact done key (visits.all key ((keys key).mpr mem))
    | tail _ dep ih => exact done _ (visits.inv.closed _ ih _ dep)
  · intro acyclic front m back is d dep
    exact (visits.inv.sorted front m back is d dep).resolve_right fun path => acyclic m (.head' dep path)

end Klever.Emg.LoadOrder
