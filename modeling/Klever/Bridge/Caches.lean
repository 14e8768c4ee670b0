import Klever.Bridge.Flags

/-!
# Caches of reports

The cache of a report is computed from its associations. It can be recalculated at any time, but after most
operations only the caches of some reports are computed again, or some of their fields, or one mark is added to what
is stored. The caches are exact if they are what a recalculation would give.

They stay exact but for two operations. When a bug mark is populated, the status that is stored is the sum with the
new mark, while a recalculation overlooks marks that are no bugs and come before the first bug. And the creation of
a mark changes associations of the report it is created for, but does not update the cache of that report if the
mark does not match it.
-/

namespace Klever.Bridge.Marks

open Klever.Lib List Option Tables

variable {M R D V : Type}

/-- The caches of all reports are what the recalculation gives. -/
def Exact (K : Kind M R D V) (t : Tables M R D V) : Prop :=
  ∀ report stored, t.reports.get? report = some stored → stored.cache = t.recalculated K t.reports.keys report

/-! ## What the cache of a report depends on -/

/-- The cache of a report from its own associations. -/
def cacheOf (K : Kind M R D V) (t : Tables M R D V) (report : Nat) : Cache V :=
  let rows := t.associations.filter (·.report = report)
  { marksTotal := rows.countP (·.associated)
    marksConfirmed := rows.countP fun row => row.associated ∧ row.type = .confirmed
    marksAutomatic := rows.countP (·.type = .automatic)
    value := K.summary (t.judged (rows.filter (·.associated))) report }

/-- What is used of a kind. -/
structure Kind.Lawful (K : Kind M R D V) (overlooks : M → List M → Prop) : Prop where
  /-- The cache of a report is computed from its marks. -/
  summary_filter : ∀ marks report, K.summary (marks.filter (·.1 = report)) report = K.summary marks report
  /-- Only reports that are similar to a mark get associations, unless population looks for them. -/
  similar : ∀ {mark report similar detail}, K.link mark report = some (similar, detail) → K.onlyAutomatic = false →
    similar = true
  /-- A mark that is neither connected again nor gets a new threshold changes the fields that are saved. -/
  refreshed : ∀ {old new marks marks' report}, K.reconnects old new = false → K.rescales old new = false →
    List.Forall₂ (fun x y => x = y ∨ x.2.1 = old ∧ y = (x.1, new, x.2.2)) marks marks' →
    K.refreshed old new (K.summary marks' report) (K.summary marks report) = K.summary marks' report
  /-- One more mark gives the same as a recalculation, unless that overlooks something. -/
  populated : ∀ {marks report mark detail}, (∀ x ∈ marks, x.1 = report) →
    (K.populated (K.summary marks report) mark detail = K.summary (marks ++ [(report, mark, detail)]) report ↔
      ¬ overlooks mark (marks.map (·.2.1)))

theorem judged_filter (t : Tables M R D V) (rows : List (Association D)) (report : Nat) :
    (t.judged rows).filter (·.1 = report) = t.judged (rows.filter (·.report = report)) := by
  rw [judged, judged, filter_filterMap, filterMap_filter]
  refine filterMap_congr fun row _ => ?_
  cases t.marks.get? row.mark with
  | none => simp
  | some mark => simp [Option.filter]

variable {K : Kind M R D V} {overlooks : M → List M → Prop} {t : Tables M R D V} {reports : List Nat} {report : Nat}

section

variable (lawful : K.Lawful overlooks)

include lawful

theorem summary_counted (mem : report ∈ reports) :
    K.summary (t.judged (t.associations.filter fun row => row.report ∈ reports ∧ row.associated)) report =
      (cacheOf K t report).value := by
  rw [← lawful.summary_filter, judged_filter, cacheOf, List.filter_filter, List.filter_filter]
  refine congrArg (fun rows => K.summary (t.judged rows) report) (filter_congr fun row _ => ?_)
  rw [Bool.eq_iff_iff]
  simp only [Bool.and_eq_true, decide_eq_true_eq]
  exact ⟨fun h => ⟨h.2.2, h.1⟩, fun h => ⟨h.2, h.2 ▸ mem, h.1⟩⟩

theorem updated_eq (mem : report ∈ reports) : t.updated K reports report = cacheOf K t report := by
  rw [updated, summary_counted lawful mem, cacheOf, Cache.mk.injEq]
  refine ⟨?_, ?_, ?_, rfl⟩
  all_goals
    rw [countP_filter]
    try rw [countP_filter]
    refine countP_congr fun row _ => ?_
    simp only [Bool.and_eq_true, decide_eq_true_eq]
  · exact ⟨fun h => ⟨h.2.2, h.1⟩, fun h => ⟨h.2, h.2 ▸ mem, h.1⟩⟩
  · exact ⟨fun h => ⟨⟨h.2.2, h.1.2⟩, h.1.1⟩, fun h => ⟨⟨h.2, h.1.2⟩, h.2 ▸ mem, h.1.1⟩⟩
  · exact ⟨fun h => ⟨h.2.1, h.2.2⟩, fun h => ⟨h.2 ▸ mem, h.1, h.2⟩⟩

theorem recalculated_eq (mem : report ∈ reports) : t.recalculated K reports report = cacheOf K t report := by
  -- what counts is automatic or confirmed
  have counted : (t.associations.filter fun row => (row.type = .automatic ∨ row.type = .confirmed) ∧
      row.report ∈ reports).filter (·.associated) =
      t.associations.filter fun row => row.report ∈ reports ∧ row.associated := by
    rw [List.filter_filter]
    refine filter_congr fun row _ => ?_
    rw [Bool.eq_iff_iff]
    simp only [Bool.and_eq_true, decide_eq_true_eq]
    exact ⟨fun h => ⟨h.2.2, h.1⟩, fun h => ⟨h.2, row.counts h.2, h.1⟩⟩
  have automatic : (t.associations.filter fun row => (row.type = .automatic ∨ row.type = .confirmed) ∧
      row.report ∈ reports).countP (fun row => row.report = report ∧ row.type = .automatic) =
      t.associations.countP fun row => row.report ∈ reports ∧ row.type = .automatic ∧ row.report = report := by
    rw [countP_filter]
    refine countP_congr fun row _ => ?_
    simp only [Bool.and_eq_true, decide_eq_true_eq]
    exact ⟨fun h => ⟨h.2.2, h.1.2, h.1.1⟩, fun h => ⟨⟨h.2.2, h.2.1⟩, .inl h.2.1, h.1⟩⟩
  rw [← updated_eq lawful mem, recalculated, updated, counted, automatic]

theorem exact_iff_stored : Exact K t ↔
    ∀ report stored, t.reports.get? report = some stored → stored.cache = cacheOf K t report := by
  refine forall_congr' fun report => forall_congr' fun stored => imp_congr_right fun found => ?_
  rw [recalculated_eq lawful (Dict.mem_keys_iff.mpr ⟨stored, found⟩)]

end

/-- The associations that count for a report. -/
abbrev counting (t : Tables M R D V) (report : Nat) : List (Association D) :=
  (t.associations.filter (·.report = report)).filter (·.associated)

/-- The cache of a report does not change with the associations and marks of others. -/
theorem cacheOf_congr {t' : Tables M R D V}
    (rows : t'.associations.filter (·.report = report) = t.associations.filter (·.report = report))
    (marks : ∀ row ∈ t.associations, row.report = report → t'.marks.get? row.mark = t.marks.get? row.mark) :
    cacheOf K t' report = cacheOf K t report := by
  have judged : t'.judged (counting t report) =
      t.judged (counting t report) := by
    refine filterMap_congr fun row mem => ?_
    obtain ⟨mem, here⟩ := mem_filter.mp (mem_of_mem_filter mem)
    rw [marks row mem (of_decide_eq_true here)]
  rw [cacheOf, cacheOf, rows, judged]

/-- Caches are saved for some reports, and nothing changes for the others. -/
theorem exact_save (lawful : K.Lawful overlooks) {t' : Tables M R D V} (exact : Exact K t) {affected : List Nat}
    {cache : Nat → Cache V → Cache V}
    (new : ∀ report ∈ affected, ∀ stored, t'.reports.get? report = some stored →
      cache report stored.cache = cacheOf K t' report)
    (others : ∀ report ∉ affected, t'.reports.get? report = t.reports.get? report ∧
      cacheOf K t' report = cacheOf K t report) :
    Exact K (t'.saveCaches affected cache) := by
  rw [exact_iff_stored lawful] at exact ⊢
  intro report stored found
  rw [get?_saveCaches] at found
  obtain ⟨before, was, rfl⟩ := map_eq_some_iff.mp found
  by_cases mem : report ∈ affected
  · rw [if_pos mem]
    exact new report mem before was
  · obtain ⟨same, kept⟩ := others report mem
    rw [if_neg mem]
    exact (exact report before (same ▸ was)).trans kept.symm

/-! ## Operations -/

section Operations

variable {K : Kind M R D V} {overlooks : M → List M → Prop} {t t' : Tables M R D V} {id : Nat} {mark : M}

/-- The marks of other reports. -/
theorem get?_mark_other {row : Association D} (other : report ∉ t.linked id) (mem : row ∈ t.associations)
    (here : row.report = report) : row.mark ≠ id :=
  fun is => other (mem_linked.mpr ⟨row, mem, is, here⟩)

variable (lawful : K.Lawful overlooks)

include lawful

section

variable (exact : Exact K t)

include exact

theorem exact_updateAll {rows : List (Association D)}
    {affected : List Nat} (linked : ∀ report ∈ t.linked id, report ∈ affected)
    (others : ∀ report ∉ affected, rows.filter (·.report = report) = t.associations.filter (·.report = report)) :
    Exact K (updateAll K { t with marks := t.marks.set id mark, associations := rows } affected) := by
  refine exact_save lawful exact (fun report mem _ _ => updated_eq lawful mem) fun report other => ⟨rfl, ?_⟩
  refine cacheOf_congr (others report other) fun row mem here => ?_
  exact Dict.get?_set_of_ne _ _ (get?_mark_other (fun is => other (linked report is)) mem here)

theorem update_exact (done : t.update K id mark = some t') : Exact K t' := by
  obtain ⟨old, found, ⟨-, rfl⟩ | ⟨-, -, rfl⟩ | ⟨keeps, same, rfl⟩⟩ := update_cases done
  · exact exact_updateAll lawful exact (fun _ => mem_append_left _) fun _ => filter_connect_none
  · exact exact_updateAll lawful exact (fun _ mem => mem) fun _ => filter_updateAssociated
  refine exact_save lawful exact (fun report mem stored was => ?_) fun report other => ⟨rfl, cacheOf_congr rfl ?_⟩
  · -- the marks of the report are the same but for the changed one
    have marks : List.Forall₂ (fun x y => x = y ∨ x.2.1 = old ∧ y = (x.1, mark, x.2.2))
        (t.judged (counting t report))
        (judged { t with marks := t.marks.set id mark }
          (counting t report)) := by
      generalize counting t report = rows
      induction rows with
      | nil => exact .nil
      | cons row rows ih =>
        by_cases is : row.mark = id
        · simp only [judged, filterMap_cons, is, found, Dict.get?_set_self, map_some]
          exact .cons (.inr ⟨rfl, rfl⟩) ih
        · simp only [judged, filterMap_cons, Dict.get?_set_of_ne _ _ is]
          cases t.marks.get? row.mark with
          | none => exact ih
          | some _ => exact .cons (.inl rfl) ih
    rw [(exact_iff_stored lawful).mp exact report stored was, updated_eq lawful mem]
    have value := @Kind.Lawful.refreshed _ _ _ _ K overlooks lawful old mark _ _ report keeps same marks
    exact congrArg (fun value => { cacheOf K t report with value }) value
  · exact fun row mem here => Dict.get?_set_of_ne _ _ (get?_mark_other other mem here)

theorem remove_exact (done : t.remove K id = some t') : Exact K t' := by
  obtain ⟨-, rfl⟩ := remove_cases done
  refine exact_save lawful exact (fun report mem _ _ => recalculated_eq lawful mem) fun report other => ⟨rfl, ?_⟩
  refine cacheOf_congr (filter_remove other) fun row mem here => ?_
  exact (Dict.get?_erase ..).trans (if_neg (get?_mark_other other mem here))

theorem confirm_exact {place : Nat} (done : t.confirm K place = some t') : Exact K t' := by
  obtain rfl | ⟨front, row, back, rows, -, -, rfl⟩ := confirm_cases done
  · exact exact
  refine exact_save lawful exact (fun report mem _ _ => recalculated_eq lawful mem) fun report other => ⟨rfl, ?_⟩
  exact cacheOf_congr (rows ▸ filter_confirm (ne_of_not_mem_cons other)) fun _ _ _ => rfl

theorem unconfirm_exact {place : Nat} (done : t.unconfirm K place = some t') : Exact K t' := by
  obtain rfl | ⟨front, row, back, rows, -, -, rfl⟩ := unconfirm_cases done
  · exact exact
  refine exact_save lawful exact (fun report mem _ _ => recalculated_eq lawful mem) fun report other => ⟨rfl, ?_⟩
  exact cacheOf_congr (rows ▸ filter_unconfirm (ne_of_not_mem_cons other)) fun _ _ _ => rfl

theorem upload_exact {report : R} (done : t.upload K id report = some t') : Exact K t' := by
  obtain ⟨-, news, found, rfl⟩ := upload_cases done
  refine exact_save lawful exact (fun report mem _ _ => recalculated_eq lawful mem) fun other differs => ?_
  rw [mem_singleton] at differs
  refine ⟨Dict.get?_set_of_ne _ _ differs, cacheOf_congr (filter_append_other fun row mem => ?_) fun _ _ _ => rfl⟩
  obtain ⟨mark, similar, detail, rfl⟩ := found row mem
  exact fun is => differs is.symm

end

end Operations

/-! ## A new mark for a report -/

variable {t' : Tables M R D V} {id prime : Nat} {mark : M}

/-- The cache of the prime report is updated if the mark matches the report, or nothing changes for it. -/
def Matches (K : Kind M R D V) (t : Tables M R D V) (mark : M) (prime : Nat) (stored : Stored R V) : Prop :=
  (K.link mark stored.report).isSome ∨
    ∀ row ∈ t.associations, row.report = prime → row.associated = true → row.type ≠ .automatic

theorem mem_new_reports {stored : Stored R V} (found : t.reports.get? report = some stored) :
    report ∈ (t.newAssociations K id mark (some prime)).map (·.report) ↔ (K.link mark stored.report).isSome := by
  rw [List.mem_map]
  constructor
  · rintro ⟨row, mem, here⟩
    obtain ⟨report', stored', similar, detail, found', link, rfl⟩ := mem_newAssociations.mp mem
    rw [newAssociation_report, Association.found_report] at here
    subst here
    rw [found] at found'
    cases found'
    rw [link]
    rfl
  · intro link
    obtain ⟨⟨similar, detail⟩, link⟩ := isSome_iff_exists.mp link
    exact ⟨_, mem_newAssociations.mpr ⟨report, stored, similar, detail, found, link, rfl⟩, by simp⟩

/-- The associations of a report that the new mark does not match. -/
theorem filter_connect_some {report : Nat}
    (other : report ∉ t.linked id ++ (t.newAssociations K id mark (some prime)).map (·.report)) :
    (t.connect K id mark (some prime)).filter (·.report = report) =
      (t.associations.filter (·.report = report)).map fun row =>
        if row.report = prime ∧ row.associated ∧ row.type = .automatic then row.disable else row := by
  rw [connect, List.filter_map, ← filter_clear_append other]
  refine congrArg (List.map _) ?_
  refine filter_congr fun row _ => ?_
  simp only [Function.comp_apply]
  split <;> rfl

theorem associated_of_switched {row : Association D} (counts : (if row.report = prime ∧ row.associated ∧
    row.type = .automatic then row.disable else row).associated = true) : row.associated = true := by
  split at counts
  · cases counts
  · exact counts

theorem create_exact (lawful : K.Lawful overlooks) (exact : Exact K t) {form : M}
    (done : t.create K id form prime = some t') : Exact K t' ↔
      ∀ stored mark, t.reports.get? prime = some stored → K.prepare form stored.report = some mark →
        Matches K t mark prime stored := by
  obtain ⟨fresh, stored, mark, found, prepared, rfl⟩ := create_cases done
  have condition : (∀ stored mark, t.reports.get? prime = some stored → K.prepare form stored.report = some mark →
      Matches K t mark prime stored) ↔ Matches K t mark prime stored := by
    refine ⟨fun all => all stored mark found prepared, fun ok stored' mark' found' prepared' => ?_⟩
    rw [found] at found'
    cases found'
    rw [prepared] at prepared'
    cases prepared'
    exact ok
  rw [condition]
  constructor
  · intro after
    by_contra bad
    rw [Matches, not_or] at bad
    obtain ⟨unmatched, bad⟩ := bad
    push Not at bad
    obtain ⟨row, mem, here, counts, type⟩ := bad
    have other : prime ∉ t.linked id ++ (t.newAssociations K id mark (some prime)).map (·.report) := by
      rw [mem_append, mem_new_reports found, not_or]
      refine ⟨fun linked => ?_, unmatched⟩
      obtain ⟨row, mem, is, -⟩ := mem_linked.mp linked
      exact fresh.2 row mem is
    -- the cache stays as it is, but the row is not counted any more
    have kept := (exact_iff_stored lawful).mp exact prime stored found
    have same := (exact_iff_stored lawful).mp after prime stored (by
      rw [updateAll, get?_saveCaches]
      rw [found, map_some, if_neg other])
    have totals := congrArg Cache.marksTotal (kept.symm.trans same)
    have rows := @filter_connect_some _ _ _ _ K t id prime mark prime other
    have less : ((t.connect K id mark (some prime)).filter (·.report = prime)).countP (·.associated) <
        (t.associations.filter (·.report = prime)).countP (·.associated) := by
      rw [rows, countP_map]
      have own : row ∈ t.associations.filter (·.report = prime) := mem_filter.mpr ⟨mem, decide_eq_true here⟩
      obtain ⟨front, back, is⟩ := append_of_mem own
      have fewer (rows : List (Association D)) : rows.countP ((fun row => row.associated) ∘ fun row =>
          if row.report = prime ∧ row.associated ∧ row.type = .automatic then row.disable else row) ≤
          rows.countP (·.associated) := countP_mono_left fun row _ => associated_of_switched
      rw [is, countP_append, countP_append, @List.countP_cons_of_pos (Association D) (fun row => row.associated) _ _ counts,
        countP_cons_of_neg (by
        simp [here, counts, type])]
      have := fewer front
      have := fewer back
      omega
    exact absurd totals (Nat.ne_of_gt less)
  · intro ok
    refine exact_updateAll lawful exact (fun _ => mem_append_left _) fun report other => ?_
    rw [filter_connect_some other]
    refine (map_congr_left fun row mem => ?_).trans (List.map_id' _)
    obtain ⟨mem, here⟩ := mem_filter.mp mem
    rw [decide_eq_true_eq] at here
    refine if_neg fun is => ?_
    obtain matched | none := ok
    · refine other (mem_append_right _ ?_)
      rw [← here, is.1]
      exact (mem_new_reports found).mpr matched
    · exact none row mem is.1 is.2.1 is.2.2

/-! ## A populated mark -/

/-- The marks that count for a report. -/
def countedMarks (t : Tables M R D V) (report : Nat) : List M :=
  (t.judged ((t.associations.filter (·.report = report)).filter (·.associated))).map (·.2.1)

/-- Nothing is overlooked for the reports that a populated mark is similar to, unless they have confirmed marks. -/
def Addable (K : Kind M R D V) (overlooks : M → List M → Prop) (t : Tables M R D V) (mark : M) : Prop :=
  ∀ report stored detail, t.reports.get? report = some stored → K.link mark stored.report = some (true, detail) →
    stored.cache.marksConfirmed = 0 → ¬ overlooks mark (countedMarks t report)

/-- The new association of a report. -/
theorem filter_newAssociations {stored : Stored R V} {prime : Option Nat}
    (found : t.reports.get? report = some stored) :
    (t.newAssociations K id mark prime).filter (·.report = report) =
      ((K.link mark stored.report).map fun (similar, detail) =>
        newAssociation prime stored.cache (.found id report similar detail)).toList := by
  refine Dict.filter_filterMap_items (fun k v row made => ?_) found
  obtain ⟨⟨similar, detail⟩, -, rfl⟩ := map_eq_some_iff.mp made
  simp

/-- The report that an association is added to. -/
theorem cacheOf_append {report : Nat} {row : Association D}
    (rows : t'.associations.filter (·.report = report) = t.associations.filter (·.report = report) ++ [row])
    (old : ∀ row ∈ t.associations, t'.marks.get? row.mark = t.marks.get? row.mark)
    (new : t'.marks.get? row.mark = some mark) (here : row.report = report) :
    cacheOf K t' report =
      { marksTotal := (cacheOf K t report).marksTotal + if row.associated then 1 else 0
        marksConfirmed := (cacheOf K t report).marksConfirmed + if row.associated ∧ row.type = .confirmed then 1 else 0
        marksAutomatic := (cacheOf K t report).marksAutomatic + if row.type = .automatic then 1 else 0
        value := K.summary (t.judged (counting t report) ++
          if row.associated then [(report, mark, row.detail)] else []) report } := by
  have judged : t'.judged (((t.associations.filter (·.report = report)) ++ [row]).filter (·.associated)) =
      t.judged (counting t report) ++
        if row.associated then [(report, mark, row.detail)] else [] := by
    rw [filter_append, judged, filterMap_append]
    congr 1
    · refine filterMap_congr fun row mem => ?_
      rw [old row (mem_of_mem_filter (mem_of_mem_filter mem))]
    · by_cases counts : row.associated = true
      · simp [counts, new, here]
      · simp [counts]
  rw [cacheOf, rows, judged, cacheOf]
  simp

/-- The association for which the cache of a report is updated. -/
theorem find?_affected {news : List (Association D)} {affects : Association D → Bool} :
    (news.filter affects).find? (·.report = report) = ((news.filter (·.report = report)).filter affects).head? := by
  rw [← head?_filter, filter_comm]

/-- The cache of one report after the population. -/
theorem populate_cache (lawful : K.Lawful overlooks) (exact : Exact K t) (fresh : t.FreshMark id)
    {stored stored' : Stored R V} (found : t.reports.get? report = some stored)
    (found' : (updateOnPopulate K (t.connected K id mark none) mark
      (t.newAssociations K id mark none)).reports.get? report = some stored') :
    stored'.cache = cacheOf K (t.connected K id mark none) report ↔
      ∀ detail, K.link mark stored.report = some (true, detail) → stored.cache.marksConfirmed = 0 →
        ¬ overlooks mark (countedMarks t report) := by
  have before := (exact_iff_stored lawful).mp exact report stored found
  have old : ∀ row ∈ t.associations, (t.marks.set id mark).get? row.mark = t.marks.get? row.mark :=
    fun row mem => Dict.get?_set_of_ne _ _ (fresh.2 row mem)
  rw [updateOnPopulate, Dict.get?_mapVals, found, map_some, some.injEq, find?_affected,
    filter_newAssociations found] at found'
  have rows : (t.connect K id mark none).filter (·.report = report) = t.associations.filter (·.report = report) ++
      (t.newAssociations K id mark none).filter (·.report = report) := by
    rw [connect, clear_of_fresh fresh, filter_append]
  rw [filter_newAssociations found] at rows
  cases link : K.link mark stored.report with
  | none =>
    rw [link] at rows
    have same : stored' = stored := by simpa [link] using found'.symm
    refine iff_of_true ?_ fun _ is => by cases is
    rw [same, before]
    symm
    exact @cacheOf_congr _ _ _ _ K t report
      (t.connected K id mark none) (by simpa using rows)
      fun row mem _ => old row mem
  | some linked =>
    obtain ⟨similar, detail⟩ := linked
    simp only [link, map_some, toList_some] at found' rows
    obtain ⟨type, counts⟩ := @newAssociation_of_not_prime _ _ none stored.cache
      (.found id report similar detail) (by simp)
    set row := newAssociation none stored.cache (.found id report similar detail) with is
    have after := @cacheOf_append _ _ _ _ K t
      (t.connected K id mark none) mark report row rows old
      (by simp [is]) (by simp [is])
    cases similar with
    | false =>
      have only : K.onlyAutomatic = true := by
        by_contra all
        cases lawful.similar link (Bool.not_eq_true _ ▸ all)
      have other : row.type ≠ .automatic := fun is => by simp [type] at is
      have idle : row.associated = false := by simpa using counts
      have same : stored' = stored := by
        simpa [only, other] using found'.symm
      refine iff_of_true ?_ fun _ is => by cases is
      rw [same, after, before]
      simp [idle, other, cacheOf]
    | true =>
      have automatic : row.type = .automatic := by simp [type]
      have affected : ([row].filter fun row => K.onlyAutomatic → row.type = .automatic).head? = some row := by
        simp [automatic]
      rw [affected] at found'
      dsimp only at found'
      by_cases zero : stored.cache.marksConfirmed = 0
      · rw [if_pos zero] at found'
        have counts : row.associated = true := counts.mpr ⟨rfl, zero⟩
        have detail' : row.detail = detail := by simp [is]
        have judged : ∀ x ∈ t.judged (counting t report),
            x.1 = report := by
          intro x mem
          obtain ⟨row, was, made⟩ := mem_filterMap.mp mem
          obtain ⟨_, -, rfl⟩ := map_eq_some_iff.mp made
          have own := (mem_filter.mp (mem_of_mem_filter was)).2
          exact of_decide_eq_true own
        have value : stored.cache.value =
            K.summary (t.judged (counting t report)) report :=
          congrArg Cache.value before
        rw [← found', after, ← before, counts, automatic, detail', value]
        simp only [Cache.mk.injEq, if_true, true_and, reduceCtorEq, and_false, if_false, Nat.add_zero]
        rw [lawful.populated judged]
        exact ⟨fun ok _ _ _ => ok, fun ok => ok detail rfl zero⟩
      · rw [if_neg zero] at found'
        have idle : row.associated = false := by simpa [zero] using counts
        refine iff_of_true ?_ fun _ _ is => absurd is zero
        rw [← found', after, before]
        simp [idle, automatic, cacheOf]

theorem populate_exact (lawful : K.Lawful overlooks) (exact : Exact K t) (done : t.populate K id mark = some t') :
    Exact K t' ↔ Addable K overlooks t mark := by
  obtain ⟨fresh, rfl⟩ := populate_cases done
  rw [exact_iff_stored lawful]
  constructor
  · intro all report stored detail found link zero
    have some : ∃ stored', (updateOnPopulate K
        (t.connected K id mark none) mark
        (t.newAssociations K id mark none)).reports.get? report = some stored' := by
      rw [updateOnPopulate, Dict.get?_mapVals, found, map_some]
      exact ⟨_, rfl⟩
    obtain ⟨stored', found'⟩ := some
    exact (populate_cache lawful exact fresh found found').mp (all report stored' found') detail link zero
  · intro ok report stored' found'
    have some := found'
    rw [updateOnPopulate, Dict.get?_mapVals] at some
    obtain ⟨stored, found, -⟩ := map_eq_some_iff.mp some
    exact (populate_cache lawful exact fresh found found').mpr fun detail link zero =>
      ok report stored detail found link zero

/-! ## The kinds -/

theorem ofReport_filter (marks : List (Nat × M × D)) (report : Nat) :
    ofReport report (marks.filter (·.1 = report)) = ofReport report marks := by
  simp [ofReport, List.filter_filter]

theorem ofReport_append {marks : List (Nat × M × D)} {detail : D} :
    ofReport report (marks ++ [(report, mark, detail)]) = ofReport report marks ++ [(mark, detail)] := by
  simp [ofReport]

/-- What is the same in the old and the new mark is the same in the marks of a report. -/
theorem map_ofReport {α : Type} {f : M × D → α} {old new : M} {marks marks' : List (Nat × M × D)}
    (changed : List.Forall₂ (fun x y => x = y ∨ x.2.1 = old ∧ y = (x.1, new, x.2.2)) marks marks')
    (same : ∀ detail, f (old, detail) = f (new, detail)) :
    (ofReport report marks).map f = (ofReport report marks').map f := by
  induction changed with
  | nil => rfl
  | @cons x y _ _ is _ ih =>
    have here : (x.1 = report ↔ y.1 = report) ∧ f x.2 = f y.2 := by
      obtain rfl | ⟨rfl, rfl⟩ := is
      · exact ⟨Iff.rfl, rfl⟩
      · exact ⟨Iff.rfl, same x.2.2⟩
    by_cases own : x.1 = report
    · simp only [ofReport, filter_cons, own, here.1.mp own, decide_true, if_true, map_cons, here.2]
      exact congrArg _ ih
    · simp only [ofReport, filter_cons, own, mt here.1.mpr own, decide_false, Bool.false_eq_true, if_false]
      exact ih

/-! ### Safes -/

theorem foldl_safeValue (marks : List (SafeMark × Unit)) (value : SafeValue) :
    marks.foldl (fun value mark => value.add mark.1) value =
      ⟨(marks.map (·.1.verdict)).foldl (fun sum verdict => safeVerdictsSum [sum, .mark verdict]) value.verdict,
        (marks.map (·.1.tags)).foldl addTags value.tags⟩ := by
  induction marks generalizing value with
  | nil => rfl
  | cons mark marks ih => exact ih _

theorem safes_lawful : safes.Lawful fun _ _ => False where
  summary_filter marks report := by simp only [safes, ofReport_filter]
  similar link _ := by
    simp only [safes] at link
    split at link <;> cases link
    rfl
  refreshed _ _ changed := by
    simp only [safes, foldl_safeValue, SafeValue.mk.injEq]
    refine ⟨?_, ?_⟩
    · split
      next => rfl
      next same => rw [map_ofReport changed fun _ => not_not.mp same]
    · split
      next => rfl
      next same => rw [map_ofReport changed fun _ => not_not.mp same]
  populated _ := by
    refine iff_of_true ?_ id
    simp [safes, ofReport_append]

/-! ### Unknowns -/

theorem unknowns_lawful (matchDescRegexp : String → String → String → Option String) :
    (unknowns matchDescRegexp).Lawful fun _ _ => False where
  summary_filter marks report := by simp only [unknowns, ofReport_filter]
  similar link _ := by
    simp only [unknowns] at link
    split at link
    · obtain ⟨description, -, link⟩ := bind_eq_some_iff.mp link
      split at link
      · cases link
      · obtain ⟨problem, -, is⟩ := map_eq_some_iff.mp link
        cases is
        rfl
    · cases link
  refreshed _ _ changed := by
    have problems (marks : List (UnknownMark × String)) (old : Numbers) :
        marks.foldl (fun problems mark => mark.2 ::ₘ problems) old =
          (marks.map Prod.snd).foldl (fun problems problem => problem ::ₘ problems) old := by
      rw [foldl_map]
    simp only [unknowns, problems]
    rw [map_ofReport changed fun _ => rfl]
  populated _ := by
    refine iff_of_true ?_ id
    simp [unknowns, ofReport_append]

/-! ### Unsafes -/

theorem foldl_unsafeValue (marks : List (UnsafeMark × ℚ)) (value : Verdict MarkUnsafe × Numbers) :
    marks.foldl (fun value mark => UnsafeValue.add value mark.1) value =
      ((marks.map (·.1.judgement)).foldl (fun sum judgement => unsafeVerdictsSum [sum, .mark judgement.verdict]) value.1,
        (marks.map (·.1.tags)).foldl addTags value.2) := by
  induction marks generalizing value with
  | nil => rfl
  | cons mark marks ih => exact ih _

/-- The verdict does not depend on the statuses. -/
theorem foldl_verdict (judgements : List Judgement) :
    judgements.foldl (fun sum judgement => unsafeVerdictsSum [sum, .mark judgement.verdict]) .withoutMarks =
      (summed judgements).1 := by
  induction judgements using List.reverseRecOn with
  | nil => rfl
  | append_singleton judgements judgement ih =>
    rw [summed_append, foldl_append, ih]
    rfl

theorem collected_status (marks : List (Nat × UnsafeMark × ℚ)) (report : Nat) :
    ((BugStatusCollector.new.addAll (marks.map fun mark => (mark.1, mark.2.1.judgement))).result.get? report).join =
      (knownOf ((ofReport report marks).map (·.1.judgement))).status := by
  obtain ⟨apart, known⟩ := BugStatusCollector.addAll_spec BugStatusCollector.apart_new
    (marks.map fun mark => (mark.1, mark.2.1.judgement))
  rw [BugStatusCollector.result_get? apart, known, knownOf]
  simp [ofReport, List.filter_map, Function.comp_def, BugStatusCollector.known, BugStatusCollector.new, Dict.get?_empty]

/-- A mark is a bug exactly when it has a status. -/
theorem known_add_congr {judgement judgement' : Judgement} (known : Known) (same : judgement.status = judgement'.status) :
    known.add judgement = known.add judgement' := by
  have bug : judgement.verdict = .bug ↔ judgement'.verdict = .bug := by
    rw [← judgement.status_iff, ← judgement'.status_iff, same]
  cases known <;> simp [Known.add, bug, same]

/-- A recalculation overlooks marks that are no bugs when the first bug comes. -/
def Overlooks (mark : UnsafeMark) (others : List UnsafeMark) : Prop :=
  mark.judgement.verdict = .bug ∧ others ≠ [] ∧ ∀ other ∈ others, other.judgement.verdict ≠ .bug

/-- The verdict with a bug after marks that are no bugs. -/
theorem summed_bug_incompatible {judgements : List Judgement} (none : ¬ HasBug judgements) :
    unsafeVerdictsSum [(summed judgements).1, .mark .bug] = .incompatible ↔ judgements ≠ [] := by
  obtain ⟨without, verdict⟩ := summed_verdict judgements
  rw [unsafeVerdictsSum, verdictsSum_pair]
  cases is : (summed judgements).1 with
  | withoutMarks => simp [Verdict.add, without.mp is]
  | incompatible =>
    have some : judgements ≠ [] := fun nil => by
      rw [without.mpr nil] at is
      cases is
    simp [Verdict.add, some]
  | mark v =>
    obtain ⟨some, same⟩ := (verdict v).mp is
    obtain ⟨first, mem⟩ := exists_mem_of_ne_nil judgements some
    have other : v ≠ .bug := fun bug => none ⟨first, mem, (same first mem).trans bug⟩
    simp [Verdict.add, other, some]

/-- The sum with one more mark is what the collector gives, unless it overlooks something. -/
theorem sum_eq_add_iff (judgements : List Judgement) (judgement : Judgement) :
    BugStatusCollector.sum (knownOf judgements).status (judgement.status.map .mark)
        (unsafeVerdictsSum [(summed judgements).1, .mark judgement.verdict]) =
      ((knownOf judgements).add judgement).status ↔
      ¬ (judgement.verdict = .bug ∧ judgements ≠ [] ∧ ¬ HasBug judgements) := by
  have status (bug : judgement.verdict ≠ .bug) : judgement.status = none := by
    by_contra some
    exact bug (judgement.status_iff.mp (isSome_iff_ne_none.mpr some))
  have has (some : knownOf judgements ≠ .withoutBugs) : HasBug judgements := by
    by_contra none
    exact some (knownOf_eq_withoutBugs.mpr none)
  cases known : knownOf judgements with
  | withoutBugs =>
    have none := knownOf_eq_withoutBugs.mp known
    by_cases bug : judgement.verdict = .bug
    · obtain ⟨s, is⟩ := isSome_iff_exists.mp (judgement.status_iff.mpr bug)
      have incompatible := summed_bug_incompatible none
      by_cases some : judgements = []
      · have verdict := mt incompatible.mp (not_not.mpr some)
        subst some
        simp [Known.add, Known.status, BugStatusCollector.sum, bug, is, verdict]
      · simp [Known.add, Known.status, BugStatusCollector.sum, bug, is, some, none, incompatible.mpr some]
    · simp [Known.add, bug, status bug, Known.status, BugStatusCollector.sum]
  | bugs old =>
    have has := has (by simp [known])
    refine iff_of_true ?_ fun overlooked => overlooked.2.2 has
    -- the bugs have a status
    obtain ⟨first, mem, isBug⟩ := has
    have some := first.status_iff.mpr isBug
    rw [bugsAre_of_knownOf known first mem isBug] at some
    obtain ⟨s, rfl⟩ := isSome_iff_exists.mp some
    by_cases bug : judgement.verdict = .bug
    · obtain ⟨s', is⟩ := isSome_iff_exists.mp (judgement.status_iff.mpr bug)
      by_cases same : s = s'
      · simp [Known.add, bug, is, same, Known.status, BugStatusCollector.sum]
      · simp [Known.add, bug, is, same, Known.status, BugStatusCollector.sum]
    · simp [Known.add, bug, status bug, Known.status, BugStatusCollector.sum]
  | conflict =>
    have has := has (by simp [known])
    refine iff_of_true ?_ fun overlooked => overlooked.2.2 has
    cases is : judgement.status with
    | none => rfl
    | some s => simp [Known.add, Known.status, BugStatusCollector.sum]

/-- The statuses of marks tell which of them are bugs. -/
theorem knownOf_congr {judgements judgements' : List Judgement}
    (same : judgements.map (·.status) = judgements'.map (·.status)) : knownOf judgements = knownOf judgements' := by
  have from_any (known : Known) : judgements.foldl Known.add known = judgements'.foldl Known.add known := by
    induction judgements generalizing judgements' known with
    | nil =>
      cases map_eq_nil_iff.mp same.symm
      rfl
    | cons judgement judgements ih =>
      cases judgements' with
      | nil => cases same
      | cons judgement' judgements' =>
        obtain ⟨first, rest⟩ := List.cons.inj same
        rw [foldl_cons, foldl_cons, known_add_congr known first]
        exact ih rest _
  exact from_any _

theorem unsafes_lawful (search : String → String → Bool) : (unsafes search).Lawful Overlooks where
  summary_filter marks report := by
    simp only [unsafes, ofReport_filter, collected_status]
  similar _ all := by cases all
  refreshed _ _ changed := by
    simp only [unsafes, foldl_unsafeValue, collected_status, UnsafeValue.mk.injEq]
    refine ⟨?_, ?_, ?_⟩
    · split
      next => rfl
      next same =>
        have verdicts (judgements : List Judgement) : judgements.foldl
            (fun sum judgement => unsafeVerdictsSum [sum, .mark judgement.verdict]) .withoutMarks =
            (judgements.map (·.verdict)).foldl (fun sum verdict => unsafeVerdictsSum [sum, .mark verdict])
              .withoutMarks := by
          rw [foldl_map]
        rw [verdicts, verdicts, List.map_map, List.map_map, map_ofReport changed fun _ => not_not.mp same]
    · split
      next => rfl
      next same =>
        refine congrArg _ (knownOf_congr ?_)
        rw [List.map_map, List.map_map]
        exact map_ofReport changed fun _ => not_not.mp same
    · split
      next => rfl
      next same => rw [map_ofReport changed fun _ => not_not.mp same]
  populated := by
    intro marks report mark detail own
    have all : ofReport report marks = marks.map Prod.snd := by
      rw [ofReport, filter_eq_self.mpr fun x mem => decide_eq_true (own x mem)]
    have overlooked : Overlooks mark (marks.map (·.2.1)) ↔ mark.judgement.verdict = .bug ∧
        marks.map (fun x => x.2.1.judgement) ≠ [] ∧ ¬ HasBug (marks.map fun x => x.2.1.judgement) := by
      simp only [Overlooks, HasBug, not_exists, not_and, List.forall_mem_map, ne_eq, map_eq_nil_iff]
    have judgements : (marks.map Prod.snd).map (·.1.judgement) = marks.map fun x => x.2.1.judgement := by
      rw [List.map_map]
      rfl
    rw [overlooked, ← sum_eq_add_iff]
    simp only [unsafes, foldl_unsafeValue, collected_status, ofReport_append, map_append, map_cons, map_nil,
      foldl_append, foldl_cons, foldl_nil, all, judgements, foldl_verdict, knownOf_append, UnsafeValue.mk.injEq]
    -- verdict and tags are continued as they are recalculated, only the status is not
    refine ⟨fun same => same.2.1, fun status => ⟨?_, status, trivial⟩⟩
    rw [summed_append]

/-! ## All operations -/

/-- The operations that keep the caches exact: all but new marks that do not match their report, and populated marks for
which something is overlooked. -/
def Traceable (K : Kind M R D V) (overlooks : M → List M → Prop) (t : Tables M R D V) : Operation M R → Prop
  | .create _ form prime => ∀ stored mark, t.reports.get? prime = some stored →
    K.prepare form stored.report = some mark → Matches K t mark prime stored
  | .populate _ mark => Addable K overlooks t mark
  | _ => True

theorem perform_exact {op : Operation M R}
    (lawful : K.Lawful overlooks) (exact : Exact K t) (done : t.perform K op = some t') :
    Exact K t' ↔ Traceable K overlooks t op := by
  cases op with
  | create => exact create_exact lawful exact done
  | populate => exact populate_exact lawful exact done
  | update => exact iff_true_intro (update_exact lawful exact done)
  | remove => exact iff_true_intro (remove_exact lawful exact done)
  | confirm => exact iff_true_intro (confirm_exact lawful exact done)
  | unconfirm => exact iff_true_intro (unconfirm_exact lawful exact done)
  | upload => exact iff_true_intro (upload_exact lawful exact done)

variable {search : String → String → Bool} {matchDescRegexp : String → String → String → Option String}

/-- All caches are exact. -/
structure Database.Exact (search : String → String → Bool)
    (matchDescRegexp : String → String → String → Option String) (db : Database) : Prop where
  safes : Marks.Exact Marks.safes db.safes
  unsafes : Marks.Exact (Marks.unsafes search) db.unsafes
  unknowns : Marks.Exact (Marks.unknowns matchDescRegexp) db.unknowns

/-- The requests that keep all caches exact. -/
def Database.Traceable (search : String → String → Bool)
    (matchDescRegexp : String → String → String → Option String) (db : Database) : Request → Prop
  | .safeReport op => Marks.Traceable Marks.safes (fun _ _ => False) db.safes op
  | .unsafeReport op => Marks.Traceable (Marks.unsafes search) Overlooks db.unsafes op
  | .unknownReport op => Marks.Traceable (Marks.unknowns matchDescRegexp) (fun _ _ => False) db.unknowns op

/-- The caches are exact after an operation if and only if it does not create a mark for a report that the mark does
not match and that counts automatic associations, or populate a bug mark that is similar to a report with marks
of which none is a bug. -/
theorem exact_iff_traceable {db db' : Database} {request : Request} (exact : db.Exact search matchDescRegexp)
    (done : db.perform search matchDescRegexp request = some db') :
    db'.Exact search matchDescRegexp ↔ db.Traceable search matchDescRegexp request := by
  cases request with
  | safeReport op =>
    obtain ⟨tables, step, rfl⟩ := map_eq_some_iff.mp done
    refine Iff.trans ?_ (perform_exact safes_lawful exact.safes step)
    exact ⟨fun all => all.safes, fun safes => { exact with safes }⟩
  | unsafeReport op =>
    obtain ⟨tables, step, rfl⟩ := map_eq_some_iff.mp done
    refine Iff.trans ?_ (perform_exact (unsafes_lawful search) exact.unsafes step)
    exact ⟨fun all => all.unsafes, fun unsafes => { exact with unsafes }⟩
  | unknownReport op =>
    obtain ⟨tables, step, rfl⟩ := map_eq_some_iff.mp done
    refine Iff.trans ?_ (perform_exact (unknowns_lawful matchDescRegexp) exact.unknowns step)
    exact ⟨fun all => all.unknowns, fun unknowns => { exact with unknowns }⟩

theorem Database.empty_exact : Database.empty.Exact search matchDescRegexp := by
  refine ⟨?_, ?_, ?_⟩ <;> exact fun _ _ found => by cases found

/-- An unsafe report whose trace is always matched. -/
def matchedReport : Request := .unsafeReport (.upload 1 ⟨∅, some "", fun _ => none⟩)

/-- A mark of the trace. -/
def tracesMark (judgement : Judgement) : UnsafeMark := ⟨∅, judgement, [], .regexpMatch, "", 0⟩

def falsePositiveMark : UnsafeMark := tracesMark ⟨.falsePositive, none, by decide⟩

/-- The caches are exact after the upload of a report and a mark that is populated then and matches it. -/
theorem matchedReport_exact : ∃ db db' : Database,
    Database.empty.perform (fun _ _ => true) (fun _ _ _ => none) matchedReport = some db ∧
    db.perform (fun _ _ => true) (fun _ _ _ => none) (.unsafeReport (.populate 1 falsePositiveMark)) = some db' ∧
    db'.unsafes.associations ≠ [] ∧ db'.Exact (fun _ _ => true) (fun _ _ _ => none) := by
  let both := (Database.empty.perform (fun _ _ => true) (fun _ _ _ => none) matchedReport).bind
    (·.perform (fun _ _ => true) (fun _ _ _ => none) (.unsafeReport (.populate 1 falsePositiveMark)))
  have associated : both.map (fun db => db.unsafes.associations.isEmpty) = some false := by decide +kernel
  obtain ⟨db', done, some⟩ := map_eq_some_iff.mp associated
  obtain ⟨db, uploaded, populated⟩ := bind_eq_some_iff.mp done
  have exact := (exact_iff_traceable Database.empty_exact uploaded).mpr trivial
  refine ⟨db, db', uploaded, populated, isEmpty_eq_false_iff.mp some, (exact_iff_traceable exact populated).mpr ?_⟩
  intro report stored detail _ _ _ overlooked
  exact MarkUnsafe.noConfusion overlooked.1

def bugMark : UnsafeMark := tracesMark ⟨.bug, some .unreported, by decide⟩

/-- A report with a false positive, and a bug mark that is populated: the status that is stored says that the marks are
incompatible, the recalculated one does not. -/
theorem bugMark_inexact : ∃ db db' : Database, db.Exact (fun _ _ => true) (fun _ _ _ => none) ∧
    db.perform (fun _ _ => true) (fun _ _ _ => none) (.unsafeReport (.populate 2 bugMark)) = some db' ∧
    ¬ db'.Exact (fun _ _ => true) (fun _ _ _ => none) := by
  let K := unsafes fun _ _ => true
  let empty := Database.empty.unsafes
  let first := (empty.perform K (.upload 1 ⟨∅, some "", fun _ => none⟩)).bind
    (·.perform K (.populate 1 falsePositiveMark))
  have succeeds : (first.bind (·.perform K (.populate 2 bugMark))).isSome := by decide +kernel
  have differs : (first.bind (·.perform K (.populate 2 bugMark))).map (fun t => t.reports.items.all fun x =>
      x.2.cache = t.recalculated K t.reports.keys x.1) = some false := by decide +kernel
  obtain ⟨after, done⟩ := isSome_iff_exists.mp succeeds
  rw [done, map_some, some.injEq, List.all_eq_false] at differs
  obtain ⟨before, two, last⟩ := bind_eq_some_iff.mp done
  obtain ⟨uploaded, one, second⟩ := bind_eq_some_iff.mp two
  -- the first two operations keep the caches exact
  have lawful := unsafes_lawful fun _ _ => true
  have rest := @Database.empty_exact (fun _ _ => true) fun _ _ _ => none
  have nothing : Exact K empty := fun _ _ found => by cases found
  have exact : Exact K before := by
    refine (perform_exact lawful ((perform_exact lawful nothing one).mpr trivial) second).mpr ?_
    intro report stored detail _ _ _ overlooked
    exact MarkUnsafe.noConfusion overlooked.1
  refine ⟨{ Database.empty with unsafes := before }, { Database.empty with unsafes := after },
    ⟨rest.safes, exact, rest.unknowns⟩, ?_, fun all => ?_⟩
  · show (before.perform K (.populate 2 bugMark)).map _ = _
    rw [last]
    rfl
  · obtain ⟨⟨report, stored⟩, mem, bad⟩ := differs
    exact bad (decide_eq_true (all.unsafes report stored (Dict.mem_items_iff.mp mem)))

end Klever.Bridge.Marks
