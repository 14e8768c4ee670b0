import Klever.Bridge.Marks
import Klever.Lib.Run

/-!
# Which associations count

The flags of associations are right if confirmed associations count, dissimilar and unconfirmed ones do not, and
automatic associations count for reports without confirmed ones.

Most operations keep that. Two do not always. The creation of a mark stops counting automatic associations of the
report it is created for, even if the new mark does not match the report. A change of a mark deletes its
associations, confirmed ones too, but looks for confirmed associations in caches that are older than that; and what
does not count because of a deleted association is not counted again.
-/

namespace Klever.Bridge.Marks

open Klever.Lib List Option Tables Association Database

variable {M R D V : Type}

/-- The flags are right. -/
structure Flags (rows : List (Association D)) : Prop where
  confirmed : ∀ row ∈ rows, row.type = .confirmed → row.associated = true
  idle : ∀ row ∈ rows, row.type = .dissimilar ∨ row.type = .unconfirmed → row.associated = false
  automatic : ∀ row ∈ rows, row.type = .automatic → (row.associated = true ↔ ¬ HasConfirmed rows row.report)

/-- The number of confirmed associations of a report. -/
def confirmedNumber (rows : List (Association D)) (report : Nat) : Nat :=
  rows.countP fun row => row.report = report ∧ row.associated ∧ row.type = .confirmed

/-- The caches know the numbers of confirmed associations. -/
def Tables.Counted (t : Tables M R D V) : Prop :=
  ∀ report stored, t.reports.get? report = some stored →
    stored.cache.marksConfirmed = confirmedNumber t.associations report

/-! ## One row -/

/-- The flag of one association. -/
def Right (rows : List (Association D)) (row : Association D) : Prop :=
  row.associated = true ↔ row.type = .confirmed ∨ row.type = .automatic ∧ ¬ HasConfirmed rows row.report

variable {rows : List (Association D)} {row : Association D} {report : Nat} {f : Association D → Association D}
  {t : Tables M R D V} {id : Nat} {K : Kind M R D V}

theorem flags_iff : Flags rows ↔ ∀ row ∈ rows, Right rows row := by
  constructor
  · intro flags row mem
    cases type : row.type with
    | dissimilar => simp [Right, type, flags.idle row mem (.inl type)]
    | unconfirmed => simp [Right, type, flags.idle row mem (.inr type)]
    | automatic => simpa [Right, type] using flags.automatic row mem type
    | confirmed => simp [Right, type, flags.confirmed row mem type]
  · intro right
    refine ⟨fun row mem type => (right row mem).mpr (.inl type), fun row mem type => ?_, fun row mem type => ?_⟩
    · have := right row mem
      rcases type with type | type <;> simpa [Right, type] using this
    · simpa [Right, type] using right row mem

variable {rows' : List (Association D)}

theorem Right.congr (same : HasConfirmed rows' row.report ↔ HasConfirmed rows row.report) :
    Right rows' row ↔ Right rows row := by
  rw [Right, Right, same]

namespace Association

variable (row : Association D)

@[simp] theorem disable_report : row.disable.report = row.report := rfl

@[simp] theorem disable_type : row.disable.type = row.type := rfl

@[simp] theorem disable_associated : row.disable.associated = false := rfl

@[simp] theorem enable_report : row.enable.report = row.report := by
  unfold enable
  split <;> rfl

@[simp] theorem enable_type : row.enable.type = row.type := by
  unfold enable
  split <;> rfl

@[simp] theorem enable_associated : row.enable.associated = true ↔ row.associated = true ∨ row.type = .automatic := by
  unfold enable
  split <;> simp [*]

variable (mark report : Nat) (similar : Bool) (detail : D)

@[simp] theorem found_report : (found mark report similar detail).report = report := rfl

@[simp] theorem found_data : (found mark report similar detail).mark = mark ∧
    (found mark report similar detail).detail = detail := ⟨rfl, rfl⟩

@[simp] theorem found_associated : (found mark report similar detail).associated = similar := rfl

@[simp] theorem found_automatic : (found mark report similar detail).type = .automatic ↔ similar = true := by
  cases similar <;> simp [found]

@[simp] theorem found_confirmed : (found mark report similar detail).type ≠ .confirmed := by
  cases similar <;> simp [found]

end Association

/-! ## Rows that are changed one by one -/

theorem hasConfirmed_append :
    HasConfirmed (rows ++ rows') report ↔ HasConfirmed rows report ∨ HasConfirmed rows' report := by
  simp [HasConfirmed, or_and_right, exists_or]

theorem hasConfirmed_map
    (keeps : ∀ row ∈ rows, (f row).report = row.report ∧ ((f row).type = .confirmed ↔ row.type = .confirmed)) :
    HasConfirmed (rows.map f) report ↔ HasConfirmed rows report := by
  constructor
  · rintro ⟨_, mem, here, type⟩
    obtain ⟨row, was, rfl⟩ := List.mem_map.mp mem
    exact ⟨row, was, (keeps row was).1 ▸ here, (keeps row was).2.mp type⟩
  · rintro ⟨row, mem, here, type⟩
    exact ⟨f row, List.mem_map_of_mem mem, (keeps row mem).1.trans here, (keeps row mem).2.mpr type⟩

theorem hasConfirmed_clear (has : HasConfirmed (t.clearOldAssociations id) report) :
    HasConfirmed t.associations report := by
  obtain ⟨row, mem, here, type⟩ := has
  exact ⟨row, mem_of_mem_filter mem, here, type⟩

theorem clear_of_fresh (fresh : t.FreshMark id) : t.clearOldAssociations id = t.associations :=
  filter_eq_self.mpr fun row mem => decide_eq_true (fresh.2 row mem)

theorem mem_linked : report ∈ t.linked id ↔ ∃ row ∈ t.associations, row.mark = id ∧ row.report = report := by
  simp [linked, and_assoc]

/-- A report has confirmed associations if its cache says so. -/
theorem Tables.Counted.eq_zero_iff (counted : t.Counted) (flags : Flags t.associations) {stored : Stored R V}
    (found : t.reports.get? report = some stored) :
    stored.cache.marksConfirmed = 0 ↔ ¬ HasConfirmed t.associations report := by
  rw [counted report stored found, confirmedNumber, countP_eq_zero, HasConfirmed, not_exists]
  refine forall_congr' fun row => ?_
  rw [not_and]
  refine imp_congr_right fun mem => ?_
  simp only [decide_eq_true_eq]
  refine not_congr (and_congr_right fun _ => ⟨And.right, fun type => ⟨flags.confirmed row mem type, type⟩⟩)

/-! ## New associations -/

section New

variable {prime : Option Nat} {cache : Cache V} {row : Association D}

@[simp] theorem newAssociation_report : (newAssociation prime cache row).report = row.report := by
  unfold newAssociation
  split
  · rfl
  · split <;> rfl

@[simp] theorem newAssociation_data : (newAssociation prime cache row).mark = row.mark ∧
    (newAssociation prime cache row).detail = row.detail := by
  unfold newAssociation
  split
  · exact ⟨rfl, rfl⟩
  · split <;> exact ⟨rfl, rfl⟩

/-- Only the prime report gets a confirmed association. -/
theorem newAssociation_confirmed (new : row.type ≠ .confirmed) :
    (newAssociation prime cache row).type = .confirmed ↔ prime = some row.report ∧ row.associated = true := by
  unfold newAssociation
  split
  next is => exact ⟨fun _ => is, fun _ => rfl⟩
  next no =>
    refine ⟨fun type => absurd ?_ new, fun is => absurd is no⟩
    split at type <;> exact type

theorem newAssociation_of_not_prime (other : prime ≠ some row.report) :
    (newAssociation prime cache row).type = row.type ∧
      ((newAssociation prime cache row).associated = true ↔ row.associated = true ∧ cache.marksConfirmed = 0) := by
  unfold newAssociation
  rw [if_neg fun is => other is.1]
  split
  next some => exact ⟨rfl, by simp [some]⟩
  next none => exact ⟨rfl, by simp [not_not.mp none]⟩

/-- The prime report gets a confirmed association or a dissimilar one. -/
theorem newAssociation_of_prime {mark report : Nat} {similar : Bool} {detail : D} :
    (newAssociation (some report) cache (.found mark report similar detail)).associated = similar ∧
      (newAssociation (some report) cache (.found mark report similar detail)).type =
        if similar then .confirmed else .dissimilar := by
  cases similar with
  | true => simp [newAssociation, Association.confirm]
  | false =>
    simp only [newAssociation, found_associated, Bool.false_eq_true, and_false, if_false]
    split <;> exact ⟨rfl, rfl⟩

end New

variable {prime : Option Nat} {mark : M}

theorem mem_newAssociations :
    row ∈ t.newAssociations K id mark prime ↔ ∃ report stored similar detail, t.reports.get? report = some stored ∧
      K.link mark stored.report = some (similar, detail) ∧
      newAssociation prime stored.cache (.found id report similar detail) = row := by
  simp only [newAssociations, mem_filterMap, Prod.exists, map_eq_some_iff, Dict.mem_items_iff]
  grind

/-- A mark that is found similar to a report. -/
def Similar (K : Kind M R D V) (t : Tables M R D V) (mark : M) (report : Nat) : Prop :=
  ∃ stored detail, t.reports.get? report = some stored ∧ K.link mark stored.report = some (true, detail)

theorem hasConfirmed_new :
    HasConfirmed (t.newAssociations K id mark prime) report ↔ prime = some report ∧ Similar K t mark report := by
  constructor
  · rintro ⟨_, mem, here, type⟩
    obtain ⟨report', stored, similar, detail, found, link, rfl⟩ := mem_newAssociations.mp mem
    rw [newAssociation_report, found_report] at here
    obtain ⟨is, rfl⟩ := (newAssociation_confirmed (found_confirmed _ _ _ _)).mp type
    subst here
    exact ⟨is, stored, detail, found, link⟩
  · rintro ⟨rfl, stored, detail, found, link⟩
    exact ⟨_, mem_newAssociations.mpr ⟨report, stored, true, detail, found, link, rfl⟩, by simp,
      (newAssociation_confirmed (found_confirmed _ _ _ _)).mpr ⟨rfl, rfl⟩⟩

theorem hasConfirmed_connect_none :
    HasConfirmed (t.connect K id mark none) report ↔ HasConfirmed (t.clearOldAssociations id) report := by
  rw [connect, hasConfirmed_append, hasConfirmed_new]
  simp

/-- What may be lost when a mark is connected again: reports that have only been confirmed by it, but have automatic
associations with other marks or with this one. -/
def Reconnectable (K : Kind M R D V) (t : Tables M R D V) (id : Nat) (mark : M) : Prop :=
  ∀ report, HasConfirmed t.associations report → HasConfirmed (t.clearOldAssociations id) report ∨
    (∀ row ∈ t.clearOldAssociations id, row.report = report → row.type ≠ .automatic) ∧ ¬ Similar K t mark report

theorem flags_connect_none (flags : Flags t.associations) (counted : t.Counted) :
    Flags (t.connect K id mark none) ↔ Reconnectable K t id mark := by
  have before := flags_iff.mp flags
  have here (row : Association D) : Right (t.connect K id mark none) row ↔ Right (t.clearOldAssociations id) row :=
    Right.congr hasConfirmed_connect_none
  rw [flags_iff]
  simp only [here]
  constructor
  · intro right report has
    by_cases left : HasConfirmed (t.clearOldAssociations id) report
    · exact .inl left
    · refine .inr ⟨fun row mem is type => ?_, ?_⟩
      · subst is
        have counts := (right row (mem_append_left _ mem)).mpr (.inr ⟨type, left⟩)
        exact (flags.automatic row (mem_of_mem_filter mem) type).mp counts has
      · rintro ⟨stored, detail, found, link⟩
        have mem := mem_newAssociations.mpr ⟨report, stored, true, detail, found, link, @rfl _
          (newAssociation none stored.cache (.found id report true detail))⟩
        obtain ⟨type, counts⟩ := @newAssociation_of_not_prime _ _ none stored.cache
          (.found id report true detail) (by simp)
        have automatic : (Association.found id report true detail).type = .automatic := rfl
        have := (right _ (mem_append_right _ mem)).mpr (.inr ⟨type.trans automatic, by simpa using left⟩)
        exact (counted.eq_zero_iff flags found).mp (counts.mp this).2 has
  · intro ok row mem
    obtain mem | mem := mem_append.mp mem
    · have old := before row (mem_of_mem_filter mem)
      by_cases same : HasConfirmed (t.clearOldAssociations id) row.report ↔ HasConfirmed t.associations row.report
      · exact (Right.congr same).mpr old
      · have has : HasConfirmed t.associations row.report := by
          by_contra none
          exact same ⟨hasConfirmed_clear, fun has => absurd has none⟩
        have type := ((ok row.report has).resolve_left fun left => same ⟨fun _ => has, fun _ => left⟩).1 row mem rfl
        rw [Right] at old ⊢
        simpa [type] using old
    · obtain ⟨report, stored, similar, detail, found, link, rfl⟩ := mem_newAssociations.mp mem
      obtain ⟨type, counts⟩ := @newAssociation_of_not_prime _ _ none stored.cache
        (.found id report similar detail) (by simp)
      rw [Right, type, counts, counted.eq_zero_iff flags found, newAssociation_report, found_associated,
        found_report, found_automatic]
      cases similar with
      | false => simp
      | true =>
        simp only [true_and, found_confirmed, false_or]
        refine not_congr ⟨fun has => ?_, hasConfirmed_clear⟩
        exact (ok report has).resolve_right fun lost => lost.2 ⟨stored, detail, found, link⟩

/-- A new mark leaves the flags right. -/
theorem reconnectable_of_fresh (fresh : t.FreshMark id) : Reconnectable K t id mark := by
  intro report has
  rw [clear_of_fresh fresh]
  exact .inl has

/-! ## A new mark for a report -/

theorem Right.of_not_automatic (not : row.type ≠ .automatic) :
    Right rows row ↔ (row.associated = true ↔ row.type = .confirmed) := by
  simp [Right, not]

/-- Automatic associations of a report that has a confirmed one now do not count. -/
theorem Right.disabled (right : Right rows row)
    (some : row.report = report → row.type = .automatic → HasConfirmed rows' report)
    (same : row.report ≠ report → (HasConfirmed rows' row.report ↔ HasConfirmed rows row.report)) :
    Right rows' (if row.report = report ∧ row.associated = true ∧ row.type = .automatic then row.disable else row) := by
  by_cases here : row.report = report
  · by_cases type : row.type = .automatic
    · have has : HasConfirmed rows' row.report := here ▸ some here type
      by_cases counts : row.associated = true
      · rw [if_pos ⟨here, counts, type⟩, Right]
        simp [type, has]
      · rw [if_neg fun is => counts is.2.1, Right]
        simp [type, counts, has]
    · rw [if_neg fun is => type is.2.2]
      rw [Right.of_not_automatic type] at right ⊢
      exact right
  · rw [if_neg fun is => here is.1]
    exact (Right.congr (same here)).mpr right

section Create

variable {K : Kind M R D V} {t : Tables M R D V} {id prime : Nat} {mark : M}

/-- Automatic associations of the prime report may be lost. -/
def Creatable (K : Kind M R D V) (t : Tables M R D V) (mark : M) (prime : Nat) : Prop :=
  ∀ row ∈ t.associations, row.report = prime → row.type = .automatic →
    HasConfirmed t.associations prime ∨ Similar K t mark prime

theorem hasConfirmed_connect_some : HasConfirmed (t.connect K id mark (some prime)) report ↔
    HasConfirmed (t.clearOldAssociations id) report ∨ prime = report ∧ Similar K t mark report := by
  rw [connect, hasConfirmed_map, hasConfirmed_append, hasConfirmed_new, some.injEq]
  intro row _
  split <;> simp

theorem flags_connect_some (fresh : t.FreshMark id) (flags : Flags t.associations) (counted : t.Counted) :
    Flags (t.connect K id mark (some prime)) ↔ Creatable K t mark prime := by
  have has (report : Nat) : HasConfirmed (t.connect K id mark (some prime)) report ↔
      HasConfirmed t.associations report ∨ prime = report ∧ Similar K t mark report := by
    rw [hasConfirmed_connect_some, clear_of_fresh fresh]
  rw [flags_iff]
  constructor
  · intro right row mem here type
    have mem' : row ∈ t.clearOldAssociations id ++ t.newAssociations K id mark (some prime) :=
      mem_append_left _ (by rwa [clear_of_fresh fresh])
    have after := right _ (List.mem_map_of_mem mem')
    by_contra lost
    rw [not_or] at lost
    by_cases counts : row.associated = true
    · rw [if_pos ⟨here, counts, type⟩, Right, disable_report, has, here] at after
      simp [type, lost.1, lost.2] at after
    · rw [if_neg fun is => counts is.2.1, Right, has, here] at after
      simp [type, counts, lost.1, lost.2] at after
  · intro ok row mem
    obtain ⟨row, was, rfl⟩ := List.mem_map.mp mem
    obtain mem | mem := mem_append.mp was
    · rw [clear_of_fresh fresh] at mem
      refine (flags_iff.mp flags row mem).disabled (fun here type => ?_) fun here => ?_
      · rw [has]
        exact (ok row mem here type).imp_right fun similar => ⟨rfl, similar⟩
      · rw [has]
        exact ⟨fun either => either.resolve_right fun is => here is.1.symm, .inl⟩
    · obtain ⟨report, stored, similar, detail, found, link, rfl⟩ := mem_newAssociations.mp mem
      by_cases here : report = prime
      · subst here
        obtain ⟨counts, type⟩ := @newAssociation_of_prime _ _ stored.cache id report similar detail
        have not : (newAssociation (some report) stored.cache (.found id report similar detail)).type ≠
            .automatic := by
          rw [type]
          cases similar <;> simp
        rw [if_neg fun is => not is.2.2, Right.of_not_automatic not, counts, type]
        cases similar <;> simp
      · obtain ⟨type, counts⟩ := @newAssociation_of_not_prime _ _ (some prime) stored.cache
          (.found id report similar detail) (fun is => here (some.inj is).symm)
        rw [if_neg fun is => here (by simpa using is.1), Right, type, counts, counted.eq_zero_iff flags found,
          newAssociation_report, has]
        have other : ¬ (prime = report ∧ Similar K t mark report) := fun is => here is.1.symm
        simp [other]

end Create

/-! ## A new threshold -/

section Rescale

variable {K : Kind M R D V} {t : Tables M R D V} {id : Nat} {mark : M}

/-- An association of a mark with a new threshold. -/
def rescaled (K : Kind M R D V) (id : Nat) (mark : M) (row : Association D) : Association D :=
  let row := if row.mark = id ∧ ¬ K.reaches mark row.detail ∧ row.type ≠ .dissimilar then row.lose else row
  if row.mark = id ∧ K.reaches mark row.detail ∧ row.type = .dissimilar then row.regain else row

theorem rescaled_other {row : Association D} (other : row.mark ≠ id) : rescaled K id mark row = row := by
  simp [rescaled, other]

theorem rescaled_spec (row : Association D) : (rescaled K id mark row).report = row.report ∧
      ((rescaled K id mark row).type = .confirmed → rescaled K id mark row = row) ∧
      ((rescaled K id mark row).associated = true →
        row.associated = true ∧ (rescaled K id mark row).type = row.type) := by
  by_cases loses : row.mark = id ∧ ¬ K.reaches mark row.detail ∧ row.type ≠ .dissimilar
  · have is : rescaled K id mark row = row.lose := by
      simp [rescaled, loses, lose]
    rw [is]
    exact ⟨rfl, fun type => AssociationType.noConfusion type, fun counts => Bool.noConfusion counts⟩
  · by_cases regains : row.mark = id ∧ K.reaches mark row.detail ∧ row.type = .dissimilar
    · have is : rescaled K id mark row = row.regain := by
        simp [rescaled, regains]
      rw [is]
      refine ⟨rfl, fun type => AssociationType.noConfusion type, fun counts => ?_⟩
      -- a dissimilar association does not count
      obtain type | type := row.counts counts <;> rw [regains.2.2] at type <;> cases type
    · have is : rescaled K id mark row = row := by
        simp only [rescaled, if_neg loses, if_neg regains]
      rw [is]
      exact ⟨rfl, fun _ => rfl, fun counts => ⟨counts, rfl⟩⟩

/-- The associations with a new threshold: nothing has changed, or automatic associations are counted again for the
reports of the mark that have no confirmed ones. -/
theorem updateAssociated_eq : t.updateAssociated K id mark = t.associations ∨
    t.updateAssociated K id mark = (t.associations.map (rescaled K id mark)).map fun row =>
      if row.report ∈ t.linked id ∧ ¬ HasConfirmed (t.associations.map (rescaled K id mark)) row.report ∧
        row.associated = false then row.enable else row := by
  have both : (t.associations.map fun row => if decide (row.mark = id ∧ ¬ K.reaches mark row.detail ∧
      row.type ≠ .dissimilar) = true then row.lose else row).map (fun row => if decide (row.mark = id ∧
        K.reaches mark row.detail ∧ row.type = .dissimilar) = true then row.regain else row) =
      t.associations.map (rescaled K id mark) := by
    rw [List.map_map]
    refine map_congr_left fun row _ => ?_
    simp [rescaled]
  simp only [updateAssociated]
  split
  next same =>
    left
    rw [Bool.and_eq_true, Bool.not_eq_true', Bool.not_eq_true', List.any_eq_false, List.any_eq_false] at same
    obtain ⟨loses, regains⟩ := same
    rw [(map_congr_left fun row mem => if_neg (loses row mem)).trans (List.map_id' _)] at regains ⊢
    exact (map_congr_left fun row mem => if_neg (regains row mem)).trans (List.map_id' _)
  next =>
    right
    rw [both]

end Rescale

theorem flags_updateAssociated (flags : Flags t.associations) : Flags (t.updateAssociated K id mark) := by
  obtain is | is := @updateAssociated_eq _ _ _ _ K t id mark
  · rwa [is]
  rw [is, flags_iff]
  set rows := t.associations.map (rescaled K id mark)
  refine List.forall_mem_map.mpr fun _ was => ?_
  obtain ⟨row, old, rfl⟩ := List.mem_map.mp was
  obtain ⟨report, confirmed, counts⟩ := @rescaled_spec _ _ _ _ K id mark row
  have same (other : Nat) : HasConfirmed (rows.map fun row => if row.report ∈ t.linked id ∧
      ¬ HasConfirmed rows row.report ∧ row.associated = false then row.enable else row) other ↔
      HasConfirmed rows other := hasConfirmed_map fun row _ => by split <;> simp
  -- no association becomes confirmed
  have fewer {other : Nat} (has : HasConfirmed rows other) : HasConfirmed t.associations other := by
    obtain ⟨_, mem, here, type⟩ := has
    obtain ⟨row, old, rfl⟩ := List.mem_map.mp mem
    rw [(rescaled_spec row).2.1 type] at here type
    exact ⟨row, old, here, type⟩
  by_cases linked : row.report ∈ t.linked id
  · rw [report]
    cases type : (rescaled K id mark row).type with
    | confirmed =>
      have kept := confirmed type
      rw [kept] at type ⊢
      have counts := flags.confirmed row old type
      rw [if_neg fun is => by simp [counts] at is, Right]
      simp [counts, type]
    | automatic =>
      have right (has : (rescaled K id mark row).associated = true) : ¬ HasConfirmed rows row.report := by
        obtain ⟨before, kept⟩ := counts has
        exact fun some => (flags.automatic row old (kept ▸ type)).mp before (fewer some)
      by_cases has : (rescaled K id mark row).associated = true
      · rw [if_neg fun is => by simp [has] at is, Right, same, report]
        simp [has, type, right has]
      · by_cases some : HasConfirmed rows row.report
        · rw [if_neg fun is => is.2.1 some, Right, same, report]
          simp [has, type, some]
        · rw [if_pos ⟨linked, some, Bool.not_eq_true _ ▸ has⟩, Right, enable_report, same, report]
          simp [type, some]
    | dissimilar | unconfirmed =>
      have idle : (rescaled K id mark row).associated = false := by
        by_contra has
        have := (rescaled K id mark row).counts (Bool.not_eq_false _ ▸ has)
        simp [type] at this
      split <;> simp [Right, type, idle]
  · have other : row.mark ≠ id := fun is => linked (mem_linked.mpr ⟨row, old, is, rfl⟩)
    rw [rescaled_other other, if_neg fun is => linked is.1]
    refine (Right.congr ?_).mpr (flags_iff.mp flags row old)
    rw [same]
    refine ⟨fewer, ?_⟩
    rintro ⟨row', mem', here, type⟩
    have other' : row'.mark ≠ id := fun is => linked (mem_linked.mpr ⟨row', mem', is, here⟩)
    have kept := @rescaled_other _ _ _ _ K _ mark _ other'
    exact ⟨_, List.mem_map_of_mem mem', by rw [kept]; exact here, by rw [kept]; exact type⟩

/-! ## A deleted mark -/

/-- The associations after a mark is deleted. -/
abbrev Tables.withoutMark (t : Tables M R D V) (id : Nat) : List (Association D) :=
  (t.clearOldAssociations id).map fun row =>
    if row.report ∈ t.linked id ∧ ¬ (∃ other ∈ t.clearOldAssociations id, other.report = row.report ∧
      other.associated = true) then row.enable else row

theorem flags_remove (flags : Flags t.associations) : Flags (t.withoutMark id) := by
  rw [flags_iff]
  refine List.forall_mem_map.mpr fun row was => ?_
  have old := mem_of_mem_filter was
  have same (report : Nat) : HasConfirmed (t.withoutMark id) report ↔ HasConfirmed (t.clearOldAssociations id) report :=
    hasConfirmed_map fun row _ => by split <;> simp
  have right := flags_iff.mp flags row old
  -- the automatic associations of a report that has lost all its confirmed ones are counted again
  by_cases lost : HasConfirmed t.associations row.report ∧ ¬ HasConfirmed (t.clearOldAssociations id) row.report
  · obtain ⟨⟨other, mem', here, type⟩, none⟩ := lost
    have linked : row.report ∈ t.linked id := by
      refine mem_linked.mpr ⟨other, mem', ?_, here⟩
      by_contra differs
      exact none ⟨other, mem_filter.mpr ⟨mem', decide_eq_true differs⟩, here, type⟩
    have nothing : ¬ ∃ other ∈ t.clearOldAssociations id, other.report = row.report ∧ other.associated = true := by
      rintro ⟨left, mem'', here', counts⟩
      have before := mem_of_mem_filter mem''
      obtain type' | type' := left.counts counts
      · exact (flags.automatic left before type').mp counts ⟨other, mem', here.trans here'.symm, type⟩
      · exact none ⟨left, mem'', here', type'⟩
    rw [if_pos ⟨linked, nothing⟩, Right, enable_report, same, enable_type, enable_associated]
    have idle : row.type ≠ .confirmed := fun type => none ⟨row, was, rfl, type⟩
    have no : ¬ row.associated = true := fun counts => nothing ⟨row, was, rfl, counts⟩
    simp [idle, no, none]
  · have kept : HasConfirmed (t.clearOldAssociations id) row.report ↔ HasConfirmed t.associations row.report :=
      ⟨hasConfirmed_clear, fun has => by_contra fun none => lost ⟨has, none⟩⟩
    rw [← Right.congr kept] at right
    split
    next is =>
      -- nothing counts, so there is no confirmed association and no automatic one
      have no : ¬ row.associated = true := fun counts => is.2 ⟨row, was, rfl, counts⟩
      have plain : row.type ≠ .automatic := by
        intro type
        have has : HasConfirmed (t.clearOldAssociations id) row.report :=
          by_contra fun none => no (right.mpr (.inr ⟨type, none⟩))
        obtain ⟨other, mem', here, confirmed⟩ := has
        exact is.2 ⟨other, mem', here, flags.confirmed other (mem_of_mem_filter mem') confirmed⟩
      have unchanged : row.enable = row := dif_neg plain
      rw [unchanged]
      exact (Right.congr (same _)).mpr right
    next => exact (Right.congr (same _)).mpr right

/-! ## Decisions of experts -/

theorem hasConfirmed_cons :
    HasConfirmed (row :: rows) report ↔ row.report = report ∧ row.type = .confirmed ∨ HasConfirmed rows report := by
  simp [HasConfirmed]

/-- The associations after one is confirmed. -/
abbrev withConfirmed (front : List (Association D)) (row : Association D) (back : List (Association D)) :
    List (Association D) :=
  (front ++ row.confirm :: back).map fun other =>
    if other.report = row.report ∧ other.associated ∧ other.type = .automatic then other.disable else other

variable {front back : List (Association D)}

theorem flags_confirm (flags : Flags (front ++ row :: back)) (new : row.type ≠ .confirmed) :
    Flags (withConfirmed front row back) := by
  rw [flags_iff] at flags ⊢
  have same (report : Nat) : HasConfirmed (withConfirmed front row back) report ↔
      row.report = report ∨ HasConfirmed (front ++ row :: back) report := by
    rw [hasConfirmed_map fun row _ => by split <;> simp, hasConfirmed_append, hasConfirmed_append, hasConfirmed_cons,
      hasConfirmed_cons]
    tauto
  refine List.forall_mem_map.mpr fun other was => ?_
  by_cases is : other = row.confirm
  · rw [is, if_neg fun disabled => AssociationType.noConfusion disabled.2.2]
    exact ⟨fun _ => .inl rfl, fun _ => rfl⟩
  have old : other ∈ front ++ row :: back := by
    simp only [mem_append, mem_cons, is, false_or] at was ⊢
    exact was.imp_right .inr
  refine (flags other old).disabled (fun _ _ => (same _).mpr (.inl rfl)) fun here => ?_
  rw [same]
  exact ⟨fun either => either.resolve_left fun is => here is.symm, .inr⟩

/-- The associations after one is rejected. -/
abbrev withRejected (front : List (Association D)) (row : Association D) (back : List (Association D)) :
    List (Association D) :=
  if row.type = .confirmed ∧ ¬ HasConfirmed (front ++ row.reject :: back) row.report then
    (front ++ row.reject :: back).map fun other => if other.report = row.report then other.enable else other
  else front ++ row.reject :: back

theorem flags_unconfirm (flags : Flags (front ++ row :: back)) : Flags (withRejected front row back) := by
  rw [flags_iff] at flags
  have rejected (rows : List (Association D)) : Right rows row.reject := by simp [Right, reject]
  have among {other : Association D} (mem : other ∈ front ++ row.reject :: back) (not : other ≠ row.reject) :
      other ∈ front ++ row :: back := by
    simp only [mem_append, mem_cons, not, false_or] at mem ⊢
    exact mem.imp_right .inr
  have has (report : Nat) : HasConfirmed (front ++ row :: back) report ↔
      row.report = report ∧ row.type = .confirmed ∨ HasConfirmed (front ++ row.reject :: back) report := by
    rw [hasConfirmed_append, hasConfirmed_append, hasConfirmed_cons, hasConfirmed_cons]
    tauto
  unfold withRejected
  split
  next lost =>
    rw [flags_iff]
    have same (report : Nat) : HasConfirmed ((front ++ row.reject :: back).map fun other =>
        if other.report = row.report then other.enable else other) report ↔
        HasConfirmed (front ++ row.reject :: back) report := hasConfirmed_map fun row _ => by split <;> simp
    refine List.forall_mem_map.mpr fun other was => ?_
    by_cases is : other = row.reject
    · have unchanged : row.reject.enable = row.reject := dif_neg fun type => AssociationType.noConfusion type
      rw [is, unchanged, ite_self]
      exact rejected _
    have right := flags other (among was is)
    by_cases here : other.report = row.report
    · rw [if_pos here, Right, enable_report, same, here, enable_type, enable_associated]
      rw [Right, here] at right
      have none : other.type ≠ .confirmed := fun type => lost.2 ⟨other, was, here, type⟩
      have before : HasConfirmed (front ++ row :: back) row.report := (has _).mpr (.inl ⟨rfl, lost.1⟩)
      have idle : ¬ other.associated = true := by simpa [none, before] using right
      simp [none, idle, lost.2]
    · rw [if_neg here]
      refine (Right.congr ?_).mpr right
      rw [same, has]
      exact ⟨.inr, fun either => either.resolve_left fun is => here is.1.symm⟩
  next kept =>
    rw [flags_iff]
    intro other mem
    by_cases is : other = row.reject
    · rw [is]
      exact rejected _
    refine (Right.congr ?_).mpr (flags other (among mem is))
    rw [has]
    refine ⟨.inr, fun either => either.elim (fun is => ?_) id⟩
    by_contra none
    exact kept ⟨is.2, is.1 ▸ none⟩

/-! ## A new report -/

variable {news : List (Association D)}

theorem flags_append_found (flags : Flags rows) (fresh : ∀ row ∈ rows, row.report ≠ report)
    (found : ∀ row ∈ news, ∃ mark similar detail, row = .found mark report similar detail) : Flags (rows ++ news) := by
  have has (other : Nat) : HasConfirmed (rows ++ news) other ↔ HasConfirmed rows other := by
    rw [hasConfirmed_append]
    refine ⟨fun either => either.resolve_right ?_, .inl⟩
    rintro ⟨row, mem, -, type⟩
    obtain ⟨mark, similar, detail, rfl⟩ := found row mem
    exact found_confirmed _ _ _ _ type
  rw [flags_iff]
  intro row mem
  rw [Right.congr (has _)]
  obtain mem | mem := mem_append.mp mem
  · exact flags_iff.mp flags row mem
  · obtain ⟨mark, similar, detail, rfl⟩ := found row mem
    have none : ¬ HasConfirmed rows report := fun ⟨row, mem, here, _⟩ => fresh row mem here
    rw [Right]
    simp [none]

/-! ## Associations of other reports -/

variable {rows : List (Association D)}

theorem filter_report_map
    (keeps : ∀ row ∈ rows, (f row).report = row.report) (same : ∀ row ∈ rows, row.report = report → f row = row) :
    (rows.map f).filter (·.report = report) = rows.filter (·.report = report) := by
  have here : rows.filter ((fun row => decide (row.report = report)) ∘ f) = rows.filter (·.report = report) :=
    filter_congr fun row mem => by simp [keeps row mem]
  rw [List.filter_map, here]
  refine (map_congr_left fun row mem => ?_).trans (List.map_id' _)
  exact same row (mem_of_mem_filter mem) (of_decide_eq_true (mem_filter.mp mem).2)

theorem filter_clear (other : report ∉ t.linked id) :
    (t.clearOldAssociations id).filter (·.report = report) = t.associations.filter (·.report = report) := by
  rw [clearOldAssociations, List.filter_filter]
  refine filter_congr fun row mem => ?_
  rw [Bool.eq_iff_iff]
  simp only [Bool.and_eq_true, decide_eq_true_eq]
  exact ⟨And.left, fun here => ⟨here, fun is => other (mem_linked.mpr ⟨row, mem, is, here⟩)⟩⟩

theorem filter_append_other (other : ∀ row ∈ news, row.report ≠ report) :
    (rows ++ news).filter (·.report = report) = rows.filter (·.report = report) := by
  have none : news.filter (·.report = report) = [] :=
    filter_eq_nil_iff.mpr fun row mem => by simpa using other row mem
  rw [filter_append, none, append_nil]

/-- A mark that is connected to other reports leaves the associations of a report. -/
theorem filter_clear_append (other : report ∉ t.linked id ++ (t.newAssociations K id mark prime).map (·.report)) :
    (t.clearOldAssociations id ++ t.newAssociations K id mark prime).filter (·.report = report) =
      t.associations.filter (·.report = report) := by
  rw [mem_append, not_or] at other
  rw [filter_append_other, filter_clear other.1]
  exact fun row mem here => other.2 (List.mem_map.mpr ⟨row, mem, here⟩)

theorem filter_connect_none (other : report ∉ t.linked id ++ (t.newAssociations K id mark none).map (·.report)) :
    (t.connect K id mark none).filter (·.report = report) = t.associations.filter (·.report = report) :=
  filter_clear_append other

theorem filter_updateAssociated (other : report ∉ t.linked id) :
    (t.updateAssociated K id mark).filter (·.report = report) = t.associations.filter (·.report = report) := by
  obtain is | is := @updateAssociated_eq _ _ _ _ K t id mark
  · rw [is]
  rw [is, filter_report_map, filter_report_map]
  · exact fun row _ => (rescaled_spec row).1
  · exact fun row mem here => rescaled_other fun is => other (mem_linked.mpr ⟨row, mem, is, here⟩)
  · intro row _
    split <;> simp
  · intro row _ here
    exact if_neg fun is => other (here ▸ is.1)

theorem filter_remove (other : report ∉ t.linked id) :
    (t.withoutMark id).filter (·.report = report) = t.associations.filter (·.report = report) := by
  refine (filter_report_map (fun row _ => ?_) fun row _ here => ?_).trans (filter_clear other)
  · split <;> simp
  · exact if_neg fun is => other (here ▸ is.1)

/-- One row is replaced, and others of the same report may be changed, too. -/
theorem filter_replaced {new : Association D} (is : new.report = row.report)
    (other : report ≠ row.report) : (front ++ new :: back).filter (·.report = report) =
      (front ++ row :: back).filter (·.report = report) := by
  simp [is, Ne.symm other]

theorem filter_confirm (other : report ≠ row.report) :
    (withConfirmed front row back).filter (·.report = report) = (front ++ row :: back).filter (·.report = report) := by
  refine (filter_report_map (fun row _ => ?_) fun row _ here => ?_).trans (filter_replaced rfl other)
  · split <;> rfl
  · exact if_neg fun is => other (here ▸ is.1)

theorem filter_unconfirm (other : report ≠ row.report) :
    (withRejected front row back).filter (·.report = report) = (front ++ row :: back).filter (·.report = report) := by
  unfold withRejected
  split
  · refine (filter_report_map (fun row _ => ?_) fun row _ here => ?_).trans (filter_replaced rfl other)
    · split <;> simp
    · exact if_neg fun is => other (here ▸ is)
  · exact filter_replaced rfl other

/-! ## The caches know confirmed associations -/

theorem get?_saveCaches (t : Tables M R D V) (reports : List Nat) (cache : Nat → Cache V → Cache V) (report : Nat) :
    (t.saveCaches reports cache).reports.get? report = (t.reports.get? report).map fun stored =>
      if report ∈ reports then { stored with cache := cache report stored.cache } else stored :=
  Dict.get?_mapVals ..

/-- Rows that are not confirmed are not counted. -/
theorem confirmedNumber_append (none : ∀ row ∈ news, row.report = report → row.type ≠ .confirmed) :
    confirmedNumber (rows ++ news) report = confirmedNumber rows report := by
  rw [confirmedNumber, confirmedNumber, countP_append, Nat.add_eq_left, countP_eq_zero]
  intro row mem is
  have is := of_decide_eq_true is
  exact none row mem is.1 is.2.2

/-- Only the associations of the report are counted. -/
theorem confirmedNumber_congr (same : rows'.filter (·.report = report) = rows.filter (·.report = report)) :
    confirmedNumber rows' report = confirmedNumber rows report := by
  have own (rows : List (Association D)) : confirmedNumber rows report =
      (rows.filter (·.report = report)).countP fun row => row.associated ∧ row.type = .confirmed := by
    rw [countP_filter, confirmedNumber]
    exact countP_congr fun row _ => by simp [and_comm]
  rw [own, own, same]

theorem recalculated_marksConfirmed {reports : List Nat} (mem : report ∈ reports) :
    (t.recalculated K reports report).marksConfirmed = confirmedNumber t.associations report := by
  simp only [recalculated, countP_filter, confirmedNumber]
  refine countP_congr fun row _ => ?_
  simp only [Bool.and_eq_true, decide_eq_true_eq]
  constructor
  · rintro ⟨⟨⟨here, type⟩, counts⟩, -⟩
    exact ⟨here, counts, type⟩
  · rintro ⟨here, counts, type⟩
    exact ⟨⟨⟨here, type⟩, counts⟩, .inr type, here ▸ mem⟩

variable {affected : List Nat}

theorem updated_marksConfirmed (mem : report ∈ affected) :
    (t.updated K affected report).marksConfirmed = confirmedNumber t.associations report := by
  simp only [updated, countP_filter, confirmedNumber]
  refine countP_congr fun row _ => ?_
  simp only [Bool.and_eq_true, decide_eq_true_eq]
  constructor
  · rintro ⟨⟨here, type⟩, -, counts⟩
    exact ⟨here, counts, type⟩
  · rintro ⟨here, counts, type⟩
    exact ⟨⟨here, type⟩, here ▸ mem, counts⟩

/-- Caches are saved for some reports, and nothing changes for the others. -/
theorem Tables.Counted.save {t' : Tables M R D V} (counted : t.Counted) {cache : Nat → Cache V → Cache V}
    (new : ∀ report ∈ affected, ∀ stored, t'.reports.get? report = some stored →
      (cache report stored.cache).marksConfirmed = confirmedNumber t'.associations report)
    (others : ∀ report ∉ affected, t'.reports.get? report = t.reports.get? report ∧
      confirmedNumber t'.associations report = confirmedNumber t.associations report) :
    (t'.saveCaches affected cache).Counted := by
  intro report stored found
  rw [get?_saveCaches] at found
  obtain ⟨before, was, rfl⟩ := map_eq_some_iff.mp found
  by_cases mem : report ∈ affected
  · rw [if_pos mem]
    exact new report mem before was
  · obtain ⟨same, number⟩ := others report mem
    rw [if_neg mem]
    exact (counted report before (same ▸ was)).trans number.symm

/-! ## What an operation does -/

variable {place : Nat} {t' : Tables M R D V}

/-- A mark is put into the table and connected to reports. -/
abbrev Tables.connected (K : Kind M R D V) (t : Tables M R D V) (id : Nat) (mark : M) (prime : Option Nat) :
    Tables M R D V :=
  { t with marks := t.marks.set id mark, associations := t.connect K id mark prime }

theorem create_cases {form : M} {prime : Nat} (done : t.create K id form prime = some t') :
    t.FreshMark id ∧ ∃ stored mark, t.reports.get? prime = some stored ∧ K.prepare form stored.report = some mark ∧
      t' = updateAll K
        (t.connected K id mark (some prime))
        (t.linked id ++ (t.newAssociations K id mark (some prime)).map (·.report)) := by
  unfold create at done
  split at done
  next fresh =>
    obtain ⟨stored, found, done⟩ := bind_eq_some_iff.mp done
    obtain ⟨mark, prepared, done⟩ := bind_eq_some_iff.mp done
    exact ⟨fresh, stored, mark, found, prepared, (some.inj done).symm⟩
  next => cases done

theorem populate_cases (done : t.populate K id mark = some t') : t.FreshMark id ∧ t' = updateOnPopulate K
      (t.connected K id mark none) mark
      (t.newAssociations K id mark none) := by
  unfold populate at done
  split at done
  next fresh => exact ⟨fresh, (some.inj done).symm⟩
  next => cases done

theorem update_cases (done : t.update K id mark = some t') : ∃ old, t.marks.get? id = some old ∧
      (K.reconnects old mark = true ∧ t' = updateAll K
          (t.connected K id mark none)
          (t.linked id ++ (t.newAssociations K id mark none).map (·.report)) ∨
        K.reconnects old mark = false ∧ K.rescales old mark = true ∧ t' = updateAll K
          { t with marks := t.marks.set id mark, associations := t.updateAssociated K id mark } (t.linked id) ∨
        K.reconnects old mark = false ∧ K.rescales old mark = false ∧
          t' = updateFields K { t with marks := t.marks.set id mark } (t.linked id) old mark) := by
  obtain ⟨old, found, done⟩ := bind_eq_some_iff.mp done
  refine ⟨old, found, ?_⟩
  split at done
  next reconnects => exact .inl ⟨reconnects, (some.inj done).symm⟩
  next keeps =>
    split at done
    next rescales => exact .inr (.inl ⟨Bool.not_eq_true _ ▸ keeps, rescales, (some.inj done).symm⟩)
    next same =>
      exact .inr (.inr ⟨Bool.not_eq_true _ ▸ keeps, Bool.not_eq_true _ ▸ same, (some.inj done).symm⟩)

theorem remove_cases (done : t.remove K id = some t') : (∃ mark, t.marks.get? id = some mark) ∧
      t' = recalculate K { t with marks := t.marks.erase id, associations := t.withoutMark id } (t.linked id) := by
  obtain ⟨mark, found, done⟩ := bind_eq_some_iff.mp done
  exact ⟨⟨mark, found⟩, (some.inj done).symm⟩

/-- Nothing changes, or a row becomes confirmed. -/
theorem confirm_cases (done : t.confirm K place = some t') :
    t' = t ∨ ∃ front row back, t.associations = front ++ row :: back ∧ row.type ≠ .dissimilar ∧ row.type ≠ .confirmed ∧
      t' = recalculate K { t with associations := withConfirmed front row back } [row.report] := by
  obtain ⟨row, found, done⟩ := bind_eq_some_iff.mp done
  split at done
  next => cases done
  next similar =>
    split at done
    next => exact .inl (some.inj done).symm
    next new =>
      obtain ⟨lt, rfl⟩ := List.getElem?_eq_some_iff.mp found
      obtain ⟨front, back, rows, -, set⟩ := @List.exists_of_set _ place t.associations[place].confirm _ lt
      rw [set] at done
      exact .inr ⟨front, _, back, rows, similar, new, (some.inj done).symm⟩

/-- Nothing changes, or a row becomes unconfirmed. -/
theorem unconfirm_cases (done : t.unconfirm K place = some t') :
    t' = t ∨ ∃ front row back, t.associations = front ++ row :: back ∧ row.type ≠ .dissimilar ∧
      row.type ≠ .unconfirmed ∧
      t' = recalculate K { t with associations := withRejected front row back } [row.report] := by
  obtain ⟨row, found, done⟩ := bind_eq_some_iff.mp done
  split at done
  next => cases done
  next similar =>
    split at done
    next => exact .inl (some.inj done).symm
    next new =>
      obtain ⟨lt, rfl⟩ := List.getElem?_eq_some_iff.mp found
      obtain ⟨front, back, rows, -, set⟩ := @List.exists_of_set _ place t.associations[place].reject _ lt
      rw [set] at done
      exact .inr ⟨front, _, back, rows, similar, new, (some.inj done).symm⟩

theorem upload_cases {report : R} (done : t.upload K id report = some t') :
    t.FreshReport id ∧ ∃ news, (∀ row ∈ news, ∃ mark similar detail, row = .found mark id similar detail) ∧
      t' = recalculate K
        { t with
          reports := t.reports.set id ⟨report, ⟨0, 0, 0, K.initial⟩⟩
          associations := t.associations ++ news } [id] := by
  unfold upload at done
  split at done
  next fresh =>
    refine ⟨fresh, _, fun row mem => ?_, (some.inj done).symm⟩
    obtain ⟨⟨mark, data⟩, -, is⟩ := mem_filterMap.mp mem
    obtain ⟨⟨similar, detail⟩, -, rfl⟩ := map_eq_some_iff.mp is
    exact ⟨mark, similar, detail, rfl⟩
  next => cases done

/-! ## Operations keep the caches -/

theorem counted_updateAll (counted : t.Counted) {marks : Dict Nat M}
    (others : ∀ report ∉ affected, confirmedNumber rows report = confirmedNumber t.associations report) :
    (updateAll K { t with marks, associations := rows } affected).Counted :=
  counted.save (fun _ mem _ _ => updated_marksConfirmed mem) fun report other => ⟨rfl, others report other⟩

theorem counted_recalculate (counted : t.Counted) {marks : Dict Nat M} {reports : List Nat}
    (others : ∀ report ∉ reports, confirmedNumber rows report = confirmedNumber t.associations report) :
    (recalculate K { t with marks, associations := rows } reports).Counted :=
  counted.save (fun _ mem _ _ => recalculated_marksConfirmed mem) fun report other => ⟨rfl, others report other⟩

theorem confirmedNumber_connect (other : report ∉ t.linked id ++ (t.newAssociations K id mark prime).map (·.report)) :
    confirmedNumber (t.connect K id mark prime) report = confirmedNumber t.associations report := by
  cases prime with
  | none => exact confirmedNumber_congr (filter_connect_none other)
  | some prime =>
    refine Eq.trans ?_ (confirmedNumber_congr (filter_clear_append other))
    -- only automatic associations are disabled
    rw [connect, confirmedNumber, countP_map]
    refine countP_congr fun row _ => ?_
    simp only [Function.comp_apply, decide_eq_true_eq]
    split
    next is => simp [is]
    next => rfl

theorem populate_counted (counted : t.Counted) (done : t.populate K id mark = some t') : t'.Counted := by
  obtain ⟨fresh, rfl⟩ := populate_cases done
  intro report stored found
  obtain ⟨before, was, rfl⟩ := map_eq_some_iff.mp ((Dict.get?_mapVals ..).symm.trans found)
  have number : confirmedNumber (t.connect K id mark none) report = confirmedNumber t.associations report := by
    rw [connect, confirmedNumber_append, clear_of_fresh fresh]
    exact fun row mem here type => by simpa using hasConfirmed_new.mp ⟨row, mem, here, type⟩
  show _ = confirmedNumber (t.connect K id mark none) report
  rw [number, ← counted report before was]
  split
  · rfl
  · dsimp only
    split <;> rfl

theorem update_counted (counted : t.Counted) (done : t.update K id mark = some t') : t'.Counted := by
  obtain ⟨old, -, ⟨-, rfl⟩ | ⟨-, -, rfl⟩ | ⟨-, -, rfl⟩⟩ := update_cases done
  · exact counted_updateAll counted fun _ => confirmedNumber_connect
  · exact counted_updateAll counted fun _ other => confirmedNumber_congr (filter_updateAssociated other)
  · exact counted.save (fun report _ stored found => counted report stored found) fun _ _ => ⟨rfl, rfl⟩

theorem confirm_counted (counted : t.Counted) (done : t.confirm K place = some t') : t'.Counted := by
  obtain rfl | ⟨front, row, back, rows, -, -, rfl⟩ := confirm_cases done
  · exact counted
  exact counted_recalculate counted fun report other =>
    confirmedNumber_congr (rows ▸ filter_confirm (ne_of_not_mem_cons other))

theorem unconfirm_counted (counted : t.Counted) (done : t.unconfirm K place = some t') : t'.Counted := by
  obtain rfl | ⟨front, row, back, rows, -, -, rfl⟩ := unconfirm_cases done
  · exact counted
  exact counted_recalculate counted fun report other =>
    confirmedNumber_congr (rows ▸ filter_unconfirm (ne_of_not_mem_cons other))

theorem upload_counted {report : R} (counted : t.Counted) (done : t.upload K id report = some t') : t'.Counted := by
  obtain ⟨-, news, found, rfl⟩ := upload_cases done
  refine counted.save (fun _ mem _ _ => recalculated_marksConfirmed mem) fun other differs => ?_
  rw [mem_singleton] at differs
  refine ⟨Dict.get?_set_of_ne _ _ differs, confirmedNumber_append ?_⟩
  intro row mem _ type
  obtain ⟨mark, similar, detail, rfl⟩ := found row mem
  exact found_confirmed _ _ _ _ type

/-- The caches know the numbers of confirmed associations after each operation. -/
theorem perform_counted {op : Operation M R} (counted : t.Counted) (done : t.perform K op = some t') : t'.Counted := by
  cases op with
  | create id form prime =>
    obtain ⟨-, stored, mark, -, -, rfl⟩ := create_cases done
    exact counted_updateAll counted fun _ => confirmedNumber_connect
  | populate => exact populate_counted counted done
  | update => exact update_counted counted done
  | remove id =>
    obtain ⟨-, rfl⟩ := remove_cases done
    exact counted_recalculate counted fun report other => confirmedNumber_congr (filter_remove other)
  | confirm => exact confirm_counted counted done
  | unconfirm => exact unconfirm_counted counted done
  | upload => exact upload_counted counted done

/-! ## Operations keep the flags -/

/-- The operations that keep the flags right: all but new marks that do not match their report, and changed marks
that have confirmed a report alone. -/
def Harmless (K : Kind M R D V) (t : Tables M R D V) : Operation M R → Prop
  | .create _ form prime => ∀ stored mark, t.reports.get? prime = some stored →
    K.prepare form stored.report = some mark → Creatable K t mark prime
  | .update id mark => ∀ old, t.marks.get? id = some old → K.reconnects old mark = true → Reconnectable K t id mark
  | _ => True

theorem perform_flags {op : Operation M R} (counted : t.Counted) (flags : Flags t.associations)
    (done : t.perform K op = some t') : Flags t'.associations ↔ Harmless K t op := by
  cases op with
  | create id form prime =>
    obtain ⟨fresh, stored, mark, found, prepared, rfl⟩ := create_cases done
    refine (flags_connect_some fresh flags counted).trans ⟨fun ok stored' mark' found' prepared' => ?_, fun ok => ?_⟩
    · rw [found] at found'
      cases found'
      rw [prepared] at prepared'
      cases prepared'
      exact ok
    · exact ok stored mark found prepared
  | populate id mark =>
    obtain ⟨fresh, rfl⟩ := populate_cases done
    exact (flags_connect_none flags counted).trans (iff_true_intro (reconnectable_of_fresh fresh))
  | update id mark =>
    obtain ⟨old, found, cases⟩ := update_cases done
    have harmless : Harmless K t (.update id mark) ↔ (K.reconnects old mark = true → Reconnectable K t id mark) := by
      refine ⟨fun all => all old found, fun ok old' found' => ?_⟩
      rw [found] at found'
      cases found'
      exact ok
    rw [harmless]
    obtain ⟨reconnects, rfl⟩ | ⟨keeps, -, rfl⟩ | ⟨keeps, -, rfl⟩ := cases
    · exact (flags_connect_none flags counted).trans ⟨fun ok _ => ok, fun ok => ok reconnects⟩
    · refine iff_of_true (flags_updateAssociated flags) fun reconnects => ?_
      rw [keeps] at reconnects
      cases reconnects
    · refine iff_of_true flags fun reconnects => ?_
      rw [keeps] at reconnects
      cases reconnects
  | remove id =>
    obtain ⟨-, rfl⟩ := remove_cases done
    exact iff_true_intro (flags_remove flags)
  | confirm place =>
    refine iff_true_intro ?_
    obtain rfl | ⟨front, row, back, rows, -, new, rfl⟩ := confirm_cases done
    · exact flags
    · exact flags_confirm (rows ▸ flags) new
  | unconfirm place =>
    refine iff_true_intro ?_
    obtain rfl | ⟨front, row, back, rows, -, -, rfl⟩ := unconfirm_cases done
    · exact flags
    · exact flags_unconfirm (rows ▸ flags)
  | upload id report =>
    obtain ⟨fresh, news, found, rfl⟩ := upload_cases done
    exact iff_true_intro (flags_append_found flags fresh.2 found)

/-! ## Runs -/

variable {search : String → String → Bool} {matchDescRegexp : String → String → String → Option String}

/-- The flags of all associations are right. -/
structure Database.Flags (db : Database) : Prop where
  safes : Marks.Flags db.safes.associations
  unsafes : Marks.Flags db.unsafes.associations
  unknowns : Marks.Flags db.unknowns.associations

structure Database.Counted (db : Database) : Prop where
  safes : db.safes.Counted
  unsafes : db.unsafes.Counted
  unknowns : db.unknowns.Counted

/-- The requests that keep the flags right. -/
def Database.Harmless (search : String → String → Bool)
    (matchDescRegexp : String → String → String → Option String) (db : Database) : Request → Prop
  | .safeReport op => Marks.Harmless Marks.safes db.safes op
  | .unsafeReport op => Marks.Harmless (Marks.unsafes search) db.unsafes op
  | .unknownReport op => Marks.Harmless (Marks.unknowns matchDescRegexp) db.unknowns op

theorem Database.perform_counted {db db' : Database} {request : Request} (counted : db.Counted)
    (done : db.perform search matchDescRegexp request = some db') : db'.Counted := by
  cases request with
  | safeReport op =>
    obtain ⟨tables, step, rfl⟩ := map_eq_some_iff.mp done
    exact { counted with safes := Marks.perform_counted counted.safes step }
  | unsafeReport op =>
    obtain ⟨tables, step, rfl⟩ := map_eq_some_iff.mp done
    exact { counted with unsafes := Marks.perform_counted counted.unsafes step }
  | unknownReport op =>
    obtain ⟨tables, step, rfl⟩ := map_eq_some_iff.mp done
    exact { counted with unknowns := Marks.perform_counted counted.unknowns step }

theorem Database.perform_flags {db db' : Database} {request : Request} (counted : db.Counted) (flags : db.Flags)
    (done : db.perform search matchDescRegexp request = some db') :
    db'.Flags ↔ db.Harmless search matchDescRegexp request := by
  cases request with
  | safeReport op =>
    obtain ⟨tables, step, rfl⟩ := map_eq_some_iff.mp done
    refine Iff.trans ?_ (Marks.perform_flags counted.safes flags.safes step)
    exact ⟨fun all => all.safes, fun safes => { flags with safes }⟩
  | unsafeReport op =>
    obtain ⟨tables, step, rfl⟩ := map_eq_some_iff.mp done
    refine Iff.trans ?_ (Marks.perform_flags counted.unsafes flags.unsafes step)
    exact ⟨fun all => all.unsafes, fun unsafes => { flags with unsafes }⟩
  | unknownReport op =>
    obtain ⟨tables, step, rfl⟩ := map_eq_some_iff.mp done
    refine Iff.trans ?_ (Marks.perform_flags counted.unknowns flags.unknowns step)
    exact ⟨fun all => all.unknowns, fun unknowns => { flags with unknowns }⟩

/-- From a database with right flags and counters on, the flags are right after each operation if and only if all
operations are harmless. -/
theorem flags_iff_harmless {db db' : Database} {requests : List Request} (flags : db.Flags) (counted : db.Counted)
    (done : db.performAll search matchDescRegexp requests = some db') :
    (∀ n after, db.performAll search matchDescRegexp (requests.take n) = some after → after.Flags) ↔
      ∀ n request before, requests[n]? = some request →
        db.performAll search matchDescRegexp (requests.take n) = some before →
        before.Harmless search matchDescRegexp request :=
  foldlM_states_iff done counted flags Database.perform_counted Database.perform_flags

/-! ## A confirmed mark that is changed -/

/-- A database without marks and reports. -/
def Database.empty : Database := ⟨⟨.empty, .empty, []⟩, ⟨.empty, .empty, []⟩, ⟨.empty, .empty, []⟩⟩

theorem Database.empty_flags : empty.Flags := by
  have none {D : Type} : Marks.Flags ([] : List (Association D)) := flags_iff.mpr fun _ mem => absurd mem not_mem_nil
  exact ⟨none, none, none⟩

theorem Database.empty_counted : empty.Counted := by
  refine ⟨?_, ?_, ?_⟩ <;> exact fun _ _ found => by cases found

/-- A safe report, a mark that matches it, and another mark that is created for it. -/
def confirmedMark : List Request :=
  [.safeReport (.upload 1 ⟨{("Requirements specification", "memory safety")}⟩),
    .safeReport (.populate 1 ⟨∅, .incorrectProof, []⟩),
    .safeReport (.create 2 ⟨∅, .uncertainty, []⟩ 1)]

theorem confirmedMark_flags : (empty.performAll (fun _ _ => false) (fun _ _ _ => none) confirmedMark).isSome ∧
      ∀ n after, empty.performAll (fun _ _ => false) (fun _ _ _ => none) (confirmedMark.take n) = some after →
        after.Flags := by
  have succeeds : (empty.performAll (fun _ _ => false) (fun _ _ _ => none) confirmedMark).isSome := by
    decide +kernel
  obtain ⟨db, done⟩ := isSome_iff_exists.mp succeeds
  refine ⟨succeeds, (flags_iff_harmless empty_flags empty_counted done).mpr ?_⟩
  intro n request before found reached
  obtain ⟨lt, rfl⟩ := List.getElem?_eq_some_iff.mp found
  have small : n < 3 := lt
  interval_cases n
  · trivial
  · trivial
  · -- a mark without attributes matches the report
    intro stored mark prime prepared row _ _ _
    cases prepared
    exact .inr ⟨stored, (), prime, by simp [safes]⟩

/-- The attributes of the second mark are changed such that it still matches. -/
def changedMark : List Request :=
  confirmedMark ++ [.safeReport (.update 2 ⟨{("Requirements specification", "memory safety")}, .uncertainty, []⟩)]

/-- No association counts then, though both are automatic. -/
theorem changedMark_flags :
    ∃ db, empty.performAll (fun _ _ => false) (fun _ _ _ => none) changedMark = some db ∧ ¬ db.Flags := by
  have succeeds : (empty.performAll (fun _ _ => false) (fun _ _ _ => none) changedMark).isSome := by
    decide +kernel
  obtain ⟨db, done⟩ := isSome_iff_exists.mp succeeds
  refine ⟨db, done, fun flags => ?_⟩
  have rows : (empty.performAll (fun _ _ => false) (fun _ _ _ => none) changedMark).map
      (fun db => (db.safes.associations.any fun row => row.type = .automatic ∧ row.associated = false,
        db.safes.associations.any fun row => row.type = .confirmed)) = some (true, false) := by decide +kernel
  rw [done, map_some, some.injEq, Prod.mk.injEq, List.any_eq_true, List.any_eq_false] at rows
  obtain ⟨⟨row, mem, is⟩, none⟩ := rows
  obtain ⟨type, idle⟩ := of_decide_eq_true is
  have counts := (flags.safes.automatic row mem type).mpr fun ⟨other, mem', _, confirmed⟩ =>
    none other mem' (decide_eq_true confirmed)
  rw [idle] at counts
  cases counts

end Klever.Bridge.Marks
