import Klever.Lib.Dict

/-!
# Merging dictionaries

A dictionary is merged into another one entry by entry, each into what is under its key so far. Since no key
occurs twice, an entry meets what was there before the merging (`get?_mergeWith`, `get?_mergeWithM`).

Dictionaries of dictionaries are looked up and changed by pairs of keys.
-/

namespace Klever.Lib.Dict

variable {κ ι α β : Type} [DecidableEq κ] [DecidableEq ι]

/-! ## Entry by entry -/

/-- Merging one entry after another, each may fail. -/
def mergeItemsM (f : Option α → β → Option α) (d : Dict κ α) (items : List (κ × β)) : Option (Dict κ α) :=
  items.foldlM (fun d (k, v) => (f (d.get? k) v).map (d.set k)) d

def mergeWithM (f : Option α → β → Option α) (d : Dict κ α) (e : Dict κ β) : Option (Dict κ α) :=
  d.mergeItemsM f e.items

variable {f : Option α → β → Option α} {d r : Dict κ α}

theorem get?_mergeItemsM {items : List (κ × β)} (nodup : (items.map Prod.fst).Nodup)
    (done : d.mergeItemsM f items = some r) (k : κ) :
    r.get? k = (items.lookup k).elim (d.get? k) (f (d.get? k)) := by
  induction items generalizing d with
  | nil =>
    cases done
    rfl
  | cons item rest ih =>
    obtain ⟨key, value⟩ := item
    rw [List.map_cons, List.nodup_cons] at nodup
    obtain ⟨d', made, done⟩ := Option.bind_eq_some_iff.mp done
    obtain ⟨new, merged, rfl⟩ := Option.map_eq_some_iff.mp made
    have later := ih nodup.2 done
    rw [List.lookup_cons]
    by_cases same : k = key
    · subst same
      have absent : rest.lookup k = none := by
        rw [List.lookup_eq_none_iff]
        intro item mem
        have other : k ≠ item.1 := fun is => nodup.1 (List.mem_map.mpr ⟨item, mem, is.symm⟩)
        simpa using other
      rw [absent, get?_set_self] at later
      rw [beq_self_eq_true]
      exact later.trans merged.symm
    · rw [get?_set_of_ne _ _ same] at later
      rw [beq_eq_false_iff_ne.mpr same]
      exact later

/-- What is under a key after the merging. -/
theorem get?_mergeWithM {e : Dict κ β} (done : d.mergeWithM f e = some r) (k : κ) :
    r.get? k = (e.get? k).elim (d.get? k) (f (d.get? k)) :=
  get?_mergeItemsM e.nodup done k

theorem isSome_mergeItemsM {items : List (κ × β)} (nodup : (items.map Prod.fst).Nodup)
    (done : d.mergeItemsM f items = some r) {k : κ} {v : β} (mem : (k, v) ∈ items) : (f (d.get? k) v).isSome := by
  induction items generalizing d with
  | nil => cases mem
  | cons item rest ih =>
    obtain ⟨key, value⟩ := item
    rw [List.map_cons, List.nodup_cons] at nodup
    obtain ⟨d', made, done⟩ := Option.bind_eq_some_iff.mp done
    obtain ⟨new, merged, rfl⟩ := Option.map_eq_some_iff.mp made
    obtain same | mem := List.mem_cons.mp mem
    · cases same
      exact Option.isSome_iff_exists.mpr ⟨new, merged⟩
    · have other : k ≠ key := fun is => nodup.1 (List.mem_map.mpr ⟨_, mem, is⟩)
      have later := ih nodup.2 done mem
      rwa [get?_set_of_ne _ _ other] at later

/-- All entries are merged if nothing fails. -/
theorem isSome_mergeWithM {e : Dict κ β} (done : d.mergeWithM f e = some r) {k : κ} {v : β}
    (found : e.get? k = some v) : (f (d.get? k) v).isSome :=
  isSome_mergeItemsM e.nodup done (mem_items_iff.mpr found)

/-- Merging that never fails. -/
def mergeWith (f : Option α → β → α) (d : Dict κ α) (e : Dict κ β) : Dict κ α :=
  e.items.foldl (fun d (k, v) => d.set k (f (d.get? k) v)) d

theorem mergeWithM_some (f : Option α → β → α) (d : Dict κ α) (e : Dict κ β) :
    d.mergeWithM (fun old new => some (f old new)) e = some (d.mergeWith f e) := by
  unfold mergeWithM mergeWith
  induction e.items generalizing d with
  | nil => rfl
  | cons item rest ih => exact ih _

theorem get?_mergeWith (f : Option α → β → α) (d : Dict κ α) (e : Dict κ β) (k : κ) :
    (d.mergeWith f e).get? k = (e.get? k).elim (d.get? k) fun v => some (f (d.get? k) v) :=
  get?_mergeWithM (mergeWithM_some f d e) k

/-! ## Dictionaries of dictionaries -/

variable (d : Dict κ (Dict ι α))

def get2? (k : κ) (i : ι) : Option α := (d.get? k).bind (·.get? i)

/-- The inner dictionary is made if need be. -/
def set2 (k : κ) (i : ι) (v : α) : Dict κ (Dict ι α) :=
  d.set k (((d.get? k).getD .empty).set i v)

def erase2 (k : κ) (i : ι) : Dict κ (Dict ι α) := d.modify k (·.erase i)

theorem get2?_set2 (k k' : κ) (i i' : ι) (v : α) :
    (d.set2 k i v).get2? k' i' = if k' = k ∧ i' = i then some v else d.get2? k' i' := by
  unfold get2? set2
  rw [get?_set]
  by_cases same : k' = k
  · subst same
    rw [if_pos rfl, Option.bind_some, get?_set]
    by_cases same' : i' = i
    · rw [if_pos same', if_pos ⟨rfl, same'⟩]
    · rw [if_neg same', if_neg fun both => same' both.2]
      cases d.get? k' <;> rfl
  · rw [if_neg same, if_neg fun both => same both.1]

theorem get2?_erase2 (k k' : κ) (i i' : ι) :
    (d.erase2 k i).get2? k' i' = if k' = k ∧ i' = i then none else d.get2? k' i' := by
  unfold get2? erase2
  rw [get?_modify]
  by_cases same : k' = k
  · subst same
    rw [if_pos rfl]
    cases d.get? k' with
    | none => simp
    | some inner =>
      rw [Option.map_some, Option.bind_some, Option.bind_some, get?_erase]
      by_cases same' : i' = i
      · rw [if_pos same', if_pos ⟨rfl, same'⟩]
      · rw [if_neg same', if_neg fun both => same' both.2]
  · rw [if_neg same, if_neg fun both => same both.1]

end Klever.Lib.Dict
