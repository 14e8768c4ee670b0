import Mathlib

/-!
# Insertion-ordered dictionaries

The dictionary of the modelled language: a list of entries whose keys are pairwise different, kept
in the order of insertion. Assigning to a present key keeps its place, assigning to a new one
appends, deleting keeps the order of the rest. The distinctness of the keys is a field, so a
dictionary with two entries under one key cannot be built.

Every operation has one lookup equation (`get?_set`, `get?_erase`, `get?_modify`, `get?_mapVals`),
and the readers of a dictionary reason through these equations alone.
-/

namespace Klever.Lib

/-- A dictionary: entries in insertion order, no key twice. -/
@[ext]
structure Dict (κ α : Type) where
  items : List (κ × α)
  nodup : (items.map Prod.fst).Nodup
  deriving DecidableEq

namespace Dict

variable {κ α β : Type}

/-- The empty dictionary. -/
def empty : Dict κ α := ⟨[], List.nodup_nil⟩

/-- The keys, in insertion order. -/
def keys (d : Dict κ α) : List κ := d.items.map Prod.fst

/-- The values, in the order of their keys. -/
def values (d : Dict κ α) : List α := d.items.map Prod.snd

/-- Rewriting every value, the keys and their order kept. -/
def mapVals (f : κ → α → β) (d : Dict κ α) : Dict κ β where
  items := d.items.map fun e => (e.1, f e.1 e.2)
  nodup := by
    have same : (d.items.map fun e => (e.1, f e.1 e.2)).map Prod.fst = d.items.map Prod.fst := by
      simp
    rw [same]
    exact d.nodup

theorem keys_mapVals (f : κ → α → β) (d : Dict κ α) : (d.mapVals f).keys = d.keys := by
  simp [keys, mapVals]

variable [DecidableEq κ]

/-- The value under a key, if there is one. -/
def get? (d : Dict κ α) (k : κ) : Option α := d.items.lookup k

/-- The entries with `k` bound to `v`: in place when the key is there, at the end otherwise. -/
def setItems (k : κ) (v : α) : List (κ × α) → List (κ × α)
  | [] => [(k, v)]
  | (k', v') :: rest => if k' = k then (k, v) :: rest else (k', v') :: setItems k v rest

theorem setItems_keys (k : κ) (v : α) (items : List (κ × α)) : (setItems k v items).map Prod.fst =
      if k ∈ items.map Prod.fst then items.map Prod.fst else items.map Prod.fst ++ [k] := by
  induction items with
  | nil => rfl
  | cons e rest ih =>
    obtain ⟨k', v'⟩ := e
    by_cases here : k' = k
    · subst here
      simp [setItems]
    · have other : ¬ k = k' := fun h => here h.symm
      simp only [setItems, here, if_false, List.map_cons, ih, List.mem_cons, other, false_or]
      split <;> rfl

/-- Assignment `d[k] = v`. -/
def set (d : Dict κ α) (k : κ) (v : α) : Dict κ α where
  items := setItems k v d.items
  nodup := by
    rw [setItems_keys]
    split
    · exact d.nodup
    next absent =>
      rw [List.nodup_append]
      refine ⟨d.nodup, List.nodup_singleton k, ?_⟩
      intro a ha b hb hab
      rw [List.mem_singleton] at hb
      exact absent (hb ▸ hab ▸ ha)

/-- Deletion `del d[k]`. -/
def erase (d : Dict κ α) (k : κ) : Dict κ α where
  items := d.items.filter fun e => e.1 ≠ k
  nodup := (List.filter_sublist.map Prod.fst).nodup d.nodup

/-- The entries that meet a condition. -/
def filter (d : Dict κ α) (p : κ → α → Bool) : Dict κ α where
  items := d.items.filter fun e => p e.1 e.2
  nodup := (List.filter_sublist.map Prod.fst).nodup d.nodup

/-- Updating the value under a key in place; nothing happens when the key is absent. -/
def modify (d : Dict κ α) (k : κ) (f : α → α) : Dict κ α :=
  d.mapVals fun k' v => if k' = k then f v else v

/-! ## Lookup -/

theorem get?_empty (k : κ) : (empty : Dict κ α).get? k = none := rfl

/-- An entry is what the lookup of its key answers. -/
theorem mem_items_iff {d : Dict κ α} {k : κ} {v : α} : (k, v) ∈ d.items ↔ d.get? k = some v := by
  obtain ⟨items, nodup⟩ := d
  simp only [get?]
  induction items with
  | nil => simp
  | cons e rest ih =>
    obtain ⟨k', v'⟩ := e
    have split := List.nodup_cons.mp nodup
    have tail := ih split.2
    by_cases same : k = k'
    · subst same
      have gone : (k, v) ∉ rest := fun h => split.1 (List.mem_map.mpr ⟨(k, v), h, rfl⟩)
      simp only [List.mem_cons, Prod.mk.injEq, true_and, gone, or_false, List.lookup_cons, beq_self_eq_true,
        Option.some.injEq]
      exact eq_comm
    · have differs : (k == k') = false := beq_eq_false_iff_ne.mpr same
      simp only [List.mem_cons, Prod.mk.injEq, same, false_and, false_or, List.lookup_cons, differs]
      exact tail

variable {d : Dict κ α} {k : κ} {v : α} {items : List (κ × α)}

theorem mem_keys_iff : k ∈ d.keys ↔ ∃ v, d.get? k = some v := by
  constructor
  · intro h
    obtain ⟨⟨k', v⟩, mem, rfl⟩ := List.mem_map.mp h
    exact ⟨v, mem_items_iff.mp mem⟩
  · rintro ⟨v, h⟩
    exact List.mem_map_of_mem (f := Prod.fst) (mem_items_iff.mpr h)

theorem get?_set (d : Dict κ α) (k k' : κ) (v : α) : (d.set k v).get? k' = if k' = k then some v else d.get? k' := by
  obtain ⟨items, nodup⟩ := d
  simp only [get?, set]
  clear nodup
  induction items with
  | nil =>
    by_cases h : k' = k
    · simp [setItems, h]
    · simp [setItems, h]
  | cons e rest ih =>
    obtain ⟨k₀, v₀⟩ := e
    by_cases here : k₀ = k
    · subst here
      by_cases h : k' = k₀
      · simp [setItems, h]
      · simp [setItems, List.lookup_cons, beq_eq_false_iff_ne.mpr h, h]
    · by_cases h : k' = k₀
      · subst h
        simp [setItems, here]
      · simp [setItems, here, List.lookup_cons, beq_eq_false_iff_ne.mpr h, ih]

@[simp] theorem get?_set_self (d : Dict κ α) (k : κ) (v : α) : (d.set k v).get? k = some v := by
  rw [get?_set, if_pos rfl]

theorem get?_set_of_ne (d : Dict κ α) {k' : κ} (v : α) (h : k' ≠ k) : (d.set k v).get? k' = d.get? k' := by
  rw [get?_set, if_neg h]

/-- Entries after an assignment are the new one and the old ones of other keys. -/
theorem of_get?_set {k' : κ} {w : α} (found : (d.set k v).get? k' = some w) :
    k' = k ∧ v = w ∨ k' ≠ k ∧ d.get? k' = some w := by
  rw [get?_set] at found
  split at found
  next same => exact .inl ⟨same, Option.some_inj.mp found⟩
  next other => exact .inr ⟨other, found⟩

theorem isSome_get?_set {k' : κ} : ((d.set k v).get? k').isSome ↔ (d.get? k').isSome ∨ k' = k := by
  rw [get?_set]
  split
  next same => simp [same]
  next other => simp [other]

/-- What holds of the new value and of all other entries holds after an assignment. -/
theorem forall_set {P : κ → α → Prop} (new : P k v) (old : ∀ k' v', k' ≠ k → d.get? k' = some v' → P k' v') :
    ∀ k' v', (d.set k v).get? k' = some v' → P k' v' := by
  intro k' v' found
  obtain ⟨rfl, rfl⟩ | ⟨other, was⟩ := of_get?_set found
  · exact new
  · exact old k' v' other was

theorem get?_mapVals (f : κ → α → β) (d : Dict κ α) (k : κ) : (d.mapVals f).get? k = (d.get? k).map (f k) := by
  obtain ⟨items, nodup⟩ := d
  simp only [get?, mapVals]
  clear nodup
  induction items with
  | nil => rfl
  | cons e rest ih =>
    obtain ⟨k', v'⟩ := e
    by_cases same : k = k'
    · subst same
      simp
    · simp [List.lookup_cons, beq_eq_false_iff_ne.mpr same, ih]

theorem get?_modify (d : Dict κ α) (k k' : κ) (f : α → α) :
    (d.modify k f).get? k' = if k' = k then (d.get? k').map f else d.get? k' := by
  rw [modify, get?_mapVals]
  by_cases h : k' = k
  · simp [h]
  · simp [h]

theorem get?_erase (d : Dict κ α) (k k' : κ) : (d.erase k).get? k' = if k' = k then none else d.get? k' := by
  obtain ⟨items, nodup⟩ := d
  simp only [get?, erase]
  clear nodup
  induction items with
  | nil => simp
  | cons e rest ih =>
    obtain ⟨k₀, v₀⟩ := e
    by_cases here : k₀ = k
    · subst here
      rw [List.filter_cons_of_neg (by simp), ih]
      by_cases h : k' = k₀
      · simp [h]
      · simp [List.lookup_cons, beq_eq_false_iff_ne.mpr h]
    · rw [List.filter_cons_of_pos (by simpa using here)]
      by_cases h : k' = k₀
      · subst h
        simp [here]
      · simp only [List.lookup_cons, beq_eq_false_iff_ne.mpr h, ih]

@[simp] theorem get?_erase_self (d : Dict κ α) (k : κ) : (d.erase k).get? k = none := by
  rw [get?_erase, if_pos rfl]

/-! ## Keys -/

theorem keys_set (d : Dict κ α) (k : κ) (v : α) : (d.set k v).keys = if k ∈ d.keys then d.keys else d.keys ++ [k] :=
  setItems_keys k v d.items

theorem keys_set_of_mem {v₀ : α} (v : α) (h : d.get? k = some v₀) : (d.set k v).keys = d.keys := by
  rw [keys_set, if_pos (mem_keys_iff.mpr ⟨v₀, h⟩)]

/-! ## Building from a list -/

/-- The entries of a list assigned one after another: the last one of a key counts. -/
def ofList (items : List (κ × α)) : Dict κ α := items.foldl (fun d e => d.set e.1 e.2) empty

theorem ofList_append (items : List (κ × α)) (e : κ × α) : ofList (items ++ [e]) = (ofList items).set e.1 e.2 := by
  rw [ofList, List.foldl_append]
  rfl

theorem mem_keys_ofList : k ∈ (ofList items).keys ↔ k ∈ items.map Prod.fst := by
  induction items using List.reverseRecOn with
  | nil => rfl
  | append_singleton items e ih =>
    rw [ofList_append, keys_set, List.map_append, List.mem_append]
    split
    next old =>
      refine ⟨fun mem => .inl (ih.mp mem), fun mem => ?_⟩
      obtain mem | mem := mem
      · exact ih.mpr mem
      · exact List.mem_singleton.mp mem ▸ old
    next => rw [List.mem_append, ih, List.map_singleton]

theorem mem_of_get?_ofList (found : (ofList items).get? k = some v) : (k, v) ∈ items := by
  induction items using List.reverseRecOn with
  | nil => cases found
  | append_singleton items e ih =>
    rw [ofList_append, get?_set] at found
    split at found
    next same =>
      cases found
      simp [same]
    next => exact List.mem_append_left _ (ih found)

/-- An entry whose key is not assigned again is what the lookup answers. -/
theorem get?_ofList (nodup : (items.map Prod.fst).Nodup) : (ofList items).get? k = some v ↔ (k, v) ∈ items := by
  induction items using List.reverseRecOn with
  | nil => simp [ofList, get?_empty]
  | append_singleton items e ih =>
    rw [List.map_append, List.nodup_append] at nodup
    obtain ⟨before, -, apart⟩ := nodup
    rw [ofList_append, get?_set, List.mem_append, List.mem_singleton]
    split
    next same =>
      subst same
      constructor
      · intro found
        cases found
        exact .inr rfl
      · intro mem
        obtain mem | mem := mem
        · exact absurd rfl (apart e.1 (List.mem_map.mpr ⟨_, mem, rfl⟩) e.1 (by simp))
        · rw [← mem]
    next differs =>
      rw [ih before]
      refine ⟨.inl, fun mem => ?_⟩
      obtain mem | rfl := mem
      · exact mem
      · exact absurd rfl differs

/-- Assignments that come later are looked up first. -/
theorem get?_ofList_append (items later : List (κ × α)) (k : κ) :
    (ofList (items ++ later)).get? k = ((ofList later).get? k).or ((ofList items).get? k) := by
  induction later using List.reverseRecOn with
  | nil =>
    rw [List.append_nil]
    exact Option.none_or.symm
  | append_singleton later e ih =>
    rw [← List.append_assoc, ofList_append, ofList_append, get?_set, get?_set, ih]
    split <;> rfl

/-! ## When nothing changes -/

/-- Two dictionaries with the same keys in the same order and the same lookups are equal. -/
theorem ext_get? {e : Dict κ α} (keys : d.keys = e.keys) (h : ∀ k, d.get? k = e.get? k) : d = e := by
  have step : ∀ (xs ys : List (κ × α)), xs.map Prod.fst = ys.map Prod.fst →
      (xs.map Prod.fst).Nodup → (∀ k, xs.lookup k = ys.lookup k) → xs = ys := by
    intro xs
    induction xs with
    | nil =>
      intro ys hk _ _
      exact (List.map_eq_nil_iff.mp hk.symm).symm
    | cons x xs ih =>
      intro ys hk hn hl
      cases ys with
      | nil => cases hk
      | cons y ys =>
        obtain ⟨kx, vx⟩ := x
        obtain ⟨ky, vy⟩ := y
        simp only [List.map_cons, List.cons.injEq] at hk hn
        obtain ⟨rfl, hrest⟩ := hk
        have hv := hl kx
        simp only [List.lookup_cons, beq_self_eq_true, Option.some.injEq] at hv
        subst hv
        refine congrArg _ (ih ys hrest (List.nodup_cons.mp hn).2 fun k => ?_)
        by_cases same : k = kx
        · -- the head's key occurs in neither tail
          subst same
          have absent : ∀ zs : List (κ × α), k ∉ zs.map Prod.fst → zs.lookup k = none := by
            intro zs hz
            exact List.lookup_eq_none_iff.mpr fun p hp => by
              simp only [bne_iff_ne, ne_eq]
              exact fun e => hz (e ▸ List.mem_map_of_mem (f := Prod.fst) hp)
          have hx := (List.nodup_cons.mp hn).1
          rw [absent xs hx, absent ys (hrest ▸ hx)]
        · have := hl k
          simpa only [List.lookup_cons, beq_eq_false_iff_ne.mpr same] using this
  exact Dict.ext (step d.items e.items keys d.nodup h)

/-- Entries with different keys are kept in their order. -/
theorem items_ofList {items : List (κ × α)} (nodup : (items.map Prod.fst).Nodup) : (ofList items).items = items := by
  have keys : (ofList items).keys = items.map Prod.fst := by
    induction items using List.reverseRecOn with
    | nil => rfl
    | append_singleton items e ih =>
      rw [List.map_append] at nodup ⊢
      obtain ⟨before, -, apart⟩ := List.nodup_append.mp nodup
      rw [ofList_append, keys_set, ih before, if_neg]
      · rfl
      · exact fun mem => apart e.1 mem e.1 (List.mem_singleton_self e.1) rfl
  have same : ofList items = ⟨items, nodup⟩ := by
    refine ext_get? keys fun k => Option.ext fun v => (get?_ofList nodup).trans ?_
    rw [← mem_items_iff]
  rw [same]

theorem set_eq_self (h : d.get? k = some v) : d.set k v = d := by
  refine ext_get? (keys_set_of_mem v h) fun k' => ?_
  by_cases same : k' = k
  · rw [same, get?_set_self, h]
  · rw [get?_set_of_ne d v same]

theorem set_set (d : Dict κ α) (k : κ) (v w : α) : (d.set k v).set k w = d.set k w := by
  refine ext_get? ?_ fun k' => ?_
  · rw [keys_set_of_mem w (get?_set_self d k v), keys_set, keys_set]
  · rw [get?_set, get?_set, get?_set]
    split <;> rfl

theorem modify_set (d : Dict κ α) (k : κ) (v : α) (f : α → α) : (d.set k v).modify k f = d.set k (f v) := by
  refine ext_get? ?_ fun k' => ?_
  · rw [modify, keys_mapVals, keys_set, keys_set]
  · rw [get?_modify, get?_set, get?_set]
    split <;> rfl

theorem set_eq_self_iff : d.set k v = d ↔ d.get? k = some v := by
  constructor
  · intro h
    rw [← h, get?_set_self]
  · exact set_eq_self

theorem mapVals_eq_self {f : κ → α → α} (h : ∀ k v, d.get? k = some v → f k v = v) : d.mapVals f = d := by
  refine ext_get? (keys_mapVals f d) fun k => ?_
  rw [get?_mapVals]
  cases hk : d.get? k with
  | none => rfl
  | some v => rw [Option.map_some, h k v hk]

/-- What is made of the items of a dictionary and keeps their keys, for one key. -/
theorem filter_filterMap_items {f : κ × α → Option β} {key : β → κ} (keys : ∀ k v b, f (k, v) = some b → key b = k)
    (found : d.get? k = some v) :
    (d.items.filterMap f).filter (key · = k) = (f (k, v)).toList := by
  obtain ⟨front, back, is⟩ := List.append_of_mem (mem_items_iff.mpr found)
  have nodup := d.nodup
  rw [is, List.map_append, List.map_cons, List.nodup_middle, List.nodup_cons] at nodup
  have none {items : List (κ × α)} (other : k ∉ items.map Prod.fst) :
      (items.filterMap f).filter (key · = k) = [] := by
    refine List.filter_eq_nil_iff.mpr fun b mem here => other ?_
    obtain ⟨⟨k', v'⟩, mem, made⟩ := List.mem_filterMap.mp mem
    rw [keys k' v' b made, decide_eq_true_eq] at here
    exact List.mem_map.mpr ⟨(k', v'), mem, here⟩
  have other := nodup.1
  rw [List.mem_append, not_or] at other
  rw [is, List.filterMap_append, List.filterMap_cons, List.filter_append, none other.1, List.nil_append]
  cases made : f (k, v) with
  | none => exact none other.2
  | some b => simp [keys k v b made, none other.2]

theorem mem_values_iff : v ∈ d.values ↔ ∃ k, d.get? k = some v := by
  rw [values, List.mem_map]
  constructor
  · rintro ⟨⟨k, v⟩, mem, rfl⟩
    exact ⟨k, mem_items_iff.mp mem⟩
  · rintro ⟨k, found⟩
    exact ⟨(k, v), mem_items_iff.mpr found, rfl⟩

/-- What an assignment does to values: the old value goes, the new one comes. -/
theorem values_set_perm (d : Dict κ α) (k : κ) (v : α) :
    ((d.get? k).toList ++ (d.set k v).values).Perm (v :: d.values) := by
  obtain ⟨items, nodup⟩ := d
  simp only [set, values, get?]
  clear nodup
  induction items with
  | nil => exact .refl _
  | cons e rest ih =>
    obtain ⟨k', v'⟩ := e
    by_cases same : k' = k
    · subst same
      simp only [setItems, List.lookup_cons_self, if_pos, List.map_cons, Option.toList_some]
      exact .swap v v' _
    · have ne : (k == k') = false := beq_eq_false_iff_ne.mpr (Ne.symm same)
      simp only [setItems, if_neg same, List.lookup_cons, ne, List.map_cons]
      exact List.perm_middle.trans ((ih.cons v').trans (.swap v v' _))

/-- What a deletion does to values. -/
theorem values_erase_perm (d : Dict κ α) (k : κ) : ((d.get? k).toList ++ (d.erase k).values).Perm d.values := by
  obtain ⟨items, nodup⟩ := d
  simp only [erase, values, get?]
  induction items with
  | nil => exact .refl _
  | cons e rest ih =>
    obtain ⟨k', v'⟩ := e
    obtain ⟨new, nodup⟩ := List.nodup_cons.mp nodup
    by_cases same : k' = k
    · subst same
      have kept : rest.filter (fun e => e.1 ≠ k') = rest := by
        rw [List.filter_eq_self]
        intro e mem
        refine decide_eq_true fun is => new ?_
        exact List.mem_map.mpr ⟨e, mem, is⟩
      rw [List.lookup_cons_self, List.filter_cons_of_neg (by simp), kept]
      exact .refl _
    · have ne : (k == k') = false := beq_eq_false_iff_ne.mpr (Ne.symm same)
      simp only [List.lookup_cons, ne, List.filter_cons, same, ne_eq, not_false_eq_true, decide_true, if_true,
        List.map_cons]
      exact List.perm_middle.trans ((ih nodup).cons v')

/-- The number of values with a property after an assignment. -/
theorem countP_values_set (d : Dict κ α) (k : κ) (v : α) (p : α → Bool) :
    (d.set k v).values.countP p + (d.get? k).toList.countP p = d.values.countP p + [v].countP p := by
  have count := (d.values_set_perm k v).countP_eq p
  rw [List.countP_append, List.countP_cons] at count
  rw [List.countP_singleton]
  omega

/-- The number of values with a property after a deletion. -/
theorem countP_values_erase (d : Dict κ α) (k : κ) (p : α → Bool) :
    (d.get? k).toList.countP p + (d.erase k).values.countP p = d.values.countP p := by
  rw [← (d.values_erase_perm k).countP_eq p, List.countP_append]

/-- The sum of values after an assignment. -/
theorem sum_values_set [AddCommMonoid α] (d : Dict κ α) (k : κ) (v : α) :
    (d.get? k).getD 0 + (d.set k v).values.sum = v + d.values.sum := by
  have sum := (d.values_set_perm k v).sum_eq
  rw [List.sum_append, List.sum_cons] at sum
  rw [← sum]
  cases d.get? k with
  | none => rfl
  | some old => exact congrArg (· + _) (add_zero old).symm

end Dict

end Klever.Lib
