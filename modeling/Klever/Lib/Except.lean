import Klever.Lib.Dict

/-!
# Computations that may raise

A computation that returns is taken apart bind by bind: each part returns, and the rest returns from
its answer. A computation made for each element of a list returns the list of its answers.
-/

namespace Klever.Lib

variable {ε α β : Type} {f : α → Except ε β} {xs : List α} {ys : List β}

/-- A sequence returns exactly when both parts do. -/
theorem bind_eq_ok_iff {x : Except ε α} {b : β} : x >>= f = .ok b ↔ ∃ a, x = .ok a ∧ f a = .ok b := by
  cases x with
  | error e => exact ⟨nofun, fun ⟨_, h, _⟩ => nomatch h⟩
  | ok a => exact ⟨fun h => ⟨a, rfl, h⟩, fun ⟨_, same, h⟩ => by cases same; exact h⟩

/-- A computation for each element of a list returns exactly when it returns for all of them. -/
theorem mapM_eq_ok_iff : xs.mapM f = .ok ys ↔ List.Forall₂ (fun x y => f x = .ok y) xs ys := by
  induction xs generalizing ys with
  | nil =>
    rw [List.mapM_nil, List.forall₂_nil_left_iff]
    exact ⟨fun h => (Except.ok.inj h).symm, fun h => by rw [h]; rfl⟩
  | cons x rest ih =>
    rw [List.mapM_cons, List.forall₂_cons_left_iff, bind_eq_ok_iff]
    constructor
    · rintro ⟨y, first, h⟩
      obtain ⟨zs, others, same⟩ := bind_eq_ok_iff.mp h
      exact ⟨y, zs, first, ih.mp others, (Except.ok.inj same).symm⟩
    · rintro ⟨y, zs, first, others, rfl⟩
      exact ⟨y, first, bind_eq_ok_iff.mpr ⟨zs, ih.mpr others, rfl⟩⟩

theorem mapM_eq_ok_map {g : α → β} (each : ∀ x ∈ xs, f x = .ok (g x)) : xs.mapM f = .ok (xs.map g) := by
  rw [mapM_eq_ok_iff, List.forall₂_map_right_iff, List.forall₂_same]
  exact each

/-- Where it returns for the list, it returns for each element. -/
theorem ok_of_mapM_eq_ok (all : xs.mapM f = .ok ys) {x : α} (mem : x ∈ xs) : ∃ y, f x = .ok y := by
  have pairs := mapM_eq_ok_iff.mp all
  clear all
  induction pairs with
  | nil => cases mem
  | cons first _ ih =>
    obtain rfl | mem := List.mem_cons.mp mem
    · exact ⟨_, first⟩
    · exact ih mem

/-- Answers are those for elements. -/
theorem mem_mapM_iff (all : xs.mapM f = .ok ys) {y : β} : y ∈ ys ↔ ∃ x ∈ xs, f x = .ok y := by
  have pairs := mapM_eq_ok_iff.mp all
  clear all
  induction pairs with
  | nil => simp
  | cons first _ ih =>
    simp only [List.mem_cons, or_and_right, exists_or, exists_eq_left, first, ih, Except.ok.injEq]
    rw [eq_comm]

/-! ## Dictionaries -/

section Dict

variable {κ : Type} [DecidableEq κ]

/-- Rewriting every value by a computation that may raise. -/
def Dict.mapValsM (f : κ → α → Except ε β) (d : Dict κ α) : Except ε (Dict κ β) := do
  return .ofList (← d.items.mapM fun e => do return (e.1, ← f e.1 e.2))

theorem Dict.get?_mapValsM {f : κ → α → Except ε β} {d : Dict κ α} {e : Dict κ β} (made : d.mapValsM f = .ok e)
    {k : κ} {w : β} : e.get? k = some w ↔ ∃ v, d.get? k = some v ∧ f k v = .ok w := by
  obtain ⟨items, all, made⟩ := bind_eq_ok_iff.mp made
  obtain rfl := Except.ok.inj made
  have keys : d.items.map Prod.fst = items.map Prod.fst := by
    rw [← List.forall₂_eq_eq_eq, List.forall₂_map_left_iff, List.forall₂_map_right_iff]
    refine (mapM_eq_ok_iff.mp all).imp fun entry answer here => ?_
    obtain ⟨w, -, same⟩ := bind_eq_ok_iff.mp here
    rw [← Except.ok.inj same]
  rw [get?_ofList (keys ▸ d.nodup), mem_mapM_iff all]
  constructor
  · rintro ⟨⟨k, v⟩, mem, here⟩
    obtain ⟨w, answer, same⟩ := bind_eq_ok_iff.mp here
    cases same
    exact ⟨v, mem_items_iff.mp mem, answer⟩
  · rintro ⟨v, found, answer⟩
    exact ⟨(k, v), mem_items_iff.mpr found, bind_eq_ok_iff.mpr ⟨w, answer, rfl⟩⟩

theorem Dict.ok_of_mapValsM {f : κ → α → Except ε β} {d : Dict κ α} {e : Dict κ β} (made : d.mapValsM f = .ok e)
    {k : κ} {v : α} (found : d.get? k = some v) : ∃ w, f k v = .ok w := by
  obtain ⟨items, all, -⟩ := bind_eq_ok_iff.mp made
  obtain ⟨answer, here⟩ := ok_of_mapM_eq_ok all (mem_items_iff.mpr found)
  obtain ⟨w, is, -⟩ := bind_eq_ok_iff.mp here
  exact ⟨w, is⟩

end Dict

/-! ## Errors without a value -/

variable {f : α → Option β}

theorem mapM_of_mem (done : xs.mapM f = some ys) {x : α} (mem : x ∈ xs) : ∃ y, f x = some y ∧ y ∈ ys := by
  induction xs generalizing ys with
  | nil => cases mem
  | cons z rest ih =>
    rw [List.mapM_cons] at done
    obtain ⟨y, here, done⟩ := Option.bind_eq_some_iff.mp done
    obtain ⟨more, others, done⟩ := Option.bind_eq_some_iff.mp done
    cases done
    obtain rfl | mem := List.mem_cons.mp mem
    · exact ⟨y, here, List.mem_cons_self⟩
    · obtain ⟨w, found, member⟩ := ih others mem
      exact ⟨w, found, List.mem_cons_of_mem _ member⟩

theorem mem_mapM (done : xs.mapM f = some ys) {y : β} : y ∈ ys ↔ ∃ x ∈ xs, f x = some y := by
  constructor
  · intro mem
    induction xs generalizing ys with
    | nil =>
      cases done
      cases mem
    | cons x rest ih =>
      rw [List.mapM_cons] at done
      obtain ⟨z, here, done⟩ := Option.bind_eq_some_iff.mp done
      obtain ⟨zs, others, done⟩ := Option.bind_eq_some_iff.mp done
      cases done
      obtain rfl | mem := List.mem_cons.mp mem
      · exact ⟨x, List.mem_cons_self, here⟩
      · obtain ⟨w, member, found⟩ := ih others mem
        exact ⟨w, List.mem_cons_of_mem _ member, found⟩
  · intro ⟨x, mem, found⟩
    obtain ⟨z, found', member⟩ := mapM_of_mem done mem
    rw [found] at found'
    cases found'
    exact member

theorem exists_mapM (each : ∀ x ∈ xs, ∃ y, f x = some y) : ∃ ys, xs.mapM f = some ys := by
  induction xs with
  | nil => exact ⟨[], rfl⟩
  | cons x rest ih =>
    obtain ⟨y, here⟩ := each x List.mem_cons_self
    obtain ⟨ys, others⟩ := ih fun z mem => each z (List.mem_cons_of_mem _ mem)
    refine ⟨y :: ys, ?_⟩
    rw [List.mapM_cons, here, others]
    rfl

/-! ## A state that outlives an error -/

variable {σ : Type} {x : ExceptT ε (StateM σ) α} {f : α → ExceptT ε (StateM σ) β} {s after : σ}

theorem run_bind_ok {a : α} (ok : x.run.run s = (.ok a, after)) : (x >>= f).run.run s = (f a).run.run after := by
  rw [ExceptT.run_bind, StateT.run_bind, ok]
  rfl

theorem run_bind_error {error : ε} (raised : x.run.run s = (.error error, after)) :
    (x >>= f).run.run s = (.error error, after) := by
  rw [ExceptT.run_bind, StateT.run_bind, raised]
  rfl

/-- What is done with the answer does not change the state. -/
theorem run_map_snd (g : α → β) : ((x >>= fun a => pure (g a)).run.run s).2 = (x.run.run s).2 := by
  rcases here : x.run.run s with ⟨error | a, after⟩
  · rw [run_bind_error here]
  · rw [run_bind_ok here]
    rfl

end Klever.Lib
