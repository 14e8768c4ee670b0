import Klever.Lib.Dict

/-!
# Results kept under keys

A server keeps what it has made for a request under the key of the request and uses it for later requests with the same
key. Requests without keys are served on their own. `serveAll_forall_iff` says when no one can tell such a server from one
that keeps nothing: requests with equal keys have to be equal in everything that results depend on.
-/

namespace Klever.Lib.Memo

variable {ρ κ ε β γ τ : Type} [DecidableEq κ]

/-- What is kept for a request, the result for a request from what is kept, and the result if nothing is kept. -/
structure Server (ρ ε β : Type) where
  make : ρ → ε
  use : ε → ρ → β
  plain : ρ → β

section Serve

variable (key : ρ → Option κ) (server : Server ρ ε β)

def serve (kept : Dict κ ε) (r : ρ) : β × Dict κ ε :=
  match key r with
  | none => (server.plain r, kept)
  | some k =>
    match kept.get? k with
    | some e => (server.use e r, kept)
    | none => (server.plain r, kept.set k (server.make r))

def serveAll (kept : Dict κ ε) : List ρ → List β
  | [] => []
  | r :: rest => (serve key server kept r).1 :: serveAll (serve key server kept r).2 rest

/-- What is kept comes from the first request with a key. -/
def Keeps (done : List ρ) (kept : Dict κ ε) : Prop :=
  ∀ k, kept.get? k = (done.find? (key · = some k)).map server.make

/-- Each request is related to the first one with the same key. -/
def Firsts (P : ρ → ρ → Prop) (done : List ρ) : List ρ → Prop
  | [] => True
  | r :: rest =>
    (∀ k first, key r = some k → done.find? (key · = some k) = some first → P first r) ∧ Firsts P (done ++ [r]) rest

end Serve

variable {key : ρ → Option κ} {server : Server ρ ε β} {kept : Dict κ ε} {done rs : List ρ} {r : ρ}

theorem Keeps.empty : Keeps key server [] .empty := fun _ => rfl

theorem Keeps.next (keeps : Keeps key server done kept) : Keeps key server (done ++ [r]) (serve key server kept r).2 := by
  intro k
  rw [List.find?_append, List.find?_singleton, serve]
  cases named : key r with
  | none => simpa using keeps k
  | some name =>
    cases found : kept.get? name with
    | some e =>
      simp only [found, keeps k]
      by_cases same : name = k
      · subst same
        rw [keeps name, Option.map_eq_some_iff] at found
        obtain ⟨first, found, -⟩ := found
        rw [found]
        rfl
      · simp [same]
    | none =>
      simp only [found, Dict.get?_set, keeps k]
      by_cases same : k = name
      · subst same
        rw [keeps k, Option.map_eq_none_iff] at found
        simp [found]
      · simp [same, Ne.symm same]

/-- The result differs from the plain one only due to the first request with the same key. -/
theorem Keeps.serve_eq_iff (keeps : Keeps key server done kept) : (serve key server kept r).1 = server.plain r ↔
    ∀ k first, key r = some k → done.find? (key · = some k) = some first →
      server.use (server.make first) r = server.plain r := by
  rw [serve]
  cases named : key r with
  | none => exact iff_of_true rfl nofun
  | some name =>
    have lookup := keeps name
    cases found : done.find? (key · = some name) with
    | none =>
      rw [found, Option.map_none] at lookup
      simp only [lookup]
      refine iff_of_true trivial fun k first same here => ?_
      cases Option.some.inj same
      cases found.symm.trans here
    | some first =>
      rw [found, Option.map_some] at lookup
      simp only [lookup]
      constructor
      · intro same k other named here
        cases Option.some.inj named
        cases Option.some.inj (found.symm.trans here)
        exact same
      · intro all
        exact all name first rfl found

theorem Keeps.serveAll_eq_iff (keeps : Keeps key server done kept) : serveAll key server kept rs = rs.map server.plain ↔
    Firsts key (fun first r => server.use (server.make first) r = server.plain r) done rs := by
  induction rs generalizing done kept with
  | nil => exact iff_of_true rfl trivial
  | cons r rest ih =>
    rw [serveAll, List.map_cons, List.cons.injEq, keeps.serve_eq_iff, ih keeps.next, Firsts]

theorem firsts_forall {P : τ → ρ → ρ → Prop} :
    (∀ t, Firsts key (P t) done rs) ↔ Firsts key (fun a b => ∀ t, P t a b) done rs := by
  induction rs generalizing done with
  | nil => exact iff_of_true (fun _ => trivial) trivial
  | cons r rest ih =>
    simp only [Firsts, forall_and, ih]
    refine and_congr_left fun _ => ?_
    exact ⟨fun all k first named found t => all t k first named found,
      fun all t k first named found => all k first named found t⟩

theorem key_of_find? {k : κ} {first : ρ} (found : done.find? (key · = some k) = some first) : key first = some k := by
  simpa using List.find?_some found

/-- Requests with equal keys are equal as far as `f` tells. -/
def Agree (key : ρ → Option κ) (f : ρ → γ) (a b : ρ) : Prop := ∀ k, key a = some k → key b = some k → f a = f b

/-- Among requests that agree, it is enough to look at the first one. -/
theorem first_iff {f : ρ → γ} (agree : done.Pairwise (Agree key f)) :
    (∀ k first, key r = some k → done.find? (key · = some k) = some first → f first = f r) ↔
      ∀ old ∈ done, Agree key f old r := by
  constructor
  · intro firsts old mem k named named'
    obtain ⟨first, found⟩ := Option.isSome_iff_exists.mp
      (List.find?_isSome.mpr ⟨old, mem, decide_eq_true named⟩ : (done.find? (key · = some k)).isSome)
    obtain ⟨is, before, after, split, others⟩ := List.find?_eq_some_iff_append.mp found
    refine Eq.trans ?_ (firsts k first named' found)
    -- the request is the first one or comes after it
    rw [split, List.mem_append, List.mem_cons] at mem
    rcases mem with mem | rfl | mem
    · have differs := others old mem
      simp [named] at differs
    · rfl
    · rw [split, List.pairwise_append, List.pairwise_cons] at agree
      exact (agree.2.1.1 old mem k (of_decide_eq_true is) named).symm
  · intro all k first named found
    exact all first (List.mem_of_find?_eq_some found) k (key_of_find? found) named

theorem firsts_iff_pairwise {f : ρ → γ} {P : ρ → ρ → Prop}
    (tells : ∀ {a b k}, key a = some k → key b = some k → (P a b ↔ f a = f b)) (agree : done.Pairwise (Agree key f)) :
    Firsts key P done rs ↔ (done ++ rs).Pairwise (Agree key f) := by
  induction rs generalizing done with
  | nil => simpa [Firsts] using agree
  | cons r rest ih =>
    have here : (∀ k first, key r = some k → done.find? (key · = some k) = some first → P first r) ↔
        ∀ old ∈ done, Agree key f old r := by
      rw [← first_iff agree]
      refine forall_congr' fun k => forall_congr' fun first => forall_congr' fun named => forall_congr' fun found => ?_
      exact tells (key_of_find? found) named
    have next : (done ++ [r]).Pairwise (Agree key f) ↔ ∀ old ∈ done, Agree key f old r := by
      simp [List.pairwise_append, agree]
    rw [Firsts, here, ← next, List.append_cons done r rest]
    constructor
    · rintro ⟨agrees, rests⟩
      exact (ih agrees).mp rests
    · intro all
      have agrees := (List.pairwise_append.mp all).1
      exact ⟨agrees, (ih agrees).mpr all⟩

/-- A family of servers gives plain results exactly if requests with equal keys are equal as far as the family can tell. -/
theorem serveAll_forall_iff {f : ρ → γ} (servers : τ → Server ρ ε β)
    (tells : ∀ {a b k}, key a = some k → key b = some k →
      ((∀ t, (servers t).use ((servers t).make a) b = (servers t).plain b) ↔ f a = f b)) :
    (∀ t, serveAll key (servers t) .empty rs = rs.map (servers t).plain) ↔ rs.Pairwise (Agree key f) := by
  have each (t : τ) := @Keeps.serveAll_eq_iff _ _ _ _ _ key (servers t) .empty [] rs .empty
  rw [forall_congr' each, firsts_forall]
  exact firsts_iff_pairwise tells .nil

/-! ## Results that get old -/

/-- A lookup with what it gets and what it would get if nothing was kept. -/
structure Call (κ β : Type) where
  key : κ
  useCache : Bool
  answer : List β
  plain : List β

/-- What is kept is taken if it may be, and other results are kept. -/
def ask (kept : Dict κ (List β)) (k : κ) (useCache : Bool) (plain : List β) : List β × Dict κ (List β) :=
  match kept.get? k, useCache with
  | some found, true => (found, kept)
  | _, _ => (plain, kept.set k plain)

namespace Call

variable {log : List (Call κ β)} {kept : Dict κ (List β)}

/-- The lookup gets the same elements as without the cache. -/
def Right (call : Call κ β) : Prop := call.useCache = true → ∀ x, x ∈ call.answer ↔ x ∈ call.plain

omit [DecidableEq κ] in
/-- A right lookup finds something exactly if there is something. -/
theorem Right.isEmpty_eq {call : Call κ β} (right : call.Right) (use : call.useCache = true) :
    call.plain.isEmpty = call.answer.isEmpty := by
  rw [Bool.eq_iff_iff, List.isEmpty_iff, List.isEmpty_iff, List.eq_nil_iff_forall_not_mem,
    List.eq_nil_iff_forall_not_mem]
  exact forall_congr' fun x => not_congr (right use x).symm

/-- The last lookup for a key; logs begin with what is last. -/
def last (log : List (Call κ β)) (k : κ) : Option (Call κ β) := log.find? (·.key = k)

/-- Without the cache, a lookup that may use it gets the same elements as the one for the same key before it. -/
def Steady : List (Call κ β) → Prop
  | [] => True
  | call :: log =>
    (call.useCache = true → ∀ old ∈ last log call.key, ∀ x, x ∈ old.plain ↔ x ∈ call.plain) ∧ Steady log

/-- The last answers are kept. -/
structure Logged (log : List (Call κ β)) (kept : Dict κ (List β)) : Prop where
  kept : ∀ k, kept.get? k = (last log k).map answer
  plain : ∀ call ∈ log, call.useCache = false → call.answer = call.plain
  steady : (∀ call ∈ log, call.Right) ↔ Steady log

theorem Logged.empty : Logged ([] : List (Call κ β)) .empty :=
  ⟨fun _ => rfl, List.forall_mem_nil _, iff_of_true (List.forall_mem_nil _) trivial⟩

theorem last_cons (call : Call κ β) (log : List (Call κ β)) (k : κ) :
    last (call :: log) k = if k = call.key then some call else last log k := by
  rw [last, List.find?_cons]
  by_cases same : k = call.key
  · simp [same]
  · simp [same, Ne.symm same, last]

/-- A lookup is logged. -/
theorem Logged.ask (logged : Logged log kept) (k : κ) (useCache : Bool) (plain : List β) :
    Logged (⟨k, useCache, (ask kept k useCache plain).1, plain⟩ :: log) (ask kept k useCache plain).2 := by
  have known := logged.kept k
  refine ⟨fun k' => ?_, List.forall_mem_cons.mpr ⟨?_, logged.plain⟩, ?_⟩
  · rw [last_cons]
    unfold Memo.ask
    split
    next found is =>
      split
      next same =>
        rw [same]
        exact is
      next => exact logged.kept k'
    next =>
      rw [Dict.get?_set, logged.kept]
      split <;> rfl
  · rintro (rfl : useCache = false)
    cases found : kept.get? k <;> simp [Memo.ask, found]
  · rw [List.forall_mem_cons, Steady, ← logged.steady]
    refine and_congr_left fun right => forall_congr' fun (use : useCache = true) => ?_
    subst use
    cases before : last log k with
    | none =>
      rw [before] at known
      simp [Memo.ask, known]
    | some old =>
      rw [before] at known
      have same : ∀ x, x ∈ old.answer ↔ x ∈ old.plain := by
        have mem := List.mem_of_find?_eq_some before
        cases use : old.useCache with
        | true => exact right old mem use
        | false => simp [logged.plain old mem use]
      simp [Memo.ask, known, same]

end Call

end Klever.Lib.Memo
