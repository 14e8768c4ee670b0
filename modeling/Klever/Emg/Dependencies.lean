import Klever.Emg.Collection
import Mathlib.Data.Finset.Sort
import Mathlib.Order.WellFoundedSet

/-!
# Processes that depend on each other

A process requires the processes that its requirements name. `requiring_processes` and `broken_processes` follow that
relation backwards until nothing is added. `dependency_order` lists the processes that nobody else in the rest
requires and goes on with what is left; if processes require each other it comes to nobody and never ends.
-/

namespace Klever.Emg.Collection.ProcessCollection

open Klever.Lib Relation List

variable {D : Type} {c : ProcessCollection D}

/-- Does a requirement of the process name one of these? -/
def asksFor (p : Process D) (names : Finset String) : Bool :=
  p.requirements.any fun r => r.requirements.requiredProcesses.any (· ∈ names)

theorem asksFor_iff {p : Process D} {names : Finset String} : asksFor p names ↔ ∃ y ∈ names, asksFor p {y} := by
  simp only [asksFor, List.any_eq_true, decide_eq_true_eq, Finset.mem_singleton]
  grind

/-- A process of the model, and of the given names, has a requirement that names another process. -/
def Requires (c : ProcessCollection D) (restrictTo : Option (Finset String)) (x y : String) : Prop :=
  (∀ names ∈ restrictTo, x ∈ names) ∧ ∃ p ∈ c.processes, p.str = x ∧ asksFor p {y}

/-! ## Processes that require a process -/

variable {restrictTo : Option (Finset String)} {requiring : Finset String}

/-- The processes that are asked in a round. -/
def iterateOver (c : ProcessCollection D) (restrictTo : Option (Finset String)) (requiring : Finset String) :
    List (Process D) :=
  c.processes.filter fun p => (∀ names ∈ restrictTo, p.str ∈ names) ∧ p.str ∉ requiring

/-- Those who ask for a process that has been found are found, too. -/
def findRequiring (requiring : Finset String) (ps : List (Process D)) : Finset String :=
  ps.foldl (fun requiring p => if asksFor p requiring then insert p.str requiring else requiring) requiring

theorem subset_findRequiring (ps : List (Process D)) : requiring ⊆ findRequiring requiring ps := by
  refine List.foldlRecOn ps _ (Finset.Subset.refl _) fun found sub p _ => ?_
  split
  · exact sub.trans (Finset.subset_insert _ _)
  · exact sub

theorem mem_findRequiring {ps : List (Process D)} {p : Process D} (mem : p ∈ ps) (asks : asksFor p requiring) :
    p.str ∈ findRequiring requiring ps := by
  obtain ⟨front, back, rfl⟩ := append_of_mem mem
  obtain ⟨y, known, asks⟩ := asksFor_iff.mp asks
  have asks := asksFor_iff.mpr ⟨y, subset_findRequiring front known, asks⟩
  rw [findRequiring, foldl_append, foldl_cons]
  refine subset_findRequiring back ?_
  rw [← findRequiring, if_pos asks]
  exact Finset.mem_insert_self _ _

/-- What holds for the found processes and for those who ask for them holds for all. -/
theorem forall_findRequiring {Q : String → Prop} {ps : List (Process D)} (start : ∀ x ∈ requiring, Q x)
    (step : ∀ p ∈ ps, ∀ y, Q y → asksFor p {y} → Q p.str) : ∀ x ∈ findRequiring requiring ps, Q x := by
  refine @List.foldlRecOn _ _ (fun found => ∀ x ∈ found, Q x) ps _ _ start fun found all p mem => ?_
  split
  next asks =>
    obtain ⟨y, known, asks⟩ := asksFor_iff.mp asks
    exact (Finset.forall_mem_insert _ _ _).mpr ⟨step p mem y (all y known) asks, all⟩
  next => exact all

theorem findRequiring_lt (new : findRequiring requiring (c.iterateOver restrictTo requiring) ≠ requiring) :
    ((c.processes.map Process.str).toFinset \ findRequiring requiring (c.iterateOver restrictTo requiring)).card <
      ((c.processes.map Process.str).toFinset \ requiring).card := by
  have sub := @subset_findRequiring _ requiring (c.iterateOver restrictTo requiring)
  obtain ⟨x, found, fresh⟩ := Finset.exists_of_ssubset (sub.ssubset_of_ne new.symm)
  have known : x ∈ requiring ∨ x ∈ c.processes.map Process.str := by
    refine forall_findRequiring (Q := fun x => x ∈ requiring ∨ x ∈ c.processes.map Process.str)
      (fun x mem => .inl mem) (fun p mem _ _ _ => .inr ?_) x found
    exact List.mem_map_of_mem (mem_of_mem_filter mem)
  refine Finset.card_lt_card ⟨Finset.sdiff_subset_sdiff subset_rfl sub, fun all => ?_⟩
  have := all (Finset.mem_sdiff.mpr ⟨List.mem_toFinset.mpr (known.resolve_left fresh), fresh⟩)
  exact (Finset.mem_sdiff.mp this).2 found

/-- The loop of `requiring_processes`. -/
def requiringLoop (c : ProcessCollection D) (restrictTo : Option (Finset String)) (requiring : Finset String) :
    Finset String :=
  if findRequiring requiring (c.iterateOver restrictTo requiring) = requiring then requiring
  else c.requiringLoop restrictTo (findRequiring requiring (c.iterateOver restrictTo requiring))
termination_by ((c.processes.map Process.str).toFinset \ requiring).card
decreasing_by exact findRequiring_lt ‹_›

/-- `requiring_processes` -/
def requiringProcesses (c : ProcessCollection D) (name : String) (restrictTo : Option (Finset String)) : Finset String :=
  (c.requiringLoop restrictTo {name}).erase name

theorem mem_requiringLoop {x : String} :
    x ∈ c.requiringLoop restrictTo requiring ↔ ∃ y ∈ requiring, ReflTransGen (c.Requires restrictTo) x y := by
  fun_induction requiringLoop c restrictTo requiring with
  | case1 requiring stable =>
    constructor
    · exact fun mem => ⟨x, mem, .refl⟩
    · rintro ⟨y, mem, chain⟩
      induction chain using ReflTransGen.head_induction_on with
      | refl => exact mem
      | head step _ ih =>
        obtain ⟨allowed, p, known, rfl, asks⟩ := step
        by_contra fresh
        refine fresh (stable ▸ mem_findRequiring (mem_filter.mpr ⟨known, ?_⟩) (asksFor_iff.mpr ⟨_, ih, asks⟩))
        simpa [fresh] using allowed
  | case2 requiring _ ih =>
    rw [ih]
    constructor
    · rintro ⟨y, mem, chain⟩
      have sound := forall_findRequiring (fun y mem => (⟨y, mem, .refl⟩ :
        ∃ z ∈ requiring, ReflTransGen (c.Requires restrictTo) y z)) (fun p mem y ⟨z, known, more⟩ asks => by
          obtain ⟨mem, allowed⟩ := mem_filter.mp mem
          exact ⟨z, known, more.head ⟨(of_decide_eq_true allowed).1, p, mem, rfl, asks⟩⟩) y mem
      obtain ⟨z, known, more⟩ := sound
      exact ⟨z, known, chain.trans more⟩
    · rintro ⟨y, mem, chain⟩
      exact ⟨y, subset_findRequiring _ mem, chain⟩

theorem mem_requiringProcesses {name x : String} : x ∈ c.requiringProcesses name restrictTo ↔
    x ≠ name ∧ ReflTransGen (c.Requires restrictTo) x name := by
  simp [requiringProcesses, mem_requiringLoop]

/-- A process has a requirement that the given one does not meet. -/
def breaks (name : String) (actions : List String) (p : Process D) : Bool :=
  p.str ≠ name ∧ p.requirements.any fun r => !r.requirements.compatible name actions

/-- `broken_processes` -/
def brokenProcesses (c : ProcessCollection D) (name : String) (actions : List String) : Finset String :=
  let broken := ((c.processes.filter (breaks name actions)).map Process.str).toFinset
  (broken.sort (· ≤ ·)).foldl (fun all x => all ∪ c.requiringProcesses x none) broken

/-- Exactly the processes from which one with such a requirement can be reached are broken, and exactly those from which
a process can be reached require it. -/
theorem brokenProcesses_requiringProcesses_closure (c : ProcessCollection D) (name : String) (actions : List String)
    (restrictTo : Option (Finset String)) (x : String) :
    (x ∈ c.brokenProcesses name actions ↔
      ∃ p ∈ c.processes, breaks name actions p ∧ ReflTransGen (c.Requires none) x p.str) ∧
      (x ∈ c.requiringProcesses name restrictTo ↔ x ≠ name ∧ TransGen (c.Requires restrictTo) x name) := by
  constructor
  · have all (xs : List String) (broken : Finset String) :
        x ∈ xs.foldl (fun all y => all ∪ c.requiringProcesses y none) broken ↔
          x ∈ broken ∨ ∃ y ∈ xs, x ∈ c.requiringProcesses y none := by
      induction xs generalizing broken with
      | nil => simp
      | cons y ys ih => simp [ih, or_assoc]
    simp only [brokenProcesses, all, Finset.mem_sort, List.mem_toFinset, List.mem_map, mem_filter,
      mem_requiringProcesses]
    constructor
    · rintro (⟨p, ⟨mem, breaks⟩, rfl⟩ | ⟨_, ⟨p, ⟨mem, breaks⟩, rfl⟩, -, chain⟩)
      · exact ⟨p, mem, breaks, .refl⟩
      · exact ⟨p, mem, breaks, chain⟩
    · rintro ⟨p, mem, breaks, chain⟩
      by_cases own : x = p.str
      · exact .inl ⟨p, ⟨mem, breaks⟩, own.symm⟩
      · exact .inr ⟨_, ⟨p, ⟨mem, breaks⟩, rfl⟩, own, chain⟩
  · rw [mem_requiringProcesses]
    refine and_congr_right fun other => ⟨fun chain => ?_, TransGen.to_reflTransGen⟩
    exact (reflTransGen_iff_eq_or_transGen.mp chain).resolve_left (Ne.symm other)

/-! ## The order of processes -/

/-- `_transitive_is_required`: does another process of these require it? -/
def transitiveIsRequired (c : ProcessCollection D) (name : String) (restrictTo : Finset String) : Bool :=
  c.processes.any fun p => (restrictTo = ∅ ∨ p.str ∈ restrictTo) ∧ p.str ≠ name ∧ asksFor p {name}

/-- The processes that are selected in a round. -/
def free (c : ProcessCollection D) (todo : Finset String) : List String :=
  (todo.sort (· ≤ ·)).filter fun x => !c.transitiveIsRequired x todo

/-- The loop of `dependency_order`, for at most so many rounds. -/
def orderLoop (c : ProcessCollection D) (rounds : Nat) (todo : Finset String) : Option (List String) :=
  if todo = ∅ then some []
  else match rounds with
    | 0 => none
    | rounds + 1 => (c.orderLoop rounds (todo \ (c.free todo).toFinset)).map (c.free todo ++ ·)

/-- The environment processes and the entry process. -/
def todo (c : ProcessCollection D) : Finset String := (c.others.map Process.str).toFinset

/-- `dependency_order` -/
def dependencyOrder (c : ProcessCollection D) (rounds : Nat) : Option (List String) := c.orderLoop rounds c.todo

/-- One of the processes requires another one of them. -/
def RequiresAmong (c : ProcessCollection D) (todo : Finset String) (x y : String) : Prop :=
  x ≠ y ∧ y ∈ todo ∧ c.Requires (some todo) x y

/-- The loop ends with a list of all processes, in which they come before those they require unless processes require
themselves, alone or through others. -/
def Listed (c : ProcessCollection D) : Prop :=
  ∃ rounds order, c.dependencyOrder rounds = some order ∧ order.Nodup ∧ (∀ x, x ∈ order ↔ x ∈ c.todo) ∧
    ((∀ x, ¬ TransGen (fun x y => y ∈ c.todo ∧ c.Requires (some c.todo) x y) x x) →
      order.Pairwise fun x y => ¬ c.Requires none y x)

variable {todo : Finset String} {order : List String} {rounds : Nat}

theorem transitiveIsRequired_iff {x : String} (mem : x ∈ todo) :
    c.transitiveIsRequired x todo ↔ ∃ y, c.RequiresAmong todo y x := by
  have some : todo ≠ ∅ := Finset.ne_empty_of_mem mem
  simp only [transitiveIsRequired, RequiresAmong, Requires, List.any_eq_true, decide_eq_true_eq, some, mem, false_or,
    Option.mem_def, Option.some.injEq, forall_eq', true_and]
  grind

theorem mem_free {x : String} : x ∈ c.free todo ↔ x ∈ todo ∧ ∀ y, ¬ c.RequiresAmong todo y x := by
  rw [free, mem_filter, Finset.mem_sort]
  refine and_congr_right fun mem => ?_
  rw [Bool.not_eq_true', ← Bool.not_eq_true, transitiveIsRequired_iff mem, not_exists]

theorem orderLoop_spec (done : c.orderLoop rounds todo = some order) :
    order.Nodup ∧ (∀ x, x ∈ order ↔ x ∈ todo) ∧ order.Pairwise fun x y => ¬ c.Requires none y x := by
  fun_induction orderLoop c rounds todo generalizing order with
  | case1 =>
    cases done
    simp
  | case2 => cases done
  | case3 todo _ rounds ih =>
    obtain ⟨rest, later, rfl⟩ := Option.map_eq_some_iff.mp done
    obtain ⟨nodup, mem, pairwise⟩ := ih later
    have rest_iff (y) : y ∈ rest ↔ y ∈ todo ∧ y ∉ c.free todo := by rw [mem, Finset.mem_sdiff, List.mem_toFinset]
    have here (x y) (first : x ∈ c.free todo) (known : y ∈ todo) (differs : x ≠ y) : ¬ c.Requires none y x := by
      intro requires
      obtain ⟨mem, alone⟩ := mem_free.mp first
      exact alone y ⟨differs.symm, mem, by simpa using known, requires.2⟩
    have freeNodup : (c.free todo).Nodup := (Finset.sort_nodup _ _).filter _
    refine ⟨nodup_append'.mpr ⟨freeNodup, nodup, fun x first second => ((rest_iff x).mp second).2 first⟩,
      fun x => ?_, List.pairwise_append.mpr ⟨freeNodup.imp_of_mem ?_, pairwise, fun x first y second => ?_⟩⟩
    · rw [mem_append, rest_iff]
      have := @mem_free _ c todo x
      tauto
    · exact fun first second differs => here _ _ first (mem_free.mp second).1 differs
    · obtain ⟨known, other⟩ := (rest_iff y).mp second
      exact here x y first known fun same => other (same ▸ first)

/-- The loop comes to an end if no processes require each other. -/
theorem exists_orderLoop (acyclic : ∀ x, ¬ TransGen (c.RequiresAmong todo) x x) :
    ∃ rounds order, c.orderLoop rounds todo = some order := by
  induction todo using Finset.strongInduction with
  | H todo ih =>
    by_cases empty : todo = ∅
    · exact ⟨0, [], by rw [orderLoop, if_pos empty]⟩
    -- somebody is not required, because the processes are finitely many
    obtain ⟨x, first⟩ : ∃ x, x ∈ c.free todo := by
      have : IsStrictOrder String (TransGen (c.RequiresAmong todo)) := { irrefl := acyclic, trans := fun _ _ _ => .trans }
      obtain ⟨x, mem⟩ := Finset.nonempty_iff_ne_empty.mpr empty
      have founded : (todo : Set String).WellFoundedOn (TransGen (c.RequiresAmong todo)) := todo.wellFoundedOn
      obtain ⟨m, -, least⟩ := WellFounded.has_min founded Set.univ ⟨⟨x, mem⟩, trivial⟩
      refine ⟨m, mem_free.mpr ⟨m.2, fun y requires => ?_⟩⟩
      exact least ⟨y, requires.2.2.1 _ rfl⟩ trivial (.single requires)
    have smaller : todo \ (c.free todo).toFinset ⊂ todo := by
      refine ⟨Finset.sdiff_subset, fun sub => ?_⟩
      exact (Finset.mem_sdiff.mp (sub (mem_free.mp first).1)).2 (List.mem_toFinset.mpr first)
    have fewer : ∀ y z, c.RequiresAmong (todo \ (c.free todo).toFinset) y z → c.RequiresAmong todo y z := by
      rintro y z ⟨differs, mem, allowed, requires⟩
      exact ⟨differs, smaller.1 mem, by simpa using smaller.1 (allowed _ rfl), requires⟩
    obtain ⟨rounds, order, done⟩ := ih _ smaller fun x cycle => acyclic x (TransGen.mono fewer _ _ cycle)
    exact ⟨rounds + 1, c.free todo ++ order, by rw [orderLoop, if_neg empty, done]; rfl⟩

/-- In a list of the processes those that require others come first, so no cycle is possible. -/
theorem Listed.acyclic (listed : c.Listed) (x : String) : ¬ TransGen (c.RequiresAmong c.todo) x x := by
  obtain ⟨rounds, order, done, -⟩ := listed
  obtain ⟨nodup, mem, pairwise⟩ := orderLoop_spec done
  have before (y z) (requires : c.RequiresAmong c.todo y z) : order.idxOf y < order.idxOf z := by
    obtain ⟨differs, second, first, requires⟩ := requires
    have first := (mem y).mpr (first _ rfl)
    have second := (mem z).mpr second
    by_contra not
    have differs : order.idxOf z < order.idxOf y := lt_of_le_of_ne (not_lt.mp not) fun same =>
      differs ((idxOf_inj second).mp same).symm
    have := List.pairwise_iff_getElem.mp pairwise _ _ (idxOf_lt_length_of_mem second)
      (idxOf_lt_length_of_mem first) differs
    rw [List.getElem_idxOf, List.getElem_idxOf] at this
    exact this ⟨fun _ is => (by cases is), requires⟩
  intro cycle
  have less := TransGen.lift order.idxOf before _ _ cycle
  rw [transGen_eq_self] at less
  exact lt_irrefl _ less

/-- All processes are listed exactly if no two of them require each other, directly or through others. -/
theorem listed_iff : c.Listed ↔ ∀ x, ¬ TransGen (c.RequiresAmong c.todo) x x := by
  refine ⟨Listed.acyclic, fun acyclic => ?_⟩
  obtain ⟨rounds, order, done⟩ := exists_orderLoop acyclic
  obtain ⟨nodup, mem, pairwise⟩ := orderLoop_spec done
  exact ⟨rounds, order, done, nodup, mem, fun _ => pairwise⟩

/-- A process that requires another one. -/
def demanding (name other : String) : Process String :=
  { signalling "usb" name .block with
    actions := ⟨[("start", { Action.new .block with requirements := ⟨⟨[(other, true)], by simp⟩, .empty⟩ })], by simp⟩ }

/-- Two processes that require each other. -/
def interlocked : ProcessCollection String where
  name := "base"
  models := []
  environment := [demanding "driver" "usb/watcher", demanding "watcher" "usb/driver"]
  entry := none
  attributes := .empty
  models_sorted := sorted_nil
  environment_sorted := by decide +kernel
  disjoint := nofun

theorem interlocked_unlisted : ¬ interlocked.Listed := by
  intro listed
  have there : interlocked.RequiresAmong interlocked.todo "usb/driver" "usb/watcher" := by
    unfold RequiresAmong Requires
    decide +kernel
  have back : interlocked.RequiresAmong interlocked.todo "usb/watcher" "usb/driver" := by
    unfold RequiresAmong Requires
    decide +kernel
  exact listed.acyclic _ (.tail (.single there) back)

end Klever.Emg.Collection.ProcessCollection
