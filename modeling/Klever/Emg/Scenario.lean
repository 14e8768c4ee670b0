import Klever.Emg.Collection
import Klever.Emg.Expand

/-!
# Scenarios and their savepoints

A scenario is a part of the actions of a process. If it has a savepoint, the model factory builds a
process from it that starts with the statements of the savepoint: a new block is put before the first
actions of the scenario, or in their place if they receive a signal. Actions are found by their names,
so the block comes before every occurrence of a name that can be the first one.

The order in which a set is iterated is a parameter.
-/

variable {v w : List String}

namespace Klever.Emg

open Klever.Lib List Option
open Process (Position)

/-! ## First actions -/

section FirstActions

mutual

/-- The actions with which a tree can start, given those of its behaviours. -/
def firstOf (enter : Behaviour → Option (List String)) : BaseAction → Option (List String)
  | .behaviour b => enter b
  | .parentheses child => firstOf enter child
  | .concatenation [] => some []
  | .concatenation (first :: _) => firstOf enter first
  | .choice children => firstOfEach enter children

def firstOfEach (enter : Behaviour → Option (List String)) : List BaseAction → Option (List String)
  | [] => some []
  | t :: rest => do
    let one ← firstOf enter t
    let others ← firstOfEach enter rest
    some (one ++ others)

end

namespace Flow

/-- `first_actions` of a tree. The number bounds the jumps that are entered one from another; the
search does not end if no number is enough. -/
def firstActions (f : Flow) : Nat → BaseAction → Option (List String)
  | 0, _ => none
  | n + 1, t => t |> firstOf fun b =>
    if b.kind = .subprocess then
      match f.body b.name with
      | some body => f.firstActions n body
      | none => some [b.name]
    else some [b.name]

/-- The first actions behind a behaviour. -/
def enter (f : Flow) (n : Nat) (b : Behaviour) : Option (List String) :=
  if b.kind = .subprocess then
    match f.body b.name with
    | some body => f.firstActions n body
    | none => some [b.name]
  else some [b.name]

theorem firstActions_succ (f : Flow) (n : Nat) (t : BaseAction) :
    f.firstActions (n + 1) t = firstOf (f.enter n) t := rfl

variable {f : Flow}

theorem enter_action {b : Behaviour} (kind : b.kind ≠ .subprocess) (n : Nat) :
    f.enter n b = some [b.name] := if_neg kind

theorem enter_jump {b : Behaviour} {body : BaseAction} (kind : b.kind = .subprocess)
    (entry : f.body b.name = some body) (n : Nat) : f.enter n b = f.firstActions n body := by
  rw [enter, if_pos kind, entry]

theorem body_expand {e : Behaviour → List Behaviour} {name : String} (alone : f.body name = none) :
    (f.expand e).body name = none := map_eq_none_iff.mpr alone

end Flow

variable {enter : Behaviour → Option (List String)} {trees : List BaseAction}

/-- The first actions of a choice are those of its alternatives. -/
theorem firstOfEach_spec {names : List String} (found : firstOfEach enter trees = some names) :
    (∀ t ∈ trees, ∃ some', firstOf enter t = some some' ∧ some' ⊆ names) ∧
      ∀ x ∈ names, ∃ t ∈ trees, ∃ some', firstOf enter t = some some' ∧ x ∈ some' := by
  induction trees generalizing names with
  | nil =>
    cases found
    exact ⟨nofun, nofun⟩
  | cons t rest ih =>
    obtain ⟨one, first, found⟩ := bind_eq_some_iff.mp found
    obtain ⟨others, more, same⟩ := bind_eq_some_iff.mp found
    cases same
    obtain ⟨each, only⟩ := ih more
    constructor
    · intro c mem
      obtain rfl | mem := mem_cons.mp mem
      · exact ⟨one, first, subset_append_left one others⟩
      · obtain ⟨names, found, sub⟩ := each c mem
        exact ⟨names, found, subset_append_of_subset_right one sub⟩
    · intro x mem
      obtain mem | mem := mem_append.mp mem
      · exact ⟨t, mem_cons_self, one, first, mem⟩
      · obtain ⟨c, listed, names, found, mem⟩ := only x mem
        exact ⟨c, mem_cons_of_mem _ listed, names, found, mem⟩

namespace Flow

variable {f : Flow}
  {t : BaseAction} {n : Nat} {names : List String} {x : String} {enter : Behaviour → Option (List String)}

/-- Whatever a run executes first is a first action. -/
theorem head_mem_firstActions (sound : f.IsSound) {s s' : Position} (path : f.lts.Path s v s')
    {rest : List BaseAction} (work : s.work = t :: rest) (tree : f.Sound t) (found : f.firstActions n t = some names)
    (labels : v = x :: w) : x ∈ names := by
  induction path generalizing t rest n names with
  | refl => cases labels
  | step move _ ih =>
    cases n with
    | zero => cases found
    | succ n =>
      rw [firstActions_succ] at found
      cases move with
      | action _ _ kind =>
        cases work
        rw [firstOf, enter_action kind] at found
        cases found
        cases labels
        exact mem_cons_self
      | jump _ kind entry _ =>
        cases work
        rw [firstOf, enter_jump kind entry] at found
        exact ih rfl (sound.body entry) found labels
      | parentheses child =>
        cases work
        cases tree with
        | parentheses tree => exact ih rfl tree (n := n + 1) found labels
      | concatenation children =>
        cases work
        cases tree with
        | concatenation nonempty trees =>
          cases children with
          | nil => exact absurd rfl nonempty
          | cons c cs => exact ih rfl (trees c mem_cons_self) (n := n + 1) found labels
      | choice _ _ mem =>
        cases work
        cases tree with
        | choice _ trees =>
          obtain ⟨some', one, sub⟩ := (firstOfEach_spec found).1 _ mem
          exact sub (ih rfl (trees _ mem) (n := n + 1) one labels)

/-- The behaviour behind a first action is reached silently. -/
theorem path_of_firstOf (sound : f.Sound t) (found : firstOf enter t = some names) (mem : x ∈ names) :
    ∃ b xs, enter b = some xs ∧ x ∈ xs ∧ f.Sound (.behaviour b) ∧ ∀ rest taken, ∃ rest',
      f.lts.Path ⟨t :: rest, taken⟩ [] ⟨.behaviour b :: rest', taken⟩ := by
  induction sound generalizing names with
  | @action b kind alone =>
    exact ⟨b, names, found, mem, .action kind alone, fun rest taken => ⟨rest, .refl _⟩⟩
  | @jump b _ kind entry admits =>
    exact ⟨b, names, found, mem, .jump kind entry admits, fun rest taken => ⟨rest, .refl _⟩⟩
  | @parentheses child _ ih =>
    obtain ⟨b, xs, first, mem, sound, path⟩ := ih found mem
    refine ⟨b, xs, first, mem, sound, fun rest taken => ?_⟩
    obtain ⟨rest', path⟩ := path rest taken
    exact ⟨rest', .silent (A := f.lts) (Move.parentheses child rest taken) path⟩
  | @concatenation children nonempty _ ih =>
    cases children with
    | nil => exact absurd rfl nonempty
    | cons c cs =>
      obtain ⟨b, xs, first, mem, sound, path⟩ := ih c mem_cons_self found mem
      refine ⟨b, xs, first, mem, sound, fun rest taken => ?_⟩
      obtain ⟨rest', path⟩ := path (cs ++ rest) taken
      exact ⟨rest', .silent (A := f.lts) (Move.concatenation (c :: cs) rest taken) path⟩
  | @choice children _ _ ih =>
    obtain ⟨c, listed, some', found, mem⟩ := (firstOfEach_spec found).2 x mem
    obtain ⟨b, xs, first, mem, sound, path⟩ := ih c listed found mem
    refine ⟨b, xs, first, mem, sound, fun rest taken => ?_⟩
    obtain ⟨rest', path⟩ := path rest taken
    exact ⟨rest', .silent (A := f.lts) (Move.choice rest taken listed) path⟩

variable {enter' : Behaviour → Option (List String)}

theorem firstOfEach_mono (each : ∀ t ∈ trees, ∀ names, firstOf enter t = some names → firstOf enter' t = some names)
    (found : firstOfEach enter trees = some names) :
    firstOfEach enter' trees = some names := by
  induction trees generalizing names with
  | nil => exact found
  | cons t rest ih =>
    obtain ⟨here, others⟩ := forall_mem_cons.mp each
    obtain ⟨one, first, found⟩ := bind_eq_some_iff.mp found
    obtain ⟨more, found, same⟩ := bind_eq_some_iff.mp found
    refine bind_eq_some_iff.mpr ⟨one, here one first, ?_⟩
    exact bind_eq_some_iff.mpr ⟨more, ih others found, same⟩

theorem firstOf_mono (le : ∀ b names, enter b = some names → enter' b = some names) (sound : f.Sound t)
    (found : firstOf enter t = some names) :
    firstOf enter' t = some names := by
  induction sound generalizing names with
  | action | jump => exact le _ names found
  | parentheses _ ih => exact ih found
  | @concatenation children nonempty _ ih =>
    cases children with
    | nil => exact absurd rfl nonempty
    | cons c cs => exact ih c mem_cons_self found
  | choice _ _ ih => exact firstOfEach_mono (fun t mem names found => ih t mem found) found

/-- Once the number is enough, a larger one makes no difference. -/
theorem IsSound.firstActions_mono (sound : f.IsSound) {m : Nat} (le : m ≤ n) (tree : f.Sound t)
    (found : f.firstActions m t = some names) :
    f.firstActions n t = some names := by
  induction m generalizing n t names with
  | zero => cases found
  | succ m ih =>
    obtain ⟨n, rfl⟩ := Nat.exists_eq_add_of_lt le
    rw [firstActions_succ] at found ⊢
    refine firstOf_mono ?_ tree found
    intro b names first
    by_cases kind : b.kind = .subprocess
    · cases entry : f.body b.name with
      | none =>
        rw [enter, if_pos kind, entry] at first ⊢
        exact first
      | some body =>
        rw [enter_jump kind entry] at first ⊢
        exact ih (Nat.le_add_right m n) (sound.body entry) first
    · rw [enter_action kind] at first ⊢
      exact first

/-- Each first action can be executed first. The jumps on the way to it are taken once each: the
search entered them with smaller and smaller numbers. -/
theorem IsSound.path_of_firstActions (sound : f.IsSound) (tree : f.Sound t) (found : f.firstActions n t = some names)
    {taken : List Behaviour}
    (deeper : ∀ b ∈ taken, ∀ body, f.body b.name = some body → f.firstActions (n - 1) body = none) (mem : x ∈ names)
    (rest : List BaseAction) :
    ∃ s, f.lts.Path ⟨t :: rest, taken⟩ [x] s := by
  induction n using Nat.strong_induction_on generalizing t names taken rest with
  | _ n ih =>
    cases n with
    | zero => cases found
    | succ k =>
      rw [firstActions_succ] at found
      obtain ⟨b, xs, first, mem, behaviour, path⟩ := path_of_firstOf tree found mem
      obtain ⟨rest', path⟩ := path rest taken
      cases behaviour with
      | action kind _ =>
        rw [enter_action kind] at first
        cases first
        cases mem_singleton.mp mem
        exact ⟨_, path.trans (.single (A := f.lts) (Move.action rest' taken kind))⟩
      | @jump _ body kind entry positive =>
        rw [enter_jump kind entry] at first
        have deeper : ∀ b ∈ taken, ∀ body, f.body b.name = some body → f.firstActions k body = none := deeper
        have fresh : b ∉ taken := by
          intro mem
          rw [deeper b mem body entry] at first
          cases first
        have admits : b.Admits taken := by
          intro n number
          rw [count_eq_zero_of_not_mem fresh]
          exact positive n number
        -- the smallest number that is enough for the body
        have enough : ∃ m, f.firstActions m body ≠ none := ⟨k, by simp [first]⟩
        have least : Nat.find enough ≤ k := Nat.find_min' enough (by simp [first])
        obtain ⟨ys, found⟩ := ne_none_iff_exists'.mp (Nat.find_spec enough)
        have same := sound.firstActions_mono least (sound.body entry) found
        rw [first] at same
        cases same
        have deeper' : ∀ c ∈ b :: taken, ∀ body, f.body c.name = some body →
            f.firstActions (Nat.find enough - 1) body = none := by
          have nonzero : Nat.find enough ≠ 0 := by
            intro zero
            rw [zero] at found
            cases found
          intro c mem body' entry'
          by_contra some'
          obtain rfl | mem := mem_cons.mp mem
          · rw [entry] at entry'
            cases entry'
            exact Nat.find_min enough (Nat.pred_lt nonzero) some'
          · obtain ⟨zs, found⟩ := ne_none_iff_exists'.mp some'
            have later := sound.firstActions_mono ((Nat.pred_le _).trans least) (sound.body entry') found
            rw [deeper c mem body' entry'] at later
            cases later
        obtain ⟨s, more⟩ := ih _ (Nat.lt_succ_of_le least) (sound.body entry) found deeper' mem []
        exact ⟨s, path.trans (.silent (A := f.lts) (Move.jump rest' kind entry admits) more)⟩

/-- The first actions are those with which a run can start. -/
theorem IsSound.mem_firstActions (sound : f.IsSound) (found : f.firstActions n f.initial = some names) :
    x ∈ names ↔ [x] ∈ f.beginnings := by
  constructor
  · intro mem
    exact sound.path_of_firstActions sound.initial found (fun _ taken => by cases taken) mem []
  · intro ⟨s, path⟩
    exact head_mem_firstActions sound path rfl sound.initial found rfl

/-! ## The end of the search -/

/-- The behaviours with which a tree can begin. -/
inductive BeginsWith : BaseAction → Behaviour → Prop
  | behaviour (b) : BeginsWith (.behaviour b) b
  | parentheses {child b} : BeginsWith child b → BeginsWith (.parentheses child) b
  | concatenation {first b} (rest) : BeginsWith first b → BeginsWith (.concatenation (first :: rest)) b
  | choice {children c b} : c ∈ children → BeginsWith c b → BeginsWith (.choice children) b

/-- Jumps without end, each of which is one with which the tree behind the last can begin. -/
def Endless (f : Flow) (t : BaseAction) : Prop :=
  ∃ jumps : Nat → Behaviour, BeginsWith t (jumps 0) ∧ ∀ k, (jumps k).kind = .subprocess ∧
    ∃ body, f.body (jumps k).name = some body ∧ BeginsWith body (jumps (k + 1))

/-- The search ends with the actions with which a run from the tree can start. -/
def FindsFirst (f : Flow) (t : BaseAction) : Prop :=
  ∃ n names, f.firstActions n t = some names ∧ ∀ x, x ∈ names ↔ ∃ s, f.lts.Path ⟨[t], []⟩ [x] s

theorem firstOf_of_begins {b : Behaviour} (begins : BeginsWith t b)
    (found : firstOf enter t = some names) : ∃ xs, enter b = some xs := by
  induction begins generalizing names with
  | behaviour => exact ⟨names, found⟩
  | parentheses _ ih => exact ih found
  | concatenation _ _ ih => exact ih found
  | choice mem _ ih =>
    obtain ⟨_, found, -⟩ := (firstOfEach_spec found).1 _ mem
    exact ih found

/-- The search ends if it ends for all jumps with which the tree can begin. -/
theorem IsSound.exists_firstActions (sound : f.IsSound) (tree : f.Sound t)
    (jumps : ∀ b body, BeginsWith t b → b.kind = .subprocess → f.body b.name = some body →
      ∃ n names, f.firstActions n body = some names) : ∃ n names, f.firstActions n t = some names := by
  suffices found : ∃ n names, firstOf (f.enter n) t = some names by
    obtain ⟨n, names, found⟩ := found
    exact ⟨n + 1, names, found⟩
  induction tree with
  | action kind _ => exact ⟨0, _, enter_action kind 0⟩
  | @jump b _ kind entry _ =>
    obtain ⟨n, names, found⟩ := jumps b _ (.behaviour b) kind entry
    exact ⟨n, names, (enter_jump kind entry n).trans found⟩
  | parentheses _ ih => exact ih fun b body begins => jumps b body (.parentheses begins)
  | @concatenation children nonempty _ ih =>
    cases children with
    | nil => exact absurd rfl nonempty
    | cons c cs => exact ih c mem_cons_self fun b body begins => jumps b body (.concatenation cs begins)
  | @choice children nonempty trees ih =>
    replace ih c mem := ih c mem fun b body begins => jumps b body (.choice mem begins)
    have enough : ∃ m, ∀ n ≥ m, ∃ names, firstOfEach (f.enter n) children = some names := by
      clear jumps nonempty
      induction children with
      | nil => exact ⟨0, fun _ _ => ⟨[], rfl⟩⟩
      | cons c cs each =>
        obtain ⟨here, others⟩ := forall_mem_cons.mp trees
        obtain ⟨⟨m, xs, first⟩, ih⟩ := forall_mem_cons.mp ih
        obtain ⟨m', rest⟩ := each others ih
        refine ⟨max m m', fun n ge => ?_⟩
        obtain ⟨ys, rest⟩ := rest n ((le_max_right m m').trans ge)
        have first := sound.firstActions_mono (Nat.succ_le_succ ((le_max_left m m').trans ge)) here first
        exact ⟨xs ++ ys, by rw [firstOfEach, ← firstActions_succ, first, rest]; rfl⟩
    obtain ⟨m, found⟩ := enough
    exact ⟨m, found m le_rfl⟩

/-- Each jump needs a smaller number. -/
theorem Endless.firstActions (endless : f.Endless t) (n : Nat) : f.firstActions n t = none := by
  obtain ⟨jumps, first, next⟩ := endless
  generalize 0 = k at first
  induction n generalizing k t with
  | zero => rfl
  | succ n ih =>
    by_contra some
    obtain ⟨names, found⟩ := ne_none_iff_exists'.mp some
    obtain ⟨kind, body, entry, begins⟩ := next k
    obtain ⟨xs, enters⟩ := firstOf_of_begins first found
    rw [← enter, enter_jump kind entry, ih (k + 1) begins] at enters
    cases enters

theorem IsSound.endless_of_never (sound : f.IsSound) (tree : f.Sound t) (never : ∀ n, f.firstActions n t = none) :
    f.Endless t := by
  have next (t) (tree : f.Sound t) (never : ∀ n, f.firstActions n t = none) : ∃ b body, BeginsWith t b ∧
      b.kind = .subprocess ∧ f.body b.name = some body ∧ ∀ n, f.firstActions n body = none := by
    by_contra no
    obtain ⟨n, names, found⟩ := sound.exists_firstActions tree fun b body begins kind entry => by
      by_contra ends
      refine no ⟨b, body, begins, kind, entry, fun n => by_contra fun found => ends ⟨n, ?_⟩⟩
      exact ne_none_iff_exists'.mp found
    rw [never n] at found
    cases found
  choose jump body begins kind entry still using next
  let trees : Nat → { t // f.Sound t ∧ ∀ n, f.firstActions n t = none } :=
    Nat.rec ⟨t, tree, never⟩ fun _ t => ⟨body t.1 t.2.1 t.2.2, sound.body (entry ..), still t.1 t.2.1 t.2.2⟩
  exact ⟨fun k => jump (trees k).1 (trees k).2.1 (trees k).2.2, begins .., fun k => ⟨kind .., _, entry .., begins ..⟩⟩

/-- The search ends, with the first actions, exactly if the tree does not lead into endless jumps. -/
theorem IsSound.findsFirst_iff (sound : f.IsSound) (tree : f.Sound t) : f.FindsFirst t ↔ ¬ f.Endless t := by
  constructor
  · rintro ⟨n, names, found, -⟩ endless
    rw [endless.firstActions n] at found
    cases found
  · intro ends
    obtain ⟨n, some⟩ : ∃ n, f.firstActions n t ≠ none := by
      by_contra never
      exact ends (sound.endless_of_never tree fun n => by_contra fun found => never ⟨n, found⟩)
    obtain ⟨names, found⟩ := ne_none_iff_exists'.mp some
    refine ⟨n, names, found, fun x => ⟨fun mem => ?_, fun ⟨s, path⟩ => ?_⟩⟩
    · exact sound.path_of_firstActions tree found (fun _ taken => by cases taken) mem []
    · exact head_mem_firstActions sound path rfl tree found rfl

/-- A process that jumps to a block and back: `{d}` with `d = <a>.{d}`. -/
def againAfterBlock : Flow where
  initial := .behaviour ⟨1, "d", .subprocess, none⟩
  body name := if name = "d" then
      some (.concatenation [.behaviour ⟨2, "a", .block, none⟩, .behaviour ⟨3, "d", .subprocess, none⟩])
    else none

theorem againAfterBlock_findsFirst : againAfterBlock.FindsFirst againAfterBlock.initial := by
  have jump (identity : Nat) : againAfterBlock.Sound (.behaviour ⟨identity, "d", .subprocess, none⟩) :=
    .jump rfl rfl nofun
  refine (IsSound.findsFirst_iff ⟨jump 1, fun entry => ?_⟩ (jump 1)).mpr ?_
  · obtain ⟨-, same⟩ := ite_none_right_eq_some.mp entry
    cases some.inj same
    exact .concatenation (by simp) (forall_mem_cons.mpr ⟨.action (by decide) rfl, forall_mem_singleton.mpr (jump 3)⟩)
  · -- what a jump leads to begins with the block
    rintro ⟨jumps, -, next⟩
    obtain ⟨-, body, entry, begins⟩ := next 0
    obtain ⟨kind, -⟩ := next (0 + 1)
    obtain ⟨-, same⟩ := ite_none_right_eq_some.mp entry
    cases some.inj same
    generalize jumps (0 + 1) = first at begins kind
    cases begins with
    | concatenation _ begins =>
      cases begins
      cases kind

/-- A subprocess that begins with a jump to itself or stops: `({a} | <stop>)`. -/
def againOrStop : BaseAction :=
  .choice [.behaviour ⟨1, "a", .subprocess, none⟩, .behaviour ⟨2, "stop", .block, none⟩]

theorem againOrStop_search : ∃ f : Flow, f.IsSound ∧ f.initial = againOrStop ∧ ¬ f.FindsFirst againOrStop := by
  let f : Flow := ⟨againOrStop, fun name => if name = "a" then some againOrStop else none⟩
  have tree : f.Sound againOrStop := by
    refine .choice (by simp) (forall_mem_cons.mpr ⟨.jump rfl rfl nofun, forall_mem_singleton.mpr ?_⟩)
    exact .action (by decide) rfl
  refine ⟨f, ⟨tree, fun entry => ?_⟩, rfl, ?_⟩
  · obtain ⟨-, same⟩ := ite_none_right_eq_some.mp entry
    exact some.inj same ▸ tree
  · rintro ⟨n, names, found, -⟩
    have begins : BeginsWith againOrStop ⟨1, "a", .subprocess, none⟩ := .choice mem_cons_self (.behaviour _)
    have endless : f.Endless againOrStop := ⟨fun _ => _, begins, fun _ => ⟨rfl, againOrStop, rfl, begins⟩⟩
    rw [endless.firstActions n] at found
    cases found

end Flow

end FirstActions

/-- Is the tree a behaviour of the name, without an operator? -/
def BaseAction.isNamed (name : String) : BaseAction → Bool
  | .behaviour b => b.name = name
  | _ => false

mutual

/-- Has a behaviour of the name parentheses of its own? -/
def BaseAction.inParentheses (name : String) : BaseAction → Bool
  | .behaviour _ => false
  | .parentheses child => child.isNamed name || child.inParentheses name
  | .concatenation children => anyInParentheses name children
  | .choice children => anyInParentheses name children

def anyInParentheses (name : String) : List BaseAction → Bool
  | [] => false
  | t :: rest => t.inParentheses name || anyInParentheses name rest

end

namespace Collection

/-! ## Savepoints -/

/-- `Actions`: the initial tree and the descriptions, among them those of the subprocesses with
their trees. -/
structure Actions where
  initial : BaseAction
  data : Dict String Action

/-- `Scenario` -/
structure Scenario where
  name : Option String
  savepoint : Option Savepoint
  actions : Actions

namespace Actions

variable (s : Actions)

/-- The executions are those of the trees. -/
def flow : Flow := ⟨s.initial, fun name => (s.data.get? name).bind Action.action⟩

/-- All trees. -/
def trees : List BaseAction := s.initial :: s.data.values.filterMap Action.action

/-- Is the name that of a description of a receive? -/
def receives (name : String) : Bool :=
  match s.data.get? name with
  | some a => match a.kind with
    | .receive _ => true
    | _ => false
  | none => false

/-- All trees with their behaviours rewritten. -/
def rewrite (e : Behaviour → List Behaviour) (s : Actions) : Actions where
  initial := s.initial.expand e
  data := s.data.mapVals fun _ a => { a with action := a.action.map (·.expand e) }

/-- `add_condition`: a block is described. -/
def addCondition (name : String) (block : Action) : Actions :=
  { s with data := s.data.set name block }

/-- A new behaviour of a block. -/
def occurrence (name : String) : Behaviour := ⟨0, name, .block, none⟩

/-- A new behaviour before one of the name, or in its place if that is not kept. -/
def edited (keep : Bool) (new name : String) (b : Behaviour) : List Behaviour :=
  if b.name = name then occurrence new :: (if keep then [b] else []) else [b]

/-- `replace_action` of a description by a block. Each behaviour needs an operator. -/
def replaceAction (old new : String) (block : Action) : Option Actions :=
  if s.trees.any (·.isNamed old) then none
  else
    let rewritten := s.rewrite (edited false new old)
    some { rewritten with data := (rewritten.data.set new block).erase old }

/-- `insert_action` of a block before a description. The operator has to be a sequence or a
choice. -/
def insertAction (new target : String) : Option Actions :=
  if s.trees.any fun t => t.isNamed target || t.inParentheses target then none
  else some (s.rewrite (edited true new target))

/-- The savepoint in the place of a first action or before it. -/
def place (new : String) (block : Action) (s : Actions) (name : String) : Option Actions := do
  let _ ← s.data.get? name
  if s.receives name then s.replaceAction name new block else s.insertAction new name

end Actions

/-- The block of a savepoint. -/
def Savepoint.block (sp : Savepoint) : Action where
  kind := .block
  comment := match sp.comment with
    | none | some "" => "Save point '" ++ sp.name ++ "'"
    | some comment => comment
  condition := []
  statements := sp.statements
  parameters := []
  action := none
  traceRelevant := true
  savepoints := []
  requirements := sp.requirements
  weakRequirements := sp.weakRequirements

/-- The actions of a scenario with its savepoint. -/
def insertSavepoint (order : List String → List String) (fuel : Nat) (sp : Savepoint)
    (s : Actions) : Option Actions :=
  -- a subprocess whose description is overwritten leaves its tree as a second initial action
  if (s.flow.body sp.name).isSome then none
  else do
    let start := s.addCondition sp.name sp.block
    let firsts ← start.flow.firstActions fuel start.initial
    (order firsts.dedup).foldlM (·.place sp.name sp.block) start

namespace Process

variable {D : Type}

/-- The process with other actions. -/
def withActions (p : Process D) (s : Actions) : Process D :=
  { p with initial := s.initial, actions := s.data }

/-- The executions of a process. -/
def flow (p : Process D) : Flow := Actions.flow ⟨p.initial, p.actions⟩

end Process

/-- `_process_from_scenario` -/
def processFromScenario {D : Type} (order : List String → List String) (fuel : Nat) (s : Scenario)
    (p : Process D) : Option (Process D) :=
  match s.savepoint with
  | some sp => (insertSavepoint order fuel sp s.actions).map p.withActions
  | none => some (p.withActions s.actions)

/-! ### What the insertion does to executions -/

/-- What becomes of an action when the savepoint is put before those of a name or in their place. -/
def placed (keep : Bool) (new name x : String) : List String :=
  if x = name then new :: (if keep then [x] else []) else [x]

namespace Actions

variable {s r : Actions} {new name : String} {block : Action} (e : Behaviour → List Behaviour)

theorem get?_rewrite (s : Actions) (name : String) : (s.rewrite e).data.get? name =
      (s.data.get? name).map fun a => { a with action := a.action.map (·.expand e) } :=
  Dict.get?_mapVals _ s.data name

theorem flow_rewrite (s : Actions) : (s.rewrite e).flow = s.flow.expand e := by
  have bodies : (s.rewrite e).flow.body = (s.flow.expand e).body := by
    funext name
    show ((s.rewrite e).data.get? name).bind Action.action = ((s.data.get? name).bind _).map _
    rw [get?_rewrite]
    cases s.data.get? name <;> rfl
  exact congrArg (Flow.mk _) bodies

theorem mem_edited {keep : Bool} {b c : Behaviour} (mem : c ∈ edited keep new name b) : c = occurrence new ∨ c = b := by
  unfold edited at mem
  split at mem
  · obtain here | mem := mem_cons.mp mem
    · exact .inl here
    · split at mem
      · exact .inr (mem_singleton.mp mem)
      · cases mem
  · exact .inr (mem_singleton.mp mem)

theorem expands_edited (keep : Bool) (alone : s.flow.body name = none) (fresh : s.flow.body new = none) :
    s.flow.Expands (edited keep new name) (placed keep new name) := by
  constructor
  · intro b entry
    refine if_neg ?_
    intro same
    rw [same] at entry
    exact entry alone
  · intro b
    unfold edited
    split <;> exact cons_ne_nil _ _
  · intro b none c mem
    obtain rfl | rfl := mem_edited mem
    · exact fresh
    · exact none
  · intro b kind c mem
    obtain rfl | rfl := mem_edited mem
    · exact nofun
    · exact kind
  · intro b kind
    unfold edited placed
    split
    · cases keep <;> rfl
    · rfl

/-- The block is described, and no jump has its name. -/
structure Prepared (new : String) (s : Actions) : Prop where
  described : ∃ a, s.data.get? new = some a ∧ a.kind = .block
  fresh : s.flow.body new = none

theorem receives_rewrite (s : Actions) (name : String) : (s.rewrite e).receives name = s.receives name := by
  unfold receives
  rw [get?_rewrite]
  cases s.data.get? name <;> rfl

theorem Prepared.rewrite (prepared : Prepared new s) (e : Behaviour → List Behaviour) : Prepared new (s.rewrite e) := by
  obtain ⟨⟨a, found, kind⟩, fresh⟩ := prepared
  constructor
  · refine ⟨{ a with action := a.action.map (·.expand e) }, ?_, kind⟩
    rw [get?_rewrite, found]
    rfl
  · rw [flow_rewrite]
    exact Flow.body_expand fresh

theorem receives_of_block {a : Action} (found : s.data.get? name = some a) (kind : a.kind = .block) :
    s.receives name = false := by
  unfold receives
  rw [found]
  simp [kind]

theorem flow_addCondition (fresh : s.flow.body new = none) (action : block.action = none) :
    (s.addCondition new block).flow = s.flow := by
  refine congrArg (Flow.mk s.initial) ?_
  funext x
  show ((s.data.set new block).get? x).bind Action.action = s.flow.body x
  rw [Dict.get?_set]
  split
  next here =>
    rw [here]
    exact action.trans fresh.symm
  next => rfl

theorem receives_addCondition {x : String} (ne : x ≠ new) : (s.addCondition new block).receives x = s.receives x := by
  unfold receives
  rw [show (s.addCondition new block).data.get? x = s.data.get? x from Dict.get?_set_of_ne _ _ ne]

/-- The descriptions may be exchanged for one another if they are no subprocesses. -/
theorem exchange_spec (prepared : Prepared new s) (kind : block.kind = .block)
    (action : block.action = none) (alone : s.flow.body name = none) (other : name ≠ new)
    (is : r = ⟨s.initial, (s.data.set new block).erase name⟩) :
    r.flow = s.flow ∧ Prepared new r ∧ ∀ x, x ≠ name → r.receives x = s.receives x := by
  have there (x : String) (ne : x ≠ name) : r.data.get? x = (s.addCondition new block).data.get? x := by
    rw [is, Dict.get?_erase, if_neg ne]
    rfl
  have described : r.data.get? new = some block := by
    rw [there new (Ne.symm other)]
    exact (Dict.get?_set _ _ _ _).trans (if_pos rfl)
  have same : r.flow = s.flow := by
    rw [← flow_addCondition prepared.fresh action, flow, is]
    refine congrArg (Flow.mk s.initial) ?_
    funext x
    by_cases here : x = name
    · subst here
      rw [Dict.get?_erase, if_pos rfl]
      exact (alone.symm.trans (congrFun (congrArg Flow.body (flow_addCondition prepared.fresh action).symm) x))
    · rw [← there x here, is]
  refine ⟨same, ⟨⟨block, described, kind⟩, ?_⟩, ?_⟩
  · rw [same]
    exact prepared.fresh
  · intro x ne
    by_cases here : x = new
    · obtain ⟨a, found, kind'⟩ := prepared.described
      rw [here, receives_of_block found kind']
      exact receives_of_block described kind
    · rw [← @receives_addCondition s new block x here]
      unfold receives
      rw [there x ne]

/-- The trees are rewritten, and the other descriptions stay receives or not. -/
theorem place_spec (prepared : Prepared new s) (kind : block.kind = .block)
    (action : block.action = none) (alone : s.flow.body name = none)
    (done : s.place new block name = some r) :
    r.flow = s.flow.expand (edited (!s.receives name) new name) ∧ Prepared new r ∧
      ∀ other, other ≠ name → r.receives other = s.receives other := by
  obtain ⟨a, found, done⟩ := bind_eq_some_iff.mp done
  split at done
  next receives =>
    rw [receives]
    unfold replaceAction at done
    obtain ⟨-, done⟩ := ite_none_left_eq_some.mp done
    cases done
    have rewritten := prepared.rewrite (edited false new name)
    have alone : (s.rewrite (edited false new name)).flow.body name = none := by
      rw [flow_rewrite]
      exact Flow.body_expand alone
    have other : name ≠ new := by
      intro same
      obtain ⟨a, found, kind⟩ := prepared.described
      rw [same, receives_of_block found kind] at receives
      cases receives
    obtain ⟨flow, prepared, others⟩ := exchange_spec rewritten kind action alone other rfl
    refine ⟨flow.trans (flow_rewrite _ s), prepared, ?_⟩
    intro x ne
    exact (others x ne).trans (receives_rewrite _ s x)
  next receives =>
    rw [Bool.not_eq_true] at receives
    rw [receives]
    unfold insertAction at done
    split at done
    next => cases done
    next =>
      cases done
      exact ⟨flow_rewrite _ s, prepared.rewrite _, fun other _ => receives_rewrite _ s other⟩

end Actions

/-- The same for the names of several actions, one after another. -/
def placedAll (keep : String → Bool) (new : String) (names w : List String) : List String :=
  names.foldl (fun w name => w.flatMap (placed (keep name) new name)) w

section Labels

variable {keep : Bool} {new name : String} {w : List String}

theorem flatMap_placed_of_not_mem (absent : name ∉ w) : w.flatMap (placed keep new name) = w := by
  induction w with
  | nil => rfl
  | cons x w ih =>
    obtain ⟨ne, absent⟩ := ne_and_not_mem_of_not_mem_cons absent
    rw [flatMap_cons, ih absent, placed, if_neg (Ne.symm ne)]
    rfl

/-- Each occurrence of the name makes one more occurrence of the savepoint. -/
theorem count_flatMap_placed (own : name = new → keep = true) :
    (w.flatMap (placed keep new name)).count new = w.count new + w.count name := by
  induction w with
  | nil => rfl
  | cons x w ih =>
    rw [flatMap_cons, count_append, ih, count_cons, count_cons, placed]
    by_cases here : x = name
    · subst here
      by_cases same : x = new
      · subst same
        simp [own rfl]
        omega
      · cases keep <;> simp [same] <;> omega
    · rw [if_neg here]
      simp only [count_singleton, beq_iff_eq, here, if_false]
      omega

theorem countP_flatMap_placed {names : List String} (absent : name ∉ names) :
    w.countP (· ∈ names) ≤ (w.flatMap (placed keep new name)).countP (· ∈ names) := by
  induction w with
  | nil => exact Nat.le_refl _
  | cons x w ih =>
    rw [flatMap_cons, countP_append, countP_cons, placed]
    by_cases here : x = name
    · subst here
      simp [absent]
      omega
    · simp only [if_neg here, countP_singleton]
      omega

theorem countP_mem_cons {names : List String} (absent : name ∉ names) :
    w.countP (· ∈ name :: names) = w.count name + w.countP (· ∈ names) := by
  induction w with
  | nil => rfl
  | cons x w ih =>
    rw [countP_cons, countP_cons, count_cons, ih]
    by_cases here : x = name
    · subst here
      simp [absent]
      omega
    · simp [here]
      omega

theorem flatMap_placed_mono (le : v <+: w) :
    v.flatMap (placed keep new name) <+: w.flatMap (placed keep new name) := by
  obtain ⟨more, rfl⟩ := le
  rw [flatMap_append]
  exact prefix_append _ _

end Labels

variable {keep : String → Bool} {new : String} {names : List String}

theorem placedAll_mono (le : v <+: w) : placedAll keep new names v <+: placedAll keep new names w := by
  induction names generalizing v w with
  | nil => exact le
  | cons name names ih => exact ih (flatMap_placed_mono le)

/-- The savepoint is executed at least once for each of the names. -/
theorem le_count_placedAll (nodup : names.Nodup) (own : keep new = true) (w : List String) :
    w.count new + w.countP (· ∈ names) ≤ (placedAll keep new names w).count new := by
  induction names generalizing w with
  | nil => simp [placedAll]
  | cons name names ih =>
    obtain ⟨absent, nodup⟩ := nodup_cons.mp nodup
    have later := ih nodup (w.flatMap (placed (keep name) new name))
    rw [count_flatMap_placed (fun same => same ▸ own)] at later
    rw [countP_mem_cons absent]
    have others := @countP_flatMap_placed (keep name) new name w names absent
    exact le_trans (by omega) later

theorem placedAll_of_disjoint (absent : ∀ name ∈ names, name ∉ w) : placedAll keep new names w = w := by
  induction names generalizing w with
  | nil => rfl
  | cons name names ih =>
    obtain ⟨here, later⟩ := forall_mem_cons.mp absent
    show placedAll keep new names (w.flatMap _) = w
    rw [flatMap_placed_of_not_mem here]
    exact ih later

/-- If only the first action has one of the names, the savepoint is put there and nowhere else. -/
theorem placedAll_cons (nodup : names.Nodup) (fresh : new ∉ names) {x : String}
    (mem : x ∈ names) (absent : ∀ name ∈ names, name ∉ w) :
    placedAll keep new names (x :: w) = new :: ((if keep x then [x] else []) ++ w) := by
  induction names with
  | nil => cases mem
  | cons name names ih =>
    obtain ⟨alone, nodup⟩ := nodup_cons.mp nodup
    have unused : new ∉ names := fun mem => fresh (mem_cons_of_mem name mem)
    obtain ⟨here, later⟩ := forall_mem_cons.mp absent
    show placedAll keep new names ((x :: w).flatMap _) = _
    by_cases same : x = name
    · subst same
      rw [flatMap_cons, flatMap_placed_of_not_mem here, placed, if_pos rfl]
      apply placedAll_of_disjoint
      intro name mem
      have other : name ≠ x := fun same => alone (same ▸ mem)
      have other' : name ≠ new := fun same => unused (same ▸ mem)
      cases keep x <;> simp [other, other', later name mem]
    · obtain mem := (mem_cons.mp mem).resolve_left same
      rw [flatMap_placed_of_not_mem (not_mem_cons_of_ne_of_not_mem (Ne.symm same) here)]
      exact ih nodup unused mem later

/-- The executions of one flow are those of another one, rewritten. -/
structure Rewrites (f g : Flow) (rewrite : List String → List String) : Prop where
  executions : g.executions = rewrite '' f.executions
  image : ∀ w ∈ f.beginnings, rewrite w ∈ g.beginnings
  beginnings : ∀ v ∈ g.beginnings, ∃ w ∈ f.beginnings, v <+: rewrite w

theorem Rewrites.trans {f g h : Flow} {first second : List String → List String}
    (one : Rewrites f g first) (two : Rewrites g h second)
    (mono : ∀ {v w}, v <+: w → second v <+: second w) : Rewrites f h (fun w => second (first w)) := by
  constructor
  · rw [two.executions, one.executions, Set.image_image]
  · intro w mem
    exact two.image _ (one.image w mem)
  · intro v mem
    obtain ⟨u, mem, le⟩ := two.beginnings v mem
    obtain ⟨w, mem, le'⟩ := one.beginnings u mem
    exact ⟨w, mem, le.trans (mono le')⟩

/-- Putting the savepoint to several first actions rewrites the executions. -/
theorem foldlM_place {block : Action} (nodup : names.Nodup) {s r : Actions} (prepared : Actions.Prepared new s)
    (sound : s.flow.IsSound) (kind : block.kind = .block) (action : block.action = none)
    (alone : ∀ name ∈ names, s.flow.body name = none)
    (kept : ∀ name ∈ names, keep name = !s.receives name)
    (done : names.foldlM (·.place new block) s = some r) :
    Rewrites s.flow r.flow (placedAll keep new names) := by
  induction names generalizing s with
  | nil =>
    cases done
    exact ⟨(Set.image_id _).symm, fun w mem => mem, fun v mem => ⟨v, mem, prefix_rfl⟩⟩
  | cons name names ih =>
    obtain ⟨absent, nodup⟩ := nodup_cons.mp nodup
    obtain ⟨here, alone⟩ := forall_mem_cons.mp alone
    obtain ⟨keeps, kept⟩ := forall_mem_cons.mp kept
    obtain ⟨t, first, done⟩ := bind_eq_some_iff.mp done
    obtain ⟨flow, prepared', others⟩ := Actions.place_spec prepared kind action here first
    rw [← keeps] at flow
    have expands := Actions.expands_edited (keep name) here prepared.fresh
    have one : Rewrites s.flow t.flow (List.flatMap (placed (keep name) new name)) := by
      rw [flow]
      exact ⟨expands.executions sound, fun w => expands.beginnings_image, fun v => expands.beginnings sound⟩
    have two : Rewrites t.flow r.flow (placedAll keep new names) := by
      apply ih nodup prepared' (flow ▸ expands.isSound sound) _ _ done
      · intro other mem
        rw [flow]
        exact Flow.body_expand (alone other mem)
      · intro other mem
        have ne : other ≠ name := fun same => absent (same ▸ mem)
        rw [kept other mem, others other ne]
    exact one.trans two placedAll_mono

/-- What is left of an execution of a scenario: a signal is not received first. -/
def Actions.unreceived (s : Actions) : List String → List String
  | [] => []
  | x :: w => if s.receives x then w else x :: w

/-- The savepoint is executed once, as the first action, and the scenario is executed after it. -/
structure SavepointFirst (s : Actions) (new : String) (g : Flow) : Prop where
  executions : ∀ v ∈ g.executions, ∃ w ∈ s.flow.executions, v = new :: s.unreceived w ∧ new ∉ s.unreceived w
  beginnings : ∀ v ∈ g.beginnings, v = [] ∨ ∃ w ∈ s.flow.beginnings, v = new :: s.unreceived w ∧ new ∉ s.unreceived w

theorem Actions.unreceived_subset (s : Actions) (w : List String) : s.unreceived w ⊆ w := by
  cases w with
  | nil => exact Subset.refl _
  | cons x w =>
    rw [unreceived]
    split
    · exact subset_cons_self x w
    · exact Subset.refl _

/-- What is left of an execution that is broken off is broken off. -/
theorem Actions.exists_unreceived (s : Actions) (le : v <+: s.unreceived w) : ∃ u, u <+: w ∧ v = s.unreceived u := by
  cases w with
  | nil => exact ⟨[], prefix_rfl, prefix_nil.mp le⟩
  | cons x w =>
    rw [unreceived] at le
    split at le
    next receives => exact ⟨x :: v, (prefix_cons_inj x).mpr le, by rw [unreceived, if_pos receives]⟩
    next kept =>
      cases v with
      | nil => exact ⟨[], List.nil_prefix, rfl⟩
      | cons y v =>
        obtain ⟨rfl, rest⟩ := cons_prefix_cons.mp le
        exact ⟨y :: v, le, by rw [unreceived, if_neg kept]⟩

/-- Where the savepoint is put: the names are those of the actions that can be executed first, and
all but received signals are kept. -/
theorem insertSavepoint_spec {order : List String → List String} (perm : ∀ names, (order names).Perm names)
    {fuel : Nat} {sp : Savepoint} {s r : Actions} (sound : s.flow.IsSound)
    (done : insertSavepoint order fuel sp s = some r) :
    ∃ names keep, names.Nodup ∧ (∀ x, x ∈ names ↔ [x] ∈ s.flow.beginnings) ∧ keep sp.name = true ∧
      (∀ x, x ≠ sp.name → keep x = !s.receives x) ∧
      Rewrites s.flow r.flow (placedAll keep sp.name names) := by
  unfold insertSavepoint at done
  obtain ⟨fresh, done⟩ := ite_none_left_eq_some.mp done
  have fresh : s.flow.body sp.name = none := by simpa using fresh
  have same := @Actions.flow_addCondition s sp.name sp.block fresh rfl
  obtain ⟨firsts, found, done⟩ := bind_eq_some_iff.mp done
  rw [same] at found
  have mem : ∀ x, x ∈ order firsts.dedup ↔ [x] ∈ s.flow.beginnings := by
    intro x
    rw [(perm _).mem_iff, mem_dedup]
    exact sound.mem_firstActions found
  have nodup : (order firsts.dedup).Nodup := (perm _).nodup_iff.mpr (nodup_dedup _)
  have described : (s.addCondition sp.name sp.block).data.get? sp.name = some sp.block :=
    (Dict.get?_set _ _ _ _).trans (if_pos rfl)
  refine ⟨order firsts.dedup, fun x => !(s.addCondition sp.name sp.block).receives x, nodup, mem, ?_, ?_, ?_⟩
  · show (!(s.addCondition sp.name sp.block).receives sp.name) = true
    rw [Actions.receives_of_block described rfl]
    rfl
  · intro x ne
    exact congrArg _ (Actions.receives_addCondition ne)
  · rw [← same]
    apply foldlM_place nodup ⟨⟨_, described, rfl⟩, _⟩ _ rfl rfl _ (fun _ _ => rfl) done
    · rw [same]
      exact fresh
    · rw [same]
      exact sound
    · intro x listed
      rw [same]
      obtain ⟨t, path⟩ := (mem x).mp listed
      exact sound.body_of_mem sound.start path mem_cons_self

section

variable {D : Type} {order : List String → List String} {fuel : Nat} {s : Scenario} {sp : Savepoint}
  {p q : Process D}

/-- The savepoint of a scenario is executed once, and before everything else, if and only if no
execution of the scenario has an action of its name, or after the first action one with which an
execution can start. -/
theorem processFromScenario_savepointFirst (perm : ∀ names, (order names).Perm names)
    (sound : s.actions.flow.IsSound) (savepoint : s.savepoint = some sp)
    (built : processFromScenario order fuel s p = some q) :
    SavepointFirst s.actions sp.name q.flow ↔ ∀ w ∈ s.actions.flow.beginnings,
      sp.name ∉ w ∧ ∀ x ∈ w.tail, [x] ∉ s.actions.flow.beginnings := by
  rw [processFromScenario, savepoint] at built
  obtain ⟨r, inserted, rfl⟩ := map_eq_some_iff.mp built
  obtain ⟨names, keep, nodup, firsts, own, kept, rewrites⟩ := insertSavepoint_spec perm sound inserted
  have head : ∀ {x w}, x :: w ∈ s.actions.flow.beginnings → x ∈ names := by
    intro x w mem
    apply (firsts x).mpr
    exact Lts.mem_beginnings_of_prefix ((prefix_cons_inj x).mpr List.nil_prefix) mem
  constructor
  · intro first w mem
    have once : (placedAll keep sp.name names w).count sp.name ≤ 1 := by
      obtain none | ⟨u, -, same, absent⟩ := first.beginnings _ (rewrites.image w mem)
      · rw [none]
        exact Nat.zero_le _
      · rw [same, count_cons_self, count_eq_zero_of_not_mem absent]
    have enough := (le_count_placedAll nodup own w).trans once
    cases w with
    | nil => exact ⟨not_mem_nil, nofun⟩
    | cons x w =>
      rw [countP_cons, if_pos (by simpa using head mem)] at enough
      constructor
      · intro mem
        have := count_pos_iff.mpr mem
        omega
      · intro y later start
        have : 0 < w.countP (· ∈ names) :=
          countP_pos_iff.mpr ⟨y, later, by simpa using (firsts y).mpr start⟩
        omega
  · intro condition
    have fresh : sp.name ∉ names := by
      intro mem
      exact (condition _ ((firsts _).mp mem)).1 mem_cons_self
    have placed : ∀ {x w}, x :: w ∈ s.actions.flow.beginnings →
        placedAll keep sp.name names (x :: w) = sp.name :: s.actions.unreceived (x :: w) ∧
          sp.name ∉ s.actions.unreceived (x :: w) := by
      intro x w mem
      obtain ⟨absent, later⟩ := condition _ mem
      constructor
      · rw [placedAll_cons nodup fresh (head mem), kept x (fun same => absent (same ▸ mem_cons_self)),
          Actions.unreceived]
        · cases s.actions.receives x <;> rfl
        · intro name listed mem
          exact later name mem ((firsts name).mp listed)
      · intro mem
        exact absent (s.actions.unreceived_subset _ mem)
    constructor
    · intro v mem
      rw [show (p.withActions r).flow = r.flow from rfl, rewrites.executions] at mem
      obtain ⟨w, ⟨t, path, ends⟩, rfl⟩ := mem
      cases w with
      | nil => exact absurd ends (sound.work_ne_nil (cons_ne_nil _ _) sound.start path)
      | cons x w => exact ⟨x :: w, ⟨t, path, ends⟩, placed ⟨t, path⟩⟩
    · intro v reached
      obtain ⟨w, mem, le⟩ := rewrites.beginnings v reached
      cases w with
      | nil =>
        rw [placedAll_of_disjoint (fun _ _ => not_mem_nil)] at le
        exact .inl (prefix_nil.mp le)
      | cons x w =>
        obtain ⟨same, absent⟩ := placed mem
        rw [same] at le
        cases v with
        | nil => exact .inl rfl
        | cons y v =>
          obtain ⟨rfl, rest⟩ := cons_prefix_cons.mp le
          obtain ⟨u, part, rfl⟩ := s.actions.exists_unreceived rest
          refine .inr ⟨u, Lts.mem_beginnings_of_prefix part mem, rfl, ?_⟩
          exact fun mem => absent (rest.subset mem)

end

/-! ### A loop of jumps -/

/-- A description without details. -/
def describe (kind : Kind) (action : Option BaseAction) : Action :=
  ⟨kind, "", [], [], [], action, false, [], .none, .none⟩

/-- The subprocess `<run>.({loop} | <stop>)`. -/
def loopBody : BaseAction :=
  .concatenation [.behaviour ⟨1, "run", .block, none⟩,
    .choice [.behaviour ⟨2, "loop", .subprocess, none⟩, .behaviour ⟨3, "stop", .block, none⟩]]

/-- The scenario `{loop}` with a savepoint. -/
def looping : Scenario where
  name := some "save"
  savepoint := some ⟨"save", "drivers/looper", none, ["prepare();"], .none, .none⟩
  actions := ⟨.concatenation [.behaviour ⟨0, "loop", .subprocess, none⟩],
    ⟨[("loop", describe .subprocess (some loopBody)), ("run", describe .block none),
      ("stop", describe .block none)], by decide⟩⟩

def looper : Process String where
  category := some "drivers"
  name := "looper"
  comment := ""
  headers := []
  labels := .empty
  initial := looping.actions.initial
  actions := looping.actions.data
  declarations := .empty
  definitions := .empty
  peers := .empty

/-- `loop` with the savepoint. -/
def savedBody : BaseAction :=
  .concatenation [.behaviour ⟨0, "save", .block, none⟩, .behaviour ⟨1, "run", .block, none⟩,
    .choice [.behaviour ⟨2, "loop", .subprocess, none⟩, .behaviour ⟨3, "stop", .block, none⟩]]

/-- The process that is built from the scenario. -/
def looped : Process String := looper.withActions
  ⟨looping.actions.initial, ⟨[("loop", describe .subprocess (some savedBody)), ("run", describe .block none),
      ("stop", describe .block none),
      ("save", ⟨.block, "Save point 'save'", [], ["prepare();"], [], none, true, [], .none, .none⟩)],
      by decide⟩⟩

theorem processFromScenario_looping : processFromScenario id 2 looping looper = some looped := by
  decide +kernel

/-- The savepoint is executed again each time the loop jumps back. -/
theorem processFromScenario_looping_repeats : ∃ q, processFromScenario id 2 looping looper = some q ∧
    ["save", "run", "save"] ∈ q.flow.beginnings ∧
    ¬ SavepointFirst looping.actions "save" q.flow := by
  have mem : ["save", "run", "save"] ∈ looped.flow.beginnings := by
    refine ⟨⟨[.behaviour ⟨1, "run", .block, none⟩, .choice [.behaviour ⟨2, "loop", .subprocess, none⟩,
      .behaviour ⟨3, "stop", .block, none⟩]], [⟨2, "loop", .subprocess, none⟩,
      ⟨0, "loop", .subprocess, none⟩]⟩, .silent (.concatenation _ _ _) ?_⟩
    refine .silent (.jump _ rfl rfl nofun) ?_
    refine .silent (.concatenation _ _ _) ?_
    refine Flow.path_action (by decide) ?_
    refine Flow.path_action (by decide) ?_
    refine .silent (.choice _ _ mem_cons_self) ?_
    refine .silent (.jump _ rfl rfl nofun) ?_
    refine .silent (.concatenation _ _ _) ?_
    exact Flow.path_action (by decide) (.refl _)
  refine ⟨looped, processFromScenario_looping, mem, ?_⟩
  intro first
  obtain none | ⟨w, -, same, absent⟩ := first.beginnings _ mem
  · cases none
  · obtain ⟨-, rest⟩ := List.cons.inj same
    rw [← rest] at absent
    exact absent (by decide)

/-- A scenario without jumps: `<run>.<stop>`. -/
def straight : Scenario where
  name := some "save"
  savepoint := looping.savepoint
  actions := ⟨.concatenation [.behaviour ⟨1, "run", .block, none⟩, .behaviour ⟨3, "stop", .block, none⟩],
    ⟨[("run", describe .block none), ("stop", describe .block none)], by decide⟩⟩

theorem straight_isSound : straight.actions.flow.IsSound := by
  constructor
  · refine .concatenation (cons_ne_nil _ _) (forall_mem_cons.mpr ⟨.action (by decide) rfl, ?_⟩)
    exact forall_mem_singleton.mpr (.action (by decide) rfl)
  · intro name body entry
    obtain ⟨a, found, action⟩ := bind_eq_some_iff.mp entry
    have mem := Dict.mem_items_iff.mpr found
    simp only [straight, mem_cons, Prod.mk.injEq, not_mem_nil, or_false] at mem
    obtain ⟨-, rfl⟩ | ⟨-, rfl⟩ := mem
    · cases action
    · cases action

theorem straight_beginnings {w : List String} (mem : w ∈ straight.actions.flow.beginnings) :
    w = [] ∨ w = ["run"] ∨ w = ["run", "stop"] := by
  obtain ⟨t, path⟩ := mem
  cases path with
  | refl => exact .inl rfl
  | step move rest =>
    cases move
    have part : _ <+: List.map Behaviour.name [⟨1, "run", .block, none⟩, ⟨3, "stop", .block, none⟩] :=
      Flow.prefix_of_path_behaviours (by decide) rest
    exact (by simpa using (mem_inits _ _).mpr part)

/-- The savepoint is executed first in a scenario without jumps. -/
theorem processFromScenario_straight_savepointFirst : ∃ q, processFromScenario id 1 straight looper = some q ∧
    SavepointFirst straight.actions "save" q.flow := by
  have succeeds : (processFromScenario id 1 straight looper).isSome := by decide +kernel
  obtain ⟨q, built⟩ := isSome_iff_exists.mp succeeds
  refine ⟨q, built, (processFromScenario_savepointFirst (fun _ => .refl _) straight_isSound rfl built).mpr ?_⟩
  intro w mem
  have later : ["stop"] ∉ straight.actions.flow.beginnings := by
    intro mem
    simpa using straight_beginnings mem
  obtain rfl | rfl | rfl := straight_beginnings mem
  · exact ⟨not_mem_nil, nofun⟩
  · exact ⟨by decide, nofun⟩
  · exact ⟨by decide, forall_mem_singleton.mpr later⟩

end Collection

end Klever.Emg
