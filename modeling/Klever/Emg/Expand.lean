import Klever.Emg.Flow

/-!
# Rewriting behaviours in trees

Each behaviour of a tree is rewritten to a sequence of behaviours: in a sequence the new ones stand
where the old one stood, elsewhere they become a sequence of their own if there are several. The
executions of the rewritten trees are the executions of the old ones with each action rewritten
(`Expands.executions`), and a run of the rewritten trees that breaks off is a beginning of such a one
(`Expands.beginnings`).
-/

namespace Klever.Emg

open Klever.Lib List Option
open Process (Position)

/-- Several behaviours in the place of one. -/
def joined : List Behaviour → BaseAction
  | [b] => .behaviour b
  | bs => .concatenation (bs.map .behaviour)

mutual

/-- A tree with each of its behaviours rewritten. -/
def BaseAction.expand (e : Behaviour → List Behaviour) : BaseAction → BaseAction
  | .behaviour b => joined (e b)
  | .parentheses child => .parentheses (child.expand e)
  | .concatenation children => .concatenation (expandSequence e children)
  | .choice children => .choice (expandEach e children)

def expandSequence (e : Behaviour → List Behaviour) : List BaseAction → List BaseAction
  | [] => []
  | .behaviour b :: rest => (e b).map .behaviour ++ expandSequence e rest
  | t :: rest => t.expand e :: expandSequence e rest

def expandEach (e : Behaviour → List Behaviour) : List BaseAction → List BaseAction
  | [] => []
  | t :: rest => t.expand e :: expandEach e rest

end

theorem expandEach_eq_map (e : Behaviour → List Behaviour) (trees : List BaseAction) :
    expandEach e trees = trees.map (·.expand e) := by
  induction trees with
  | nil => rfl
  | cons t rest ih => rw [expandEach, ih, map_cons]

namespace Flow

/-- The trees without empty operators, where each jump goes to some tree, a number is positive, and
no other behaviour has the name of a jump. -/
inductive Sound (f : Flow) : BaseAction → Prop
  | action {b} : b.kind ≠ .subprocess → f.body b.name = none → Sound f (.behaviour b)
  | jump {b body} : b.kind = .subprocess → f.body b.name = some body → b.Admits [] → Sound f (.behaviour b)
  | parentheses {child} : Sound f child → Sound f (.parentheses child)
  | concatenation {children} : children ≠ [] → (∀ c ∈ children, Sound f c) → Sound f (.concatenation children)
  | choice {children} : children ≠ [] → (∀ c ∈ children, Sound f c) → Sound f (.choice children)

structure IsSound (f : Flow) : Prop where
  initial : f.Sound f.initial
  body : ∀ {name body}, f.body name = some body → f.Sound body

/-- All trees with their behaviours rewritten. -/
def expand (e : Behaviour → List Behaviour) (f : Flow) : Flow :=
  ⟨f.initial.expand e, fun name => (f.body name).map (·.expand e)⟩

/-- Jumps stay as they are, and the name of any other behaviour says to which actions it is
rewritten. -/
structure Expands (f : Flow) (e : Behaviour → List Behaviour) (tr : String → List String) :
    Prop where
  jump : ∀ b, f.body b.name ≠ none → e b = [b]
  nonempty : ∀ b, e b ≠ []
  action : ∀ b, f.body b.name = none → ∀ c ∈ e b, f.body c.name = none
  kind : ∀ b, b.kind ≠ .subprocess → ∀ c ∈ e b, c.kind ≠ .subprocess
  names : ∀ b, b.kind ≠ .subprocess → (e b).map Behaviour.name = tr b.name

/-- The trees that are left to execute, before and after rewriting: the behaviours for a behaviour
are a tree or stand in the sequence themselves. -/
inductive Shown (e : Behaviour → List Behaviour) : List BaseAction → List BaseAction → Prop
  | nil : Shown e [] []
  | tree (t : BaseAction) {rest rest'} : Shown e rest rest' → Shown e (t :: rest) (t.expand e :: rest')
  | spread (b : Behaviour) {rest rest'} : Shown e rest rest' →
      Shown e (.behaviour b :: rest) ((e b).map .behaviour ++ rest')

theorem shown_expandSequence (e : Behaviour → List Behaviour) (trees : List BaseAction) :
    Shown e trees (expandSequence e trees) := by
  induction trees with
  | nil => exact .nil
  | cons t rest ih =>
    cases t with
    | behaviour b => exact .spread b ih
    | parentheses child => exact .tree _ ih
    | concatenation children => exact .tree _ ih
    | choice children => exact .tree _ ih

theorem Shown.append {e : Behaviour → List Behaviour} {as as' bs bs' : List BaseAction}
    (first : Shown e as as') (second : Shown e bs bs') : Shown e (as ++ bs) (as' ++ bs') := by
  induction first with
  | nil => exact second
  | tree t _ ih => exact .tree t ih
  | spread b _ ih =>
    rw [append_assoc]
    exact .spread b ih

variable {f : Flow} {e : Behaviour → List Behaviour} {tr : String → List String} {s t : Position}

/-- The steps lead from sound trees to sound trees. -/
theorem IsSound.move (sound : f.IsSound) {l : Option String} (works : ∀ tree ∈ s.work, f.Sound tree)
    (move : f.Move s l t) :
    ∀ tree ∈ t.work, f.Sound tree := by
  cases move with
  | action rest taken kind => exact (forall_mem_cons.mp works).2
  | jump rest kind entry admits =>
    exact forall_mem_singleton.mpr (sound.body entry)
  | parentheses child rest taken =>
    obtain ⟨first, others⟩ := forall_mem_cons.mp works
    cases first with
    | parentheses child => exact forall_mem_cons.mpr ⟨child, others⟩
  | concatenation children rest taken =>
    obtain ⟨first, others⟩ := forall_mem_cons.mp works
    cases first with
    | concatenation _ children => exact forall_mem_append.mpr ⟨children, others⟩
  | choice rest taken mem =>
    obtain ⟨first, others⟩ := forall_mem_cons.mp works
    cases first with
    | choice _ children => exact forall_mem_cons.mpr ⟨children _ mem, others⟩

variable {w : List String}

theorem IsSound.path (sound : f.IsSound) (works : ∀ tree ∈ s.work, f.Sound tree) (path : f.lts.Path s w t) :
    ∀ tree ∈ t.work, f.Sound tree := by
  induction path with
  | refl => exact works
  | step move _ ih => exact ih (sound.move works move)

theorem IsSound.start (sound : f.IsSound) : ∀ tree ∈ f.start.work, f.Sound tree :=
  forall_mem_singleton.mpr sound.initial

/-- No jump has the name of an action that is executed. -/
theorem IsSound.body_of_mem (sound : f.IsSound) (works : ∀ tree ∈ s.work, f.Sound tree)
    (path : f.lts.Path s w t) {x : String} (mem : x ∈ w) :
    f.body x = none := by
  induction path with
  | refl => cases mem
  | step move _ ih =>
    obtain here | mem := mem_append.mp mem
    · cases move with
      | @action b rest taken kind =>
        cases mem_singleton.mp here
        cases works _ mem_cons_self with
        | action _ alone => exact alone
        | jump jump => exact absurd jump kind
      | _ => cases here
    · exact ih (sound.move works move) mem

/-- An execution does not end before an action is executed. -/
theorem IsSound.work_ne_nil (sound : f.IsSound) (nonempty : s.work ≠ []) (works : ∀ tree ∈ s.work, f.Sound tree)
    (path : f.lts.Path s [] t) : t.work ≠ [] := by
  generalize silent : ([] : List String) = w at path
  induction path with
  | refl => exact nonempty
  | step move _ ih =>
    have later := sound.move works move
    cases move with
    | action => cases silent
    | jump => exact ih (cons_ne_nil _ _) later silent
    | parentheses => exact ih (cons_ne_nil _ _) later silent
    | choice => exact ih (cons_ne_nil _ _) later silent
    | concatenation children rest taken =>
      cases works _ mem_cons_self with
      | concatenation some _ =>
        exact ih (fun none => some (append_eq_nil_iff.mp none).1) later silent

/-- Actions in a row are executed one after another. -/
theorem path_behaviours {bs : List Behaviour} (actions : ∀ b ∈ bs, b.kind ≠ .subprocess)
    (rest : List BaseAction) (taken : List Behaviour) :
    f.lts.Path ⟨bs.map .behaviour ++ rest, taken⟩ (bs.map Behaviour.name) ⟨rest, taken⟩ := by
  induction bs with
  | nil => exact .refl _
  | cons b bs ih =>
    obtain ⟨kind, others⟩ := forall_mem_cons.mp actions
    exact path_action kind (ih others)

/-- Nothing else is executed while they last. -/
theorem prefix_of_path_behaviours {bs : List Behaviour} (actions : ∀ b ∈ bs, b.kind ≠ .subprocess)
    {taken : List Behaviour} {w : List String} {t : Position} (path : f.lts.Path ⟨bs.map .behaviour, taken⟩ w t) :
    w <+: bs.map Behaviour.name := by
  induction bs generalizing w with
  | nil =>
    cases path with
    | refl => exact prefix_rfl
    | step move _ => cases move
  | cons b bs ih =>
    obtain ⟨kind, others⟩ := forall_mem_cons.mp actions
    cases path with
    | refl => exact nil_prefix
    | step move rest =>
      cases move with
      | action => exact (prefix_cons_inj _).mpr (ih others rest)
      | jump _ jump => exact absurd jump kind

/-- Behaviours in the place of one behave as in a sequence. -/
theorem path_joined (bs : List Behaviour) (rest : List BaseAction) (taken : List Behaviour) :
    f.lts.Path ⟨joined bs :: rest, taken⟩ [] ⟨bs.map .behaviour ++ rest, taken⟩ := by
  unfold joined
  split
  next b => exact .refl _
  next => exact (Move.concatenation _ rest taken).silent

namespace Expands

variable {work' : List BaseAction} {s : Position} {l : Option String} {n : Position}

/-- What a behaviour has become can be executed as a sequence. -/
theorem path_shown (b : Behaviour) {rest : List BaseAction} (shown : Shown e (.behaviour b :: rest) work')
    (taken : List Behaviour) :
    ∃ rest', Shown e rest rest' ∧ (f.expand e).lts.Path ⟨work', taken⟩ [] ⟨(e b).map .behaviour ++ rest', taken⟩ := by
  cases shown with
  | @tree _ _ rest' shown => exact ⟨rest', shown, path_joined (e b) rest' taken⟩
  | @spread _ _ rest' shown => exact ⟨rest', shown, .refl _⟩

/-- A step is followed after rewriting. -/
theorem forward_step (expands : f.Expands e tr) (move : f.Move s l t) (shown : Shown e s.work work') :
    ∃ next', (f.expand e).lts.Path ⟨work', s.taken⟩ (l.toList.flatMap tr) ⟨next', t.taken⟩ ∧ Shown e t.work next' := by
  cases move with
  | @action b rest taken kind =>
    obtain ⟨rest', shown, first⟩ := path_shown b shown taken
    refine ⟨rest', ?_, shown⟩
    have path := first.trans (path_behaviours (expands.kind b kind) rest' taken)
    rw [expands.names b kind] at path
    simpa using path
  | @jump b body taken rest kind entry admits =>
    obtain ⟨rest', -, first⟩ := path_shown b shown taken
    refine ⟨[body.expand e], ?_, .tree body .nil⟩
    have stays : e b = [b] := expands.jump b (by simp [entry])
    rw [stays] at first
    have there : (f.expand e).body b.name = some (body.expand e) := by
      show (f.body b.name).map _ = _
      rw [entry]
      rfl
    exact first.trans (Move.jump rest' kind there admits).silent
  | parentheses child rest taken =>
    cases shown with
    | tree _ shown => exact ⟨_, (Move.parentheses _ _ taken).silent, .tree child shown⟩
  | concatenation children rest taken =>
    cases shown with
    | tree _ shown =>
      refine ⟨_, (Move.concatenation _ _ taken).silent, ?_⟩
      exact (shown_expandSequence e children).append shown
  | @choice c children rest taken mem =>
    cases shown with
    | tree _ shown =>
      refine ⟨_, (Move.choice _ taken ?_).silent, .tree c shown⟩
      rw [expandEach_eq_map]
      exact List.mem_map_of_mem mem

theorem forward (expands : f.Expands e tr) (path : f.lts.Path s w t) (shown : Shown e s.work work') :
    ∃ next', (f.expand e).lts.Path ⟨work', s.taken⟩ (w.flatMap tr) ⟨next', t.taken⟩ ∧ Shown e t.work next' := by
  induction path generalizing work' with
  | refl s => exact ⟨work', .refl _, shown⟩
  | step move _ ih =>
    obtain ⟨mid', first, shown⟩ := expands.forward_step move shown
    obtain ⟨next', second, shown⟩ := ih shown
    refine ⟨next', ?_, shown⟩
    rw [flatMap_append]
    exact first.trans second

/-- Where a run through the rewritten trees has got: some of the actions for a behaviour that the
old run has executed are still to come. -/
structure Behind (e : Behaviour → List Behaviour) (s n : Position) (pending : List Behaviour) :
    Prop where
  actions : ∀ c ∈ pending, c.kind ≠ .subprocess
  work : ∃ work', Shown e s.work work' ∧ n = ⟨pending.map .behaviour ++ work', s.taken⟩

theorem Behind.of_shown (shown : Shown e s.work work') : Behind e s ⟨work', s.taken⟩ [] :=
  ⟨nofun, work', shown, rfl⟩

section Backward

variable (expands : f.Expands e tr)

include expands

/-- A step that executes a behaviour or, after rewriting, the first one of those for it. -/
theorem backward_spread {b : Behaviour} (sound : f.Sound (.behaviour b))
    {rest rest' : List BaseAction} (shown : Shown e rest rest') {taken : List Behaviour}
    (move : (f.expand e).Move ⟨(e b).map .behaviour ++ rest', taken⟩ l n) :
    ∃ w t pending, f.lts.Path ⟨.behaviour b :: rest, taken⟩ w t ∧ Behind e t n pending ∧
      w.flatMap tr = l.toList ++ pending.map Behaviour.name := by
  cases sound with
  | @action _ kind alone =>
    have kinds := expands.kind b kind
    have names := expands.names b kind
    have nonempty := expands.nonempty b
    generalize e b = bs at move kinds names nonempty
    cases bs with
    | nil => exact absurd rfl nonempty
    | cons c cs =>
      obtain ⟨first, others⟩ := forall_mem_cons.mp kinds
      cases move with
      | action _ _ _ =>
        refine ⟨[b.name], ⟨rest, taken⟩, cs, .single (A := f.lts) (Move.action rest taken kind), ?_, ?_⟩
        · exact ⟨others, rest', shown, rfl⟩
        · rw [flatMap_singleton, ← names]
          rfl
      | jump _ jump => exact absurd jump first
  | @jump _ body kind entry _ =>
    have stays : e b = [b] := expands.jump b (by simp [entry])
    rw [stays] at move
    cases move with
    | action _ _ action => exact absurd kind action
    | jump _ _ there admits =>
      have there : (f.body b.name).map (·.expand e) = _ := there
      rw [entry] at there
      cases there
      refine ⟨[], ⟨[body], b :: taken⟩, [], (Move.jump rest kind entry admits).silent, ?_, rfl⟩
      exact .of_shown (.tree body .nil)

/-- A step through the rewritten trees is followed by the old run. -/
theorem backward_step {n' : Position} {pending : List Behaviour}
    (sound : ∀ tree ∈ s.work, f.Sound tree) (behind : Behind e s n pending) (move : (f.expand e).Move n l n') :
    ∃ w t pending', f.lts.Path s w t ∧ Behind e t n' pending' ∧
      pending.map Behaviour.name ++ w.flatMap tr = l.toList ++ pending'.map Behaviour.name := by
  obtain ⟨actions, work', shown, rfl⟩ := behind
  cases pending with
  | cons c pending =>
    obtain ⟨first, others⟩ := forall_mem_cons.mp actions
    cases move with
    | action _ _ _ =>
      refine ⟨[], s, pending, .refl s, ⟨others, work', shown, rfl⟩, ?_⟩
      rw [flatMap_nil, append_nil]
      rfl
    | jump _ jump => exact absurd jump first
  | nil =>
    obtain ⟨work, taken⟩ := s
    cases shown with
    | nil => cases move
    | spread b shown => exact expands.backward_spread (sound _ mem_cons_self) shown move
    | @tree t rest rest' shown =>
      cases t with
      | behaviour b =>
        have move : (f.expand e).Move ⟨joined (e b) :: rest', taken⟩ l n' := move
        unfold joined at move
        split at move
        next c single =>
          apply expands.backward_spread (sound _ mem_cons_self) shown
          rw [single]
          exact move
        next =>
          cases move
          exact ⟨[], _, [], .refl _, .of_shown (.spread b shown), rfl⟩
      | parentheses child =>
        cases move
        exact ⟨[], _, [], (Move.parentheses child rest taken).silent, .of_shown (.tree child shown), rfl⟩
      | concatenation children =>
        cases move
        refine ⟨[], _, [], (Move.concatenation children rest taken).silent, .of_shown ?_, rfl⟩
        exact (shown_expandSequence e children).append shown
      | choice children =>
        cases move with
        | choice _ _ listed =>
          rw [expandEach_eq_map] at listed
          obtain ⟨c, mem, rfl⟩ := List.mem_map.mp listed
          exact ⟨[], _, [], (Move.choice rest taken mem).silent, .of_shown (.tree c shown), rfl⟩

theorem backward (sound : f.IsSound) {n' : Position} {v : List String}
    (path : (f.expand e).lts.Path n v n') {pending : List Behaviour} (works : ∀ tree ∈ s.work, f.Sound tree)
    (behind : Behind e s n pending) :
    ∃ w t pending', f.lts.Path s w t ∧ Behind e t n' pending' ∧
      pending.map Behaviour.name ++ w.flatMap tr = v ++ pending'.map Behaviour.name := by
  induction path generalizing s pending with
  | refl n => exact ⟨[], s, pending, .refl s, behind, append_nil _⟩
  | step move _ ih =>
    obtain ⟨w₁, t₁, pending₁, first, behind, labels₁⟩ := expands.backward_step works behind move
    obtain ⟨w₂, t₂, pending₂, second, behind, labels₂⟩ := ih (sound.path works first) behind
    refine ⟨w₁ ++ w₂, t₂, pending₂, first.trans second, behind, ?_⟩
    rw [flatMap_append, ← append_assoc, labels₁, append_assoc, labels₂, append_assoc]

theorem eq_nil_of_shown {work : List BaseAction} (shown : Shown e work []) : work = [] := by
  generalize empty : ([] : List BaseAction) = work' at shown
  cases shown with
  | nil => rfl
  | tree => cases empty
  | spread b =>
    have none := append_eq_nil_iff.mp empty.symm
    exact absurd (map_eq_nil_iff.mp none.1) (expands.nonempty b)

/-- The executions of the rewritten trees are the rewritten executions. -/
theorem executions (sound : f.IsSound) : (f.expand e).executions = (List.flatMap tr) '' f.executions := by
  apply Set.Subset.antisymm
  · intro v ⟨n, path, ends⟩
    obtain ⟨w, t, pending, run, behind, labels⟩ :=
      expands.backward sound path sound.start (.of_shown (.tree f.initial .nil))
    obtain ⟨-, work', shown, rfl⟩ := behind
    obtain ⟨done, rfl⟩ := append_eq_nil_iff.mp ends
    refine ⟨w, ⟨t, run, eq_nil_of_shown expands shown⟩, ?_⟩
    rw [map_eq_nil_iff.mp done] at labels
    simpa using labels
  · intro v ⟨w, ⟨t, path, ends⟩, same⟩
    cases same
    obtain ⟨next', run, shown⟩ := expands.forward path (.tree f.initial .nil)
    rw [ends] at shown
    cases shown
    exact ⟨_, run, rfl⟩

theorem beginnings_image (mem : w ∈ f.beginnings) : w.flatMap tr ∈ (f.expand e).beginnings := by
  obtain ⟨t, path⟩ := mem
  obtain ⟨next', run, -⟩ := expands.forward path (.tree f.initial .nil)
  exact ⟨_, run⟩

/-- A run through the rewritten trees is the beginning of a rewritten one. -/
theorem beginnings (sound : f.IsSound) {v : List String}
    (mem : v ∈ (f.expand e).beginnings) : ∃ w ∈ f.beginnings, v <+: w.flatMap tr := by
  obtain ⟨n, path⟩ := mem
  obtain ⟨w, t, pending, run, -, labels⟩ :=
    expands.backward sound path sound.start (.of_shown (.tree f.initial .nil))
  exact ⟨w, ⟨t, run⟩, pending.map Behaviour.name, labels.symm⟩

end Backward

/-! ### Rewritten trees are sound -/

theorem mem_expandSequence {trees : List BaseAction} {t : BaseAction} (mem : t ∈ expandSequence e trees) :
    (∃ c ∈ trees, t = c.expand e) ∨ ∃ b, .behaviour b ∈ trees ∧ ∃ c ∈ e b, t = .behaviour c := by
  induction trees with
  | nil => cases mem
  | cons first rest ih =>
    have later : t ∈ expandSequence e rest → (∃ c ∈ first :: rest, t = c.expand e) ∨
          ∃ b, .behaviour b ∈ first :: rest ∧ ∃ c ∈ e b, t = .behaviour c := by
      intro mem
      obtain ⟨c, mem, same⟩ | ⟨b, mem, rest⟩ := ih mem
      · exact .inl ⟨c, mem_cons_of_mem _ mem, same⟩
      · exact .inr ⟨b, mem_cons_of_mem _ mem, rest⟩
    cases first with
    | behaviour b =>
      obtain here | mem := mem_append.mp mem
      · obtain ⟨c, there, rfl⟩ := List.mem_map.mp here
        exact .inr ⟨b, mem_cons_self, c, there, rfl⟩
      · exact later mem
    | parentheses | concatenation | choice =>
      obtain same | mem := mem_cons.mp mem
      · exact .inl ⟨_, mem_cons_self, same⟩
      · exact later mem

variable (expands : f.Expands e tr)

include expands

theorem expandSequence_ne_nil {trees : List BaseAction} (nonempty : trees ≠ []) : expandSequence e trees ≠ [] := by
  intro empty
  apply nonempty
  exact eq_nil_of_shown expands (empty ▸ shown_expandSequence e trees)

theorem sound_behaviour {b c : Behaviour} (sound : f.Sound (.behaviour b)) (mem : c ∈ e b) :
    (f.expand e).Sound (.behaviour c) := by
  cases sound with
  | action kind alone =>
    refine .action (expands.kind b kind c mem) ?_
    show (f.body c.name).map _ = none
    rw [expands.action b alone c mem]
    rfl
  | @jump _ body kind entry admits =>
    rw [expands.jump b (by simp [entry])] at mem
    cases mem_singleton.mp mem
    refine @Sound.jump _ _ (body.expand e) kind ?_ admits
    show (f.body b.name).map _ = _
    rw [entry]
    rfl

theorem sound_expand {t : BaseAction} (sound : f.Sound t) : (f.expand e).Sound (t.expand e) := by
  have here : ∀ b, f.Sound (.behaviour b) → (f.expand e).Sound (BaseAction.expand e (.behaviour b)) := by
    intro b sound
    have each := fun c mem => expands.sound_behaviour (c := c) sound mem
    show (f.expand e).Sound (joined (e b))
    unfold joined
    split
    next c single => exact each c (by simp [single])
    next =>
      refine .concatenation (fun none => expands.nonempty b (map_eq_nil_iff.mp none)) ?_
      refine List.forall_mem_map.mpr fun c mem => ?_
      exact each c mem
  induction sound with
  | @action b kind alone => exact here b (.action kind alone)
  | @jump b _ kind entry admits => exact here b (.jump kind entry admits)
  | parentheses _ ih => exact .parentheses ih
  | concatenation nonempty each ih =>
    refine .concatenation (expands.expandSequence_ne_nil nonempty) ?_
    intro t listed
    obtain ⟨c, mem, rfl⟩ | ⟨b, mem, c, there, rfl⟩ := mem_expandSequence listed
    · exact ih c mem
    · exact expands.sound_behaviour (each _ mem) there
  | choice nonempty _ ih =>
    refine .choice ?_ ?_
    · rw [expandEach_eq_map]
      exact fun none => nonempty (map_eq_nil_iff.mp none)
    · intro t listed
      rw [expandEach_eq_map] at listed
      obtain ⟨c, mem, rfl⟩ := List.mem_map.mp listed
      exact ih c mem

theorem isSound (sound : f.IsSound) : (f.expand e).IsSound := by
  refine ⟨expands.sound_expand sound.initial, ?_⟩
  intro name body there
  obtain ⟨old, entry, rfl⟩ := map_eq_some_iff.mp there
  exact expands.sound_expand (sound.body entry)

end Expands

end Flow

end Klever.Emg
