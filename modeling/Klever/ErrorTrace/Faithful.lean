import Klever.Lib.Except
import Klever.ErrorTrace.Serialize

/-!
# Error trace trees are faithful

What `serialize` builds is compared with what the linear trace says: the placements in the tree, from left
to right and thread by thread, are those of the edges in their order.

New nodes are always appended behind all that is in their thread (`State.Leads`), so the order within each
thread is kept whatever other threads do. The paths that are kept lead to the open calls of threads
(`State.Shape`), and one edge after another is put where it belongs (`step_spec`). The pass fails or puts
something elsewhere if and only if an edge is not `Placeable`.
-/

namespace Klever.ErrorTrace

open Klever.Lib Klever.Lib.Nesting List Option State Rose

variable {H : Type} (highlight : String → Option String → H)

/-! ## Growing the tree -/

/-- What is placed by a walk. -/
abbrev walkFrom (context : Context) (t : Rose (Label H)) : List Placement :=
  walk Context.enter Context.visit context t

namespace State

variable {s s' : State H} {path path' : List Nat} {context context' : Context} {child : Rose (Label H)}

/-- Children of the node at a path are placed in the context, behind all that is in its thread. -/
def Leads (s : State H) (path : List Nat) (context : Context) : Prop :=
  ∃ tree node inner rear, s.trace = some tree ∧
    spot Context.enter Context.visit .outside path tree = some (node, inner, rear) ∧
    inner.enter node.label = context ∧ node.label.hasChildren ∧ ∀ x ∈ rear, x.thread ≠ context.thread

theorem Leads.node (leads : s.Leads path context) : ∃ node, s.node path = some node := by
  obtain ⟨tree, node, inner, rear, is, spot, -⟩ := leads
  exact ⟨node, by rw [State.node, is]; exact get?_of_spot spot⟩

theorem Leads.spot (leads : s.Leads path context) {node : Rose (Label H)} (found : s.node path = some node) :
    ∃ tree inner rear, s.trace = some tree ∧
      spot Context.enter Context.visit .outside path tree = some (node, inner, rear) ∧
      inner.enter node.label = context ∧ ∀ x ∈ rear, x.thread ≠ context.thread := by
  obtain ⟨tree, node', inner, rear, is, spot, around, -, behind⟩ := leads
  rw [State.node, is] at found
  cases (get?_of_spot spot).symm.trans found
  exact ⟨tree, inner, rear, is, spot, around, behind⟩

/-- The state with one more node. -/
def grow (s : State H) (path : List Nat) (child : Rose (Label H)) : State H :=
  { s with trace := s.trace.map (Rose.append child path) }

/-- What is placed in a thread. -/
def placedIn (s : State H) (thread : Option Nat) : List Placement := (placements s.trace).filter (·.thread = thread)

/-- Something is placed behind all that is in its thread. -/
def Puts (s s' : State H) (new : List Placement) : Prop :=
  ∀ thread, s'.placedIn thread = s.placedIn thread ++ new.filter (·.thread = thread)

theorem Puts.refl (s : State H) : Puts s s [] := fun _ => (append_nil _).symm

theorem Puts.trans {s'' : State H} {new new' : List Placement} (first : Puts s s' new) (second : Puts s' s'' new') :
    Puts s s'' (new ++ new') := by
  intro thread
  rw [second, first, filter_append, append_assoc]

section Growing

variable (leads : s.Leads path context)

include leads

theorem Leads.append (child : Rose (Label H)) : s.append path child = some (s.grow path child) := by
  obtain ⟨tree, node, inner, rear, is, spot, -, inner', -⟩ := leads
  rw [State.append, State.node, is]
  show (get? path tree).bind _ = _
  rw [get?_of_spot spot, bind_some, if_pos inner', grow, is]

theorem Leads.puts_grow (own : ∀ x ∈ walkFrom context child, x.thread = context.thread) :
    Puts s (s.grow path child) (walkFrom context child) := by
  intro thread
  obtain ⟨tree, node, inner, rear, is, spot, rfl, -, behind⟩ := leads
  obtain ⟨front, before, after⟩ := walk_append spot child
  rw [placedIn, placedIn, grow, is]
  show (Rose.walk Context.enter Context.visit .outside (Rose.append child path tree)).filter _ =
    (walk Context.enter Context.visit .outside tree).filter _ ++ _
  rw [before, after, filter_append, filter_append, filter_append]
  by_cases same : (inner.enter node.label).thread = thread
  · have none : rear.filter (·.thread = thread) = [] :=
      filter_eq_nil_iff.mpr fun x mem => by simpa [← same] using behind x mem
    rw [none, append_nil, append_nil]
  · have none : (walkFrom (inner.enter node.label) child).filter (·.thread = thread) = [] :=
      filter_eq_nil_iff.mpr fun x mem => by simpa [own x mem] using same
    rw [none, append_nil, append_nil]

/-- Paths to nodes above the one that grows. -/
theorem Leads.grow_below {below : List Nat} : (s.grow (path ++ below) child).Leads path context := by
  obtain ⟨tree, node, inner, rear, is, spot, around, inside, behind⟩ := leads
  refine ⟨Rose.append child (path ++ below) tree, Rose.append child below node, inner, rear, ?_,
    spot_append_below spot child below, ?_, ?_, behind⟩
  · rw [grow, is]
    rfl
  · rw [label_append, around]
  · rw [label_append, inside]

/-- Paths of other threads. -/
theorem Leads.grow_apart (other : s.Leads path' context')
    (apart : ∀ x ∈ walkFrom context child, x.thread ≠ context'.thread) :
    (s.grow path child).Leads path' context' := by
  obtain ⟨tree, node, inner, rear, is, spot, rfl, -, -⟩ := leads
  obtain ⟨tree', node', inner', rear', is', spot', around, inside, behind⟩ := other
  rw [is] at is'
  cases is'
  obtain ⟨node'', rear'', spot'', label, new⟩ := spot_append spot spot' child
  refine ⟨Rose.append child path tree, node'', inner', rear'', ?_, spot'', ?_, ?_, fun x mem => ?_⟩
  · rw [grow, is]
    rfl
  · rw [label, around]
  · rw [label, inside]
  · obtain old | new := new x mem
    · exact behind x old
    · exact apart x new

/-- The path to the new node, in the thread or in a new one. -/
theorem Leads.grow_child (inside : child.label.hasChildren)
    (thread : (context.enter child.label).thread = context.thread ∨
      ∀ x ∈ placements s.trace, x.thread ≠ (context.enter child.label).thread)
    {node : Rose (Label H)} (found : s.node path = some node) :
    (s.grow path child).Leads (path ++ [node.children.length]) (context.enter child.label) := by
  obtain ⟨tree, inner, rear, is, spot, rfl, behind⟩ := leads.spot found
  obtain ⟨label, children⟩ := node
  have grown := spot_append_below spot child []
  rw [append_nil] at grown
  refine ⟨_, child, inner.enter label, rear, by rw [grow, is]; rfl, ?_, rfl, inside, fun x mem => ?_⟩
  · exact Rose.spot_last grown (by simp [Rose.append, Rose.children]) (by simp [Rose.append, Rose.children])
  · obtain same | fresh := thread
    · rw [same]
      exact behind x mem
    · refine fresh x ?_
      obtain ⟨front, before, -⟩ := walk_append spot child
      rw [is]
      show x ∈ walk Context.enter Context.visit .outside tree
      rw [before]
      exact mem_append_right _ mem

/-- The path to the last child. -/
theorem Leads.last {node last : Rose (Label H)} (found : s.node path = some node)
    (is : node.children.getLast? = some last) (inside : last.label.hasChildren)
    (thread : (context.enter last.label).thread = context.thread) :
    s.lastChild path = some (path ++ [node.children.length - 1]) ∧
      s.Leads (path ++ [node.children.length - 1]) (context.enter last.label) := by
  obtain ⟨tree, inner, rear, tree_is, spot, rfl, behind⟩ := leads.spot found
  have some : node.children ≠ [] := fun none => by
    rw [none] at is
    cases is
  have length := length_pos_iff.mpr some
  refine ⟨?_, tree, last, inner.enter node.label, rear, tree_is, ?_, rfl, inside, fun x mem => ?_⟩
  · rw [lastChild, found, bind_some, if_neg (by simpa using some)]
  · refine spot_last spot ?_ (by omega)
    rw [← getLast?_eq_getElem?, is]
  · rw [thread]
    exact behind x mem

end Growing

end State

/-! ## The shape of the tree -/

namespace State

variable {s s' : State H} {path : List Nat} {context : Context} {child : Rose (Label H)} {thread : Nat}
  {calls calls' : Nat → List Nat}

/-- Nodes of a thread that still grow are above a path. -/
def Covers (s : State H) (thread : Nat) (path : List Nat) : Prop :=
  ∀ above, above ∈ s.stackOf thread ∨ s.threadNodes.get? thread = some above → above <+: path

/-- The paths that are kept: those of the open calls of threads, from the innermost on, and those of the
threads. -/
structure Shape (calls : Nat → List Nat) (s : State H) : Prop where
  stack : ∀ thread, List.Forall₂ (fun path call => s.Leads path ⟨some thread, some call, none, none⟩)
    (s.stackOf thread) (calls thread)
  node : ∀ thread path, s.threadNodes.get? thread = some path → s.Leads path ⟨some thread, none, none, none⟩
  chain : ∀ thread path, s.threadNodes.get? thread = some path →
    (s.stackOf thread ++ [path]).Pairwise fun upper lower => lower <+: upper
  known : ∀ thread, calls thread ≠ [] → (s.threadNodes.get? thread).isSome
  placed : ∀ x ∈ placements s.trace, ∃ thread, x.thread = some thread ∧ (s.threadNodes.get? thread).isSome

variable {call : Nat} {rest : List Nat}

theorem get?_of_stackOf {path : List Nat} {below : List (List Nat)} (opened : s.stackOf thread = path :: below) :
    s.callStacks.get? thread = some (path :: below) := by
  unfold stackOf at opened
  cases found : s.callStacks.get? thread with
  | none =>
    rw [found] at opened
    cases opened
  | some paths =>
    rw [found] at opened
    exact congrArg some opened

theorem stackOf_set {stack : List (List Nat)} {other : Nat} :
    stackOf { s with callStacks := s.callStacks.set thread stack } other =
      if other = thread then stack else s.stackOf other := by
  unfold stackOf
  rw [Dict.get?_set]
  split <;> rfl

namespace Shape

/-- Paths are kept when something is put below all nodes of its thread that still grow. -/
theorem grow (shape : Shape calls s) (leads : s.Leads path context) (its : context.thread = some thread)
    (covers : s.Covers thread path) (known : (s.threadNodes.get? thread).isSome) {new : List Placement}
    (walks : walkFrom context child = new) (own : ∀ x ∈ new, x.thread = some thread) :
    Shape calls (s.grow path child) ∧ Puts s (s.grow path child) new := by
  subst walks
  rw [← its] at own
  have keeps {other : Nat} {above : List Nat} {around : Context} (there : s.Leads above around)
      (its' : around.thread = some other)
      (recorded : above ∈ s.stackOf other ∨ s.threadNodes.get? other = some above) :
      (s.grow path child).Leads above around := by
    by_cases same : other = thread
    · subst same
      obtain ⟨below, rfl⟩ := covers above recorded
      exact there.grow_below
    · refine leads.grow_apart there fun x mem is => same ?_
      rw [own x mem, its, its', some.injEq] at is
      exact is.symm
  refine ⟨⟨fun other => ?_, fun other above found => ?_, shape.chain, shape.known, fun x mem => ?_⟩,
    leads.puts_grow own⟩
  · refine forall₂_iff_get.mpr ⟨(shape.stack other).length_eq, fun i lt lt' => ?_⟩
    exact keeps ((forall₂_iff_get.mp (shape.stack other)).2 i lt lt') rfl (.inl (List.get_mem _ _))
  · exact keeps (shape.node other above found) rfl (.inr found)
  · obtain ⟨tree, node, inner, rear, is, spot, rfl, -⟩ := leads
    rw [grow, is] at mem
    obtain old | new := mem_walk_append spot mem
    · refine shape.placed x ?_
      rw [is]
      exact old
    · exact ⟨thread, (own x new).trans its, known⟩

theorem stackOf_eq_nil (shape : Shape calls s) : s.stackOf thread = [] ↔ calls thread = [] := by
  rw [← length_eq_zero_iff, ← length_eq_zero_iff, (shape.stack thread).length_eq]

/-- The innermost open call. -/
theorem top (shape : Shape calls s) (is : calls thread = call :: rest) :
    ∃ path, s.top thread = some path ∧ s.Leads path ⟨some thread, some call, none, none⟩ ∧ s.Covers thread path := by
  have stack := shape.stack thread
  rw [is] at stack
  cases opened : s.stackOf thread with
  | nil =>
    rw [opened] at stack
    cases stack
  | cons path below =>
    rw [opened] at stack
    cases stack with
    | cons leads _ =>
      have top : s.top thread = some path := by
        rw [State.top, get?_of_stackOf opened]
        rfl
      refine ⟨path, top, leads, fun above recorded => ?_⟩
      obtain ⟨node, found⟩ := isSome_iff_exists.mp (shape.known thread (by simp [is]))
      have chain := shape.chain thread node found
      rw [opened, cons_append, pairwise_cons] at chain
      obtain mem | mem := recorded
      · rw [opened] at mem
        obtain rfl | mem := mem_cons.mp mem
        · exact prefix_rfl
        · exact chain.1 above (mem_append_left _ mem)
      · rw [found] at mem
        cases mem
        exact chain.1 above (by simp)

end Shape

/-- The action of an edge is the last child of the innermost open call. -/
def ActionReady (et : Trace) (s : State H) (edge : Edge) : Prop :=
  ∀ display, et.displayOf edge = some display → ∃ path node, s.top edge.thread = some path ∧
    s.node path = some node ∧ isAction display node.children.getLast? = true

theorem isAction_iff {display : String} {node : Option (Rose (Label H))} : isAction display node = true ↔
    ∃ file line relevant children, node = some (.node (.action file line display relevant) children) := by
  unfold isAction
  split
  next file line display' relevant children =>
    simp only [decide_eq_true_eq, some.injEq, node.injEq, Label.action.injEq]
    constructor
    · rintro rfl
      exact ⟨file, line, relevant, children, ⟨rfl, rfl, rfl, rfl⟩, rfl⟩
    · rintro ⟨_, _, _, _, ⟨_, _, is, _⟩, _⟩
      exact is.symm
  next other =>
    simp only [Bool.false_eq_true, false_iff, not_exists]
    rintro file line relevant children rfl
    exact other _ _ _ _ _ rfl

/-- An edge has an action if and only if the action has a name. -/
theorem displayOf_isSome {et : Trace} {edge : Edge} (mem : edge ∈ et.edges) :
    (et.displayOf edge).isSome = edge.action.isSome := by
  unfold Trace.displayOf
  cases is : edge.action with
  | none => rfl
  | some action =>
    rw [bind_some, getElem?_eq_getElem (et.actions_known edge mem action is)]
    rfl

/-- Where the node of an edge is put. -/
theorem Shape.target (shape : Shape calls s) {et : Trace} {edge : Edge} (mem : edge ∈ et.edges)
    (is : calls edge.thread = call :: rest) (ready : ActionReady et s edge) : ∃ path, s.target edge = some path ∧
      s.Leads path ⟨some edge.thread, some call, et.displayOf edge, none⟩ ∧ s.Covers edge.thread path := by
  obtain ⟨path, top, leads, covers⟩ := shape.top is
  rw [State.target, top, bind_some]
  have has := displayOf_isSome mem
  cases named : et.displayOf edge with
  | none =>
    rw [named] at has
    rw [if_neg (by simp [← has])]
    exact ⟨path, rfl, leads, covers⟩
  | some display =>
    rw [named] at has
    rw [if_pos (by rw [← has]; rfl)]
    obtain ⟨path', node, top', found, action⟩ := ready display named
    rw [top] at top'
    cases top'
    obtain ⟨file, line, relevant, children, last⟩ := isAction_iff.mp action
    obtain ⟨child, leads'⟩ := leads.last found last rfl rfl
    exact ⟨_, child, leads', fun above recorded => (covers above recorded).trans (prefix_append _ _)⟩

/-- Only the tree changes. -/
structure Grown (s s' : State H) : Prop where
  threadNodes : s'.threadNodes = s.threadNodes
  callStacks : s'.callStacks = s.callStacks
  prevThread : s'.prevThread = s.prevThread
  declarations : s'.declarations = s.declarations
  trace : s'.trace = none ↔ s.trace = none

theorem Grown.refl (s : State H) : Grown s s := ⟨rfl, rfl, rfl, rfl, Iff.rfl⟩

theorem grown_grow (s : State H) (path : List Nat) (child : Rose (Label H)) : Grown s (s.grow path child) :=
  ⟨rfl, rfl, rfl, rfl, by simp [grow]⟩

theorem Leads.node_grow (leads : s.Leads path context) {label : Label H} {children : List (Rose (Label H))}
    (found : s.node path = some (.node label children)) :
    (s.grow path child).node path = some (.node label (children ++ [child])) := by
  obtain ⟨tree, inner, rear, is, spot, -⟩ := leads.spot found
  have grown := get?_of_spot (spot_append_below spot child [])
  rw [append_nil] at grown
  rw [State.node, grow, is]
  exact grown

/-- After its action is added, an edge has it at hand. -/
theorem Shape.addAction (shape : Shape calls s) {et : Trace} {edge : Edge} (mem : edge ∈ et.edges)
    (is : calls edge.thread = call :: rest) :
    ∃ s', s.addAction et edge = some s' ∧ Grown s s' ∧ Shape calls s' ∧ ActionReady et s' edge ∧ Puts s s' [] := by
  obtain ⟨path, top, leads, covers⟩ := shape.top is
  unfold State.addAction
  have has := displayOf_isSome mem
  cases action : edge.action with
  | none =>
    rw [action] at has
    refine ⟨s, rfl, .refl s, shape, fun display named => ?_, .refl s⟩
    rw [named] at has
    cases has
  | some action' =>
    have known := et.actions_known edge mem action' action
    have named : et.displayOf edge = some (et.actions[action']) := by
      rw [Trace.displayOf, action, bind_some, getElem?_eq_getElem known]
    obtain ⟨node, found⟩ := leads.node
    obtain ⟨label, children⟩ := node
    simp only [getElem?_eq_getElem known, bind_some, top, found]
    split
    next ready =>
      refine ⟨s, rfl, .refl s, shape, fun display named' => ?_, .refl s⟩
      rw [named] at named'
      cases named'
      exact ⟨path, _, top, found, ready⟩
    next =>
      obtain ⟨shape', puts⟩ := @Shape.grow _ _ _ _ (.node (.action edge.file edge.line et.actions[action']
        (et.callbackActions.contains action')) []) _ _ shape leads rfl covers (shape.known edge.thread (by simp [is]))
        [] rfl fun _ mem => absurd mem not_mem_nil
      refine ⟨_, leads.append _, grown_grow s path _, shape', fun display named' => ?_, puts⟩
      rw [named] at named'
      cases named'
      exact ⟨path, _, top, leads.node_grow found, isAction_iff.mpr ⟨_, _, _, _, getLast?_concat⟩⟩

end State

/-! ## One edge -/

variable {waiting : List Placement}

section Edges

variable (et : Trace) {s s' : State H} {position pos : Nat} {edge : Edge}

/-- The open calls of a thread before a position. -/
def openCalls (position thread : Nat) : List Nat :=
  ((stackAt (moves et.edges thread) position).getD []).map Prod.fst

theorem innermost_eq (thread : Nat) : innermost et.edges thread pos = (openCalls et pos thread).head? := by
  unfold innermost openCalls
  cases stackAt (moves et.edges thread) pos with
  | none => rfl
  | some calls => simp

/-- What an edge does to the open calls. -/
def moveCalls (edge : Edge) (position : Nat) (calls : List Nat) : List Nat :=
  match edge.enter, edge.ret with
  | some _, none => position :: calls
  | none, some _ => calls.tail
  | _, _ => calls

variable {et}

theorem openCalls_succ (nested : Nested et.edges) (found : et.edges[pos]? = some edge) (thread : Nat) :
    openCalls et (pos + 1) thread = if thread = edge.thread then moveCalls edge pos (openCalls et pos thread)
      else openCalls et pos thread := by
  obtain ⟨after, is⟩ := isSome_iff_exists.mp (nested.never_fails thread (pos + 1))
  obtain ⟨before, was, moved⟩ := stackAt_succ.mp is
  have move : moves et.edges thread pos = edge.move thread := by rw [moves, found]; rfl
  rw [move, Edge.move] at moved
  unfold openCalls moveCalls
  rw [is, was, getD_some, getD_some]
  by_cases same : edge.thread = thread
  · rw [if_pos same] at moved
    rw [if_pos same.symm]
    cases enters : edge.enter <;> cases returns : edge.ret <;>
      simp only [enters, returns, Move.on, some.injEq] at moved ⊢
    · rw [← moved]
    · split at moved
      · split at moved
        · rw [← some.inj moved]
          rfl
        · cases moved
      · cases moved
    · rw [← moved]
      rfl
    · rw [← moved]
  · rw [if_neg same] at moved
    rw [if_neg (fun h => same h.symm), some.inj moved]

/-- A thread had edges before a position. -/
def Seen (et : Trace) (position thread : Nat) : Prop :=
  ∃ earlier, et.globals ≤ earlier ∧ earlier < position ∧ threadAt et.edges earlier = some thread

theorem threadAt_eq (found : et.edges[pos]? = some edge) : threadAt et.edges pos = some edge.thread := by
  rw [threadAt, found]
  rfl

theorem seen_succ (after : et.globals ≤ pos) (found : et.edges[pos]? = some edge) (thread : Nat) :
    Seen et (pos + 1) thread ↔ Seen et pos thread ∨ thread = edge.thread := by
  have here := threadAt_eq found
  constructor
  · rintro ⟨earlier, later, before, its⟩
    obtain rfl | before := Nat.eq_or_lt_of_le (Nat.le_of_lt_succ before)
    · rw [here] at its
      exact .inr (some.inj its).symm
    · exact .inl ⟨earlier, later, before, its⟩
  · rintro (⟨earlier, later, before, its⟩ | rfl)
    · exact ⟨earlier, later, by omega, its⟩
    · exact ⟨pos, after, Nat.lt_succ_self _, here⟩

/-- A block of declarations that waits, all of one thread and one action. -/
structure Pending (et : Trace) (position : Nat) (s : State H) (block : Block H) (waiting : List Placement) :
    Prop where
  mem : block.edge ∈ et.edges
  last : ∃ edge, et.edges[position - 1]? = some edge ∧ edge.declaration ∧ edge.thread = block.edge.thread ∧
    et.displayOf edge = et.displayOf block.edge
  opened : openCalls et position block.edge.thread ≠ []
  ready : s.ActionReady et block.edge
  walk : walkAll Context.enter Context.visit ⟨some block.edge.thread,
    innermost et.edges block.edge.thread position, et.displayOf block.edge, some block.first⟩ block.children = waiting
  own : ∀ x ∈ waiting, x.thread = some block.edge.thread

/-- The state before an edge. -/
structure Inv (et : Trace) (position : Nat) (s : State H) (waiting : List Placement) : Prop where
  after : et.globals ≤ position
  shape : s.Shape (openCalls et position)
  seen : ∀ thread, (s.threadNodes.get? thread).isSome ↔ Seen et position thread
  prev : et.globals < position → s.prevThread = threadAt et.edges (position - 1)
  root : s.trace = none ↔ position = et.globals
  idle : s.declarations = none → waiting = []
  pending : ∀ block, s.declarations = some block → Pending et position s block waiting

/-- The block of declarations is put where it belongs. -/
theorem flush_spec (inv : Inv et pos s waiting) :
    ∃ s', s.flush = some s' ∧ Inv et pos s' [] ∧ s'.declarations = none ∧ s.Puts s' waiting := by
  unfold flush
  cases is : s.declarations with
  | none =>
    obtain rfl := inv.idle is
    exact ⟨s, rfl, inv, is, .refl s⟩
  | some block =>
    have pending := inv.pending block is
    obtain ⟨call, rest, calls⟩ := exists_cons_of_ne_nil pending.opened
    obtain ⟨path, target, leads, covers⟩ := inv.shape.target pending.mem calls pending.ready
    have walks := pending.walk
    rw [innermost_eq, calls] at walks
    have known := inv.shape.known block.edge.thread pending.opened
    obtain ⟨shape, puts⟩ := @Shape.grow _ _ _ _ (.node (.declarations block.first) block.children) _ _ inv.shape leads
      rfl covers known _ walks pending.own
    refine ⟨{ s.grow path (.node (.declarations block.first) block.children) with declarations := none },
      ?_, ⟨inv.after, ⟨shape.stack, shape.node, shape.chain, shape.known, shape.placed⟩, inv.seen, inv.prev,
        (grown_grow s path _).trace.trans inv.root, fun _ => rfl, fun _ none => by cases none⟩, rfl, puts⟩
    dsimp only
    rw [target]
    show (s.append path _).bind _ = _
    rw [leads.append]
    rfl

/-- A new thread with its node. -/
theorem shape_setThread {calls : Nat → List Nat} (shape : s.Shape calls) {thread : Nat} {path : List Nat}
    (new : s.threadNodes.get? thread = none) (leads : s.Leads path ⟨some thread, none, none, none⟩) :
    State.Shape calls { s with threadNodes := s.threadNodes.set thread path } := by
  have quiet : s.stackOf thread = [] := by
    rw [shape.stackOf_eq_nil]
    by_contra busy
    have := shape.known thread busy
    rw [new] at this
    cases this
  refine ⟨shape.stack, fun other path' found => ?_, fun other path' found => ?_, fun other busy => ?_, fun x mem => ?_⟩
  · dsimp only at found
    obtain ⟨same, rfl⟩ | ⟨-, found⟩ := Dict.of_get?_set found
    · exact same ▸ leads
    · exact shape.node other path' found
  · dsimp only at found
    rw [Dict.get?_set] at found
    split at found
    next same =>
      show (s.stackOf other ++ [path']).Pairwise _
      rw [same, quiet]
      exact pairwise_singleton _ _
    next => exact shape.chain other path' found
  · exact Dict.isSome_get?_set.mpr (.inl (shape.known other busy))
  · obtain ⟨other, its, known⟩ := shape.placed x mem
    exact ⟨other, its, Dict.isSome_get?_set.mpr (.inl known)⟩

/-- The thread of an edge has its node. -/
theorem addThread_spec (inv : Inv et position s waiting)
    (starts : ¬ Seen et position edge.thread → et.globals < position →
      ∀ prev, threadAt et.edges (position - 1) = some prev → openCalls et position prev ≠ [])
    (inside : position < et.edges.length) :
    ∃ s', s.addThread edge = some s' ∧ s'.callStacks = s.callStacks ∧ s'.declarations = s.declarations ∧
      s'.Shape (openCalls et position) ∧
      (∀ thread, (s'.threadNodes.get? thread).isSome ↔ Seen et position thread ∨ thread = edge.thread) ∧
      s'.trace ≠ none ∧ (Seen et position edge.thread → s' = s) ∧ s.Puts s' [] := by
  unfold addThread
  by_cases old : (s.threadNodes.get? edge.thread).isSome
  · have seen := (inv.seen edge.thread).mp old
    rw [if_pos old]
    refine ⟨s, rfl, rfl, rfl, inv.shape, fun thread => ?_, fun none => ?_, fun _ => rfl, .refl s⟩
    · rw [inv.seen]
      exact ⟨.inl, fun is => is.elim id fun same => same ▸ seen⟩
    · obtain ⟨earlier, later, before, -⟩ := seen
      have := inv.root.mp none
      omega
  · rw [if_neg old]
    have new : ¬ Seen et position edge.thread := fun seen => old ((inv.seen edge.thread).mpr seen)
    have unknown : s.threadNodes.get? edge.thread = none := by simpa using old
    have names {path : List Nat} (thread : Nat) :
        ((s.threadNodes.set edge.thread path).get? thread).isSome ↔ Seen et position thread ∨ thread = edge.thread := by
      rw [Dict.isSome_get?_set, inv.seen]
    cases is : s.trace with
    | none =>
      -- the first thread is the root of the tree
      let s₀ : State H := { s with trace := some (.node (.thread edge.thread) []) }
      have noLeads {path : List Nat} {context : Context} : ¬ s.Leads path context := by
        rintro ⟨tree, -, -, -, some, -⟩
        rw [is] at some
        cases some
      have noCalls (thread : Nat) : s.stackOf thread = [] ∧ openCalls et position thread = [] := by
        have stack := inv.shape.stack thread
        cases stack' : s.stackOf thread with
        | nil => exact ⟨rfl, inv.shape.stackOf_eq_nil.mp stack'⟩
        | cons path paths =>
          rw [stack'] at stack
          obtain ⟨_, _, leads, -⟩ := forall₂_cons_left_iff.mp stack
          exact absurd leads noLeads
      have shape : State.Shape (openCalls et position) s₀ := by
        refine ⟨fun thread => ?_, fun thread path found => ?_, fun thread path found => ?_,
          fun thread busy => absurd (noCalls thread).2 busy, fun x mem => ?_⟩
        · show List.Forall₂ _ (s.stackOf thread) _
          rw [(noCalls thread).1, (noCalls thread).2]
          exact .nil
        · exact absurd (inv.shape.node thread path found) noLeads
        · exact absurd (inv.shape.node thread path found) noLeads
        · cases mem
      refine ⟨_, rfl, rfl, rfl, shape_setThread (s := s₀) shape unknown
        ⟨_, _, .outside, [], rfl, rfl, rfl, rfl, fun x mem => absurd mem not_mem_nil⟩, names, some_ne_none _,
        fun seen => absurd seen new, fun thread => ?_⟩
      rw [placedIn, placedIn, is]
      rfl
    | some tree =>
      have later : et.globals < position := by
        refine lt_of_le_of_ne inv.after fun same => ?_
        rw [inv.root.mpr same.symm] at is
        cases is
      obtain ⟨prev, before⟩ : ∃ prev, threadAt et.edges (position - 1) = some prev := by
        rw [threadAt, getElem?_eq_getElem (by omega)]
        exact ⟨_, rfl⟩
      have busy := starts new later prev before
      obtain ⟨call, rest, calls⟩ := exists_cons_of_ne_nil busy
      obtain ⟨path, top, leads, covers⟩ := inv.shape.top calls
      obtain ⟨parent, found⟩ := leads.node
      obtain ⟨shape, puts⟩ := @Shape.grow _ _ _ _ (.node (.thread edge.thread) []) _ _ inv.shape leads rfl covers
        (inv.shape.known prev busy) [] rfl fun _ mem => absurd mem not_mem_nil
      have child := @State.Leads.grow_child _ _ _ _ (.node (.thread edge.thread) []) leads rfl (.inr fun x mem its => by
        obtain ⟨thread, its', known⟩ := inv.shape.placed x mem
        rw [its'] at its
        cases its
        exact old known) _ found
      refine ⟨{ s.grow path (.node (.thread edge.thread) []) with
          threadNodes := s.threadNodes.set edge.thread (path ++ [parent.children.length]) },
        ?_, rfl, rfl, shape_setThread shape unknown child, names, ?_, fun seen => absurd seen new, puts⟩
      · dsimp only
        rw [inv.prev later, before]
        show (s.top prev).bind _ = _
        rw [top]
        show (s.node path).bind _ = _
        rw [found]
        rw [leads.append]
        rfl
      · show s.trace.map _ ≠ none
        rw [is]
        exact some_ne_none _

end Edges

variable {et : Trace} {s s' : State H} {position pos : Nat} {edge : Edge}

/-- Notes have levels that are known. -/
def Edge.Levelled (edge : Edge) : Prop := ∀ notes ∈ edge.notes, ∀ note ∈ notes, note.level ≤ maxNoteLevel

theorem convertNotes_isSome : (convertNotes edge).isSome ↔ edge.Levelled := by
  unfold convertNotes Edge.Levelled
  cases edge.notes with
  | none => simp
  | some notes =>
    simp only [List.all_eq_true, decide_eq_true_eq, mem_def, some.injEq, forall_eq']
    split
    next levelled => simpa using levelled
    next unknown => simpa using unknown

/-- What an edge needs: known levels of notes, a source if it is not an enter, an open call if it is not an
enter or has an action, an open call of the thread before if its own thread is new, and a block of its
thread and action if it is a declaration after another one. -/
structure Placeable (et : Trace) (position : Nat) (edge : Edge) : Prop where
  levelled : edge.Levelled
  source : edge.enter = none → edge.source.isSome
  opened : edge.enter = none ∨ edge.action.isSome → openCalls et position edge.thread ≠ []
  starts : ¬ Seen et position edge.thread → et.globals < position →
    ∀ prev, threadAt et.edges (position - 1) = some prev → openCalls et position prev ≠ []
  agrees : edge.declaration → et.globals < position → ∀ last, et.edges[position - 1]? = some last →
    last.declaration → last.thread = edge.thread ∧ et.displayOf last = et.displayOf edge

/-- Open calls after an edge, seen from its thread and from others. -/
theorem stack_step (nested : Nested et.edges) (found : et.edges[pos]? = some edge)
    {stack : List (List Nat)} (shape : s.Shape (openCalls et pos))
    (own : List.Forall₂ (fun path call => s.Leads path ⟨some edge.thread, some call, none, none⟩) stack
      (moveCalls edge pos (openCalls et pos edge.thread)))
    (chain : ∀ path, s.threadNodes.get? edge.thread = some path →
      (stack ++ [path]).Pairwise fun upper lower => lower <+: upper)
    (known : (s.threadNodes.get? edge.thread).isSome) :
    State.Shape (openCalls et (pos + 1))
      { s with callStacks := s.callStacks.set edge.thread stack } := by
  refine ⟨fun thread => ?_, shape.node, fun thread path there => ?_, fun thread busy => ?_, shape.placed⟩
  · rw [stackOf_set, openCalls_succ nested found]
    split
    next same =>
      subst same
      exact own
    next => exact shape.stack thread
  · rw [stackOf_set]
    split
    next same =>
      subst same
      exact chain path there
    next => exact shape.chain thread path there
  · by_cases same : thread = edge.thread
    · subst same
      exact known
    · rw [openCalls_succ nested found, if_neg same] at busy
      exact shape.known thread busy

/-- An edge that neither enters nor returns, or both, leaves calls as they are. -/
theorem openCalls_stay (nested : Nested et.edges) (found : et.edges[position]? = some edge)
    (stays : edge.enter.isSome = edge.ret.isSome) : openCalls et (position + 1) = openCalls et position := by
  funext thread
  rw [openCalls_succ nested found]
  split
  next =>
    unfold moveCalls
    cases enters : edge.enter <;> cases returns : edge.ret <;> simp [enters, returns] at stays ⊢
  next => rfl

/-- The node of a call. -/
theorem callNode_spec (mem : edge ∈ et.edges) (enters : edge.enter.isSome) (levelled : edge.Levelled) :
    ∃ call, callNode highlight et pos edge = some call ∧ call.label.hasChildren ∧
      (∀ context : Context, context.enter call.label = ⟨context.thread, some pos, none, none⟩) ∧
      ∀ context : Context, walkFrom context call = [context.placement pos] := by
  obtain ⟨func, is⟩ := isSome_iff_exists.mp enters
  obtain ⟨notes, converted⟩ := isSome_iff_exists.mp (convertNotes_isSome.mpr levelled)
  have name := getElem?_eq_getElem (et.enters_known edge mem func is)
  simp only [callNode, is, name, converted, bind_eq_bind, bind_some]
  exact ⟨_, rfl, rfl, fun _ => rfl, fun _ => rfl⟩

/-- The node of a declaration or a statement. -/
theorem statementNode_spec (sourced : edge.source.isSome) (levelled : edge.Levelled) :
    ∃ child, statementNode highlight pos edge = some child ∧
      ∀ context : Context, walkFrom context child = [context.placement pos] := by
  obtain ⟨source, is⟩ := isSome_iff_exists.mp sourced
  obtain ⟨notes, converted⟩ := isSome_iff_exists.mp (convertNotes_isSome.mpr levelled)
  simp only [statementNode, is, converted, bind_eq_bind, bind_some]
  exact ⟨_, rfl, fun _ => rfl⟩

/-- An edge is put into the tree. -/
structure EdgeAdded (et : Trace) (position : Nat) (edge : Edge) (s s' : State H) : Prop where
  shape : s'.Shape (openCalls et (position + 1))
  threadNodes : s'.threadNodes = s.threadNodes
  declarations : s'.declarations = s.declarations
  trace : s'.trace = none ↔ s.trace = none
  puts : s.Puts s' [et.placementOf edge position none]

/-- A call is put where it belongs and is open then, unless it returns at once. -/
theorem enterFunction_spec (nested : Nested et.edges) (found : et.edges[pos]? = some edge)
    (shape : s.Shape (openCalls et pos)) (known : (s.threadNodes.get? edge.thread).isSome)
    (enters : edge.enter.isSome) (levelled : edge.Levelled)
    (ready : openCalls et pos edge.thread ≠ [] → s.ActionReady et edge)
    (quiet : openCalls et pos edge.thread = [] → edge.action = none) :
    ∃ s', s.enterFunction highlight et pos edge = some s' ∧ EdgeAdded et pos edge s s' := by
  have mem := mem_of_getElem? found
  obtain ⟨call, made, inside, enter, walks⟩ := @callNode_spec H highlight et pos edge mem enters levelled
  -- where the call is put
  obtain ⟨path, target, leads, covers⟩ : ∃ path, s.callTarget edge = some path ∧
      s.Leads path ⟨some edge.thread, innermost et.edges edge.thread pos, et.displayOf edge, none⟩ ∧
      s.Covers edge.thread path := by
    rw [innermost_eq, callTarget]
    cases calls : openCalls et pos edge.thread with
    | nil =>
      have none := shape.stackOf_eq_nil.mpr calls
      obtain ⟨path, there⟩ := isSome_iff_exists.mp known
      rw [none, there, Trace.displayOf, quiet calls]
      refine ⟨path, rfl, shape.node _ _ there, fun above recorded => ?_⟩
      obtain mem | same := recorded
      · rw [none] at mem
        cases mem
      · rw [there] at same
        cases same
        exact prefix_rfl
    | cons call rest =>
      have some : ¬ (s.stackOf edge.thread).isEmpty := by
        rw [List.isEmpty_iff, shape.stackOf_eq_nil, calls]
        nofun
      rw [if_neg some]
      exact shape.target mem calls (ready (by rw [calls]; nofun))
  obtain ⟨parent, there⟩ := leads.node
  obtain ⟨grown, puts⟩ := shape.grow leads rfl covers known (walks _) fun x mem => mem_singleton.mp mem ▸ rfl
  have child := leads.grow_child inside (.inl (by rw [enter])) there
  rw [enter] at child
  let opened := if edge.ret.isSome then [] else [path ++ [parent.children.length]]
  refine ⟨{ s.grow path call with callStacks := s.callStacks.set edge.thread (opened ++ s.stackOf edge.thread) }, ?_,
    stack_step nested found grown ?_ (fun node at' => ?_) known, rfl, rfl, (grown_grow s path call).trace, puts⟩
  · rw [enterFunction, made]
    rw [target]
    show (s.node path).bind _ = _
    rw [there]
    rw [leads.append]
    rfl
  · have below := grown.stack edge.thread
    unfold moveCalls opened
    obtain ⟨func, is⟩ := isSome_iff_exists.mp enters
    cases returns : edge.ret with
    | none =>
      rw [is]
      exact .cons child below
    | some func' =>
      rw [is]
      exact below
  · have chain := shape.chain edge.thread node at'
    unfold opened
    cases edge.ret with
    | none =>
      refine pairwise_cons.mpr ⟨fun above mem => ?_, chain⟩
      refine (covers above ?_).trans (prefix_append _ _)
      obtain mem | mem := mem_append.mp mem
      · exact .inl mem
      · exact .inr (mem_singleton.mp mem ▸ at')
    | some func' => exact chain

/-- A statement is put where it belongs, and a return closes the innermost call. -/
theorem addStatement_spec (nested : Nested et.edges) (found : et.edges[pos]? = some edge)
    (shape : s.Shape (openCalls et pos)) (stays : edge.enter = none) (plain : edge.declaration = false)
    (sourced : edge.source.isSome) (levelled : edge.Levelled) (opened : openCalls et pos edge.thread ≠ [])
    (ready : s.ActionReady et edge) :
    ∃ s', s.addStatement highlight pos edge = some s' ∧ EdgeAdded et pos edge s s' := by
  have mem := mem_of_getElem? found
  obtain ⟨child, made, walks⟩ := @statementNode_spec H highlight pos edge sourced levelled
  obtain ⟨call, rest, calls⟩ := exists_cons_of_ne_nil opened
  obtain ⟨path, target, leads, covers⟩ := shape.target mem calls ready
  have here : innermost et.edges edge.thread pos = some call := by rw [innermost_eq, calls]; rfl
  have known := shape.known edge.thread opened
  rw [← here] at leads
  obtain ⟨grown, puts⟩ := shape.grow leads rfl covers known (walks _) fun x mem => mem_singleton.mp mem ▸ rfl
  have put : s.place pos edge child = some (s.grow path child) := by
    rw [place, plain, if_neg (by simp), target, bind_some, leads.append]
  have start : s.addStatement highlight pos edge =
      if edge.ret.isSome then (s.grow path child).popCall edge.thread else some (s.grow path child) := by
    rw [addStatement, made]
    show (s.place pos edge child).bind _ = _
    rw [put]
    rfl
  rw [start]
  cases returns : edge.ret with
  | none =>
    refine ⟨_, rfl, ?_, rfl, rfl, (grown_grow s path child).trace, puts⟩
    rw [openCalls_stay nested found (by simp [stays, returns])]
    exact grown
  | some func =>
    -- the stack of the thread loses its top
    have stack := shape.stack edge.thread
    rw [calls] at stack
    obtain ⟨top, below, -, -, is⟩ := forall₂_cons_right_iff.mp stack
    have pop : (s.grow path child).popCall edge.thread =
        some { s.grow path child with callStacks := s.callStacks.set edge.thread below } := by
      simp only [popCall, grow, get?_of_stackOf is]
    refine ⟨_, pop, stack_step nested found grown ?_ (fun node at' => ?_) known, rfl, rfl,
      (grown_grow s path child).trace, puts⟩
    · have stack := grown.stack edge.thread
      rw [show (s.grow path child).stackOf edge.thread = top :: below from is, calls] at stack
      rw [moveCalls, stays, returns, calls]
      exact (forall₂_cons.mp stack).2
    · have chain := shape.chain edge.thread node at'
      rw [is] at chain
      exact (pairwise_cons.mp chain).2

/-- An action that is at hand for an edge is at hand for another one of its thread with the same action. -/
theorem actionReady_congr {other : Edge} (ready : s.ActionReady et edge) (thread : other.thread = edge.thread)
    (display : et.displayOf other = et.displayOf edge) (tree : s'.trace = s.trace)
    (calls : s'.callStacks = s.callStacks) : s'.ActionReady et other := by
  intro name named
  obtain ⟨path, node, top, found, action⟩ := ready name (display ▸ named)
  refine ⟨path, node, ?_, ?_, action⟩
  · rw [State.top, thread, calls]
    exact top
  · rw [State.node, tree]
    exact found

/-- A declaration waits, after those that wait already. -/
theorem addDeclaration_spec (nested : Nested et.edges) (found : et.edges[position]? = some edge)
    (shape : s.Shape (openCalls et position)) (declaration : edge.declaration) (sourced : edge.source.isSome)
    (levelled : edge.Levelled) (opened : openCalls et position edge.thread ≠ []) (ready : s.ActionReady et edge)
    (idle : s.declarations = none → waiting = [])
    (pending : ∀ block, s.declarations = some block → Pending et position s block waiting ∧
      edge.thread = block.edge.thread ∧ et.displayOf edge = et.displayOf block.edge) :
    ∃ s' block, s.addStatement highlight position edge = some s' ∧ s'.Shape (openCalls et (position + 1)) ∧
      s'.threadNodes = s.threadNodes ∧ s'.trace = s.trace ∧ s'.declarations = some block ∧
      block.first = (s.declarations.map (·.first)).getD position ∧
      Pending et (position + 1) s' block (waiting ++ [et.placementOf edge position (some block.first)]) := by
  have mem := mem_of_getElem? found
  obtain ⟨stays, returns⟩ := et.declarations_plain edge mem declaration
  obtain ⟨child, made, walks⟩ := @statementNode_spec H highlight position edge sourced levelled
  have calls : openCalls et (position + 1) = openCalls et position :=
    openCalls_stay nested found (by simp [stays, returns])
  have inner (thread : Nat) : innermost et.edges thread (position + 1) = innermost et.edges thread position := by
    rw [innermost_eq, innermost_eq, calls]
  have one (context : Context) :
      walkAll Context.enter Context.visit context [child] = [context.placement position] :=
    (walkAll_singleton ..).trans (walks context)
  have last : et.edges[position + 1 - 1]? = some edge := found
  have start : s.addStatement highlight position edge = some (s.addDeclaration position edge child) := by
    rw [addStatement, made]
    show (s.place position edge child).bind _ = _
    rw [place, if_pos declaration, returns]
    rfl
  have shape' : State.Shape (openCalls et (position + 1)) (s.addDeclaration position edge child) := by
    rw [calls]
    exact ⟨shape.stack, shape.node, shape.chain, shape.known, shape.placed⟩
  refine ⟨s.addDeclaration position edge child, ?_⟩
  cases is : s.declarations with
  | none =>
    obtain rfl := idle is
    refine ⟨⟨edge, position, [child]⟩, start, shape', rfl, rfl, ?_, rfl, ⟨mem, ⟨edge, last, declaration, rfl, rfl⟩, ?_,
      actionReady_congr ready rfl rfl rfl rfl, ?_, ?_⟩⟩
    · simp only [addDeclaration, is]
    · rw [calls]
      exact opened
    · rw [inner, one]
      rfl
    · exact fun x mem => mem_singleton.mp mem ▸ rfl
  | some block =>
    obtain ⟨before, thread, display⟩ := pending block is
    refine ⟨{ block with children := block.children ++ [child] }, start, shape', rfl, rfl, ?_, rfl,
      ⟨before.mem, ⟨edge, last, declaration, thread, display⟩, ?_,
        actionReady_congr before.ready rfl rfl rfl rfl, ?_, fun x mem => ?_⟩⟩
    · simp only [addDeclaration, is]
    · rw [calls]
      exact before.opened
    · rw [inner, walkAll_append, before.walk, one, Trace.placementOf, thread, display]
      rfl
    · obtain mem | mem := mem_append.mp mem
      · exact before.own x mem
      · rw [mem_singleton.mp mem]
        exact congrArg some thread

/-- The block of an edge: that of the declarations that wait, or a new one. -/
def blockOf (s : State H) (edge : Edge) (position : Nat) : Option Nat :=
  if edge.declaration then some ((s.declarations.map (·.first)).getD position) else none

/-- The stages of a step. -/
theorem step_eq_some_iff {s' : State H} : s.step highlight et position edge = some s' ↔
    ∃ s₁, s.settle edge = some s₁ ∧ ∃ s₂, s₁.addThread edge = some s₂ ∧ ∃ s₃, s₂.addAction et edge = some s₃ ∧
      ∃ s₄, s₃.addEdge highlight et position edge = some s₄ ∧ { s₄ with prevThread := some edge.thread } = s' := by
  simp only [step, bind_eq_bind, bind_eq_some_iff, some.injEq]

/-- An edge that is placeable is put where it belongs, or waits to be. -/
theorem step_spec (nested : Nested et.edges) (found : et.edges[position]? = some edge)
    (inv : Inv et position s waiting) (placeable : Placeable et position edge) :
    ∃ s' waiting', s.step highlight et position edge = some s' ∧ Inv et (position + 1) s' waiting' ∧
      s'.declarations.map (·.first) = blockOf s edge position ∧
      ∀ thread, s'.placedIn thread ++ waiting'.filter (·.thread = thread) =
        s.placedIn thread ++ (waiting ++ [et.placementOf edge position (blockOf s edge position)]).filter
          (·.thread = thread) := by
  have mem := mem_of_getElem? found
  have inside := (List.getElem?_eq_some_iff.mp found).1
  have after := inv.after
  -- what is the same for all edges at the end of a step
  have finish {s₁ : State H} {waiting' : List Placement} (shape : s₁.Shape (openCalls et (position + 1)))
      (nodes : ∀ thread, (s₁.threadNodes.get? thread).isSome ↔ Seen et position thread ∨ thread = edge.thread)
      (rooted : s₁.trace ≠ none) (idle : s₁.declarations = none → waiting' = [])
      (pending : ∀ block, s₁.declarations = some block → Pending et (position + 1) s₁ block waiting') :
      Inv et (position + 1) { s₁ with prevThread := some edge.thread } waiting' := by
    refine ⟨by omega, ⟨shape.stack, shape.node, shape.chain, shape.known, shape.placed⟩, fun thread => ?_,
      fun _ => (threadAt_eq found).symm, ⟨fun none => absurd none rooted, fun same => by omega⟩, idle, fun block is => ?_⟩
    · rw [seen_succ inv.after found]
      exact nodes thread
    · have pending := pending block is
      exact ⟨pending.mem, pending.last, pending.opened, actionReady_congr pending.ready rfl rfl rfl rfl, pending.walk,
        pending.own⟩
  by_cases declaration : edge.declaration
  · -- the tree has the thread, and the block gets one more declaration
    obtain ⟨stays, returns⟩ := et.declarations_plain edge mem declaration
    have opened := placeable.opened (.inl stays)
    have seen := (inv.seen edge.thread).mp (inv.shape.known edge.thread opened)
    obtain ⟨s₂, threaded, -, -, -, nodes, rooted, same, -⟩ := addThread_spec inv placeable.starts inside
    obtain rfl := same seen
    obtain ⟨call, rest, calls⟩ := exists_cons_of_ne_nil opened
    obtain ⟨s₃, acted, grown, shape, ready, puts⟩ := inv.shape.addAction mem calls
    have waits : ∀ block, s₃.declarations = some block → Pending et position s₃ block waiting ∧
        edge.thread = block.edge.thread ∧ et.displayOf edge = et.displayOf block.edge := by
      intro block is
      rw [grown.declarations] at is
      have pending := inv.pending block is
      obtain ⟨last, before, declared, thread, display⟩ := pending.last
      have later : et.globals < position := by
        refine lt_of_le_of_ne inv.after fun first => rooted (inv.root.mpr first.symm)
      obtain ⟨thread', display'⟩ := placeable.agrees declaration later last before declared
      rw [thread] at thread'
      rw [display] at display'
      exact ⟨⟨pending.mem, pending.last, pending.opened,
        actionReady_congr ready thread' display' rfl rfl, pending.walk, pending.own⟩, thread'.symm, display'.symm⟩
    obtain ⟨s₄, block, added, shape', nodes', tree, waits', first, pending⟩ := addDeclaration_spec highlight nested
      found shape declaration (placeable.source stays) placeable.levelled opened ready
      (fun none => inv.idle (grown.declarations ▸ none)) waits
    have first' : block.first = (s₂.declarations.map (·.first)).getD position := by
      rw [first, grown.declarations]
    refine ⟨{ s₄ with prevThread := some edge.thread }, waiting ++ [et.placementOf edge position (some block.first)],
      ?_, finish shape' (fun thread => ?_) ?_ (fun none => ?_) (fun block' is => ?_), ?_, fun thread => ?_⟩
    · refine (step_eq_some_iff highlight).mpr ⟨s₂, if_pos declaration, s₂, threaded, s₃, acted, s₄, ?_, rfl⟩
      rw [addEdge, stays, if_neg (by simp), added]
    · rw [nodes', grown.threadNodes]
      exact nodes thread
    · rw [tree]
      exact mt grown.trace.mp rooted
    · rw [waits'] at none
      cases none
    · rw [waits'] at is
      cases is
      exact pending
    · rw [blockOf, if_pos declaration, ← first']
      rw [waits']
      rfl
    · rw [blockOf, if_pos declaration, ← first']
      have same : s₄.placedIn thread = s₃.placedIn thread := by rw [placedIn, tree, placedIn]
      show s₄.placedIn thread ++ _ = _
      rw [same, puts, filter_nil, append_nil]
  · -- the block ends, and the edge itself is put into the tree
    have plain : edge.declaration = false := by simpa using declaration
    obtain ⟨s₁, flushed, inv₁, idle₁, puts₁⟩ := flush_spec inv
    obtain ⟨s₂, threaded, -, idle₂, shape₂, nodes, rooted, -, puts₂⟩ := addThread_spec inv₁ placeable.starts inside
    have known : (s₂.threadNodes.get? edge.thread).isSome := (nodes edge.thread).mpr (.inr rfl)
    obtain ⟨s₃, acted, grown, shape₃, ready, puts₃⟩ : ∃ s₃, s₂.addAction et edge = some s₃ ∧ State.Grown s₂ s₃ ∧
        s₃.Shape (openCalls et position) ∧ (openCalls et position edge.thread ≠ [] → s₃.ActionReady et edge) ∧
        s₂.Puts s₃ [] := by
      cases calls : openCalls et position edge.thread with
      | nil =>
        have none : edge.action = none := by
          by_contra action
          exact placeable.opened (.inr (isSome_iff_ne_none.mpr action)) calls
        refine ⟨s₂, ?_, .refl s₂, shape₂, fun busy => absurd rfl busy, .refl s₂⟩
        rw [addAction, none]
      | cons call rest =>
        obtain ⟨s₃, acted, grown, shape₃, ready, puts₃⟩ := shape₂.addAction mem calls
        exact ⟨s₃, acted, grown, shape₃, fun _ => ready, puts₃⟩
    obtain ⟨s₄, added, edgeAdded⟩ : ∃ s₄, s₃.addEdge highlight et position edge = some s₄ ∧
        EdgeAdded et position edge s₃ s₄ := by
      unfold addEdge
      by_cases enters : edge.enter.isSome
      · rw [if_pos enters]
        refine enterFunction_spec highlight nested found shape₃ ?_ enters placeable.levelled ready fun none => ?_
        · rw [grown.threadNodes]
          exact known
        · by_contra action
          exact placeable.opened (.inr (isSome_iff_ne_none.mpr action)) none
      · rw [if_neg enters]
        have stays : edge.enter = none := by simpa using enters
        have opened := placeable.opened (.inl stays)
        exact addStatement_spec highlight nested found shape₃ stays plain (placeable.source stays) placeable.levelled
          opened (ready opened)
    have idle : s₄.declarations = none := by rw [edgeAdded.declarations, grown.declarations, idle₂, idle₁]
    refine ⟨{ s₄ with prevThread := some edge.thread }, [], ?_, finish edgeAdded.shape (fun thread => ?_) ?_
      (fun _ => rfl) (fun block is => ?_), ?_, fun thread => ?_⟩
    · exact (step_eq_some_iff highlight).mpr
        ⟨s₁, (if_neg declaration).trans flushed, s₂, threaded, s₃, acted, s₄, added, rfl⟩
    · rw [edgeAdded.threadNodes, grown.threadNodes]
      exact nodes thread
    · rw [Ne, edgeAdded.trace, grown.trace]
      exact rooted
    · rw [idle] at is
      cases is
    · rw [blockOf, if_neg declaration]
      rw [idle]
      rfl
    · rw [blockOf, if_neg declaration, filter_nil, append_nil]
      have puts := ((puts₁.trans puts₂).trans puts₃).trans edgeAdded.puts
      rw [append_nil, append_nil] at puts
      exact puts thread

variable {edges : List Edge}

theorem drop_zipIdx (found : edges[pos]? = some edge) :
    edges.zipIdx.drop pos = (edge, pos) :: edges.zipIdx.drop (pos + 1) := by
  obtain ⟨lt, is⟩ := List.getElem?_eq_some_iff.mp found
  rw [drop_eq_getElem_cons (by simpa using lt)]
  simp [is]

theorem drop_zipIdx_end (behind : edges.length ≤ pos) : edges.zipIdx.drop pos = [] :=
  drop_eq_nil_of_le (by simpa using behind)

/-- The loop from a position on. -/
def run (et : Trace) (s : State H) (position : Nat) : Option (State H) :=
  (et.edges.zipIdx.drop position).foldlM (fun s (edge, position) => s.step highlight et position edge) s

theorem run_cons (found : et.edges[pos]? = some edge) : run highlight et s pos =
    (s.step highlight et pos edge).bind fun s => run highlight et s (pos + 1) := by
  rw [run, drop_zipIdx found]
  rfl

theorem run_end (behind : et.edges.length ≤ pos) : run highlight et s pos = some s := by
  rw [run, drop_zipIdx_end behind]
  rfl

/-- Edges that are placeable are put one after another. -/
theorem run_spec (nested : Nested et.edges) (inv : Inv et pos s waiting) (le : pos ≤ et.edges.length)
    (placeable : ∀ later edge, pos ≤ later → et.edges[later]? = some edge → Placeable et later edge) :
    ∃ s' waiting', run highlight et s pos = some s' ∧ Inv et et.edges.length s' waiting' ∧
      ∀ thread, s'.placedIn thread ++ waiting'.filter (·.thread = thread) =
        s.placedIn thread ++ (waiting ++ et.expectedFrom (s.declarations.map (·.first))
          (et.edges.zipIdx.drop pos)).filter (·.thread = thread) := by
  induction left : et.edges.length - pos generalizing pos s waiting with
  | zero =>
    obtain rfl : pos = et.edges.length := by omega
    refine ⟨s, waiting, run_end highlight le_rfl, inv, fun thread => ?_⟩
    rw [drop_zipIdx_end le_rfl, Trace.expectedFrom, append_nil]
  | succ left ih =>
    obtain ⟨edge, found⟩ : ∃ edge, et.edges[pos]? = some edge := ⟨_, getElem?_eq_getElem (by omega)⟩
    obtain ⟨s₁, waiting₁, stepped, inv₁, block, placed₁⟩ :=
      step_spec highlight nested found inv (placeable pos edge le_rfl found)
    obtain ⟨s₂, waiting₂, ran, inv₂, placed₂⟩ := ih inv₁ (by omega)
      (fun later edge after => placeable later edge (by omega)) (by omega)
    refine ⟨s₂, waiting₂, ?_, inv₂, fun thread => ?_⟩
    · rw [run_cons highlight found, stepped, bind_some, ran]
    · rw [placed₂, filter_append, ← append_assoc, placed₁, block, drop_zipIdx found, Trace.expectedFrom, append_assoc,
        ← filter_append, append_assoc]
      rfl

/-- Global declarations come first. -/
theorem declaration_of_lt (lt : pos < (edges.takeWhile (·.declaration)).length) :
    ∃ edge, edges[pos]? = some edge ∧ edge.declaration := by
  refine ⟨(edges.takeWhile (·.declaration)).get ⟨pos, lt⟩, ?_, ?_⟩
  · have whole : edges.takeWhile (·.declaration) ++ edges.dropWhile (·.declaration) = edges :=
      takeWhile_append_dropWhile
    conv_lhs => rw [← whole, getElem?_append_left lt]
    exact getElem?_eq_getElem lt
  · exact mem_takeWhile_imp (List.get_mem _ _)

/-- No calls are open before the first edge that is not global. -/
theorem openCalls_globals (nested : Nested et.edges) (le : pos ≤ et.globals) (thread : Nat) :
    openCalls et pos thread = [] := by
  induction pos with
  | zero => rfl
  | succ pos ih =>
    obtain ⟨edge, found, declaration⟩ := declaration_of_lt (show pos < et.globals by omega)
    obtain ⟨stays, returns⟩ := et.declarations_plain edge (mem_of_getElem? found) declaration
    rw [openCalls_stay nested found (by simp [stays, returns])]
    exact ih (by omega)

theorem inv_initial (nested : Nested et.edges) : Inv et et.globals (initial : State H) [] where
  after := le_rfl
  shape := by
    refine ⟨fun thread => ?_, fun _ _ is => (by cases is), fun _ _ is => (by cases is),
      fun thread busy => absurd (openCalls_globals nested le_rfl thread) busy, fun x mem => absurd mem not_mem_nil⟩
    rw [openCalls_globals nested le_rfl]
    exact .nil
  seen thread := by
    refine ⟨fun is => (by cases is), fun ⟨earlier, after, before, _⟩ => ?_⟩
    omega
  prev lt := absurd lt (Nat.lt_irrefl _)
  root := ⟨fun _ => rfl, fun _ => rfl⟩
  idle _ := rfl
  pending _ is := by cases is

/-- What is needed of all edges. -/
structure Orderly (et : Trace) : Prop where
  /-- also of global declarations -/
  levelled : ∀ edge ∈ et.edges, edge.Levelled
  sourced : ∀ edge ∈ et.edges, edge.enter = none → edge.source.isSome
  placeable : ∀ position edge, et.globals ≤ position → et.edges[position]? = some edge → Placeable et position edge

/-- The trace is serialized, and each edge is where it belongs, thread by thread in the order of the edges. -/
def Faithful (et : Trace) : Prop :=
  ∃ out, serialize highlight et = some out ∧ ∀ thread : Option Nat,
    (placements out.trace).filter (·.thread = thread) = et.expected.filter (·.thread = thread)

theorem serialize_eq_some {out : Serialized H} : serialize highlight et = some out ↔
    ∃ globals s s', (et.edges.take et.globals).mapM (globalDeclaration highlight) = some globals ∧
      run highlight et .initial et.globals = some s ∧ s.flush = some s' ∧ out = ⟨globals, s'.trace⟩ := by
  unfold serialize
  simp only [bind_eq_bind, bind_eq_some_iff, some.injEq]
  constructor
  · rintro ⟨globals, made, s, ran, s', flushed, rfl⟩
    exact ⟨globals, s, s', made, ran, flushed, rfl⟩
  · rintro ⟨globals, s, s', made, ran, flushed, rfl⟩
    exact ⟨globals, made, s, ran, s', flushed, rfl⟩

theorem globalDeclaration_isSome : (globalDeclaration highlight edge).isSome ↔ edge.source.isSome ∧ edge.Levelled := by
  rw [← convertNotes_isSome]
  unfold globalDeclaration
  cases edge.source <;> cases convertNotes edge <;> simp

theorem globals_le (et : Trace) : et.globals ≤ et.edges.length := (List.takeWhile_prefix _).length_le

/-- Edges before the first one that is not a declaration. -/
theorem enter_of_global (mem : edge ∈ et.edges.take et.globals) : edge.enter = none := by
  have whole : et.edges.take et.globals = et.edges.takeWhile (·.declaration) :=
    (prefix_iff_eq_take.mp (List.takeWhile_prefix _)).symm
  rw [whole] at mem
  exact (et.declarations_plain edge ((List.takeWhile_prefix _).subset mem) (mem_takeWhile_imp mem)).1

/-- If all edges can be placed, they are. -/
theorem Orderly.faithful (nested : Nested et.edges) (orderly : Orderly et) : Faithful highlight et := by
  obtain ⟨globals, made⟩ : ∃ globals, (et.edges.take et.globals).mapM (globalDeclaration highlight) = some globals := by
    refine exists_mapM fun edge mem => isSome_iff_exists.mp ((globalDeclaration_isSome highlight).mpr ?_)
    have mem' := mem_of_mem_take mem
    exact ⟨orderly.sourced edge mem' (enter_of_global mem), orderly.levelled edge mem'⟩
  obtain ⟨s, waiting, ran, inv, placed⟩ :=
    run_spec highlight nested (inv_initial nested) (globals_le et) orderly.placeable
  obtain ⟨s', flushed, -, -, placed'⟩ := flush_spec inv
  refine ⟨_, (serialize_eq_some highlight).mpr ⟨globals, s, s', made, ran, flushed, rfl⟩, fun thread => ?_⟩
  show s'.placedIn thread = _
  rw [placed', placed]
  rfl

end Klever.ErrorTrace
