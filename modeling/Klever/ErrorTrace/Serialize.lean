import Klever.Lib.Dict
import Klever.Lib.Rose
import Klever.ErrorTrace.Calls

/-!
# Error trace trees

`ErrorTrace.serialize` makes a tree of a linear error trace in one pass: nodes of threads, of function
calls, of actions, of blocks of declarations and of statements. New nodes are put below the innermost open
call of the thread of an edge, or into an action there if the edge has one. A thread is put below the
innermost open call of the thread of the edge before it. Declarations wait until an edge comes that is
none; then the whole block is put where the first one belongs.

Python refers to nodes that are in the tree and still grow; here they are referred to by paths. Nodes of
edges bear the positions of these edges, which the tree itself does not have, to say which node is made of
which edge. How sources are highlighted is a parameter.
-/

namespace Klever.ErrorTrace

open Klever.Lib Klever.Lib.Nesting

/-- An error trace. Functions and actions of edges are known, and declarations are no calls: declarations
and statements are made of "any edge of original violation witnesses except for function call
enters/returns". -/
structure Trace where
  funcs : List String
  actions : List String
  callbackActions : List Nat
  edges : List Edge
  enters_known : ∀ edge ∈ edges, ∀ func ∈ edge.enter, func < funcs.length
  actions_known : ∀ edge ∈ edges, ∀ action ∈ edge.action, action < actions.length
  declarations_plain : ∀ edge ∈ edges, edge.declaration → edge.enter = none ∧ edge.ret = none

/-! ## Nodes -/

/-- `MAX_NOTE_LEVEl` -/
def maxNoteLevel : Nat := 3

/-- Notes of a node, the most important ones last, and whether its source is hidden. -/
structure Notes where
  notes : List (String × Nat)
  hide : Bool
  deriving DecidableEq, Repr

/-- The notes of a level; one that hides sources is the last one. -/
def levelNotes (notes : List Note) (level : Nat) (hider : Option Note) : List (String × Nat) :=
  let here := notes.filter (·.level = level)
  let ordered : List Note := match hider with
    | some note => here.filter (· ≠ note) ++ [note]
    | none => here
  ordered.map fun note => (note.text, level)

/-- `convert_notes`: a note of an unknown level is an error. -/
def convertNotes (edge : Edge) : Option (Option Notes) :=
  match edge.notes with
  | none => some none
  | some notes =>
    if notes.all (·.level ≤ maxNoteLevel) then
      let least := notes.foldl (fun least note => min note.level least) maxNoteLevel
      let hider := notes.find? fun note => note.level = least && note.hide
      some (some ⟨[3, 2, 1, 0].flatMap fun level =>
        levelNotes notes level (if level = least then hider else none), hider.isSome⟩)
    else none

inductive Label (H : Type) where
  | thread (thread : Nat)
  | action (file line : Nat) (display : String) (relevant : Bool)
  /-- a function call -/
  | call (position file line : Nat) (display source : String) (highlight : Option H) (notes : Option Notes)
      (assumption : Option String)
  /-- a block of declarations from the first one on -/
  | declarations (first : Nat)
  /-- a declaration or a statement -/
  | statement (position : Nat) (declaration : Bool) (file line : Nat) (source : String) (highlight : H)
      (notes : Option Notes) (condition : Bool) (assumption : Option String)

/-- Has a node a list of children? -/
def Label.hasChildren {H : Type} : Label H → Bool
  | .statement .. => false
  | _ => true

/-- The name of a function as it is shown. -/
def displayFunction (name : String) : String :=
  if name.startsWith "ldv_" then "LDV model '" ++ (name.drop 4).toString ++ "'" else name

/-- A block of declarations that is not in the tree yet, with its first edge. -/
structure Block (H : Type) where
  edge : Edge
  first : Nat
  children : List (Rose (Label H))

/-- What the loop of `serialize` keeps. -/
structure State (H : Type) where
  trace : Option (Rose (Label H))
  threadNodes : Dict Nat (List Nat)
  /-- the open calls of threads, innermost first -/
  callStacks : Dict Nat (List (List Nat))
  prevThread : Option Nat
  declarations : Option (Block H)

variable {H : Type} (highlight : String → Option String → H) (et : Trace)

/-- A function call. -/
def callNode (position : Nat) (edge : Edge) : Option (Rose (Label H)) := do
  let func ← edge.enter
  let name ← et.funcs[func]?
  let notes ← convertNotes edge
  some (.node (.call position edge.file edge.line (edge.entryPoint.getD (edge.display.getD (displayFunction name)))
    (edge.source.getD "Unknown") (edge.source.map (highlight · (some name))) notes edge.assumption) [])

/-- A declaration or a statement. -/
def statementNode (position : Nat) (edge : Edge) : Option (Rose (Label H)) := do
  let source ← edge.source
  let notes ← convertNotes edge
  some (.node (.statement position edge.declaration edge.file edge.line source (highlight source none) notes
    edge.condition edge.assumption) [])

/-- A declaration of a global variable. -/
structure GlobalDeclaration (H : Type) where
  line : Nat
  file : Nat
  source : String
  highlight : H
  notes : Option Notes

def globalDeclaration (edge : Edge) : Option (GlobalDeclaration H) := do
  let source ← edge.source
  let notes ← convertNotes edge
  some ⟨edge.line, edge.file, source, highlight source none, notes⟩

/-! ## The tree -/

namespace State

def initial : State H := ⟨none, .empty, .empty, none, none⟩

variable (s : State H)

def node (path : List Nat) : Option (Rose (Label H)) := s.trace.bind (Rose.get? path)

/-- Appending a child to the node at a path, which must have children. -/
def append (s : State H) (path : List Nat) (child : Rose (Label H)) : Option (State H) := do
  let node ← s.node path
  if node.label.hasChildren then some { s with trace := s.trace.map (Rose.append child path) } else none

/-- The innermost open call of a thread. -/
def top (thread : Nat) : Option (List Nat) := (s.callStacks.get? thread).bind List.head?

/-- The last child of a node. -/
def lastChild (path : List Nat) : Option (List Nat) :=
  (s.node path).bind fun node =>
    if node.children.isEmpty then none else some (path ++ [node.children.length - 1])

/-- Where the node of an edge is put: below the innermost open call, or into its last child, which is the
action of the edge. -/
def target (edge : Edge) : Option (List Nat) :=
  (s.top edge.thread).bind fun path => if edge.action.isSome then s.lastChild path else some path

/-- The block of declarations is put into the tree. -/
def flush : Option (State H) :=
  match s.declarations with
  | none => some s
  | some block => do
    let path ← s.target block.edge
    let s ← s.append path (.node (.declarations block.first) block.children)
    some { s with declarations := none }

/-- The node of a thread. -/
def addThread (edge : Edge) : Option (State H) :=
  if (s.threadNodes.get? edge.thread).isSome then some s
  else match s.trace with
    | none => some { s with
        trace := some (.node (.thread edge.thread) [])
        threadNodes := s.threadNodes.set edge.thread [] }
    | some _ => do
      let thread ← s.prevThread
      let path ← s.top thread
      let parent ← s.node path
      let s ← s.append path (.node (.thread edge.thread) [])
      some { s with threadNodes := s.threadNodes.set edge.thread (path ++ [parent.children.length]) }

/-- Is a node the action of that name? -/
def isAction (display : String) : Option (Rose (Label H)) → Bool
  | some (.node (.action _ _ display' _) _) => display = display'
  | _ => false

/-- The node of an action, unless it is the last child already. -/
def addAction (et : Trace) (s : State H) (edge : Edge) : Option (State H) :=
  match edge.action with
  | none => some s
  | some action =>
    (et.actions[action]?).bind fun display => (s.top edge.thread).bind fun path => (s.node path).bind fun node =>
      if isAction display node.children.getLast? then some s
      else s.append path (.node (.action edge.file edge.line display (et.callbackActions.contains action)) [])

/-- The open calls of a thread. -/
def stackOf (thread : Nat) : List (List Nat) := (s.callStacks.get? thread).getD []

/-- Where a call is put: into the node of the thread if no call is open. -/
def callTarget (edge : Edge) : Option (List Nat) :=
  if (s.stackOf edge.thread).isEmpty then s.threadNodes.get? edge.thread else s.target edge

/-- A function is entered; it is not open if it returns at once. -/
def enterFunction (et : Trace) (s : State H) (position : Nat) (edge : Edge) : Option (State H) := do
  let call ← callNode highlight et position edge
  let path ← s.callTarget edge
  let parent ← s.node path
  let s' ← s.append path call
  let opened := if edge.ret.isSome then [] else [path ++ [parent.children.length]]
  some { s' with callStacks := s'.callStacks.set edge.thread (opened ++ s.stackOf edge.thread) }

/-- A declaration joins the block, or begins one. -/
def addDeclaration (position : Nat) (edge : Edge) (child : Rose (Label H)) : State H :=
  { s with declarations := match s.declarations with
    | none => some ⟨edge, position, [child]⟩
    | some block => some { block with children := block.children ++ [child] } }

/-- The innermost call of a thread is closed. -/
def popCall (thread : Nat) : Option (State H) :=
  match s.callStacks.get? thread with
  | some (_ :: stack) => some { s with callStacks := s.callStacks.set thread stack }
  | _ => none

/-- The node of a statement is put into the tree, a declaration waits. -/
def place (position : Nat) (edge : Edge) (child : Rose (Label H)) : Option (State H) :=
  if edge.declaration then some (s.addDeclaration position edge child)
  else (s.target edge).bind (s.append · child)

def addStatement (position : Nat) (edge : Edge) : Option (State H) := do
  let child ← statementNode highlight position edge
  let s ← s.place position edge child
  if edge.ret.isSome then s.popCall edge.thread else some s

/-- The block of declarations ends before an edge that is none. -/
def settle (edge : Edge) : Option (State H) := if edge.declaration then some s else s.flush

/-- The node of an edge itself. -/
def addEdge (et : Trace) (s : State H) (position : Nat) (edge : Edge) : Option (State H) :=
  if edge.enter.isSome then enterFunction highlight et s position edge
  else addStatement highlight s position edge

/-- One edge. -/
def step (et : Trace) (s : State H) (position : Nat) (edge : Edge) : Option (State H) := do
  let s ← s.settle edge
  let s ← s.addThread edge
  let s ← s.addAction et edge
  let s ← s.addEdge highlight et position edge
  some { s with prevThread := some edge.thread }

end State

/-- The number of global declarations: those before any other edge. -/
def Trace.globals : Nat := (et.edges.takeWhile (·.declaration)).length

/-- The edges that are not global with their positions. -/
def Trace.body : List (Edge × Nat) := et.edges.zipIdx.drop et.globals

structure Serialized (H : Type) where
  globalDeclarations : List (GlobalDeclaration H)
  trace : Option (Rose (Label H))

/-- `serialize` -/
def serialize : Option (Serialized H) := do
  let globals ← (et.edges.take et.globals).mapM (globalDeclaration highlight)
  let s ← et.body.foldlM (fun s (edge, position) => State.step highlight et s position edge) .initial
  let s ← s.flush
  some ⟨globals, s.trace⟩

/-! ## Where edges are -/

/-- Where the node of an edge is: its thread, its innermost call, its action and its block. -/
structure Placement where
  position : Nat
  thread : Option Nat
  call : Option Nat
  action : Option String
  block : Option Nat
  deriving DecidableEq, Repr

/-- What is around a node. -/
structure Context where
  thread : Option Nat
  call : Option Nat
  action : Option String
  block : Option Nat
  deriving DecidableEq, Repr

def Context.outside : Context := ⟨none, none, none, none⟩

/-- What is around the children of a node. -/
def Context.enter (context : Context) : Label H → Context
  | .thread thread => ⟨some thread, none, none, none⟩
  | .call position .. => ⟨context.thread, some position, none, none⟩
  | .action _ _ display _ => { context with action := some display }
  | .declarations first => { context with block := some first }
  | .statement .. => context

def Context.placement (context : Context) (position : Nat) : Placement :=
  ⟨position, context.thread, context.call, context.action, context.block⟩

/-- The edge of which a node is made. -/
def Context.visit (context : Context) : Label H → List Placement
  | .call position .. | .statement position .. => [context.placement position]
  | _ => []

/-- The placements in a tree from left to right. -/
def placements (trace : Option (Rose (Label H))) : List Placement :=
  trace.elim [] (Rose.walk Context.enter Context.visit .outside)

/-- The innermost open call of a thread before a position. -/
def innermost (edges : List Edge) (thread position : Nat) : Option Nat :=
  ((stackAt (moves edges thread) position).bind List.head?).map Prod.fst

/-- The name of the action of an edge. -/
def Trace.displayOf (edge : Edge) : Option String := edge.action.bind (et.actions[·]?)

/-- Where an edge belongs; the block is the one that is open if it is a declaration. -/
def Trace.placementOf (edge : Edge) (position : Nat) (block : Option Nat) : Placement where
  position := position
  thread := some edge.thread
  call := innermost et.edges edge.thread position
  action := et.displayOf edge
  block := block

/-- Where edges belong: declarations in a row are one block. -/
def Trace.expectedFrom (et : Trace) (block : Option Nat) : List (Edge × Nat) → List Placement
  | [] => []
  | (edge, position) :: rest =>
    let block := if edge.declaration then some (block.getD position) else none
    et.placementOf edge position block :: et.expectedFrom block rest

def Trace.expected : List Placement := et.expectedFrom none et.body

end Klever.ErrorTrace
