import Klever.Lib.Nesting
import Klever.Lib.Run

/-!
# Calls in error traces

A violation witness becomes a linear error trace: edges of threads that interleave, some of which enter
functions or return from them. `get_func_return_edge` looks for the return of a call: it counts the
calls of the same function in between, of whatever thread. On it rest `merge_func_entry_and_exit`, which
drops the edge after a return, and `_find_violation_path`, which skips the edges of calls that return.

What a call is, is said by the stacks of threads: an entry is pushed when a function is entered, and the
return edge that pops the entry is the return of that very call. The functions above find these returns,
drop edges of the threads of calls and skip just what is inside of calls if and only if threads switch
neither inside a call that returns nor right after it.
-/

namespace Klever.ErrorTrace

open Klever.Lib.Nesting List
open Option hiding or_assoc

/-! ## Traces -/

structure Note where
  text : String
  level : Nat
  hide : Bool
  deriving DecidableEq, Repr

/-- An edge; functions and actions are given by their identifiers. -/
structure Edge where
  thread : Nat
  enter : Option Nat
  /-- the function from which the edge returns -/
  ret : Option Nat
  condition : Bool
  declaration : Bool
  action : Option Nat
  file : Nat
  line : Nat
  source : Option String
  notes : Option (List Note)
  assumption : Option String
  display : Option String
  entryPoint : Option String
  deriving DecidableEq, Repr

/-- The loop of `get_func_return_edge` over the edges from a position on. -/
def findReturn (func : Nat) : Nat → Nat → List Edge → Option Nat
  | _, _, [] => none
  | position, subcalls, edge :: rest =>
    let subcalls := if edge.enter = some func then subcalls + 1 else subcalls
    if edge.ret = some func then
      if subcalls = 0 then some position else findReturn func (position + 1) (subcalls - 1) rest
    else findReturn func (position + 1) subcalls rest

variable (edges : List Edge)

/-- `get_func_return_edge`: the position of the return edge for an edge that enters a function. -/
def getFuncReturnEdge (position : Nat) : Option Nat := do
  let edge ← edges[position]?
  let func ← edge.enter
  findReturn func (position + 1) 0 (edges.drop (position + 1))

/-- The edge after the return of a call. -/
def exitEdge (position : Nat) : Option Nat :=
  (getFuncReturnEdge edges position).bind fun returned =>
    if returned + 1 < edges.length then some (returned + 1) else none

/-- Is the source of a call to be replaced by that of its exit? Not if it is called within a condition. -/
def overwrites (exit : Edge) : Option Edge → Bool
  | none => true
  | some next => !next.condition || exit.line ≠ next.line

/-- The source of a call after merging. -/
def mergedSource (edge exit : Edge) (next : Option Edge) : Option (Option String) :=
  if overwrites exit next then exit.source.map some else some edge.source

/-- The data of an exit are moved to the edge that enters the function. -/
def mergeExit (position exit : Nat) : Option (List Edge) := do
  let edge ← edges[position]?
  let last ← edges[exit]?
  let source ← mergedSource edge last edges[exit + 1]?
  let edge := { edge with source := source, notes := some (edge.notes.getD [] ++ last.notes.getD []) }
  some ((edges.set position edge).set exit { last with notes := none })

/-- `is_warning` -/
def isWarning (edge : Edge) : Bool := (edge.notes.getD []).any fun note => note.level = 0

/-- The exits of calls that return, the last one first. -/
def edgesToRemove : List Nat :=
  ((List.range edges.length).filterMap (exitEdge edges)).reverse

/-- `remove_edge_and_target_node` on a path of edges with their first positions: what follows the edge follows then what was
before it. An edge with a warning is not removed, and none is removed twice. -/
def removeEdgeAndTargetNode (left : List (Edge × Nat)) (position : Nat) : Option (List (Edge × Nat)) := do
  let edge ← left.find? (·.2 = position)
  if isWarning edge.1 then none else some (left.erase edge)

/-- The exits are removed one after another. -/
def removeEdges (remove : List Nat) : Option (List Edge) := do
  let left ← remove.foldlM removeEdgeAndTargetNode edges.zipIdx
  some (left.map Prod.fst)

/-- `merge_func_entry_and_exit`. What changes in the loop does not matter for finding exits. -/
def mergeFuncEntryAndExit : Option (List Edge) := do
  let merged ← (List.range edges.length).foldlM (fun merged position =>
    match exitEdge edges position with
    | some exit => mergeExit merged position exit
    | none => some merged) edges
  removeEdges merged (edgesToRemove edges)

/-- The loop of `_find_violation_path`; the edges that are found are put in front. -/
def violationEdges (edges : List Edge) : Nat → Nat → List Nat → List Nat
  | 0, _, found => found
  | fuel + 1, position, found =>
    if position < edges.length then
      match getFuncReturnEdge edges position with
      | some returned => violationEdges edges fuel (returned + 1) found
      | none => violationEdges edges fuel (position + 1) (position :: found)
    else found

/-- `_find_violation_path` -/
def findViolationPath : List Nat := violationEdges edges edges.length 0 []

/-! ## Calls -/

/-- What an edge does to the stack of a thread. A function that is entered and returns at once is not put
on it. -/
def Edge.move (edge : Edge) (thread : Nat) : Move Nat :=
  if edge.thread = thread then
    match edge.enter, edge.ret with
    | some func, none => .push func
    | none, some func => .pop func
    | _, _ => .stay
  else .stay

def moves (thread : Nat) (position : Nat) : Move Nat :=
  (edges[position]?).elim .stay (·.move thread)

/-- Enters and returns are properly nested within each thread. -/
structure Nested : Prop where
  never_fails : ∀ thread position, (stackAt (moves edges thread) position).isSome
  /-- a function that returns at once is the one that is entered -/
  instant : ∀ edge ∈ edges, ∀ func ∈ edge.enter, ∀ func' ∈ edge.ret, func = func'

/-- The call entered at a position returns at another one. -/
def Returns (entered returned : Nat) : Prop :=
  (∃ thread, Closes (moves edges thread) entered returned) ∨
    entered = returned ∧ ∃ edge, edges[returned]? = some edge ∧ edge.enter.isSome ∧ edge.ret.isSome

/-- The thread of an edge. -/
def threadAt (position : Nat) : Option Nat := (edges[position]?).map (·.thread)

/-- An edge is inside a call of its thread that has returned. -/
def Inside (position : Nat) : Prop :=
  ∃ entered returned, Returns edges entered returned ∧ entered ≤ position ∧ position ≤ returned ∧
    threadAt edges position = threadAt edges entered

variable {edges : List Edge} {thread pos func : Nat}

theorem moves_push : moves edges thread pos = .push func ↔ ∃ edge, edges[pos]? = some edge ∧
    edge.thread = thread ∧ edge.enter = some func ∧ edge.ret = none := by
  unfold moves
  cases edges[pos]? with
  | none => simp
  | some edge =>
    simp only [elim_some, Edge.move, some.injEq, exists_eq_left']
    by_cases here : edge.thread = thread
    · rw [if_pos here]
      cases edge.enter <;> cases edge.ret <;> simp [here]
    · simp [here]

theorem moves_pop : moves edges thread pos = .pop func ↔ ∃ edge, edges[pos]? = some edge ∧
    edge.thread = thread ∧ edge.enter = none ∧ edge.ret = some func := by
  unfold moves
  cases edges[pos]? with
  | none => simp
  | some edge =>
    simp only [elim_some, Edge.move, some.injEq, exists_eq_left']
    by_cases here : edge.thread = thread
    · rw [if_pos here]
      cases edge.enter <;> cases edge.ret <;> simp [here]
    · simp [here]

variable {entered returned : Nat}

section

variable (closes : Closes (moves edges thread) entered returned)

include closes

/-- The edges of a call that returns. -/
theorem closes_edges : ∃ edge edge' func, edges[entered]? = some edge ∧ edge.thread = thread ∧ edge.enter = some func ∧
      edge.ret = none ∧ edges[returned]? = some edge' ∧ edge'.thread = thread ∧ edge'.enter = none ∧
      edge'.ret = some func := by
  obtain ⟨func, -, -, push, pop, -⟩ := closes.opened
  obtain ⟨edge, found, its, enters, stays⟩ := moves_push.mp push
  obtain ⟨edge', found', its', stays', returns⟩ := moves_pop.mp pop
  exact ⟨edge, edge', func, found, its, enters, stays, found', its', stays', returns⟩

theorem closes_thread {edge : Edge} (found : edges[entered]? = some edge) : edge.thread = thread := by
  obtain ⟨edge', -, -, found', its, -⟩ := closes_edges closes
  rw [found] at found'
  cases found'
  exact its

theorem threadAt_entered : threadAt edges entered = some thread := by
  obtain ⟨edge, -, -, found, its, -⟩ := closes_edges closes
  rw [threadAt, found, ← its]
  rfl

theorem threadAt_returned : threadAt edges returned = some thread := by
  obtain ⟨-, edge', -, -, -, -, -, found, its, -⟩ := closes_edges closes
  rw [threadAt, found, ← its]
  rfl

/-- If the thread does not switch inside of the call, all its edges are of this thread. -/
theorem threadAt_within (own : ∀ pos, entered < pos → pos < returned → threadAt edges pos = some thread)
    (le : entered ≤ pos) (le' : pos ≤ returned) : threadAt edges pos = some thread := by
  obtain rfl | later := Nat.eq_or_lt_of_le le
  · exact threadAt_entered closes
  · obtain rfl | before := Nat.eq_or_lt_of_le le'
    · exact threadAt_returned closes
    · exact own pos later before

end

/-- There are edges up to every edge. -/
theorem exists_edge {before : Nat} {edge : Edge} (found : edges[pos]? = some edge)
    (le : before ≤ pos) : ∃ edge, edges[before]? = some edge := by
  obtain ⟨lt, -⟩ := List.getElem?_eq_some_iff.mp found
  exact ⟨_, getElem?_eq_getElem (by omega)⟩

/-! ## The search for a return -/

/-- The search from a position on. -/
def findFrom (edges : List Edge) (func position subcalls : Nat) : Option Nat :=
  findReturn func position subcalls (edges.drop position)

theorem findFrom_end (out : edges[pos]? = none) (subcalls : Nat) : findFrom edges func pos subcalls = none := by
  rw [findFrom, drop_eq_nil_of_le (List.getElem?_eq_none_iff.mp out)]
  rfl

section

variable {edge : Edge} (found : edges[pos]? = some edge)

include found

theorem findFrom_cons (subcalls : Nat) :
    findFrom edges func pos subcalls = let subcalls := if edge.enter = some func then subcalls + 1 else subcalls
      if edge.ret = some func then
        if subcalls = 0 then some pos else findFrom edges func (pos + 1) (subcalls - 1)
      else findFrom edges func (pos + 1) subcalls := by
  obtain ⟨lt, is⟩ := List.getElem?_eq_some_iff.mp found
  rw [findFrom, drop_eq_getElem_cons lt, is]
  rfl

theorem findFrom_other (enters : edge.enter ≠ some func) (returns : edge.ret ≠ some func) (subcalls : Nat) :
    findFrom edges func pos subcalls = findFrom edges func (pos + 1) subcalls := by
  rw [findFrom_cons found]
  simp [enters, returns]

theorem findFrom_enter (enters : edge.enter = some func) (stays : edge.ret = none) (subcalls : Nat) :
    findFrom edges func pos subcalls = findFrom edges func (pos + 1) (subcalls + 1) := by
  rw [findFrom_cons found]
  simp [enters, stays]

theorem findFrom_return (stays : edge.enter = none) (returns : edge.ret = some func) (subcalls : Nat) :
    findFrom edges func pos subcalls =
      if subcalls = 0 then some pos else findFrom edges func (pos + 1) (subcalls - 1) := by
  rw [findFrom_cons found]
  simp [stays, returns]

theorem getFuncReturnEdge_eq (enters : edge.enter = some func) :
    getFuncReturnEdge edges pos = findFrom edges func (pos + 1) 0 := by
  simp [getFuncReturnEdge, found, enters, findFrom]

end

/-- What is found lies ahead. -/
theorem lt_of_findReturn {subcalls : Nat} {rest : List Edge}
    (found : findReturn func pos subcalls rest = some returned) : pos ≤ returned := by
  induction rest generalizing pos subcalls with
  | nil => cases found
  | cons edge rest ih =>
    rw [findReturn] at found
    generalize (if edge.enter = some func then subcalls + 1 else subcalls) = count at found
    split at found
    · split at found
      · cases found
        exact le_rfl
      · have := ih found
        omega
    · have := ih found
      omega

theorem lt_of_getFuncReturnEdge (found : getFuncReturnEdge edges pos = some returned) : pos < returned := by
  obtain ⟨edge, -, found⟩ := bind_eq_some_iff.mp found
  obtain ⟨func, -, found⟩ := bind_eq_some_iff.mp found
  exact lt_of_findReturn found

/-! ## Threads that do not switch inside of calls -/

/-- What the functions need of a trace: no function returns at once, and threads switch neither inside a
call that returns nor right after it. -/
structure Solid (edges : List Edge) : Prop where
  slow : ∀ edge ∈ edges, edge.enter = none ∨ edge.ret = none
  within : ∀ entered returned, Returns edges entered returned → ∀ position, entered < position →
    position < returned → threadAt edges position = threadAt edges entered
  after : ∀ entered returned, Returns edges entered returned → returned + 1 < edges.length →
    threadAt edges (returned + 1) = threadAt edges entered

/-- An edge of a thread changes the count of the search as it changes the open calls of the function above
some part of the stack. -/
theorem findFrom_move {edge : Edge} (found : edges[pos]? = some edge)
    (slow : edge.enter = none ∨ edge.ret = none) (here : edge.thread = thread)
    {front front' base : List (Nat × Nat)}
    (moved : (edge.move thread).on pos (front ++ base) = some (front' ++ base)) (subcalls : Nat) :
    findFrom edges func pos (subcalls + front.countP fun call => call.2 = func) =
      findFrom edges func (pos + 1) (subcalls + front'.countP fun call => call.2 = func) := by
  rw [Edge.move, if_pos here] at moved
  cases enters : edge.enter with
  | none =>
    cases returns : edge.ret with
    | none =>
      rw [enters, returns] at moved
      have same := append_cancel_right (some.inj moved)
      rw [findFrom_other found (by simp [enters]) (by simp [returns]), same]
    | some other =>
      simp only [enters, returns, Move.on] at moved
      split at moved
      next at' its rest whole =>
        split at moved
        next same =>
          subst same
          cases front with
          | nil =>
            -- what is below does not return
            have length := congrArg List.length ((some.inj moved).symm ▸ whole)
            simp only [nil_append, length_cons, length_append] at length
            omega
          | cons top front =>
            obtain ⟨rfl, rfl⟩ := whole
            have rest := append_cancel_right (some.inj moved)
            subst rest
            by_cases mine : its = func
            · subst mine
              rw [findFrom_return found enters returns, if_neg (by simp)]
              simp
            · rw [findFrom_other found (by simp [enters]) (by simp [returns, mine])]
              simp [mine]
        next => cases moved
      next => cases moved
  | some other =>
    have stays : edge.ret = none := by simpa [enters] using slow
    rw [enters, stays] at moved
    have more := append_cancel_right (show ((pos, other) :: front) ++ _ = front' ++ _ from some.inj moved)
    subst more
    by_cases mine : other = func
    · subst mine
      rw [findFrom_enter found enters stays]
      simp [Nat.add_assoc]
    · rw [findFrom_other found (by simp [enters, mine]) (by simp [stays])]
      simp [mine]

section

variable (slow : ∀ edge ∈ edges, edge.enter = none ∨ edge.ret = none)

include slow

/-- While a call that returns is open, the search counts its open subcalls of the function. -/
theorem findFrom_within (closes : Closes (moves edges thread) entered returned)
    (own : ∀ pos, entered < pos → pos < returned → threadAt edges pos = some thread)
    (subcalls : Nat) {pos : Nat} (later : entered < pos) (before : pos ≤ returned)
    {front below : List (Nat × Nat)}
    (is : stackAt (moves edges thread) pos = some (front ++ (entered, func) :: below)) :
    findFrom edges func (entered + 1) subcalls =
      findFrom edges func pos (subcalls + front.countP fun call => call.2 = func) := by
  obtain ⟨-, edge', -, -, -, -, -, last, -⟩ := closes_edges closes
  obtain ⟨-, push, opened, between⟩ := stackAt_opened is
  induction pos, later using Nat.le_induction generalizing front with
  | base =>
    obtain ⟨stack, was, moved⟩ := stackAt_succ.mp is
    rw [opened] at was
    cases was
    rw [push, Move.on, some.injEq] at moved
    have none : front = [] := by
      have length := congrArg List.length moved
      simp only [length_cons, length_append] at length
      exact length_eq_zero_iff.mp (by omega)
    rw [none]
    rfl
  | succ pos later ih =>
    obtain ⟨edge, found⟩ := exists_edge last (show pos ≤ returned by omega)
    have here : edge.thread = thread := by
      have its := own pos later before
      rw [threadAt, found] at its
      exact some.inj its
    obtain ⟨front', was⟩ := between pos later (by omega)
    rw [ih (by omega) was fun m after le => between m after (by omega)]
    obtain ⟨stack, was', moved⟩ := stackAt_succ.mp is
    rw [was] at was'
    cases was'
    have move : moves edges thread pos = edge.move thread := by rw [moves, found]; rfl
    rw [move] at moved
    exact findFrom_move found (slow edge (mem_of_getElem? found)) here moved subcalls

/-- The search finds the return of a call that threads do not interrupt. -/
theorem findFrom_returned (closes : Closes (moves edges thread) entered returned)
    (own : ∀ pos, entered < pos → pos < returned → threadAt edges pos = some thread)
    (push : moves edges thread entered = .push func) (subcalls : Nat) :
    findFrom edges func (entered + 1) subcalls =
      if subcalls = 0 then some returned else findFrom edges func (returned + 1) (subcalls - 1) := by
  obtain ⟨func', below, later, push', pop, -, is, -⟩ := closes.opened
  rw [push] at push'
  cases push'
  obtain ⟨edge, found, -, stays, returns⟩ := moves_pop.mp pop
  have within := @findFrom_within _ _ _ _ _ slow closes own subcalls _ later le_rfl [] _ is
  rw [within]
  exact findFrom_return found stays returns subcalls

/-- If no function returns at once, returns are those that pop stacks. -/
theorem closes_of_returns
    (returns : Returns edges entered returned) : ∃ thread, Closes (moves edges thread) entered returned := by
  obtain closes | ⟨-, edge, found, enters, returns⟩ := returns
  · exact closes
  · obtain none | none := slow edge (mem_of_getElem? found)
    · rw [none] at enters
      cases enters
    · rw [none] at returns
      cases returns

end

namespace Solid

theorem own (solid : Solid edges) (closes : Closes (moves edges thread) entered returned) (pos : Nat)
    (later : entered < pos) (before : pos < returned) : threadAt edges pos = some thread :=
  (solid.within entered returned (.inl ⟨thread, closes⟩) pos later before).trans
    (threadAt_entered closes)

variable (solid : Solid edges) {edge : Edge} (found : edges[entered]? = some edge) (enters : edge.enter.isSome)

include solid found enters

/-- A return of the function after a call that does not return is that of a later call. -/
theorem lt_of_open (stuck : ∀ returned, ¬ Returns edges entered returned) {other : Nat}
    (closes : Closes (moves edges thread) other returned) (before : entered < returned) : entered < other := by
  by_contra late
  obtain rfl | earlier := Nat.eq_or_lt_of_le (Nat.le_of_not_lt late)
  · exact stuck returned (.inl ⟨thread, closes⟩)
  · -- then it is a subcall of the other one
    have its := solid.own closes entered earlier before
    rw [threadAt, found] at its
    obtain ⟨func, is⟩ := isSome_iff_exists.mp enters
    have stays : edge.ret = none := by
      simpa [is] using solid.slow edge (mem_of_getElem? found)
    obtain ⟨q, inner⟩ := closes.exists_inner earlier before
      (moves_push.mpr ⟨edge, found, some.inj its, is, stays⟩)
    exact stuck q (.inl ⟨thread, inner⟩)

/-- The search goes past all later calls. -/
theorem findFrom_none (nested : Nested edges) (stuck : ∀ returned, ¬ Returns edges entered returned) (later : entered < pos)
    (apart : ∀ thread other returned, Closes (moves edges thread) other returned →
      moves edges thread other = .push func → entered < other → other < pos → returned < pos)
    (subcalls : Nat) : findFrom edges func pos subcalls = none := by
  induction left : edges.length - pos using Nat.strong_induction_on generalizing pos subcalls with
  | _ left ih =>
    subst left
    cases here : edges[pos]? with
    | none => exact findFrom_end here subcalls
    | some edge' =>
      obtain ⟨lt, -⟩ := List.getElem?_eq_some_iff.mp here
      have slow := solid.slow edge' (mem_of_getElem? here)
      -- nothing of the function is open at the next position, either
      have next (apart' : ∀ thread returned, Closes (moves edges thread) pos returned →
          moves edges thread pos = .push func → returned < pos + 1) (subcalls : Nat) :
          findFrom edges func (pos + 1) subcalls = none := by
        refine ih _ (by omega) (by omega) (fun thread other returned closes push after before => ?_) subcalls rfl
        obtain rfl | before := Nat.eq_or_lt_of_le (Nat.le_of_lt_succ before)
        · exact apart' thread returned closes push
        · have := apart thread other returned closes push after before
          omega
      by_cases returns : edge'.ret = some func
      · -- such a return is that of a later call, which is over
        exfalso
        have stays : edge'.enter = none := by simpa [returns] using slow
        obtain ⟨other, closes⟩ := exists_closes (nested.never_fails edge'.thread (pos + 1))
          (moves_pop.mpr ⟨edge', here, rfl, stays, returns⟩)
        have after := solid.lt_of_open found enters stuck closes later
        obtain ⟨func', -, lt', push, pop, -⟩ := closes.opened
        have same : func' = func := by
          obtain ⟨edge'', here', -, -, is⟩ := moves_pop.mp pop
          rw [here] at here'
          cases here'
          rw [returns] at is
          exact (some.inj is).symm
        subst same
        exact Nat.lt_irrefl _ (apart _ other pos closes push after lt')
      · by_cases enters' : edge'.enter = some func
        · have stays : edge'.ret = none := by simpa [enters'] using slow
          have push : moves edges edge'.thread pos = .push func :=
            moves_push.mpr ⟨edge', here, rfl, enters', stays⟩
          rw [findFrom_enter here enters' stays]
          by_cases returned : ∃ returned, Closes (moves edges edge'.thread) pos returned
          · -- a call that returns is gone past as a whole
            obtain ⟨returned, closes⟩ := returned
            rw [findFrom_returned solid.slow closes (solid.own closes) push, if_neg (by omega)]
            have lt' := closes.lt
            refine ih _ (by omega) (by omega) (fun thread other q inner push' after before => ?_) _ rfl
            obtain earlier | rfl | inside : other < pos ∨ other = pos ∨ pos < other := by omega
            · have := apart thread other q inner push' after earlier
              omega
            · obtain rfl := closes_thread inner here
              have := inner.unique closes
              omega
            · have its := threadAt_within closes (solid.own closes) inside.le (by omega)
              rw [threadAt_entered inner] at its
              cases its
              have := closes.nested inner inside (by omega)
              omega
          · exact next (fun thread returned' closes _ =>
              absurd ⟨returned', closes_thread closes here ▸ closes⟩ returned) _
        · rw [findFrom_other here enters' returns]
          refine next (fun thread returned' _ push => absurd ?_ enters') _
          obtain ⟨edge'', here', -, is, -⟩ := moves_push.mp push
          rw [here] at here'
          cases here'
          exact is

/-- The search finds the return of that very call. -/
theorem getFuncReturnEdge_iff (nested : Nested edges) :
    getFuncReturnEdge edges entered = some returned ↔ Returns edges entered returned := by
  obtain ⟨func, is⟩ := isSome_iff_exists.mp enters
  have stays : edge.ret = none := by simpa [is] using solid.slow edge (mem_of_getElem? found)
  rw [getFuncReturnEdge_eq found is]
  -- a call that returns is found at once
  have finds {returned : Nat} (returns : Returns edges entered returned) :
      findFrom edges func (entered + 1) 0 = some returned := by
    obtain ⟨thread, closes⟩ := closes_of_returns solid.slow returns
    rw [findFrom_returned solid.slow closes (solid.own closes)
      (moves_push.mpr ⟨edge, found, closes_thread closes found, is, stays⟩), if_pos rfl]
  refine ⟨fun result => ?_, finds⟩
  by_cases some : ∃ returned, Returns edges entered returned
  · obtain ⟨returned', returns⟩ := some
    rw [finds returns] at result
    exact some.inj result ▸ returns
  · rw [solid.findFrom_none found enters nested (not_exists.mp some) (Nat.lt_succ_self entered)
      (fun _ _ _ _ _ _ _ => by omega)] at result
    cases result

end Solid

/-! ## The violation path -/

/-- The position at which the loop goes on. -/
def nextPosition (edges : List Edge) (position : Nat) : Nat :=
  match getFuncReturnEdge edges position with
  | some returned => returned + 1
  | none => position + 1

theorem lt_nextPosition (position : Nat) : position < nextPosition edges position := by
  unfold nextPosition
  split
  next found =>
    have := lt_of_getFuncReturnEdge found
    omega
  next => omega

/-- The loop comes to a position. -/
def Reached (edges : List Edge) (position : Nat) : Prop := ∃ n, (nextPosition edges)^[n] 0 = position

/-- The loop goes on behind what it skips. -/
theorem Reached.next_le {other : Nat} (here : Reached edges pos) (there : Reached edges other)
    (lt : pos < other) (found : getFuncReturnEdge edges pos = some returned) : returned < other := by
  have next : nextPosition edges pos = returned + 1 := by rw [nextPosition, found]
  obtain ⟨m, rfl⟩ := here
  obtain ⟨n, rfl⟩ := there
  have mono : StrictMono fun n => (nextPosition edges)^[n] 0 := by
    refine strictMono_nat_of_lt_succ fun n => ?_
    rw [Function.iterate_succ_apply']
    exact lt_nextPosition _
  have before : m < n := mono.lt_iff_lt.mp lt
  rw [← Function.iterate_succ_apply' (nextPosition edges)] at next
  exact Nat.lt_of_succ_le (next.symm.trans_le (mono.monotone before))

/-- Each position is that of a step of the loop or is skipped by one. -/
theorem exists_reached (position : Nat) :
    ∃ start, Reached edges start ∧ start ≤ position ∧ position < nextPosition edges start := by
  induction position with
  | zero => exact ⟨0, ⟨0, rfl⟩, le_rfl, lt_nextPosition 0⟩
  | succ position ih =>
    obtain ⟨start, ⟨n, reached⟩, le, lt⟩ := ih
    by_cases more : position + 1 < nextPosition edges start
    · exact ⟨start, ⟨n, reached⟩, by omega, more⟩
    · refine ⟨nextPosition edges start, ⟨n + 1, ?_⟩, by omega, ?_⟩
      · rw [Function.iterate_succ_apply', reached]
      · have := @lt_nextPosition edges (nextPosition edges start)
        omega

theorem mem_violationEdges {fuel start position : Nat} {found : List Nat} (enough : edges.length ≤ fuel + start) :
    position ∈ violationEdges edges fuel start found ↔ position ∈ found ∨
      (∃ n, (nextPosition edges)^[n] start = position) ∧ position < edges.length ∧
        getFuncReturnEdge edges position = none := by
  -- the loop does not come back
  have ahead (start n : Nat) : start ≤ (nextPosition edges)^[n] start := by
    induction n with
    | zero => exact le_rfl
    | succ n ih =>
      rw [Function.iterate_succ_apply']
      have := @lt_nextPosition edges ((nextPosition edges)^[n] start)
      omega
  have out (start : Nat) (behind : edges.length ≤ start) : ¬ ((∃ n, (nextPosition edges)^[n] start = position) ∧
      position < edges.length ∧ getFuncReturnEdge edges position = none) := by
    rintro ⟨⟨n, rfl⟩, lt, -⟩
    have := ahead start n
    omega
  induction fuel generalizing start found with
  | zero => exact (or_iff_left (out start (by omega))).symm
  | succ fuel ih =>
    unfold violationEdges
    split
    next inside =>
      have split : (∃ n, (nextPosition edges)^[n] start = position) ↔ start = position ∨
          ∃ n, (nextPosition edges)^[n] (nextPosition edges start) = position := by
        constructor
        · rintro ⟨n, is⟩
          cases n with
          | zero => exact .inl is
          | succ n => exact .inr ⟨n, is⟩
        · rintro (is | ⟨n, is⟩)
          · exact ⟨0, is⟩
          · exact ⟨n + 1, is⟩
      rw [split]
      have onward := @lt_nextPosition edges start
      cases result : getFuncReturnEdge edges start with
      | some returned =>
        have next : nextPosition edges start = returned + 1 := by rw [nextPosition, result]
        rw [next] at onward ⊢
        refine (@ih (returned + 1) found (by omega)).trans ?_
        refine or_congr_right (and_congr_left fun kept => ⟨.inr, fun reached => reached.resolve_left ?_⟩)
        rintro rfl
        rw [result] at kept
        cases kept.2
      | none =>
        have next : nextPosition edges start = start + 1 := by rw [nextPosition, result]
        rw [next] at onward ⊢
        refine (@ih (start + 1) (start :: found) (by omega)).trans ?_
        rw [mem_cons, or_and_right, or_assoc, or_left_comm]
        refine or_congr_right (or_congr_left ⟨?_, fun here => here.1.symm⟩)
        rintro rfl
        exact ⟨rfl, inside, result⟩
    next => exact (or_iff_left (out start (by omega))).symm

/-- An edge that is not in the path is skipped together with a call. -/
theorem notMem_findViolationPath {position : Nat} (inside : position < edges.length) :
    position ∉ findViolationPath edges ↔ ∃ entered returned, Reached edges entered ∧
      getFuncReturnEdge edges entered = some returned ∧ entered ≤ position ∧ position ≤ returned := by
  rw [findViolationPath, mem_violationEdges (by omega)]
  simp only [not_mem_nil, false_or]
  constructor
  · intro out
    obtain ⟨start, reached, le, lt⟩ := @exists_reached edges position
    unfold nextPosition at lt
    split at lt
    next returned found => exact ⟨start, returned, reached, found, le, by omega⟩
    next none =>
      obtain rfl : start = position := by omega
      exact absurd ⟨reached, inside, none⟩ out
  · rintro ⟨entered, returned, reached, found, le, le'⟩ ⟨here, -, none⟩
    obtain rfl | lt := Nat.eq_or_lt_of_le le
    · rw [found] at none
      cases none
    · have := reached.next_le here lt found
      omega

/-! ## What the functions do -/

/-- The functions do what they are for: the return of that very call is found, only edges of the threads of
calls that follow their returns are removed, and just the edges that are inside of calls are skipped. -/
structure Matched (edges : List Edge) : Prop where
  finds : ∀ entered edge, edges[entered]? = some edge → edge.enter.isSome → ∀ returned,
    getFuncReturnEdge edges entered = some returned ↔ Returns edges entered returned
  removes : ∀ exit ∈ edgesToRemove edges, ∃ entered returned, Returns edges entered returned ∧
    exit = returned + 1 ∧ threadAt edges exit = threadAt edges entered
  keeps : ∀ position < edges.length, position ∈ findViolationPath edges ↔ ¬ Inside edges position

theorem mem_edgesToRemove {exit : Nat} : exit ∈ edgesToRemove edges ↔ ∃ entered < edges.length,
    ∃ returned, getFuncReturnEdge edges entered = some returned ∧ exit = returned + 1 ∧ exit < edges.length := by
  simp only [edgesToRemove, mem_reverse, mem_filterMap, mem_range, exitEdge,
    bind_eq_some_iff, ite_none_right_eq_some, some.injEq]
  constructor
  · rintro ⟨entered, lt, returned, found, lt', rfl⟩
    exact ⟨entered, lt, returned, found, rfl, lt'⟩
  · rintro ⟨entered, lt, returned, found, rfl, lt'⟩
    exact ⟨entered, lt, returned, found, lt', rfl⟩

/-- Only for edges that enter functions there is something to be found. -/
theorem enters_of_getFuncReturnEdge (found : getFuncReturnEdge edges entered = some returned) :
    ∃ edge, edges[entered]? = some edge ∧ edge.enter.isSome := by
  obtain ⟨edge, here, found⟩ := bind_eq_some_iff.mp found
  obtain ⟨func, enters, -⟩ := bind_eq_some_iff.mp found
  exact ⟨edge, here, by rw [enters]; rfl⟩

theorem Solid.matched (solid : Solid edges) (nested : Nested edges) : Matched edges := by
  have finds {entered : Nat} {edge : Edge} (found : edges[entered]? = some edge) (enters : edge.enter.isSome)
      (returned : Nat) : getFuncReturnEdge edges entered = some returned ↔ Returns edges entered returned :=
    solid.getFuncReturnEdge_iff found enters nested
  have returns {entered returned : Nat} (found : getFuncReturnEdge edges entered = some returned) :
      Returns edges entered returned := by
    obtain ⟨edge, here, enters⟩ := enters_of_getFuncReturnEdge found
    exact (finds here enters returned).mp found
  refine ⟨fun entered edge found enters returned => finds found enters returned, fun exit mem => ?_,
    fun pos inside => ?_⟩
  · obtain ⟨entered, -, returned, found, rfl, lt⟩ := mem_edgesToRemove.mp mem
    exact ⟨entered, returned, returns found, rfl, solid.after entered returned (returns found) lt⟩
  · rw [← not_iff_not, notMem_findViolationPath inside, not_not]
    constructor
    · rintro ⟨entered, returned, -, found, le, le'⟩
      refine ⟨entered, returned, returns found, le, le', ?_⟩
      obtain ⟨thread, closes⟩ := closes_of_returns solid.slow (returns found)
      rw [threadAt_within closes (solid.own closes) le le', threadAt_entered closes]
    · rintro ⟨entered, returned, returned', le, le', -⟩
      obtain ⟨thread, closes⟩ := closes_of_returns solid.slow returned'
      obtain ⟨edge, -, func, here, -, enters, -⟩ := closes_edges closes
      have found := (finds here (by rw [enters]; rfl) returned).mpr returned'
      obtain ⟨start, reached, before, lt⟩ := @exists_reached edges entered
      unfold nextPosition at lt
      split at lt
      next last found' =>
        refine ⟨start, last, reached, found', by omega, ?_⟩
        obtain rfl | later := Nat.eq_or_lt_of_le before
        · rw [found] at found'
          cases found'
          exact le'
        · -- a call that is entered while the other one is open is a subcall
          obtain ⟨thread', outer⟩ := closes_of_returns solid.slow (returns found')
          have its := threadAt_within outer (solid.own outer) before (by omega)
          rw [threadAt_entered closes] at its
          cases its
          have := outer.nested closes later (by omega)
          omega
      next none =>
        obtain rfl : start = entered := by omega
        rw [found] at none
        cases none

namespace Matched

variable {thread entered returned : Nat}

section

variable (matched : Matched edges)

include matched

/-- A call does not return at once, since the search begins at the next edge. -/
theorem slow : ∀ edge ∈ edges, edge.enter = none ∨ edge.ret = none := by
  intro edge mem
  obtain ⟨position, found⟩ := mem_iff_getElem?.mp mem
  by_contra both
  rw [not_or] at both
  have enters := isSome_iff_ne_none.mpr both.1
  have instant : Returns edges position position :=
    .inr ⟨rfl, edge, found, enters, isSome_iff_ne_none.mpr both.2⟩
  exact Nat.lt_irrefl _ (lt_of_getFuncReturnEdge ((matched.finds position edge found enters position).mpr instant))

theorem getFuncReturnEdge_closes (closes : Closes (moves edges thread) entered returned) :
    getFuncReturnEdge edges entered = some returned := by
  obtain ⟨edge, -, func, here, -, enters, -⟩ := closes_edges closes
  exact (matched.finds entered edge here (by rw [enters]; rfl) returned).mpr (.inl ⟨thread, closes⟩)

theorem closes_of_getFuncReturnEdge (found : getFuncReturnEdge edges entered = some returned) :
    ∃ thread, Closes (moves edges thread) entered returned := by
  obtain ⟨edge, here, enters⟩ := enters_of_getFuncReturnEdge found
  obtain closes | ⟨rfl, -⟩ := (matched.finds entered edge here enters returned).mp found
  · exact closes
  · exact absurd (lt_of_getFuncReturnEdge found) (Nat.lt_irrefl _)

/-- The edge after a return is of the thread of the call. -/
theorem after (closes : Closes (moves edges thread) entered returned)
    (more : returned + 1 < edges.length) : threadAt edges (returned + 1) = some thread := by
  have found := matched.getFuncReturnEdge_closes closes
  have lt := closes.lt
  obtain ⟨entered', returned', returns, same, its⟩ := matched.removes (returned + 1)
    (mem_edgesToRemove.mpr ⟨entered, by omega, returned, found, rfl, more⟩)
  obtain rfl : returned = returned' := by omega
  -- it is the return of one call
  obtain ⟨thread', closes'⟩ | ⟨rfl, edge, here, enters, -⟩ := returns
  · rw [its, threadAt_entered closes', ← threadAt_returned closes', threadAt_returned closes]
  · obtain ⟨-, edge', -, -, -, -, -, here', -, none, -⟩ := closes_edges closes
    rw [here] at here'
    cases here'
    rw [none] at enters
    cases enters

/-- An edge that is skipped is inside a call of its thread, and the other way round. -/
theorem skipped_iff (inside : pos < edges.length) :
    (∃ entered returned, Reached edges entered ∧ getFuncReturnEdge edges entered = some returned ∧
      entered ≤ pos ∧ pos ≤ returned) ↔
    ∃ thread entered returned, Closes (moves edges thread) entered returned ∧ entered ≤ pos ∧
      pos ≤ returned ∧ threadAt edges pos = some thread := by
  rw [← notMem_findViolationPath inside, matched.keeps pos inside, not_not]
  constructor
  · rintro ⟨entered, returned, returns, le, le', its⟩
    obtain ⟨thread, closes⟩ := closes_of_returns matched.slow returns
    exact ⟨thread, entered, returned, closes, le, le', its.trans (threadAt_entered closes)⟩
  · rintro ⟨thread, entered, returned, closes, le, le', its⟩
    exact ⟨entered, returned, .inl ⟨thread, closes⟩, le, le', its.trans (threadAt_entered closes).symm⟩

end

theorem lt_length (closes : Closes (moves edges thread) entered returned) : returned < edges.length := by
  obtain ⟨-, edge', -, -, -, -, -, found, -⟩ := closes_edges closes
  exact (List.getElem?_eq_some_iff.mp found).1

/-- What is skipped together with a call is of its thread. The last edge of another thread in it would be
inside a call that is still open when the first one returns; the return of that call would be skipped
together with a later call, which by induction has only edges of its own thread. -/
theorem reached_own (matched : Matched edges) (reached : Reached edges entered)
    (closes : Closes (moves edges thread) entered returned) :
    ∀ pos, entered < pos → pos < returned → threadAt edges pos = some thread := by
  induction left : edges.length - returned using Nat.strong_induction_on
    generalizing thread entered returned with
  | _ left ih =>
    subst left
    intro pos later before
    have inside := lt_length closes
    by_contra foreign
    obtain ⟨other, its⟩ : ∃ other, threadAt edges pos = some other := by
      rw [threadAt, getElem?_eq_getElem (by omega)]
      exact ⟨_, rfl⟩
    have differ : other ≠ thread := fun same => foreign (same ▸ its)
    -- the last edge of the other thread before the return
    obtain ⟨last, ⟨later', before', its'⟩, greatest⟩ : ∃ last,
        (entered < last ∧ last < returned ∧ threadAt edges last = some other) ∧
        ∀ m, last < m → m < returned → threadAt edges m ≠ some other := by
      let There (m : Nat) : Prop := entered < m ∧ m < returned ∧ threadAt edges m = some other
      have there : There (Nat.findGreatest There returned) :=
        Nat.findGreatest_spec before.le ⟨later, before, its⟩
      refine ⟨_, there, fun m after lt is => ?_⟩
      have := Nat.le_findGreatest lt.le (show There m from ⟨by have := there.1; omega, lt, is⟩)
      omega
    have skipped : ∃ entered returned, Reached edges entered ∧
        getFuncReturnEdge edges entered = some returned ∧ entered ≤ last ∧ last ≤ returned :=
      ⟨entered, returned, reached, matched.getFuncReturnEdge_closes closes, by omega, by omega⟩
    obtain ⟨thread', i, r, call, le, le', is⟩ := (matched.skipped_iff (by omega)).mp skipped
    obtain rfl : other = thread' := some.inj (its'.symm.trans is)
    have open' : returned < r := by
      by_contra closed
      have r_last : r = last := by
        by_contra not_last
        have lt : r < returned := by
          refine lt_of_le_of_ne (by omega) fun same => differ ?_
          exact some.inj ((same ▸ threadAt_returned call).symm.trans (threadAt_returned closes))
        exact greatest r (by omega) lt (threadAt_returned call)
      subst r_last
      have next := matched.after call (by omega)
      obtain same | lt : r + 1 = returned ∨ r + 1 < returned := by omega
      · rw [same, threadAt_returned closes] at next
        exact differ (some.inj next).symm
      · exact greatest (r + 1) (by omega) lt next
    -- the return of that call is skipped with a later call
    have call_inside := lt_length call
    obtain ⟨i', r', reached', found', le₁, le₂⟩ := (matched.skipped_iff call_inside).mpr
      ⟨other, i, r, call, call.lt.le, le_rfl, threadAt_returned call⟩
    obtain ⟨thread', call'⟩ := matched.closes_of_getFuncReturnEdge found'
    have behind : returned < i' := by
      by_contra not_behind
      have cases : i' < entered ∨ i' = entered ∨ entered < i' := by omega
      obtain lt | rfl | lt := cases
      · have := reached'.next_le reached lt found'
        omega
      · rw [matched.getFuncReturnEdge_closes closes] at found'
        cases found'
        omega
      · have := reached.next_le reached' lt (matched.getFuncReturnEdge_closes closes)
        omega
    have its := threadAt_within call' (ih _ (by have := lt_length call'; omega) reached' call' rfl) le₁ le₂
    rw [threadAt_returned call] at its
    cases its
    have := call.nested call' (by omega) le₁
    omega

theorem solid (matched : Matched edges) : Solid edges := by
  refine ⟨matched.slow, fun entered returned returns pos later before => ?_, fun entered returned returns more => ?_⟩
  · obtain ⟨thread, closes⟩ := closes_of_returns matched.slow returns
    have lt := lt_length closes
    rw [threadAt_entered closes]
    -- the call is skipped with one that is reached
    obtain ⟨start, last, reached, found, le, le'⟩ := (matched.skipped_iff (by omega)).mpr
      ⟨thread, entered, returned, closes, le_rfl, closes.lt.le, threadAt_entered closes⟩
    obtain ⟨thread', outer⟩ := matched.closes_of_getFuncReturnEdge found
    have own := matched.reached_own reached outer
    have its := threadAt_within outer own le le'
    rw [threadAt_entered closes] at its
    cases its
    obtain rfl | after := Nat.eq_or_lt_of_le le
    · rw [outer.unique closes] at own
      exact own pos later before
    · have := outer.nested closes after le'
      exact own pos (by omega) (by omega)
  · obtain ⟨thread, closes⟩ := closes_of_returns matched.slow returns
    rw [matched.after closes more, threadAt_entered closes]

end Matched

/-- Calls are matched with their returns, only their own exits are removed and just their edges are skipped
if and only if no function returns at once and threads switch neither inside a call that returns nor right
after it. -/
theorem matched_iff_solid (nested : Nested edges) : Matched edges ↔ Solid edges :=
  ⟨fun matched => matched.solid, fun solid => solid.matched nested⟩

/-! ## Checking traces -/

/-- Nothing happens behind the last edge. -/
theorem stackAt_behind (behind : edges.length ≤ pos) :
    stackAt (moves edges thread) pos = stackAt (moves edges thread) edges.length := by
  induction pos, behind using Nat.le_induction with
  | base => rfl
  | succ pos behind ih =>
    have stays : moves edges thread pos = .stay := by
      rw [moves, getElem?_eq_none behind]
      rfl
    rw [stackAt, ih, stays]
    exact bind_fun_some _

/-- Only threads of edges need to be looked at. -/
theorem nested_iff : Nested edges ↔
    (∀ thread ∈ edges.map (·.thread), (stackAt (moves edges thread) edges.length).isSome) ∧
      ∀ edge ∈ edges, ∀ func ∈ edge.enter, ∀ func' ∈ edge.ret, func = func' := by
  refine ⟨fun nested => ⟨fun thread _ => nested.never_fails thread _, nested.instant⟩,
    fun ⟨fine, instant⟩ => ⟨fun thread pos => ?_, instant⟩⟩
  by_cases known : thread ∈ edges.map (·.thread)
  · obtain le | ge := Nat.le_total pos edges.length
    · exact stackAt_of_le le (fine thread known)
    · rw [stackAt_behind ge]
      exact fine thread known
  · have stays (pos : Nat) : moves edges thread pos = .stay := by
      unfold moves
      cases found : edges[pos]? with
      | none => rfl
      | some edge =>
        refine if_neg fun here => known ?_
        exact List.mem_map.mpr ⟨edge, mem_of_getElem? found, here⟩
    have empty (pos : Nat) : stackAt (moves edges thread) pos = some [] := by
      induction pos with
      | zero => rfl
      | succ pos ih =>
        rw [stackAt, ih, stays]
        rfl
    rw [empty pos]
    rfl

instance (edges : List Edge) : Decidable (Nested edges) := decidable_of_iff _ nested_iff.symm

/-! ## The edges that are left after merging -/

variable {merged : List Edge} {exit : Nat} {note : Note}

/-- What moving the data of each exit keeps holds when exits are removed. -/
theorem exists_of_mergeFuncEntryAndExit {I : List Edge → Prop} (start : I edges)
    (keep : ∀ {before after pos exit}, exitEdge edges pos = some exit → mergeExit before pos exit = some after → I before →
      I after) (done : mergeFuncEntryAndExit edges = some merged) :
    ∃ changed, I changed ∧ removeEdges changed (edgesToRemove edges) = some merged := by
  obtain ⟨changed, folded, done⟩ := bind_eq_some_iff.mp done
  refine ⟨changed, ?_, done⟩
  generalize List.range edges.length = positions at folded
  refine Lib.foldlM_states start ?_ positions.length changed (positions.take_length.symm ▸ folded)
  intro _ _ _ _ _ _ holds step
  split at step
  next found => exact keep found step holds
  next =>
    cases step
    exact holds

/-- Some edge has the note. -/
def Carries (note : Note) (edges : List Edge) : Prop := ∃ edge ∈ edges, note ∈ edge.notes.getD []

theorem mergeExit_carries (apart : pos ≠ exit) (done : mergeExit edges pos exit = some merged)
    (carries : Carries note edges) : Carries note merged := by
  obtain ⟨edge, found, done⟩ := bind_eq_some_iff.mp done
  obtain ⟨last, found', done⟩ := bind_eq_some_iff.mp done
  obtain ⟨source, -, done⟩ := bind_eq_some_iff.mp done
  cases done
  obtain ⟨other, mem, has⟩ := carries
  obtain ⟨n, here⟩ := mem_iff_getElem?.mp mem
  by_cases moved : n = pos ∨ n = exit
  · obtain ⟨lt, -⟩ := List.getElem?_eq_some_iff.mp found
    refine ⟨_, mem_of_getElem? ((getElem?_set_ne apart.symm).trans (getElem?_set_self lt)), ?_⟩
    rcases moved with rfl | rfl
    · cases found.symm.trans here
      exact mem_append_left _ has
    · cases found'.symm.trans here
      exact mem_append_right _ has
  · obtain ⟨away, away'⟩ := not_or.mp moved
    refine ⟨other, mem_of_getElem? (i := n) ?_, has⟩
    rw [getElem?_set_ne (Ne.symm away'), getElem?_set_ne (Ne.symm away), here]

/-- Of the edges that are removed none has a warning. -/
theorem removeEdgeAndTargetNode_carries {left left' : List (Edge × Nat)} (warning : note.level = 0)
    (done : removeEdgeAndTargetNode left pos = some left') (carries : Carries note (left.map Prod.fst)) :
    Carries note (left'.map Prod.fst) := by
  obtain ⟨removed, -, done⟩ := bind_eq_some_iff.mp done
  obtain ⟨harmless, is⟩ := ite_none_left_eq_some.mp done
  cases is
  obtain ⟨edge, listed, has⟩ := carries
  obtain ⟨pair, mem, rfl⟩ := List.mem_map.mp listed
  have other : pair ≠ removed := by
    rintro rfl
    exact harmless (any_eq_true.mpr ⟨note, has, by simpa using warning⟩)
  exact ⟨pair.1, List.mem_map_of_mem ((List.mem_erase_of_ne other).mpr mem), has⟩

theorem removeEdges_carries {remove : List Nat} (warning : note.level = 0) (done : removeEdges edges remove = some merged)
    (carries : Carries note edges) : Carries note merged := by
  obtain ⟨left, folded, done⟩ := bind_eq_some_iff.mp done
  cases done
  have start : Carries note (edges.zipIdx.map Prod.fst) := by rwa [zipIdx_map_fst]
  refine Lib.foldlM_states (I := fun left => Carries note (left.map Prod.fst)) start ?_ remove.length left
    (remove.take_length.symm ▸ folded)
  intro _ _ _ _ _ _ holds step
  exact removeEdgeAndTargetNode_carries warning step holds

/-- No warning is lost, since edges with warnings are not removed. -/
theorem mergeFuncEntryAndExit_warnings (done : mergeFuncEntryAndExit edges = some merged) (warning : note.level = 0)
    (carries : Carries note edges) : Carries note merged := by
  have keep {before after : List Edge} {pos exit : Nat} (found : exitEdge edges pos = some exit)
      (step : mergeExit before pos exit = some after) : Carries note before → Carries note after := by
    obtain ⟨returned, search, found⟩ := bind_eq_some_iff.mp found
    obtain ⟨-, is⟩ := ite_none_right_eq_some.mp found
    have lt := lt_of_getFuncReturnEdge search
    have next := some.inj is
    exact mergeExit_carries (by omega) step
  obtain ⟨changed, carries, done⟩ := exists_of_mergeFuncEntryAndExit carries keep done
  exact removeEdges_carries warning done carries

/-! ## Interleaved calls -/

/-- An edge of a thread that enters a function, returns from one or does neither. -/
def edgeOf (thread : Nat) (enter ret : Option Nat) : Edge where
  thread := thread
  enter := enter
  ret := ret
  condition := false
  declaration := false
  action := none
  file := 0
  line := 1
  source := some ""
  notes := none
  assumption := none
  display := none
  entryPoint := none

/-- Two threads are in the same function at the same time. -/
def interleaved : List Edge :=
  [edgeOf 1 (some 0) none, edgeOf 2 (some 0) none, edgeOf 1 none (some 0), edgeOf 2 none (some 0)]

/-- The call of the first thread gets the return of the second one. -/
theorem interleaved_unmatched : Nested interleaved ∧ getFuncReturnEdge interleaved 0 = some 3 ∧
    Returns interleaved 0 2 ∧ ¬ Returns interleaved 0 3 := by
  have closes : Closes (moves interleaved 1) 0 2 := ⟨0, [], by decide, by decide⟩
  refine ⟨by decide, by decide, .inl ⟨1, closes⟩, ?_⟩
  rintro (⟨thread, other⟩ | ⟨same, -⟩)
  · have same : 1 = thread := @closes_thread _ _ _ _ other (edgeOf 1 (some 0) none) rfl
    subst same
    exact absurd (closes.unique other) (by decide)
  · cases same

/-- Two threads one after another. -/
def sequential : List Edge :=
  [edgeOf 1 (some 0) none, edgeOf 1 none none, edgeOf 1 none (some 0), edgeOf 1 none none,
    edgeOf 2 (some 0) none, edgeOf 2 none none]

/-- There is a warning at the exit. -/
def warned : List Edge := sequential.set 3 { edgeOf 1 none none with notes := some [⟨"", 0, false⟩] }

theorem exists_merged : ∃ merged, mergeFuncEntryAndExit warned = some merged := isSome_iff_exists.mp (by decide)

/-- The warning is moved to the call. -/
theorem warned_carries : ∃ merged, mergeFuncEntryAndExit warned = some merged ∧ Carries ⟨"", 0, false⟩ merged := by
  obtain ⟨merged, done⟩ := exists_merged
  exact ⟨merged, done, mergeFuncEntryAndExit_warnings done rfl ⟨_, mem_of_getElem? (i := 3) rfl, mem_singleton_self _⟩⟩

theorem sequential_matched : Matched sequential := by
  refine (matched_iff_solid (by decide)).mpr ?_
  have slow : ∀ edge ∈ sequential, edge.enter = none ∨ edge.ret = none := by decide
  -- there is one return
  have only {entered returned : Nat} (returns : Returns sequential entered returned) :
      entered = 0 ∧ returned = 2 := by
    obtain ⟨thread, closes⟩ := closes_of_returns slow returns
    obtain ⟨edge, edge', func, found, -, enters, -, found', -, -, returns⟩ := closes_edges closes
    have lt := closes.lt
    have last := (List.getElem?_eq_some_iff.mp found').1
    have second : returned = 2 := by
      have : ∀ n < 6, ∀ edge ∈ sequential[n]?, edge.ret.isSome → n = 2 := by decide
      exact this returned last edge' found' (by rw [returns]; rfl)
    have first : ∀ n < 2, ∀ edge ∈ sequential[n]?, edge.enter.isSome → n = 0 := by decide
    exact ⟨first entered (by omega) edge found (by rw [enters]; rfl), second⟩
  refine ⟨slow, fun entered returned returns position later before => ?_, fun entered returned returns _ => ?_⟩
  · obtain ⟨rfl, rfl⟩ := only returns
    obtain rfl : position = 1 := by omega
    rfl
  · obtain ⟨rfl, rfl⟩ := only returns
    rfl

end Klever.ErrorTrace
