import Klever.ErrorTrace.Faithful

/-!
# Which error traces become faithful trees

The other direction: whatever happens to an edge that cannot be placed, the tree is not faithful. Each stage
of the pass is inverted to say what it needed. A pass that comes to its end found the open calls that edges
need (`run_tracks`), and declarations in a row are always put into one block, wherever it is
(`placed_together`), so they belong together if the tree is faithful.
-/

namespace Klever.ErrorTrace

open Klever.Lib Klever.Lib.Nesting List Option State

variable {H : Type} (highlight : String → Option String → H) {thread : Nat}

namespace State

variable {s s' : State H} {et : Trace} {edge : Edge} {path : List Nat} {child : Rose (Label H)} {pos : Nat}

/-! ## What stages need -/

/-- Nothing is taken from the tree. -/
def Kept (s s' : State H) : Prop := ∀ x ∈ placements s.trace, x ∈ placements s'.trace

theorem Kept.refl (s : State H) : Kept s s := fun _ mem => mem

theorem Kept.trans {s₁ s₂ s₃ : State H} (first : Kept s₁ s₂) (second : Kept s₂ s₃) : Kept s₁ s₃ :=
  fun x mem => second x (first x mem)

theorem append_inv (done : s.append path child = some s') : s' = s.grow path child ∧ s.trace ≠ none ∧ Kept s s' ∧
    ∃ context, ∀ x ∈ walkFrom context child, x ∈ placements s'.trace := by
  obtain ⟨node, found, done⟩ := bind_eq_some_iff.mp done
  obtain ⟨-, done⟩ := ite_none_right_eq_some.mp done
  cases done
  obtain ⟨tree, is, there⟩ := bind_eq_some_iff.mp found
  obtain ⟨inner, rear, spot⟩ := @Rose.exists_spot _ _ _ Context.enter Context.visit _ _ _ .outside there
  obtain ⟨front, before, after⟩ := Rose.walk_append spot child
  have now : placements (s.trace.map (Rose.append child path)) =
      front ++ walkFrom (inner.enter node.label) child ++ rear := by
    rw [is]
    exact after
  refine ⟨rfl, by rw [is]; nofun, fun x mem => ?_, inner.enter node.label, fun x mem => ?_⟩
  · rw [is] at mem
    have mem : x ∈ Rose.walk Context.enter Context.visit .outside tree := mem
    rw [before] at mem
    rw [now]
    simp only [mem_append] at mem ⊢
    tauto
  · dsimp only
    rw [now]
    simp only [mem_append]
    exact .inl (.inr mem)

theorem stackOf_ne_nil (top : s.top thread = some path) : s.stackOf thread ≠ [] := by
  obtain ⟨paths, found, head⟩ := bind_eq_some_iff.mp top
  rw [stackOf, found]
  rintro rfl
  cases head

theorem target_inv (target : s.target edge = some path) : s.stackOf edge.thread ≠ [] := by
  obtain ⟨above, top, -⟩ := bind_eq_some_iff.mp target
  exact stackOf_ne_nil top

/-- A block that is put into the tree has an open call, and its declarations are all in one place. -/
theorem flush_inv (done : s.flush = some s') : Grown { s with declarations := none } s' ∧ Kept s s' ∧
    ∀ block, s.declarations = some block → s.stackOf block.edge.thread ≠ [] ∧
      ∃ context, ∀ x ∈ Rose.walkAll Context.enter Context.visit context block.children, x ∈ placements s'.trace := by
  unfold flush at done
  cases is : s.declarations with
  | none =>
    rw [is] at done
    cases done
    exact ⟨⟨rfl, rfl, rfl, is, Iff.rfl⟩, .refl s, fun block same => by cases same⟩
  | some block =>
    simp only [is, bind_eq_bind] at done
    obtain ⟨path, target, done⟩ := bind_eq_some_iff.mp done
    obtain ⟨s₁, appended, done⟩ := bind_eq_some_iff.mp done
    cases done
    obtain ⟨rfl, -, kept, context, placed⟩ := append_inv appended
    refine ⟨⟨rfl, rfl, rfl, rfl, (grown_grow s path _).trace⟩, kept, fun block' same => ?_⟩
    cases same
    refine ⟨target_inv target, context.enter (.declarations block.first : Label H), fun x mem => placed x ?_⟩
    exact mem_append_right _ mem

/-- A new thread that is not the first one begins in an open call of the thread before. -/
theorem addThread_inv (done : s.addThread edge = some s') : s'.callStacks = s.callStacks ∧
    s'.declarations = s.declarations ∧ Kept s s' ∧
    (∀ thread, (s'.threadNodes.get? thread).isSome ↔ (s.threadNodes.get? thread).isSome ∨ thread = edge.thread) ∧
    (s.trace ≠ none ∨ s.threadNodes.get? edge.thread = none → s'.trace ≠ none) ∧
    (s.threadNodes.get? edge.thread = none → s.trace ≠ none → ∃ prev, s.prevThread = some prev ∧ s.stackOf prev ≠ []) := by
  unfold addThread at done
  split at done
  next known =>
    cases done
    have known' : s.threadNodes.get? edge.thread ≠ none := isSome_iff_ne_none.mp known
    refine ⟨rfl, rfl, .refl s, fun thread => ⟨.inl, ?_⟩, fun is => is.resolve_right known', fun new => absurd new known'⟩
    rintro (is | rfl)
    · exact is
    · exact known
  next =>
    split at done
    next rootless =>
      cases done
      refine ⟨rfl, rfl, fun x mem => ?_, fun _ => Dict.isSome_get?_set, (fun _ is => by cases is), fun _ rooted => ?_⟩
      · rw [rootless] at mem
        cases mem
      · exact absurd rootless rooted
    next tree is =>
      obtain ⟨prev, before, done⟩ := bind_eq_some_iff.mp done
      obtain ⟨path, top, done⟩ := bind_eq_some_iff.mp done
      obtain ⟨parent, -, done⟩ := bind_eq_some_iff.mp done
      obtain ⟨s₁, appended, done⟩ := bind_eq_some_iff.mp done
      cases done
      obtain ⟨rfl, rooted, kept, -⟩ := append_inv appended
      exact ⟨rfl, rfl, kept, fun _ => Dict.isSome_get?_set, fun _ => mt (grown_grow s path _).trace.mp rooted,
        fun _ _ => ⟨prev, before, stackOf_ne_nil top⟩⟩

/-- An action is put into an open call. -/
theorem addAction_inv (done : s.addAction et edge = some s') : Grown s s' ∧ Kept s s' ∧
    (edge.action.isSome → s.stackOf edge.thread ≠ []) := by
  unfold addAction at done
  split at done
  next none =>
    cases done
    exact ⟨.refl s, .refl s, by simp [none]⟩
  next action is =>
    obtain ⟨display, -, done⟩ := bind_eq_some_iff.mp done
    obtain ⟨path, top, done⟩ := bind_eq_some_iff.mp done
    obtain ⟨node, -, done⟩ := bind_eq_some_iff.mp done
    split at done
    next =>
      cases done
      exact ⟨.refl s, .refl s, fun _ => stackOf_ne_nil top⟩
    next =>
      obtain ⟨rfl, -, kept, -⟩ := append_inv done
      exact ⟨grown_grow s path _, kept, fun _ => stackOf_ne_nil top⟩

/-- What is known of an edge after its own node is made. -/
structure Added (position : Nat) (edge : Edge) (s s' : State H) : Prop where
  levelled : edge.Levelled
  sourced : edge.enter = none → edge.source.isSome
  kept : Kept s s'
  threadNodes : s'.threadNodes = s.threadNodes
  trace : s'.trace = none ↔ s.trace = none
  calls : ∀ calls, (s.stackOf edge.thread).length = calls.length →
    (s'.stackOf edge.thread).length = (moveCalls edge position calls).length
  others : ∀ thread, thread ≠ edge.thread → s'.stackOf thread = s.stackOf thread
  plain : edge.declaration = false → s'.declarations = s.declarations ∧ (edge.enter = none → s.stackOf edge.thread ≠ [])
  declared : edge.declaration → ∃ child, s' = s.addDeclaration position edge child ∧
    ∀ context : Context, walkFrom context child = [context.placement position]

theorem callNode_inv (made : callNode highlight et pos edge = some child) : edge.Levelled := by
  obtain ⟨func, -, made⟩ := bind_eq_some_iff.mp made
  obtain ⟨name, -, made⟩ := bind_eq_some_iff.mp made
  obtain ⟨notes, converted, -⟩ := bind_eq_some_iff.mp made
  exact convertNotes_isSome.mp (by rw [converted]; rfl)

theorem statementNode_inv (made : statementNode highlight pos edge = some child) :
    edge.source.isSome ∧ edge.Levelled ∧ ∀ context : Context, walkFrom context child = [context.placement pos] := by
  obtain ⟨source, is, made⟩ := bind_eq_some_iff.mp made
  obtain ⟨notes, converted, made⟩ := bind_eq_some_iff.mp made
  cases made
  exact ⟨by rw [is]; rfl, convertNotes_isSome.mp (by rw [converted]; rfl), fun _ => rfl⟩

theorem enterFunction_inv (mem : edge ∈ et.edges) (enters : edge.enter.isSome)
    (done : s.enterFunction highlight et pos edge = some s') : Added pos edge s s' := by
  obtain ⟨call, made, done⟩ := bind_eq_some_iff.mp done
  obtain ⟨path, target, done⟩ := bind_eq_some_iff.mp done
  obtain ⟨parent, -, done⟩ := bind_eq_some_iff.mp done
  obtain ⟨s₁, appended, done⟩ := bind_eq_some_iff.mp done
  cases done
  obtain ⟨rfl, rooted, kept, -⟩ := append_inv appended
  have notDeclared : edge.declaration ≠ true := fun declaration => by
    rw [(et.declarations_plain edge mem declaration).1] at enters
    cases enters
  refine ⟨callNode_inv highlight made, fun none => ?_, kept, rfl, (grown_grow s path call).trace, fun calls same => ?_,
    fun thread differs => ?_, fun _ => ⟨rfl, fun none => ?_⟩, fun declaration => absurd declaration notDeclared⟩
  · rw [none] at enters
    cases enters
  · obtain ⟨func, is⟩ := isSome_iff_exists.mp enters
    rw [stackOf_set, if_pos rfl, moveCalls, is]
    cases edge.ret with
    | none => simp [same]
    | some func' => simpa using same
  · rw [stackOf_set, if_neg differs]
    rfl
  · rw [none] at enters
    cases enters

/-- A return closes an open call. -/
theorem popCall_inv (done : s.popCall thread = some s') : ∃ path stack,
    s.stackOf thread = path :: stack ∧ s' = { s with callStacks := s.callStacks.set thread stack } := by
  unfold popCall at done
  split at done
  next path stack found =>
    cases done
    refine ⟨path, stack, ?_, rfl⟩
    rw [stackOf, found]
    rfl
  next => cases done

theorem addStatement_inv (mem : edge ∈ et.edges) (stays : edge.enter = none)
    (done : s.addStatement highlight pos edge = some s') : Added pos edge s s' := by
  obtain ⟨child, made, done⟩ := bind_eq_some_iff.mp done
  obtain ⟨s₁, put, done⟩ := bind_eq_some_iff.mp done
  obtain ⟨sourced, levelled, walks⟩ := statementNode_inv highlight made
  unfold place at put
  split at put
  next declaration =>
    cases put
    have returns := (et.declarations_plain edge mem declaration).2
    rw [returns, if_neg (by simp)] at done
    cases done
    refine ⟨levelled, fun _ => sourced, fun x mem => mem, rfl, Iff.rfl, fun calls same => ?_, fun _ _ => rfl,
      fun plain => ?_, fun _ => ⟨child, rfl, walks⟩⟩
    · rw [moveCalls, stays, returns]
      exact same
    · rw [plain] at declaration
      cases declaration
  next plain =>
    obtain ⟨path, target, appended⟩ := bind_eq_some_iff.mp put
    obtain ⟨rfl, rooted, kept, -⟩ := append_inv appended
    have opened := target_inv target
    cases returns : edge.ret with
    | none =>
      rw [returns, if_neg (by simp)] at done
      cases done
      refine ⟨levelled, fun _ => sourced, kept, rfl, (grown_grow s path child).trace, fun calls same => ?_,
        fun _ _ => rfl, fun _ => ⟨rfl, fun _ => opened⟩, fun declaration => absurd declaration plain⟩
      rw [moveCalls, stays, returns]
      exact same
    | some func =>
      rw [returns, isSome_some, if_pos rfl] at done
      obtain ⟨top, below, stack, rfl⟩ := popCall_inv done
      refine ⟨levelled, fun _ => sourced, kept, rfl, (grown_grow s path child).trace, fun calls same => ?_,
        fun thread differs => ?_, fun _ => ⟨rfl, fun _ => opened⟩, fun declaration => absurd declaration plain⟩
      · have stack : s.stackOf edge.thread = top :: below := stack
        rw [stackOf_set, if_pos rfl, moveCalls, stays, returns]
        rw [stack, length_cons] at same
        rw [length_tail]
        omega
      · rw [stackOf_set, if_neg differs]
        rfl

theorem addEdge_inv (mem : edge ∈ et.edges) (done : s.addEdge highlight et pos edge = some s') :
    Added pos edge s s' := by
  unfold addEdge at done
  split at done
  next enters => exact enterFunction_inv highlight mem enters done
  next stays => exact addStatement_inv highlight mem (by simpa using stays) done

/-- A declaration leaves the block as it is for now, any other edge ends it. -/
theorem settle_inv (done : s.settle edge = some s') : Grown { s with declarations := s'.declarations } s' ∧ Kept s s' ∧
    ((edge.declaration ∧ s'.declarations = s.declarations) ∨ (edge.declaration = false ∧ s'.declarations = none ∧
      ∀ block, s.declarations = some block → s.stackOf block.edge.thread ≠ [] ∧ ∃ context,
        ∀ x ∈ Rose.walkAll Context.enter Context.visit context block.children, x ∈ placements s'.trace)) := by
  unfold settle at done
  split at done
  next declaration =>
    cases done
    exact ⟨.refl s, .refl s, .inl ⟨declaration, rfl⟩⟩
  next plain =>
    obtain ⟨grown, kept, ends⟩ := flush_inv done
    exact ⟨⟨grown.threadNodes, grown.callStacks, grown.prevThread, rfl, grown.trace⟩, kept,
      .inr ⟨by simpa using plain, grown.declarations, ends⟩⟩

theorem addDeclaration_block (s : State H) : ∃ block, (s.addDeclaration pos edge child).declarations = some block := by
  unfold addDeclaration
  cases s.declarations with
  | none => exact ⟨_, rfl⟩
  | some block => exact ⟨_, rfl⟩

end State

/-! ## What a run needs -/

variable {et : Trace} {s s' s'' : State H} {pos : Nat} {edge : Edge}

/-- What a pass keeps, whatever it puts where. -/
structure Tracks (et : Trace) (position : Nat) (s : State H) : Prop where
  after : et.globals ≤ position
  calls : ∀ thread, (s.stackOf thread).length = (openCalls et position thread).length
  seen : ∀ thread, (s.threadNodes.get? thread).isSome ↔ Seen et position thread
  prev : et.globals < position → s.prevThread = threadAt et.edges (position - 1)
  root : s.trace = none ↔ position = et.globals
  block : ∀ block, s.declarations = some block → et.globals < position ∧
    ∃ last, et.edges[position - 1]? = some last ∧ last.declaration ∧ last.thread = block.edge.thread

theorem Tracks.opened (tracks : Tracks et pos s) (busy : s.stackOf thread ≠ []) : openCalls et pos thread ≠ [] := by
  intro none
  have length := tracks.calls thread
  rw [none, length_nil] at length
  exact busy (length_eq_zero_iff.mp length)

theorem tracks_initial (nested : Nested et.edges) : Tracks et et.globals (initial : State H) where
  after := le_rfl
  calls thread := by
    rw [openCalls_globals nested le_rfl]
    rfl
  seen := (inv_initial nested).seen
  prev lt := absurd lt (Nat.lt_irrefl _)
  root := ⟨fun _ => rfl, fun _ => rfl⟩
  block _ is := by cases is

/-- Declarations in a row have the same thread and the same action. -/
def Agreeing (et : Trace) : Prop :=
  ∀ position edge last, et.globals < position → et.edges[position]? = some edge →
    et.edges[position - 1]? = some last → edge.declaration → last.declaration →
    last.thread = edge.thread ∧ et.displayOf last = et.displayOf edge

/-- One step that succeeds: the edge had what it needs, provided that the block it leaves has an open call,
and so does the block it finds. -/
theorem step_tracks (nested : Nested et.edges) (found : et.edges[pos]? = some edge) (agreeing : Agreeing et)
    (tracks : Tracks et pos s) (done : s.step highlight et pos edge = some s') :
    Tracks et (pos + 1) s' ∧ ((∀ block, s'.declarations = some block → openCalls et (pos + 1) block.edge.thread ≠ []) →
        Placeable et pos edge ∧ ∀ block, s.declarations = some block → openCalls et pos block.edge.thread ≠ []) := by
  have mem := mem_of_getElem? found
  have after := tracks.after
  obtain ⟨s₁, settled, s₂, threaded, s₃, acted, s₄, added, rfl⟩ := (step_eq_some_iff highlight).mp done
  obtain ⟨stacks₂, block₂, -, nodes₂, rooted₂, starts⟩ := addThread_inv threaded
  obtain ⟨grown, -, action⟩ := addAction_inv acted
  have added := addEdge_inv highlight mem added
  obtain ⟨same, -, ends⟩ := settle_inv settled
  have calls (thread : Nat) : s₃.stackOf thread = s.stackOf thread ∧ s₂.stackOf thread = s.stackOf thread ∧
      s₁.stackOf thread = s.stackOf thread := by
    unfold stackOf
    rw [grown.callStacks, stacks₂, same.callStacks]
    exact ⟨rfl, rfl, rfl⟩
  have unknown (new : s.trace = none) : s₁.threadNodes.get? edge.thread = none := by
    rw [same.threadNodes]
    by_contra known
    obtain ⟨earlier, later, before, -⟩ := (tracks.seen edge.thread).mp (isSome_iff_ne_none.mpr known)
    have := tracks.root.mp new
    omega
  have rooted : s₄.trace ≠ none := by
    rw [Ne, added.trace, grown.trace]
    refine rooted₂ ?_
    by_cases new : s.trace = none
    · exact .inr (unknown new)
    · exact .inl (mt same.trace.mp new)
  -- the block after the step, if there is one
  have blocks : ∀ block, s₄.declarations = some block → edge.declaration ∧ block.edge.thread = edge.thread ∧
      ∀ old, s.declarations = some old → old.edge.thread = block.edge.thread := by
    intro block is
    obtain ⟨declaration, keeps⟩ | ⟨plain, ended, -⟩ := ends
    · obtain ⟨child, rfl, -⟩ := added.declared declaration
      have before : s₃.declarations = s.declarations := by rw [grown.declarations, block₂, keeps]
      simp only [addDeclaration, before] at is
      split at is
      next none =>
        cases is
        refine ⟨declaration, rfl, fun old is => ?_⟩
        rw [none] at is
        cases is
      next old is' =>
        cases is
        obtain ⟨later, last, found', declared, thread⟩ := tracks.block old is'
        refine ⟨declaration, ?_, fun old' is => ?_⟩
        · exact thread.symm.trans (agreeing pos edge last later found found' declaration declared).1
        · rw [is'] at is
          cases is
          rfl
    · rw [(added.plain plain).1, grown.declarations, block₂, ended] at is
      cases is
  refine ⟨⟨by omega, fun thread => ?_, fun thread => ?_, fun _ => (threadAt_eq found).symm, ⟨fun none => absurd none rooted,
    fun same => by omega⟩, fun block is => ?_⟩, fun opens => ⟨⟨added.levelled, added.sourced, fun needs => ?_,
    fun new later prev before => ?_, fun declaration later last found' declared => ?_⟩, fun block is => ?_⟩⟩
  · rw [openCalls_succ nested found]
    split
    next own =>
      subst own
      exact added.calls _ (by rw [(calls _).1, tracks.calls])
    next other =>
      show (s₄.stackOf thread).length = _
      rw [added.others thread other, (calls thread).1, tracks.calls]
  · rw [seen_succ tracks.after found, ← tracks.seen]
    rw [added.threadNodes, grown.threadNodes, nodes₂, same.threadNodes]
  · obtain ⟨declaration, thread, -⟩ := blocks block is
    exact ⟨by omega, edge, found, declaration, thread.symm⟩
  · by_cases acts : edge.action.isSome
    · exact tracks.opened ((calls _).2.1 ▸ action acts)
    · have stays := needs.resolve_right acts
      by_cases declaration : edge.declaration
      · -- the block of the declaration is put somewhere later
        obtain ⟨child, is, -⟩ := added.declared declaration
        obtain ⟨block, waits⟩ : ∃ block, s₄.declarations = some block := is ▸ s₃.addDeclaration_block
        have opened := opens block waits
        have returns := (et.declarations_plain edge mem declaration).2
        rw [openCalls_stay nested found (by simp [stays, returns]), (blocks block waits).2.1] at opened
        exact opened
      · exact tracks.opened ((calls _).1 ▸ (added.plain (by simpa using declaration)).2 stays)
  · have unknown : s₁.threadNodes.get? edge.thread = none := by
      rw [same.threadNodes]
      by_contra known
      exact new ((tracks.seen edge.thread).mp (isSome_iff_ne_none.mpr known))
    have rooted : s₁.trace ≠ none := by
      rw [Ne, same.trace]
      show s.trace ≠ none
      rw [Ne, tracks.root]
      omega
    obtain ⟨prev', before', busy⟩ := starts unknown rooted
    rw [same.prevThread] at before'
    have before'' : s.prevThread = some prev' := before'
    rw [tracks.prev later, before] at before''
    cases before''
    exact tracks.opened ((calls _).2.2 ▸ busy)
  · exact agreeing pos edge last later found found' declaration declared
  · obtain ⟨declaration, keeps⟩ | ⟨plain, ended, opened⟩ := ends
    · obtain ⟨stays, returns⟩ := et.declarations_plain edge mem declaration
      obtain ⟨child, made, -⟩ := added.declared declaration
      obtain ⟨after, waits⟩ : ∃ after, s₄.declarations = some after := made ▸ s₃.addDeclaration_block
      have opened := opens after waits
      rw [openCalls_stay nested found (by simp [stays, returns]), ← (blocks after waits).2.2 block is] at opened
      exact opened
    · exact tracks.opened (opened block is).1

/-- Induction along a run that succeeds. -/
@[elab_as_elim]
theorem run_induction {P : Nat → State H → Prop} (ends : ∀ pos, et.edges.length ≤ pos → P pos s')
    (steps : ∀ pos s s₁ edge, et.edges[pos]? = some edge → s.step highlight et pos edge = some s₁ →
      run highlight et s₁ (pos + 1) = some s' → P (pos + 1) s₁ → P pos s)
    (ran : run highlight et s pos = some s') : P pos s := by
  induction left : et.edges.length - pos generalizing pos s with
  | zero =>
    rw [run_end highlight (by omega)] at ran
    cases ran
    exact ends pos (by omega)
  | succ left ih =>
    obtain ⟨edge, found⟩ : ∃ edge, et.edges[pos]? = some edge := ⟨_, getElem?_eq_getElem (by omega)⟩
    rw [run_cons highlight found] at ran
    obtain ⟨s₁, stepped, ran⟩ := bind_eq_some_iff.mp ran
    exact steps pos s s₁ edge found stepped ran (ih ran (by omega))

/-- A run that succeeds: all edges had what they need, and so has the block that waits. -/
theorem run_tracks (nested : Nested et.edges) (agreeing : Agreeing et) (tracks : Tracks et pos s)
    (ran : run highlight et s pos = some s') (flushed : s'.flush = some s'') :
    (∀ later edge, pos ≤ later → et.edges[later]? = some edge → Placeable et later edge) ∧
      ∀ block, s.declarations = some block → openCalls et pos block.edge.thread ≠ [] := by
  revert tracks
  refine run_induction highlight (fun pos behind tracks => ⟨fun later edge after found => ?_, fun block is => ?_⟩)
    (fun pos s s₁ edge found stepped _ ih tracks => ?_) ran
  · have := (List.getElem?_eq_some_iff.mp found).1
    omega
  · exact tracks.opened ((flush_inv flushed).2.2 block is).1
  · obtain ⟨tracks₁, needs⟩ := step_tracks highlight nested found agreeing tracks stepped
    obtain ⟨placeable, opened⟩ := ih tracks₁
    obtain ⟨here, before⟩ := needs opened
    refine ⟨fun later edge' behind found' => ?_, before⟩
    obtain rfl | behind := Nat.eq_or_lt_of_le behind
    · rw [found] at found'
      cases found'
      exact here
    · exact placeable later edge' behind found'

/-! ## Blocks stay together -/

theorem step_settles (found : et.edges[pos]? = some edge) (done : s.step highlight et pos edge = some s') :
    ∃ s₁, s.settle edge = some s₁ ∧ State.Kept s₁ s' := by
  obtain ⟨s₁, settled, s₂, threaded, s₃, acted, s₄, added, rfl⟩ := (step_eq_some_iff highlight).mp done
  have threaded := (addThread_inv threaded).2.2.1
  have acted := (addAction_inv acted).2.1
  have added := (addEdge_inv highlight (mem_of_getElem? found) added).kept
  exact ⟨s₁, settled, (threaded.trans acted).trans added⟩

theorem run_kept (ran : run highlight et s pos = some s') : State.Kept s s' :=
  run_induction highlight (fun _ _ => .refl _) (fun _ _ _ _ found stepped _ kept => by
    obtain ⟨s₁, settled, after⟩ := step_settles highlight found stepped
    exact ((settle_inv settled).2.1.trans after).trans kept) ran

/-- The declarations that wait. -/
def waiting (s : State H) : List (Rose (Label H)) := (s.declarations.map (·.children)).getD []

/-- A declaration waits after those that wait already. -/
theorem step_waiting (found : et.edges[pos]? = some edge) (declaration : edge.declaration)
    (done : s.step highlight et pos edge = some s') : ∃ child, waiting s' = waiting s ++ [child] ∧
      ∀ context : Context, walkFrom context child = [context.placement pos] := by
  obtain ⟨s₁, settled, s₂, threaded, s₃, acted, s₄, added, rfl⟩ := (step_eq_some_iff highlight).mp done
  obtain ⟨child, rfl, walks⟩ := (addEdge_inv highlight (mem_of_getElem? found) added).declared declaration
  have before : s₃.declarations = s.declarations := by
    rw [(addAction_inv acted).1.declarations, (addThread_inv threaded).2.1]
    obtain ⟨-, keeps⟩ | ⟨plain, -⟩ := (settle_inv settled).2.2
    · exact keeps
    · rw [plain] at declaration
      cases declaration
  refine ⟨child, ?_, walks⟩
  unfold waiting addDeclaration
  rw [before]
  cases s.declarations with
  | none => rfl
  | some block => rfl

/-- If nothing waits, any place will do. -/
theorem together_of_idle {trace : Option (Rose (Label H))} (none : s.declarations = none) : ∃ context : Context,
    ∀ x ∈ Rose.walkAll Context.enter Context.visit context (waiting s), x ∈ placements trace := by
  refine ⟨.outside, fun x mem => ?_⟩
  rw [waiting, none] at mem
  cases mem

/-- Wherever the declarations that wait are put, they are put there together. -/
theorem placed_together (ran : run highlight et s pos = some s') (flushed : s'.flush = some s'') :
    ∃ context : Context, ∀ x ∈ Rose.walkAll Context.enter Context.visit context (waiting s),
      x ∈ placements s''.trace := by
  refine run_induction highlight (fun pos behind => ?_) (fun pos s s₁ edge found stepped ran ih => ?_) ran
  · cases is : s'.declarations with
    | none => exact together_of_idle is
    | some block =>
      obtain ⟨-, context, placed⟩ := (flush_inv flushed).2.2 block is
      rw [waiting, is]
      exact ⟨context, placed⟩
  · by_cases declaration : edge.declaration
    · obtain ⟨child, waits, -⟩ := step_waiting highlight found declaration stepped
      obtain ⟨context, placed⟩ := ih
      refine ⟨context, fun x mem => placed x ?_⟩
      rw [waits, Rose.walkAll_append]
      exact mem_append_left _ mem
    · cases is : s.declarations with
      | none => exact together_of_idle is
      | some block =>
        obtain ⟨s₂, settled, after⟩ := step_settles highlight found stepped
        obtain ⟨-, -, ⟨declaration', -⟩ | ⟨-, -, ends⟩⟩ := settle_inv settled
        · exact absurd declaration' declaration
        · obtain ⟨-, context, placed⟩ := ends block is
          have rest := (run_kept highlight ran).trans (flush_inv flushed).2.1
          rw [waiting, is]
          exact ⟨context, fun x mem => rest x (after x (placed x mem))⟩

/-- The state in the middle of a run. -/
theorem run_split {middle : Nat} (ran : run highlight et s pos = some s') (le : pos ≤ middle)
    (inside : middle ≤ et.edges.length) : ∃ s₁, run highlight et s₁ middle = some s' := by
  induction left : middle - pos generalizing pos s with
  | zero =>
    obtain rfl : pos = middle := by omega
    exact ⟨s, ran⟩
  | succ left ih =>
    obtain ⟨edge, found⟩ : ∃ edge, et.edges[pos]? = some edge := ⟨_, getElem?_eq_getElem (by omega)⟩
    rw [run_cons highlight found] at ran
    obtain ⟨s₁, -, ran⟩ := bind_eq_some_iff.mp ran
    exact ih ran (by omega) (by omega)

theorem mem_expectedFrom {edges : List (Edge × Nat)} {block : Option Nat} {x : Placement}
    (mem : x ∈ et.expectedFrom block edges) : ∃ edge, (edge, x.position) ∈ edges ∧ x.thread = some edge.thread ∧
      x.action = et.displayOf edge := by
  induction edges generalizing block with
  | nil => cases mem
  | cons head rest ih =>
    obtain ⟨edge, pos⟩ := head
    obtain rfl | mem := mem_cons.mp mem
    · exact ⟨edge, mem_cons_self, rfl, rfl⟩
    · obtain ⟨edge', member, thread, action⟩ := ih mem
      exact ⟨edge', mem_cons_of_mem _ member, thread, action⟩

/-- Where an edge is expected. -/
theorem mem_expected {x : Placement} (mem : x ∈ et.expected) (found : et.edges[x.position]? = some edge) :
    x.thread = some edge.thread ∧ x.action = et.displayOf edge := by
  obtain ⟨edge', member, thread, action⟩ := mem_expectedFrom mem
  have found' := mem_zipIdx_iff_getElem?.mp (mem_of_mem_drop member)
  rw [found] at found'
  cases found'
  exact ⟨thread, action⟩

/-- Declarations in a row belong together if they are where they belong. -/
theorem agreeing_of_run (ran : run highlight et s et.globals = some s') (flushed : s'.flush = some s'')
    (faithful : ∀ x ∈ placements s''.trace, x ∈ et.expected) : Agreeing et := by
  intro pos edge last later found found' declaration declared
  obtain ⟨before, rfl⟩ : ∃ before, pos = before + 1 := ⟨pos - 1, by omega⟩
  rw [Nat.add_sub_cancel] at found'
  have inside := (List.getElem?_eq_some_iff.mp found).1
  obtain ⟨s₀, ran⟩ := run_split highlight ran (show et.globals ≤ before by omega) (by omega)
  rw [run_cons highlight found'] at ran
  obtain ⟨s₁, stepped₁, ran⟩ := bind_eq_some_iff.mp ran
  rw [run_cons highlight found] at ran
  obtain ⟨s₂, stepped₂, ran⟩ := bind_eq_some_iff.mp ran
  obtain ⟨child₁, waits₁, walks₁⟩ := step_waiting highlight found' declared stepped₁
  obtain ⟨child₂, waits₂, walks₂⟩ := step_waiting highlight found declaration stepped₂
  obtain ⟨context, placed⟩ := placed_together highlight ran flushed
  rw [waits₂, waits₁, Rose.walkAll_append, Rose.walkAll_append, (Rose.walkAll_singleton ..).trans (walks₁ context),
    (Rose.walkAll_singleton ..).trans (walks₂ context)] at placed
  have first := faithful _ (placed (context.placement before) (by simp))
  have second := faithful _ (placed (context.placement (before + 1)) (by simp))
  obtain ⟨thread₁, action₁⟩ := mem_expected first found'
  obtain ⟨thread₂, action₂⟩ := mem_expected second found
  refine ⟨some.inj (thread₁.symm.trans thread₂), action₁.symm.trans action₂⟩

/-- If the tree is faithful, all edges could be placed. -/
theorem Faithful.orderly (nested : Nested et.edges) (faithful : Faithful highlight et) : Orderly et := by
  obtain ⟨out, done, placed⟩ := faithful
  obtain ⟨globals, s, s', made, ran, flushed, rfl⟩ := (serialize_eq_some highlight).mp done
  have agreeing : Agreeing et := by
    refine agreeing_of_run highlight ran flushed fun x mem => ?_
    have here : x ∈ (placements s'.trace).filter (·.thread = x.thread) := mem_filter.mpr ⟨mem, by simp⟩
    rw [placed] at here
    exact (mem_filter.mp here).1
  have placeable := (run_tracks highlight nested agreeing (tracks_initial nested) ran flushed).1
  -- global declarations are made before all else
  have global {edge : Edge} (mem : edge ∈ et.edges.take et.globals) : edge.source.isSome ∧ edge.Levelled := by
    obtain ⟨declaration, is, -⟩ := mapM_of_mem made mem
    exact (globalDeclaration_isSome highlight).mp (by rw [is]; rfl)
  have split {edge : Edge} (mem : edge ∈ et.edges) : edge ∈ et.edges.take et.globals ∨
      ∃ pos, et.globals ≤ pos ∧ et.edges[pos]? = some edge := by
    obtain ⟨pos, found⟩ := mem_iff_getElem?.mp mem
    by_cases early : pos < et.globals
    · refine .inl (mem_iff_getElem?.mpr ⟨pos, ?_⟩)
      rw [getElem?_take_of_lt early, found]
    · exact .inr ⟨pos, by omega, found⟩
  refine ⟨fun edge mem => ?_, fun edge mem stays => ?_, placeable⟩
  · obtain early | ⟨pos, after, found⟩ := split mem
    · exact (global early).2
    · exact (placeable pos edge after found).levelled
  · obtain early | ⟨pos, after, found⟩ := split mem
    · exact (global early).1
    · exact (placeable pos edge after found).source stays

/-- A nested trace becomes a faithful tree if and only if it is orderly. -/
theorem faithful_iff_orderly (nested : Nested et.edges) : Faithful highlight et ↔ Orderly et :=
  ⟨Faithful.orderly highlight nested, Orderly.faithful highlight nested⟩

/-- A trace of threads whose edges enter and leave one function, declare something or do an action. -/
def traceOf (edges : List Edge) (enters : ∀ edge ∈ edges, ∀ func ∈ edge.enter, func < 1)
    (actions : ∀ edge ∈ edges, ∀ action ∈ edge.action, action < 1)
    (plain : ∀ edge ∈ edges, edge.declaration → edge.enter = none ∧ edge.ret = none) : Trace :=
  ⟨["f"], ["probe"], [], edges, enters, actions, plain⟩

/-- The second thread begins in the function of the first one, and both go on. -/
def alternating : Trace :=
  traceOf [edgeOf 1 (some 0) none, edgeOf 2 (some 0) none, { edgeOf 1 none none with declaration := true },
    { edgeOf 2 none none with action := some 0 }, edgeOf 2 none (some 0), edgeOf 1 none (some 0)]
    (by decide) (by decide) (by decide)

theorem alternating_orderly : Nested alternating.edges ∧ Orderly alternating := by
  have nested : Nested alternating.edges := by decide +kernel
  have built : (serialize (fun _ _ => ()) alternating).map (placements ·.trace) =
      some [⟨0, some 1, none, none, none⟩, ⟨1, some 2, none, none, none⟩, ⟨3, some 2, some 1, some "probe", none⟩,
        ⟨4, some 2, some 1, none, none⟩, ⟨2, some 1, some 0, none, some 2⟩, ⟨5, some 1, some 0, none, none⟩] := by
    decide +kernel
  have expected : alternating.expected = [⟨0, some 1, none, none, none⟩, ⟨1, some 2, none, none, none⟩,
      ⟨2, some 1, some 0, none, some 2⟩, ⟨3, some 2, some 1, some "probe", none⟩, ⟨4, some 2, some 1, none, none⟩,
      ⟨5, some 1, some 0, none, none⟩] := by
    decide +kernel
  obtain ⟨out, done, placed⟩ := map_eq_some_iff.mp built
  have iff := faithful_iff_orderly (fun _ _ => ()) nested
  refine ⟨nested, iff.mp ⟨out, done, fun thread => ?_⟩⟩
  rw [placed, expected]
  obtain rfl | one := Decidable.eq_or_ne (some 1) thread
  · rfl
  · simp [filter_cons, one]

/-- Two threads declare something one after another. -/
def declaring : Trace :=
  traceOf [edgeOf 1 (some 0) none, edgeOf 2 (some 0) none, { edgeOf 1 none none with declaration := true },
    { edgeOf 2 none none with declaration := true }, edgeOf 2 none (some 0), edgeOf 1 none (some 0)]
    (by decide) (by decide) (by decide)

/-- The declaration of the second thread is put into the first one. -/
theorem declaring_unfaithful : Nested declaring.edges ∧
    (∀ edge ∈ declaring.edges, ((declaring.edges.find? (·.thread = edge.thread)).bind (·.enter)).isSome) ∧
    ¬ Faithful (fun _ _ => ()) declaring := by
  refine ⟨by decide +kernel, by decide +kernel, fun ⟨out, done, same⟩ => ?_⟩
  have built : (serialize (fun _ _ => ()) declaring).map (fun out =>
      ((placements out.trace).filter (·.thread = some 2)).length) = some 2 := by decide +kernel
  have expected : (declaring.expected.filter (·.thread = some 2)).length = 3 := by decide +kernel
  rw [done, map_some, same, expected] at built
  cases built

end Klever.ErrorTrace
