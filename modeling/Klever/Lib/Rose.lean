import Mathlib

/-!
# Rose trees that grow

Nodes have labels and lists of children. A tree is built by appending children, and nodes are referred
to by paths of indices, which stay valid since nothing is inserted in front.

A walk visits a tree from left to right and passes a context down that labels change. `spot` says what a
path leads to: the node, the context with which the walk comes to it, and what the walk visits behind the
whole subtree. A child that is appended at a path is visited right before that.
-/

namespace Klever.Lib

inductive Rose (α : Type) where
  | node (label : α) (children : List (Rose α))
  deriving Repr

namespace Rose

variable {α β γ : Type}

def label : Rose α → α
  | node label _ => label

def children : Rose α → List (Rose α)
  | node _ children => children

/-- The node at a path. -/
def get? : List Nat → Rose α → Option (Rose α)
  | [], t => some t
  | i :: path, node _ children => (children[i]?).bind (get? path)

/-- The tree with one more child, the last one of the node at a path. -/
def append (child : Rose α) : List Nat → Rose α → Rose α
  | [], node label children => node label (children ++ [child])
  | i :: path, node label children => node label (children.modify i (append child path))

theorem label_append (child : Rose α) (path : List Nat) (t : Rose α) : (append child path t).label = t.label := by
  cases t
  cases path <;> rfl

section Walk

variable (step : γ → α → γ) (visit : γ → α → List β)

mutual

/-- What a walk visits. -/
def walk (context : γ) : Rose α → List β
  | node label children => visit context label ++ walkAll (step context label) children

def walkAll (context : γ) : List (Rose α) → List β
  | [] => []
  | t :: rest => walk context t ++ walkAll context rest

end

theorem walkAll_append (context : γ) (ts us : List (Rose α)) :
    walkAll step visit context (ts ++ us) = walkAll step visit context ts ++ walkAll step visit context us := by
  induction ts with
  | nil => rfl
  | cons t ts ih => rw [List.cons_append, walkAll, walkAll, ih, List.append_assoc]

theorem walkAll_singleton (context : γ) (t : Rose α) : walkAll step visit context [t] = walk step visit context t := by
  rw [walkAll, walkAll, List.append_nil]

/-- The node at a path, the context of the walk there and what is visited behind the node. -/
def spot : γ → List Nat → Rose α → Option (Rose α × γ × List β)
  | context, [], t => some (t, context, [])
  | context, i :: path, node label children =>
    (children[i]?).bind fun child => (spot (step context label) path child).map fun (t, inner, rear) =>
      (t, inner, rear ++ walkAll step visit (step context label) (children.drop (i + 1)))

variable {step visit} {context inner : γ} {i : Nat} {path : List Nat} {t : Rose α} {rear : List β} {u : Rose α}

theorem spot_cons {label : α} {children : List (Rose α)} :
    spot step visit context (i :: path) (node label children) = some (t, inner, rear) ↔
      ∃ child rear', children[i]? = some child ∧
        spot step visit (step context label) path child = some (t, inner, rear') ∧
        rear = rear' ++ walkAll step visit (step context label) (children.drop (i + 1)) := by
  simp only [spot, Option.bind_eq_some_iff, Option.map_eq_some_iff, Prod.exists, Prod.mk.injEq]
  constructor
  · rintro ⟨child, found, t', inner', rear', there, rfl, rfl, rfl⟩
    exact ⟨child, rear', found, there, rfl⟩
  · rintro ⟨child, rear', found, there, rfl⟩
    exact ⟨child, found, t, inner, rear', there, rfl, rfl, rfl⟩

theorem get?_of_spot (is : spot step visit context path t = some (u, inner, rear)) : get? path t = some u := by
  induction path generalizing context t rear with
  | nil =>
    cases is
    rfl
  | cons i path ih =>
    obtain ⟨label, children⟩ := t
    obtain ⟨child, rear', found, there, -⟩ := spot_cons.mp is
    rw [get?, found]
    exact ih there

theorem exists_spot (context : γ) (is : get? path t = some u) :
    ∃ inner rear, spot step visit context path t = some (u, inner, rear) := by
  induction path generalizing context t with
  | nil =>
    cases is
    exact ⟨context, [], rfl⟩
  | cons i path ih =>
    obtain ⟨label, children⟩ := t
    obtain ⟨child, found, there⟩ := Option.bind_eq_some_iff.mp is
    obtain ⟨inner, rear, spotted⟩ := ih (step context label) there
    exact ⟨inner, _, spot_cons.mpr ⟨child, rear, found, spotted, rfl⟩⟩

/-- A child splits a list of children. -/
theorem walkAll_split (context : γ) {children : List (Rose α)} {child : Rose α} (found : children[i]? = some child) :
    walkAll step visit context children =
      walkAll step visit context (children.take i) ++ walk step visit context child ++
        walkAll step visit context (children.drop (i + 1)) := by
  obtain ⟨lt, is⟩ := List.getElem?_eq_some_iff.mp found
  conv_lhs => rw [← List.take_append_drop i children, List.drop_eq_getElem_cons lt, is]
  rw [walkAll_append, walkAll, List.append_assoc]

variable (is : spot step visit context path t = some (u, inner, rear))

include is

/-- What is appended at a path is visited before all that is behind it. -/
theorem walk_append (child : Rose α) : ∃ front, walk step visit context t = front ++ rear ∧
      walk step visit context (append child path t) = front ++ walk step visit (step inner u.label) child ++ rear := by
  induction path generalizing context t rear with
  | nil =>
    cases is
    obtain ⟨label, children⟩ := u
    refine ⟨walk step visit _ (node label children), (List.append_nil _).symm, ?_⟩
    rw [append, walk, walkAll_append, walk, walkAll_singleton, List.append_nil, List.append_assoc]
    rfl
  | cons i path ih =>
    obtain ⟨label, children⟩ := t
    obtain ⟨old, rear', found, there, rfl⟩ := spot_cons.mp is
    obtain ⟨front, before, after⟩ := ih there
    obtain ⟨lt, is⟩ := List.getElem?_eq_some_iff.mp found
    refine ⟨visit context label ++ walkAll step visit (step context label) (children.take i) ++ front, ?_, ?_⟩
    · rw [walk, walkAll_split _ found, before]
      simp
    · rw [append, walk, List.modify_eq_take_cons_drop lt, walkAll_append, walkAll, is, after]
      simp

/-- The last child of a node: nothing more is behind it. -/
theorem spot_last {child : Rose α} (found : u.children[i]? = some child) (last : u.children.length = i + 1) :
    spot step visit context (path ++ [i]) t = some (child, step inner u.label, rear) := by
  induction path generalizing context t rear with
  | nil =>
    cases is
    obtain ⟨label, children⟩ := u
    refine spot_cons.mpr ⟨child, [], found, rfl, ?_⟩
    rw [List.drop_eq_nil_of_le (show children.length ≤ i + 1 from last.le)]
    rfl
  | cons j path ih =>
    obtain ⟨label, children⟩ := t
    obtain ⟨old, rear', found', there, rfl⟩ := spot_cons.mp is
    exact spot_cons.mpr ⟨old, rear', found', ih there, rfl⟩

/-- Seen from above, a node that is appended is inside. -/
theorem spot_append_below (child : Rose α) (below : List Nat) :
    spot step visit context path (append child (path ++ below) t) = some (append child below u, inner, rear) := by
  induction path generalizing context t rear with
  | nil =>
    cases is
    rfl
  | cons i path ih =>
    obtain ⟨label, children⟩ := t
    obtain ⟨old, rear', found, there, rfl⟩ := spot_cons.mp is
    refine spot_cons.mpr ⟨append child (path ++ below) old, rear', ?_, ih there, ?_⟩
    · rw [List.getElem?_modify_eq, found]
      rfl
    · exact congrArg (rear' ++ walkAll step visit (step context label) ·)
        (List.drop_modify_of_lt _ _ _ _ (Nat.lt_succ_self i)).symm

/-- What is visited after a child is appended was visited before or belongs to the child. -/
theorem mem_walk_append {child : Rose α} {x : β} (mem : x ∈ walk step visit context (append child path t)) :
    x ∈ walk step visit context t ∨ x ∈ walk step visit (step inner u.label) child := by
  obtain ⟨front, before, after⟩ := walk_append is child
  rw [after, List.mem_append, List.mem_append] at mem
  rw [before, List.mem_append]
  tauto

/-- Where other paths lead to after a child is appended: nothing is lost, and what is new behind them
belongs to the child. -/
theorem spot_append {inner' : γ} {path' : List Nat} {v : Rose α} {rear' : List β}
    (other : spot step visit context path' t = some (v, inner', rear')) (child : Rose α) :
    ∃ v' rear'', spot step visit context path' (append child path t) = some (v', inner', rear'') ∧ v'.label = v.label ∧
      ∀ x ∈ rear'', x ∈ rear' ∨ x ∈ walk step visit (step inner u.label) child := by
  induction path generalizing context t path' rear rear' with
  | nil =>
    cases is
    cases path' with
    | nil =>
      cases other
      obtain ⟨label, children⟩ := u
      exact ⟨_, [], rfl, rfl, by simp⟩
    | cons j path' =>
      obtain ⟨label, children⟩ := u
      obtain ⟨old, rest, found, there, rfl⟩ := spot_cons.mp other
      obtain ⟨lt, -⟩ := List.getElem?_eq_some_iff.mp found
      refine ⟨v, _, spot_cons.mpr ⟨old, rest, ?_, there, rfl⟩, rfl, fun x mem => ?_⟩
      · rw [List.getElem?_append_left lt, found]
      · rw [List.drop_append_of_le_length (by omega), walkAll_append, walkAll_singleton] at mem
        simp only [List.mem_append] at mem ⊢
        tauto
  | cons i path ih =>
    obtain ⟨label, children⟩ := t
    obtain ⟨old, rear₁, found, there, rfl⟩ := spot_cons.mp is
    cases path' with
    | nil =>
      cases other
      exact ⟨_, [], rfl, rfl, by simp⟩
    | cons j path' =>
      obtain ⟨old', rear₂, found', there', rfl⟩ := spot_cons.mp other
      by_cases same : i = j
      · subst same
        rw [found] at found'
        cases found'
        obtain ⟨v', rear'', there'', label', new⟩ := ih there there'
        refine ⟨v', _, spot_cons.mpr ⟨_, rear'', ?_, there'', rfl⟩, label', fun x mem => ?_⟩
        · rw [List.getElem?_modify_eq, found]
          rfl
        · rw [List.drop_modify_of_lt _ _ _ _ (by omega)] at mem
          simp only [List.mem_append] at mem ⊢
          have := new x
          tauto
      · refine ⟨v, _, spot_cons.mpr ⟨old', rear₂, ?_, there', rfl⟩, rfl, fun x mem => ?_⟩
        · rw [List.getElem?_modify, found']
          simp [same]
        · have later : x ∈ walkAll step visit (step context label)
              ((children.modify i (append child path)).drop (j + 1)) →
              x ∈ walkAll step visit (step context label) (children.drop (j + 1)) ∨
                x ∈ walk step visit (step inner u.label) child := by
            intro mem
            obtain lt | lt := Nat.lt_or_gt_of_ne same
            · rw [List.drop_modify_of_lt _ _ _ _ (by omega)] at mem
              exact .inl mem
            · -- the child is appended in one of the nodes behind
              have found'' : (children.drop (j + 1))[i - (j + 1)]? = some old := by
                rw [List.getElem?_drop, ← found]
                congr 1
                omega
              obtain ⟨lt', is'⟩ := List.getElem?_eq_some_iff.mp found''
              rw [List.drop_modify_of_ge _ _ _ _ (by omega), List.modify_eq_take_cons_drop lt', walkAll_append,
                walkAll, is', List.mem_append, List.mem_append] at mem
              rw [walkAll_split _ found'', List.mem_append, List.mem_append]
              have := @mem_walk_append _ _ _ _ _ _ _ _ _ _ _ there child x
              tauto
          simp only [List.mem_append] at mem ⊢
          tauto

end Walk

end Rose

end Klever.Lib
