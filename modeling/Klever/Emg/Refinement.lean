import Klever.Emg.ControlFunction

/-!
# Control functions implement their processes

The generated function and the process are two systems that show the names of the actions they
execute. Each simulates the other one.

A point of the function corresponds to a list of trees that are still to be executed (`Matches`): the
code of the first trees stands on the top of its stack, the code of the next ones behind the `break` of
the enclosing `switch`, and the last ones end at a `return`. What follows these statements is dead.
The counters hold how often the jumps may still be taken (`Counts`).

The function does in several steps what the process does in one (a jump with a counter), and the
process takes its operators apart where the function has nothing to do. The relation that is used for
the steps of the function therefore also has the points in the midst of a jump (`Follows`).
-/

namespace Klever.Emg

open Klever.Lib List

variable {a : Automaton} {value : Option Int}

/-! ## Points of the function and of the process -/

/-- What stands behind the code of some trees: the rest of the innermost statement list, which ends
here, the enclosing ones, and the trees that their code belongs to. -/
inductive Context (a : Automaton) :
    List (Stmt String String) → List (List (Stmt String String)) → List BaseAction → Prop
  | function (value dead) : Context a (.ret value :: dead) [] []
  | branch {trees tail below rest} (dead) : (∀ t ∈ trees, a.process.Known t) → Context a tail below rest →
      Context a (.leave :: dead) ((trees.flatMap (codeOf a) ++ tail) :: below) (trees ++ rest)

/-- The statements that are left belong to the trees that are left. -/
inductive Matches (a : Automaton) : List (List (Stmt String String)) → List BaseAction → Prop
  | mk {trees tail below rest} : (∀ t ∈ trees, a.process.Known t) → Context a tail below rest →
      Matches a ((trees.flatMap (codeOf a) ++ tail) :: below) (trees ++ rest)

variable {t : BaseAction}

section

variable {trees rest : List BaseAction} {tail : List (Stmt String String)} {below : List (List (Stmt String String))}

theorem Matches.cons (known : a.process.Known t) (others : ∀ u ∈ trees, a.process.Known u)
    (context : Context a tail below rest) :
    Matches a ((codeOf a t ++ (trees.flatMap (codeOf a) ++ tail)) :: below) (t :: (trees ++ rest)) := by
  have level := Matches.mk (forall_mem_cons.mpr ⟨known, others⟩) context
  rwa [flatMap_cons, append_assoc] at level

theorem Matches.alone (known : a.process.Known t) (context : Context a tail below rest) :
    Matches a ((codeOf a t ++ tail) :: below) (t :: rest) :=
  @Matches.cons a t [] _ _ _ known (fun _ mem => absurd mem not_mem_nil) context

end

/-- Each counter holds its number less the times that its jump has been taken. -/
def Counts (a : Automaton) (store : String → Int) (taken : List Behaviour) : Prop :=
  ∀ b ∈ a.process.registered, b.counted → store (counterOf a b) = b.number - taken.count b

theorem Counts.initially (value : Option Int) (plain : a.process.IsPlain) (fit : VariablesFit a) :
    Counts a (controlFunction a value).initially [] := by
  intro b mem counted
  have nodup := (nodup_append.mp (controlFunction_valid value plain fit).variables_nodup).1
  have item : (counterOf a b, (b.number : Int)) ∈ (controlFunction a value).locals :=
    List.mem_map_of_mem ((mem_counters plain).mpr (mem_countedOf.mpr ⟨mem, rfl, counted⟩))
  have found := Dict.mem_items_iff (d := ⟨_, nodup⟩).mp item
  rw [Func.initially, show List.lookup _ _ = _ from found]
  simp

variable {store : String → Int} {taken : List Behaviour} {b : Behaviour}

/-- A jump without a number leaves the counters alone. -/
theorem Counts.jump (counts : Counts a store taken) (once : b.repeated = none) : Counts a store (b :: taken) := by
  intro c mem counted
  have other : b ≠ c := by
    intro same
    rw [← same, Behaviour.counted, once] at counted
    cases counted
  rw [counts c mem counted, count_cons_of_ne other]

/-- A jump with a number decrements its own counter and no other one. -/
theorem Counts.decrement (fit : VariablesFit a) (counts : Counts a store taken) (mem : b ∈ a.process.registered)
    (counted : b.counted) :
    Counts a (Function.update store (counterOf a b) (store (counterOf a b) - 1)) (b :: taken) := by
  intro c mem' counted'
  by_cases same : b = c
  · subst same
    rw [Function.update_self, counts b mem counted, count_cons_self]
    push_cast
    omega
  · have other : counterOf a c ≠ counterOf a b := fun h =>
      same (counterOf_inj fit.apart (mem_countedOf.mpr ⟨mem, rfl, counted⟩) (mem_countedOf.mpr ⟨mem', rfl, counted'⟩) h.symm)
    rw [Function.update_of_ne other, counts c mem' counted', count_cons_of_ne same]

/-- A counter is positive exactly while its jump may be taken. -/
theorem Counts.positive_iff (counts : Counts a store taken) (mem : b ∈ a.process.registered) {n : Nat}
    (number : b.repeated = some (.count n)) : 0 < store (counterOf a b) ↔ taken.count b < n := by
  have value : b.number = n := by rw [Behaviour.number, number]
  rw [counts b mem (by rw [Behaviour.counted, number]), value]
  omega

/-! ## Choices -/

variable {s : Snapshot String String}
  {f : Func String String} {codes : List (List (Stmt String String))} {k : List (Stmt String String)}
  {below : List (List (Stmt String String))}

/-- The case of a `switch` that executes an alternative. -/
theorem fromCase_of_lt {i : Nat} (bound : i < codes.length) :
    ∃ dead, fromCase (codes.map (· ++ [.leave])) [.abandon] i =
      codes.get ⟨i, bound⟩ ++ (.leave : Stmt String String) :: dead := by
  have inside : (0 : Int) ≤ i ∧ (i : Int) < (codes.map (· ++ [.leave])).length := by
    rw [length_map]
    omega
  refine ⟨((codes.map (· ++ [.leave])).drop (i + 1)).flatten ++ [.abandon], ?_⟩
  rw [fromCase, if_pos inside, Int.toNat_natCast, drop_eq_getElem_cons (by rwa [length_map]), flatten_cons, getElem_map]
  simp

/-- The code of a choice executes one alternative and then what follows it, or abandons the run. -/
theorem choice_step {l : Option String} (step : f.Step ⟨(choiceCode codes ++ k) :: below, store⟩ l s) :
    l = none ∧ ((∃ c ∈ codes, s = ⟨(c ++ k) :: below, store⟩) ∨
      (∃ c ∈ codes, ∃ dead, s = ⟨(c ++ .leave :: dead) :: k :: below, store⟩) ∨
      s = ⟨[.abandon] :: k :: below, store⟩) := by
  unfold choiceCode at step
  split at step
  · rename_i first second
    cases step with
    | ite _ _ _ _ yields =>
      refine ⟨rfl, .inl ?_⟩
      split
      · exact ⟨first, by simp, rfl⟩
      · exact ⟨second, by simp, rfl⟩
  · cases step with
    | switch _ _ v =>
      refine ⟨rfl, .inr ?_⟩
      by_cases inside : 0 ≤ v ∧ v < codes.length
      · have bound : v.toNat < codes.length := by omega
        obtain ⟨dead, same⟩ := fromCase_of_lt bound
        rw [Int.toNat_of_nonneg inside.1] at same
        exact .inl ⟨_, List.get_mem codes ⟨_, bound⟩, dead, by rw [same]; rfl⟩
      · refine .inr ?_
        rw [fromCase, if_neg (by rwa [length_map])]
        rfl

/-- Each alternative of a choice can be executed. -/
theorem choice_takes (store : String → Int) {c : List (Stmt String String)} (mem : c ∈ codes) :
    f.Step ⟨(choiceCode codes ++ k) :: below, store⟩ none ⟨(c ++ k) :: below, store⟩ ∨
      ∃ dead, f.Step ⟨(choiceCode codes ++ k) :: below, store⟩ none
        ⟨(c ++ .leave :: dead) :: k :: below, store⟩ := by
  unfold choiceCode
  split
  · rename_i first second
    refine .inl ?_
    obtain rfl | rfl : c = first ∨ c = second := by simpa using mem
    · exact Func.Step.ite (v := 1) c second k below trivial
    · exact Func.Step.ite (v := 0) first c k below trivial
  · obtain ⟨⟨i, bound⟩, rfl⟩ := List.get_of_mem mem
    obtain ⟨dead, same⟩ := fromCase_of_lt bound
    refine .inr ⟨dead, ?_⟩
    rw [← same]
    exact .switch _ _ _ _ _ _

/-! ## The process follows the function -/

/-- Nothing, a behaviour or a choice comes first: here the function has something to do. -/
inductive Exposed : List BaseAction → Prop
  | nil : Exposed []
  | behaviour (b rest) : Exposed (.behaviour b :: rest)
  | choice (children rest) : Exposed (.choice children :: rest)

/-- The process can take operators apart until the function has something to do. -/
def Exposable (a : Automaton) (trees : List BaseAction) : Prop :=
  ∀ rest taken, ∃ trees', (∀ t ∈ trees', a.process.Known t) ∧ Exposed trees' ∧
    trees'.flatMap (codeOf a) = trees.flatMap (codeOf a) ∧
    a.process.lts.Path ⟨trees ++ rest, taken⟩ [] ⟨trees' ++ rest, taken⟩

theorem exposable_of_exposed {trees : List BaseAction} (known : ∀ t ∈ trees, a.process.Known t)
    (exposed : Exposed trees) : Exposable a trees :=
  fun _ _ => ⟨trees, known, exposed, rfl, .refl _⟩

/-- One silent step of the process that keeps the code. -/
theorem Exposable.step {trees trees' : List BaseAction} (exposable : Exposable a trees')
    (code : trees'.flatMap (codeOf a) = trees.flatMap (codeOf a))
    (move : ∀ rest taken, a.process.Move ⟨trees ++ rest, taken⟩ none ⟨trees' ++ rest, taken⟩) :
    Exposable a trees := by
  intro rest taken
  obtain ⟨found, known, exposed, same, path⟩ := exposable rest taken
  exact ⟨found, known, exposed, same.trans code, .silent (move rest taken) path⟩

theorem exposable_cons (named : Named a) (known : a.process.Known t) :
    ∀ {rest}, (∀ u ∈ rest, a.process.Known u) → Exposable a rest → Exposable a (t :: rest) := by
  induction known using Process.Known.induct with
  | behaviour b known =>
    intro rest others _
    exact exposable_of_exposed (forall_mem_cons.mpr ⟨known, others⟩) (.behaviour b rest)
  | parentheses c known ih =>
    intro rest others exposable
    apply (ih others exposable).step
    · rw [flatMap_cons, flatMap_cons, codeOf_parentheses]
    · exact fun more taken => .parentheses c (rest ++ more) taken
  | concatenation cs known ih =>
    intro rest others exposable
    have spread : Exposable a (cs ++ rest) ∧ ∀ u ∈ cs ++ rest, a.process.Known u := by
      have each := known.of_concatenation
      clear known
      induction cs with
      | nil => exact ⟨exposable, others⟩
      | cons c cs more =>
        obtain ⟨exposed, all⟩ := more (fun d mem => ih d (mem_cons_of_mem _ mem))
          (fun d mem => each d (mem_cons_of_mem _ mem))
        exact ⟨ih c mem_cons_self all exposed, forall_mem_cons.mpr ⟨each c mem_cons_self, all⟩⟩
    apply spread.1.step
    · rw [flatMap_append, flatMap_cons, codeOf_concatenation named known]
    · intro more taken
      rw [append_assoc]
      exact .concatenation cs (rest ++ more) taken
  | choice cs known _ =>
    intro rest others _
    exact exposable_of_exposed (forall_mem_cons.mpr ⟨known, others⟩) (.choice cs rest)

theorem exposable_all (named : Named a) {trees : List BaseAction}
    (known : ∀ t ∈ trees, a.process.Known t) : Exposable a trees := by
  induction trees with
  | nil => exact exposable_of_exposed known .nil
  | cons t rest ih =>
    obtain ⟨first, others⟩ := forall_mem_cons.mp known
    exact exposable_cons named first others (ih others)

/-- The points of the function and of the process that belong together when the function takes a
step. In the midst of a jump the process has already jumped. -/
inductive Follows (a : Automaton) : Snapshot String String → Process.Position → Prop
  | level {frames store work taken} : Matches a frames work → Counts a store taken →
      Follows a ⟨frames, store⟩ ⟨work, taken⟩
  | counting {b body taken store} (rest below) : b ∈ a.process.registered → b.counted →
      a.process.subprocesses.get? b.name = some (some body) → Counts a store taken →
      Follows a ⟨(.decrement (counterOf a b) :: .goto (labelName a b.name) :: rest) :: below, store⟩
        ⟨[body], b :: taken⟩
  | jumping {name body taken store} (rest below) :
      a.process.subprocesses.get? name = some (some body) → Counts a store taken →
      Follows a ⟨(.goto (labelName a name) :: rest) :: below, store⟩ ⟨[body], taken⟩
  | abandoned (rest below store position) : Follows a ⟨(.abandon :: rest) :: below, store⟩ position

variable {l : Option String} {trees rest : List BaseAction} {tail : List (Stmt String String)}

theorem goto_step (plain : a.process.IsPlain) (named : Named a) {name : String} {body : BaseAction}
    (found : a.process.subprocesses.get? name = some (some body))
    (step : (controlFunction a value).Step ⟨(.goto (labelName a name) :: k) :: below, store⟩ l s) :
    l = none ∧ ∃ dead, s = ⟨[codeOf a body ++ .ret value :: dead], store⟩ := by
  obtain ⟨dead, target⟩ := afterLabel_controlFunction plain named value found
  cases step with
  | goto _ _ leads =>
    rw [target] at leads
    cases leads
    exact ⟨rfl, dead, rfl⟩

theorem context_step (context : Context a tail below rest) (counts : Counts a store taken)
    (step : (controlFunction a value).Step ⟨tail :: below, store⟩ l s) :
    l = none ∧ Follows a s ⟨rest, taken⟩ := by
  cases context with
  | function => cases step
  | branch _ known outer =>
    cases step with
    | leave => exact ⟨rfl, .level (.mk known outer) counts⟩

theorem behaviour_step (plain : a.process.IsPlain) (fit : VariablesFit a)
    (known : a.process.Known (.behaviour b)) (level : Matches a (k :: below) rest)
    (counts : Counts a store taken)
    (step : (controlFunction a value).Step ⟨(codeOf a (.behaviour b) ++ k) :: below, store⟩ l s) :
    ∃ t, a.process.lts.Path ⟨.behaviour b :: rest, taken⟩ l.toList t ∧ Follows a s t := by
  cases known.plain with
  | action kind once =>
    rw [codeOf_action kind] at step
    cases step with
    | block =>
      exact ⟨_, .single (Process.Move.action rest taken kind once), .level level counts⟩
  | jump kind once mem =>
    obtain ⟨body, found⟩ := plain.body_of_mem mem
    rw [codeOf_jump kind once] at step
    obtain ⟨rfl, dead, rfl⟩ := goto_step plain fit.named found step
    exact ⟨_, .single (Process.Move.jump rest taken kind once found),
      .level (.alone (plain.known_body found) (.function value dead)) (counts.jump once)⟩
  | @counted _ n kind number mem =>
    obtain ⟨body, found⟩ := plain.body_of_mem mem
    have registered := known.registered_behaviour
    rw [codeOf_counted fit.named registered kind number] at step
    cases step with
    | ite _ _ _ _ yields =>
      -- the process jumps when the counter is found to be positive
      by_cases positive : 0 < store (counterOf a b)
      · rw [show _ = _ from yields, if_pos positive]
        have allowed := (counts.positive_iff registered number).mp positive
        exact ⟨_, .single (Process.Move.counted rest kind number found allowed),
          .counting _ _ registered (by rw [Behaviour.counted, number]) found counts⟩
      · rw [show _ = _ from yields, if_neg positive]
        exact ⟨_, .refl _, .abandoned _ _ _ _⟩

theorem choiceCode_step (named : Named a) {children : List BaseAction}
    (known : a.process.Known (.choice children)) (others : ∀ t ∈ trees, a.process.Known t)
    (context : Context a tail below rest) (counts : Counts a store taken)
    (step : (controlFunction a value).Step
      ⟨(codeOf a (.choice children) ++ (trees.flatMap (codeOf a) ++ tail)) :: below, store⟩ l s) :
    ∃ t, a.process.lts.Path ⟨.choice children :: (trees ++ rest), taken⟩ l.toList t ∧ Follows a s t := by
  rw [codeOf_choice named known] at step
  have chosen : ∀ c ∈ children, a.process.lts.Path ⟨.choice children :: (trees ++ rest), taken⟩ []
      ⟨c :: (trees ++ rest), taken⟩ :=
    fun c mem => .silent (Process.Move.choice (trees ++ rest) taken mem) (.refl _)
  obtain ⟨rfl, ⟨_, mem, rfl⟩ | ⟨_, mem, dead, rfl⟩ | rfl⟩ := choice_step step
  · obtain ⟨c, child, rfl⟩ := List.mem_map.mp mem
    exact ⟨_, chosen c child, .level (.cons (known.of_choice.2 c child) others context) counts⟩
  · obtain ⟨c, child, rfl⟩ := List.mem_map.mp mem
    exact ⟨_, chosen c child, .level (.alone (known.of_choice.2 c child) (.branch dead others context)) counts⟩
  · exact ⟨_, .refl _, .abandoned _ _ _ _⟩

/-- Each step of the function is followed by the process. -/
theorem follows_step (plain : a.process.IsPlain) (fit : VariablesFit a) {t : Process.Position}
    {s' : Snapshot String String} (follows : Follows a s t) (step : (controlFunction a value).Step s l s') :
    ∃ t', a.process.lts.Path t l.toList t' ∧ Follows a s' t' := by
  cases follows with
  | abandoned => cases step
  | jumping _ _ found counts =>
    obtain ⟨rfl, dead, rfl⟩ := goto_step plain fit.named found step
    exact ⟨_, .refl _, .level (.alone (plain.known_body found) (.function value dead)) counts⟩
  | counting _ _ mem counted found counts =>
    cases step with
    | decrement => exact ⟨_, .refl _, .jumping _ _ found (counts.decrement fit mem counted)⟩
  | level matched counts =>
    obtain ⟨known, context⟩ := matched
    rename_i taken trees tail below rest
    obtain ⟨trees', known', exposed, code, path⟩ := exposable_all fit.named known rest taken
    rw [← code] at step
    suffices found : ∃ t', a.process.lts.Path ⟨trees' ++ rest, taken⟩ l.toList t' ∧ Follows a s' t' by
      obtain ⟨t', more, follows⟩ := found
      exact ⟨t', path.trans more, follows⟩
    cases exposed with
    | nil =>
      obtain ⟨rfl, follows⟩ := context_step context counts step
      exact ⟨_, .refl _, follows⟩
    | behaviour b others =>
      obtain ⟨first, others'⟩ := forall_mem_cons.mp known'
      rw [flatMap_cons, append_assoc] at step
      exact behaviour_step plain fit first (.mk others' context) counts step
    | choice children others =>
      obtain ⟨first, others'⟩ := forall_mem_cons.mp known'
      rw [flatMap_cons, append_assoc] at step
      exact choiceCode_step fit.named first others' context counts step

theorem not_final_behaviour (named : Named a) (known : a.process.Known (.behaviour b)) :
    ¬ Func.Final ⟨(codeOf a (.behaviour b) ++ k) :: below, store⟩ := by
  cases known.plain with
  | action kind => rw [codeOf_action kind]; exact id
  | jump kind once => rw [codeOf_jump kind once]; exact id
  | counted kind number =>
    rw [codeOf_counted named known.registered_behaviour kind number]
    exact id

theorem not_final_choice : ¬ Func.Final ⟨(choiceCode codes ++ k) :: below, store⟩ := by
  unfold choiceCode
  split <;> exact id

/-- Where the function returns, the process has nothing left but operators without actions. -/
theorem follows_final (named : Named a) {t : Process.Position} (follows : Follows a s t) (final : Func.Final s) :
    ∃ t', a.process.lts.Path t [] t' ∧ a.process.lts.final t' := by
  cases follows with
  | abandoned => cases final
  | jumping => cases final
  | counting => cases final
  | level matched counts =>
    obtain ⟨known, context⟩ := matched
    rename_i taken trees tail below rest
    obtain ⟨trees', known', exposed, code, path⟩ := exposable_all named known rest taken
    rw [← code] at final
    cases exposed with
    | nil =>
      cases context with
      | function => exact ⟨_, path, rfl⟩
      | branch => cases final
    | behaviour b others =>
      rw [flatMap_cons, append_assoc] at final
      exact absurd final (not_final_behaviour named (known' _ mem_cons_self))
    | choice children others =>
      rw [flatMap_cons, append_assoc, codeOf_choice named (known' _ mem_cons_self)] at final
      exact absurd final not_final_choice

theorem follows_simulation (value : Option Int) (plain : a.process.IsPlain) (fit : VariablesFit a) :
    Lts.Simulation (controlFunction a value).lts a.process.lts (Follows a) where
  step := follows_step plain fit
  final := follows_final fit.named

/-! ## The function follows the process -/

/-- The points of the process and of the function that belong together when the process takes a
step. -/
def Mirrors (a : Automaton) (t : Process.Position) (s : Snapshot String String) : Prop :=
  Matches a s.frames t.work ∧ Counts a s.store t.taken

section Mirroring

variable (f : Func String String) (store : String → Int) {work : List BaseAction}
  {frames : List (List (Stmt String String))}

/-- The function leaves the `switch`es that have come to their end; then the code of the first tree
stands on the top. -/
theorem Matches.head (matched : Matches a frames (t :: work)) :
    ∃ trees tail below rest, (∀ u ∈ t :: trees, a.process.Known u) ∧ Context a tail below rest ∧ work = trees ++ rest ∧
      f.lts.Path ⟨frames, store⟩ []
        ⟨(codeOf a t ++ (trees.flatMap (codeOf a) ++ tail)) :: below, store⟩ := by
  generalize left : t :: work = whole at matched
  obtain ⟨known, context⟩ := matched
  rename_i trees tail below rest
  induction context generalizing trees with
  | function value dead =>
    rw [append_nil] at left
    subst left
    refine ⟨work, _, _, _, known, .function value dead, (append_nil work).symm, ?_⟩
    rw [flatMap_cons, append_assoc]
    exact .refl _
  | @branch outer tail below rest dead knownOuter context ih =>
    cases trees with
    | nil =>
      obtain ⟨found, _, _, _, all, inside, same, path⟩ := ih knownOuter left
      exact ⟨found, _, _, _, all, inside, same, .silent (Func.Step.leave _ _ _) path⟩
    | cons u trees =>
      obtain ⟨rfl, rfl⟩ := List.cons.inj left
      refine ⟨trees, _, _, _, known, .branch dead knownOuter context, rfl, ?_⟩
      rw [flatMap_cons, append_assoc]
      exact .refl _

/-- With nothing left to execute the function leaves its `switch`es and returns. -/
theorem Matches.finish (matched : Matches a frames []) : ∃ s, f.lts.Path ⟨frames, store⟩ [] s ∧ Func.Final s := by
  generalize left : ([] : List BaseAction) = whole at matched
  obtain ⟨known, context⟩ := matched
  rename_i trees tail below rest
  induction context generalizing trees with
  | function value dead =>
    rw [append_nil] at left
    subst left
    exact ⟨_, .refl _, trivial⟩
  | @branch outer tail below rest dead knownOuter context ih =>
    obtain ⟨rfl, outside⟩ := append_eq_nil_iff.mp left.symm
    obtain ⟨s, path, final⟩ := ih knownOuter outside.symm
    exact ⟨s, .silent (Func.Step.leave _ _ _) path, final⟩

/-- Each step of the process is followed by the function. -/
theorem mirrors_step (plain : a.process.IsPlain) (fit : VariablesFit a)
    {t t' : Process.Position} (mirrors : Mirrors a t s) (move : a.process.Move t l t') :
    ∃ s', (controlFunction a value).lts.Path s l.toList s' ∧ Mirrors a t' s' := by
  obtain ⟨frames, store⟩ := s
  obtain ⟨matched, counts⟩ := mirrors
  have head {t : BaseAction} {work : List BaseAction} (matched : Matches a frames (t :: work)) :=
    matched.head (controlFunction a value) store
  cases move with
  | action work taken kind once =>
    obtain ⟨_, _, _, _, known, context, rfl, path⟩ := head matched
    rw [codeOf_action kind] at path
    have whole := path.trans (Lts.Path.single (A := (controlFunction a value).lts) (Func.Step.block _ _ _ _))
    exact ⟨_, whole, .mk (forall_mem_cons.mp known).2 context, counts⟩
  | jump work taken kind once found =>
    obtain ⟨_, _, _, _, known, context, rfl, path⟩ := head matched
    obtain ⟨dead, target⟩ := afterLabel_controlFunction plain fit.named value found
    rw [codeOf_jump kind once] at path
    have whole := path.trans (.silent (Func.Step.goto _ _ target) (.refl _))
    exact ⟨_, whole, .alone (plain.known_body found) (.function value dead), counts.jump once⟩
  | @counted b n body taken work kind number found allowed =>
    obtain ⟨_, _, _, _, known, context, rfl, path⟩ := head matched
    obtain ⟨dead, target⟩ := afterLabel_controlFunction plain fit.named value found
    have registered := (known _ mem_cons_self).registered_behaviour
    have positive := (counts.positive_iff registered number).mpr allowed
    rw [codeOf_counted fit.named registered kind number] at path
    have test : Test.Yields store 1 (.positive (counterOf a b)) := (if_pos positive).symm
    have whole := path.trans (.silent (Func.Step.ite _ _ _ _ test)
      (.silent (Func.Step.decrement _ _ _ _) (.silent (Func.Step.goto _ _ target) (.refl _))))
    exact ⟨_, whole, .alone (plain.known_body found) (.function value dead),
      counts.decrement fit registered (by rw [Behaviour.counted, number])⟩
  | parentheses child work taken =>
    obtain ⟨_, _, _, _, known, context, rfl, path⟩ := head matched
    obtain ⟨first, others⟩ := forall_mem_cons.mp known
    have level := Matches.cons first.of_parentheses others context
    rw [← codeOf_parentheses] at level
    exact ⟨_, path, level, counts⟩
  | concatenation children work taken =>
    obtain ⟨_, _, _, _, known, context, rfl, path⟩ := head matched
    obtain ⟨first, others⟩ := forall_mem_cons.mp known
    have level := Matches.mk (forall_mem_append.mpr ⟨first.of_concatenation, others⟩) context
    rw [flatMap_append, append_assoc, ← codeOf_concatenation fit.named first, append_assoc] at level
    exact ⟨_, path, level, counts⟩
  | @choice c children work taken child =>
    obtain ⟨trees, tail, below, rest, known, context, rfl, path⟩ := head matched
    obtain ⟨first, others⟩ := forall_mem_cons.mp known
    have chosen := first.of_choice.2 c child
    rw [codeOf_choice fit.named first] at path
    obtain step | ⟨dead, step⟩ := choice_takes (f := controlFunction a value) store
      (List.mem_map_of_mem (f := codeOf a) child)
    · exact ⟨_, path.trans (.silent step (.refl _)), .cons chosen others context, counts⟩
    · exact ⟨_, path.trans (.silent step (.refl _)), .alone chosen (.branch dead others context), counts⟩

theorem mirrors_simulation (value : Option Int) (plain : a.process.IsPlain) (fit : VariablesFit a) :
    Lts.Simulation a.process.lts (controlFunction a value).lts (Mirrors a) where
  step := mirrors_step plain fit
  final := by
    intro t s mirrors final
    obtain ⟨matched, -⟩ := mirrors
    rw [show t.work = [] from final] at matched
    exact matched.finish (controlFunction a value) s.store

end Mirroring

/-! ## The same sequences -/

/-- The two systems at their starts. -/
theorem start_matches (plain : a.process.IsPlain) : Matches a [(controlFunction a value).body] [a.process.initial] :=
  .alone plain.known_initial (.function value _)

/-- The control function is generated and is valid C, and it executes the action sequences of its
process: those of whole runs, and those of runs that are looked at anywhere. -/
def Implements (a : Automaton) (directCalls model void : Bool) : Prop :=
  ∃ f, labelBasedFunction a directCalls model void = .ok f ∧ f.Valid ∧
    f.lts.sequences f.start = a.process.lts.sequences a.process.start ∧
    f.lts.beginnings f.start = a.process.lts.beginnings a.process.start

theorem fit_of_implements (plain : a.process.IsPlain) {directCalls model void : Bool}
    (returns : (returnStatement directCalls model void).isSome)
    (implements : Implements a directCalls model void) : VariablesFit a := by
  obtain ⟨f, generated, valid, -⟩ := implements
  obtain ⟨value, ending⟩ := returnStatement_eq returns
  have named := named_of_generated plain generated
  rw [labelBasedFunction_eq plain named ending] at generated
  cases generated
  exact fit_of_valid plain named valid

/-- A control function with a return statement implements its process exactly if its variables fit: no
counter belongs to a jump named `operator`, the numbers are C integers, no jump is named as another one
with the identifier of the automaton where their counters would coincide, and at most one action declares
the variable for received labels. -/
theorem labelBasedFunction_implements_iff (plain : a.process.IsPlain) {directCalls model void : Bool}
    (returns : (returnStatement directCalls model void).isSome) :
    Implements a directCalls model void ↔ VariablesFit a := by
  refine ⟨fit_of_implements plain returns, fun fit => ?_⟩
  obtain ⟨value, ending⟩ := returnStatement_eq returns
  have counts := Counts.initially value plain fit
  have follows : Follows a (controlFunction a value).start a.process.start :=
    .level (start_matches plain) counts
  have mirrors : Mirrors a a.process.start (controlFunction a value).start :=
    ⟨start_matches plain, counts⟩
  have forth := follows_simulation value plain fit
  have back := mirrors_simulation value plain fit
  exact ⟨controlFunction a value, labelBasedFunction_eq plain fit.named ending, controlFunction_valid value plain fit,
    (forth.sequences_subset follows).antisymm (back.sequences_subset mirrors),
    (forth.beginnings_subset follows).antisymm (back.beginnings_subset mirrors)⟩

/-! The process `(!a).<b>.(<c> | {d[2]}).[e]` with the subprocess `d = <f>.{d[3]} | [e]`. -/

def loopBody : BaseAction :=
  .concatenation [.choice [.concatenation [.behaviour ⟨5, "f", .block, none⟩,
      .behaviour ⟨6, "d", .subprocess, some (.count 3)⟩],
    .concatenation [.behaviour ⟨7, "e", .dispatch false, none⟩]]]

def loopInitial : BaseAction :=
  .concatenation [.behaviour ⟨0, "a", .receive true, none⟩, .behaviour ⟨1, "b", .block, none⟩, .parentheses (.choice
      [.concatenation [.behaviour ⟨2, "c", .block, none⟩],
      .concatenation [.behaviour ⟨3, "d", .subprocess, some (.count 2)⟩]]),
    .behaviour ⟨4, "e", .dispatch false, none⟩]

def loopProcess : Process where
  initial := loopInitial
  subprocesses := ⟨[("d", some loopBody)], by decide⟩
  registered := loopInitial.behaviours ++ loopBody.behaviours
  registered_perm := .refl _
  ident_nodup := by decide

def loopAutomaton : Automaton :=
  ⟨loopProcess, 2, fun label => .error (.unknownLabel label), fun _ => true, fun name => if name = "a" then ["%x%"] else []⟩

theorem loopProcess_isPlain : loopProcess.IsPlain where
  initial := by
    have d : "d" ∈ loopProcess.subprocesses.keys := by decide
    apply Process.Plain.concatenation
    simp only [forall_mem_cons]
    refine ⟨.action (by decide) rfl, .action (by decide) rfl, .parentheses (.choice (by decide) ?_),
      .action (by decide) rfl, nofun⟩
    simp only [forall_mem_cons]
    refine ⟨.concatenation ?_, .concatenation ?_, nofun⟩
    · exact forall_mem_singleton.mpr (.action (by decide) rfl)
    · exact forall_mem_singleton.mpr (.counted rfl rfl d)
  bodies := by
    intro name entry found
    obtain ⟨rfl, rfl⟩ := Prod.mk.inj (mem_singleton.mp (Dict.mem_items_iff.mpr found))
    have d : "d" ∈ loopProcess.subprocesses.keys := by decide
    refine ⟨loopBody, rfl, .concatenation (forall_mem_singleton.mpr (.choice (by decide) ?_))⟩
    simp only [forall_mem_cons]
    refine ⟨.concatenation ?_, .concatenation ?_, nofun⟩
    · simp only [forall_mem_cons]
      exact ⟨.action (by decide) rfl, .counted rfl rfl d, nofun⟩
    · exact forall_mem_singleton.mpr (.action (by decide) rfl)

theorem loopAutomaton_fit : VariablesFit loopAutomaton where
  named := by
    show ∀ b ∈ loopProcess.registered, _
    decide
  small := by
    decide
  apart := by
    have each : ∀ b ∈ loopProcess.registered, b.counted →
        (countedOf loopAutomaton s!"{b.name}_{loopAutomaton.identifier}").length ≠ 1 := by decide
    intro name several _
    obtain ⟨b, mem⟩ := exists_mem_of_length_pos (Nat.lt_trans Nat.zero_lt_one several)
    obtain ⟨registered, rfl, counted⟩ := mem_countedOf.mp mem
    exact each b registered counted
  unpacked := by decide

theorem loopAutomaton_implements : Implements loopAutomaton false false false :=
  (labelBasedFunction_implements_iff loopProcess_isPlain rfl).mpr loopAutomaton_fit

/-! The process `{d[1]} | {d[1]} | {d_1[1]}` with the subprocesses `d = <a>` and `d_1 = <b>`. -/

def clashInitial : BaseAction :=
  .concatenation [.choice [.concatenation [.behaviour ⟨0, "d", .subprocess, some (.count 1)⟩],
    .concatenation [.behaviour ⟨1, "d", .subprocess, some (.count 1)⟩],
    .concatenation [.behaviour ⟨2, "d_1", .subprocess, some (.count 1)⟩]]]

def clashProcess : Process where
  initial := clashInitial
  subprocesses := ⟨[("d", some (.concatenation [.behaviour ⟨3, "a", .block, none⟩])),
    ("d_1", some (.concatenation [.behaviour ⟨4, "b", .block, none⟩]))], by decide⟩
  registered := clashInitial.behaviours ++ [⟨3, "a", .block, none⟩, ⟨4, "b", .block, none⟩]
  registered_perm := .refl _
  ident_nodup := by decide

/-- The entry process has the identifier 1. -/
def clashAutomaton : Automaton :=
  ⟨clashProcess, 1, fun label => .error (.unknownLabel label), fun _ => true, fun _ => []⟩

theorem clashProcess_isPlain : clashProcess.IsPlain where
  initial := by
    refine .concatenation (forall_mem_singleton.mpr (.choice (by decide) ?_))
    simp only [forall_mem_cons]
    refine ⟨.concatenation ?_, .concatenation ?_, .concatenation ?_, nofun⟩ <;>
      exact forall_mem_singleton.mpr (.counted rfl rfl (by decide))
  bodies := by
    intro name entry found
    have item : (name, entry) ∈ clashProcess.subprocesses.items := Dict.mem_items_iff.mpr found
    simp only [clashProcess, mem_cons, not_mem_nil, or_false, Prod.mk.injEq] at item
    obtain ⟨rfl, rfl⟩ | ⟨rfl, rfl⟩ := item <;>
      exact ⟨_, rfl, .concatenation (forall_mem_singleton.mpr (.action (by decide) rfl))⟩

theorem clashProcess_executes : ["a"] ∈ clashProcess.lts.sequences clashProcess.start := by
  refine ⟨⟨[], [⟨0, "d", .subprocess, some (.count 1)⟩]⟩, ?_, rfl⟩
  refine .silent (Process.Move.concatenation _ _ _) ?_
  refine .silent (Process.Move.choice _ _ mem_cons_self) ?_
  refine .silent (Process.Move.concatenation _ _ _) ?_
  refine .silent (Process.Move.counted _ rfl rfl rfl (by decide)) ?_
  refine .silent (Process.Move.concatenation _ _ _) ?_
  have last : clashProcess.lts.step ⟨[.behaviour ⟨3, "a", .block, none⟩], _⟩ (some "a") ⟨[], _⟩ :=
    Process.Move.action [] [⟨0, "d", .subprocess, some (.count 1)⟩] (by decide) rfl
  exact .single last

/-- Two counters of the generated function have one name, so it is not valid, while its process can
execute an action and end. -/
theorem clashAutomaton_not_implements : clashProcess.IsPlain ∧ (returnStatement false false false).isSome ∧
      ["a"] ∈ clashProcess.lts.sequences clashProcess.start ∧
      (labelBasedFunction clashAutomaton false false false).map Func.locals =
        .ok [("emg_repeat_cnt_d_1_0", 1), ("emg_repeat_cnt_d_1_1", 1), ("emg_repeat_cnt_d_1_1", 1)] ∧
      ¬ Implements clashAutomaton false false false := by
  refine ⟨clashProcess_isPlain, rfl, clashProcess_executes, by decide, fun implements => ?_⟩
  have fit := fit_of_implements clashProcess_isPlain rfl implements
  exact fit.apart "d" (by decide) (by decide) (by decide)

end Klever.Emg
