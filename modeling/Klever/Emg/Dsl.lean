import Klever.Emg.Process

/-!
# The language of processes

The order of the actions of a process is written as a text: `(!a).<b>.(<c> | {d[2]}).[e]`. The lexer
and the grammar are those of `parser.py`. The generated parser is a machine that reads token after
token and keeps a frame for each open parenthesis; the alternatives of a choice are appended to it from
the last one to the first one. Trees are compared by their structure here: the parser gives all
behaviours the identity 0.

Printing a tree (`__repr__`) goes the other way. It takes the flags of signals from the descriptions of
the actions, and it was written for jumps with a number: whatever has a repeat is closed by a brace,
and the label of a guard loses its percent signs.
-/

namespace Klever.Emg

open Klever.Lib List Option BaseAction

/-! ## Lexer -/

/-- The tokens. -/
inductive Token where
  | dot | sep | parOpen | parClose | brOpen | brClose | sbrOpen | sbrClose | dimOpen | dimClose
  | per | rs | bs
  | number (n : Nat)
  | identifier (name : String)
  deriving DecidableEq, Repr

/-- The tokens of one character. -/
def punctuation : Char → Option Token
  | '.' => some .dot
  | '|' => some .sep
  | '(' => some .parOpen
  | ')' => some .parClose
  | '{' => some .brOpen
  | '}' => some .brClose
  | '[' => some .sbrOpen
  | ']' => some .sbrClose
  | '<' => some .dimOpen
  | '>' => some .dimClose
  | '%' => some .per
  | '!' => some .rs
  | '@' => some .bs
  | _ => none

/-- The classes of characters of the regular expressions: decimal digits (`\d`), with their values,
and word characters (`\w`). -/
structure Alphabet where
  digit : Char → Option Nat
  word : Char → Bool
  digit_ascii : ∀ c, c.isDigit → digit c = some (c.toNat - '0'.toNat)
  word_of_digit : ∀ c, (digit c).isSome → word c
  word_punctuation : ∀ c, (punctuation c).isSome → word c = false

/-- The digits, letters and the underscore of ASCII. -/
def asciiAlphabet : Alphabet where
  digit c := if c.isDigit then some (c.toNat - '0'.toNat) else none
  word c := c.isAlphanum || c == '_'
  digit_ascii c h := if_pos h
  word_of_digit c h := by
    have digit : c.isDigit := by
      by_contra none
      simp [none] at h
    simp [Char.isAlphanum, digit]
  word_punctuation c h := by
    unfold punctuation at h
    split at h <;> first | rfl | cases h

/-- What the lexer has read of a number or an identifier. -/
inductive Pending where
  | nothing
  | number (n : Nat)
  | identifier (name : List Char)

def Pending.tokens : Pending → List Token
  | .nothing => []
  | .number n => [.number n]
  | .identifier name => [.identifier (String.ofList name)]

variable (A : Alphabet)

/-- The number or identifier goes on with a character. -/
def Pending.extend (c : Char) : Pending → Option Pending
  | .nothing => none
  | .number n => (A.digit c).map fun d => .number (10 * n + d)
  | .identifier name => if A.word c then some (.identifier (name ++ [c])) else none

/-- A token begins with a character; blanks are ignored, and other characters are errors. -/
def beginToken (c : Char) : Option (List Token × Pending) :=
  match A.digit c with
  | some d => some ([], .number d)
  | none =>
    if A.word c then some ([], .identifier [c])
    else
      match punctuation c with
      | some t => some ([t], .nothing)
      | none => if c ∈ [' ', '\t', '\n'] then some ([], .nothing) else none

/-- The lexer. -/
def lex : Pending → List Char → Option (List Token)
  | p, [] => some p.tokens
  | p, c :: rest =>
    match p.extend A c with
    | some q => lex q rest
    | none => do
      let (ts, q) ← beginToken A c
      let others ← lex q rest
      return p.tokens ++ ts ++ others

/-! ## Parser -/

/-- What has been read inside of a parenthesis (or of the whole text): the alternatives before the
last bar, in the order of the text, and the actions behind it. -/
structure Frame where
  alternatives : List BaseAction
  actions : List BaseAction

def Frame.empty : Frame := ⟨[], []⟩

/-- `action_list`: one alternative is a sequence, several ones are a choice, to which they are
appended from the last one on. -/
def Frame.close (f : Frame) : BaseAction :=
  match f.alternatives with
  | [] => .concatenation f.actions
  | _ => .choice (f.alternatives ++ [concatenation f.actions]).reverse

def Frame.push (f : Frame) (t : BaseAction) : Frame := ⟨f.alternatives, f.actions ++ [t]⟩

/-- What may follow. -/
inductive Expect where
  | action
  | operator
  /-- behind a parenthesis: a receive or an `action_list` -/
  | opened
  | name (kind : Kind)
  | named (kind : Kind) (name : String)
  | repeating (kind : Kind) (name : String)
  | guard (kind : Kind) (name : String)
  | guarded (kind : Kind) (name label : String)
  | repeated (kind : Kind) (name : String) (r : Repeat)
  | closing (kind : Kind) (name : String) (r : Repeat)

/-- The machine: frames of the open parentheses, innermost first. -/
structure Machine where
  frames : List Frame
  expect : Expect

/-- The token behind a behaviour. -/
def Kind.close : Kind → Token
  | .subprocess => .brClose
  | .dispatch _ => .sbrClose
  | .receive _ => .parClose
  | .block => .dimClose

/-- A complete action. -/
def pushAction (t : BaseAction) : List Frame → Option Machine
  | f :: frames => some ⟨f.push t :: frames, .operator⟩
  | [] => none

/-- An action begins. -/
def startAction (frames : List Frame) : Token → Option Machine
  | .dimOpen => some ⟨frames, .name .block⟩
  | .brOpen => some ⟨frames, .name .subprocess⟩
  | .sbrOpen => some ⟨frames, .name (.dispatch false)⟩
  | .parOpen => some ⟨frames, .opened⟩
  | _ => none

/-- The next token. -/
def Machine.step (m : Machine) (t : Token) : Option Machine :=
  match m.expect with
  | .action => startAction m.frames t
  | .operator =>
    match t, m.frames with
    | .dot, frames => some ⟨frames, .action⟩
    | .sep, f :: frames => some ⟨⟨f.alternatives ++ [.concatenation f.actions], []⟩ :: frames, .action⟩
    | .parClose, f :: g :: frames => pushAction (.parentheses f.close) (g :: frames)
    | _, _ => none
  | .opened =>
    match t with
    | .rs => some ⟨m.frames, .name (.receive true)⟩
    | .identifier n => some ⟨m.frames, .named (.receive false) n⟩
    | _ => startAction (.empty :: m.frames) t
  | .name kind =>
    match t with
    | .bs => if kind = .dispatch false then some ⟨m.frames, .name (.dispatch true)⟩ else none
    | .identifier n => some ⟨m.frames, .named kind n⟩
    | _ => none
  | .named kind n =>
    if t = kind.close then pushAction (.behaviour ⟨0, n, kind, none⟩) m.frames
    else if t = .sbrOpen then some ⟨m.frames, .repeating kind n⟩
    else none
  | .repeating kind n =>
    match t with
    | .number k => some ⟨m.frames, .repeated kind n (.count k)⟩
    | .per => some ⟨m.frames, .guard kind n⟩
    | _ => none
  | .guard kind n =>
    match t with
    | .identifier label => some ⟨m.frames, .guarded kind n label⟩
    | _ => none
  | .guarded kind n label => if t = .per then some ⟨m.frames, .repeated kind n (.guard label)⟩ else none
  | .repeated kind n r => if t = .sbrClose then some ⟨m.frames, .closing kind n r⟩ else none
  | .closing kind n r =>
    if t = kind.close then pushAction (.behaviour ⟨0, n, kind, some r⟩) m.frames else none

def Machine.run (m : Machine) (tokens : List Token) : Option Machine := tokens.foldlM Machine.step m

/-- `p_process`: a choice is put into a sequence of its own. -/
def rootOf : BaseAction → BaseAction
  | .choice children => .concatenation [.choice children]
  | t => t

/-- The end of the text. -/
def Machine.accept (m : Machine) : Option BaseAction :=
  match m.expect, m.frames with
  | .operator, [f] => some (rootOf f.close)
  | _, _ => none

/-- `parse_process`; none stands for `ValueError`. -/
def parseProcess (s : String) : Option BaseAction := do
  let tokens ← lex A .nothing s.toList
  let m ← Machine.run ⟨[.empty], .action⟩ tokens
  m.accept

/-! ## Printer -/

/-- The kind without its flag: descriptions are created so. -/
def Kind.unflagged : Kind → Kind
  | .dispatch _ => .dispatch false
  | .receive _ => .receive false
  | k => k

/-- The descriptions of actions, as far as printing reads them. -/
abbrev Descriptions := String → Option Kind

/-- The kind that is printed for a behaviour: that of its description, or else of a new one. -/
def Behaviour.shown (D : Descriptions) (b : Behaviour) : Kind := (D b.name).getD b.kind.unflagged

/-- `Subprocess.__repr__`, `Dispatch.__repr__`, `Receive.__repr__` and `Block.__repr__`. -/
def reprAction (name : String) : Kind → String
  | .subprocess => "\x7b" ++ name ++ "\x7d"
  | .dispatch broadcast => "[" ++ (if broadcast then "@" else "") ++ name ++ "]"
  | .receive replicative => "(" ++ (if replicative then "!" else "") ++ name ++ ")"
  | .block => "<" ++ name ++ ">"

def Repeat.text : Repeat → String
  | .count n => toString n
  | .guard label => label

/-- `Behaviour.__repr__` -/
def Behaviour.repr (D : Descriptions) (b : Behaviour) : String :=
  let res := reprAction b.name (b.shown D)
  match b.repeated with
  | none => res
  | some r => String.ofList res.toList.dropLast ++ "[" ++ r.text ++ "]\x7d"

mutual

/-- `__repr__` of a tree. -/
def BaseAction.repr (D : Descriptions) : BaseAction → String
  | .behaviour b => b.repr D
  | .parentheses child => "(" ++ child.repr D ++ ")"
  | .concatenation children => ".".intercalate (reprEach D children)
  | .choice children => "|".intercalate (reprEach D children)

def reprEach (D : Descriptions) : List BaseAction → List String
  | [] => []
  | t :: rest => t.repr D :: reprEach D rest

end

/-! ## Tokens of printed trees -/

variable {cs : List Char}

section Tokens

variable {A} {D : Descriptions}

/-- The tokens before the name of a behaviour. -/
def Kind.openTokens : Kind → List Token
  | .subprocess => [.brOpen]
  | .dispatch broadcast => if broadcast then [.sbrOpen, .bs] else [.sbrOpen]
  | .receive replicative => if replicative then [.parOpen, .rs] else [.parOpen]
  | .block => [.dimOpen]

def Repeat.token : Repeat → Token
  | .count n => .number n
  | .guard label => .identifier label

/-- The tokens of a printed behaviour. -/
def Behaviour.tokens (D : Descriptions) (b : Behaviour) : List Token :=
  (b.shown D).openTokens ++ .identifier b.name ::
    match b.repeated with
    | none => [(b.shown D).close]
    | some r => [.sbrOpen, r.token, .sbrClose, .brClose]

mutual

/-- The tokens of a printed tree. -/
def BaseAction.tokens (D : Descriptions) : BaseAction → List Token
  | .behaviour b => b.tokens D
  | .parentheses child => .parOpen :: (child.tokens D ++ [.parClose])
  | .concatenation children => [Token.dot].intercalate (tokensEach D children)
  | .choice children => [Token.sep].intercalate (tokensEach D children)

def tokensEach (D : Descriptions) : List BaseAction → List (List Token)
  | [] => []
  | t :: rest => t.tokens D :: tokensEach D rest

end

/-- What the lexer takes for an identifier. -/
structure IsName (A : Alphabet) (name : String) : Prop where
  nonempty : name.toList ≠ []
  head : ∀ c ∈ name.toList.head?, A.digit c = none
  word : ∀ c ∈ name.toList, A.word c

variable {c : Char}

theorem lex_begin {ts : List Token} {q : Pending} (begins : beginToken A c = some (ts, q)) (rest : List Char) :
    lex A .nothing (c :: rest) = (lex A q rest).map (ts ++ ·) := by
  rw [lex]
  simp only [Pending.extend, begins]
  show (lex A q rest).bind _ = _
  cases lex A q rest <;> rfl

theorem digit_punctuation {t : Token} (one : punctuation c = some t) : A.digit c = none := by
  by_contra some
  have word := A.word_of_digit c (isSome_iff_ne_none.mpr some)
  rw [A.word_punctuation c (by rw [one]; rfl)] at word
  cases word

theorem lex_punctuation {t : Token} (one : punctuation c = some t) (rest : List Char) :
    lex A .nothing (c :: rest) = (lex A .nothing rest).map (t :: ·) := by
  have noWord := A.word_punctuation c (by rw [one]; rfl)
  have begins : beginToken A c = some ([t], .nothing) := by simp [beginToken, digit_punctuation one, noWord, one]
  exact lex_begin begins rest

/-- A number or an identifier that a character does not continue is complete. -/
theorem lex_complete {p : Pending} (stops : p.extend A c = none) (rest : List Char) :
    lex A p (c :: rest) = (lex A .nothing (c :: rest)).map (p.tokens ++ ·) := by
  rw [lex, lex, stops]
  simp only [Pending.extend]
  cases beginToken A c with
  | none => rfl
  | some begun =>
    cases h : lex A begun.2 rest <;> simp [h, Pending.tokens]

theorem lex_word (word : ∀ c ∈ cs, A.word c) (name rest : List Char) :
    lex A (.identifier name) (cs ++ rest) = lex A (.identifier (name ++ cs)) rest := by
  induction cs generalizing name with
  | nil => rw [nil_append, append_nil]
  | cons c cs ih =>
    obtain ⟨first, others⟩ := forall_mem_cons.mp word
    rw [cons_append, lex]
    simp only [Pending.extend, if_pos first]
    rw [ih others, append_assoc, singleton_append]

theorem lex_identifier {name : String} (isName : IsName A name) (stops : A.word c = false) (rest : List Char) :
    lex A .nothing (name.toList ++ c :: rest) = (lex A .nothing (c :: rest)).map (.identifier name :: ·) := by
  obtain ⟨nonempty, head, word⟩ := isName
  obtain ⟨first, others, chars⟩ := exists_cons_of_ne_nil nonempty
  have whole : String.ofList (first :: others) = name := by rw [← chars, String.ofList_toList]
  rw [chars] at head word
  obtain ⟨firstWord, othersWord⟩ := forall_mem_cons.mp word
  have begins : beginToken A first = some ([], .identifier [first]) := by
    simp [beginToken, head first rfl, firstWord]
  have stop : Pending.extend A c (.identifier (first :: others)) = none := by
    simp [Pending.extend, stops]
  rw [chars, cons_append, lex_begin begins, lex_word othersWord, singleton_append,
    lex_complete stop, Option.map_map, Pending.tokens, whole]
  rfl

theorem lex_digits (digits : ∀ c ∈ cs, c.isDigit) (n : Nat) (rest : List Char) :
    lex A (.number n) (cs ++ rest) = lex A (.number (Nat.ofDigitChars 10 cs n)) rest := by
  induction cs generalizing n with
  | nil => rfl
  | cons c cs ih =>
    obtain ⟨first, others⟩ := forall_mem_cons.mp digits
    rw [cons_append, lex]
    simp only [Pending.extend, A.digit_ascii c first, map_some]
    rw [ih others, Nat.ofDigitChars_cons]

theorem lex_number (n : Nat) (stops : A.digit c = none) (rest : List Char) :
    lex A .nothing ((toString n).toList ++ c :: rest) = (lex A .nothing (c :: rest)).map (.number n :: ·) := by
  have digits : ∀ d ∈ Nat.toDigits 10 n, d.isDigit := fun d mem =>
    Nat.isDigit_of_mem_toDigits (by decide) (by decide) mem
  have value : Nat.ofDigitChars 10 (Nat.toDigits 10 n) 0 = n :=
    Nat.ofDigitChars_toDigits (by decide) (by decide)
  have text : (toString n).toList = Nat.toDigits 10 n := by simp
  obtain ⟨first, others, chars⟩ := exists_cons_of_ne_nil (Nat.toDigits_ne_nil (b := 10) (n := n))
  rw [chars] at digits value
  obtain ⟨firstDigit, othersDigit⟩ := forall_mem_cons.mp digits
  have begins : beginToken A first = some ([], .number (first.toNat - '0'.toNat)) := by
    simp [beginToken, A.digit_ascii first firstDigit]
  rw [Nat.ofDigitChars_cons, Nat.mul_zero, Nat.zero_add] at value
  have stop : Pending.extend A c (.number n) = none := by simp [Pending.extend, stops]
  rw [text, chars, cons_append, lex_begin begins, lex_digits othersDigit, value, lex_complete stop, Option.map_map]
  rfl

/-- A text of complete tokens. -/
def Lexes (A : Alphabet) (cs : List Char) (ts : List Token) : Prop :=
  ∀ rest, lex A .nothing (cs ++ rest) = (lex A .nothing rest).map (ts ++ ·)

namespace Lexes

variable {cs ds : List Char} {ts us : List Token} {c : Char} {t : Token}

theorem append (first : Lexes A cs ts) (second : Lexes A ds us) : Lexes A (cs ++ ds) (ts ++ us) := by
  intro rest
  rw [append_assoc, first, second, Option.map_map]
  simp [Function.comp_def]

theorem punctuation (one : Emg.punctuation c = some t) : Lexes A [c] [t] :=
  lex_punctuation one

theorem identifier {name : String} (isName : IsName A name) (one : Emg.punctuation c = some t)
    (others : Lexes A (c :: cs) ts) : Lexes A (name.toList ++ c :: cs) (.identifier name :: ts) := by
  intro rest
  rw [append_assoc, cons_append, lex_identifier isName (A.word_punctuation c (by rw [one]; rfl))]
  rw [show c :: (cs ++ rest) = c :: cs ++ rest from rfl, others, Option.map_map]
  rfl

theorem number (n : Nat) (others : Lexes A (']' :: cs) ts) :
    Lexes A ((toString n).toList ++ ']' :: cs) (.number n :: ts) := by
  intro rest
  rw [append_assoc, cons_append, lex_number n (digit_punctuation rfl)]
  rw [show ']' :: (cs ++ rest) = ']' :: cs ++ rest from rfl, others, Option.map_map]
  rfl

end Lexes

/-- The characters before and behind the name of a behaviour. -/
def Kind.openChars : Kind → List Char
  | .subprocess => ['{']
  | .dispatch broadcast => if broadcast then ['[', '@'] else ['[']
  | .receive replicative => if replicative then ['(', '!'] else ['(']
  | .block => ['<']

def Kind.closeChar : Kind → Char
  | .subprocess => '}'
  | .dispatch _ => ']'
  | .receive _ => ')'
  | .block => '>'

theorem reprAction_toList (name : String) (k : Kind) :
    (reprAction name k).toList = k.openChars ++ name.toList ++ [k.closeChar] := by
  cases k with
  | dispatch flag | receive flag =>
    cases flag <;> simp [reprAction, Kind.openChars, Kind.closeChar]
  | subprocess | block => simp [reprAction, Kind.openChars, Kind.closeChar]

theorem lexes_open (k : Kind) : Lexes A k.openChars k.openTokens := by
  cases k with
  | dispatch flag =>
    cases flag with
    | false => exact .punctuation rfl
    | true => exact (Lexes.punctuation (c := '[') rfl).append (.punctuation (c := '@') rfl)
  | receive flag =>
    cases flag with
    | false => exact .punctuation rfl
    | true => exact (Lexes.punctuation (c := '(') rfl).append (.punctuation (c := '!') rfl)
  | subprocess | block => exact .punctuation rfl

theorem punctuation_close (k : Kind) : punctuation k.closeChar = some k.close := by
  cases k <;> rfl

/-- The identifiers of a behaviour. -/
structure Behaviour.Legible (A : Alphabet) (b : Behaviour) : Prop where
  name : IsName A b.name
  label : ∀ label, b.repeated = some (.guard label) → IsName A label

theorem lexes_behaviour {b : Behaviour} (legible : b.Legible A) : Lexes A (b.repr D).toList (b.tokens D) := by
  have close := Lexes.punctuation (A := A) (punctuation_close (b.shown D))
  cases again : b.repeated with
  | none =>
    rw [Behaviour.repr, Behaviour.tokens]
    simp only [again]
    rw [reprAction_toList, append_assoc]
    exact (lexes_open _).append (close.identifier legible.name (punctuation_close _))
  | some r =>
    have tail : Lexes A [']', '}'] [.sbrClose, .brClose] :=
      (Lexes.punctuation (c := ']') rfl).append (.punctuation (c := '}') rfl)
    have inner : Lexes A (r.text.toList ++ [']', '}']) (r.token :: [.sbrClose, .brClose]) := by
      cases r with
      | count n => exact tail.number n
      | guard label => exact tail.identifier (legible.label label again) rfl
    have bracket : Lexes A ('[' :: (r.text.toList ++ [']', '}'])) (.sbrOpen :: r.token :: [.sbrClose, .brClose]) :=
      (Lexes.punctuation (c := '[') rfl).append inner
    have text : (b.repr D).toList =
        (b.shown D).openChars ++ (b.name.toList ++ '[' :: (r.text.toList ++ [']', '}'])) := by
      rw [Behaviour.repr]
      simp [again, reprAction_toList]
    rw [text, Behaviour.tokens]
    simp only [again]
    exact (lexes_open _).append (bracket.identifier legible.name rfl)

end Tokens

/-! ## Trees of the grammar -/

/-- The nonterminals `action`, `concatenation_list` and `action_list`. -/
inductive Level where
  | action | sequence | list

/-- The trees that the grammar builds. -/
inductive Shaped (A : Alphabet) : Level → BaseAction → Prop
  | behaviour {b} : b.ident = 0 → b.Legible A → Shaped A .action (.behaviour b)
  | parentheses {t} : Shaped A .list t → Shaped A .action (.parentheses t)
  | sequence {actions} : actions ≠ [] → (∀ t ∈ actions, Shaped A .action t) →
      Shaped A .sequence (.concatenation actions)
  | single {t} : Shaped A .sequence t → Shaped A .list t
  | choice {children} : 2 ≤ children.length → (∀ c ∈ children, Shaped A .sequence c) → Shaped A .list (.choice children)

mutual

/-- The tree with the kinds that are printed. -/
def BaseAction.reflag (D : Descriptions) : BaseAction → BaseAction
  | .behaviour b => .behaviour { b with kind := b.shown D }
  | .parentheses child => .parentheses (child.reflag D)
  | .concatenation children => .concatenation (reflagEach D children)
  | .choice children => .choice (reflagEach D children)

def reflagEach (D : Descriptions) : List BaseAction → List BaseAction
  | [] => []
  | t :: rest => t.reflag D :: reflagEach D rest

end

mutual

/-- The tree with the alternatives of every choice in the reverse order. -/
def BaseAction.mirrored : BaseAction → BaseAction
  | .behaviour b => .behaviour b
  | .parentheses child => .parentheses child.mirrored
  | .concatenation children => .concatenation (mirroredEach children)
  | .choice children => .choice (mirroredEach children).reverse

def mirroredEach : List BaseAction → List BaseAction
  | [] => []
  | t :: rest => t.mirrored :: mirroredEach rest

end

section Trees

variable {A} {D : Descriptions} (trees : List BaseAction)

theorem reprEach_eq : reprEach D trees = trees.map (repr D) := by
  induction trees with
  | nil => rfl
  | cons t rest ih => rw [reprEach, ih, map_cons]

theorem tokensEach_eq : tokensEach D trees = trees.map (tokens D) := by
  induction trees with
  | nil => rfl
  | cons t rest ih => rw [tokensEach, ih, map_cons]

theorem reflagEach_eq : reflagEach D trees = trees.map (reflag D) := by
  induction trees with
  | nil => rfl
  | cons t rest ih => rw [reflagEach, ih, map_cons]

theorem mirroredEach_eq : mirroredEach trees = trees.map mirrored := by
  induction trees with
  | nil => rfl
  | cons t rest ih => rw [mirroredEach, ih, map_cons]

theorem Lexes.intercalate {c : Char} {s : Token} (one : Emg.punctuation c = some s) {trees : List BaseAction}
    (each : ∀ t ∈ trees, Lexes A (t.repr D).toList (t.tokens D)) :
    Lexes A ([c].intercalate (trees.map fun t => (t.repr D).toList))
      ([s].intercalate (trees.map (tokens D))) := by
  induction trees with
  | nil => exact fun rest => by simp
  | cons t rest ih =>
    obtain ⟨first, others⟩ := forall_mem_cons.mp each
    cases rest with
    | nil =>
      simp only [map_cons, map_nil, intercalate_singleton]
      exact first
    | cons u rest =>
      simp only [map_cons, intercalate_cons_cons]
      exact (first.append (.punctuation one)).append (ih others)

/-- The lexer reads a printed tree. -/
theorem lexes_tree {l : Level} {t : BaseAction} (shaped : Shaped A l t) : Lexes A (t.repr D).toList (t.tokens D) := by
  induction shaped with
  | behaviour _ legible =>
    exact lexes_behaviour legible
  | @parentheses t _ ih =>
    have text : (repr D (.parentheses t)).toList = '(' :: ((t.repr D).toList ++ [')']) := by
      simp [BaseAction.repr]
    rw [text, tokens]
    exact (Lexes.punctuation (c := '(') rfl).append (ih.append (.punctuation (c := ')') rfl))
  | sequence _ _ ih =>
    rw [BaseAction.repr, BaseAction.tokens, String.toList_intercalate, reprEach_eq, tokensEach_eq, List.map_map]
    exact Lexes.intercalate rfl ih
  | single _ ih => exact ih
  | choice _ _ ih =>
    rw [BaseAction.repr, BaseAction.tokens, String.toList_intercalate, reprEach_eq, tokensEach_eq, List.map_map]
    exact Lexes.intercalate rfl ih

end Trees

/-! ## The machine on printed trees -/

/-- The text of a behaviour is in the grammar: what is repeated is printed as a jump, with a number. -/
def Behaviour.Printable (D : Descriptions) (b : Behaviour) : Prop :=
  b.repeated = none ∨ b.shown D = .subprocess ∧ b.counted

def BaseAction.Printable (D : Descriptions) (t : BaseAction) : Prop :=
  ∀ b ∈ t.behaviours, b.Printable D

/-- What the machine makes of a printed tree. -/
def BaseAction.reread (D : Descriptions) (t : BaseAction) : BaseAction := (t.reflag D).mirrored

/-- All alternatives of a frame, the last one included. -/
def Frame.whole (f : Frame) : List BaseAction := f.alternatives ++ [.concatenation f.actions]

variable {actions : List BaseAction} {f : Frame}

section Running

variable {A} {D : Descriptions}

theorem run_append (m : Machine) (ts us : List Token) : m.run (ts ++ us) = (m.run ts).bind fun n => n.run us :=
  foldlM_append

theorem run_cons (m : Machine) (t : Token) (ts : List Token) : m.run (t :: ts) = (m.step t).bind fun n => n.run ts :=
  foldlM_cons

theorem run_behaviour {b : Behaviour} (ident : b.ident = 0) (printable : b.Printable D) (f : Frame)
    (frames : List Frame) :
    Machine.run ⟨f :: frames, .action⟩ (b.tokens D) =
      some ⟨f.push (.behaviour { b with kind := b.shown D }) :: frames, .operator⟩ := by
  obtain ⟨i, name, kind, again⟩ := b
  obtain rfl : i = 0 := ident
  unfold Behaviour.tokens
  generalize shows : Behaviour.shown D ⟨0, name, kind, again⟩ = shown
  obtain none | ⟨jump, counted⟩ := printable
  · obtain rfl : again = Option.none := none
    cases shown with
    | dispatch flag | receive flag => cases flag <;> rfl
    | subprocess | block => rfl
  · rw [shows] at jump
    subst jump
    cases again with
    | none => cases counted
    | some r =>
      cases r with
      | count n => rfl
      | guard label => cases counted

theorem run_behaviour_none {b : Behaviour} (printable : ¬ b.Printable D) (f : Frame)
    (frames : List Frame) : Machine.run ⟨f :: frames, .action⟩ (b.tokens D) = none := by
  obtain ⟨i, name, kind, again⟩ := b
  unfold Behaviour.tokens Behaviour.Printable at *
  generalize Behaviour.shown D ⟨i, name, kind, again⟩ = shown at *
  cases again with
  | none => exact absurd (.inl rfl) printable
  | some r =>
    cases r with
    | count n =>
      cases shown with
      | subprocess => exact absurd (.inr ⟨rfl, rfl⟩) printable
      | dispatch flag | receive flag => cases flag <;> rfl
      | block => rfl
    | guard label =>
      cases shown with
      | dispatch flag | receive flag => cases flag <;> rfl
      | subprocess | block => rfl

/-- What the machine does on the tokens of a printable tree. -/
def Runs (D : Descriptions) (t : BaseAction) : Level → Prop
  | .action => ∀ f frames, Machine.run ⟨f :: frames, .action⟩ (t.tokens D) =
      some ⟨f.push (t.reread D) :: frames, .operator⟩
  | .sequence => ∀ alternatives frames, ∃ f : Frame,
      Machine.run ⟨⟨alternatives, []⟩ :: frames, .action⟩ (t.tokens D) = some ⟨f :: frames, .operator⟩ ∧
      f.whole = alternatives ++ [t.reread D]
  | .list => ∀ frames, ∃ f : Frame,
      Machine.run ⟨.empty :: frames, .action⟩ (t.tokens D) = some ⟨f :: frames, .operator⟩ ∧
      f.close = t.reread D

theorem runs_actions (nonempty : actions ≠ [])
    (each : ∀ t ∈ actions, Runs D t .action) (f : Frame) (frames : List Frame) :
    Machine.run ⟨f :: frames, .action⟩ ([Token.dot].intercalate (actions.map (tokens D))) =
      some ⟨⟨f.alternatives, f.actions ++ actions.map (reread D)⟩ :: frames, .operator⟩ := by
  induction actions generalizing f with
  | nil => exact absurd rfl nonempty
  | cons t rest ih =>
    obtain ⟨first, others⟩ := forall_mem_cons.mp each
    cases rest with
    | nil =>
      rw [map_singleton, intercalate_singleton, first f frames]
      rfl
    | cons u rest =>
      rw [map_cons, map_cons, intercalate_cons_cons, run_append, run_append, first f frames]
      show Machine.run ⟨f.push (t.reread D) :: frames, .action⟩ _ = _
      rw [← map_cons, ih (cons_ne_nil u rest) others]
      simp [Frame.push]

variable {children : List BaseAction} {l : Level} {t : BaseAction}

theorem runs_alternatives (nonempty : children ≠ []) (each : ∀ c ∈ children, Runs D c .sequence)
    (alternatives : List BaseAction) (frames : List Frame) :
    ∃ f : Frame, Machine.run ⟨⟨alternatives, []⟩ :: frames, .action⟩
        ([Token.sep].intercalate (children.map (tokens D))) = some ⟨f :: frames, .operator⟩ ∧
      f.whole = alternatives ++ children.map (reread D) := by
  induction children generalizing alternatives with
  | nil => exact absurd rfl nonempty
  | cons c rest ih =>
    obtain ⟨first, others⟩ := forall_mem_cons.mp each
    obtain ⟨f, run, whole⟩ := first alternatives frames
    cases rest with
    | nil =>
      rw [map_singleton, intercalate_singleton]
      exact ⟨f, run, whole⟩
    | cons d rest =>
      obtain ⟨g, more, all⟩ := ih (cons_ne_nil d rest) others f.whole
      refine ⟨g, ?_, ?_⟩
      · rw [map_cons, map_cons, intercalate_cons_cons, run_append, run_append, run]
        exact more
      · rw [all, whole, append_assoc]
        rfl

/-- The first token of a printed tree begins an action. -/
theorem tokens_start (shaped : Shaped A l t) : ∃ first rest, t.tokens D = first :: rest ∧ ∀ frames,
      Machine.step ⟨frames, .opened⟩ first = Machine.step ⟨.empty :: frames, .action⟩ first := by
  induction shaped with
  | @behaviour b =>
    rw [tokens, Behaviour.tokens]
    cases b.shown D with
    | dispatch flag | receive flag => cases flag <;> exact ⟨_, _, rfl, fun _ => rfl⟩
    | subprocess | block => exact ⟨_, _, rfl, fun _ => rfl⟩
  | parentheses => exact ⟨_, _, by rw [tokens], fun _ => rfl⟩
  | @sequence actions nonempty _ ih | @choice actions several _ ih =>
    obtain ⟨t, rest, rfl⟩ : ∃ t rest, actions = t :: rest := by
      apply exists_cons_of_ne_nil
      first
      | exact nonempty
      | exact ne_nil_of_length_pos (by omega)
    obtain ⟨first, more, tokens, step⟩ := ih t mem_cons_self
    rw [BaseAction.tokens, tokensEach_eq]
    cases rest with
    | nil =>
      rw [map_singleton, intercalate_singleton]
      exact ⟨first, more, tokens, step⟩
    | cons u rest =>
      rw [map_cons, map_cons, intercalate_cons_cons, tokens]
      exact ⟨first, _, rfl, step⟩
  | single _ ih => exact ih

theorem reread_concatenation (actions : List BaseAction) :
    (concatenation actions).reread D = .concatenation (actions.map (reread D)) := by
  rw [reread, reflag, mirrored, reflagEach_eq, mirroredEach_eq, List.map_map]
  rfl

theorem reread_choice (children : List BaseAction) :
    (choice children).reread D = .choice (children.map (reread D)).reverse := by
  rw [reread, reflag, mirrored, reflagEach_eq, mirroredEach_eq, List.map_map]
  rfl

theorem close_of_whole_singleton (whole : f.whole = [t]) : f.close = t := by
  obtain ⟨alternatives, actions⟩ := f
  obtain ⟨none, last⟩ := append_eq_singleton_iff.mp whole |>.resolve_right (by simp)
  obtain rfl : alternatives = [] := none
  exact singleton_inj.mp last

theorem close_of_whole (several : 2 ≤ f.whole.length) : f.close = .choice f.whole.reverse := by
  obtain ⟨alternatives, actions⟩ := f
  cases alternatives with
  | nil => simp [Frame.whole] at several
  | cons => rfl

/-- The machine behind an opened parenthesis. -/
theorem run_parentheses (shaped : Shaped A .list t) (f : Frame) (frames : List Frame) :
    Machine.run ⟨f :: frames, .action⟩ (tokens D (.parentheses t)) =
      (Machine.run ⟨.empty :: f :: frames, .action⟩ (t.tokens D)).bind fun m => m.step .parClose := by
  obtain ⟨first, rest, tokens, start⟩ := tokens_start (D := D) shaped
  show Machine.run ⟨f :: frames, .opened⟩ (t.tokens D ++ [.parClose]) = _
  rw [run_append]
  congr 1
  · rw [tokens, run_cons, run_cons, start]
  · funext m
    rw [run_cons]
    cases m.step .parClose <;> rfl

theorem printable_child (printable : ∀ b ∈ behavioursOf children, b.Printable D) (mem : t ∈ children) : t.Printable D :=
  fun b h => printable b (mem_behavioursOf.mpr ⟨t, mem, h⟩)

theorem unprintable_child (unprintable : ¬ ∀ b ∈ behavioursOf children, b.Printable D) :
    ∃ t ∈ children, ¬ t.Printable D := by
  by_contra all
  apply unprintable
  intro b mem
  obtain ⟨t, child, mem⟩ := mem_behavioursOf.mp mem
  by_contra bad
  exact all ⟨t, child, fun printable => bad (printable b mem)⟩

/-- A printable tree is read, with the printed flags and the reversed alternatives. -/
theorem runs_tree (shaped : Shaped A l t) (printable : t.Printable D) : Runs D t l := by
  induction shaped with
  | @behaviour b ident _ =>
    intro f frames
    exact run_behaviour ident (printable b (mem_singleton_self b)) f frames
  | @parentheses t inner ih =>
    intro f frames
    obtain ⟨g, run, close⟩ := ih printable (f :: frames)
    rw [run_parentheses inner, run]
    show pushAction (.parentheses g.close) (f :: frames) = _
    rw [close]
    rfl
  | @sequence actions nonempty _ ih =>
    intro alternatives frames
    rw [tokens, tokensEach_eq, reread_concatenation]
    exact ⟨_, runs_actions nonempty (fun t mem => ih t mem (printable_child printable mem)) _ _, rfl⟩
  | single _ ih =>
    intro frames
    obtain ⟨f, run, whole⟩ := ih printable [] frames
    exact ⟨f, run, close_of_whole_singleton whole⟩
  | @choice children several _ ih =>
    intro frames
    rw [tokens, tokensEach_eq, reread_choice]
    obtain ⟨f, run, whole⟩ := runs_alternatives (ne_nil_of_length_pos (by omega))
      (fun c mem => ih c mem (printable_child printable mem)) [] frames
    refine ⟨f, run, ?_⟩
    rw [close_of_whole (by rw [whole]; simpa using several), whole, nil_append]

/-- Where the machine stops on a tree that is not printable. -/
def Fails (D : Descriptions) (t : BaseAction) : Level → Prop
  | .action => ∀ f frames, Machine.run ⟨f :: frames, .action⟩ (t.tokens D) = none
  | .sequence => ∀ alternatives frames, Machine.run ⟨⟨alternatives, []⟩ :: frames, .action⟩ (t.tokens D) = none
  | .list => ∀ frames, Machine.run ⟨.empty :: frames, .action⟩ (t.tokens D) = none

theorem fails_actions (each : ∀ t ∈ actions, Runs D t .action ∨ Fails D t .action)
    (some : ∃ t ∈ actions, ¬ Runs D t .action) (f : Frame) (frames : List Frame) :
    Machine.run ⟨f :: frames, .action⟩ ([Token.dot].intercalate (actions.map (tokens D))) = none := by
  induction actions generalizing f with
  | nil => simp at some
  | cons t rest ih =>
    obtain ⟨first, others⟩ := forall_mem_cons.mp each
    cases rest with
    | nil =>
      have bad : ¬ Runs D t .action := by simpa using some
      rw [map_singleton, intercalate_singleton]
      exact first.resolve_left bad f frames
    | cons u rest =>
      rw [map_cons, map_cons, intercalate_cons_cons, run_append, run_append]
      obtain runs | fails := first
      · rw [runs f frames]
        refine ih others ?_ _
        obtain ⟨v, mem, bad⟩ := some
        obtain rfl | mem := mem_cons.mp mem
        · exact absurd runs bad
        · exact ⟨v, mem, bad⟩
      · rw [fails f frames]
        rfl

theorem fails_alternatives (each : ∀ c ∈ children, Runs D c .sequence ∨ Fails D c .sequence)
    (some : ∃ c ∈ children, ¬ Runs D c .sequence) (alternatives : List BaseAction) (frames : List Frame) :
    Machine.run ⟨⟨alternatives, []⟩ :: frames, .action⟩
      ([Token.sep].intercalate (children.map (tokens D))) = none := by
  induction children generalizing alternatives with
  | nil => simp at some
  | cons c rest ih =>
    obtain ⟨first, others⟩ := forall_mem_cons.mp each
    cases rest with
    | nil =>
      have bad : ¬ Runs D c .sequence := by simpa using some
      rw [map_singleton, intercalate_singleton]
      exact first.resolve_left bad alternatives frames
    | cons d rest =>
      rw [map_cons, map_cons, intercalate_cons_cons, run_append, run_append]
      obtain runs | fails := first
      · obtain ⟨f, run, -⟩ := runs alternatives frames
        rw [run]
        refine ih others ?_ _
        obtain ⟨e, mem, bad⟩ := some
        obtain rfl | mem := mem_cons.mp mem
        · exact absurd runs bad
        · exact ⟨e, mem, bad⟩
      · rw [fails alternatives frames]
        rfl

theorem Fails.not_runs (fails : Fails D t l) : ¬ Runs D t l := by
  intro runs
  cases l with
  | action => cases (fails .empty []).symm.trans (runs .empty [])
  | sequence =>
    obtain ⟨f, run, -⟩ := runs [] []
    cases (fails [] []).symm.trans run
  | list =>
    obtain ⟨f, run, -⟩ := runs []
    cases (fails []).symm.trans run

/-- A tree that is not printable is not read. -/
theorem fails_tree (shaped : Shaped A l t) (unprintable : ¬ t.Printable D) : Fails D t l := by
  induction shaped with
  | @behaviour b ident _ =>
    intro f frames
    exact run_behaviour_none (fun printable => unprintable (forall_mem_singleton.mpr printable)) f frames
  | @parentheses t inner ih =>
    intro f frames
    rw [run_parentheses inner, ih unprintable (f :: frames)]
    rfl
  | @sequence actions nonempty all ih =>
    intro alternatives frames
    rw [tokens, tokensEach_eq]
    refine fails_actions (fun t mem => ?_) ?_ _ _
    · by_cases printable : t.Printable D
      · exact .inl (runs_tree (all t mem) printable)
      · exact .inr (ih t mem printable)
    · obtain ⟨t, mem, bad⟩ := unprintable_child unprintable
      exact ⟨t, mem, (ih t mem bad).not_runs⟩
  | single _ ih => exact fun frames => ih unprintable [] frames
  | @choice children several all ih =>
    intro frames
    rw [tokens, tokensEach_eq]
    refine fails_alternatives (fun c mem => ?_) ?_ _ _
    · by_cases printable : c.Printable D
      · exact .inl (runs_tree (all c mem) printable)
      · exact .inr (ih c mem printable)
    · obtain ⟨c, mem, bad⟩ := unprintable_child unprintable
      exact ⟨c, mem, (ih c mem bad).not_runs⟩

end Running

/-! ## Parsed trees -/

section Parsed

variable {A}

def Pending.Good (A : Alphabet) : Pending → Prop
  | .identifier name => IsName A (String.ofList name)
  | _ => True

variable {ts : List Token} {t : BaseAction} {m : Machine}

theorem beginToken_good {c : Char} {q : Pending} (begins : beginToken A c = some (ts, q)) :
    q.Good A ∧ ∀ name, .identifier name ∉ ts := by
  unfold beginToken at begins
  split at begins
  · cases begins
    exact ⟨trivial, fun _ => not_mem_nil⟩
  · rename_i noDigit
    split at begins
    · rename_i word
      cases begins
      refine ⟨⟨by simp, ?_, ?_⟩, fun _ => not_mem_nil⟩
      · simpa using noDigit
      · simpa using word
    · split at begins
      · rename_i t one
        cases begins
        refine ⟨trivial, fun name mem => ?_⟩
        obtain rfl := mem_singleton.mp mem
        unfold punctuation at one
        split at one <;> cases one
      · split at begins
        · cases begins
          exact ⟨trivial, fun _ => not_mem_nil⟩
        · cases begins

theorem Pending.Good.extend {p q : Pending} {c : Char} (good : p.Good A) (goes : p.extend A c = some q) : q.Good A := by
  cases p with
  | nothing => cases goes
  | number n =>
    obtain ⟨d, -, rfl⟩ := map_eq_some_iff.mp goes
    trivial
  | identifier name =>
    simp only [Pending.extend] at goes
    split at goes
    · rename_i word
      cases goes
      obtain ⟨nonempty, head, all⟩ := good
      rw [String.toList_ofList] at nonempty head all
      refine ⟨by simp, ?_, ?_⟩
      · obtain ⟨first, rest, rfl⟩ := exists_cons_of_ne_nil nonempty
        simpa using head
      · rw [String.toList_ofList]
        exact forall_mem_append.mpr ⟨all, forall_mem_singleton.mpr word⟩
    · cases goes

/-- The lexer yields names. -/
theorem lex_names {p : Pending} (good : p.Good A) (lexed : lex A p cs = some ts) :
    ∀ name, .identifier name ∈ ts → IsName A name := by
  have pending : ∀ {p : Pending}, p.Good A → ∀ name, Token.identifier name ∈ p.tokens → IsName A name := by
    intro p good name mem
    cases p with
    | nothing => cases mem
    | number n => simp [Pending.tokens] at mem
    | identifier chars =>
      simp only [Pending.tokens, mem_singleton, Token.identifier.injEq] at mem
      rw [mem]
      exact good
  induction cs generalizing p ts with
  | nil =>
    cases lexed
    exact pending good
  | cons c rest ih =>
    rw [lex] at lexed
    cases goes : p.extend A c with
    | some q =>
      rw [goes] at lexed
      exact ih (good.extend goes) lexed
    | none =>
      rw [goes] at lexed
      obtain ⟨⟨us, q⟩, begins, lexed⟩ := bind_eq_some_iff.mp lexed
      obtain ⟨others, rest, same⟩ := bind_eq_some_iff.mp lexed
      cases same
      obtain ⟨goodQ, noName⟩ := beginToken_good begins
      intro name mem
      obtain mem | mem := mem_append.mp mem
      · obtain mem | mem := mem_append.mp mem
        · exact pending good name mem
        · exact absurd mem (noName name)
      · exact ih goodQ rest name mem

/-- The trees of a frame are those of the grammar. -/
structure Frame.Good (A : Alphabet) (f : Frame) : Prop where
  alternatives : ∀ c ∈ f.alternatives, Shaped A .sequence c
  actions : ∀ t ∈ f.actions, Shaped A .action t

/-- The identifiers of a behaviour that is being read. -/
def Expect.names : Expect → List String
  | .named _ n | .repeating _ n | .guard _ n => [n]
  | .guarded _ n label => [n, label]
  | .repeated _ n (.count _) | .closing _ n (.count _) => [n]
  | .repeated _ n (.guard label) | .closing _ n (.guard label) => [n, label]
  | .action | .operator | .opened | .name _ => []

structure Machine.Good (A : Alphabet) (m : Machine) : Prop where
  frames : ∀ f ∈ m.frames, f.Good A
  names : ∀ n ∈ m.expect.names, IsName A n
  read : m.expect = .operator → ∀ f ∈ m.frames.head?, f.actions ≠ []

theorem Frame.Good.whole (good : f.Good A) (read : f.actions ≠ []) : ∀ c ∈ f.whole, Shaped A .sequence c := by
  exact forall_mem_append.mpr ⟨good.alternatives, forall_mem_singleton.mpr (.sequence read good.actions)⟩

theorem Frame.Good.close (good : f.Good A) (read : f.actions ≠ []) : Shaped A .list f.close := by
  obtain ⟨alternatives, actions⟩ := f
  cases alternatives with
  | nil => exact .single (.sequence read good.actions)
  | cons c rest =>
    refine .choice (by simp) fun d mem => good.whole read d ?_
    exact mem_reverse.mp mem

theorem pushAction_good {frames : List Frame} (good : ∀ f ∈ frames, f.Good A) (shaped : Shaped A .action t)
    (pushed : pushAction t frames = some m) : m.Good A := by
  cases frames with
  | nil => cases pushed
  | cons f frames =>
    cases pushed
    obtain ⟨first, others⟩ := forall_mem_cons.mp good
    refine ⟨forall_mem_cons.mpr ⟨⟨first.alternatives, ?_⟩, others⟩, nofun, ?_⟩
    · exact forall_mem_append.mpr ⟨first.actions, forall_mem_singleton.mpr shaped⟩
    · intro _ g mem
      cases mem
      simp [Frame.push]

theorem startAction_good {frames : List Frame} {t : Token} (good : ∀ f ∈ frames, f.Good A)
    (started : startAction frames t = some m) : m.Good A := by
  cases t <;> cases started <;> exact ⟨good, nofun, nofun⟩

theorem emptyFrame_good : Frame.empty.Good A := ⟨nofun, nofun⟩

/-- One token keeps the machine good. -/
theorem step_good {n : Machine} {t : Token} (good : m.Good A) (name : ∀ x, t = .identifier x → IsName A x)
    (step : m.step t = some n) : n.Good A := by
  obtain ⟨frames, expect⟩ := m
  obtain ⟨frames_good, names, read⟩ := good
  have plain : ∀ e : Expect, (∀ x ∈ e.names, IsName A x) → e ≠ .operator → Machine.Good A ⟨frames, e⟩ :=
    fun e legible other => ⟨frames_good, legible, fun same => absurd same other⟩
  unfold Machine.step at step
  cases expect with
  | action => exact startAction_good frames_good step
  | operator =>
    simp only at step
    split at step
    · cases step
      exact ⟨frames_good, nofun, nofun⟩
    · rename_i f below
      cases step
      obtain ⟨first, others⟩ := forall_mem_cons.mp frames_good
      exact ⟨forall_mem_cons.mpr ⟨⟨first.whole (read rfl f rfl), nofun⟩, others⟩, nofun, nofun⟩
    · rename_i f g below
      obtain ⟨first, others⟩ := forall_mem_cons.mp frames_good
      exact pushAction_good others (.parentheses (first.close (read rfl f rfl))) step
    · cases step
  | opened =>
    simp only at step
    split at step
    · cases step
      exact plain _ nofun nofun
    · rename_i x
      cases step
      exact plain _ (by simpa [Expect.names] using name x rfl) nofun
    · exact startAction_good (forall_mem_cons.mpr ⟨emptyFrame_good, frames_good⟩) step
  | name kind =>
    simp only at step
    split at step
    · split at step
      · cases step
        exact plain _ nofun nofun
      · cases step
    · rename_i x
      cases step
      exact plain _ (by simpa [Expect.names] using name x rfl) nofun
    · cases step
  | named kind x =>
    simp only at step
    split at step
    · have legible : Behaviour.Legible A ⟨0, x, kind, none⟩ :=
        ⟨names x (by simp [Expect.names]), fun _ same => by cases same⟩
      exact pushAction_good frames_good (.behaviour rfl legible) step
    · split at step
      · cases step
        exact plain _ names nofun
      · cases step
  | repeating kind x =>
    simp only at step
    split at step
    · cases step
      exact plain _ names nofun
    · cases step
      exact plain _ names nofun
    · cases step
  | guard kind x =>
    simp only at step
    split at step
    · rename_i label
      cases step
      refine plain _ ?_ nofun
      simp only [Expect.names, forall_mem_cons] at names ⊢
      exact ⟨names.1, name label rfl, nofun⟩
    · cases step
  | guarded kind x label =>
    simp only at step
    split at step
    · cases step
      exact plain _ names nofun
    · cases step
  | repeated kind x r =>
    simp only at step
    split at step
    · cases step
      refine plain _ ?_ nofun
      cases r <;> exact names
    · cases step
  | closing kind x r =>
    simp only at step
    split at step
    · refine pushAction_good frames_good (.behaviour rfl ⟨?_, ?_⟩) step
      · cases r <;> exact names x (by simp [Expect.names])
      · intro label same
        cases same
        exact names label (by simp [Expect.names])
    · cases step

theorem run_good {n : Machine} (good : m.Good A) (name : ∀ x, .identifier x ∈ ts → IsName A x)
    (run : m.run ts = some n) : n.Good A := by
  induction ts generalizing m with
  | nil =>
    cases run
    exact good
  | cons t rest ih =>
    obtain ⟨k, step, more⟩ := bind_eq_some_iff.mp run
    refine ih (step_good good (fun x same => name x ?_) step)
      (fun x mem => name x (mem_cons_of_mem _ mem)) more
    rw [same]
    exact mem_cons_self

/-- The parser yields trees of the grammar. -/
theorem parseProcess_shaped {s : String} (parsed : parseProcess A s = some t) :
    ∃ u, Shaped A .list u ∧ t = rootOf u := by
  obtain ⟨ts, lexed, parsed⟩ := bind_eq_some_iff.mp parsed
  obtain ⟨⟨frames, expect⟩, run, accepted⟩ := bind_eq_some_iff.mp parsed
  have start : Machine.Good A ⟨[.empty], .action⟩ :=
    ⟨forall_mem_singleton.mpr emptyFrame_good, nofun, nofun⟩
  have good := run_good start (lex_names (p := .nothing) trivial lexed) run
  unfold Machine.accept at accepted
  split at accepted
  · rename_i f expects only
    cases accepted
    obtain rfl : expect = .operator := expects
    obtain rfl : frames = [f] := only
    have first := good.frames f mem_cons_self
    exact ⟨f.close, first.close (good.read rfl f rfl), rfl⟩
  · cases accepted

theorem Shaped.legible {l : Level} (shaped : Shaped A l t) : ∀ b ∈ t.behaviours, b.Legible A := by
  induction shaped with
  | behaviour _ legible => exact forall_mem_singleton.mpr legible
  | parentheses _ ih | single _ ih => exact ih
  | sequence _ _ ih | choice _ _ ih =>
    intro b mem
    obtain ⟨t, child, here⟩ := mem_behavioursOf.mp mem
    exact ih t child b here

/-- The parser on a printed tree. -/
theorem parseProcess_repr {D : Descriptions} {u : BaseAction} (shaped : Shaped A .list u) :
    (u.Printable D → parseProcess A (u.repr D) = some (rootOf (u.reread D))) ∧
      (¬ u.Printable D → parseProcess A (u.repr D) = none) := by
  have tokens : lex A .nothing (u.repr D).toList = some (u.tokens D) := by
    have lexed := lexes_tree (D := D) shaped []
    rw [append_nil] at lexed
    rw [lexed]
    simp [lex, Pending.tokens]
  constructor
  · intro printable
    obtain ⟨f, run, close⟩ := runs_tree shaped printable []
    simp [parseProcess, tokens, show Machine.run ⟨[.empty], .action⟩ _ = _ from run, Machine.accept, close]
  · intro unprintable
    simp [parseProcess, tokens, show Machine.run ⟨[.empty], .action⟩ _ = _ from fails_tree shaped unprintable []]

end Parsed

/-! ## Printing and parsing -/

section RoundTrip

variable {A} {D : Descriptions}

theorem rootOf_repr (u : BaseAction) : (rootOf u).repr D = u.repr D := by
  cases u with
  | choice children =>
    rw [rootOf, BaseAction.repr, reprEach_eq, map_singleton]
    apply String.toList_inj.mp
    rw [String.toList_intercalate, map_singleton, intercalate_singleton]
  | behaviour | parentheses | concatenation => rfl

theorem rootOf_behaviours (u : BaseAction) : (rootOf u).behaviours = u.behaviours := by
  cases u with
  | choice children => simp [rootOf, behaviours, behavioursOf]
  | behaviour | parentheses | concatenation => rfl

theorem rootOf_reread (u : BaseAction) : (rootOf u).reread D = rootOf (u.reread D) := by
  cases u with
  | choice children => rw [rootOf, reread_concatenation, map_singleton, reread_choice, rootOf]
  | behaviour | parentheses => rfl
  | concatenation children =>
    rw [rootOf, reread_concatenation, rootOf] <;> exact fun _ => BaseAction.noConfusion

mutual

theorem mem_behaviours_mirrored {b : Behaviour} : ∀ t : BaseAction, b ∈ t.mirrored.behaviours ↔ b ∈ t.behaviours
  | .behaviour _ => Iff.rfl
  | .parentheses child => mem_behaviours_mirrored child
  | .concatenation children => mem_behavioursOf_mirrored children
  | .choice children => by
    rw [mirrored, behaviours, mem_behavioursOf]
    simp only [mem_reverse]
    rw [← mem_behavioursOf]
    exact mem_behavioursOf_mirrored children

theorem mem_behavioursOf_mirrored {b : Behaviour} :
    ∀ trees : List BaseAction, b ∈ behavioursOf (mirroredEach trees) ↔ b ∈ behavioursOf trees
  | [] => Iff.rfl
  | t :: rest => by
    rw [mirroredEach, behavioursOf, behavioursOf, mem_append, mem_append,
      mem_behaviours_mirrored t, mem_behavioursOf_mirrored rest]

end

mutual

theorem behaviours_reflag : ∀ t : BaseAction, (t.reflag D).behaviours =
      t.behaviours.map fun b => { b with kind := b.shown D }
  | .behaviour _ => rfl
  | .parentheses child => behaviours_reflag child
  | .concatenation children => behavioursOf_reflag children
  | .choice children => behavioursOf_reflag children

theorem behavioursOf_reflag : ∀ trees : List BaseAction, behavioursOf (reflagEach D trees) =
      (behavioursOf trees).map fun b => { b with kind := b.shown D }
  | [] => rfl
  | t :: rest => by
    rw [reflagEach, behavioursOf, behavioursOf, map_append, behaviours_reflag t, behavioursOf_reflag rest]

end

mutual

theorem reflag_eq_self : ∀ t : BaseAction, (∀ b ∈ t.behaviours, b.shown D = b.kind) → t.reflag D = t
  | .behaviour b, own => by rw [reflag, own b (mem_singleton_self b)]
  | .parentheses child, own => by rw [reflag, reflag_eq_self child own]
  | .concatenation children, own => by rw [reflag, reflagEach_eq_self children own]
  | .choice children, own => by rw [reflag, reflagEach_eq_self children own]

theorem reflagEach_eq_self :
    ∀ trees : List BaseAction, (∀ b ∈ behavioursOf trees, b.shown D = b.kind) → reflagEach D trees = trees
  | [], _ => rfl
  | t :: rest, own => by
    rw [reflagEach, reflag_eq_self t fun b mem => own b (mem_append_left _ mem),
      reflagEach_eq_self rest fun b mem => own b (mem_append_right _ mem)]

end

theorem Kind.unflagged_unflagged (k : Kind) : k.unflagged.unflagged = k.unflagged := by
  cases k <;> rfl

/-- Printing the kind that a description shows shows it again. -/
theorem shown_idem (b : Behaviour) : Behaviour.shown D { b with kind := b.shown D } = b.shown D := by
  unfold Behaviour.shown
  cases D b.name with
  | none => exact Kind.unflagged_unflagged b.kind
  | some k => rfl

/-- A tree is printed faithfully: only jumps are repeated, by a number; each signal has the flag of
its description, or none if it is not described; and every choice reads the same backwards. -/
structure Faithful (D : Descriptions) (t : BaseAction) : Prop where
  repeated : ∀ b ∈ t.behaviours, b.repeated = none ∨ b.kind = .subprocess ∧ b.counted
  flags : ∀ b ∈ t.behaviours, b.shown D = b.kind
  order : t.mirrored = t

theorem faithful_iff {t : BaseAction} : Faithful D t ↔ t.Printable D ∧ t.reread D = t := by
  constructor
  · intro ⟨repeated, flags, order⟩
    refine ⟨fun b mem => ?_, ?_⟩
    · rw [Behaviour.Printable, flags b mem]
      exact repeated b mem
    · rw [reread, reflag_eq_self t flags, order]
  · intro ⟨printable, same⟩
    have flags : ∀ b ∈ t.behaviours, b.shown D = b.kind := by
      intro b mem
      rw [← same, reread, mem_behaviours_mirrored, behaviours_reflag] at mem
      obtain ⟨c, -, rfl⟩ := List.mem_map.mp mem
      exact shown_idem c
    refine ⟨fun b mem => ?_, flags, ?_⟩
    · rw [← flags b mem]
      exact printable b mem
    · rwa [reread, reflag_eq_self t flags] at same

/-- Parsing what is printed for a parsed tree yields the same tree exactly if the tree is printed
faithfully. -/
theorem parse_repr_iff {s : String} {t : BaseAction} (parsed : parseProcess A s = some t)
    (D : Descriptions) : parseProcess A (t.repr D) = some t ↔ Faithful D t := by
  obtain ⟨u, shaped, rfl⟩ := parseProcess_shaped parsed
  have printable : (rootOf u).Printable D ↔ u.Printable D := by
    rw [BaseAction.Printable, BaseAction.Printable, rootOf_behaviours]
  rw [faithful_iff, printable, rootOf_repr, rootOf_reread]
  obtain ⟨reads, fails⟩ := parseProcess_repr (D := D) shaped
  by_cases good : u.Printable D
  · rw [reads good, some.injEq, and_iff_right good]
  · rw [fails good]
    exact ⟨nofun, fun both => absurd both.1 good⟩

/-- The tree of `(!a).<b>.{d[2]}`. -/
def signalTree : BaseAction :=
  .concatenation [.behaviour ⟨0, "a", .receive true, none⟩, .behaviour ⟨0, "b", .block, none⟩,
    .behaviour ⟨0, "d", .subprocess, some (.count 2)⟩]

/-- The description of its signal. -/
def signalDescriptions : Descriptions := fun name => if name = "a" then some (.receive true) else none

theorem signalTree_parse_repr : parseProcess asciiAlphabet "(!a).<b>.\x7bd[2]\x7d" = some signalTree ∧
      parseProcess asciiAlphabet (signalTree.repr signalDescriptions) = some signalTree := by
  have parsed : parseProcess asciiAlphabet "(!a).<b>.\x7bd[2]\x7d" = some signalTree := by
    decide +kernel
  exact ⟨parsed, (parse_repr_iff parsed _).mpr ⟨by decide, by decide, by decide⟩⟩

/-- Alternatives are read from the last to the first, and a repeated block is closed as a jump. -/
theorem parse_repr_fails : (parseProcess asciiAlphabet "<a>|<b>").map (repr fun _ => none) = some "<b>|<a>" ∧
      parseProcess asciiAlphabet "<b>|<a>" ≠ parseProcess asciiAlphabet "<a>|<b>" ∧
      (parseProcess asciiAlphabet "<a[2]>").map (repr fun _ => none) = some "<a[2]\x7d" ∧
      parseProcess asciiAlphabet "<a[2]\x7d" = none := by
  decide +kernel

end RoundTrip

end Klever.Emg
