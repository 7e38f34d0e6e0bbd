import TypedLambda.Parser.Level
import TypedLambda.Parser.Token

/-!
# Rules and grammars

A rule is the description of a parser: a tree made of the parsers of this library, with the names of
other rules at its leaves. A grammar gives the rule of every name. What a rule reads is its
denotation, which depends on what the names denote; a name denotes its rule, unfolded to a given
depth.

## Termination

The denotation of a rule is by recursion on the rule, and that of a name by recursion on the depth
to which names may be nested. A name below that depth has no reply.
-/

namespace TypedLambda

/-- The description of a parser, in which the rules named by `σ` may be used. -/
inductive Rule (σ : Type → Type) : Type → Type 1 where
  | succeed {α : Type} (value : α) : Rule σ α
  | problem {α : Type} (message : String) : Rule σ α
  | bind {α β : Type} (r : Rule σ α) (f : α → Rule σ β) : Rule σ β
  | nothing {α : Type} : Rule σ α
  /-- Tries a second rule if the first fails without progress. -/
  | orElse {α : Type} (r s : Rule σ α) : Rule σ α
  /-- Hides the progress of a rule. -/
  | backtrackable {α : Type} (r : Rule σ α) : Rule σ α
  | symbol (text : String) : Rule σ Unit
  /-- Reads a word that must not run on. -/
  | keyword (text : String) : Rule σ Unit
  | chompWhile (inClass : Char → Bool) : Rule σ Unit
  | endOfInput : Rule σ Unit
  | name (rules : NameRules) : Rule σ String
  | int : Rule σ Int64
  | many {α : Type} (r : Rule σ α) : Rule σ (List α)
  /-- Reads operands joined by the operators of one precedence. -/
  | level {α : Type} (term : Rule σ α) (operator : Associativity → Rule σ (α → α → α)) : Rule σ α
  | ref {α : Type} (x : σ α) : Rule σ α

namespace Rule

variable {σ : Type → Type} {α β : Type}

/-- The parser that a rule describes, given what the names denote. -/
def denote (call : {α : Type} → σ α → Parser α) : {α : Type} → Rule σ α → Parser α
  | _, succeed value => Parser.succeed value
  | _, problem message => Parser.fail (.custom message)
  | _, bind r f => (r.denote call).bind fun value => (f value).denote call
  | _, nothing => Parser.nothing
  | _, orElse r s => (r.denote call).orElse (s.denote call)
  | _, backtrackable r => (r.denote call).backtrackable
  | _, symbol text => Parser.symbol text
  | _, keyword text => Parser.keyword text
  | _, chompWhile inClass => Parser.chompWhile inClass
  | _, endOfInput => Parser.endOfInput
  | _, name rules => Parser.name rules
  | _, int => Parser.int
  | _, many r => (r.denote call).many
  | _, level term operator => Level.parse ⟨term.denote call, fun a => (operator a).denote call⟩
  | _, ref x => call x

/-! ## Derived rules -/

instance : Monad (Rule σ) where
  pure := succeed
  bind := bind

/-- Changes the value of a rule. -/
def map (f : α → β) (r : Rule σ α) : Rule σ β := r.bind fun value => succeed (f value)

/-- Reads two rules in a row and keeps both values. -/
def seq (r : Rule σ α) (s : Rule σ β) : Rule σ (α × β) :=
  r.bind fun a => s.bind fun b => succeed (a, b)

/-- Reads two rules in a row and keeps the first value. -/
def skip (r : Rule σ α) (s : Rule σ β) : Rule σ α :=
  r.bind fun a => s.bind fun _ => succeed a

/-- Reads two rules in a row and keeps the second value. -/
def skipLeft (r : Rule σ α) (s : Rule σ β) : Rule σ β := r.bind fun _ => s

/-- Tries rules in order. -/
def oneOf (rs : List (Rule σ α)) : Rule σ α := rs.foldr orElse nothing

/-- A choice of rules describes the choice of their parsers. -/
theorem denote_oneOf (call : {α : Type} → σ α → Parser α) (rs : List (Rule σ α)) :
    (oneOf rs).denote call = Parser.oneOf (rs.map (denote call)) := by
  induction rs with
  | nil => rfl
  | cons r rs ih =>
    show (r.denote call).orElse ((oneOf rs).denote call) = _
    rw [ih]
    rfl

/-- Reads any amount of layout. -/
def spaces : Rule σ Unit := chompWhile isLayout

/-- Reads a rule and the layout after it. -/
def spaced (r : Rule σ α) : Rule σ α := r.skip spaces

/-- Reads a rule one or more times. -/
def many1 (r : Rule σ α) : Rule σ (α × List α) := r.seq r.many

/-- Reads a rule between two pieces of punctuation, with layout inside and after. -/
def between (opening closing : String) (r : Rule σ α) : Rule σ α :=
  ((symbol opening).spaced.skipLeft r.spaced).skip (symbol closing).spaced

/-- Reads a rule between parentheses. -/
def parens (r : Rule σ α) : Rule σ α := between "(" ")" r

end Rule

/-- A binary operator: how it is read and what it builds, and how it groups. -/
structure Operator (σ : Type → Type) (α : Type) where
  rule : Rule σ (α → α → α)
  associativity : Associativity

namespace Rule

variable {σ : Type → Type} {α : Type}

/-- The choice of the operators of one associativity, in the order given. -/
def operatorsOf (operators : List (Operator σ α)) (a : Associativity) : Rule σ (α → α → α) :=
  oneOf ((operators.filter (·.associativity = a)).map Operator.rule)

/-- Reads operands joined by the operators of a table of levels, listed from loosest to tightest. -/
def table (levels : List (List (Operator σ α))) (term : Rule σ α) : Rule σ α :=
  levels.foldr (fun operators tighter => level tighter (operatorsOf operators)) term

end Rule

/-! ## Grammars -/

/-- The rule of every name. -/
structure Grammar (σ : Type → Type) where
  rule : {α : Type} → σ α → Rule σ α

namespace Grammar

variable {σ : Type → Type}

/-- What a name denotes when names may be nested to a depth. -/
def call (g : Grammar σ) : (depth : Nat) → {α : Type} → σ α → Parser α
  | 0, _, _ => Parser.never
  | depth + 1, _, x => (g.rule x).denote (g.call depth)

/-- What a rule denotes when names may be nested to a depth. -/
def denote (g : Grammar σ) (depth : Nat) {α : Type} (r : Rule σ α) : Parser α :=
  r.denote (g.call depth)

/-- Runs a rule over the whole of a text. -/
def run (g : Grammar σ) (depth : Nat) {α : Type} (r : Rule σ α) (source : String) :
    Option (Except ParseError α) :=
  (g.denote depth (r.skip .endOfInput) (.start source)).map fun reply => reply.step.toExcept

end Grammar

end TypedLambda
