import TypedLambda.Expr
import TypedLambda.Parser.Rule

/-!
# The grammar of expressions and types

```text
expression := term, joined by the operators of the table below
term       := atom atom*
atom       := "(" expression ")" | boolean | number | identifier
            | "if" expression "then" expression "else" expression
            | "\" identifier ":" type "." expression
type       := typeAtom "->" type | typeAtom
typeAtom   := "(" type ")" | "Int" | "Bool"
```

Layout may follow every token. Juxtaposition is application and groups to the left. A number hides
its progress, so a malformed one is reported among the other things that an atom can be.
-/

namespace TypedLambda

/-- The names of the recursive rules. -/
inductive Phrase : Type → Type where
  | expression : Phrase Expr
  | type : Phrase Ty

namespace Phrase

open Rule

/-! ## Tokens -/

/-- Reads a word and the layout after it. -/
def word (text : String) : Rule Phrase Unit := (keyword text).spaced

/-- Reads a piece of punctuation and the layout after it. -/
def sign (text : String) : Rule Phrase Unit := (symbol text).spaced

/-- Words that are no identifiers. -/
def reservedWords : List String := ["True", "False", "if", "then", "else", "fi"]

/-- An identifier is a lower case letter followed by letters, digits, underscores and primes. -/
def identifierRules : NameRules where
  start := Char.isLower
  inner c := c.isAlphanum || c == '_' || c == '\x27'
  reserved := reservedWords

/-- Reads an identifier. -/
def identifier : Rule Phrase String := (name identifierRules).spaced

/-- Reads a boolean literal. -/
def boolean : Rule Phrase Literal :=
  (oneOf
    [(keyword "True").map fun _ => Literal.bool true,
      (keyword "False").map fun _ => Literal.bool false]).spaced

/-- Reads an integer literal. -/
def number : Rule Phrase Literal := int.backtrackable.spaced.map Literal.int

/-- An operator with a spelling, an associativity and the node that it builds. -/
def infixed {α : Type} (text : String) (combine : α → α → α) (a : Associativity) :
    Operator Phrase α :=
  ⟨(sign text).map fun _ => combine, a⟩

/-! ## Types -/

/-- Reads a type that is no arrow, or any type in parentheses. -/
def typeAtom : Rule Phrase Ty :=
  oneOf
    [parens (ref type), (word "Int").map fun _ => Ty.int, (word "Bool").map fun _ => Ty.bool]

/-- Reads a type. -/
def typeRule : Rule Phrase Ty := table [[infixed "->" Ty.arrow .right]] typeAtom

/-! ## Expressions -/

/-- Reads a conditional. -/
def conditional : Rule Phrase Expr := do
  word "if"
  let condition ← ref expression
  word "then"
  let consequent ← ref expression
  word "else"
  let alternative ← ref expression
  return .ite condition consequent alternative

/-- Reads a function. -/
def function : Rule Phrase Expr := do
  sign "\\"
  let param ← identifier
  sign ":"
  let type ← ref type
  sign "."
  let body ← ref expression
  return .lam param type body

/-- Reads an expression that is no application and has no operator outside parentheses. -/
def atom : Rule Phrase Expr :=
  oneOf
    [parens (ref expression), boolean.map Expr.lit, number.map Expr.lit, identifier.map Expr.var,
      conditional, function]

/-- Reads atoms and applies the first to the others in turn. -/
def term : Rule Phrase Expr := atom.many1.map fun (first, others) => others.foldl Expr.app first

/-- A binary operator of expressions. -/
def binary (op : Op) (a : Associativity) : Operator Phrase Expr := infixed op.text (Expr.prim op) a

/-- The operators of expressions, from the loosest level to the tightest. -/
def operatorTable : List (List (Operator Phrase Expr)) :=
  [[binary .or .right],
    [binary .and .right],
    [binary .equal .non],
    [binary .less .non, binary .greater .non],
    [binary .add .left],
    [binary .mul .left]]

/-- Reads an expression. -/
def expressionRule : Rule Phrase Expr := table operatorTable term

/-- The grammar of the language. -/
def grammar : Grammar Phrase where
  rule
    | expression => expressionRule
    | type => typeRule

end Phrase

end TypedLambda
