import TypedLambda.Expr
import TypedLambda.Parser.Level

/-!
# The grammar of expressions as a relation on texts

What the language is, stated without a parser. Each relation below takes a text and what is left of
it, so that `Derives category ending s e rest` says: the text `s` starts with a phrase for `e`, and
`rest` follows the phrase. What follows matters, because a word or a number ends where it cannot go
on, and because a conditional or a function without parentheses goes on as far as it can.

```text
operation k := application | operation operator operation, the operator of rank at least k
application := atom | application atom
atom        := "(" operation 0 ")" | "True" | "False" | number | identifier
             | "if" operation 0 "then" operation 0 "else" operation 0
             | "\" identifier ":" type "." operation 0
type        := atomic type | atomic type "->" type
atomic type := "Int" | "Bool" | "(" type ")"
```
-/

namespace TypedLambda

/-! ## Operators -/

/-- The level of an operator, counted from the loosest. -/
def Op.rank : Op → Nat
  | or => 0
  | and => 1
  | equal => 2
  | less | greater => 3
  | add => 4
  | mul => 5

/-- How a chain of the operator groups. -/
def Op.grouping : Op → Associativity
  | or | and => .right
  | equal | less | greater => .non
  | add | mul => .left

/-- The loosest rank allowed on the left of the operator. -/
def Op.leftRank (op : Op) : Nat := if op.grouping = .left then op.rank else op.rank + 1

/-- The loosest rank allowed on the right of the operator. -/
def Op.rightRank (op : Op) : Nat := if op.grouping = .right then op.rank else op.rank + 1

theorem Op.rank_le_leftRank (op : Op) : op.rank ≤ op.leftRank := by
  cases op <;> decide

theorem Op.rank_le_rightRank (op : Op) : op.rank ≤ op.rightRank := by
  cases op <;> decide

namespace Derivation

/-! ## Tokens -/

/-- The text does not start with a character of a class. -/
def Stops (inClass : Char → Prop) (s : List Char) : Prop := ∀ a ∈ s.head?, ¬inClass a

/-- The characters of layout. -/
def Blank (a : Char) : Prop := a = ' ' ∨ a = '\n' ∨ a = '\r'

/-- The characters that go on a word. -/
def NameChar (a : Char) : Prop := a.isAlphanum = true ∨ a = '_' ∨ a = '\x27'

/-- A run of layout, which may be empty. -/
def Gap (s rest : List Char) : Prop := ∃ blanks, s = blanks ++ rest ∧ ∀ a ∈ blanks, Blank a

/-- Some characters, in front of a text that may follow them, and the layout behind them. -/
def Token (chars : List Char) (MayFollow : List Char → Prop) (s rest : List Char) : Prop :=
  ∃ behind, s = chars ++ behind ∧ MayFollow behind ∧ Gap behind rest

/-- A piece of punctuation. -/
def Sign (text : String) : List Char → List Char → Prop := Token text.toList fun _ => True

/-- A word that does not run on. -/
def Word (text : String) : List Char → List Char → Prop := Token text.toList (Stops NameChar)

/-- A lower case letter and characters of words, and not one of the reserved words. -/
def IsIdentifier (name : String) : Prop :=
  (∃ first others, name.toList = first :: others ∧ first.isLower = true ∧
    ∀ a ∈ others, NameChar a) ∧
    name ∉ ["True", "False", "if", "then", "else", "fi"]

/-- An identifier that does not run on. -/
def Identifier (name : String) (s rest : List Char) : Prop :=
  IsIdentifier name ∧ Word name s rest

/--
The digits of a number in front of a text: a zero alone, or all digits there are, of which the first
is no zero. A fraction, an exponent or, after a zero, the mark of another base must not follow.
-/
inductive Numeral : List Char → List Char → Prop
  | zero {behind : List Char} (h : Stops (· ∈ ['.', 'e', 'E', 'x', 'o', 'b']) behind) :
    Numeral ['0'] behind
  | positive {first : Char} {others behind : List Char} (hfirst : first.isDigit = true)
    (hne : first ≠ '0') (hothers : ∀ a ∈ others, a.isDigit = true)
    (hle : Nat.ofDigitChars 10 (first :: others) 0 ≤ 9223372036854775807)
    (h : Stops (fun a => a.isDigit = true ∨ a ∈ ['.', 'e', 'E']) behind) :
    Numeral (first :: others) behind

/-- A number of the language. -/
def Number (n : Int64) (s rest : List Char) : Prop :=
  ∃ digits, n = Int64.ofNat (Nat.ofDigitChars 10 digits 0) ∧ Token digits (Numeral digits) s rest

/-! ## Types -/

/-- A type in a text; an atomic one is no arrow outside parentheses. -/
inductive DerivesType : (atomic : Bool) → List Char → Ty → List Char → Prop
  | int {s rest : List Char} (h : Word "Int" s rest) : DerivesType true s .int rest
  | bool {s rest : List Char} (h : Word "Bool" s rest) : DerivesType true s .bool rest
  | parens {s s₁ s₂ rest : List Char} {type : Ty} (ho : Sign "(" s s₁)
    (ht : DerivesType false s₁ type s₂) (hc : Sign ")" s₂ rest) : DerivesType true s type rest
  | atom {s rest : List Char} {type : Ty} (ht : DerivesType true s type rest) :
    DerivesType false s type rest
  | arrow {s s₁ s₂ rest : List Char} {source target : Ty} (hs : DerivesType true s source s₁)
    (ha : Sign "->" s₁ s₂) (ht : DerivesType false s₂ target rest) :
    DerivesType false s (.arrow source target) rest

/-! ## Expressions -/

/-- The kinds of phrases; an operation has a least rank for operators outside parentheses. -/
inductive Category where
  | atom
  | application
  | operation (rank : Nat)

/-- How a phrase ends: in a conditional or a function without parentheses, or otherwise. -/
inductive Ending where
  | trailing
  | closed
deriving DecidableEq

/-- An expression in a text. -/
inductive Derives : Category → Ending → List Char → Expr → List Char → Prop
  | parens {s s₁ s₂ rest : List Char} {ending : Ending} {e : Expr} (ho : Sign "(" s s₁)
    (he : Derives (.operation 0) ending s₁ e s₂) (hc : Sign ")" s₂ rest) :
    Derives .atom .closed s e rest
  | yes {s rest : List Char} (h : Word "True" s rest) :
    Derives .atom .closed s (.lit (.bool true)) rest
  | no {s rest : List Char} (h : Word "False" s rest) :
    Derives .atom .closed s (.lit (.bool false)) rest
  | number {s rest : List Char} {n : Int64} (h : Number n s rest) :
    Derives .atom .closed s (.lit (.int n)) rest
  | var {s rest : List Char} {name : String} (h : Identifier name s rest) :
    Derives .atom .closed s (.var name) rest
  | ite {s s₁ s₂ s₃ s₄ s₅ rest : List Char} {ending₁ ending₂ ending₃ : Ending}
    {condition consequent alternative : Expr} (hi : Word "if" s s₁)
    (hc : Derives (.operation 0) ending₁ s₁ condition s₂) (ht : Word "then" s₂ s₃)
    (hy : Derives (.operation 0) ending₂ s₃ consequent s₄) (he : Word "else" s₄ s₅)
    (hn : Derives (.operation 0) ending₃ s₅ alternative rest) :
    Derives .atom .trailing s (.ite condition consequent alternative) rest
  | lam {s s₁ s₂ s₃ s₄ s₅ rest : List Char} {ending : Ending} {param : String} {type : Ty}
    {body : Expr} (hl : Sign "\\" s s₁) (hp : Identifier param s₁ s₂) (hc : Sign ":" s₂ s₃)
    (ht : DerivesType false s₃ type s₄) (hd : Sign "." s₄ s₅)
    (hb : Derives (.operation 0) ending s₅ body rest) :
    Derives .atom .trailing s (.lam param type body) rest
  | single {s rest : List Char} {ending : Ending} {e : Expr} (h : Derives .atom ending s e rest) :
    Derives .application ending s e rest
  | apply {s s₁ rest : List Char} {ending : Ending} {function argument : Expr}
    (hf : Derives .application .closed s function s₁) (ha : Derives .atom ending s₁ argument rest) :
    Derives .application ending s (.app function argument) rest
  | operand {s rest : List Char} {ending : Ending} {least : Nat} {e : Expr}
    (h : Derives .application ending s e rest) : Derives (.operation least) ending s e rest
  | join {s s₁ s₂ rest : List Char} {ending : Ending} {least : Nat} {op : Op} {lhs rhs : Expr}
    (hle : least ≤ op.rank) (hl : Derives (.operation op.leftRank) .closed s lhs s₁)
    (ho : Sign op.text s₁ s₂) (hr : Derives (.operation op.rightRank) ending s₂ rhs rest) :
    Derives (.operation least) ending s (.prim op lhs rhs) rest

/-- The whole of a text, after layout at its start, is an expression. -/
def Program (s : List Char) (e : Expr) : Prop :=
  ∃ start ending, Gap s start ∧ Derives (.operation 0) ending start e []

end Derivation

end TypedLambda
