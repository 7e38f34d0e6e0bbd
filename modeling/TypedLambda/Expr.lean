import TypedLambda.Ty

/-!
# Expressions

The expressions of the language: variables, literals, seven binary operators, conditionals,
applications and functions with a typed parameter. Integers have 64 bits with sign.
-/

namespace TypedLambda

/-- A binary operator. -/
inductive Op where
  | add
  | mul
  | and
  | or
  | less
  | greater
  | equal
deriving DecidableEq

namespace Op

/-- All operators. -/
def all : List Op := [add, mul, and, or, less, greater, equal]

/-- The spelling of an operator. -/
def text : Op → String
  | add => "+"
  | mul => "*"
  | and => "&&"
  | or => "||"
  | less => "<"
  | greater => ">"
  | equal => "=="

end Op

/-- A literal. -/
inductive Literal where
  | int (value : Int64)
  | bool (value : Bool)
deriving DecidableEq

namespace Literal

/-- The text of a literal. -/
def text : Literal → String
  | int value => value.toInt.repr
  | bool true => "True"
  | bool false => "False"

/-- The type of a literal. -/
def type : Literal → Ty
  | int _ => .int
  | bool _ => .bool

end Literal

/-- An expression. -/
inductive Expr where
  | var (name : String)
  | lit (literal : Literal)
  | prim (op : Op) (lhs rhs : Expr)
  | ite (condition consequent alternative : Expr)
  | app (function argument : Expr)
  | lam (param : String) (type : Ty) (body : Expr)
deriving DecidableEq

end TypedLambda
