import TypedLambda.Expr

/-!
# The text of an expression

An operand of an operator or of an application stands in parentheses unless it is a variable or a
literal. The parts of a conditional and the body of a function never do.
-/

namespace TypedLambda.Expr

/-- Whether the expression is a variable or a literal, which need no parentheses as an operand. -/
def isAtomic : Expr → Bool
  | var _ | lit _ => true
  | _ => false

/-- A text, in parentheses unless it is that of an atomic expression. -/
def enclose (atomic : Bool) (text : String) : String :=
  if atomic then text else "(" ++ text ++ ")"

/-- The text of an expression. -/
def text : Expr → String
  | var name => name
  | lit literal => literal.text
  | prim op lhs rhs =>
    enclose lhs.isAtomic lhs.text ++ " " ++ op.text ++ " " ++ enclose rhs.isAtomic rhs.text
  | ite condition consequent alternative =>
    "if " ++ condition.text ++ " then " ++ consequent.text ++ " else " ++ alternative.text
  | app function argument =>
    enclose function.isAtomic function.text ++ " " ++ enclose argument.isAtomic argument.text
  | lam param type body => "\\" ++ param ++ " : " ++ type.text ++ " . " ++ body.text

end TypedLambda.Expr
