import TypedLambda.Expr
import TypedLambda.Typing.Context

/-!
# The type checker

The checker computes the type of an expression in a context, or the first error that it meets. Parts
are checked from left to right and before the rule of the whole; only the condition of a conditional
is compared with its required type before the branches are looked at.
-/

namespace TypedLambda

/-- Why an expression has no type. -/
inductive TypeError where
  | mismatch (expected actual : Ty)
  | notFunction (type : Ty)
  | notInScope (name : String)
  | notComparable (type : Ty)
deriving DecidableEq

/-- The wording of a type error. -/
def TypeError.message : TypeError → String
  | mismatch expected actual =>
    "Couldn't match expected type '" ++ expected.text ++ "' with actual type: '" ++ actual.text ++ "'"
  | notFunction type => "Tried to apply to non function type: '" ++ type.text ++ "'"
  | notInScope name => "Variable not in scope: " ++ name
  | notComparable type => "Cannot compare values of function type: '" ++ type.text ++ "'"

namespace Op

/-- The type of both operands and the type of the result; equality has no fixed one. -/
def signature : Op → Option (Ty × Ty)
  | add | mul => some (.int, .int)
  | and | or => some (.bool, .bool)
  | less | greater => some (.int, .bool)
  | equal => none

/-- The type of an operator applied to operands of given types. -/
def check (op : Op) (lhs rhs : Ty) : Except TypeError Ty :=
  match op.signature with
  | some (operand, result) =>
    if lhs ≠ operand then .error (.mismatch operand lhs)
    else if rhs ≠ operand then .error (.mismatch operand rhs)
    else .ok result
  | none =>
    if lhs ≠ rhs then .error (.mismatch lhs rhs)
    else if lhs.isArrow then .error (.notComparable lhs)
    else .ok .bool

end Op

/-- The type of a function applied to an argument of a given type. -/
def Ty.checkApplied (function argument : Ty) : Except TypeError Ty :=
  match function with
  | .arrow source target =>
    if source ≠ argument then .error (.mismatch source argument) else .ok target
  | other => .error (.notFunction other)

/-- The type of an expression in a context, or the first error. -/
def Expr.check : Context → Expr → Except TypeError Ty
  | Γ, var name =>
    match Γ.lookup name with
    | some type => .ok type
    | none => .error (.notInScope name)
  | _, lit literal => .ok literal.type
  | Γ, prim op lhs rhs => do
    let left ← lhs.check Γ
    let right ← rhs.check Γ
    op.check left right
  | Γ, ite condition consequent alternative => do
    let test ← condition.check Γ
    if test ≠ .bool then .error (.mismatch .bool test)
    else
      let yes ← consequent.check Γ
      let no ← alternative.check Γ
      if yes ≠ no then .error (.mismatch yes no) else .ok yes
  | Γ, app function argument => do
    let left ← function.check Γ
    let right ← argument.check Γ
    left.checkApplied right
  | Γ, lam param type body => do
    let target ← body.check (Γ.extend param type)
    return .arrow type target

end TypedLambda
