import TypedLambda.Value

/-!
# Evaluation

An expression is evaluated in a scope: operands and arguments before the operator or the function,
and both branches of a conditional before its condition picks one. Sums and products wrap around at
64 bits. An expression that was not checked may fail, or may be evaluated for ever.

## Termination

Evaluation enters the bodies of closures, so it is not bounded by the expression. It is by recursion
on a depth instead: how deep evaluations may be nested. Without enough depth there is no outcome.
-/

namespace TypedLambda

/-- Why an evaluation fails. -/
inductive RuntimeError where
  | undefined (name : String)
  | operand (op : Op) (expected found : Kind)
  | incomparable (left right : Kind)
  | condition (found : Kind)
  | notFunction (found : Literal)
deriving DecidableEq

/-- The wording of a failure. -/
def RuntimeError.message : RuntimeError → String
  | undefined name => "undefined variable: " ++ name
  | operand op expected found =>
    "operator `" ++ op.text ++ "` expects " ++ expected.text ++ " operands, found " ++ found.text
  | incomparable left right => "cannot compare " ++ left.text ++ " with " ++ right.text
  | condition found => "if condition must be a boolean, found " ++ found.text
  | notFunction found => "cannot call non-function value: " ++ found.text

/-! ## Operators -/

namespace Op

/-- Applies a function of integers; the first operand that is none is reported. -/
def onInts (op : Op) (f : Int64 → Int64 → Literal) : Value → Value → Except RuntimeError Value
  | .lit (.int a), .lit (.int b) => .ok (.lit (f a b))
  | .lit (.int _), right => .error (.operand op .integer right.kind)
  | left, _ => .error (.operand op .integer left.kind)

/-- Applies a function of booleans; the first operand that is none is reported. -/
def onBools (op : Op) (f : Bool → Bool → Bool) : Value → Value → Except RuntimeError Value
  | .lit (.bool a), .lit (.bool b) => .ok (.lit (.bool (f a b)))
  | .lit (.bool _), right => .error (.operand op .boolean right.kind)
  | left, _ => .error (.operand op .boolean left.kind)

/-- Compares two integers or two booleans. -/
def compare : Value → Value → Except RuntimeError Value
  | .lit (.int a), .lit (.int b) => .ok (.lit (.bool (a = b)))
  | .lit (.bool a), .lit (.bool b) => .ok (.lit (.bool (a = b)))
  | left, right => .error (.incomparable left.kind right.kind)

/-- The value of an operator applied to two values. -/
def apply : Op → Value → Value → Except RuntimeError Value
  | add => onInts add fun a b => .int (a + b)
  | mul => onInts mul fun a b => .int (a * b)
  | and => onBools and fun a b => a && b
  | or => onBools or fun a b => a || b
  | less => onInts less fun a b => .bool (a < b)
  | greater => onInts greater fun a b => .bool (b < a)
  | equal => compare

/-- What an operator answers: a literal, or a failure that is not about a variable. -/
inductive Answer : Except RuntimeError Value → Prop
  | literal (literal : Literal) : Answer (.ok (.lit literal))
  | failure {error : RuntimeError} (h : ∀ name, error ≠ .undefined name) : Answer (.error error)

theorem answer_onInts (op : Op) (f : Int64 → Int64 → Literal) (left right : Value) :
    Answer (onInts op f left right) := by
  unfold onInts
  split
  · exact .literal _
  · exact .failure nofun
  · exact .failure nofun

theorem answer_onBools (op : Op) (f : Bool → Bool → Bool) (left right : Value) :
    Answer (onBools op f left right) := by
  unfold onBools
  split
  · exact .literal _
  · exact .failure nofun
  · exact .failure nofun

theorem answer_compare (left right : Value) : Answer (compare left right) := by
  unfold compare
  split
  · exact .literal _
  · exact .literal _
  · exact .failure nofun

/-- An operator gives a literal or a failure of its own, never a closure or an unbound name. -/
theorem answer_apply (op : Op) (left right : Value) : Answer (op.apply left right) := by
  cases op with
  | equal => exact answer_compare left right
  | and | or => exact answer_onBools _ _ left right
  | add | mul | less | greater => exact answer_onInts _ _ left right

end Op

/-! ## Expressions -/

/-- The outcome of an evaluation: a value, a failure, or neither for lack of depth. -/
abbrev Outcome : Type := Option (Except RuntimeError Value)

/-- Goes on with the value of an outcome. -/
def Outcome.andThen (o : Outcome) (f : Value → Outcome) : Outcome :=
  match o with
  | none => none
  | some (.error e) => some (.error e)
  | some (.ok v) => f v

/-- The outcome of the branch that a condition picks, when both have one. -/
def Value.pick (condition : Value) (consequent alternative : Outcome) : Outcome :=
  match consequent, alternative with
  | some yes, some no =>
    match condition with
    | .lit (.bool true) => some yes
    | .lit (.bool false) => some no
    | other => some (.error (.condition other.kind))
  | _, _ => none

/-- The outcome of an expression in a scope when evaluations may be nested to a depth. -/
def Expr.eval : (depth : Nat) → Scope → Expr → Outcome
  | 0, _, _ => none
  | _ + 1, scope, var name =>
    match scope.resolve name with
    | some value => some (.ok value)
    | none => some (.error (.undefined name))
  | _ + 1, _, lit literal => some (.ok (.lit literal))
  | depth + 1, scope, prim op lhs rhs =>
    (Expr.eval depth scope lhs).andThen fun left =>
      (Expr.eval depth scope rhs).andThen fun right => some (op.apply left right)
  | depth + 1, scope, ite condition consequent alternative =>
    (Expr.eval depth scope condition).andThen fun test =>
      test.pick (Expr.eval depth scope consequent) (Expr.eval depth scope alternative)
  | depth + 1, scope, app function argument =>
    (Expr.eval depth scope function).andThen fun callee =>
      (Expr.eval depth scope argument).andThen fun value =>
        match callee with
        | .closure param body outer => Expr.eval depth (outer.bind param value) body
        | .lit literal => some (.error (.notFunction literal))
  | _ + 1, scope, lam param _ body => some (.ok (.closure param body scope))

/-- The depth at which the evaluation of an expression that was not checked is given up. -/
def Expr.depthLimit : Nat := 1000000

end TypedLambda
