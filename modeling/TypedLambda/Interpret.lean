import TypedLambda.Evaluation.Normalization
import TypedLambda.Expr.Parse

/-!
# Interpreting a line

A text is read as an expression, checked and evaluated. The first stage that fails gives the error,
and the outcome is shown in one line: a value with its type, or the message of the error.

The interpreter is total: reading and checking always end, and a checked expression has an outcome.
-/

namespace TypedLambda

/-- The failure of a stage. -/
inductive Error where
  | parse (error : ParseError)
  | type (error : TypeError)
  | runtime (error : RuntimeError)
deriving DecidableEq

/-- The message of the stage that failed. -/
def Error.message : Error → String
  | parse error => error.message
  | type error => error.message
  | runtime error => error.message

/-- The value and the type of an expression given as a text. -/
def interpret (source : String) : Except Error (Value × Ty) :=
  match Expr.parse source with
  | .error error => .error (.parse error)
  | .ok e =>
    match h : e.check .empty with
    | .error error => .error (.type error)
    | .ok type =>
      match e.evaluate .empty (Expr.returns_of_check h) with
      | .error error => .error (.runtime error)
      | .ok value => .ok (value, type)

/-- The line that shows a value and its type. -/
def resultLine (value : Value) (type : Ty) : String := value.text ++ " : " ++ type.text

/-- The line that shows the outcome of a text. -/
def run (source : String) : String :=
  match interpret source with
  | .ok (value, type) => resultLine value type
  | .error error => error.message

end TypedLambda
