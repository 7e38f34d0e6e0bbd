/-!
# Types

The types of the language are integers, booleans and functions. The arrow groups to the right, so
its text needs parentheses only round an arrow on the left.
-/

namespace TypedLambda

/-- A type of the language. -/
inductive Ty where
  | int
  | bool
  | arrow (source target : Ty)
deriving DecidableEq

namespace Ty

/-- Whether the type is a type of functions. -/
def isArrow : Ty → Bool
  | arrow _ _ => true
  | _ => false

/-- The text of a type, with the fewest parentheses. -/
def text : Ty → String
  | int => "Int"
  | bool => "Bool"
  | arrow source target =>
    (if source.isArrow then "(" ++ source.text ++ ")" else source.text) ++ " -> " ++ target.text

end Ty

end TypedLambda
