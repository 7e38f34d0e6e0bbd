import TypedLambda.Expr

/-!
# Values and scopes

A value is a literal or a closure: a function together with the scope in which it was made. A scope
binds names to values; like a context it may bind a name more than once, and the innermost binding
counts. Binding a name gives a new scope and leaves the old one as it was.
-/

namespace TypedLambda

mutual

/-- The value of an expression. -/
inductive Value where
  | lit (literal : Literal)
  /-- A function and the scope in which it was made. -/
  | closure (param : String) (body : Expr) (scope : Scope)

/-- Names with their values. -/
inductive Scope where
  | empty
  | bind (outer : Scope) (name : String) (value : Value)

end

/-- Induction over the bindings of a scope, which does not go into the values. -/
@[induction_eliminator]
theorem Scope.inductionOn {motive : Scope → Prop} (empty : motive .empty)
    (bind : ∀ outer name value, motive outer → motive (.bind outer name value)) :
    ∀ scope, motive scope
  | .empty => empty
  | .bind outer name value => bind outer name value (inductionOn empty bind outer)

namespace Scope

/-- The value of a name. -/
def resolve : Scope → String → Option Value
  | empty, _ => none
  | bind outer name value, wanted => if name = wanted then some value else outer.resolve wanted

/-- The scope of a list of bindings, of which a later one hides an earlier one. -/
def ofList (bindings : List (String × Value)) : Scope :=
  bindings.foldl (fun scope binding => scope.bind binding.1 binding.2) empty

end Scope

/-- The kinds of values. -/
inductive Kind where
  | integer
  | boolean
  | closure
deriving DecidableEq

/-- The word for a kind. -/
def Kind.text : Kind → String
  | integer => "integer"
  | boolean => "boolean"
  | closure => "closure"

namespace Value

/-- The kind of a value. -/
def kind : Value → Kind
  | lit (.int _) => .integer
  | lit (.bool _) => .boolean
  | closure _ _ _ => .closure

/-- The text of a value; closures all look the same. -/
def text : Value → String
  | lit literal => literal.text
  | closure _ _ _ => "<<closure>>"

/-- Whether two values are the same literal; a closure equals nothing, not even itself. -/
def same : Value → Value → Bool
  | lit a, lit b => a = b
  | _, _ => false

end Value

end TypedLambda
