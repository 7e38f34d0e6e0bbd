import TypedLambda.Parser.Rule

/-!
# Grammars of named rules

A grammar given by a list of named rules that all yield values of one type. A name that has no rule
reads nothing and fails.

A name that is met again inside itself at the same place leads back to itself for ever. So in a run
that ends at most as many names are nested at one place as there are rules, apart from a name that
has no rule, which has nothing inside. `Named.depth` is therefore deep enough for every such run.
-/

namespace TypedLambda

/-- The name of a rule with values in `β`. -/
inductive Named (β : Type) : Type → Type where
  | named (name : String) : Named β β

namespace Named

variable {β : Type}

/-- The grammar of a list of named rules. -/
def grammar (rules : List (String × Rule (Named β) β)) : Grammar (Named β) where
  rule
    | named name => (rules.lookup name).getD .nothing

/-- How deep names can be nested in a run over a text that ends. -/
def depth (rules : List (String × Rule (Named β) β)) (source : String) : Nat :=
  (source.length + 1) * rules.length + 1

end Named

end TypedLambda
