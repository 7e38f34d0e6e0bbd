import TypedLambda.Parser.Basic

/-!
# Levels of binary operators

A level reads operands joined by binary operators of one precedence. Each operator is associative to
the left, to the right, or not at all. A chain that mixes associativities, or that uses an operator
without one twice, is refused at the operator that makes it ambiguous.

## Termination

A chain goes on only from a shorter rest. A turn that reads an operator and an operand without
shortening the rest would be taken again for ever, so it has no reply.
-/

namespace TypedLambda

/-- How a chain of equal operators groups. -/
inductive Associativity where
  | non
  | left
  | right
deriving DecidableEq

namespace Associativity

/-- The word for an associativity. -/
def word : Associativity → String
  | non => "non"
  | left => "left"
  | right => "right"

/-- The problem of an operator that makes a chain ambiguous. -/
def ambiguous (a : Associativity) : Problem :=
  .custom ("ambiguous use of a " ++ a.word ++ " associative operator")

end Associativity

/-- A level: how to read its operands, and its operators for each associativity. -/
structure Level (α : Type) where
  term : Parser α
  /-- Reads an operator of the associativity and yields the node that it builds. -/
  operator : Associativity → Parser (α → α → α)

namespace Level

variable {α : Type}

/-- Whether an operator of the associativity starts here; nothing is read. -/
def sees (l : Level α) (a : Associativity) (c : Cursor) : Option Bool :=
  (l.operator a c).map fun reply => reply.step.isGood

/-- The first of some associativities of which an operator starts here. -/
def firstSeen (l : Level α) : List Associativity → Cursor → Option (Option Associativity)
  | [], _ => some none
  | a :: others, c =>
    match l.sees a c with
    | none => none
    | some true => some (some a)
    | some false => l.firstSeen others c

/-- Ends a chain with a value, unless an operator of one of the associativities follows. -/
def close (l : Level α) (refused : List Associativity) (value : α) : Parser α := fun c =>
  match l.firstSeen refused c with
  | none => none
  | some none => Parser.succeed value c
  | some (some a) => some ⟨.bad true [c.deadEnd a.ambiguous], c⟩

/-- Reads one operator and one operand, after which nothing of the level may follow. -/
def single (l : Level α) (lhs : α) : Parser α :=
  (l.operator .non).bind fun combine => l.term.bind fun rhs =>
    l.close [.right, .left, .non] (combine lhs rhs)

/-- Reads operators and operands as long as there are any and groups them to the left. -/
def chainLeft (l : Level α) (lhs : α) (c : Cursor) : Option (Reply α) :=
  match l.operator .left c with
  | none => none
  | some ⟨.good progress combine, afterOperator⟩ =>
    (l.term.bind fun rhs next =>
      if next.rest.length < c.rest.length then l.chainLeft (combine lhs rhs) next
      else none) afterOperator |>.map (Reply.onStep (Step.after progress))
  | some ⟨.bad true problems, stop⟩ => some ⟨.bad true problems, stop⟩
  | some ⟨.bad false _, _⟩ => l.close [.right, .non] lhs c
termination_by c.rest.length

/-- Reads operators and operands as long as there are any and groups them to the right. -/
def chainRight (l : Level α) (lhs : α) (c : Cursor) : Option (Reply α) :=
  ((l.operator .right).bind fun combine => l.term.bind fun operand =>
    Parser.map (combine lhs) fun next =>
      match l.sees .right next with
      | none => none
      | some true =>
        if next.rest.length < c.rest.length then l.chainRight operand next else none
      | some false => l.close [.left, .non] operand next) c
termination_by c.rest.length

/-- What follows an operand of a chain to the right that started at a cursor. -/
def rightTail (l : Level α) (start : Cursor) (operand : α) : Parser α := fun c =>
  match l.sees .right c with
  | none => none
  | some true => if c.rest.length < start.rest.length then l.chainRight operand c else none
  | some false => l.close [.left, .non] operand c

/-- A chain to the right is an operator, an operand and the rest, which is the right operand. -/
theorem chainRight_eq (l : Level α) (lhs : α) (c : Cursor) :
    l.chainRight lhs c = ((l.operator .right).bind fun combine =>
      l.term.bind fun operand => (l.rightTail c operand).map (combine lhs)) c := by
  rw [chainRight]
  rfl

/-- Reads an operand and the chain that follows it. -/
def parse (l : Level α) : Parser α :=
  l.term.bind fun first c =>
    match l.firstSeen [.right, .left, .non] c with
    | none => none
    | some none => Parser.succeed first c
    | some (some .right) => l.chainRight first c
    | some (some .left) => l.chainLeft first c
    | some (some .non) => l.single first c

end Level

end TypedLambda
