import TypedLambda.Parser.Problem

/-!
# Steps

The outcome of a parser is a good step with a value or a bad step with dead ends. Either says
whether input was consumed: only a failure without progress lets another alternative be tried.
-/

namespace TypedLambda

/-- The outcome of a parser: a value, or the dead ends that were met. -/
inductive Step (α : Type) where
  | good (progress : Bool) (value : α)
  | bad (progress : Bool) (problems : List DeadEnd)
deriving DecidableEq

namespace Step

variable {α β : Type}

/-- Whether the step consumed input. -/
def progress : Step α → Bool
  | good progress _ => progress
  | bad progress _ => progress

/-- Whether the step is a success. -/
def isGood : Step α → Bool
  | good _ _ => true
  | bad _ _ => false

/-- The step with its value changed. -/
def map (f : α → β) : Step α → Step β
  | good progress value => good progress (f value)
  | bad progress problems => bad progress problems

/-- The step as part of a run that had made progress before it, or not. -/
def after (earlier : Bool) : Step α → Step α
  | good progress value => good (earlier || progress) value
  | bad progress problems => bad (earlier || progress) problems

/-- The step as if it had consumed nothing. -/
def withoutProgress : Step α → Step α
  | good _ value => good false value
  | bad _ problems => bad false problems

/-- The value of a good step, the dead ends of a bad one. -/
def toExcept : Step α → Except ParseError α
  | good _ value => .ok value
  | bad _ problems => .error ⟨problems⟩

@[simp] theorem isGood_map (f : α → β) (s : Step α) : (s.map f).isGood = s.isGood := by
  cases s <;> rfl

@[simp] theorem isGood_after (earlier : Bool) (s : Step α) :
    (s.after earlier).isGood = s.isGood := by
  cases s <;> rfl

@[simp] theorem isGood_withoutProgress (s : Step α) :
    s.withoutProgress.isGood = s.isGood := by
  cases s <;> rfl

end Step

end TypedLambda
