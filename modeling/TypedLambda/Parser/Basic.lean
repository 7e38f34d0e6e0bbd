import TypedLambda.Parser.Step

/-!
# Parsers

A parser reads from a cursor and replies with a step and the cursor where it stopped. A run that
would never end has no reply: `none` stands for it, and for nothing else. This file holds the
parsers that every other one is made of: success, failure, sequence, choice and repetition.

## Termination

The repetition calls itself only on a shorter rest. A round that succeeds without shortening the
rest would be repeated for ever, from the same cursor and with the same outcome, so it has no reply.
-/

namespace TypedLambda

/-- The outcome of a parser and the cursor where it stopped. -/
structure Reply (α : Type) where
  step : Step α
  cursor : Cursor
deriving DecidableEq

namespace Reply

variable {α β : Type}

/-- The reply with its step changed. -/
def onStep (f : Step α → Step β) (r : Reply α) : Reply β := ⟨f r.step, r.cursor⟩

@[simp] theorem onStep_step (f : Step α → Step β) (r : Reply α) : (r.onStep f).step = f r.step :=
  rfl

@[simp] theorem onStep_cursor (f : Step α → Step β) (r : Reply α) :
    (r.onStep f).cursor = r.cursor := rfl

end Reply

/-- A parser: a reply for each cursor from which its run ends. -/
abbrev Parser (α : Type) : Type := Cursor → Option (Reply α)

namespace Parser

variable {α β : Type}

/-- The parser whose run never ends. -/
def never : Parser α := fun _ => none

/-- Succeeds without reading anything. -/
def succeed (value : α) : Parser α := fun c => some ⟨.good false value, c⟩

/-- Fails without reading anything. -/
def fail (problem : Problem) : Parser α := fun c => some ⟨.bad false [c.deadEnd problem], c⟩

/-- Runs a parser and then the parser chosen by its value. -/
def bind (p : Parser α) (f : α → Parser β) : Parser β := fun c =>
  match p c with
  | none => none
  | some ⟨.good progress value, next⟩ => (f value next).map (Reply.onStep (Step.after progress))
  | some ⟨.bad progress problems, stop⟩ => some ⟨.bad progress problems, stop⟩

/-- Changes the value of a parser. -/
def map (f : α → β) (p : Parser α) : Parser β := fun c =>
  (p c).map (Reply.onStep (Step.map f))

/-- The choice between no alternatives: fails with nothing to report. -/
def nothing : Parser α := fun c => some ⟨.bad false [], c⟩

/--
Tries a second parser if the first fails without progress. When both do, their dead ends are put
together and the cursor is back at the start; any other step is the answer as it stands.
-/
def orElse (p q : Parser α) : Parser α := fun c =>
  match p c with
  | some ⟨.bad false problems, _⟩ =>
    match q c with
    | some ⟨.bad false more, _⟩ => some ⟨.bad false (problems ++ more), c⟩
    | reply => reply
  | reply => reply

/-- Tries parsers in order, as `orElse` does for two. -/
def oneOf (ps : List (Parser α)) : Parser α := ps.foldr orElse nothing

/-- Reports a step as if it had consumed nothing; the cursor stays where the parser left it. -/
def backtrackable (p : Parser α) : Parser α := fun c =>
  (p c).map (Reply.onStep Step.withoutProgress)

/--
Repeats a parser until it fails. A failure without progress ends the repetition with success, at the
cursor before that round; a failure with progress is the outcome of the whole.
-/
def many (p : Parser α) (c : Cursor) : Option (Reply (List α)) :=
  match p c with
  | none => none
  | some ⟨.good progress value, next⟩ =>
    if next.rest.length < c.rest.length then
      (many p next).map (Reply.onStep fun step => (step.map (value :: ·)).after progress)
    else none
  | some ⟨.bad true problems, stop⟩ => some ⟨.bad true problems, stop⟩
  | some ⟨.bad false _, _⟩ => some ⟨.good false [], c⟩
termination_by c.rest.length

end Parser

end TypedLambda
