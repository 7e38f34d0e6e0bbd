import TypedLambda.Source.Cursor

/-!
# Walks through a source text

A walk is a cursor that moves forward through one text and remembers the places it has marked, so
that it can go back to each of them. The first mark is the start of the text.
-/

namespace TypedLambda

/-- One movement of a walk. -/
inductive Walk.Move where
  | advance
  | advanceBy (count : Nat)
  | mark
  /-- Go back to a marked place, numbered in the order of marking. -/
  | restore (mark : Nat)
deriving DecidableEq

/-- A cursor and the places marked so far, in the order of marking. -/
structure Walk where
  cursor : Cursor
  marks : List Cursor
deriving DecidableEq

namespace Walk

/-- The walk that has not moved yet; its start is marked. -/
def start (source : String) : Walk := ⟨.start source, [.start source]⟩

/-- The walk after one movement; going back to a mark that was never made does nothing. -/
def move (w : Walk) : Move → Walk
  | .advance => { w with cursor := w.cursor.advance }
  | .advanceBy count => { w with cursor := w.cursor.advanceBy count }
  | .mark => { w with marks := w.marks ++ [w.cursor] }
  | .restore mark => { w with cursor := (w.marks[mark]?).getD w.cursor }

/-- The walk after a list of movements. -/
def run (w : Walk) (moves : List Move) : Walk := moves.foldl move w

end Walk

end TypedLambda
