import TypedLambda.Source.Position

/-!
# Cursors

A cursor is a position together with the text that is still to be read. Moving a cursor gives a new
cursor and leaves the old one as it was, so going back to a place is using the cursor taken there.
-/

namespace TypedLambda

/-- A position and the text from there on. -/
structure Cursor where
  position : Position
  rest : List Char
deriving DecidableEq

namespace Cursor

/-- The cursor before the first character of a text. -/
def start (source : String) : Cursor := ⟨.start, source.toList⟩

/-- The next character, if there is one. -/
def peek (c : Cursor) : Option Char := c.rest.head?

/-- Whether a character is left. -/
def hasNext (c : Cursor) : Bool := !c.rest.isEmpty

/-- The cursor after the next character; at the end of the text it stays. -/
def advance (c : Cursor) : Cursor :=
  match c.rest with
  | [] => c
  | a :: rest => ⟨c.position.next a, rest⟩

/-- The cursor `count` characters further on, or at the end of the text if that comes first. -/
def advanceBy (c : Cursor) (count : Nat) : Cursor :=
  ⟨c.position.after (c.rest.take count), c.rest.drop count⟩

/-- Moving by several characters is moving by one character as often. -/
theorem advanceBy_succ (c : Cursor) (count : Nat) :
    c.advanceBy (count + 1) = c.advance.advanceBy count := by
  obtain ⟨position, rest⟩ := c
  cases rest <;> simp [advanceBy, advance]

@[simp] theorem advanceBy_zero (c : Cursor) : c.advanceBy 0 = c := by
  simp [advanceBy]

theorem advanceBy_rest_length (c : Cursor) (count : Nat) :
    (c.advanceBy count).rest.length = c.rest.length - count := by
  simp [advanceBy]

end Cursor

end TypedLambda
