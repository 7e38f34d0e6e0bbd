import TypedLambda.Source.Cursor

/-!
# Problems and dead ends

A parser that fails reports problems: what it expected. A problem together with the row and column
where it arose is a dead end, and a failed parse is a list of dead ends, one line of text each.
-/

namespace TypedLambda

/-- What a parser expected and did not find. -/
inductive Problem where
  | expecting (text : String)
  | expectingInt
  | expectingHex
  | expectingOctal
  | expectingBinary
  | expectingFloat
  | expectingNumber
  | expectingVariable
  | expectingSymbol (text : String)
  | expectingKeyword (text : String)
  | expectingEnd
  | unexpectedChar
  | custom (message : String)
  | badRepeat
deriving DecidableEq

/-- The wording of a problem. -/
def Problem.message : Problem → String
  | .expecting text => "I expected the following string: `" ++ text ++ "`"
  | .expectingInt => "I expected an integer"
  | .expectingHex => "I expected an hexadecimal string"
  | .expectingOctal => "I expected an octal string"
  | .expectingBinary => "I expected a binary string"
  | .expectingFloat => "I expected a float"
  | .expectingNumber => "I expected a number"
  | .expectingVariable => "I expected a variable name"
  | .expectingSymbol text => "I expected the following symbol: `" ++ text ++ "`"
  | .expectingKeyword text => "I expected the following keyword: `" ++ text ++ "`"
  | .expectingEnd => "I reached an unexpected end of input"
  | .unexpectedChar => "I reached an unexpected character"
  | .custom message => "I encountered the following problem: " ++ message
  | .badRepeat => "This is a bad repeat"

/-- A problem and the place where it arose. -/
structure DeadEnd where
  row : Nat
  column : Nat
  problem : Problem
deriving DecidableEq

/-- The line of text for a dead end. -/
def DeadEnd.message (d : DeadEnd) : String :=
  d.problem.message ++ " (" ++ d.row.repr ++ ":" ++ d.column.repr ++ ")."

/-- The dead end of a problem at the cursor's place. -/
def Cursor.deadEnd (c : Cursor) (problem : Problem) : DeadEnd :=
  ⟨c.position.row, c.position.column, problem⟩

/-- A failed parse: its dead ends, in the order in which the alternatives were tried. -/
structure ParseError where
  deadEnds : List DeadEnd
deriving DecidableEq

/-- The text of a failed parse, a line for each dead end. -/
def ParseError.message (e : ParseError) : String :=
  "\n".intercalate (e.deadEnds.map DeadEnd.message)

end TypedLambda
