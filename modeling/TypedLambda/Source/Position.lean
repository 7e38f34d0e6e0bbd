/-!
# Positions in a source text

A position says how much of a text has been read: the number of UTF-8 bytes before it, its row and
its column. Rows and columns count from one, a column counts characters, and a line feed is the only
character that starts a row.

Rows and columns are numbers without a bound here. In a text of fewer than `2 ^ 32 - 1` characters
every row and column that a run comes to fits in 32 bits (`Grammar.runs_stay_at_places`), so that
counters of that width are exact there; about longer texts nothing is said.
-/

namespace TypedLambda

/-- A place in a source text. -/
structure Position where
  /-- Number of UTF-8 bytes before the place. -/
  offset : Nat
  row : Nat
  column : Nat
deriving DecidableEq

namespace Position

/-- The place before the first character. -/
def start : Position := ⟨0, 1, 1⟩

/-- The place after one more character. -/
def next (p : Position) (c : Char) : Position :=
  if c = '\n' then ⟨p.offset + c.utf8Size, p.row + 1, 1⟩
  else ⟨p.offset + c.utf8Size, p.row, p.column + 1⟩

/-- The place after more text. -/
def after (p : Position) (text : List Char) : Position :=
  text.foldl next p

@[simp] theorem after_nil (p : Position) : p.after [] = p := rfl

@[simp] theorem after_cons (p : Position) (c : Char) (text : List Char) :
    p.after (c :: text) = (p.next c).after text := rfl

/-- Reading two texts in a row is reading their concatenation. -/
@[simp] theorem after_append (p : Position) (s t : List Char) :
    p.after (s ++ t) = (p.after s).after t :=
  List.foldl_append

end Position

end TypedLambda
