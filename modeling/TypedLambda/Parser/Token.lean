import TypedLambda.Parser.Basic

/-!
# Tokens

The parsers that look at characters: fixed texts, runs of characters of a class, names, decimal
integers and the end of the text. Each of them fails without moving the cursor.
-/

namespace TypedLambda

/-! ## Character classes -/

/-- Whether a character goes on a word: an ASCII letter, an ASCII digit or an underscore. -/
def isWordChar (c : Char) : Bool := c.isAlphanum || c == '_'

/-- Whether a character is layout: a space, a line feed or a carriage return. -/
def isLayout (c : Char) : Bool := c == ' ' || c == '\n' || c == '\r'

/-- What makes a name: its first character, its other characters, and the words that are none. -/
structure NameRules where
  start : Char → Bool
  inner : Char → Bool
  reserved : List String

/-! ## Decimal integers -/

/-- The greatest integer that a literal may denote. -/
def greatestInt : Nat := 9223372036854775807

/-- The digits of the literal at the start of a text: a lone zero, or all digits there are. -/
def literalDigits (text : List Char) : List Char :=
  match text.takeWhile Char.isDigit with
  | '0' :: _ => ['0']
  | digits => digits

/--
Whether what follows the digits spoils the literal: a fraction or an exponent, or after a zero the
mark of another base.
-/
def spoilsLiteral (digits : List Char) (next : Option Char) : Bool :=
  match next with
  | some c =>
    c == '.' || c == 'e' || c == 'E' ||
      (digits == ['0'] && (c == 'x' || c == 'o' || c == 'b'))
  | none => false

namespace Parser

/-- Reads a fixed text; `runsOn` says which next characters spoil it. -/
def token (text : String) (problem : Problem) (runsOn : Char → Bool) : Parser Unit := fun c =>
  if text.toList.isPrefixOf c.rest && !(c.rest.drop text.length).head?.any runsOn then
    some ⟨.good (!text.isEmpty) (), c.advanceBy text.length⟩
  else fail problem c

/-- Reads a piece of punctuation. -/
def symbol (text : String) : Parser Unit :=
  token text (.expectingSymbol text) fun _ => false

/-- Reads a word that must not run on into a longer one. -/
def keyword (text : String) : Parser Unit :=
  token text (.expectingKeyword text) isWordChar

/-- Reads characters as long as they are in a class. -/
def chompWhile (inClass : Char → Bool) : Parser Unit := fun c =>
  let run := c.rest.takeWhile inClass
  some ⟨.good (!run.isEmpty) (), c.advanceBy run.length⟩

/-- Succeeds only at the end of the text. -/
def endOfInput : Parser Unit := fun c =>
  if c.hasNext then fail .expectingEnd c else succeed () c

/-- Reads a name that is not reserved. -/
def name (rules : NameRules) : Parser String := fun c =>
  match c.rest with
  | first :: rest =>
    let word := first :: rest.takeWhile rules.inner
    if rules.start first && !rules.reserved.contains (String.ofList word) then
      some ⟨.good true (String.ofList word), c.advanceBy word.length⟩
    else fail .expectingVariable c
  | [] => fail .expectingVariable c

/--
Reads a decimal integer that fits in 64 bits with sign. A text that starts with a digit and is no
such literal is a failure with progress, though the cursor has not moved.
-/
def int : Parser Int64 := fun c =>
  let digits := literalDigits c.rest
  let value := Nat.ofDigitChars 10 digits 0
  if digits.isEmpty then fail .expectingInt c
  else if value ≤ greatestInt && !spoilsLiteral digits (c.rest.drop digits.length).head? then
    some ⟨.good true (Int64.ofNat value), c.advanceBy digits.length⟩
  else some ⟨.bad true [c.deadEnd .expectingInt], c⟩

end Parser

end TypedLambda
