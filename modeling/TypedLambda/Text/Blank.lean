/-!
# Blank texts

The characters with the Unicode property `White_Space`, and the texts made of them alone.
-/

namespace TypedLambda

/-- The ranges of code points of white space, ends included. -/
def blankRanges : List (Nat × Nat) :=
  [(0x09, 0x0D), (0x20, 0x20), (0x85, 0x85), (0xA0, 0xA0), (0x1680, 0x1680), (0x2000, 0x200A),
    (0x2028, 0x2029), (0x202F, 0x202F), (0x205F, 0x205F), (0x3000, 0x3000)]

/-- Whether a character is white space. -/
def isBlankChar (c : Char) : Bool :=
  blankRanges.any fun (first, last) => first ≤ c.toNat && c.toNat ≤ last

/-- Whether a text has nothing but white space. -/
def isBlank (text : String) : Bool := text.toList.all isBlankChar

end TypedLambda
