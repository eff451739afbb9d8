/-!
# Blank text

The characters that Unicode counts as white space (the property `White_Space`), and texts that hold
nothing else.
-/

set_option autoImplicit false

namespace TreeWalk.Text

/-- The ranges of white space, as pairs of a first and a last code point. -/
def blankRanges : List (Nat × Nat) :=
  [(0x9, 0xD), (0x20, 0x20), (0x85, 0x85), (0xA0, 0xA0), (0x1680, 0x1680), (0x2000, 0x200A),
   (0x2028, 0x2029), (0x202F, 0x202F), (0x205F, 0x205F), (0x3000, 0x3000)]

/-- Whether a character is white space. -/
def isBlank (c : Char) : Bool := blankRanges.any fun (lo, hi) => lo ≤ c.toNat && c.toNat ≤ hi

/-- Whether a text shows nothing. -/
def allBlank (s : String) : Bool := s.toList.all isBlank

end TreeWalk.Text
