import Variants.Text.CharRange

/-!
# Whitespace

A character is whitespace when Unicode 14.0 gives it category `Zs` or one of the bidirectional
classes `WS`, `B` and `S`. This takes in the tab, the line breaks, the four information separators
U+001C to U+001F and the no-break space.
-/

namespace Variants.Text

/-- The code points of whitespace. -/
def spaceRanges : CharRanges :=
  [(0x9, 0xD), (0x1C, 0x20), (0x85, 0x85), (0xA0, 0xA0), (0x1680, 0x1680), (0x2000, 0x200A),
   (0x2028, 0x2029), (0x202F, 0x202F), (0x205F, 0x205F), (0x3000, 0x3000)]

/-- Whether a character is whitespace. -/
def isSpace (c : Char) : Bool := spaceRanges.has c.toNat

end Variants.Text
