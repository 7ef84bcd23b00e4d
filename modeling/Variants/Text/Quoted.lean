import Variants.Text.Hex
import Variants.Text.Printable

/-!
# Quoted text in messages

A message shows a text between single quotes, or between double quotes when it holds a single quote
and no double one. A backslash and the quote in use are written with a backslash before them, a tab,
a line feed and a carriage return by their letters, and any other character that is not printable by
its code point: two digits after `x`, four after `u` or eight after `U`, whichever is the shortest.
-/

namespace Variants.Text

/-- The quote to put around a text. -/
def quoteFor (t : Text) : Char := if '\'' ∈ t ∧ '"' ∉ t then '"' else '\''

/-- A character as it is written between quotes. -/
def escapeQuoted (quote c : Char) : Text :=
  if c = quote ∨ c = '\\' then ['\\', c]
  else if c = '\t' then ['\\', 't']
  else if c = '\n' then ['\\', 'n']
  else if c = '\r' then ['\\', 'r']
  else if isPrintable c then [c]
  else if c.toNat < 0x100 then ['\\', 'x'] ++ hex 2 c.toNat
  else if c.toNat < 0x10000 then ['\\', 'u'] ++ hex 4 c.toNat
  else ['\\', 'U'] ++ hex 8 c.toNat

/-- A text between quotes. -/
def quoted (t : Text) : Text :=
  let quote := quoteFor t
  quote :: t.flatMap (escapeQuoted quote) ++ [quote]

end Variants.Text
