import Variants.Text.Hex

/-!
# JSON in ASCII

The program writes JSON with ASCII characters alone: every other character is written by its UTF-16
units. Members are parted with or without a space after the comma and the colon, which is the
`Spacing` of the output.
-/

namespace Variants.Json

/-- A UTF-16 unit as it is written in a string. -/
def unit (n : Nat) : Text := ['\\', 'u'] ++ Text.hex 4 n

/-- A character as it is written in a string. -/
def escape (c : Char) : Text :=
  if c = '"' then ['\\', '"']
  else if c = '\\' then ['\\', '\\']
  else if c = '\n' then ['\\', 'n']
  else if c = '\r' then ['\\', 'r']
  else if c = '\t' then ['\\', 't']
  else if c.toNat = 0x08 then ['\\', 'b']
  else if c.toNat = 0x0C then ['\\', 'f']
  else if 0x20 ≤ c.toNat ∧ c.toNat < 0x7F then [c]
  else if c.toNat < 0x10000 then unit c.toNat
  else
    let above := c.toNat - 0x10000
    unit (0xD800 + above / 0x400) ++ unit (0xDC00 + above % 0x400)

/-- A string. -/
def string (t : Text) : Text := ['"'] ++ t.flatMap escape ++ ['"']

/-- What parts two members, and what parts the name of a member from its value. -/
structure Spacing where
  comma : Text
  colon : Text
  deriving DecidableEq, Repr

/-- No spaces. -/
def Spacing.compact : Spacing := ⟨[','], [':']⟩

/-- A space after each comma and colon. -/
def Spacing.wide : Spacing := ⟨[',', ' '], [':', ' ']⟩

/-- An array of values that are written already. -/
def array (spacing : Spacing) (values : List Text) : Text :=
  ['['] ++ spacing.comma.intercalate values ++ [']']

/-- An object of named values that are written already. -/
def object (spacing : Spacing) (members : List (Text × Text)) : Text :=
  ['\x7b'] ++
    spacing.comma.intercalate (members.map fun m => string m.1 ++ spacing.colon ++ m.2) ++ ['\x7d']

/-- The value that stands for no value. -/
def null : Text := ['n', 'u', 'l', 'l']

end Variants.Json
