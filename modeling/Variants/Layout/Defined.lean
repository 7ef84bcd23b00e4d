import Variants.Text.Basic
import Variants.Text.Number

/-!
# Tests of one symbol

The line `#if defined(NAME)` asks the same as `#ifdef NAME` and is brought to that form. One space
may stand inside either parenthesis and none elsewhere, and the name starts with an ASCII letter or
an underscore.
-/

namespace Variants.Layout

/-- The text before the name. -/
def definedOpening : Text :=
  ['#', 'i', 'f', ' ', 'd', 'e', 'f', 'i', 'n', 'e', 'd', '(']

/-- The text before the name in the short form. -/
def ifdefOpening : Text := ['#', 'i', 'f', 'd', 'e', 'f', ' ']

/-- Whether a character can start the name: an ASCII letter or an underscore. -/
def startsDefined (c : Char) : Bool :=
  ('A' ≤ c && c ≤ 'Z') || ('a' ≤ c && c ≤ 'z') || c == '_'

/-- The text without one space at its start. -/
def dropSpace : Text → Text
  | [] => []
  | c :: t => if c = ' ' then t else c :: t

/-- The name whose definition a line asks for. -/
def definedName? (line : Text) : Option Text :=
  match definedOpening.isPrefixOf? line with
  | none => none
  | some operand =>
    let inner := dropSpace operand
    if inner.head?.any startsDefined ∧ dropSpace (inner.dropWhile Text.isWordChar) = [')'] then
      some (inner.takeWhile Text.isWordChar)
    else none

/-- The line in its short form, if it has one. -/
def shortenLine (line : Text) : Text :=
  match definedName? line with
  | some name => ifdefOpening ++ name
  | none => line

/-- The text with every test of one symbol in its short form. -/
def shortenTests (t : Text) : Text :=
  ['\n'].intercalate ((t.splitOn '\n').map shortenLine)

end Variants.Layout
