import Variants.Text.Basic

/-!
# Continued lines

A line that ends in a backslash goes on in the next line. Joining drops the backslash, puts a space
in its place unless a space stands there already, and opens an empty line after the joined one for
every line that was taken into it, so that later lines keep their numbers.

The last line of a text needs a rule of its own: when a line is joined with it, the line break that
is opened after the two stands at the end of the text, and a backslash before it is then a
continuation as well.
-/

namespace Variants.Layout

/-! ## 1. One line -/

/-- Whether a line ends in a backslash. -/
def isContinued (line : Text) : Bool := line.getLast? == some '\\'

/-- Replaces the backslash at the end of a line by a space. None is put after a space, nor at the
very start of the text (`first` says that the line is the first one). -/
def dropBackslash (first : Bool) (line : Text) : Text :=
  let kept := line.dropLast
  if kept.getLast? = some ' ' ∨ (first = true ∧ kept = []) then kept else kept ++ [' ']

/-! ## 2. All lines -/

/-- Puts a continued line in front of the joined lines after it. -/
def joinInto (line : Text) : List Text → List Text
  | [] => [line]
  | next :: later => (line ++ next) :: [] :: later

/-- A continued line joined with the last line of the text, whose own backslash goes as well. -/
def joinLast (first : Bool) (line last : Text) : Text :=
  let joined := dropBackslash first line ++ last
  if isContinued last then dropBackslash first joined else joined

/-- Joins the continued lines. `first` says that the text starts here. A backslash at the end of the
last line stays unless a line is joined with it. -/
def joinLines (first : Bool) : List Text → List Text
  | [] => []
  | line :: rest =>
    if isContinued line then
      match rest with
      | [] => [line]
      | [last] => [joinLast first line last, []]
      | next :: after :: later =>
        joinInto (dropBackslash first line) (joinLines false (next :: after :: later))
    else line :: joinLines false rest

/-- The text with its continued lines joined. -/
def joinContinuations (t : Text) : Text :=
  ['\n'].intercalate (joinLines true (t.splitOn '\n'))

/-! ## 3. Counting -/

/-- The number of backslashes that joining drops. -/
def joinCount : List Text → Nat
  | [] => 0
  | line :: rest =>
    if isContinued line then
      match rest with
      | [] => 0
      | [last] => if isContinued last then 2 else 1
      | next :: after :: later => joinCount (next :: after :: later) + 1
    else joinCount rest

/-- The number of continuations in a text. -/
def continuations (t : Text) : Nat := joinCount (t.splitOn '\n')

end Variants.Layout
