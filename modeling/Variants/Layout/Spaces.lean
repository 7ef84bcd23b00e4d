import Variants.Text.Basic

/-!
# Spaces at the edges of lines

In a cleaned text the only blanks outside literals are spaces, tabs of literals apart. The three
steps here bring every line to the left margin: tabs become spaces (`expandTabs`), the spaces that
open the text go (`trimStart`), and so do those beside a line break (`tighten`).
-/

namespace Variants.Layout

/-- Turns every tab into a space. -/
def expandTabs (t : Text) : Text := t.map fun c => if c = '\t' then ' ' else c

/-- Drops the spaces at the start of the text. -/
def trimStart (t : Text) : Text := t.dropWhile (· == ' ')

/-- Drops the spaces beside line breaks. `afterBreak` says that the last character kept is a line
break. In a run of spaces before a line break only the last one stands directly beside it. -/
def tightenFrom (afterBreak : Bool) : Text → Text
  | [] => []
  | c :: t =>
    if c = ' ' ∧ (afterBreak ∨ t.head? = some '\n') then tightenFrom afterBreak t
    else c :: tightenFrom (c == '\n') t

/-- Drops the spaces that follow a kept line break, and the last space before a line break. -/
def tighten (t : Text) : Text := tightenFrom false t

end Variants.Layout
