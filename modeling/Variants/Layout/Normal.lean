import Variants.Layout.Spaces
import Variants.Layout.Continuation
import Variants.Layout.Defined

/-!
# The layout in which directives are recognised

`normalize` brings cleaned text to the layout that the later steps read: no tabs, no spaces beside
line breaks, no continued lines, and tests of one symbol in their short form. Each step works on the
result of the one before, and a join may put a space at the end of a line again.
-/

namespace Variants.Layout

/-- The text with spaces only where they part two things on one line. -/
def trimmed (t : Text) : Text := tighten (trimStart (expandTabs t))

/-- The layout in which directives are recognised. -/
def normalize (t : Text) : Text := shortenTests (joinContinuations (trimmed t))

end Variants.Layout
