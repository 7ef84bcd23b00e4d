import Variants.Text.Basic

/-!
# Paths

A path is a root and a row of names. Empty names and single points between slashes mean nothing and
are dropped; a double point is kept. A path starts at the root when its text starts with a slash,
and exactly two slashes at the start are a root of their own.
-/

namespace Variants.CommandLine

/-- A path. The root is empty for a path that starts in the working directory. -/
structure Path where
  root : Text
  names : List Text
  deriving DecidableEq, Repr

namespace Path

/-- The root of the path that a text gives. -/
def rootOf (t : Text) : Text :=
  match (t.takeWhile (· == '/')).length with
  | 0 => []
  | 2 => ['/', '/']
  | _ => ['/']

/-- The path that a text gives. -/
def ofText (t : Text) : Path :=
  ⟨rootOf t, (t.splitOn '/').filter fun name => !name.isEmpty && name != ['.']⟩

/-- The text of a path. -/
def text (p : Path) : Text :=
  let written := p.root ++ ['/'].intercalate p.names
  if written = [] then ['.'] else written

end Path

end Variants.CommandLine
