import Variants.Configuration.Key
import Variants.Directive

/-!
# The code of one configuration

Selecting a configuration keeps the lines that are live in it and empties all others, so that every
line keeps its number. A line is live when each section around it is in a branch that was chosen:
the first branch of the section whose test holds, or its `#else` when none does. Conditional
directive lines are emptied in any case.
-/

namespace Variants.Configuration

/-! ## 1. Sections -/

/-- An open section: whether its current branch is chosen, and whether its last test came out
true, so that no later branch of it is. -/
structure Section where
  active : Bool
  taken : Bool
  deriving DecidableEq, Repr

/-- The test of an opening directive. -/
def opens (symbols : List Text) (form : Opening) (condition : Condition) : Bool :=
  if form = .ifndef then !holds symbols condition else holds symbols condition

/-- The open sections after a directive, the innermost first, when some symbols hold. A directive
without a section to act on changes nothing. -/
def advance (symbols : List Text) (sections : List Section) : Directive → List Section
  | .opening form condition =>
    let test := opens symbols form condition
    ⟨test, test⟩ :: sections
  | .elif condition =>
    match sections with
    | [] => []
    | s :: outer =>
      if s.taken then ⟨false, true⟩ :: outer
      else ⟨holds symbols condition, holds symbols condition⟩ :: outer
  | .otherwise =>
    match sections with
    | [] => []
    | s :: outer => ⟨!s.taken, s.taken⟩ :: outer
  | .endif => sections.tail
  | .define => sections

/-! ## 2. Lines -/

/-- The openings of lines that are never kept. -/
def conditionalOpenings : List Text :=
  [['#', 'i', 'f'], ['#', 'e', 'l'], ['#', 'e', 'n', 'd', 'i', 'f']]

/-- Whether a line starts like a conditional directive. -/
def looksConditional (line : Text) : Bool := conditionalOpenings.any (·.isPrefixOf line)

/-- The sections after a line. -/
def advanceLine (symbols : List Text) (sections : List Section) (line : Text) : List Section :=
  match Directive.ofLine? line with
  | some directive => advance symbols sections directive
  | none => sections

/-- A line as it is selected: itself if it is live and no conditional directive, or else empty. -/
def selectLine (sections : List Section) (line : Text) : Text :=
  if sections.all Section.active && !looksConditional line then line else []

/-- The selected lines of a text, from some open sections on. -/
def selectLines (symbols : List Text) (sections : List Section) : List Text → List Text
  | [] => []
  | line :: rest =>
    let next := advanceLine symbols sections line
    selectLine next line :: selectLines symbols next rest

/-- The code of one configuration. Every line ends with a line break. -/
def select (t key : Text) : Text :=
  (selectLines (segments key) [] (Text.lines t)).flatMap fun line => line ++ ['\n']

/-- The code of some configurations, each once, in the order of their first mention. -/
def selectAll (t : Text) (keys : List Text) : List (Text × Text) :=
  keys.eraseDups.map fun key => (key, select t key)

end Variants.Configuration
