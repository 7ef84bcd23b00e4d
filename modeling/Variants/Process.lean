import Variants.Configuration.Enumerate
import Variants.Configuration.Select
import Variants.Layout.Normal
import Variants.Macro.Expand
import Variants.Options
import Variants.Source.Clean

/-!
# From source to variants

Processing a source cleans it, brings it to the layout in which directives are recognised, expands
its macros and lists its configurations. The code of a configuration is then selected from the
processed text.
-/

namespace Variants

/-- A processed source: its text, ready for selection, and its configurations. -/
structure Processed where
  text : Text
  configurations : List Text
  deriving DecidableEq, Repr

/-- The text of a source up to the expansion of its macros. -/
def prepare (source : Text) : Text := Layout.normalize (Source.read source)

/-- Processes a source. -/
def process (options : Options) (source : Text) : Processed :=
  let text := (Macro.expand options.expandMacros (prepare source)).text
  ⟨text, Configuration.enumerate text⟩

namespace Processed

/-- The code of one configuration. -/
def code (p : Processed) (key : Text) : Text := Configuration.select p.text key

/-- The code of some configurations, each once. -/
def codes (p : Processed) (keys : List Text) : List (Text × Text) :=
  Configuration.selectAll p.text keys

/-- The variants of the source: each of its configurations with its code. -/
def variants (p : Processed) : List (Text × Text) := p.codes p.configurations

end Processed

end Variants
