import Variants.Condition
import Variants.Text.Space

/-!
# Configuration keys

A configuration key lists the symbols that hold, with a semicolon between two of them; the empty key
lists none and names the baseline. This file holds the key's segments, the test of a condition
against them, the key of a path of conditions, and the check that a key is well formed.
-/

namespace Variants.Configuration

/-- The symbols that a key lists. -/
def segments (key : Text) : List Text := if key = [] then [] else key.splitOn ';'

/-- The key that lists some symbols. -/
def join (symbols : List Text) : Text := [';'].intercalate symbols

/-- Whether a condition holds when some symbols do. -/
def holds (symbols : List Text) : Condition → Bool
  | .symbol name => symbols.contains name
  | .always => true
  | .never => false

/-- Whether a condition holds in the configuration of a key. -/
def selects (key : Text) (condition : Condition) : Bool := holds (segments key) condition

/-- The key of the code under some conditions, the outermost first: their symbols, or none when a
condition never holds. -/
def keyOfPath (path : List Condition) : Option Text :=
  if Condition.never ∈ path then none else some (join (path.filterMap Condition.name?))

/-- Whether a segment is well formed: not empty and without whitespace. -/
def isSymbol (segment : Text) : Bool := !segment.isEmpty && !segment.any Text.isSpace

/-- Whether all segments of a key are well formed. -/
def isValid (key : Text) : Bool := (segments key).all isSymbol

end Variants.Configuration
