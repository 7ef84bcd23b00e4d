import Variants.Configuration.Key
import Variants.Options
import Variants.Text.Json
import Variants.Text.Quoted

/-!
# Diagnostics

A diagnostic says which stage found fault with which file, and why. It is shown in one line for
people, or as a JSON object.
-/

namespace Variants

/-- A fault found in a file. -/
structure Diagnostic where
  stage : Text
  filename : Text
  message : Text
  code : Option Text
  deriving DecidableEq, Repr

namespace Diagnostic

/-- The line that shows a diagnostic to people. -/
def line (d : Diagnostic) : Text := d.filename ++ [':', ' '] ++ d.stage ++ [':', ' '] ++ d.message

/-- The fields of a diagnostic in the order in which they are shown. -/
def fields (d : Diagnostic) : List (Text × Option Text) :=
  [("stage".toList, some d.stage), ("filename".toList, some d.filename), ("code".toList, d.code),
   ("message".toList, some d.message)]

/-- The JSON object that shows a diagnostic. -/
def json (d : Diagnostic) : Text :=
  Json.object .compact (d.fields.map fun f => (f.1, (f.2.map Json.string).getD Json.null))

/-- A diagnostic in one of its forms. -/
def shown (format : DiagnosticFormat) (d : Diagnostic) : Text :=
  match format with
  | .human => d.line
  | .json => d.json

end Diagnostic

namespace Configuration

/-- The diagnostic of a key that is not well formed. -/
def invalidKey (filename key : Text) : Diagnostic :=
  ⟨"config".toList, filename, "Invalid configuration key: ".toList ++ Text.quoted key,
    some "VARPP-CFG-0101".toList⟩

/-- Accepts a well-formed key as it is. -/
def checkKey (filename key : Text) : Except Diagnostic Text :=
  if isValid key then .ok key else .error (invalidKey filename key)

/-- Accepts some keys, or names the first that is not well formed. -/
def checkKeys (filename : Text) : List Text → Except Diagnostic (List Text)
  | [] => .ok []
  | key :: rest =>
    match checkKey filename key with
    | .error d => .error d
    | .ok key => (checkKeys filename rest).map (key :: ·)

end Configuration

end Variants
