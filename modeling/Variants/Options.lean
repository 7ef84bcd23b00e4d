import Variants.Text.Numeral

/-!
# Options

What a caller asks for is an `OptionRequest`, with any job count and any name for the form of
diagnostics. `OptionRequest.check` turns it into `Options`, in which both are known to make sense,
or says what is wrong with it; a bad job count is reported before a bad name.
-/

namespace Variants

/-- The forms in which a diagnostic is shown. -/
inductive DiagnosticFormat where
  | human
  | json
  deriving DecidableEq, Repr

namespace DiagnosticFormat

/-- The name of a form. -/
def name : DiagnosticFormat → Text
  | .human => "human".toList
  | .json => "json".toList

/-- The form with a name. -/
def ofName? (name : Text) : Option DiagnosticFormat :=
  [human, json].find? fun format => format.name == name

end DiagnosticFormat

/-- Options that make sense: there is at least one job. -/
structure Options where
  jobs : Int
  expandMacros : Bool
  diagnosticFormat : DiagnosticFormat
  jobs_pos : 0 < jobs
  deriving DecidableEq, Repr

/-- Options as they are asked for. -/
structure OptionRequest where
  jobs : Int
  expandMacros : Bool
  diagnosticFormat : Text
  deriving DecidableEq, Repr

/-- What is asked for when nothing is said. -/
def OptionRequest.standard : OptionRequest := ⟨1, true, DiagnosticFormat.human.name⟩

/-- Why options are refused. -/
inductive OptionError where
  | invalidJobs (jobs : Int)
  | unknownFormat (name : Text)
  deriving DecidableEq, Repr

/-- The message of a refusal. -/
def OptionError.message : OptionError → Text
  | .invalidJobs jobs => "Invalid job count: ".toList ++ Text.ofInt jobs
  | .unknownFormat name => "Unsupported diagnostic format: ".toList ++ name

/-- The options that a request asks for. -/
def OptionRequest.check (request : OptionRequest) : Except OptionError Options :=
  if h : 0 < request.jobs then
    match DiagnosticFormat.ofName? request.diagnosticFormat with
    | some format => .ok ⟨request.jobs, request.expandMacros, format, h⟩
    | none => .error (.unknownFormat request.diagnosticFormat)
  else .error (.invalidJobs request.jobs)

/-- The options when nothing is said. -/
def Options.standard : Options := ⟨1, true, .human, by decide⟩

theorem OptionRequest.check_standard : OptionRequest.standard.check = .ok Options.standard := rfl

end Variants
