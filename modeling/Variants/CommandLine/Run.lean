import Variants.CommandLine.Arguments
import Variants.CommandLine.Input
import Variants.CommandLine.Usage
import Variants.Diagnostic
import Variants.Trace

/-!
# A run of the program

A run goes from the words of the command line to an exit status and the two outputs. Its steps can
end it early, in this order: the command line is refused or asks for help, the job count is refused,
the input cannot be read, a key is not well formed. A run that passes all four succeeds, whatever
the source holds. Two things leave a run without an outcome (`Breakdown`): a path with a null
character, and an option without the value that the run asks for.

The first two steps see the command line alone: they make the `plan` of the run, which says which
input to read, if the run goes on at all.

What goes to the error output is kept as a list of `Report`s, so that it can be told what was
reported; `Report.text` is how each is written.
-/

namespace Variants.CommandLine

/-! ## 1. Outcomes -/

/-- Something written to the error output. -/
inductive Report where
  | usage (error : ArgumentError)
  | options (error : OptionError)
  | unreadable (fault : ReadFault)
  | diagnostic (format : DiagnosticFormat) (found : Diagnostic)
  | event (noted : Event)
  deriving DecidableEq, Repr

/-- A report as it is written. -/
def Report.text : Report → Text
  | .usage error =>
    CommandLine.usage ++ "varpp: error: ".toList ++ error.message ++ ['\n']
  | .options error => "varpp: error: ".toList ++ error.message ++ ['\n']
  | .unreadable fault => "varpp: I/O error: ".toList ++ fault.message ++ ['\n']
  | .diagnostic format found => found.shown format ++ ['\n']
  | .event noted => noted.line

/-- How a run ends: its exit status and what it writes. -/
structure Outcome where
  exit : Nat
  stdout : Text
  reports : List Report
  deriving DecidableEq, Repr

/-- The text of the error output. -/
def Outcome.stderr (o : Outcome) : Text := o.reports.flatMap Report.text

/-- A run that ends with a report. -/
def Outcome.failed (exit : Nat) (report : Report) : Outcome := ⟨exit, [], [report]⟩

/-- Why a run breaks off without an outcome: no file can be asked for by a path that holds the null
character, and nothing can be done with an option that was left without its value. -/
inductive Breakdown where
  | nullInPath
  | noValue (flag : Flag)
  deriving DecidableEq, Repr

/-- The message of a run that breaks off. -/
def Breakdown.message : Breakdown → Text
  | .nullInPath => "embedded null byte".toList
  | .noValue flag => "no value for ".toList ++ flag.label

/-! ## 2. Output -/

/-- A configuration key as it is shown. -/
def labelOf (key : Text) : Text := if key = [] then "<baseline>".toList else key

/-- The list of configurations. -/
def listing (format : OutputFormat) (configurations : List Text) : Text :=
  match format with
  | .text => configurations.flatMap fun key => labelOf key ++ ['\n']
  | .json => Json.array .wide (configurations.map Json.string) ++ ['\n']

/-- The code of some configurations. -/
def listingOfCode (format : OutputFormat) (filename : Text) (codes : List (Text × Text)) : Text :=
  match format with
  | .text =>
    codes.flatMap fun (key, code) =>
      "// configuration: ".toList ++ labelOf key ++ ['\n'] ++ code
  | .json =>
    Json.object .wide
      [("filename".toList, Json.string filename),
       ("configurations".toList,
        Json.object .wide (codes.map fun (key, code) => (key, Json.string code)))] ++ ['\n']

/-! ## 3. A run -/

/-- The keys that are asked for. -/
def Settings.keys (s : Settings) : List Text := s.configs.filterMap id

/-- Whether code is printed, and not the processed text or the list of configurations. -/
def Settings.printsCode (s : Settings) : Bool := !s.dumpProcessed && !s.listConfigs

/-- The keys to select: those asked for, or all configurations when none is. -/
def wantedKeys (settings : Settings) (p : Processed) : List Text :=
  if settings.keys = [] then p.configurations else settings.keys

/-- What a run prints whose input is processed. -/
def output (settings : Settings) (filename : Text) (p : Processed) : Text :=
  if settings.dumpProcessed then p.text
  else if settings.listConfigs then listing settings.format p.configurations
  else listingOfCode settings.format filename (p.codes (wantedKeys settings p))

/-- The events of a run whose input is processed. -/
def eventsOf (settings : Settings) (options : Options) (source : Text) : List Event :=
  let p := process options source
  trace options source ++
    if settings.printsCode then selectionEvents options (wantedKeys settings p) else []

/-- A run on a source that was read. A key left without its value matters only when code is
printed. -/
def runOnSource (settings : Settings) (options : Options) (filename source : Text) :
    Except Breakdown Outcome :=
  match Configuration.checkKeys filename settings.keys with
  | .error found => .ok (.failed 1 (.diagnostic options.diagnosticFormat found))
  | .ok _ =>
    if settings.printsCode && settings.configs.contains none then .error (.noValue .config)
    else
      .ok ⟨0, output settings filename (process options source),
        if settings.logLevel = some .debug then
          (eventsOf settings options source).map .event
        else []⟩

/-- What keeps some settings from giving options: one of them has no value, or they make no
sense. -/
inductive SettingsFault where
  | noValue (flag : Flag)
  | refused (error : OptionError)
  deriving DecidableEq, Repr

/-- The options that some settings ask for. Nothing can be reported before the threshold is known,
and the job count is checked before the form of diagnostics. -/
def Settings.options (s : Settings) : Except SettingsFault Options :=
  match s.logLevel, s.jobs with
  | none, _ => .error (.noValue .logLevel)
  | some _, none => .error (.noValue .jobs)
  | some _, some jobs =>
    let format := s.diagnosticFormat.getD .human
    match OptionRequest.check ⟨jobs, s.expandMacros, format.name⟩ with
    | .error e => .error (.refused e)
    | .ok options =>
      if s.diagnosticFormat = none then .error (.noValue .diagnosticFormat) else .ok options

/-- What the command line alone decides: the run is over, or it goes on with an input. -/
inductive Plan where
  | over (outcome : Except Breakdown Outcome)
  | reading (settings : Settings) (options : Options) (input : Input)

/-- The plan for arguments that were understood. -/
def planFor (arguments : Arguments) : Plan :=
  match arguments.settings.options with
  | .error (.noValue flag) => .over (.error (.noValue flag))
  | .error (.refused e) => .over (.ok (.failed 2 (.options e)))
  | .ok options =>
    let input := Input.ofText arguments.input
    if input.hasNull then .over (.error .nullInPath)
    else .reading arguments.settings options input

/-- The plan that a command line makes. -/
def plan (words : List Text) : Plan :=
  match parseArguments words with
  | .error .help => .over (.ok ⟨0, help, []⟩)
  | .error (.refused e) => .over (.ok (.failed 2 (.usage e)))
  | .ok arguments => planFor arguments

/-- A run on an input that gave a source or could not be read. -/
def runOnInput (settings : Settings) (options : Options) (input : Input)
    (source : Except ReadFault Text) : Except Breakdown Outcome :=
  match source with
  | .error fault => .ok (.failed 1 (.unreadable fault))
  | .ok source => runOnSource settings options input.name source

/-- A run of the program, where `read` gives the source of an input. -/
def run (words : List Text) (read : Input → Except ReadFault Text) : Except Breakdown Outcome :=
  match plan words with
  | .over outcome => outcome
  | .reading settings options input => runOnInput settings options input (read input)

end Variants.CommandLine
