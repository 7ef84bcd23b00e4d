import Variants.Options
import Variants.Text.Quoted

/-!
# The options of the command line

Every option has one or two names and takes a value or none. Some values are one of a few choices.
This file is the table of them, in the order in which messages list them.
-/

namespace Variants.CommandLine

/-- The options of the command line. -/
inductive Flag where
  | help
  | config
  | jobs
  | noMacros
  | listConfigs
  | dumpProcessed
  | format
  | diagnosticFormat
  | logLevel
  deriving DecidableEq, Repr

/-- The forms in which variants are printed. -/
inductive OutputFormat where
  | text
  | json
  deriving DecidableEq, Repr

/-- How much is reported. Only the lowest threshold lets any event through. -/
inductive LogLevel where
  | debug
  | info
  | warning
  | error
  deriving DecidableEq, Repr

/-- The name of a form. -/
def OutputFormat.name : OutputFormat → Text
  | .text => "text".toList
  | .json => "json".toList

/-- The name of a threshold. -/
def LogLevel.name : LogLevel → Text
  | .debug => "DEBUG".toList
  | .info => "INFO".toList
  | .warning => "WARNING".toList
  | .error => "ERROR".toList

/-- The forms in which variants are printed, in the order in which they are listed. -/
def OutputFormat.all : List OutputFormat := [.text, .json]

/-- The thresholds, in the order in which they are listed. -/
def LogLevel.all : List LogLevel := [.debug, .info, .warning, .error]

/-- The forms of diagnostics, in the order in which they are listed. -/
def diagnosticFormats : List DiagnosticFormat := [.human, .json]

namespace Flag

/-- All options. -/
def all : List Flag :=
  [.help, .config, .jobs, .noMacros, .listConfigs, .dumpProcessed, .format, .diagnosticFormat,
   .logLevel]

/-- The names of an option, a short one first. -/
def names : Flag → List Text
  | .help => ["-h".toList, "--help".toList]
  | .config => ["-c".toList, "--config".toList]
  | .jobs => ["-j".toList, "--jobs".toList]
  | .noMacros => ["--no-macros".toList]
  | .listConfigs => ["--list-configs".toList]
  | .dumpProcessed => ["--dump-processed".toList]
  | .format => ["--format".toList]
  | .diagnosticFormat => ["--diag-format".toList]
  | .logLevel => ["--log-level".toList]

/-- Whether an option takes a value. -/
def takesValue : Flag → Bool
  | .help => false
  | .config => true
  | .jobs => true
  | .noMacros => false
  | .listConfigs => false
  | .dumpProcessed => false
  | .format => true
  | .diagnosticFormat => true
  | .logLevel => true

/-- The values among which an option chooses. -/
def choices : Flag → List Text
  | .format => OutputFormat.all.map OutputFormat.name
  | .diagnosticFormat => diagnosticFormats.map DiagnosticFormat.name
  | .logLevel => LogLevel.all.map LogLevel.name
  | _ => []

/-- An option as messages name it. -/
def label (flag : Flag) : Text := ['/'].intercalate flag.names

/-- Every name with its option. -/
def named : List (Text × Flag) := all.flatMap fun flag => flag.names.map fun name => (name, flag)

/-- The option with a name. -/
def ofName? (name : Text) : Option Flag := named.lookup name

end Flag

/-! ## What is wrong with a command line -/

/-- Why a command line is refused. -/
inductive ArgumentError where
  | ambiguous (written : Text) (names : List Text)
  | expectedValue (flag : Flag)
  | ignoredValue (flag : Flag) (value : Text)
  | invalidInteger (flag : Flag) (value : Text)
  | invalidChoice (flag : Flag) (value : Text)
  | missingInput
  | unrecognized (words : List Text)
  deriving DecidableEq, Repr

/-- The message of a refusal. -/
def ArgumentError.message : ArgumentError → Text
  | .ambiguous written names =>
    "ambiguous option: ".toList ++ written ++ " could match ".toList ++
      [',', ' '].intercalate names
  | .expectedValue flag => "argument ".toList ++ flag.label ++ ": expected one argument".toList
  | .ignoredValue flag value =>
    "argument ".toList ++ flag.label ++ ": ignored explicit argument ".toList ++ Text.quoted value
  | .invalidInteger flag value =>
    "argument ".toList ++ flag.label ++ ": invalid int value: ".toList ++ Text.quoted value
  | .invalidChoice flag value =>
    "argument ".toList ++ flag.label ++ ": invalid choice: ".toList ++ Text.quoted value ++
      " (choose from ".toList ++ [',', ' '].intercalate (flag.choices.map Text.quoted) ++ [')']
  | .missingInput => "the following arguments are required: input".toList
  | .unrecognized words => "unrecognized arguments: ".toList ++ [' '].intercalate words

end Variants.CommandLine
