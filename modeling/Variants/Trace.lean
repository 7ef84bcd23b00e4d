import Variants.Process

/-!
# The trace of a run

Each stage of a run has something to report for whoever looks for faults: what was left open in the
source, how many lines were joined, how often a macro was used. `Event` lists what can be reported,
`Event.line` is the record of an event, and `trace` the events of processing a source in the order
of the stages.
-/

namespace Variants

/-! ## 1. Events -/

/-- Something a stage reports. -/
inductive Event where
  | unclosed (what : Source.Unclosed) (line : Nat)
  | cleaned (lines characters : Nat)
  | joined (count : Nat)
  | unfinishedDefinition
  | unnamedDefinition
  | redefined (name : Text)
  | expanded (name : Text) (count : Nat)
  | enumerated (count : Nat)
  | selecting (configurations : Nat) (workers : Int)
  deriving DecidableEq, Repr

namespace Event

/-- The name under which the stage reports. -/
def origin : Event → Text
  | .unclosed .. => "varpp.reader".toList
  | .cleaned .. => "varpp.reader".toList
  | .joined _ => "varpp.normalize".toList
  | .unfinishedDefinition => "varpp.macros".toList
  | .unnamedDefinition => "varpp.macros".toList
  | .redefined _ => "varpp.macros".toList
  | .expanded .. => "varpp.macros".toList
  | .enumerated _ => "varpp.conditionals".toList
  | .selecting .. => "varpp.preprocessor".toList

/-- What can be left open, in words. -/
def openWords : Source.Unclosed → Text
  | .comment => "block comment".toList
  | .literal quote => quote :: " literal".toList

/-- What is reported. -/
def message : Event → Text
  | .unclosed what line =>
    "unterminated ".toList ++ openWords what ++ " at end of input (line ".toList ++
      Text.ofNat line ++ [')']
  | .cleaned lines characters =>
    "read ".toList ++ Text.ofNat lines ++ " lines, ".toList ++ Text.ofNat characters ++
      " characters after cleaning".toList
  | .joined count => "joined ".toList ++ Text.ofNat count ++ " continuation lines".toList
  | .unfinishedDefinition => "dropping unterminated #define at end of input".toList
  | .unnamedDefinition => "ignoring #define without a macro name".toList
  | .redefined name => "macro ".toList ++ name ++ " is redefined; ending its expansion".toList
  | .expanded name count =>
    "macro ".toList ++ name ++ " expanded ".toList ++ Text.ofNat count ++ " time(s)".toList
  | .enumerated count => "found ".toList ++ Text.ofNat count ++ " configuration(s)".toList
  | .selecting configurations workers =>
    "selecting ".toList ++ Text.ofNat configurations ++ " configurations with ".toList ++
      Text.ofInt workers ++ " workers".toList

/-- The record of an event. -/
def line (event : Event) : Text :=
  "DEBUG:".toList ++ event.origin ++ [':', ' '] ++ event.message ++ ['\n']

end Event

/-! ## 2. The events of each stage -/

/-- The events of reading a source. -/
def readEvents (source : Text) : List Event :=
  let reader := Source.Reader.ofText source
  let (cleaned, finished) := reader.read
  (Source.unclosed reader.rest).toList.map (.unclosed · finished.line) ++
    [.cleaned finished.line cleaned.length]

/-- The events of joining the continued lines of a text. -/
def joinEvents (t : Text) : List Event :=
  let count := Layout.continuations t
  if count = 0 then [] else [.joined count]

/-- The events of taking out a definition. -/
def definitionEvents (definition : Macro.Definition) : List Event :=
  match definition.outcome with
  | .unnamed => [.unnamedDefinition]
  | .unused => []
  | .expanded name count redefined =>
    (if redefined then [.redefined name] else []) ++ [.expanded name count]

/-- The events of expanding the macros of a text. -/
def expansionEvents (expansion : Macro.Expansion) : List Event :=
  expansion.definitions.flatMap definitionEvents ++
    if expansion.unfinished.isSome then [.unfinishedDefinition] else []

/-- The events of processing a source. -/
def trace (options : Options) (source : Text) : List Event :=
  readEvents source ++ joinEvents (Layout.trimmed (Source.read source)) ++
    expansionEvents (Macro.expand options.expandMacros (prepare source)) ++
    [.enumerated (process options source).configurations.length]

/-- The events of selecting some configurations. Workers matter only for more than one. -/
def selectionEvents (options : Options) (keys : List Text) : List Event :=
  if options.jobs ≤ 1 ∨ keys.length ≤ 1 then [] else [.selecting keys.length options.jobs]

end Variants
