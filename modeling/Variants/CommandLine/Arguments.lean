import Variants.CommandLine.Word
import Variants.Text.Numeral

/-!
# The arguments of a run

The classified words are gone through from first to last. An option takes the value attached to it
or else the plain word after it; the first plain word that no option takes is the input; what is
left over is refused at the end. The first fault on the way ends the reading, and so does the
request for help.

Two hyphens that are attached to an option are no value. Such an option is accepted without one,
and what it should have set is missing from the settings.
-/

namespace Variants.CommandLine

/-- The arguments of a run, apart from the input. What an option without its value has set is
`none`. -/
structure Settings where
  configs : List (Option Text)
  jobs : Option Int
  expandMacros : Bool
  listConfigs : Bool
  dumpProcessed : Bool
  format : OutputFormat
  diagnosticFormat : Option DiagnosticFormat
  logLevel : Option LogLevel
  deriving DecidableEq, Repr

/-- The settings when no option is given. -/
def Settings.standard : Settings :=
  ⟨[], some 1, true, false, false, .text, some .human, some .warning⟩

/-- The arguments of a run. -/
structure Arguments where
  input : Text
  settings : Settings
  deriving DecidableEq, Repr

/-- Why the reading of a command line ends before a run. -/
inductive Interruption where
  | help
  | refused (error : ArgumentError)
  deriving DecidableEq, Repr

/-! ## 1. One option -/

/-- The number that a value of an option gives. -/
def number (flag : Flag) (value : Text) : Except Interruption Int :=
  match Text.toInt? value with
  | some n => .ok n
  | none => .error (.refused (.invalidInteger flag value))

/-- The choice that a value of an option names. -/
def choose {α : Type} (flag : Flag) (all : List α) (name : α → Text) (value : Text) :
    Except Interruption α :=
  match all.find? fun choice => name choice == value with
  | some choice => .ok choice
  | none => .error (.refused (.invalidChoice flag value))

/-- What a value stands for, if there is one. -/
def ifGiven {α : Type} (read : Text → Except Interruption α) :
    Option Text → Except Interruption (Option α)
  | none => .ok none
  | some value => (read value).map some

/-- The settings after an option with its value. Without a value the form is the standard one. -/
def Settings.apply (s : Settings) (flag : Flag) (value : Option Text) :
    Except Interruption Settings :=
  match flag with
  | .help => .error .help
  | .config => .ok { s with configs := s.configs ++ [value] }
  | .jobs => (ifGiven (number flag) value).map fun jobs => { s with jobs }
  | .noMacros => .ok { s with expandMacros := false }
  | .listConfigs => .ok { s with listConfigs := true }
  | .dumpProcessed => .ok { s with dumpProcessed := true }
  | .format =>
    (ifGiven (choose flag OutputFormat.all OutputFormat.name) value).map fun format =>
      { s with format := format.getD Settings.standard.format }
  | .diagnosticFormat =>
    (ifGiven (choose flag diagnosticFormats DiagnosticFormat.name) value).map
      fun diagnosticFormat => { s with diagnosticFormat }
  | .logLevel =>
    (ifGiven (choose flag LogLevel.all LogLevel.name) value).map fun logLevel =>
      { s with logLevel }

/-- The settings after some options with their values. -/
def Settings.applyAll (s : Settings) : List (Flag × Option Text) → Except Interruption Settings
  | [] => .ok s
  | (flag, value) :: rest =>
    match s.apply flag value with
    | .error e => .error e
    | .ok next => next.applyAll rest

/-! ## 2. One word with options -/

/-- What a word with options asks for: options with their values, and an option whose value is the
next word. -/
structure Request where
  options : List (Flag × Option Text)
  awaiting : Option Flag
  deriving DecidableEq, Repr

/-- The value that an attached text is. -/
def attachedValue (text : Text) : Option Text := if text = ['-', '-'] then none else some text

/-- Puts an option that takes no value in front. -/
def Request.after (flag : Flag) (request : Request) : Request :=
  { request with options := (flag, none) :: request.options }

/-- What an option asks for that has nothing attached. -/
def requestAlone (flag : Flag) : Request :=
  if flag.takesValue then ⟨[], some flag⟩ else ⟨[(flag, none)], none⟩

/-- What a long option asks for to which some text is attached: the text is its value. -/
def requestLong (flag : Flag) (text : Text) : Except ArgumentError Request :=
  if flag.takesValue then .ok ⟨[(flag, attachedValue text)], none⟩
  else .error (.ignoredValue flag text)

/-- What a short option asks for to which some text is attached: the text is its value or, if it
takes none, a row of further short options. An equals sign in front of the text makes no
difference. -/
def requestShort (flag : Flag) : Text → Except ArgumentError Request
  | [] => requestLong flag []
  | c :: t =>
    if flag.takesValue then .ok ⟨[(flag, attachedValue (c :: t))], none⟩
    else
      match Flag.ofName? ['-', c] with
      | none => .error (.ignoredValue flag (c :: t))
      | some next =>
        if t = [] then .ok ((requestAlone next).after flag)
        else (requestShort next t).map (Request.after flag)

/-- What an option asks for as it is written. -/
def OptionUse.request (written : OptionUse) : Except ArgumentError Request :=
  match written.attached with
  | none => .ok (requestAlone written.flag)
  | some text =>
    if isLong written.name then requestLong written.flag text else requestShort written.flag text

/-! ## 3. All words -/

/-- How far the reading has come: the input, if it was met, the settings, and the words that are
left over. -/
structure Progress where
  input : Option Text
  settings : Settings
  leftover : List Text
  deriving DecidableEq, Repr

/-- Adds a word that is left over. -/
def Progress.leave (p : Progress) (word : Text) : Progress :=
  { p with leftover := p.leftover ++ [word] }

/-- Carries out some options. -/
def Progress.apply (p : Progress) (options : List (Flag × Option Text)) : Except Interruption Progress :=
  (p.settings.applyAll options).map fun settings => { p with settings }

/-- The words after the input: a word that ends the options belongs to it. -/
def skipDashes : List Word → List Word
  | .dashes :: later => later
  | words => words

/-- Takes a plain word: as the input if there is none yet. -/
def Progress.take (p : Progress) (text : Text) : Progress :=
  match p.input with
  | none => { p with input := some text }
  | some _ => p.leave text

/-- Carries out an option with the words after it, from which it may take its value. The answer is
how far the reading has come and the words that are left to read. -/
def Progress.carryOut (p : Progress) (written : OptionUse) (rest : List Word) :
    Except Interruption (Progress × List Word) :=
  match written.request with
  | .error e => .error (.refused e)
  | .ok request =>
    match request.awaiting with
    | none => (p.apply request.options).map (·, rest)
    | some flag =>
      match rest with
      | .plain value :: later =>
        (p.apply (request.options ++ [(flag, some value)])).map (·, later)
      | _ => .error (.refused (.expectedValue flag))

/-- What a mapped computation answers is the image of what the computation answers. -/
theorem exists_of_map_ok {ε α β : Type} {f : α → β} {x : Except ε α} {b : β}
    (h : x.map f = .ok b) : ∃ a, x = .ok a ∧ f a = b := by
  cases x with
  | error e => cases h
  | ok a =>
    cases h
    exact ⟨a, rfl, rfl⟩

/-- Carrying out an option never adds words to read. -/
theorem Progress.carryOut_length {p next : Progress} {written : OptionUse}
    {rest later : List Word} (h : p.carryOut written rest = .ok (next, later)) :
    later.length ≤ rest.length := by
  unfold carryOut at h
  split at h
  · cases h
  · split at h
    · obtain ⟨q, _, hq⟩ := exists_of_map_ok h
      cases hq
      exact Nat.le_refl _
    · split at h
      · obtain ⟨q, _, hq⟩ := exists_of_map_ok h
        cases hq
        exact Nat.le_succ _
      · cases h

/-- Nor does passing over the word that ends the options. -/
theorem length_skipDashes (words : List Word) : (skipDashes words).length ≤ words.length := by
  unfold skipDashes
  split <;> simp

/-- Reads the words of a command line. -/
def Progress.read (p : Progress) : List Word → Except Interruption Progress
  | [] => .ok p
  | .plain text :: rest =>
    (p.take text).read (if p.input.isNone then skipDashes rest else rest)
  | .dashes :: .plain text :: rest =>
    if p.input.isNone then (p.take text).read rest
    else ((p.leave ['-', '-']).leave text).read rest
  | .dashes :: rest => (p.leave ['-', '-']).read rest
  | .unknown text :: rest => (p.leave text).read rest
  | .option written :: rest =>
    match _hstep : p.carryOut written rest with
    | .error e => .error e
    | .ok (next, later) => next.read later
termination_by words => words.length
decreasing_by
  · have := length_skipDashes rest
    simp only [List.length_cons]
    split <;> omega
  · simp only [List.length_cons]; omega
  · simp only [List.length_cons]; omega
  · simp only [List.length_cons]; omega
  · simp only [List.length_cons]; omega
  · have := carryOut_length _hstep
    simp only [List.length_cons]; omega

/-- The arguments that a command line gives. -/
def parseArguments (words : List Text) : Except Interruption Arguments :=
  match classifyAll words with
  | .error e => .error (.refused e)
  | .ok classified =>
    match Progress.read ⟨none, .standard, []⟩ classified with
    | .error e => .error e
    | .ok p =>
      match p.input, p.leftover with
      | none, _ => .error (.refused .missingInput)
      | some input, [] => .ok ⟨input, p.settings⟩
      | some _, leftover => .error (.refused (.unrecognized leftover))

end Variants.CommandLine
