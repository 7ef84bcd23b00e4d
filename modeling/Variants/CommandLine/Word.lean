import Variants.CommandLine.Flag
import Variants.Text.Number

/-!
# The words of a command line

Before anything is done, every word of the command line is classified: as an option, with the value
that is attached to it, as an option that is not known, or as a plain word. A long option may be
cut short as long as one option alone can be meant. The first word `--` ends the options: all words
after it are plain.
-/

namespace Variants.CommandLine

/-! ## 1. Options as they are written -/

/-- An option as it is written, with the full name that is meant and the text that is attached to
the name, if any: what follows an equals sign, or what is joined to a short name. -/
structure OptionUse where
  flag : Flag
  name : Text
  attached : Option Text
  deriving DecidableEq, Repr

/-- Cuts a word at its first equals sign. -/
def cutEquals (word : Text) : Text × Option Text :=
  match word.dropWhile (· != '=') with
  | [] => (word, none)
  | _ :: value => (word.takeWhile (· != '='), some value)

/-- Whether a word starts with two hyphens, as long names do. -/
def isLong (word : Text) : Bool := ['-', '-'].isPrefixOf word

/-- The options that a word can mean, if its full name is not one. A word with two hyphens is the
start of a long name. A word with one is a short name with the value joined to it. -/
def candidates (word : Text) : List OptionUse :=
  if isLong word then
    let (start, attached) := cutEquals word
    Flag.named.filterMap fun (name, flag) =>
      if start.isPrefixOf name then some ⟨flag, name, attached⟩ else none
  else
    Flag.named.filterMap fun (name, flag) =>
      if name = word.take 2 then some ⟨flag, name, some (word.drop 2)⟩
      else if word.isPrefixOf name then some ⟨flag, name, none⟩
      else none

/-! ## 2. Negative numbers -/

/-- Whether a text is a row of decimal digits, which may be empty. -/
def isDecimalRow (t : Text) : Bool := t.all Text.isDecimal

/-- Whether a text is a whole number, or a decimal fraction with digits behind the point. -/
def isUnsigned (t : Text) : Bool :=
  (!t.isEmpty && isDecimalRow t) ||
    match t.dropWhile Text.isDecimal with
    | '.' :: fraction => !fraction.isEmpty && isDecimalRow fraction
    | _ => false

/-- Whether a word looks like a negative number. A line break may stand at its end. -/
def isNegativeNumber : Text → Bool
  | '-' :: t => isUnsigned t || (t.getLast? == some '\n' && isUnsigned t.dropLast)
  | _ => false

/-! ## 3. Classification -/

/-- A word of the command line. -/
inductive Word where
  | plain (text : Text)
  | dashes
  | option (written : OptionUse)
  | unknown (text : Text)
  deriving DecidableEq, Repr

/-- The option whose full name a word gives, alone or before an equals sign. -/
def namedOption? (word : Text) : Option OptionUse :=
  match Flag.ofName? word with
  | some flag => some ⟨flag, word, none⟩
  | none =>
    match cutEquals word with
    | (name, some value) => (Flag.ofName? name).map fun flag => ⟨flag, name, some value⟩
    | _ => none

/-- Classifies a word other than the one that ends the options. A word that is no known option is
still plain when it is a negative number or holds a space. -/
def classify (word : Text) : Except ArgumentError Word :=
  if word.head? != some '-' || word.length == 1 then .ok (.plain word)
  else
    match namedOption? word with
    | some written => .ok (.option written)
    | none =>
      match candidates word with
      | [] => .ok (if isNegativeNumber word || word.contains ' ' then .plain word
          else .unknown word)
      | [written] => .ok (.option written)
      | several => .error (.ambiguous word (several.map OptionUse.name))

/-- Classifies the words of a command line. -/
def classifyAll : List Text → Except ArgumentError (List Word)
  | [] => .ok []
  | word :: rest =>
    if word = ['-', '-'] then .ok (.dashes :: rest.map .plain)
    else
      match classify word with
      | .error e => .error e
      | .ok first => (classifyAll rest).map (first :: ·)

end Variants.CommandLine
