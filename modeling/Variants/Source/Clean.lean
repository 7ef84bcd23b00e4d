import Variants.Source.Segment
import Variants.Text.Space

/-!
# Cleaning source text

The cleaner takes the comments out of source text and makes its blanks uniform, and keeps the
number of every line:

* a line comment becomes a line break, a block comment its line breaks, a literal stays as it is
  (`clean`);
* a blank other than a line break becomes a space, or nothing where it would open the text or
  follow a space, `#` or `/`;
* the line breaks of all systems are read as one character first (`unifyBreaks`).

A `Reader` is a source with the part still unread and the number of the line it has come to.
-/

namespace Variants.Source

/-! ## 1. Line breaks -/

/-- Reads a carriage return, alone or before a line feed, as a line feed. -/
def unifyBreaks : Text → Text
  | [] => []
  | c :: t =>
    if c = '\r' then
      if t.head? = some '\n' then unifyBreaks t else '\n' :: unifyBreaks t
    else c :: unifyBreaks t

/-! ## 2. Cleaning -/

/-- Whether a character is blank: whitespace or an ASCII control character. -/
def isBlank (c : Char) : Bool := Text.isSpace c || c.toNat < 0x20 || c.toNat == 0x7F

/-- The cleaned text of some segments. `skip` says that a blank is dropped here: so it is at the
start of the text and after a blank, `#` or `/`. -/
def cleanSegments (skip : Bool) : List Segment → Text
  | [] => []
  | .lineComment _ :: rest => '\n' :: cleanSegments true rest
  | .blockComment written _ :: rest => Text.blank (Text.breaks written) ++ cleanSegments true rest
  | .literal written _ :: rest => written ++ cleanSegments false rest
  | .char c :: rest =>
    if c = '\n' then '\n' :: cleanSegments false rest
    else if isBlank c then
      if skip then cleanSegments true rest else ' ' :: cleanSegments true rest
    else c :: cleanSegments (c == '#' || c == '/') rest

/-- The cleaned form of a text whose line breaks are line feeds. -/
def clean (t : Text) : Text := cleanSegments true (segments t)

/-! ## 3. Reading -/

/-- A source that is being read: what is left of it, and the number of the current line. -/
structure Reader where
  rest : Text
  line : Nat
  deriving DecidableEq, Repr

/-- A source from its beginning, at line one. -/
def Reader.ofText (source : Text) : Reader := ⟨unifyBreaks source, 1⟩

/-- Reads all that is left and cleans it. The reader then stands on the last line. -/
def Reader.read (r : Reader) : Text × Reader :=
  (clean r.rest, ⟨[], r.line + Text.breaks r.rest⟩)

/-- The cleaned form of a source. -/
def read (source : Text) : Text := (Reader.ofText source).read.1

/-- What is left open at the end of a source. -/
inductive Unclosed where
  | comment
  | literal (quote : Char)
  deriving DecidableEq, Repr

/-- The comment or literal that the last segment leaves open. -/
def unclosed (t : Text) : Option Unclosed :=
  match (segments t).getLast? with
  | some (.blockComment _ false) => some .comment
  | some (.literal written false) => written.head?.map .literal
  | _ => none

end Variants.Source
