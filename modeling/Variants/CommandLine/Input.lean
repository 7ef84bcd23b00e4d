import Variants.CommandLine.Path
import Variants.Text.Quoted
import Variants.Text.Utf8

/-!
# The input of a run

The input is a file or the standard input, which a single hyphen stands for. `Files` is a directory
with files of known content, in which a path is resolved as an operating system does it: name by
name, each in a directory. Nothing is known outside that directory, so no file is found there.
-/

namespace Variants.CommandLine

/-! ## 1. Inputs and their faults -/

/-- What to read. -/
inductive Input where
  | standard
  | file (path : Path)
  deriving DecidableEq, Repr

/-- The input that an argument gives. -/
def Input.ofText (argument : Text) : Input :=
  if argument = ['-'] then .standard else .file (.ofText argument)

/-- An input as output names it. -/
def Input.name : Input → Text
  | .standard => "<stdin>".toList
  | .file path => path.text

/-- Whether the path of an input holds the null character. -/
def Input.hasNull : Input → Bool
  | .standard => false
  | .file path => path.text.contains '\x00'

/-- Why a file cannot be read. -/
inductive FileFault where
  | missing
  | isDirectory
  | notDirectory
  | nameTooLong
  | denied
  deriving DecidableEq, Repr

/-- Why an input cannot be read. -/
inductive ReadFault where
  | file (fault : FileFault) (path : Path)
  | encoding (fault : Utf8.Fault)
  deriving DecidableEq, Repr

/-- The number and the words of a fault. -/
def FileFault.text : FileFault → Text
  | .missing => "[Errno 2] No such file or directory".toList
  | .isDirectory => "[Errno 21] Is a directory".toList
  | .notDirectory => "[Errno 20] Not a directory".toList
  | .nameTooLong => "[Errno 36] File name too long".toList
  | .denied => "[Errno 13] Permission denied".toList

/-- The message of a fault. -/
def ReadFault.message : ReadFault → Text
  | .file fault path => fault.text ++ [':', ' '] ++ Text.quoted path.text
  | .encoding fault => fault.message

/-- The text of the bytes that an input gave. -/
def decodeInput (bytes : Except ReadFault (List UInt8)) : Except ReadFault Text :=
  match bytes with
  | .error fault => .error fault
  | .ok bytes => (Utf8.decode bytes).mapError .encoding

/-! ## 2. A directory -/

/-- A working directory: the paths of its files, as rows of names, with their bytes. -/
abbrev Files := List (List Text × List UInt8)

/-- The number of bytes that encode a text. -/
def byteLength (t : Text) : Nat := t.foldl (fun n c => n + c.utf8Size) 0

/-- The number of bytes that a name may have. -/
def nameLimit : Nat := 255

/-- The number of bytes that a path may have. -/
def pathLimit : Nat := 4095

namespace Files

/-- Whether a row of names leads to a directory: a file lies below it. -/
def isDirectory (files : Files) (names : List Text) : Bool :=
  names.isEmpty || files.any fun entry => names.isPrefixOf entry.1 && names != entry.1

/-- Follows some names from a place on. The place is a row of names in the working directory, or
`none` for a directory outside it. -/
def follow (files : Files) (place : Option (List Text)) :
    List Text → Except FileFault (List UInt8)
  | [] =>
    match place.bind fun names => files.lookup names with
    | some bytes => .ok bytes
    | none => .error .isDirectory
  | name :: rest =>
    match place with
    | none =>
      if name = ['.', '.'] then follow files none rest
      else .error (if nameLimit < byteLength name then .nameTooLong else .missing)
    | some here =>
      if (files.lookup here).isSome then .error .notDirectory
      else if name = ['.', '.'] then
        follow files (if here = [] then none else some here.dropLast) rest
      else if nameLimit < byteLength name then .error .nameTooLong
      else
        let there := here ++ [name]
        if (files.lookup there).isSome || isDirectory files there then
          follow files (some there) rest
        else .error .missing

/-- The bytes of the file at a path. -/
def bytesAt (files : Files) (path : Path) : Except FileFault (List UInt8) :=
  if pathLimit < byteLength path.text then .error .nameTooLong
  else follow files (if path.root = [] then some [] else none) path.names

/-- The text of an input, where `stdin` is the text of the standard input. -/
def read (files : Files) (stdin : Text) : Input → Except ReadFault Text
  | .standard => .ok stdin
  | .file path => decodeInput ((files.bytesAt path).mapError fun fault => .file fault path)

/-- A directory with some files, whose paths are written as texts. -/
def ofTexts (entries : List (Text × List UInt8)) : Files :=
  entries.map fun (path, bytes) => ((Path.ofText path).names, bytes)

end Files

end Variants.CommandLine
