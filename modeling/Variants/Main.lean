import Variants.CommandLine.Run

/-!
# The program

The outer layer: it reads the input that the plan of the run asks for, and writes what the run
gives.
-/

namespace Variants.Main

open CommandLine

/-- The fault that an error of the operating system stands for. -/
def faultOf : IO.Error → FileFault
  | .noFileOrDirectory .. => .missing
  | .inappropriateType _ code _ => if code = 21 then .isDirectory else .notDirectory
  | .invalidArgument .. => .nameTooLong
  | _ => .denied

/-- Reads all bytes of an input. -/
def readBytes : Input → IO (Except ReadFault (List UInt8))
  | .standard => do
    let stdin ← IO.getStdin
    let bytes ← stdin.readBinToEnd
    return .ok bytes.toList
  | .file path => do
    try
      let bytes ← IO.FS.readBinFile (String.ofList path.text)
      return .ok bytes.toList
    catch e => return .error (.file (faultOf e) path)

/-- Writes what a run gives, and returns its exit status. -/
def conclude : Except Breakdown Outcome → IO UInt32
  | .error breakdown => do
    IO.eprintln (String.ofList breakdown.message)
    return 1
  | .ok outcome => do
    IO.print (String.ofList outcome.stdout)
    IO.eprint (String.ofList outcome.stderr)
    return UInt32.ofNat outcome.exit

end Variants.Main

open Variants Variants.CommandLine in
/-- Makes one run. -/
def main (words : List String) : IO UInt32 := do
  match plan (words.map String.toList) with
  | .over outcome => Main.conclude outcome
  | .reading settings options input =>
    let source ← decodeInput <$> Main.readBytes input
    Main.conclude (runOnInput settings options input source)
