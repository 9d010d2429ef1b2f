import MachineLang.CommandLine.Report

/-!
# The command line

Reads the arguments, a program and nothing else, and prints what comes of it.
-/

namespace MachineLang.CommandLine

/-- The text that bytes encode, or why there is none. -/
def decodeText (bytes : ByteArray) : Except String String :=
  match String.fromUTF8? bytes with
  | some text => .ok text
  | none => .error "stream did not contain valid UTF-8"

/-- Reads a file. -/
def readFile (path : String) : IO (Except String String) := do
  match ← (IO.FS.readBinFile path).toBaseIO with
  | .ok bytes => return decodeText bytes
  | .error e => return .error (toString e)

/-- Reads the standard input to its end. -/
def readInput : IO (Except String String) := do
  let input ← IO.getStdin
  if ← input.isTty then
    return .error "No program given. Pass a file, --program <NAME> or pipe a program in."
  match ← input.readBinToEnd.toBaseIO with
  | .ok bytes =>
    return (decodeText bytes).mapError fun reason => "Failed to read standard input: " ++ reason
  | .error e => return .error ("Failed to read standard input: " ++ toString e)

end MachineLang.CommandLine

/-- Carries out what the arguments ask for. -/
def main (arguments : List String) : IO UInt32 := do
  let outcome ← MachineLang.CommandLine.respond MachineLang.CommandLine.readFile
    MachineLang.CommandLine.readInput arguments
  IO.print outcome.out
  IO.eprint outcome.err
  return outcome.status.toUInt32
