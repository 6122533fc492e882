import EcmaWriter.CommandLine.Run

/-!
# EcmaWriter - The program

The command line on the real surroundings. Files and streams are used here and
nowhere else; what is done with them is decided by `CommandLine.run`.
-/

namespace EcmaWriter

/-- What the operating system refused. -/
def SystemFault.ofError : IO.Error → SystemFault
  | .noFileOrDirectory .. => .notFound
  | .inappropriateType _ 20 _ => .notDirectory
  | .inappropriateType _ 21 _ => .isDirectory
  | error => .other (toString error)

/-- The outcome of an action that the operating system may refuse. -/
def attempt {α : Type} (action : IO α) : IO (Except SystemFault α) := do
  match ← action.toBaseIO with
  | .ok a => return .ok a
  | .error error => return .error (.ofError error)

/-- Read all of the input. -/
def readInput : Option String → IO (Except InputFault ByteArray)
  | none => do
    let bytes ← attempt do (← IO.getStdin).readBinToEnd
    return bytes.mapError .notRead
  | some path => do
    match ← attempt (IO.FS.Handle.mk path .read) with
    | .error fault => return .error (.notOpened fault)
    | .ok handle => return (← attempt handle.readBinToEnd).mapError .notRead

/-- Write all of the output. -/
def writeOutput (text : String) : Option String → IO (Except SystemFault Unit)
  | none => attempt do
    let stdout ← IO.getStdout
    stdout.putStr text
    stdout.flush
  | some path => attempt do
    let handle ← IO.FS.Handle.mk path .write
    handle.putStr text
    handle.flush

/-- The real surroundings of a run. -/
def realHost : Host IO where
  readInput := readInput
  writeOutput path text := writeOutput text path
  writeResult text := IO.print text
  report text := IO.eprintln text

end EcmaWriter

/-- Run the command line. -/
def main (arguments : List String) : IO UInt32 :=
  EcmaWriter.CommandLine.run EcmaWriter.realHost arguments
