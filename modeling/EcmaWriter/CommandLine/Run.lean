import EcmaWriter.CommandLine.Arguments
import EcmaWriter.Tree.OfJson

/-!
# EcmaWriter - Running the command line

A run reads the input, decodes a module, generates its text and only then opens
the output, so a run that fails leaves every file as it was. What a run needs from
its surroundings is given as a `Host`.

Main definitions:

- `Failure`: why a run fails, and `Failure.message`, its wording.
- `CommandLine.produce`: from the bytes of the input to the text of the output.
- `CommandLine.run`: a whole run.
-/

namespace EcmaWriter

/-- What the operating system refuses. -/
inductive SystemFault
  | notFound
  | isDirectory
  | notDirectory
  | other (text : String)
deriving DecidableEq

/-- The wording of a refusal of the operating system. -/
def SystemFault.message : SystemFault → String
  | notFound => "No such file or directory (os error 2)"
  | isDirectory => "Is a directory (os error 21)"
  | notDirectory => "Not a directory (os error 20)"
  | other text => text

/-- Why the input could not be had. -/
inductive InputFault
  | notOpened (fault : SystemFault)
  | notRead (fault : SystemFault)
deriving DecidableEq

/-- What a run needs from its surroundings. Without a path the standard streams are
meant. -/
structure Host (m : Type → Type) where
  readInput : Option String → m (Except InputFault ByteArray)
  writeOutput : Option String → String → m (Except SystemFault Unit)
  writeResult : String → m Unit
  report : String → m Unit

/-- Why a run fails. -/
inductive Failure
  | input (path : Option String) (fault : InputFault)
  | notText (path : Option String)
  | notModule (fault : ReadFault)
  | notGenerated (fault : Fault)
  | notWritten (path : Option String) (fault : SystemFault)

namespace Failure

/-- The name of the input in messages. -/
def inputName (path : Option String) : String :=
  path.getD "stdin"

/-- The wording of a failure. -/
def message : Failure → String
  | input path (.notOpened fault) => "failed to open " ++ inputName path ++ ": " ++ fault.message
  | input path (.notRead fault) => "failed to read " ++ inputName path ++ ": " ++ fault.message
  | notText path =>
    "failed to read " ++ inputName path ++ ": stream did not contain valid UTF-8"
  | notModule _ => "input is not a valid module"
  | notGenerated fault => "failed to generate code: " ++ fault.message
  | notWritten path fault =>
    "failed to write " ++ path.getD "<stdout>" ++ ": " ++ fault.message

end Failure

namespace CommandLine

/-- The text for the bytes of an input. -/
def produce (a : Arguments) (bytes : ByteArray) : Except Failure String :=
  match String.fromUTF8? bytes with
  | none => .error (.notText a.input)
  | some text =>
    match Module.decoder.runText text with
    | .error fault => .error (.notModule fault)
    | .ok m =>
      match m.generate a.options with
      | .error fault => .error (.notGenerated fault)
      | .ok code => .ok code

/-- Do what the arguments ask for. -/
def perform {m : Type → Type} [Monad m] (host : Host m) (a : Arguments) :
    m (Except Failure Unit) := do
  match ← host.readInput a.input with
  | .error fault => return .error (.input a.input fault)
  | .ok bytes =>
    match produce a bytes with
    | .error failure => return .error failure
    | .ok code =>
      match ← host.writeOutput a.output code with
      | .error fault => return .error (.notWritten a.output fault)
      | .ok () => return .ok ()

/-- The help text. -/
def helpText : String :=
  "Generate JavaScript or TypeScript from a JSON syntax tree

Usage: gen-js [OPTIONS]

Options:
  -i, --input <INPUT>      JSON module to generate from; omit for stdin
  -o, --output <OUTPUT>    Output destination; omit for stdout
      --dialect <DIALECT>  Output dialect [default: ts] [possible values: js, ts]
      --link <LINK>        Tool name or link credited in the banner comment. Repeatable
      --allow-unresolved   Warn about references to undefined local variables instead of failing
  -v, --verbose            Log pipeline spans and events to stderr
  -h, --help               Print help
"

/-- A whole run and its exit code: 0 for success, 1 for a failure, 2 for arguments
that cannot be carried out. -/
def run {m : Type → Type} [Monad m] (host : Host m) (arguments : List String) : m UInt32 := do
  match Arguments.parse arguments with
  | .error .help =>
    host.writeResult helpText
    return 0
  | .error refusal =>
    host.report ("error: " ++ refusal.message)
    return 2
  | .ok a =>
    match ← perform host a with
    | .error failure =>
      host.report failure.message
      return 1
    | .ok () => return 0

end CommandLine

end EcmaWriter
