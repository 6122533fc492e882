import EcmaWriter.CommandLine.Disk

/-!
# EcmaWriter - A world to run in

A small model of what a run can see and change: the bytes of standard input, the
files under the working directory, and the texts written so far.

Main definitions:

- `World`: the surroundings of a run.
- `World.host`: how a run works on them.
-/

namespace EcmaWriter

/-- The surroundings of a run. -/
structure World where
  stdin : ByteArray
  disk : Disk
  stdout : String
  stderr : List String

namespace World

/-- Read the input of a run. -/
def readInput (w : World) : Option String → Except InputFault ByteArray
  | none => .ok w.stdin
  | some path => w.disk.read path

/-- Write the output of a run. -/
def writeOutput (w : World) (text : String) : Option String → Except SystemFault World
  | none => .ok { w with stdout := w.stdout ++ text }
  | some path => (w.disk.write path text).map fun disk => { w with disk }

/-- How a run works on a world. -/
def host : Host (StateM World) where
  readInput path := do return (← get).readInput path
  writeOutput path text := do
    match (← get).writeOutput text path with
    | .ok w =>
      set w
      return .ok ()
    | .error fault => return .error fault
  writeResult text := modify fun w => { w with stdout := w.stdout ++ text }
  report text := modify fun w => { w with stderr := w.stderr ++ [text] }

/-- Run a command line in a world. -/
def run (w : World) (arguments : List String) : UInt32 × World :=
  (CommandLine.run host arguments).run w

end World

end EcmaWriter
