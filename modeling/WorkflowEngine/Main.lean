import WorkflowEngine.CommandLine.Commands
import WorkflowEngine.Files.Json

/-!
# The program

The program touches no disk. The tree of files that its commands may look into comes as Json on the
standard input, and what a command leaves goes to the standard output and the standard error.
-/

namespace WorkflowEngine.CommandLine

/-- The rest of a stream. -/
partial def readRest (input : IO.FS.Stream) (before : String) : IO String := do
  let line ← input.getLine
  if line.isEmpty then return before else readRest input (before ++ line)

/-- Prints what a command leaves, and ends as it does. -/
def finish (out : Output) : IO UInt32 := do
  IO.print out.printed
  IO.eprint out.ending.text
  return out.ending.code.toUInt32

end WorkflowEngine.CommandLine

open WorkflowEngine CommandLine

/-- Does what the arguments ask for. -/
def main (args : List String) : IO UInt32 := do
  match Files.ofText? (← readRest (← IO.getStdin) "") with
  | some files => finish (output files args)
  | none => finish (.failure ⟨"the standard input is no tree of files", []⟩)
