import WorkflowEngine.Folder
import WorkflowEngine.Run.Orchestration

/-!
# Output

What a command prints, and how it ends: with a success, with a failure and what caused it, or
because the arguments ask for nothing that can be done.

## Main definitions

* `Failure`, `Failure.text`: failures and how they are told
* `Ending`: how a command ends
* `Output`: what a command leaves
-/

namespace WorkflowEngine.CommandLine

/-- Why a command failed, and what caused that, the nearest cause first. -/
structure Failure where
  message : String
  causes : List String := []
deriving Repr, DecidableEq

namespace Failure

/-- A text whose lines after the first one are moved in. -/
def hanging (indent : Nat) (s : String) : String :=
  String.ofList <| s.toList.flatMap fun c =>
    if c == '\n' then '\n' :: List.replicate indent ' ' else [c]

/-- A cause with its number, which ends in the fifth column. -/
def numbered (i : Nat) (cause : String) : String :=
  let number := toString i
  String.ofList (List.replicate (5 - number.length) ' ') ++ number ++ ": " ++ hanging 7 cause

/-- The lines that tell the causes; a single one has no number. -/
def causeLines : List String → List String
  | [] => []
  | [cause] => ["", "Caused by:", "    " ++ hanging 4 cause]
  | causes => ["", "Caused by:"] ++ causes.mapIdx numbered

/-- How a failure is told. -/
def text (f : Failure) : String :=
  String.join ((("Error: " ++ f.message) :: causeLines f.causes).map (· ++ "\n"))

end Failure

/-- What lies under an error of a workflow. -/
def causesOfWorkflow : WorkflowError → List String
  | .file message => [message]
  | _ => []

/-- What lies under an error of a run. -/
def causesOfRun : RunError → List String
  | .workflow e => causesOfWorkflow e
  | .store e => [e.message]
  | .expression e => [e.message]
  | .stepFailed _ e => [e.message]
  | _ => []

/-- How a command ends. -/
inductive Ending where
  | success
  | failure (failure : Failure)
  /-- Nothing was done, since the arguments do not ask for anything that can be done. -/
  | misuse (text : String)
deriving Repr, DecidableEq

/-- The number that tells others how a command ended. -/
def Ending.code : Ending → Nat
  | .success => 0
  | .failure _ => 1
  | .misuse _ => 2

/-- What is told of an ending. -/
def Ending.text : Ending → String
  | .success => ""
  | .failure f => f.text
  | .misuse text => text

/-- What a command leaves. -/
structure Output where
  printed : String := ""
  ending : Ending := .success
deriving Repr, DecidableEq

namespace Output

/-- Something is printed. -/
def success (printed : String) : Output := { printed }

/-- Something is printed before a failure. -/
def failure (f : Failure) (printed : String := "") : Output := { printed, ending := .failure f }

/-- What is left of something that may have failed before anything was printed. -/
def ofExcept : Except Failure Output → Output
  | .ok out => out
  | .error f => failure f

end Output

/-- Lines, each with its end. -/
def unlines (lines : List String) : String := String.join (lines.map (· ++ "\n"))

/-- A value printed for programs. -/
def jsonText (v : Json) : String := v.indented ++ "\n"

/-- The folder of a directory, or the failure to have one. -/
def openFolder (files : Files) (dir : String) : Except Failure Folder :=
  match Folder.load files dir with
  | .ok f => .ok f
  | .error e =>
    let causes := match e with
      | .workflow e => e.message :: causesOfWorkflow e
      | e => [e.message]
    .error ⟨"Failed to load workflow catalog from " ++ dir, causes⟩

end WorkflowEngine.CommandLine
