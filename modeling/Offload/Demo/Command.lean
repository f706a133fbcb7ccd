import Offload.Demo
import Offload.Demo.Count
import Offload.Settings.Load
import Offload.Text.Quoted

/-!
# The command

The command reads the number of tasks from its first argument and the settings from the
environment, runs the demonstration, and reports. What goes wrong is reported with the causes
behind it, in this order of precedence: the argument, the settings, the pipeline.

## Main definitions

* `Demo.reportLines`: the report of a demonstration.
* `Demo.complain`: the report of what went wrong.
* `Demo.command`: what the command writes, and its exit code.
-/

namespace Offload.Demo

/-- A number with blanks before it, up to a width. -/
def padded (width n : Nat) : String :=
  let digits := toString n
  String.ofList (List.replicate (width - digits.length) ' ') ++ digits

/-- The report of a demonstration that took the given time, with sites written by `place`:
a line for each success, then one for each failure, then the totals. -/
def reportLines (place : Site → String) (elapsed : String) (s : Summary) : List String :=
  (s.succeeded.map fun (index, value) => "ok    " ++ padded 4 index ++ " -> " ++ toString value)
    ++ (s.failed.map fun e => "error " ++ e.shown place)
    ++ [toString s.succeeded.length ++ " succeeded, " ++ toString s.failed.length ++
      " failed in " ++ elapsed]

/-- Something that went wrong, and what lies behind it, nearest first. -/
structure Complaint where
  message : String
  causes : List String := []
  deriving DecidableEq, Repr

/-- A text whose lines but the first start with blanks. -/
def indented (width : Nat) (s : String) : String :=
  ("\n" ++ String.ofList (List.replicate width ' ')).intercalate (s.splitOn "\n")

/-- The lines of causes, numbered if there are several. -/
def causeLines : List String → List String
  | [] => []
  | [cause] => ["    " ++ indented 4 cause]
  | causes => causes.zipIdx.map fun (cause, i) => padded 5 i ++ ": " ++ indented 7 cause

/-- The report of what went wrong. -/
def Complaint.text (c : Complaint) : String :=
  "Error: " ++ c.message ++ "\n" ++
    (if c.causes.isEmpty then ""
    else "\nCaused by:\n" ++ String.join ((causeLines c.causes).map (· ++ "\n")))

/-- A complaint about an argument. -/
def complainOfCount (argument : String) (fault : CountFault) : Complaint :=
  { message := "TASK_COUNT must be a non-negative integer (got " ++ Text.quoted argument ++ ")"
    causes := [fault.message] }

/-- A complaint about settings. -/
def complainOfSettings (fault : Settings.LoadFault) : Complaint :=
  { message := "Failed to load handoff config", causes := [fault.message, fault.cause] }

/-- A complaint about a failure, within what it prevented. -/
def complainOfFailure (context : String) (failure : Failure) : Complaint :=
  { message := context, causes := failure.message :: failure.cause?.toList }

/-- A complaint about a failure that stands for itself. -/
def complainOfRefusal (failure : Failure) : Complaint :=
  { message := failure.message, causes := failure.cause?.toList }

/-- The number of tasks that the arguments ask for. -/
def countOf (arguments : List String) : Except Complaint Nat :=
  match arguments with
  | [] => .ok defaultCount
  | argument :: _ => (readCount argument).mapError (complainOfCount argument)

/-- The settings of an environment, or the default ones where there are none. -/
def settingsOf (lookUp : Settings.LookUp) (env : Settings.Environment)
    (read : Toml.DocumentReader := Toml.read) : Except Complaint Settings :=
  match Settings.load lookUp env read with
  | .ok settings => .ok (settings.getD .default)
  | .error fault => .error (complainOfSettings fault)

/-- The summary of a demonstration that went well. -/
def summaryOf (count : Nat) (settings : Settings) : Except Complaint Summary :=
  match run count settings with
  | .error failure => .error (complainOfFailure "Failed to start task runner" failure)
  | .ok (summary, some .done) => .ok summary
  | .ok (_, some (.refused failure)) => .error (complainOfRefusal failure)
  | .ok (_, some (.unclean failure)) =>
    .error (complainOfFailure "Task runner did not shut down cleanly" failure)
  | .ok (_, none) => .error { message := "Task runner did not finish" }

/-- The summary that a command ends with. -/
def command (arguments : List String) (lookUp : Settings.LookUp) (env : Settings.Environment)
    (read : Toml.DocumentReader := Toml.read) : Except Complaint Summary := do
  let count ← countOf arguments
  let settings ← settingsOf lookUp env read
  summaryOf count settings

end Offload.Demo
