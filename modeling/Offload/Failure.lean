import Offload.Thread

/-!
# Failures

What can go wrong apart from a fault. A **failure** is a pipeline's own refusal or report. A
**task error** is the ordinary bad end of a task: a message, and the **site** in the program
at which the error was made.
-/

namespace Offload

/-- Why a pipeline cannot do what it was asked to do. -/
inductive Failure where
  /-- An argument that no pipeline accepts. -/
  | invalidArgument (reason : String)
  /-- The pipeline does not accept jobs any more. -/
  | stopped
  /-- No thread could be had for the worker. -/
  | spawn (cause : String)
  /-- The worker's thread ended in a fault. -/
  | workerFaulted (message : String)
  deriving DecidableEq, Repr

namespace Failure

/-- A job without a body cannot be scheduled. -/
def emptyBody : Failure := .invalidArgument "task body cannot be empty"

/-- The name of a thread ends at a NUL, so none may stand in it. -/
def badThreadName : Failure := .invalidArgument "thread name cannot contain NUL"

/-- The text of a failure. -/
def message : Failure → String
  | .invalidArgument reason => "invalid argument: " ++ reason
  | .stopped => "task runner has been shut down"
  | .spawn cause => "failed to spawn worker thread: " ++ cause
  | .workerFaulted message => "worker thread panicked: " ++ message

/-- The text of what lies behind a failure, if something does. -/
def cause? : Failure → Option String
  | .spawn cause => some cause
  | _ => none

end Failure

/-- A place in a program. -/
structure Site where
  file : String
  line : Nat
  column : Nat
  deriving DecidableEq, Repr

/-- A place as text. -/
def Site.text (s : Site) : String :=
  s.file ++ ":" ++ toString s.line ++ ":" ++ toString s.column

/-- The ordinary bad end of a task. -/
structure TaskError where
  message : String
  site : Site
  deriving DecidableEq, Repr

/-- A task error as text, with its site written by `place`. -/
def TaskError.shown (e : TaskError) (place : Site → String) : String :=
  e.message ++ " (" ++ place e.site ++ ")"

end Offload
