import Offload.Pipeline

/-!
# The text of notices

A notice is told with a level of importance, a message, and named fields.
-/

namespace Offload.Pipeline.Notice

/-- How important a notice is. -/
inductive Level where
  | trace
  | debug
  | warn
  | error
  deriving DecidableEq, Repr

/-- The name of a level. -/
def Level.name : Level → String
  | .trace => "TRACE"
  | .debug => "DEBUG"
  | .warn => "WARN"
  | .error => "ERROR"

/-- How important a notice is. -/
def level : Notice → Level
  | .started _ | .exiting | .stopped _ _ => .debug
  | .cleared _ | .valueUnheard | .errorUnheard => .trace
  | .ownThread => .warn
  | .unclean _ => .error

/-- The message of a notice. -/
def message : Notice → String
  | .started _ => "Task runner started"
  | .exiting => "Task runner worker exiting"
  | .stopped _ _ => "Task runner stopped"
  | .cleared _ => "Cleared blocking queue"
  | .valueUnheard => "Discarding task result with no completion callback"
  | .errorUnheard => "Discarding task error with no error callback"
  | .ownThread => "Task runner dropped on its own worker thread; not joining"
  | .unclean failure => "Task runner shut down uncleanly: " ++ failure.message

/-- The fields of a notice, as they are shown. -/
def fields : Notice → List (String × Text.Outline)
  | .started threadName => [("thread", .atom (Text.quoted threadName))]
  | .stopped discarded undelivered =>
    [("discarded", .nat discarded), ("undelivered", .nat undelivered)]
  | .cleared count => [("count", .nat count)]
  | _ => []

end Offload.Pipeline.Notice
