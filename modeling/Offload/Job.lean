import Offload.Text.Outline

/-!
# Jobs

A **job** is a body to be run on the worker, with callbacks for its result and a destructor.
Any of these may be missing. A job with a body is a **task**; only tasks can be scheduled.
When a task has been run, its outcome and its callbacks make a **finished** task, which is
delivered by calling the callback that fits the outcome, if there is one.

Code is of any type `κ`. A body ends with a value `V` or an error `E`.
-/

namespace Offload

variable {κ V E : Type}

/-- A job. -/
structure Job (κ V E : Type) where
  body : Option κ := none
  onValue : Option (V → κ) := none
  onError : Option (E → κ) := none
  /-- What runs when the job goes without having been run. -/
  onDrop : Option κ := none

/-- A job with a body. -/
structure Task (κ V E : Type) where
  body : κ
  onValue : Option (V → κ)
  onError : Option (E → κ)
  onDrop : Option κ

namespace Job

/-- Whether there is no body to run. -/
def isEmpty (j : Job κ V E) : Bool :=
  j.body.isNone

/-- The task that a job with a body is. -/
def task? (j : Job κ V E) : Option (Task κ V E) :=
  j.body.map fun body =>
    { body := body, onValue := j.onValue, onError := j.onError, onDrop := j.onDrop }

/-- How a job is shown: which of its parts it has. -/
def outline (j : Job κ V E) : Text.Outline :=
  .record "Job"
    [("task", .bool j.body.isSome), ("on_completion", .bool j.onValue.isSome),
      ("on_error", .bool j.onError.isSome)] false

end Job

/-- The number that an accepted task is known by. -/
abbrev Ticket := Nat

/-- The outcome of a task, and the callbacks that may receive it. -/
structure Finished (κ V E : Type) where
  ticket : Ticket
  outcome : Except E V
  onValue : Option (V → κ)
  onError : Option (E → κ)

/-- The code that delivers a finished task, if the callback that fits its outcome is there. -/
def Finished.callback? (f : Finished κ V E) : Option κ :=
  match f.outcome with
  | .ok v => f.onValue.map (· v)
  | .error e => f.onError.map (· e)

end Offload
