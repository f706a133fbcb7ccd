import Offload.Pipeline

/-!
# The worker

The worker takes one pending entry after the other. For a task it marks itself busy, runs
the body, publishes the outcome, which calls the hook, and clears the mark. The entry that
ends the worker makes it leave. A fault in a body or in the hook clears the mark and ends
the worker's thread.

## Main definitions

* `Pipeline.Work`: how far the worker has come in its cycle.
* `Pipeline.Work.turn`: one atomic step of it.
-/

namespace Offload.Pipeline

variable {κ V E ν : Type}

/-- How far the worker has come in its cycle. -/
inductive Work (κ V E : Type) where
  | popping (pop : Channel.Pop (Entry κ V E))
  /-- A task has been taken, and the worker is about to mark itself busy. -/
  | entering (ticket : Ticket) (task : Task κ V E)
  /-- The body is about to begin. -/
  | starting (ticket : Ticket) (task : Task κ V E)
  /-- The body is running. -/
  | running (ticket : Ticket) (task : Task κ V E)
  /-- The body has ended with an outcome. -/
  | returning (finished : Finished κ V E)
  | publishing (push : Channel.Push (Finished κ V E))
  /-- The result is published, and the mark is about to be cleared. -/
  | resting
  /-- The entry that ends the worker has been taken. -/
  | leaving
  /-- A fault has struck, and the mark is about to be cleared. -/
  | failing (fault : Fault)
  /-- The thread is about to end in a fault. -/
  | dying (fault : Fault)

namespace Work

/-- The worker at the beginning of a cycle. -/
def start : Work κ V E :=
  .popping (.start .endless)

/-- One atomic step of the worker, which runs on thread `t`. -/
def turn (plan : Plan κ) (t : Tid) (choice : Choice) (s : Pipeline κ V E) :
    Work κ V E → Option (Pipeline κ V E × List (Event V E ν) × Turn κ (Work κ V E) Unit)
  | .popping p =>
    (p.turn t choice s.pending).map
      (s.onPending .popping
        (fun
          | some (.run ticket task) => .stay (.entering ticket task)
          | some .stop => .stay .leaving
          | none => .stay start)
        fun fault => .stay (.failing fault))
  | .entering ticket task => some ({ s with busy := true }, [], .stay (.starting ticket task))
  | .starting ticket task => some (s, [.began ticket], .run task.body (.running ticket task))
  | .running _ _ => none
  | .returning f =>
    some (s, [.returned f.ticket f.outcome], .stay (.publishing (.start f)))
  | .publishing p =>
    (p.turn plan.hook t choice s.finished).map
      (s.onFinished .publishing (fun () => .stay .resting) fun fault => .stay (.failing fault))
  | .resting => some ({ s with busy := false }, [], .stay start)
  | .leaving => some ({ s with health := .exited }, [.notice .exiting, .workerExited], .ret ())
  | .failing fault => some ({ s with busy := false }, [], .stay (.dying fault))
  | .dying fault => some ({ s with health := .dead fault }, [.workerDied fault], .fail fault)

/-- The worker goes on when the body, or the hook, has ended. -/
def resume (result : Except Fault (Except E V)) : Work κ V E → Work κ V E
  | .running ticket task =>
    match result with
    | .ok outcome =>
      .returning
        { ticket := ticket, outcome := outcome, onValue := task.onValue, onError := task.onError }
    | .error fault => .failing fault
  | .publishing p => .publishing (p.resume result)
  | work => work

end Work

end Offload.Pipeline
