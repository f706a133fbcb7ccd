import Offload.Channel
import Offload.Failure
import Offload.Job
import Offload.Settings

/-!
# Pipelines

A **pipeline** runs tasks one at a time on a worker of its own and hands their results back
when it is asked to. Tasks wait in the channel of **pending** entries, results in the
channel of **finished** tasks. The **intake** says whether tasks are still accepted, and its
lock is kept from the look at it until the task is in the pending channel.

The pipeline has an owner, from whom others borrow it for the time of a call. A teardown
needs it unborrowed and leaves nobody owning it; handles for scheduling outlast it.

## Main definitions

* `Pipeline`: the state that all threads share.
* `Pipeline.Plan`: the settings and the hook of a pipeline.
* `Pipeline.Event`: what happens to a pipeline, noted at the step at which it happens.
* `Pipeline.new`: the refusal or the pipeline that a plan gives.
-/

namespace Offload

variable {κ V E ν : Type}

namespace Pipeline

/-- What waits in the pending channel. -/
inductive Entry (κ V E : Type) where
  | run (ticket : Ticket) (task : Task κ V E)
  /-- Ends the worker. -/
  | stop

/-- How the worker's thread fares. -/
inductive Health where
  | alive
  | exited
  | dead (fault : Fault)
  deriving DecidableEq, Repr

/-- What an observer of the pipeline's doings is told. -/
inductive Notice where
  | started (threadName : String)
  | exiting
  | stopped (discarded undelivered : Nat)
  | cleared (count : Nat)
  /-- A value had no callback. -/
  | valueUnheard
  /-- An error had no callback. -/
  | errorUnheard
  /-- The worker itself gave the pipeline up. -/
  | ownThread
  /-- The pipeline was given up, and its worker had failed. -/
  | unclean (failure : Failure)
  deriving DecidableEq, Repr

/-- What happens to a pipeline, beside what code notes. -/
inductive Event (V E ν : Type) where
  /-- A task joins the pending channel. -/
  | accepted (ticket : Ticket)
  /-- The worker takes a task. -/
  | taken (ticket : Ticket)
  /-- The body of a task begins. -/
  | began (ticket : Ticket)
  /-- The body of a task ends with an outcome. -/
  | returned (ticket : Ticket) (outcome : Except E V)
  /-- A finished task joins the finished channel. -/
  | published (ticket : Ticket)
  /-- A call of the hook begins. -/
  | hooked
  /-- A finished task is removed for delivery. -/
  | received (ticket : Ticket)
  /-- The callback for values is called. -/
  | completed (ticket : Ticket) (value : V)
  /-- The callback for errors is called. -/
  | failed (ticket : Ticket) (error : E)
  /-- The intake closes. -/
  | closed
  /-- The pending tasks are discarded. -/
  | discarded (tickets : List Ticket)
  /-- The entry that ends the worker joins the pending channel. -/
  | stopQueued
  /-- The worker takes the entry that ends it. -/
  | stopTaken
  /-- The worker's thread ends in a fault. -/
  | workerDied (fault : Fault)
  /-- The worker's thread ends. -/
  | workerExited
  | notice (notice : Notice)
  | note (note : ν)

/-- The settings of a pipeline, and the hook that the worker calls for each result. -/
structure Plan (κ : Type) where
  settings : Settings := .default
  hook : Option κ := none

/-- The thread of the worker. -/
def workerThread : Tid := 0

end Pipeline

/-- The state of a pipeline that all threads share. -/
structure Pipeline (κ V E : Type) where
  intake : Monitor Bool := { value := true }
  pending : Channel (Pipeline.Entry κ V E) := Channel.empty
  finished : Channel (Finished κ V E) := Channel.empty
  /-- Whether the worker is busy with a task. -/
  busy : Bool := false
  health : Pipeline.Health := .alive
  /-- Whether the pipeline still has an owner. -/
  owned : Bool := true
  /-- How many calls borrow the pipeline at the moment. -/
  borrows : Nat := 0
  /-- Whether the worker's thread can still be joined. -/
  joinable : Bool := true
  /-- The ticket of the next task that is accepted. -/
  nextTicket : Ticket := 0

namespace Pipeline

/-- The pipeline that a plan gives, unless the name of the worker's thread is refused. -/
def new (plan : Plan κ) : Except Failure (Pipeline κ V E) :=
  if plan.settings.threadName.toList.contains '\x00' then .error .badThreadName else .ok {}

/-- The tickets of the tasks among entries. -/
def Entry.ticket? : Entry κ V E → Option Ticket
  | .run ticket _ => some ticket
  | .stop => none

/-- What has to be run when an entry is discarded. -/
def Entry.onDrop? : Entry κ V E → Option κ
  | .run _ task => task.onDrop
  | .stop => none

/-- What a mark of the pending channel means for the pipeline. -/
def pendingEvent : Channel.Mark (Entry κ V E) → List (Event V E ν)
  | .appended (.run ticket _) => [.accepted ticket]
  | .appended .stop => [.stopQueued]
  | .popped (.run ticket _) => [.taken ticket]
  | .popped .stop => [.stopTaken]
  | .cleared entries => [.discarded (entries.filterMap Entry.ticket?)]
  | .hooked | .finalized _ => []

/-- What a mark of the finished channel means for the pipeline. -/
def finishedEvent : Channel.Mark (Finished κ V E) → List (Event V E ν)
  | .appended f => [.published f.ticket]
  | .hooked => [.hooked]
  | .popped f => [.received f.ticket]
  | .cleared _ | .finalized _ => []

/-- What delivering a finished task means for the pipeline. -/
def deliveryEvent (f : Finished κ V E) : Event V E ν :=
  match f.outcome with
  | .ok v => if f.onValue.isSome then .completed f.ticket v else .notice .valueUnheard
  | .error e => if f.onError.isSome then .failed f.ticket e else .notice .errorUnheard

/-- A step on the pending channel as a step of the pipeline. -/
def onPending {γ β γ' β' : Type} (s : Pipeline κ V E) (wrap : γ → γ')
    (answered : β → Turn κ γ' β') (failed : Fault → Turn κ γ' β')
    (r : Channel (Entry κ V E) × List (Channel.Mark (Entry κ V E)) × Turn κ γ β) :
    Pipeline κ V E × List (Event V E ν) × Turn κ γ' β' :=
  ({ s with pending := r.1 }, r.2.1.flatMap pendingEvent, r.2.2.within wrap answered failed)

/-- A step on the finished channel as a step of the pipeline. -/
def onFinished {γ β γ' β' : Type} (s : Pipeline κ V E) (wrap : γ → γ')
    (answered : β → Turn κ γ' β') (failed : Fault → Turn κ γ' β')
    (r : Channel (Finished κ V E) × List (Channel.Mark (Finished κ V E)) × Turn κ γ β) :
    Pipeline κ V E × List (Event V E ν) × Turn κ γ' β' :=
  ({ s with finished := r.1 }, r.2.1.flatMap finishedEvent, r.2.2.within wrap answered failed)

end Pipeline

end Offload
