import Offload.Pipeline.Calls

/-!
# The demonstration

The demonstration squares the numbers below a count on a pipeline; every third number fails
on purpose. The hook signals each result through a channel, and the main thread drains the
pipeline after every signal until all results have been delivered. The callbacks keep what
they receive in a summary. In the end the pipeline is shut down.

The main thread's program is given by its **positions**, since it loops for as long as it
takes: a wait for a signal has a limit, after which the main thread looks around and waits
again.

## Main definitions

* `Demo.square`: the body of a task.
* `Demo.Position`, `Demo.next`: the code of all threads and callbacks.
* `Demo.machine`: the machine in which the demonstration runs.
* `Demo.run`: the outcome of one schedule.
-/

namespace Offload.Demo

/-- The place at which the errors of the demonstration are made. -/
def errorSite : Site := { file := "Offload/Demo.lean", line := 31, column := 5 }

/-- The body of a task: the square of its number, unless it fails on purpose. -/
def square (index : Nat) : Except TaskError Nat :=
  if index % 3 = 2 then
    .error { message := "task " ++ toString index ++ " failed on purpose", site := errorSite }
  else .ok (index * index)

/-- What the callbacks have received, first received first. -/
structure Summary where
  /-- The numbers that succeeded, with their squares. -/
  succeeded : List (Nat × Nat) := []
  failed : List TaskError := []
  deriving DecidableEq, Repr

/-- How many results have been delivered. -/
def Summary.delivered (s : Summary) : Nat :=
  s.succeeded.length + s.failed.length

/-- How the main thread ends. -/
inductive Ending where
  | done
  /-- A task was refused. -/
  | refused (failure : Failure)
  /-- The shutdown reported a failure. -/
  | unclean (failure : Failure)
  deriving DecidableEq, Repr

/-- Where code stands. -/
inductive Position where
  /-- The main thread is about to schedule a task. -/
  | scheduling (index : Nat)
  /-- The main thread is about to see whether all results have been delivered. -/
  | looking
  /-- The main thread is about to wait for a signal. -/
  | waiting
  /-- The main thread is about to drain one batch. -/
  | draining
  /-- The main thread is about to shut the pipeline down. -/
  | stopping
  /-- The main thread is about to end. -/
  | finishing (ending : Ending)
  /-- The body of a task is about to run. -/
  | computing (index : Nat)
  /-- The callback of a value is about to keep it. -/
  | keepingValue (index value : Nat)
  /-- The callback of an error is about to keep it. -/
  | keepingError (e : TaskError)
  /-- The hook is about to signal a result. -/
  | signalling
  /-- A callback or the hook is about to end. -/
  | ended
  /-- A fault has come back from a call. -/
  | broken (fault : Fault)

/-- The state that all threads of the demonstration share. -/
structure Shared where
  pipeline : Pipeline Position Nat TaskError
  /-- The signals of the hook. -/
  ready : Channel Unit := Channel.empty
  summary : Monitor Summary := { value := {} }

/-- The calls of the demonstration. -/
inductive Call where
  | pipeline (call : Pipeline.Call Position Nat TaskError)
  | ready (call : Channel.Call Unit)
  /-- Runs a critical section on the summary. -/
  | summary (visit : Visit Summary Nat) (phase : Phase Nat)

/-- What calls answer. -/
inductive Answer where
  | pipeline (answer : Pipeline.Answer)
  | ready (answer : Channel.Answer Unit)
  | summary (n : Nat)

/-- What the log of the demonstration holds. -/
inductive Event where
  | pipeline (event : Pipeline.Event Nat TaskError Unit)
  | ready (event : Channel.Event Unit Unit)
  /-- The main thread ends. -/
  | finished (ending : Ending)

/-- Keeps a value. -/
def keepValue (index value : Nat) : Visit Summary Nat :=
  Visit.plain fun s => ({ s with succeeded := s.succeeded ++ [(index, value)] }, .ok 0)

/-- Keeps an error. -/
def keepError (e : TaskError) : Visit Summary Nat :=
  Visit.plain fun s => ({ s with failed := s.failed ++ [e] }, .ok 0)

/-- Counts the results that have been kept. -/
def readDelivered : Visit Summary Nat :=
  Visit.plain fun s => (s, .ok s.delivered)

/-- The job with a number. -/
def job (index : Nat) : Job Position Nat TaskError where
  body := some (.computing index)
  onValue := some (.keepingValue index)
  onError := some .keepingError

/-- What the pipeline of the demonstration is made from. -/
def plan (settings : Settings) : Pipeline.Plan Position :=
  { settings := settings, hook := some .signalling }

/-! ### The program -/

/-- Where the main thread goes on after so many tasks have been scheduled. -/
def afterScheduling (count index : Nat) : Position :=
  if index < count then .scheduling index else .looking

/-- What code at each position does next. -/
def next (count : Nat) : Position →
    Move Position Unit Call Answer (Except TaskError Nat) Event
  | .scheduling index =>
    .call (.pipeline (Pipeline.Request.scheduling (job index)).call) fun
      | .ok (.pipeline (.scheduled (.ok ()))) => afterScheduling count (index + 1)
      | .ok (.pipeline (.scheduled (.error failure))) => .finishing (.refused failure)
      | .ok _ => .ended
      | .error fault => .broken fault
  | .looking =>
    .call (.summary readDelivered .arriving) fun
      | .ok (.summary n) => if n < count then .waiting else .stopping
      | .ok _ => .ended
      | .error fault => .broken fault
  | .waiting =>
    .call (.ready (Channel.Request.popping .limited).call) fun
      | .ok (.ready (.item (some ()))) => .draining
      | .ok _ => .looking
      | .error fault => .broken fault
  | .draining =>
    .call (.pipeline (Pipeline.Request.draining none).call) fun
      | .ok (.pipeline (.drained true)) => .draining
      | .ok _ => .looking
      | .error fault => .broken fault
  | .stopping =>
    .call (.pipeline (Pipeline.Request.taking true).call) fun
      | .ok (.pipeline (.stopped (.ok ()))) => .finishing .done
      | .ok (.pipeline (.stopped (.error failure))) => .finishing (.unclean failure)
      | .ok _ => .ended
      | .error fault => .broken fault
  | .finishing ending => .note (.finished ending) .ended
  | .computing index => .ret (square index)
  | .keepingValue index value =>
    .call (.summary (keepValue index value) .arriving) fun
      | .ok _ => .ended
      | .error fault => .broken fault
  | .keepingError e =>
    .call (.summary (keepError e) .arriving) fun
      | .ok _ => .ended
      | .error fault => .broken fault
  | .signalling =>
    .call (.ready (Channel.Request.pushing ()).call) fun
      | .ok _ => .ended
      | .error fault => .broken fault
  | .ended => .ret (.ok 0)
  | .broken fault => .fail fault

/-- One atomic step of a call. -/
def turn (settings : Settings) (t : Tid) (choice : Choice) (s : Shared) :
    Call → Option (Shared × List Event × Turn Position Call Answer)
  | .pipeline call =>
    (Pipeline.turn (plan settings) t choice s.pipeline call).map fun (pipeline, events, turn) =>
      ({ s with pipeline := pipeline }, events.map .pipeline,
        turn.within .pipeline (fun a => .ret (.pipeline a)) .fail)
  | .ready call =>
    (Channel.turn none (fun _ => none) t choice s.ready call).map fun (ready, events, turn) =>
      ({ s with ready := ready }, events.map .ready,
        turn.within .ready (fun a => .ret (.ready a)) .fail)
  | .summary visit phase =>
    (visit.turn t choice s.summary phase).map fun (summary, progress) =>
      ({ s with summary := summary }, [],
        match progress with
        | .on phase' => .stay (.summary visit phase')
        | .ended (.ok n) => .ret (.summary (n.getD 0))
        | .ended (.error fault) => .fail fault)

/-- A call goes on when the code that it ran has ended. -/
def resume (call : Call) (result : Except Fault (Except TaskError Nat)) : Call :=
  match call with
  | .pipeline call => .pipeline (Pipeline.resume call result)
  | .ready call => .ready (Channel.resume call result)
  | .summary visit phase => .summary visit phase

/-- The machine in which the demonstration runs. -/
def machine (count : Nat) (settings : Settings) :
    Machine Position Unit Shared Call Answer (Except TaskError Nat) Event where
  next := next count
  turn := turn settings
  resume := resume

/-- What the worker and the main thread do from their start. -/
def threads (count : Nat) : List (Stack Position Call Answer) :=
  [[.call (.pipeline (.work .start))], [.code (afterScheduling count 0)]]

/-- How the main thread has ended, if it has. -/
def ending? (history : List (Tid × Event)) : Option Ending :=
  history.findSome? fun
    | (_, .finished ending) => some ending
    | _ => none

/-- What the demonstration leaves when the worker always goes on as far as it can: the
summary, and how the main thread ended if it has. -/
def run (count : Nat) (settings : Settings) : Except Failure (Summary × Option Ending) := do
  let pipeline ← Pipeline.new (plan settings)
  let s := (machine count settings).runAll { pipeline := pipeline } () (threads count)
  .ok (s.shared.summary.value, ending? s.history)

end Offload.Demo
