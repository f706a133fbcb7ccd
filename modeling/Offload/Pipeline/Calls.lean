import Offload.Pipeline.Delivery
import Offload.Pipeline.Schedule
import Offload.Pipeline.Teardown
import Offload.Pipeline.Worker

/-!
# Calls on a pipeline

Threads use a pipeline through its owner or through a handle for scheduling. A call through
the owner borrows the pipeline for as long as it lasts, so no teardown begins meanwhile; when
there is no owner any more, the call answers that the pipeline is gone. A handle always
works. The worker itself is a call that the worker's thread makes at its start and that
answers when the thread ends.

## Main definitions

* `Pipeline.Use`, `Pipeline.HandleUse`: what can be done through the owner and through a handle.
* `Pipeline.Call`, `Pipeline.Answer`: the calls on a pipeline, and what they answer.
* `Pipeline.Request`: what code asks of a pipeline.
* `Pipeline.machine`: the machine in which threads use one pipeline.
-/

namespace Offload.Pipeline

variable {κ ω V E ν : Type}

/-- What can be done through a handle for scheduling. -/
inductive HandleUse (κ V E : Type) where
  | schedule (stage : Schedule κ V E)
  /-- Reads whether tasks are accepted. -/
  | accepting (phase : Phase Bool)

/-- What can be done through the owner, apart from a teardown. -/
inductive Use (κ V E : Type) where
  | schedule (stage : Schedule κ V E)
  /-- Delivers results that are there, up to `max` or up to the batch of the settings. -/
  | drain (max : Option Nat)
  | draining (stage : Drain κ V E)
  | await (stage : Await κ V E)
  | pendingSize (phase : Phase Nat)
  | finishedSize (phase : Phase Nat)
  /-- Reads whether the worker is busy. -/
  | busy

/-- What a call answers. -/
inductive Answer where
  | scheduled (outcome : Except Failure Unit)
  /-- A drain has ended; results may be left. -/
  | drained (more : Bool)
  /-- An await has ended; a result may have been delivered. -/
  | awaited (delivered : Bool)
  | size (n : Nat)
  | flag (b : Bool)
  | stopped (outcome : Except Failure Unit)
  /-- The worker's thread has ended. -/
  | ended
  /-- The pipeline has no owner any more. -/
  | gone

/-- The calls on a pipeline, and how far they have come. -/
inductive Call (κ V E : Type) where
  | opening (use : Use κ V E)
  | inside (use : Use κ V E)
  | closing (outcome : Except Fault Answer)
  | handle (use : HandleUse κ V E)
  /-- Takes the pipeline from its owner; `reporting` says whether a report is wanted. -/
  | taking (reporting : Bool)
  | teardown (teardown : Teardown κ V E)
  | work (work : Work κ V E)

/-! ### Calls at their beginning -/

/-- What code asks of a pipeline. -/
inductive Request (κ V E : Type) where
  /-- Schedules a job through the owner. -/
  | scheduling (job : Job κ V E)
  /-- Schedules a job through a handle. -/
  | handing (job : Job κ V E)
  /-- Delivers up to `max` results that are there, or up to the batch of the settings. -/
  | draining (max : Option Nat)
  /-- Delivers one result, for which it waits. -/
  | awaiting (wait : Channel.Wait)
  /-- Counts the pending entries. -/
  | countingPending
  /-- Counts the results that have not been delivered. -/
  | countingFinished
  /-- Asks whether the worker is busy. -/
  | askingBusy
  /-- Asks whether tasks are accepted. -/
  | askingAccepting
  /-- Takes the pipeline from its owner and tears it down. -/
  | taking (reporting : Bool)

/-- The call that a request begins. -/
def Request.call : Request κ V E → Call κ V E
  | .scheduling job => .opening (.schedule (.checking job))
  | .handing job => .handle (.schedule (.checking job))
  | .draining max => .opening (.drain max)
  | .awaiting wait => .opening (.await (.start wait))
  | .countingPending => .opening (.pendingSize .arriving)
  | .countingFinished => .opening (.finishedSize .arriving)
  | .askingBusy => .opening .busy
  | .askingAccepting => .handle (.accepting .arriving)
  | .taking reporting => .taking reporting

/-! ### Steps -/

/-- A step of a part as a step of a larger call. -/
def nest {γ β γ' β' : Type} (wrap : γ → γ') (answered : β → Turn κ γ' β')
    (failed : Fault → Turn κ γ' β')
    (r : Pipeline κ V E × List (Event V E ν) × Turn κ γ β) :
    Pipeline κ V E × List (Event V E ν) × Turn κ γ' β' :=
  (r.1, r.2.1, r.2.2.within wrap answered failed)

/-- The visit that reads whether tasks are accepted. -/
def readAccepting : Visit Bool Bool :=
  Visit.plain fun accepting => (accepting, .ok accepting)

/-- One atomic step of what is done through a handle. -/
def HandleUse.turn (t : Tid) (choice : Choice) (s : Pipeline κ V E) :
    HandleUse κ V E →
      Option (Pipeline κ V E × List (Event V E ν) × Turn κ (HandleUse κ V E) Answer)
  | .schedule stage =>
    (stage.turn t choice s).map (nest .schedule (fun outcome => .ret (.scheduled outcome)) .fail)
  | .accepting phase =>
    (readAccepting.turn t choice s.intake phase).map fun (intake, progress) =>
      ({ s with intake := intake }, [],
        match progress with
        | .on phase' => .stay (.accepting phase')
        | .ended (.ok b) => .ret (.flag (b.getD false))
        | .ended (.error fault) => .fail fault)

/-- What is done through a handle goes on when the code that it ran has ended. -/
def HandleUse.resume {ρ : Type} (result : Except Fault ρ) : HandleUse κ V E → HandleUse κ V E
  | .schedule stage => .schedule (stage.resume result)
  | use => use

/-- One atomic step of what is done through the owner. -/
def Use.turn (plan : Plan κ) (t : Tid) (choice : Choice) (s : Pipeline κ V E) :
    Use κ V E → Option (Pipeline κ V E × List (Event V E ν) × Turn κ (Use κ V E) Answer)
  | .schedule stage =>
    (stage.turn t choice s).map (nest .schedule (fun outcome => .ret (.scheduled outcome)) .fail)
  | .drain max => some (s, [], .stay (.draining (.going (max.getD plan.settings.batch))))
  | .draining stage =>
    (stage.turn t choice s).map (nest .draining (fun more => .ret (.drained more)) .fail)
  | .await stage =>
    (stage.turn t choice s).map (nest .await (fun delivered => .ret (.awaited delivered)) .fail)
  | .pendingSize phase =>
    (Channel.sizeTurn t choice s.pending phase).map fun (pending, turn) =>
      s.onPending .pendingSize (fun n => .ret (.size n)) .fail (pending, [], turn)
  | .finishedSize phase =>
    (Channel.sizeTurn t choice s.finished phase).map fun (finished, turn) =>
      s.onFinished .finishedSize (fun n => .ret (.size n)) .fail (finished, [], turn)
  | .busy => some (s, [], .ret (.flag s.busy))

/-- What is done through the owner goes on when the code that it ran has ended. -/
def Use.resume {ρ : Type} (result : Except Fault ρ) : Use κ V E → Use κ V E
  | .schedule stage => .schedule (stage.resume result)
  | .draining stage => .draining (stage.resume result)
  | .await stage => .await (stage.resume result)
  | use => use

/-- One atomic step of a call by thread `t`. -/
def turn (plan : Plan κ) (t : Tid) (choice : Choice) (s : Pipeline κ V E) :
    Call κ V E → Option (Pipeline κ V E × List (Event V E ν) × Turn κ (Call κ V E) Answer)
  | .opening use =>
    if s.owned then some ({ s with borrows := s.borrows + 1 }, [], .stay (.inside use))
    else some (s, [], .ret .gone)
  | .inside use =>
    (use.turn plan t choice s).map
      (nest .inside (fun answer => .stay (.closing (.ok answer)))
        fun fault => .stay (.closing (.error fault)))
  | .closing outcome =>
    some ({ s with borrows := s.borrows - 1 }, [],
      match outcome with
      | .ok answer => .ret answer
      | .error fault => .fail fault)
  | .handle use => (use.turn t choice s).map (nest .handle .ret .fail)
  | .taking reporting =>
    if !s.owned then some (s, [], .ret .gone)
    else if s.borrows = 0 then
      some ({ s with owned := false }, [], .stay (.teardown { reporting := reporting }))
    else none
  | .teardown d =>
    (d.turn t choice s).map (nest .teardown (fun outcome => .ret (.stopped outcome)) .fail)
  | .work w => (w.turn plan t choice s).map (nest .work (fun () => .ret .ended) .fail)

/-- A call goes on when the code that it ran has ended. -/
def resume (call : Call κ V E) (result : Except Fault (Except E V)) : Call κ V E :=
  match call with
  | .inside use => .inside (use.resume result)
  | .handle use => .handle (use.resume result)
  | .teardown d => .teardown (d.resume result)
  | .work w => .work (w.resume result)
  | call => call

/-- The machine in which threads use one pipeline. -/
def machine (plan : Plan κ) (next : κ → Move κ ω (Request κ V E) Answer (Except E V) ν) :
    Machine κ ω (Pipeline κ V E) (Call κ V E) Answer (Except E V) (Event V E ν) where
  next position := (next position).map Request.call .note
  turn := turn plan
  resume := resume

/-- What the worker's thread does from its start. -/
def workerStack : Stack κ (Call κ V E) Answer :=
  [.call (.work .start)]

end Offload.Pipeline
