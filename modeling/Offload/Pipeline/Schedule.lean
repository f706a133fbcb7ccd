import Offload.Pipeline

/-!
# Scheduling

Scheduling a job refuses it if it has no body. Otherwise it takes the lock of the intake,
looks whether tasks are accepted, and if so gives the task a ticket and pushes it to the
pending channel, all before it leaves the lock. A refused job is destroyed, outside the
lock.

## Main definitions

* `Pipeline.Schedule`: how far the scheduling of a job has come.
* `Pipeline.Schedule.turn`: one atomic step of it.
-/

namespace Offload.Pipeline

variable {κ V E ν : Type}

/-- How far the scheduling of a job has come. -/
inductive Schedule (κ V E : Type) where
  /-- The job is to be checked for a body. -/
  | checking (job : Job κ V E)
  /-- The lock of the intake is wanted. -/
  | entering (task : Task κ V E)
  /-- The lock is owned, and the intake is to be looked at. -/
  | deciding (task : Task κ V E)
  /-- The lock is owned, and the task is on its way to the pending channel. -/
  | pushing (push : Channel.Push (Entry κ V E))
  /-- The lock is owned and is to be left, perhaps with a task that was refused. -/
  | leaving (refused : Except Fault (Option (Task κ V E)))
  /-- A refused job is to be destroyed. -/
  | dropping (onDrop : Option κ) (failure : Failure)
  /-- A refused job has been destroyed, perhaps with a fault. -/
  | dropped (outcome : Except Fault Failure)

/-- One atomic step of scheduling by thread `t`. -/
def Schedule.turn (t : Tid) (choice : Choice) (s : Pipeline κ V E) :
    Schedule κ V E →
      Option (Pipeline κ V E × List (Event V E ν) × Turn κ (Schedule κ V E) (Except Failure Unit))
  | .checking job =>
    match job.task? with
    | none => some (s, [], .stay (.dropping job.onDrop .emptyBody))
    | some task => some (s, [], .stay (.entering task))
  | .entering task =>
    (s.intake.acquire t).map fun intake => ({ s with intake := intake }, [], .stay (.deciding task))
  | .deciding task =>
    if s.intake.value then
      some ({ s with nextTicket := s.nextTicket + 1 }, [],
        .stay (.pushing (.start (.run s.nextTicket task))))
    else some (s, [], .stay (.leaving (.ok (some task))))
  | .pushing p =>
    (p.turn none t choice s.pending).map
      (s.onPending .pushing (fun () => .stay (.leaving (.ok none)))
        fun fault => .stay (.leaving (.error fault)))
  | .leaving (.ok none) => some ({ s with intake := s.intake.release }, [], .ret (.ok ()))
  | .leaving (.ok (some task)) =>
    some ({ s with intake := s.intake.release }, [], .stay (.dropping task.onDrop .stopped))
  | .leaving (.error fault) =>
    some ({ s with intake := s.intake.releaseFaulted }, [], .fail fault)
  | .dropping none failure => some (s, [], .stay (.dropped (.ok failure)))
  | .dropping (some code) failure => some (s, [], .run code (.dropped (.ok failure)))
  | .dropped (.ok failure) => some (s, [], .ret (.error failure))
  | .dropped (.error fault) => some (s, [], .fail fault)

/-- Scheduling goes on when the destructor of the refused job has ended. -/
def Schedule.resume {ρ : Type} (result : Except Fault ρ) : Schedule κ V E → Schedule κ V E
  | .dropped (.ok failure) => .dropped (result.map fun _ => failure)
  | schedule => schedule

end Offload.Pipeline
