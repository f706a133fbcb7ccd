import Offload.Pipeline

/-!
# Teardown

A teardown takes the pipeline from its owner. It closes the intake, discards what is
pending, and queues the entry that ends the worker; unless it runs on the worker's own
thread it then waits for that thread to end. A **shutdown** reports how the worker ended; a
**drop** only notes it. The end of a shutdown gives the pipeline up once more, which finds
nothing left to do.

## Main definitions

* `Pipeline.Teardown`: how far a teardown has come.
* `Pipeline.Teardown.turn`: one atomic step of it.
-/

namespace Offload.Pipeline

variable {κ V E ν : Type}

/-- How far a teardown has come. -/
inductive Teardown.Stage (κ V E : Type) where
  /-- The worker's thread is to be claimed for joining. -/
  | claiming
  | closing (phase : Phase Unit)
  | clearing (clear : Channel.Clear (Entry κ V E))
  /-- Pending tasks have been discarded, so many of them. -/
  | cleared (discarded : Nat)
  | stopping (discarded : Nat) (push : Channel.Push (Entry κ V E))
  /-- It is to be seen whether this is the worker's own thread. -/
  | parting (discarded : Nat)
  /-- The worker's thread is to end. -/
  | joining (discarded : Nat)
  /-- The results that were never delivered are counted. -/
  | counting (discarded : Nat) (outcome : Except Failure Unit) (phase : Phase Nat)
  | ending (outcome : Except Failure Unit)

/-- A teardown, and what an earlier pass of it has reported. -/
structure Teardown (κ V E : Type) where
  /-- Whether the owner wants a report. -/
  reporting : Bool
  earlier : Option (Except Failure Unit) := none
  stage : Teardown.Stage κ V E := .claiming

namespace Teardown

/-- Closes the intake. -/
def close : Visit Bool Unit :=
  Visit.plain fun _ => (false, .ok ())

/-- What the end of the worker's thread means for a teardown, once it has ended. -/
def verdict? : Health → Option (Except Failure Unit)
  | .alive => none
  | .exited => some (.ok ())
  | .dead fault => some (.error (.workerFaulted fault.message))

/-- What a teardown notes of its outcome if nobody wants a report. -/
def complaint : Except Failure Unit → List (Event V E ν)
  | .ok () => []
  | .error failure => [.notice (.unclean failure)]

/-- One atomic step of a teardown by thread `t`, at the stage that it has reached. -/
def stageTurn (reporting : Bool) (earlier : Option (Except Failure Unit)) (t : Tid)
    (choice : Choice) (s : Pipeline κ V E) :
    Stage κ V E →
      Option (Pipeline κ V E × List (Event V E ν) × Turn κ (Teardown κ V E) (Except Failure Unit))
  | .claiming =>
    if s.joinable then
      some ({ s with joinable := false }, [], .stay ⟨reporting, earlier, .closing .arriving⟩)
    else some (s, [], .stay ⟨reporting, earlier, .ending (.ok ())⟩)
  | .closing phase =>
    (close.turn t choice s.intake phase).map fun (intake, progress) =>
      ({ s with intake := intake },
        (Visit.answer? phase progress).elim [] fun () => [.closed],
        match progress with
        | .on phase' => .stay ⟨reporting, earlier, .closing phase'⟩
        | .ended (.ok _) => .stay ⟨reporting, earlier, .clearing .start⟩
        | .ended (.error fault) => .fail fault)
  | .clearing c =>
    (c.turn Entry.onDrop? t choice s.pending).map
      (s.onPending (fun c' => ⟨reporting, earlier, .clearing c'⟩)
        (fun n => .stay ⟨reporting, earlier, .cleared n⟩) .fail)
  | .cleared n =>
    some (s, if n = 0 then [] else [.notice (.cleared n)],
      .stay ⟨reporting, earlier, .stopping n (.start .stop)⟩)
  | .stopping n p =>
    (p.turn none t choice s.pending).map
      (s.onPending (fun p' => ⟨reporting, earlier, .stopping n p'⟩)
        (fun () => .stay ⟨reporting, earlier, .parting n⟩) .fail)
  | .parting n =>
    if t = workerThread then
      some (s, [.notice .ownThread], .stay ⟨reporting, earlier, .ending (.ok ())⟩)
    else some (s, [], .stay ⟨reporting, earlier, .joining n⟩)
  | .joining n =>
    (verdict? s.health).map fun outcome =>
      (s, [], .stay ⟨reporting, earlier, .counting n outcome .arriving⟩)
  | .counting n outcome phase =>
    (Channel.sizeTurn t choice s.finished phase).map fun (finished, turn) =>
      ({ s with finished := finished },
        match turn with
        | .ret undelivered => [.notice (.stopped n undelivered)]
        | _ => [],
        turn.within (fun phase' => ⟨reporting, earlier, .counting n outcome phase'⟩)
          (fun _ => .stay ⟨reporting, earlier, .ending outcome⟩) .fail)
  | .ending outcome =>
    if reporting then
      match earlier with
      | none => some (s, [], .stay ⟨reporting, some outcome, .claiming⟩)
      | some report => some (s, complaint outcome, .ret report)
    else some (s, complaint outcome, .ret (.ok ()))

/-- One atomic step of a teardown by thread `t`. -/
def turn (t : Tid) (choice : Choice) (s : Pipeline κ V E) (d : Teardown κ V E) :
    Option (Pipeline κ V E × List (Event V E ν) × Turn κ (Teardown κ V E) (Except Failure Unit)) :=
  stageTurn d.reporting d.earlier t choice s d.stage

/-- A teardown goes on when the destructor of a discarded job has ended. -/
def resume {ρ : Type} (result : Except Fault ρ) (d : Teardown κ V E) : Teardown κ V E :=
  match d.stage with
  | .clearing c => { d with stage := .clearing (c.resume result) }
  | _ => d

end Teardown

end Offload.Pipeline
