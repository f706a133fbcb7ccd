import Offload.Pipeline.Calls
import Offload.Script

/-!
# A trial of a pipeline

Several threads schedule jobs through handles, and when everything has been run one thread
drains the results batch by batch. Each step is made by the first thread that can go on,
the worker before all others and the thread that drains after them.
-/

namespace Offload.Pipeline.Trial

/-- What a trial's code asks for. -/
inductive Demand where
  /-- Schedules the `i`-th job of a producer. -/
  | schedule (producer i : Nat)
  | drain (max : Nat)
  | countFinished

/-- What a trial's code notes. -/
inductive Note where
  | delivered (producer i : Nat)
  | drained
  | left (n : Nat)

/-- The value of a job: its producer and its number. -/
abbrev Parcel := Nat × Nat

/-- A script of a trial. -/
abbrev Plot (τ : Type) := Script Demand Answer Unit Note τ

/-- The code of a trial. -/
abbrev Code := Plot (Except Unit Parcel)

/-- Notes something, as the callback of a result. -/
def noting (n : Note) : Plot (Except Unit Parcel) := do
  Script.emit n
  pure (.error ())

/-- A job that ends with its own name, which its callback notes. -/
def job (producer i : Nat) : Job Code Parcel Unit where
  body := some (pure (.ok (producer, i)))
  onValue := some fun (p, k) => noting (.delivered p k)

/-- The request that a demand stands for. -/
def requestOf : Demand → Request Code Parcel Unit
  | .schedule producer i => .handing (job producer i)
  | .drain max => .draining (some max)
  | .countFinished => .countingFinished

/-- Schedules the jobs of one producer. -/
def produce (per producer : Nat) : Plot (Except Unit Parcel) := do
  Script.all ((List.range per).map fun i => do
    let _ ← Script.ask (.schedule producer i))
  pure (.error ())

/-- Drains until nothing is left, in at most as many calls as the first number says. -/
def drainAll : Nat → Nat → Plot Unit
  | 0, _ => pure ()
  | calls + 1, batch => do
    match ← Script.ask (.drain batch) with
    | .drained more =>
      Script.emit .drained
      if more then drainAll calls batch else pure ()
    | _ => pure ()

/-- Drains and then counts what is left. -/
def consume (calls batch : Nat) : Plot (Except Unit Parcel) := do
  drainAll calls batch
  match ← Script.ask .countFinished with
  | .size n => noting (.left n)
  | _ => pure (.error ())

/-- What a trial shows: the numbers of the jobs delivered for each producer, in order, the
number of drains, and how many results were left. -/
structure Harvest where
  delivered : List (List Nat)
  drains : Nat
  left : Nat

/-- Several producers schedule `per` jobs each, and the results are drained in batches. -/
def run (producers per batch : Nat) : Harvest :=
  let machine : Machine Code Unit (Pipeline Code Parcel Unit) (Call Code Parcel Unit) Answer
      (Except Unit Parcel) (Event Parcel Unit Note) :=
    Pipeline.machine {} (Script.next requestOf)
  let threads :=
    workerStack :: (List.range producers).map (fun p => [.code (produce per p)])
      ++ [[.code (consume (producers * per + 1) batch)]]
  let notes := (machine.runAll {} () threads).history.filterMap fun
    | (_, .note n) => some n
    | _ => none
  { delivered := (List.range producers).map fun p => notes.filterMap fun
      | .delivered q i => if q = p then some i else none
      | _ => none
    drains := notes.countP fun
      | .drained => true
      | _ => false
    left := (notes.findSome? fun
      | .left n => some n
      | _ => none).getD 0 }

end Offload.Pipeline.Trial
