import Offload.Monitor

/-!
# Visits to a monitor

A **visit** takes the lock, runs a critical section and leaves. A visit may first wait for
a predicate on the value, for as long as it takes or for a limited time. It goes through
**phases**, and each step from one phase to the next is atomic.

A waiting visit tests its predicate before every sleep, and after every sleep but one: on
a poisoned monitor the lock comes back together with the news of the fault, and the visit
then goes on without a test. It runs its critical section if it was notified or stirred,
and gives up if its time was over.

## Main definitions

* `Visit`: what a visit waits for and what it does.
* `Phase`: how far a visit has come.
* `Visit.turn`: one atomic step of a visit.
-/

namespace Offload

variable {α β : Type}

/-- What a visit to a monitor waits for, whether it waits for a limited time only, and what
it does while it owns the lock. -/
structure Visit (α β : Type) where
  await : Option (α → Except Fault Bool) := none
  limited : Bool := false
  body : Critical α β

/-- How far a visit has come. -/
inductive Phase (β : Type) where
  /-- It wants the lock for the first time. -/
  | arriving
  /-- It owns the lock and is about to test its predicate, for the first time or `again`. -/
  | testing (again : Bool)
  /-- It owns the lock, has found its predicate false, and is about to fall asleep. -/
  | drowsy
  /-- It sleeps on the condition, or has been notified and wants the lock back. -/
  | asleep
  /-- Its time ran out in its sleep, and it wants the lock back. -/
  | overslept
  /-- It owns the lock and is about to run its critical section, at once or after a sleep. -/
  | acting (again : Bool)
  /-- It owns the lock and is about to leave with an outcome; without a value it has given up. -/
  | leaving (outcome : Except Fault (Option β))

/-- A visit that goes on in a phase, or one that has ended. -/
inductive Progress (β : Type) where
  | on (phase : Phase β)
  | ended (outcome : Except Fault (Option β))

/-- Whether a visit in this phase owns the lock. -/
def Phase.owns : Phase β → Bool
  | .testing _ | .drowsy | .acting _ | .leaving _ => true
  | .arriving | .asleep | .overslept => false

/-- Whether a visit in this phase has not had the lock yet. -/
def Phase.isArriving : Phase β → Bool
  | .arriving => true
  | _ => false

namespace Visit

/-- A visit that only runs a critical section. -/
def plain (body : Critical α β) : Visit α β :=
  { body := body }

/-- A visit that takes the lock once more, after a sleep: a test follows, unless the monitor
is poisoned. -/
def wake (m : Monitor α) (t : Tid) (poisonedPhase : Phase β) :
    Option (Monitor α × Progress β) :=
  (m.acquire t).map fun m' => (m', .on (if m.poisoned then poisonedPhase else .testing true))

/-- What follows the test of the predicate. -/
def afterTest (v : Visit α β) (choice : Choice) (again : Bool) : Except Fault Bool → Phase β
  | .error fault => .leaving (.error fault)
  | .ok true => .acting again
  | .ok false => if v.limited && choice == .expire then .leaving (.ok none) else .drowsy

/-- One atomic step of a visit of thread `t`, if it can make one. -/
def turn (v : Visit α β) (t : Tid) (choice : Choice) (m : Monitor α) :
    Phase β → Option (Monitor α × Progress β)
  | .arriving =>
    (m.acquire t).map fun m' => (m', .on (if v.await.isSome then .testing false else .acting false))
  | .testing again =>
    match v.await with
    | none => some (m, .on (.acting again))
    | some p => some (m, .on (v.afterTest choice again (p m.value)))
  | .drowsy => some (m.sleep t, .on .asleep)
  | .asleep =>
    if t ∈ m.sleepers then
      match choice with
      | .go _ => none
      | .stir => some (m.rouse t, .on .asleep)
      | .expire => if v.limited then some (m.rouse t, .on .overslept) else none
    else wake m t (.acting true)
  | .overslept => wake m t (.leaving (.ok none))
  | .acting _ =>
    let (value, outcome) := v.body m.value
    some ({ m with value := value }, .on (.leaving (outcome.map some)))
  | .leaving (.ok answer) => some (m.release, .ended (.ok answer))
  | .leaving (.error fault) => some (m.releaseFaulted, .ended (.error fault))

/-- The answer of the critical section, given at the very step in which it ran. -/
def answer? (before : Phase β) (after : Progress β) : Option β :=
  match before, after with
  | .acting _, .on (.leaving (.ok answer)) => answer
  | _, _ => none

end Visit

end Offload
