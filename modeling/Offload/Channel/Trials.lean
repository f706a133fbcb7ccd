import Offload.Channel
import Offload.Script

/-!
# Trials of channels

Threads that hand numbers to each other through channels, with outcomes that no schedule
changes. Each trial lets the first thread that can go on make the next step.

## Main definitions

* `Channel.Trial.fromProducers`: several threads push and one pops.
* `Channel.Trial.toConsumers`: one thread pushes and several pop.
* `Channel.Trial.pingPong`: two threads push and pop in turn, through two channels.
-/

namespace Offload.Channel.Trial

variable {α : Type}

/-- A script of a trial on one channel, which notes the items that it pops. -/
abbrev Plot (α τ : Type) := Script (Request α) (Answer α) Unit α τ

/-- Pushes items one after the other. -/
def pushAll (items : List α) : Plot α Unit :=
  Script.all (items.map fun item => do let _ ← Script.ask (.pushing item))

/-- Pops once and notes the item, if one came out. -/
def popOne (wait : Wait) : Plot α Unit := do
  match ← Script.ask (.popping wait) with
  | .item (some item) => Script.emit item
  | _ => pure ()

/-- Pops a number of times. -/
def popMany (wait : Wait) (n : Nat) : Plot α Unit :=
  Script.all (List.replicate n (popOne wait))

/-- The state after all threads have gone as far as they can. -/
def run (codes : List (Plot α Unit)) :
    State (Plot α Unit) Unit (Channel α) (Call α) (Answer α) (Event α α) :=
  (Channel.machine none (fun _ => none) (Script.next id)).runAll Channel.empty ()
    (codes.map fun code => [.code code])

/-- What thread `t` has noted, in order. -/
def notedBy (t : Tid) (history : List (Tid × Event α α)) : List α :=
  history.filterMap fun
    | (u, .note item) => if u = t then some item else none
    | _ => none

/-- Each of several producers pushes its own number together with 0, 1, … up to `per`, and one
consumer pops everything: for each producer, what the consumer received of it, in order. -/
def fromProducers (producers per : Nat) : List (List Nat) :=
  let producer p := pushAll ((List.range per).map fun i => (p, i))
  let s := run ((List.range producers).map producer ++ [popMany .endless (producers * per)])
  let received := notedBy producers s.history
  (List.range producers).map fun p => received.filterMap fun (q, i) => if q = p then some i else none

/-- What the consumers of a trial received. -/
structure Shares where
  each : List (List Nat)
  /-- How many items nobody popped. -/
  left : Nat

/-- All that was received, in increasing order. -/
def Shares.all (s : Shares) : List Nat :=
  s.each.flatten.mergeSort

/-- Whether every consumer received its items in increasing order. -/
def Shares.isOrdered (s : Shares) : Bool :=
  s.each.all fun received => (received.zip (received.drop 1)).all fun (a, b) => a ≤ b

/-- The numbers 0, 1, … up to `per` are pushed, and each of several consumers pops until
nothing is left. -/
def toConsumers (consumers per : Nat) : Shares :=
  let s := run (pushAll (List.range per) :: List.replicate consumers (popMany .never (per + 1)))
  { each := (List.range consumers).map fun c => notedBy (c + 1) s.history
    left := s.shared.value.length }

/-! ### Two channels -/

/-- One of the two channels of a ping-pong. -/
inductive Side where
  | evens
  | odds
  deriving DecidableEq

/-- Two channels of numbers. -/
structure Court where
  evens : Channel Nat := Channel.empty
  odds : Channel Nat := Channel.empty

/-- One step on one of the two channels. -/
def Court.turn {κ : Type} (t : Tid) (choice : Choice) (c : Court) :
    Side × Call Nat →
      Option (Court × List (Event Nat Nat) × Turn κ (Side × Call Nat) (Answer Nat))
  | (.evens, call) =>
    (Channel.turn none (fun _ => none) t choice c.evens call).map fun (evens, events, turn) =>
      ({ c with evens := evens }, events, turn.within (Prod.mk .evens) .ret .fail)
  | (.odds, call) =>
    (Channel.turn none (fun _ => none) t choice c.odds call).map fun (odds, events, turn) =>
      ({ c with odds := odds }, events, turn.within (Prod.mk .odds) .ret .fail)

/-- The code of a ping-pong. -/
abbrev Rally := Script (Side × Request Nat) (Answer Nat) Unit (Event Nat Nat) Unit

/-- Pushes a number to one of the channels. -/
def serve (side : Side) (n : Nat) : Rally := do
  let _ ← Script.ask (side, .pushing n)

/-- Pops a number from one of the channels and notes it. -/
def fetch (side : Side) : Rally := do
  match ← Script.ask (side, .popping .endless) with
  | .item (some n) => Script.emit (.note n)
  | _ => pure ()

/-- What the two threads of a ping-pong saw, and whether nothing was left. -/
structure Score where
  first : List Nat
  second : List Nat
  isEmpty : Bool

/-- One thread pushes the even numbers below `max` and pops an odd one after each; the other
pops them and answers each with the next odd number. -/
def pingPong (max : Nat) : Score :=
  let rounds := List.range (max / 2)
  let first : Rally := Script.all (rounds.map fun i => do
    serve .evens (2 * i)
    fetch .odds)
  let second : Rally := Script.all (rounds.map fun i => do
    fetch .evens
    serve .odds (2 * i + 1))
  let machine : Machine Rally Unit Court (Side × Call Nat) (Answer Nat) Unit (Event Nat Nat) :=
    { next := Script.next (Prod.map id Request.call), turn := Court.turn
      resume := fun call _ => call }
  let s := machine.runAll {} () [[.code first], [.code second]]
  { first := notedBy 0 s.history
    second := notedBy 1 s.history
    isEmpty := s.shared.evens.value.isEmpty && s.shared.odds.value.isEmpty }

end Offload.Channel.Trial
