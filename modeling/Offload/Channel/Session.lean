import Offload.Bench
import Offload.Channel
import Offload.Script
import Offload.Value

/-!
# Sessions with a channel

A session performs a list of steps on one channel: the main thread pushes, pops and clears,
and helpers pop on threads of their own. The items are **parcels**: a value together with
the parcels that are pushed in its place when it is removed without having been popped. The
hook counts its calls and performs the actions that are due at each.

## Main definitions

* `Parcel`: the items of a session.
* `Channel.Action`: what the hook may do.
* `Channel.Step`, `Channel.Result`: the steps of a session and their answers.
* `Channel.Session.run`: the report of a session.
-/

namespace Offload

variable {ι : Type}

/-- A value, and the parcels that its finalizer pushes. -/
inductive Parcel where
  | mk (value : Value) (children : List Parcel)
  deriving Repr, Inhabited

namespace Parcel

/-- What a parcel carries. -/
def value : Parcel → Value
  | .mk value _ => value

/-- What a parcel's finalizer pushes. -/
def children : Parcel → List Parcel
  | .mk _ children => children

end Parcel

namespace Channel

/-- What the hook may do. -/
inductive Action where
  | pop
  | push (item : Parcel)
  | clear
  | fail (message : String)
  deriving Repr

/-- An action of the hook, and the number of the call at which it is due; without a number
it is due at every call. -/
structure Due where
  at? : Option Nat
  action : Action
  deriving Repr

/-- A step of a session. -/
inductive Step (ι : Type) where
  | push (item : Parcel)
  /-- Pushes the integers from 0 up to `n`, without children. -/
  | pushMany (n : Nat)
  | pop
  | popWithin (ms : Nat)
  | tryPop
  | clear
  | show (spreadOut : Bool)
  | spawnPop (id : ι) (ms : Option Nat)
  | status
  | join (ms : Nat)
  deriving Repr

/-- The answer to a step. -/
inductive Result (ι : Type) where
  | done
  | value (v : Value)
  | timedOut
  | empty
  | count (n : Nat)
  | text (s : String)
  | faulted (message : String)
  | wouldBlock
  | status (status : Status)
  | joined (results : List (ι × Option (Result ι)))

/-- What the session observes while its code runs. -/
inductive Sight where
  /-- Call `n` of the hook finds this many items. -/
  | hook (n size : Nat)
  | hookPopped (v : Option Value)
  | hookCleared (n : Nat)
  | dropped (v : Value)
  deriving DecidableEq, Repr

/-- What code notes: a sight, or at its end the answer or fault of its last call. -/
inductive Note where
  | sight (s : Sight)
  | ending (e : Except Fault (Answer Parcel))

/-- The code of a session's threads; its world is the number of the hook's calls. -/
abbrev Code := Script (Request Parcel) (Answer Parcel) Nat Note Unit

namespace Code

/-- Notes what is seen. -/
def see (s : Sight) : Code :=
  Script.emit (.sight s)

/-- Makes one request and notes how it ended. -/
def single (request : Request Parcel) : Code := do
  Script.emit (.ending (← Script.attempt request))

/-- Pushes parcels one after the other. -/
def pushAll (items : List Parcel) : Code :=
  Script.all (items.map fun item => do let _ ← Script.ask (.pushing item))

/-- Pushes parcels and notes the end, which comes early if a push fails. -/
def pushing : List Parcel → Code
  | [] => Script.emit (.ending (.ok .done))
  | item :: rest => do
    match ← Script.attempt (.pushing item) with
    | .ok _ => pushing rest
    | .error fault => Script.emit (.ending (.error fault))

/-- The finalizer of a parcel. -/
def finalizer : Parcel → Code
  | .mk value children => do
    see (.dropped value)
    pushAll children

/-- One action of the hook. -/
def act : Action → Code
  | .pop => do
    match ← Script.ask (.popping .never) with
    | .item item => see (.hookPopped (item.map Parcel.value))
    | _ => pure ()
  | .push item => pushAll [item]
  | .clear => do
    match ← Script.ask .clearing with
    | .count n => see (.hookCleared n)
    | _ => pure ()
  | .fail message => .fail (.text message)

/-- A call of the hook: it takes its number, looks at the channel, and does what is due. -/
def hook (actions : List Due) : Code := do
  let n ← Script.update (· + 1)
  match ← Script.ask .sizing with
  | .count size => see (.hook n size)
  | _ => pure ()
  Script.all ((actions.filter fun a => a.at?.all (· == n)).map fun a => act a.action)

end Code

/-- The machine of a session whose channel has these actions at its hook, if it has a hook. -/
def rig (hook : Option (List Due)) :
    Rig Code Nat (Channel Parcel) (Call Parcel) (Answer Parcel) Unit (Event Parcel Note) where
  machine := Channel.machine (hook.map Code.hook) (some ∘ Code.finalizer) (Script.next id)
  timing
    | .pop p => !p.phase.isArriving
    | _ => false

/-- A step's answer, what was seen meanwhile, and how many items there are afterwards. -/
structure Entry (ι : Type) where
  result : Result ι
  sights : List Sight
  size : Nat

/-- What a session shows: an entry for each step, and what is seen when the channel goes. -/
structure Report (ι : Type) where
  entries : List (Entry ι)
  atEnd : List Sight

/-- A channel in use. -/
structure Session (ι : Type) where
  hook : Option (List Due)
  bench : Bench ι Code Nat (Channel Parcel) (Call Parcel) (Answer Parcel) (Event Parcel Note) :=
    { state := { shared := Channel.empty, world := 0, threads := [[]] } }

namespace Session

/-- The items of the channel. -/
def items (s : Session ι) : List Parcel :=
  s.bench.state.shared.value

/-- How the channel is shown. -/
def outline (s : Session ι) : Text.Outline :=
  .record "BlockingQueue"
    [("len", .nat s.items.length), ("notify", .bool s.hook.isSome)] false

/-- The answer that an ending gives, where an answer without an item means `nothing`. -/
def resultOf (nothing : Result ι) : Event Parcel Note → Result ι
  | .note (.ending (.ok .done)) => .done
  | .note (.ending (.ok (.item item))) => item.elim nothing fun i => .value i.value
  | .note (.ending (.ok (.count n))) => .count n
  | .note (.ending (.error fault)) => .faulted fault.message
  | _ => .done

/-- The main thread runs code. -/
def main (s : Session ι) (ms : Option Nat) (nothing : Result ι) (code : Code) :
    Result ι × Session ι :=
  match Bench.run (rig s.hook) ms code s.bench with
  | none => (.wouldBlock, s)
  | some (ending, bench) => (resultOf nothing ending, { s with bench := bench })

/-- The session after a step, with the answer. -/
def step (s : Session ι) : Step ι → Result ι × Session ι
  | .push item => s.main none .done (.pushing [item])
  | .pushMany n =>
    s.main none .done
      (.pushing ((List.range n).map fun i => .mk (.int (Int64.ofNat i)) []))
  | .pop => s.main none .done (.single (.popping .endless))
  | .popWithin ms => s.main (some ms) .timedOut (.single (.popping .limited))
  | .tryPop => s.main none .empty (.single (.popping .never))
  | .clear => s.main none .done (.single .clearing)
  | .show spreadOut => (.text (s.outline.shown spreadOut), s)
  | .spawnPop id ms =>
    let wait := if ms.isSome then .limited else .endless
    let bench := Bench.spawn (rig s.hook) id ms (.single (.popping wait)) s.bench
    (.status bench.status, { s with bench := bench })
  | .status => (.status s.bench.status, s)
  | .join ms =>
    let (results, bench) := Bench.join (rig s.hook) ms s.bench
    (.joined (results.map fun (id, ending) => (id, ending.map (resultOf .timedOut))),
      { s with bench := bench })

/-- What was seen since an earlier moment of the session. -/
def sightsSince (s earlier : Session ι) : List Sight :=
  (s.bench.notesSince earlier.bench).filterMap fun
    | (_, .note (.sight sight)) => some sight
    | _ => none

/-- What is seen when the channel goes: its items go with it, front to back, and push
nothing any more. -/
def atEnd (s : Session ι) : List Sight :=
  s.items.map fun item => .dropped item.value

/-- The report of a session that performs a list of steps. -/
def run (s : Session ι) : List (Step ι) → Report ι
  | [] => { entries := [], atEnd := s.atEnd }
  | step :: steps =>
    let (result, s') := s.step step
    let entry := { result := result, sights := s'.sightsSince s, size := s'.items.length }
    let report := s'.run steps
    { report with entries := entry :: report.entries }

end Session

end Channel

end Offload
