import Offload.Bench
import Offload.Monitor.Guarded
import Offload.Script
import Offload.Value

/-!
# Sessions with a guarded value

A **session** performs a list of steps on one guarded value: the main thread edits it,
waits for it, takes and uses leases under named handles, and starts helpers that wait or
edit on threads of their own. Every step has an answer. A step that would wait for ever is
not made, and is answered so.

## Main definitions

* `Guarded.Step`, `Guarded.Result`: the steps of a session and their answers.
* `Guarded.Session.step`: the session after a step, with the answer.
* `Guarded.Session.run`: the answers to a list of steps.
-/

namespace Offload.Guarded

variable {ι : Type}

/-- A step of a session. -/
inductive Step (ι : Type) where
  | withLock (edit : Edit)
  | waitThen (ms : Option Nat) (check : Check) (edit : Edit)
  | spawnWait (id : ι) (ms : Option Nat) (check : Check) (edit : Edit)
  | spawnWithLock (id : ι) (edit : Edit)
  | notifyOne
  | notifyAll
  | status
  | join (ms : Nat)
  /-- Takes a lease and gives its first handle a name. -/
  | lease (handle : String)
  /-- Copies the handle `source` under a name; a handle of that name is given up afterwards. -/
  | share (handle source : String)
  | unshare (handle : String)
  | handleEdit (handle : String) (edit : Edit)
  /-- Edits through one handle and, before exiting it, enters another one. -/
  | handleNested (handle inner : String) (edit : Edit)
  | handleCount (handle : String)
  | handleShow (handle : String) (spreadOut : Bool)
  | show (spreadOut : Bool)
  /-- Edits without the lock, which needs a sole user. -/
  | exclusive (edit : Edit)
  /-- Gives the value away; every later step finds it gone. -/
  | intoInner
  deriving Repr

/-- The answer to a step. -/
inductive Result (ι : Type) where
  | reply (reply : Reply)
  | inTime (reply : Reply)
  | timedOut
  | faulted (message : String)
  /-- A handle was entered while another one was. -/
  | reentered
  | wouldBlock
  | status (status : Status)
  | joined (results : List (ι × Option (Result ι)))
  | count (n : Nat)
  | noHandle
  | text (s : String)
  | shared
  | gone

/-- What a thread notes at the end of its code: the answer, or the fault that struck. -/
abbrev Ending := Except Fault (Answer Reply)

/-- The code of a session's threads. -/
abbrev Code := Script (Call Value Reply) (Answer Reply) Unit Ending Unit

/-- The machine of a session. The time of a wait counts from the first time that it has the
lock. -/
def rig : Rig Code Unit (Guarded Value) (Call Value Reply) (Answer Reply) Unit Ending where
  machine := Guarded.machine (Script.next id)
  timing
    | .visit _ phase => !phase.isArriving
    | _ => false

/-- Code that makes one call and notes how it ended. -/
def Code.single (call : Call Value Reply) : Code := do
  Script.emit (← Script.attempt call)

/-- Code that uses a handle: it enters, edits, and exits also when the edit failed. -/
def Code.throughHandle (edit : Edit) : Code := do
  let _ ← Script.ask .enter
  let ending ← Script.attempt (.update edit.run)
  let _ ← Script.ask .exit
  Script.emit ending

/-- Code that enters a second handle after the edit, before exiting the first. -/
def Code.nested (edit : Edit) : Code := do
  let _ ← Script.ask .enter
  let ending ← Script.attempt (.update edit.run)
  let ending ← match ending with
    | .ok _ => Script.attempt .enter
    | .error fault => pure (.error fault)
  let _ ← Script.ask .exit
  Script.emit ending

/-- Code that copies a handle and, if the copy takes the place of another handle, gives that
one up; it notes the number of handles at the end. -/
def Code.copied (replaced : Bool) : Code := do
  let count ← Script.attempt .share
  Script.emit (← if replaced then Script.attempt (.unshare false) else pure count)

/-- A guarded value in use, the names of the handles on it, and whether it was given away. -/
structure Session (ι : Type) where
  bench : Bench ι Code Unit (Guarded Value) (Call Value Reply) (Answer Reply) Ending
  handles : List String := []
  gone : Bool := false

namespace Session

/-- A session that begins with a value. -/
def new (value : Value) : Session ι :=
  { bench := { state := { shared := Guarded.new value, world := (), threads := [[]] } } }

/-- The monitor of the session. -/
def monitor (s : Session ι) : Monitor Value :=
  s.bench.state.shared.monitor

/-- How the guarded value is shown; a value whose lock is owned is not read. -/
def outline (s : Session ι) : Text.Outline :=
  let data :=
    if s.monitor.owner.isSome then .atom "\"<locked>\"" else s.monitor.value.outline
  .record "GuardedState"
    [("data", .record "Mutex" [("data", data), ("poisoned", .bool s.monitor.poisoned)] true)]
    true

/-- How a handle is shown. -/
def handleOutline (count : Nat) : Text.Outline :=
  .record "ScopedLock" [("handles", .nat count)] true

/-- The answer that the end of a thread's code gives. -/
def resultOf (limited : Bool) : Ending → Result ι
  | .ok (.value reply) => if limited then .inTime reply else .reply reply
  | .ok .timedOut => .timedOut
  | .ok .done => .reply .nothing
  | .ok (.count n) => .count n
  | .error fault => .faulted fault.message

/-- The main thread runs code. -/
def main (s : Session ι) (ms : Option Nat) (code : Code) : Option (Ending × Session ι) :=
  (Bench.run rig ms code s.bench).map fun (ending, bench) =>
    (ending, { s with bench := bench })

/-- A step of the main thread that runs code. -/
def mainStep (s : Session ι) (ms : Option Nat) (code : Code) : Result ι × Session ι :=
  match s.main ms code with
  | none => (.wouldBlock, s)
  | some (ending, s') => (resultOf ms.isSome ending, s')

/-- A step that needs a handle of a given name. -/
def needing (s : Session ι) (handle : String) (step : Result ι × Session ι) :
    Result ι × Session ι :=
  if handle ∈ s.handles then step else (.noHandle, s)

/-- A helper begins. -/
def helper (s : Session ι) (id : ι) (ms : Option Nat) (visit : Visit Value Reply) :
    Result ι × Session ι :=
  let bench := Bench.spawn rig id ms (.single (.visiting visit)) s.bench
  (.status bench.status, { s with bench := bench })

/-- The visit that waits for a check and then edits. -/
def waiting (ms : Option Nat) (check : Check) (edit : Edit) : Visit Value Reply :=
  { await := some check.run, limited := ms.isSome, body := edit.run }

/-- A notification, answered with the status of the helpers. -/
def notifying (s : Session ι) (call : Call Value Reply) : Result ι × Session ι :=
  let s' := (s.mainStep none (.single call)).2
  (.status s'.bench.status, s')

/-- Whether somebody beside the main thread, or a handle, still uses the value. -/
def inUse (s : Session ι) : Bool :=
  !s.handles.isEmpty || s.bench.status.waiting != 0

/-- The session after a step, with the answer, when the value is still there. -/
def stepPresent (s : Session ι) : Step ι → Result ι × Session ι
  | .withLock edit => s.mainStep none (.single (.visiting (Visit.plain edit.run)))
  | .waitThen ms check edit => s.mainStep ms (.single (.visiting (waiting ms check edit)))
  | .spawnWait id ms check edit => s.helper id ms (waiting ms check edit)
  | .spawnWithLock id edit => s.helper id none (Visit.plain edit.run)
  | .notifyOne => s.notifying .notifyOne
  | .notifyAll => s.notifying .notifyAll
  | .status => (.status s.bench.status, s)
  | .join ms =>
    let limited := s.bench.helpers.map fun h => h.limit.isSome
    let (results, bench) := Bench.join rig ms s.bench
    (.joined ((results.zip limited).map fun ((id, ending), limited) =>
      (id, ending.map (resultOf limited))), { s with bench := bench })
  | .lease handle =>
    match s.main none (.single .lease) with
    | none => (.wouldBlock, s)
    | some (ending, s') => (resultOf false ending, { s' with handles := [handle] })
  | .share handle source => s.needing source <|
    let replaced := s.handles.contains handle
    let (result, s') := s.mainStep none (.copied replaced)
    (result, if replaced then s' else { s' with handles := s'.handles ++ [handle] })
  | .unshare handle => s.needing handle <|
    let (result, s') := s.mainStep none (.single (.unshare false))
    (result, { s' with handles := s'.handles.erase handle })
  | .handleEdit handle edit => s.needing handle (s.mainStep none (.throughHandle edit))
  | .handleNested handle inner edit => s.needing handle <| s.needing inner <|
    match s.mainStep none (.nested edit) with
    | (.faulted _, s') => (.reentered, s')
    | answer => answer
  | .handleCount handle => s.needing handle (s.mainStep none (.single .handles))
  | .handleShow handle spreadOut => s.needing handle <|
    (.text ((handleOutline s.handles.length).shown spreadOut), s)
  | .show spreadOut => (.text (s.outline.shown spreadOut), s)
  | .exclusive edit =>
    if s.inUse then (.shared, s) else s.mainStep none (.single (.exclusive edit.run))
  | .intoInner =>
    if s.inUse then (.shared, s)
    else (.reply (.value s.monitor.value), { s with gone := true })

/-- The session after a step, with the answer. -/
def step (s : Session ι) (step : Step ι) : Result ι × Session ι :=
  if s.gone then (.gone, s) else s.stepPresent step

/-- The answers to a list of steps. -/
def run (s : Session ι) : List (Step ι) → List (Result ι)
  | [] => []
  | step :: steps =>
    let (result, s') := s.step step
    result :: s'.run steps

end Session

end Offload.Guarded
