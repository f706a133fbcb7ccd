import Offload.Pipeline.Calls
import Offload.Script
import Offload.Value

/-!
# Sessions with a pipeline

A session performs a list of steps on one pipeline. Three threads take part: the worker,
the **consumer**, which performs the steps, and a **porter**, who opens gates. The jobs are
**errands**, whose bodies and callbacks perform lists of actions: they log, look around,
schedule further errands, deliver results, wait at gates and open them, and fail.

The worker always goes on as far as it can before anybody else moves, so after every step it
stands at a closed gate, waits for something to do, or has ended. A step that would wait for
ever is not made, and is answered so.

## Main definitions

* `Errand`, `Errand.Action`: the jobs of a session and what they do.
* `Pipeline.Sight`: what a session observes.
* `Pipeline.Step`, `Pipeline.Result`: the steps of a session and their answers.
* `Pipeline.Session.run`: the report of a session.
-/

namespace Offload

variable {ι τ : Type}

/-! ### Errands -/

/-- What an errand may do in its body and its callbacks, and the hook at its calls. -/
inductive Errand.Action (τ : Type) where
  | log (v : Value)
  | observe
  | threadName
  /-- Waits until a gate is open. -/
  | pass (gate : String)
  | open (gate : String)
  /-- Schedules an errand, through a handle or if possible through the owner. -/
  | schedule (errand : τ) (byHandle : Bool)
  | drain (max : Nat)
  | fail (message : String)
  /-- Gives the pipeline up. -/
  | giveUp
  deriving Inhabited

/-- How the body of an errand ends. -/
inductive Errand.Ending where
  | value (v : Value)
  | error (message : String)
  | customError (v : Value)
  | fail (fault : Fault)
  deriving DecidableEq, Inhabited

/-- A job of a session. -/
structure Errand (ι : Type) where
  id : ι
  /-- Without a body an errand is an empty job. -/
  body : Option (List (Errand.Action (Errand ι)))
  ending : Errand.Ending
  onValue : Option (List (Errand.Action (Errand ι)))
  onError : Option (List (Errand.Action (Errand ι)))
  deriving Inhabited

/-- The error of an errand. -/
inductive Errand.Error where
  | task (e : TaskError)
  | custom (v : Value)
  deriving DecidableEq

/-- An action of the hook, and the number of the call at which it is due; without a number
it is due at every call. -/
structure Errand.Due (ι : Type) where
  at? : Option Nat
  action : Errand.Action (Errand ι)

namespace Pipeline

/-- How full a pipeline is, and whether its worker is busy. -/
structure Load where
  pending : Nat
  finished : Nat
  busy : Bool
  deriving DecidableEq, Repr

/-- What a session observes while its code runs. -/
inductive Sight (ι : Type) where
  | run (id : ι)
  | completed (id : ι) (v : Value)
  | failed (id : ι) (e : Errand.Error)
  | logged (v : Value)
  | observed (load : Option Load) (accepting : Bool)
  | threadName (name : String)
  | scheduled (id : ι) (outcome : Except Failure Unit)
  /-- A drain has ended; without an answer there was nobody to ask. -/
  | drained (max : Nat) (more : Option Bool)
  | hook (n : Nat)

/-- What code notes: a sight, or at its end the answer or fault of its last call. -/
inductive Note (ι : Type) where
  | sight (s : Sight ι)
  | ending (e : Except Fault Answer)

/-- What scripts demand of a pipeline. -/
inductive Demand (ι : Type) where
  | schedule (errand : Errand ι)
  | hand (errand : Errand ι)
  | drain (max : Option Nat)
  | await (wait : Channel.Wait)
  | pendingSize
  | finishedSize
  | busy
  | accepting
  | tearDown (reporting : Bool)

/-- The world of a session: the gates that are open, and the number of the hook's calls. -/
structure World where
  gates : List String := []
  /-- Whether every gate is open. -/
  allOpen : Bool := false
  hookCalls : Nat := 0

/-- Whether a gate is open. -/
def World.isOpen (w : World) (gate : String) : Bool :=
  w.allOpen || w.gates.contains gate

/-- What a session's log holds. -/
abbrev Record (ι : Type) := Event Value Errand.Error (Note ι)

/-- A script of a session. -/
abbrev Plot (ι τ : Type) := Script (Demand ι) Answer World (Note ι) τ

/-- How the body of an errand may end, apart from a fault. -/
abbrev Outcome := Except Errand.Error Value

/-- The code of a session's threads. -/
abbrev Code (ι : Type) := Plot ι Outcome

/-! ### What errands do -/

namespace Plot

/-- Notes what is seen. -/
def see (s : Sight ι) : Plot ι Unit :=
  Script.emit (.sight s)

/-- Makes a demand and notes how it ended. -/
def single (d : Demand ι) : Plot ι Unit := do
  Script.emit (.ending (← Script.attempt d))

/-- Schedules an errand through the owner, or through a handle if there is no owner. -/
def schedule (errand : Errand ι) (byHandle : Bool) : Plot ι Answer := do
  if byHandle then Script.ask (.hand errand)
  else
    match ← Script.ask (.schedule errand) with
    | .gone => Script.ask (.hand errand)
    | answer => pure answer

/-- The size that a demand answers, if there is an owner. -/
def size? (d : Demand ι) : Plot ι (Option Nat) := do
  match ← Script.ask d with
  | .size n => pure (some n)
  | _ => pure none

/-- The truth value that a demand answers, if there is an owner. -/
def flag? (d : Demand ι) : Plot ι (Option Bool) := do
  match ← Script.ask d with
  | .flag b => pure (some b)
  | _ => pure none

/-- Looks at the pipeline. -/
def observe : Plot ι Unit := do
  let pending ← size? .pendingSize
  let finished ← size? .finishedSize
  let busy ← flag? .busy
  let accepting ← flag? .accepting
  let load := do
    pure { pending := ← pending, finished := ← finished, busy := ← busy : Load }
  see (.observed load (accepting.getD false))

/-- Opens a gate. -/
def openGate (gate : String) : Plot ι Unit := do
  let _ ← Script.update fun w => { w with gates := gate :: w.gates }

/-- Opens all gates for good. -/
def openAll : Plot ι Unit := do
  let _ ← Script.update fun w => { w with allOpen := true }

/-- One action, in a pipeline whose worker's thread has the given name. -/
def act (threadName : String) : Errand.Action (Errand ι) → Plot ι Unit
  | .log v => see (.logged v)
  | .observe => observe
  | .threadName => .self fun t =>
    see (.threadName (if t = workerThread then threadName else "main"))
  | .pass gate => Script.waitFor fun w => w.isOpen gate
  | .open gate => openGate gate
  | .schedule errand byHandle => do
    match ← schedule errand byHandle with
    | .scheduled outcome => see (.scheduled errand.id outcome)
    | _ => pure ()
  | .drain max => do
    match ← Script.ask (.drain (some max)) with
    | .drained more => see (.drained max (some more))
    | _ => see (.drained max none)
  | .fail message => .fail (.text message)
  | .giveUp => do let _ ← Script.ask (.tearDown false)

/-- Several actions. -/
def actAll (threadName : String) (actions : List (Errand.Action (Errand ι))) : Plot ι Unit :=
  Script.all (actions.map (act threadName))

/-- Code whose outcome nobody looks at. -/
def quietly (p : Plot ι Unit) : Plot ι Outcome := do
  p
  pure (.ok .default)

end Plot

/-- The place at which the errors of errands are made. -/
def errandSite : Site := { file := "errand", line := 1, column := 1 }

/-- The code with which the body of an errand ends. -/
def endingCode : Errand.Ending → Plot ι Outcome
  | .value v => pure (.ok v)
  | .error message => pure (.error (.task { message := message, site := errandSite }))
  | .customError v => pure (.error (.custom v))
  | .fail fault => .fail fault

/-- The body of an errand. -/
def bodyCode (threadName : String) (e : Errand ι) (actions : List (Errand.Action (Errand ι))) :
    Plot ι Outcome := do
  Plot.see (.run e.id)
  Plot.actAll threadName actions
  endingCode e.ending

/-- The job that an errand is. -/
def jobOf (threadName : String) (e : Errand ι) : Job (Code ι) Value Errand.Error where
  body := e.body.map (bodyCode threadName e)
  onValue := e.onValue.map fun actions v => Plot.quietly do
    Plot.see (.completed e.id v)
    Plot.actAll threadName actions
  onError := e.onError.map fun actions error => Plot.quietly do
    Plot.see (.failed e.id error)
    Plot.actAll threadName actions

/-- A call of the hook: it takes its number and does what is due. -/
def hookCode (threadName : String) (actions : List (Errand.Due ι)) : Code ι :=
  Plot.quietly do
    let w ← Script.update fun w => { w with hookCalls := w.hookCalls + 1 }
    Plot.see (.hook w.hookCalls)
    Plot.actAll threadName
      ((actions.filter fun a => a.at?.all (· == w.hookCalls)).map (·.action))

/-- The request that a demand stands for. -/
def requestOf (threadName : String) : Demand ι → Request (Code ι) Value Errand.Error
  | .schedule errand => .scheduling (jobOf threadName errand)
  | .hand errand => .handing (jobOf threadName errand)
  | .drain max => .draining max
  | .await wait => .awaiting wait
  | .pendingSize => .countingPending
  | .finishedSize => .countingFinished
  | .busy => .askingBusy
  | .accepting => .askingAccepting
  | .tearDown reporting => .taking reporting

/-! ### Sessions -/

/-- A step of a session. -/
inductive Step (ι : Type) where
  | schedule (errand : Errand ι) (byHandle : Bool)
  | open (gate : String)
  /-- Delivers up to `max` results, or up to the batch of the settings. -/
  | drain (max : Option Nat)
  /-- Waits for a result and delivers it; meanwhile the porter may open a gate. -/
  | await (gate : Option String)
  /-- The same, for a number of milliseconds at most. -/
  | awaitWithin (ms : Nat) (gate : Option String)
  | show (spreadOut : Bool)
  | settings
  | showHandle (spreadOut : Bool)
  /-- Tears the pipeline down, with a report or without one. When nothing else moves, the
  porter may open all gates. -/
  | tearDown (reporting : Bool) (release : Bool)

/-- The answer to a step. -/
inductive Result where
  | done
  | scheduled (outcome : Except Failure Unit)
  | drained (more : Bool)
  | awaited (delivered : Bool)
  | text (s : String)
  | settings (s : Settings)
  | stopped (outcome : Except Failure Unit)
  | faulted (message : String)
  | wouldBlock
  | gone

/-- What one thread has shown: what it saw and what it was told. -/
inductive Shown (ι : Type) where
  | sight (s : Sight ι)
  | notice (n : Notice)

/-- A step's answer, what the worker and the consumer showed meanwhile, and how the pipeline
stands afterwards; without a load it is gone. -/
structure Account (ι : Type) where
  result : Result
  worker : List (Shown ι)
  consumer : List (Shown ι)
  load : Option Load
  accepting : Bool

/-- The thread that performs the steps. -/
def consumerThread : Tid := 1

/-- The thread that opens gates. -/
def porterThread : Tid := 2

/-- How long the porter waits before opening a gate, in milliseconds. -/
def porterDelay : Nat := 3

/-- A pipeline in use. -/
structure Session (ι : Type) where
  plan : Plan (Code ι)
  state : State (Code ι) World (Pipeline (Code ι) Value Errand.Error)
    (Call (Code ι) Value Errand.Error) Answer (Record ι)

namespace Session

/-- The machine of a session with the given plan. -/
def machineOf (plan : Plan (Code ι)) :
    Machine (Code ι) World (Pipeline (Code ι) Value Errand.Error)
      (Call (Code ι) Value Errand.Error) Answer Outcome (Record ι) :=
  Pipeline.machine plan (Script.next (requestOf plan.settings.threadName))

/-- A session with a new pipeline, and what the consumer is told at its start. -/
def start (settings : Settings) (hook : Option (List (Errand.Due ι))) :
    Except Failure (Session ι × List (Shown ι)) := do
  let plan := { settings := settings, hook := hook.map (hookCode settings.threadName) }
  let pipeline ← Pipeline.new plan
  pure
    ({ plan := plan
       state := { shared := pipeline, world := {}, threads := [workerStack, [], []] } },
      [.notice (.started settings.threadName)])

/-- Every thread goes on as far as it can, the worker first. -/
def settle (s : Session ι) (consumer : Choice) : Session ι :=
  let order := [(workerThread, .go 0), (consumerThread, consumer), (porterThread, .go 0)]
  { s with state := (machineOf s.plan).settle order Machine.patience s.state }

/-- A thread begins to run code. -/
def begin (s : Session ι) (t : Tid) (p : Plot ι Unit) : Session ι :=
  { s with state := s.state.withStack t [.code (Plot.quietly p)] }

/-- Whether the consumer has ended its step. -/
def isDone (s : Session ι) : Bool :=
  (s.state.stack consumerThread).isEmpty

/-- Whether the worker stands at a closed gate. -/
def isGated (s : Session ι) : Bool :=
  match s.state.stack workerThread with
  | .code _ :: _ => true
  | _ => false

/-- How the consumer's last call ended. -/
def ending? (s : Session ι) : Option (Except Fault Answer) :=
  s.state.log.findSome? fun
    | (t, .note (.ending e)) => if t = consumerThread then some e else none
    | _ => none

/-- The porter does something, if there is something to do. -/
def withPorter (s : Session ι) (consumer : Choice) : Option (Plot ι Unit) → Session ι
  | none => s
  | some p => (s.begin porterThread p).settle consumer

/-- The answer that the end of a call gives. -/
def resultOf : Except Fault Answer → Result
  | .ok (.scheduled outcome) => .scheduled outcome
  | .ok (.drained more) => .drained more
  | .ok (.awaited delivered) => .awaited delivered
  | .ok (.stopped outcome) => .stopped outcome
  | .ok (.size _) | .ok (.flag _) | .ok .ended => .done
  | .ok .gone => .gone
  | .error fault => .faulted fault.message

/-- The end of a step: without an end of the consumer's code nothing has happened. -/
def conclude (s finished : Session ι) : Result × Session ι :=
  if finished.isDone then
    (finished.ending?.elim .done resultOf, finished)
  else (.wouldBlock, s)

/-- The consumer runs code to its end, while the porter may do something. -/
def perform (s : Session ι) (p : Plot ι Unit) (porter : Option (Plot ι Unit)) :
    Result × Session ι :=
  s.conclude (((s.begin consumerThread p).settle (.go 0)).withPorter (.go 0) porter)

/-- The consumer runs code that waits for `ms` milliseconds at most. -/
def performWithin (s : Session ι) (ms : Nat) (p : Plot ι Unit) (porter : Option (Plot ι Unit)) :
    Result × Session ι :=
  let started := (s.begin consumerThread p).settle (.go 0)
  s.conclude <|
    if ms < porterDelay then (started.settle .expire).withPorter .expire porter
    else (started.withPorter (.go 0) porter).settle .expire

/-- How full the pipeline is, if it still has an owner. -/
def load? (s : Session ι) : Option Load :=
  let p := s.state.shared
  if p.owned then
    some { pending := p.pending.value.length, finished := p.finished.value.length, busy := p.busy }
  else none

/-- Whether tasks are accepted. -/
def accepting (s : Session ι) : Bool :=
  s.state.shared.intake.value

/-- How the pipeline is shown. -/
def outline (s : Session ι) (load : Load) : Text.Outline :=
  .record "TaskRunner"
    [("thread", .atom (Text.quoted s.plan.settings.threadName)),
      ("pending", .nat load.pending), ("finished", .nat load.finished),
      ("processing", .bool load.busy), ("running", .bool s.state.shared.joinable)] false

/-- How a handle for scheduling is shown. -/
def handleOutline (s : Session ι) : Text.Outline :=
  .record "Scheduler" [("accepting", .bool s.accepting)] true

/-- A step that needs an owner. -/
def needing (s : Session ι) (step : Load → Result × Session ι) : Result × Session ι :=
  match s.load? with
  | none => (.gone, s)
  | some load => step load

/-- The session after a step, with the answer. -/
def step (s : Session ι) : Step ι → Result × Session ι
  | .schedule errand byHandle =>
    s.perform (do
      let answer ← Plot.schedule errand byHandle
      Script.emit (.ending (.ok answer))) none
  | .open gate => (.done, (s.perform (Plot.openGate gate) none).2)
  | .drain max => s.needing fun _ => s.perform (Plot.single (.drain max)) none
  | .await gate => s.needing fun _ =>
    match s.perform (Plot.single (.await .endless)) (gate.map Plot.openGate) with
    | (.awaited _, s') => (.done, s')
    | answer => answer
  | .awaitWithin ms gate => s.needing fun _ =>
    s.performWithin ms (Plot.single (.await .limited)) (gate.map Plot.openGate)
  | .show spreadOut => s.needing fun load => (.text ((s.outline load).shown spreadOut), s)
  | .settings => s.needing fun _ => (.settings s.plan.settings, s)
  | .showHandle spreadOut => (.text (s.handleOutline.shown spreadOut), s)
  | .tearDown reporting release => s.needing fun _ =>
    if s.isGated && !release then (.wouldBlock, s)
    else
      let porter := if release then some Plot.openAll else none
      match s.perform (Plot.single (.tearDown reporting)) porter with
      | (.stopped outcome, s') => (if reporting then .stopped outcome else .done, s')
      | answer => answer

/-- What thread `t` has shown since an earlier moment of the session. -/
def shownSince (s earlier : Session ι) (t : Tid) : List (Shown ι) :=
  let news := (s.state.log.take (s.state.log.length - earlier.state.log.length)).reverse
  news.filterMap fun
    | (u, .note (.sight sight)) => if u = t then some (.sight sight) else none
    | (u, .notice notice) => if u = t then some (.notice notice) else none
    | _ => none

/-- The session after a step, with a full account. -/
def stepAccount (s : Session ι) (step : Step ι) : Account ι × Session ι :=
  let (result, s') := s.step step
  ({ result := result
     worker := s'.shownSince s workerThread
     consumer := s'.shownSince s consumerThread
     load := s'.load?
     accepting := s'.accepting }, s')

/-- The accounts of a list of steps. -/
def run (s : Session ι) : List (Step ι) → List (Account ι)
  | [] => []
  | step :: steps =>
    let (account, s') := s.stepAccount step
    account :: s'.run steps

end Session

end Pipeline

end Offload
