import Offload.Machine

/-!
# Benches

A **bench** runs a machine for one main thread and a growing list of **helpers**, each of
which makes one call that may wait. The bench lets every thread go on as far as it can, so
between two steps each helper has either ended or is asleep. Time is a number of
milliseconds that passes only when the bench lets it pass; a helper whose deadline has come
finds its time over.

A main step that would wait for ever is undone: the bench then stands as before.
-/

namespace Offload

variable {ι κ ω σ γ α ρ ε : Type}

/-- A machine together with the calls whose time has begun to count. -/
structure Rig (κ ω σ γ α ρ ε : Type) where
  machine : Machine κ ω σ γ α ρ ε
  timing : γ → Bool

/-- A thread that makes one call, under a name. A limited call waits for at most `limit`
milliseconds; it has a deadline once its time counts. -/
structure Helper (ι : Type) where
  id : ι
  thread : Tid
  limit : Option Nat
  deadline : Option Nat := none

/-- A machine's state with the helpers not yet joined and the time. The main thread is
thread 0. -/
structure Bench (ι κ ω σ γ α ε : Type) where
  state : State κ ω σ γ α ε
  helpers : List (Helper ι) := []
  clock : Nat := 0

/-- How many helpers are still at work, and how many have ended without being joined. -/
structure Status where
  waiting : Nat
  done : Nat
  deriving DecidableEq, Repr

namespace Bench

/-- Whether thread `t` has ended. -/
def ended (b : Bench ι κ ω σ γ α ε) (t : Tid) : Bool :=
  (b.state.stack t).isEmpty

/-- The event that thread `t` noted last. -/
def lastNote? (b : Bench ι κ ω σ γ α ε) (t : Tid) : Option ε :=
  (b.state.log.find? fun (u, _) => u == t).map Prod.snd

/-- What was noted since an earlier state of the bench, in order. -/
def notesSince (b earlier : Bench ι κ ω σ γ α ε) : List (Tid × ε) :=
  (b.state.log.take (b.state.log.length - earlier.state.log.length)).reverse

/-- How many helpers are at work and how many have ended. -/
def status (b : Bench ι κ ω σ γ α ε) : Status :=
  let ended := b.helpers.countP fun h => b.ended h.thread
  { waiting := b.helpers.length - ended, done := ended }

/-- What a thread with this deadline may do at this time. -/
def choiceAt (clock : Nat) (deadline : Option Nat) : Choice :=
  if deadline.any (· ≤ clock) then .expire else .go 0

/-- The order in which the bench lets threads go on: the main thread, then the helpers. -/
def order (b : Bench ι κ ω σ γ α ε) (main : Choice) : List (Tid × Choice) :=
  (0, main) :: b.helpers.map fun h => (h.thread, choiceAt b.clock h.deadline)

/-- Every thread goes on as far as it can before any deadline is set. -/
def advance (r : Rig κ ω σ γ α ρ ε) (main : Choice) (b : Bench ι κ ω σ γ α ε) :
    Bench ι κ ω σ γ α ε :=
  { b with state := r.machine.settle (b.order main) Machine.patience b.state }

/-- Whether the time of the call that a thread makes counts. -/
def isTiming (r : Rig κ ω σ γ α ρ ε) : Stack κ γ α → Bool
  | .call call :: _ => r.timing call
  | _ => false

/-- The helper with its deadline, if its time has begun to count. -/
def timed (r : Rig κ ω σ γ α ρ ε) (b : Bench ι κ ω σ γ α ε) (h : Helper ι) : Helper ι :=
  match h.limit, h.deadline with
  | some ms, none =>
    if isTiming r (b.state.stack h.thread) then { h with deadline := some (b.clock + ms) } else h
  | _, _ => h

/-- Every thread goes on as far as it can. -/
def settle (r : Rig κ ω σ γ α ρ ε) (main : Choice) (b : Bench ι κ ω σ γ α ε) :
    Bench ι κ ω σ γ α ε :=
  let b := advance r main b
  advance r main { b with helpers := b.helpers.map (timed r b) }

/-- The first deadline after now and not after `limit` that a helper still works towards. -/
def nextDeadline? (b : Bench ι κ ω σ γ α ε) (limit : Nat) : Option Nat :=
  let deadlines := b.helpers.filterMap fun h => if b.ended h.thread then none else h.deadline
  (deadlines.filter fun d => b.clock < d && d ≤ limit).min?

/-- Time passes until `limit`, or until every helper has ended; `rounds` bounds the number
of deadlines that are met on the way. -/
def passUntil (r : Rig κ ω σ γ α ρ ε) (limit : Nat) :
    Nat → Bench ι κ ω σ γ α ε → Bench ι κ ω σ γ α ε
  | 0, b => b
  | rounds + 1, b =>
    match b.nextDeadline? limit with
    | some deadline =>
      passUntil r limit rounds (settle r (.go 0) { b with clock := deadline })
    | none => if b.status.waiting = 0 then b else { b with clock := limit }

/-- Time passes until `limit`, or until every helper has ended. -/
def pass (r : Rig κ ω σ γ α ρ ε) (limit : Nat) (b : Bench ι κ ω σ γ α ε) :
    Bench ι κ ω σ γ α ε :=
  passUntil r limit (b.helpers.length + 1) b

/-- A helper begins with the given code. -/
def spawn (r : Rig κ ω σ γ α ρ ε) (id : ι) (limit : Option Nat) (code : κ)
    (b : Bench ι κ ω σ γ α ε) : Bench ι κ ω σ γ α ε :=
  let helper := { id := id, thread := b.state.threads.length, limit := limit }
  settle r (.go 0)
    { b with state := b.state.spawn [.code code], helpers := b.helpers ++ [helper] }

/-- The main thread runs code, waiting for at most `ms` milliseconds if a number is given,
and the bench answers with what the code noted last. Without an answer the code would wait
for ever, and nothing has happened. -/
def run (r : Rig κ ω σ γ α ρ ε) (ms : Option Nat) (code : κ) (b : Bench ι κ ω σ γ α ε) :
    Option (ε × Bench ι κ ω σ γ α ε) :=
  let started := settle r (.go 0) { b with state := b.state.withStack 0 [.code code] }
  let finished :=
    match started.ended 0, ms with
    | false, some ms =>
      let limit := b.clock + ms
      settle r .expire { pass r limit started with clock := limit }
    | _, _ => started
  if finished.ended 0 then (finished.lastNote? 0).map (·, finished) else none

/-- Waits at most `ms` milliseconds for the helpers, answers for each with its last note if
it has ended, and forgets those that have. -/
def join (r : Rig κ ω σ γ α ρ ε) (ms : Nat) (b : Bench ι κ ω σ γ α ε) :
    List (ι × Option ε) × Bench ι κ ω σ γ α ε :=
  let b := pass r (b.clock + ms) b
  let result h := if b.ended h.thread then b.lastNote? h.thread else none
  (b.helpers.map fun h => (h.id, result h),
    { b with helpers := b.helpers.filter fun h => !b.ended h.thread })

end Bench

end Offload
