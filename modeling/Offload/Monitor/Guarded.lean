import Offload.Machine
import Offload.Monitor.Visit

/-!
# Guarded values

A **guarded value** is a monitor used by several threads through calls: visits,
notifications, and a **lease**, which is a lock kept over several operations. The thread
that takes a lease holds its first **handle**; handles can be copied and given up, and the
lock is left when the last one is gone. A handle is used by entering it, updating the
value, and exiting. Entering twice is refused with a fault, whichever handle is entered,
and leaves everything as it was.

## Main definitions

* `Guarded`: a monitor and the lease that may be out on it.
* `Guarded.Call`: the calls on a guarded value.
* `Guarded.turn`: one atomic step of a call.
* `Guarded.machine`: the machine in which threads make such calls.
-/

namespace Offload

variable {κ ω α β ρ ε : Type}

/-- A lock kept by its holder over several operations. -/
structure Lease where
  holder : Tid
  handles : Nat
  /-- Whether some handle is entered at the moment. -/
  entered : Bool := false
  deriving DecidableEq, Repr

/-- A monitor and the lease that may be out on it. -/
structure Guarded (α : Type) where
  monitor : Monitor α
  lease : Option Lease := none
  deriving DecidableEq, Repr

namespace Guarded

/-- A guarded value that nobody uses yet. -/
def new (value : α) : Guarded α :=
  { monitor := { value := value } }

/-- The calls on a guarded value. -/
inductive Call (α β : Type) where
  | visit (visit : Visit α β) (phase : Phase β)
  | notifyOne
  | notifyAll
  /-- Takes the lock and keeps it; answers with the number of handles, which is one. -/
  | lease
  /-- Copies a handle; answers with the number of handles. -/
  | share
  /-- Gives up a handle, perhaps because of a fault; answers with the number of handles left. -/
  | unshare (faulted : Bool)
  /-- Answers with the number of handles. -/
  | handles
  /-- Enters a handle. -/
  | enter
  /-- Runs a critical section through the handle that was entered. -/
  | update (body : Critical α β)
  /-- Exits the handle that was entered. -/
  | exit
  /-- Runs a critical section without the lock, which only a sole user may do. -/
  | exclusive (body : Critical α β)

/-- A visit at its beginning. -/
def Call.visiting (v : Visit α β) : Call α β :=
  .visit v .arriving

/-- A call as code makes it: a visit begins with its arrival. -/
def Call.fresh : Call α β → Call α β
  | .visit v _ => .visiting v
  | call => call

/-- What a call answers with. -/
inductive Answer (β : Type) where
  | value (b : β)
  | timedOut
  | done
  | count (n : Nat)
  deriving DecidableEq, Repr

/-- The fault of entering a handle that is entered already. -/
def reentry : Fault := .text "already entered"

/-- The turn with which a critical section ends a call. -/
def outcomeTurn : Except Fault β → Turn κ (Call α β) (Answer β)
  | .ok b => .ret (.value b)
  | .error fault => .fail fault

/-- The turn with which a visit ends its call. -/
def visitTurn : Except Fault (Option β) → Turn κ (Call α β) (Answer β)
  | .ok (some b) => .ret (.value b)
  | .ok none => .ret .timedOut
  | .error fault => .fail fault

/-- One step of a call that uses the lease, which only its holder can make. The last handle
cannot be given up while it is entered. -/
def leaseTurn (g : Guarded α) (l : Lease) :
    Call α β → Option (Guarded α × Turn κ (Call α β) (Answer β))
  | .share =>
    some ({ g with lease := some { l with handles := l.handles + 1 } },
      .ret (.count (l.handles + 1)))
  | .unshare faulted =>
    if l.handles ≤ 1 then
      if l.entered then none
      else
        some ({ monitor := if faulted then g.monitor.releaseFaulted else g.monitor.release
                lease := none }, .ret (.count 0))
    else
      some ({ g with lease := some { l with handles := l.handles - 1 } },
        .ret (.count (l.handles - 1)))
  | .handles => some (g, .ret (.count l.handles))
  | .enter =>
    if l.entered then some (g, .fail reentry)
    else some ({ g with lease := some { l with entered := true } }, .ret .done)
  | .update body =>
    if l.entered then
      let (value, outcome) := body g.monitor.value
      some ({ g with monitor := { g.monitor with value := value } }, outcomeTurn outcome)
    else none
  | .exit => some ({ g with lease := some { l with entered := false } }, .ret .done)
  | _ => none

/-- One atomic step of a call of thread `t`, if it can make one. -/
def turn (t : Tid) (choice : Choice) (g : Guarded α) (call : Call α β) :
    Option (Guarded α × Turn κ (Call α β) (Answer β)) :=
  match call with
  | .visit v phase =>
    (v.turn t choice g.monitor phase).map fun (monitor, progress) =>
      ({ g with monitor := monitor },
        match progress with
        | .on phase => .stay (.visit v phase)
        | .ended outcome => visitTurn outcome)
  | .notifyOne => some ({ g with monitor := g.monitor.notifyOne choice.pick }, .ret .done)
  | .notifyAll => some ({ g with monitor := g.monitor.notifyAll }, .ret .done)
  | .lease =>
    (g.monitor.acquire t).map fun monitor =>
      ({ monitor := monitor, lease := some { holder := t, handles := 1 } }, .ret (.count 1))
  | .exclusive body =>
    if g.monitor.owner.isNone then
      let (value, outcome) := body g.monitor.value
      some ({ g with monitor := { g.monitor with value := value } }, outcomeTurn outcome)
    else none
  | call =>
    match g.lease with
    | some l => if l.holder = t then leaseTurn g l call else none
    | none => none

/-- The machine in which threads call one guarded value. Its calls run no code of their
caller other than critical sections and predicates, so no call is ever resumed. -/
def machine (next : κ → Move κ ω (Call α β) (Answer β) ρ ε) :
    Machine κ ω (Guarded α) (Call α β) (Answer β) ρ ε where
  next position := (next position).map Call.fresh id
  turn t choice g call := (turn t choice g call).map fun (g', r) => (g', [], r)
  resume call _ := call

end Guarded

end Offload
