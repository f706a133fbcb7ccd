import Offload.Machine
import Offload.Monitor.Visit

/-!
# Channels

A **channel** hands items from threads that push to threads that pop, first in, first out.
It is a monitor on the list of its items, so each operation touches the items in one short
visit. What runs user code runs outside that visit: after every push the channel's **hook**,
and after a clear the **finalizer** of each item that was removed, front to back.

A fault in the hook leaves the push; its item stays. A fault in a finalizer leaves the
clear after the finalizers of the remaining items have run; a second one aborts.

The parts of each operation are small automata on the channel. They are calls of the
channel's own machine, and parts of the calls of anything larger that owns channels.

## Main definitions

* `Channel`: the items under a monitor.
* `Channel.Push`, `Channel.Pop`, `Channel.Clear`: the operations and how far they have come.
* `Channel.Mark`: what happens to the items, noted at the step at which it happens.
* `Channel.Request`: what code asks of a channel.
* `Channel.Call`, `Channel.machine`: the machine in which threads use one channel.
-/

namespace Offload

variable {κ ω ρ ν ε α : Type}

/-- The items of a channel, front first, under a monitor. -/
abbrev Channel (α : Type) := Monitor (List α)

namespace Channel

/-- A channel without items. -/
def empty : Channel α :=
  { value := [] }

/-- What happens to the items of a channel. -/
inductive Mark (α : Type) where
  /-- An item joins the back. -/
  | appended (item : α)
  /-- A call of the hook begins. -/
  | hooked
  /-- The front item is handed to a pop. -/
  | popped (item : α)
  /-- All items are removed at once. -/
  | cleared (items : List α)
  /-- The finalizer of a removed item is due. -/
  | finalized (item : α)
  deriving DecidableEq, Repr

/-! ### Critical sections -/

/-- Adds an item at the back. -/
def append (item : α) : Critical (List α) Unit :=
  fun items => (items ++ [item], .ok ())

/-- Removes the front item, if there is one. -/
def takeFront : Critical (List α) (Option α)
  | [] => ([], .ok none)
  | item :: rest => (rest, .ok (some item))

/-- Removes all items. -/
def takeAll : Critical (List α) (List α) :=
  fun items => ([], .ok items)

/-- Counts the items. -/
def readSize : Critical (List α) Nat :=
  fun items => (items, .ok items.length)

/-- Whether there is an item to pop. -/
def ready (items : List α) : Except Fault Bool :=
  .ok !items.isEmpty

/-! ### Pushing -/

/-- How far a push has come. -/
inductive Push (α : Type) where
  | adding (item : α) (phase : Phase Unit)
  /-- The item is in, and a sleeper is to be notified. -/
  | notifying
  /-- The hook is to be called. -/
  | hooking
  | ending (outcome : Except Fault Unit)

/-- A push at its beginning. -/
def Push.start (item : α) : Push α :=
  .adding item .arriving

/-- One atomic step of a push by thread `t` to a channel with the given hook. -/
def Push.turn (hook : Option κ) (t : Tid) (choice : Choice) (c : Channel α) :
    Push α → Option (Channel α × List (Mark α) × Turn κ (Push α) Unit)
  | .adding item phase =>
    ((Visit.plain (append item)).turn t choice c phase).map fun (c', progress) =>
      (c', (Visit.answer? phase progress).elim [] fun () => [.appended item],
        match progress with
        | .on phase' => .stay (.adding item phase')
        | .ended (.ok _) => .stay .notifying
        | .ended (.error fault) => .fail fault)
  | .notifying => some (c.notifyOne choice.pick, [], .stay .hooking)
  | .hooking =>
    match hook with
    | none => some (c, [], .ret ())
    | some code => some (c, [.hooked], .run code .hooking)
  | .ending (.ok ()) => some (c, [], .ret ())
  | .ending (.error fault) => some (c, [], .fail fault)

/-- A push goes on when the hook has ended. -/
def Push.resume (result : Except Fault ρ) : Push α → Push α
  | .hooking => .ending (result.map fun _ => ())
  | push => push

/-! ### Popping -/

/-- How long a pop is ready to wait for an item. -/
inductive Wait where
  | endless
  | limited
  | never
  deriving DecidableEq, Repr

/-- A pop, and how far it has come. -/
structure Pop (α : Type) where
  wait : Wait
  phase : Phase (Option α)

/-- A pop at its beginning. -/
def Pop.start (wait : Wait) : Pop α :=
  { wait := wait, phase := .arriving }

/-- The visit in which a pop takes the front item. -/
def Pop.visit : Wait → Visit (List α) (Option α)
  | .endless => { await := some ready, body := takeFront }
  | .limited => { await := some ready, limited := true, body := takeFront }
  | .never => Visit.plain takeFront

/-- What follows the end of a pop's visit. A pop that is ready to wait for ever and comes
out with nothing tries again. -/
def Pop.afterVisit (wait : Wait) : Except Fault (Option (Option α)) →
    Turn κ (Pop α) (Option α)
  | .ok (some (some item)) => .ret (some item)
  | .ok (some none) => if wait = .endless then .stay (.start wait) else .ret none
  | .ok none => .ret none
  | .error fault => .fail fault

/-- One atomic step of a pop by thread `t`. -/
def Pop.turn (t : Tid) (choice : Choice) (c : Channel α) (p : Pop α) :
    Option (Channel α × List (Mark α) × Turn κ (Pop α) (Option α)) :=
  ((Pop.visit p.wait).turn t choice c p.phase).map fun (c', progress) =>
    (c', (Visit.answer? p.phase progress).join.elim [] fun item => [.popped item],
      match progress with
      | .on phase => .stay { p with phase := phase }
      | .ended outcome => Pop.afterVisit p.wait outcome)

/-! ### Counting -/

/-- One atomic step of a count of the items by thread `t`. -/
def sizeTurn (t : Tid) (choice : Choice) (c : Channel α) (phase : Phase Nat) :
    Option (Channel α × Turn κ (Phase Nat) Nat) :=
  ((Visit.plain readSize).turn t choice c phase).map fun (c', progress) =>
    (c', match progress with
      | .on phase' => .stay phase'
      | .ended (.ok n) => .ret (n.getD 0)
      | .ended (.error fault) => .fail fault)

/-! ### Clearing -/

/-- How far a clear has come. -/
inductive Clear (α : Type) where
  | taking (phase : Phase (List α))
  /-- The items of `rest` wait for their finalizers; one before them may have failed. -/
  | finalizing (count : Nat) (rest : List α) (fault : Option Fault)
  /-- Two finalizers have failed. -/
  | broken

/-- A clear at its beginning. -/
def Clear.start : Clear α :=
  .taking .arriving

/-- One atomic step of a clear by thread `t`, given the finalizers of the items. -/
def Clear.turn (finalizer : α → Option κ) (t : Tid) (choice : Choice) (c : Channel α) :
    Clear α → Option (Channel α × List (Mark α) × Turn κ (Clear α) Nat)
  | .taking phase =>
    ((Visit.plain takeAll).turn t choice c phase).map fun (c', progress) =>
      (c', (Visit.answer? phase progress).elim [] fun items => [.cleared items],
        match progress with
        | .on phase' => .stay (.taking phase')
        | .ended (.ok items) =>
          .stay (.finalizing (items.getD []).length (items.getD []) none)
        | .ended (.error fault) => .fail fault)
  | .finalizing count (item :: rest) fault =>
    some (c, [.finalized item],
      match finalizer item with
      | none => .stay (.finalizing count rest fault)
      | some code => .run code (.finalizing count rest fault))
  | .finalizing count [] none => some (c, [], .ret count)
  | .finalizing _ [] (some fault) => some (c, [], .fail fault)
  | .broken => some (c, [], .abort)

/-- A clear goes on when a finalizer has ended. -/
def Clear.resume : Except Fault ρ → Clear α → Clear α
  | .error fault, .finalizing count rest none => .finalizing count rest (some fault)
  | .error _, .finalizing _ _ (some _) => .broken
  | _, clear => clear

/-! ### The machine of one channel -/

/-- The calls on a channel. -/
inductive Call (α : Type) where
  | push (push : Push α)
  | pop (pop : Pop α)
  | size (phase : Phase Nat)
  | clear (clear : Clear α)

/-- What a call answers with. -/
inductive Answer (α : Type) where
  | done
  | item (item : Option α)
  | count (n : Nat)
  deriving DecidableEq, Repr

/-- What code asks of a channel. -/
inductive Request (α : Type) where
  | pushing (item : α)
  | popping (wait : Wait)
  | sizing
  | clearing

/-- The call that a request begins. -/
def Request.call : Request α → Call α
  | .pushing item => .push (.start item)
  | .popping wait => .pop (.start wait)
  | .sizing => .size .arriving
  | .clearing => .clear .start

/-- What the log of a channel's machine holds: marks of the channel and what code notes. -/
inductive Event (α ε : Type) where
  | mark (mark : Mark α)
  | note (note : ε)
  deriving DecidableEq, Repr

/-- A part's step as a step of the call that it is part of. -/
def embed {γ β : Type} (wrap : γ → Call α) (answer : β → Answer α)
    (r : Channel α × List (Mark α) × Turn κ γ β) :
    Channel α × List (Event α ε) × Turn κ (Call α) (Answer α) :=
  (r.1, r.2.1.map .mark, r.2.2.within wrap (fun b => .ret (answer b)) .fail)

/-- One atomic step of a call. -/
def turn (hook : Option κ) (finalizer : α → Option κ) (t : Tid) (choice : Choice)
    (c : Channel α) : Call α → Option (Channel α × List (Event α ε) × Turn κ (Call α) (Answer α))
  | .push p => (p.turn hook t choice c).map (embed .push fun _ => .done)
  | .pop p => (p.turn t choice c).map (embed .pop .item)
  | .size phase =>
    (sizeTurn t choice c phase).map fun (c', turn) => embed .size .count (c', [], turn)
  | .clear p => (p.turn finalizer t choice c).map (embed .clear .count)

/-- A call goes on when the code that it ran has ended. -/
def resume (call : Call α) (result : Except Fault ρ) : Call α :=
  match call with
  | .push p => .push (p.resume result)
  | .clear c => .clear (c.resume result)
  | call => call

/-- The machine in which threads use one channel. -/
def machine (hook : Option κ) (finalizer : α → Option κ)
    (next : κ → Move κ ω (Request α) (Answer α) ρ ν) :
    Machine κ ω (Channel α) (Call α) (Answer α) ρ (Event α ν) where
  next position := (next position).map Request.call .note
  turn := turn hook finalizer
  resume := resume

end Channel

end Offload
