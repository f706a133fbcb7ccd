/-!
# Threads, faults and the scheduler's choices

The words that every part of the library shares. A thread is named by a number. A piece
of code that cannot go on ends in a **fault**, which carries either a text or a value that
is not text. At every step a scheduler picks a thread and a **choice**: to go on, to be
stirred from sleep without a notification, or to find that the time of a wait is over.
-/

namespace Offload

/-- The name of a thread: its position in the list of threads. -/
abbrev Tid := Nat

/-- What a failing piece of code leaves behind. -/
inductive Fault where
  /-- A fault that carries a text. -/
  | text (message : String)
  /-- A fault whose payload is not text. -/
  | other
  deriving DecidableEq, Repr

/-- The text under which a fault is reported; a payload that is not text gets a fixed one. -/
def Fault.message : Fault → String
  | .text message => message
  | .other => "non-string panic payload"

/-- What the scheduler lets a thread do in one step. -/
inductive Choice where
  /-- Go on; `pick` says which of several sleepers a notification wakes. -/
  | go (pick : Nat)
  /-- Wake from sleep although nobody notified. -/
  | stir
  /-- Find that the time of a limited wait is over. -/
  | expire
  deriving DecidableEq, Repr

/-- Which of several sleepers a notification wakes under this choice. -/
def Choice.pick : Choice → Nat
  | .go pick => pick
  | .stir | .expire => 0

end Offload
