import Offload.Thread

/-!
# Monitors

A **monitor** is a value that threads touch only while they own its lock, together with a
condition on which threads sleep until somebody notifies them. A monitor is **poisoned**
once a fault has escaped from a critical section; poisoning never bars access.

The operations here are the atomic ones: taking the lock, leaving it, falling asleep,
being taken off the condition. Falling asleep and leaving the lock are one operation, so
no notification can fall between them. A thread knows that it has been notified by no
longer finding itself among the sleepers.
-/

namespace Offload

/-- A value guarded by a lock and a condition. -/
structure Monitor (α : Type) where
  value : α
  owner : Option Tid := none
  poisoned : Bool := false
  /-- The threads asleep on the condition that nobody has notified yet, longest first. -/
  sleepers : List Tid := []
  deriving DecidableEq, Repr

/-- What runs while the lock is owned: it replaces the value and ends with a result or a
fault; what it wrote before a fault stays. -/
abbrev Critical (α β : Type) := α → α × Except Fault β

namespace Monitor

variable {α : Type}

/-- Thread `t` takes the lock, if nobody owns it. -/
def acquire (m : Monitor α) (t : Tid) : Option (Monitor α) :=
  if m.owner.isNone then some { m with owner := some t } else none

/-- The owner leaves the lock. -/
def release (m : Monitor α) : Monitor α :=
  { m with owner := none }

/-- The owner leaves the lock because of a fault, which poisons the monitor. -/
def releaseFaulted (m : Monitor α) : Monitor α :=
  { m with owner := none, poisoned := true }

/-- The owner `t` leaves the lock and falls asleep, in one step. -/
def sleep (m : Monitor α) (t : Tid) : Monitor α :=
  { m with owner := none, sleepers := m.sleepers ++ [t] }

/-- Thread `t` leaves the condition on its own, without a notification. -/
def rouse (m : Monitor α) (t : Tid) : Monitor α :=
  { m with sleepers := m.sleepers.erase t }

/-- One sleeper, if there is any, is taken off the condition. -/
def notifyOne (m : Monitor α) (pick : Nat) : Monitor α :=
  { m with sleepers := m.sleepers.eraseIdx (pick % m.sleepers.length) }

/-- Every sleeper is taken off the condition. -/
def notifyAll (m : Monitor α) : Monitor α :=
  { m with sleepers := [] }

end Monitor

end Offload
