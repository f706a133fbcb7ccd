import Offload.Monitor.Guarded
import Offload.Script

/-!
# Trials of guarded values

Threads that share one guarded value, with outcomes that no schedule changes. Each trial
lets the first thread that can go on make the next step.

## Main definitions

* `Guarded.Trial.counter`: several threads add to a number.
* `Guarded.Trial.turns`: several threads take turns.
-/

namespace Offload.Guarded.Trial

variable {α : Type}

/-- A script of a trial. -/
abbrev Plot (α τ : Type) := Script (Call α Unit) (Answer Unit) Unit Unit τ

/-- The value after all threads have gone as far as they can. -/
def run (value : α) (codes : List (Plot α Unit)) : α :=
  let machine : Machine (Plot α Unit) Unit (Guarded α) (Call α Unit) (Answer Unit) Unit Unit :=
    Guarded.machine (Script.next id)
  (machine.runAll (Guarded.new value) () (codes.map fun code => [.code code])).shared.monitor.value

/-- Makes one call. -/
def make (call : Call α Unit) : Plot α Unit := do
  let _ ← Script.ask call

/-- Each of several threads adds a number `per` times to a sum that starts at zero and is kept
modulo 2⁶⁴. -/
def counter (threads per : Nat) (summand : Int64) : Int64 :=
  let add := make (.visiting (Visit.plain fun n => (n + summand, .ok ())))
  run 0 (List.replicate threads (Script.all (List.replicate per add)))

/-- Whose turn it is, and who has had one, first turn first. -/
structure Turns where
  turn : Nat := 0
  record : List Nat := []

/-- A thread waits for its turn, takes it, and wakes everybody up. -/
def takeTurn (threads i : Nat) : Plot Turns Unit := do
  make (.visiting
    { await := some fun s => .ok (s.turn % threads == i)
      body := fun s => ({ turn := s.turn + 1, record := s.record ++ [i] }, .ok ()) })
  make .notifyAll

/-- Each of several threads takes a number of turns: who had them, in order. -/
def turns (threads rounds : Nat) : List Nat :=
  (run {} ((List.range threads).map fun i =>
    Script.all (List.replicate rounds (takeTurn threads i)))).record

end Offload.Guarded.Trial
