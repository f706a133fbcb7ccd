import Offload.Text.Outline
import Offload.Text.Quoted

/-!
# Settings

The **settings** of a pipeline: the name of its worker's thread, and how many results one
drain delivers. A batch of nothing would never drain anything, so the batch in force is at
least one, whatever the settings say.
-/

namespace Offload

/-- The settings of a pipeline. -/
structure Settings where
  threadName : String
  maxUpdates : UInt64
  deriving DecidableEq, Repr

namespace Settings

/-- The name of the worker's thread unless the settings give another one. -/
def defaultThreadName : String := "handoff-worker"

/-- The size of a batch unless the settings give another one. -/
def defaultMaxUpdates : UInt64 := 10

/-- The settings when none are given. -/
def default : Settings :=
  { threadName := defaultThreadName, maxUpdates := defaultMaxUpdates }

instance : Inhabited Settings := ⟨default⟩

/-- The number of results that one drain delivers at most. -/
def batch (s : Settings) : Nat :=
  max 1 s.maxUpdates.toNat

/-- A batch is never empty. -/
theorem one_le_batch (s : Settings) : 1 ≤ s.batch :=
  Nat.le_max_left 1 s.maxUpdates.toNat

/-- How settings are shown. -/
def outline (s : Settings) : Text.Outline :=
  .record "RunnerConfig"
    [("thread_name", .atom (Text.quoted s.threadName)),
      ("max_updates", .nat s.maxUpdates.toNat)] false

end Settings

end Offload
