import Offload.Proofs.Demo.Parts

/-!
# The tasks of the demonstration

Every task that is pending is the one that its ticket says, and so is every result that is finished.
The callbacks keep the results in the order in which they receive them, so what the summary holds is
told by the number of results that have been kept.

## Main definitions

* `taskOf`, `resultOf`: the task with a number, and its result.
* `tally`: the summary of the first results.
* `Proper`: whether nothing else is in the pipeline.
-/

namespace Offload.Demo

variable {count : Nat} {settings : Settings}

/-- The task with a number. -/
def taskOf (k : Ticket) : Task Position Nat TaskError where
  body := .computing k
  onValue := some (.keepingValue k)
  onError := some .keepingError
  onDrop := none

/-- The result of the task with a number. -/
def resultOf (k : Ticket) : Finished Position Nat TaskError where
  ticket := k
  outcome := square k
  onValue := some (.keepingValue k)
  onError := some .keepingError

/-- Whether an entry is a task of the demonstration, or ends the worker. -/
def IsOwn : Pipeline.Entry Position Nat TaskError → Prop
  | .run k task => task = taskOf k
  | .stop => True

/-- No task of the demonstration has to be destroyed. -/
theorem onDrop?_of_isOwn {entry : Pipeline.Entry Position Nat TaskError} (h : IsOwn entry) :
    entry.onDrop? = none := by
  cases entry with
  | stop => rfl
  | run k task =>
      obtain rfl : task = taskOf k := h
      rfl

/-- Whether there is nothing in the pipeline but tasks of the demonstration and their results, and
no fault has struck the worker. -/
structure Proper (s : Pipeline Position Nat TaskError) : Prop where
  pending : ∀ entry ∈ s.pending.value, IsOwn entry
  finished : ∀ f ∈ s.finished.value, f = resultOf f.ticket
  sound : ∀ fault, s.health ≠ .dead fault

/-- Fewer entries are proper too. -/
theorem Proper.of_pending {s : Pipeline Position Nat TaskError} (h : Proper s)
    {pending : Channel (Pipeline.Entry Position Nat TaskError)}
    (hsub : pending.value ⊆ s.pending.value) : Proper { s with pending := pending } :=
  ⟨fun entry hentry => h.pending entry (hsub hentry), h.finished, h.sound⟩

/-- Fewer results are proper too. -/
theorem Proper.of_finished {s : Pipeline Position Nat TaskError} (h : Proper s)
    {finished : Channel (Finished Position Nat TaskError)}
    (hsub : finished.value ⊆ s.finished.value) : Proper { s with finished := finished } :=
  ⟨h.pending, fun f hf => h.finished f (hsub hf), h.sound⟩

/-! ### Results -/

/-- The error of a task that fails on purpose. -/
def failure (k : Ticket) : TaskError :=
  { message := "task " ++ toString k ++ " failed on purpose", site := errorSite }

/-- Where the callback of a result is about to keep it. -/
def keeping (k : Ticket) : Position :=
  if k % 3 = 2 then .keepingError (failure k) else .keepingValue k (k * k)

/-- The visit in which the callback of a result keeps it. -/
def keep (k : Ticket) : Visit Summary Nat :=
  if k % 3 = 2 then keepError (failure k) else keepValue k (k * k)

theorem square_eq (k : Ticket) :
    square k = if k % 3 = 2 then .error (failure k) else .ok (k * k) := rfl

theorem callback?_resultOf (k : Ticket) : (resultOf k).callback? = some (keeping k) := by
  rw [Finished.callback?, show (resultOf k).outcome = _ from square_eq k, keeping]
  by_cases hk : k % 3 = 2 <;> simp [hk, resultOf]

theorem keep_eq (k : Ticket) : keep k = Visit.plain (keep k).body := by
  rw [keep]
  split <;> rfl

/-- A callback keeps its result and ends. -/
theorem next_keeping (k : Ticket) : ∃ rest, next count (keeping k) =
    .call (.summary (keep k) .arriving) rest ∧ ∀ answer, rest (.ok answer) = .ended := by
  rw [keeping, keep]
  split <;> exact ⟨_, rfl, fun _ => rfl⟩

/-! ### The summary -/

/-- The summary of the first `n` results. -/
def tally (n : Nat) : Summary where
  succeeded := ((List.range n).filter (· % 3 ≠ 2)).map fun k => (k, k * k)
  failed := ((List.range n).filter (· % 3 = 2)).map failure

/-- The next result is kept. -/
theorem keep_tally (k : Nat) : ((keep k).body (tally k)) = (tally (k + 1), .ok 0) := by
  rw [keep, tally, tally, List.range_succ, List.filter_append, List.filter_append]
  by_cases hk : k % 3 = 2 <;> simp [hk, keepError, keepValue, Visit.plain]

theorem delivered_tally (n : Nat) : (tally n).delivered = n := by
  induction n with
  | zero => rfl
  | succ n ih =>
      have hkept : ((keep n).body (tally n)).1 = tally (n + 1) :=
        congrArg Prod.fst (keep_tally n)
      have hlengths : (tally n).succeeded.length + (tally n).failed.length = n := ih
      rw [← hkept, keep, Summary.delivered]
      split
      · simp [keepError, Visit.plain]
        omega
      · simp [keepValue, Visit.plain]
        omega

end Offload.Demo
