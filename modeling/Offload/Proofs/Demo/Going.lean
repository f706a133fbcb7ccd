import Offload.Proofs.Demo.MainThread
import Offload.Proofs.Demo.Worker

/-!
# Every run of the demonstration

The places of the two threads and the books hold together in every state of every run: neither
thread comes to a fault, and whatever is published has been signalled, or the worker owes its
signal.

## Main results

* `going_of_reach`: every run goes on like this.
-/

namespace Offload.Demo

open Pipeline (reached workerThread)

variable {count owes : Nat} {settings : Settings} {s s' : Running} {x : Point}

/-- What holds of the demonstration when the main thread stands at a point and the worker owes so
many signals. -/
structure Going (count : Nat) (x : Point) (owes : Nat) (s : Running) : Prop where
  live : s.aborted = false
  main : MainAt count x (s.stack mainThread)
  worker : WorkerAt owes (s.stack workerThread)
  held : Held x s
  proper : Proper s.shared.pipeline
  signals : signals s + owes = (reached .published (pipelineOf s).history).length

/-- A step of the worker leaves the main thread at its point. -/
theorem Held.of_served {owes' : Nat} (h : Held x s) (hserved : Served owes owes' s s') :
    Held x s' where
  given := hserved.nextTicket.trans h.given
  accepted := hserved.accepted.trans h.accepted
  received := by rw [hserved.received]; exact h.received
  summary := by rw [hserved.summary]; exact h.summary
  owned hshut := by rw [hserved.owned, hserved.intake]; exact h.owned hshut
  settled hsettled := by rw [hserved.heeded]; exact h.settled hsettled

theorem going_start (count : Nat) : ∃ x, Going count x 0 (start count) := by
  have hstack : (start count).stack mainThread = [.code (afterScheduling count 0)] := rfl
  have hheld : Held { given := 0, accepted := 0 } (start count) :=
    ⟨rfl, rfl, rfl, rfl, fun _ => ⟨rfl, rfl⟩, fun _ => Nat.le_refl 0⟩
  refine ⟨{ given := 0, accepted := 0 }, rfl, ?_, .working .start works_start, hheld,
    ⟨List.forall_mem_nil _, List.forall_mem_nil _, nofun⟩, rfl⟩
  rw [hstack, afterScheduling]
  split
  · next hpos => exact .scheduling 0 hpos
  · next hzero =>
    obtain rfl : count = 0 := Nat.eq_zero_of_not_pos hzero
    exact .looking 0

/-- There are two threads. -/
theorem thread_of_step {t : Tid} {choice : Choice}
    (hreach : (machine count settings).Reach (start count) s)
    (h : (machine count settings).step t choice s = some s') :
    t = workerThread ∨ t = mainThread := by
  have hlt := Machine.lt_of_step h
  rw [hreach.length_threads] at hlt
  have htwo : t < 2 := hlt
  rcases t with _ | _ | t
  · exact .inl rfl
  · exact .inr rfl
  · exact absurd htwo (Nat.not_lt.mpr (Nat.le_add_left 2 t))

/-- **One step.** No result that has been kept is lost. -/
theorem going_of_step {t : Tid} {choice : Choice}
    (hreach : (machine count settings).Reach (start count) s) (hgoing : Going count x owes s)
    (h : (machine count settings).step t choice s = some s') :
    ∃ x' owes', x.kept ≤ x'.kept ∧ Going count x' owes' s' := by
  rcases thread_of_step hreach h with rfl | rfl
  · -- the worker
    obtain ⟨owes', hworker, hserved⟩ := worker_of_step hgoing.worker hgoing.proper h
    refine ⟨x, owes', Nat.le_refl _, hserved.live, ?_, hworker, hgoing.held.of_served hserved,
      hserved.proper, ?_⟩
    · rw [Machine.stack_of_step_ne h (by decide)]
      exact hgoing.main
    · have hsignals := hserved.signals
      have hbefore := hgoing.signals
      omega
  · -- the main thread
    have hbooks := books_of_reach hreach hgoing.live
    have howed : signals s ≤ (reached .published (pipelineOf s).history).length :=
      hgoing.signals ▸ Nat.le_add_right _ _
    obtain ⟨x', hkept, hmain, hheld, hled⟩ := main_of_step hgoing.main hgoing.held hgoing.proper
      hbooks (books_of_reach (hreach.step _ _ h)) howed h
    refine ⟨x', owes, hkept, hled.live, hmain, ?_, hheld, hled.proper, ?_⟩
    · rw [Machine.stack_of_step_ne h (by decide)]
      exact hgoing.worker
    · rw [hled.signals, hled.published]
      exact hgoing.signals

/-- **Every run.** -/
theorem going_of_reach (h : (machine count settings).Reach (start count) s) :
    ∃ x owes, Going count x owes s := by
  induction h with
  | start =>
      obtain ⟨x, hgoing⟩ := going_start count
      exact ⟨x, 0, hgoing⟩
  | step t choice hreach hstep ih =>
      obtain ⟨x, owes, hgoing⟩ := ih
      obtain ⟨x', owes', -, hgoing'⟩ := going_of_step hreach hgoing hstep
      exact ⟨x', owes', hgoing'⟩

/-- **The rest of a run.** -/
theorem going_of_reach_of_going (hreach : (machine count settings).Reach (start count) s)
    (hgoing : Going count x owes s) (h : (machine count settings).Reach s s') :
    ∃ x' owes', x.kept ≤ x'.kept ∧ Going count x' owes' s' := by
  induction h with
  | start => exact ⟨x, owes, Nat.le_refl _, hgoing⟩
  | step t choice hs hstep ih =>
      obtain ⟨x', owes', hkept, hgoing'⟩ := ih
      obtain ⟨x'', owes'', hkept', hgoing''⟩ := going_of_step (hreach.trans hs) hgoing' hstep
      exact ⟨x'', owes'', hkept.trans hkept', hgoing''⟩

end Offload.Demo
