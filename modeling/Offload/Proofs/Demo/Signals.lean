import Offload.Proofs.Demo.Waking
import Offload.Proofs.Pipeline.Staying

/-!
# The main thread never sleeps on finished work

Signals and results wait in two channels, and the two drift apart: a drain may receive results
before their signals have been taken, and new results come between its last look and the next wait.
Still, whenever the main thread goes to wait it has received at least as many results as it has
taken signals, so no result is left whose signal is gone.

## Main results

* `worker_stays`: while the pipeline has an owner, the worker's thread is there.
* `never_sleeps_on_finished`: what is known when the main thread looks around or waits.
-/

namespace Offload.Demo

open Pipeline (reached workerThread)

variable {count owes : Nat} {settings : Settings} {s : Running} {x : Point}

/-- While the pipeline has an owner, the worker's thread is there. -/
theorem worker_stays (hreach : (machine count settings).Reach (start count) s)
    (hgoing : Going count x owes s) (howned : s.shared.pipeline.owned = true) :
    s.stack workerThread ≠ [] := by
  have hscene := (pipeline_of_reach hreach).2 hgoing.live
  obtain ⟨w, hstaff, hstaying⟩ := Pipeline.staying_of_reach hscene
  have hunqueued := Pipeline.unqueued_of_owned (Pipeline.orderly_of_reach hscene) howned
  have halive : w ≠ none := fun hnone => by
    have hhealth := hstaff.tally.health.mp hnone
    cases h : s.shared.pipeline.health with
    | alive => exact hhealth h
    | exited => exact hstaying.here hunqueued h
    | dead fault => exact hgoing.proper.sound fault h
  intro hnil
  have hpicks := hstaff.sole workerThread
  have hcalls : (pipelineOf s).calls workerThread = ⟨none, []⟩ := by
    rw [Inset.scene_calls, hnil]
    rfl
  rw [hcalls, if_pos rfl] at hpicks
  exact halive (Option.toList_eq_nil_iff.mp hpicks.symm)

/-- Whether the main thread is at the head of its loop, or has gone on from there to wait and has
got no signal. -/
def Idles (s : Running) : Prop :=
  s.stack mainThread = [.code .looking] ∨ s.stack mainThread = [.code .waiting] ∨
    ∃ p below, s.stack mainThread = .call (.ready (.pop p)) :: below ∧ p.held = none

/-- Wherever it idles, it has kept whatever it has received, and no fewer results than it has taken
signals. -/
theorem Going.of_idles (h : Going count x owes s) (hidles : Idles s) :
    ∃ kept, x = .on count kept false true := by
  have hat := h.main
  rcases hidles with hstack | hstack | ⟨p, below, hstack, hheld⟩
  · rw [hstack] at hat
    generalize hframes : [Frame.code Position.looking] = frames at hat
    cases hat with
    | looking kept => exact ⟨kept, rfl⟩
    | delivering kept =>
        rw [keeping] at hframes
        split at hframes <;> cases hframes
    | _ => cases hframes
  · rw [hstack] at hat
    generalize hframes : [Frame.code Position.waiting] = frames at hat
    cases hat with
    | waiting kept _ => exact ⟨kept, rfl⟩
    | delivering kept =>
        rw [keeping] at hframes
        split at hframes <;> cases hframes
    | _ => cases hframes
  · obtain ⟨kept, -, hx⟩ := h.of_waiting hstack hheld
    exact ⟨kept, hx⟩

/-- **The main thread never sleeps on finished work.** Whatever the number of tasks and the settings
are, and however the main thread and the worker interleave:

* when the main thread is at the head of its loop, or has gone on from there to wait and has got no
  signal, it has received each result whose signal it has taken, and its callbacks have kept what it
  has received;
* if it finds no signal then and has fewer results than there are tasks, all tasks have been
  accepted and the hook has yet to push the signal of one of them; the worker is there, and if a
  result waits, the worker is on its way to notify the main thread of it;
* if it sleeps on the channel of signals, un-notified, while a signal or a result waits, the worker
  can make a step whatever the scheduler chooses, and when it has made eight steps the main thread
  has left its sleep. -/
theorem never_sleeps_on_finished (hreach : (machine count settings).Reach (start count) s) :
    (Idles s →
      (reached .published (pipelineOf s).history).take (heeded s) <+:
          reached .received (pipelineOf s).history ∧
        s.shared.summary.value = tally (reached .received (pipelineOf s).history).length ∧
        (s.shared.ready.value = [] → s.shared.summary.value.delivered < count →
          reached .accepted (pipelineOf s).history = List.range count ∧
            (∃ ticket ∈ reached .accepted (pipelineOf s).history,
              ticket ∉ (reached .published (pipelineOf s).history).take (signals s)) ∧
            s.stack workerThread ≠ [] ∧
            (s.shared.pipeline.finished.value ≠ [] → ∃ n ≤ 8, Brings n (s.stack workerThread)))) ∧
      (mainThread ∈ s.shared.ready.sleepers →
        s.shared.ready.value ≠ [] ∨ s.shared.pipeline.finished.value ≠ [] →
        ∀ later steps,
          (machine count settings).Observed (Machine.ownSteps workerThread) s 0 later steps →
          (∃ s₁, (machine count settings).Reach s s₁ ∧ (machine count settings).Reach s₁ later ∧
            mainThread ∉ s₁.shared.ready.sleepers) ∨
          steps < 8 ∧ ∀ choice,
            ((machine count settings).step workerThread choice later).isSome = true) := by
  obtain ⟨x, owes, hgoing⟩ := going_of_reach hreach
  have hbooks := books_of_reach hreach hgoing.live
  constructor
  · intro hidles
    obtain ⟨kept, rfl⟩ := hgoing.of_idles hidles
    obtain ⟨hheeded, hreceived, hsummary⟩ := hgoing.settled hbooks rfl
    refine ⟨?_, by rw [hreceived, List.length_range]; exact hsummary, fun hready hfew => ?_⟩
    · rw [hbooks.published, hreceived, List.take_append_of_le_length (by simpa using hheeded)]
      exact List.take_prefix _ _
    · rw [hsummary, delivered_tally] at hfew
      have hsignals := hbooks.signals
      rw [hready, List.length_nil, Nat.add_zero] at hsignals
      refine ⟨hgoing.held.accepted, ⟨signals s, ?_, ?_⟩,
        worker_stays hreach hgoing (hgoing.held.owned rfl).1, fun hfinished => ?_⟩
      · rw [hgoing.held.accepted, List.mem_range]
        exact (hsignals.trans_le hheeded).trans_lt hfew
      · rw [(hgoing.held.ranges hbooks).1, List.take_range, List.mem_range]
        exact fun hlt => absurd (hlt.trans_le (Nat.min_le_left _ _)) (lt_irrefl _)
      · obtain ⟨n, hbrings⟩ :=
          hgoing.worker.brings (hgoing.owes_of_finished hbooks rfl hready hfinished)
        exact ⟨n, hbrings.le, hbrings⟩
  · intro hasleep hdone later steps hlater
    obtain ⟨n, hunheard⟩ := unheard_of_asleep hreach hasleep hdone
    have hn := hunheard.brings.le
    refine (hunheard.woken hlater).imp_right fun ⟨n', hle, hstill⟩ => ⟨?_, hstill.isSome⟩
    have hpos := hstill.brings.pos
    omega

/-- The state in which the main thread sleeps while the worker has just published the result of the
only task. -/
def onePublished : Running :=
  (machine 1 .default).settle [(workerThread, .go 0)] 10
    ((machine 1 .default).settle [(mainThread, .go 0)] 100 (start 1))

theorem never_sleeps_on_finished_onePublished :
    Idles onePublished ∧ mainThread ∈ onePublished.shared.ready.sleepers ∧
      onePublished.shared.pipeline.finished.value.length = 1 ∧
      (∃ ticket ∈ reached .accepted (pipelineOf onePublished).history,
        ticket ∉ (reached .published (pipelineOf onePublished).history).take
          (signals onePublished)) ∧
      ∃ choice, ((machine 1 .default).step workerThread choice onePublished).isSome = true := by
  have hidles : Idles onePublished := .inr (.inr ⟨⟨.limited, .asleep⟩, [.wait _], rfl, rfl⟩)
  have hasleep : mainThread ∈ onePublished.shared.ready.sleepers := by decide +kernel
  have hdone : onePublished.shared.pipeline.finished.value ≠ [] := nofun
  have hreach : (machine 1 .default).Reach (start 1) onePublished :=
    Machine.reach_settle [(workerThread, .go 0)] 10
      (Machine.reach_settle [(mainThread, .go 0)] 100 .start)
  obtain ⟨hheeded, hwoken⟩ := never_sleeps_on_finished hreach
  obtain ⟨-, -, hmissing⟩ := hheeded hidles
  obtain ⟨-, hticket, -⟩ := hmissing rfl (by decide +kernel)
  refine ⟨hidles, hasleep, rfl, hticket, .go 0, ?_⟩
  obtain ⟨s₁, hto, hfrom, hawake⟩ | ⟨-, hsome⟩ := hwoken hasleep (.inr hdone) onePublished 0 .start
  · rfl
  · exact hsome (.go 0)

end Offload.Demo
