import Offload.Proofs.Channel.Conservation
import Offload.Proofs.Demo.Scheduling
import Offload.Proofs.Pipeline.Conservation

/-!
# The books of the demonstration

The books of the pipeline and those of the channel of signals stand side by side. What the main
thread has received is told by the point at which it stands.

## Main definitions

* `Books`: what the two books say.
* `Held`: what the point of the main thread says of the state.
* `Led`: what a step of the main thread leaves to the worker.

## Main results

* `books_of_reach`: the books are right in every state of every run.
* `Held.of_change`: what a step on the pipeline that leads from one point to another does to the
  state.
-/

namespace Offload.Demo

open Pipeline (reached ticketsAt)

variable {count : Nat} {settings : Settings} {s s' : Running} {x x' : Point}

/-- What the books of the pipeline and of the signals say. -/
structure Books (s : Running) : Prop where
  published : reached .published (pipelineOf s).history =
    reached .received (pipelineOf s).history ++
      s.shared.pipeline.finished.value.map Finished.ticket
  ordered : reached .published (pipelineOf s).history <+: reached .accepted (pipelineOf s).history
  signals : signals s = heeded s + s.shared.ready.value.length

/-- **The books.** They are right in every state of every run. -/
theorem books_of_reach (h : (machine count settings).Reach (start count) s)
    (hlive : s.aborted = false) : Books s := by
  have hpipeline := (pipeline_of_reach h).2 hlive
  obtain ⟨-, ⟨-, -, hclosing⟩, hledger, w, hstaff⟩ := Pipeline.orderly_of_reach hpipeline
  have hready := ((ready_of_reach h).2 hlive).invariant (P := Channel.Conserved) rfl
    fun _ _ _ _ hs hstep => Channel.conserved_of_step hstep hs
  refine ⟨hledger.finished, ?_, ?_⟩
  · obtain ⟨last, -, hbegun, -⟩ := Pipeline.begun_eq hledger hstaff
    have hpublished := List.prefix_append (reached .published (pipelineOf s).history) last
    rw [← hbegun] at hpublished
    refine hpublished.trans ?_
    rw [hledger.pending, hstaff.tally.taken, List.append_assoc, List.append_assoc]
    exact List.prefix_append _ _
  · rw [Demo.signals, Demo.heeded, show Channel.added _ = _ from hready, List.length_append]
    rfl

/-- What the point of the main thread says of the state. -/
structure Held (x : Point) (s : Running) : Prop where
  given : s.shared.pipeline.nextTicket = x.given
  accepted : reached .accepted (pipelineOf s).history = List.range x.accepted
  received : (reached .received (pipelineOf s).history).length = x.received
  summary : s.shared.summary.value = tally x.kept
  owned : x.shut = false →
    s.shared.pipeline.owned = true ∧ s.shared.pipeline.intake.value = true
  settled : x.settled = true → heeded s ≤ x.received

/-- What a step of the main thread leaves to the worker. -/
structure Led (s s' : Running) : Prop where
  live : s'.aborted = false
  proper : Proper s'.shared.pipeline
  signals : signals s' = signals s
  published : reached .published (pipelineOf s').history = reached .published (pipelineOf s).history

/-- What begins the numbers below a bound are the numbers below its length. -/
theorem eq_range_of_initial {tickets : List Ticket} {n : Nat} (h : tickets <+: List.range n) :
    tickets = List.range tickets.length := by
  have hlength : tickets.length ≤ n := by simpa using h.length_le
  rw [List.prefix_iff_eq_take, List.take_range, Nat.min_eq_left hlength] at h
  exact h

/-- What has been published are the first tasks, and so is what has been received. -/
theorem Held.ranges (h : Held x s) (hbooks : Books s) :
    reached .published (pipelineOf s).history =
        List.range (reached .published (pipelineOf s).history).length ∧
      reached .received (pipelineOf s).history = List.range x.received := by
  have hprefix := hbooks.ordered
  rw [h.accepted] at hprefix
  refine ⟨eq_range_of_initial hprefix, ?_⟩
  rw [← h.received]
  refine eq_range_of_initial (List.IsPrefix.trans ?_ hprefix)
  rw [hbooks.published]
  exact List.prefix_append _ _

/-- The first result that waits is that of the task after those that have been received. -/
theorem Held.front (h : Held x s) (hbooks : Books s) (hs : Proper s.shared.pipeline)
    {f : Finished Position Nat TaskError} {rest : List (Finished Position Nat TaskError)}
    (hvalue : s.shared.pipeline.finished.value = f :: rest) : f = resultOf x.received := by
  have hticket : (reached .published (pipelineOf s).history)[x.received]? = some f.ticket := by
    rw [hbooks.published, hvalue, ← h.received, List.getElem?_append_right (Nat.le_refl _),
      Nat.sub_self]
    rfl
  rw [(h.ranges hbooks).1] at hticket
  obtain ⟨_, heq⟩ := List.getElem?_eq_some_iff.mp hticket
  rw [List.getElem_range] at heq
  rw [hs.finished f (by rw [hvalue]; exact List.mem_cons_self), ← heq]

/-- A step that leaves the pipeline and the signals alone. If it changes the summary, what is in
flight has been kept. -/
theorem Held.of_visit {kept : Nat} {flight : Bool} (h : Held x s) (hidle : Idle s s')
    (hreceived : x.received = kept + flight.toNat) (hsummary : s'.shared.summary.value = tally kept)
    (hs : Proper s.shared.pipeline) :
    Held { x with kept := kept, flight := flight } s' ∧ Led s s' := by
  have hheeded : heeded s' = heeded s := by rw [heeded, hidle.signalled]
  refine ⟨⟨?_, ?_, ?_, hsummary, ?_, fun hsettled => ?_⟩, hidle.live, ?_, ?_, ?_⟩
  · rw [hidle.pipeline]
    exact h.given
  · rw [hidle.told]
    exact h.accepted
  · rw [hidle.told]
    exact h.received.trans hreceived
  · rw [hidle.pipeline]
    exact h.owned
  · rw [hheeded]
    exact (h.settled hsettled).trans_eq hreceived
  · rw [hidle.pipeline]
    exact hs
  · rw [signals, hidle.signalled]
  · rw [hidle.told]

/-- A step that leaves the value of the summary alone, too. -/
theorem Held.of_idle (h : Held x s) (hidle : Idle s s')
    (hsummary : s'.shared.summary.value = s.shared.summary.value)
    (hs : Proper s.shared.pipeline) : Held x s' ∧ Led s s' :=
  h.of_visit hidle rfl (hsummary.trans h.summary) hs

/-- **A step on the pipeline** that leads from one point to another. -/
theorem Held.of_change {t : Tid} {pipeline : Pipeline Position Nat TaskError}
    {events : List (Pipeline.Event Nat TaskError Unit)} (h : Held x s)
    (hchange : Change x x' s.shared.pipeline pipeline events)
    (hshared : s'.shared = { s.shared with pipeline := pipeline })
    (htold : (pipelineOf s').history = (pipelineOf s).history ++ events.map (Prod.mk t))
    (hready : (readyOf s').history = (readyOf s).history) (hlive : s'.aborted = false)
    (howed : signals s ≤ (reached .published (pipelineOf s).history).length)
    (hbooks : Books s') (hs : Proper s.shared.pipeline) : Held x' s' ∧ Led s s' := by
  have hsignals : Demo.signals s' = Demo.signals s := by rw [Demo.signals, hready]
  have hpublished : reached .published (pipelineOf s').history =
      reached .published (pipelineOf s).history := by
    rw [htold, Pipeline.reached_append, hchange.published, List.append_nil]
  have hreceived : (reached .received (pipelineOf s').history).length = x'.received := by
    rw [htold, Pipeline.reached_append, List.length_append, h.received, hchange.received]
  have hheeded : heeded s' = heeded s := by rw [heeded, hready]
  refine ⟨⟨?_, ?_, hreceived, ?_, fun hshut => ?_, fun hsettled => ?_⟩, hlive, ?_, ?_, ?_⟩
  · rw [hshared]
    exact hchange.given h.given
  · rw [htold, Pipeline.reached_append, h.accepted, hchange.accepted]
  · rw [hshared, hchange.kept]
    exact h.summary
  · obtain ⟨hshut, howned, hintake⟩ := hchange.shut hshut
    rw [hshared]
    exact ⟨howned.trans (h.owned hshut).1, hintake.trans (h.owned hshut).2⟩
  · rcases hchange.settled hsettled with hsettled | hnil
    · rw [hheeded, ← hchange.received]
      exact (h.settled hsettled).trans (Nat.le_add_right _ _)
    · -- nothing is left, so everything that was signalled has been received
      have hall := hbooks.published
      rw [hshared, show Pipeline.finished pipeline = _ from rfl, hnil, List.map_nil,
        List.append_nil, hpublished] at hall
      have hkept := hbooks.signals
      rw [hall, hreceived] at howed
      omega
  · rw [hshared]
    exact hchange.proper hs
  · exact hsignals
  · exact hpublished

/-- A step on the channel of signals that adds none. If it takes one out, there may be results that
the main thread has yet to receive. -/
theorem Held.of_signals {t : Tid} {events : List (Channel.Event Unit Unit)} {ready : Channel Unit}
    {settled : Bool} (h : Held x s) (hshared : s'.shared = { s.shared with ready := ready })
    (hsignalled : (readyOf s').history = (readyOf s).history ++ events.map (Prod.mk t))
    (htold : (pipelineOf s').history = (pipelineOf s).history) (hlive : s'.aborted = false)
    (hadded : Channel.added (events.flatMap Channel.Event.marks) = [])
    (hremoved : settled = true → x.settled = true ∧
      Channel.removed (events.flatMap Channel.Event.marks) = [])
    (hs : Proper s.shared.pipeline) : Held { x with settled := settled } s' ∧ Led s s' := by
  refine ⟨⟨?_, ?_, ?_, ?_, ?_, fun hsettled => ?_⟩, hlive, ?_, ?_, ?_⟩
  · rw [hshared]
    exact h.given
  · rw [htold]
    exact h.accepted
  · rw [htold]
    exact h.received
  · rw [hshared]
    exact h.summary
  · rw [hshared]
    exact h.owned
  · obtain ⟨hsettled, hremoved⟩ := hremoved hsettled
    rw [heeded, hsignalled, Channel.marksOf_append, Channel.removed_append, Channel.marksOf_map_mk,
      hremoved, List.append_nil]
    exact h.settled hsettled
  · rw [hshared]
    exact hs
  · rw [signals, hsignalled, Channel.marksOf_append, Channel.added_append, Channel.marksOf_map_mk,
      hadded, List.append_nil]
  · rw [htold]

end Offload.Demo
