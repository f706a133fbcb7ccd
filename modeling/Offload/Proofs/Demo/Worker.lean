import Offload.Proofs.Demo.Tasks
import Offload.Proofs.Pipeline.Duty

/-!
# The worker of the demonstration

The worker's thread is in one of a few places: in the worker's own stages, in the body of a task, or
in the hook, which signals the result that has just been published. It never comes to a fault. From
the step that publishes a result to the step that adds its signal to the channel, the worker
**owes** a signal.

## Main results

* `goes_of_turn`: the worker's own stages, one step.
* `worker_of_step`: the worker's thread, one step.
-/

namespace Offload.Demo

open Pipeline (workerThread reached ticketsAt)

variable {count : Nat} {settings : Settings} {choice : Choice}

/-! ### The worker's own stages -/

/-- The worker of the demonstration. -/
abbrev Working := Pipeline.Work Position Nat TaskError

/-- Whether the worker is in one of its own stages, with nothing but what belongs to the
demonstration. -/
def Works : Working → Prop
  | .popping p => (Channel.Call.pop p).IsSound ∧ ∀ entry, p.held = some entry → IsOwn entry
  | .entering k task | .starting k task => task = taskOf k
  | .returning f => f = resultOf f.ticket
  | .publishing p =>
      p.IsPlain ∧ p.fault? = none ∧ ∀ f, p.item? = some f → f = resultOf f.ticket
  | .resting | .leaving => True
  | .running _ _ | .failing _ | .dying _ => False

theorem works_start : Works .start := by
  refine ⟨⟨nofun, trivial⟩, fun entry h => ?_⟩
  cases h

/-- The number of signals that the worker owes before it calls the hook. -/
def owed : Working → Nat
  | .publishing (.adding _ phase) => phase.held.isSome.toNat
  | .publishing .notifying | .publishing .hooking => 1
  | _ => 0

/-- How the worker may go on when it owes `owes` signals and has published so many results in this
step. -/
inductive Goes (owes published : Nat) : Turn Position Working Unit → Prop where
  | on (w : Working) : Works w → owed w = owes + published → Goes owes published (.stay w)
  | computes (k : Ticket) : owes + published = 0 →
      Goes owes published (.run (.computing k) (.running k (taskOf k)))
  | signals : owes + published = 1 →
      Goes owes published (.run .signalling (.publishing .hooking))
  | ends : owes + published = 0 → Goes owes published (.ret ())

section Stages

variable {s s' : Pipeline Position Nat TaskError} {w : Working}
  {events : List (Pipeline.Event Nat TaskError Unit)} {r : Turn Position Working Unit}

/-- A worker that pops goes on with what it has got. -/
theorem goes_of_pop {p : Channel.Pop (Pipeline.Entry Position Nat TaskError)}
    (h : Pipeline.Work.Turned (plan settings) workerThread choice s (.popping p) s' events r)
    (hw : Works (.popping p)) (hs : Proper s) :
    Proper s' ∧ ticketsAt .published events = [] ∧ Goes 0 0 r := by
  obtain ⟨hsound, hheld⟩ := hw
  cases h with
  | @popped _ pending marks r hpop =>
      refine ⟨?_, Pipeline.Work.ticketsAt_pop hpop .published nofun, ?_⟩
      · rcases Channel.Pop.marks_of_turn hpop with ⟨hvalue, -⟩ | ⟨entry, again, -, hvalue, -⟩
        · exact hs.of_pending (by rw [hvalue]; exact List.Subset.refl _)
        · exact hs.of_pending (by rw [hvalue]; exact List.subset_cons_self _ _)
      · rcases Channel.Pop.marks_of_turn hpop with ⟨-, rfl⟩ | ⟨entry, again, -, hvalue, rfl, rfl⟩
        · have hsame := Channel.Pop.held_of_turn hpop
          rcases r with p' | ⟨code, p'⟩ | answer | fault | _
          · refine .on _ ⟨Channel.Pop.isSound_of_turn hsound hpop rfl, fun entry hentry => ?_⟩ rfl
            exact hheld entry (hsame.trans hentry)
          · exact absurd rfl ((Channel.Pop.turn_plain hpop).2 code p')
          · rcases answer with _ | ⟨ticket, task⟩ | _
            · exact .on _ works_start rfl
            · exact .on _ (hheld _ hsame) rfl
            · exact .on _ trivial rfl
          · exact absurd rfl (Channel.Pop.ne_fail_of_turn hsound hpop fault)
          · exact absurd rfl (Channel.Pop.turn_plain hpop).1
        · refine .on _ ⟨Channel.Pop.isSound_of_turn hsound hpop rfl, ?_⟩ rfl
          rintro entry' ⟨⟩
          exact hs.pending entry (by rw [hvalue]; exact List.mem_cons_self)

/-- A worker that publishes owes a signal from then on, and calls the hook. -/
theorem goes_of_push {p : Channel.Push (Finished Position Nat TaskError)}
    {finished : Channel (Finished Position Nat TaskError)}
    {marks : List (Channel.Mark (Finished Position Nat TaskError))}
    {r : Turn Position (Channel.Push (Finished Position Nat TaskError)) Unit}
    (hpush : p.turn (plan settings).hook workerThread choice s.finished =
      some (finished, marks, r)) (hw : Works (.publishing p)) :
    Goes (owed (.publishing p)) (Channel.added marks).length
      (r.within .publishing (fun () => .stay .resting) fun fault => .stay (.failing fault)) := by
  obtain ⟨hplain, hfault, hitem⟩ := hw
  cases p with
  | adding f phase =>
      obtain ⟨⟨c, progress⟩, hvisit, heq⟩ := Option.map_eq_some_iff.mp hpush
      cases heq
      obtain ⟨rfl, -, rfl⟩ | ⟨again, rfl, -, rfl⟩ | ⟨answer, rfl, -, rfl⟩ :=
        Visit.plain_cases hvisit hplain
      · exact .on _ ⟨trivial, rfl, hitem⟩ rfl
      · exact .on _ ⟨trivial, rfl, hitem⟩ rfl
      · exact .on _ ⟨trivial, rfl, nofun⟩ rfl
  | notifying =>
      cases hpush
      exact .on _ ⟨trivial, rfl, nofun⟩ rfl
  | hooking =>
      cases hpush
      exact .signals rfl
  | ending outcome =>
      rcases outcome with fault | _
      · cases hfault
      · cases hpush
        exact .on _ trivial rfl

/-- **The worker, one step.** It goes on with what belongs to the demonstration, and owes a signal
for what it publishes. -/
theorem goes_of_turn
    (h : Pipeline.Work.Turned (plan settings) workerThread choice s w s' events r)
    (hw : Works w) (hs : Proper s) :
    Proper s' ∧ Goes (owed w) (ticketsAt .published events).length r := by
  have hturned := h
  cases h with
  | popped hpop =>
      obtain ⟨hproper, hnone, hgoes⟩ := goes_of_pop hturned hw hs
      rw [hnone]
      exact ⟨hproper, hgoes⟩
  | published hpush =>
      rw [Pipeline.Work.ticketsAt_push hpush, if_pos rfl, List.length_map]
      refine ⟨?_, goes_of_push hpush hw⟩
      rcases Channel.Push.marks_of_turn hpush with ⟨hvalue, -⟩ | ⟨f, again, rfl, hvalue, -⟩
      · exact hs.of_finished (by rw [hvalue]; exact List.Subset.refl _)
      · refine ⟨hs.pending, fun f' hf' => ?_, hs.sound⟩
        rw [hvalue, List.mem_append, List.mem_singleton] at hf'
        rcases hf' with hf' | rfl
        · exact hs.finished f' hf'
        · exact hw.2.2 f' rfl
  | entered k task => exact ⟨⟨hs.pending, hs.finished, hs.sound⟩, .on _ hw rfl⟩
  | began k task =>
      obtain rfl : task = taskOf k := hw
      exact ⟨hs, .computes k rfl⟩
  | returned f =>
      refine ⟨hs, .on _ ⟨trivial, rfl, ?_⟩ rfl⟩
      rintro f' ⟨⟩
      exact hw
  | rested =>
      exact ⟨⟨hs.pending, hs.finished, hs.sound⟩, .on _ works_start rfl⟩
  | left => exact ⟨⟨hs.pending, hs.finished, fun _ => nofun⟩, .ends rfl⟩
  | failed | died => exact hw.elim

end Stages

/-! ### The worker's thread -/

/-- The worker, which waits for the hook. -/
def hooked : Frame Position Call Answer :=
  .call (.pipeline (.work (.publishing .hooking)))

/-- Whether the layers are those of the worker's thread, in a place in which it owes so many
signals. -/
inductive WorkerAt : Nat → Layers → Prop where
  | working (w : Working) : Works w → WorkerAt (owed w) [.call (.pipeline (.work w))]
  | computing (k : Ticket) : WorkerAt 0
      [.code (.computing k), .call (.pipeline (.work (.running k (taskOf k))))]
  | signalling : WorkerAt 1 [.code .signalling, hooked]
  | pushing (p : Channel.Push Unit) (rest : Except Fault Answer → Position) : p.IsPlain →
      p.fault? = none → (∀ answer, rest (.ok answer) = .ended) →
      WorkerAt p.ahead.toList.length [.call (.ready (.push p)), .wait rest, hooked]
  | signalled : WorkerAt 0 [.code .ended, hooked]
  | gone : WorkerAt 0 []

/-- What a step of the worker's thread does, where it owed `owes` signals before it and owes
`owes'` after it. -/
structure Served (owes owes' : Nat) (s s' : Running) : Prop where
  live : s'.aborted = false
  proper : Proper s'.shared.pipeline
  summary : s'.shared.summary = s.shared.summary
  intake : s'.shared.pipeline.intake = s.shared.pipeline.intake
  owned : s'.shared.pipeline.owned = s.shared.pipeline.owned
  nextTicket : s'.shared.pipeline.nextTicket = s.shared.pipeline.nextTicket
  accepted : reached .accepted (pipelineOf s').history = reached .accepted (pipelineOf s).history
  received : reached .received (pipelineOf s').history = reached .received (pipelineOf s).history
  heeded : heeded s' = heeded s
  /-- A signal is added for each result that is published. -/
  signals : signals s' + owes' + (reached .published (pipelineOf s).history).length =
    signals s + owes + (reached .published (pipelineOf s').history).length

section Steps

variable {s s' : Running} {owes owes' : Nat}

/-- A step that leaves the pipeline, the signals and the summary alone. -/
theorem Served.of_idle (h : Idle s s') (hsummary : s'.shared.summary = s.shared.summary)
    (hs : Proper s.shared.pipeline) : Served owes owes s s' where
  live := h.live
  proper := by rw [h.pipeline]; exact hs
  summary := hsummary
  intake := by rw [h.pipeline]
  owned := by rw [h.pipeline]
  nextTicket := by rw [h.pipeline]
  accepted := by rw [h.told]
  received := by rw [h.told]
  heeded := by rw [Demo.heeded, h.signalled]
  signals := by rw [Demo.signals, h.signalled, h.told]

/-- A step on the channel of signals that takes none. -/
theorem Served.of_signals {t : Tid} {events : List (Channel.Event Unit Unit)}
    {ready : Channel Unit} (hs : Proper s.shared.pipeline) (hlive : s'.aborted = false)
    (hshared : s'.shared = { s.shared with ready := ready })
    (hsignalled : (readyOf s').history = (readyOf s).history ++ events.map (Prod.mk t))
    (htold : (pipelineOf s').history = (pipelineOf s).history)
    (hremoved : Channel.removed (events.flatMap Channel.Event.marks) = [])
    (hadded : (Channel.added (events.flatMap Channel.Event.marks)).length + owes' = owes) :
    Served owes owes' s s' where
  live := hlive
  proper := by rw [hshared]; exact hs
  summary := by rw [hshared]
  intake := by rw [hshared]
  owned := by rw [hshared]
  nextTicket := by rw [hshared]
  accepted := by rw [htold]
  received := by rw [htold]
  heeded := by
    rw [Demo.heeded, hsignalled, Channel.marksOf_append, Channel.removed_append,
      Channel.marksOf_map_mk, hremoved, List.append_nil]
  signals := by
    simp only [Demo.signals, hsignalled, Channel.marksOf_append, Channel.added_append,
      Channel.marksOf_map_mk, List.length_append, htold]
    omega

/-- A step of a worker in its own stages. -/
theorem working_of_step {w : Working} (hw : Works w) (hs : Proper s.shared.pipeline)
    (hstack : s.stack workerThread = [.call (.pipeline (.work w))])
    (h : (machine count settings).step workerThread choice s = some s') :
    ∃ owes', WorkerAt owes' (s'.stack workerThread) ∧ Served (owed w) owes' s s' := by
  obtain ⟨pipeline, events, r, hturn, hshared, htold, hready, hstack', hlive⟩ :=
    pipeline_of_step hstack h
  obtain ⟨r', hwork, rfl⟩ := Pipeline.exists_of_nest hturn
  have hstep := Pipeline.Work.turned_of_turn hwork
  obtain ⟨hproper, hgoes⟩ := goes_of_turn hstep hw hs
  obtain ⟨hintake, -, howned, hnext⟩ := Pipeline.Work.frame_of_turn hstep
  have hserved : ∀ owes', owes' = owed w + (ticketsAt .published events).length →
      r' ≠ .abort → Served (owed w) owes' s s' := by
    intro owes' howes hr
    have hquiet : ∀ m : Pipeline.Milestone, Pipeline.Source.work ≠ m.source →
        reached m (pipelineOf s').history = reached m (pipelineOf s).history := by
      intro m hm
      rw [htold, Pipeline.reached_append,
        Pipeline.ticketsAt_eq_nil (Pipeline.Work.source_of_turn hstep) hm, List.append_nil]
    refine ⟨hlive ?_, by rw [hshared]; exact hproper, by rw [hshared],
      by rw [hshared]; exact hintake, by rw [hshared]; exact howned, by rw [hshared]; exact hnext,
      hquiet _ (by decide), hquiet _ (by decide), by rw [Demo.heeded, hready], ?_⟩
    · exact Pipeline.within_ne_abort hr (fun _ => nofun) fun _ => nofun
    · simp only [Demo.signals, hready, htold, Pipeline.reached_append, List.length_append]
      omega
  rw [hstack']
  cases hgoes with
  | on w' hw' howed => exact ⟨_, .working w' hw', hserved _ howed nofun⟩
  | computes k hnone => exact ⟨_, .computing k, hserved _ hnone.symm nofun⟩
  | signals hone => exact ⟨_, .signalling, hserved _ hone.symm nofun⟩
  | ends hnone => exact ⟨_, .gone, hserved _ hnone.symm nofun⟩

/-- A step of the hook's push of a signal. -/
theorem pushing_of_step {p : Channel.Push Unit} {rest : Except Fault Answer → Position}
    (hplain : p.IsPlain) (hfault : p.fault? = none) (hrest : ∀ answer, rest (.ok answer) = .ended)
    (hs : Proper s.shared.pipeline)
    (hstack : s.stack workerThread = [.call (.ready (.push p)), .wait rest, hooked])
    (h : (machine count settings).step workerThread choice s = some s') :
    ∃ owes', WorkerAt owes' (s'.stack workerThread) ∧ Served p.ahead.toList.length owes' s s' := by
  obtain ⟨ready, events, r, hturn, hshared, hsignalled, htold, hstack', hlive⟩ :=
    ready_of_step hstack h
  obtain ⟨⟨c', marks, r'⟩, hpush, heq⟩ := Option.map_eq_some_iff.mp hturn
  cases heq
  obtain ⟨hahead, hnext⟩ := Channel.Push.ahead_of_turn hpush hplain
  have hfaultAfter := Channel.Push.fault?_of_turn hpush hplain
  have hserved : r' ≠ .abort →
      Served p.ahead.toList.length (r'.next?.bind Channel.Push.ahead).toList.length s s' := by
    intro hr
    refine .of_signals hs
      (hlive (Pipeline.within_ne_abort hr (fun _ => nofun) fun _ => nofun)) hshared
      hsignalled htold ?_ ?_
    · rw [Channel.flatMap_marks]
      exact (Channel.Push.items_of_turn hpush).2
    · rw [Channel.flatMap_marks, hahead, List.length_append]
  rw [hfault] at hfaultAfter
  rw [hstack']
  rcases r' with p' | ⟨code, p'⟩ | answer | fault | _
  · exact ⟨_, .pushing p' rest (hnext p' rfl).1 hfaultAfter.symm hrest, hserved nofun⟩
  · exact absurd hpush Channel.Push.turn_ne_run
  · refine ⟨0, ?_, hserved nofun⟩
    rw [show Machine.afterTurn _ _ = [.code (rest (.ok (.ready .done))), hooked] from rfl, hrest]
    exact .signalled
  · cases hfaultAfter
  · exact absurd rfl (Channel.Push.turn_live hpush)

/-- **The worker's thread, one step.** -/
theorem worker_of_step (hat : WorkerAt owes (s.stack workerThread)) (hs : Proper s.shared.pipeline)
    (h : (machine count settings).step workerThread choice s = some s') :
    ∃ owes', WorkerAt owes' (s'.stack workerThread) ∧ Served owes owes' s s' := by
  have hlive := (Machine.stepped_of_step h).1
  have hne : s.stack workerThread ≠ [] := by
    intro hnil
    rw [Machine.step_eq_none fun _ => hnil] at h
    cases h
  -- code that ends or makes a call leaves everything else as it is
  have hidle : ∀ {owes' frames}, s' = s.withStack workerThread frames → WorkerAt owes' frames →
      WorkerAt owes' (s'.stack workerThread) ∧ Served owes' owes' s s' := by
    rintro owes' frames heq hframes
    obtain ⟨hidle, hsummary⟩ := Idle.of_withStack hlive heq
    refine ⟨?_, .of_idle hidle hsummary hs⟩
    rw [heq, State.stack_withStack_self _ hne]
    exact hframes
  generalize hstack : s.stack workerThread = frames at hat
  cases hat with
  | working w hw => exact working_of_step hw hs hstack h
  | computing k =>
      have heq := Machine.eq_of_ended hstack (show _ = some (.ok (square k)) from rfl) h
      exact ⟨_, hidle heq (.working (.returning (resultOf k)) rfl)⟩
  | signalling =>
      exact ⟨_, hidle (Machine.eq_of_called hstack rfl h)
        (.pushing (.start ()) _ trivial rfl fun _ => rfl)⟩
  | pushing p rest hplain hfault hrest => exact pushing_of_step hplain hfault hrest hs hstack h
  | signalled =>
      have heq := Machine.eq_of_ended hstack (show _ = some (.ok (.ok 0)) from rfl) h
      exact ⟨_, hidle heq (.working (.publishing (.ending (.ok ()))) ⟨trivial, rfl, nofun⟩)⟩
  | gone => exact absurd hstack hne

end Steps

end Offload.Demo
