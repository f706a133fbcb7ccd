import Offload.Demo
import Offload.Proofs.Channel.Waking
import Offload.Proofs.Inset
import Offload.Proofs.Pipeline.Runs

/-!
# The libraries of the demonstration

The demonstration holds a pipeline, the channel of the hook's signals, and the summary. Pipeline and
channel are set into it as they are, so every run of the demonstration is seen as a run of either.

## Main results

* `pipeline_of_reach`: a state of the demonstration is seen as a reachable scene of its pipeline.
* `ready_of_reach`: it is seen as a reachable scene of the channel of signals.
-/

namespace Offload.Demo

variable {count : Nat} {settings : Settings}

/-- The states of the demonstration. -/
abbrev Running := State Position Unit Shared Call Answer Event

/-- The layers of a thread of the demonstration. -/
abbrev Layers := Stack Position Call Answer

/-- The state in which the worker and the main thread are about to start. -/
def start (count : Nat) : Running :=
  { shared := { pipeline := {} }, world := (), threads := threads count }

/-- The main thread. -/
def mainThread : Tid := 1

/-- The pipeline within the demonstration. -/
def onPipeline : Inset (Pipeline Position Nat TaskError) (Pipeline.Call Position Nat TaskError)
    Pipeline.Answer (Pipeline.Event Nat TaskError Unit) Shared Call Answer Event where
  part := Shared.pipeline
  put s pipeline := { s with pipeline := pipeline }
  wrap := .pipeline
  pick
    | .pipeline call => some call
    | .ready _ | .summary _ _ => none
  answer := .pipeline
  tell := .pipeline
  hear
    | .pipeline event => some event
    | .ready _ | .finished _ => none

/-- The channel of signals within the demonstration. -/
def onReady : Inset (Channel Unit) (Channel.Call Unit) (Channel.Answer Unit)
    (Channel.Event Unit Unit) Shared Call Answer Event where
  part := Shared.ready
  put s ready := { s with ready := ready }
  wrap := .ready
  pick
    | .ready call => some call
    | .pipeline _ | .summary _ _ => none
  answer := .ready
  tell := .ready
  hear
    | .ready event => some event
    | .pipeline _ | .finished _ => none

/-- The library of the pipeline. -/
abbrev pipelineLibrary (settings : Settings) :
    Library Position (Pipeline Position Nat TaskError) (Pipeline.Call Position Nat TaskError)
      Pipeline.Answer (Except TaskError Nat) (Pipeline.Event Nat TaskError Unit) :=
  Pipeline.library (plan settings)

/-- The library of the channel of signals, which has neither a hook nor finalizers. -/
abbrev readyLibrary : Library Position (Channel Unit) (Channel.Call Unit) (Channel.Answer Unit)
    (Except TaskError Nat) (Channel.Event Unit Unit) :=
  Channel.library none fun _ => none

/-! ### Visits to the summary -/

section Turns

variable {t : Tid} {choice : Choice} {s s' : Shared} {events : List Event}
  {r : Turn Position Call Answer}

/-- A step of a visit to the summary. -/
theorem turn_summary {visit : Visit Summary Nat} {phase : Phase Nat}
    (h : turn settings t choice s (.summary visit phase) = some (s', events, r)) :
    ∃ summary progress, visit.turn t choice s.summary phase = some (summary, progress) ∧
      s' = { s with summary := summary } ∧ events = [] ∧
      r = match progress with
        | .on phase' => .stay (.summary visit phase')
        | .ended (.ok n) => .ret (.summary (n.getD 0))
        | .ended (.error fault) => .fail fault := by
  obtain ⟨⟨summary, progress⟩, hturn, heq⟩ := Option.map_eq_some_iff.mp h
  cases heq
  exact ⟨summary, progress, hturn, rfl, rfl, rfl⟩

/-- A call goes on as a call on the same. -/
theorem next_summary {visit : Visit Summary Nat} {phase : Phase Nat} {call : Call}
    (h : turn settings t choice s (.summary visit phase) = some (s', events, r))
    (hnext : r.next? = some call) : ∃ phase', call = .summary visit phase' := by
  obtain ⟨summary, progress, -, -, -, rfl⟩ := turn_summary h
  rcases progress with phase' | _ | _
  · cases hnext
    exact ⟨phase', rfl⟩
  · cases hnext
  · cases hnext

end Turns

/-! ### The insets -/

/-- The pipeline sees nothing of the signals. -/
theorem onPipeline_apart : onPipeline.Apart onReady := ⟨fun _ _ => rfl, fun _ => rfl, fun _ => rfl⟩

/-- The channel of signals sees nothing of the pipeline. -/
theorem onReady_apart : onReady.Apart onPipeline := ⟨fun _ _ => rfl, fun _ => rfl, fun _ => rfl⟩

theorem onPipeline_fits (count : Nat) (settings : Settings) :
    onPipeline.Fits (machine count settings) (pipelineLibrary settings) where
  part_put _ _ := rfl
  pick_iff call' call := by cases call' <;> simp [onPipeline]
  hear_tell _ := rfl
  turn_wrap _ _ _ _ := rfl
  turn_aside t choice s call' s' events r hpick hturn := by
    have hturn : turn settings t choice s call' = some (s', events, r) := hturn
    cases call' with
    | pipeline call => cases hpick
    | ready call => exact onPipeline_apart.aside readyLibrary call hturn
    | summary visit phase =>
        refine ⟨?_, ?_, fun call' hnext => ?_⟩
        · obtain ⟨summary, progress, -, rfl, -, -⟩ := turn_summary hturn
          rfl
        · obtain ⟨summary, progress, -, -, rfl, -⟩ := turn_summary hturn
          nofun
        · obtain ⟨phase', rfl⟩ := next_summary hturn hnext
          rfl
  resume_eq call' result := by cases call' <;> rfl
  begins position call' k call hnext hpick := by
    cases position <;> cases hnext <;> cases hpick
    · exact ⟨.scheduling _, rfl⟩
    · exact ⟨.draining none, rfl⟩
    · exact ⟨.taking true, rfl⟩
  notes position event' rest event hnext hhear := by
    cases position <;> cases hnext
    cases hhear

theorem onReady_fits (count : Nat) (settings : Settings) :
    onReady.Fits (machine count settings) readyLibrary where
  part_put _ _ := rfl
  pick_iff call' call := by cases call' <;> simp [onReady]
  hear_tell _ := rfl
  turn_wrap _ _ _ _ := rfl
  turn_aside t choice s call' s' events r hpick hturn := by
    have hturn : turn settings t choice s call' = some (s', events, r) := hturn
    cases call' with
    | ready call => cases hpick
    | pipeline call => exact onReady_apart.aside (pipelineLibrary settings) call hturn
    | summary visit phase =>
        refine ⟨?_, ?_, fun call' hnext => ?_⟩
        · obtain ⟨summary, progress, -, rfl, -, -⟩ := turn_summary hturn
          rfl
        · obtain ⟨summary, progress, -, -, rfl, -⟩ := turn_summary hturn
          nofun
        · obtain ⟨phase', rfl⟩ := next_summary hturn hnext
          rfl
  resume_eq call' result := by cases call' <;> rfl
  begins position call' k call hnext hpick := by
    cases position <;> cases hnext <;> cases hpick
    · exact ⟨.popping .limited, rfl⟩
    · exact ⟨.pushing (), rfl⟩
  notes position event' rest event hnext hhear := by
    cases position <;> cases hnext
    cases hhear

/-! ### Calls on the pipeline and on the signals -/

section Turns

variable {t : Tid} {choice : Choice} {s s' : Shared} {events : List Event}
  {r : Turn Position Call Answer}

/-- A step of a call on the pipeline. -/
theorem turn_pipeline {call : Pipeline.Call Position Nat TaskError}
    (h : turn settings t choice s (.pipeline call) = some (s', events, r)) :
    ∃ pipeline events' r',
      Pipeline.turn (plan settings) t choice s.pipeline call = some (pipeline, events', r') ∧
      s' = { s with pipeline := pipeline } ∧ events = events'.map .pipeline ∧
      r = r'.within .pipeline (fun a => .ret (.pipeline a)) .fail :=
  (onPipeline_fits 0 settings).turn_of_wrap h

/-- A step of a call on the channel of signals. -/
theorem turn_ready {call : Channel.Call Unit}
    (h : turn settings t choice s (.ready call) = some (s', events, r)) :
    ∃ ready events' r',
      Channel.turn none (fun _ => none) t choice s.ready call = some (ready, events', r') ∧
      s' = { s with ready := ready } ∧ events = events'.map .ready ∧
      r = r'.within .ready (fun a => .ret (.ready a)) .fail :=
  (onReady_fits 0 settings).turn_of_wrap h

end Turns

/-! ### Runs -/

/-- What is seen of the pipeline. -/
abbrev pipelineOf (s : Running) : Pipeline.View Position Nat TaskError Unit :=
  onPipeline.scene s

/-- What is seen of the signals. -/
abbrev readyOf (s : Running) :
    Scene (Channel Unit) (Channel.Call Unit) (Channel.Event Unit Unit) :=
  onReady.scene s

/-- The threads at the start. -/
theorem stack_start (count : Nat) (t : Tid) :
    t = Pipeline.workerThread ∧ (start count).stack t = [.call (.pipeline (.work .start))] ∨
      t = mainThread ∧ (start count).stack t = [.code (afterScheduling count 0)] ∨
      t ≠ Pipeline.workerThread ∧ t ≠ mainThread ∧ (start count).stack t = [] := by
  rcases t with _ | _ | t
  · exact .inl ⟨rfl, rfl⟩
  · exact .inr (.inl ⟨rfl, rfl⟩)
  · exact .inr (.inr ⟨nofun, nofun, rfl⟩)

theorem nested_start (count : Nat) (t : Tid) : ∃ rooted, Nested rooted ((start count).stack t) := by
  rcases stack_start count t with ⟨-, h⟩ | ⟨-, h⟩ | ⟨-, -, h⟩ <;> rw [h]
  · exact ⟨_, .call _⟩
  · exact ⟨_, .code _⟩
  · exact ⟨true, .done true⟩

theorem laid_pipeline (count : Nat) (settings : Settings) :
    onPipeline.Laid (pipelineLibrary settings) (start count) where
  nested := nested_start count
  based t hroot := by
    obtain rfl : t = Pipeline.workerThread := by
      simpa [pipelineLibrary, Pipeline.library] using hroot
    exact Inset.based_cons.mpr ⟨.work .start, rfl⟩

theorem laid_ready (count : Nat) : onReady.Laid readyLibrary (start count) where
  nested := nested_start count
  based t hroot := by cases hroot

theorem pipelineOf_start (count : Nat) : pipelineOf (start count) = Pipeline.opening := by
  refine congrArg (Scene.mk _ _) (funext fun t => ?_)
  rcases stack_start count t with ⟨rfl, h⟩ | ⟨rfl, h⟩ | ⟨ht, -, h⟩ <;> rw [h]
  · rfl
  · rfl
  · rw [if_neg ht]
    rfl

theorem readyOf_start (count : Nat) :
    readyOf (start count) = ⟨Channel.empty, [], fun _ => ⟨none, []⟩⟩ := by
  refine congrArg (Scene.mk _ _) (funext fun t => ?_)
  rcases stack_start count t with ⟨-, h⟩ | ⟨-, h⟩ | ⟨-, -, h⟩ <;> rw [h] <;> rfl

variable {s : Running}

/-- **The pipeline.** A state of the demonstration is seen as a reachable scene of its pipeline. -/
theorem pipeline_of_reach (h : (machine count settings).Reach (start count) s) :
    onPipeline.Laid (pipelineLibrary settings) s ∧
      (s.aborted = false →
        Scene.Reach (pipelineLibrary settings) Pipeline.opening (pipelineOf s)) := by
  rw [← pipelineOf_start count]
  exact (onPipeline_fits count settings).reach_scene (laid_pipeline count settings) h

/-- **The signals.** A state of the demonstration is seen as a reachable scene of the channel. -/
theorem ready_of_reach (h : (machine count settings).Reach (start count) s) :
    onReady.Laid readyLibrary s ∧
      (s.aborted = false →
        Scene.Reach readyLibrary ⟨Channel.empty, [], fun _ => ⟨none, []⟩⟩ (readyOf s)) := by
  rw [← readyOf_start count]
  exact (onReady_fits count settings).reach_scene (laid_ready count) h

/-! ### Steps of threads -/

section Steps

variable {s s' : Running} {t : Tid} {choice : Choice} {rest : Stack Position Call Answer}
  {position : Position}

/-- The number of signals that have joined the channel. -/
abbrev signals (s : Running) : Nat :=
  (Channel.added (Channel.marksOf (readyOf s).history)).length

/-- The number of signals that have been taken. -/
abbrev heeded (s : Running) : Nat :=
  (Channel.removed (Channel.marksOf (readyOf s).history)).length

/-- A step of a thread that makes a call on the pipeline. -/
theorem pipeline_of_step {call : Pipeline.Call Position Nat TaskError}
    (hstack : s.stack t = .call (.pipeline call) :: rest)
    (h : (machine count settings).step t choice s = some s') :
    ∃ pipeline events r,
      Pipeline.turn (plan settings) t choice s.shared.pipeline call = some (pipeline, events, r) ∧
      s'.shared = { s.shared with pipeline := pipeline } ∧
      (pipelineOf s').history = (pipelineOf s).history ++ events.map (Prod.mk t) ∧
      (readyOf s').history = (readyOf s).history ∧
      s'.stack t = Machine.afterTurn rest
        (r.within .pipeline (fun a => .ret (.pipeline a)) .fail) ∧
      (r ≠ .abort → s'.aborted = false) := by
  obtain ⟨pipeline, events, r, hturn, hshared, hhistory, hheard, hgoes⟩ :=
    (onPipeline_fits count settings).turn_of_step hstack h
  exact ⟨pipeline, events, r, hturn, hshared, hheard, onReady_apart.heard hhistory, hgoes⟩

/-- A step of a thread that makes a call on the channel of signals. -/
theorem ready_of_step {call : Channel.Call Unit}
    (hstack : s.stack t = .call (.ready call) :: rest)
    (h : (machine count settings).step t choice s = some s') :
    ∃ ready events r,
      Channel.turn none (fun _ => none) t choice s.shared.ready call = some (ready, events, r) ∧
      s'.shared = { s.shared with ready := ready } ∧
      (readyOf s').history = (readyOf s).history ++ events.map (Prod.mk t) ∧
      (pipelineOf s').history = (pipelineOf s).history ∧
      s'.stack t = Machine.afterTurn rest (r.within .ready (fun a => .ret (.ready a)) .fail) ∧
      (r ≠ .abort → s'.aborted = false) := by
  obtain ⟨ready, events, r, hturn, hshared, hhistory, hheard, hgoes⟩ :=
    (onReady_fits count settings).turn_of_step hstack h
  exact ⟨ready, events, r, hturn, hshared, hheard, onPipeline_apart.heard hhistory, hgoes⟩

/-- Whether a step leaves the pipeline and the signals alone, and what is known of them. -/
structure Idle (s s' : Running) : Prop where
  pipeline : s'.shared.pipeline = s.shared.pipeline
  ready : s'.shared.ready = s.shared.ready
  told : (pipelineOf s').history = (pipelineOf s).history
  signalled : (readyOf s').history = (readyOf s).history
  live : s'.aborted = false

/-- A step of a thread that visits the summary. -/
theorem summary_of_step {visit : Visit Summary Nat} {phase : Phase Nat}
    (hstack : s.stack t = .call (.summary visit phase) :: rest)
    (h : (machine count settings).step t choice s = some s') :
    ∃ progress, visit.turn t choice s.shared.summary phase = some (s'.shared.summary, progress) ∧
      Idle s s' ∧ s'.stack t = Machine.afterTurn rest (match progress with
        | .on phase' => .stay (.summary visit phase')
        | .ended (.ok n) => .ret (.summary (n.getD 0))
        | .ended (.error fault) => .fail fault) := by
  obtain ⟨shared, events', r', hturn, hshared, hhistory, hstack'⟩ :=
    Machine.turn_of_step hstack h
  obtain ⟨summary, progress, hvisit, rfl, rfl, rfl⟩ :=
    turn_summary (show turn settings t choice s.shared (.summary visit phase) = _ from hturn)
  have hsame : s'.history = s.history := hhistory.trans (List.append_nil _)
  rw [hshared]
  refine ⟨progress, hvisit, ⟨by rw [hshared], by rw [hshared], congrArg onPipeline.heard hsame,
    congrArg onReady.heard hsame, ?_⟩, hstack'⟩
  refine Machine.live_of_turn hstack h fun shared' events'' habort => ?_
  obtain ⟨summary', progress', hvisit', -, -, habort⟩ :=
    turn_summary (show turn settings t choice s.shared (.summary visit phase) = _ from habort)
  rcases progress' with _ | _ | _ <;> cases habort

/-- A step of a thread that makes no call leaves all of them alone. -/
theorem Idle.of_withStack {frames : Stack Position Call Answer} (hlive : s.aborted = false)
    (h : s' = s.withStack t frames) : Idle s s' ∧ s'.shared.summary = s.shared.summary := by
  subst h
  exact ⟨⟨rfl, rfl, rfl, rfl, hlive⟩, rfl⟩

/-- The main thread leaves all of them alone when it notes how it ends. -/
theorem Idle.of_noted {frames : Layers} {ending : Ending} (hlive : s.aborted = false)
    (h : s' = (s.withStack t frames).noting t [.finished ending]) :
    Idle s s' ∧ s'.shared.summary = s.shared.summary := by
  have hhistory : s'.history = s.history ++ [(t, .finished ending)] := by
    rw [h, State.history_noting]
    rfl
  refine ⟨⟨by rw [h]; rfl, by rw [h]; rfl, ?_, ?_, by rw [h]; exact hlive⟩, by rw [h]; rfl⟩
  · refine (congrArg onPipeline.heard hhistory).trans ?_
    rw [Inset.heard_append]
    exact List.append_nil _
  · refine (congrArg onReady.heard hhistory).trans ?_
    rw [Inset.heard_append]
    exact List.append_nil _

end Steps

end Offload.Demo
