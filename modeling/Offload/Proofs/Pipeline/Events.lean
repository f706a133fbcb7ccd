import Offload.Pipeline

/-!
# What the events of a pipeline say

A task passes **milestones**: it is accepted, then taken by the worker or discarded, then its
body begins and returns, its result is published and at last received for delivery. The tickets
that have reached a milestone, in order, are read off the events (`ticketsAt`).

Every event has a **source**: the kind of part that notes it, or the code itself. The
**landmarks** of a teardown are the events at which it changes what others may do.
-/

namespace Offload.Pipeline

variable {κ V E ν : Type}

/-- How far a task has come. -/
inductive Milestone where
  | accepted
  | taken
  | discarded
  | begun
  | returned
  | published
  | received
  deriving DecidableEq

/-- The tickets that reach a milestone in an event. -/
def Event.reaching : Milestone → Event V E ν → List Ticket
  | .accepted, .accepted ticket => [ticket]
  | .taken, .taken ticket => [ticket]
  | .discarded, .discarded tickets => tickets
  | .begun, .began ticket => [ticket]
  | .returned, .returned ticket _ => [ticket]
  | .published, .published ticket => [ticket]
  | .received, .received ticket => [ticket]
  | _, _ => []

/-- The tickets that reach a milestone in some events, in order. -/
def ticketsAt (m : Milestone) (events : List (Event V E ν)) : List Ticket :=
  events.flatMap (Event.reaching m)

@[simp] theorem ticketsAt_nil (m : Milestone) : ticketsAt m ([] : List (Event V E ν)) = [] := rfl

@[simp] theorem ticketsAt_singleton (m : Milestone) (event : Event V E ν) :
    ticketsAt m [event] = event.reaching m := by
  simp [ticketsAt]

theorem ticketsAt_append (m : Milestone) (events events' : List (Event V E ν)) :
    ticketsAt m (events ++ events') = ticketsAt m events ++ ticketsAt m events' := by
  simp [ticketsAt]

/-- The tickets that have reached a milestone in a history, in order. -/
def reached (m : Milestone) (history : List (Tid × Event V E ν)) : List Ticket :=
  ticketsAt m (history.map Prod.snd)

/-- A step of a thread adds what its events reach. -/
theorem reached_append (m : Milestone) (history : List (Tid × Event V E ν)) (t : Tid)
    (events : List (Event V E ν)) :
    reached m (history ++ events.map (Prod.mk t)) = reached m history ++ ticketsAt m events := by
  have hsnd : Prod.snd ∘ Prod.mk t = (id : Event V E ν → Event V E ν) := rfl
  rw [reached, List.map_append, List.map_map, hsnd, List.map_id, ticketsAt_append, reached]

theorem reached_later (m : Milestone) (history later : List (Tid × Event V E ν)) :
    reached m (history ++ later) = reached m history ++ reached m later := by
  rw [reached, List.map_append, ticketsAt_append]
  rfl

/-- A task reaches a milestone in an event of the history. -/
theorem mem_reached {m : Milestone} {history : List (Tid × Event V E ν)} {t : Tid}
    {event : Event V E ν} {ticket : Ticket} (hevent : (t, event) ∈ history)
    (h : ticket ∈ event.reaching m) : ticket ∈ reached m history :=
  List.mem_flatMap.mpr ⟨event, List.mem_map.mpr ⟨(t, event), hevent, rfl⟩, h⟩

/-- What code notes makes no task reach a milestone. -/
theorem reached_note (m : Milestone) (history : List (Tid × Event V E ν)) (t : Tid) (note : ν) :
    reached m (history ++ [(t, .note note)]) = reached m history := by
  have hadds := reached_append m history t [.note note]
  have hnote : (Event.note note : Event V E ν).reaching m = [] := by cases m <;> rfl
  rwa [ticketsAt_singleton, hnote, List.append_nil] at hadds

/-! ### Sources -/

/-- The kinds of parts that note events. -/
inductive Source where
  | scheduling
  | work
  | delivery
  | teardown
  | code
  deriving DecidableEq

/-- What notes an event. -/
def Event.source : Event V E ν → Source
  | .accepted _ => .scheduling
  | .taken _ | .stopTaken | .began _ | .returned _ _ | .published _ | .hooked | .workerDied _
  | .workerExited | .notice .exiting => .work
  | .received _ | .completed _ _ | .failed _ _ | .notice .valueUnheard
  | .notice .errorUnheard => .delivery
  | .closed | .discarded _ | .stopQueued | .notice (.stopped _ _) | .notice (.cleared _)
  | .notice .ownThread | .notice (.unclean _) => .teardown
  | .note _ | .notice (.started _) => .code

/-- What makes tasks reach a milestone. -/
def Milestone.source : Milestone → Source
  | .accepted => .scheduling
  | .discarded => .teardown
  | .received => .delivery
  | .taken | .begun | .returned | .published => .work

/-- An event that makes a task reach a milestone comes from the milestone's source. -/
theorem source_of_reaching {m : Milestone} {event : Event V E ν} (h : event.reaching m ≠ []) :
    event.source = m.source := by
  cases event with
  | notice n => cases m <;> exact absurd rfl h
  | _ => cases m <;> first | rfl | exact absurd rfl h

/-- Events of other sources reach no milestone of this one. -/
theorem ticketsAt_eq_nil_of_ne {m : Milestone} {events : List (Event V E ν)}
    (h : ∀ event ∈ events, event.source ≠ m.source) : ticketsAt m events = [] := by
  rw [ticketsAt, List.flatMap_eq_nil_iff]
  intro event hevent
  cases hreach : event.reaching m with
  | nil => rfl
  | cons ticket tickets => exact absurd (source_of_reaching (by simp [hreach])) (h event hevent)

/-- Events of one source reach no milestone of another. -/
theorem ticketsAt_eq_nil {m : Milestone} {source : Source} {events : List (Event V E ν)}
    (h : ∀ event ∈ events, event.source = source) (hne : source ≠ m.source) :
    ticketsAt m events = [] := by
  refine ticketsAt_eq_nil_of_ne fun event hevent => ?_
  rw [h event hevent]
  exact hne

/-- Being told of something makes no task reach a milestone. -/
theorem ticketsAt_notices {events : List (Event V E ν)}
    (h : ∀ event ∈ events, ∃ n, event = .notice n) (m : Milestone) : ticketsAt m events = [] := by
  rw [ticketsAt, List.flatMap_eq_nil_iff]
  intro event hevent
  obtain ⟨n, rfl⟩ := h event hevent
  cases m <;> rfl

/-! ### Landmarks -/

/-- The turning points of a teardown. -/
inductive Landmark where
  /-- The intake closes. -/
  | closed
  /-- The pending tasks are discarded. -/
  | cleared
  /-- The last entry is queued. -/
  | queued
  /-- The worker's thread has been joined, and what was left has been counted. -/
  | stopped
  deriving DecidableEq

/-- The landmark that an event is. -/
def Event.landmark? : Event V E ν → Option Landmark
  | .closed => some .closed
  | .discarded _ => some .cleared
  | .stopQueued => some .queued
  | .notice (.stopped _ _) => some .stopped
  | _ => none

/-- Whether a landmark has been passed. -/
def Passed (x : Landmark) (history : List (Tid × Event V E ν)) : Prop :=
  ∃ entry ∈ history, entry.2.landmark? = some x

/-- A step of a thread passes what its events are. -/
theorem passed_append {x : Landmark} {history : List (Tid × Event V E ν)} {t : Tid}
    {events : List (Event V E ν)} :
    Passed x (history ++ events.map (Prod.mk t)) ↔
      Passed x history ∨ ∃ event ∈ events, event.landmark? = some x := by
  constructor
  · rintro ⟨entry, hentry, hx⟩
    rcases List.mem_append.mp hentry with hentry | hentry
    · exact .inl ⟨entry, hentry, hx⟩
    · obtain ⟨event, hevent, rfl⟩ := List.mem_map.mp hentry
      exact .inr ⟨event, hevent, hx⟩
  · rintro (⟨entry, hentry, hx⟩ | ⟨event, hevent, hx⟩)
    · exact ⟨entry, List.mem_append_left _ hentry, hx⟩
    · exact ⟨(t, event), List.mem_append_right _ (List.mem_map_of_mem hevent), hx⟩

/-- A landmark that has been passed has been passed. -/
theorem Passed.later {x : Landmark} {history : List (Tid × Event V E ν)} (h : Passed x history)
    (later : List (Tid × Event V E ν)) : Passed x (history ++ later) := by
  obtain ⟨entry, hentry, hx⟩ := h
  exact ⟨entry, List.mem_append_left _ hentry, hx⟩

/-- Only a teardown passes landmarks. -/
theorem source_of_landmark {event : Event V E ν} (h : event.landmark? ≠ none) :
    event.source = .teardown := by
  cases event with
  | notice n => cases n <;> first | rfl | exact absurd rfl h
  | _ => first | rfl | exact absurd rfl h

/-- Events that are not that landmark do not pass it. -/
theorem passed_append_of_ne {x : Landmark} {history : List (Tid × Event V E ν)} {t : Tid}
    {events : List (Event V E ν)} (h : ∀ event ∈ events, event.landmark? ≠ some x) :
    Passed x (history ++ events.map (Prod.mk t)) ↔ Passed x history := by
  rw [passed_append]
  refine ⟨fun hpassed => hpassed.resolve_right ?_, .inl⟩
  rintro ⟨event, hevent, hx⟩
  exact h event hevent hx

/-- How often a landmark has been passed. -/
def passes (x : Landmark) (history : List (Tid × Event V E ν)) : Nat :=
  history.countP fun entry => entry.2.landmark? = some x

theorem passes_eq_zero {x : Landmark} {history : List (Tid × Event V E ν)} :
    passes x history = 0 ↔ ¬ Passed x history := by
  simp [passes, Passed, List.countP_eq_zero]

theorem passes_append {x : Landmark} {history : List (Tid × Event V E ν)} {t : Tid}
    {events : List (Event V E ν)} :
    passes x (history ++ events.map (Prod.mk t)) =
      passes x history + events.countP fun event => event.landmark? = some x := by
  rw [passes, List.countP_append, List.countP_map, passes]
  rfl

/-- Events that are not that landmark do not pass it once more. -/
theorem passes_append_of_ne {x : Landmark} {history : List (Tid × Event V E ν)} {t : Tid}
    {events : List (Event V E ν)} (h : ∀ event ∈ events, event.landmark? ≠ some x) :
    passes x (history ++ events.map (Prod.mk t)) = passes x history := by
  have hnone : (events.countP fun event => event.landmark? = some x) = 0 := by
    rw [List.countP_eq_zero]
    intro event hevent
    simpa using h event hevent
  rw [passes_append, hnone, Nat.add_zero]

/-! ### Entries -/

/-- The tickets of the tasks that are pending. -/
def ticketsOf (entries : List (Entry κ V E)) : List Ticket :=
  entries.filterMap Entry.ticket?

@[simp] theorem ticketsOf_nil : ticketsOf ([] : List (Entry κ V E)) = [] := rfl

theorem ticketsOf_append (entries entries' : List (Entry κ V E)) :
    ticketsOf (entries ++ entries') = ticketsOf entries ++ ticketsOf entries' := by
  simp [ticketsOf]

theorem ticketsOf_cons (entry : Entry κ V E) (entries : List (Entry κ V E)) :
    ticketsOf (entry :: entries) = entry.ticket?.toList ++ ticketsOf entries := by
  cases entry <;> rfl

end Offload.Pipeline
