import Offload.Proofs.Pipeline.Parts

/-!
# What the worker can do

The worker has a task **in hand** from the step that takes it out of the pending channel to the
step in which its body begins. A task whose body has begun is **unreturned** until the body
ends, and its result is **unpublished** until it is in the finished channel. Every step of the
worker's own accounts for these: what it had and what it got is what it passed on and what it
has (`Work.hand_of_turn`, `Work.unreturned_of_turn`, `Work.unpublished_of_turn`). Only the end of
a body by a fault loses a task, and then the worker fails.
-/

namespace Offload.Pipeline.Work

variable {κ V E ν : Type} {plan : Plan κ} {t : Tid} {choice : Choice} {s s' : Pipeline κ V E}
  {events : List (Event V E ν)} {w : Work κ V E} {r : Turn κ (Work κ V E) Unit}

/-- The task that has been taken and whose body has not begun. -/
def hand : Work κ V E → List Ticket
  | .popping p => (p.held.bind Entry.ticket?).toList
  | .entering ticket _ | .starting ticket _ => [ticket]
  | _ => []

/-- The task whose body has begun and has not returned. -/
def unreturned : Work κ V E → List Ticket
  | .running ticket _ => [ticket]
  | .returning f => [f.ticket]
  | _ => []

/-- The task whose body has returned and whose result is not published. -/
def unpublished : Work κ V E → List Ticket
  | .publishing p => p.ahead.toList.map Finished.ticket
  | _ => []

/-- The task whose body runs or has just run. -/
def current (w : Work κ V E) : List Ticket :=
  w.unpublished ++ w.unreturned

/-- Whether a fault has struck the worker. -/
def hasFailed : Work κ V E → Bool
  | .failing _ | .dying _ => true
  | _ => false

/-- Whether the worker is in a phase in which it can be: it publishes without waiting. -/
def IsProper : Work κ V E → Prop
  | .publishing p => p.IsPlain
  | _ => True

theorem length_hand_le (w : Work κ V E) : w.hand.length ≤ 1 := by
  cases w with
  | popping p =>
      rw [hand]
      cases p.held.bind Entry.ticket? <;> simp
  | entering _ _ | starting _ _ => exact Nat.le_refl _
  | running _ _ | returning _ | publishing _ | resting | leaving | failing _ | dying _ =>
      exact Nat.zero_le _

theorem length_elim_hand_le (w : Option (Work κ V E)) : (w.elim [] hand).length ≤ 1 := by
  cases w with
  | none => exact Nat.zero_le _
  | some w => exact w.length_hand_le

theorem length_current_le (w : Work κ V E) : w.current.length ≤ 1 := by
  cases w with
  | publishing p =>
      rw [current, unpublished]
      cases p.ahead <;> simp [unreturned]
  | running _ _ | returning _ => exact Nat.le_refl _
  | popping _ | entering _ _ | starting _ _ | resting | leaving | failing _ | dying _ =>
      exact Nat.zero_le _

/-- A worker that a fault has struck has no task any more. -/
theorem current_of_hasFailed {w : Work κ V E} (h : w.hasFailed = true) : w.current = [] := by
  cases w with
  | failing _ | dying _ => rfl
  | popping _ | entering _ _ | starting _ _ | running _ _ | returning _ | publishing _ | resting
  | leaving => cases h

/-- A step on the pending channel is that step. -/
theorem exists_of_onPending {γ β γ' β' : Type} {wrap : γ → γ'} {answered : β → Turn κ γ' β'}
    {failed : Fault → Turn κ γ' β'} {r : Turn κ γ' β'}
    {part : Option (Channel (Entry κ V E) × List (Channel.Mark (Entry κ V E)) × Turn κ γ β)}
    (h : part.map (s.onPending wrap answered failed) = some (s', events, r)) :
    ∃ pending marks r', part = some (pending, marks, r') ∧
      s' = { s with pending := pending } ∧ events = marks.flatMap pendingEvent ∧
      r = r'.within wrap answered failed := by
  obtain ⟨⟨pending, marks, r'⟩, hpart, heq⟩ := Option.map_eq_some_iff.mp h
  cases heq
  exact ⟨pending, marks, r', hpart, rfl, rfl, rfl⟩

/-- What one step of the worker may be. -/
inductive Turned (plan : Plan κ) (t : Tid) (choice : Choice) (s : Pipeline κ V E) :
    Work κ V E → Pipeline κ V E → List (Event V E ν) → Turn κ (Work κ V E) Unit → Prop where
  | popped {p : Channel.Pop (Entry κ V E)} {pending : Channel (Entry κ V E)}
      {marks : List (Channel.Mark (Entry κ V E))}
      {r : Turn κ (Channel.Pop (Entry κ V E)) (Option (Entry κ V E))} :
      p.turn t choice s.pending = some (pending, marks, r) →
      Turned plan t choice s (.popping p) { s with pending := pending }
        (marks.flatMap pendingEvent)
        (r.within .popping
          (fun
            | some (.run ticket task) => .stay (.entering ticket task)
            | some .stop => .stay .leaving
            | none => .stay start)
          fun fault => .stay (.failing fault))
  | entered (ticket : Ticket) (task : Task κ V E) :
      Turned plan t choice s (.entering ticket task) { s with busy := true } []
        (.stay (.starting ticket task))
  | began (ticket : Ticket) (task : Task κ V E) :
      Turned plan t choice s (.starting ticket task) s [.began ticket]
        (.run task.body (.running ticket task))
  | returned (f : Finished κ V E) :
      Turned plan t choice s (.returning f) s [.returned f.ticket f.outcome]
        (.stay (.publishing (.start f)))
  | published {p : Channel.Push (Finished κ V E)} {finished : Channel (Finished κ V E)}
      {marks : List (Channel.Mark (Finished κ V E))}
      {r : Turn κ (Channel.Push (Finished κ V E)) Unit} :
      p.turn plan.hook t choice s.finished = some (finished, marks, r) →
      Turned plan t choice s (.publishing p) { s with finished := finished }
        (marks.flatMap finishedEvent)
        (r.within .publishing (fun () => .stay .resting) fun fault => .stay (.failing fault))
  | rested : Turned plan t choice s .resting { s with busy := false } [] (.stay start)
  | left : Turned plan t choice s .leaving { s with health := .exited }
      [.notice .exiting, .workerExited] (.ret ())
  | failed (fault : Fault) : Turned plan t choice s (.failing fault) { s with busy := false } []
      (.stay (.dying fault))
  | died (fault : Fault) : Turned plan t choice s (.dying fault) { s with health := .dead fault }
      [.workerDied fault] (.fail fault)

/-- **Inversion.** Every step of the worker is one of these. -/
theorem turned_of_turn (h : w.turn plan t choice s = some (s', events, r)) :
    Turned plan t choice s w s' events r := by
  cases w with
  | popping p =>
      obtain ⟨pending, marks, r', hpop, rfl, rfl, rfl⟩ := exists_of_onPending h
      exact .popped hpop
  | publishing p =>
      obtain ⟨finished, marks, r', hpush, rfl, rfl, rfl⟩ := exists_of_onFinished h
      exact .published hpush
  | entering ticket task =>
      cases h
      exact .entered ticket task
  | starting ticket task =>
      cases h
      exact .began ticket task
  | running ticket task => cases h
  | returning f =>
      cases h
      exact .returned f
  | resting =>
      cases h
      exact .rested
  | leaving =>
      cases h
      exact .left
  | failing fault =>
      cases h
      exact .failed fault
  | dying fault =>
      cases h
      exact .died fault

/-- A pop from the pending channel makes tasks reach no other milestone than being taken. -/
theorem ticketsAt_pop {p : Channel.Pop (Entry κ V E)} {pending : Channel (Entry κ V E)}
    {marks : List (Channel.Mark (Entry κ V E))}
    {r : Turn κ (Channel.Pop (Entry κ V E)) (Option (Entry κ V E))}
    (h : p.turn t choice s.pending = some (pending, marks, r)) (m : Milestone) (hm : m ≠ .taken) :
    ticketsAt m (marks.flatMap pendingEvent : List (Event V E ν)) = [] := by
  rcases Channel.Pop.marks_of_turn h with ⟨-, rfl⟩ | ⟨entry, again, -, -, rfl, -⟩
  · rfl
  · cases entry <;> cases m <;> first | rfl | exact absurd rfl hm

/-- A push to the finished channel makes tasks reach no other milestone than being published. -/
theorem ticketsAt_push {p : Channel.Push (Finished κ V E)} {finished : Channel (Finished κ V E)}
    {marks : List (Channel.Mark (Finished κ V E))}
    {r : Turn κ (Channel.Push (Finished κ V E)) Unit}
    (h : p.turn plan.hook t choice s.finished = some (finished, marks, r)) (m : Milestone) :
    ticketsAt m (marks.flatMap finishedEvent : List (Event V E ν)) =
      if m = .published then (Channel.added marks).map Finished.ticket else [] := by
  rcases Channel.Push.marks_of_turn h with ⟨-, rfl | rfl⟩ | ⟨f, again, -, -, rfl, -⟩ <;>
    cases m <;> rfl

/-- What the worker had in hand and took is what it began and has in hand. -/
theorem hand_of_turn (h : Turned plan t choice s w s' events r) :
    w.hand ++ ticketsAt .taken events = ticketsAt .begun events ++ r.next?.elim [] hand := by
  cases h with
  | @popped p pending marks r hpop =>
      rcases Channel.Pop.marks_of_turn hpop with ⟨-, rfl⟩ | ⟨entry, again, -, -, rfl, -⟩
      · have hheld := Channel.Pop.held_of_turn hpop
        obtain ⟨hlive, hplain⟩ := Channel.Pop.turn_plain hpop
        cases r with
        | stay p' => simp [hand, hheld, Channel.Pop.heldAfter, Turn.within, Turn.next?]
        | run code p' => exact absurd rfl (hplain code p')
        | ret answer =>
            rcases answer with _ | ⟨ticket, task⟩ | _
            · rw [hand, hheld]
              rfl
            · rw [hand, hheld]
              rfl
            · rw [hand, hheld]
              rfl
        | fail fault =>
            rw [hand, hheld]
            rfl
        | abort => exact absurd rfl hlive
      · obtain ⟨hnone, p', rfl, hheld⟩ := Channel.Pop.held_of_popped hpop
        cases entry <;> simp [hand, hnone, hheld, Turn.within, Turn.next?, pendingEvent,
          Event.reaching, Entry.ticket?]
  | @published p finished marks r hpush =>
      rw [ticketsAt_push hpush, ticketsAt_push hpush]
      cases r <;> rfl
  | entered | began | returned | rested | left | failed | died => rfl

/-- A worker that runs code has nothing in hand. -/
theorem hand_of_run {code : κ} {w' : Work κ V E}
    (h : Turned plan t choice s w s' events (.run code w')) : w'.hand = [] := by
  generalize hr : (Turn.run code w' : Turn κ (Work κ V E) Unit) = r at h
  cases h with
  | began =>
      cases hr
      rfl
  | @popped p pending marks r hpop =>
      have hplain := (Channel.Pop.turn_plain hpop).2
      rcases r with p' | ⟨code', p'⟩ | answer | fault | _
      · cases hr
      · exact absurd rfl (hplain code' p')
      · rcases answer with _ | _ | _ <;> cases hr
      · cases hr
      · cases hr
  | @published p finished marks r _ =>
      cases r <;> cases hr
      rfl
  | entered | returned | rested | left | failed | died => cases hr

/-- What was unreturned and began is what returned and is unreturned. -/
theorem unreturned_of_turn (h : Turned plan t choice s w s' events r) :
    w.unreturned ++ ticketsAt .begun events =
      ticketsAt .returned events ++ r.next?.elim [] unreturned := by
  cases h with
  | @popped p pending marks r hpop =>
      rw [ticketsAt_pop hpop .begun nofun, ticketsAt_pop hpop .returned nofun]
      rcases r with _ | _ | answer | _ | _
      · rfl
      · rfl
      · rcases answer with _ | _ | _ <;> rfl
      · rfl
      · rfl
  | @published p finished marks r hpush =>
      rw [ticketsAt_push hpush, ticketsAt_push hpush]
      cases r <;> rfl
  | entered | began | returned | rested | left | failed | died => rfl

/-- What was unpublished and returned is what was published and is unpublished. -/
theorem unpublished_of_turn (h : Turned plan t choice s w s' events r) (hproper : w.IsProper) :
    w.unpublished ++ ticketsAt .returned events =
      ticketsAt .published events ++ r.next?.elim [] unpublished := by
  cases h with
  | @popped p pending marks r hpop =>
      rw [ticketsAt_pop hpop .returned nofun, ticketsAt_pop hpop .published nofun]
      rcases r with _ | _ | answer | _ | _
      · rfl
      · rfl
      · rcases answer with _ | _ | _ <;> rfl
      · rfl
      · rfl
  | @published p finished marks r hpush =>
      obtain ⟨hahead, -⟩ := Channel.Push.ahead_of_turn hpush hproper
      have hnext : (r.within .publishing (fun () => .stay .resting)
          fun fault => .stay (.failing fault) :
            Turn κ (Work κ V E) Unit).next?.elim [] unpublished =
            (r.next?.bind Channel.Push.ahead).toList.map Finished.ticket := by
        cases r <;> rfl
      rw [ticketsAt_push hpush, ticketsAt_push hpush, hnext, unpublished, hahead, List.map_append]
      exact List.append_nil _
  | entered | began | returned | rested | left | failed | died => rfl

/-! ### What the worker leaves alone -/

/-- Every event of the worker is its own. -/
theorem source_of_turn (h : Turned plan t choice s w s' events r) :
    ∀ event ∈ events, event.source = .work := by
  cases h with
  | @popped p pending marks r hpop =>
      rcases Channel.Pop.marks_of_turn hpop with ⟨-, rfl⟩ | ⟨entry, again, -, -, rfl, -⟩
      · simp
      · cases entry <;> simp [pendingEvent, Event.source]
  | @published p finished marks r hpush =>
      rcases Channel.Push.marks_of_turn hpush with ⟨-, rfl | rfl⟩ | ⟨f, again, -, -, rfl, -⟩ <;>
        simp [finishedEvent, Event.source]
  | entered | began | returned | rested | left | failed | died => simp [Event.source]

/-- The worker removes what it takes from the front of the pending channel. -/
theorem pending_of_turn (h : Turned plan t choice s w s' events r) :
    s'.pending.value <:+ s.pending.value ∧
      ticketsOf s.pending.value = ticketsAt .taken events ++ ticketsOf s'.pending.value := by
  cases h with
  | @popped p pending marks r hpop =>
      rcases Channel.Pop.marks_of_turn hpop with ⟨hvalue, rfl⟩ | ⟨entry, again, -, hvalue, rfl, -⟩
      · simp [hvalue]
      · refine ⟨⟨[entry], hvalue.symm⟩, ?_⟩
        rw [hvalue, ticketsOf_cons]
        cases entry <;> rfl
  | @published p finished marks r hpush =>
      rw [ticketsAt_push hpush]
      exact ⟨List.suffix_rfl, rfl⟩
  | entered | began | returned | rested | left | failed | died => exact ⟨List.suffix_rfl, rfl⟩

/-- The worker adds what it publishes at the back of the finished channel. -/
theorem finished_of_turn (h : Turned plan t choice s w s' events r) :
    s'.finished.value.map Finished.ticket =
      s.finished.value.map Finished.ticket ++ ticketsAt .published events := by
  cases h with
  | @popped p pending marks r hpop =>
      rw [ticketsAt_pop hpop .published nofun]
      exact (List.append_nil _).symm
  | @published p finished marks r hpush =>
      rw [ticketsAt_push hpush, if_pos rfl, (Channel.Push.items_of_turn hpush).1, List.map_append]
  | entered | began | returned | rested | left | failed | died => exact (List.append_nil _).symm

/-- The worker leaves the intake, the owner and the tickets alone. -/
theorem frame_of_turn (h : Turned plan t choice s w s' events r) :
    s'.intake = s.intake ∧ s'.joinable = s.joinable ∧ s'.owned = s.owned ∧
      s'.nextTicket = s.nextTicket := by
  cases h <;> exact ⟨rfl, rfl, rfl, rfl⟩

/-- The worker goes on and its health stays, or it ends: it exits or dies of a fault. -/
theorem health_of_turn (h : Turned plan t choice s w s' events r) :
    ((∃ w', r.next? = some w' ∧ (w'.hasFailed = false → w.hasFailed = false)) ∧
        s'.health = s.health) ∨
      r.next? = none ∧ ((w = .leaving ∧ s'.health = .exited) ∨
        ∃ fault, w = .dying fault ∧ s'.health = .dead fault) := by
  cases h with
  | @popped p pending marks r hpop =>
      obtain ⟨hlive, hplain⟩ := Channel.Pop.turn_plain hpop
      rcases r with p' | ⟨code, p'⟩ | answer | fault | _
      · exact .inl ⟨⟨_, rfl, fun _ => rfl⟩, rfl⟩
      · exact absurd rfl (hplain code p')
      · rcases answer with _ | _ | _ <;> exact .inl ⟨⟨_, rfl, fun _ => rfl⟩, rfl⟩
      · exact .inl ⟨⟨_, rfl, nofun⟩, rfl⟩
      · exact absurd rfl hlive
  | @published p finished marks r hpush =>
      have hlive := Channel.Push.turn_live hpush
      rcases r with p' | ⟨code, p'⟩ | answer | fault | _
      · exact .inl ⟨⟨_, rfl, fun _ => rfl⟩, rfl⟩
      · exact .inl ⟨⟨_, rfl, fun _ => rfl⟩, rfl⟩
      · exact .inl ⟨⟨_, rfl, fun _ => rfl⟩, rfl⟩
      · exact .inl ⟨⟨_, rfl, nofun⟩, rfl⟩
      · exact absurd rfl hlive
  | entered | began | returned | rested => exact .inl ⟨⟨_, rfl, fun _ => rfl⟩, rfl⟩
  | failed fault => exact .inl ⟨⟨_, rfl, nofun⟩, rfl⟩
  | left => exact .inr ⟨rfl, .inl ⟨rfl, rfl⟩⟩
  | died fault => exact .inr ⟨rfl, .inr ⟨fault, rfl, rfl⟩⟩

/-- The worker stays proper. -/
theorem isProper_of_turn (h : Turned plan t choice s w s' events r) (hproper : w.IsProper) :
    ∀ w', r.next? = some w' → w'.IsProper := by
  intro w' hnext
  cases h with
  | @popped p pending marks r hpop =>
      rcases r with p' | ⟨code, p'⟩ | answer | fault | _
      · cases hnext
        trivial
      · cases hnext
        trivial
      · rcases answer with _ | _ | _ <;>
        · cases hnext
          trivial
      · cases hnext
        trivial
      · cases hnext
  | @published p finished marks r hpush =>
      obtain ⟨-, hplain⟩ := Channel.Push.ahead_of_turn hpush hproper
      rcases r with p' | ⟨code, p'⟩ | answer | fault | _
      · cases hnext
        exact (hplain p' rfl).1
      · cases hnext
        exact (hplain p' rfl).1
      · cases hnext
        trivial
      · cases hnext
        trivial
      · cases hnext
  | entered | began | returned | rested | failed =>
      cases hnext
      trivial
  | left | died => cases hnext

end Offload.Pipeline.Work
