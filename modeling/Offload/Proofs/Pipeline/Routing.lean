import Offload.Proofs.Pipeline.Bodies
import Offload.Proofs.Pipeline.Flights

/-!
# Every callback is called at most once, and where it belongs

A task is on its way to the pending channel with the scheduling of its job, and is accepted when it
gets there. Later its callbacks go with its result to a drain or an await, which calls the one that
fits what the body has returned, on the thread that asked for results. No other call ever runs a
callback, and a task that was refused, discarded, lost or left behind comes to no such call.

## Main results

* `task_of_turn`: what one step of a call does to the task that it schedules.
* `routed_of_step`: where a callback is called, and what else calls run.
* `callbacks_routed`: every callback, in every run.
-/

namespace Offload.Pipeline

variable {κ ω V E ν : Type} {plan : Plan κ} {t u : Tid} {choice : Choice}

/-! ### The way to the pending channel -/

/-- The task of an entry. -/
def Entry.task? : Entry κ V E → Option (Task κ V E)
  | .run _ task => some task
  | .stop => none

/-- The task that a scheduling has yet to pass on: that of its job. -/
def Schedule.task? : Schedule κ V E → Option (Task κ V E)
  | .checking job => job.task?
  | .entering task | .deciding task => some task
  | .pushing p => p.ahead.bind Entry.task?
  | .leaving _ | .dropping _ _ | .dropped _ => none

/-- The task that a use of the owner has yet to pass on. -/
def Use.task? : Use κ V E → Option (Task κ V E)
  | .schedule stage => stage.task?
  | .drain _ | .draining _ | .await _ | .pendingSize _ | .finishedSize _ | .busy => none

/-- The task that a use of a handle has yet to pass on. -/
def HandleUse.task? : HandleUse κ V E → Option (Task κ V E)
  | .schedule stage => stage.task?
  | .accepting _ => none

/-- The task that a call has yet to pass on. -/
def Call.task? : Call κ V E → Option (Task κ V E)
  | .opening use | .inside use => use.task?
  | .handle use => use.task?
  | .closing _ | .taking _ | .teardown _ | .work _ => none

section Turns

variable {s s' : Pipeline κ V E} {events : List (Event V E ν)}

/-- What one step of a part `p` does to the task that it has yet to pass on, which `task?` says: the
part keeps it or gives it up; and it gives it up when the task is accepted. -/
structure Carries {γ β : Type} (task? : γ → Option (Task κ V E)) (s : Pipeline κ V E) (p : γ)
    (s' : Pipeline κ V E) (events : List (Event V E ν)) (r : Turn κ γ β) : Prop where
  kept : ∀ p', r.next? = some p' → task? p' = task? p ∨ task? p' = none
  accepted : ∀ ticket, .accepted ticket ∈ events → ∃ p' task, r = .stay p' ∧ task? p' = none ∧
    task? p = some task ∧ s'.pending.value = s.pending.value ++ [.run ticket task]

/-- A step of a part that carries no task. -/
theorem Carries.of_none {γ β : Type} {task? : γ → Option (Task κ V E)} {p : γ} {r : Turn κ γ β}
    (hnext : ∀ p', r.next? = some p' → task? p' = none)
    (hevents : ∀ ticket, .accepted ticket ∉ events) : Carries task? s p s' events r :=
  ⟨fun p' hp' => .inr (hnext p' hp'), fun ticket hmem => absurd hmem (hevents ticket)⟩

/-- A scheduling keeps the task of its job until this joins the pending channel. -/
theorem Schedule.carries {stage : Schedule κ V E}
    {r : Turn κ (Schedule κ V E) (Except Failure Unit)}
    (h : stage.turn t choice s = some (s', events, r)) (hproper : stage.IsProper) :
    Carries Schedule.task? s stage s' events r := by
  cases stepped_of_turn h with
  | empty _ _ | refused _ _ | turnedAway _ | dropped _ | dropping _ _ =>
      exact .of_none (by rintro p' ⟨⟩; rfl) (by rintro _ ⟨⟩)
  | checked job task htask =>
      refine ⟨?_, by rintro _ ⟨⟩⟩
      rintro p' ⟨⟩
      exact .inl htask.symm
  | entered _ _ | admitted _ _ =>
      refine ⟨?_, by rintro _ ⟨⟩⟩
      rintro p' ⟨⟩
      exact .inl rfl
  | @pushing p _ _ r' hpush =>
      constructor
      · intro stage' hnext
        cases r' with
        | stay p' =>
            cases hnext
            cases hp' : p'.ahead with
            | none => exact .inr (by rw [Schedule.task?, hp']; rfl)
            | some entry =>
                refine .inl ?_
                rw [Schedule.task?, Schedule.task?, hp',
                  (Channel.Push.ahead_of_next hpush hproper.1 rfl hp').1]
        | run code p' => exact absurd hpush push_ne_run
        | ret answer | fail fault =>
            cases hnext
            exact .inr rfl
        | abort => cases hnext
      · intro ticket hmem
        rcases Channel.Push.marks_of_turn hpush with
          ⟨-, rfl | rfl⟩ | ⟨entry, again, rfl, hvalue, rfl, rfl⟩
        · cases hmem
        · cases hmem
        · obtain ⟨ticket', task, rfl⟩ := hproper.2 entry rfl
          cases List.mem_singleton.mp hmem
          exact ⟨_, task, rfl, rfl, rfl, hvalue⟩
  | accepted | failed _ | answered _ | struck _ => exact .of_none (by rintro _ ⟨⟩) (by rintro _ ⟨⟩)

/-- A step of a part as a step of a larger part. -/
theorem Carries.within {γ β γ' β' : Type} {task? : γ → Option (Task κ V E)}
    {task?' : γ' → Option (Task κ V E)} {wrap : γ → γ'} {answered : β → Turn κ γ' β'}
    {failed : Fault → Turn κ γ' β'} {p : γ} {r : Turn κ γ β}
    (h : Carries task? s p s' events r) (hwrap : ∀ p, task?' (wrap p) = task? p)
    (hanswered : ∀ answer p', (answered answer).next? = some p' → task?' p' = none)
    (hfailed : ∀ fault p', (failed fault).next? = some p' → task?' p' = none) :
    Carries task?' s (wrap p) s' events (r.within wrap answered failed) := by
  refine ⟨fun p' hp' => ?_, fun ticket hmem => ?_⟩
  · cases r with
    | stay q | run code q =>
        cases hp'
        rw [hwrap, hwrap]
        exact h.kept q rfl
    | ret answer => exact .inr (hanswered answer p' hp')
    | fail fault => exact .inr (hfailed fault p' hp')
    | abort => cases hp'
  · obtain ⟨q, task, rfl, hq, htask, hvalue⟩ := h.accepted ticket hmem
    exact ⟨wrap q, task, rfl, (hwrap q).trans hq, (hwrap p).trans htask, hvalue⟩

/-- Events of another source accept nothing. -/
theorem not_accepted {source : Source} (h : ∀ event ∈ events, event.source = source)
    (hne : source ≠ .scheduling) (ticket : Ticket) : .accepted ticket ∉ events :=
  fun hmem => hne (h _ hmem).symm

/-- A use of the owner keeps the task of its job until this joins the pending channel. -/
theorem Use.carries {use : Use κ V E} {r : Turn κ (Use κ V E) Answer}
    (h : use.turn plan t choice s = some (s', events, r)) (hproper : use.part.IsProper) :
    Carries Use.task? s use s' events r := by
  by_cases hpart : use.part = .other
  · obtain ⟨haside, -, hnext⟩ := aside_use hpart h
    refine .of_none (fun use' huse' => ?_) (not_accepted haside.source_eq (by rintro ⟨⟩))
    have hother := hnext use' huse'
    cases use' with
    | schedule _ => cases hother
    | drain _ | draining _ | await _ | pendingSize _ | finishedSize _ | busy => rfl
  · cases use with
    | schedule stage =>
        obtain ⟨r', hturn, rfl⟩ := exists_of_nest h
        refine (Schedule.carries hturn hproper).within (fun _ => rfl) ?_ ?_ <;>
        · rintro _ use' ⟨⟩
    | drain _ | draining _ | await _ | pendingSize _ | finishedSize _ | busy =>
        exact absurd rfl hpart

/-- A use of a handle keeps the task of its job until this joins the pending channel. -/
theorem HandleUse.carries {use : HandleUse κ V E} {r : Turn κ (HandleUse κ V E) Answer}
    (h : use.turn t choice s = some (s', events, r)) (hproper : use.part.IsProper) :
    Carries HandleUse.task? s use s' events r := by
  cases use with
  | schedule stage =>
      obtain ⟨r', hturn, rfl⟩ := exists_of_nest h
      refine (Schedule.carries hturn hproper).within (fun _ => rfl) ?_ ?_ <;>
      · rintro _ use' ⟨⟩
  | accepting phase =>
      obtain ⟨⟨intake, progress⟩, -, heq⟩ := Option.map_eq_some_iff.mp h
      cases heq
      refine .of_none (fun use' hnext => ?_) (by rintro _ ⟨⟩)
      rcases progress with phase | fault | answer <;> cases hnext
      rfl

/-- **The way to the pending channel.** A call keeps the task of its job until this joins the
pending channel or is given up. -/
theorem carries_of_turn {call : Call κ V E} {r : Turn κ (Call κ V E) Answer}
    (hsound : call.IsSound) (h : turn plan t choice s call = some (s', events, r)) :
    Carries Call.task? s call s' events r := by
  have hproper := hsound.proper
  cases Call.turned_of_turn h with
  | lent use _ =>
      refine ⟨?_, by rintro _ ⟨⟩⟩
      rintro call' ⟨⟩
      exact .inl rfl
  | refused _ _ | answered _ | failed _ | missed _ _ =>
      refine .of_none ?_ (by rintro _ ⟨⟩)
      rintro call' ⟨⟩
  | inside hturn =>
      refine (Use.carries hturn hproper).within (fun _ => rfl) ?_ ?_ <;>
      · rintro _ call' ⟨⟩
        rfl
  | handle hturn =>
      refine (HandleUse.carries hturn hproper).within (fun _ => rfl) ?_ ?_ <;>
      · rintro _ call' ⟨⟩
  | taken _ _ _ =>
      refine .of_none ?_ (by rintro _ ⟨⟩)
      rintro call' ⟨⟩
      rfl
  | @teardown _ _ _ r' hturn =>
      have hsource := (Teardown.pending_of_turn (Teardown.turned_of_turn hturn) hproper).1
      refine .of_none (fun call' hnext => ?_) (not_accepted hsource (by rintro ⟨⟩))
      cases r' <;> cases hnext <;> rfl
  | @work _ _ _ r' hturn =>
      have hsource := Work.source_of_turn (Work.turned_of_turn hturn)
      refine .of_none (fun call' hnext => ?_) (not_accepted hsource (by rintro ⟨⟩))
      cases r' <;> cases hnext <;> rfl

end Turns

/-! ### Steps of states -/

section Steps

variable {next : κ → Move κ ω (Request κ V E) Answer (Except E V) ν} {world : ω} {codes : List κ}
  {s s' : State κ ω (Pipeline κ V E) (Call κ V E) Answer (Event V E ν)}
  {frames : Stack κ (Call κ V E) Answer} {call : Call κ V E} {r : Turn κ (Call κ V E) Answer}
  {register : List (Task κ V E)} {pending : List (Entry κ V E)}

/-- The code that a task has for an outcome, if the callback that fits it is there. -/
def callbackOf (task : Task κ V E) : Except E V → Option κ
  | .ok value => task.onValue.map (· value)
  | .error error => task.onError.map (· error)

/-- A finished task with the callbacks of a task calls what the task has for the outcome. -/
theorem callback?_eq {f : Finished κ V E} {task : Task κ V E} (hvalue : f.onValue = task.onValue)
    (herror : f.onError = task.onError) : f.callback? = callbackOf task f.outcome := by
  rw [Finished.callback?, hvalue, herror]
  cases f.outcome <;> rfl

/-- A step that notes an event, other than a note of code, is a step of a call. -/
theorem exists_turn_of_event (hstep : (machine plan next).step t choice s = some s')
    {since : List (Tid × Event V E ν)} (hsince : s'.history = s.history ++ since)
    {event : Event V E ν} (hevent : (u, event) ∈ since) (hnote : ∀ note, event ≠ .note note) :
    u = t ∧ ∃ call frames events r, s.stack t = .call call :: frames ∧
      turn plan t choice s.shared call = some (s'.shared, events, r) ∧ event ∈ events ∧
      s'.stack t = Machine.afterTurn frames r := by
  have hnil : s'.history = s.history → False := by
    intro hsame
    obtain rfl : since = [] := List.append_right_eq_self.mp (hsince.symm.trans hsame)
    cases hevent
  cases (Machine.stepped_of_step hstep).2 with
  | ended _ _ | acted _ | called _ _ => exact (hnil rfl).elim
  | noted _ hnext =>
      obtain ⟨note, rfl⟩ := Move.eq_of_map_eq_note hnext
      rw [State.history_noting] at hsince
      rw [← List.append_cancel_left hsince] at hevent
      cases List.mem_singleton.mp hevent
      exact absurd rfl (hnote note)
  | @turned call frames shared events r aborted hstack hturn _ =>
      have heq : events.map (Prod.mk t) = since :=
        List.append_cancel_left ((State.history_noting _ t events).symm.trans hsince)
      rw [← heq] at hevent
      obtain ⟨event', hmem, hpair⟩ := List.mem_map.mp hevent
      cases hpair
      exact ⟨rfl, call, frames, events, r, hstack, hturn, hmem,
        State.stack_withStack_self _ (by simp [hstack])⟩

theorem length_finishCall_le (answer : Except Fault Answer) :
    (Machine.finishCall answer frames).length ≤ frames.length := by
  rcases frames with _ | ⟨_ | _ | _, rest⟩ <;> simp [Machine.finishCall]

/-- A call that is still the topmost layer has stayed. -/
theorem eq_stay_of_afterTurn {call' : Call κ V E}
    (h : Machine.afterTurn frames r = .call call' :: frames) : r = .stay call' := by
  have hle := @length_finishCall_le κ V E frames
  cases r with
  | stay call'' =>
      cases h
      rfl
  | run _ _ => cases h
  | ret answer =>
      have hlong := hle (.ok answer)
      rw [show Machine.finishCall (.ok answer) frames = _ from h, List.length_cons] at hlong
      omega
  | fail fault =>
      have hlong := hle (.error fault)
      rw [show Machine.finishCall (.error fault) frames = _ from h, List.length_cons] at hlong
      omega
  | abort => cases h

/-- A call that has put code on top of itself has run it. -/
theorem eq_run_of_afterTurn {code : κ} {after : Call κ V E}
    (h : Machine.afterTurn frames r = .code code :: .call after :: frames) :
    r = .run code after := by
  have hle := @length_finishCall_le κ V E frames
  cases r with
  | run code' call' =>
      cases h
      rfl
  | stay call' => cases h
  | ret answer =>
      have hlong := hle (.ok answer)
      rw [show Machine.finishCall (.ok answer) frames = _ from h, List.length_cons,
        List.length_cons] at hlong
      omega
  | fail fault =>
      have hlong := hle (.error fault)
      rw [show Machine.finishCall (.error fault) frames = _ from h, List.length_cons,
        List.length_cons] at hlong
      omega
  | abort => cases h

/-- What one step of thread `t` from `s` to `s'` does to tasks and their callbacks, where `pending`
holds entries that were pending in `s` or before. -/
structure RoutedStep (plan : Plan κ) (pending : List (Entry κ V E)) (t : Tid)
    (s s' : State κ ω (Pipeline κ V E) (Call κ V E) Answer (Event V E ν)) : Prop where
  /-- A call keeps the task of its job, or gives it up. -/
  kept : ∀ call call' frames, s.stack t = .call call :: frames →
    s'.stack t = .call call' :: frames → call'.task? = call.task? ∨ call'.task? = none
  /-- Who accepts a task gives it up, and it joins the pending channel. -/
  accepted : ∀ since u ticket, s'.history = s.history ++ since → (u, .accepted ticket) ∈ since →
    u = t ∧ ∃ call call' frames task, s.stack t = .call call :: frames ∧
      s'.stack t = .call call' :: frames ∧ call.task? = some task ∧ call'.task? = none ∧
      s'.shared.pending.value = s.shared.pending.value ++ [.run ticket task]
  /-- Who calls a callback delivers a result that it has in flight, and calls it for the outcome of
  this result, on top of itself. -/
  called : ∀ since u event ticket outcome, s'.history = s.history ++ since → (u, event) ∈ since →
    event.called? = some (ticket, outcome) → u = t ∧ ∃ call frames f after code,
      s.stack t = .call call :: frames ∧ call.delivering? = some (f, after) ∧ f.ticket = ticket ∧
      f.outcome = outcome ∧ f.callback? = some code ∧
      s'.stack t = .code code :: .call after :: frames
  /-- Who delivers a result calls what the task has for the outcome, or nothing if there is nothing.
  Either way it tells what it has delivered, and goes on alike. -/
  delivered : ∀ call frames f after, s.stack t = .call call :: frames →
    call.delivering? = some (f, after) →
      s'.history = s.history ++ [(t, deliveryEvent f)] ∧
      (∀ task, .run f.ticket task ∈ pending → f.callback? = callbackOf task f.outcome) ∧
      (s'.stack t = match f.callback? with
        | none => .call after :: frames
        | some code => .code code :: .call after :: frames) ∧
      ∀ result : Except E V, resume after (.ok result) = after
  /-- A call runs a callback in no other way, and a body as the task has it. -/
  runs : ∀ call frames code after, s.stack t = .call call :: frames →
    s'.stack t = .code code :: .call after :: frames →
      (∃ events, s'.history = s.history ++ events.map (Prod.mk t) ∧
        Runs plan call events code after) ∧
      ∀ ticket task task', call = .work (.starting ticket task) → .run ticket task' ∈ pending →
        task = task'

/-- A call whose event says that a callback is called delivers the result that it has in flight. -/
theorem exists_delivering_of_called {σ σ' : Pipeline κ V E} {events : List (Event V E ν)}
    (hsound : call.IsSound) (hturn : turn plan t choice σ call = some (σ', events, r))
    {event : Event V E ν} (hevent : event ∈ events) {ticket : Ticket} {outcome : Except E V}
    (hcalled : event.called? = some (ticket, outcome)) :
    ∃ f after code, call.delivering? = some (f, after) ∧ f.ticket = ticket ∧
      f.outcome = outcome ∧ f.callback? = some code ∧ r = .run code after := by
  have hsource : event.source = .delivery := by
    by_contra hne
    rw [called?_of_source hne] at hcalled
    cases hcalled
  by_cases hpart : call.part = .other
  · cases delivers_of_turn hpart hturn with
    | idle _ hother _ _ => exact absurd hsource (hother event hevent)
    | received f call' _ _ =>
        rw [List.mem_singleton.mp hevent] at hcalled
        cases hcalled
    | delivered f after hdelivering =>
        rw [List.mem_singleton.mp hevent, called?_deliveryEvent, Option.map_eq_some_iff] at hcalled
        obtain ⟨code, hcode, heq⟩ := hcalled
        cases heq
        exact ⟨f, after, code, hdelivering, rfl, rfl, hcode, by rw [hcode]⟩
  · exact absurd hsource ((quiet_of_turn hsound hpart hturn).1 event hevent)

/-- **Routing, one step.** -/
theorem routed_of_step {v : View κ V E ν} (hv : Scene.Reach (library plan) opening v)
    (hshows : Machine.Shows (library plan) v s) (hregister : Registered register v)
    (hpending : ∀ entry ∈ pending, entry.IsIn register)
    (hstep : (machine plan next).step t choice s = some s') : RoutedStep plan pending t s s' := by
  have hlive := (Machine.stepped_of_step hstep).1
  -- the topmost call of the thread is a call of the scene
  have hmem : ∀ {call frames}, s.stack t = .call call :: frames → call ∈ (v.calls t).all := by
    intro call frames hstack
    rw [hshows.calls_eq hlive, hstack]
    exact List.mem_cons_self
  have hsound : ∀ {call frames}, s.stack t = .call call :: frames → call.IsSound :=
    fun hstack => isSound_of_opening hv t _ (hmem hstack)
  have hturned : ∀ {call frames}, s.stack t = .call call :: frames → ∃ events r,
      turn plan t choice s.shared call = some (s'.shared, events, r) ∧
      s'.history = s.history ++ events.map (Prod.mk t) ∧
      s'.stack t = Machine.afterTurn frames r := by
    intro call frames hstack
    obtain ⟨_, events, r, hturn, rfl, hhistory, hstack'⟩ := Machine.turn_of_step hstack hstep
    exact ⟨events, r, hturn, hhistory, hstack'⟩
  refine ⟨fun call call' frames hstack hstack' => ?_, fun since u ticket hsince hevent => ?_,
    fun since u event ticket outcome hsince hevent hcalled => ?_,
    fun call frames f after hstack hdelivering => ?_,
    fun call frames code after hstack hstack' => ⟨?_, fun ticket task task' hcall htask => ?_⟩⟩
  · obtain ⟨events, r, hturn, -, hafter⟩ := hturned hstack
    obtain rfl := eq_stay_of_afterTurn (hafter.symm.trans hstack')
    exact (carries_of_turn (hsound hstack) hturn).kept call' rfl
  · obtain ⟨rfl, call, frames, events, r, hstack, hturn, hmem', hafter⟩ :=
      exists_turn_of_event hstep hsince hevent nofun
    obtain ⟨call', task, rfl, hnone, htask, hvalue⟩ :=
      (carries_of_turn (hsound hstack) hturn).accepted ticket hmem'
    exact ⟨rfl, call, call', frames, task, hstack, hafter, htask, hnone, hvalue⟩
  · have hnote : ∀ note, event ≠ .note note := by
      rintro note rfl
      cases hcalled
    obtain ⟨rfl, call, frames, events, r, hstack, hturn, hmem', hafter⟩ :=
      exists_turn_of_event hstep hsince hevent hnote
    obtain ⟨f, after, code, hdelivering, hticket, houtcome, hcode, rfl⟩ :=
      exists_delivering_of_called (hsound hstack) hturn hmem' hcalled
    exact ⟨rfl, call, frames, f, after, code, hstack, hdelivering, hticket, houtcome, hcode, hafter⟩
  · obtain ⟨events, r, hturn, hhistory, hafter⟩ := hturned hstack
    obtain ⟨hflight, -, hresume⟩ := flight?_of_delivering hdelivering
    rw [turn_of_delivering hdelivering, Option.some.injEq, Prod.mk.injEq, Prod.mk.injEq] at hturn
    obtain ⟨-, rfl, rfl⟩ := hturn
    refine ⟨hhistory, fun task htask => ?_, ?_, hresume⟩
    · obtain ⟨⟨task', htask', hvalue, herror⟩, -⟩ :=
        (hregister.calls t call (hmem hstack)).flight f hflight
      obtain rfl : task' = task := Option.some.inj (htask'.symm.trans (hpending _ htask))
      exact callback?_eq hvalue herror
    · rw [hafter]
      cases f.callback? <;> rfl
  · obtain ⟨events, r, hturn, hhistory, hafter⟩ := hturned hstack
    obtain rfl := eq_run_of_afterTurn (hafter.symm.trans hstack')
    exact ⟨events, hhistory, runs_of_turn hturn⟩
  · have hpart := (hregister.calls t call (hmem hstack)).part
    rw [hcall] at hpart
    exact Option.some.inj (hpart.symm.trans (hpending _ htask))

end Steps

/-! ### All runs -/

section Runs

variable {next : κ → Move κ ω (Request κ V E) Answer (Except E V) ν} {world : ω} {codes : List κ}
  {s s' : State κ ω (Pipeline κ V E) (Call κ V E) Answer (Event V E ν)}

/-- **Routing of callbacks.** In every run, whatever bodies, callbacks, hooks and other code do, and
for every task that is pending at some moment `s` of it, as every accepted task is when it has been
accepted, at every later moment `s'`:

* no task has two calls of its callbacks behind it, of the same or of different ones;
* every callback has been called after the worker had noted what the body returned, with this
  outcome, and after the thread that called it had taken the result out;
* what the worker has noted is what the code of this body has ended with;
* a task whose callback has been called was accepted, is not pending, not discarded and not left in
  the finished channel, and its body has not ended in a fault;
* each next step calls callbacks only in drains and awaits, on the thread that makes them, and calls
  the one that the accepted task has for the outcome; a result without it is delivered all the
  same. -/
theorem callbacks_routed (h : (machine plan next).Reach (start world codes) s)
    (h' : (machine plan next).Reach s s') :
    (called s'.history).Nodup ∧ CalledAfter s'.history ∧
      (∀ u ticket outcome, (u, .returned ticket outcome) ∈ s'.history →
        BodyEnded plan next (start world codes) ticket (.ok outcome) s') ∧
      (∀ ticket ∈ called s'.history,
        ticket ∈ reached .accepted s'.history ∧ ticket ∉ reached .discarded s'.history ∧
        ticket ∉ ticketsOf s'.shared.pending.value ∧
        ticket ∉ s'.shared.finished.value.map Finished.ticket ∧
        ∀ fault, ¬ BodyEnded plan next (start world codes) ticket (.error fault) s') ∧
      ∀ t choice s'', (machine plan next).step t choice s' = some s'' →
        RoutedStep plan s.shared.pending.value t s' s'' := by
  obtain ⟨v, hv, hshows⟩ := exists_shows h
  obtain ⟨v', hv', hshows'⟩ := (machine_fits plan next).reach_shows hshows h'
  have hreach := hv.trans hv'
  obtain ⟨register, hregister⟩ := exists_register hv
  obtain ⟨register', hgrows, hregister'⟩ := exists_later_register hv hregister hv'
  have hflights := flights_of_reach hreach
  have horderly := orderly_of_reach hreach
  obtain ⟨w, hstaff⟩ := horderly.staff
  rw [← hshows.shared_eq, ← hshows'.shared_eq, ← hshows'.history_eq]
  refine ⟨hflights.once, hflights.after, fun u ticket outcome hreturned => ?_,
    fun ticket hcalled => ?_, fun t choice s'' hstep => ?_⟩
  · exact exists_body_of_returned (h.trans h') (hshows'.history_eq ▸ hreturned)
  · obtain ⟨u, outcome, hreturned, hreceived⟩ := hflights.after.exists_of_mem hcalled
    obtain ⟨haccepted, hdiscarded, hpending⟩ :=
      accepted_of_returned horderly (mem_reached hreturned (List.mem_singleton_self ticket))
    refine ⟨haccepted, hdiscarded, hpending, fun hfinished => ?_, fun fault hended => ?_⟩
    · obtain ⟨f, hf, rfl⟩ := List.mem_map.mp hfinished
      exact not_received horderly.ledger hstaff hf
        (mem_reached hreceived (List.mem_singleton_self f.ticket))
    · exact not_returned_of_bodyEnded hended workerThread outcome (hshows'.history_eq ▸ hreturned)
  · exact routed_of_step hreach hshows' hregister'
      (fun entry hentry => (hregister.filed.pending entry hentry).later hgrows) hstep

end Runs

/-! ### A run in which a callback is called -/

/-- What the code of the run asks for. -/
inductive Chore where
  /-- Schedules a task that does nothing and has a callback for values. -/
  | schedule
  | await

/-- The code of the run. -/
abbrev Chorer := Script Chore Answer Unit Unit (Except Unit Unit)

/-- The request that a chore stands for. -/
def Chore.request : Chore → Request Chorer Unit Unit
  | .schedule => .handing { body := some (.ret (.ok ())), onValue := some fun _ => .ret (.ok ()) }
  | .await => .awaiting .endless

/-- Schedules a task and waits for its result. -/
def scheduleAndAwait : Chorer := do
  Script.all (([.schedule, .await] : List Chore).map fun chore => do
    let _ ← Script.ask chore)
  pure (.ok ())

/-- The states of the run. -/
abbrev Chored := State Chorer Unit (Pipeline Chorer Unit Unit) (Call Chorer Unit Unit) Answer
  (Event Unit Unit Unit)

/-- The machine of the run. -/
abbrev choring : Machine Chorer Unit (Pipeline Chorer Unit Unit) (Call Chorer Unit Unit) Answer
    (Except Unit Unit) (Event Unit Unit Unit) :=
  machine {} (Script.next Chore.request)

/-- The state in which the task has been accepted. -/
def justAccepted : Chored :=
  choring.settle [(1, .go 0)] 10 (start () [scheduleAndAwait])

/-- The state in which the await is about to deliver the result. -/
def justReceived : Chored :=
  choring.settle [(0, .go 0), (1, .go 0)] 23 justAccepted

/-- The next step calls the callback of the task, and this is the only call. -/
theorem callbacks_routed_justReceived :
    ticketsOf justAccepted.shared.pending.value = [0] ∧ called justReceived.history = [] ∧
      ∃ s'', choring.step 1 (.go 0) justReceived = some s'' ∧ called s''.history = [0] ∧
        RoutedStep {} justAccepted.shared.pending.value 1 justReceived s'' := by
  have haccepted : choring.Reach (start () [scheduleAndAwait]) justAccepted :=
    Machine.reach_settle _ _ .start
  have hreceived : choring.Reach justAccepted justReceived := Machine.reach_settle _ _ .start
  have hcalls : (choring.step 1 (.go 0) justReceived).map (fun s'' => called s''.history) =
      some [0] := by
    decide +kernel
  obtain ⟨s'', hstep, hcalled⟩ := Option.map_eq_some_iff.mp hcalls
  obtain ⟨-, -, -, -, hrouted⟩ := callbacks_routed haccepted hreceived
  exact ⟨by decide +kernel, by decide +kernel, s'', hstep, hcalled, hrouted 1 (.go 0) s'' hstep⟩

end Offload.Pipeline
