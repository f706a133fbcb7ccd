import Offload.Pipeline.Calls
import Offload.Proofs.Channel.Items
import Offload.Proofs.Pipeline.Events
import Offload.Proofs.Scene

/-!
# The parts of a pipeline's calls

Of everything that threads do with a pipeline, four things have stages that others depend on: a
**scheduling**, a **reading** of the intake, a **teardown**, and the **worker**. Each is a part
of one call or another (`Call.part`), and a step of such a call is a step of the part
(`turn_scheduling`, `turn_reading`, `turn_tearing`, `turn_working`). Every other call takes
results out of the finished channel, if it touches a channel at all (`turn_other`).

Every event is noted by one kind of part, its **source**.

## Main results

* `machine_fits`: threads that use a pipeline make the calls of its library.
* `turn_scheduling`, `turn_reading`, `turn_tearing`, `turn_working`, `turn_other`: one step of a
  call is one step of its part.
-/

namespace Offload.Pipeline

variable {κ ω V E ν : Type}

/-! ### The library of a pipeline -/

/-- The calls on a pipeline as a library; the worker's thread is started with a call. -/
def library (plan : Plan κ) :
    Library κ (Pipeline κ V E) (Call κ V E) Answer (Except E V) (Event V E ν) where
  turn := turn plan
  resume := resume
  begins call := ∃ request : Request κ V E, call = request.call
  notes event := ∃ note, event = .note note
  rooted t := t == workerThread

/-- Threads that use a pipeline make its calls. -/
theorem machine_fits (plan : Plan κ)
    (next : κ → Move κ ω (Request κ V E) Answer (Except E V) ν) :
    (machine plan next).Fits (library plan) where
  turn_eq := rfl
  resume_eq := rfl
  begins _ _ _ h := Move.eq_of_map_eq_call h
  notes _ _ _ h := Move.eq_of_map_eq_note h

/-! ### Parts -/

/-- The part of a call that has stages on which others depend. -/
inductive Part (κ V E : Type) where
  | scheduling (stage : Schedule κ V E)
  | reading (phase : Phase Bool)
  | tearing (teardown : Teardown κ V E)
  | working (work : Work κ V E)
  /-- The call delivers or counts, or it has yet to begin or to end. -/
  | other

/-- The part of what is done through a handle. -/
def HandleUse.part : HandleUse κ V E → Part κ V E
  | .schedule stage => .scheduling stage
  | .accepting phase => .reading phase

/-- The part of what is done through the owner. -/
def Use.part : Use κ V E → Part κ V E
  | .schedule stage => .scheduling stage
  | .drain _ | .draining _ | .await _ | .pendingSize _ | .finishedSize _ | .busy => .other

/-- The part of a call. -/
def Call.part : Call κ V E → Part κ V E
  | .inside use => use.part
  | .handle use => use.part
  | .teardown d => .tearing d
  | .work w => .working w
  | .opening _ | .closing _ | .taking _ => .other

/-- A part goes on when the code that its call ran has ended. -/
def Part.resume (result : Except Fault (Except E V)) : Part κ V E → Part κ V E
  | .scheduling stage => .scheduling (stage.resume result)
  | .tearing d => .tearing (d.resume result)
  | .working w => .working (w.resume result)
  | .reading phase => .reading phase
  | .other => .other

theorem part_resume (call : Call κ V E) (result : Except Fault (Except E V)) :
    (resume call result).part = call.part.resume result := by
  cases call with
  | inside use => cases use <;> rfl
  | handle use => cases use <;> rfl
  | opening _ | closing _ | taking _ | teardown _ | work _ => rfl

/-- The parts of calls at their beginning. -/
inductive Part.IsFresh : Part κ V E → Prop where
  | scheduling (job : Job κ V E) : IsFresh (.scheduling (.checking job))
  | reading : IsFresh (.reading .arriving)
  | other : IsFresh .other

theorem isFresh_call (request : Request κ V E) : request.call.part.IsFresh := by
  cases request with
  | handing job => exact .scheduling job
  | askingAccepting => exact .reading
  | scheduling _ | draining _ | awaiting _ | countingPending | countingFinished | askingBusy
  | taking _ => exact .other

/-- The part of the call that goes on after a turn. -/
def nextPart (r : Turn κ (Call κ V E) Answer) : Part κ V E :=
  (r.next?.map Call.part).getD .other

/-- Whether a call makes the turn `r` because its part makes the turn `r'`. -/
structure Lifted {γ β : Type} (wrap : γ → Part κ V E) (r' : Turn κ γ β)
    (r : Turn κ (Call κ V E) Answer) : Prop where
  nextPart_eq : nextPart r = (r'.next?.map wrap).getD .other
  run : ∀ code call, r = .run code call → ∃ p, r' = .run code p
  abort : r = .abort → r' = .abort

/-- Whether a turn ends what a call was made for. -/
structure Ending (r : Turn κ (Call κ V E) Answer) : Prop where
  nextPart_eq : nextPart r = .other
  run : ∀ code call, r ≠ .run code call
  abort : r ≠ .abort

theorem ending_ret (answer : Answer) : Ending (.ret answer : Turn κ (Call κ V E) Answer) :=
  ⟨rfl, fun _ _ => nofun, nofun⟩

theorem ending_fail (fault : Fault) : Ending (.fail fault : Turn κ (Call κ V E) Answer) :=
  ⟨rfl, fun _ _ => nofun, nofun⟩

theorem ending_closing (outcome : Except Fault Answer) :
    Ending (.stay (.closing outcome) : Turn κ (Call κ V E) Answer) :=
  ⟨rfl, fun _ _ => nofun, nofun⟩

/-- A call makes the turns of the part that it wraps. -/
theorem lifted_within {γ β : Type} {wrap : γ → Part κ V E} {f : γ → Call κ V E}
    {answered : β → Turn κ (Call κ V E) Answer} {failed : Fault → Turn κ (Call κ V E) Answer}
    (hf : ∀ p, (f p).part = wrap p) (hanswered : ∀ b, Ending (answered b))
    (hfailed : ∀ fault, Ending (failed fault)) (r' : Turn κ γ β) :
    Lifted wrap r' (r'.within f answered failed) := by
  cases r' with
  | stay p => exact ⟨hf p, fun _ _ => nofun, nofun⟩
  | run code p =>
      refine ⟨hf p, fun code' call h => ?_, nofun⟩
      cases h
      exact ⟨p, rfl⟩
  | ret b =>
      obtain ⟨hnext, hrun, habort⟩ := hanswered b
      exact ⟨hnext, fun code call h => absurd h (hrun code call), fun h => absurd h habort⟩
  | fail fault =>
      obtain ⟨hnext, hrun, habort⟩ := hfailed fault
      exact ⟨hnext, fun code call h => absurd h (hrun code call), fun h => absurd h habort⟩
  | abort => exact ⟨rfl, fun _ _ => nofun, fun _ => rfl⟩

/-- A part of a part is a part. -/
theorem within_within {γ β γ' β' γ'' β'' : Type} (r : Turn κ γ β) (f : γ → γ')
    (answered : β → Turn κ γ' β') (failed : Fault → Turn κ γ' β') (g : γ' → γ'')
    (answered' : β' → Turn κ γ'' β'') (failed' : Fault → Turn κ γ'' β'') :
    (r.within f answered failed).within g answered' failed' =
      r.within (fun p => g (f p)) (fun b => (answered b).within g answered' failed')
        (fun fault => (failed fault).within g answered' failed') := by
  cases r <;> rfl

/-! ### Steps of calls -/

variable {plan : Plan κ} {t : Tid} {choice : Choice} {s s' : Pipeline κ V E}
  {events : List (Event V E ν)} {call : Call κ V E} {r : Turn κ (Call κ V E) Answer}

/-- A step that nests a part's step is that step. -/
theorem exists_of_nest {γ β γ' β' : Type} {wrap : γ → γ'} {answered : β → Turn κ γ' β'}
    {failed : Fault → Turn κ γ' β'} {r : Turn κ γ' β'}
    {part : Option (Pipeline κ V E × List (Event V E ν) × Turn κ γ β)}
    (h : part.map (nest wrap answered failed) = some (s', events, r)) :
    ∃ r', part = some (s', events, r') ∧ r = r'.within wrap answered failed := by
  obtain ⟨⟨s₁, events₁, r₁⟩, hpart, heq⟩ := Option.map_eq_some_iff.mp h
  cases heq
  exact ⟨r₁, hpart, rfl⟩

/-- What one step of a call by thread `t` is. -/
inductive Call.Turned (plan : Plan κ) (t : Tid) (choice : Choice) (s : Pipeline κ V E) :
    Call κ V E → Pipeline κ V E → List (Event V E ν) → Turn κ (Call κ V E) Answer → Prop where
  /-- The owner lends the pipeline to the call. -/
  | lent (use : Use κ V E) : s.owned = true →
      Turned plan t choice s (.opening use) { s with borrows := s.borrows + 1 } []
        (.stay (.inside use))
  | refused (use : Use κ V E) : s.owned = false →
      Turned plan t choice s (.opening use) s [] (.ret .gone)
  | inside {use : Use κ V E} {s' : Pipeline κ V E} {events : List (Event V E ν)}
      {r : Turn κ (Use κ V E) Answer} : use.turn plan t choice s = some (s', events, r) →
      Turned plan t choice s (.inside use) s' events
        (r.within .inside (fun answer => .stay (.closing (.ok answer)))
          fun fault => .stay (.closing (.error fault)))
  /-- The call gives the pipeline back. -/
  | answered (answer : Answer) : Turned plan t choice s (.closing (.ok answer))
      { s with borrows := s.borrows - 1 } [] (.ret answer)
  | failed (fault : Fault) : Turned plan t choice s (.closing (.error fault))
      { s with borrows := s.borrows - 1 } [] (.fail fault)
  | handle {use : HandleUse κ V E} {s' : Pipeline κ V E} {events : List (Event V E ν)}
      {r : Turn κ (HandleUse κ V E) Answer} : use.turn t choice s = some (s', events, r) →
      Turned plan t choice s (.handle use) s' events (r.within .handle .ret .fail)
  | missed (reporting : Bool) : s.owned = false →
      Turned plan t choice s (.taking reporting) s [] (.ret .gone)
  /-- The call takes the pipeline from its owner. -/
  | taken (reporting : Bool) : s.owned = true → s.borrows = 0 →
      Turned plan t choice s (.taking reporting) { s with owned := false } []
        (.stay (.teardown { reporting := reporting }))
  | teardown {d : Teardown κ V E} {s' : Pipeline κ V E} {events : List (Event V E ν)}
      {r : Turn κ (Teardown κ V E) (Except Failure Unit)} :
      d.turn t choice s = some (s', events, r) →
      Turned plan t choice s (.teardown d) s' events
        (r.within .teardown (fun outcome => .ret (.stopped outcome)) .fail)
  | work {w : Work κ V E} {s' : Pipeline κ V E} {events : List (Event V E ν)}
      {r : Turn κ (Work κ V E) Unit} : w.turn plan t choice s = some (s', events, r) →
      Turned plan t choice s (.work w) s' events (r.within .work (fun () => .ret .ended) .fail)

/-- **Inversion.** Every step of a call is one of these. -/
theorem Call.turned_of_turn (h : turn plan t choice s call = some (s', events, r)) :
    call.Turned plan t choice s s' events r := by
  cases call with
  | opening use =>
      simp only [turn] at h
      split at h
      · next howned =>
        cases h
        exact .lent use howned
      · next howned =>
        cases h
        exact .refused use (by simpa using howned)
  | inside use =>
      obtain ⟨r', hturn, rfl⟩ := exists_of_nest h
      exact .inside hturn
  | closing outcome =>
      cases h
      cases outcome with
      | ok answer => exact .answered answer
      | error fault => exact .failed fault
  | handle use =>
      obtain ⟨r', hturn, rfl⟩ := exists_of_nest h
      exact .handle hturn
  | taking reporting =>
      simp only [turn] at h
      split at h
      · next howned =>
        cases h
        exact .missed reporting (by simpa using howned)
      · next howned =>
        split at h
        · next hborrows =>
          cases h
          exact .taken reporting (by simpa using howned) hborrows
        · cases h
  | teardown d =>
      obtain ⟨r', hturn, rfl⟩ := exists_of_nest h
      exact .teardown hturn
  | work w =>
      obtain ⟨r', hturn, rfl⟩ := exists_of_nest h
      exact .work hturn

/-- A step of a call that schedules is a step of the scheduling. -/
theorem turn_scheduling {stage : Schedule κ V E} (hpart : call.part = .scheduling stage)
    (h : turn plan t choice s call = some (s', events, r)) :
    ∃ r', stage.turn t choice s = some (s', events, r') ∧ Lifted .scheduling r' r := by
  cases call with
  | inside use =>
      cases use with
      | schedule stage' =>
          obtain rfl : stage' = stage := Part.scheduling.inj hpart
          obtain ⟨r₁, hturn, rfl⟩ := exists_of_nest h
          obtain ⟨r₂, hstage, rfl⟩ := exists_of_nest hturn
          refine ⟨r₂, hstage, ?_⟩
          rw [within_within]
          refine lifted_within ?_ ?_ ?_ r₂
          · exact fun _ => rfl
          · exact fun _ => ending_closing _
          · exact fun _ => ending_closing _
      | drain _ | draining _ | await _ | pendingSize _ | finishedSize _ | busy => cases hpart
  | handle use =>
      cases use with
      | schedule stage' =>
          obtain rfl : stage' = stage := Part.scheduling.inj hpart
          obtain ⟨r₁, hturn, rfl⟩ := exists_of_nest h
          obtain ⟨r₂, hstage, rfl⟩ := exists_of_nest hturn
          refine ⟨r₂, hstage, ?_⟩
          rw [within_within]
          refine lifted_within ?_ ?_ ?_ r₂
          · exact fun _ => rfl
          · exact fun _ => ending_ret _
          · exact fun _ => ending_fail _
      | accepting _ => cases hpart
  | opening _ | closing _ | taking _ | teardown _ | work _ => cases hpart

/-- A step of a teardown's call is a step of the teardown. -/
theorem turn_tearing {d : Teardown κ V E} (hpart : call.part = .tearing d)
    (h : turn plan t choice s call = some (s', events, r)) :
    ∃ r', d.turn t choice s = some (s', events, r') ∧ Lifted .tearing r' r := by
  cases call with
  | teardown d' =>
      obtain rfl : d' = d := Part.tearing.inj hpart
      obtain ⟨r', hturn, rfl⟩ := exists_of_nest h
      refine ⟨r', hturn, lifted_within ?_ ?_ ?_ r'⟩
      · exact fun _ => rfl
      · exact fun _ => ending_ret _
      · exact fun _ => ending_fail _
  | inside use | handle use => cases use <;> cases hpart
  | opening _ | closing _ | taking _ | work _ => cases hpart

/-- A step of the worker's call is a step of the worker. -/
theorem turn_working {w : Work κ V E} (hpart : call.part = .working w)
    (h : turn plan t choice s call = some (s', events, r)) :
    ∃ r', w.turn plan t choice s = some (s', events, r') ∧ Lifted .working r' r := by
  cases call with
  | work w' =>
      obtain rfl : w' = w := Part.working.inj hpart
      obtain ⟨r', hturn, rfl⟩ := exists_of_nest h
      refine ⟨r', hturn, lifted_within ?_ ?_ ?_ r'⟩
      · exact fun _ => rfl
      · exact fun _ => ending_ret _
      · exact fun _ => ending_fail _
  | inside use | handle use => cases use <;> cases hpart
  | opening _ | closing _ | taking _ | teardown _ => cases hpart

/-- A step of a call that reads the intake is a step of a visit to the intake. -/
theorem turn_reading {phase : Phase Bool} (hpart : call.part = .reading phase)
    (h : turn plan t choice s call = some (s', events, r)) :
    ∃ intake progress, readAccepting.turn t choice s.intake phase = some (intake, progress) ∧
      s' = { s with intake := intake } ∧ events = [] ∧ r ≠ .abort ∧
      (∀ code call', r ≠ .run code call') ∧
      nextPart r = match progress with
        | .on phase' => .reading phase'
        | .ended _ => .other := by
  cases call with
  | handle use =>
      cases use with
      | accepting phase' =>
          obtain rfl : phase' = phase := Part.reading.inj hpart
          obtain ⟨r₁, hturn, rfl⟩ := exists_of_nest h
          obtain ⟨⟨intake, progress⟩, hvisit, heq⟩ := Option.map_eq_some_iff.mp hturn
          cases heq
          refine ⟨intake, progress, hvisit, rfl, rfl, ?_⟩
          rcases progress with phase | fault | answer
          · exact ⟨nofun, fun _ _ => nofun, rfl⟩
          · exact ⟨nofun, fun _ _ => nofun, rfl⟩
          · exact ⟨nofun, fun _ _ => nofun, rfl⟩
      | schedule _ => cases hpart
  | inside use => cases use <;> cases hpart
  | opening _ | closing _ | taking _ | teardown _ | work _ => cases hpart

/-! ### Steps aside -/

/-- Whether a step does no more than take results out of the finished channel. -/
structure Aside (s s' : Pipeline κ V E) (events : List (Event V E ν)) : Prop where
  intake_eq : s'.intake = s.intake
  pending_eq : s'.pending.value = s.pending.value
  finished_eq : s.finished.value.map Finished.ticket =
    ticketsAt .received events ++ s'.finished.value.map Finished.ticket
  health_eq : s'.health = s.health
  busy_eq : s'.busy = s.busy
  joinable_eq : s'.joinable = s.joinable
  nextTicket_eq : s'.nextTicket = s.nextTicket
  owned_eq : s'.owned = s.owned
  source_eq : ∀ event ∈ events, event.source = .delivery

/-- A step that only borrows or gives back the pipeline, or only tells of a delivery. -/
theorem Aside.quiet {borrows : Nat}
    (hreceived : ticketsAt .received events = [])
    (hsource : ∀ event ∈ events, event.source = .delivery) :
    Aside s { s with borrows := borrows } events where
  intake_eq := rfl
  pending_eq := rfl
  finished_eq := by rw [hreceived]; rfl
  health_eq := rfl
  busy_eq := rfl
  joinable_eq := rfl
  nextTicket_eq := rfl
  owned_eq := rfl
  source_eq := hsource

/-- Delivering is told of, and nothing else. -/
theorem aside_deliveryEvent (s : Pipeline κ V E) (f : Finished κ V E) :
    Aside s s [(deliveryEvent f : Event V E ν)] := by
  refine Aside.quiet ?_ ?_
  · simp only [ticketsAt_singleton, deliveryEvent]
    split <;> split <;> rfl
  · simp only [List.mem_singleton, forall_eq, deliveryEvent]
    split <;> split <;> rfl

/-- A step on the finished channel is that step. -/
theorem exists_of_onFinished {γ β γ' β' : Type} {wrap : γ → γ'} {answered : β → Turn κ γ' β'}
    {failed : Fault → Turn κ γ' β'} {r : Turn κ γ' β'}
    {part : Option (Channel (Finished κ V E) × List (Channel.Mark (Finished κ V E)) × Turn κ γ β)}
    (h : part.map (s.onFinished wrap answered failed) = some (s', events, r)) :
    ∃ finished marks r', part = some (finished, marks, r') ∧
      s' = { s with finished := finished } ∧ events = marks.flatMap finishedEvent ∧
      r = r'.within wrap answered failed := by
  obtain ⟨⟨finished, marks, r'⟩, hpart, heq⟩ := Option.map_eq_some_iff.mp h
  cases heq
  exact ⟨finished, marks, r', hpart, rfl, rfl, rfl⟩

/-- Popping from the finished channel is a step aside. -/
theorem aside_pop {pop : Channel.Pop (Finished κ V E)} {finished : Channel (Finished κ V E)}
    {marks : List (Channel.Mark (Finished κ V E))}
    {r : Turn κ (Channel.Pop (Finished κ V E)) (Option (Finished κ V E))}
    (h : pop.turn t choice s.finished = some (finished, marks, r)) :
    Aside s { s with finished := finished }
      (marks.flatMap finishedEvent : List (Event V E ν)) := by
  rcases Channel.Pop.marks_of_turn h with ⟨hvalue, rfl⟩ | ⟨f, again, -, hvalue, rfl, -⟩
  · exact ⟨rfl, rfl, by rw [hvalue]; rfl, rfl, rfl, rfl, rfl, rfl, nofun⟩
  · refine ⟨rfl, rfl, by rw [hvalue]; rfl, rfl, rfl, rfl, rfl, rfl, ?_⟩
    intro event hevent
    obtain rfl : event = .received f.ticket := by simpa [finishedEvent] using hevent
    rfl

/-- Counting the finished channel is a step aside. -/
theorem aside_size {phase : Phase Nat} {finished : Channel (Finished κ V E)}
    {r : Turn κ (Phase Nat) Nat}
    (h : Channel.sizeTurn t choice s.finished phase = some (finished, r)) :
    Aside s { s with finished := finished } ([] : List (Event V E ν)) :=
  ⟨rfl, rfl, by rw [Channel.value_of_sizeTurn h]; rfl, rfl, rfl, rfl, rfl, rfl, nofun⟩

/-- A step that touches nothing but what the owner sees is a step aside. -/
theorem aside_self (s : Pipeline κ V E) : Aside s s ([] : List (Event V E ν)) :=
  Aside.quiet rfl nofun

/-- A part's turn is no abort unless the part aborts or answers by one. -/
theorem within_ne_abort {γ β γ' β' : Type} {wrap : γ → γ'} {answered : β → Turn κ γ' β'}
    {failed : Fault → Turn κ γ' β'} {r : Turn κ γ β} (hr : r ≠ .abort)
    (hanswered : ∀ b, answered b ≠ .abort) (hfailed : ∀ fault, failed fault ≠ .abort) :
    r.within wrap answered failed ≠ .abort := by
  cases r with
  | stay _ | run _ _ => nofun
  | ret b => exact hanswered b
  | fail fault => exact hfailed fault
  | abort => exact absurd rfl hr

/-- A delivery is noted, and the call goes on, at once or below the callback. -/
theorem of_deliver {γ τ : Type} {f : Finished κ V E} {after : γ} {r : Turn κ γ τ}
    (h : some (s.deliver f after) = some (s', events, r)) :
    s' = s ∧ events = [deliveryEvent f] ∧ r ≠ .abort ∧ r.next? = some after := by
  cases h
  cases f.callback? <;> exact ⟨rfl, rfl, nofun, rfl⟩

/-- A drain steps aside. -/
theorem aside_drain {stage : Drain κ V E} {r : Turn κ (Drain κ V E) Bool}
    (h : stage.turn t choice s = some (s', events, r)) : Aside s s' events ∧ r ≠ .abort := by
  cases stage with
  | going left =>
      cases left <;>
      · cases h
        exact ⟨aside_self s, nofun⟩
  | popping left p =>
      obtain ⟨finished, marks, r', hpop, rfl, rfl, rfl⟩ := exists_of_onFinished h
      refine ⟨aside_pop hpop, within_ne_abort (Channel.Pop.turn_plain hpop).1 ?_ fun _ => nofun⟩
      rintro (_ | f) <;> nofun
  | delivering left f =>
      obtain ⟨rfl, rfl, hr, -⟩ := of_deliver h
      exact ⟨aside_deliveryEvent _ f, hr⟩
  | checking phase =>
      obtain ⟨⟨finished, r'⟩, hsize, heq⟩ := Option.map_eq_some_iff.mp h
      cases heq
      exact ⟨aside_size hsize, within_ne_abort (Channel.sizeTurn_live hsize) (fun _ => nofun)
        fun _ => nofun⟩
  | failing fault =>
      cases h
      exact ⟨aside_self s, nofun⟩

/-- An await steps aside. -/
theorem aside_await {stage : Await κ V E} {r : Turn κ (Await κ V E) Bool}
    (h : stage.turn t choice s = some (s', events, r)) : Aside s s' events ∧ r ≠ .abort := by
  cases stage with
  | popping p =>
      obtain ⟨finished, marks, r', hpop, rfl, rfl, rfl⟩ := exists_of_onFinished h
      refine ⟨aside_pop hpop, within_ne_abort (Channel.Pop.turn_plain hpop).1 ?_ fun _ => nofun⟩
      rintro (_ | f) <;> nofun
  | delivering f =>
      obtain ⟨rfl, rfl, hr, -⟩ := of_deliver h
      exact ⟨aside_deliveryEvent _ f, hr⟩
  | ending outcome =>
      cases outcome <;>
      · cases h
        exact ⟨aside_self s, nofun⟩

/-- Whatever else is done through the owner steps aside. -/
theorem aside_use {use : Use κ V E} {r : Turn κ (Use κ V E) Answer} (hpart : use.part = .other)
    (h : use.turn plan t choice s = some (s', events, r)) :
    Aside s s' events ∧ r ≠ .abort ∧ ∀ use', r.next? = some use' → use'.part = .other := by
  cases use with
  | schedule stage => cases hpart
  | drain max =>
      cases h
      refine ⟨aside_self s, nofun, ?_⟩
      rintro use' ⟨⟩
      rfl
  | draining stage =>
      obtain ⟨r', hturn, rfl⟩ := exists_of_nest h
      obtain ⟨haside, hr⟩ := aside_drain hturn
      refine ⟨haside, within_ne_abort hr (fun _ => nofun) fun _ => nofun, fun use' hnext => ?_⟩
      rw [Turn.next?_within, Option.map_eq_some_iff] at hnext
      obtain ⟨stage', -, rfl⟩ := hnext
      rfl
  | await stage =>
      obtain ⟨r', hturn, rfl⟩ := exists_of_nest h
      obtain ⟨haside, hr⟩ := aside_await hturn
      refine ⟨haside, within_ne_abort hr (fun _ => nofun) fun _ => nofun, fun use' hnext => ?_⟩
      rw [Turn.next?_within, Option.map_eq_some_iff] at hnext
      obtain ⟨stage', -, rfl⟩ := hnext
      rfl
  | pendingSize phase =>
      obtain ⟨⟨pending, r'⟩, hsize, heq⟩ := Option.map_eq_some_iff.mp h
      cases heq
      refine ⟨⟨rfl, Channel.value_of_sizeTurn hsize, rfl, rfl, rfl, rfl, rfl, rfl, nofun⟩,
        within_ne_abort (Channel.sizeTurn_live hsize) (fun _ => nofun) fun _ => nofun,
        fun use' hnext => ?_⟩
      dsimp only [onPending] at hnext
      rw [Turn.next?_within, Option.map_eq_some_iff] at hnext
      obtain ⟨phase', -, rfl⟩ := hnext
      rfl
  | finishedSize phase =>
      obtain ⟨⟨finished, r'⟩, hsize, heq⟩ := Option.map_eq_some_iff.mp h
      cases heq
      refine ⟨aside_size hsize,
        within_ne_abort (Channel.sizeTurn_live hsize) (fun _ => nofun) fun _ => nofun,
        fun use' hnext => ?_⟩
      dsimp only [onFinished] at hnext
      rw [Turn.next?_within, Option.map_eq_some_iff] at hnext
      obtain ⟨phase', -, rfl⟩ := hnext
      rfl
  | busy =>
      cases h
      exact ⟨aside_self s, nofun, nofun⟩

/-- A call that has not begun yet begins at the beginning. -/
def Call.Opens : Call κ V E → Prop
  | .opening (.schedule stage) => ∃ job, stage = .checking job
  | _ => True

/-- No call goes on as one that has not begun yet. -/
theorem ne_opening_of_next {call' : Call κ V E}
    (h : turn plan t choice s call = some (s', events, r)) (hnext : r.next? = some call')
    (use : Use κ V E) : call' ≠ .opening use := by
  cases Call.turned_of_turn h with
  | lent _ _ | taken _ _ _ =>
      cases hnext
      nofun
  | @inside _ _ _ r' _ => cases r' <;> cases hnext <;> nofun
  | @handle _ _ _ r' _ => cases r' <;> cases hnext <;> nofun
  | @teardown _ _ _ r' _ => cases r' <;> cases hnext <;> nofun
  | @work _ _ _ r' _ => cases r' <;> cases hnext <;> nofun
  | refused _ _ | answered _ | failed _ | missed _ _ => cases hnext

/-- A step of any other call steps aside, and a scheduling may begin with it; or it takes the
pipeline from its owner, and a teardown begins with it. -/
theorem turn_other (hpart : call.part = .other) (hopens : call.Opens)
    (h : turn plan t choice s call = some (s', events, r)) :
    (Aside s s' events ∧ r ≠ .abort ∧ (nextPart r).IsFresh) ∨
      (s.owned = true ∧ s' = { s with owned := false } ∧ events = [] ∧
        ∃ reporting, r = .stay (.teardown { reporting := reporting })) := by
  cases Call.turned_of_turn h with
  | lent use _ =>
      refine .inl ⟨.quiet rfl nofun, nofun, ?_⟩
      cases use with
      | schedule stage =>
          obtain ⟨job, rfl⟩ := hopens
          exact .scheduling job
      | drain _ | draining _ | await _ | pendingSize _ | finishedSize _ | busy => exact .other
  | @inside _ _ _ r' hturn =>
      obtain ⟨haside, hr, hnext⟩ := aside_use hpart hturn
      refine .inl ⟨haside, within_ne_abort hr (fun _ => nofun) fun _ => nofun, ?_⟩
      have hother : nextPart (r'.within .inside (fun answer => .stay (.closing (.ok answer)))
          fun fault => .stay (.closing (.error fault))) = .other := by
        cases r' with
        | stay use' | run _ use' => exact hnext use' rfl
        | ret _ | fail _ | abort => rfl
      rw [hother]
      exact .other
  | refused _ _ | missed _ _ => exact .inl ⟨aside_self s, nofun, .other⟩
  | answered _ | failed _ => exact .inl ⟨.quiet rfl nofun, nofun, .other⟩
  | taken reporting howned _ => exact .inr ⟨howned, rfl, rfl, reporting, rfl⟩
  | @handle use _ _ _ _ => cases use <;> cases hpart
  | teardown _ | work _ => cases hpart

/-! ### Answers -/

/-- An answer of a part that answers or fails for the larger call. -/
theorem eq_of_within_eq_ret {γ β γ' β' : Type} {wrap : γ → γ'} {answer : β → β'} {r : Turn κ γ β}
    {b' : β'} (h : r.within wrap (fun b => .ret (answer b)) .fail = .ret b') :
    ∃ b, r = .ret b ∧ answer b = b' := by
  cases r with
  | ret b =>
      cases h
      exact ⟨b, rfl, rfl⟩
  | stay _ | run _ _ | fail _ | abort => cases h

/-- What is done through the owner does not answer for a teardown. -/
theorem Use.ne_stopped {use : Use κ V E} {answer : Answer}
    (h : use.turn plan t choice s = some (s', events, .ret answer)) (report : Except Failure Unit) :
    answer ≠ .stopped report := by
  cases use with
  | schedule _ | draining _ | await _ =>
      obtain ⟨r', -, hr⟩ := exists_of_nest h
      obtain ⟨b, -, rfl⟩ := eq_of_within_eq_ret hr.symm
      nofun
  | drain _ => cases h
  | pendingSize _ | finishedSize _ =>
      obtain ⟨⟨channel, r'⟩, -, heq⟩ := Option.map_eq_some_iff.mp h
      obtain ⟨b, -, rfl⟩ := eq_of_within_eq_ret (congrArg (fun part => part.2.2) heq)
      nofun
  | busy =>
      cases h
      nofun

/-- What is done through a handle does not answer for a teardown. -/
theorem HandleUse.ne_stopped {use : HandleUse κ V E} {answer : Answer}
    (h : use.turn t choice s = some (s', events, .ret answer)) (report : Except Failure Unit) :
    answer ≠ .stopped report := by
  cases use with
  | schedule _ =>
      obtain ⟨r', -, hr⟩ := exists_of_nest h
      obtain ⟨b, -, rfl⟩ := eq_of_within_eq_ret hr.symm
      nofun
  | accepting _ =>
      obtain ⟨⟨intake, progress⟩, -, heq⟩ := Option.map_eq_some_iff.mp h
      rcases progress with _ | _ | _ <;> cases heq
      nofun

/-- Only a teardown's call answers for a teardown, unless it is a call about to end that has got
such an answer. -/
theorem exists_teardown_of_stopped {report : Except Failure Unit}
    (hcloses : ∀ outcome, call = .closing outcome → outcome ≠ .ok (.stopped report))
    (h : turn plan t choice s call = some (s', events, .ret (.stopped report))) :
    ∃ d : Teardown κ V E, call = .teardown d ∧
      d.turn t choice s = some (s', events, .ret report) := by
  generalize hr : (Turn.ret (.stopped report) : Turn κ (Call κ V E) Answer) = r at h
  cases Call.turned_of_turn h with
  | @teardown d _ _ _ hturn =>
      obtain ⟨b, rfl, hb⟩ := eq_of_within_eq_ret hr.symm
      cases hb
      exact ⟨d, rfl, hturn⟩
  | @inside _ _ _ r' _ => cases r' <;> cases hr
  | answered answer =>
      cases hr
      exact absurd rfl (hcloses _ rfl)
  | @handle _ _ _ r' hturn =>
      have hret : r'.within .handle (fun b => .ret (id b)) .fail =
          (.ret (.stopped report) : Turn κ (Call κ V E) Answer) := hr.symm
      obtain ⟨b, rfl, hb⟩ := eq_of_within_eq_ret hret
      exact absurd hb (HandleUse.ne_stopped hturn report)
  | @work _ _ _ r' _ => cases r' <;> cases hr
  | lent _ _ | refused _ _ | failed _ | missed _ _ | taken _ _ _ => cases hr

/-! ### Parts of one kind -/

section Picks

variable {β : Type} {f : Part κ V E → Option β} {u : Tid} {x y : Option β}
  {calls : Tid → Calls (Call κ V E)} {c : Calls (Call κ V E)}

/-- What is picked out of the parts of some calls. -/
def picks (f : Part κ V E → Option β) (calls : List (Call κ V E)) : List β :=
  calls.filterMap fun call => f call.part

theorem picks_cons (call : Call κ V E) (rest : List (Call κ V E)) :
    picks f (call :: rest) = (f call.part).toList ++ picks f rest := by
  rw [picks, List.filterMap_cons]
  cases f call.part <;> rfl

theorem picks_append (before after : List (Call κ V E)) :
    picks f (before ++ after) = picks f before ++ picks f after :=
  List.filterMap_append

/-- After a turn, what is picked is picked out of the call that goes on and those that wait. -/
theorem picks_after {rest : List (Call κ V E)} (hother : f .other = none) (h : r ≠ .abort) :
    picks f (Calls.after call rest r).all = (f (nextPart r)).toList ++ picks f rest := by
  rw [Calls.all_after h, nextPart]
  cases r.next? with
  | none =>
      rw [Option.map_none, Option.getD_none, hother]
      rfl
  | some call' => exact picks_cons call' rest

/-- Whether at most one thing can be picked out of the calls of all threads, in thread `u`. -/
def Sole (f : Part κ V E → Option β) (u : Tid) (x : Option β)
    (calls : Tid → Calls (Call κ V E)) : Prop :=
  ∀ t, picks f (calls t).all = if t = u then x.toList else []

theorem Sole.of_same (h : Sole f u x calls) (hc : picks f c.all = picks f (calls t).all) :
    Sole f u x (Function.update calls t c) := by
  intro t'
  by_cases ht : t' = t
  · subst ht
    rw [Function.update_self, hc]
    exact h t'
  · rw [Function.update_of_ne ht]
    exact h t'

theorem Sole.of_update (h : Sole f u x calls) (hc : picks f c.all = y.toList) :
    Sole f u y (Function.update calls u c) := by
  intro t
  by_cases ht : t = u
  · subst ht
    rw [Function.update_self, if_pos rfl, hc]
  · rw [Function.update_of_ne ht, if_neg ht, h t, if_neg ht]

/-- Where there is nothing to pick, it may as well be in another thread. -/
theorem Sole.move (h : Sole f u none calls) (t : Tid) : Sole f t none calls := by
  intro t'
  rw [h t']
  split <;> split <;> rfl

/-- What is picked out of a call is all that there is. -/
theorem Sole.eq_of_active {rest : List (Call κ V E)} {b : β} (h : Sole f u x calls)
    (hcalls : (calls t).all = call :: rest) (hb : f call.part = some b) :
    t = u ∧ x = some b ∧ picks f rest = [] := by
  have hpicks := h t
  rw [hcalls, picks_cons, hb] at hpicks
  by_cases ht : t = u
  · rw [if_pos ht] at hpicks
    cases x with
    | none => cases hpicks
    | some b' =>
        obtain ⟨rfl, hrest⟩ := List.cons.inj hpicks
        exact ⟨ht, rfl, hrest⟩
  · rw [if_neg ht] at hpicks
    cases hpicks

end Picks

end Offload.Pipeline
