import Offload.Proofs.Pipeline.Staff

/-!
# What a delivery can do

A result is **in flight** from the step in which a drain or an await takes it out of the finished
channel to the step in which this call delivers it. One inversion lemma says everything that one
step can be to results in flight (`delivers_of_turn`). A callback is called in the step that
delivers, on top of the call that does, and in no other: whatever else calls run is the body of a
task, the hook, or a destructor (`runs_of_turn`).

## Main results

* `delivers_of_turn`: every step of a call takes a result out, delivers one, or does neither.
* `runs_of_turn`: what a call runs, and what it notes then.
-/

namespace Offload.Pipeline

variable {κ V E ν : Type} {plan : Plan κ} {t : Tid} {choice : Choice} {s s' : Pipeline κ V E}
  {events : List (Event V E ν)} {call : Call κ V E} {r : Turn κ (Call κ V E) Answer}

/-! ### In flight -/

/-- The result that a drain has taken out and has yet to deliver. -/
def Drain.flight? : Drain κ V E → Option (Finished κ V E)
  | .popping _ p => p.held
  | .delivering _ f => some f
  | .going _ | .checking _ | .failing _ => none

/-- The result that an await has taken out and has yet to deliver. -/
def Await.flight? : Await κ V E → Option (Finished κ V E)
  | .popping p => p.held
  | .delivering f => some f
  | .ending _ => none

/-- The result that a use of the owner has taken out and has yet to deliver. -/
def Use.flight? : Use κ V E → Option (Finished κ V E)
  | .draining stage => stage.flight?
  | .await stage => stage.flight?
  | .schedule _ | .drain _ | .pendingSize _ | .finishedSize _ | .busy => none

/-- The result that a call has taken out and has yet to deliver. -/
def Call.flight? : Call κ V E → Option (Finished κ V E)
  | .opening use | .inside use => use.flight?
  | .closing _ | .handle _ | .taking _ | .teardown _ | .work _ => none

/-- The result that a drain is about to deliver, and the drain that goes on after that. -/
def Drain.delivering? : Drain κ V E → Option (Finished κ V E × Drain κ V E)
  | .delivering left f => some (f, .going left)
  | .popping _ _ | .going _ | .checking _ | .failing _ => none

/-- The result that an await is about to deliver, and the await that goes on after that. -/
def Await.delivering? : Await κ V E → Option (Finished κ V E × Await κ V E)
  | .delivering f => some (f, .ending (.ok ()))
  | .popping _ | .ending _ => none

/-- The result that a call is about to deliver, and the call that goes on after that. -/
def Call.delivering? : Call κ V E → Option (Finished κ V E × Call κ V E)
  | .inside (.draining stage) => stage.delivering?.map (Prod.map id fun p => .inside (.draining p))
  | .inside (.await stage) => stage.delivering?.map (Prod.map id fun p => .inside (.await p))
  | _ => none

/-- What is about to be delivered is in flight; afterwards nothing is. A callback that returns
leaves the call as it is, just as no callback does. -/
theorem flight?_of_delivering {f : Finished κ V E} {after : Call κ V E}
    (h : call.delivering? = some (f, after)) :
    call.flight? = some f ∧ after.flight? = none ∧
      ∀ outcome : Except E V, resume after (.ok outcome) = after := by
  cases call with
  | inside use =>
      cases use with
      | draining stage | await stage =>
          cases stage <;> cases h
          exact ⟨rfl, rfl, fun _ => rfl⟩
      | schedule _ | drain _ | pendingSize _ | finishedSize _ | busy => cases h
  | opening _ | closing _ | handle _ | taking _ | teardown _ | work _ => cases h

/-- A call that is about to deliver does so in its next step. -/
theorem turn_of_delivering {f : Finished κ V E} {after : Call κ V E}
    (h : call.delivering? = some (f, after)) : turn plan t choice s call =
      some (s, [(deliveryEvent f : Event V E ν)], match f.callback? with
        | none => .stay after
        | some code => .run code after) := by
  cases call with
  | inside use =>
      cases use with
      | draining stage =>
          cases stage with
          | delivering left result =>
              cases h
              simp only [turn, Use.turn, Drain.turn, deliver, Option.map_some, nest, id_eq]
              cases result.callback? <;> rfl
          | popping _ _ | going _ | checking _ | failing _ => cases h
      | await stage =>
          cases stage with
          | delivering result =>
              cases h
              simp only [turn, Use.turn, Await.turn, deliver, Option.map_some, nest, id_eq]
              cases result.callback? <;> rfl
          | popping _ | ending _ => cases h
      | schedule _ | drain _ | pendingSize _ | finishedSize _ | busy => cases h
  | opening _ | closing _ | handle _ | taking _ | teardown _ | work _ => cases h

theorem flight?_call (request : Request κ V E) : request.call.flight? = none := by
  cases request <;> rfl

/-- Nothing is in flight after code has ended, unless it was before. -/
theorem flight?_resume (call : Call κ V E) (result : Except Fault (Except E V)) :
    (resume call result).flight? = none ∨ (resume call result).flight? = call.flight? := by
  cases call with
  | inside use =>
      cases use with
      | draining stage | await stage =>
          cases result with
          | ok _ => exact .inr rfl
          | error _ => exact .inl rfl
      | schedule _ | drain _ | pendingSize _ | finishedSize _ | busy => exact .inl rfl
  | opening _ => exact .inr rfl
  | closing _ | handle _ | taking _ | teardown _ | work _ => exact .inl rfl

/-! ### Steps of parts that deliver -/

/-- What one step of a part `p` may be, as far as it delivers: `flight?` says what such a part has
in flight, and `delivering?` what it is about to deliver. -/
inductive Delivers {γ β : Type} (flight? : γ → Option (Finished κ V E))
    (delivering? : γ → Option (Finished κ V E × γ)) (s : Pipeline κ V E) (p : γ) :
    Pipeline κ V E → List (Event V E ν) → Turn κ γ β → Prop where
  /-- Nothing is taken out, and nothing is delivered. -/
  | idle {s' : Pipeline κ V E} {events : List (Event V E ν)} {r : Turn κ γ β} :
      s'.finished.value = s.finished.value → (∀ event ∈ events, event.source ≠ .delivery) →
      (∀ p', r.next? = some p' → flight? p' = none ∨ flight? p' = flight? p) →
      (∀ code p', r ≠ .run code p') → Delivers flight? delivering? s p s' events r
  | received {s' : Pipeline κ V E} (f : Finished κ V E) (p' : γ) :
      s.finished.value = f :: s'.finished.value → flight? p' = some f →
      Delivers flight? delivering? s p s' [.received f.ticket] (.stay p')
  | delivered (f : Finished κ V E) (p' : γ) : delivering? p = some (f, p') →
      Delivers flight? delivering? s p s [deliveryEvent f]
        (match f.callback? with
          | none => .stay p'
          | some code => .run code p')

section Parts

variable {γ β γ' β' : Type} {flight? : γ → Option (Finished κ V E)}
  {delivering? : γ → Option (Finished κ V E × γ)} {flight?' : γ' → Option (Finished κ V E)}
  {delivering?' : γ' → Option (Finished κ V E × γ')} {p : γ} {p' : γ'}

/-- A silent step that leaves the finished channel as it is and has nothing in flight after it. -/
theorem Delivers.silent {r : Turn κ γ β} (hfinished : s'.finished.value = s.finished.value)
    (hnext : ∀ p', r.next? = some p' → flight? p' = none) (hrun : ∀ code p', r ≠ .run code p') :
    Delivers flight? delivering? s p s' ([] : List (Event V E ν)) r :=
  .idle hfinished nofun (fun p' h => .inl (hnext p' h)) hrun

/-- A silent step with which the part is over. -/
theorem Delivers.over {r : Turn κ γ β} (hfinished : s'.finished.value = s.finished.value)
    (hover : r.next? = none) :
    Delivers flight? delivering? s p s' ([] : List (Event V E ν)) r := by
  refine .silent hfinished (fun p' hnext => ?_) fun code p' hrun => ?_
  · rw [hover] at hnext
    cases hnext
  · rw [hrun] at hover
    cases hover

/-- A part of a part delivers as the part does. -/
theorem Delivers.within {r : Turn κ γ β} {wrap : γ → γ'} {answered : β → Turn κ γ' β'}
    {failed : Fault → Turn κ γ' β'} (h : Delivers flight? delivering? s p s' events r)
    (hwrap : p' = wrap p) (hflight : ∀ p, flight?' (wrap p) = flight? p)
    (hdelivering : delivering?' (wrap p) = (delivering? p).map (Prod.map id wrap))
    (hanswered : ∀ b, (∀ p', (answered b).next? = some p' → flight?' p' = none) ∧
      ∀ code p', answered b ≠ .run code p')
    (hfailed : ∀ fault, (∀ p', (failed fault).next? = some p' → flight?' p' = none) ∧
      ∀ code p', failed fault ≠ .run code p') :
    Delivers flight?' delivering?' s p' s' events (r.within wrap answered failed) := by
  subst hwrap
  cases h with
  | idle hfinished hsource hnext hrun =>
      cases r with
      | stay q =>
          refine .idle hfinished hsource ?_ fun _ _ => nofun
          rintro q' ⟨⟩
          rw [hflight, hflight]
          exact hnext q rfl
      | run code q => exact absurd rfl (hrun code q)
      | ret b =>
          exact .idle hfinished hsource (fun q' hq => .inl ((hanswered b).1 q' hq)) (hanswered b).2
      | fail fault =>
          exact .idle hfinished hsource (fun q' hq => .inl ((hfailed fault).1 q' hq))
            (hfailed fault).2
      | abort => exact .idle hfinished hsource nofun fun _ _ => nofun
  | received f q hvalue hq => exact .received f (wrap q) hvalue ((hflight q).trans hq)
  | delivered f q hq =>
      have hstep : Delivers flight?' delivering?' s (wrap p) s [(deliveryEvent f : Event V E ν)]
          (match f.callback? with
            | none => (.stay (wrap q) : Turn κ γ' β')
            | some code => .run code (wrap q)) :=
        .delivered f (wrap q) (hdelivering.trans (by rw [hq]; rfl))
      cases hcode : f.callback? <;> rw [hcode] at hstep <;> exact hstep

/-- A pop from the finished channel comes to hold what it takes out. -/
theorem delivers_pop {pop : Channel.Pop (Finished κ V E)} {finished : Channel (Finished κ V E)}
    {marks : List (Channel.Mark (Finished κ V E))}
    {r : Turn κ (Channel.Pop (Finished κ V E)) (Option (Finished κ V E))}
    {wrap : Channel.Pop (Finished κ V E) → γ} {answered : Option (Finished κ V E) → Turn κ γ β}
    (h : pop.turn t choice s.finished = some (finished, marks, r))
    (hflight : ∀ pop, flight? (wrap pop) = pop.held)
    (hnone : ∀ p', (answered none).next? = some p' → flight? p' = none)
    (hsome : ∀ f p', (answered (some f)).next? = some p' → flight? p' = some f)
    (hrun : ∀ answer code p', answered answer ≠ .run code p') :
    Delivers flight? delivering? s (wrap pop) { s with finished := finished }
      (marks.flatMap finishedEvent : List (Event V E ν)) (r.within wrap answered .fail) := by
  rcases Channel.Pop.marks_of_turn h with ⟨hvalue, rfl⟩ | ⟨f, again, hphase, hvalue, rfl, rfl⟩
  · have hheld := Channel.Pop.held_of_turn h
    refine .idle hvalue nofun (fun q hq => ?_) fun code q hr => ?_
    · rw [hflight, hheld]
      rcases r with pop' | ⟨code, pop'⟩ | answer | _ | _
      · cases hq
        exact .inr (hflight pop')
      · exact absurd rfl ((Channel.Pop.turn_plain h).2 code pop')
      · cases answer with
        | none => exact .inl (hnone q hq)
        | some f => exact .inr (hsome f q hq)
      · cases hq
      · cases hq
    · rcases r with pop' | ⟨code', pop'⟩ | answer | _ | _
      · cases hr
      · exact (Channel.Pop.turn_plain h).2 code' pop' rfl
      · exact hrun answer code q hr
      · cases hr
      · cases hr
  · exact .received f _ hvalue (hflight _)

end Parts

/-- A drain takes out and delivers. -/
theorem delivers_drain {stage : Drain κ V E} {r : Turn κ (Drain κ V E) Bool}
    (h : stage.turn t choice s = some (s', events, r)) :
    Delivers Drain.flight? Drain.delivering? s stage s' events r := by
  cases stage with
  | going left =>
      cases left <;>
      · cases h
        refine .silent rfl ?_ fun _ _ => nofun
        rintro p ⟨⟩
        rfl
  | popping left pop =>
      obtain ⟨finished, marks, r', hpop, rfl, rfl, rfl⟩ := exists_of_onFinished h
      refine delivers_pop hpop (fun _ => rfl) ?_ ?_ ?_
      · rintro p ⟨⟩
        rfl
      · rintro f p ⟨⟩
        rfl
      · rintro (_ | f) <;> exact fun _ _ => nofun
  | delivering left f =>
      cases h
      exact .delivered f (Drain.going left) rfl
  | checking phase =>
      obtain ⟨⟨finished, r'⟩, hsize, heq⟩ := Option.map_eq_some_iff.mp h
      cases heq
      refine .silent (Channel.value_of_sizeTurn hsize) ?_ ?_
      · intro p hp
        cases r' <;> cases hp <;> rfl
      · intro code p hr
        cases r' with
        | run code' phase' => exact Channel.sizeTurn_ne_run hsize
        | stay _ | ret _ | fail _ | abort => cases hr
  | failing fault =>
      cases h
      exact .over rfl rfl

/-- An await takes out and delivers. -/
theorem delivers_await {stage : Await κ V E} {r : Turn κ (Await κ V E) Bool}
    (h : stage.turn t choice s = some (s', events, r)) :
    Delivers Await.flight? Await.delivering? s stage s' events r := by
  cases stage with
  | popping pop =>
      obtain ⟨finished, marks, r', hpop, rfl, rfl, rfl⟩ := exists_of_onFinished h
      refine delivers_pop hpop (fun _ => rfl) nofun ?_ ?_
      · rintro f p ⟨⟩
        rfl
      · rintro (_ | f) <;> exact fun _ _ => nofun
  | delivering f =>
      cases h
      exact .delivered f (Await.ending (.ok ())) rfl
  | ending outcome =>
      cases outcome <;>
      · cases h
        exact .over rfl rfl

/-- **Inversion.** Every step of a call that has no stage on which others depend takes a result
out, delivers one, or does neither. -/
theorem delivers_of_turn (hpart : call.part = .other)
    (h : turn plan t choice s call = some (s', events, r)) :
    Delivers Call.flight? Call.delivering? s call s' events r := by
  cases Call.turned_of_turn h with
  | lent use _ =>
      refine .idle rfl (by rintro _ ⟨⟩) ?_ fun _ _ => (by rintro ⟨⟩)
      rintro p ⟨⟩
      exact .inr rfl
  | @inside use _ _ _ hturn =>
      cases use with
      | schedule stage => cases hpart
      | drain max =>
          cases hturn
          refine .silent rfl ?_ fun _ _ => (by rintro ⟨⟩)
          rintro p ⟨⟩
          rfl
      | draining stage =>
          obtain ⟨r'', hdrain, rfl⟩ := exists_of_nest hturn
          rw [within_within]
          refine (delivers_drain hdrain).within rfl (fun _ => rfl) ?_
            (fun _ => ⟨?_, fun _ _ => (by rintro ⟨⟩)⟩) fun _ => ⟨?_, fun _ _ => (by rintro ⟨⟩)⟩
          · cases stage <;> rfl
          · rintro p ⟨⟩
            rfl
          · rintro p ⟨⟩
            rfl
      | await stage =>
          obtain ⟨r'', hawait, rfl⟩ := exists_of_nest hturn
          rw [within_within]
          refine (delivers_await hawait).within rfl (fun _ => rfl) ?_
            (fun _ => ⟨?_, fun _ _ => (by rintro ⟨⟩)⟩) fun _ => ⟨?_, fun _ _ => (by rintro ⟨⟩)⟩
          · cases stage <;> rfl
          · rintro p ⟨⟩
            rfl
          · rintro p ⟨⟩
            rfl
      | pendingSize phase | finishedSize phase =>
          obtain ⟨⟨channel, r''⟩, hsize, heq⟩ := Option.map_eq_some_iff.mp hturn
          cases heq
          refine .silent (by first | rfl | exact Channel.value_of_sizeTurn hsize) ?_ ?_
          · intro p hp
            cases r'' <;> cases hp <;> rfl
          · intro code p hr
            cases r'' with
            | run code' phase' => exact Channel.sizeTurn_ne_run hsize
            | stay _ | ret _ | fail _ | abort => cases hr
      | busy =>
          cases hturn
          refine .silent rfl ?_ fun _ _ => (by rintro ⟨⟩)
          rintro p ⟨⟩
          rfl
  | refused _ _ | answered _ | failed _ | missed _ _ => exact .over rfl rfl
  | taken _ _ _ =>
      refine .silent rfl ?_ fun _ _ => (by rintro ⟨⟩)
      rintro p ⟨⟩
      rfl
  | @handle use _ _ _ _ => cases use <;> cases hpart
  | teardown _ | work _ => cases hpart

/-- Every other call takes nothing out and delivers nothing, and so it goes on. -/
theorem quiet_of_turn (hsound : call.IsSound) (hpart : call.part ≠ .other)
    (h : turn plan t choice s call = some (s', events, r)) :
    (∀ event ∈ events, event.source ≠ .delivery) ∧
      ∀ call', r.next? = some call' → call'.flight? = none := by
  constructor
  · have hproper := hsound.proper
    cases hcall : call.part with
    | scheduling stage =>
        obtain ⟨r', hturn, -⟩ := turn_scheduling hcall h
        rw [hcall] at hproper
        rcases Schedule.pending_of_turn (Schedule.turned_of_turn hturn) hproper with
          ⟨-, rfl⟩ | ⟨ticket, task, -, -, rfl⟩
        · exact nofun
        · simp [Event.source]
    | tearing d =>
        obtain ⟨r', hturn, -⟩ := turn_tearing hcall h
        rw [hcall] at hproper
        intro event hevent
        rw [(Teardown.pending_of_turn (Teardown.turned_of_turn hturn) hproper).1 event hevent]
        decide
    | working w =>
        obtain ⟨r', hturn, -⟩ := turn_working hcall h
        intro event hevent
        rw [Work.source_of_turn (Work.turned_of_turn hturn) event hevent]
        decide
    | reading phase =>
        obtain ⟨intake, progress, -, -, rfl, -⟩ := turn_reading hcall h
        exact nofun
    | other => exact absurd hcall hpart
  · intro call' hnext
    cases Call.turned_of_turn h with
    | @inside use _ _ r' hturn =>
        cases use with
        | schedule stage =>
            obtain ⟨r'', -, rfl⟩ := exists_of_nest hturn
            cases r'' <;> cases hnext <;> rfl
        | drain _ | draining _ | await _ | pendingSize _ | finishedSize _ | busy =>
            exact absurd rfl hpart
    | @handle _ _ _ r' _ => cases r' <;> cases hnext <;> rfl
    | @teardown _ _ _ r' _ => cases r' <;> cases hnext <;> rfl
    | @work _ _ _ r' _ => cases r' <;> cases hnext <;> rfl
    | lent _ _ | refused _ _ | answered _ | failed _ | missed _ _ | taken _ _ _ =>
        exact absurd rfl hpart

/-! ### What calls run -/

/-- What code a call may run, what it notes then, and as what it goes on when the code has ended. -/
inductive Runs (plan : Plan κ) : Call κ V E → List (Event V E ν) → κ → Call κ V E → Prop where
  /-- The body of a task begins. -/
  | body (ticket : Ticket) (task : Task κ V E) :
      Runs plan (.work (.starting ticket task)) [.began ticket] task.body
        (.work (.running ticket task))
  /-- The hook is called. -/
  | hook (code : κ) : plan.hook = some code →
      Runs plan (.work (.publishing .hooking)) [.hooked] code (.work (.publishing .hooking))
  /-- The destructor of a refused job. -/
  | refused {call after : Call κ V E} (code : κ) (failure : Failure) :
      call.part = .scheduling (.dropping (some code) failure) → Runs plan call [] code after
  /-- The destructor of a discarded task. -/
  | discarded {d : Teardown κ V E} {after : Call κ V E} {n : Nat} {entry : Entry κ V E}
      {rest : List (Entry κ V E)} {fault : Option Fault} (code : κ) :
      d.stage = .clearing (.finalizing n (entry :: rest) fault) → entry.onDrop? = some code →
      Runs plan (.teardown d) [] code after
  /-- The callback that fits a result. -/
  | delivered {call after : Call κ V E} (f : Finished κ V E) (code : κ) :
      call.delivering? = some (f, after) → f.callback? = some code →
      Runs plan call [deliveryEvent f] code after

/-- A scheduling runs the destructor of a job that it has refused. -/
theorem Schedule.eq_of_run {stage stage' : Schedule κ V E} {code : κ}
    (h : stage.turn t choice s = some (s', events, .run code stage')) :
    events = [] ∧ ∃ failure, stage = .dropping (some code) failure := by
  generalize hr : (Turn.run code stage' : Turn κ (Schedule κ V E) (Except Failure Unit)) = r at h
  cases stepped_of_turn h with
  | @pushing _ _ _ r' hpush =>
      cases r' with
      | run code' p' => exact absurd hpush push_ne_run
      | stay _ | ret _ | fail _ | abort => cases hr
  | dropping _ failure =>
      cases hr
      exact ⟨rfl, failure, rfl⟩
  | empty _ _ | checked _ _ _ | entered _ _ | admitted _ _ | refused _ _ | accepted | turnedAway _
  | failed _ | dropped _ | answered _ | struck _ => cases hr

/-- A clear runs the finalizer of the next item that it has removed. -/
theorem clear_of_run {c c' : Channel.Clear (Entry κ V E)} {pending : Channel (Entry κ V E)}
    {marks : List (Channel.Mark (Entry κ V E))} {code : κ}
    (h : c.turn Entry.onDrop? t choice s.pending = some (pending, marks, .run code c')) :
    marks.flatMap (pendingEvent (ν := ν)) = [] ∧ ∃ n entry rest fault,
      c = .finalizing n (entry :: rest) fault ∧ entry.onDrop? = some code := by
  cases c with
  | taking phase =>
      obtain ⟨⟨pending', progress⟩, -, heq⟩ := Option.map_eq_some_iff.mp h
      rcases progress with _ | _ | _ <;> cases heq
  | finalizing n rest fault =>
      cases rest with
      | nil => cases fault <;> cases h
      | cons entry rest =>
          cases hcode : entry.onDrop? with
          | none =>
              rw [Channel.Clear.turn, hcode] at h
              cases h
          | some code' =>
              rw [Channel.Clear.turn, hcode] at h
              cases h
              exact ⟨rfl, n, entry, rest, fault, rfl, hcode⟩
  | broken => cases h

/-- A teardown runs the destructor of a task that it has discarded. -/
theorem Teardown.eq_of_run {d d' : Teardown κ V E} {code : κ}
    (h : d.turn t choice s = some (s', events, .run code d')) :
    events = [] ∧ ∃ n entry rest fault, d.stage = .clearing (.finalizing n (entry :: rest) fault) ∧
      entry.onDrop? = some code := by
  have hstep := turned_of_turn h
  generalize hr : (Turn.run code d' : Turn κ (Teardown κ V E) (Except Failure Unit)) = r at hstep
  cases hstep with
  | claimed | closing | cleared | joined => cases hr
  | closed hstage _ _ _ =>
      rw [turn, hstage] at h
      obtain ⟨⟨intake, progress⟩, -, heq⟩ := Option.map_eq_some_iff.mp h
      rcases progress with _ | _ | _ <;> cases heq
  | @clearing c pending marks r' hstage hclear =>
      cases r' with
      | run code' c' =>
          cases hr
          obtain ⟨hevents, n, entry, rest, fault, rfl, hcode⟩ := clear_of_run hclear
          exact ⟨hevents, n, entry, rest, fault, hstage, hcode⟩
      | stay _ | ret _ | fail _ | abort => cases hr
  | @stopping _ _ _ _ r' _ hpush =>
      cases r' with
      | run code' p' => exact absurd hpush Schedule.push_ne_run
      | stay _ | ret _ | fail _ | abort => cases hr
  | rested _ _ _ _ hrun => exact absurd hr.symm (hrun _ _)
  | @counting _ _ _ _ _ r' _ hsize _ =>
      cases r' with
      | run code' phase' => exact absurd hsize Channel.sizeTurn_ne_run
      | stay _ | ret _ | fail _ | abort => cases hr

/-- The worker runs the body of a task, or the hook. -/
theorem Work.runs_of_turn {w w' : Work κ V E} {code : κ}
    (h : Work.Turned plan t choice s w s' events (.run code w')) :
    Runs plan (.work w) events code (.work w') := by
  generalize hr : (Turn.run code w' : Turn κ (Work κ V E) Unit) = r at h
  cases h with
  | began ticket task =>
      cases hr
      exact .body ticket task
  | @popped p pending marks r' hpop =>
      rcases r' with p' | ⟨code', p'⟩ | answer | fault | _
      · cases hr
      · exact absurd rfl ((Channel.Pop.turn_plain hpop).2 code' p')
      · rcases answer with _ | _ | _ <;> cases hr
      · cases hr
      · cases hr
  | @published p finished marks r' hpush =>
      cases r' with
      | run code' p' =>
          cases hr
          cases p with
          | adding item phase =>
              obtain ⟨⟨finished', progress⟩, -, heq⟩ := Option.map_eq_some_iff.mp hpush
              rcases progress with _ | _ | _ <;> cases heq
          | notifying => cases hpush
          | hooking =>
              cases hcode : plan.hook with
              | none =>
                  simp only [Channel.Push.turn, hcode] at hpush
                  cases hpush
              | some hook =>
                  simp only [Channel.Push.turn, hcode] at hpush
                  cases hpush
                  exact .hook code hcode
          | ending outcome => cases outcome <;> cases hpush
      | stay _ | ret _ | fail _ | abort => cases hr
  | entered | returned | rested | left | failed | died => cases hr

/-- **Inversion.** Whatever a call runs is the body of a task that begins, the hook, the destructor
of a refused or of a discarded task, or the callback of the result that it delivers. -/
theorem runs_of_turn {code : κ} {call' : Call κ V E}
    (h : turn plan t choice s call = some (s', events, .run code call')) :
    Runs plan call events code call' := by
  cases hpart : call.part with
  | scheduling stage =>
      obtain ⟨r', hturn, hlift⟩ := turn_scheduling hpart h
      obtain ⟨stage', rfl⟩ := hlift.run code call' rfl
      obtain ⟨rfl, failure, rfl⟩ := Schedule.eq_of_run hturn
      exact .refused code failure hpart
  | tearing d =>
      cases call with
      | teardown d' =>
          obtain ⟨r', hturn, hr⟩ := exists_of_nest h
          cases r' with
          | run code' d'' =>
              cases hr
              obtain ⟨rfl, n, entry, rest, fault, hstage, hcode⟩ := Teardown.eq_of_run hturn
              exact .discarded code hstage hcode
          | stay _ | ret _ | fail _ | abort => cases hr
      | inside use | handle use => cases use <;> cases hpart
      | opening _ | closing _ | taking _ | work _ => cases hpart
  | working w =>
      have hworking : call.part.working? = some w := by rw [hpart]; rfl
      obtain rfl := eq_work_of_working? hworking
      obtain ⟨r', hturn, hr⟩ := exists_of_nest h
      cases r' with
      | run code' w' =>
          cases hr
          exact Work.runs_of_turn (Work.turned_of_turn hturn)
      | stay _ | ret _ | fail _ | abort => cases hr
  | reading phase =>
      obtain ⟨_, _, -, -, -, -, hrun, -⟩ := turn_reading hpart h
      exact absurd rfl (hrun code call')
  | other =>
      have hstep := delivers_of_turn hpart h
      generalize hr : (Turn.run code call' : Turn κ (Call κ V E) Answer) = r at hstep
      cases hstep with
      | idle _ _ _ hrun => exact absurd hr.symm (hrun code call')
      | received => cases hr
      | delivered f after hdelivering =>
          cases hcode : f.callback? with
          | none =>
              rw [hcode] at hr
              cases hr
          | some code' =>
              rw [hcode] at hr
              cases hr
              exact .delivered f code hdelivering hcode

end Offload.Pipeline
