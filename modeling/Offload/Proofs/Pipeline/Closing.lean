import Offload.Proofs.Pipeline.Gate

/-!
# The way down

A pipeline is taken from its owner once, so there is at most one teardown, and its stage says
which landmarks have been passed. What the landmarks promise holds from then on: once the intake
is closed it stays closed; once the pending channel is cleared there is no task in it; the last
entry is queued once, and nothing is queued behind it; and once the worker's thread is joined it
has ended.

## Main results

* `tame_of_turn`: what any other call does to the state on which these promises rest.
* `closing_of_moved`: the promises, kept by every step of every thread.
-/

namespace Offload.Pipeline

variable {κ ω V E ν : Type} {plan : Plan κ} {t u : Tid} {choice : Choice}
  {s s' : Pipeline κ V E} {events : List (Event V E ν)} {call : Call κ V E}
  {r : Turn κ (Call κ V E) Answer}

/-! ### Steps of other calls -/

/-- Whether a step is none of a teardown's: the intake stays as it is, no landmark is passed, and
a task is queued at most at the back, and then the intake is open. -/
structure Tame (s s' : Pipeline κ V E) (events : List (Event V E ν)) : Prop where
  value_eq : s'.intake.value = s.intake.value
  joinable_eq : s'.joinable = s.joinable
  health : s.health ≠ .alive → s'.health ≠ .alive
  owned : s'.owned = true → s.owned = true
  landmark : ∀ event ∈ events, event.landmark? = none
  pending : s'.pending.value <:+ s.pending.value ∨
    s.intake.value = true ∧ ∃ ticket task, s'.pending.value = s.pending.value ++ [.run ticket task]

theorem Tame.ne_landmark (h : Tame s s' events) (x : Landmark) :
    ∀ event ∈ events, event.landmark? ≠ some x := by
  intro event hevent
  rw [h.landmark event hevent]
  nofun

/-- Events of another source pass no landmark. -/
theorem landmark_of_source (source : Source) (hne : source ≠ .teardown)
    (h : ∀ event ∈ events, event.source = source) :
    ∀ event ∈ events, event.landmark? = none := by
  intro event hevent
  cases hx : event.landmark? with
  | none => rfl
  | some x =>
      have hsource := source_of_landmark (show event.landmark? ≠ none by simp [hx])
      exact absurd ((h event hevent).symm.trans hsource) hne

/-- The teardown that a part is. -/
def Part.tearing? : Part κ V E → Option (Teardown κ V E)
  | .tearing d => some d
  | .scheduling _ | .reading _ | .working _ | .other => none

theorem tearing?_of_isFresh {part : Part κ V E} (h : part.IsFresh) : part.tearing? = none := by
  cases h <;> rfl

theorem tearing?_resume (part : Part κ V E) (result : Except Fault (Except E V)) :
    (part.resume result).tearing? = part.tearing?.map (Teardown.resume result) := by
  cases part <;> rfl

theorem eq_tearing_of_tearing? {part : Part κ V E} {d : Teardown κ V E}
    (h : part.tearing? = some d) : part = .tearing d := by
  cases part with
  | tearing _ =>
      cases h
      rfl
  | scheduling _ | reading _ | working _ | other => cases h

/-- What goes on of a teardown is the teardown. -/
theorem tearing?_getD (next : Option (Teardown κ V E)) :
    ((next.map Part.tearing).getD .other).tearing? = next := by
  cases next <;> rfl

/-- **Other calls are tame.** A call that is no teardown takes a tame step and is none
afterwards, unless it takes the pipeline from its owner: then a teardown begins. -/
theorem tame_of_turn (hsound : call.IsSound) (hpart : call.part.tearing? = none)
    (h : turn plan t choice s call = some (s', events, r))
    (hfound : call.part.ahead ≠ none → s.intake.value = true) :
    Tame s s' events ∧
      ((nextPart r).tearing? = none ∨
        s.owned = true ∧ s'.owned = false ∧ ∃ reporting,
          (nextPart r).tearing? = some { reporting := reporting }) := by
  have hproper := hsound.proper
  cases hcall : call.part with
  | tearing d =>
      rw [hcall] at hpart
      cases hpart
  | scheduling stage =>
      obtain ⟨r', hturn, hlift⟩ := turn_scheduling hcall h
      rw [hcall] at hproper hfound
      have hturn := Schedule.turned_of_turn hturn
      obtain ⟨hvalue, -, hhealth, hjoinable, howned⟩ := Schedule.frame_of_turn hturn
      refine ⟨⟨hvalue, hjoinable, by rw [hhealth]; exact id, by rw [howned]; exact id, ?_, ?_⟩, ?_⟩
      · rcases Schedule.pending_of_turn hturn hproper with ⟨-, rfl⟩ | ⟨ticket, task, -, -, rfl⟩
        · simp
        · simp [Event.landmark?]
      · obtain ⟨hpending, -⟩ | ⟨ticket, task, hahead, hpending, -⟩ :=
          Schedule.pending_of_turn hturn hproper
        · exact .inl (hpending ▸ List.suffix_rfl)
        · refine .inr ⟨hfound ?_, ticket, task, hpending⟩
          rw [show (Part.scheduling stage).ahead = _ from hahead]
          exact Option.some_ne_none _
      · rw [hlift.nextPart_eq]
        cases r'.next? <;> exact .inl rfl
  | working w =>
      obtain ⟨r', hturn, hlift⟩ := turn_working hcall h
      have hturn := Work.turned_of_turn hturn
      obtain ⟨hintake, hjoinable, howned, -⟩ := Work.frame_of_turn hturn
      refine ⟨⟨by rw [hintake], hjoinable, ?_, by rw [howned]; exact id,
        landmark_of_source .work (by decide) (Work.source_of_turn hturn),
        .inl (Work.pending_of_turn hturn).1⟩, ?_⟩
      · rcases Work.health_of_turn hturn with ⟨-, hhealth⟩ | ⟨-, ⟨-, hhealth⟩ | ⟨fault, -, hhealth⟩⟩
        · rw [hhealth]
          exact id
        · rw [hhealth]
          exact fun _ => nofun
        · rw [hhealth]
          exact fun _ => nofun
      · rw [hlift.nextPart_eq]
        cases r'.next? <;> exact .inl rfl
  | reading phase =>
      obtain ⟨intake, progress, hvisit, rfl, rfl, -, -, hnext⟩ := turn_reading hcall h
      refine ⟨⟨?_, rfl, id, id, nofun, .inl List.suffix_rfl⟩, ?_⟩
      · rcases Visit.value_of_turn hvisit with ⟨hvalue, -, -⟩ | ⟨again, -, hvalue, -, -⟩
        · exact hvalue
        · exact hvalue
      · rw [hnext]
        cases progress <;> exact .inl rfl
  | other =>
      obtain ⟨haside, -, hfresh⟩ | ⟨howned, rfl, rfl, reporting, rfl⟩ :=
        turn_other hcall hsound.opens h
      · refine ⟨⟨by rw [haside.intake_eq], haside.joinable_eq, by rw [haside.health_eq]; exact id,
          by rw [haside.owned_eq]; exact id,
          landmark_of_source .delivery (by decide) haside.source_eq,
          .inl (haside.pending_eq ▸ List.suffix_rfl)⟩, .inl (tearing?_of_isFresh hfresh)⟩
      · exact ⟨⟨rfl, rfl, id, nofun, nofun, .inl List.suffix_rfl⟩,
          .inr ⟨howned, rfl, reporting, rfl⟩⟩

/-! ### What landmarks promise -/

/-- What the landmarks promise of the state: the worker's thread is claimed before any but the
first; the intake is closed from the first on; no task is pending once the pending channel has
been cleared; the last entry is queued once, and nothing behind it; and the worker has ended once
its thread has been joined. -/
structure Kept (s : Pipeline κ V E) (history : List (Tid × Event V E ν)) : Prop where
  joinable : s.joinable = true → ¬ Passed .cleared history ∧ ¬ Passed .queued history
  shut : Passed .closed history ∨ Passed .cleared history ∨ Passed .queued history →
    s.intake.value = false
  cleared : Passed .cleared history → ticketsOf s.pending.value = []
  queued : .stop ∈ s.pending.value → Passed .queued history
  last : ∀ before after, s.pending.value = before ++ .stop :: after → after = []
  once : passes .queued history ≤ 1
  joined : Passed .stopped history → s.health ≠ .alive

/-- What the stage of the only teardown says of the landmarks. -/
structure Promise (d : Teardown κ V E) (s : Pipeline κ V E) (history : List (Tid × Event V E ν)) :
    Prop where
  clears : d.stage.clears = true → ¬ Passed .cleared history
  stops : d.stage.stops = true → ¬ Passed .queued history
  claimed : d.stage.stops = true → s.joinable = false
  shut : d.stage.hasClosed = true → s.intake.value = false
  joined : d.stage.hasJoined = true → s.health ≠ .alive

variable {history : List (Tid × Event V E ν)}

/-- A tame step keeps what the landmarks promise. -/
theorem kept_of_tame (h : Tame s s' events) (hs : Kept s history) :
    Kept s' (history ++ events.map (Prod.mk t)) := by
  have hpassed : ∀ x, Passed x (history ++ events.map (Prod.mk t)) ↔ Passed x history :=
    fun x => passed_append_of_ne (h.ne_landmark x)
  refine ⟨?_, ?_, ?_, ?_, ?_, ?_, ?_⟩
  · rw [h.joinable_eq, hpassed, hpassed]
    exact hs.joinable
  · rw [h.value_eq, hpassed, hpassed, hpassed]
    exact hs.shut
  · rw [hpassed]
    intro hcleared
    rcases h.pending with ⟨before, hbefore⟩ | ⟨hopen, -⟩
    · have hnil := hs.cleared hcleared
      rw [← hbefore, ticketsOf_append] at hnil
      exact (List.append_eq_nil_iff.mp hnil).2
    · rw [hs.shut (.inr (.inl hcleared))] at hopen
      cases hopen
  · rw [hpassed]
    intro hstop
    rcases h.pending with hsuffix | ⟨-, ticket, task, hpending⟩
    · exact hs.queued (hsuffix.subset hstop)
    · rw [hpending, List.mem_append, List.mem_singleton] at hstop
      exact hs.queued (hstop.resolve_right nofun)
  · intro before after hsplit
    rcases h.pending with ⟨front, hfront⟩ | ⟨hopen, ticket, task, hpending⟩
    · refine hs.last (front ++ before) after ?_
      rw [← hfront, hsplit, List.append_assoc]
    · have hstop : .stop ∈ s.pending.value ++ [Entry.run ticket task] := by
        rw [← hpending, hsplit]
        simp
      rw [List.mem_append, List.mem_singleton] at hstop
      rw [hs.shut (.inr (.inr (hs.queued (hstop.resolve_right nofun))))] at hopen
      cases hopen
  · rw [passes_append_of_ne (h.ne_landmark .queued)]
    exact hs.once
  · rw [hpassed]
    exact fun hstopped => h.health (hs.joined hstopped)

/-- A tame step keeps what a teardown says. -/
theorem promise_of_tame {d : Teardown κ V E} (h : Tame s s' events) (hd : Promise d s history) :
    Promise d s' (history ++ events.map (Prod.mk t)) := by
  have hpassed : ∀ x, Passed x (history ++ events.map (Prod.mk t)) ↔ Passed x history :=
    fun x => passed_append_of_ne (h.ne_landmark x)
  refine ⟨?_, ?_, ?_, ?_, fun hjoined => h.health (hd.joined hjoined)⟩
  · rw [hpassed]
    exact hd.clears
  · rw [hpassed]
    exact hd.stops
  · rw [h.joinable_eq]
    exact hd.claimed
  · rw [h.value_eq]
    exact hd.shut

/-! ### Steps of the teardown -/

/-- A step that passes no landmark and changes nothing but the finished channel or the lock of
the intake is tame. -/
theorem Tame.of_frame {intake : Monitor Bool} {finished : Channel (Finished κ V E)}
    (hvalue : intake.value = s.intake.value) (h : ∀ event ∈ events, event.landmark? = none) :
    Tame s { s with intake := intake, finished := finished } events :=
  ⟨hvalue, rfl, id, id, h, .inl List.suffix_rfl⟩

/-- A step that passes no landmark and leaves the entries of the pending channel as they are is
tame. -/
theorem Tame.of_pending {pending : Channel (Entry κ V E)}
    (hvalue : pending.value = s.pending.value) :
    Tame s { s with pending := pending } ([] : List (Event V E ν)) :=
  ⟨rfl, rfl, id, id, nofun, .inl (hvalue ▸ List.suffix_rfl)⟩

/-- What has been added last, and was not there before, is the last. -/
theorem eq_nil_of_split {entry : Entry κ V E} {entries before after : List (Entry κ V E)}
    (hnone : entry ∉ entries) (hsplit : entries ++ [entry] = before ++ entry :: after) :
    after = [] := by
  rcases List.append_eq_append_iff.mp hsplit with ⟨between, rfl, hafter⟩ | ⟨between, hbefore, hlast⟩
  · cases between with
    | nil =>
        cases hafter
        rfl
    | cons e between =>
        cases between <;> cases hafter
  · cases between with
    | nil =>
        cases hlast
        rfl
    | cons e between =>
        refine absurd ?_ hnone
        rw [hbefore]
        obtain ⟨rfl, -⟩ := List.cons.inj hlast
        simp

/-- Once the intake is closed, it is noted. -/
theorem kept_closed {intake : Monitor Bool} (hvalue : intake.value = false)
    (hs : Kept s history) :
    Kept { s with intake := intake }
      (history ++ ([.closed] : List (Event V E ν)).map (Prod.mk u)) := by
  have hpassed : ∀ x, x ≠ .closed →
      (Passed x (history ++ ([.closed] : List (Event V E ν)).map (Prod.mk u)) ↔
        Passed x history) :=
    fun x hx => passed_append_of_ne (by simpa [Event.landmark?] using hx.symm)
  refine ⟨?_, fun _ => hvalue, ?_, ?_, hs.last, ?_, ?_⟩
  · rw [hpassed .cleared nofun, hpassed .queued nofun]
    exact hs.joinable
  · rw [hpassed .cleared nofun]
    exact hs.cleared
  · rw [hpassed .queued nofun]
    exact hs.queued
  · rw [passes_append_of_ne (by simp [Event.landmark?])]
    exact hs.once
  · rw [hpassed .stopped nofun]
    exact hs.joined

/-- Behind a closed intake the pending channel is cleared. -/
theorem kept_cleared {pending : Channel (Entry κ V E)} {tickets : List Nat}
    (hvalue : pending.value = []) (hjoinable : s.joinable = false)
    (hclosed : s.intake.value = false) (hs : Kept s history) :
    Kept { s with pending := pending }
      (history ++ ([.discarded tickets] : List (Event V E ν)).map (Prod.mk u)) := by
  refine ⟨fun h => ?_, fun _ => hclosed, fun _ => congrArg ticketsOf hvalue, fun hstop => ?_,
    fun before after hsplit => ?_, ?_, ?_⟩
  · cases hjoinable.symm.trans h
  · have hmem : Entry.stop ∈ ([] : List (Entry κ V E)) := hvalue ▸ hstop
    cases hmem
  · have hnil := hvalue.symm.trans hsplit
    cases before <;> cases hnil
  · rw [passes_append_of_ne (by simp [Event.landmark?])]
    exact hs.once
  · rw [passed_append_of_ne (by simp [Event.landmark?])]
    exact hs.joined

/-- Behind a closed intake the last entry is queued, unless it has been. -/
theorem kept_stopQueued {pending : Channel (Entry κ V E)}
    (hvalue : pending.value = s.pending.value ++ [.stop]) (hjoinable : s.joinable = false)
    (hclosed : s.intake.value = false) (hfresh : ¬ Passed .queued history) (hs : Kept s history) :
    Kept { s with pending := pending }
      (history ++ ([.stopQueued] : List (Event V E ν)).map (Prod.mk u)) := by
  refine ⟨fun h => ?_, fun _ => hclosed, ?_, fun _ => ?_, fun before after hsplit => ?_, ?_, ?_⟩
  · cases hjoinable.symm.trans h
  · rw [passed_append_of_ne (by simp [Event.landmark?])]
    intro hcleared
    have htickets := congrArg ticketsOf hvalue
    rw [ticketsOf_append, hs.cleared hcleared] at htickets
    exact htickets
  · exact passed_append.mpr (.inr ⟨.stopQueued, by simp, rfl⟩)
  · have hnone : Entry.stop ∉ s.pending.value := fun hstop => hfresh (hs.queued hstop)
    exact eq_nil_of_split hnone (hvalue.symm.trans hsplit)
  · rw [passes_append, passes_eq_zero.mpr hfresh]
    simp [Event.landmark?]
  · rw [passed_append_of_ne (by simp [Event.landmark?])]
    exact hs.joined

/-- A worker that has ended is counted as joined. -/
theorem kept_stopped {finished : Channel (Finished κ V E)} (hjoined : s.health ≠ .alive)
    (h : ∀ event ∈ events, ∃ n undelivered, event = .notice (.stopped n undelivered))
    (hs : Kept s history) :
    Kept { s with finished := finished } (history ++ events.map (Prod.mk u)) := by
  have hne : ∀ x, x ≠ .stopped → ∀ event ∈ events, event.landmark? ≠ some x := by
    intro x hx event hevent
    obtain ⟨n, undelivered, rfl⟩ := h event hevent
    simpa [Event.landmark?] using hx.symm
  refine ⟨?_, ?_, ?_, ?_, hs.last, ?_, fun _ => hjoined⟩
  · rw [passed_append_of_ne (hne .cleared nofun), passed_append_of_ne (hne .queued nofun)]
    exact hs.joinable
  · rw [passed_append_of_ne (hne .closed nofun), passed_append_of_ne (hne .cleared nofun),
      passed_append_of_ne (hne .queued nofun)]
    exact hs.shut
  · rw [passed_append_of_ne (hne .cleared nofun)]
    exact hs.cleared
  · rw [passed_append_of_ne (hne .queued nofun)]
    exact hs.queued
  · rw [passes_append_of_ne (hne .queued nofun)]
    exact hs.once

/-- A teardown's step keeps what the landmarks promise. -/
theorem kept_of_tearing {d : Teardown κ V E} {r' : Turn κ (Teardown κ V E) (Except Failure Unit)}
    (h : Teardown.Turned t choice s d s' events r') (hproper : d.stage.IsProper)
    (hd : Promise d s history) (hs : Kept s history) :
    Kept s' (history ++ events.map (Prod.mk u)) := by
  cases h with
  | claimed hstage hjoinable =>
      rw [List.map_nil, List.append_nil]
      exact ⟨nofun, hs.shut, hs.cleared, hs.queued, hs.last, hs.once, hs.joined⟩
  | closing hstage hvisit =>
      rcases Teardown.close_cases hvisit with ⟨hvalue, hanswer⟩ | ⟨hvalue, hanswer⟩
      · rw [hanswer]
        exact kept_of_tame (Tame.of_frame hvalue nofun) hs
      · rw [hanswer]
        exact kept_closed hvalue hs
  | closed hstage hvisit _ _ =>
      rcases Visit.value_of_turn hvisit with ⟨hvalue, -, -⟩ | ⟨again, hphase, -, -, -⟩
      · exact kept_of_tame (Tame.of_frame hvalue nofun) hs
      · cases hphase
  | clearing hstage hclear =>
      have hjoinable := hd.claimed (by rw [hstage]; rfl)
      have hclosed := hd.shut (by rw [hstage]; rfl)
      rcases Teardown.clear_cases ν hclear with ⟨hvalue, hevents⟩ | ⟨hvalue, hevents, -⟩
      · rw [hevents]
        exact kept_of_tame (Tame.of_pending hvalue) hs
      · rw [hevents]
        exact kept_cleared hvalue hjoinable hclosed hs
  | cleared n hstage hevents =>
      refine kept_of_tame (Tame.of_frame rfl fun event hevent => ?_) hs
      rw [hevents event hevent]
      rfl
  | stopping hstage hpush =>
      have hclosed := hd.shut (by rw [hstage]; rfl)
      rw [hstage] at hproper
      obtain ⟨hvalue, hevents⟩ | ⟨hahead, hvalue, hevents⟩ := Teardown.stop_cases ν hpush hproper.2
      · rw [hevents]
        exact kept_of_tame (Tame.of_pending hvalue) hs
      · have hstops : d.stage.stops = true := by
          rw [hstage, Teardown.Stage.stops, hahead]
          rfl
        rw [hevents]
        exact kept_stopQueued hvalue (hd.claimed hstops) hclosed (hd.stops hstops) hs
  | rested hquiet hevents _ _ _ =>
      refine kept_of_tame (Tame.of_frame rfl fun event hevent => ?_) hs
      obtain rfl | ⟨failure, rfl⟩ := hevents event hevent <;> rfl
  | joined n outcome hstage hverdict => exact kept_of_tame (Tame.of_frame rfl nofun) hs
  | counting hstage hsize hevents =>
      have hjoined : s.health ≠ .alive := hd.joined (by rw [hstage]; rfl)
      exact kept_stopped hjoined (fun event hevent => ⟨_, hevents event hevent⟩) hs

/-- A quiet teardown says nothing of the landmarks. -/
theorem promise_of_isQuiet {d : Teardown κ V E} (h : d.stage.isQuiet = true) :
    Promise d s history := by
  obtain ⟨hclears, hstops, hclosed, hjoined⟩ := Teardown.flags_of_isQuiet h
  refine ⟨fun h' => ?_, fun h' => ?_, fun h' => ?_, fun h' => ?_, fun h' => ?_⟩
  · rw [hclears] at h'
    cases h'
  · rw [hstops] at h'
    cases h'
  · rw [hstops] at h'
    cases h'
  · rw [hclosed] at h'
    cases h'
  · rw [hjoined] at h'
    cases h'

/-- A teardown that clears says what it said, and that the channel is cleared once it is. -/
theorem promise_of_clearing {d : Teardown κ V E} {c : Channel.Clear (Entry κ V E)}
    {pending : Channel (Entry κ V E)} {marks : List (Channel.Mark (Entry κ V E))}
    {r' : Turn κ (Channel.Clear (Entry κ V E)) Nat} (hstage : d.stage = .clearing c)
    (h : c.turn Entry.onDrop? t choice s.pending = some (pending, marks, r'))
    (hd : Promise d s history) {stage : Teardown.Stage κ V E}
    (hnext : (∃ n, stage = .cleared n) ∨ ∃ c', r'.next? = some c' ∧ stage = .clearing c') :
    Promise { d with stage := stage } { s with pending := pending }
      (history ++ (marks.flatMap pendingEvent : List (Event V E ν)).map (Prod.mk u)) := by
  have hstops := hd.stops (by rw [hstage]; rfl)
  have hclaimed := hd.claimed (by rw [hstage]; rfl)
  have hclosed := hd.shut (by rw [hstage]; rfl)
  rcases Teardown.clear_cases ν h with ⟨-, hevents⟩ | ⟨-, hevents, rfl⟩
  · rw [hevents, List.map_nil, List.append_nil]
    rcases hnext with ⟨n, rfl⟩ | ⟨c', hc', rfl⟩
    · exact ⟨nofun, fun _ => hstops, fun _ => hclaimed, fun _ => hclosed, nofun⟩
    · refine ⟨fun hclears => ?_, fun _ => hstops, fun _ => hclaimed, fun _ => hclosed, nofun⟩
      exact hd.clears (hstage ▸ Teardown.clears_of_turn h hc' hclears)
  · have hqueued : ¬ Passed .queued (history ++
        (marks.flatMap pendingEvent : List (Event V E ν)).map (Prod.mk u)) := by
      rw [hevents, passed_append_of_ne (by simp [Event.landmark?])]
      exact hstops
    rcases hnext with ⟨n, rfl⟩ | ⟨c', hc', rfl⟩
    · exact ⟨nofun, fun _ => hqueued, fun _ => hclaimed, fun _ => hclosed, nofun⟩
    · cases hc'
      exact ⟨nofun, fun _ => hqueued, fun _ => hclaimed, fun _ => hclosed, nofun⟩

/-- A teardown that queues the last entry says what it said, as long as it has it to queue. -/
theorem promise_of_stopping {d : Teardown κ V E} {n : Nat} {p p' : Channel.Push (Entry κ V E)}
    {pending : Channel (Entry κ V E)} {marks : List (Channel.Mark (Entry κ V E))}
    {r' : Turn κ (Channel.Push (Entry κ V E)) Unit} (hstage : d.stage = .stopping n p)
    (h : p.turn none t choice s.pending = some (pending, marks, r'))
    (hproper : (Teardown.Stage.stopping n p : Teardown.Stage κ V E).IsProper)
    (hd : Promise d s history) (hnext : r'.next? = some p') :
    Promise { d with stage := .stopping n p' } { s with pending := pending }
      (history ++ (marks.flatMap pendingEvent : List (Event V E ν)).map (Prod.mk u)) := by
  have hclosed := hd.shut (by rw [hstage]; rfl)
  have hstill : (Teardown.Stage.stopping n p' : Teardown.Stage κ V E).stops = true →
      pending.value = s.pending.value ∧ d.stage.stops = true := by
    intro hstops
    obtain ⟨entry, hentry⟩ := Option.isSome_iff_exists.mp hstops
    obtain ⟨hahead, hadded⟩ := Channel.Push.ahead_of_next h hproper.1 hnext hentry
    constructor
    · rw [(Channel.Push.items_of_turn h).1, hadded, List.append_nil]
    · rw [hstage, Teardown.Stage.stops, hahead]
      rfl
  refine ⟨nofun, fun hstops => ?_, fun hstops => hd.claimed (hstill hstops).2, fun _ => hclosed,
    nofun⟩
  obtain ⟨hsame, hstops'⟩ := hstill hstops
  rcases Teardown.stop_cases ν h hproper.2 with ⟨-, hevents⟩ | ⟨-, hvalue, -⟩
  · rw [hevents, List.map_nil, List.append_nil]
    exact hd.stops hstops'
  · rw [hsame] at hvalue
    simp at hvalue

/-- A teardown's step keeps what the teardown says. -/
theorem promise_of_tearing {d : Teardown κ V E} {r' : Turn κ (Teardown κ V E) (Except Failure Unit)}
    (h : Teardown.Turned t choice s d s' events r') (hproper : d.stage.IsProper)
    (hd : Promise d s history) (hs : Kept s history) :
    ∀ d', r'.next? = some d' → Promise d' s' (history ++ events.map (Prod.mk u)) := by
  intro d' hnext
  cases h with
  | claimed hstage hjoinable =>
      cases hnext
      rw [List.map_nil, List.append_nil]
      obtain ⟨hcleared, hqueued⟩ := hs.joinable hjoinable
      exact ⟨fun _ => hcleared, fun _ => hqueued, fun _ => rfl, nofun, nofun⟩
  | @closing _ phase' _ hstage hvisit =>
      cases hnext
      have hclears := hd.clears (by rw [hstage]; rfl)
      have hstops := hd.stops (by rw [hstage]; rfl)
      have hclaimed := hd.claimed (by rw [hstage]; rfl)
      rcases Teardown.close_cases hvisit with ⟨hvalue, hanswer⟩ | ⟨hvalue, hanswer⟩
      · rw [hanswer, Option.elim_none, List.map_nil, List.append_nil]
        refine ⟨fun _ => hclears, fun _ => hstops, fun _ => hclaimed, fun hclosed => ?_, nofun⟩
        rw [Teardown.Stage.hasClosed, (Visit.held_of_turn hvisit).2, hanswer] at hclosed
        cases hclosed
      · rw [hanswer, Option.elim_some]
        refine ⟨fun _ => ?_, fun _ => ?_, fun _ => hclaimed, fun _ => hvalue, nofun⟩
        · rw [passed_append_of_ne (by simp [Event.landmark?])]
          exact hclears
        · rw [passed_append_of_ne (by simp [Event.landmark?])]
          exact hstops
  | @closed outcome _ _ hstage hvisit hclear _ =>
      obtain rfl := hclear d' hnext
      rw [List.map_nil, List.append_nil]
      have hclosed : d.stage.hasClosed = true := by
        rw [hstage] at hproper ⊢
        rcases outcome with fault | _ | answer
        · cases hproper
        · cases hproper
        · rfl
      rcases Visit.value_of_turn hvisit with ⟨hvalue, -, -⟩ | ⟨again, hphase, -, -, -⟩
      · exact ⟨fun _ => hd.clears (by rw [hstage]; rfl), fun _ => hd.stops (by rw [hstage]; rfl),
          fun _ => hd.claimed (by rw [hstage]; rfl), fun _ => hvalue.trans (hd.shut hclosed), nofun⟩
      · cases hphase
  | @clearing _ _ _ r hstage hclear =>
      cases r with
      | stay c' | run _ c' =>
          cases hnext
          exact promise_of_clearing hstage hclear hd (.inr ⟨c', rfl, rfl⟩)
      | ret n =>
          cases hnext
          exact promise_of_clearing hstage hclear hd (.inl ⟨n, rfl⟩)
      | fail _ | abort => cases hnext
  | cleared n hstage hevents =>
      cases hnext
      have hstops := hd.stops (by rw [hstage]; rfl)
      refine ⟨nofun, fun _ => ?_, fun _ => hd.claimed (by rw [hstage]; rfl),
        fun _ => hd.shut (by rw [hstage]; rfl), nofun⟩
      rw [passed_append_of_ne fun event hevent => by rw [hevents event hevent]; nofun]
      exact hstops
  | @stopping n p pending marks r hstage hpush =>
      rw [hstage] at hproper
      cases r with
      | stay p' | run _ p' =>
          cases hnext
          exact promise_of_stopping hstage hpush hproper hd rfl
      | ret _ =>
          cases hnext
          exact promise_of_isQuiet rfl
      | fail _ | abort => cases hnext
  | rested _ hevents hquiet _ _ => exact promise_of_isQuiet (hquiet d' hnext).1
  | joined n outcome hstage hverdict =>
      cases hnext
      refine ⟨nofun, nofun, nofun, nofun, fun _ halive => ?_⟩
      rw [halive] at hverdict
      cases hverdict
  | @counting _ _ _ _ _ r hstage _ _ =>
      have hjoined := hd.joined (by rw [hstage]; rfl)
      cases r <;> cases hnext <;> exact ⟨nofun, nofun, nofun, nofun, fun _ => hjoined⟩

/-- What a teardown says stays when code has ended that it ran. -/
theorem promise_resume {ρ : Type} {d : Teardown κ V E} (h : Promise d s history)
    (result : Except Fault ρ) : Promise (d.resume result) s history := by
  obtain ⟨reporting, earlier, stage⟩ := d
  cases stage with
  | clearing c =>
      refine ⟨fun hclears => h.clears ?_, h.stops, h.claimed, h.shut, h.joined⟩
      cases c with
      | taking phase => cases result <;> exact hclears
      | finalizing count rest fault => cases result <;> cases fault <;> cases hclears
      | broken => cases result <;> cases hclears
  | _ => exact h

/-! ### The end of a teardown -/

/-- Whether a teardown by thread `u` that is through with the worker's thread has joined it,
unless it is its own; and whether one that has not claimed it yet can do so. -/
structure Rested (u : Tid) (d : Teardown κ V E) (s : Pipeline κ V E) : Prop where
  ended : d.rests = true → u = workerThread ∨ s.health ≠ .alive
  unclaimed : d.stage = .claiming → d.rests = false → s.joinable = true

/-- A teardown that is neither at its beginning nor at its end. -/
theorem rested_of_isBusy {d : Teardown κ V E} (hrests : d.rests = false)
    (hstage : d.stage ≠ .claiming) : Rested u d s := by
  refine ⟨fun h => ?_, fun h => absurd h hstage⟩
  rw [hrests] at h
  cases h

theorem rested_resume {ρ : Type} {d : Teardown κ V E} (h : Rested u d s)
    (result : Except Fault ρ) : Rested u (d.resume result) s := by
  obtain ⟨reporting, earlier, stage⟩ := d
  cases stage with
  | clearing c => exact rested_of_isBusy rfl nofun
  | _ => exact h

theorem rested_of_tame {d : Teardown κ V E} (h : Tame s s' events) (hd : Rested u d s) :
    Rested u d s' := by
  refine ⟨fun hrests => (hd.ended hrests).imp_right h.health, ?_⟩
  rw [h.joinable_eq]
  exact hd.unclaimed

/-- A teardown comes to rest when it has joined the worker's thread, or on that thread. -/
theorem rested_of_tearing {d : Teardown κ V E} {r' : Turn κ (Teardown κ V E) (Except Failure Unit)}
    (h : Teardown.Turned t choice s d s' events r') (hd : Promise d s history)
    (hrested : Rested t d s) : ∀ d', r'.next? = some d' → Rested t d' s' := by
  intro d' hnext
  cases h with
  | claimed | closing | cleared | joined =>
      cases hnext
      exact rested_of_isBusy rfl nofun
  | closed _ _ hclear _ =>
      rw [hclear d' hnext]
      exact rested_of_isBusy rfl nofun
  | @clearing _ _ _ r _ _ | @stopping _ _ _ _ r _ _ =>
      cases r <;> cases hnext <;> exact rested_of_isBusy rfl nofun
  | rested _ _ hquiet _ _ =>
      obtain ⟨-, hclaiming, hrests⟩ := hquiet d' hnext
      refine ⟨fun h => ?_, fun hstage hnot => ?_⟩
      · rcases hrests h with hrests | hown | ⟨hstage, hjoinable⟩
        · exact hrested.ended hrests
        · exact .inl hown
        · -- what cannot be claimed has been claimed by this teardown
          refine hrested.ended ?_
          by_contra hnot
          rw [hrested.unclaimed hstage (by simpa using hnot)] at hjoinable
          cases hjoinable
      · rw [hclaiming hstage] at hnot
        cases hnot
  | @counting _ _ _ _ _ r hstage _ _ =>
      have hjoined := hd.joined (by rw [hstage]; rfl)
      cases r with
      | stay _ | run _ _ =>
          cases hnext
          exact rested_of_isBusy rfl nofun
      | ret _ =>
          cases hnext
          exact ⟨fun _ => .inr hjoined, nofun⟩
      | fail _ | abort => cases hnext

/-! ### All runs -/

/-- What the landmarks promise at every moment, where `d` is the only teardown there may be, made
by thread `u`: none before the pipeline is taken from its owner. -/
structure Closing (u : Tid) (d : Option (Teardown κ V E)) (v : View κ V E ν) : Prop where
  sole : Sole Part.tearing? u d v.calls
  owned : v.shared.owned = true → d = none ∧ v.shared.joinable = true
  promise : ∀ d' ∈ d, Promise d' v.shared v.history
  rested : ∀ d' ∈ d, Rested u d' v.shared
  kept : Kept v.shared v.history

/-- Code that ran for a call has ended: the way down after that. -/
theorem closing_of_resumed {v : View κ V E ν} {d : Option (Teardown κ V E)}
    {rest : List (Call κ V E)} (hv : Closing u d v) (hwaits : v.calls t = ⟨none, call :: rest⟩)
    (result : Except Fault (Except E V)) :
    ∃ u' d', Closing u' d' (v.withCalls t ⟨some (resume call result), rest⟩) := by
  have hall : (v.calls t).all = call :: rest := by rw [hwaits]; rfl
  have hpicks : picks Part.tearing? (Calls.all ⟨some (resume call result), rest⟩) =
      (call.part.tearing?.map (Teardown.resume result)).toList ++ picks Part.tearing? rest := by
    rw [Calls.all, Option.toList_some, List.singleton_append, picks_cons, part_resume,
      tearing?_resume]
  cases hd : call.part.tearing? with
  | none =>
      rw [hd] at hpicks
      refine ⟨u, d, hv.sole.of_same ?_, hv.owned, hv.promise, hv.rested, hv.kept⟩
      rw [hpicks, hall, picks_cons, hd]
      rfl
  | some d₀ =>
      obtain ⟨rfl, rfl, hrest⟩ := hv.sole.eq_of_active hall hd
      rw [hd, hrest] at hpicks
      refine ⟨t, some (d₀.resume result), hv.sole.of_update hpicks, fun howned => ?_, ?_, ?_,
        hv.kept⟩
      · cases (hv.owned howned).1
      · rintro d' ⟨⟩
        exact promise_resume (hv.promise d₀ rfl) result
      · rintro d' ⟨⟩
        exact rested_resume (hv.rested d₀ rfl) result

/-- A call that is no teardown has made a step: the way down after that. -/
theorem closing_of_other {v : View κ V E ν} {d : Option (Teardown κ V E)}
    {rest : List (Call κ V E)} (hv : Closing u d v) (hgate : Gated v)
    (hactive : v.calls t = ⟨some call, rest⟩) (hsound : call.IsSound)
    (hpart : call.part.tearing? = none)
    (h : turn plan t choice v.shared call = some (s', events, r)) (hlive : r ≠ .abort) :
    ∃ u' d', Closing u' d'
      { shared := s', history := v.history ++ events.map (Prod.mk t),
        calls := Function.update v.calls t (Calls.after call rest r) } := by
  have hall : (v.calls t).all = call :: rest := by rw [hactive]; rfl
  have hfound := hgate.found t call (by rw [hactive])
  obtain ⟨htame, hnext⟩ := tame_of_turn hsound hpart h hfound
  have hkept := kept_of_tame (t := t) htame hv.kept
  rcases hnext with hnone | ⟨howned, howned', reporting, hbegins⟩
  · refine ⟨u, d, hv.sole.of_same ?_, fun howned => ?_,
      fun d' hd' => promise_of_tame htame (hv.promise d' hd'),
      fun d' hd' => rested_of_tame htame (hv.rested d' hd'), hkept⟩
    · rw [picks_after rfl hlive, hnone, hall, picks_cons, hpart]
    · rw [htame.joinable_eq]
      exact hv.owned (htame.owned howned)
  · -- the pipeline has been taken from its owner, and this is the teardown from now on
    obtain ⟨rfl, hjoinable⟩ := hv.owned howned
    refine ⟨t, some { reporting := reporting }, (hv.sole.move t).of_update ?_, fun h => ?_, ?_, ?_,
      hkept⟩
    · have hrest := hv.sole t
      rw [hall, picks_cons, hpart, Option.toList_none, List.nil_append, ite_self] at hrest
      rw [picks_after rfl hlive, hbegins, hrest, List.append_nil]
    · rw [howned'] at h
      cases h
    · rintro d' ⟨⟩
      exact promise_of_isQuiet rfl
    · rintro d' ⟨⟩
      refine ⟨by simp [Teardown.rests], fun _ _ => ?_⟩
      rw [htame.joinable_eq]
      exact hjoinable

/-- The teardown has made a step: the way down after that. -/
theorem closing_of_tearing {v : View κ V E ν} {d : Option (Teardown κ V E)} {d₀ : Teardown κ V E}
    {rest : List (Call κ V E)} (hv : Closing u d v) (hactive : v.calls t = ⟨some call, rest⟩)
    (hsound : call.IsSound) (hpart : call.part = .tearing d₀)
    (h : turn plan t choice v.shared call = some (s', events, r)) (hlive : r ≠ .abort) :
    ∃ u' d', Closing u' d'
      { shared := s', history := v.history ++ events.map (Prod.mk t),
        calls := Function.update v.calls t (Calls.after call rest r) } := by
  have hall : (v.calls t).all = call :: rest := by rw [hactive]; rfl
  have hproper := hsound.proper
  obtain ⟨rfl, rfl, hrest⟩ := hv.sole.eq_of_active hall (by rw [hpart]; rfl)
  obtain ⟨r', hturn, hlift⟩ := turn_tearing hpart h
  have hstep := Teardown.turned_of_turn hturn
  rw [hpart] at hproper
  refine ⟨t, r'.next?, hv.sole.of_update ?_, fun howned => ?_,
    promise_of_tearing hstep hproper (hv.promise d₀ rfl) hv.kept,
    rested_of_tearing hstep (hv.promise d₀ rfl) (hv.rested d₀ rfl),
    kept_of_tearing hstep hproper (hv.promise d₀ rfl) hv.kept⟩
  · rw [picks_after rfl hlive, hlift.nextPart_eq, tearing?_getD, hrest, List.append_nil]
  · rw [(Teardown.frame_of_turn hstep).2.2.2] at howned
    cases (hv.owned howned).1

/-- **The way down, one step.** -/
theorem closing_of_moved {v v' : View κ V E ν} {d : Option (Teardown κ V E)}
    (h : Moved plan t v v') (hgate : Gated v) (hv : Closing u d v) :
    ∃ u' d', Closing u' d' v' := by
  cases h with
  | still => exact ⟨u, d, hv⟩
  | noted note _ =>
      have htame : Tame v.shared v.shared [(.note note : Event V E ν)] :=
        ⟨rfl, rfl, id, id, by simp [Event.landmark?], .inl List.suffix_rfl⟩
      exact ⟨u, d, hv.sole, hv.owned, fun d' hd' => promise_of_tame htame (hv.promise d' hd'),
        hv.rested, kept_of_tame htame hv.kept⟩
  | began request hcode =>
      refine ⟨u, d, hv.sole.of_same ?_, hv.owned, hv.promise, hv.rested, hv.kept⟩
      rw [Calls.all, Option.toList_some, List.singleton_append, picks_cons,
        tearing?_of_isFresh (isFresh_call request), Calls.all, hcode.1]
      rfl
  | resumed result hwaits => exact closing_of_resumed hv hwaits result
  | @turned call rest choice s' events r hactive hsound hturn hlive =>
      cases hpart : call.part with
      | tearing d₀ => exact closing_of_tearing hv hactive hsound hpart hturn hlive
      | scheduling _ | reading _ | working _ | other =>
          exact closing_of_other hv hgate hactive hsound (by rw [hpart]; rfl) hturn hlive

end Offload.Pipeline
