import Offload.Proofs.Pipeline.Grants
import Offload.Proofs.Pipeline.Parting
import Offload.Proofs.Pipeline.Results

/-!
# The worker's last cycle

When nothing more is taken, the worker has a last cycle to finish. What it still notes is settled by
how its body ends, if that runs, and how the hook ends, if that is called: this is its **coda**.
From step to step the worker notes its coda, event by event, and what it publishes is the result of
the body, if that returns. How the body and the hook have ended is on record with an observer of the
run.

## Main results

* `Work.coda_of_turn`, `Work.coda_resume`: the coda, from step to step.
* `Finishing.step`: where the worker is in its last cycle, kept by every step of every thread.
-/

namespace Offload.Pipeline

variable {κ ω V E ν : Type} {plan : Plan κ} {t : Tid} {choice : Choice}

/-! ### What the worker still notes -/

/-- What the worker notes at its end: it takes the last entry and leaves, or a fault strikes it. -/
def farewell : Except Fault Unit → List (Event V E ν)
  | .ok () => [.stopTaken, .notice .exiting, .workerExited]
  | .error fault => [.workerDied fault]

namespace Work

/-- What the worker notes when the hook has ended, where `ends` says how its code ends. -/
def epilogue : List (Except Fault (Except E V)) → List (Event V E ν)
  | [] => []
  | ended :: _ => farewell (ended.map fun _ => ())

/-- What the worker notes once its result is published, where `ends` says how its code ends. -/
def afterword (plan : Plan κ) (ends : List (Except Fault (Except E V))) : List (Event V E ν) :=
  if plan.hook.isSome then .hooked :: epilogue ends else farewell (.ok ())

/-- What the worker still notes if it takes no other task, where `ends` says how its code ends, the
body and the hook as far as they are still to end, and `inCode` whether it waits for code. -/
def coda (plan : Plan κ) (ends : List (Except Fault (Except E V))) (inCode : Bool) :
    Work κ V E → List (Event V E ν)
  | .running ticket _ =>
    match ends with
    | [] => []
    | .ok outcome :: ends => .returned ticket outcome :: .published ticket :: afterword plan ends
    | .error fault :: _ => farewell (.error fault)
  | .returning f => .returned f.ticket f.outcome :: .published f.ticket :: afterword plan ends
  | .publishing p =>
    p.ahead.toList.map (fun f => .published f.ticket) ++
      match p with
      | .adding _ _ | .notifying => afterword plan ends
      | .hooking => if inCode then epilogue ends else afterword plan ends
      | .ending outcome => farewell outcome
  | .resting => farewell (.ok ())
  | .popping p => if p.held.isSome then [.notice .exiting, .workerExited] else farewell (.ok ())
  | .leaving => [.notice .exiting, .workerExited]
  | .failing fault | .dying fault => farewell (.error fault)
  | .entering _ _ | .starting _ _ => []

/-- What the worker still publishes if it takes no other task. -/
def output (ends : List (Except Fault (Except E V))) : Work κ V E → List (Finished κ V E)
  | .running ticket task =>
    match ends with
    | .ok outcome :: _ =>
      [{ ticket := ticket, outcome := outcome, onValue := task.onValue, onError := task.onError }]
    | [] | .error _ :: _ => []
  | .returning f => [f]
  | .publishing p => p.ahead.toList
  | .popping _ | .entering _ _ | .starting _ _ | .resting | .leaving | .failing _ | .dying _ => []

variable {s s' : Pipeline κ V E} {events : List (Event V E ν)} {w : Work κ V E}
  {r : Turn κ (Work κ V E) Unit}

/-- **The coda, one step.** A worker that takes no task notes the beginning of its coda and goes on
with the rest, and so it does with what it publishes. -/
theorem coda_of_turn (h : Turned plan t choice s w s' events r) (hsound : w.IsSound)
    (hhand : w.hand = []) (htaken : ticketsAt .taken events = [])
    (ends : List (Except Fault (Except E V))) :
    w.coda plan ends false = events ++ r.next?.elim [] (coda plan ends (ran? r).isSome) ∧
      s.finished.value ++ w.output ends = s'.finished.value ++ r.next?.elim [] (output ends) := by
  cases h with
  | @popped p pending marks r hpop =>
      rcases Channel.Pop.marks_of_turn hpop with ⟨-, rfl⟩ | ⟨entry, again, -, -, rfl, -⟩
      · have hheld := Channel.Pop.held_of_turn hpop
        rcases r with p' | ⟨code, p'⟩ | answer | fault | _
        · rw [coda, hheld]
          exact ⟨rfl, rfl⟩
        · exact absurd rfl ((Channel.Pop.turn_plain hpop).2 code p')
        · rw [coda, hheld]
          rcases answer with _ | ⟨ticket, task⟩ | _
          · exact ⟨rfl, rfl⟩
          · rw [hand, hheld] at hhand
            cases hhand
          · exact ⟨rfl, rfl⟩
        · exact absurd rfl (Channel.Pop.ne_fail_of_turn hsound hpop fault)
        · exact absurd rfl (Channel.Pop.turn_plain hpop).1
      · obtain ⟨hnone, p', rfl, hheld⟩ := Channel.Pop.held_of_popped hpop
        cases entry with
        | run ticket task => cases htaken
        | stop =>
            refine ⟨?_, rfl⟩
            rw [coda, hnone]
            change _ = [Event.stopTaken] ++ coda plan ends false (popping p')
            rw [coda, hheld]
            rfl
  | @published p finished marks r hpush =>
      cases p with
      | adding f phase =>
          obtain ⟨⟨c₁, progress⟩, hvisit, heq⟩ := Option.map_eq_some_iff.mp hpush
          cases heq
          obtain ⟨rfl, rfl, rfl⟩ | ⟨again, rfl, rfl, rfl⟩ | ⟨answer, rfl, rfl, rfl⟩ :=
            Visit.plain_cases hvisit hsound
          · exact ⟨rfl, rfl⟩
          · exact ⟨rfl, (List.append_nil (s.finished.value ++ [f])).symm⟩
          · exact ⟨rfl, rfl⟩
      | notifying =>
          cases hpush
          exact ⟨rfl, rfl⟩
      | hooking =>
          rw [coda, afterword]
          cases hhook : plan.hook <;> simp only [Channel.Push.turn, hhook] at hpush <;>
            cases hpush <;> exact ⟨rfl, rfl⟩
      | ending outcome => cases outcome <;> cases hpush <;> exact ⟨rfl, rfl⟩
  | entered | began => cases hhand
  | returned | rested | left | failed | died => exact ⟨rfl, rfl⟩

/-- **The coda, when code has ended.** It goes on with how the rest of the code ends. -/
theorem coda_resume (h : w.runsCode = true) (ended : Except Fault (Except E V))
    (ends : List (Except Fault (Except E V))) :
    (w.coda plan (ended :: ends) true : List (Event V E ν)) =
        (w.resume ended).coda plan ends false ∧
      w.output (ended :: ends) = (w.resume ended).output ends := by
  obtain ⟨ticket, task, rfl⟩ | rfl := cases_of_runsCode h
  · cases ended <;> exact ⟨rfl, rfl⟩
  · exact ⟨rfl, rfl⟩

/-- The worker takes a task by a pop. -/
theorem popping_of_taken (h : Turned plan t choice s w s' events r)
    (htaken : ticketsAt .taken events ≠ []) : ∃ p, w = .popping p := by
  cases h with
  | popped _ => exact ⟨_, rfl⟩
  | published hpush => exact absurd (ticketsAt_push hpush .taken) htaken
  | entered | began | returned | rested | left | failed | died => exact absurd rfl htaken

/-- Nor has the worker a task in hand when code has ended. -/
theorem hand_resume (h : w.runsCode = true) (ended : Except Fault (Except E V)) :
    (w.resume ended).hand = [] := by
  obtain ⟨ticket, task, rfl⟩ | rfl := cases_of_runsCode h
  · cases ended <;> rfl
  · rfl

end Work

/-! ### The worker's events -/

/-- The worker's events of a history. -/
def worked (history : List (Tid × Event V E ν)) : List (Event V E ν) :=
  (history.map Prod.snd).filter (·.source = .work)

theorem worked_append (history : List (Tid × Event V E ν)) (t : Tid)
    (events : List (Event V E ν)) :
    worked (history ++ events.map (Prod.mk t)) =
      worked history ++ events.filter (·.source = .work) := by
  have hsnd : Prod.snd ∘ Prod.mk t = (id : Event V E ν → Event V E ν) := rfl
  rw [worked, List.map_append, List.map_map, hsnd, List.map_id, List.filter_append]
  rfl

/-- The worker's own events are added as they are, -/
theorem worked_own (history : List (Tid × Event V E ν)) (t : Tid) {events : List (Event V E ν)}
    (h : ∀ event ∈ events, event.source = .work) :
    worked (history ++ events.map (Prod.mk t)) = worked history ++ events := by
  rw [worked_append, List.filter_eq_self.mpr fun event hevent => by simpa using h event hevent]

/-- and the events of others are not added. -/
theorem worked_others (history : List (Tid × Event V E ν)) (t : Tid) {events : List (Event V E ν)}
    (h : ∀ event ∈ events, event.source ≠ .work) :
    worked (history ++ events.map (Prod.mk t)) = worked history := by
  rw [worked_append, List.filter_eq_nil_iff.mpr fun event hevent => by simpa using h event hevent,
    List.append_nil]

/-! ### Scenes -/

section Scenes

variable {v v₀ v' : View κ V E ν} {w₀ : Work κ V E} {w : Option (Work κ V E)}

/-- **No owner, no deliveries.** Once the pipeline has no owner, no step delivers anything. -/
theorem undelivered_of_moved (hv : Scene.Reach (library plan) opening v)
    (howned : v.shared.owned = false) (h : Moved plan t v v') :
    ∃ events : List (Event V E ν), v'.history = v.history ++ events.map (Prod.mk t) ∧
      ∀ event ∈ events, event.source ≠ .delivery := by
  cases h with
  | still | began _ _ | resumed _ _ => exact ⟨[], (List.append_nil _).symm, nofun⟩
  | noted note _ => exact ⟨[.note note], rfl, by simp [Event.source]⟩
  | @turned call rest choice s' events r hactive hsound hturn hlive =>
      have hmem : call ∈ (v.calls t).all := by
        rw [Calls.all, hactive]
        exact List.mem_cons_self
      have hborrows := borrows_eq_false hv howned hmem
      exact ⟨events, rfl, source_ne_delivery hsound hborrows hturn⟩

/-- A pipeline that has no owner has none afterwards. -/
theorem unowned_of_moved (hv : Orderly v) (howned : v.shared.owned = false)
    (h : Moved plan t v v') : v'.shared.owned = false := by
  cases hafter : v'.shared.owned with
  | false => rfl
  | true => exact (owned_of_moved h hv hafter).1.symm.trans howned

/-- **No owner, no deliveries**, ever after. -/
theorem undelivered_since (hv : Scene.Reach (library plan) opening v)
    (howned : v.shared.owned = false) (h : Scene.Reach (library plan) v v') :
    ∃ later : List (Tid × Event V E ν), v'.history = v.history ++ later ∧
      ∀ entry ∈ later, entry.2.source ≠ .delivery := by
  refine (h.invariant (P := fun v' => v'.shared.owned = false ∧
    ∃ later : List (Tid × Event V E ν), v'.history = v.history ++ later ∧
      ∀ entry ∈ later, entry.2.source ≠ .delivery)
    ⟨howned, [], (List.append_nil _).symm, nofun⟩ ?_).2
  rintro t v₁ v₂ h₁ ⟨howned₁, later, hlater, hnone⟩ hstep
  have hreach := hv.trans h₁
  have hmoved := moved_of_reach hreach hstep
  obtain ⟨events, hevents, hsource⟩ := undelivered_of_moved hreach howned₁ hmoved
  refine ⟨unowned_of_moved (orderly_of_reach hreach) howned₁ hmoved,
    later ++ events.map (Prod.mk t), ?_, fun entry hentry => ?_⟩
  · rw [hevents, hlater, List.append_assoc]
  · rcases List.mem_append.mp hentry with hentry | hentry
    · exact hnone entry hentry
    · obtain ⟨event, hevent, rfl⟩ := List.mem_map.mp hentry
      exact hsource event hevent

/-- Then the results that wait stay, unless the worker adds one. -/
theorem finished_of_moved (hv : Scene.Reach (library plan) opening v)
    (howned : v.shared.owned = false) (h : Moved plan t v v')
    (hother : ∀ w, (v.calls t).active ≠ some (.work w)) :
    v'.shared.finished.value = v.shared.finished.value := by
  obtain ⟨events, hevents, hsource⟩ := undelivered_of_moved hv howned h
  obtain ⟨taken, hvalue, hreceived⟩ := results_of_moved h fun _ _ => hother _
  have hnone : ticketsAt .received events = [] := ticketsAt_eq_nil_of_ne (m := .received) hsource
  rw [hevents, reached_append, hnone, List.append_right_inj, eq_comm, List.map_eq_nil_iff]
    at hreceived
  rw [hvalue, hreceived, List.nil_append]

/-- Where the worker is in its last cycle, which it was in the middle of in the scene `v₀`, waiting
for code as `w₀`, and where its code has ended as `ends` says since: however the code ends that is
still to end, it has noted the beginning of its coda and published the first of what goes with it,
and the rest is still to come. -/
structure Finishing (plan : Plan κ) (v₀ : View κ V E ν) (w₀ : Work κ V E)
    (ends : List (Except Fault (Except E V))) (w : Option (Work κ V E)) (v : View κ V E ν) :
    Prop where
  staff : Staff w v
  duty : OnDuty w v
  hand : w.elim [] Work.hand = []
  begun : reached .begun v.history = reached .begun v₀.history
  coda : ∃ noted, worked v.history = worked v₀.history ++ noted ∧ ∀ more,
    w₀.coda plan (ends ++ more) true =
        noted ++ w.elim [] (Work.coda plan more (inCode v)) ∧
      v₀.shared.finished.value ++ w₀.output (ends ++ more) =
        v.shared.finished.value ++ w.elim [] (Work.output more)

variable {ends : List (Except Fault (Except E V))}

/-- **The last cycle, when code has ended.** -/
theorem Finishing.resumed {w₁ : Work κ V E} (h : Finishing plan v₀ w₀ ends (some w₁) v)
    (hwaits : v.calls workerThread = ⟨none, [.work w₁]⟩) (ended : Except Fault (Except E V))
    (hafter : v' = v.withCalls workerThread ⟨some (.work (w₁.resume ended)), []⟩)
    (hstaff' : Staff (some (w₁.resume ended)) v') (hduty' : OnDuty (some (w₁.resume ended)) v') :
    Finishing plan v₀ w₀ (ends ++ [ended]) (some (w₁.resume ended)) v' := by
  subst hafter
  obtain ⟨noted, hnoted, hcoda⟩ := h.coda
  have hcode : w₁.runsCode = true :=
    h.duty.waiting w₁ (by rw [hwaits]; exact List.mem_cons_self)
  have hincode : inCode v = true := by rw [inCode, hwaits]; rfl
  refine ⟨hstaff', hduty', w₁.hand_resume hcode ended, h.begun, noted, hnoted, fun more => ?_⟩
  obtain ⟨hsame, houtput⟩ := Work.coda_resume hcode ended more
  obtain ⟨hwhole, hall⟩ := hcoda (ended :: more)
  rw [List.append_assoc, List.singleton_append]
  refine ⟨?_, ?_⟩
  · rw [hwhole, hincode, Option.elim_some, hsame, inCode, Scene.withCalls_calls,
      Function.update_self]
    rfl
  · rw [hall, Option.elim_some, houtput]
    rfl

/-- **The last cycle, one step.** The code of the worker goes on ending as it did, or it has just
ended. -/
theorem finishing_of_moved (hv : Scene.Reach (library plan) opening v)
    (howned : v.shared.owned = false) (h : Moved plan t v v')
    (hw : Finishing plan v₀ w₀ ends w v)
    (hdry : ∀ p, w = some (.popping p) → Passed .cleared v.history) :
    (∃ w', Finishing plan v₀ w₀ ends w' v' ∧ (inCode v = true → inCode v' = true)) ∨
      ∃ w₁ ended, t = workerThread ∧ v.calls workerThread = ⟨none, [.work w₁]⟩ ∧
        v'.calls workerThread = ⟨some (.work (w₁.resume ended)), []⟩ ∧
        ∀ ended', w₁.resume ended = w₁.resume ended' →
          Finishing plan v₀ w₀ (ends ++ [ended']) (some (w₁.resume ended')) v' := by
  obtain ⟨noted, hnoted, hcoda⟩ := hw.coda
  obtain ⟨w', hstaff', hworker⟩ := workerMoved_of_moved h hw.staff
  have hduty' := onDuty_of_moved hworker hw.duty
  cases hworker with
  | stood events hbystander hhistory hwaiting hother =>
      have hincode : inCode v' = inCode v := by rw [inCode, hwaiting, inCode]
      have hfinished : v'.shared.finished.value = v.shared.finished.value := by
        rcases hother with rfl | hother
        · rfl
        · exact finished_of_moved hv howned h hother
      refine .inl ⟨w, ⟨hstaff', hduty', hw.hand, ?_, noted, ?_, ?_⟩, fun hcode => ?_⟩
      · rw [hhistory, reached_append,
          ticketsAt_eq_nil_of_ne (m := .begun) hbystander.source_ne, List.append_nil]
        exact hw.begun
      · rw [hhistory, worked_others _ _ hbystander.source_ne, hnoted]
      · rw [hincode, hfinished]
        exact hcoda
      · rw [hincode]
        exact hcode
  | resumed w₁ ended ht hwaits hafter =>
      refine .inr ⟨w₁, ended, ht, hwaits, ?_, fun ended' hsame => ?_⟩
      · rw [hafter, Scene.withCalls_calls, Function.update_self]
      · rw [hsame] at hafter hstaff' hduty'
        exact hw.resumed hwaits ended' hafter hstaff' hduty'
  | @turned w₁ choice events r ht hactive hturn hhistory hwaiting =>
      subst ht
      have htaken : ticketsAt .taken events = [] := by
        by_contra hne
        obtain ⟨p, rfl⟩ := Work.popping_of_taken hturn hne
        have hsame := taken_of_moved h (orderly_of_reach hv) (hdry p rfl)
        rw [hhistory, reached_append, List.append_right_eq_self] at hsame
        exact hne hsame
      have hhand : w₁.hand = [] := hw.hand
      have hincode : inCode v = false := by rw [inCode, hactive]; rfl
      have hincode' : inCode v' = (Work.ran? r).isSome := by
        rw [inCode, hwaiting]
        cases Work.ran? r <;> rfl
      have hhand' := Work.hand_of_turn hturn
      rw [hhand, htaken, List.nil_append, eq_comm, List.append_eq_nil_iff] at hhand'
      refine .inl ⟨_, ⟨hstaff', hduty', hhand'.2, ?_, noted ++ events, ?_, fun more => ?_⟩, ?_⟩
      · rw [hhistory, reached_append, hhand'.1, List.append_nil]
        exact hw.begun
      · rw [hhistory, worked_own _ _ (Work.source_of_turn hturn), hnoted, List.append_assoc]
      · obtain ⟨hwhole, hall⟩ := hcoda more
        obtain ⟨hbegins, houtput⟩ :=
          Work.coda_of_turn hturn (hw.duty.sound _ rfl) hhand htaken more
        refine ⟨?_, hall.trans houtput⟩
        rw [hwhole, hincode, Option.elim_some, hbegins, hincode', List.append_assoc]
      · rw [hincode]
        exact fun hcode => absurd hcode Bool.false_ne_true

end Scenes

/-! ### How code ends -/

section States

variable {next : κ → Move κ ω (Request κ V E) Answer (Except E V) ν}
  {s s' : State κ ω (Pipeline κ V E) (Call κ V E) Answer (Event V E ν)} {v v' : View κ V E ν}

/-- How the code of the worker ends in the next step of thread `t`, if it does. -/
def ended? (next : κ → Move κ ω (Request κ V E) Answer (Except E V) ν)
    (s : State κ ω (Pipeline κ V E) (Call κ V E) Answer (Event V E ν)) (t : Tid) :
    Option (Except Fault (Except E V)) :=
  match s.stack t with
  | .code position :: .call (.work _) :: _ => (next position).ended?
  | _ => none

/-- An observer who records how the code of the worker ends. -/
def endings (next : κ → Move κ ω (Request κ V E) Answer (Except E V) ν) :
    Machine.Observer κ ω (Pipeline κ V E) (Call κ V E) Answer (Event V E ν)
      (List (Except Fault (Except E V))) :=
  fun t s _ ends => ends ++ (ended? next s t).toList

theorem exists_of_ended? {ended : Except Fault (Except E V)} (h : ended? next s t = some ended) :
    ∃ position w frames, s.stack t = .code position :: .call (.work w) :: frames ∧
      (next position).ended? = some ended := by
  unfold ended? at h
  split at h
  · next position w frames hstack => exact ⟨position, w, frames, hstack, h⟩
  · cases h

/-- **The last cycle, one step of a run.** -/
theorem Finishing.step {v₀ : View κ V E ν} {w₀ : Work κ V E}
    {ends : List (Except Fault (Except E V))} {w : Option (Work κ V E)}
    (h : Finishing plan v₀ w₀ ends w v) (hv : Scene.Reach (library plan) opening v)
    (howned : v.shared.owned = false)
    (hdry : ∀ p, w = some (.popping p) → Passed .cleared v.history)
    (hshows : Machine.Shows (library plan) v s)
    (hstep : (machine plan next).step t choice s = some s') :
    ∃ v' w', (v' = v ∨ Scene.Step (library plan) t v v') ∧ Machine.Shows (library plan) v' s' ∧
      Finishing plan v₀ w₀ (ends ++ (ended? next s t).toList) w' v' := by
  obtain ⟨v', hmoves, hshows'⟩ := hshows.exists_step (machine_fits plan next) hstep
  have hlast : (∃ w', Finishing plan v₀ w₀ ends w' v' ∧ (inCode v = true → inCode v' = true)) ∨
      ∃ w₁ ended, t = workerThread ∧ v.calls workerThread = ⟨none, [.work w₁]⟩ ∧
        v'.calls workerThread = ⟨some (.work (w₁.resume ended)), []⟩ ∧
        ∀ ended', w₁.resume ended = w₁.resume ended' →
          Finishing plan v₀ w₀ (ends ++ [ended']) (some (w₁.resume ended')) v' := by
    rcases hmoves with rfl | hmoves
    · exact .inl ⟨w, h, id⟩
    · exact finishing_of_moved hv howned (moved_of_reach hv hmoves) h hdry
  rcases hlast with ⟨w', hsame, hstill⟩ | ⟨w₁, ended, rfl, hwaits, hgoes, hends⟩
  · refine ⟨v', w', hmoves, hshows', ?_⟩
    cases hended : ended? next s t with
    | none => rwa [Option.toList_none, List.append_nil]
    | some ended =>
        obtain ⟨position, w₁, frames, hstack, hnext⟩ := exists_of_ended? hended
        obtain ⟨-, -, -, hcode, hcode'⟩ :=
          staff_of_codeEnds hshows hshows' h.staff hsame.staff hstack hnext hstep
        rw [hstill hcode] at hcode'
        cases hcode'
  · -- the worker goes on with the end of its code
    obtain ⟨position, frames, hstack, hend⟩ :=
      hshows.exists_end (machine_fits plan next) hshows' hstep hwaits hgoes
    obtain ⟨ended', hnext, hresume⟩ : ∃ ended', (next position).ended? = some ended' ∧
        w₁.resume ended = w₁.resume ended' := by
      rcases hend with ⟨result, hnext, hcall⟩ | ⟨fault, hnext, hcall⟩
      · refine ⟨.ok result, ?_, Call.work.inj hcall⟩
        rw [Move.map_eq_ret_iff.mp hnext]
        rfl
      · refine ⟨.error fault, ?_, Call.work.inj hcall⟩
        rw [Move.map_eq_fail_iff.mp hnext]
        rfl
    have hended : ended? next s workerThread = some ended' := by
      rw [ended?, hstack]
      exact hnext
    rw [hended]
    exact ⟨v', _, hmoves, hshows', hends ended' hresume⟩

end States

end Offload.Pipeline
