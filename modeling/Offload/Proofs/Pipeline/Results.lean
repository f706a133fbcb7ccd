import Offload.Proofs.Pipeline.Delivery

/-!
# The results that wait

Results wait in the finished channel from their publication until they are taken out for delivery.
The worker adds them at the back, and whoever delivers takes them out at the front; nothing else
touches them.

## Main results

* `shelved_of_turn`: what one step of a call does to the results that wait.
* `results_of_moved`: unless the worker adds one, every step of every thread takes results out at
  the front, and receives what it takes out.
-/

namespace Offload.Pipeline

variable {κ V E ν : Type} {plan : Plan κ} {t : Tid} {choice : Choice} {s s' : Pipeline κ V E}
  {events : List (Event V E ν)} {call : Call κ V E} {r : Turn κ (Call κ V E) Answer}

/-- What one step of a call does to the results that wait. -/
inductive Shelved (s : Pipeline κ V E) (call : Call κ V E) :
    Pipeline κ V E → List (Event V E ν) → Prop where
  | stayed {s' : Pipeline κ V E} {events : List (Event V E ν)} :
      s'.finished.value = s.finished.value → ticketsAt .received events = [] →
      Shelved s call s' events
  /-- The first result is taken out. -/
  | taken {s' : Pipeline κ V E} (f : Finished κ V E) : s.finished.value = f :: s'.finished.value →
      Shelved s call s' [.received f.ticket]
  /-- The worker publishes a result. -/
  | added {s' : Pipeline κ V E} {events : List (Event V E ν)} (f : Finished κ V E) (again : Bool) :
      call = .work (.publishing (.adding f (.acting again))) →
      s'.finished.value = s.finished.value ++ [f] → ticketsAt .received events = [] →
      Shelved s call s' events

/-- The worker takes nothing out. -/
theorem shelved_work {w : Work κ V E} {r : Turn κ (Work κ V E) Unit}
    (h : Work.Turned plan t choice s w s' events r) : Shelved s (.work w) s' events := by
  have hreceived : ticketsAt .received events = [] :=
    ticketsAt_eq_nil (Work.source_of_turn h) (by decide)
  cases h with
  | published hpush =>
      rcases Channel.Push.marks_of_turn hpush with ⟨hvalue, -⟩ | ⟨f, again, rfl, hvalue, -⟩
      · exact .stayed hvalue hreceived
      · exact .added f again rfl hvalue hreceived
  | popped | entered | began | returned | rested | left | failed | died =>
      exact .stayed rfl hreceived

/-- **Inversion.** Every step of a call does one of these to the results that wait. -/
theorem shelved_of_turn (hsound : call.IsSound)
    (h : turn plan t choice s call = some (s', events, r)) : Shelved s call s' events := by
  have hquiet : call.part ≠ .other → ticketsAt .received events = [] := fun hpart =>
    ticketsAt_eq_nil_of_ne (m := .received) (quiet_of_turn hsound hpart h).1
  cases hpart : call.part with
  | other =>
      cases delivers_of_turn hpart h with
      | idle hfinished hsource _ _ =>
          exact .stayed hfinished (ticketsAt_eq_nil_of_ne (m := .received) hsource)
      | received f _ hvalue _ => exact .taken f hvalue
      | delivered f _ _ =>
          refine .stayed rfl ?_
          rw [ticketsAt_singleton, deliveryEvent]
          split <;> split <;> rfl
  | scheduling stage =>
      obtain ⟨r', hturn, -⟩ := turn_scheduling hpart h
      refine .stayed ?_ (hquiet (by rw [hpart]; rintro ⟨⟩))
      rw [(Schedule.frame_of_turn (Schedule.turned_of_turn hturn)).2.1]
  | reading phase =>
      obtain ⟨intake, progress, -, rfl, rfl, -⟩ := turn_reading hpart h
      exact .stayed rfl rfl
  | tearing d =>
      obtain ⟨r', hturn, -⟩ := turn_tearing hpart h
      exact .stayed (Teardown.frame_of_turn (Teardown.turned_of_turn hturn)).1
        (hquiet (by rw [hpart]; rintro ⟨⟩))
  | working w =>
      obtain rfl := eq_work_of_working? (show call.part.working? = some w by rw [hpart]; rfl)
      obtain ⟨r', hturn, -⟩ := exists_of_nest h
      exact shelved_work (Work.turned_of_turn hturn)

/-- **Results wait in order, one step.** Unless the worker adds a result, a step takes results out
at the front, and receives what it takes out. -/
theorem results_of_moved {v v' : View κ V E ν} (h : Moved plan t v v')
    (hadds : ∀ f again,
      (v.calls t).active ≠ some (.work (.publishing (.adding f (.acting again))))) :
    ∃ taken, v.shared.finished.value = taken ++ v'.shared.finished.value ∧
      reached .received v'.history = reached .received v.history ++ taken.map Finished.ticket := by
  cases h with
  | still | began _ _ | resumed _ _ => exact ⟨[], rfl, (List.append_nil _).symm⟩
  | noted note _ =>
      exact ⟨[], rfl, (reached_note .received _ t note).trans (List.append_nil _).symm⟩
  | turned hactive hsound hturn _ =>
      rw [reached_append]
      cases shelved_of_turn hsound hturn with
      | stayed hvalue hreceived => exact ⟨[], hvalue.symm, by rw [hreceived]; rfl⟩
      | taken f hvalue => exact ⟨[f], hvalue, rfl⟩
      | added f again hcall _ _ =>
          refine absurd ?_ (hadds f again)
          rw [hactive, hcall]

end Offload.Pipeline
