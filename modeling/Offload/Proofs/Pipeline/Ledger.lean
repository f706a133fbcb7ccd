import Offload.Proofs.Pipeline.Closing

/-!
# Ledgers

Every step of every call **balances**: what was pending and what was accepted is what was taken,
what was discarded, and what is pending then; what was finished and what was published is what
was received, and what is finished then. So the books of a whole run balance. They hold nothing
twice, as tasks are accepted in the order of their tickets.

## Main results

* `balanced_of_turn`: one step of a call balances.
* `ledger_of_moved`: the books of a run, kept by every step of every thread.
-/

namespace Offload.Pipeline

variable {κ V E ν : Type} {plan : Plan κ} {t u : Tid} {choice : Choice}
  {s s' : Pipeline κ V E} {events : List (Event V E ν)} {call : Call κ V E}
  {r : Turn κ (Call κ V E) Answer}

/-! ### One step of a call -/

/-- Whether a step balances. -/
structure Balanced (s s' : Pipeline κ V E) (events : List (Event V E ν)) : Prop where
  pending : ticketsOf s.pending.value ++ ticketsAt .accepted events =
    ticketsAt .taken events ++ ticketsAt .discarded events ++ ticketsOf s'.pending.value
  finished : s.finished.value.map Finished.ticket ++ ticketsAt .published events =
    ticketsAt .received events ++ s'.finished.value.map Finished.ticket

/-- A step that notes nothing and leaves the channels alone balances. -/
theorem Balanced.of_nil (hpending : s'.pending.value = s.pending.value)
    (hfinished : s'.finished.value = s.finished.value) :
    Balanced s s' ([] : List (Event V E ν)) := by
  constructor
  · rw [hpending]
    exact List.append_nil _
  · rw [hfinished]
    exact List.append_nil _

/-- A step of a scheduling balances. -/
theorem balanced_scheduling {stage : Schedule κ V E}
    {r' : Turn κ (Schedule κ V E) (Except Failure Unit)}
    (h : Schedule.Turned t choice s stage s' events r') (hproper : stage.IsProper) :
    Balanced s s' events := by
  obtain ⟨-, hfinished, -⟩ := Schedule.frame_of_turn h
  rcases Schedule.pending_of_turn h hproper with ⟨hpending, rfl⟩ | ⟨ticket, task, -, hpending, rfl⟩
  · exact .of_nil hpending (by rw [hfinished])
  · constructor
    · rw [hpending, ticketsOf_append]
      rfl
    · rw [hfinished]
      exact List.append_nil _

/-- A step of a teardown balances. -/
theorem balanced_tearing {d : Teardown κ V E} {r' : Turn κ (Teardown κ V E) (Except Failure Unit)}
    (h : Teardown.Turned t choice s d s' events r') (hproper : d.stage.IsProper) :
    Balanced s s' events := by
  obtain ⟨hfinished, -⟩ := Teardown.frame_of_turn h
  obtain ⟨hsource, hpending⟩ := Teardown.pending_of_turn h hproper
  constructor
  · rw [ticketsAt_eq_nil (m := .accepted) hsource (by decide),
      ticketsAt_eq_nil (m := .taken) hsource (by decide), List.append_nil]
    exact hpending
  · rw [ticketsAt_eq_nil (m := .published) hsource (by decide),
      ticketsAt_eq_nil (m := .received) hsource (by decide), hfinished]
    exact List.append_nil _

/-- A step of the worker balances. -/
theorem balanced_working {w : Work κ V E} {r' : Turn κ (Work κ V E) Unit}
    (h : Work.Turned plan t choice s w s' events r') : Balanced s s' events := by
  have hsource := Work.source_of_turn h
  constructor
  · rw [ticketsAt_eq_nil (m := .accepted) hsource (by decide),
      ticketsAt_eq_nil (m := .discarded) hsource (by decide), List.append_nil, List.append_nil]
    exact (Work.pending_of_turn h).2
  · rw [ticketsAt_eq_nil (m := .received) hsource (by decide)]
    exact (Work.finished_of_turn h).symm

/-- A step aside balances. -/
theorem Aside.balanced (h : Aside s s' events) : Balanced s s' events := by
  constructor
  · rw [ticketsAt_eq_nil (m := .accepted) h.source_eq (by decide),
      ticketsAt_eq_nil (m := .taken) h.source_eq (by decide),
      ticketsAt_eq_nil (m := .discarded) h.source_eq (by decide), h.pending_eq]
    exact List.append_nil _
  · rw [ticketsAt_eq_nil (m := .published) h.source_eq (by decide), List.append_nil]
    exact h.finished_eq

/-- **Balance.** Every step of every call balances. -/
theorem balanced_of_turn (hsound : call.IsSound)
    (h : turn plan t choice s call = some (s', events, r)) : Balanced s s' events := by
  have hproper := hsound.proper
  cases hpart : call.part with
  | scheduling stage =>
      obtain ⟨r', hturn, -⟩ := turn_scheduling hpart h
      rw [hpart] at hproper
      exact balanced_scheduling (Schedule.turned_of_turn hturn) hproper
  | tearing d =>
      obtain ⟨r', hturn, -⟩ := turn_tearing hpart h
      rw [hpart] at hproper
      exact balanced_tearing (Teardown.turned_of_turn hturn) hproper
  | working w =>
      obtain ⟨r', hturn, -⟩ := turn_working hpart h
      exact balanced_working (Work.turned_of_turn hturn)
  | reading phase =>
      obtain ⟨intake, progress, -, rfl, rfl, -⟩ := turn_reading hpart h
      exact .of_nil rfl rfl
  | other =>
      rcases turn_other hpart hsound.opens h with ⟨haside, -⟩ | ⟨-, rfl, rfl, -⟩
      · exact haside.balanced
      · exact .of_nil rfl rfl

/-! ### Tickets -/

/-- How a step numbers the tasks: what it accepts it had ahead; and what is ahead then was ahead,
or it has got the next ticket. -/
structure Numbered (s s' : Pipeline κ V E) (events : List (Event V E ν))
    (part part' : Part κ V E) : Prop where
  le : s.nextTicket ≤ s'.nextTicket
  accepted : ticketsAt .accepted events = [] ∨ ∃ ticket task,
    part.ahead = some (.run ticket task) ∧ ticketsAt .accepted events = [ticket]
  ahead : ∀ ticket task, part'.ahead = some (.run ticket task) →
    ticketsAt .accepted events = [] ∧ (part.ahead = some (.run ticket task) ∨
      ticket = s.nextTicket ∧ s.nextTicket < s'.nextTicket)

/-- A step that leaves the tickets alone and leads to nothing that has a task to add. -/
theorem Numbered.of_none {part part' : Part κ V E} (hnext : s'.nextTicket = s.nextTicket)
    (haccepted : ticketsAt .accepted events = []) (hpart' : part'.ahead = none) :
    Numbered s s' events part part' := by
  refine ⟨Nat.le_of_eq hnext.symm, .inl haccepted, fun ticket task hahead => ?_⟩
  rw [hpart'] at hahead
  cases hahead

/-- **Tickets.** Every step of every call numbers the tasks so. -/
theorem numbered_of_turn (hsound : call.IsSound)
    (h : turn plan t choice s call = some (s', events, r)) :
    Numbered s s' events call.part (nextPart r) := by
  have hproper := hsound.proper
  cases hpart : call.part with
  | scheduling stage =>
      obtain ⟨r', hturn, hlift⟩ := turn_scheduling hpart h
      rw [hpart] at hproper
      have hstep := Schedule.turned_of_turn hturn
      obtain ⟨hle, hahead⟩ := Schedule.ahead_of_turn hstep hproper
      refine ⟨hle, ?_, fun ticket task hnext => ?_⟩
      · rcases Schedule.pending_of_turn hstep hproper with ⟨-, rfl⟩ | ⟨ticket, task, htask, -, rfl⟩
        · exact .inl rfl
        · exact .inr ⟨ticket, task, htask, rfl⟩
      · rw [hlift.nextPart_eq] at hnext
        cases hr : r'.next? with
        | none =>
            rw [hr] at hnext
            cases hnext
        | some stage' =>
            rw [hr] at hnext
            obtain ⟨rfl, hor⟩ := hahead stage' hr ticket task hnext
            exact ⟨rfl, hor⟩
  | tearing d =>
      obtain ⟨r', hturn, hlift⟩ := turn_tearing hpart h
      rw [hpart] at hproper
      have hstep := Teardown.turned_of_turn hturn
      refine .of_none (Teardown.frame_of_turn hstep).2.2.1
        (ticketsAt_eq_nil (Teardown.pending_of_turn hstep hproper).1 (by decide)) ?_
      rw [hlift.nextPart_eq]
      cases r'.next? <;> rfl
  | working w =>
      obtain ⟨r', hturn, hlift⟩ := turn_working hpart h
      have hstep := Work.turned_of_turn hturn
      refine .of_none (Work.frame_of_turn hstep).2.2.2
        (ticketsAt_eq_nil (Work.source_of_turn hstep) (by decide)) ?_
      rw [hlift.nextPart_eq]
      cases r'.next? <;> rfl
  | reading phase =>
      obtain ⟨intake, progress, -, rfl, rfl, -, -, hnext⟩ := turn_reading hpart h
      refine .of_none rfl rfl ?_
      rw [hnext]
      cases progress <;> rfl
  | other =>
      obtain ⟨haside, -, hfresh⟩ | ⟨-, rfl, rfl, reporting, rfl⟩ := turn_other hpart hsound.opens h
      · exact .of_none haside.nextTicket_eq (ticketsAt_eq_nil haside.source_eq (by decide))
          (holds_of_isFresh hfresh).2
      · exact .of_none rfl rfl rfl

/-! ### All runs -/

/-- What has not been cleared has not been discarded. -/
theorem discarded_eq_nil {history : List (Tid × Event V E ν)} (h : ¬ Passed .cleared history) :
    reached .discarded history = [] := by
  rw [reached, ticketsAt, List.flatMap_eq_nil_iff]
  intro event hevent
  obtain ⟨entry, hentry, rfl⟩ := List.mem_map.mp hevent
  cases hevent : entry.2 with
  | discarded tickets => exact absurd ⟨entry, hentry, by rw [hevent]; rfl⟩ h
  | _ => rfl

/-- What holds of the books at every moment. -/
structure Ledger (v : View κ V E ν) : Prop where
  pending : reached .accepted v.history = reached .taken v.history ++
    reached .discarded v.history ++ ticketsOf v.shared.pending.value
  finished : reached .published v.history =
    reached .received v.history ++ v.shared.finished.value.map Finished.ticket
  sorted : (reached .accepted v.history).Pairwise (· < ·)
  below : ∀ k ∈ reached .accepted v.history, k < v.shared.nextTicket
  ahead : ∀ t call ticket task, (v.calls t).active = some call →
    call.part.ahead = some (.run ticket task) →
    ticket < v.shared.nextTicket ∧ ∀ k ∈ reached .accepted v.history, k < ticket

/-- After the clear nothing is accepted, taken or discarded. -/
theorem nil_of_cleared {history : List (Tid × Event V E ν)} (hsound : call.IsSound)
    (h : turn plan t choice s call = some (s', events, r)) (hkept : Kept s history)
    (hfound : call.part.ahead ≠ none → s.intake.value = true) (hcleared : Passed .cleared history) :
    ticketsAt .accepted events = [] ∧ ticketsAt .taken events = [] ∧
      ticketsAt .discarded events = [] ∧ ticketsOf s'.pending.value = [] := by
  have haccepted : ticketsAt .accepted events = [] := by
    rcases (numbered_of_turn hsound h).accepted with hnil | ⟨ticket, task, hahead, -⟩
    · exact hnil
    · have hopen := hfound (by rw [hahead]; exact Option.some_ne_none _)
      rw [hkept.shut (.inr (.inl hcleared))] at hopen
      cases hopen
  have hbalance := (balanced_of_turn hsound h).pending
  rw [haccepted, hkept.cleared hcleared] at hbalance
  obtain ⟨hremoved, hpending⟩ := List.append_eq_nil_iff.mp hbalance.symm
  obtain ⟨htaken, hdiscarded⟩ := List.append_eq_nil_iff.mp hremoved
  exact ⟨haccepted, htaken, hdiscarded, hpending⟩

/-- The pending channel's books after one step of a call. -/
theorem Ledger.pending_of_turn {v : View κ V E ν} (hv : Ledger v) (hsound : call.IsSound)
    (h : turn plan t choice v.shared call = some (s', events, r))
    (hkept : Kept v.shared v.history)
    (hfound : call.part.ahead ≠ none → v.shared.intake.value = true) :
    reached .accepted v.history ++ ticketsAt .accepted events =
      reached .taken v.history ++ ticketsAt .taken events ++
        (reached .discarded v.history ++ ticketsAt .discarded events) ++
        ticketsOf s'.pending.value := by
  have hbooks := hv.pending
  -- nothing is taken any more when something has been discarded
  by_cases hcleared : Passed .cleared v.history
  · obtain ⟨haccepted, htaken, hdiscarded, hpending⟩ :=
      nil_of_cleared hsound h hkept hfound hcleared
    rw [hkept.cleared hcleared] at hbooks
    rw [haccepted, htaken, hdiscarded, hpending]
    simpa only [List.append_nil] using hbooks
  · have hbalance := (balanced_of_turn hsound h).pending
    rw [discarded_eq_nil hcleared, List.append_nil] at hbooks
    rw [discarded_eq_nil hcleared, hbooks, List.append_assoc, hbalance]
    simp only [List.append_assoc, List.nil_append]

/-- What one step accepts is at most one task, whose ticket is above all tickets that were
accepted, and below the next. -/
theorem Ledger.above_of_turn {v : View κ V E ν} (hv : Ledger v)
    (hcall : (v.calls t).active = some call) {part' : Part κ V E}
    (hnumber : Numbered v.shared s' events call.part part') :
    (ticketsAt .accepted events).Pairwise (· < ·) ∧ ∀ k' ∈ ticketsAt .accepted events,
      k' < s'.nextTicket ∧ ∀ k ∈ reached .accepted v.history, k < k' := by
  rcases hnumber.accepted with hnil | ⟨ticket, task, hahead, hticket⟩
  · rw [hnil]
    exact ⟨.nil, by simp⟩
  · obtain ⟨hlt, habove⟩ := hv.ahead t call ticket task hcall hahead
    rw [hticket]
    refine ⟨List.pairwise_singleton _ _, fun k' hk' => ?_⟩
    obtain rfl := List.mem_singleton.mp hk'
    exact ⟨Nat.lt_of_lt_of_le hlt hnumber.le, habove⟩

/-- While a thread has a task ahead, no other thread's task is accepted: the two would own the
lock of the intake. -/
theorem accepted_eq_nil_of_ahead {v : View κ V E ν} {c : Call κ V E} {entry : Entry κ V E}
    (hgate : Gated v) (hcall : (v.calls t).active = some call) {part' : Part κ V E}
    (hnumber : Numbered v.shared s' events call.part part') (hu : u ≠ t)
    (hc : (v.calls u).active = some c) (hahead : c.part.ahead = some entry) :
    ticketsAt .accepted events = [] := by
  rcases hnumber.accepted with hnil | ⟨ticket, task, hahead', -⟩
  · exact hnil
  · have howner := hgate.owner t call hcall
      (Part.holds_of_ahead (by rw [hahead']; exact Option.some_ne_none _))
    have howner' := hgate.owner u c hc
      (Part.holds_of_ahead (by rw [hahead]; exact Option.some_ne_none _))
    rw [howner] at howner'
    exact absurd (Option.some.inj howner').symm hu

/-- The books after one step of a call. -/
theorem ledger_of_turn {v : View κ V E ν} {rest : List (Call κ V E)}
    (hactive : v.calls t = ⟨some call, rest⟩) (hsound : call.IsSound)
    (h : turn plan t choice v.shared call = some (s', events, r)) (hlive : r ≠ .abort)
    (hgate : Gated v) (hkept : Kept v.shared v.history) (hv : Ledger v) :
    Ledger { shared := s', history := v.history ++ events.map (Prod.mk t),
             calls := Function.update v.calls t (Calls.after call rest r) } := by
  have hcall : (v.calls t).active = some call := by rw [hactive]
  have hbalance := balanced_of_turn hsound h
  have hnumber := numbered_of_turn hsound h
  obtain ⟨hsorted, habove⟩ := hv.above_of_turn hcall hnumber
  refine ⟨?_, ?_, ?_, fun k hk => ?_, fun u c ticket task hc hahead => ?_⟩
  · simp only [reached_append]
    exact hv.pending_of_turn hsound h hkept (hgate.found t call hcall)
  · simp only [reached_append]
    rw [hv.finished, List.append_assoc, hbalance.finished, List.append_assoc]
  · rw [reached_append, List.pairwise_append]
    exact ⟨hv.sorted, hsorted, fun k hk k' hk' => (habove k' hk').2 k hk⟩
  · rw [reached_append, List.mem_append] at hk
    rcases hk with hk | hk
    · exact Nat.lt_of_lt_of_le (hv.below k hk) hnumber.le
    · exact (habove k hk).1
  · by_cases hu : u = t
    · subst hu
      simp only [Function.update_self] at hc
      have hnext : nextPart r = c.part := by
        cases r <;> cases hc <;> first | rfl | exact absurd rfl hlive
      obtain ⟨hnil, hor⟩ := hnumber.ahead ticket task (by rw [hnext]; exact hahead)
      rw [reached_append, hnil, List.append_nil]
      rcases hor with hsame | ⟨rfl, hlt⟩
      · obtain ⟨hlt, hbelow⟩ := hv.ahead u call ticket task hcall hsame
        exact ⟨Nat.lt_of_lt_of_le hlt hnumber.le, hbelow⟩
      · exact ⟨hlt, hv.below⟩
    · simp only [Function.update_of_ne hu] at hc
      obtain ⟨hlt, hbelow⟩ := hv.ahead u c ticket task hc hahead
      rw [reached_append, accepted_eq_nil_of_ahead hgate hcall hnumber hu hc hahead,
        List.append_nil]
      exact ⟨Nat.lt_of_lt_of_le hlt hnumber.le, hbelow⟩

/-- A step that notes nothing that is entered in the books, after which no more tasks are ahead. -/
theorem Ledger.of_same {v v' : View κ V E ν} (hv : Ledger v) (hshared : v'.shared = v.shared)
    (hreached : ∀ m, reached m v'.history = reached m v.history)
    (hahead : ∀ t call, (v'.calls t).active = some call → call.part.ahead ≠ none →
      (v.calls t).active = some call) : Ledger v' := by
  refine ⟨?_, ?_, ?_, ?_, fun t call ticket task hcall htask => ?_⟩
  · rw [hreached, hreached, hreached, hshared]
    exact hv.pending
  · rw [hreached, hreached, hshared]
    exact hv.finished
  · rw [hreached]
    exact hv.sorted
  · rw [hreached, hshared]
    exact hv.below
  · rw [hreached, hshared]
    exact hv.ahead t call ticket task
      (hahead t call hcall (by rw [htask]; exact Option.some_ne_none _)) htask

/-- A call that begins, or goes on after code, has no task to add. -/
theorem Ledger.of_idle {v : View κ V E ν} {rest : List (Call κ V E)} (hv : Ledger v)
    (hnone : call.part.ahead = none) : Ledger (v.withCalls t ⟨some call, rest⟩) := by
  refine hv.of_same rfl (fun _ => rfl) fun u c hc hahead => ?_
  by_cases hu : u = t
  · subst hu
    simp only [Scene.withCalls_calls, Function.update_self, Option.some.injEq] at hc
    exact absurd (hc ▸ hnone) hahead
  · simpa only [Scene.withCalls_calls, Function.update_of_ne hu] using hc

/-- **The books, one step.** -/
theorem ledger_of_moved {v v' : View κ V E ν} (h : Moved plan t v v') (hgate : Gated v)
    (hkept : Kept v.shared v.history) (hv : Ledger v) : Ledger v' := by
  cases h with
  | still => exact hv
  | noted note _ => exact hv.of_same rfl (fun m => reached_note m _ t note) fun _ _ hc _ => hc
  | began request _ => exact hv.of_idle (holds_of_isFresh (isFresh_call request)).2
  | @resumed call rest result hwaits =>
      have hwaiting := hgate.waiting t
      rw [hwaits] at hwaiting
      refine hv.of_idle ?_
      by_contra hahead
      have hholds := Part.holds_of_ahead hahead
      rw [part_resume, Part.holds_resume, hwaiting call List.mem_cons_self] at hholds
      cases hholds
  | turned hactive hsound hturn hlive =>
      exact ledger_of_turn hactive hsound hturn hlive hgate hkept hv

end Offload.Pipeline
