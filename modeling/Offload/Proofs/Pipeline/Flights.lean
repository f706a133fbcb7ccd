import Offload.Proofs.Pipeline.Conservation
import Offload.Proofs.Pipeline.Register

/-!
# Results in flight

A result in flight is held by one thread, whose callbacks have not been called yet; and no thread
takes out a result that any has taken out. So of the callbacks of a task at most one is called, and
at most once, after its body has returned and after the thread that calls it has taken the result
out.

## Main results

* `flights_of_moved`: what holds of results in flight, kept by every step of every thread.
* `flights_of_reach`: what holds of them in every reachable scene.
-/

namespace Offload.Pipeline

variable {κ V E ν : Type} {plan : Plan κ} {t u : Tid} {choice : Choice} {s s' : Pipeline κ V E}
  {events : List (Event V E ν)} {call : Call κ V E} {r : Turn κ (Call κ V E) Answer}
  {history : List (Tid × Event V E ν)}

/-! ### What the history says of callbacks -/

/-- The ticket whose callback is called in an event, and the outcome for which it is called. -/
def Event.called? : Event V E ν → Option (Ticket × Except E V)
  | .completed ticket value => some (ticket, .ok value)
  | .failed ticket error => some (ticket, .error error)
  | _ => none

/-- The tickets whose callbacks have been called, in order. -/
def called (history : List (Tid × Event V E ν)) : List Ticket :=
  history.filterMap fun entry => entry.2.called?.map Prod.fst

/-- A delivery calls the callback that fits the outcome, if there is one. -/
theorem called?_deliveryEvent (f : Finished κ V E) :
    (deliveryEvent f : Event V E ν).called? = f.callback?.map fun _ => (f.ticket, f.outcome) := by
  obtain ⟨ticket, value | error, onValue, onError⟩ := f
  · cases onError <;> rfl
  · cases onValue <;> rfl

/-- Only deliveries call callbacks. -/
theorem called?_of_source {event : Event V E ν} (h : event.source ≠ .delivery) :
    event.called? = none := by
  cases event with
  | completed _ _ | failed _ _ => exact absurd rfl h
  | _ => rfl

theorem called_append (history : List (Tid × Event V E ν)) (t : Tid)
    (events : List (Event V E ν)) : called (history ++ events.map (Prod.mk t)) =
      called history ++ events.filterMap fun event => event.called?.map Prod.fst := by
  rw [called, List.filterMap_append, List.filterMap_map]
  rfl

/-- Events that call no callback leave the callbacks that have been called. -/
theorem called_append_of_none (h : ∀ event ∈ events, event.called? = none) :
    called (history ++ events.map (Prod.mk t)) = called history := by
  rw [called_append, List.filterMap_eq_nil_iff.mpr, List.append_nil]
  intro event hevent
  rw [h event hevent]
  rfl

/-- Whether every callback has been called after the body of its task had returned with this
outcome, and after the thread that called it had taken the result out. -/
def CalledAfter (history : List (Tid × Event V E ν)) : Prop :=
  ∀ before u event later, history = before ++ (u, event) :: later →
    ∀ ticket outcome, event.called? = some (ticket, outcome) →
      (workerThread, .returned ticket outcome) ∈ before ∧ (u, .received ticket) ∈ before

theorem CalledAfter.append (h : CalledAfter history)
    (hevents : ∀ event ∈ events, ∀ ticket outcome, event.called? = some (ticket, outcome) →
      (workerThread, .returned ticket outcome) ∈ history ∧ (t, .received ticket) ∈ history) :
    CalledAfter (history ++ events.map (Prod.mk t)) := by
  have hnew : ∀ u event, (u, event) ∈ events.map (Prod.mk t) → ∀ ticket outcome,
      event.called? = some (ticket, outcome) →
        (workerThread, .returned ticket outcome) ∈ history ∧ (u, .received ticket) ∈ history := by
    intro u event hmem ticket outcome hcalled
    obtain ⟨event', hevent', heq⟩ := List.mem_map.mp hmem
    cases heq
    exact hevents event hevent' ticket outcome hcalled
  intro before u event later heq ticket outcome hcalled
  rcases List.append_eq_append_iff.mp heq with ⟨between, rfl, hsplit⟩ | ⟨between, rfl, hsplit⟩
  · obtain ⟨hreturned, hreceived⟩ := hnew u event (by rw [hsplit]; simp) ticket outcome hcalled
    exact ⟨List.mem_append_left _ hreturned, List.mem_append_left _ hreceived⟩
  · cases between with
    | nil =>
        rw [List.append_nil] at hnew
        exact hnew u event (by rw [← List.nil_append (events.map _), ← hsplit]; simp) ticket outcome
          hcalled
    | cons entry between =>
        obtain ⟨rfl, -⟩ := List.cons.inj hsplit
        exact h before u event between rfl ticket outcome hcalled

/-- A callback that has been called belongs to a task that has returned and whose result has been
taken out. -/
theorem CalledAfter.exists_of_mem (h : CalledAfter history) {ticket : Ticket}
    (hcalled : ticket ∈ called history) : ∃ u outcome,
      (workerThread, .returned ticket outcome) ∈ history ∧ (u, .received ticket) ∈ history := by
  obtain ⟨⟨u, event⟩, hmem, hticket⟩ := List.mem_filterMap.mp hcalled
  obtain ⟨⟨ticket', outcome⟩, hevent, rfl⟩ := Option.map_eq_some_iff.mp hticket
  obtain ⟨before, later, rfl⟩ := List.append_of_mem hmem
  obtain ⟨hreturned, hreceived⟩ := h before u event later rfl ticket' outcome hevent
  exact ⟨u, outcome, List.mem_append_left _ hreturned, List.mem_append_left _ hreceived⟩

/-! ### Results in flight -/

/-- The result that a thread has in flight. -/
def flightOf (c : Calls (Call κ V E)) : Option (Finished κ V E) :=
  c.active.bind Call.flight?

/-- What holds of results in flight and of callbacks at every moment: no call that waits for code
has any; whatever a thread has in flight it has taken out, its callbacks have not been called, and
no other thread has it; no callback has been called twice, and each after all that it takes. -/
structure Flights (v : View κ V E ν) : Prop where
  waiting : ∀ t, ∀ call ∈ (v.calls t).waiting, call.flight? = none
  received : ∀ t f, flightOf (v.calls t) = some f → (t, .received f.ticket) ∈ v.history
  uncalled : ∀ t f, flightOf (v.calls t) = some f → f.ticket ∉ called v.history
  apart : ∀ t u f f', t ≠ u → flightOf (v.calls t) = some f → flightOf (v.calls u) = some f' →
    f.ticket ≠ f'.ticket
  once : (called v.history).Nodup
  after : CalledAfter v.history

section Steps

variable {v v' : View κ V E ν} {c : Calls (Call κ V E)} {f : Finished κ V E}

theorem waiting_update (hv : Flights v) (hcalls : v'.calls = Function.update v.calls t c)
    (hwaiting : ∀ call ∈ c.waiting, call.flight? = none) :
    ∀ u, ∀ call ∈ (v'.calls u).waiting, call.flight? = none := by
  rw [hcalls, Function.forall_update_iff v.calls
    (p := fun _ c => ∀ call ∈ c.waiting, call.flight? = none)]
  exact ⟨hwaiting, fun u _ => hv.waiting u⟩

/-- A thread that calls no callback has in flight what it had, or nothing. -/
theorem Flights.of_quiet (hv : Flights v) (events : List (Event V E ν))
    (hcalls : v'.calls = Function.update v.calls t c)
    (hhistory : v'.history = v.history ++ events.map (Prod.mk t))
    (hevents : ∀ event ∈ events, event.called? = none)
    (hwaiting : ∀ call ∈ c.waiting, call.flight? = none)
    (hflight : flightOf c = none ∨ flightOf c = flightOf (v.calls t)) : Flights v' := by
  have hsame : ∀ u f, flightOf (v'.calls u) = some f → flightOf (v.calls u) = some f := by
    intro u f hf
    rw [hcalls] at hf
    by_cases hu : u = t
    · subst hu
      rw [Function.update_self] at hf
      rcases hflight with hnone | heq
      · rw [hnone] at hf
        cases hf
      · exact heq ▸ hf
    · rwa [Function.update_of_ne hu] at hf
  have hcalled : called v'.history = called v.history := by
    rw [hhistory, called_append_of_none hevents]
  refine ⟨waiting_update hv hcalls hwaiting, fun u f hf => ?_, fun u f hf => ?_,
    fun u u' f f' hne hf hf' => hv.apart u u' f f' hne (hsame u f hf) (hsame u' f' hf'), ?_, ?_⟩
  · rw [hhistory]
    exact List.mem_append_left _ (hv.received u f (hsame u f hf))
  · rw [hcalled]
    exact hv.uncalled u f (hsame u f hf)
  · rw [hcalled]
    exact hv.once
  · rw [hhistory]
    refine hv.after.append fun event hevent ticket outcome hcalls => ?_
    rw [hevents event hevent] at hcalls
    cases hcalls

/-- A thread has taken out a result that no thread had taken out. -/
theorem Flights.of_received (hv : Flights v) (hcalls : v'.calls = Function.update v.calls t c)
    (hhistory : v'.history = v.history ++ [.received f.ticket].map (Prod.mk t))
    (hwaiting : ∀ call ∈ c.waiting, call.flight? = none) (hflight : flightOf c = some f)
    (hfresh : f.ticket ∉ reached .received v.history) : Flights v' := by
  have hcases : ∀ u f', flightOf (v'.calls u) = some f' →
      u = t ∧ f' = f ∨ u ≠ t ∧ flightOf (v.calls u) = some f' := by
    intro u f' hf'
    rw [hcalls] at hf'
    by_cases hu : u = t
    · subst hu
      rw [Function.update_self, hflight] at hf'
      exact .inl ⟨rfl, (Option.some.inj hf').symm⟩
    · rw [Function.update_of_ne hu] at hf'
      exact .inr ⟨hu, hf'⟩
  have hapart : ∀ u f', flightOf (v.calls u) = some f' → f'.ticket ≠ f.ticket := by
    intro u f' hf' heq
    exact hfresh (heq ▸ mem_reached (hv.received u f' hf') (List.mem_singleton_self _))
  have hcalled : called v'.history = called v.history := by
    rw [hhistory, called_append_of_none (by simp [Event.called?])]
  refine ⟨waiting_update hv hcalls hwaiting, fun u f' hf' => ?_, fun u f' hf' => ?_,
    fun u u' f₁ f₂ hne hf₁ hf₂ => ?_, ?_, ?_⟩
  · rw [hhistory]
    rcases hcases u f' hf' with ⟨rfl, rfl⟩ | ⟨-, hold⟩
    · simp
    · exact List.mem_append_left _ (hv.received u f' hold)
  · rw [hcalled]
    rcases hcases u f' hf' with ⟨rfl, rfl⟩ | ⟨-, hold⟩
    · intro hmem
      obtain ⟨u', outcome, -, hreceived⟩ := hv.after.exists_of_mem hmem
      exact hfresh (mem_reached hreceived (List.mem_singleton_self _))
    · exact hv.uncalled u f' hold
  · rcases hcases u f₁ hf₁ with ⟨rfl, rfl⟩ | ⟨-, hold₁⟩
    · rcases hcases u' f₂ hf₂ with ⟨rfl, rfl⟩ | ⟨-, hold₂⟩
      · exact absurd rfl hne
      · exact (hapart u' f₂ hold₂).symm
    · rcases hcases u' f₂ hf₂ with ⟨rfl, rfl⟩ | ⟨-, hold₂⟩
      · exact hapart u f₁ hold₁
      · exact hv.apart u u' f₁ f₂ hne hold₁ hold₂
  · rw [hcalled]
    exact hv.once
  · rw [hhistory]
    exact hv.after.append (by simp [Event.called?])

/-- A thread has delivered the result that it had in flight. -/
theorem Flights.of_delivered (hv : Flights v) (hcalls : v'.calls = Function.update v.calls t c)
    (hhistory : v'.history = v.history ++ [deliveryEvent f].map (Prod.mk t))
    (hwaiting : ∀ call ∈ c.waiting, call.flight? = none) (hnone : flightOf c = none)
    (hflight : flightOf (v.calls t) = some f)
    (hreturned : (workerThread, .returned f.ticket f.outcome) ∈ v.history) : Flights v' := by
  have hcases : ∀ u f', flightOf (v'.calls u) = some f' →
      u ≠ t ∧ flightOf (v.calls u) = some f' := by
    intro u f' hf'
    rw [hcalls] at hf'
    by_cases hu : u = t
    · subst hu
      rw [Function.update_self, hnone] at hf'
      cases hf'
    · rw [Function.update_of_ne hu] at hf'
      exact ⟨hu, hf'⟩
  have hcalled : called v'.history = called v.history ∨
      called v'.history = called v.history ++ [f.ticket] := by
    rw [hhistory, called_append]
    cases hcode : f.callback? with
    | none => simp [called?_deliveryEvent, hcode]
    | some code => simp [called?_deliveryEvent, hcode]
  have hfresh := hv.uncalled t f hflight
  refine ⟨waiting_update hv hcalls hwaiting, fun u f' hf' => ?_, fun u f' hf' => ?_,
    fun u u' f₁ f₂ hne hf₁ hf₂ =>
      hv.apart u u' f₁ f₂ hne (hcases u f₁ hf₁).2 (hcases u' f₂ hf₂).2, ?_, ?_⟩
  · rw [hhistory]
    exact List.mem_append_left _ (hv.received u f' (hcases u f' hf').2)
  · obtain ⟨hu, hold⟩ := hcases u f' hf'
    rcases hcalled with hsame | hmore
    · rw [hsame]
      exact hv.uncalled u f' hold
    · rw [hmore, List.mem_append, List.mem_singleton, not_or]
      exact ⟨hv.uncalled u f' hold, hv.apart u t f' f hu hold hflight⟩
  · rcases hcalled with hsame | hmore
    · rw [hsame]
      exact hv.once
    · rw [hmore, List.nodup_append]
      refine ⟨hv.once, List.nodup_singleton _, fun k hk k' hk' heq => ?_⟩
      rw [heq, List.mem_singleton.mp hk'] at hk
      exact hfresh hk
  · rw [hhistory]
    refine hv.after.append fun event hevent ticket outcome hcalls => ?_
    rw [List.mem_singleton.mp hevent, called?_deliveryEvent, Option.map_eq_some_iff] at hcalls
    obtain ⟨code, -, heq⟩ := hcalls
    cases heq
    exact ⟨hreturned, hv.received t f hflight⟩

/-- What is in the finished channel has not been taken out. -/
theorem not_received (hledger : Ledger v) {w : Option (Work κ V E)} (hstaff : Staff w v)
    (hf : f ∈ v.shared.finished.value) : f.ticket ∉ reached .received v.history := by
  obtain ⟨last, -, hbegun, -⟩ := begun_eq hledger hstaff
  have hnodup := begun_nodup hledger hstaff
  rw [hbegun, hledger.finished] at hnodup
  intro hreceived
  exact (List.nodup_append.mp (List.nodup_append.mp hnodup).1).2.2 _ hreceived _
    (List.mem_map_of_mem hf) rfl

/-- **Results in flight, one step.** -/
theorem flights_of_moved (h : Moved plan t v v') (horder : Orderly v)
    {register : List (Task κ V E)} (hregister : Registered register v) (hv : Flights v) :
    Flights v' := by
  cases h with
  | still => exact hv
  | noted note _ =>
      have hcalls : v.calls = Function.update v.calls t (v.calls t) := by
        rw [Function.update_eq_self]
      exact hv.of_quiet [.note note] hcalls rfl (by simp [Event.called?]) (hv.waiting t) (.inr rfl)
  | began request hcode =>
      exact hv.of_quiet [] rfl (List.append_nil _).symm nofun (hv.waiting t)
        (.inl (flight?_call request))
  | @resumed call rest result hwaits =>
      have hwaiting := hv.waiting t
      rw [hwaits] at hwaiting
      refine hv.of_quiet [] rfl (List.append_nil _).symm nofun
        (fun c hc => hwaiting c (List.mem_cons_of_mem _ hc)) (.inl ?_)
      rcases flight?_resume call result with hnone | hsame
      · exact hnone
      · exact hsame.trans (hwaiting call List.mem_cons_self)
  | @turned call rest choice s' events r hactive hsound hturn hlive =>
      have hwaiting := hv.waiting t
      rw [hactive] at hwaiting
      have hflight : flightOf (v.calls t) = call.flight? := by rw [hactive]; rfl
      by_cases hpart : call.part = .other
      · cases delivers_of_turn hpart hturn with
        | idle _ hsource hnext hrun =>
            refine hv.of_quiet events rfl rfl (fun e he => called?_of_source (hsource e he)) ?_ ?_
            · cases r with
              | run code call' => exact absurd rfl (hrun code call')
              | stay _ | ret _ | fail _ | abort => exact hwaiting
            · rw [hflight]
              cases r with
              | stay call' => exact hnext call' rfl
              | run code call' => exact absurd rfl (hrun code call')
              | ret _ | fail _ => exact .inl rfl
              | abort => exact absurd rfl hlive
        | received f call' hvalue hcall' =>
            refine hv.of_received rfl rfl hwaiting hcall' ?_
            obtain ⟨w, hstaff⟩ := horder.staff
            exact not_received horder.ledger hstaff (by rw [hvalue]; exact List.mem_cons_self)
        | delivered f after hdelivering =>
            obtain ⟨hheld, hnone, -⟩ := flight?_of_delivering hdelivering
            have hcall := hregister.calls t call (by rw [hactive]; exact List.mem_cons_self)
            have hresult := hcall.flight f hheld
            refine hv.of_delivered rfl rfl ?_ ?_ (hflight.trans hheld) hresult.returned
            · cases f.callback? with
              | none => exact hwaiting
              | some code =>
                  intro c hc
                  rcases List.mem_cons.mp hc with rfl | hc
                  · exact hnone
                  · exact hwaiting c hc
            · cases f.callback? with
              | none => exact hnone
              | some code => rfl
      · obtain ⟨hsource, hnext⟩ := quiet_of_turn hsound hpart hturn
        refine hv.of_quiet events rfl rfl (fun e he => called?_of_source (hsource e he)) ?_
          (.inl ?_)
        · cases r with
          | run code call' =>
              intro c hc
              rcases List.mem_cons.mp hc with rfl | hc
              · exact hnext c rfl
              · exact hwaiting c hc
          | stay _ | ret _ | fail _ | abort => exact hwaiting
        · cases r with
          | stay call' => exact hnext call' rfl
          | run _ _ | ret _ | fail _ => rfl
          | abort => exact absurd rfl hlive

end Steps

theorem flights_opening : Flights (opening : View κ V E ν) := by
  have hflight : ∀ t f, flightOf ((opening : View κ V E ν).calls t) ≠ some f := by
    intro t f hf
    rcases calls_opening (V := V) (E := E) (ν := ν) t with ⟨-, hcalls⟩ | ⟨-, hcalls⟩ <;>
    · rw [hcalls] at hf
      cases hf
  refine ⟨fun t call hcall => ?_, fun t f hf => absurd hf (hflight t f),
    fun t f hf => absurd hf (hflight t f), fun t u f f' _ hf => absurd hf (hflight t f), .nil, ?_⟩
  · rw [eq_of_mem_opening (List.mem_append_right _ hcall)]
    rfl
  · intro before u event later heq
    cases before <;> cases heq

/-- **Results in flight.** What holds of them holds in every reachable scene. -/
theorem flights_of_reach {v : View κ V E ν} (h : Scene.Reach (library plan) opening v) :
    Flights v := by
  refine h.invariant flights_opening fun t v v' hs hv hstep => ?_
  obtain ⟨register, hregister⟩ := exists_register hs
  exact flights_of_moved (moved_of_reach hs hstep) (orderly_of_reach hs) hregister hv

/-- What has returned has been accepted and has not been discarded. -/
theorem accepted_of_returned {v : View κ V E ν} (hv : Orderly v) {ticket : Ticket}
    (h : ticket ∈ reached .returned v.history) :
    ticket ∈ reached .accepted v.history ∧ ticket ∉ reached .discarded v.history ∧
      ticket ∉ ticketsOf v.shared.pending.value := by
  obtain ⟨w, hstaff⟩ := hv.staff
  obtain ⟨lost, hbegun, -, -⟩ := hstaff.tally.begun
  have htaken : ticket ∈ reached .taken v.history := by
    rw [hstaff.tally.taken, hbegun]
    simp [h]
  have hbooks := hv.ledger.pending
  have hnodup := hv.ledger.sorted.imp fun h => Nat.ne_of_lt h
  rw [hbooks] at hnodup ⊢
  obtain ⟨hremoved, -, hpending⟩ := List.nodup_append.mp hnodup
  obtain ⟨-, -, hdiscarded⟩ := List.nodup_append.mp hremoved
  exact ⟨by simp [htaken], fun hmem => hdiscarded _ htaken _ hmem rfl,
    fun hmem => hpending _ (List.mem_append_left _ htaken) _ hmem rfl⟩

end Offload.Pipeline
