import Offload.Proofs.Pipeline.Account
import Offload.Proofs.Pipeline.Bodies
import Offload.Proofs.Pipeline.Shutdown

/-!
# The report accounts for every task

There is at most one teardown, and all that it reports stays as it is: nothing is discarded after
the clear, and when the worker has ended and nobody borrows the pipeline, nothing joins the finished
channel and nothing leaves it. With the books of the two channels and those of the worker, this
makes the report add up.

## Main results

* `reported_of_moved`: the accounts of teardowns, kept by every step of every thread.
* `report_complete`: what the report says, in every run.
-/

namespace Offload.Pipeline

variable {κ ω V E ν : Type} {plan : Plan κ} {t u : Tid} {choice : Choice}

/-! ### Scenes -/

section Scenes

variable {v v' : View κ V E ν} {s s' : Pipeline κ V E} {events : List (Event V E ν)}
  {history : List (Tid × Event V E ν)} {call : Call κ V E} {rest : List (Call κ V E)}
  {r : Turn κ (Call κ V E) Answer} {d : Teardown κ V E}

/-- A step that passes no landmark keeps the account of a teardown, unless that has joined the
worker's thread and results are taken out or added. -/
theorem Teardown.Account.later (h : Teardown.Account u d s history)
    (hlandmark : ∀ event ∈ events, event.landmark? = none)
    (hfinished : d.stage.hasJoined = true →
      s'.finished.value.length = s.finished.value.length) :
    Teardown.Account u d s' (history ++ events.map (Prod.mk t)) := by
  have hne : ∀ x, ∀ event ∈ events, event.landmark? ≠ some x := by
    intro x event hevent
    rw [hlandmark event hevent]
    nofun
  refine ⟨h.carries.later (discarded_of_ne (hne .cleared)) hfinished, h.away, fun hrests => ?_,
    fun hrests => ?_⟩
  · rw [passed_append_of_ne (hne .stopped)]
    exact h.unreported hrests
  · exact (h.reported hrests).imp_right fun ⟨n, k, hevent⟩ =>
      ⟨n, k, List.mem_append_left _ hevent⟩

/-- The account stays when code has ended that the teardown ran. -/
theorem Teardown.Account.resume {ρ : Type} (h : Teardown.Account u d s history)
    (result : Except Fault ρ) : Teardown.Account u (d.resume result) s history := by
  obtain ⟨reporting, earlier, stage⟩ := d
  cases stage with
  | clearing c =>
      refine ⟨?_, nofun, h.unreported, h.reported⟩
      have hcarries : ClearCarries history c := h.carries
      cases c with
      | taking phase => cases result <;> exact hcarries
      | finalizing n rest fault =>
          cases result with
          | ok _ => exact hcarries
          | error _ =>
              cases fault with
              | none => exact hcarries
              | some _ => trivial
      | broken => cases result <;> trivial
  | _ => exact h

/-- What holds of the accounts of teardowns and of what has been reported at every moment. -/
structure Reported (v : View κ V E ν) : Prop where
  accounts : ∀ t, ∀ d ∈ picks Part.tearing? (v.calls t).all, Teardown.Account t d v.shared v.history
  final : Final v.shared v.history

/-- What is picked out of the calls of any thread is all that there is. -/
theorem Sole.eq_of_mem {β : Type} {f : Part κ V E → Option β} {x : Option β} {b : β}
    {calls : Tid → Calls (Call κ V E)} (h : Sole f u x calls) (hb : b ∈ picks f (calls t).all) :
    t = u ∧ x = some b := by
  rw [h t] at hb
  split at hb
  · next heq => exact ⟨heq, Option.mem_toList.mp hb⟩
  · cases hb

/-- When the pipeline has no owner and the worker has ended, what is finished stays. -/
theorem finished_of_ended (hv : Scene.Reach (library plan) opening v)
    (howned : v.shared.owned = false) (hended : v.shared.health ≠ .alive)
    (hactive : v.calls t = ⟨some call, rest⟩) (hsound : call.IsSound)
    (hturn : turn plan t choice v.shared call = some (s', events, r)) :
    s'.finished.value.length = v.shared.finished.value.length := by
  have hall : (v.calls t).all = call :: rest := by rw [hactive]; rfl
  obtain ⟨w, hstaff⟩ := (orderly_of_reach hv).staff
  obtain ⟨rfl, -⟩ := calls_of_ended hstaff hended
  have hborrows := borrows_eq_false hv howned (hall ▸ List.mem_cons_self)
  have hworker : call.part.working? = none := by
    cases hw : call.part.working? with
    | none => rfl
    | some w => cases (hstaff.sole.eq_of_active hall hw).2.1
  exact finished_of_turn hsound hborrows hworker hturn

/-- A pipeline that has a teardown, or whose pending channel has been cleared, has no owner. -/
theorem owned_of_closing {x : Option (Teardown κ V E)} (hclosing : Closing u x v)
    (h : x ≠ none ∨ Passed .cleared v.history) : v.shared.owned = false := by
  by_contra howned
  obtain ⟨hnone, hjoinable⟩ := hclosing.owned (by simpa using howned)
  rcases h with hsome | hcleared
  · exact hsome hnone
  · exact (hclosing.kept.joinable hjoinable).1 hcleared

/-- A call that is no teardown has made a step: the accounts after that. -/
theorem reported_of_other (hv : Scene.Reach (library plan) opening v) (hr : Reported v)
    (hactive : v.calls t = ⟨some call, rest⟩) (hsound : call.IsSound)
    (hpart : call.part.tearing? = none)
    (hturn : turn plan t choice v.shared call = some (s', events, r)) (hlive : r ≠ .abort) :
    Reported { shared := s', history := v.history ++ events.map (Prod.mk t),
               calls := Function.update v.calls t (Calls.after call rest r) } := by
  have hall : (v.calls t).all = call :: rest := by rw [hactive]; rfl
  have horder := orderly_of_reach hv
  obtain ⟨u₀, x, hclosing⟩ := horder.closing
  obtain ⟨htame, hnext⟩ :=
    tame_of_turn hsound hpart hturn (horder.gated.found t call (by rw [hactive]))
  have hfinished : v.shared.owned = false → v.shared.health ≠ .alive →
      s'.finished.value.length = v.shared.finished.value.length :=
    fun howned hended => finished_of_ended hv howned hended hactive hsound hturn
  have hlater : ∀ u, ∀ d ∈ picks Part.tearing? (v.calls u).all,
      Teardown.Account u d s' (v.history ++ events.map (Prod.mk t)) := by
    intro u d hd
    obtain ⟨rfl, rfl⟩ := hclosing.sole.eq_of_mem hd
    refine (hr.accounts u d hd).later htame.landmark fun hjoined => ?_
    have howned := owned_of_closing hclosing (.inl nofun)
    exact hfinished howned ((hclosing.promise d rfl).joined hjoined)
  refine ⟨fun u d hd => ?_, hr.final.later (htame.ne_landmark .stopped)
    (fun _ => discarded_of_ne (htame.ne_landmark .cleared)) fun hstopped => ?_⟩
  · by_cases hu : u = t
    · subst hu
      simp only [Function.update_self] at hd
      rw [picks_after rfl hlive, List.mem_append, Option.mem_toList] at hd
      rcases hd with hd | hd
      · rcases hnext with hnone | ⟨howned, -, reporting, hbegins⟩
        · rw [hnone] at hd
          cases hd
        · -- the pipeline has just been taken from its owner
          obtain rfl := Option.some.inj (hbegins.symm.trans hd)
          refine ⟨trivial, nofun, fun _ hstopped => ?_, nofun⟩
          rw [passed_append_of_ne (htame.ne_landmark .stopped)] at hstopped
          rw [owned_of_closing hclosing (.inr (hr.final.cleared hstopped))] at howned
          cases howned
      · refine hlater u d ?_
        rw [hall, picks_cons]
        exact List.mem_append_right _ hd
    · simp only [Function.update_of_ne hu] at hd
      exact hlater u d hd
  · exact hfinished (owned_of_closing hclosing (.inr (hr.final.cleared hstopped)))
      (hclosing.kept.joined hstopped)

/-- The teardown has made a step: the accounts after that. -/
theorem reported_of_tearing (hv : Scene.Reach (library plan) opening v) (hr : Reported v)
    (hactive : v.calls t = ⟨some call, rest⟩) (hsound : call.IsSound)
    (hpart : call.part = .tearing d)
    (hturn : turn plan t choice v.shared call = some (s', events, r)) (hlive : r ≠ .abort) :
    Reported { shared := s', history := v.history ++ events.map (Prod.mk t),
               calls := Function.update v.calls t (Calls.after call rest r) } := by
  have hall : (v.calls t).all = call :: rest := by rw [hactive]; rfl
  have horder := orderly_of_reach hv
  obtain ⟨u₀, x, hclosing⟩ := horder.closing
  obtain ⟨rfl, rfl, hrest⟩ := hclosing.sole.eq_of_active hall (by rw [hpart]; rfl)
  obtain ⟨r', hstep, hlift⟩ := turn_tearing hpart hturn
  have hproper := hsound.proper
  rw [hpart] at hproper
  have haccount : Teardown.Account t d v.shared v.history := by
    refine hr.accounts t d ?_
    rw [hall, picks_cons, hpart]
    exact List.mem_cons_self
  refine ⟨fun u d' hd' => ?_, final_of_tearing hstep hproper (fun hcleared => ?_) hr.final haccount⟩
  · by_cases hu : u = t
    · subst hu
      simp only [Function.update_self] at hd'
      rw [picks_after rfl hlive, hlift.nextPart_eq, tearing?_getD, hrest, List.append_nil,
        Option.mem_toList] at hd'
      exact account_of_tearing hstep hproper (hclosing.promise d rfl) hclosing.kept
        (hclosing.rested d rfl) hr.final haccount d' hd'
    · simp only [Function.update_of_ne hu] at hd'
      exact absurd (hclosing.sole.eq_of_mem hd').1 hu
  · exact (nil_of_cleared hsound hturn hclosing.kept
      (horder.gated.found t call (by rw [hactive])) hcleared).2.2.1

/-- **The report, one step.** -/
theorem reported_of_moved (hv : Scene.Reach (library plan) opening v) (h : Moved plan t v v')
    (hr : Reported v) : Reported v' := by
  cases h with
  | still => exact hr
  | noted note _ =>
      have hlandmark : ∀ event ∈ [(.note note : Event V E ν)], event.landmark? = none := by
        simp [Event.landmark?]
      have hfinal : Final v.shared
          (v.history ++ [(.note note : Event V E ν)].map (Prod.mk t)) := by
        refine hr.final.later (fun event hevent => ?_) (fun _ => rfl) fun _ => rfl
        rw [hlandmark event hevent]
        rintro ⟨⟩
      exact ⟨fun u d hd => (hr.accounts u d hd).later hlandmark fun _ => rfl, hfinal⟩
  | began request hcode =>
      refine ⟨fun u d hd => ?_, hr.final⟩
      rw [Scene.withCalls_calls] at hd
      by_cases hu : u = t
      · subst hu
        rw [Function.update_self, Calls.all, Option.toList_some, List.singleton_append, picks_cons,
          tearing?_of_isFresh (isFresh_call request)] at hd
        refine hr.accounts u d ?_
        rw [Calls.all, picks_append]
        exact List.mem_append_right _ hd
      · rw [Function.update_of_ne hu] at hd
        exact hr.accounts u d hd
  | @resumed call rest result hwaits =>
      refine ⟨fun u d hd => ?_, hr.final⟩
      rw [Scene.withCalls_calls] at hd
      by_cases hu : u = t
      · subst hu
        have hold := hr.accounts u
        rw [hwaits, Calls.all, Option.toList_none, List.nil_append, picks_cons] at hold
        rw [Function.update_self, Calls.all, Option.toList_some, List.singleton_append, picks_cons,
          part_resume, tearing?_resume, List.mem_append, Option.mem_toList] at hd
        rcases hd with hd | hd
        · obtain ⟨d₀, hd₀, rfl⟩ := Option.map_eq_some_iff.mp hd
          exact (hold d₀ (List.mem_append_left _ (Option.mem_toList.mpr hd₀))).resume result
        · exact hold d (List.mem_append_right _ hd)
      · rw [Function.update_of_ne hu] at hd
        exact hr.accounts u d hd
  | @turned call rest choice s' events r hactive hsound hturn hlive =>
      cases hpart : call.part with
      | tearing d => exact reported_of_tearing hv hr hactive hsound hpart hturn hlive
      | scheduling _ | reading _ | working _ | other =>
          exact reported_of_other hv hr hactive hsound (by rw [hpart]; rfl) hturn hlive

theorem reported_opening : Reported (opening : View κ V E ν) := by
  refine ⟨fun t d hd => ?_, ⟨Nat.zero_le _, nofun⟩⟩
  obtain ⟨call, hcall, hpart⟩ := List.mem_filterMap.mp hd
  rw [eq_of_mem_opening hcall] at hpart
  cases hpart

/-- **The report.** What holds of it holds in every reachable scene. -/
theorem reported_of_reach (h : Scene.Reach (library plan) opening v) : Reported v :=
  h.invariant reported_opening fun _ _ _ hs hr hstep =>
    reported_of_moved hs (moved_of_reach hs hstep) hr

end Scenes

/-! ### States -/

section Runs

variable {next : κ → Move κ ω (Request κ V E) Answer (Except E V) ν} {world : ω} {codes : List κ}
  {s : State κ ω (Pipeline κ V E) (Call κ V E) Answer (Event V E ν)} {n : Nat}

/-- What is in the second part of a list without duplicates is what is not in the first. -/
theorem filter_notMem_append {tickets tickets' : List Ticket} (h : (tickets ++ tickets').Nodup) :
    (tickets ++ tickets').filter (· ∉ tickets) = tickets' := by
  obtain ⟨-, -, hdisjoint⟩ := List.nodup_append.mp h
  have hfirst : tickets.filter (· ∉ tickets) = [] :=
    List.filter_eq_nil_iff.mpr fun ticket hticket => by simpa using hticket
  have hsecond : tickets'.filter (· ∉ tickets) = tickets' :=
    List.filter_eq_self.mpr fun ticket hticket => by
      simpa using fun hmem => hdisjoint ticket hmem ticket hticket rfl
  rw [List.filter_append, hfirst, hsecond, List.nil_append]

/-- A teardown that answers on a thread other than the worker's has reported. -/
theorem exists_report_of_stopped (h : (machine plan next).Reach (start world codes) s)
    (ht : t ≠ workerThread) {report : Except Failure Unit}
    (hanswer : (machine plan next).Answers s t (.stopped report)) :
    ∃ discarded undelivered, (t, .notice (.stopped discarded undelivered)) ∈ s.history := by
  obtain ⟨v, hreach, hshows⟩ := exists_shows h
  obtain ⟨d, rest, hall, hrests⟩ := exists_rests_of_stopped hreach hshows hanswer
  have haccount := (reported_of_reach hreach).accounts t d (by
    rw [hall, picks_cons]
    exact List.mem_cons_self)
  rw [← hshows.history_eq]
  exact (haccount.reported hrests).resolve_left ht

/-- **The report is complete.** In every run, at every moment, whatever bodies, callbacks, hooks and
other code do, and where `n` bodies have ended in a fault:

* what was left is reported once at most;
* the report is made on a thread other than the worker's;
* it says how many of the accepted tasks have not begun, all of which were discarded, and how many
  of the published results have not been taken out for delivery;
* what has been accepted is what it says to be discarded, what it says to be undelivered, what has
  been taken out for delivery, and the task that was lost if a body has ended in a fault, of which
  there is one at most;
* a teardown that ends on a thread other than the worker's has made the report. -/
theorem report_complete (h : ReachFaulting plan next (start world codes) n s) :
    passes .stopped s.history ≤ 1 ∧
      (∀ t discarded undelivered, (t, .notice (.stopped discarded undelivered)) ∈ s.history →
        t ≠ workerThread ∧
        (reached .accepted s.history).filter (· ∉ reached .begun s.history) =
          reached .discarded s.history ∧
        discarded =
          ((reached .accepted s.history).filter (· ∉ reached .begun s.history)).length ∧
        undelivered =
          ((reached .published s.history).filter (· ∉ reached .received s.history)).length ∧
        (reached .accepted s.history).length =
          discarded + undelivered + (reached .received s.history).length + n ∧ n ≤ 1) ∧
      ∀ t report, t ≠ workerThread → (machine plan next).Answers s t (.stopped report) →
        ∃ discarded undelivered, (t, .notice (.stopped discarded undelivered)) ∈ s.history := by
  obtain ⟨v, hreach, hshows⟩ := exists_shows h.reach
  have hfinal := (reported_of_reach hreach).final
  have horder := orderly_of_reach hreach
  obtain ⟨u, d, hclosing⟩ := horder.closing
  obtain ⟨w, hstaff⟩ := horder.staff
  refine ⟨hshows.history_eq ▸ hfinal.once, fun t discarded undelivered hreport => ?_,
    fun t report ht hanswer => exists_report_of_stopped h.reach ht hanswer⟩
  have hended : v.shared.health ≠ .alive :=
    hclosing.kept.joined ⟨_, hshows.history_eq ▸ hreport, rfl⟩
  obtain ⟨hone, hbegun⟩ := length_begun_of_ended h (hshows.shared_eq ▸ hended)
  rw [← hshows.history_eq] at hreport hbegun ⊢
  obtain ⟨ht, ⟨hcleared, hdiscarded⟩, hundelivered⟩ :=
    hfinal.reports t discarded undelivered hreport
  obtain ⟨rfl, -⟩ := calls_of_ended hstaff hended
  -- the books of the two channels and of the worker, which has nothing at hand any more
  have haccepted : reached .accepted v.history =
      reached .begun v.history ++ reached .discarded v.history := by
    simpa using ((accepted_eq horder.ledger hclosing.kept hstaff).2 hcleared).2
  have hpublished := horder.ledger.finished
  have hreturned : reached .returned v.history = reached .published v.history := by
    simpa using hstaff.tally.returned
  have hunbegun : (reached .accepted v.history).filter (· ∉ reached .begun v.history) =
      reached .discarded v.history := by
    rw [haccepted]
    refine filter_notMem_append ?_
    rw [← haccepted]
    exact horder.ledger.sorted.imp fun h => Nat.ne_of_lt h
  have hunreceived : (reached .published v.history).filter (· ∉ reached .received v.history) =
      v.shared.finished.value.map Finished.ticket := by
    obtain ⟨last, -, hlast, -⟩ := begun_eq horder.ledger hstaff
    have hnodup := begun_nodup horder.ledger hstaff
    rw [hlast] at hnodup
    rw [hpublished]
    refine filter_notMem_append ?_
    rw [← hpublished]
    exact (List.nodup_append.mp hnodup).1
  refine ⟨ht, hunbegun, ?_, ?_, ?_, hone⟩
  · rw [hunbegun, hdiscarded]
  · rw [hunreceived, List.length_map, hundelivered]
  · rw [haccepted, List.length_append, hdiscarded, hbegun, hreturned, hpublished,
      List.length_append, List.length_map, hundelivered]
    omega

/-- At the end one task has been discarded and one result is undelivered, which makes two. -/
theorem report_complete_atTheEnd :
    (1, .notice (.stopped 1 1)) ∈ atTheEnd.history ∧ ∃ n,
      ReachFaulting {} (Script.next Wish.request) (start () [twoAndShutDown]) n atTheEnd ∧
        (reached .accepted atTheEnd.history).length =
          1 + 1 + (reached .received atTheEnd.history).length + n ∧ n = 0 := by
  have hreport : (1, .notice (.stopped 1 1)) ∈ atTheEnd.history :=
    List.mem_of_getElem? (show atTheEnd.history[13]? = _ from rfl)
  obtain ⟨n, hn⟩ := exists_reachFaulting (reach_midway.trans reach_atTheEnd)
  obtain ⟨-, haccounts, -⟩ := report_complete hn
  obtain ⟨-, -, -, -, htotal, -⟩ := haccounts 1 1 1 hreport
  have haccepted : (reached .accepted atTheEnd.history).length = 2 := by decide +kernel
  have hreceived : (reached .received atTheEnd.history).length = 0 := by decide +kernel
  exact ⟨hreport, n, hn, htotal, by omega⟩

end Runs

end Offload.Pipeline
