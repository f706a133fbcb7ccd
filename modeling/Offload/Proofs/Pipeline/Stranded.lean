import Offload.Proofs.Pipeline.Parting
import Offload.Proofs.Pipeline.Staying

/-!
# A pipeline that is torn down halfway

A teardown that has cleared the pending channel runs the destructors of the jobs that it discards,
and when one of them fails it ends in that fault: the entry that ends the worker is not queued. The
pipeline has no owner any more, so nobody else queues it. The worker does not leave then. When it
comes to look for an entry there is none, and there never will be.

## Main results

* `forsaken_of_step`: nobody comes to tear the pipeline down once more.
* `stranded_since`: what holds once a teardown has ended in the fault of a destructor.
* `leavesAlive_of_fault`: a worker that looks for an entry after that never ends.
-/

namespace Offload.Pipeline

variable {κ ω V E ν : Type} {plan : Plan κ} {t : Tid} {choice : Choice}

/-- A worker that looks for an entry, and has none in hand, goes on looking where nothing is
pending. -/
theorem Work.looks_of_turn {s s' : Pipeline κ V E} {events : List (Event V E ν)}
    {p : Channel.Pop (Entry κ V E)} {r : Turn κ (Work κ V E) Unit}
    (h : Turned plan t choice s (.popping p) s' events r)
    (hsound : (popping p : Work κ V E).IsSound) (hheld : p.held = none)
    (hnone : s.pending.value = []) : ∃ p', r.next? = some (.popping p') ∧ p'.held = none := by
  cases h with
  | @popped _ pending marks r hpop =>
      rcases Channel.Pop.marks_of_turn hpop with ⟨-, rfl⟩ | ⟨entry, again, -, hvalue, -, -⟩
      · have hsame := Channel.Pop.held_of_turn hpop
        rcases r with p' | ⟨code, p'⟩ | answer | fault | _
        · exact ⟨p', rfl, hsame.symm.trans hheld⟩
        · exact absurd rfl ((Channel.Pop.turn_plain hpop).2 code p')
        · obtain rfl : answer = none := hsame.symm.trans hheld
          exact ⟨_, rfl, rfl⟩
        · exact absurd rfl (Channel.Pop.ne_fail_of_turn hsound hpop fault)
        · exact absurd rfl (Channel.Pop.turn_plain hpop).1
      · cases hvalue.symm.trans hnone

/-! ### Scenes -/

section Scenes

variable {v v' : View κ V E ν}

/-- Whether the pending channel has been cleared, and nobody is left to queue the entry that ends
the worker. -/
structure Forsaken (v : View κ V E ν) : Prop where
  untorn : ∀ t, picks Part.tearing? (v.calls t).all = []
  cleared : Passed .cleared v.history
  unqueued : ¬ Passed .queued v.history

/-- Then nothing is pending. -/
theorem Forsaken.pending_eq_nil (h : Forsaken v) (hv : Orderly v) : v.shared.pending.value = [] := by
  obtain ⟨u, d, hclosing⟩ := hv.closing
  have htickets := hclosing.kept.cleared h.cleared
  have hstop := stop_not_mem_of_unqueued hv h.unqueued
  cases hvalue : v.shared.pending.value with
  | nil => rfl
  | cons entry rest =>
      rw [hvalue] at htickets hstop
      cases entry with
      | run ticket task => cases htickets
      | stop => exact absurd List.mem_cons_self hstop

/-- Where there is no teardown, no step passes a landmark. -/
theorem landmark_of_moved (h : Moved plan t v v') (hv : Orderly v)
    (huntorn : picks Part.tearing? (v.calls t).all = []) :
    ∃ events : List (Event V E ν), v'.history = v.history ++ events.map (Prod.mk t) ∧
      ∀ event ∈ events, event.landmark? = none := by
  cases h with
  | still | began _ _ | resumed _ _ => exact ⟨[], (List.append_nil _).symm, nofun⟩
  | noted note _ => exact ⟨[.note note], rfl, by simp [Event.landmark?]⟩
  | @turned call rest choice s' events r hactive hsound hturn _ =>
      have hcall : call.part.tearing? = none := by
        rw [Calls.all, hactive, Option.toList_some, List.singleton_append, picks_cons] at huntorn
        exact Option.toList_eq_nil_iff.mp (List.append_eq_nil_iff.mp huntorn).1
      have hfound := hv.gated.found t call (by rw [hactive])
      exact ⟨events, rfl, (tame_of_turn hsound hcall hturn hfound).1.landmark⟩

/-- **Forsaken, one step.** Nobody comes to tear the pipeline down once more. -/
theorem forsaken_of_step (hv : Scene.Reach (library plan) opening v)
    (h : Scene.Step (library plan) t v v') (hforsaken : Forsaken v) : Forsaken v' := by
  have hmoved := moved_of_reach hv h
  have horder := orderly_of_reach hv
  obtain ⟨events, hhistory, hlandmark⟩ := landmark_of_moved hmoved horder (hforsaken.untorn t)
  have hcleared : Passed .cleared v'.history := hhistory ▸ hforsaken.cleared.later _
  refine ⟨fun u => List.eq_nil_iff_forall_not_mem.mpr fun d' hd' => ?_, hcleared, ?_⟩
  · have hnone : ∀ {u d}, d ∉ picks Part.tearing? (v.calls u).all := fun {u _} hd => by
      rw [hforsaken.untorn u] at hd
      cases hd
    cases tearingMoved_of_moved hmoved horder hd' with
    | stood hd => exact hnone hd
    | resumed d _ hd _ _ => exact hnone hd
    | turned d _ hd _ _ _ => exact hnone hd
    | began reporting hbegins =>
        -- a teardown at its beginning has the worker's thread to claim, but that has been claimed
        subst hbegins
        obtain ⟨u', d, hclosing⟩ := (orderly_of_reach (hv.step t h)).closing
        obtain ⟨rfl, rfl⟩ := hclosing.sole.eq_of_mem hd'
        have hjoinable := (hclosing.rested _ rfl).unclaimed rfl rfl
        exact (hclosing.kept.joinable hjoinable).1 hcleared
  · rw [hhistory, passed_append_of_ne fun event hevent => by rw [hlandmark event hevent]; nofun]
    exact hforsaken.unqueued

/-- Whether the worker looks for an entry, or waits for one, and has none in hand, while nobody is
left to queue one. -/
structure Looking (v : View κ V E ν) (p : Channel.Pop (Entry κ V E)) : Prop where
  forsaken : Forsaken v
  staff : Staff (some (.popping p)) v
  duty : OnDuty (some (.popping p)) v
  held : p.held = none

/-- **Looking, one step.** The worker goes on looking. -/
theorem looking_of_step {p : Channel.Pop (Entry κ V E)}
    (hv : Scene.Reach (library plan) opening v) (h : Scene.Step (library plan) t v v')
    (hlooking : Looking v p) : ∃ p', Looking v' p' := by
  have hforsaken := forsaken_of_step hv h hlooking.forsaken
  obtain ⟨w', hstaff, hworker⟩ := workerMoved_of_moved (moved_of_reach hv h) hlooking.staff
  have hduty := onDuty_of_moved hworker hlooking.duty
  cases hworker with
  | stood _ _ _ _ _ | resumed _ _ _ _ _ => exact ⟨p, hforsaken, hstaff, hduty, hlooking.held⟩
  | turned _ _ hturn _ _ =>
      have hnone := hlooking.forsaken.pending_eq_nil (orderly_of_reach hv)
      obtain ⟨p', hnext, hheld⟩ :=
        Work.looks_of_turn hturn (hlooking.duty.sound _ rfl) hlooking.held hnone
      rw [hnext] at hstaff hduty
      exact ⟨p', hforsaken, hstaff, hduty, hheld⟩

end Scenes

/-! ### Runs -/

section Runs

variable {next : κ → Move κ ω (Request κ V E) Answer (Except E V) ν} {world : ω} {codes : List κ}
  {s s' : State κ ω (Pipeline κ V E) (Call κ V E) Answer (Event V E ν)}

/-- Whether the worker looks for an entry, or waits for one, and has none in hand. -/
def LooksForEntry (s : State κ ω (Pipeline κ V E) (Call κ V E) Answer (Event V E ν)) : Prop :=
  ∃ p, s.stack workerThread = [.call (.work (.popping p))] ∧ p.held = none

/-- What holds in a state once a teardown has ended in the fault of a destructor. -/
structure Stranded (plan : Plan κ) (next : κ → Move κ ω (Request κ V E) Answer (Except E V) ν)
    (s : State κ ω (Pipeline κ V E) (Call κ V E) Answer (Event V E ν)) : Prop where
  /-- Nothing is pending, -/
  pending : s.shared.pending.value = []
  /-- the entry that ends the worker has not been queued, -/
  unqueued : ¬ Passed .queued s.history
  /-- and the worker has not left. -/
  here : s.shared.health ≠ .exited
  /-- When it looks for an entry and has none in hand, it does so for ever. -/
  looks : s.aborted = false → LooksForEntry s → ∀ s', (machine plan next).Reach s s' →
    s'.shared.health = .alive ∧ (s'.aborted = false → LooksForEntry s')

/-- A worker that looks for an entry where nobody is left to queue one does so for ever. -/
theorem Forsaken.looks_since {v : View κ V E ν} (hforsaken : Forsaken v)
    (hv : Scene.Reach (library plan) opening v) (hshows : Machine.Shows (library plan) v s)
    (hlive : s.aborted = false) (hlooks : LooksForEntry s) (h' : (machine plan next).Reach s s') :
    s'.shared.health = .alive ∧ (s'.aborted = false → LooksForEntry s') := by
  obtain ⟨p, hstack, hheld⟩ := hlooks
  obtain ⟨w, hstaff, hduty⟩ := onDuty_of_reach hv
  have hall : (v.calls workerThread).all = [.work (.popping p)] := by
    rw [hshows.calls_eq hlive, hstack]
    rfl
  obtain ⟨-, rfl, -⟩ := hstaff.eq_nil_of_work hall
  obtain ⟨v', hv', hshows', p', hlooking⟩ :=
    (machine_fits plan next).exists_shows (P := fun v => ∃ p, Looking v p) hshows
      ⟨p, hforsaken, hstaff, hduty, hheld⟩
      (fun _ _ _ _ hreach ⟨_, hlooking⟩ hstep => looking_of_step (hv.trans hreach) hstep hlooking)
      h'
  refine ⟨?_, fun hlive' => ⟨p', ?_, hlooking.held⟩⟩
  · rw [← hshows'.shared_eq]
    by_contra hended
    exact absurd (hlooking.staff.tally.health.mpr hended) nofun
  · exact stack_of_worker hshows' hlive' hlooking.staff
      (hlooking.duty.inCode_eq_false hlooking.staff rfl)

/-- Where nobody is left to queue the entry that ends the worker, the worker is stranded. -/
theorem Forsaken.stranded {v : View κ V E ν} (hforsaken : Forsaken v)
    (hv : Scene.Reach (library plan) opening v) (hshows : Machine.Shows (library plan) v s) :
    Stranded plan next s := by
  obtain ⟨w, -, hstaying⟩ := staying_of_reach hv
  have hpending := hforsaken.pending_eq_nil (orderly_of_reach hv)
  have hhere := hstaying.here hforsaken.unqueued
  have hunqueued := hforsaken.unqueued
  rw [hshows.shared_eq] at hpending hhere
  rw [hshows.history_eq] at hunqueued
  exact ⟨hpending, hunqueued, hhere, fun hlive hlooks s' h' =>
    hforsaken.looks_since hv hshows hlive hlooks h'⟩

/-- What a teardown does whose last destructor has run and one of whose destructors has failed: it
ends in that fault, and in nothing else. -/
theorem turn_of_fault {d : Teardown κ V E} {n : Nat} {fault : Fault}
    (hstage : d.stage = .clearing (.finalizing n [] (some fault))) (shared : Pipeline κ V E) :
    turn plan t choice shared (.teardown d) =
      some (shared, ([] : List (Event V E ν)), .fail fault) := by
  rw [turn, Teardown.turn, hstage]
  rfl

/-- A teardown that ends in the fault of a destructor leaves nobody to queue the entry that ends the
worker. -/
theorem forsaken_of_fault {d : Teardown κ V E} {n : Nat} {fault : Fault}
    {frames : Stack κ (Call κ V E) Answer} (h : (machine plan next).Reach (start world codes) s)
    (hstack : s.stack t = .call (.teardown d) :: frames)
    (hstage : d.stage = .clearing (.finalizing n [] (some fault)))
    (hstep : (machine plan next).step t choice s = some s') :
    ∃ v, Scene.Reach (library plan) opening v ∧ Machine.Shows (library plan) v s' ∧
      Forsaken v := by
  obtain ⟨v, hv, hshows⟩ := exists_shows h
  have hmem := mem_tearing hshows (Machine.stepped_of_step hstep).1 hstack
  obtain ⟨u, x, hclosing⟩ := (orderly_of_reach hv).closing
  obtain ⟨rfl, rfl⟩ := hclosing.sole.eq_of_mem hmem
  obtain ⟨hcalls, shared, events, r, hturn, -, -, hshows'⟩ :=
    hshows.turned (machine_fits plan next) hstack hstep
  have hends : turn plan t choice v.shared (.teardown d) =
      some (v.shared, ([] : List (Event V E ν)), .fail fault) := turn_of_fault hstage _
  cases hturn.symm.trans hends
  have hall : (v.calls t).all = .teardown d :: frames.filterMap Frame.call? := by
    rw [hcalls]
    rfl
  obtain ⟨-, -, hbelow⟩ := hclosing.sole.eq_of_active hall rfl
  refine ⟨_, hv.step t (.turned hcalls hturn), hshows', ?_, ?_, ?_⟩
  · have hnone : Sole Part.tearing? t none
        (Function.update v.calls t ⟨none, frames.filterMap Frame.call?⟩) :=
      hclosing.sole.of_update hbelow
    exact fun u => (hnone u).trans (ite_self _)
  · refine ((done_of_reach hv t d hmem).passed .cleared ?_).later _
    rw [Teardown.passed, Teardown.rests, hstage]
    exact .tail _ (.head _)
  · rw [List.map_nil, List.append_nil]
    exact (hclosing.promise d rfl).stops (by rw [hstage]; rfl)

/-- **Torn down halfway.** In every run, once a teardown has ended in the fault of the destructor of
a job that it has discarded, nothing is pending, the entry that ends the worker has not been queued
and the worker has not left; and when the worker then looks for an entry, and has none in hand, it
does so for ever. -/
theorem stranded_since {d : Teardown κ V E} {n : Nat} {fault : Fault}
    {frames : Stack κ (Call κ V E) Answer}
    {s₁ : State κ ω (Pipeline κ V E) (Call κ V E) Answer (Event V E ν)}
    (h : (machine plan next).Reach (start world codes) s)
    (hstack : s.stack t = .call (.teardown d) :: frames)
    (hstage : d.stage = .clearing (.finalizing n [] (some fault)))
    (hstep : (machine plan next).step t choice s = some s₁) (h' : (machine plan next).Reach s₁ s') :
    Stranded plan next s' := by
  obtain ⟨v, hv, hshows, hforsaken⟩ := forsaken_of_fault h hstack hstage hstep
  obtain ⟨v', hv', hshows', hforsaken'⟩ :=
    (machine_fits plan next).exists_shows (P := Forsaken) hshows hforsaken
      (fun _ _ _ _ hreach hforsaken hstep => forsaken_of_step (hv.trans hreach) hstep hforsaken)
      h'
  exact hforsaken'.stranded (hv.trans hv') hshows'

/-- Whether a teardown on thread `t` comes back with `answer` in a step from `s` to `s₁` and the
worker is alive for ever from the later state `s₂` on. -/
structure LeavesAlive (plan : Plan κ) (next : κ → Move κ ω (Request κ V E) Answer (Except E V) ν)
    (t : Tid) (answer : Except Fault Answer)
    (s s₁ s₂ : State κ ω (Pipeline κ V E) (Call κ V E) Answer (Event V E ν)) : Prop where
  answers : ∃ d frames, s.stack t = .call (.teardown d) :: frames ∧
    s₁.stack t = Machine.finishCall answer frames
  comesBack : ∃ choice, (machine plan next).step t choice s = some s₁
  later : (machine plan next).Reach s₁ s₂
  alive : ∀ s', (machine plan next).Reach s₂ s' → s'.shared.health = .alive

/-- **The worker is left alive** by a teardown that ends in the fault of a destructor, once it looks
for an entry and has none in hand. -/
theorem leavesAlive_of_fault {d : Teardown κ V E} {n : Nat} {fault : Fault}
    {frames : Stack κ (Call κ V E) Answer}
    {s₁ s₂ : State κ ω (Pipeline κ V E) (Call κ V E) Answer (Event V E ν)}
    (h : (machine plan next).Reach (start world codes) s)
    (hstack : s.stack t = .call (.teardown d) :: frames)
    (hstage : d.stage = .clearing (.finalizing n [] (some fault)))
    (hstep : (machine plan next).step t choice s = some s₁)
    (hlater : (machine plan next).Reach s₁ s₂) (hlive : s₂.aborted = false)
    (hlooks : LooksForEntry s₂) : LeavesAlive plan next t (.error fault) s s₁ s₂ where
  answers := by
    obtain ⟨shared, events, r, hturn, -, -, hafter⟩ := Machine.turn_of_step hstack hstep
    have hends : turn plan t choice s.shared (.teardown d) =
        some (s.shared, ([] : List (Event V E ν)), .fail fault) := turn_of_fault hstage _
    cases hturn.symm.trans hends
    exact ⟨d, frames, hstack, hafter⟩
  comesBack := ⟨choice, hstep⟩
  later := hlater
  alive s' h' := ((stranded_since h hstack hstage hstep hlater).looks hlive hlooks s' h').1

end Runs

end Offload.Pipeline
