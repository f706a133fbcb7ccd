import Offload.Proofs.Alone
import Offload.Proofs.Pipeline.Conservation
import Offload.Proofs.Pipeline.Cycle

/-!
# What an idle pipeline can hide

A pipeline **looks idle** when nothing is pending, the worker is not marked busy, and no result
waits. Each of these is read by itself, and a task goes from the one to the other in several steps.
While it is pending, while its body runs, and while its result waits, one of them shows it. But the
worker takes a task out of the pending channel before it marks itself busy: in between, the pipeline
looks idle and has an accepted task in hand. This is all that it can hide, apart from a task that a
fault has lost; and it lasts for two steps of the worker's own, in which the worker waits for
nothing. So whoever looks when the worker has gone on as far as it can is not misled.

## Main results

* `accepted_of_idle`: what has been accepted when a pipeline looks idle.
* `received_of_idle`: it is idle if its worker cannot go on.
* `comes_busy`: a worker with a task in hand comes to be marked busy.
* `idle_justTaken`: a pipeline that looks idle, with an accepted task that has not been received.
-/

namespace Offload.Pipeline

variable {κ ω V E ν : Type} {plan : Plan κ}
  {next : κ → Move κ ω (Request κ V E) Answer (Except E V) ν} {world : ω} {codes : List κ}
  {s : State κ ω (Pipeline κ V E) (Call κ V E) Answer (Event V E ν)}

/-- Whether nothing is pending, the worker is not marked busy, and no result waits. -/
structure LooksIdle (s : Pipeline κ V E) : Prop where
  pending : s.pending.value = []
  busy : s.busy = false
  finished : s.finished.value = []

/-- Whether the worker has taken a task and has not marked itself busy. -/
def Work.hides : Work κ V E → Bool
  | .popping p => (p.held.bind Entry.ticket?).isSome
  | .entering _ _ => true
  | .starting _ _ | .running _ _ | .returning _ | .publishing _ | .resting | .leaving | .failing _
  | .dying _ => false

/-- A worker that is not marked busy has nothing in hand, or hides it, and nothing else. -/
theorem Work.of_not_busy {w : Work κ V E} (h : w.isBusy = false) :
    w.unreturned = [] ∧ w.unpublished = [] ∧ (w.hides = true ↔ w.hand ≠ []) := by
  cases w with
  | popping p =>
      refine ⟨rfl, rfl, ?_⟩
      rw [hides, hand]
      cases p.held.bind Entry.ticket? <;> simp
  | entering _ _ => simp [unreturned, unpublished, hides, hand]
  | leaving | dying _ => simp [unreturned, unpublished, hides, hand]
  | starting _ _ | running _ _ | returning _ | publishing _ | resting | failing _ => cases h

/-- **What an idle pipeline can hide.** In every run, at every moment at which a pipeline looks idle,
whose pending channel has not been cleared, and whose worker no fault has struck: what has been
accepted is what has been received for delivery, and the task that the worker has in hand, if any. It
has one exactly if it has taken it and has not marked itself busy. -/
theorem accepted_of_idle (h : (machine plan next).Reach (start world codes) s)
    (hlive : s.aborted = false) (hkept : ¬ Passed .cleared s.history)
    (hwell : ¬ Failed (worker s) s.shared) (hidle : LooksIdle s.shared) :
    reached .accepted s.history =
        reached .received s.history ++ (worker s).elim [] Work.hand ∧
      (reached .accepted s.history = reached .received s.history ↔
        ∀ w, worker s = some w → w.hides = false) := by
  obtain ⟨v, hreach, hshows⟩ := exists_shows h
  obtain ⟨-, ⟨u, d, hclosing⟩, hledger, -⟩ := orderly_of_reach hreach
  obtain ⟨w, hstaff, hduty⟩ := onDuty_of_reach hreach
  obtain rfl := worker_eq hshows hlive hstaff
  have haccepted := (accepted_eq hledger hclosing.kept hstaff).1 (hshows.history_eq ▸ hkept)
  obtain ⟨lost, hbegun, -, hfailed⟩ := hstaff.tally.begun
  have hreturned := hstaff.tally.returned
  have hpublished := hledger.finished
  have hbusy := hduty.busy
  rw [hshows.shared_eq] at haccepted hfailed hpublished hbusy
  rw [hshows.history_eq] at haccepted hbegun hreturned hpublished
  have hnothing : (worker s).elim [] Work.unreturned = [] ∧
      (worker s).elim [] Work.unpublished = [] ∧
      (∀ w, worker s = some w → (w.hides = true ↔ w.hand ≠ [])) := by
    rw [hidle.busy] at hbusy
    cases hworker : worker s with
    | none => exact ⟨rfl, rfl, nofun⟩
    | some w =>
        rw [hworker] at hbusy
        obtain ⟨hunreturned, hunpublished, hhides⟩ := Work.of_not_busy hbusy.symm
        refine ⟨hunreturned, hunpublished, ?_⟩
        rintro _ ⟨⟩
        exact hhides
  obtain rfl : lost = [] := by
    by_contra hne
    exact hwell (hfailed hne)
  obtain ⟨hunreturned, hunpublished, hhides⟩ := hnothing
  have hall : reached .accepted s.history =
      reached .received s.history ++ (worker s).elim [] Work.hand := by
    rw [haccepted, hidle.pending, hbegun, hunreturned, hreturned, hunpublished, hpublished,
      hidle.finished]
    simp [ticketsOf]
  refine ⟨hall, ?_⟩
  rw [hall, List.append_right_eq_self]
  cases hworker : worker s with
  | none => simp
  | some w =>
      have hiff := hhides w hworker
      cases hhide : w.hides with
      | false => simpa [hhide] using hiff
      | true => simpa [hhide] using hiff

/-- **What a settled pipeline shows.** When the worker cannot go on, a pipeline that looks idle is
idle: all that has been accepted has been received. -/
theorem received_of_idle (h : (machine plan next).Reach (start world codes) s)
    (hlive : s.aborted = false) (hkept : ¬ Passed .cleared s.history)
    (hwell : ¬ Failed (worker s) s.shared) (hidle : LooksIdle s.shared) {choice : Choice}
    (hsettled : (machine plan next).step workerThread choice s = none) :
    reached .accepted s.history = reached .received s.history := by
  have hhand : (worker s).elim [] Work.hand = [] := by
    by_contra hne
    have hgoes := isSome_step_of_hand h hlive hne choice
    rw [hsettled] at hgoes
    cases hgoes
  rw [(accepted_of_idle h hlive hkept hwell hidle).1, hhand, List.append_nil]

/-- **What it hides shows soon.** A worker with a task in hand comes to be marked busy by its own
steps, whatever the scheduler chooses. -/
theorem comes_busy {w : Work κ V E} (hlive : s.aborted = false)
    (hstack : s.stack workerThread = [.call (.work w)]) (hhides : w.hides = true) :
    (machine plan next).Comes workerThread (fun s' => s'.shared.busy = true ∧
      ∃ ticket task, w.hand = [ticket] ∧
        s'.stack workerThread = [.call (.work (.starting ticket task))]) s := by
  have ht : workerThread < s.threads.length :=
    State.lt_of_stack_ne_nil (hstack ▸ List.cons_ne_nil _ _)
  refine .of_going ht ?_
  rw [hstack]
  have henters : ∀ shared ticket task, w.hand = [ticket] →
      (machine plan next).Comes workerThread (fun s' => s'.shared.busy = true ∧
        ∃ ticket task, w.hand = [ticket] ∧
          s'.stack workerThread = [.call (.work (.starting ticket task))])
        (s.going workerThread shared s.world [.call (.work (.entering ticket task))] []) := by
    intro shared ticket task hhand
    refine .turn (r := .stay (.work (.starting ticket task))) hlive ht (fun _ => rfl)
      (Turn.stay_ne_abort _) (.here ⟨rfl, ticket, task, hhand, State.going_stack ht⟩)
  cases w with
  | entering ticket task => exact henters s.shared ticket task rfl
  | popping p =>
      obtain ⟨entry, hheld⟩ : ∃ entry, p.held = some entry := by
        cases hheld : p.held with
        | none => simp [Work.hides, hheld] at hhides
        | some entry => exact ⟨entry, rfl⟩
      cases entry with
      | stop => simp [Work.hides, hheld, Entry.ticket?] at hhides
      | run ticket task =>
          have hhand : (Work.popping p : Work κ V E).hand = [ticket] := by
            simp [Work.hand, hheld, Entry.ticket?]
          refine .turn (r := .stay (.work (.entering ticket task))) hlive ht (fun choice => ?_)
            (Turn.stay_ne_abort _)
            (henters { s.shared with pending := s.shared.pending.release } ticket task hhand)
          change ((p.turn workerThread choice s.shared.pending).map _).map _ = _
          rw [Channel.Pop.turn_of_held hheld]
          rfl
  | starting _ _ | running _ _ | returning _ | publishing _ | resting | leaving | failing _
  | dying _ => cases hhides

/-! ### A run in which an idle pipeline hides a task -/

/-- The state in which the worker has taken the only task and has not marked itself busy. -/
def justTaken : Wished :=
  wishing.settle [(0, .go 0)] 4 (wishing.settle [(1, .go 0)] 14 (start () [scheduleOnce]))

theorem reach_justTaken : wishing.Reach (start () [scheduleOnce]) justTaken :=
  Machine.reach_settle _ _ (Machine.reach_settle _ _ .start)

/-- **Looking idle is not being idle.** The pipeline looks idle, its pending channel has not been
cleared, its worker is well, and the task that has been accepted has not been received. -/
theorem idle_justTaken :
    LooksIdle justTaken.shared ∧ ¬ Passed .cleared justTaken.history ∧
      justTaken.shared.health = .alive ∧ reached .accepted justTaken.history = [0] ∧
      reached .received justTaken.history = [] ∧
      ¬ ∀ w, worker justTaken = some w → w.hides = false := by
  have hidle : LooksIdle justTaken.shared := ⟨rfl, rfl, rfl⟩
  have hkept : ¬ Passed .cleared justTaken.history := passes_eq_zero.mp (by decide +kernel)
  obtain ⟨-, hiff⟩ := accepted_of_idle reach_justTaken rfl hkept nofun hidle
  have haccepted : reached .accepted justTaken.history = [0] := rfl
  have hreceived : reached .received justTaken.history = [] := rfl
  refine ⟨hidle, hkept, rfl, haccepted, hreceived, fun hnone => ?_⟩
  cases haccepted.symm.trans ((hiff.mpr hnone).trans hreceived)

end Offload.Pipeline
