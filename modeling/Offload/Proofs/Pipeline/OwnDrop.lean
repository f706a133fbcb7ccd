import Offload.Proofs.Pipeline.Refusals
import Offload.Proofs.Pipeline.Retiring
import Offload.Proofs.Pipeline.Stranded

/-!
# A pipeline that is given up on its own worker

A body, or the hook, may take the pipeline from its owner and tear it down, on the worker's own
thread and in the middle of the very cycle that the teardown ends. The teardown does not wait for
the worker then. It closes the intake, discards what is pending and leaves the entry that ends the
worker, which finishes its cycle, takes that entry and ends. It does not end if its body or the hook
does not, nor if the teardown leaves no such entry, since a destructor has failed before.

## Main results

* `finishing_since`: where the worker is in its last cycle, at every later moment.
* `own_drop`: what follows when the pipeline is given up on its own worker.
* `own_drop_unended`: runs in which the worker does not end after that.
-/

namespace Offload.Pipeline

variable {κ ω V E ν : Type} {plan : Plan κ} {t : Tid} {choice : Choice}

section Runs

variable {next : κ → Move κ ω (Request κ V E) Answer (Except E V) ν} {world : ω} {codes : List κ}
  {s s' : State κ ω (Pipeline κ V E) (Call κ V E) Answer (Event V E ν)}
  {frames : Stack κ (Call κ V E) Answer} {d : Teardown κ V E}
  {ends : List (Except Fault (Except E V))}

/-- Who makes a teardown has taken the pipeline from its owner. -/
theorem owned_of_teardown (h : (machine plan next).Reach (start world codes) s)
    (hlive : s.aborted = false) (hstack : s.stack t = .call (.teardown d) :: frames) :
    s.shared.owned = false := by
  obtain ⟨v, hv, hshows⟩ := exists_shows h
  obtain ⟨u, x, hclosing⟩ := (orderly_of_reach hv).closing
  obtain ⟨-, rfl⟩ := hclosing.sole.eq_of_mem (mem_tearing hshows hlive hstack)
  rw [← hshows.shared_eq]
  cases howned : v.shared.owned with
  | false => rfl
  | true => cases (hclosing.owned howned).1

/-- When a teardown is the topmost layer of its thread, the worker waits for code and is at the
beginning of the rest of its cycle. -/
theorem exists_finishing (h : (machine plan next).Reach (start world codes) s)
    (hlive : s.aborted = false) (hstack : s.stack workerThread = .call (.teardown d) :: frames) :
    ∃ v w, Scene.Reach (library plan) opening v ∧ Machine.Shows (library plan) v s ∧
      Finishing plan v w [] (some w) v ∧ w.runsCode = true ∧ inCode v = true := by
  obtain ⟨v, hv, hshows⟩ := exists_shows h
  have hcalls := hshows.calls_eq hlive workerThread
  rw [hstack, callsOf_call] at hcalls
  obtain ⟨w, hstaff, hduty⟩ := onDuty_of_reach hv
  obtain ⟨w, rfl, hincode⟩ := hstaff.inCode_of_active (by rw [hcalls]) rfl
  have hwaits : w ∈ picks Part.working? (v.calls workerThread).waiting := by
    rw [hstaff.picks_eq.2, hincode]
    exact List.mem_singleton_self w
  refine ⟨v, w, hv, hshows, ⟨hstaff, hduty, hstaff.waiting w hwaits, rfl, [],
    (List.append_nil _).symm, fun more => ⟨?_, rfl⟩⟩, hduty.waiting w hwaits, hincode⟩
  rw [hincode]
  rfl

/-- By the time at which the worker pops again, the pending channel has been cleared. -/
theorem cleared_of_popping (h : (machine plan next).Reach (start world codes) s)
    (hstack : s.stack workerThread = .call (.teardown d) :: frames)
    (h' : (machine plan next).Reach s s') (hlive : s'.aborted = false) {w : Work κ V E}
    (hworker : s'.stack workerThread = [.call (.work w)]) : Passed .cleared s'.history := by
  rcases parted_since h hstack h' hlive with ⟨s₁, choice, s₂, -, -, hfrom, hparted⟩ | hon
  · cases hparted with
    | freed hfreed => exact (hfreed.passed .cleared (by decide)).of_reach hfrom
    | failed _ _ _ _ _ _ _ hcleared => exact hcleared.of_reach hfrom
  · cases hon with
    | itself call hcall htears =>
        obtain ⟨d', rfl, -⟩ := htears
        cases hworker.symm.trans hcall
    | within above call hne _ hcall _ =>
        have hlength := congrArg List.length (hworker.symm.trans hcall)
        have hpos := List.length_pos_iff.mpr hne
        simp only [List.length_append, List.length_cons, List.length_nil] at hlength
        omega

/-- **The last cycle.** At every later moment the worker has done the first part of what was left of
its cycle when the teardown was the topmost layer of its thread. -/
theorem finishing_since (h : (machine plan next).Reach (start world codes) s)
    (hlive : s.aborted = false) (hstack : s.stack workerThread = .call (.teardown d) :: frames)
    (h' : (machine plan next).Observed (endings next) s [] s' ends) :
    ∃ v w v' w', Machine.Shows (library plan) v s ∧ Scene.Reach (library plan) opening v ∧
      Staff (some w) v ∧ w.hand = [] ∧ Machine.Shows (library plan) v' s' ∧
      Scene.Reach (library plan) v v' ∧ Finishing plan v w ends w' v' := by
  obtain ⟨v, w, hv, hshows, hfinishing, -, -⟩ := exists_finishing h hlive hstack
  suffices hlater : ∃ v' w', Machine.Shows (library plan) v' s' ∧ Scene.Reach (library plan) v v' ∧
      Finishing plan v w ends w' v' by
    obtain ⟨v', w', hshows', hv', hfinishing'⟩ := hlater
    exact ⟨v, w, v', w', hshows, hv, hfinishing.staff, hfinishing.hand, hshows', hv', hfinishing'⟩
  have howned := owned_of_teardown h hlive hstack
  refine h'.invariant (P := fun s' ends => ∃ v' w', Machine.Shows (library plan) v' s' ∧
    Scene.Reach (library plan) v v' ∧ Finishing plan v w ends w' v')
    ⟨v, some w, hshows, .start, hfinishing⟩ ?_
  rintro t choice s₁ s₂ ends h₁ ⟨v₁, w₁, hshows₁, hv₁, hfinishing₁⟩ hstep
  have hreach := hv.trans hv₁
  have hlive₁ := (Machine.stepped_of_step hstep).1
  have howned₁ : v₁.shared.owned = false := by
    rw [hshows₁.shared_eq]
    cases howned₁ : s₁.shared.owned with
    | false => rfl
    | true => exact (owned_of_reach h h₁ howned₁).symm.trans howned
  have hdry : ∀ p, w₁ = some (.popping p) → Passed .cleared v₁.history := by
    rintro p rfl
    rw [hshows₁.history_eq]
    exact cleared_of_popping h hstack h₁ hlive₁ (stack_of_worker hshows₁ hlive₁
      hfinishing₁.staff (hfinishing₁.duty.inCode_eq_false hfinishing₁.staff rfl))
  obtain ⟨v₂, w₂, hmoves, hshows₂, hfinishing₂⟩ :=
    hfinishing₁.step hreach howned₁ hdry hshows₁ hstep
  refine ⟨v₂, w₂, hshows₂, ?_, hfinishing₂⟩
  rcases hmoves with rfl | hmoves
  · exact hv₁
  · exact hv₁.step t hmoves

/-- A teardown on its thread that has come back with success has set the worker on its way out. -/
theorem retiring_of_freed (h : (machine plan next).Reach (start world codes) s)
    (hstep : (machine plan next).step workerThread choice s = some s')
    (hfreed : Freed frames s s') :
    ∃ v w, Machine.Shows (library plan) v s' ∧ Retiring plan 13 w v := by
  obtain ⟨d, hstack⟩ := hfreed.called
  have hlive := (Machine.stepped_of_step hstep).1
  obtain ⟨v, w, hv, hshows, hfinishing, hcode, hincode⟩ := exists_finishing h hlive hstack
  have hactive : (v.calls workerThread).active = some (.teardown d) := by
    rw [hshows.calls_eq hlive, hstack]
    rfl
  obtain ⟨v', hmoves, hshows'⟩ := hshows.exists_step (machine_fits plan next) hstep
  have hafter : Scene.Reach (library plan) opening v' ∧ Staff (some w) v' ∧ OnDuty (some w) v' ∧
      inCode v' = true := by
    rcases hmoves with rfl | hmoves
    · exact ⟨hv, hfinishing.staff, hfinishing.duty, hincode⟩
    · obtain ⟨w', hstaff', hworker⟩ :=
        workerMoved_of_moved (moved_of_reach hv hmoves) hfinishing.staff
      have hduty' := onDuty_of_moved hworker hfinishing.duty
      cases hworker with
      | stood _ _ _ hwaiting _ =>
          refine ⟨hv.step _ hmoves, hstaff', hduty', ?_⟩
          rw [inCode, hwaiting]
          exact hincode
      | resumed _ _ _ hwaits _ | turned _ hwaits _ _ _ =>
          rw [hwaits] at hactive
          cases hactive
  obtain ⟨hreach, hstaff', hduty', hincode'⟩ := hafter
  refine ⟨v', some w, hshows', hreach, hstaff', hduty', ?_, ?_, ?_, ?_⟩
  · rw [hshows'.history_eq]
    exact hfreed.passed _ (by decide)
  · rw [hshows'.history_eq]
    exact hfreed.passed _ (by decide)
  · rintro w' ⟨⟩
    rw [hincode', hshows'.shared_eq, hfreed.last]
    exact Work.retires_of_runsCode hcode
  · rw [hincode']
    exact w.exitToGo_le

/-- To give the pipeline up once more on the worker's thread changes nothing and notes nothing. -/
theorem idle_of_teardown (h : (machine plan next).Reach (start world codes) s)
    (hstack : s.stack workerThread = .call (.teardown d) :: frames) (hrests : d.rests = true)
    (hstep : (machine plan next).step workerThread choice s = some s') :
    s'.shared = s.shared ∧ s'.history = s.history := by
  obtain ⟨v, hv, hshows⟩ := exists_shows h
  obtain ⟨shared, events, r, hturn, hshared, hhistory, -⟩ := Machine.turn_of_step hstack hstep
  obtain ⟨r', hturn', -⟩ := exists_of_nest hturn
  have hmem := mem_tearing hshows (Machine.stepped_of_step hstep).1 hstack
  have hpassed := (done_of_reach hv workerThread d hmem).passed .cleared
    (Teardown.mem_passed_of_rests hrests (by decide))
  obtain ⟨u, x, hclosing⟩ := (orderly_of_reach hv).closing
  have hclaimed : s.shared.joinable = false := by
    rw [← hshows.shared_eq]
    exact Bool.eq_false_iff.mpr fun hjoinable => (hclosing.kept.joinable hjoinable).1 hpassed
  obtain ⟨rfl, rfl⟩ := Teardown.idle_of_rests hturn'
    (told_of_reach hv workerThread d hmem).plain hrests hclaimed
  exact ⟨hshared, by rw [hhistory]; exact List.append_nil _⟩

/-- To ask for a pipeline that has no owner changes nothing and notes nothing. -/
theorem gone_of_taking (hlive : s.aborted = false) (howned : s.shared.owned = false)
    {reporting : Bool} (hstack : s.stack t = .call (.taking reporting) :: frames)
    (choice : Choice) :
    ∃ s', (machine plan next).step t choice s = some s' ∧
      s'.stack t = Machine.finishCall (.ok .gone) frames ∧ s'.shared = s.shared ∧
      s'.history = s.history := by
  have hturns : turn plan t choice s.shared (.taking reporting) =
      some (s.shared, ([] : List (Event V E ν)), .ret .gone) := by
    rw [turn, howned]
    rfl
  obtain ⟨s', hstep⟩ := Option.isSome_iff_exists.mp
    ((Machine.isSome_step_call (m := machine plan next) hlive hstack choice).trans
      (congrArg Option.isSome hturns))
  obtain ⟨shared, events, r, hturn, hshared, hhistory, hafter⟩ := Machine.turn_of_step hstack hstep
  cases hturn.symm.trans hturns
  exact ⟨s', hstep, hafter, hshared, by rw [hhistory]; exact List.append_nil _⟩

/-- What is pending when the pipeline has just been taken is discarded, and what is accepted after
that and before the pending channel is cleared. -/
theorem discarded_of_finishing {v v' : View κ V E ν} {w : Work κ V E} {w' : Option (Work κ V E)}
    {reporting : Bool} (hv : Scene.Reach (library plan) opening v)
    (htearing : { reporting := reporting } ∈ picks Part.tearing? (v.calls t).all)
    (hstaff : Staff (some w) v) (hhand : w.hand = []) (hv' : Scene.Reach (library plan) v v')
    (hfinishing : Finishing plan v w ends w' v') (hcleared : Passed .cleared v'.history) :
    ticketsOf v'.shared.pending.value = [] ∧ ∃ late,
      reached .accepted v'.history = reached .accepted v.history ++ late ∧
      reached .discarded v'.history = ticketsOf v.shared.pending.value ++ late := by
  have horder := orderly_of_reach hv
  have horder' := orderly_of_reach (hv.trans hv')
  obtain ⟨u, x, hclosing⟩ := horder.closing
  obtain ⟨u', x', hclosing'⟩ := horder'.closing
  obtain ⟨-, rfl⟩ := hclosing.sole.eq_of_mem htearing
  have hbefore := (accepted_eq horder.ledger hclosing.kept hstaff).1
    (hclosing.kept.joinable ((hclosing.rested _ rfl).unclaimed rfl rfl)).1
  obtain ⟨hnone, hafter⟩ :=
    (accepted_eq horder'.ledger hclosing'.kept hfinishing.staff).2 hcleared
  rw [show (some w).elim [] Work.hand = [] from hhand, List.append_nil] at hbefore
  rw [hfinishing.hand, List.append_nil, hfinishing.begun] at hafter
  obtain ⟨later, hlater⟩ := hv'.exists_later
  have haccepted := reached_later .accepted v.history later
  rw [← hlater] at haccepted
  refine ⟨hnone, reached .accepted later, haccepted, ?_⟩
  rw [hafter, hbefore, List.append_assoc] at haccepted
  exact List.append_cancel_left haccepted

/-- What holds in a later state `s'` where in the state `s` the teardown `d` is the topmost layer of
the worker's thread, above `frames`, and the worker waits for code as `w`, and where its code has
ended as `ends` says since. -/
structure AfterOwnDrop (plan : Plan κ)
    (next : κ → Move κ ω (Request κ V E) Answer (Except E V) ν) (w : Work κ V E)
    (d : Teardown κ V E) (frames : Stack κ (Call κ V E) Answer)
    (s s' : State κ ω (Pipeline κ V E) (Call κ V E) Answer (Event V E ν))
    (ends : List (Except Fault (Except E V))) : Prop where
  /-- The teardown has come back, or it is on its way and no further from its end. -/
  returns : s'.aborted = false →
    (∃ s₁ choice s₂, (machine plan next).Reach s s₁ ∧
        (machine plan next).step workerThread choice s₁ = some s₂ ∧
        (machine plan next).Reach s₂ s' ∧ Parted frames s₁ s₂) ∨
      Machine.Pursues workerThread frames (Call.TearsDown d.toGo) s'
  /-- On its way it can make its next step, or waits for a lock that another thread owns. -/
  moves : ∀ d' frames', s'.stack workerThread = .call (.teardown d') :: frames' →
    s'.aborted = false →
    (∀ choice, ((machine plan next).step workerThread choice s').isSome = true) ∨
      ∃ u, u ≠ workerThread ∧ locks.WaitsOn (machine plan next) s' workerThread u
  /-- Each of its steps takes it nearer to its end. -/
  nearer : ∀ d' frames' choice s₁, s'.stack workerThread = .call (.teardown d') :: frames' →
    (machine plan next).step workerThread choice s' = some s₁ → s₁.aborted = false →
    Parted frames' s' s₁ ∨ ∃ bound < d'.toGo,
      Machine.Pursues workerThread frames' (Call.TearsDown bound) s₁
  /-- When it is given up once more, that changes nothing and notes nothing, -/
  idle : ∀ d' frames' choice s₁, s'.stack workerThread = .call (.teardown d') :: frames' →
    d'.rests = true → (machine plan next).step workerThread choice s' = some s₁ →
    s₁.shared = s'.shared ∧ s₁.history = s'.history
  /-- nor does it when anyone asks to give it up later on. -/
  gone : ∀ t reporting frames' choice, s'.stack t = .call (.taking reporting) :: frames' →
    s'.aborted = false → ∃ s₁, (machine plan next).step t choice s' = some s₁ ∧
      s₁.stack t = Machine.finishCall (.ok .gone) frames' ∧ s₁.shared = s'.shared ∧
      s₁.history = s'.history
  /-- No body has begun. -/
  begun : reached .begun s'.history = reached .begun s.history
  /-- When the pending channel has been cleared, what was pending has been discarded, and what was
  accepted meanwhile, and no task is pending. -/
  discarded : Passed .cleared s'.history → ticketsOf s'.shared.pending.value = [] ∧
    ∃ late, reached .accepted s'.history = reached .accepted s.history ++ late ∧
      reached .discarded s'.history = ticketsOf s.shared.pending.value ++ late
  /-- When the intake has closed nothing is accepted any more. -/
  refuses : Passed .closed s'.history → TurnsAway plan next s'
  /-- The worker has noted the beginning of its coda, and all of it when it has ended; so it is with
  what it publishes, and what has been published waits. -/
  coda : ∃ later rest unpublished, worked s'.history = worked s.history ++ later ∧
    w.coda plan ends true = later ++ rest ∧
    s.shared.finished.value ++ w.output ends = s'.shared.finished.value ++ unpublished ∧
    (s'.shared.health ≠ .alive → rest = [] ∧ unpublished = [])
  /-- Nothing is delivered. -/
  undelivered : ∃ later : List (Tid × Event V E ν), s'.history = s.history ++ later ∧
    ∀ entry ∈ later, entry.2.source ≠ .delivery
  /-- Once the teardown has come back with success the worker is on its way out. -/
  exits : ∀ s₁ choice s₂ k, (machine plan next).Reach s s₁ →
    (machine plan next).step workerThread choice s₁ = some s₂ → Freed frames s₁ s₂ →
    (machine plan next).Observed workSteps s₂ 0 s' k → GoesOut plan next s' k

/-- **Given up on its own worker.** In every run, at every moment at which the pipeline has been
taken from its owner on the worker's thread, by a body or by the hook, whatever is pending, and
whatever bodies, callbacks, hooks and other code do and however threads interleave, the worker waits
for code, as `w`; and of every later state:

* the teardown has come back, or it can make its next step or waits for a lock that another thread
  owns, and each step takes it nearer to its end; it comes back with success, or with the fault of
  the destructor of a job that it has discarded;
* to give up the pipeline once more, or to ask for that later on, changes nothing;
* no body has begun; and when the pending channel has been cleared, what was pending has been
  discarded;
* when the intake has closed nothing is accepted any more: a scheduling through a handle is refused,
  if its job has a body for the reason that the pipeline has stopped, and a handle that asks is told
  that no task is accepted;
* the worker has noted the beginning of its coda, and all of it when it has ended. Where it runs a
  body and that returns, these are that it has returned, that the result is published and that the
  hook is called; where it runs the hook, nothing of that; and then that it takes the last entry and
  ends, or the fault in which the body or the hook has ended. The result is published with the
  outcome of the body;
* nothing is delivered, so no callback is called;
* once the teardown has come back with success, the worker has thirteen steps of its own to go at
  most: it can make its next step, or it waits for a lock that another thread owns, or for the body
  or the hook that it runs; and after them it has ended. -/
theorem own_drop {reporting : Bool} (h : (machine plan next).Reach (start world codes) s)
    (hlive : s.aborted = false)
    (hstack : s.stack workerThread = .call (.teardown { reporting := reporting }) :: frames) :
    ∃ w, worker s = some w ∧ w.runsCode = true ∧ ∀ s' ends,
      (machine plan next).Observed (endings next) s [] s' ends →
      AfterOwnDrop plan next w { reporting := reporting } frames s s' ends := by
  obtain ⟨v₀, w₀, -, hshows₀, hfinishing₀, hcode, -⟩ := exists_finishing h hlive hstack
  have hworker := worker_eq hshows₀ hlive hfinishing₀.staff
  refine ⟨w₀, hworker, hcode, fun s' ends hobserved => ?_⟩
  obtain ⟨v, w, v', w', hshows, hv, hstaff, hhand, hshows', hv', hfinishing⟩ :=
    finishing_since h hlive hstack hobserved
  have h' := hobserved.reach
  obtain rfl : w = w₀ := Option.some.inj ((worker_eq hshows hlive hstaff).symm.trans hworker)
  have hs' := h.trans h'
  have howned := owned_of_teardown h hlive hstack
  constructor
  case returns => exact parted_since h hstack h'
  case moves => exact fun d' frames' hstack' hlive' => moves_or_waits_of_parting hs' hlive' hstack'
  case nearer =>
    exact fun d' frames' choice s₁ hstack' hstep hlive₁ => of_own_parting hs' hstack' hstep hlive₁
  case idle =>
    exact fun d' frames' choice s₁ hstack' hrests hstep =>
      idle_of_teardown hs' hstack' hrests hstep
  case gone =>
    intro t reporting' frames' choice hstack' hlive'
    refine gone_of_taking hlive' ?_ hstack' choice
    cases howned' : s'.shared.owned with
    | false => rfl
    | true => exact (owned_of_reach h h' howned').symm.trans howned
  case begun =>
    rw [← hshows.history_eq, ← hshows'.history_eq]
    exact hfinishing.begun
  case discarded =>
    rw [← hshows.shared_eq, ← hshows.history_eq, ← hshows'.shared_eq, ← hshows'.history_eq]
    exact discarded_of_finishing hv (mem_tearing hshows hlive hstack) hstaff hhand hv' hfinishing
  case refuses => exact turnsAway_of_passed hs'
  case coda =>
    obtain ⟨later, hlater, hcoda⟩ := hfinishing.coda
    obtain ⟨hwhole, houtput⟩ := hcoda []
    rw [List.append_nil] at hwhole houtput
    rw [← hshows.shared_eq, ← hshows.history_eq, ← hshows'.shared_eq, ← hshows'.history_eq]
    refine ⟨later, _, _, hlater, hwhole, houtput, fun hended => ?_⟩
    obtain ⟨rfl, -⟩ := calls_of_ended hfinishing.staff hended
    exact ⟨rfl, rfl⟩
  case undelivered =>
    rw [← hshows.shared_eq] at howned
    rw [← hshows.history_eq, ← hshows'.history_eq]
    exact undelivered_since hv howned hv'
  case exits =>
    intro s₁ choice s₂ k h₁ hstep hfreed hexiting
    obtain ⟨v₂, w₂, hshows₂, hretiring⟩ := retiring_of_freed (h.trans h₁) hstep hfreed
    obtain ⟨n, v₃, w₃, hle, hshows₃, hretiring₃⟩ := hretiring.later hshows₂ hexiting
    exact hretiring₃.goesOut hshows₃ hs' hle

end Runs

/-! ### A run in which a body gives the pipeline up -/

/-- What the code of the run asks for. -/
inductive Bid where
  /-- Schedules a task, which gives the pipeline up if it `drops`. -/
  | schedule (drops : Bool)
  | drop

/-- The code of the run. -/
abbrev Bidder := Script Bid Answer Unit Unit (Except Unit Unit)

/-- The request that a bid stands for. -/
def Bid.request : Bid → Request Bidder Unit Unit
  | .schedule false => .handing { body := some (.ret (.ok ())) }
  | .schedule true => .handing { body := some (.request .drop fun _ => .ret (.ok ())) }
  | .drop => .taking false

/-- Schedules a task that gives the pipeline up and two tasks after it. -/
def dropperAndTwo : Bidder := do
  Script.all (([true, false, false] : List Bool).map fun drops => do
    let _ ← Script.ask (.schedule drops))
  pure (.ok ())

/-- The states of the run. -/
abbrev Bidden := State Bidder Unit (Pipeline Bidder Unit Unit) (Call Bidder Unit Unit)
  Answer (Event Unit Unit Unit)

/-- The machine of the run. -/
abbrev bidding : Machine Bidder Unit (Pipeline Bidder Unit Unit) (Call Bidder Unit Unit)
    Answer (Except Unit Unit) (Event Unit Unit Unit) :=
  machine {} (Script.next Bid.request)

/-- The state in which the first task gives the pipeline up while the second is pending and the
third is about to be scheduled. -/
def aboutToDrop : Bidden :=
  bidding.settle [(0, .go 0)] 8 (bidding.settle [(1, .go 0)] 21 (start () [dropperAndTwo]))

/-- The state in which everything has come to its end, and how the code of the worker has ended. -/
def afterDrop : Bidden × List (Except Fault (Except Unit Unit)) :=
  bidding.follow (endings (Script.next Bid.request))
    (List.replicate 60 (0, .go 0) ++ List.replicate 20 (1, .go 0)) (aboutToDrop, [])

/-- The task that was pending has been discarded, the first has returned, its result waits, and the
worker has ended. -/
theorem own_drop_dropper :
    ticketsOf aboutToDrop.shared.pending.value = [1] ∧ ∃ w frames,
      worker aboutToDrop = some w ∧
      AfterOwnDrop {} (Script.next Bid.request) w { reporting := false } frames aboutToDrop
        afterDrop.1 afterDrop.2 ∧
      reached .discarded afterDrop.1.history = [1] ∧ afterDrop.2 = [.ok (.ok ())] ∧
      afterDrop.1.shared.finished.value.map Finished.ticket = [0] ∧
      afterDrop.1.shared.health = .exited := by
  have hdropping : bidding.Reach (start () [dropperAndTwo]) aboutToDrop :=
    Machine.reach_settle _ _ (Machine.reach_settle _ _ .start)
  have hover : bidding.Observed (endings (Script.next Bid.request)) aboutToDrop [] afterDrop.1
      afterDrop.2 := Machine.observed_follow _ _ _ .start
  have hstack : aboutToDrop.stack workerThread =
      .call (.teardown { reporting := false }) :: (aboutToDrop.stack workerThread).tail := rfl
  obtain ⟨w, hworker, -, hafter⟩ := own_drop hdropping rfl hstack
  have hcleared : Passed .cleared afterDrop.1.history :=
    by_contra fun h => absurd (passes_eq_zero.mpr h) (by decide +kernel)
  have hpending : ticketsOf aboutToDrop.shared.pending.value = [1] := by decide +kernel
  have hsame : reached .accepted afterDrop.1.history = reached .accepted aboutToDrop.history := by
    decide +kernel
  obtain ⟨-, late, haccepted, hdiscarded⟩ := (hafter _ _ hover).discarded hcleared
  rw [hsame, List.self_eq_append_right] at haccepted
  rw [hpending, haccepted, List.append_nil] at hdiscarded
  exact ⟨hpending, w, _, hworker, hafter _ _ hover, hdiscarded, by rfl, by decide +kernel,
    by decide +kernel⟩

/-! ### Runs in which the worker does not end -/

/-- What the code of the runs asks for. -/
inductive Stint where
  /-- Schedules a task that gives the pipeline up and then returns, or never ends if it is
  `endless`. -/
  | quitting (endless : Bool)
  /-- Schedules a task whose job has a destructor that fails. -/
  | spilling
  | drop

/-- The code of the runs. -/
abbrev Quitter := Script Stint Answer Unit Unit (Except Unit Unit)

/-- The request that a stint stands for. -/
def Stint.request : Stint → Request Quitter Unit Unit
  | .quitting endless =>
    .handing
      { body := some (.request .drop fun _ => do
          Script.waitFor fun _ => !endless
          pure (.ok ())) }
  | .spilling => .handing { body := some (.ret (.ok ())), onDrop := some (.fail (.text "spilled")) }
  | .drop => .taking false

/-- Schedules some tasks. -/
def scheduleAll (stints : List Stint) : Quitter := do
  Script.all (stints.map fun stint => do
    let _ ← Script.ask stint)
  pure (.ok ())

/-- The states of the runs. -/
abbrev Quit := State Quitter Unit (Pipeline Quitter Unit Unit) (Call Quitter Unit Unit) Answer
  (Event Unit Unit Unit)

/-- The machine of the runs. -/
abbrev quitting : Machine Quitter Unit (Pipeline Quitter Unit Unit) (Call Quitter Unit Unit) Answer
    (Except Unit Unit) (Event Unit Unit Unit) :=
  machine {} (Script.next Stint.request)

/-- The state in which the teardown is about to come back with which a body has given the pipeline
up. -/
def aboutToQuit : Quit :=
  quitting.settle [(0, .go 0)] 23
    (quitting.settle [(1, .go 0)] 12 (start () [scheduleAll [.quitting true]]))

/-- The state in which that body goes on and never ends. -/
def quitForever : Quit :=
  quitting.settle [(0, .go 0)] 1 aboutToQuit

/-- The state in which the destructor has failed of the task that such a teardown has discarded. -/
def aboutToFail : Quit :=
  quitting.settle [(0, .go 0)] 17
    (quitting.settle [(1, .go 0)] 23 (start () [scheduleAll [.quitting false, .spilling]]))

/-- The state in which that teardown has come back. -/
def quitHalfway : Quit :=
  quitting.settle [(0, .go 0)] 1 aboutToFail

/-- The state in which the worker has ended its cycle and waits for an entry. -/
def quitAsleep : Quit :=
  quitting.settle [(0, .go 0)] 12 quitHalfway

/-- Nobody can move any more where the body goes on that never ends. -/
theorem step_quitForever (t : Tid) (choice : Choice) :
    quitting.step t choice quitForever = none := by
  match t with
  | 0 => rfl
  | 1 => exact Machine.step_eq_none (fun _ => rfl) choice
  | t + 2 => exact Machine.step_eq_none (fun _ => rfl) choice

/-- **A worker that does not end.** Where a body gives the pipeline up, the worker need not end. The
body may never end itself. And where the destructor fails of a job that is discarded then, the
teardown comes back with that fault; the body and the worker's cycle go on to their end, and the
worker, which has no entry left to take, never ends. -/
theorem own_drop_unended :
    (quitting.Reach (start () [scheduleAll [.quitting true]]) aboutToQuit ∧
      LeavesAlive {} (Script.next Stint.request) workerThread (.ok (.stopped (.ok ()))) aboutToQuit
        quitForever quitForever) ∧
    quitting.Reach (start () [scheduleAll [.quitting false, .spilling]]) aboutToFail ∧
      LeavesAlive {} (Script.next Stint.request) workerThread (.error (.text "spilled")) aboutToFail
        quitHalfway quitAsleep ∧
      quitAsleep.shared.finished.value.map Finished.ticket = [0] := by
  have hquits : quitting.Reach (start () [scheduleAll [.quitting true]]) aboutToQuit :=
    Machine.reach_settle _ _ (Machine.reach_settle _ _ .start)
  have hfails : quitting.Reach (start () [scheduleAll [.quitting false, .spilling]]) aboutToFail :=
    Machine.reach_settle _ _ (Machine.reach_settle _ _ .start)
  have hstep : quitting.step workerThread (.go 0) aboutToFail = some quitHalfway := rfl
  have hlater : quitting.Reach quitHalfway quitAsleep := Machine.reach_settle _ _ .start
  refine ⟨⟨hquits, ⟨_, _, rfl, rfl⟩, ⟨.go 0, rfl⟩, .start, fun s' h' => ?_⟩, hfails,
    leavesAlive_of_fault hfails rfl rfl hstep hlater rfl ⟨_, rfl, rfl⟩, rfl⟩
  rw [h'.eq_of_stuck step_quitForever]
  rfl

end Offload.Pipeline
