import Offload.Proofs.Pipeline.Invoking
import Offload.Proofs.Pipeline.Reporting
import Offload.Proofs.Pipeline.Stranded

/-!
# The worker's death

A fault that strikes the worker ends the worker and nothing else. The results that wait are still
delivered, and whoever schedules in time is still granted, though nothing of that runs any more; and
a shutdown says which fault it was.

## Main results

* `afterFault_since`: what follows once a fault has struck the worker.
* `worker_death`: the worker's death, in every run.
* `shutdown_unreported`: runs in which no fault strikes the worker and a shutdown does not report.
-/

namespace Offload.Pipeline

variable {κ ω V E ν : Type} {plan : Plan κ} {t : Tid}

/-- What holds in a state `s'` that is reached from `s`, in which the fault has struck the worker,
while the worker's thread makes `k` steps. -/
structure AfterFault (plan : Plan κ) (next : κ → Move κ ω (Request κ V E) Answer (Except E V) ν)
    (fault : Fault) (s s' : State κ ω (Pipeline κ V E) (Call κ V E) Answer (Event V E ν))
    (k : Nat) : Prop where
  /-- The worker ends by its third step. -/
  ends : k ≤ 3 ∧ (k = 3 → s'.shared.health = .dead fault)
  /-- Until then it can make the next one. -/
  moves : s'.aborted = false → s'.shared.health = .alive → ∀ choice,
    ((machine plan next).step workerThread choice s').isSome = true
  /-- Its thread runs no code. -/
  code : s'.aborted = false → ∀ position frames, s'.stack workerThread ≠ .code position :: frames
  /-- It is not marked busy after two steps, nor if it was not before. -/
  idle : 2 ≤ k ∨ s.shared.busy = false → s'.shared.busy = false
  /-- Nothing of the worker's happens but its death. -/
  since : ∃ later, s'.history = s.history ++ later ∧
    ∀ entry ∈ later, entry.2.source = .work → entry = (workerThread, .workerDied fault)
  /-- What has begun is all that begins. -/
  begun : reached .begun s'.history = reached .begun s.history
  /-- The results that waited wait in order, but for the first, which have been received. -/
  kept : ∃ taken, s.shared.finished.value = taken ++ s'.shared.finished.value ∧
    reached .received s'.history = reached .received s.history ++ taken.map Finished.ticket
  /-- Every result has been received or waits, that for which the hook has failed included. -/
  returned : reached .returned s'.history =
    reached .received s'.history ++ s'.shared.finished.value.map Finished.ticket
  /-- What has been accepted has begun or is pending, until the pending channel is cleared. -/
  pending : ¬ Passed .cleared s'.history →
    reached .accepted s'.history =
      reached .begun s'.history ++ ticketsOf s'.shared.pending.value
  /-- From then on it has begun or been discarded. -/
  discarded : Passed .cleared s'.history →
    reached .accepted s'.history = reached .begun s'.history ++ reached .discarded s'.history

section Runs

variable {next : κ → Move κ ω (Request κ V E) Answer (Except E V) ν} {world : ω} {codes : List κ}
  {s s' : State κ ω (Pipeline κ V E) (Call κ V E) Answer (Event V E ν)} {fault : Fault}
  {faults : List Fault} {k : Nat}

/-- A fault that is on record has struck the worker, which has three steps to go at most. -/
theorem exists_stricken
    (h : (machine plan next).Observed (strikes next) (start world codes) [] s [fault]) :
    ∃ v w, Machine.Shows (library plan) v s ∧ Stricken plan fault v 3 w v := by
  obtain ⟨v, w, hv, hshows, hstaff, hduty, hfaults⟩ := exists_struck h
  have hstruck : struck? w v.shared = some fault := by
    cases hw : struck? w v.shared with
    | none =>
        rw [hw] at hfaults
        cases hfaults
    | some fault' =>
        rw [hw] at hfaults
        rw [List.singleton_inj.mp hfaults]
  refine ⟨v, w, hshows, hv, hstaff, hduty, hstruck, ?_, ⟨[], (List.append_nil _).symm, nofun⟩,
    ⟨[], rfl, (List.append_nil _).symm⟩⟩
  cases w with
  | none => exact Nat.zero_le _
  | some w => exact (Work.of_fault? hstruck).2.1

/-- A worker that a fault has struck has ended in it when it has no step to go. -/
theorem Stricken.dead {v₀ v : View κ V E ν} {w : Option (Work κ V E)}
    (h : Stricken plan fault v₀ 0 w v) : v.shared.health = .dead fault := by
  have hstruck := h.struck
  cases w with
  | none =>
      cases hhealth : v.shared.health <;> simp [struck?, hhealth, Health.fault?] at hstruck
      rw [hstruck]
  | some w =>
      have hgo : w.toGo ≤ 0 := h.toGo
      cases w with
      | publishing _ | failing _ | dying _ => cases hgo
      | popping _ | entering _ _ | starting _ _ | running _ _ | returning _ | resting
      | leaving => cases hstruck

/-- Nothing begins where nothing of the worker's happens but its death. -/
theorem reached_begun_eq_nil {later : List (Tid × Event V E ν)}
    (h : ∀ entry ∈ later, entry.2.source = .work → entry = (workerThread, .workerDied fault)) :
    reached .begun later = [] := by
  rw [reached, ticketsAt, List.flatMap_eq_nil_iff]
  intro event hevent
  obtain ⟨entry, hentry, rfl⟩ := List.mem_map.mp hevent
  by_contra hreaching
  rw [h entry hentry (source_of_reaching hreaching)] at hreaching
  exact hreaching rfl

/-- A worker that a fault has struck has nothing in hand and nothing to publish. -/
theorem Work.idle_of_fault? {w : Work κ V E} (h : w.fault? = some fault) :
    w.hand = [] ∧ w.unpublished = [] := by
  cases w with
  | publishing p =>
      cases p with
      | ending _ => exact ⟨rfl, rfl⟩
      | adding _ _ | notifying | hooking => cases h
  | failing _ | dying _ => exact ⟨rfl, rfl⟩
  | popping _ | entering _ _ | starting _ _ | running _ _ | returning _ | resting
  | leaving => cases h

/-- **Once a fault has struck.** What holds in every later state. -/
theorem afterFault_since
    (h : (machine plan next).Observed (strikes next) (start world codes) [] s [fault])
    (h' : (machine plan next).Observed (Machine.ownSteps workerThread) s 0 s' k) :
    AfterFault plan next fault s s' k := by
  obtain ⟨v, w, hshows, hstricken⟩ := exists_stricken h
  obtain ⟨n, v', w', hle, hshows', hstricken'⟩ := hstricken.later hshows h'
  have horder := orderly_of_reach hstricken'.reach
  obtain ⟨u, d, hclosing⟩ := horder.closing
  have haccepted := accepted_eq horder.ledger hclosing.kept hstricken'.staff
  have hreturned := hstricken'.staff.tally.returned
  have hnothing : w'.elim [] Work.hand = [] ∧ w'.elim [] Work.unpublished = [] := by
    cases w' with
    | none => exact ⟨rfl, rfl⟩
    | some w' => exact Work.idle_of_fault? hstricken'.struck
  rw [hnothing.1, List.append_nil] at haccepted
  rw [hnothing.2, List.append_nil, horder.ledger.finished] at hreturned
  obtain ⟨later, hlater, hothers⟩ := hstricken'.since
  rw [hshows'.shared_eq, hshows'.history_eq] at haccepted hreturned
  rw [hshows'.history_eq, hshows.history_eq] at hlater
  refine ⟨⟨by omega, fun hk => ?_⟩, fun hlive halive choice => ?_, fun hlive position frames => ?_,
    fun hidle => ?_, ⟨later, hlater, hothers⟩, ?_, ?_, hreturned, haccepted.1,
    fun hcleared => (haccepted.2 hcleared).2⟩
  · obtain rfl : n = 0 := by omega
    rw [← hshows'.shared_eq]
    exact hstricken'.dead
  · cases w' with
    | none =>
        rw [← hshows'.shared_eq] at halive
        exact absurd halive (hstricken'.staff.tally.health.mp rfl)
    | some w' =>
        refine (Machine.isSome_step_call hlive (hstricken'.stack_eq hshows' hlive) choice).trans ?_
        exact (Option.isSome_map ..).trans (Work.isSome_turn_of_fault? hstricken'.struck)
  · rw [hstricken'.stack_eq hshows' hlive]
    cases w' <;> nofun
  · rw [← hshows'.shared_eq]
    rcases hidle with htwo | hidle
    · exact hstricken'.idle (by omega)
    · rw [← hshows.shared_eq] at hidle
      obtain ⟨n₁, v₁, w₁, hle₁, hshows₁, hstricken₁⟩ := (hstricken.of_idle hidle).later hshows h'
      rw [hshows'.shared_eq, ← hshows₁.shared_eq]
      exact hstricken₁.idle (by omega)
  · rw [hlater, reached_later, reached_begun_eq_nil hothers, List.append_nil]
  · rw [← hshows.shared_eq, ← hshows.history_eq, ← hshows'.shared_eq, ← hshows'.history_eq]
    exact hstricken'.kept

/-- What a shutdown on thread `t` comes to that makes the call `call` above `frames` at the moment
`s`, where `faults` are those that have struck the worker. -/
structure Reports (plan : Plan κ) (next : κ → Move κ ω (Request κ V E) Answer (Except E V) ν)
    (t : Tid) (call : Call κ V E) (frames : Stack κ (Call κ V E) Answer) (faults : List Fault)
    (s : State κ ω (Pipeline κ V E) (Call κ V E) Answer (Event V E ν)) : Prop where
  /-- It can make its next step, or it waits. -/
  moves : s.aborted = false → (∀ choice, ((machine plan next).step t choice s).isSome = true) ∨
    Awaits plan next t call s
  /-- Each of its steps takes it nearer to its end. -/
  nearer : ∀ choice s', (machine plan next).step t choice s = some s' → s'.aborted = false →
    CameBack t frames faults s s' ∨ ∃ bound < call.downToGo, ShuttingDown t frames bound s'
  /-- In every later state it has come back, or it is on its way. -/
  comesBack : ∀ s' faults', (machine plan next).Observed (strikes next) s faults s' faults' →
    s'.aborted = false →
    (∃ s₁ faults₁ choice s₂,
      (machine plan next).Observed (strikes next) s faults s₁ faults₁ ∧
      (machine plan next).step t choice s₁ = some s₂ ∧ (machine plan next).Reach s₂ s' ∧
      CameBack t frames faults₁ s₁ s₂) ∨
    ShuttingDown t frames call.downToGo s'

/-- What holds at a moment `s`, where `faults` are the faults in which bodies and the hook have
ended on the worker. -/
structure WorkerDeath (plan : Plan κ) (next : κ → Move κ ω (Request κ V E) Answer (Except E V) ν)
    (faults : List Fault) (s : State κ ω (Pipeline κ V E) (Call κ V E) Answer (Event V E ν)) :
    Prop where
  /-- There is one at most. -/
  once : faults.length ≤ 1
  afterwards : ∀ fault, faults = [fault] → ∀ s' k,
    (machine plan next).Observed (Machine.ownSteps workerThread) s 0 s' k →
    AfterFault plan next fault s s' k
  /-- Whoever asks for a result while some wait delivers the first that waits when it takes one out,
  unless others take out all. -/
  delivers : ∀ t (use : Use κ V E) frames, use.Seeks plan →
    (s.stack t = .call (.opening use) :: frames ∨ s.stack t = .call (.inside use) :: frames) →
    s.shared.finished.value ≠ [] → ∀ s' k,
    (machine plan next).Observed (Machine.ownSteps t) s 0 s' k → s'.aborted = false →
    s'.shared.owned = true →
    (∃ s₁, (machine plan next).Reach s s₁ ∧ (machine plan next).Reach s₁ s' ∧
      (s₁.shared.finished.value = [] ∨
        ∃ f, TookFirst plan next t s f s₁ ∧ JustDelivered t f frames s₁)) ∨
    k ≤ 8 ∧ ((∀ choice, ((machine plan next).step t choice s').isSome = true) ∨
      ∃ l, locks.Waits (machine plan next) s' t l)
  /-- Whoever schedules a job with a body is granted. -/
  grants : ∀ t (call : Call κ V E) rest frames, call.Grants →
    s.stack t = .call call :: .wait rest :: frames → ∀ s' k,
    (machine plan next).Observed (Machine.ownSteps t) s 0 s' k → s'.aborted = false →
    s'.shared.owned = true →
    (∃ s₁, (machine plan next).Reach s s₁ ∧ (machine plan next).Reach s₁ s' ∧
      s₁.stack t = .code (rest (.ok (.scheduled (.ok ())))) :: frames) ∨
    k ≤ 11 ∧ ((∀ choice, ((machine plan next).step t choice s').isSome = true) ∨
      ∃ l, locks.Waits (machine plan next) s' t l)
  reports : ∀ t (call : Call κ V E) frames, t ≠ workerThread → call.IsShutdown →
    s.stack t = .call call :: frames → Reports plan next t call frames faults s

/-- **The worker's death.** In every run, at every moment `s`, whatever bodies, callbacks, hooks and
other code do and however threads interleave, where `faults` are the faults in which bodies and the
hook have ended on the worker:

* there is one at most;
* once there is one, the worker ends by its third step, runs no code, calls no hook and begins
  nothing; it is not marked busy after two steps and stays so; the results that wait, that for
  which the hook failed included, wait in order until they are received; and what has been accepted
  and has not begun is pending, and discarded when a teardown clears the pending channel;
* whoever asks for a result while some wait, by a drain that may deliver one more or by an await,
  delivers the first that waits when it takes one out, as long as the pipeline has an owner, unless
  others take out all; meanwhile it can make its next step or waits for a lock, and it has eight
  steps to go at most;
* whoever schedules a job with a body is granted, as long as the pipeline has an owner; meanwhile it
  can make its next step or waits for a lock, and it has eleven steps to go at most;
* a shutdown on a thread other than the worker's can make its next step or waits, for a lock, at its
  beginning for those who borrow the pipeline, or for the worker while that is alive; each step
  takes it nearer to its end; and in every later state it is on its way, or it has come back: with
  the fault that has struck the worker, with success if none has, with the answer that the pipeline
  has no owner any more, or with the fault of a destructor. -/
theorem worker_death
    (h : (machine plan next).Observed (strikes next) (start world codes) [] s faults) :
    WorkerDeath plan next faults s := by
  constructor
  case once => exact length_strikes_le h
  case afterwards =>
    intro fault hfaults s' k h'
    subst hfaults
    exact afterFault_since h h'
  case delivers =>
    intro t use frames hseeks hstack hwait s' k h' hlive howned
    refine (delivered_since h.reach hseeks hstack hwait h' hlive howned).imp_right
      fun ⟨hk, hmoves⟩ => ⟨hk.trans (Nat.succ_le_succ ?_), hmoves⟩
    exact use.toGo_le
  case grants =>
    intro t call rest frames hgrants hstack s' k h' hlive howned
    refine (granted_since h.reach hgrants hstack h' hlive howned).imp_right fun ⟨hk, hmoves⟩ =>
      ⟨hk.trans ?_, hmoves⟩
    exact call.grantToGo_le
  case reports =>
    exact fun t call frames ht hcall hstack =>
      { moves := fun hlive => moves_or_awaits h.reach hlive hcall hstack
        nearer := fun choice s' hstep hlive => of_own_shutdown h ht hcall hstack hstep hlive
        comesBack := fun s' faults' h' hlive => reported_since h ht hcall hstack h' hlive }

end Runs

/-! ### A run in which the hook fails -/

/-- The plan of the run. -/
abbrev failingHook : Plan Wisher := { hook := some (.fail (.text "hook")) }

/-- The machine of the run. -/
abbrev failingHooks : Machine Wisher Unit (Pipeline Wisher Unit Unit) (Call Wisher Unit Unit) Answer
    (Except Unit Unit) (Event Unit Unit Unit) :=
  machine failingHook (Script.next Wish.request)

/-- The state in which the hook has failed for the first of two tasks, and a shutdown is about to
begin, with the fault on record. -/
def hookFailed : Wished × List Fault :=
  failingHooks.follow (strikes (Script.next Wish.request))
    (List.replicate 21 (1, .go 0) ++ List.replicate 14 (0, .go 0)) (start () [twoAndShutDown], [])

/-- The state in which the worker has ended, and the number of its steps. -/
def workerEnded : Wished × Nat :=
  failingHooks.follow (Machine.ownSteps 0) (List.replicate 3 (0, .go 0)) (hookFailed.1, 0)

/-- The state in which the shutdown is about to come back, with the fault on record. -/
def aboutToReport : Wished × List Fault :=
  failingHooks.follow (strikes (Script.next Wish.request))
    (List.replicate 3 (0, .go 0) ++ List.replicate 23 (1, .go 0)) hookFailed

/-- The worker ends with the first result undelivered and the second task pending, which the
shutdown discards before it comes back; it says what the hook has failed with. -/
theorem worker_death_hookFailed :
    hookFailed.2 = [.text "hook"] ∧
      AfterFault failingHook (Script.next Wish.request) (.text "hook") hookFailed.1 workerEnded.1
        3 ∧
      workerEnded.1.shared.finished.value.map Finished.ticket = [0] ∧
      ticketsOf workerEnded.1.shared.pending.value = [1] ∧
      ∃ frames s', failingHooks.step 1 (.go 0) aboutToReport.1 = some s' ∧
        s'.stack 1 =
          Machine.finishCall (.ok (.stopped (.error (.workerFaulted "hook")))) frames := by
  have hfailed : failingHooks.Observed (strikes (Script.next Wish.request))
      (start () [twoAndShutDown]) [] hookFailed.1 hookFailed.2 :=
    Machine.observed_follow _ _ _ .start
  have hended : failingHooks.Observed (Machine.ownSteps 0) hookFailed.1 0 workerEnded.1
      workerEnded.2 :=
    Machine.observed_follow _ _ _ .start
  have hreports : failingHooks.Observed (strikes (Script.next Wish.request))
      (start () [twoAndShutDown]) [] aboutToReport.1 aboutToReport.2 :=
    Machine.observed_follow _ _ _ hfailed
  have hfaults : hookFailed.2 = [.text "hook"] := by decide +kernel
  have hsame : aboutToReport.2 = [.text "hook"] := by decide +kernel
  have hthree : workerEnded.2 = 3 := by decide +kernel
  have hafter := (worker_death hfailed).afterwards _ hfaults _ _ hended
  rw [hthree] at hafter
  refine ⟨hfaults, hafter, by decide +kernel, by decide +kernel, ?_⟩
  obtain ⟨report, outcome, frames, hstack⟩ : ∃ report outcome frames, aboutToReport.1.stack 1 =
      .call (.teardown ⟨true, some report, .ending outcome⟩) :: frames := ⟨_, _, _, rfl⟩
  obtain ⟨s', hstep⟩ := Option.isSome_iff_exists.mp
    (show (failingHooks.step 1 (.go 0) aboutToReport.1).isSome = true by decide +kernel)
  have hlive : s'.aborted = false := by
    have hgoes : (failingHooks.step 1 (.go 0) aboutToReport.1).map State.aborted = some false := by
      decide +kernel
    rw [hstep] at hgoes
    exact Option.some.inj hgoes
  refine ⟨frames, s', hstep, ?_⟩
  have hshutdown := (worker_death hreports).reports 1
    (.teardown ⟨true, some report, .ending outcome⟩) frames nofun rfl hstack
  rcases hshutdown.nearer _ _ hstep hlive with hcame | ⟨bound, hless, -⟩
  · cases hcame with
    | reported hreported _ =>
        rw [hsame] at hreported
        exact hreported
    | gone htaking _ _ => cases htaking.symm.trans hstack
    | failed d n fault hclearing hstage _ =>
        cases hclearing.symm.trans hstack
        cases hstage
  · -- it has no step to go
    rcases Prod.Lex.lt_iff.mp hless with hfirst | ⟨-, hsecond⟩
    · cases hfirst
    · cases hsecond

/-! ### Runs in which a shutdown does not report -/

/-- What the code of the runs asks for. -/
inductive Plea where
  /-- Schedules a task whose body never ends, if it is `endless`, and else one whose job has a
  destructor that fails. -/
  | schedule (endless : Bool)
  | shutDown

/-- The code of the runs. -/
abbrev Pleader := Script Plea Answer Unit Unit (Except Unit Unit)

/-- The request that a plea stands for. -/
def Plea.request : Plea → Request Pleader Unit Unit
  | .schedule true => .handing { body := some (do Script.waitFor fun _ => false; pure (.ok ())) }
  | .schedule false =>
    .handing { body := some (.ret (.ok ())), onDrop := some (.fail (.text "spilled")) }
  | .shutDown => .taking true

/-- Schedules a task and shuts the pipeline down. -/
def scheduleAndShutDown (endless : Bool) : Pleader := do
  let _ ← Script.ask (.schedule endless)
  let _ ← Script.ask .shutDown
  pure (.ok ())

/-- The states of the runs. -/
abbrev Pleaded := State Pleader Unit (Pipeline Pleader Unit Unit) (Call Pleader Unit Unit) Answer
  (Event Unit Unit Unit)

/-- The machine of the runs. -/
abbrev pleading : Machine Pleader Unit (Pipeline Pleader Unit Unit) (Call Pleader Unit Unit) Answer
    (Except Unit Unit) (Event Unit Unit Unit) :=
  machine {} (Script.next Plea.request)

/-- The state in which the worker is in a body that never ends and the shutdown is to join it, with
the faults on record. -/
def keptWaiting : Pleaded × List Fault :=
  pleading.follow (strikes (Script.next Plea.request))
    (List.replicate 10 (1, .go 0) ++ List.replicate 8 (0, .go 0) ++ List.replicate 20 (1, .go 0))
    (start () [scheduleAndShutDown true], [])

/-- The state in which the destructor has failed of the task that the shutdown has discarded, with
the faults on record. -/
def aboutToSpill : Pleaded × List Fault :=
  pleading.follow (strikes (Script.next Plea.request)) (List.replicate 21 (1, .go 0))
    (start () [scheduleAndShutDown false], [])

/-- The state in which that shutdown has come back. -/
def spilled : Pleaded :=
  pleading.settle [(1, .go 0)] 1 aboutToSpill.1

/-- The state in which the worker then waits for an entry. -/
def leftAsleep : Pleaded :=
  pleading.settle [(0, .go 0)] 3 spilled

/-- Nobody can move any more where the worker is in a body that never ends and the shutdown waits for
it. -/
theorem step_keptWaiting (t : Tid) (choice : Choice) :
    pleading.step t choice keptWaiting.1 = none := by
  match t with
  | 0 => rfl
  | 1 => rfl
  | t + 2 => exact Machine.step_eq_none (fun _ => rfl) choice

/-- **A shutdown that does not report.** Where no fault has struck the worker, a shutdown on another
thread need not come back with success. A body that never ends keeps it waiting for ever. And where
the destructor fails of a job that it discards, it comes back with that fault, and the worker, which
has no entry left to take, never ends. -/
theorem shutdown_unreported :
    (pleading.Observed (strikes (Script.next Plea.request)) (start () [scheduleAndShutDown true]) []
        keptWaiting.1 [] ∧
      (∃ frames, keptWaiting.1.stack 1 = .call (.teardown ⟨true, none, .joining 0⟩) :: frames) ∧
      ∀ s', pleading.Reach keptWaiting.1 s' → s' = keptWaiting.1) ∧
    pleading.Observed (strikes (Script.next Plea.request)) (start () [scheduleAndShutDown false]) []
        aboutToSpill.1 [] ∧
      LeavesAlive {} (Script.next Plea.request) 1 (.error (.text "spilled")) aboutToSpill.1 spilled
        leftAsleep := by
  have hwaits : pleading.Observed (strikes (Script.next Plea.request))
      (start () [scheduleAndShutDown true]) [] keptWaiting.1 keptWaiting.2 :=
    Machine.observed_follow _ _ _ .start
  have hspills : pleading.Observed (strikes (Script.next Plea.request))
      (start () [scheduleAndShutDown false]) [] aboutToSpill.1 aboutToSpill.2 :=
    Machine.observed_follow _ _ _ .start
  have hstep : pleading.step 1 (.go 0) aboutToSpill.1 = some spilled := rfl
  have hlater : pleading.Reach spilled leftAsleep := Machine.reach_settle _ _ .start
  exact ⟨⟨hwaits, ⟨_, rfl⟩, fun s' h' => h'.eq_of_stuck step_keptWaiting⟩, hspills,
    leavesAlive_of_fault hspills.reach rfl rfl hstep hlater rfl ⟨_, rfl, rfl⟩⟩

end Offload.Pipeline
