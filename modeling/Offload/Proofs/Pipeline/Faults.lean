import Offload.Proofs.Leads
import Offload.Proofs.Pipeline.Duty
import Offload.Proofs.Pipeline.Results
import Offload.Proofs.Pipeline.Shutdown

/-!
# The faults that strike the worker

A fault strikes the worker when the code ends in it that the worker runs: the body of a task, or a
call of the hook. The fault of anything that a body calls comes back to the body, which may end in
it. The faults that have struck are on record with an observer of the run; of a run there is one at
most, and it is the one that the worker is failing, dying or dead of.

From that moment on the worker does nothing but to clear its mark and to end, which takes it three
steps. It runs no code and notes nothing but its death, whatever the other threads do; and the
results that wait leave the finished channel only at the front, when they are received.

## Main results

* `exists_struck`: what has struck is what the worker fails of.
* `stricken_since`: what follows once a fault has struck.
-/

namespace Offload.Pipeline

variable {κ ω V E ν : Type} {plan : Plan κ} {t : Tid} {choice : Choice}

/-! ### What has struck -/

/-- The fault that has struck the worker, where `w` is what it is doing unless it has ended. -/
def struck? (w : Option (Work κ V E)) (s : Pipeline κ V E) : Option Fault :=
  w.elim s.health.fault? Work.fault?

/-- The fault in which the next step of thread `t` ends the code that the worker runs. -/
def strike? (next : κ → Move κ ω (Request κ V E) Answer (Except E V) ν)
    (s : State κ ω (Pipeline κ V E) (Call κ V E) Answer (Event V E ν)) (t : Tid) : Option Fault :=
  match s.stack t with
  | .code position :: .call (.work _) :: _ =>
    match next position with
    | .fail fault => some fault
    | _ => none
  | _ => none

/-- An observer who records the faults that strike the worker. -/
def strikes (next : κ → Move κ ω (Request κ V E) Answer (Except E V) ν) :
    Machine.Observer κ ω (Pipeline κ V E) (Call κ V E) Answer (Event V E ν) (List Fault) :=
  fun t s _ faults => faults ++ (strike? next s t).toList

section States

variable {next : κ → Move κ ω (Request κ V E) Answer (Except E V) ν} {world : ω} {codes : List κ}
  {s s' : State κ ω (Pipeline κ V E) (Call κ V E) Answer (Event V E ν)} {v v' : View κ V E ν}
  {w w' : Option (Work κ V E)} {fault : Fault} {faults : List Fault}

theorem strike?_eq_some : strike? next s t = some fault ↔ ∃ position w frames,
    s.stack t = .code position :: .call (.work w) :: frames ∧ next position = .fail fault := by
  constructor
  · intro h
    unfold strike? at h
    split at h
    · next position w frames hstack =>
      split at h
      · next fault' hnext =>
        obtain rfl := Option.some.inj h
        exact ⟨position, w, frames, hstack, hnext⟩
      · cases h
    · cases h
  · rintro ⟨position, w, frames, hstack, hnext⟩
    simp only [strike?, hstack, hnext]

/-- A fault that strikes is the first, and the worker fails of it. -/
theorem struck?_of_strike (hshows : Machine.Shows (library plan) v s)
    (hshows' : Machine.Shows (library plan) v' s') (hstaff : Staff w v) (hstaff' : Staff w' v')
    (hduty : OnDuty w v) (hstrike : strike? next s t = some fault)
    (hstep : (machine plan next).step t choice s = some s') :
    struck? w v.shared = none ∧ struck? w' v'.shared = some fault := by
  obtain ⟨position, w₀, frames, hstack, hnext⟩ := strike?_eq_some.mp hstrike
  obtain ⟨rfl, rfl, -, -, -⟩ :=
    staff_of_codeEnds hshows hshows' hstaff hstaff' hstack (by rw [hnext]; rfl) hstep
  have hlive := (Machine.stepped_of_step hstep).1
  have hwaits := hshows.calls_eq hlive t
  rw [hstack] at hwaits
  obtain ⟨rfl, -, -⟩ := hstaff.eq_nil_of_work (show (v.calls t).all = _ by rw [hwaits]; rfl)
  exact Work.fault?_resume_error (hduty.waiting w₀ (by rw [hwaits]; exact List.mem_cons_self)) fault

/-- Nothing else strikes the worker. -/
theorem struck?_of_moved (h : WorkerMoved plan t v v' w w') (hduty : OnDuty w v) :
    struck? w' v'.shared = struck? w v.shared ∨ ∃ w₀ fault, t = workerThread ∧
      w₀.fault? = none ∧ (w₀.resume (.error fault)).fault? = some fault ∧
      v.calls t = ⟨none, [.work w₀]⟩ ∧
      v'.calls t = ⟨some (.work (w₀.resume (.error fault))), []⟩ := by
  cases h with
  | stood events hbystander _ _ _ => exact .inl (by rw [struck?, hbystander.health_eq, struck?])
  | resumed w₀ result ht hwaits heq =>
      subst ht heq
      rcases w₀.fault?_resume result with hsame | ⟨hcode, fault, rfl⟩
      · exact .inl hsame
      · obtain ⟨hnone, hsome⟩ := Work.fault?_resume_error hcode fault
        refine .inr ⟨w₀, fault, rfl, hnone, hsome, hwaits, ?_⟩
        rw [Scene.withCalls_calls, Function.update_self]
  | turned _ _ hturn _ _ => exact .inl (Work.fault?_of_turn hturn (hduty.sound _ rfl))

/-- **What has struck.** In every run the faults that have struck the worker are the one that it is
failing, dying or dead of, or none. -/
theorem exists_struck
    (h : (machine plan next).Observed (strikes next) (start world codes) [] s faults) :
    ∃ v w, Scene.Reach (library plan) opening v ∧ Machine.Shows (library plan) v s ∧ Staff w v ∧
      OnDuty w v ∧ faults = (struck? w v.shared).toList := by
  refine h.invariant (P := fun s faults => ∃ v w, Scene.Reach (library plan) opening v ∧
    Machine.Shows (library plan) v s ∧ Staff w v ∧ OnDuty w v ∧
      faults = (struck? w v.shared).toList)
    ⟨opening, _, .start, shows_start plan world codes, staff_opening, onDuty_opening, rfl⟩ ?_
  rintro t choice s s' faults - ⟨v, w, hv, hshows, hstaff, hduty, rfl⟩ hstep
  obtain ⟨v', hmoved, hshows'⟩ := hshows.exists_step (machine_fits plan next) hstep
  rw [strikes]
  cases hstrike : strike? next s t with
  | some fault =>
      have hv' : Scene.Reach (library plan) opening v' := by
        rcases hmoved with rfl | hmoved
        · exact hv
        · exact hv.step t hmoved
      obtain ⟨w', hstaff', hduty'⟩ := onDuty_of_reach hv'
      obtain ⟨hnone, hsome⟩ :=
        struck?_of_strike hshows hshows' hstaff hstaff' hduty hstrike hstep
      exact ⟨v', w', hv', hshows', hstaff', hduty', by rw [hnone, hsome]; rfl⟩
  | none =>
      rw [Option.toList_none, List.append_nil]
      rcases hmoved with rfl | hmoved
      · exact ⟨v', w, hv, hshows', hstaff, hduty, rfl⟩
      · obtain ⟨w', hstaff', hworker⟩ :=
          workerMoved_of_moved (moved_of_reach hv hmoved) hstaff
        refine ⟨v', w', hv.step t hmoved, hshows', hstaff', onDuty_of_moved hworker hduty, ?_⟩
        rcases struck?_of_moved hworker hduty with
          hsame | ⟨w₀, fault, rfl, hnone, hsome, hwaits, hgoes⟩
        · rw [hsame]
        · -- the worker goes on with the fault in which its code has ended
          obtain ⟨position, frames, hstack, ⟨result, -, hcall⟩ | ⟨fault', hnext, -⟩⟩ :=
            hshows.exists_end (machine_fits plan next) hshows' hstep hwaits hgoes
          · have hresume : w₀.resume (.error fault) = w₀.resume (.ok result) :=
              Call.work.inj hcall
            rcases w₀.fault?_resume (.ok result) with hsame | ⟨-, _, hresult⟩
            · rw [← hresume, hsome, hnone] at hsame
              cases hsame
            · cases hresult
          · rw [strike?_eq_some.mpr ⟨position, w₀, frames, hstack, Move.map_eq_fail_iff.mp hnext⟩]
              at hstrike
            cases hstrike

/-- One fault at most strikes the worker. -/
theorem length_strikes_le
    (h : (machine plan next).Observed (strikes next) (start world codes) [] s faults) :
    faults.length ≤ 1 := by
  obtain ⟨v, w, -, -, -, -, rfl⟩ := exists_struck h
  cases struck? w v.shared <;> simp

end States

/-! ### The worker's end -/

namespace Work

variable {s s' : Pipeline κ V E} {events : List (Event V E ν)} {w : Work κ V E}
  {r : Turn κ (Work κ V E) Unit}

/-- How many steps a worker that a fault has struck has to go to its end. -/
def toGo : Work κ V E → Nat
  | .publishing _ => 3
  | .failing _ => 2
  | .dying _ => 1
  | .popping _ | .entering _ _ | .starting _ _ | .running _ _ | .returning _ | .resting
  | .leaving => 0

/-- A worker that a fault has struck can go on. -/
theorem isSome_turn_of_fault? {fault : Fault} (h : w.fault? = some fault) :
    (w.turn plan t choice s : Option
      (Pipeline κ V E × List (Event V E ν) × Turn κ (Work κ V E) Unit)).isSome = true := by
  cases w with
  | publishing p =>
      cases p with
      | ending outcome => cases outcome <;> rfl
      | adding _ _ | notifying | hooking => cases h
  | failing _ | dying _ => rfl
  | popping _ | entering _ _ | starting _ _ | running _ _ | returning _ | resting
  | leaving => cases h

/-- A worker that a fault has struck runs no code, and is marked busy until it has one step to
go. -/
theorem of_fault? {fault : Fault} (h : w.fault? = some fault) :
    w.runsCode = false ∧ w.toGo ≤ 3 ∧ (w.isBusy = true ↔ 2 ≤ w.toGo) := by
  cases w with
  | publishing p =>
      cases p with
      | ending outcome => exact ⟨rfl, Nat.le_refl _, by simp [toGo, isBusy]⟩
      | adding _ _ | notifying | hooking => cases h
  | failing _ | dying _ => exact ⟨rfl, by simp [toGo], by simp [toGo, isBusy]⟩
  | popping _ | entering _ _ | starting _ _ | running _ _ | returning _ | resting
  | leaving => cases h

/-- Each step takes a worker that a fault has struck nearer to its end, and nothing is noted but its
death. -/
theorem toGo_of_turn {fault : Fault} (h : Turned plan t choice s w s' events r)
    (hfault : w.fault? = some fault) :
    r.next?.elim 0 toGo < w.toGo ∧ ∀ event ∈ events, event = .workerDied fault := by
  cases h with
  | @published p finished marks r hpush =>
      cases p with
      | ending outcome =>
          cases outcome with
          | ok _ => cases hfault
          | error _ =>
              cases hpush
              exact ⟨Nat.lt_succ_self _, nofun⟩
      | adding _ _ | notifying | hooking => cases hfault
  | failed _ => exact ⟨Nat.lt_succ_self _, nofun⟩
  | died _ =>
      cases hfault
      exact ⟨Nat.lt_succ_self _, by simp⟩
  | popped | entered | began | returned | rested | left => cases hfault

end Work

/-- Whether a fault has struck the worker, which has at most `n` steps to go to its end. Since the
earlier scene `v₀` it has noted nothing but its death, and of the results that waited then the first
have been received and the others wait. -/
structure Stricken (plan : Plan κ) (fault : Fault) (v₀ : View κ V E ν) (n : Nat)
    (w : Option (Work κ V E)) (v : View κ V E ν) : Prop where
  reach : Scene.Reach (library plan) opening v
  staff : Staff w v
  duty : OnDuty w v
  struck : struck? w v.shared = some fault
  toGo : w.elim 0 Work.toGo ≤ n
  since : ∃ later, v.history = v₀.history ++ later ∧
    ∀ entry ∈ later, entry.2.source = .work → entry = (workerThread, .workerDied fault)
  kept : ∃ taken, v₀.shared.finished.value = taken ++ v.shared.finished.value ∧
    reached .received v.history = reached .received v₀.history ++ taken.map Finished.ticket

section Stricken

variable {next : κ → Move κ ω (Request κ V E) Answer (Except E V) ν} {world : ω} {codes : List κ}
  {s s' : State κ ω (Pipeline κ V E) (Call κ V E) Answer (Event V E ν)}
  {v₀ v v' : View κ V E ν} {w w' : Option (Work κ V E)} {fault : Fault} {n : Nat}

/-- The thread of a worker that a fault has struck holds nothing but the worker, and nothing once
it has ended. -/
theorem Stricken.stack_eq (h : Stricken plan fault v₀ n w v)
    (hshows : Machine.Shows (library plan) v s) (hlive : s.aborted = false) :
    s.stack workerThread = (w.map fun w => Frame.call (Call.work w)).toList := by
  cases w with
  | none =>
      have hended := h.staff.tally.health.mp rfl
      exact hshows.stack_eq_nil hlive rfl (calls_of_ended h.staff hended).2
  | some w =>
      exact stack_of_worker hshows hlive h.staff
        (h.duty.inCode_eq_false h.staff (Work.of_fault? h.struck).1)

/-- A worker that a fault has struck adds no result. -/
theorem Stricken.kept_of_moved (h : Stricken plan fault v₀ n w v) (hmoved : Moved plan t v v') :
    ∃ taken, v₀.shared.finished.value = taken ++ v'.shared.finished.value ∧
      reached .received v'.history = reached .received v₀.history ++ taken.map Finished.ticket := by
  obtain ⟨first, hfirst, hreceived⟩ := h.kept
  obtain ⟨second, hsecond, hreceived'⟩ := results_of_moved hmoved fun f again hactive => by
    have hall : (v.calls t).all =
        .work (.publishing (.adding f (.acting again))) :: (v.calls t).waiting := by
      rw [Calls.all, hactive]
      rfl
    obtain ⟨-, rfl, -⟩ := h.staff.eq_nil_of_work hall
    cases h.struck
  refine ⟨first ++ second, by rw [hfirst, hsecond, List.append_assoc], ?_⟩
  rw [hreceived', hreceived, List.map_append, List.append_assoc]

/-- **A stricken worker, a step of another thread.** -/
theorem Stricken.of_other (h : Stricken plan fault v₀ n w v)
    (hshows : Machine.Shows (library plan) v s) (ht : t ≠ workerThread)
    (hstep : (machine plan next).step t choice s = some s') :
    ∃ v', Machine.Shows (library plan) v' s' ∧ Stricken plan fault v₀ n w v' := by
  obtain ⟨v', rfl | hmoved, hshows'⟩ := hshows.exists_step (machine_fits plan next) hstep
  · exact ⟨v', hshows', h⟩
  · refine ⟨v', hshows', ?_⟩
    obtain ⟨w', hstaff', hworker⟩ :=
      workerMoved_of_moved (moved_of_reach h.reach hmoved) h.staff
    have hduty' := onDuty_of_moved hworker h.duty
    have hkept := h.kept_of_moved (moved_of_reach h.reach hmoved)
    cases hworker with
    | stood events hbystander hhistory _ _ =>
        obtain ⟨later, hlater, hothers⟩ := h.since
        refine ⟨h.reach.step t hmoved, hstaff', hduty', ?_, h.toGo,
          ⟨later ++ events.map (Prod.mk t), by rw [hhistory, hlater, List.append_assoc],
            fun entry hentry hsource => ?_⟩, hkept⟩
        · rw [struck?, hbystander.health_eq]
          exact h.struck
        · rcases List.mem_append.mp hentry with hentry | hentry
          · exact hothers entry hentry hsource
          · obtain ⟨event, hevent, rfl⟩ := List.mem_map.mp hentry
            exact absurd hsource (hbystander.source_ne event hevent)
    | resumed _ _ hworker _ _ | turned hworker _ _ _ _ => exact absurd hworker ht

/-- **A stricken worker, a step of its own.** -/
theorem Stricken.of_own (h : Stricken plan fault v₀ n w v)
    (hshows : Machine.Shows (library plan) v s)
    (hstep : (machine plan next).step workerThread choice s = some s') :
    ∃ n' < n, ∃ v' w', Machine.Shows (library plan) v' s' ∧
      Stricken plan fault v₀ n' w' v' := by
  have hlive := (Machine.stepped_of_step hstep).1
  have hstack := h.stack_eq hshows hlive
  cases w with
  | none =>
      rw [Machine.step_eq_none fun _ => hstack] at hstep
      cases hstep
  | some w₀ =>
      obtain ⟨hcalls, shared, events, r, hturn, -, -, hshows'⟩ :=
        hshows.turned (machine_fits plan next) hstack hstep
      have hmoved := Scene.Step.turned hcalls hturn
      obtain ⟨r', hturn', hr⟩ := exists_of_nest hturn
      have hturned := Work.turned_of_turn hturn'
      have hr' : r ≠ .abort := by
        rw [hr]
        exact within_ne_abort (Work.turn_live hturned) (fun _ => nofun) fun _ => nofun
      obtain ⟨w', hstaff', hworker⟩ :=
        workerMoved_of_moved (moved_of_reach h.reach hmoved) h.staff
      obtain rfl := hstaff'.eq_next rfl hr hr'
      obtain ⟨hless, hevents⟩ := Work.toGo_of_turn hturned h.struck
      obtain ⟨later, hlater, hothers⟩ := h.since
      refine ⟨_, hless.trans_le h.toGo, _, _, hshows', h.reach.step _ hmoved, hstaff',
        onDuty_of_moved hworker h.duty, ?_, Nat.le_refl _,
        ⟨later ++ events.map (Prod.mk workerThread), ?_, ?_⟩,
        h.kept_of_moved (moved_of_reach h.reach hmoved)⟩
      · exact (Work.fault?_of_turn hturned (h.duty.sound _ rfl)).trans h.struck
      · rw [hlater, List.append_assoc]
      · intro entry hentry hsource
        rcases List.mem_append.mp hentry with hentry | hentry
        · exact hothers entry hentry hsource
        · obtain ⟨event, hevent, rfl⟩ := List.mem_map.mp hentry
          rw [hevents event hevent]

/-- **Once a fault has struck.** While the worker makes `k` more steps, in every later state it has
`k` steps less to go. -/
theorem Stricken.later (h : Stricken plan fault v₀ n w v)
    (hshows : Machine.Shows (library plan) v s) {k : Nat}
    (hreach : (machine plan next).Observed (Machine.ownSteps workerThread) s 0 s' k) :
    ∃ n' v' w', n' + k ≤ n ∧ Machine.Shows (library plan) v' s' ∧
      Stricken plan fault v₀ n' w' v' := by
  have hnears := hreach.nears (n := n) (Q := fun _ => False)
    (P := fun n s => ∃ v w, Machine.Shows (library plan) v s ∧ Stricken plan fault v₀ n w v)
    (fun n s choice s' ⟨v, w, hshows, hstricken⟩ hstep =>
      let ⟨n', hlt, v', w', hshows', hstricken'⟩ := hstricken.of_own hshows hstep
      .inr ⟨n', hlt, v', w', hshows', hstricken'⟩)
    (fun n s t choice s' ht ⟨v, w, hshows, hstricken⟩ hstep =>
      let ⟨v', hshows', hstricken'⟩ := hstricken.of_other hshows ht hstep
      .inr ⟨v', w, hshows', hstricken'⟩) ⟨v, w, hshows, h⟩
  rcases hnears with ⟨s₁, -, -, hfalse⟩ | ⟨n', hle, v', w', hshows', hstricken'⟩
  · exact hfalse.elim
  · exact ⟨n', v', w', hle, hshows', hstricken'⟩

/-- A worker that is not marked busy when a fault has struck has one step to go at most. -/
theorem Stricken.of_idle (h : Stricken plan fault v₀ n w v) (hidle : v.shared.busy = false) :
    Stricken plan fault v₀ 1 w v := by
  refine { h with toGo := ?_ }
  cases w with
  | none => exact Nat.zero_le _
  | some w =>
      have hbusy := h.duty.busy
      rw [hidle] at hbusy
      have hnot := mt (Work.of_fault? h.struck).2.2.mpr
        (by rw [show w.isBusy = false from hbusy.symm]; decide)
      exact Nat.le_of_lt_succ (Nat.lt_of_not_le hnot)

/-- With one step to go at most the worker is not marked busy. -/
theorem Stricken.idle (h : Stricken plan fault v₀ n w v) (hn : n ≤ 1) :
    v.shared.busy = false := by
  cases w with
  | none => exact h.duty.busy
  | some w =>
      rw [h.duty.busy, Option.elim_some, ← Bool.not_eq_true]
      intro hbusy
      have htwo := (Work.of_fault? h.struck).2.2.mp hbusy
      have hle : w.toGo ≤ n := h.toGo
      omega

end Stricken

end Offload.Pipeline
