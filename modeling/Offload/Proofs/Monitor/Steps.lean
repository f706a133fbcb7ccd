import Offload.Proofs.Monitor.Waiting
import Offload.Proofs.Observed

/-!
# Steps of threads that use a guarded value

The calls of a guarded value run no code and never abort, so a step of a thread is one of two: a
step of its code, which leaves the guarded value alone, or a turn of its call.

## Main results

* `Guarded.moved_of_step`: every step in a run is a step of code or a turn of a call.
* `Guarded.guarded_of_reach`: who owns the lock, read off a state.
-/

namespace Offload.Guarded

variable {κ ω α β ρ ε : Type} {next : κ → Move κ ω (Call α β) (Answer β) ρ ε} {value : α}
  {world : ω} {codes : List κ} {s s' : State κ ω (Guarded α) (Call α β) (Answer β) ε} {t u : Tid}
  {choice : Choice}

/-! ### Steps -/

/-- The call that a thread is making, unless it is in code. -/
def current (s : State κ ω (Guarded α) (Call α β) (Answer β) ε) (t : Tid) : Option (Call α β) :=
  (callsOf (s.stack t)).active

theorem current_of_stack {call : Call α β} {rest : Stack κ (Call α β) (Answer β)}
    (h : s.stack t = .call call :: rest) : current s t = some call := by
  rw [current, h, callsOf_call]

/-- A thread that makes a call has it as its topmost layer. -/
theorem exists_stack_of_current {call : Call α β} (h : current s t = some call) :
    ∃ rest, s.stack t = .call call :: rest :=
  exists_of_active h

/-- What a step of a thread may be: a step of its code, after which it may be making a call that has
just begun, or a turn of its call. -/
inductive Moved (t : Tid) (choice : Choice)
    (s s' : State κ ω (Guarded α) (Call α β) (Answer β) ε) : Prop where
  | coded : current s t = none → s'.shared = s.shared →
      (∀ call, current s' t = some call → ∃ request : Call α β, call = request.fresh) →
      Moved t choice s s'
  | turned {call : Call α β} {rest : Stack κ (Call α β) (Answer β)}
      {r : Turn κ (Call α β) (Answer β)} : s.stack t = .call call :: rest →
      turn t choice s.shared call = some (s'.shared, r) →
      s'.stack t = Machine.afterTurn rest r →
      (∀ call', current s' t = some call' ↔ r = .stay call') → Moved t choice s s'

/-- The call that a thread is making after a turn of its call is the one with which it goes on. -/
theorem active_afterTurn {call : Call α β} {rest : Stack κ (Call α β) (Answer β)}
    {r : Turn κ (Call α β) (Answer β)} {rooted : Bool} {g g' : Guarded α}
    (hnest : Nested rooted (.call call :: rest)) (hturn : turn t choice g call = some (g', r))
    (call' : Call α β) :
    (callsOf (Machine.afterTurn rest r)).active = some call' ↔ r = .stay call' := by
  rw [Machine.callsOf_afterTurn hnest (turn_plain hturn).1]
  cases r with
  | stay call'' => simp [Calls.after]
  | abort => exact absurd rfl (turn_plain hturn).1
  | run _ _ | ret _ | fail _ => simp [Calls.after]

/-- **Steps.** Every step in a run is a step of code or a turn of a call, and no other thread's. -/
theorem moved_of_step (h : (machine next).Reach (.ofCodes (new value) world codes) s)
    (hstep : (machine next).step t choice s = some s') :
    Moved t choice s s' ∧ ∀ u, u ≠ t → current s' u = current s u := by
  obtain ⟨v, hv, hshows⟩ := (machine_fits next).reach_shows
    (Machine.shows_ofCodes (fun _ => rfl) _ _ _) h
  obtain ⟨v₁, hguards, -, hcalls⟩ := exists_guards h
  have hnest := hshows.nested t
  refine ⟨?_, fun u hu => by rw [current, Machine.stack_of_step_ne hstep hu, current]⟩
  cases (Machine.stepped_of_step hstep).2 with
  | @ended position rest result hcode =>
      have hne : s.stack t ≠ [] := by simp [hcode]
      -- no call waits for code, so this was the thread's own code
      have hwaiting : (callsOf (s.stack t)).waiting = [] := hcalls t ▸ hguards.waiting t
      rw [hcode] at hnest hwaiting
      rcases hnest.below_code with rfl | ⟨call, rest', rfl⟩
      · refine .coded (by rw [current, hcode, callsOf_code]) rfl fun call hcall => ?_
        rw [current, State.stack_withStack_self _ hne] at hcall
        cases hcall
      · cases hwaiting
  | @noted position position' rest event hcode _ | @acted position position' rest world' hcode =>
      have hne : s.stack t ≠ [] := by simp [hcode]
      refine .coded (by rw [current, hcode, callsOf_code]) rfl fun call hcall => ?_
      have hstack : callsOf ((s.withStack t (.code position' :: rest)).stack t) =
          callsOf (.code position' :: rest) := congrArg _ (State.stack_withStack_self _ hne)
      cases (congrArg Calls.active hstack).symm.trans hcall
  | @called position rest call k hcode hnext =>
      have hne : s.stack t ≠ [] := by simp [hcode]
      refine .coded (by rw [current, hcode, callsOf_code]) rfl fun call' hcall => ?_
      rw [current, State.stack_withStack_self _ hne] at hcall
      cases hcall
      exact Move.eq_of_map_eq_call hnext
  | @turned call rest shared events r aborted hcall hturn _ =>
      have hne : s.stack t ≠ [] := by simp [hcall]
      obtain ⟨⟨g', r'⟩, hturn', heq⟩ := Option.map_eq_some_iff.mp hturn
      cases heq
      have hstack := State.stack_withStack_self (Machine.afterTurn rest r) hne
      rw [hcall] at hnest
      refine .turned hcall hturn' hstack fun call' => ?_
      have hactive : (callsOf ((s.withStack t (Machine.afterTurn rest r)).stack t)).active =
          some call' ↔ r = .stay call' := by
        rw [hstack]
        exact active_afterTurn hnest hturn' call'
      exact hactive

/-- Who owns the lock: a visit in a phase that owns it, while there is no lease, or the holder of
the lease. -/
theorem guarded_of_reach (h : (machine next).Reach (.ofCodes (new value) world codes) s) :
    (∀ t v phase, current s t = some (.visit v phase) → phase.owns = true →
      s.shared.monitor.owner = some t ∧ s.shared.lease = none) ∧
    ∀ l, s.shared.lease = some l → s.shared.monitor.owner = some l.holder := by
  obtain ⟨v, hguards, hshared, hcalls⟩ := exists_guards h
  rw [← hshared]
  refine ⟨fun t v phase hcall => hguards.owner t v phase ?_, hguards.lease⟩
  rwa [hcalls]

end Offload.Guarded
