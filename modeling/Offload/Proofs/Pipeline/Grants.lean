import Offload.Proofs.Leads
import Offload.Proofs.Pipeline.Prompt

/-!
# Who schedules in time is granted

While the pipeline has an owner, nobody has closed the intake. So whoever schedules a job with a
body is granted, if the pipeline has an owner until then, whatever has become of the worker: the
call has eleven steps to go at most, and at each of them it can be made or waits for a lock.

## Main results

* `open_of_reach`: while the pipeline has an owner, the intake is open.
* `granted_since`: a scheduling is granted.
-/

namespace Offload.Pipeline

variable {κ ω V E ν : Type} {plan : Plan κ} {t : Tid} {choice : Choice}

/-! ### The owner -/

section Scenes

variable {v v' : View κ V E ν}

/-- A step after which the pipeline has an owner found one, and left the intake as it was. -/
theorem owned_of_moved (h : Moved plan t v v') (hv : Orderly v) (howned : v'.shared.owned = true) :
    v.shared.owned = true ∧ v'.shared.intake.value = v.shared.intake.value := by
  cases h with
  | still | noted _ _ | began _ _ | resumed _ _ => exact ⟨howned, rfl⟩
  | @turned call rest choice s' events r hactive hsound hturn hlive =>
      cases htearing : call.part.tearing? with
      | none =>
          obtain ⟨htame, -⟩ :=
            tame_of_turn hsound htearing hturn (hv.gated.found t call (by rw [hactive]))
          exact ⟨htame.owned howned, htame.value_eq⟩
      | some d =>
          obtain ⟨u, x, hclosing⟩ := hv.closing
          obtain ⟨-, rfl, -⟩ := hclosing.sole.eq_of_active (by rw [hactive]; rfl) htearing
          obtain ⟨r', hstep, -⟩ := turn_tearing (eq_tearing_of_tearing? htearing) hturn
          obtain ⟨-, -, -, heq⟩ := Teardown.frame_of_turn (Teardown.turned_of_turn hstep)
          cases (hclosing.owned (heq.symm.trans howned)).1

/-- **While the pipeline has an owner, the intake is open.** -/
theorem open_of_reach (h : Scene.Reach (library plan) opening v) (howned : v.shared.owned = true) :
    v.shared.intake.value = true :=
  h.invariant (P := fun v => v.shared.owned = true → v.shared.intake.value = true) (fun _ => rfl)
    (fun _ _ _ hs ih hstep howned => by
      obtain ⟨howned', hvalue⟩ := owned_of_moved (moved_of_reach hs hstep) (orderly_of_reach hs)
        howned
      rw [hvalue]
      exact ih howned') howned

end Scenes

/-! ### Steps of a scheduling -/

section Steps

variable {s s' : Pipeline κ V E} {events : List (Event V E ν)}

/-- Whether a scheduling is of a job with a body, and has not been refused. -/
def Schedule.Grants : Schedule κ V E → Prop
  | .checking job => job.body.isSome = true
  | .entering _ | .deciding _ | .leaving (.ok none) => True
  | .pushing p => p.Adds
  | .leaving _ | .dropping _ _ | .dropped _ => False

/-- How many steps a scheduling has to go to be granted. -/
def Schedule.toGo : Schedule κ V E → Nat
  | .checking _ => 9
  | .entering _ => 8
  | .deciding _ => 7
  | .pushing p => p.toGo + 1
  | .leaving _ | .dropping _ _ | .dropped _ => 1

theorem Schedule.toGo_le (stage : Schedule κ V E) : stage.toGo ≤ 9 := by
  cases stage with
  | pushing p => exact (Nat.add_le_add_right p.toGo_le 1).trans (by decide)
  | checking _ | entering _ | deciding _ | leaving _ | dropping _ _ | dropped _ => simp [toGo]

/-- While the intake is open, a scheduling goes on to be granted. -/
theorem Schedule.grants_of_turn {stage : Schedule κ V E}
    {r : Turn κ (Schedule κ V E) (Except Failure Unit)}
    (h : stage.turn t choice s = some (s', events, r)) (hopen : s.intake.value = true)
    (hgrants : stage.Grants) :
    (∃ stage', r = .stay stage' ∧ stage'.Grants ∧ stage'.toGo < stage.toGo) ∨
      r = .ret (.ok ()) := by
  cases stage with
  | checking job =>
      obtain ⟨body, hbody⟩ := Option.isSome_iff_exists.mp hgrants
      simp only [turn, Job.task?, hbody, Option.map_some] at h
      cases h
      exact .inl ⟨_, rfl, trivial, Nat.lt_succ_self _⟩
  | entering task =>
      obtain ⟨intake, -, heq⟩ := Option.map_eq_some_iff.mp h
      cases heq
      exact .inl ⟨_, rfl, trivial, Nat.lt_succ_self _⟩
  | deciding task =>
      simp only [turn, hopen, if_true] at h
      cases h
      exact .inl ⟨_, rfl, trivial, Nat.lt_succ_self _⟩
  | pushing p =>
      obtain ⟨pending, marks, r', hpush, rfl, rfl, rfl⟩ := Work.exists_of_onPending h
      rcases Channel.Push.adds_of_turn hpush hgrants with ⟨p', rfl, hadds, hless⟩ | rfl
      · exact .inl ⟨_, rfl, hadds, Nat.succ_lt_succ hless⟩
      · refine .inl ⟨_, rfl, trivial, Nat.succ_lt_succ ?_⟩
        cases p with
        | adding _ _ | notifying | hooking => exact Nat.succ_pos _
        | ending _ => exact hgrants.elim
  | leaving refused =>
      rcases refused with _ | _ | _
      · exact hgrants.elim
      · cases h
        exact .inr rfl
      · exact hgrants.elim
  | dropping _ _ | dropped _ => exact hgrants.elim

/-- Whether a call is on its way to answer that its job has been scheduled. -/
def Call.Grants : Call κ V E → Prop
  | .opening (.schedule stage) | .inside (.schedule stage) | .handle (.schedule stage) =>
    stage.Grants
  | .closing (.ok (.scheduled (.ok ()))) => True
  | _ => False

/-- How many steps a call has to go to answer that its job has been scheduled. -/
def Call.grantToGo : Call κ V E → Nat
  | .opening (.schedule stage) => stage.toGo + 2
  | .inside (.schedule stage) => stage.toGo + 1
  | .handle (.schedule stage) => stage.toGo
  | _ => 1

theorem Call.grantToGo_le (call : Call κ V E) : call.grantToGo ≤ 11 := by
  unfold grantToGo
  split
  · next stage => exact Nat.add_le_add_right stage.toGo_le 2
  · next stage => exact (Nat.add_le_add_right stage.toGo_le 1).trans (by decide)
  · next stage => exact stage.toGo_le.trans (by decide)
  · decide

/-- While the pipeline has an owner and the intake is open, such a call goes on to its answer. -/
theorem Call.grants_of_turn {call : Call κ V E} {r : Turn κ (Call κ V E) Answer}
    (h : turn plan t choice s call = some (s', events, r)) (howned : s.owned = true)
    (hopen : s.intake.value = true) (hgrants : call.Grants) :
    (∃ call', r = .stay call' ∧ call'.Grants ∧ call'.grantToGo < call.grantToGo) ∨
      r = .ret (.scheduled (.ok ())) := by
  cases call with
  | opening use =>
      cases use with
      | schedule stage =>
          simp only [turn, howned, if_true] at h
          cases h
          exact .inl ⟨_, rfl, hgrants, Nat.lt_succ_self _⟩
      | drain _ | draining _ | await _ | pendingSize _ | finishedSize _ | busy => exact hgrants.elim
  | inside use =>
      cases use with
      | schedule stage =>
          obtain ⟨r', hturn, rfl⟩ := exists_of_nest h
          obtain ⟨r'', hstage, rfl⟩ := exists_of_nest hturn
          rcases Schedule.grants_of_turn hstage hopen hgrants with ⟨stage', rfl, hnext, hless⟩ | rfl
          · exact .inl ⟨_, rfl, hnext, Nat.succ_lt_succ hless⟩
          · refine .inl ⟨_, rfl, trivial, Nat.succ_lt_succ ?_⟩
            cases stage <;> exact Nat.succ_pos _
      | drain _ | draining _ | await _ | pendingSize _ | finishedSize _ | busy => exact hgrants.elim
  | handle use =>
      cases use with
      | schedule stage =>
          obtain ⟨r', hturn, rfl⟩ := exists_of_nest h
          obtain ⟨r'', hstage, rfl⟩ := exists_of_nest hturn
          rcases Schedule.grants_of_turn hstage hopen hgrants with ⟨stage', rfl, hnext, hless⟩ | rfl
          · exact .inl ⟨_, rfl, hnext, hless⟩
          · exact .inr rfl
      | accepting _ => exact hgrants.elim
  | closing outcome =>
      rcases outcome with _ | (_ | ⟨⟩) | _ | _ | _ | _ | _ | _ | _
      all_goals first | exact hgrants.elim | skip
      cases h
      exact .inr rfl
  | taking _ | teardown _ | work _ => exact hgrants.elim

/-- Such a call waits for nothing but a lock. -/
theorem Call.isPrompt_of_grants {call : Call κ V E} (hsound : call.IsSound)
    (hgrants : call.Grants) : call.IsPrompt plan ν t := by
  cases call with
  | opening use => exact isPrompt_opening use
  | inside use =>
      cases use with
      | schedule stage => exact isPrompt_scheduling rfl hsound.proper
      | drain _ | draining _ | await _ | pendingSize _ | finishedSize _ | busy => exact hgrants.elim
  | handle use =>
      cases use with
      | schedule stage => exact isPrompt_scheduling rfl hsound.proper
      | accepting _ => exact hgrants.elim
  | closing outcome => exact fun _ _ => rfl
  | taking _ | teardown _ | work _ => exact hgrants.elim

end Steps

/-! ### All runs -/

section Runs

variable {next : κ → Move κ ω (Request κ V E) Answer (Except E V) ν} {world : ω} {codes : List κ}
  {s s' : State κ ω (Pipeline κ V E) (Call κ V E) Answer (Event V E ν)}

/-- A pipeline that has an owner has had one ever since. -/
theorem owned_of_reach (h : (machine plan next).Reach (start world codes) s)
    (h' : (machine plan next).Reach s s') (howned : s'.shared.owned = true) :
    s.shared.owned = true := by
  induction h' with
  | start => exact howned
  | step t choice hreach hstep ih =>
      refine ih ?_
      obtain ⟨v, hv, hshows⟩ := exists_shows (h.trans hreach)
      obtain ⟨v', rfl | hmoved, hshows'⟩ := hshows.exists_step (machine_fits plan next) hstep
      · rw [← hshows.shared_eq, hshows'.shared_eq]
        exact howned
      · rw [← hshows.shared_eq]
        refine (owned_of_moved (moved_of_reach hv hmoved) (orderly_of_reach hv) ?_).1
        rw [hshows'.shared_eq]
        exact howned

/-- **Scheduling is granted.** A call that schedules a job with a body has come back with success in
every later state in which the pipeline has an owner, or it is on its way: it has made as few steps
as it had to go, and can make the next one, or waits for a lock. -/
theorem granted_since (h : (machine plan next).Reach (start world codes) s) {call : Call κ V E}
    {k : Except Fault Answer → κ} {frames : Stack κ (Call κ V E) Answer} (hgrants : call.Grants)
    (hstack : s.stack t = .call call :: .wait k :: frames) {n : Nat}
    (h' : (machine plan next).Observed (Machine.ownSteps t) s 0 s' n) (hlive : s'.aborted = false)
    (howned : s'.shared.owned = true) :
    (∃ s₁, (machine plan next).Reach s s₁ ∧ (machine plan next).Reach s₁ s' ∧
        s₁.stack t = .code (k (.ok (.scheduled (.ok ())))) :: frames) ∨
      n ≤ call.grantToGo ∧ ((∀ choice, ((machine plan next).step t choice s').isSome = true) ∨
        ∃ l, locks.Waits (machine plan next) s' t l) := by
  have hnears := h'.nears (n := call.grantToGo)
    (P := fun n s => (machine plan next).Reach (start world codes) s ∧ ∃ call : Call κ V E,
      s.stack t = .call call :: .wait k :: frames ∧ call.Grants ∧ call.grantToGo ≤ n)
    (Q := fun s => s.shared.owned = true →
      s.stack t = .code (k (.ok (.scheduled (.ok ())))) :: frames)
    ?own ?others ⟨h, call, hstack, hgrants, Nat.le_refl _⟩
  case own =>
    rintro n s choice s' ⟨hs, call, hstack, hgrants, hle⟩ hstep
    by_cases howned' : s'.shared.owned = true
    · obtain ⟨v, hv, hshows⟩ := exists_shows hs
      have howned := owned_of_reach hs (.step t choice .start hstep) howned'
      have hopen : s.shared.intake.value = true := by
        rw [← hshows.shared_eq] at howned ⊢
        exact open_of_reach hv howned
      obtain ⟨shared, events, r, hturn, -, -, hafter⟩ := Machine.turn_of_step hstack hstep
      rcases Call.grants_of_turn hturn howned hopen hgrants with ⟨call', rfl, hnext, hless⟩ | rfl
      · exact .inr ⟨_, hless.trans_le hle, .step t choice hs hstep, call', hafter, hnext,
          Nat.le_refl _⟩
      · exact .inl fun _ => hafter
    · exact .inl fun howned => absurd howned howned'
  case others =>
    rintro n s u choice s' hu ⟨hs, call, hstack, hgrants, hle⟩ hstep
    refine .inr ⟨.step u choice hs hstep, call, ?_, hgrants, hle⟩
    rw [Machine.stack_of_step_ne hstep (Ne.symm hu), hstack]
  rcases hnears with ⟨s₁, hto, hfrom, hend⟩ | ⟨n', hle, hs', call', hstack', hgrants', -⟩
  · exact .inl ⟨s₁, hto, hfrom, hend (owned_of_reach (h.trans hto) hfrom howned)⟩
  · refine .inr ⟨(Nat.le_add_left _ _).trans hle, ?_⟩
    obtain ⟨v, hv, hshows⟩ := exists_shows hs'
    have hsound : call'.IsSound := by
      refine isSound_of_opening hv t call' ?_
      rw [hshows.calls_eq hlive, hstack']
      exact List.mem_cons_self
    exact (Call.isPrompt_of_grants hsound hgrants').moves_or_waits hlive hstack'

end Runs

end Offload.Pipeline
