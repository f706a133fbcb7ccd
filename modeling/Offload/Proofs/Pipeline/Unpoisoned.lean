import Offload.Proofs.Pipeline.Locks

/-!
# No lock of a pipeline is poisoned

A monitor is poisoned when a critical section of it fails, and no critical section of a pipeline
fails: code that may fail runs outside all locks. So a fault in a body, in the hook, in a callback
or in a destructor leaves each lock of the pipeline as sound as it was.

## Main results

* `keepsSound_of_turn`: a call of which no visit is on its way out because of a fault poisons
  nothing and goes on so.
* `unpoisoned_of_reach`: no lock is poisoned in any state of any run.
-/

namespace Offload

variable {α β κ : Type} {t : Tid} {choice : Choice}

/-- A visit that is not on its way out because of a fault leaves its monitor as sound as it is. -/
theorem Visit.poisoned_of_turn {v : Visit α β} {m m' : Monitor α} {phase : Phase β}
    {progress : Progress β} (h : v.turn t choice m phase = some (m', progress))
    (hsound : phase.IsSound) : m'.poisoned = m.poisoned := by
  cases Visit.turned_of_turn h with
  | leftFaulted fault => exact hsound.elim
  | arrived _ | tested _ _ | untested _ _ | slept | stirred _ | expired _ _ | woken _ _
  | wokenLate _ | acted _ | left _ => rfl

theorem Phase.IsPlain.isSound {phase : Phase β} (h : phase.IsPlain) : phase.IsSound := by
  rcases phase with _ | _ | _ | _ | _ | _ | fault | answer
  case leaving.error => exact h.elim
  all_goals trivial

namespace Channel

variable {c c' : Channel α} {marks : List (Mark α)}

theorem Pop.keepsSound_of_turn {p : Pop α} {r : Turn κ (Pop α) (Option α)}
    (h : p.turn t choice c = some (c', marks, r)) (hsound : p.phase.IsSound) :
    c'.poisoned = c.poisoned ∧ ∀ p', r.next? = some p' → p'.phase.IsSound := by
  obtain ⟨⟨c₁, progress⟩, hvisit, heq⟩ := Option.map_eq_some_iff.mp h
  cases heq
  refine ⟨Visit.poisoned_of_turn hvisit hsound, fun p' hnext => ?_⟩
  cases progress with
  | on phase =>
      cases hnext
      refine Visit.isSound_of_turn (fun test htest items => ?_) (fun items => ?_) hvisit
      · cases hwait : p.wait <;> rw [hwait] at htest <;> cases htest
        · exact ⟨_, rfl⟩
        · exact ⟨_, rfl⟩
      · rw [Pop.visit_body]
        cases items <;> exact ⟨_, rfl⟩
  | ended outcome =>
      rcases outcome with fault | _ | _ | item
      · cases hnext
      · cases hnext
      · by_cases hwait : p.wait = .endless
        · simp only [Pop.afterVisit, hwait, if_true, Turn.next?, Option.some.injEq] at hnext
          cases hnext
          trivial
        · simp only [Pop.afterVisit, hwait, if_false, Turn.next?] at hnext
          cases hnext
      · cases hnext

theorem Push.keepsSound_of_turn {hook : Option κ} {p : Push α} {r : Turn κ (Push α) Unit}
    (h : p.turn hook t choice c = some (c', marks, r)) (hplain : p.IsPlain) :
    c'.poisoned = c.poisoned ∧ ∀ p', r.next? = some p' → p'.IsPlain := by
  refine ⟨?_, fun p' hnext => ((p.ahead_of_turn h hplain).2 p' hnext).1⟩
  cases p with
  | adding item phase =>
      obtain ⟨⟨c₁, progress⟩, hvisit, heq⟩ := Option.map_eq_some_iff.mp h
      cases heq
      exact Visit.poisoned_of_turn hvisit (Phase.IsPlain.isSound hplain)
  | notifying =>
      cases h
      rfl
  | hooking =>
      cases hook <;>
      · cases h
        rfl
  | ending outcome =>
      cases outcome <;>
      · cases h
        rfl

theorem keepsSound_of_sizeTurn {phase : Phase Nat} {r : Turn κ (Phase Nat) Nat}
    (h : sizeTurn t choice c phase = some (c', r)) (hsound : phase.IsSound) :
    c'.poisoned = c.poisoned ∧ ∀ phase', r.next? = some phase' → phase'.IsSound := by
  obtain ⟨⟨c₁, progress⟩, hvisit, heq⟩ := Option.map_eq_some_iff.mp h
  cases heq
  refine ⟨Visit.poisoned_of_turn hvisit hsound, fun phase' hnext => ?_⟩
  cases progress with
  | on phase =>
      cases hnext
      exact Visit.isSound_of_turn (by rintro _ ⟨⟩) (fun _ => ⟨_, rfl⟩) hvisit
  | ended outcome => cases outcome <;> cases hnext

/-- Whether a clear is not on its way out of its visit because of a fault. -/
def Clear.IsSound : Clear α → Prop
  | .taking phase => phase.IsSound
  | .finalizing _ _ _ | .broken => True

theorem Clear.keepsSound_of_turn {finalizer : α → Option κ} {clear : Clear α}
    {r : Turn κ (Clear α) Nat} (h : clear.turn finalizer t choice c = some (c', marks, r))
    (hsound : clear.IsSound) :
    c'.poisoned = c.poisoned ∧ ∀ clear', r.next? = some clear' → clear'.IsSound := by
  cases clear with
  | taking phase =>
      obtain ⟨⟨c₁, progress⟩, hvisit, heq⟩ := Option.map_eq_some_iff.mp h
      cases heq
      refine ⟨Visit.poisoned_of_turn hvisit hsound, fun clear' hnext => ?_⟩
      cases progress with
      | on phase =>
          cases hnext
          exact Visit.isSound_of_turn (by rintro _ ⟨⟩) (fun _ => ⟨_, rfl⟩) hvisit
      | ended outcome =>
          cases outcome <;> cases hnext
          trivial
  | finalizing count rest fault =>
      cases rest with
      | nil =>
          cases fault <;>
          · cases h
            exact ⟨rfl, by rintro _ ⟨⟩⟩
      | cons item rest =>
          cases h
          refine ⟨rfl, fun clear' hnext => ?_⟩
          cases hcode : finalizer item <;> rw [hcode] at hnext <;> cases hnext <;> trivial
  | broken =>
      cases h
      exact ⟨rfl, by rintro _ ⟨⟩⟩

theorem Clear.isSound_resume {ρ : Type} {clear : Clear α} (h : clear.IsSound)
    (result : Except Fault ρ) : (clear.resume result).IsSound := by
  rcases clear with phase | ⟨count, rest, _ | fault⟩ | _ <;> cases result <;> exact h

end Channel

namespace Pipeline

variable {κ ω V E ν : Type} {plan : Plan κ} {s s' : Pipeline κ V E} {events : List (Event V E ν)}

/-! ### One step of a call -/

/-- Whether a lock of a pipeline is poisoned. -/
def poisoned (s : Pipeline κ V E) : Lock → Bool
  | .intake => s.intake.poisoned
  | .pending => s.pending.poisoned
  | .finished => s.finished.poisoned

/-- Whether no visit of a scheduling is on its way out because of a fault. -/
def Schedule.IsHale : Schedule κ V E → Prop
  | .pushing p => p.IsPlain ∧ p.fault? = none
  | .leaving (.error _) => False
  | _ => True

/-- Whether no visit of a drain is on its way out because of a fault. -/
def Drain.IsHale : Drain κ V E → Prop
  | .popping _ p => p.phase.IsSound
  | .checking phase => phase.IsSound
  | _ => True

/-- Whether no visit of an await is on its way out because of a fault. -/
def Await.IsHale : Await κ V E → Prop
  | .popping p => p.phase.IsSound
  | _ => True

/-- Whether no visit of the worker is on its way out because of a fault. -/
def Work.IsHale : Work κ V E → Prop
  | .popping p => p.phase.IsSound
  | .publishing p => p.IsPlain
  | _ => True

/-- Whether no visit of a teardown at this stage is on its way out because of a fault. -/
def Teardown.Stage.IsHale : Teardown.Stage κ V E → Prop
  | .closing phase => phase.IsSound
  | .clearing c => c.IsSound
  | .stopping _ p => p.IsPlain
  | .counting _ _ phase => phase.IsSound
  | _ => True

/-- Whether no visit of what is done through a handle is on its way out because of a fault. -/
def HandleUse.IsHale : HandleUse κ V E → Prop
  | .schedule stage => stage.IsHale
  | .accepting phase => phase.IsSound

/-- Whether no visit of what is done through the owner is on its way out because of a fault. -/
def Use.IsHale : Use κ V E → Prop
  | .schedule stage => stage.IsHale
  | .draining stage => stage.IsHale
  | .await stage => stage.IsHale
  | .pendingSize phase | .finishedSize phase => phase.IsSound
  | .drain _ | .busy => True

/-- Whether no visit of a call is on its way out because of a fault. -/
def Call.IsHale : Call κ V E → Prop
  | .opening use | .inside use => use.IsHale
  | .handle use => use.IsHale
  | .teardown d => d.stage.IsHale
  | .work w => w.IsHale
  | .closing _ | .taking _ => True

/-- Whether a step poisons no lock, and what goes on after it is as `sound` says. -/
structure KeepsSound {γ β : Type} (sound : γ → Prop) (s s' : Pipeline κ V E) (r : Turn κ γ β) :
    Prop where
  poisoned_eq : ∀ l, poisoned s' l = poisoned s l
  next : ∀ p', r.next? = some p' → sound p'

/-- A step of a part as a step of a larger one. -/
theorem KeepsSound.within {γ β γ' β' : Type} {sound : γ → Prop} {sound' : γ' → Prop}
    {r : Turn κ γ β} {wrap : γ → γ'} {answered : β → Turn κ γ' β'} {failed : Fault → Turn κ γ' β'}
    (h : KeepsSound sound s s' r) (hwrap : ∀ p, sound p → sound' (wrap p))
    (hanswered : ∀ b p', (answered b).next? = some p' → sound' p')
    (hfailed : ∀ fault p', (failed fault).next? = some p' → sound' p') :
    KeepsSound sound' s s' (r.within wrap answered failed) := by
  refine ⟨h.poisoned_eq, fun p' hnext => ?_⟩
  cases r with
  | stay p | run _ p =>
      cases hnext
      exact hwrap p (h.next p rfl)
  | ret b => exact hanswered b p' hnext
  | fail fault => exact hfailed fault p' hnext
  | abort => cases hnext

theorem poisoned_withPending {pending : Channel (Entry κ V E)}
    (h : pending.poisoned = s.pending.poisoned) (l : Lock) :
    poisoned { s with pending := pending } l = poisoned s l := by
  cases l with
  | pending => exact h
  | intake | finished => rfl

theorem poisoned_withFinished {finished : Channel (Finished κ V E)}
    (h : finished.poisoned = s.finished.poisoned) (l : Lock) :
    poisoned { s with finished := finished } l = poisoned s l := by
  cases l with
  | finished => exact h
  | intake | pending => rfl

theorem poisoned_withIntake {intake : Monitor Bool} (h : intake.poisoned = s.intake.poisoned)
    (l : Lock) : poisoned { s with intake := intake } l = poisoned s l := by
  cases l with
  | intake => exact h
  | pending | finished => rfl

variable {t : Tid} {choice : Choice}

theorem Schedule.keepsSound_of_turn {stage : Schedule κ V E}
    {r : Turn κ (Schedule κ V E) (Except Failure Unit)}
    (h : stage.turn t choice s = some (s', events, r)) (hsound : stage.IsHale) :
    KeepsSound Schedule.IsHale s s' r := by
  cases stepped_of_turn h with
  | empty _ _ | checked _ _ _ | refused _ _ | dropped _ | dropping _ _ =>
      exact ⟨fun _ => rfl, by rintro _ ⟨⟩; trivial⟩
  | entered _ _ | turnedAway _ => exact ⟨poisoned_withIntake rfl, by rintro _ ⟨⟩; trivial⟩
  | admitted _ _ => exact ⟨fun l => by cases l <;> rfl, by rintro _ ⟨⟩; exact ⟨trivial, rfl⟩⟩
  | @pushing _ _ _ r' hpush =>
      obtain ⟨hpoisoned, hplain⟩ := Channel.Push.keepsSound_of_turn hpush hsound.1
      -- without a hook, there is no fault that the push could pass on
      have hfault : Channel.Push.faultAfter r' = none :=
        (Channel.Push.fault?_of_turn hpush hsound.1).symm.trans hsound.2
      refine ⟨poisoned_withPending hpoisoned, fun stage' hnext => ?_⟩
      cases r' with
      | stay p' | run _ p' =>
          cases hnext
          exact ⟨hplain p' rfl, hfault⟩
      | ret _ =>
          cases hnext
          trivial
      | fail _ => cases hfault
      | abort => cases hnext
  | accepted => exact ⟨poisoned_withIntake rfl, by rintro _ ⟨⟩⟩
  | failed _ => exact hsound.elim
  | answered _ | struck _ => exact ⟨fun _ => rfl, by rintro _ ⟨⟩⟩

theorem Drain.keepsSound_of_turn {stage : Drain κ V E} {r : Turn κ (Drain κ V E) Bool}
    (h : stage.turn t choice s = some (s', events, r)) (hsound : stage.IsHale) :
    KeepsSound Drain.IsHale s s' r := by
  cases stage with
  | going left =>
      cases left <;>
      · cases h
        exact ⟨fun _ => rfl, by rintro _ ⟨⟩; trivial⟩
  | popping left p =>
      obtain ⟨finished, marks, r', hpop, rfl, -, rfl⟩ := exists_of_onFinished h
      obtain ⟨hpoisoned, hpops⟩ := Channel.Pop.keepsSound_of_turn hpop hsound
      refine KeepsSound.within ⟨poisoned_withFinished hpoisoned, hpops⟩ (fun _ hp => hp) ?_ ?_
      · rintro (_ | f) _ ⟨⟩ <;> trivial
      · rintro _ _ ⟨⟩
  | delivering left f =>
      obtain ⟨rfl, -, -, hafter⟩ := of_deliver h
      refine ⟨fun _ => rfl, fun stage' hnext => ?_⟩
      cases hafter.symm.trans hnext
      trivial
  | checking phase =>
      obtain ⟨⟨finished, r'⟩, hsize, heq⟩ := Option.map_eq_some_iff.mp h
      cases heq
      obtain ⟨hpoisoned, hphase⟩ := Channel.keepsSound_of_sizeTurn hsize hsound
      refine KeepsSound.within ⟨poisoned_withFinished hpoisoned, hphase⟩ (fun _ hp => hp) ?_ ?_
      · rintro _ _ ⟨⟩
      · rintro _ _ ⟨⟩
  | failing fault =>
      cases h
      exact ⟨fun _ => rfl, by rintro _ ⟨⟩⟩

theorem Await.keepsSound_of_turn {stage : Await κ V E} {r : Turn κ (Await κ V E) Bool}
    (h : stage.turn t choice s = some (s', events, r)) (hsound : stage.IsHale) :
    KeepsSound Await.IsHale s s' r := by
  cases stage with
  | popping p =>
      obtain ⟨finished, marks, r', hpop, rfl, -, rfl⟩ := exists_of_onFinished h
      obtain ⟨hpoisoned, hpops⟩ := Channel.Pop.keepsSound_of_turn hpop hsound
      refine KeepsSound.within ⟨poisoned_withFinished hpoisoned, hpops⟩ (fun _ hp => hp) ?_ ?_
      · rintro (_ | f) _ ⟨⟩
        trivial
      · rintro _ _ ⟨⟩
  | delivering f =>
      obtain ⟨rfl, -, -, hafter⟩ := of_deliver h
      refine ⟨fun _ => rfl, fun stage' hnext => ?_⟩
      cases hafter.symm.trans hnext
      trivial
  | ending outcome =>
      cases outcome <;>
      · cases h
        exact ⟨fun _ => rfl, by rintro _ ⟨⟩⟩

theorem Work.keepsSound_of_turn {w : Work κ V E} {r : Turn κ (Work κ V E) Unit}
    (h : w.turn plan t choice s = some (s', events, r)) (hsound : w.IsHale) :
    KeepsSound Work.IsHale s s' r := by
  cases Work.turned_of_turn h with
  | popped hpop =>
      obtain ⟨hpoisoned, hpops⟩ := Channel.Pop.keepsSound_of_turn hpop hsound
      refine KeepsSound.within ⟨poisoned_withPending hpoisoned, hpops⟩ (fun _ hp => hp) ?_ ?_
      · rintro (_ | _ | _) _ ⟨⟩ <;> trivial
      · rintro _ _ ⟨⟩
        trivial
  | published hpush =>
      obtain ⟨hpoisoned, hplain⟩ := Channel.Push.keepsSound_of_turn hpush hsound
      refine KeepsSound.within ⟨poisoned_withFinished hpoisoned, hplain⟩ (fun _ hp => hp) ?_ ?_
      · rintro _ _ ⟨⟩
        trivial
      · rintro _ _ ⟨⟩
        trivial
  | entered _ _ | began _ _ | returned _ | rested | left | failed _ | died _ =>
      exact ⟨fun l => by cases l <;> rfl, by rintro _ ⟨⟩ <;> trivial⟩

theorem Teardown.keepsSound_of_turn {d : Teardown κ V E}
    {r : Turn κ (Teardown κ V E) (Except Failure Unit)}
    (h : d.turn t choice s = some (s', events, r)) (hsound : d.stage.IsHale) :
    KeepsSound (fun d' : Teardown κ V E => d'.stage.IsHale) s s' r := by
  cases Teardown.turned_of_turn h with
  | claimed => exact ⟨fun l => by cases l <;> rfl, by rintro _ ⟨⟩; trivial⟩
  | closing hstage hvisit =>
      rw [hstage] at hsound
      refine ⟨poisoned_withIntake (Visit.poisoned_of_turn hvisit hsound), ?_⟩
      rintro _ ⟨⟩
      exact Visit.isSound_of_turn (by rintro _ ⟨⟩) (fun _ => ⟨_, rfl⟩) hvisit
  | closed hstage hvisit hnext _ =>
      rw [hstage] at hsound
      refine ⟨poisoned_withIntake (Visit.poisoned_of_turn hvisit hsound), fun d' hd' => ?_⟩
      rw [hnext d' hd']
      trivial
  | clearing hstage hclear =>
      rw [hstage] at hsound
      obtain ⟨hpoisoned, hsound'⟩ := Channel.Clear.keepsSound_of_turn hclear hsound
      refine KeepsSound.within ⟨poisoned_withPending hpoisoned, hsound'⟩ (fun _ hc => hc) ?_ ?_
      · rintro _ _ ⟨⟩
        trivial
      · rintro _ _ ⟨⟩
  | cleared n _ _ | joined n _ _ _ => exact ⟨fun _ => rfl, by rintro _ ⟨⟩; trivial⟩
  | stopping hstage hpush =>
      rw [hstage] at hsound
      obtain ⟨hpoisoned, hplain⟩ := Channel.Push.keepsSound_of_turn hpush hsound
      refine KeepsSound.within ⟨poisoned_withPending hpoisoned, hplain⟩ (fun _ hp => hp) ?_ ?_
      · rintro _ _ ⟨⟩
        trivial
      · rintro _ _ ⟨⟩
  | rested _ _ hnext _ _ =>
      refine ⟨fun _ => rfl, fun d' hd' => ?_⟩
      have hquiet := (hnext d' hd').1
      cases hstage : d'.stage <;> rw [hstage] at hquiet <;> trivial
  | counting hstage hsize _ =>
      rw [hstage] at hsound
      obtain ⟨hpoisoned, hphase⟩ := Channel.keepsSound_of_sizeTurn hsize hsound
      refine KeepsSound.within ⟨poisoned_withFinished hpoisoned, hphase⟩ (fun _ hp => hp) ?_ ?_
      · rintro _ _ ⟨⟩
        trivial
      · rintro _ _ ⟨⟩

theorem HandleUse.keepsSound_of_turn {use : HandleUse κ V E} {r : Turn κ (HandleUse κ V E) Answer}
    (h : use.turn t choice s = some (s', events, r)) (hsound : use.IsHale) :
    KeepsSound HandleUse.IsHale s s' r := by
  cases use with
  | schedule stage =>
      obtain ⟨r', hturn, rfl⟩ := exists_of_nest h
      refine (Schedule.keepsSound_of_turn hturn hsound).within (fun _ hp => hp) ?_ ?_
      · rintro _ _ ⟨⟩
      · rintro _ _ ⟨⟩
  | accepting phase =>
      obtain ⟨⟨intake, progress⟩, hvisit, heq⟩ := Option.map_eq_some_iff.mp h
      cases heq
      refine ⟨poisoned_withIntake (Visit.poisoned_of_turn hvisit hsound), fun use' hnext => ?_⟩
      cases progress with
      | on phase' =>
          cases hnext
          exact Visit.isSound_of_turn (by rintro _ ⟨⟩) (fun _ => ⟨_, rfl⟩) hvisit
      | ended outcome => cases outcome <;> cases hnext

theorem Use.keepsSound_of_turn {use : Use κ V E} {r : Turn κ (Use κ V E) Answer}
    (h : use.turn plan t choice s = some (s', events, r)) (hsound : use.IsHale) :
    KeepsSound Use.IsHale s s' r := by
  cases use with
  | schedule stage =>
      obtain ⟨r', hturn, rfl⟩ := exists_of_nest h
      refine (Schedule.keepsSound_of_turn hturn hsound).within (fun _ hp => hp) ?_ ?_
      · rintro _ _ ⟨⟩
      · rintro _ _ ⟨⟩
  | drain max =>
      cases h
      exact ⟨fun _ => rfl, by rintro _ ⟨⟩; trivial⟩
  | draining stage =>
      obtain ⟨r', hturn, rfl⟩ := exists_of_nest h
      refine (Drain.keepsSound_of_turn hturn hsound).within (fun _ hp => hp) ?_ ?_
      · rintro _ _ ⟨⟩
      · rintro _ _ ⟨⟩
  | await stage =>
      obtain ⟨r', hturn, rfl⟩ := exists_of_nest h
      refine (Await.keepsSound_of_turn hturn hsound).within (fun _ hp => hp) ?_ ?_
      · rintro _ _ ⟨⟩
      · rintro _ _ ⟨⟩
  | pendingSize phase =>
      obtain ⟨⟨pending, r'⟩, hsize, heq⟩ := Option.map_eq_some_iff.mp h
      cases heq
      obtain ⟨hpoisoned, hphase⟩ := Channel.keepsSound_of_sizeTurn hsize hsound
      refine KeepsSound.within ⟨poisoned_withPending hpoisoned, hphase⟩ (fun _ hp => hp) ?_ ?_
      · rintro _ _ ⟨⟩
      · rintro _ _ ⟨⟩
  | finishedSize phase =>
      obtain ⟨⟨finished, r'⟩, hsize, heq⟩ := Option.map_eq_some_iff.mp h
      cases heq
      obtain ⟨hpoisoned, hphase⟩ := Channel.keepsSound_of_sizeTurn hsize hsound
      refine KeepsSound.within ⟨poisoned_withFinished hpoisoned, hphase⟩ (fun _ hp => hp) ?_ ?_
      · rintro _ _ ⟨⟩
      · rintro _ _ ⟨⟩
  | busy =>
      cases h
      exact ⟨fun _ => rfl, by rintro _ ⟨⟩⟩

/-- **Soundness of the locks, one step.** A call of which no visit is on its way out because of a
fault poisons nothing, and goes on so. -/
theorem keepsSound_of_turn {call : Call κ V E} {r : Turn κ (Call κ V E) Answer}
    (h : turn plan t choice s call = some (s', events, r)) (hsound : call.IsHale) :
    KeepsSound Call.IsHale s s' r := by
  cases Call.turned_of_turn h with
  | lent _ _ => exact ⟨fun l => by cases l <;> rfl, by rintro _ ⟨⟩; exact hsound⟩
  | refused _ _ | missed _ _ => exact ⟨fun _ => rfl, by rintro _ ⟨⟩⟩
  | inside hturn =>
      refine (Use.keepsSound_of_turn hturn hsound).within (fun _ hp => hp) ?_ ?_
      · rintro _ _ ⟨⟩
        trivial
      · rintro _ _ ⟨⟩
        trivial
  | answered _ | failed _ => exact ⟨fun l => by cases l <;> rfl, by rintro _ ⟨⟩⟩
  | handle hturn =>
      refine (HandleUse.keepsSound_of_turn hturn hsound).within (fun _ hp => hp) ?_ ?_
      · rintro _ _ ⟨⟩
      · rintro _ _ ⟨⟩
  | taken _ _ _ => exact ⟨fun l => by cases l <;> rfl, by rintro _ ⟨⟩; trivial⟩
  | teardown hturn =>
      refine (Teardown.keepsSound_of_turn hturn hsound).within (fun _ hd => hd) ?_ ?_
      · rintro _ _ ⟨⟩
      · rintro _ _ ⟨⟩
  | work hturn =>
      refine (Work.keepsSound_of_turn hturn hsound).within (fun _ hw => hw) ?_ ?_
      · rintro _ _ ⟨⟩
      · rintro _ _ ⟨⟩

/-! ### All runs -/

theorem isHale_call (request : Request κ V E) : request.call.IsHale := by
  cases request <;> trivial

/-- A fault in code that a call runs does not touch its visits. -/
theorem Call.isHale_resume (call : Call κ V E) (result : Except Fault (Except E V))
    (h : call.IsHale) : (resume call result).IsHale := by
  cases call with
  | inside use =>
      cases use with
      | schedule stage =>
          cases stage with
          | dropped outcome => cases outcome <;> trivial
          | _ => exact h
      | draining stage | await stage =>
          cases result with
          | ok _ => exact h
          | error _ => trivial
      | drain _ | pendingSize _ | finishedSize _ | busy => exact h
  | handle use =>
      cases use with
      | schedule stage =>
          cases stage with
          | dropped outcome => cases outcome <;> trivial
          | _ => exact h
      | accepting _ => exact h
  | teardown d =>
      obtain ⟨reporting, earlier, stage⟩ := d
      cases stage with
      | clearing c => exact Channel.Clear.isSound_resume h result
      | _ => exact h
  | work w =>
      cases w with
      | running _ _ => cases result <;> trivial
      | publishing p => cases p <;> exact h
      | _ => exact h
  | opening _ | closing _ | taking _ => exact h

/-- **No lock is poisoned**, in any state of any run. -/
theorem unpoisoned_of_reach {next : κ → Move κ ω (Request κ V E) Answer (Except E V) ν}
    {world : ω} {codes : List κ}
    {s : State κ ω (Pipeline κ V E) (Call κ V E) Answer (Event V E ν)}
    (h : (machine plan next).Reach (start world codes) s) (l : Lock) :
    poisoned s.shared l = false := by
  have hunpoisoned : ∀ {v : View κ V E ν}, Scene.Reach (library plan) opening v →
      poisoned v.shared l = false := by
    intro v hv
    have hhale : ∀ {v : View κ V E ν}, Scene.Reach (library plan) opening v →
        ∀ t, ∀ call ∈ (v.calls t).all, call.IsHale := by
      intro v hv
      refine hv.all_calls (fun t call hcall => ?_)
        (fun _ ⟨request, heq⟩ => heq ▸ isHale_call request)
        Call.isHale_resume fun _ _ _ _ _ hturn hcall _ hnext =>
          (keepsSound_of_turn hturn hcall).next _ hnext
      rw [eq_of_mem_opening hcall]
      trivial
    refine hv.invariant (P := fun v => poisoned v.shared l = false) ?_ ?_
    · cases l <;> rfl
    · intro t v v' hv ih hstep
      cases moved_of_reach hv hstep with
      | still | noted _ _ | began _ _ | resumed _ _ => exact ih
      | @turned call rest choice s' events r hactive _ hturn _ =>
          have hcall : call ∈ (v.calls t).all := by
            rw [hactive]
            exact List.mem_cons_self
          exact ((keepsSound_of_turn hturn (hhale hv t call hcall)).poisoned_eq l).trans ih
  obtain ⟨v, hv, hshows⟩ := exists_shows h
  rw [← hshows.shared_eq]
  exact hunpoisoned hv

end Pipeline

end Offload
