import Offload.Proofs.Pipeline.Teardown
import Offload.Proofs.Pipeline.Worker

/-!
# The gate

The lock of the intake is owned by whoever is in a stage that **holds** it: a scheduling from its
look at the intake until its task is in the pending channel, a reading, and a teardown that closes
the intake. So the intake cannot close between the look at it and the task, and every task that
is accepted is accepted while the intake is open.

## Main results

* `isSound_of_reach`: every call is in a stage in which such calls can be.
* `gate_of_turn`: what one step of a call does to the lock, to the intake, and to what others
  have found there.
* `gated_of_moved`: who holds the lock owns it, and who has a task to add has found the intake
  open; every step of every thread keeps this.
-/

namespace Offload.Pipeline

variable {κ ω V E ν : Type} {plan : Plan κ} {t u : Tid} {choice : Choice}
  {s s' : Pipeline κ V E} {events : List (Event V E ν)} {call : Call κ V E}
  {r : Turn κ (Call κ V E) Answer}

/-- What shows of a pipeline. -/
abbrev View (κ V E ν : Type) := Scene (Pipeline κ V E) (Call κ V E) (Event V E ν)

/-! ### Stages in which calls can be -/

/-- Whether a part is in a stage in which such parts can be. -/
def Part.IsProper : Part κ V E → Prop
  | .scheduling stage => stage.IsProper
  | .tearing d => d.stage.IsProper
  | .working w => w.IsProper
  | .reading _ | .other => True

/-- Whether a call is in a stage in which such calls can be. -/
structure Call.IsSound (call : Call κ V E) : Prop where
  opens : call.Opens
  proper : call.part.IsProper
  /-- A call on the owner's behalf does not answer for a teardown. -/
  closes : ∀ outcome report, call = .closing outcome → outcome ≠ .ok (.stopped report)

theorem isProper_of_isFresh {part : Part κ V E} (h : part.IsFresh) : part.IsProper := by
  cases h <;> trivial

theorem isProper_resume {part : Part κ V E} (h : part.IsProper)
    (result : Except Fault (Except E V)) : (part.resume result).IsProper := by
  cases part with
  | scheduling stage =>
      cases stage with
      | dropped outcome => cases outcome <;> exact h
      | _ => exact h
  | tearing d =>
      obtain ⟨reporting, earlier, stage⟩ := d
      cases stage <;> exact h
  | working w =>
      cases w with
      | running ticket task => cases result <;> trivial
      | publishing p => cases p <;> exact h
      | _ => exact h
  | reading _ | other => trivial

/-- A call that goes on goes on as a proper part. -/
theorem isProper_nextPart (hsound : call.IsSound)
    (h : turn plan t choice s call = some (s', events, r)) : (nextPart r).IsProper := by
  have hproper := hsound.proper
  cases hpart : call.part with
  | scheduling stage =>
      obtain ⟨r', hturn, hlift⟩ := turn_scheduling hpart h
      rw [hpart] at hproper
      rw [hlift.nextPart_eq]
      cases hnext : r'.next? with
      | none => trivial
      | some stage' =>
          exact Schedule.isProper_of_turn (Schedule.turned_of_turn hturn) hproper stage' hnext
  | tearing d =>
      obtain ⟨r', hturn, hlift⟩ := turn_tearing hpart h
      rw [hpart] at hproper
      rw [hlift.nextPart_eq]
      cases hnext : r'.next? with
      | none => trivial
      | some d' =>
          exact Teardown.isProper_of_turn (Teardown.turned_of_turn hturn) hproper d' hnext
  | working w =>
      obtain ⟨r', hturn, hlift⟩ := turn_working hpart h
      rw [hpart] at hproper
      rw [hlift.nextPart_eq]
      cases hnext : r'.next? with
      | none => trivial
      | some w' => exact Work.isProper_of_turn (Work.turned_of_turn hturn) hproper w' hnext
  | reading phase =>
      obtain ⟨intake, progress, -, -, -, -, -, hnext⟩ := turn_reading hpart h
      rw [hnext]
      cases progress <;> trivial
  | other =>
      rcases turn_other hpart hsound.opens h with ⟨-, -, hfresh⟩ | ⟨-, -, -, reporting, rfl⟩
      · exact isProper_of_isFresh hfresh
      · trivial

/-- A call that has begun never waits for its beginning again. -/
theorem opens_of_next {call' : Call κ V E}
    (h : turn plan t choice s call = some (s', events, r)) (hnext : r.next? = some call') :
    call'.Opens := by
  cases call' with
  | opening use => exact absurd rfl (ne_opening_of_next h hnext use)
  | inside _ | handle _ | teardown _ | work _ | closing _ | taking _ => trivial

/-- A call on the owner's behalf ends with an answer of its own. -/
theorem closes_of_next {outcome : Except Fault Answer}
    (h : turn plan t choice s call = some (s', events, r))
    (hnext : r.next? = some (.closing outcome)) (report : Except Failure Unit) :
    outcome ≠ .ok (.stopped report) := by
  cases Call.turned_of_turn h with
  | @inside _ _ _ r' hturn =>
      cases r' with
      | ret answer =>
          cases hnext
          intro heq
          exact Use.ne_stopped hturn report (Except.ok.inj heq)
      | fail _ =>
          cases hnext
          nofun
      | stay _ | run _ _ | abort => cases hnext
  | @handle _ _ _ r' _ => cases r' <;> cases hnext
  | @teardown _ _ _ r' _ => cases r' <;> cases hnext
  | @work _ _ _ r' _ => cases r' <;> cases hnext
  | lent _ _ | refused _ _ | answered _ | failed _ | missed _ _ | taken _ _ _ => cases hnext

/-- Calls begin in a stage in which such calls can be. -/
theorem isSound_call (request : Request κ V E) : request.call.IsSound := by
  refine ⟨?_, isProper_of_isFresh (isFresh_call request), fun outcome report heq => ?_⟩
  · cases request with
    | scheduling job => exact ⟨job, rfl⟩
    | _ => trivial
  · cases request <;> cases heq

/-- Calls go on after code in a stage in which such calls can be. -/
theorem Call.IsSound.resume (hsound : call.IsSound) (result : Except Fault (Except E V)) :
    (resume call result).IsSound := by
  refine ⟨?_, ?_, fun outcome report heq => ?_⟩
  · cases call with
    | opening use => exact hsound.opens
    | _ => trivial
  · rw [part_resume]
    exact isProper_resume hsound.proper result
  · cases call with
    | closing outcome' => exact hsound.closes outcome report heq
    | _ => cases heq

/-- Calls go on in a stage in which such calls can be. -/
theorem Call.IsSound.next {call' : Call κ V E} (hsound : call.IsSound)
    (hturn : turn plan t choice s call = some (s', events, r)) (hnext : r.next? = some call') :
    call'.IsSound := by
  refine ⟨opens_of_next hturn hnext, ?_, fun outcome report heq =>
    closes_of_next hturn (heq ▸ hnext) report⟩
  have hproper := isProper_nextPart hsound hturn
  rw [nextPart, hnext] at hproper
  exact hproper

/-- **Soundness of calls.** In every reachable scene, every call is in a stage in which such
calls can be. -/
theorem isSound_of_reach {v₀ v : View κ V E ν} (h : Scene.Reach (library plan) v₀ v)
    (hstart : ∀ t, ∀ call ∈ (v₀.calls t).all, call.IsSound) :
    ∀ t, ∀ call ∈ (v.calls t).all, call.IsSound :=
  h.all_calls hstart (fun _ ⟨request, heq⟩ => heq ▸ isSound_call request)
    (fun _ result hsound => hsound.resume result)
    fun _ _ _ _ _ hturn hsound _ hnext => hsound.next hturn hnext

/-! ### The lock of the intake -/

namespace Part

/-- Whether a part at this stage owns the lock of the intake. -/
def holds : Part κ V E → Bool
  | .scheduling stage => stage.holds
  | .reading phase => phase.owns
  | .tearing d => d.stage.holds
  | .working _ | .other => false

/-- The task that a part has yet to add. -/
def ahead : Part κ V E → Option (Entry κ V E)
  | .scheduling stage => stage.ahead
  | .reading _ | .tearing _ | .working _ | .other => none

theorem holds_resume (part : Part κ V E) (result : Except Fault (Except E V)) :
    (part.resume result).holds = part.holds := by
  cases part with
  | scheduling stage =>
      cases stage with
      | dropped outcome => cases outcome <;> rfl
      | _ => rfl
  | tearing d =>
      obtain ⟨reporting, earlier, stage⟩ := d
      cases stage <;> rfl
  | reading _ | working _ | other => rfl

/-- Whoever has a task to add holds the lock. -/
theorem holds_of_ahead {part : Part κ V E} (h : part.ahead ≠ none) : part.holds = true := by
  cases part with
  | scheduling stage =>
      cases stage with
      | pushing p => rfl
      | _ => exact absurd rfl h
  | reading _ | tearing _ | working _ | other => exact absurd rfl h

end Part

theorem holds_of_isFresh {part : Part κ V E} (h : part.IsFresh) :
    part.holds = false ∧ part.ahead = none := by
  cases h <;> exact ⟨rfl, rfl⟩

/-- What one step of a call of thread `t` does at the gate: whoever goes on holding the lock
owns it, and has found the intake open if it has a task to add; nobody waits for code in a stage
that holds the lock; and the others lose neither the lock nor what they have found. -/
structure Gate (t : Tid) (s s' : Pipeline κ V E) (r : Turn κ (Call κ V E) Answer) : Prop where
  owner : (nextPart r).holds = true → s'.intake.owner = some t
  found : (nextPart r).ahead ≠ none → s'.intake.value = true
  run : ∀ code call, r = .run code call → call.part.holds = false
  others : ∀ u, u ≠ t → s.intake.owner = some u →
    s'.intake.owner = some u ∧ s'.intake.value = s.intake.value

/-- What a part does at the gate, its call does. -/
theorem Gate.of_lifted {σ β : Type} {wrap : σ → Part κ V E} {r' : Turn κ σ β}
    (hlift : Lifted wrap r' r)
    (howner : ∀ p, r'.next? = some p → (wrap p).holds = true → s'.intake.owner = some t)
    (hfound : ∀ p, r'.next? = some p → (wrap p).ahead ≠ none → s'.intake.value = true)
    (hrun : ∀ code p, r' = .run code p → (wrap p).holds = false)
    (hothers : ∀ u, u ≠ t → s.intake.owner = some u →
      s'.intake.owner = some u ∧ s'.intake.value = s.intake.value) : Gate t s s' r := by
  refine ⟨?_, ?_, ?_, hothers⟩
  · rw [hlift.nextPart_eq]
    cases hnext : r'.next? with
    | none => nofun
    | some p => exact howner p hnext
  · rw [hlift.nextPart_eq]
    cases hnext : r'.next? with
    | none => exact fun hne => absurd rfl hne
    | some p => exact hfound p hnext
  · rintro code call rfl
    obtain ⟨p, rfl⟩ := hlift.run code call rfl
    rw [show call.part = wrap p from hlift.nextPart_eq]
    exact hrun code p rfl

/-- A visit to the intake leaves it alone while another thread owns the lock. -/
theorem others_of_visit {α : Type} {v : Visit Bool α} {phase : Phase α} {intake : Monitor Bool}
    {progress : Progress α} (h : v.turn t choice s.intake phase = some (intake, progress))
    (hown : phase.owns = true → s.intake.owner = some t) :
    ∀ u, u ≠ t → s.intake.owner = some u →
      intake.owner = some u ∧ intake.value = s.intake.value := by
  intro u hu howner
  refine ⟨(Visit.owner_of_turn h hown).2 u hu howner, ?_⟩
  rcases Visit.value_of_turn h with ⟨hvalue, -, -⟩ | ⟨again, rfl, -, -, -⟩
  · exact hvalue
  · rw [hown rfl] at howner
    exact absurd (Option.some.inj howner).symm hu

/-- A scheduling at the gate. -/
theorem gate_scheduling {stage : Schedule κ V E}
    {r' : Turn κ (Schedule κ V E) (Except Failure Unit)}
    (h : Schedule.Turned t choice s stage s' events r') (hlift : Lifted .scheduling r' r)
    (hproper : stage.IsProper) (hown : stage.holds = true → s.intake.owner = some t)
    (hfound : stage.ahead ≠ none → s.intake.value = true) : Gate t s s' r := by
  have hothers : stage.holds = true → ∀ u, u ≠ t → s.intake.owner ≠ some u := by
    intro hholds u hu howner
    rw [hown hholds] at howner
    exact hu (Option.some.inj howner).symm
  cases h with
  | passed _ _ hpassed _ =>
      refine .of_lifted hlift (fun stage' hnext hholds => ?_) (fun stage' hnext hahead => ?_)
        (fun code stage' hrun => ?_) fun u _ howner => ⟨howner, rfl⟩
      · cases (hpassed stage' hnext).1.symm.trans hholds
      · exact absurd (hpassed stage' hnext).2.1 hahead
      · subst hrun
        exact (hpassed stage' rfl).1
  | entered task hfree =>
      refine .of_lifted hlift (fun _ _ _ => rfl) ?_ (fun _ _ => nofun) fun u _ howner => ?_
      · rintro stage' ⟨⟩ hahead
        exact absurd rfl hahead
      · rw [hfree] at howner
        cases howner
  | admitted task hopen =>
      exact .of_lifted hlift (fun _ _ _ => hown rfl) (fun _ _ _ => hopen) (fun _ _ => nofun)
        fun u hu howner => absurd howner (hothers rfl u hu)
  | refused task _ =>
      refine .of_lifted hlift (fun _ _ _ => hown rfl) ?_ (fun _ _ => nofun)
        fun u hu howner => absurd howner (hothers rfl u hu)
      rintro stage' ⟨⟩ hahead
      exact absurd rfl hahead
  | @pushedOn p p' _ _ hpush =>
      refine .of_lifted hlift (fun _ _ _ => hown rfl) ?_ (fun _ _ => nofun)
        fun u hu howner => absurd howner (hothers rfl u hu)
      rintro stage' ⟨⟩ hahead
      obtain ⟨entry, hentry⟩ := Option.ne_none_iff_exists'.mp hahead
      refine hfound ?_
      rw [show (Schedule.pushing p).ahead = some entry from
        (Channel.Push.ahead_of_next hpush hproper.1 rfl hentry).1]
      exact Option.some_ne_none entry
  | pushedOver outcome _ _ =>
      refine .of_lifted hlift (fun _ _ _ => hown rfl) ?_ (fun _ _ => nofun)
        fun u hu howner => absurd howner (hothers rfl u hu)
      rintro stage' ⟨⟩ hahead
      exact absurd rfl hahead
  | left _ _ _ hpassed _ hrun =>
      refine .of_lifted hlift (fun stage' hnext hholds => ?_) (fun stage' hnext hahead => ?_)
        (fun code stage' hr => absurd hr (hrun code stage'))
        fun u hu howner => absurd howner (hothers rfl u hu)
      · cases (hpassed stage' hnext).1.symm.trans hholds
      · exact absurd (hpassed stage' hnext).2.1 hahead

/-- A teardown at the gate. -/
theorem gate_tearing {d : Teardown κ V E} {r' : Turn κ (Teardown κ V E) (Except Failure Unit)}
    (h : Teardown.Turned t choice s d s' events r') (hlift : Lifted .tearing r' r)
    (hown : d.stage.holds = true → s.intake.owner = some t) : Gate t s s' r := by
  have hnone : ∀ d' : Teardown κ V E, r'.next? = some d' → (Part.tearing d').ahead ≠ none →
      s'.intake.value = true := fun _ _ hahead => absurd rfl hahead
  have hquiet : ∀ d' : Teardown κ V E, d'.stage.isQuiet = true → d'.stage.holds = false := by
    intro d' h
    cases hd : d'.stage <;> rw [hd] at h <;> first | rfl | cases h
  cases h with
  | claimed _ _ =>
      refine .of_lifted hlift ?_ hnone (fun _ _ => nofun) fun u _ howner => ⟨howner, rfl⟩
      rintro d' ⟨⟩ hholds
      cases hholds
  | closing hd hvisit =>
      have hown' := fun howns => hown (by rw [hd]; exact howns)
      refine .of_lifted hlift ?_ hnone (fun _ _ => nofun) (others_of_visit hvisit hown')
      rintro d' ⟨⟩ hholds
      exact (Visit.owner_of_turn hvisit hown').1 hholds
  | closed hd hvisit hnext hlive =>
      have hown' := fun howns => hown (by rw [hd]; exact howns)
      refine .of_lifted hlift (fun d' hd' hholds => ?_) hnone (fun code d' hrun => ?_)
        (others_of_visit hvisit hown')
      · rw [hnext d' hd'] at hholds
        cases hholds
      · subst hrun
        rw [hnext d' rfl]
        rfl
  | @clearing _ _ _ r' _ _ =>
      refine .of_lifted hlift ?_ hnone ?_ fun u _ howner => ⟨howner, rfl⟩
      · intro d' hd' hholds
        cases r' <;> cases hd' <;> cases hholds
      · intro code d' hrun
        cases r' <;> cases hrun
        rfl
  | cleared n _ _ =>
      refine .of_lifted hlift ?_ hnone (fun _ _ => nofun) fun u _ howner => ⟨howner, rfl⟩
      rintro d' ⟨⟩ hholds
      cases hholds
  | @stopping _ _ _ _ r' _ _ =>
      refine .of_lifted hlift ?_ hnone ?_ fun u _ howner => ⟨howner, rfl⟩
      · intro d' hd' hholds
        cases r' <;> cases hd' <;> cases hholds
      · intro code d' hrun
        cases r' <;> cases hrun
        rfl
  | rested _ _ hnext _ hrun =>
      refine .of_lifted hlift (fun d' hd' hholds => ?_) hnone
        (fun code d' hr => absurd hr (hrun code d')) fun u _ howner => ⟨howner, rfl⟩
      cases (hquiet d' (hnext d' hd').1).symm.trans hholds
  | joined n _ _ _ =>
      refine .of_lifted hlift ?_ hnone (fun _ _ => nofun) fun u _ howner => ⟨howner, rfl⟩
      rintro d' ⟨⟩ hholds
      cases hholds
  | @counting _ _ _ _ _ r' _ _ _ =>
      refine .of_lifted hlift ?_ hnone ?_ fun u _ howner => ⟨howner, rfl⟩
      · intro d' hd' hholds
        cases r' <;> cases hd' <;> cases hholds
      · intro code d' hrun
        cases r' <;> cases hrun
        rfl

/-- **The gate, one step of a call.** -/
theorem gate_of_turn (hsound : call.IsSound)
    (h : turn plan t choice s call = some (s', events, r))
    (hown : call.part.holds = true → s.intake.owner = some t)
    (hfound : call.part.ahead ≠ none → s.intake.value = true) : Gate t s s' r := by
  have hproper := hsound.proper
  cases hpart : call.part with
  | scheduling stage =>
      obtain ⟨r', hturn, hlift⟩ := turn_scheduling hpart h
      rw [hpart] at hproper hown hfound
      exact gate_scheduling (Schedule.turned_of_turn hturn) hlift hproper hown hfound
  | tearing d =>
      obtain ⟨r', hturn, hlift⟩ := turn_tearing hpart h
      rw [hpart] at hown
      exact gate_tearing (Teardown.turned_of_turn hturn) hlift hown
  | working w =>
      obtain ⟨r', hturn, hlift⟩ := turn_working hpart h
      obtain ⟨hintake, -⟩ := Work.frame_of_turn (Work.turned_of_turn hturn)
      exact .of_lifted hlift (fun _ _ => nofun) (fun _ _ hahead => absurd rfl hahead)
        (fun _ _ _ => rfl) fun u _ howner => ⟨by rw [hintake]; exact howner, by rw [hintake]⟩
  | reading phase =>
      obtain ⟨intake, progress, hvisit, rfl, -, -, hrun, hnext⟩ := turn_reading hpart h
      rw [hpart] at hown
      refine ⟨?_, ?_, fun code call hr => absurd hr (hrun code call),
        others_of_visit hvisit hown⟩
      · rw [hnext]
        cases progress with
        | on phase' => exact (Visit.owner_of_turn hvisit hown).1
        | ended _ => nofun
      · rw [hnext]
        cases progress <;> exact fun hne => absurd rfl hne
  | other =>
      rcases turn_other hpart hsound.opens h with ⟨haside, -, hnext⟩ | ⟨-, rfl, -, reporting, rfl⟩
      · refine ⟨?_, ?_, ?_, fun u _ howner => ?_⟩
        · rw [(holds_of_isFresh hnext).1]
          nofun
        · rw [(holds_of_isFresh hnext).2]
          exact fun hne => absurd rfl hne
        · rintro code call rfl
          exact (holds_of_isFresh hnext).1
        · rw [haside.intake_eq]
          exact ⟨howner, rfl⟩
      · exact ⟨nofun, fun hne => absurd rfl hne, fun _ _ => nofun, fun u _ howner => ⟨howner, rfl⟩⟩

/-! ### Aborts -/

/-- Only a broken clear of a teardown aborts, and it leaves everything as it was. -/
theorem eq_of_abort (hsound : call.IsSound)
    (h : turn plan t choice s call = some (s', events, .abort)) : s' = s ∧ events = [] := by
  cases hpart : call.part with
  | scheduling stage =>
      obtain ⟨r', hturn, hlift⟩ := turn_scheduling hpart h
      obtain rfl := hlift.abort rfl
      cases Schedule.turned_of_turn hturn with
      | passed _ _ _ hlive | left _ _ _ _ hlive _ => exact absurd rfl hlive
  | tearing d =>
      obtain ⟨r', hturn, hlift⟩ := turn_tearing hpart h
      have habort := hlift.abort rfl
      cases Teardown.turned_of_turn hturn with
      | @clearing c pending marks r' hd hclear =>
          have hr' : r' = .abort := by
            cases r' <;> first | rfl | cases habort
          obtain rfl := Channel.Clear.broken_of_abort hclear hr'
          cases hclear
          exact ⟨rfl, rfl⟩
      | @stopping _ _ _ _ r' _ hpush =>
          have hlive := Channel.Push.turn_live hpush
          cases r' <;> first | exact absurd rfl hlive | cases habort
      | @counting _ _ _ _ _ r' _ hsize _ =>
          have hlive := Channel.sizeTurn_live hsize
          cases r' <;> first | exact absurd rfl hlive | cases habort
      | closed _ _ _ hlive | rested _ _ _ hlive _ => exact absurd habort hlive
      | claimed _ _ | closing _ _ | cleared _ _ _ | joined _ _ _ _ => cases habort
  | working w =>
      obtain ⟨r', hturn, hlift⟩ := turn_working hpart h
      have habort := hlift.abort rfl
      rcases Work.health_of_turn (Work.turned_of_turn hturn) with ⟨⟨w', hnext, -⟩, -⟩ | ⟨-, hend⟩
      · rw [habort] at hnext
        cases hnext
      · rcases hend with ⟨rfl, -⟩ | ⟨fault, rfl, -⟩ <;>
        · cases hturn
          cases habort
  | reading phase =>
      obtain ⟨_, _, -, -, -, hlive, -⟩ := turn_reading hpart h
      exact absurd rfl hlive
  | other =>
      rcases turn_other hpart hsound.opens h with ⟨-, hlive, -⟩ | ⟨-, -, -, reporting, hr⟩
      · exact absurd rfl hlive
      · cases hr

/-- What one step of thread `t` may be, as far as it shows. An abort shows nothing. -/
inductive Moved (plan : Plan κ) (t : Tid) (v : View κ V E ν) : View κ V E ν → Prop where
  | still : Moved plan t v v
  | noted (note : ν) : v.InCode (library plan) t →
      Moved plan t v { v with history := v.history ++ [(t, .note note)] }
  | began (request : Request κ V E) : v.InCode (library plan) t →
      Moved plan t v (v.withCalls t ⟨some request.call, (v.calls t).waiting⟩)
  | resumed {call : Call κ V E} {rest : List (Call κ V E)}
      (result : Except Fault (Except E V)) : v.calls t = ⟨none, call :: rest⟩ →
      Moved plan t v (v.withCalls t ⟨some (resume call result), rest⟩)
  | turned {call : Call κ V E} {rest : List (Call κ V E)} {choice : Choice}
      {s' : Pipeline κ V E} {events : List (Event V E ν)} {r : Turn κ (Call κ V E) Answer} :
      v.calls t = ⟨some call, rest⟩ → call.IsSound →
      turn plan t choice v.shared call = some (s', events, r) → r ≠ .abort →
      Moved plan t v
        { shared := s'
          history := v.history ++ events.map (Prod.mk t)
          calls := Function.update v.calls t (Calls.after call rest r) }

/-- **Inversion.** Every step shows as one of these. -/
theorem moved_of_step {v v' : View κ V E ν} (h : Scene.Step (library plan) t v v')
    (hsound : ∀ t, ∀ call ∈ (v.calls t).all, call.IsSound) : Moved plan t v v' := by
  cases h with
  | noted hcode hnote =>
      obtain ⟨note, rfl⟩ := hnote
      exact .noted note hcode
  | called hcode hbegins =>
      obtain ⟨request, rfl⟩ := hbegins
      exact .began request hcode
  | resumed result hwaits => exact .resumed result hwaits
  | @turned call rest choice s' events r hactive hturn =>
      have hcall : call.IsSound := hsound t call (by rw [hactive]; exact List.mem_cons_self)
      by_cases habort : r = .abort
      · subst habort
        obtain ⟨rfl, rfl⟩ := eq_of_abort hcall hturn
        have hsame : Function.update v.calls t ⟨some call, rest⟩ = v.calls := by
          rw [← hactive, Function.update_eq_self]
        rw [Calls.after, hsame]
        have hnil : v.history ++ ([] : List (Event V E ν)).map (Prod.mk t) = v.history :=
          List.append_nil _
        rw [hnil]
        exact .still
      · exact .turned hactive hcall hturn habort

/-- A step of one thread leaves the calls of the others alone. -/
theorem Moved.calls_ne {v v' : View κ V E ν} {u : Tid} (h : Moved plan t v v') (hu : u ≠ t) :
    v'.calls u = v.calls u := by
  cases h with
  | still | noted _ _ => rfl
  | began _ _ | resumed _ _ | turned _ _ _ _ => exact Function.update_of_ne hu _ _

/-- How a call of thread `u` has come to where it is by a step of thread `t`. -/
inductive Came (plan : Plan κ) (t u : Tid) (v v' : View κ V E ν) (call' : Call κ V E) : Prop where
  | stood : call' ∈ (v.calls u).all → Came plan t u v v' call'
  | began (request : Request κ V E) : u = t → call' = request.call → Came plan t u v v' call'
  /-- The code has ended that it ran. -/
  | resumed {call : Call κ V E} {rest : List (Call κ V E)} (result : Except Fault (Except E V)) :
      u = t → v.calls t = ⟨none, call :: rest⟩ → call' = resume call result →
      v' = v.withCalls t ⟨some call', rest⟩ → Came plan t u v v' call'
  | turned {call : Call κ V E} {rest : List (Call κ V E)} {choice : Choice}
      {events : List (Event V E ν)} {r : Turn κ (Call κ V E) Answer} :
      u = t → v.calls t = ⟨some call, rest⟩ → call.IsSound →
      turn plan t choice v.shared call = some (v'.shared, events, r) → r.next? = some call' →
      v'.history = v.history ++ events.map (Prod.mk t) → Came plan t u v v' call'

/-- **Inversion.** Every call has come to where it is in one of these ways. -/
theorem came_of_moved {v v' : View κ V E ν} {u : Tid} {call' : Call κ V E}
    (h : Moved plan t v v') (hcall' : call' ∈ (v'.calls u).all) : Came plan t u v v' call' := by
  by_cases hu : u = t
  · subst hu
    cases h with
    | still | noted _ _ => exact .stood hcall'
    | began request hcode =>
        rw [Scene.withCalls_calls, Function.update_self] at hcall'
        rcases List.mem_cons.mp hcall' with heq | hold
        · exact .began request rfl heq
        · exact .stood (List.mem_append_right _ hold)
    | @resumed call rest result hwaits =>
        rw [Scene.withCalls_calls, Function.update_self] at hcall'
        rcases List.mem_cons.mp hcall' with rfl | hold
        · exact .resumed result rfl hwaits rfl rfl
        · refine .stood ?_
          rw [hwaits]
          exact List.mem_cons_of_mem _ hold
    | @turned call rest choice s' events r hactive hsound hturn hlive =>
        simp only [Function.update_self] at hcall'
        rw [Calls.all_after hlive, List.mem_append, Option.mem_toList] at hcall'
        rcases hcall' with hnext | hold
        · exact .turned rfl hactive hsound hturn hnext rfl
        · refine .stood ?_
          rw [hactive]
          exact List.mem_cons_of_mem _ hold
  · rw [h.calls_ne hu] at hcall'
    exact .stood hcall'

/-! ### All runs -/

/-- What holds at the gate at every moment: nobody waits for code in a stage that holds the lock;
whoever is in such a stage owns the lock; and whoever has a task to add has found the intake
open, and it is. -/
structure Gated (v : View κ V E ν) : Prop where
  waiting : ∀ t, ∀ call ∈ (v.calls t).waiting, call.part.holds = false
  owner : ∀ t call, (v.calls t).active = some call → call.part.holds = true →
    v.shared.intake.owner = some t
  found : ∀ t call, (v.calls t).active = some call → call.part.ahead ≠ none →
    v.shared.intake.value = true

/-- A call that begins, or goes on after code, holds nothing and has nothing to add. -/
theorem Gated.of_idle {v : View κ V E ν} {rest : List (Call κ V E)} (hv : Gated v)
    (hcall : call.part.holds = false) (hrest : ∀ c ∈ rest, c.part.holds = false) :
    Gated (v.withCalls t ⟨some call, rest⟩) := by
  have hactive : ∀ u c, ((v.withCalls t ⟨some call, rest⟩).calls u).active = some c →
      c.part.holds = true → (v.calls u).active = some c := by
    intro u c hc hholds
    by_cases hu : u = t
    · subst hu
      simp only [Scene.withCalls_calls, Function.update_self, Option.some.injEq] at hc
      rw [← hc, hcall] at hholds
      cases hholds
    · simpa [Function.update_of_ne hu] using hc
  refine ⟨fun u c hc => ?_, fun u c hc hholds => ?_, fun u c hc hahead => ?_⟩
  · by_cases hu : u = t
    · subst hu
      simp only [Scene.withCalls_calls, Function.update_self] at hc
      exact hrest c hc
    · rw [Scene.withCalls_calls, Function.update_of_ne hu] at hc
      exact hv.waiting u c hc
  · exact hv.owner u c (hactive u c hc hholds) hholds
  · exact hv.found u c (hactive u c hc (Part.holds_of_ahead hahead)) hahead

/-- A call has made a step: the gate after that. -/
theorem gated_of_turned {v : View κ V E ν} {rest : List (Call κ V E)} (hv : Gated v)
    (hactive : v.calls t = ⟨some call, rest⟩) (hsound : call.IsSound)
    (h : turn plan t choice v.shared call = some (s', events, r)) (hlive : r ≠ .abort) :
    Gated { shared := s', history := v.history ++ events.map (Prod.mk t),
            calls := Function.update v.calls t (Calls.after call rest r) } := by
  have hgate : Gate t v.shared s' r :=
    gate_of_turn hsound h (hv.owner t call (by rw [hactive])) (hv.found t call (by rw [hactive]))
  have hself : ∀ c, (Calls.after call rest r).active = some c → nextPart r = c.part := by
    intro c hc
    cases r <;> cases hc <;> first | rfl | exact absurd rfl hlive
  refine ⟨fun u c hc => ?_, fun u c hc hholds => ?_, fun u c hc hahead => ?_⟩
  · by_cases hu : u = t
    · subst hu
      simp only [Function.update_self] at hc
      have hwaiting := hv.waiting u
      rw [hactive] at hwaiting
      cases r with
      | run code call' =>
          rcases List.mem_cons.mp hc with rfl | hc
          · exact hgate.run code c rfl
          · exact hwaiting c hc
      | stay _ | ret _ | fail _ | abort => exact hwaiting c hc
    · simp only [Function.update_of_ne hu] at hc
      exact hv.waiting u c hc
  · by_cases hu : u = t
    · subst hu
      simp only [Function.update_self] at hc
      rw [← hself c hc] at hholds
      exact hgate.owner hholds
    · simp only [Function.update_of_ne hu] at hc
      exact (hgate.others u hu (hv.owner u c hc hholds)).1
  · by_cases hu : u = t
    · subst hu
      simp only [Function.update_self] at hc
      rw [← hself c hc] at hahead
      exact hgate.found hahead
    · simp only [Function.update_of_ne hu] at hc
      rw [(hgate.others u hu (hv.owner u c hc (Part.holds_of_ahead hahead))).2]
      exact hv.found u c hc hahead

/-- **The gate, one step.** -/
theorem gated_of_moved {v v' : View κ V E ν} (h : Moved plan t v v') (hv : Gated v) :
    Gated v' := by
  cases h with
  | still => exact hv
  | noted _ _ => exact ⟨hv.waiting, hv.owner, hv.found⟩
  | began request _ => exact hv.of_idle (holds_of_isFresh (isFresh_call request)).1 (hv.waiting t)
  | @resumed call rest result hwaits =>
      have hwaiting := hv.waiting t
      rw [hwaits] at hwaiting
      refine hv.of_idle ?_ fun c hc => hwaiting c (List.mem_cons_of_mem _ hc)
      rw [part_resume, Part.holds_resume]
      exact hwaiting call List.mem_cons_self
  | turned hactive hsound hturn hlive => exact gated_of_turned hv hactive hsound hturn hlive

end Offload.Pipeline
