import Offload.Proofs.Pipeline.Draining
import Offload.Proofs.Pipeline.Filing
import Offload.Proofs.Twins

/-!
# Who is admitted

Whoever schedules a job, through the owner or through a handle and at whatever moment of the
pipeline's life, is answered by what the job is and by what the intake says at one moment: a job
without a body is refused in any case, and any other if no task is accepted when the call looks. A
call that refuses a job leaves the pipeline as it was, and runs nothing but the job's destructor.

Others may do anything between two steps of the call, the destructor among them, so it is the steps
of the call itself that are watched.

## Main definitions

* `filing`: the observer of a scheduling or a reading.
* `Admission`: what holds of all of them from a state on.

## Main results

* `closes_of_step`: only a teardown closes the intake.
* `Filing.OnWay.of_own`, `Filing.OnWay.of_other`: one step of the call's thread, and of another.
* `admitted_or_unchanged`: what a scheduling answers, and what it leaves alone.
-/

namespace Offload.Pipeline

variable {κ ω V E ν : Type} {plan : Plan κ} {t u : Tid} {choice : Choice}

/-! ### The intake -/

/-- A step of a call leaves the intake as it is, unless it is the step in which a teardown closes
it. -/
theorem closes_of_turn {s s' : Pipeline κ V E} {events : List (Event V E ν)} {call : Call κ V E}
    {r : Turn κ (Call κ V E) Answer} (hsound : call.IsSound)
    (h : turn plan t choice s call = some (s', events, r))
    (hfound : call.part.ahead ≠ none → s.intake.value = true) :
    s'.intake.value = s.intake.value ∨ ∃ d again, call = .teardown d ∧
      d.stage = .closing (.acting again) ∧ s'.intake.value = false ∧ events = [.closed] := by
  cases htearing : call.part.tearing? with
  | none => exact .inl (tame_of_turn hsound htearing h hfound).1.value_eq
  | some d =>
      have hpart := eq_tearing_of_tearing? htearing
      have hcall : call = .teardown d := by
        cases call with
        | teardown d' => exact congrArg _ (Part.tearing.inj hpart)
        | inside use | handle use => cases use <;> cases hpart
        | opening _ | closing _ | taking _ | work _ => cases hpart
      obtain ⟨r', hturn, -⟩ := turn_tearing hpart h
      cases Teardown.turned_of_turn hturn with
      | closing hstage hvisit =>
          rcases Visit.value_of_turn hvisit with ⟨hvalue, -, -⟩ | ⟨again, rfl, hvalue, -, hanswer⟩
          · exact .inl hvalue
          · exact .inr ⟨d, again, hcall, hstage, hvalue, by rw [hanswer]; rfl⟩
      | closed _ hvisit _ _ =>
          rcases Visit.value_of_turn hvisit with ⟨hvalue, -, -⟩ | ⟨again, hphase, -⟩
          · exact .inl hvalue
          · cases hphase
      | _ => exact .inl rfl

section Runs

variable {next : κ → Move κ ω (Request κ V E) Answer (Except E V) ν} {world : ω} {codes : List κ}
  {s s' : State κ ω (Pipeline κ V E) (Call κ V E) Answer (Event V E ν)}
  {frames : Stack κ (Call κ V E) Answer} {call : Call κ V E} {request : Request κ V E}
  {x : Filing κ V E ν}

/-- **Only a teardown closes the intake**, in the step that notes it. -/
theorem closes_of_step (h : (machine plan next).Reach (start world codes) s)
    (hstep : (machine plan next).step t choice s = some s') :
    s'.shared.intake.value = s.shared.intake.value ∨ ∃ d again below,
      s.stack t = .call (.teardown d) :: below ∧ d.stage = .closing (.acting again) ∧
        s'.shared.intake.value = false ∧ s'.history = s.history ++ [(t, .closed)] := by
  have hlive := (Machine.stepped_of_step hstep).1
  cases (Machine.stepped_of_step hstep).2 with
  | ended _ _ | noted _ _ | acted _ | called _ _ => exact .inl rfl
  | @turned call rest _ _ _ _ hstack _ _ =>
      obtain ⟨shared, events, r, hturn, rfl, hhistory, -⟩ := Machine.turn_of_step hstack hstep
      obtain ⟨v, hv, hshows⟩ := exists_shows h
      have hcalls : v.calls t = callsOf (.call call :: rest) := by
        rw [hshows.calls_eq hlive, hstack]
      have hsound : call.IsSound := by
        refine isSound_of_opening hv t call ?_
        rw [hcalls]
        exact List.mem_cons_self
      have hfound := (orderly_of_reach hv).gated.found t call (by rw [hcalls]; rfl)
      rw [hshows.shared_eq] at hfound
      refine (closes_of_turn hsound hturn hfound).imp_right ?_
      rintro ⟨d, again, rfl, hstage, hvalue, rfl⟩
      exact ⟨d, again, rest, hstack, hstage, hvalue, hhistory⟩

/-- Once the intake has closed, it stays closed. -/
theorem closed_of_closed (h : (machine plan next).Reach (start world codes) s)
    (hclosed : s.shared.intake.value = false) (h' : (machine plan next).Reach s s') :
    s'.shared.intake.value = false := by
  induction h' with
  | start => exact hclosed
  | step u choice hreach hstep ih =>
      rcases closes_of_step (h.trans hreach) hstep with hsame | ⟨_, _, _, _, _, hvalue, _⟩
      · exact hsame.trans ih
      · exact hvalue

/-! ### The observer -/

/-- The code that runs right above a call that a thread makes above its first `depth` layers. -/
def codeAbove? (depth : Nat) : Stack κ (Call κ V E) Answer → Option κ
  | .code position :: rest => if rest.length = depth + 1 then some position else none
  | _ => none

theorem codeAbove?_afterTurn (frames : Stack κ (Call κ V E) Answer)
    (r : Turn κ (Call κ V E) Answer) :
    codeAbove? frames.length (Machine.afterTurn frames r) = r.code? := by
  have hnone : ∀ outcome, codeAbove? frames.length (Machine.finishCall outcome frames) = none := by
    intro outcome
    rcases frames with _ | ⟨_ | _ | _, below⟩
    · rfl
    all_goals first | rfl | exact if_neg (by rw [List.length_cons]; omega)
  cases r with
  | stay _ | abort => rfl
  | run _ _ => exact if_pos (List.length_cons ..)
  | ret _ | fail _ => exact hnone _

/-- The observer of a scheduling or a reading that thread `t` makes right above its first `depth`
layers. -/
def filing (next : κ → Move κ ω (Request κ V E) Answer (Except E V) ν) (t : Tid) (depth : Nat) :
    Machine.Observer κ ω (Pipeline κ V E) (Call κ V E) Answer (Event V E ν) (Filing κ V E ν) :=
  fun u s s' x =>
    if u = t then
      if (s.stack t).length = depth + 1 then
        x.own ((callsOf (s.stack t)).active.any Call.looksIn) s.shared s'.shared
          ((s'.history.drop s.history.length).map Prod.snd) (codeAbove? depth (s'.stack t))
      else x.aside (endsIn? next (depth + 1) (s.stack t))
    else x

/-- A step of the call itself is seen as such. -/
theorem filing_own {events : List (Event V E ν)} {r : Turn κ (Call κ V E) Answer}
    (hstack : s.stack t = .call call :: frames)
    (hhistory : s'.history = s.history ++ events.map (Prod.mk t))
    (hafter : s'.stack t = Machine.afterTurn frames r) (x : Filing κ V E ν) :
    filing next t frames.length t s s' x =
      x.own call.looksIn s.shared s'.shared events r.code? := by
  have hlength : (s.stack t).length = frames.length + 1 := by rw [hstack]; rfl
  have hevents : (s'.history.drop s.history.length).map Prod.snd = events := by
    rw [hhistory, List.drop_left, List.map_map]
    exact List.map_id events
  rw [filing, if_pos rfl, if_pos hlength, hevents, hafter, codeAbove?_afterTurn, hstack]
  rfl

/-- So is a step of code above it. -/
theorem filing_above {above : Stack κ (Call κ V E) Answer} (hne : above ≠ [])
    (hstack : s.stack t = above ++ .call call :: frames) (x : Filing κ V E ν) :
    filing next t frames.length t s s' x =
      x.aside (endsIn? next (frames.length + 1) (s.stack t)) := by
  have hlength : (s.stack t).length ≠ frames.length + 1 := by
    have hpos := List.length_pos_of_ne_nil hne
    rw [hstack, List.length_append, List.length_cons]
    omega
  rw [filing, if_pos rfl, if_neg hlength]

/-! ### On the way -/

/-- Whether thread `t` is on its way in a scheduling or a reading, which makes its next step or has
a destructor run. -/
inductive Filing.OnWay (t : Tid) (frames : Stack κ (Call κ V E) Answer) (request : Request κ V E)
    (x : Filing κ V E ν) (s : State κ ω (Pipeline κ V E) (Call κ V E) Answer (Event V E ν)) :
    Prop where
  | itself (call : Call κ V E) : s.stack t = .call call :: frames → call.Fits x request →
      x.steps + call.toEnd ≤ 11 → OnWay t frames request x s
  | destroying (above : Stack κ (Call κ V E) Answer) (call : Call κ V E) : above ≠ [] →
      Nested false above → s.stack t = above ++ .call call :: frames → call.Fits x request →
      call.destroys = true → x.steps + call.toEnd ≤ 11 → OnWay t frames request x s

/-- What other threads do leaves the call where it is. -/
theorem Filing.OnWay.of_other (h : x.OnWay t frames request s) (hu : u ≠ t)
    (hstep : (machine plan next).step u choice s = some s') :
    (filing next t frames.length u s s' x).OnWay t frames request s' := by
  have hsame := Machine.stack_of_step_ne hstep (Ne.symm hu)
  rw [filing, if_neg hu]
  cases h with
  | itself call hstack hfits hsteps => exact .itself call (hsame.trans hstack) hfits hsteps
  | destroying above call hne hnest hstack hfits hdestroys hsteps =>
      exact .destroying above call hne hnest (hsame.trans hstack) hfits hdestroys hsteps

/-- **On the way, a step of its thread.** The call goes on, or comes to its end. -/
theorem Filing.OnWay.of_own (h : x.OnWay t frames request s)
    (hstep : (machine plan next).step t choice s = some s') (hlive : s'.aborted = false) :
    (filing next t frames.length t s s' x).OnWay t frames request s' ∨
      ∃ outcome, s'.stack t = Machine.finishCall outcome frames ∧
        (filing next t frames.length t s s' x).steps ≤ 11 ∧
        Answered s'.shared.owned (filing next t frames.length t s s' x) request outcome := by
  cases h with
  | itself call hstack hfits hsteps =>
      obtain ⟨shared, events, r, hturn, rfl, hhistory, hafter⟩ := Machine.turn_of_step hstack hstep
      have hgoes : ∀ n < call.toEnd, x.steps + 1 + n ≤ 11 := fun n hn => by omega
      rw [filing_own hstack hhistory hafter]
      cases hfits.of_turn hturn with
      | on call' hfits' hless => exact .inl (.itself call' hafter hfits' (hgoes _ hless))
      | runs code call' hfits' hless hdestroys =>
          exact .inl (.destroying [.code code] call' (List.cons_ne_nil _ _) (.code code) hafter
            hfits' hdestroys (hgoes _ hless))
      | answered answer hanswered =>
          exact .inr ⟨.ok answer, hafter, hgoes 0 hfits.toEnd_pos, hanswered⟩
      | failed fault hanswered =>
          exact .inr ⟨.error fault, hafter, hgoes 0 hfits.toEnd_pos, hanswered⟩
  | destroying above call hne hnest hstack hfits hdestroys hsteps =>
      rw [filing_above hne hstack]
      refine .inl ?_
      rcases Machine.above_of_step hnest hne hstack hstep with
        ⟨above', hne', hnest', hstack'⟩ | ⟨result, hstack'⟩ | haborted
      · exact .destroying above' call hne' hnest' hstack' (hfits.aside hdestroys _) hdestroys hsteps
      · -- the destructor has ended, and its end decides how the call goes on
        obtain ⟨position, rfl, hend⟩ := Machine.end_of_step hnest hne hstack hstep hstack'
        rcases hend with ⟨value, hnext, heq⟩ | ⟨fault, hnext, heq⟩
        · obtain ⟨hfits', htoEnd⟩ := hfits.resume hdestroys (.ok value)
            (endsIn? next (frames.length + 1) (s.stack t)) nofun
          rw [heq] at hstack'
          exact .itself _ hstack' hfits' (htoEnd ▸ hsteps)
        · have hfault : endsIn? next (frames.length + 1) (s.stack t) = some fault := by
            rw [hstack]
            exact endsIn?_of_fail hnext
          obtain ⟨hfits', htoEnd⟩ := hfits.resume hdestroys (.error fault) _ fun _ h =>
            Except.error.inj h ▸ hfault
          rw [heq] at hstack'
          exact .itself _ hstack' hfits' (htoEnd ▸ hsteps)
      · rw [haborted] at hlive
        cases hlive

/-- A call at the intake that its thread is about to go on with can make a step, or waits for a
lock that another thread owns. -/
theorem Call.Fits.moves_or_waits (h : call.Fits x request)
    (hreach : (machine plan next).Reach (start world codes) s) (hlive : s.aborted = false)
    (hstack : s.stack t = .call call :: frames) :
    (∀ choice, ((machine plan next).step t choice s).isSome = true) ∨
      ∃ u, u ≠ t ∧ locks.WaitsOn (machine plan next) s t u := by
  obtain ⟨v, hv, hshows⟩ := exists_shows hreach
  have hsound : call.IsSound := by
    refine isSound_of_opening hv t call ?_
    rw [hshows.calls_eq hlive, hstack]
    exact List.mem_cons_self
  exact ((h.isPrompt hsound).moves_or_waits hlive hstack).imp_right
    fun ⟨_, hwaits⟩ => exists_waitsOn hreach hwaits

/-- In every later state a call at the intake has come to its end or is on its way. -/
theorem answered_or_onWay (hvisits : request.visits = true)
    (hstack : s.stack t = .call request.call :: frames)
    (h : (machine plan next).Observed (filing next t frames.length) s {} s' x)
    (hlive : s'.aborted = false) :
    (∃ s₁ x₁ outcome, (machine plan next).Observed (filing next t frames.length) s {} s₁ x₁ ∧
        (machine plan next).Observed (filing next t frames.length) s₁ x₁ s' x ∧
        s₁.stack t = Machine.finishCall outcome frames ∧ x₁.steps ≤ 11 ∧
        Answered s₁.shared.owned x₁ request outcome) ∨
      x.OnWay t frames request s' := by
  induction h with
  | start =>
      obtain ⟨hfits, hsteps⟩ := Call.fits_of_visits (ν := ν) hvisits
      exact .inr (.itself _ hstack hfits ((Nat.zero_add _).trans_le hsteps))
  | @step s₂ s₃ x₂ u choice hobserved hstep ih =>
      rcases ih (Machine.stepped_of_step hstep).1 with ⟨s₁, x₁, outcome, hto, hfrom, hend⟩ | hway
      · exact .inl ⟨s₁, x₁, outcome, hto, .step u choice hfrom hstep, hend⟩
      · by_cases hu : u = t
        · subst hu
          rcases hway.of_own hstep hlive with hway' | ⟨outcome, hend⟩
          · exact .inr hway'
          · exact .inl ⟨_, _, outcome, .step u choice hobserved hstep, .start, hend⟩
        · exact .inr (hway.of_other hu hstep)

/-- Whether everybody is answered alike from a state on. -/
structure Admission (plan : Plan κ)
    (next : κ → Move κ ω (Request κ V E) Answer (Except E V) ν)
    (s : State κ ω (Pipeline κ V E) (Call κ V E) Answer (Event V E ν)) : Prop where
  /-- Once no task is accepted, none is ever again. -/
  shut : s.shared.intake.value = false → ∀ s', (machine plan next).Reach s s' →
    s'.shared.intake.value = false
  /-- A step after which something else holds at the intake is the one in which a teardown closes
  it. -/
  closes : ∀ t choice s', (machine plan next).step t choice s = some s' →
    s'.shared.intake.value ≠ s.shared.intake.value →
    s.shared.intake.value = true ∧ s'.shared.intake.value = false ∧
      s'.history = s.history ++ [(t, .closed)] ∧ ∃ d again below,
        s.stack t = .call (.teardown d) :: below ∧ d.stage = .closing (.acting again)
  /-- Whoever schedules or reads from now on has been answered in every later state, after so few
  steps of its own, or is on its way. -/
  answers : ∀ t (request : Request κ V E) frames s' x, request.visits = true →
    s.stack t = .call request.call :: frames →
    (machine plan next).Observed (filing next t frames.length) s {} s' x → s'.aborted = false →
    (∃ s₁ x₁ outcome, (machine plan next).Observed (filing next t frames.length) s {} s₁ x₁ ∧
        (machine plan next).Observed (filing next t frames.length) s₁ x₁ s' x ∧
        s₁.stack t = Machine.finishCall outcome frames ∧ x₁.steps ≤ 11 ∧
        Answered s₁.shared.owned x₁ request outcome) ∨
      x.steps ≤ 10 ∧
        ((∃ call, s'.stack t = .call call :: frames ∧ call.Fits x request ∧
            ((∀ choice, ((machine plan next).step t choice s').isSome = true) ∨
              ∃ u, u ≠ t ∧ locks.WaitsOn (machine plan next) s' t u)) ∨
          ∃ above call, above ≠ [] ∧ Nested false above ∧
            s'.stack t = above ++ .call call :: frames ∧ call.Fits x request ∧
            call.destroys = true)

/-- When the thread has come back from its call, it has been answered. -/
theorem Admission.answered (h : Admission plan next s) (hvisits : request.visits = true)
    (hstack : s.stack t = .call request.call :: frames)
    (h' : (machine plan next).Observed (filing next t frames.length) s {} s' x)
    (hlive : s'.aborted = false) (hback : (s'.stack t).length ≤ frames.length) :
    ∃ s₁ x₁ outcome, (machine plan next).Observed (filing next t frames.length) s {} s₁ x₁ ∧
      (machine plan next).Observed (filing next t frames.length) s₁ x₁ s' x ∧
      Answered s₁.shared.owned x₁ request outcome := by
  rcases h.answers t request frames s' x hvisits hstack h' hlive with
    ⟨s₁, x₁, outcome, hto, hfrom, -, -, hanswered⟩ | ⟨-, hway⟩
  · exact ⟨s₁, x₁, outcome, hto, hfrom, hanswered⟩
  · have hlayers : ∃ above call, s'.stack t = above ++ .call call :: frames := by
      rcases hway with ⟨call, hstack', -⟩ | ⟨above, call, -, -, hstack', -⟩
      · exact ⟨[], call, hstack'⟩
      · exact ⟨above, call, hstack'⟩
    obtain ⟨above, call, hstack'⟩ := hlayers
    rw [hstack', List.length_append, List.length_cons] at hback
    omega

/-- **Admitted, or nothing has changed.** In every state of every run, be the pipeline idle or busy,
its worker dead, or a teardown under way or over:

* once no task is accepted, none is ever again; what closes the intake is a teardown, in the step
  that notes it;
* whoever schedules a job, through the owner or through a handle, is answered by eleven steps of its
  own, amid whatever the others do. A job without a body is refused as such, whether or not tasks
  are accepted. Any other is refused if no task was accepted when the call looked at the intake, and
  is accepted otherwise. A refusal leaves the contents of the pipeline as they were and notes
  nothing, and of the job only the destructor has run. An acceptance has added the job's task at the
  back of the pending channel, and nothing else;
* whoever reads whether tasks are accepted is answered what the intake said when the call looked;
* a call that has not been answered can make its next step, waits for a lock that another thread
  owns, or has the destructor run. -/
theorem admitted_or_unchanged (h : (machine plan next).Reach (start world codes) s) :
    Admission plan next s where
  shut hclosed s' h' := closed_of_closed h hclosed h'
  closes t choice s' hstep hne := by
    rcases closes_of_step h hstep with hsame | ⟨d, again, below, hstack, hstage, hvalue, hhistory⟩
    · exact absurd hsame hne
    · refine ⟨?_, hvalue, hhistory, d, again, below, hstack, hstage⟩
      rw [hvalue] at hne
      exact Bool.eq_true_of_not_eq_false (Ne.symm hne)
  answers t request frames s' x hvisits hstack h' hlive := by
    refine (answered_or_onWay hvisits hstack h' hlive).imp_right fun hway => ?_
    cases hway with
    | itself call hstack' hfits hsteps =>
        have hpos := hfits.toEnd_pos
        exact ⟨by omega, .inl ⟨call, hstack', hfits,
          hfits.moves_or_waits (h.trans h'.reach) hlive hstack'⟩⟩
    | destroying above call hne hnest hstack' hfits hdestroys hsteps =>
        have hpos := hfits.toEnd_pos
        exact ⟨by omega, .inr ⟨above, call, hne, hnest, hstack', hfits, hdestroys⟩⟩

end Runs

/-! ### A run in which a job is scheduled before a shutdown and another one after it -/

/-- The code of the run. -/
inductive Applicant where
  | early
  | closing
  | late
  | body
  | destructor
  | done
  deriving DecidableEq

/-- A job of the run. -/
def application : Job Applicant Unit Unit where
  body := some .body
  onDrop := some .destructor

/-- What the code of the run does. -/
def Applicant.move :
    Applicant → Move Applicant Unit (Request Applicant Unit Unit) Answer (Except Unit Unit) Unit
  | .early => .call (.scheduling application) fun _ => .closing
  | .closing => .call (.taking true) fun _ => .late
  | .late => .call (.handing application) fun _ => .done
  | .body | .destructor | .done => .ret (.ok ())

/-- The machine of the run. -/
abbrev applying : Machine Applicant Unit (Pipeline Applicant Unit Unit) (Call Applicant Unit Unit)
    Answer (Except Unit Unit) (Event Unit Unit Unit) :=
  machine {} Applicant.move

/-- The states of the run. -/
abbrev ApplicantState := State Applicant Unit (Pipeline Applicant Unit Unit)
  (Call Applicant Unit Unit) Answer (Event Unit Unit Unit)

/-- The state in which the first job is scheduled, through the owner. -/
def early : ApplicantState :=
  applying.settle [(1, .go 0)] 1 (start () [.early])

/-- The state in which that call has ended, and what has been seen of it. -/
def earlyEnd : ApplicantState × Filing Applicant Unit Unit Unit :=
  applying.follow (filing Applicant.move 1 1) (List.replicate 11 (1, .go 0)) (early, {})

/-- The state in which the second job is scheduled, through a handle, after the shutdown. -/
def late : ApplicantState :=
  applying.settle [(0, .go 0), (1, .go 0)] 47 earlyEnd.1

/-- The state in which that call has ended, and what has been seen of it. -/
def lateEnd : ApplicantState × Filing Applicant Unit Unit Unit :=
  applying.follow (filing Applicant.move 1 1) (List.replicate 8 (1, .go 0)) (late, {})

/-- The first job has been accepted, and the second one refused. -/
theorem admitted_or_unchanged_applicant :
    (∃ s₁ x₁ outcome, applying.Observed (filing Applicant.move 1 1) early {} s₁ x₁ ∧
        Answered s₁.shared.owned x₁ (.scheduling application) outcome) ∧
      (∃ s₁ x₁ outcome, applying.Observed (filing Applicant.move 1 1) late {} s₁ x₁ ∧
        Answered s₁.shared.owned x₁ (.handing application) outcome) ∧
      earlyEnd.2.added.map Entry.ticket? = [some 0] ∧ lateEnd.2.added.map Entry.ticket? = [] ∧
      lateEnd.2.looked = some false ∧ lateEnd.2.ran = [.destructor] := by
  have hearly : applying.Reach (start () [.early]) early := Machine.reach_settle _ _ .start
  have hseen : applying.Observed (filing Applicant.move 1 1) early {} earlyEnd.1 earlyEnd.2 :=
    Machine.observed_follow _ _ _ .start
  have hlate : applying.Reach (start () [.early]) late :=
    Machine.reach_settle _ _ (hearly.trans hseen.reach)
  have hseen' : applying.Observed (filing Applicant.move 1 1) late {} lateEnd.1 lateEnd.2 :=
    Machine.observed_follow _ _ _ .start
  have hstack : early.stack 1 = .call (Request.scheduling application).call ::
      [.wait fun _ => .closing] := rfl
  have hstack' : late.stack 1 = .call (Request.handing application).call ::
      [.wait fun _ => .done] := rfl
  obtain ⟨s₁, x₁, outcome, hto, -, hanswered⟩ := (admitted_or_unchanged hearly).answered rfl hstack
    hseen (by decide +kernel) (by decide +kernel)
  obtain ⟨s₂, x₂, outcome', hto', -, hanswered'⟩ := (admitted_or_unchanged hlate).answered rfl
    hstack' hseen' (by decide +kernel) (by decide +kernel)
  exact ⟨⟨s₁, x₁, outcome, hto, hanswered⟩, ⟨s₂, x₂, outcome', hto', hanswered'⟩,
    by decide +kernel, by decide +kernel, by decide +kernel, by decide +kernel⟩

end Offload.Pipeline
