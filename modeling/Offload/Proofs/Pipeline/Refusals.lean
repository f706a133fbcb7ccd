import Offload.Proofs.Leads
import Offload.Proofs.Pipeline.Grants
import Offload.Proofs.Pipeline.Shutdown

/-!
# What a closed pipeline answers

A job is refused if it has no body, and once the intake has closed every job is. A scheduling that
is refused leaves the state as it was, but for the lock of the intake, and destroys the job outside
the lock; a handle that asks whether tasks are accepted is told that none is. Such a call has six
steps to go at most, while code runs only for the destructor of the job, and on its way it waits for
the lock of the intake only.

## Main results

* `HandleUse.denies_of_turn`: one step of what is done through a handle and denied.
* `denied_since`: what a handle comes back with.
* `turnsAway_of_passed`: nothing is accepted once the intake has closed.
-/

namespace Offload.Pipeline

variable {κ ω V E ν : Type} {plan : Plan κ} {t u : Tid} {choice : Choice}

/-! ### Steps of what is denied -/

section Steps

variable {s s' : Pipeline κ V E} {events : List (Event V E ν)} {failure : Failure}

/-- Whether a scheduling is on its way to be refused with this failure, or to fail with the fault of
the destructor of its job. -/
def Schedule.Refuses (failure : Failure) : Schedule κ V E → Prop
  | .checking job => failure = if job.body.isSome then .stopped else .emptyBody
  | .entering _ | .deciding _ | .leaving (.ok (some _)) => failure = .stopped
  | .dropping _ failure' | .dropped (.ok failure') => failure' = failure
  | .dropped (.error _) => True
  | .pushing _ | .leaving _ => False

/-- How many steps a scheduling has to go to be refused. -/
def Schedule.refuseToGo : Schedule κ V E → Nat
  | .checking _ => 6
  | .entering _ => 5
  | .deciding _ => 4
  | .leaving _ | .pushing _ => 3
  | .dropping _ _ => 2
  | .dropped _ => 1

/-- What one step comes to of a call that is on its way to be denied. -/
inductive DeniedBy {γ β : Type} (Denies : γ → Prop) (toGo : γ → Nat) (call : γ) (answer : β)
    (struck : Fault → Prop) : Turn κ γ β → Prop where
  /-- It goes on, perhaps when the destructor of a refused job has ended. -/
  | nearer {r : Turn κ γ β} (call' : γ) : r.next? = some call' → Denies call' →
      toGo call' < toGo call → DeniedBy Denies toGo call answer struck r
  | answered : DeniedBy Denies toGo call answer struck (.ret answer)
  /-- The destructor has failed. -/
  | failed (fault : Fault) : struck fault → DeniedBy Denies toGo call answer struck (.fail fault)

/-- A scheduling of a job without a body goes on to be refused, and so does every scheduling once
the intake has closed. Nothing is noted meanwhile. -/
theorem Schedule.refuses_of_turn {stage : Schedule κ V E}
    {r : Turn κ (Schedule κ V E) (Except Failure Unit)}
    (h : stage.turn t choice s = some (s', events, r))
    (hclosed : failure = .stopped → s.intake.value = false) (hrefuses : stage.Refuses failure) :
    events = [] ∧ DeniedBy (Refuses failure) refuseToGo stage (.error failure)
      (fun fault => stage = .dropped (.error fault)) r := by
  cases stepped_of_turn h with
  | empty job hnone =>
      refine ⟨rfl, .nearer _ rfl ?_ (Nat.le_of_ble_eq_true rfl)⟩
      rw [Refuses, Option.map_eq_none_iff.mp hnone] at hrefuses
      exact hrefuses.symm
  | checked job task htask =>
      refine ⟨rfl, .nearer _ rfl ?_ (Nat.lt_succ_self _)⟩
      obtain ⟨body, hbody, -⟩ := Option.map_eq_some_iff.mp htask
      rwa [Refuses, hbody] at hrefuses
  | entered _ _ | dropped _ | dropping _ _ | refused _ _ =>
      exact ⟨rfl, .nearer _ rfl hrefuses (Nat.lt_succ_self _)⟩
  | admitted _ hopen => cases (hclosed hrefuses).symm.trans hopen
  | pushing _ | accepted | failed _ => exact hrefuses.elim
  | turnedAway _ => exact ⟨rfl, .nearer _ rfl hrefuses.symm (Nat.lt_succ_self _)⟩
  | answered failure' =>
      obtain rfl : failure' = failure := hrefuses
      exact ⟨rfl, .answered⟩
  | struck fault => exact ⟨rfl, .failed fault rfl⟩

/-- Whether a reading is on its way to find that no task is accepted. -/
def FindsClosed : Phase Bool → Prop
  | .arriving | .acting _ => True
  | .leaving (.ok (some accepting)) => accepting = false
  | _ => False

theorem FindsClosed.isPlain {phase : Phase Bool} (h : FindsClosed phase) : phase.IsPlain := by
  cases phase with
  | arriving | acting _ => trivial
  | leaving outcome =>
      rcases outcome with _ | _ | _
      · exact h.elim
      · exact h.elim
      · trivial
  | testing _ | drowsy | asleep | overslept => exact h.elim

/-- Whether what is done through a handle is on its way to this answer: that its job is refused, or
that no task is accepted. -/
def HandleUse.Denies (answer : Answer) : HandleUse κ V E → Prop
  | .schedule stage => ∃ failure, stage.Refuses failure ∧ answer = .scheduled (.error failure)
  | .accepting phase => FindsClosed phase ∧ answer = .flag false

/-- How many steps it has to go to its answer. -/
def HandleUse.denyToGo : HandleUse κ V E → Nat
  | .schedule stage => stage.refuseToGo
  | .accepting phase => phase.toGo

/-- The fault with which the destructor of a refused job has ended. -/
def HandleUse.struck? : HandleUse κ V E → Option Fault
  | .schedule (.dropped (.error fault)) => some fault
  | _ => none

/-- **Denied through a handle**, one step. -/
theorem HandleUse.denies_of_turn {use : HandleUse κ V E} {answer : Answer}
    {r : Turn κ (HandleUse κ V E) Answer} (h : use.turn t choice s = some (s', events, r))
    (hclosed : s.intake.value = false) (hdenies : use.Denies answer) :
    events = [] ∧ DeniedBy (Denies answer) denyToGo use answer
      (fun fault => use.struck? = some fault) r := by
  cases use with
  | schedule stage =>
      obtain ⟨failure, hrefuses, rfl⟩ := hdenies
      obtain ⟨r', hstage, rfl⟩ := exists_of_nest h
      obtain ⟨rfl, hdenied⟩ := Schedule.refuses_of_turn hstage (fun _ => hclosed) hrefuses
      refine ⟨rfl, ?_⟩
      cases hdenied with
      | nearer stage' hnext hrefuses' hless =>
          refine .nearer (.schedule stage') ?_ ⟨failure, hrefuses', rfl⟩ hless
          cases r' <;> cases hnext <;> rfl
      | answered => exact .answered
      | failed fault hstruck =>
          subst hstruck
          exact .failed fault rfl
  | accepting phase =>
      obtain ⟨hfinds, rfl⟩ := hdenies
      obtain ⟨⟨intake, progress⟩, hvisit, heq⟩ := Option.map_eq_some_iff.mp h
      cases heq
      refine ⟨rfl, ?_⟩
      obtain ⟨rfl, -, rfl⟩ | ⟨again, rfl, -, rfl⟩ | ⟨accepting, rfl, -, rfl⟩ :=
        Visit.plain_cases hvisit hfinds.isPlain
      · exact .nearer _ rfl ⟨trivial, rfl⟩ (Nat.lt_succ_self _)
      · exact .nearer _ rfl ⟨hclosed, rfl⟩ (Nat.lt_succ_self _)
      · obtain rfl : accepting = false := hfinds
        exact .answered

/-- What is denied stays so when the destructor of the refused job has ended, and is no further from
its end. -/
theorem HandleUse.denies_resume {ρ : Type} {use : HandleUse κ V E} {answer : Answer}
    (h : use.Denies answer) (result : Except Fault ρ) :
    (use.resume result).Denies answer ∧ (use.resume result).denyToGo ≤ use.denyToGo := by
  cases use with
  | schedule stage =>
      obtain ⟨failure, hrefuses, rfl⟩ := h
      cases stage with
      | dropped outcome =>
          cases outcome with
          | ok failure' =>
              cases result with
              | ok _ => exact ⟨⟨failure, hrefuses, rfl⟩, Nat.le_refl _⟩
              | error fault => exact ⟨⟨failure, trivial, rfl⟩, Nat.le_refl _⟩
          | error fault => exact ⟨⟨failure, hrefuses, rfl⟩, Nat.le_refl _⟩
      | checking _ | entering _ | deciding _ | pushing _ | leaving _ | dropping _ _ =>
          exact ⟨⟨failure, hrefuses, rfl⟩, Nat.le_refl _⟩
  | accepting phase => exact ⟨h, Nat.le_refl _⟩

/-- What is denied waits for nothing but a lock. -/
theorem isPrompt_of_denies {use : HandleUse κ V E} {answer : Answer}
    (h : use.Denies answer) : (Call.handle use).IsPrompt plan ν t := by
  cases use with
  | schedule stage =>
      obtain ⟨failure, hrefuses, -⟩ := h
      refine Call.isPrompt_scheduling rfl ?_
      cases stage with
      | pushing p => exact hrefuses.elim
      | checking _ | entering _ | deciding _ | leaving _ | dropping _ _ | dropped _ => trivial
  | accepting phase => exact Call.isPrompt_reading rfl h.1.isPlain

end Steps

/-! ### All runs -/

section Runs

variable {next : κ → Move κ ω (Request κ V E) Answer (Except E V) ν} {world : ω} {codes : List κ}
  {s s' : State κ ω (Pipeline κ V E) (Call κ V E) Answer (Event V E ν)}
  {frames : Stack κ (Call κ V E) Answer} {use : HandleUse κ V E} {answer : Answer}

/-- A landmark that has been passed has been passed in every later state. -/
theorem Passed.of_reach {x : Landmark} (h : Passed x s.history)
    (h' : (machine plan next).Reach s s') : Passed x s'.history := by
  obtain ⟨later, hlater⟩ := h'.exists_later
  rw [hlater]
  exact h.later later

/-- Once the intake has closed it is closed. -/
theorem closed_of_passed (h : (machine plan next).Reach (start world codes) s)
    (hpassed : Passed .closed s.history) : s.shared.intake.value = false := by
  obtain ⟨v, hv, hshows⟩ := exists_shows h
  obtain ⟨u, d, hclosing⟩ := (orderly_of_reach hv).closing
  rw [← hshows.shared_eq]
  rw [← hshows.history_eq] at hpassed
  exact hclosing.kept.shut (.inl hpassed)

/-- Whether a call through a handle is on its way to this answer, and has at most `n` steps to
go. -/
def Call.Denies (answer : Answer) (n : Nat) (call : Call κ V E) : Prop :=
  ∃ use, call = .handle use ∧ use.Denies answer ∧ use.denyToGo ≤ n

/-- What a call through a handle by thread `t` that is denied comes back with in a step from `s` to
`s'`. -/
inductive Denied (t : Tid) (answer : Answer) (frames : Stack κ (Call κ V E) Answer)
    (s s' : State κ ω (Pipeline κ V E) (Call κ V E) Answer (Event V E ν)) : Prop where
  | answered : s'.stack t = Machine.finishCall (.ok answer) frames → Denied t answer frames s s'
  /-- The destructor of the refused job has failed. -/
  | failed (use : HandleUse κ V E) (fault : Fault) : s.stack t = .call (.handle use) :: frames →
      use.struck? = some fault → s'.stack t = Machine.finishCall (.error fault) frames →
      Denied t answer frames s s'

/-- **Denied, a step of its own.** Once the intake has closed, the call comes back or is nearer to
that. -/
theorem of_own_denied (h : (machine plan next).Reach (start world codes) s)
    (hpassed : Passed .closed s.history) (hstack : s.stack t = .call (.handle use) :: frames)
    (hdenies : use.Denies answer) (hstep : (machine plan next).step t choice s = some s') :
    Denied t answer frames s s' ∨
      ∃ n < use.denyToGo, Machine.Pursues t frames (Call.Denies answer n) s' := by
  obtain ⟨shared, events, r, hturn, -, -, hafter⟩ := Machine.turn_of_step hstack hstep
  obtain ⟨r', huse, rfl⟩ := exists_of_nest hturn
  obtain ⟨-, hdenied⟩ := HandleUse.denies_of_turn huse (closed_of_passed h hpassed) hdenies
  cases hdenied with
  | nearer use' hnext hdenies' hless =>
      refine .inr ⟨_, hless, .of_next (.handle use') hafter ?_
        ⟨use', rfl, hdenies', Nat.le_refl _⟩⟩
      cases r' <;> cases hnext <;> rfl
  | answered => exact .inl (.answered hafter)
  | failed fault hstruck => exact .inl (.failed use fault hstack hstruck hafter)

/-- **What is denied.** Once the intake has closed, what is done through a handle has come back in
every later state, denied, or it is on its way to that. -/
theorem denied_since (h : (machine plan next).Reach (start world codes) s)
    (hpassed : Passed .closed s.history) (hstack : s.stack t = .call (.handle use) :: frames)
    (hdenies : use.Denies answer) (h' : (machine plan next).Reach s s')
    (hlive : s'.aborted = false) :
    (∃ s₁ choice s₂, (machine plan next).Reach s s₁ ∧
        (machine plan next).step t choice s₁ = some s₂ ∧ (machine plan next).Reach s₂ s' ∧
        Denied t answer frames s₁ s₂) ∨
      Machine.Pursues t frames (Call.Denies answer use.denyToGo) s' := by
  refine Machine.Pursues.later ?_ ?_ (.start : (machine plan next).Reach s s)
    (.itself _ hstack ⟨use, rfl, hdenies, Nat.le_refl _⟩) h' hlive
  · rintro s₁ call choice s₂ h₁ hstack₁ ⟨use₁, rfl, hdenies₁, hle⟩ hstep -
    rcases of_own_denied (h.trans h₁) (hpassed.of_reach h₁) hstack₁ hdenies₁ hstep with
      hdenied | ⟨n, hlt, hpursues⟩
    · exact .inl hdenied
    · refine .inr (hpursues.mono ?_)
      rintro call ⟨use₂, rfl, hdenies₂, hle₂⟩
      exact ⟨use₂, rfl, hdenies₂, hle₂.trans (hlt.le.trans hle)⟩
  · rintro call result ⟨use₁, rfl, hdenies₁, hle⟩
    obtain ⟨hdenies', hle'⟩ := HandleUse.denies_resume hdenies₁ result
    exact ⟨_, rfl, hdenies', hle'.trans hle⟩

/-- Whether nothing is accepted any more, so that in this state and ever after what is done through
a handle is denied. -/
structure TurnsAway (plan : Plan κ)
    (next : κ → Move κ ω (Request κ V E) Answer (Except E V) ν)
    (s : State κ ω (Pipeline κ V E) (Call κ V E) Answer (Event V E ν)) : Prop where
  closed : s.shared.intake.value = false
  accepted : ∀ s', (machine plan next).Reach s s' →
    reached .accepted s'.history = reached .accepted s.history
  /-- What is denied can make its next step, or waits for a lock that another thread owns. -/
  moves : ∀ t (use : HandleUse κ V E) answer frames, use.Denies answer →
    s.stack t = .call (.handle use) :: frames → s.aborted = false →
    (∀ choice, ((machine plan next).step t choice s).isSome = true) ∨
      ∃ u, u ≠ t ∧ locks.WaitsOn (machine plan next) s t u
  /-- Each step takes it nearer to its end. -/
  nearer : ∀ t (use : HandleUse κ V E) answer frames choice s', use.Denies answer →
    s.stack t = .call (.handle use) :: frames → (machine plan next).step t choice s = some s' →
    Denied t answer frames s s' ∨
      ∃ n < use.denyToGo, Machine.Pursues t frames (Call.Denies answer n) s'
  /-- In every later state it has come back denied, or it is on its way. -/
  denied : ∀ t (use : HandleUse κ V E) answer frames s', use.Denies answer →
    s.stack t = .call (.handle use) :: frames → (machine plan next).Reach s s' →
    s'.aborted = false →
    (∃ s₁ choice s₂, (machine plan next).Reach s s₁ ∧
        (machine plan next).step t choice s₁ = some s₂ ∧ (machine plan next).Reach s₂ s' ∧
        Denied t answer frames s₁ s₂) ∨
      Machine.Pursues t frames (Call.Denies answer use.denyToGo) s'

/-- **Closed for good.** Once the intake has closed nothing is accepted any more. -/
theorem turnsAway_of_passed (h : (machine plan next).Reach (start world codes) s)
    (hpassed : Passed .closed s.history) : TurnsAway plan next s where
  closed := closed_of_passed h hpassed
  accepted s' h' := by
    obtain ⟨v, hv, hshows⟩ := exists_shows h
    obtain ⟨v', hv', hshows'⟩ := (machine_fits plan next).reach_shows hshows h'
    rw [← hshows.history_eq] at hpassed ⊢
    rw [← hshows'.history_eq]
    exact accepted_since hv hv' (.inl hpassed)
  moves _ _ _ _ hdenies hstack hlive :=
    ((isPrompt_of_denies hdenies).moves_or_waits hlive hstack).imp_right
      fun ⟨_, hwaits⟩ => exists_waitsOn h hwaits
  nearer _ _ _ _ _ _ hdenies hstack hstep := of_own_denied h hpassed hstack hdenies hstep
  denied _ _ _ _ _ hdenies hstack h' hlive := denied_since h hpassed hstack hdenies h' hlive

end Runs

end Offload.Pipeline
