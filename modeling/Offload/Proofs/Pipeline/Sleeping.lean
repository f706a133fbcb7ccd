import Offload.Proofs.Pipeline.Runs

/-!
# Who sleeps on the finished channel

A thread is among the sleepers of the finished channel at most once, and only while its call visits
the channel and is asleep. So a call that comes to look at the channel does not find its own thread
there, and whoever leaves the channel leaves nobody behind.

## Main definitions

* `Rests`: what a step does to the sleepers of a channel, by who sleeps before and after it.
* `Call.sleeps`: whether a call is asleep in the finished channel.

## Main results

* `Visit.rests_of_turn`, `rests_of_turn`: every step of a visit, and of a call, does this.
* `count_sleepers_le`: who sleeps there, in every state of every run.
-/

namespace Offload

variable {α β κ γ τ : Type} {t : Tid} {choice : Choice}

/-- What a step of thread `t` does to the sleepers of a channel: if before it the thread is among
them at most once, and not at all unless it is `asleep`, then so it is afterwards; and nobody else
joins them. -/
structure Rests (t : Tid) (sleepers sleepers' : List Tid) (asleep asleep' : Bool) : Prop where
  own : sleepers.count t ≤ asleep.toNat → sleepers'.count t ≤ asleep'.toNat
  others : ∀ u ≠ t, sleepers'.count u ≤ sleepers.count u

namespace Rests

variable {sleepers sleepers' : List Tid} {asleep asleep' asleep'' : Bool}

theorem mono (h : Rests t sleepers sleepers' asleep asleep')
    (himp : asleep' = true → asleep'' = true) : Rests t sleepers sleepers' asleep asleep'' := by
  refine ⟨fun hbefore => (h.own hbefore).trans ?_, h.others⟩
  cases asleep' with
  | false => exact Nat.zero_le _
  | true => rw [himp rfl]

/-- A step of a thread that is awake and does not touch the sleepers. -/
theorem same : Rests t sleepers sleepers false asleep' :=
  ⟨fun hbefore => hbefore.trans (Nat.zero_le _), fun _ _ => Nat.le_refl _⟩

end Rests

/-- Whether a visit in this phase is asleep. -/
def Phase.sleeps : Phase β → Bool
  | .asleep => true
  | _ => false

/-- Whether a visit that has come so far is asleep. -/
def Progress.sleeps : Progress β → Bool
  | .on phase => phase.sleeps
  | .ended _ => false

/-- **Sleepers, one step of a visit.** -/
theorem Visit.rests_of_turn {v : Visit α β} {m m' : Monitor α} {phase : Phase β}
    {progress : Progress β} (h : v.turn t choice m phase = some (m', progress)) :
    Rests t m.sleepers m'.sleepers phase.sleeps progress.sleeps := by
  have hroused : ∀ asleep',
      Rests t m.sleepers (m.sleepers.erase t) true asleep' := by
    refine fun asleep' => ⟨fun hone => ?_, fun u hu => ?_⟩
    · rw [List.count_erase_self]
      exact (Nat.sub_le_of_le_add hone).trans (Nat.zero_le _)
    · rw [List.count_erase_of_ne hu]
  cases turned_of_turn h with
  | slept =>
      refine ⟨fun hnone => ?_, fun u hu => ?_⟩
      · rw [Monitor.sleep, List.count_append, List.count_singleton_self]
        exact Nat.succ_le_succ hnone
      · rw [Monitor.sleep, List.count_append, List.count_singleton]
        simp [Ne.symm hu]
  | stirred _ | expired _ _ => exact hroused _
  | woken hnotified _ =>
      exact ⟨fun _ => (List.count_eq_zero.mpr hnotified).trans_le (Nat.zero_le _),
        fun _ _ => Nat.le_refl _⟩
  | arrived _ | tested _ _ | untested _ _ | wokenLate _ | acted _ | left _ | leftFaulted _ =>
      exact .same

/-- Whether what goes on after a turn, unless it runs code first, is as `P` says. -/
def Turn.stays (P : γ → Bool) : Turn κ γ τ → Bool
  | .stay call => P call
  | _ => false

theorem Rests.within {γ' τ' : Type} {sleepers sleepers' : List Tid} {asleep : Bool} {P : γ → Bool}
    {P' : γ' → Bool} {r : Turn κ γ τ} {wrap : γ → γ'} {answered : τ → Turn κ γ' τ'}
    {failed : Fault → Turn κ γ' τ'} (h : Rests t sleepers sleepers' asleep (r.stays P))
    (hwrap : ∀ call, P call = true → P' (wrap call) = true) :
    Rests t sleepers sleepers' asleep ((r.within wrap answered failed).stays P') := by
  refine h.mono fun hstays => ?_
  cases r with
  | stay call => exact hwrap call hstays
  | run _ _ | ret _ | fail _ | abort => cases hstays

namespace Channel

variable {c c' : Channel α} {marks : List (Mark α)}

theorem Pop.rests_of_turn {p : Pop α} {r : Turn κ (Pop α) (Option α)}
    (h : p.turn t choice c = some (c', marks, r)) :
    Rests t c.sleepers c'.sleepers p.phase.sleeps (r.stays (·.phase.sleeps)) := by
  obtain ⟨⟨c₁, progress⟩, hvisit, heq⟩ := Option.map_eq_some_iff.mp h
  cases heq
  refine (Visit.rests_of_turn hvisit).mono fun hsleeps => ?_
  cases progress with
  | on phase => exact hsleeps
  | ended outcome => cases hsleeps

/-- Whether a push is asleep. -/
def Push.sleeps : Push α → Bool
  | .adding _ phase => phase.sleeps
  | _ => false

theorem Push.rests_of_turn {hook : Option κ} {p : Push α} {r : Turn κ (Push α) Unit}
    (h : p.turn hook t choice c = some (c', marks, r)) :
    Rests t c.sleepers c'.sleepers p.sleeps (r.stays Push.sleeps) := by
  cases p with
  | adding item phase =>
      obtain ⟨⟨c₁, progress⟩, hvisit, heq⟩ := Option.map_eq_some_iff.mp h
      cases heq
      refine (Visit.rests_of_turn hvisit).mono fun hsleeps => ?_
      cases progress with
      | on phase => exact hsleeps
      | ended outcome => cases hsleeps
  | notifying =>
      cases h
      have hfewer : ∀ u, (c.notifyOne choice.pick).sleepers.count u ≤ c.sleepers.count u :=
        fun u => (List.eraseIdx_sublist ..).count_le u
      exact ⟨fun hnone => (hfewer t).trans (hnone.trans (Nat.zero_le _)), fun u _ => hfewer u⟩
  | hooking =>
      cases hook <;>
      · cases h
        exact .same
  | ending outcome =>
      cases outcome <;>
      · cases h
        exact .same

theorem rests_of_sizeTurn {phase : Phase Nat} {r : Turn κ (Phase Nat) Nat}
    (h : sizeTurn t choice c phase = some (c', r)) :
    Rests t c.sleepers c'.sleepers phase.sleeps (r.stays Phase.sleeps) := by
  obtain ⟨⟨c₁, progress⟩, hvisit, heq⟩ := Option.map_eq_some_iff.mp h
  cases heq
  refine (Visit.rests_of_turn hvisit).mono fun hsleeps => ?_
  cases progress with
  | on phase => exact hsleeps
  | ended outcome => cases hsleeps

end Channel

namespace Pipeline

variable {ω V E ν : Type} {plan : Plan κ} {s s' : Pipeline κ V E} {events : List (Event V E ν)}

/-! ### One step of a call -/

/-- Whether a drain is asleep in the finished channel. -/
def Drain.sleeps : Drain κ V E → Bool
  | .popping _ p => p.phase.sleeps
  | .checking phase => phase.sleeps
  | _ => false

/-- Whether an await is asleep in the finished channel. -/
def Await.sleeps : Await κ V E → Bool
  | .popping p => p.phase.sleeps
  | _ => false

/-- Whether what is done through the owner is asleep in the finished channel. -/
def Use.sleeps : Use κ V E → Bool
  | .draining stage => stage.sleeps
  | .await stage => stage.sleeps
  | .finishedSize phase => phase.sleeps
  | _ => false

/-- Whether the worker is asleep in the finished channel. -/
def Work.sleeps : Work κ V E → Bool
  | .publishing p => p.sleeps
  | _ => false

/-- Whether a teardown at this stage is asleep in the finished channel. -/
def Teardown.Stage.sleeps : Teardown.Stage κ V E → Bool
  | .counting _ _ phase => phase.sleeps
  | _ => false

/-- Whether a call is asleep in the finished channel. -/
def Call.sleeps : Call κ V E → Bool
  | .inside use => use.sleeps
  | .teardown d => d.stage.sleeps
  | .work w => w.sleeps
  | _ => false

theorem Drain.rests_of_turn {stage : Drain κ V E} {r : Turn κ (Drain κ V E) Bool}
    (h : stage.turn t choice s = some (s', events, r)) :
    Rests t s.finished.sleepers s'.finished.sleepers stage.sleeps (r.stays Drain.sleeps) := by
  cases stage with
  | going left =>
      cases left <;>
      · cases h
        exact .same
  | popping left p =>
      obtain ⟨finished, marks, r', hpop, rfl, -, rfl⟩ := exists_of_onFinished h
      exact (Channel.Pop.rests_of_turn hpop).within fun _ hp => hp
  | delivering left f =>
      cases h
      exact .same
  | checking phase =>
      obtain ⟨⟨finished, r'⟩, hsize, heq⟩ := Option.map_eq_some_iff.mp h
      cases heq
      exact (Channel.rests_of_sizeTurn hsize).within fun _ hphase => hphase
  | failing fault =>
      cases h
      exact .same

theorem Await.rests_of_turn {stage : Await κ V E} {r : Turn κ (Await κ V E) Bool}
    (h : stage.turn t choice s = some (s', events, r)) :
    Rests t s.finished.sleepers s'.finished.sleepers stage.sleeps (r.stays Await.sleeps) := by
  cases stage with
  | popping p =>
      obtain ⟨finished, marks, r', hpop, rfl, -, rfl⟩ := exists_of_onFinished h
      exact (Channel.Pop.rests_of_turn hpop).within fun _ hp => hp
  | delivering f =>
      cases h
      exact .same
  | ending outcome =>
      cases outcome <;>
      · cases h
        exact .same

theorem Use.rests_of_turn {use : Use κ V E} {r : Turn κ (Use κ V E) Answer}
    (h : use.turn plan t choice s = some (s', events, r)) :
    Rests t s.finished.sleepers s'.finished.sleepers use.sleeps (r.stays Use.sleeps) := by
  cases use with
  | schedule stage =>
      obtain ⟨r', hturn, rfl⟩ := exists_of_nest h
      rw [(Schedule.frame_of_turn (Schedule.turned_of_turn hturn)).2.1]
      exact .same
  | draining stage =>
      obtain ⟨r', hturn, rfl⟩ := exists_of_nest h
      exact (Drain.rests_of_turn hturn).within fun _ hstage => hstage
  | await stage =>
      obtain ⟨r', hturn, rfl⟩ := exists_of_nest h
      exact (Await.rests_of_turn hturn).within fun _ hstage => hstage
  | pendingSize phase =>
      obtain ⟨⟨pending, r'⟩, hsize, heq⟩ := Option.map_eq_some_iff.mp h
      cases heq
      exact .same
  | finishedSize phase =>
      obtain ⟨⟨finished, r'⟩, hsize, heq⟩ := Option.map_eq_some_iff.mp h
      cases heq
      exact (Channel.rests_of_sizeTurn hsize).within fun _ hphase => hphase
  | drain _ | busy =>
      cases h
      exact .same

theorem finished_of_handle {use : HandleUse κ V E} {r : Turn κ (HandleUse κ V E) Answer}
    (h : use.turn t choice s = some (s', events, r)) : s'.finished = s.finished := by
  cases use with
  | schedule stage =>
      obtain ⟨r', hturn, -⟩ := exists_of_nest h
      exact (Schedule.frame_of_turn (Schedule.turned_of_turn hturn)).2.1
  | accepting phase =>
      obtain ⟨⟨intake, progress⟩, -, heq⟩ := Option.map_eq_some_iff.mp h
      cases heq
      rfl

theorem Work.rests_of_turn {w : Work κ V E} {r : Turn κ (Work κ V E) Unit}
    (h : w.turn plan t choice s = some (s', events, r)) :
    Rests t s.finished.sleepers s'.finished.sleepers w.sleeps (r.stays Work.sleeps) := by
  cases Work.turned_of_turn h with
  | published hpush => exact (Channel.Push.rests_of_turn hpush).within fun _ hp => hp
  | popped _ | entered _ _ | began _ _ | returned _ | rested | left | failed _ | died _ =>
      exact .same

theorem Teardown.rests_of_turn {d : Teardown κ V E}
    {r : Turn κ (Teardown κ V E) (Except Failure Unit)}
    (h : d.turn t choice s = some (s', events, r)) :
    Rests t s.finished.sleepers s'.finished.sleepers d.stage.sleeps
      (r.stays fun d' => d'.stage.sleeps) := by
  cases Teardown.turned_of_turn h with
  | counting hstage hsize _ =>
      rw [hstage]
      exact (Channel.rests_of_sizeTurn hsize).within fun _ hphase => hphase
  | claimed hstage _ | closing hstage _ | closed hstage _ _ _ | clearing hstage _
  | cleared _ hstage _ | stopping hstage _ | joined _ _ hstage _ =>
      rw [hstage]
      exact .same
  | rested hquiet _ _ _ _ =>
      have hawake : d.stage.sleeps = false := by
        cases hstage : d.stage <;> rw [hstage] at hquiet <;> first | rfl | cases hquiet
      rw [hawake]
      exact .same

/-- **Sleepers, one step of a call.** -/
theorem rests_of_turn {call : Call κ V E} {r : Turn κ (Call κ V E) Answer}
    (h : turn plan t choice s call = some (s', events, r)) :
    Rests t s.finished.sleepers s'.finished.sleepers call.sleeps (r.stays Call.sleeps) := by
  cases Call.turned_of_turn h with
  | lent _ _ | refused _ _ | answered _ | failed _ | missed _ _ | taken _ _ _ => exact .same
  | inside hturn => exact (Use.rests_of_turn hturn).within fun _ huse => huse
  | handle hturn =>
      rw [finished_of_handle hturn]
      exact .same
  | teardown hturn => exact (Teardown.rests_of_turn hturn).within fun _ hd => hd
  | work hturn => exact (Work.rests_of_turn hturn).within fun _ hw => hw

/-! ### All runs -/

theorem count_sleepers_le_of_scene {v : View κ V E ν} (hv : Scene.Reach (library plan) opening v)
    (t : Tid) :
    v.shared.finished.sleepers.count t ≤ ((v.calls t).active.any Call.sleeps).toNat := by
  refine hv.invariant (P := fun v => ∀ t, v.shared.finished.sleepers.count t ≤
    ((v.calls t).active.any Call.sleeps).toNat) ?_ ?_ t
  · exact fun t => Nat.zero_le _
  · intro u v v' hv ih hstep t
    -- a thread that was in code does not sleep
    have hcoded : ∀ {calls : Calls (Call κ V E)}, (v.calls u).active = none →
        v.shared.finished.sleepers.count t ≤
          ((Function.update v.calls u calls t).active.any Call.sleeps).toNat := by
      intro calls hnone
      have hbefore := ih t
      by_cases htu : t = u
      · subst htu
        rw [hnone] at hbefore
        exact hbefore.trans (Nat.zero_le _)
      · rwa [Function.update_of_ne htu]
    cases moved_of_reach hv hstep with
    | still | noted _ _ => exact ih t
    | began request hcode => exact hcoded hcode.1
    | resumed result hwaits => exact hcoded (by rw [hwaits])
    | @turned call rest choice s' events r hactive _ hturn habort =>
        have hrests := rests_of_turn hturn
        by_cases htu : t = u
        · subst htu
          have hbefore := ih t
          rw [hactive] at hbefore
          have hafter := hrests.own hbefore
          simp only [Function.update_self]
          cases r with
          | stay call' => exact hafter
          | run _ _ | ret _ | fail _ => exact hafter
          | abort => exact absurd rfl habort
        · simp only [Function.update_of_ne htu]
          exact (hrests.others t htu).trans (ih t)

section States

variable {next : κ → Move κ ω (Request κ V E) Answer (Except E V) ν} {world : ω} {codes : List κ}
  {s : State κ ω (Pipeline κ V E) (Call κ V E) Answer (Event V E ν)}

/-- **A thread is among the sleepers** of the finished channel at most once, and not at all unless
its call is asleep. -/
theorem count_sleepers_le (h : (machine plan next).Reach (start world codes) s)
    (hlive : s.aborted = false) (t : Tid) :
    s.shared.finished.sleepers.count t ≤
      ((callsOf (s.stack t)).active.any Call.sleeps).toNat := by
  obtain ⟨v, hv, hshows⟩ := exists_shows h
  rw [← hshows.calls_eq hlive, ← hshows.shared_eq]
  exact count_sleepers_le_of_scene hv t

/-- A thread whose call is not asleep is not among the sleepers. -/
theorem not_mem_sleepers (h : (machine plan next).Reach (start world codes) s)
    (hlive : s.aborted = false)
    (hawake : (callsOf (s.stack t)).active.any Call.sleeps = false) :
    t ∉ s.shared.finished.sleepers := by
  have hcount := count_sleepers_le h hlive t
  rw [hawake] at hcount
  exact List.count_eq_zero.mp (Nat.le_zero.mp hcount)

end States

end Pipeline

end Offload
