import Offload.Proofs.Monitor.Guarded
import Offload.Script

/-!
# What a wait sees

A visit that waits runs its critical section on a value of which its predicate is true, and
gives up on a value of which it is false, as long as no fault has escaped from a critical
section before. On a poisoned monitor a visit that has slept does neither: it goes on untested,
in the way in which its sleep ended (`Guarded.wait_sees`).

The invariant has two parts. Whoever is in a phase that owns the lock is its owner, and nobody
has a lease then; so nobody else touches the value between a test and what follows it. And
what a phase says of the value is true of the value that is there.

## Main results

* `Guarded.guards_of_step`: the invariant, kept by every step of every thread.
* `Guarded.wait_sees`: what every waiting visit sees, in every run.
* `Guarded.untested_section`: a run in which a critical section sees its predicate false.
-/

namespace Offload

variable {κ ω α β ρ ε : Type}

namespace Visit

/-- What a phase of a waiting visit says of the value: a critical section is about to run on a
value that was tested, or after a sleep that ended on a poisoned monitor; a visit gives up only
if its time is limited, likewise. -/
def Seen (v : Visit α β) (m : Monitor α) : Phase β → Prop
  | .acting again =>
    ∀ p, v.await = some p → p m.value = .ok true ∨ (again = true ∧ m.poisoned = true)
  | .leaving (.ok none) =>
    ∀ p, v.await = some p → v.limited = true ∧ (p m.value = .ok false ∨ m.poisoned = true)
  | .overslept => v.limited = true
  | _ => True

variable {v : Visit α β} {t : Tid} {choice : Choice} {m m' : Monitor α} {phase phase' : Phase β}

/-- Only a visit that owns the lock depends on the value. -/
theorem seen_of_not_owns (hs : v.Seen m phase) (howns : phase.owns = false) : v.Seen m' phase := by
  cases phase with
  | arriving | asleep | overslept => exact hs
  | testing _ | drowsy | acting _ | leaving _ => cases howns

/-- Sleepers come and go unseen. -/
theorem seen_sleepers (hs : v.Seen m phase) (sleepers : List Tid) :
    v.Seen { m with sleepers := sleepers } phase := by
  cases phase with
  | leaving outcome => rcases outcome with _ | _ | _ <;> exact hs
  | arriving | asleep | overslept | testing _ | drowsy | acting _ => exact hs

/-- **A visit sees what it tested, one step.** -/
theorem seen_of_turn (h : v.turn t choice m phase = some (m', .on phase')) (hs : v.Seen m phase) :
    v.Seen m' phase' := by
  generalize hprogress : Progress.on phase' = progress at h
  cases turned_of_turn h with
  | arrived hfree =>
      cases hprogress
      split
      · exact trivial
      · next hnone =>
        intro p hp
        simp [hp] at hnone
  | @tested p again hp =>
      cases hprogress
      cases htest : p m.value with
      | error fault => exact trivial
      | ok b =>
          cases b with
          | true =>
              intro q hq
              obtain rfl : p = q := Option.some.inj (hp.symm.trans hq)
              exact .inl htest
          | false =>
              rw [afterTest]
              split
              · next hexpired =>
                intro q hq
                obtain rfl : p = q := Option.some.inj (hp.symm.trans hq)
                rw [Bool.and_eq_true] at hexpired
                exact ⟨hexpired.1, .inl htest⟩
              · exact trivial
  | untested again hnone =>
      cases hprogress
      intro p hp
      rw [hnone] at hp
      cases hp
  | slept | stirred _ =>
      cases hprogress
      exact trivial
  | expired _ hlimited =>
      cases hprogress
      exact hlimited
  | woken _ _ =>
      cases hprogress
      split
      · next hpoisoned => exact fun p _ => .inr ⟨rfl, hpoisoned⟩
      · exact trivial
  | wokenLate _ =>
      cases hprogress
      split
      · next hpoisoned => exact fun p _ => ⟨hs, .inr hpoisoned⟩
      · exact trivial
  | acted again =>
      cases hprogress
      cases (v.body m.value).2 <;> exact trivial
  | left _ | leftFaulted _ => cases hprogress

end Visit

namespace Guarded

variable {t u : Tid} {choice : Choice} {g g' : Guarded α} {call : Call α β}
  {r : Turn κ (Call α β) (Answer β)} {s s' : Scene (Guarded α) (Call α β) ε}

/-! ### The invariant -/

/-- What holds of a guarded value and its callers at every moment. -/
structure Guards (s : Scene (Guarded α) (Call α β) ε) : Prop where
  waiting : ∀ t, (s.calls t).waiting = []
  owner : ∀ t v phase, (s.calls t).active = some (.visit v phase) → phase.owns = true →
    s.shared.monitor.owner = some t ∧ s.shared.lease = none
  lease : ∀ l, s.shared.lease = some l → s.shared.monitor.owner = some l.holder
  seen : ∀ t v phase, (s.calls t).active = some (.visit v phase) → v.Seen s.shared.monitor phase

/-- While a thread owns the lock, the others can do no more than add and remove sleepers. -/
theorem eq_sleepers_of_turned (h : Turned t choice g call g' r) (hu : u ≠ t)
    (howner : g.monitor.owner = some u)
    (hlease : ∀ l, g.lease = some l → g.monitor.owner = some l.holder)
    (hown : ∀ v phase, call = .visit v phase → phase.owns = true → g.monitor.owner = some t) :
    ∃ sleepers, g' = { g with monitor := { g.monitor with sleepers := sleepers } } := by
  have hnot : g.monitor.owner ≠ some t := by
    rw [howner]
    exact fun h => hu (Option.some.inj h)
  cases h with
  | @visitedOn v phase phase' monitor hturn =>
      cases Visit.turned_of_turn hturn with
      | arrived hfree | woken _ hfree | wokenLate hfree =>
          rw [howner] at hfree
          cases hfree
      | tested _ _ | untested _ _ | slept | acted _ => exact absurd (hown v _ rfl rfl) hnot
      | stirred _ | expired _ _ => exact ⟨_, rfl⟩
  | @visitedOver v outcome monitor hturn => exact absurd (hown v _ rfl rfl) hnot
  | notified sleepers _ => exact ⟨sleepers, rfl⟩
  | leased hfree | excluded _ hfree =>
      rw [howner] at hfree
      cases hfree
  | used _ hsome hholder _ _ => exact absurd (hholder ▸ hlease _ hsome) hnot

/-- A step of a call keeps the lease with the owner of the lock. -/
theorem lease_of_turned (h : Turned t choice g call g' r)
    (hlease : ∀ l, g.lease = some l → g.monitor.owner = some l.holder)
    (hown : ∀ v phase, call = .visit v phase → phase.owns = true → g.lease = none) :
    ∀ l, g'.lease = some l → g'.monitor.owner = some l.holder := by
  intro l hl
  cases h with
  | @visitedOn v phase phase' monitor hturn =>
      cases Visit.turned_of_turn hturn with
      | arrived hfree | woken _ hfree | wokenLate hfree =>
          rw [hlease l hl] at hfree
          cases hfree
      | tested _ _ | untested _ _ | slept | acted _ =>
          rw [hown v _ rfl rfl] at hl
          cases hl
      | stirred _ | expired _ _ => exact hlease l hl
  | @visitedOver v outcome monitor hturn =>
      rw [hown v _ rfl rfl] at hl
      cases hl
  | notified sleepers _ => exact hlease l hl
  | leased _ =>
      cases hl
      rfl
  | excluded _ _ => exact hlease l hl
  | used _ hsome hholder hkept _ =>
      rcases hkept with ⟨l', hl', hholder', howner⟩ | ⟨hnone, -⟩
      · obtain rfl : l' = l := Option.some.inj (hl'.symm.trans hl)
        rw [howner, hlease _ hsome, hholder, hholder']
      · rw [hnone] at hl
        cases hl

/-- A visit that goes on in a phase that owns the lock is its owner, and nobody has a lease. -/
theorem owner_of_visit {v : Visit α β} {phase phase' : Phase β} {monitor : Monitor α}
    (h : v.turn t choice g.monitor phase = some (monitor, .on phase'))
    (hlease : ∀ l, g.lease = some l → g.monitor.owner = some l.holder)
    (hown : phase.owns = true → g.monitor.owner = some t ∧ g.lease = none)
    (howns' : phase'.owns = true) : monitor.owner = some t ∧ g.lease = none := by
  refine ⟨(Visit.owner_of_turn h fun howns => (hown howns).1).1 howns', ?_⟩
  cases howns : phase.owns with
  | true => exact (hown howns).2
  | false =>
      have hfree := Visit.free_of_turn h howns howns'
      cases hl : g.lease with
      | none => rfl
      | some l =>
          rw [hlease l hl] at hfree
          cases hfree

/-- A call that begins owns nothing and has seen nothing. -/
theorem Guards.of_fresh {request : Call α β} (hs : Guards s) :
    Guards (s.withCalls t ⟨some request.fresh, (s.calls t).waiting⟩) := by
  have hactive : ∀ u v phase,
      ((s.withCalls t ⟨some request.fresh, (s.calls t).waiting⟩).calls u).active =
        some (.visit v phase) →
      phase = .arriving ∨ (s.calls u).active = some (.visit v phase) := by
    intro u v phase h
    by_cases hu : u = t
    · subst hu
      simp only [Scene.withCalls_calls, Function.update_self, Option.some.injEq] at h
      cases request with
      | visit _ _ =>
          cases h
          exact .inl rfl
      | _ => cases h
    · rw [Scene.withCalls_calls, Function.update_of_ne hu] at h
      exact .inr h
  constructor
  case waiting =>
    intro u
    by_cases hu : u = t
    · subst hu
      simpa using hs.waiting u
    · rw [Scene.withCalls_calls, Function.update_of_ne hu]
      exact hs.waiting u
  case owner =>
    intro u v phase h howns
    rcases hactive u v phase h with rfl | h
    · cases howns
    · exact hs.owner u v phase h howns
  case lease => exact hs.lease
  case seen =>
    intro u v phase h
    rcases hactive u v phase h with rfl | h
    · exact trivial
    · exact hs.seen u v phase h

/-- A call that goes on after a turn is a visit that goes on. -/
theorem visit_of_after {rest : List (Call α β)} {v : Visit α β} {phase' : Phase β}
    (h : turn t choice g call = some (g', r))
    (hafter : (Calls.after call rest r).active = some (.visit v phase')) :
    ∃ phase monitor, call = .visit v phase ∧ g' = { g with monitor := monitor } ∧
      v.turn t choice g.monitor phase = some (monitor, .on phase') := by
  cases r with
  | stay call' =>
      cases hafter
      obtain ⟨v', phase, phase'', monitor, hcall, hv, hg, hvisit⟩ := visit_of_stay h rfl
      cases hv
      exact ⟨phase, monitor, hcall, hg, hvisit⟩
  | abort => exact absurd rfl (turn_plain h).1
  | run _ _ | ret _ | fail _ => cases hafter

/-- A call has made a step: the invariant after that. -/
theorem guards_of_turn {rest : List (Call α β)} {history : List (Tid × ε)} (hs : Guards s)
    (hactive : s.calls t = ⟨some call, rest⟩) (h : turn t choice s.shared call = some (g', r)) :
    Guards { shared := g', history := history,
             calls := Function.update s.calls t (Calls.after call rest r) } := by
  have hrest : rest = [] := by
    have hnil := hs.waiting t
    rwa [hactive] at hnil
  have hown : ∀ v phase, call = .visit v phase → phase.owns = true →
      s.shared.monitor.owner = some t ∧ s.shared.lease = none := by
    rintro v phase rfl howns
    exact hs.owner t v phase (by rw [hactive]) howns
  -- what the others have seen stays, because they own the lock or see nothing
  have hothers : ∀ u v phase, u ≠ t → (s.calls u).active = some (.visit v phase) →
      phase.owns = true →
      ∃ sleepers, g' = { s.shared with
        monitor := { s.shared.monitor with sleepers := sleepers } } := by
    intro u v phase hu hactive' howns
    obtain ⟨howner, -⟩ := hs.owner u v phase hactive' howns
    exact eq_sleepers_of_turned (turned_of_turn h) hu howner hs.lease
      fun v phase hv howns => (hown v phase hv howns).1
  constructor
  case waiting =>
    intro u
    by_cases hu : u = t
    · subst hu
      simp only [Function.update_self]
      cases r with
      | run code call' => exact absurd rfl ((turn_plain h).2 code call')
      | stay _ | ret _ | fail _ | abort => exact hrest
    · simp only [Function.update_of_ne hu]
      exact hs.waiting u
  case owner =>
    intro u v phase' hactive' howns'
    by_cases hu : u = t
    · subst hu
      simp only [Function.update_self] at hactive'
      obtain ⟨phase, monitor, rfl, rfl, hvisit⟩ := visit_of_after h hactive'
      exact owner_of_visit (g := s.shared) hvisit hs.lease (hown v phase rfl) howns'
    · simp only [Function.update_of_ne hu] at hactive'
      obtain ⟨sleepers, rfl⟩ := hothers u v phase' hu hactive' howns'
      exact hs.owner u v phase' hactive' howns'
  case lease =>
    exact lease_of_turned (turned_of_turn h) hs.lease
      fun v phase hv howns => (hown v phase hv howns).2
  case seen =>
    intro u v phase' hactive'
    by_cases hu : u = t
    · subst hu
      simp only [Function.update_self] at hactive'
      obtain ⟨phase, monitor, rfl, rfl, hvisit⟩ := visit_of_after h hactive'
      exact Visit.seen_of_turn hvisit (hs.seen u v phase (by rw [hactive]))
    · simp only [Function.update_of_ne hu] at hactive'
      have hseen := hs.seen u v phase' hactive'
      cases howns : phase'.owns with
      | true =>
          obtain ⟨sleepers, rfl⟩ := hothers u v phase' hu hactive' howns
          exact Visit.seen_sleepers hseen sleepers
      | false => exact Visit.seen_of_not_owns hseen howns

/-- **The invariant, one step.** -/
theorem guards_of_step
    (h : Scene.Step (library : Library κ (Guarded α) (Call α β) (Answer β) ρ ε) t s s')
    (hs : Guards s) : Guards s' := by
  cases h with
  | noted _ _ => exact ⟨hs.waiting, hs.owner, hs.lease, hs.seen⟩
  | called hcode hbegins =>
      obtain ⟨request, rfl⟩ := hbegins
      exact hs.of_fresh
  | resumed result hwaits =>
      have hnil := hs.waiting t
      rw [hwaits] at hnil
      cases hnil
  | turned hactive hturn =>
      obtain ⟨⟨g₁, r₁⟩, hturn, heq⟩ := Option.map_eq_some_iff.mp hturn
      cases heq
      exact guards_of_turn hs hactive hturn

/-! ### All runs -/

section Runs

variable {next : κ → Move κ ω (Call α β) (Answer β) ρ ε} {value : α} {world : ω} {codes : List κ}

/-- No run is aborted. -/
theorem live_of_reach {s : State κ ω (Guarded α) (Call α β) (Answer β) ε}
    (h : (machine next).Reach (.ofCodes (new value) world codes) s) : s.aborted = false := by
  refine h.not_aborted rfl fun t choice g call r hr => ?_
  obtain ⟨⟨g', turn⟩, hturn, rfl⟩ := Option.map_eq_some_iff.mp hr
  exact (turn_plain hturn).1

/-- The invariant holds in every reachable state. -/
theorem exists_guards {s : State κ ω (Guarded α) (Call α β) (Answer β) ε}
    (h : (machine next).Reach (.ofCodes (new value) world codes) s) :
    ∃ v : Scene (Guarded α) (Call α β) ε, Guards v ∧ v.shared = s.shared ∧
      ∀ t, v.calls t = callsOf (s.stack t) := by
  obtain ⟨v, hv, hshows⟩ := (machine_fits next).reach_shows
    (Machine.shows_ofCodes (fun _ => rfl) _ _ _) h
  refine ⟨v, ?_, hshows.shared_eq, hshows.calls_eq (live_of_reach h)⟩
  refine hv.invariant ⟨fun _ => rfl, nofun, nofun, nofun⟩ ?_
  exact fun t s s' _ hs hstep => guards_of_step hstep hs

/-- The layers of a thread after a step of its visit. -/
def afterVisit (v : Visit α β) (rest : Stack κ (Call α β) (Answer β)) :
    Progress β → Stack κ (Call α β) (Answer β)
  | .on phase => .call (.visit v phase) :: rest
  | .ended outcome => Machine.afterTurn rest (visitTurn outcome)

/-- A thread in a visit goes on by a step of the visit. -/
theorem visit_of_step {s s' : State κ ω (Guarded α) (Call α β) (Answer β) ε} {t : Tid}
    {choice : Choice} {v : Visit α β} {phase : Phase β} {rest : Stack κ (Call α β) (Answer β)}
    (hstack : s.stack t = .call (.visit v phase) :: rest)
    (h : (machine next).step t choice s = some s') :
    ∃ monitor progress, v.turn t choice s.shared.monitor phase = some (monitor, progress) ∧
      s'.shared.monitor = monitor ∧ s'.stack t = afterVisit v rest progress := by
  obtain ⟨g', events, r, hturn, hshared, -, hstack'⟩ := Machine.turn_of_step hstack h
  obtain ⟨⟨g₁, r₁⟩, hturn, heq⟩ := Option.map_eq_some_iff.mp hturn
  cases heq
  obtain ⟨⟨monitor, progress⟩, hvisit, heq⟩ := Option.map_eq_some_iff.mp hturn
  cases heq
  refine ⟨monitor, progress, hvisit, by rw [hshared], ?_⟩
  rw [hstack']
  cases progress <;> rfl

/-- **What a wait sees.** In every run, at every moment, for every visit that waits for a
predicate `p`:

* if it is about to run its critical section, `p` is true of the value, unless the visit has
  slept and the monitor is poisoned;
* if it is about to give up, its time is limited, and `p` is false of the value, unless the
  monitor is poisoned;
* its critical section runs on the value that is there, and makes it leave with the outcome, so
  a visit that has run its section does not give up;
* when its sleep has ended, its next step leads to a test if the monitor is not poisoned, and
  without a test to the section or to giving up if it is.

So a wait sees what it waited for exactly as long as no fault has poisoned the monitor. -/
theorem wait_sees {s : State κ ω (Guarded α) (Call α β) (Answer β) ε}
    (h : (machine next).Reach (.ofCodes (new value) world codes) s) {t : Tid} {v : Visit α β}
    {phase : Phase β} {rest : Stack κ (Call α β) (Answer β)} {p : α → Except Fault Bool}
    (hstack : s.stack t = .call (.visit v phase) :: rest) (hawait : v.await = some p) :
    (∀ again, phase = .acting again → p s.shared.monitor.value = .ok true ∨
        (again = true ∧ s.shared.monitor.poisoned = true)) ∧
      (phase = .leaving (.ok none) → v.limited = true ∧
        (p s.shared.monitor.value = .ok false ∨ s.shared.monitor.poisoned = true)) ∧
      ∀ choice s', (machine next).step t choice s = some s' →
        (∀ again, phase = .acting again →
          s'.shared.monitor.value = (v.body s.shared.monitor.value).1 ∧
          s'.stack t = .call (.visit v (.leaving
            ((v.body s.shared.monitor.value).2.map some))) :: rest) ∧
        (∀ outcome, phase = .leaving outcome →
          s'.stack t = Machine.afterTurn rest (visitTurn outcome)) ∧
        (phase = .asleep → t ∉ s.shared.monitor.sleepers →
          s'.shared.monitor.value = s.shared.monitor.value ∧
          s'.stack t = .call (.visit v
            (if s.shared.monitor.poisoned then .acting true else .testing true)) :: rest) ∧
        (phase = .overslept →
          s'.shared.monitor.value = s.shared.monitor.value ∧
          s'.stack t = .call (.visit v
            (if s.shared.monitor.poisoned then .leaving (.ok none) else .testing true)) ::
              rest) := by
  obtain ⟨scene, hguards, hshared, hcalls⟩ := exists_guards h
  have hseen : v.Seen s.shared.monitor phase := by
    rw [← hshared]
    exact hguards.seen t v phase (by rw [hcalls, hstack, callsOf_call])
  refine ⟨?_, ?_, fun choice s' hstep => ?_⟩
  · rintro again rfl
    exact hseen p hawait
  · rintro rfl
    exact hseen p hawait
  · obtain ⟨monitor, progress, hvisit, hmonitor, hstack'⟩ := visit_of_step hstack hstep
    rw [hmonitor, hstack']
    refine ⟨?_, ?_, ?_, ?_⟩
    · rintro again rfl
      cases hvisit
      exact ⟨rfl, rfl⟩
    · rintro outcome rfl
      cases outcome <;>
      · cases hvisit
        rfl
    · rintro rfl hnotified
      cases Visit.turned_of_turn hvisit with
      | woken _ _ => exact ⟨rfl, rfl⟩
      | stirred hsleeps | expired hsleeps _ => exact absurd hsleeps hnotified
    · rintro rfl
      cases Visit.turned_of_turn hvisit with
      | wokenLate _ => exact ⟨rfl, rfl⟩

/-! A run in which a thread waits for the value one, another thread fails in a critical section
and then notifies. -/

/-- Waits for the value one, and adds ten to it. -/
def waitForOne : Visit Nat Nat :=
  { await := some fun n => .ok (n == 1), body := fun n => (n + 10, .ok n) }

/-- Fails in a critical section, and notifies. -/
def failAndNotify : Script (Call Nat Nat) (Answer Nat) Unit Unit Unit := do
  let _ ← Script.attempt (.visiting (.plain fun n => (n, .error (.text "boom"))))
  let _ ← Script.ask .notifyOne

/-- The state after a number of steps of the two threads, the waiting one whenever it can. -/
def waitBesideFailure (steps : Nat) : State (Script (Call Nat Nat) (Answer Nat) Unit Unit Unit)
    Unit (Guarded Nat) (Call Nat Nat) (Answer Nat) Unit :=
  (machine (Script.next id)).settle [(0, .go 0), (1, .go 0)] steps
    (.ofCodes (new 0) () [do let _ ← Script.ask (.visiting waitForOne), failAndNotify])

theorem waitBesideFailure_reach (steps : Nat) :
    (machine (Script.next id)).Reach
      (.ofCodes (new 0) () [do let _ ← Script.ask (.visiting waitForOne), failAndNotify])
      (waitBesideFailure steps) :=
  Machine.reach_settle _ _ .start

theorem wait_sees_waitBesideFailure :
    (waitBesideFailure 11).stack 0 =
        .call (.visit waitForOne (.acting true)) :: ((waitBesideFailure 11).stack 0).tail ∧
      (.ok ((waitBesideFailure 11).shared.monitor.value == 1) = (.ok true : Except Fault Bool) ∨
        (true = true ∧ (waitBesideFailure 11).shared.monitor.poisoned = true)) :=
  ⟨rfl, (wait_sees (waitBesideFailure_reach 11) (t := 0) (v := waitForOne) rfl rfl).1 true rfl⟩

/-- **A fault elsewhere makes a wait go on untested.** There is a run in which a waiting visit is
about to run its critical section on a value of which its predicate is false. -/
theorem untested_section :
    ∃ s : State (Script (Call Nat Nat) (Answer Nat) Unit Unit Unit) Unit (Guarded Nat)
        (Call Nat Nat) (Answer Nat) Unit, ∃ rest,
      (machine (Script.next id)).Reach
        (.ofCodes (new 0) () [do let _ ← Script.ask (.visiting waitForOne), failAndNotify]) s ∧
      s.stack 0 = .call (.visit waitForOne (.acting true)) :: rest ∧
      waitForOne.await.map (fun p => p s.shared.monitor.value) = some (.ok false) :=
  ⟨waitBesideFailure 11, _, waitBesideFailure_reach 11, rfl, rfl⟩

end Runs

end Guarded

end Offload
