import Offload.Proofs.Channel.Matching
import Offload.Proofs.Pipeline.Retiring

/-!
# The worker's cycle

On a pipeline with a hook, what the worker notes is one whole **cycle** after the other: a task is
taken, its body begins and returns, its result is published, and the hook is called. What it has
noted since the last whole cycle is settled by where it stands (`Since`). A step of the worker's own
adds to that, or makes it whole; no other step adds to it. As the worker's call is the outermost of
its thread, the code that it runs stands alone above it: so a body and a call of the hook never
overlap, and neither do two calls of the hook.

The mark that the worker is busy goes up after a task is taken and down again before the next pop,
or when a fault has struck; so it is up while code of the worker runs.

## Main results

* `Work.since_of_turn`, `cycling_of_moved`: the cycle, kept by every step.
* `split_at_hooked`: what comes before a call of the hook.
* `busy_of_reach`: when the worker is marked busy.
* `nears_hook`: the worker's way from the return of a body to the hook.
* `worker_cycle`: all of it, in every run.
-/

namespace Offload.Pipeline

variable {κ ω V E ν : Type} {plan : Plan κ} {hook : κ} {t : Tid} {choice : Choice}

/-! ### What the worker notes -/

/-- What the worker notes in a whole cycle, for a task whose body returns an outcome. -/
def cycle (entry : Ticket × Except E V) : List (Event V E ν) :=
  [.taken entry.1, .began entry.1, .returned entry.1 entry.2, .published entry.1, .hooked]

/-- Whether a fault can have struck the worker when it has noted this since the last whole cycle: the
hook has failed, or a body has. -/
def Struck (since : List (Event V E ν)) : Prop :=
  since = [] ∨ ∃ ticket, since = [.taken ticket, .began ticket]

/-- What the worker has noted since the last whole cycle, where it is at `w` unless it has ended, and
`waits` says whether it waits for code. The call of the hook makes a cycle whole. -/
inductive Since (health : Health) (waits : Bool) :
    Option (Work κ V E) → List (Event V E ν) → Prop where
  | seeking {p : Channel.Pop (Entry κ V E)} : p.held = none →
      Since health waits (some (.popping p)) []
  | took {p : Channel.Pop (Entry κ V E)} {ticket : Ticket} {task : Task κ V E} :
      p.held = some (.run ticket task) → Since health waits (some (.popping p)) [.taken ticket]
  | tookStop {p : Channel.Pop (Entry κ V E)} : p.held = some .stop →
      Since health waits (some (.popping p)) [.stopTaken]
  | entering (ticket : Ticket) (task : Task κ V E) :
      Since health waits (some (.entering ticket task)) [.taken ticket]
  | starting (ticket : Ticket) (task : Task κ V E) :
      Since health waits (some (.starting ticket task)) [.taken ticket]
  | running (ticket : Ticket) (task : Task κ V E) :
      Since health waits (some (.running ticket task)) [.taken ticket, .began ticket]
  | returning (f : Finished κ V E) :
      Since health waits (some (.returning f)) [.taken f.ticket, .began f.ticket]
  | publishing {p : Channel.Push (Finished κ V E)} {f : Finished κ V E} : p.ahead = some f →
      Since health waits (some (.publishing p))
        [.taken f.ticket, .began f.ticket, .returned f.ticket f.outcome]
  | awaiting {p : Channel.Push (Finished κ V E)} (ticket : Ticket) (outcome : Except E V) :
      p.awaitsHook = true → waits = false → Since health waits (some (.publishing p))
        [.taken ticket, .began ticket, .returned ticket outcome, .published ticket]
  | called : waits = true → Since health waits (some (.publishing .hooking)) []
  | ended (outcome : Except Fault Unit) :
      Since health waits (some (.publishing (.ending outcome))) []
  | resting : Since health waits (some .resting) []
  | leaving : Since health waits (some .leaving) [.stopTaken]
  | failing (fault : Fault) {since : List (Event V E ν)} : Struck since →
      Since health waits (some (.failing fault)) since
  | dying (fault : Fault) {since : List (Event V E ν)} : Struck since →
      Since health waits (some (.dying fault)) since
  | exited : health = .exited →
      Since health waits none [.stopTaken, .notice .exiting, .workerExited]
  | dead (fault : Fault) {since : List (Event V E ν)} : health = .dead fault → Struck since →
      Since health waits none (since ++ [.workerDied fault])

variable {health : Health} {waits : Bool} {since : List (Event V E ν)}

/-- The calls of the hook are all in whole cycles. -/
theorem Since.hooked_notMem {w : Option (Work κ V E)} (h : Since health waits w since) :
    .hooked ∉ since := by
  cases h with
  | failing _ hstruck | dying _ hstruck => obtain rfl | ⟨ticket, rfl⟩ := hstruck <;> simp
  | dead _ _ hstruck => obtain rfl | ⟨ticket, rfl⟩ := hstruck <;> simp
  | _ => simp

/-- **What comes before a call of the hook**: some whole cycles, and all of the one that it makes
whole. -/
theorem split_at_hooked {whole : List (Ticket × Except E V)} {before after : List (Event V E ν)}
    (hsince : .hooked ∉ since) (h : whole.flatMap cycle ++ since = before ++ .hooked :: after) :
    ∃ earlier entry later, whole = earlier ++ entry :: later ∧
      before = earlier.flatMap cycle ++ [.taken entry.1, .began entry.1,
        .returned entry.1 entry.2, .published entry.1] ∧
      after = later.flatMap cycle ++ since := by
  induction whole generalizing before with
  | nil =>
      refine absurd ?_ hsince
      rw [List.flatMap_nil, List.nil_append] at h
      rw [h]
      exact List.mem_append_right _ List.mem_cons_self
  | cons entry whole ih =>
      rw [List.flatMap_cons, cycle] at h
      -- the call is that of the first cycle, or it comes later
      rcases before with _ | ⟨_, _ | ⟨_, _ | ⟨_, _ | ⟨_, _ | ⟨_, before⟩⟩⟩⟩⟩
      · cases h
      · cases h
      · cases h
      · cases h
      · simp only [List.cons_append, List.nil_append, List.cons.injEq, true_and] at h
        obtain ⟨rfl, rfl, rfl, rfl, rfl⟩ := h
        exact ⟨[], entry, whole, rfl, rfl, rfl⟩
      · simp only [List.cons_append, List.nil_append, List.cons.injEq] at h
        obtain ⟨rfl, rfl, rfl, rfl, rfl, hrest⟩ := h
        obtain ⟨earlier, entry', later, rfl, rfl, rfl⟩ := ih hrest
        exact ⟨entry :: earlier, entry', later, rfl, rfl, rfl⟩

/-! ### One step -/

/-- A push that awaits the hook has no item ahead. -/
theorem ahead_eq_none {p : Channel.Push (Finished κ V E)} (h : p.awaitsHook = true) :
    p.ahead = none := by
  cases p with
  | adding f phase =>
      obtain ⟨answer, hheld⟩ := Option.isSome_iff_exists.mp h
      simp [Channel.Push.ahead, hheld]
  | notifying | hooking | ending _ => rfl

namespace Work

variable {s s' : Pipeline κ V E} {events : List (Event V E ν)} {w : Work κ V E}
  {r : Turn κ (Work κ V E) Unit}

/-- A push of the worker to a channel with a hook takes one of the steps of such a push. -/
theorem turned_of_published {p : Channel.Push (Finished κ V E)} {finished : Channel (Finished κ V E)}
    {marks : List (Channel.Mark (Finished κ V E))}
    {r : Turn κ (Channel.Push (Finished κ V E)) Unit} (hplan : plan.hook = some hook)
    (h : p.turn plan.hook t choice s.finished = some (finished, marks, r))
    (hsound : (publishing p).IsSound) :
    Channel.Push.Turned hook s.finished finished p marks r := by
  rw [hplan] at h
  exact Channel.Push.turned_of_turn h hsound

/-- **The cycle, one step of the worker.** What it has noted since the last whole cycle grows by what
it notes, and may become whole. -/
theorem since_of_turn (hplan : plan.hook = some hook) (h : Turned plan t choice s w s' events r)
    (hsound : w.IsSound) (hs : Since s.health false (some w) since) :
    ∃ (whole : List (Ticket × Except E V)) (since' : List (Event V E ν)),
      since ++ events = whole.flatMap cycle ++ since' ∧
      Since s'.health (ran? r).isSome r.next? since' := by
  cases h with
  | @popped p pending marks r hpop =>
      obtain ⟨-, rfl⟩ | ⟨entry, -, -, -, rfl, -⟩ := Channel.Pop.marks_of_turn hpop
      · have hheld := Channel.Pop.held_of_turn hpop
        refine ⟨[], since, List.append_nil since, ?_⟩
        rcases r with p' | ⟨code, p'⟩ | answer | fault | _
        · cases hs with
          | seeking hnone => exact .seeking (hheld.symm.trans hnone)
          | took hsome => exact .took (hheld.symm.trans hsome)
          | tookStop hsome => exact .tookStop (hheld.symm.trans hsome)
        · exact absurd rfl ((Channel.Pop.turn_plain hpop).2 code p')
        · cases hs with
          | seeking hnone =>
              obtain rfl : answer = none := hheld.symm.trans hnone
              exact .seeking rfl
          | took hsome =>
              obtain rfl := hheld.symm.trans hsome
              exact .entering _ _
          | tookStop hsome =>
              obtain rfl := hheld.symm.trans hsome
              exact .leaving
        · exact absurd rfl (Channel.Pop.ne_fail_of_turn hsound hpop fault)
        · exact absurd rfl (Channel.Pop.turn_plain hpop).1
      · obtain ⟨hnone, p', rfl, hheld⟩ := Channel.Pop.held_of_popped hpop
        cases hs with
        | seeking _ =>
            cases entry with
            | run ticket task => exact ⟨[], _, rfl, .took hheld⟩
            | stop => exact ⟨[], _, rfl, .tookStop hheld⟩
        | took hsome | tookStop hsome => cases hnone.symm.trans hsome
  | entered ticket task =>
      cases hs with
      | entering => exact ⟨[], _, rfl, .starting ticket task⟩
  | began ticket task =>
      cases hs with
      | starting => exact ⟨[], _, rfl, .running ticket task⟩
  | returned f =>
      cases hs with
      | returning => exact ⟨[], _, rfl, .publishing rfl⟩
  | @published p finished marks r hpush =>
      cases turned_of_published hplan hpush hsound with
      | arrived f =>
          cases hs with
          | publishing hahead =>
              cases hahead
              exact ⟨[], _, rfl, .publishing rfl⟩
          | awaiting _ _ howes _ => cases howes
      | added f again =>
          cases hs with
          | publishing hahead =>
              cases hahead
              exact ⟨[], _, rfl, .awaiting f.ticket f.outcome rfl rfl⟩
          | awaiting _ _ howes _ => cases howes
      | neared howes howes' =>
          cases hs with
          | publishing hahead => cases (ahead_eq_none howes).symm.trans hahead
          | awaiting ticket outcome _ _ =>
              exact ⟨[], _, List.append_nil _, .awaiting ticket outcome howes' rfl⟩
          | called hcode => cases hcode
          | ended outcome => cases howes
      | called _ =>
          cases hs with
          | publishing hahead => cases hahead
          | awaiting ticket outcome _ _ => exact ⟨[(ticket, outcome)], [], rfl, .called rfl⟩
          | called hcode => cases hcode
      | ended outcome _ =>
          cases hs with
          | publishing hahead => cases hahead
          | awaiting _ _ howes _ => cases howes
          | ended =>
              rcases outcome with fault | ⟨⟩
              · exact ⟨[], [], rfl, .failing fault (.inl rfl)⟩
              · exact ⟨[], [], rfl, .resting⟩
  | rested =>
      cases hs with
      | resting => exact ⟨[], [], rfl, .seeking rfl⟩
  | left =>
      cases hs with
      | leaving => exact ⟨[], _, rfl, .exited rfl⟩
  | failed fault =>
      cases hs with
      | failing _ hstruck => exact ⟨[], _, List.append_nil _, .dying fault hstruck⟩
  | died fault =>
      cases hs with
      | dying _ hstruck => exact ⟨[], _, rfl, .dead fault rfl hstruck⟩

/-- **The cycle, when code has ended** that the worker ran. -/
theorem since_resume (hcode : w.runsCode = true) (hs : Since health true (some w) since)
    (result : Except Fault (Except E V)) : Since health false (some (w.resume result)) since := by
  obtain ⟨ticket, task, rfl⟩ | rfl := cases_of_runsCode hcode
  · cases hs with
    | running =>
        cases result with
        | ok outcome => exact .returning _
        | error fault => exact .failing fault (.inr ⟨ticket, rfl⟩)
  · cases hs with
    | publishing hahead => cases hahead
    | awaiting _ _ _ hcode => cases hcode
    | called _ => exact .ended _

/-- The worker calls the hook exactly in the step in which it begins to wait for it. -/
theorem hooked_iff (hplan : plan.hook = some hook) (h : Turned plan t choice s w s' events r)
    (hsound : w.IsSound) :
    .hooked ∈ events ↔ w = .publishing .hooking ∧ r = .run hook (.publishing .hooking) := by
  cases h with
  | @popped p pending marks r hpop =>
      obtain ⟨-, rfl⟩ | ⟨entry, -, -, -, rfl, -⟩ := Channel.Pop.marks_of_turn hpop
      · simp
      · cases entry <;> simp [pendingEvent]
  | @published p finished marks r hpush =>
      cases turned_of_published hplan hpush hsound with
      | called _ => exact ⟨fun _ => ⟨rfl, rfl⟩, fun _ => List.mem_singleton_self _⟩
      | arrived _ | neared _ _ => simp [Turn.within]
      | added _ _ => simp [Turn.within, finishedEvent]
      | ended outcome _ => cases outcome <;> simp
  | entered | began | returned | rested | left | failed | died => simp

/-! ### The way to the hook -/

/-- How many steps of its own the worker has to make until it calls the hook, if its body has
returned and it has not yet called it. -/
def hookToGo : Work κ V E → Option Nat
  | .returning _ => some 6
  | .publishing (.ending _) => none
  | .publishing p => some p.toGo
  | _ => none

theorem hookToGo_le {n : Nat} (h : w.hookToGo = some n) : n ≤ 6 := by
  cases w with
  | returning f =>
      cases h
      exact Nat.le_refl _
  | publishing p =>
      have hle := p.toGo_le
      cases p with
      | adding _ _ | notifying | hooking =>
          cases h
          omega
      | ending _ => cases h
  | popping _ | entering _ _ | starting _ _ | running _ _ | resting | leaving | failing _
  | dying _ => cases h

/-- The worker on its way to the hook calls it, or comes nearer. -/
theorem hookToGo_of_turn {n : Nat} (hplan : plan.hook = some hook)
    (h : Turned plan t choice s w s' events r) (hsound : w.IsSound) (hw : w.hookToGo = some n) :
    r = .run hook (.publishing .hooking) ∧ events = [.hooked] ∨
      ∃ w' n', r = .stay w' ∧ w'.hookToGo = some n' ∧ n' < n := by
  cases h with
  | returned f =>
      cases hw
      exact .inr ⟨_, _, rfl, rfl, Nat.lt_succ_self _⟩
  | @published p finished marks r hpush =>
      have hpush' := hpush
      cases turned_of_published hplan hpush hsound with
      | arrived f | added f again =>
          cases hw
          exact .inr ⟨_, _, rfl, rfl, Nat.lt_succ_self _⟩
      | @neared p p' howes howes' =>
          cases p with
          | adding f phase =>
              obtain ⟨⟨c₁, progress⟩, hvisit, heq⟩ := Option.map_eq_some_iff.mp hpush'
              cases hw
              obtain ⟨⟨⟩, hheld⟩ := Option.isSome_iff_exists.mp howes
              obtain rfl := Phase.held_eq_some hheld
              cases hvisit
              cases heq
              exact .inr ⟨_, _, rfl, rfl, Nat.lt_succ_self _⟩
          | notifying =>
              cases hw
              cases hpush'
              exact .inr ⟨_, _, rfl, rfl, Nat.lt_succ_self _⟩
          | hooking =>
              rw [hplan] at hpush'
              cases hpush'
          | ending _ => cases howes
      | called _ => exact .inl ⟨rfl, rfl⟩
      | ended outcome _ => cases hw
  | popped _ | entered | began | rested | left | failed | died => cases hw

/-- The worker on its way to the hook goes on when the lock of the finished channel is free. -/
theorem isSome_turn_of_hookToGo {n : Nat} (hw : w.hookToGo = some n) (hsound : w.IsSound)
    (hfree : s.finished.owner = none) :
    (w.turn plan t choice s : Option (Pipeline κ V E × List (Event V E ν) ×
      Turn κ (Work κ V E) Unit)).isSome = true := by
  cases w with
  | returning f => rfl
  | publishing p =>
      rw [turn, Option.isSome_map, Channel.Push.isSome_turn hsound, hfree]
      exact Bool.or_true _
  | popping _ | entering _ _ | starting _ _ | running _ _ | resting | leaving | failing _
  | dying _ => cases hw

end Work

/-! ### Scenes -/

section Scenes

variable {v v' : View κ V E ν} {w w' : Option (Work κ V E)}

/-- What the worker has noted, where it is at `w` unless it has ended: whole cycles, and then what is
settled by where it is. No other thread notes any of it. -/
structure Cycling (w : Option (Work κ V E)) (v : View κ V E ν) : Prop where
  cycles : ∃ (whole : List (Ticket × Except E V)) (since : List (Event V E ν)),
    worked v.history = whole.flatMap cycle ++ since ∧ Since v.shared.health (inCode v) w since
  thread : ∀ entry ∈ v.history, entry.2.source = .work → entry.1 = workerThread

/-- **The cycle, one step.** -/
theorem cycling_of_moved (hplan : plan.hook = some hook) (h : WorkerMoved plan t v v' w w')
    (hduty : OnDuty w v) (hv : Cycling w v) : Cycling w' v' := by
  obtain ⟨whole, since, hworked, hsince⟩ := hv.cycles
  cases h with
  | stood events hbystander hhistory hwaiting _ =>
      have hincode : inCode v' = inCode v := by rw [inCode, hwaiting, inCode]
      refine ⟨⟨whole, since, ?_, ?_⟩, fun entry hentry hsource => ?_⟩
      · rw [hhistory, worked_others _ _ hbystander.source_ne, hworked]
      · rw [hincode, hbystander.health_eq]
        exact hsince
      · rw [hhistory] at hentry
        rcases List.mem_append.mp hentry with hentry | hentry
        · exact hv.thread entry hentry hsource
        · obtain ⟨event, hevent, rfl⟩ := List.mem_map.mp hentry
          exact absurd hsource (hbystander.source_ne event hevent)
  | resumed w₁ result _ hwaits hafter =>
      subst hafter
      have hcode : w₁.runsCode = true := hduty.waiting w₁ (by rw [hwaits]; exact List.mem_cons_self)
      have hincode : inCode v = true := by rw [inCode, hwaits]; rfl
      have hincode' :
          inCode (v.withCalls workerThread ⟨some (.work (w₁.resume result)), []⟩) = false := by
        rw [inCode, Scene.withCalls_calls, Function.update_self]
        rfl
      rw [hincode] at hsince
      refine ⟨⟨whole, since, hworked, ?_⟩, hv.thread⟩
      rw [hincode']
      exact Work.since_resume hcode hsince result
  | @turned w₁ choice events r _ hactive hturn hhistory hwaiting =>
      have hincode : inCode v = false := by rw [inCode, hactive]; rfl
      have hincode' : inCode v' = (Work.ran? r).isSome := by
        rw [inCode, hwaiting]
        cases Work.ran? r <;> rfl
      rw [hincode] at hsince
      obtain ⟨more, since', hgrown, hsince'⟩ :=
        Work.since_of_turn hplan hturn (hduty.sound w₁ rfl) hsince
      refine ⟨⟨whole ++ more, since', ?_, ?_⟩, fun entry hentry hsource => ?_⟩
      · rw [hhistory, worked_own _ _ (Work.source_of_turn hturn), hworked, List.append_assoc, hgrown,
          List.flatMap_append, List.append_assoc]
      · rw [hincode']
        exact hsince'
      · rw [hhistory] at hentry
        rcases List.mem_append.mp hentry with hentry | hentry
        · exact hv.thread entry hentry hsource
        · obtain ⟨event, -, rfl⟩ := List.mem_map.mp hentry
          rfl

/-- **The cycle.** In every reachable scene the worker is in its cycle. -/
theorem cycling_of_reach (hplan : plan.hook = some hook)
    (h : Scene.Reach (library plan) opening v) : ∃ w, Staff w v ∧ OnDuty w v ∧ Cycling w v := by
  have hopening : Cycling (some .start) (opening : View κ V E ν) :=
    ⟨⟨[], [], rfl, .seeking rfl⟩, nofun⟩
  refine h.invariant (P := fun v => ∃ w, Staff w v ∧ OnDuty w v ∧ Cycling w v)
    ⟨_, staff_opening, onDuty_opening, hopening⟩ ?_
  rintro t v₁ v₂ hs ⟨w, hstaff, hduty, hcycling⟩ hstep
  obtain ⟨w', hstaff', hworker⟩ := workerMoved_of_moved (moved_of_reach hs hstep) hstaff
  exact ⟨w', hstaff', onDuty_of_moved hworker hduty, cycling_of_moved hplan hworker hduty hcycling⟩

end Scenes

/-! ### States -/

section States

variable {next : κ → Move κ ω (Request κ V E) Answer (Except E V) ν} {world : ω} {codes : List κ}
  {s s' : State κ ω (Pipeline κ V E) (Call κ V E) Answer (Event V E ν)} {w : Work κ V E}
  {n k : Nat}

/-- Whether the worker waits for code. -/
def waitsForCode (s : State κ ω (Pipeline κ V E) (Call κ V E) Answer (Event V E ν)) : Bool :=
  !(picks Part.working? (callsOf (s.stack workerThread)).waiting).isEmpty

/-- **The mark.** While code of the worker runs the worker is marked busy, and it is not while it
looks for an entry and once it has ended. -/
theorem busy_of_reach (h : (machine plan next).Reach (start world codes) s) :
    (∀ above w, s.aborted = false → above ≠ [] →
      s.stack workerThread = above ++ [.call (.work w)] →
      w.runsCode = true ∧ s.shared.busy = true) ∧
    (∀ p, s.aborted = false → s.stack workerThread = [.call (.work (.popping p))] →
      s.shared.busy = false) ∧
    (s.shared.health ≠ .alive → s.shared.busy = false) := by
  obtain ⟨v, hv, hshows⟩ := exists_shows h
  obtain ⟨w, hstaff, hduty⟩ := onDuty_of_reach hv
  have hbusy := hduty.busy
  rw [hshows.shared_eq] at hbusy
  refine ⟨fun above w₁ hlive hne hstack => ?_, fun p hlive hstack => ?_, fun hhealth => ?_⟩
  · have hcalls := hshows.calls_eq hlive workerThread
    rw [hstack] at hcalls
    -- the worker's call is below other layers, so it waits
    have hwaits : w₁ ∈ picks Part.working? (v.calls workerThread).waiting := by
      obtain ⟨frame, above, rfl⟩ := List.exists_cons_of_ne_nil hne
      rw [hcalls]
      cases frame with
      | code _ | call _ | wait _ =>
          refine List.mem_filterMap.mpr ⟨.work w₁, ?_, rfl⟩
          simp [callsOf, Frame.call?, List.filterMap_append]
    have hcode := hduty.waiting w₁ hwaits
    have hall : w₁ ∈ picks Part.working? (v.calls workerThread).all := by
      rw [Calls.all, picks_append]
      exact List.mem_append_right _ hwaits
    rw [hstaff.sole workerThread, if_pos rfl, Option.mem_toList] at hall
    rw [Option.mem_def.mp hall] at hbusy
    refine ⟨hcode, hbusy.trans ?_⟩
    cases w₁ with
    | running _ _ | publishing _ => rfl
    | popping _ | entering _ _ | starting _ _ | returning _ | resting | leaving | failing _
    | dying _ => cases hcode
  · have hworker := worker_eq hshows hlive hstaff
    rw [worker, hstack] at hworker
    rw [← hworker] at hbusy
    exact hbusy
  · rw [hstaff.tally.health.mpr (hshows.shared_eq ▸ hhealth)] at hbusy
    exact hbusy

/-- A reading of the mark answers what it is at the moment of the reading. -/
theorem reads_busy {below : Stack κ (Call κ V E) Answer}
    (hstack : s.stack t = .call (.inside .busy) :: below)
    (hstep : (machine plan next).step t choice s = some s') :
    s'.stack t = .call (.closing (.ok (.flag s.shared.busy))) :: below := by
  obtain ⟨shared, events, r, hturn, -, -, hafter⟩ := Machine.turn_of_step hstack hstep
  cases hturn
  exact hafter

/-- The worker that stands alone on its thread is in a phase in which it can be. -/
theorem isSound_of_worker (h : (machine plan next).Reach (start world codes) s)
    (hlive : s.aborted = false) (hstack : s.stack workerThread = [.call (.work w)]) : w.IsSound := by
  obtain ⟨v, hv, hshows⟩ := exists_shows h
  obtain ⟨w₁, hstaff, hduty⟩ := onDuty_of_reach hv
  have hworker := worker_eq hshows hlive hstaff
  rw [worker, hstack] at hworker
  exact hduty.sound w hworker.symm

/-- A body that returns lets the worker go on with its outcome. -/
theorem returning_of_step {position : κ} {ticket : Ticket} {task : Task κ V E}
    {outcome : Except E V}
    (hstack : s.stack workerThread = [.code position, .call (.work (.running ticket task))])
    (hnext : next position = .ret outcome)
    (hstep : (machine plan next).step workerThread choice s = some s') :
    s'.stack workerThread = [.call (.work (.returning
      { ticket := ticket, outcome := outcome, onValue := task.onValue,
        onError := task.onError }))] := by
  have hended : ((machine plan next).next position).ended? = some (.ok outcome) := by
    rw [show (machine plan next).next position = (next position).map Request.call .note from rfl,
      Move.ended?_map, hnext]
    rfl
  rw [Machine.eq_of_ended hstack hended hstep]
  exact State.stack_withStack_self _ (by simp [hstack])

/-- Whether the hook has just been called: its code is about to begin, above the worker and nothing
else. -/
def HookCalled (hook : κ)
    (s : State κ ω (Pipeline κ V E) (Call κ V E) Answer (Event V E ν)) : Prop :=
  s.stack workerThread = [.code hook, .call (.work (.publishing .hooking))] ∧
    ∃ before, s.history = before ++ [(workerThread, .hooked)]

/-- **The way to the hook.** From the return of a body the worker comes to the hook by six steps of
its own at most. At each it can go on, or another thread, which can go on itself, owns the lock of
the finished channel. -/
theorem nears_hook (hplan : plan.hook = some hook)
    (h : (machine plan next).Reach (start world codes) s)
    (hstack : s.stack workerThread = [.call (.work w)]) (hw : w.hookToGo = some n)
    (h' : (machine plan next).Observed (Machine.ownSteps workerThread) s 0 s' k) :
    (∃ s₁, (machine plan next).Reach s s₁ ∧ (machine plan next).Reach s₁ s' ∧
      HookCalled hook s₁) ∨
    ∃ w' n', s'.stack workerThread = [.call (.work w')] ∧ w'.hookToGo = some n' ∧ n' + k ≤ n ∧
      (s'.aborted = false →
        (∀ choice, ((machine plan next).step workerThread choice s').isSome = true) ∨
          ∃ u, u ≠ workerThread ∧ s'.shared.finished.owner = some u ∧
            ∀ choice, ((machine plan next).step u choice s').isSome = true) := by
  have hnear := Machine.Observed.nears (m := machine plan next) (t := workerThread)
    (P := fun n s => (machine plan next).Reach (start world codes) s ∧
      ∃ w m, s.stack workerThread = [.call (.work w)] ∧ w.hookToGo = some m ∧ m ≤ n)
    (Q := HookCalled hook) ?_ ?_ ⟨h, w, n, hstack, hw, le_refl n⟩ h'
  · refine hnear.imp_right ?_
    rintro ⟨n', hle, hreach, w', m, hstack', hw', hm⟩
    refine ⟨w', m, hstack', hw', by omega, fun hlive => ?_⟩
    cases howner : s'.shared.finished.owner with
    | none =>
        refine .inl fun choice => (Machine.isSome_step_call hlive hstack' choice).trans ?_
        exact (Option.isSome_map ..).trans
          (Work.isSome_turn_of_hookToGo hw' (isSound_of_worker hreach hlive hstack') howner)
    | some u =>
        have hmoves := isSome_step_of_owner hreach hlive (l := .finished) nofun howner
        by_cases hu : u = workerThread
        · exact .inl (hu ▸ hmoves)
        · exact .inr ⟨u, hu, rfl, hmoves⟩
  · -- its own step takes the worker nearer
    rintro n s choice s' ⟨hreach, w, m, hstack, hw, hm⟩ hstep
    obtain ⟨shared, events, r, hturn, -, hhistory, hafter⟩ := Machine.turn_of_step hstack hstep
    obtain ⟨r', hturn', rfl⟩ := exists_of_nest hturn
    have hsound := isSound_of_worker hreach (Machine.stepped_of_step hstep).1 hstack
    rcases Work.hookToGo_of_turn hplan (Work.turned_of_turn hturn') hsound hw with
      ⟨rfl, rfl⟩ | ⟨w', m', rfl, hw', hless⟩
    · exact .inl ⟨hafter, _, hhistory⟩
    · exact .inr ⟨m', by omega, hreach.step _ _ hstep, w', m', hafter, hw', le_refl m'⟩
  · rintro n s u choice s' hu ⟨hreach, w, m, hstack, hw, hm⟩ hstep
    exact .inr ⟨hreach.step _ _ hstep, w, m,
      (Machine.stack_of_step_ne hstep (Ne.symm hu)).trans hstack, hw, hm⟩

/-- A step calls the hook exactly if the worker makes it and the code of the hook begins to run
above the worker, where nothing else runs. -/
theorem hooked_iff_of_step (hplan : plan.hook = some hook)
    (h : (machine plan next).Reach (start world codes) s)
    (hstep : (machine plan next).step t choice s = some s') :
    ∃ events : List (Event V E ν), s'.history = s.history ++ events.map (Prod.mk t) ∧
      (.hooked ∈ events ↔ t = workerThread ∧
        s.stack t = [.call (.work (.publishing .hooking))] ∧
        s'.stack t = [.code hook, .call (.work (.publishing .hooking))]) := by
  -- code makes no step of the worker
  have hcode : ∀ {events : List (Event V E ν)} {position rest},
      s.stack t = .code position :: rest → .hooked ∉ events →
      (.hooked ∈ events ↔ t = workerThread ∧
        s.stack t = [.call (.work (.publishing .hooking))] ∧
        s'.stack t = [.code hook, .call (.work (.publishing .hooking))]) := by
    intro events position rest hstack hnone
    refine iff_of_false hnone ?_
    rintro ⟨-, heq, -⟩
    cases hstack.symm.trans heq
  obtain ⟨hlive, hstepped⟩ := Machine.stepped_of_step hstep
  cases hstepped with
  | ended _ hstack | acted hstack | called hstack _ =>
      exact ⟨[], (List.append_nil _).symm, hcode hstack List.not_mem_nil⟩
  | @noted _ _ _ event hstack hnext =>
      obtain ⟨note, rfl⟩ := (machine_fits plan next).notes _ _ _ hnext
      exact ⟨[.note note], State.history_noting _ t _, hcode hstack (by simp)⟩
  | @turned call rest shared events r aborted hstack hturn _ =>
      refine ⟨events, State.history_noting _ t _, ?_⟩
      obtain ⟨v, hv, hshows⟩ := exists_shows h
      have hcalls := hshows.calls_eq hlive t
      rw [hstack] at hcalls
      have hall : (v.calls t).all = call :: rest.filterMap Frame.call? := by rw [hcalls]; rfl
      cases hpart : call.part.working? with
      | none =>
          have hsound := isSound_of_opening hv t call (hall ▸ List.mem_cons_self)
          refine iff_of_false (fun hhooked => ?_) ?_
          · exact (bystander_of_turn hsound hpart hturn).1.source_ne _ hhooked rfl
          · rintro ⟨-, heq, -⟩
            cases hstack.symm.trans heq
            cases hpart
      | some w =>
          obtain rfl := eq_work_of_working? hpart
          obtain ⟨w₁, hstaff, hduty⟩ := onDuty_of_reach hv
          obtain ⟨rfl, rfl, hnil⟩ := hstaff.eq_nil_of_work hall
          have hnest := hshows.nested workerThread
          rw [hstack] at hnest
          obtain rfl := hnest.eq_nil_of_call hnil
          obtain ⟨r', hturn', rfl⟩ := exists_of_nest hturn
          rw [Work.hooked_iff hplan (Work.turned_of_turn hturn') (hduty.sound w rfl)]
          obtain ⟨_, _, r₁, hturn₁, -, -, hafter⟩ := Machine.turn_of_step hstack hstep
          cases hturn.symm.trans hturn₁
          rw [hafter, hstack]
          constructor
          · rintro ⟨rfl, rfl⟩
            exact ⟨rfl, rfl, rfl⟩
          · rintro ⟨-, heq, -⟩
            cases heq
            simp only [Work.turn, Channel.Push.turn, hplan] at hturn'
            cases hturn'
            exact ⟨rfl, rfl⟩

/-- **The worker's cycle.** In every run of a pipeline with a hook, at every moment, whatever the
bodies, the hook and the code of the other threads do:

* what the worker notes is noted by its thread, and is one whole cycle after the other, and then
  what is settled by where it is: of every task that it takes, the body begins and returns, the
  result is published, and the hook is called before the next is taken;
* so before each call of the hook there are whole cycles and the publication that it belongs to;
* a step calls the hook exactly if the worker makes it, with nothing running above it;
* a body that returns leaves the worker on its way to the hook, which it comes to by six steps of
  its own at most;
* the worker is marked busy while a body or the hook runs above it, and it is not while it looks for
  an entry and once it has left or died; a reading of the mark answers what it is. -/
theorem worker_cycle (hplan : plan.hook = some hook)
    (h : (machine plan next).Reach (start world codes) s) :
    (∀ entry ∈ s.history, entry.2.source = .work → entry.1 = workerThread) ∧
    (∃ (whole : List (Ticket × Except E V)) (since : List (Event V E ν)),
      worked s.history = whole.flatMap cycle ++ since ∧
      ∃ w waits, Since s.shared.health waits w since ∧
        (s.aborted = false → w = worker s ∧ waits = waitsForCode s)) ∧
    (∀ before after : List (Event V E ν), worked s.history = before ++ .hooked :: after →
      ∃ (earlier : List (Ticket × Except E V)) (entry : Ticket × Except E V),
        before = earlier.flatMap cycle ++ [.taken entry.1, .began entry.1,
          .returned entry.1 entry.2, .published entry.1]) ∧
    (∀ t choice s', (machine plan next).step t choice s = some s' →
      ∃ events : List (Event V E ν), s'.history = s.history ++ events.map (Prod.mk t) ∧
        (.hooked ∈ events ↔ t = workerThread ∧
          s.stack t = [.call (.work (.publishing .hooking))] ∧
          s'.stack t = [.code hook, .call (.work (.publishing .hooking))])) ∧
    (∀ position ticket task outcome choice s',
      s.stack workerThread = [.code position, .call (.work (.running ticket task))] →
      next position = .ret outcome →
      (machine plan next).step workerThread choice s = some s' →
      s'.stack workerThread = [.call (.work (.returning
        { ticket := ticket, outcome := outcome, onValue := task.onValue,
          onError := task.onError }))]) ∧
    (∀ w n, s.stack workerThread = [.call (.work w)] → w.hookToGo = some n → n ≤ 6 ∧
      ∀ s' k, (machine plan next).Observed (Machine.ownSteps workerThread) s 0 s' k →
        (∃ s₁, (machine plan next).Reach s s₁ ∧ (machine plan next).Reach s₁ s' ∧
          HookCalled hook s₁) ∨
        ∃ w' n', s'.stack workerThread = [.call (.work w')] ∧ w'.hookToGo = some n' ∧ n' + k ≤ n ∧
          (s'.aborted = false →
            (∀ choice, ((machine plan next).step workerThread choice s').isSome = true) ∨
              ∃ u, u ≠ workerThread ∧ s'.shared.finished.owner = some u ∧
                ∀ choice, ((machine plan next).step u choice s').isSome = true)) ∧
    (∀ above w, s.aborted = false → above ≠ [] →
      s.stack workerThread = above ++ [.call (.work w)] →
      w.runsCode = true ∧ s.shared.busy = true) ∧
    (∀ p, s.aborted = false → s.stack workerThread = [.call (.work (.popping p))] →
      s.shared.busy = false) ∧
    (s.shared.health ≠ .alive → s.shared.busy = false) ∧
    ∀ t below choice s', s.stack t = .call (.inside .busy) :: below →
      (machine plan next).step t choice s = some s' →
      s'.stack t = .call (.closing (.ok (.flag s.shared.busy))) :: below := by
  obtain ⟨v, hv, hshows⟩ := exists_shows h
  obtain ⟨w, hstaff, hduty, hcycling⟩ := cycling_of_reach hplan hv
  obtain ⟨whole, since, hworked, hsince⟩ := hcycling.cycles
  rw [hshows.history_eq] at hworked
  obtain ⟨hruns, hseeks, hends⟩ := busy_of_reach h
  refine ⟨hshows.history_eq ▸ hcycling.thread, ⟨whole, since, hworked, w, inCode v,
    hshows.shared_eq ▸ hsince, fun hlive => ⟨(worker_eq hshows hlive hstaff).symm, ?_⟩⟩,
    fun before after hsplit => ?_, fun t choice s' => hooked_iff_of_step hplan h,
    fun position ticket task outcome choice s' => returning_of_step,
    fun w n hstack hw => ⟨Work.hookToGo_le hw, fun s' k => nears_hook hplan h hstack hw⟩,
    hruns, hseeks, hends, fun t below choice s' => reads_busy⟩
  · rw [inCode, hshows.calls_eq hlive, waitsForCode]
  · obtain ⟨earlier, entry, later, -, hbefore, -⟩ :=
      split_at_hooked hsince.hooked_notMem (hworked.symm.trans hsplit)
    exact ⟨earlier, entry, hbefore⟩

end States

/-! ### A run in which the hook schedules a task -/

/-- Schedules a task that does nothing. -/
def scheduleOnce : Wisher := do
  let _ ← Script.ask .schedule
  pure (.ok ())

/-- The plan of the run. -/
abbrev followUp : Plan Wisher := { hook := some scheduleOnce }

/-- The machine of the run. -/
abbrev followingUp : Machine Wisher Unit (Pipeline Wisher Unit Unit) (Call Wisher Unit Unit) Answer
    (Except Unit Unit) (Event Unit Unit Unit) :=
  machine followUp (Script.next Wish.request)

/-- The state in which the body of the task has returned that the hook has scheduled for the first
one. -/
def secondReturned : Wished :=
  followingUp.settle [(0, .go 0)] 33 (followingUp.settle [(1, .go 0)] 14 (start () [scheduleOnce]))

/-- The state in which the hook has been called for it, and the number of the worker's steps. -/
def secondHooked : Wished × Nat :=
  followingUp.follow (Machine.ownSteps 0) (List.replicate 6 (0, .go 0)) (secondReturned, 0)

/-- After one whole cycle the second body has returned; by six steps of its own the worker has come
to the hook again. -/
theorem worker_cycle_secondReturned :
    worked secondReturned.history = cycle (0, .ok ()) ++ [.taken 1, .began 1] ∧
      (∃ (earlier : List (Ticket × Except Unit Unit)) (entry : Ticket × Except Unit Unit),
        ([.taken 0, .began 0, .returned 0 (.ok ()), .published 0] : List (Event Unit Unit Unit)) =
          earlier.flatMap cycle ++ [.taken entry.1, .began entry.1, .returned entry.1 entry.2,
            .published entry.1]) ∧
      (∃ s₁, followingUp.Reach secondReturned s₁ ∧ HookCalled scheduleOnce s₁) ∧
      secondReturned.shared.busy = true := by
  have hreach : followingUp.Reach (start () [scheduleOnce]) secondReturned :=
    Machine.reach_settle _ _ (Machine.reach_settle _ _ .start)
  have hhooked : followingUp.Observed (Machine.ownSteps 0) secondReturned 0 secondHooked.1
      secondHooked.2 :=
    Machine.observed_follow _ _ _ .start
  have hsix : secondHooked.2 = 6 := by decide +kernel
  have hworked : worked secondReturned.history =
      cycle (0, .ok ()) ++ [.taken 1, .began 1] := rfl
  obtain ⟨-, -, hsplit, -, -, hnears, -⟩ := worker_cycle rfl hreach
  refine ⟨hworked, hsplit _ _ hworked, ?_, rfl⟩
  obtain ⟨s₁, hto, -, hcalled⟩ | ⟨w, n, hstack, -⟩ := (hnears _ 6 rfl rfl).2 _ _ hhooked
  · exact ⟨s₁, hto, hcalled⟩
  · cases hstack

end Offload.Pipeline
