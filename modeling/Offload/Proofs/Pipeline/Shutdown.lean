import Offload.Proofs.Pipeline.Conservation

/-!
# Shutdown is final

Once the intake has closed nothing is accepted any more. The entry that ends the worker is queued
once, and nothing behind it. Once the pending channel has been cleared the worker begins nothing
but what it has in hand, and that it does begin. Once a teardown has joined the worker's thread
nothing happens on that thread, and nothing that is the worker's happens at all.

## Main results

* `accepted_since`, `taken_since`, `work_since`: what does not happen any more after a landmark.
* `shutdown_final`: this, in every run.
-/

namespace Offload.Pipeline

variable {κ ω V E ν : Type} {plan : Plan κ} {t : Tid}

/-! ### Scenes -/

section Scenes

variable {v v' : View κ V E ν}

/-- While the intake is closed nothing is accepted. -/
theorem accepted_of_moved (h : Moved plan t v v') (hv : Orderly v)
    (hclosed : v.shared.intake.value = false) :
    reached .accepted v'.history = reached .accepted v.history := by
  cases h with
  | still | began _ _ | resumed _ _ => rfl
  | noted note _ => exact reached_note .accepted _ t note
  | @turned call _ _ _ _ _ hactive hsound hturn _ =>
      rw [reached_append]
      rcases (numbered_of_turn hsound hturn).accepted with hnil | ⟨ticket, task, hahead, -⟩
      · rw [hnil, List.append_nil]
      · have hne : call.part.ahead ≠ none := by
          rw [hahead]
          exact Option.some_ne_none _
        have hopen := hv.gated.found t _ (by rw [hactive]) hne
        rw [hclosed] at hopen
        cases hopen

/-- After the clear nothing is taken. -/
theorem taken_of_moved (h : Moved plan t v v') (hv : Orderly v)
    (hcleared : Passed .cleared v.history) :
    reached .taken v'.history = reached .taken v.history := by
  cases h with
  | still | began _ _ | resumed _ _ => rfl
  | noted note _ => exact reached_note .taken _ t note
  | turned hactive hsound hturn _ =>
      obtain ⟨u, d, hclosing⟩ := hv.closing
      rw [reached_append, (nil_of_cleared hsound hturn hclosing.kept
        (hv.gated.found t _ (by rw [hactive])) hcleared).2.1, List.append_nil]

/-- **Nothing is accepted after the close**, nor after what follows it. -/
theorem accepted_since (hv : Scene.Reach (library plan) opening v)
    (h : Scene.Reach (library plan) v v')
    (hpassed : Passed .closed v.history ∨ Passed .cleared v.history ∨ Passed .queued v.history) :
    reached .accepted v'.history = reached .accepted v.history := by
  refine h.invariant (P := fun v' => reached .accepted v'.history = reached .accepted v.history)
    rfl fun t v₁ v₂ h₁ heq hstep => ?_
  have hreach := hv.trans h₁
  have horder := orderly_of_reach hreach
  obtain ⟨u, d, hclosing⟩ := horder.closing
  obtain ⟨later, hlater⟩ := h₁.exists_later
  have hclosed : v₁.shared.intake.value = false := by
    refine hclosing.kept.shut ?_
    rw [hlater]
    exact hpassed.imp (·.later _) (·.imp (·.later _) (·.later _))
  rw [accepted_of_moved (moved_of_reach hreach hstep) horder hclosed, heq]

/-- **Nothing is taken after the clear.** -/
theorem taken_since (hv : Scene.Reach (library plan) opening v)
    (h : Scene.Reach (library plan) v v') (hcleared : Passed .cleared v.history) :
    reached .taken v'.history = reached .taken v.history := by
  refine h.invariant (P := fun v' => reached .taken v'.history = reached .taken v.history)
    rfl fun t v₁ v₂ h₁ heq hstep => ?_
  have hreach := hv.trans h₁
  obtain ⟨later, hlater⟩ := h₁.exists_later
  have hcleared' : Passed .cleared v₁.history := by
    rw [hlater]
    exact hcleared.later _
  rw [taken_of_moved (moved_of_reach hreach hstep) (orderly_of_reach hreach) hcleared', heq]

/-- A worker that has ended has no calls on its thread. -/
theorem calls_of_ended {w : Option (Work κ V E)} (hv : Staff w v)
    (hended : v.shared.health ≠ .alive) : w = none ∧ v.calls workerThread = ⟨none, []⟩ := by
  have hnone := hv.tally.health.mpr hended
  refine ⟨hnone, ?_⟩
  have hpicks := hv.sole workerThread
  rw [if_pos rfl, hnone] at hpicks
  exact Calls.eq_of_all_eq_nil (hv.bottomed.eq_nil hpicks)

/-- **Nothing of the worker's happens after its end.** -/
theorem work_since (hv : Scene.Reach (library plan) opening v)
    (h : Scene.Reach (library plan) v v') (hended : v.shared.health ≠ .alive) :
    v'.shared.health ≠ .alive ∧ ∃ later, v'.history = v.history ++ later ∧
      ∀ entry ∈ later, entry.1 ≠ workerThread ∧ entry.2.source ≠ .work := by
  refine h.invariant (P := fun v' => v'.shared.health ≠ .alive ∧ ∃ later,
    v'.history = v.history ++ later ∧ ∀ entry ∈ later, entry.1 ≠ workerThread ∧
      entry.2.source ≠ .work) ⟨hended, [], (List.append_nil _).symm, nofun⟩ ?_
  rintro t v₁ v₂ h₁ ⟨hended', later, hlater, hothers⟩ hstep
  have hreach := hv.trans h₁
  obtain ⟨w, hstaff⟩ := (orderly_of_reach hreach).staff
  obtain ⟨rfl, hcalls⟩ := calls_of_ended hstaff hended'
  -- the worker's thread is not in code either
  have hcode : v₁.InCode (library plan) t → t ≠ workerThread := by
    rintro ⟨-, hwaiting⟩ rfl
    rw [hcalls] at hwaiting
    exact hwaiting rfl rfl
  cases moved_of_reach hreach hstep with
  | still | began _ _ | resumed _ _ => exact ⟨hended', later, hlater, hothers⟩
  | noted note hin =>
      refine ⟨hended', later ++ [(t, .note note)], ?_, fun entry hentry => ?_⟩
      · rw [← List.append_assoc, ← hlater]
      · rcases List.mem_append.mp hentry with hentry | hentry
        · exact hothers entry hentry
        · obtain rfl := List.mem_singleton.mp hentry
          exact ⟨hcode hin, nofun⟩
  | @turned call rest choice s' events r hactive hsound hturn hlive =>
      have ht : t ≠ workerThread := by
        rintro rfl
        rw [hcalls] at hactive
        cases hactive
      have hpart : call.part.working? = none := by
        by_contra hne
        obtain ⟨w, hw⟩ := Option.ne_none_iff_exists'.mp hne
        obtain ⟨-, hnone, -⟩ := hstaff.sole.eq_of_active (by rw [hactive]; rfl) hw
        cases hnone
      obtain ⟨hbystander, -⟩ := bystander_of_turn hsound hpart hturn
      refine ⟨?_, later ++ events.map (Prod.mk t), ?_, fun entry hentry => ?_⟩
      · rw [hbystander.health_eq]
        exact hended'
      · rw [← List.append_assoc, ← hlater]
      · rcases List.mem_append.mp hentry with hentry | hentry
        · exact hothers entry hentry
        · obtain ⟨event, hevent, rfl⟩ := List.mem_map.mp hentry
          exact ⟨ht, hbystander.source_ne event hevent⟩

/-- A worker that has ended has begun all that it took, and has published all that it has begun,
unless it died of the fault of the last body. -/
theorem begun_of_ended (hv : Orderly v) (hended : v.shared.health ≠ .alive) :
    reached .taken v.history = reached .begun v.history ∧
      (reached .begun v.history = reached .published v.history ∨ ∃ ticket fault,
        reached .begun v.history = reached .published v.history ++ [ticket] ∧
          ticket ∉ reached .returned v.history ∧ v.shared.health = .dead fault) := by
  obtain ⟨w, hstaff⟩ := hv.staff
  obtain ⟨rfl, -⟩ := calls_of_ended hstaff hended
  refine ⟨hstaff.tally.taken.trans (List.append_nil _), ?_⟩
  obtain ⟨last, hone, hbegun, hlast⟩ := begun_eq hv.ledger hstaff
  cases last with
  | nil => exact .inl (hbegun.trans (List.append_nil _))
  | cons ticket last =>
      have hlength : last.length = 0 := Nat.le_zero.mp (Nat.le_of_succ_le_succ hone)
      obtain rfl := List.length_eq_zero_iff.mp hlength
      rcases hlast ticket List.mem_cons_self with hcurrent | ⟨hreturned, fault, hdead⟩
      · cases hcurrent
      · exact .inr ⟨ticket, fault, hbegun, hreturned, hdead⟩

/-- **Nothing begins after the clear** but what was in hand, and the worker does not end without
having begun that. -/
theorem begun_since {w : Option (Work κ V E)} (hv : Scene.Reach (library plan) opening v)
    (h : Scene.Reach (library plan) v v') (hcleared : Passed .cleared v.history)
    (hstaff : Staff w v) :
    (reached .begun v'.history = reached .begun v.history ∨
        reached .begun v'.history = reached .begun v.history ++ w.elim [] Work.hand) ∧
      (v'.shared.health ≠ .alive →
        reached .begun v'.history = reached .begun v.history ++ w.elim [] Work.hand) := by
  have htaken := taken_since hv h hcleared
  have horder := orderly_of_reach (hv.trans h)
  obtain ⟨w', hstaff'⟩ := horder.staff
  rw [hstaff.tally.taken] at htaken
  refine ⟨?_, fun hended => ?_⟩
  · obtain ⟨later, hlater⟩ := h.exists_later
    have hone := Work.length_elim_hand_le w
    have hbegun := reached_later .begun v.history later
    rw [← hlater] at hbegun
    rw [hstaff'.tally.taken, hbegun, List.append_assoc] at htaken
    have hhand := List.append_cancel_left htaken
    cases hnew : reached .begun later with
    | nil =>
        rw [hbegun, hnew, List.append_nil]
        exact .inl rfl
    | cons ticket new =>
        -- what has begun since is all that was in hand
        have hlength := congrArg List.length hhand
        rw [hnew, List.length_append, List.length_cons] at hlength
        have hnil : w'.elim [] Work.hand = [] := List.length_eq_zero_iff.mp (by omega)
        rw [hnil, List.append_nil] at hhand
        rw [hbegun, hhand]
        exact .inr rfl
  · rw [← htaken, (begun_of_ended horder hended).1]

end Scenes

/-! ### States -/

section Runs

variable {next : κ → Move κ ω (Request κ V E) Answer (Except E V) ν} {world : ω} {codes : List κ}
  {s s' : State κ ω (Pipeline κ V E) (Call κ V E) Answer (Event V E ν)}

/-- A worker with a task in hand can go on. -/
theorem isSome_step_of_hand (h : (machine plan next).Reach (start world codes) s)
    (hlive : s.aborted = false) (hhand : (worker s).elim [] Work.hand ≠ []) (choice : Choice) :
    ((machine plan next).step workerThread choice s).isSome = true := by
  obtain ⟨v, hreach, hshows⟩ := exists_shows h
  obtain ⟨w, hstaff⟩ := (orderly_of_reach hreach).staff
  rw [worker_eq hshows hlive hstaff] at hhand
  cases w with
  | none => exact absurd rfl hhand
  | some w =>
      -- the worker does not wait for code, so its call is the topmost layer
      have hworker : w ∈ picks Part.working? (v.calls workerThread).active.toList := by
        have hmem : w ∈ picks Part.working? (v.calls workerThread).all := by
          rw [hstaff.sole workerThread, if_pos rfl]
          exact List.mem_singleton_self w
        rw [Calls.all, picks_append, List.mem_append] at hmem
        exact hmem.resolve_right fun hwaits => hhand (hstaff.waiting w hwaits)
      obtain ⟨call, hactive, hw⟩ := List.mem_filterMap.mp hworker
      obtain rfl := eq_work_of_working? hw
      rw [hshows.calls_eq hlive, Option.mem_toList] at hactive
      obtain ⟨rest, hstack⟩ := exists_of_active hactive
      rw [Machine.isSome_step_call hlive hstack, show (machine plan next).turn = turn plan from rfl,
        turn, Option.isSome_map]
      exact Work.isSome_turn_of_hand hhand

/-- A thread whose call answers for a teardown makes the call of a teardown, which is through. -/
theorem exists_rests_of_stopped {v : View κ V E ν} (hreach : Scene.Reach (library plan) opening v)
    (hshows : Machine.Shows (library plan) v s) {report : Except Failure Unit}
    (hanswer : (machine plan next).Answers s t (.stopped report)) :
    ∃ d rest, (v.calls t).all = .teardown d :: rest ∧ d.rests = true := by
  obtain ⟨hlive, call, rest, choice, shared, events, hstack, hturn⟩ := hanswer
  have hcalls := hshows.calls_eq hlive t
  rw [hstack] at hcalls
  have hall : (v.calls t).all = call :: rest.filterMap Frame.call? := by rw [hcalls]; rfl
  have hsound : call.IsSound :=
    isSound_of_opening hreach t call (by rw [hall]; exact List.mem_cons_self)
  obtain ⟨d, rfl, hd⟩ :=
    exists_teardown_of_stopped (fun outcome => hsound.closes outcome report) hturn
  exact ⟨d, _, hall, Teardown.rests_of_ret hd⟩

/-- A teardown that answers has joined the worker's thread, unless it ran on it. -/
theorem ended_of_stopped (h : (machine plan next).Reach (start world codes) s) {t : Tid}
    {report : Except Failure Unit} (ht : t ≠ workerThread)
    (hanswer : (machine plan next).Answers s t (.stopped report)) : s.shared.health ≠ .alive := by
  obtain ⟨v, hreach, hshows⟩ := exists_shows h
  obtain ⟨u, d, hclosing⟩ := (orderly_of_reach hreach).closing
  obtain ⟨d', rest, hall, hrests⟩ := exists_rests_of_stopped hreach hshows hanswer
  obtain ⟨rfl, rfl, -⟩ := hclosing.sole.eq_of_active hall rfl
  rw [← hshows.shared_eq]
  exact ((hclosing.rested d' rfl).ended hrests).resolve_left ht

/-- What begins between the moments `s` and `s'`, where the worker had `hand` in hand at the moment
`s`: that or nothing. -/
structure BeginsOnly (hand : List Ticket)
    (s s' : State κ ω (Pipeline κ V E) (Call κ V E) Answer (Event V E ν)) : Prop where
  one : hand.length ≤ 1
  inHand : s.aborted = false → hand = (worker s).elim [] Work.hand
  begun : reached .begun s'.history = reached .begun s.history ∨
    reached .begun s'.history = reached .begun s.history ++ hand
  /-- The worker does not end without having begun it. -/
  ended : s'.shared.health ≠ .alive →
    reached .begun s'.history = reached .begun s.history ++ hand

/-- What a worker that has ended has done: it has begun all that it has taken, and published all that
it has begun, unless it died of the fault of the last body. -/
structure WoundUp (s : State κ ω (Pipeline κ V E) (Call κ V E) Answer (Event V E ν)) : Prop where
  taken : reached .taken s.history = reached .begun s.history
  published : reached .begun s.history = reached .published s.history ∨ ∃ ticket fault,
    reached .begun s.history = reached .published s.history ++ [ticket] ∧
      ticket ∉ reached .returned s.history ∧ s.shared.health = .dead fault

/-- What a shutdown has settled at the moment `s` for every later moment `s'`. -/
structure Finality (plan : Plan κ) (next : κ → Move κ ω (Request κ V E) Answer (Except E V) ν)
    (s s' : State κ ω (Pipeline κ V E) (Call κ V E) Answer (Event V E ν)) : Prop where
  /-- Once the intake has closed, nothing is accepted. -/
  closed : Passed .closed s.history →
    reached .accepted s'.history = reached .accepted s.history
  /-- The entry that ends the worker is queued once at most, -/
  once : passes .queued s.history ≤ 1
  /-- nothing stands behind it in the pending channel, -/
  last : ∀ before after, s.shared.pending.value = before ++ .stop :: after → after = []
  /-- and nothing is accepted after it. -/
  queued : Passed .queued s.history →
    reached .accepted s'.history = reached .accepted s.history
  /-- Once the pending channel has been cleared, the worker begins nothing but what it had in hand
  then. -/
  cleared : Passed .cleared s.history → ∃ hand, BeginsOnly hand s s'
  /-- A worker that has a task in hand can go on at once. -/
  goesOn : s.aborted = false → (worker s).elim [] Work.hand ≠ [] → ∀ choice,
    ((machine plan next).step workerThread choice s).isSome = true
  woundUp : s.shared.health ≠ .alive → WoundUp s
  /-- When a teardown has counted what was left after joining the worker's thread, the worker has
  ended; -/
  joined : Passed .stopped s.history → s.shared.health ≠ .alive
  /-- so it has when a teardown on another thread answers. -/
  answered : ∀ t report, t ≠ workerThread → (machine plan next).Answers s t (.stopped report) →
    s.shared.health ≠ .alive
  /-- When the worker has ended, its thread makes no step any more, -/
  still : s.shared.health ≠ .alive → ∀ choice, (machine plan next).step workerThread choice s' = none
  /-- no event is noted on it, and none that is the worker's is noted on any. -/
  silent : s.shared.health ≠ .alive → ∃ later, s'.history = s.history ++ later ∧
    ∀ entry ∈ later, entry.1 ≠ workerThread ∧ entry.2.source ≠ .work

/-- **Shutdown is final.** In every run, at every moment and ever after, however threads interleave
and whatever bodies, callbacks, hooks and other code do:

* once the intake has closed, nothing is accepted;
* the entry that ends the worker is queued once at most; nothing stands behind it in the pending
  channel, and nothing is accepted after it;
* once the pending channel has been cleared, the worker begins nothing but at most one task, which
  it had in hand then; and it does not end without having begun that;
* a worker that has a task in hand can go on at once;
* a worker that has ended has begun all that it took and has published all that it has begun, unless
  it died of the fault of the last body;
* when a teardown has counted what was left after joining the worker's thread, the worker has ended;
  so it has when a teardown on another thread answers;
* when the worker has ended, its thread makes no step any more, no event is noted on it, and none
  that is the worker's is noted on any. -/
theorem shutdown_final (h : (machine plan next).Reach (start world codes) s)
    (h' : (machine plan next).Reach s s') : Finality plan next s s' := by
  obtain ⟨v, hreach, hshows⟩ := exists_shows h
  obtain ⟨v', hreach', hshows'⟩ := (machine_fits plan next).reach_shows hshows h'
  have horder := orderly_of_reach hreach
  obtain ⟨u, d, hclosing⟩ := horder.closing
  obtain ⟨w, hstaff⟩ := horder.staff
  have haccepted : Passed .closed s.history ∨ Passed .cleared s.history ∨ Passed .queued s.history →
      reached .accepted s'.history = reached .accepted s.history := by
    rw [← hshows.history_eq, ← hshows'.history_eq]
    exact accepted_since hreach hreach'
  have hsince : s.shared.health ≠ .alive → s'.shared.health ≠ .alive ∧ ∃ later,
      s'.history = s.history ++ later ∧
        ∀ entry ∈ later, entry.1 ≠ workerThread ∧ entry.2.source ≠ .work := by
    rw [← hshows.shared_eq, ← hshows'.shared_eq, ← hshows.history_eq, ← hshows'.history_eq]
    exact work_since hreach hreach'
  constructor
  case closed => exact fun hclosed => haccepted (.inl hclosed)
  case once =>
    rw [← hshows.history_eq]
    exact hclosing.kept.once
  case last =>
    rw [← hshows.shared_eq]
    exact hclosing.kept.last
  case queued => exact fun hqueued => haccepted (.inr (.inr hqueued))
  case cleared =>
    rw [← hshows.history_eq]
    intro hcleared
    obtain ⟨hbegun, hended⟩ := begun_since hreach hreach' hcleared hstaff
    rw [hshows.history_eq, hshows'.history_eq] at hbegun hended
    rw [hshows'.shared_eq] at hended
    exact ⟨w.elim [] Work.hand, Work.length_elim_hand_le w,
      fun hlive => by rw [worker_eq hshows hlive hstaff], hbegun, hended⟩
  case goesOn => exact isSome_step_of_hand h
  case woundUp =>
    rw [← hshows.shared_eq]
    intro hended
    obtain ⟨htaken, hpublished⟩ := begun_of_ended horder hended
    rw [hshows.history_eq, hshows.shared_eq] at hpublished
    rw [hshows.history_eq] at htaken
    exact ⟨htaken, hpublished⟩
  case joined =>
    rw [← hshows.history_eq, ← hshows.shared_eq]
    exact hclosing.kept.joined
  case answered => exact fun t report ht hanswer => ended_of_stopped h ht hanswer
  case still =>
    intro hended choice
    obtain ⟨w', hstaff'⟩ := (orderly_of_reach (hreach.trans hreach')).staff
    have hended' := (hsince hended).1
    rw [← hshows'.shared_eq] at hended'
    exact Machine.step_eq_none
      (fun hlive => hshows'.stack_eq_nil hlive rfl (calls_of_ended hstaff' hended').2) choice
  case silent => exact fun hended => (hsince hended).2

/-- From midway to the end nothing is accepted, and what was in hand begins. -/
theorem shutdown_final_midway :
    reached .accepted atTheEnd.history = reached .accepted midway.history ∧
      atTheEnd.shared.health = .exited ∧ ∃ hand : List Ticket,
        reached .begun atTheEnd.history = reached .begun midway.history ++ hand := by
  have hclosed : Passed .closed midway.history :=
    by_contra fun h => absurd (passes_eq_zero.mpr h) (by decide)
  have hcleared : Passed .cleared midway.history :=
    by_contra fun h => absurd (passes_eq_zero.mpr h) (by decide)
  have hfinal := shutdown_final reach_midway reach_atTheEnd
  obtain ⟨hand, hbegins⟩ := hfinal.cleared hcleared
  exact ⟨hfinal.closed hclosed, rfl, hand, hbegins.ended (by decide)⟩

end Runs

end Offload.Pipeline
