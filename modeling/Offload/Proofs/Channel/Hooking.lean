import Offload.Proofs.Channel.Matching

/-!
# One call of the hook for each push

A push on a channel with a hook adds its item, calls the hook, and returns when the hook has ended.
Code of the hook runs above the push, so what it does comes after the push's own call of the hook
and is matched in itself, whatever it pushes, clears and pops. The end of the hook changes nothing
that is shared, be it a result or a fault, and neither does the return of the push: two runs of
which only one has met a fault go on side by side, and the only difference is what the caller of
the push is told.

## Main results

* `Pushing.of_step`: how far a push has come, and that it returns after its call of the hook.
* `comes_hooked`: a push that has added its item comes to the hook by its own steps.
* `runs_beside`: what the hook has ended with makes no difference to any other thread.
* `one_hook_call_per_push`: all of it, for every run.
-/

namespace Offload.Channel

variable {κ ω α ρ ν : Type} {code : κ} {finalizer : α → Option κ}
  {next : κ → Move κ ω (Request α) (Answer α) ρ ν} {world : ω} {codes : List κ} {t u : Tid}
  {choice : Choice} {s s' : State κ ω (Channel α) (Call α) (Answer α) (Event α ν)}
  {below : Stack κ (Call α) (Answer α)}

/-! ### A push on its way -/

/-- How far the push of `item` has come that thread `t` makes above the layers `below`, and what the
thread has left since it had left the marks `before`. -/
inductive Pushing (t : Tid) (item : α) (below : Stack κ (Call α) (Answer α))
    (before : List (Mark α)) (s : State κ ω (Channel α) (Call α) (Answer α) (Event α ν)) :
    Prop where
  /-- It has not added its item. -/
  | adding (phase : Phase Unit) : s.stack t = .call (.push (.adding item phase)) :: below →
      phase.held = none → marksBy t s.history = before → Pushing t item below before s
  /-- It has added its item and has yet to call the hook. -/
  | owing (push : Push α) : s.stack t = .call (.push push) :: below → push.awaitsHook = true →
      marksBy t s.history = before ++ [.appended item] → Pushing t item below before s
  /-- It has called the hook, whose code is running. -/
  | calling (above : Stack κ (Call α) (Answer α)) (nested : List (Mark α)) : above ≠ [] →
      Nested false above → s.stack t = above ++ .call (.push .hooking) :: below →
      marksBy t s.history = before ++ .appended item :: .hooked :: nested →
      Pushing t item below before s
  /-- The hook has ended. -/
  | ending (outcome : Except Fault Unit) (nested : List (Mark α)) :
      s.stack t = .call (.push (.ending outcome)) :: below →
      marksBy t s.history = before ++ .appended item :: .hooked :: nested →
      Pushing t item below before s

/-- Whether the push of `item` returns in the step from one state to the other, with what the hook
has ended with. Since it began it has added its item and called the hook, and what the thread has
left besides is matched. -/
def Returns (t : Tid) (item : α) (below : Stack κ (Call α) (Answer α)) (before : List (Mark α))
    (s s' : State κ ω (Channel α) (Call α) (Answer α) (Event α ν)) : Prop :=
  ∃ outcome nested, s.stack t = .call (.push (.ending outcome)) :: below ∧
    s'.stack t = Machine.finishCall (outcome.map fun _ => .done) below ∧ s'.shared = s.shared ∧
    marksBy t s'.history = before ++ .appended item :: .hooked :: nested ∧ Matched false nested

/-- What a step of the thread leaves is added to its marks. -/
theorem marksBy_of_step (h : (machine (some code) finalizer next).step t choice s = some s') :
    ∃ marks, marksBy t s'.history = marksBy t s.history ++ marks := by
  obtain ⟨events, hevents⟩ := Machine.exists_events_of_step h
  exact ⟨_, hevents ▸ marksBy_append_self t s.history events⟩

/-- A step of another thread leaves the marks of a thread alone. -/
theorem marksBy_of_step_ne (h : (machine (some code) finalizer next).step u choice s = some s')
    (hu : u ≠ t) : marksBy t s'.history = marksBy t s.history := by
  obtain ⟨events, hevents⟩ := Machine.exists_events_of_step h
  rw [hevents, marksBy_append_ne hu]

/-- A step of a push, with what it leaves of the thread. -/
theorem push_of_step {push : Push α}
    (h : (machine (some code) finalizer next).Reach (.ofCodes empty world codes) s)
    (hstack : s.stack t = .call (.push push) :: below)
    (hstep : (machine (some code) finalizer next).step t choice s = some s') :
    ∃ marks r, Push.Turned code s.shared s'.shared push marks r ∧
      s'.stack t = Machine.afterTurn below
        (r.within Call.push (fun _ => .ret (Answer.done : Answer α)) .fail) ∧
      marksBy t s'.history = marksBy t s.history ++ marks := by
  have hsound := isSound_of_stack h (Machine.stepped_of_step hstep).1 hstack
  obtain ⟨shared, events, turn, hturn, rfl, hhistory, hafter⟩ :=
    Machine.turn_of_step hstack hstep
  obtain ⟨⟨c', marks, r⟩, hpush, heq⟩ := Option.map_eq_some_iff.mp hturn
  cases heq
  refine ⟨marks, r, Push.turned_of_turn hpush hsound, hafter, ?_⟩
  rw [hhistory, marksBy_append_self, marksOf_map_mk, flatMap_marks]

/-- **One step on the way of a push.** It stays on its way, or it returns. -/
theorem Pushing.of_step {item : α} {before : List (Mark α)}
    (h : (machine (some code) finalizer next).Reach (.ofCodes empty world codes) s)
    (hbefore : Matched false before) (hs : Pushing t item below before s)
    (hstep : (machine (some code) finalizer next).step u choice s = some s')
    (hlive : s'.aborted = false) :
    Pushing t item below before s' ∨ u = t ∧ Returns t item below before s s' := by
  by_cases hu : u = t
  · subst hu
    cases hs with
    | adding phase hstack hheld hmarks =>
        obtain ⟨marks, r, hturned, hafter, hmarks'⟩ := push_of_step h hstack hstep
        rw [hmarks] at hmarks'
        cases hturned with
        | arrived =>
            rw [List.append_nil] at hmarks'
            exact .inl (.adding (.acting false) hafter rfl hmarks')
        | added _ again =>
            exact .inl (.owing (.adding item (.leaving (.ok (some ())))) hafter rfl hmarks')
        | neared howes _ =>
            rw [Push.awaitsHook, hheld] at howes
            cases howes
    | owing push hstack howes hmarks =>
        obtain ⟨marks, r, hturned, hafter, hmarks'⟩ := push_of_step h hstack hstep
        rw [hmarks] at hmarks'
        cases hturned with
        | @neared _ push' _ howes' =>
            rw [List.append_nil] at hmarks'
            exact .inl (.owing push' hafter howes' hmarks')
        | called _ =>
            rw [List.append_assoc] at hmarks'
            exact .inl (.calling [.code code] [] (List.cons_ne_nil _ _) (.code code) hafter hmarks')
        | arrived _ | added _ _ | ended _ _ => cases howes
    | calling above nested hne hnest hstack hmarks =>
        obtain ⟨marks, hmarks'⟩ := marksBy_of_step hstep
        rw [hmarks, List.append_assoc] at hmarks'
        rcases Machine.above_of_step hnest hne hstack hstep with
          ⟨above', hne', hnest', hstack'⟩ | ⟨result, hstack'⟩ | haborted
        · exact .inl (.calling above' (nested ++ marks) hne' hnest' hstack' hmarks')
        · exact .inl (.ending _ (nested ++ marks) hstack' hmarks')
        · rw [hlive] at haborted
          cases haborted
    | ending outcome nested hstack hmarks =>
        obtain ⟨marks, r, hturned, hafter, hmarks'⟩ := push_of_step h hstack hstep
        rw [hmarks] at hmarks'
        cases hturned with
        | neared howes _ => cases howes
        | ended _ hshared =>
            rw [List.append_nil] at hmarks'
            refine .inr ⟨rfl, outcome, nested, hstack, ?_, hshared, hmarks', ?_⟩
            · rw [hafter]
              cases outcome <;> rfl
            · -- what is left besides is what comes after the append and its call
              have hall := matched_of_reach h u
              rw [hstack, hmarks, List.append_cons, List.append_cons] at hall
              exact hall.of_append (hbefore.appended item).hooked
  · have hsame := Machine.stack_of_step_ne hstep (Ne.symm hu)
    have hmarks' := marksBy_of_step_ne hstep hu
    refine .inl ?_
    cases hs with
    | adding phase hstack hheld hmarks =>
        exact .adding phase (hsame.trans hstack) hheld (hmarks'.trans hmarks)
    | owing push hstack howes hmarks =>
        exact .owing push (hsame.trans hstack) howes (hmarks'.trans hmarks)
    | calling above nested hne hnest hstack hmarks =>
        exact .calling above nested hne hnest (hsame.trans hstack) (hmarks'.trans hmarks)
    | ending outcome nested hstack hmarks =>
        exact .ending outcome nested (hsame.trans hstack) (hmarks'.trans hmarks)

/-- **The way of a push.** In every later state it is on its way, or it has returned. -/
theorem pushing_of_reach {item : α}
    (h : (machine (some code) finalizer next).Reach (.ofCodes empty world codes) s)
    (hstack : s.stack t = .call (.push (.start item)) :: below)
    (h' : (machine (some code) finalizer next).Reach s s') (hlive : s'.aborted = false) :
    Pushing t item below (marksBy t s.history) s' ∨ ∃ s₁ choice s₂,
      (machine (some code) finalizer next).Reach s s₁ ∧
      (machine (some code) finalizer next).step t choice s₁ = some s₂ ∧
      (machine (some code) finalizer next).Reach s₂ s' ∧
      Returns t item below (marksBy t s.history) s₁ s₂ := by
  have hbefore : Matched false (marksBy t s.history) := by
    have hmatched := matched_of_reach h t
    rwa [hstack] at hmatched
  induction h' with
  | start => exact .inl (.adding .arriving hstack rfl rfl)
  | @step s₁ s₂ u choice hreach hstep ih =>
      rcases ih (Machine.stepped_of_step hstep).1 with
        hs₁ | ⟨s₃, choice₃, s₄, hto, hret, hfrom, hreturns⟩
      · rcases hs₁.of_step (h.trans hreach) hbefore hstep hlive with hs₂ | ⟨rfl, hreturns⟩
        · exact .inl hs₂
        · exact .inr ⟨s₁, choice, s₂, hreach, hstep, .start, hreturns⟩
      · exact .inr ⟨s₃, choice₃, s₄, hto, hret, .step u choice hfrom hstep, hreturns⟩

/-- **A push that has added its item comes to the hook** by its own steps, whatever the scheduler
chooses. -/
theorem comes_hooked {push : Push α} (hlive : s.aborted = false)
    (hstack : s.stack t = .call (.push push) :: below) (howes : push.awaitsHook = true) :
    (machine (some code) finalizer next).Comes t (fun s' =>
      s'.stack t = .code code :: .call (.push .hooking) :: below ∧
        s'.history = s.history ++ [(t, .mark .hooked)]) s := by
  have ht : t < s.threads.length := State.lt_of_stack_ne_nil (hstack ▸ List.cons_ne_nil _ _)
  refine .of_going ht ?_
  rw [hstack]
  have hhook : ∀ c, (machine (some code) finalizer next).Comes t (fun s' =>
      s'.stack t = .code code :: .call (.push .hooking) :: below ∧
        s'.history = s.history ++ [(t, .mark .hooked)])
      (s.going t c s.world (.call (.push .hooking) :: below) []) := by
    intro c
    refine .turn (r := .run code (.push .hooking)) hlive ht (fun _ => rfl) (by rintro ⟨⟩) ?_
    exact .here ⟨State.going_stack ht, State.going_history⟩
  have hnotify : ∀ c, (machine (some code) finalizer next).Comes t (fun s' =>
      s'.stack t = .code code :: .call (.push .hooking) :: below ∧
        s'.history = s.history ++ [(t, .mark .hooked)])
      (s.going t c s.world (.call (.push .notifying) :: below) []) := fun c =>
    .step _ (fun choice => Machine.step_going (r := .stay (.push .hooking)) hlive ht rfl
      (Turn.stay_ne_abort _)) fun choice => hhook (c.notifyOne choice.pick)
  cases push with
  | adding item phase =>
      obtain ⟨⟨⟩, hheld⟩ := Option.isSome_iff_exists.mp howes
      obtain rfl := Phase.held_eq_some hheld
      exact .turn (r := .stay (.push .notifying)) hlive ht (fun _ => rfl) (Turn.stay_ne_abort _)
        (hnotify s.shared.release)
  | notifying => exact hnotify s.shared
  | hooking => exact hhook s.shared
  | ending outcome => cases howes

/-! ### The end of the hook -/

/-- When the code of the hook has ended, the push goes on, and nothing else changes. -/
theorem step_ended {position : κ} {ended : Except Fault ρ} (hlive : s.aborted = false)
    (hstack : s.stack t = .code position :: .call (.push .hooking) :: below)
    (hended : (next position).ended? = some ended) (choice : Choice) :
    (machine (some code) finalizer next).step t choice s = some
      (s.withStack t (.call (.push (.ending (ended.map fun _ => ()))) :: below)) := by
  rw [Machine.step, hlive, if_neg Bool.false_ne_true, Machine.stepThread, hstack]
  cases hnext : next position with
  | ret result | fail fault =>
      rw [hnext] at hended
      cases hended
      simp only [machine, hnext, Move.map]
      rfl
  | note _ _ | act _ | call _ _ =>
      rw [hnext] at hended
      cases hended

/-- When a push returns, its caller goes on, and nothing else changes. -/
theorem step_returned {outcome : Except Fault Unit} (hlive : s.aborted = false)
    (hstack : s.stack t = .call (.push (.ending outcome)) :: below) (choice : Choice) :
    (machine (some code) finalizer next).step t choice s = some
      (s.twin t s.shared (Machine.finishCall (outcome.map fun _ => .done) below)) := by
  have ht : t < s.threads.length := State.lt_of_stack_ne_nil (hstack ▸ List.cons_ne_nil _ _)
  have hstep : (machine (some code) finalizer next).step t choice
      (s.going t s.shared s.world (.call (.push (.ending outcome)) :: below) []) = some
      (s.going t s.shared s.world (Machine.finishCall (outcome.map fun _ => .done) below) []) := by
    rcases outcome with fault | ⟨⟩
    · exact Machine.step_going (r := .fail fault) hlive ht rfl (by rintro ⟨⟩)
    · refine Machine.step_going (r := .ret .done) hlive ht ?_ (Turn.ret_ne_abort _)
      rfl
  rwa [← hstack, State.going_self ht] at hstep

/-- The number of steps that a schedule has for thread `t`. -/
def stepsOf (t : Tid) (order : List (Tid × Choice)) : Nat :=
  order.countP fun entry => entry.1 = t

theorem stepsOf_concat (order : List (Tid × Choice)) (entry : Tid × Choice) :
    stepsOf t (order ++ [entry]) = stepsOf t order + if entry.1 = t then 1 else 0 := by
  simp [stepsOf, List.countP_append, List.countP_cons]

/-- **Side by side.** Where a push is about to return, what the hook has ended with makes no
difference to anything but what its caller is told: by the same schedule, from the state in which
the hook has ended otherwise, the run goes through the same states, up to where the thread of the
push stands. If the caller goes on alike, the states are the same from then on. -/
theorem runs_beside {outcome : Except Fault Unit} {order : List (Tid × Choice)}
    (hstack : s.stack t = .call (.push (.ending outcome)) :: below)
    (h : (machine (some code) finalizer next).Runs (fun _ => True) s order s')
    (outcome' : Except Fault Unit) :
    (stepsOf t order = 0 → s'.stack t = .call (.push (.ending outcome)) :: below ∧
      (machine (some code) finalizer next).Runs (fun _ => True)
        (s.twin t s.shared (.call (.push (.ending outcome')) :: below)) order
        (s'.twin t s'.shared (.call (.push (.ending outcome')) :: below))) ∧
    (stepsOf t order = 1 →
      s'.stack t = Machine.finishCall (outcome.map fun _ => .done) below ∧
      (machine (some code) finalizer next).Runs (fun _ => True)
        (s.twin t s.shared (.call (.push (.ending outcome')) :: below)) order
        (s'.twin t s'.shared (Machine.finishCall (outcome'.map fun _ => .done) below))) ∧
    (Machine.finishCall (outcome.map fun _ => .done) below =
        Machine.finishCall (outcome'.map fun _ => .done) below → stepsOf t order ≠ 0 →
      (machine (some code) finalizer next).Runs (fun _ => True)
        (s.twin t s.shared (.call (.push (.ending outcome')) :: below)) order s') := by
  have ht : t < s.threads.length := State.lt_of_stack_ne_nil (hstack ▸ List.cons_ne_nil _ _)
  induction h with
  | start => exact ⟨fun _ => ⟨hstack, .start⟩, nofun, fun _ hsome => absurd rfl hsome⟩
  | @step order s₁ s₂ u choice hruns _ hstep ih =>
      obtain ⟨hnone, hone, halike⟩ := ih
      have hbeside : ∀ frames, u ≠ t → (machine (some code) finalizer next).step u choice
          (s₁.twin t s₁.shared frames) = some (s₂.twin t s₂.shared frames) := fun frames hu =>
        Machine.step_other (f := id) hu hstep fun _ _ _ _ _ _ hturn => hturn
      rw [stepsOf_concat]
      by_cases hu : u = t
      · subst hu
        simp only [if_true]
        have hreturned : stepsOf u order = 0 →
            s₂.stack u = Machine.finishCall (outcome.map fun _ => .done) below ∧
            (machine (some code) finalizer next).Runs (fun _ => True)
              (s.twin u s.shared (.call (.push (.ending outcome')) :: below))
              (order ++ [(u, choice)])
              (s₂.twin u s₂.shared (Machine.finishCall (outcome'.map fun _ => .done) below)) := by
          intro hzero
          obtain ⟨hstack₁, hruns'⟩ := hnone hzero
          have hlive := (Machine.stepped_of_step hstep).1
          have ht₁ : u < s₁.threads.length := hruns.reach.length_threads ▸ ht
          cases hstep.symm.trans (step_returned hlive hstack₁ choice)
          refine ⟨State.twin_stack ht₁, hruns'.step u choice trivial ?_⟩
          have hlive' : (s₁.twin u s₁.shared
              (.call (.push (.ending outcome')) :: below)).aborted = false := hlive
          refine (step_returned hlive' (State.twin_stack ht₁) choice).trans ?_
          exact congrArg some (State.twin_twin.trans State.twin_twin.symm)
        refine ⟨fun h => absurd h (Nat.succ_ne_zero _), fun h => hreturned (by omega),
          fun hsame _ => ?_⟩
        by_cases hzero : stepsOf u order = 0
        · obtain ⟨hstack₂, hruns'⟩ := hreturned hzero
          have ht₂ : u < s₂.threads.length := by
            rw [(Machine.Reach.start.step u choice hstep).length_threads,
              hruns.reach.length_threads]
            exact ht
          rwa [← hsame, ← hstack₂, State.twin_self ht₂] at hruns'
        · exact (halike hsame hzero).step u choice trivial hstep
      · simp only [hu, if_false, Nat.add_zero]
        refine ⟨fun h => ?_, fun h => ?_, fun hsame hsome => ?_⟩
        · obtain ⟨hstack₁, hruns'⟩ := hnone h
          exact ⟨(Machine.stack_of_step_ne hstep (Ne.symm hu)).trans hstack₁,
            hruns'.step u choice trivial (hbeside _ hu)⟩
        · obtain ⟨hstack₁, hruns'⟩ := hone h
          exact ⟨(Machine.stack_of_step_ne hstep (Ne.symm hu)).trans hstack₁,
            hruns'.step u choice trivial (hbeside _ hu)⟩
        · exact (halike hsame hsome).step u choice trivial hstep

/-! ### Every run -/

/-- A step marks a call of the hook exactly if the code of the hook begins to run for a push. -/
theorem hooked_iff_of_step
    (h : (machine (some code) finalizer next).Reach (.ofCodes empty world codes) s)
    (hstep : (machine (some code) finalizer next).step t choice s = some s') :
    ∃ events : List (Event α ν), s'.history = s.history ++ events.map (Prod.mk t) ∧
      (.mark .hooked ∈ events ↔ ∃ below, s.stack t = .call (.push .hooking) :: below ∧
        s'.stack t = .code code :: .call (.push .hooking) :: below) := by
  -- code makes no step of a push
  have hcode : ∀ {events : List (Event α ν)} {position rest},
      s.stack t = .code position :: rest → .mark .hooked ∉ events →
      (.mark .hooked ∈ events ↔ ∃ below, s.stack t = .call (.push .hooking) :: below ∧
        s'.stack t = .code code :: .call (.push .hooking) :: below) := by
    intro events position rest hstack hnone
    refine iff_of_false hnone ?_
    rintro ⟨below, heq, -⟩
    cases hstack.symm.trans heq
  cases (Machine.stepped_of_step hstep).2 with
  | ended _ hstack | acted hstack | called hstack _ =>
      exact ⟨[], (List.append_nil _).symm, hcode hstack List.not_mem_nil⟩
  | @noted _ _ _ event hstack hnext =>
      obtain ⟨note, rfl⟩ := (machine_fits (some code) finalizer next).notes _ _ _ hnext
      exact ⟨[.note note], State.history_noting _ t _, hcode hstack (by simp)⟩
  | @turned call rest c' events r aborted hstack hturn _ =>
      have hsound := isSound_of_stack h (Machine.stepped_of_step hstep).1 hstack
      refine ⟨events, State.history_noting _ t _, ?_⟩
      obtain ⟨c'', events', r', hturn', -, -, hafter⟩ := Machine.turn_of_step hstack hstep
      cases hturn.symm.trans hturn'
      rw [hafter, Call.hooked_iff hturn hsound]
      constructor
      · rintro ⟨rfl, rfl⟩
        exact ⟨rest, hstack, rfl⟩
      · rintro ⟨below, heq, -⟩
        cases hstack.symm.trans heq
        cases hturn
        exact ⟨rfl, rfl⟩

/-- **One call of the hook for each push.** In every run on a channel with a hook, at every moment,
whatever the code of the threads, of the hook and of the finalizers does:

* the calls of the hook that have begun are the appends, less the pushes that have added their item
  and have yet to call the hook;
* among the marks of each thread one call follows each append, at once, and nothing else is followed
  by one; a call is marked in the step in which the code of the hook begins to run for a push;
* a push that has added its item comes to the hook by its own steps;
* a push that has begun is on its way, or it has returned, with what the hook has ended with, after
  it has added its item and called the hook; what its thread has left besides is matched in itself;
* what was added is what was removed, and then what is there;
* if the hook fails, the push goes on to return with the fault, nothing else changes, and every run
  from there is, step by step, one from the state in which the hook has returned: the states differ
  in what the push is about to tell its caller, then in where the caller stands that has been told,
  and not at all if the caller goes on alike. -/
theorem one_hook_call_per_push
    (h : (machine (some code) finalizer next).Reach (.ofCodes empty world codes) s) :
    hookCalls (marksOf s.history) + activeCount s (fun _ => Call.awaitsHook) =
      (added (marksOf s.history)).length ∧
    (∀ t, Matched ((callsOf (s.stack t)).active.any Call.awaitsHook) (marksBy t s.history)) ∧
    (∀ t choice s', (machine (some code) finalizer next).step t choice s = some s' →
      ∃ events : List (Event α ν), s'.history = s.history ++ events.map (Prod.mk t) ∧
        (.mark .hooked ∈ events ↔ ∃ below, s.stack t = .call (.push .hooking) :: below ∧
          s'.stack t = .code code :: .call (.push .hooking) :: below)) ∧
    (∀ t push below, s.aborted = false → s.stack t = .call (.push push) :: below →
      push.awaitsHook = true → (machine (some code) finalizer next).Comes t (fun s' =>
        s'.stack t = .code code :: .call (.push .hooking) :: below ∧
          s'.history = s.history ++ [(t, .mark .hooked)]) s) ∧
    (∀ t item below s', s.stack t = .call (.push (.start item)) :: below →
      (machine (some code) finalizer next).Reach s s' → s'.aborted = false →
      Pushing t item below (marksBy t s.history) s' ∨ ∃ s₁ choice s₂,
        (machine (some code) finalizer next).Reach s s₁ ∧
        (machine (some code) finalizer next).step t choice s₁ = some s₂ ∧
        (machine (some code) finalizer next).Reach s₂ s' ∧
        Returns t item below (marksBy t s.history) s₁ s₂) ∧
    added (marksOf s.history) = removed (marksOf s.history) ++ s.shared.value ∧
    ∀ t position fault below, s.aborted = false →
      s.stack t = .code position :: .call (.push .hooking) :: below →
      next position = .fail fault →
      ∃ failed returned,
        failed = s.twin t s.shared (.call (.push (.ending (.error fault))) :: below) ∧
        returned = s.twin t s.shared (.call (.push (.ending (.ok ()))) :: below) ∧
        (∀ choice, (machine (some code) finalizer next).step t choice s = some failed) ∧
        (∀ choice, (machine (some code) finalizer next).step t choice failed = some
          (s.twin t s.shared (Machine.finishCall (.error fault) below))) ∧
        ∀ order s', (machine (some code) finalizer next).Runs (fun _ => True) failed order s' →
          (stepsOf t order = 0 → s'.stack t = .call (.push (.ending (.error fault))) :: below ∧
            (machine (some code) finalizer next).Runs (fun _ => True) returned order
              (s'.twin t s'.shared (.call (.push (.ending (.ok ()))) :: below))) ∧
          (stepsOf t order = 1 → s'.stack t = Machine.finishCall (.error fault) below ∧
            (machine (some code) finalizer next).Runs (fun _ => True) returned order
              (s'.twin t s'.shared (Machine.finishCall (.ok .done) below))) ∧
          (Machine.finishCall (.error fault) below = Machine.finishCall (.ok .done) below →
            stepsOf t order ≠ 0 →
            (machine (some code) finalizer next).Runs (fun _ => True) returned order s') := by
  obtain ⟨v, hv, hshows⟩ := (machine_fits (some code) finalizer next).reach_shows
    (Machine.shows_ofCodes (fun _ => rfl) empty world codes) h
  have hconserved : Conserved v :=
    hv.invariant (P := Conserved) rfl fun _ _ _ _ hs hstep => conserved_of_step hstep hs
  rw [Conserved, hshows.history_eq, hshows.shared_eq] at hconserved
  refine ⟨hookCalls_of_reach h, matched_of_reach h, fun t choice s' => hooked_iff_of_step h,
    fun t push below => comes_hooked, fun t item below s' => pushing_of_reach h, hconserved,
    fun t position fault below hlive hstack hnext => ⟨_, _, rfl, rfl, ?_, ?_, ?_⟩⟩
  · have hended : (next position).ended? = some (.error fault) := by
      rw [hnext]
      rfl
    exact step_ended hlive hstack hended
  · have ht : t < s.threads.length := State.lt_of_stack_ne_nil (hstack ▸ List.cons_ne_nil _ _)
    have hlive' : (s.twin t s.shared
        (.call (.push (.ending (.error fault))) :: below)).aborted = false := hlive
    intro choice
    exact (step_returned hlive' (State.twin_stack ht) choice).trans (congrArg some State.twin_twin)
  · have ht : t < s.threads.length := State.lt_of_stack_ne_nil (hstack ▸ List.cons_ne_nil _ _)
    intro order s' hruns
    have hbeside := runs_beside (State.twin_stack ht) hruns (.ok ())
    rwa [State.twin_shared, State.twin_twin] at hbeside

/-! A run in which the hook pushes when it is called for the first time, and fails when it is called
for the second time, for the push of the first call. -/

/-- The code of a hook whose first call pushes ten, and whose second call fails; the world counts
the calls. -/
def pushingHook : Script (Request Nat) (Answer Nat) Nat Nat Unit := do
  let calls ← Script.update (· + 1)
  if calls = 1 then
    let _ ← Script.ask (.pushing 10)
  else if calls = 2 then
    .fail .other

/-- Pushes one, whatever comes of it, and then two. -/
def pushAnyway : Script (Request Nat) (Answer Nat) Nat Nat Unit := do
  let _ ← Script.attempt (.pushing 1)
  let _ ← Script.ask (.pushing 2)

/-- The state in which the second call of the hook is about to fail. -/
def hookFailing : State (Script (Request Nat) (Answer Nat) Nat Nat Unit) Nat (Channel Nat)
    (Call Nat) (Answer Nat) (Event Nat Nat) :=
  (machine (some pushingHook) (fun _ => none) (Script.next id)).settle [(0, .go 0)] 14
    (.ofCodes empty 0 [pushAnyway])

theorem one_hook_call_per_push_hookFailing :
    hookCalls (marksOf hookFailing.history) = 2 ∧
      hookCalls (marksOf hookFailing.history) +
        activeCount hookFailing (fun _ => Call.awaitsHook) =
          (added (marksOf hookFailing.history)).length ∧
      ∃ below failed, hookFailing.stack 0 =
          .code (.fail .other) :: .call (.push .hooking) :: below ∧
        (∀ choice, (machine (some pushingHook) (fun _ => none) (Script.next id)).step 0 choice
          hookFailing = some failed) ∧ failed.shared.value = [1, 10] := by
  obtain ⟨hcalls, -, -, -, -, -, hfault⟩ := one_hook_call_per_push (s := hookFailing)
    (Machine.reach_settle [(0, .go 0)] 14 .start)
  obtain ⟨failed, -, rfl, -, hfailed, -⟩ := hfault 0 (.fail .other) .other _ rfl rfl rfl
  exact ⟨rfl, hcalls, _, _, rfl, hfailed, rfl⟩

end Offload.Channel
