import Offload.Proofs.Channel.Credit
import Offload.Proofs.Pipeline.Delivery
import Offload.Proofs.Pipeline.Runs

/-!
# The worker from step to step

One inversion lemma says everything that one step of any thread can be to the worker
(`workerMoved_of_moved`): the step is none of the worker's, or the code has ended that the worker
ran, or it is a step of the worker's own. With it, what holds of the worker at every moment is shown
on the worker's own stages. The worker runs code only in the middle of a body and of the hook, and
nothing else brings a fault to it. It is marked busy from before the body begins until the result
has been published and the hook has returned, or until the fault of either has struck.

## Main results

* `workerMoved_of_moved`: what one step of a run is to the worker.
* `onDuty_of_reach`: when the worker runs code, and when it is marked busy, in every reachable
  scene.
-/

namespace Offload.Pipeline

variable {κ ω V E ν : Type} {plan : Plan κ} {t : Tid} {choice : Choice}

/-! ### The worker's own steps -/

namespace Work

variable {s s' : Pipeline κ V E} {events : List (Event V E ν)} {w : Work κ V E}
  {r : Turn κ (Work κ V E) Unit}

/-- The fault that has struck the worker. -/
def fault? : Work κ V E → Option Fault
  | .publishing p => p.fault?
  | .failing fault | .dying fault => some fault
  | .popping _ | .entering _ _ | .starting _ _ | .running _ _ | .returning _ | .resting
  | .leaving => none

/-- Whether the worker runs code, the body of a task or the hook. -/
def runsCode : Work κ V E → Bool
  | .running _ _ | .publishing .hooking => true
  | _ => false

/-- Whether the worker is marked busy. -/
def isBusy : Work κ V E → Bool
  | .starting _ _ | .running _ _ | .returning _ | .publishing _ | .resting | .failing _ => true
  | .popping _ | .entering _ _ | .leaving | .dying _ => false

/-- Whether the worker is in a phase in which it can be: it waits only for an entry, and no fault
comes to it from a channel. -/
def IsSound : Work κ V E → Prop
  | .popping p => (Channel.Call.pop p).IsSound
  | .publishing p => p.IsPlain
  | _ => True

theorem IsSound.resume (h : w.IsSound) (result : Except Fault (Except E V)) :
    (w.resume result).IsSound := by
  cases w with
  | running ticket task => cases result <;> trivial
  | publishing p =>
      cases p with
      | hooking => trivial
      | adding _ _ | notifying | ending _ => exact h
  | popping _ | entering _ _ | starting _ _ | returning _ | resting | leaving | failing _
  | dying _ => exact h

/-- A worker that runs code runs a body or the hook. -/
theorem cases_of_runsCode (h : w.runsCode = true) :
    (∃ ticket task, w = .running ticket task) ∨ w = .publishing .hooking := by
  cases w with
  | running ticket task => exact .inl ⟨ticket, task, rfl⟩
  | publishing p =>
      cases p with
      | hooking => exact .inr rfl
      | adding _ _ | notifying | ending _ => cases h
  | popping _ | entering _ _ | starting _ _ | returning _ | resting | leaving | failing _
  | dying _ => cases h

/-- A body that ends in a fault strikes the worker with it, and so does the hook. -/
theorem fault?_resume_error (h : w.runsCode = true) (fault : Fault) :
    w.fault? = none ∧ (w.resume (.error fault)).fault? = some fault := by
  obtain ⟨ticket, task, rfl⟩ | rfl := cases_of_runsCode h <;> exact ⟨rfl, rfl⟩

/-- The end of code strikes the worker with nothing else. -/
theorem fault?_resume (w : Work κ V E) (result : Except Fault (Except E V)) :
    (w.resume result).fault? = w.fault? ∨
      w.runsCode = true ∧ ∃ fault, result = .error fault := by
  cases w with
  | running ticket task =>
      cases result with
      | ok outcome => exact .inl rfl
      | error fault => exact .inr ⟨rfl, fault, rfl⟩
  | publishing p =>
      cases p with
      | hooking =>
          cases result with
          | ok outcome => exact .inl rfl
          | error fault => exact .inr ⟨rfl, fault, rfl⟩
      | adding _ _ | notifying | ending _ => exact .inl rfl
  | popping _ | entering _ _ | starting _ _ | returning _ | resting | leaving | failing _
  | dying _ => exact .inl rfl

theorem isBusy_resume (w : Work κ V E) (result : Except Fault (Except E V)) :
    (w.resume result).isBusy = w.isBusy := by
  cases w with
  | running ticket task => cases result <;> rfl
  | publishing p => cases p <;> rfl
  | popping _ | entering _ _ | starting _ _ | returning _ | resting | leaving | failing _
  | dying _ => rfl

/-- The worker stays sound. -/
theorem isSound_of_turn (h : Turned plan t choice s w s' events r) (hsound : w.IsSound) :
    ∀ w', r.next? = some w' → w'.IsSound := by
  intro w' hnext
  cases h with
  | @popped p pending marks r hpop =>
      rcases r with p' | ⟨code, p'⟩ | answer | fault | _
      · cases hnext
        exact Channel.Pop.isSound_of_turn hsound hpop rfl
      · exact absurd rfl ((Channel.Pop.turn_plain hpop).2 code p')
      · rcases answer with _ | _ | _
        · cases hnext
          exact ⟨nofun, trivial⟩
        · cases hnext
          trivial
        · cases hnext
          trivial
      · cases hnext
        trivial
      · cases hnext
  | @published p finished marks r hpush =>
      obtain ⟨-, hplain⟩ := Channel.Push.ahead_of_turn hpush hsound
      rcases r with p' | ⟨code, p'⟩ | answer | fault | _
      · cases hnext
        exact (hplain p' rfl).1
      · cases hnext
        exact (hplain p' rfl).1
      · cases hnext
        trivial
      · cases hnext
        trivial
      · cases hnext
  | rested =>
      cases hnext
      exact ⟨nofun, trivial⟩
  | entered | began | returned | failed =>
      cases hnext
      trivial
  | left | died => cases hnext

end Work

/-- The fault that the worker's thread has ended in. -/
def Health.fault? : Health → Option Fault
  | .dead fault => some fault
  | .alive | .exited => none

namespace Work

variable {s s' : Pipeline κ V E} {events : List (Event V E ν)} {w : Work κ V E}
  {r : Turn κ (Work κ V E) Unit}

/-- The worker does not abort. -/
theorem turn_live (h : Turned plan t choice s w s' events r) : r ≠ .abort := by
  cases h with
  | popped hpop =>
      refine within_ne_abort (Channel.Pop.turn_plain hpop).1 ?_ fun _ => nofun
      rintro (_ | _ | _) <;> nofun
  | published hpush =>
      exact within_ne_abort (Channel.Push.turn_live hpush) (fun _ => nofun) fun _ => nofun
  | entered | began | returned | rested | left | failed | died => nofun

/-- The worker's own steps strike it with no fault: it goes on with the one that has struck it, or
ends in that one. -/
theorem fault?_of_turn (h : Turned plan t choice s w s' events r) (hsound : w.IsSound) :
    r.next?.elim s'.health.fault? fault? = w.fault? := by
  cases h with
  | @popped p pending marks r hpop =>
      rcases r with p' | ⟨code, p'⟩ | answer | fault | _
      · rfl
      · exact absurd rfl ((Channel.Pop.turn_plain hpop).2 code p')
      · rcases answer with _ | _ | _ <;> rfl
      · exact absurd rfl (Channel.Pop.ne_fail_of_turn hsound hpop fault)
      · exact absurd rfl (Channel.Pop.turn_plain hpop).1
  | @published p finished marks r hpush =>
      have hfault := Channel.Push.fault?_of_turn hpush hsound
      rcases r with p' | ⟨code, p'⟩ | answer | fault | _
      · exact hfault.symm
      · exact hfault.symm
      · exact hfault.symm
      · exact hfault.symm
      · exact absurd rfl (Channel.Push.turn_live hpush)
  | entered | began | returned | rested | left | failed | died => rfl

/-- The worker's own steps set the mark and clear it. -/
theorem busy_of_turn (h : Turned plan t choice s w s' events r) (hsound : w.IsSound)
    (hbusy : s.busy = w.isBusy) : s'.busy = r.next?.elim false isBusy := by
  cases h with
  | @popped p pending marks r hpop =>
      rcases r with p' | ⟨code, p'⟩ | answer | fault | _
      · exact hbusy
      · exact absurd rfl ((Channel.Pop.turn_plain hpop).2 code p')
      · rcases answer with _ | _ | _ <;> exact hbusy
      · exact absurd rfl (Channel.Pop.ne_fail_of_turn hsound hpop fault)
      · exact absurd rfl (Channel.Pop.turn_plain hpop).1
  | @published p finished marks r hpush =>
      have hlive := Channel.Push.turn_live hpush
      cases r with
      | abort => exact absurd rfl hlive
      | stay _ | run _ _ | ret _ | fail _ => exact hbusy
  | began | returned | left | died => exact hbusy
  | entered | rested | failed => rfl

/-- The worker that waits for code after a step of its own, if it goes into code. -/
def ran? (r : Turn κ (Work κ V E) Unit) : Option (Work κ V E) :=
  match r with
  | .run _ w' => some w'
  | .stay _ | .ret _ | .fail _ | .abort => none

/-- The worker runs the body of a task, or the hook. -/
theorem runsCode_of_run {code : κ} {w' : Work κ V E}
    (h : Turned plan t choice s w s' events (.run code w')) : w'.runsCode = true := by
  cases runs_of_turn h with
  | body ticket task => rfl
  | hook code hcode => rfl
  | refused code failure hpart => cases hpart
  | delivered f code hdelivering hcode => cases hdelivering

end Work

/-! ### Steps of a run -/

section Scenes

variable {v v' : View κ V E ν} {w w' : Option (Work κ V E)}

/-- The worker is read off the calls of its thread. -/
theorem Staff.head?_picks (h : Staff w v) :
    (picks Part.working? (v.calls workerThread).all).head? = w := by
  rw [h.sole workerThread, if_pos rfl, Option.head?_toList]

/-- The worker is where it was if the calls of its thread hold the same worker. -/
theorem Staff.eq_of_picks (h : Staff w v) (h' : Staff w' v')
    (hpicks : picks Part.working? (v'.calls workerThread).all =
      picks Part.working? (v.calls workerThread).all) : w' = w := by
  rw [← h'.head?_picks, hpicks, h.head?_picks]

/-- The worker's call is the outermost of its thread, so there is none below it. -/
theorem Staff.eq_nil_of_work {w₀ : Work κ V E} {rest : List (Call κ V E)} (h : Staff w v)
    (hcalls : (v.calls t).all = .work w₀ :: rest) : t = workerThread ∧ w = some w₀ ∧ rest = [] := by
  obtain ⟨rfl, rfl, hnil⟩ := h.sole.eq_of_active hcalls rfl
  have hbottomed := h.bottomed
  rw [hcalls] at hbottomed
  exact ⟨rfl, rfl, hbottomed.tail.eq_nil hnil⟩

/-- After a step of its own, the worker is what goes on. -/
theorem Staff.eq_next {calls : Tid → Calls (Call κ V E)} {w₀ : Work κ V E}
    {r : Turn κ (Call κ V E) Answer} {r' : Turn κ (Work κ V E) Unit} (h : Staff w v)
    (hcalls : v.calls = Function.update calls workerThread (Calls.after (.work w₀) [] r))
    (hr : r = r'.within .work (fun () => .ret .ended) .fail) (hlive : r ≠ .abort) :
    w = r'.next? := by
  rw [← h.head?_picks, hcalls, Function.update_self, picks_after rfl hlive, hr]
  cases r' <;> rfl

/-- What one step of thread `t` may be to the worker, where `w` is what the worker is doing before
the step and `w'` what it is doing afterwards. -/
inductive WorkerMoved (plan : Plan κ) (t : Tid) (v v' : View κ V E ν) :
    Option (Work κ V E) → Option (Work κ V E) → Prop where
  /-- The step is none of the worker's. -/
  | stood {w : Option (Work κ V E)} (events : List (Event V E ν)) :
      Bystander v.shared v'.shared events → v'.history = v.history ++ events.map (Prod.mk t) →
      picks Part.working? (v'.calls workerThread).waiting =
        picks Part.working? (v.calls workerThread).waiting →
      (v' = v ∨ ∀ w, (v.calls t).active ≠ some (.work w)) → WorkerMoved plan t v v' w w
  /-- The code has ended that the worker ran. -/
  | resumed (w : Work κ V E) (result : Except Fault (Except E V)) : t = workerThread →
      v.calls workerThread = ⟨none, [.work w]⟩ →
      v' = v.withCalls workerThread ⟨some (.work (w.resume result)), []⟩ →
      WorkerMoved plan t v v' (some w) (some (w.resume result))
  /-- The worker makes a step of its own. -/
  | turned {w : Work κ V E} {choice : Choice} {events : List (Event V E ν)}
      {r : Turn κ (Work κ V E) Unit} : t = workerThread →
      v.calls workerThread = ⟨some (.work w), []⟩ →
      Work.Turned plan workerThread choice v.shared w v'.shared events r →
      v'.history = v.history ++ events.map (Prod.mk workerThread) →
      picks Part.working? (v'.calls workerThread).waiting = (Work.ran? r).toList →
      WorkerMoved plan t v v' (some w) r.next?

/-- When the calls of a thread change but for its workers, the workers are where they were. -/
theorem picks_update (part : Calls (Call κ V E) → List (Call κ V E))
    {calls : Tid → Calls (Call κ V E)} {c : Calls (Call κ V E)}
    (hc : picks Part.working? (part c) = picks Part.working? (part (calls t))) :
    picks Part.working? (part (Function.update calls t c workerThread)) =
      picks Part.working? (part (calls workerThread)) := by
  by_cases ht : workerThread = t
  · rw [ht, Function.update_self, hc]
  · rw [Function.update_of_ne ht]

/-- **Inversion.** Every step is one of these to the worker. -/
theorem workerMoved_of_moved (h : Moved plan t v v') (hstaff : Staff w v) :
    ∃ w', Staff w' v' ∧ WorkerMoved plan t v v' w w' := by
  obtain ⟨w', hstaff'⟩ := staff_of_moved h hstaff
  refine ⟨w', hstaff', ?_⟩
  cases h with
  | still =>
      obtain rfl := hstaff.eq_of_picks hstaff' rfl
      exact .stood [] (.silent rfl rfl) (List.append_nil _).symm rfl (.inl rfl)
  | noted note hcode =>
      obtain rfl := hstaff.eq_of_picks hstaff' rfl
      exact .stood [.note note] ⟨rfl, rfl, by simp [Event.source]⟩ rfl rfl
        (.inr fun w => by rw [hcode.1]; exact (Option.some_ne_none _).symm)
  | began request hcode =>
      have hpicks : picks Part.working? (Calls.all ⟨some request.call, (v.calls t).waiting⟩) =
          picks Part.working? (v.calls t).all := by
        rw [Calls.all, Option.toList_some, List.singleton_append, picks_cons,
          working?_of_isFresh (isFresh_call request), Calls.all, hcode.1]
        rfl
      obtain rfl := hstaff.eq_of_picks hstaff' (picks_update Calls.all hpicks)
      exact .stood [] (.silent rfl rfl) (List.append_nil _).symm
        (picks_update Calls.waiting rfl)
        (.inr fun w => by rw [hcode.1]; exact (Option.some_ne_none _).symm)
  | @resumed call rest result hwaits =>
      have hall : (v.calls t).all = call :: rest := by rw [hwaits]; rfl
      have hpicks := picks_resume call rest result
      cases hw : call.part.working? with
      | none =>
          rw [hw, Option.map_none, Option.toList_none, List.nil_append] at hpicks
          have hsame : picks Part.working? (v.calls t).all = picks Part.working? rest := by
            rw [hall, picks_cons, hw]
            rfl
          obtain rfl := hstaff.eq_of_picks hstaff'
            (picks_update Calls.all (hpicks.trans hsame.symm))
          refine .stood [] (.silent rfl rfl) (List.append_nil _).symm
            (picks_update Calls.waiting ?_)
            (.inr fun w => by rw [hwaits]; exact (Option.some_ne_none _).symm)
          rw [hwaits, picks_cons, hw]
          rfl
      | some w₀ =>
          obtain rfl := eq_work_of_working? hw
          obtain ⟨rfl, rfl, rfl⟩ := hstaff.eq_nil_of_work hall
          obtain rfl : w' = some (w₀.resume result) := by
            rw [← hstaff'.head?_picks, Scene.withCalls_calls, Function.update_self, hpicks, hw]
            rfl
          exact .resumed w₀ result rfl hwaits rfl
  | @turned call rest choice s' events r hactive hsound hturn hlive =>
      have hall : (v.calls t).all = call :: rest := by rw [hactive]; rfl
      cases hw : call.part.working? with
      | none =>
          obtain ⟨hbystander, hnext⟩ := bystander_of_turn hsound hw hturn
          have hpicks : picks Part.working? (Calls.after call rest r).all =
              picks Part.working? (v.calls t).all := by
            rw [picks_after rfl hlive, hnext, hall, picks_cons, hw]
          obtain rfl := hstaff.eq_of_picks hstaff' (picks_update Calls.all hpicks)
          refine .stood events hbystander rfl (picks_update Calls.waiting ?_)
            (.inr fun w hwork => ?_)
          · rw [hactive]
            cases r with
            | run code call' =>
                rw [Calls.after, picks_cons, show call'.part.working? = none from hnext]
                rfl
            | stay _ | ret _ | fail _ | abort => rfl
          · rw [hactive] at hwork
            cases hwork
            cases hw
      | some w₀ =>
          obtain rfl := eq_work_of_working? hw
          obtain ⟨rfl, rfl, rfl⟩ := hstaff.eq_nil_of_work hall
          obtain ⟨r', hturn', hr⟩ := exists_of_nest hturn
          obtain rfl := hstaff'.eq_next rfl hr hlive
          refine .turned rfl hactive (Work.turned_of_turn hturn') rfl ?_
          simp only [Function.update_self, hr]
          cases r' <;> rfl

/-- Whether the worker waits for code. -/
def inCode (v : View κ V E ν) : Bool :=
  !(picks Part.working? (v.calls workerThread).waiting).isEmpty

/-- The worker waits for code, or its step is due. -/
theorem Staff.picks_eq {w : Work κ V E} (h : Staff (some w) v) :
    picks Part.working? (v.calls workerThread).active.toList = (if inCode v then [] else [w]) ∧
      picks Part.working? (v.calls workerThread).waiting = if inCode v then [w] else [] := by
  have hall := h.sole workerThread
  rw [if_pos rfl, Calls.all, picks_append] at hall
  cases hwaits : picks Part.working? (v.calls workerThread).waiting with
  | nil =>
      rw [hwaits, List.append_nil] at hall
      rw [inCode, hwaits]
      exact ⟨hall, rfl⟩
  | cons w' rest =>
      rw [hwaits] at hall
      obtain ⟨hnil, heq⟩ := (List.append_eq_singleton_iff.mp hall).resolve_right
        fun h => List.cons_ne_nil _ _ h.2
      rw [inCode, hwaits, heq]
      exact ⟨hnil, rfl⟩

/-- While its thread makes another call, the worker waits for code. -/
theorem Staff.inCode_of_active {call : Call κ V E} (h : Staff w v)
    (hactive : (v.calls workerThread).active = some call) (hcall : call.part.working? = none) :
    ∃ w₀, w = some w₀ ∧ inCode v = true := by
  cases w with
  | none =>
      have hpicks := h.sole workerThread
      rw [if_pos rfl, Option.toList_none] at hpicks
      have hnil := h.bottomed.eq_nil hpicks
      rw [Calls.all, hactive] at hnil
      cases hnil
  | some w₀ =>
      have hpicks := h.picks_eq.1
      rw [hactive, Option.toList_some, picks_cons, hcall] at hpicks
      cases hincode : inCode v with
      | true => exact ⟨w₀, rfl, rfl⟩
      | false =>
          rw [hincode] at hpicks
          cases hpicks

/-! ### All runs -/

/-- What holds of the worker's stages at every moment, where `w` is what the worker is doing unless
it has ended. -/
structure OnDuty (w : Option (Work κ V E)) (v : View κ V E ν) : Prop where
  sound : ∀ w' ∈ w, w'.IsSound
  waiting : ∀ w' ∈ picks Part.working? (v.calls workerThread).waiting, w'.runsCode = true
  busy : v.shared.busy = w.elim false Work.isBusy

/-- **Duty, one step.** -/
theorem onDuty_of_moved (h : WorkerMoved plan t v v' w w') (hv : OnDuty w v) : OnDuty w' v' := by
  cases h with
  | stood _ hbystander _ hwaiting _ =>
      exact ⟨hv.sound, hwaiting ▸ hv.waiting, hbystander.busy_eq.trans hv.busy⟩
  | resumed w₀ result _ hwaits heq =>
      subst heq
      refine ⟨?_, ?_, hv.busy.trans (w₀.isBusy_resume result).symm⟩
      · rintro w' ⟨⟩
        exact (hv.sound w₀ rfl).resume result
      · rw [Scene.withCalls_calls, Function.update_self]
        exact nofun
  | @turned w₀ _ _ r _ _ hturn _ hwaiting =>
      refine ⟨Work.isSound_of_turn hturn (hv.sound _ rfl), fun w' hw' => ?_,
        Work.busy_of_turn hturn (hv.sound _ rfl) hv.busy⟩
      rw [hwaiting] at hw'
      cases r with
      | run code w'' =>
          obtain rfl := List.mem_singleton.mp hw'
          exact Work.runsCode_of_run hturn
      | stay _ | ret _ | fail _ | abort => cases hw'

/-- A worker in a stage in which it runs no code waits for none. -/
theorem OnDuty.inCode_eq_false {w : Work κ V E} (h : OnDuty (some w) v) (hstaff : Staff (some w) v)
    (hcode : w.runsCode = false) : inCode v = false := by
  cases hincode : inCode v with
  | false => rfl
  | true =>
      have hpicks := hstaff.picks_eq.2
      rw [hincode] at hpicks
      rw [h.waiting w (by rw [hpicks]; exact List.mem_singleton_self w)] at hcode
      cases hcode

theorem onDuty_opening : OnDuty (some .start) (opening : View κ V E ν) := by
  refine ⟨?_, nofun, rfl⟩
  rintro w ⟨⟩
  exact ⟨nofun, trivial⟩

/-- **Duty.** What holds of the worker's stages holds in every reachable scene. -/
theorem onDuty_of_reach (h : Scene.Reach (library plan) opening v) :
    ∃ w, Staff w v ∧ OnDuty w v :=
  h.invariant (P := fun v => ∃ w, Staff w v ∧ OnDuty w v) ⟨_, staff_opening, onDuty_opening⟩
    fun _ _ _ hs ⟨_, hstaff, hduty⟩ hstep => by
      obtain ⟨w', hstaff', hmoved⟩ := workerMoved_of_moved (moved_of_reach hs hstep) hstaff
      exact ⟨w', hstaff', onDuty_of_moved hmoved hduty⟩

end Scenes

/-! ### States -/

section States

variable {next : κ → Move κ ω (Request κ V E) Answer (Except E V) ν}
  {s s' : State κ ω (Pipeline κ V E) (Call κ V E) Answer (Event V E ν)} {v v' : View κ V E ν}

/-- A worker that waits for no code is all that there is on its thread. -/
theorem stack_of_worker {w : Work κ V E} (hshows : Machine.Shows (library plan) v s)
    (hlive : s.aborted = false) (hstaff : Staff (some w) v) (hcode : inCode v = false) :
    s.stack workerThread = [.call (.work w)] := by
  have hworker : w ∈ picks Part.working? (v.calls workerThread).active.toList := by
    rw [hstaff.picks_eq.1, hcode]
    exact List.mem_singleton_self w
  obtain ⟨call, hactive, hw⟩ := List.mem_filterMap.mp hworker
  obtain rfl := eq_work_of_working? hw
  have hall : (v.calls workerThread).all = .work w :: (v.calls workerThread).waiting := by
    rw [Calls.all, Option.mem_toList.mp hactive]
    rfl
  obtain ⟨-, -, hnil⟩ := hstaff.eq_nil_of_work hall
  -- the layers are those of a thread that was started with a call, so nothing is below it
  have hnest := hshows.nested workerThread
  rw [Option.mem_toList, hshows.calls_eq hlive] at hactive
  rw [hshows.calls_eq hlive] at hnil
  obtain ⟨rest, hstack⟩ := exists_of_active hactive
  rw [hstack] at hnil hnest ⊢
  exact congrArg _ (hnest.eq_nil_of_call hnil)

/-- When the code ends that the worker runs, the worker was running it before, and goes on with its
end afterwards; nothing is noted. -/
theorem staff_of_codeEnds {w w' : Option (Work κ V E)} {position : κ} {w₀ : Work κ V E}
    {frames : Stack κ (Call κ V E) Answer} {ended : Except Fault (Except E V)}
    (hshows : Machine.Shows (library plan) v s) (hshows' : Machine.Shows (library plan) v' s')
    (hstaff : Staff w v) (hstaff' : Staff w' v')
    (hstack : s.stack t = .code position :: .call (.work w₀) :: frames)
    (hended : (next position).ended? = some ended)
    (hstep : (machine plan next).step t choice s = some s') :
    w = some w₀ ∧ w' = some (w₀.resume ended) ∧ v'.history = v.history ∧
      inCode v = true ∧ inCode v' = false := by
  have hlive := (Machine.stepped_of_step hstep).1
  have hne : s.stack t ≠ [] := by simp [hstack]
  obtain rfl := Machine.eq_of_ended hstack ((Move.ended?_map _).trans hended) hstep
  have hcalls := hshows.calls_eq hlive t
  have hcalls' := hshows'.calls_eq hlive t
  rw [hstack] at hcalls
  rw [State.stack_withStack_self _ hne] at hcalls'
  have hall : (v.calls t).all = .work w₀ :: frames.filterMap Frame.call? := by
    rw [hcalls]
    rfl
  have hall' : (v'.calls t).all = .work (w₀.resume ended) :: frames.filterMap Frame.call? := by
    rw [hcalls']
    rfl
  obtain ⟨rfl, hw, -⟩ := hstaff.eq_nil_of_work hall
  obtain ⟨-, hw', hnil⟩ := hstaff'.eq_nil_of_work hall'
  refine ⟨hw, hw', hshows'.history_eq.trans hshows.history_eq.symm, ?_, ?_⟩
  · rw [inCode, hcalls]
    rfl
  · rw [inCode, hcalls']
    change (!(picks Part.working? (frames.filterMap Frame.call?)).isEmpty) = false
    rw [hnil]
    rfl

end States

end Offload.Pipeline
