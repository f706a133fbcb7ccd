import Offload.Proofs.Pipeline.Borrows
import Offload.Proofs.Pipeline.Deadlock
import Offload.Proofs.Pipeline.Grants
import Offload.Proofs.Pipeline.Looking
import Offload.Proofs.Pipeline.Refit
import Offload.Proofs.Twins

/-!
# Runs of a pipeline side by side

Two runs of a pipeline in which one thread does different things go on side by side as long as the
other threads do not see the difference. They do not see it

* while that thread owns the lock of the finished channel in one of the runs, and the lock is free
  in the other: nobody else can take it in the first run;
* while that thread sleeps on the finished channel in one of the runs only, and nobody notifies;
* while it borrows the pipeline once more in one of the runs, unless somebody takes the pipeline.

## Main definitions

* `Unnoticed`, `Uncounted`: the changes that other threads do not see.
* `Goes`: a state beside another that goes with where one thread stands in it.

## Main results

* `step_beside`: what another thread does in one of the runs it does in the other.
* `Goes.of_other`: such a step leads to states that go together.
* `goes_of_stay`, `goes_of_delivering`, `goes_of_above`: so does a step of the thread itself, which
  may be followed by several.
* `value_eq_nil_of_quiet`: nothing joins the finished channel but what is published.
-/

namespace Offload.Pipeline

variable {κ ω V E ν : Type} {plan : Plan κ}
  {next : κ → Move κ ω (Request κ V E) Answer (Except E V) ν} {world : ω} {codes : List κ}
  {s s' x x' y : State κ ω (Pipeline κ V E) (Call κ V E) Answer (Event V E ν)} {t u : Tid}
  {choice : Choice} {call call' other other' : Call κ V E}
  {rest base base' frames frames' : Stack κ (Call κ V E) Answer}
  {g g' : Channel (Finished κ V E) → Channel (Finished κ V E)} {k k' : Nat → Nat}

/-! ### Who owns and who borrows -/

/-- The thread whose call says so owns the lock of the finished channel. -/
theorem owner_of_owns (h : (machine plan next).Reach (start world codes) s)
    (hlive : s.aborted = false)
    (howns : (callsOf (s.stack t)).active.any (Call.owns · .finished) = true) :
    s.shared.finished.owner = some t :=
  ((locks_fits plan).owner_iff (machine_fits plan next) (locks_start plan world codes) h hlive t
    .finished).mpr howns

/-- A borrow of a thread is counted. -/
theorem borrows_pos (call : Call κ V E) (h : (machine plan next).Reach (start world codes) s)
    (hlive : s.aborted = false) (hcall : call ∈ (callsOf (s.stack t)).all)
    (hborrows : call.borrows = true) : 0 < s.shared.borrows := by
  obtain ⟨v, hv, hshows⟩ := exists_shows h
  rw [← hshows.calls_eq hlive] at hcall
  rw [← hshows.shared_eq]
  exact (List.countP_pos_iff.mpr ⟨call, hcall, hborrows⟩).trans_le (countP_borrows_le hv t)

/-- A pipeline that is borrowed has an owner. -/
theorem owned_of_borrows (call : Call κ V E) (h : (machine plan next).Reach (start world codes) s)
    (hlive : s.aborted = false) (hcall : call ∈ (callsOf (s.stack t)).all)
    (hborrows : call.borrows = true) : s.shared.owned = true := by
  obtain ⟨v, hv, hshows⟩ := exists_shows h
  rw [← hshows.calls_eq hlive] at hcall
  rw [← hshows.shared_eq]
  by_contra howned
  rw [borrows_eq_false hv (Bool.eq_false_of_not_eq_true howned) hcall] at hborrows
  cases hborrows

/-! ### What others do -/

/-- The changes of the finished channel that other threads than `t` do not see. -/
inductive Unnoticed (t : Tid) (x : State κ ω (Pipeline κ V E) (Call κ V E) Answer (Event V E ν)) :
    (Channel (Finished κ V E) → Channel (Finished κ V E)) → Prop where
  | same : Unnoticed t x id
  | released : (callsOf (x.stack t)).active.any (Call.owns · .finished) = true →
      Unnoticed t x Monitor.release
  | roused : (∀ u, (callsOf (x.stack u)).active ≠ some (.work (.publishing .notifying))) →
      Unnoticed t x (·.rouse t)

/-- The changes of the number of borrows that other threads than `t` do not see in a step. -/
inductive Uncounted (t : Tid)
    (x x' : State κ ω (Pipeline κ V E) (Call κ V E) Answer (Event V E ν)) : (Nat → Nat) → Prop where
  | same : Uncounted t x x' id
  | lent : x'.shared.owned = true → Uncounted t x x' (· + 1)
  | kept (call : Call κ V E) : call ∈ (callsOf (x.stack t)).all → call.borrows = true →
      Uncounted t x x' (· - 1)

theorem Unnoticed.blind (hg : Unnoticed t x g)
    (h : (machine plan next).Reach (start world codes) x) (hlive : x.aborted = false) (hu : u ≠ t)
    (hactive : (callsOf (x.stack u)).active = some call) : call.Blind g u x.shared := by
  cases hg with
  | same => exact ⟨unseen_id u _ _, fun _ _ => rfl⟩
  | released howns =>
      have howner := owner_of_owns h hlive howns
      have hnot : call.owns .finished = false := by
        by_contra howns'
        have howner' := owner_of_owns (t := u) h hlive
          (by rw [hactive]; exact Bool.eq_true_of_not_eq_false howns')
        exact hu (Option.some.inj (howner'.symm.trans howner))
      refine ⟨?_, fun _ _ => rfl⟩
      rw [hnot]
      exact unseen_release howner
  | roused hquiet =>
      refine ⟨unseen_rouse _ hu, fun hnotify => ?_⟩
      rw [hnotify] at hactive
      exact absurd hactive (hquiet u)

theorem Uncounted.heedless (hk : Uncounted t x x' k)
    (h : (machine plan next).Reach (start world codes) x)
    (hstack : x.stack u = .call call :: rest)
    (hstep : (machine plan next).step u choice x = some x') : call.Heedless k x.shared := by
  have hlive := (Machine.stepped_of_step hstep).1
  cases hk with
  | same => exact ⟨fun _ _ => rfl, fun _ _ => rfl, fun _ _ _ => id⟩
  | lent howned' =>
      refine ⟨fun _ _ => rfl, ?_, ?_⟩
      · rintro outcome rfl
        have hpos : 0 < x.shared.borrows := by
          refine borrows_pos (t := u) (.closing outcome) h hlive ?_ rfl
          rw [hstack]
          exact List.mem_cons_self
        omega
      · rintro reporting rfl howned hnone
        obtain ⟨shared, events, r, hturn, hshared, -⟩ := Machine.turn_of_step hstack hstep
        have htaken : turn (ν := ν) plan u choice x.shared (.taking reporting) =
            some ({ x.shared with owned := false }, [],
              .stay (.teardown { reporting := reporting })) := by
          simp [turn, howned, hnone]
        cases htaken.symm.trans hturn
        rw [hshared] at howned'
        cases howned'
  | kept call' hcall' hborrows =>
      have hpos := borrows_pos _ h hlive hcall' hborrows
      refine ⟨fun _ _ => ?_, fun _ _ => rfl, fun _ _ _ hnone => ?_⟩
      · omega
      · rw [hnone]

/-- **What another thread does** it does where the pipeline differs in what it does not see. -/
theorem step_beside (h : (machine plan next).Reach (start world codes) x) (hu : u ≠ t)
    (hstep : (machine plan next).step u choice x = some x') (hg : Unnoticed t x g)
    (hk : Uncounted t x x' k) :
    (machine plan next).step u choice (x.twin t (refit g k x.shared) frames) =
      some (x'.twin t (refit g k x'.shared) frames) := by
  refine Machine.step_other hu hstep fun call rest shared events r hstack hturn => ?_
  refine turn_refit ?_ (hk.heedless h hstack hstep) hturn
  exact hg.blind h (Machine.stepped_of_step hstep).1 hu (by rw [hstack]; rfl)

/-! ### Nothing is published -/

/-- What is published in a run stays published. -/
theorem exists_reached_append (m : Milestone) (h : (machine plan next).Reach s s') :
    ∃ later, reached m s'.history = reached m s.history ++ later := by
  obtain ⟨later, hlater⟩ := h.exists_later
  exact ⟨reached m later, by rw [hlater, reached_later]⟩

/-- **Nothing joins** the finished channel but what is published. -/
theorem value_eq_nil_of_quiet (h : (machine plan next).Reach (start world codes) s)
    (hx : (machine plan next).Reach s x) (hs' : (machine plan next).Reach x s')
    (hnone : s.shared.finished.value = [])
    (hquiet : reached .published s'.history = reached .published s.history) :
    x.shared.finished.value = [] := by
  have hledger : ∀ {s : State κ ω (Pipeline κ V E) (Call κ V E) Answer (Event V E ν)},
      (machine plan next).Reach (start world codes) s → reached .published s.history =
        reached .received s.history ++ s.shared.finished.value.map Finished.ticket := by
    intro s hs
    obtain ⟨v, hv, hshows⟩ := exists_shows hs
    rw [← hshows.history_eq, ← hshows.shared_eq]
    exact (orderly_of_reach hv).ledger.finished
  obtain ⟨published, hpublished⟩ := exists_reached_append .published hx
  obtain ⟨published', hpublished'⟩ := exists_reached_append .published hs'
  obtain ⟨received, hreceived⟩ := exists_reached_append .received hx
  have hbefore := congrArg List.length (hledger h)
  have hafter := congrArg List.length (hledger (h.trans hx))
  rw [hquiet, hpublished] at hpublished'
  rw [hnone] at hbefore
  rw [hpublished, hreceived] at hafter
  have hlength := congrArg List.length hpublished'
  simp only [List.length_append, List.length_map, List.length_nil] at hbefore hafter hlength
  exact List.length_eq_zero_iff.mp (by omega)

/-! ### Beside a state -/

/-- The state beside `x` in which thread `t` has these layers, and the finished channel and the
number of borrows are changed so. -/
def beside (t : Tid) (g : Channel (Finished κ V E) → Channel (Finished κ V E)) (k : Nat → Nat)
    (frames : Stack κ (Call κ V E) Answer)
    (x : State κ ω (Pipeline κ V E) (Call κ V E) Answer (Event V E ν)) :
    State κ ω (Pipeline κ V E) (Call κ V E) Answer (Event V E ν) :=
  x.twin t (refit g k x.shared) frames

theorem beside_self (ht : t < x.threads.length) : beside t id id (x.stack t) x = x :=
  State.twin_self ht

/-- What goes with the layers of a thread: the changes, and the layers of the thread beside. -/
abbrev Pairing (κ V E : Type) := Stack κ (Call κ V E) Answer →
  (Channel (Finished κ V E) → Channel (Finished κ V E)) → (Nat → Nat) →
  Stack κ (Call κ V E) Answer → Prop

/-- Whether `y` is a state beside `x` that goes with the layers of thread `t` in `x`. -/
def Goes (R : Pairing κ V E) (t : Tid)
    (x y : State κ ω (Pipeline κ V E) (Call κ V E) Answer (Event V E ν)) : Prop :=
  ∃ g k frames, R (x.stack t) g k frames ∧ y = beside t g k frames x

section Goes

variable {R : Pairing κ V E} {shared : Pipeline κ V E} {events : List (Event V E ν)}
  {r r' : Turn κ (Call κ V E) Answer}

/-- **A step of another thread** is followed beside. -/
theorem Goes.of_other (hgoes : Goes R t x y) (h : (machine plan next).Reach (start world codes) x)
    (hu : u ≠ t) (hstep : (machine plan next).step u choice x = some x')
    (hg : ∀ {g k frames}, R (x.stack t) g k frames → Unnoticed t x g ∧ Uncounted t x x' k) :
    ∃ y', (machine plan next).Reach y y' ∧ Goes R t x' y' := by
  obtain ⟨g, k, frames, hR, rfl⟩ := hgoes
  have hsame : x'.stack t = x.stack t := Machine.stack_of_step_ne hstep (Ne.symm hu)
  obtain ⟨hunnoticed, huncounted⟩ := hg hR
  exact ⟨_, Machine.Reach.start.step u choice (step_beside h hu hstep hunnoticed huncounted),
    g, k, frames, by rwa [hsame], rfl⟩

/-- A step of the thread itself is followed beside, by as many steps as it takes there. -/
theorem goes_of_reach (hstack : x.stack t = .call call :: base)
    (hstep : (machine plan next).step t choice x = some x')
    (hturn : turn plan t choice x.shared call = some (shared, events, r)) (hr : r ≠ .abort)
    (hR : R (Machine.afterTurn base r) g' k' frames')
    (hfollow : t < x.threads.length → (machine plan next).Reach
      (x.going t (refit g k x.shared) x.world frames [])
      (x.going t (refit g' k' shared) x.world frames' events)) :
    ∃ y, (machine plan next).Reach (beside t g k frames x) y ∧ Goes R t x' y := by
  obtain ⟨shared', events', r', hturn', heq⟩ := Machine.eq_of_turn hstack hstep
  cases hturn.symm.trans hturn'
  obtain rfl := heq hr
  have ht : t < x.threads.length :=
    State.lt_of_stack_ne_nil (by rw [hstack]; exact List.cons_ne_nil _ _)
  refine ⟨_, ?_, g', k', frames', by rwa [State.going_stack ht], rfl⟩
  rw [beside, beside, State.going_twin]
  exact hfollow ht

/-- A step in which the call goes on, while the one beside may go on by more steps, or none. -/
theorem goes_of_stay (hstack : x.stack t = .call call :: base)
    (hstep : (machine plan next).step t choice x = some x')
    (hturn : turn plan t choice x.shared call = some (shared, events, .stay call'))
    (hR : R (.call call' :: base) g' k' (.call other' :: base'))
    (hfollow : (machine plan next).GoesOn t (refit g k x.shared) other events
      (refit g' k' shared) other') :
    ∃ y, (machine plan next).Reach (beside t g k (.call other :: base') x) y ∧ Goes R t x' y :=
  goes_of_reach hstack hstep hturn (Turn.stay_ne_abort _) hR
    (hfollow.reach (Machine.stepped_of_step hstep).1)

/-- A step that the call beside makes too. -/
theorem goes_of_turn (hstack : x.stack t = .call call :: base)
    (hstep : (machine plan next).step t choice x = some x')
    (hturn : turn plan t choice x.shared call = some (shared, events, r)) (hr : r ≠ .abort)
    (hR : R (Machine.afterTurn base r) g' k' (Machine.afterTurn base' r'))
    (hturn' : turn plan t choice (refit g k x.shared) other =
      some (refit g' k' shared, events, r')) (hr' : r' ≠ .abort) :
    ∃ y, (machine plan next).Reach (beside t g k (.call other :: base') x) y ∧ Goes R t x' y :=
  goes_of_reach hstack hstep hturn hr hR fun ht => Machine.Reach.start.step t choice
    (Machine.step_going (Machine.stepped_of_step hstep).1 ht hturn' hr')

/-- A call that delivers a result notes it, and runs the callback that fits it, if there is one. -/
theorem turn_delivering {s : Pipeline κ V E} {f : Finished κ V E} {after : Call κ V E}
    (hcall : call.delivering? = some (f, after)) :
    turn (ν := ν) plan t choice s call = some (s, [deliveryEvent f],
      f.callback?.elim (.stay after) (.run · after)) := by
  rw [turn_of_delivering hcall]
  cases f.callback? <;> rfl

/-- A delivery of the same result beside. -/
theorem goes_of_delivering {f : Finished κ V E} {after after' : Call κ V E}
    (hstack : x.stack t = .call call :: base)
    (hstep : (machine plan next).step t choice x = some x')
    (hcall : call.delivering? = some (f, after)) (hother : other.delivering? = some (f, after'))
    (hstay : R (.call after :: base) g k (.call after' :: base'))
    (hrun : ∀ code, R (.code code :: .call after :: base) g k
      (.code code :: .call after' :: base')) :
    ∃ y, (machine plan next).Reach (beside t g k (.call other :: base') x) y ∧ Goes R t x' y := by
  -- both make the same turn, after which each goes on in its own way
  refine goes_of_turn hstack hstep (turn_delivering hcall) ?_ (?_ : R (Machine.afterTurn base _) g k
    (Machine.afterTurn base' _)) (turn_delivering hother) ?_
  · cases f.callback? <;> rintro ⟨⟩
  · cases f.callback? with
    | none => exact hstay
    | some code => exact hrun code
  · cases f.callback? <;> rintro ⟨⟩

/-- Code above a call runs above the call beside too. -/
theorem goes_of_above {above : Stack κ (Call κ V E) Answer} (hne : above ≠ [])
    (hnest : Nested false above) (hstack : x.stack t = above ++ .call call :: base)
    (hstep : (machine plan next).step t choice x = some x') (hlive' : x'.aborted = false)
    (habove : ∀ above', above' ≠ [] → Nested false above' →
      R (above' ++ .call call :: base) id id (above' ++ .call other :: base')) :
    (∃ y, (machine plan next).Reach (beside t id id (above ++ .call other :: base') x) y ∧
      Goes R t x' y) ∨
    ∃ result, x'.stack t = .call (resume call result) :: base ∧
      (machine plan next).Reach (beside t id id (above ++ .call other :: base') x)
        (beside t id id (.call (resume other result) :: base') x') := by
  rcases Machine.step_above hnest hne hstack hstep with
    ⟨above', hne', hnest', hstack', hsame⟩ | ⟨result, hstack', hsame⟩ | ⟨haborted, -⟩
  · refine .inl ⟨_, Machine.Reach.start.step t choice (hsame _ _), id, id, _, ?_, rfl⟩
    rw [hstack']
    exact habove above' hne' hnest'
  · exact .inr ⟨result, hstack', Machine.Reach.start.step t choice (hsame _ _)⟩
  · rw [haborted] at hlive'
    cases hlive'

end Goes

/-! ### The call beside -/

section GoesOn

variable {shared shared' shared'' : Pipeline κ V E} {call'' : Call κ V E}
  {events events' : List (Event V E ν)}

/-- A call that goes on goes on by one more step. -/
theorem goesOn_stay (h : (machine plan next).GoesOn t shared call events shared' call')
    (hturn : turn plan t (.go 0) shared' call' = some (shared'', events', .stay call'')) :
    (machine plan next).GoesOn t shared call (events ++ events') shared'' call'' :=
  h.step (.go 0) hturn

/-- The call beside may stay where it is. -/
theorem goesOn_same (h : shared = shared') :
    (machine plan next).GoesOn t shared call [] shared' call := by
  rw [h]
  exact .start

end GoesOn

/-- A lock that is taken in one run only is free in the other. -/
theorem release_held {c : Channel (Finished κ V E)} (hfree : c.owner = none) :
    (held t c).release = c := by
  obtain ⟨value, owner, poisoned, sleepers⟩ := c
  cases hfree
  rfl

/-- When it is taken there too, there is no difference any more. -/
theorem looked_held {shared : Pipeline κ V E} (howner : shared.finished.owner = some t) :
    looked (refit Monitor.release id shared) (held t shared.finished.release) = shared := by
  obtain ⟨intake, pending, ⟨value, owner, poisoned, sleepers⟩⟩ := shared
  cases howner
  rfl

/-- A drain that has not taken the lock looks for a result in one go. -/
theorem goesOn_look {n : Nat} {shared : Pipeline κ V E} (howner : shared.finished.owner = some t) :
    (machine plan next).GoesOn t (refit Monitor.release id shared)
      (.inside (.draining (.going (n + 1))))
      (shared.finished.value.head?.elim [] fun f => [.received f.ticket])
      (looked shared (drawn shared.finished))
      (.inside (.draining (.popping n
          ⟨.never, .leaving (.ok (some shared.finished.value.head?))⟩))) := by
  have hbegun : turn (ν := ν) plan t (.go 0) (refit Monitor.release id shared)
      (.inside (.draining (.going (n + 1)))) = some (refit Monitor.release id shared, [],
        .stay (.inside (.draining (.popping n (.start .never))))) := rfl
  have harrived : turn (ν := ν) plan t (.go 0) (refit Monitor.release id shared)
      (.inside (.draining (.popping n (.start .never)))) =
      some (shared, [],
        .stay (.inside (.draining (.popping n ⟨.never, .acting false⟩)))) := by
    rw [← looked_held howner]
    exact turn_drawing rfl
  have htaken : turn (ν := ν) plan t (.go 0) shared
      (.inside (.draining (.popping n ⟨.never, .acting false⟩))) = some
        (looked shared (drawn shared.finished),
          shared.finished.value.head?.elim [] fun f => [.received f.ticket],
          .stay (.inside (.draining (.popping n
            ⟨.never, .leaving (.ok (some shared.finished.value.head?))⟩)))) := by
    exact turn_drawn
  exact goesOn_stay (goesOn_stay (goesOn_stay .start hbegun) harrived) htaken

end Offload.Pipeline
