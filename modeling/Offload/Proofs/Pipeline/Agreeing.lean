import Mathlib.Tactic.IntervalCases
import Offload.Proofs.Pipeline.Fruitless
import Offload.Proofs.Pipeline.Unwinding

/-!
# The ways to deliver one result agree

An await that waits for ever, an await that waits for a limited time and a drain of up to one result
deliver the same result in the same way where there is one. Where there is none, an await whose time
runs out does nothing, and neither does a drain of any number of results. An await answers whether
it has delivered a result.

## Main definitions

* `HasDelivered`: whether a thread comes to deliver a result on its way from one state to another.
* `Agreeing`: what is to hold of the calls that a thread begins in a state.

## Main results

* `way_delivers`: by itself, every way comes to deliver the front result.
* `awaited_iff`: an await answers whether it has delivered.
* `delivery_paths_agree`: the ways agree in every state of every run.
-/

namespace Offload.Pipeline

variable {κ ω V E ν : Type} {plan : Plan κ}
  {next : κ → Move κ ω (Request κ V E) Answer (Except E V) ν} {world : ω} {codes : List κ}
  {s s' x x' : State κ ω (Pipeline κ V E) (Call κ V E) Answer (Event V E ν)} {t u : Tid}
  {choice : Choice} {call : Call κ V E} {base : Stack κ (Call κ V E) Answer}

/-! ### By itself -/

/-- A call takes out the front result and delivers it. -/
theorem comes_delivered (w : Way) {shared : Pipeline κ V E} {f : Finished κ V E}
    {later : List (Finished κ V E)} {world : ω}
    {Q : State κ ω (Pipeline κ V E) (Call κ V E) Answer (Event V E ν) → Prop}
    (hlive : s.aborted = false) (ht : t < s.threads.length) (howned : shared.owned = true)
    (h : (machine plan next).Comes t Q (s.going t (withFinished (lent shared) later none) world
      ((f.callback?.map Frame.code).toList ++ .call w.delivered :: base)
      [.received f.ticket, deliveryEvent f])) :
    (machine plan next).Comes t Q (s.going t (withFinished shared (f :: later) none) world
      (.call w.request.call :: base) []) := by
  have hdelivers : ∀ {call : Call κ V E}, call.delivering? = some (f, w.delivered) →
      (machine plan next).Comes t Q (s.going t (withFinished (lent shared) later none) world
        (.call call :: base) [.received f.ticket]) := by
    intro call hcall
    refine .turn hlive ht (fun _ => turn_delivering hcall) ?_ ?_
    · cases f.callback? <;> rintro ⟨⟩
    · cases hcode : f.callback? <;>
      · rw [hcode] at h
        exact h
  rw [w.request_call]
  refine comes_opened hlive ht howned ?_
  cases w with
  | await wait => exact comes_awaited hlive ht (hdelivers rfl)
  | drain =>
      have hbegun : ∀ choice, turn (ν := ν) plan t choice
          (withFinished (lent shared) (f :: later) none) (.inside (.drain (some 1))) =
          some (withFinished (lent shared) (f :: later) none, [],
            .stay (.inside (.draining (.going 1)))) := fun _ => rfl
      exact comes_stay hlive ht hbegun (comes_drawn hlive ht (hdelivers rfl))

/-- **By itself, every way delivers the front result.** It takes the result out, notes its delivery,
and calls the callback that fits the result, if there is one. -/
theorem way_delivers (w : Way) {f : Finished κ V E} {later : List (Finished κ V E)}
    (hlive : s.aborted = false) (hbegins : s.stack t = .call w.request.call :: base)
    (howned : s.shared.owned = true) (hfree : s.shared.finished.owner = none)
    (hvalue : s.shared.finished.value = f :: later) :
    (machine plan next).Comes t (fun x => x = s.going t
      { s.shared with
        finished := { s.shared.finished with value := later }
        borrows := s.shared.borrows + 1 } s.world
      ((f.callback?.map Frame.code).toList ++ .call w.delivered :: base)
      [.received f.ticket, deliveryEvent f]) s := by
  have ht : t < s.threads.length :=
    State.lt_of_stack_ne_nil (by rw [hbegins]; exact List.cons_ne_nil _ _)
  have hwaits : s.shared = withFinished s.shared (f :: later) none := by
    rw [withFinished, ← hvalue, ← hfree]
  have hstands : s.going t s.shared s.world (s.stack t) [] =
      s.going t (withFinished s.shared (f :: later) none) s.world
        (.call w.request.call :: base) [] := by
    rw [← hwaits, hbegins]
  refine .of_going ht ?_
  rw [hstands]
  refine comes_delivered w hlive ht howned (.here ?_)
  rw [withFinished, lent, ← hfree]

/-! ### What an await answers -/

/-- Whether thread `t`, on its way from one state to another within a call above the layers `base`,
comes to deliver a result in this call. -/
def HasDelivered (plan : Plan κ)
    (next : κ → Move κ ω (Request κ V E) Answer (Except E V) ν) (t : Tid)
    (base : Stack κ (Call κ V E) Answer)
    (s s' : State κ ω (Pipeline κ V E) (Call κ V E) Answer (Event V E ν)) : Prop :=
  ∃ x f, (machine plan next).ReachWhile (Machine.Pursues t base fun _ => True) s x ∧
    x.stack t = .call (.inside (.await (.delivering f))) :: base ∧
    (machine plan next).ReachWhile (Machine.Pursues t base fun _ => True) x s'

/-- Whether an await has not come to deliver a result. -/
inductive Call.AwaitsStill : Call κ V E → Prop where
  | opening (p : Channel.Pop (Finished κ V E)) : AwaitsStill (.opening (.await (.popping p)))
  | popping (p : Channel.Pop (Finished κ V E)) : AwaitsStill (.inside (.await (.popping p)))
  | missed : AwaitsStill (.closing (.ok (.awaited false)))
  | failed (fault : Fault) : AwaitsStill (.closing (.error fault))

/-- Whether an await has come to deliver a result. -/
inductive Call.HasAwaited : Call κ V E → Prop where
  | delivering (f : Finished κ V E) : HasAwaited (.inside (.await (.delivering f)))
  | ending (outcome : Except Fault Unit) : HasAwaited (.inside (.await (.ending outcome)))
  | answered : HasAwaited (.closing (.ok (.awaited true)))
  | failed (fault : Fault) : HasAwaited (.closing (.error fault))

/-- An await that has not come to deliver a result goes on so, or comes to deliver one, or is
over. -/
theorem Call.AwaitsStill.of_own (hawaits : call.AwaitsStill)
    (hstack : x.stack t = .call call :: base)
    (hstep : (machine plan next).step t choice x = some x') :
    (∃ call', x'.stack t = .call call' :: base ∧ call'.AwaitsStill) ∨
      (∃ f, x'.stack t = .call (.inside (.await (.delivering f))) :: base) ∨
      (x'.stack t).length ≤ base.length := by
  cases hawaits with
  | opening p =>
      obtain ⟨shared, events, r, hturn, -, -, hstack'⟩ := Machine.turn_of_step hstack hstep
      rw [hstack']
      simp only [machine, turn] at hturn
      split at hturn
      · cases hturn
        exact .inl ⟨_, rfl, .popping p⟩
      · cases hturn
        exact .inr (.inr (Machine.length_finishCall_le _ _))
  | popping p =>
      obtain ⟨shared, events, r, hturn, -, -, hstack'⟩ := Machine.turn_of_step hstack hstep
      rw [hstack']
      obtain ⟨use, huse, rfl⟩ := exists_of_nest hturn
      obtain ⟨stage, hstage, rfl⟩ := exists_of_nest huse
      obtain ⟨finished, marks, pop, hpop, -, -, rfl⟩ := exists_of_onFinished hstage
      obtain ⟨⟨finished', progress⟩, -, heq⟩ := Option.map_eq_some_iff.mp hpop
      cases heq
      cases progress with
      | on phase => exact .inl ⟨_, rfl, .popping _⟩
      | ended outcome =>
          rcases outcome with fault | _ | _ | f
          · exact .inl ⟨_, rfl, .failed fault⟩
          · exact .inl ⟨_, rfl, .missed⟩
          · by_cases hwait : p.wait = .endless
            · simp only [Channel.Pop.afterVisit, hwait, if_true]
              exact .inl ⟨_, rfl, .popping _⟩
            · simp only [Channel.Pop.afterVisit, hwait, if_false]
              exact .inl ⟨_, rfl, .missed⟩
          · exact .inr (.inl ⟨f, rfl⟩)
  | missed | failed fault => exact .inr (.inr (length_le_of_closing hstack hstep))

/-- An await that has come to deliver a result goes on so, or is over. -/
theorem pursues_of_own (hpursues : Machine.Pursues t base Call.HasAwaited x)
    (hstep : (machine plan next).step t choice x = some x') (hlive' : x'.aborted = false) :
    Machine.Pursues t base Call.HasAwaited x' ∨ (x'.stack t).length ≤ base.length := by
  cases hpursues with
  | itself call hstack hawaited =>
      cases hawaited with
      | delivering f =>
          obtain ⟨shared, events, r, hturn, -, -, hstack'⟩ := Machine.turn_of_step hstack hstep
          have hdelivered : turn (ν := ν) plan t choice x.shared
              (.inside (.await (.delivering f))) = some (x.shared, [deliveryEvent f],
                f.callback?.elim (.stay (.inside (.await (.ending (.ok ())))))
                  (.run · (.inside (.await (.ending (.ok ())))))) := turn_delivering rfl
          cases hdelivered.symm.trans hturn
          refine .inl (.of_next (.inside (.await (.ending (.ok ())))) hstack' ?_ (.ending _))
          cases f.callback? <;> rfl
      | ending outcome =>
          obtain ⟨shared, events, r, hturn, -, -, hstack'⟩ := Machine.turn_of_step hstack hstep
          cases outcome with
          | ok _ =>
              cases hturn
              exact .inl (.itself _ hstack' .answered)
          | error fault =>
              cases hturn
              exact .inl (.itself _ hstack' (.failed fault))
      | answered | failed fault => exact .inr (length_le_of_closing hstack hstep)
  | within above call hne hnest hstack hawaited =>
      rcases Machine.above_of_step hnest hne hstack hstep with
        ⟨above', hne', hnest', hstack'⟩ | ⟨result, hstack'⟩ | haborted
      · exact .inl (.within above' call hne' hnest' hstack' hawaited)
      · refine .inl (.itself _ hstack' ?_)
        cases hawaited with
        | delivering f =>
            cases result with
            | ok _ => exact .delivering f
            | error fault => exact .ending _
        | ending outcome =>
            cases result with
            | ok _ => exact .ending outcome
            | error fault => exact .ending _
        | answered => exact .answered
        | failed fault => exact .failed fault
      · rw [haborted] at hlive'
        cases hlive'

/-- **An await answers whether it has delivered a result.** -/
theorem awaited_iff {wait : Channel.Wait} {answer : Answer}
    (hbegins : s.stack t = .call (.opening (.await (.start wait))) :: base)
    (hwhile : (machine plan next).ReachWhile (Machine.Pursues t base fun _ => True) s s')
    (hlive : s'.aborted = false) (hanswers : s'.stack t = .call (.closing (.ok answer)) :: base) :
    ∃ delivered, answer = .awaited delivered ∧
      (delivered = true ↔ HasDelivered plan next t base s s') := by
  have hover : ¬ (s'.stack t).length ≤ base.length := by
    rw [hanswers]
    simp
  -- up to the end, it has come to deliver a result, or has not
  have hstill : (∃ call, s'.stack t = .call call :: base ∧ call.AwaitsStill) ∨
      HasDelivered plan next t base s s' := by
    have hend := hwhile.invariant (J := fun x =>
      (∃ call, x.stack t = .call call :: base ∧ call.AwaitsStill) ∨
        HasDelivered plan next t base s x ∨ (x.stack t).length ≤ base.length)
      (.inl ⟨_, hbegins, .opening _⟩) ?_
    · exact hend.imp_right fun h => h.resolve_right hover
    · intro x u choice x' hto hpursues hJ hstep _
      rcases hJ with ⟨call, hstack, hawaits⟩ | hdelivered | hx
      · by_cases hu : u = t
        · subst hu
          rcases hawaits.of_own hstack hstep with hawaits' | ⟨f, hstack'⟩ | hx'
          · exact .inl hawaits'
          · exact .inr (.inl ⟨x', f, hto.step u choice hpursues hstep, hstack', .start⟩)
          · exact .inr (.inr hx')
        · exact .inl ⟨call, (Machine.stack_of_step_ne hstep (Ne.symm hu)).trans hstack, hawaits⟩
      · obtain ⟨x₁, f, hto₁, hstack₁, hfrom₁⟩ := hdelivered
        exact .inr (.inl ⟨x₁, f, hto₁, hstack₁, hfrom₁.step u choice hpursues hstep⟩)
      · exact absurd hx (Nat.not_le.mpr hpursues.length_lt)
  -- from the delivery on, it stays so that it has
  have hdone : HasDelivered plan next t base s s' →
      Machine.Pursues t base Call.HasAwaited s' := by
    rintro ⟨x₁, f, -, hstack₁, hfrom₁⟩
    have hend := hfrom₁.invariant (J := fun x =>
      Machine.Pursues t base Call.HasAwaited x ∨ (x.stack t).length ≤ base.length)
      (.inl (.itself _ hstack₁ (.delivering f))) ?_
    · exact hend.resolve_right hover
    · intro x u choice x' _ hpursues hJ hstep hx'
      have hawaited := hJ.resolve_right (Nat.not_le.mpr hpursues.length_lt)
      by_cases hu : u = t
      · subst hu
        exact pursues_of_own hawaited hstep (hx'.live hlive)
      · exact .inl (hawaited.of_stack_eq (Machine.stack_of_step_ne hstep (Ne.symm hu)))
  rcases hstill with ⟨call, hstack, hawaits⟩ | hdelivered
  · cases hanswers.symm.trans hstack
    cases hawaits
    refine ⟨false, rfl, fun h => (Bool.false_ne_true h).elim, fun hdelivered => ?_⟩
    cases (hdone hdelivered).of_call hanswers
  · cases (hdone hdelivered).of_call hanswers
    exact ⟨true, rfl, fun _ => hdelivered, fun _ => rfl⟩

/-! ### Every run -/

/-- What is to hold of the calls by which thread `t`, in the state `s`, begins to deliver
results. -/
structure Agreeing (plan : Plan κ) (next : κ → Move κ ω (Request κ V E) Answer (Except E V) ν)
    (t : Tid) (s : State κ ω (Pipeline κ V E) (Call κ V E) Answer (Event V E ν)) : Prop where
  /-- Where results wait, every way to deliver one comes by itself, whatever the scheduler chooses,
  to where it has taken out the front one, has noted its delivery, and runs the callback that fits
  it, if there is one. -/
  delivers : ∀ (w : Way) {base : Stack κ (Call κ V E) Answer} {f : Finished κ V E}
    {later : List (Finished κ V E)}, s.aborted = false →
    s.stack t = .call w.request.call :: base → s.shared.owned = true →
    s.shared.finished.owner = none → s.shared.finished.value = f :: later →
    (machine plan next).Comes t (fun x => x = s.going t
      { s.shared with
        finished := { s.shared.finished with value := later }
        borrows := s.shared.borrows + 1 } s.world
      ((f.callback?.map Frame.code).toList ++ .call w.delivered :: base)
      [.received f.ticket, deliveryEvent f]) s
  /-- Where one way finds a result and comes to its end, whatever the callback and the other threads
  do, another way comes to the same state in its place, with the same fault or with its answer. -/
  replaced : ∀ (w w' : Way) {base : Stack κ (Call κ V E) Answer}
    {s' : State κ ω (Pipeline κ V E) (Call κ V E) Answer (Event V E ν)}
    {outcome : Except Fault Answer}, s.stack t = .call w.request.call :: base →
    (machine plan next).ReachWhile (Finds t base) s s' → s'.aborted = false →
    s'.stack t = .call (.closing outcome) :: base →
    (w' = .drain → s'.shared.finished.owner = none) →
    (machine plan next).Reach (s.withStack t (.call w'.request.call :: base))
      (s'.withStack t
        (.call (.closing (outcome.map fun _ => w'.answer s'.shared.finished.value)) :: base))
  /-- An await answers whether it has delivered a result. -/
  awaited : ∀ {wait : Channel.Wait} {base : Stack κ (Call κ V E) Answer}
    {s' : State κ ω (Pipeline κ V E) (Call κ V E) Answer (Event V E ν)} {answer : Answer},
    s.stack t = .call (Request.awaiting wait).call :: base →
    (machine plan next).ReachWhile (Machine.Pursues t base fun _ => True) s s' →
    s'.aborted = false → s'.stack t = .call (.closing (.ok answer)) :: base →
    ∃ delivered, answer = .awaited delivered ∧
      (delivered = true ↔ HasDelivered plan next t base s s')
  /-- Where no result waits and none is published before the call has ended, it has answered so, and
  the others have done just what they do if it has answered at once. -/
  unnoticed : ∀ {request : Request κ V E} {answer : Answer} {k : Except Fault Answer → κ}
    {rest : Stack κ (Call κ V E) Answer} {order : List (Tid × Choice)}
    {s' : State κ ω (Pipeline κ V E) (Call κ V E) Answer (Event V E ν)} {position : κ},
    Fruitless request answer → s.stack t = .call request.call :: .wait k :: rest →
    s.shared.finished.value = [] →
    (machine plan next).Runs (Undisturbed t (.wait k :: rest) request) s order s' →
    s'.stack t = .code position :: rest → s'.shared.owned = true →
    reached .published s'.history = reached .published s.history →
    position = k (.ok answer) ∧
      (machine plan next).Runs (fun _ => True) (s.withStack t (.code (k (.ok answer)) :: rest))
        (order.filter (·.1 != t)) s'
  /-- It can come to this end by itself. -/
  ends : ∀ {request : Request κ V E} {answer : Answer} {k : Except Fault Answer → κ}
    {rest : Stack κ (Call κ V E) Answer}, Fruitless request answer → s.aborted = false →
    s.stack t = .call request.call :: .wait k :: rest → s.shared.owned = true →
    s.shared.finished.owner = none → s.shared.finished.value = [] →
    (machine plan next).Reach s (s.withStack t (.code (k (.ok answer)) :: rest))

/-- **The ways to deliver a result agree**, in every state of every run. Whether a thread awaits a
result for ever or for a limited time, or drains up to one, it delivers the front result through the
same callback with the same events, and comes to the same state, whatever the callback does; an
await answers whether it has delivered. Where there is no result, an await for a limited time and a
drain of any number of results answer so, and leave everything as it was. -/
theorem delivery_paths_agree (h : (machine plan next).Reach (start world codes) s) (t : Tid) :
    Agreeing plan next t s where
  delivers w _ _ _ hlive hbegins howned hfree hvalue :=
    way_delivers w hlive hbegins howned hfree hvalue
  replaced w w' _ _ _ hbegins hwhile hlive hanswers hfree :=
    way_replaced w w' h hbegins hwhile hlive hanswers hfree
  awaited hbegins hwhile hlive hanswers := awaited_iff hbegins hwhile hlive hanswers
  unnoticed hfruitless hbegins hnone hruns hends howned hquiet :=
    fruitless_unnoticed hfruitless h hbegins hnone hruns hends howned hquiet
  ends hfruitless hlive hbegins howned hfree hnone :=
    fruitless_ends hfruitless hlive hbegins howned hfree hnone

/-! ### A run in which an await delivers a result and the next one finds none -/

/-- What the code of the run asks for. -/
inductive Hope where
  /-- Schedules a task that does nothing and has a callback for values. -/
  | schedule
  | await

/-- The code of the run. -/
abbrev Hoper := Script Hope Answer Unit Unit (Except Unit Unit)

/-- The request that a hope stands for. -/
def Hope.request : Hope → Request Hoper Unit Unit
  | .schedule => .handing { body := some (.ret (.ok ())), onValue := some fun _ => .ret (.ok ()) }
  | .await => .awaiting .limited

/-- Schedules a task, and awaits results twice for a limited time. -/
def oneAndAwaitTwice : Hoper := do
  Script.all (([.schedule, .await, .await] : List Hope).map fun hope => do
    let _ ← Script.ask hope)
  pure (.ok ())

/-- The states of the run. -/
abbrev Hoped := State Hoper Unit (Pipeline Hoper Unit Unit) (Call Hoper Unit Unit) Answer
  (Event Unit Unit Unit)

/-- The machine of the run. -/
abbrev hoping : Machine Hoper Unit (Pipeline Hoper Unit Unit) (Call Hoper Unit Unit) Answer
    (Except Unit Unit) (Event Unit Unit Unit) :=
  machine {} (Script.next Hope.request)

/-- The state in which the result waits, and the first await begins. -/
def oneReady : Hoped :=
  hoping.settle [(1, .go 0)] 1 (hoping.settle [(0, .go 0)] 40
    (hoping.settle [(1, .go 0)] 10 (start () [oneAndAwaitTwice])))

/-- The state some steps later. -/
def oneReadyAfter (n : Nat) : Hoped :=
  hoping.settle [(1, .go 0)] n oneReady

/-- The state in which no result is left, and the second await begins. -/
def noneReady : Hoped :=
  oneReadyAfter 10

/-- The state some steps later, in which the time of the await is over. -/
def noneReadyAfter (n : Nat) : Hoped :=
  hoping.settle [(1, .expire)] n noneReady

/-- The code that waits for the second await. -/
def hopingFor : Except Fault Answer → Hoper :=
  match noneReady.stack 1 with
  | _ :: .wait k :: _ => k
  | _ => fun _ => pure (.ok ())

/-- A drain comes to where the first await has come, and the second await has changed nothing. -/
theorem delivery_paths_agree_oneReady :
    oneReady.shared.finished.value.map Finished.ticket = [0] ∧
      hoping.Comes 1 (fun x => x.shared.finished.value = []) oneReady ∧
      hoping.Reach
        (oneReady.withStack 1 (.call (.opening (.drain (some 1))) :: (oneReady.stack 1).tail))
        ((oneReadyAfter 8).withStack 1
          (.call (.closing (.ok (.drained false))) :: (oneReady.stack 1).tail)) ∧
      HasDelivered {} (Script.next Hope.request) 1 (oneReady.stack 1).tail oneReady
        (oneReadyAfter 8) ∧
      hoping.Runs (fun _ => True)
        (noneReady.withStack 1 [.code (hopingFor (.ok (.awaited false)))]) [] (noneReadyAfter 5) ∧
      hoping.Reach noneReady
        (noneReady.withStack 1 [.code (hopingFor (.ok (.awaited false)))]) := by
  have hreach : hoping.Reach (start () [oneAndAwaitTwice]) oneReady :=
    Machine.reach_settle _ _ (Machine.reach_settle _ _ (Machine.reach_settle _ _ .start))
  have hreach' : hoping.Reach (start () [oneAndAwaitTwice]) noneReady :=
    Machine.reach_settle _ _ hreach
  have hbegins : oneReady.stack 1 =
      .call (Way.await .limited).request.call :: (oneReady.stack 1).tail := rfl
  have hfinds : ∀ i < 8, Finds 1 (oneReady.stack 1).tail (oneReadyAfter i) := by
    intro i hi
    interval_cases i <;> first
      | exact .itself _ rfl fun hseeks => False.elim hseeks
      | exact .itself _ rfl fun _ => List.cons_ne_nil _ _
      | exact .within [.code _] _ (List.cons_ne_nil _ _) (.code _) rfl
          fun hseeks => False.elim hseeks
  have hundisturbed : ∀ i < 5, Undisturbed 1 [.wait hopingFor]
      (.awaiting .limited : Request Hoper Unit Unit) (noneReadyAfter i) := by
    intro i hi
    interval_cases i <;>
    · refine ⟨.itself _ rfl trivial, fun _ u => ?_⟩
      rcases u with _ | _ | u <;> rintro ⟨⟩
  have hwhile : hoping.ReachWhile (Finds 1 (oneReady.stack 1).tail) oneReady (oneReadyAfter 8) :=
    Machine.reachWhile_settle .start hfinds
  have hruns : hoping.Runs (Undisturbed 1 [.wait hopingFor]
      (.awaiting .limited : Request Hoper Unit Unit)) noneReady
      (List.replicate 5 (1, .expire)) (noneReadyAfter 5) :=
    Machine.runs_settle .start hundisturbed fun i hi => by interval_cases i <;> rfl
  refine ⟨by decide +kernel, ?_, ?_, ?_, ?_, ?_⟩
  · refine ((delivery_paths_agree hreach 1).delivers (.await .limited) rfl hbegins rfl rfl
      rfl).mono ?_
    rintro _ rfl
    rfl
  · exact (delivery_paths_agree hreach 1).replaced (.await .limited) .drain hbegins hwhile rfl rfl
      fun _ => rfl
  · obtain ⟨delivered, hanswer, hiff⟩ :=
      (delivery_paths_agree hreach 1).awaited hbegins
        (Machine.reachWhile_settle .start fun i hi => (hfinds i hi).mono fun _ _ => trivial) rfl
        (rfl : (oneReadyAfter 8).stack 1 = .call (.closing (.ok (.awaited true))) :: _)
    cases hanswer
    exact hiff.mp rfl
  · exact ((delivery_paths_agree hreach' 1).unnoticed .await rfl rfl hruns rfl rfl rfl).2
  · exact (delivery_paths_agree hreach' 1).ends .await rfl rfl rfl rfl rfl

end Offload.Pipeline
