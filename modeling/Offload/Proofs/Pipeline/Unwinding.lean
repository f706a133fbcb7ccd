import Offload.Proofs.Pipeline.Draining
import Offload.Proofs.Pipeline.Looking
import Offload.Proofs.Pipeline.Unpoisoned
import Offload.Proofs.Twins

/-!
# A callback that fails

A callback that ends in a fault makes the call that delivers unwind with this fault. The results
before it have been delivered, its own is lost, and the results behind it wait as they did. The call
leaves nothing else behind: not a lock, not a borrow, no mark of the fault. So whatever is done
afterwards goes just as if the results behind had been all that ever waited.

Here the callbacks do nothing to the pipeline, and the other threads stand still during the call.

## Main definitions

* `Quiet`: code that comes to an end without calling the pipeline.
* `Strikes`: the callbacks of some results return, and that of the next one fails.
* `Request.bound`: how many results a request delivers at most.

## Main result

* `fault_loses_one`: what a call leaves behind in which a callback fails.
-/

namespace Offload.Pipeline

variable {κ ω V E ν : Type} {plan : Plan κ}
  {next : κ → Move κ ω (Request κ V E) Answer (Except E V) ν} {t : Tid}

/-! ### Callbacks -/

/-- Whether code of thread `t`, from this world on and whatever the scheduler chooses, comes to an
end without calling the pipeline, and `Q` holds of its end and of the world then. -/
inductive Quiet (next : κ → Move κ ω (Request κ V E) Answer (Except E V) ν) (t : Tid)
    (Q : Except Fault (Except E V) → ω → Prop) : κ → ω → Prop where
  | ended {position : κ} {world : ω} {outcome : Except Fault (Except E V)} :
      (next position).ended? = some outcome → Q outcome world → Quiet next t Q position world
  | noting {position position' : κ} {world : ω} (note : ν) :
      next position = .note note position' → Quiet next t Q position' world →
      Quiet next t Q position world
  | acting {position : κ} {world : ω} {f : Tid → Choice → ω → Option (ω × κ)}
      (after : Choice → ω × κ) : next position = .act f →
      (∀ choice, f t choice world = some (after choice)) →
      (∀ choice, Quiet next t Q (after choice).2 (after choice).1) → Quiet next t Q position world

/-- Whether the callbacks of these results return, one called after the other from this world on,
and that of `r`, called next, ends in the fault. A result without a callback is passed by. -/
def Strikes (next : κ → Move κ ω (Request κ V E) Answer (Except E V) ν) (t : Tid) (fault : Fault)
    (r : Finished κ V E) : List (Finished κ V E) → ω → Prop
  | [], world =>
    ∃ code, r.callback? = some code ∧ Quiet next t (fun end? _ => end? = .error fault) code world
  | f :: passed, world =>
    match f.callback? with
    | none => Strikes next t fault r passed world
    | some code =>
      Quiet next t (fun end? world' =>
        (∃ result, end? = .ok result) ∧ Strikes next t fault r passed world') code world

/-- How many results a request delivers at most. -/
def Request.bound (plan : Plan κ) : Request κ V E → Nat
  | .draining max => max.getD plan.settings.batch
  | .awaiting _ => 1
  | _ => 0

/-- Whether an event is a note of code. -/
def Event.isNote : Event V E ν → Bool
  | .note _ => true
  | _ => false

/-- What is noted beside what code notes. -/
def unnoted (events : List (Event V E ν)) : List (Event V E ν) :=
  events.filter (!·.isNote)

theorem unnoted_append (events events' : List (Event V E ν)) :
    unnoted (events ++ events') = unnoted events ++ unnoted events' :=
  List.filter_append ..

theorem unnoted_deliveryEvent (f : Finished κ V E) :
    unnoted [(deliveryEvent f : Event V E ν)] = [deliveryEvent f] := by
  rw [deliveryEvent]
  split <;> split <;> rfl

/-! ### One thread by itself -/

section Alone

variable {s : State κ ω (Pipeline κ V E) (Call κ V E) Answer (Event V E ν)}
  {Q : State κ ω (Pipeline κ V E) (Call κ V E) Answer (Event V E ν) → Prop}
  {rest frames : Stack κ (Call κ V E) Answer} {events : List (Event V E ν)} {world : ω}
  {shared : Pipeline κ V E} {value : List (Finished κ V E)} {f r : Finished κ V E} {fault : Fault}

/-- The same pipeline where these results wait, under a lock that this thread owns, if any does. -/
def withFinished (shared : Pipeline κ V E) (value : List (Finished κ V E)) (owner : Option Tid) :
    Pipeline κ V E :=
  { shared with finished := { shared.finished with value := value, owner := owner } }

/-- The same pipeline, borrowed once more. -/
def lent (shared : Pipeline κ V E) : Pipeline κ V E :=
  { shared with borrows := shared.borrows + 1 }

/-- Code that calls nothing leaves nothing behind but notes. -/
theorem comes_quiet {Q' : Except Fault (Except E V) → ω → Prop} {code : κ}
    (hlive : s.aborted = false) (ht : t < s.threads.length) (hcode : Quiet next t Q' code world)
    (h : ∀ outcome world' later, Q' outcome world' → unnoted later = [] →
      (machine plan next).Comes t Q (s.going t shared world'
        ((machine plan next).finishCode outcome rest) (events ++ later))) :
    (machine plan next).Comes t Q (s.going t shared world (.code code :: rest) events) := by
  induction hcode generalizing events with
  | @ended position world outcome hend hQ =>
      refine .ended hlive ht ((Move.ended?_map (next position)).trans hend) ?_
      have hdone := h outcome world [] hQ rfl
      rwa [List.append_nil] at hdone
  | @noting position position' world note hmove _ ih =>
      have hnext : (machine plan next).next position = .note (.note note) position' :=
        congrArg (Move.map Request.call Event.note) hmove
      refine .noted hlive ht hnext (ih fun outcome world' later hQ hlater => ?_)
      rw [List.append_assoc]
      exact h outcome world' ([.note note] ++ later) hQ hlater
  | @acting position world f after hmove hact _ ih =>
      have hnext : (machine plan next).next position = .act f :=
        congrArg (Move.map Request.call Event.note) hmove
      exact .acted hlive ht hnext hact fun choice => ih choice h

/-- A step of a call that goes on. -/
theorem comes_stay {call call' : Call κ V E} {shared' : Pipeline κ V E}
    {new : List (Event V E ν)} (hlive : s.aborted = false) (ht : t < s.threads.length)
    (hturn : ∀ choice,
      turn plan t choice shared call = some (shared', new, .stay call'))
    (h : (machine plan next).Comes t Q
      (s.going t shared' world (.call call' :: rest) (events ++ new))) :
    (machine plan next).Comes t Q (s.going t shared world (.call call :: rest) events) :=
  .turn hlive ht hturn (Turn.stay_ne_abort _) h

/-- A call through the owner borrows the pipeline. -/
theorem comes_opened {use : Use κ V E} (hlive : s.aborted = false) (ht : t < s.threads.length)
    (howned : shared.owned = true)
    (h : (machine plan next).Comes t Q (s.going t (withFinished (lent shared) value none) world
      (.call (.inside use) :: rest) events)) :
    (machine plan next).Comes t Q (s.going t (withFinished shared value none) world
      (.call (.opening use) :: rest) events) := by
  refine comes_stay hlive ht (fun _ => turn_opening howned) ?_
  rw [List.append_nil]
  exact h

/-- A drain takes out the first result that waits. -/
theorem comes_drawn {left : Nat} (hlive : s.aborted = false) (ht : t < s.threads.length)
    (h : (machine plan next).Comes t Q (s.going t (withFinished shared value none) world
      (.call (.inside (.draining (.delivering left f))) :: rest)
      (events ++ [.received f.ticket]))) :
    (machine plan next).Comes t Q (s.going t (withFinished shared (f :: value) none) world
      (.call (.inside (.draining (.going (left + 1)))) :: rest) events) := by
  refine comes_stay hlive ht (fun _ => turn_going) ?_
  refine comes_stay hlive ht (fun _ => turn_drawing rfl) ?_
  refine comes_stay hlive ht (fun _ => turn_drawn) ?_
  refine comes_stay hlive ht (fun _ => turn_parted) ?_
  rw [List.append_nil, List.append_nil, List.append_nil]
  exact h

/-- So does an await. -/
theorem comes_awaited {wait : Channel.Wait} (hlive : s.aborted = false) (ht : t < s.threads.length)
    (h : (machine plan next).Comes t Q (s.going t (withFinished shared value none) world
      (.call (.inside (.await (.delivering f))) :: rest) (events ++ [.received f.ticket]))) :
    (machine plan next).Comes t Q (s.going t (withFinished shared (f :: value) none) world
      (.call (.inside (.await (.start wait))) :: rest) events) := by
  have hacts : (machine plan next).Comes t Q (s.going t (withFinished shared (f :: value) (some t))
      world (.call (.inside (.await (.popping ⟨wait, .acting false⟩))) :: rest) events) := by
    refine comes_stay hlive ht (fun _ => turn_awaited rfl) ?_
    refine comes_stay hlive ht (fun _ => turn_received) ?_
    rw [List.append_nil]
    exact h
  refine comes_stay hlive ht (fun _ => turn_arriving rfl) ?_
  rw [List.append_nil]
  -- only an await that is ready to wait tests whether there is a result
  cases wait with
  | never => exact hacts
  | endless | limited =>
      refine comes_stay hlive ht (fun _ => turn_tested (List.cons_ne_nil _ _)) ?_
      rw [List.append_nil]
      exact hacts

/-- A callback that fails makes the call that has called it go on with the fault. -/
theorem comes_struck {call after : Call κ V E} (hlive : s.aborted = false)
    (ht : t < s.threads.length) (hcall : call.delivering? = some (r, after))
    (hr : Strikes next t fault r [] world)
    (h : ∀ world' later, unnoted later = [deliveryEvent r] →
      (machine plan next).Comes t Q (s.going t shared world'
        (.call (resume after (.error fault)) :: rest) (events ++ later))) :
    (machine plan next).Comes t Q (s.going t shared world (.call call :: rest) events) := by
  obtain ⟨code, hcode, hquiet⟩ := hr
  have hdelivers : ∀ choice, turn (ν := ν) plan t choice shared call =
      some (shared, [deliveryEvent r], .run code after) := by
    intro choice
    rw [turn_of_delivering hcall, hcode]
  refine .turn hlive ht hdelivers (by rintro ⟨⟩) (comes_quiet hlive ht hquiet ?_)
  rintro _ world' later rfl hlater
  rw [List.append_assoc]
  refine h world' ([deliveryEvent r] ++ later) ?_
  rw [unnoted_append, unnoted_deliveryEvent, hlater, List.append_nil]

/-- A drain delivers the results whose callbacks return, and comes to the one whose callback
fails. -/
theorem comes_passed {passed : List (Finished κ V E)} {left : Nat} (hlive : s.aborted = false)
    (ht : t < s.threads.length) (hstrikes : Strikes next t fault r passed world)
    (hleft : passed.length < left)
    (h : ∀ world' later, unnoted later = Watch.told (passed ++ [r]) →
      (machine plan next).Comes t Q (s.going t (withFinished shared value none) world'
        (.call (.inside (.draining (.failing fault))) :: rest) (events ++ later))) :
    (machine plan next).Comes t Q
      (s.going t (withFinished shared (passed ++ r :: value) none) world
        (.call (.inside (.draining (.going left))) :: rest) events) := by
  obtain ⟨left, rfl⟩ := Nat.exists_eq_add_one_of_ne_zero (Nat.ne_zero_of_lt hleft)
  induction passed generalizing world events left with
  | nil =>
      refine comes_drawn hlive ht (comes_struck hlive ht rfl hstrikes fun world' later hlater => ?_)
      rw [List.append_assoc]
      refine h world' ([.received r.ticket] ++ later) ?_
      rw [unnoted_append, hlater]
      rfl
  | cons f passed ih =>
      refine comes_drawn hlive ht ?_
      obtain ⟨left, rfl⟩ :=
        Nat.exists_eq_add_one_of_ne_zero (Nat.ne_zero_of_lt (Nat.succ_lt_succ_iff.mp hleft))
      have hrest : ∀ world₁ later₁, Strikes next t fault r passed world₁ →
          unnoted later₁ = [deliveryEvent f] →
          (machine plan next).Comes t Q
            (s.going t (withFinished shared (passed ++ r :: value) none) world₁
              (.call (.inside (.draining (.going (left + 1)))) :: rest)
              (events ++ [.received f.ticket] ++ later₁)) := by
        intro world₁ later₁ hstrikes₁ hlater₁
        refine ih hstrikes₁ (fun world' later hlater => ?_) left (Nat.succ_lt_succ_iff.mp hleft)
        rw [List.append_assoc, List.append_assoc]
        refine h world' ([.received f.ticket] ++ (later₁ ++ later)) ?_
        rw [unnoted_append, unnoted_append, hlater₁, hlater]
        rfl
      have hdelivers : ∀ choice, turn (ν := ν) plan t choice
          (withFinished shared (passed ++ r :: value) none)
          (.inside (.draining (.delivering (left + 1) f))) =
          some (withFinished shared (passed ++ r :: value) none, [deliveryEvent f],
            match f.callback? with
            | none => .stay (.inside (.draining (.going (left + 1))))
            | some code => .run code (.inside (.draining (.going (left + 1))))) :=
        fun _ => turn_of_delivering rfl
      rw [Strikes] at hstrikes
      cases hcode : f.callback? with
      | none =>
          rw [hcode] at hstrikes hdelivers
          exact comes_stay hlive ht hdelivers
            (hrest world [deliveryEvent f] hstrikes (unnoted_deliveryEvent f))
      | some code =>
          rw [hcode] at hstrikes hdelivers
          refine .turn hlive ht hdelivers (by rintro ⟨⟩) (comes_quiet hlive ht hstrikes ?_)
          rintro _ world' later ⟨⟨result, rfl⟩, hstrikes'⟩ hlater
          rw [List.append_assoc]
          refine hrest world' ([deliveryEvent f] ++ later) hstrikes' ?_
          rw [unnoted_append, unnoted_deliveryEvent, hlater, List.append_nil]

/-- A call that has failed gives the pipeline back and passes the fault on. -/
theorem comes_unwound (hlive : s.aborted = false) (ht : t < s.threads.length)
    (h : (machine plan next).Comes t Q (s.going t (withFinished shared value none) world
      (Machine.finishCall (.error fault) rest) events)) :
    (machine plan next).Comes t Q (s.going t (withFinished (lent shared) value none) world
      (.call (.closing (.error fault)) :: rest) events) := by
  have hclosed : ∀ choice, turn (ν := ν) plan t choice (withFinished (lent shared) value none)
      (.closing (.error fault)) = some (withFinished shared value none, [], .fail fault) :=
    fun _ => rfl
  refine .turn hlive ht hclosed (by rintro ⟨⟩) ?_
  rw [List.append_nil]
  exact h

/-- What a call comes to in which a callback fails. -/
theorem comes_failed {passed : List (Finished κ V E)} {request : Request κ V E}
    (hlive : s.aborted = false) (ht : t < s.threads.length) (howned : shared.owned = true)
    (hbound : passed.length < request.bound plan) (hstrikes : Strikes next t fault r passed world)
    (h : ∀ world' later, unnoted later = Watch.told (passed ++ [r]) →
      (machine plan next).Comes t Q (s.going t (withFinished shared value none) world'
        (Machine.finishCall (.error fault) rest) (events ++ later))) :
    (machine plan next).Comes t Q
      (s.going t (withFinished shared (passed ++ r :: value) none) world
        (.call request.call :: rest) events) := by
  cases request with
  | draining max =>
      have hbegun : ∀ choice, turn (ν := ν) plan t choice
          (withFinished (lent shared) (passed ++ r :: value) none) (.inside (.drain max)) =
          some (withFinished (lent shared) (passed ++ r :: value) none, [],
            .stay (.inside (.draining (.going (max.getD plan.settings.batch))))) := fun _ => rfl
      have hfailed : ∀ choice, turn (ν := ν) plan t choice (withFinished (lent shared) value none)
          (.inside (.draining (.failing fault))) =
          some (withFinished (lent shared) value none, [], .stay (.closing (.error fault))) :=
        fun _ => rfl
      refine comes_opened hlive ht howned (comes_stay hlive ht hbegun ?_)
      refine comes_passed hlive ht hstrikes hbound fun world' later hlater => ?_
      refine comes_stay hlive ht hfailed (comes_unwound hlive ht ?_)
      rw [List.append_nil, List.append_nil]
      exact h world' later hlater
  | awaiting wait =>
      obtain rfl : passed = [] := List.length_eq_zero_iff.mp (Nat.lt_one_iff.mp hbound)
      have hfailed : ∀ choice, turn (ν := ν) plan t choice (withFinished (lent shared) value none)
          (.inside (.await (.ending (.error fault)))) =
          some (withFinished (lent shared) value none, [], .stay (.closing (.error fault))) :=
        fun _ => rfl
      refine comes_opened hlive ht howned (comes_awaited hlive ht
        (comes_struck hlive ht rfl hstrikes fun world' later hlater => ?_))
      refine comes_stay hlive ht hfailed (comes_unwound hlive ht ?_)
      rw [List.append_nil, List.append_assoc]
      refine h world' ([.received r.ticket] ++ later) ?_
      rw [unnoted_append, hlater]
      rfl
  | scheduling _ | handing _ | countingPending | countingFinished | askingBusy | askingAccepting
  | taking _ => exact absurd hbound (Nat.not_lt_zero _)

end Alone

/-! ### Every run -/

/-- **A callback that fails loses only its own result.** In every state of every run in which a
thread begins to drain or to await, where these results wait, where the callbacks of `passed` return
and that of `r` is the first to fail, within the bound of the request: the thread by itself comes,
whatever the scheduler chooses, to where the call unwinds with the fault. Then

* it has taken out and delivered `passed` and `r`, in this order, and nothing else;
* the results behind wait as they did, and nothing else that is shared has changed: what is pending,
  the intake, the mark of the worker, its health; no lock is poisoned;
* every run goes on from there just as from the state in which only the results behind had waited
  and the call had failed, and notes the same. -/
theorem fault_loses_one {world : ω} {codes : List κ}
    {s : State κ ω (Pipeline κ V E) (Call κ V E) Answer (Event V E ν)}
    {frames : Stack κ (Call κ V E) Answer} {request : Request κ V E} {r : Finished κ V E}
    {passed remaining : List (Finished κ V E)} {fault : Fault}
    (h : (machine plan next).Reach (start world codes) s) (hlive : s.aborted = false)
    (hstack : s.stack t = .call request.call :: frames) (howned : s.shared.owned = true)
    (hfree : s.shared.finished.owner = none)
    (hvalue : s.shared.finished.value = passed ++ r :: remaining)
    (hbound : passed.length < request.bound plan)
    (hstrikes : Strikes next t fault r passed s.world) :
    (machine plan next).Comes t (fun s' => ∃ world' later,
      s' = s.going t { s.shared with finished := { s.shared.finished with value := remaining } }
        world' (Machine.finishCall (.error fault) frames) later ∧
      unnoted later = Watch.told (passed ++ [r]) ∧ (∀ l, poisoned s'.shared l = false) ∧
      ∀ s₂ new, s₂.log = new ++ s'.log →
        ((machine plan next).Reach s' s₂ ↔ (machine plan next).Reach
          (s.going t { s.shared with finished := { s.shared.finished with value := remaining } }
            world' (Machine.finishCall (.error fault) frames) [])
          { s₂ with log := new ++ s.log })) s := by
  have ht : t < s.threads.length :=
    State.lt_of_stack_ne_nil (by rw [hstack]; exact List.cons_ne_nil _ _)
  have hwaits : s.shared = withFinished s.shared (passed ++ r :: remaining) none := by
    rw [withFinished, ← hvalue, ← hfree]
  have hleft : withFinished s.shared remaining none =
      { s.shared with finished := { s.shared.finished with value := remaining } } := by
    rw [withFinished, ← hfree]
  refine .of_going ht ?_
  have hstands : s.going t s.shared s.world (s.stack t) [] =
      s.going t (withFinished s.shared (passed ++ r :: remaining) none) s.world
        (.call request.call :: frames) [] := by
    rw [← hwaits, hstack]
  rw [hstands]
  refine comes_failed hlive ht howned hbound hstrikes fun world' later hlater => .here ?_
  rw [hleft, List.nil_append]
  refine ⟨world', later, rfl, hlater, fun l => ?_, fun s₂ new hnew => ?_⟩
  · rw [State.going_shared, ← unpoisoned_of_reach h l]
    cases l <;> rfl
  · -- the two states differ in nothing but the log
    constructor
    · intro hreach
      obtain ⟨new', hnew', hrelogged⟩ := hreach.relogged
      obtain rfl := List.append_cancel_right (hnew.symm.trans hnew')
      exact hrelogged s.log
    · intro hreach
      obtain ⟨new', hnew', hrelogged⟩ := hreach.relogged
      obtain rfl : new = new' := List.append_cancel_right hnew'
      have hback := hrelogged (s.going t { s.shared with finished :=
        { s.shared.finished with value := remaining } } world'
          (Machine.finishCall (.error fault) frames) later).log
      rw [← hnew] at hback
      exact hback

/-! ### A run in which the second of three callbacks fails -/

/-- What the code of the run asks for. -/
inductive Deed where
  /-- Schedules a task that does nothing and has a callback, which may fail. -/
  | schedule (fails : Bool)
  | drain (max : Nat)

/-- The code of the run. -/
abbrev Doer := Script Deed Answer Unit Unit (Except Unit Unit)

/-- What the callback fails with. -/
def upset : Fault :=
  .text "upset"

/-- The request that a deed stands for. -/
def Deed.request : Deed → Request Doer Unit Unit
  | .schedule fails =>
    .handing { body := some (.ret (.ok ())),
               onValue := some fun _ => if fails then .fail upset else .ret (.ok ()) }
  | .drain max => .draining (some max)

/-- Schedules three tasks, of which the second has a callback that fails, and drains them. -/
def threeAndDrain : Doer := do
  Script.all (([.schedule false, .schedule true, .schedule false, .drain 3] : List Deed).map
    fun deed => do
      let _ ← Script.ask deed)
  pure (.ok ())

/-- The machine of the run. -/
abbrev doing : Machine Doer Unit (Pipeline Doer Unit Unit) (Call Doer Unit Unit) Answer
    (Except Unit Unit) (Event Unit Unit Unit) :=
  machine {} (Script.next Deed.request)

/-- The state in which the three results wait, and the drain begins. -/
def threeWaiting : State Doer Unit (Pipeline Doer Unit Unit) (Call Doer Unit Unit) Answer
    (Event Unit Unit Unit) :=
  doing.settle [(1, .go 0)] 1
    (doing.settle [(0, .go 0)] 90 (doing.settle [(1, .go 0)] 30 (start () [threeAndDrain])))

/-- The result of a task of the run. -/
def resultOf (ticket : Ticket) (fails : Bool) : Finished Doer Unit Unit where
  ticket := ticket
  outcome := .ok ()
  onValue := some fun _ => if fails then .fail upset else .ret (.ok ())
  onError := none

/-- The drain delivers the first result, loses the second and leaves the third. -/
theorem fault_loses_one_threeWaiting :
    threeWaiting.shared.finished.value = [resultOf 0 false, resultOf 1 true, resultOf 2 false] ∧
      ∃ frames, threeWaiting.stack 1 = .call (.opening (.drain (some 3))) :: frames ∧
        doing.Comes 1 (fun s => s.stack 1 = Machine.finishCall (.error upset) frames ∧
          s.shared.finished.value = [resultOf 2 false] ∧ ∃ later,
            s.history = threeWaiting.history ++ later.map (Prod.mk 1) ∧
            unnoted later = [.received 0, .completed 0 (), .received 1, .completed 1 ()])
          threeWaiting := by
  have hreach : doing.Reach (start () [threeAndDrain]) threeWaiting :=
    Machine.reach_settle _ _ (Machine.reach_settle _ _ (Machine.reach_settle _ _ .start))
  have hbegins : threeWaiting.stack 1 =
      .call (Request.draining (some 3)).call :: (threeWaiting.stack 1).tail := rfl
  have hvalue : threeWaiting.shared.finished.value =
      [resultOf 0 false] ++ resultOf 1 true :: [resultOf 2 false] := rfl
  have hstrikes : Strikes (Script.next Deed.request) 1 upset (resultOf 1 true) [resultOf 0 false]
      threeWaiting.world := by
    refine .ended (show _ = some (.ok (.ok ())) from rfl) ⟨⟨_, rfl⟩, _, rfl, .ended rfl rfl⟩
  have hthread : 1 < threeWaiting.threads.length := by decide +kernel
  refine ⟨hvalue, (threeWaiting.stack 1).tail, hbegins, ?_⟩
  refine (fault_loses_one hreach rfl hbegins rfl rfl hvalue (by decide) hstrikes).mono ?_
  rintro s ⟨world', later, rfl, hlater, -, -⟩
  exact ⟨State.going_stack hthread, rfl, later, State.going_history, hlater⟩

end Offload.Pipeline
