import Offload.Proofs.Pipeline.Beside

/-!
# Ways to deliver one result

An await delivers one result, and so does a drain of up to one. Each takes the front result out of
the finished channel in a visit of its own, delivers it, and passes on the fault of its callback.
Where the result is there when a call looks for it, all ways do the same: a run of one of them goes
on side by side with a run of another.

* The other call has not begun to look while the first is on its way to the channel, and takes the
  result out just when the first does.
* Both deliver the result in the same step, and run the same callback.
* The other call does not go on after the delivery until the first has come to its end.

## Main definitions

* `Way`: a way to deliver one result.
* `Call.Seeks`: whether a call looks for a result in its next step.

## Main results

* `way_replaced`: another way comes to where the first has come.
-/

namespace Offload.Pipeline

/-- A way to deliver one result: an await, or a drain of up to one. -/
inductive Way where
  | await (wait : Channel.Wait)
  | drain
  deriving DecidableEq

variable {κ ω V E ν : Type} {plan : Plan κ}
  {next : κ → Move κ ω (Request κ V E) Answer (Except E V) ν} {world : ω} {codes : List κ}
  {s s' x x' y : State κ ω (Pipeline κ V E) (Call κ V E) Answer (Event V E ν)} {t u : Tid}
  {choice : Choice} {base base' frames : Stack κ (Call κ V E) Answer} {w w' : Way}
  {k : Except Fault Answer → κ}
  {g : Channel (Finished κ V E) → Channel (Finished κ V E)} {c : Nat → Nat}

namespace Way

/-! ### The stages of a way -/

/-- The request that begins it. -/
def request : Way → Request κ V E
  | .await wait => .awaiting wait
  | .drain => .draining (some 1)

/-- What is done through the owner. -/
def use : Way → Use κ V E
  | .await wait => .await (.start wait)
  | .drain => .drain (some 1)

/-- It has taken the result out, and is about to leave the channel. -/
def found (f : Finished κ V E) : Way → Call κ V E
  | .await wait => .inside (.await (.popping ⟨wait, .leaving (.ok (some (some f)))⟩))
  | .drain => .inside (.draining (.popping 0 ⟨.never, .leaving (.ok (some (some f)))⟩))

/-- It is about to deliver the result. -/
def delivering (f : Finished κ V E) : Way → Call κ V E
  | .await _ => .inside (.await (.delivering f))
  | .drain => .inside (.draining (.delivering 0 f))

/-- It has delivered the result. -/
def delivered : Way → Call κ V E
  | .await _ => .inside (.await (.ending (.ok ())))
  | .drain => .inside (.draining (.going 0))

/-- The callback has failed. -/
def failed (fault : Fault) : Way → Call κ V E
  | .await _ => .inside (.await (.ending (.error fault)))
  | .drain => .inside (.draining (.failing fault))

/-- What it answers that has delivered a result, where these results are left: an await that there
was one, a drain whether any are left. -/
def answer (left : List (Finished κ V E)) : Way → Answer
  | .await _ => .awaited true
  | .drain => .drained (left.length != 0)

/-- How it stands while another way is about to end: at the end of the delivery, or about to pass on
the same fault. -/
def standing (outcome : Except Fault Answer) (w : Way) : Call κ V E :=
  match outcome with
  | .ok _ => w.delivered
  | .error fault => .closing (.error fault)

theorem request_call (w : Way) : (w.request : Request κ V E).call = .opening w.use := by
  cases w <;> rfl

theorem turn_found {shared : Pipeline κ V E} {f : Finished κ V E} (w : Way) :
    turn (ν := ν) plan t choice shared (w.found f) =
      some (looked shared shared.finished.release, [], .stay (w.delivering f)) := by
  cases w with
  | await wait => exact turn_received
  | drain => exact turn_parted

theorem delivering?_delivering (f : Finished κ V E) (w : Way) :
    (w.delivering f).delivering? = some (f, w.delivered) := by
  cases w <;> rfl

theorem resume_delivered (w : Way) (result : Except Fault (Except E V)) :
    resume (w.delivered : Call κ V E) result =
      match result with
      | .ok _ => w.delivered
      | .error fault => w.failed fault := by
  cases w <;> cases result <;> rfl

theorem turn_failed {shared : Pipeline κ V E} (w : Way) (fault : Fault) :
    turn (ν := ν) plan t choice shared (w.failed fault) =
      some (shared, [], .stay (.closing (.error fault))) := by
  cases w <;> rfl

end Way

/-- An await looks for a result in one go, if there is one. -/
theorem goesOn_await {shared : Pipeline κ V E} {f : Finished κ V E} {later : List (Finished κ V E)}
    (wait : Channel.Wait) (howner : shared.finished.owner = some t)
    (hvalue : shared.finished.value = f :: later) :
    (machine plan next).GoesOn t (refit Monitor.release id shared)
      (.inside (.await (.start wait))) [.received f.ticket]
      (looked shared (drawn shared.finished))
      (.inside (.await (.popping ⟨wait, .leaving (.ok (some (some f)))⟩))) := by
  have hturn : turn (ν := ν) plan t (.go 0) (refit Monitor.release id shared)
      (.inside (.await (.start wait))) = some (shared, [],
        .stay (.inside (.await (.popping ⟨wait, arrived wait⟩)))) := by
    rw [turn_arriving rfl]
    exact congrArg (fun shared => some (shared, [], _)) (looked_held howner)
  have harrived : (machine plan next).GoesOn t (refit Monitor.release id shared)
      (.inside (.await (.start wait))) [] shared
      (.inside (.await (.popping ⟨wait, arrived wait⟩))) := goesOn_stay .start hturn
  cases wait with
  | never => exact goesOn_stay harrived (turn_awaited hvalue)
  | endless | limited =>
      have hsome : shared.finished.value ≠ [] := by rw [hvalue]; exact List.cons_ne_nil _ _
      exact goesOn_stay (goesOn_stay harrived (turn_tested hsome)) (turn_awaited hvalue)

/-- A drain that has left its loop counts the results that are left in one go, if the lock is
free. -/
theorem goesOn_checking {shared : Pipeline κ V E} (hfree : shared.finished.owner = none) :
    (machine plan next).GoesOn t shared (.inside (.draining (.checking .arriving))) [] shared
      (.closing (.ok (.drained (shared.finished.value.length != 0)))) := by
  have hanswered := goesOn_stay (goesOn_stay (goesOn_stay
    (.start : (machine plan next).GoesOn t _ _ _ _ _) (turn_checking hfree)) turn_checked)
    turn_answering
  have hsame : looked (looked shared (held t shared.finished))
      (looked shared (held t shared.finished)).finished.release = shared :=
    congrArg (looked shared) (release_held hfree)
  rw [hsame] at hanswered
  exact hanswered

namespace Way

/-- Every way looks for a result in one go, if there is one. -/
theorem goesOn_found {shared : Pipeline κ V E} {f : Finished κ V E} {later : List (Finished κ V E)}
    (w : Way) (howner : shared.finished.owner = some t)
    (hvalue : shared.finished.value = f :: later) :
    (machine plan next).GoesOn t (refit Monitor.release id shared) (.inside w.use)
      [.received f.ticket] (looked shared (drawn shared.finished)) (w.found f) := by
  cases w with
  | await wait => exact goesOn_await wait howner hvalue
  | drain =>
      have hbegun : (machine plan next).GoesOn t (refit Monitor.release id shared)
          (.inside (.drain (some 1))) [] (refit Monitor.release id shared)
          (.inside (.draining (.going 1))) := goesOn_stay .start rfl
      have hlook : (machine plan next).GoesOn t _ (.inside (.draining (.going (0 + 1)))) _ _ _ :=
        goesOn_look howner
      rw [hvalue] at hlook
      exact hbegun.trans hlook

/-- Every way comes from the delivery to its answer in one go, if the lock is free. -/
theorem goesOn_answer {shared : Pipeline κ V E} (w : Way)
    (hfree : w = .drain → shared.finished.owner = none) :
    (machine plan next).GoesOn t shared w.delivered [] shared
      (.closing (.ok (w.answer shared.finished.value))) := by
  cases w with
  | await wait => exact goesOn_stay .start rfl
  | drain =>
      have hbegun : (machine plan next).GoesOn t shared (.inside (.draining (.going 0))) [] shared
          (.inside (.draining (.checking .arriving))) := goesOn_stay .start rfl
      exact hbegun.trans (goesOn_checking (hfree rfl))

end Way

/-! ### Side by side -/

/-- Whether a call looks for a result in its next step. -/
def Call.Seeks : Call κ V E → Prop
  | .inside (.await (.popping ⟨_, .testing _⟩)) | .inside (.await (.popping ⟨_, .acting _⟩))
  | .inside (.draining (.popping _ ⟨_, .acting _⟩)) => True
  | _ => False

/-- Whether thread `t` is within a call above the layers `base`, and the call finds a result when it
looks for one. -/
def Finds (t : Tid) (base : Stack κ (Call κ V E) Answer)
    (x : State κ ω (Pipeline κ V E) (Call κ V E) Answer (Event V E ν)) : Prop :=
  Machine.Pursues t base (fun call => call.Seeks → x.shared.finished.value ≠ []) x

/-- How one way stands while another goes on. -/
inductive Replaces (w' : Way) (base : Stack κ (Call κ V E) Answer) : Way → Pairing κ V E where
  | opening (w : Way) : Replaces w' base w (.call (.opening w.use) :: base) id id
      (.call (.opening w'.use) :: base)
  | inside (w : Way) : Replaces w' base w (.call (.inside w.use) :: base) id id
      (.call (.inside w'.use) :: base)
  | going : Replaces w' base .drain (.call (.inside (.draining (.going 1))) :: base) id id
      (.call (.inside w'.use) :: base)
  | arriving : Replaces w' base .drain
      (.call (.inside (.draining (.popping 0 (.start .never)))) :: base) id id
      (.call (.inside w'.use) :: base)
  | acting (again : Bool) : Replaces w' base .drain
      (.call (.inside (.draining (.popping 0 ⟨.never, .acting again⟩))) :: base)
      Monitor.release id (.call (.inside w'.use) :: base)
  | testing (wait : Channel.Wait) (again : Bool) : Replaces w' base (.await wait)
      (.call (.inside (.await (.popping ⟨wait, .testing again⟩))) :: base)
      Monitor.release id (.call (.inside w'.use) :: base)
  | awaiting (wait : Channel.Wait) (again : Bool) : Replaces w' base (.await wait)
      (.call (.inside (.await (.popping ⟨wait, .acting again⟩))) :: base)
      Monitor.release id (.call (.inside w'.use) :: base)
  | found (w : Way) (f : Finished κ V E) : Replaces w' base w (.call (w.found f) :: base) id id
      (.call (w'.found f) :: base)
  | delivering (w : Way) (f : Finished κ V E) : Replaces w' base w
      (.call (w.delivering f) :: base) id id (.call (w'.delivering f) :: base)
  | above (w : Way) (above : Stack κ (Call κ V E) Answer) : above ≠ [] → Nested false above →
      Replaces w' base w (above ++ .call w.delivered :: base) id id
        (above ++ .call w'.delivered :: base)
  | delivered (w : Way) : Replaces w' base w (.call w.delivered :: base) id id
      (.call w'.delivered :: base)
  | checking : Replaces w' base .drain (.call (.inside (.draining (.checking .arriving))) :: base)
      id id (.call w'.delivered :: base)
  | counting (again : Bool) : Replaces w' base .drain
      (.call (.inside (.draining (.checking (.acting again)))) :: base)
      Monitor.release id (.call w'.delivered :: base)
  | answering (n : Nat) : Replaces w' base .drain
      (.call (.inside (.draining (.checking (.leaving (.ok (some n)))))) :: base)
      Monitor.release id (.call w'.delivered :: base)
  | answered (w : Way) (answer : Answer) : Replaces w' base w
      (.call (.closing (.ok answer)) :: base) id id (.call w'.delivered :: base)
  | failed (w : Way) (fault : Fault) : Replaces w' base w (.call (w.failed fault) :: base) id id
      (.call (w'.failed fault) :: base)
  | unwound (w : Way) (fault : Fault) : Replaces w' base w
      (.call (.closing (.error fault)) :: base) id id (.call (.closing (.error fault)) :: base)

theorem Replaces.unseen (h : Replaces w' base w (x.stack t) g c frames) :
    Unnoticed t x g ∧ Uncounted t x x' c := by
  generalize hlayers : x.stack t = layers at h
  cases h with
  | acting _ | testing _ _ | awaiting _ _ | counting _ | answering _ =>
      exact ⟨.released (by rw [hlayers]; rfl), .same⟩
  | _ => exact ⟨.same, .same⟩

/-- A call that looks for a result finds one. -/
theorem Finds.exists_cons {call : Call κ V E} (h : Finds t base x)
    (hstack : x.stack t = .call call :: base) (hseeks : call.Seeks) :
    ∃ f later, x.shared.finished.value = f :: later := by
  exact List.exists_cons_of_ne_nil (Machine.Pursues.of_call h hstack hseeks)

/-- **Side by side, a step of the thread.** -/
theorem Replaces.of_own (hreplaces : Replaces w' base w (x.stack t) g c frames)
    (h : (machine plan next).Reach (start world codes) x)
    (hstep : (machine plan next).step t choice x = some x') (hlive' : x'.aborted = false)
    (howned : x.shared.owned = true) (hfinds : Finds t base x)
    (hstays : ∀ outcome, x.stack t ≠ .call (.closing outcome) :: base) :
    ∃ y, (machine plan next).Reach (beside t g c frames x) y ∧
      Goes (Replaces w' base w) t x' y := by
  have hlive := (Machine.stepped_of_step hstep).1
  have howner : (callsOf (x.stack t)).active.any (Call.owns · .finished) = true →
      x.shared.finished.owner = some t := owner_of_owns h hlive
  generalize hstack : x.stack t = layers at hreplaces
  cases hreplaces with
  | opening =>
      exact goes_of_stay hstack hstep (turn_opening howned) (.inside w)
        (goesOn_stay .start (turn_opening howned))
  | inside =>
      cases w with
      | drain => exact goes_of_stay hstack hstep rfl .going .start
      | await wait =>
          obtain ⟨shared, events, r, hturn, -⟩ := Machine.eq_of_turn hstack hstep
          have hfree := free_of_arriving hturn
          have hsame := congrArg (looked x.shared) (release_held (t := t) hfree)
          cases wait with
          | never =>
              exact goes_of_stay hstack hstep (turn_arriving hfree) (.awaiting _ false)
                (goesOn_same hsame.symm)
          | endless | limited =>
              exact goes_of_stay hstack hstep (turn_arriving hfree) (.testing _ false)
                (goesOn_same hsame.symm)
  | going => exact goes_of_stay hstack hstep rfl .arriving .start
  | arriving =>
      obtain ⟨shared, events, r, hturn, -⟩ := Machine.eq_of_turn hstack hstep
      have hfree := free_of_drawing hturn
      exact goes_of_stay hstack hstep (turn_drawing hfree) (.acting false)
        (goesOn_same (congrArg (looked x.shared) (release_held hfree).symm))
  | acting again =>
      obtain ⟨f, later, hvalue⟩ := hfinds.exists_cons hstack trivial
      have hturn : turn (ν := ν) plan t choice x.shared
          (.inside (.draining (.popping 0 ⟨.never, .acting again⟩))) =
          some (looked x.shared (drawn x.shared.finished), [.received f.ticket],
            .stay (Way.drain.found f)) := by
        rw [turn_drawn, hvalue]
        rfl
      exact goes_of_stay hstack hstep hturn (.found .drain f)
        (w'.goesOn_found (howner (by rw [hstack]; rfl)) hvalue)
  | testing wait again =>
      obtain ⟨f, later, hvalue⟩ := hfinds.exists_cons hstack trivial
      have hsome : x.shared.finished.value ≠ [] := by rw [hvalue]; exact List.cons_ne_nil _ _
      exact goes_of_stay hstack hstep (turn_tested hsome) (.awaiting wait again) .start
  | awaiting wait again =>
      obtain ⟨f, later, hvalue⟩ := hfinds.exists_cons hstack trivial
      exact goes_of_stay hstack hstep (turn_awaited hvalue) (.found (.await wait) f)
        (w'.goesOn_found (howner (by rw [hstack]; rfl)) hvalue)
  | found _ f =>
      exact goes_of_stay hstack hstep w.turn_found (.delivering w f)
        (goesOn_stay .start w'.turn_found)
  | delivering _ f =>
      exact goes_of_delivering hstack hstep (w.delivering?_delivering f)
        (w'.delivering?_delivering f) (.delivered w)
        fun code => .above w [.code code] (List.cons_ne_nil _ _) (.code code)
  | above _ above hne hnest =>
      rcases goes_of_above (R := Replaces w' base w) hne hnest hstack hstep hlive'
          fun above' hne' hnest' => .above w above' hne' hnest' with
        hgoes | ⟨result, hstack', hreach⟩
      · exact hgoes
      · rw [w'.resume_delivered] at hreach
        rw [w.resume_delivered] at hstack'
        refine ⟨_, hreach, id, id, _, ?_, rfl⟩
        rw [hstack']
        cases result with
        | ok value => exact .delivered w
        | error fault => exact .failed w fault
  | delivered =>
      cases w with
      | await wait => exact goes_of_stay hstack hstep rfl (.answered _ _) .start
      | drain => exact goes_of_stay hstack hstep rfl .checking .start
  | checking =>
      obtain ⟨shared, events, r, hturn, -⟩ := Machine.eq_of_turn hstack hstep
      have hfree := free_of_checking hturn
      exact goes_of_stay hstack hstep (turn_checking hfree) (.counting false)
        (goesOn_same (congrArg (looked x.shared) (release_held hfree).symm))
  | counting again => exact goes_of_stay hstack hstep turn_checked (.answering _) .start
  | answering n => exact goes_of_stay hstack hstep turn_answering (.answered _ _) .start
  | failed _ fault =>
      exact goes_of_stay hstack hstep (w.turn_failed fault) (.unwound w fault)
        (goesOn_stay .start (w'.turn_failed fault))
  | answered _ answer => exact absurd hstack (hstays _)
  | unwound _ fault => exact absurd hstack (hstays _)

/-! ### Runs -/

/-- A call that answers is over. -/
theorem length_le_of_closing {outcome : Except Fault Answer}
    (hstack : x.stack t = .call (.closing outcome) :: base)
    (hstep : (machine plan next).step t choice x = some x') :
    (x'.stack t).length ≤ base.length := by
  obtain ⟨shared, events, r, hturn, -, -, hstack'⟩ := Machine.turn_of_step hstack hstep
  cases outcome <;>
  · cases hturn
    rw [hstack']
    exact Machine.length_finishCall_le _ _

/-- When a call is about to answer, the other stands at the end of its delivery; when it is about to
pass on a fault, so is the other. -/
theorem Replaces.eq_of_closing {outcome : Except Fault Answer}
    (h : Replaces w' base w (.call (.closing outcome) :: base) g c frames) :
    g = id ∧ c = id ∧ frames = .call (w'.standing outcome) :: base := by
  generalize hlayers : (.call (.closing outcome) :: base : Stack κ (Call κ V E) Answer) = layers
    at h
  cases h with
  | answered _ answer | unwound _ fault =>
      cases hlayers
      exact ⟨rfl, rfl, rfl⟩
  | above _ above hne _ =>
      have hlength := congrArg List.length hlayers
      have hpos := List.length_pos_of_ne_nil hne
      simp only [List.length_append, List.length_cons] at hlength
      omega
  | found _ f | delivering _ f | delivered | failed _ fault => cases w <;> cases hlayers
  | _ => cases hlayers

/-- **Another way comes to where the first has come.** Where a call that delivers one result finds
it when it looks for it, and comes to its answer, a call that delivers one result in another way
comes to the same state in its place, but for its answer. -/
theorem way_replaced (w w' : Way) {outcome : Except Fault Answer}
    (h : (machine plan next).Reach (start world codes) s)
    (hbegins : s.stack t = .call w.request.call :: base)
    (hwhile : (machine plan next).ReachWhile (Finds t base) s s') (hlive : s'.aborted = false)
    (hanswers : s'.stack t = .call (.closing outcome) :: base)
    (hfree : w' = .drain → s'.shared.finished.owner = none) :
    (machine plan next).Reach (s.withStack t (.call w'.request.call :: base))
      (s'.withStack t
        (.call (.closing (outcome.map fun _ => w'.answer s'.shared.finished.value)) :: base)) := by
  have howned : s'.shared.owned = true := by
    refine owned_of_borrows (t := t) (.closing outcome) (h.trans hwhile.reach) hlive ?_ rfl
    rw [hanswers]
    exact List.mem_cons_self
  have hs : Goes (Replaces w' base w) t s (s.withStack t (.call w'.request.call :: base)) := by
    refine ⟨id, id, _, ?_, rfl⟩
    rw [hbegins, w.request_call, w'.request_call]
    exact .opening w
  obtain ⟨y, hy, hgoes⟩ := hwhile.simulated
    (R := fun x y => Goes (Replaces w' base w) t x y ∨ (x.stack t).length ≤ base.length)
    (.inl hs) fun x y u choice x' hx hfinds hxy hstep hx' => by
      have hgoes := hxy.resolve_right (Nat.not_le.mpr hfinds.length_lt)
      by_cases hu : u = t
      · subst hu
        by_cases hcloses : ∃ outcome, x.stack u = .call (.closing outcome) :: base
        · obtain ⟨outcome, hstack⟩ := hcloses
          exact ⟨y, .start, .inr (length_le_of_closing hstack hstep)⟩
        · obtain ⟨g, c, frames, hreplaces, rfl⟩ := hgoes
          have howned' := owned_of_reach (h.trans hx)
            ((Machine.Reach.start.step u choice hstep).trans hx') howned
          obtain ⟨y', hy', hgoes'⟩ := hreplaces.of_own (h.trans hx) hstep (hx'.live hlive) howned'
            hfinds fun outcome hstack => hcloses ⟨outcome, hstack⟩
          exact ⟨y', hy', .inl hgoes'⟩
      · obtain ⟨y', hy', hgoes'⟩ := hgoes.of_other (h.trans hx) hu hstep Replaces.unseen
        exact ⟨y', hy', .inl hgoes'⟩
  obtain ⟨g, c, frames, hreplaces, rfl⟩ := hgoes.resolve_right (by rw [hanswers]; simp)
  rw [hanswers] at hreplaces
  have ht : t < s'.threads.length :=
    State.lt_of_stack_ne_nil (by rw [hanswers]; exact List.cons_ne_nil _ _)
  obtain ⟨rfl, rfl, hframes⟩ := hreplaces.eq_of_closing
  rw [hframes] at hy
  cases outcome with
  | ok answer => exact hy.trans ((w'.goesOn_answer hfree).reach hlive ht)
  | error fault => exact hy

end Offload.Pipeline
