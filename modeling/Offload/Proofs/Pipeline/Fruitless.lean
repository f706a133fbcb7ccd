import Offload.Proofs.Pipeline.Sleeping
import Offload.Proofs.Pipeline.Unpoisoned
import Offload.Proofs.Pipeline.Ways

/-!
# Calls that find nothing

A drain that finds no result, and an await whose time runs out before there is one, answer so and
have done nothing: whatever the other threads do meanwhile, they do just as if the call had answered
at once. While the call owns the lock of the finished channel, nobody else comes to it; and while it
sleeps there, nobody notices as long as nobody notifies.

## Main definitions

* `Fruitless`: the requests that do not wait for ever, and what they answer that find nothing.

## Main results

* `fruitless_unnoticed`: a run in which the call ends goes as if it had answered at once.
* `fruitless_ends`: the call can come to its end by itself.
-/

namespace Offload.Pipeline

variable {κ ω V E ν : Type} {plan : Plan κ}
  {next : κ → Move κ ω (Request κ V E) Answer (Except E V) ν} {world : ω} {codes : List κ}
  {s s' x x' y : State κ ω (Pipeline κ V E) (Call κ V E) Answer (Event V E ν)} {t u : Tid}
  {choice : Choice} {call : Call κ V E} {rest base frames : Stack κ (Call κ V E) Answer}
  {k : Except Fault Answer → κ} {answer : Answer} {request : Request κ V E}
  {g g' : Channel (Finished κ V E) → Channel (Finished κ V E)} {c c' : Nat → Nat}

/-- Whether a request delivers results but does not wait for ever, and gives this answer if it finds
none. -/
inductive Fruitless : Request κ V E → Answer → Prop where
  | await : Fruitless (.awaiting .limited) (.awaited false)
  | drain (max : Option Nat) : Fruitless (.draining max) (.drained false)

/-- How a call that finds nothing stands, and what has to be changed so that it seems to have
answered. -/
inductive Vain (t : Tid) (k : Except Fault Answer → κ) (rest : Stack κ (Call κ V E) Answer) :
    Answer → Stack κ (Call κ V E) Answer →
      (Channel (Finished κ V E) → Channel (Finished κ V E)) → (Nat → Nat) → Prop where
  | opening {request : Request κ V E} {answer : Answer} : Fruitless request answer →
      Vain t k rest answer (.call request.call :: .wait k :: rest) id id
  | arriving : Vain t k rest (.awaited false)
      (.call (.inside (.await (.start .limited))) :: .wait k :: rest) id (· - 1)
  | testing (again : Bool) : Vain t k rest (.awaited false)
      (.call (.inside (.await (.popping ⟨.limited, .testing again⟩))) :: .wait k :: rest)
      Monitor.release (· - 1)
  | drowsy : Vain t k rest (.awaited false)
      (.call (.inside (.await (.popping ⟨.limited, .drowsy⟩))) :: .wait k :: rest)
      Monitor.release (· - 1)
  | asleep : Vain t k rest (.awaited false)
      (.call (.inside (.await (.popping ⟨.limited, .asleep⟩))) :: .wait k :: rest)
      (·.rouse t) (· - 1)
  | overslept : Vain t k rest (.awaited false)
      (.call (.inside (.await (.popping ⟨.limited, .overslept⟩))) :: .wait k :: rest) id (· - 1)
  | givenUp : Vain t k rest (.awaited false)
      (.call (.inside (.await (.popping ⟨.limited, .leaving (.ok none)⟩))) :: .wait k :: rest)
      Monitor.release (· - 1)
  | drain (max : Option Nat) : Vain t k rest (.drained false)
      (.call (.inside (.drain max)) :: .wait k :: rest) id (· - 1)
  | going (left : Nat) : Vain t k rest (.drained false)
      (.call (.inside (.draining (.going left))) :: .wait k :: rest) id (· - 1)
  | drawing (left : Nat) : Vain t k rest (.drained false)
      (.call (.inside (.draining (.popping left (.start .never)))) :: .wait k :: rest) id (· - 1)
  | acting (left : Nat) (again : Bool) : Vain t k rest (.drained false)
      (.call (.inside (.draining (.popping left ⟨.never, .acting again⟩))) :: .wait k :: rest)
      Monitor.release (· - 1)
  | missed (left : Nat) : Vain t k rest (.drained false)
      (.call (.inside (.draining (.popping left ⟨.never, .leaving (.ok (some none))⟩))) ::
        .wait k :: rest) Monitor.release (· - 1)
  | checking : Vain t k rest (.drained false)
      (.call (.inside (.draining (.checking .arriving))) :: .wait k :: rest) id (· - 1)
  | counting (again : Bool) : Vain t k rest (.drained false)
      (.call (.inside (.draining (.checking (.acting again)))) :: .wait k :: rest)
      Monitor.release (· - 1)
  | counted : Vain t k rest (.drained false)
      (.call (.inside (.draining (.checking (.leaving (.ok (some 0)))))) :: .wait k :: rest)
      Monitor.release (· - 1)
  | closing (answer : Answer) : Vain t k rest answer
      (.call (.closing (.ok answer)) :: .wait k :: rest) id (· - 1)
  | ended (answer : Answer) : Vain t k rest answer (.code (k (.ok answer)) :: rest) id id

/-- Whether thread `t` is within a call above the layers `base`, and nobody is about to notify a
sleeper of the finished channel that there is a result, if the call may sleep. -/
structure Undisturbed (t : Tid) (base : Stack κ (Call κ V E) Answer) (request : Request κ V E)
    (x : State κ ω (Pipeline κ V E) (Call κ V E) Answer (Event V E ν)) : Prop where
  pursues : Machine.Pursues t base (fun _ => True) x
  quiet : request = .awaiting .limited →
    ∀ u, (callsOf (x.stack u)).active ≠ some (.work (.publishing .notifying))

/-- What the thread does itself makes no difference to the state in which it seems to have
answered. -/
theorem beside_of_turn {shared : Pipeline κ V E} {r : Turn κ (Call κ V E) Answer}
    (hstack : x.stack t = .call call :: base)
    (hstep : (machine plan next).step t choice x = some x')
    (hturn : turn (ν := ν) plan t choice x.shared call = some (shared, [], r)) (hr : r ≠ .abort)
    (hsame : refit g' c' shared = refit g c x.shared) :
    x'.stack t = Machine.afterTurn base r ∧ beside t g' c' frames x' = beside t g c frames x := by
  obtain ⟨shared', events', r', hturn', heq⟩ := Machine.eq_of_turn hstack hstep
  cases hturn.symm.trans hturn'
  obtain rfl := heq hr
  have ht : t < x.threads.length :=
    State.lt_of_stack_ne_nil (by rw [hstack]; exact List.cons_ne_nil _ _)
  refine ⟨State.going_stack ht, ?_⟩
  rw [beside, beside, State.going_twin, State.going_shared, hsame]
  rfl

theorem Vain.unseen (h : Vain t k rest answer (x.stack t) g c)
    (hquiet : answer = .awaited false →
      ∀ u, (callsOf (x.stack u)).active ≠ some (.work (.publishing .notifying))) :
    Unnoticed t x g ∧ Uncounted t x x' c := by
  have hkept : ∀ {call : Call κ V E}, x.stack t = .call call :: .wait k :: rest →
      call.borrows = true → Uncounted t x x' (· - 1) := by
    intro call hstack hborrows
    refine .kept call ?_ hborrows
    rw [hstack]
    exact List.mem_cons_self
  generalize hlayers : x.stack t = layers at h
  cases h with
  | opening _ | ended _ => exact ⟨.same, .same⟩
  | arriving | overslept | drain _ | going _ | drawing _ | checking | closing _ =>
      exact ⟨.same, hkept hlayers rfl⟩
  | testing _ | drowsy | givenUp | acting _ _ | missed _ | counting _ | counted =>
      exact ⟨.released (by rw [hlayers]; rfl), hkept hlayers rfl⟩
  | asleep => exact ⟨.roused (hquiet rfl), hkept hlayers rfl⟩

section Sleepers

variable {m : Channel (Finished κ V E)}

theorem rouse_of_not_mem (hnot : t ∉ m.sleepers) : m.rouse t = m := by
  rw [Monitor.rouse, List.erase_of_not_mem hnot]

/-- A thread that is among the sleepers once only is not when it is roused. -/
theorem rouse_rouse (hcount : m.sleepers.count t ≤ 1) : (m.rouse t).rouse t = m.rouse t := by
  refine rouse_of_not_mem (List.count_eq_zero.mp ?_)
  rw [Monitor.rouse, List.count_erase_self]
  omega

/-- A thread that falls asleep and is roused has only left the lock. -/
theorem rouse_sleep (hnot : t ∉ m.sleepers) : (m.sleep t).rouse t = m.release := by
  rw [Monitor.rouse, Monitor.sleep, List.erase_append_right _ hnot, List.erase_cons_head,
    List.append_nil]
  rfl

end Sleepers

/-- **Finding nothing, a step of the thread.** -/
theorem Vain.of_own (hvain : Vain t k rest answer (x.stack t) g c)
    (h : (machine plan next).Reach (start world codes) x)
    (hstep : (machine plan next).step t choice x = some x') (howned : x.shared.owned = true)
    (hnone : x.shared.finished.value = [])
    (hcalls : ∀ position, x.stack t ≠ .code position :: rest) :
    ∃ g' c', Vain t k rest answer (x'.stack t) g' c' ∧
      beside t g' c' frames x' = beside t g c frames x := by
  have hlive := (Machine.stepped_of_step hstep).1
  have hgoes : ∀ {call call' : Call κ V E} {shared : Pipeline κ V E} {g' c'},
      x.stack t = .call call :: .wait k :: rest →
      turn (ν := ν) plan t choice x.shared call = some (shared, [], .stay call') →
      Vain t k rest answer (.call call' :: .wait k :: rest) g' c' →
      refit g' c' shared = refit g c x.shared → ∃ g' c', Vain t k rest answer (x'.stack t) g' c' ∧
        beside t g' c' frames x' = beside t g c frames x := by
    intro call call' shared g' c' hstack hturn hvain' hsame
    obtain ⟨hstack', hbeside⟩ := beside_of_turn hstack hstep hturn (Turn.stay_ne_abort _) hsame
    exact ⟨g', c', by rw [hstack']; exact hvain', hbeside⟩
  have hfree : ∀ {call : Call κ V E}, x.stack t = .call call :: .wait k :: rest →
      (∀ {r}, turn (ν := ν) plan t choice x.shared call = some r → x.shared.finished.owner = none) →
      x.shared.finished.owner = none := by
    intro call hstack hfree
    obtain ⟨shared, events, r, hturn, -⟩ := Machine.eq_of_turn hstack hstep
    exact hfree hturn
  have hheld : x.shared.finished.owner = none →
      refit Monitor.release (· - 1) (looked x.shared (held t x.shared.finished)) =
        refit id (· - 1) x.shared := fun hfree =>
    congrArg (fun finished => refit id (· - 1) (looked x.shared finished)) (release_held hfree)
  generalize hstack : x.stack t = layers at hvain
  cases hvain with
  | opening hfruitless =>
      cases hfruitless with
      | await => exact hgoes hstack (turn_opening howned) .arriving rfl
      | drain max => exact hgoes hstack (turn_opening howned) (.drain max) rfl
  | arriving =>
      have hfree := hfree hstack free_of_arriving
      exact hgoes hstack (turn_arriving hfree) (.testing false) (hheld hfree)
  | testing again =>
      refine hgoes hstack (turn_tested_nil hnone) ?_ rfl
      split
      · exact .givenUp
      · exact .drowsy
  | drowsy =>
      have hnot := not_mem_sleepers h hlive (t := t) (by rw [hstack]; rfl)
      refine hgoes hstack turn_drowsy .asleep ?_
      exact congrArg (fun finished => refit id (· - 1) (looked x.shared finished))
        (rouse_sleep hnot)
  | asleep =>
      have hcount : x.shared.finished.sleepers.count t ≤ 1 :=
        (count_sleepers_le h hlive t).trans (Bool.toNat_le _)
      by_cases hmem : t ∈ x.shared.finished.sleepers
      · cases choice with
        | go pick =>
            obtain ⟨shared, events, r, hturn, -⟩ := Machine.eq_of_turn hstack hstep
            cases (turn_asleep hmem).symm.trans hturn
        | stir =>
            exact hgoes hstack (turn_asleep hmem) .asleep
              (congrArg (fun finished => refit id (· - 1) (looked x.shared finished))
                (rouse_rouse hcount))
        | expire => exact hgoes hstack (turn_asleep hmem) .overslept rfl
      · have hfree := hfree hstack (free_of_woken hmem)
        refine hgoes hstack (turn_woken hmem hfree (unpoisoned_of_reach h .finished))
          (.testing true) ((hheld hfree).trans ?_)
        exact congrArg (fun finished => refit id (· - 1) (looked x.shared finished))
          (rouse_of_not_mem hmem).symm
  | overslept =>
      have hfree := hfree hstack free_of_overslept
      exact hgoes hstack (turn_overslept hfree (unpoisoned_of_reach h .finished)) (.testing true)
        (hheld hfree)
  | givenUp => exact hgoes hstack turn_givenUp (.closing _) rfl
  | drain max => exact hgoes hstack rfl (.going _) rfl
  | going left =>
      cases left with
      | zero => exact hgoes hstack rfl .checking rfl
      | succ left => exact hgoes hstack rfl (.drawing left) rfl
  | drawing left =>
      have hfree := hfree hstack free_of_drawing
      exact hgoes hstack (turn_drawing hfree) (.acting left false) (hheld hfree)
  | acting left again => exact hgoes hstack (turn_drawn_nil hnone) (.missed left) rfl
  | missed left => exact hgoes hstack turn_parted .checking rfl
  | checking =>
      have hfree := hfree hstack free_of_checking
      exact hgoes hstack (turn_checking hfree) (.counting false) (hheld hfree)
  | counting again =>
      refine hgoes hstack turn_checked ?_ rfl
      rw [hnone]
      exact .counted
  | counted => exact hgoes hstack turn_answering (.closing _) rfl
  | closing answer =>
      have hclosed : refit id id { x.shared with borrows := x.shared.borrows - 1 } =
          refit id (· - 1) x.shared := rfl
      obtain ⟨hstack', hbeside⟩ :=
        beside_of_turn hstack hstep rfl (Turn.ret_ne_abort answer) hclosed
      exact ⟨id, id, by rw [hstack']; exact .ended answer, hbeside⟩
  | ended answer => exact absurd hstack (hcalls _)

/-! ### Runs -/

/-- Only a call that has answered leaves code in its place. -/
theorem Vain.eq_of_code {position : κ}
    (h : Vain t k rest answer (.code position :: rest) g c) :
    g = id ∧ c = id ∧ position = k (.ok answer) := by
  generalize hlayers : (.code position :: rest : Stack κ (Call κ V E) Answer) = layers at h
  cases h with
  | ended _ =>
      cases hlayers
      exact ⟨rfl, rfl, rfl⟩
  | _ => cases hlayers

/-- **A call that finds nothing goes unnoticed.** Where no result waits when a call begins that does
not wait for ever, and none is published until it has ended, it has answered that there was none;
and the other threads have done just what they do if it has answered so at once. -/
theorem fruitless_unnoticed {order : List (Tid × Choice)} {position : κ}
    (hfruitless : Fruitless request answer) (h : (machine plan next).Reach (start world codes) s)
    (hbegins : s.stack t = .call request.call :: .wait k :: rest)
    (hnone : s.shared.finished.value = [])
    (hruns : (machine plan next).Runs (Undisturbed t (.wait k :: rest) request) s order s')
    (hends : s'.stack t = .code position :: rest) (howned : s'.shared.owned = true)
    (hquiet : reached .published s'.history = reached .published s.history) :
    position = k (.ok answer) ∧
      (machine plan next).Runs (fun _ => True)
        (s.withStack t (.code (k (.ok answer)) :: rest))
        (order.filter (·.1 != t)) s' := by
  have hbeside : ∀ {order x}, (machine plan next).Runs (Undisturbed t (.wait k :: rest) request)
      s order x → (machine plan next).Reach x s' → ∃ g c, Vain t k rest answer (x.stack t) g c ∧
        (machine plan next).Runs (fun _ => True)
          (s.withStack t (.code (k (.ok answer)) :: rest)) (order.filter (·.1 != t))
          (beside t g c (.code (k (.ok answer)) :: rest) x) := by
    intro order x hruns
    induction hruns with
    | start =>
        intro _
        exact ⟨id, id, by rw [hbegins]; exact .opening hfruitless, .start⟩
    | @step order x x' u choice hto hundisturbed hstep ih =>
        intro hfrom
        have hx' := (Machine.Reach.start.step u choice hstep).trans hfrom
        obtain ⟨g, c, hvain, hbeside⟩ := ih hx'
        have hx := h.trans hto.reach
        rw [List.filter_append]
        by_cases hu : u = t
        · subst hu
          obtain ⟨g', c', hvain', hsame⟩ := hvain.of_own hx hstep (owned_of_reach hx hx' howned)
            (value_eq_nil_of_quiet h hto.reach hx' hnone hquiet) (fun position hcode => by
              have hlength := hundisturbed.pursues.length_lt
              rw [hcode] at hlength
              exact Nat.lt_irrefl _ hlength)
          refine ⟨g', c', hvain', ?_⟩
          rw [hsame]
          simpa using hbeside
        · have hanswer : answer = .awaited false → request = .awaiting .limited := by
            rintro rfl
            cases hfruitless
            rfl
          obtain ⟨hunnoticed, huncounted⟩ : Unnoticed t x g ∧ Uncounted t x x' c :=
            hvain.unseen fun hawaits => hundisturbed.quiet (hanswer hawaits)
          refine ⟨g, c, by rwa [Machine.stack_of_step_ne hstep (Ne.symm hu)], ?_⟩
          have hsingle : [(u, choice)].filter (·.1 != t) = [(u, choice)] := by
            simpa using hu
          rw [hsingle]
          exact hbeside.step u choice trivial (step_beside hx hu hstep hunnoticed huncounted)
  obtain ⟨g, c, hvain, hbeside⟩ := hbeside hruns .start
  rw [hends] at hvain
  obtain ⟨rfl, rfl, rfl⟩ := hvain.eq_of_code
  refine ⟨rfl, ?_⟩
  rw [← hends, beside_self (State.lt_of_stack_ne_nil (by rw [hends]; exact List.cons_ne_nil _ _))]
    at hbeside
  rwa [← hends]

section Alone

variable {shared : Pipeline κ V E}

/-- An await whose time is over when it looks gives up. -/
theorem goesOn_givingUp (hfree : shared.finished.owner = none)
    (hnone : shared.finished.value = []) :
    (machine plan next).GoesOn t shared (.inside (.await (.start .limited))) [] shared
      (.closing (.ok (.awaited false))) := by
  have harrived : (machine plan next).GoesOn t shared (.inside (.await (.start .limited))) []
      (looked shared (held t shared.finished))
      (.inside (.await (.popping ⟨.limited, .testing false⟩))) :=
    goesOn_stay .start (turn_arriving hfree)
  have htested : turn (ν := ν) plan t .expire (looked shared (held t shared.finished))
      (.inside (.await (.popping ⟨.limited, .testing false⟩))) =
      some (looked shared (held t shared.finished), [],
        .stay (.inside (.await (.popping ⟨.limited, .leaving (.ok none)⟩)))) :=
    turn_tested_nil hnone
  have hgivenUp := goesOn_stay (harrived.step .expire htested) turn_givenUp
  have hsame : looked (looked shared (held t shared.finished))
      (looked shared (held t shared.finished)).finished.release = shared :=
    congrArg (looked shared) (release_held hfree)
  rw [hsame] at hgivenUp
  exact hgivenUp

/-- A drain looks once, unless it may not deliver any result, and counts none. -/
theorem goesOn_missing (left : Nat) (hfree : shared.finished.owner = none)
    (hnone : shared.finished.value = []) :
    (machine plan next).GoesOn t shared (.inside (.draining (.going left))) [] shared
      (.closing (.ok (.drained false))) := by
  have hchecks : (machine plan next).GoesOn t shared (.inside (.draining (.checking .arriving))) []
      shared (.closing (.ok (.drained false))) := by
    have hanswers : (machine plan next).GoesOn t shared (.inside (.draining (.checking .arriving)))
        [] shared (.closing (.ok (.drained (shared.finished.value.length != 0)))) :=
      goesOn_checking hfree
    rwa [hnone] at hanswers
  cases left with
  | zero =>
      have hleft : (machine plan next).GoesOn t shared (.inside (.draining (.going 0))) [] shared
          (.inside (.draining (.checking .arriving))) := goesOn_stay .start rfl
      exact hleft.trans hchecks
  | succ left =>
      have hbegun : (machine plan next).GoesOn t shared (.inside (.draining (.going (left + 1)))) []
          shared (.inside (.draining (.popping left (.start .never)))) := goesOn_stay .start rfl
      have hmissed := goesOn_stay (goesOn_stay (goesOn_stay hbegun (turn_drawing hfree))
        (turn_drawn_nil hnone)) turn_parted
      have hsame : looked (looked shared (held t shared.finished))
          (looked shared (held t shared.finished)).finished.release = shared :=
        congrArg (looked shared) (release_held hfree)
      rw [hsame] at hmissed
      exact hmissed.trans hchecks

end Alone

/-- **A call that finds nothing can come to its end** by itself: an await if its time runs out, a
drain in any case. -/
theorem fruitless_ends (hfruitless : Fruitless request answer) (hlive : s.aborted = false)
    (hbegins : s.stack t = .call request.call :: .wait k :: rest) (howned : s.shared.owned = true)
    (hfree : s.shared.finished.owner = none) (hnone : s.shared.finished.value = []) :
    (machine plan next).Reach s (s.withStack t (.code (k (.ok answer)) :: rest)) := by
  have ht : t < s.threads.length :=
    State.lt_of_stack_ne_nil (by rw [hbegins]; exact List.cons_ne_nil _ _)
  have hlent : ∀ use, (machine plan next).GoesOn t s.shared (.opening use) []
      { s.shared with borrows := s.shared.borrows + 1 } (.inside use) := fun use =>
    goesOn_stay .start (turn_opening howned)
  have hcloses : (machine plan next).GoesOn t s.shared request.call []
      { s.shared with borrows := s.shared.borrows + 1 } (.closing (.ok answer)) := by
    cases hfruitless with
    | await => exact (hlent _).trans (goesOn_givingUp hfree hnone)
    | drain max =>
        have hbegun : (machine plan next).GoesOn t s.shared (.opening (.drain max)) []
            { s.shared with borrows := s.shared.borrows + 1 }
            (.inside (.draining (.going (max.getD plan.settings.batch)))) :=
          goesOn_stay (hlent _) rfl
        exact hbegun.trans (goesOn_missing _ hfree hnone)
  have hreach : (machine plan next).Reach
      (s.going t s.shared s.world (.call request.call :: .wait k :: rest) [])
      (s.going t { s.shared with borrows := s.shared.borrows + 1 } s.world
        (.call (.closing (.ok answer)) :: .wait k :: rest) []) := hcloses.reach hlive ht
  rw [← hbegins, State.going_self ht] at hreach
  have hends : (machine plan next).step t (.go 0)
      (s.going t { s.shared with borrows := s.shared.borrows + 1 } s.world
        (.call (.closing (.ok answer)) :: .wait k :: rest) []) =
      some (s.going t s.shared s.world (.code (k (.ok answer)) :: rest) []) :=
    Machine.step_going hlive ht rfl (Turn.ret_ne_abort answer)
  exact hreach.step t (.go 0) hends

end Offload.Pipeline
