import Mathlib.Tactic.IntervalCases
import Offload.Proofs.Pipeline.Beside
import Offload.Proofs.Pipeline.Draining

/-!
# Two drains in a row

A thread that drains up to `a` results and then up to `b` does what it does if it drains up to
`a + b` in their place. The two runs go on side by side:

* while the first drain is in its loop, the single drain may deliver `b` more, and begins each look
  at the finished channel only when the first drain has made it (`Leading`);
* once the first drain has left its loop, the single drain waits before its next look, through the
  end of the first drain and the code between the two (`Left`);
* it goes on to wait until the second drain has had its first look (`Between`), and from then on
  they stand at the same place (`Level`).

## Main definitions

* `InARow`: a run with two drains in a row.
* `StaysQuiet`: nothing is published that the single drain would find and the first did not.

## Main results

* `drains_compose`: a single drain comes to where the two have come.
-/

namespace Offload.Pipeline

variable {κ ω V E ν : Type} {plan : Plan κ}
  {next : κ → Move κ ω (Request κ V E) Answer (Except E V) ν} {world : ω} {codes : List κ}
  {s s' x x' y : State κ ω (Pipeline κ V E) (Call κ V E) Answer (Event V E ν)} {t u : Tid}
  {choice : Choice} {call call' other other' : Call κ V E}
  {rest base base' frames : Stack κ (Call κ V E) Answer}
  {a b j n : Nat} {k k' : Except Fault Answer → κ}
  {g : Channel (Finished κ V E) → Channel (Finished κ V E)} {c : Nat → Nat}

/-! ### Looking in one go -/

/-- Where there is no result, it finds none. -/
theorem goesOn_miss {shared : Pipeline κ V E} (howner : shared.finished.owner = some t)
    (hnone : shared.finished.value = []) :
    (machine plan next).GoesOn t (refit Monitor.release id shared)
      (.inside (.draining (.going (n + 1)))) [] shared
      (.inside (.draining (.popping n ⟨.never, .leaving (.ok (some none))⟩))) := by
  have hlook : (machine plan next).GoesOn t _ (.inside (.draining (.going (n + 1)))) _ _ _ :=
    goesOn_look howner
  rw [hnone, drawn_eq hnone] at hlook
  exact hlook

/-- Then it goes on to look for its answer in one go. -/
theorem goesOn_count {shared : Pipeline κ V E} (howner : shared.finished.owner = some t)
    (hnone : shared.finished.value = []) :
    (machine plan next).GoesOn t (refit Monitor.release id shared)
      (.inside (.draining (.going (n + 1)))) [] shared
      (.inside (.draining (.checking (.leaving (.ok (some shared.finished.value.length)))))) := by
  have hmiss : (machine plan next).GoesOn t _ (.inside (.draining (.going (n + 1)))) _ _ _ :=
    goesOn_miss howner hnone
  have hparted : turn (ν := ν) plan t (.go 0) shared
      (.inside (.draining (.popping n ⟨.never, .leaving (.ok (some none))⟩))) =
      some (refit Monitor.release id shared, [],
        .stay (.inside (.draining (.checking .arriving)))) := turn_parted
  have harrived : turn (ν := ν) plan t (.go 0) (refit Monitor.release id shared)
      (.inside (.draining (.checking .arriving))) = some (shared, [],
        .stay (.inside (.draining (.checking (.acting false))))) := by
    rw [← looked_held howner]
    exact turn_checking rfl
  exact goesOn_stay (goesOn_stay (goesOn_stay hmiss hparted) harrived) turn_checked

/-! ### The first drain -/

/-- How the single drain stands while the first of the two is in its loop: it may deliver `b` more,
and has not begun to look for a result when the first looks for one. -/
inductive Leading (a b : Nat) (base base' : Stack κ (Call κ V E) Answer) :
    Pairing κ V E where
  | opening : Leading a b base base' (.call (.opening (.drain (some a))) :: base) id id
      (.call (.opening (.drain (some (a + b)))) :: base')
  | inside : Leading a b base base' (.call (.inside (.drain (some a))) :: base) id id
      (.call (.inside (.drain (some (a + b)))) :: base')
  | going (left : Nat) : Leading a b base base'
      (.call (.inside (.draining (.going left))) :: base) id id
      (.call (.inside (.draining (.going (left + b)))) :: base')
  | arriving (left : Nat) : Leading a b base base'
      (.call (.inside (.draining (.popping left (.start .never)))) :: base) id id
      (.call (.inside (.draining (.going (left + b + 1)))) :: base')
  | looking (left : Nat) (again : Bool) : Leading a b base base'
      (.call (.inside (.draining (.popping left ⟨.never, .acting again⟩))) :: base)
      Monitor.release id (.call (.inside (.draining (.going (left + b + 1)))) :: base')
  | leaving (left : Nat) (f : Finished κ V E) : Leading a b base base'
      (.call (.inside (.draining (.popping left ⟨.never, .leaving (.ok (some (some f)))⟩))) :: base)
      id id
      (.call (.inside (.draining (.popping (left + b)
        ⟨.never, .leaving (.ok (some (some f)))⟩))) :: base')
  | delivering (left : Nat) (f : Finished κ V E) : Leading a b base base'
      (.call (.inside (.draining (.delivering left f))) :: base) id id
      (.call (.inside (.draining (.delivering (left + b) f))) :: base')
  | above (above : Stack κ (Call κ V E) Answer) (left : Nat) : above ≠ [] → Nested false above →
      Leading a b base base' (above ++ .call (.inside (.draining (.going left))) :: base) id id
        (above ++ .call (.inside (.draining (.going (left + b)))) :: base')

/-- How the single drain stands once the first of the two has left its loop: it may deliver up to
`j` more, and waits. -/
inductive Left (b j : Nat) (base base' rest : Stack κ (Call κ V E) Answer) :
    Pairing κ V E where
  | last : j = b → Left b j base base' rest (.call (.inside (.draining (.going 0))) :: base)
      id id (.call (.inside (.draining (.going j))) :: base')
  | leaving (left : Nat) : Left b j base base' rest
      (.call (.inside (.draining (.popping left ⟨.never, .leaving (.ok (some none))⟩))) :: base)
      Monitor.release id (.call (.inside (.draining (.going j))) :: base')
  | arriving : Left b j base base' rest
      (.call (.inside (.draining (.checking .arriving))) :: base)
      id id (.call (.inside (.draining (.going j))) :: base')
  | looking (again : Bool) : Left b j base base' rest
      (.call (.inside (.draining (.checking (.acting again)))) :: base)
      Monitor.release id (.call (.inside (.draining (.going j))) :: base')
  | answering (n : Nat) : Left b j base base' rest
      (.call (.inside (.draining (.checking (.leaving (.ok (some n)))))) :: base)
      Monitor.release id (.call (.inside (.draining (.going j))) :: base')
  | closing (more : Bool) : Left b j base base' rest
      (.call (.closing (.ok (.drained more))) :: base)
      id id (.call (.inside (.draining (.going j))) :: base')
  | ended (position : κ) : Left b j base base' rest
      (.code position :: rest)
      id (· + 1) (.call (.inside (.draining (.going j))) :: base')

theorem Leading.unseen (h : Leading a b base base' (x.stack t) g c frames) :
    Unnoticed t x g ∧ Uncounted t x x' c := by
  generalize hlayers : x.stack t = layers at h
  cases h with
  | looking _ _ => exact ⟨.released (by rw [hlayers]; rfl), .same⟩
  | _ => exact ⟨.same, .same⟩

/-- **In the loop, a step of the thread.** -/
theorem Leading.of_own
    (hlead : Leading a b (.wait k :: rest) base' (x.stack t) g c frames)
    (h : (machine plan next).Reach (start world codes) x)
    (hstep : (machine plan next).step t choice x = some x') (hlive' : x'.aborted = false)
    (howned : x.shared.owned = true) :
    (∃ y, (machine plan next).Reach (beside t g c frames x) y ∧
      Goes (Leading a b (.wait k :: rest) base') t x' y) ∨
    (∃ j, (j = b ∨ 0 < j) ∧ ∃ y, (machine plan next).Reach (beside t g c frames x) y ∧
      Goes (Left b j (.wait k :: rest) base' rest) t x' y) ∨
    ∃ fault, x'.stack t = .call (.inside (.draining (.failing fault))) :: .wait k :: rest := by
  have hlive := (Machine.stepped_of_step hstep).1
  generalize hstack : x.stack t = layers at hlead
  cases hlead with
  | opening =>
      exact .inl (goes_of_stay hstack hstep (turn_opening howned) .inside
        (goesOn_stay .start (turn_opening howned)))
  | inside =>
      exact .inl (goes_of_stay hstack hstep rfl (.going a) (goesOn_stay .start rfl))
  | going left =>
      cases left with
      | zero =>
          rw [Nat.zero_add]
          exact .inr (.inl ⟨b, .inl rfl, goes_of_stay hstack hstep rfl .arriving .start⟩)
      | succ left =>
          rw [Nat.add_right_comm]
          exact .inl (goes_of_stay hstack hstep rfl (.arriving left) .start)
  | arriving left =>
      obtain ⟨shared, events, r, hturn, -⟩ := Machine.eq_of_turn hstack hstep
      have hfree := free_of_drawing hturn
      refine .inl (goes_of_stay hstack hstep (turn_drawing hfree) (.looking left false)
        (goesOn_same ?_))
      exact congrArg (looked x.shared) (release_held hfree).symm
  | looking left again =>
      have howner : x.shared.finished.owner = some t :=
        owner_of_owns h hlive (by rw [hstack]; rfl)
      cases hvalue : x.shared.finished.value with
      | nil =>
          exact .inr (.inl ⟨left + b + 1, .inr (Nat.succ_pos _),
            goes_of_stay hstack hstep (turn_drawn_nil hvalue) (.leaving left) .start⟩)
      | cons f later =>
          have hleaving : Leading a b (.wait k :: rest) base' (.call (.inside (.draining
              (.popping left ⟨.never, .leaving (.ok (some x.shared.finished.value.head?))⟩))) ::
              .wait k :: rest) id id (.call (.inside (.draining (.popping (left + b)
                ⟨.never, .leaving (.ok (some x.shared.finished.value.head?))⟩))) :: base') := by
            rw [hvalue]
            exact .leaving left f
          exact .inl (goes_of_stay hstack hstep turn_drawn hleaving (goesOn_look howner))
  | leaving left f =>
      exact .inl (goes_of_stay hstack hstep turn_parted (.delivering left f)
        (goesOn_stay .start turn_parted))
  | delivering left f =>
      exact .inl (goes_of_delivering hstack hstep rfl rfl (.going left)
        fun code => .above [.code code] left (List.cons_ne_nil _ _) (.code code))
  | above above left hne hnest =>
      rcases goes_of_above (R := Leading a b (.wait k :: rest) base') hne hnest hstack hstep hlive'
          fun above' hne' hnest' => .above above' left hne' hnest' with
        hgoes | ⟨result, hstack', hreach⟩
      · exact .inl hgoes
      · cases result with
        | error fault => exact .inr (.inr ⟨fault, hstack'⟩)
        | ok value => exact .inl ⟨_, hreach, id, id, _, by rw [hstack']; exact .going left, rfl⟩

/-! ### After the loop -/

theorem Left.unseen (h : Left b j base base' rest (x.stack t) g c frames)
    (howned' : x'.shared.owned = true) : Unnoticed t x g ∧ Uncounted t x x' c := by
  generalize hlayers : x.stack t = layers at h
  cases h with
  | leaving _ | looking _ | answering _ => exact ⟨.released (by rw [hlayers]; rfl), .same⟩
  | ended _ => exact ⟨.same, .lent howned'⟩
  | last _ | arriving | closing _ => exact ⟨.same, .same⟩

/-- **After the loop, a step of the thread.** -/
theorem Left.of_own
    (hleft : Left b j (.wait k :: rest) base' rest (x.stack t) g c frames)
    (h : (machine plan next).Reach (start world codes) x)
    (hstep : (machine plan next).step t choice x = some x')
    (hgoes : ∀ position, x.stack t ≠ .code position :: rest) :
    ∃ y, (machine plan next).Reach (beside t g c frames x) y ∧
      Goes (Left b j (.wait k :: rest) base' rest) t x' y := by
  have hlive := (Machine.stepped_of_step hstep).1
  generalize hstack : x.stack t = layers at hleft
  cases hleft with
  | last _ => exact goes_of_stay hstack hstep rfl .arriving .start
  | leaving left => exact goes_of_stay hstack hstep turn_parted .arriving .start
  | arriving =>
      obtain ⟨shared, events, r, hturn, -⟩ := Machine.eq_of_turn hstack hstep
      have hfree := free_of_checking hturn
      exact goes_of_stay hstack hstep (turn_checking hfree) (.looking false)
        (goesOn_same (congrArg (looked x.shared) (release_held hfree).symm))
  | looking again => exact goes_of_stay hstack hstep turn_checked (.answering _) .start
  | answering n => exact goes_of_stay hstack hstep turn_answering (.closing _) .start
  | closing more =>
      have hpos : 0 < x.shared.borrows := by
        refine borrows_pos (t := t) (.closing (.ok (.drained more))) h hlive ?_ rfl
        rw [hstack]
        exact List.mem_cons_self
      refine goes_of_reach hstack hstep (r := .ret (.drained more)) rfl (Turn.ret_ne_abort _)
        (.ended (k (.ok (.drained more)))) fun _ => ?_
      have hsame : refit id (· + 1) { x.shared with borrows := x.shared.borrows - 1 } =
          refit id id x.shared := by
        have hone : x.shared.borrows - 1 + 1 = x.shared.borrows := Nat.sub_add_cancel hpos
        simp only [refit, id, hone]
      rw [hsame]
      exact .start
  | ended position => exact absurd hstack (hgoes position)

/-! ### The second drain -/

/-- How the single drain stands from the end of the first of the two to the first look of the
second: it may deliver up to `j` more, and waits. -/
inductive Between (b j : Nat) (position : κ) (base' rest : Stack κ (Call κ V E) Answer) :
    Pairing κ V E where
  | ended : Between b j position base' rest (.code position :: rest)
      id (· + 1) (.call (.inside (.draining (.going j))) :: base')
  | opening : Between b j position base' rest (.call (.opening (.drain (some b))) :: base')
      id (· + 1) (.call (.inside (.draining (.going j))) :: base')
  | inside : Between b j position base' rest (.call (.inside (.drain (some b))) :: base')
      id id (.call (.inside (.draining (.going j))) :: base')
  | going : Between b j position base' rest (.call (.inside (.draining (.going b))) :: base')
      id id (.call (.inside (.draining (.going j))) :: base')
  | arriving (left : Nat) : j ≠ b → Between b j position base' rest
      (.call (.inside (.draining (.popping left (.start .never)))) :: base')
      id id (.call (.inside (.draining (.going j))) :: base')
  | looking (left : Nat) (again : Bool) : j ≠ b → Between b j position base' rest
      (.call (.inside (.draining (.popping left ⟨.never, .acting again⟩))) :: base')
      Monitor.release id (.call (.inside (.draining (.going j))) :: base')
  | checking : j ≠ b → Between b j position base' rest
      (.call (.inside (.draining (.checking .arriving))) :: base')
      id id (.call (.inside (.draining (.going j))) :: base')
  | counting (again : Bool) : j ≠ b → Between b j position base' rest
      (.call (.inside (.draining (.checking (.acting again)))) :: base')
      Monitor.release id (.call (.inside (.draining (.going j))) :: base')

/-- How the single drain stands after the first look of the second of the two: it has found no
result either, or stands just as the second does. -/
inductive Level (base' : Stack κ (Call κ V E) Answer) :
    Pairing κ V E where
  | leaving (left j : Nat) : Level base'
      (.call (.inside (.draining (.popping left ⟨.never, .leaving (.ok (some none))⟩))) :: base')
      id id
      (.call (.inside (.draining (.popping j ⟨.never, .leaving (.ok (some none))⟩))) :: base')
  | same (layers : Stack κ (Call κ V E) Answer) : Level base' layers id id layers

theorem Between.unseen {position : κ}
    (h : Between b j position base' rest (x.stack t) g c frames)
    (howned' : x'.shared.owned = true) : Unnoticed t x g ∧ Uncounted t x x' c := by
  generalize hlayers : x.stack t = layers at h
  cases h with
  | looking _ _ _ | counting _ _ => exact ⟨.released (by rw [hlayers]; rfl), .same⟩
  | ended | opening => exact ⟨.same, .lent howned'⟩
  | inside | going | arriving _ _ | checking _ => exact ⟨.same, .same⟩

theorem Level.unseen (h : Level base' (x.stack t) g c frames) :
    Unnoticed t x g ∧ Uncounted t x x' c := by
  generalize x.stack t = layers at h
  cases h <;> exact ⟨.same, .same⟩

/-- **After the first look, a step of the thread.** -/
theorem Level.of_own (hlevel : Level base' (x.stack t) g c frames)
    (hstep : (machine plan next).step t choice x = some x') :
    ∃ y, (machine plan next).Reach (beside t g c frames x) y ∧ Goes (Level base') t x' y := by
  generalize hstack : x.stack t = layers at hlevel
  cases hlevel with
  | leaving left j =>
      exact goes_of_stay hstack hstep turn_parted (.same _) (goesOn_stay .start turn_parted)
  | same =>
      subst hstack
      have ht : t < x.threads.length := Machine.lt_of_step hstep
      have ht' : t < x'.threads.length := by
        rwa [(Machine.Reach.start.step t choice hstep).length_threads]
      rw [beside_self ht]
      exact ⟨x', Machine.Reach.start.step t choice hstep, id, id, _, .same _,
        (beside_self ht').symm⟩

/-- **Up to the first look, a step of the thread.** -/
theorem Between.of_own {position : κ} {rest : Stack κ (Call κ V E) Answer}
    {k' : Except Fault Answer → κ}
    (hbetween : Between b j position (.wait k' :: rest) rest (x.stack t) g c frames)
    (h : (machine plan next).Reach (start world codes) x)
    (hstep : (machine plan next).step t choice x = some x')
    (hnext : (machine plan next).next position = .call (.opening (.drain (some b))) k')
    (howned : x.shared.owned = true) (hj : j = b ∨ 0 < j ∧ x.shared.finished.value = []) :
    (∃ y, (machine plan next).Reach (beside t g c frames x) y ∧
      Goes (Between b j position (.wait k' :: rest) rest) t x' y) ∨
    ∃ y, (machine plan next).Reach (beside t g c frames x) y ∧
      Goes (Level (.wait k' :: rest)) t x' y := by
  have hlive := (Machine.stepped_of_step hstep).1
  have ht : t < x.threads.length := Machine.lt_of_step hstep
  generalize hstack : x.stack t = layers at hbetween
  cases hbetween with
  | ended =>
      obtain rfl := Machine.eq_of_called hstack hnext hstep
      refine .inl ⟨_, .start, id, (· + 1), _, ?_, State.going_twin.symm⟩
      rw [State.stack_withStack_self _ (by rw [hstack]; exact List.cons_ne_nil _ _)]
      exact .opening
  | opening =>
      exact .inl (goes_of_stay hstack hstep (turn_opening howned) .inside .start)
  | inside =>
      exact .inl (goes_of_stay hstack hstep rfl .going .start)
  | going =>
      by_cases hsame : j = b
      · subst hsame
        cases j with
        | zero => exact .inr (goes_of_stay hstack hstep rfl (.same _) (goesOn_stay .start rfl))
        | succ left => exact .inr (goes_of_stay hstack hstep rfl (.same _) (goesOn_stay .start rfl))
      · cases b with
        | zero => exact .inl (goes_of_stay hstack hstep rfl (.checking hsame) .start)
        | succ left => exact .inl (goes_of_stay hstack hstep rfl (.arriving left hsame) .start)
  | arriving left hne =>
      obtain ⟨shared, events, r, hturn, -⟩ := Machine.eq_of_turn hstack hstep
      have hfree := free_of_drawing hturn
      exact .inl (goes_of_stay hstack hstep (turn_drawing hfree) (.looking left false hne)
        (goesOn_same (congrArg (looked x.shared) (release_held hfree).symm)))
  | looking left again hne =>
      obtain ⟨hpos, hnone⟩ := hj.resolve_left hne
      obtain ⟨j, rfl⟩ := Nat.exists_eq_add_one_of_ne_zero hpos.ne'
      have howner : x.shared.finished.owner = some t :=
        owner_of_owns h hlive (by rw [hstack]; rfl)
      exact .inr (goes_of_stay hstack hstep (turn_drawn_nil hnone) (.leaving left j)
        (goesOn_miss howner hnone))
  | checking hne =>
      obtain ⟨shared, events, r, hturn, -⟩ := Machine.eq_of_turn hstack hstep
      have hfree := free_of_checking hturn
      exact .inl (goes_of_stay hstack hstep (turn_checking hfree) (.counting false hne)
        (goesOn_same (congrArg (looked x.shared) (release_held hfree).symm)))
  | counting again hne =>
      obtain ⟨hpos, hnone⟩ := hj.resolve_left hne
      obtain ⟨j, rfl⟩ := Nat.exists_eq_add_one_of_ne_zero hpos.ne'
      have howner : x.shared.finished.owner = some t :=
        owner_of_owns h hlive (by rw [hstack]; rfl)
      exact .inr (goes_of_stay hstack hstep turn_checked (.same _) (goesOn_count howner hnone))

/-! ### Runs -/

/-- Whether no callback of a call has failed. -/
def Call.IsFaultless (call : Call κ V E) : Prop :=
  ∀ fault, call ≠ .inside (.draining (.failing fault))

/-- Whether the single drain stands as it should while the first of the two goes on. -/
inductive Abreast (a b : Nat) (base base' rest : Stack κ (Call κ V E) Answer) (t : Tid)
    (x y : State κ ω (Pipeline κ V E) (Call κ V E) Answer (Event V E ν)) : Prop where
  | leading : Goes (Leading a b base base') t x y → Abreast a b base base' rest t x y
  | left (j : Nat) : j = b ∨ 0 < j → Goes (Left b j base base' rest) t x y →
      Abreast a b base base' rest t x y
  | failing (fault : Fault) : x.stack t = .call (.inside (.draining (.failing fault))) :: base →
      Abreast a b base base' rest t x y

/-- A drain that has delivered all that it may is about to leave its loop. -/
theorem Abreast.last {rest : Stack κ (Call κ V E) Answer}
    (h : Abreast a b base base' rest t x y)
    (hstack : x.stack t = .call (.inside (.draining (.going 0))) :: base) :
    Goes (Left b b base base' rest) t x y := by
  cases h with
  | leading hgoes =>
      obtain ⟨g, c, frames, hlead, rfl⟩ := hgoes
      generalize hlayers : x.stack t = layers at hlead
      cases hlead with
      | going left =>
          cases hstack.symm.trans hlayers
          refine ⟨id, id, _, ?_, rfl⟩
          rw [hstack, Nat.zero_add]
          exact .last rfl
      | above above left hne _ =>
          have hlength := congrArg List.length (hstack.symm.trans hlayers)
          have hpos := List.length_pos_of_ne_nil hne
          simp only [List.length_append, List.length_cons] at hlength
          omega
      | _ => cases hstack.symm.trans hlayers
  | left j hj hgoes =>
      obtain ⟨g, c, frames, hleft, rfl⟩ := hgoes
      generalize hlayers : x.stack t = layers at hleft
      cases hleft with
      | last hsame =>
          subst hsame
          refine ⟨id, id, _, ?_, rfl⟩
          rw [hstack]
          exact .last rfl
      | _ => cases hstack.symm.trans hlayers
  | failing fault hfails => cases hstack.symm.trans hfails

/-- The layers of a thread above those that wait for a call are more than code. -/
theorem ne_of_pursued
    {above : Stack κ (Call κ V E) Answer} {position : κ} :
    above ++ .call call :: .wait k :: rest ≠ .code position :: rest := by
  intro heq
  have hlength := congrArg List.length heq
  simp only [List.length_append, List.length_cons] at hlength
  omega

theorem Leading.exists_call {layers : Stack κ (Call κ V E) Answer}
    (h : Leading a b base base' layers g c frames) :
    ∃ above call, layers = above ++ .call call :: base := by
  cases h with
  | above above left _ _ => exact ⟨above, _, rfl⟩
  | _ => exact ⟨[], _, rfl⟩

/-- **After the loop, one step.** -/
theorem Goes.step_left
    (hgoes : Goes (Left b j (.wait k :: rest) base' rest) t x y)
    (h : (machine plan next).Reach (start world codes) x)
    (hpursues : Machine.Pursues t (.wait k :: rest) Call.IsFaultless x)
    (hstep : (machine plan next).step u choice x = some x') (howned' : x'.shared.owned = true) :
    ∃ y', (machine plan next).Reach y y' ∧
      Goes (Left b j (.wait k :: rest) base' rest) t x' y' := by
  by_cases hu : u = t
  · subst hu
    obtain ⟨g, c, frames, hleft, rfl⟩ := hgoes
    obtain ⟨above, call, hcall, -⟩ := hpursues.exists_call
    exact hleft.of_own h hstep fun position hstack => ne_of_pursued (hcall.symm.trans hstack)
  · exact hgoes.of_other h hu hstep fun hleft => hleft.unseen howned'

/-- **The first drain, one step.** -/
theorem Abreast.step
    (habreast : Abreast a b (.wait k :: rest) base' rest t x y)
    (h : (machine plan next).Reach (start world codes) x)
    (hpursues : Machine.Pursues t (.wait k :: rest) Call.IsFaultless x)
    (hstep : (machine plan next).step u choice x = some x') (hlive' : x'.aborted = false)
    (howned : x.shared.owned = true) (howned' : x'.shared.owned = true) :
    ∃ y', (machine plan next).Reach y y' ∧ Abreast a b (.wait k :: rest) base' rest t x' y' := by
  cases habreast with
  | leading hgoes =>
      by_cases hu : u = t
      · subst hu
        obtain ⟨g, c, frames, hlead, rfl⟩ := hgoes
        rcases hlead.of_own h hstep hlive' howned with
          ⟨y', hy', hlead'⟩ | ⟨j, hj, y', hy', hleft⟩ | ⟨fault, hstack⟩
        · exact ⟨y', hy', .leading hlead'⟩
        · exact ⟨y', hy', .left j hj hleft⟩
        · exact ⟨_, .start, .failing fault hstack⟩
      · obtain ⟨y', hy', hgoes'⟩ := hgoes.of_other h hu hstep Leading.unseen
        exact ⟨y', hy', .leading hgoes'⟩
  | left j hj hgoes =>
      obtain ⟨y', hy', hgoes'⟩ := hgoes.step_left h hpursues hstep howned'
      exact ⟨y', hy', .left j hj hgoes'⟩
  | failing fault hstack =>
      -- the call would be the one that passes the fault on
      exact absurd rfl (hpursues.of_call hstack fault)

/-- Whether a drain looks at the finished channel in its next step. -/
def Drain.Looks : Drain κ V E → Prop
  | .popping _ ⟨.never, .acting _⟩ | .checking (.acting _) => True
  | _ => False

/-- Whether a drain of up to `b` results has just had its first look at the finished channel. -/
def Drain.HasLooked (b : Nat) : Drain κ V E → Prop
  | .popping left ⟨.never, .leaving (.ok (some _))⟩ => b = left + 1
  | .checking (.leaving (.ok (some _))) => b = 0
  | _ => False

/-- A run in which thread `t` makes two drains one right after the other, of up to `a` and of up to
`b` results. -/
structure InARow (plan : Plan κ) (next : κ → Move κ ω (Request κ V E) Answer (Except E V) ν)
    (t : Tid) (a b : Nat) (k k' : Except Fault Answer → κ) (rest : Stack κ (Call κ V E) Answer)
    (outcome : Except Fault Answer)
    (s l e q s' : State κ ω (Pipeline κ V E) (Call κ V E) Answer (Event V E ν)) : Prop where
  /-- In `s` the first drain begins. -/
  begins : s.stack t = .call (.opening (.drain (some a))) :: .wait k :: rest
  /-- It comes to `l`, and none of its callbacks fails on the way, … -/
  toLook : (machine plan next).ReachWhile
    (Machine.Pursues t (.wait k :: rest) Call.IsFaultless) s l
  /-- … nor on the way to `e`, … -/
  toEnd : (machine plan next).ReachWhile
    (Machine.Pursues t (.wait k :: rest) Call.IsFaultless) l e
  /-- … where it has ended, and the second drain is what comes next. -/
  ends : ∃ position, e.stack t = .code position :: rest ∧
    next position = .call (.draining (some b)) k'
  toFirst : (machine plan next).Reach e q
  /-- In `q` the second drain has just had its first look at the finished channel. -/
  looked : ∃ stage, q.stack t = .call (.inside (.draining stage)) :: .wait k' :: rest ∧
    stage.HasLooked b
  toAnswer : (machine plan next).Reach q s'
  /-- In `s'` it is about to end. -/
  answers : s'.stack t = .call (.closing outcome) :: .wait k' :: rest

/-- Whether the results that may be published from `l` to `q` do not matter: in `l` a drain has
delivered as many as it may, and does not look for more; or it looks and finds none, and none is
published up to `q`. -/
inductive StaysQuiet (t : Tid) (base : Stack κ (Call κ V E) Answer)
    (l q : State κ ω (Pipeline κ V E) (Call κ V E) Answer (Event V E ν)) : Prop where
  | spent : l.stack t = .call (.inside (.draining (.going 0))) :: base → StaysQuiet t base l q
  | empty (stage : Drain κ V E) : l.stack t = .call (.inside (.draining stage)) :: base →
      stage.Looks → l.shared.finished.value = [] →
      reached .published q.history = reached .published l.history → StaysQuiet t base l q

section Row

variable {outcome : Except Fault Answer}
  {l e q : State κ ω (Pipeline κ V E) (Call κ V E) Answer (Event V E ν)}

/-- Before the second drain has had its first look, nothing has been aborted, and the pipeline has
an owner. -/
theorem InARow.standing (h : (machine plan next).Reach (start world codes) s)
    (hrow : InARow plan next t a b k k' rest outcome s l e q s')
    (hto : (machine plan next).Reach s x) (hfrom : (machine plan next).Reach x q) :
    x.aborted = false ∧ x.shared.owned = true := by
  obtain ⟨stage, hstack, hlooked⟩ := hrow.looked
  have hq : q.aborted = false := by
    by_contra haborted
    have hsame := hrow.toAnswer.eq_of_aborted (Bool.eq_true_of_not_eq_false haborted)
    have hanswers := hrow.answers
    rw [hsame, hstack] at hanswers
    cases hanswers
  refine ⟨hfrom.live hq, owned_of_reach (h.trans hto) hfrom ?_⟩
  refine owned_of_borrows (t := t) (.inside (.draining stage)) ((h.trans hto).trans hfrom) hq ?_ rfl
  rw [hstack]
  exact List.mem_cons_self

/-- What follows each step of the first drain follows the first drain. -/
theorem InARow.simulated (h : (machine plan next).Reach (start world codes) s)
    (hrow : InARow plan next t a b k k' rest outcome s l e q s')
    {s₁ s₂ : State κ ω (Pipeline κ V E) (Call κ V E) Answer (Event V E ν)}
    {R : State κ ω (Pipeline κ V E) (Call κ V E) Answer (Event V E ν) →
      State κ ω (Pipeline κ V E) (Call κ V E) Answer (Event V E ν) → Prop}
    {P : State κ ω (Pipeline κ V E) (Call κ V E) Answer (Event V E ν) → Prop}
    (hto : (machine plan next).Reach s s₁) (hfrom : (machine plan next).Reach s₂ q)
    (hwhile : (machine plan next).ReachWhile P s₁ s₂) (hR : R s₁ y)
    (habreast : ∀ {x y x' u choice}, (machine plan next).Reach (start world codes) x →
      (machine plan next).Reach s₁ x → (machine plan next).Reach x s₂ → P x → R x y →
      (machine plan next).step u choice x = some x' →
      x'.aborted = false → x.shared.owned = true → x'.shared.owned = true →
      ∃ y', (machine plan next).Reach y y' ∧ R x' y') :
    ∃ y', (machine plan next).Reach y y' ∧ R s₂ y' := by
  refine hwhile.simulated hR fun x y u choice x' hx hP hxy hstep hx' => ?_
  have hx₀ := hto.trans hx
  have hfrom' := (Machine.Reach.start.step u choice hstep).trans hx'
  have hnow := hrow.standing h hx₀ (hfrom'.trans hfrom)
  have hthen := hrow.standing h (hx₀.step u choice hstep) (hx'.trans hfrom)
  exact habreast (h.trans hx₀) hx hfrom' hP hxy hstep hthen.1 hnow.2 hthen.2

/-- **The first drain.** When it has ended, the single drain stands in its loop: it may deliver as
many as the second one, or it may deliver more but will not find any. -/
theorem InARow.first (h : (machine plan next).Reach (start world codes) s)
    (hrow : InARow plan next t a b k k' rest outcome s l e q s')
    (hquiet : StaysQuiet t (.wait k :: rest) l q) :
    ∃ j, (j = b ∨ 0 < j ∧ ∀ x, (machine plan next).Reach e x → (machine plan next).Reach x q →
        x.shared.finished.value = []) ∧
      (machine plan next).Reach
        (s.withStack t (.call (.opening (.drain (some (a + b)))) :: .wait k' :: rest))
        (beside t id (· + 1) (.call (.inside (.draining (.going j))) :: .wait k' :: rest) e) := by
  obtain ⟨position, hends, -⟩ := hrow.ends
  have hs : Abreast a b (.wait k :: rest) (.wait k' :: rest) rest t s
      (s.withStack t (.call (.opening (.drain (some (a + b)))) :: .wait k' :: rest)) :=
    .leading ⟨id, id, _, by rw [hrow.begins]; exact .opening, rfl⟩
  have hover : ∀ {j y}, Goes (Left b j (.wait k :: rest) (.wait k' :: rest) rest) t e y →
      y = beside t id (· + 1) (.call (.inside (.draining (.going j))) :: .wait k' :: rest) e := by
    rintro j y ⟨g, c, frames, hleft, rfl⟩
    rw [hends] at hleft
    cases hleft
    rfl
  obtain ⟨y, hy, hl⟩ := hrow.simulated h .start (hrow.toEnd.reach.trans hrow.toFirst) hrow.toLook hs
    fun hx _ _ hpursues habreast hstep hlive' howned howned' =>
      habreast.step hx hpursues hstep hlive' howned howned'
  cases hquiet with
  | spent hall =>
      obtain ⟨y', hy', he⟩ := hrow.simulated h hrow.toLook.reach hrow.toFirst hrow.toEnd
        (hl.last hall) fun hx _ _ hpursues hgoes hstep _ _ howned' =>
          hgoes.step_left hx hpursues hstep howned'
      rw [hover he] at hy'
      exact ⟨b, .inl rfl, hy.trans hy'⟩
  | empty stage hstack hlooks hnone hquiet =>
      obtain ⟨y', hy', he⟩ := hrow.simulated h hrow.toLook.reach hrow.toFirst hrow.toEnd hl
        fun hx _ _ hpursues habreast hstep hlive' howned howned' =>
          habreast.step hx hpursues hstep hlive' howned howned'
      cases he with
      | leading hgoes =>
          obtain ⟨g, c, frames, hlead, -⟩ := hgoes
          obtain ⟨above, call, hcall⟩ := hlead.exists_call
          exact absurd (hcall.symm.trans hends) ne_of_pursued
      | left j hj hgoes =>
          rw [hover hgoes] at hy'
          refine ⟨j, hj.imp_right fun hpos => ⟨hpos, fun x hx hx' => ?_⟩, hy.trans hy'⟩
          exact value_eq_nil_of_quiet (h.trans hrow.toLook.reach) (hrow.toEnd.reach.trans hx) hx'
            hnone hquiet
      | failing fault hstack => cases hends.symm.trans hstack

/-- **The second drain, up to its first look.** The single drain looks when the second does, and
finds no result either, or has looked for its answer too, or stands just as the second. -/
theorem InARow.second (h : (machine plan next).Reach (start world codes) s)
    (hrow : InARow plan next t a b k k' rest outcome s l e q s')
    (hj : j = b ∨ 0 < j ∧ ∀ x, (machine plan next).Reach e x → (machine plan next).Reach x q →
      x.shared.finished.value = []) :
    ∃ y, (machine plan next).Reach
        (beside t id (· + 1) (.call (.inside (.draining (.going j))) :: .wait k' :: rest) e) y ∧
      Goes (Level (.wait k' :: rest)) t q y := by
  obtain ⟨position, hends, hnext⟩ := hrow.ends
  have hnext' : (machine plan next).next position = .call (.opening (.drain (some b))) k' :=
    congrArg (Move.map Request.call Event.note) hnext
  have he : Goes (Between b j position (.wait k' :: rest) rest) t e
      (beside t id (· + 1) (.call (.inside (.draining (.going j))) :: .wait k' :: rest) e) :=
    ⟨id, (· + 1), _, by rw [hends]; exact .ended, rfl⟩
  have hbeside : ∃ y, (machine plan next).Reach
      (beside t id (· + 1) (.call (.inside (.draining (.going j))) :: .wait k' :: rest) e) y ∧
        (Goes (Between b j position (.wait k' :: rest) rest) t q y ∨
          Goes (Level (.wait k' :: rest)) t q y) := by
    refine hrow.simulated h (hrow.toLook.reach.trans hrow.toEnd.reach) .start
      hrow.toFirst.reachWhile (R := fun x y =>
        Goes (Between b j position (.wait k' :: rest) rest) t x y ∨
          Goes (Level (.wait k' :: rest)) t x y) (.inl he) ?_
    rintro x y x' u choice hx hex hxq - hgoes hstep - howned howned'
    by_cases hu : u = t
    · subst hu
      rcases hgoes with ⟨g, c, frames, hbetween, rfl⟩ | ⟨g, c, frames, hlevel, rfl⟩
      · have hj' : j = b ∨ 0 < j ∧ x.shared.finished.value = [] :=
          hj.imp_right fun ⟨hpos, hnone⟩ => ⟨hpos, hnone x hex hxq⟩
        rcases hbetween.of_own hx hstep hnext' howned hj' with ⟨y', hy', h'⟩ | ⟨y', hy', h'⟩
        · exact ⟨y', hy', .inl h'⟩
        · exact ⟨y', hy', .inr h'⟩
      · obtain ⟨y', hy', h'⟩ := hlevel.of_own hstep
        exact ⟨y', hy', .inr h'⟩
    · rcases hgoes with hgoes | hgoes
      · obtain ⟨y', hy', h'⟩ := hgoes.of_other hx hu hstep fun hbetween => hbetween.unseen howned'
        exact ⟨y', hy', .inl h'⟩
      · obtain ⟨y', hy', h'⟩ := hgoes.of_other hx hu hstep Level.unseen
        exact ⟨y', hy', .inr h'⟩
  obtain ⟨y, hy, hq⟩ := hbeside
  rcases hq with ⟨g, c, frames, hbetween, -⟩ | hlevel
  · obtain ⟨stage, hstack, hlooked⟩ := hrow.looked
    rw [hstack] at hbetween
    cases hbetween <;> exact hlooked.elim
  · exact ⟨y, hy, hlevel⟩

end Row

/-- The code that waits for a call. -/
def awaiting (frames : Stack Quester (Call Quester Unit Unit) Answer) :
    Except Fault Answer → Quester :=
  match frames with
  | _ :: .wait k :: _ => k
  | _ => fun _ => pure (.ok ())

end Offload.Pipeline
