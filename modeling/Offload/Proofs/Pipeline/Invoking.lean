import Offload.Proofs.Channel.Credit
import Offload.Proofs.Pipeline.Grants
import Offload.Proofs.Pipeline.Results

/-!
# Who asks for results gets the first

While the pipeline has an owner and results wait, whoever asks for one takes out the first and
delivers it, be it by a drain or by an await of any kind, and whatever has become of the worker. The
call has nine steps to go at most until the callback has been called, and at each of them it can be
made or waits for a lock; meanwhile others may take out what waited first, and even all of it.

## Main results

* `Use.seeks_of_turn`, `Use.hands_of_turn`: one step of a use that asks for a result.
* `delivered_since`: what asks for a result delivers one.
-/

namespace Offload

/-! ### Pops -/

namespace Channel.Pop

variable {κ α : Type} {t : Tid} {choice : Choice} {c c' : Channel α}
  {marks : List (Mark α)} {p : Pop α} {r : Turn κ (Pop α) (Option α)}

/-- Whether a pop has not slept, and has yet to take an item. -/
def Seeks (p : Pop α) : Prop :=
  match p.phase with
  | .arriving | .testing _ | .acting _ => True
  | .drowsy | .asleep | .overslept | .leaving _ => False

/-- How many steps a pop has to go to take an item that is there. -/
def toGo (p : Pop α) : Nat :=
  match p.phase with
  | .arriving => 3
  | .testing _ => 2
  | .acting _ => 1
  | .drowsy | .asleep | .overslept | .leaving _ => 0

theorem toGo_le (p : Pop α) : p.toGo ≤ 3 := by
  unfold toGo
  split <;> decide

/-- While there are items, a pop goes on to take the first. -/
theorem seeks_of_turn {item : α} {rest : List α} (h : p.turn t choice c = some (c', marks, r))
    (hvalue : c.value = item :: rest) (hp : p.Seeks) :
    (∃ p', r = .stay p' ∧ p'.Seeks ∧ p'.toGo < p.toGo ∧ marks = [] ∧ c'.value = c.value) ∨
      ∃ p', r = .stay p' ∧ p'.held = some item ∧ p'.toGo < p.toGo ∧ marks = [.popped item] ∧
        c'.value = rest := by
  obtain ⟨wait, phase⟩ := p
  obtain ⟨⟨c₁, progress⟩, hturn, heq⟩ := Option.map_eq_some_iff.mp h
  cases heq
  cases Visit.turned_of_turn hturn with
  | arrived _ =>
      refine .inl ⟨_, rfl, ?_, ?_, rfl, rfl⟩
      · cases wait <;> trivial
      · cases wait <;> simp [toGo, visit, Visit.plain]
  | tested again hready =>
      rw [await_visit] at hready
      refine .inl ⟨_, rfl, ?_⟩
      have htest : (visit wait : Visit (List α) (Option α)).afterTest choice again
          (ready c.value) = .acting again := by
        rw [hvalue]
        rfl
      cases wait <;> cases hready <;>
      · rw [htest]
        exact ⟨trivial, Nat.lt_succ_self _, rfl, rfl⟩
  | untested again _ => exact .inl ⟨_, rfl, trivial, Nat.lt_succ_self _, rfl, rfl⟩
  | acted again =>
      refine .inr ⟨_, rfl, ?_⟩
      rw [visit_body, hvalue]
      exact ⟨rfl, Nat.lt_succ_self _, rfl, rfl⟩
  | slept | stirred _ | expired _ _ | woken _ _ | wokenLate _ | left _ | leftFaulted _ =>
      exact hp.elim

/-- A pop that holds an item answers with it. -/
theorem turn_of_held {item : α} (h : p.held = some item) :
    p.turn t choice c = some (c.release, [], (.ret (some item) : Turn κ (Pop α) (Option α))) := by
  rw [turn, Phase.held_eq_some (Option.join_eq_some_iff.mp h)]
  rfl

/-- A pop that has yet to take an item goes on when the lock is free, or its own. -/
theorem isSome_turn_of_seeks (hp : p.Seeks) :
    (p.turn t choice c : Option (Channel α × List (Mark α) × Turn κ (Pop α) (Option α))).isSome =
      (p.owns || c.owner.isNone) := by
  obtain ⟨wait, phase⟩ := p
  rw [turn, Option.isSome_map]
  cases phase with
  | arriving =>
      rw [Visit.turn, Option.isSome_map, Monitor.acquire]
      cases c.owner <;> rfl
  | testing again => exact Visit.isSome_turn rfl t choice
  | acting again => rfl
  | drowsy | asleep | overslept | leaving _ => exact hp.elim

end Channel.Pop

namespace Pipeline

variable {κ ω V E ν : Type} {plan : Plan κ} {t : Tid} {choice : Choice}

/-! ### Steps of uses -/

section Steps

variable {s s' : Pipeline κ V E} {events : List (Event V E ν)} {use : Use κ V E}
  {r : Turn κ (Use κ V E) Answer}

namespace Use

/-- Whether a use asks for a result, for which it has not slept yet: a drain that may deliver one
more, or an await. -/
def Seeks (plan : Plan κ) : Use κ V E → Prop
  | .drain max => max.getD plan.settings.batch ≠ 0
  | .draining (.going left) => left ≠ 0
  | .draining (.popping _ p) | .await (.popping p) => p.Seeks
  | _ => False

/-- How many steps a use that asks for a result has to go to deliver one that is there. -/
def toGo : Use κ V E → Nat
  | .drain _ => 7
  | .draining (.going _) => 6
  | .draining (.popping _ p) | .await (.popping p) => p.toGo + 2
  | .draining (.delivering _ _) | .await (.delivering _) => 1
  | _ => 0

theorem toGo_le (use : Use κ V E) : use.toGo ≤ 7 := by
  unfold toGo
  split
  · exact le_refl _
  · decide
  · next p => exact (Nat.add_le_add_right p.toGo_le 2).trans (by decide)
  · next p => exact (Nat.add_le_add_right p.toGo_le 2).trans (by decide)
  · decide
  · decide
  · decide

/-- While results wait, a use that asks for one goes on to take out the first. -/
theorem seeks_of_turn {f : Finished κ V E} {rest : List (Finished κ V E)}
    (h : use.turn plan t choice s = some (s', events, r))
    (hvalue : s.finished.value = f :: rest) (huse : use.Seeks plan) :
    (∃ use', r = .stay use' ∧ use'.Seeks plan ∧ use'.toGo < use.toGo ∧
        s'.finished.value = s.finished.value) ∨
      ∃ use', r = .stay use' ∧ use'.flight? = some f ∧ use'.toGo < use.toGo ∧
        events = [.received f.ticket] ∧ s'.finished.value = rest := by
  cases use with
  | drain max =>
      cases h
      exact .inl ⟨_, rfl, huse, Nat.lt_succ_self _, rfl⟩
  | draining stage =>
      obtain ⟨r', hturn, rfl⟩ := exists_of_nest h
      cases stage with
      | going left =>
          cases left with
          | zero => exact absurd rfl huse
          | succ left =>
              cases hturn
              exact .inl ⟨_, rfl, trivial, Nat.lt_succ_self _, rfl⟩
      | popping left p =>
          obtain ⟨finished, marks, r'', hpop, rfl, rfl, rfl⟩ := exists_of_onFinished hturn
          rcases Channel.Pop.seeks_of_turn hpop hvalue huse with
            ⟨p', rfl, hp', hless, rfl, hsame⟩ | ⟨p', rfl, hheld, hless, rfl, hrest⟩
          · exact .inl ⟨_, rfl, hp', Nat.add_lt_add_right hless 2, hsame⟩
          · exact .inr ⟨_, rfl, hheld, Nat.add_lt_add_right hless 2, rfl, hrest⟩
      | delivering _ _ | checking _ | failing _ => exact huse.elim
  | await stage =>
      obtain ⟨r', hturn, rfl⟩ := exists_of_nest h
      cases stage with
      | popping p =>
          obtain ⟨finished, marks, r'', hpop, rfl, rfl, rfl⟩ := exists_of_onFinished hturn
          rcases Channel.Pop.seeks_of_turn hpop hvalue huse with
            ⟨p', rfl, hp', hless, rfl, hsame⟩ | ⟨p', rfl, hheld, hless, rfl, hrest⟩
          · exact .inl ⟨_, rfl, hp', Nat.add_lt_add_right hless 2, hsame⟩
          · exact .inr ⟨_, rfl, hheld, Nat.add_lt_add_right hless 2, rfl, hrest⟩
      | delivering _ | ending _ => exact huse.elim
  | schedule _ | pendingSize _ | finishedSize _ | busy => exact huse.elim

/-- A use that has taken out a result goes on to deliver it. -/
theorem hands_of_turn {f : Finished κ V E}
    (h : use.turn plan t choice s = some (s', events, r)) (huse : use.flight? = some f) :
    (∃ use', r = .stay use' ∧ use'.flight? = some f ∧ use'.toGo < use.toGo) ∨
      events = [deliveryEvent f] ∧ ∃ after, r = match f.callback? with
        | none => .stay after
        | some code => .run code after := by
  cases use with
  | draining stage =>
      obtain ⟨r', hturn, rfl⟩ := exists_of_nest h
      cases stage with
      | popping left p =>
          obtain ⟨finished, marks, r'', hpop, rfl, rfl, rfl⟩ := exists_of_onFinished hturn
          rw [Channel.Pop.turn_of_held huse] at hpop
          cases hpop
          exact .inl ⟨_, rfl, rfl, by rw [toGo, toGo]; omega⟩
      | delivering left g =>
          obtain rfl : g = f := Option.some.inj huse
          cases hturn
          refine .inr ⟨rfl, .draining (.going left), ?_⟩
          cases g.callback? <;> rfl
      | going _ | checking _ | failing _ => cases huse
  | await stage =>
      obtain ⟨r', hturn, rfl⟩ := exists_of_nest h
      cases stage with
      | popping p =>
          obtain ⟨finished, marks, r'', hpop, rfl, rfl, rfl⟩ := exists_of_onFinished hturn
          rw [Channel.Pop.turn_of_held huse] at hpop
          cases hpop
          exact .inl ⟨_, rfl, rfl, by rw [toGo, toGo]; omega⟩
      | delivering g =>
          obtain rfl : g = f := Option.some.inj huse
          cases hturn
          refine .inr ⟨rfl, .await (.ending (.ok ())), ?_⟩
          cases g.callback? <;> rfl
      | ending _ => cases huse
  | schedule _ | drain _ | pendingSize _ | finishedSize _ | busy => cases huse

/-- A use that asks for a result, or has taken one out, waits for nothing but the lock of the
finished channel. -/
theorem isSome_turn (h : use.Seeks plan ∨ use.flight? ≠ none) :
    (use.turn plan t choice s : Option (Pipeline κ V E × List (Event V E ν) ×
      Turn κ (Use κ V E) Answer)).isSome = isFree s use.wants := by
  have hpop : ∀ p : Channel.Pop (Finished κ V E), p.Seeks ∨ p.held ≠ none →
      (p.turn t choice s.finished : Option (Channel (Finished κ V E) × _ ×
        Turn κ (Channel.Pop (Finished κ V E)) (Option (Finished κ V E)))).isSome =
      isFree s (if p.owns then none else some .finished) := by
    rintro p (hseeks | hheld)
    · rw [Channel.Pop.isSome_turn_of_seeks hseeks]
      cases p.owns <;> rfl
    · obtain ⟨f, hf⟩ := Option.ne_none_iff_exists'.mp hheld
      rw [Channel.Pop.turn_of_held hf, Channel.Pop.owns,
        Phase.held_eq_some (Option.join_eq_some_iff.mp hf)]
      rfl
  cases use with
  | drain max => rfl
  | draining stage =>
      rw [turn, Option.isSome_map]
      cases stage with
      | going left => cases left <;> rfl
      | popping left p => exact (Option.isSome_map ..).trans (hpop p h)
      | delivering left f => rfl
      | checking _ | failing _ => exact (h.elim id fun hne => hne rfl).elim
  | await stage =>
      rw [turn, Option.isSome_map]
      cases stage with
      | popping p => exact (Option.isSome_map ..).trans (hpop p h)
      | delivering f => rfl
      | ending _ => exact (h.elim id fun hne => hne rfl).elim
  | schedule _ | pendingSize _ | finishedSize _ | busy => exact (h.elim id fun hne => hne rfl).elim

end Use

end Steps

/-! ### All runs -/

section Runs

variable {next : κ → Move κ ω (Request κ V E) Answer (Except E V) ν} {world : ω} {codes : List κ}
  {s s' : State κ ω (Pipeline κ V E) (Call κ V E) Answer (Event V E ν)}

/-- Whether thread `t`, on the way from `s` to `s'`, has taken out the result `f` when it was the
first that waited. -/
def TookFirst (plan : Plan κ) (next : κ → Move κ ω (Request κ V E) Answer (Except E V) ν) (t : Tid)
    (s : State κ ω (Pipeline κ V E) (Call κ V E) Answer (Event V E ν)) (f : Finished κ V E)
    (s' : State κ ω (Pipeline κ V E) (Call κ V E) Answer (Event V E ν)) : Prop :=
  ∃ s₁ choice s₂, (machine plan next).Reach s s₁ ∧
    (machine plan next).step t choice s₁ = some s₂ ∧ (machine plan next).Reach s₂ s' ∧
    s₁.shared.finished.value = f :: s₂.shared.finished.value ∧
    s₂.history = s₁.history ++ [(t, .received f.ticket)]

/-- Whether thread `t` has just delivered the result `f`: its callback runs, if it has one that
fits, and the call goes on after that. -/
def JustDelivered (t : Tid) (f : Finished κ V E) (frames : Stack κ (Call κ V E) Answer)
    (s : State κ ω (Pipeline κ V E) (Call κ V E) Answer (Event V E ν)) : Prop :=
  s.history.getLast? = some (t, deliveryEvent f) ∧ ∃ use : Use κ V E,
    s.stack t = (f.callback?.map Frame.code).toList ++ .call (.inside use) :: frames

/-- Whether thread `t` is on its way to deliver a result, with at most `n` steps to go, where `s₀`
is the state in which it began. -/
inductive Invoking (plan : Plan κ) (next : κ → Move κ ω (Request κ V E) Answer (Except E V) ν)
    (t : Tid) (frames : Stack κ (Call κ V E) Answer)
    (s₀ : State κ ω (Pipeline κ V E) (Call κ V E) Answer (Event V E ν)) (n : Nat)
    (s : State κ ω (Pipeline κ V E) (Call κ V E) Answer (Event V E ν)) : Prop where
  /-- The use is about to borrow the pipeline. -/
  | opening (use : Use κ V E) : s.stack t = .call (.opening use) :: frames → use.Seeks plan →
      s.shared.finished.value ≠ [] → use.toGo < n → Invoking plan next t frames s₀ n s
  | seeking (use : Use κ V E) : s.stack t = .call (.inside use) :: frames → use.Seeks plan →
      s.shared.finished.value ≠ [] → use.toGo ≤ n → Invoking plan next t frames s₀ n s
  | handing (use : Use κ V E) (f : Finished κ V E) : s.stack t = .call (.inside use) :: frames →
      use.flight? = some f → TookFirst plan next t s₀ f s → use.toGo ≤ n →
      Invoking plan next t frames s₀ n s

variable {frames : Stack κ (Call κ V E) Answer}
  {s₀ : State κ ω (Pipeline κ V E) (Call κ V E) Answer (Event V E ν)} {n : Nat}

theorem TookFirst.step {u : Tid} {f : Finished κ V E} (h : TookFirst plan next t s f s₀)
    (hstep : (machine plan next).step u choice s₀ = some s') :
    TookFirst plan next t s f s' := by
  obtain ⟨s₁, choice₁, s₂, hto, htook, hfrom, hvalue, hhistory⟩ := h
  exact ⟨s₁, choice₁, s₂, hto, htook, .step u choice hfrom hstep, hvalue, hhistory⟩

/-- **Invoking, a step of another thread.** -/
theorem Invoking.of_other {u : Tid} (h : Invoking plan next t frames s₀ n s) (hu : u ≠ t)
    (hstep : (machine plan next).step u choice s = some s')
    (hwait : s'.shared.finished.value ≠ []) : Invoking plan next t frames s₀ n s' := by
  have hstack := Machine.stack_of_step_ne hstep (Ne.symm hu)
  cases h with
  | opening use hs hseeks _ hle => exact .opening use (hstack.trans hs) hseeks hwait hle
  | seeking use hs hseeks _ hle => exact .seeking use (hstack.trans hs) hseeks hwait hle
  | handing use f hs hflight htook hle =>
      exact .handing use f (hstack.trans hs) hflight (htook.step hstep) hle

/-- **Invoking, a step of its own.** -/
theorem Invoking.of_own (h : Invoking plan next t frames s₀ n s)
    (hreach : (machine plan next).Reach s₀ s) (howned : s.shared.owned = true)
    (hstep : (machine plan next).step t choice s = some s') :
    (∃ n' < n, Invoking plan next t frames s₀ n' s') ∨
      ∃ f, TookFirst plan next t s₀ f s' ∧ JustDelivered t f frames s' := by
  cases h with
  | opening use hs hseeks hwait hlt =>
      obtain ⟨shared, events, r, hturn, hshared, -, hstack⟩ := Machine.turn_of_step hs hstep
      simp only [machine, turn, howned, if_true] at hturn
      cases hturn
      refine .inl ⟨use.toGo, hlt, .seeking use hstack hseeks ?_ (Nat.le_refl _)⟩
      rw [hshared]
      exact hwait
  | seeking use hs hseeks hwait hle =>
      obtain ⟨shared, events, r, hturn, hshared, hhistory, hstack⟩ := Machine.turn_of_step hs hstep
      obtain ⟨r', huse, rfl⟩ := exists_of_nest hturn
      obtain ⟨f, rest, hvalue⟩ := List.exists_cons_of_ne_nil hwait
      rcases Use.seeks_of_turn huse hvalue hseeks with
        ⟨use', rfl, hseeks', hless, hsame⟩ | ⟨use', rfl, hflight, hless, rfl, hrest⟩
      · refine .inl ⟨use'.toGo, hless.trans_le hle, .seeking use' hstack hseeks' ?_ (Nat.le_refl _)⟩
        rw [hshared, hsame]
        exact hwait
      · refine .inl ⟨use'.toGo, hless.trans_le hle,
          .handing use' f hstack hflight ?_ (Nat.le_refl _)⟩
        exact ⟨s, choice, s', hreach, hstep, .start, by rw [hvalue, hshared, hrest], hhistory⟩
  | handing use f hs hflight htook hle =>
      obtain ⟨shared, events, r, hturn, -, hhistory, hstack⟩ := Machine.turn_of_step hs hstep
      obtain ⟨r', huse, rfl⟩ := exists_of_nest hturn
      rcases Use.hands_of_turn huse hflight with ⟨use', rfl, hflight', hless⟩ | ⟨rfl, after, rfl⟩
      · exact .inl ⟨use'.toGo, hless.trans_le hle,
          .handing use' f hstack hflight' (htook.step hstep) (Nat.le_refl _)⟩
      · refine .inr ⟨f, htook.step hstep, by rw [hhistory]; simp, after, ?_⟩
        rw [hstack]
        cases f.callback? <;> rfl

/-- Who is on the way to deliver a result can make a step, or waits for a lock. -/
theorem Invoking.moves_or_waits (h : Invoking plan next t frames s₀ n s)
    (hlive : s.aborted = false) :
    (∀ choice, ((machine plan next).step t choice s).isSome = true) ∨
      ∃ l, locks.Waits (machine plan next) s t l := by
  have hprompt : ∀ use : Use κ V E, use.Seeks plan ∨ use.flight? ≠ none →
      (Call.inside use).IsPrompt plan ν t := by
    intro use huse choice s
    rw [turn, Option.isSome_map, Use.isSome_turn huse]
    rfl
  cases h with
  | opening use hs _ _ _ => exact (Call.isPrompt_opening use).moves_or_waits hlive hs
  | seeking use hs hseeks _ _ => exact (hprompt use (.inl hseeks)).moves_or_waits hlive hs
  | handing use f hs hflight _ _ =>
      refine (hprompt use (.inr ?_)).moves_or_waits hlive hs
      rw [hflight]
      exact Option.some_ne_none f

/-- **Results are delivered.** A thread that asks for a result while some wait, or for one more, has
delivered the first that waited when it took one out, in every later state in which the pipeline has
an owner; or others have taken out all that waited; or it is on its way: it has made as few steps as
it had to go, and can make the next one, or waits for a lock. -/
theorem delivered_since (h : (machine plan next).Reach (start world codes) s) {use : Use κ V E}
    (hseeks : use.Seeks plan)
    (hstack : s.stack t = .call (.opening use) :: frames ∨
      s.stack t = .call (.inside use) :: frames)
    (hwait : s.shared.finished.value ≠ []) {k : Nat}
    (h' : (machine plan next).Observed (Machine.ownSteps t) s 0 s' k) (hlive : s'.aborted = false)
    (howned : s'.shared.owned = true) :
    (∃ s₁, (machine plan next).Reach s s₁ ∧ (machine plan next).Reach s₁ s' ∧
        (s₁.shared.finished.value = [] ∨
          ∃ f, TookFirst plan next t s f s₁ ∧ JustDelivered t f frames s₁)) ∨
      k ≤ use.toGo + 1 ∧ ((∀ choice, ((machine plan next).step t choice s').isSome = true) ∨
        ∃ l, locks.Waits (machine plan next) s' t l) := by
  have hnears := h'.nears (n := use.toGo + 1)
    (P := fun n s' => (machine plan next).Reach s s' ∧ Invoking plan next t frames s n s')
    (Q := fun s' => s'.shared.owned = true → s'.shared.finished.value = [] ∨
      ∃ f, TookFirst plan next t s f s' ∧ JustDelivered t f frames s')
    ?own ?others ⟨.start, hstack.elim
      (fun hs => .opening use hs hseeks hwait (Nat.lt_succ_self _))
      fun hs => .seeking use hs hseeks hwait (Nat.le_succ _)⟩
  case own =>
    rintro n s₁ choice s₂ ⟨hs₁, hinvoking⟩ hstep
    have hs₂ := Machine.Reach.step t choice hs₁ hstep
    by_cases howned₂ : s₂.shared.owned = true
    · have howned₁ := owned_of_reach (h.trans hs₁) (.step t choice .start hstep) howned₂
      rcases hinvoking.of_own hs₁ howned₁ hstep with ⟨n', hlt, hinvoking'⟩ | hend
      · exact .inr ⟨n', hlt, hs₂, hinvoking'⟩
      · exact .inl fun _ => .inr hend
    · exact .inl fun howned => absurd howned howned₂
  case others =>
    rintro n s₁ u choice s₂ hu ⟨hs₁, hinvoking⟩ hstep
    by_cases hempty : s₂.shared.finished.value = []
    · exact .inl fun _ => .inl hempty
    · exact .inr ⟨.step u choice hs₁ hstep, hinvoking.of_other hu hstep hempty⟩
  rcases hnears with ⟨s₁, hto, hfrom, hend⟩ | ⟨n', hle, hs', hinvoking⟩
  · exact .inl ⟨s₁, hto, hfrom, hend (owned_of_reach (h.trans hto) hfrom howned)⟩
  · exact .inr ⟨(Nat.le_add_left _ _).trans hle, hinvoking.moves_or_waits hlive⟩

end Runs

end Pipeline

end Offload
