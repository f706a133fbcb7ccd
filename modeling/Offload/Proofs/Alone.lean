import Offload.Proofs.Scene

/-!
# What a thread comes to by itself

While the other threads stand still, a thread goes on from what it shares with them, from the world
and from its own layers. It **comes** to a condition if it can make steps until the condition holds,
whatever the scheduler chooses: so no choice keeps it from coming there.

A state in which one thread has gone on by itself is the state before with the shared state, the
world, the layers of that thread and the log replaced (`State.going`), so a run of one thread is a
chain of such states.

## Main results

* `Machine.Comes.bind`: what a thread comes to in two parts.
* `Machine.Comes.passes`: a run of no other thread comes there or is on its way.
* `Machine.Comes.turn` and its like: what a thread comes to from its topmost layer.
-/

namespace Offload

variable {κ ω σ γ α ρ ε : Type}

namespace State

variable {s : State κ ω σ γ α ε} {t : Tid}

/-- The state in which thread `t` has gone on by itself: it has left the shared state, the world and
its own layers like this, and has noted these events. -/
def going (s : State κ ω σ γ α ε) (t : Tid) (shared : σ) (world : ω) (frames : Stack κ γ α)
    (events : List ε) : State κ ω σ γ α ε :=
  { (s.withStack t frames).noting t events with shared := shared, world := world }

variable {shared shared' : σ} {world world' : ω} {frames frames' : Stack κ γ α}
  {events events' : List ε}

@[simp] theorem going_shared : (s.going t shared world frames events).shared = shared := rfl

@[simp] theorem going_world : (s.going t shared world frames events).world = world := rfl

@[simp] theorem going_aborted : (s.going t shared world frames events).aborted = s.aborted := rfl

/-- A thread that is doing something is one of the state's threads. -/
theorem lt_of_stack_ne_nil (h : s.stack t ≠ []) : t < s.threads.length := by
  by_contra hge
  exact h (by simp [stack, List.getElem?_eq_none (Nat.not_lt.mp hge)])

theorem going_stack (ht : t < s.threads.length) :
    (s.going t shared world frames events).stack t = frames := by
  show (s.threads.set t frames)[t]?.getD [] = frames
  rw [List.getElem?_set_self ht]
  rfl

theorem going_history : (s.going t shared world frames events).history =
    s.history ++ events.map (Prod.mk t) :=
  history_noting (s.withStack t frames) t events

theorem going_going :
    (s.going t shared world frames events).going t shared' world' frames' events' =
      s.going t shared' world' frames' (events ++ events') := by
  simp [going, withStack, noting, List.foldl_append, List.set_set]

@[simp] theorem going_withStack : (s.going t shared world frames events).withStack t frames' =
    s.going t shared world frames' events := by
  simp [going, withStack, noting, List.set_set]

@[simp] theorem going_noting : (s.going t shared world frames events).noting t events' =
    s.going t shared world frames (events ++ events') := by
  simp [going, withStack, noting, List.foldl_append]

/-- Before it has gone on, the state is as it is. -/
theorem going_self (ht : t < s.threads.length) :
    s.going t s.shared s.world (s.stack t) [] = s := by
  have hstack : s.stack t = s.threads[t] := by
    rw [stack, List.getElem?_eq_getElem ht]
    rfl
  have hset : s.threads.set t (s.stack t) = s.threads := by
    rw [hstack, List.set_getElem_self]
  show { s with threads := s.threads.set t (s.stack t) } = s
  rw [hset]

end State

namespace Machine

/-- Whether thread `t` comes to `Q` by itself, whatever the scheduler chooses. -/
inductive Comes (m : Machine κ ω σ γ α ρ ε) (t : Tid) (Q : State κ ω σ γ α ε → Prop) :
    State κ ω σ γ α ε → Prop where
  | here {s : State κ ω σ γ α ε} : Q s → Comes m t Q s
  | step {s : State κ ω σ γ α ε} (after : Choice → State κ ω σ γ α ε) :
      (∀ choice, m.step t choice s = some (after choice)) →
      (∀ choice, Comes m t Q (after choice)) → Comes m t Q s

variable {m : Machine κ ω σ γ α ρ ε} {t : Tid} {P Q : State κ ω σ γ α ε → Prop}
  {s s' : State κ ω σ γ α ε}

/-- What a thread comes to in two parts. -/
theorem Comes.bind (h : m.Comes t P s) (hnext : ∀ s', P s' → m.Comes t Q s') : m.Comes t Q s := by
  induction h with
  | here hP => exact hnext _ hP
  | step after hstep _ ih => exact .step after hstep ih

theorem Comes.mono (h : m.Comes t P s) (himp : ∀ s', P s' → Q s') : m.Comes t Q s :=
  h.bind fun s' hP => .here (himp s' hP)

/-- **A run of no other thread** comes there, or is on its way and goes on. -/
theorem Comes.passes (h : m.Comes t Q s)
    (hothers : ∀ s', m.Reach s s' → ∀ u ≠ t, ∀ choice, m.step u choice s' = none)
    (hreach : m.Reach s s') :
    (∃ s₁, m.Reach s s₁ ∧ m.Reach s₁ s' ∧ Q s₁) ∨
      m.Comes t Q s' ∧ ∀ choice, (m.step t choice s').isSome = true := by
  have hpasses : ∀ {s'}, m.Reach s s' →
      (∃ s₁, m.Reach s s₁ ∧ m.Reach s₁ s' ∧ Q s₁) ∨ m.Comes t Q s' := by
    intro s' hreach
    induction hreach with
    | start => exact .inr h
    | @step s₂ s₃ u choice hs hstep ih =>
        rcases ih with ⟨s₁, hto, hfrom, hQ⟩ | hcomes
        · exact .inl ⟨s₁, hto, .step u choice hfrom hstep, hQ⟩
        · by_cases hu : u = t
          · subst hu
            cases hcomes with
            | here hQ => exact .inl ⟨s₂, hs, .step u choice .start hstep, hQ⟩
            | step after hafter hcomes =>
                cases (hafter choice).symm.trans hstep
                exact .inr (hcomes choice)
          · rw [hothers s₂ hs u hu choice] at hstep
            cases hstep
  rcases hpasses hreach with hpassed | hcomes
  · exact .inl hpassed
  · cases hcomes with
    | here hQ => exact .inl ⟨s', hreach, .start, hQ⟩
    | step after hafter hcomes =>
        exact .inr ⟨.step after hafter hcomes, fun choice => by rw [hafter choice]; rfl⟩

/-- A thread goes on from where it stands. -/
theorem Comes.of_going (ht : t < s.threads.length)
    (h : m.Comes t Q (s.going t s.shared s.world (s.stack t) [])) : m.Comes t Q s := by
  rwa [State.going_self ht] at h

/-! ### From the topmost layer -/

section Layers

variable {shared shared' : σ} {world world' : ω} {rest : Stack κ γ α} {events events' : List ε}
  {position position' : κ} {call : γ}

/-- A thread that has gone on by itself goes on by a turn of its topmost call. -/
theorem step_going {choice : Choice} {r : Turn κ γ α} (hlive : s.aborted = false)
    (ht : t < s.threads.length)
    (hturn : m.turn t choice shared call = some (shared', events', r)) (hr : r ≠ .abort) :
    m.step t choice (s.going t shared world (.call call :: rest) events) =
      some (s.going t shared' world (afterTurn rest r) (events ++ events')) := by
  rw [Machine.step, State.going_aborted, hlive, if_neg Bool.false_ne_true, stepThread,
    State.going_stack ht]
  simp only [State.going_shared, hturn, Option.map_some, State.going_withStack,
    State.going_noting]
  cases r with
  | abort => exact absurd rfl hr
  | stay _ | run _ _ | ret _ | fail _ => rfl

/-- A thread whose topmost call makes the same step whatever the scheduler chooses. -/
theorem Comes.turn {r : Turn κ γ α} (hlive : s.aborted = false) (ht : t < s.threads.length)
    (hturn : ∀ choice, m.turn t choice shared call = some (shared', events', r)) (hr : r ≠ .abort)
    (h : m.Comes t Q (s.going t shared' world (afterTurn rest r) (events ++ events'))) :
    m.Comes t Q (s.going t shared world (.call call :: rest) events) :=
  .step _ (fun choice => step_going hlive ht (hturn choice) hr) fun _ => h

/-- A thread whose topmost code makes a call. -/
theorem Comes.called {k : Except Fault α → κ} (hlive : s.aborted = false)
    (ht : t < s.threads.length) (hnext : m.next position = .call call k)
    (h : m.Comes t Q (s.going t shared world (.call call :: .wait k :: rest) events)) :
    m.Comes t Q (s.going t shared world (.code position :: rest) events) := by
  refine .step _ (fun choice => ?_) fun _ => h
  rw [Machine.step, State.going_aborted, hlive, if_neg Bool.false_ne_true, stepThread,
    State.going_stack ht]
  simp only [hnext, State.going_withStack]

/-- A thread whose topmost code notes an event. -/
theorem Comes.noted {event : ε} (hlive : s.aborted = false) (ht : t < s.threads.length)
    (hnext : m.next position = .note event position')
    (h : m.Comes t Q (s.going t shared world (.code position' :: rest) (events ++ [event]))) :
    m.Comes t Q (s.going t shared world (.code position :: rest) events) := by
  refine .step _ (fun choice => ?_) fun _ => h
  rw [Machine.step, State.going_aborted, hlive, if_neg Bool.false_ne_true, stepThread,
    State.going_stack ht]
  simp only [hnext, State.going_withStack, State.going_noting]

/-- A thread whose topmost code acts on the world, and never has to wait. -/
theorem Comes.acted {f : Tid → Choice → ω → Option (ω × κ)} {after : Choice → ω × κ}
    (hlive : s.aborted = false) (ht : t < s.threads.length) (hnext : m.next position = .act f)
    (hf : ∀ choice, f t choice world = some (after choice))
    (h : ∀ choice, m.Comes t Q
      (s.going t shared (after choice).1 (.code (after choice).2 :: rest) events)) :
    m.Comes t Q (s.going t shared world (.code position :: rest) events) := by
  refine .step _ (fun choice => ?_) h
  rw [Machine.step, State.going_aborted, hlive, if_neg Bool.false_ne_true, stepThread,
    State.going_stack ht]
  simp only [hnext, State.going_world, hf choice, Option.map_some, State.going_withStack]
  rfl

/-- A thread whose topmost code ends. -/
theorem Comes.ended {ended : Except Fault ρ} (hlive : s.aborted = false)
    (ht : t < s.threads.length) (hended : (m.next position).ended? = some ended)
    (h : m.Comes t Q (s.going t shared world (m.finishCode ended rest) events)) :
    m.Comes t Q (s.going t shared world (.code position :: rest) events) := by
  refine .step _ (fun choice => ?_) fun _ => h
  rw [Machine.step, State.going_aborted, hlive, if_neg Bool.false_ne_true, stepThread,
    State.going_stack ht]
  cases hnext : m.next position with
  | ret result | fail fault =>
      rw [hnext] at hended
      cases hended
      simp only [hnext, State.going_withStack]
  | note _ _ | act _ | call _ _ =>
      rw [hnext] at hended
      cases hended

end Layers

/-! ### A call that goes on -/

/-- Whether a call of thread `t` can go on by itself, without running code, from one stage and what
is shared then to another, and notes these events. -/
inductive GoesOn (m : Machine κ ω σ γ α ρ ε) (t : Tid) (shared : σ) (call : γ) :
    List ε → σ → γ → Prop where
  | start : GoesOn m t shared call [] shared call
  | step {shared' shared'' : σ} {call' call'' : γ} {events events' : List ε} (choice : Choice) :
      GoesOn m t shared call events shared' call' →
      m.turn t choice shared' call' = some (shared'', events', .stay call'') →
      GoesOn m t shared call (events ++ events') shared'' call''

theorem GoesOn.trans {shared shared' shared'' : σ} {call call' call'' : γ} {events events' : List ε}
    (h : m.GoesOn t shared call events shared' call')
    (h' : m.GoesOn t shared' call' events' shared'' call'') :
    m.GoesOn t shared call (events ++ events') shared'' call'' := by
  induction h' with
  | start => rwa [List.append_nil]
  | step choice _ hturn ih =>
      rw [← List.append_assoc]
      exact ih.step choice hturn

/-- What a call goes on to is reached. -/
theorem GoesOn.reach {shared shared' : σ} {call call' : γ} {world : ω} {rest : Stack κ γ α}
    {events : List ε} (h : m.GoesOn t shared call events shared' call') (hlive : s.aborted = false)
    (ht : t < s.threads.length) : m.Reach (s.going t shared world (.call call :: rest) [])
      (s.going t shared' world (.call call' :: rest) events) := by
  induction h with
  | start => exact .start
  | step choice _ hturn ih =>
      exact .step t choice ih (step_going hlive ht hturn (Turn.stay_ne_abort _))

end Machine

end Offload
