import Offload.Proofs.Alone
import Offload.Proofs.Leads

/-!
# Runs side by side

What a thread does next depends on its topmost layer, on what is shared and on the world. It depends
neither on the layers below, nor on what other threads are doing, nor on the log. So a run also goes
from a state that differs from its first one where nothing looks, and two runs can be compared step
by step: the **twin** of a state has the same world, log and threads, but for one thread and for
what is shared.

## Main definitions

* `Machine.effect`: what one step makes of what is shared, of the world, and of the layers below.
* `State.twin`: a state with what is shared and the layers of one thread replaced.
* `Machine.ReachWhile`: a run all of whose states but the last are of one kind.
* `Machine.Runs`: such a run, with its schedule.

## Main results

* `Machine.step_eq`: one step is the effect of the topmost layer.
* `Machine.Reach.relogged`: the log does not matter.
* `Machine.step_other`, `Machine.step_above`: what other threads do, and what code does above a
  call, it does in a twin too.
* `Machine.ReachWhile.invariant`: what each step on the way keeps.
* `Machine.ReachWhile.simulated`: a run that is followed step by step is followed.
-/

namespace Offload

variable {κ ω σ γ α ρ ε : Type}

/-- The same state, stopped or not. -/
def State.stopped (s : State κ ω σ γ α ε) (aborted : Bool) : State κ ω σ γ α ε :=
  { s with aborted := aborted }

namespace Machine

variable {m : Machine κ ω σ γ α ρ ε} {t u : Tid} {choice : Choice} {s s' : State κ ω σ γ α ε}

/-! ### The effect of a layer -/

/-- What one step makes of the layers below the topmost one. -/
inductive Effect (κ γ α ρ : Type) where
  | ended (result : Except Fault ρ)
  | moved (position : κ)
  | called (call : γ) (k : Except Fault α → κ)
  | turned (r : Turn κ γ α)

/-- The layers after a step, with those that were below the topmost one. -/
def Effect.layers (m : Machine κ ω σ γ α ρ ε) : Effect κ γ α ρ → Stack κ γ α → Stack κ γ α
  | .ended result, rest => m.finishCode result rest
  | .moved position, rest => .code position :: rest
  | .called call k, rest => .call call :: .wait k :: rest
  | .turned r, rest => afterTurn rest r

/-- Whether everything stops. -/
def Effect.aborts : Effect κ γ α ρ → Bool
  | .turned .abort => true
  | _ => false

/-- What one step of a thread with this topmost layer makes of what is shared and of the world, and
what it notes. -/
def effect (m : Machine κ ω σ γ α ρ ε) (t : Tid) (choice : Choice) (shared : σ) (world : ω) :
    Frame κ γ α → Option (σ × ω × List ε × Effect κ γ α ρ)
  | .wait _ => none
  | .code position =>
    match m.next position with
    | .ret result => some (shared, world, [], .ended (.ok result))
    | .fail fault => some (shared, world, [], .ended (.error fault))
    | .note event rest => some (shared, world, [event], .moved rest)
    | .act f => (f t choice world).map fun (world', rest) => (shared, world', [], .moved rest)
    | .call call k => some (shared, world, [], .called call k)
  | .call call =>
    (m.turn t choice shared call).map fun (shared', events, r) =>
      (shared', world, events, .turned r)

/-- **One step** of a thread is the effect of its topmost layer. -/
theorem step_eq {frame : Frame κ γ α} {rest : Stack κ γ α} (hlive : s.aborted = false)
    (hstack : s.stack t = frame :: rest) : m.step t choice s =
      (m.effect t choice s.shared s.world frame).map fun (shared, world, events, e) =>
        (s.going t shared world (e.layers m rest) events).stopped e.aborts := by
  obtain ⟨shared₀, world₀, threads, log, aborted⟩ := s
  obtain rfl : aborted = false := hlive
  rw [step, if_neg Bool.false_ne_true, stepThread, hstack]
  cases frame with
  | wait k => rfl
  | code position =>
      simp only [effect]
      cases m.next position with
      | ret _ | fail _ | note _ _ | call _ _ => rfl
      | act f =>
          dsimp only
          cases f t choice world₀ <;> rfl
  | call call =>
      simp only [effect]
      rw [Option.map_map]
      refine congrArg (Option.map · _) (funext ?_)
      rintro ⟨shared, events, r⟩
      cases r <;> rfl

/-- Every step is the effect of a layer. -/
theorem exists_effect (h : m.step t choice s = some s') :
    s.aborted = false ∧ t < s.threads.length ∧ ∃ frame rest shared world events e,
      s.stack t = frame :: rest ∧
      m.effect t choice s.shared s.world frame = some (shared, world, events, e) ∧
      s' = (s.going t shared world (e.layers m rest) events).stopped e.aborts := by
  have hlive := (stepped_of_step h).1
  refine ⟨hlive, lt_of_step h, ?_⟩
  cases hstack : s.stack t with
  | nil =>
      rw [step_eq_none fun _ => hstack] at h
      cases h
  | cons frame rest =>
      rw [step_eq hlive hstack] at h
      obtain ⟨⟨shared, world, events, e⟩, heffect, rfl⟩ := Option.map_eq_some_iff.mp h
      exact ⟨frame, rest, shared, world, events, e, rfl, heffect, rfl⟩

/-! ### The log -/

/-- A step adds events of its thread to the history. -/
theorem exists_events_of_step (h : m.step t choice s = some s') :
    ∃ events : List ε, s'.history = s.history ++ events.map (Prod.mk t) := by
  obtain ⟨-, -, frame, rest, shared, world, events, e, -, -, rfl⟩ := exists_effect h
  exact ⟨events, State.history_noting (s.withStack t (e.layers m rest)) t events⟩

/-- Who has noted something is one of the threads of the run. -/
theorem Reach.lt_of_mem_history {s₀ : State κ ω σ γ α ε} (h : m.Reach s₀ s)
    (hs₀ : s₀.history = []) : ∀ entry ∈ s.history, entry.1 < s.threads.length := by
  induction h with
  | start => simp [hs₀]
  | @step s s' t choice hreach hstep ih =>
      have hthreads : s'.threads.length = s.threads.length :=
        (Reach.start.step t choice hstep).length_threads
      obtain ⟨events, hevents⟩ := exists_events_of_step hstep
      intro entry hmem
      rw [hevents, List.mem_append, List.mem_map] at hmem
      rw [hthreads]
      rcases hmem with hmem | ⟨event, -, rfl⟩
      · exact ih entry hmem
      · exact lt_of_step hstep

/-- A step does the same on another log. -/
theorem step_relogged (h : m.step t choice s = some s') : ∃ new, s'.log = new ++ s.log ∧
    ∀ log, m.step t choice { s with log := log } = some { s' with log := new ++ log } := by
  obtain ⟨hlive, -, frame, rest, shared, world, events, e, hstack, heffect, rfl⟩ := exists_effect h
  have hlog : ∀ log : List (Tid × ε), events.foldl (fun log event => (t, event) :: log) log =
      (events.map (Prod.mk t)).reverse ++ log := by
    intro log
    induction events generalizing log with
    | nil => rfl
    | cons event events ih => simp
  refine ⟨(events.map (Prod.mk t)).reverse, hlog s.log, fun log => ?_⟩
  have hlive' : { s with log := log }.aborted = false := hlive
  rw [← hlog log, step_eq hlive' (show { s with log := log }.stack t = frame :: rest from hstack),
    heffect]
  rfl

/-- **The log does not matter**: a run goes from the same state with another log, and adds the same
to it. -/
theorem Reach.relogged (h : m.Reach s s') : ∃ new, s'.log = new ++ s.log ∧
    ∀ log, m.Reach { s with log := log } { s' with log := new ++ log } := by
  induction h with
  | start => exact ⟨[], rfl, fun _ => .start⟩
  | step t choice _ hstep ih =>
      obtain ⟨new, hnew, hreach⟩ := ih
      obtain ⟨new', hnew', hstep'⟩ := step_relogged hstep
      refine ⟨new' ++ new, by rw [hnew', hnew, List.append_assoc], fun log => ?_⟩
      rw [List.append_assoc]
      exact .step t choice (hreach log) (hstep' (new ++ log))

end Machine

/-! ### Twins -/

namespace State

variable {s : State κ ω σ γ α ε} {t u : Tid} {shared shared' : σ} {frames frames' : Stack κ γ α}

/-- The same state, except for what is shared and for the layers of thread `t`. -/
def twin (s : State κ ω σ γ α ε) (t : Tid) (shared : σ) (frames : Stack κ γ α) :
    State κ ω σ γ α ε :=
  s.going t shared s.world frames []

@[simp] theorem twin_shared : (s.twin t shared frames).shared = shared := rfl

@[simp] theorem twin_world : (s.twin t shared frames).world = s.world := rfl

theorem twin_stack (ht : t < s.threads.length) : (s.twin t shared frames).stack t = frames :=
  going_stack ht

theorem twin_stack_ne (hu : u ≠ t) : (s.twin t shared frames).stack u = s.stack u :=
  stack_withStack_ne frames hu

/-- A state is its own twin. -/
theorem twin_self (ht : t < s.threads.length) : s.twin t s.shared (s.stack t) = s :=
  going_self ht

/-- What a thread has done by itself, it has done in a twin. -/
theorem going_twin {world : ω} {events : List ε} :
    (s.going t shared world frames events).twin t shared' frames' =
      s.going t shared' world frames' events := by
  rw [twin, going_world, going_going, List.append_nil]

/-- The twin of a twin. -/
theorem twin_twin : (s.twin t shared frames).twin t shared' frames' = s.twin t shared' frames' :=
  going_twin

theorem twin_going {world : ω} {events : List ε} :
    (s.twin t shared frames).going t shared' world frames' events =
      s.going t shared' world frames' events :=
  going_going

/-- What another thread does by itself, it does beside the twin. -/
theorem twin_going_ne {world : ω} {events : List ε} (hu : u ≠ t) :
    (s.twin t shared frames).going u shared' world frames' events =
      (s.going u shared' world frames' events).twin t shared' frames := by
  simp [twin, going, withStack, noting, List.set_comm _ _ hu]

end State

namespace Machine

variable {m : Machine κ ω σ γ α ρ ε} {t u : Tid} {choice : Choice} {s s' : State κ ω σ γ α ε}

/-- A thread that makes a call goes on by itself by a turn of it. -/
theorem eq_of_turn {call : γ} {rest : Stack κ γ α} (hstack : s.stack t = .call call :: rest)
    (h : m.step t choice s = some s') : ∃ shared events r,
      m.turn t choice s.shared call = some (shared, events, r) ∧
      (r ≠ .abort → s' = s.going t shared s.world (afterTurn rest r) events) := by
  obtain ⟨hlive, -, frame, rest', shared, world, events, e, hstack', heffect, rfl⟩ :=
    exists_effect h
  cases hstack.symm.trans hstack'
  obtain ⟨⟨shared', events', r⟩, hturn, heq⟩ := Option.map_eq_some_iff.mp heffect
  cases heq
  refine ⟨shared, events, r, hturn, fun hr => ?_⟩
  have haborts : (Effect.turned r : Effect κ γ α ρ).aborts = s.aborted := by
    rw [hlive]
    cases r with
    | abort => exact absurd rfl hr
    | stay _ | run _ _ | ret _ | fail _ => rfl
  rw [haborts]
  rfl

/-- **What another thread does** it does beside a twin, if its calls do the same to what is shared
there. -/
theorem step_other {f : σ → σ} {frames : Stack κ γ α} (hu : u ≠ t)
    (h : m.step u choice s = some s')
    (hturn : ∀ call rest shared events r, s.stack u = .call call :: rest →
      m.turn u choice s.shared call = some (shared, events, r) →
      m.turn u choice (f s.shared) call = some (f shared, events, r)) :
    m.step u choice (s.twin t (f s.shared) frames) = some (s'.twin t (f s'.shared) frames) := by
  obtain ⟨hlive, -, frame, rest, shared, world, events, e, hstack, heffect, rfl⟩ := exists_effect h
  have hsame :
      m.effect u choice (f s.shared) s.world frame = some (f shared, world, events, e) := by
    cases frame with
    | wait k => cases heffect
    | code position =>
        simp only [effect] at heffect ⊢
        cases hnext : m.next position with
        | ret _ | fail _ | note _ _ | call _ _ =>
            rw [hnext] at heffect
            cases heffect
            rfl
        | act act =>
            rw [hnext] at heffect
            obtain ⟨⟨world', position'⟩, hact, heq⟩ := Option.map_eq_some_iff.mp heffect
            cases heq
            simp [hact]
    | call call =>
        obtain ⟨⟨shared', events', r⟩, hcall, heq⟩ := Option.map_eq_some_iff.mp heffect
        cases heq
        simp [effect, hturn call rest _ _ _ hstack hcall]
  have hstack' : (s.twin t (f s.shared) frames).stack u = frame :: rest :=
    (State.twin_stack_ne hu).trans hstack
  have hlive' : (s.twin t (f s.shared) frames).aborted = false := hlive
  rw [step_eq hlive' hstack', State.twin_shared, State.twin_world, hsame]
  exact congrArg (fun s => some (State.stopped s e.aborts)) (State.twin_going_ne hu)

/-- A step of a thread leaves what it is to leave above any other layers too. -/
theorem step_below {frame : Frame κ γ α} {rest : Stack κ γ α} (hstack : s.stack t = frame :: rest)
    (h : m.step t choice s = some s') : ∃ shared world events e,
      m.effect t choice s.shared s.world frame = some (shared, world, events, e) ∧
      s'.aborted = e.aborts ∧ s'.stack t = Effect.layers m e rest ∧
      ∀ rest', m.step t choice (s.twin t s.shared (frame :: rest')) =
        some (s'.twin t s'.shared (e.layers m rest')) := by
  obtain ⟨hlive, ht, frame', rest', shared, world, events, e, hstack', heffect, rfl⟩ :=
    exists_effect h
  cases hstack.symm.trans hstack'
  have hstack' : (s.going t shared world (e.layers m rest) events).stack t = e.layers m rest :=
    State.going_stack ht
  refine ⟨shared, world, events, e, heffect, rfl, hstack', fun rest' => ?_⟩
  have htwin : (s.twin t s.shared (frame :: rest')).stack t = frame :: rest' := State.twin_stack ht
  have hlive' : (s.twin t s.shared (frame :: rest')).aborted = false := hlive
  rw [step_eq hlive' htwin, State.twin_shared, State.twin_world, heffect]
  exact congrArg (fun s => some (State.stopped s e.aborts))
    (State.twin_going.trans State.going_twin.symm)

/-- **What code does above a call** it does above another call, over other layers. -/
theorem step_above {above below : Stack κ γ α} {call : γ} (hnest : Nested false above)
    (hne : above ≠ []) (hstack : s.stack t = above ++ .call call :: below)
    (h : m.step t choice s = some s') :
    (∃ above', above' ≠ [] ∧ Nested false above' ∧ s'.stack t = above' ++ .call call :: below ∧
      ∀ call' below', m.step t choice (s.twin t s.shared (above ++ .call call' :: below')) =
        some (s'.twin t s'.shared (above' ++ .call call' :: below'))) ∨
    (∃ result, s'.stack t = .call (m.resume call result) :: below ∧
      ∀ call' below', m.step t choice (s.twin t s.shared (above ++ .call call' :: below')) =
        some (s'.twin t s'.shared (.call (m.resume call' result) :: below'))) ∨
    s'.aborted = true ∧ s'.stack t = [] := by
  cases hnest with
  | done => exact absurd rfl hne
  | code position =>
      obtain ⟨shared, world, events, e, heffect, -, hlayers, hsame⟩ := step_below hstack h
      cases e with
      | ended result => exact .inr (.inl ⟨result, hlayers, fun _ _ => hsame _⟩)
      | moved position' =>
          exact .inl ⟨[.code position'], List.cons_ne_nil _ _, .code _, hlayers, fun _ _ => hsame _⟩
      | called call' k =>
          exact .inl ⟨[.call call', .wait k], List.cons_ne_nil _ _, .asked call' k (.code position),
            hlayers, fun _ _ => hsame _⟩
      | turned r =>
          simp only [effect] at heffect
          cases hnext : m.next position <;> rw [hnext] at heffect <;> simp at heffect
  | @ran _ rest position call' hnest =>
      obtain ⟨shared, world, events, e, heffect, -, hlayers, hsame⟩ := step_below hstack h
      cases e with
      | ended result =>
          exact .inl ⟨_, List.cons_ne_nil _ _, hnest.withCall (m.resume call' result), hlayers,
            fun _ _ => hsame _⟩
      | moved position' =>
          exact .inl ⟨_, List.cons_ne_nil _ _, .ran position' call' hnest, hlayers,
            fun _ _ => hsame _⟩
      | called call'' k =>
          exact .inl ⟨_, List.cons_ne_nil _ _, .asked call'' k (.ran position call' hnest), hlayers,
            fun _ _ => hsame _⟩
      | turned r =>
          simp only [effect] at heffect
          cases hnext : m.next position <;> rw [hnext] at heffect <;> simp at heffect
  | @asked _ rest position call' k hnest =>
      obtain ⟨shared, world, events, e, heffect, haborted, hlayers, hsame⟩ := step_below hstack h
      obtain ⟨⟨shared', events', r⟩, -, heq⟩ := Option.map_eq_some_iff.mp heffect
      cases heq
      cases r with
      | abort => exact .inr (.inr ⟨haborted, hlayers⟩)
      | stay call'' =>
          exact .inl ⟨_, List.cons_ne_nil _ _, (hnest.asked call' k).afterTurn (.stay call''),
            hlayers, fun _ _ => hsame _⟩
      | run code call'' =>
          exact .inl ⟨_, List.cons_ne_nil _ _, (hnest.asked call' k).afterTurn (.run code call''),
            hlayers, fun _ _ => hsame _⟩
      | ret answer =>
          exact .inl ⟨_, List.cons_ne_nil _ _, (hnest.asked call' k).afterTurn (.ret answer),
            hlayers, fun _ _ => hsame _⟩
      | fail fault =>
          exact .inl ⟨_, List.cons_ne_nil _ _, (hnest.asked call' k).afterTurn (.fail fault),
            hlayers, fun _ _ => hsame _⟩

/-! ### Runs of one kind -/

/-- A run all of whose states but the last are as `P` says. -/
inductive ReachWhile (m : Machine κ ω σ γ α ρ ε) (P : State κ ω σ γ α ε → Prop)
    (s₀ : State κ ω σ γ α ε) : State κ ω σ γ α ε → Prop where
  | start : ReachWhile m P s₀ s₀
  | step {s s' : State κ ω σ γ α ε} (t : Tid) (choice : Choice) :
      ReachWhile m P s₀ s → P s → m.step t choice s = some s' → ReachWhile m P s₀ s'

variable {P : State κ ω σ γ α ε → Prop}

theorem ReachWhile.reach (h : m.ReachWhile P s s') : m.Reach s s' := by
  induction h with
  | start => exact .start
  | step t choice _ _ hstep ih => exact .step t choice ih hstep

theorem Reach.reachWhile (h : m.Reach s s') : m.ReachWhile (fun _ => True) s s' := by
  induction h with
  | start => exact .start
  | step t choice _ hstep ih => exact .step t choice ih trivial hstep

theorem ReachWhile.of_firstStep {order : List (Tid × Choice)} {s₀ : State κ ω σ γ α ε}
    (h : m.ReachWhile P s₀ s) (hP : P s) (hfirst : m.firstStep s order = some s') :
    m.ReachWhile P s₀ s' := by
  induction order with
  | nil => cases hfirst
  | cons entry order ih =>
      obtain ⟨t, choice⟩ := entry
      cases hstep : m.step t choice s with
      | none => exact ih (by simpa [firstStep, hstep] using hfirst)
      | some s₁ =>
          obtain rfl : s₁ = s' := by simpa [firstStep, hstep] using hfirst
          exact .step t choice h hP hstep

/-- What a schedule settles in is reached by such a run if all states before it are of that kind. -/
theorem reachWhile_settle {order : List (Tid × Choice)} {n : Nat} {s₀ : State κ ω σ γ α ε}
    (h : m.ReachWhile P s₀ s) (hP : ∀ i < n, P (m.settle order i s)) :
    m.ReachWhile P s₀ (m.settle order n s) := by
  induction n generalizing s with
  | zero => exact h
  | succ n ih =>
      rw [settle]
      split
      · exact h
      · next s' hfirst =>
        refine ih (h.of_firstStep (hP 0 n.succ_pos) hfirst) fun i hi => ?_
        have hlater := hP (i + 1) (Nat.succ_lt_succ hi)
        rwa [settle, hfirst] at hlater

/-- A run by this schedule, all of whose states but the last are as `P` says. -/
inductive Runs (m : Machine κ ω σ γ α ρ ε) (P : State κ ω σ γ α ε → Prop)
    (s₀ : State κ ω σ γ α ε) : List (Tid × Choice) → State κ ω σ γ α ε → Prop where
  | start : Runs m P s₀ [] s₀
  | step {order : List (Tid × Choice)} {s s' : State κ ω σ γ α ε} (t : Tid) (choice : Choice) :
      Runs m P s₀ order s → P s → m.step t choice s = some s' →
      Runs m P s₀ (order ++ [(t, choice)]) s'

theorem Runs.reach {order : List (Tid × Choice)} (h : m.Runs P s order s') : m.Reach s s' := by
  induction h with
  | start => exact .start
  | step t choice _ _ hstep ih => exact .step t choice ih hstep

/-- What a thread settles in that chooses the same again and again is reached by such a run, if it
makes a step each time. -/
theorem runs_settle {order : List (Tid × Choice)} {n : Nat} {s₀ : State κ ω σ γ α ε}
    (h : m.Runs P s₀ order s) (hP : ∀ i < n, P (m.settle [(t, choice)] i s))
    (hsteps : ∀ i < n, (m.step t choice (m.settle [(t, choice)] i s)).isSome = true) :
    m.Runs P s₀ (order ++ List.replicate n (t, choice)) (m.settle [(t, choice)] n s) := by
  induction n generalizing s order with
  | zero =>
      rw [List.replicate_zero, List.append_nil]
      exact h
  | succ n ih =>
      obtain ⟨s', hstep⟩ := Option.isSome_iff_exists.mp (hsteps 0 n.succ_pos)
      have hsettle : ∀ i, m.settle [(t, choice)] (i + 1) s = m.settle [(t, choice)] i s' := by
        intro i
        have hstep' : m.step t choice s = some s' := hstep
        rw [settle, firstStep, hstep']
        rfl
      rw [hsettle, List.replicate_succ, List.append_cons]
      refine ih (h.step t choice (hP 0 n.succ_pos) hstep) (fun i hi => ?_) fun i hi => ?_
      · rw [← hsettle]
        exact hP (i + 1) (Nat.succ_lt_succ hi)
      · rw [← hsettle]
        exact hsteps (i + 1) (Nat.succ_lt_succ hi)

/-- **On the way.** What each step on the way to the end of a run keeps holds at the end if it holds
at the beginning. -/
theorem ReachWhile.invariant {J : State κ ω σ γ α ε → Prop} (h : m.ReachWhile P s s') (hs : J s)
    (hstep : ∀ x u choice x', m.ReachWhile P s x → P x → J x → m.step u choice x = some x' →
      m.Reach x' s' → J x') : J s' := by
  suffices hall : ∀ target, m.Reach s' target → (∀ x u choice x', m.ReachWhile P s x → P x → J x →
      m.step u choice x = some x' → m.Reach x' target → J x') → J s' from hall s' .start hstep
  clear hstep
  induction h with
  | start => exact fun _ _ _ => hs
  | @step x x' u choice hto hP hstep ih =>
      intro target hfrom hkeeps
      have hJ := ih target ((Reach.start.step u choice hstep).trans hfrom) hkeeps
      exact hkeeps x u choice x' hto hP hJ hstep hfrom

/-- **Following a run.** If each step on the way to the end of a run is followed from the states
that go with the one before it, the run is followed from the states that go with its first. -/
theorem ReachWhile.simulated {R : State κ ω σ γ α ε → State κ ω σ γ α ε → Prop}
    {b : State κ ω σ γ α ε} (h : m.ReachWhile P s s') (hs : R s b)
    (hstep : ∀ x y u choice x', m.Reach s x → P x → R x y → m.step u choice x = some x' →
      m.Reach x' s' → ∃ y', m.Reach y y' ∧ R x' y') : ∃ b', m.Reach b b' ∧ R s' b' := by
  refine h.invariant (J := fun x => ∃ y, m.Reach b y ∧ R x y) ⟨b, .start, hs⟩ ?_
  rintro x u choice x' hto hP ⟨y, hy, hR⟩ hx hfrom
  obtain ⟨y', hy', hR'⟩ := hstep x y u choice x' hto.reach hP hR hx hfrom
  exact ⟨y', hy.trans hy', hR'⟩

end Machine

end Offload
