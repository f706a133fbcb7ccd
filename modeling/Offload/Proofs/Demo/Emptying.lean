import Offload.Proofs.Demo.Scheduling
import Offload.Proofs.Pipeline.Delivery

/-!
# Drains of the demonstration

A drain of the main thread takes out results in their order, and the callback of each keeps it
before the next is taken out. When the drain finds at its end that nothing is left, the main thread
has received every result whose signal it has taken.

## Main results

* `emptying_of_turn`: a drain, one step.
-/

namespace Offload.Demo

open Pipeline (ticketsAt)

/-- The point at which all tasks have been scheduled and so many results kept. -/
abbrev Point.on (count kept : Nat) (flight settled : Bool) : Point :=
  { given := count, accepted := count, kept := kept, flight := flight, settled := settled }

/-- The calls with which the main thread drains one batch, when `kept` results have been kept. -/
inductive Emptying (count kept : Nat) : Point → Using → Prop where
  | opening : Emptying count kept (.on count kept false false) (.opening (.drain none))
  | beginning : Emptying count kept (.on count kept false false) (.inside (.drain none))
  | going (left : Nat) :
      Emptying count kept (.on count kept false false) (.inside (.draining (.going left)))
  | popping (left : Nat) (phase : Phase (Option (Finished Position Nat TaskError))) :
      phase.IsPlain → (∀ f, phase.held.join = some f → f = resultOf kept) →
      Emptying count kept (.on count kept phase.held.join.isSome false)
        (.inside (.draining (.popping left ⟨.never, phase⟩)))
  | delivering (left : Nat) : Emptying count kept (.on count kept true false)
      (.inside (.draining (.delivering left (resultOf kept))))
  | checking (phase : Phase Nat) : phase.IsPlain →
      Emptying count kept (.on count kept false (phase.held == some 0))
        (.inside (.draining (.checking phase)))
  | closing (more : Bool) : Emptying count kept (.on count kept false !more)
      (.closing (.ok (.drained more)))

variable {settings : Settings} {t : Tid} {choice : Choice} {count kept : Nat}
  {s s' : Pipeline Position Nat TaskError} {events : List (Pipeline.Event Nat TaskError Unit)}
  {r : Turn Position Using Pipeline.Answer} {x : Point} {call : Using}

/-- What a step of a drain leads to: the drain goes on, calls the callback of a result, or answers
whether any results are left. -/
inductive Empties (count kept : Nat) (x : Point) : Turn Position Using Pipeline.Answer → Prop where
  | on (call : Using) : Emptying count kept x call → Empties count kept x (.stay call)
  | calls (left : Nat) : x = .on count kept true false →
      Empties count kept x (.run (keeping kept) (.inside (.draining (.going left))))
  | answers (more : Bool) : x = .on count kept false (!more) →
      Empties count kept x (.ret (.drained more))

/-- A step in which a drain takes a result out, or finds none. -/
theorem emptying_of_pop {left : Nat} {phase : Phase (Option (Finished Position Nat TaskError))}
    {r : Turn Position (Pipeline.Drain Position Nat TaskError) Bool}
    (hplain : phase.IsPlain) (hheld : ∀ f, phase.held.join = some f → f = resultOf kept)
    (hfront : phase.held.join.isSome = false →
      ∀ f rest, s.finished.value = f :: rest → f = resultOf kept)
    (hturn : Pipeline.Drain.turn t choice s (.popping left ⟨.never, phase⟩) =
      some (s', events, r)) :
    ∃ x' stage, Change (.on count kept phase.held.join.isSome false) x' s s' events ∧
      r = .stay stage ∧ Emptying count kept x' (.inside (.draining stage)) := by
  obtain ⟨finished, marks, r', hpop, rfl, rfl, rfl⟩ := Pipeline.exists_of_onFinished hturn
  obtain ⟨⟨c, progress⟩, hvisit, heq⟩ := Option.map_eq_some_iff.mp hpop
  cases heq
  obtain ⟨rfl, rfl, rfl⟩ | ⟨again, rfl, rfl, rfl⟩ | ⟨answer, rfl, rfl, rfl⟩ :=
    Visit.plain_cases hvisit hplain
  · exact ⟨_, _, .still _ rfl rfl rfl rfl rfl rfl, rfl, .popping left (.acting false) trivial nofun⟩
  · cases hvalue : s.finished.value with
    | nil =>
        exact ⟨_, _, .still _ rfl rfl rfl rfl hvalue.symm rfl, rfl,
          .popping left (.leaving (.ok (some none))) trivial nofun⟩
    | cons f rest =>
        obtain rfl := hfront rfl f rest hvalue
        refine ⟨.on count kept true false, _, ⟨id, List.append_nil _, rfl, rfl, rfl, nofun,
          fun h => ⟨h, rfl, rfl⟩, fun h => ⟨h.pending, fun f hf => ?_, h.sound⟩⟩, rfl,
          .popping left (.leaving (.ok (some (some (resultOf kept))))) trivial ?_⟩
        · exact h.finished f (by rw [hvalue]; exact List.mem_cons_of_mem _ hf)
        · rintro f ⟨⟩
          rfl
  · cases answer with
    | none =>
        exact ⟨_, _, .still _ rfl rfl rfl rfl rfl rfl, rfl, .checking .arriving trivial⟩
    | some f =>
        obtain rfl := hheld f rfl
        exact ⟨_, _, .still _ rfl rfl rfl rfl rfl rfl, rfl, .delivering left⟩

/-- A step in which a drain looks whether results are left. -/
theorem emptying_of_check {phase : Phase Nat}
    {r : Turn Position (Pipeline.Drain Position Nat TaskError) Bool} (hplain : phase.IsPlain)
    (hturn : Pipeline.Drain.turn t choice s (.checking phase) = some (s', events, r)) :
    ∃ x', Change (.on count kept false (phase.held == some 0)) x' s s' events ∧
      ((∃ stage, r = .stay stage ∧ Emptying count kept x' (.inside (.draining stage))) ∨
        ∃ more, r = .ret more ∧ x' = .on count kept false !more) := by
  obtain ⟨⟨finished, r'⟩, hsize, heq⟩ := Option.map_eq_some_iff.mp hturn
  cases heq
  obtain ⟨⟨c, progress⟩, hvisit, heq⟩ := Option.map_eq_some_iff.mp hsize
  cases heq
  obtain ⟨rfl, rfl, rfl⟩ | ⟨again, rfl, rfl, rfl⟩ | ⟨n, rfl, rfl, rfl⟩ :=
    Visit.plain_cases hvisit hplain
  · exact ⟨_, .still _ rfl rfl rfl rfl rfl rfl, .inl ⟨_, rfl, .checking (.acting false) trivial⟩⟩
  · refine ⟨.on count kept false (some s.finished.value.length == some 0),
      ⟨id, List.append_nil _, rfl, rfl, rfl, fun h => .inr ?_, fun h => ⟨h, rfl, rfl⟩,
        fun h => ⟨h.pending, h.finished, h.sound⟩⟩,
      .inl ⟨_, rfl, .checking (.leaving (.ok (some s.finished.value.length))) trivial⟩⟩
    have hzero : s.finished.value.length = 0 := by simpa using h
    exact List.length_eq_zero_iff.mp hzero
  · refine ⟨_, .still _ rfl rfl rfl rfl rfl rfl, .inr ⟨n != 0, rfl, ?_⟩⟩
    cases n <;> rfl

/-- **A drain, one step.** It takes out the result that is to be kept next, calls its callback, and
in the end tells whether anything is left. -/
theorem emptying_of_turn (h : Emptying count kept x call) (howned : s.owned = true)
    (hfront : x.flight = false → ∀ f rest, s.finished.value = f :: rest → f = resultOf kept)
    (hturn : Pipeline.turn (plan settings) t choice s call = some (s', events, r)) :
    ∃ x', Change x x' s s' events ∧ Empties count kept x' r := by
  cases h with
  | opening =>
      simp only [Pipeline.turn, howned, if_true] at hturn
      cases hturn
      exact ⟨_, .still _ rfl howned.symm rfl rfl rfl rfl, .on _ .beginning⟩
  | beginning =>
      cases hturn
      exact ⟨_, .still _ rfl rfl rfl rfl rfl rfl, .on _ (.going _)⟩
  | going left =>
      cases left <;> cases hturn
      · exact ⟨_, .still _ rfl rfl rfl rfl rfl rfl, .on _ (.checking .arriving trivial)⟩
      · exact ⟨_, .still _ rfl rfl rfl rfl rfl rfl,
          .on _ (.popping _ .arriving trivial (by rintro _ ⟨⟩))⟩
  | popping left phase hplain hheld =>
      obtain ⟨r', huse, rfl⟩ := Pipeline.exists_of_nest hturn
      obtain ⟨r', hstage, rfl⟩ := Pipeline.exists_of_nest huse
      obtain ⟨x', stage, hchange, rfl, hnext⟩ := emptying_of_pop hplain hheld hfront hstage
      exact ⟨x', hchange, .on _ hnext⟩
  | delivering left =>
      have hdeliver : Pipeline.turn (plan settings) t choice s
          (.inside (.draining (.delivering left (resultOf kept)))) = _ :=
        Pipeline.turn_of_delivering (ν := Unit) rfl
      rw [hdeliver, id, callback?_resultOf] at hturn
      cases hturn
      have hnone : ∀ m, ticketsAt m [(Pipeline.deliveryEvent (resultOf kept) :
          Pipeline.Event Nat TaskError Unit)] = [] := by
        intro m
        rw [Pipeline.ticketsAt_singleton, Pipeline.deliveryEvent]
        split <;> split <;> cases m <;> rfl
      refine ⟨_, ⟨id, ?_, ?_, hnone _, rfl, .inl, fun h => ⟨h, rfl, rfl⟩, id⟩, .calls left rfl⟩
      · rw [hnone]
        exact List.append_nil _
      · rw [hnone]
        rfl
  | checking phase hplain =>
      obtain ⟨r', huse, rfl⟩ := Pipeline.exists_of_nest hturn
      obtain ⟨r', hstage, rfl⟩ := Pipeline.exists_of_nest huse
      obtain ⟨x', hchange, ⟨stage, rfl, hnext⟩ | ⟨more, rfl, rfl⟩⟩ :=
        emptying_of_check hplain hstage
      · exact ⟨x', hchange, .on _ hnext⟩
      · exact ⟨_, hchange, .on _ (.closing more)⟩
  | closing more =>
      cases hturn
      exact ⟨_, .still _ rfl rfl rfl rfl rfl rfl, .answers more rfl⟩

end Offload.Demo
