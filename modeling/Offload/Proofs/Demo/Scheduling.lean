import Offload.Proofs.Demo.Tasks
import Offload.Proofs.Pipeline.Runs

/-!
# How far the main thread has come

The **point** at which the main thread stands is told by a few numbers: how many tasks it has
scheduled, how many results its callbacks have kept, and whether it has received every result whose
signal it has taken. Each step of a call of the main thread leads from one point to the next; this
module has the calls that schedule a task.

## Main definitions

* `Point`: how far the main thread has come.
* `Change`: what a step on the pipeline that leads from one point to another does.
* `Scheduling`: the calls with which the main thread schedules a task.
-/

namespace Offload.Demo

open Pipeline (ticketsAt)

/-- How far the main thread has come. -/
structure Point where
  /-- How many tickets it has got. -/
  given : Nat
  /-- How many of its tasks have been accepted. -/
  accepted : Nat
  /-- How many results its callbacks have kept. -/
  kept : Nat := 0
  /-- Whether it has received one more result, which its callback is yet to keep. -/
  flight : Bool := false
  /-- Whether it has received every result whose signal it has taken. -/
  settled : Bool := true
  /-- Whether it has taken the pipeline from its owner. -/
  shut : Bool := false

/-- How many results the main thread has received. -/
def Point.received (x : Point) : Nat :=
  x.kept + x.flight.toNat

/-- The calls of the demonstration on its pipeline. -/
abbrev Using := Pipeline.Call Position Nat TaskError

/-- What a step of a call of the main thread on the pipeline does, if it leads from one point to
another. -/
structure Change (x x' : Point) (s s' : Pipeline Position Nat TaskError)
    (events : List (Pipeline.Event Nat TaskError Unit)) : Prop where
  given : s.nextTicket = x.given → s'.nextTicket = x'.given
  accepted : List.range x.accepted ++ ticketsAt .accepted events = List.range x'.accepted
  received : x.received + (ticketsAt .received events).length = x'.received
  published : ticketsAt .published events = []
  kept : x'.kept = x.kept
  /-- The main thread has received everything if it had, or if nothing is left. -/
  settled : x'.settled = true → x.settled = true ∨ s'.finished.value = []
  shut : x'.shut = false →
    x.shut = false ∧ s'.owned = s.owned ∧ s'.intake.value = s.intake.value
  proper : Proper s → Proper s'

variable {settings : Settings} {t : Tid} {choice : Choice}
  {s s' : Pipeline Position Nat TaskError} {events : List (Pipeline.Event Nat TaskError Unit)}
  {r : Turn Position Using Pipeline.Answer} {x : Point} {call : Using}

/-- A silent step that leaves owner, tickets, intake, entries and results alone. -/
theorem Change.still (x : Point) (hnext : s'.nextTicket = s.nextTicket)
    (howned : s'.owned = s.owned) (hintake : s'.intake.value = s.intake.value)
    (hpending : s'.pending.value = s.pending.value)
    (hfinished : s'.finished.value = s.finished.value) (hhealth : s'.health = s.health) :
    Change x x s s' [] where
  given h := hnext.trans h
  accepted := List.append_nil _
  received := rfl
  published := rfl
  kept := rfl
  settled := .inl
  shut h := ⟨h, howned, hintake⟩
  proper h := ⟨by rw [hpending]; exact h.pending, by rw [hfinished]; exact h.finished,
    by rw [hhealth]; exact h.sound⟩

/-- The calls with which the main thread schedules the task with a number. -/
inductive Scheduling (i : Nat) : Point → Using → Prop where
  | opening : Scheduling i { given := i, accepted := i } (.opening (.schedule (.checking (job i))))
  | checking : Scheduling i { given := i, accepted := i } (.inside (.schedule (.checking (job i))))
  | entering : Scheduling i { given := i, accepted := i }
      (.inside (.schedule (.entering (taskOf i))))
  | deciding : Scheduling i { given := i, accepted := i }
      (.inside (.schedule (.deciding (taskOf i))))
  | adding (phase : Phase Unit) : phase.IsPlain →
      Scheduling i { given := i + 1, accepted := i + phase.held.isSome.toNat }
        (.inside (.schedule (.pushing (.adding (.run i (taskOf i)) phase))))
  | notifying : Scheduling i { given := i + 1, accepted := i + 1 }
      (.inside (.schedule (.pushing .notifying)))
  | hooking : Scheduling i { given := i + 1, accepted := i + 1 }
      (.inside (.schedule (.pushing .hooking)))
  | leaving : Scheduling i { given := i + 1, accepted := i + 1 }
      (.inside (.schedule (.leaving (.ok none))))
  | closing : Scheduling i { given := i + 1, accepted := i + 1 }
      (.closing (.ok (.scheduled (.ok ()))))

/-- While a task is scheduled, only those before it and perhaps itself have been accepted. -/
theorem Scheduling.accepted_le {i : Nat} (h : Scheduling i x call) : x.accepted ≤ i + 1 := by
  cases h with
  | adding phase _ => cases phase.held <;> simp
  | opening | checking | entering | deciding => exact Nat.le_succ i
  | notifying | hooking | leaving | closing => exact Nat.le_refl _

/-- **Scheduling, one step.** The task gets the next ticket and is accepted, as nobody has closed
the intake. -/
theorem scheduling_of_turn {i : Nat} (h : Scheduling i x call) (howned : s.owned = true)
    (hopen : s.intake.value = true) (hnext : s.nextTicket = x.given)
    (hturn : Pipeline.turn (plan settings) t choice s call = some (s', events, r)) :
    ∃ x', Change x x' s s' events ∧ ((∃ call', r = .stay call' ∧ Scheduling i x' call') ∨
      r = .ret (.scheduled (.ok ())) ∧ x' = { given := i + 1, accepted := i + 1 }) := by
  have hstill : ∀ {call' : Using}, s'.pending.value = s.pending.value → s'.owned = s.owned →
      s'.intake.value = s.intake.value → s'.finished = s.finished → s'.health = s.health →
      s'.nextTicket = s.nextTicket → events = [] → r = .stay call' → Scheduling i x call' →
      ∃ x', Change x x' s s' events ∧ ((∃ call', r = .stay call' ∧ Scheduling i x' call') ∨
        r = .ret (.scheduled (.ok ())) ∧ x' = { given := i + 1, accepted := i + 1 }) := by
    rintro call' hpending howned hintake hfinished hhealth hnext rfl rfl hcall
    exact ⟨x, .still x hnext howned hintake hpending (by rw [hfinished]) hhealth,
      .inl ⟨call', rfl, hcall⟩⟩
  cases h with
  | opening =>
      simp only [Pipeline.turn, howned, if_true] at hturn
      cases hturn
      exact hstill rfl howned.symm rfl rfl rfl rfl rfl rfl .checking
  | checking =>
      cases hturn
      exact hstill rfl rfl rfl rfl rfl rfl rfl rfl .entering
  | entering =>
      obtain ⟨r', huse, rfl⟩ := Pipeline.exists_of_nest hturn
      obtain ⟨r', hstage, rfl⟩ := Pipeline.exists_of_nest huse
      obtain ⟨intake, hacquire, heq⟩ := Option.map_eq_some_iff.mp hstage
      obtain ⟨-, rfl⟩ := Monitor.acquire_eq_some hacquire
      cases heq
      exact hstill rfl rfl rfl rfl rfl rfl rfl rfl .deciding
  | deciding =>
      obtain ⟨r', huse, rfl⟩ := Pipeline.exists_of_nest hturn
      obtain ⟨r', hstage, rfl⟩ := Pipeline.exists_of_nest huse
      simp only [Pipeline.Schedule.turn, hopen, if_true] at hstage
      cases hstage
      obtain rfl : s.nextTicket = i := hnext
      exact ⟨{ given := s.nextTicket + 1, accepted := s.nextTicket },
        ⟨fun _ => rfl, List.append_nil _, rfl, rfl, rfl, .inl, fun h => ⟨h, rfl, rfl⟩,
          fun h => ⟨h.pending, h.finished, h.sound⟩⟩,
        .inl ⟨_, rfl, Scheduling.adding .arriving trivial⟩⟩
  | adding phase hplain =>
      obtain ⟨r', huse, rfl⟩ := Pipeline.exists_of_nest hturn
      obtain ⟨r', hstage, rfl⟩ := Pipeline.exists_of_nest huse
      obtain ⟨pending, marks, r', hpush, rfl, rfl, rfl⟩ :=
        Pipeline.Work.exists_of_onPending hstage
      obtain ⟨⟨c, progress⟩, hvisit, heq⟩ := Option.map_eq_some_iff.mp hpush
      cases heq
      obtain ⟨rfl, rfl, rfl⟩ | ⟨again, rfl, rfl, rfl⟩ | ⟨answer, rfl, rfl, rfl⟩ :=
        Visit.plain_cases hvisit hplain
      · exact hstill rfl rfl rfl rfl rfl rfl rfl rfl (.adding (.acting false) trivial)
      · refine ⟨{ given := i + 1, accepted := i + 1 }, ⟨id, List.range_succ.symm, rfl, rfl, rfl,
          .inl, fun h => ⟨h, rfl, rfl⟩, fun h => ⟨fun entry hentry => ?_, h.finished, h.sound⟩⟩,
          .inl ⟨_, rfl, .adding (.leaving (.ok (some ()))) trivial⟩⟩
        rcases List.mem_append.mp hentry with hentry | hentry
        · exact h.pending entry hentry
        · rw [List.mem_singleton.mp hentry]
          exact rfl
      · exact hstill rfl rfl rfl rfl rfl rfl rfl rfl .notifying
  | notifying =>
      cases hturn
      exact hstill rfl rfl rfl rfl rfl rfl rfl rfl .hooking
  | hooking =>
      cases hturn
      exact hstill rfl rfl rfl rfl rfl rfl rfl rfl .leaving
  | leaving =>
      cases hturn
      exact hstill rfl rfl rfl rfl rfl rfl rfl rfl .closing
  | closing =>
      cases hturn
      exact ⟨_, .still _ rfl rfl rfl rfl rfl rfl, .inr ⟨rfl, rfl⟩⟩

end Offload.Demo
