import Offload.Proofs.Pipeline.Parts

/-!
# What a scheduling can do

A scheduling **holds** the lock of the intake from its look at the intake until its task is in
the pending channel.

## Main results

* `Schedule.stepped_of_turn`: everything that one step of a scheduling can be.
* `Schedule.turned_of_turn`: what others see of it.
-/

namespace Offload.Pipeline

variable {κ V E ν : Type} {t : Tid} {choice : Choice} {s s' : Pipeline κ V E}
  {events : List (Event V E ν)}

namespace Schedule

/-- Whether a scheduling at this stage owns the lock of the intake. -/
def holds : Schedule κ V E → Bool
  | .deciding _ | .pushing _ | .leaving _ => true
  | .checking _ | .entering _ | .dropping _ _ | .dropped _ => false

/-- The entry that a scheduling has yet to add. -/
def ahead : Schedule κ V E → Option (Entry κ V E)
  | .pushing p => p.ahead
  | .checking _ | .entering _ | .deciding _ | .leaving _ | .dropping _ _ | .dropped _ => none

/-- Whether a scheduling adds a task, if it adds anything. -/
def IsProper : Schedule κ V E → Prop
  | .pushing p =>
      p.IsPlain ∧ ∀ entry, p.item? = some entry → ∃ ticket task, entry = .run ticket task
  | .checking _ | .entering _ | .deciding _ | .leaving _ | .dropping _ _ | .dropped _ => True

/-- What one step of a scheduling by thread `t` is, stage by stage. -/
inductive Stepped (t : Tid) (choice : Choice) (s : Pipeline κ V E) :
    Schedule κ V E → Pipeline κ V E → List (Event V E ν) →
      Turn κ (Schedule κ V E) (Except Failure Unit) → Prop where
  | empty (job : Job κ V E) : job.task? = none →
      Stepped t choice s (.checking job) s [] (.stay (.dropping job.onDrop .emptyBody))
  | checked (job : Job κ V E) (task : Task κ V E) : job.task? = some task →
      Stepped t choice s (.checking job) s [] (.stay (.entering task))
  | entered (task : Task κ V E) : s.intake.owner = none →
      Stepped t choice s (.entering task) { s with intake := { s.intake with owner := some t } } []
        (.stay (.deciding task))
  | admitted (task : Task κ V E) : s.intake.value = true →
      Stepped t choice s (.deciding task) { s with nextTicket := s.nextTicket + 1 } []
        (.stay (.pushing (.start (.run s.nextTicket task))))
  | refused (task : Task κ V E) : s.intake.value = false →
      Stepped t choice s (.deciding task) s [] (.stay (.leaving (.ok (some task))))
  | pushing {p : Channel.Push (Entry κ V E)} {pending : Channel (Entry κ V E)}
      {marks : List (Channel.Mark (Entry κ V E))} {r : Turn κ (Channel.Push (Entry κ V E)) Unit} :
      p.turn none t choice s.pending = some (pending, marks, r) →
      Stepped t choice s (.pushing p) { s with pending := pending } (marks.flatMap pendingEvent)
        (r.within .pushing (fun () => .stay (.leaving (.ok none)))
          fun fault => .stay (.leaving (.error fault)))
  | accepted : Stepped t choice s (.leaving (.ok none)) { s with intake := s.intake.release } []
      (.ret (.ok ()))
  | turnedAway (task : Task κ V E) : Stepped t choice s (.leaving (.ok (some task)))
      { s with intake := s.intake.release } [] (.stay (.dropping task.onDrop .stopped))
  | failed (fault : Fault) : Stepped t choice s (.leaving (.error fault))
      { s with intake := s.intake.releaseFaulted } [] (.fail fault)
  | dropped (failure : Failure) : Stepped t choice s (.dropping none failure) s []
      (.stay (.dropped (.ok failure)))
  /-- The destructor of the refused job is run. -/
  | dropping (code : κ) (failure : Failure) : Stepped t choice s (.dropping (some code) failure) s
      [] (.run code (.dropped (.ok failure)))
  | answered (failure : Failure) : Stepped t choice s (.dropped (.ok failure)) s []
      (.ret (.error failure))
  | struck (fault : Fault) : Stepped t choice s (.dropped (.error fault)) s [] (.fail fault)

/-- **Inversion.** Every step of a scheduling is one of these. -/
theorem stepped_of_turn {stage : Schedule κ V E}
    {r : Turn κ (Schedule κ V E) (Except Failure Unit)}
    (h : stage.turn t choice s = some (s', events, r)) :
    Stepped t choice s stage s' events r := by
  cases stage with
  | checking job =>
      simp only [turn] at h
      split at h
      · next hnone =>
        cases h
        exact .empty job hnone
      · next task htask =>
        cases h
        exact .checked job task htask
  | entering task =>
      obtain ⟨intake, hacquire, heq⟩ := Option.map_eq_some_iff.mp h
      obtain ⟨hfree, rfl⟩ := Monitor.acquire_eq_some hacquire
      cases heq
      exact .entered task hfree
  | deciding task =>
      simp only [turn] at h
      split at h
      · next hopen =>
        cases h
        exact .admitted task hopen
      · next hclosed =>
        cases h
        exact .refused task (by simpa using hclosed)
  | pushing p =>
      obtain ⟨⟨pending, marks, r'⟩, hpush, heq⟩ := Option.map_eq_some_iff.mp h
      cases heq
      exact .pushing hpush
  | leaving refused =>
      rcases refused with fault | _ | task
      · cases h
        exact .failed fault
      · cases h
        exact .accepted
      · cases h
        exact .turnedAway task
  | dropping onDrop failure =>
      cases onDrop with
      | none =>
          cases h
          exact .dropped failure
      | some code =>
          cases h
          exact .dropping code failure
  | dropped outcome =>
      cases outcome with
      | ok failure =>
          cases h
          exact .answered failure
      | error fault =>
          cases h
          exact .struck fault

/-- What one step of a scheduling by thread `t` may be, as far as others see it. -/
inductive Turned (t : Tid) (choice : Choice) (s : Pipeline κ V E) :
    Schedule κ V E → Pipeline κ V E → List (Event V E ν) →
      Turn κ (Schedule κ V E) (Except Failure Unit) → Prop where
  /-- Before and after it holds the lock. -/
  | passed {stage : Schedule κ V E} {r : Turn κ (Schedule κ V E) (Except Failure Unit)} :
      stage.holds = false → stage.ahead = none →
      (∀ stage', r.next? = some stage' →
        stage'.holds = false ∧ stage'.ahead = none ∧ stage'.IsProper) →
      r ≠ .abort → Turned t choice s stage s [] r
  | entered (task : Task κ V E) : s.intake.owner = none →
      Turned t choice s (.entering task) { s with intake := { s.intake with owner := some t } } []
        (.stay (.deciding task))
  | admitted (task : Task κ V E) : s.intake.value = true →
      Turned t choice s (.deciding task) { s with nextTicket := s.nextTicket + 1 } []
        (.stay (.pushing (.start (.run s.nextTicket task))))
  | refused (task : Task κ V E) : s.intake.value = false →
      Turned t choice s (.deciding task) s [] (.stay (.leaving (.ok (some task))))
  | pushedOn {p p' : Channel.Push (Entry κ V E)} {pending : Channel (Entry κ V E)}
      {marks : List (Channel.Mark (Entry κ V E))} :
      p.turn none t choice s.pending =
        some (pending, marks, (.stay p' : Turn κ (Channel.Push (Entry κ V E)) Unit)) →
      Turned t choice s (.pushing p) { s with pending := pending } (marks.flatMap pendingEvent)
        (.stay (.pushing p'))
  | pushedOver {p : Channel.Push (Entry κ V E)} {pending : Channel (Entry κ V E)}
      {marks : List (Channel.Mark (Entry κ V E))} {r : Turn κ (Channel.Push (Entry κ V E)) Unit}
      (outcome : Except Fault (Option (Task κ V E))) :
      p.turn none t choice s.pending = some (pending, marks, r) → r.next? = none →
      Turned t choice s (.pushing p) { s with pending := pending } (marks.flatMap pendingEvent)
        (.stay (.leaving outcome))
  /-- It leaves the lock. -/
  | left (refused : Except Fault (Option (Task κ V E))) {intake : Monitor Bool}
      {r : Turn κ (Schedule κ V E) (Except Failure Unit)} :
      intake.value = s.intake.value → intake.owner = none →
      (∀ stage', r.next? = some stage' →
        stage'.holds = false ∧ stage'.ahead = none ∧ stage'.IsProper) →
      r ≠ .abort → (∀ code stage', r ≠ .run code stage') →
      Turned t choice s (.leaving refused) { s with intake := intake } [] r

/-- A push without a hook runs no code. -/
theorem push_ne_run {p p' : Channel.Push (Entry κ V E)} {pending : Channel (Entry κ V E)}
    {marks : List (Channel.Mark (Entry κ V E))} {code : κ} :
    p.turn none t choice s.pending ≠ some (pending, marks, .run code p') := by
  intro h
  cases p with
  | adding item phase =>
      obtain ⟨⟨c, progress⟩, -, heq⟩ := Option.map_eq_some_iff.mp h
      rcases progress with _ | _ | _ <;> cases heq
  | notifying | hooking => cases h
  | ending outcome => cases outcome <;> cases h

/-- What others see of a step. -/
theorem Stepped.turned {stage : Schedule κ V E}
    {r : Turn κ (Schedule κ V E) (Except Failure Unit)} (h : Stepped t choice s stage s' events r) :
    Turned t choice s stage s' events r := by
  cases h with
  | empty _ _ | checked _ _ _ | dropped _ | dropping _ _ =>
      refine .passed rfl rfl ?_ nofun
      rintro stage' ⟨⟩
      exact ⟨rfl, rfl, trivial⟩
  | answered _ | struck _ => exact .passed rfl rfl nofun nofun
  | entered task hfree => exact .entered task hfree
  | admitted task hopen => exact .admitted task hopen
  | refused task hclosed => exact .refused task hclosed
  | @pushing _ _ _ r' hpush =>
      cases r' with
      | stay p' => exact .pushedOn hpush
      | run code p' => exact absurd hpush push_ne_run
      | ret _ | fail _ => exact .pushedOver _ hpush rfl
      | abort => exact absurd rfl (Channel.Push.turn_live hpush)
  | accepted | failed _ => exact .left _ rfl rfl nofun nofun fun _ _ => nofun
  | turnedAway _ =>
      refine .left _ rfl rfl ?_ nofun fun _ _ => nofun
      rintro stage' ⟨⟩
      exact ⟨rfl, rfl, trivial⟩

theorem turned_of_turn {stage : Schedule κ V E}
    {r : Turn κ (Schedule κ V E) (Except Failure Unit)}
    (h : stage.turn t choice s = some (s', events, r)) : Turned t choice s stage s' events r :=
  (stepped_of_turn h).turned

/-- A scheduling that is proper stays so. -/
theorem isProper_of_turn {stage : Schedule κ V E}
    {r : Turn κ (Schedule κ V E) (Except Failure Unit)}
    (h : Turned t choice s stage s' events r) (hproper : stage.IsProper) :
    ∀ stage', r.next? = some stage' → stage'.IsProper := by
  intro stage' hnext
  cases h with
  | passed _ _ hpassed _ => exact (hpassed stage' hnext).2.2
  | left _ _ _ hpassed _ _ => exact (hpassed stage' hnext).2.2
  | entered | refused =>
      cases hnext
      trivial
  | admitted task =>
      cases hnext
      refine ⟨trivial, ?_⟩
      rintro entry ⟨⟩
      exact ⟨_, _, rfl⟩
  | pushedOn hpush =>
      cases hnext
      obtain ⟨-, hplain⟩ := Channel.Push.ahead_of_turn hpush hproper.1
      obtain ⟨hplain', hitem⟩ := hplain _ rfl
      refine ⟨hplain', fun entry hentry => ?_⟩
      rcases hitem with hsame | hnone
      · exact hproper.2 entry (hsame ▸ hentry)
      · rw [hnone] at hentry
        cases hentry
  | pushedOver _ _ _ =>
      cases hnext
      trivial

/-- What a scheduling adds is its task. -/
theorem pending_of_turn {stage : Schedule κ V E}
    {r' : Turn κ (Schedule κ V E) (Except Failure Unit)}
    (h : Turned t choice s stage s' events r') (hproper : stage.IsProper) :
    (s'.pending.value = s.pending.value ∧ events = []) ∨
      ∃ ticket task, stage.ahead = some (.run ticket task) ∧
        s'.pending.value = s.pending.value ++ [.run ticket task] ∧ events = [.accepted ticket] := by
  have hpush : ∀ {p : Channel.Push (Entry κ V E)} {pending marks}
      {r : Turn κ (Channel.Push (Entry κ V E)) Unit},
      stage = .pushing p → p.turn none t choice s.pending = some (pending, marks, r) →
      (pending.value = s.pending.value ∧ (marks.flatMap pendingEvent : List (Event V E ν)) = []) ∨
        ∃ ticket task, stage.ahead = some (.run ticket task) ∧
          pending.value = s.pending.value ++ [.run ticket task] ∧
          (marks.flatMap pendingEvent : List (Event V E ν)) = [.accepted ticket] := by
    rintro p pending marks r rfl hturn
    obtain ⟨hvalue, rfl | rfl⟩ | ⟨entry, again, rfl, hvalue, rfl, -⟩ :=
      Channel.Push.marks_of_turn hturn
    · exact .inl ⟨hvalue, rfl⟩
    · exact .inl ⟨hvalue, rfl⟩
    · obtain ⟨ticket, task, rfl⟩ := hproper.2 entry rfl
      exact .inr ⟨ticket, task, rfl, hvalue, rfl⟩
  cases h with
  | passed | entered | admitted | refused | left => exact .inl ⟨rfl, rfl⟩
  | pushedOn hturn => exact hpush rfl hturn
  | pushedOver outcome hturn _ => exact hpush rfl hturn

/-- A scheduling leaves everything else alone. -/
theorem frame_of_turn {stage : Schedule κ V E}
    {r' : Turn κ (Schedule κ V E) (Except Failure Unit)}
    (h : Turned t choice s stage s' events r') :
    s'.intake.value = s.intake.value ∧ s'.finished = s.finished ∧ s'.health = s.health ∧
      s'.joinable = s.joinable ∧ s'.owned = s.owned := by
  cases h with
  | left _ hvalue _ _ _ _ => exact ⟨hvalue, rfl, rfl, rfl, rfl⟩
  | passed | entered | admitted | refused | pushedOn | pushedOver => exact ⟨rfl, rfl, rfl, rfl, rfl⟩

/-- A scheduling gives its task the next ticket; its task has that ticket until it is accepted. -/
theorem ahead_of_turn {stage : Schedule κ V E} {r' : Turn κ (Schedule κ V E) (Except Failure Unit)}
    (h : Turned t choice s stage s' events r') (hproper : stage.IsProper) :
    s.nextTicket ≤ s'.nextTicket ∧
      ∀ stage', r'.next? = some stage' → ∀ ticket task, stage'.ahead = some (.run ticket task) →
        events = [] ∧ (stage.ahead = some (.run ticket task) ∨
          ticket = s.nextTicket ∧ s.nextTicket < s'.nextTicket) := by
  cases h with
  | passed _ _ hpassed _ | left _ _ _ hpassed _ _ =>
      refine ⟨Nat.le_refl _, fun stage' hnext ticket task hahead => ?_⟩
      rw [(hpassed stage' hnext).2.1] at hahead
      cases hahead
  | entered | refused | pushedOver =>
      refine ⟨Nat.le_refl _, ?_⟩
      rintro stage' ⟨⟩ ticket task hahead
      cases hahead
  | admitted =>
      refine ⟨Nat.le_succ _, ?_⟩
      rintro stage' ⟨⟩ ticket task hahead
      cases hahead
      exact ⟨rfl, .inr ⟨rfl, Nat.lt_succ_self _⟩⟩
  | pushedOn hpush =>
      refine ⟨Nat.le_refl _, ?_⟩
      rintro stage' ⟨⟩ ticket task hahead
      obtain ⟨hahead', hadded⟩ := Channel.Push.ahead_of_next hpush hproper.1 rfl hahead
      refine ⟨?_, .inl hahead'⟩
      rcases Channel.Push.marks_of_turn hpush with ⟨-, rfl | rfl⟩ | ⟨entry, again, -, -, rfl, -⟩
      · rfl
      · rfl
      · cases hadded

end Schedule

end Offload.Pipeline
