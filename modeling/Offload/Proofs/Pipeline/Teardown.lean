import Offload.Proofs.Pipeline.Schedule

/-!
# What a teardown can do

A teardown claims the worker's thread, closes the intake, clears the pending channel, queues the
entry that ends the worker, and joins the worker's thread. Only the stages between the claim and
that entry touch what others share; the stages before and after them are **quiet**.

## Main results

* `Teardown.stepped_of_turn`: everything that one step of a teardown can be.
* `Teardown.turned_of_turn`: what others see of it.
-/

namespace Offload.Pipeline.Teardown

variable {κ V E ν : Type} {t : Tid} {choice : Choice} {s s' : Pipeline κ V E}
  {events : List (Event V E ν)}

/-- Whether a teardown at this stage owns the lock of the intake. -/
def Stage.holds : Stage κ V E → Bool
  | .closing phase => phase.owns
  | _ => false

/-- Whether a teardown at this stage has the pending channel yet to clear. -/
def Stage.clears : Stage κ V E → Bool
  | .closing _ => true
  | .clearing (.taking phase) => phase.held.isNone
  | _ => false

/-- Whether a teardown at this stage has the last entry yet to queue. -/
def Stage.stops : Stage κ V E → Bool
  | .closing _ | .clearing _ | .cleared _ => true
  | .stopping _ p => p.ahead.isSome
  | _ => false

/-- Whether a teardown at this stage has closed the intake and not queued the last entry. -/
def Stage.hasClosed : Stage κ V E → Bool
  | .closing phase => phase.held.isSome
  | .clearing _ | .cleared _ | .stopping _ _ => true
  | _ => false

/-- Whether a teardown at this stage has joined the worker's thread. -/
def Stage.hasJoined : Stage κ V E → Bool
  | .counting _ _ _ => true
  | _ => false

/-- Whether a teardown is through with the worker's thread: at its end, or at the beginning of
another pass. -/
def rests (d : Teardown κ V E) : Bool :=
  match d.stage with
  | .ending _ => true
  | .claiming => d.earlier.isSome
  | _ => false

/-- Whether a teardown at this stage touches nothing that others share. -/
def Stage.isQuiet : Stage κ V E → Bool
  | .claiming | .parting _ | .joining _ | .ending _ => true
  | _ => false

/-- A quiet stage is none of the others. -/
theorem flags_of_isQuiet {stage : Stage κ V E} (h : stage.isQuiet = true) :
    stage.clears = false ∧ stage.stops = false ∧ stage.hasClosed = false ∧
      stage.hasJoined = false := by
  cases stage with
  | claiming | parting _ | joining _ | ending _ => exact ⟨rfl, rfl, rfl, rfl⟩
  | closing _ | clearing _ | cleared _ | stopping _ _ | counting _ _ _ => cases h

/-- Whether a teardown is in a phase in which teardowns can be: it closes without waiting, and
it queues the entry that ends the worker. -/
def Stage.IsProper : Stage κ V E → Prop
  | .closing phase => phase.IsPlain
  | .stopping _ p => p.IsPlain ∧ ∀ entry, p.item? = some entry → entry = .stop
  | _ => True

/-- What one step of a teardown by thread `t` is, stage by stage. -/
inductive Stepped (t : Tid) (choice : Choice) (s : Pipeline κ V E) :
    Teardown κ V E → Pipeline κ V E → List (Event V E ν) →
      Turn κ (Teardown κ V E) (Except Failure Unit) → Prop where
  | claimed {reporting : Bool} {earlier : Option (Except Failure Unit)} : s.joinable = true →
      Stepped t choice s ⟨reporting, earlier, .claiming⟩ { s with joinable := false } []
        (.stay ⟨reporting, earlier, .closing .arriving⟩)
  | unclaimed {reporting : Bool} {earlier : Option (Except Failure Unit)} : s.joinable = false →
      Stepped t choice s ⟨reporting, earlier, .claiming⟩ s []
        (.stay ⟨reporting, earlier, .ending (.ok ())⟩)
  | closing {reporting : Bool} {earlier : Option (Except Failure Unit)} {phase phase' : Phase Unit}
      {intake : Monitor Bool} : close.turn t choice s.intake phase = some (intake, .on phase') →
      Stepped t choice s ⟨reporting, earlier, .closing phase⟩ { s with intake := intake }
        ((Visit.answer? phase (.on phase')).elim [] fun () => [.closed])
        (.stay ⟨reporting, earlier, .closing phase'⟩)
  | closed {reporting : Bool} {earlier : Option (Except Failure Unit)} {answer : Option Unit}
      {intake : Monitor Bool} : close.turn t choice s.intake (.leaving (.ok answer)) =
        some (intake, .ended (.ok answer)) →
      Stepped t choice s ⟨reporting, earlier, .closing (.leaving (.ok answer))⟩
        { s with intake := intake } [] (.stay ⟨reporting, earlier, .clearing .start⟩)
  | closeFailed {reporting : Bool} {earlier : Option (Except Failure Unit)} {fault : Fault}
      {intake : Monitor Bool} : close.turn t choice s.intake (.leaving (.error fault)) =
        some (intake, .ended (.error fault)) →
      Stepped t choice s ⟨reporting, earlier, .closing (.leaving (.error fault))⟩
        { s with intake := intake } [] (.fail fault)
  | clearing {reporting : Bool} {earlier : Option (Except Failure Unit)}
      {c : Channel.Clear (Entry κ V E)} {pending : Channel (Entry κ V E)}
      {marks : List (Channel.Mark (Entry κ V E))}
      {r : Turn κ (Channel.Clear (Entry κ V E)) Nat} :
      c.turn Entry.onDrop? t choice s.pending = some (pending, marks, r) →
      Stepped t choice s ⟨reporting, earlier, .clearing c⟩ { s with pending := pending }
        (marks.flatMap pendingEvent)
        (r.within (fun c' => ⟨reporting, earlier, .clearing c'⟩)
          (fun n => .stay ⟨reporting, earlier, .cleared n⟩) .fail)
  | cleared {reporting : Bool} {earlier : Option (Except Failure Unit)} (n : Nat) :
      Stepped t choice s ⟨reporting, earlier, .cleared n⟩ s
        (if n = 0 then [] else [.notice (.cleared n)])
        (.stay ⟨reporting, earlier, .stopping n (.start .stop)⟩)
  | stopping {reporting : Bool} {earlier : Option (Except Failure Unit)} {n : Nat}
      {p : Channel.Push (Entry κ V E)} {pending : Channel (Entry κ V E)}
      {marks : List (Channel.Mark (Entry κ V E))}
      {r : Turn κ (Channel.Push (Entry κ V E)) Unit} :
      p.turn none t choice s.pending = some (pending, marks, r) →
      Stepped t choice s ⟨reporting, earlier, .stopping n p⟩ { s with pending := pending }
        (marks.flatMap pendingEvent)
        (r.within (fun p' => ⟨reporting, earlier, .stopping n p'⟩)
          (fun () => .stay ⟨reporting, earlier, .parting n⟩) .fail)
  | stayed {reporting : Bool} {earlier : Option (Except Failure Unit)} {n : Nat} :
      t = workerThread → Stepped t choice s ⟨reporting, earlier, .parting n⟩ s
        [.notice .ownThread] (.stay ⟨reporting, earlier, .ending (.ok ())⟩)
  | parted {reporting : Bool} {earlier : Option (Except Failure Unit)} {n : Nat} :
      t ≠ workerThread → Stepped t choice s ⟨reporting, earlier, .parting n⟩ s []
        (.stay ⟨reporting, earlier, .joining n⟩)
  | joined {reporting : Bool} {earlier : Option (Except Failure Unit)} {n : Nat}
      {outcome : Except Failure Unit} : verdict? s.health = some outcome →
      Stepped t choice s ⟨reporting, earlier, .joining n⟩ s []
        (.stay ⟨reporting, earlier, .counting n outcome .arriving⟩)
  | counting {reporting : Bool} {earlier : Option (Except Failure Unit)} {n : Nat}
      {outcome : Except Failure Unit} {phase : Phase Nat} {finished : Channel (Finished κ V E)}
      {r : Turn κ (Phase Nat) Nat} :
      Channel.sizeTurn t choice s.finished phase = some (finished, r) →
      Stepped t choice s ⟨reporting, earlier, .counting n outcome phase⟩
        { s with finished := finished }
        (match r with
          | .ret undelivered => [.notice (.stopped n undelivered)]
          | _ => [])
        (r.within (fun phase' => ⟨reporting, earlier, .counting n outcome phase'⟩)
          (fun _ => .stay ⟨reporting, earlier, .ending outcome⟩) .fail)
  /-- The second pass begins. -/
  | again (outcome : Except Failure Unit) : Stepped t choice s ⟨true, none, .ending outcome⟩ s []
      (.stay ⟨true, some outcome, .claiming⟩)
  | reported (outcome report : Except Failure Unit) :
      Stepped t choice s ⟨true, some report, .ending outcome⟩ s (complaint outcome) (.ret report)
  | unreported {earlier : Option (Except Failure Unit)} (outcome : Except Failure Unit) :
      Stepped t choice s ⟨false, earlier, .ending outcome⟩ s (complaint outcome) (.ret (.ok ()))

/-- **Inversion.** Every step of a teardown is one of these. -/
theorem stepped_of_turn {d : Teardown κ V E} {r : Turn κ (Teardown κ V E) (Except Failure Unit)}
    (h : d.turn t choice s = some (s', events, r)) : Stepped t choice s d s' events r := by
  obtain ⟨reporting, earlier, stage⟩ := d
  simp only [turn] at h
  cases stage with
  | claiming =>
      simp only [stageTurn] at h
      split at h
      · next hjoinable =>
        cases h
        exact .claimed hjoinable
      · next hjoinable =>
        cases h
        exact .unclaimed (by simpa using hjoinable)
  | closing phase =>
      obtain ⟨⟨intake, progress⟩, hvisit, heq⟩ := Option.map_eq_some_iff.mp h
      cases heq
      cases progress with
      | on phase' => exact .closing hvisit
      | ended outcome =>
          obtain rfl := Visit.leaving_of_ended hvisit
          cases outcome with
          | ok answer => exact .closed hvisit
          | error fault => exact .closeFailed hvisit
  | clearing c =>
      obtain ⟨⟨pending, marks, r'⟩, hclear, heq⟩ := Option.map_eq_some_iff.mp h
      cases heq
      exact .clearing hclear
  | cleared n =>
      cases h
      exact .cleared n
  | stopping n p =>
      obtain ⟨⟨pending, marks, r'⟩, hpush, heq⟩ := Option.map_eq_some_iff.mp h
      cases heq
      exact .stopping hpush
  | parting n =>
      simp only [stageTurn] at h
      split at h
      · next hown =>
        cases h
        exact .stayed hown
      · next hother =>
        cases h
        exact .parted hother
  | joining n =>
      obtain ⟨outcome, hverdict, heq⟩ := Option.map_eq_some_iff.mp h
      cases heq
      exact .joined hverdict
  | counting n outcome phase =>
      obtain ⟨⟨finished, r'⟩, hsize, heq⟩ := Option.map_eq_some_iff.mp h
      cases heq
      exact .counting hsize
  | ending outcome =>
      cases reporting with
      | true =>
          cases earlier with
          | none =>
              cases h
              exact .again outcome
          | some report =>
              cases h
              exact .reported outcome report
      | false =>
          cases h
          exact .unreported outcome

/-- What one step of a teardown by thread `t` may be, as far as others see it. -/
inductive Turned (t : Tid) (choice : Choice) (s : Pipeline κ V E) :
    Teardown κ V E → Pipeline κ V E → List (Event V E ν) →
      Turn κ (Teardown κ V E) (Except Failure Unit) → Prop where
  | claimed {d : Teardown κ V E} : d.stage = .claiming → s.joinable = true →
      Turned t choice s d { s with joinable := false } []
        (.stay { d with stage := .closing .arriving })
  | closing {d : Teardown κ V E} {phase phase' : Phase Unit} {intake : Monitor Bool} :
      d.stage = .closing phase →
      close.turn t choice s.intake phase = some (intake, .on phase') →
      Turned t choice s d { s with intake := intake }
        ((Visit.answer? phase (.on phase')).elim [] fun () => [.closed])
        (.stay { d with stage := .closing phase' })
  | closed {d : Teardown κ V E} {outcome : Except Fault (Option Unit)} {intake : Monitor Bool}
      {r : Turn κ (Teardown κ V E) (Except Failure Unit)} : d.stage = .closing (.leaving outcome) →
      close.turn t choice s.intake (.leaving outcome) = some (intake, .ended outcome) →
      (∀ d', r.next? = some d' → d' = { d with stage := .clearing .start }) → r ≠ .abort →
      Turned t choice s d { s with intake := intake } [] r
  | clearing {d : Teardown κ V E} {c : Channel.Clear (Entry κ V E)}
      {pending : Channel (Entry κ V E)} {marks : List (Channel.Mark (Entry κ V E))}
      {r : Turn κ (Channel.Clear (Entry κ V E)) Nat} : d.stage = .clearing c →
      c.turn Entry.onDrop? t choice s.pending = some (pending, marks, r) →
      Turned t choice s d { s with pending := pending } (marks.flatMap pendingEvent)
        (r.within (fun c' => { d with stage := .clearing c' })
          (fun n => .stay { d with stage := .cleared n }) .fail)
  | cleared {d : Teardown κ V E} (n : Nat) {events : List (Event V E ν)} : d.stage = .cleared n →
      (∀ event ∈ events, event = .notice (.cleared n)) →
      Turned t choice s d s events (.stay { d with stage := .stopping n (.start .stop) })
  | stopping {d : Teardown κ V E} {n : Nat} {p : Channel.Push (Entry κ V E)}
      {pending : Channel (Entry κ V E)} {marks : List (Channel.Mark (Entry κ V E))}
      {r : Turn κ (Channel.Push (Entry κ V E)) Unit} : d.stage = .stopping n p →
      p.turn none t choice s.pending = some (pending, marks, r) →
      Turned t choice s d { s with pending := pending } (marks.flatMap pendingEvent)
        (r.within (fun p' => { d with stage := .stopping n p' })
          (fun () => .stay { d with stage := .parting n }) .fail)
  /-- Nothing that others share is touched. -/
  | rested {d : Teardown κ V E} {events : List (Event V E ν)}
      {r : Turn κ (Teardown κ V E) (Except Failure Unit)} : d.stage.isQuiet = true →
      (∀ event ∈ events,
        event = .notice .ownThread ∨ ∃ failure, event = .notice (.unclean failure)) →
      (∀ d', r.next? = some d' → d'.stage.isQuiet = true ∧
        (d'.stage = .claiming → d'.rests = true) ∧
        (d'.rests = true →
          d.rests = true ∨ t = workerThread ∨ d.stage = .claiming ∧ s.joinable = false)) →
      r ≠ .abort → (∀ code d', r ≠ .run code d') → Turned t choice s d s events r
  | joined {d : Teardown κ V E} (n : Nat) (outcome : Except Failure Unit) :
      d.stage = .joining n → verdict? s.health = some outcome →
      Turned t choice s d s [] (.stay { d with stage := .counting n outcome .arriving })
  | counting {d : Teardown κ V E} {n : Nat} {outcome : Except Failure Unit} {phase : Phase Nat}
      {finished : Channel (Finished κ V E)} {events : List (Event V E ν)}
      {r : Turn κ (Phase Nat) Nat} : d.stage = .counting n outcome phase →
      Channel.sizeTurn t choice s.finished phase = some (finished, r) →
      (∀ event ∈ events, ∃ undelivered, event = .notice (.stopped n undelivered)) →
      Turned t choice s d { s with finished := finished } events
        (r.within (fun phase' => { d with stage := .counting n outcome phase' })
          (fun _ => .stay { d with stage := .ending outcome }) .fail)

/-- What a teardown complains of is its own. -/
theorem eq_of_mem_complaint {outcome : Except Failure Unit} {event : Event V E ν}
    (h : event ∈ (complaint outcome : List (Event V E ν))) :
    event = .notice .ownThread ∨ ∃ failure, event = .notice (.unclean failure) := by
  cases outcome with
  | ok _ => cases h
  | error failure => exact .inr ⟨failure, List.mem_singleton.mp h⟩

/-- What others see of a step. -/
theorem Stepped.turned {d : Teardown κ V E} {r : Turn κ (Teardown κ V E) (Except Failure Unit)}
    (h : Stepped t choice s d s' events r) : Turned t choice s d s' events r := by
  cases h with
  | claimed hjoinable => exact .claimed rfl hjoinable
  | unclaimed hjoinable =>
      refine .rested rfl (List.forall_mem_nil _) ?_ (Turn.stay_ne_abort _) (Turn.stay_ne_run _)
      rintro d' ⟨⟩
      exact ⟨rfl, by simp, fun _ => .inr (.inr ⟨rfl, hjoinable⟩)⟩
  | closing hvisit => exact .closing rfl hvisit
  | closed hvisit =>
      refine .closed rfl hvisit ?_ (Turn.stay_ne_abort _)
      rintro d' ⟨⟩
      rfl
  | closeFailed hvisit => exact .closed rfl hvisit (by simp [Turn.next?]) (by simp)
  | clearing hclear => exact .clearing rfl hclear
  | cleared n =>
      refine .cleared n rfl ?_
      split <;> simp
  | stopping hpush => exact .stopping rfl hpush
  | stayed hown =>
      refine .rested rfl (by simp) ?_ (Turn.stay_ne_abort _) (Turn.stay_ne_run _)
      rintro d' ⟨⟩
      exact ⟨rfl, by simp, fun _ => .inr (.inl hown)⟩
  | parted hother =>
      refine .rested rfl (List.forall_mem_nil _) ?_ (Turn.stay_ne_abort _) (Turn.stay_ne_run _)
      rintro d' ⟨⟩
      exact ⟨rfl, by simp, by simp [rests]⟩
  | joined hverdict => exact .joined _ _ rfl hverdict
  | @counting _ _ _ _ _ _ r' hsize =>
      refine .counting rfl hsize ?_
      cases r' <;> simp
  | again outcome =>
      refine .rested rfl (List.forall_mem_nil _) ?_ (Turn.stay_ne_abort _) (Turn.stay_ne_run _)
      rintro d' ⟨⟩
      exact ⟨rfl, fun _ => rfl, fun _ => .inl rfl⟩
  | reported outcome _ | unreported outcome =>
      exact .rested rfl (fun _ => eq_of_mem_complaint) (by simp [Turn.next?]) (Turn.ret_ne_abort _)
        (Turn.ret_ne_run _)

theorem turned_of_turn {d : Teardown κ V E} {r : Turn κ (Teardown κ V E) (Except Failure Unit)}
    (h : d.turn t choice s = some (s', events, r)) : Turned t choice s d s' events r :=
  (stepped_of_turn h).turned

/-! ### What the stages do -/

/-- A visit that closes the intake closes it in the step that notes it. -/
theorem close_cases {phase phase' : Phase Unit} {intake : Monitor Bool}
    (h : close.turn t choice s.intake phase = some (intake, .on phase')) :
    (intake.value = s.intake.value ∧ Visit.answer? phase (.on phase') = none) ∨
      intake.value = false ∧ Visit.answer? phase (.on phase') = some () := by
  rcases Visit.value_of_turn h with ⟨hvalue, hanswer, -⟩ | ⟨again, -, hvalue, -, hanswer⟩
  · exact .inl ⟨hvalue, hanswer⟩
  · exact .inr ⟨hvalue, hanswer⟩

variable (ν) in
/-- A clear removes everything and marks it, or it removes and marks nothing. -/
theorem clear_cases {c : Channel.Clear (Entry κ V E)} {pending : Channel (Entry κ V E)}
    {marks : List (Channel.Mark (Entry κ V E))}
    {r' : Turn κ (Channel.Clear (Entry κ V E)) Nat}
    (h : c.turn Entry.onDrop? t choice s.pending = some (pending, marks, r')) :
    (pending.value = s.pending.value ∧ (marks.flatMap pendingEvent : List (Event V E ν)) = []) ∨
      pending.value = [] ∧ (marks.flatMap pendingEvent : List (Event V E ν)) =
        [.discarded (ticketsOf s.pending.value)] ∧
        r' = .stay (.taking (.leaving (.ok (some s.pending.value)))) := by
  obtain ⟨hvalue, rfl | ⟨entry, rfl⟩⟩ | ⟨again, -, hvalue, rfl, hr⟩ := Channel.Clear.marks_of_turn h
  · exact .inl ⟨hvalue, rfl⟩
  · exact .inl ⟨hvalue, rfl⟩
  · exact .inr ⟨hvalue, rfl, hr⟩

variable (ν) in
/-- A push of the last entry adds it and marks it, or it adds and marks nothing. -/
theorem stop_cases {p : Channel.Push (Entry κ V E)} {pending : Channel (Entry κ V E)}
    {marks : List (Channel.Mark (Entry κ V E))}
    {r' : Turn κ (Channel.Push (Entry κ V E)) Unit}
    (h : p.turn none t choice s.pending = some (pending, marks, r'))
    (hstop : ∀ entry, p.item? = some entry → entry = .stop) :
    (pending.value = s.pending.value ∧ (marks.flatMap pendingEvent : List (Event V E ν)) = []) ∨
      p.ahead = some .stop ∧ pending.value = s.pending.value ++ [.stop] ∧
        (marks.flatMap pendingEvent : List (Event V E ν)) = [.stopQueued] := by
  rcases Channel.Push.marks_of_turn h with ⟨hvalue, rfl | rfl⟩ | ⟨entry, again, rfl, hvalue, rfl, -⟩
  · exact .inl ⟨hvalue, rfl⟩
  · exact .inl ⟨hvalue, rfl⟩
  · obtain rfl := hstop entry rfl
    exact .inr ⟨rfl, hvalue, rfl⟩

/-- A clear that has not cleared yet is one that had not. -/
theorem clears_of_turn {c c' : Channel.Clear (Entry κ V E)} {pending : Channel (Entry κ V E)}
    {marks : List (Channel.Mark (Entry κ V E))}
    {r' : Turn κ (Channel.Clear (Entry κ V E)) Nat}
    (h : c.turn Entry.onDrop? t choice s.pending = some (pending, marks, r'))
    (hnext : r'.next? = some c') (hclears : (Stage.clearing c').clears = true) :
    (Stage.clearing c).clears = true := by
  cases c with
  | taking phase =>
      obtain ⟨⟨c₁, progress⟩, hvisit, heq⟩ := Option.map_eq_some_iff.mp h
      cases heq
      cases progress with
      | on phase' =>
          rw [Stage.clears, (Visit.held_of_turn hvisit).1]
          rfl
      | ended outcome =>
          cases outcome <;> cases hnext
          cases hclears
  | finalizing count rest fault =>
      cases rest with
      | nil => cases fault <;> cases h <;> cases hnext
      | cons item rest =>
          cases h
          cases hcode : Entry.onDrop? item <;>
          · rw [hcode] at hnext
            cases hnext
            cases hclears
  | broken =>
      cases h
      cases hnext

/-- A teardown that is proper stays so. -/
theorem isProper_of_turn {d : Teardown κ V E} {r : Turn κ (Teardown κ V E) (Except Failure Unit)}
    (h : Turned t choice s d s' events r) (hproper : d.stage.IsProper) :
    ∀ d', r.next? = some d' → d'.stage.IsProper := by
  intro d' hnext
  cases h with
  | claimed =>
      cases hnext
      trivial
  | closing hstage hvisit =>
      cases hnext
      rw [hstage] at hproper
      exact Visit.isPlain_of_turn rfl (fun _ => ⟨(), rfl⟩) hvisit hproper
  | closed hstage _ hclear _ =>
      obtain rfl := hclear d' hnext
      trivial
  | @clearing _ _ _ r _ _ =>
      cases r <;> cases hnext <;> trivial
  | cleared n =>
      cases hnext
      refine ⟨trivial, ?_⟩
      rintro entry ⟨⟩
      rfl
  | @stopping n p _ _ r hstage hpush =>
      rw [hstage] at hproper
      obtain ⟨-, hplain⟩ := Channel.Push.ahead_of_turn hpush hproper.1
      have hproper' : ∀ p', r.next? = some p' → (Stage.stopping n p' : Stage κ V E).IsProper := by
        intro p' hp'
        obtain ⟨hplain', hsame | hnone⟩ := hplain p' hp'
        · exact ⟨hplain', fun entry hentry => hproper.2 entry (hsame ▸ hentry)⟩
        · refine ⟨hplain', fun entry hentry => ?_⟩
          rw [hnone] at hentry
          cases hentry
      cases r with
      | stay p' | run _ p' =>
          cases hnext
          exact hproper' p' rfl
      | ret _ =>
          cases hnext
          trivial
      | fail _ | abort => cases hnext
  | rested _ _ hquiet _ _ =>
      have hstage := (hquiet d' hnext).1
      cases hd : d'.stage with
      | claiming | parting _ | joining _ | ending _ => trivial
      | closing _ | clearing _ | cleared _ | stopping _ _ | counting _ _ _ =>
          rw [hd] at hstage
          cases hstage
  | joined =>
      cases hnext
      trivial
  | @counting _ _ _ _ _ r _ _ _ =>
      cases r <;> cases hnext <;> trivial

/-- A teardown leaves results, the worker's health, the tickets and the owner alone. -/
theorem frame_of_turn {d : Teardown κ V E} {r : Turn κ (Teardown κ V E) (Except Failure Unit)}
    (h : Turned t choice s d s' events r) :
    s'.finished.value = s.finished.value ∧ s'.health = s.health ∧ s'.nextTicket = s.nextTicket ∧
      s'.owned = s.owned := by
  cases h with
  | counting _ hsize _ => exact ⟨Channel.value_of_sizeTurn hsize, rfl, rfl, rfl⟩
  | _ => exact ⟨rfl, rfl, rfl, rfl⟩

/-- A teardown notes events of its own, and it removes the tasks that it discards. -/
theorem pending_of_turn {d : Teardown κ V E} {r : Turn κ (Teardown κ V E) (Except Failure Unit)}
    (h : Turned t choice s d s' events r) (hproper : d.stage.IsProper) :
    (∀ event ∈ events, event.source = .teardown) ∧
      ticketsOf s.pending.value = ticketsAt .discarded events ++ ticketsOf s'.pending.value := by
  cases h with
  | claimed | closed | joined => exact ⟨nofun, rfl⟩
  | @closing phase phase' _ _ _ =>
      cases Visit.answer? phase (.on phase') with
      | none => exact ⟨nofun, rfl⟩
      | some _ => exact ⟨by simp [Event.source], rfl⟩
  | clearing _ hclear =>
      rcases clear_cases ν hclear with ⟨hvalue, hevents⟩ | ⟨hvalue, hevents, -⟩
      · rw [hevents, hvalue]
        exact ⟨nofun, rfl⟩
      · rw [hevents, hvalue]
        exact ⟨by simp [Event.source], by simp [Event.reaching]⟩
  | cleared n _ hevents =>
      refine ⟨fun event hevent => by rw [hevents event hevent]; rfl, ?_⟩
      rw [ticketsAt_notices (fun event hevent => ⟨_, hevents event hevent⟩) .discarded]
      rfl
  | stopping hstage hpush =>
      rw [hstage] at hproper
      rcases stop_cases ν hpush hproper.2 with ⟨hvalue, hevents⟩ | ⟨-, hvalue, hevents⟩
      · rw [hevents, hvalue]
        exact ⟨nofun, rfl⟩
      · rw [hevents, hvalue, ticketsOf_append]
        exact ⟨by simp [Event.source], (List.append_nil _).symm⟩
  | rested _ hevents _ _ _ =>
      refine ⟨fun event hevent => ?_, ?_⟩
      · obtain rfl | ⟨failure, rfl⟩ := hevents event hevent <;> rfl
      · rw [ticketsAt_notices (fun event hevent => ?_) .discarded]
        · rfl
        · obtain rfl | ⟨failure, rfl⟩ := hevents event hevent <;> exact ⟨_, rfl⟩
  | counting _ _ hevents =>
      refine ⟨fun event hevent => ?_, ?_⟩
      · obtain ⟨undelivered, rfl⟩ := hevents event hevent
        rfl
      · rw [ticketsAt_notices (fun event hevent => ?_) .discarded]
        · rfl
        · obtain ⟨undelivered, rfl⟩ := hevents event hevent
          exact ⟨_, rfl⟩

/-- A teardown answers when it is through with the worker's thread. -/
theorem rests_of_ret {d : Teardown κ V E} {outcome : Except Failure Unit}
    (h : d.turn t choice s = some (s', events, .ret outcome)) : d.rests = true := by
  generalize hr : (Turn.ret outcome : Turn κ (Teardown κ V E) (Except Failure Unit)) = r at h
  cases stepped_of_turn h with
  | reported _ _ | unreported _ => rfl
  | @clearing _ _ _ _ _ r' _ => cases r' <;> cases hr
  | @stopping _ _ _ _ _ _ r' _ => cases r' <;> cases hr
  | @counting _ _ _ _ _ _ r' _ => cases r' <;> cases hr
  | claimed _ | unclaimed _ | closing _ | closed _ | closeFailed _ | cleared _ | stayed _ | parted _
  | joined _ | again _ => cases hr

end Offload.Pipeline.Teardown
