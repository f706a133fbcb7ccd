import Offload.Proofs.Demo.Scheduling
import Offload.Proofs.Pipeline.Closing

/-!
# The shutdown of the demonstration

The main thread shuts the pipeline down once. No entry of the demonstration has a destructor and no
fault strikes the worker, so the shutdown runs no code and reports that all went well.

## Main results

* `stopping_of_turn`: the shutdown, one step.
-/

namespace Offload.Demo

open Pipeline (ticketsAt)

/-- The teardowns of the demonstration. -/
abbrev Tearing := Pipeline.Teardown Position Nat TaskError

/-- Whether a shutdown at this stage has met nothing but what belongs to the demonstration. -/
def Stops : Pipeline.Teardown.Stage Position Nat TaskError → Prop
  | .claiming | .cleared _ | .parting _ | .joining _ => True
  | .closing phase => phase.IsPlain
  | .clearing (.taking phase) =>
      phase.IsPlain ∧ ∀ entries, phase.held = some entries → ∀ entry ∈ entries, IsOwn entry
  | .clearing (.finalizing _ rest fault) => fault = none ∧ ∀ entry ∈ rest, IsOwn entry
  | .clearing .broken => False
  | .stopping _ p =>
      p.IsPlain ∧ p.fault? = none ∧ ∀ entry, p.item? = some entry → entry = .stop
  | .counting _ outcome phase => outcome = .ok () ∧ phase.IsPlain
  | .ending outcome => outcome = .ok ()

theorem Stops.isProper {stage : Pipeline.Teardown.Stage Position Nat TaskError} (h : Stops stage) :
    stage.IsProper := by
  cases stage with
  | closing phase => exact h
  | stopping n p => exact ⟨h.1, h.2.2⟩
  | claiming | clearing | cleared | parting | joining | counting | ending => trivial

/-- The calls with which the main thread shuts the pipeline down, before and after it has taken the
pipeline from its owner. -/
inductive Stopping : Bool → Using → Prop where
  | taking : Stopping false (.taking true)
  | tearing (d : Tearing) : d.reporting = true →
      (∀ report, d.earlier = some report → report = .ok ()) → Stops d.stage →
      Stopping true (.teardown d)

/-- What a step of a shutdown leads to: it goes on, or reports that all went well. -/
inductive Stopped : Turn Position Tearing (Except Failure Unit) → Prop where
  | on (d : Tearing) : d.reporting = true → (∀ report, d.earlier = some report → report = .ok ()) →
      Stops d.stage → Stopped (.stay d)
  | reports : Stopped (.ret (.ok ()))

variable {settings : Settings} {t : Tid} {choice : Choice}
  {s s' : Pipeline Position Nat TaskError} {events : List (Pipeline.Event Nat TaskError Unit)}
  {r : Turn Position Using Pipeline.Answer} {x : Point} {call : Using}

/-- A step in which a shutdown clears the pending channel. -/
theorem stopped_of_clear {c : Channel.Clear (Pipeline.Entry Position Nat TaskError)}
    {pending : Channel (Pipeline.Entry Position Nat TaskError)}
    {marks : List (Channel.Mark (Pipeline.Entry Position Nat TaskError))}
    {r : Turn Position (Channel.Clear (Pipeline.Entry Position Nat TaskError)) Nat}
    {earlier : Option (Except Failure Unit)}
    (hearlier : ∀ report, earlier = some report → report = .ok ())
    (hclear : c.turn Pipeline.Entry.onDrop? t choice s.pending = some (pending, marks, r))
    (hc : Stops (.clearing c)) (hs : Proper s) :
    Proper { s with pending := pending } ∧
      Stopped (r.within (fun c' => ⟨true, earlier, .clearing c'⟩)
        (fun n => .stay ⟨true, earlier, .cleared n⟩) .fail) := by
  cases c with
  | taking phase =>
      obtain ⟨⟨c, progress⟩, hvisit, heq⟩ := Option.map_eq_some_iff.mp hclear
      cases heq
      obtain ⟨rfl, rfl, rfl⟩ | ⟨again, rfl, rfl, rfl⟩ | ⟨entries, rfl, rfl, rfl⟩ :=
        Visit.plain_cases hvisit hc.1
      · exact ⟨hs.of_pending (List.Subset.refl _), .on _ rfl hearlier ⟨trivial, nofun⟩⟩
      · refine ⟨hs.of_pending (List.nil_subset _), .on _ rfl hearlier ⟨trivial, ?_⟩⟩
        rintro entries ⟨⟩
        exact hs.pending
      · exact ⟨hs.of_pending (List.Subset.refl _), .on _ rfl hearlier ⟨rfl, hc.2 entries rfl⟩⟩
  | finalizing n rest fault =>
      obtain ⟨rfl, hrest⟩ := hc
      cases rest with
      | nil =>
          cases hclear
          exact ⟨hs, .on _ rfl hearlier trivial⟩
      | cons entry rest =>
          simp only [Channel.Clear.turn, onDrop?_of_isOwn (hrest entry List.mem_cons_self)]
            at hclear
          cases hclear
          exact ⟨hs, .on _ rfl hearlier
            ⟨rfl, fun entry' hentry' => hrest entry' (List.mem_cons_of_mem _ hentry')⟩⟩
  | broken => exact hc.elim

/-- A step in which a shutdown queues the entry that ends the worker. -/
theorem stopped_of_push {n : Nat} {p : Channel.Push (Pipeline.Entry Position Nat TaskError)}
    {pending : Channel (Pipeline.Entry Position Nat TaskError)}
    {marks : List (Channel.Mark (Pipeline.Entry Position Nat TaskError))}
    {r : Turn Position (Channel.Push (Pipeline.Entry Position Nat TaskError)) Unit}
    {earlier : Option (Except Failure Unit)}
    (hearlier : ∀ report, earlier = some report → report = .ok ())
    (hpush : p.turn none t choice s.pending = some (pending, marks, r))
    (hp : Stops (.stopping n p)) (hs : Proper s) :
    Proper { s with pending := pending } ∧
      Stopped (r.within (fun p' => ⟨true, earlier, .stopping n p'⟩)
        (fun () => .stay ⟨true, earlier, .parting n⟩) .fail) := by
  obtain ⟨hplain, hfault, hstop⟩ := hp
  have hsame := Channel.Push.fault?_of_turn hpush hplain
  have hnext := (Channel.Push.ahead_of_turn hpush hplain).2
  rw [hfault] at hsame
  constructor
  · rcases Channel.Push.marks_of_turn hpush with ⟨hvalue, -⟩ | ⟨entry, again, rfl, hvalue, -⟩
    · exact hs.of_pending (by rw [hvalue]; exact List.Subset.refl _)
    · refine ⟨fun entry' hentry' => ?_, hs.finished, hs.sound⟩
      rw [hvalue, List.mem_append, List.mem_singleton] at hentry'
      rcases hentry' with hentry' | rfl
      · exact hs.pending entry' hentry'
      · rw [hstop _ rfl]
        trivial
  · rcases r with p' | ⟨code, p'⟩ | answer | fault | _
    · obtain ⟨hplain', hitem⟩ := hnext p' rfl
      refine .on _ rfl hearlier ⟨hplain', hsame.symm, fun entry hentry => ?_⟩
      rcases hitem with hitem | hitem
      · exact hstop entry (hitem ▸ hentry)
      · rw [hitem] at hentry
        cases hentry
    · exact absurd hpush Channel.Push.turn_ne_run
    · exact .on _ rfl hearlier trivial
    · cases hsame
    · exact absurd rfl (Channel.Push.turn_live hpush)

/-- **A shutdown, one step.** It goes on with nothing but what belongs to the demonstration, or
reports that all went well. -/
theorem stopped_of_turn {d : Tearing} (hreporting : d.reporting = true)
    (hearlier : ∀ report, d.earlier = some report → report = .ok ()) (hd : Stops d.stage)
    (ht : t ≠ Pipeline.workerThread) (hs : Proper s)
    {r : Turn Position Tearing (Except Failure Unit)}
    (hturn : d.turn t choice s = some (s', events, r)) : Proper s' ∧ Stopped r := by
  cases Pipeline.Teardown.stepped_of_turn hturn with
  | claimed _ => exact ⟨⟨hs.pending, hs.finished, hs.sound⟩, .on _ hreporting hearlier trivial⟩
  | unclaimed _ => exact ⟨hs, .on _ hreporting hearlier rfl⟩
  | closing hvisit =>
      refine ⟨⟨hs.pending, hs.finished, hs.sound⟩, .on _ hreporting hearlier ?_⟩
      obtain ⟨-, -, heq⟩ | ⟨again, -, -, heq⟩ | ⟨answer, -, -, heq⟩ :=
        Visit.plain_cases hvisit hd <;> cases heq <;> trivial
  | closed _ =>
      refine ⟨⟨hs.pending, hs.finished, hs.sound⟩, .on _ hreporting hearlier ⟨trivial, ?_⟩⟩
      rintro _ ⟨⟩
  | closeFailed _ => exact hd.elim
  | clearing hclear =>
      obtain rfl := hreporting
      exact stopped_of_clear hearlier hclear hd hs
  | cleared n =>
      refine ⟨hs, .on _ hreporting hearlier ⟨trivial, rfl, ?_⟩⟩
      rintro entry ⟨⟩
      rfl
  | stopping hpush =>
      obtain rfl := hreporting
      exact stopped_of_push hearlier hpush hd hs
  | stayed hown => exact absurd hown ht
  | parted _ => exact ⟨hs, .on _ hreporting hearlier trivial⟩
  | joined hverdict =>
      refine ⟨hs, .on _ hreporting hearlier ⟨?_, trivial⟩⟩
      cases hhealth : s.health with
      | alive =>
          rw [hhealth] at hverdict
          cases hverdict
      | exited =>
          rw [hhealth] at hverdict
          cases hverdict
          rfl
      | dead fault => exact absurd hhealth (hs.sound fault)
  | @counting _ _ _ _ _ finished _ hsize =>
      obtain ⟨rfl, hplain⟩ := hd
      have hvalue : finished.value = s.finished.value := Channel.value_of_sizeTurn hsize
      refine ⟨hs.of_finished (by rw [hvalue]; exact List.Subset.refl _), ?_⟩
      obtain ⟨⟨c, progress⟩, hvisit, heq⟩ := Option.map_eq_some_iff.mp hsize
      cases heq
      obtain ⟨-, -, rfl⟩ | ⟨again, -, -, rfl⟩ | ⟨answer, -, -, rfl⟩ :=
        Visit.plain_cases hvisit hplain
      · exact .on _ hreporting hearlier ⟨rfl, trivial⟩
      · exact .on _ hreporting hearlier ⟨rfl, trivial⟩
      · exact .on _ hreporting hearlier rfl
  | again outcome =>
      obtain rfl : outcome = .ok () := hd
      refine ⟨hs, .on _ rfl ?_ trivial⟩
      rintro report ⟨⟩
      rfl
  | reported outcome report =>
      obtain rfl : outcome = .ok () := hd
      obtain rfl := hearlier report rfl
      exact ⟨hs, .reports⟩
  | unreported _ => cases hreporting

/-- **The shutdown, one step.** The main thread takes the pipeline from its owner, and in the end it
reports that all went well. -/
theorem stopping_of_turn (h : Stopping x.shut call) (howned : x.shut = false → s.owned = true)
    (ht : t ≠ Pipeline.workerThread) (hs : Proper s)
    (hturn : Pipeline.turn (plan settings) t choice s call = some (s', events, r)) :
    Change x { x with shut := true } s s' events ∧
      ((∃ call', r = .stay call' ∧ Stopping true call') ∨ r = .ret (.stopped (.ok ()))) := by
  generalize hshut : x.shut = shut at h
  cases h with
  | taking =>
      simp only [Pipeline.turn, howned hshut, Bool.not_true, Bool.false_eq_true, if_false] at hturn
      split at hturn <;> cases hturn
      exact ⟨⟨id, List.append_nil _, rfl, rfl, rfl, .inl, by rintro ⟨⟩,
        fun h => ⟨h.pending, h.finished, h.sound⟩⟩,
        .inl ⟨_, rfl, .tearing _ rfl (by rintro _ ⟨⟩) trivial⟩⟩
  | tearing d hreporting hearlier hd =>
      obtain ⟨r', htear, rfl⟩ := Pipeline.exists_of_nest hturn
      have hturned := Pipeline.Teardown.turned_of_turn htear
      obtain ⟨-, -, hnext, -⟩ := Pipeline.Teardown.frame_of_turn hturned
      obtain ⟨hproper, hstopped⟩ := stopped_of_turn hreporting hearlier hd ht hs htear
      have hnone : ∀ m : Pipeline.Milestone, Pipeline.Source.teardown ≠ m.source →
          ticketsAt m events = [] :=
        fun m => Pipeline.ticketsAt_eq_nil (Pipeline.Teardown.pending_of_turn hturned hd.isProper).1
      refine ⟨⟨hnext.trans, ?_, ?_, hnone _ (by decide), rfl, .inl, by rintro ⟨⟩,
        fun _ => hproper⟩, ?_⟩
      · rw [hnone _ (by decide)]
        exact List.append_nil _
      · rw [hnone _ (by decide)]
        rfl
      · cases hstopped with
        | on d' hreporting' hearlier' hd' =>
            exact .inl ⟨_, rfl, .tearing d' hreporting' hearlier' hd'⟩
        | reports => exact .inr rfl

end Offload.Demo
