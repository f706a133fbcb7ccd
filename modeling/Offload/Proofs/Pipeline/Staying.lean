import Offload.Proofs.Pipeline.Duty

/-!
# The worker stays until the last entry is queued

The entry that ends the worker is queued by a teardown. Until then the worker takes no such entry,
and its thread does not leave. So it is while the pipeline has an owner, since there is no teardown
before it is taken from its owner.

## Main results

* `unqueued_of_owned`: while the pipeline has an owner, the last entry has not been queued.
* `staying_of_reach`: until the last entry is queued, the worker does not leave.
-/

namespace Offload.Pipeline

variable {κ V E ν : Type} {plan : Plan κ} {t : Tid} {choice : Choice}

/-! ### Steps of the worker -/

namespace Work

variable {s s' : Pipeline κ V E} {events : List (Event V E ν)} {w : Work κ V E}
  {r : Turn κ (Work κ V E) Unit}

/-- Whether the worker is not about to leave. -/
def Stays : Work κ V E → Prop
  | .popping p => p.held ≠ some .stop
  | .leaving => False
  | .entering _ _ | .starting _ _ | .running _ _ | .returning _ | .publishing _ | .resting
  | .failing _ | .dying _ => True

theorem Stays.resume (h : w.Stays) (result : Except Fault (Except E V)) :
    (w.resume result).Stays := by
  cases w with
  | running ticket task => cases result <;> trivial
  | popping _ | leaving => exact h
  | entering _ _ | starting _ _ | returning _ | publishing _ | resting | failing _ | dying _ =>
      trivial

/-- A worker that pops leaves only if it takes the entry that ends it. -/
theorem stays_of_pop {p : Channel.Pop (Entry κ V E)} {pending : Channel (Entry κ V E)}
    {marks : List (Channel.Mark (Entry κ V E))}
    {r : Turn κ (Channel.Pop (Entry κ V E)) (Option (Entry κ V E))}
    (hpop : p.turn t choice s.pending = some (pending, marks, r)) (hw : (popping p).Stays)
    (hstop : .stop ∉ s.pending.value) (w' : Work κ V E)
    (hnext : (r.within .popping
      (fun
        | some (.run ticket task) => .stay (.entering ticket task)
        | some .stop => .stay .leaving
        | none => .stay start)
      fun fault => (.stay (.failing fault) : Turn κ (Work κ V E) Unit)).next? = some w') :
    w'.Stays := by
  rcases Channel.Pop.marks_of_turn hpop with ⟨-, rfl⟩ | ⟨entry, again, -, hvalue, rfl, rfl⟩
  · have hsame := Channel.Pop.held_of_turn hpop
    rcases r with p' | ⟨code, p'⟩ | answer | fault | _
    · cases hnext
      exact fun hheld => hw (hsame.trans hheld)
    · exact absurd rfl ((Channel.Pop.turn_plain hpop).2 code p')
    · rcases answer with _ | ⟨ticket, task⟩ | _
      · cases hnext
        exact nofun
      · cases hnext
        trivial
      · exact absurd hsame hw
    · cases hnext
      trivial
    · cases hnext
  · cases hnext
    rintro ⟨⟩
    exact hstop (by rw [hvalue]; exact List.mem_cons_self)

/-- **Staying, one step.** -/
theorem stays_of_turn (h : Turned plan t choice s w s' events r) (hw : w.Stays)
    (hstop : .stop ∉ s.pending.value) :
    (∀ w', r.next? = some w' → w'.Stays) ∧ (s.health ≠ .exited → s'.health ≠ .exited) := by
  cases h with
  | popped hpop => exact ⟨stays_of_pop hpop hw hstop, id⟩
  | @published p finished marks r hpush =>
      refine ⟨fun w' hnext => ?_, id⟩
      cases r <;> cases hnext <;> trivial
  | entered | returned =>
      refine ⟨?_, id⟩
      rintro w' ⟨⟩
      trivial
  | began =>
      refine ⟨?_, id⟩
      rintro w' ⟨⟩
      trivial
  | rested =>
      refine ⟨?_, id⟩
      rintro w' ⟨⟩
      exact nofun
  | left => exact hw.elim
  | failed =>
      refine ⟨?_, id⟩
      rintro w' ⟨⟩
      trivial
  | died => exact ⟨nofun, fun _ => nofun⟩

end Work

/-! ### All runs -/

variable {v v' : View κ V E ν} {w w' : Option (Work κ V E)}

/-- While the pipeline has an owner, the last entry has not been queued. -/
theorem unqueued_of_owned (hv : Orderly v) (howned : v.shared.owned = true) :
    ¬ Passed .queued v.history := by
  obtain ⟨u, d, hclosing⟩ := hv.closing
  exact (hclosing.kept.joinable (hclosing.owned howned).2).2

/-- Until the last entry is queued, only tasks are pending. -/
theorem stop_not_mem_of_unqueued (hv : Orderly v) (hqueued : ¬ Passed .queued v.history) :
    .stop ∉ v.shared.pending.value := by
  obtain ⟨u, d, hclosing⟩ := hv.closing
  exact fun hstop => hqueued (hclosing.kept.queued hstop)

/-- Whether the worker is not about to leave and has not left, until the last entry is queued. -/
structure Staying (w : Option (Work κ V E)) (v : View κ V E ν) : Prop where
  stays : ¬ Passed .queued v.history → ∀ w₀ ∈ w, w₀.Stays
  here : ¬ Passed .queued v.history → v.shared.health ≠ .exited

/-- **Staying, one step.** -/
theorem staying_of_moved (h : WorkerMoved plan t v v' w w')
    (hunqueued : ¬ Passed .queued v'.history → ¬ Passed .queued v.history) (hv : Orderly v)
    (hw : Staying w v) : Staying w' v' := by
  cases h with
  | stood _ hbystander _ _ _ =>
      exact ⟨fun h => hw.stays (hunqueued h),
        fun h => hbystander.health_eq ▸ hw.here (hunqueued h)⟩
  | resumed w₀ result _ _ heq =>
      subst heq
      refine ⟨?_, hw.here⟩
      rintro h w' ⟨⟩
      exact (hw.stays h w₀ rfl).resume result
  | turned _ _ hturn _ _ =>
      have hstep := fun h : ¬ Passed .queued v'.history => Work.stays_of_turn hturn
        (hw.stays (hunqueued h) _ rfl) (stop_not_mem_of_unqueued hv (hunqueued h))
      exact ⟨fun h => (hstep h).1, fun h => (hstep h).2 (hw.here (hunqueued h))⟩

/-- **Staying.** Until the last entry is queued, the worker does not leave. -/
theorem staying_of_reach (h : Scene.Reach (library plan) opening v) :
    ∃ w, Staff w v ∧ Staying w v := by
  refine h.invariant (P := fun v => ∃ w, Staff w v ∧ Staying w v)
    ⟨_, staff_opening, ?_, fun _ => nofun⟩ fun _ _ _ hs ⟨_, hstaff, hstaying⟩ hstep => ?_
  · rintro - w ⟨⟩
    exact nofun
  · obtain ⟨w', hstaff', hworker⟩ := workerMoved_of_moved (moved_of_reach hs hstep) hstaff
    obtain ⟨events, hevents⟩ := hstep.exists_events
    refine ⟨w', hstaff', staying_of_moved hworker (fun hunqueued hqueued => hunqueued ?_)
      (orderly_of_reach hs) hstaying⟩
    rw [hevents]
    exact passed_append.mpr (.inl hqueued)

end Offload.Pipeline
