import Offload.Proofs.Pipeline.Locks

/-!
# What a call does not see

Suppose that a pipeline is changed in the state of its finished channel or in the number of its
borrows. A call that does not look there makes the same step and leaves the change as it is. So two
runs whose states differ by such a change go on side by side until somebody looks.

The finished channel is changed in two ways here: its lock is free, where another thread owns it
that does nothing but look; or a thread is no longer among the sleepers.

## Main definitions

* `refit`: a pipeline with such a change.
* `Unseen`: a change of the finished channel that a visit does not see.

## Main results

* `turn_refit`: a call that does not see the change makes the same step.
* `unseen_release`, `unseen_rouse`: what others do not see.
-/

namespace Offload.Pipeline

variable {κ V E ν β : Type} {plan : Plan κ} {t u : Tid} {choice : Choice} {s s' : Pipeline κ V E}
  {events : List (Event V E ν)}
  {g : Channel (Finished κ V E) → Channel (Finished κ V E)} {k : Nat → Nat}

/-- The same pipeline with another finished channel and another number of borrows. -/
def refit (g : Channel (Finished κ V E) → Channel (Finished κ V E)) (k : Nat → Nat)
    (s : Pipeline κ V E) : Pipeline κ V E :=
  { s with finished := g s.finished, borrows := k s.borrows }

/-- Whether a visit of thread `u` to the finished channel, which owns the lock only if `owns` says
so, does the same where the channel is changed, and leaves the change. -/
def Unseen (g : Channel (Finished κ V E) → Channel (Finished κ V E)) (u : Tid) (owns : Bool)
    (c : Channel (Finished κ V E)) : Prop :=
  ∀ {β : Type} (v : Visit (List (Finished κ V E)) β) (choice : Choice) (phase : Phase β)
    (c' : Channel (Finished κ V E)) (progress : Progress β), (phase.owns = true → owns = true) →
    v.turn u choice c phase = some (c', progress) →
    v.turn u choice (g c) phase = some (g c', progress)

theorem unseen_id (u : Tid) (owns : Bool) (c : Channel (Finished κ V E)) : Unseen id u owns c :=
  fun _ _ _ _ _ _ h => h

section Unseen

variable {c c' c₁ : Channel (Finished κ V E)} {phase : Phase β} {progress : Progress β}

/-- A visit that does not own the lock does the same, if the lock can be taken whenever it could,
and the thread sleeps if it did. -/
theorem turn_of_not_owns (v : Visit (List (Finished κ V E)) β)
    (hacquire : ∀ {c₁}, c.acquire u = some c₁ → (g c).acquire u = some (g c₁))
    (hpoisoned : (g c).poisoned = c.poisoned)
    (hsleeps : u ∈ (g c).sleepers ↔ u ∈ c.sleepers) (hrouse : (g c).rouse u = g (c.rouse u))
    (hphase : phase.owns = false) (h : v.turn u choice c phase = some (c', progress)) :
    v.turn u choice (g c) phase = some (g c', progress) := by
  have hwake : ∀ {poisoned : Phase β}, Visit.wake c u poisoned = some (c', progress) →
      Visit.wake (g c) u poisoned = some (g c', progress) := by
    intro poisoned hwake
    obtain ⟨c₁, hc₁, heq⟩ := Option.map_eq_some_iff.mp hwake
    cases heq
    rw [Visit.wake, hacquire hc₁, hpoisoned]
    rfl
  cases phase with
  | testing _ | drowsy | acting _ | leaving _ => cases hphase
  | arriving =>
      obtain ⟨c₁, hc₁, heq⟩ := Option.map_eq_some_iff.mp h
      cases heq
      rw [Visit.turn, hacquire hc₁]
      rfl
  | overslept => exact hwake h
  | asleep =>
      simp only [Visit.turn, hsleeps, hrouse] at h ⊢
      split at h
      · next hmem =>
        rw [if_pos hmem]
        cases choice with
        | go _ => cases h
        | stir =>
            cases h
            rfl
        | expire =>
            dsimp only at h ⊢
            split at h
            · next hlimited =>
              cases h
              rw [if_pos hlimited]
            · cases h
      · next hmem =>
        rw [if_neg hmem]
        exact hwake h

/-- While another thread owns the lock, nobody sees that it is free. -/
theorem unseen_release (howner : c.owner = some t) : Unseen Monitor.release u false c := by
  intro β v choice phase c' progress hphase h
  refine turn_of_not_owns v (fun hacquire => ?_) rfl Iff.rfl rfl ?_ h
  · rw [(Monitor.acquire_eq_some hacquire).1] at howner
    cases howner
  · exact Bool.eq_false_iff.mpr fun howns => Bool.false_ne_true (hphase howns)

theorem acquire_rouse (hacquire : c.acquire u = some c₁) :
    (c.rouse t).acquire u = some (c₁.rouse t) := by
  obtain ⟨howner, rfl⟩ := Monitor.acquire_eq_some hacquire
  rw [Monitor.acquire, show (c.rouse t).owner = none from howner]
  rfl

theorem rouse_comm : (c.rouse t).rouse u = (c.rouse u).rouse t := by
  simp only [Monitor.rouse, Monitor.mk.injEq, true_and]
  exact List.erase_comm ..

theorem sleep_rouse (hu : u ≠ t) : (c.rouse t).sleep u = (c.sleep u).rouse t := by
  simp only [Monitor.rouse, Monitor.sleep, Monitor.mk.injEq, true_and]
  rw [List.erase_append]
  split
  · rfl
  · next hmem =>
    rw [List.erase_of_not_mem hmem, List.erase_of_not_mem]
    simpa using Ne.symm hu

/-- No other thread sees whether a thread is among the sleepers. -/
theorem unseen_rouse (owns : Bool) (hu : u ≠ t) : Unseen (·.rouse t) u owns c := by
  intro β v choice phase c' progress _ h
  cases phase with
  | arriving | asleep | overslept =>
      exact turn_of_not_owns (g := (·.rouse t)) v acquire_rouse rfl (List.mem_erase_of_ne hu)
        rouse_comm rfl h
  | testing again =>
      simp only [Visit.turn] at h ⊢
      split at h <;>
      · cases h
        rfl
  | drowsy =>
      cases h
      rw [Visit.turn, sleep_rouse hu]
  | acting again =>
      cases h
      rfl
  | leaving outcome =>
      cases outcome <;>
      · cases h
        rfl

end Unseen

/-! ### Parts -/

section Parts

theorem pop_refit {p : Channel.Pop (Finished κ V E)} {c c' : Channel (Finished κ V E)}
    {marks : List (Channel.Mark (Finished κ V E))}
    {r : Turn κ (Channel.Pop (Finished κ V E)) (Option (Finished κ V E))}
    (hunseen : Unseen g u p.owns c) (h : p.turn u choice c = some (c', marks, r)) :
    p.turn u choice (g c) = some (g c', marks, r) := by
  obtain ⟨⟨c₁, progress⟩, hvisit, heq⟩ := Option.map_eq_some_iff.mp h
  cases heq
  rw [Channel.Pop.turn, hunseen _ _ _ _ _ id hvisit]
  rfl

theorem size_refit {phase : Phase Nat} {c c' : Channel (Finished κ V E)}
    {r : Turn κ (Phase Nat) Nat} (hunseen : Unseen g u phase.owns c)
    (h : Channel.sizeTurn u choice c phase = some (c', r)) :
    Channel.sizeTurn u choice (g c) phase = some (g c', r) := by
  obtain ⟨⟨c₁, progress⟩, hvisit, heq⟩ := Option.map_eq_some_iff.mp h
  cases heq
  rw [Channel.sizeTurn, hunseen _ _ _ _ _ id hvisit]
  rfl

theorem push_refit {hook : Option κ} {p : Channel.Push (Finished κ V E)}
    {c c' : Channel (Finished κ V E)} {marks : List (Channel.Mark (Finished κ V E))}
    {r : Turn κ (Channel.Push (Finished κ V E)) Unit} (hunseen : Unseen g u p.owns c)
    (hnotify : p = .notifying → ∀ pick, g (c.notifyOne pick) = (g c).notifyOne pick)
    (h : p.turn hook u choice c = some (c', marks, r)) :
    p.turn hook u choice (g c) = some (g c', marks, r) := by
  cases p with
  | adding item phase =>
      obtain ⟨⟨c₁, progress⟩, hvisit, heq⟩ := Option.map_eq_some_iff.mp h
      cases heq
      rw [Channel.Push.turn, hunseen _ _ _ _ _ id hvisit]
      rfl
  | notifying =>
      cases h
      rw [Channel.Push.turn, hnotify rfl]
  | hooking =>
      cases hook <;>
      · cases h
        rfl
  | ending outcome =>
      cases outcome <;>
      · cases h
        rfl

theorem Schedule.turn_refit {stage : Schedule κ V E}
    {r : Turn κ (Schedule κ V E) (Except Failure Unit)}
    (h : stage.turn u choice s = some (s', events, r)) :
    stage.turn u choice (refit g k s) = some (refit g k s', events, r) := by
  cases stage with
  | checking job =>
      simp only [turn] at h ⊢
      split at h <;>
      · cases h
        rfl
  | entering task =>
      obtain ⟨intake, hacquire, heq⟩ := Option.map_eq_some_iff.mp h
      cases heq
      exact congrArg (Option.map _) hacquire
  | deciding task =>
      simp only [turn] at h ⊢
      split at h
      · next hopen =>
        cases h
        exact if_pos hopen
      · next hclosed =>
        cases h
        exact if_neg hclosed
  | pushing p =>
      obtain ⟨pending, marks, r', hpush, rfl, rfl, rfl⟩ := Work.exists_of_onPending h
      exact congrArg (Option.map _) hpush
  | leaving refused =>
      rcases refused with _ | _ | _ <;>
      · cases h
        rfl
  | dropping onDrop failure =>
      cases onDrop <;>
      · cases h
        rfl
  | dropped outcome =>
      cases outcome <;>
      · cases h
        rfl

theorem HandleUse.turn_refit {use : HandleUse κ V E} {r : Turn κ (HandleUse κ V E) Answer}
    (h : use.turn u choice s = some (s', events, r)) :
    use.turn u choice (refit g k s) = some (refit g k s', events, r) := by
  cases use with
  | schedule stage =>
      obtain ⟨r', hturn, rfl⟩ := exists_of_nest h
      exact congrArg (Option.map _) (Schedule.turn_refit hturn)
  | accepting phase =>
      obtain ⟨⟨intake, progress⟩, hvisit, heq⟩ := Option.map_eq_some_iff.mp h
      cases heq
      exact congrArg (Option.map _) hvisit

theorem Drain.turn_refit {stage : Drain κ V E} {r : Turn κ (Drain κ V E) Bool}
    (hunseen : Unseen g u (stage.owns .finished) s.finished)
    (h : stage.turn u choice s = some (s', events, r)) :
    stage.turn u choice (refit g k s) = some (refit g k s', events, r) := by
  cases stage with
  | going left =>
      cases left <;>
      · cases h
        rfl
  | popping left p =>
      obtain ⟨finished, marks, r', hpop, rfl, rfl, rfl⟩ := exists_of_onFinished h
      exact congrArg (Option.map _) (pop_refit hunseen hpop)
  | delivering left f =>
      cases h
      rfl
  | checking phase =>
      obtain ⟨⟨finished, r'⟩, hsize, heq⟩ := Option.map_eq_some_iff.mp h
      cases heq
      exact congrArg (Option.map _) (size_refit hunseen hsize)
  | failing fault =>
      cases h
      rfl

theorem Await.turn_refit {stage : Await κ V E} {r : Turn κ (Await κ V E) Bool}
    (hunseen : Unseen g u (stage.owns .finished) s.finished)
    (h : stage.turn u choice s = some (s', events, r)) :
    stage.turn u choice (refit g k s) = some (refit g k s', events, r) := by
  cases stage with
  | popping p =>
      obtain ⟨finished, marks, r', hpop, rfl, rfl, rfl⟩ := exists_of_onFinished h
      exact congrArg (Option.map _) (pop_refit hunseen hpop)
  | delivering f =>
      cases h
      rfl
  | ending outcome =>
      cases outcome <;>
      · cases h
        rfl

theorem Use.turn_refit {use : Use κ V E} {r : Turn κ (Use κ V E) Answer}
    (hunseen : Unseen g u (use.owns .finished) s.finished)
    (h : use.turn plan u choice s = some (s', events, r)) :
    use.turn plan u choice (refit g k s) = some (refit g k s', events, r) := by
  cases use with
  | schedule stage =>
      obtain ⟨r', hturn, rfl⟩ := exists_of_nest h
      exact congrArg (Option.map _) (Schedule.turn_refit hturn)
  | drain max =>
      cases h
      rfl
  | draining stage =>
      obtain ⟨r', hturn, rfl⟩ := exists_of_nest h
      exact congrArg (Option.map _) (Drain.turn_refit hunseen hturn)
  | await stage =>
      obtain ⟨r', hturn, rfl⟩ := exists_of_nest h
      exact congrArg (Option.map _) (Await.turn_refit hunseen hturn)
  | pendingSize phase =>
      obtain ⟨⟨pending, r'⟩, hsize, heq⟩ := Option.map_eq_some_iff.mp h
      cases heq
      exact congrArg (Option.map _) hsize
  | finishedSize phase =>
      obtain ⟨⟨finished, r'⟩, hsize, heq⟩ := Option.map_eq_some_iff.mp h
      cases heq
      exact congrArg (Option.map _) (size_refit hunseen hsize)
  | busy =>
      cases h
      rfl

theorem Work.turn_refit {w : Work κ V E} {r : Turn κ (Work κ V E) Unit}
    (hunseen : Unseen g u (w.owns .finished) s.finished)
    (hnotify : w = .publishing .notifying →
      ∀ pick, g (s.finished.notifyOne pick) = (g s.finished).notifyOne pick)
    (h : w.turn plan u choice s = some (s', events, r)) :
    w.turn plan u choice (refit g k s) = some (refit g k s', events, r) := by
  cases w with
  | popping p =>
      obtain ⟨pending, marks, r', hpop, rfl, rfl, rfl⟩ := exists_of_onPending h
      exact congrArg (Option.map _) hpop
  | publishing p =>
      obtain ⟨finished, marks, r', hpush, rfl, rfl, rfl⟩ := exists_of_onFinished h
      exact congrArg (Option.map _)
        (push_refit hunseen (fun hp => hnotify (congrArg Work.publishing hp)) hpush)
  | running _ _ => cases h
  | entering _ _ | starting _ _ | returning _ | resting | leaving | failing _ | dying _ =>
      cases h
      rfl

theorem Teardown.turn_refit {d : Teardown κ V E} {r : Turn κ (Teardown κ V E) (Except Failure Unit)}
    (hunseen : Unseen g u (d.stage.owns .finished) s.finished)
    (h : d.turn u choice s = some (s', events, r)) :
    d.turn u choice (refit g k s) = some (refit g k s', events, r) := by
  obtain ⟨reporting, earlier, stage⟩ := d
  rw [turn] at h ⊢
  cases stage with
  | claiming =>
      simp only [stageTurn] at h ⊢
      split at h
      · next hjoinable =>
        cases h
        exact if_pos hjoinable
      · next hjoinable =>
        cases h
        exact if_neg hjoinable
  | closing phase =>
      obtain ⟨⟨intake, progress⟩, hvisit, heq⟩ := Option.map_eq_some_iff.mp h
      cases heq
      exact congrArg (Option.map _) hvisit
  | clearing c =>
      obtain ⟨⟨pending, marks, r'⟩, hclear, heq⟩ := Option.map_eq_some_iff.mp h
      cases heq
      exact congrArg (Option.map _) hclear
  | cleared n =>
      cases h
      rfl
  | stopping n p =>
      obtain ⟨⟨pending, marks, r'⟩, hpush, heq⟩ := Option.map_eq_some_iff.mp h
      cases heq
      exact congrArg (Option.map _) hpush
  | parting n =>
      simp only [stageTurn] at h ⊢
      split at h
      · next hown =>
        cases h
        exact if_pos hown
      · next hown =>
        cases h
        exact if_neg hown
  | joining n =>
      obtain ⟨outcome, hverdict, heq⟩ := Option.map_eq_some_iff.mp h
      cases heq
      exact congrArg (Option.map _) hverdict
  | counting n outcome phase =>
      obtain ⟨⟨finished, r'⟩, hsize, heq⟩ := Option.map_eq_some_iff.mp h
      cases heq
      exact congrArg (Option.map _) (size_refit hunseen hsize)
  | ending outcome =>
      cases reporting <;> cases earlier <;>
      · cases h
        rfl

end Parts

/-! ### Calls -/

/-- Whether a call of thread `u` does not see a change of the finished channel, which it does not
notify while it differs. -/
structure Call.Blind (g : Channel (Finished κ V E) → Channel (Finished κ V E)) (u : Tid)
    (s : Pipeline κ V E) (call : Call κ V E) : Prop where
  unseen : Unseen g u (call.owns .finished) s.finished
  notify : call = .work (.publishing .notifying) →
    ∀ pick, g (s.finished.notifyOne pick) = (g s.finished).notifyOne pick

/-- Whether a call does not see a change of the number of borrows. -/
structure Call.Heedless (k : Nat → Nat) (s : Pipeline κ V E) (call : Call κ V E) : Prop where
  lend : ∀ use, call = .opening use → k (s.borrows + 1) = k s.borrows + 1
  giveBack : ∀ outcome, call = .closing outcome → k (s.borrows - 1) = k s.borrows - 1
  take : ∀ reporting, call = .taking reporting → s.owned = true → s.borrows = 0 → k s.borrows = 0

/-- **A call that does not see the change** makes the same step, and leaves the change. -/
theorem turn_refit {call : Call κ V E} {r : Turn κ (Call κ V E) Answer} (hblind : call.Blind g u s)
    (hheedless : call.Heedless k s) (h : turn plan u choice s call = some (s', events, r)) :
    turn plan u choice (refit g k s) call = some (refit g k s', events, r) := by
  cases Call.turned_of_turn h with
  | lent use howned =>
      refine (if_pos howned).trans ?_
      rw [refit, refit, hheedless.lend use rfl]
  | refused use howned => exact if_neg (by simp [refit, howned])
  | inside hturn => exact congrArg (Option.map _) (Use.turn_refit hblind.unseen hturn)
  | answered answer =>
      have hsame := hheedless.giveBack (.ok answer) rfl
      simp only [turn, refit, hsame]
  | failed fault =>
      have hsame := hheedless.giveBack (.error fault) rfl
      simp only [turn, refit, hsame]
  | handle hturn => exact congrArg (Option.map _) (HandleUse.turn_refit hturn)
  | missed reporting howned => exact if_pos (by simp [refit, howned])
  | taken reporting howned hborrows =>
      have hsame : k s.borrows = 0 := hheedless.take reporting rfl howned hborrows
      refine (if_neg (by simp [refit, howned])).trans ((if_pos hsame).trans ?_)
      rfl
  | teardown hturn => exact congrArg (Option.map _) (Teardown.turn_refit hblind.unseen hturn)
  | work hturn =>
      exact congrArg (Option.map _)
        (Work.turn_refit hblind.unseen (fun hw => hblind.notify (congrArg Call.work hw)) hturn)

end Offload.Pipeline
