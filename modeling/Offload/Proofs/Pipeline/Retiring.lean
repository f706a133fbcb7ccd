import Offload.Proofs.Pipeline.Coda
import Offload.Proofs.Pipeline.Invoking

/-!
# The worker's way out

A worker in the middle of its cycle, for which the entry that ends it is all that is pending, takes
that entry next and ends. It has thirteen steps of its own to go at most, besides those of the body
or the hook that it runs; at each of them it can go on, or it waits for a lock that another thread
owns. What the other threads do keeps it on its way, since only the worker touches what is pending
then.

## Main results

* `Work.retires_of_turn`: one step of the worker on its way out.
* `goesOut_since`: where it is after some steps of its own.
-/

namespace Offload.Pipeline

variable {κ ω V E ν : Type} {plan : Plan κ} {t : Tid} {choice : Choice}

/-! ### Steps of the worker -/

namespace Work

variable {s s' : Pipeline κ V E} {events : List (Event V E ν)} {w : Work κ V E}
  {r : Turn κ (Work κ V E) Unit} {pending : List (Entry κ V E)}

/-- Whether the worker is on its way out, where these entries are pending and `inCode` says whether
it waits for code. -/
def Retires (inCode : Bool) (pending : List (Entry κ V E)) : Work κ V E → Prop
  | .running _ _ => inCode = true ∧ pending = [.stop]
  | .returning _ | .publishing _ | .resting => pending = [.stop]
  | .popping p => p.Seeks ∧ pending = [.stop] ∨ p.held = some .stop
  | .leaving | .failing _ | .dying _ => True
  | .entering _ _ | .starting _ _ => False

/-- How many steps of its own a worker on its way out has to go. -/
def exitToGo (inCode : Bool) : Work κ V E → Nat
  | .running _ _ | .returning _ => 13
  | .publishing p =>
    match p with
    | .adding _ phase => phase.toGo + 9
    | .notifying => 9
    | .hooking => if inCode then 7 else 8
    | .ending _ => 7
  | .resting => 6
  | .popping p => p.toGo + 2
  | .failing _ => 2
  | .leaving | .dying _ => 1
  | .entering _ _ | .starting _ _ => 0

theorem exitToGo_le (w : Work κ V E) : w.exitToGo true ≤ 13 := by
  cases w with
  | publishing p =>
      cases p with
      | adding f phase => exact (Nat.add_le_add_right phase.toGo_le 9).trans (by decide)
      | notifying | hooking | ending _ => simp [exitToGo]
  | popping p => exact (Nat.add_le_add_right p.toGo_le 2).trans (by decide)
  | running _ _ | returning _ | entering _ _ | starting _ _ | resting | leaving | failing _
  | dying _ => simp [exitToGo]

/-- A worker on its way out has a step to go. -/
theorem exitToGo_pos {inCode : Bool} (h : w.Retires inCode pending) : 0 < w.exitToGo inCode := by
  cases w with
  | publishing p => cases p <;> cases inCode <;> simp [exitToGo]
  | entering _ _ | starting _ _ => exact h.elim
  | popping _ | running _ _ | returning _ | resting | leaving | failing _ | dying _ =>
      simp [exitToGo]

/-- **On the way out, one step.** The worker stays on its way, and has fewer steps to go. -/
theorem retires_of_turn (h : Turned plan t choice s w s' events r) (hsound : w.IsSound)
    (hw : w.Retires false s.pending.value) :
    (∀ w', r.next? = some w' → w'.Retires (ran? r).isSome s'.pending.value) ∧
      r.next?.elim 0 (exitToGo (ran? r).isSome) < w.exitToGo false := by
  cases h with
  | @popped p pending marks r hpop =>
      rcases hw with ⟨hseeks, hvalue⟩ | hheld
      · rcases Channel.Pop.seeks_of_turn hpop hvalue hseeks with
          ⟨p', rfl, hseeks', hless, -, hsame⟩ | ⟨p', rfl, hheld, hless, -, -⟩
        · refine ⟨?_, Nat.add_lt_add_right hless 2⟩
          rintro w' ⟨⟩
          exact .inl ⟨hseeks', hsame.trans hvalue⟩
        · refine ⟨?_, Nat.add_lt_add_right hless 2⟩
          rintro w' ⟨⟩
          exact .inr hheld
      · rw [Channel.Pop.turn_of_held hheld] at hpop
        cases hpop
        refine ⟨?_, Nat.lt_add_left _ (Nat.lt_succ_self 1)⟩
        rintro w' ⟨⟩
        trivial
  | @published p finished marks r hpush =>
      have hlast : s.pending.value = [.stop] := hw
      cases p with
      | adding f phase =>
          obtain ⟨⟨c₁, progress⟩, hvisit, heq⟩ := Option.map_eq_some_iff.mp hpush
          cases heq
          obtain ⟨rfl, -, rfl⟩ | ⟨again, rfl, -, rfl⟩ | ⟨answer, rfl, -, rfl⟩ :=
            Visit.plain_cases hvisit hsound
          all_goals
            refine ⟨?_, Nat.lt_succ_self _⟩
            rintro w' ⟨⟩
            exact hlast
      | notifying =>
          cases hpush
          refine ⟨?_, Nat.lt_succ_self _⟩
          rintro w' ⟨⟩
          exact hlast
      | hooking =>
          cases hhook : plan.hook <;> simp only [Channel.Push.turn, hhook] at hpush <;>
          · cases hpush
            refine ⟨?_, Nat.le_of_ble_eq_true rfl⟩
            rintro w' ⟨⟩
            exact hlast
      | ending outcome =>
          cases outcome <;>
          · cases hpush
            refine ⟨?_, Nat.le_of_ble_eq_true rfl⟩
            rintro w' ⟨⟩
            first | exact hlast | trivial
  | returned f =>
      refine ⟨?_, Nat.lt_succ_self _⟩
      rintro w' ⟨⟩
      exact hw
  | rested =>
      refine ⟨?_, Nat.lt_succ_self _⟩
      rintro w' ⟨⟩
      exact .inl ⟨trivial, hw⟩
  | failed fault =>
      refine ⟨?_, Nat.lt_succ_self _⟩
      rintro w' ⟨⟩
      trivial
  | left | died =>
      refine ⟨?_, Nat.lt_succ_self _⟩
      rintro w' ⟨⟩
  | entered | began => exact hw.elim

/-- It stays on its way when code has ended, too, and has no more steps to go. -/
theorem retires_resume (h : w.runsCode = true) (hw : w.Retires true pending)
    (ended : Except Fault (Except E V)) :
    (w.resume ended).Retires false pending ∧ (w.resume ended).exitToGo false ≤ w.exitToGo true := by
  obtain ⟨ticket, task, rfl⟩ | rfl := cases_of_runsCode h
  · cases ended with
    | ok _ => exact ⟨hw.2, le_refl _⟩
    | error _ => exact ⟨trivial, by simp [resume, exitToGo]⟩
  · exact ⟨hw, le_refl _⟩

/-- A worker that waits for code is on its way out if only the last entry is pending. -/
theorem retires_of_runsCode (h : w.runsCode = true) : w.Retires true [.stop] := by
  obtain ⟨ticket, task, rfl⟩ | rfl := cases_of_runsCode h
  · exact ⟨rfl, rfl⟩
  · rfl

/-- A worker on its way out waits for nothing but a lock. -/
theorem isPrompt_of_retires (hsound : w.IsSound) (hw : w.Retires false pending) :
    (Call.work w).IsPrompt plan ν t := by
  intro choice s
  rw [Pipeline.turn, Option.isSome_map]
  cases w with
  | popping p =>
      rw [turn, Option.isSome_map, Call.wants, wants, isFree_unless]
      rcases hw with ⟨hseeks, -⟩ | hheld
      · exact Channel.Pop.isSome_turn_of_seeks hseeks
      · rw [Channel.Pop.turn_of_held hheld, Channel.Pop.owns,
          Phase.held_eq_some (Option.join_eq_some_iff.mp hheld)]
        rfl
  | publishing p =>
      rw [turn, Option.isSome_map, Call.wants, wants, isFree_ite,
        Channel.Push.isSome_turn hsound]
      rfl
  | running _ _ => cases hw.1
  | entering _ _ | starting _ _ => exact hw.elim
  | returning _ | resting | leaving | failing _ | dying _ => rfl

end Work

/-! ### The way out -/

/-- Whether the worker is on its way out and has at most `n` steps of its own to go. -/
structure Retiring (plan : Plan κ) (n : Nat) (w : Option (Work κ V E)) (v : View κ V E ν) :
    Prop where
  reach : Scene.Reach (library plan) opening v
  staff : Staff w v
  duty : OnDuty w v
  cleared : Passed .cleared v.history
  queued : Passed .queued v.history
  retires : ∀ w', w = some w' → w'.Retires (inCode v) v.shared.pending.value
  toGo : w.elim 0 (Work.exitToGo (inCode v)) ≤ n

/-- An observer who counts the steps of the worker, without those of the code that it runs. -/
def workSteps : Machine.Observer κ ω (Pipeline κ V E) (Call κ V E) Answer (Event V E ν) Nat :=
  fun t s _ k =>
    match s.stack t with
    | .call (.work _) :: _ => k + 1
    | _ => k

section Runs

variable {next : κ → Move κ ω (Request κ V E) Answer (Except E V) ν} {world : ω} {codes : List κ}
  {s s' : State κ ω (Pipeline κ V E) (Call κ V E) Answer (Event V E ν)}
  {v v' : View κ V E ν} {w : Option (Work κ V E)} {n k : Nat}

/-- While the worker waits for code, layers stand above it. -/
theorem exists_above {w : Work κ V E} (hshows : Machine.Shows (library plan) v s)
    (hlive : s.aborted = false) (hstaff : Staff (some w) v) (hcode : inCode v = true) :
    ∃ above, above ≠ [] ∧ s.stack workerThread = above ++ [.call (.work w)] := by
  have hcalls := hshows.calls_eq hlive workerThread
  have hne : s.stack workerThread ≠ [] := by
    intro hnil
    rw [inCode, hcalls, hnil] at hcode
    cases hcode
  obtain ⟨above, call, hstack⟩ := Machine.exists_root (hshows.nested workerThread) hne
  rw [hstack] at hcalls
  cases above with
  | nil =>
      rw [inCode, hcalls] at hcode
      cases hcode
  | cons frame above =>
      refine ⟨frame :: above, List.cons_ne_nil _ _, ?_⟩
      have hlast : (v.calls workerThread).all.getLast? = some call := by
        rw [hcalls, all_callsOf, List.filterMap_append, List.getLast?_append]
        rfl
      obtain ⟨w', hw'⟩ := Option.isSome_iff_exists.mp (hstaff.bottomed call hlast)
      have hmem : call ∈ (v.calls workerThread).all := List.mem_of_getLast? hlast
      obtain ⟨-, heq⟩ := hstaff.sole.eq_of_mem (List.mem_filterMap.mpr ⟨call, hmem, hw'⟩)
      rw [hstack, eq_work_of_working? hw', Option.some.inj heq]

/-- **The way out, a step that is not the worker's.** -/
theorem Retiring.of_other (h : Retiring plan n w v) (hshows : Machine.Shows (library plan) v s)
    (hother : ∀ w frames, s.stack t ≠ .call (.work w) :: frames)
    (hstep : (machine plan next).step t choice s = some s') :
    ∃ v' w', Machine.Shows (library plan) v' s' ∧ Retiring plan n w' v' := by
  have hlive := (Machine.stepped_of_step hstep).1
  obtain ⟨v', rfl | hmoves, hshows'⟩ := hshows.exists_step (machine_fits plan next) hstep
  · exact ⟨v', w, hshows', h⟩
  · have hidle : ∀ w, (v.calls t).active ≠ some (.work w) := by
      intro w hactive
      rw [hshows.calls_eq hlive t] at hactive
      obtain ⟨frames, hstack⟩ := exists_of_active hactive
      exact hother w frames hstack
    have hmoved := moved_of_reach h.reach hmoves
    have hpending := pending_of_moved h.reach hmoved h.cleared h.queued hidle
    obtain ⟨events, hhistory⟩ := hmoves.exists_events
    have hkeeps : ∀ x, Passed x v.history → Passed x v'.history := by
      intro x hx
      rw [hhistory]
      exact hx.later _
    obtain ⟨w', hstaff', hworker⟩ := workerMoved_of_moved hmoved h.staff
    have hduty' := onDuty_of_moved hworker h.duty
    suffices hrest : (∀ w₀, w' = some w₀ → w₀.Retires (inCode v') v'.shared.pending.value) ∧
        w'.elim 0 (Work.exitToGo (inCode v')) ≤ n from
      ⟨v', w', hshows', h.reach.step t hmoves, hstaff', hduty', hkeeps _ h.cleared,
        hkeeps _ h.queued, hrest.1, hrest.2⟩
    cases hworker with
    | stood _ _ _ hwaiting _ =>
        have hincode : inCode v' = inCode v := by rw [inCode, hwaiting, inCode]
        rw [hincode, hpending]
        exact ⟨h.retires, h.toGo⟩
    | resumed w₀ ended ht hwaits heq =>
        have hcode : w₀.runsCode = true :=
          h.duty.waiting w₀ (by rw [hwaits]; exact List.mem_cons_self)
        have hincode : inCode v = true := by rw [inCode, hwaits]; rfl
        have hincode' : inCode v' = false := by
          rw [heq, inCode, Scene.withCalls_calls, Function.update_self]
          rfl
        have hretires := h.retires w₀ rfl
        have htoGo := h.toGo
        rw [hincode] at hretires htoGo
        obtain ⟨hretires', hle⟩ := Work.retires_resume hcode hretires ended
        rw [hincode', hpending]
        refine ⟨?_, hle.trans htoGo⟩
        rintro w₁ ⟨⟩
        exact hretires'
    | turned ht hactive _ _ _ =>
        subst ht
        exact absurd (by rw [hactive]) (hidle _)

/-- **The way out, a step of the worker's.** -/
theorem Retiring.of_own {w₀ : Work κ V E} {frames : Stack κ (Call κ V E) Answer}
    (h : Retiring plan n w v) (hshows : Machine.Shows (library plan) v s)
    (hstack : s.stack t = .call (.work w₀) :: frames)
    (hstep : (machine plan next).step t choice s = some s') :
    ∃ n' < n, ∃ v' w', Machine.Shows (library plan) v' s' ∧ Retiring plan n' w' v' := by
  obtain ⟨hcalls, shared, events, r, hturn, -, -, hshows'⟩ :=
    hshows.turned (machine_fits plan next) hstack hstep
  have hmoved := Scene.Step.turned hcalls hturn
  obtain ⟨r', hturn', hr⟩ := exists_of_nest hturn
  have hturned := Work.turned_of_turn hturn'
  have hall : (v.calls t).all = .work w₀ :: frames.filterMap Frame.call? := by
    rw [hcalls]
    rfl
  obtain ⟨rfl, rfl, hnil⟩ := h.staff.eq_nil_of_work hall
  have hlive : r ≠ .abort := by
    rw [hr]
    exact within_ne_abort (Work.turn_live hturned) (fun _ => nofun) fun _ => nofun
  obtain ⟨w', hstaff', hworker⟩ :=
    workerMoved_of_moved (moved_of_reach h.reach hmoved) h.staff
  rw [hnil] at hstaff' hworker hshows' hcalls hmoved
  obtain rfl := hstaff'.eq_next rfl hr hlive
  have hincode : inCode v = false := by rw [inCode, hcalls]; rfl
  have hincode' : ∀ history, inCode (⟨shared, history, Function.update v.calls workerThread
      (Calls.after (.work w₀) [] r)⟩ : View κ V E ν) = (Work.ran? r').isSome := by
    intro history
    simp only [inCode, Function.update_self, hr]
    cases r' <;> rfl
  have hretires := h.retires w₀ rfl
  have htoGo := h.toGo
  rw [hincode] at hretires htoGo
  obtain ⟨hretires', hless⟩ := Work.retires_of_turn hturned (h.duty.sound w₀ rfl) hretires
  refine ⟨_, hless.trans_le htoGo, _, _, hshows', h.reach.step _ hmoved, hstaff',
    onDuty_of_moved hworker h.duty, h.cleared.later _, h.queued.later _, ?_, ?_⟩
  · rw [hincode']
    exact hretires'
  · rw [hincode']

/-- **The way out.** While the worker makes `k` steps of its own, in every later state it has so
many less to go. -/
theorem Retiring.later (h : Retiring plan n w v) (hshows : Machine.Shows (library plan) v s)
    (h' : (machine plan next).Observed workSteps s 0 s' k) :
    ∃ n' v' w', n' + k ≤ n ∧ Machine.Shows (library plan) v' s' ∧ Retiring plan n' w' v' := by
  refine h'.invariant (P := fun s' k => ∃ n' v' w', n' + k ≤ n ∧
    Machine.Shows (library plan) v' s' ∧ Retiring plan n' w' v') ⟨n, v, w, le_refl _, hshows, h⟩ ?_
  rintro t choice s₁ s₂ k - ⟨n₁, v₁, w₁, hle, hshows₁, hretiring⟩ hstep
  rw [workSteps]
  split
  · next w₀ frames hstack =>
    obtain ⟨n₂, hlt, v₂, w₂, hshows₂, hretiring₂⟩ := hretiring.of_own hshows₁ hstack hstep
    exact ⟨n₂, v₂, w₂, by omega, hshows₂, hretiring₂⟩
  · next hother =>
    obtain ⟨v₂, w₂, hshows₂, hretiring₂⟩ := hretiring.of_other hshows₁ hother hstep
    exact ⟨n₁, v₂, w₂, hle, hshows₂, hretiring₂⟩

/-- What a worker on its way out has come to after `k` steps of its own. -/
structure GoesOut (plan : Plan κ)
    (next : κ → Move κ ω (Request κ V E) Answer (Except E V) ν)
    (s : State κ ω (Pipeline κ V E) (Call κ V E) Answer (Event V E ν)) (k : Nat) : Prop where
  /-- It has thirteen at most, and then it has ended. -/
  ends : k ≤ 13 ∧ (k = 13 → s.shared.health ≠ .alive)
  /-- Until then it is the outermost layer of its thread; and when it is the topmost, it can make
  its next step or waits for a lock that another thread owns. -/
  stands : s.aborted = false → s.shared.health = .alive → ∃ above w,
    s.stack workerThread = above ++ [.call (.work w)] ∧ (above ≠ [] → w.runsCode = true) ∧
    (above = [] → (∀ choice, ((machine plan next).step workerThread choice s).isSome = true) ∨
      ∃ u, u ≠ workerThread ∧ locks.WaitsOn (machine plan next) s workerThread u)

theorem Retiring.goesOut (h : Retiring plan n w v) (hshows : Machine.Shows (library plan) v s)
    (hs : (machine plan next).Reach (start world codes) s) (hle : n + k ≤ 13) :
    GoesOut plan next s k := by
  refine ⟨⟨by omega, fun hk halive => ?_⟩, fun hlive halive => ?_⟩ <;> cases w with
  | none =>
      rw [← hshows.shared_eq] at halive
      exact absurd halive (h.staff.tally.health.mp rfl)
  | some w => ?_
  · have hpos := Work.exitToGo_pos (h.retires w rfl)
    have htoGo : w.exitToGo (inCode v) ≤ n := h.toGo
    omega
  · cases hincode : inCode v with
    | true =>
        obtain ⟨above, hne, hstack⟩ := exists_above hshows hlive h.staff hincode
        refine ⟨above, w, hstack, fun _ => h.duty.waiting w ?_, fun hnil => absurd hnil hne⟩
        rw [h.staff.picks_eq.2, hincode]
        exact List.mem_singleton_self w
    | false =>
        have hstack := stack_of_worker hshows hlive h.staff hincode
        have hretires := h.retires w rfl
        rw [hincode] at hretires
        refine ⟨[], w, hstack, fun hne => absurd rfl hne, fun _ => ?_⟩
        exact ((Work.isPrompt_of_retires (h.duty.sound w rfl) hretires).moves_or_waits hlive
          hstack).imp_right fun ⟨l, hwaits⟩ => exists_waitsOn hs hwaits

end Runs

end Offload.Pipeline
