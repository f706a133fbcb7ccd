import Offload.Proofs.Pipeline.Conservation
import Offload.Proofs.Pipeline.Duty

/-!
# How bodies end

The body of a task ends with an outcome, and then the worker notes that it has returned; or it ends
in a fault, and then its task is lost. Code is not part of a scene, so both are said of the states
of a run: in a run whose worker has ended, as many tasks have begun and not returned as bodies have
ended in a fault (`length_begun_of_ended`), and whatever the worker has noted to be returned is what
the code of the body ended with (`exists_body_of_returned`).

## Main definitions

* `ReachFaulting`: the states that a run reaches in which so many bodies have ended in a fault.
* `BodyReturned`: whether, in a run, the body of a task has ended with an outcome.
-/

namespace Offload.Pipeline

variable {κ ω V E ν : Type} {plan : Plan κ} {t u : Tid} {choice : Choice}

/-! ### Scenes -/

section Scenes

variable {v v' : View κ V E ν} {w w' : Option (Work κ V E)} {n : Nat}

/-- Whether so many tasks have begun that have not returned, besides the one that the worker is
at. -/
def Lost (n : Nat) (w : Option (Work κ V E)) (v : View κ V E ν) : Prop :=
  (reached .begun v.history).length =
    (reached .returned v.history).length + n + (w.elim [] Work.unreturned).length

/-- What is at hand when the code that the worker ran has ended. -/
theorem Work.unreturned_resume (w : Work κ V E) (result : Except Fault (Except E V)) :
    (w.resume result).unreturned = w.unreturned ∨
      ∃ ticket task fault, w = .running ticket task ∧ result = .error fault := by
  cases w with
  | running ticket task =>
      cases result with
      | ok outcome => exact .inl rfl
      | error fault => exact .inr ⟨ticket, task, fault, rfl, rfl⟩
  | publishing p => cases p <;> exact .inl rfl
  | popping _ | entering _ _ | starting _ _ | returning _ | resting | leaving | failing _
  | dying _ => exact .inl rfl

/-- **Lost tasks, one step.** No step loses a task but the end of a body in a fault, which loses
one. -/
theorem lost_of_moved (h : WorkerMoved plan t v v' w w') (hlost : Lost n w v) :
    Lost n w' v' ∨ Lost (n + 1) w' v' ∧ ∃ ticket task fault,
      v.calls t = ⟨none, [.work (.running ticket task)]⟩ ∧
      v'.calls t = ⟨some (.work (.failing fault)), []⟩ := by
  cases h with
  | stood events hbystander hhistory _ _ =>
      refine .inl ?_
      rw [Lost, hhistory, reached_append, reached_append,
        ticketsAt_eq_nil_of_ne (m := .begun) hbystander.source_ne,
        ticketsAt_eq_nil_of_ne (m := .returned) hbystander.source_ne, List.append_nil,
        List.append_nil]
      exact hlost
  | resumed w₀ result ht hwaits heq =>
      subst ht heq
      rcases w₀.unreturned_resume result with hsame | ⟨ticket, task, fault, rfl, rfl⟩
      · refine .inl ?_
        rw [Lost, Option.elim_some, hsame]
        exact hlost
      · refine .inr ⟨hlost, ticket, task, fault, hwaits, ?_⟩
        rw [Scene.withCalls_calls, Function.update_self]
        rfl
  | turned _ _ hturn hhistory _ =>
      refine .inl ?_
      have hstep := congrArg List.length (Work.unreturned_of_turn hturn)
      rw [Lost, Option.elim_some] at hlost
      simp only [Lost, hhistory, reached_append, List.length_append] at hstep ⊢
      omega

/-- The worker notes that a body has returned when it is at the result of that body. -/
theorem Work.eq_of_returned {s s' : Pipeline κ V E} {events : List (Event V E ν)} {w : Work κ V E}
    {r : Turn κ (Work κ V E) Unit} (h : Work.Turned plan t choice s w s' events r)
    {ticket : Ticket} {outcome : Except E V} (hevent : .returned ticket outcome ∈ events) :
    ∃ f, w = .returning f ∧ f.ticket = ticket ∧ f.outcome = outcome := by
  cases h with
  | returned f =>
      cases List.mem_singleton.mp hevent
      exact ⟨f, rfl, rfl, rfl⟩
  | popped hpop =>
      rcases Channel.Pop.marks_of_turn hpop with ⟨-, rfl⟩ | ⟨entry, again, -, -, rfl, -⟩
      · cases hevent
      · cases entry <;> cases List.mem_singleton.mp hevent
  | published hpush =>
      rcases Channel.Push.marks_of_turn hpush with ⟨-, rfl | rfl⟩ | ⟨f, again, -, -, rfl, -⟩
      · cases hevent
      · cases List.mem_singleton.mp hevent
      · cases List.mem_singleton.mp hevent
  | began | died => cases List.mem_singleton.mp hevent
  | entered | rested | failed => cases hevent
  | left => simp at hevent

/-- No step of the worker's own leads to the result of a body. -/
theorem Work.ne_returning {s s' : Pipeline κ V E} {events : List (Event V E ν)} {w : Work κ V E}
    {r : Turn κ (Work κ V E) Unit} (h : Work.Turned plan t choice s w s' events r)
    (f : Finished κ V E) : r.next? ≠ some (.returning f) := by
  intro hnext
  cases h with
  | @popped _ _ _ r _ =>
      rcases r with _ | _ | answer | _ | _
      · cases hnext
      · cases hnext
      · rcases answer with _ | _ | _ <;> cases hnext
      · cases hnext
      · cases hnext
  | @published _ _ _ r _ => cases r <;> cases hnext
  | entered | began | returned | rested | left | failed | died => cases hnext

/-- A body that is noted as returned was noted before, or the worker has been at its result. -/
theorem returned_of_moved (h : Moved plan t v v') {ticket : Ticket} {outcome : Except E V}
    (hevent : (u, .returned ticket outcome) ∈ v'.history) :
    (u, .returned ticket outcome) ∈ v.history ∨
      ∃ f, .work (.returning f) ∈ (v.calls u).all ∧ f.ticket = ticket ∧ f.outcome = outcome := by
  cases h with
  | still | began _ _ | resumed _ _ => exact .inl hevent
  | noted note _ => exact .inl (by simpa using hevent)
  | @turned call rest choice s' events r hactive hsound hturn hlive =>
      refine (List.mem_append.mp hevent).imp_right fun hnew => ?_
      obtain ⟨event, hmem, heq⟩ := List.mem_map.mp hnew
      cases heq
      cases hw : call.part.working? with
      | none => exact absurd rfl ((bystander_of_turn hsound hw hturn).1.source_ne _ hmem)
      | some w₀ =>
          obtain rfl := eq_work_of_working? hw
          obtain ⟨r', hturn', -⟩ := exists_of_nest hturn
          obtain ⟨f, rfl, hf⟩ := Work.eq_of_returned (Work.turned_of_turn hturn') hmem
          exact ⟨f, by rw [hactive]; exact List.mem_cons_self, hf⟩

/-- **Results of bodies, one step.** The worker comes to be at a result when the body has ended with
it. -/
theorem returning_of_moved (h : Moved plan t v v') {f : Finished κ V E}
    (hcall : .work (.returning f) ∈ (v'.calls u).all) : .work (.returning f) ∈ (v.calls u).all ∨
      ∃ task rest, v.calls u = ⟨none, .work (.running f.ticket task) :: rest⟩ ∧
        v'.calls u = ⟨some (.work (.returning f)), rest⟩ := by
  cases came_of_moved h hcall with
  | stood hold => exact .inl hold
  | began request _ heq => cases request <;> cases heq
  | @resumed call rest result hu hwaits heq hsame =>
      subst hu
      rw [hsame, Scene.withCalls_calls, Function.update_self, hwaits]
      cases call with
      | work w₀ =>
          have hw : Work.returning f = w₀.resume result := Call.work.inj heq
          cases w₀ with
          | running ticket task =>
              cases result with
              | ok outcome =>
                  cases hw
                  exact .inr ⟨task, rest, rfl, rfl⟩
              | error fault => cases hw
          | returning f' =>
              cases hw
              exact .inl List.mem_cons_self
          | publishing p => cases p <;> cases hw
          | popping _ | entering _ _ | starting _ _ | resting | leaving | failing _
          | dying _ => cases hw
      | opening _ | inside _ | closing _ | handle _ | taking _ | teardown _ => cases heq
  | @turned call rest choice events r _ _ hsound hturn hnext _ =>
      cases hw : call.part.working? with
      | none =>
          have hother := (bystander_of_turn hsound hw hturn).2
          rw [nextPart, hnext] at hother
          cases hother
      | some w₀ =>
          obtain rfl := eq_work_of_working? hw
          obtain ⟨r', hturn', rfl⟩ := exists_of_nest hturn
          refine absurd ?_ (Work.ne_returning (Work.turned_of_turn hturn') f)
          cases r' <;> cases hnext <;> rfl

end Scenes

/-! ### Bodies that end in a fault -/

section States

variable {next : κ → Move κ ω (Request κ V E) Answer (Except E V) ν} {world : ω} {codes : List κ}
  {s₀ s s' : State κ ω (Pipeline κ V E) (Call κ V E) Answer (Event V E ν)} {n : Nat}

/-- Whether the next step of thread `t` ends the body of a task in a fault. -/
def bodyFails (next : κ → Move κ ω (Request κ V E) Answer (Except E V) ν)
    (s : State κ ω (Pipeline κ V E) (Call κ V E) Answer (Event V E ν)) (t : Tid) : Bool :=
  match s.stack t with
  | .code position :: .call (.work (.running _ _)) :: _ =>
    match next position with
    | .fail _ => true
    | _ => false
  | _ => false

theorem bodyFails_iff : bodyFails next s t = true ↔ ∃ position ticket task frames fault,
    s.stack t = .code position :: .call (.work (.running ticket task)) :: frames ∧
      next position = .fail fault := by
  constructor
  · intro h
    unfold bodyFails at h
    split at h
    · next position ticket task frames hstack =>
      split at h
      · next fault hnext => exact ⟨position, ticket, task, frames, fault, hstack, hnext⟩
      · cases h
    · cases h
  · rintro ⟨position, ticket, task, frames, fault, hstack, hnext⟩
    simp only [bodyFails, hstack, hnext]

/-- The states that some interleaving reaches from `s₀` in a run in which `n` bodies have ended in a
fault. -/
inductive ReachFaulting (plan : Plan κ)
    (next : κ → Move κ ω (Request κ V E) Answer (Except E V) ν)
    (s₀ : State κ ω (Pipeline κ V E) (Call κ V E) Answer (Event V E ν)) :
    Nat → State κ ω (Pipeline κ V E) (Call κ V E) Answer (Event V E ν) → Prop where
  | start : ReachFaulting plan next s₀ 0 s₀
  | step {n : Nat} {s s' : State κ ω (Pipeline κ V E) (Call κ V E) Answer (Event V E ν)} (t : Tid)
      (choice : Choice) : ReachFaulting plan next s₀ n s →
      (machine plan next).step t choice s = some s' →
      ReachFaulting plan next s₀ (n + (bodyFails next s t).toNat) s'

theorem ReachFaulting.reach (h : ReachFaulting plan next s₀ n s) :
    (machine plan next).Reach s₀ s := by
  induction h with
  | start => exact .start
  | step t choice _ hstep ih => exact .step t choice ih hstep

/-- In every run some number of bodies have ended in a fault. -/
theorem exists_reachFaulting (h : (machine plan next).Reach s₀ s) :
    ∃ n, ReachFaulting plan next s₀ n s := by
  induction h with
  | start => exact ⟨0, .start⟩
  | step t choice _ hstep ih =>
      obtain ⟨n, hn⟩ := ih
      exact ⟨_, .step t choice hn hstep⟩

/-- A body that ends in a fault loses its task. -/
theorem lost_of_bodyFails {v v' : View κ V E ν} {w w' : Option (Work κ V E)}
    (hshows : Machine.Shows (library plan) v s) (hshows' : Machine.Shows (library plan) v' s')
    (hstaff : Staff w v) (hstaff' : Staff w' v') (hfails : bodyFails next s t = true)
    (hstep : (machine plan next).step t choice s = some s') (hlost : Lost n w v) :
    Lost (n + 1) w' v' := by
  obtain ⟨position, ticket, task, frames, fault, hstack, hnext⟩ := bodyFails_iff.mp hfails
  obtain ⟨rfl, rfl, hhistory, -, -⟩ :=
    staff_of_codeEnds hshows hshows' hstaff hstaff' hstack (by rw [hnext]; rfl) hstep
  rw [Lost, hhistory]
  exact hlost

/-- **Lost tasks.** In every run as many tasks are lost as bodies have ended in a fault. -/
theorem exists_lost (h : ReachFaulting plan next (start world codes) n s) :
    ∃ v w, Scene.Reach (library plan) opening v ∧ Machine.Shows (library plan) v s ∧
      Staff w v ∧ Lost n w v := by
  induction h with
  | start => exact ⟨opening, _, .start, shows_start plan world codes, staff_opening, rfl⟩
  | @step n s s' t choice hreach hstep ih =>
      obtain ⟨v, w, hv, hshows, hstaff, hlost⟩ := ih
      obtain ⟨v', hmoved, hshows'⟩ := hshows.exists_step (machine_fits plan next) hstep
      have hv' : Scene.Reach (library plan) opening v' := by
        rcases hmoved with rfl | hmoved
        · exact hv
        · exact hv.step t hmoved
      cases hfails : bodyFails next s t with
      | true =>
          obtain ⟨w', hstaff'⟩ := (orderly_of_reach hv').staff
          exact ⟨v', w', hv', hshows', hstaff',
            lost_of_bodyFails hshows hshows' hstaff hstaff' hfails hstep hlost⟩
      | false =>
          rcases hmoved with rfl | hmoved
          · exact ⟨v', w, hv', hshows', hstaff, hlost⟩
          · obtain ⟨w', hstaff', hworker⟩ :=
              workerMoved_of_moved (moved_of_reach hv hmoved) hstaff
            obtain hlost' | ⟨-, ticket, task, fault, hwaits, hgoes⟩ := lost_of_moved hworker hlost
            · exact ⟨v', w', hv', hshows', hstaff', hlost'⟩
            · -- the fault that has struck the worker is the end of the body
              obtain ⟨position, frames, hstack, ⟨result, -, hcall⟩ | ⟨fault', hnext, -⟩⟩ :=
                hshows.exists_end (machine_fits plan next) hshows' hstep hwaits hgoes
              · cases hcall
              · have hmove := Move.map_eq_fail_iff.mp hnext
                rw [bodyFails_iff.mpr ⟨position, ticket, task, frames, fault', hstack, hmove⟩]
                  at hfails
                cases hfails

/-- When the worker has ended, as many tasks have begun and not returned as bodies have ended in a
fault: one at most. -/
theorem length_begun_of_ended (h : ReachFaulting plan next (start world codes) n s)
    (hended : s.shared.health ≠ .alive) :
    n ≤ 1 ∧ (reached .begun s.history).length = (reached .returned s.history).length + n := by
  obtain ⟨v, w, -, hshows, hstaff, hlost⟩ := exists_lost h
  rw [← hshows.shared_eq] at hended
  obtain rfl := hstaff.tally.health.mpr hended
  obtain ⟨lost, hbegun, hone, -⟩ := hstaff.tally.begun
  have hlength := congrArg List.length hbegun
  rw [← hshows.history_eq]
  simp only [Lost, Option.elim_none, List.length_append, List.length_nil] at hlost hlength
  omega

/-! ### Bodies that have ended -/

/-- The move of code that ends. -/
def endingMove : Except Fault (Except E V) → Move κ ω (Request κ V E) Answer (Except E V) ν
  | .ok outcome => .ret outcome
  | .error fault => .fail fault

/-- Whether on the way from `s₀` to `s` the code of a body has ended, with an outcome or in a fault,
where the worker was running that body under the ticket. -/
def BodyEnded (plan : Plan κ) (next : κ → Move κ ω (Request κ V E) Answer (Except E V) ν)
    (s₀ : State κ ω (Pipeline κ V E) (Call κ V E) Answer (Event V E ν)) (ticket : Ticket)
    (result : Except Fault (Except E V))
    (s : State κ ω (Pipeline κ V E) (Call κ V E) Answer (Event V E ν)) : Prop :=
  ∃ s₁ s₂ choice position task frames, (machine plan next).Reach s₀ s₁ ∧
    s₁.stack workerThread = .code position :: .call (.work (.running ticket task)) :: frames ∧
    next position = endingMove result ∧
    (machine plan next).step workerThread choice s₁ = some s₂ ∧ (machine plan next).Reach s₂ s

theorem BodyEnded.step {ticket : Ticket} {result : Except Fault (Except E V)}
    (h : BodyEnded plan next s₀ ticket result s)
    (hstep : (machine plan next).step t choice s = some s') :
    BodyEnded plan next s₀ ticket result s' := by
  obtain ⟨s₁, s₂, choice₁, position, task, frames, hs₁, hstack, hnext, hend, hs⟩ := h
  exact ⟨s₁, s₂, choice₁, position, task, frames, hs₁, hstack, hnext, hend,
    .step t choice hs hstep⟩

/-- Whether all that has been noted to be returned under a ticket, or is about to be, is what the
code of the body has ended with on the way from `s₀` to `s`. -/
structure Credited (plan : Plan κ) (next : κ → Move κ ω (Request κ V E) Answer (Except E V) ν)
    (s₀ : State κ ω (Pipeline κ V E) (Call κ V E) Answer (Event V E ν)) (ticket : Ticket)
    (v : View κ V E ν)
    (s : State κ ω (Pipeline κ V E) (Call κ V E) Answer (Event V E ν)) : Prop where
  history : ∀ u outcome, (u, .returned ticket outcome) ∈ v.history →
    BodyEnded plan next s₀ ticket (.ok outcome) s
  calls : ∀ u f, .work (.returning f) ∈ (v.calls u).all → f.ticket = ticket →
    BodyEnded plan next s₀ ticket (.ok f.outcome) s

/-- A worker that comes to be at a result has it from the code of the body, which has just ended. -/
theorem bodyEnded_of_returning {v v' : View κ V E ν} {u : Tid} {f : Finished κ V E}
    {task : Task κ V E} {rest : List (Call κ V E)} (hv : Scene.Reach (library plan) opening v)
    (hshows : Machine.Shows (library plan) v s) (hshows' : Machine.Shows (library plan) v' s')
    (hreach : (machine plan next).Reach s₀ s) (hmoved : Scene.Step (library plan) t v v')
    (hstep : (machine plan next).step t choice s = some s')
    (hwaits : v.calls u = ⟨none, .work (.running f.ticket task) :: rest⟩)
    (hgoes : v'.calls u = ⟨some (.work (.returning f)), rest⟩) :
    BodyEnded plan next s₀ f.ticket (.ok f.outcome) s' := by
  have hu : u = t := by
    by_contra hne
    rw [hmoved.calls_ne hne, hwaits] at hgoes
    cases hgoes
  subst hu
  obtain ⟨w, hstaff⟩ := (orderly_of_reach hv).staff
  have hall : (v.calls u).all = .work (.running f.ticket task) :: rest := by
    rw [hwaits]
    rfl
  obtain ⟨rfl, -, -⟩ := hstaff.sole.eq_of_active hall rfl
  obtain ⟨position, frames, hstack, ⟨result, hnext, hcall⟩ | ⟨fault, -, hcall⟩⟩ :=
    hshows.exists_end (machine_fits plan next) hshows' hstep hwaits hgoes
  · have houtcome : f.outcome = result :=
      congrArg Finished.outcome (Work.returning.inj (Call.work.inj hcall))
    rw [houtcome]
    exact ⟨s, s', choice, position, task, frames, hreach, hstack, Move.map_eq_ret_iff.mp hnext,
      hstep, .start⟩
  · cases hcall

/-- **Results of bodies, one step of a run.** -/
theorem credited_of_step {v v' : View κ V E ν} {ticket : Ticket}
    (hv : Scene.Reach (library plan) opening v) (hshows : Machine.Shows (library plan) v s)
    (hshows' : Machine.Shows (library plan) v' s') (hreach : (machine plan next).Reach s₀ s)
    (hmoved : Scene.Step (library plan) t v v')
    (hstep : (machine plan next).step t choice s = some s')
    (h : Credited plan next s₀ ticket v s) : Credited plan next s₀ ticket v' s' := by
  refine ⟨fun u outcome hreturned => ?_, fun u f hf hticket => ?_⟩
  · rcases returned_of_moved (moved_of_reach hv hmoved) hreturned with
      hold | ⟨f, hf, hticket, rfl⟩
    · exact (h.history u outcome hold).step hstep
    · exact (h.calls u f hf hticket).step hstep
  · rcases returning_of_moved (moved_of_reach hv hmoved) hf with hf | ⟨task, rest, hwaits, hgoes⟩
    · exact (h.calls u f hf hticket).step hstep
    · exact hticket ▸
        bodyEnded_of_returning hv hshows hshows' hreach hmoved hstep hwaits hgoes

/-- What the worker notes under a ticket to be returned, after a moment at which this had not
returned and was not about to, is what the code of the body has ended with since. -/
theorem exists_body_of_returned_since {v₀ : View κ V E ν} {ticket : Ticket}
    (hv₀ : Scene.Reach (library plan) opening v₀) (hshows₀ : Machine.Shows (library plan) v₀ s₀)
    (hhistory₀ : ∀ u outcome, (u, .returned ticket outcome) ∉ v₀.history)
    (hcalls₀ : ∀ u f, .work (.returning f) ∈ (v₀.calls u).all → f.ticket ≠ ticket)
    (h : (machine plan next).Reach s₀ s) {u : Tid} {outcome : Except E V}
    (hreturned : (u, .returned ticket outcome) ∈ s.history) :
    BodyEnded plan next s₀ ticket (.ok outcome) s := by
  have hcredited : ∃ v, Scene.Reach (library plan) opening v ∧
      Machine.Shows (library plan) v s ∧ Credited plan next s₀ ticket v s := by
    clear hreturned
    induction h with
    | start =>
        exact ⟨v₀, hv₀, hshows₀, fun u outcome hk => absurd hk (hhistory₀ u outcome),
          fun u f hf hk => absurd hk (hcalls₀ u f hf)⟩
    | @step s s' t choice hreach hstep ih =>
        obtain ⟨v, hv, hshows, hcredited⟩ := ih
        obtain ⟨v', rfl | hmoved, hshows'⟩ := hshows.exists_step (machine_fits plan next) hstep
        · exact ⟨v', hv, hshows', fun u o hk => (hcredited.history u o hk).step hstep,
            fun u f hf hk => (hcredited.calls u f hf hk).step hstep⟩
        · exact ⟨v', hv.step t hmoved, hshows',
            credited_of_step hv hshows hshows' hreach hmoved hstep hcredited⟩
  obtain ⟨v, -, hshows, hcredited⟩ := hcredited
  exact hcredited.history u outcome (hshows.history_eq ▸ hreturned)

/-- **Results of bodies.** Whatever the worker has noted to be returned under a ticket is what the
code of the body has ended with that it ran under this ticket. -/
theorem exists_body_of_returned (h : (machine plan next).Reach (start world codes) s) {u : Tid}
    {ticket : Ticket} {outcome : Except E V}
    (hreturned : (u, .returned ticket outcome) ∈ s.history) :
    BodyEnded plan next (start world codes) ticket (.ok outcome) s := by
  refine exists_body_of_returned_since .start (shows_start plan world codes) nofun ?_ h hreturned
  intro u f hcall
  cases eq_of_mem_opening hcall

/-- In a run that goes on, no fewer bodies have ended in a fault. -/
theorem ReachFaulting.exists_later (h : ReachFaulting plan next s₀ n s)
    (h' : (machine plan next).Reach s s') : ∃ n', n ≤ n' ∧ ReachFaulting plan next s₀ n' s' := by
  induction h' with
  | start => exact ⟨n, le_rfl, h⟩
  | step t choice _ hstep ih =>
      obtain ⟨n', hle, hn'⟩ := ih
      exact ⟨_, hle.trans (Nat.le_add_right _ _), .step t choice hn' hstep⟩

/-- A body runs only while none has ended in a fault. -/
theorem eq_zero_of_running (h : ReachFaulting plan next (start world codes) n s)
    (hlive : s.aborted = false) {position : κ} {ticket : Ticket} {task : Task κ V E}
    {frames : Stack κ (Call κ V E) Answer}
    (hstack : s.stack workerThread =
      .code position :: .call (.work (.running ticket task)) :: frames) :
    n = 0 := by
  obtain ⟨v, w, -, hshows, hstaff, hlost⟩ := exists_lost h
  have hall : (v.calls workerThread).all =
      .work (.running ticket task) :: frames.filterMap Frame.call? := by
    rw [hshows.calls_eq hlive, hstack]
    rfl
  obtain ⟨-, rfl, -⟩ := hstaff.sole.eq_of_active hall rfl
  obtain ⟨lost, hbegun, -, hfailed⟩ := hstaff.tally.begun
  have hnil : lost = [] := by
    by_contra hne
    cases hfailed hne
  have hlength := congrArg List.length hbegun
  simp only [Lost, Option.elim_some, hnil, List.append_nil, List.length_append] at hlost hlength
  omega

/-- **Faults of bodies.** A body that has ended in a fault does not return. -/
theorem not_returned_of_bodyEnded {ticket : Ticket} {fault : Fault}
    (hended : BodyEnded plan next (start world codes) ticket (.error fault) s) (u : Tid)
    (outcome : Except E V) : (u, .returned ticket outcome) ∉ s.history := by
  obtain ⟨s₁, s₂, choice, position, task, frames, hs₁, hstack, hnext, hstep, hs⟩ := hended
  have hfails : bodyFails next s₁ workerThread = true :=
    bodyFails_iff.mpr ⟨position, ticket, task, frames, fault, hstack, hnext⟩
  obtain ⟨n, hn⟩ := exists_reachFaulting hs₁
  have hn₂ := hn.step workerThread choice hstep
  rw [hfails] at hn₂
  -- in `s₁` the worker runs the body, in `s₂` it is on its way to its own end
  obtain ⟨v₁, hv₁, hshows₁⟩ := exists_shows hs₁
  obtain ⟨v₂, hv₂, hshows₂⟩ := exists_shows hn₂.reach
  obtain ⟨w₁, hstaff₁⟩ := (orderly_of_reach hv₁).staff
  obtain ⟨w₂, hstaff₂⟩ := (orderly_of_reach hv₂).staff
  obtain ⟨rfl, rfl, hhistory, -, -⟩ :=
    staff_of_codeEnds hshows₁ hshows₂ hstaff₁ hstaff₂ hstack (by rw [hnext]; rfl) hstep
  have hfresh : ∀ u o, (u, .returned ticket o) ∉ v₂.history := by
    intro u o hold
    obtain ⟨lost, hbegun, -, -⟩ := hstaff₁.tally.begun
    have hnodup := begun_nodup (orderly_of_reach hv₁).ledger hstaff₁
    rw [hbegun] at hnodup
    rw [hhistory] at hold
    have hmem : ticket ∈ reached .returned v₁.history ++ lost :=
      List.mem_append_left _ (mem_reached hold (List.mem_singleton_self ticket))
    exact (List.nodup_append.mp hnodup).2.2 ticket hmem ticket (List.mem_singleton_self _) rfl
  have hcalls : ∀ u f, .work (.returning f) ∈ (v₂.calls u).all → f.ticket ≠ ticket := by
    intro u f hcall
    have hpicked : Work.returning f ∈ picks Part.working? (v₂.calls u).all :=
      List.mem_filterMap.mpr ⟨_, hcall, rfl⟩
    rw [hstaff₂.sole u] at hpicked
    split at hpicked
    · cases List.mem_singleton.mp hpicked
    · cases hpicked
  intro hreturned
  obtain ⟨s₃, s₄, choice₃, position₃, task₃, frames₃, hs₃, hstack₃, -, hstep₃, -⟩ :=
    exists_body_of_returned_since hv₂ hshows₂ hfresh hcalls hs hreturned
  obtain ⟨n₃, hle, hn₃⟩ := hn₂.exists_later hs₃
  rw [eq_zero_of_running hn₃ (Machine.stepped_of_step hstep₃).1 hstack₃] at hle
  cases hle

end States

end Offload.Pipeline
